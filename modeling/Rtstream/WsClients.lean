import Rtstream.HttpRequests
import Rtstream.WebPanel

/-!
# `ws_server.h`, `server_main.cpp`: the pages that are connected

The web server reads the request of a connection and hands it over, with the key, to the WebSocket
server. From then on a thread takes frames off it. A page sends `ping` and a time every second,
and the handler that `server_main.cpp` sets broadcasts `pong` and that time, to all clients.

There may be any number of clients. Their threads, other threads that broadcast, and one that stops
the server take turns in any order; a write may take a part of the bytes and fail, and then nothing
more can be written. What a client sends over the whole connection is given when it connects; `recv`
returns some more of it. `stop` closes the connections it finds, waits for their threads, and then
clears `clients_`, with those that came meanwhile. A run starts with the handler set.

`Serves` says what holds of one client: what was taken off its connection, what was written to it,
and what its own thread has still to answer. Each thing that can happen to a client keeps it.
-/

namespace Rtstream

/-- The handler that `server_main.cpp` sets: what it broadcasts for a text. No string has 2⁶³
bytes. -/
def WsServer.echo (text : Bytes) : Option WsServer.Broadcast :=
  if h : ascii "ping " <+: text ∧ text.length < 2 ^ 63 then
    some
      { text := true
        data :=
          { bytes := ascii "pong " ++ text.drop 5
            length_lt := by
              have hfive : 5 ≤ text.length := h.1.length_le
              rw [List.length_append, List.length_drop]
              show 5 + _ < _
              omega } }
  else none

open WsServer

/-! ## The threads -/

/-- Where a client's thread is. -/
inductive WsPhase
  | test
  | receiving
  /-- It is in the loop over the buffer. -/
  | parsing
  /-- The handler is going to broadcast. -/
  | answering (b : Broadcast)
  /-- It goes through `count` clients and has come to the one with this index. -/
  | echoing (b : Broadcast) (next count : ℕ)
  | returned
  deriving DecidableEq, Repr

structure WsClient where
  /-- What it sends, as far as `recv` has not returned it. -/
  incoming : Bytes
  alive : Bool := true
  session : WsSession := {}
  buf : Bytes := []
  loop : WsPhase := .test
  socket : Socket UInt8
  deriving DecidableEq, Repr

structure WsClients where
  running : Bool := false
  /-- The connections that were taken over, in the order in which they came. -/
  clients : List WsClient := []
  /-- The first one of those in `clients_`; those before it were cleared. -/
  first : ℕ := 0
  /-- `stop` waits for the threads of those in `clients_` up to this one. -/
  joining : Option ℕ := none
  deriving DecidableEq, Repr

inductive WsTurn
  /-- The web server reads a request. `stream` is what the client sends, in all. -/
  | connect (stream : Bytes) (cut : Option ℕ)
  /-- A client's thread goes on: what room `recv` has, whether `broadcast` has found the next client
  alive before, and how much can be written. -/
  | go (i n : ℕ) (seen : Bool) (cut : Option ℕ)
  /-- Another thread's `broadcast` comes to a client. -/
  | broadcast (i : ℕ) (b : Broadcast) (seen : Bool) (cut : Option ℕ)
  /-- `stop` is called. -/
  | stop
  /-- `stop` goes on, if the threads it waits for have ended. -/
  | join
  deriving DecidableEq, Repr

inductive WsEvent
  | adopted (wsKey stream : Bytes)
  /-- A client's text message is complete. -/
  | said (i : ℕ) (text : Bytes)
  /-- A frame is written to a client's connection, by a client's thread or by another one. -/
  | sent (writer : Option ℕ) (i : ℕ) (f : WsFrame)
  deriving DecidableEq, Repr

namespace WsClient

/-- The thread ends. -/
def leave (c : WsClient) : WsClient :=
  { c with alive := false, loop := .returned, socket := c.socket.close }

/-- `recv` returns some bytes, or that the connection has ended. -/
def recv (c : WsClient) (n : ℕ) : WsClient :=
  if n = 0 then c.leave
  else if c.incoming = [] then c
  else
    let len := min n 16384
    { c with
      incoming := c.incoming.drop len
      buf := c.buf ++ c.incoming.take len
      loop := .parsing }

/-- What the thread does for the `i`-th client when it has taken something off the buffer. A pong
that cannot be written is passed over, but then nothing else can be written either. -/
def take (c : WsClient) (i : ℕ) (read : WsRead) (cut : Option ℕ) : WsClient × List WsEvent :=
  let r := (WsServer.mk true).handler.handle c.session read
  let c : WsClient :=
    { c with
      alive := c.alive && r.1.alive
      session := r.1
      loop := if r.1.alive then .parsing else .test }
  match read, r.2 with
  | _, .onMessage text :: _ =>
    ({ c with loop := (echo text).elim .parsing .answering }, [.said i text])
  | .frame f, .send bytes :: _ =>
    let w := c.socket.send bytes cut
    ({ c with socket := w.1 }, if w.2 then [.sent (some i) i (pongFrame f.payload)] else [])
  | _, _ => (c, [])

/-- A pass of the loop over the buffer. -/
def parse (c : WsClient) (i : ℕ) (cut : Option ℕ) : WsClient × List WsEvent :=
  match nextFrame c.buf with
  | none => ({ c with loop := .test }, [])
  | some (read, rest) => ({ c with buf := rest }).take i read cut

/-- What `broadcast` does for a client. -/
def deliver (c : WsClient) (writer : Option ℕ) (i : ℕ) (b : Broadcast) (seen : Bool)
    (cut : Option ℕ) : WsClient × List WsEvent :=
  if c.alive || seen then
    let r := c.socket.send b.bytes cut
    ({ c with alive := c.alive && r.2, socket := r.1 },
      if r.2 then [.sent writer i b.frame] else [])
  else (c, [])

end WsClient

namespace WsClients

/-- Something happens to a client, if it is there. -/
def update (s : WsClients) (i : ℕ) (f : WsClient → WsClient × List WsEvent) :
    WsClients × List WsEvent :=
  match s.clients[i]? with
  | none => (s, [])
  | some c => ({ s with clients := s.clients.set i (f c).1 }, (f c).2)

/-- The thread of the `i`-th client goes on. -/
def goTurn (s : WsClients) (i n : ℕ) (seen : Bool) (cut : Option ℕ) : WsClients × List WsEvent :=
  match (s.clients[i]?).map WsClient.loop with
  | some .test =>
    s.update i fun c =>
      (if c.alive && s.running then { c with loop := .receiving } else c.leave, [])
  | some .receiving => s.update i fun c => (c.recv n, [])
  | some .parsing => s.update i fun c => c.parse i cut
  | some (.answering b) =>
    s.update i fun c => ({ c with loop := .echoing b s.first s.clients.length }, [])
  | some (.echoing b next count) =>
    if next < count then
      let s := (s.update i fun c => ({ c with loop := .echoing b (next + 1) count }, [])).1
      s.update next fun c => c.deliver (some i) next b seen cut
    else s.update i fun c => ({ c with loop := .parsing }, [])
  | some .returned | none => (s, [])

variable (hs : HttpServer) (files : Files)

/-- The web server reads a request, and the WebSocket server may take the connection over. -/
def connectTurn (s : WsClients) (stream : Bytes) (cut : Option ℕ) : WsClients × List WsEvent :=
  match hs.handle files stream with
  | [.adopt wsKey] =>
    let r := ({} : Socket UInt8).send (WsBrowser.handshakeResponse wsKey) cut
    if wsKey.isEmpty || !r.2 then (s, [])
    else
      ({ s with
          running := true
          clients := s.clients ++ [{ incoming := HttpServer.afterRequest stream, socket := r.1 }] },
        [.adopted wsKey stream])
  | _ => (s, [])

/-- `stop`, up to the joins. One thread calls it. -/
def stopTurn (s : WsClients) : WsClients :=
  match s.joining with
  | some _ => s
  | none =>
    { s with
      running := false
      clients := s.clients.mapIdx fun i c =>
        if s.first ≤ i then { c with socket := c.socket.close } else c
      joining := some s.clients.length }

/-- `stop` after the joins: it clears `clients_`. -/
def joinTurn (s : WsClients) : WsClients :=
  match s.joining with
  | none => s
  | some count =>
    if ∀ c ∈ (s.clients.take count).drop s.first, c.loop = .returned then
      { s with first := s.clients.length, joining := none }
    else s

/-- The threads take turns. -/
def step (s : WsClients) : WsTurn → WsClients × List WsEvent
  | .connect stream cut => s.connectTurn hs files stream cut
  | .go i n seen cut => s.goTurn i n seen cut
  | .broadcast i b seen cut => s.update i fun c => c.deliver none i b seen cut
  | .stop => (s.stopTurn, [])
  | .join => (s.joinTurn, [])

end WsClients

/-! ## What is noted -/

namespace WsEvent

def adopted? : WsEvent → Option (Bytes × Bytes)
  | .adopted wsKey stream => some (wsKey, stream)
  | _ => none

def saidBy? (i : ℕ) : WsEvent → Option Bytes
  | .said j text => if j = i then some text else none
  | _ => none

def sentTo? (i : ℕ) : WsEvent → Option (Option ℕ × WsFrame)
  | .sent writer j f => if j = i then some (writer, f) else none
  | _ => none

end WsEvent

/-- What a client was told, in full texts. -/
def saidBy (i : ℕ) (os : List WsEvent) : List Bytes := os.filterMap (WsEvent.saidBy? i)

/-- The frames on a client's connection, and who wrote them. -/
def sentTo (i : ℕ) (os : List WsEvent) : List (Option ℕ × WsFrame) :=
  os.filterMap (WsEvent.sentTo? i)

/-- The frames that a client's thread has written, without pongs. -/
def answersOf (i : ℕ) (sent : List (Option ℕ × WsFrame)) : List WsFrame :=
  ((sent.filter (·.1 = some i)).map Prod.snd).filter (! isControl ·)

/-- The pongs that it has written. -/
def pongsOf (i : ℕ) (sent : List (Option ℕ × WsFrame)) : List WsFrame :=
  ((sent.filter (·.1 = some i)).map Prod.snd).filter isControl

/-- What is to be answered to texts. -/
def answersTo (said : List Bytes) : List WsFrame := (said.filterMap echo).map Broadcast.frame

/-- The pong that is to be answered to a frame. -/
def WsRead.pong? : WsRead → Option WsFrame
  | .frame f => if f.opcode = 0x9 then some (pongFrame f.payload) else none
  | .wrapped => none

theorem saidBy_append (i : ℕ) (os os' : List WsEvent) :
    saidBy i (os ++ os') = saidBy i os ++ saidBy i os' := List.filterMap_append

theorem sentTo_append (i : ℕ) (os os' : List WsEvent) :
    sentTo i (os ++ os') = sentTo i os ++ sentTo i os' := List.filterMap_append

theorem answersOf_append (i : ℕ) (sent sent' : List (Option ℕ × WsFrame)) :
    answersOf i (sent ++ sent') = answersOf i sent ++ answersOf i sent' := by
  simp only [answersOf, List.filter_append, List.map_append]

theorem pongsOf_append (i : ℕ) (sent sent' : List (Option ℕ × WsFrame)) :
    pongsOf i (sent ++ sent') = pongsOf i sent ++ pongsOf i sent' := by
  simp only [pongsOf, List.filter_append, List.map_append]

theorem answersTo_append (said said' : List Bytes) :
    answersTo (said ++ said') = answersTo said ++ answersTo said' := by
  simp only [answersTo, List.filterMap_append, List.map_append]

theorem answersTo_singleton (text : Bytes) :
    answersTo [text] = (echo text).toList.map Broadcast.frame := by
  rw [answersTo, List.filterMap_cons]
  cases echo text <;> rfl

theorem isControl_frame (b : Broadcast) : isControl b.frame = false := by
  rcases b.opcode_cases with h | h <;> simp [isControl, Broadcast.frame, h]

theorem isControl_pongFrame (payload : Bytes) : isControl (pongFrame payload) = true := rfl

/-- A frame that is broadcast is an answer if the client's thread has written it. -/
theorem answersOf_frame (i : ℕ) (writer : Option ℕ) (b : Broadcast) :
    answersOf i [(writer, b.frame)] = if writer = some i then [b.frame] else [] := by
  by_cases hwriter : writer = some i <;> simp [answersOf, hwriter, isControl_frame]

theorem pongsOf_frame (i : ℕ) (writer : Option ℕ) (b : Broadcast) :
    pongsOf i [(writer, b.frame)] = [] := by
  by_cases hwriter : writer = some i <;> simp [pongsOf, hwriter, isControl_frame]

theorem answersOf_pong (i : ℕ) (writer : Option ℕ) (payload : Bytes) :
    answersOf i [(writer, pongFrame payload)] = [] := by
  by_cases hwriter : writer = some i <;> simp [answersOf, hwriter, isControl_pongFrame]

theorem pongsOf_pong (i : ℕ) (payload : Bytes) :
    pongsOf i [(some i, pongFrame payload)] = [pongFrame payload] := by
  simp [pongsOf, isControl_pongFrame]

/-- What is done for a frame: a ping is answered, a message is handed on, or nothing is written. -/
theorem handle_cases (s : WsSession) (read : WsRead) :
    let r := (WsServer.mk true).handler.handle s read
    (∃ f, read = .frame f ∧ f.opcode = 0x9 ∧ r = (s, [.send (pong f.payload)])) ∨
      (∃ text, read.pong? = none ∧ r.1.alive = s.alive ∧ r.2 = [.onMessage text]) ∨
      (read.pong? = none ∧ (r.2 = [] ∨ r.2 = [.outOfRange])) := by
  intro r
  cases read with
  | wrapped => exact .inr (.inr ⟨rfl, .inr rfl⟩)
  | frame f =>
    have hr : r = (WsServer.mk true).handleFrame s f := rfl
    by_cases hping : f.opcode = 0x9
    · exact .inl ⟨f, rfl, hping, by simp [hr, handleFrame, hping]⟩
    have hpong : (WsRead.frame f).pong? = none := if_neg hping
    by_cases hother : f.opcode = 0x8 ∨ f.opcode = 0xA
    · refine .inr (.inr ⟨hpong, .inl ?_⟩)
      rcases hother with h | h <;> simp [hr, handleFrame, h]
    · obtain ⟨hclose, hcontrol⟩ := not_or.1 hother
      by_cases htext : (f.fin = true ∧ (collect s f).msg ≠ []) ∧ (collect s f).curOpcode = 0x1
      · refine .inr (.inl ⟨(collect s f).msg, hpong, ?_, ?_⟩)
        · rw [hr]
          simp only [handleFrame, hclose, hping, hcontrol, if_false, if_pos htext.1]
          exact collect_alive f
        · simp [hr, handleFrame, hclose, hping, hcontrol, htext]
      · refine .inr (.inr ⟨hpong, .inl ?_⟩)
        rw [hr]
        simp only [handleFrame, hclose, hping, hcontrol, if_false]
        by_cases hmsg : f.fin = true ∧ (collect s f).msg ≠ []
        · rw [if_pos hmsg, if_neg fun h => htext ⟨hmsg, h.1⟩]
        · rw [if_neg hmsg]

namespace WsClient

variable {c : WsClient} {i : ℕ} {read : WsRead} {session : WsSession} {cut : Option ℕ}

theorem take_message {text : Bytes}
    (hr : (WsServer.mk true).handler.handle c.session read = (session, [.onMessage text])) :
    c.take i read cut =
      ({ c with
          alive := c.alive && session.alive
          session := session
          loop := (echo text).elim .parsing .answering }, [.said i text]) := by
  simp only [take, hr]

theorem take_ping {f : WsFrame} {bytes : Bytes}
    (hr : (WsServer.mk true).handler.handle c.session (.frame f) = (session, [.send bytes])) :
    c.take i (.frame f) cut =
      ({ c with
          alive := c.alive && session.alive
          session := session
          loop := if session.alive then .parsing else .test
          socket := (c.socket.send bytes cut).1 },
        if (c.socket.send bytes cut).2 then [.sent (some i) i (pongFrame f.payload)] else []) := by
  simp only [take, hr]

theorem take_other {out : List WsEffect}
    (hr : (WsServer.mk true).handler.handle c.session read = (session, out))
    (hout : out = [] ∨ out = [.outOfRange]) :
    c.take i read cut =
      ({ c with
          alive := c.alive && session.alive
          session := session
          loop := if session.alive then .parsing else .test }, []) := by
  rcases hout with rfl | rfl <;> simp only [take, hr]

/-- **A pass of the loop over the buffer**: what it notes, and where the thread is then. -/
theorem parse_cases (c : WsClient) (i : ℕ) (cut : Option ℕ) :
    let r := c.parse i cut
    (∃ text, r.2 = [.said i text] ∧ r.1.loop = (echo text).elim .parsing .answering) ∨
      ((r.2 = [] ∨ ∃ payload, r.2 = [.sent (some i) i (pongFrame payload)]) ∧
        (r.1.loop = .parsing ∨ r.1.loop = .test)) := by
  simp only [parse]
  cases nextFrame c.buf with
  | none => exact .inr ⟨.inl rfl, .inr rfl⟩
  | some p =>
    obtain ⟨read, buf⟩ := p
    have hcases := handle_cases c.session read
    generalize hr : (WsServer.mk true).handler.handle c.session read = r at hcases
    obtain ⟨session, out⟩ := r
    have hloop : ∀ alive : Bool, (if alive then WsPhase.parsing else .test) = .parsing ∨
        (if alive then WsPhase.parsing else .test) = .test := fun alive => by cases alive <;> simp
    rcases hcases with ⟨f, rfl, -, hpair⟩ | ⟨text, -, -, rfl⟩ | ⟨-, hout⟩
    · obtain ⟨rfl, rfl⟩ := Prod.mk.inj hpair
      simp only [take_ping (c := { c with buf := buf }) hr]
      refine .inr ⟨?_, hloop _⟩
      split_ifs
      · exact .inr ⟨_, rfl⟩
      · exact .inl rfl
    · simp only [take_message (c := { c with buf := buf }) hr]
      exact .inl ⟨text, rfl, rfl⟩
    · simp only [take_other (c := { c with buf := buf }) hr hout]
      exact .inr ⟨.inl trivial, hloop _⟩

end WsClient

/-! ## One client -/

/-- What a client's thread has still to broadcast to the `j`-th client. -/
def WsPhase.todo (j : ℕ) : WsPhase → List Broadcast
  | .answering b => [b]
  | .echoing b next count => if next ≤ j ∧ j < count then [b] else []
  | _ => []

/-- The thread waits for more than there is in the buffer. -/
def WsPhase.Idle : WsPhase → Prop
  | .test | .receiving => True
  | _ => False

/-- The thread is in its loop. -/
def WsPhase.Busy : WsPhase → Prop
  | .receiving | .parsing | .answering _ | .echoing _ _ _ => True
  | _ => False

/-- The pings have less than 126 bytes. -/
def ShortPings (bytes : Bytes) : Prop :=
  ∀ f, .frame f ∈ (reader.items bytes).1 → f.opcode = 0x9 → f.payload.length < 126

/-- What holds of the `i`-th client, which sends `bytes` behind its request, when its texts so far
are `said`, the frames on its connection `sent`, and `rest` is still to be answered; `listed` is
whether `clients_` has it. -/
structure Serves (listed : Prop) (i : ℕ) (wsKey bytes : Bytes) (c : WsClient) (said : List Bytes)
    (sent : List (Option ℕ × WsFrame)) (rest : List Broadcast) : Prop where
  parsed : ∃ done, (reader.items bytes).1 = done ++ (reader.items (c.buf ++ c.incoming)).1 ∧
    ((WsServer.mk true).handler.run {} done).1 = c.session ∧
    texts ((WsServer.mk true).handler.run {} done).2 = said ∧
    (c.socket.fdOpen = true → pongsOf i sent = done.filterMap WsRead.pong?)
  waits : c.loop.Idle → c.session.alive = true → nextFrame c.buf = none
  live : c.loop.Busy → c.session.alive = true
  alive : c.socket.fdOpen = true → c.session.alive = true → c.alive = true
  closed : c.alive = true → c.session.alive = true
  holds : ShortPings bytes → Socket.Holds (WsBrowser.handshakeResponse wsKey) WsFrame.wire
    WsFrame.Legal c.socket (sent.map Prod.snd) ∧ ∀ p ∈ sent, p.2.Legal
  own : listed → c.socket.fdOpen = true →
    answersOf i sent ++ rest.map Broadcast.frame = answersTo said

namespace Serves

variable {listed : Prop} {i : ℕ} {wsKey bytes : Bytes} {c : WsClient} {said : List Bytes}
  {sent : List (Option ℕ × WsFrame)} {rest : List Broadcast}

theorem start (listed : Prop) (i : ℕ) (wsKey bytes : Bytes) :
    Serves listed i wsKey bytes
      { incoming := bytes
        socket := { stream := WsBrowser.handshakeResponse wsKey } } [] [] [] where
  parsed := ⟨[], rfl, rfl, rfl, fun _ => rfl⟩
  waits _ _ := rfl
  live h := h.elim
  alive _ _ := rfl
  closed _ := rfl
  holds _ := ⟨Socket.holds_preamble _ _ _, by simp⟩
  own _ _ := rfl

/-- A frame is written to the connection, or a part of it and no more. -/
theorem holds_send (h : Serves listed i wsKey bytes c said sent rest) (hshort : ShortPings bytes)
    {f : WsFrame} (hf : f.Legal) (writer : Option ℕ) (cut : Option ℕ) :
    let w := c.socket.send f.wire cut
    let sent' := sent ++ if w.2 then [(writer, f)] else []
    Socket.Holds (WsBrowser.handshakeResponse wsKey) WsFrame.wire WsFrame.Legal w.1
      (sent'.map Prod.snd) ∧ ∀ p ∈ sent', p.2.Legal := by
  intro w sent'
  have hwrite := (h.holds hshort).1.send hf f.wire_ne_nil cut
  refine ⟨?_, List.forall_mem_append.2 ⟨(h.holds hshort).2, fun p hp => ?_⟩⟩
  · rw [List.map_append]
    convert hwrite using 2
    split_ifs <;> rfl
  · split_ifs at hp
    · rw [List.mem_singleton.1 hp]
      exact hf
    · cases hp

theorem goto (h : Serves listed i wsKey bytes c said sent rest) {loop : WsPhase}
    (hidle : loop.Idle → c.session.alive = true → nextFrame c.buf = none)
    (hbusy : loop.Busy → c.session.alive = true) :
    Serves listed i wsKey bytes { c with loop := loop } said sent rest :=
  ⟨h.parsed, hidle, hbusy, h.alive, h.closed, h.holds, h.own⟩

theorem unlist (h : Serves listed i wsKey bytes c said sent rest) {listed' : Prop}
    {rest' : List Broadcast} (hlisted : listed' → listed ∧ rest' = rest) :
    Serves listed' i wsKey bytes c said sent rest' :=
  ⟨h.parsed, h.waits, h.live, h.alive, h.closed, h.holds, fun hl hopen => by
    obtain ⟨hl, rfl⟩ := hlisted hl
    exact h.own hl hopen⟩

theorem close (h : Serves listed i wsKey bytes c said sent rest) {alive : Bool}
    (halive : alive = true → c.alive = true) (rest' : List Broadcast) :
    Serves listed i wsKey bytes
      { c with alive := alive, socket := c.socket.close } said sent rest' where
  parsed := by
    obtain ⟨done, hitems, hsession, htexts, -⟩ := h.parsed
    exact ⟨done, hitems, hsession, htexts, fun hopen => by cases hopen⟩
  waits := h.waits
  live := h.live
  alive hopen := by cases hopen
  closed hopen := h.closed (halive hopen)
  holds hshort := ⟨(h.holds hshort).1.close, (h.holds hshort).2⟩
  own _ hopen := by cases hopen

theorem leave (h : Serves listed i wsKey bytes c said sent rest) (rest' : List Broadcast) :
    Serves listed i wsKey bytes c.leave said sent rest' :=
  (h.close (fun halive : false = true => by cases halive) rest').goto (fun hidle => hidle.elim)
    fun hbusy => hbusy.elim

theorem recv (h : Serves listed i wsKey bytes c said sent rest) (hloop : c.loop = .receiving)
    (n : ℕ) :
    Serves listed i wsKey bytes (c.recv n) said sent rest := by
  rw [WsClient.recv]
  split_ifs
  · exact h.leave rest
  · exact h
  · refine ⟨?_, fun hidle => hidle.elim, fun _ => h.live (by rw [hloop]; trivial), h.alive,
      h.closed, h.holds, h.own⟩
    have hsame : c.buf ++ c.incoming.take (min n 16384) ++ c.incoming.drop (min n 16384) =
        c.buf ++ c.incoming := by rw [List.append_assoc, List.take_append_drop]
    rw [hsame]
    exact h.parsed

/-- **A frame is taken off the buffer**, and `sent'` is on the connection when it is done with. -/
theorem took (h : Serves listed i wsKey bytes c said sent []) (hloop : c.loop = .parsing)
    {read : WsRead}
    {buf : Bytes} (hnext : nextFrame c.buf = some (read, buf)) {session : WsSession}
    {out : List WsEffect} (hr : (WsServer.mk true).handler.handle c.session read = (session, out))
    {loop : WsPhase} (hbusy : loop.Busy → session.alive = true)
    (hidle : loop.Idle → session.alive = false)
    (hrest : rest.map Broadcast.frame = answersTo (texts out)) {socket : Socket UInt8}
    {sent' : List (Option ℕ × WsFrame)} (hfd : socket.fdOpen = true → c.socket.fdOpen = true)
    (hpongs : socket.fdOpen = true → pongsOf i sent' = pongsOf i sent ++ read.pong?.toList)
    (hanswers : answersOf i sent' = answersOf i sent)
    (hholds : read ∈ (reader.items bytes).1 → ShortPings bytes →
      Socket.Holds (WsBrowser.handshakeResponse wsKey) WsFrame.wire WsFrame.Legal socket
        (sent'.map Prod.snd) ∧ ∀ p ∈ sent', p.2.Legal) :
    Serves listed i wsKey bytes
      { c with
        alive := c.alive && session.alive, session := session, buf := buf, loop := loop,
        socket := socket }
      (said ++ texts out) sent' rest := by
  have hlive : c.session.alive = true := h.live (by rw [hloop]; trivial)
  obtain ⟨done, hitems, hsession, htexts, hdone⟩ := h.parsed
  have hread : (reader.items (c.buf ++ c.incoming)).1 =
      read :: (reader.items (buf ++ c.incoming)).1 := by
    rw [Framing.Reader.items_of_some (reader.next_append c.incoming hnext)]
  have hrun : (WsServer.mk true).handler.run {} (done ++ [read]) =
      (session, ((WsServer.mk true).handler.run {} done).2 ++ out) := by
    rw [Framing.Handler.run_append, hsession, Framing.Handler.run_cons hlive, hr]
    simp [Framing.Handler.run]
  have hdone' : (reader.items bytes).1 =
      done ++ [read] ++ (reader.items (buf ++ c.incoming)).1 := by
    rw [hitems, hread, List.append_assoc, List.singleton_append]
  refine ⟨⟨done ++ [read], hdone', by rw [hrun], ?_, fun hopen => ?_⟩, fun hidle' halive => ?_,
    hbusy, fun hopen halive => ?_, fun halive => ?_, hholds (by simp [hdone']),
    fun hlisted hopen => ?_⟩
  · rw [hrun, texts_append, htexts]
  · rw [hpongs hopen, hdone (hfd hopen), List.filterMap_append]
    cases hp : read.pong? <;> simp [hp]
  · rw [hidle hidle'] at halive
    cases halive
  · rw [h.alive (hfd hopen) hlive, halive]
    rfl
  · rw [Bool.and_eq_true] at halive
    exact halive.2
  · have hown := h.own hlisted (hfd hopen)
    rw [List.map_nil, List.append_nil] at hown
    rw [hanswers, hown, hrest, answersTo_append]

theorem parse (h : Serves listed i wsKey bytes c said sent []) (hloop : c.loop = .parsing)
    (cut : Option ℕ) :
    let r := c.parse i cut
    Serves listed i wsKey bytes r.1 (said ++ saidBy i r.2) (sent ++ sentTo i r.2)
      (r.1.loop.todo i) := by
  have hlive : c.session.alive = true := h.live (by rw [hloop]; trivial)
  simp only [WsClient.parse]
  cases hnext : nextFrame c.buf with
  | none =>
    simp only [saidBy, sentTo, List.filterMap_nil, List.append_nil]
    exact h.goto (fun _ _ => hnext) fun hbusy => hbusy.elim
  | some p =>
    obtain ⟨read, buf⟩ := p
    have hcases := handle_cases c.session read
    generalize hr : (WsServer.mk true).handler.handle c.session read = r at hcases
    obtain ⟨session, out⟩ := r
    rcases hcases with ⟨f, rfl, hping, hpair⟩ | ⟨text, hpong, halive, rfl⟩ | ⟨hpong, hout⟩
    · -- A ping: the pong is written, or nothing more is.
      obtain ⟨rfl, rfl⟩ := Prod.mk.inj hpair
      simp only [WsClient.take_ping (c := { c with buf := buf }) hr, if_pos hlive]
      generalize hevents : (if (c.socket.send (pong f.payload) cut).2 then
        [WsEvent.sent (some i) i (pongFrame f.payload)] else []) = es
      have hsaid : saidBy i es = texts [.send (pong f.payload)] := by
        rw [← hevents]
        split_ifs <;> rfl
      have hsent : sentTo i es = if (c.socket.send (pong f.payload) cut).2 then
          [(some i, pongFrame f.payload)] else [] := by
        rw [← hevents]
        split_ifs <;> simp [sentTo, WsEvent.sentTo?]
      rw [hsaid, hsent]
      refine h.took hloop hnext hr (fun _ => hlive) (fun hidle => ?_) ?_ (fun hopen => ?_)
        (fun hopen => ?_) ?_ fun hmem hshort => ?_
      · exact hidle.elim
      · rfl
      · rw [Socket.send_fdOpen, Bool.and_eq_true] at hopen
        exact hopen.1
      · rw [Socket.send_fdOpen, ← Socket.send_snd] at hopen
        rw [if_pos hopen, pongsOf_append, pongsOf_pong, WsRead.pong?, if_pos hping]
        rfl
      · rw [answersOf_append]
        split_ifs
        · rw [answersOf_pong, List.append_nil]
        · exact List.append_nil _
      · have hlt : f.payload.length < 126 := hshort f hmem hping
        rw [pong_eq_wire hlt]
        exact h.holds_send hshort (legal_pongFrame hlt) (some i) cut
    · -- A message: its text is handed to the handler.
      simp only [WsClient.take_message (c := { c with buf := buf }) hr]
      have hsaid : saidBy i [WsEvent.said i text] = texts [.onMessage text] := by
        simp [saidBy, WsEvent.saidBy?, texts]
      have hsent : sentTo i [WsEvent.said i text] = [] := rfl
      rw [hsaid, hsent, List.append_nil]
      refine h.took hloop hnext hr (fun _ => halive.trans hlive) (fun hidle => ?_) ?_ id
        (fun _ => ?_) rfl fun _ => h.holds
      · cases hecho : echo text <;> rw [hecho] at hidle <;> exact hidle.elim
      · rw [show texts [WsEffect.onMessage text] = [text] from rfl, answersTo_singleton]
        cases echo text <;> rfl
      · rw [hpong]
        exact (List.append_nil _).symm
    · -- Nothing is written.
      simp only [WsClient.take_other (c := { c with buf := buf }) hr hout]
      have htexts : saidBy i [] = texts out := by rcases hout with rfl | rfl <;> rfl
      have htodo : (if session.alive = true then WsPhase.parsing else .test).todo i = [] := by
        split_ifs <;> rfl
      rw [htexts, htodo, show sentTo i [] = [] from rfl, List.append_nil]
      refine h.took hloop hnext hr (fun hbusy => ?_) (fun hidle => ?_) ?_ id (fun _ => ?_) rfl
        fun _ => h.holds
      · by_contra hdead
        rw [if_neg hdead] at hbusy
        exact hbusy
      · by_contra halive
        rw [if_pos (Bool.not_eq_false _ ▸ halive)] at hidle
        exact hidle
      · rw [← htexts]
        rfl
      · rw [hpong]
        exact (List.append_nil _).symm

/-- **A broadcast comes to the client**, of its own thread or of another one. -/
theorem deliver (h : Serves listed i wsKey bytes c said sent rest) {writer : Option ℕ}
    {b : Broadcast}
    {rest' : List Broadcast} (hrest : (if writer = some i then [b] else []) ++ rest' = rest)
    (hlive : writer = some i → c.session.alive = true) (seen : Bool) (cut : Option ℕ) :
    let r := c.deliver writer i b seen cut
    Serves listed i wsKey bytes r.1 said (sent ++ sentTo i r.2) rest' := by
  simp only [WsClient.deliver]
  by_cases hfound : (c.alive || seen) = true
  · rw [if_pos hfound]
    have hsent : sentTo i (if (c.socket.send b.bytes cut).2 then [.sent writer i b.frame] else []) =
        if (c.socket.send b.bytes cut).2 then [(writer, b.frame)] else [] := by
      split_ifs <;> simp [sentTo, WsEvent.sentTo?]
    have hok : (c.socket.send b.bytes cut).1.fdOpen = true →
        c.socket.fdOpen = true ∧ (c.socket.send b.bytes cut).2 = true := by
      intro hopen
      rw [Socket.send_fdOpen] at hopen
      exact ⟨(Bool.and_eq_true _ _ ▸ hopen).1, by rw [Socket.send_snd, hopen]⟩
    rw [hsent]
    refine ⟨?_, h.waits, h.live, fun hopen halive => ?_, fun halive => ?_, fun hshort => ?_,
      fun hlisted hopen => ?_⟩
    · obtain ⟨done, hitems, hsession, htexts, hpongs⟩ := h.parsed
      refine ⟨done, hitems, hsession, htexts, fun hopen => ?_⟩
      rw [if_pos (hok hopen).2, pongsOf_append, pongsOf_frame, List.append_nil,
        hpongs (hok hopen).1]
    · rw [h.alive (hok hopen).1 halive, (hok hopen).2]
      rfl
    · rw [Bool.and_eq_true] at halive
      exact h.closed halive.1
    · rw [b.bytes_eq_wire]
      exact h.holds_send hshort b.legal_frame writer cut
    · rw [if_pos (hok hopen).2, answersOf_append, answersOf_frame, ← h.own hlisted (hok hopen).1,
        ← hrest, List.map_append, List.append_assoc]
      split_ifs <;> rfl
  · -- It is passed over because it was not alive.
    rw [if_neg hfound]
    simp only [sentTo, List.filterMap_nil, List.append_nil]
    refine ⟨h.parsed, h.waits, h.live, h.alive, h.closed, h.holds, fun hlisted hopen => ?_⟩
    have hother : writer ≠ some i := fun hself =>
      hfound (by rw [h.alive hopen (hlive hself), Bool.true_or])
    rw [if_neg hother, List.nil_append] at hrest
    rw [hrest]
    exact h.own hlisted hopen

end Serves

end Rtstream
