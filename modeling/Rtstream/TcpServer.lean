import Rtstream.TcpClient
import Rtstream.ThreadSafeQueue

/-!
# `tcp_server.h`: the frames of a slow client

The server keeps a queue of 16 frames and a sending thread for each client. `broadcast` puts a
frame into the queue of every client that is alive and counts a frame that the queue refuses in
`queue_dropped`. A full queue does not refuse: it drops its oldest frame and counts that in a
counter of its own.

Each thread's turn is a step. A client meets the server through its own turns only
(`client_follows`), so what happens to its frames is what happens in a run of these.

* `broadcast_balance`: while a client is alive and its queue open, what was broadcast is what was
  popped, is queued, or was dropped by the queue.
* `drops_counted_iff`: no frame is missing from the books if and only if no broadcast found the
  queue full.
-/

namespace Rtstream

namespace TcpServer

/-- Where a client's `send_loop` is. -/
inductive SendLoop
  | popping
  | sending (f : EncodedFrame)
  | ended
  deriving DecidableEq, Repr

structure Client where
  queue : ThreadSafeQueue EncodedFrame := { capacity := 16 }
  alive : Bool := true
  sendLoop : SendLoop := .popping
  deriving DecidableEq, Repr

/-- What happens to a client. -/
inductive ClientTurn
  /-- The body of the loop in `broadcast`. -/
  | offer (f : EncodedFrame)
  /-- The sending thread goes on; a `send` it makes succeeds or fails. -/
  | sendLoop (ok : Bool)
  /-- `stats_loop` sends statistics. -/
  | stats (ok : Bool)
  /-- The body of the loop in `stop`. -/
  | close
  /-- Something happens to another client. -/
  | other
  deriving DecidableEq, Repr

inductive ClientEffect
  /-- `Metrics::queue_dropped++`. -/
  | queueDropped
  | popped (f : EncodedFrame)
  | sent (bytes : Bytes)
  deriving DecidableEq, Repr

namespace Client

/-- A frame is offered, and counted if `try_push` returns `false`. -/
def offer (c : Client) (f : EncodedFrame) : Client × List ClientEffect :=
  if c.alive then
    let r := c.queue.tryPush f
    ({ c with queue := r.1 }, r.2.filterMap fun
      | .rejected _ => some .queueDropped
      | _ => none)
  else (c, [])

/-- `send_loop`: pop a frame and send it, until the queue is closed or a `send` fails. -/
def runSendLoop (c : Client) (ok : Bool) : Client × List ClientEffect :=
  match c.sendLoop with
  | .popping =>
    let r := c.queue.pop
    match r.2 with
    | .popped f :: _ => ({ c with queue := r.1, sendLoop := .sending f }, [.popped f])
    | .empty :: _ => ({ c with queue := r.1, sendLoop := .ended, alive := false }, [])
    | _ => ({ c with queue := r.1 }, [])
  | .sending f =>
    if ok then ({ c with sendLoop := .popping }, [.sent (sendFrame f)])
    else ({ c with sendLoop := .ended, alive := false }, [])
  | .ended => (c, [])

/-- `stats_loop`: a `send` that fails ends the client. -/
def runStats (c : Client) (ok : Bool) : Client :=
  if c.alive && !ok then { c with alive := false, queue := c.queue.close } else c

/-- A client as a machine that is fed its turns. -/
def step (c : Client) : ClientTurn → Client × List ClientEffect
  | .offer f => c.offer f
  | .sendLoop ok => c.runSendLoop ok
  | .stats ok => (c.runStats ok, [])
  | .close => ({ c with queue := c.queue.close }, [])
  | .other => (c, [])

end Client

end TcpServer

structure TcpServer where
  running : Bool := true
  clients : List TcpServer.Client := []
  deriving DecidableEq, Repr

namespace TcpServer

/-- A turn of one of the server's threads, or a call. -/
inductive Turn
  | accept
  | broadcast (f : EncodedFrame)
  | sendLoop (c : ℕ) (ok : Bool)
  | statsLoop (c : ℕ) (ok : Bool)
  /-- `stop`, up to where it joins the threads. -/
  | stop
  deriving DecidableEq, Repr

/-- What a turn means for client `c`. -/
def Turn.forClient (c : ℕ) : Turn → ClientTurn
  | .accept => .other
  | .broadcast f => .offer f
  | .sendLoop c' ok => if c' = c then .sendLoop ok else .other
  | .statsLoop c' ok => if c' = c then .stats ok else .other
  | .stop => .close

/-- The server as a machine that is fed turns; effects come with the client's number. -/
def step (s : TcpServer) (t : Turn) : TcpServer × List (ℕ × ClientEffect) :=
  let turns := s.clients.mapIdx fun c client => client.step (t.forClient c)
  ({ running := s.running && t != .stop
     clients := turns.map (·.1) ++ if s.running && t == .accept then [{}] else [] },
    ((turns.map (·.2)).mapIdx fun c es => es.map fun e => (c, e)).flatten)

/-! ## One client's part -/

/-- The effects on client `c`. -/
def effectOn? (c : ℕ) (e : ℕ × ClientEffect) : Option ClientEffect :=
  if e.1 = c then some e.2 else none

theorem filterMap_effectOn (c k : ℕ) (es : List ClientEffect) :
    (es.map fun e => (k, e)).filterMap (effectOn? c) = if k = c then es else [] := by
  rw [List.filterMap_map]
  split_ifs with hk
  · simp [effectOn?, hk]
  · simp [effectOn?, hk]

theorem filterMap_effectOn_of_lt {c k : ℕ} (h : c < k) (ess : List (List ClientEffect)) :
    ((ess.mapIdx fun i es => es.map fun e => (k + i, e)).flatten).filterMap (effectOn? c) = [] := by
  rw [List.filterMap_eq_nil_iff]
  intro e he
  simp only [List.mem_flatten, List.mem_mapIdx] at he
  obtain ⟨_, ⟨i, _, rfl⟩, he⟩ := he
  obtain ⟨e, _, rfl⟩ := List.mem_map.1 he
  exact if_neg (show k + i ≠ c by omega)

/-- The effects that carry the number `k + c` are those at place `c`. -/
theorem filterMap_mapIdx_flatten (ess : List (List ClientEffect)) (k c : ℕ) :
    ((ess.mapIdx fun i es => es.map fun e => (k + i, e)).flatten).filterMap (effectOn? (k + c)) =
      ess[c]?.getD [] := by
  induction ess generalizing k c with
  | nil => rfl
  | cons es ess ih =>
    have hshift : (fun (i : ℕ) (es : List ClientEffect) => es.map fun e => (k + (i + 1), e)) =
        fun i es => es.map fun e => (k + 1 + i, e) := by
      funext i es
      rw [Nat.add_right_comm k 1 i, Nat.add_assoc]
    rw [List.mapIdx_cons, List.flatten_cons, List.filterMap_append, filterMap_effectOn, hshift]
    cases c with
    | zero =>
      rw [if_pos rfl, filterMap_effectOn_of_lt (by omega), List.append_nil]
      rfl
    | succ c =>
      rw [if_neg (by omega), List.nil_append, ← Nat.add_assoc, Nat.add_right_comm, ih]
      rfl

theorem client_follows (c : ℕ) :
    Runs.Follows step Client.step (fun s client => s.clients[c]? = some client)
      (Turn.forClient c) (effectOn? c) := by
  intro s client t hc
  have hlt : c < s.clients.length := (List.getElem?_eq_some_iff.1 hc).1
  have hturn : (s.clients.mapIdx fun c client => client.step (t.forClient c))[c]? =
      some (client.step (t.forClient c)) := by
    rw [List.getElem?_mapIdx, hc]
    rfl
  constructor
  · show (List.map _ _ ++ _)[c]? = _
    rw [List.getElem?_append_left (by simpa using hlt), List.getElem?_map, hturn]
    rfl
  · have hpick := filterMap_mapIdx_flatten
      ((s.clients.mapIdx fun c client => client.step (t.forClient c)).map (·.2)) 0 c
    rw [List.getElem?_map, hturn, Nat.zero_add] at hpick
    simp only [Nat.zero_add] at hpick
    exact hpick

/-! ## The books of a client -/

/-- The frame of an offer. -/
def ClientTurn.offered? : ClientTurn → Option EncodedFrame
  | .offer f => some f
  | _ => none

def ClientEffect.popped? : ClientEffect → Option EncodedFrame
  | .popped f => some f
  | _ => none

/-- Another frame fits into the queue, if one is offered. -/
def Client.HasRoom (c : Client) : ClientTurn → Prop
  | .offer _ => c.queue.q.length < c.queue.capacity
  | _ => True

instance (c : Client) : DecidablePred c.HasRoom
  | .offer _ => inferInstanceAs (Decidable (_ < _))
  | .sendLoop _ | .stats _ | .close | .other => inferInstanceAs (Decidable True)

/-- The client is alive and its queue is open. -/
def Client.Connected (c : Client) : Prop := c.alive = true ∧ c.queue.closed = false

instance (c : Client) : Decidable c.Connected := inferInstanceAs (Decidable (_ ∧ _))

/-- What happens between `c` and `c'` if the client stays connected: no frame is counted in
`queue_dropped`, the frames `offered` are popped, queued, or dropped by the queue, and none is
dropped if and only if there was `room`. -/
structure Client.Served (c c' : Client) (offered : List EncodedFrame) (room : Prop)
    (es : List ClientEffect) : Prop where
  connected : c.Connected
  bounded : c'.queue.Bounded
  uncounted : .queueDropped ∉ es
  balance : c.queue.q.length + c.queue.dropped + offered.length =
    (es.filterMap ClientEffect.popped?).length + c'.queue.q.length + c'.queue.dropped
  mono : c.queue.dropped ≤ c'.queue.dropped
  room : c'.queue.dropped = c.queue.dropped ↔ room

namespace Client

variable {c : Client}

/-- The queue of a connected client takes every frame, so nothing is counted. -/
theorem offer_of_connected (h : c.Connected) (f : EncodedFrame) :
    c.offer f = ({ c with queue := (c.queue.insert f).1 }, []) := by
  obtain ⟨halive, hopen⟩ := h
  have hpush : c.queue.tryPush f = c.queue.insert f := by
    rw [ThreadSafeQueue.tryPush, hopen, if_neg Bool.false_ne_true]
  rw [offer, if_pos halive, hpush, ThreadSafeQueue.insert]
  split_ifs
  · cases c.queue.q <;> rfl
  · rfl

theorem connected_of_offer {f : EncodedFrame} (h : (c.offer f).1.Connected) : c.Connected := by
  unfold offer at h
  split_ifs at h with halive
  · refine ⟨halive, ?_⟩
    rw [Bool.eq_false_iff]
    intro hclosed
    rw [ThreadSafeQueue.tryPush, hclosed, if_pos rfl] at h
    exact absurd h.2 (by simp [hclosed])
  · exact h

theorem served_offer (hb : c.queue.Bounded) {f : EncodedFrame} (h : (c.offer f).1.Connected) :
    c.Served (c.offer f).1 [f] (c.HasRoom (.offer f)) (c.offer f).2 := by
  have hc := connected_of_offer h
  have hdropped := c.queue.dropped_insert f
  have hlength := ThreadSafeQueue.length_insert hb f
  rw [offer_of_connected hc]
  refine ⟨hc, (ThreadSafeQueue.turn_insert hb hc.2 f).bounded hb, List.not_mem_nil, ?_, ?_, ?_⟩
  · show _ + _ + 1 = 0 + (c.queue.insert f).1.q.length + (c.queue.insert f).1.dropped
    omega
  · show _ ≤ (c.queue.insert f).1.dropped
    omega
  · show (c.queue.insert f).1.dropped = _ ↔ c.queue.q.length < c.queue.capacity
    split_ifs at hdropped <;> omega

theorem Served.still {c' : Client} {es : List ClientEffect} (hc : c.Connected)
    (hb : c.queue.Bounded) (hq : c'.queue = c.queue) (hes : ∀ e ∈ es, ∃ bytes, e = .sent bytes) :
    c.Served c' [] True es := by
  have hpopped : es.filterMap ClientEffect.popped? = [] := by
    rw [List.filterMap_eq_nil_iff]
    intro e he
    obtain ⟨bytes, rfl⟩ := hes e he
    rfl
  refine ⟨hc, hq ▸ hb, ?_, ?_, hq ▸ le_rfl, ?_⟩
  · intro hmem
    obtain ⟨bytes, h⟩ := hes _ hmem
    cases h
  · rw [hpopped, hq]
    simp
  · simp only [hq]

theorem Served.trans {c' c'' : Client} {offered offered' : List EncodedFrame} {room room' : Prop}
    {es es' : List ClientEffect} (h : c.Served c' offered room es)
    (h' : c'.Served c'' offered' room' es') :
    c.Served c'' (offered ++ offered') (room ∧ room') (es ++ es') := by
  have hbalance := h.balance
  have hbalance' := h'.balance
  have hmono := h.mono
  have hmono' := h'.mono
  refine ⟨h.connected, h'.bounded, ?_, ?_, hmono.trans hmono', ?_⟩
  · rw [List.mem_append, not_or]
    exact ⟨h.uncounted, h'.uncounted⟩
  · rw [List.filterMap_append, List.length_append, List.length_append]
    omega
  · rw [← h.room, ← h'.room]
    omega

/-- The sending thread pops a frame of an open queue, or waits. -/
theorem runSendLoop_of_popping (hloop : c.sendLoop = .popping) (hopen : c.queue.closed = false)
    (ok : Bool) :
    c.runSendLoop ok = match c.queue.q with
      | [] => (c, [])
      | f :: q => ({ c with queue := { c.queue with q := q }, sendLoop := .sending f },
          [.popped f]) := by
  obtain ⟨⟨q, capacity, dropOld, closed, dropped⟩, alive, sendLoop⟩ := c
  cases hloop
  cases hopen
  cases q <;> rfl

theorem connected_of_runSendLoop {ok : Bool} (h : (c.runSendLoop ok).1.Connected) :
    c.Connected := by
  obtain ⟨⟨q, capacity, dropOld, closed, dropped⟩, alive, sendLoop⟩ := c
  cases sendLoop with
  | popping =>
    cases q with
    | nil =>
      cases closed with
      | false => exact h
      | true => cases h.1
    | cons f q =>
      cases closed with
      | false => exact h
      | true => cases h.2
  | sending f =>
    cases ok with
    | true => exact h
    | false => cases h.1
  | ended => exact h

theorem served_runSendLoop (hb : c.queue.Bounded) {ok : Bool}
    (h : (c.runSendLoop ok).1.Connected) :
    c.Served (c.runSendLoop ok).1 [] True (c.runSendLoop ok).2 := by
  have hc := connected_of_runSendLoop h
  cases hloop : c.sendLoop with
  | popping =>
    rw [runSendLoop_of_popping hloop hc.2]
    cases hq : c.queue.q with
    | nil => exact .still hc hb rfl (by simp)
    | cons f q =>
      refine ⟨hc, ⟨hb.pos, ?_⟩, by simp, ?_, le_rfl, by simp⟩
      · have hsize := hb.size
        rw [hq, List.length_cons] at hsize
        show q.length ≤ c.queue.capacity
        omega
      · rw [hq, List.length_cons]
        show q.length + 1 + c.queue.dropped + 0 = 1 + q.length + c.queue.dropped
        omega
  | sending f =>
    simp only [runSendLoop, hloop]
    cases ok with
    | true => exact .still hc hb rfl (by simp)
    | false => exact .still hc hb rfl (by simp)
  | ended =>
    simp only [runSendLoop, hloop]
    exact .still hc hb rfl (by simp)

theorem runStats_of_connected {ok : Bool} (h : (c.runStats ok).Connected) : c.runStats ok = c := by
  unfold runStats at h ⊢
  split_ifs at h ⊢
  · cases h.1
  · rfl

theorem served_step (hb : c.queue.Bounded) {t : ClientTurn} (h : (c.step t).1.Connected) :
    c.Served (c.step t).1 t.offered?.toList (c.HasRoom t) (c.step t).2 := by
  cases t with
  | offer f => exact served_offer hb h
  | sendLoop ok => exact served_runSendLoop hb h
  | stats ok =>
    have hstats : c.runStats ok = c := runStats_of_connected h
    rw [step, hstats] at h ⊢
    exact .still h hb rfl fun e he => by cases he
  | close => cases h.2
  | other => exact .still h hb rfl fun e he => by cases he

theorem connected_of_step {t : ClientTurn} (h : (c.step t).1.Connected) : c.Connected := by
  cases t with
  | offer f => exact connected_of_offer h
  | sendLoop ok => exact connected_of_runSendLoop h
  | stats ok =>
    have hstats : c.runStats ok = c := runStats_of_connected h
    rwa [step, hstats] at h
  | close => cases h.2
  | other => exact h

theorem connected_of_run {ts : List ClientTurn} (h : (Runs.after step c ts).Connected) :
    c.Connected := by
  induction ts generalizing c with
  | nil => exact h
  | cons t ts ih => exact connected_of_step (ih h)

/-- **A client's books**, over a run that leaves it connected. -/
theorem served_run {ts : List ClientTurn} (hb : c.queue.Bounded)
    (h : (Runs.after step c ts).Connected) :
    c.Served (Runs.after step c ts) (ts.filterMap ClientTurn.offered?)
      (Runs.Along step HasRoom c ts) (Runs.trace step c ts) := by
  induction ts generalizing c with
  | nil => exact .still h hb rfl fun e he => by cases he
  | cons t ts ih =>
    have hnow : (c.step t).1.Connected := connected_of_run h
    have hstep := served_step hb hnow
    have hrun := hstep.trans (ih hstep.bounded h)
    have hoffered : (t :: ts).filterMap ClientTurn.offered? =
        t.offered?.toList ++ ts.filterMap ClientTurn.offered? := by
      rw [List.filterMap_cons]
      cases t.offered? <;> rfl
    rw [hoffered]
    exact hrun

end Client

/-! ## The books of the server -/

/-- The frames broadcast. -/
def broadcasts (ts : List Turn) : List EncodedFrame :=
  ts.filterMap fun
    | .broadcast f => some f
    | _ => none

/-- The frames popped for client `c`. -/
def popped (c : ℕ) (es : List (ℕ × ClientEffect)) : List EncodedFrame :=
  (es.filterMap (effectOn? c)).filterMap ClientEffect.popped?

/-- How often `queue_dropped` was incremented for client `c`. -/
def queueDropped (c : ℕ) (es : List (ℕ × ClientEffect)) : ℕ :=
  (es.filterMap (effectOn? c)).count .queueDropped

/-- A broadcast does not find the queue of client `c` full. -/
def HasRoom (c : ℕ) (s : TcpServer) (t : Turn) : Prop :=
  ∀ client ∈ s.clients[c]?, client.HasRoom (t.forClient c)

instance (c : ℕ) (s : TcpServer) (t : Turn) : Decidable (HasRoom c s t) :=
  inferInstanceAs (Decidable (∀ client ∈ s.clients[c]?, client.HasRoom (t.forClient c)))

theorem offered_forClient (c : ℕ) (ts : List Turn) :
    (ts.map (Turn.forClient c)).filterMap ClientTurn.offered? = broadcasts ts := by
  rw [List.filterMap_map, broadcasts]
  apply List.filterMap_congr
  intro t _
  cases t with
  | sendLoop c' ok => simp only [Function.comp_apply, Turn.forClient]; split_ifs <;> rfl
  | statsLoop c' ok => simp only [Function.comp_apply, Turn.forClient]; split_ifs <;> rfl
  | _ => rfl

theorem accepted_client {s : TcpServer} (hs : s.running = true) :
    (step s .accept).1.clients[s.clients.length]? = some {} := by
  simp [step, hs]

/-- **What becomes of the frames.** While client `c` is connected, the frames that were broadcast
are those popped for it, those queued, and those that its queue dropped; nothing is counted. -/
theorem broadcast_balance {s : TcpServer} {c : ℕ} {client client' : Client}
    (hc : s.clients[c]? = some client) (hb : client.queue.Bounded) {ts : List Turn}
    (hc' : (Runs.after step s ts).clients[c]? = some client') (hconn : client'.Connected) :
    let es := Runs.trace step s ts
    queueDropped c es = 0 ∧
      client.queue.q.length + client.queue.dropped + (broadcasts ts).length =
        (popped c es).length + client'.queue.q.length + client'.queue.dropped ∧
      (client'.queue.dropped = client.queue.dropped ↔ Runs.Along step (HasRoom c) s ts) := by
  intro es
  have hfollow := client_follows c
  obtain ⟨hrun, htrace⟩ := hfollow.run hc ts
  obtain rfl : client' = Runs.after Client.step client (ts.map (Turn.forClient c)) :=
    Option.some.inj (hc'.symm.trans hrun)
  have hserved := Client.served_run hb hconn
  have hbalance := hserved.balance
  rw [offered_forClient] at hbalance
  refine ⟨?_, ?_, ?_⟩
  · rw [queueDropped, htrace]
    exact List.count_eq_zero.2 hserved.uncounted
  · rw [popped, htrace]
    exact hbalance
  · rw [hserved.room]
    refine (hfollow.along_iff hc ?_ ts).symm
    intro s client t hs
    simp [HasRoom, hs]

/-- **No frame is missing from the books** of a client that connected, is alive and has an open
queue, if and only if no broadcast since then found its queue full. -/
theorem drops_counted_iff (ts ts' : List Turn) (client : Client)
    (hrun : (Runs.after step {} ts).running = true) :
    let s : TcpServer := Runs.after step {} ts
    let c := s.clients.length
    let s' := (step s .accept).1
    (Runs.after step s' ts').clients[c]? = some client → client.alive = true →
      client.queue.closed = false →
      ((broadcasts ts').length = (popped c (Runs.trace step s' ts')).length +
          client.queue.q.length + queueDropped c (Runs.trace step s' ts') ↔
        Runs.Along step (HasRoom c) s' ts') := by
  intro s c s' hc halive hopen
  have hfresh : ({} : Client).queue.Bounded := ThreadSafeQueue.bounded_create (by decide) true
  have haccepted : s'.clients[c]? = some {} := accepted_client hrun
  obtain ⟨hcount, hbalance, hroom⟩ := broadcast_balance haccepted hfresh hc ⟨halive, hopen⟩
  have hempty : ({} : Client).queue.q.length = 0 ∧ ({} : Client).queue.dropped = 0 := ⟨rfl, rfl⟩
  rw [← hroom, hcount]
  omega

/-- The server with its first client. -/
def oneClient : TcpServer := (step {} .accept).1

/-- Two frames, each popped before the next one comes, the second not sent yet. -/
def quickClient : List Turn :=
  [.broadcast {}, .sendLoop 0 true, .sendLoop 0 true, .broadcast {}, .sendLoop 0 true]

theorem drops_counted_quick :
    (broadcasts quickClient).length = (popped 0 (Runs.trace step oneClient quickClient)).length +
      0 + queueDropped 0 (Runs.trace step oneClient quickClient) :=
  (drops_counted_iff [] quickClient { sendLoop := .sending {} } rfl (by decide) rfl rfl).2
    (by decide)

/-- A client that does not read, and one frame more than its queue holds. -/
def slowClient : List Turn := List.replicate 17 (.broadcast {})

/-- One frame is gone, and not counted. -/
theorem drop_uncounted :
    ∃ client : Client, (Runs.after step oneClient slowClient).clients[0]? = some client ∧
      client.Connected ∧
      ¬ (broadcasts slowClient).length =
        (popped 0 (Runs.trace step oneClient slowClient)).length + client.queue.q.length +
          queueDropped 0 (Runs.trace step oneClient slowClient) :=
  ⟨_, rfl, by decide, by decide⟩

end TcpServer

end Rtstream
