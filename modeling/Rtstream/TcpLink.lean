import Rtstream.Lib.Socket
import Rtstream.TcpRoundTrip
import Rtstream.TcpServer

/-!
# The TCP link from end to end

One connection of the TCP server: the frames it is offered, its queue, the threads that write to the
socket, and a client that reads what arrives. Both threads write under one mutex, so each frame and
each statistics packet is written as a whole, or a part of it is written and then nothing more: the
thread whose `send` failed closes the socket.

What arrives is some first part of what was written, cut anywhere.

* `pushes_sublist`: over every run, what the client pushes are frames that were offered, with their
  contents, in order, each at most once; and the statistics it hands on are the first ones sent.
* `pushes_all`: when no frame found the queue full, the connection holds, the queue has been
  emptied and all has arrived, the client has pushed every frame.
-/

namespace Rtstream

open TcpServer

/-- A client of the server and the socket to it. -/
structure TcpConnection where
  client : Client := {}
  socket : Socket UInt8 := {}
  deriving DecidableEq, Repr

/-- What happens to the connection. Where a thread writes, `cut` is how much it can write if it
cannot write everything. -/
inductive TcpTurn
  | offer (f : EncodedFrame)
  | sendLoop (cut : Option ℕ)
  | stats (now : Int) (payload : Bytes) (cut : Option ℕ)
  | close
  deriving DecidableEq, Repr

namespace TcpConnection

/-- A thread writes an item. When it cannot, it closes the socket. -/
def write (c : TcpConnection) (x : TcpItem) (cut : Option ℕ) (update : Bool → Client) :
    TcpConnection × List TcpItem :=
  let r := c.socket.send x.write cut
  ({ client := update r.2, socket := r.1 }, if r.2 then [x] else [])

/-- The connection as a machine. Its effects are the items that were written as a whole. -/
def step (c : TcpConnection) : TcpTurn → TcpConnection × List TcpItem
  | .offer f => ({ c with client := (c.client.offer f).1 }, [])
  | .sendLoop cut =>
    match c.client.sendLoop with
    | .sending f => c.write (.frame f) cut fun ok => (c.client.runSendLoop ok).1
    | _ =>
      -- `send_loop` pops a frame, or closes the socket and ends.
      let client := (c.client.runSendLoop true).1
      let socket := if client.sendLoop = .ended then c.socket.close else c.socket
      ({ client, socket }, [])
  | .stats now payload cut =>
    if c.client.alive then c.write (.stats now payload) cut fun ok => c.client.runStats ok
    else (c, [])
  | .close => ({ client := (c.client.step .close).1, socket := c.socket.close }, [])

/-- What a turn is to the client's books. -/
def clientTurn (c : TcpConnection) : TcpTurn → ClientTurn
  | .offer f => .offer f
  | .sendLoop cut => .sendLoop (match c.client.sendLoop with
    | .sending _ => c.socket.fdOpen && cut.isNone
    | _ => true)
  | .stats _ _ cut => .stats (c.socket.fdOpen && cut.isNone)
  | .close => .close

/-- **The connection's client is the server's client**: each turn is a turn of it. -/
theorem client_step (c : TcpConnection) (t : TcpTurn) :
    (c.step t).1.client = (c.client.step (c.clientTurn t)).1 := by
  cases t with
  | offer f => rfl
  | close => rfl
  | sendLoop cut =>
    cases hloop : c.client.sendLoop with
    | sending f => simp only [step, clientTurn, hloop, write, Socket.send_snd, Client.step]
    | popping => simp only [step, clientTurn, hloop, Client.step]
    | ended => simp only [step, clientTurn, hloop, Client.step]
  | stats now payload cut =>
    simp only [step, clientTurn, Client.step]
    cases halive : c.client.alive with
    | true => simp only [if_true, write, Socket.send_snd]
    | false => simp [Client.runStats, halive]

/-! ## The stream -/

/-- What was offered. -/
def offered (ts : List TcpTurn) : List EncodedFrame :=
  ts.filterMap fun
    | .offer f => some f
    | _ => none

theorem write_ne_nil (x : TcpItem) : x.write ≠ [] := by
  rw [TcpItem.write_eq, TcpServer.send]
  simp [BigEndian.store]

/-- The stream holds the items that were written. -/
def Written (c : TcpConnection) (items : List TcpItem) : Prop :=
  Socket.Holds [] TcpItem.write TcpItem.Fits c.socket items

theorem Written.write {c : TcpConnection} {items : List TcpItem} (h : Written c items) {x : TcpItem}
    (hx : x.Fits) (cut : Option ℕ) (update : Bool → Client) :
    Written (c.write x cut update).1 (items ++ (c.write x cut update).2) :=
  h.send hx (write_ne_nil x) cut

/-- The frame that is about to be written. -/
def inFlight (c : TcpConnection) : List EncodedFrame :=
  match c.client.sendLoop with
  | .sending f => [f]
  | _ => []

/-- What a run keeps: the stream is well formed, and the frames written, the one about to be written
and those in the queue are some of those offered, in order. -/
structure Sound (c : TcpConnection) (items : List TcpItem) (frames : List EncodedFrame) : Prop where
  written : Written c items
  order : (items.filterMap TcpItem.frame? ++ c.inFlight ++ c.client.queue.q).Sublist frames
  fits : ∀ x ∈ items, x.Fits

/-- The items of a turn fit. -/
def TurnFits : TcpTurn → Prop
  | .offer f => (TcpItem.frame f).Fits
  | .stats now payload _ => (TcpItem.stats now payload).Fits
  | _ => True

section Step

variable {c : TcpConnection} {items : List TcpItem} {frames : List EncodedFrame}

theorem inFlight_fits (h : Sound c items frames) (hframes : ∀ f ∈ frames, (TcpItem.frame f).Fits)
    {f : EncodedFrame} (hf : c.client.sendLoop = .sending f) : (TcpItem.frame f).Fits := by
  refine hframes f (h.order.subset ?_)
  simp [inFlight, hf]

theorem Sound.sendLoop (h : Sound c items frames) (hframes : ∀ f ∈ frames, (TcpItem.frame f).Fits)
    (cut : Option ℕ) :
    Sound (c.step (.sendLoop cut)).1 (items ++ (c.step (.sendLoop cut)).2) frames := by
  have horder := h.order
  cases hloop : c.client.sendLoop with
  | ended =>
    simp only [step, hloop, Client.runSendLoop, List.append_nil]
    simp only [inFlight, hloop] at horder
    exact ⟨h.written.close, by simpa [inFlight, hloop] using horder, h.fits⟩
  | popping =>
    simp only [inFlight, hloop, List.append_nil] at horder
    simp only [step, hloop, List.append_nil]
    refine ⟨h.written.closeIf _, ?_, h.fits⟩
    rcases c.client.queue.pop_cases with ⟨hq, -, hpop⟩ | ⟨hq, -, hpop⟩ | ⟨f, q, hq, hpop⟩
    · simpa [Client.runSendLoop, inFlight, hloop, hpop, hq] using horder
    · simpa [Client.runSendLoop, inFlight, hloop, hpop, hq] using horder
    · simpa [Client.runSendLoop, inFlight, hloop, hpop, hq] using horder
  | sending f =>
    have hfits := inFlight_fits h hframes hloop
    simp only [inFlight, hloop] at horder
    have hwritten := h.written.write hfits cut fun ok => (c.client.runSendLoop ok).1
    simp only [step, hloop]
    refine ⟨hwritten, ?_, ?_⟩
    · simp only [write, Socket.send_snd]
      cases c.socket.fdOpen && cut.isNone with
      | true => simpa [Client.runSendLoop, hloop, inFlight, TcpItem.frame?] using horder
      | false =>
        have hless : (items.filterMap TcpItem.frame? ++ c.client.queue.q).Sublist frames :=
          ((List.sublist_append_left _ _).append (List.Sublist.refl _)).trans horder
        simpa [Client.runSendLoop, hloop, inFlight] using hless
    · refine List.forall_mem_append.2 ⟨h.fits, fun x hx => ?_⟩
      simp only [write] at hx
      split_ifs at hx
      · rw [List.mem_singleton.1 hx]
        exact hfits
      · cases hx

/-- **One turn** keeps the stream well formed and the frames in order. -/
theorem Sound.step (h : Sound c items frames) (hframes : ∀ f ∈ frames, (TcpItem.frame f).Fits)
    {t : TcpTurn} (ht : TurnFits t) :
    Sound (c.step t).1 (items ++ (c.step t).2) (frames ++ offered [t]) := by
  cases t with
  | sendLoop cut =>
    rw [show offered [.sendLoop cut] = [] from rfl, List.append_nil]
    exact h.sendLoop hframes cut
  | offer f =>
    have horder := h.order
    simp only [TcpConnection.step, List.append_nil, show offered [.offer f] = [f] from rfl]
    refine ⟨h.written.congr rfl id, ?_, h.fits⟩
    simp only [Client.offer, inFlight] at horder ⊢
    split_ifs
    · refine ((List.Sublist.refl _).append (c.client.queue.sublist_tryPush f)).trans ?_
      rw [← List.append_assoc]
      exact horder.append (List.Sublist.refl _)
    · exact horder.trans (List.sublist_append_left _ _)
  | stats now payload cut =>
    rw [show offered [.stats now payload cut] = [] from rfl, List.append_nil]
    simp only [TcpConnection.step]
    split_ifs with halive
    · have hx : (TcpItem.stats now payload).Fits := ht
      have hwritten := h.written.write hx cut fun ok => c.client.runStats ok
      have horder := h.order
      refine ⟨hwritten, ?_, ?_⟩
      · simp only [write, Socket.send_snd]
        cases c.socket.fdOpen && cut.isNone with
        | true =>
          simpa [Client.runStats, inFlight, List.filterMap_cons, TcpItem.frame?] using horder
        | false => simpa [Client.runStats, halive, ThreadSafeQueue.close, inFlight] using horder
      · refine List.forall_mem_append.2 ⟨h.fits, fun x hx => ?_⟩
        simp only [write] at hx
        split_ifs at hx
        · rw [List.mem_singleton.1 hx]
          exact ht
        · cases hx
    · rwa [List.append_nil]
  | close =>
    rw [show offered [.close] = [] from rfl, List.append_nil,
      show items ++ (c.step .close).2 = items from List.append_nil items]
    exact ⟨h.written.congr rfl (fun hopen => by cases hopen), h.order, h.fits⟩

end Step

theorem offered_append (ts ts' : List TcpTurn) : offered (ts ++ ts') = offered ts ++ offered ts' :=
  List.filterMap_append

theorem offered_fits {ts : List TcpTurn} (hfits : ∀ t ∈ ts, TurnFits t) :
    ∀ f ∈ offered ts, (TcpItem.frame f).Fits := by
  intro f hf
  obtain ⟨t, ht, heq⟩ := List.mem_filterMap.1 hf
  cases t with
  | offer f' =>
    obtain rfl := Option.some.inj heq
    exact hfits _ ht
  | _ => cases heq

theorem sound_run {ts : List TcpTurn} (hfits : ∀ t ∈ ts, TurnFits t) :
    Sound (Runs.after step {} ts) (Runs.trace step {} ts) (offered ts) := by
  induction ts using List.reverseRecOn with
  | nil => exact ⟨⟨[], rfl, fun _ => rfl, Or.inl rfl⟩, List.Sublist.refl _, by simp⟩
  | append_singleton ts t ih =>
    obtain ⟨hts, ht⟩ := List.forall_mem_append.1 hfits
    rw [Runs.after_append, Runs.trace_append, offered_append, Runs.after_cons, Runs.after_nil,
      Runs.trace_cons, Runs.trace_nil, List.append_nil]
    exact (ih hts).step (offered_fits hts) (ht t (List.mem_singleton_self t))

/-! ## What arrives -/

section Arrives

variable {c : TcpConnection} {items : List TcpItem}

theorem reads_back (x : TcpItem) (hx : x.Fits) :
    TcpClient.reader.Encodes (.packet x.packet) x.write := TcpClient.write_encodes hx

/-- What the client makes of a first part of the stream is what it makes of some first items. -/
theorem run_of_prefix (clock : ℕ → Int) (h : Written c items) (hfits : ∀ x ∈ items, x.Fits)
    {segs : List Bytes} (hsegs : ∀ seg ∈ segs, seg ≠ []) (hpre : segs.flatten <+: c.socket.stream) :
    ∃ first, first <+: items ∧
      (TcpClient.pushed (TcpClient.run clock segs)).map EncodedFrame.content =
        (first.filterMap TcpItem.frame?).map EncodedFrame.content ∧
      TcpClient.remotes (TcpClient.run clock segs) = first.filterMap TcpItem.stats? := by
  obtain ⟨first, hfirst, heq⟩ := h.read_of_arrived reads_back hfits hpre
  refine ⟨first, hfirst, ?_⟩
  rw [TcpClient.run, TcpClient.loop_eq clock hsegs (Nat.lt_succ_self _), heq]
  exact TcpClient.run_packets rfl fun x hx => hfits x (hfirst.subset hx)

end Arrives

/-- **Frames arrive in order, each at most once, as they were.** Over every run of a connection
whose frames and statistics fit (numbers of 32 bits, packets of at most 16 MiB), and whatever first
part of what was written arrives, in whatever pieces: what the client pushes are frames that were
offered to the connection, in the order they were offered in and with their contents, and the
statistics it hands on are the first ones that were sent. -/
theorem pushes_sublist (clock : ℕ → Int) (ts : List TcpTurn) (hfits : ∀ t ∈ ts, TurnFits t)
    (segs : List Bytes) (hsegs : ∀ seg ∈ segs, seg ≠ [])
    (harrived : segs.flatten <+: (Runs.after step {} ts).socket.stream) :
    (∃ frames : List EncodedFrame, frames.Sublist (offered ts) ∧
      (TcpClient.pushed (TcpClient.run clock segs)).map EncodedFrame.content =
        frames.map EncodedFrame.content) ∧
      TcpClient.remotes (TcpClient.run clock segs) <+:
        (Runs.trace step {} ts).filterMap TcpItem.stats? := by
  have hsound := sound_run hfits
  obtain ⟨first, hfirst, hpushed, hremotes⟩ :=
    run_of_prefix clock hsound.written hsound.fits hsegs harrived
  refine ⟨⟨first.filterMap TcpItem.frame?, ?_, hpushed⟩, ?_⟩
  · have horder := hsound.order
    rw [List.append_assoc] at horder
    exact ((hfirst.sublist.filterMap _).trans (List.sublist_append_left _ _)).trans horder
  · rw [hremotes]
    exact hfirst.filterMap _

/-- A keyframe and a frame are offered, the first is written whole and the second in part. -/
def cutRun : List TcpTurn :=
  [.offer { captureUs := -5, frameId := 7, keyframe := true, data := [1, 2] },
    .offer { frameId := 8, data := [3] }, .sendLoop none, .sendLoop none, .sendLoop none,
    .sendLoop (some 9)]

theorem pushes_sublist_cut :
    ((TcpClient.pushed (TcpClient.run (fun _ => 0) [(Runs.after step {} cutRun).socket.stream])).map
        EncodedFrame.content = [(true, 7, -5, [1, 2])]) ∧
      ∃ frames : List EncodedFrame, frames.Sublist (offered cutRun) ∧
        (TcpClient.pushed
          (TcpClient.run (fun _ => 0) [(Runs.after step {} cutRun).socket.stream])).map
          EncodedFrame.content = frames.map EncodedFrame.content := by
  refine ⟨by decide +kernel, (pushes_sublist (fun _ => 0) cutRun ?_ _ ?_ ?_).1⟩
  · simp [cutRun, TurnFits, TcpItem.Fits, TcpClient.maxLength, TcpWire.kHeaderSize]
  · decide +kernel
  · simp

/-! ## Nothing is lost on a good connection -/

/-- While the socket is open, the client is connected, and what was offered was written, is about to
be written, or is queued. -/
structure Complete (c : TcpConnection) (items : List TcpItem) (frames : List EncodedFrame) :
    Prop where
  connected : c.client.Connected
  order : items.filterMap TcpItem.frame? ++ c.inFlight ++ c.client.queue.q = frames

section Complete

variable {c : TcpConnection} {items : List TcpItem} {frames : List EncodedFrame}

theorem fdOpen_of_write {x : TcpItem} {cut : Option ℕ} {update : Bool → Client}
    (h : (c.write x cut update).1.socket.fdOpen = true) : c.socket.fdOpen = true := by
  simp only [write, Socket.send_fdOpen, Bool.and_eq_true] at h
  exact h.1

theorem fdOpen_of_step {t : TcpTurn} (h : (c.step t).1.socket.fdOpen = true) :
    c.socket.fdOpen = true := by
  cases t with
  | offer f => exact h
  | close => cases h
  | sendLoop cut =>
    cases hloop : c.client.sendLoop with
    | sending f =>
      simp only [step, hloop] at h
      exact fdOpen_of_write h
    | popping =>
      simp only [step, hloop] at h
      exact Socket.fdOpen_of_closeIf h
    | ended =>
      simp only [step, hloop] at h
      exact Socket.fdOpen_of_closeIf h
  | stats now payload cut =>
    simp only [step] at h
    split_ifs at h
    · exact fdOpen_of_write h
    · exact h

theorem write_of_fdOpen {x : TcpItem} {cut : Option ℕ} {update : Bool → Client}
    (h : (c.write x cut update).1.socket.fdOpen = true) :
    (c.write x cut update).2 = [x] ∧ (c.write x cut update).1.client = update true := by
  simp only [write, Socket.send_fdOpen] at h ⊢
  rw [Socket.send_snd, h]
  exact ⟨rfl, rfl⟩

/-- **One turn** that finds room and leaves the socket open. -/
theorem Complete.step (h : Complete c items frames) {t : TcpTurn}
    (hroom : c.client.HasRoom (c.clientTurn t)) (hopen : (c.step t).1.socket.fdOpen = true) :
    Complete (c.step t).1 (items ++ (c.step t).2) (frames ++ offered [t]) := by
  have hconnected := h.connected
  have horder := h.order
  cases t with
  | close => cases hopen
  | offer f =>
    have hlt : c.client.queue.q.length < c.client.queue.capacity := hroom
    have hinsert : (c.client.queue.insert f).1 =
        { c.client.queue with q := c.client.queue.q ++ [f] } := by
      rw [ThreadSafeQueue.insert, if_neg (by omega)]
    simp only [TcpConnection.step, Client.offer_of_connected hconnected, hinsert, List.append_nil]
    refine ⟨hconnected, ?_⟩
    rw [← horder, ← List.append_assoc]
    rfl
  | stats now payload cut =>
    simp only [TcpConnection.step, hconnected.1, if_true] at hopen ⊢
    obtain ⟨hitems, hclient⟩ := write_of_fdOpen hopen
    have hsame : c.client.runStats true = c.client := by simp [Client.runStats]
    rw [hsame] at hclient
    refine ⟨by rwa [hclient], ?_⟩
    rw [hitems, inFlight, hclient, List.filterMap_append]
    simpa [List.filterMap_cons, TcpItem.frame?, offered, inFlight] using horder
  | sendLoop cut =>
    rw [show offered [.sendLoop cut] = [] from rfl, List.append_nil]
    cases hloop : c.client.sendLoop with
    | sending f =>
      simp only [TcpConnection.step, hloop] at hopen ⊢
      obtain ⟨hitems, hclient⟩ := write_of_fdOpen hopen
      have hnext : (c.client.runSendLoop true).1 = { c.client with sendLoop := .popping } := by
        simp [Client.runSendLoop, hloop]
      rw [hnext] at hclient
      refine ⟨by rwa [hclient], ?_⟩
      rw [hitems, inFlight, hclient, List.filterMap_append]
      simpa [TcpItem.frame?, inFlight, hloop] using horder
    | popping =>
      have hpop := Client.runSendLoop_of_popping hloop hconnected.2 true
      simp only [TcpConnection.step, hloop, List.append_nil]
      cases hq : c.client.queue.q with
      | nil =>
        rw [hq] at hpop
        rw [hpop]
        exact ⟨hconnected, by simpa [inFlight, hloop, hq] using horder⟩
      | cons f q =>
        rw [hq] at hpop
        rw [hpop]
        exact ⟨hconnected, by simpa [inFlight, hloop, hq] using horder⟩
    | ended =>
      simp only [TcpConnection.step, hloop, Client.runSendLoop, if_true] at hopen
      cases hopen

theorem fdOpen_of_run {ts : List TcpTurn}
    (h : (Runs.after TcpConnection.step c ts).socket.fdOpen = true) :
    c.socket.fdOpen = true := by
  induction ts generalizing c with
  | nil => exact h
  | cons t ts ih => exact fdOpen_of_step (ih h)

theorem complete_run {ts : List TcpTurn}
    (hroom : Runs.Along TcpConnection.step (fun c t => c.client.HasRoom (c.clientTurn t)) {} ts)
    (hopen : (Runs.after TcpConnection.step {} ts).socket.fdOpen = true) :
    Complete (Runs.after TcpConnection.step {} ts) (Runs.trace TcpConnection.step {} ts)
      (offered ts) := by
  induction ts using List.reverseRecOn with
  | nil => exact ⟨⟨rfl, rfl⟩, rfl⟩
  | append_singleton ts t ih =>
    obtain ⟨hts, ht, -⟩ := (Runs.along_append _ _ _).1 hroom
    rw [Runs.after_append] at hopen
    rw [Runs.after_append, Runs.trace_append, offered_append, Runs.after_cons, Runs.after_nil,
      Runs.trace_cons, Runs.trace_nil, List.append_nil]
    exact (ih hts (fdOpen_of_run hopen)).step ht hopen

end Complete

/-- **Nothing is lost on a good connection.** When frames and statistics fit, no frame finds the
queue full, the socket stays open, the sending thread has caught up and everything written has
arrived, the client has pushed all frames that were offered, and handed on all statistics that were
sent. -/
theorem pushes_all (clock : ℕ → Int) (ts : List TcpTurn) (hfits : ∀ t ∈ ts, TurnFits t)
    (hroom : Runs.Along step (fun c t => c.client.HasRoom (c.clientTurn t)) {} ts)
    (hopen : (Runs.after step {} ts).socket.fdOpen = true)
    (hqueue : (Runs.after step {} ts).client.queue.q = [])
    (hsent : (Runs.after step {} ts).inFlight = [])
    (segs : List Bytes) (hsegs : ∀ seg ∈ segs, seg ≠ [])
    (harrived : segs.flatten = (Runs.after step {} ts).socket.stream) :
    (TcpClient.pushed (TcpClient.run clock segs)).map EncodedFrame.content =
        (offered ts).map EncodedFrame.content ∧
      TcpClient.remotes (TcpClient.run clock segs) =
        (Runs.trace step {} ts).filterMap TcpItem.stats? := by
  have hsound := sound_run hfits
  have horder := (complete_run hroom hopen).order
  rw [hqueue, hsent, List.append_nil, List.append_nil] at horder
  rw [← horder, TcpClient.run, TcpClient.loop_eq clock hsegs (Nat.lt_succ_self _), harrived,
    hsound.written.read_all reads_back hsound.fits]
  exact TcpClient.run_packets rfl hsound.fits

/-- Two frames and statistics between them. -/
def goodRun : List TcpTurn :=
  [.offer { captureUs := -5, frameId := 7, keyframe := true, data := [1, 2] }, .sendLoop none,
    .sendLoop none, .stats 9 [0x7b, 0x7d] none, .offer { frameId := 8, data := [3] },
    .sendLoop none, .sendLoop none]

theorem pushes_all_two :
    (TcpClient.pushed (TcpClient.run (fun _ => 0) [(Runs.after step {} goodRun).socket.stream])).map
      EncodedFrame.content = [(true, 7, -5, [1, 2]), (false, 8, 0, [3])] := by
  refine (pushes_all (fun _ => 0) goodRun ?_ (by decide) rfl rfl rfl _ (by decide +kernel)
    List.flatten_singleton).1
  simp [goodRun, TurnFits, TcpItem.Fits, TcpClient.maxLength, TcpWire.kHeaderSize]

end TcpConnection

end Rtstream
