import Rtstream.LossSimulator

/-!
# `loss_simulator.h`: the order of delayed packets

The heap is keyed by the time a packet is due and by nothing else, and `std::priority_queue` only
says that its top is an element that no other exceeds. So the queue is a bag here, and a turn of the
worker comes with a number that picks among the packets that may be on top (`stepBag`).
`LossSimulator.step`, which keeps the bag sorted, is one of the ways to pick (`exists_picks`).

With a constant delay the packets are due in the order they were accepted, but those of a burst that
shares a microsecond are due together.

* `in_order_until_tie`: as long as the worker finds no two different packets that may be on top, the
  packets are sent in the order they were accepted, each once and not before it is due; and at the
  first such tie some pick breaks the order.

The invariant is `Ordered`: what was accepted is what was taken off the queue, then the queue.
-/

namespace Rtstream.LossSimulator

/-! ## A queue that may be any heap -/

/-- The packets that no other exceeds: what `pending_.top()` may be. -/
def tops (pending : List Pending) : List Pending :=
  pending.filter fun p => pending.all fun q => p.dueUs ≤ q.dueUs

/-- `pending_.top()`; `pick` stands for what the heap does with packets that are due together. -/
def top? (pending : List Pending) (pick : ℕ) : Option Pending :=
  (tops pending)[pick % (tops pending).length]?

inductive BagEffect
  /-- `Metrics::sim_dropped++`. -/
  | simDropped
  /-- A packet is put into the queue. -/
  | accepted (p : Pending)
  /-- The worker takes a packet off the queue, having read the clock. -/
  | taken (p : Pending) (now : Int)
  | sent (data : Bytes)
  deriving DecidableEq, Repr

def sendBag (s : LossSimulator) (data : Bytes) : List BagEffect :=
  if s.sender then [.sent data] else []

/-- `inject`, up to where it notifies. -/
def injectBag (s : LossSimulator) (uni : ℚ) (draw : UInt32) (data : Bytes) (now : Int) :
    LossSimulator × List BagEffect :=
  if s.loss > 0 ∧ uni < s.loss then (s, [.simDropped])
  else
    let d := s.delay + min draw s.jitter
    if d = 0 then (s, s.sendBag data)
    else if s.worker.holdsMutex then (s, [])
    else
      let packet : Pending := { dueUs := now + d.toNat * 1000, data := data }
      ({ s with pending := s.pending ++ [packet], owed := s.owed + 1 }, [.accepted packet])

/-- The worker goes on by one step. Where it does not look at the queue's top it is `drain`. -/
def drainBag (s : LossSimulator) (pick : ℕ) (now : Int) : LossSimulator × List BagEffect :=
  match s.worker with
  | .looking =>
    match top? s.pending pick with
    | none => ({ s with worker := .testing }, [])
    | some packet =>
      if packet.dueUs > now then ({ s with worker := .timed }, [])
      else ({ s with pending := s.pending.erase packet, worker := .sending packet.data },
        [.taken packet now])
  | .sending data => ({ s with worker := .sent }, s.sendBag data)
  | _ => ((s.drain now).1, [])

/-- The simulator as a machine that is fed the threads' turns, each with a pick. -/
def stepBag (s : LossSimulator) : Turn × ℕ → LossSimulator × List BagEffect
  | (.inject uni draw data now, _) => s.injectBag uni draw data now
  | (.worker now, pick) => s.drainBag pick now
  | (.notify, _) => ((step s .notify).1, [])
  | (.stop, _) => ((step s .stop).1, [])
  | (.timeout, _) => ((step s .timeout).1, [])
  | (.spurious, _) => ((step s .spurious).1, [])

/-! ## What a history says -/

def accepted? : BagEffect → Option Pending
  | .accepted p => some p
  | _ => none

def taken? : BagEffect → Option (Pending × Int)
  | .taken p now => some (p, now)
  | _ => none

def sent? : BagEffect → Option Bytes
  | .sent data => some data
  | _ => none

/-- The packets sent are the first ones accepted, in order; each was taken off the queue before,
once, and not before it was due. -/
structure InOrder (os : List BagEffect) : Prop where
  sent : os.filterMap sent? <+: (os.filterMap accepted?).map (·.data)
  taken : (os.filterMap taken?).map (·.1) <+: os.filterMap accepted?
  carried : os.filterMap sent? <+: (os.filterMap taken?).map (·.1.data)
  due : ∀ x ∈ os.filterMap taken?, x.1.dueUs ≤ x.2

/-- No two different packets may be on top when the worker takes one. -/
def Untied (s : LossSimulator) : Turn × ℕ → Prop
  | (.worker now, _) => s.worker = .looking →
      ∀ a ∈ tops s.pending, ∀ b ∈ tops s.pending, a.dueUs ≤ now → a = b
  | _ => True

instance (s : LossSimulator) : DecidablePred s.Untied
  | (.worker now, _) => inferInstanceAs (Decidable (s.worker = .looking →
      ∀ a ∈ tops s.pending, ∀ b ∈ tops s.pending, a.dueUs ≤ now → a = b))
  | (.inject _ _ _ _, _) | (.notify, _) | (.stop, _) | (.timeout, _) | (.spurious, _) =>
    inferInstanceAs (Decidable True)

/-- What the clock reads in a call of `inject`. -/
def reading : Turn × ℕ → Option Int
  | (.inject _ _ _ now, _) => some now
  | _ => none

/-- The packet in the worker's hands. -/
def holding : Worker → List Bytes
  | .sending data => [data]
  | _ => []

/-! ## The top -/

variable {s : LossSimulator} {os : List BagEffect} {pending : List Pending} {p : Pending}

theorem mem_tops : p ∈ tops pending ↔ p ∈ pending ∧ ∀ q ∈ pending, p.dueUs ≤ q.dueUs := by
  simp [tops]

theorem mem_tops_of_top? {pick : ℕ} (h : top? pending pick = some p) : p ∈ tops pending :=
  List.mem_of_getElem? h

theorem exists_pick (h : p ∈ tops pending) : ∃ pick, top? pending pick = some p := by
  obtain ⟨i, hi, rfl⟩ := List.getElem_of_mem h
  exact ⟨i, by rw [top?, Nat.mod_eq_of_lt hi, List.getElem?_eq_getElem hi]⟩

theorem top?_nil (pick : ℕ) : top? [] pick = none := rfl

theorem head_mem_tops {rest : List Pending}
    (h : (p :: rest).Pairwise fun a b => a.dueUs ≤ b.dueUs) : p ∈ tops (p :: rest) := by
  refine mem_tops.2 ⟨List.mem_cons_self, fun q hq => ?_⟩
  rcases List.mem_cons.1 hq with rfl | hq
  · exact le_rfl
  · exact (List.pairwise_cons.1 h).1 q hq

/-! ## One turn -/

/-- What was accepted is what was taken, then the queue, which is sorted; and what was taken has
been sent, but for the packet in the worker's hands. -/
structure Ordered (delay : UInt32) (s : LossSimulator) (os : List BagEffect) : Prop where
  delay_eq : s.delay = delay
  jitter : s.jitter = 0
  queue : os.filterMap accepted? = (os.filterMap taken?).map (·.1) ++ s.pending
  sorted : s.pending.Pairwise fun a b => a.dueUs ≤ b.dueUs
  due : ∀ x ∈ os.filterMap taken?, x.1.dueUs ≤ x.2
  sent : s.sender = true →
    (os.filterMap taken?).map (·.1.data) = os.filterMap sent? ++ holding s.worker
  silent : s.sender = false → os.filterMap sent? = []

theorem Ordered.inOrder {delay : UInt32} (h : Ordered delay s os) : InOrder os := by
  have htaken : (os.filterMap taken?).map (·.1) <+: os.filterMap accepted? :=
    ⟨s.pending, h.queue.symm⟩
  have hcarried : os.filterMap sent? <+: (os.filterMap taken?).map (·.1.data) := by
    cases hs : s.sender with
    | true => exact ⟨holding s.worker, (h.sent hs).symm⟩
    | false =>
      rw [h.silent hs]
      exact List.nil_prefix
  refine ⟨hcarried.trans ?_, htaken, hcarried, h.due⟩
  have hdata := htaken.map Pending.data
  rwa [List.map_map] at hdata

theorem Ordered.congr {delay : UInt32} (h : Ordered delay s os) {s' : LossSimulator}
    (hdelay : s'.delay = s.delay) (hjitter : s'.jitter = s.jitter) (hsender : s'.sender = s.sender)
    (hpending : s'.pending = s.pending) (hholding : holding s'.worker = holding s.worker) :
    Ordered delay s' os where
  delay_eq := hdelay.trans h.delay_eq
  jitter := hjitter.trans h.jitter
  queue := hpending ▸ h.queue
  sorted := hpending ▸ h.sorted
  due := h.due
  sent := by rw [hsender, hholding]; exact h.sent
  silent := by rw [hsender]; exact h.silent

theorem holding_wake (w : Worker) : holding (wake w) = holding w := by cases w <;> rfl

/-- Where the worker does not look at the top and has no packet, its step is its own affair. -/
theorem drain_elsewhere (now : Int) (hlook : s.worker ≠ .looking)
    (hhold : ∀ data, s.worker ≠ .sending data) :
    (s.drain now).1.delay = s.delay ∧ (s.drain now).1.jitter = s.jitter ∧
      (s.drain now).1.sender = s.sender ∧ (s.drain now).1.pending = s.pending ∧
      holding (s.drain now).1.worker = holding s.worker := by
  cases hw : s.worker with
  | looking => exact absurd hw hlook
  | sending data => exact absurd hw (hhold data)
  | loopHead | testing =>
    simp only [drain, hw, true_and]
    split_ifs <;> rfl
  | _ => simp [drain, hw, holding]

/-- **What the worker does**: it takes a packet off the queue's top, or sends the one that it holds,
or does neither. -/
theorem drainBag_cases (s : LossSimulator) (pick : ℕ) (now : Int) :
    (∃ packet, s.worker = .looking ∧ top? s.pending pick = some packet ∧ packet.dueUs ≤ now ∧
      s.drainBag pick now =
        ({ s with pending := s.pending.erase packet, worker := .sending packet.data },
          [.taken packet now])) ∨
    (∃ data, s.worker = .sending data ∧
      s.drainBag pick now = ({ s with worker := .sent }, s.sendBag data)) ∨
    (s.drainBag pick now).2 = [] ∧ (s.drainBag pick now).1.delay = s.delay ∧
      (s.drainBag pick now).1.jitter = s.jitter ∧ (s.drainBag pick now).1.sender = s.sender ∧
      (s.drainBag pick now).1.pending = s.pending ∧
      holding (s.drainBag pick now).1.worker = holding s.worker := by
  by_cases hlook : s.worker = .looking
  · cases htop : top? s.pending pick with
    | none =>
      have hsame : s.drainBag pick now = ({ s with worker := .testing }, []) := by
        simp only [drainBag, hlook, htop]
      rw [hsame, hlook]
      exact .inr (.inr ⟨rfl, rfl, rfl, rfl, rfl, rfl⟩)
    | some packet =>
      by_cases hlate : packet.dueUs > now
      · have hsame : s.drainBag pick now = ({ s with worker := .timed }, []) := by
          simp only [drainBag, hlook, htop, if_pos hlate]
        rw [hsame, hlook]
        exact .inr (.inr ⟨rfl, rfl, rfl, rfl, rfl, rfl⟩)
      · refine .inl ⟨packet, hlook, rfl, Int.not_lt.1 hlate, ?_⟩
        simp only [drainBag, hlook, htop, if_neg hlate]
  · by_cases hhold : ∃ data, s.worker = .sending data
    · obtain ⟨data, hhold⟩ := hhold
      refine .inr (.inl ⟨data, hhold, ?_⟩)
      simp only [drainBag, hhold]
    · have hhold' : ∀ data, s.worker ≠ .sending data := fun data hd => hhold ⟨data, hd⟩
      have hsame : s.drainBag pick now = ((s.drain now).1, []) := by
        cases hw : s.worker with
        | looking => exact absurd hw hlook
        | sending data => exact absurd hw (hhold' data)
        | _ => simp only [drainBag, hw]
      rw [hsame]
      exact .inr (.inr ⟨rfl, drain_elsewhere now hlook hhold'⟩)

/-- What an accepted packet is due after. -/
def delayUs (delay : UInt32) : Int := delay.toNat * 1000

theorem Ordered.simDropped {delay : UInt32} (h : Ordered delay s os) :
    Ordered delay s (os ++ [.simDropped]) where
  delay_eq := h.delay_eq
  jitter := h.jitter
  queue := by simpa [List.filterMap_cons, accepted?, taken?] using h.queue
  sorted := h.sorted
  due := by simpa [List.filterMap_cons, taken?] using h.due
  sent := by simpa [List.filterMap_cons, taken?, sent?] using h.sent
  silent := by simpa [List.filterMap_cons, sent?] using h.silent

theorem Ordered.accept {delay : UInt32} (h : Ordered delay s os)
    (hlast : ∀ q ∈ s.pending, q.dueUs ≤ p.dueUs) (owed : ℕ) :
    Ordered delay { s with pending := s.pending ++ [p], owed := owed } (os ++ [.accepted p]) where
  delay_eq := h.delay_eq
  jitter := h.jitter
  queue := by
    simp only [List.filterMap_append, List.filterMap_cons, List.filterMap_nil, accepted?, taken?,
      List.append_nil, h.queue, List.append_assoc]
  sorted := List.pairwise_append.2 ⟨h.sorted, List.pairwise_singleton _ _, by simpa using hlast⟩
  due := by simpa [List.filterMap_cons, taken?] using h.due
  sent := by simpa [List.filterMap_cons, taken?, sent?] using h.sent
  silent := by simpa [List.filterMap_cons, sent?] using h.silent

theorem Ordered.take {delay : UInt32} (h : Ordered delay s os) (hw : s.worker = .looking)
    {rest : List Pending} (hp : s.pending = p :: rest) {now : Int} (hdue : p.dueUs ≤ now) :
    Ordered delay { s with pending := rest, worker := .sending p.data } (os ++ [.taken p now]) where
  delay_eq := h.delay_eq
  jitter := h.jitter
  queue := by
    have hqueue := h.queue
    rw [hp] at hqueue
    simpa [List.filterMap_cons, accepted?, taken?] using hqueue
  sorted := by
    have hsorted := h.sorted
    rw [hp] at hsorted
    exact hsorted.of_cons
  due := by
    simp only [List.filterMap_append, List.filterMap_cons, List.filterMap_nil, taken?,
      List.forall_mem_append, List.forall_mem_singleton]
    exact ⟨h.due, hdue⟩
  sent hs := by
    have hsent := h.sent hs
    rw [hw, show holding .looking = [] from rfl, List.append_nil] at hsent
    simp [List.filterMap_cons, taken?, sent?, hsent, holding]
  silent := by simpa [List.filterMap_cons, sent?] using h.silent

theorem Ordered.send {delay : UInt32} (h : Ordered delay s os) {data : Bytes}
    (hw : s.worker = .sending data) :
    Ordered delay { s with worker := .sent } (os ++ s.sendBag data) where
  delay_eq := h.delay_eq
  jitter := h.jitter
  queue := by
    unfold sendBag
    split_ifs <;> simpa [List.filterMap_cons, accepted?, taken?] using h.queue
  sorted := h.sorted
  due := by
    unfold sendBag
    split_ifs <;> simpa [List.filterMap_cons, taken?] using h.due
  sent hs := by
    have hsent := h.sent hs
    rw [hw] at hsent
    have hsend : s.sendBag data = [.sent data] := if_pos hs
    simpa [hsend, List.filterMap_cons, taken?, sent?, holding] using hsent
  silent hs := by
    have hsend : s.sendBag data = [] := if_neg (ne_true_of_eq_false hs)
    simpa [hsend] using h.silent hs

theorem ordered_inject {delay : UInt32} (hdelay : delay ≠ 0) (h : Ordered delay s os) (uni : ℚ)
    (draw : UInt32) (data : Bytes) {now : Int}
    (hlast : ∀ p ∈ s.pending, p.dueUs ≤ now + delayUs delay) :
    Ordered delay (s.injectBag uni draw data now).1 (os ++ (s.injectBag uni draw data now).2) ∧
      ∀ p ∈ (s.injectBag uni draw data now).1.pending,
        p ∈ s.pending ∨ p.dueUs = now + delayUs delay := by
  have hzero : min draw 0 = 0 := by
    show (if draw ≤ 0 then draw else 0) = 0
    split_ifs with hle
    · exact UInt32.toNat_inj.1 (Nat.le_zero.1 hle)
    · rfl
  have hsum : s.delay + min draw s.jitter = delay := by
    rw [h.delay_eq, h.jitter, hzero, UInt32.add_zero]
  simp only [injectBag, hsum, if_neg hdelay]
  split_ifs with hloss hmutex
  · exact ⟨h.simDropped, fun p hp => Or.inl hp⟩
  · rw [List.append_nil]
    exact ⟨h, fun p hp => Or.inl hp⟩
  · refine ⟨h.accept hlast _, fun p hp => ?_⟩
    rcases List.mem_append.1 hp with hp | hp
    · exact Or.inl hp
    · rw [List.mem_singleton.1 hp]
      exact Or.inr rfl

theorem ordered_drain {delay : UInt32} (h : Ordered delay s os) (pick : ℕ) (now : Int)
    (hu : s.Untied (.worker now, pick)) :
    Ordered delay (s.drainBag pick now).1 (os ++ (s.drainBag pick now).2) ∧
      ∀ p ∈ (s.drainBag pick now).1.pending, p ∈ s.pending := by
  rcases s.drainBag_cases pick now with ⟨packet, hlook, htop, hdue, heq⟩ | ⟨data, hhold, heq⟩ |
      ⟨hquiet, hdelay, hjitter, hsender, hpending, hholding⟩
  · -- The packet on top is the first one of the queue.
    rw [heq]
    cases hp : s.pending with
    | nil => rw [hp, top?_nil] at htop; cases htop
    | cons first rest =>
      have hsorted := h.sorted
      rw [hp] at htop hsorted
      have hsame : packet = first := by
        have hu' := hu hlook
        rw [hp] at hu'
        exact hu' packet (mem_tops_of_top? htop) first (head_mem_tops hsorted) hdue
      rw [hsame, List.erase_cons_head]
      exact ⟨h.take hlook hp (hsame ▸ hdue), fun q hq => List.mem_cons_of_mem first hq⟩
  · rw [heq]
    exact ⟨h.send hhold, fun p hp => hp⟩
  · rw [hquiet, List.append_nil, hpending]
    exact ⟨h.congr hdelay hjitter hsender hpending hholding, fun p hp => hp⟩

/-- **One turn** keeps the order unless the worker finds a tie. -/
theorem ordered_step {delay : UInt32} (hdelay : delay ≠ 0) (h : Ordered delay s os) (i : Turn × ℕ)
    (hlast : ∀ p ∈ s.pending, ∀ now ∈ reading i, p.dueUs ≤ now + delayUs delay) (hu : s.Untied i) :
    Ordered delay (stepBag s i).1 (os ++ (stepBag s i).2) ∧
      ∀ p ∈ (stepBag s i).1.pending,
        p ∈ s.pending ∨ ∃ now ∈ reading i, p.dueUs = now + delayUs delay := by
  obtain ⟨t, pick⟩ := i
  have hquiet : ∀ s' : LossSimulator, s'.delay = s.delay → s'.jitter = s.jitter →
      s'.sender = s.sender → s'.pending = s.pending → holding s'.worker = holding s.worker →
      Ordered delay s' (os ++ []) ∧
        ∀ p ∈ s'.pending,
          p ∈ s.pending ∨ ∃ now ∈ reading (t, pick), p.dueUs = now + delayUs delay := by
    intro s' hd hj hs hp hh
    rw [List.append_nil, hp]
    exact ⟨h.congr hd hj hs hp hh, fun p hp => Or.inl hp⟩
  cases t with
  | inject uni draw data now =>
    obtain ⟨hord, hnew⟩ := ordered_inject hdelay h uni draw data fun p hp => hlast p hp now rfl
    exact ⟨hord, fun p hp => (hnew p hp).imp id fun hdue => ⟨now, rfl, hdue⟩⟩
  | worker now =>
    obtain ⟨hord, hold⟩ := ordered_drain h pick now hu
    exact ⟨hord, fun p hp => Or.inl (hold p hp)⟩
  | notify =>
    simp only [stepBag, step]
    split_ifs
    · exact hquiet s rfl rfl rfl rfl rfl
    · exact hquiet _ rfl rfl rfl rfl (holding_wake s.worker)
  | stop => exact hquiet _ rfl rfl rfl rfl rfl
  | timeout =>
    simp only [stepBag, step]
    split_ifs with htimed
    · exact hquiet _ rfl rfl rfl rfl (by rw [htimed]; rfl)
    · exact hquiet _ rfl rfl rfl rfl rfl
  | spurious => exact hquiet _ rfl rfl rfl rfl (holding_wake s.worker)

/-! ## Runs -/

/-- What the clock reads in the calls of `inject` of a run. -/
def readings (is : List (Turn × ℕ)) : List Int := is.filterMap reading

theorem ordered_run {delay : UInt32} (hdelay : delay ≠ 0) {is : List (Turn × ℕ)}
    (h : Ordered delay s os)
    (hlast : ∀ p ∈ s.pending, ∀ now ∈ readings is, p.dueUs ≤ now + delayUs delay)
    (hclock : (readings is).Pairwise (· ≤ ·)) (hu : Runs.Along stepBag Untied s is) :
    Ordered delay (Runs.after stepBag s is) (os ++ Runs.trace stepBag s is) := by
  induction is generalizing s os with
  | nil => simpa using h
  | cons i is ih =>
    obtain ⟨hu, hus⟩ := hu
    have hhead : ∀ now ∈ reading i, now ∈ readings (i :: is) := fun now hnow =>
      List.mem_filterMap.2 ⟨i, List.mem_cons_self, hnow⟩
    have htail : ∀ now ∈ readings is, now ∈ readings (i :: is) := fun now hnow => by
      obtain ⟨j, hj, hnow⟩ := List.mem_filterMap.1 hnow
      exact List.mem_filterMap.2 ⟨j, List.mem_cons_of_mem i hj, hnow⟩
    have hlater : ∀ r ∈ reading i, ∀ now ∈ readings is, r ≤ now := by
      intro r hr now hnow
      rw [readings, List.filterMap_cons_some hr, List.pairwise_cons] at hclock
      exact hclock.1 now hnow
    have hclock' : (readings is).Pairwise (· ≤ ·) :=
      hclock.sublist ((List.sublist_cons_self i is).filterMap reading)
    obtain ⟨hstep, hnew⟩ := ordered_step hdelay h i
      (fun p hp now hnow => hlast p hp now (hhead now hnow)) hu
    rw [Runs.after_cons, Runs.trace_cons, ← List.append_assoc]
    refine ih hstep (fun p hp now hnow => ?_) hclock' hus
    -- A packet that this turn accepts is due no later than any that is accepted later.
    rcases hnew p hp with hp | ⟨r, hr, hdue⟩
    · exact hlast p hp now (htail now hnow)
    · have hle := hlater r hr now hnow
      omega

theorem sender_stepBag (s : LossSimulator) (i : Turn × ℕ) : (stepBag s i).1.sender = s.sender := by
  obtain ⟨t, pick⟩ := i
  cases t with
  | inject uni draw data now =>
    simp only [stepBag, injectBag]
    split_ifs <;> rfl
  | worker now =>
    show (s.drainBag pick now).1.sender = s.sender
    rcases s.drainBag_cases pick now with ⟨packet, -, -, -, heq⟩ | ⟨data, -, heq⟩ |
        ⟨-, -, -, hsender, -, -⟩
    · rw [heq]
    · rw [heq]
    · exact hsender
  | notify =>
    simp only [stepBag, step]
    split_ifs <;> rfl
  | stop | timeout | spurious => rfl

theorem sender_after (s : LossSimulator) (is : List (Turn × ℕ)) :
    (Runs.after stepBag s is).sender = s.sender :=
  Runs.invariant (I := fun s' => s'.sender = s.sender)
    (fun s' i h => (sender_stepBag s' i).trans h) rfl is

/-- The simulator when it has been started. -/
def constant (loss : ℚ) (delay : UInt32) (sender : Bool) : LossSimulator :=
  start { loss := loss, delay := delay, jitter := 0, sender := sender }

theorem constant_eq (loss : ℚ) {delay : UInt32} (hdelay : delay ≠ 0) (sender : Bool) :
    constant loss delay sender =
      { loss := loss, delay := delay, jitter := 0, sender := sender, running := true,
        worker := .loopHead } := if_neg fun h => hdelay h.1

theorem sender_constant (loss : ℚ) {delay : UInt32} (hdelay : delay ≠ 0) (sender : Bool) :
    (constant loss delay sender).sender = sender := by rw [constant_eq loss hdelay]

theorem ordered_constant (loss : ℚ) {delay : UInt32} (hdelay : delay ≠ 0) (sender : Bool) :
    Ordered delay (constant loss delay sender) [] := by
  rw [constant_eq loss hdelay]
  exact ⟨rfl, rfl, rfl, List.Pairwise.nil, List.forall_mem_nil _, fun _ => rfl, fun _ => rfl⟩

theorem ordered_after (loss : ℚ) {delay : UInt32} (hdelay : delay ≠ 0) (sender : Bool)
    {is : List (Turn × ℕ)} (hclock : (readings is).Pairwise (· ≤ ·))
    (hu : Runs.Along stepBag Untied (constant loss delay sender) is) :
    Ordered delay (Runs.after stepBag (constant loss delay sender) is)
      (Runs.trace stepBag (constant loss delay sender) is) := by
  have hfresh := ordered_constant loss hdelay sender
  have hempty : (constant loss delay sender).pending = [] := by
    simpa using hfresh.queue.symm
  exact ordered_run hdelay hfresh (fun p hp => by rw [hempty] at hp; cases hp) hclock hu

theorem inOrder_of_untied (loss : ℚ) {delay : UInt32} (hdelay : delay ≠ 0) (sender : Bool)
    {is : List (Turn × ℕ)} (hclock : (readings is).Pairwise (· ≤ ·))
    (hu : Runs.Along stepBag Untied (constant loss delay sender) is) :
    InOrder (Runs.trace stepBag (constant loss delay sender) is) :=
  (ordered_after loss hdelay sender hclock hu).inOrder

/-! ## A tie -/

/-- What is sent is the beginning of what was accepted. -/
def SentInOrder (os : List BagEffect) : Prop :=
  os.filterMap sent? <+: (os.filterMap accepted?).map (·.data)

/-- At a tie there is a packet on top, due, that differs from the first one of the queue. -/
theorem exists_other (hsorted : s.pending.Pairwise fun a b => a.dueUs ≤ b.dueUs) {now : Int}
    (hw : s.worker = .looking) (htie : ¬ s.Untied (.worker now, 0)) :
    ∃ first rest c, s.pending = first :: rest ∧ c ∈ tops s.pending ∧ c.dueUs ≤ now ∧
      c.dueUs = first.dueUs ∧ c.data ≠ first.data := by
  simp only [Untied, hw, forall_true_left, not_forall] at htie
  obtain ⟨a, ha, b, hb, hdue, hne⟩ := htie
  cases hp : s.pending with
  | nil => rw [hp] at ha; exact absurd (mem_tops.1 ha).1 List.not_mem_nil
  | cons first rest =>
    rw [hp] at ha hb hsorted
    have hfirst := head_mem_tops hsorted
    -- All packets that may be on top are due at the same time.
    have hsame : ∀ c ∈ tops (first :: rest), c.dueUs = first.dueUs := fun c hc =>
      le_antisymm ((mem_tops.1 hc).2 first (mem_tops.1 hfirst).1)
        ((mem_tops.1 hfirst).2 c (mem_tops.1 hc).1)
    have hother : ∀ c ∈ tops (first :: rest), c ≠ first → c.data ≠ first.data := by
      intro c hc hne hdata
      obtain ⟨due, data⟩ := c
      exact hne (by rw [Pending.mk.injEq]; exact ⟨hsame _ hc, hdata⟩)
    by_cases hafirst : a = first
    · refine ⟨first, rest, b, rfl, hb, ?_, hsame b hb, hother b hb fun hbfirst => ?_⟩
      · rw [hsame b hb, ← hsame a ha]
        exact hdue
      · exact hne (hafirst.trans hbfirst.symm)
    · exact ⟨first, rest, a, rfl, ha, hdue, hsame a ha, hother a ha hafirst⟩

/-- **At a tie some pick breaks the order**: a packet is sent before an earlier one. -/
theorem Ordered.broken {delay : UInt32} (h : Ordered delay s os) (hsender : s.sender = true)
    (hw : s.worker = .looking) {now : Int} (htie : ¬ s.Untied (.worker now, 0)) :
    ∃ pick, ¬ SentInOrder
      (os ++ Runs.trace stepBag s [(.worker now, pick), (.worker now, 0)]) := by
  obtain ⟨first, rest, c, hp, hc, hdue, -, hdata⟩ := exists_other h.sorted hw htie
  obtain ⟨pick, hpick⟩ := exists_pick hc
  have htrace : Runs.trace stepBag s [(.worker now, pick), (.worker now, 0)] =
      [.taken c now, .sent c.data] := by
    simp [stepBag, drainBag, hw, hpick, Int.not_lt.2 hdue, sendBag, hsender]
  refine ⟨pick, fun hprefix => hdata ?_⟩
  have hsent := h.sent hsender
  rw [hw, show holding .looking = [] from rfl, List.append_nil] at hsent
  have haccepted := congrArg (List.map Pending.data) h.queue
  rw [List.map_append, List.map_map, hp, List.map_cons] at haccepted
  have hmap : List.map (Pending.data ∘ fun x : Pending × Int => x.1) (os.filterMap taken?) =
      os.filterMap sent? := hsent
  rw [hmap] at haccepted
  rw [SentInOrder, htrace, List.filterMap_append, List.filterMap_append] at hprefix
  simp only [List.filterMap_cons, List.filterMap_nil, sent?, accepted?, List.append_nil,
    haccepted] at hprefix
  exact (List.cons_prefix_cons.1 ((List.prefix_append_right_inj _).1 hprefix)).1

theorem worker_drainBag_looking (hw : s.worker = .looking) (pick : ℕ) (now : Int) :
    (s.drainBag pick now).1.worker ≠ .looking := by
  simp only [drainBag, hw]
  split
  · simp
  · split_ifs <;> simp

/-- **Main theorem.** For a constant delay and a clock that does not go back: in a run in which the
worker finds no tie, the packets are sent in order; and when the worker then looks at the queue,
they stay in order whatever it picks if and only if it finds no tie. -/
theorem in_order_until_tie (loss : ℚ) (delay : UInt32) (hdelay : delay ≠ 0) (sender : Bool)
    (is : List (Turn × ℕ)) (hclock : (readings is).Pairwise (· ≤ ·))
    (hu : Runs.Along stepBag Untied (constant loss delay sender) is) :
    InOrder (Runs.trace stepBag (constant loss delay sender) is) ∧
      (sender = true → (Runs.after stepBag (constant loss delay sender) is).worker = .looking →
        ∀ now, (∀ pick, SentInOrder (Runs.trace stepBag (constant loss delay sender)
            (is ++ [(.worker now, pick), (.worker now, 0)]))) ↔
          (Runs.after stepBag (constant loss delay sender) is).Untied (.worker now, 0)) := by
  refine ⟨inOrder_of_untied loss hdelay sender hclock hu, fun hsender hw now =>
    ⟨fun hall => ?_, ?_⟩⟩
  · by_contra htie
    have hord := ordered_after loss hdelay sender hclock hu
    have hsends : (Runs.after stepBag (constant loss delay sender) is).sender = true := by
      rw [sender_after, sender_constant loss hdelay, hsender]
    obtain ⟨pick, hbroken⟩ := hord.broken hsends hw htie
    rw [← Runs.trace_append] at hbroken
    exact hbroken (hall pick)
  · intro huntied pick
    refine (inOrder_of_untied loss hdelay sender ?_ ?_).sent
    · simpa [readings, reading, List.filterMap_cons] using hclock
    · refine (Runs.along_append _ is _).2 ⟨hu, huntied, fun hlook => ?_, trivial⟩
      exact absurd hlook (worker_drainBag_looking hw pick now)

/-! ## The queue kept sorted -/

/-- What `step` sends. -/
def sentData? : Effect → Option Bytes
  | .sent data => some data
  | _ => none

/-- The simulator with its queue in another order. -/
def withBag (s : LossSimulator) (bag : List Pending) : LossSimulator := { s with pending := bag }

/-- The bag holds what the sorted queue holds. -/
structure SameBag (s : LossSimulator) (bag : List Pending) : Prop where
  perm : bag.Perm s.pending
  sorted : s.pending.Pairwise fun a b => a.dueUs ≤ b.dueUs

/-- What a turn of `step` does, `stepBag` does. -/
def Mimics (next : LossSimulator × List Effect) (next' : LossSimulator × List BagEffect) : Prop :=
  ∃ bag, SameBag next.1 bag ∧ next'.1 = next.1.withBag bag ∧
    next'.2.filterMap sent? = next.2.filterMap sentData?

variable {bag : List Pending}

theorem SameBag.mimics (h : SameBag s bag) {s' : LossSimulator} {es : List Effect}
    {es' : List BagEffect} (hpending : s'.pending = s.pending)
    (hsent : es'.filterMap sent? = es.filterMap sentData?) :
    Mimics (s', es) (s'.withBag bag, es') :=
  ⟨bag, ⟨hpending ▸ h.perm, hpending ▸ h.sorted⟩, rfl, hsent⟩

theorem SameBag.quiet (h : SameBag s bag) {s' : LossSimulator} (hpending : s'.pending = s.pending) :
    Mimics (s', []) (s'.withBag bag, []) := h.mimics hpending rfl

theorem sent_sendBag (s : LossSimulator) (data : Bytes) :
    (s.sendBag data).filterMap sent? = (s.send data).filterMap sentData? := by
  unfold sendBag send
  split_ifs <;> rfl

theorem sorted_orderedInsert (h : pending.Pairwise fun a b => a.dueUs ≤ b.dueUs) (p : Pending) :
    (pending.orderedInsert (fun a b => a.dueUs ≤ b.dueUs) p).Pairwise
      fun a b => a.dueUs ≤ b.dueUs := by
  have : Std.Total fun a b : Pending => a.dueUs ≤ b.dueUs :=
    ⟨fun a b => Int.le_total a.dueUs b.dueUs⟩
  have : IsTrans Pending fun a b => a.dueUs ≤ b.dueUs := ⟨fun a b c => Int.le_trans⟩
  exact h.orderedInsert p pending

theorem SameBag.inject (h : SameBag s bag) (uni : ℚ) (draw : UInt32) (data : Bytes) (now : Int) :
    Mimics (s.inject uni draw data now) ((s.withBag bag).injectBag uni draw data now) := by
  unfold injectBag LossSimulator.inject withBag
  by_cases hloss : s.loss > 0 ∧ uni < s.loss
  · simp only [if_pos hloss]
    exact h.mimics rfl rfl
  by_cases hzero : s.delay + min draw s.jitter = 0
  · simp only [if_neg hloss, if_pos hzero]
    exact h.mimics rfl (sent_sendBag s data)
  by_cases hmutex : s.worker.holdsMutex = true
  · simp only [if_neg hloss, if_neg hzero, if_pos hmutex]
    exact h.mimics rfl rfl
  · simp only [if_neg hloss, if_neg hzero, if_neg hmutex]
    refine ⟨_, ⟨?_, sorted_orderedInsert h.sorted _⟩, rfl, rfl⟩
    exact (List.perm_append_singleton _ _).trans
      ((h.perm.cons _).trans (List.perm_orderedInsert _ _ _).symm)

theorem SameBag.drain (h : SameBag s bag) (now : Int) :
    ∃ pick, Mimics (s.drain now) ((s.withBag bag).drainBag pick now) := by
  have hperm := h.perm
  have hsorted := h.sorted
  obtain ⟨loss, delay, jitter, sender, running, pending, worker, owed⟩ := s
  cases worker with
  | looking =>
    cases pending with
    | nil =>
      obtain rfl : bag = [] := hperm.eq_nil
      exact ⟨0, h.quiet rfl⟩
    | cons packet rest =>
      have htop : packet ∈ tops bag := by
        obtain ⟨hmem, hmin⟩ := mem_tops.1 (head_mem_tops hsorted)
        exact mem_tops.2 ⟨hperm.mem_iff.2 hmem, fun q hq => hmin q (hperm.mem_iff.1 hq)⟩
      obtain ⟨pick, hpick⟩ := exists_pick htop
      refine ⟨pick, ?_⟩
      simp only [drainBag, LossSimulator.drain, withBag, hpick]
      split_ifs
      · exact ⟨bag, ⟨hperm, hsorted⟩, rfl, rfl⟩
      · have herase := hperm.erase packet
        rw [List.erase_cons_head] at herase
        exact ⟨bag.erase packet, ⟨herase, hsorted.of_cons⟩, rfl, rfl⟩
  | sending data => exact ⟨0, h.mimics rfl (sent_sendBag _ data)⟩
  | testing =>
    refine ⟨0, ?_⟩
    simp only [drainBag, LossSimulator.drain, withBag, hperm.isEmpty_eq]
    exact h.quiet rfl
  | _ => exact ⟨0, h.quiet rfl⟩

/-- **A turn of `step`** is one of `stepBag`, for some pick. -/
theorem SameBag.turn (h : SameBag s bag) (t : Turn) :
    ∃ pick, Mimics (step s t) (stepBag (s.withBag bag) (t, pick)) := by
  cases t with
  | inject uni draw data now => exact ⟨0, h.inject uni draw data now⟩
  | worker now => exact h.drain now
  | notify =>
    refine ⟨0, ?_⟩
    unfold stepBag step withBag
    by_cases howed : s.owed = 0
    · simp only [if_pos howed]
      exact h.quiet rfl
    · simp only [if_neg howed]
      exact h.quiet rfl
  | stop | timeout | spurious => exact ⟨0, h.quiet rfl⟩

/-- **A run with the queue kept sorted** sends what a run with some picks sends. -/
theorem exists_picks (h : SameBag s bag) (ts : List Turn) :
    ∃ picks : List ℕ, picks.length = ts.length ∧
      (Runs.trace stepBag (s.withBag bag) (ts.zip picks)).filterMap sent? =
        (Runs.trace step s ts).filterMap sentData? := by
  induction ts generalizing s bag with
  | nil => exact ⟨[], rfl, rfl⟩
  | cons t ts ih =>
    obtain ⟨pick, bag', hsame, hnext, hsent⟩ := h.turn t
    obtain ⟨picks, hlength, hrest⟩ := ih hsame
    refine ⟨pick :: picks, congrArg Nat.succ hlength, ?_⟩
    rw [List.zip_cons_cons, Runs.trace_cons, Runs.trace_cons, List.filterMap_append,
      List.filterMap_append, hsent, hnext, hrest]

/-- Four packets of one microsecond. -/
def burst : List (Turn × ℕ) :=
  (List.replicate 4 (.worker 0, 0)) ++
    [(.inject 0 0 [1] 0, 0), (.inject 0 0 [2] 0, 0), (.inject 0 0 [3] 0, 0),
      (.inject 0 0 [4] 0, 0), (.notify, 0)] ++
    List.replicate 7 (.worker 20000, 0) ++ (.worker 20000, 1) :: List.replicate 9 (.worker 20000, 0)

/-- The third packet is sent before the second one. -/
theorem burst_reordered :
    (Runs.trace stepBag (constant 0 20 true) burst).filterMap sent? = [[1], [3], [2], [4]] ∧
      ¬ ∀ is : List (Turn × ℕ), (readings is).Pairwise (· ≤ ·) →
        InOrder (Runs.trace stepBag (constant 0 20 true) is) := by
  refine ⟨by decide +kernel, fun hall => ?_⟩
  have hsent := (hall burst (by decide)).sent
  revert hsent
  decide +kernel

theorem in_order_pair :
    InOrder (Runs.trace stepBag (constant 0 20 true) ((List.replicate 4 (.worker 0, 0)) ++
      [(.inject 0 0 [1] 0, 0), (.inject 0 0 [2] 1, 0), (.notify, 0), (.worker 20001, 0),
        (.worker 20001, 0), (.worker 20001, 0), (.worker 20001, 1), (.worker 20001, 0)])) := by
  refine (in_order_until_tie 0 20 (by decide) true _ (by decide) ?_).1
  decide

end Rtstream.LossSimulator
