import Rtstream.Lib.Runs
import Mathlib.Tactic.Common

/-!
# `thread_safe_queue.h`: the queue between two threads

A bounded queue with a mutex. A `push` into a full queue drops the oldest element, or waits when
the queue is told to block; `try_push` never waits, and drops in either mode; a `pop` waits for
an element, and gets none from a closed queue that is empty.

Everything an operation does happens under the mutex at once, so a run of any number of threads
is a list of operations in the order in which they get the mutex. An operation whose condition
does not hold goes on waiting: its turn changes nothing and returns nothing (`step`).

`Performs` says what each turn is to do, by what it finds. Main result: `conserves_order`, what is
popped was accepted, in the same order, and after `close` what is left is popped before a pop
returns `false`.
-/

namespace Rtstream

structure ThreadSafeQueue (α : Type) where
  q : List α := []
  capacity : ℕ := 8
  /-- `drop_old_`: a full queue drops instead of blocking. -/
  dropOld : Bool := true
  closed : Bool := false
  /-- `dropped_`: the counter that `dropped()` reads. -/
  dropped : ℕ := 0
  deriving DecidableEq, Repr

/-- A turn of a thread that has called an operation. -/
inductive QueueOp (α : Type)
  | push (v : α)
  | tryPush (v : α)
  | pop
  /-- `pop_for`, before or after its time is up. -/
  | popFor (expired : Bool)
  | close
  deriving DecidableEq, Repr

/-- What the turn comes to. -/
inductive QueueEffect (α : Type)
  /-- A push returns `true`. -/
  | accepted (v : α)
  /-- A push returns `false`. -/
  | rejected (v : α)
  /-- The oldest element is dropped. -/
  | dropped (v : α)
  /-- A pop returns `true`. -/
  | popped (v : α)
  /-- A pop returns `false`. -/
  | empty
  deriving DecidableEq, Repr

/-- The element that a push is called with. -/
def QueueOp.pushed? {α : Type} : QueueOp α → Option α
  | .push v | .tryPush v => some v
  | _ => none

def QueueOp.isPop {α : Type} : QueueOp α → Bool
  | .pop | .popFor _ => true
  | _ => false

theorem QueueOp.isPop_of_pushed? {α : Type} {i : QueueOp α} {v : α} (h : i.pushed? = some v) :
    i.isPop = false := by
  cases i with
  | push | tryPush => rfl
  | _ => cases h

namespace ThreadSafeQueue

variable {α : Type}

/-! ## The operations -/

/-- What both pushes do with an open queue. -/
def insert (s : ThreadSafeQueue α) (v : α) : ThreadSafeQueue α × List (QueueEffect α) :=
  if s.capacity ≤ s.q.length then
    ({ s with q := s.q.tail ++ [v], dropped := s.dropped + 1 },
      s.q.head?.toList.map .dropped ++ [.accepted v])
  else ({ s with q := s.q ++ [v] }, [.accepted v])

/-- `push`, once it has the mutex: it goes on waiting for room in a full queue that blocks. -/
def push (s : ThreadSafeQueue α) (v : α) : ThreadSafeQueue α × List (QueueEffect α) :=
  if s.closed || s.dropOld || decide (s.q.length < s.capacity) then
    if s.closed then (s, [.rejected v]) else s.insert v
  else (s, [])

/-- `try_push`. -/
def tryPush (s : ThreadSafeQueue α) (v : α) : ThreadSafeQueue α × List (QueueEffect α) :=
  if s.closed then (s, [.rejected v]) else s.insert v

/-- What both pops do with a queue they need not wait for. -/
def takeFront (s : ThreadSafeQueue α) : ThreadSafeQueue α × List (QueueEffect α) :=
  match s.q with
  | [] => (s, [.empty])
  | v :: q => ({ s with q := q }, [.popped v])

/-- `pop`, once it has the mutex: it goes on waiting for an element, or for the end. -/
def pop (s : ThreadSafeQueue α) : ThreadSafeQueue α × List (QueueEffect α) :=
  if s.closed || !s.q.isEmpty then s.takeFront else (s, [])

/-- `pop_for`, once it has the mutex. -/
def popFor (s : ThreadSafeQueue α) (expired : Bool) : ThreadSafeQueue α × List (QueueEffect α) :=
  if s.closed || !s.q.isEmpty then s.takeFront
  else (s, if expired then [.empty] else [])

def close (s : ThreadSafeQueue α) : ThreadSafeQueue α := { s with closed := true }

/-- The queue as a machine that is fed the threads' turns. -/
def step (s : ThreadSafeQueue α) : QueueOp α → ThreadSafeQueue α × List (QueueEffect α)
  | .push v => s.push v
  | .tryPush v => s.tryPush v
  | .pop => s.pop
  | .popFor expired => s.popFor expired
  | .close => (s.close, [])

/-! ## What a turn is to do -/

/-- **What a turn comes to**, by what it finds. -/
inductive Performs (s : ThreadSafeQueue α) :
    QueueOp α → ThreadSafeQueue α × List (QueueEffect α) → Prop
  | reject {i v} (hpush : i.pushed? = some v) (hclosed : s.closed = true) :
      Performs s i (s, [.rejected v])
  | accept {i v} (hpush : i.pushed? = some v) (hopen : s.closed = false)
      (hroom : s.q.length < s.capacity) : Performs s i ({ s with q := s.q ++ [v] }, [.accepted v])
  | dropOldest {i v w q} (hpush : i.pushed? = some v) (hopen : s.closed = false)
      (hfull : s.capacity ≤ s.q.length) (hdrops : s.dropOld = true ∨ i = .tryPush v)
      (hq : s.q = w :: q) :
      Performs s i
        ({ s with q := q ++ [v], dropped := s.dropped + 1 }, [.dropped w, .accepted v])
  | waitForRoom {v} (hopen : s.closed = false) (hfull : s.capacity ≤ s.q.length)
      (hblocks : s.dropOld = false) : Performs s (.push v) (s, [])
  | take {i v q} (hpop : i.isPop = true) (hq : s.q = v :: q) :
      Performs s i ({ s with q := q }, [.popped v])
  | giveUp {i} (hpop : i.isPop = true) (hq : s.q = [])
      (hover : s.closed = true ∨ i = .popFor true) :
      Performs s i (s, [.empty])
  | waitForElement {i} (hpop : i = .pop ∨ i = .popFor false) (hq : s.q = [])
      (hopen : s.closed = false) : Performs s i (s, [])
  | close : Performs s .close ({ s with closed := true }, [])

/-! ## What enters and what leaves -/

/-- The element a push was accepted with. -/
def accepted? : QueueEffect α → Option α
  | .accepted v => some v
  | _ => none

/-- The element a pop returned. -/
def popped? : QueueEffect α → Option α
  | .popped v => some v
  | _ => none

def dropped? : QueueEffect α → Option α
  | .dropped v => some v
  | _ => none

/-- What a pop returns: an element, or none. -/
def returned? : QueueEffect α → Option (Option α)
  | .popped v => some (some v)
  | .empty => some none
  | _ => none

/-- The element that left, to a consumer or not. -/
def removed? : QueueEffect α → Option α
  | .popped v | .dropped v => some v
  | _ => none

/-- An invariant of every run, and what one turn does to the queue. -/
structure Bounded (s : ThreadSafeQueue α) : Prop where
  pos : 0 < s.capacity
  size : s.q.length ≤ s.capacity

/-- One turn, seen from outside: elements enter at the back and leave at the front, a drop is
counted and takes the oldest element, and nothing enters once the queue is closed. -/
structure Turn (s s' : ThreadSafeQueue α) (os : List (QueueEffect α)) : Prop where
  order : s.q ++ os.filterMap accepted? = os.filterMap removed? ++ s'.q
  count : s'.dropped = s.dropped + (os.filterMap dropped?).length
  removed : (os.filterMap removed?).length =
    (os.filterMap popped?).length + (os.filterMap dropped?).length
  oldest : ∀ v ∈ os.filterMap dropped?, s.q.head? = some v
  capacity : s'.capacity = s.capacity
  size : s'.q.length ≤ s.capacity
  closed : s.closed = true → s'.closed = true ∧ os.filterMap accepted? = [] ∧
    os.filterMap dropped? = []
  empty : s.closed = true → .empty ∈ os → s.q = []

/-- Nothing enters and nothing leaves in a turn that leaves the queue as it is. -/
theorem Turn.same {s : ThreadSafeQueue α} {os : List (QueueEffect α)} (h : Bounded s)
    (haccepted : os.filterMap accepted? = []) (hpopped : os.filterMap popped? = [])
    (hdropped : os.filterMap dropped? = []) (hremoved : os.filterMap removed? = [])
    (hempty : s.closed = true → .empty ∈ os → s.q = []) : Turn s s os where
  order := by rw [haccepted, hremoved, List.append_nil, List.nil_append]
  count := by rw [hdropped, List.length_nil, Nat.add_zero]
  removed := by rw [hremoved, hpopped, hdropped, List.length_nil]
  oldest := fun v hv => by
    rw [hdropped] at hv
    cases hv
  capacity := rfl
  size := h.size
  closed := fun hc => ⟨hc, haccepted, hdropped⟩
  empty := hempty

theorem Turn.still {s : ThreadSafeQueue α} (h : Bounded s) : Turn s s [] :=
  .same h rfl rfl rfl rfl fun _ he => by cases he

theorem turn_insert {s : ThreadSafeQueue α} (h : Bounded s) (hopen : s.closed = false) (v : α) :
    Turn s (s.insert v).1 (s.insert v).2 := by
  have hclosed : s.closed ≠ true := Bool.eq_false_iff.1 hopen
  have hpos := h.pos
  have hsize := h.size
  unfold insert
  split_ifs with hfull
  · cases hq : s.q with
    | nil =>
      rw [hq, List.length_nil] at hfull
      omega
    | cons w q =>
      rw [hq, List.length_cons] at hsize
      exact {
        order := by rw [hq]; rfl
        count := rfl
        removed := rfl
        oldest := fun u hu => by rw [hq, List.mem_singleton.1 hu]; rfl
        capacity := rfl
        size := by simpa using hsize
        closed := fun hc => absurd hc hclosed
        empty := fun hc => absurd hc hclosed }
  · exact {
      order := rfl
      count := rfl
      removed := rfl
      oldest := fun u hu => by cases hu
      capacity := rfl
      size := by simp; omega
      closed := fun hc => absurd hc hclosed
      empty := fun hc => absurd hc hclosed }

/-- **What `try_push` does**: a closed queue rejects, a queue with room takes the element, and a
full one drops its oldest for it. -/
theorem tryPush_cases {s : ThreadSafeQueue α} (h : Bounded s) (v : α) :
    (s.closed = true ∧ s.tryPush v = (s, [.rejected v])) ∨
    (s.closed = false ∧ s.tryPush v = ({ s with q := s.q ++ [v] }, [.accepted v])) ∨
    (s.closed = false ∧ ∃ w q, s.q = w :: q ∧
      s.tryPush v =
        ({ s with q := q ++ [v], dropped := s.dropped + 1 }, [.dropped w, .accepted v])) := by
  by_cases hclosed : s.closed = true
  · exact .inl ⟨hclosed, by rw [tryPush, if_pos hclosed]⟩
  · have hopen := Bool.eq_false_iff.2 hclosed
    rw [tryPush, if_neg hclosed, insert]
    by_cases hfull : s.capacity ≤ s.q.length
    · obtain ⟨w, q, hq⟩ := List.exists_cons_of_length_pos (Nat.lt_of_lt_of_le h.pos hfull)
      exact .inr (.inr ⟨hopen, w, q, hq, by rw [if_pos hfull, hq]; rfl⟩)
    · exact .inr (.inl ⟨hopen, by rw [if_neg hfull]⟩)

/-- What is in the queue after `try_push` was there, or is the new element, in this order. -/
theorem sublist_tryPush (s : ThreadSafeQueue α) (v : α) :
    (s.tryPush v).1.q.Sublist (s.q ++ [v]) := by
  simp only [tryPush, insert]
  split_ifs
  · exact List.sublist_append_left _ _
  · exact (List.tail_sublist _).append (List.Sublist.refl _)
  · exact List.Sublist.refl _

/-- **What `push` does**: it waits, or it does what `try_push` does. -/
theorem push_cases (s : ThreadSafeQueue α) (v : α) :
    (s.dropOld = false ∧ s.push v = (s, [])) ∨
      (s.push v = s.tryPush v ∧ (s.push v).2.isEmpty = false) := by
  by_cases hwake : (s.closed || s.dropOld || decide (s.q.length < s.capacity)) = true
  · have hpush : s.push v = s.tryPush v := by rw [push, tryPush, if_pos hwake]
    refine .inr ⟨hpush, ?_⟩
    rw [hpush, tryPush, insert]
    split_ifs <;> simp
  · refine .inl ⟨?_, by rw [push, if_neg hwake]⟩
    simp only [Bool.or_eq_true, not_or, Bool.not_eq_true] at hwake
    exact hwake.1.2

theorem sublist_push (s : ThreadSafeQueue α) (v : α) :
    ((s.push v).1.q ++ if (s.push v).2.isEmpty then [v] else []).Sublist (s.q ++ [v]) := by
  rcases push_cases s v with ⟨-, hpush⟩ | ⟨hpush, hreturns⟩
  · rw [hpush]
    exact List.Sublist.refl _
  · rw [hreturns, hpush, if_neg Bool.false_ne_true, List.append_nil]
    exact s.sublist_tryPush v

/-- **What `pop` does**: it takes the oldest element, and from an empty queue it waits or, once the
queue is closed, returns without one. -/
theorem pop_cases (s : ThreadSafeQueue α) :
    (s.q = [] ∧ s.closed = false ∧ s.pop = (s, [])) ∨
    (s.q = [] ∧ s.closed = true ∧ s.pop = (s, [.empty])) ∨
    ∃ v q, s.q = v :: q ∧ s.pop = ({ s with q := q }, [.popped v]) := by
  cases hq : s.q with
  | cons v q => exact .inr (.inr ⟨v, q, rfl, by simp [pop, takeFront, hq]⟩)
  | nil =>
    by_cases hclosed : s.closed = true
    · exact .inr (.inl ⟨rfl, hclosed, by simp [pop, takeFront, hq, hclosed]⟩)
    · have hopen := Bool.eq_false_iff.2 hclosed
      exact .inl ⟨rfl, hopen, by simp [pop, hq, hopen]⟩

/-- **What `pop_for` does.** It gives up an empty queue when it is closed or the time is up. -/
theorem popFor_cases (s : ThreadSafeQueue α) (expired : Bool) :
    (s.q = [] ∧ (s.popFor expired = (s, []) ∨ s.popFor expired = (s, [.empty]))) ∨
    ∃ v q, s.q = v :: q ∧ s.popFor expired = ({ s with q := q }, [.popped v]) := by
  cases hq : s.q with
  | cons v q => exact .inr ⟨v, q, rfl, by simp [popFor, takeFront, hq]⟩
  | nil =>
    refine .inl ⟨rfl, ?_⟩
    by_cases hclosed : s.closed = true
    · exact .inr (by simp [popFor, takeFront, hq, hclosed])
    · have hopen := Bool.eq_false_iff.2 hclosed
      cases expired with
      | true => exact .inr (by simp [popFor, hq, hopen])
      | false => exact .inl (by simp [popFor, hq, hopen])

theorem performs_step {s : ThreadSafeQueue α} (h : Bounded s) (i : QueueOp α) :
    Performs s i (step s i) := by
  have hinsert : ∀ {i v}, i.pushed? = some v → s.closed = false →
      (s.dropOld = true ∨ i = .tryPush v ∨ s.q.length < s.capacity) →
      Performs s i (s.insert v) := by
    intro i v hi hopen hgoes
    unfold insert
    split_ifs with hfull
    · obtain ⟨w, q, hq⟩ := List.exists_cons_of_length_pos (Nat.lt_of_lt_of_le h.pos hfull)
      have hdrops : s.dropOld = true ∨ i = .tryPush v := by
        rcases hgoes with hmode | htry | hroom
        · exact .inl hmode
        · exact .inr htry
        · exact absurd hfull (Nat.not_le.2 hroom)
      have := Performs.dropOldest hi hopen hfull hdrops hq
      rwa [hq]
    · exact .accept hi hopen (Nat.not_le.1 hfull)
  have htake : ∀ {i}, i.isPop = true → (s.closed || !s.q.isEmpty) = true →
      Performs s i s.takeFront := by
    intro i hi hwake
    unfold takeFront
    split
    · next hq => exact .giveUp hi hq (.inl (by simpa [hq] using hwake))
    · next v q hq => exact .take hi hq
  cases i with
  | push v =>
    simp only [step, push]
    split_ifs with hwake hclosed
    · exact .reject rfl hclosed
    · exact hinsert rfl (Bool.eq_false_iff.2 hclosed) (by simpa [hclosed] using hwake)
    · simp only [Bool.or_eq_true, not_or, decide_eq_true_eq, Nat.not_lt, Bool.not_eq_true] at hwake
      exact .waitForRoom hwake.1.1 hwake.2 hwake.1.2
  | tryPush v =>
    simp only [step, tryPush]
    split_ifs with hclosed
    · exact .reject rfl hclosed
    · exact hinsert rfl (Bool.eq_false_iff.2 hclosed) (.inr (.inl rfl))
  | pop =>
    simp only [step, pop]
    split_ifs with hwake
    · exact htake rfl hwake
    · simp only [Bool.or_eq_true, not_or, Bool.not_eq_true, Bool.not_eq_false',
        List.isEmpty_iff] at hwake
      exact .waitForElement (.inl rfl) hwake.2 hwake.1
  | popFor expired =>
    simp only [step, popFor]
    split_ifs with hwake hexpired
    · exact htake rfl hwake
    · simp only [Bool.or_eq_true, not_or, Bool.not_eq_true, Bool.not_eq_false',
        List.isEmpty_iff] at hwake
      exact .giveUp rfl hwake.2 (.inr (by rw [hexpired]))
    · simp only [Bool.or_eq_true, not_or, Bool.not_eq_true, Bool.not_eq_false',
        List.isEmpty_iff] at hwake
      exact .waitForElement (.inr (by rw [Bool.eq_false_iff.2 hexpired])) hwake.2 hwake.1
  | close => exact .close

theorem dropped_insert (s : ThreadSafeQueue α) (v : α) :
    (s.insert v).1.dropped = s.dropped + if s.capacity ≤ s.q.length then 1 else 0 := by
  unfold insert
  split_ifs <;> rfl

theorem length_insert {s : ThreadSafeQueue α} (h : Bounded s) (v : α) :
    (s.insert v).1.q.length + (if s.capacity ≤ s.q.length then 1 else 0) = s.q.length + 1 := by
  have hpos := h.pos
  unfold insert
  split_ifs
  · simp only [List.length_append, List.length_tail, List.length_singleton]
    omega
  · simp

theorem turn_takeFront {s : ThreadSafeQueue α} (h : Bounded s) :
    Turn s s.takeFront.1 s.takeFront.2 := by
  have hsize := h.size
  unfold takeFront
  split
  · next hq => exact .same h rfl rfl rfl rfl fun _ _ => hq
  · next v q hq =>
    rw [hq, List.length_cons] at hsize
    exact {
      order := by rw [hq]; exact List.append_nil _
      count := rfl
      removed := rfl
      oldest := fun u hu => by cases hu
      capacity := rfl
      size := by show q.length ≤ s.capacity; omega
      closed := fun hc => ⟨hc, rfl, rfl⟩
      empty := fun _ he => by cases List.mem_singleton.1 he }

theorem turn_idle {s : ThreadSafeQueue α} (h : Bounded s) {o : QueueEffect α}
    (ho : (∃ v, o = .rejected v) ∨ o = .empty ∧ s.closed = false) : Turn s s [o] := by
  obtain ⟨v, rfl⟩ | ⟨rfl, hopen⟩ := ho
  · exact .same h rfl rfl rfl rfl fun _ he => by cases List.mem_singleton.1 he
  · exact .same h rfl rfl rfl rfl fun hc _ => by rw [hopen] at hc; cases hc

theorem turn_step {s : ThreadSafeQueue α} (h : Bounded s) (i : QueueOp α) :
    Turn s (step s i).1 (step s i).2 := by
  cases i with
  | push v =>
    simp only [step, push]
    split_ifs with hwake hclosed
    · exact turn_idle h (.inl ⟨v, rfl⟩)
    · exact turn_insert h (Bool.eq_false_iff.2 hclosed) v
    · exact .still h
  | tryPush v =>
    simp only [step, tryPush]
    split_ifs with hclosed
    · exact turn_idle h (.inl ⟨v, rfl⟩)
    · exact turn_insert h (Bool.eq_false_iff.2 hclosed) v
  | pop =>
    simp only [step, pop]
    split_ifs with hwake
    · exact turn_takeFront h
    · exact .still h
  | popFor expired =>
    simp only [step, popFor]
    split_ifs with hwake hexp
    · exact turn_takeFront h
    · refine turn_idle h (.inr ⟨rfl, ?_⟩)
      rw [Bool.or_eq_true, not_or] at hwake
      exact Bool.eq_false_iff.2 hwake.1
    · exact .still h
  | close =>
    exact ⟨by simp [step, close], rfl, rfl, by simp [step], rfl, h.size, fun _ => ⟨rfl, rfl, rfl⟩,
      by simp [step]⟩

/-! ## Runs -/

theorem bounded_create {capacity : ℕ} (h : 0 < capacity) (dropOld : Bool) :
    Bounded ({ capacity := capacity, dropOld := dropOld } : ThreadSafeQueue α) :=
  ⟨h, Nat.zero_le _⟩

theorem Turn.bounded {s s' : ThreadSafeQueue α} {os : List (QueueEffect α)} (h : Turn s s' os)
    (hs : Bounded s) : Bounded s' := by
  have hcap := h.capacity
  exact ⟨hcap ▸ hs.pos, hcap ▸ h.size⟩

section Run

variable {s : ThreadSafeQueue α} (h : Bounded s) (is : List (QueueOp α))
include h

theorem Bounded.run : Bounded (Runs.after step s is) := by
  induction is generalizing s with
  | nil => exact h
  | cons i is ih => exact ih ((turn_step h i).bounded h)

theorem run_capacity : (Runs.after step s is).capacity = s.capacity := by
  induction is generalizing s with
  | nil => rfl
  | cons i is ih =>
    have hturn := turn_step h i
    exact (ih (hturn.bounded h)).trans hturn.capacity

theorem run_order :
    s.q ++ (Runs.trace step s is).filterMap accepted? =
      (Runs.trace step s is).filterMap removed? ++ (Runs.after step s is).q :=
  Runs.conserved (I := Bounded) (·.q) accepted? removed?
    (fun _ i hs => ⟨(turn_step hs i).bounded hs, (turn_step hs i).order⟩) h is

theorem run_count :
    (Runs.after step s is).dropped =
        s.dropped + ((Runs.trace step s is).filterMap dropped?).length ∧
      ((Runs.trace step s is).filterMap removed?).length =
        ((Runs.trace step s is).filterMap popped?).length +
          ((Runs.trace step s is).filterMap dropped?).length := by
  induction is generalizing s with
  | nil => exact ⟨rfl, rfl⟩
  | cons i is ih =>
    have hturn := turn_step h i
    obtain ⟨hcount, hremoved⟩ := ih (hturn.bounded h)
    have hcount' := hturn.count
    have hremoved' := hturn.removed
    simp only [Runs.trace_cons, Runs.after_cons, List.filterMap_append, List.length_append]
    omega

/-- A closed queue stays closed, accepts and drops nothing, and returns `false` when it is
empty. -/
theorem run_closed (hc : s.closed = true) :
    (Runs.trace step s is).filterMap accepted? = [] ∧
      (Runs.trace step s is).filterMap dropped? = [] ∧
      (.empty ∈ Runs.trace step s is → (Runs.after step s is).q = []) := by
  induction is generalizing s with
  | nil => simp
  | cons i is ih =>
    have hturn := turn_step h i
    obtain ⟨hc', hacc, hdrop⟩ := hturn.closed hc
    obtain ⟨hacc', hdrop', hempty'⟩ := ih (hturn.bounded h) hc'
    refine ⟨?_, ?_, ?_⟩
    · rw [Runs.trace_cons, List.filterMap_append, hacc, hacc', List.append_nil]
    · rw [Runs.trace_cons, List.filterMap_append, hdrop, hdrop', List.append_nil]
    · intro he
      rw [Runs.trace_cons] at he
      rcases List.mem_append.1 he with he | he
      · -- The queue is empty here, and nothing is accepted any more.
        have hq := hturn.empty hc he
        have horder := run_order h (i :: is)
        rw [Runs.trace_cons, List.filterMap_append, hacc, hacc', List.append_nil, hq] at horder
        exact (List.append_eq_nil_iff.1 horder.symm).2
      · exact hempty' he

end Run

theorem popped_sublist_removed (os : List (QueueEffect α)) :
    (os.filterMap popped?).Sublist (os.filterMap removed?) := by
  induction os with
  | nil => exact .slnil
  | cons o os ih =>
    cases o with
    | popped v => exact ih.cons_cons v
    | dropped v => exact ih.cons v
    | _ => exact ih

theorem removed_eq_popped {os : List (QueueEffect α)} (h : os.filterMap dropped? = []) :
    os.filterMap removed? = os.filterMap popped? := by
  induction os with
  | nil => rfl
  | cons o os ih =>
    cases o with
    | popped v => exact congrArg (v :: ·) (ih h)
    | dropped v => cases h
    | _ => exact ih h

/-- **Draining**: the pops of a closed queue return what is left, in order, and then `false`. -/
theorem run_drains {s : ThreadSafeQueue α} (h : Bounded s) (hc : s.closed = true)
    (is : List (QueueOp α)) :
    (Runs.trace step s is).filterMap returned? =
      (s.q.take (is.countP QueueOp.isPop)).map some ++
        List.replicate (is.countP QueueOp.isPop - s.q.length) none := by
  induction is generalizing s with
  | nil => simp
  | cons i is ih =>
    have hrest := ih ((turn_step h i).bounded h) ((turn_step h i).closed hc).1
    rw [Runs.trace_cons, List.filterMap_append, hrest]
    have hperforms := performs_step h i
    revert hperforms
    generalize step s i = r
    intro hperforms
    cases hperforms with
    | reject hpush =>
      simp [QueueOp.isPop_of_pushed? hpush, returned?]
    | take hpop hq =>
      rw [List.countP_cons_of_pos hpop, hq]
      simp [returned?]
    | giveUp hpop hq =>
      rw [List.countP_cons_of_pos hpop, hq]
      simp [returned?, List.replicate_succ]
    | close => simp [QueueOp.isPop]
    | accept _ hopen | dropOldest _ hopen | waitForRoom hopen | waitForElement _ _ hopen =>
      rw [hc] at hopen
      cases hopen

theorem run_close {s : ThreadSafeQueue α} (h : Bounded s) (is : List (QueueOp α)) :
    (Runs.trace step s.close is).filterMap accepted? = [] ∧
      s.q = (Runs.trace step s.close is).filterMap popped? ++ (Runs.after step s.close is).q ∧
      (.empty ∈ Runs.trace step s.close is → (Runs.after step s.close is).q = []) := by
  have hclose : Bounded s.close := ⟨h.pos, h.size⟩
  obtain ⟨hacc, hdrop, hempty⟩ := run_closed hclose is rfl
  have horder := run_order hclose is
  rw [hacc, List.append_nil, removed_eq_popped hdrop] at horder
  exact ⟨hacc, horder, hempty⟩

/-- **The queue keeps what it is given, in order.** In every run of a queue of capacity at least
one, in either mode: what is popped is part of what was accepted, in the same order; the size is
within the capacity; what was accepted has been popped, is still there, or was dropped; every turn
does what it is to do in the state it finds; a dropped element was the oldest one; and after
`close` nothing is accepted, and the pops return what is left, in order, and then `false`. -/
theorem conserves_order (capacity : ℕ) (hcap : 0 < capacity) (dropOld : Bool)
    (is : List (QueueOp α)) :
    let fresh : ThreadSafeQueue α := { capacity := capacity, dropOld := dropOld }
    let s := Runs.after step fresh is
    let os := Runs.trace step fresh is
    (os.filterMap popped?).Sublist (os.filterMap accepted?) ∧
      s.q.length ≤ capacity ∧
      (os.filterMap accepted?).length = (os.filterMap popped?).length + s.q.length + s.dropped ∧
      (∀ is₁ i is₂, is = is₁ ++ i :: is₂ →
        Performs (Runs.after step fresh is₁) i (step (Runs.after step fresh is₁) i)) ∧
      (∀ is₁ i is₂, is = is₁ ++ i :: is₂ →
        ∀ v, .dropped v ∈ (step (Runs.after step fresh is₁) i).2 →
        (Runs.after step fresh is₁).q.head? = some v) ∧
      ∀ is₁ is₂, is = is₁ ++ .close :: is₂ →
        let left := (Runs.after step fresh is₁).q
        let os' := Runs.trace step (Runs.after step fresh (is₁ ++ [.close])) is₂
        let pops := is₂.countP QueueOp.isPop
        os'.filterMap accepted? = [] ∧ left = os'.filterMap popped? ++ s.q ∧
          (.empty ∈ os' → s.q = []) ∧
          os'.filterMap returned? =
            (left.take pops).map some ++ List.replicate (pops - left.length) none := by
  intro fresh s os
  have hfresh : Bounded fresh := bounded_create hcap dropOld
  have horder : os.filterMap accepted? = os.filterMap removed? ++ s.q := run_order hfresh is
  obtain ⟨hcount, hremoved⟩ : s.dropped = 0 + (os.filterMap dropped?).length ∧
      (os.filterMap removed?).length =
        (os.filterMap popped?).length + (os.filterMap dropped?).length := run_count hfresh is
  refine ⟨?_, ?_, ?_, ?_, ?_, ?_⟩
  · rw [horder]
    exact (popped_sublist_removed os).trans (List.sublist_append_left _ _)
  · exact le_of_le_of_eq (hfresh.run is).size (run_capacity hfresh is)
  · rw [horder, List.length_append]
    omega
  · rintro is₁ i is₂ -
    exact performs_step (hfresh.run is₁) i
  · rintro is₁ i is₂ - v hv
    apply (turn_step (hfresh.run is₁) i).oldest
    exact List.mem_filterMap.2 ⟨_, hv, rfl⟩
  · rintro is₁ is₂ rfl left os' pops
    have hclose : Runs.after step fresh (is₁ ++ [.close]) = (Runs.after step fresh is₁).close := by
      rw [Runs.after_append]
      rfl
    have hs : s = Runs.after step (Runs.after step fresh is₁).close is₂ := by
      rw [← hclose, ← Runs.after_append, List.append_assoc]
      rfl
    have hos' : os' = Runs.trace step (Runs.after step fresh is₁).close is₂ := by rw [← hclose]
    have hbounded : Bounded (Runs.after step fresh is₁).close := hclose ▸ hfresh.run _
    obtain ⟨haccepted, hleft, hempty⟩ := run_close (hfresh.run is₁) is₂
    rw [← hs, ← hos'] at hleft hempty
    rw [← hos'] at haccepted
    refine ⟨haccepted, hleft, hempty, ?_⟩
    rw [hos']
    exact run_drains hbounded rfl is₂

/-- Three elements in a queue for two, which is then closed: the pops return the two that are left,
and then nothing. -/
theorem conserves_order_two :
    let is : List (QueueOp ℕ) :=
      [.push 1, .push 2, .tryPush 3, .close, .push 4, .pop, .popFor false, .pop]
    let os := Runs.trace step ({ capacity := 2 } : ThreadSafeQueue ℕ) is
    (os.filterMap popped?).Sublist [1, 2, 3] ∧
      os.filterMap returned? = [some 2, some 3, none] := by
  intro is os
  obtain ⟨hsub, -, -, -, -, hclose⟩ := conserves_order 2 (by decide) true is
  obtain ⟨-, -, -, hdrains⟩ :=
    hclose [.push 1, .push 2, .tryPush 3] [.push 4, .pop, .popFor false, .pop] rfl
  exact ⟨hsub, hdrains⟩

/-! ## A queue that blocks -/

/-- What every run of a blocking queue keeps. -/
structure Blocking (s : ThreadSafeQueue α) : Prop extends Bounded s where
  dropOld : s.dropOld = false

theorem dropOld_step (s : ThreadSafeQueue α) (i : QueueOp α) :
    (step s i).1.dropOld = s.dropOld := by
  cases i <;> simp only [step, push, tryPush, pop, popFor, insert, takeFront, close] <;>
    split_ifs <;>
    (try split) <;> rfl

theorem Blocking.step {s : ThreadSafeQueue α} (h : Blocking s) (i : QueueOp α) :
    Blocking (step s i).1 where
  toBounded := (turn_step h.toBounded i).bounded h.toBounded
  dropOld := (dropOld_step s i).trans h.dropOld

/-- `try_push` finds room, or the queue closed. -/
def FindsRoom (s : ThreadSafeQueue α) : QueueOp α → Prop
  | .tryPush _ => s.closed = false → s.q.length < s.capacity
  | _ => True

theorem dropped_insert_iff {s : ThreadSafeQueue α} (h : Bounded s) (v : α) :
    (s.insert v).2.filterMap dropped? = [] ↔ s.q.length < s.capacity := by
  have hpos := h.pos
  unfold insert
  split_ifs with hfull
  · refine iff_of_false ?_ (Nat.not_lt.2 hfull)
    cases hq : s.q with
    | nil =>
      rw [hq, List.length_nil] at hfull
      omega
    | cons w q => exact List.cons_ne_nil _ _
  · exact iff_of_true rfl (Nat.not_le.1 hfull)

/-- **Only `try_push` drops**, and only from a full queue. -/
theorem dropped_step_iff {s : ThreadSafeQueue α} (h : Blocking s) (i : QueueOp α) :
    (step s i).2.filterMap dropped? = [] ↔ FindsRoom s i := by
  cases i with
  | push v =>
    refine iff_of_true ?_ trivial
    simp only [ThreadSafeQueue.step, push]
    split_ifs with hwake hclosed
    · rfl
    · -- The wait of `push` is over because there is room.
      rw [dropped_insert_iff h.toBounded]
      simpa [h.dropOld, hclosed] using hwake
    · rfl
  | tryPush v =>
    simp only [ThreadSafeQueue.step, tryPush, FindsRoom]
    cases hclosed : s.closed with
    | true => simp [dropped?]
    | false => simpa using dropped_insert_iff h.toBounded v
  | pop =>
    refine iff_of_true ?_ trivial
    simp only [ThreadSafeQueue.step, pop, takeFront]
    split_ifs
    · cases s.q <;> rfl
    · rfl
  | popFor expired =>
    refine iff_of_true ?_ trivial
    simp only [ThreadSafeQueue.step, popFor, takeFront]
    split_ifs
    · cases s.q <;> rfl
    · rfl
    · rfl
  | close => exact iff_of_true rfl trivial

theorem dropped_run_iff {s : ThreadSafeQueue α} (h : Blocking s) (is : List (QueueOp α)) :
    (Runs.trace step s is).filterMap dropped? = [] ↔ Runs.Along step FindsRoom s is := by
  induction is generalizing s with
  | nil => exact iff_of_true rfl trivial
  | cons i is ih =>
    rw [Runs.trace_cons, List.filterMap_append, List.append_eq_nil_iff, Runs.along_cons,
      dropped_step_iff h, ih (h.step i)]

/-- **A blocking queue loses nothing if and only if `try_push` never finds it full.** Then what was
accepted has been popped or is still there, and no drop is counted. -/
theorem lossless_iff (capacity : ℕ) (hcap : 0 < capacity) (is : List (QueueOp α)) :
    let fresh : ThreadSafeQueue α := { capacity := capacity, dropOld := false }
    let s := Runs.after step fresh is
    let os := Runs.trace step fresh is
    (os.filterMap accepted?).Perm (os.filterMap popped? ++ s.q) ∧ s.dropped = 0 ↔
      Runs.Along step FindsRoom fresh is := by
  intro fresh s os
  have hfresh : Blocking fresh := ⟨bounded_create hcap false, rfl⟩
  have horder : os.filterMap accepted? = os.filterMap removed? ++ s.q :=
    run_order hfresh.toBounded is
  have hcount : s.dropped = 0 + (os.filterMap dropped?).length :=
    (run_count hfresh.toBounded is).1
  rw [← dropped_run_iff hfresh]
  constructor
  · rintro ⟨-, hzero⟩
    rw [hzero, Nat.zero_add] at hcount
    exact List.length_eq_zero_iff.1 hcount.symm
  · intro hnone
    have hcount' : s.dropped = 0 := by rw [hcount, hnone]; rfl
    exact ⟨by rw [horder, removed_eq_popped hnone], hcount'⟩

/-- A queue for one element that blocks: the second `try_push` drops the first element. -/
theorem try_push_drops :
    ¬ ∀ is : List (QueueOp ℕ),
      let fresh : ThreadSafeQueue ℕ := { capacity := 1, dropOld := false }
      (∀ v, .accepted v ∈ Runs.trace step fresh is →
        .popped v ∈ Runs.trace step fresh is ∨ v ∈ (Runs.after step fresh is).q) ∧
      (Runs.after step fresh is).dropped = 0 := by
  intro hall
  exact absurd (hall [.tryPush 1, .tryPush 2]).2 (by decide)

/-- Two producers and a consumer on a queue for one element. -/
theorem lossless_one :
    let is : List (QueueOp ℕ) := [.tryPush 1, .push 2, .pop, .push 2, .close, .tryPush 3, .pop]
    let fresh : ThreadSafeQueue ℕ := { capacity := 1, dropOld := false }
    ((Runs.trace step fresh is).filterMap accepted?).Perm
        ((Runs.trace step fresh is).filterMap popped? ++ (Runs.after step fresh is).q) ∧
      (Runs.after step fresh is).dropped = 0 :=
  (lossless_iff 1 (by decide) [.tryPush 1, .push 2, .pop, .push 2, .close, .tryPush 3, .pop]).2
    (by simp [Runs.Along, FindsRoom, step, tryPush, push, pop, insert, takeFront, close])

end ThreadSafeQueue

end Rtstream
