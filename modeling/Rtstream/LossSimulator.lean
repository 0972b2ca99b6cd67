import Rtstream.MediaTypes
import Rtstream.Lib.Runs
import Mathlib.Data.Rat.Defs
import Mathlib.Data.List.Sort
import Mathlib.Tactic.Common

/-!
# `loss_simulator.h`: the weak-network simulator

`inject` drops a packet, sends it, or puts it into a heap with the time it is due; a worker thread
sends the packets that are due. On an empty heap the worker waits on a condition variable, without
a time limit, for a packet or for the end; `inject` notifies it. `stop` clears `running_` and joins
the worker, and notifies nobody.

The threads take turns. The worker's loop is cut where another thread can come in between: the
mutex is held from the loop's test to where it is released, but `running_` is not protected by it.
A call of `inject` that has put its packet into the heap owes a notification until it makes it.

* `deadlock_free_iff`: no state of a run has the worker wait for good after `stop` if and only if
  `stop` does not find it parked with no notification owed, and it does not park after `stop` with
  none owed.
* `stop_returns`: in every other state after `stop` the worker can finish.
-/

namespace Rtstream

namespace LossSimulator

/-- A packet and the time it is due. -/
structure Pending where
  dueUs : Int
  data : Bytes
  deriving DecidableEq, Repr

/-- Where the worker is in `drain_loop`. -/
inductive Worker
  /-- There is no worker. -/
  | none
  /-- About to test `running_`. -/
  | loopHead
  /-- About to look at the heap. -/
  | looking
  /-- In `cv_.wait`, about to test the predicate. -/
  | testing
  /-- The predicate was false; about to release the mutex and wait. -/
  | parking
  | parked
  /-- Out of the wait, about to take the mutex again. -/
  | woken
  /-- In `cv_.wait_for`. -/
  | timed
  /-- Out of `cv_.wait_for`, about to take the mutex again. -/
  | timedOut
  | sending (data : Bytes)
  /-- Has sent a packet, about to take the mutex again. -/
  | sent
  | exited
  deriving DecidableEq, Repr

/-- The worker holds the mutex. -/
def Worker.holdsMutex : Worker → Bool
  | .loopHead | .looking | .testing | .parking => true
  | _ => false

inductive Effect
  /-- `Metrics::sim_dropped++`. -/
  | simDropped
  | sent (data : Bytes)
  deriving DecidableEq, Repr

/-- A turn of a thread. -/
inductive Turn
  /-- `inject`, up to where it notifies. `uni` and `draw` are what the random numbers come to, and
  `now` what the clock reads. -/
  | inject (uni : ℚ) (draw : UInt32) (data : Bytes) (now : Int)
  /-- A call of `inject` notifies. -/
  | notify
  /-- `stop`, up to where it joins the worker. -/
  | stop
  /-- The worker goes on; `now` is what the clock reads if it does read it. -/
  | worker (now : Int)
  /-- The time of `wait_for` is over. -/
  | timeout
  /-- A wait ends for no reason. -/
  | spurious
  deriving DecidableEq, Repr

end LossSimulator

structure LossSimulator where
  loss : ℚ
  delay : UInt32
  jitter : UInt32
  /-- `set_sender` was called. -/
  sender : Bool := true
  running : Bool := false
  /-- `pending_`, the packet that is due first in front. -/
  pending : List LossSimulator.Pending := []
  worker : LossSimulator.Worker := .none
  /-- How many calls of `inject` have yet to notify. -/
  owed : ℕ := 0
  deriving DecidableEq, Repr

namespace LossSimulator

/-- `start`: without a delay there is no worker. -/
def start (s : LossSimulator) : LossSimulator :=
  if s.delay = 0 ∧ s.jitter = 0 then s else { s with running := true, worker := .loopHead }

def send (s : LossSimulator) (data : Bytes) : List Effect := if s.sender then [.sent data] else []

/-- `inject`, up to where it notifies. A packet that is delayed waits for the mutex. -/
def inject (s : LossSimulator) (uni : ℚ) (draw : UInt32) (data : Bytes) (now : Int) :
    LossSimulator × List Effect :=
  if s.loss > 0 ∧ uni < s.loss then (s, [.simDropped])
  else
    let d := s.delay + min draw s.jitter
    if d = 0 then (s, s.send data)
    else if s.worker.holdsMutex then (s, [])
    else
      let packet : Pending := { dueUs := now + d.toNat * 1000, data := data }
      ({ s with
        pending := s.pending.orderedInsert (fun a b => a.dueUs ≤ b.dueUs) packet
        owed := s.owed + 1 }, [])

/-- What a notification does to the worker. -/
def wake : Worker → Worker
  | .parked => .woken
  | .timed => .timedOut
  | w => w

/-- The worker goes on by one step. -/
def drain (s : LossSimulator) (now : Int) : LossSimulator × List Effect :=
  match s.worker with
  | .loopHead => ({ s with worker := if s.running then .looking else .exited }, [])
  | .looking =>
    match s.pending with
    | [] => ({ s with worker := .testing }, [])
    | packet :: rest =>
      if packet.dueUs > now then ({ s with worker := .timed }, [])
      else ({ s with pending := rest, worker := .sending packet.data }, [])
  | .testing =>
    ({ s with worker := if !s.running || !s.pending.isEmpty then .loopHead else .parking }, [])
  | .parking => ({ s with worker := .parked }, [])
  | .woken => ({ s with worker := .testing }, [])
  | .timedOut => ({ s with worker := .loopHead }, [])
  | .sending data => ({ s with worker := .sent }, s.send data)
  | .sent => ({ s with worker := .loopHead }, [])
  | .none | .parked | .timed | .exited => (s, [])

/-- The simulator as a machine that is fed the threads' turns. -/
def step (s : LossSimulator) : Turn → LossSimulator × List Effect
  | .inject uni draw data now => s.inject uni draw data now
  | .notify =>
    if s.owed = 0 then (s, []) else ({ s with owed := s.owed - 1, worker := wake s.worker }, [])
  | .stop => ({ s with running := false }, [])
  | .worker now => s.drain now
  | .timeout => ({ s with worker := if s.worker = .timed then .timedOut else s.worker }, [])
  | .spurious => ({ s with worker := wake s.worker }, [])

/-! ## Waiting for good -/

/-- `stop` has cleared `running_`, the worker waits without a time limit, and nobody is going to
notify it. -/
def Deadlocked (s : LossSimulator) : Prop := s.running = false ∧ s.worker = .parked ∧ s.owed = 0

instance (s : LossSimulator) : Decidable s.Deadlocked := inferInstanceAs (Decidable (_ ∧ _))

/-- `stop` does not come while the worker is parked with no notification owed, and the worker does
not park after `stop` with none owed. -/
def Safe (s : LossSimulator) : Turn → Prop
  | .stop => ¬ (s.worker = .parked ∧ s.owed = 0)
  | .worker _ => ¬ (s.worker = .parking ∧ s.running = false ∧ s.owed = 0)
  | _ => True

instance (s : LossSimulator) : DecidablePred s.Safe
  | .stop => inferInstanceAs (Decidable (¬ _))
  | .worker _ => inferInstanceAs (Decidable (¬ _))
  | .inject _ _ _ _ | .notify | .timeout | .spurious => inferInstanceAs (Decidable True)

variable {s : LossSimulator}

theorem wake_ne_parked (w : Worker) : wake w ≠ .parked := by cases w <;> simp [wake]

theorem not_deadlocked_inject (h : ¬ s.Deadlocked) (uni : ℚ) (draw : UInt32) (data : Bytes)
    (now : Int) : ¬ (s.inject uni draw data now).1.Deadlocked := by
  simp only [inject]
  split_ifs
  · exact h
  · exact h
  · exact h
  · rintro ⟨-, -, howed⟩
    exact absurd howed (Nat.succ_ne_zero s.owed)

/-- The worker parks only where it has found the predicate false. -/
theorem worker_drain (now : Int) (h : (s.drain now).1.worker = .parked) :
    s.worker = .parked ∨ s.worker = .parking := by
  cases hw : s.worker with
  | parked => exact Or.inl rfl
  | parking => exact Or.inr rfl
  | looking =>
    simp only [drain, hw] at h
    split at h
    · cases h
    · split_ifs at h
  | loopHead | testing =>
    simp only [drain, hw] at h
    split_ifs at h
  | _ =>
    simp only [drain, hw] at h
    cases h

theorem drain_others (now : Int) :
    (s.drain now).1.running = s.running ∧ (s.drain now).1.owed = s.owed := by
  unfold drain
  split
  case h_2 => split <;> first | exact ⟨rfl, rfl⟩ | (split_ifs <;> exact ⟨rfl, rfl⟩)
  all_goals exact ⟨rfl, rfl⟩

theorem not_deadlocked_drain (h : ¬ s.Deadlocked) (now : Int) :
    ¬ (s.drain now).1.Deadlocked ↔ s.Safe (.worker now) := by
  obtain ⟨hrunning, howed⟩ := @drain_others s now
  apply not_congr
  rw [Deadlocked, hrunning, howed]
  constructor
  · rintro ⟨hstop, hparked, hnone⟩
    rcases worker_drain now hparked with hw | hw
    · exact absurd ⟨hstop, hw, hnone⟩ h
    · exact ⟨hw, hstop, hnone⟩
  · rintro ⟨hw, hstop, hnone⟩
    refine ⟨hstop, ?_, hnone⟩
    simp only [drain, hw]

/-- **One turn** leads to no deadlock if and only if it is safe. -/
theorem not_deadlocked_step (h : ¬ s.Deadlocked) (t : Turn) :
    ¬ (step s t).1.Deadlocked ↔ s.Safe t := by
  cases t with
  | inject uni draw data now =>
      exact iff_of_true (not_deadlocked_inject h uni draw data now) trivial
  | notify =>
    refine iff_of_true ?_ trivial
    simp only [step]
    split_ifs
    · exact h
    · exact fun hd => wake_ne_parked s.worker hd.2.1
  | stop => exact not_congr ⟨fun hd => hd.2, fun hd => ⟨rfl, hd⟩⟩
  | worker now => exact not_deadlocked_drain h now
  | timeout =>
    refine iff_of_true ?_ trivial
    simp only [step]
    split_ifs
    · exact fun hd => by cases hd.2.1
    · exact h
  | spurious => exact iff_of_true (fun hd => wake_ne_parked s.worker hd.2.1) trivial

/-- **No state of a run is a deadlock** if and only if every turn is safe. -/
theorem deadlock_free_iff (loss : ℚ) (delay jitter : UInt32) (sender : Bool) (ts : List Turn) :
    let fresh : LossSimulator :=
      start { loss := loss, delay := delay, jitter := jitter, sender := sender }
    (∀ n ≤ ts.length, ¬ (Runs.before step fresh ts n).Deadlocked) ↔
      Runs.Along step Safe fresh ts := by
  intro fresh
  have hfresh : ¬ fresh.Deadlocked := by
    simp only [fresh, start]
    split_ifs <;> exact fun hd => by cases hd.2.1
  exact Runs.forall_before_iff (G := fun s : LossSimulator => ¬ s.Deadlocked)
    (fun _ t h => not_deadlocked_step h t) hfresh ts

/-- A simulator whose worker finds the heap empty, and whose `stop` comes then. -/
def quietStop : List Turn := [.worker 0, .worker 0, .worker 0, .worker 0, .stop]

/-- The worker waits for good. -/
theorem stop_deadlocks :
    (Runs.after step (start { loss := 0, delay := 20, jitter := 0 }) quietStop).Deadlocked := by
  decide

/-! ## The worker can finish -/

/-- Turns that need no further call. -/
def Turn.isOwn : Turn → Bool
  | .notify | .worker _ | .timeout => true
  | _ => false

/-- Some turns of that kind bring the worker to its end, so that `stop` can join it. -/
def CanFinish (s : LossSimulator) : Prop :=
  ∃ ts : List Turn, (∀ t ∈ ts, t.isOwn = true) ∧ (Runs.after step s ts).worker = .exited

theorem canFinish_of_step {t : Turn} (ht : t.isOwn = true) (h : (step s t).1.CanFinish) :
    s.CanFinish := by
  obtain ⟨ts, hts, hend⟩ := h
  refine ⟨t :: ts, ?_, hend⟩
  intro t' ht'
  rcases List.mem_cons.1 ht' with rfl | ht'
  · exact ht
  · exact hts t' ht'

section Finish

variable (hs : s.running = false)
include hs

theorem canFinish_of_loopHead (hw : s.worker = .loopHead) : s.CanFinish := by
  refine ⟨[.worker 0], by simp [Turn.isOwn], ?_⟩
  simp [step, drain, hw, hs]

theorem canFinish_of_testing (hw : s.worker = .testing) : s.CanFinish := by
  apply canFinish_of_step (t := .worker 0) rfl
  apply canFinish_of_loopHead <;> simp [step, drain, hw, hs]

theorem canFinish_of_woken (hw : s.worker = .woken) : s.CanFinish := by
  apply canFinish_of_step (t := .worker 0) rfl
  apply canFinish_of_testing <;> simp [step, drain, hw, hs]

theorem canFinish_of_parked (hw : s.worker = .parked) (howed : s.owed ≠ 0) : s.CanFinish := by
  apply canFinish_of_step (t := .notify) rfl
  apply canFinish_of_woken <;> simp [step, wake, hw, hs, howed]

theorem canFinish_of_timedOut (hw : s.worker = .timedOut) : s.CanFinish := by
  apply canFinish_of_step (t := .worker 0) rfl
  apply canFinish_of_loopHead <;> simp [step, drain, hw, hs]

theorem canFinish_of_sent (hw : s.worker = .sent) : s.CanFinish := by
  apply canFinish_of_step (t := .worker 0) rfl
  apply canFinish_of_loopHead <;> simp [step, drain, hw, hs]

theorem canFinish_of_sending {data : Bytes} (hw : s.worker = .sending data) : s.CanFinish := by
  apply canFinish_of_step (t := .worker 0) rfl
  apply canFinish_of_sent <;> simp [step, drain, hw, hs]

theorem canFinish_of_looking (hw : s.worker = .looking) : s.CanFinish := by
  cases hp : s.pending with
  | nil =>
    apply canFinish_of_step (t := .worker 0) rfl
    apply canFinish_of_testing <;> simp [step, drain, hw, hp, hs]
  | cons packet rest =>
    apply canFinish_of_step (t := .worker packet.dueUs) rfl
    apply @canFinish_of_sending _ _ packet.data <;> simp [step, drain, hw, hp, hs]

/-- **`stop` returns**: the worker can finish, unless it is parked or about to park with no
notification owed. -/
theorem stop_returns (hstarted : s.worker ≠ .none)
    (howed : s.worker = .parked ∨ s.worker = .parking → s.owed ≠ 0) : s.CanFinish := by
  cases hw : s.worker with
  | none => exact absurd hw hstarted
  | loopHead => exact canFinish_of_loopHead hs hw
  | looking => exact canFinish_of_looking hs hw
  | testing => exact canFinish_of_testing hs hw
  | parking =>
    apply canFinish_of_step (t := .worker 0) rfl
    apply canFinish_of_parked <;> simp [step, drain, hw, hs, howed (Or.inr hw)]
  | parked => exact canFinish_of_parked hs hw (howed (Or.inl hw))
  | woken => exact canFinish_of_woken hs hw
  | timed =>
    apply canFinish_of_step (t := .timeout) rfl
    apply canFinish_of_timedOut <;> simp [step, hw, hs]
  | timedOut => exact canFinish_of_timedOut hs hw
  | sending data => exact canFinish_of_sending hs hw
  | sent => exact canFinish_of_sent hs hw
  | exited => exact ⟨[], by simp, hw⟩

end Finish

end LossSimulator

end Rtstream
