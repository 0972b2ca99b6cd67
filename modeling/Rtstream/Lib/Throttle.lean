import Rtstream.Lib.Runs
import Std.Data.TreeMap.Lemmas
import Mathlib.Tactic.Common

/-!
# Asking again only after a while

A throttle keeps a table of when each key was asked for. A `check` asks unless the table has a
recent time, and notes the time; a table that gets too large is emptied. Somebody else may ask
without consulting the table (`force`). `asked` is what was asked for so far, with the times.

The law is that two requests for one key lie an interval apart (`Spaced`). It holds of a run if and
only if the table knows at each turn what it has to know (`spaced_run_iff`): a forced request is not
too early, and a check finds a note of every recent request. A run with neither forced requests nor
an emptied table meets that (`remembers_of_keeps`).
-/

/-- The table, and the requests so far. -/
structure Throttle (κ : Type) [Ord κ] where
  table : Std.TreeMap κ Int := ∅
  asked : List (κ × Int) := []

namespace Throttle

open Std (TreeMap)

variable {κ : Type} [Ord κ]

/-- A request at a time. -/
inductive Turn (κ : Type)
  | check (k : κ) (now : Int)
  | force (k : κ) (now : Int)
  deriving DecidableEq, Repr

/-- The table has a time for `k` that is less than an interval ago. -/
def isRecent (interval : Int) (table : TreeMap κ Int) (k : κ) (now : Int) : Bool :=
  table[k]?.any fun t => now - t < interval

/-- Note the time; a table with more than `limit` entries is emptied. -/
def note (limit : ℕ) (table : TreeMap κ Int) (k : κ) (now : Int) : TreeMap κ Int :=
  let table := table.insert k now
  if table.size > limit then ∅ else table

/-- One turn, with the request it makes. -/
def step (interval : Int) (limit : ℕ) (t : Throttle κ) : Turn κ → Throttle κ × List (κ × Int)
  | .check k now =>
    if isRecent interval t.table k now then (t, [])
    else ({ table := note limit t.table k now, asked := t.asked ++ [(k, now)] }, [(k, now)])
  | .force k now => ({ t with asked := t.asked ++ [(k, now)] }, [(k, now)])

variable {interval : Int} {limit : ℕ} {t : Throttle κ}

theorem asked_step (i : Turn κ) :
    (step interval limit t i).1.asked = t.asked ++ (step interval limit t i).2 := by
  cases i with
  | check k now =>
    simp only [step]
    split_ifs
    · simp
    · rfl
  | force k now => rfl

theorem asked_run (is : List (Turn κ)) :
    (Runs.after (step interval limit) t is).asked =
      t.asked ++ Runs.trace (step interval limit) t is := by
  induction is generalizing t with
  | nil => simp
  | cons i is ih => rw [Runs.after_cons, Runs.trace_cons, ih, asked_step, List.append_assoc]

/-! ## What the table knows -/

section Known

variable [Std.TransOrd κ] [Std.LawfulEqOrd κ]

theorem getElem?_note {table : TreeMap κ Int} {k k' : κ} {now u : Int}
    (h : (note limit table k now)[k']? = some u) : k' = k ∧ u = now ∨ table[k']? = some u := by
  simp only [note] at h
  split_ifs at h
  · simp at h
  · rw [TreeMap.getElem?_insert] at h
    split_ifs at h with hk
    · exact Or.inl ⟨(Std.compare_eq_iff_eq.1 hk).symm, (Option.some.inj h).symm⟩
    · exact Or.inr h

/-- Everything noted was asked for. -/
def Noted (t : Throttle κ) : Prop := ∀ k u, t.table[k]? = some u → (k, u) ∈ t.asked

theorem Noted.step (h : t.Noted) (i : Turn κ) : (step interval limit t i).1.Noted := by
  cases i with
  | check k now =>
    simp only [Throttle.step]
    split_ifs
    · exact h
    · intro k' u hu
      rcases getElem?_note hu with ⟨rfl, rfl⟩ | hu
      · exact List.mem_append_right _ (List.mem_singleton_self _)
      · exact List.mem_append_left _ (h k' u hu)
  | force k now => exact fun k' u hu => List.mem_append_left _ (h k' u hu)

end Known

/-- Whatever is checked is asked for, then or earlier. -/
theorem asked_of_check (h : t.Noted) (k : κ) (now : Int) :
    ∃ u, (k, u) ∈ (step interval limit t (.check k now)).1.asked := by
  simp only [step]
  split_ifs with hrecent
  · rw [isRecent, Option.any_eq_true] at hrecent
    obtain ⟨u, hu, -⟩ := hrecent
    exact ⟨u, h k u hu⟩
  · exact ⟨now, List.mem_append_right _ (List.mem_singleton_self _)⟩

/-- **Checked keys are asked for**, in every run. -/
theorem asked_of_checks [Std.TransOrd κ] [Std.LawfulEqOrd κ] (h : t.Noted) {is : List (Turn κ)}
    {k : κ} {now : Int} (hk : .check k now ∈ is) :
    ∃ u, (k, u) ∈ (Runs.after (step interval limit) t is).asked := by
  induction is generalizing t with
  | nil => cases hk
  | cons i is ih =>
    rcases List.mem_cons.1 hk with rfl | hk
    · obtain ⟨u, hu⟩ := @asked_of_check _ _ interval limit t h k now
      refine ⟨u, ?_⟩
      rw [Runs.after_cons, asked_run]
      exact List.mem_append_left _ hu
    · exact ih (h.step i) hk

/-! ## Checks that change nothing -/

section Unchanged

variable [Std.TransOrd κ] {old table : TreeMap κ Int} {now : Int} {n : ℕ}

/-- The table is not the old one, and `n` more turns cannot make it that: it has the time `now` for
a key for which the old one had not, or it is too small. -/
def Differs (old : TreeMap κ Int) (now : Int) (n : ℕ) (table : TreeMap κ Int) : Prop :=
  (∃ k : κ, table[k]? = some now ∧ old[k]? ≠ some now) ∨ table.size + n < old.size

theorem size_note_le (limit : ℕ) (table : TreeMap κ Int) (k : κ) (now : Int) :
    (note limit table k now).size ≤ table.size + 1 := by
  simp only [note]
  split_ifs
  · exact Nat.zero_le _
  · exact TreeMap.size_insert_le

theorem differs_note {k : κ} (h : old[k]? ≠ some now ∨ Differs old now (n + 1) table)
    (hroom : table.size + n < old.size + limit) : Differs old now n (note limit table k now) := by
  have hsize : (table.insert k now).size ≤ table.size + 1 := TreeMap.size_insert_le
  simp only [note]
  split_ifs with hfull
  · have hempty : (∅ : TreeMap κ Int).size = 0 := TreeMap.size_emptyc
    exact Or.inr (by omega)
  · rcases h with hold | ⟨k', hnow, hold⟩ | hsmall
    · exact Or.inl ⟨k, TreeMap.getElem?_insert_self, hold⟩
    · refine Or.inl ⟨k', ?_, hold⟩
      rw [TreeMap.getElem?_insert]
      split_ifs
      · rfl
      · exact hnow
    · exact Or.inr (by omega)

/-- A table that differs goes on differing. -/
theorem Differs.run {ks : List κ} (h : Differs old now ks.length t.table)
    (hroom : t.table.size + ks.length ≤ old.size + limit) :
    Differs old now 0 (Runs.after (step interval limit) t (ks.map (Turn.check · now))).table := by
  induction ks generalizing t with
  | nil => exact h
  | cons k ks ih =>
    rw [List.length_cons] at h hroom
    rw [List.map_cons, Runs.after_cons, step]
    split_ifs
    · have hdiffers : Differs old now ks.length t.table := h.imp_right fun hsmall => by omega
      have hroom : t.table.size + ks.length ≤ old.size + limit := by omega
      exact ih hdiffers hroom
    · have hsize := size_note_le limit t.table k now
      have hdiffers : Differs old now ks.length (note limit t.table k now) :=
        differs_note (Or.inr h) (by omega)
      have hroom : (note limit t.table k now).size + ks.length ≤ old.size + limit := by omega
      exact ih hdiffers hroom

/-- **Checks leave the table alone** if and only if all of them find a recent time. -/
theorem table_checks_iff (hinterval : 0 < interval) {ks : List κ} (hlimit : ks.length ≤ limit)
    (t : Throttle κ) (now : Int) :
    (Runs.after (step interval limit) t (ks.map (Turn.check · now))).table = t.table ↔
      ∀ k ∈ ks, isRecent interval t.table k now = true := by
  induction ks with
  | nil => simp
  | cons k ks ih =>
    rw [List.length_cons] at hlimit
    rw [List.forall_mem_cons, List.map_cons, Runs.after_cons, step]
    split_ifs with hrecent
    · rw [ih (by omega)]
      exact ⟨fun h => ⟨hrecent, h⟩, fun h => h.2⟩
    · refine iff_of_false ?_ fun h => hrecent h.1
      -- The time is noted, or the table emptied, and neither is undone.
      have hold : t.table[k]? ≠ some now := by
        intro hnow
        rw [isRecent, hnow, Option.any_some, Int.sub_self, decide_eq_true_iff] at hrecent
        exact hrecent hinterval
      have hdiffers : Differs t.table now ks.length (note limit t.table k now) :=
        differs_note (Or.inl hold) (by omega)
      have hsize := size_note_le limit t.table k now
      have hroom : (note limit t.table k now).size + ks.length ≤ t.table.size + limit := by omega
      intro heq
      have hend := @Differs.run κ _ interval limit
        { table := note limit t.table k now, asked := t.asked ++ [(k, now)] } _ t.table now ks
        hdiffers hroom
      rw [heq] at hend
      rcases hend with ⟨k', hnow, hne⟩ | hsmall
      · exact hne hnow
      · omega

end Unchanged

/-! ## Requests lie apart -/

/-- Two requests for one key lie an interval apart. -/
def Spaced (interval : Int) (asked : List (κ × Int)) : Prop :=
  asked.Pairwise fun a b => a.1 = b.1 → interval ≤ b.2 - a.2

/-- A forced request is not too early, and a check finds a note of every recent request. -/
def Remembers [DecidableEq κ] (interval : Int) (t : Throttle κ) : Turn κ → Prop
  | .check k now => ∀ a ∈ t.asked, a.1 = k → now - a.2 < interval →
      isRecent interval t.table k now = true
  | .force k now => ∀ a ∈ t.asked, a.1 = k → interval ≤ now - a.2

instance [DecidableEq κ] (interval : Int) (t : Throttle κ) : DecidablePred (Remembers interval t)
  | .check k now => inferInstanceAs (Decidable (∀ a ∈ t.asked, a.1 = k → now - a.2 < interval →
      isRecent interval t.table k now = true))
  | .force k now => inferInstanceAs (Decidable (∀ a ∈ t.asked, a.1 = k → interval ≤ now - a.2))

theorem spaced_snoc_iff (h : Spaced interval t.asked) (k : κ) (now : Int) :
    Spaced interval (t.asked ++ [(k, now)]) ↔ ∀ a ∈ t.asked, a.1 = k → interval ≤ now - a.2 := by
  rw [Spaced, List.pairwise_append]
  constructor
  · rintro ⟨-, -, hlast⟩ a ha
    exact hlast a ha (k, now) (List.mem_singleton_self _)
  · intro hlast
    refine ⟨h, List.pairwise_singleton _ _, ?_⟩
    intro a ha b hb
    obtain rfl := List.mem_singleton.1 hb
    exact hlast a ha

section Law

variable [DecidableEq κ]

theorem spaced_step_iff (h : Spaced interval t.asked) (i : Turn κ) :
    Spaced interval (step interval limit t i).1.asked ↔ Remembers interval t i := by
  cases i with
  | check k now =>
    simp only [step, Remembers]
    split_ifs with hrecent
    · simp [h, hrecent]
    · rw [spaced_snoc_iff h]
      simp only [hrecent, Bool.false_eq_true, imp_false, Int.not_lt]
  | force k now => exact spaced_snoc_iff h k now

/-- **A run** keeps the requests apart if and only if the table knows what it has to know. -/
theorem spaced_run_iff (h : Spaced interval t.asked) (is : List (Turn κ)) :
    Spaced interval (Runs.after (step interval limit) t is).asked ↔
      Runs.Along (step interval limit) (Remembers interval) t is := by
  induction is generalizing t with
  | nil => simpa using h
  | cons i is ih =>
    have hhead := @spaced_step_iff _ _ interval limit t _ h i
    rw [Runs.after_cons, Runs.along_cons, ← hhead]
    constructor
    · intro hrun
      have hstep : Spaced interval (step interval limit t i).1.asked := by
        rw [asked_run] at hrun
        exact (List.pairwise_append.1 hrun).1
      exact ⟨hstep, (ih hstep).1 hrun⟩
    · rintro ⟨hstep, hrest⟩
      exact (ih hstep).2 hrest

end Law

/-- The table has a time for everything asked for, and no later request is missing. -/
def Kept (t : Throttle κ) : Prop := ∀ a ∈ t.asked, ∃ u, t.table[a.1]? = some u ∧ a.2 ≤ u

/-- A check that does not empty the table, at a time that is not before the requests so far. -/
def Keeps (limit : ℕ) (t : Throttle κ) : Turn κ → Prop
  | .check k now => (t.table.insert k now).size ≤ limit ∧ ∀ a ∈ t.asked, a.2 ≤ now
  | .force _ _ => False

theorem Kept.step [Std.TransOrd κ] [Std.LawfulEqOrd κ] (h : t.Kept) {i : Turn κ}
    (hi : Keeps limit t i) : (step interval limit t i).1.Kept := by
  cases i with
  | check k now =>
    obtain ⟨hsize, hnow⟩ := hi
    have hnote : note limit t.table k now = t.table.insert k now := if_neg (by omega)
    simp only [Throttle.step, hnote]
    split_ifs
    · exact h
    · intro a ha
      rw [TreeMap.getElem?_insert]
      split_ifs with hk
      · refine ⟨now, rfl, ?_⟩
        rcases List.mem_append.1 ha with ha | ha
        · exact hnow a ha
        · obtain rfl := List.mem_singleton.1 ha
          exact Int.le_refl _
      · rcases List.mem_append.1 ha with ha | ha
        · exact h a ha
        · rw [List.mem_singleton.1 ha] at hk
          exact absurd Std.ReflCmp.compare_self hk
  | force k now => exact hi.elim

/-- **Checks alone remember**, as long as the table is not emptied. -/
theorem remembers_of_keeps [DecidableEq κ] [Std.TransOrd κ] [Std.LawfulEqOrd κ] (h : t.Kept)
    {is : List (Turn κ)} (his : Runs.Along (step interval limit) (Keeps limit) t is) :
    Runs.Along (step interval limit) (Remembers interval) t is := by
  induction is generalizing t with
  | nil => trivial
  | cons i is ih =>
    refine ⟨?_, ih (h.step his.1) his.2⟩
    cases i with
    | check k now =>
      rintro a ha rfl hrecent
      obtain ⟨u, hu, hle⟩ := h a ha
      rw [isRecent, hu, Option.any_some, decide_eq_true_iff]
      omega
    | force k now => exact his.1.elim

end Throttle
