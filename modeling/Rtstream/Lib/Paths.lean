import Mathlib.Data.List.Infix

/-!
# Names inside a directory

A name is a list of characters, a separator cuts it into components, and one component means
the directory above. A name is inside a root when it is the root, at least one separator, and a
relative name that never goes up; a longer name that only begins like the root is not.
-/

namespace Paths

variable {α : Type*} [DecidableEq α]

/-- The components of a name. -/
def components (sep : α) (name : List α) : List (List α) := name.splitOn sep

/-- `full` lies in the directory `root`, as the names read. A run of separators counts as one. -/
def Inside (sep : α) (up root full : List α) : Prop :=
  ∃ seps rel, full = root ++ (seps ++ rel) ∧ seps ≠ [] ∧ (∀ c ∈ seps, c = sep) ∧
    rel.head? ≠ some sep ∧ up ∉ components sep rel

omit [DecidableEq α] in
theorem isInfix_intercalate_of_mem {sep c : List α} {cs : List (List α)} (h : c ∈ cs) :
    c <:+: sep.intercalate cs := by
  induction cs with
  | nil => simp at h
  | cons d cs ih =>
    cases cs with
    | nil =>
      obtain rfl : c = d := by simpa using h
      simp
    | cons e cs =>
      rw [List.intercalate_cons_cons]
      rcases List.mem_cons.mp h with rfl | h
      · exact ⟨[], sep ++ sep.intercalate (e :: cs), by simp⟩
      · exact (ih h).trans (List.suffix_append _ _).isInfix

/-- A component occurs in its name. -/
theorem isInfix_of_mem_components {sep : α} {c name : List α} (h : c ∈ components sep name) :
    c <:+: name := by
  have := @isInfix_intercalate_of_mem α [sep] c _ h
  rwa [components, List.intercalate_splitOn] at this

/-- **What follows the root decides.** If the text after the root has no `up` in it, the name is
inside the root exactly when that text begins with a separator. -/
theorem inside_append_iff {sep : α} {up root rest : List α} (h : ¬ up <:+: rest) :
    Inside sep up root (root ++ rest) ↔ rest.head? = some sep := by
  constructor
  · rintro ⟨seps, rel, heq, hne, hsep, -, -⟩
    rw [List.append_cancel_left heq]
    cases seps with
    | nil => exact absurd rfl hne
    | cons s seps => simp [hsep s (by simp)]
  · intro hhead
    refine ⟨rest.takeWhile (· = sep), rest.dropWhile (· = sep), by simp, ?_, ?_, ?_, ?_⟩
    · cases rest with
      | nil => simp at hhead
      | cons s rest =>
        obtain rfl : s = sep := by simpa using hhead
        simp
    · intro c hc
      simpa using List.all_eq_true.mp List.all_takeWhile c hc
    · intro hrel
      have := List.head?_dropWhile_not (· = sep) rest
      simp [hrel] at this
    · intro hup
      exact h ((isInfix_of_mem_components hup).trans (List.dropWhile_suffix _).isInfix)

end Paths
