import Mathlib.Data.List.Basic

/-!
# Runs of a step function

A machine reads one input at a time: each input takes its state to the next one and leaves a
list of effects behind. A run is the machine fed a list of inputs. Facts about runs come from
facts about one step in six ways:

* `Along.invariant`: what a step preserves holds after the run;
* `Along.history`: the same for a property of the state *and* of the effects so far;
* `Along.countdown`: what some steps take one off, and none adds to, comes to its end;
* `Along.forall_trace`: what every step's effects satisfy, the run's effects satisfy;
* `conserved`: what goes in comes out in the same order, or is still there;
* `conserved_sublist`: the same where some of it may be lost.

Each of the first four takes a condition `P` that the steps of the run are assumed to meet
(`Along`). And when one machine follows another step by step, so do their runs (`Follows.run`); when
one feeds another, a run of both is a run of each (`pipe_run`).
-/

namespace Runs

variable {σ ι ο : Type*}

/-- One input takes a state to the next state, with the effects it has meanwhile. -/
abbrev Machine (σ ι ο : Type*) := σ → ι → σ × List ο

/-- The state after a list of inputs. -/
def after (m : Machine σ ι ο) (s : σ) : List ι → σ
  | [] => s
  | i :: is => after m (m s i).1 is

/-- The effects of a list of inputs, in order. -/
def trace (m : Machine σ ι ο) (s : σ) : List ι → List ο
  | [] => []
  | i :: is => (m s i).2 ++ trace m (m s i).1 is

/-- Every step of the run meets `P` in the state it starts from. -/
def Along (m : Machine σ ι ο) (P : σ → ι → Prop) (s : σ) : List ι → Prop
  | [] => True
  | i :: is => P s i ∧ Along m P (m s i).1 is

variable {m : Machine σ ι ο}

@[simp] theorem after_nil (s : σ) : after m s [] = s := rfl
@[simp] theorem after_cons (s : σ) (i : ι) (is : List ι) :
    after m s (i :: is) = after m (m s i).1 is := rfl
@[simp] theorem trace_nil (s : σ) : trace m s [] = [] := rfl
@[simp] theorem trace_cons (s : σ) (i : ι) (is : List ι) :
    trace m s (i :: is) = (m s i).2 ++ trace m (m s i).1 is := rfl

theorem after_append (s : σ) (is js : List ι) :
    after m s (is ++ js) = after m (after m s is) js := by
  induction is generalizing s with
  | nil => rfl
  | cons i is ih => exact ih _

theorem trace_append (s : σ) (is js : List ι) :
    trace m s (is ++ js) = trace m s is ++ trace m (after m s is) js := by
  induction is generalizing s with
  | nil => rfl
  | cons i is ih => simp only [List.cons_append, trace_cons, after_cons, ih, List.append_assoc]

theorem exists_of_mem_trace {s : σ} {is : List ι} {o : ο} (h : o ∈ trace m s is) :
    ∃ is₁ i is₂, is = is₁ ++ i :: is₂ ∧ o ∈ (m (after m s is₁) i).2 := by
  induction is generalizing s with
  | nil => cases h
  | cons i is ih =>
    rcases List.mem_append.1 h with h | h
    · exact ⟨[], i, is, rfl, h⟩
    · obtain ⟨is₁, j, is₂, rfl, hj⟩ := ih h
      exact ⟨i :: is₁, j, is₂, rfl, hj⟩

/-! ## Conditions along a run -/

@[simp] theorem along_nil {P : σ → ι → Prop} (s : σ) : Along m P s [] ↔ True := Iff.rfl
@[simp] theorem along_cons {P : σ → ι → Prop} (s : σ) (i : ι) (is : List ι) :
    Along m P s (i :: is) ↔ P s i ∧ Along m P (m s i).1 is := Iff.rfl

theorem along_append {P : σ → ι → Prop} (s : σ) (is js : List ι) :
    Along m P s (is ++ js) ↔ Along m P s is ∧ Along m P (after m s is) js := by
  induction is generalizing s with
  | nil => simp
  | cons i is ih => simp only [List.cons_append, along_cons, after_cons, ih, and_assoc]

theorem along_congr {I : σ → Prop} {P Q : σ → ι → Prop} (hI : ∀ s i, I s → I (m s i).1)
    (h : ∀ s i, I s → (P s i ↔ Q s i)) {s : σ} (hs : I s) (is : List ι) :
    Along m P s is ↔ Along m Q s is := by
  induction is generalizing s with
  | nil => exact Iff.rfl
  | cons i is ih => exact and_congr (h s i hs) (ih (hI s i hs))

theorem along_and {P Q : σ → ι → Prop} (s : σ) (is : List ι) :
    Along m (fun s i => P s i ∧ Q s i) s is ↔ Along m P s is ∧ Along m Q s is := by
  induction is generalizing s with
  | nil => simp
  | cons i is ih => simp only [along_cons, ih, and_and_and_comm]

theorem along_of_forall {P : σ → ι → Prop} (s : σ) {is : List ι}
    (h : ∀ i ∈ is, ∀ s, P s i) : Along m P s is := by
  induction is generalizing s with
  | nil => trivial
  | cons i is ih =>
    exact ⟨h i List.mem_cons_self s, ih _ fun j hj => h j (List.mem_cons_of_mem i hj)⟩

instance (P : σ → ι → Prop) [∀ s i, Decidable (P s i)] (s : σ) (is : List ι) :
    Decidable (Along m P s is) :=
  match is with
  | [] => inferInstanceAs (Decidable True)
  | i :: is =>
    have := instDecidableAlong P (m s i).1 is
    inferInstanceAs (Decidable (P s i ∧ Along m P (m s i).1 is))

/-! ## From one step to a run -/

/-- What every step preserves holds after the run. -/
theorem Along.invariant {P : σ → ι → Prop} {I : σ → Prop}
    (hstep : ∀ s i, I s → P s i → I (m s i).1) {s : σ} {is : List ι}
    (h : Along m P s is) (hs : I s) : I (after m s is) := by
  induction is generalizing s with
  | nil => exact hs
  | cons i is ih => exact ih h.2 (hstep s i hs h.1)

theorem invariant {I : σ → Prop} (hstep : ∀ s i, I s → I (m s i).1) {s : σ} (hs : I s)
    (is : List ι) : I (after m s is) :=
  (along_of_forall (P := fun _ _ => True) s fun _ _ _ => trivial).invariant
    (fun s i hI _ => hstep s i hI) hs

/-- What every step preserves of the state and of the effects so far. -/
theorem Along.history {P : σ → ι → Prop} {I : σ → List ο → Prop}
    (hstep : ∀ s os i, I s os → P s i → I (m s i).1 (os ++ (m s i).2)) {s : σ} {os : List ο}
    {is : List ι} (h : Along m P s is) (hs : I s os) :
    I (after m s is) (os ++ trace m s is) := by
  induction is generalizing s os with
  | nil => simpa using hs
  | cons i is ih =>
    have := ih h.2 (hstep s os i hs h.1)
    rwa [List.append_assoc] at this

theorem history {I : σ → List ο → Prop}
    (hstep : ∀ s os i, I s os → I (m s i).1 (os ++ (m s i).2)) {s : σ} {os : List ο} (hs : I s os)
    (is : List ι) : I (after m s is) (os ++ trace m s is) :=
  (along_of_forall (P := fun _ _ => True) s fun _ _ _ => trivial).history
    (fun s os i hI _ => hstep s os i hI) hs

/-- What every step's effects satisfy, under an invariant, the run's effects satisfy. -/
theorem Along.forall_trace {P : σ → ι → Prop} {I : σ → Prop} {Q : ο → Prop}
    (hstep : ∀ s i, I s → P s i → I (m s i).1 ∧ ∀ o ∈ (m s i).2, Q o) {s : σ} {is : List ι}
    (h : Along m P s is) (hs : I s) : ∀ o ∈ trace m s is, Q o := by
  induction is generalizing s with
  | nil => simp
  | cons i is ih =>
    obtain ⟨hI, hQ⟩ := hstep s i hs h.1
    intro o ho
    rcases List.mem_append.1 ho with ho | ho
    · exact hQ o ho
    · exact ih h.2 hI o ho

/-- **First in, first out.** When every step takes what leaves from the front of the contents and
puts what enters at the back, so does the run. -/
theorem conserved {α : Type*} {I : σ → Prop} (contents : σ → List α) (ins outs : ο → Option α)
    (hstep : ∀ s i, I s → I (m s i).1 ∧
      contents s ++ (m s i).2.filterMap ins = (m s i).2.filterMap outs ++ contents (m s i).1)
    {s : σ} (hs : I s) (is : List ι) :
    contents s ++ (trace m s is).filterMap ins =
      (trace m s is).filterMap outs ++ contents (after m s is) := by
  induction is generalizing s with
  | nil => simp
  | cons i is ih =>
    obtain ⟨hI, hlaw⟩ := hstep s i hs
    rw [trace_cons, after_cons, List.filterMap_append, List.filterMap_append, ← List.append_assoc,
      hlaw, List.append_assoc, ih hI, List.append_assoc]

/-- **First in, first out, with losses.** When every step keeps the contents in order, and may lose
some of them, so does the run. -/
theorem conserved_sublist {α : Type*} (contents : σ → List α) (ins outs : ο → Option α)
    (hstep : ∀ s i, ((m s i).2.filterMap outs ++ contents (m s i).1).Sublist
      (contents s ++ (m s i).2.filterMap ins)) (s : σ) (is : List ι) :
    ((trace m s is).filterMap outs ++ contents (after m s is)).Sublist
      (contents s ++ (trace m s is).filterMap ins) := by
  induction is generalizing s with
  | nil => simp
  | cons i is ih =>
    have hfirst := (hstep s i).append (List.Sublist.refl ((trace m (m s i).1 is).filterMap ins))
    have hrest := (List.Sublist.refl ((m s i).2.filterMap outs)).append (ih (m s i).1)
    rw [List.append_assoc] at hfirst
    rw [trace_cons, after_cons, List.filterMap_append, List.filterMap_append, List.append_assoc]
    exact hrest.trans (by rwa [List.append_assoc] at hfirst)

theorem exists_step_cons_iff {P : List ι → ι → Prop} {i : ι} {is : List ι} :
    (∃ is₁ j is₂, i :: is = is₁ ++ j :: is₂ ∧ P is₁ j) ↔
      P [] i ∨ ∃ is₁ j is₂, is = is₁ ++ j :: is₂ ∧ P (i :: is₁) j := by
  constructor
  · rintro ⟨is₁, j, is₂, heq, hP⟩
    rcases List.cons_eq_append_iff.1 heq with ⟨rfl, htail⟩ | ⟨is₁, rfl, rfl⟩
    · obtain ⟨rfl, -⟩ := List.cons_eq_cons.1 htail
      exact .inl hP
    · exact .inr ⟨is₁, j, is₂, rfl, hP⟩
  · rintro (hP | ⟨is₁, j, is₂, rfl, hP⟩)
    · exact ⟨[], i, is, rfl, hP⟩
    · exact ⟨i :: is₁, j, is₂, rfl, hP⟩

/-! ## Step by step -/

/-- The state before step `n`, counted from zero. -/
def before (m : Machine σ ι ο) (s : σ) (is : List ι) (n : ℕ) : σ := after m s (is.take n)

@[simp] theorem before_zero (s : σ) (is : List ι) : before m s is 0 = s := rfl

theorem before_succ {s : σ} {is : List ι} {n : ℕ} {i : ι} (h : is[n]? = some i) :
    before m s is (n + 1) = (m (before m s is n) i).1 := by
  rw [before, List.take_add_one, h, after_append]
  rfl

/-- **A property that a step keeps if and only if it meets `P`** holds all along a run if and only
if every step meets `P`. -/
theorem forall_before_iff {G : σ → Prop} {P : σ → ι → Prop}
    (hstep : ∀ s i, G s → (G (m s i).1 ↔ P s i)) {s : σ} (hs : G s) (is : List ι) :
    (∀ n ≤ is.length, G (before m s is n)) ↔ Along m P s is := by
  induction is generalizing s with
  | nil =>
    simp only [List.length_nil, Nat.le_zero, along_nil, iff_true]
    rintro n rfl
    exact hs
  | cons i is ih =>
    rw [along_cons, ← hstep s i hs]
    constructor
    · intro h
      have hnext : G (m s i).1 := h 1 (by simp)
      exact ⟨hnext, (ih hnext).1 fun n hn => h (n + 1) (Nat.succ_le_succ hn)⟩
    · rintro ⟨hnext, hrest⟩ n hn
      cases n with
      | zero => exact hs
      | succ n => exact (ih hnext).2 hrest n (Nat.le_of_succ_le_succ hn)

/-- What `f` counts in the steps of a run. -/
def total (m : Machine σ ι ο) (f : σ → ι → ℕ) (s : σ) : List ι → ℕ
  | [] => 0
  | i :: is => f s i + total m f (m s i).1 is

theorem total_add (f g : σ → ι → ℕ) (s : σ) (is : List ι) :
    total m (fun s i => f s i + g s i) s is = total m f s is + total m g s is := by
  induction is generalizing s with
  | nil => rfl
  | cons i is ih =>
    simp only [total, ih]
    omega

/-- When every step adds what comes in to the size and takes off what goes out, so does the run. -/
theorem total_balance {I : σ → Prop} (size : σ → ℕ) (ins outs : σ → ι → ℕ)
    (hstep : ∀ s i, I s → I (m s i).1 ∧ size s + ins s i = outs s i + size (m s i).1)
    {s : σ} (hs : I s) (is : List ι) :
    size s + total m ins s is = total m outs s is + size (after m s is) := by
  induction is generalizing s with
  | nil => simp [total]
  | cons i is ih =>
    obtain ⟨hI, hsize⟩ := hstep s i hs
    have hrest := ih hI
    simp only [total, after_cons]
    omega

/-! ## What is noted along a run -/

/-- What `f` notes about the steps of a run, in order. -/
def collect {α : Type*} (m : Machine σ ι ο) (f : σ → ι → List α) (s : σ) : List ι → List α
  | [] => []
  | i :: is => f s i ++ collect m f (m s i).1 is

/-- When every step's effects are picked and mapped to the same as its notes, so are the run's. -/
theorem trace_filterMap_eq {α β : Type*} {I : σ → Prop} {f : σ → ι → List α} {g : ο → Option β}
    {e : α → β} (hstep : ∀ s i, I s → I (m s i).1 ∧ (m s i).2.filterMap g = (f s i).map e) {s : σ}
    (hs : I s) (is : List ι) : (trace m s is).filterMap g = (collect m f s is).map e := by
  induction is generalizing s with
  | nil => rfl
  | cons i is ih =>
    obtain ⟨hI, heq⟩ := hstep s i hs
    rw [trace_cons, List.filterMap_append, heq, ih hI]
    exact List.map_append.symm

/-- What every step preserves of the state and of the notes so far. -/
theorem collect_history {α : Type*} {I : σ → List α → Prop} {f : σ → ι → List α}
    (hstep : ∀ s xs i, I s xs → I (m s i).1 (xs ++ f s i)) {s : σ} {xs : List α} (hs : I s xs)
    (is : List ι) : I (after m s is) (xs ++ collect m f s is) := by
  induction is generalizing s xs with
  | nil => simpa [collect] using hs
  | cons i is ih =>
    have hrest := ih (hstep s xs i hs)
    rwa [List.append_assoc] at hrest

/-- A condition on the steps that is one on what is noted. -/
theorem forall_collect_iff {α : Type*} {f : σ → ι → List α} {P : σ → ι → Prop} {Q : α → Prop}
    (hstep : ∀ s i, (∀ x ∈ f s i, Q x) ↔ P s i) (s : σ) (is : List ι) :
    (∀ x ∈ collect m f s is, Q x) ↔ Along m P s is := by
  induction is generalizing s with
  | nil => simp [collect]
  | cons i is ih => rw [along_cons, collect, List.forall_mem_append, hstep, ih]

/-! ## From one machine to another -/

/-- `m'` follows `m`: related states stay related when `m` reads `i` and `m'` reads `f i`, and `g`
picks the effects of `m'` out of those of `m`. -/
def Follows {τ κ ρ : Type*} (m : Machine σ ι ο) (m' : Machine τ κ ρ) (R : σ → τ → Prop) (f : ι → κ)
    (g : ο → Option ρ) : Prop :=
  ∀ s t i, R s t → R (m s i).1 (m' t (f i)).1 ∧ (m s i).2.filterMap g = (m' t (f i)).2

section Follow

variable {τ κ ρ : Type*} {m' : Machine τ κ ρ} {R : σ → τ → Prop} {f : ι → κ} {g : ο → Option ρ}
  {s : σ} {t : τ} (h : Follows m m' R f g) (hs : R s t)
include h hs

theorem Follows.run (is : List ι) :
    R (after m s is) (after m' t (is.map f)) ∧
      (trace m s is).filterMap g = trace m' t (is.map f) := by
  induction is generalizing s t with
  | nil => exact ⟨hs, rfl⟩
  | cons i is ih =>
    obtain ⟨hstep, htrace⟩ := h s t i hs
    obtain ⟨hrun, htrace'⟩ := ih hstep
    refine ⟨hrun, ?_⟩
    rw [trace_cons, List.filterMap_append, htrace, htrace']
    rfl

/-- A condition on the steps that the relation carries over. -/
theorem Follows.along_iff {P : σ → ι → Prop} {Q : τ → κ → Prop}
    (hP : ∀ s t i, R s t → (P s i ↔ Q t (f i))) (is : List ι) :
    Along m P s is ↔ Along m' Q t (is.map f) := by
  induction is generalizing s t with
  | nil => exact Iff.rfl
  | cons i is ih => exact and_congr (hP s t i hs) (ih (h s t i hs).1)

end Follow

/-! ## One machine behind another -/

/-- The effects of `m` are the inputs of `m'`. -/
def pipe {τ ρ : Type*} (m : Machine σ ι ο) (m' : Machine τ ο ρ) : Machine (σ × τ) ι ρ := fun s i =>
  (((m s.1 i).1, after m' s.2 (m s.1 i).2), trace m' s.2 (m s.1 i).2)

/-- **A run of the two** is a run of `m`, and a run of `m'` on its effects. -/
theorem pipe_run {τ ρ : Type*} (m : Machine σ ι ο) (m' : Machine τ ο ρ) (s : σ × τ) (is : List ι) :
    after (pipe m m') s is = (after m s.1 is, after m' s.2 (trace m s.1 is)) ∧
      trace (pipe m m') s is = trace m' s.2 (trace m s.1 is) := by
  induction is generalizing s with
  | nil => exact ⟨rfl, rfl⟩
  | cons i is ih =>
    obtain ⟨hafter, htrace⟩ := ih (pipe m m' s i).1
    rw [after_cons, trace_cons, trace_cons, hafter, htrace, after_append, trace_append]
    exact ⟨rfl, rfl⟩

end Runs
