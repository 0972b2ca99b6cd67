import Rtstream.Lib.Framing

/-!
# Writing to a socket until it fails

Threads write items to a stream socket. A write takes everything, or a part and then fails; whoever
sees the failure closes the socket, and nothing is written after that. Before the first item there
may be a preamble.

So at any time the stream is the preamble, some whole items, and a part of one more behind which
nothing follows (`Socket.Holds`). A reader that can read back each item reads those items off it
(`Socket.Holds.read`), and off a first part of it the first ones (`Socket.Holds.read_of_arrived`).
-/

/-- A socket, and what was written to it. -/
structure Socket (α : Type*) where
  fdOpen : Bool := true
  stream : List α := []
  deriving DecidableEq, Repr

namespace Socket

variable {α ι κ : Type*}

/-- Everything is written, or a part and then `false` is returned. -/
def sendAll (s : Socket α) (bytes : List α) (cut : Option ℕ) : Socket α × Bool :=
  if s.fdOpen then
    match cut with
    | none => ({ s with stream := s.stream ++ bytes }, true)
    | some n => ({ s with stream := s.stream ++ bytes.take (min n (bytes.length - 1)) }, false)
  else (s, false)

def close (s : Socket α) : Socket α := { s with fdOpen := false }

/-- Write, and close the socket when that fails. -/
def send (s : Socket α) (bytes : List α) (cut : Option ℕ) : Socket α × Bool :=
  let r := s.sendAll bytes cut
  ({ r.1 with fdOpen := r.1.fdOpen && r.2 }, r.2)

variable {s : Socket α} {bytes : List α} {cut : Option ℕ}

theorem send_snd (s : Socket α) (bytes : List α) (cut : Option ℕ) :
    (s.send bytes cut).2 = (s.fdOpen && cut.isNone) := by
  unfold send sendAll
  cases s.fdOpen <;> cases cut <;> rfl

@[simp] theorem send_fdOpen (s : Socket α) (bytes : List α) (cut : Option ℕ) :
    (s.send bytes cut).1.fdOpen = (s.fdOpen && cut.isNone) := by
  unfold send sendAll
  cases hfd : s.fdOpen <;> cases cut <;> simp [hfd]

theorem fdOpen_of_closeIf {p : Prop} [Decidable p]
    (h : (if p then s.close else s).fdOpen = true) : s.fdOpen = true := by
  split_ifs at h
  · cases h
  · exact h

theorem send_of_closed (h : s.fdOpen = false) (bytes : List α) (cut : Option ℕ) :
    s.send bytes cut = (s, false) := by
  cases s
  simp_all [send, sendAll]

theorem send_whole (h : s.fdOpen = true) (bytes : List α) :
    s.send bytes none = ({ s with stream := s.stream ++ bytes }, true) := by
  simp [send, sendAll, h]

/-- What a failed write leaves is a part of what was to be written. -/
theorem send_cut (h : s.fdOpen = true) (hne : bytes ≠ []) (n : ℕ) :
    ∃ part, part <+: bytes ∧ part ≠ bytes ∧
      s.send bytes (some n) = ({ fdOpen := false, stream := s.stream ++ part }, false) := by
  refine ⟨bytes.take (min n (bytes.length - 1)), List.take_prefix _ _, fun hwhole => ?_, ?_⟩
  · have hpos := List.length_pos_of_ne_nil hne
    have hlen := congrArg List.length hwhole
    rw [List.length_take] at hlen
    omega
  · simp [send, sendAll, h]

/-- The stream holds the items behind the preamble, and behind them at most a part of one more,
behind which nothing follows. -/
def Holds (preamble : List α) (write : ι → List α) (P : ι → Prop) (s : Socket α) (items : List ι) :
    Prop :=
  ∃ part, s.stream = preamble ++ (items.flatMap write ++ part) ∧ (s.fdOpen = true → part = []) ∧
    (part = [] ∨ ∃ x, P x ∧ part <+: write x ∧ part ≠ write x)

section Holds

variable {preamble : List α} {write : ι → List α} {P : ι → Prop} {items : List ι}

theorem holds_preamble (preamble : List α) (write : ι → List α) (P : ι → Prop) :
    Holds preamble write P { stream := preamble } [] :=
  ⟨[], by simp, fun _ => rfl, .inl rfl⟩

theorem Holds.congr {s' : Socket α} (h : Holds preamble write P s items)
    (hstream : s'.stream = s.stream) (hfd : s'.fdOpen = true → s.fdOpen = true) :
    Holds preamble write P s' items := by
  obtain ⟨part, heq, hopen, hpart⟩ := h
  exact ⟨part, hstream.trans heq, fun h' => hopen (hfd h'), hpart⟩

theorem Holds.close (h : Holds preamble write P s items) : Holds preamble write P s.close items :=
  h.congr rfl fun hopen => by cases hopen

theorem Holds.closeIf (h : Holds preamble write P s items) (p : Prop) [Decidable p] :
    Holds preamble write P (if p then s.close else s) items := by
  split_ifs
  · exact h.close
  · exact h

/-- **One write.** The item is there as a whole exactly when the write succeeds. -/
theorem Holds.send (h : Holds preamble write P s items) {x : ι} (hx : P x) (hne : write x ≠ [])
    (cut : Option ℕ) :
    Holds preamble write P (s.send (write x) cut).1
      (items ++ if (s.send (write x) cut).2 then [x] else []) := by
  by_cases hfd : s.fdOpen = true
  · obtain ⟨part, heq, hopen, -⟩ := h
    obtain rfl := hopen hfd
    cases cut with
    | none =>
      rw [send_whole hfd, if_pos rfl]
      exact ⟨[], by simp [heq], fun _ => rfl, .inl rfl⟩
    | some n =>
      obtain ⟨part, hpart, hproper, hsend⟩ := send_cut hfd hne n
      rw [hsend, if_neg Bool.false_ne_true, List.append_nil]
      exact ⟨part, by simp [heq], (fun hopen => by cases hopen), .inr ⟨x, hx, hpart, hproper⟩⟩
  · rw [send_of_closed (Bool.eq_false_iff.2 hfd), if_neg Bool.false_ne_true, List.append_nil]
    exact h

variable {R : Framing.Reader α κ} {f : ι → κ}

/-- **What is read off the stream** are the items that were written. -/
theorem Holds.read (h : Holds preamble write P s items) (hR : ∀ x, P x → R.Encodes (f x) (write x))
    (hitems : ∀ x ∈ items, P x) : (R.items (s.stream.drop preamble.length)).1 = items.map f := by
  obtain ⟨part, heq, -, hpart⟩ := h
  have hnone : R.next part = none := by
    rcases hpart with rfl | ⟨x, hx, hbegin, hproper⟩
    · exact R.next_nil
    · have hencodes := hR x hx
      exact hencodes.next_of_prefix hbegin hproper
  have hencoded : List.Forall₂ R.Encodes (items.map f) (items.map write) := by
    simp only [List.forall₂_map_left_iff, List.forall₂_map_right_iff, List.forall₂_same]
    exact fun x hx => hR x (hitems x hx)
  have hread := Framing.Reader.items_encoded part hencoded
  rw [heq, List.drop_left, List.flatMap, hread, Framing.Reader.items_of_none hnone, List.append_nil]

theorem Holds.read_all (h : Holds [] write P s items) (hR : ∀ x, P x → R.Encodes (f x) (write x))
    (hitems : ∀ x ∈ items, P x) : (R.items s.stream).1 = items.map f := h.read hR hitems

/-- Off a first part of what was written, first items are read. -/
theorem Holds.read_of_arrived (h : Holds [] write P s items)
    (hR : ∀ x, P x → R.Encodes (f x) (write x)) (hitems : ∀ x ∈ items, P x) {arrived : List α}
    (harrived : arrived <+: s.stream) :
    ∃ first, first <+: items ∧ (R.items arrived).1 = first.map f := by
  have hread := R.items_prefix harrived
  rw [h.read_all hR hitems] at hread
  exact List.prefix_map_iff.1 hread

end Holds

end Socket
