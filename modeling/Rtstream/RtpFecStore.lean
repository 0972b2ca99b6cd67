import Rtstream.FecKeys
import Rtstream.Lib.SmallestOut
import Rtstream.RtpAssemblerSpec

/-!
# The store of parities

The receiving thread puts each parity into `fec_` under the low 32 bits of its capture time in
milliseconds, and of more than 64 it erases the one with the smallest key. The assembling thread
takes out the parity of a frame it recovers. A parity that is not needed stays, so that the store is
full for most of a session.

The smallest key is the oldest one until the keys wrap. `newest_kept_iff`: `fec_` holds the newest
parities that are not used up exactly as long as every new one fits. For capture times that increase
that is as long as the oldest one held and the new one lie in one period of `2 ^ 32` ms
(`fits_iff_of_increasing`). The comment on the sender's side has the wrap far beyond the length of a
session, but the clock counts from the start of the machine.
-/

namespace Rtstream

open Std (TreeMap)

/-! ## The parities used up -/

/-- The parity that is used up when the frame is recovered. -/
def FrameState.taken (f : FrameState) (fec : TreeMap UInt32 Bytes) : List UInt32 :=
  if (f.recover fec).isSome then [toUInt32 f.captureMs] else []

namespace Assembler

/-- What `finalize_frame` uses up. -/
def finalTaken (m : Assembler) : List UInt32 :=
  if !m.cur.started || m.cur.raws.isEmpty || m.cur.complete then [] else m.cur.taken m.fec

/-- What `expire_zombies` uses up. -/
def expireTaken : TreeMap UInt32 Bytes → List FrameState → List UInt32
  | _, [] => []
  | fec, z :: zs => z.taken fec ++ expireTaken ((z.taken fec).foldl TreeMap.erase fec) zs

/-- What a turn of `assemble_loop` uses up. -/
def unitTaken (m : Assembler) (p : RtpPkt) (now : Int) : List UInt32 :=
  (if m.switches p then m.finalTaken else []) ++
    (if p.marker then (m.withPacket p now).finalTaken else []) ++
      expireTaken (m.closed p now).1.fec (m.closed p now).1.zombies

theorem fec_finalizeFrame (m : Assembler) (explicitMarker : Bool) (now : Int) :
    (m.finalizeFrame explicitMarker now).1.fec = m.finalTaken.foldl TreeMap.erase m.fec := by
  unfold finalizeFrame finalTaken FrameState.taken
  by_cases hidle : (!m.cur.started || m.cur.raws.isEmpty) = true
  · simp [hidle]
  · rw [Bool.not_eq_true] at hidle
    by_cases hc : m.cur.complete = true
    · simp [hidle, hc]
    · rw [Bool.not_eq_true] at hc
      simp only [hidle, hc, Bool.or_self, Bool.false_eq_true, if_false]
      cases m.cur.recover m.fec with
      | some raw => rfl
      | none =>
        -- A zombie or given up, the frame has used nothing.
        simp only [Option.isSome_none, Bool.false_eq_true, if_false]
        split_ifs <;> rfl

theorem fec_expireLoop (now : Int) (fec : TreeMap UInt32 Bytes) (zs : List FrameState) :
    (expireLoop now fec zs).1 = (expireTaken fec zs).foldl TreeMap.erase fec := by
  induction zs generalizing fec with
  | nil => rfl
  | cons z zs ih =>
    rw [expireTaken, List.foldl_append, ← ih]
    cases hz : z.recover fec with
    | some raw => simp [expireLoop, FrameState.taken, hz]
    | none =>
      simp only [expireLoop, FrameState.taken, hz, Option.isSome_none, Bool.false_eq_true, if_false,
        List.foldl_nil]
      split_ifs <;> rfl

/-- **A turn of the assembling thread** takes out of `fec_` what it uses up, and no more. -/
theorem fec_assemble (m : Assembler) (p : RtpPkt) (now : Int) :
    (m.assemble p now).1.fec = (m.unitTaken p now).foldl TreeMap.erase m.fec := by
  have hswitch : (m.switchFrame p now).1.fec =
      (if m.switches p then m.finalTaken else []).foldl TreeMap.erase m.fec := by
    have hif : m.switchFrame p now = if m.switches p then
        ({ (m.finalizeFrame false now).1 with cur := openFrame p now },
          (m.finalizeFrame false now).2) else (m, []) := rfl
    rw [hif]
    split_ifs
    · exact m.fec_finalizeFrame false now
    · rfl
  have hclosed : (m.closed p now).1.fec =
      (if p.marker then (m.withPacket p now).finalTaken else []).foldl TreeMap.erase
        (m.switchFrame p now).1.fec := by
    unfold closed
    split_ifs
    · exact (m.withPacket p now).fec_finalizeFrame true now
    · rfl
  rw [assemble_eq, unitTaken, List.foldl_append, List.foldl_append, ← hswitch, ← hclosed]
  exact fec_expireLoop now _ _

theorem fec_storeParity (m : Assembler) (key : UInt32) (parity : Bytes) :
    (m.storeParity key parity).fec = SmallestOut.store 64 m.fec key parity := by
  simp only [storeParity, SmallestOut.store]
  split_ifs
  · cases OrderedMap.first? (m.fec.insert key parity) with
    | some first => rfl
    | none => rfl
  · rfl

end Assembler

namespace FecStore

/-! ## The newest parities -/

/-- What an input does to the parities. -/
def event (m : Assembler) : AsmInput → SmallestOut.Event UInt32 Bytes
  | .unit p now => .consume (m.unitTaken p now)
  | .parity key parity => .store (key, parity)

/-- What the inputs do to them, one after the other. -/
def events (m : Assembler) (is : List AsmInput) : List (SmallestOut.Event UInt32 Bytes) :=
  Runs.collect Assembler.step (fun m i => [event m i]) m is

/-- The assembler, beside the newest 64 parities that are not used up, the oldest in front. -/
structure Session where
  asm : Assembler := {}
  held : List (UInt32 × Bytes) := []
  few : held.length ≤ 64 := by decide

def step : Runs.Machine Session AsmInput RtpEffect := fun s i =>
  ({ asm := (s.asm.step i).1
     held := SmallestOut.step 64 s.held (event s.asm i)
     few := SmallestOut.length_step_le (by decide) s.few _ }, (s.asm.step i).2)

/-- `fec_` holds these parities, and no others. -/
def Agrees (s : Session) : Prop := s.asm.fec.toList.Perm s.held

/-- A parity that comes has a key that is not in use; and if 64 are held, the oldest one has the
smallest key. -/
def Fits (s : Session) : AsmInput → Prop
  | .unit _ _ => True
  | .parity key _ => SmallestOut.Fits 64 s.held key

/-- One step: the store goes on holding the newest parities exactly if the new one fits. -/
theorem agrees_step_iff {s : Session} {i : AsmInput} (hs : Agrees s) :
    Agrees (step s i).1 ↔ Fits s i := by
  cases i with
  | unit p now =>
    refine iff_of_true ?_ trivial
    show (s.asm.assemble p now).1.fec.toList.Perm
      (SmallestOut.consume (s.asm.unitTaken p now) s.held)
    rw [Assembler.fec_assemble]
    exact SmallestOut.perm_consume hs _
  | parity key parity =>
    show (s.asm.storeParity key parity).fec.toList.Perm
      (SmallestOut.push 64 s.held (key, parity)) ↔ _
    rw [Assembler.fec_storeParity]
    exact SmallestOut.store_perm_iff (by decide) hs s.few

theorem agrees_iff (is : List AsmInput) :
    (∀ n ≤ is.length, Agrees (Runs.before step {} is n)) ↔ Runs.Along step Fits {} is := by
  have hempty : Agrees {} := List.Perm.refl []
  exact Runs.forall_before_iff (fun _ _ hs => agrees_step_iff hs) hempty is

/-! ## Along a run -/

/-- Beside the parities the assembler runs as it does alone. -/
theorem after_eq (s : Session) (is : List AsmInput) :
    (Runs.after step s is).asm = Runs.after Assembler.step s.asm is ∧
      (Runs.after step s is).held = (events s.asm is).foldl (SmallestOut.step 64) s.held := by
  induction is generalizing s with
  | nil => exact ⟨rfl, rfl⟩
  | cons i is ih => exact ih (step s i).1

/-- A parity that has come is in `fec_` until it is used up or 64 more have come. -/
theorem kept_of_fits {is₁ is₂ : List AsmInput} {key : UInt32} {parity : Bytes}
    (hfits : Runs.Along step Fits {} (is₁ ++ .parity key parity :: is₂))
    (hfew : ((events (Runs.after Assembler.step {} (is₁ ++ [.parity key parity])) is₂).filterMap
      SmallestOut.stored?).length < 64)
    (hkept : key ∉ (events (Runs.after Assembler.step {} (is₁ ++ [.parity key parity])) is₂).flatMap
      SmallestOut.consumed) :
    (Runs.after Assembler.step {} (is₁ ++ .parity key parity :: is₂)).fec[key]? = some parity := by
  have hagrees := (agrees_iff _).mpr hfits _ le_rfl
  rw [Runs.before, List.take_length] at hagrees
  have hrun := after_eq {} (is₁ ++ .parity key parity :: is₂)
  rw [← hrun.1, SmallestOut.getElem?_eq_some_iff hagrees]
  -- The parity comes last when it is stored, and the rest of the run follows.
  have hsplit : is₁ ++ AsmInput.parity key parity :: is₂ =
      (is₁ ++ [AsmInput.parity key parity]) ++ is₂ := by simp
  rw [hsplit, Runs.after_append]
  have hstored := after_eq {} (is₁ ++ [.parity key parity])
  rw [(after_eq _ is₂).2, hstored.1]
  have hlast : ∃ older, (Runs.after step {} (is₁ ++ [.parity key parity])).held =
      older ++ [(key, parity)] := by
    rw [Runs.after_append]
    show ∃ older, SmallestOut.push 64 _ (key, parity) = _
    unfold SmallestOut.push
    split_ifs
    · exact ⟨_, rfl⟩
    · exact ⟨_, rfl⟩
  obtain ⟨older, hlast⟩ := hlast
  exact SmallestOut.mem_of_few hlast (Session.few _) (by simpa using hfew) hkept

/-- **The newest parities are kept** exactly while every new one fits: `fec_` holds the parities
that have not been used up, but for those that had to make room, and it is the oldest one that makes
room. So each of them is there from the moment it is stored until it is used up or 64 more have
come. -/
theorem newest_kept_iff (is : List AsmInput) :
    ((∀ n ≤ is.length, Agrees (Runs.before step {} is n)) ↔ Runs.Along step Fits {} is) ∧
      (Runs.Along step Fits {} is → ∀ is₁ key parity is₂, is = is₁ ++ .parity key parity :: is₂ →
        let later := events (Runs.after Assembler.step {} (is₁ ++ [.parity key parity])) is₂
        (later.filterMap SmallestOut.stored?).length < 64 →
        key ∉ later.flatMap SmallestOut.consumed →
        (Runs.after Assembler.step {} is).fec[key]? = some parity) := by
  refine ⟨agrees_iff is, ?_⟩
  rintro hfits is₁ key parity is₂ rfl later hfew hkept
  exact kept_of_fits hfits hfew hkept

/-- Parities captured in the last 64 ms before the keys wrap, and one captured when they do. -/
def acrossWrap : List AsmInput :=
  (List.range 65).map fun (i : ℕ) => .parity (toUInt32 (2 ^ 32 - 64 + i)) [UInt8.ofNat i]

/-- **The newest parity has the smallest key** and is evicted as soon as it is stored. The one that
was stored earliest stays. -/
theorem newest_evicted :
    (Runs.after Assembler.step {} acrossWrap).fec[toUInt32 (2 ^ 32)]? = none ∧
      (Runs.after Assembler.step {} acrossWrap).fec[toUInt32 (2 ^ 32 - 64)]? = some [0] := by
  decide +kernel

/-! ## Capture times -/

theorem compare_key_lt_iff (x y : Int) :
    compare (toUInt32 x) (toUInt32 y) = .lt ↔ x % 2 ^ 32 < y % 2 ^ 32 := by
  rw [Std.compare_eq_lt, UInt32.lt_iff_toNat_lt, ← toNat_toUInt32, ← toNat_toUInt32]
  exact Nat.cast_lt.symm

/-- **Increasing capture times**, less than `2 ^ 32` ms apart: the new parity fits exactly if fewer
than 64 are held, or the oldest one was captured in the same period of `2 ^ 32` ms. -/
theorem fits_iff_of_increasing {held : List (UInt32 × Bytes)} {times : List Int} {ms : Int}
    (hheld : held.map Prod.fst = times.map toUInt32) (hinc : times.Pairwise (· < ·))
    (hnew : ∀ t ∈ times, t < ms ∧ ms - t < 2 ^ 32) :
    SmallestOut.Fits 64 held (toUInt32 ms) ↔
      (64 ≤ times.length → ∀ oldest ∈ times.head?, oldest / 2 ^ 32 = ms / 2 ^ 32) := by
  have hlength : held.length = times.length := by simpa using congrArg List.length hheld
  have hkeys : ∀ t ∈ times, toUInt32 t ≠ toUInt32 ms := by
    intro t ht heq
    obtain ⟨hlt, hclose⟩ := hnew t ht
    rw [toUInt32_eq_iff] at heq
    omega
  have hdiffer : ∀ e ∈ held, e.1 ≠ toUInt32 ms := by
    intro e he
    have hmem : e.1 ∈ times.map toUInt32 := hheld ▸ List.mem_map_of_mem he
    obtain ⟨t, ht, heq⟩ := List.mem_map.mp hmem
    exact heq ▸ hkeys t ht
  rw [SmallestOut.fits_iff_of_new hdiffer, hlength]
  refine imp_congr_right fun hfull => ?_
  cases times with
  | nil => simp at hfull
  | cons oldest rest =>
    obtain ⟨e, q, rfl, hfst, hrest⟩ := List.map_eq_cons_iff.mp hheld
    obtain ⟨hlt, hclose⟩ := hnew oldest List.mem_cons_self
    have hq : (∀ e' ∈ q, compare e.1 e'.1 = .lt) ↔ ∀ t ∈ rest, oldest % 2 ^ 32 < t % 2 ^ 32 := by
      have hmap := List.forall_mem_map (f := Prod.fst) (l := q)
        (P := fun key : UInt32 => compare e.1 key = .lt)
      rw [← hmap, hrest, hfst, List.forall_mem_map]
      simp only [compare_key_lt_iff]
    simp only [List.head?_cons, Option.mem_some_iff, forall_eq', List.tail_cons]
    rw [hq, hfst, compare_key_lt_iff]
    constructor
    · rintro ⟨hsmall, -⟩
      omega
    · intro hperiod
      -- What was captured in between is of the same period.
      refine ⟨by omega, fun t ht => ?_⟩
      have hafter := (List.pairwise_cons.mp hinc).1 t ht
      have hbefore := (hnew t (List.mem_cons_of_mem oldest ht)).1
      omega

end FecStore

end Rtstream
