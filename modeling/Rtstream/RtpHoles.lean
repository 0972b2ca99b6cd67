import Rtstream.RtpInRange
import Mathlib.Data.List.Infix

/-!
# The packets that a frame lacks

A frame that is given up is counted as `span - raws.size()` lost packets. In a frame without
packets below its first one these are its *holes*: the numbers from the first packet to the last
one under which there is no packet.

A turn of `assemble_loop` gives up the frame before, the frame that the packet joins, or zombies
(`givenUp`). Every frame is given up at most once, and not while it is kept
(`givenUp_subperm`).
-/

namespace Rtstream

open Std (TreeMap)

namespace FrameState

variable {f : FrameState} {l : UInt16}

/-- The numbers between the first packet and the last one that are missing. -/
def holes (f : FrameState) : List ℕ :=
  (List.range' f.firstSeq.toNat f.span.toNat).filter fun x => !f.raws.contains (UInt16.ofNat x)

/-- The last packet is number `l`. -/
structure Ends (f : FrameState) (l : UInt16) : Prop where
  contains : f.raws.contains l = true
  le : ∀ k : UInt16, f.raws.contains k = true → k.toNat ≤ l.toNat

theorem Within.le_of_contains (h : f.Within) {k : UInt16} (hk : f.raws.contains k = true) :
    f.firstSeq.toNat ≤ k.toNat := by
  obtain ⟨raw, hraw⟩ := OrderedMap.contains_iff.1 hk
  exact h k raw hraw

theorem Ends.toNat_span (he : f.Ends l) (h : f.Within) :
    f.span.toNat = l.toNat - f.firstSeq.toNat + 1 := by
  obtain ⟨raw, hraw⟩ := OrderedMap.contains_iff.1 he.contains
  exact toNat_span_of_last h hraw fun k r hk => he.le k (OrderedMap.contains_iff.2 ⟨r, hk⟩)

theorem mem_holes {x : ℕ} : x ∈ f.holes ↔
    (f.firstSeq.toNat ≤ x ∧ x < f.firstSeq.toNat + f.span.toNat) ∧
      f.raws.contains (UInt16.ofNat x) = false := by
  rw [holes, List.mem_filter, List.mem_range'_1, Bool.not_eq_true']

theorem length_holes (h : f.Within) : f.holes.length + f.raws.size = f.span.toNat := by
  have hplace : ∀ i < f.span.toNat, (UInt16.ofNat (f.firstSeq.toNat + i)).toNat =
      f.firstSeq.toNat + i := fun i hi => by
    rw [UInt16.ofNat_add, UInt16.ofNat_toNat, toNat_seqAt h hi]
  have hsize : f.raws.size = (List.range f.span.toNat).countP
      fun i => f.raws.contains (UInt16.ofNat (f.firstSeq.toNat + i)) := by
    refine OrderedMap.size_eq_countP (g := fun i => UInt16.ofNat (f.firstSeq.toNat + i))
      (fun i hi j hj heq => ?_) fun k => ⟨fun hk => ?_, ?_⟩
    · have hi := hplace i hi
      have hj := hplace j hj
      rw [heq] at hi
      omega
    · obtain ⟨raw, hraw⟩ := Option.isSome_iff_exists.1 hk
      have hlt := index_lt_span h hraw
      have hidx := index_eq h hraw
      have hle := h k raw hraw
      have hk' : UInt16.ofNat (f.firstSeq.toNat + f.index k) = k := by
        rw [← UInt16.toNat_inj, hplace _ hlt, hidx]
        omega
      refine ⟨f.index k, hlt, ?_, hk'⟩
      rw [hk']
      exact OrderedMap.contains_iff.2 ⟨raw, hraw⟩
    · rintro ⟨i, -, hi, rfl⟩
      rwa [← TreeMap.contains_eq_isSome_getElem?]
  have hholes : f.holes.length = ((List.range f.span.toNat).filter
      fun i => !f.raws.contains (UInt16.ofNat (f.firstSeq.toNat + i))).length := by
    rw [holes, List.range'_eq_map_range, List.filter_map, List.length_map]
    rfl
  have hsplit := List.length_eq_length_filter_add (l := List.range f.span.toNat)
    fun i => f.raws.contains (UInt16.ofNat (f.firstSeq.toNat + i))
  rw [List.length_range] at hsplit
  rw [hholes, hsize, List.countP_eq_length_filter]
  omega

/-- **No underflow**: what is counted is the number of holes. -/
theorem toNat_lostCount (h : f.Within) : f.lostCount.toNat = f.holes.length := by
  have hlen := length_holes h
  have hlt := f.span.toNat_lt
  rw [lostCount, UInt64.toNat_sub, UInt64.toNat_ofNat', UInt64.toNat_ofNat']
  omega

theorem recover_eq_none (h : f.Within) (hne : f.holes.length ≠ 1) (fec : TreeMap UInt32 Bytes) :
    f.recover fec = none := by
  have hlen := length_holes h
  have hlt := f.span.toNat_lt
  have hsize : ¬ (f.raws.size = (f.span - 1).toNat ∧ f.markerSeen = true) := by
    intro hs
    have := hs.1
    rw [UInt32.toNat_sub, UInt32.toNat_one] at this
    omega
  unfold recover
  cases fec[toUInt32 f.captureMs]? with
  | none => rfl
  | some parity => exact if_neg hsize

end FrameState

namespace Assembler

variable {m : Assembler} {p : RtpPkt} {now : Int} {l : UInt16}

/-! ## A packet joins a frame -/

theorem contains_joined (m : Assembler) (p : RtpPkt) (now : Int) (k : UInt16) :
    (m.joined p now).raws.contains k =
      (p.seq == k || (!m.switches p && m.cur.raws.contains k)) := by
  rw [Bool.eq_iff_iff]
  unfold joined
  cases m.switches p with
  | true =>
    show ((∅ : TreeMap UInt16 Bytes).insertIfNew p.seq p.raw).contains k = true ↔ _
    simp [TreeMap.contains_insertIfNew]
  | false =>
    show (m.cur.raws.insertIfNew p.seq p.raw).contains k = true ↔ _
    simp [TreeMap.contains_insertIfNew]

/-- The packet is the last one, unless it is behind the frame it joins. -/
theorem ends_joined (now : Int)
    (h : m.switches p = false → m.cur.Ends l ∧ l.toNat ≤ p.seq.toNat) :
    (m.joined p now).Ends p.seq where
  contains := by simp [contains_joined]
  le := fun k hk => by
    rw [contains_joined, Bool.or_eq_true, Bool.and_eq_true, Bool.not_eq_true', beq_iff_eq] at hk
    rcases hk with rfl | ⟨hsw, hk⟩
    · exact le_rfl
    · exact ((h hsw).1.le k hk).trans (h hsw).2

theorem holes_joined_of_switches (now : Int) (hsw : m.switches p = true) :
    (m.joined p now).holes = [] := by
  have hends : (m.joined p now).Ends p.seq := ends_joined (l := 0) now fun h => by
    rw [hsw] at h
    cases h
  have hfirst : (m.joined p now).firstSeq = p.seq := by rw [joined_firstSeq, if_pos hsw]
  have hwithin : (m.joined p now).Within := fun k raw hk => by
    have := OrderedMap.contains_of_getElem? hk
    rw [contains_joined, hsw, Bool.not_true, Bool.false_and, Bool.or_false, beq_iff_eq] at this
    rw [hfirst, this]
  have hspan := hends.toNat_span hwithin
  apply List.eq_nil_iff_forall_not_mem.2
  intro x hx
  obtain ⟨⟨hle, hlt⟩, hnot⟩ := FrameState.mem_holes.1 hx
  rw [hfirst] at hle hlt hspan
  obtain rfl : x = p.seq.toNat := by omega
  rw [UInt16.ofNat_toNat, hends.contains] at hnot
  cases hnot

/-- The numbers below the packet's are there if they were there before. -/
theorem contains_joined_of_lt (now : Int) (hsw : m.switches p = false) {x : ℕ}
    (hx : x < p.seq.toNat) :
    (m.joined p now).raws.contains (UInt16.ofNat x) = m.cur.raws.contains (UInt16.ofNat x) := by
  have hne : (p.seq == UInt16.ofNat x) = false := by
    rw [beq_eq_false_iff_ne]
    intro heq
    have hs := p.seq.toNat_lt
    have := congrArg UInt16.toNat heq
    rw [UInt16.toNat_ofNat'] at this
    omega
  rw [contains_joined, hne, hsw, Bool.false_or, Bool.not_false, Bool.true_and]

theorem range'_split {a l s : ℕ} (hal : a ≤ l) (hls : l < s) :
    List.range' a (s - a + 1) =
      List.range' a (l - a + 1) ++ List.range' (l + 1) (s - l - 1) ++ [s] := by
  have h₁ := @List.range'_append_1 a (l - a + 1) (s - l - 1)
  have h₂ := @List.range'_append_1 a (s - a) 1
  rw [show a + (l - a + 1) = l + 1 by omega, show l - a + 1 + (s - l - 1) = s - a by omega] at h₁
  rw [h₁, ← h₂, show a + (s - a) = s by omega]
  rfl

/-- **A packet of the frame being collected** adds the numbers since the last one to the holes. -/
theorem holes_joined_of_not_switches (now : Int) (hsw : m.switches p = false)
    (hcur : m.cur.Within) (hl : m.cur.Ends l) (hlt : l.toNat < p.seq.toNat) :
    (m.joined p now).holes = m.cur.holes ++
      List.range' (l.toNat + 1) (p.seq.toNat - l.toNat - 1) := by
  have hends : (m.joined p now).Ends p.seq := ends_joined now fun _ => ⟨hl, hlt.le⟩
  have hfirst : (m.joined p now).firstSeq = m.cur.firstSeq := by
    rw [joined_firstSeq, if_neg (by rw [hsw]; exact Bool.false_ne_true)]
  have hle := hcur.le_of_contains hl.contains
  have hwithin : (m.joined p now).Within := joined_within hcur fun _ => by omega
  have hsplit : List.range' m.cur.firstSeq.toNat (m.joined p now).span.toNat =
      List.range' m.cur.firstSeq.toNat m.cur.span.toNat ++
        List.range' (l.toNat + 1) (p.seq.toNat - l.toNat - 1) ++ [p.seq.toNat] := by
    rw [hends.toNat_span hwithin, hl.toNat_span hcur, hfirst]
    exact range'_split hle hlt
  rw [FrameState.holes, hfirst, hsplit, List.filter_append, List.filter_append]
  have hpre : (List.range' m.cur.firstSeq.toNat m.cur.span.toNat).filter
      (fun x => !(m.joined p now).raws.contains (UInt16.ofNat x)) = m.cur.holes := by
    apply List.filter_congr
    intro x hx
    have := (List.mem_range'_1.1 hx).2
    rw [hl.toNat_span hcur] at this
    rw [contains_joined_of_lt now hsw (by omega)]
  have hmid : (List.range' (l.toNat + 1) (p.seq.toNat - l.toNat - 1)).filter
      (fun x => !(m.joined p now).raws.contains (UInt16.ofNat x)) =
        List.range' (l.toNat + 1) (p.seq.toNat - l.toNat - 1) := by
    apply List.filter_eq_self.2
    intro x hx
    have hx := List.mem_range'_1.1 hx
    have hs := p.seq.toNat_lt
    rw [contains_joined_of_lt now hsw (by omega), Bool.not_eq_true', Bool.eq_false_iff]
    intro hmem
    have := hl.le _ hmem
    rw [UInt16.toNat_ofNat'] at this
    omega
  rw [hpre, hmid, List.filter_singleton, UInt16.ofNat_toNat, hends.contains]
  simp

/-! ## The frames a turn gives up -/

/-- What is added to `net_lost`. -/
def losts (es : List RtpEffect) : List UInt64 :=
  es.filterMap fun
    | .lost n => some n
    | _ => none

theorem losts_append (es es' : List RtpEffect) : losts (es ++ es') = losts es ++ losts es' :=
  List.filterMap_append

theorem losts_emit (f : FrameState) (rawExtra : Option Bytes) (now : Int) :
    losts (f.emit rawExtra now) = [] := by
  apply List.filterMap_eq_nil_iff.2
  intro e he
  rcases List.mem_append.1 he with he | he
  · obtain ⟨kv, -, heq⟩ := List.mem_filterMap.1 he
    split_ifs at heq
    obtain rfl := Option.some.inj heq
    rfl
  · split_ifs at he
    · cases he
    · rw [List.mem_singleton.1 he]

/-- The frame that `finalize_frame` gives up, if it counts it. -/
def finalGivenUp (m : Assembler) (explicitMarker : Bool) (now : Int) : List FrameState :=
  (losts (m.finalizeFrame explicitMarker now).2).map fun _ => m.cur

/-- The zombies that `expire_zombies` gives up. -/
def expireGivenUp (now : Int) : TreeMap UInt32 Bytes → List FrameState → List FrameState
  | _, [] => []
  | fec, z :: zs =>
    match z.recover fec with
    | some _ => expireGivenUp now (fec.erase (toUInt32 z.captureMs)) zs
    | none =>
        if now - z.firstSeenUs > 250 * 1000 then z :: expireGivenUp now fec zs
        else expireGivenUp now fec zs

/-- The frames that a turn of `assemble_loop` gives up. -/
def givenUp (m : Assembler) (p : RtpPkt) (now : Int) : List FrameState :=
  (if m.switches p then m.finalGivenUp false now else []) ++
    (if p.marker then (m.withPacket p now).finalGivenUp true now else []) ++
    expireGivenUp now (m.closed p now).1.fec (m.closed p now).1.zombies

theorem losts_finalizeFrame (m : Assembler) (explicitMarker : Bool) (now : Int) :
    losts (m.finalizeFrame explicitMarker now).2 =
      (m.finalGivenUp explicitMarker now).map FrameState.lostCount := by
  rcases m.finalizeFrame_cases explicitMarker now with
    h | ⟨-, h | ⟨raw, -, h⟩ | h | h⟩ <;> rw [finalGivenUp, h]
  · rfl
  · rw [losts_emit]
    rfl
  · rw [losts_append, losts_emit]
    rfl
  · rfl
  · rfl

theorem losts_expireLoop (now : Int) (fec : TreeMap UInt32 Bytes) (zs : List FrameState) :
    losts (expireLoop now fec zs).2.2 = (expireGivenUp now fec zs).map FrameState.lostCount := by
  induction zs generalizing fec with
  | nil => rfl
  | cons z zs ih =>
    cases hz : z.recover fec with
    | some raw =>
      simp only [expireLoop, expireGivenUp, hz, losts_append, losts_emit, List.nil_append]
      exact ih _
    | none =>
      simp only [expireLoop, expireGivenUp, hz]
      split_ifs
      · exact congrArg (z.lostCount :: ·) (ih fec)
      · exact ih fec

theorem losts_assemble (m : Assembler) (p : RtpPkt) (now : Int) :
    losts (m.assemble p now).2 = (m.givenUp p now).map FrameState.lostCount := by
  rw [assemble_eq, losts_append, losts_append, givenUp, List.map_append, List.map_append]
  congr 1
  · congr 1
    · unfold switchFrame
      rw [← switches]
      split_ifs
      · exact losts_finalizeFrame m false now
      · rfl
    · unfold closed
      split_ifs
      · exact losts_finalizeFrame _ true now
      · rfl
  · exact losts_expireLoop now _ _

/-! ## The frames a turn keeps -/

/-- The frame being collected. -/
def current (m : Assembler) : List FrameState := if m.cur.started then [m.cur] else []

/-- The frames that are kept. -/
def live (m : Assembler) : List FrameState := m.zombies ++ m.current

theorem finalGivenUp_sublist (m : Assembler) (explicitMarker : Bool) (now : Int) :
    (m.finalGivenUp explicitMarker now).Sublist m.current := by
  rcases m.finalizeFrame_cases explicitMarker now with
    h | ⟨hst, h | ⟨raw, -, h⟩ | h | h⟩ <;> rw [finalGivenUp, h]
  · exact List.nil_sublist _
  · rw [losts_emit]
    exact List.nil_sublist _
  · rw [losts_append, losts_emit]
    exact List.nil_sublist _
  · exact List.nil_sublist _
  · rw [current, if_pos hst]
    exact List.Sublist.refl _

/-- A frame that `finalize_frame` does not give up is kept. -/
theorem finalGivenUp_perm (m : Assembler) (explicitMarker : Bool) (now : Int)
    (hst : m.cur.started = true) :
    (m.finalGivenUp explicitMarker now ++ (m.finalizeFrame explicitMarker now).1.live).Perm
      (m.zombies ++ [m.cur]) := by
  have hkept : ∀ fec, (live { m with fec := fec }).Perm (m.zombies ++ [m.cur]) := fun fec => by
    simp [live, current, hst]
  rcases m.finalizeFrame_cases explicitMarker now with
    h | ⟨-, h | ⟨raw, -, h⟩ | h | h⟩ <;> rw [finalGivenUp, h]
  · exact hkept m.fec
  · rw [losts_emit]
    exact hkept m.fec
  · rw [losts_append, losts_emit]
    exact hkept _
  · simp [live, current, losts]
  · simpa [live, current, losts] using @List.perm_append_comm _ [m.cur] m.zombies

/-- A zombie that is given up is not kept. -/
theorem expireGivenUp_subperm (now : Int) (fec : TreeMap UInt32 Bytes) (zs : List FrameState) :
    (expireGivenUp now fec zs ++ (expireLoop now fec zs).2.1).Subperm zs := by
  induction zs generalizing fec with
  | nil => exact List.Subperm.refl _
  | cons z zs ih =>
    cases hz : z.recover fec with
    | some raw =>
      simp only [expireGivenUp, expireLoop, hz]
      exact (ih _).cons_right z
    | none =>
      simp only [expireGivenUp, expireLoop, hz]
      split_ifs
      · exact (List.subperm_cons z).2 (ih fec)
      · exact List.perm_middle.subperm.trans ((List.subperm_cons z).2 (ih fec))

/-- **Every frame is given up at most once**, and not while it is kept. -/
theorem givenUp_subperm (m : Assembler) (p : RtpPkt) (now : Int) :
    (m.givenUp p now ++ (m.assemble p now).1.live).Subperm
      ((if m.switches p then m.current else []) ++ m.zombies ++ [m.joined p now]) := by
  have hcur := m.withPacket_cur p now
  have hzombies : (m.withPacket p now).zombies = m.zombies := (m.switchFrame_spec p now).2.1
  have hst : (m.withPacket p now).cur.started = true := hcur ▸ m.joined_started p now
  have hswitch : (if m.switches p then m.finalGivenUp false now else []).Subperm
      (if m.switches p then m.current else []) := by
    split_ifs
    · exact (m.finalGivenUp_sublist false now).subperm
    · exact List.Subperm.refl _
  -- The frame the packet joined is given up or kept.
  have hclosed : ((if p.marker then (m.withPacket p now).finalGivenUp true now else []) ++
      (m.closed p now).1.live).Perm (m.zombies ++ [m.joined p now]) := by
    rw [closed]
    split_ifs
    · have := finalGivenUp_perm _ true now hst
      rwa [hzombies, hcur] at this
    · rw [List.nil_append, live, current, hst, if_pos rfl, hcur, hzombies]
  have hexpire := expireGivenUp_subperm now (m.closed p now).1.fec (m.closed p now).1.zombies
  have hlive : (expireGivenUp now (m.closed p now).1.fec (m.closed p now).1.zombies ++
      (m.assemble p now).1.live).Subperm (m.closed p now).1.live := by
    rw [assemble_eq, live, live, ← List.append_assoc]
    exact hexpire.append (List.Subperm.refl _)
  rw [givenUp, List.append_assoc, List.append_assoc, List.append_assoc]
  refine hswitch.append (List.Subperm.trans ?_ hclosed.subperm)
  exact (List.Subperm.refl _).append hlive

/-- The frames that are given up or kept were kept before, or the packet joined them. -/
theorem mem_of_givenUp_or_live {f : FrameState}
    (hf : f ∈ m.givenUp p now ++ (m.assemble p now).1.live) :
    f ∈ m.live ∨ f = m.joined p now := by
  have hmem := (m.givenUp_subperm p now).subset hf
  rw [List.mem_append, List.mem_append, List.mem_singleton] at hmem
  rw [live, List.mem_append]
  rcases hmem with (hmem | hmem) | hmem
  · split_ifs at hmem
    · exact .inl (.inr hmem)
    · cases hmem
  · exact .inl (.inl hmem)
  · exact .inr hmem

/-! ## Recoveries -/

theorem fecRecovered_not_mem_emit (f : FrameState) (rawExtra : Option Bytes) (now : Int) :
    .fecRecovered ∉ f.emit rawExtra now := by
  intro h
  rcases List.mem_append.1 h with h | h
  · obtain ⟨kv, -, heq⟩ := List.mem_filterMap.1 h
    split_ifs at heq
    cases heq
  · split_ifs at h
    · cases h
    · cases List.mem_singleton.1 h

theorem fecRecovered_not_mem_finalizeFrame (explicitMarker : Bool) (now : Int)
    (hrec : m.cur.started = true → ∀ fec, m.cur.recover fec = none) :
    .fecRecovered ∉ (m.finalizeFrame explicitMarker now).2 := by
  rcases m.finalizeFrame_cases explicitMarker now with
    h | ⟨hst, h | ⟨raw, hraw, h⟩ | h | h⟩ <;> rw [h]
  · simp
  · exact fecRecovered_not_mem_emit _ _ _
  · rw [hrec hst m.fec] at hraw
    cases hraw
  · simp
  · simp

theorem fecRecovered_not_mem_expireLoop (now : Int) {zs : List FrameState}
    (hrec : ∀ z ∈ zs, ∀ fec, z.recover fec = none) (fec : TreeMap UInt32 Bytes) :
    .fecRecovered ∉ (expireLoop now fec zs).2.2 := by
  induction zs with
  | nil => simp [expireLoop]
  | cons z zs ih =>
    have hrest := ih fun z' hz' => hrec z' (List.mem_cons_of_mem z hz')
    simp only [expireLoop, hrec z List.mem_cons_self fec]
    split_ifs
    · simpa using hrest
    · exact hrest

/-- **Nothing is rebuilt** in a turn whose frames all cannot be recovered. -/
theorem fecRecovered_not_mem_assemble
    (hlive : ∀ f ∈ m.live, ∀ fec, f.recover fec = none)
    (hjoined : ∀ fec, (m.joined p now).recover fec = none) :
    .fecRecovered ∉ (m.assemble p now).2 := by
  have hcur : m.cur.started = true → ∀ fec, m.cur.recover fec = none := fun hst =>
    hlive m.cur (List.mem_append_right _ (by simp [current, hst]))
  rw [assemble_eq, List.mem_append, List.mem_append, not_or, not_or]
  refine ⟨⟨?_, ?_⟩, fecRecovered_not_mem_expireLoop now (fun z hz => ?_) _⟩
  · unfold switchFrame
    split_ifs
    · exact fecRecovered_not_mem_finalizeFrame false now hcur
    · simp
  · unfold closed
    split_ifs
    · exact fecRecovered_not_mem_finalizeFrame true now fun _ => by rwa [m.withPacket_cur p now]
    · simp
  · rcases m.closed_spec p now with ⟨fec', -, hm, -⟩ | ⟨-, fec', parked, -, hparked, -, hm, -⟩
    · rw [hm] at hz
      exact hlive z (List.mem_append_left _ hz)
    · rw [hm] at hz
      rcases List.mem_append.1 hz with hz | hz
      · exact hlive z (List.mem_append_left _ hz)
      · exact List.mem_singleton.1 (hparked.subset hz) ▸ hjoined

end Assembler

end Rtstream
