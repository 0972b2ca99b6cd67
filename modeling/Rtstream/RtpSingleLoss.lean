import Mathlib.Data.List.Forall2
import Rtstream.RtpIntegrity
import Rtstream.RtpStreamLength

/-!
# One packet of a frame is lost

All packets of a frame but packet `i` arrive, in order, and the parity is there in time.
`single_loss_iff`: the frame is output as if nothing had been lost if and only if packet `i` is
neither the first nor the last one and no other packet is longer.

* Without the first packet the frame looks complete, and is output without it.
* Without the last packet there is no marker, and the frame is given up.
* A shorter packet is rebuilt with zeros behind it, and the zeros go into the stream.
-/

namespace Rtstream.Assembler

open Std (TreeMap)
open Holes RaggedXor

variable {F : SentFrame} {js : List ℕ} {c : Int} {m : Assembler}

/-! ## Until the last packet -/

/-- Of the frame the packets `js` have arrived, the first of them with capture time `c`, and
nothing has been made of them yet. -/
structure Gathered (F : SentFrame) (js : List ℕ) (c : Int) (m : Assembler) : Prop where
  zombies : ∀ z ∈ m.zombies, z.ts ≠ F.ts
  unseen : js = [] → m.cur.started = true → m.cur.ts ≠ F.ts
  cur : ∀ j, js.head? = some j → Collected F (fun i => js.contains i) m.cur ∧
    m.cur.firstSeq = F.seqAt j ∧ m.cur.captureMs = c

theorem contains_snoc (js : List ℕ) (j : ℕ) :
    (fun i => (js ++ [j]).contains i) = fun i => js.contains i || i == j := by
  funext i
  rw [Bool.eq_iff_iff]
  simp

namespace Gathered

theorem joined (h : Gathered F js c m) {j : ℕ} {p : RtpPkt} (hp : F.Carries j p)
    (hc : js = [] → p.captureMs = c) (now : Int) :
    (∀ k, (js ++ [j]).head? = some k → Collected F (fun i => (js ++ [j]).contains i)
      (m.joined p now) ∧ (m.joined p now).firstSeq = F.seqAt k ∧
        (m.joined p now).captureMs = c) ∧
      (m.cur.started = true → p.ts ≠ m.cur.ts → m.cur.ts ≠ F.ts) ∧
      (js ≠ [] → m.switches p = false) := by
  obtain ⟨-, hseq, hts, -⟩ := SentFrame.fields_of_carries hp
  cases js with
  | nil =>
    have hsw : m.switches p = true := by
      cases hst : m.cur.started with
      | false => simp [switches, hst]
      | true => simpa [switches, hst, hts] using (h.unseen rfl hst).symm
    refine ⟨fun k hk => ?_, fun hst _ => h.unseen rfl hst, fun hne => absurd rfl hne⟩
    obtain rfl := Option.some.inj hk
    rw [Assembler.joined, if_pos hsw]
    rw [contains_snoc]
    exact ⟨Collected.openFrame hp now, hseq, hc rfl⟩
  | cons j₀ js =>
    obtain ⟨hcol, hfirst, hcap⟩ := h.cur j₀ rfl
    have hsw : m.switches p = false := by
      simp [switches, hcol.started, hcol.ts, hts]
    refine ⟨fun k hk => ?_, fun _ hne => absurd (hts.trans hcol.ts.symm) hne, fun _ => hsw⟩
    obtain rfl := Option.some.inj hk
    rw [Assembler.joined, if_neg (by rw [hsw]; exact Bool.false_ne_true)]
    rw [contains_snoc]
    exact ⟨hcol.addPacket hp, hfirst, hcap⟩

theorem unit (h : Gathered F js c m) {j : ℕ} {p : RtpPkt} (hp : F.Carries j p)
    (hj : j + 1 ≠ F.packets.length) (hc : js = [] → p.captureMs = c) (now : Int) :
    Gathered F (js ++ [j]) c (m.assemble p now).1 ∧
      ∀ o ∈ outputs (m.assemble p now).2, o.1.ts ≠ F.ts := by
  obtain ⟨-, -, -, hmark, -⟩ := SentFrame.fields_of_carries hp
  have hmark' : p.marker = false := by rw [hmark]; simpa using hj
  obtain ⟨hjoined, hcur, -⟩ := h.joined hp hc now
  have hcur' : (m.assemble p now).1.cur = m.joined p now :=
    (m.assemble_cur p now).resolve_right fun hm => by rw [hmark'] at hm; cases hm.1
  refine ⟨⟨fun z hz => ?_, fun hnil => by simp at hnil, fun k hk => ?_⟩, ?_⟩
  · rcases mem_zombies_assemble hz with hz | ⟨hm, -⟩
    · exact h.zombies z hz
    · rw [hmark'] at hm
      cases hm
  · rw [hcur']
    exact hjoined k hk
  · rintro ⟨src, rawExtra⟩ ho
    rcases mem_outputs_assemble ho with ⟨rfl, hst, hts, -⟩ | ⟨-, hm, -⟩ | ⟨hz, -⟩
    · exact hcur hst hts
    · rw [hmark'] at hm
      cases hm
    · exact h.zombies src hz

theorem run {is : List AsmInput} {js' : List ℕ} (h : Gathered F js c m)
    (hkept : List.Forall₂ F.Carries js' (units is))
    (hjs : ∀ j ∈ js', j + 1 ≠ F.packets.length)
    (hc : js = [] → ∀ p ∈ (units is).head?, p.captureMs = c) :
    Gathered F (js ++ js') c (Runs.after Assembler.step m is) ∧
      ∀ o ∈ outputs (Runs.trace Assembler.step m is), o.1.ts ≠ F.ts := by
  induction is generalizing js js' m with
  | nil =>
    cases hkept
    rw [List.append_nil]
    exact ⟨h, fun o ho => by cases ho⟩
  | cons i is ih =>
    cases i with
    | unit p now =>
      rw [units_unit] at hkept
      cases hkept with
      | @cons j _ js'' _ hp hkept =>
        obtain ⟨hunit, hout⟩ := h.unit hp (hjs j List.mem_cons_self)
          (fun hnil => hc hnil p rfl) now
        obtain ⟨hrest, hout'⟩ := ih hunit hkept (fun k hk => hjs k (List.mem_cons_of_mem j hk))
          (fun hnil => by simp at hnil)
        rw [List.append_assoc] at hrest
        refine ⟨hrest, ?_⟩
        intro o ho
        rw [Runs.trace_cons, outputs_append] at ho
        rcases List.mem_append.1 ho with ho | ho
        · exact hout o ho
        · exact hout' o ho
    | parity key bytes =>
      obtain ⟨fec', hm, -⟩ := m.storeParity_spec key bytes
      refine ih (m := m.storeParity key bytes) ?_ hkept hjs hc
      rw [hm]
      exact ⟨h.zombies, h.unseen, h.cur⟩

end Gathered

/-! ## From the last packet on -/

/-- Nothing but the frame's parity is stored under the key. -/
def OwnParity (F : SentFrame) (key : UInt32) (fec : TreeMap UInt32 Bytes) : Prop :=
  ∀ v, fec[key]? = some v → v = F.parity

/-- What there is of the frame is the frame state `g`. -/
structure Settled (F : SentFrame) (g : FrameState) (P : TreeMap UInt32 Bytes → Prop)
    (m : Assembler) : Prop where
  cur : m.cur.started = true → m.cur.ts = F.ts → m.cur = g
  zombies : ∀ z ∈ m.zombies, z.ts = F.ts → z = g
  fec : P m.fec

/-- What is output of the frame is `g`, at a time when it is ready. -/
def FromState (F : SentFrame) (g : FrameState) (P : TreeMap UInt32 Bytes → Prop)
    (o : FrameState × Option Bytes) : Prop :=
  o.1.ts = F.ts → o.1 = g ∧ ∃ fec, P fec ∧ g.ready fec = some o.2

theorem OwnParity.shrinks {key : UInt32} {fec fec' : TreeMap UInt32 Bytes}
    (h : OwnParity F key fec) (hs : Shrinks fec fec') : OwnParity F key fec' :=
  fun v hv => h v (hs _ _ hv)

/-- It stays so when a parity is stored that is the frame's, or has another key. -/
theorem OwnParity.storeParity {key : UInt32} (h : OwnParity F key m.fec) {key' : UInt32}
    {bytes : Bytes} (hown : key' = key → bytes = F.parity) :
    OwnParity F key (m.storeParity key' bytes).fec := by
  intro v hv
  obtain ⟨fec', heq, hfec⟩ := m.storeParity_spec key' bytes
  rw [heq] at hv
  rcases hfec _ _ hv with ⟨hkey, rfl⟩ | hv
  · exact hown hkey.symm
  · exact h v hv

variable {g : FrameState} {P : TreeMap UInt32 Bytes → Prop}

/-- The last packet that arrives settles the frame state. -/
theorem Gathered.settled (h : Gathered F js c m) {j : ℕ} {p : RtpPkt} (hp : F.Carries j p)
    (hc : js = [] → p.captureMs = c) (now : Int) (hP : P m.fec)
    (hshrink : ∀ fec', Shrinks m.fec fec' → P fec') :
    Settled F (m.joined p now) P (m.assemble p now).1 ∧
      ∀ o ∈ outputs (m.assemble p now).2, FromState F (m.joined p now) P o := by
  obtain ⟨-, hcur, -⟩ := h.joined hp hc now
  refine ⟨⟨fun hst _ => ?_, fun z hz hts => ?_, hshrink _ (m.assemble_shrinks p now)⟩, ?_⟩
  · exact assemble_cur_of_started hst
  · rcases mem_zombies_assemble hz with hz | ⟨-, rfl, -⟩
    · exact absurd hts (h.zombies z hz)
    · rfl
  · rintro ⟨src, rawExtra⟩ ho hts
    rcases mem_outputs_assemble ho with ⟨rfl, hst, hne, -⟩ | ⟨rfl, -, -, hr⟩ | ⟨hz, -⟩
    · exact absurd hts (hcur hst hne)
    · exact ⟨rfl, m.fec, hP, hr⟩
    · exact absurd hts (h.zombies src hz)

/-- Packets of other frames leave it settled. -/
theorem Settled.unit (h : Settled F g P m) {p : RtpPkt} (hp : p.ts ≠ F.ts) (now : Int)
    (hshrink : ∀ fec', Shrinks m.fec fec' → P fec') :
    Settled F g P (m.assemble p now).1 ∧
      ∀ o ∈ outputs (m.assemble p now).2, FromState F g P o := by
  have hjoined := m.joined_ts p now
  refine ⟨⟨fun hst hts => ?_, fun z hz hts => ?_, hshrink _ (m.assemble_shrinks p now)⟩, ?_⟩
  · rw [assemble_cur_of_started hst, hjoined] at hts
    exact absurd hts hp
  · rcases mem_zombies_assemble hz with hz | ⟨-, rfl, -⟩
    · exact h.zombies z hz hts
    · exact absurd (hjoined.symm.trans hts) hp
  · rintro ⟨src, rawExtra⟩ ho hts
    rcases mem_outputs_assemble ho with ⟨rfl, hst, -, hr⟩ | ⟨rfl, -, -⟩ | ⟨hz, hr⟩
    · obtain hg := h.cur hst hts
      exact ⟨hg, m.fec, h.fec, hg ▸ hr⟩
    · exact absurd (hjoined.symm.trans hts) hp
    · obtain hg := h.zombies src hz hts
      exact ⟨hg, m.fec, h.fec, hg ▸ hr⟩

theorem Settled.run (h : Settled F g P m) {is : List AsmInput} (his : ∀ p ∈ units is, p.ts ≠ F.ts)
    (hshrink : ∀ fec fec', P fec → Shrinks fec fec' → P fec')
    (hstore : ∀ m : Assembler, P m.fec → ∀ key bytes, .parity key bytes ∈ is →
      P (m.storeParity key bytes).fec) :
    ∀ o ∈ outputs (Runs.trace Assembler.step m is), FromState F g P o := by
  induction is generalizing m with
  | nil => exact fun o ho => by cases ho
  | cons i is ih =>
    have hstore' : ∀ m : Assembler, P m.fec → ∀ key bytes, .parity key bytes ∈ is →
        P (m.storeParity key bytes).fec := fun m hm key bytes hmem =>
      hstore m hm key bytes (List.mem_cons_of_mem i hmem)
    cases i with
    | unit p now =>
      obtain ⟨hunit, hout⟩ := h.unit (his p List.mem_cons_self) now fun fec' => hshrink _ _ h.fec
      intro o ho
      rw [Runs.trace_cons, outputs_append] at ho
      rcases List.mem_append.1 ho with ho | ho
      · exact hout o ho
      · exact ih hunit (fun q hq => his q (List.mem_cons_of_mem p hq)) hstore' o ho
    | parity key bytes =>
      have hfec := hstore m h.fec key bytes List.mem_cons_self
      obtain ⟨fec', hm, -⟩ := m.storeParity_spec key bytes
      refine ih (m := m.storeParity key bytes) ⟨?_, ?_, hfec⟩ his hstore'
      · rw [hm]
        exact h.cur
      · rw [hm]
        exact h.zombies

/-! ## All packets but one -/

/-- All of the first `n` but `i`. -/
def allBut (n i : ℕ) (j : ℕ) : Bool := decide (j < n ∧ j ≠ i)

theorem mem_eraseIdx_range {n i j : ℕ} : j ∈ (List.range n).eraseIdx i ↔ j < n ∧ j ≠ i := by
  rw [List.mem_eraseIdx_iff_getElem]
  constructor
  · intro h
    obtain ⟨k, hk, hki, rfl⟩ := h
    rw [List.getElem_range]
    exact ⟨by simpa using hk, hki⟩
  · intro h
    obtain ⟨hj, hji⟩ := h
    exact ⟨j, by simpa using hj, hji, List.getElem_range _⟩

theorem contains_eraseIdx (n i : ℕ) :
    (fun j => ((List.range n).eraseIdx i).contains j) = allBut n i := by
  funext j
  rw [Bool.eq_iff_iff, List.contains_iff_mem, mem_eraseIdx_range, allBut, decide_eq_true_eq]

theorem kept_spec {n i l : ℕ} {js : List ℕ} (hn : 2 ≤ n)
    (h : (List.range n).eraseIdx i = js ++ [l]) :
    (∀ j ∈ js, j + 1 ≠ n) ∧ (js ++ [l]).head? = some (if i = 0 then 1 else 0) ∧
      (0 < i → i + 1 < n → js ≠ [] ∧ l + 1 = n) := by
  have hmem : ∀ j, j ∈ js ++ [l] ↔ j < n ∧ j ≠ i := fun j => by rw [← h, mem_eraseIdx_range]
  have hlt : ∀ j ∈ js, j < l := by
    have := (List.pairwise_lt_range (n := n)).sublist (List.eraseIdx_sublist _ i)
    rw [h] at this
    exact fun j hj => (List.pairwise_append.1 this).2.2 j hj l (List.mem_singleton_self l)
  have hl : l < n := ((hmem l).1 (by simp)).1
  refine ⟨?_, ?_, fun hi0 hi1 => ⟨?_, ?_⟩⟩
  · intro j hj
    have := hlt j hj
    omega
  · rw [← h, List.head?_eq_getElem?, List.getElem?_eraseIdx]
    split_ifs with h0 h1 h1
    · omega
    · rw [List.getElem?_range (by omega)]
    · rw [List.getElem?_range (by omega)]
    · omega
  · -- Packet 0 is there, and the last one, too.
    rintro rfl
    have h0 := (hmem 0).2 ⟨by omega, by omega⟩
    have h1 := (hmem (n - 1)).2 ⟨by omega, by omega⟩
    simp at h0 h1
    omega
  · have h1 := (hmem (n - 1)).2 ⟨by omega, by omega⟩
    rcases List.mem_append.1 h1 with h1 | h1
    · have := hlt _ h1
      omega
    · have := List.mem_singleton.1 h1
      omega

variable {i : ℕ} {fec : TreeMap UInt32 Bytes}

/-- Without the last packet the frame state is never ready. -/
theorem ready_of_last_lost (h : Collected F (allBut F.packets.length i) g)
    (hi : i + 1 = F.packets.length) : g.ready fec = none := by
  apply FrameState.ready_of_not_marker
  rw [h.marker, allBut, decide_eq_false_iff_not]
  omega

/-- Without the first packet it looks complete. -/
theorem ready_of_first_lost (fec : TreeMap UInt32 Bytes)
    (h : Collected F (allBut F.packets.length 0) g)
    (hfirst : g.firstSeq = F.seqAt 1) (hn : 2 ≤ F.packets.length) :
    g.ready fec = some none ∧ g.ordered none = F.packets.drop 1 := by
  have hle : ∀ i < F.packets.length, allBut F.packets.length 0 i = true → 1 ≤ i := by
    intro i _ hi
    simp only [allBut, decide_eq_true_eq] at hi
    omega
  have hlast : allBut F.packets.length 0 (F.packets.length - 1) = true := by
    simp only [allBut, decide_eq_true_eq]
    omega
  obtain ⟨hwithin, -, hspan⟩ := h.span_eq hfirst hle hlast
  have hsize : g.raws.size = F.packets.length - 1 := by
    rw [h.size_eq, countP_range_eq_pred_iff (by omega)]
    refine ⟨0, by omega, by simp [allBut], ?_⟩
    intro i hi h0
    simp [allBut, hi, h0]
  constructor
  · rw [FrameState.ready, FrameState.complete, hsize, hspan, h.marker, hlast, beq_self_eq_true,
      Bool.and_true, if_pos rfl]
  · rw [FrameState.ordered_none hwithin, h.known_eq hfirst hle hlast]
    apply List.ext_getElem (by simp)
    intro j hj _
    have hj' : 1 + j < F.packets.length := by
      simp at hj
      omega
    have hA : allBut F.packets.length 0 (1 + j) = true := by
      simp only [allBut, decide_eq_true_eq]
      omega
    rw [List.getElem_drop, List.getElem_drop, getElem_mask, if_pos hA]
    rfl

/-- Without a packet in between, it is ready with that packet rebuilt. -/
theorem ready_of_middle_lost (h : Collected F (allBut F.packets.length i) g)
    (hfirst : g.firstSeq = F.seqAt 0) (hi0 : 0 < i) (hi : i + 1 < F.packets.length)
    {rawExtra : Option Bytes} (hown : OwnParity F (toUInt32 g.captureMs) fec)
    (hr : g.ready fec = some rawExtra) :
    rawExtra = some (pad (maxLen F.packets) F.packets[i]) := by
  unfold FrameState.ready at hr
  split_ifs at hr with hc
  · have := h.all_of_complete hfirst hc i (by omega)
    simp [allBut] at this
  · obtain ⟨raw, hraw, rfl⟩ := Option.map_eq_some_iff.1 hr
    have hfec : fec[toUInt32 g.captureMs]? = some F.parity := by
      cases hk : fec[toUInt32 g.captureMs]? with
      | none => rw [FrameState.recover, hk] at hraw; cases hraw
      | some v => rw [hown v hk]
    obtain ⟨j, hj, -, hA, -, rfl⟩ := (h.recover_spec hfirst hfec).1 hraw
    obtain rfl : j = i := by
      simp only [allBut, decide_eq_false_iff_not] at hA
      omega
    rfl

theorem ordered_of_middle_lost (h : Collected F (allBut F.packets.length i) g)
    (hfirst : g.firstSeq = F.seqAt 0) (hi0 : 0 < i) (hi : i + 1 < F.packets.length) :
    g.ordered (some (pad (maxLen F.packets) F.packets[i])) =
      F.packets.set i (pad (maxLen F.packets) F.packets[i]) := by
  refine h.ordered_rebuilt hfirst ?_ (by omega) (by simp [allBut]) (fun j hj hji => ?_) _
  · simp only [allBut, decide_eq_true_eq]
    omega
  · simp [allBut, hj, hji]

/-! ## The frame is output, or not -/

/-- The frame is output with the stream that its packets make when all of them are there. -/
def OutputInFull (F : SentFrame) (es : List RtpEffect) : Prop :=
  ∃ src rawExtra f, .out src rawExtra f ∈ es ∧ src.ts = F.ts ∧
    f.data = (Depacketizer.run F.packets).annexb

theorem outputInFull_iff (is : List AsmInput) :
    OutputInFull F (Runs.trace Assembler.step m is) ↔
      ∃ o ∈ outputs (Runs.trace Assembler.step m is), o.1.ts = F.ts ∧
        (Depacketizer.run (o.1.ordered o.2)).annexb = (Depacketizer.run F.packets).annexb := by
  constructor
  · intro h
    obtain ⟨src, rawExtra, f, hout, hts, hdata⟩ := h
    rw [madeOf_trace m is _ hout src rawExtra f rfl] at hdata
    exact ⟨(src, rawExtra), mem_outputs.2 ⟨f, hout⟩, hts, hdata⟩
  · intro h
    obtain ⟨⟨src, rawExtra⟩, ho, hts, hdata⟩ := h
    obtain ⟨f, hout⟩ := mem_outputs.1 ho
    refine ⟨src, rawExtra, f, hout, hts, ?_⟩
    rw [madeOf_trace m is _ hout src rawExtra f rfl]
    exact hdata

theorem forall₂_concat {is : List ℕ} {ps : List RtpPkt} {p : RtpPkt}
    (h : List.Forall₂ F.Carries is (ps ++ [p])) :
    ∃ js l, List.Forall₂ F.Carries js ps ∧ F.Carries l p ∧ is = js ++ [l] := by
  have hinit := List.forall₂_take_append is ps [p] h
  have hlast := List.forall₂_drop_append is ps [p] h
  obtain ⟨l, us, hl, hnil, heq⟩ := List.forall₂_cons_right_iff.1 hlast
  rw [List.forall₂_nil_right_iff] at hnil
  subst hnil
  exact ⟨is.take ps.length, l, hinit, hl, by rw [← heq, List.take_append_drop]⟩

theorem fromState_of_single_loss {i : ℕ} (hn : 2 ≤ F.packets.length)
    (hzombies : ∀ z ∈ m.zombies, z.ts ≠ F.ts) (hcur : m.cur.started = true → m.cur.ts ≠ F.ts)
    {is rest : List AsmInput} {last : RtpPkt} {now : Int}
    (hkept : List.Forall₂ F.Carries ((List.range F.packets.length).eraseIdx i)
      (units is ++ [last]))
    (hc : ∀ p ∈ (units is ++ [last]).head?, p.captureMs = c)
    (hstored : i + 1 < F.packets.length →
      (Runs.after Assembler.step m is).fec[toUInt32 c]? = some F.parity)
    (hown : ∀ bytes, .parity (toUInt32 c) bytes ∈ rest → bytes = F.parity)
    (hrest : ∀ p ∈ units rest, p.ts ≠ F.ts) :
    let m₁ := Runs.after Assembler.step m is
    let g := m₁.joined last now
    Collected F (allBut F.packets.length i) g ∧ g.captureMs = c ∧
      g.firstSeq = F.seqAt (if i = 0 then 1 else 0) ∧
      (0 < i → i + 1 < F.packets.length → m₁.switches last = false ∧ last.marker = true) ∧
      ∀ o ∈ outputs (Runs.trace Assembler.step m (is ++ .unit last now :: rest)),
        FromState F g (fun fec => i + 1 < F.packets.length → OwnParity F (toUInt32 c) fec) o := by
  -- The last packet that arrives is packet `l`, and those before it are `js`.
  obtain ⟨js, l, hjs, hl, heq⟩ := forall₂_concat hkept
  obtain ⟨hnot, hhead, hmiddle⟩ := kept_spec hn heq
  have hnil : js = [] → units is = [] := fun h => by
    rw [h] at hjs
    exact List.forall₂_nil_left_iff.1 hjs
  have hfresh : Gathered F [] c m := ⟨hzombies, fun _ => hcur, fun j hj => by cases hj⟩
  obtain ⟨hgathered, hout⟩ := hfresh.run hjs hnot fun _ p hp => hc p (by
    rw [List.head?_append]
    exact Option.mem_def.1 hp ▸ rfl)
  rw [List.nil_append] at hgathered
  have hclast : js = [] → last.captureMs = c := fun h => hc last (by rw [hnil h]; rfl)
  intro m₁ g
  obtain ⟨hjoined, -, hsw⟩ := hgathered.joined hl hclast now
  obtain ⟨hcol, hfirst, hcap⟩ := hjoined _ hhead
  rw [← heq, contains_eraseIdx] at hcol
  refine ⟨hcol, hcap, hfirst, ?_, ?_⟩
  · intro hi0 hi1
    obtain ⟨hne, hlast⟩ := hmiddle hi0 hi1
    obtain ⟨-, -, -, hmark, -⟩ := SentFrame.fields_of_carries hl
    exact ⟨hsw hne, by rw [hmark]; simpa using hlast⟩
  · have hP : i + 1 < F.packets.length → OwnParity F (toUInt32 c) m₁.fec := fun hi1 v hv =>
      (Option.some.inj ((hstored hi1).symm.trans hv)).symm
    have hshrink : ∀ fec fec', (i + 1 < F.packets.length → OwnParity F (toUInt32 c) fec) →
        Shrinks fec fec' → i + 1 < F.packets.length → OwnParity F (toUInt32 c) fec' :=
      fun _ _ h hs hi1 => (h hi1).shrinks hs
    obtain ⟨hsettled, hout'⟩ := hgathered.settled hl hclast now hP (hshrink _ · hP)
    have hout'' := hsettled.run hrest hshrink fun m hm key bytes hmem hi1 =>
      (hm hi1).storeParity fun hkey => hown bytes (hkey ▸ hmem)
    intro o ho
    rw [Runs.trace_append, Runs.trace_cons, outputs_append, outputs_append] at ho
    rcases List.mem_append.1 ho with ho | ho
    · exact fun hts => absurd hts (hout o ho)
    · rcases List.mem_append.1 ho with ho | ho
      · exact hout' o ho
      · exact hout'' o ho

theorem outputInFull_of_middle_lost {is rest : List AsmInput} {last : RtpPkt} {now : Int}
    (hi : i < F.packets.length) (hi0 : 0 < i) (hi1 : i + 1 < F.packets.length)
    (hcol : Collected F (allBut F.packets.length i)
      ((Runs.after Assembler.step m is).joined last now))
    (hfirst : ((Runs.after Assembler.step m is).joined last now).firstSeq = F.seqAt 0)
    (hparity : (Runs.after Assembler.step m is).fec[
      toUInt32 ((Runs.after Assembler.step m is).joined last now).captureMs]? = some F.parity)
    (hsw : (Runs.after Assembler.step m is).switches last = false) (hmark : last.marker = true)
    (hlong : F.packets[i].length = maxLen F.packets)
    (hne : (Depacketizer.run F.packets).annexb ≠ []) :
    OutputInFull F (Runs.trace Assembler.step m (is ++ .unit last now :: rest)) := by
  set m₁ := Runs.after Assembler.step m is with hm₁
  have hr : (m₁.joined last now).ready m₁.fec =
      some (some (pad (maxLen F.packets) F.packets[i])) := by
    refine FrameState.ready_of_recover
      ((hcol.recover_spec hfirst hparity).2
        ⟨i, hi, ?_, by simp [allBut], fun j hj hji => by simp [allBut, hj, hji], rfl⟩)
    simp only [allBut, decide_eq_true_eq]
    omega
  have hordered := ordered_of_middle_lost hcol hfirst hi0 hi1
  have hpad : pad (maxLen F.packets) F.packets[i] = F.packets[i] := by rw [← hlong, pad_self]
  rw [hpad, List.set_getElem_self] at hordered
  rw [hpad] at hr
  have hmem := mem_outputs_of_ready hsw hmark hr (by rw [hordered]; exact hne)
  refine (outputInFull_iff _).2
    ⟨(m₁.joined last now, some F.packets[i]), ?_, hcol.ts, by rw [hordered]⟩
  rw [Runs.trace_append, Runs.trace_cons, outputs_append, outputs_append]
  exact List.mem_append_right _ (List.mem_append_left _ hmem)

/-- With the first packet lost the stream is shorter, with a shorter one filled up it is longer. -/
theorem middle_of_output (hplain : F.Plain) (hi : i < F.packets.length)
    (hn : 2 ≤ F.packets.length) (hcol : Collected F (allBut F.packets.length i) g)
    (hfirst : g.firstSeq = F.seqAt (if i = 0 then 1 else 0))
    (hown : i + 1 < F.packets.length → OwnParity F (toUInt32 g.captureMs) fec)
    {rawExtra : Option Bytes} (hr : g.ready fec = some rawExtra)
    (hdata : (Depacketizer.run (g.ordered rawExtra)).annexb =
      (Depacketizer.run F.packets).annexb) :
    0 < i ∧ i + 1 < F.packets.length ∧ F.packets[i].length = maxLen F.packets := by
  by_cases hlast : i + 1 = F.packets.length
  · rw [ready_of_last_lost hcol hlast] at hr
    cases hr
  by_cases hi0 : i = 0
  · -- It is output without its first packet.
    subst hi0
    rw [if_pos rfl] at hfirst
    obtain ⟨hready, hordered⟩ := ready_of_first_lost fec hcol hfirst hn
    rw [← Option.some.inj (hready.symm.trans hr), hordered] at hdata
    have hless := SentFrame.length_annexb_drop hplain
    rw [hdata] at hless
    exact absurd hless (lt_irrefl _)
  · have hi1 : i + 1 < F.packets.length := by omega
    refine ⟨by omega, hi1, ?_⟩
    rw [if_neg hi0] at hfirst
    rw [ready_of_middle_lost hcol hfirst (by omega) hi1 (hown hi1) hr,
      ordered_of_middle_lost hcol hfirst (by omega) hi1] at hdata
    -- The zeros behind a shorter packet are in the stream.
    by_contra hshort
    have hle := length_le_maxLen (List.getElem_mem hi)
    have hmore := SentFrame.length_annexb_set hplain hi
      (z := maxLen F.packets - F.packets[i].length) (by omega)
    rw [show F.packets[i] ++ List.replicate (maxLen F.packets - F.packets[i].length) 0 =
      pad (maxLen F.packets) F.packets[i] from rfl, hdata] at hmore
    exact absurd hmore (lt_irrefl _)

/-- **One packet of a frame is lost.** All other packets of the frame arrive in order, then other
frames' packets. The parity is stored when the frame's marker arrives, and no other one is stored
under its key. If no NALU is of type 28, the frame is output in full if and only if the lost
packet is neither the first nor the last one and no other packet is longer. If one is, this is
still enough. -/
theorem single_loss_iff (F : SentFrame) (i : ℕ) (hi : i < F.packets.length)
    (hn : 2 ≤ F.packets.length) (m : Assembler) (hzombies : ∀ z ∈ m.zombies, z.ts ≠ F.ts)
    (hcur : m.cur.started = true → m.cur.ts ≠ F.ts) (is : List AsmInput) (last : RtpPkt)
    (now : Int) (rest : List AsmInput) (c : Int)
    (hkept : List.Forall₂ F.Carries ((List.range F.packets.length).eraseIdx i)
      (units is ++ [last]))
    (hc : ∀ p ∈ (units is ++ [last]).head?, p.captureMs = c)
    (hstored : i + 1 < F.packets.length →
      (Runs.after Assembler.step m is).fec[toUInt32 c]? = some F.parity)
    (hown : ∀ bytes, .parity (toUInt32 c) bytes ∈ rest → bytes = F.parity)
    (hrest : ∀ p ∈ units rest, p.ts ≠ F.ts) :
    (F.Plain →
      (OutputInFull F (Runs.trace Assembler.step m (is ++ .unit last now :: rest)) ↔
        0 < i ∧ i + 1 < F.packets.length ∧ F.packets[i].length = maxLen F.packets)) ∧
    ((Depacketizer.run F.packets).annexb ≠ [] → 0 < i → i + 1 < F.packets.length →
      F.packets[i].length = maxLen F.packets →
        OutputInFull F (Runs.trace Assembler.step m (is ++ .unit last now :: rest))) := by
  obtain ⟨hcol, hcap, hfirst, hmiddle, hout⟩ :=
    fromState_of_single_loss hn hzombies hcur hkept hc hstored hown hrest
  set m₁ := Runs.after Assembler.step m is with hm₁
  have henough : (Depacketizer.run F.packets).annexb ≠ [] → 0 < i → i + 1 < F.packets.length →
      F.packets[i].length = maxLen F.packets →
        OutputInFull F (Runs.trace Assembler.step m (is ++ .unit last now :: rest)) := by
    intro hne hi0 hi1 hlong
    obtain ⟨hsw, hmark⟩ := hmiddle hi0 hi1
    rw [if_neg (by omega)] at hfirst
    exact outputInFull_of_middle_lost hi hi0 hi1 hcol hfirst (by rw [hcap]; exact hstored hi1)
      hsw hmark hlong hne
  refine ⟨fun hplain => ⟨fun h => ?_, fun ⟨hi0, hi1, hlong⟩ => ?_⟩, henough⟩
  · obtain ⟨o, ho, hts, hdata⟩ := (outputInFull_iff _).1 h
    obtain ⟨hg, fec, hP, hr⟩ := hout o ho hts
    rw [hg] at hdata
    exact middle_of_output hplain hi hn hcol hfirst (by rw [hcap]; exact hP) hr hdata
  · have := SentFrame.length_annexb_drop hplain
    exact henough (List.ne_nil_of_length_pos (by omega)) hi0 hi1 hlong

/-- Three packets of one length, numbered from 5 on. -/
def sentThree : SentFrame where
  server := RtpServer.smallServer 5
  frame := { RtpServer.idrFrame with
    data := [0, 0, 0, 1, 0x65, 1, 0, 0, 1, 0x41, 2, 0, 0, 1, 0x41, 3] }
  packets := [RtpServer.rtpHeader false 5 3600 0 ++ [0x65, 1],
    RtpServer.rtpHeader false 6 3600 0 ++ [0x41, 2], RtpServer.rtpHeader true 7 3600 0 ++ [0x41, 3]]
  made := by decide +kernel
  ne_nil := by decide
  noWrap := by decide
  short := by decide

/-- The packet in the middle is lost, and recovered. -/
theorem single_loss_middle :
    OutputInFull sentThree (Runs.trace Assembler.step {}
      ([.unit ⟨5, 3600, false, 40, RtpServer.rtpHeader false 5 3600 0 ++ [0x65, 1]⟩ 0,
          .parity 40 sentThree.parity] ++
        .unit ⟨7, 3600, true, 40, RtpServer.rtpHeader true 7 3600 0 ++ [0x41, 3]⟩ 1 ::
        [.unit ⟨8, 7200, false, 80, RtpServer.rtpHeader false 8 7200 0 ++ [0x41, 4]⟩ 2])) := by
  refine (single_loss_iff sentThree 1 (by decide) (by decide) {} (fun z hz => by cases hz)
    (fun h => by cases h) _ _ 1 _ 40 ?_ (fun p hp => ?_) (fun _ => by decide +kernel)
    (fun bytes hb => by simp at hb) (fun p hp => ?_)).2 (by decide +kernel) (by decide) (by decide)
    (by decide +kernel)
  · exact .cons ⟨by decide, by decide +kernel⟩ (.cons ⟨by decide, by decide +kernel⟩ .nil)
  · obtain rfl := Option.some.inj hp
    rfl
  · obtain rfl := List.mem_singleton.1 hp
    decide +kernel

/-- The first of two packets is lost. The parity is stored, and the next frame comes. -/
theorem single_loss_first :
    sentIdr.Carries 1 ⟨6, 3600, true, 40, RtpServer.rtpHeader true 6 3600 0 ++ [0x41, 2]⟩ ∧
      ¬ OutputInFull sentIdr (Runs.trace Assembler.step {}
        [.parity 40 sentIdr.parity,
          .unit ⟨6, 3600, true, 40, RtpServer.rtpHeader true 6 3600 0 ++ [0x41, 2]⟩ 0,
          .unit ⟨7, 7200, true, 80, RtpServer.rtpHeader true 7 7200 0 ++ [0x41, 3]⟩ 1]) := by
  refine ⟨⟨by decide, by decide +kernel⟩, ?_⟩
  intro h
  obtain ⟨o, ho, hts, hdata⟩ := (outputInFull_iff _).1 h
  have hall : ∀ o ∈ outputs (Runs.trace Assembler.step {}
      [.parity 40 sentIdr.parity,
        .unit ⟨6, 3600, true, 40, RtpServer.rtpHeader true 6 3600 0 ++ [0x41, 2]⟩ 0,
        .unit ⟨7, 7200, true, 80, RtpServer.rtpHeader true 7 7200 0 ++ [0x41, 3]⟩ 1]),
      (Depacketizer.run (o.1.ordered o.2)).annexb ≠ (Depacketizer.run sentIdr.packets).annexb := by
    decide +kernel
  exact hall o ho hdata

end Rtstream.Assembler
