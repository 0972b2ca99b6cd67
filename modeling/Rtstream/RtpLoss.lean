import Rtstream.JitterBufferLoss
import Rtstream.RtpHoles

/-!
# What the RTP receiver counts as lost

The jitter buffer counts the numbers it skips, and the assembler the holes of the frames it gives
up. A number that is skipped inside a frame is a hole of the frame, too: it is counted once more
when the frame is given up, and stays counted when the frame's parity rebuilds the packet.

A ledger (`LossLedger`) goes with the run: which numbers were counted, and which packets handed
to the assembler.

* `lost_at_most_once`: in every run without evictions in which no gap is skipped backwards or
  inside a frame, no number is counted twice, none that is counted is in a frame that is output,
  and no count underflows. Gaps between frames may be skipped, and pushes may jump.
* `lost_twice`: a gap inside a frame, with and without its parity.

The invariant is `Accounted`: the numbers counted, the numbers handed out and the holes of the
frames that are kept are all different, and behind the due number.
-/

namespace Rtstream

open Std (TreeMap)
open JitterBuffer

namespace RtpReceiver

open RtpServer

/-! ## The ledger of a run -/

/-- What the steps add to `net_lost`. -/
def netLost (os : List RtpOutput) : ℕ :=
  (os.map fun
    | .jb (.lost n) => n.toNat
    | .asm (.lost n) => n.toNat
    | _ => 0).sum

/-- The call of the jitter buffer that a step makes. -/
def jbInput (rx : RtpReceiver) : RtpInput → Option (JbInput RtpPkt)
  | .datagram buf now =>
      if isRtp buf then
        (parseRtp buf).map fun p =>
          let p := { p with captureMs := (rx.extendTs90 p.ts now).tdiv 90 }
          .push p.seq.toUInt32 (p.captureMs * 1000) (some p) now
      else none
  | .pop now => some (.pop now)

/-- The packet that a step hands to the assembler. -/
def handedOut (rx : RtpReceiver) : RtpInput → Option RtpPkt
  | .datagram _ _ => none
  | .pop now => (rx.jb.pop now).2.1.bind (·.data)

/-- The frames that a step gives up. -/
def givenUp (rx : RtpReceiver) : RtpInput → List FrameState
  | .datagram _ _ => []
  | .pop now => (rx.handedOut (.pop now)).toList.flatMap fun p => rx.asm.givenUp p now

/-- What became of the packets, by their numbers. -/
structure LossLedger where
  charged : List ℕ := []
  popped : List ℕ := []
  givenUp : List FrameState := []

/-- The ledger after a step: the jitter buffer's counts, and the holes of the frames given up. -/
def bookStep (rx : RtpReceiver) (l : LossLedger) (i : RtpInput) : LossLedger where
  charged := l.charged ++ ((rx.jbInput i).toList.flatMap rx.jb.charges).map (·.toNat) ++
    (rx.givenUp i).flatMap FrameState.holes
  popped := l.popped ++ (rx.handedOut i).toList.map (·.seq.toNat)
  givenUp := l.givenUp ++ rx.givenUp i

/-- The ledger after a run. -/
def ledger (rx : RtpReceiver) (l : LossLedger) : List RtpInput → LossLedger
  | [] => l
  | i :: is => ledger (step rx i).1 (bookStep rx l i) is

/-- A gap is not skipped backwards, and not inside a frame: the packet behind it has another
timestamp than the frame being collected. -/
def SkipsBetweenFrames (rx : RtpReceiver) : RtpInput → Prop
  | .datagram _ _ => True
  | .pop now => rx.jb.buf[rx.jb.nextOut]? = none → rx.jb.waitsForHead now = false →
      ∀ kv, OrderedMap.first? rx.jb.buf = some kv → seqLt kv.1 rx.jb.nextOut = false ∧
        ∀ p, kv.2.data = some p → rx.asm.switches p = true

instance (rx : RtpReceiver) : DecidablePred (SkipsBetweenFrames rx)
  | .datagram _ _ => inferInstanceAs (Decidable True)
  | .pop now =>
    match hf : OrderedMap.first? rx.jb.buf with
    | none => .isTrue fun _ _ kv h => by simp [hf] at h
    | some kv => decidable_of_iff
        (rx.jb.buf[rx.jb.nextOut]?.isNone → rx.jb.waitsForHead now = false →
          seqLt kv.1 rx.jb.nextOut = false ∧ ∀ p ∈ kv.2.data, rx.asm.switches p = true)
        (by simp [SkipsBetweenFrames, hf])

variable {rx : RtpReceiver} {l : LossLedger} {os : List RtpOutput}

theorem SkipsBetweenFrames.joinsForward {i : RtpInput} (h : SkipsBetweenFrames rx i) :
    JoinsForward rx i := by
  cases i with
  | datagram buf now => trivial
  | pop now =>
    intro hmiss hw kv hf p hp hsw
    rw [(h hmiss hw kv hf).2 p hp] at hsw
    cases hsw

theorem netLost_append (os os' : List RtpOutput) :
    netLost (os ++ os') = netLost os + netLost os' := by simp [netLost]

/-- What the jitter buffer's events add is what the jitter buffer counts. -/
theorem netLost_jb (evs : List JbEvent) :
    netLost (evs.map .jb) =
      JitterBuffer.netLost (evs.map (.event : JbEvent → JbOutput RtpPkt)) := by
  rw [netLost, JitterBuffer.netLost, List.map_map, List.map_map]
  congr 1
  apply List.map_congr_left
  intro e _
  cases e <;> rfl

theorem netLost_asm (es : List RtpEffect) :
    netLost (es.map .asm) = ((Assembler.losts es).map (·.toNat)).sum := by
  induction es with
  | nil => rfl
  | cons e es ih =>
    rw [List.map_cons, ← List.singleton_append, netLost_append, ih]
    cases e <;> simp [netLost, Assembler.losts]

/-! ## What a pop passes -/

theorem toNat_numbersFrom {k : UInt32} {n : ℕ} (h : k.toNat + n ≤ 2 ^ 32) :
    (numbersFrom k n).map (·.toNat) = List.range' k.toNat n := by
  rw [numbersFrom, List.map_map, List.range'_eq_map_range]
  apply List.map_congr_left
  intro i hi
  have := List.mem_range.1 hi
  show (k + UInt32.ofNat i).toNat = k.toNat + i
  rw [UInt32.toNat_add, UInt32.toNat_ofNat']
  omega

/-- **A pop** hands out nothing, or the packet that is due, or, with `d` numbers skipped and
counted, a packet of another frame. -/
theorem pop_cases (h : Narrow rx.jb) {now : Int} (hskip : SkipsBetweenFrames rx (.pop now)) :
    ((rx.jb.pop now).2.1 = none ∧ (rx.jb.pop now).1.nextOut = rx.jb.nextOut ∧
      (rx.jb.pop now).1.started = rx.jb.started ∧ rx.jb.charges (.pop now) = []) ∨
    ∃ u p d, (rx.jb.pop now).2.1 = some u ∧ u.data = some p ∧
      p.seq.toNat = rx.jb.nextOut.toNat + d ∧ (d = 0 ∨ rx.asm.switches p = true) ∧
      (rx.jb.pop now).1.nextOut.toNat = p.seq.toNat + 1 ∧ (rx.jb.pop now).1.started = true ∧
      (rx.jb.charges (.pop now)).map (·.toNat) = List.range' rx.jb.nextOut.toNat d := by
  rcases pop_spec rx.jb now with ⟨hnone, -, hnext, hst, -⟩ | ⟨u, hst, hu, hsome, hjb⟩ |
      ⟨head, u, hst, hmiss, hw, hf, hsome, hjb⟩
  · exact .inl ⟨hnone, hnext, hst, charges_pop_of_quiet (lost_not_mem_pop _ (.inl hnone))⟩
  · right
    obtain ⟨p, hp, hk, -, hnext⟩ := h.takeOut hu now
    refine ⟨u, p, 0, hsome, hp, ?_, .inl rfl, hjb ▸ hnext, hjb ▸ hst, ?_⟩
    · rw [← hk, UInt16.toNat_toUInt32, Nat.add_zero]
    · rw [charges_pop_of_quiet (lost_not_mem_pop _ (.inr ⟨u, hu⟩))]
      rfl
  · right
    obtain ⟨p, hp, rfl, -, hnext⟩ := h.takeOut (OrderedMap.getElem?_first? hf) now
    obtain ⟨hfwd, hsw⟩ := hskip hmiss hw _ hf
    have hle : rx.jb.nextOut.toNat ≤ p.seq.toNat := by
      by_contra hlt
      rw [(h.seqLt_iff_lt p.seq).2 (Nat.lt_of_not_le hlt)] at hfwd
      cases hfwd
    have hlt := p.seq.toNat_lt
    have hdist : (seqDelta p.seq.toUInt32 rx.jb.nextOut).toNat =
        p.seq.toNat - rx.jb.nextOut.toNat := by
      rw [seqDelta, UInt32.toNat_sub, UInt16.toNat_toUInt32]
      omega
    refine ⟨u, p, p.seq.toNat - rx.jb.nextOut.toNat, hsome, hp, by omega, .inr (hsw p hp),
      hjb ▸ hnext, hjb ▸ hst, ?_⟩
    rw [charges, pop_events_of_skip rx.jb hst hmiss hw hf, List.flatMap_singleton]
    show (numbersFrom _ (seqDelta _ _).toNat).map _ = _
    rw [hdist, toNat_numbersFrom (by omega)]

/-! ## The invariant -/

/-- The numbers that are accounted for: counted, handed out, or a hole of a frame that is kept. -/
def accountedFor (l : LossLedger) (m : Assembler) : List ℕ :=
  l.charged ++ l.popped ++ m.live.flatMap FrameState.holes

/-- No number is accounted for twice, and all lie behind the due number; behind the last packet of
the frame being collected there are none. A frame has no holes or, after a jump, more than 1024. -/
structure Accounted (rx : RtpReceiver) (l : LossLedger) : Prop where
  inRange : InRange rx
  idle : rx.jb.started = false → rx.jb.nextOut = 0
  nodup : (accountedFor l rx.asm).Nodup
  before : ∀ x ∈ accountedFor l rx.asm, x < rx.jb.nextOut.toNat
  last : rx.asm.cur.started = true → ∃ e, rx.asm.cur.Ends e ∧
    (∀ x ∈ accountedFor l rx.asm, x ≤ e.toNat) ∧
    (rx.jb.nextOut.toNat = e.toNat + 1 ∨ e.toNat + 1025 < rx.jb.nextOut.toNat)
  keys : ∀ f ∈ rx.asm.live, ∀ k : UInt16, f.raws.contains k = true → k.toNat ∈ l.popped
  gaps : ∀ f ∈ rx.asm.live, f.holes = [] ∨ 1025 ≤ f.holes.length

/-- What holds of the ledger and of what was observed. -/
structure Settled (l : LossLedger) (os : List RtpOutput) : Prop where
  delivered : ∀ src rawExtra ef, .asm (.out src rawExtra ef) ∈ os → rawExtra = none ∧
    ∀ k : UInt16, src.raws.contains k = true → k.toNat ∈ l.popped
  rebuilt : .asm .fecRecovered ∉ os
  sizes : ∀ f ∈ l.givenUp, f.raws.size ≤ f.span.toNat
  total : netLost os = l.charged.length

theorem Accounted.within (h : Accounted rx l) {f : FrameState} (hf : f ∈ rx.asm.live) :
    f.Within := by
  rcases List.mem_append.1 hf with hf | hf
  · exact h.inRange.zombies f hf
  · rw [Assembler.current] at hf
    split_ifs at hf
    · exact List.mem_singleton.1 hf ▸ h.inRange.cur
    · cases hf

theorem mem_live_cur (hst : rx.asm.cur.started = true) : rx.asm.cur ∈ rx.asm.live :=
  List.mem_append_right _ (by simp [Assembler.current, hst])

theorem recover_of_gaps {f : FrameState} (hw : f.Within)
    (hg : f.holes = [] ∨ 1025 ≤ f.holes.length) (fec : TreeMap UInt32 Bytes) :
    f.recover fec = none := by
  apply FrameState.recover_eq_none hw
  rcases hg with hg | hg
  · rw [hg]
    decide
  · omega

/-- What is added to a list without repetition comes behind it, and once. -/
theorem nodup_of_count_le {old new : List ℕ} {a n : ℕ} (hold : old.Nodup)
    (hlt : ∀ x ∈ old, x < a)
    (hcount : ∀ x, new.count x ≤ old.count x + (List.range' a n).count x) :
    new.Nodup ∧ ∀ x ∈ new, x < a + n := by
  constructor
  · rw [List.nodup_iff_count_le_one]
    intro x
    have := hcount x
    by_cases hx : x < a
    · have hbefore := List.nodup_iff_count_le_one.1 hold x
      rw [@List.count_eq_zero _ _ _ x (List.range' a n) |>.2 fun hmem => by
        have := (List.mem_range'_1.1 hmem).1
        omega] at this
      omega
    · have hrange := List.nodup_iff_count_le_one.1 (List.nodup_range' (s := a) (n := n)) x
      rw [List.count_eq_zero.2 fun hmem => hx (hlt x hmem)] at this
      omega
  · intro x hx
    have hpos := List.count_pos_iff.2 hx
    have := hcount x
    by_cases hmem : x ∈ old
    · have := hlt x hmem
      omega
    · rw [List.count_eq_zero.2 hmem, Nat.zero_add] at this
      exact (List.mem_range'_1.1 (List.count_pos_iff.1 (hpos.trans_le this))).2

section HandOut

/-! ### A packet is handed out -/

variable {p : RtpPkt} {d : ℕ} {now : Int}

theorem Accounted.last_lt (h : Accounted rx l) (hseq : p.seq.toNat = rx.jb.nextOut.toNat + d)
    (hsw : rx.asm.switches p = false) :
    rx.asm.cur.started = true ∧ ∃ e, rx.asm.cur.Ends e ∧ e.toNat < p.seq.toNat := by
  have hst := Assembler.started_of_not_switches hsw
  obtain ⟨e, he, -, hnext⟩ := h.last hst
  exact ⟨hst, e, he, by omega⟩

theorem Accounted.joined_within (h : Accounted rx l)
    (hseq : p.seq.toNat = rx.jb.nextOut.toNat + d) (now : Int) :
    (rx.asm.joined p now).Within :=
  Assembler.joined_within h.inRange.cur fun hsw => by
    obtain ⟨hst, -⟩ := h.last_lt hseq hsw
    have := (h.inRange.begun hst).2
    omega

theorem Accounted.joined_ends (h : Accounted rx l)
    (hseq : p.seq.toNat = rx.jb.nextOut.toNat + d) (now : Int) :
    (rx.asm.joined p now).Ends p.seq := by
  cases hsw : rx.asm.switches p with
  | true => exact Assembler.ends_joined (l := 0) now fun h => by rw [hsw] at h; cases h
  | false =>
    obtain ⟨-, e, he, hlt⟩ := h.last_lt hseq hsw
    exact Assembler.ends_joined now fun _ => ⟨he, hlt.le⟩

/-- The frame that the packet joins has no holes, or more than 1024. -/
theorem Accounted.joined_gaps (h : Accounted rx l)
    (hseq : p.seq.toNat = rx.jb.nextOut.toNat + d) (hd : d = 0 ∨ rx.asm.switches p = true)
    (now : Int) :
    (rx.asm.joined p now).holes = [] ∨ 1025 ≤ (rx.asm.joined p now).holes.length := by
  cases hsw : rx.asm.switches p with
  | true => exact .inl (Assembler.holes_joined_of_switches now hsw)
  | false =>
    have hst := (h.last_lt hseq hsw).1
    obtain ⟨e, he, -, hnext⟩ := h.last hst
    obtain rfl : d = 0 := hd.resolve_right (by rw [hsw]; exact Bool.false_ne_true)
    rw [Assembler.holes_joined_of_not_switches now hsw h.inRange.cur he (by omega),
      List.length_append, List.length_range']
    rcases hnext with hnext | hnext
    · rw [show p.seq.toNat - e.toNat - 1 = 0 by omega, List.range'_zero, List.append_nil]
      simpa using h.gaps _ (mem_live_cur hst)
    · right
      omega

/-- The ledger after the packet has been handed out, `d` numbers behind the one that was due. -/
def bookPacket (rx : RtpReceiver) (l : LossLedger) (p : RtpPkt) (d : ℕ) (now : Int) :
    LossLedger where
  charged := l.charged ++ List.range' rx.jb.nextOut.toNat d ++
    (rx.asm.givenUp p now).flatMap FrameState.holes
  popped := l.popped ++ [p.seq.toNat]
  givenUp := l.givenUp ++ rx.asm.givenUp p now

/-- **What is newly accounted for**: numbers up to the packet's, none of which was accounted for
before. -/
theorem Accounted.newly (h : Accounted rx l) (hseq : p.seq.toNat = rx.jb.nextOut.toNat + d)
    (hd : d = 0 ∨ rx.asm.switches p = true) (now : Int) :
    ∃ a, a ≤ p.seq.toNat ∧ (∀ x ∈ accountedFor l rx.asm, x < a) ∧
      ∀ x, (accountedFor (bookPacket rx l p d now) (rx.asm.assemble p now).1).count x ≤
        (accountedFor l rx.asm).count x + (List.range' a (p.seq.toNat + 1 - a)).count x := by
  have hturn := fun x =>
    (subperm_flatMap (rx.asm.givenUp_subperm p now) FrameState.holes).count_le x
  simp only [List.flatMap_append, List.flatMap_singleton, List.count_append] at hturn
  cases hsw : rx.asm.switches p with
  | true =>
    -- The numbers that were skipped, and the packet's.
    refine ⟨rx.jb.nextOut.toNat, by omega, h.before, fun x => ?_⟩
    have hrange : List.range' rx.jb.nextOut.toNat (p.seq.toNat + 1 - rx.jb.nextOut.toNat) =
        List.range' rx.jb.nextOut.toNat d ++ [p.seq.toNat] := by
      rw [show p.seq.toNat + 1 - rx.jb.nextOut.toNat = d + 1 by omega, List.range'_concat,
        Nat.one_mul, ← hseq]
    have := hturn x
    rw [hsw, if_pos rfl, Assembler.holes_joined_of_switches now hsw, List.count_nil] at this
    rw [hrange]
    simp only [accountedFor, bookPacket, Assembler.live, List.flatMap_append, List.count_append]
      at this ⊢
    omega
  | false =>
    -- The new holes of the frame, and the packet's number.
    obtain rfl : d = 0 := hd.resolve_right (by rw [hsw]; exact Bool.false_ne_true)
    have hst := (h.last_lt hseq hsw).1
    obtain ⟨e, he, hle, hnext⟩ := h.last hst
    refine ⟨e.toNat + 1, by omega, fun x hx => Nat.lt_succ_of_le (hle x hx), fun x => ?_⟩
    have hrange : List.range' (e.toNat + 1) (p.seq.toNat + 1 - (e.toNat + 1)) =
        List.range' (e.toNat + 1) (p.seq.toNat - e.toNat - 1) ++ [p.seq.toNat] := by
      rw [show p.seq.toNat + 1 - (e.toNat + 1) = (p.seq.toNat - e.toNat - 1) + 1 by omega,
        List.range'_concat, Nat.one_mul,
        show e.toNat + 1 + (p.seq.toNat - e.toNat - 1) = p.seq.toNat by omega]
    have := hturn x
    rw [hsw, if_neg Bool.false_ne_true,
      Assembler.holes_joined_of_not_switches now hsw h.inRange.cur he (by omega)] at this
    rw [hrange]
    simp only [accountedFor, bookPacket, Assembler.live, Assembler.current, hst, if_true,
      List.flatMap_append, List.flatMap_singleton, List.flatMap_nil, List.count_append,
      List.count_nil, List.range'_zero] at this ⊢
    omega

theorem Accounted.keys_joined (h : Accounted rx l) (p : RtpPkt) (now : Int) (f : FrameState)
    (hf : f ∈ rx.asm.live ∨ f = rx.asm.joined p now) (k : UInt16)
    (hk : f.raws.contains k = true) : k.toNat ∈ l.popped ++ [p.seq.toNat] := by
  rcases hf with hf | rfl
  · exact List.mem_append_left _ (h.keys f hf k hk)
  · rw [Assembler.contains_joined, Bool.or_eq_true, Bool.and_eq_true, Bool.not_eq_true',
      beq_iff_eq] at hk
    rcases hk with rfl | ⟨hsw, hk⟩
    · exact List.mem_append_right _ (List.mem_singleton.2 rfl)
    · have hst := Assembler.started_of_not_switches hsw
      exact List.mem_append_left _ (h.keys _ (mem_live_cur hst) k hk)

/-- The frames of the turn: none of them can be recovered. -/
theorem Accounted.recover_none (h : Accounted rx l)
    (hseq : p.seq.toNat = rx.jb.nextOut.toNat + d) (hd : d = 0 ∨ rx.asm.switches p = true)
    (now : Int) : ∀ f, f ∈ rx.asm.live ∨ f = rx.asm.joined p now →
      ∀ fec, f.recover fec = none := by
  rintro f (hf | rfl)
  · exact recover_of_gaps (h.within hf) (h.gaps f hf)
  · exact recover_of_gaps (h.joined_within hseq now) (h.joined_gaps hseq hd now)

theorem Accounted.handOut (h : Accounted rx l) (hseq : p.seq.toNat = rx.jb.nextOut.toNat + d)
    (hd : d = 0 ∨ rx.asm.switches p = true) {jb' : JitterBuffer RtpPkt}
    (hnext : jb'.nextOut.toNat = p.seq.toNat + 1) (hst : jb'.started = true)
    (hrange : InRange { rx with jb := jb', asm := (rx.asm.assemble p now).1 }) :
    Accounted { rx with jb := jb', asm := (rx.asm.assemble p now).1 }
      (bookPacket rx l p d now) := by
  obtain ⟨a, ha, hlt, hcount⟩ := h.newly hseq hd now
  obtain ⟨hnodup, hbound⟩ := nodup_of_count_le h.nodup hlt hcount
  have hle : ∀ x ∈ accountedFor (bookPacket rx l p d now) (rx.asm.assemble p now).1,
      x ≤ p.seq.toNat := fun x hx => by
    have := hbound x hx
    omega
  refine ⟨hrange, ?_, hnodup, ?_, ?_, ?_, ?_⟩
  · intro hns
    have : jb'.started = false := hns
    rw [hst] at this
    cases this
  · intro x hx
    show x < jb'.nextOut.toNat
    have := hle x hx
    omega
  · intro hcst
    have hcur : (rx.asm.assemble p now).1.cur = rx.asm.joined p now :=
      Assembler.assemble_cur_of_started hcst
    refine ⟨p.seq, ?_, hle, .inl hnext⟩
    show (rx.asm.assemble p now).1.cur.Ends p.seq
    rw [hcur]
    exact h.joined_ends hseq now
  · intro f hf k hk
    show k.toNat ∈ l.popped ++ [p.seq.toNat]
    exact h.keys_joined p now f (Assembler.mem_of_givenUp_or_live (List.mem_append_right _ hf)) k hk
  · intro f hf
    rcases Assembler.mem_of_givenUp_or_live (List.mem_append_right _ hf) with hf | rfl
    · exact h.gaps f hf
    · exact h.joined_gaps hseq hd now

theorem Accounted.mem_outputs (h : Accounted rx l)
    (hseq : p.seq.toNat = rx.jb.nextOut.toNat + d) (hd : d = 0 ∨ rx.asm.switches p = true)
    {src : FrameState} {rawExtra : Option Bytes}
    (hout : (src, rawExtra) ∈ outputs (rx.asm.assemble p now).2) :
    rawExtra = none ∧ (src ∈ rx.asm.live ∨ src = rx.asm.joined p now) := by
  have hready : (src ∈ rx.asm.live ∨ src = rx.asm.joined p now) ∧
      src.ready rx.asm.fec = some rawExtra := by
    rcases Assembler.mem_outputs_assemble hout with ⟨rfl, hst, -, hr⟩ | ⟨rfl, -, -, hr⟩ | ⟨hz, hr⟩
    · exact ⟨.inl (mem_live_cur hst), hr⟩
    · exact ⟨.inr rfl, hr⟩
    · exact ⟨.inl (List.mem_append_left _ hz), hr⟩
  refine ⟨?_, hready.1⟩
  have hr := hready.2
  rw [FrameState.ready, h.recover_none hseq hd now src hready.1] at hr
  split_ifs at hr
  · exact (Option.some.inj hr).symm
  · cases hr

theorem Settled.handOut (h : Accounted rx l) (hs : Settled l os)
    (hseq : p.seq.toNat = rx.jb.nextOut.toNat + d) (hd : d = 0 ∨ rx.asm.switches p = true)
    {evs : List JbEvent} (hevs : netLost (evs.map .jb) = d) :
    Settled (bookPacket rx l p d now)
      (os ++ (evs.map .jb ++ .popped p :: (rx.asm.assemble p now).2.map .asm)) := by
  have hrec := h.recover_none hseq hd now
  have hwithin : ∀ f ∈ rx.asm.givenUp p now, f.Within := fun f hf => by
    rcases Assembler.mem_of_givenUp_or_live (List.mem_append_left _ hf) with hf | rfl
    · exact h.within hf
    · exact h.joined_within hseq now
  refine ⟨?_, ?_, ?_, ?_⟩
  · intro src rawExtra ef hmem
    rcases List.mem_append.1 hmem with hmem | hmem
    · obtain ⟨hnone, hkeys⟩ := hs.delivered src rawExtra ef hmem
      exact ⟨hnone, fun k hk => List.mem_append_left _ (hkeys k hk)⟩
    · obtain ⟨hnone, hsrc⟩ := h.mem_outputs hseq hd (mem_outputs.2 ⟨ef, by simpa using hmem⟩)
      exact ⟨hnone, h.keys_joined p now src hsrc⟩
  · intro hmem
    rcases List.mem_append.1 hmem with hmem | hmem
    · exact hs.rebuilt hmem
    · refine Assembler.fecRecovered_not_mem_assemble (fun f hf => hrec f (.inl hf))
        (hrec _ (.inr rfl)) (by simpa using hmem)
  · intro f hf
    rcases List.mem_append.1 hf with hf | hf
    · exact hs.sizes f hf
    · have := FrameState.length_holes (hwithin f hf)
      omega
  · have hholes : ((rx.asm.givenUp p now).map fun f => f.lostCount.toNat).sum =
        ((rx.asm.givenUp p now).flatMap FrameState.holes).length := by
      rw [List.length_flatMap]
      congr 1
      exact List.map_congr_left fun f hf => FrameState.toNat_lostCount (hwithin f hf)
    rw [netLost_append, netLost_append, hs.total, hevs, ← List.singleton_append, netLost_append,
      netLost_asm, Assembler.losts_assemble, List.map_map]
    simp only [bookPacket, List.length_append, List.length_range', ← hholes]
    simp only [netLost, List.map_singleton, List.sum_singleton, zero_add, Function.comp_def]
    omega

end HandOut

/-! ## One step -/

theorem accounted_fresh : Accounted {} {} where
  inRange := .fresh
  idle := fun _ => rfl
  nodup := List.nodup_nil
  before := fun x hx => by cases hx
  last := fun h => by cases h
  keys := fun f hf => by cases hf
  gaps := fun f hf => by cases hf

theorem settled_fresh : Settled {} [] where
  delivered := fun _ _ _ h => by cases h
  rebuilt := fun h => by cases h
  sizes := fun f hf => by cases hf
  total := rfl

/-- A step that hands out nothing, and moves the due number by a jump if at all. -/
theorem Accounted.quiet (h : Accounted rx l) {rx' : RtpReceiver} (hrange : InRange rx')
    (hcur : rx'.asm.cur = rx.asm.cur) (hzombies : rx'.asm.zombies = rx.asm.zombies)
    (hidle : rx'.jb.started = false → rx'.jb.nextOut = 0)
    (hle : rx.jb.nextOut.toNat ≤ rx'.jb.nextOut.toNat)
    (hjump : rx.jb.started = true → rx'.jb.nextOut.toNat = rx.jb.nextOut.toNat ∨
      rx.jb.nextOut.toNat + 1024 < rx'.jb.nextOut.toNat) : Accounted rx' l := by
  have hlive : rx'.asm.live = rx.asm.live := by
    rw [Assembler.live, Assembler.live, Assembler.current, Assembler.current, hcur, hzombies]
  have hfor : accountedFor l rx'.asm = accountedFor l rx.asm := by
    rw [accountedFor, accountedFor, hlive]
  refine ⟨hrange, hidle, hfor ▸ h.nodup, ?_, ?_, hlive ▸ h.keys, hlive ▸ h.gaps⟩
  · rw [hfor]
    exact fun x hx => (h.before x hx).trans_le hle
  · intro hst
    rw [hcur] at hst ⊢
    rw [hfor]
    obtain ⟨e, he, hlast, hnext⟩ := h.last hst
    refine ⟨e, he, hlast, ?_⟩
    have := hjump (h.inRange.begun hst).1
    omega

/-- What is observed of a step that does not come from the assembler. -/
theorem Settled.quiet (hs : Settled l os) {os' : List RtpOutput} (hasm : ∀ e, .asm e ∉ os')
    (hlost : netLost os' = 0) : Settled l (os ++ os') where
  delivered := fun src rawExtra ef hmem =>
    hs.delivered src rawExtra ef ((List.mem_append.1 hmem).resolve_right (hasm _))
  rebuilt := fun hmem => hs.rebuilt ((List.mem_append.1 hmem).resolve_right (hasm _))
  sizes := hs.sizes
  total := by rw [netLost_append, hs.total, hlost, Nat.add_zero]

/-- A packet for which there is room is not counted. -/
theorem bookStep_datagram {buf : Bytes} {now : Int} (hroom : HasRoom rx (.datagram buf now)) :
    bookStep rx l (.datagram buf now) = l := by
  have hcharges : (rx.jbInput (.datagram buf now)).toList.flatMap rx.jb.charges = [] := by
    simp only [jbInput]
    split_ifs
    · cases hp : parseRtp buf with
      | none => rfl
      | some p =>
        simp only [Option.map_some, Option.toList_some, List.flatMap_singleton]
        exact charges_push_of_room (hroom p hp) _ _ _
    · rfl
  rw [bookStep, hcharges]
  simp [handedOut, givenUp]

theorem Accounted.push_moves (h : Accounted rx l) (q : RtpPkt) (genUs now : Int) :
    let jb' := (rx.jb.push q.seq.toUInt32 genUs (some q) now).1
    (jb'.started = false → jb'.nextOut = 0) ∧ rx.jb.nextOut.toNat ≤ jb'.nextOut.toNat ∧
      (rx.jb.started = true → jb'.nextOut.toNat = rx.jb.nextOut.toNat ∨
        rx.jb.nextOut.toNat + 1024 < jb'.nextOut.toNat) := by
  intro jb'
  obtain ⟨hidle, hle⟩ := h.inRange.narrow.le_push h.idle q genUs now
  refine ⟨hidle, hle, fun hst => ?_⟩
  cases ha : rx.jb.accepts q.seq.toUInt32 with
  | false =>
    have hjb : jb' = rx.jb := congrArg Prod.fst (push_of_rejected rx.jb ha)
    exact .inl (by rw [hjb])
  | true =>
    have hbase := h.inRange.narrow.baseOut_le_seq ha
    have hnext : jb'.nextOut = _ := push_nextOut rx.jb ha
    rw [baseOut, if_pos hst] at hnext hbase
    rw [hnext]
    split_ifs with hgap
    · right
      have hlt := q.seq.toNat_lt
      rw [gt_iff_lt, UInt32.lt_iff_toNat_lt, seqDelta, UInt32.toNat_sub, UInt16.toNat_toUInt32]
        at hgap
      rw [UInt16.toNat_toUInt32]
      simp at hgap
      omega
    · exact .inl rfl

theorem Accounted.datagram (h : Accounted rx l) (hs : Settled l os) {buf : Bytes} {now : Int}
    (hroom : HasRoom rx (.datagram buf now)) :
    Accounted (rx.recv buf now).1 l ∧ Settled l (os ++ (rx.recv buf now).2) := by
  have hrange := h.inRange.datagram buf now
  have hasm := asm_not_mem_recv rx buf now
  obtain ⟨hcur, hzombies⟩ := rx.recv_frames buf now
  rcases rx.recv_cases buf now with ⟨p, q, genUs, hp, hseq, hjb, hout⟩ | ⟨⟨-, hnext, hst⟩, hout⟩
  · obtain ⟨hidle, hle, hjump⟩ := h.push_moves q genUs now
    rw [← hjb] at hidle hle hjump
    refine ⟨h.quiet hrange hcur hzombies hidle hle hjump, hs.quiet hasm ?_⟩
    have hfits : rx.jb.RoomFor q.seq.toUInt32 := hseq ▸ hroom p hp
    rw [hout, ← List.singleton_append, netLost_append, netLost_jb,
      JitterBuffer.netLost_of_not_lost ((roomFor_iff rx.jb genUs now (some q)).1 hfits)]
    rfl
  · refine ⟨h.quiet hrange hcur hzombies ?_ (hnext ▸ le_rfl) fun _ => .inl (hnext ▸ rfl),
      hs.quiet hasm ?_⟩
    · rw [hst, hnext]
      exact h.idle
    · rcases hout with hout | ⟨json, hout⟩ <;> rw [hout] <;> rfl

theorem Accounted.pop (h : Accounted rx l) (hs : Settled l os) {now : Int}
    (hskip : SkipsBetweenFrames rx (.pop now)) :
    Accounted (rx.popUnit now).1 (bookStep rx l (.pop now)) ∧
      Settled (bookStep rx l (.pop now)) (os ++ (rx.popUnit now).2) := by
  have hrange := (h.inRange.pop hskip.joinsForward).1
  have hlost : netLost ((rx.jb.pop now).2.2.map .jb) = (rx.jb.charges (.pop now)).length := by
    rw [netLost_jb, ← JitterBuffer.netLost_step]
    show _ = JitterBuffer.netLost (_ ++ _)
    rw [JitterBuffer.netLost_append]
    cases (rx.jb.pop now).2.1 <;> simp [JitterBuffer.netLost]
  rcases pop_cases h.inRange.narrow hskip with ⟨hnone, hnext, hst, hcharges⟩ |
      ⟨u, p, d, hsome, hp, hseq, hd, hnext, hst, hcharges⟩
  · have hbook : bookStep rx l (.pop now) = l := by
      simp [bookStep, jbInput, handedOut, givenUp, hnone, hcharges]
    rw [hbook]
    rw [popUnit_of_none hnone] at hrange ⊢
    refine ⟨h.quiet hrange rfl rfl ?_ (hnext ▸ le_rfl) fun _ => .inl (hnext ▸ rfl),
      hs.quiet (by simp) (by rw [hlost, hcharges]; rfl)⟩
    show (rx.jb.pop now).1.started = false → (rx.jb.pop now).1.nextOut = 0
    rw [hst, hnext]
    exact h.idle
  · have hbook : bookStep rx l (.pop now) = bookPacket rx l p d now := by
      have hout : rx.handedOut (.pop now) = some p := by simp [handedOut, hsome, hp]
      simp only [bookStep, jbInput, givenUp, hout, bookPacket, Option.toList_some,
        List.flatMap_singleton, hcharges, List.map_singleton]
    rw [hbook]
    rw [popUnit_of_some hsome hp] at hrange ⊢
    refine ⟨h.handOut hseq hd hnext hst hrange, hs.handOut h hseq hd ?_⟩
    rw [hlost, ← List.length_map (f := (·.toNat)), hcharges, List.length_range']

theorem Accounted.step (h : Accounted rx l) (hs : Settled l os) {i : RtpInput}
    (hroom : HasRoom rx i) (hskip : SkipsBetweenFrames rx i) :
    Accounted (RtpReceiver.step rx i).1 (bookStep rx l i) ∧
      Settled (bookStep rx l i) (os ++ (RtpReceiver.step rx i).2) := by
  cases i with
  | datagram buf now =>
    rw [bookStep_datagram hroom]
    exact h.datagram hs hroom
  | pop now => exact h.pop hs hskip

/-! ## Runs -/

theorem Accounted.run (h : Accounted rx l) (hs : Settled l os) {is : List RtpInput}
    (hroom : Runs.Along RtpReceiver.step HasRoom rx is)
    (hskip : Runs.Along RtpReceiver.step SkipsBetweenFrames rx is) :
    Accounted (Runs.after RtpReceiver.step rx is) (ledger rx l is) ∧
      Settled (ledger rx l is) (os ++ Runs.trace RtpReceiver.step rx is) := by
  induction is generalizing rx l os with
  | nil =>
    rw [Runs.trace_nil, List.append_nil]
    exact ⟨h, hs⟩
  | cons i is ih =>
    obtain ⟨h', hs'⟩ := h.step hs hroom.1 hskip.1
    have := ih h' hs' hroom.2 hskip.2
    rwa [List.append_assoc] at this

/-- **A packet is counted as lost at most once, and only if it is lost.** In every run in which no
unit is evicted and no gap is skipped backwards or inside a frame, no number is counted twice, no
packet of a frame that is output has been counted, nothing is rebuilt, and no frame that is given
up has more packets than places. What is counted is what `net_lost` got. -/
theorem lost_at_most_once (is : List RtpInput)
    (hroom : Runs.Along RtpReceiver.step HasRoom {} is)
    (hskip : Runs.Along RtpReceiver.step SkipsBetweenFrames {} is) :
    let l := ledger {} {} is
    let os := Runs.trace RtpReceiver.step {} is
    (∀ x, l.charged.count x ≤ 1) ∧
      (∀ src rawExtra ef, .asm (.out src rawExtra ef) ∈ os → rawExtra = none ∧
        ∀ k : UInt16, src.raws.contains k = true → l.charged.count k.toNat = 0) ∧
      .asm .fecRecovered ∉ os ∧
      (∀ f ∈ l.givenUp, f.raws.size ≤ f.span.toNat) ∧
      netLost os = l.charged.length := by
  intro l os
  obtain ⟨h, hs⟩ := accounted_fresh.run settled_fresh hroom hskip
  rw [List.nil_append] at hs
  have hnodup := (List.nodup_append.1 h.nodup).1
  refine ⟨List.nodup_iff_count_le_one.1 (List.nodup_append.1 hnodup).1, ?_, hs.rebuilt, hs.sizes,
    hs.total⟩
  intro src rawExtra ef hmem
  obtain ⟨hnone, hkeys⟩ := hs.delivered src rawExtra ef hmem
  refine ⟨hnone, fun k hk => List.count_eq_zero.2 fun hc => ?_⟩
  exact (List.nodup_append.1 hnodup).2.2 _ hc _ (hkeys k hk) rfl

/-- Frames of packets 5 and 7, with a gap between them. -/
def gapBetweenFrames : List RtpInput :=
  [.datagram (rtpHeader true 5 3600 0 ++ [0x41, 1]) 1000000, .pop 2000000,
    .datagram (rtpHeader true 7 7200 0 ++ [0x41, 2]) 2000001, .pop 3000000]

/-- Number 6 is counted, once. -/
theorem lost_between_frames :
    (ledger {} {} gapBetweenFrames).charged.count 6 ≤ 1 ∧
      netLost (Runs.trace RtpReceiver.step {} gapBetweenFrames) =
        (ledger {} {} gapBetweenFrames).charged.length :=
  have h := lost_at_most_once gapBetweenFrames (by decide +kernel) (by decide +kernel)
  ⟨h.1 6, h.2.2.2.2⟩

/-- The numbers of the packets that were rebuilt. -/
def rebuiltSeqs (os : List RtpOutput) : List ℕ :=
  os.filterMap fun
    | .asm (.out _ (some raw) _) => some (UdpHeader.field raw 2 2)
    | _ => none

/-- Packets 5 and 7 of one frame, with what arrives between them. -/
def gapInFrame (between : List Bytes) : List RtpInput :=
  [.datagram (rtpHeader false 5 3600 0 ++ [0x41, 1]) 1000000, .pop 2000000] ++
    between.map (.datagram · 2000001) ++
    [.datagram (rtpHeader true 7 3600 0 ++ [0x41, 3]) 2000002, .pop 3000000]

/-- Packet 6 is missing in its frame. It is counted when it is skipped, and again when the frame is
given up; with the frame's parity it is rebuilt, and stays counted. -/
theorem lost_twice :
    (ledger {} {} (gapInFrame [])).charged = [6, 6] ∧
      netLost (Runs.trace RtpReceiver.step {} (gapInFrame [])) = 2 ∧
      (let run := gapInFrame [fecDatagram idrFrame
        [rtpHeader false 5 3600 0 ++ [0x41, 1], rtpHeader false 6 3600 0 ++ [0x41, 2],
          rtpHeader true 7 3600 0 ++ [0x41, 3]]]
      (ledger {} {} run).charged = [6] ∧
        rebuiltSeqs (Runs.trace RtpReceiver.step {} run) = [6]) := by
  exact ⟨by decide +kernel, by decide +kernel, by decide +kernel, by decide +kernel⟩

end RtpReceiver

end Rtstream
