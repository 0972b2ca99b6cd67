import Rtstream.RtpSequence
import Rtstream.RtpAssemblerSpec

/-!
# Writes in range

`emit` writes each packet of a frame to `ordered[seq - first_seq]`, and checks only that the frame
has as many packets as `ordered` has places. A packet numbered below the frame's first one is
written outside.

The jitter buffer takes the 16-bit numbers as they are, so its order is the order of the numbers
and its due number only moves up, but for one case: a gap is skipped to the first unit of the
map, which a jump may have left behind the due number. `outOfRange_of_backwards` is a run where
such a packet joins the frame being collected.

* `writes_in_range`: in every run in which no packet behind the first one of the frame being
  collected is skipped back to (`JoinsForward`), every write is in range.

The invariant is `InRange`: the frame being collected starts before the due number, and no frame
has a packet below its first one (`FrameState.Within`).
-/

namespace Rtstream

open Std (TreeMap)

namespace FrameState

variable {f : FrameState}

/-- Not a write past the end of `ordered`. -/
def NotOutside : RtpEffect → Prop
  | .outOfBounds _ _ => False
  | _ => True

theorem Within.emit (h : f.Within) (rawExtra : Option Bytes) (now : Int) :
    ∀ e ∈ f.emit rawExtra now, NotOutside e := by
  intro e he
  rw [FrameState.emit, badWrites_eq_nil h, List.nil_append] at he
  split_ifs at he
  · cases he
  · rw [List.mem_singleton.1 he]
    trivial

theorem missingIdx_lt {i : ℕ} (h : f.missingIdx = some i) : i < f.known.length := by
  have hmem := List.mem_of_find?_eq_some h
  rw [List.mem_reverse, List.mem_range] at hmem
  rwa [length_known]

end FrameState

namespace Assembler

variable {m : Assembler} {p : RtpPkt} {now : Int}

theorem satisfies_notOutside {f : FrameState} (h : f.Within) :
    Satisfies FrameState.NotOutside now f := ⟨fun rawExtra => h.emit rawExtra now, trivial⟩

/-- A packet that is not behind the frame it joins leaves it without packets behind its first. -/
theorem joined_within (hcur : m.cur.Within)
    (hp : m.switches p = false → m.cur.firstSeq.toNat ≤ p.seq.toNat) :
    (m.joined p now).Within := by
  intro k raw hk
  cases hsw : m.switches p with
  | false =>
    rw [joined, hsw, if_neg Bool.false_ne_true] at hk ⊢
    have hk : (m.cur.raws.insertIfNew p.seq p.raw)[k]? = some raw := hk
    rw [TreeMap.getElem?_insertIfNew] at hk
    split_ifs at hk with heq
    · rw [← Std.compare_eq_iff_eq.1 heq.1]
      exact hp hsw
    · exact hcur k raw hk
  | true =>
    rw [joined, hsw, if_pos rfl] at hk ⊢
    have hk : ((∅ : TreeMap UInt16 Bytes).insertIfNew p.seq p.raw)[k]? = some raw := hk
    rw [TreeMap.getElem?_insertIfNew] at hk
    split_ifs at hk with heq
    · rw [← Std.compare_eq_iff_eq.1 heq.1]
      exact le_rfl
    · simp at hk

theorem joined_firstSeq (m : Assembler) (p : RtpPkt) (now : Int) :
    (m.joined p now).firstSeq = if m.switches p then p.seq else m.cur.firstSeq := by
  unfold joined
  split_ifs <;> rfl

end Assembler

/-! ## 16-bit numbers in the jitter buffer -/

open JitterBuffer

/-- The units are stored under the 16-bit numbers of their packets, and the due number is at most
one past them. -/
structure Narrow (jb : JitterBuffer RtpPkt) : Prop where
  next : jb.nextOut.toNat ≤ 65536
  units : ∀ (k : UInt32) (u : JbUnit RtpPkt), jb.buf[k]? = some u →
    u.seq = k ∧ ∃ p, u.data = some p ∧ p.seq.toUInt32 = k

namespace Narrow

variable {jb : JitterBuffer RtpPkt}

theorem fresh : Narrow (.create 1024 true (10 * 1000)) where
  next := Nat.zero_le _
  units := fun k u hu => by simp [create] at hu

theorem congr (h : Narrow jb) {jb' : JitterBuffer RtpPkt} (hbuf : jb'.buf = jb.buf)
    (hnext : jb'.nextOut = jb.nextOut) : Narrow jb' where
  next := hnext ▸ h.next
  units := fun k u hu => h.units k u (hbuf ▸ hu)

/-- Among these numbers, `seq_lt` is the numeric order. -/
theorem seqLt_iff_lt (h : Narrow jb) (seq : UInt16) :
    seqLt seq.toUInt32 jb.nextOut = true ↔ seq.toNat < jb.nextOut.toNat := by
  have h1 := seq.toNat_lt
  have h2 := h.next
  rw [seqLt_iff, UInt32.toNat_sub, UInt16.toNat_toUInt32]
  omega

theorem baseOut_le (h : Narrow jb) (seq : UInt16) :
    (jb.baseOut seq.toUInt32).toNat ≤ 65536 := by
  have h1 := seq.toNat_lt
  have h2 := h.next
  unfold baseOut
  split_ifs
  · exact h2
  · rw [UInt16.toNat_toUInt32]
    omega

theorem baseOut_le_seq (h : Narrow jb) {seq : UInt16} (ha : jb.accepts seq.toUInt32 = true) :
    (jb.baseOut seq.toUInt32).toNat ≤ seq.toNat := by
  unfold baseOut
  split_ifs with hst
  · by_contra hlt
    rw [accepts, hst, (h.seqLt_iff_lt seq).2 (Nat.lt_of_not_le hlt)] at ha
    cases ha
  · rw [UInt16.toNat_toUInt32]

/-- **A push moves the due number up**, if at all. -/
theorem le_push_nextOut (h : Narrow jb) {seq : UInt16} (ha : jb.accepts seq.toUInt32 = true)
    (genUs now : Int) (data : Option RtpPkt) :
    (jb.baseOut seq.toUInt32).toNat ≤ (jb.push seq.toUInt32 genUs data now).1.nextOut.toNat := by
  rw [push_nextOut jb ha]
  split_ifs
  · rw [UInt16.toNat_toUInt32]
    exact h.baseOut_le_seq ha
  · exact le_rfl

/-- Before the first push the due number is zero, and after that it only moves up. -/
theorem le_push (h : Narrow jb) (hidle : jb.started = false → jb.nextOut = 0) (p : RtpPkt)
    (genUs now : Int) :
    let jb' := (jb.push p.seq.toUInt32 genUs (some p) now).1
    (jb'.started = false → jb'.nextOut = 0) ∧ jb.nextOut.toNat ≤ jb'.nextOut.toNat := by
  intro jb'
  cases ha : jb.accepts p.seq.toUInt32 with
  | false =>
    have hjb : jb' = jb := congrArg Prod.fst (push_of_rejected jb ha)
    rw [hjb]
    exact ⟨hidle, le_rfl⟩
  | true =>
    refine ⟨fun hns => ?_, ?_⟩
    · have hst : jb'.started = true := push_started jb ha
      rw [hst] at hns
      cases hns
    · cases hst : jb.started with
      | false =>
        rw [hidle hst]
        exact Nat.zero_le _
      | true =>
        have hle := h.le_push_nextOut ha genUs now (some p)
        rwa [baseOut, if_pos hst] at hle

theorem push (h : Narrow jb) (p : RtpPkt) (genUs now : Int) :
    Narrow (jb.push p.seq.toUInt32 genUs (some p) now).1 where
  next := by
    cases ha : jb.accepts p.seq.toUInt32 with
    | false =>
      rw [push_of_rejected jb ha]
      exact h.next
    | true =>
      have h1 := p.seq.toNat_lt
      rw [push_nextOut jb ha]
      split_ifs
      · rw [UInt16.toNat_toUInt32]
        omega
      · exact h.baseOut_le p.seq
  units := fun k u hu => by
    rcases getElem?_push jb hu with hu | ⟨rfl, rfl⟩
    · exact h.units k u hu
    · exact ⟨rfl, p, rfl, rfl⟩

theorem takeOut (h : Narrow jb) {k : UInt32} {u : JbUnit RtpPkt} (hu : jb.buf[k]? = some u)
    (now : Int) :
    ∃ p, u.data = some p ∧ p.seq.toUInt32 = k ∧ Narrow (jb.takeOut k u now) ∧
      (jb.takeOut k u now).nextOut.toNat = p.seq.toNat + 1 := by
  obtain ⟨hseq, p, hp, hk⟩ := h.units k u hu
  have hlt := p.seq.toNat_lt
  have hnext : (jb.takeOut k u now).nextOut.toNat = p.seq.toNat + 1 := by
    rw [takeOut_nextOut, hseq, ← hk, UInt32.toNat_add, UInt16.toNat_toUInt32, UInt32.toNat_one]
    omega
  refine ⟨p, hp, hk, ⟨by omega, fun k' v hv => ?_⟩, hnext⟩
  rw [takeOut_buf, TreeMap.getElem?_erase] at hv
  split_ifs at hv
  exact h.units k' v hv

end Narrow

/-! ## The receiver -/

namespace RtpReceiver

open RtpServer

variable {rx : RtpReceiver}

theorem recv_frames (rx : RtpReceiver) (buf : Bytes) (now : Int) :
    (rx.recv buf now).1.asm.cur = rx.asm.cur ∧
      (rx.recv buf now).1.asm.zombies = rx.asm.zombies := by
  unfold recv
  split_ifs
  · exact ⟨rfl, rfl⟩
  · cases parseRtp buf <;> exact ⟨rfl, rfl⟩
  · exact ⟨rfl, rfl⟩
  · simp only [recvControl]
    split_ifs
    · exact ⟨rfl, rfl⟩
    · exact ⟨rfl, rfl⟩
    · exact ⟨rfl, rfl⟩
    · exact ⟨rfl, rfl⟩
    · show (rx.asm.storeParity _ _).cur = _ ∧ (rx.asm.storeParity _ _).zombies = _
      obtain ⟨fec', hm, -⟩ := rx.asm.storeParity_spec (UdpHeader.read buf).captureUsLo
        ((UdpHeader.read buf).limit (buf.drop UdpHeader.kSize))
      rw [hm]
      exact ⟨rfl, rfl⟩
    · exact ⟨rfl, rfl⟩
  · exact ⟨rfl, rfl⟩

/-- **A datagram** is an RTP packet that is pushed, or it leaves the units alone. -/
theorem recv_cases (rx : RtpReceiver) (buf : Bytes) (now : Int) :
    (∃ p q genUs, parseRtp buf = some p ∧ q.seq = p.seq ∧
      (rx.recv buf now).1.jb = (rx.jb.push q.seq.toUInt32 genUs (some q) now).1 ∧
      (rx.recv buf now).2 = .pushed q (rx.jb.push q.seq.toUInt32 genUs (some q) now).2.1 ::
        (rx.jb.push q.seq.toUInt32 genUs (some q) now).2.2.map .jb) ∨
    ((rx.recv buf now).1.jb.buf = rx.jb.buf ∧ (rx.recv buf now).1.jb.nextOut = rx.jb.nextOut ∧
      (rx.recv buf now).1.jb.started = rx.jb.started) ∧
      ((rx.recv buf now).2 = [] ∨ ∃ json, (rx.recv buf now).2 = [.remoteJson json]) := by
  cases hrtp : isRtp buf with
  | false =>
    obtain ⟨hjb, hout⟩ := recv_of_not_rtp rx hrtp now
    refine .inr ⟨?_, hout⟩
    rcases hjb with hjb | ⟨ms, hjb⟩ <;> rw [hjb] <;> exact ⟨rfl, rfl, rfl⟩
  | true =>
    cases hp : parseRtp buf with
    | some p =>
      rw [recv_of_rtp rx hrtp hp]
      set q : RtpPkt := { p with captureMs := (rx.extendTs90 p.ts now).tdiv 90 } with hq
      exact .inl ⟨p, q, q.captureMs * 1000, rfl, rfl, rfl, rfl⟩
    | none =>
      simp only [isRtp, Bool.and_eq_true, decide_eq_true_eq, beq_iff_eq] at hrtp
      rw [recv, if_neg (by omega), if_pos hrtp.2, hp]
      exact .inr ⟨⟨rfl, rfl, rfl⟩, .inl rfl⟩

theorem asm_not_mem_recv (rx : RtpReceiver) (buf : Bytes) (now : Int) (e : RtpEffect) :
    .asm e ∉ (rx.recv buf now).2 := by
  rcases rx.recv_cases buf now with ⟨p, q, genUs, -, -, -, hout⟩ | ⟨-, hout | ⟨json, hout⟩⟩ <;>
    simp [hout]

theorem popUnit_of_none {now : Int} (h : (rx.jb.pop now).2.1 = none) :
    rx.popUnit now = ({ rx with jb := (rx.jb.pop now).1 }, (rx.jb.pop now).2.2.map .jb) := by
  simp only [popUnit, h, Option.bind_none]

theorem popUnit_of_some {now : Int} {u : JbUnit RtpPkt} {p : RtpPkt}
    (h : (rx.jb.pop now).2.1 = some u) (hp : u.data = some p) :
    rx.popUnit now =
      ({ rx with jb := (rx.jb.pop now).1, asm := (rx.asm.assemble p now).1 },
        (rx.jb.pop now).2.2.map .jb ++ .popped p :: (rx.asm.assemble p now).2.map .asm) := by
  simp only [popUnit, h, Option.bind_some, hp]

/-- The writes past the end, each with its index and the size of `ordered`. -/
def outsideWrites (os : List RtpOutput) : List (ℕ × ℕ) :=
  os.filterMap fun
    | .asm (.outOfBounds idx size) => some (idx, size)
    | _ => none

theorem outsideWrites_eq_nil {os : List RtpOutput}
    (h : ∀ e, .asm e ∈ os → FrameState.NotOutside e) : outsideWrites os = [] := by
  apply List.filterMap_eq_nil_iff.2
  rintro (_ | _ | (_ | _ | _ | _) | _ | _) ho
  case asm.outOfBounds idx size => exact (h _ ho).elim
  all_goals rfl

/-- A pop that skips a gap hands out a packet of another frame, or one that is not behind the
first packet of the frame being collected. -/
def JoinsForward (rx : RtpReceiver) : RtpInput → Prop
  | .datagram _ _ => True
  | .pop now => rx.jb.buf[rx.jb.nextOut]? = none → rx.jb.waitsForHead now = false →
      ∀ kv, OrderedMap.first? rx.jb.buf = some kv → ∀ p, kv.2.data = some p →
        rx.asm.switches p = false → rx.asm.cur.firstSeq ≤ p.seq

instance (rx : RtpReceiver) : DecidablePred (JoinsForward rx)
  | .datagram _ _ => inferInstanceAs (Decidable True)
  | .pop now =>
    match hf : OrderedMap.first? rx.jb.buf with
    | none => .isTrue fun _ _ kv h => by simp [hf] at h
    | some kv => decidable_of_iff
        (rx.jb.buf[rx.jb.nextOut]?.isNone → rx.jb.waitsForHead now = false →
          ∀ p ∈ kv.2.data, rx.asm.switches p = false → rx.asm.cur.firstSeq ≤ p.seq)
        (by simp [JoinsForward, hf])

/-- The frame being collected starts before the due number, and no frame has a packet below its
first one. -/
structure InRange (rx : RtpReceiver) : Prop where
  narrow : Narrow rx.jb
  begun : rx.asm.cur.started = true →
    rx.jb.started = true ∧ rx.asm.cur.firstSeq.toNat < rx.jb.nextOut.toNat
  cur : rx.asm.cur.Within
  zombies : ∀ z ∈ rx.asm.zombies, z.Within

namespace InRange

theorem fresh : InRange {} where
  narrow := .fresh
  begun := fun h => by cases h
  cur := fun k raw hk => by simp at hk
  zombies := fun z hz => by cases hz

theorem assemble (h : InRange rx) {p : RtpPkt} {jb' : JitterBuffer RtpPkt} (now : Int)
    (hnarrow : Narrow jb') (hst : jb'.started = true)
    (hnext : jb'.nextOut.toNat = p.seq.toNat + 1)
    (hp : rx.asm.switches p = false → rx.asm.cur.firstSeq.toNat ≤ p.seq.toNat) :
    InRange { rx with jb := jb', asm := (rx.asm.assemble p now).1 } ∧
      ∀ e ∈ (rx.asm.assemble p now).2, FrameState.NotOutside e := by
  have hjoined : (rx.asm.joined p now).Within := Assembler.joined_within h.cur hp
  have hfirst : (rx.asm.joined p now).firstSeq.toNat < jb'.nextOut.toNat := by
    rw [Assembler.joined_firstSeq, hnext]
    split_ifs with hsw
    · exact Nat.lt_succ_self _
    · exact Nat.lt_succ_of_le (hp (Bool.eq_false_iff.2 hsw))
  refine ⟨⟨hnarrow, fun hcst => ⟨hst, ?_⟩, ?_, fun z hz => ?_⟩, ?_⟩
  · have hcur : (rx.asm.assemble p now).1.cur = rx.asm.joined p now :=
      Assembler.assemble_cur_of_started hcst
    exact (congrArg (·.firstSeq.toNat) hcur).trans_lt hfirst
  · show (rx.asm.assemble p now).1.cur.Within
    rcases rx.asm.assemble_cur p now with hcur | ⟨-, hcur⟩
    · rw [hcur]
      exact hjoined
    · rw [hcur]
      exact fun k raw hk => by simp at hk
  · rcases Assembler.mem_zombies_assemble hz with hz | ⟨-, rfl, -⟩
    · exact h.zombies z hz
    · exact hjoined
  · exact Assembler.forall_assemble trivial (fun _ => Assembler.satisfies_notOutside h.cur)
      (Assembler.satisfies_notOutside hjoined)
      (fun z hz => Assembler.satisfies_notOutside (h.zombies z hz))

theorem datagram (h : InRange rx) (buf : Bytes) (now : Int) : InRange (rx.recv buf now).1 := by
  obtain ⟨hcur, hzombies⟩ := rx.recv_frames buf now
  have hjb : Narrow (rx.recv buf now).1.jb ∧
      (rx.jb.started = true → (rx.recv buf now).1.jb.started = true ∧
        rx.jb.nextOut.toNat ≤ (rx.recv buf now).1.jb.nextOut.toNat) := by
    rcases rx.recv_cases buf now with ⟨-, q, genUs, -, -, hjb, -⟩ | ⟨⟨hbuf, hnext, hst⟩, -⟩
    · rw [hjb]
      refine ⟨h.narrow.push q genUs now, fun hst => ?_⟩
      cases ha : rx.jb.accepts q.seq.toUInt32 with
      | false =>
        rw [push_of_rejected _ ha]
        exact ⟨hst, le_rfl⟩
      | true =>
        have := h.narrow.le_push_nextOut ha genUs now (some q)
        rw [baseOut, if_pos hst] at this
        exact ⟨push_started _ ha, this⟩
    · exact ⟨h.narrow.congr hbuf hnext, fun h => ⟨hst.trans h, hnext ▸ le_rfl⟩⟩
  refine ⟨hjb.1, fun hst => ?_, hcur ▸ h.cur, hzombies ▸ h.zombies⟩
  rw [hcur] at hst ⊢
  obtain ⟨hst', hlt⟩ := h.begun hst
  exact ⟨(hjb.2 hst').1, hlt.trans_le (hjb.2 hst').2⟩

theorem pop (h : InRange rx) {now : Int} (hjoin : JoinsForward rx (.pop now)) :
    InRange (rx.popUnit now).1 ∧
      ∀ e, .asm e ∈ (rx.popUnit now).2 → FrameState.NotOutside e := by
  rcases pop_spec rx.jb now with ⟨hnone, hbuf, hnext, hst, -⟩ | ⟨u, hst, hu, hsome, hjb⟩ |
      ⟨head, u, hst, hmiss, hwait, hfirst, hsome, hjb⟩
  · rw [popUnit_of_none hnone]
    refine ⟨⟨h.narrow.congr hbuf hnext, fun hc => ?_, h.cur, h.zombies⟩, by simp⟩
    exact ⟨hst.trans (h.begun hc).1, hnext ▸ (h.begun hc).2⟩
  · -- The packet that is due comes behind all there are.
    obtain ⟨p, hp, hk, hnarrow, hnext⟩ := h.narrow.takeOut hu now
    have hseq : p.seq.toNat = rx.jb.nextOut.toNat := by rw [← hk, UInt16.toNat_toUInt32]
    obtain ⟨hinv, heff⟩ := h.assemble now hnarrow hst hnext fun hsw => by
      have := (h.begun (Assembler.started_of_not_switches hsw)).2
      omega
    rw [popUnit_of_some hsome hp, hjb]
    exact ⟨hinv, fun e he => heff e (by simpa using he)⟩
  · -- A gap is skipped: the condition on the step.
    obtain ⟨p, hp, -, hnarrow, hnext⟩ := h.narrow.takeOut (OrderedMap.getElem?_first? hfirst) now
    obtain ⟨hinv, heff⟩ := h.assemble now hnarrow hst hnext fun hsw =>
      UInt16.le_iff_toNat_le.1 (hjoin hmiss hwait (head, u) hfirst p hp hsw)
    rw [popUnit_of_some hsome hp, hjb]
    exact ⟨hinv, fun e he => heff e (by simpa using he)⟩

theorem step (h : InRange rx) {i : RtpInput} (hjoin : JoinsForward rx i) :
    InRange (RtpReceiver.step rx i).1 ∧
      ∀ e, .asm e ∈ (RtpReceiver.step rx i).2 → FrameState.NotOutside e := by
  cases i with
  | datagram buf now =>
    exact ⟨h.datagram buf now, fun e he => absurd he (asm_not_mem_recv rx buf now e)⟩
  | pop now => exact h.pop hjoin

end InRange

/-- **Every write is in range.** Any datagrams arrive in any order, with pops in between. When no
gap is skipped back to a packet of the frame being collected that is numbered below the frame's
first one, `emit` writes inside `ordered`, no frame has a packet below its first one, and the
recovery writes inside `known`. -/
theorem writes_in_range (is : List RtpInput)
    (hjoin : Runs.Along RtpReceiver.step JoinsForward {} is) :
    outsideWrites (Runs.trace RtpReceiver.step {} is) = [] ∧
      ∀ is₁ is₂, is = is₁ ++ is₂ →
        ∀ f, f = (Runs.after RtpReceiver.step {} is₁).asm.cur ∨
            f ∈ (Runs.after RtpReceiver.step {} is₁).asm.zombies →
          (∀ kv ∈ f.raws.toList, f.firstSeq ≤ kv.1 ∧ f.index kv.1 < f.span.toNat) ∧
            ∀ i, f.missingIdx = some i → i < f.known.length := by
  constructor
  · have := hjoin.forall_trace (I := InRange)
      (Q := fun o => ∀ e, o = .asm e → FrameState.NotOutside e)
      (fun rx i h hi => ⟨(h.step hi).1, fun o ho e he => (h.step hi).2 e (he ▸ ho)⟩) .fresh
    exact outsideWrites_eq_nil fun e he => this _ he e rfl
  · rintro is₁ is₂ rfl f hf
    have h := ((Runs.along_append _ is₁ is₂).1 hjoin).1.invariant (I := InRange)
      (fun rx i h hi => (h.step hi).1) .fresh
    have hw : f.Within := by
      rcases hf with rfl | hf
      · exact h.cur
      · exact h.zombies f hf
    refine ⟨fun kv hkv => ?_, fun i => FrameState.missingIdx_lt⟩
    have hk := OrderedMap.getElem?_of_mem_toList (k := kv.1) (v := kv.2) hkv
    exact ⟨UInt16.le_iff_toNat_le.2 (hw kv.1 kv.2 hk), FrameState.index_lt_span hw hk⟩

/-- A jump over a packet that is left behind, of another frame than the one being collected. -/
theorem writes_in_range_behind :
    outsideWrites (Runs.trace RtpReceiver.step {}
      [.datagram (rtpHeader true 0 0 0 ++ [0x65, 1]) 1000000,
        .datagram (rtpHeader false 2000 3600 0 ++ [0x65, 1]) 1000001, .pop 2000000, .pop 3000000,
        .datagram (rtpHeader true 2002 3600 0 ++ [0x41, 2]) 3000001, .pop 4000000]) = [] :=
  (writes_in_range _ (by decide +kernel)).1

/-- The packet that the jump left behind is of the frame being collected: it joins the frame, and
is written 2000 places before it. -/
theorem outOfRange_of_backwards :
    outsideWrites (Runs.trace RtpReceiver.step {}
      [.datagram (rtpHeader false 0 3600 0 ++ [0x65, 1]) 1000000,
        .datagram (rtpHeader false 2000 3600 0 ++ [0x65, 1]) 1000001, .pop 2000000, .pop 3000000,
        .datagram (rtpHeader true 2002 3600 0 ++ [0x41, 2]) 3000001, .pop 4000000]) =
      [(2 ^ 64 - 2000, 3)] := by
  decide +kernel

end RtpReceiver

end Rtstream
