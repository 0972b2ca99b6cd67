import Rtstream.JitterBufferSpec
import Rtstream.RtpRoundTrip

/-!
# Packets in order through the jitter buffer

Packets that arrive in the order they were sent leave the jitter buffer in that order. The
sender counts in 16 bits, and the buffer takes the numbers as they come and compares and
increments them in 32 bits: behind packet 65535 it waits for number 65536, and packet 0 is
rejected as too old (`wrapped_rejected`).

`in_order_iff`: so a run is in order if and only if the counter has not wrapped in it.

The invariant is `Sequenced`: of the packets received so far, the first `m` have been popped and
the others are buffered, each under its number.
-/

namespace Rtstream

open Std (TreeMap)

/-! ## What the server sends -/

namespace RtpServer

/-- The first byte tells RTP packets from the private protocol's. -/
def isRtp (d : Bytes) : Bool := decide (12 ≤ d.length) && d.getD 0 0 == 0x80

/-- The packets are numbered from `base` on, modulo `2 ^ 16`. -/
def Numbered (base : UInt16) (packets : List Bytes) : Prop :=
  ∀ (k : ℕ) (hk : k < packets.length), ∃ p, RtpReceiver.parseRtp packets[k] = some p ∧
    p.seq = base + UInt16.ofNat k ∧ p.raw = packets[k]

theorem Numbered.append {base : UInt16} {packets packets' : List Bytes}
    (h : Numbered base packets) (h' : Numbered (base + UInt16.ofNat packets.length) packets') :
    Numbered base (packets ++ packets') := by
  intro k hk
  by_cases hlt : k < packets.length
  · rw [List.getElem_append_left hlt]
    exact h k hlt
  · have hge := Nat.le_of_not_lt hlt
    rw [List.getElem_append_right hge]
    obtain ⟨p, hp, hseq, hraw⟩ := h' (k - packets.length) (by simp at hk; omega)
    refine ⟨p, hp, ?_, hraw⟩
    rw [hseq, UInt16.add_assoc, ← UInt16.ofNat_add, Nat.add_sub_cancel' hge]

theorem Numbered.of_isPrefix {base : UInt16} {packets packets' : List Bytes}
    (h : Numbered base packets')
    (hp : packets <+: packets') : Numbered base packets := by
  obtain ⟨rest, rfl⟩ := hp
  intro k hk
  have := h k (by simp; omega)
  rwa [List.getElem_append_left hk] at this

theorem numbered_rtpPackets {s : RtpServer} {f : EncodedFrame} {packets : List Bytes}
    (h : s.rtpPackets f = some packets) : Numbered s.seq packets := fun _ hk =>
  ⟨_, parseRtp_getElem h hk, rfl, rfl⟩

theorem isRtp_of_mem {s : RtpServer} {f : EncodedFrame} {packets : List Bytes}
    (h : s.rtpPackets f = some packets) : ∀ d ∈ packets, isRtp d = true := by
  intro d hd
  obtain ⟨ps, -, rfl⟩ := rtpPackets_eq h
  obtain ⟨i, hi, rfl⟩ := List.getElem_of_mem hd
  have hi' : i < ps.length := by simpa using hi
  have hlen : 12 ≤ (packetAt s (timestamp f) ps i ps[i]).length := by
    simp [packetAt]
  rw [List.getElem_mapIdx, isRtp, decide_eq_true hlen]
  rfl

theorem isRtp_fecDatagram (f : EncodedFrame) (packets : List Bytes) :
    isRtp (fecDatagram f packets) = false := by
  simp [isRtp, fecDatagram, UdpHeader.write]

theorem sendFrame_spec {s s' : RtpServer} {f : EncodedFrame} {out : List Bytes}
    (h : s.sendFrame f = some (s', out)) :
    ∃ packets, s.rtpPackets f = some packets ∧ out.filter isRtp = packets ∧
      s'.seq = s.seq + UInt16.ofNat packets.length := by
  simp only [sendFrame, Option.bind_eq_bind, Option.bind_eq_some_iff, Option.pure_def] at h
  obtain ⟨packets, hp, h⟩ := h
  refine ⟨packets, hp, ?_⟩
  split_ifs at h with hemp
  · obtain ⟨rfl, rfl⟩ := Prod.mk.inj (Option.some.inj h)
    obtain rfl : packets = [] := by simpa using hemp
    simp
  · obtain ⟨rfl, rfl⟩ := Prod.mk.inj (Option.some.inj h)
    refine ⟨?_, rfl⟩
    rw [List.filter_append, List.filter_eq_self.2 (isRtp_of_mem hp)]
    simp [isRtp_fecDatagram]

theorem sendFrames_singleton {s s' : RtpServer} {f : EncodedFrame} {out : List Bytes}
    (h : s.sendFrame f = some (s', out)) : s.sendFrames [f] = some (s', [out]) := by
  simp only [sendFrames, h]
  rfl

/-- **The stream of RTP packets is numbered consecutively**, modulo `2 ^ 16`. -/
theorem numbered_sendFrames {s s' : RtpServer} {fs : List EncodedFrame} {outs : List (List Bytes)}
    (h : s.sendFrames fs = some (s', outs)) : Numbered s.seq (outs.flatten.filter isRtp) := by
  induction fs generalizing s outs with
  | nil =>
    simp only [sendFrames, Option.some.injEq, Prod.mk.injEq] at h
    obtain ⟨rfl, rfl⟩ := h
    intro k hk
    simp at hk
  | cons f fs ih =>
    simp only [sendFrames, Option.bind_eq_bind, Option.bind_eq_some_iff, Option.pure_def,
      Option.some.injEq, Prod.mk.injEq] at h
    obtain ⟨⟨s₁, out⟩, hf, ⟨s₂, outs'⟩, hfs, rfl, rfl⟩ := h
    obtain ⟨packets, hp, hout, hseq⟩ := sendFrame_spec hf
    rw [List.flatten_cons, List.filter_append, hout]
    apply (numbered_rtpPackets hp).append
    rw [← hseq]
    exact ih (s := s₁) hfs

end RtpServer

/-! ## The buffer -/

/-- Packets received in order: of `sent`, numbered from `base` on, the first `m` have been
popped, and the others are buffered. -/
structure Sequenced (base : UInt16) (sent : List Bytes) (m : ℕ) (jb : JitterBuffer RtpPkt) :
    Prop where
  le : m ≤ sent.length
  started : jb.started = !sent.isEmpty
  nextOut : sent ≠ [] → jb.nextOut.toNat = base.toNat + m
  size : jb.buf.size = sent.length - m
  maxUnits : jb.maxUnits = 1024
  room : sent.length - m ≤ 1024
  units : ∀ (k : UInt32) (u : JbUnit RtpPkt), jb.buf[k]? = some u →
    ∃ (j : ℕ) (hj : j < sent.length), m ≤ j ∧ k.toNat = base.toNat + j ∧ u.seq = k ∧
      ∃ p, u.data = some p ∧ p.raw = sent[j]
  present : ∀ j, m ≤ j → j < sent.length →
    ∃ u, jb.buf[UInt32.ofNat (base.toNat + j)]? = some u

namespace Sequenced

open JitterBuffer

variable {base : UInt16} {sent : List Bytes} {m : ℕ} {jb : JitterBuffer RtpPkt}

theorem fresh (base : UInt16) : Sequenced base [] 0 (.create 1024 true (10 * 1000)) where
  le := le_rfl
  started := rfl
  nextOut := fun h => absurd rfl h
  size := rfl
  maxUnits := rfl
  room := Nat.zero_le _
  units := fun k u hu => by simp [create] at hu
  present := fun j _ hj => absurd hj (Nat.not_lt_zero j)

/-- The invariant looks at the buffer, the due number, the flag and the capacity. -/
theorem congr (h : Sequenced base sent m jb) {jb' : JitterBuffer RtpPkt} (hbuf : jb'.buf = jb.buf)
    (hnext : jb'.nextOut = jb.nextOut) (hst : jb'.started = jb.started)
    (hmax : jb'.maxUnits = jb.maxUnits) : Sequenced base sent m jb' where
  le := h.le
  started := hst.trans h.started
  nextOut := fun hne => hnext ▸ h.nextOut hne
  size := hbuf ▸ h.size
  maxUnits := hmax.trans h.maxUnits
  room := h.room
  units := fun k u hu => h.units k u (hbuf ▸ hu)
  present := fun j hm hj => hbuf ▸ h.present j hm hj

section Next

/-! ### The next packet -/

variable {p : RtpPkt}

theorem toNat_baseOut (h : Sequenced base sent m jb)
    (hseq : p.seq.toNat = base.toNat + sent.length) :
    (jb.baseOut p.seq.toUInt32).toNat = base.toNat + m := by
  have hle := h.le
  unfold baseOut
  rw [h.started]
  cases hs : sent with
  | nil =>
    rw [hs] at hle hseq
    simp only [List.isEmpty_nil, Bool.not_true, Bool.false_eq_true, if_false,
      UInt16.toNat_toUInt32, hseq]
    simp at hle ⊢
    omega
  | cons d ds => exact h.nextOut (by rw [hs]; exact List.cons_ne_nil d ds)

/-- The next packet is as far ahead of the due number as there are packets in the buffer. -/
theorem toNat_gap (h : Sequenced base sent m jb)
    (hseq : p.seq.toNat = base.toNat + sent.length) :
    (seqDelta p.seq.toUInt32 (jb.baseOut p.seq.toUInt32)).toNat = sent.length - m := by
  have hle := h.le
  have hlt := p.seq.toNat_lt
  rw [seqDelta, UInt32.toNat_sub, UInt16.toNat_toUInt32, hseq, h.toNat_baseOut hseq]
  omega

theorem accepts_next (h : Sequenced base sent m jb)
    (hseq : p.seq.toNat = base.toNat + sent.length) : jb.accepts p.seq.toUInt32 = true := by
  have hgap := h.toNat_gap hseq
  have hroom := h.room
  rw [accepts, Bool.not_eq_true']
  cases hst : jb.started with
  | false => rfl
  | true =>
    have hb : jb.baseOut p.seq.toUInt32 = jb.nextOut := by simp [baseOut, hst]
    rw [Bool.true_and, Bool.eq_false_iff, Ne, seqLt_iff, ← hb]
    rw [seqDelta] at hgap
    omega

theorem vacant_next (h : Sequenced base sent m jb)
    (hseq : p.seq.toNat = base.toNat + sent.length) : jb.buf[p.seq.toUInt32]? = none := by
  cases hb : jb.buf[p.seq.toUInt32]? with
  | none => rfl
  | some u =>
    obtain ⟨j, hj, -, hk, -⟩ := h.units _ u hb
    rw [UInt16.toNat_toUInt32, hseq] at hk
    omega

theorem getElem?_push_next (h : Sequenced base sent m jb)
    (hseq : p.seq.toNat = base.toNat + sent.length) (hroom : jb.RoomFor p.seq.toUInt32)
    (genUs now : Int) (k : UInt32) :
    (jb.push p.seq.toUInt32 genUs (some p) now).1.buf[k]? =
      if p.seq.toUInt32 = k then
        some { seq := p.seq.toUInt32, genUs := genUs, firstRecvUs := now, data := some p }
      else jb.buf[k]? := by
  have hbuf : (jb.push p.seq.toUInt32 genUs (some p) now).1.buf = _ :=
    push_buf_of_room jb (h.accepts_next hseq) hroom (h.vacant_next hseq)
  rw [hbuf, TreeMap.getElem?_insert]
  simp only [Std.compare_eq_iff_eq]

theorem size_push_next (h : Sequenced base sent m jb)
    (hseq : p.seq.toNat = base.toNat + sent.length) (hroom : jb.RoomFor p.seq.toUInt32)
    (genUs now : Int) :
    (jb.push p.seq.toUInt32 genUs (some p) now).1.buf.size = sent.length - m + 1 ∧
      sent.length - m + 1 ≤ 1024 := by
  have hfree : jb.buf.contains p.seq.toUInt32 = false := by
    rw [TreeMap.contains_eq_isSome_getElem?, h.vacant_next hseq]
    rfl
  have hbuf : (jb.push p.seq.toUInt32 genUs (some p) now).1.buf = _ :=
    push_buf_of_room jb (h.accepts_next hseq) hroom (h.vacant_next hseq)
  have hsize := hroom (h.accepts_next hseq)
  rw [hfree, h.size, h.maxUnits] at hsize
  refine ⟨?_, hsize⟩
  rw [hbuf, TreeMap.size_insert, if_neg (by rw [hfree]; exact Bool.false_ne_true), h.size]

theorem push (h : Sequenced base sent m jb)
    (hseq : p.seq.toNat = base.toNat + sent.length) (hroom : jb.RoomFor p.seq.toUInt32)
    (genUs now : Int) :
    (jb.push p.seq.toUInt32 genUs (some p) now).2.1 = true ∧
      Sequenced base (sent ++ [p.raw]) m (jb.push p.seq.toUInt32 genUs (some p) now).1 := by
  have hle := h.le
  have hlt := p.seq.toNat_lt
  have hkey : p.seq.toUInt32.toNat = base.toNat + sent.length := by
    rw [UInt16.toNat_toUInt32, hseq]
  have ha := h.accepts_next hseq
  have hbuf := h.getElem?_push_next hseq hroom genUs now
  obtain ⟨hsize, hbound⟩ := h.size_push_next hseq hroom genUs now
  have hlength : (sent ++ [p.raw]).length = sent.length + 1 := List.length_append
  refine ⟨(push_accepted_eq jb).trans ha, ?_, ?_, ?_, ?_, ?_, ?_, ?_, ?_⟩
  · omega
  · rw [push_started jb ha]
    simp
  · intro _
    rw [push_nextOut jb ha, if_neg, h.toNat_baseOut hseq]
    rw [gt_iff_lt, UInt32.lt_iff_toNat_lt, h.toNat_gap hseq]
    simp
    omega
  · omega
  · rw [push_maxUnits, h.maxUnits]
  · omega
  · intro k u hu
    rw [hbuf] at hu
    split_ifs at hu with hk
    · subst hk
      obtain rfl := Option.some.inj hu
      exact ⟨sent.length, by omega, hle, hkey, rfl, p, rfl, by simp⟩
    · obtain ⟨j, hj, hm, hk', hseq', p', hp', hraw⟩ := h.units k u hu
      exact ⟨j, by omega, hm, hk', hseq', p', hp', by rw [hraw, List.getElem_append_left hj]⟩
  · intro j hm hj
    rw [hbuf]
    split_ifs with hk
    · exact ⟨_, rfl⟩
    · apply h.present j hm
      by_contra hge
      refine hk (UInt32.toNat_inj.1 ?_)
      rw [hkey, UInt32.toNat_ofNat']
      omega

end Next

theorem takeOut (h : Sequenced base sent m jb) (hwrap : base.toNat + sent.length ≤ 65536)
    {u : JbUnit RtpPkt} (hu : jb.buf[jb.nextOut]? = some u) (now : Int) :
    ∃ p, u.data = some p ∧ sent.take (m + 1) = sent.take m ++ [p.raw] ∧
      Sequenced base sent (m + 1) (jb.takeOut jb.nextOut u now) := by
  obtain ⟨j, hj, hm, hk, hseq, p, hp, hraw⟩ := h.units _ u hu
  have hne : sent ≠ [] := List.ne_nil_of_length_pos (by omega)
  obtain rfl : j = m := by
    have := h.nextOut hne
    omega
  refine ⟨p, hp, ?_, ?_⟩
  · rw [List.take_add_one, List.getElem?_eq_getElem hj, hraw]
    rfl
  · have hsz := h.size
    refine ⟨by omega, ?_, ?_, ?_, ?_, by have := h.room; omega, ?_, ?_⟩
    · rw [takeOut_started, h.started]
    · intro _
      rw [takeOut_nextOut, hseq, UInt32.toNat_add, hk]
      simp
      omega
    · rw [takeOut_buf, TreeMap.size_erase, if_pos, hsz]
      · omega
      · exact OrderedMap.contains_of_getElem? hu
    · rw [takeOut_maxUnits, h.maxUnits]
    · intro k v hv
      rw [takeOut_buf, TreeMap.getElem?_erase] at hv
      split_ifs at hv with hkn
      obtain ⟨i, hi, hmi, hki, hrest⟩ := h.units k v hv
      refine ⟨i, hi, ?_, hki, hrest⟩
      by_contra hlt
      refine hkn (Std.compare_eq_iff_eq.2 (UInt32.toNat_inj.1 ?_))
      omega
    · intro i hmi hi
      rw [takeOut_buf, TreeMap.getElem?_erase, if_neg]
      · exact h.present i (by omega) hi
      · rw [Std.compare_eq_iff_eq, ← UInt32.toNat_inj, hk, UInt32.toNat_ofNat']
        omega

theorem first?_eq_none (h : Sequenced base sent m jb) (hwrap : base.toNat + sent.length ≤ 65536)
    (hst : jb.started = true) (hmiss : jb.buf[jb.nextOut]? = none) :
    OrderedMap.first? jb.buf = none := by
  have hne : sent ≠ [] := by
    have := h.started
    rw [hst] at this
    simpa using this
  have hm : m = sent.length := by
    by_contra hm
    obtain ⟨v, hv⟩ := h.present m le_rfl (by have := h.le; omega)
    have : UInt32.ofNat (base.toNat + m) = jb.nextOut := by
      rw [← UInt32.toNat_inj, h.nextOut hne, UInt32.toNat_ofNat']
      have := h.le
      omega
    rw [this, hmiss] at hv
    cases hv
  apply OrderedMap.first?_eq_none_iff.2
  intro k
  cases hk : jb.buf[k]? with
  | none => rfl
  | some u =>
    obtain ⟨j, hj, hmj, -⟩ := h.units k u hk
    omega

/-- A packet that is popped is the next one. A gap is never skipped, since there is none. -/
theorem pop (h : Sequenced base sent m jb) (hwrap : base.toNat + sent.length ≤ 65536) (now : Int) :
    ((jb.pop now).2.1 = none ∧ Sequenced base sent m (jb.pop now).1) ∨
      ∃ u p, (jb.pop now).2.1 = some u ∧ u.data = some p ∧
        sent.take (m + 1) = sent.take m ++ [p.raw] ∧
        Sequenced base sent (m + 1) (jb.pop now).1 := by
  rcases pop_spec jb now with ⟨hnone, hbuf, hnext, hst, hmax⟩ |
      ⟨u, -, hu, hsome, hjb⟩ | ⟨head, u, hst, hmiss, -, hfirst, -⟩
  · exact .inl ⟨hnone, h.congr hbuf hnext hst hmax⟩
  · obtain ⟨p, hp, htake, hs⟩ := h.takeOut hwrap hu now
    exact .inr ⟨u, p, hsome, hp, htake, hjb ▸ hs⟩
  · rw [h.first?_eq_none hwrap hst hmiss] at hfirst
    cases hfirst

end Sequenced

namespace RtpReceiver

open RtpServer JitterBuffer

/-! ## One step -/

/-- The RTP packet that an input delivers. -/
def rtpPacket? : RtpInput → Option Bytes
  | .datagram buf _ => if isRtp buf then some buf else none
  | .pop _ => none

/-- The packets that were popped, in order. -/
def poppedPackets (os : List RtpOutput) : List Bytes :=
  os.filterMap fun
    | .popped p => some p.raw
    | _ => none

/-- What the pushes returned, in order. -/
def pushResults (os : List RtpOutput) : List Bool :=
  os.filterMap fun
    | .pushed _ ok => some ok
    | _ => none

/-- No packet was rejected. -/
def AllAccepted (os : List RtpOutput) : Prop := ∀ ok ∈ pushResults os, ok = true

/-- Should the packet be accepted, the jitter buffer has room for it. -/
def HasRoom (rx : RtpReceiver) : RtpInput → Prop
  | .datagram buf _ => ∀ p, parseRtp buf = some p → rx.jb.RoomFor p.seq.toUInt32
  | .pop _ => True

instance (rx : RtpReceiver) : DecidablePred (HasRoom rx)
  | .datagram buf _ =>
    inferInstanceAs (Decidable (∀ p ∈ parseRtp buf, rx.jb.RoomFor p.seq.toUInt32))
  | .pop _ => inferInstanceAs (Decidable True)

theorem poppedPackets_append (os os' : List RtpOutput) :
    poppedPackets (os ++ os') = poppedPackets os ++ poppedPackets os' := List.filterMap_append

theorem allAccepted_append {os os' : List RtpOutput} :
    AllAccepted (os ++ os') ↔ AllAccepted os ∧ AllAccepted os' := by
  rw [AllAccepted, pushResults, List.filterMap_append, List.forall_mem_append]
  rfl

theorem allAccepted_of_not_pushed {os : List RtpOutput} (h : ∀ p ok, .pushed p ok ∉ os) :
    AllAccepted os := by
  intro ok hok
  obtain ⟨o, ho, heq⟩ := List.mem_filterMap.1 hok
  cases o with
  | pushed p ok' => exact absurd ho (h p ok')
  | _ => cases heq

theorem poppedPackets_jb (evs : List JbEvent) : poppedPackets (evs.map .jb) = [] := by
  induction evs with
  | nil => rfl
  | cons e evs ih => exact ih

theorem poppedPackets_asm (es : List RtpEffect) : poppedPackets (es.map .asm) = [] := by
  induction es with
  | nil => rfl
  | cons e es ih => exact ih

theorem recv_of_rtp (rx : RtpReceiver) {buf : Bytes} (h : isRtp buf = true) {p : RtpPkt}
    (hp : parseRtp buf = some p) (now : Int) : rx.recv buf now = rx.pushPacket p now := by
  simp only [isRtp, Bool.and_eq_true, decide_eq_true_eq, beq_iff_eq] at h
  rw [recv, if_neg (by omega), if_pos h.2, hp]

theorem recv_of_not_rtp (rx : RtpReceiver) {buf : Bytes} (h : isRtp buf = false) (now : Int) :
    ((rx.recv buf now).1.jb = rx.jb ∨ ∃ ms, (rx.recv buf now).1.jb = rx.jb.setRttMs ms) ∧
      ((rx.recv buf now).2 = [] ∨ ∃ json, (rx.recv buf now).2 = [.remoteJson json]) := by
  unfold recv
  split_ifs with hlen h80 hmagic hsize
  · exact ⟨.inl rfl, .inl rfl⟩
  · rw [isRtp, decide_eq_true (Nat.le_of_not_lt hlen), h80] at h
    cases h
  · exact ⟨.inl rfl, .inl rfl⟩
  · simp only [recvControl]
    split_ifs
    · exact ⟨.inr ⟨_, rfl⟩, .inl rfl⟩
    · exact ⟨.inr ⟨_, rfl⟩, .inl rfl⟩
    · exact ⟨.inl rfl, .inl rfl⟩
    · exact ⟨.inl rfl, .inr ⟨_, rfl⟩⟩
    · exact ⟨.inl rfl, .inl rfl⟩
    · exact ⟨.inl rfl, .inl rfl⟩
  · exact ⟨.inl rfl, .inl rfl⟩

/-- The receiver's state and what was observed, with `sent` received so far. -/
def InOrder (base : UInt16) (sent : List Bytes) (rx : RtpReceiver) (os : List RtpOutput) : Prop :=
  ∃ m, Sequenced base sent m rx.jb ∧ AllAccepted os ∧ poppedPackets os = sent.take m

variable {base : UInt16} {sent : List Bytes} {rx : RtpReceiver} {os : List RtpOutput}

theorem InOrder.quiet (hacc : AllAccepted os) {os' : List RtpOutput}
    (hno : ∀ p ok, .pushed p ok ∉ os') : AllAccepted (os ++ os') :=
  allAccepted_append.2 ⟨hacc, allAccepted_of_not_pushed hno⟩

theorem InOrder.packet (h : InOrder base sent rx os) {buf : Bytes} {p : RtpPkt}
    (hrtp : isRtp buf = true) (hp : parseRtp buf = some p) (hraw : p.raw = buf)
    (hseq : p.seq.toNat = base.toNat + sent.length) (hroom : rx.jb.RoomFor p.seq.toUInt32)
    (now : Int) :
    InOrder base (sent ++ [buf]) (rx.recv buf now).1 (os ++ (rx.recv buf now).2) := by
  obtain ⟨m, hsent, hacc, hpop⟩ := h
  set q : RtpPkt := { p with captureMs := (rx.extendTs90 p.ts now).tdiv 90 } with hq
  obtain ⟨hok, hsent'⟩ := hsent.push (p := q) hseq hroom (q.captureMs * 1000) now
  rw [show q.raw = buf from hraw] at hsent'
  rw [recv_of_rtp rx hrtp hp now]
  refine ⟨m, hsent', ?_, ?_⟩
  · refine allAccepted_append.2 ⟨hacc, ?_⟩
    rw [pushPacket, ← hq, ← List.singleton_append, allAccepted_append]
    refine ⟨by simpa [AllAccepted, pushResults] using hok, allAccepted_of_not_pushed ?_⟩
    simp
  · rw [poppedPackets_append, hpop, List.take_append_of_le_length hsent.le]
    show _ ++ poppedPackets (.pushed q _ :: _) = _
    rw [show ∀ b os', poppedPackets (.pushed q b :: os') = poppedPackets os' from
      fun _ _ => rfl, poppedPackets_jb, List.append_nil]

theorem InOrder.other (h : InOrder base sent rx os) {buf : Bytes} (hrtp : isRtp buf = false)
    (now : Int) : InOrder base sent (rx.recv buf now).1 (os ++ (rx.recv buf now).2) := by
  obtain ⟨m, hsent, hacc, hpop⟩ := h
  obtain ⟨hjb, heff⟩ := recv_of_not_rtp rx hrtp now
  refine ⟨m, ?_, quiet hacc ?_, ?_⟩
  · rcases hjb with hjb | ⟨ms, hjb⟩
    · rw [hjb]
      exact hsent
    · rw [hjb]
      exact hsent.congr rfl rfl rfl rfl
  · rcases heff with he | ⟨json, he⟩ <;> simp [he]
  · rw [poppedPackets_append, hpop]
    rcases heff with he | ⟨json, he⟩ <;> simp [he, poppedPackets]

theorem InOrder.pop (h : InOrder base sent rx os) (hwrap : base.toNat + sent.length ≤ 65536)
    (now : Int) : InOrder base sent (rx.popUnit now).1 (os ++ (rx.popUnit now).2) := by
  obtain ⟨m, hsent, hacc, hpop⟩ := h
  rcases hsent.pop hwrap now with ⟨hnone, hsent'⟩ | ⟨u, p, hsome, hdata, htake, hsent'⟩
  · have hstep : rx.popUnit now =
        ({ rx with jb := (rx.jb.pop now).1 }, (rx.jb.pop now).2.2.map .jb) := by
      simp only [popUnit, hnone, Option.bind_none]
    rw [hstep]
    refine ⟨m, hsent', quiet hacc (by simp), ?_⟩
    rw [poppedPackets_append, poppedPackets_jb, List.append_nil, hpop]
  · have hstep : rx.popUnit now =
        ({ rx with jb := (rx.jb.pop now).1, asm := (rx.asm.assemble p now).1 },
          (rx.jb.pop now).2.2.map .jb ++ .popped p :: (rx.asm.assemble p now).2.map .asm) := by
      simp only [popUnit, hsome, Option.bind_some, hdata]
    rw [hstep]
    refine ⟨m + 1, hsent', quiet hacc (by simp), ?_⟩
    rw [poppedPackets_append, poppedPackets_append, poppedPackets_jb, List.nil_append,
      hpop, htake]
    show _ ++ p.raw :: poppedPackets _ = _
    rw [poppedPackets_asm]

theorem InOrder.step (h : InOrder base sent rx os) {i : RtpInput}
    (hnum : Numbered base (sent ++ (rtpPacket? i).toList))
    (hwrap : base.toNat + (sent ++ (rtpPacket? i).toList).length ≤ 65536) (hroom : HasRoom rx i) :
    InOrder base (sent ++ (rtpPacket? i).toList) (RtpReceiver.step rx i).1
      (os ++ (RtpReceiver.step rx i).2) := by
  cases i with
  | datagram buf now =>
    show InOrder base _ (rx.recv buf now).1 (os ++ (rx.recv buf now).2)
    by_cases hrtp : isRtp buf = true
    · rw [show rtpPacket? (.datagram buf now) = some buf from if_pos hrtp, Option.toList_some]
        at hnum hwrap ⊢
      obtain ⟨p, hp, hpseq, hraw⟩ := hnum sent.length (by simp)
      rw [List.getElem_append_right le_rfl] at hp hraw
      simp only [Nat.sub_self, List.getElem_singleton] at hp hraw
      have hseq : p.seq.toNat = base.toNat + sent.length := by
        simp only [List.length_append, List.length_singleton] at hwrap
        rw [hpseq, UInt16.toNat_add, UInt16.toNat_ofNat']
        omega
      exact h.packet hrtp hp hraw hseq (hroom p hp) now
    · rw [show rtpPacket? (.datagram buf now) = none from if_neg hrtp, Option.toList_none,
        List.append_nil]
      exact h.other (Bool.eq_false_iff.2 hrtp) now
  | pop now =>
    show InOrder base (sent ++ []) (rx.popUnit now).1 (os ++ (rx.popUnit now).2)
    rw [show rtpPacket? (.pop now) = none from rfl, Option.toList_none] at hwrap
    rw [List.append_nil] at hwrap ⊢
    exact h.pop hwrap now

/-! ## Runs -/

theorem filterMap_rtpPacket_cons (i : RtpInput) (is : List RtpInput) :
    (i :: is).filterMap rtpPacket? = (rtpPacket? i).toList ++ is.filterMap rtpPacket? := by
  rw [List.filterMap_cons]
  cases rtpPacket? i <;> rfl

theorem InOrder.run (h : InOrder base sent rx os) (is : List RtpInput)
    (hnum : Numbered base (sent ++ is.filterMap rtpPacket?))
    (hwrap : base.toNat + (sent ++ is.filterMap rtpPacket?).length ≤ 65536)
    (hroom : Runs.Along RtpReceiver.step HasRoom rx is) :
    InOrder base (sent ++ is.filterMap rtpPacket?) (Runs.after RtpReceiver.step rx is)
      (os ++ Runs.trace RtpReceiver.step rx is) := by
  induction is generalizing rx sent os with
  | nil => simpa using h
  | cons i is ih =>
    obtain ⟨hi, his⟩ := hroom
    rw [filterMap_rtpPacket_cons, ← List.append_assoc] at hnum hwrap ⊢
    have hnum₁ : Numbered base (sent ++ (rtpPacket? i).toList) :=
      hnum.of_isPrefix (List.prefix_append _ _)
    have h₁ := h.step hnum₁ (by simp at hwrap ⊢; omega) hi
    have h₂ := ih h₁ hnum hwrap his
    rwa [List.append_assoc os] at h₂

theorem inOrder_fresh (base : UInt16) : InOrder base [] {} [] :=
  ⟨0, Sequenced.fresh base, allAccepted_of_not_pushed (by simp), rfl⟩

/-- **Behind packet 65535, packet 0 is rejected.** The buffer waits for a number near 65536. -/
theorem wrapped_rejected (h : InOrder base sent rx os) (hlen : base.toNat + sent.length = 65536)
    {buf : Bytes} (hrtp : isRtp buf = true) {p : RtpPkt} (hp : parseRtp buf = some p)
    (hseq : p.seq = 0) (now : Int) :
    ¬ AllAccepted (RtpReceiver.step rx (.datagram buf now)).2 := by
  obtain ⟨m, hs, -, -⟩ := h
  have hbase := base.toNat_lt
  have hle := hs.le
  have hne : sent ≠ [] := List.ne_nil_of_length_pos (by omega)
  have hnext := hs.nextOut hne
  have hroom := hs.room
  have hrej : rx.jb.accepts p.seq.toUInt32 = false := by
    have hst : rx.jb.started = true := by
      rw [hs.started]
      simpa using hne
    have hlt : seqLt p.seq.toUInt32 rx.jb.nextOut = true := by
      rw [seqLt_iff, UInt32.toNat_sub, hnext, hseq]
      simp
      omega
    rw [accepts, hst, hlt]
    rfl
  show ¬ AllAccepted (rx.recv buf now).2
  rw [recv_of_rtp rx hrtp hp, pushPacket, ← List.singleton_append, allAccepted_append]
  intro h
  obtain ⟨hacc, -⟩ := h
  have := hacc _ (List.mem_singleton.2 rfl)
  rw [push_accepted_eq, hrej] at this
  cases this

theorem exists_delivery {is : List RtpInput} {j : ℕ} (hj : j < (is.filterMap rtpPacket?).length) :
    ∃ is₁ buf now is₂, is = is₁ ++ .datagram buf now :: is₂ ∧
      is₁.filterMap rtpPacket? = (is.filterMap rtpPacket?).take j ∧ isRtp buf = true ∧
      buf = (is.filterMap rtpPacket?)[j] := by
  set L := is.filterMap rtpPacket? with hL
  have hsplit : L = L.take j ++ L[j] :: L.drop (j + 1) := by
    rw [← List.drop_eq_getElem_cons hj, List.take_append_drop]
  obtain ⟨is₁, is', his, h₁, h'⟩ := List.filterMap_eq_append_iff.1 (hL.symm.trans hsplit)
  obtain ⟨is₂, i, is₃, his', hnone, hi, -⟩ := List.filterMap_eq_cons_iff.1 h'
  have hinit : (is₁ ++ is₂).filterMap rtpPacket? = L.take j := by
    rw [List.filterMap_append, h₁, List.filterMap_eq_nil_iff.2 hnone, List.append_nil]
  cases i with
  | pop now => cases hi
  | datagram buf now =>
    refine ⟨is₁ ++ is₂, buf, now, is₃, by rw [his, his', List.append_assoc], hinit, ?_⟩
    by_cases hrtp : isRtp buf = true
    · rw [rtpPacket?, if_pos hrtp] at hi
      exact ⟨hrtp, Option.some.inj hi⟩
    · rw [rtpPacket?, if_neg hrtp] at hi
      cases hi

/-- **In order until the counter wraps.** The RTP packets of successive frames arrive in the
order they are sent, with pops and other datagrams in between, and the jitter buffer has room
for each. All are accepted, and those popped are the first ones sent, in order, if and only if
no packet is sent behind number 65535. -/
theorem in_order_iff (s s' : RtpServer) (fs : List EncodedFrame) (outs : List (List Bytes))
    (hsend : s.sendFrames fs = some (s', outs)) (is : List RtpInput)
    (hdel : is.filterMap rtpPacket? <+: outs.flatten.filter isRtp)
    (hroom : Runs.Along RtpReceiver.step HasRoom {} is) :
    (AllAccepted (Runs.trace RtpReceiver.step {} is) ∧
      poppedPackets (Runs.trace RtpReceiver.step {} is) <+: is.filterMap rtpPacket?) ↔
    s.seq.toNat + (is.filterMap rtpPacket?).length ≤ 65536 := by
  have hnum := (numbered_sendFrames hsend).of_isPrefix hdel
  constructor
  · intro h
    obtain ⟨hacc, -⟩ := h
    by_contra hlong
    have hbase := s.seq.toNat_lt
    -- Split the run at the packet that comes behind number 65535.
    set j := 65536 - s.seq.toNat with hj
    have hjL : j < (is.filterMap rtpPacket?).length := by omega
    obtain ⟨is₁, buf, now, is₂, his, hinit, hrtp, hbuf⟩ := exists_delivery hjL
    obtain ⟨p, hp, hpseq, -⟩ := hnum j hjL
    rw [his, Runs.along_append] at hroom
    have hrun := (inOrder_fresh s.seq).run is₁
      (by rw [List.nil_append, hinit]; exact hnum.of_isPrefix (List.take_prefix j _))
      (by rw [List.nil_append, hinit, List.length_take]; omega) hroom.1
    rw [List.nil_append, hinit, List.nil_append] at hrun
    have hzero : p.seq = 0 := by
      rw [hpseq, ← UInt16.toNat_inj, UInt16.toNat_add, UInt16.toNat_ofNat']
      simp
      omega
    rw [his, Runs.trace_append, Runs.trace_cons, allAccepted_append, allAccepted_append] at hacc
    exact wrapped_rejected hrun (by rw [List.length_take]; omega) hrtp (hbuf ▸ hp) hzero now
      hacc.2.1
  · intro hwrap
    obtain ⟨m, -, hacc, hpop⟩ := (inOrder_fresh s.seq).run is (by simpa using hnum)
      (by simpa using hwrap) hroom
    rw [List.nil_append] at hacc
    simp only [List.nil_append] at hpop
    exact ⟨hacc, hpop ▸ List.take_prefix m _⟩

/-- Two packets numbered 7 and 8. -/
theorem in_order_two :
    ∃ s' outs, (smallServer 7).sendFrames [idrFrame] = some (s', outs) ∧
      (AllAccepted (Runs.trace RtpReceiver.step {}
          [.datagram (rtpHeader false 7 3600 0 ++ [0x65, 1]) 1000000, .pop 2000000,
            .datagram (rtpHeader true 8 3600 0 ++ [0x41, 2]) 2000001]) ∧
        poppedPackets (Runs.trace RtpReceiver.step {}
          [.datagram (rtpHeader false 7 3600 0 ++ [0x65, 1]) 1000000, .pop 2000000,
            .datagram (rtpHeader true 8 3600 0 ++ [0x41, 2]) 2000001]) <+:
          [rtpHeader false 7 3600 0 ++ [0x65, 1], rtpHeader true 8 3600 0 ++ [0x41, 2]]) := by
  have hpackets : (smallServer 7).rtpPackets idrFrame = some
      [rtpHeader false 7 3600 0 ++ [0x65, 1], rtpHeader true 8 3600 0 ++ [0x41, 2]] := by
    decide +kernel
  obtain ⟨s', hsend⟩ := sendFrame_of_packets hpackets (by decide)
  have hsends := sendFrames_singleton hsend
  exact ⟨s', _, hsends, (in_order_iff (smallServer 7) s' [idrFrame] _ hsends
    [.datagram (rtpHeader false 7 3600 0 ++ [0x65, 1]) 1000000, .pop 2000000,
      .datagram (rtpHeader true 8 3600 0 ++ [0x41, 2]) 2000001]
    (by decide +kernel) (by decide +kernel)).2 (by decide +kernel)⟩

/-- The second of two packets is numbered 0, and is rejected. -/
theorem wrapped_out :
    ∃ s' outs, (smallServer 65535).sendFrames [idrFrame] = some (s', outs) ∧
      Runs.Along RtpReceiver.step HasRoom {} (outs.flatten.map (.datagram · 1000000)) ∧
      pushResults (Runs.trace RtpReceiver.step {} (outs.flatten.map (.datagram · 1000000))) =
        [true, false] := by
  have hpackets : (smallServer 65535).rtpPackets idrFrame = some
      [rtpHeader false 65535 3600 0 ++ [0x65, 1], rtpHeader true 0 3600 0 ++ [0x41, 2]] := by
    decide +kernel
  obtain ⟨s', hsend⟩ := sendFrame_of_packets hpackets (by decide)
  have hsends := sendFrames_singleton hsend
  exact ⟨s', _, hsends, by decide +kernel, by decide +kernel⟩

end RtpReceiver

end Rtstream
