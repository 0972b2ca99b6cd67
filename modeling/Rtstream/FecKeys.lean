import Rtstream.RtpSequence

/-!
# The key of a frame's parity

The server sends a frame's parity with the capture time in milliseconds, 32 bits of it, and the
receiver stores it under that. To look it up the receiver has only the RTP timestamps, 32 bits of
the capture time in 90 kHz ticks. It rebuilds the full tick count, around its own clock for the
first packet and around the previous packet after that, and divides by 90.

The rebuilt count can be off by a multiple of `2 ^ 32` ticks, and 90 does not divide `2 ^ 32`:
the keys agree exactly when it is off by a multiple of `90 * 2 ^ 32` (`key_eq_iff`).
`keys_agree_iff` says what that comes to along a session.
-/

namespace Rtstream

/-! ## Ticks and milliseconds -/

/-- The capture time in 90 kHz ticks, before it is cut to 32 bits. -/
def EncodedFrame.ticks (f : EncodedFrame) : Int := f.captureUs.tdiv 1000 * 90

theorem toUInt32_eq_iff {x y : Int} : toUInt32 x = toUInt32 y ↔ (2 ^ 32 : Int) ∣ x - y := by
  have hx := toNat_toUInt32 x
  have hy := toNat_toUInt32 y
  rw [← UInt32.toNat_inj]
  omega

/-- **Off by a multiple of `90 * 2 ^ 32`.** Ticks with the right low bits give the right
milliseconds, cut to 32 bits, for no other error. -/
theorem key_eq_iff {full ms : Int} (hlow : (2 ^ 32 : Int) ∣ full - ms * 90) :
    toUInt32 (full.tdiv 90) = toUInt32 ms ↔ (90 * 2 ^ 32 : Int) ∣ full - ms * 90 := by
  have hdiv := Int.mul_tdiv_add_tmod full 90
  have hlt := Int.tmod_lt_of_pos full (by decide : (0 : Int) < 90)
  have hgt := Int.lt_tmod_of_pos full (by decide : (0 : Int) < 90)
  rw [toUInt32_eq_iff]
  omega

/-! ## The rebuilt time -/

/-- At most half a period from the clock, and in the clock's own period if it is as far as
that. -/
def Near (now x : Int) : Prop :=
  now - 2 ^ 31 ≤ x ∧ x ≤ now + 2 ^ 31 ∧
    (x = now - 2 ^ 31 ∨ x = now + 2 ^ 31 → x / 2 ^ 32 = now / 2 ^ 32)

instance (now x : Int) : Decidable (Near now x) := inferInstanceAs (Decidable (_ ∧ _ ∧ (_ → _)))

/-- **The first time is the one near the clock.** -/
theorem extendFirst_eq_iff {now x : Int} {lo : UInt32} (hlow : x % 2 ^ 32 = lo.toNat) :
    extendFirst now lo = x ↔ Near now x := by
  have hlt := lo.toNat_lt
  have hsplice : splice now lo = now - now % 2 ^ 32 + lo.toNat := rfl
  simp only [extendFirst, Near]
  by_cases hhigh : splice now lo > now + 2 ^ 31
  · rw [if_pos hhigh, if_neg (by omega)]
    omega
  · rw [if_neg hhigh]
    split_ifs <;> omega

namespace RtpReceiver

open RtpServer

/-! ## A session -/

/-- An input, and the frame it carries a packet of, if it carries one. -/
structure SessionInput where
  frame : EncodedFrame
  input : RtpInput
  deriving DecidableEq, Repr

/-- The receiver, and the frame of the last packet it has seen. -/
structure Session where
  rx : RtpReceiver
  prev : Option EncodedFrame := none

/-- The RTP packet of an input, with the time it arrives at. -/
def packet? : RtpInput → Option (RtpPkt × Int)
  | .datagram buf now => (parseRtp buf).map (·, now)
  | .pop _ => none

/-- The session as a machine. What is observed is kept with the frame it belongs to. -/
def sessionStep : Runs.Machine Session SessionInput (EncodedFrame × RtpOutput) := fun s i =>
  ({ rx := (s.rx.step i.input).1
     prev := if (packet? i.input).isSome then some i.frame else s.prev },
    (s.rx.step i.input).2.map (i.frame, ·))

/-- The packet is one of its frame, and its frame was captured less than `2 ^ 31` ticks from the
frame of the packet before. -/
def FollowsOn (s : Session) (i : SessionInput) : Prop :=
  ∀ p now, packet? i.input = some (p, now) →
    p.ts = timestamp i.frame ∧ ∀ g ∈ s.prev, |i.frame.ticks - g.ticks| < 2 ^ 31

/-- When there is no previous time, the receiver's clock, in ticks, is near the capture time on
the server's clock, up to a multiple of `90 * 2 ^ 32` ticks. -/
def ClockFits (s : Session) (i : SessionInput) : Prop :=
  ∀ p now, packet? i.input = some (p, now) → s.rx.lastTs90Full = 0 →
    ∃ j, Near ((now * 90).tdiv 1000) (i.frame.ticks + j * (90 * 2 ^ 32))

/-- The key a packet's frame is looked up by is the one its parity is stored under. -/
def KeyAgrees : EncodedFrame × RtpOutput → Prop
  | (f, .pushed p _) => ∀ packets,
      toUInt32 p.captureMs = (UdpHeader.read (fecDatagram f packets)).captureUsLo
  | _ => True

theorem captureUsLo_fecDatagram (f : EncodedFrame) (packets : List Bytes) :
    (UdpHeader.read (fecDatagram f packets)).captureUsLo = toUInt32 (f.captureUs.tdiv 1000) := by
  rw [fecDatagram, UdpHeader.read_write]
  rfl

theorem isRtp_of_parse {buf : Bytes} {p : RtpPkt} (h : parseRtp buf = some p) :
    isRtp buf = true := by
  unfold parseRtp at h
  split_ifs at h with hshort
  simp only [not_or, not_lt, ne_eq, not_not] at hshort
  rw [isRtp, hshort.2]
  simpa using hshort.1

theorem parse_of_isRtp {buf : Bytes} (h : isRtp buf = true) : (parseRtp buf).isSome := by
  simp only [isRtp, Bool.and_eq_true, decide_eq_true_eq, beq_iff_eq] at h
  rw [parseRtp, if_neg (not_or.mpr ⟨not_lt.mpr h.1, not_not.mpr h.2⟩), h.2, if_neg (by decide)]
  rfl

theorem lastTs90Full_recv (rx : RtpReceiver) {buf : Bytes} (h : isRtp buf = false) (now : Int) :
    (rx.recv buf now).1.lastTs90Full = rx.lastTs90Full := by
  unfold recv
  split_ifs with hlen h80
  · rfl
  · rw [isRtp, decide_eq_true (Nat.le_of_not_lt hlen), h80] at h
    cases h
  · rfl
  · simp only [recvControl]
    split_ifs <;> rfl
  · rfl

/-- The time rebuilt for a packet has the low bits of its frame's. -/
theorem low_extendTs90 (rx : RtpReceiver) (f : EncodedFrame) (now : Int) :
    (2 ^ 32 : Int) ∣ rx.extendTs90 (timestamp f) now - f.ticks := by
  have hlow := extendLow32_emod rx.lastTs90Full ((now * 90).tdiv 1000) (timestamp f)
  have hts : ((timestamp f).toNat : Int) = f.ticks % 2 ^ 32 := toNat_toUInt32 f.ticks
  rw [hts] at hlow
  rw [extendTs90]
  omega

variable {s : Session} {i : SessionInput}

theorem step_of_no_packet {rx : RtpReceiver} {i : RtpInput} (h : packet? i = none) :
    (rx.step i).1.lastTs90Full = rx.lastTs90Full ∧ ∀ p ok, .pushed p ok ∉ (rx.step i).2 := by
  cases i with
  | datagram buf now =>
    have hparse : parseRtp buf = none := Option.map_eq_none_iff.mp h
    have hrtp : isRtp buf = false := by
      by_contra hrtp
      have := parse_of_isRtp (Bool.not_eq_false _ ▸ hrtp)
      rw [hparse] at this
      cases this
    refine ⟨lastTs90Full_recv rx hrtp now, fun p ok => ?_⟩
    rcases (recv_of_not_rtp rx hrtp now).2 with hout | ⟨json, hout⟩
    · simp [step, hout]
    · simp [step, hout]
  | pop now =>
    simp only [step, popUnit]
    cases (rx.jb.pop now).2.1.bind (·.data) with
    | none => exact ⟨rfl, by simp⟩
    | some p => exact ⟨rfl, by simp⟩

theorem step_of_packet {rx : RtpReceiver} {i : RtpInput} {p : RtpPkt} {now : Int}
    (h : packet? i = some (p, now)) : rx.step i = rx.pushPacket p now := by
  cases i with
  | datagram buf now' =>
    obtain ⟨p', hp, heq⟩ := Option.map_eq_some_iff.mp h
    obtain ⟨rfl, rfl⟩ := Prod.mk.inj heq
    exact recv_of_rtp rx (isRtp_of_parse hp) hp _
  | pop now' => cases h

/-- The previous time is off by a multiple of `90 * 2 ^ 32` ticks. -/
def KeepsTime (s : Session) : Prop :=
  s.rx.lastTs90Full = 0 ∨
    ∃ g ∈ s.prev, (90 * 2 ^ 32 : Int) ∣ s.rx.lastTs90Full - g.ticks

theorem extendTs90_iff (hs : KeepsTime s) (hi : FollowsOn s i) {p : RtpPkt} {now : Int}
    (hp : packet? i.input = some (p, now)) :
    (90 * 2 ^ 32 : Int) ∣ s.rx.extendTs90 p.ts now - i.frame.ticks ↔
      (s.rx.lastTs90Full = 0 →
        ∃ j, Near ((now * 90).tdiv 1000) (i.frame.ticks + j * (90 * 2 ^ 32))) := by
  obtain ⟨hts, hnear⟩ := hi p now hp
  have hlow : ∀ j : Int, (i.frame.ticks + j * (90 * 2 ^ 32)) % 2 ^ 32 = p.ts.toNat := by
    intro j
    have hlow := low_extendTs90 s.rx i.frame now
    have hmod := extendLow32_emod s.rx.lastTs90Full ((now * 90).tdiv 1000) (timestamp i.frame)
    rw [extendTs90] at hlow
    rw [hts]
    omega
  by_cases hzero : s.rx.lastTs90Full = 0
  · have hfirst : s.rx.extendTs90 p.ts now = extendFirst ((now * 90).tdiv 1000) p.ts :=
      if_pos hzero
    simp only [hzero, forall_const, hfirst, ← extendFirst_eq_iff (hlow _)]
    constructor
    · rintro ⟨j, hj⟩
      exact ⟨j, by omega⟩
    · rintro ⟨j, hj⟩
      exact ⟨j, by omega⟩
  · have hnext : s.rx.extendTs90 p.ts now = extendNext s.rx.lastTs90Full p.ts := if_neg hzero
    obtain ⟨g, hg, j, hj⟩ := hs.resolve_left hzero
    have hclose := hnear g hg
    have hx : extendNext s.rx.lastTs90Full p.ts = i.frame.ticks + j * (90 * 2 ^ 32) := by
      refine extendNext_eq (hlow j) ?_
      have hdiff : i.frame.ticks + j * (90 * 2 ^ 32) - s.rx.lastTs90Full =
          i.frame.ticks - g.ticks := by omega
      rwa [hdiff]
    refine iff_of_true ?_ fun h => absurd h hzero
    rw [hnext, hx]
    exact ⟨j, by omega⟩

theorem keyAgrees_step (hs : KeepsTime s) (hi : FollowsOn s i) :
    (∀ o ∈ (sessionStep s i).2, KeyAgrees o) ↔ ClockFits s i := by
  cases hp : packet? i.input with
  | none =>
    refine iff_of_true (fun o ho => ?_) fun p now h => by simp [hp] at h
    obtain ⟨e, he, rfl⟩ := List.mem_map.mp ho
    cases e with
    | pushed p ok => exact absurd he ((step_of_no_packet hp).2 p ok)
    | _ => trivial
  | some x =>
    obtain ⟨p, now⟩ := x
    have hfits : ClockFits s i ↔ (s.rx.lastTs90Full = 0 →
        ∃ j, Near ((now * 90).tdiv 1000) (i.frame.ticks + j * (90 * 2 ^ 32))) := by
      simp [ClockFits, hp]
    have hlow := low_extendTs90 s.rx i.frame now
    rw [← (hi p now hp).1] at hlow
    rw [hfits, ← extendTs90_iff hs hi hp, EncodedFrame.ticks, ← key_eq_iff hlow]
    simp only [sessionStep, step_of_packet hp, pushPacket, List.map_cons, List.map_map,
      List.forall_mem_cons, KeyAgrees, captureUsLo_fecDatagram, forall_const, List.forall_mem_map,
      Function.comp, and_true, implies_true]

theorem keepsTime_step (hs : KeepsTime s) (hi : FollowsOn s i) (hfits : ClockFits s i) :
    KeepsTime (sessionStep s i).1 := by
  cases hp : packet? i.input with
  | none =>
    rw [KeepsTime, sessionStep, (step_of_no_packet hp).1, hp]
    exact hs
  | some x =>
    obtain ⟨p, now⟩ := x
    refine .inr ⟨i.frame, by simp [sessionStep, hp], ?_⟩
    rw [sessionStep, step_of_packet hp]
    exact (extendTs90_iff hs hi hp).mpr (hfits p now hp)

/-- **The keys agree exactly while the clock fits.** Over every session of packets of frames less
than `2 ^ 31` ticks apart, with any other inputs between them. -/
theorem keys_agree_iff {rx : RtpReceiver} (hnew : rx.lastTs90Full = 0) {is : List SessionInput}
    (hsession : Runs.Along sessionStep FollowsOn { rx := rx } is) :
    (∀ o ∈ Runs.trace sessionStep { rx := rx } is, KeyAgrees o) ↔
      Runs.Along sessionStep ClockFits { rx := rx } is := by
  have hkeeps : KeepsTime { rx := rx } := .inl hnew
  generalize ({ rx := rx } : Session) = s at hsession hkeeps ⊢
  induction is generalizing s with
  | nil => simp
  | cons i is ih =>
    obtain ⟨hi, hsession⟩ := hsession
    rw [Runs.trace_cons, List.forall_mem_append, keyAgrees_step hkeeps hi, Runs.along_cons]
    refine and_congr_right fun hfits => ?_
    exact ih _ hsession (keepsTime_step hkeeps hi hfits)

/-- The first packet of a frame captured one second after the server's start, received at time
`now` of the receiver. -/
def firstPacket (now : Int) : SessionInput where
  frame := { captureUs := 1000000 }
  input := .datagram (rtpHeader true 0 90000 1 ++ [0x65]) now

theorem packet?_firstPacket (now : Int) :
    packet? (firstPacket now).input = some (
      { marker := true, seq := 0, ts := 90000, raw := rtpHeader true 0 90000 1 ++ [0x65] },
      now) := by
  have hparse : parseRtp (rtpHeader true 0 90000 1 ++ [0x65]) = some
      { marker := true, seq := 0, ts := 90000, raw := rtpHeader true 0 90000 1 ++ [0x65] } := by
    decide
  rw [firstPacket, packet?, hparse]
  rfl

theorem followsOn_firstPacket (rx : RtpReceiver) (now : Int) :
    FollowsOn { rx := rx } (firstPacket now) := by
  intro p now' h
  rw [packet?_firstPacket] at h
  obtain ⟨rfl, rfl⟩ := Prod.mk.inj (Option.some.inj h)
  have hts : timestamp (firstPacket now).frame = 90000 := by
    show timestamp { captureUs := 1000000 } = 90000
    decide
  exact ⟨hts.symm, by simp⟩

/-- A receiver that started two seconds ago. -/
theorem keys_agree_first :
    Runs.Along sessionStep FollowsOn { rx := {} } [firstPacket 2000000] ∧
      ∀ o ∈ Runs.trace sessionStep { rx := {} } [firstPacket 2000000], KeyAgrees o := by
  have hsession : Runs.Along sessionStep FollowsOn { rx := {} } [firstPacket 2000000] :=
    ⟨followsOn_firstPacket _ _, trivial⟩
  refine ⟨hsession, (keys_agree_iff rfl hsession).mpr ⟨fun p now h _ => ⟨0, ?_⟩, trivial⟩⟩
  rw [packet?_firstPacket] at h
  obtain ⟨-, rfl⟩ := Prod.mk.inj (Option.some.inj h)
  decide

/-- **A receiver that started 60000 seconds before** takes the packet for one of 2 ^ 32 ticks
later, and looks for the parity under 47722858 where it is stored under 1000. -/
theorem keys_differ :
    FollowsOn { rx := {} } (firstPacket 60000000000) ∧
      ¬ ∀ o ∈ Runs.trace sessionStep { rx := {} } [firstPacket 60000000000], KeyAgrees o := by
  refine ⟨followsOn_firstPacket _ _, fun h => ?_⟩
  rw [Runs.trace_cons, List.forall_mem_append,
    keyAgrees_step (.inl rfl) (followsOn_firstPacket _ _)] at h
  obtain ⟨j, hlo, hhi, -⟩ := h.1 _ _ (packet?_firstPacket _) rfl
  have hticks : (firstPacket 60000000000).frame.ticks = 90000 := by decide
  have hnow : ((60000000000 : Int) * 90).tdiv 1000 = 5400000000 := by decide
  rw [hticks, hnow] at hlo hhi
  omega

end RtpReceiver

end Rtstream
