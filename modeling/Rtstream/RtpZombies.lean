import Rtstream.RtpLoss
import Rtstream.RtpRecovery

/-!
# What completes a zombie

A frame that is not ready at its marker waits among the zombies, for 250 ms, so that the packets it
lacks can be sent once more. `zombie_completed_iff` says when it is output with all its packets:
exactly when it lacks one, `expire_zombies` finds its parity before the time is over, and no packet
is longer than the one that is rebuilt.

Packets that are sent once more do not come into it. The due number of the jitter buffer has passed
them, and they are too old (`resent_rejected`); and `assemble_loop` adds a packet to the frame that
is being collected, never to a zombie.
-/

namespace Rtstream

open Std (TreeMap)

/-! ## What a turn does to a zombie -/

/-- What becomes of a zombie: it waits on, at some place, or it is recovered with a packet, or it is
counted as lost. -/
inductive Fate
  | waits (place : ℕ)
  | recovered (raw : Bytes)
  | lost
  deriving DecidableEq, Repr

namespace Fate

/-- Its place, if it waits on. -/
def place? : Fate → Option ℕ
  | .waits i => some i
  | _ => none

/-- How it leaves, if it does. -/
def leaves : Fate → List Fate
  | .waits _ => []
  | fate => [fate]

end Fate

namespace Assembler

variable {m : Assembler} {p : RtpPkt} {now : Int} {i : ℕ} {z : FrameState}

/-- The parities there are when `expire_zombies` comes to the zombie at place `i`. -/
def fecAt (m : Assembler) (p : RtpPkt) (now : Int) (i : ℕ) : TreeMap UInt32 Bytes :=
  (expireLoop now (m.closed p now).1.fec (m.zombies.take i)).1

/-- What becomes of zombie `z`, at place `i`, in a turn of `assemble_loop`. -/
def fate (m : Assembler) (p : RtpPkt) (now : Int) (i : ℕ) (z : FrameState) : Fate :=
  match z.recover (m.fecAt p now i) with
  | some raw => .recovered raw
  | none =>
      if now - z.firstSeenUs > 250 * 1000 then .lost
      else .waits (expireLoop now (m.closed p now).1.fec (m.zombies.take i)).2.1.length

theorem expireLoop_append (now : Int) (fec : TreeMap UInt32 Bytes) (zs zs' : List FrameState) :
    expireLoop now fec (zs ++ zs') =
      ((expireLoop now (expireLoop now fec zs).1 zs').1,
        (expireLoop now fec zs).2.1 ++ (expireLoop now (expireLoop now fec zs).1 zs').2.1,
        (expireLoop now fec zs).2.2 ++ (expireLoop now (expireLoop now fec zs).1 zs').2.2) := by
  induction zs generalizing fec with
  | nil => rfl
  | cons z zs ih =>
    rw [List.cons_append]
    cases hz : z.recover fec with
    | some raw => simp only [expireLoop, hz, ih, List.append_assoc, List.cons_append]
    | none =>
      simp only [expireLoop, hz, ih]
      split_ifs <;> rfl

theorem closed_zombies (m : Assembler) (p : RtpPkt) (now : Int) :
    ∃ parked, (m.closed p now).1.zombies = m.zombies ++ parked := by
  rcases m.closed_spec p now with ⟨fec', -, hm, -⟩ | ⟨-, fec', parked, -, -, -, hm, -⟩
  · rw [hm]
    exact ⟨[], (List.append_nil _).symm⟩
  · rw [hm]
    exact ⟨parked, rfl⟩

/-- **A zombie leaves or stays as it is.** Nothing is added to it. -/
theorem fate_spec (hz : m.zombies[i]? = some z) (p : RtpPkt) (now : Int) :
    match m.fate p now i z with
    | .waits j => (m.assemble p now).1.zombies[j]? = some z
    | .recovered raw => ∃ es es',
        (m.assemble p now).2 = es ++ (z.emit (some raw) now ++ .fecRecovered :: es')
    | .lost => ∃ es es', (m.assemble p now).2 = es ++ .lost z.lostCount :: es' := by
  obtain ⟨parked, hparked⟩ := m.closed_zombies p now
  have hsplit : (m.closed p now).1.zombies =
      m.zombies.take i ++ z :: (m.zombies.drop (i + 1) ++ parked) := by
    obtain ⟨hi, rfl⟩ := List.getElem?_eq_some_iff.1 hz
    rw [hparked, ← List.cons_append, List.getElem_cons_drop, ← List.append_assoc,
      List.take_append_drop]
  rw [assemble_eq, expireZombies, hsplit, expireLoop_append]
  unfold fate
  cases hrec : z.recover (m.fecAt p now i) with
  | some raw =>
    rw [fecAt] at hrec
    simp only [expireLoop, hrec]
    exact ⟨_, _, (List.append_assoc _ _ _).symm⟩
  | none =>
    rw [fecAt] at hrec
    by_cases hlate : now - z.firstSeenUs > 250 * 1000
    · simp only [expireLoop, hrec, if_pos hlate]
      exact ⟨_, _, (List.append_assoc _ _ _).symm⟩
    · simp only [expireLoop, hrec, if_neg hlate]
      rw [List.getElem?_append_right le_rfl, Nat.sub_self]
      rfl

end Assembler

/-! ## The receiver -/

namespace RtpReceiver

open RtpServer

variable {rx : RtpReceiver} {z : FrameState} {i : ℕ} {now : Int} {p : RtpPkt}

theorem popUnit_eq (rx : RtpReceiver) (now : Int) :
    rx.popUnit now =
      match rx.handedOut (.pop now) with
      | none => ({ rx with jb := (rx.jb.pop now).1 }, (rx.jb.pop now).2.2.map .jb)
      | some p => ({ rx with jb := (rx.jb.pop now).1, asm := (rx.asm.assemble p now).1 },
          (rx.jb.pop now).2.2.map .jb ++ .popped p :: (rx.asm.assemble p now).2.map .asm) := by
  cases h : (rx.jb.pop now).2.1.bind (·.data) with
  | none => simp only [popUnit, handedOut, h]
  | some p => simp only [popUnit, handedOut, h]

/-! ## Frames without empty packets -/

/-- No packet is an empty string, and the zombies have seen their markers. -/
structure Sound (rx : RtpReceiver) : Prop where
  units : ∀ (k : UInt32) (u : JbUnit RtpPkt) (p : RtpPkt), rx.jb.buf[k]? = some u →
    u.data = some p → p.raw ≠ []
  cur : rx.asm.cur.Solid
  zombies : ∀ z ∈ rx.asm.zombies, z.Solid ∧ z.markerSeen = true

theorem joined_solid {m : Assembler} (hcur : m.cur.Solid) (hp : p.raw ≠ []) (now : Int) :
    (m.joined p now).Solid := by
  intro k r hk
  unfold Assembler.joined at hk
  have hadd : ∀ f : FrameState, f.Solid → (Assembler.addPacket f p).Solid := by
    intro f hf k r hk
    have hk : (f.raws.insertIfNew p.seq p.raw)[k]? = some r := hk
    rw [TreeMap.getElem?_insertIfNew] at hk
    split_ifs at hk
    · exact Option.some.inj hk ▸ hp
    · exact hf k r hk
  split_ifs at hk
  · exact hadd _ (fun k r hk => by simp [Assembler.openFrame] at hk) k r hk
  · exact hadd _ hcur k r hk

theorem joined_markerSeen {m : Assembler} (hp : p.marker = true) (now : Int) :
    (m.joined p now).markerSeen = true := by
  simp [Assembler.joined, Assembler.addPacket, hp]

theorem raw_of_parse {buf : Bytes} (h : parseRtp buf = some p) : p.raw = buf ∧ buf ≠ [] := by
  unfold parseRtp at h
  split_ifs at h with hshort
  obtain rfl := Option.some.inj h
  refine ⟨rfl, ?_⟩
  rintro rfl
  exact hshort (.inl (by decide))

namespace Sound

theorem fresh : Sound {} where
  units := fun k u p hu => by simp [JitterBuffer.create] at hu
  cur := fun k r hk => by simp at hk
  zombies := fun z hz => by cases hz

theorem datagram (h : Sound rx) (buf : Bytes) (now : Int) : Sound (rx.recv buf now).1 := by
  obtain ⟨hcur, hzombies⟩ := rx.recv_frames buf now
  refine ⟨fun k u p hu hp => ?_, hcur ▸ h.cur, hzombies ▸ h.zombies⟩
  cases hrtp : isRtp buf with
  | false =>
    have hbuf : (rx.recv buf now).1.jb.buf = rx.jb.buf := by
      rcases (recv_of_not_rtp rx hrtp now).1 with hjb | ⟨ms, hjb⟩
      · rw [hjb]
      · rw [hjb]
        rfl
    exact h.units k u p (hbuf ▸ hu) hp
  | true =>
    cases hparse : parseRtp buf with
    | none =>
      simp only [isRtp, Bool.and_eq_true, decide_eq_true_eq, beq_iff_eq] at hrtp
      rw [recv, if_neg (by omega), if_pos hrtp.2, hparse] at hu
      exact h.units k u p hu hp
    | some q =>
      obtain ⟨hraw, hne⟩ := raw_of_parse hparse
      rw [recv_of_rtp rx hrtp hparse] at hu
      rcases JitterBuffer.getElem?_push rx.jb hu with hu | ⟨-, rfl⟩
      · exact h.units k u p hu hp
      · obtain rfl := Option.some.inj hp
        exact hraw ▸ hne

theorem handedOut (h : Sound rx) (now : Int) :
    (∀ p, rx.handedOut (.pop now) = some p → p.raw ≠ []) ∧
      ∀ (k : UInt32) (u : JbUnit RtpPkt) (p : RtpPkt), (rx.jb.pop now).1.buf[k]? = some u →
        u.data = some p → p.raw ≠ [] := by
  have htake : ∀ (head : UInt32) (v : JbUnit RtpPkt), rx.jb.buf[head]? = some v →
      (rx.jb.pop now).2.1 = some v → (rx.jb.pop now).1 = rx.jb.takeOut head v now →
      (∀ p, rx.handedOut (.pop now) = some p → p.raw ≠ []) ∧
        ∀ (k : UInt32) (u : JbUnit RtpPkt) (p : RtpPkt), (rx.jb.pop now).1.buf[k]? = some u →
          u.data = some p → p.raw ≠ [] := by
    intro head v hv hout hjb
    refine ⟨fun p hp => ?_, fun k u p hu hp => ?_⟩
    · rw [RtpReceiver.handedOut, hout, Option.bind_some] at hp
      exact h.units head v p hv hp
    · rw [hjb, JitterBuffer.takeOut_buf, TreeMap.getElem?_erase] at hu
      split_ifs at hu
      exact h.units k u p hu hp
  rcases JitterBuffer.pop_spec rx.jb now with ⟨hnone, hbuf, -⟩ | ⟨u, -, hu, hout, hjb⟩ |
      ⟨head, u, -, -, -, hfirst, hout, hjb⟩
  · refine ⟨fun p hp => ?_, fun k u p hu hp => h.units k u p (hbuf ▸ hu) hp⟩
    rw [RtpReceiver.handedOut, hnone] at hp
    cases hp
  · exact htake _ u hu hout hjb
  · exact htake head u (OrderedMap.getElem?_first? hfirst) hout hjb

theorem pop (h : Sound rx) (now : Int) : Sound (rx.popUnit now).1 := by
  obtain ⟨hraw, hunits⟩ := h.handedOut now
  rw [popUnit_eq]
  cases hp : rx.handedOut (.pop now) with
  | none => exact ⟨hunits, h.cur, h.zombies⟩
  | some p =>
    have hjoined := joined_solid h.cur (hraw p hp) now
    refine ⟨hunits, ?_, fun z hz => ?_⟩
    · show (rx.asm.assemble p now).1.cur.Solid
      rcases rx.asm.assemble_cur p now with hcur | ⟨-, hcur⟩ <;> rw [hcur]
      · exact hjoined
      · exact fun k r hk => by simp at hk
    · rcases Assembler.mem_zombies_assemble hz with hz | ⟨hmark, rfl, -⟩
      · exact h.zombies z hz
      · exact ⟨hjoined, joined_markerSeen hmark now⟩

theorem run (is : List RtpInput) : Sound (Runs.after RtpReceiver.step {} is) := by
  refine Runs.invariant (I := Sound) (fun rx i h => ?_) fresh is
  cases i with
  | datagram buf now => exact h.datagram buf now
  | pop now => exact h.pop now

end Sound

/-! ## Following a zombie -/

/-- What becomes of zombie `z`, at place `i`, in a step. -/
def fate (rx : RtpReceiver) (z : FrameState) (i : ℕ) : RtpInput → Fate
  | .datagram _ _ => .waits i
  | .pop now =>
    match rx.handedOut (.pop now) with
    | none => .waits i
    | some p => rx.asm.fate p now i z

/-- A frame that is output has a stream. -/
def HasStream : RtpOutput → Prop
  | .asm (.out src rawExtra _) => (Depacketizer.run (src.ordered rawExtra)).annexb ≠ []
  | _ => True

theorem hasStream_step (rx : RtpReceiver) (i : RtpInput) :
    ∀ o ∈ (RtpReceiver.step rx i).2, HasStream o := by
  have hframe : ∀ (now : Int) (f : FrameState),
      Assembler.Satisfies (fun e => HasStream (.asm e)) now f := by
    refine fun now f => ⟨fun rawExtra e he => ?_, trivial⟩
    cases e with
    | out src rawExtra' ef =>
      obtain ⟨rfl, rfl, hne⟩ := FrameState.mem_outputs_emit (mem_outputs.2 ⟨ef, he⟩)
      exact hne
    | _ => trivial
  cases i with
  | datagram buf now =>
    intro o ho
    cases o with
    | asm e => exact absurd ho (asm_not_mem_recv rx buf now e)
    | _ => trivial
  | pop now =>
    show ∀ o ∈ (rx.popUnit now).2, HasStream o
    rw [popUnit_eq]
    cases rx.handedOut (.pop now) with
    | none => exact List.forall_mem_map.2 fun _ _ => trivial
    | some p =>
      refine List.forall_mem_append.2 ⟨List.forall_mem_map.2 fun _ _ => trivial, ?_⟩
      refine List.forall_mem_cons.2 ⟨trivial, List.forall_mem_map.2 ?_⟩
      exact Assembler.forall_assemble trivial (fun _ => hframe now _) (hframe now _)
        fun z _ => hframe now z

/-- **A step** leaves the zombie as it is, or outputs it, if there is a stream, or counts it. -/
theorem fate_step (hz : rx.asm.zombies[i]? = some z) (input : RtpInput) :
    match rx.fate z i input with
    | .waits j => (RtpReceiver.step rx input).1.asm.zombies[j]? = some z
    | .recovered raw => (Depacketizer.run (z.ordered (some raw))).annexb ≠ [] →
        ∃ ef, .asm (.out z (some raw) ef) ∈ (RtpReceiver.step rx input).2
    | .lost => .asm (.lost z.lostCount) ∈ (RtpReceiver.step rx input).2 := by
  cases input with
  | datagram buf now =>
    show (rx.recv buf now).1.asm.zombies[i]? = some z
    rw [(rx.recv_frames buf now).2]
    exact hz
  | pop now =>
    simp only [fate, RtpReceiver.step, popUnit_eq]
    cases rx.handedOut (.pop now) with
    | none => exact hz
    | some p =>
      have hspec := Assembler.fate_spec hz p now
      simp only at hspec ⊢
      cases hfate : rx.asm.fate p now i z with
      | waits j =>
        rw [hfate] at hspec
        exact hspec
      | recovered raw =>
        rw [hfate] at hspec
        obtain ⟨es, es', heq⟩ := hspec
        intro hstream
        have hout : (z, some raw) ∈ outputs (z.emit (some raw) now) := by
          rw [FrameState.outputs_emit, if_neg (by simpa using hstream)]
          exact List.mem_singleton_self _
        obtain ⟨ef, hef⟩ := mem_outputs.1 hout
        refine ⟨ef, ?_⟩
        rw [heq]
        simp [hef]
      | lost =>
        rw [hfate] at hspec
        obtain ⟨es, es', heq⟩ := hspec
        rw [heq]
        simp

/-- The receiver, and the place of zombie `z` until it leaves. -/
structure Followed (z : FrameState) where
  rx : RtpReceiver
  place : Option ℕ
  there : ∀ i ∈ place, rx.asm.zombies[i]? = some z
  reached : ∃ is, rx = Runs.after RtpReceiver.step {} is

/-- The receiver goes its way, and what is noted is how the zombie leaves. -/
def follow (z : FrameState) : Runs.Machine (Followed z) RtpInput Fate := fun s input =>
  let fate := s.place.map fun i => s.rx.fate z i input
  ({ rx := (RtpReceiver.step s.rx input).1
     place := fate.bind Fate.place?
     there := by
      intro j hj
      obtain ⟨fate', hfate', hplace⟩ := Option.bind_eq_some_iff.1 hj
      obtain ⟨i, hi, rfl⟩ := Option.map_eq_some_iff.1 hfate'
      have hstep := fate_step (s.there i hi) input
      cases hf : s.rx.fate z i input with
      | waits j' =>
        rw [hf] at hstep hplace
        exact Option.some.inj hplace ▸ hstep
      | recovered raw => rw [hf] at hplace; cases hplace
      | lost => rw [hf] at hplace; cases hplace
     reached := by
      obtain ⟨is, his⟩ := s.reached
      exact ⟨is ++ [input], by rw [Runs.after_append, ← his]; rfl⟩ },
    fate.toList.flatMap Fate.leaves)

theorem follow_place {s : Followed z} (hi : s.place = some i) (input : RtpInput) :
    (follow z s input).1.place = (s.rx.fate z i input).place? ∧
      (follow z s input).2 = (s.rx.fate z i input).leaves := by
  simp [follow, hi]

/-- A zombie that has left does not come back. -/
theorem follow_gone {s : Followed z} (h : s.place = none) (is : List RtpInput) :
    (Runs.after (follow z) s is).place = none ∧ Runs.trace (follow z) s is = [] := by
  induction is generalizing s with
  | nil => exact ⟨h, rfl⟩
  | cons input is ih =>
    have hnext : (follow z s input).1.place = none := by simp [follow, h]
    have hquiet : (follow z s input).2 = [] := by simp [follow, h]
    rw [Runs.after_cons, Runs.trace_cons, hquiet]
    exact ih hnext

theorem follow_rx (s : Followed z) (is : List RtpInput) :
    (Runs.after (follow z) s is).rx = Runs.after RtpReceiver.step s.rx is := by
  induction is generalizing s with
  | nil => rfl
  | cons input is ih => exact ih _

/-- **How it leaves** is decided in one step. -/
theorem follow_trace_iff (s : Followed z) (is : List RtpInput) (raw : Bytes) :
    Runs.trace (follow z) s is = [.recovered raw] ↔
      ∃ is₁ input is₂, is = is₁ ++ input :: is₂ ∧
        ∃ i ∈ (Runs.after (follow z) s is₁).place,
          (Runs.after (follow z) s is₁).rx.fate z i input = .recovered raw := by
  induction is generalizing s with
  | nil => simp
  | cons input is ih =>
    -- It leaves in the first step, or in a later one.
    rw [Runs.exists_step_cons_iff, Runs.trace_cons]
    simp only [Runs.after_cons, Runs.after_nil, ← ih]
    cases hp : s.place with
    | none =>
      have hquiet : (follow z s input).2 = [] := by simp [follow, hp]
      simp [hquiet]
    | some i =>
      obtain ⟨hplace, hleaves⟩ := follow_place hp input
      rw [hleaves]
      cases hfate : s.rx.fate z i input with
      | waits j => simp [Fate.leaves, hfate]
      | recovered raw' =>
        rw [hfate] at hplace
        simp [Fate.leaves, hfate, (follow_gone hplace is).2]
      | lost =>
        rw [hfate] at hplace
        simp [Fate.leaves, hfate, (follow_gone hplace is).2]

/-! ## When a zombie is completed -/

/-- The frame is output with all its packets: it leaves by being recovered, and what is missing is
the packet it is recovered with. -/
def Completed (s : Followed z) (missing : List Bytes) (is : List RtpInput) : Prop :=
  ∃ raw, missing = [raw] ∧ Runs.trace (follow z) s is = [.recovered raw] ∧
    ∃ ef, .asm (.out z (some raw) ef) ∈ Runs.trace RtpReceiver.step s.rx is

/-- While the frame waits a packet is handed out, and when `expire_zombies` comes to the frame there
is a parity under its key that gives back the missing packet. -/
def FindsParity (s : Followed z) (now : Int) (raw : Bytes) : Prop :=
  ∃ p ∈ s.rx.handedOut (.pop now), ∃ i ∈ s.place,
    ∃ parity, (s.rx.asm.fecAt p now i)[toUInt32 z.captureMs]? = some parity ∧
      z.Restores parity raw

theorem fate_recovered_iff (s : Followed z) (hi : s.place = some i) (input : RtpInput)
    (raw : Bytes) :
    s.rx.fate z i input = .recovered raw ↔ ∃ now, input = .pop now ∧ FindsParity s now raw := by
  obtain ⟨is, his⟩ := s.reached
  have hz := s.there i hi
  obtain ⟨hsolid, hmark⟩ := (his ▸ Sound.run is).zombies z (List.mem_of_getElem? hz)
  cases input with
  | datagram buf now => simp [fate]
  | pop now =>
    simp only [fate, FindsParity, hi, RtpInput.pop.injEq, exists_eq_left', Option.mem_def,
      Option.some.injEq]
    cases hp : s.rx.handedOut (.pop now) with
    | none => simp
    | some p =>
      simp only [Option.some.injEq, exists_eq_left']
      rw [← FrameState.recover_eq_some_iff hsolid hmark, Assembler.fate]
      cases z.recover (s.rx.asm.fecAt p now i) with
      | some raw' => simp
      | none =>
        simp only [reduceCtorEq, iff_false]
        split_ifs <;> simp

/-- **A zombie is completed by its parity**, or not at all. From any state that the receiver reaches
with frame `z` among its zombies, whatever comes then, in whatever order, the missing packets among
it or not: the frame is output with all its packets before it is counted as lost if and only if it
lacks one packet, and in some turn while it waits there is a parity that gives the packet back. -/
theorem zombie_completed_iff (s : Followed z) (missing : List Bytes) (is : List RtpInput) :
    Completed s missing is ↔
      ∃ raw, missing = [raw] ∧ (Depacketizer.run (z.ordered (some raw))).annexb ≠ [] ∧
        ∃ is₁ now is₂, is = is₁ ++ .pop now :: is₂ ∧
          FindsParity (Runs.after (follow z) s is₁) now raw := by
  have hstream := (Runs.along_of_forall (P := fun _ _ => True) s.rx fun _ _ _ => trivial :
    Runs.Along RtpReceiver.step _ s.rx is).forall_trace (I := fun _ => True) (Q := HasStream)
      (fun rx i _ _ => ⟨trivial, hasStream_step rx i⟩) trivial
  constructor
  · rintro ⟨raw, rfl, htrace, ef, hef⟩
    obtain ⟨is₁, input, is₂, rfl, i, hi, hfate⟩ := (follow_trace_iff s is raw).mp htrace
    obtain ⟨now, rfl, hfinds⟩ := (fate_recovered_iff _ hi input raw).mp hfate
    exact ⟨raw, rfl, hstream _ hef, is₁, now, is₂, rfl, hfinds⟩
  · rintro ⟨raw, rfl, hne, is₁, now, is₂, rfl, hfinds⟩
    obtain ⟨p, hp, i, hi, hparity⟩ := hfinds
    have hfate := (fate_recovered_iff _ hi (.pop now) raw).mpr ⟨now, rfl, p, hp, i, hi, hparity⟩
    have hstep := fate_step ((Runs.after (follow z) s is₁).there i hi) (.pop now)
    rw [hfate, follow_rx] at hstep
    obtain ⟨ef, hef⟩ := hstep hne
    have hleaves := (follow_trace_iff s _ raw).mpr ⟨is₁, .pop now, is₂, rfl, i, hi, hfate⟩
    refine ⟨raw, rfl, hleaves, ef, ?_⟩
    rw [Runs.trace_append, Runs.trace_cons]
    exact List.mem_append_right _ (List.mem_append_left _ hef)

/-! ## A packet that is sent once more -/

/-- Packets 5 and 7 of a frame are handed out, 100 ms apart. -/
def gapRun : List RtpInput :=
  [.datagram (rtpHeader false 5 3600 0 ++ [0x41, 1]) 1000000,
    .datagram (rtpHeader true 7 3600 0 ++ [0x41, 3]) 1000010, .pop 2000000, .pop 2100000]

/-- The frame waits for packet 6. -/
def gapZombie : FrameState := (Runs.after RtpReceiver.step {} gapRun).asm.zombies.headD {}

def followGap : Followed gapZombie where
  rx := Runs.after RtpReceiver.step {} gapRun
  place := some 0
  there := by
    intro i hi
    obtain rfl := Option.some.inj hi
    have hlength : (Runs.after RtpReceiver.step {} gapRun).asm.zombies.length = 1 := by
      decide +kernel
    obtain ⟨z, hz⟩ := List.length_eq_one_iff.1 hlength
    rw [gapZombie, hz]
    rfl
  reached := ⟨gapRun, rfl⟩

/-- Packet 6. -/
def gapPacket : Bytes := rtpHeader false 6 3600 0 ++ [0x41, 2]

/-- Something arrives 110 ms after the frame was begun, and the packets of two frames after that. -/
def gapThen (buf : Bytes) : List RtpInput :=
  [.datagram buf 2110000, .datagram (rtpHeader true 8 7200 0 ++ [0x41, 4]) 2110010, .pop 2200000,
    .datagram (rtpHeader true 9 10800 0 ++ [0x41, 5]) 2200010, .pop 2300000]

/-- **Packet 6 is sent once more**, in time, and is too old for the jitter buffer: the frame is
counted as lost. With its parity instead of the packet it is completed. -/
theorem resent_lost :
    gapZombie.holes = [6] ∧ 2110000 - gapZombie.firstSeenUs < 250 * 1000 ∧
      pushResults (Runs.trace RtpReceiver.step followGap.rx [.datagram gapPacket 2110000]) =
        [false] ∧
      Runs.trace (follow gapZombie) followGap (gapThen gapPacket) = [.lost] ∧
      ¬ Completed followGap [gapPacket] (gapThen gapPacket) ∧
      Runs.trace (follow gapZombie) followGap (gapThen (fecDatagram { captureUs := 40000 }
        [rtpHeader false 5 3600 0 ++ [0x41, 1], gapPacket, rtpHeader true 7 3600 0 ++ [0x41, 3]])) =
          [.recovered gapPacket] := by
  have hlost : Runs.trace (follow gapZombie) followGap (gapThen gapPacket) = [.lost] := by
    decide +kernel
  refine ⟨by decide +kernel, by decide +kernel, by decide +kernel, hlost, ?_, by decide +kernel⟩
  rintro ⟨raw, -, htrace, -⟩
  rw [hlost] at htrace
  cases htrace

/-- No gap is skipped backwards. -/
def SkipsForward (rx : RtpReceiver) : RtpInput → Prop
  | .datagram _ _ => True
  | .pop now => rx.jb.buf[rx.jb.nextOut]? = none → rx.jb.waitsForHead now = false →
      ∀ kv, OrderedMap.first? rx.jb.buf = some kv →
        JitterBuffer.seqLt kv.1 rx.jb.nextOut = false

/-- The packets of the frames lie behind the due number. -/
structure Passed (rx : RtpReceiver) : Prop where
  inRange : InRange rx
  idle : rx.jb.started = false → rx.jb.nextOut = 0
  frames : ∀ f, f = rx.asm.cur ∨ f ∈ rx.asm.zombies →
    ∀ k : UInt16, f.raws.contains k = true → k.toNat < rx.jb.nextOut.toNat

namespace Passed

theorem fresh : Passed {} where
  inRange := .fresh
  idle := fun _ => rfl
  frames := fun f hf k hk => by
    rcases hf with rfl | hf
    · simp at hk
    · cases hf

theorem datagram (h : Passed rx) (buf : Bytes) (now : Int) : Passed (rx.recv buf now).1 := by
  obtain ⟨hcur, hzombies⟩ := rx.recv_frames buf now
  have hmoves : ((rx.recv buf now).1.jb.started = false → (rx.recv buf now).1.jb.nextOut = 0) ∧
      rx.jb.nextOut.toNat ≤ (rx.recv buf now).1.jb.nextOut.toNat := by
    rcases rx.recv_cases buf now with ⟨-, q, genUs, -, -, hjb, -⟩ | ⟨⟨-, hnext, hst⟩, -⟩
    · rw [hjb]
      exact h.inRange.narrow.le_push h.idle q genUs now
    · rw [hst, hnext]
      exact ⟨h.idle, le_rfl⟩
  refine ⟨h.inRange.datagram buf now, hmoves.1, fun f hf k hk => ?_⟩
  rw [hcur, hzombies] at hf
  exact (h.frames f hf k hk).trans_le hmoves.2

theorem assemble (h : Passed rx) {jb' : JitterBuffer RtpPkt} (now : Int)
    (hnarrow : Narrow jb') (hst : jb'.started = true) (hseq : rx.jb.nextOut.toNat ≤ p.seq.toNat)
    (hnext : jb'.nextOut.toNat = p.seq.toNat + 1) :
    Passed { rx with jb := jb', asm := (rx.asm.assemble p now).1 } := by
  have hrange := (h.inRange.assemble now hnarrow hst hnext fun hsw => by
    have := (h.inRange.begun (Assembler.started_of_not_switches hsw)).2
    omega).1
  have hjoined : ∀ k : UInt16, (rx.asm.joined p now).raws.contains k = true →
      k.toNat < jb'.nextOut.toNat := by
    intro k hk
    rw [Assembler.contains_joined, Bool.or_eq_true, Bool.and_eq_true, beq_iff_eq] at hk
    rcases hk with rfl | ⟨-, hk⟩
    · omega
    · have := h.frames _ (.inl rfl) k hk
      omega
  refine ⟨hrange, fun hns => ?_, fun f hf k hk => ?_⟩
  · rw [hst] at hns
    cases hns
  · have hcases : f = rx.asm.joined p now ∨ f = {} ∨ f ∈ rx.asm.zombies := by
      rcases hf with rfl | hf
      · exact (rx.asm.assemble_cur p now).imp id fun hcur => .inl hcur.2
      · exact (Assembler.mem_zombies_assemble hf).symm.imp (fun hf => hf.2.1) .inr
    rcases hcases with rfl | rfl | hf
    · exact hjoined k hk
    · simp at hk
    · have := h.frames f (.inr hf) k hk
      show k.toNat < jb'.nextOut.toNat
      omega

theorem pop (h : Passed rx) (hforward : SkipsForward rx (.pop now)) :
    Passed (rx.popUnit now).1 := by
  rcases JitterBuffer.pop_spec rx.jb now with ⟨hnone, hbuf, hnext, hst, -⟩ |
      ⟨u, hst, hu, hsome, hjb⟩ | ⟨head, u, hst, hmiss, hwait, hfirst, hsome, hjb⟩
  · rw [popUnit_of_none hnone]
    have hrange : InRange { rx with jb := (rx.jb.pop now).1 } := by
      refine ⟨h.inRange.narrow.congr hbuf hnext, fun hc => ?_, h.inRange.cur, h.inRange.zombies⟩
      exact ⟨hst.trans (h.inRange.begun hc).1, hnext ▸ (h.inRange.begun hc).2⟩
    refine ⟨hrange, fun hns => ?_, fun f hf k hk => ?_⟩
    · exact hnext.trans (h.idle (hst ▸ hns))
    · show k.toNat < (rx.jb.pop now).1.nextOut.toNat
      rw [hnext]
      exact h.frames f hf k hk
  · obtain ⟨p, hp, hk, hnarrow, hnext⟩ := h.inRange.narrow.takeOut hu now
    rw [popUnit_of_some hsome hp, hjb]
    refine h.assemble now hnarrow hst ?_ hnext
    rw [← hk, UInt16.toNat_toUInt32]
  · obtain ⟨p, hp, hk, hnarrow, hnext⟩ :=
      h.inRange.narrow.takeOut (OrderedMap.getElem?_first? hfirst) now
    rw [popUnit_of_some hsome hp, hjb]
    refine h.assemble now hnarrow hst ?_ hnext
    have hnot := hforward hmiss hwait _ hfirst
    rw [← hk] at hnot
    by_contra hlt
    rw [(h.inRange.narrow.seqLt_iff_lt p.seq).2 (Nat.lt_of_not_le hlt)] at hnot
    cases hnot

/-- The number of a hole has been passed. -/
theorem hole_lt (h : Passed rx) (hz : z ∈ rx.asm.zombies) {x : ℕ} (hx : x ∈ z.holes) :
    x < rx.jb.nextOut.toNat := by
  obtain ⟨⟨hle, hlt⟩, -⟩ := FrameState.mem_holes.1 hx
  cases hlast : OrderedMap.last? z.raws with
  | none =>
    have hspan : z.span.toNat = 0 := by
      rw [FrameState.span, hlast]
      rfl
    omega
  | some last =>
    have hwithin := h.inRange.zombies z hz
    have hraw := OrderedMap.getElem?_last? (k := last.1) (v := last.2) hlast
    have hspan := FrameState.toNat_span hwithin (l := last.1) hlast
    have hfirst := hwithin last.1 last.2 hraw
    have hpassed := h.frames z (.inr hz) last.1 (OrderedMap.contains_of_getElem? hraw)
    omega

end Passed

/-- **A packet that a zombie lacks is too old**, whenever it is sent once more: in every run in
which no gap is skipped backwards, the jitter buffer rejects it. -/
theorem resent_rejected (is : List RtpInput)
    (hforward : Runs.Along RtpReceiver.step SkipsForward {} is)
    (hz : z ∈ (Runs.after RtpReceiver.step {} is).asm.zombies) (hp : p.seq.toNat ∈ z.holes)
    (genUs now : Int) (data : Option RtpPkt) :
    ((Runs.after RtpReceiver.step {} is).jb.push p.seq.toUInt32 genUs data now).2.1 = false := by
  have h : Passed (Runs.after RtpReceiver.step {} is) := by
    refine hforward.invariant (I := Passed) (fun rx i h hi => ?_) Passed.fresh
    cases i with
    | datagram buf now => exact h.datagram buf now
    | pop now => exact h.pop hi
  have hlt := h.hole_lt hz hp
  have hst : (Runs.after RtpReceiver.step {} is).jb.started = true := by
    by_contra hns
    rw [h.idle (by simpa using hns)] at hlt
    exact absurd hlt (Nat.not_lt_zero _)
  have hold : (Runs.after RtpReceiver.step {} is).jb.accepts p.seq.toUInt32 = false := by
    rw [JitterBuffer.accepts, hst, (h.inRange.narrow.seqLt_iff_lt p.seq).2 hlt]
    rfl
  rw [JitterBuffer.push_of_rejected _ hold]

end RtpReceiver

end Rtstream
