import Rtstream.RtpFrameState
import Mathlib.Data.List.Perm.Subperm
import Mathlib.Data.List.Flatten

/-!
# What a turn of the assembler does

A turn of `assemble_loop` may finalise the frame before (`switchFrame`), finalises the frame the
packet joins when the packet is its last one (`finalizeFrame`), and looks through the zombies
(`expireZombies`). What each of them outputs and keeps is said here once, so that no proof has to
look into them again:

* `mem_outputs_assemble`: what is output was ready, and is the frame before, the frame the packet
  joined, or a zombie;
* `assemble_cur`, `mem_zombies_assemble`: which frame states there are afterwards;
* `outputs_assemble_subperm`: none of them is used twice.
-/

namespace Rtstream

open Std (TreeMap)

theorem subperm_map {α β : Type*} {l l' : List α} (h : l.Subperm l') (f : α → β) :
    (l.map f).Subperm (l'.map f) := by
  obtain ⟨l₀, hperm, hsub⟩ := h
  exact ⟨l₀.map f, hperm.map f, hsub.map f⟩

theorem subperm_flatMap {α β : Type*} {l l' : List α} (h : l.Subperm l') (f : α → List β) :
    (l.flatMap f).Subperm (l'.flatMap f) := by
  obtain ⟨l₀, hperm, hsub⟩ := h
  exact ⟨l₀.flatMap f, hperm.flatMap_right f, hsub.flatMap f⟩

theorem nodup_of_subperm {α : Type*} {l l' : List α} (h : l.Subperm l') (h' : l'.Nodup) :
    l.Nodup := by
  obtain ⟨l₀, hperm, hsub⟩ := h
  exact hperm.nodup_iff.1 (hsub.nodup h')

/-- The frame states that were output, each with the packet rebuilt for it. -/
def outputs (es : List RtpEffect) : List (FrameState × Option Bytes) :=
  es.filterMap fun
    | .out src rawExtra _ => some (src, rawExtra)
    | _ => none

@[simp] theorem outputs_nil : outputs [] = [] := rfl

@[simp] theorem outputs_append (es es' : List RtpEffect) :
    outputs (es ++ es') = outputs es ++ outputs es' := List.filterMap_append

@[simp] theorem outputs_lost (n : UInt64) (es : List RtpEffect) :
    outputs (.lost n :: es) = outputs es := rfl

@[simp] theorem outputs_fecRecovered (es : List RtpEffect) :
    outputs (.fecRecovered :: es) = outputs es := rfl

theorem mem_outputs {es : List RtpEffect} {src : FrameState} {rawExtra : Option Bytes} :
    (src, rawExtra) ∈ outputs es ↔ ∃ ef, .out src rawExtra ef ∈ es := by
  rw [outputs, List.mem_filterMap]
  constructor
  · intro h
    obtain ⟨e, he, heq⟩ := h
    cases e with
    | out src' rawExtra' ef =>
      obtain ⟨rfl, rfl⟩ := Prod.mk.inj (Option.some.inj heq)
      exact ⟨ef, he⟩
    | _ => cases heq
  · intro h
    obtain ⟨ef, hef⟩ := h
    exact ⟨_, hef, rfl⟩

/-- Parities are only taken away. -/
def Shrinks (fec fec' : TreeMap UInt32 Bytes) : Prop :=
  ∀ (k : UInt32) (v : Bytes), fec'[k]? = some v → fec[k]? = some v

namespace Shrinks

theorem refl (fec : TreeMap UInt32 Bytes) : Shrinks fec fec := fun _ _ h => h

theorem trans {fec fec' fec'' : TreeMap UInt32 Bytes} (h : Shrinks fec fec')
    (h' : Shrinks fec' fec'') : Shrinks fec fec'' := fun k v hv => h k v (h' k v hv)

theorem erase (fec : TreeMap UInt32 Bytes) (k : UInt32) : Shrinks fec (fec.erase k) := by
  intro k' v hv
  rw [TreeMap.getElem?_erase] at hv
  split_ifs at hv
  exact hv

end Shrinks

namespace FrameState

variable {f : FrameState} {fec fec' : TreeMap UInt32 Bytes}

/-- What `finalize_frame` emits the frame with: nothing more when it is complete, the recovered
packet when one is missing and can be recovered. -/
def ready (f : FrameState) (fec : TreeMap UInt32 Bytes) : Option (Option Bytes) :=
  if f.complete then some none else (f.recover fec).map some

theorem recover_shrinks (h : Shrinks fec fec') {raw : Bytes} (hr : f.recover fec' = some raw) :
    f.recover fec = some raw := by
  unfold recover at hr ⊢
  cases hk : fec'[toUInt32 f.captureMs]? with
  | none => rw [hk] at hr; cases hr
  | some parity =>
    rw [hk] at hr
    rw [h _ _ hk]
    exact hr

theorem ready_shrinks (h : Shrinks fec fec') {rawExtra : Option Bytes}
    (hr : f.ready fec' = some rawExtra) : f.ready fec = some rawExtra := by
  unfold ready at hr ⊢
  split_ifs at hr ⊢ with hc
  · exact hr
  · obtain ⟨raw, hraw, rfl⟩ := Option.map_eq_some_iff.1 hr
    rw [recover_shrinks h hraw]
    rfl

theorem recover_of_not_ready (h : f.ready fec = none) : f.recover fec = none := by
  unfold ready at h
  split_ifs at h
  exact Option.map_eq_none_iff.1 h

/-- A frame that can be recovered is not complete: its packets are counted as one less. -/
theorem ready_of_recover {raw : Bytes} (h : f.recover fec = some raw) :
    f.ready fec = some (some raw) := by
  have hc : ¬ f.complete = true := by
    unfold recover at h
    cases hk : fec[toUInt32 f.captureMs]? with
    | none => rw [hk] at h; cases h
    | some parity =>
      simp only [hk] at h
      split_ifs at h with hsize
      rw [complete, Bool.and_eq_true, beq_iff_eq]
      intro h
      obtain ⟨heq, -⟩ := h
      have hne : f.span - 1 ≠ f.span := fun hs => by
        have hnat := congrArg UInt32.toNat hs
        have hlt := f.span.toNat_lt
        rw [UInt32.toNat_sub, UInt32.toNat_one] at hnat
        omega
      exact hne (UInt32.toNat_inj.1 (hsize.1.symm.trans heq))
  rw [ready, if_neg hc, h]
  rfl

theorem ready_of_not_marker (h : f.markerSeen = false) : f.ready fec = none := by
  have hrec : f.recover fec = none := by
    unfold recover
    cases fec[toUInt32 f.captureMs]? with
    | none => rfl
    | some parity => exact if_neg fun hm => by rw [h] at hm; cases hm.2
  rw [ready, complete, h, Bool.and_false, if_neg Bool.false_ne_true, hrec]
  rfl

theorem mem_emit_out {rawExtra rawExtra' : Option Bytes} {src : FrameState} {ef : EncodedFrame}
    {now : Int} (h : .out src rawExtra' ef ∈ f.emit rawExtra now) :
    src = f ∧ rawExtra' = rawExtra ∧
      ef = f.encoded (Depacketizer.run (f.ordered rawExtra)) now := by
  rcases List.mem_append.1 h with h | h
  · obtain ⟨kv, -, heq⟩ := List.mem_filterMap.1 h
    split_ifs at heq
    cases heq
  · split_ifs at h
    · cases h
    · cases List.mem_singleton.1 h
      exact ⟨rfl, rfl, rfl⟩

/-- What is output is made of the packets of its frame state. -/
def MadeOf (e : RtpEffect) : Prop :=
  ∀ src rawExtra ef, e = .out src rawExtra ef →
    ef.data = (Depacketizer.run (src.ordered rawExtra)).annexb

theorem madeOf_emit {rawExtra : Option Bytes} {now : Int} :
    ∀ e ∈ f.emit rawExtra now, MadeOf e := by
  rintro e he src rawExtra' ef rfl
  obtain ⟨rfl, rfl, rfl⟩ := mem_emit_out he
  rfl

theorem outputs_badWrites : outputs f.badWrites = [] := by
  apply List.filterMap_eq_nil_iff.2
  intro e he
  obtain ⟨kv, -, heq⟩ := List.mem_filterMap.1 he
  split_ifs at heq
  obtain rfl := Option.some.inj heq
  rfl

theorem outputs_emit (f : FrameState) (rawExtra : Option Bytes) (now : Int) :
    outputs (f.emit rawExtra now) =
      if (Depacketizer.run (f.ordered rawExtra)).annexb.isEmpty then [] else [(f, rawExtra)] := by
  show outputs (f.badWrites ++ if _ then [] else [.out f rawExtra _]) = _
  rw [outputs_append, outputs_badWrites, List.nil_append]
  split_ifs <;> rfl

theorem outputs_emit_sublist (f : FrameState) (rawExtra : Option Bytes) (now : Int) :
    (outputs (f.emit rawExtra now)).Sublist [(f, rawExtra)] := by
  rw [outputs_emit]
  split_ifs
  · exact List.nil_sublist _
  · exact List.Sublist.refl _

theorem mem_outputs_emit {src : FrameState} {rawExtra rawExtra' : Option Bytes} {now : Int}
    (h : (src, rawExtra') ∈ outputs (f.emit rawExtra now)) :
    src = f ∧ rawExtra' = rawExtra ∧ (Depacketizer.run (f.ordered rawExtra)).annexb ≠ [] := by
  rw [outputs_emit] at h
  split_ifs at h with hemp
  · cases h
  · obtain ⟨rfl, rfl⟩ := Prod.mk.inj (List.mem_singleton.1 h)
    exact ⟨rfl, rfl, by simpa using hemp⟩

end FrameState

namespace Assembler

variable {m : Assembler} {p : RtpPkt} {now : Int} {src : FrameState} {rawExtra : Option Bytes}

/-! ## `finalize_frame` -/

/-- A frame that is ready is emitted, and stays in `cur_`. -/
theorem finalizeFrame_of_ready (hst : m.cur.started = true) (hne : m.cur.raws.isEmpty = false)
    (hr : m.cur.ready m.fec = some rawExtra) (explicitMarker : Bool) (now : Int) :
    ∃ fec', Shrinks m.fec fec' ∧
      (m.finalizeFrame explicitMarker now).1 = { m with fec := fec' } ∧
      outputs (m.finalizeFrame explicitMarker now).2 = outputs (m.cur.emit rawExtra now) := by
  unfold finalizeFrame
  simp only [hst, hne, Bool.not_true, Bool.or_false, Bool.false_eq_true, if_false]
  unfold FrameState.ready at hr
  by_cases hc : m.cur.complete = true
  · rw [if_pos hc] at hr ⊢
    obtain rfl := Option.some.inj hr
    exact ⟨m.fec, .refl _, rfl, rfl⟩
  · rw [if_neg hc] at hr ⊢
    obtain ⟨raw, hraw, rfl⟩ := Option.map_eq_some_iff.1 hr
    rw [hraw]
    exact ⟨_, .erase _ _, rfl, by simp⟩

/-- A frame that is not ready is let go. It is a zombie if its marker has just come. -/
theorem finalizeFrame_of_not_ready (hst : m.cur.started = true) (hne : m.cur.raws.isEmpty = false)
    (hr : m.cur.ready m.fec = none) (explicitMarker : Bool) (now : Int) :
    ∃ parked, parked.Sublist (if explicitMarker then [m.cur] else []) ∧
      (m.finalizeFrame explicitMarker now).1 =
        { m with cur := {}, zombies := m.zombies ++ parked } ∧
      outputs (m.finalizeFrame explicitMarker now).2 = [] := by
  unfold FrameState.ready at hr
  split_ifs at hr with hc
  rw [Option.map_eq_none_iff] at hr
  unfold finalizeFrame
  simp only [hst, hne, Bool.not_true, Bool.or_false, Bool.false_eq_true, if_false, hc, hr]
  cases explicitMarker with
  | false => exact ⟨[], List.Sublist.refl _, by simp, rfl⟩
  | true =>
    simp only [Bool.true_and, decide_eq_true_eq, if_true]
    split_ifs
    · exact ⟨[m.cur], List.Sublist.refl _, rfl, rfl⟩
    · exact ⟨[], List.nil_sublist _, by simp, rfl⟩

theorem finalizeFrame_of_idle (h : (!m.cur.started || m.cur.raws.isEmpty) = true)
    (explicitMarker : Bool) (now : Int) : m.finalizeFrame explicitMarker now = (m, []) := by
  simp only [finalizeFrame, h, if_true]

/-- **What `finalize_frame` does**: nothing, or it emits the frame, with or without a rebuilt
packet, or keeps it as a zombie, or gives it up. -/
theorem finalizeFrame_cases (m : Assembler) (explicitMarker : Bool) (now : Int) :
    m.finalizeFrame explicitMarker now = (m, []) ∨
    m.cur.started = true ∧
      (m.finalizeFrame explicitMarker now = (m, m.cur.emit none now) ∨
      (∃ raw, m.cur.recover m.fec = some raw ∧ m.finalizeFrame explicitMarker now =
        ({ m with fec := m.fec.erase (toUInt32 m.cur.captureMs) },
          m.cur.emit (some raw) now ++ [.fecRecovered])) ∨
      m.finalizeFrame explicitMarker now =
        ({ m with cur := {}, zombies := m.zombies ++ [m.cur] }, []) ∨
      m.finalizeFrame explicitMarker now = ({ m with cur := {} }, [.lost m.cur.lostCount])) := by
  unfold finalizeFrame
  by_cases hidle : (!m.cur.started || m.cur.raws.isEmpty) = true
  · left
    simp only [if_pos hidle]
  · right
    have hst : m.cur.started = true := by
      rw [Bool.or_eq_true, not_or, Bool.not_eq_true', Bool.not_eq_false] at hidle
      exact hidle.1
    refine ⟨hst, ?_⟩
    by_cases hc : m.cur.complete = true
    · simp only [if_neg hidle, if_pos hc, true_or]
    · simp only [if_neg hidle, if_neg hc]
      cases m.cur.recover m.fec with
      | some raw => exact .inr (.inl ⟨raw, rfl, rfl⟩)
      | none =>
        simp only
        split_ifs
        · exact .inr (.inr (.inl rfl))
        · exact .inr (.inr (.inr rfl))

/-! ## `expire_zombies` -/

/-- **Each zombie is emitted, kept or given up.** -/
theorem expireLoop_subperm (now : Int) (fec : TreeMap UInt32 Bytes) (zs : List FrameState) :
    ((outputs (expireLoop now fec zs).2.2).map Prod.fst ++ (expireLoop now fec zs).2.1).Subperm
      zs := by
  induction zs generalizing fec with
  | nil => exact List.Subperm.refl _
  | cons z zs ih =>
    cases hz : z.recover fec with
    | some raw =>
      simp only [expireLoop, hz, outputs_append, outputs_fecRecovered, List.map_append,
        List.append_assoc]
      exact (((z.outputs_emit_sublist (some raw) now).map Prod.fst).subperm).append (ih _)
    | none =>
      simp only [expireLoop, hz]
      split_ifs
      · rw [outputs_lost]
        exact (ih fec).cons_right z
      · exact List.perm_middle.subperm.trans ((List.subperm_cons z).2 (ih fec))

theorem expireLoop_shrinks (now : Int) (fec : TreeMap UInt32 Bytes) (zs : List FrameState) :
    Shrinks fec (expireLoop now fec zs).1 := by
  induction zs generalizing fec with
  | nil => exact .refl _
  | cons z zs ih =>
    cases hz : z.recover fec with
    | some raw =>
      simp only [expireLoop, hz]
      exact (Shrinks.erase _ _).trans (ih _)
    | none =>
      simp only [expireLoop, hz]
      split_ifs <;> exact ih fec

theorem mem_outputs_expireLoop {fec : TreeMap UInt32 Bytes} {zs : List FrameState}
    (h : (src, rawExtra) ∈ outputs (expireLoop now fec zs).2.2) :
    src ∈ zs ∧ ∃ raw, rawExtra = some raw ∧ src.recover fec = some raw := by
  induction zs generalizing fec with
  | nil => cases h
  | cons z zs ih =>
    cases hz : z.recover fec with
    | some raw =>
      simp only [expireLoop, hz, outputs_append, outputs_fecRecovered, List.mem_append] at h
      rcases h with h | h
      · obtain ⟨rfl, rfl, -⟩ := FrameState.mem_outputs_emit h
        exact ⟨List.mem_cons_self, raw, rfl, hz⟩
      · obtain ⟨hmem, raw', heq, hrec⟩ := ih h
        exact ⟨List.mem_cons_of_mem z hmem, raw', heq,
          FrameState.recover_shrinks (.erase _ _) hrec⟩
    | none =>
      simp only [expireLoop, hz] at h
      have hrest : (src, rawExtra) ∈ outputs (expireLoop now fec zs).2.2 := by
        split_ifs at h
        · exact h
        · exact h
      obtain ⟨hmem, hrec⟩ := ih hrest
      exact ⟨List.mem_cons_of_mem z hmem, hrec⟩

/-! ## A turn of `assemble_loop` -/

/-- The packet is not of the current frame. -/
def switches (m : Assembler) (p : RtpPkt) : Bool := !m.cur.started || p.ts != m.cur.ts

theorem started_of_not_switches (h : m.switches p = false) : m.cur.started = true := by
  rw [switches, Bool.or_eq_false_iff, Bool.not_eq_false'] at h
  exact h.1

/-- The frame that the packet joins, with the packet. -/
def joined (m : Assembler) (p : RtpPkt) (now : Int) : FrameState :=
  addPacket (if m.switches p then openFrame p now else m.cur) p

theorem joined_started (m : Assembler) (p : RtpPkt) (now : Int) :
    (m.joined p now).started = true := by
  unfold joined switches
  cases hst : m.cur.started with
  | false => rfl
  | true =>
    rw [Bool.not_true, Bool.false_or]
    split_ifs
    · rfl
    · exact hst

theorem joined_ts (m : Assembler) (p : RtpPkt) (now : Int) : (m.joined p now).ts = p.ts := by
  unfold joined
  split_ifs with h
  · rfl
  · simp only [switches, Bool.or_eq_true, not_or, bne_iff_ne, ne_eq, not_not] at h
    exact h.2.symm

theorem joined_markerSeen (m : Assembler) (p : RtpPkt) (now : Int) :
    (m.joined p now).markerSeen = (!m.switches p && m.cur.markerSeen || p.marker) := by
  unfold joined
  cases m.switches p <;> rfl

theorem joined_raws_isEmpty (m : Assembler) (p : RtpPkt) (now : Int) :
    (m.joined p now).raws.isEmpty = false := by
  show (TreeMap.insertIfNew _ p.seq p.raw).isEmpty = false
  exact TreeMap.isEmpty_insertIfNew

/-- The frame before is let go, or emitted once more. -/
theorem switchFrame_spec (m : Assembler) (p : RtpPkt) (now : Int) :
    (m.switchFrame p now).1.cur = (if m.switches p then openFrame p now else m.cur) ∧
      (m.switchFrame p now).1.zombies = m.zombies ∧
      Shrinks m.fec (m.switchFrame p now).1.fec ∧
      ∀ src rawExtra, (src, rawExtra) ∈ outputs (m.switchFrame p now).2 →
        src = m.cur ∧ m.cur.started = true ∧ p.ts ≠ m.cur.ts ∧
          m.cur.ready m.fec = some rawExtra ∧
          (Depacketizer.run (m.cur.ordered rawExtra)).annexb ≠ [] := by
  have hif : m.switchFrame p now = if m.switches p then
      ({ (m.finalizeFrame false now).1 with cur := openFrame p now },
        (m.finalizeFrame false now).2) else (m, []) := rfl
  cases hsw : m.switches p with
  | false =>
    rw [hif, hsw]
    exact ⟨rfl, rfl, .refl _, fun _ _ h => by cases h⟩
  | true =>
    rw [hif, hsw, if_pos rfl, if_pos rfl]
    cases hidle : (!m.cur.started || m.cur.raws.isEmpty) with
    | true =>
      rw [finalizeFrame_of_idle hidle]
      exact ⟨rfl, rfl, .refl _, fun _ _ h => by cases h⟩
    | false =>
      obtain ⟨hst, hne⟩ := Bool.or_eq_false_iff.1 hidle
      replace hst : m.cur.started = true := by simpa using hst
      cases hr : m.cur.ready m.fec with
      | none =>
        obtain ⟨parked, hparked, hm, hout⟩ := finalizeFrame_of_not_ready hst hne hr false now
        obtain rfl : parked = [] := List.sublist_nil.1 hparked
        rw [hm, hout]
        exact ⟨rfl, List.append_nil _, .refl _, fun _ _ h => by cases h⟩
      | some rawExtra =>
        obtain ⟨fec', hfec, hm, hout⟩ := finalizeFrame_of_ready hst hne hr false now
        rw [hm, hout]
        refine ⟨rfl, rfl, hfec, ?_⟩
        intro src rawExtra' h
        obtain ⟨rfl, rfl, hstream⟩ := FrameState.mem_outputs_emit h
        refine ⟨rfl, hst, ?_, rfl, hstream⟩
        simpa [switches, hst] using hsw

/-- The state after the packet has been added to its frame. -/
def withPacket (m : Assembler) (p : RtpPkt) (now : Int) : Assembler :=
  { (m.switchFrame p now).1 with cur := addPacket (m.switchFrame p now).1.cur p }

theorem withPacket_cur (m : Assembler) (p : RtpPkt) (now : Int) :
    (m.withPacket p now).cur = m.joined p now := by
  rw [withPacket, joined, (m.switchFrame_spec p now).1]

/-- The end of a frame, at its marker. -/
def closed (m : Assembler) (p : RtpPkt) (now : Int) : Assembler × List RtpEffect :=
  if p.marker then (m.withPacket p now).finalizeFrame true now else (m.withPacket p now, [])

theorem assemble_eq (m : Assembler) (p : RtpPkt) (now : Int) :
    m.assemble p now = (((m.closed p now).1.expireZombies now).1,
      (m.switchFrame p now).2 ++ (m.closed p now).2 ++ ((m.closed p now).1.expireZombies now).2) :=
  rfl

/-- The frame that the packet joined is emitted or let go, if the packet was its last one. -/
theorem closed_spec (m : Assembler) (p : RtpPkt) (now : Int) :
    (∃ fec', Shrinks m.fec fec' ∧
      (m.closed p now).1 = { cur := m.joined p now, fec := fec', zombies := m.zombies } ∧
      ((p.marker = false ∧ (m.closed p now).2 = []) ∨
        p.marker = true ∧ ∃ rawExtra, (m.joined p now).ready m.fec = some rawExtra ∧
          outputs (m.closed p now).2 = outputs ((m.joined p now).emit rawExtra now))) ∨
    p.marker = true ∧ ∃ fec' parked, Shrinks m.fec fec' ∧ parked.Sublist [m.joined p now] ∧
      (m.joined p now).ready fec' = none ∧
      (m.closed p now).1 = { cur := {}, fec := fec', zombies := m.zombies ++ parked } ∧
      outputs (m.closed p now).2 = [] := by
  obtain ⟨-, hz, hfec, -⟩ := m.switchFrame_spec p now
  have hcur := m.withPacket_cur p now
  have hst : (m.withPacket p now).cur.started = true := hcur ▸ m.joined_started p now
  have hne : (m.withPacket p now).cur.raws.isEmpty = false := hcur ▸ m.joined_raws_isEmpty p now
  have hm : m.withPacket p now =
      { cur := m.joined p now, fec := (m.switchFrame p now).1.fec, zombies := m.zombies } := by
    rw [← hcur, ← hz]
    rfl
  unfold closed
  cases hmark : p.marker with
  | false =>
    rw [if_neg Bool.false_ne_true]
    exact .inl ⟨_, hfec, hm, .inl ⟨rfl, rfl⟩⟩
  | true =>
    rw [if_pos rfl]
    cases hr : (m.withPacket p now).cur.ready (m.withPacket p now).fec with
    | some rawExtra =>
      left
      obtain ⟨fec', hfec', hm', hout⟩ := finalizeFrame_of_ready hst hne hr true now
      rw [hcur] at hr hout
      refine ⟨fec', hfec.trans hfec', ?_, .inr ⟨rfl, rawExtra, ?_, hout⟩⟩
      · rw [hm', hm]
      · exact FrameState.ready_shrinks hfec hr
    | none =>
      right
      obtain ⟨parked, hparked, hm', hout⟩ := finalizeFrame_of_not_ready hst hne hr true now
      rw [hcur] at hr hparked
      refine ⟨rfl, _, parked, hfec, hparked, hr, ?_, hout⟩
      rw [hm', hm]

/-- **What a turn outputs**: the frame before once more, the frame that its last packet made
ready, or a zombie that could be recovered. -/
theorem mem_outputs_assemble (h : (src, rawExtra) ∈ outputs (m.assemble p now).2) :
    (src = m.cur ∧ m.cur.started = true ∧ p.ts ≠ m.cur.ts ∧
      m.cur.ready m.fec = some rawExtra) ∨
    (src = m.joined p now ∧ p.marker = true ∧ (m.assemble p now).1.cur = m.joined p now ∧
      (m.joined p now).ready m.fec = some rawExtra) ∨
    (src ∈ m.zombies ∧ src.ready m.fec = some rawExtra) := by
  rw [assemble_eq, outputs_append, outputs_append, List.mem_append, List.mem_append] at h
  rcases h with (h | h) | h
  · obtain ⟨hsrc, hst, hts, hr, -⟩ := (m.switchFrame_spec p now).2.2.2 _ _ h
    exact .inl ⟨hsrc, hst, hts, hr⟩
  · right
    left
    rcases m.closed_spec p now with ⟨fec', -, hm, ⟨-, hout⟩ | ⟨hmark, e, hr, hout⟩⟩ |
        ⟨-, fec', parked, -, -, -, -, hout⟩
    · rw [hout] at h
      cases h
    · rw [hout] at h
      obtain ⟨rfl, rfl, -⟩ := FrameState.mem_outputs_emit h
      refine ⟨rfl, hmark, ?_, hr⟩
      rw [assemble_eq, hm]
      rfl
    · rw [hout] at h
      cases h
  · right
    right
    obtain ⟨hmem, raw, rfl, hrec⟩ := mem_outputs_expireLoop h
    rcases m.closed_spec p now with ⟨fec', hfec, hm, -⟩ |
        ⟨-, fec', parked, hfec, hparked, hr, hm, -⟩
    · rw [hm] at hmem hrec
      exact ⟨hmem, FrameState.ready_of_recover (FrameState.recover_shrinks hfec hrec)⟩
    · rw [hm] at hmem hrec
      rcases List.mem_append.1 hmem with hz | hz
      · exact ⟨hz, FrameState.ready_of_recover (FrameState.recover_shrinks hfec hrec)⟩
      · -- It was parked in this turn since it was not ready.
        obtain rfl := List.mem_singleton.1 (hparked.subset hz)
        rw [FrameState.recover_of_not_ready hr] at hrec
        cases hrec

/-- The frame that its last packet makes ready is output, unless nothing can be made of it. -/
theorem mem_outputs_of_ready (hsw : m.switches p = false) (hmark : p.marker = true)
    (hr : (m.joined p now).ready m.fec = some rawExtra)
    (hne : (Depacketizer.run ((m.joined p now).ordered rawExtra)).annexb ≠ []) :
    (m.joined p now, rawExtra) ∈ outputs (m.assemble p now).2 := by
  have hswitch : m.switchFrame p now = (m, []) := if_neg (by
    rw [← switches, hsw]
    exact Bool.false_ne_true)
  have hcur := m.withPacket_cur p now
  have hfec : (m.withPacket p now).fec = m.fec := by rw [withPacket, hswitch]
  obtain ⟨fec', -, -, hout⟩ := finalizeFrame_of_ready (m := m.withPacket p now)
    (hcur ▸ m.joined_started p now) (hcur ▸ m.joined_raws_isEmpty p now)
    (by rw [hcur, hfec]; exact hr) true now
  have hclosed : outputs (m.closed p now).2 = [(m.joined p now, rawExtra)] := by
    rw [closed, if_pos hmark, hout, hcur, FrameState.outputs_emit, if_neg (by simpa using hne)]
  rw [assemble_eq, outputs_append, outputs_append, hclosed]
  simp

/-! ## Every effect of a turn -/

/-- What `emit` does with a frame state, and the count of what it lacks, satisfy `Q`. -/
def Satisfies (Q : RtpEffect → Prop) (now : Int) (f : FrameState) : Prop :=
  (∀ rawExtra, ∀ e ∈ f.emit rawExtra now, Q e) ∧ Q (.lost f.lostCount)

theorem forall_finalizeFrame {Q : RtpEffect → Prop} (hrec : Q .fecRecovered) (explicitMarker : Bool)
    (hcur : m.cur.started = true → Satisfies Q now m.cur) :
    ∀ e ∈ (m.finalizeFrame explicitMarker now).2, Q e := by
  intro e he
  rcases m.finalizeFrame_cases explicitMarker now with
    h | ⟨hst, h | ⟨raw, -, h⟩ | h | h⟩ <;> rw [h] at he
  · cases he
  · exact (hcur hst).1 none e he
  · rcases List.mem_append.1 he with he | he
    · exact (hcur hst).1 (some raw) e he
    · exact List.mem_singleton.1 he ▸ hrec
  · cases he
  · exact List.mem_singleton.1 he ▸ (hcur hst).2

theorem forall_expireLoop {Q : RtpEffect → Prop} (hrec : Q .fecRecovered)
    (fec : TreeMap UInt32 Bytes) {zs : List FrameState} (hzs : ∀ z ∈ zs, Satisfies Q now z) :
    ∀ e ∈ (expireLoop now fec zs).2.2, Q e := by
  induction zs generalizing fec with
  | nil => exact fun e he => by cases he
  | cons z zs ih =>
    obtain ⟨⟨hemit, hlost⟩, hzs⟩ := List.forall_mem_cons.mp hzs
    intro e he
    cases hz : z.recover fec with
    | some raw =>
      simp only [expireLoop, hz, List.mem_append, List.mem_cons] at he
      rcases he with he | rfl | he
      · exact hemit (some raw) e he
      · exact hrec
      · exact ih _ hzs e he
    | none =>
      simp only [expireLoop, hz] at he
      split_ifs at he
      · rcases List.mem_cons.1 he with rfl | he
        · exact hlost
        · exact ih _ hzs e he
      · exact ih _ hzs e he

/-- **Every effect of a turn** is of the frame before, of the frame the packet joined or of a
zombie. -/
theorem forall_assemble {Q : RtpEffect → Prop} (hrec : Q .fecRecovered)
    (hcur : m.cur.started = true → Satisfies Q now m.cur)
    (hjoined : Satisfies Q now (m.joined p now))
    (hzombies : ∀ z ∈ m.zombies, Satisfies Q now z) :
    ∀ e ∈ (m.assemble p now).2, Q e := by
  intro e he
  rw [assemble_eq, List.mem_append, List.mem_append] at he
  rcases he with (he | he) | he
  · unfold switchFrame at he
    split_ifs at he
    · exact forall_finalizeFrame hrec false hcur e he
    · cases he
  · unfold closed at he
    split_ifs at he
    · exact forall_finalizeFrame hrec true (fun _ => m.withPacket_cur p now ▸ hjoined) e he
    · cases he
  · refine forall_expireLoop hrec _ (fun z hz => ?_) e he
    rcases m.closed_spec p now with ⟨fec', -, hm, -⟩ | ⟨-, fec', parked, -, hparked, -, hm, -⟩
    · rw [hm] at hz
      exact hzombies z hz
    · rw [hm] at hz
      rcases List.mem_append.1 hz with hz | hz
      · exact hzombies z hz
      · exact List.mem_singleton.1 (hparked.subset hz) ▸ hjoined

theorem madeOf_assemble (m : Assembler) (p : RtpPkt) (now : Int) :
    ∀ e ∈ (m.assemble p now).2, FrameState.MadeOf e := by
  have hf : ∀ f : FrameState, Satisfies FrameState.MadeOf now f := fun f =>
    ⟨fun rawExtra => FrameState.madeOf_emit, by rintro src rawExtra ef ⟨⟩⟩
  refine forall_assemble ?_ (fun _ => hf _) (hf _) (fun z _ => hf z)
  rintro src rawExtra ef ⟨⟩

variable (now) in
/-- **What a turn outputs and keeps back**, when the frame before is not emitted once more: the
zombies, and the frame that the packet joined if the packet was its last one, each at most once. -/
theorem outputs_assemble_subperm
    (hquiet : m.cur.started = true → p.ts ≠ m.cur.ts → ∀ e ∈ m.cur.ready m.fec,
      (Depacketizer.run (m.cur.ordered e)).annexb = []) :
    ((outputs (m.assemble p now).2).map Prod.fst ++ (m.assemble p now).1.zombies).Subperm
      (m.zombies ++ if p.marker then [m.joined p now] else []) := by
  have hswitch : outputs (m.switchFrame p now).2 = [] := by
    apply List.eq_nil_iff_forall_not_mem.2
    intro kv hkv
    obtain ⟨-, hst, hts, hr, hstream⟩ := (m.switchFrame_spec p now).2.2.2 kv.1 kv.2 hkv
    exact hstream (hquiet hst hts kv.2 hr)
  rw [assemble_eq, outputs_append, outputs_append, hswitch, List.nil_append, List.map_append,
    List.append_assoc]
  have hexp := expireLoop_subperm now (m.closed p now).1.fec (m.closed p now).1.zombies
  have hclosed : ((outputs (m.closed p now).2).map Prod.fst ++ (m.closed p now).1.zombies).Subperm
      (m.zombies ++ if p.marker then [m.joined p now] else []) := by
    rcases m.closed_spec p now with ⟨fec', -, hm, ⟨hmark, hout⟩ | ⟨hmark, e, -, hout⟩⟩ |
        ⟨hmark, fec', parked, -, hparked, -, hm, hout⟩
    · rw [hm, hout, hmark, if_neg Bool.false_ne_true, List.append_nil]
      exact List.Subperm.refl _
    · rw [hm, hout, hmark, if_pos rfl]
      apply List.perm_append_comm.subperm.trans
      exact (List.subperm_append_left _).2
        (((m.joined p now).outputs_emit_sublist e now).map Prod.fst).subperm
    · rw [hm, hout, hmark, if_pos rfl]
      exact (List.subperm_append_left m.zombies).2 hparked.subperm
  exact ((List.subperm_append_left _).2 hexp).trans hclosed

/-- The frame the packet joined is the current one, unless it has been let go. -/
theorem assemble_cur (m : Assembler) (p : RtpPkt) (now : Int) :
    (m.assemble p now).1.cur = m.joined p now ∨
      p.marker = true ∧ (m.assemble p now).1.cur = {} := by
  rw [assemble_eq]
  rcases m.closed_spec p now with ⟨fec', -, hm, -⟩ | ⟨hmark, fec', parked, -, -, -, hm, -⟩
  · rw [hm]
    exact .inl rfl
  · rw [hm]
    exact .inr ⟨hmark, rfl⟩

theorem assemble_cur_of_started {p : RtpPkt} {now : Int}
    (hst : (m.assemble p now).1.cur.started = true) :
    (m.assemble p now).1.cur = m.joined p now := by
  rcases m.assemble_cur p now with hcur | ⟨-, hcur⟩
  · exact hcur
  · rw [hcur] at hst
    cases hst

/-- The zombies are the ones there were, and perhaps the frame that the packet joined. -/
theorem mem_zombies_assemble (h : src ∈ (m.assemble p now).1.zombies) :
    src ∈ m.zombies ∨ p.marker = true ∧ src = m.joined p now ∧
      (m.assemble p now).1.cur = {} := by
  rw [assemble_eq] at h ⊢
  have hmem : src ∈ (m.closed p now).1.zombies :=
    (expireLoop_subperm now (m.closed p now).1.fec (m.closed p now).1.zombies).subset
      (List.mem_append_right _ h)
  rcases m.closed_spec p now with ⟨fec', -, hm, -⟩ | ⟨hmark, fec', parked, -, hparked, -, hm, -⟩
  · rw [hm] at hmem
    exact .inl hmem
  · rw [hm] at hmem ⊢
    rcases List.mem_append.1 hmem with hz | hz
    · exact .inl hz
    · exact .inr ⟨hmark, List.mem_singleton.1 (hparked.subset hz), rfl⟩

theorem assemble_shrinks (m : Assembler) (p : RtpPkt) (now : Int) :
    Shrinks m.fec (m.assemble p now).1.fec := by
  have hexp := expireLoop_shrinks now (m.closed p now).1.fec (m.closed p now).1.zombies
  rcases m.closed_spec p now with ⟨fec', hfec, hm, -⟩ | ⟨-, fec', parked, hfec, -, -, hm, -⟩
  · rw [hm] at hexp
    rw [assemble_eq, hm]
    exact hfec.trans hexp
  · rw [hm] at hexp
    rw [assemble_eq, hm]
    exact hfec.trans hexp

/-- Only the map of parities changes, and only the new parity is put into it. -/
theorem storeParity_spec (m : Assembler) (key : UInt32) (parity : Bytes) :
    ∃ fec', m.storeParity key parity = { m with fec := fec' } ∧
      ∀ (k : UInt32) (v : Bytes), fec'[k]? = some v →
        k = key ∧ v = parity ∨ m.fec[k]? = some v := by
  have hins : ∀ (k : UInt32) (v : Bytes), (m.fec.insert key parity)[k]? = some v →
      k = key ∧ v = parity ∨ m.fec[k]? = some v := by
    intro k v hv
    rw [TreeMap.getElem?_insert] at hv
    split_ifs at hv with hk
    · exact .inl ⟨(Std.compare_eq_iff_eq.1 hk).symm, (Option.some.inj hv).symm⟩
    · exact .inr hv
  simp only [storeParity]
  split_ifs
  · split
    · exact ⟨_, rfl, fun k v hv => hins k v (Shrinks.erase _ _ k v hv)⟩
    · exact ⟨_, rfl, hins⟩
  · exact ⟨_, rfl, hins⟩

theorem madeOf_trace (m : Assembler) (is : List AsmInput) :
    ∀ e ∈ Runs.trace Assembler.step m is, FrameState.MadeOf e := by
  refine Runs.Along.forall_trace (P := fun _ _ => True) (I := fun _ => True) (fun m i _ _ => ?_)
    (Runs.along_of_forall m fun _ _ _ => trivial) trivial
  cases i with
  | unit p now => exact ⟨trivial, m.madeOf_assemble p now⟩
  | parity key bytes => exact ⟨trivial, fun e he => by cases he⟩

/-! ## Inputs -/

/-- The packets among the inputs. -/
def units (is : List AsmInput) : List RtpPkt :=
  is.filterMap fun
    | .unit p _ => some p
    | .parity _ _ => none

@[simp] theorem units_nil : units [] = [] := rfl

@[simp] theorem units_unit (p : RtpPkt) (now : Int) (is : List AsmInput) :
    units (.unit p now :: is) = p :: units is := rfl

end Assembler

end Rtstream
