import Rtstream.RtpSentFrame

/-!
# What each packet adds to the stream

A packet of a frame adds bytes to the Annex-B stream when its turn comes (`AllAdd`): a fragment
comes after the one that starts its NALU. So the stream of a frame gets longer when a packet is
continued with zeros (`SentFrame.length_annexb_set`), and shorter without its first packet
(`SentFrame.length_annexb_drop`).

NALUs of type 28 are left out. They look like fragments to the receiver when they travel whole.
-/

namespace Rtstream

namespace Depacketizer

/-- The payload is not passed over: it is a NALU, or a fragment of one that has started. -/
def Adds (a : Depacketizer) (pl : Bytes) : Prop :=
  pl ≠ [] ∧ (pl.headD 0 &&& 0x1F = 28 →
    2 ≤ pl.length ∧ (pl.getD 1 0 &&& 0x80 ≠ 0 ∨ a.fuActive = true))

/-- Every payload adds to the stream when its turn comes. -/
def AllAdd (a : Depacketizer) : List Bytes → Prop
  | [] => True
  | pl :: pls => a.Adds pl ∧ (a.payload pl).AllAdd pls

theorem allAdd_append {a : Depacketizer} {pls qls : List Bytes} :
    a.AllAdd (pls ++ qls) ↔ a.AllAdd pls ∧ (pls.foldl payload a).AllAdd qls := by
  induction pls generalizing a with
  | nil => simp [AllAdd]
  | cons pl pls ih => simp only [List.cons_append, AllAdd, ih, List.foldl_cons, and_assoc]

/-! ## The two halves of a fragment -/

/-- What a fragment adds, before its end bit is looked at. -/
def body (a : Depacketizer) (pl : Bytes) : Depacketizer :=
  if pl.getD 1 0 &&& 0x80 != 0 then
    { annexb := a.annexb ++ [0, 0, 0, 1] ++
        ((pl.headD 0 &&& 0xE0) ||| (pl.getD 1 0 &&& 0x1F)) :: pl.drop 2
      keyframe := a.keyframe || ((pl.headD 0 &&& 0xE0) ||| (pl.getD 1 0 &&& 0x1F)) &&& 0x1F == 5
      fuActive := true }
  else if a.fuActive then { a with annexb := a.annexb ++ pl.drop 2 }
  else a

/-- The end bit closes the NALU. -/
def ended (a : Depacketizer) (last : Bool) : Depacketizer :=
  if last then { a with fuActive := false } else a

theorem payload_of_fragment (a : Depacketizer) {pl : Bytes} (h28 : pl.headD 0 &&& 0x1F = 28)
    (hlen : 2 ≤ pl.length) :
    a.payload pl = (a.body pl).ended (pl.getD 1 0 &&& 0x40 != 0) := by
  rw [payload, if_pos h28, fragment, if_neg (Nat.not_lt.2 hlen)]
  rfl

theorem payload_of_short (a : Depacketizer) {pl : Bytes} (h28 : pl.headD 0 &&& 0x1F = 28)
    (hlen : pl.length < 2) : a.payload pl = a := by
  rw [payload, if_pos h28, fragment, if_pos hlen]

theorem payload_of_single (a : Depacketizer) {pl : Bytes} (h28 : pl.headD 0 &&& 0x1F ≠ 28) :
    a.payload pl = a.single pl := if_neg h28

/-! ## Longer payloads and fewer payloads -/

theorem payload_append {a : Depacketizer} {pl : Bytes} (h : a.Adds pl) (tail : Bytes) :
    a.payload (pl ++ tail) =
      { a.payload pl with annexb := (a.payload pl).annexb ++ tail } := by
  obtain ⟨hne, hfu⟩ := h
  have hhead : (pl ++ tail).headD 0 = pl.headD 0 := by
    cases pl with
    | nil => exact absurd rfl hne
    | cons b pl => rfl
  by_cases h28 : pl.headD 0 &&& 0x1F = 28
  · obtain ⟨hlen, hstart⟩ := hfu h28
    have hfu' : (pl ++ tail).getD 1 0 = pl.getD 1 0 := by
      rw [List.getD_eq_getElem?_getD, List.getD_eq_getElem?_getD, List.getElem?_append_left hlen]
    have hbody : a.body (pl ++ tail) = { a.body pl with annexb := (a.body pl).annexb ++ tail } := by
      unfold body
      rw [hhead, hfu', List.drop_append_of_le_length hlen]
      by_cases hs : (pl.getD 1 0 &&& 0x80 != 0) = true
      · rw [if_pos hs, if_pos hs]
        simp
      · have hact := hstart.resolve_left (by simpa using hs)
        rw [if_neg hs, if_neg hs, if_pos hact, if_pos hact]
        simp
    rw [payload_of_fragment a (hhead ▸ h28) (by simp; omega), payload_of_fragment a h28 hlen,
      hbody, hfu']
    unfold ended
    split_ifs <;> rfl
  · rw [payload_of_single a (hhead ▸ h28), payload_of_single a h28, single, hhead]
    simp [single]

/-- One stream is ahead of the other. -/
structure Ahead (d : ℕ) (a b : Depacketizer) : Prop where
  length : b.annexb.length + d ≤ a.annexb.length
  active : b.fuActive = true → a.fuActive = true

theorem Ahead.body {d : ℕ} {a b : Depacketizer} (h : Ahead d a b) (pl : Bytes) :
    Ahead d (a.body pl) (b.body pl) := by
  obtain ⟨hlen, hact⟩ := h
  unfold Depacketizer.body
  by_cases hs : (pl.getD 1 0 &&& 0x80 != 0) = true
  · rw [if_pos hs, if_pos hs]
    exact ⟨by simp; omega, fun _ => rfl⟩
  · rw [if_neg hs, if_neg hs]
    by_cases hb : b.fuActive = true
    · rw [if_pos hb, if_pos (hact hb)]
      exact ⟨by simp; omega, fun _ => hact hb⟩
    · rw [if_neg hb]
      split_ifs
      · exact ⟨by simp; omega, fun h => absurd h hb⟩
      · exact ⟨hlen, hact⟩

theorem Ahead.ended {d : ℕ} {a b : Depacketizer} (h : Ahead d a b) (last : Bool) :
    Ahead d (a.ended last) (b.ended last) := by
  cases last with
  | false => exact h
  | true => exact ⟨h.length, id⟩

theorem Ahead.payload {d : ℕ} {a b : Depacketizer} (h : Ahead d a b) (pl : Bytes) :
    Ahead d (a.payload pl) (b.payload pl) := by
  by_cases h28 : pl.headD 0 &&& 0x1F = 28
  · rcases Nat.lt_or_ge pl.length 2 with hlen | hlen
    · rwa [payload_of_short a h28 hlen, payload_of_short b h28 hlen]
    · rw [payload_of_fragment a h28 hlen, payload_of_fragment b h28 hlen]
      exact (h.body pl).ended _
  · rw [payload_of_single a h28, payload_of_single b h28]
    have := h.length
    exact ⟨by simp [single]; omega, id⟩

theorem Ahead.foldl {d : ℕ} {a b : Depacketizer} (h : Ahead d a b) (pls : List Bytes) :
    Ahead d (pls.foldl Depacketizer.payload a) (pls.foldl Depacketizer.payload b) := by
  induction pls generalizing a b with
  | nil => exact h
  | cons pl pls ih => exact ih (h.payload pl)

/-! ## The payloads of a frame -/

theorem adds_fu {a : Depacketizer} {hdr : UInt8} {first last : Bool} {chunk : Bytes}
    (h : first = false → a.fuActive = true) :
    a.Adds ((hdr &&& 0xE0 ||| 28) ::
      ((if first then 0x80 else 0) ||| (if last then 0x40 else 0) ||| (hdr &&& 0x1F)) ::
        chunk) := by
  obtain ⟨-, hfirst, -, -⟩ := fu_bits hdr first last
  refine ⟨List.cons_ne_nil _ _, fun _ => ⟨by simp, ?_⟩⟩
  cases first with
  | false => exact .inr (h rfl)
  | true => exact .inl (by simpa using hfirst)

/-- Each fragment of a NALU adds to the stream. The induction is on the fuel: while fragments are
left, the NALU is open. -/
theorem allAdd_fuPayloads {hdr : UInt8} {maxPayload fuel : ℕ} {first : Bool} {rest : Bytes}
    {pls : List Bytes} (hpls : RtpServer.fuPayloads hdr maxPayload fuel first rest = some pls)
    {a : Depacketizer} (h : first = false → a.fuActive = true) : a.AllAdd pls := by
  induction fuel generalizing first rest pls a with
  | zero =>
    cases rest with
    | nil => obtain rfl := Option.some.inj hpls; trivial
    | cons b rest => cases hpls
  | succ fuel ih =>
    cases rest with
    | nil => obtain rfl := Option.some.inj hpls; trivial
    | cons b bs =>
      rw [RtpServer.fuPayloads_succ hdr maxPayload fuel first (List.cons_ne_nil b bs)] at hpls
      generalize b :: bs = rest at hpls
      set chunk := min maxPayload rest.length with hchunk
      obtain ⟨qls, hqls, rfl⟩ := Option.map_eq_some_iff.1 hpls
      refine ⟨adds_fu h, ?_⟩
      by_cases hlast : chunk = rest.length
      · -- Nothing is left.
        rw [hlast, List.drop_length, RtpServer.fuPayloads_nil] at hqls
        obtain rfl := Option.some.inj hqls
        trivial
      · have hbeq : (chunk == rest.length) = false := by simpa using hlast
        apply ih hqls
        intro _
        rw [payload_fu, hbeq]
        cases first with
        | true => rfl
        | false => simp [h rfl]

theorem allAdd_payloads {cfg : ServerConfig} {nals pls : List Bytes}
    (hnals : ∀ nal ∈ nals, nal ≠ [] ∧ nal.headD 0 &&& 0x1F ≠ 28)
    (hpls : RtpServer.payloads cfg nals = some pls) (a : Depacketizer) : a.AllAdd pls := by
  induction nals generalizing pls a with
  | nil => obtain rfl := Option.some.inj hpls; trivial
  | cons nal nals ih =>
    simp only [RtpServer.payloads, Option.bind_eq_bind, Option.bind_eq_some_iff, Option.pure_def,
      Option.some.injEq] at hpls
    obtain ⟨pls₁, h₁, pls₂, h₂, rfl⟩ := hpls
    obtain ⟨hne, h28⟩ := hnals nal List.mem_cons_self
    refine allAdd_append.2 ⟨?_, ih (fun n hn => hnals n (List.mem_cons_of_mem nal hn)) h₂ _⟩
    unfold RtpServer.nalPayloads at h₁
    split_ifs at h₁
    · obtain rfl := Option.some.inj h₁
      exact ⟨⟨hne, fun h => absurd h h28⟩, trivial⟩
    · exact allAdd_fuPayloads h₁ fun h => by cases h

theorem run_eq {ds : List Bytes} (h : ∀ d ∈ ds, 13 ≤ d.length) :
    run ds = (ds.map (List.drop 12)).foldl payload {} := by
  have hfold : ∀ a : Depacketizer, ds.foldl packet a = (ds.map (List.drop 12)).foldl payload a := by
    induction ds with
    | nil => exact fun _ => rfl
    | cons d ds ih =>
      intro a
      rw [List.foldl_cons, List.map_cons, List.foldl_cons, packet,
        if_neg (Nat.not_lt.2 (h d List.mem_cons_self))]
      exact ih (fun e he => h e (List.mem_cons_of_mem d he)) _
  exact hfold {}

end Depacketizer

namespace SentFrame

open Depacketizer

variable {F : SentFrame}

/-- No NALU of the frame is of type 28. -/
def Plain (F : SentFrame) : Prop :=
  ∀ nal ∈ RtpServer.nalus F.frame.data, nal.headD 0 &&& 0x1F ≠ 28

theorem length_packet {i : ℕ} (hi : i < F.packets.length) : 13 ≤ F.packets[i].length := by
  obtain ⟨marker, p, hp, heq⟩ := packet_eq hi
  have := List.length_pos_of_ne_nil hp
  rw [heq, List.length_append, RtpServer.length_rtpHeader]
  omega

theorem length_of_mem : ∀ d ∈ F.packets, 13 ≤ d.length := by
  intro d hd
  obtain ⟨i, hi, rfl⟩ := List.getElem_of_mem hd
  exact length_packet hi

theorem allAdd (h : F.Plain) : ({} : Depacketizer).AllAdd (F.packets.map (List.drop 12)) := by
  obtain ⟨ps, hps, heq⟩ := RtpServer.rtpPackets_eq F.made
  have hmap : F.packets.map (List.drop 12) = ps := by
    rw [heq]
    apply List.ext_getElem (by simp)
    intro i hi _
    rw [List.getElem_map, List.getElem_mapIdx, RtpServer.packetAt,
      List.drop_left' (RtpServer.length_rtpHeader _ _ _ _)]
  rw [hmap]
  exact allAdd_payloads (fun nal hnal => ⟨RtpServer.ne_nil_of_mem_nalus hnal, h nal hnal⟩) hps {}

/-- **A packet continued with zeros makes the stream longer.** -/
theorem length_annexb_set (h : F.Plain) {j : ℕ} (hj : j < F.packets.length) {z : ℕ} (hz : 0 < z) :
    (run F.packets).annexb.length <
      (run (F.packets.set j (F.packets[j] ++ List.replicate z 0))).annexb.length := by
  set pls := F.packets.map (List.drop 12) with hpls
  have hj' : j < pls.length := by simpa [hpls] using hj
  have hsplit : pls = pls.take j ++ pls[j] :: pls.drop (j + 1) := by
    rw [← List.drop_eq_getElem_cons hj', List.take_append_drop]
  have hset : (F.packets.set j (F.packets[j] ++ List.replicate z 0)).map (List.drop 12) =
      pls.take j ++ (pls[j] ++ List.replicate z 0) :: pls.drop (j + 1) := by
    have hdrop : (F.packets[j] ++ List.replicate z 0).drop 12 = pls[j] ++ List.replicate z 0 := by
      have := length_packet hj
      rw [List.drop_append_of_le_length (by omega)]
      simp [hpls]
    rw [List.map_set, hdrop, ← hpls, List.set_eq_take_append_cons_drop, if_pos hj']
  have hadd := F.allAdd h
  rw [← hpls, hsplit, allAdd_append] at hadd
  set a := (pls.take j).foldl payload {} with ha
  have hrun : run F.packets = (pls.drop (j + 1)).foldl payload (a.payload pls[j]) := by
    rw [run_eq length_of_mem, ← hpls]
    conv_lhs => rw [hsplit]
    rw [List.foldl_append, List.foldl_cons]
  have hrun' : run (F.packets.set j (F.packets[j] ++ List.replicate z 0)) =
      (pls.drop (j + 1)).foldl payload (a.payload (pls[j] ++ List.replicate z 0)) := by
    rw [run_eq fun d hd => ?_, hset, List.foldl_append, List.foldl_cons]
    rcases List.mem_or_eq_of_mem_set hd with hd | rfl
    · exact length_of_mem d hd
    · have := length_packet hj
      simp
      omega
  -- The streams are the same up to this packet, and then one is ahead by `z`.
  have hahead : Ahead z (a.payload (pls[j] ++ List.replicate z 0)) (a.payload pls[j]) := by
    rw [payload_append hadd.2.1]
    exact ⟨by simp, id⟩
  have := (hahead.foldl (pls.drop (j + 1))).length
  rw [hrun, hrun']
  omega

theorem length_annexb_drop (h : F.Plain) :
    (run (F.packets.drop 1)).annexb.length < (run F.packets).annexb.length := by
  have hadd := allAdd h
  obtain ⟨d, ds, hds⟩ := List.exists_cons_of_ne_nil F.ne_nil
  have hlen := F.length_of_mem
  rw [hds] at hadd hlen ⊢
  rw [run_eq hlen, run_eq fun e he => hlen e (List.mem_of_mem_drop he), List.drop_one,
    List.tail_cons, List.map_cons, List.foldl_cons]
  have hahead : Ahead 1 (payload {} (d.drop 12)) {} := by
    refine ⟨?_, fun hc => by cases hc⟩
    obtain ⟨-, hfu⟩ := hadd.1
    by_cases h28 : (d.drop 12).headD 0 &&& 0x1F = 28
    · obtain ⟨hlen, hstart⟩ := hfu h28
      have hs : ((d.drop 12).getD 1 0 &&& 0x80 != 0) = true := by
        simpa using hstart.resolve_right (by simp)
      rw [payload_of_fragment _ h28 hlen, body, if_pos hs]
      unfold ended
      split_ifs <;> simp
    · rw [payload_of_single _ h28, single]
      simp
  have := (hahead.foldl (ds.map (List.drop 12))).length
  omega

end SentFrame

end Rtstream
