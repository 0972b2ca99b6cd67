import Rtstream.ControlPort
import Rtstream.JitterBufferSpec
import Rtstream.Lib.Network
import Rtstream.UdpMalformed
import Rtstream.UdpReassembly

/-!
# The UDP link from end to end

A server that cuts frames into datagrams, answers NACKs and pings, and sends its statistics; a
network that loses, delays, reorders and repeats what it sent, the loss simulator included; and a
receiver that puts the frames together and hands them to the decoder.

The server may be sent anything by anybody, so nothing is assumed of the datagrams it receives.

* `outputs_faithful`: every frame that reaches the decoder is one that was sent: its number, its
  key frame flag and the low bits of its time are the frame's, and its data is the frame's data, or
  that with zeros behind it, fewer than a datagram holds.
-/

namespace Rtstream

open Std (TreeMap)
open RaggedXor Holes UdpServer

/-! ## The server -/

/-- The UDP server with its control side, which shares the retransmission cache. -/
structure UdpHost where
  cfg : ServerConfig
  port : ControlPort
  deriving DecidableEq, Repr

/-- What the server's threads do next. -/
inductive HostInput
  | broadcast (f : EncodedFrame)
  /-- A datagram arrives at the server's port. -/
  | control (d : Datagram)
  /-- The second is over: `payload` is what `Metrics::to_json` returns. -/
  | stats (payload : Bytes)
  deriving DecidableEq, Repr

inductive HostEffect
  /-- `sim_.inject`: the packet goes to the simulator, and from there to the clients. -/
  | inject (pkt : Bytes)
  | control (e : ControlEffect)
  deriving DecidableEq, Repr

namespace UdpHost

def start (cfg : ServerConfig) : UdpHost := ⟨cfg, { nack := { cache := cfg.nackCache } }⟩

/-- `broadcast`: without a client a frame is not even cut. -/
def broadcast (s : UdpHost) (f : EncodedFrame) : UdpHost × List HostEffect :=
  if s.port.clients.isEmpty then (s, [])
  else match sendFrame ⟨s.cfg, s.port.nack⟩ f with
    | some (srv, out) => ({ s with port := { s.port with nack := srv.nack } }, out.map .inject)
    -- The division by zero ends the process.
    | none => (s, [])

/-- The datagram of the statistics. -/
def statsDatagram (payload : Bytes) : Bytes :=
  { payloadType := PayloadType.statsJson.code
    payloadLen := UInt16.ofNat payload.length : UdpHeader }.write ++ payload

/-- One turn of `stats_loop`. -/
def statsTurn (s : UdpHost) (payload : Bytes) : UdpHost × List HostEffect :=
  if s.port.clients.isEmpty then (s, [])
  else if payload.length + UdpHeader.kSize > 65535 then (s, [])
  else (s, (s.port.rawSend (statsDatagram payload)).map .control)

/-- The server as a machine. -/
def step (s : UdpHost) : HostInput → UdpHost × List HostEffect
  | .broadcast f => s.broadcast f
  | .control d =>
      let r := s.port.receive .udp d
      ({ s with port := r.1 }, r.2.map .control)
  | .stats payload => s.statsTurn payload

/-- The packet that an effect puts onto the network. -/
def packet : HostEffect → Option Bytes
  | .inject pkt => some pkt
  | .control (.sendTo _ d) => some d
  | .control (.nack (.send raw)) => some raw
  | .control (.nack _) => none

end UdpHost

/-- The link: a server, a receiver, and the network between them. -/
def udpLink : Network.Wiring UdpHost HostInput HostEffect UdpReceiver UdpInput UdpEffect Bytes
    Int where
  sender := UdpHost.step
  packet := UdpHost.packet
  receiver := UdpReceiver.step
  arrival := .datagram

abbrev UdpLinkEvent := Network.Event HostInput Int UdpInput

namespace UdpLink

/-- A server that was just started, and a receiver. -/
def start (cfg : ServerConfig) : Network.State UdpHost Bytes UdpReceiver :=
  { sender := .start cfg, receiver := {} }

/-- The frames the server was given. -/
def frames (es : List UdpLinkEvent) : List EncodedFrame :=
  es.filterMap fun
    | .sender (.broadcast f) => some f
    | _ => none

/-- The receiver's own turns: everything it is sent comes over the network. -/
def Connected (es : List UdpLinkEvent) : Prop :=
  ∀ k, .receiver k ∈ es → ∃ now, k = .pop now

end UdpLink

/-! ## What the cache holds -/

namespace UdpServer

variable {cfg : ServerConfig} {f : EncodedFrame}

/-- What the server remembers of a frame, in the order it is sent. -/
def registered (cfg : ServerConfig) (f : EncodedFrame) : List RetransPacket :=
  (List.range (fragmentCount cfg f.data.length)).map
      (fun i => ⟨toUInt32 f.frameId, UInt16.ofNat i, dataDatagram cfg f i⟩) ++
    [⟨toUInt32 f.frameId, UdpHeader.kFecSeq, fecDatagram cfg f⟩]

theorem mem_datagrams_of_mem_registered {p : RetransPacket} (hp : p ∈ registered cfg f) :
    p.raw ∈ datagrams cfg f := by
  rw [mem_datagrams]
  rcases List.mem_append.1 hp with hp | hp
  · obtain ⟨i, hi, rfl⟩ := List.mem_map.1 hp
    exact .inl ⟨i, List.mem_range.1 hi, rfl⟩
  · rw [List.mem_singleton.1 hp]
    exact .inr rfl

/-- Remember one packet after the other. -/
def rememberAll (n : NackManager) (ps : List RetransPacket) : NackManager :=
  ps.foldl (fun n p => n.remember p.groupId p.fragmentSeq p.raw) n

@[simp] theorem emit_nack (f : EncodedFrame) (acc : UdpServer × List Bytes) (seq : UInt16)
    (pkt : Bytes) : (emit f acc seq pkt).1.nack =
      acc.1.nack.remember (toUInt32 f.frameId) seq pkt := rfl

theorem foldl_emit_nack (f : EncodedFrame) (num : ℕ → UInt16) (pkt : ℕ → Bytes) (is : List ℕ)
    (acc : UdpServer × List Bytes) :
    (is.foldl (fun acc i => emit f acc (num i) (pkt i)) acc).1.nack =
      rememberAll acc.1.nack (is.map fun i => ⟨toUInt32 f.frameId, num i, pkt i⟩) := by
  induction is generalizing acc with
  | nil => rfl
  | cons i is ih => exact ih _

/-- **What `send_frame` does** to the cache: it remembers the packets of the frame. -/
theorem sendFrame_nack {s s' : UdpServer} {out : List Bytes} (h : sendFrame s f = some (s', out)) :
    s'.nack = rememberAll s.nack (registered s.cfg f) := by
  simp only [sendFrame] at h
  split_ifs at h
  have hs' := congrArg Prod.fst (Option.some.inj h)
  have hdata := foldl_emit_nack f UInt16.ofNat (dataDatagram s.cfg f)
    (List.range (fragmentCount s.cfg f.data.length)) (s, [])
  rw [← show _ = s' from hs', emit_nack, hdata, registered, rememberAll, rememberAll,
    List.foldl_append]
  rfl

end UdpServer

namespace NackManager

theorem mem_popOld {cache : ℕ} {items : List RetransPacket} {p : RetransPacket}
    (h : p ∈ popOld cache items) : p ∈ items := by
  induction items with
  | nil => exact h
  | cons q items ih =>
    rw [popOld] at h
    split_ifs at h
    · exact List.mem_cons_of_mem q (ih h)
    · exact h

theorem mem_remember {n : NackManager} {g : UInt32} {s : UInt16} {raw : Bytes} {p : RetransPacket}
    (h : p ∈ (n.remember g s raw).items) : p ∈ n.items ∨ p = ⟨g, s, raw⟩ := by
  unfold remember at h
  split_ifs at h
  · exact .inl h
  · rcases List.mem_append.1 h with h | h
    · exact .inl (mem_popOld h)
    · exact .inr (List.mem_singleton.1 h)

theorem mem_rememberAll {n : NackManager} {ps : List RetransPacket} {p : RetransPacket}
    (h : p ∈ (rememberAll n ps).items) : p ∈ n.items ∨ p ∈ ps := by
  induction ps generalizing n with
  | nil => exact .inl h
  | cons q ps ih =>
    rcases ih (n := n.remember q.groupId q.fragmentSeq q.raw) h with h | h
    · exact (mem_remember h).imp_right fun (hq : p = q) => hq ▸ List.mem_cons_self
    · exact .inr (List.mem_cons_of_mem q h)

theorem mem_of_send {n : NackManager} {payload raw : Bytes}
    (h : .send raw ∈ n.onNackEffects payload) : ∃ p ∈ n.items, p.raw = raw := by
  obtain ⟨i, -, hi⟩ := List.mem_flatMap.1 h
  rcases List.mem_cons.1 hi with hi | hi
  · cases hi
  · cases hfind : n.find (record payload i).1 (record payload i).2 with
    | none => simp [hfind] at hi
    | some p =>
      have hraw : raw = p.raw := by simpa [hfind] using hi
      exact ⟨p, List.mem_reverse.1 (List.mem_of_find?_eq_some hfind), hraw.symm⟩

end NackManager

/-! ## What a frame turns into -/

/-- A time that is rebuilt has the low bits it was rebuilt from. -/
theorem toUInt32_extendLow32 (last now : Int) (lo : UInt32) :
    toUInt32 (extendLow32 last now lo) = lo := by
  have hlow := toNat_toUInt32 (extendLow32 last now lo)
  rw [extendLow32_emod] at hlow
  exact UInt32.toNat_inj.1 (by exact_mod_cast hlow)

theorem captureUsLo_of_mem_datagrams {cfg : ServerConfig} {f : EncodedFrame} {d : Bytes}
    (hd : d ∈ datagrams cfg f) : (UdpHeader.read d).captureUsLo = toUInt32 f.captureUs := by
  rcases mem_datagrams.1 hd with ⟨i, -, rfl⟩ | rfl
  · rw [dataDatagram, read_datagram]
    rfl
  · rw [fecDatagram, read_datagram]
    rfl

/-- The bytes of a frame, or those with zeros behind them, fewer than a datagram holds. -/
def DataOf (cfg : ServerConfig) (f : EncodedFrame) (data : Bytes) : Prop :=
  ∃ n < cfg.udpMtu.toNat - 24, data = f.data ++ List.replicate n 0

/-- The unit of a frame. -/
structure UnitOf (cfg : ServerConfig) (f : EncodedFrame) (a : UdpAssembled) : Prop where
  frameId : a.frameId = toUInt32 f.frameId
  captureUs : toUInt32 a.captureUs = toUInt32 f.captureUs
  keyframe : a.keyframe = f.keyframe
  data : DataOf cfg f a.annexb

/-- The frame that comes out is the frame that went in, as far as the link carries it. -/
structure OutputOf (cfg : ServerConfig) (f out : EncodedFrame) : Prop where
  frameId : out.frameId = (toUInt32 f.frameId).toNat
  captureUs : toUInt32 out.captureUs = toUInt32 f.captureUs
  keyframe : out.keyframe = f.keyframe
  data : DataOf cfg f out.data

section Fragments

variable {cfg : ServerConfig} {f : EncodedFrame} (h : Sendable cfg f)
include h

theorem dataOf_self : DataOf cfg f f.data := by
  have := h.mtu
  exact ⟨0, by omega, by simp⟩

/-- A recovered fragment leaves the frame as it was, or puts zeros behind it. -/
theorem dataOf_set_pad {j : ℕ} (hj : j < (fragments cfg f.data).length) :
    DataOf cfg f ((fragments cfg f.data).set j
      (pad (maxLen (fragments cfg f.data)) (fragments cfg f.data)[j])).flatten := by
  have hcnt : (fragments cfg f.data).length = fragmentCount cfg f.data.length := length_fragments ..
  by_cases hlast : j + 1 < fragmentCount cfg f.data.length
  · rw [(h.flatten_set_pad_iff hj).2 (Or.inl hlast)]
    exact dataOf_self h
  · have hpos := List.length_pos_of_ne_nil (h.fragments_ne_nil _ (List.getElem_mem hj))
    have hmax := h.maxLen_fragments_le
    have hmtu := h.mtu
    have hsplit : (fragments cfg f.data).take j ++ [(fragments cfg f.data)[j]] =
        fragments cfg f.data := by
      rw [← List.take_succ_eq_append_getElem hj, List.take_of_length_le (by omega)]
    have hdata := congrArg List.flatten hsplit
    rw [List.flatten_append, List.flatten_singleton, h.flatten_fragments] at hdata
    refine ⟨maxLen (fragments cfg f.data) - (fragments cfg f.data)[j].length, by omega, ?_⟩
    rw [List.set_eq_take_append_cons_drop, if_pos hj, List.drop_of_length_le (by omega),
      List.flatten_append, List.flatten_singleton, pad, ← List.append_assoc, hdata]

namespace UdpReceiver

/-- **What `try_finalize` makes of a group** that has collected some of a frame. -/
theorem Collects.dataOf {g g' : Group} {A : ℕ → Bool} {p : Bool} {t : Int}
    (hg : Collects cfg f g A p t) (hf : finalized g = some g') : DataOf cfg f g'.frags.flatten := by
  rw [finalized] at hf
  split_ifs at hf with hc
  · have hA := (hg.complete_iff h).1 hc
    rw [← Option.some.inj hf, hg.frags, mask_all (by simpa using hA), h.flatten_fragments]
    exact dataOf_self h
  · -- The one empty string is a fragment, for the parity is not empty.
    have hseen : g.fecSeen = true ∧ missingCount g + (if g.parity = [] then 1 else 0) = 1 :=
      recoverGroup_isSome_iff.1 (by rw [hf]; rfl)
    obtain rfl : p = true := by rw [← hg.fecSeen, hseen.1]
    have hparity : g.parity ≠ [] := by
      rw [hg.parity rfl]
      exact Collects.parity_ne_nil h
    have hone : (mask (fragments cfg f.data) A).countP (·.isEmpty) = 1 := by
      rw [← hg.frags]
      simpa [hparity, missingCount] using hseen.2
    obtain ⟨j, hj, hAj, hrest⟩ := exists_hole h.fragments_ne_nil hone
    rw [hg.recoverGroup_of_hole h hj hAj (by simpa using hrest)] at hf
    rw [← Option.some.inj hf]
    exact dataOf_set_pad h hj

end UdpReceiver

end Fragments

/-! ## The receiver's side -/

namespace UdpLink

open UdpReceiver

variable {cfg : ServerConfig} {F : List EncodedFrame}

/-- A packet that is no media packet, or one of a frame in `F`. -/
def PacketOf (cfg : ServerConfig) (F : List EncodedFrame) (pkt : Bytes) : Prop :=
  IsMedia pkt → ∃ f ∈ F, pkt ∈ datagrams cfg f

/-- What comes of frames in `F`. -/
def EffectOf (cfg : ServerConfig) (F : List EncodedFrame) : UdpEffect → Prop
  | .finish a _ => ∃ f ∈ F, UnitOf cfg f a
  | .out out => ∃ f ∈ F, OutputOf cfg f out
  | _ => True

/-- Everything the receiver holds comes of frames in `F`. -/
structure Holds (cfg : ServerConfig) (F : List EncodedFrame) (rx : UdpReceiver) : Prop where
  keyed : rx.Keyed
  groups : ∀ (k : UInt32) (g : Group), rx.groups[k]? = some g →
    ∃ f ∈ F, (∃ A p t, Collects cfg f g A p t) ∧ toUInt32 g.captureUs = toUInt32 f.captureUs
  units : ∀ (k : UInt32) (u : JbUnit UdpAssembled), rx.jb.buf[k]? = some u →
    ∀ a, u.data = some a → ∃ f ∈ F, UnitOf cfg f a

theorem holds_fresh : Holds cfg F {} where
  keyed := keyed_fresh
  groups k g hg := by simp at hg
  units k u hu := by simp [JitterBuffer.create] at hu

theorem requestMissing_effects (rx : UdpReceiver) {g : Group} {now : Int} {e : UdpEffect}
    (he : e ∈ (rx.requestMissing g now).2) : (∃ pkt, e = .nack pkt) ∨ ∃ n, e = .lost n := by
  have hask : ∀ g : Group, e ∈ sendNack g → ∃ pkt, e = .nack pkt := by
    intro g he
    simp only [sendNack] at he
    split_ifs at he
    · cases he
    · exact ⟨_, List.mem_singleton.1 he⟩
  simp only [requestMissing] at he
  split_ifs at he
  · rcases List.mem_append.1 he with he | he
    · exact .inl (hask _ he)
    · exact .inr ⟨_, List.mem_singleton.1 he⟩
  · exact .inl (hask _ he)
  · exact .inr ⟨_, List.mem_singleton.1 he⟩
  · cases he

/-- The effects of a datagram: a frame that is finished, and nothing else that is of interest. -/
theorem effectOf_tryFinalize {rx : UdpReceiver} {g : Group} {now : Int}
    (hfin : ∀ g', finalized g = some g' → ∃ f ∈ F, UnitOf cfg f (assembled g')) :
    ∀ e ∈ (rx.tryFinalize g now).2, EffectOf cfg F e := by
  have hfinish : ∀ g', finalized g = some g' → ∀ e ∈ (rx.finish g' now).2, EffectOf cfg F e := by
    intro g' hg' e he
    rcases List.mem_cons.1 he with rfl | he
    · exact hfin g' hg'
    · obtain ⟨ev, -, rfl⟩ := List.mem_map.1 he
      trivial
  cases hc : complete g with
  | true =>
    rw [tryFinalize_of_complete rx now hc]
    exact hfinish g (by rw [finalized, hc, if_pos rfl])
  | false =>
    cases hr : recoverGroup g with
    | some g' =>
      rw [tryFinalize_of_recovered rx now hc hr]
      refine List.forall_mem_cons.2 ⟨trivial, hfinish g' ?_⟩
      rw [finalized, hc, if_neg Bool.false_ne_true, hr]
    | none =>
      rw [tryFinalize_of_missing rx now hc hr]
      intro e he
      rcases requestMissing_effects rx he with ⟨pkt, rfl⟩ | ⟨n, rfl⟩ <;> trivial

theorem effectOf_recv {rx : UdpReceiver} (buf : Bytes) (now : Int)
    (hfin : ∀ g g', rx.updated (UdpHeader.read buf) (buf.drop UdpHeader.kSize) now = some g →
      finalized g = some g' → IsMedia buf → ∃ f ∈ F, UnitOf cfg f (assembled g')) :
    ∀ e ∈ (rx.recv buf now).2, EffectOf cfg F e := by
  by_cases hm : IsMedia buf
  · rw [recv_of_media rx hm]
    cases hu : rx.updated (UdpHeader.read buf) (buf.drop UdpHeader.kSize) now with
    | none =>
      rw [onMedia_of_not_updated _ _ _ hu]
      simp
    | some g =>
      rw [onMedia_of_updated _ _ _ hu]
      exact effectOf_tryFinalize fun g' hg' => hfin g g' hu hg' hm
  · rcases (recv_of_not_media rx hm now).2 with he | ⟨json, he⟩
    · simp [he]
    · rw [he]
      intro e he
      rw [List.mem_singleton.1 he]
      trivial

theorem Holds.updated {rx : UdpReceiver} (hrx : Holds cfg F rx) (hF : ∀ f ∈ F, Sendable cfg f)
    (hid : ∀ f ∈ F, ∀ f' ∈ F, toUInt32 f.frameId = toUInt32 f'.frameId → f = f') {buf : Bytes}
    (hbuf : PacketOf cfg F buf) (hm : IsMedia buf) (now : Int) :
    ∃ f ∈ F, ∃ g, rx.updated (UdpHeader.read buf) (buf.drop UdpHeader.kSize) now = some g ∧
      (∃ A p t, Collects cfg f g A p t) ∧ toUInt32 g.captureUs = toUInt32 f.captureUs := by
  obtain ⟨f, hf, hd⟩ := hbuf hm
  have hgid := groupId_of_mem_datagrams hd
  have hlow : toUInt32 (extendLow32 rx.lastCaptureUs now (UdpHeader.read buf).captureUsLo) =
      toUInt32 f.captureUs := by
    rw [toUInt32_extendLow32, captureUsLo_of_mem_datagrams hd]
  refine ⟨f, hf, ?_⟩
  cases hg : rx.groups[toUInt32 f.frameId]? with
  | none =>
    have he : Entry cfg f rx (fun _ => false) false none := ⟨hg, fun _ _ => rfl, rfl⟩
    obtain ⟨g, hu, hcol⟩ := updated_own (hF f hf) he hd now
    refine ⟨g, hu, ⟨_, _, _, hcol⟩, ?_⟩
    rw [updated_eq _ _ now hu]
    simp only [groupOf, hgid, hg]
    exact hlow
  | some g₀ =>
    obtain ⟨f', hf', ⟨A, p, t, hcol₀⟩, hcapture⟩ := hrx.groups _ g₀ hg
    obtain rfl : f = f' := by
      refine hid f hf f' hf' ?_
      rw [← hcol₀.frameId, hrx.keyed _ g₀ hg]
    have he : Entry cfg f rx A p (some t) := ⟨g₀, hg, hcol₀⟩
    obtain ⟨g, hu, hcol⟩ := updated_own (hF f hf) he hd now
    refine ⟨g, hu, ⟨_, _, _, hcol⟩, ?_⟩
    rw [updated_eq _ _ now hu]
    simp only [groupOf, hgid, hg, Option.getD_some, hcol₀.frags_ne_nil]
    exact hcapture

theorem unitOf_assembled {f : EncodedFrame} (h : Sendable cfg f) {g g' : Group}
    (hcol : ∃ A p t, Collects cfg f g A p t)
    (hcapture : toUInt32 g.captureUs = toUInt32 f.captureUs)
    (hf : finalized g = some g') : UnitOf cfg f (assembled g') := by
  obtain ⟨A, p, t, hcol⟩ := hcol
  have hg' := finalized_eq hf
  exact {
    frameId := by
      rw [hg']
      exact hcol.frameId
    captureUs := by
      rw [hg']
      exact hcapture
    keyframe := by
      rw [hg']
      exact hcol.keyframe
    data := hcol.dataOf h hf }

section Step

variable {rx : UdpReceiver} (hrx : Holds cfg F rx)
include hrx

theorem Holds.recv (hF : ∀ f ∈ F, Sendable cfg f)
    (hid : ∀ f ∈ F, ∀ f' ∈ F, toUInt32 f.frameId = toUInt32 f'.frameId → f = f') {buf : Bytes}
    (hbuf : PacketOf cfg F buf) (now : Int) :
    Holds cfg F (rx.recv buf now).1 ∧ ∀ e ∈ (rx.recv buf now).2, EffectOf cfg F e := by
  constructor
  · have hkeyed := hrx.keyed.step (.datagram buf now)
    by_cases hm : IsMedia buf
    · obtain ⟨f, hf, g, hu, hcol, hcapture⟩ := hrx.updated hF hid hbuf hm now
      have hgid := updated_frameId _ _ now hrx.keyed hu
      have hother := (onMedia_groups (UdpHeader.read buf) (buf.drop UdpHeader.kSize) now
        hrx.keyed).1
      rw [show UdpReceiver.step rx (.datagram buf now) = rx.recv buf now from rfl] at hkeyed
      rw [recv_of_media rx hm] at hkeyed ⊢
      refine ⟨hkeyed, fun k g₁ hg₁ => ?_, fun k u hk a ha => ?_⟩
      · by_cases hkid : k = (UdpHeader.read buf).groupId
        · rw [onMedia_of_updated _ _ now hu, hkid, ← hgid] at hg₁
          obtain ⟨-, -, -, rfl⟩ := kept_of_tryFinalize _ hg₁
          obtain ⟨A, p, t, hcol⟩ := hcol
          exact ⟨f, hf, ⟨A, p, t, hcol.cnt, hcol.frameId, hcol.keyframe, hcol.since, hcol.frags,
            hcol.fecSeen, hcol.parity⟩, hcapture⟩
        · rw [hother k hkid] at hg₁
          exact hrx.groups k g₁ hg₁
      · rcases onMedia_cases hrx.keyed (UdpHeader.read buf) (buf.drop UdpHeader.kSize) now with
          ⟨-, hr⟩ | ⟨g₁, g', hu₁, hfin, hr⟩ | ⟨-, -, -, hr⟩ | ⟨g₁, -, -, -, hr⟩
        · rw [hr] at hk
          exact hrx.units k u hk a ha
        · obtain rfl : g = g₁ := Option.some.inj (hu.symm.trans hu₁)
          rw [hr] at hk
          rcases JitterBuffer.getElem?_push _ hk with hold | ⟨-, rfl⟩
          · exact hrx.units k u hold a ha
          · obtain rfl : assembled g' = a := Option.some.inj ha
            exact ⟨f, hf, unitOf_assembled (hF f hf) hcol hcapture hfin⟩
        · rw [hr] at hk
          exact hrx.units k u hk a ha
        · rw [hr] at hk
          exact hrx.units k u hk a ha
    · rcases @recv_of_not_media_eq rx buf hm now with hr | ⟨ms, hr⟩
      · rwa [hr]
      · rw [show UdpReceiver.step rx (.datagram buf now) = rx.recv buf now from rfl] at hkeyed
        rw [hr] at hkeyed ⊢
        exact ⟨hkeyed, hrx.groups, hrx.units⟩
  · refine effectOf_recv buf now fun g g' hu hfin hm => ?_
    obtain ⟨f, hf, g₁, hu₁, hcol, hcapture⟩ := hrx.updated hF hid hbuf hm now
    obtain rfl : g = g₁ := Option.some.inj (hu.symm.trans hu₁)
    exact ⟨f, hf, unitOf_assembled (hF f hf) hcol hcapture hfin⟩

theorem Holds.popUnit (now : Int) :
    Holds cfg F (rx.popUnit now).1 ∧ ∀ e ∈ (rx.popUnit now).2, EffectOf cfg F e := by
  refine ⟨⟨hrx.keyed.step (.pop now), hrx.groups, fun k u hk => ?_⟩, fun e he => ?_⟩
  · exact hrx.units k u (JitterBuffer.getElem?_pop _ hk)
  · simp only [UdpReceiver.popUnit, List.mem_append, List.mem_map] at he
    rcases he with ⟨a, ha, rfl⟩ | ⟨ev, -, rfl⟩
    · obtain ⟨u, hu, hdata⟩ := Option.bind_eq_some_iff.1 (Option.mem_toList.1 ha)
      obtain ⟨k, hk⟩ : ∃ k : UInt32, rx.jb.buf[k]? = some u := by
        rcases JitterBuffer.pop_spec rx.jb now with ⟨hnone, -⟩ | ⟨v, -, hv, hsome, -⟩ |
          ⟨head, v, -, -, -, hfirst, hsome, -⟩
        · rw [hnone] at hu
          cases hu
        · exact ⟨_, hv.trans (hsome.symm.trans hu)⟩
        · exact ⟨_, (OrderedMap.getElem?_first? hfirst).trans (hsome.symm.trans hu)⟩
      obtain ⟨f, hf, hunit⟩ := hrx.units k u hk a hdata
      exact ⟨f, hf, congrArg (fun id : UInt32 => (id.toNat : Int)) hunit.frameId, hunit.captureUs,
        hunit.keyframe, hunit.data⟩
    · trivial

end Step

/-! ## The server's side -/

/-- The cache holds packets of frames in `F`. -/
def HostHolds (cfg : ServerConfig) (F : List EncodedFrame) (s : UdpHost) : Prop :=
  s.cfg = cfg ∧ ∀ p ∈ s.port.nack.items, ∃ f ∈ F, p.raw ∈ datagrams cfg f

theorem packetOf_pong {buf : Bytes} (hlen : UdpHeader.kSize ≤ buf.length) :
    PacketOf cfg F (ControlPort.pong buf) := by
  intro hm
  obtain ⟨-, -, -, hpong⟩ := hm
  refine absurd ?_ hpong
  have hlt : 3 < buf.length := Nat.lt_of_lt_of_le (by decide) hlen
  simp [UdpHeader.read, ControlPort.pong, List.getD_eq_getElem?_getD, hlt]

theorem packetOf_statsDatagram (payload : Bytes) :
    PacketOf cfg F (UdpHost.statsDatagram payload) := by
  intro hm
  obtain ⟨-, -, hjson, -⟩ := hm
  refine absurd ?_ hjson
  rw [UdpHost.statsDatagram, UdpHeader.read_write]

theorem packetOf_receive {s : UdpHost} (hs : HostHolds cfg F s) (d : Datagram) :
    HostHolds cfg F (s.step (.control d)).1 ∧
      ∀ pkt ∈ udpLink.packets s (.control d), PacketOf cfg F pkt := by
  have hpackets : ∀ pkt ∈ udpLink.packets s (.control d),
      ∃ e ∈ (s.port.receive .udp d).2, UdpHost.packet (.control e) = some pkt := by
    intro pkt hpkt
    obtain ⟨e, he, heq⟩ := List.mem_filterMap.1 hpkt
    obtain ⟨e', he', rfl⟩ := List.mem_map.1 he
    exact ⟨e', he', heq⟩
  by_cases hping : ControlPort.IsPing .udp d
  · have hreceive := ControlPort.receive_of_ping (s := s.port) hping
    have hlen : UdpHeader.kSize ≤ d.buf.length := by
      have hreads := hping.1
      simp only [ControlPort.reads, Bool.and_eq_true, decide_eq_true_eq] at hreads
      exact hreads.1.1
    refine ⟨⟨hs.1, ?_⟩, fun pkt hpkt => ?_⟩
    · show ∀ p ∈ (s.port.receive .udp d).1.nack.items, _
      rw [hreceive]
      unfold ControlPort.registerClient
      split_ifs <;> exact hs.2
    · obtain ⟨e, he, heq⟩ := hpackets pkt hpkt
      rw [hreceive] at he
      obtain ⟨c, -, rfl⟩ := List.mem_map.1 he
      rw [← Option.some.inj heq]
      exact packetOf_pong hlen
  · obtain ⟨hsame, -⟩ := ControlPort.receive_of_not_ping (s := s.port) hping
    refine ⟨⟨hs.1, ?_⟩, fun pkt hpkt => ?_⟩
    · show ∀ p ∈ (s.port.receive .udp d).1.nack.items, _
      rw [hsame]
      exact hs.2
    · obtain ⟨e, he, heq⟩ := hpackets pkt hpkt
      simp only [ControlPort.receive, ControlPort.handleControl] at he
      split_ifs at he with hreads htype
      · exact absurd ⟨hreads, htype⟩ hping
      · obtain ⟨e', he', rfl⟩ := List.mem_map.1 he
        cases e' with
        | send raw =>
          obtain rfl : raw = pkt := Option.some.inj heq
          obtain ⟨p, hp, rfl⟩ := NackManager.mem_of_send he'
          exact fun _ => hs.2 p hp
        | _ => cases heq
      · cases he
      · cases he

/-- **What the server guarantees**: its packets are of the frames it was given, whatever it is sent
itself. -/
theorem packetOf_step {s : UdpHost} (hs : HostHolds cfg F s) {i : HostInput}
    (hi : ∀ f, i = .broadcast f → f ∈ F) :
    HostHolds cfg F (s.step i).1 ∧ ∀ pkt ∈ udpLink.packets s i, PacketOf cfg F pkt := by
  cases i with
  | control d => exact packetOf_receive hs d
  | broadcast f =>
    have hf := hi f rfl
    obtain ⟨rfl, hitems⟩ := hs
    simp only [Network.Wiring.packets, udpLink, UdpHost.step, UdpHost.broadcast]
    split_ifs
    · exact ⟨⟨rfl, hitems⟩, by simp⟩
    · cases hsend : sendFrame ⟨s.cfg, s.port.nack⟩ f with
      | none => exact ⟨⟨rfl, hitems⟩, by simp⟩
      | some r =>
        obtain ⟨srv, out⟩ := r
        have hout := (sendFrame_eq_some hsend).1
        have hnack := sendFrame_nack hsend
        refine ⟨⟨rfl, fun p hp => ?_⟩, fun pkt hpkt _ => ⟨f, hf, ?_⟩⟩
        · simp only [hnack] at hp
          rcases NackManager.mem_rememberAll hp with hp | hp
          · exact hitems p hp
          · exact ⟨f, hf, mem_datagrams_of_mem_registered hp⟩
        · obtain ⟨e, he, heq⟩ := List.mem_filterMap.1 hpkt
          obtain ⟨d, hd, rfl⟩ := List.mem_map.1 he
          obtain rfl : d = pkt := Option.some.inj heq
          exact hout ▸ hd
  | stats payload =>
    simp only [Network.Wiring.packets, udpLink, UdpHost.step, UdpHost.statsTurn]
    split_ifs
    · exact ⟨hs, by simp⟩
    · exact ⟨hs, by simp⟩
    · refine ⟨hs, fun pkt hpkt => ?_⟩
      obtain ⟨e, he, heq⟩ := List.mem_filterMap.1 hpkt
      obtain ⟨e', he', rfl⟩ := List.mem_map.1 he
      obtain ⟨c, -, rfl⟩ := List.mem_map.1 he'
      rw [← Option.some.inj heq]
      exact packetOf_statsDatagram payload

/-! ## The link -/

/-- The two ends rely on each other for this much. -/
theorem contract (hF : ∀ f ∈ F, Sendable cfg f)
    (hid : ∀ f ∈ F, ∀ f' ∈ F, toUInt32 f.frameId = toUInt32 f'.frameId → f = f') :
    Network.Contract udpLink (fun i => ∀ f, i = .broadcast f → f ∈ F) (fun k => ∃ now, k = .pop now)
      (HostHolds cfg F) (PacketOf cfg F) (Holds cfg F) (EffectOf cfg F) where
  send _ _ hs hi := packetOf_step hs hi
  receive _ _ t hrx hbuf := hrx.recv hF hid hbuf t
  act _ k hrx hk := by
    obtain ⟨now, rfl⟩ := hk
    exact hrx.popUnit now

/-- **Frames come out as they went in, or not at all.** Over every run of the link from its start,
whatever is sent to the server and however the network loses, delays, reorders and repeats packets:
as long as the frames given to the server can be cut and their numbers differ in the low 32 bits,
every frame that is finished and every frame handed to the decoder is one of them. -/
theorem outputs_faithful (cfg : ServerConfig) (es : List UdpLinkEvent) (hconn : Connected es)
    (hF : ∀ f ∈ frames es, Sendable cfg f)
    (hid : ∀ f ∈ frames es, ∀ f' ∈ frames es,
      toUInt32 f.frameId = toUInt32 f'.frameId → f = f') :
    ∀ e ∈ Runs.trace udpLink.step (start cfg) es, EffectOf cfg (frames es) e := by
  refine ((contract hF hid).run ⟨rfl, by simp [start, UdpHost.start]⟩ (by simp [start])
    holds_fresh ?_ hconn).2
  intro i hi f hf
  exact List.mem_filterMap.2 ⟨.sender i, hi, by rw [hf]⟩

/-- The frames handed to the decoder. -/
def outputs (es : List UdpEffect) : List EncodedFrame :=
  es.filterMap fun
    | .out f => some f
    | _ => none

/-- A client registers, and a frame of two fragments is sent; the second one arrives first, and
twice. -/
def abcRun : List UdpLinkEvent :=
  [.sender (.control (ControlPort.pingFrom 1 5)), .sender (.broadcast abc), .deliver 2 1000,
    .deliver 2 1000, .deliver 1 1500, .receiver (.pop 1000000)]

theorem outputs_faithful_abc :
    (outputs (Runs.trace udpLink.step (start ⟨26, 8⟩) abcRun)).map (·.data) = [abc.data] ∧
      ∀ e ∈ Runs.trace udpLink.step (start ⟨26, 8⟩) abcRun, EffectOf ⟨26, 8⟩ [abc] e := by
  have hframes : frames abcRun = [abc] := rfl
  refine ⟨by decide +kernel, ?_⟩
  have h := outputs_faithful ⟨26, 8⟩ abcRun (fun k hk => ?_) (fun f hf => ?_)
    fun f hf f' hf' _ => ?_
  · exact hframes ▸ h
  · simp only [abcRun, List.mem_cons, reduceCtorEq, List.not_mem_nil, or_false, false_or,
      Network.Event.receiver.injEq] at hk
    exact ⟨_, hk⟩
  · obtain rfl := List.mem_singleton.1 (hframes ▸ hf)
    exact ⟨by decide, by decide, by decide, by decide⟩
  · rw [hframes] at hf hf'
    rw [List.mem_singleton.1 hf, List.mem_singleton.1 hf']

end UdpLink

end Rtstream
