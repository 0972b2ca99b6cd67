import Rtstream.NackExchange
import Rtstream.UdpCompletion

/-!
# One round of retransmission

What did not arrive is asked for, and the server answers from its cache.

* `find_registered`: the cache still has a frame that was sent, when what was sent since leaves room
  for it.
* `nack_round_completes`: one request that reaches such a server, and answers that reach the
  receiver in time, finish the frame.
-/

namespace Rtstream

open RaggedXor Holes UdpServer

namespace UdpReceiver

variable {cfg : ServerConfig} {f : EncodedFrame}

/-! ## What is asked for -/

section Ask

variable (h : Sendable cfg f)
include h

theorem missingFragments_of_collects {g : Group} {A : ℕ → Bool} {p : Bool} {t : Int}
    (hg : Collects cfg f g A p t) :
    missingFragments g = (List.range (fragmentCount cfg f.data.length)).filter fun i => !A i := by
  rw [missingFragments, hg.cnt]
  refine List.filter_congr fun i hi => ?_
  have hi' : i < (mask (fragments cfg f.data) A).length := by simpa using hi
  have hempty := getElem_mask_eq_nil_iff h.fragments_ne_nil hi'
  rw [hg.frags, List.getD_eq_getElem _ _ hi', Bool.eq_iff_iff, List.isEmpty_iff, hempty,
    Bool.not_eq_true']

omit h in
theorem nack_of_tryFinalize {rx : UdpReceiver} {g : Group} {now : Int} {pkt : Bytes}
    (hn : UdpEffect.nack pkt ∈ (rx.tryFinalize g now).2) : UdpEffect.nack pkt ∈ sendNack g := by
  have hfin : ∀ g' : Group, UdpEffect.nack pkt ∉ (rx.finish g' now).2 := fun g' hn => by
    simp [finish] at hn
  cases hc : complete g with
  | true =>
    rw [tryFinalize_of_complete rx now hc] at hn
    exact absurd hn (hfin g)
  | false =>
    cases hr : recoverGroup g with
    | some g₁ =>
      rw [tryFinalize_of_recovered rx now hc hr] at hn
      rcases List.mem_cons.1 hn with hn | hn
      · cases hn
      · exact absurd hn (hfin g₁)
    | none =>
      rw [tryFinalize_of_missing rx now hc hr] at hn
      simp only [requestMissing] at hn
      -- When the group was last asked for does not matter to what it asks for.
      have hsame : sendNack { g with lastNackUs := now } = sendNack g := rfl
      split_ifs at hn
      · have hn : UdpEffect.nack pkt ∈ sendNack { g with lastNackUs := now } := by simpa using hn
        exact hsame ▸ hn
      · exact hsame ▸ hn
      · simp at hn
      · simp at hn

/-- A request that goes out while a frame waits asks for what has not arrived by then. -/
theorem nack_asks {rx : UdpReceiver} (hk : rx.Keyed)
    (hfresh : rx.groups[toUInt32 f.frameId]? = none) {is : List UdpInput} {i : UdpInput}
    (hown : OnlyFrom (toUInt32 f.frameId) (datagrams cfg f) (is ++ [i]))
    (hprompt : Prompt (toUInt32 f.frameId) (is ++ [i]))
    (hw : Waits cfg f (fragmentsIn cfg f is) (arrives (fecDatagram cfg f) is)) {pkt : Bytes}
    (hn : UdpEffect.nack pkt ∈ (step (Runs.after step rx is) i).2)
    (hasks : asksFor (toUInt32 f.frameId) pkt) :
    ∃ (hd : UdpHeader) (g : Group), hd.payloadType = PayloadType.nack.code ∧
      pkt = hd.write ++ nackRecords g ∧ g.frameId = toUInt32 f.frameId ∧
      missingFragments g = (List.range (fragmentCount cfg f.data.length)).filter
        fun j => !fragmentsIn cfg f (is ++ [i]) j := by
  have hkeyed := hk.run is
  cases i with
  | pop now =>
    rcases popUnit_effects _ hn with ⟨out, hout⟩ | ⟨ev, hev⟩
    · cases hout
    · cases hev
  | datagram buf now =>
    have hn : UdpEffect.nack pkt ∈ ((Runs.after step rx is).recv buf now).2 := hn
    have hm : IsMedia buf := by
      by_contra hm
      rcases (recv_of_not_media (Runs.after step rx is) hm now).2 with he | ⟨json, he⟩ <;>
        rw [he] at hn
      · cases hn
      · cases List.mem_singleton.1 hn
    have hid : (UdpHeader.read buf).groupId = toUInt32 f.frameId := by
      rw [recv_of_media _ hm] at hn
      obtain ⟨g, hg, hsend⟩ := onMedia_nack _ _ _ hkeyed hn
      rw [← hg, asksFor_sendNack hsend hasks]
    obtain ⟨hentry, -⟩ := collecting h hk hfresh
      (fun b u hm => hown b u (List.mem_append_left _ hm)) hprompt.of_concat hw
    obtain ⟨g, hu, hcol⟩ := updated_own h hentry (hown buf now (by simp) hid) now
    rw [recv_of_media _ hm, onMedia_of_updated _ _ _ hu] at hn
    have hsend := nack_of_tryFinalize hn
    simp only [sendNack] at hsend
    split_ifs at hsend
    · cases hsend
    · refine ⟨_, g, ?_, UdpEffect.nack.inj (List.mem_singleton.1 hsend), hcol.frameId, ?_⟩
      · rfl
      · rw [missingFragments_of_collects h hcol, fragmentsIn_datagram]

end Ask

end UdpReceiver

/-! ## What the server still has -/

namespace NackManager

theorem sends_onNackEffects (n : NackManager) (g : Group) :
    sends (n.onNackEffects (UdpReceiver.nackRecords g)) = (UdpReceiver.missingFragments g).filterMap
      fun i => (n.find g.frameId (UInt16.ofNat i)).map (·.raw) := by
  have hflat := (n.flatMap_answer (UdpReceiver.requested g)).1
  rw [← UdpReceiver.map_record_nackRecords, List.flatMap_map,
    UdpReceiver.map_record_nackRecords, UdpReceiver.requested, List.filterMap_map] at hflat
  exact hflat

theorem find?_of_unique {α : Type*} {P : α → Bool} {xs : List α} {x : α} (hx : x ∈ xs)
    (hP : P x = true) (huniq : ∀ y ∈ xs, P y = true → y = x) : xs.find? P = some x := by
  cases hf : xs.find? P with
  | none => exact absurd hP (List.find?_eq_none.1 hf x hx)
  | some y => rw [huniq y (List.mem_of_find?_eq_some hf) (List.find?_some hf)]

/-- **A frame is still there** when what was remembered since leaves room for it, and none of that
has its number. -/
theorem find_registered {cfg : ServerConfig} {f : EncodedFrame} (h : Sendable cfg f) {cache : ℕ}
    {older newer : List RetransPacket} (hroom : (registered cfg f).length + newer.length ≤ cache)
    (hnewer : ∀ p ∈ newer, p.groupId ≠ toUInt32 f.frameId) {i : ℕ}
    (hi : i < fragmentCount cfg f.data.length) :
    (remembered cache (older ++ registered cfg f ++ newer)).find (toUInt32 f.frameId)
      (UInt16.ofNat i) = some ⟨toUInt32 f.frameId, UInt16.ofNat i, dataDatagram cfg f i⟩ := by
  have hK := h.fragmentCount_le
  have hlen : (registered cfg f).length = fragmentCount cfg f.data.length + 1 := by
    simp [registered]
  have hitems : ((older ++ registered cfg f ++ newer).rtake cache).reverse =
      newer.reverse ++ ((registered cfg f).reverse ++
        older.reverse.take (cache - newer.length - (registered cfg f).length)) := by
    rw [List.rtake_eq_reverse_take_reverse, List.reverse_reverse, List.reverse_append,
      List.reverse_append, List.take_append, List.take_append, List.length_reverse,
      List.length_reverse, List.take_of_length_le (by simp; omega),
      List.take_of_length_le (by simp; omega)]
  rw [remembered_eq (by omega), find, hitems, List.find?_append, List.find?_append]
  have hnone : newer.reverse.find? (fun p => p.groupId == toUInt32 f.frameId &&
      p.fragmentSeq == UInt16.ofNat i) = none := by
    rw [List.find?_eq_none]
    intro p hp
    simp [hnewer p (List.mem_reverse.1 hp)]
  rw [hnone, find?_of_unique (x := ⟨toUInt32 f.frameId, UInt16.ofNat i, dataDatagram cfg f i⟩)]
  · rfl
  · rw [List.mem_reverse, registered]
    exact List.mem_append_left _ (List.mem_map.2 ⟨i, List.mem_range.2 hi, rfl⟩)
  · simp
  · intro p hp hmatch
    simp only [Bool.and_eq_true, beq_iff_eq] at hmatch
    obtain ⟨-, hseq⟩ := hmatch
    rcases List.mem_append.1 (List.mem_reverse.1 hp) with hp | hp
    · obtain ⟨j, hj, rfl⟩ := List.mem_map.1 hp
      have hj := List.mem_range.1 hj
      have := congrArg UInt16.toNat hseq
      simp only [UInt16.toNat_ofNat'] at this
      obtain rfl : j = i := by omega
      rfl
    · obtain rfl := List.mem_singleton.1 hp
      have := congrArg UInt16.toNat hseq
      simp only [UInt16.toNat_ofNat', UdpHeader.kFecSeq] at this
      have hff : (0xFFFF : UInt16).toNat = 65535 := rfl
      omega

theorem groupId_of_mem_registered {cfg : ServerConfig} {f : EncodedFrame} {p : RetransPacket}
    (hp : p ∈ registered cfg f) : p.groupId = toUInt32 f.frameId := by
  rcases List.mem_append.1 hp with hp | hp
  · obtain ⟨i, -, rfl⟩ := List.mem_map.1 hp
    rfl
  · rw [List.mem_singleton.1 hp]

theorem rememberAll_remembered (cache : ℕ) (ps qs : List RetransPacket) :
    rememberAll (remembered cache ps) qs = remembered cache (ps ++ qs) :=
  List.foldl_append.symm

end NackManager

/-! ## The server's cache over a run -/

namespace UdpHost

/-- The frames among the inputs of the server. -/
def given (is : List HostInput) : List EncodedFrame :=
  is.filterMap fun
    | .broadcast f => some f
    | _ => none

theorem nack_receive (link : Link) (s : ControlPort) (d : Datagram) :
    (s.receive link d).1.nack = s.nack ∧ (s.clients ≠ [] → (s.receive link d).1.clients ≠ []) := by
  by_cases hping : ControlPort.IsPing link d
  · rw [ControlPort.receive_of_ping hping]
    unfold ControlPort.registerClient
    split_ifs
    · exact ⟨rfl, id⟩
    · exact ⟨rfl, fun _ => by simp⟩
  · rw [(ControlPort.receive_of_not_ping hping).1]
    exact ⟨rfl, id⟩

variable {s : UdpHost}

theorem remembered_step (i : HostInput) {cache : ℕ}
    (h : ∃ ps, s.port.nack = NackManager.remembered cache ps) :
    ∃ ps, (s.step i).1.port.nack = NackManager.remembered cache ps := by
  obtain ⟨ps, hps⟩ := h
  cases i with
  | control d => exact ⟨ps, (nack_receive .udp s.port d).1.trans hps⟩
  | stats payload =>
    simp only [step, statsTurn]
    split_ifs <;> exact ⟨ps, hps⟩
  | broadcast f =>
    simp only [step, broadcast]
    split_ifs
    · exact ⟨ps, hps⟩
    · cases hsend : sendFrame ⟨s.cfg, s.port.nack⟩ f with
      | none => exact ⟨ps, hps⟩
      | some r =>
        refine ⟨ps ++ registered s.cfg f, ?_⟩
        rw [← NackManager.rememberAll_remembered, ← hps]
        exact sendFrame_nack hsend

theorem remembered_run (cfg : ServerConfig) (is : List HostInput) :
    ∃ ps, (Runs.after step (start cfg) is).port.nack = NackManager.remembered cfg.nackCache ps :=
  Runs.invariant (m := step)
    (I := fun s => ∃ ps, s.port.nack = NackManager.remembered cfg.nackCache ps)
    (fun _ i h => remembered_step i h) ⟨[], rfl⟩ is

@[simp] theorem cfg_step (s : UdpHost) (i : HostInput) : (s.step i).1.cfg = s.cfg := by
  cases i with
  | control d => rfl
  | stats payload =>
    simp only [step, statsTurn]
    split_ifs <;> rfl
  | broadcast f =>
    simp only [step, broadcast]
    split_ifs
    · rfl
    · cases sendFrame ⟨s.cfg, s.port.nack⟩ f <;> rfl

theorem nack_step (hclients : s.port.clients ≠ []) (hsize : payloadSize s.cfg ≠ 0) (i : HostInput) :
    (s.step i).1.port.nack =
        rememberAll s.port.nack ((given [i]).flatMap (registered s.cfg)) ∧
      (s.step i).1.port.clients ≠ [] := by
  cases i with
  | control d =>
    obtain ⟨hnack, hne⟩ := nack_receive .udp s.port d
    exact ⟨hnack, hne hclients⟩
  | stats payload =>
    simp only [step, statsTurn]
    split_ifs <;> exact ⟨rfl, hclients⟩
  | broadcast f =>
    obtain ⟨srv, hsend, -⟩ := exists_sendFrame (s := ⟨s.cfg, s.port.nack⟩) hsize f
    have hempty : s.port.clients.isEmpty = false := by simpa using hclients
    simp only [step, broadcast, hempty, Bool.false_eq_true, if_false, hsend]
    exact ⟨(sendFrame_nack hsend).trans (by simp [given]), hclients⟩

theorem nack_run (hclients : s.port.clients ≠ []) (hsize : payloadSize s.cfg ≠ 0)
    (is : List HostInput) : (Runs.after step s is).port.nack =
      rememberAll s.port.nack ((given is).flatMap (registered s.cfg)) := by
  induction is generalizing s with
  | nil => rfl
  | cons i is ih =>
    obtain ⟨hnack, hclients'⟩ := nack_step hclients hsize i
    have hgiven : given (i :: is) = given [i] ++ given is := List.filterMap_append (l := [i])
    rw [Runs.after_cons, ih hclients' (by rwa [cfg_step]), hnack, cfg_step, hgiven,
      List.flatMap_append]
    exact List.foldl_append.symm

theorem packets_nack (s : UdpHost) (peer : ClientAddr) {hd : UdpHeader}
    (htype : hd.payloadType = PayloadType.nack.code) (recs : Bytes) :
    udpLink.packets s (.control ⟨peer, hd.write ++ recs⟩) =
      NackManager.sends (s.port.nack.onNackEffects recs) := by
  have hreads : ControlPort.reads .udp (hd.write ++ recs) = true := by
    simp [ControlPort.reads]
  have hping : PayloadType.nack.code ≠ PayloadType.statsPing.code := by decide
  simp only [Network.Wiring.packets, udpLink, step, ControlPort.receive, hreads, if_true,
    ControlPort.handleControl, UdpHeader.read_write, htype, if_neg hping, UdpHeader.drop_write,
    List.map_map, List.filterMap_map, NackManager.sends]
  congr 1
  funext e
  cases e <;> rfl

end UdpHost

/-! ## One round -/

namespace UdpReceiver

theorem Enough.mono {cfg : ServerConfig} {f : EncodedFrame} {A B : ℕ → Bool} {p q : Bool}
    (he : Enough cfg f A p) (hAB : ∀ i, A i = true → B i = true) (hpq : p = true → q = true) :
    Enough cfg f B q := by
  rcases he with hall | ⟨hp, j, hj, hrest⟩
  · exact Or.inl fun i hi => hAB i (hall i hi)
  · exact Or.inr ⟨hpq hp, j, hj, fun i hi hij => hAB i (hrest i hi hij)⟩

theorem arrives_append (d : Bytes) (is js : List UdpInput) :
    arrives d (is ++ js) = (arrives d is || arrives d js) := List.any_append

theorem Prompt.of_append {gid : UInt32} {is js : List UdpInput} (h : Prompt gid (is ++ js)) :
    Prompt gid is := by
  induction js using List.reverseRecOn with
  | nil => rwa [List.append_nil] at h
  | append_singleton js j ih =>
    rw [← List.append_assoc] at h
    exact ih h.of_concat

theorem arrives_of_initial {d : Bytes} {is js : List UdpInput} (h : arrives d is = true) :
    arrives d (is ++ js) = true := by
  rw [arrives_append, h, Bool.true_or]

open UdpHost in
/-- The cache of a server that was given a frame, and what it was given after that. -/
theorem nack_of_given (cfg : ServerConfig) (f : EncodedFrame) (h : Sendable cfg f)
    (older newer : List HostInput)
    (hclients : (Runs.after UdpHost.step (.start cfg) older).port.clients ≠ []) :
    ∃ ps, (Runs.after UdpHost.step (.start cfg) (older ++ .broadcast f :: newer)).port.nack =
      NackManager.remembered cfg.nackCache
        (ps ++ registered cfg f ++ (given newer).flatMap (registered cfg)) := by
  obtain ⟨ps, hps⟩ := remembered_run cfg older
  have hcfg : (Runs.after UdpHost.step (.start cfg) older).cfg = cfg :=
    Runs.invariant (m := UdpHost.step) (I := fun s => s.cfg = cfg)
      (fun s i hs => (cfg_step s i).trans hs) rfl older
  have hrun := nack_run hclients (by rw [hcfg]; exact h.payloadSize_ne_zero) (.broadcast f :: newer)
  refine ⟨ps, ?_⟩
  rw [Runs.after_append, hrun, hcfg, hps, NackManager.rememberAll_remembered, List.append_assoc]
  rfl

open UdpHost in
/-- **One round completes a frame.** A server that has sent a frame, and no more since than leaves
the frame in its cache, is asked for the fragments that are missing at a receiver. When all it
sends for that arrives, in any order and within 250 ms of the frame's first datagram, the frame has
been finished. -/
theorem nack_round_completes (cfg : ServerConfig) (f : EncodedFrame) (h : Sendable cfg f)
    (older newer : List HostInput)
    (hclients : (Runs.after UdpHost.step (.start cfg) older).port.clients ≠ [])
    (hother : ∀ f' ∈ given newer, toUInt32 f'.frameId ≠ toUInt32 f.frameId)
    (hroom : ((f :: given newer).flatMap (registered cfg)).length ≤ cfg.nackCache)
    (peer : ClientAddr) (history is js : List UdpInput) (pkt : Bytes) :
    let srv := Runs.after UdpHost.step (.start cfg) (older ++ .broadcast f :: newer)
    let rx := Runs.after step {} history
    let gid := toUInt32 f.frameId
    rx.groups[gid]? = none → OnlyFrom gid (datagrams cfg f) (is ++ js) → Prompt gid (is ++ js) →
      .nack pkt ∈ Runs.trace step rx is → asksFor gid pkt →
      (∀ d ∈ udpLink.packets srv (.control ⟨peer, pkt⟩), arrives d js = true) →
      ∃ a ∈ finishes (Runs.trace step rx (is ++ js)),
        FinishedAs cfg f (arrives (fecDatagram cfg f) (is ++ js)) a := by
  intro srv rx gid hfresh hown hprompt hn hasks harrived
  have hkeyed : rx.Keyed := keyed_fresh.run history
  obtain ⟨is₁, i, is₂, rfl, hstep⟩ := Runs.exists_of_mem_trace hn
  have hsplit : is₁ ++ i :: is₂ ++ js = is₁ ++ [i] ++ (is₂ ++ js) := by simp
  rw [hsplit] at hown hprompt ⊢
  refine finished_of_enough h hkeyed hfresh hown hprompt ?_
  by_cases hbefore : Enough cfg f (fragmentsIn cfg f is₁) (arrives (fecDatagram cfg f) is₁)
  · exact hbefore.mono (fun j hj => arrives_of_initial (arrives_of_initial hj))
      fun hp => arrives_of_initial (arrives_of_initial hp)
  · -- What had not arrived was asked for, and the answer has arrived.
    left
    obtain ⟨hd, g, htype, rfl, hgid, hmissing⟩ := nack_asks h hkeyed hfresh
      (fun b u hm => hown b u (List.mem_append_left _ hm)) (hprompt.of_append)
      (not_not.1 (mt not_waits_iff.1 hbefore)) hstep hasks
    obtain ⟨ps, hnack⟩ := nack_of_given cfg f h older newer hclients
    rw [packets_nack srv peer htype, NackManager.sends_onNackEffects, hgid, hmissing,
      show srv.port.nack = _ from hnack] at harrived
    intro j hj
    by_cases hthere : fragmentsIn cfg f (is₁ ++ [i]) j = true
    · exact arrives_of_initial hthere
    · have hfind := @NackManager.find_registered cfg f h _ ps
        ((given newer).flatMap (registered cfg)) (by simpa using hroom) ?_ j hj
      · have hin := harrived (dataDatagram cfg f j) (List.mem_filterMap.2 ⟨j, ?_, ?_⟩)
        · rw [fragmentsIn, arrives_append, arrives_append (dataDatagram cfg f j) is₂, hin,
            Bool.or_true, Bool.or_true]
        · simpa [List.mem_filter, hj] using hthere
        · rw [hfind]
          rfl
      · intro p hp
        obtain ⟨f', hf', hp⟩ := List.mem_flatMap.1 hp
        rw [NackManager.groupId_of_mem_registered hp]
        exact hother f' hf'

/-- The request of a receiver that has the second fragment of two. -/
def abcRequest : Bytes :=
  { payloadType := PayloadType.nack.code, payloadLen := 6 : UdpHeader }.write ++ [0, 0, 0, 7, 0, 0]

/-- The second fragment arrives, the first is asked for, and arrives. -/
theorem nack_round_completes_abc :
    ∃ a ∈ finishes (Runs.trace step {} ([.datagram (dataDatagram ⟨26, 8⟩ abc 1) 1000000] ++
      [.datagram (dataDatagram ⟨26, 8⟩ abc 0) 1000000])), a.annexb = abc.data := by
  have h : Sendable ⟨26, 8⟩ abc := ⟨by decide, by decide, by decide, by decide⟩
  have hown : OnlyFrom (toUInt32 abc.frameId) (datagrams ⟨26, 8⟩ abc)
      ([.datagram (dataDatagram ⟨26, 8⟩ abc 1) 1000000] ++
        [.datagram (dataDatagram ⟨26, 8⟩ abc 0) 1000000]) := by
    intro buf now hm _
    rcases List.mem_pair.1 hm with hm | hm <;> obtain ⟨rfl, -⟩ := UdpInput.datagram.inj hm <;>
      decide
  obtain ⟨a, ha, hfin⟩ := nack_round_completes ⟨26, 8⟩ abc h [.control (ControlPort.pingFrom 1 5)]
    [] (by decide +kernel) (by simp [UdpHost.given]) (by decide +kernel)
    (ControlPort.pingFrom 1 5).peer [] [.datagram (dataDatagram ⟨26, 8⟩ abc 1) 1000000]
    [.datagram (dataDatagram ⟨26, 8⟩ abc 0) 1000000] abcRequest (by decide +kernel) hown
    (prompt_pair _ _ _ _) (by decide +kernel) ⟨0, by decide, by decide +kernel⟩ (by decide +kernel)
  exact ⟨a, ha, hfin.exact (by decide +kernel)⟩

end UdpReceiver

end Rtstream
