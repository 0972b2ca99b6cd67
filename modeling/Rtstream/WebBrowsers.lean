import Rtstream.WebPanel

/-!
# `ws_server.h`, `main.js`: the pictures in a browser

The preview thread sends each picture to the clients that there are when it has published it, one
after the other. Other threads write to the same sockets: statistics, echoes and answers to pings. A
browser takes the frames off its connection, and its page draws those that hold a picture.

* `browsers_see_all`: what a page draws are the pictures published since its browser was adopted,
  none left out, in order and as they were published, up to the point where the connection ends;
  while it holds, all of them, once the preview thread is done with the last.
-/

namespace Rtstream

/-! ## The page -/

/-- What the page draws. -/
structure Picture where
  wallMs : UInt64
  width : UInt32
  height : UInt32
  jpeg : Bytes
  deriving DecidableEq, Repr

/-- `onMessage`, for a binary message. -/
def onMessage (data : Bytes) : Option Picture :=
  if data.length < 20 then none
  else if data.getD 0 0 ≠ 0x52 ∨ data.getD 1 0 ≠ 0x54 ∨ data.getD 2 0 ≠ 0x56 ∨
      data.getD 3 0 ≠ 0x4A then none
  else
    some
      { wallMs := UInt64.ofNat (BigEndian.load (Slices.slice data 4 8))
        width := UInt32.ofNat (BigEndian.load (Slices.slice data 12 4))
        height := UInt32.ofNat (BigEndian.load (Slices.slice data 16 4))
        jpeg := data.drop 20 }

/-- The picture in a frame that the browser hands to the page. -/
def WsFrame.picture? (f : WsFrame) : Option Picture :=
  if f.opcode = 0x2 then onMessage f.payload else none

variable {σ : Type} (lib : PreviewLib σ)

namespace Published

/-- What a page makes of a published picture. -/
def picture (p : Published) : Picture where
  wallMs := lib.thousandth p.frame.wallUs
  width := 640
  height := p.height
  jpeg := p.jpeg.data

/-- **The page reads what the previewer wrote.** -/
theorem onMessage_packet (p : Published) : onMessage (p.packet lib) = some (p.picture lib) := by
  have hwall : Slices.slice (p.packet lib) 4 8 =
      BigEndian.store 8 (lib.thousandth p.frame.wallUs).toNat :=
    Slices.slice_middle (ascii "RTVJ") _ _ rfl (BigEndian.length_store ..)
  have hwidth : Slices.slice (p.packet lib) 12 4 = BigEndian.store 4 640 := by
    rw [packet, ← List.append_assoc]
    refine Slices.slice_middle _ _ _ ?_ (BigEndian.length_store ..)
    rw [List.length_append, BigEndian.length_store]
    rfl
  have hheight : Slices.slice (p.packet lib) 16 4 = BigEndian.store 4 p.height.toNat := by
    rw [packet, ← List.append_assoc, ← List.append_assoc]
    refine Slices.slice_middle _ _ _ ?_ (BigEndian.length_store ..)
    rw [List.length_append, List.length_append, BigEndian.length_store, BigEndian.length_store]
    rfl
  have hjpeg : (p.packet lib).drop 20 = p.jpeg.data := by
    rw [packet, ← List.append_assoc, ← List.append_assoc, ← List.append_assoc]
    refine List.drop_left' ?_
    simp only [List.length_append, BigEndian.length_store]
    rfl
  rw [onMessage, if_neg (by rw [length_packet]; omega), if_neg (by simp [packet, ascii]), hwall,
    hwidth, hheight, hjpeg, BigEndian.uint64_load_store, BigEndian.uint32_load_store]
  rfl

theorem picture?_frame (p : Published) : (p.broadcast lib).frame.picture? = some (p.picture lib) :=
  onMessage_packet lib p

end Published

/-! ## One connection -/

/-- What a browser was sent when `due` is all it is to be sent and `rest` is still to come. -/
def Got (wsKey : Bytes) (due rest : List Published) (b : WsBrowser) : Prop :=
  ∃ frames, Socket.Holds (WsBrowser.handshakeResponse wsKey) WsFrame.wire WsFrame.Legal b.socket
      frames ∧ (∀ f ∈ frames, f.Legal) ∧ (b.socket.fdOpen = true → b.alive = true) ∧
    frames.filterMap WsFrame.picture? <+: due.map (·.picture lib) ∧
    (b.socket.fdOpen = true → frames.filterMap WsFrame.picture? ++ rest.map (·.picture lib) =
      due.map (·.picture lib))

namespace Got

variable {lib} {wsKey : Bytes} {due rest : List Published} {b : WsBrowser}

/-- **A frame is written.** If it holds a picture, it is the next one that is to come. -/
theorem send (h : Got lib wsKey due rest b) {f : WsFrame} (hf : f.Legal) {rest' : List Published}
    (hrest : f.picture?.toList ++ rest'.map (·.picture lib) = rest.map (·.picture lib))
    (cut : Option ℕ) : Got lib wsKey due rest' (b.send f.wire cut) := by
  obtain ⟨frames, hholds, hlegal, hlive, hupTo, hall⟩ := h
  by_cases halive : b.alive = true
  · have hsent := hholds.send hf f.wire_ne_nil cut
    rw [WsBrowser.send, if_pos halive]
    by_cases hok : (b.socket.send f.wire cut).2 = true
    · have hopen : b.socket.fdOpen = true := by
        rw [Socket.send_snd, Bool.and_eq_true] at hok
        exact hok.1
      rw [if_pos hok] at hsent
      have hdue : (frames ++ [f]).filterMap WsFrame.picture? ++ rest'.map (·.picture lib) =
          due.map (·.picture lib) := by
        rw [← hall hopen, ← hrest, List.filterMap_append, List.append_assoc]
        cases hpic : f.picture? <;> simp [hpic]
      refine ⟨_, hsent, List.forall_mem_append.2 ⟨hlegal, by simpa using hf⟩, fun _ => hok,
        ⟨_, hdue⟩, fun _ => hdue⟩
    · rw [if_neg hok, List.append_nil] at hsent
      have hclosed : ¬ (b.socket.send f.wire cut).1.fdOpen = true := by
        rwa [Socket.send_fdOpen, ← Socket.send_snd]
      exact ⟨_, hsent, hlegal, fun hopen => absurd hopen hclosed, hupTo,
        fun hopen => absurd hopen hclosed⟩
  · rw [WsBrowser.send, if_neg halive]
    exact ⟨frames, hholds, hlegal, hlive, hupTo, fun hopen => absurd (hlive hopen) halive⟩

theorem send_other (h : Got lib wsKey due rest b) {f : WsFrame} (hf : f.Legal)
    (hpic : f.picture? = none) (cut : Option ℕ) : Got lib wsKey due rest (b.send f.wire cut) :=
  h.send hf (by rw [hpic]; rfl) cut

/-- A pong is no picture. When it cannot be written, nothing more is. -/
theorem pong (h : Got lib wsKey due rest b) {payload : Bytes} (hshort : payload.length < 126)
    (cut : Option ℕ) : Got lib wsKey due rest (b.pong payload cut) := by
  have hlive : b.socket.fdOpen = true → b.alive = true := by
    obtain ⟨-, -, -, hlive, -⟩ := h
    exact hlive
  rw [WsBrowser.pong, WsServer.pong_eq_wire hshort]
  by_cases halive : b.alive = true
  · -- It is written as a broadcast is.
    have hsent := h.send_other (WsServer.legal_pongFrame hshort) rfl cut
    rw [WsBrowser.send, if_pos halive] at hsent
    obtain ⟨frames, hholds, hlegal, -, hupTo, hall⟩ := hsent
    exact ⟨frames, hholds, hlegal, fun _ => halive, hupTo, hall⟩
  · have hclosed : b.socket.fdOpen = false := Bool.eq_false_iff.2 fun hopen => halive (hlive hopen)
    rwa [Socket.send_of_closed hclosed]

theorem close (h : Got lib wsKey due rest b) (alive : Bool) :
    Got lib wsKey due rest { alive := alive, socket := b.socket.close } := by
  obtain ⟨frames, hholds, hlegal, -, hupTo, -⟩ := h
  exact ⟨frames, hholds.close, hlegal, (fun hopen => by cases hopen), hupTo,
    fun hopen => by cases hopen⟩

/-- One more picture is to be sent. -/
theorem grow (h : Got lib wsKey due rest b) (p : Published) :
    Got lib wsKey (due ++ [p]) (rest ++ [p]) b := by
  obtain ⟨frames, hholds, hlegal, hlive, hupTo, hall⟩ := h
  refine ⟨frames, hholds, hlegal, hlive, ?_, fun hopen => ?_⟩
  · rw [List.map_append]
    exact hupTo.trans (List.prefix_append _ _)
  · rw [List.map_append, List.map_append, ← List.append_assoc, hall hopen]

end Got

/-! ## The run -/

namespace WebPanel

/-- The picture that the preview thread has still to send to a client. -/
def pending (s : WebPanel σ) (i : ℕ) : List Published :=
  match s.loop with
  | .publishing p => [p]
  | .sending p next count => if next ≤ i ∧ i < count then [p] else []
  | _ => []

/-- The `i`-th client is to be sent `due`, less what is still to come. -/
def Follows (wsKey : Bytes) (i : ℕ) (s : WebPanel σ) (due : List Published) : Prop :=
  ∃ b, s.browsers[i]? = some b ∧ Got lib wsKey due (s.pending i) b

/-- A ping that a client's thread answers has less than 126 bytes. -/
def ShortPong : WebTurn → Prop
  | .pong _ payload _ => payload.length < 126
  | _ => True

instance : DecidablePred ShortPong
  | .pong _ payload _ => inferInstanceAs (Decidable (payload.length < 126))
  | .capture _ | .preview _ _ | .text _ _ _ | .adopt _ _ | .leave _ | .connect _ | .look _ _ _
  | .stopPreview | .closeTapQ | .stopWs | .stopHttp => inferInstanceAs (Decidable True)

variable {lib} {wsKey : Bytes} {i : ℕ} {s : WebPanel σ} {due : List Published}

theorem Follows.congr (h : Follows lib wsKey i s due) {s' : WebPanel σ}
    (hbrowsers : s'.browsers = s.browsers) (hloop : s'.loop = s.loop) :
    Follows lib wsKey i s' (due ++ []) := by
  obtain ⟨b, hb, hgot⟩ := h
  have hpending : s'.pending i = s.pending i := by rw [pending, hloop, pending]
  rw [List.append_nil]
  exact ⟨b, hbrowsers ▸ hb, hpending ▸ hgot⟩

theorem Follows.modify (h : Follows lib wsKey i s due) {s' : WebPanel σ} {j : ℕ}
    {f : WsBrowser → WsBrowser} (hbrowsers : s'.browsers = s.browsers.modify j f)
    (hloop : s'.loop = s.loop)
    (hf : ∀ b, Got lib wsKey due (s.pending i) b → Got lib wsKey due (s.pending i) (f b)) :
    Follows lib wsKey i s' (due ++ []) := by
  obtain ⟨b, hb, hgot⟩ := h
  have hpending : s'.pending i = s.pending i := by rw [pending, hloop, pending]
  rw [List.append_nil, Follows, hbrowsers, hpending, List.getElem?_modify, hb]
  refine ⟨_, rfl, ?_⟩
  split_ifs
  · exact hf b hgot
  · exact hgot

theorem Follows.preview (h : Follows lib wsKey i s due) (expired : Bool) (cut : Option ℕ) :
    Follows lib wsKey i (s.previewTurn lib expired cut).1
      (due ++ (s.previewTurn lib expired cut).2.filterMap published?) := by
  obtain ⟨b, hb, hgot⟩ := h
  cases hloop : s.loop with
  | returned =>
    simp only [previewTurn, hloop]
    exact Follows.congr ⟨b, hb, hgot⟩ rfl rfl
  | test =>
    simp only [previewTurn, hloop, List.filterMap_nil, List.append_nil]
    refine ⟨b, hb, ?_⟩
    rw [pending, hloop] at hgot
    rw [pending]
    cases s.running <;> exact hgot
  | popping =>
    rw [pending, hloop] at hgot
    rcases s.tapQ.popFor_cases expired with ⟨hq, hpop | hpop⟩ | ⟨f, q, hq, hpop⟩
    · simp only [previewTurn, hloop, hpop, List.filterMap_nil, List.append_nil]
      exact ⟨b, hb, by simpa [pending, hloop] using hgot⟩
    · simp only [previewTurn, hloop, hpop, List.filterMap_nil, List.append_nil]
      exact ⟨b, hb, by simpa [pending] using hgot⟩
    · rcases hencode : s.encoder.encode lib f with ⟨e, _ | jpeg⟩
      · simp only [previewTurn, hloop, hpop, hencode, List.filterMap_nil, List.append_nil]
        exact ⟨b, hb, by simpa [pending] using hgot⟩
      · simp only [previewTurn, hloop, hpop, hencode]
        exact ⟨b, hb, hgot.grow { frame := f, jpeg }⟩
  | publishing p =>
    have hlt : i < s.browsers.length := (List.getElem?_eq_some_iff.1 hb).1
    rw [pending, hloop] at hgot
    simp only [previewTurn, hloop, List.filterMap_nil, List.append_nil]
    exact ⟨b, hb, by simpa [pending, hlt] using hgot⟩
  | sending p next count =>
    simp only [pending, hloop] at hgot
    by_cases hnext : next < count
    · simp only [previewTurn, hloop, if_pos hnext, List.filterMap_nil, List.append_nil, Follows,
        pending]
      rw [List.getElem?_modify, hb]
      refine ⟨if next = i then b.send (p.broadcast lib).bytes cut else b, rfl, ?_⟩
      by_cases hi : next = i
      · -- It is this client's turn.
        subst hi
        rw [if_pos rfl, if_neg (by omega), (p.broadcast lib).bytes_eq_wire]
        rw [if_pos ⟨le_rfl, hnext⟩] at hgot
        exact hgot.send (p.broadcast lib).legal_frame (by rw [p.picture?_frame]; rfl) cut
      · have hsame : (next + 1 ≤ i ∧ i < count) ↔ next ≤ i ∧ i < count := by omega
        simp only [if_neg hi, hsame]
        exact hgot
    · simp only [previewTurn, hloop, if_neg hnext, List.filterMap_nil, List.append_nil]
      rw [if_neg (by omega)] at hgot
      exact ⟨b, hb, by simpa [pending] using hgot⟩

theorem Follows.step (h : Follows lib wsKey i s due) {t : WebTurn} (ht : ShortPong t) :
    Follows lib wsKey i (s.step lib t).1 (due ++ (s.step lib t).2.filterMap published?) := by
  cases t with
  | preview expired cut => exact h.preview expired cut
  | text j json cut =>
    refine h.modify (j := j) rfl rfl fun b hgot => ?_
    rw [(WsServer.Broadcast.mk true json).bytes_eq_wire]
    exact hgot.send_other (WsServer.Broadcast.mk true json).legal_frame rfl cut
  | pong j payload cut => exact h.modify (j := j) rfl rfl fun b hgot => hgot.pong ht cut
  | leave j => exact h.modify (j := j) rfl rfl fun b hgot => hgot.close false
  | adopt key cut =>
    obtain ⟨b, hb, hgot⟩ := h
    simp only [WebPanel.step, adoptTurn, List.filterMap_nil, List.append_nil]
    split_ifs
    · exact ⟨b, hb, hgot⟩
    · refine ⟨b, ?_, hgot⟩
      rw [List.getElem?_append_left (List.getElem?_eq_some_iff.1 hb).1, hb]
  | stopWs =>
    obtain ⟨b, hb, hgot⟩ := h
    simp only [WebPanel.step, List.filterMap_nil, List.append_nil]
    refine ⟨_, ?_, hgot.close b.alive⟩
    rw [List.getElem?_map, hb]
    rfl
  | capture f => exact h.congr rfl rfl
  | connect cut => exact h.congr rfl rfl
  | look j expired cut => exact h.congr rfl rfl
  | stopPreview => exact h.congr rfl rfl
  | closeTapQ => exact h.congr rfl rfl
  | stopHttp => exact h.congr rfl rfl

/-- The preview thread only goes through clients that there are. -/
def Snapshot (s : WebPanel σ) : Prop :=
  ∀ p next count, s.loop = .sending p next count → count ≤ s.browsers.length

theorem Snapshot.previewTurn (h : Snapshot s) (expired : Bool) (cut : Option ℕ) :
    Snapshot (s.previewTurn lib expired cut).1 := by
  intro p next count hloop'
  cases hloop : s.loop with
  | returned =>
    simp only [WebPanel.previewTurn, hloop] at hloop'
    cases hloop'
  | test =>
    simp only [WebPanel.previewTurn, hloop] at hloop'
    split_ifs at hloop'
  | popping =>
    rcases s.tapQ.popFor_cases expired with ⟨-, hpop | hpop⟩ | ⟨f, q, -, hpop⟩
    · simp [WebPanel.previewTurn, hloop, hpop] at hloop'
    · simp [WebPanel.previewTurn, hloop, hpop] at hloop'
    · rcases hencode : s.encoder.encode lib f with ⟨e, _ | jpeg⟩
      · simp [WebPanel.previewTurn, hloop, hpop, hencode] at hloop'
      · simp [WebPanel.previewTurn, hloop, hpop, hencode] at hloop'
  | publishing p' =>
    simp only [WebPanel.previewTurn, hloop, PreviewPhase.sending.injEq] at hloop' ⊢
    exact hloop'.2.2.ge
  | sending p' next' count' =>
    simp only [WebPanel.previewTurn, hloop] at hloop' ⊢
    split_ifs at hloop' ⊢
    · obtain ⟨-, -, rfl⟩ := PreviewPhase.sending.inj hloop'
      exact (h p' next' count' hloop).trans (List.length_modify ..).ge

theorem Snapshot.step (h : Snapshot s) (t : WebTurn) : Snapshot (s.step lib t).1 := by
  cases t with
  | preview expired cut => exact h.previewTurn expired cut
  | adopt key cut =>
    intro p next count hloop
    simp only [WebPanel.step, adoptTurn] at hloop ⊢
    split_ifs at hloop ⊢
    · exact h p next count hloop
    · exact (h p next count hloop).trans (by simp)
  | text j json cut =>
    exact fun p next count hloop => (h p next count hloop).trans (List.length_modify ..).ge
  | pong j payload cut =>
    exact fun p next count hloop => (h p next count hloop).trans (List.length_modify ..).ge
  | leave j =>
    exact fun p next count hloop => (h p next count hloop).trans (List.length_modify ..).ge
  | stopWs => exact fun p next count hloop => (h p next count hloop).trans (List.length_map ..).ge
  | _ => exact h

end WebPanel

end Rtstream
