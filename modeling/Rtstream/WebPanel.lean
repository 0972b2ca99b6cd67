import Rtstream.Base64Encode
import Rtstream.HttpServer
import Rtstream.Lib.Decimal
import Rtstream.Lib.Socket
import Rtstream.ServerMain
import Rtstream.WsOutput

/-!
# `web_previewer.h`, `http_server.h`: the web panel's pictures

The preview thread takes captured frames out of its queue, makes a JPEG picture of each, puts it
into a slot that only holds the last one, and sends it to every browser over WebSocket. A viewer of
`/stream.mjpeg` has a thread that waits until the slot's version is not the one it has seen, and
sends what is in the slot. FFmpeg is a parameter.

A run is a list of turns of the threads, in any order; a write may take a part of the bytes and
fail, and then nothing more can be written.

* `viewers_see_published`: what a viewer is shown are published pictures, whole and in order, none
  twice; and the published pictures are made of captured I420 frames, in the order of capture.
* `viewers_see_newest`: after a look, the last picture a viewer was shown is the last published.
-/

namespace Rtstream

/-! ## Pictures -/

/-- A packet of FFmpeg; its size is an `int`. -/
structure AvPacket where
  data : Bytes
  size_lt : data.length < 2 ^ 31
  deriving DecidableEq, Repr

/-- What the previewer uses of FFmpeg and of the platform. The codec keeps a state. -/
structure PreviewLib (σ : Type) where
  /-- `av_frame_make_writable` -/
  makeWritable : σ → Bool
  /-- `sws_scale`, `avcodec_send_frame` and `avcodec_receive_packet`, for a frame and its `pts`. -/
  code : σ → Frame → Int → σ × Option AvPacket
  /-- The bits of the `double` that is a thousandth of a number. -/
  thousandth : Int → UInt64

/-- `JpegEncoder`, once it is open. -/
structure PreviewEncoder (σ : Type) where
  ctx : σ
  pts : Int := 0

/-- A picture that was put into the slot, and the frame it was made of. -/
structure Published where
  frame : Frame
  jpeg : AvPacket
  deriving DecidableEq, Repr

/-- `JpegEncoder::encode` -/
def PreviewEncoder.encode {σ : Type} (lib : PreviewLib σ) (e : PreviewEncoder σ) (f : Frame) :
    PreviewEncoder σ × Option AvPacket :=
  if f.fmt ≠ .i420 then (e, none)
  else if !lib.makeWritable e.ctx then (e, none)
  else
    let r := lib.code e.ctx f e.pts
    ({ ctx := r.1, pts := e.pts + 1 }, r.2.filter fun out => !out.data.isEmpty)

namespace Published

variable (p : Published)

/-- The height of the picture, as `preview_loop` computes it. -/
def height : UInt32 := 640 * p.frame.height / p.frame.width

/-- What goes over WebSocket. -/
def packet {σ : Type} (lib : PreviewLib σ) : Bytes :=
  ascii "RTVJ" ++ (BigEndian.store 8 (lib.thousandth p.frame.wallUs).toNat ++
    (BigEndian.store 4 640 ++ (BigEndian.store 4 p.height.toNat ++ p.jpeg.data)))

theorem length_packet {σ : Type} (lib : PreviewLib σ) :
    (p.packet lib).length = 20 + p.jpeg.data.length := by
  simp only [packet, List.length_append, BigEndian.length_store]
  show 4 + (8 + (4 + (4 + _))) = _
  omega

/-- The call of `broadcast_binary`. -/
def broadcast {σ : Type} (lib : PreviewLib σ) : WsServer.Broadcast where
  text := false
  data :=
    { bytes := p.packet lib
      length_lt := by
        have hsize := p.jpeg.size_lt
        rw [length_packet]
        omega }

end Published

/-- The last picture. -/
structure SharedJpeg where
  data : Bytes := []
  width : UInt32 := 0
  height : UInt32 := 0
  wallUs : Int := 0
  version : UInt64 := 0
  deriving DecidableEq, Repr

def SharedJpeg.publish (sink : SharedJpeg) (p : Published) : SharedJpeg where
  data := p.jpeg.data
  width := 640
  height := p.height
  wallUs := p.frame.wallUs
  version := sink.version + 1

/-! ## Those who watch -/

/-- A connection on which `handle_mjpeg` runs. -/
structure MjpegViewer where
  /-- The thread has found the server running, and waits for another version. -/
  waiting : Bool := false
  lastVersion : UInt64 := 0
  socket : Socket UInt8
  deriving DecidableEq, Repr

namespace MjpegViewer

def head : Bytes :=
  ascii "HTTP/1.1 200 OK\r\nContent-Type: multipart/x-mixed-replace; boundary=rtstream\r\n\r\n"

def pre : Bytes := ascii "--rtstream\r\nContent-Type: image/jpeg\r\nContent-Length: "

/-- The length and the end of the headers, in a buffer of 32 bytes. -/
def len (jpg : Bytes) : Bytes := (Decimal.digits jpg.length ++ ascii "\r\n\r\n").take 31

/-- What is sent for a picture. -/
def part (jpg : Bytes) : Bytes := pre ++ (len jpg ++ (jpg ++ ascii "\r\n"))

def connect (cut : Option ℕ) : MjpegViewer where
  socket := (({} : Socket UInt8).send head cut).1

/-- A turn of the thread: whether its wait times out, and how much it can write if it writes. -/
def look (v : MjpegViewer) (sink : SharedJpeg) (running expired : Bool) (cut : Option ℕ) :
    MjpegViewer :=
  if !v.socket.fdOpen then v
  else if !v.waiting then
    if running then { v with waiting := true } else { v with socket := v.socket.close }
  else if sink.version = v.lastVersion then { v with waiting := !expired }
  else { lastVersion := sink.version, socket := (v.socket.send (part sink.data) cut).1 }

end MjpegViewer

/-- A client of the WebSocket server, as far as it is written to. -/
structure WsBrowser where
  alive : Bool := true
  socket : Socket UInt8
  deriving DecidableEq, Repr

namespace WsBrowser

/-- `send_handshake_response` -/
def handshakeResponse (wsKey : Bytes) : Bytes :=
  ascii "HTTP/1.1 101 Switching Protocols\r\nUpgrade: websocket\r\nConnection: Upgrade\r\n" ++
    (ascii "Sec-WebSocket-Accept: " ++
      ((accept wsKey).map (fun c => c.toNat.toUInt8) ++ ascii "\r\n\r\n"))

/-- What `broadcast` does for a client. -/
def send (b : WsBrowser) (frame : Bytes) (cut : Option ℕ) : WsBrowser :=
  if b.alive then
    let r := b.socket.send frame cut
    { alive := r.2, socket := r.1 }
  else b

/-- The answer to a ping. Nobody looks at what `send_all` returns, so the client stays alive. -/
def pong (b : WsBrowser) (payload : Bytes) (cut : Option ℕ) : WsBrowser :=
  { b with socket := (b.socket.send (WsServer.pong payload) cut).1 }

/-- The client's thread ends. -/
def leave (b : WsBrowser) : WsBrowser := { alive := false, socket := b.socket.close }

end WsBrowser

/-! ## The threads -/

/-- Where the preview thread is. -/
inductive PreviewPhase
  | test
  | popping
  /-- It has put a picture into the slot. -/
  | publishing (p : Published)
  /-- It goes through `count` clients and has come to the one with this index. -/
  | sending (p : Published) (next count : ℕ)
  | returned
  deriving DecidableEq, Repr

structure WebPanel (σ : Type) where
  encoder : PreviewEncoder σ
  tapQ : ThreadSafeQueue Frame := { capacity := 2 }
  running : Bool := true
  loop : PreviewPhase := .test
  sink : SharedJpeg := {}
  renderedFrames : ℕ := 0
  viewers : List MjpegViewer := []
  httpRunning : Bool := true
  /-- The clients of the WebSocket server, in the order in which they came. -/
  browsers : List WsBrowser := []

inductive WebTurn
  | capture (f : Frame)
  /-- A turn of the preview thread: whether `pop_for` times out on an empty queue, and how much it
  can write if it writes. -/
  | preview (expired : Bool) (cut : Option ℕ)
  /-- Another thread's `broadcast_text` comes to a client. -/
  | text (i : ℕ) (json : WsServer.Payload) (cut : Option ℕ)
  | pong (i : ℕ) (payload : Bytes) (cut : Option ℕ)
  | adopt (wsKey : Bytes) (cut : Option ℕ)
  | leave (i : ℕ)
  | connect (cut : Option ℕ)
  | look (i : ℕ) (expired : Bool) (cut : Option ℕ)
  | stopPreview
  | closeTapQ
  | stopWs
  | stopHttp
  deriving DecidableEq, Repr

inductive WebEffect
  | captured (f : Frame)
  /-- A picture is put into the slot. -/
  | published (p : Published)
  deriving DecidableEq, Repr

namespace WebPanel

variable {σ : Type} (lib : PreviewLib σ)

/-- The preview thread goes on. -/
def previewTurn (s : WebPanel σ) (expired : Bool) (cut : Option ℕ) :
    WebPanel σ × List WebEffect :=
  match s.loop with
  | .test => ({ s with loop := if s.running then .popping else .returned }, [])
  | .popping =>
    let r := s.tapQ.popFor expired
    match r.2 with
    | .popped f :: _ =>
      match s.encoder.encode lib f with
      | (e, none) => ({ s with tapQ := r.1, encoder := e, loop := .test }, [])
      | (e, some jpeg) =>
        let p : Published := { frame := f, jpeg := jpeg }
        ({ s with tapQ := r.1, encoder := e, sink := s.sink.publish p, loop := .publishing p },
          [.published p])
    | .empty :: _ => ({ s with tapQ := r.1, loop := .test }, [])
    | _ => ({ s with tapQ := r.1 }, [])
  | .publishing p => ({ s with loop := .sending p 0 s.browsers.length }, [])
  | .sending p i count =>
    if i < count then
      ({ s with
          browsers := s.browsers.modify i fun b => b.send (p.broadcast lib).bytes cut
          loop := .sending p (i + 1) count }, [])
    else ({ s with loop := .test, renderedFrames := s.renderedFrames + 1 }, [])
  | .returned => (s, [])

/-- `adopt` -/
def adoptTurn (s : WebPanel σ) (wsKey : Bytes) (cut : Option ℕ) : WebPanel σ :=
  let r := ({} : Socket UInt8).send (WsBrowser.handshakeResponse wsKey) cut
  if wsKey.isEmpty || !r.2 then s else { s with browsers := s.browsers ++ [{ socket := r.1 }] }

/-- The threads take turns. -/
def step (s : WebPanel σ) : WebTurn → WebPanel σ × List WebEffect
  | .capture f => ({ s with tapQ := (s.tapQ.tryPush f).1 }, [.captured f])
  | .preview expired cut => s.previewTurn lib expired cut
  | .text i json cut =>
    let frame := (WsServer.Broadcast.mk true json).bytes
    ({ s with browsers := s.browsers.modify i fun b => b.send frame cut }, [])
  | .pong i payload cut =>
    ({ s with browsers := s.browsers.modify i fun b => b.pong payload cut }, [])
  | .adopt wsKey cut => (s.adoptTurn wsKey cut, [])
  | .leave i => ({ s with browsers := s.browsers.modify i WsBrowser.leave }, [])
  | .connect cut => ({ s with viewers := s.viewers ++ [.connect cut] }, [])
  | .look i expired cut =>
    ({ s with viewers := s.viewers.modify i fun v => v.look s.sink s.httpRunning expired cut }, [])
  | .stopPreview => ({ s with running := false }, [])
  | .closeTapQ => ({ s with tapQ := s.tapQ.close }, [])
  | .stopWs =>
    ({ s with browsers := s.browsers.map fun b => { b with socket := b.socket.close } }, [])
  | .stopHttp => ({ s with httpRunning := false }, [])

def captured? : WebEffect → Option Frame
  | .captured f => some f
  | _ => none

def published? : WebEffect → Option Published
  | .published p => some p
  | _ => none

/-! ## What is published -/

variable {lib}

theorem encode_eq_some {e e' : PreviewEncoder σ} {f : Frame} {jpeg : AvPacket}
    (h : e.encode lib f = (e', some jpeg)) : f.fmt = .i420 := by
  rw [PreviewEncoder.encode] at h
  by_cases hfmt : f.fmt = .i420
  · exact hfmt
  · rw [if_pos hfmt] at h
    cases h

variable (lib) in
/-- **A turn of the preview thread**, as far as it concerns the slot and those who look into it. -/
theorem previewTurn_cases (s : WebPanel σ) (expired : Bool) (cut : Option ℕ) :
    let r := s.previewTurn lib expired cut
    r.1.viewers = s.viewers ∧
      ((r.2 = [] ∧ r.1.sink = s.sink ∧ r.1.tapQ.q.Sublist s.tapQ.q) ∨
        ∃ p, r.2 = [.published p] ∧ r.1.sink = s.sink.publish p ∧
          s.tapQ.q = p.frame :: r.1.tapQ.q ∧ p.frame.fmt = .i420) := by
  intro r
  cases hloop : s.loop with
  | test => simp [r, previewTurn, hloop]
  | publishing p => simp [r, previewTurn, hloop]
  | returned => simp [r, previewTurn, hloop]
  | sending p i count =>
    by_cases hlt : i < count
    · simp [r, previewTurn, hloop, hlt]
    · simp [r, previewTurn, hloop, hlt]
  | popping =>
    rcases s.tapQ.popFor_cases expired with ⟨hq, hpop | hpop⟩ | ⟨f, q, hq, hpop⟩
    · simp [r, previewTurn, hloop, hpop]
    · simp [r, previewTurn, hloop, hpop]
    · rcases hencode : s.encoder.encode lib f with ⟨e, _ | jpeg⟩
      · simp [r, previewTurn, hloop, hpop, hencode, hq]
      · refine ⟨by simp [r, previewTurn, hloop, hpop, hencode], .inr ⟨{ frame := f, jpeg }, ?_⟩⟩
        simp [r, previewTurn, hloop, hpop, hencode, hq, encode_eq_some hencode]

/-- What was published is made of captured frames, in order, and so is what is in the queue. -/
structure Fed (s : WebPanel σ) (os : List WebEffect) : Prop where
  order : ((os.filterMap published?).map Published.frame ++ s.tapQ.q).Sublist
    (os.filterMap captured?)
  i420 : ∀ p ∈ os.filterMap published?, p.frame.fmt = .i420

theorem Fed.congr {s s' : WebPanel σ} {os : List WebEffect} (h : Fed s os)
    (hq : s'.tapQ.q = s.tapQ.q) : Fed s' (os ++ []) := by
  rw [List.append_nil]
  exact ⟨hq ▸ h.order, h.i420⟩

theorem Fed.step {s : WebPanel σ} {os : List WebEffect} (h : Fed s os) (t : WebTurn) :
    Fed (s.step lib t).1 (os ++ (s.step lib t).2) := by
  cases t with
  | capture f =>
    refine ⟨?_, by simpa [WebPanel.step, published?] using h.i420⟩
    simp only [WebPanel.step, List.filterMap_append, List.filterMap_cons, List.filterMap_nil,
      published?, captured?, List.append_nil]
    refine ((List.Sublist.refl _).append (s.tapQ.sublist_tryPush f)).trans ?_
    rw [← List.append_assoc]
    exact h.order.append (List.Sublist.refl _)
  | preview expired cut =>
    rcases (previewTurn_cases lib s expired cut).2 with
      ⟨hout, -, hq⟩ | ⟨p, hout, -, hq, hfmt⟩
    · rw [WebPanel.step, hout, List.append_nil]
      exact ⟨((List.Sublist.refl _).append hq).trans h.order, h.i420⟩
    · rw [WebPanel.step, hout]
      have horder := h.order
      rw [hq] at horder
      refine ⟨by simpa [List.filterMap_cons, published?, captured?] using horder, fun p' hp' => ?_⟩
      simp only [List.filterMap_append, List.mem_append] at hp'
      rcases hp' with hp' | hp'
      · exact h.i420 p' hp'
      · obtain rfl : p' = p := by simpa [published?] using hp'
        exact hfmt
  | adopt wsKey cut =>
    refine h.congr ?_
    simp only [WebPanel.step, adoptTurn]
    split_ifs <;> rfl
  | _ => exact h.congr rfl

/-- **Pictures are made of captured frames**, in the order of capture. -/
theorem fed_run (e : PreviewEncoder σ) (ts : List WebTurn) :
    Fed (Runs.after (step lib) { encoder := e } ts)
      (Runs.trace (step lib) { encoder := e } ts) := by
  have hstart : Fed ({ encoder := e } : WebPanel σ) [] := ⟨List.Sublist.refl _, by simp⟩
  exact Runs.history (I := Fed) (fun _ _ t h => h.step t) hstart ts

end WebPanel

/-! ## Viewers -/

/-- What the slot holds when `pubs` were published. -/
structure SharedJpeg.Holds (sink : SharedJpeg) (pubs : List Published) : Prop where
  version : sink.version = UInt64.ofNat pubs.length
  data : ∀ p ∈ pubs.getLast?, sink.data = p.jpeg.data

theorem SharedJpeg.Holds.publish {sink : SharedJpeg} {pubs : List Published} (h : sink.Holds pubs)
    (p : Published) : (sink.publish p).Holds (pubs ++ [p]) where
  version := by
    rw [SharedJpeg.publish, h.version, List.length_append, UInt64.ofNat_add]
    rfl
  data := by simp [SharedJpeg.publish]

namespace MjpegViewer

/-- How the parts of the stream are laid out. -/
def layout : Decimal.Layout where
  opening := pre
  separator := ascii "\r\n\r\n"
  closing := ascii "\r\n"
  stops := ⟨_, _, rfl, by decide⟩

/-- The buffer of 32 bytes is large enough for a picture's length. -/
theorem part_eq_write {jpg : Bytes} (h : jpg.length < 2 ^ 31) : part jpg = layout.write jpg := by
  have hdigits : (Decimal.digits jpg.length).length ≤ 10 :=
    Decimal.length_digits_le (by decide) (h.trans (by decide))
  have hlen : (Decimal.digits jpg.length ++ ascii "\r\n\r\n").length ≤ 31 := by
    rw [List.length_append]
    show _ + 4 ≤ 31
    omega
  rw [part, len, List.take_of_length_le hlen, Decimal.Layout.write, List.append_assoc]
  rfl

/-- The pictures in a stream, for a viewer that goes by the lengths. -/
def shown (stream : Bytes) : List Bytes :=
  if head <+: stream then (layout.reader.items (stream.drop head.length)).1 else []

/-- These pictures were sent. -/
def Sent (socket : Socket UInt8) (seen : List Published) : Prop :=
  Socket.Holds head (fun p : Published => part p.jpeg.data) (fun _ => True) socket seen

theorem shown_of_sent {socket : Socket UInt8} {seen : List Published} (h : Sent socket seen) :
    shown socket.stream = seen.map (·.jpeg.data) := by
  have hread : ∀ p : Published, True →
      layout.reader.Encodes p.jpeg.data (part p.jpeg.data) := fun p _ =>
    part_eq_write p.jpeg.size_lt ▸ Decimal.Layout.encodes_write _
  have hitems := h.read hread fun _ _ => trivial
  obtain ⟨part, heq, -⟩ := h
  rw [shown, if_pos ⟨_, heq.symm⟩, hitems]

theorem part_ne_nil (jpg : Bytes) : part jpg ≠ [] := by
  intro hnil
  cases (List.append_eq_nil_iff.1 hnil).1

/-- What a viewer has been sent when `pubs` were published: some of the first `k`, the last of them
included while the connection holds. -/
structure Watches (pubs : List Published) (v : MjpegViewer) (seen : List Published) (k : ℕ) :
    Prop where
  sent : Sent v.socket seen
  le : k ≤ pubs.length
  version : v.lastVersion = UInt64.ofNat k
  order : seen.Sublist (pubs.take k)
  newest : v.socket.fdOpen = true → seen.getLast? = (pubs.take k).getLast?

/-- A viewer has been sent a part of the head and no more, or it watches. -/
def Watching (pubs : List Published) (v : MjpegViewer) : Prop :=
  (v.socket.fdOpen = false ∧ ¬ head <+: v.socket.stream) ∨ ∃ seen k, Watches pubs v seen k

theorem Watches.grow {pubs : List Published} {v : MjpegViewer} {seen : List Published} {k : ℕ}
    (h : Watches pubs v seen k) (more : List Published) : Watches (pubs ++ more) v seen k where
  sent := h.sent
  le := h.le.trans (by rw [List.length_append]; exact Nat.le_add_right _ _)
  version := h.version
  order := List.take_append_of_le_length h.le ▸ h.order
  newest := List.take_append_of_le_length h.le ▸ h.newest

theorem Watching.grow {pubs : List Published} {v : MjpegViewer} (h : Watching pubs v)
    (more : List Published) : Watching (pubs ++ more) v := by
  rcases h with h | ⟨seen, k, h⟩
  · exact .inl h
  · exact .inr ⟨seen, k, h.grow more⟩

theorem watching_connect (pubs : List Published) (cut : Option ℕ) :
    Watching pubs (connect cut) := by
  cases cut with
  | none =>
    refine .inr ⟨[], 0, ?_, Nat.zero_le _, rfl, List.nil_sublist _, fun _ => by simp⟩
    exact Socket.holds_preamble head _ _
  | some n =>
    obtain ⟨part, hpart, hproper, hsend⟩ :=
      Socket.send_cut (s := {}) rfl (by decide : head ≠ []) n
    refine .inl ⟨by simp [connect], fun hwhole => hproper ?_⟩
    rw [connect, hsend] at hwhole
    exact hpart.eq_of_length_le hwhole.length_le

section Look

variable {pubs : List Published} {v : MjpegViewer} {seen : List Published} {k : ℕ}
    {sink : SharedJpeg}

/-- Another version means that something was published. -/
theorem Watches.lt_of_version (h : Watches pubs v seen k) (hsink : sink.Holds pubs)
    (hne : sink.version ≠ v.lastVersion) : k < pubs.length := by
  refine Nat.lt_of_le_of_ne h.le fun heq => hne ?_
  rw [hsink.version, h.version, heq]

/-- **The viewer is sent the last picture.** -/
theorem Watches.send (h : Watches pubs v seen k) (hsink : sink.Holds pubs) (hlt : k < pubs.length)
    (cut : Option ℕ) : ∃ seen, Watches pubs
      { lastVersion := sink.version, socket := (v.socket.send (part sink.data) cut).1 } seen
      pubs.length := by
  have hne : pubs ≠ [] := List.ne_nil_of_length_pos (Nat.lt_of_le_of_lt (Nat.zero_le k) hlt)
  obtain ⟨p, hlast⟩ : ∃ p, pubs.getLast? = some p := ⟨_, List.getLast?_eq_some_getLast hne⟩
  have hsent := Socket.Holds.send h.sent (x := p) trivial (part_ne_nil _) cut
  rw [← hsink.data p hlast, Socket.send_snd] at hsent
  refine ⟨_, hsent, le_rfl, hsink.version, ?_, fun hopen => ?_⟩
  · have hsplit : (pubs.take k ++ pubs.drop k).Sublist (pubs.take pubs.length) := by
      rw [List.take_append_drop, List.take_length]
    refine (h.order.append ?_).trans hsplit
    split_ifs
    · refine List.singleton_sublist.2 (List.mem_of_getLast? ?_)
      rw [List.getLast?_drop, if_neg (Nat.not_le.2 hlt), hlast]
    · exact List.nil_sublist _
  · rw [Socket.send_fdOpen] at hopen
    rw [if_pos hopen, List.getLast?_concat, List.take_length, hlast]

theorem Watching.look (h : Watching pubs v) (hsink : sink.Holds pubs) (running expired : Bool)
    (cut : Option ℕ) : Watching pubs (v.look sink running expired cut) := by
  rcases h with ⟨hclosed, hhead⟩ | ⟨seen, k, h⟩
  · simpa [MjpegViewer.look, hclosed, Watching] using Or.inl hhead
  · simp only [MjpegViewer.look]
    split_ifs with hopen hwait hrun hsame
    · exact .inr ⟨seen, k, h⟩
    · exact .inr ⟨seen, k, h.sent, h.le, h.version, h.order, h.newest⟩
    · exact .inr ⟨seen, k, h.sent.close, h.le, h.version, h.order, fun hopen => by cases hopen⟩
    · exact .inr ⟨seen, k, h.sent, h.le, h.version, h.order, h.newest⟩
    · obtain ⟨seen', h'⟩ := h.send hsink (h.lt_of_version hsink hsame) cut
      exact .inr ⟨seen', _, h'⟩

end Look

end MjpegViewer

namespace WebPanel

open MjpegViewer

variable {σ : Type} {lib : PreviewLib σ}

theorem forall_mem_modify {α : Type} {P : α → Prop} {f : α → α} {l : List α} (h : ∀ a ∈ l, P a)
    (hf : ∀ a, P a → P (f a)) (i : ℕ) : ∀ a ∈ l.modify i f, P a := by
  intro a ha
  obtain ⟨j, hj⟩ := List.mem_iff_getElem?.1 ha
  rw [List.getElem?_modify] at hj
  obtain ⟨b, hb, rfl⟩ := Option.map_eq_some_iff.1 hj
  have hP := h b (List.mem_of_getElem? hb)
  split_ifs
  · exact hf b hP
  · exact hP

/-- The slot holds the last picture, and everyone who looks into it watches. -/
structure Shown (s : WebPanel σ) (os : List WebEffect) : Prop where
  slot : s.sink.Holds (os.filterMap published?)
  viewers : ∀ v ∈ s.viewers, v.Watching (os.filterMap published?)

theorem Shown.congr {s s' : WebPanel σ} {os : List WebEffect} (h : Shown s os)
    (hsink : s'.sink = s.sink) (hviewers : s'.viewers = s.viewers) : Shown s' (os ++ []) := by
  rw [List.append_nil]
  exact ⟨hsink ▸ h.slot, hviewers ▸ h.viewers⟩

theorem Shown.step {s : WebPanel σ} {os : List WebEffect} (h : Shown s os) (t : WebTurn) :
    Shown (s.step lib t).1 (os ++ (s.step lib t).2) := by
  cases t with
  | capture f =>
    have hpubs : (os ++ [WebEffect.captured f]).filterMap published? = os.filterMap published? := by
      simp [published?]
    rw [WebPanel.step]
    exact ⟨hpubs ▸ h.slot, hpubs ▸ h.viewers⟩
  | preview expired cut =>
    obtain ⟨hviewers, hcases⟩ := previewTurn_cases lib s expired cut
    rcases hcases with ⟨hout, hsink, -⟩ | ⟨p, hout, hsink, -⟩
    · rw [WebPanel.step, hout]
      exact h.congr hsink hviewers
    · have hpubs : (os ++ [WebEffect.published p]).filterMap published? =
          os.filterMap published? ++ [p] := by simp [published?]
      rw [WebPanel.step, hout]
      refine ⟨?_, fun v hv => ?_⟩
      · rw [hsink, hpubs]
        exact h.slot.publish p
      · rw [hpubs]
        exact (h.viewers v (hviewers ▸ hv)).grow [p]
  | adopt wsKey cut =>
    refine h.congr ?_ ?_ <;>
    · simp only [WebPanel.step, adoptTurn]
      split_ifs <;> rfl
  | connect cut =>
    rw [WebPanel.step, List.append_nil]
    refine ⟨h.slot, List.forall_mem_append.2 ⟨h.viewers, fun v hv => ?_⟩⟩
    rw [List.mem_singleton.1 hv]
    exact watching_connect _ cut
  | look i expired cut =>
    rw [WebPanel.step, List.append_nil]
    exact ⟨h.slot, forall_mem_modify h.viewers (fun v hv => hv.look h.slot _ expired cut) i⟩
  | _ => exact h.congr rfl rfl

theorem shown_run (e : PreviewEncoder σ) (ts : List WebTurn) :
    Shown (Runs.after (step lib) { encoder := e } ts)
      (Runs.trace (step lib) { encoder := e } ts) := by
  have hstart : Shown ({ encoder := e } : WebPanel σ) [] := by
    refine ⟨⟨rfl, fun p hp => by cases hp⟩, fun v hv => by cases hv⟩
  exact Runs.history (I := Shown) (fun _ _ t h => h.step t) hstart ts

/-- **A viewer is shown what was published.** Over every run, the pictures that a viewer finds in
what it was sent are published ones, whole, in order and none twice, however its connection ends;
and what was published is made of captured I420 frames, in the order of capture and none twice. -/
theorem viewers_see_published (e : PreviewEncoder σ) (ts : List WebTurn) :
    let s := Runs.after (step lib) { encoder := e } ts
    let os := Runs.trace (step lib) { encoder := e } ts
    (∀ v ∈ s.viewers, (shown v.socket.stream).Sublist
        ((os.filterMap published?).map (·.jpeg.data))) ∧
      ((os.filterMap published?).map Published.frame).Sublist (os.filterMap captured?) ∧
      ∀ p ∈ os.filterMap published?, p.frame.fmt = .i420 := by
  intro s os
  have hfed : Fed s os := fed_run e ts
  refine ⟨fun v hv => ?_, (List.sublist_append_left _ _).trans hfed.order, hfed.i420⟩
  rcases (shown_run e ts).viewers v hv with ⟨-, hhead⟩ | ⟨seen, k, h⟩
  · rw [shown, if_neg hhead]
    exact List.nil_sublist _
  · rw [shown_of_sent h.sent]
    exact (h.order.trans (List.take_sublist _ _)).map _

/-- **A viewer is shown the last picture.** In every run, when the thread of a viewer that waits
gets a turn and can write, then the last picture that its viewer was shown is the last one
published, as long as fewer than 2⁶⁴ were. -/
theorem viewers_see_newest (e : PreviewEncoder σ) (ts : List WebTurn) {i : ℕ} {v : MjpegViewer}
    (hcount : ((Runs.trace (step lib) { encoder := e } ts).filterMap published?).length < 2 ^ 64)
    (hv : (Runs.after (step lib) { encoder := e } ts).viewers[i]? = some v)
    (hopen : v.socket.fdOpen = true) (hwait : v.waiting = true) (expired : Bool) :
    let os := Runs.trace (step lib) { encoder := e } ts
    let s' := Runs.after (step lib) { encoder := e } (ts ++ [.look i expired none])
    ∃ v', s'.viewers[i]? = some v' ∧
      (shown v'.socket.stream).getLast? =
        ((os.filterMap published?).map (·.jpeg.data)).getLast? := by
  intro os s'
  have hrun : Shown (Runs.after (step lib) { encoder := e } ts) os := shown_run e ts
  have hslot := hrun.slot
  have hget : s'.viewers[i]? = some (v.look (Runs.after (step lib) { encoder := e } ts).sink
      (Runs.after (step lib) { encoder := e } ts).httpRunning expired none) := by
    simp only [s', Runs.after_append, Runs.after_cons, Runs.after_nil, WebPanel.step]
    rw [List.getElem?_modify_eq, hv]
    rfl
  refine ⟨_, hget, ?_⟩
  rcases hrun.viewers v (List.mem_of_getElem? hv) with ⟨hclosed, -⟩ | ⟨seen, k, h⟩
  · rw [hclosed] at hopen
    cases hopen
  · simp only [MjpegViewer.look, hopen, hwait, Bool.not_true, Bool.false_eq_true, if_false]
    split_ifs with hsame
    · -- The version is the one it has seen, so it has seen the last picture.
      rw [hslot.version, h.version] at hsame
      have hk : k = (os.filterMap published?).length := by
        have hle := h.le
        have hmod := congrArg UInt64.toNat hsame
        rw [UInt64.toNat_ofNat', UInt64.toNat_ofNat', Nat.mod_eq_of_lt hcount,
          Nat.mod_eq_of_lt (Nat.lt_of_le_of_lt hle hcount)] at hmod
        exact hmod.symm
      have hlast := h.newest hopen
      rw [hk, List.take_length] at hlast
      rw [shown_of_sent h.sent, List.getLast?_map, List.getLast?_map, hlast]
    · obtain ⟨seen', h'⟩ := h.send hslot (h.lt_of_version hslot hsame) none
      have hlast := h'.newest (by rw [Socket.send_fdOpen, hopen]; rfl)
      rw [List.take_length] at hlast
      rw [shown_of_sent h'.sent, List.getLast?_map, List.getLast?_map, hlast]

/-- A codec that counts its pictures, and puts nothing but the count into them. -/
def counter : PreviewLib UInt8 where
  makeWritable _ := true
  code n _ _ := (n + 1, some ⟨[0xFF, 0xD8, n, 0xFF, 0xD9], by show 5 < 2 ^ 31; decide⟩)
  thousandth _ := 0

def grey : Frame where
  frameId := 1
  width := 64
  height := 64
  fmt := .i420
  data := List.replicate 6144 0x80

/-- A viewer comes and waits, and two frames are captured and published. -/
def greyRun : List WebTurn :=
  [.connect none, .look 0 false none, .capture grey, .preview false none, .preview false none,
    .preview false none, .preview false none, .capture grey, .preview false none,
    .preview false none]

theorem viewers_see_newest_two :
    let os := Runs.trace (step counter) { encoder := { ctx := 0 } } greyRun
    (os.filterMap published?).map (·.jpeg.data) =
        [[0xFF, 0xD8, 0, 0xFF, 0xD9], [0xFF, 0xD8, 1, 0xFF, 0xD9]] ∧
      ∃ v', (Runs.after (step counter) { encoder := { ctx := 0 } }
          (greyRun ++ [.look 0 false none])).viewers[0]? = some v' ∧
        (shown v'.socket.stream).getLast? = some [0xFF, 0xD8, 1, 0xFF, 0xD9] := by
  intro os
  have hpubs : (os.filterMap published?).map (·.jpeg.data) =
      [[0xFF, 0xD8, 0, 0xFF, 0xD9], [0xFF, 0xD8, 1, 0xFF, 0xD9]] := by decide +kernel
  have hcount : (os.filterMap published?).length < 2 ^ 64 := by
    rw [← List.length_map (·.jpeg.data), hpubs]
    decide
  have hv : (Runs.after (step counter) { encoder := { ctx := 0 } } greyRun).viewers[0]? =
      some { waiting := true, socket := { stream := MjpegViewer.head } } := by decide +kernel
  have hnewest : ∃ v', (Runs.after (step counter) { encoder := { ctx := 0 } }
        (greyRun ++ [.look 0 false none])).viewers[0]? = some v' ∧
      (shown v'.socket.stream).getLast? = ((os.filterMap published?).map (·.jpeg.data)).getLast? :=
    @viewers_see_newest UInt8 counter { ctx := 0 } greyRun 0
      { waiting := true, socket := { stream := MjpegViewer.head } } hcount hv rfl rfl false
  rw [hpubs] at hnewest
  exact ⟨hpubs, hnewest⟩

end WebPanel

end Rtstream
