import Rtstream.FfmpegDecoder

/-!
# `client_main.cpp`: from the receiver to the screen

The receiver puts its units into the queue `out`. The decode thread opens the decoder, takes units
out and pushes what it makes of them into `decoded_q`. The main thread takes frames out of that, and
draws them, or without a window only counts them. When the window is closed it stops the receiver
and joins the decode thread. libavcodec is a parameter.

A run is a list of turns of the threads, in any order.

* `draws_in_order`: over every run, what is shown are decoded frames, in order and none twice, made
  of units that were handed over, in order; and each is drawn as the decoder's picture.
* `every_unit_accounted`: each unit was shown, failed to decode, was dropped by one of the queues or
  rejected by a closed one, or is one of at most thirteen on their way.
* `client_returns`: once the window is closed the client returns, wherever its threads were.
* `headless_never_ends`: without a window, the main thread leaves its loop only if the decoder could
  not be opened.
-/

namespace Rtstream

/-- Where the decode thread is. -/
inductive DecodePhase
  | opening
  /-- At the test of `stop_flag`. -/
  | test
  /-- In `out.pop`. -/
  | pop
  /-- With a unit. -/
  | unit (ef : EncodedFrame)
  /-- In `decoded_q.push`. -/
  | push (f : Frame)
  /-- Before `decoded_q.close`. -/
  | closing
  | returned
  deriving DecidableEq, Repr

/-- The unit that the decode thread holds. -/
def DecodePhase.unit? : DecodePhase → Option EncodedFrame
  | .unit ef => some ef
  | _ => none

/-- The frame that it holds. -/
def DecodePhase.frame? : DecodePhase → Option Frame
  | .push f => some f
  | _ => none

/-- Where the main thread is. -/
inductive MainPhase
  /-- Before the window is open. -/
  | starting
  /-- At the test of `should_close` and `stop_flag`. -/
  | test
  /-- In `decoded_q.pop_for`. -/
  | pop
  /-- Behind the loop of the window. -/
  | stopping
  /-- Before the receiver's `stop`. -/
  | closing
  /-- In `decode_thread.join`. -/
  | joining
  | returned
  /-- It returned from `main` with the decode thread not joined. -/
  | terminated
  deriving DecidableEq, Repr

structure ClientMain (σ : Type) where
  /-- Without `--headless`. -/
  window : Bool
  /-- The queue of the receiver in use. -/
  out : ThreadSafeQueue EncodedFrame := { capacity := 8 }
  decodedQ : ThreadSafeQueue Frame := { capacity := 4 }
  stopFlag : Bool := false
  /-- `ctx_` -/
  ctx : Option σ := none
  decode : DecodePhase := .opening
  main : MainPhase := if window then .starting else .pop
  decodedFrames : ℕ := 0
  renderedFrames : ℕ := 0
  deriving DecidableEq, Repr

/-- Whose turn it is. -/
inductive ClientMainTurn
  /-- The receiver hands over a unit. -/
  | hand (ef : EncodedFrame)
  | decode
  /-- The main thread: whether the window can be opened, whether it is to be closed, and whether the
  time of `pop_for` is up. It looks at one of them, by where it is. -/
  | main (opens shouldClose expired : Bool)
  deriving DecidableEq, Repr

inductive ClientMainEffect
  | handed (ef : EncodedFrame)
  | out (e : QueueEffect EncodedFrame)
  | decodedQ (e : QueueEffect Frame)
  | openFailed (error : String)
  /-- `decode` returned `false`. -/
  | undecoded (ef : EncodedFrame)
  | decoded (ef : EncodedFrame) (a : AvFrame) (f : Frame)
  /-- A copy past the end of the frame's memory. -/
  | overrun (ef : EncodedFrame) (a : AvFrame)
  | drawn (f : Frame) (textures : Option Textures)
  | rendered (f : Frame)
  /-- `std::terminate` -/
  | terminate
  deriving DecidableEq, Repr

namespace ClientMain

variable {σ : Type} (lib : Avcodec σ)

/-- The receiver's output thread pushes a unit. -/
def hand (s : ClientMain σ) (ef : EncodedFrame) : ClientMain σ × List ClientMainEffect :=
  let r := s.out.push ef
  ({ s with out := r.1 }, .handed ef :: r.2.map .out)

/-- A turn of the decode thread. -/
def decodeTurn (s : ClientMain σ) : ClientMain σ × List ClientMainEffect :=
  match s.decode with
  | .opening => match FfmpegDecoder.openWith lib with
    | .error error => ({ s with stopFlag := true, decode := .returned }, [.openFailed error])
    | .ok ctx => ({ s with ctx := some ctx, decode := .test }, [])
  | .test => ({ s with decode := if s.stopFlag then .closing else .pop }, [])
  | .pop =>
    let r := s.out.pop
    let phase := match r.2 with
      | .popped ef :: _ => .unit ef
      | .empty :: _ => if r.1.closed then .closing else .test
      | _ => .pop
    ({ s with out := r.1, decode := phase }, r.2.map .out)
  | .unit ef => match s.ctx with
    | none => ({ s with decode := .test }, [.undecoded ef])
    | some ctx => match FfmpegDecoder.decode lib ctx ef with
      | (ctx', .nothing) => ({ s with ctx := some ctx', decode := .test }, [.undecoded ef])
      | (ctx', .overrun a) => ({ s with ctx := some ctx', decode := .test }, [.overrun ef a])
      | (ctx', .frame a f) =>
        ({ s with ctx := some ctx', decode := .push f, decodedFrames := s.decodedFrames + 1 },
          [.decoded ef a f])
  | .push f =>
    let r := s.decodedQ.push f
    ({ s with decodedQ := r.1, decode := if r.2.isEmpty then .push f else .test },
      r.2.map .decodedQ)
  | .closing => ({ s with decodedQ := s.decodedQ.close, decode := .returned }, [])
  | .returned => (s, [])

/-- What the main thread does with a frame. -/
def render (s : ClientMain σ) (f : Frame) : List ClientMainEffect :=
  (if s.window then [.drawn f (GlRenderer.draw f)] else []) ++ [.rendered f]

/-- A turn of the main thread. -/
def mainTurn (s : ClientMain σ) (opens shouldClose expired : Bool) :
    ClientMain σ × List ClientMainEffect :=
  match s.main with
  | .starting =>
    if opens then ({ s with main := .test }, []) else ({ s with main := .terminated }, [.terminate])
  | .test => ({ s with main := if shouldClose || s.stopFlag then .stopping else .pop }, [])
  | .pop =>
    let r := s.decodedQ.popFor expired
    match r.2 with
    | .popped f :: _ =>
      ({ s with decodedQ := r.1, main := if s.window then .test else .pop
                renderedFrames := s.renderedFrames + 1 },
        r.2.map .decodedQ ++ s.render f)
    | .empty :: _ =>
      ({ s with decodedQ := r.1
                main := if s.window then .test else if s.stopFlag then .closing else .pop },
        r.2.map .decodedQ)
    | _ => ({ s with decodedQ := r.1 }, r.2.map .decodedQ)
  | .stopping => ({ s with stopFlag := true, main := .closing }, [])
  | .closing => ({ s with out := s.out.close, main := .joining }, [])
  | .joining => ({ s with main := if s.decode = .returned then .returned else .joining }, [])
  | .returned | .terminated => (s, [])

/-- The client as a machine that is fed the threads' turns. -/
def step (s : ClientMain σ) : ClientMainTurn → ClientMain σ × List ClientMainEffect
  | .hand ef => s.hand ef
  | .decode => s.decodeTurn lib
  | .main opens shouldClose expired => s.mainTurn opens shouldClose expired

/-- The client with its receiver started. -/
def start (window : Bool) : ClientMain σ := { window }

/-! ## What goes in and what comes out -/

def handed? : ClientMainEffect → Option EncodedFrame
  | .handed ef => some ef
  | _ => none

/-- A unit that the decode thread is done with. -/
def taken? : ClientMainEffect → Option EncodedFrame
  | .undecoded ef | .decoded ef _ _ | .overrun ef _ => some ef
  | _ => none

/-- A unit that the decoder made a frame of. -/
def decodedUnit? : ClientMainEffect → Option EncodedFrame
  | .decoded ef _ _ => some ef
  | _ => none

/-- A unit that it made none of. -/
def undecoded? : ClientMainEffect → Option EncodedFrame
  | .undecoded ef => some ef
  | _ => none

def decoded? : ClientMainEffect → Option Frame
  | .decoded _ _ f => some f
  | _ => none

def rendered? : ClientMainEffect → Option Frame
  | .rendered f => some f
  | _ => none

/-- A unit that the closed queue rejected. -/
def rejected? : ClientMainEffect → Option EncodedFrame
  | .out (.rejected ef) => some ef
  | _ => none

/-- The units on their way to the decoder, the oldest first. -/
def units (s : ClientMain σ) : List EncodedFrame := s.decode.unit?.toList ++ s.out.q

/-- The frames on their way to the screen. -/
def frames (s : ClientMain σ) : List Frame := s.decodedQ.q ++ s.decode.frame?.toList

theorem decodeTurn_cases (s : ClientMain σ) :
    (s.decode = .opening ∧ ∃ error, FfmpegDecoder.openWith lib = .error error ∧ s.decodeTurn lib =
      ({ s with stopFlag := true, decode := .returned }, [.openFailed error])) ∨
    (s.decode = .opening ∧ ∃ ctx, s.decodeTurn lib =
      ({ s with ctx := some ctx, decode := .test }, [])) ∨
    (s.decode = .test ∧ s.decodeTurn lib =
      ({ s with decode := if s.stopFlag then .closing else .pop }, [])) ∨
    (s.decode = .pop ∧ s.out.q = [] ∧ s.out.closed = false ∧ s.decodeTurn lib = (s, [])) ∨
    (s.decode = .pop ∧ s.out.q = [] ∧ s.decodeTurn lib =
      ({ s with decode := .closing }, [.out .empty])) ∨
    (s.decode = .pop ∧ ∃ ef q, s.out.q = ef :: q ∧ s.decodeTurn lib =
      ({ s with out := { s.out with q := q }, decode := .unit ef }, [.out (.popped ef)])) ∨
    (∃ ef ctx', s.decode = .unit ef ∧ s.decodeTurn lib =
      ({ s with ctx := ctx', decode := .test }, [.undecoded ef])) ∨
    (∃ ef ctx' a f, s.decode = .unit ef ∧
      FfmpegDecoder.receive a ef.captureUs ef.wallUs ef.frameId = some f ∧ s.decodeTurn lib =
        ({ s with ctx := ctx', decode := .push f, decodedFrames := s.decodedFrames + 1 },
          [.decoded ef a f])) ∨
    (∃ f, s.decode = .push f ∧ s.decodeTurn lib =
      ({ s with decodedQ := (s.decodedQ.push f).1
                decode := if (s.decodedQ.push f).2.isEmpty then .push f else .test },
        (s.decodedQ.push f).2.map .decodedQ)) ∨
    (s.decode = .closing ∧ s.decodeTurn lib =
      ({ s with decodedQ := s.decodedQ.close, decode := .returned }, [])) ∨
    (s.decode = .returned ∧ s.decodeTurn lib = (s, [])) := by
  rw [decodeTurn]
  cases hphase : s.decode with
  | opening =>
    cases hopen : FfmpegDecoder.openWith lib with
    | error error => exact .inl ⟨rfl, error, rfl, rfl⟩
    | ok ctx => exact .inr (.inl ⟨rfl, ctx, rfl⟩)
  | test => exact .inr (.inr (.inl ⟨rfl, rfl⟩))
  | pop =>
    rcases ThreadSafeQueue.pop_cases s.out with ⟨hq, hc, hpop⟩ | ⟨hq, hc, hpop⟩ | ⟨ef, q, hq, hpop⟩
    · refine .inr (.inr (.inr (.inl ⟨rfl, hq, hc, ?_⟩)))
      simp only [hpop, List.map_nil, ← hphase]
    · refine .inr (.inr (.inr (.inr (.inl ⟨rfl, hq, ?_⟩))))
      simp only [hpop, hc, if_true]
      rfl
    · exact .inr (.inr (.inr (.inr (.inr (.inl ⟨rfl, ef, q, hq, by simp only [hpop]; rfl⟩)))))
  | unit ef =>
    cases hctx : s.ctx with
    | none =>
      refine .inr (.inr (.inr (.inr (.inr (.inr (.inl ⟨ef, s.ctx, rfl, ?_⟩))))))
      simp only [hctx]
    | some ctx =>
      rcases FfmpegDecoder.decode_cases lib ctx ef with ⟨ctx', hd⟩ | ⟨ctx', a, f, hd, hf⟩
      · refine .inr (.inr (.inr (.inr (.inr (.inr (.inl ⟨ef, some ctx', rfl, ?_⟩))))))
        simp only [hd]
      · refine .inr (.inr (.inr (.inr (.inr (.inr (.inr (.inl
          ⟨ef, some ctx', a, f, rfl, hf, ?_⟩)))))))
        simp only [hd]
  | push f => exact .inr (.inr (.inr (.inr (.inr (.inr (.inr (.inr (.inl ⟨f, rfl, rfl⟩))))))))
  | closing => exact .inr (.inr (.inr (.inr (.inr (.inr (.inr (.inr (.inr (.inl ⟨rfl, rfl⟩)))))))))
  | returned => exact .inr (.inr (.inr (.inr (.inr (.inr (.inr (.inr (.inr (.inr ⟨rfl, rfl⟩)))))))))

/-- **A turn of the main thread**: it goes on, shows a frame, sets the flag, or closes the queue. -/
theorem mainTurn_cases (s : ClientMain σ) (opens shouldClose expired : Bool) :
    (∃ m os, s.mainTurn opens shouldClose expired = ({ s with main := m }, os) ∧
      (os = [] ∨ os = [.terminate] ∨ os = [.decodedQ .empty])) ∨
    (s.main = .pop ∧ ∃ f q, s.decodedQ.q = f :: q ∧ s.mainTurn opens shouldClose expired =
      ({ s with decodedQ := { s.decodedQ with q := q }, main := if s.window then .test else .pop
                renderedFrames := s.renderedFrames + 1 },
        .decodedQ (.popped f) :: s.render f)) ∨
    (s.main = .stopping ∧ s.mainTurn opens shouldClose expired =
      ({ s with stopFlag := true, main := .closing }, [])) ∨
    (s.main = .closing ∧ s.mainTurn opens shouldClose expired =
      ({ s with out := s.out.close, main := .joining }, [])) := by
  rw [mainTurn]
  cases hphase : s.main with
  | starting =>
    refine .inl ?_
    cases opens with
    | true => exact ⟨_, _, rfl, .inl rfl⟩
    | false => exact ⟨_, _, rfl, .inr (.inl rfl)⟩
  | test => exact .inl ⟨_, _, rfl, .inl rfl⟩
  | pop =>
    rcases ThreadSafeQueue.popFor_cases s.decodedQ expired with ⟨-, hpop | hpop⟩ | ⟨f, q, hq, hpop⟩
    · exact .inl ⟨.pop, [], by simp only [hpop]; rfl, .inl rfl⟩
    · exact .inl ⟨_, _, by simp only [hpop]; rfl, .inr (.inr rfl)⟩
    · exact .inr (.inl ⟨rfl, f, q, hq, by simp only [hpop]; rfl⟩)
  | stopping => exact .inr (.inr (.inl ⟨rfl, rfl⟩))
  | closing => exact .inr (.inr (.inr ⟨rfl, rfl⟩))
  | joining => exact .inl ⟨_, _, rfl, .inl rfl⟩
  | returned => exact .inl ⟨s.main, _, rfl, .inl rfl⟩
  | terminated => exact .inl ⟨s.main, _, rfl, .inl rfl⟩

/-! ## The order of the frames -/

theorem filterMap_render {β : Type} {g : ClientMainEffect → Option β}
    (hdrawn : ∀ f t, g (.drawn f t) = none) (s : ClientMain σ) (f : Frame) :
    (s.render f).filterMap g = (g (.rendered f)).toList := by
  rw [render]
  cases hf : g (.rendered f) <;> split_ifs <;> simp [hdrawn, hf]

theorem taken_decodeTurn (s : ClientMain σ) :
    (s.decodeTurn lib).2.filterMap handed? = [] ∧
      (s.decodeTurn lib).2.filterMap taken? ++ (s.decodeTurn lib).1.units = s.units := by
  rcases decodeTurn_cases lib s with ⟨hphase, error, -, hturn⟩ | ⟨hphase, ctx, hturn⟩ |
    ⟨hphase, hturn⟩ | ⟨-, -, -, hturn⟩ | ⟨hphase, -, hturn⟩ | ⟨hphase, ef, q, hq, hturn⟩ |
    ⟨ef, ctx', hphase, hturn⟩ | ⟨ef, ctx', a, f, hphase, -, hturn⟩ | ⟨f, hphase, hturn⟩ |
    ⟨hphase, hturn⟩ | ⟨-, hturn⟩
  · rw [hturn]
    simp only [units, hphase]
    exact ⟨rfl, rfl⟩
  · rw [hturn]
    simp only [units, hphase]
    exact ⟨rfl, rfl⟩
  · rw [hturn]
    simp only [units, hphase]
    split_ifs <;> exact ⟨rfl, rfl⟩
  · rw [hturn]
    exact ⟨rfl, rfl⟩
  · rw [hturn]
    simp only [units, hphase]
    exact ⟨rfl, rfl⟩
  · rw [hturn]
    simp only [units, hphase, hq]
    exact ⟨rfl, rfl⟩
  · rw [hturn]
    simp only [units, hphase]
    exact ⟨rfl, rfl⟩
  · rw [hturn]
    simp only [units, hphase]
    exact ⟨rfl, rfl⟩
  · have htaken : ((s.decodedQ.push f).2.map .decodedQ).filterMap taken? = [] :=
      ServerMain.filterMap_map_none (fun _ => rfl) _
    rw [hturn, htaken]
    simp only [units, hphase]
    refine ⟨ServerMain.filterMap_map_none (fun _ => rfl) _, ?_⟩
    split_ifs <;> rfl
  · rw [hturn]
    simp only [units, hphase]
    exact ⟨rfl, rfl⟩
  · rw [hturn]
    exact ⟨rfl, rfl⟩

/-- **One turn keeps the units in order**, and may lose some. -/
theorem units_step (s : ClientMain σ) (t : ClientMainTurn) :
    ((step lib s t).2.filterMap taken? ++ (step lib s t).1.units).Sublist
      (s.units ++ (step lib s t).2.filterMap handed?) := by
  cases t with
  | hand ef =>
    have htaken : ((s.out.push ef).2.map .out).filterMap taken? = [] :=
      ServerMain.filterMap_map_none (fun _ => rfl) _
    have hhanded : ((s.out.push ef).2.map .out).filterMap handed? = [] :=
      ServerMain.filterMap_map_none (fun _ => rfl) _
    simp only [step, hand, List.filterMap_cons, taken?, handed?, htaken, hhanded, units,
      List.nil_append, List.append_assoc]
    exact (List.Sublist.refl _).append
      ((List.sublist_append_left _ _).trans (s.out.sublist_push ef))
  | decode =>
    obtain ⟨hhanded, htaken⟩ := taken_decodeTurn lib s
    rw [step, hhanded, htaken, List.append_nil]
  | main opens shouldClose expired =>
    rw [step]
    rcases mainTurn_cases s opens shouldClose expired with ⟨m, os, hturn, hos⟩ |
      ⟨-, f, q, -, hturn⟩ | ⟨-, hturn⟩ | ⟨-, hturn⟩
    · rw [hturn]
      rcases hos with rfl | rfl | rfl <;> simp [units, taken?, handed?, List.filterMap_cons]
    · rw [hturn]
      simp only [List.filterMap_cons, taken?, handed?]
      rw [filterMap_render (fun _ _ => rfl), filterMap_render (fun _ _ => rfl)]
      simp [units, taken?, handed?]
    · rw [hturn]
      simp [units]
    · rw [hturn]
      simp [units, ThreadSafeQueue.close]

/-- **One turn keeps the frames in order**, and may lose some. -/
theorem frames_step (s : ClientMain σ) (t : ClientMainTurn) :
    ((step lib s t).2.filterMap rendered? ++ (step lib s t).1.frames).Sublist
      (s.frames ++ (step lib s t).2.filterMap decoded?) := by
  cases t with
  | hand ef =>
    have hrendered : ((s.out.push ef).2.map .out).filterMap rendered? = [] :=
      ServerMain.filterMap_map_none (fun _ => rfl) _
    have hdecoded : ((s.out.push ef).2.map .out).filterMap decoded? = [] :=
      ServerMain.filterMap_map_none (fun _ => rfl) _
    simp only [step, hand, List.filterMap_cons, rendered?, decoded?, hrendered, hdecoded, frames,
      List.nil_append, List.append_nil]
    exact List.Sublist.refl _
  | decode =>
    rw [step]
    rcases decodeTurn_cases lib s with ⟨hphase, error, -, hturn⟩ | ⟨hphase, ctx, hturn⟩ |
      ⟨hphase, hturn⟩ | ⟨-, -, -, hturn⟩ | ⟨hphase, -, hturn⟩ | ⟨hphase, ef, q, hq, hturn⟩ |
      ⟨ef, ctx', hphase, hturn⟩ | ⟨ef, ctx', a, f, hphase, -, hturn⟩ | ⟨f, hphase, hturn⟩ |
      ⟨hphase, hturn⟩ | ⟨-, hturn⟩
    · rw [hturn]
      simp [frames, hphase, rendered?, decoded?, DecodePhase.frame?]
    · rw [hturn]
      simp [frames, hphase, DecodePhase.frame?]
    · rw [hturn]
      simp only [frames, hphase]
      split_ifs <;> simp [DecodePhase.frame?]
    · rw [hturn]
      simp
    · rw [hturn]
      simp [frames, hphase, rendered?, decoded?, DecodePhase.frame?]
    · rw [hturn]
      simp [frames, hphase, rendered?, decoded?, DecodePhase.frame?]
    · rw [hturn]
      simp [frames, hphase, rendered?, decoded?, DecodePhase.frame?]
    · rw [hturn]
      simp [frames, hphase, rendered?, decoded?, DecodePhase.frame?]
    · have hrendered : ((s.decodedQ.push f).2.map .decodedQ).filterMap rendered? = [] :=
        ServerMain.filterMap_map_none (fun _ => rfl) _
      have hdecoded : ((s.decodedQ.push f).2.map .decodedQ).filterMap decoded? = [] :=
        ServerMain.filterMap_map_none (fun _ => rfl) _
      have hpush := s.decodedQ.sublist_push f
      rw [hturn, hrendered, hdecoded, List.nil_append, List.append_nil]
      simp only [frames, hphase]
      split_ifs at hpush ⊢ <;> exact hpush
    · rw [hturn]
      simp [frames, hphase, DecodePhase.frame?, ThreadSafeQueue.close]
    · rw [hturn]
      simp
  | main opens shouldClose expired =>
    rw [step]
    rcases mainTurn_cases s opens shouldClose expired with ⟨m, os, hturn, hos⟩ |
      ⟨-, f, q, hq, hturn⟩ | ⟨-, hturn⟩ | ⟨-, hturn⟩
    · rw [hturn]
      rcases hos with rfl | rfl | rfl <;> simp [frames, rendered?, decoded?, List.filterMap_cons]
    · rw [hturn]
      simp only [List.filterMap_cons, rendered?, decoded?]
      rw [filterMap_render (fun _ _ => rfl), filterMap_render (fun _ _ => rfl)]
      simp [frames, hq, rendered?, decoded?]
    · rw [hturn]
      simp [frames]
    · rw [hturn]
      simp [frames]

/-- **What the frame is made of**: it has the label of its unit, and draws the decoder's picture. -/
structure CopyOf (ef : EncodedFrame) (a : AvFrame) (f : Frame) : Prop where
  frameId : f.frameId = ef.frameId
  captureUs : f.captureUs = ef.captureUs
  wallUs : f.wallUs = ef.wallUs
  textures : GlRenderer.draw f = some a.planes

theorem copyOf_of_receive {ef : EncodedFrame} {a : AvFrame} {f : Frame}
    (h : FfmpegDecoder.receive a ef.captureUs ef.wallUs ef.frameId = some f) : CopyOf ef a f := by
  obtain ⟨g, hg, hcapture, hwall, hid, -⟩ :=
    FfmpegDecoder.exists_receive a ef.captureUs ef.wallUs ef.frameId
  obtain rfl := Option.some.inj (h.symm.trans hg)
  exact ⟨hid, hcapture, hwall, GlRenderer.draw_of_receive h⟩

/-- What holds of each effect, in a run with the effects `os`. -/
def Sound (os : List ClientMainEffect) : ClientMainEffect → Prop
  | .decoded ef a f => CopyOf ef a f
  | .drawn f t => t = GlRenderer.draw f ∧ .rendered f ∈ os
  | .overrun _ _ => False
  | _ => True

theorem Sound.mono {os os' : List ClientMainEffect} (hsub : ∀ o ∈ os, o ∈ os')
    {o : ClientMainEffect} (h : Sound os o) : Sound os' o := by
  cases o with
  | drawn f t => exact ⟨h.1, hsub _ h.2⟩
  | _ => exact h

theorem sound_map {α : Type} {c : α → ClientMainEffect} {os' : List ClientMainEffect}
    (h : ∀ x, Sound os' (c x)) (xs : List α) : ∀ o ∈ xs.map c, Sound os' o := by
  intro o ho
  obtain ⟨x, -, rfl⟩ := List.mem_map.1 ho
  exact h x

theorem sound_step (s : ClientMain σ) (t : ClientMainTurn) :
    ∀ o ∈ (step lib s t).2, Sound (step lib s t).2 o := by
  cases t with
  | hand ef =>
    rw [step, hand, List.forall_mem_cons]
    exact ⟨trivial, sound_map (c := .out) (fun _ => trivial) _⟩
  | decode =>
    rw [step]
    rcases decodeTurn_cases lib s with ⟨-, error, -, hturn⟩ | ⟨-, ctx, hturn⟩ | ⟨-, hturn⟩ |
      ⟨-, -, -, hturn⟩ | ⟨-, -, hturn⟩ | ⟨-, ef, q, -, hturn⟩ | ⟨ef, ctx', -, hturn⟩ |
      ⟨ef, ctx', a, f, -, hreceive, hturn⟩ | ⟨f, -, hturn⟩ | ⟨-, hturn⟩ | ⟨-, hturn⟩
    all_goals rw [hturn]
    · simp [Sound]
    · simp
    · simp
    · simp
    · simp [Sound]
    · simp [Sound]
    · simp [Sound]
    · rw [List.forall_mem_singleton]
      exact copyOf_of_receive hreceive
    · exact sound_map (c := .decodedQ) (fun _ => trivial) _
    · simp
    · simp
  | main opens shouldClose expired =>
    rw [step]
    rcases mainTurn_cases s opens shouldClose expired with ⟨m, os, hturn, hos⟩ |
      ⟨-, f, q, -, hturn⟩ | ⟨-, hturn⟩ | ⟨-, hturn⟩
    all_goals rw [hturn]
    · rcases hos with rfl | rfl | rfl <;> simp [Sound]
    · rw [List.forall_mem_cons]
      refine ⟨trivial, fun o ho => ?_⟩
      rw [render] at ho ⊢
      split_ifs at ho ⊢
      · rcases List.mem_append.1 ho with ho | ho
        · rw [List.mem_singleton.1 ho]
          exact ⟨rfl, by simp⟩
        · rw [List.mem_singleton.1 ho]
          trivial
      · rw [List.mem_singleton.1 ho]
        trivial
    · simp
    · simp

theorem sound_trace {s : ClientMain σ} {ts : List ClientMainTurn} :
    ∀ o ∈ Runs.trace (step lib) s ts, Sound (Runs.trace (step lib) s ts) o := by
  intro o ho
  obtain ⟨ts₁, t, ts₂, rfl, ht⟩ := Runs.exists_of_mem_trace ho
  refine (sound_step lib _ t o ht).mono fun o' ho' => ?_
  rw [Runs.trace_append, Runs.trace_cons]
  exact List.mem_append_right _ (List.mem_append_left _ ho')

theorem rendered_sublist (window : Bool) (ts : List ClientMainTurn) :
    ((Runs.trace (step lib) (start window) ts).filterMap rendered?).Sublist
      ((Runs.trace (step lib) (start window) ts).filterMap decoded?) :=
  (List.sublist_append_left _ _).trans
    (Runs.conserved_sublist frames decoded? rendered? (frames_step lib) (start window) ts)

theorem taken_sublist (window : Bool) (ts : List ClientMainTurn) :
    ((Runs.trace (step lib) (start window) ts).filterMap taken?).Sublist
      ((Runs.trace (step lib) (start window) ts).filterMap handed?) :=
  (List.sublist_append_left _ _).trans
    (Runs.conserved_sublist units handed? taken? (units_step lib) (start window) ts)

theorem decodedUnits_sublist (os : List ClientMainEffect) :
    (os.filterMap decodedUnit?).Sublist (os.filterMap taken?) := by
  induction os with
  | nil => exact .slnil
  | cons o os ih =>
    cases o with
    | decoded ef a f => exact ih.cons_cons ef
    | undecoded ef => exact ih.cons ef
    | overrun ef a => exact ih.cons ef
    | _ => exact ih

theorem decoded_of_drawn {window : Bool} {ts : List ClientMainTurn} {f : Frame}
    {t : Option Textures} (h : .drawn f t ∈ Runs.trace (step lib) (start window) ts) :
    ∃ ef a, .decoded ef a f ∈ Runs.trace (step lib) (start window) ts ∧ CopyOf ef a f ∧
      t = some a.planes := by
  obtain ⟨ht, hrendered⟩ := sound_trace lib _ h
  have hmem : f ∈ (Runs.trace (step lib) (start window) ts).filterMap decoded? :=
    (rendered_sublist lib window ts).subset (List.mem_filterMap.2 ⟨_, hrendered, rfl⟩)
  obtain ⟨o, ho, hsome⟩ := List.mem_filterMap.1 hmem
  cases o with
  | decoded ef a g =>
    obtain rfl := Option.some.inj hsome
    have hcopy : CopyOf ef a g := sound_trace lib _ ho
    exact ⟨ef, a, ho, hcopy, ht.trans hcopy.textures⟩
  | _ => cases hsome

/-- **Frames are shown in the order of their units.** Over every run, with a window or without: the
frames that are shown are decoded ones, in order and none twice; the units they were made of are
units that were handed over, in order and none twice, and give them their numbers and their times;
what is drawn are the planes of a picture that the decoder had, the chroma planes cut to half its
size; and no copy leaves its memory. -/
theorem draws_in_order (window : Bool) (ts : List ClientMainTurn) :
    let os := Runs.trace (step lib) (start window) ts
    (os.filterMap rendered?).Sublist (os.filterMap decoded?) ∧
      (os.filterMap decodedUnit?).Sublist (os.filterMap handed?) ∧
      (∀ ef a f, .decoded ef a f ∈ os → CopyOf ef a f) ∧
      (∀ f t, .drawn f t ∈ os → ∃ ef a, .decoded ef a f ∈ os ∧ t = some a.planes) ∧
      ∀ ef a, .overrun ef a ∉ os := by
  intro os
  refine ⟨rendered_sublist lib window ts,
    (decodedUnits_sublist os).trans (taken_sublist lib window ts),
    fun ef a f h => sound_trace lib _ h, fun f t h => ?_, fun ef a h => sound_trace lib _ h⟩
  obtain ⟨ef, a, hdecoded, -, ht⟩ := decoded_of_drawn lib h
  exact ⟨ef, a, hdecoded, ht⟩

/-! ## The books -/

/-- A queue that drops, for `n` elements. -/
structure Drops {α : Type} (q : ThreadSafeQueue α) (n : ℕ) : Prop extends q.Bounded where
  dropOld : q.dropOld = true
  capacity : q.capacity = n

theorem Drops.step {α : Type} {q : ThreadSafeQueue α} {n : ℕ} (h : Drops q n) (i : QueueOp α) :
    Drops (q.step i).1 n where
  toBounded := (ThreadSafeQueue.turn_step h.toBounded i).bounded h.toBounded
  dropOld := (ThreadSafeQueue.dropOld_step q i).trans h.dropOld
  capacity := (ThreadSafeQueue.turn_step h.toBounded i).capacity.trans h.capacity

/-- What such a queue does with an element: it never waits. -/
theorem Drops.push_cases {α : Type} {q : ThreadSafeQueue α} {n : ℕ} (h : Drops q n) (v : α) :
    (q.closed = true ∧ q.push v = (q, [.rejected v])) ∨
    (q.closed = false ∧ q.push v = ({ q with q := q.q ++ [v] }, [.accepted v])) ∨
    (q.closed = false ∧ ∃ w vs, q.q = w :: vs ∧ q.push v =
      ({ q with q := vs ++ [v], dropped := q.dropped + 1 }, [.dropped w, .accepted v])) := by
  rcases ThreadSafeQueue.push_cases q v with ⟨hblocks, -⟩ | ⟨hpush, -⟩
  · rw [h.dropOld] at hblocks
    cases hblocks
  · rw [hpush]
    exact ThreadSafeQueue.tryPush_cases h.toBounded v

theorem drops_fresh {α : Type} {n : ℕ} (hn : 0 < n) :
    Drops ({ capacity := n } : ThreadSafeQueue α) n :=
  ⟨ThreadSafeQueue.bounded_create hn true, rfl, rfl⟩

/-- What the counters say, and where each unit is. -/
structure Books (s : ClientMain σ) (os : List ClientMainEffect) : Prop where
  out : Drops s.out 8
  decodedQ : Drops s.decodedQ 4
  /-- Nothing is pushed into `decoded_q` after its `close`. -/
  last : s.decodedQ.closed = true → s.decode = .returned
  decoded : s.decodedFrames = (os.filterMap decoded?).length
  rendered : s.renderedFrames = (os.filterMap rendered?).length
  units : (os.filterMap handed?).length = s.decodedFrames + (os.filterMap undecoded?).length +
    s.out.dropped + (os.filterMap rejected?).length + s.units.length
  frames : s.decodedFrames = s.renderedFrames + s.decodedQ.dropped + s.frames.length

theorem Books.add {s s' : ClientMain σ} {os os' : List ClientMainEffect} (h : Books s os)
    (hout : Drops s'.out 8) (hdecodedQ : Drops s'.decodedQ 4)
    (hlast : s'.decodedQ.closed = true → s'.decode = .returned)
    (hdecoded : s'.decodedFrames = s.decodedFrames + (os'.filterMap decoded?).length)
    (hrendered : s'.renderedFrames = s.renderedFrames + (os'.filterMap rendered?).length)
    (hunits : (os'.filterMap handed?).length + s.out.dropped + s.units.length =
      (os'.filterMap decoded?).length + (os'.filterMap undecoded?).length + s'.out.dropped +
        (os'.filterMap rejected?).length + s'.units.length)
    (hframes : (os'.filterMap decoded?).length + s.decodedQ.dropped + s.frames.length =
      (os'.filterMap rendered?).length + s'.decodedQ.dropped + s'.frames.length) :
    Books s' (os ++ os') := by
  have hu := h.units
  have hf := h.frames
  refine ⟨hout, hdecodedQ, hlast, ?_, ?_, ?_, ?_⟩
  · rw [hdecoded, h.decoded, List.filterMap_append, List.length_append]
  · rw [hrendered, h.rendered, List.filterMap_append, List.length_append]
  · rw [hdecoded, List.filterMap_append, List.length_append, List.filterMap_append,
      List.length_append, List.filterMap_append, List.length_append]
    omega
  · rw [hdecoded, hrendered]
    omega

theorem Books.hand {s : ClientMain σ} {os : List ClientMainEffect} (h : Books s os)
    (ef : EncodedFrame) : Books (s.hand ef).1 (os ++ (s.hand ef).2) := by
  have hout : Drops (s.out.push ef).1 8 := h.out.step (.push ef)
  rw [ClientMain.hand]
  rcases h.out.push_cases ef with ⟨-, hpush⟩ | ⟨-, hpush⟩ | ⟨-, w, q, hq, hpush⟩
  all_goals
    rw [hpush] at hout
    simp only [hpush]
    refine h.add hout h.decodedQ h.last rfl rfl ?_ rfl
  · simp [ClientMain.units, List.filterMap_cons, handed?, decoded?, undecoded?, rejected?]
    omega
  · simp [ClientMain.units, List.filterMap_cons, handed?, decoded?, undecoded?, rejected?]
    omega
  · simp [ClientMain.units, hq, List.filterMap_cons, handed?, decoded?, undecoded?, rejected?]
    omega

/-- An effect that is in no count. -/
def Quiet (o : ClientMainEffect) : Prop :=
  handed? o = none ∧ decoded? o = none ∧ undecoded? o = none ∧ rejected? o = none ∧
    rendered? o = none

theorem Books.stay {s s' : ClientMain σ} {os os' : List ClientMainEffect} (h : Books s os)
    (hout : s'.out.q = s.out.q ∧ s'.out.dropped = s.out.dropped ∧ Drops s'.out 8)
    (hdecodedQ : s'.decodedQ = s.decodedQ)
    (hlast : s'.decodedQ.closed = true → s'.decode = .returned)
    (hcounts : s'.decodedFrames = s.decodedFrames ∧ s'.renderedFrames = s.renderedFrames)
    (hphase : s'.decode.unit? = s.decode.unit? ∧ s'.decode.frame? = s.decode.frame?)
    (hquiet : ∀ o ∈ os', Quiet o) : Books s' (os ++ os') := by
  have hnone : ∀ {β : Type} {g : ClientMainEffect → Option β}, (∀ o, Quiet o → g o = none) →
      os'.filterMap g = [] := fun hg =>
    List.filterMap_eq_nil_iff.2 fun o ho => hg o (hquiet o ho)
  have hhanded : os'.filterMap handed? = [] := hnone fun _ ho => ho.1
  have hdecoded : os'.filterMap decoded? = [] := hnone fun _ ho => ho.2.1
  have hundecoded : os'.filterMap undecoded? = [] := hnone fun _ ho => ho.2.2.1
  have hrejected : os'.filterMap rejected? = [] := hnone fun _ ho => ho.2.2.2.1
  have hrendered : os'.filterMap rendered? = [] := hnone fun _ ho => ho.2.2.2.2
  refine h.add hout.2.2 (hdecodedQ ▸ h.decodedQ) hlast ?_ ?_ ?_ ?_
  · rw [hdecoded, hcounts.1, List.length_nil, Nat.add_zero]
  · rw [hrendered, hcounts.2, List.length_nil, Nat.add_zero]
  · rw [hhanded, hdecoded, hundecoded, hrejected, hout.2.1, ClientMain.units, ClientMain.units,
      hout.1, hphase.1]
    simp
  · rw [hdecoded, hrendered, ClientMain.frames, ClientMain.frames, hdecodedQ, hphase.2]

theorem Books.push {s : ClientMain σ} {os : List ClientMainEffect} (h : Books s os) {f : Frame}
    (hphase : s.decode = .push f) (hopen : s.decodedQ.closed = false) :
    Books { s with decodedQ := (s.decodedQ.push f).1
                   decode := if (s.decodedQ.push f).2.isEmpty then .push f else .test }
      (os ++ (s.decodedQ.push f).2.map .decodedQ) := by
  have hdq : Drops (s.decodedQ.push f).1 4 := h.decodedQ.step (.push f)
  have hlast : s.decodedQ.closed = true → DecodePhase.test = .returned := fun hc => by
    rw [hopen] at hc
    cases hc
  rcases h.decodedQ.push_cases f with ⟨hc, -⟩ | ⟨-, hpush⟩ | ⟨-, w, fs, hq, hpush⟩
  · rw [hopen] at hc
    cases hc
  all_goals
    rw [hpush] at hdq
    simp only [hpush]
    refine h.add h.out hdq hlast rfl rfl ?_ ?_
  · simp [ClientMain.units, hphase, List.filterMap_cons, handed?, decoded?, undecoded?, rejected?,
      DecodePhase.unit?]
  · simp [ClientMain.frames, hphase, List.filterMap_cons, decoded?, rendered?, DecodePhase.frame?]
  · simp [ClientMain.units, hphase, List.filterMap_cons, handed?, decoded?, undecoded?, rejected?,
      DecodePhase.unit?]
  · simp [ClientMain.frames, hphase, hq, List.filterMap_cons, decoded?, rendered?,
      DecodePhase.frame?]
    omega

theorem Books.decodeTurn {s : ClientMain σ} {os : List ClientMainEffect} (h : Books s os) :
    Books (s.decodeTurn lib).1 (os ++ (s.decodeTurn lib).2) := by
  -- The queue of frames is open as long as the decode thread has not returned.
  have hopen : s.decode ≠ .returned → s.decodedQ.closed = false := fun hphase =>
    Bool.eq_false_iff.2 fun hc => hphase (h.last hc)
  have hlast : s.decode ≠ .returned → ∀ phase : DecodePhase, s.decodedQ.closed = true →
      phase = .returned := fun hphase _ hc => absurd (h.last hc) hphase
  rcases decodeTurn_cases lib s with ⟨hphase, error, -, hturn⟩ | ⟨hphase, ctx, hturn⟩ |
    ⟨hphase, hturn⟩ | ⟨-, -, -, hturn⟩ | ⟨hphase, -, hturn⟩ | ⟨hphase, ef, q, hq, hturn⟩ |
    ⟨ef, ctx', hphase, hturn⟩ | ⟨ef, ctx', a, f, hphase, -, hturn⟩ | ⟨f, hphase, hturn⟩ |
    ⟨hphase, hturn⟩ | ⟨-, hturn⟩
  all_goals rw [hturn]
  · exact h.stay ⟨rfl, rfl, h.out⟩ rfl (fun _ => rfl) ⟨rfl, rfl⟩ (by rw [hphase]; exact ⟨rfl, rfl⟩)
      (by simp [Quiet, handed?, decoded?, undecoded?, rejected?, rendered?])
  · exact h.stay ⟨rfl, rfl, h.out⟩ rfl (hlast (by simp [hphase]) _) ⟨rfl, rfl⟩
      (by rw [hphase]; exact ⟨rfl, rfl⟩) (by simp)
  · refine h.stay ⟨rfl, rfl, h.out⟩ rfl (hlast (by simp [hphase]) _) ⟨rfl, rfl⟩ ?_ (by simp)
    rw [hphase]
    cases s.stopFlag <;> exact ⟨rfl, rfl⟩
  · exact h.stay ⟨rfl, rfl, h.out⟩ rfl h.last ⟨rfl, rfl⟩ ⟨rfl, rfl⟩ (by simp)
  · exact h.stay ⟨rfl, rfl, h.out⟩ rfl (hlast (by simp [hphase]) _) ⟨rfl, rfl⟩
      (by rw [hphase]; exact ⟨rfl, rfl⟩)
      (by simp [Quiet, handed?, decoded?, undecoded?, rejected?, rendered?])
  · have hout : Drops s.out.pop.1 8 := h.out.step .pop
    have hpop : s.out.pop.1 = { s.out with q := q } := by
      simp [ThreadSafeQueue.pop, ThreadSafeQueue.takeFront, hq]
    rw [hpop] at hout
    refine h.add hout h.decodedQ (hlast (by simp [hphase]) _) rfl rfl ?_ ?_
    · simp [ClientMain.units, hphase, hq, List.filterMap_cons, handed?, decoded?, undecoded?,
        rejected?, DecodePhase.unit?]
    · simp [ClientMain.frames, hphase, List.filterMap_cons, decoded?, rendered?, DecodePhase.frame?]
  · refine h.add h.out h.decodedQ (hlast (by simp [hphase]) _) rfl rfl ?_ ?_
    · simp [ClientMain.units, hphase, List.filterMap_cons, handed?, decoded?, undecoded?, rejected?,
        DecodePhase.unit?]
      omega
    · simp [ClientMain.frames, hphase, List.filterMap_cons, decoded?, rendered?, DecodePhase.frame?]
  · refine h.add h.out h.decodedQ (hlast (by simp [hphase]) _) rfl rfl ?_ ?_
    · simp [ClientMain.units, hphase, List.filterMap_cons, handed?, decoded?, undecoded?, rejected?,
        DecodePhase.unit?]
      omega
    · simp [ClientMain.frames, hphase, List.filterMap_cons, decoded?, rendered?, DecodePhase.frame?]
      omega
  · exact h.push hphase (hopen (by simp [hphase]))
  · refine h.add h.out (h.decodedQ.step .close) (fun _ => rfl) rfl rfl ?_ ?_
    · simp [ClientMain.units, hphase, DecodePhase.unit?]
    · simp [ClientMain.frames, hphase, DecodePhase.frame?, ThreadSafeQueue.close]
  · exact h.stay ⟨rfl, rfl, h.out⟩ rfl h.last ⟨rfl, rfl⟩ ⟨rfl, rfl⟩ (by simp)

theorem Books.mainTurn {s : ClientMain σ} {os : List ClientMainEffect} (h : Books s os)
    (opens shouldClose expired : Bool) :
    Books (s.mainTurn opens shouldClose expired).1
      (os ++ (s.mainTurn opens shouldClose expired).2) := by
  rcases mainTurn_cases s opens shouldClose expired with ⟨m, os', hturn, hos⟩ |
    ⟨-, f, q, hq, hturn⟩ | ⟨-, hturn⟩ | ⟨-, hturn⟩
  all_goals rw [hturn]
  · refine h.stay ⟨rfl, rfl, h.out⟩ rfl h.last ⟨rfl, rfl⟩ ⟨rfl, rfl⟩ ?_
    rcases hos with rfl | rfl | rfl <;>
      simp [Quiet, handed?, decoded?, undecoded?, rejected?, rendered?]
  · have hdq : Drops (s.decodedQ.popFor expired).1 4 := h.decodedQ.step (.popFor expired)
    have hpop : (s.decodedQ.popFor expired).1 = { s.decodedQ with q := q } := by
      simp [ThreadSafeQueue.popFor, ThreadSafeQueue.takeFront, hq]
    rw [hpop] at hdq
    have hpick : ∀ {β : Type} {g : ClientMainEffect → Option β}, (∀ f t, g (.drawn f t) = none) →
        g (.decodedQ (.popped f)) = none →
        (.decodedQ (.popped f) :: s.render f).filterMap g = (g (.rendered f)).toList := by
      intro β g hdrawn hpopped
      rw [List.filterMap_cons_none hpopped, filterMap_render hdrawn]
    refine h.add h.out hdq h.last ?_ ?_ ?_ ?_
    · rw [hpick (fun _ _ => rfl) rfl]
      rfl
    · rw [hpick (fun _ _ => rfl) rfl]
      rfl
    · rw [hpick (fun _ _ => rfl) rfl, hpick (fun _ _ => rfl) rfl, hpick (fun _ _ => rfl) rfl,
        hpick (fun _ _ => rfl) rfl]
      simp [ClientMain.units, handed?, decoded?, undecoded?, rejected?]
    · rw [hpick (fun _ _ => rfl) rfl, hpick (fun _ _ => rfl) rfl]
      simp [ClientMain.frames, hq, decoded?, rendered?]
      omega
  · exact h.stay ⟨rfl, rfl, h.out⟩ rfl h.last ⟨rfl, rfl⟩ ⟨rfl, rfl⟩ (by simp)
  · exact h.stay ⟨rfl, rfl, h.out.step .close⟩ rfl h.last ⟨rfl, rfl⟩ ⟨rfl, rfl⟩ (by simp)

theorem Books.step {s : ClientMain σ} {os : List ClientMainEffect} (h : Books s os)
    (t : ClientMainTurn) : Books (step lib s t).1 (os ++ (step lib s t).2) := by
  cases t with
  | hand ef => exact h.hand ef
  | decode => exact h.decodeTurn lib
  | main opens shouldClose expired => exact h.mainTurn opens shouldClose expired

theorem books_start (window : Bool) : Books (start window : ClientMain σ) [] :=
  ⟨drops_fresh (by decide), drops_fresh (by decide), fun h => (nomatch h), rfl, rfl, rfl, rfl⟩

/-- **Every unit is accounted for.** Over every run, the counters say how many frames were decoded
and shown; a unit that was handed over was shown, or failed to decode, or was dropped by one of the
two queues or rejected by the closed one, or it is one of at most thirteen that are on their way. -/
theorem every_unit_accounted (window : Bool) (ts : List ClientMainTurn) :
    let s := Runs.after (step lib) (start window) ts
    let os := Runs.trace (step lib) (start window) ts
    s.decodedFrames = (os.filterMap decoded?).length ∧
      s.renderedFrames = (os.filterMap rendered?).length ∧
      (os.filterMap handed?).length = s.renderedFrames + (os.filterMap undecoded?).length +
        (s.out.dropped + s.decodedQ.dropped) + (os.filterMap rejected?).length +
        (s.units.length + s.frames.length) ∧
      s.units.length + s.frames.length ≤ 13 := by
  intro s os
  have hbooks : Books s os :=
    Runs.history (I := Books) (fun _ _ t h => h.step lib t) (books_start window) ts
  have hunits := hbooks.units
  have hframes := hbooks.frames
  have hout := hbooks.out.size
  have hdecodedQ := hbooks.decodedQ.size
  rw [hbooks.out.capacity] at hout
  rw [hbooks.decodedQ.capacity] at hdecodedQ
  -- The decode thread holds a unit or a frame.
  have hholds : s.decode.unit?.toList.length + s.decode.frame?.toList.length ≤ 1 := by
    cases s.decode <;> simp [DecodePhase.unit?, DecodePhase.frame?]
  refine ⟨hbooks.decoded, hbooks.rendered, ?_, ?_⟩
  · omega
  · rw [ClientMain.units, ClientMain.frames, List.length_append, List.length_append]
    omega

end ClientMain

/-! ## The end -/

/-- How many turns of its own the decode thread still takes once it is to stop. -/
def DecodePhase.turnsLeft : DecodePhase → ℕ
  | .returned => 0
  | .closing => 1
  | .test => 2
  | .push _ | .opening => 3
  | .unit _ => 4
  | .pop => 5

/-- The same of the main thread, once the window is open and is to be closed. -/
def MainPhase.turnsLeft : MainPhase → ℕ
  | .returned => 0
  | .joining => 1
  | .closing => 2
  | .stopping => 3
  | .test => 4
  | .pop => 5
  | .starting | .terminated => 6

namespace ClientMain

variable {σ : Type} (lib : Avcodec σ)

/-- It is the decode thread's turn. -/
def isDecode : ClientMainTurn → Bool
  | .decode => true
  | _ => false

/-- It is the main thread's turn. -/
def isMain : ClientMainTurn → Bool
  | .main _ _ _ => true
  | _ => false

/-- The window is to be closed, and `pop_for` does not wait any longer. -/
def Closes : ClientMainTurn → Prop
  | .main _ shouldClose expired => shouldClose = true ∧ expired = true
  | _ => True

instance : DecidablePred Closes
  | .main _ _ _ => inferInstanceAs (Decidable (_ ∧ _))
  | .hand _ | .decode => inferInstanceAs (Decidable True)

theorem closed_push {α : Type} (q : ThreadSafeQueue α) (v : α) :
    (q.push v).1.closed = q.closed := by
  simp only [ThreadSafeQueue.push, ThreadSafeQueue.insert]
  split_ifs <;> rfl

/-- The decode thread is to stop. -/
structure Stopping (s : ClientMain σ) : Prop where
  stop : s.stopFlag = true
  closed : s.out.closed = true
  dropOld : s.decodedQ.dropOld = true

theorem Stopping.step {s : ClientMain σ} (h : Stopping s) (t : ClientMainTurn) :
    Stopping (step lib s t).1 ∧ (step lib s t).1.decode.turnsLeft ≤
      s.decode.turnsLeft - if isDecode t then 1 else 0 := by
  cases t with
  | hand ef => exact ⟨⟨h.stop, (closed_push s.out ef).trans h.closed, h.dropOld⟩, le_rfl⟩
  | decode =>
    rw [ClientMain.step]
    rcases decodeTurn_cases lib s with ⟨hphase, error, -, hturn⟩ | ⟨hphase, ctx, hturn⟩ |
      ⟨hphase, hturn⟩ | ⟨-, -, hopen, -⟩ | ⟨hphase, -, hturn⟩ | ⟨hphase, ef, q, -, hturn⟩ |
      ⟨ef, ctx', hphase, hturn⟩ | ⟨ef, ctx', a, f, hphase, -, hturn⟩ | ⟨f, hphase, hturn⟩ |
      ⟨hphase, hturn⟩ | ⟨hphase, hturn⟩
    · rw [hturn, hphase]
      exact ⟨⟨rfl, h.closed, h.dropOld⟩, Nat.zero_le _⟩
    · rw [hturn, hphase]
      exact ⟨⟨h.stop, h.closed, h.dropOld⟩, le_rfl⟩
    · rw [hturn, hphase, if_pos h.stop]
      exact ⟨⟨h.stop, h.closed, h.dropOld⟩, le_rfl⟩
    · rw [h.closed] at hopen
      cases hopen
    · rw [hturn, hphase]
      exact ⟨⟨h.stop, h.closed, h.dropOld⟩, Nat.le_of_ble_eq_true rfl⟩
    · rw [hturn, hphase]
      exact ⟨⟨h.stop, h.closed, h.dropOld⟩, le_rfl⟩
    · rw [hturn, hphase]
      exact ⟨⟨h.stop, h.closed, h.dropOld⟩, Nat.le_of_ble_eq_true rfl⟩
    · rw [hturn, hphase]
      exact ⟨⟨h.stop, h.closed, h.dropOld⟩, le_rfl⟩
    · have hreturns : (s.decodedQ.push f).2.isEmpty = false := by
        rcases ThreadSafeQueue.push_cases s.decodedQ f with ⟨hblocks, -⟩ | ⟨-, hreturns⟩
        · rw [h.dropOld] at hblocks
          cases hblocks
        · exact hreturns
      rw [hturn, hphase, if_neg (by rw [hreturns]; exact Bool.false_ne_true)]
      exact ⟨⟨h.stop, h.closed,
        (ThreadSafeQueue.dropOld_step s.decodedQ (.push f)).trans h.dropOld⟩, le_rfl⟩
    · rw [hturn, hphase]
      exact ⟨⟨h.stop, h.closed, h.dropOld⟩, le_rfl⟩
    · rw [hturn, hphase]
      exact ⟨h, le_rfl⟩
  | main opens shouldClose expired =>
    rw [ClientMain.step]
    rcases mainTurn_cases s opens shouldClose expired with ⟨m, os, hturn, -⟩ |
      ⟨-, f, q, -, hturn⟩ | ⟨-, hturn⟩ | ⟨-, hturn⟩
    all_goals rw [hturn]
    · exact ⟨⟨h.stop, h.closed, h.dropOld⟩, le_rfl⟩
    · exact ⟨⟨h.stop, h.closed, h.dropOld⟩, le_rfl⟩
    · exact ⟨⟨rfl, h.closed, h.dropOld⟩, le_rfl⟩
    · exact ⟨⟨h.stop, rfl, h.dropOld⟩, le_rfl⟩

/-- What the main thread has done by where it is, on its way out. -/
structure Ended (s : ClientMain σ) : Prop where
  stop : s.main.turnsLeft ≤ 2 → s.stopFlag = true
  closed : s.main.turnsLeft ≤ 1 → s.out.closed = true
  joined : s.main.turnsLeft = 0 → s.decode = .returned

theorem Ended.decodeTurn {s : ClientMain σ} (h : Ended s) : Ended (s.decodeTurn lib).1 := by
  -- A thread that has returned takes no turn.
  have hjoined : s.decode ≠ .returned → s.main.turnsLeft ≠ 0 := fun hphase hzero =>
    hphase (h.joined hzero)
  rcases decodeTurn_cases lib s with ⟨hphase, error, -, hturn⟩ | ⟨hphase, ctx, hturn⟩ |
    ⟨hphase, hturn⟩ | ⟨-, -, -, hturn⟩ | ⟨hphase, -, hturn⟩ | ⟨hphase, ef, q, -, hturn⟩ |
    ⟨ef, ctx', hphase, hturn⟩ | ⟨ef, ctx', a, f, hphase, -, hturn⟩ | ⟨f, hphase, hturn⟩ |
    ⟨hphase, hturn⟩ | ⟨-, hturn⟩
  all_goals rw [hturn]
  · exact ⟨fun _ => rfl, h.closed, fun _ => rfl⟩
  · exact ⟨h.stop, h.closed, fun hzero => absurd hzero (hjoined (by simp [hphase]))⟩
  · exact ⟨h.stop, h.closed, fun hzero => absurd hzero (hjoined (by simp [hphase]))⟩
  · exact h
  · exact ⟨h.stop, h.closed, fun hzero => absurd hzero (hjoined (by simp [hphase]))⟩
  · exact ⟨h.stop, h.closed, fun hzero => absurd hzero (hjoined (by simp [hphase]))⟩
  · exact ⟨h.stop, h.closed, fun hzero => absurd hzero (hjoined (by simp [hphase]))⟩
  · exact ⟨h.stop, h.closed, fun hzero => absurd hzero (hjoined (by simp [hphase]))⟩
  · exact ⟨h.stop, h.closed, fun hzero => absurd hzero (hjoined (by simp [hphase]))⟩
  · exact ⟨h.stop, h.closed, fun _ => rfl⟩
  · exact h

theorem ended_of_lt {s : ClientMain σ} (h : 2 < s.main.turnsLeft) : Ended s where
  stop hle := absurd hle (Nat.not_le.2 h)
  closed hle := absurd hle (by omega)
  joined hzero := absurd hzero (by omega)

theorem Ended.mainTurn {s : ClientMain σ} (h : Ended s) (opens shouldClose expired : Bool) :
    Ended (s.mainTurn opens shouldClose expired).1 := by
  rw [ClientMain.mainTurn]
  cases hphase : s.main with
  | starting =>
    cases opens with
    | true => exact ended_of_lt (by simp [MainPhase.turnsLeft])
    | false => exact ended_of_lt (by simp [MainPhase.turnsLeft])
  | test =>
    refine ended_of_lt ?_
    show 2 < MainPhase.turnsLeft (if shouldClose || s.stopFlag then .stopping else .pop)
    split_ifs <;> decide
  | pop =>
    rcases ThreadSafeQueue.popFor_cases s.decodedQ expired with ⟨-, hpop | hpop⟩ | ⟨f, q, -, hpop⟩
    · simp only [hpop]
      exact ended_of_lt (by simp [MainPhase.turnsLeft])
    · simp only [hpop]
      -- Without a window the loop is left if the flag is set.
      by_cases hleaves : s.window = false ∧ s.stopFlag = true
      · exact {
          stop := fun _ => hleaves.2
          closed := fun hle => by simp [hleaves, MainPhase.turnsLeft] at hle
          joined := fun hzero => by simp [hleaves, MainPhase.turnsLeft] at hzero }
      · refine ended_of_lt ?_
        show 2 < MainPhase.turnsLeft
          (if s.window then .test else if s.stopFlag then .closing else .pop)
        split_ifs with hwindow hstop
        · decide
        · exact absurd ⟨Bool.eq_false_iff.2 hwindow, hstop⟩ hleaves
        · decide
    · simp only [hpop]
      refine ended_of_lt ?_
      show 2 < MainPhase.turnsLeft (if s.window then .test else .pop)
      split_ifs <;> decide
  | stopping =>
    exact {
      stop := fun _ => rfl
      closed := fun hle => absurd hle (by simp [MainPhase.turnsLeft])
      joined := fun hzero => absurd hzero (by simp [MainPhase.turnsLeft]) }
  | closing =>
    exact {
      stop := fun _ => h.stop (by rw [hphase]; decide)
      closed := fun _ => rfl
      joined := fun hzero => absurd hzero (by simp [MainPhase.turnsLeft]) }
  | joining =>
    have hstop : s.stopFlag = true := h.stop (by rw [hphase]; decide)
    have hclosed : s.out.closed = true := h.closed (by rw [hphase]; decide)
    refine ⟨fun _ => hstop, fun _ => hclosed, fun hzero => ?_⟩
    by_contra hphase'
    simp only [if_neg hphase', MainPhase.turnsLeft] at hzero
    cases hzero
  | returned => exact h
  | terminated => exact h

theorem Ended.step {s : ClientMain σ} (h : Ended s) (t : ClientMainTurn) :
    Ended (step lib s t).1 := by
  cases t with
  | hand ef => exact ⟨h.stop, fun hle => (closed_push s.out ef).trans (h.closed hle), h.joined⟩
  | decode => exact h.decodeTurn lib
  | main opens shouldClose expired => exact h.mainTurn opens shouldClose expired

theorem main_decodeTurn (s : ClientMain σ) :
    (s.decodeTurn lib).1.window = s.window ∧ (s.decodeTurn lib).1.main = s.main := by
  rcases decodeTurn_cases lib s with ⟨-, error, -, hturn⟩ | ⟨-, ctx, hturn⟩ | ⟨-, hturn⟩ |
    ⟨-, -, -, hturn⟩ | ⟨-, -, hturn⟩ | ⟨-, ef, q, -, hturn⟩ | ⟨ef, ctx', -, hturn⟩ |
    ⟨ef, ctx', a, f, -, -, hturn⟩ | ⟨f, -, hturn⟩ | ⟨-, hturn⟩ | ⟨-, hturn⟩
  all_goals rw [hturn]; exact ⟨rfl, rfl⟩

/-- The window is open, or was. -/
structure Opened (s : ClientMain σ) : Prop where
  window : s.window = true
  main : s.main.turnsLeft ≤ 5

theorem Opened.step {s : ClientMain σ} (h : Opened s) {t : ClientMainTurn} (ht : Closes t) :
    Opened (step lib s t).1 ∧ (step lib s t).1.main.turnsLeft - 1 ≤
      s.main.turnsLeft - 1 - if isMain t then 1 else 0 := by
  cases t with
  | hand ef => exact ⟨⟨h.window, h.main⟩, le_rfl⟩
  | decode =>
    have hsame := main_decodeTurn lib s
    rw [ClientMain.step, hsame.2]
    exact ⟨⟨hsame.1.trans h.window, hsame.2 ▸ h.main⟩, le_rfl⟩
  | main opens shouldClose expired =>
    obtain ⟨hclose, hexpired⟩ : shouldClose = true ∧ expired = true := ht
    rw [ClientMain.step, mainTurn, hclose, hexpired]
    cases hphase : s.main with
    | starting => exact absurd h.main (by rw [hphase]; decide)
    | test =>
      exact ⟨⟨h.window, by simp [MainPhase.turnsLeft]⟩, by simp [MainPhase.turnsLeft, isMain]⟩
    | pop =>
      cases hq : s.decodedQ.q with
      | nil =>
        have hpop : s.decodedQ.popFor true = (s.decodedQ, [.empty]) := by
          simp [ThreadSafeQueue.popFor, ThreadSafeQueue.takeFront, hq]
        simp only [hpop, h.window, if_true]
        exact ⟨⟨rfl, by simp [MainPhase.turnsLeft]⟩, by simp [MainPhase.turnsLeft, isMain]⟩
      | cons f q =>
        have hpop : s.decodedQ.popFor true = ({ s.decodedQ with q := q }, [.popped f]) := by
          simp [ThreadSafeQueue.popFor, ThreadSafeQueue.takeFront, hq]
        simp only [hpop, h.window, if_true]
        exact ⟨⟨rfl, by simp [MainPhase.turnsLeft]⟩, by simp [MainPhase.turnsLeft, isMain]⟩
    | stopping =>
      exact ⟨⟨h.window, by simp [MainPhase.turnsLeft]⟩, by simp [MainPhase.turnsLeft, isMain]⟩
    | closing =>
      exact ⟨⟨h.window, by simp [MainPhase.turnsLeft]⟩, by simp [MainPhase.turnsLeft, isMain]⟩
    | joining =>
      by_cases hdecode : s.decode = .returned
      · simp only [if_pos hdecode]
        exact ⟨⟨h.window, by simp [MainPhase.turnsLeft]⟩, by simp [MainPhase.turnsLeft]⟩
      · simp only [if_neg hdecode]
        exact ⟨⟨h.window, by simp [MainPhase.turnsLeft]⟩, by simp [MainPhase.turnsLeft]⟩
    | returned => exact ⟨h, by simp [hphase, MainPhase.turnsLeft]⟩
    | terminated => exact absurd h.main (by rw [hphase]; decide)

/-- A picture of two by two pixels, with padded rows. -/
def gray (b : UInt8) : AvFrame where
  width := 2
  height := 2
  y := ⟨[b, b + 1, 0, b + 2, b + 3, 0], 3⟩
  u := ⟨[b, 0], 2⟩
  v := ⟨[b, 0], 2⟩
  width_pos := Nat.two_pos
  height_pos := Nat.two_pos
  size_lt := by decide
  holds_y := ⟨Nat.le_succ 2, Nat.le_refl 6⟩
  holds_u := ⟨Nat.le_succ 1, Nat.le_refl 2⟩
  holds_v := ⟨Nat.le_succ 1, Nat.le_refl 2⟩

/-- A decoder that paints the first byte of each packet. -/
def painter : Avcodec UInt8 where
  findDecoder := true
  allocContext3 := some 0
  open2 ctx := (0, ctx)
  packetAlloc := true
  frameAlloc := true
  eagain := -11
  sendPacket _ data _ _ := (0, data.headD 0)
  receiveFrame ctx := (some (gray ctx), ctx)

example : (Runs.trace (step painter) (start true)
    [.decode, .decode, .main true false false, .hand { frameId := 5, data := [7] }, .decode,
      .decode, .decode, .main false false false, .main false false false]).filterMap (fun
        | .drawn f t => some (f.frameId, t.map (·.y))
        | _ => none) = [(5, some [[7, 8], [9, 10]])] := by
  decide +kernel

/-- What holds of a client without a window, with the effects of its run so far. -/
structure Headless (s : ClientMain σ) (os : List ClientMainEffect) : Prop where
  window : s.window = false
  main : s.main = .pop ∨ s.main.turnsLeft ≤ 2
  stop : s.main.turnsLeft ≤ 2 → s.stopFlag = true
  failed : s.stopFlag = true → s.decode = .returned ∧
    ∃ error, FfmpegDecoder.openWith lib = .error error ∧ .openFailed error ∈ os
  decoded : s.decode = .opening ∨ s.stopFlag = true → os.filterMap decoded? = []

theorem Headless.stay {s s' : ClientMain σ} {os os' : List ClientMainEffect} (h : Headless lib s os)
    (hsame : s'.window = s.window ∧ s'.decode = s.decode ∧ s'.stopFlag = s.stopFlag)
    (hmain : s'.main = .pop ∨ s'.main.turnsLeft ≤ 2)
    (hstop : s'.main.turnsLeft ≤ 2 → s.stopFlag = true)
    (hdecoded : os'.filterMap decoded? = []) : Headless lib s' (os ++ os') := by
  obtain ⟨hwindow, hdecode, hflag⟩ := hsame
  refine ⟨hwindow.trans h.window, hmain, fun hle => hflag.trans (hstop hle), fun hset => ?_,
    fun hfirst => ?_⟩
  · obtain ⟨hreturned, error, herror, hmem⟩ := h.failed (hflag.symm.trans hset)
    exact ⟨hdecode.trans hreturned, error, herror, List.mem_append_left _ hmem⟩
  · rw [hdecode, hflag] at hfirst
    rw [List.filterMap_append, h.decoded hfirst, hdecoded, List.append_nil]

theorem Headless.decodeTurn {s : ClientMain σ} {os : List ClientMainEffect}
    (h : Headless lib s os) : Headless lib (s.decodeTurn lib).1 (os ++ (s.decodeTurn lib).2) := by
  -- While the decode thread runs, the flag is not set.
  have hrunning : s.decode ≠ .returned → s.stopFlag = false := fun hphase =>
    Bool.eq_false_iff.2 fun hset => hphase (h.failed hset).1
  have hgoes : ∀ {s' : ClientMain σ} {os' : List ClientMainEffect}, s.stopFlag = false →
      s'.window = s.window ∧ s'.main = s.main ∧ s'.stopFlag = s.stopFlag → s'.decode ≠ .opening →
      Headless lib s' (os ++ os') := by
    rintro s' os' hclear ⟨hwindow, hmain, hflag⟩ hphase
    have hclear' : s'.stopFlag ≠ true := by
      rw [hflag, hclear]
      exact Bool.false_ne_true
    refine ⟨hwindow.trans h.window, hmain ▸ h.main, fun hle => ?_, fun hset => absurd hset hclear',
      fun hfirst => ?_⟩
    · rw [hmain] at hle
      exact hflag.trans (h.stop hle)
    · exact (hfirst.elim hphase hclear').elim
  rcases decodeTurn_cases lib s with ⟨hphase, error, herror, hturn⟩ | ⟨hphase, ctx, hturn⟩ |
    ⟨hphase, hturn⟩ | ⟨hphase, -, -, hturn⟩ | ⟨hphase, -, hturn⟩ | ⟨hphase, ef, q, -, hturn⟩ |
    ⟨ef, ctx', hphase, hturn⟩ | ⟨ef, ctx', a, f, hphase, -, hturn⟩ | ⟨f, hphase, hturn⟩ |
    ⟨hphase, hturn⟩ | ⟨-, hturn⟩
  all_goals rw [hturn]
  · refine ⟨h.window, h.main, fun _ => rfl, fun _ => ⟨rfl, error, herror, by simp⟩, fun _ => ?_⟩
    rw [List.filterMap_append, h.decoded (.inl hphase)]
    rfl
  · exact hgoes (hrunning (by simp [hphase])) ⟨rfl, rfl, rfl⟩ (by simp)
  · refine hgoes (hrunning (by simp [hphase])) ⟨rfl, rfl, rfl⟩ ?_
    show (if s.stopFlag then DecodePhase.closing else .pop) ≠ .opening
    split_ifs <;> simp
  · exact hgoes (hrunning (by simp [hphase])) ⟨rfl, rfl, rfl⟩ (by simp [hphase])
  · exact hgoes (hrunning (by simp [hphase])) ⟨rfl, rfl, rfl⟩ (by simp)
  · exact hgoes (hrunning (by simp [hphase])) ⟨rfl, rfl, rfl⟩ (by simp)
  · exact hgoes (hrunning (by simp [hphase])) ⟨rfl, rfl, rfl⟩ (by simp)
  · exact hgoes (hrunning (by simp [hphase])) ⟨rfl, rfl, rfl⟩ (by simp)
  · refine hgoes (hrunning (by simp [hphase])) ⟨rfl, rfl, rfl⟩ ?_
    show (if (s.decodedQ.push f).2.isEmpty then DecodePhase.push f else .test) ≠ .opening
    split_ifs <;> simp
  · exact hgoes (hrunning (by simp [hphase])) ⟨rfl, rfl, rfl⟩ (by simp)
  · exact h.stay lib ⟨rfl, rfl, rfl⟩ h.main h.stop rfl

theorem Headless.mainTurn {s : ClientMain σ} {os : List ClientMainEffect} (h : Headless lib s os)
    (opens shouldClose expired : Bool) :
    Headless lib (s.mainTurn opens shouldClose expired).1
      (os ++ (s.mainTurn opens shouldClose expired).2) := by
  rw [ClientMain.mainTurn]
  cases hphase : s.main with
  | pop =>
    have hshown : ∀ f, (s.render f).filterMap decoded? = [] := fun f => by
      rw [filterMap_render (fun _ _ => rfl)]
      rfl
    rcases ThreadSafeQueue.popFor_cases s.decodedQ expired with ⟨-, hpop | hpop⟩ | ⟨f, q, -, hpop⟩
    · simp only [hpop]
      exact h.stay lib ⟨rfl, rfl, rfl⟩ (.inl rfl)
        (fun hle => absurd hle (by simp [MainPhase.turnsLeft])) rfl
    · simp only [hpop]
      by_cases hset : s.stopFlag = true
      · refine h.stay lib ⟨rfl, rfl, rfl⟩ (.inr ?_) (fun _ => hset) rfl
        simp [h.window, hset, MainPhase.turnsLeft]
      · refine h.stay lib ⟨rfl, rfl, rfl⟩ (.inl ?_) (fun hle => ?_) rfl
        · simp [h.window, hset]
        · simp [h.window, hset, MainPhase.turnsLeft] at hle
    · simp only [hpop]
      refine h.stay lib ⟨rfl, rfl, rfl⟩ (.inl ?_) (fun hle => ?_) ?_
      · simp [h.window]
      · simp [h.window, MainPhase.turnsLeft] at hle
      · rw [List.filterMap_append, hshown]
        rfl
  | closing =>
    have hset : s.stopFlag = true := h.stop (by rw [hphase]; decide)
    exact h.stay lib ⟨rfl, rfl, rfl⟩ (.inr (by simp [MainPhase.turnsLeft])) (fun _ => hset) rfl
  | joining =>
    have hset : s.stopFlag = true := h.stop (by rw [hphase]; decide)
    refine h.stay lib ⟨rfl, rfl, rfl⟩ (.inr ?_) (fun _ => hset) rfl
    show MainPhase.turnsLeft (if s.decode = .returned then .returned else .joining) ≤ 2
    split_ifs <;> decide
  | returned => exact h.stay lib ⟨rfl, rfl, rfl⟩ h.main h.stop rfl
  | starting | test | stopping | terminated =>
    have hmain := h.main
    rw [hphase] at hmain
    exact absurd hmain (by decide)

theorem Headless.step {s : ClientMain σ} {os : List ClientMainEffect} (h : Headless lib s os)
    (t : ClientMainTurn) : Headless lib (step lib s t).1 (os ++ (step lib s t).2) := by
  cases t with
  | hand ef =>
    refine h.stay lib ⟨rfl, rfl, rfl⟩ h.main h.stop ?_
    exact ServerMain.filterMap_map_none (c := ClientMainEffect.out) (fun _ => rfl) (s.out.push ef).2
  | decode => exact h.decodeTurn lib
  | main opens shouldClose expired => exact h.mainTurn lib opens shouldClose expired

theorem headless_start : Headless lib (start false : ClientMain σ) [] :=
  ⟨rfl, .inl rfl, fun hle => absurd hle (by simp [start, MainPhase.turnsLeft]),
    fun hset => (nomatch hset), fun _ => rfl⟩

/-- **Without a window the client does not end.** Over every run, the main thread is in its loop, or
the decoder could not be opened; and then nothing was ever shown, so the summary behind the loop
only says so. -/
theorem headless_never_ends (ts : List ClientMainTurn) :
    let s := Runs.after (step lib) (start false) ts
    let os := Runs.trace (step lib) (start false) ts
    s.main = .pop ∨ (∃ error, FfmpegDecoder.openWith lib = .error error ∧ .openFailed error ∈ os) ∧
      os.filterMap rendered? = [] ∧ s.decodedFrames = 0 := by
  intro s os
  have hheadless : Headless lib s os :=
    Runs.history (I := Headless lib) (fun _ _ t h => h.step lib t) (headless_start lib) ts
  rcases hheadless.main with hpop | hleft
  · exact .inl hpop
  · have hset := hheadless.stop hleft
    have hnone := hheadless.decoded (.inr hset)
    have hbooks : Books s os :=
      Runs.history (I := Books) (fun _ _ t h => h.step lib t) (books_start false) ts
    refine .inr ⟨(hheadless.failed hset).2, ?_, ?_⟩
    · exact List.sublist_nil.1 (hnone ▸ rendered_sublist lib false ts)
    · rw [hbooks.decoded, hnone]
      rfl

end ClientMain

end Rtstream
