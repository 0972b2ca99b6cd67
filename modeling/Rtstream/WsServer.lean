import Rtstream.MediaTypes
import Rtstream.Lib.Framing
import Mathlib.Tactic.Common

/-!
# `ws_server.h`: what a client sends

Each client has a thread that puts what it receives behind a buffer and takes WebSocket frames
off the front of it. A ping is answered, a close ends the loop, and text and binary messages are
put together from their frames.

`reader` is the frame parser as a `Framing.Reader`, so how the stream is cut plays no role.
-/

namespace Rtstream

/-- A frame, unmasked. -/
structure WsFrame where
  fin : Bool
  opcode : UInt8
  payload : Bytes
  deriving DecidableEq, Repr

/-- What one pass of the parser ends with. -/
inductive WsRead
  | frame (f : WsFrame)
  /-- `hdr + len` has wrapped: the payload's range is not one of the buffer. -/
  | wrapped
  deriving DecidableEq, Repr

/-- What a client's thread does. -/
inductive WsEffect
  | onMessage (text : Bytes)
  | send (bytes : Bytes)
  /-- A range outside the buffer is used. -/
  | outOfRange
  deriving DecidableEq, Repr

structure WsServer where
  /-- `set_on_message` was called. -/
  onMessage : Bool
  deriving DecidableEq, Repr

/-- What a client's thread keeps from one frame to the next. -/
structure WsSession where
  alive : Bool := true
  curOpcode : UInt8 := 0
  msg : Bytes := []
  deriving DecidableEq, Repr

namespace WsServer

/-! ## The parser -/

/-- The payload's length, and the header's length without the mask. -/
def lenField (buf : Bytes) : Option (ℕ × ℕ) :=
  let len := (buf.getD 1 0 &&& 0x7F).toNat
  if len = 126 then
    if buf.length < 4 then none else some (BigEndian.load (Slices.slice buf 2 2), 4)
  else if len = 127 then
    if buf.length < 10 then none else some (BigEndian.load (Slices.slice buf 2 8), 10)
  else some (len, 2)

def isMasked (buf : Bytes) : Bool := buf.getD 1 0 &&& 0x80 != 0

/-- The mask, and the header's length with it. -/
def maskField (buf : Bytes) (hdr : ℕ) : Option (Bytes × ℕ) :=
  if isMasked buf then
    if buf.length < hdr + 4 then none else some (Slices.slice buf hdr 4, hdr + 4)
  else some (List.replicate 4 0, hdr)

def unmask (mask payload : Bytes) : Bytes := payload.mapIdx fun i b => b ^^^ mask.getD (i % 4) 0

/-- The frame of `len` bytes behind a header of `hdr` bytes. -/
def frameAt (buf mask : Bytes) (len hdr : ℕ) : WsFrame where
  fin := buf.getD 0 0 &&& 0x80 != 0
  opcode := buf.getD 0 0 &&& 0x0F
  payload :=
    let payload := Slices.slice buf hdr len
    if isMasked buf then unmask mask payload else payload

/-- That frame, if it is complete. The sum `hdr + len` is a 64-bit one. -/
def payloadField (buf mask : Bytes) (len hdr : ℕ) : Option (WsRead × Bytes) :=
  if buf.length < (hdr + len) % 2 ^ 64 then none
  else if hdr + len < 2 ^ 64 then some (.frame (frameAt buf mask len hdr), buf.drop (hdr + len))
  else some (.wrapped, buf.drop hdr)

/-- One pass of the parser. -/
def nextFrame (buf : Bytes) : Option (WsRead × Bytes) :=
  if buf.length < 2 then none
  else do
    let (len, hdr) ← lenField buf
    let (mask, hdr) ← maskField buf hdr
    payloadField buf mask len hdr

/-! ## The parser waits for what it needs, and for no more -/

variable {buf : Bytes}

theorem getD_append_left {i : ℕ} (h : i < buf.length) (more : Bytes) :
    (buf ++ more).getD i 0 = buf.getD i 0 := by
  simp [List.getD_eq_getElem?_getD, List.getElem?_append_left h]

theorem slice_append_left {off len : ℕ} (h : off + len ≤ buf.length) (more : Bytes) :
    Slices.slice (buf ++ more) off len = Slices.slice buf off len := by
  rw [Slices.slice, Slices.slice, List.drop_append_of_le_length (by omega),
    List.take_append_of_le_length (by rw [List.length_drop]; omega)]

/-- What the header's length can be, and that it does not depend on later bytes. -/
theorem lenField_spec (hbuf : 2 ≤ buf.length) {len hdr : ℕ} (h : lenField buf = some (len, hdr)) :
    2 ≤ hdr ∧ hdr ≤ buf.length ∧ ∀ more, lenField (buf ++ more) = some (len, hdr) := by
  have hone : ∀ more, (buf ++ more).getD 1 0 = buf.getD 1 0 := getD_append_left (by omega)
  simp only [lenField] at h
  split_ifs at h with h126 hlt h127 hlt
  · obtain ⟨rfl, rfl⟩ := Prod.mk.inj (Option.some.inj h)
    refine ⟨by omega, by omega, fun more => ?_⟩
    rw [lenField, hone, if_pos h126, if_neg (by rw [List.length_append]; omega),
      slice_append_left (by omega)]
  · obtain ⟨rfl, rfl⟩ := Prod.mk.inj (Option.some.inj h)
    refine ⟨by omega, by omega, fun more => ?_⟩
    rw [lenField, hone, if_neg h126, if_pos h127, if_neg (by rw [List.length_append]; omega),
      slice_append_left (by omega)]
  · obtain ⟨rfl, rfl⟩ := Prod.mk.inj (Option.some.inj h)
    refine ⟨le_rfl, hbuf, fun more => ?_⟩
    rw [lenField, hone, if_neg h126, if_neg h127]

theorem isMasked_append (hbuf : 2 ≤ buf.length) (more : Bytes) :
    isMasked (buf ++ more) = isMasked buf := by
  rw [isMasked, getD_append_left (by omega), isMasked]

theorem maskField_spec (hbuf : 2 ≤ buf.length) {mask : Bytes} {hdr hdr' : ℕ}
    (hle : hdr ≤ buf.length) (h : maskField buf hdr = some (mask, hdr')) :
    hdr ≤ hdr' ∧ hdr' ≤ buf.length ∧ ∀ more, maskField (buf ++ more) hdr = some (mask, hdr') := by
  simp only [maskField] at h
  split_ifs at h with hmasked hlt
  · obtain ⟨rfl, rfl⟩ := Prod.mk.inj (Option.some.inj h)
    refine ⟨by omega, by omega, fun more => ?_⟩
    rw [maskField, isMasked_append hbuf, if_pos hmasked,
      if_neg (by rw [List.length_append]; omega), slice_append_left (by omega)]
  · obtain ⟨rfl, rfl⟩ := Prod.mk.inj (Option.some.inj h)
    refine ⟨le_rfl, hle, fun more => ?_⟩
    rw [maskField, isMasked_append hbuf, if_neg hmasked]

theorem frameAt_append (hbuf : 2 ≤ buf.length) {mask : Bytes} {len hdr : ℕ}
    (h : hdr + len ≤ buf.length) (more : Bytes) :
    frameAt (buf ++ more) mask len hdr = frameAt buf mask len hdr := by
  simp only [frameAt, isMasked_append hbuf, slice_append_left h,
    getD_append_left (by omega : 0 < buf.length)]

theorem payloadField_spec (hbuf : 2 ≤ buf.length) {mask rest : Bytes} {len hdr : ℕ} {x : WsRead}
    (htwo : 2 ≤ hdr) (hle : hdr ≤ buf.length) (h : payloadField buf mask len hdr = some (x, rest)) :
    rest.length < buf.length ∧
      ∀ more, payloadField (buf ++ more) mask len hdr = some (x, rest ++ more) := by
  simp only [payloadField] at h
  split_ifs at h with hshort hwrap
  · obtain ⟨rfl, rfl⟩ := Prod.mk.inj (Option.some.inj h)
    rw [Nat.mod_eq_of_lt hwrap] at hshort
    refine ⟨by rw [List.length_drop]; omega, fun more => ?_⟩
    rw [payloadField, if_neg (by rw [Nat.mod_eq_of_lt hwrap, List.length_append]; omega),
      if_pos hwrap, frameAt_append hbuf (by omega), List.drop_append_of_le_length (by omega)]
  · obtain ⟨rfl, rfl⟩ := Prod.mk.inj (Option.some.inj h)
    refine ⟨by rw [List.length_drop]; omega, fun more => ?_⟩
    rw [payloadField, if_neg (by rw [List.length_append]; omega), if_neg hwrap,
      List.drop_append_of_le_length hle]

theorem nextFrame_eq_some {x : WsRead} {rest : Bytes} (h : nextFrame buf = some (x, rest)) :
    2 ≤ buf.length ∧ ∃ len hdr mask hdr', lenField buf = some (len, hdr) ∧
      maskField buf hdr = some (mask, hdr') ∧ payloadField buf mask len hdr' = some (x, rest) := by
  unfold nextFrame at h
  split_ifs at h with hbuf
  simp only [Option.bind_eq_bind, Option.bind_eq_some_iff] at h
  obtain ⟨⟨len, hdr⟩, hlen, ⟨mask, hdr'⟩, hmask, hbody⟩ := h
  exact ⟨Nat.not_lt.1 hbuf, len, hdr, mask, hdr', hlen, hmask, hbody⟩

/-- **A pass of the parser.** It takes at least two bytes, and later bytes change nothing in what
it has found. -/
theorem nextFrame_spec {x : WsRead} {rest : Bytes} (h : nextFrame buf = some (x, rest)) :
    rest.length < buf.length ∧ ∀ more, nextFrame (buf ++ more) = some (x, rest ++ more) := by
  obtain ⟨hbuf, len, hdr, mask, hdr', hlen, hmask, hbody⟩ := nextFrame_eq_some h
  obtain ⟨htwo, hle, hlen'⟩ := lenField_spec hbuf hlen
  obtain ⟨hge, hle', hmask'⟩ := maskField_spec hbuf hle hmask
  obtain ⟨hlt, hbody'⟩ := payloadField_spec hbuf (htwo.trans hge) hle' hbody
  refine ⟨hlt, fun more => ?_⟩
  rw [nextFrame, if_neg (by rw [List.length_append]; omega), hlen']
  simp only [Option.bind_eq_bind, Option.bind_some, hmask', hbody']

/-- The parser reads a frame at a time off the client's stream. -/
def reader : Framing.Reader UInt8 WsRead where
  next := nextFrame
  next_length h := (nextFrame_spec h).1
  next_append more h := (nextFrame_spec h).2 more

/-! ## The loop -/

/-- The answer to a ping. -/
def pong (payload : Bytes) : Bytes :=
  [0x8A, UInt8.ofNat payload.length &&& 0x7F] ++ payload

/-- A text or binary frame starts a message. -/
def collect (s : WsSession) (f : WsFrame) : WsSession :=
  if f.opcode = 0x1 ∨ f.opcode = 0x2 then { s with curOpcode := f.opcode, msg := f.payload }
  else if f.opcode = 0x0 then { s with msg := s.msg ++ f.payload }
  else s

/-- What is done for one frame. -/
def handleFrame (h : WsServer) (s : WsSession) (f : WsFrame) : WsSession × List WsEffect :=
  if f.opcode = 0x8 then ({ s with alive := false }, [])
  else if f.opcode = 0x9 then (s, [.send (pong f.payload)])
  else if f.opcode = 0xA then (s, [])
  else
    let s := collect s f
    if f.fin ∧ s.msg ≠ [] then
      ({ s with msg := [] },
        if s.curOpcode = 0x1 ∧ h.onMessage then [.onMessage s.msg] else [])
    else (s, [])

/-- The body of the loop over the buffer. -/
def handler (h : WsServer) : Framing.Handler WsRead WsSession WsEffect where
  live s := s.alive
  handle s
    | .frame f => h.handleFrame s f
    | .wrapped => ({ s with alive := false }, [.outOfRange])

/-- `client_loop`, given what the calls of `recv` return; after the last one the connection is
closed. -/
def clientLoop (h : WsServer) (chunks : List Bytes) : WsSession × List WsEffect :=
  reader.feedAll h.handler [] {} chunks

end WsServer

end Rtstream
