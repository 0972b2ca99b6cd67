import Rtstream.WsServer

/-!
# Text messages arrive

A client writes each message as one or more frames, masks them or not, writes a length in any of
the three forms that hold it, and puts pings and pongs between the frames. The server hands on
the text messages that are not empty, each once, in order, and nothing else.

The parser reads back every frame as it was written (`nextFrame_write`). So the loop runs over
the frames; pings and pongs leave the message that is being collected alone
(`run_filter_control`), and a message's own frames put it together (`run_frames`).
-/

namespace Rtstream

/-- Where a frame's length is written. -/
inductive LenForm
  | short
  | medium
  | long
  deriving DecidableEq, Repr

namespace LenForm

/-- The lengths a form can hold. -/
def Fits : LenForm → ℕ → Prop
  | .short, n => n < 126
  | .medium, n => n < 2 ^ 16
  | .long, n => n < 2 ^ 62

instance : (form : LenForm) → (n : ℕ) → Decidable (form.Fits n)
  | .short, n => inferInstanceAs (Decidable (n < 126))
  | .medium, n => inferInstanceAs (Decidable (n < 2 ^ 16))
  | .long, n => inferInstanceAs (Decidable (n < 2 ^ 62))

/-- The low seven bits of a frame's second byte. -/
def code : LenForm → ℕ → ℕ
  | .short, n => n
  | .medium, _ => 126
  | .long, _ => 127

/-- The bytes that follow it. -/
def bytes : LenForm → ℕ → Bytes
  | .short, _ => []
  | .medium, n => BigEndian.store 2 n
  | .long, n => BigEndian.store 8 n

theorem code_lt {form : LenForm} {n : ℕ} (h : form.Fits n) : form.code n < 128 := by
  cases form with
  | short => exact Nat.lt_trans h (by decide)
  | medium => exact (by decide : 126 < 128)
  | long => exact (by decide : 127 < 128)

theorem length_bytes_le (form : LenForm) (n : ℕ) : (form.bytes n).length ≤ 8 := by
  cases form <;> simp [bytes]

/-- The lengths a form has room for. -/
def capacity : LenForm → ℕ
  | .short => 126
  | .medium => 256 ^ 2
  | .long => 256 ^ 8

theorem lt_capacity {form : LenForm} {n : ℕ} (h : form.Fits n) : n < form.capacity := by
  cases form with
  | short => exact h
  | medium => exact h
  | long => exact Nat.lt_trans h (by decide)

theorem lt_of_fits {form : LenForm} {n : ℕ} (h : form.Fits n) : n < 2 ^ 62 := by
  cases form with
  | short => exact Nat.lt_trans h (by decide)
  | medium => exact Nat.lt_trans h (by decide)
  | long => exact h

end LenForm

namespace WsServer

theorem firstByte_bits (fin : Bool) {opcode : UInt8} (h : opcode.toNat < 16) :
    (((if fin then 0x80 else 0) ||| opcode) &&& 0x80 != 0) = fin ∧
      ((if fin then 0x80 else 0) ||| opcode) &&& 0x0F = opcode := by
  have hbits : ∀ (fin : Bool) (n : ℕ), n < 16 →
      (((if fin then 0x80 else 0) ||| UInt8.ofNat n) &&& 0x80 != 0) = fin ∧
        ((if fin then 0x80 else 0) ||| UInt8.ofNat n) &&& 0x0F = UInt8.ofNat n := by
    decide
  simpa only [UInt8.ofNat_toNat] using hbits fin _ h

theorem secondByte_bits (masked : Bool) {n : ℕ} (h : n < 128) :
    (((if masked then 0x80 else 0) ||| UInt8.ofNat n) &&& 0x80 != 0) = masked ∧
      (((if masked then 0x80 else 0) ||| UInt8.ofNat n) &&& 0x7F).toNat = n := by
  have hbits : ∀ (masked : Bool) (n : ℕ), n < 128 →
      (((if masked then 0x80 else 0) ||| UInt8.ofNat n) &&& 0x80 != 0) = masked ∧
        (((if masked then 0x80 else 0) ||| UInt8.ofNat n) &&& 0x7F).toNat = n := by
    decide
  exact hbits masked n h

/-- **The parser reads a length back**, whatever form it is written in. -/
theorem lenField_form {form : LenForm} {n : ℕ} (hn : n < form.capacity) {b₀ b₁ : UInt8}
    (hcode : (b₁ &&& 0x7F).toNat = form.code n) (rest : Bytes) :
    lenField ([b₀, b₁] ++ (form.bytes n ++ rest)) = some (n, 2 + (form.bytes n).length) := by
  have hone : ([b₀, b₁] ++ (form.bytes n ++ rest)).getD 1 0 = b₁ := rfl
  rw [lenField, hone, hcode]
  cases form with
  | short =>
    have hlt : n < 126 := hn
    rw [LenForm.code, if_neg (by omega), if_neg (by omega)]
    rfl
  | medium =>
    have hlen : (LenForm.medium.bytes n).length = 2 := by simp [LenForm.bytes]
    have hlong : ¬ ([b₀, b₁] ++ (LenForm.medium.bytes n ++ rest)).length < 4 := by simp [hlen]
    have hslice : Slices.slice ([b₀, b₁] ++ (LenForm.medium.bytes n ++ rest)) 2 2 =
        LenForm.medium.bytes n := Slices.slice_middle _ _ _ rfl hlen
    rw [LenForm.code, if_pos rfl, if_neg hlong, hslice, hlen, LenForm.bytes,
      BigEndian.load_store, Nat.mod_eq_of_lt (b := 256 ^ 2) hn]
  | long =>
    have hlen : (LenForm.long.bytes n).length = 8 := by simp [LenForm.bytes]
    have hlong : ¬ ([b₀, b₁] ++ (LenForm.long.bytes n ++ rest)).length < 10 := by simp [hlen]
    have hslice : Slices.slice ([b₀, b₁] ++ (LenForm.long.bytes n ++ rest)) 2 8 =
        LenForm.long.bytes n := Slices.slice_middle _ _ _ rfl hlen
    rw [LenForm.code, if_neg (by decide), if_pos rfl, if_neg hlong, hslice, hlen, LenForm.bytes,
      BigEndian.load_store, Nat.mod_eq_of_lt (b := 256 ^ 8) hn]

/-- **What the parser takes off a buffer** that holds the whole frame. -/
theorem nextFrame_of_fields {buf mask : Bytes} {n lenEnd hdr : ℕ} (htwo : 2 ≤ buf.length)
    (hlen : lenField buf = some (n, lenEnd)) (hmask : maskField buf lenEnd = some (mask, hdr))
    (hsmall : hdr + n < 2 ^ 64) (hall : hdr + n ≤ buf.length) :
    nextFrame buf = some (.frame (frameAt buf mask n hdr), buf.drop (hdr + n)) := by
  rw [nextFrame, if_neg (Nat.not_lt.2 htwo), hlen]
  simp only [Option.bind_eq_bind, Option.bind_some, hmask, payloadField]
  rw [Nat.mod_eq_of_lt hsmall, if_neg (Nat.not_lt.2 hall), if_pos hsmall]

end WsServer

/-- A frame as a client writes it. -/
structure ClientFrame where
  frame : WsFrame
  mask : Option Bytes
  form : LenForm
  opcode_lt : frame.opcode.toNat < 16
  mask_length : ∀ m ∈ mask, m.length = 4
  fits : form.Fits frame.payload.length

namespace ClientFrame

open WsServer

/-- The first byte: the last frame of a message has the high bit. -/
def finByte (f : ClientFrame) : UInt8 := (if f.frame.fin then 0x80 else 0) ||| f.frame.opcode

/-- The second byte: a masked frame has the high bit. -/
def lenByte (f : ClientFrame) : UInt8 :=
  (if f.mask.isSome then 0x80 else 0) ||| UInt8.ofNat (f.form.code f.frame.payload.length)

/-- The payload as it is sent. -/
def body (f : ClientFrame) : Bytes :=
  match f.mask with
  | none => f.frame.payload
  | some m => unmask m f.frame.payload

/-- The frame's bytes. -/
def write (f : ClientFrame) : Bytes :=
  [f.finByte, f.lenByte] ++ (f.form.bytes f.frame.payload.length ++ (f.mask.getD [] ++ f.body))

/-! ## Reading a frame back -/

theorem finByte_bits (f : ClientFrame) :
    (f.finByte &&& 0x80 != 0) = f.frame.fin ∧ f.finByte &&& 0x0F = f.frame.opcode :=
  firstByte_bits f.frame.fin f.opcode_lt

theorem lenByte_bits (f : ClientFrame) :
    (f.lenByte &&& 0x80 != 0) = f.mask.isSome ∧
      (f.lenByte &&& 0x7F).toNat = f.form.code f.frame.payload.length :=
  secondByte_bits f.mask.isSome (LenForm.code_lt f.fits)

theorem unmask_unmask (mask payload : Bytes) : unmask mask (unmask mask payload) = payload := by
  refine List.ext_getElem (by simp [unmask]) fun i _ _ => ?_
  simp only [unmask, List.getElem_mapIdx, UInt8.xor_assoc, UInt8.xor_self, UInt8.xor_zero]

@[simp] theorem length_body (f : ClientFrame) : f.body.length = f.frame.payload.length := by
  unfold body
  split <;> simp [unmask]

/-- The length of the header without the mask. -/
def lenEnd (f : ClientFrame) : ℕ := 2 + (f.form.bytes f.frame.payload.length).length

theorem length_head (f : ClientFrame) :
    ([f.finByte, f.lenByte] ++ f.form.bytes f.frame.payload.length).length = f.lenEnd := by
  rw [List.length_append]
  rfl

theorem length_mask_le (f : ClientFrame) : (f.mask.getD []).length ≤ 4 := by
  have hlength := f.mask_length
  cases hmask : f.mask with
  | none => exact Nat.zero_le 4
  | some m => exact (hlength m hmask).le

theorem getD_one_write (f : ClientFrame) (more : Bytes) :
    (f.write ++ more).getD 1 0 = f.lenByte := by
  simp [write]

theorem lenField_write (f : ClientFrame) (more : Bytes) :
    lenField (f.write ++ more) = some (f.frame.payload.length, f.lenEnd) := by
  have hsplit : f.write ++ more = [f.finByte, f.lenByte] ++
      (f.form.bytes f.frame.payload.length ++ (f.mask.getD [] ++ f.body ++ more)) := by
    simp [write]
  rw [hsplit]
  exact lenField_form (LenForm.lt_capacity f.fits) f.lenByte_bits.2 _

theorem isMasked_write (f : ClientFrame) (more : Bytes) :
    isMasked (f.write ++ more) = f.mask.isSome := by
  rw [isMasked, getD_one_write, f.lenByte_bits.1]

theorem maskField_write (f : ClientFrame) (more : Bytes) :
    maskField (f.write ++ more) f.lenEnd =
      some (f.mask.getD (List.replicate 4 0), f.lenEnd + (f.mask.getD []).length) := by
  have hlength := f.mask_length
  rw [maskField, isMasked_write]
  cases hmask : f.mask with
  | none => rfl
  | some m =>
    have hm : m.length = 4 := hlength m hmask
    have hsplit : f.write ++ more = [f.finByte, f.lenByte] ++
        f.form.bytes f.frame.payload.length ++ (m ++ (f.body ++ more)) := by
      simp [write, hmask]
    have hlen := f.length_head
    have hlong : ¬ (f.write ++ more).length < f.lenEnd + 4 := by
      rw [hsplit, List.length_append, hlen, List.length_append, hm]
      omega
    have hslice : Slices.slice (f.write ++ more) f.lenEnd 4 = m := by
      rw [hsplit]
      exact Slices.slice_middle _ _ _ hlen hm
    rw [if_pos Option.isSome_some, if_neg hlong, hslice, Option.getD_some, Option.getD_some, hm]

theorem frameAt_write (f : ClientFrame) (more : Bytes) :
    frameAt (f.write ++ more) (f.mask.getD (List.replicate 4 0)) f.frame.payload.length
      (f.lenEnd + (f.mask.getD []).length) = f.frame := by
  have hzero : (f.write ++ more).getD 0 0 = f.finByte := by simp [write]
  have hsplit : f.write ++ more = [f.finByte, f.lenByte] ++
      f.form.bytes f.frame.payload.length ++ f.mask.getD [] ++ (f.body ++ more) := by
    simp [write]
  have hlen : ([f.finByte, f.lenByte] ++ f.form.bytes f.frame.payload.length ++
      f.mask.getD []).length = f.lenEnd + (f.mask.getD []).length := by
    rw [List.length_append, length_head]
  have hpayload : (if f.mask.isSome then unmask (f.mask.getD (List.replicate 4 0)) f.body
      else f.body) = f.frame.payload := by
    unfold body
    cases f.mask with
    | none => rfl
    | some m => exact unmask_unmask m f.frame.payload
  simp only [frameAt, isMasked_write, hzero, f.finByte_bits]
  rw [hsplit, Slices.slice_middle _ _ _ hlen f.length_body, hpayload]

/-- **The parser reads a frame back as it was written**, whatever follows it. -/
theorem nextFrame_write (f : ClientFrame) : reader.Encodes (.frame f.frame) f.write := by
  intro more
  have hlen : f.write.length =
      f.lenEnd + (f.mask.getD []).length + f.frame.payload.length := by
    rw [write, ← List.append_assoc, List.length_append, length_head, List.length_append,
      length_body, Nat.add_assoc]
  have hsmall : f.lenEnd + (f.mask.getD []).length + f.frame.payload.length < 2 ^ 64 := by
    have hext := f.form.length_bytes_le f.frame.payload.length
    have hmask := f.length_mask_le
    have hpayload := LenForm.lt_of_fits f.fits
    rw [lenEnd]
    omega
  have hlong : f.lenEnd + (f.mask.getD []).length + f.frame.payload.length ≤
      (f.write ++ more).length := by
    rw [List.length_append, hlen]
    exact Nat.le_add_right _ _
  have htwo : 2 ≤ (f.write ++ more).length := by
    rw [lenEnd] at hlong
    omega
  show nextFrame (f.write ++ more) = some (.frame f.frame, more)
  rw [nextFrame_of_fields htwo (f.lenField_write more) (f.maskField_write more) hsmall hlong,
    frameAt_write, ← hlen, List.drop_left]

end ClientFrame

/-! ## Messages -/

/-- A message of a client, in the pieces it is sent in. -/
structure ClientMessage where
  text : Bool
  first : Bytes
  rest : List Bytes
  deriving DecidableEq, Repr

namespace ClientMessage

def bytes (m : ClientMessage) : Bytes := m.first ++ m.rest.flatten

/-- One frame for each piece. Only the first has the opcode, only the last is final. -/
def split (opcode : UInt8) (first : Bytes) : List Bytes → List WsFrame
  | [] => [{ fin := true, opcode := opcode, payload := first }]
  | next :: rest => { fin := false, opcode := opcode, payload := first } :: split 0x0 next rest

def frames (m : ClientMessage) : List WsFrame :=
  split (if m.text then 0x1 else 0x2) m.first m.rest

/-- The messages the server is to hand on. -/
def isDelivered (m : ClientMessage) : Bool := m.text && !m.bytes.isEmpty

end ClientMessage

namespace WsServer

/-- The texts handed to `on_message_`. -/
def texts (out : List WsEffect) : List Bytes :=
  out.filterMap fun e => match e with
    | .onMessage text => some text
    | _ => none

theorem texts_append (out out' : List WsEffect) : texts (out ++ out') = texts out ++ texts out' :=
  List.filterMap_append

/-- A ping or a pong. -/
def isControl (f : WsFrame) : Bool := f.opcode = 0x9 ∨ f.opcode = 0xA

variable {h : WsServer} {s : WsSession}

theorem handleFrame_control {f : WsFrame} (hf : isControl f) :
    (h.handleFrame s f).1 = s ∧ texts (h.handleFrame s f).2 = [] := by
  rcases of_decide_eq_true hf with hf | hf <;> simp [handleFrame, hf, texts]

/-- **Pings and pongs leave the messages alone.** -/
theorem run_filter_control (frames : List WsFrame) :
    texts (h.handler.run s (frames.map .frame)).2 =
      texts (h.handler.run s ((frames.filter (! isControl ·)).map .frame)).2 := by
  induction frames generalizing s with
  | nil => rfl
  | cons f frames ih =>
    cases hs : h.handler.live s with
    | false => rw [Framing.Handler.run_dead hs, Framing.Handler.run_dead hs]
    | true =>
      cases hf : isControl f with
      | true =>
        obtain ⟨hstate, htexts⟩ := handleFrame_control (h := h) (s := s) hf
        rw [List.filter_cons_of_neg (by simp [hf]), ← ih, List.map_cons,
          Framing.Handler.run_cons hs]
        simp only [handler, texts_append, hstate, htexts, List.nil_append]
      | false =>
        rw [List.filter_cons_of_pos (by simp [hf]), List.map_cons, List.map_cons,
          Framing.Handler.run_cons hs, Framing.Handler.run_cons hs]
        simp only [texts_append, ih]

/-- What is handed on for a complete message. -/
def delivered (h : WsServer) (opcode : UInt8) (msg : Bytes) : List WsEffect :=
  if msg ≠ [] ∧ opcode = 0x1 ∧ h.onMessage then [.onMessage msg] else []

/-- A frame of a message: its payload is collected, and the last one completes the message. -/
theorem handleFrame_data {f : WsFrame} (hop : f.opcode.toNat < 3) :
    h.handleFrame s f =
      if f.fin then ({ collect s f with msg := [] },
        h.delivered (collect s f).curOpcode (collect s f).msg)
      else (collect s f, []) := by
  have hne : f.opcode ≠ 0x8 ∧ f.opcode ≠ 0x9 ∧ f.opcode ≠ 0xA := by
    refine ⟨?_, ?_, ?_⟩ <;> (intro heq; rw [heq] at hop; revert hop; decide)
  rw [handleFrame, if_neg hne.1, if_neg hne.2.1, if_neg hne.2.2]
  by_cases hmsg : (collect s f).msg = []
  · simp only [hmsg, delivered, ne_eq, not_true_eq_false, and_false, false_and, if_false]
    rw [← hmsg]
    split_ifs <;> rfl
  · simp only [hmsg, delivered, ne_eq, not_false_eq_true, and_true, true_and]

theorem run_frame (hs : s.alive = true) (f : WsFrame) (reads : List WsRead) :
    h.handler.run s (.frame f :: reads) =
      ((h.handler.run (h.handleFrame s f).1 reads).1,
        (h.handleFrame s f).2 ++ (h.handler.run (h.handleFrame s f).1 reads).2) :=
  if_pos hs

theorem collect_alive (f : WsFrame) : (collect s f).alive = s.alive := by
  unfold collect
  split_ifs <;> rfl

/-- **The frames of a message put it together.** What the first one leaves is completed by the
pieces after it; the induction is on these. -/
theorem run_split (hs : s.alive = true) {opcode : UInt8} (hop : opcode.toNat < 3) (first : Bytes)
    (rest : List Bytes) :
    h.handler.run s ((ClientMessage.split opcode first rest).map .frame) =
      let c := collect s { fin := true, opcode := opcode, payload := first }
      ({ c with msg := [] }, h.delivered c.curOpcode (c.msg ++ rest.flatten)) := by
  induction rest generalizing s opcode first with
  | nil =>
    rw [ClientMessage.split, List.map_singleton, run_frame hs, handleFrame_data hop, if_pos rfl]
    simp [Framing.Handler.run]
  | cons next rest ih =>
    let c := collect s { fin := false, opcode := opcode, payload := first }
    have hc : c.alive = true := (collect_alive _).trans hs
    have hnext : collect c { fin := true, opcode := 0x0, payload := next } =
      { c with msg := c.msg ++ next } := rfl
    rw [ClientMessage.split, List.map_cons, run_frame hs, handleFrame_data hop,
      if_neg Bool.false_ne_true, ih hc (by decide), hnext]
    simp only [List.nil_append, List.flatten_cons, List.append_assoc]
    rfl

theorem run_message (hset : h.onMessage = true) (hs : s.alive = true) (m : ClientMessage) :
    (h.handler.run s (m.frames.map .frame)).1.alive = true ∧
      texts (h.handler.run s (m.frames.map .frame)).2 =
        if m.isDelivered then [m.bytes] else [] := by
  cases htext : m.text with
  | true =>
    have hc : collect s { fin := true, opcode := 0x1, payload := m.first } =
      { s with curOpcode := 0x1, msg := m.first } := rfl
    rw [ClientMessage.frames, htext, if_pos rfl, run_split hs (by decide), hc]
    refine ⟨hs, ?_⟩
    by_cases hbytes : m.first ++ m.rest.flatten = []
    · simp [delivered, ClientMessage.isDelivered, ClientMessage.bytes, hbytes, texts]
    · simp [delivered, hset, ClientMessage.isDelivered, htext, ClientMessage.bytes, hbytes, texts]
  | false =>
    have hc : collect s { fin := true, opcode := 0x2, payload := m.first } =
      { s with curOpcode := 0x2, msg := m.first } := rfl
    rw [ClientMessage.frames, htext, if_neg Bool.false_ne_true, run_split hs (by decide), hc]
    refine ⟨hs, ?_⟩
    simp [delivered, ClientMessage.isDelivered, htext, texts]

theorem run_messages (hset : h.onMessage = true) (hs : s.alive = true)
    (msgs : List ClientMessage) :
    texts (h.handler.run s ((msgs.flatMap ClientMessage.frames).map .frame)).2 =
      (msgs.filter ClientMessage.isDelivered).map ClientMessage.bytes := by
  induction msgs generalizing s with
  | nil => rfl
  | cons m msgs ih =>
    obtain ⟨halive, htexts⟩ := run_message hset hs m
    rw [List.flatMap_cons, List.map_append, Framing.Handler.run_append, texts_append, htexts,
      ih halive, List.filter_cons]
    split_ifs <;> rfl

/-- The parser finds the frames that were written. -/
theorem items_write (frames : List ClientFrame) :
    (reader.items (frames.flatMap ClientFrame.write)).1 =
      (frames.map ClientFrame.frame).map .frame := by
  have hencoded : List.Forall₂ reader.Encodes ((frames.map ClientFrame.frame).map .frame)
      (frames.map ClientFrame.write) := by
    simp only [List.forall₂_map_left_iff, List.forall₂_map_right_iff, List.forall₂_same]
    exact fun f _ => f.nextFrame_write
  have hempty : reader.items [] = ([], []) := Framing.Reader.items_of_none rfl
  have hitems := Framing.Reader.items_encoded [] hencoded
  rw [List.append_nil, hempty, List.append_nil] at hitems
  rw [List.flatMap, hitems]

/-- **Text messages arrive.** However the client splits, masks and interleaves its frames, and
however the stream is cut, `on_message_` is called once for each text message that is not empty,
in order and with its bytes, and for nothing else. -/
theorem delivers {msgs : List ClientMessage} {frames : List ClientFrame} {chunks : List Bytes}
    (hset : h.onMessage = true)
    (hframes : (frames.map ClientFrame.frame).filter (! isControl ·) =
      msgs.flatMap ClientMessage.frames)
    (hcut : chunks.flatten = frames.flatMap ClientFrame.write)
    (hchunks : ∀ chunk ∈ chunks, 1 ≤ chunk.length ∧ chunk.length ≤ 16384) :
    texts (h.clientLoop chunks).2 =
      (msgs.filter ClientMessage.isDelivered).map ClientMessage.bytes := by
  have hne : ∀ chunk ∈ chunks, chunk ≠ [] := by
    rintro _ hchunk rfl
    exact absurd (hchunks [] hchunk).1 (by decide)
  have hloop : h.clientLoop chunks = h.handler.run {} (reader.items ([] ++ chunks.flatten)).1 :=
    reader.feedAll_flatten h.handler rfl hne
  rw [hloop, List.nil_append, hcut, items_write, run_filter_control, hframes]
  exact run_messages hset rfl msgs

/-- The message `hi` in two masked frames with a ping between them, the second length in eight
bytes, and the stream cut inside that length. -/
theorem delivers_hi :
    texts ((WsServer.mk true).clientLoop
      [[0x01, 0x81, 1, 2, 3, 4, 0x69, 0x89, 0x01, 7, 0x80, 0xFF, 0, 0, 0], [0, 0, 0, 0, 1],
        [5, 6, 7, 8, 0x6C]]).2 = [[0x68, 0x69]] := by
  let first : ClientFrame := {
    frame := { fin := false, opcode := 0x1, payload := [0x68] }
    mask := some [1, 2, 3, 4]
    form := .short
    opcode_lt := by decide
    mask_length := by decide
    fits := by decide }
  let ping : ClientFrame := {
    frame := { fin := true, opcode := 0x9, payload := [7] }
    mask := none
    form := .short
    opcode_lt := by decide
    mask_length := by decide
    fits := by decide }
  let last : ClientFrame := {
    frame := { fin := true, opcode := 0x0, payload := [0x69] }
    mask := some [5, 6, 7, 8]
    form := .long
    opcode_lt := by decide
    mask_length := by decide
    fits := by decide }
  exact @delivers ⟨true⟩ [⟨true, [0x68], [[0x69]]⟩] [first, ping, last] _ rfl (by decide)
    (by decide) (by decide)

end WsServer

end Rtstream
