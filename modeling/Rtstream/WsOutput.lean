import Rtstream.WsDelivery
import Rtstream.Lib.Runs
import Mathlib.Algebra.Order.BigOperators.Group.List

/-!
# `ws_server.h`: what the server writes

Two kinds of writers share a client's socket: its own thread answers pings, and calls of
`broadcast` from any thread write text and binary frames. A mutex keeps the frames apart; which
comes first is up to the threads.

`broadcast` picks the form that its length needs. A pong has room for seven bits of the length and
takes only the low seven bits, so a ping of 126 bytes or more is answered with bytes that say
something else.

* `well_formed_iff`: the bytes written are the frames that were to be written, each as RFC 6455 has
  it, if and only if no ping that the server answered had 126 bytes or more. Otherwise even a reader
  that takes any frame of the right layout does not find them.
-/

namespace Rtstream

/-! ## Frames on the wire -/

/-- The shortest form of a length. -/
def LenForm.shortest (n : ℕ) : LenForm :=
  if n < 126 then .short else if n < 256 ^ 2 then .medium else .long

namespace LenForm

variable {n : ℕ}

theorem shortest_short (h : n < 126) : shortest n = .short := if_pos h

theorem shortest_medium (h : ¬ n < 126) (h' : n < 256 ^ 2) : shortest n = .medium := by
  rw [shortest, if_neg h, if_pos h']

theorem shortest_long (h : ¬ n < 126) (h' : ¬ n < 256 ^ 2) : shortest n = .long := by
  rw [shortest, if_neg h, if_neg h']

theorem lt_capacity_shortest (hn : n < 2 ^ 63) : n < (shortest n).capacity := by
  unfold shortest
  split_ifs with hshort hmedium
  · exact hshort
  · exact hmedium
  · exact hn.trans (by decide)

theorem code_shortest_lt (n : ℕ) : (shortest n).code n < 128 := by
  unfold shortest
  split_ifs with hshort hmedium
  · exact Nat.lt_trans hshort (by decide)
  · exact (by decide : 126 < 128)
  · exact (by decide : 127 < 128)

end LenForm

namespace WsFrame

/-- The form of the payload's length. -/
def form (f : WsFrame) : LenForm := .shortest f.payload.length

/-- A frame as RFC 6455 has a server write it: no mask, and the length in the shortest form. -/
def wire (f : WsFrame) : Bytes :=
  [(if f.fin then 0x80 else 0) ||| f.opcode, UInt8.ofNat (f.form.code f.payload.length)] ++
    (f.form.bytes f.payload.length ++ f.payload)

theorem wire_ne_nil (f : WsFrame) : f.wire ≠ [] := by simp [wire]

/-- The frames of RFC 6455: a control frame is not split and holds at most 125 bytes, and a length
has 63 bits. -/
structure Legal (f : WsFrame) : Prop where
  opcode_mem : f.opcode ∈ [0x0, 0x1, 0x2, 0x8, 0x9, 0xA]
  control : 8 ≤ f.opcode.toNat → f.fin = true ∧ f.payload.length ≤ 125
  length_lt : f.payload.length < 2 ^ 63

end WsFrame

/-- How many bytes a frame that was read has taken at least. -/
def WsRead.weight : WsRead → ℕ
  | .frame f => f.wire.length
  | .wrapped => 0

/-- The bytes are these frames, one after the other and complete. -/
def WellFormed (bytes : Bytes) (frames : List WsFrame) : Prop :=
  bytes = frames.flatMap WsFrame.wire ∧ ∀ f ∈ frames, f.Legal

namespace WsServer

/-! ## The connection -/

/-- A string or vector of bytes; `max_size` is below `2 ^ 63`. -/
structure Payload where
  bytes : Bytes
  length_lt : bytes.length < 2 ^ 63
  deriving DecidableEq, Repr

/-- A call of `broadcast_text` or `broadcast_binary`. -/
structure Broadcast where
  text : Bool
  data : Payload
  deriving DecidableEq, Repr

def Broadcast.opcode (b : Broadcast) : UInt8 := if b.text then 0x1 else 0x2

/-- The frame `broadcast` builds. -/
def Broadcast.bytes (b : Broadcast) : Bytes :=
  let len := b.data.bytes.length
  [0x80 ||| b.opcode] ++
    (if len < 126 then [UInt8.ofNat len]
      else if len ≤ 0xFFFF then [126] ++ BigEndian.store 2 len
      else [127] ++ BigEndian.store 8 len) ++ b.data.bytes

/-- One client. -/
structure Conn where
  session : WsSession := {}
  buf : Bytes := []
  /-- Its thread is in the loop over the buffer. -/
  parsing : Bool := false
  /-- Calls of `broadcast` that have found the client alive and wait for `send_mtx`. -/
  waiting : List Broadcast := []
  deriving DecidableEq, Repr

inductive Turn
  /-- `recv` returns these bytes to the client's thread; none at the end. -/
  | recv (chunk : Bytes)
  /-- The client's thread makes a pass of the loop over the buffer. -/
  | parse
  /-- A call of `broadcast` comes to the client. -/
  | broadcast (b : Broadcast)
  /-- The `n`-th call that waits gets `send_mtx`. -/
  | write (n : ℕ)
  deriving DecidableEq, Repr

/-- The threads take turns on a connection. Every `send` succeeds. -/
def step (h : WsServer) (c : Conn) : Turn → Conn × List WsEffect
  | .recv chunk =>
    if c.parsing ∨ ¬ c.session.alive then (c, [])
    else if chunk = [] then ({ c with session := { c.session with alive := false } }, [])
    else ({ c with buf := c.buf ++ chunk, parsing := true }, [])
  | .parse =>
    if c.parsing then
      match nextFrame c.buf with
      | none => ({ c with parsing := false }, [])
      | some (read, rest) =>
        let r := h.handler.handle c.session read
        ({ c with session := r.1, buf := rest, parsing := r.1.alive }, r.2)
    else (c, [])
  | .broadcast b =>
    if c.session.alive then ({ c with waiting := c.waiting ++ [b] }, []) else (c, [])
  | .write n =>
    match c.waiting[n]? with
    | none => (c, [])
    | some b => ({ c with waiting := c.waiting.eraseIdx n }, [.send b.bytes])

/-- The payload of the ping that the client's thread takes off the buffer in its next pass. -/
def pinged (c : Conn) : Option Bytes :=
  if c.parsing then
    match nextFrame c.buf with
    | some (.frame f, _) => if f.opcode = 0x9 then some f.payload else none
    | _ => none
  else none

/-- The frame that answers a ping. -/
def pongFrame (payload : Bytes) : WsFrame := { fin := true, opcode := 0xA, payload := payload }

/-- The frame of a broadcast. -/
def Broadcast.frame (b : Broadcast) : WsFrame :=
  { fin := true, opcode := b.opcode, payload := b.data.bytes }

/-- What a turn is to write: an answer with the ping's payload, a data frame with the payload that
was broadcast. -/
def due (c : Conn) : Turn → List WsFrame
  | .recv _ => []
  | .parse => (pinged c).toList.map pongFrame
  | .broadcast _ => []
  | .write n => (c.waiting[n]?).toList.map Broadcast.frame

/-- What is written to the socket. -/
def sentBytes : WsEffect → Option Bytes
  | .send bytes => some bytes
  | _ => none

/-- The bytes written in a run. -/
def written (h : WsServer) (ts : List Turn) : Bytes :=
  ((Runs.trace (step h) {} ts).filterMap sentBytes).flatten

/-- The frames that were to be written in a run. -/
def meant (h : WsServer) (ts : List Turn) : List WsFrame := Runs.collect (step h) due {} ts

/-- A ping that is to be answered has less than 126 bytes. -/
def ShortPing (c : Conn) : Turn → Prop
  | .parse => ∀ payload ∈ pinged c, payload.length < 126
  | _ => True

/-! ## Reading a frame back -/

theorem isMasked_wire (f : WsFrame) (more : Bytes) : isMasked (f.wire ++ more) = false := by
  have hsecond := secondByte_bits false (LenForm.code_shortest_lt f.payload.length)
  rw [if_neg Bool.false_ne_true, UInt8.zero_or] at hsecond
  exact hsecond.1

/-- **The parser reads a frame of RFC 6455 back**, whatever follows it. -/
theorem encodes_wire {f : WsFrame} (hf : f.Legal) : reader.Encodes (.frame f) f.wire := by
  intro more
  let first : UInt8 := (if f.fin then 0x80 else 0) ||| f.opcode
  let second : UInt8 := UInt8.ofNat (f.form.code f.payload.length)
  let ext : Bytes := f.form.bytes f.payload.length
  have hall : ∀ op ∈ ([0x0, 0x1, 0x2, 0x8, 0x9, 0xA] : List UInt8), op.toNat < 16 := by
    decide +kernel
  obtain ⟨hfin, hopcode⟩ := firstByte_bits f.fin (hall f.opcode hf.opcode_mem)
  have hsecond := secondByte_bits false (LenForm.code_shortest_lt f.payload.length)
  rw [if_neg Bool.false_ne_true, UInt8.zero_or] at hsecond
  have hsplit : f.wire ++ more = [first, second] ++ (ext ++ (f.payload ++ more)) := by
    simp [WsFrame.wire, first, second, ext]
  have hext : ext.length ≤ 8 := f.form.length_bytes_le f.payload.length
  have hwire : f.wire.length = 2 + ext.length + f.payload.length := by
    simp [WsFrame.wire, ext]
    omega
  have hlength : (f.wire ++ more).length = 2 + ext.length + f.payload.length + more.length := by
    rw [List.length_append, hwire]
  have hsmall : 2 + ext.length + f.payload.length < 2 ^ 64 := by
    have hlt := hf.length_lt
    omega
  have hlen : lenField (f.wire ++ more) = some (f.payload.length, 2 + ext.length) := by
    rw [hsplit]
    exact lenField_form (LenForm.lt_capacity_shortest hf.length_lt) hsecond.2 _
  have hunmasked : isMasked (f.wire ++ more) = false := isMasked_wire f more
  have hmask : maskField (f.wire ++ more) (2 + ext.length) =
      some (List.replicate 4 0, 2 + ext.length) := by
    rw [maskField, hunmasked, if_neg Bool.false_ne_true]
  have hframe : frameAt (f.wire ++ more) (List.replicate 4 0) f.payload.length (2 + ext.length) =
      f := by
    have hslice : Slices.slice (f.wire ++ more) (2 + ext.length) f.payload.length = f.payload := by
      rw [hsplit, ← List.append_assoc]
      exact Slices.slice_middle _ _ _ (List.length_append ..) rfl
    have hzero : (f.wire ++ more).getD 0 0 = first := by rw [hsplit]; rfl
    simp only [frameAt, hunmasked, hslice, hzero, first, hfin, hopcode]
    rfl
  show nextFrame (f.wire ++ more) = some (.frame f, more)
  rw [nextFrame_of_fields (by omega) hlen hmask hsmall (by omega), hframe, ← hwire, List.drop_left]

theorem items_of_wellFormed {bytes : Bytes} {frames : List WsFrame} (h : WellFormed bytes frames) :
    reader.items bytes = (frames.map .frame, []) := by
  have hencoded : List.Forall₂ reader.Encodes (frames.map .frame) (frames.map WsFrame.wire) := by
    simp only [List.forall₂_map_left_iff, List.forall₂_map_right_iff, List.forall₂_same]
    exact fun f hf => encodes_wire (h.2 f hf)
  have hempty : reader.items [] = ([], []) := Framing.Reader.items_of_none rfl
  have hitems := Framing.Reader.items_encoded [] hencoded
  rwa [List.append_nil, hempty, List.append_nil, ← List.flatMap_def, ← h.1] at hitems

/-! ## A frame takes at least its shortest form -/

variable {buf : Bytes}

theorem shortest_le_header {len hdr : ℕ} (h : lenField buf = some (len, hdr)) :
    2 + ((LenForm.shortest len).bytes len).length ≤ hdr := by
  simp only [lenField] at h
  split_ifs at h with hmedium hlt hlong hlt
  · obtain ⟨rfl, rfl⟩ := Prod.mk.inj (Option.some.inj h)
    have hload := BigEndian.load_lt (Slices.slice buf 2 2)
    rw [Slices.length_slice, Nat.min_eq_left (by omega)] at hload
    unfold LenForm.shortest
    split_ifs <;> simp [LenForm.bytes]
  · obtain ⟨rfl, rfl⟩ := Prod.mk.inj (Option.some.inj h)
    have hext := (LenForm.shortest (BigEndian.load (Slices.slice buf 2 8))).length_bytes_le
      (BigEndian.load (Slices.slice buf 2 8))
    omega
  · obtain ⟨rfl, rfl⟩ := Prod.mk.inj (Option.some.inj h)
    have hcode : (buf.getD 1 0 &&& 0x7F).toNat < 128 := by
      rw [UInt8.toNat_and]
      exact Nat.and_lt_two_pow _ (by decide : (0x7F : UInt8).toNat < 2 ^ 7)
    rw [LenForm.shortest, if_pos (by omega)]
    exact le_rfl

/-- **Whatever follows**, a frame is read off at least as many bytes as it takes in its shortest
form. -/
theorem wire_le_of_next {f : WsFrame} {rest : Bytes} (h : nextFrame buf = some (.frame f, rest)) :
    f.wire.length + rest.length ≤ buf.length := by
  obtain ⟨hbuf, len, hdr, mask, hdr', hlen, hmask, hbody⟩ := nextFrame_eq_some h
  have hheader := shortest_le_header hlen
  obtain ⟨-, hle, -⟩ := lenField_spec hbuf hlen
  obtain ⟨hge, hle', -⟩ := maskField_spec hbuf hle hmask
  simp only [payloadField] at hbody
  split_ifs at hbody with hshort hwrap
  · obtain ⟨hf, rfl⟩ := Prod.mk.inj (Option.some.inj hbody)
    cases hf
    rw [Nat.mod_eq_of_lt hwrap] at hshort
    have hpayload : (frameAt buf mask len hdr').payload.length = len := by
      have hslice : (Slices.slice buf hdr' len).length = len := by
        rw [Slices.length_slice]
        omega
      simp only [frameAt]
      split_ifs <;> simp [unmask, hslice]
    have hsize : (frameAt buf mask len hdr').wire.length =
        2 + ((LenForm.shortest len).bytes len).length + len := by
      rw [WsFrame.wire, List.length_append, List.length_append, WsFrame.form, hpayload,
        Nat.add_assoc]
      rfl
    rw [hsize, List.length_drop]
    omega
  · cases hbody

/-! ## What the writers write -/

/-- What the server writes for a frame. -/
def bytesFor (f : WsFrame) : Bytes := if f.opcode = 0xA then pong f.payload else f.wire

theorem Broadcast.opcode_cases (b : Broadcast) : b.opcode = 0x1 ∨ b.opcode = 0x2 := by
  unfold opcode
  split_ifs
  · exact Or.inl rfl
  · exact Or.inr rfl

/-- **`broadcast` writes the frame of its payload**, in all three forms. -/
theorem Broadcast.bytes_eq_wire (b : Broadcast) : b.bytes = b.frame.wire := by
  have hmost : b.data.bytes.length ≤ 0xFFFF ↔ b.data.bytes.length < 256 ^ 2 := by omega
  simp only [bytes, WsFrame.wire, WsFrame.form, frame, hmost]
  split_ifs with hshort hmedium
  · rw [LenForm.shortest_short hshort]
    rfl
  · rw [LenForm.shortest_medium hshort hmedium]
    rfl
  · rw [LenForm.shortest_long hshort hmedium]
    rfl

theorem Broadcast.legal_frame (b : Broadcast) : b.frame.Legal where
  opcode_mem := by
    rcases b.opcode_cases with h | h <;> simp [Broadcast.frame, h]
  control := by
    rcases b.opcode_cases with h | h <;> simp [Broadcast.frame, h]
  length_lt := b.data.length_lt

theorem Broadcast.bytesFor_frame (b : Broadcast) : bytesFor b.frame = b.bytes := by
  rw [bytesFor, if_neg, b.bytes_eq_wire]
  rcases b.opcode_cases with h | h <;> simp [Broadcast.frame, h]

theorem length_pong (payload : Bytes) : (pong payload).length = 2 + payload.length :=
  List.length_append

/-- A short pong is the frame it is meant to be. -/
theorem pong_eq_wire {payload : Bytes} (h : payload.length < 126) :
    pong payload = (pongFrame payload).wire := by
  have hbits : ∀ n < 126, UInt8.ofNat n &&& 0x7F = UInt8.ofNat n := by decide
  simp only [pong, WsFrame.wire, WsFrame.form, pongFrame, hbits _ h, LenForm.shortest_short h]
  rfl

/-- A longer one is shorter than that frame. -/
theorem length_pong_lt {payload : Bytes} (h : ¬ payload.length < 126) :
    (pong payload).length < (pongFrame payload).wire.length := by
  have hext : 0 < ((LenForm.shortest payload.length).bytes payload.length).length := by
    rw [LenForm.shortest, if_neg h]
    split_ifs <;> simp [LenForm.bytes]
  rw [length_pong, WsFrame.wire, List.length_append, List.length_append]
  exact Nat.add_lt_add_left (Nat.lt_add_of_pos_left hext) 2

theorem legal_pongFrame {payload : Bytes} (h : payload.length < 126) :
    (pongFrame payload).Legal where
  opcode_mem := by simp [pongFrame]
  control _ := ⟨rfl, Nat.le_of_lt_succ h⟩
  length_lt := h.trans (by decide)

/-- The frames the server means to write: answers and broadcasts. -/
def Ours (f : WsFrame) : Prop := (∃ payload, f = pongFrame payload) ∨ ∃ b : Broadcast, f = b.frame

/-- A pong, if it is one, has less than 126 bytes. -/
def ShortPong (f : WsFrame) : Prop := f.opcode = 0xA → f.payload.length < 126

theorem Broadcast.shortPong_frame (b : Broadcast) : ShortPong b.frame := by
  intro hop
  rcases b.opcode_cases with h | h <;> simp [frame, h] at hop

theorem Ours.legal {f : WsFrame} (h : Ours f) (hshort : ShortPong f) :
    f.Legal ∧ bytesFor f = f.wire := by
  rcases h with ⟨payload, rfl⟩ | ⟨b, rfl⟩
  · exact ⟨legal_pongFrame (hshort rfl), pong_eq_wire (hshort rfl)⟩
  · exact ⟨b.legal_frame, b.bytesFor_frame.trans b.bytes_eq_wire⟩

/-- No frame is written longer than it is, and a long pong shorter. -/
theorem Ours.length_le {f : WsFrame} (h : Ours f) :
    (bytesFor f).length ≤ f.wire.length ∧
      (¬ ShortPong f → (bytesFor f).length < f.wire.length) := by
  by_cases hshort : ShortPong f
  · rw [(h.legal hshort).2]
    exact ⟨le_rfl, fun hlong => absurd hshort hlong⟩
  · rcases h with ⟨payload, rfl⟩ | ⟨b, rfl⟩
    · have hlt := length_pong_lt fun hlt => hshort fun _ => hlt
      exact ⟨hlt.le, fun _ => hlt⟩
    · exact absurd b.shortPong_frame hshort

/-! ## One turn -/

variable {h : WsServer}

theorem sent_handleFrame (s : WsSession) (f : WsFrame) :
    (h.handleFrame s f).2.filterMap sentBytes =
      if f.opcode = 0x9 then [pong f.payload] else [] := by
  rw [handleFrame]
  split_ifs with hclose hping
  · rw [hclose] at hping
    exact absurd hping (by decide)
  · rfl
  · rfl
  · rfl
  · simp only
    split_ifs <;> rfl

theorem pinged_of_frame {c : Conn} {f : WsFrame} {rest : Bytes} (hparsing : c.parsing = true)
    (hnext : nextFrame c.buf = some (.frame f, rest)) :
    pinged c = if f.opcode = 0x9 then some f.payload else none := by
  rw [pinged, if_pos hparsing, hnext]

theorem sent_step (c : Conn) (t : Turn) :
    (step h c t).2.filterMap sentBytes = (due c t).map bytesFor := by
  cases t with
  | recv chunk =>
    simp only [step]
    split_ifs <;> rfl
  | parse =>
    cases hparsing : c.parsing with
    | false => simp [step, due, pinged, hparsing]
    | true =>
      cases hnext : nextFrame c.buf with
      | none => simp [step, due, pinged, hparsing, hnext]
      | some p =>
        obtain ⟨read, rest⟩ := p
        cases read with
        | wrapped => simp [step, due, pinged, hparsing, hnext, handler, sentBytes]
        | frame f =>
          rw [due, pinged_of_frame hparsing hnext]
          simp only [step, hparsing, hnext, handler, if_true]
          rw [sent_handleFrame]
          split_ifs <;> rfl
  | broadcast b =>
    simp only [step]
    split_ifs <;> rfl
  | write n =>
    cases hget : c.waiting[n]? with
    | none => simp [step, due, hget]
    | some b => simp [step, due, hget, sentBytes, b.bytesFor_frame]

theorem ours_of_due (c : Conn) (t : Turn) : ∀ f ∈ due c t, Ours f := by
  intro f hf
  cases t with
  | recv chunk => exact absurd hf List.not_mem_nil
  | parse =>
    obtain ⟨payload, -, rfl⟩ := List.mem_map.1 hf
    exact Or.inl ⟨payload, rfl⟩
  | broadcast b => exact absurd hf List.not_mem_nil
  | write n =>
    obtain ⟨b, -, rfl⟩ := List.mem_map.1 hf
    exact Or.inr ⟨b, rfl⟩

theorem shortPong_due_iff (c : Conn) (t : Turn) : (∀ f ∈ due c t, ShortPong f) ↔ ShortPing c t := by
  cases t with
  | recv chunk => exact iff_of_true (fun f hf => absurd hf List.not_mem_nil) trivial
  | parse =>
    simp only [due, ShortPing, List.forall_mem_map, Option.mem_toList]
    exact forall₂_congr fun payload _ => ⟨fun hshort => hshort rfl, fun hshort _ => hshort⟩
  | broadcast b => exact iff_of_true (fun f hf => absurd hf List.not_mem_nil) trivial
  | write n =>
    refine iff_of_true ?_ trivial
    simp only [due, List.forall_mem_map]
    exact fun b _ => b.shortPong_frame

/-! ## A run -/

theorem written_eq (ts : List Turn) : written h ts = (meant h ts).flatMap bytesFor := by
  have htrace := Runs.trace_filterMap_eq (I := fun _ => True)
    (fun c t _ => ⟨trivial, sent_step (h := h) c t⟩) (trivial : True) ts (s := {})
  rw [written, htrace, List.flatMap_def]
  rfl

theorem ours_of_meant (ts : List Turn) : ∀ f ∈ meant h ts, Ours f :=
  (Runs.forall_collect_iff (P := fun _ _ => True) (fun c t => iff_true_intro (ours_of_due c t)) _
    ts).2 (Runs.along_of_forall _ fun _ _ _ => trivial)

theorem shortPong_meant_iff (ts : List Turn) :
    (∀ f ∈ meant h ts, ShortPong f) ↔ Runs.Along (step h) ShortPing {} ts :=
  Runs.forall_collect_iff shortPong_due_iff _ ts

theorem wellFormed_of_short {ts : List Turn} (hshort : ∀ f ∈ meant h ts, ShortPong f) :
    WellFormed (written h ts) (meant h ts) := by
  refine ⟨?_, fun f hf => ((ours_of_meant ts f hf).legal (hshort f hf)).1⟩
  rw [written_eq]
  exact List.flatMap_congr fun f hf => ((ours_of_meant ts f hf).legal (hshort f hf)).2

theorem weight_le_of_next {x : WsRead} {buf rest : Bytes}
    (hnext : reader.next buf = some (x, rest)) :
    x.weight + rest.length ≤ buf.length := by
  cases x with
  | frame f => exact wire_le_of_next hnext
  | wrapped =>
    rw [WsRead.weight, Nat.zero_add]
    exact (reader.next_length hnext).le

/-- **A long pong is not found**: with its payload it would take more bytes than were written. -/
theorem short_of_items {ts : List Turn}
    (hitems : reader.items (written h ts) = ((meant h ts).map .frame, [])) :
    ∀ f ∈ meant h ts, ShortPong f := by
  intro f hf
  by_contra hlong
  have hlt : ((meant h ts).map fun f => (bytesFor f).length).sum <
      ((meant h ts).map fun f => f.wire.length).sum :=
    List.sum_lt_sum _ _ (fun f hf => (ours_of_meant ts f hf).length_le.1)
      ⟨f, hf, (ours_of_meant ts f hf).length_le.2 hlong⟩
  have hfits := Framing.Reader.weight_items_le weight_le_of_next (written h ts)
  rw [hitems, List.map_map, written_eq, List.length_flatMap] at hfits
  exact absurd hlt (Nat.not_lt_of_le hfits)

/-- **The server writes well-formed frames**, answers with the pings' payloads and data frames with
what was broadcast, if and only if every ping it answered has less than 126 bytes. So does a reader
that asks for no more than the layout find these frames. -/
theorem well_formed_iff (h : WsServer) (ts : List Turn) :
    (WellFormed (written h ts) (meant h ts) ↔ Runs.Along (step h) ShortPing {} ts) ∧
      (reader.items (written h ts) = ((meant h ts).map .frame, []) ↔
        Runs.Along (step h) ShortPing {} ts) := by
  rw [← shortPong_meant_iff]
  refine ⟨⟨fun hwell => ?_, wellFormed_of_short⟩, ⟨short_of_items, fun hshort => ?_⟩⟩
  · exact short_of_items (items_of_wellFormed hwell)
  · exact items_of_wellFormed (wellFormed_of_short hshort)

/-- A ping of 128 zeros, and a broadcast of `hi`. -/
def longPing : List Turn :=
  [.recv ([0x89, 0x7E, 0, 128] ++ List.replicate 128 0), .parse,
    .broadcast { text := true, data := { bytes := [0x68, 0x69], length_lt := by decide } },
    .write 0]

/-- The pong says that it is empty. -/
theorem long_ping_garbles :
    ¬ WellFormed (written ⟨true⟩ longPing) (meant ⟨true⟩ longPing) ∧
      reader.items (written ⟨true⟩ longPing) ≠ ((meant ⟨true⟩ longPing).map .frame, []) := by
  have hempty : reader.next (written ⟨true⟩ longPing) =
      some (.frame (pongFrame []), (written ⟨true⟩ longPing).drop 2) := by decide +kernel
  have hitems : reader.items (written ⟨true⟩ longPing) ≠
      ((meant ⟨true⟩ longPing).map .frame, []) := by
    intro hitems
    have hhead := congrArg (fun p => p.1.head?) (Framing.Reader.items_of_some hempty)
    rw [hitems] at hhead
    revert hhead
    decide +kernel
  exact ⟨fun hwell => hitems (items_of_wellFormed hwell), hitems⟩

end WsServer

end Rtstream
