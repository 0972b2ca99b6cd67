import Rtstream.WsOutput

/-!
# `ws_server.h`: the lengths in frame headers

A header declares the payload's length in 7, 16 or 64 bits, and the parser waits until the buffer
holds `hdr + len` bytes. The sum is a 64-bit one, and the length is whatever the client writes.

* `no_wrap_iff`: the range of the payload lies in the buffer, and the sum has not wrapped, whenever
  the parser gets past its check, if and only if no header that it reads declares a length that
  wraps the sum. In terms of the stream: a client that sends such a header, after any frames but a
  close, makes the server use a range outside its buffer, and no other client does.
* `broadcast_read`: the parser reads the frames of `broadcast` back, and finds every part of one
  incomplete.
-/

namespace Rtstream.WsServer

variable {buf : Bytes}

/-! ## A complete header -/

/-- The payload's length that the header at the front of the buffer declares, and the size of that
header with its mask; none while the header is not complete. -/
def header (buf : Bytes) : Option (ℕ × ℕ) :=
  if buf.length < 2 then none
  else do
    let (len, hdr) ← lenField buf
    let (_, hdr) ← maskField buf hdr
    some (len, hdr)

/-- The check `buf.size() < hdr + len` lets the frame through. -/
def Passes (buf : Bytes) (len hdr : ℕ) : Prop := (hdr + len) % 2 ^ 64 ≤ buf.length

instance (buf : Bytes) (len hdr : ℕ) : Decidable (Passes buf len hdr) :=
  inferInstanceAs (Decidable (_ ≤ _))

/-- A frame that gets past the check has its payload in the buffer, and the sum has not wrapped. -/
def InRange (buf : Bytes) : Prop :=
  ∀ p ∈ header buf, Passes buf p.1 p.2 → p.2 + p.1 < 2 ^ 64 ∧ p.2 + p.1 ≤ buf.length

/-- The header at the front of the buffer, if it is complete, declares a length that leaves room for
the header in 64 bits. -/
def LeavesRoom (buf : Bytes) : Prop := ∀ p ∈ header buf, p.1 < 2 ^ 64 - p.2

/-- Without a complete header there is no frame; with one, what there is depends on its length. -/
theorem nextFrame_eq_header (buf : Bytes) :
    (header buf = none ∧ nextFrame buf = none) ∨
      ∃ len hdr mask, header buf = some (len, hdr) ∧ hdr ≤ buf.length ∧
        nextFrame buf = payloadField buf mask len hdr := by
  unfold header nextFrame
  split_ifs with hbuf
  · exact Or.inl ⟨rfl, rfl⟩
  · cases hlen : lenField buf with
    | none => exact Or.inl ⟨rfl, rfl⟩
    | some p =>
      obtain ⟨-, hle, -⟩ := lenField_spec (Nat.not_lt.1 hbuf) hlen
      simp only [Option.bind_eq_bind, Option.bind_some]
      cases hmask : maskField buf p.2 with
      | none => exact Or.inl ⟨rfl, rfl⟩
      | some q =>
        obtain ⟨-, hle', -⟩ := maskField_spec (Nat.not_lt.1 hbuf) hle hmask
        exact Or.inr ⟨p.1, q.2, q.1, rfl, hle', rfl⟩

theorem lenField_lt {len hdr : ℕ} (h : lenField buf = some (len, hdr)) : len < 2 ^ 64 := by
  have hload : ∀ off n, n ≤ 8 → BigEndian.load (Slices.slice buf off n) < 2 ^ 64 := by
    intro off n hn
    refine (BigEndian.load_lt _).trans_le ?_
    calc 256 ^ (Slices.slice buf off n).length
        ≤ 256 ^ 8 := Nat.pow_le_pow_right (by decide) (by rw [Slices.length_slice]; omega)
      _ = 2 ^ 64 := by decide
  simp only [lenField] at h
  split_ifs at h
  · rw [← (Prod.mk.inj (Option.some.inj h)).1]
    exact hload 2 2 (by decide)
  · rw [← (Prod.mk.inj (Option.some.inj h)).1]
    exact hload 2 8 (by decide)
  · rw [← (Prod.mk.inj (Option.some.inj h)).1]
    exact (UInt8.toNat_lt _).trans (by decide)

theorem header_bounds {p : ℕ × ℕ} (h : p ∈ header buf) : p.1 < 2 ^ 64 ∧ p.2 ≤ buf.length := by
  unfold header at h
  split_ifs at h with hbuf
  · cases h
  · simp only [Option.mem_def, Option.bind_eq_bind, Option.bind_eq_some_iff] at h
    obtain ⟨⟨len, hdr⟩, hlen, ⟨mask, hdr'⟩, hmask, hp⟩ := h
    obtain ⟨-, hle, -⟩ := lenField_spec (Nat.not_lt.1 hbuf) hlen
    obtain ⟨-, hle', -⟩ := maskField_spec (Nat.not_lt.1 hbuf) hle hmask
    rw [← Option.some.inj hp]
    exact ⟨lenField_lt hlen, hle'⟩

/-- A sum that wraps is less than the header's size, so the check lets it through. -/
theorem passes_of_wrap {p : ℕ × ℕ} (h : p ∈ header buf) (hwrap : 2 ^ 64 ≤ p.2 + p.1) :
    Passes buf p.1 p.2 := by
  obtain ⟨hlen, hhdr⟩ := header_bounds h
  have hsum : (p.2 + p.1) % 2 ^ 64 ≤ p.2 + p.1 - 2 ^ 64 := by
    rw [Nat.mod_eq_sub_mod hwrap]
    exact Nat.mod_le _ _
  rw [Passes]
  omega

/-- **Only a wrapped sum gets a frame past the check that is not in the buffer.** -/
theorem inRange_iff (buf : Bytes) : InRange buf ↔ LeavesRoom buf := by
  refine forall₂_congr fun p hp => ⟨fun h => ?_, fun h hpass => ?_⟩
  · by_contra hroom
    have hwrap : 2 ^ 64 ≤ p.2 + p.1 := by omega
    exact absurd (h (passes_of_wrap hp hwrap)).1 (Nat.not_lt.2 hwrap)
  · have hsum : p.2 + p.1 < 2 ^ 64 := by omega
    rw [Passes, Nat.mod_eq_of_lt hsum] at hpass
    exact ⟨hsum, hpass⟩

/-- The parser's own sign of a wrapped sum. -/
theorem nextFrame_wrapped_iff (buf : Bytes) :
    (∃ rest, nextFrame buf = some (.wrapped, rest)) ↔ ¬ LeavesRoom buf := by
  rcases nextFrame_eq_header buf with ⟨hnone, hnext⟩ | ⟨len, hdr, mask, hsome, -, hnext⟩
  · simp [LeavesRoom, hnone, hnext]
  · have hpass := @passes_of_wrap buf (len, hdr) hsome
    simp only [LeavesRoom, hsome, Option.mem_some_iff, forall_eq', hnext, payloadField]
    rw [Passes] at hpass
    by_cases hwrap : hdr + len < 2 ^ 64
    · rw [if_pos hwrap]
      split_ifs <;> simp <;> omega
    · rw [if_neg hwrap, if_neg (Nat.not_lt.2 (hpass (Nat.not_lt.1 hwrap)))]
      simp
      omega

/-! ## The client's stream -/

/-- The loop goes on after a frame that is not a close. -/
def GoesOn : WsRead → Prop
  | .frame f => f.opcode ≠ 0x8
  | .wrapped => False

/-- Every header that the loop comes to in a stream leaves room: the one at the start, and the one
behind any frames but a close. -/
def LeaveRoom (stream : Bytes) : Prop := ∀ todo, reader.Left GoesOn stream todo → LeavesRoom todo

theorem handleFrame_goesOn (h : WsServer) (s : WsSession) {f : WsFrame} (hf : f.opcode ≠ 0x8) :
    (h.handleFrame s f).1.alive = s.alive := by
  rw [handleFrame, if_neg hf]
  simp only [collect]
  split_ifs <;> rfl

theorem outOfRange_notMem_handleFrame (h : WsServer) (s : WsSession) (f : WsFrame) :
    .outOfRange ∉ (h.handleFrame s f).2 := by
  rw [handleFrame]
  simp only
  split_ifs <;> simp

theorem leavesRoom_of_next {stream : Bytes}
    (h : ∀ rest, reader.next stream ≠ some (.wrapped, rest)) : LeavesRoom stream := by
  by_contra hno
  obtain ⟨rest, hwrapped⟩ := (nextFrame_wrapped_iff stream).2 hno
  exact h rest hwrapped

/-- A live session uses a range outside the buffer exactly where a header leaves no room. -/
theorem outOfRange_mem_run_iff (h : WsServer) {s : WsSession} (hs : s.alive = true)
    (stream : Bytes) :
    .outOfRange ∈ (h.handler.run s (reader.items stream).1).2 ↔
      ∃ todo, reader.Left GoesOn stream todo ∧ ¬ LeavesRoom todo := by
  induction stream using Framing.Reader.items.induct reader generalizing s with
  | case1 stream hnone =>
    have hroom : LeavesRoom stream := leavesRoom_of_next fun rest => by simp [hnone]
    rw [Framing.Reader.items_of_none hnone]
    refine iff_of_false (by simp [Framing.Handler.run]) ?_
    rintro ⟨todo, hleft, hno⟩
    rw [hleft.eq_of_none hnone] at hno
    exact hno hroom
  | case2 stream x rest hsome ih =>
    have hlive : h.handler.live s = true := hs
    rw [Framing.Reader.items_of_some hsome, Framing.Handler.run_cons hlive, List.mem_append]
    simp only [Framing.Reader.left_iff_of_some hsome]
    cases x with
    | wrapped =>
      have hno : ¬ LeavesRoom stream := (nextFrame_wrapped_iff stream).1 ⟨rest, hsome⟩
      exact iff_of_true (Or.inl List.mem_cons_self) ⟨stream, Or.inl rfl, hno⟩
    | frame f =>
      have hroom : LeavesRoom stream := leavesRoom_of_next fun rest' => by simp [hsome]
      have hnot : .outOfRange ∉ (h.handler.handle s (.frame f)).2 :=
        h.outOfRange_notMem_handleFrame s f
      by_cases hclose : f.opcode = 0x8
      · -- The loop ends here.
        have hdead : h.handler.live (h.handler.handle s (.frame f)).1 = false := by
          show (h.handleFrame s f).1.alive = false
          rw [handleFrame, if_pos hclose]
        rw [Framing.Handler.run_dead hdead]
        refine iff_of_false (by simpa [Framing.Handler.run] using hnot) ?_
        rintro ⟨todo, rfl | ⟨hgoes, -⟩, hno⟩
        · exact hno hroom
        · exact hgoes hclose
      · have halive : (h.handler.handle s (.frame f)).1.alive = true :=
          (h.handleFrame_goesOn s hclose).trans hs
        rw [or_iff_right hnot, ih halive]
        constructor
        · rintro ⟨todo, hleft, hno⟩
          exact ⟨todo, Or.inr ⟨hclose, hleft⟩, hno⟩
        · rintro ⟨todo, rfl | ⟨-, hleft⟩, hno⟩
          · exact absurd hroom hno
          · exact ⟨todo, hleft, hno⟩

/-- A pass of the parser keeps to the buffer. -/
def PassInRange (c : Conn) : Turn → Prop
  | .parse => c.parsing = true → InRange c.buf
  | _ => True

/-- The header at the front of the buffer leaves room when a pass begins. -/
def PassHasRoom (c : Conn) : Turn → Prop
  | .parse => c.parsing = true → LeavesRoom c.buf
  | _ => True

/-- **Main theorem.** However the threads take turns and the stream is cut, every pass keeps to the
buffer if and only if every header that a pass finds complete leaves room; and the client's thread
never uses a range outside the buffer if and only if that holds of the headers in its stream. -/
theorem no_wrap_iff (h : WsServer) :
    (∀ ts : List Turn,
      Runs.Along (step h) PassInRange {} ts ↔ Runs.Along (step h) PassHasRoom {} ts) ∧
    ∀ chunks : List Bytes, (∀ chunk ∈ chunks, chunk ≠ []) →
      (.outOfRange ∉ (h.clientLoop chunks).2 ↔ LeaveRoom chunks.flatten) := by
  constructor
  · intro ts
    refine Runs.along_congr (I := fun _ => True) (fun _ _ _ => trivial) (fun c t _ => ?_) trivial ts
    cases t with
    | parse => exact imp_congr_right fun _ => inRange_iff c.buf
    | recv chunk => exact Iff.rfl
    | broadcast b => exact Iff.rfl
    | write n => exact Iff.rfl
  · intro chunks hne
    have hloop : h.clientLoop chunks = h.handler.run {} (reader.items ([] ++ chunks.flatten)).1 :=
      reader.feedAll_flatten h.handler rfl hne
    rw [hloop, List.nil_append, outOfRange_mem_run_iff h rfl]
    push Not
    exact Iff.rfl

/-- A text and a ping that arrive in three pieces. -/
theorem no_wrap_pieces :
    LeaveRoom [[0x81, 2, 0x61], [0x62, 0x89], [0x81, 1, 2, 3, 4, 5]].flatten :=
  ((no_wrap_iff ⟨true⟩).2 _ (by decide)).1 (by decide +kernel)

/-- The header of a frame that declares `2 ^ 64 - 1` bytes. -/
def longest : Bytes := [0x82, 0x7F, 0xFF, 0xFF, 0xFF, 0xFF, 0xFF, 0xFF, 0xFF, 0xFF]

/-- Ten bytes from a client: the sum is 9, and the payload's range starts at the end of the buffer
and ends before it. -/
theorem wraps :
    ¬ (∀ ts : List Turn, Runs.Along (step ⟨true⟩) PassInRange {} ts) ∧
      .outOfRange ∈ ((WsServer.mk true).clientLoop [longest]).2 := by
  refine ⟨fun hall => ?_, by decide +kernel⟩
  have hpass : InRange longest := (hall [.recv longest, .parse]).2.1 rfl
  exact absurd (hpass (2 ^ 64 - 1, 10) (by decide +kernel) (by decide)).1 (by decide)

/-! ## The frames of `broadcast` -/

/-- **The parser reads a frame of `broadcast` back**, not masked, and leaves what follows it; and a
part of the frame is not a frame yet. -/
theorem broadcast_read (b : Broadcast) (more : Bytes) :
    nextFrame (b.bytes ++ more) =
        some (.frame { fin := true, opcode := b.opcode, payload := b.data.bytes }, more) ∧
      isMasked (b.bytes ++ more) = false ∧
      ∀ part, part <+: b.bytes → part ≠ b.bytes → nextFrame part = none := by
  have hencodes : reader.Encodes (.frame b.frame) b.bytes := by
    rw [b.bytes_eq_wire]
    exact encodes_wire b.legal_frame
  refine ⟨hencodes more, ?_, fun part hpart hne => hencodes.next_of_prefix hpart hne⟩
  rw [b.bytes_eq_wire]
  exact isMasked_wire b.frame more

end Rtstream.WsServer
