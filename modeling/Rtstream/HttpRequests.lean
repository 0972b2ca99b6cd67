import Rtstream.HttpServer

/-!
# `http_server.h`: the requests a client writes

A request is a line with the method, the target and the version, lines with header fields, and an
empty line. Names of fields may be written in any case, and any number of spaces may precede a
value.

* `readRequest_write`: `read_request` makes of a request what was written: the method, the target up
  to the query, whether a field `Upgrade` asks for a WebSocket, and the value of the last field
  `Sec-WebSocket-Key`; and what is left on the connection is exactly what follows the request.
-/

namespace Rtstream

open HttpServer

/-! ## Requests -/

def HttpServer.colon : UInt8 := 0x3a
def HttpServer.space : UInt8 := 0x20

/-- A header field. -/
structure HttpField where
  name : Bytes
  spaces : ℕ := 1
  value : Bytes
  deriving DecidableEq, Repr

namespace HttpField

def line (f : HttpField) : Bytes := f.name ++ colon :: (List.replicate f.spaces space ++ f.value)

/-- Names are the same in any case. -/
def Named (f : HttpField) (name : Bytes) : Prop := f.name.map tolower = name

instance (f : HttpField) (name : Bytes) : Decidable (f.Named name) :=
  inferInstanceAs (Decidable (f.name.map tolower = name))

/-- The field asks for a WebSocket. -/
def isUpgrade (f : HttpField) : Bool :=
  f.Named (ascii "upgrade") ∧ ascii "websocket" <:+: f.value.map tolower

def isKey (f : HttpField) : Bool := f.Named (ascii "sec-websocket-key")

end HttpField

/-- `read_line` takes the line as a whole, with the carriage return behind it. -/
def LineFits (line : Bytes) : Prop := 0x0a ∉ line ∧ line.length + 1 < maxlen

instance (line : Bytes) : Decidable (LineFits line) :=
  inferInstanceAs (Decidable (0x0a ∉ line ∧ line.length + 1 < maxlen))

structure HttpField.Valid (f : HttpField) : Prop where
  fits : LineFits f.line
  name : colon ∉ f.name
  value : f.value.head? ≠ some space

/-- What a client writes. -/
structure ClientRequest where
  method : Bytes
  target : Bytes
  version : Bytes
  fields : List HttpField
  deriving DecidableEq, Repr

namespace ClientRequest

variable (req : ClientRequest)

def firstLine : Bytes := req.method ++ space :: (req.target ++ space :: req.version)

def ended (line : Bytes) : Bytes := line ++ [0x0d, 0x0a]

def write : Bytes := (req.firstLine :: req.fields.map HttpField.line).flatMap ended ++ ended []

structure Valid : Prop where
  fits : LineFits req.firstLine
  method : req.method ≠ [] ∧ ∀ c ∈ req.method, isspace c = false
  target : req.target ≠ [] ∧ ∀ c ∈ req.target, isspace c = false
  fields : ∀ f ∈ req.fields, f.Valid

/-- What is to be read. -/
def read : HttpRequest where
  method := req.method
  path := stripQuery req.target
  websocketUpgrade := req.fields.any HttpField.isUpgrade
  wsKey := ((req.fields.filter HttpField.isKey).getLast?.map HttpField.value).getD []

end ClientRequest

namespace HttpServer

/-! ## One line at a time -/

/-- A call of `read_line`: the line, and what is left on the connection. -/
def nextLine (maxlen : ℕ) (line : Bytes) : Bytes → Option (Bytes × Bytes)
  | [] => none
  | ch :: stream =>
    if line.length < maxlen then
      if ch = 0x0a then some (stripReturn line, stream) else nextLine maxlen (line ++ [ch]) stream
    else none

theorem readLine_eq (maxlen : ℕ) (line stream : Bytes) :
    readLine maxlen line stream =
      match nextLine maxlen line stream with
      | none => []
      | some (line, rest) => line :: readLine maxlen [] rest := by
  induction stream generalizing line with
  | nil => rfl
  | cons ch stream ih =>
    simp only [readLine, nextLine]
    split_ifs
    · rfl
    · exact ih (line ++ [ch])
    · rfl

theorem nextLine_length {maxlen : ℕ} {line stream line' rest : Bytes}
    (h : nextLine maxlen line stream = some (line', rest)) : rest.length < stream.length := by
  induction stream generalizing line with
  | nil => cases h
  | cons ch stream ih =>
    rw [nextLine] at h
    split_ifs at h with hlen hch
    · obtain ⟨-, rfl⟩ := Prod.mk.inj (Option.some.inj h)
      exact Nat.lt_succ_self _
    · exact (ih h).trans (Nat.lt_succ_self _)

/-- What is left behind the empty line; nothing when a call of `read_line` fails. -/
def afterHeaders (stream : Bytes) : Bytes :=
  match _h : nextLine maxlen [] stream with
  | none => []
  | some (line, rest) => if line = [] then rest else afterHeaders rest
termination_by stream.length
decreasing_by exact nextLine_length _h

theorem afterHeaders_of_some {stream line rest : Bytes}
    (h : nextLine maxlen [] stream = some (line, rest)) :
    afterHeaders stream = if line = [] then rest else afterHeaders rest := by
  rw [afterHeaders]
  split
  · simp_all
  · rename_i line' rest' h'
    obtain ⟨rfl, rfl⟩ : line = line' ∧ rest = rest' := by simpa [h] using h'
    rfl

/-- What `read_request` leaves on the connection. -/
def afterRequest (stream : Bytes) : Bytes :=
  match nextLine maxlen [] stream with
  | none => []
  | some (_, rest) => afterHeaders rest

theorem stripReturn_concat (line : Bytes) : stripReturn (line ++ [0x0d]) = line := by
  rw [stripReturn, List.getLast?_concat, if_pos rfl, List.dropLast_concat]

theorem nextLine_ended {line : Bytes} (h : LineFits line) (more : Bytes) :
    nextLine maxlen [] (ClientRequest.ended line ++ more) = some (line, more) := by
  -- The bytes of `line` are taken one after the other.
  have htake : ∀ todo done : Bytes, 0x0a ∉ todo → done.length + todo.length < maxlen →
      nextLine maxlen done (todo ++ 0x0a :: more) = some (stripReturn (done ++ todo), more) := by
    intro todo
    induction todo with
    | nil =>
      intro done _ hlen
      rw [List.nil_append, nextLine, if_pos (by simpa using hlen), if_pos rfl, List.append_nil]
    | cons ch todo ih =>
      intro done hmem hlen
      obtain ⟨hch, hmem⟩ := not_or.1 fun h => hmem (List.mem_cons.2 h)
      rw [List.length_cons] at hlen
      rw [List.cons_append, nextLine, if_pos (by omega), if_neg (Ne.symm hch),
        ih (done ++ [ch]) hmem (by rw [List.length_append, List.length_singleton]; omega),
        List.append_assoc, List.singleton_append]
  have hfit : ([] : Bytes).length + (line ++ [0x0d]).length < maxlen := by
    rw [List.length_append, List.length_nil, Nat.zero_add]
    exact h.2
  have hmem : 0x0a ∉ line ++ [0x0d] := by simp [h.1]
  have hread := htake (line ++ [0x0d]) [] hmem hfit
  rw [List.nil_append, stripReturn_concat] at hread
  rw [← hread, ClientRequest.ended, List.append_assoc, List.append_assoc]
  rfl

theorem readLine_ended {line : Bytes} (h : LineFits line) (more : Bytes) :
    readLine maxlen [] (ClientRequest.ended line ++ more) = line :: readLine maxlen [] more := by
  rw [readLine_eq, nextLine_ended h]

theorem lineFits_nil : LineFits [] := by decide

theorem readLine_lines {lines : List Bytes} (h : ∀ line ∈ lines, LineFits line) (more : Bytes) :
    readLine maxlen [] (lines.flatMap ClientRequest.ended ++ (ClientRequest.ended [] ++ more)) =
      lines ++ [] :: readLine maxlen [] more := by
  induction lines with
  | nil => rw [List.flatMap_nil, List.nil_append, readLine_ended lineFits_nil, List.nil_append]
  | cons line lines ih =>
    obtain ⟨hline, hlines⟩ := List.forall_mem_cons.1 h
    rw [List.flatMap_cons, List.append_assoc, readLine_ended hline, ih hlines, List.cons_append]

theorem afterHeaders_lines {lines : List Bytes} (h : ∀ line ∈ lines, LineFits line ∧ line ≠ [])
    (more : Bytes) :
    afterHeaders (lines.flatMap ClientRequest.ended ++ (ClientRequest.ended [] ++ more)) =
      more := by
  induction lines with
  | nil =>
    rw [List.flatMap_nil, List.nil_append, afterHeaders_of_some (nextLine_ended lineFits_nil more),
      if_pos rfl]
  | cons line lines ih =>
    obtain ⟨⟨hline, hne⟩, hlines⟩ := List.forall_mem_cons.1 h
    rw [List.flatMap_cons, List.append_assoc, afterHeaders_of_some (nextLine_ended hline _),
      if_neg hne, ih hlines]

/-! ## One field -/

/-- Only letters change, and they become letters. -/
theorem tolower_eq_colon_iff (c : UInt8) : tolower c = colon ↔ c = colon := by
  unfold tolower
  split_ifs with hupper
  · have hne : c + 0x20 ≠ colon := fun h => by
      have hc : c = colon - 0x20 := by rw [← h, UInt8.add_sub_cancel]
      exact absurd hupper.1 (by rw [hc]; decide)
    exact iff_of_false hne fun h => absurd hupper.1 (by rw [h]; decide)
  · rfl

/-- The name ends at the first colon. -/
theorem isPrefix_colon_iff {p name rest : Bytes} (hp : colon ∉ p) (hname : colon ∉ name) :
    p ++ [colon] <+: name ++ colon :: rest ↔ p = name := by
  induction p generalizing name with
  | nil =>
    cases name with
    | nil => simp
    | cons b name => simp_all
  | cons a p ih =>
    cases name with
    | nil =>
      rw [List.nil_append, List.cons_append, List.cons_prefix_cons]
      exact iff_of_false (fun h => hp (h.1 ▸ List.mem_cons_self)) (List.cons_ne_nil _ _)
    | cons b name =>
      simp only [List.mem_cons, not_or] at hp hname
      rw [List.cons_append, List.cons_append, List.cons_prefix_cons, ih hp.2 hname.2,
        List.cons.injEq]

/-- What starts with a byte that `a` does not have lies behind `a`. -/
theorem isInfix_append_of_not_mem {c : UInt8} {p a b : Bytes} (hc : c ∉ a) :
    c :: p <:+: a ++ b ↔ c :: p <:+: b := by
  induction a with
  | nil => rfl
  | cons d a ih =>
    simp only [List.mem_cons, not_or] at hc
    rw [List.cons_append, List.infix_cons_iff, List.cons_prefix_cons, ih hc.2]
    exact or_iff_right fun h => hc.1 h.1

variable {f : HttpField}

theorem map_tolower_line (f : HttpField) : f.line.map tolower =
    f.name.map tolower ++ colon :: (List.replicate f.spaces space ++ f.value.map tolower) := by
  rw [HttpField.line, List.map_append, List.map_cons, List.map_append, List.map_replicate]
  rfl

theorem colon_not_mem_lower (h : colon ∉ f.name) : colon ∉ f.name.map tolower := by
  intro hmem
  obtain ⟨c, hc, hlow⟩ := List.mem_map.1 hmem
  exact h ((tolower_eq_colon_iff c).1 hlow ▸ hc)

theorem named_iff (h : f.Valid) {name : Bytes} (hname : colon ∉ name) :
    name ++ [colon] <+: f.line.map tolower ↔ f.Named name := by
  rw [map_tolower_line, isPrefix_colon_iff hname (colon_not_mem_lower h.name)]
  exact eq_comm

theorem isUpgrade_iff (h : f.Valid) :
    (ascii "upgrade:" <+: f.line.map tolower ∧ ascii "websocket" <:+: f.line.map tolower) ↔
      f.isUpgrade = true := by
  rw [show ascii "upgrade:" = ascii "upgrade" ++ [colon] by decide, named_iff h (by decide)]
  simp only [HttpField.isUpgrade, decide_eq_true_eq]
  refine and_congr_right fun hnamed => ?_
  -- `websocket` starts with a byte that stands nowhere before the value.
  have hhead : (0x77 : UInt8) ∉ ascii "upgrade" ++ colon :: List.replicate f.spaces space := by
    intro hmem
    rcases List.mem_append.1 hmem with hmem | hmem
    · exact absurd hmem (by decide)
    · rcases List.mem_cons.1 hmem with hmem | hmem
      · exact absurd hmem (by decide)
      · exact absurd (List.eq_of_mem_replicate hmem) (by decide)
  rw [map_tolower_line, show f.name.map tolower = ascii "upgrade" from hnamed, ← List.cons_append,
    ← List.append_assoc]
  exact isInfix_append_of_not_mem hhead

theorem value_of_line (h : f.Valid) :
    (f.line.drop ((f.line.map tolower).idxOf colon + 1)).dropWhile (· = space) = f.value := by
  have hidx : (f.line.map tolower).idxOf colon = f.name.length := by
    rw [map_tolower_line, List.idxOf_append_of_notMem (colon_not_mem_lower h.name),
      List.idxOf_cons_self, Nat.add_zero, List.length_map]
  have hdrop : f.line.drop (f.name.length + 1) = List.replicate f.spaces space ++ f.value := by
    rw [HttpField.line, List.append_cons]
    exact List.drop_left' (by rw [List.length_append, List.length_singleton])
  rw [hidx, hdrop, List.dropWhile_append_of_pos (by simp)]
  have hvalue := h.value
  cases hv : f.value with
  | nil => rfl
  | cons b value =>
    rw [hv] at hvalue
    rw [List.dropWhile_cons_of_neg]
    simpa using hvalue

theorem header_line (h : f.Valid) (r : HttpRequest) : header r f.line =
    { r with
      websocketUpgrade := r.websocketUpgrade || f.isUpgrade
      wsKey := if f.isKey then f.value else r.wsKey } := by
  have hkey : ascii "sec-websocket-key:" <+: f.line.map tolower ↔ f.isKey = true := by
    rw [show ascii "sec-websocket-key:" = ascii "sec-websocket-key" ++ [colon] by decide,
      named_iff h (by decide), HttpField.isKey, decide_eq_true_iff]
  have hvalue : (f.line.drop ((f.line.map tolower).idxOf 0x3a + 1)).dropWhile (· = 0x20) =
      f.value := value_of_line h
  simp only [header, isUpgrade_iff h, hkey, hvalue]
  cases f.isUpgrade <;> cases f.isKey <;> simp

theorem foldl_header {fields : List HttpField} (h : ∀ f ∈ fields, f.Valid) (r : HttpRequest) :
    (fields.map HttpField.line).foldl header r =
      { r with
        websocketUpgrade := r.websocketUpgrade || fields.any HttpField.isUpgrade
        wsKey := ((fields.filter HttpField.isKey).getLast?.map HttpField.value).getD r.wsKey } := by
  induction fields generalizing r with
  | nil => simp
  | cons f fields ih =>
    obtain ⟨hf, hfields⟩ := List.forall_mem_cons.1 h
    rw [List.map_cons, List.foldl_cons, header_line hf, ih hfields, List.any_cons, Bool.or_assoc]
    cases hk : f.isKey with
    | false => rw [List.filter_cons_of_neg (by simp [hk])]; rfl
    | true =>
      rw [List.filter_cons_of_pos hk, List.getLast?_cons]
      cases (fields.filter HttpField.isKey).getLast? <;> rfl

/-! ## The first line -/

theorem word_append {w rest : Bytes} (hw : w ≠ [] ∧ ∀ c ∈ w, isspace c = false) (gap : Bytes)
    (hgap : ∀ c ∈ gap, isspace c = true) :
    word (gap ++ (w ++ space :: rest)) = some (w, space :: rest) := by
  have hblank : (! isspace space) = false := by decide
  obtain ⟨hne, hword⟩ := hw
  have hskip : (gap ++ (w ++ space :: rest)).dropWhile isspace = w ++ space :: rest := by
    rw [List.dropWhile_append_of_pos hgap]
    obtain ⟨c, w, rfl⟩ := List.exists_cons_of_ne_nil hne
    rw [List.cons_append, List.dropWhile_cons_of_neg (by simp [hword])]
  have hin : ∀ c ∈ w, (! isspace c) = true := by simpa using hword
  simp only [word, hskip]
  rw [if_neg (by simp), List.takeWhile_append_of_pos hin, List.dropWhile_append_of_pos hin,
    List.takeWhile_cons_of_neg (by simp [hblank]), List.dropWhile_cons_of_neg (by simp [hblank]),
    List.append_nil]

theorem requestLine_firstLine {req : ClientRequest} (h : req.Valid) :
    requestLine req.firstLine = some (req.method, req.target) := by
  have hmethod : word req.firstLine =
      some (req.method, space :: (req.target ++ space :: req.version)) :=
    word_append h.method [] (by simp)
  have htarget : word (space :: (req.target ++ space :: req.version)) =
      some (req.target, space :: req.version) :=
    word_append h.target [space] (List.forall_mem_singleton.2 rfl)
  simp only [requestLine, hmethod, htarget, Option.bind_eq_bind, Option.bind_some, Option.pure_def]

/-! ## The request -/

theorem lineFits_of_mem {req : ClientRequest} (h : req.Valid) :
    ∀ line ∈ req.firstLine :: req.fields.map HttpField.line, LineFits line := by
  refine List.forall_mem_cons.2 ⟨h.fits, fun line hline => ?_⟩
  obtain ⟨f, hf, rfl⟩ := List.mem_map.1 hline
  exact (h.fields f hf).fits

theorem line_ne_nil (f : HttpField) : f.line ≠ [] := by
  rw [HttpField.line]
  exact List.append_ne_nil_of_right_ne_nil _ (List.cons_ne_nil _ _)

/-- **What is left on the connection is what follows the request.** -/
theorem afterRequest_write {req : ClientRequest} (h : req.Valid) (more : Bytes) :
    afterRequest (req.write ++ more) = more := by
  have hlines : ∀ line ∈ req.fields.map HttpField.line, LineFits line ∧ line ≠ [] := by
    intro line hline
    obtain ⟨f, hf, rfl⟩ := List.mem_map.1 hline
    exact ⟨(h.fields f hf).fits, line_ne_nil f⟩
  rw [afterRequest, ClientRequest.write, List.flatMap_cons, List.append_assoc, List.append_assoc,
    nextLine_ended h.fits]
  exact afterHeaders_lines hlines more

theorem readRequest_eq {req : ClientRequest} (h : req.Valid) (more : Bytes) :
    readRequest (req.write ++ more) = some req.read := by
  have hlines := readLine_lines (lineFits_of_mem h) more
  rw [← List.append_assoc] at hlines
  -- The lines up to the empty one are those of the fields.
  have hfields : ((req.fields.map HttpField.line) ++ [] :: readLine maxlen [] more).takeWhile
      (· ≠ []) = req.fields.map HttpField.line := by
    rw [List.takeWhile_append_of_pos, List.takeWhile_cons_of_neg (by simp), List.append_nil]
    intro line hline
    obtain ⟨f, -, rfl⟩ := List.mem_map.1 hline
    simpa using line_ne_nil f
  simp only [readRequest, firstLine?, ClientRequest.write, hlines, List.cons_append,
    List.head?_cons, List.tail_cons, hfields, Option.bind_eq_bind, Option.bind_some,
    requestLine_firstLine h, foldl_header h.fields]
  rfl

/-- **A request is read as it was written**, and the reading stops where the request ends. -/
theorem readRequest_write {req : ClientRequest} (h : req.Valid) (more : Bytes) :
    readRequest (req.write ++ more) = some req.read ∧ afterRequest (req.write ++ more) = more :=
  ⟨readRequest_eq h more, afterRequest_write h more⟩

/-- What a browser sends for a WebSocket, the names written as it likes. -/
def upgradeRequest : ClientRequest where
  method := ascii "GET"
  target := ascii "/ws?tab=2"
  version := ascii "HTTP/1.1"
  fields := [⟨ascii "Host", 1, ascii "localhost:8080"⟩, ⟨ascii "UPGRADE", 0, ascii "WebSocket"⟩,
    ⟨ascii "Sec-WebSocket-Key", 2, ascii "dGhlIHNhbXBsZSBub25jZQ=="⟩]

theorem upgradeRequest_valid : upgradeRequest.Valid where
  fits := by decide
  method := by decide +kernel
  target := by decide +kernel
  fields := by
    intro f hf
    simp only [upgradeRequest, List.mem_cons, List.not_mem_nil, or_false] at hf
    rcases hf with rfl | rfl | rfl <;> exact ⟨by decide, by decide, by decide⟩

theorem readRequest_write_upgrade :
    readRequest (upgradeRequest.write ++ [0x81]) =
        some ⟨ascii "GET", ascii "/ws", true, ascii "dGhlIHNhbXBsZSBub25jZQ=="⟩ ∧
      afterRequest (upgradeRequest.write ++ [0x81]) = [0x81] := by
  have hread : upgradeRequest.read =
      ⟨ascii "GET", ascii "/ws", true, ascii "dGhlIHNhbXBsZSBub25jZQ=="⟩ := by decide
  exact hread ▸ readRequest_write upgradeRequest_valid [0x81]

end HttpServer

end Rtstream
