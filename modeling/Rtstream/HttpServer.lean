import Rtstream.MediaTypes
import Rtstream.Lib.Paths
import Mathlib.Tactic.Common

/-!
# The static file server

One thread serves one connection: it reads a request line and headers, and sends a file below
the document root. The only guard on the name is that the path has no `..` in it.

`inside_iff`: a file that is opened lies inside the document root exactly when the request's
target begins with a slash or a question mark. `sibling_opened` is a request whose target does
not, and that is served from a directory next to the root.
-/

namespace Rtstream

/-- The bytes of a text of the source. -/
def ascii (s : String) : Bytes := s.toList.map fun c => c.toNat.toUInt8

/-- What a connection's thread does. -/
inductive HttpEffect
  /-- A file is open for reading. -/
  | opened (name : Bytes)
  | send (bytes : Bytes)
  /-- `handle_mjpeg` sends pictures until the socket fails. -/
  | mjpeg
  /-- The WebSocket server takes the socket over. -/
  | adopt (wsKey : Bytes)
  | closeFd
deriving DecidableEq

structure HttpServer where
  docRoot : Bytes
  /-- `set_ws` was called. -/
  ws : Bool := false
  /-- The root comes from the command line, as a C string. -/
  docRoot_noNul : 0 ∉ docRoot

/-- What `read_request` fills in. -/
structure HttpRequest where
  method : Bytes
  path : Bytes
  websocketUpgrade : Bool := false
  wsKey : Bytes := []
deriving DecidableEq

/-- The files there are, by the name they are opened with. -/
abbrev Files := Bytes → Option Bytes

namespace HttpServer

def slash : UInt8 := 0x2f
def questionMark : UInt8 := 0x3f

/-! ## Reading a request -/

/-- The line without the carriage return at its end. -/
def stripReturn (line : Bytes) : Bytes :=
  if line.getLast? = some 0x0d then line.dropLast else line

/-- The lines that one call of `read_line` after the other returns, up to the first call that
fails. `line` is what the current call has read. -/
def readLine (maxlen : ℕ) (line : Bytes) : Bytes → List Bytes
  | [] => []
  | ch :: stream =>
    if line.length < maxlen then
      if ch = 0x0a then stripReturn line :: readLine maxlen [] stream
      else readLine maxlen (line ++ [ch]) stream
    else []

def isspace (c : UInt8) : Bool := c = 0x20 ∨ 0x09 ≤ c ∧ c ≤ 0x0d

/-- `is >> word`: the next word, and what follows it. -/
def word (line : Bytes) : Option (Bytes × Bytes) :=
  let s := line.dropWhile isspace
  if s = [] then none else some (s.takeWhile (! isspace ·), s.dropWhile (! isspace ·))

/-- The method and the target of a request line. -/
def requestLine (line : Bytes) : Option (Bytes × Bytes) := do
  let (method, words) ← word line
  let (target, _) ← word words
  return (method, target)

def tolower (c : UInt8) : UInt8 := if 0x41 ≤ c ∧ c ≤ 0x5a then c + 0x20 else c

/-- One header line. -/
def header (r : HttpRequest) (line : Bytes) : HttpRequest :=
  let lo := line.map tolower
  let r :=
    if ascii "upgrade:" <+: lo ∧ ascii "websocket" <:+: lo then { r with websocketUpgrade := true }
    else r
  if ascii "sec-websocket-key:" <+: lo then
    { r with wsKey := (line.drop (lo.idxOf 0x3a + 1)).dropWhile (· = 0x20) }
  else r

/-- The path without the query. -/
def stripQuery (path : Bytes) : Bytes := path.takeWhile (· ≠ questionMark)

def maxlen : ℕ := 8192

/-- The first line a client sends, as `read_request` reads it. -/
def firstLine? (stream : Bytes) : Option Bytes := (readLine maxlen [] stream).head?

def readRequest (stream : Bytes) : Option HttpRequest := do
  let line ← firstLine? stream
  let (method, target) ← requestLine line
  let headers := (readLine maxlen [] stream).tail.takeWhile (· ≠ [])
  let r := headers.foldl header { method := method, path := target }
  return { r with path := stripQuery r.path }

/-! ## Answering it -/

/-- The C string that starts a byte string: what `std::ifstream` opens. -/
def cStr (name : Bytes) : Bytes := name.takeWhile (· ≠ 0)

def sendSimple (code : ℕ) (msg : String) : HttpEffect :=
  .send (ascii "HTTP/1.1 " ++ ascii (toString code) ++ ascii " " ++ ascii msg ++
    ascii "\r\nContent-Type: text/plain\r\nContent-Length: " ++ ascii (toString msg.length) ++
    ascii "\r\n\r\n" ++ ascii msg)

def contentType (rel : Bytes) : String :=
  if ascii ".html" <:+ rel then "text/html; charset=utf-8"
  else if ascii ".js" <:+ rel then "application/javascript; charset=utf-8"
  else if ascii ".css" <:+ rel then "text/css; charset=utf-8"
  else if ascii ".png" <:+ rel then "image/png"
  else if ascii ".svg" <:+ rel then "image/svg+xml"
  else "application/octet-stream"

def head (rel body : Bytes) : Bytes :=
  ascii "HTTP/1.1 200 OK\r\nContent-Type: " ++ ascii (contentType rel) ++
    ascii "\r\nContent-Length: " ++ ascii (toString body.length) ++
    ascii "\r\nCache-Control: no-cache\r\n\r\n"

/-- The name below the root: the index page for the root itself. -/
def relName (path : Bytes) : Bytes :=
  if path = [slash] ∨ path = [] then ascii "/index.html" else path

def handleStatic (h : HttpServer) (files : Files) (path : Bytes) : List HttpEffect :=
  let rel := relName path
  if ascii ".." <:+: rel then [sendSimple 403 "Forbidden"]
  else
    let full := h.docRoot ++ rel
    match files (cStr full) with
    | none => [sendSimple 404 "Not Found"]
    | some body => [.opened (cStr full), .send (head rel body), .send body]

/-- A connection on which the client sends `stream`. -/
def handle (h : HttpServer) (files : Files) (stream : Bytes) : List HttpEffect :=
  match readRequest stream with
  | none => [.closeFd]
  | some r =>
    if r.websocketUpgrade ∧ h.ws then [.adopt r.wsKey]
    else if r.method ≠ ascii "GET" then [.closeFd]
    else if r.path = ascii "/stream.mjpeg" then [.mjpeg, .closeFd]
    else h.handleStatic files r.path ++ [.closeFd]

/-! ## What is opened -/

@[simp] theorem header_path (r : HttpRequest) (line : Bytes) :
    (header r line).path = r.path := by
  simp only [header]
  split_ifs <;> rfl

@[simp] theorem foldl_header_path (lines : List Bytes) (r : HttpRequest) :
    (lines.foldl header r).path = r.path := by
  induction lines generalizing r with
  | nil => rfl
  | cons line lines ih => rw [List.foldl_cons, ih, header_path]

theorem readRequest_path {stream : Bytes} {r : HttpRequest} (h : readRequest stream = some r) :
    ∃ line method target, firstLine? stream = some line ∧
      requestLine line = some (method, target) ∧ r.path = stripQuery target := by
  simp only [readRequest, Option.bind_eq_bind, Option.bind_eq_some_iff] at h
  obtain ⟨line, hline, ⟨method, target⟩, hwords, hr⟩ := h
  obtain rfl := Option.some.inj hr
  exact ⟨line, method, target, hline, hwords, by simp⟩

/-- An opened name is the root and a name without `..`, up to the first NUL. -/
theorem opened_handleStatic {h : HttpServer} {files : Files} {path name : Bytes}
    (hopen : .opened name ∈ h.handleStatic files path) :
    ¬ ascii ".." <:+: relName path ∧ name = cStr (h.docRoot ++ relName path) := by
  simp only [handleStatic] at hopen
  split_ifs at hopen with hup
  · simp [sendSimple] at hopen
  · split at hopen
    · simp [sendSimple] at hopen
    · exact ⟨hup, by simpa using hopen⟩

theorem opened_handle {h : HttpServer} {files : Files} {stream name : Bytes}
    (hopen : .opened name ∈ h.handle files stream) :
    ∃ r, readRequest stream = some r ∧ .opened name ∈ h.handleStatic files r.path := by
  unfold handle at hopen
  split at hopen
  · simp at hopen
  · rename_i r hr
    split_ifs at hopen
    · simp at hopen
    · simp at hopen
    · simp at hopen
    · exact ⟨r, hr, by simpa using hopen⟩

/-! ## Where it lies -/

/-- The name lies inside the document root. -/
def Inside (h : HttpServer) (name : Bytes) : Prop :=
  Paths.Inside slash (ascii "..") h.docRoot name

theorem cStr_docRoot (h : HttpServer) (rel : Bytes) :
    cStr (h.docRoot ++ rel) = h.docRoot ++ cStr rel := by
  refine List.takeWhile_append_of_pos fun c hc => ?_
  have : c ≠ 0 := fun hzero => h.docRoot_noNul (hzero ▸ hc)
  simpa using this

theorem head?_cStr (rel : Bytes) : (cStr rel).head? = some slash ↔ rel.head? = some slash := by
  cases rel with
  | nil => rfl
  | cons c rel =>
    rw [cStr, List.takeWhile_cons]
    by_cases hc : c = 0
    · subst hc
      simp [slash]
    · simp [hc]

theorem head?_relName (path : Bytes) :
    (relName path).head? = some slash ↔ path = [] ∨ path.head? = some slash := by
  unfold relName
  split_ifs with hpath
  · rcases hpath with rfl | rfl <;> simp [ascii, slash]
  · simp only [not_or] at hpath
    simp [hpath.2]

theorem stripQuery_rooted {target : Bytes} (hne : target ≠ []) :
    (stripQuery target = [] ∨ (stripQuery target).head? = some slash) ↔
      target.head? = some slash ∨ target.head? = some questionMark := by
  cases target with
  | nil => exact absurd rfl hne
  | cons c target =>
    rw [stripQuery, List.takeWhile_cons]
    by_cases hc : c = questionMark
    · simp [hc]
    · simp [hc]

theorem word_ne_nil {line w rest : Bytes} (h : word line = some (w, rest)) : w ≠ [] := by
  simp only [word] at h
  split_ifs at h with hs
  obtain ⟨rfl, rfl⟩ := Prod.mk.inj (Option.some.inj h)
  intro hnil
  obtain ⟨c, s, hcs⟩ := List.exists_cons_of_ne_nil hs
  have hc := List.head?_dropWhile_not isspace line
  rw [hcs] at hc hnil
  simp_all

theorem target_ne_nil {line method target : Bytes}
    (h : requestLine line = some (method, target)) : target ≠ [] := by
  simp only [requestLine, Option.bind_eq_bind, Option.bind_eq_some_iff] at h
  obtain ⟨⟨m, words⟩, -, ⟨t, rest⟩, ht, heq⟩ := h
  obtain ⟨rfl, rfl⟩ := Prod.mk.inj (Option.some.inj heq)
  exact word_ne_nil ht

/-- **A served file is in the document root exactly when the target is rooted.** The root and the
target are joined as they stand, so only a slash of the client's keeps them apart; a target that
is only a query asks for the index page. -/
theorem inside_iff {h : HttpServer} {files : Files} {stream line method target name : Bytes}
    (hline : firstLine? stream = some line) (hwords : requestLine line = some (method, target))
    (hopen : .opened name ∈ h.handle files stream) :
    h.Inside name ↔ target.head? = some slash ∨ target.head? = some questionMark := by
  obtain ⟨r, hr, hopened⟩ := opened_handle hopen
  obtain ⟨line', method', target', hline', hwords', hpath⟩ := readRequest_path hr
  obtain rfl : line = line' := by simpa [hline] using hline'
  obtain ⟨rfl, rfl⟩ : method = method' ∧ target = target' := by simpa [hwords] using hwords'
  obtain ⟨hup, rfl⟩ := opened_handleStatic hopened
  have hup' : ¬ ascii ".." <:+: cStr (relName r.path) := fun hin =>
    hup (hin.trans (List.takeWhile_prefix _).isInfix)
  rw [Inside, cStr_docRoot, Paths.inside_append_iff hup', head?_cStr, head?_relName, hpath]
  exact stripQuery_rooted (target_ne_nil hwords)

/-! ## Two requests -/

/-- A server whose root is `web`. -/
def webServer : HttpServer := { docRoot := ascii "web", docRoot_noNul := by decide }

/-- A file in the root, and one in the directory next to it. -/
def webFiles : Files := fun name =>
  if name = ascii "web/app.js" ∨ name = ascii "web-private/key" then some (ascii "x") else none

theorem inside_iff_app :
    .opened (ascii "web/app.js") ∈
        webServer.handle webFiles (ascii "GET /app.js?v=1 HTTP/1.1\r\n\r\n") ∧
      webServer.Inside (ascii "web/app.js") := by
  have hline : firstLine? (ascii "GET /app.js?v=1 HTTP/1.1\r\n\r\n") =
      some (ascii "GET /app.js?v=1 HTTP/1.1") := by decide
  have hwords : requestLine (ascii "GET /app.js?v=1 HTTP/1.1") =
      some (ascii "GET", ascii "/app.js?v=1") := by decide
  have hopen : .opened (ascii "web/app.js") ∈
      webServer.handle webFiles (ascii "GET /app.js?v=1 HTTP/1.1\r\n\r\n") := by decide
  exact ⟨hopen, (inside_iff hline hwords hopen).mpr (.inl (by decide))⟩

/-- **A sibling of the root is served.** The target `-private/key` turns `web` into
`web-private/key`. -/
theorem sibling_opened :
    .opened (ascii "web-private/key") ∈
        webServer.handle webFiles (ascii "GET -private/key HTTP/1.1\r\n\r\n") ∧
      ¬ webServer.Inside (ascii "web-private/key") := by
  refine ⟨by decide, ?_⟩
  have hname : ascii "web-private/key" = webServer.docRoot ++ ascii "-private/key" := by decide
  rw [Inside, hname, Paths.inside_append_iff (by decide)]
  decide

end HttpServer

end Rtstream
