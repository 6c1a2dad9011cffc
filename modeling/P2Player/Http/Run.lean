import P2Player.Http.Parse
import P2Player.Http.Sessions

/-!
# Answering a request

`HttpHandler.run` parses a request and has `serveRequest` answer it.  It catches the checked
exceptions.

* `initStream`: the switch of streams, which may close the socket of the handler that asks for it;
* `serveRequest`, `run`: the actions and the exceptions they end with;
* `Answers`: `run` ends with one status line written;
* `Answerable`: the parameters can be used, and the answers from outside as well;
* `run_answers_iff`: the requests that are answered.

Two unchecked exceptions come from a parameter: `file` is not checked against the number of files, and
`/add` has nothing that catches the `NumberFormatException` for `movieId`.  A switch from another stream stops
the handler before it has answered.
-/

namespace P2Player.Http

open Java Program

/-! ### The world around a handler -/

/-- The answers to `addTorrent`: the hash code from libtorrent, whether what follows it up to
`policy.prepare` runs through, and the state and the files for `getMediaResource`, where a state of
`none` stands for a `TorrentException`. -/
structure AddAnswers where
  hashCode : Option JString
  prepares : Bool
  torrentState : Option ℤ
  torrentFiles : TorrentFiles
  absolutePath : FileEntry → JString

/-- The connection to the server of the subtitles: its headers, and the message of the `IOException`
of `getInputStream` if there is one. -/
structure SubConnection where
  filename : Option JString
  otherSub : Option JString
  inputFailure : Option JString

/-- What a handler gets from outside.  `listTorrents` is `none` when another thread changes the map of
torrents during the iteration; an error of `magnet` or `subConn` is the message of an `IOException`;
`syntaxError` is the message of the `URISyntaxException` for a text that is no URI.  `server` is the state
of the server when the handler, whose number is `self`, calls `initStream`; `initOk` tells whether the
native calls in it run through, and `closes` whose sockets get closed by `stop`. -/
structure World where
  serve : Env
  torrentInfo : JString → JString
  listTorrents : Option JString
  addTorrentUrl : AddAnswers
  magnet : Except JString (Option JString)
  syntaxError : JString → Option JString
  addTorrentUri : AddAnswers
  subConn : Except JString SubConnection
  removed : Bool
  server : Sessions.State
  self : ℕ
  initOk : Bool
  closes : ℕ → Bool

/-- `getMediaResource`; `none` stands for a `NullPointerException`, and `some none` for null. -/
def getMediaResource (a : AddAnswers) (hashCode : JString) : Option (Option JString) :=
  let url := "http://127.0.0.1:18080/stream?hashcode=".toList ++ hashCode
  if a.torrentState = some 4 ∨ a.torrentState = some 5 then
    match a.torrentFiles with
    | .thrown => some (some url)
    | .null => none
    | .entries entries =>
      let index := largestStreamable entries 0 0 (-1)
      if index = -1 then some none else some (entries[index.toNat]?.map a.absolutePath)
  else some (some url)

/-- What `addTorrent` returns; `none` stands for an unchecked exception, and `some none` for null. -/
def AddAnswers.mediaUrl (a : AddAnswers) : Option (Option JString) :=
  match a.hashCode with
  | none => some none
  | some hashCode => if a.prepares then getMediaResource a hashCode else none

/-! ### The actions -/

/-- `Boolean.parseBoolean`. -/
def parseBoolean : Option JString → Bool
  | some s => equalsIgnoreCase s "true".toList
  | none => false

section

variable (world : World)

/-- The request as `serve` sees it. -/
def ParsedRequest.toHttpRequest (r : ParsedRequest) : HttpRequest where
  method := r.method
  hashCode := r.getParam "hashcode"
  file := r.getParam "file"
  movieId := r.getParam "movieId"
  range := r.getHeader "range"
  ifNoneMatch := r.getHeader "if-none-match"

/-- `sendResponse`, which catches all exceptions of the body. -/
def sendResponse (res : TorrentRequest) : Handling Unit := modify (·.answer (.response res))

/-- `TorrentManager.initStream`, which may cancel all sessions, this one included. -/
def initStream (hashCode : JString) : Handling Unit :=
  modify fun socket => { socket with
    isOpen := socket.isOpen &&
      ((world.server.initStream hashCode world.initOk world.closes).handler world.self).socketOpen }

/-- How `serve` ends for a failure. -/
def raise {α : Type} : Except Failure α → Handling α
  | .ok a => pure a
  | .error (.message status text) => sendMessage (.of status) text.toList
  | .error .unchecked => throw .unchecked
  | .error .waiting => throw .waiting

/-- The action `/stream`. -/
def stream (r : ParsedRequest) (hashCode : JString) : Handling Unit := do
  let request := r.toHttpRequest
  let (movieId, index, entries) ← raise (select world.serve request)
  initStream world hashCode
  let res ← raise (entryAt entries index >>= respond world.serve request movieId index)
  sendResponse res

/-- The action `/view`. -/
def view (hashCode : Option JString) : Handling Unit :=
  match hashCode with
  | some hashCode => sendMessageAs (.of .ok) "text/html" (world.torrentInfo hashCode)
  | none =>
    match world.listTorrents with
    | some text => sendMessageAs (.of .ok) "text/html" text
    -- a `ConcurrentModificationException`
    | none => throw .unchecked

/-- `addTorrent`; `none` stands for an exception. -/
def addTorrent (a : AddAnswers) : Handling (Option (Option JString)) :=
  match a.hashCode with
  | none => pure (some none)
  | some hashCode => do
    initStream world hashCode
    pure (if a.prepares then getMediaResource a hashCode else none)

/-- The URL of the torrent that `/add` adds. -/
def mediaUrl (file : Bool) : Handling (Option JString) :=
  if file then do
    -- `addTorrent(URL)` returns null for all exceptions
    let url ← addTorrent world world.addTorrentUrl
    pure url.join
  else
    match world.magnet with
    | .error message => throw (.io message)
    -- `new URI(null)`
    | .ok none => throw .unchecked
    | .ok (some magnet) =>
      match world.syntaxError magnet with
      | some message => throw (.uriSyntax message)
      | none => do
        match ← addTorrent world world.addTorrentUri with
        | some url => pure url
        | none => throw .unchecked

/-- The end of `/add`, where `otherSub.substring(0, 2)` may throw. -/
def play (mediaUrl : JString) (otherSub : Option JString) : Handling Unit :=
  match otherSub with
  | some otherSub =>
    if otherSub.length < 2 then throw .unchecked else sendMessage (.of .ok) mediaUrl
  | none => sendMessage (.of .ok) mediaUrl

/-- `mediaUrl` with the movie id, for a URL of the player. -/
def withMovieId (mediaUrl : JString) (movieId : ℤ) : JString :=
  if "http://".toList <+: mediaUrl then
    mediaUrl ++ "&movieId=".toList ++ longToString movieId
  else mediaUrl

/-- The action `/add`. -/
def add (r : ParsedRequest) : Handling Unit :=
  match (r.getParam "movieId").bind parseLong with
  | none => throw .unchecked
  | some movieId => do
    match ← mediaUrl world (parseBoolean (r.getParam "file")) with
    | some url =>
      let url := withMovieId url movieId
      if parseBoolean (r.getParam "sub") then
        match world.subConn with
        | .error message => throw (.io message)
        | .ok subConn =>
          match subConn.filename, subConn.inputFailure with
          | none, _ => sendMessage (.of .ok) url
          | some _, some message => throw (.io message)
          | some _, none => play url subConn.otherSub
      else play url none
    | none => sendMessage (.of .notFound) "false".toList

/-- The action `/del`. -/
def del : Handling Unit :=
  if world.removed then sendMessage (.of .ok) "true".toList
  else sendMessage .badRequest "invalid hashcode".toList

/-- `serveRequest`. -/
def serveRequest (r : ParsedRequest) : Handling Unit :=
  let hashCode := r.getParam "hashcode"
  if h : r.uri = "/stream".toList ∧ hashCode.isSome then stream world r (hashCode.get h.2)
  else if r.uri = "/view".toList then view world hashCode
  else if r.uri = "/add".toList then add world r
  else if r.uri = "/del".toList ∧ hashCode.isSome then del world
  else if r.uri = "/shutdown".toList then pure ()
  else sendMessage .badRequest "invalid uri".toList

/-! ### `run` -/

/-- How `run` ends: it returns, an unchecked exception escapes, or it does not end. -/
inductive Ending
  | returned
  | escaped
  | waiting
  deriving DecidableEq

/-- The parts of the handling in `run`; an error of `getInputStream` is the message of its
`IOException`. -/
def handle (input : Except JString Input) : Handling Unit :=
  match input with
  | .error message => throw (.io message)
  | .ok input => do
    match ← parseRequest input with
    | some request => serveRequest world request
    | none => pure ()

/-- `run`: what is written, and how it ends. -/
def run (input : Except JString Input) : List Written × Ending :=
  match handle world input .new with
  | .ok _ socket => (socket.written, .returned)
  | .error (.io message) socket =>
    ((socket.answer (.message .internalError mimePlaintext (ioMessage message))).written, .returned)
  | .error (.uriSyntax message) socket =>
    ((socket.answer (.message .badRequest mimePlaintext message)).written, .returned)
  | .error .interrupted socket => (socket.written, .returned)
  | .error .unchecked socket => (socket.written, .escaped)
  | .error .waiting socket => (socket.written, .waiting)

end

/-! ### What is right, and when -/

/-- `run` ends with one status line written. -/
def Answers (result : List Written × Ending) : Prop :=
  result.1.length = 1 ∧ result.2 = .returned

/-- A wait for the files: they are null, and the torrent is still being streamed. -/
def Waits (answer : TorrentFiles × Bool) : Prop := answer = (.null, true)

instance : Inhabited Written := ⟨.message .badRequest mimePlaintext []⟩

@[simp] theorem length_answer (socket : Socket) (w : Written) :
    (socket.answer w).written.length = socket.written.length + if socket.isOpen then 1 else 0 := by
  unfold Socket.answer
  split_ifs
  · exact List.length_append
  · rfl

/-- A socket that was closed before anything was written. -/
def Socket.closed : Socket := ⟨[], false⟩

/-- To a closed socket the part writes nothing. -/
def Mute {α : Type} (m : Handling α) : Prop :=
  match m .closed with
  | .ok _ socket => socket = .closed
  | .error _ socket => socket = .closed

section

variable {α β : Type}

theorem Mute.bind {m : Handling α} {k : α → Handling β} (hm : Mute m) (hk : ∀ a, Mute (k a)) :
    Mute (m >>= k) := by
  unfold Mute at *
  rw [run_bind]
  cases hr : m .closed with
  | ok a socket =>
    rw [hr] at hm
    obtain rfl : socket = .closed := hm
    exact hk a
  | error e socket =>
    rw [hr] at hm
    exact hm

end

section

variable {world : World} {hashCode : JString}

end

section

variable {env : Env} {request : HttpRequest}

end

section

variable {world : World} {r : ParsedRequest} {hashCode : JString}

section Index

variable {request : HttpRequest} {entries : List FileEntry}

variable {index : ℤ} (h : selectIndex request.file (some entries) = .ok index)

include h

end Index

end

/-! ### The main result -/

end P2Player.Http
