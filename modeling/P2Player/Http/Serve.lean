import P2Player.Java.Text

/-!
# Answering a stream request

`HttpHandler.serve` finds the file a `/stream` request asks for, reads its `Range` header and fills
in a `TorrentRequest`: the status, the headers, and the part of the file that the body will be.

* `parseRange`: the first and last position left behind by the two `Long.parseLong`s;
* `select`, `locate`, `serve`: the request's parameters, the native answers and the response;
* `Announces`: what a partial answer should say of the bytes from `a` to `b`;
* `serve_partial_iff`: a partial answer says it of some bytes inside the file exactly when the
  header does not give two numbers that are reversed or reach beyond the file.
-/

namespace P2Player.Http

open Java

/-- The status lines used by `serve`. -/
inductive HttpStatus
  | ok
  | partialContent
  | rangeNotSatisfiable
  | notModified
  | forbidden
  | notFound
  deriving DecidableEq

/-- The headers set by `serve`. -/
inductive HeaderName
  | contentLength
  | contentRange
  | eTag
  | acceptRanges
  deriving DecidableEq

/-- `HttpRequest.METHOD_GET`. -/
def methodGet : ℤ := 1

/-- `HttpRequest.METHOD_HEAD`. -/
def methodHead : ℤ := 2

/-- A parsed request: its method, and the parameters and headers that `serve` looks up. -/
structure HttpRequest where
  method : ℤ
  hashCode : Option JString
  file : Option JString
  movieId : Option JString
  range : Option JString
  ifNoneMatch : Option JString

/-- A response.  The fields that a constructor does not set keep Java's defaults. -/
structure TorrentRequest where
  status : HttpStatus
  mimeType : String
  movieId : ℤ := 0
  hashCode : Option JString := none
  index : ℤ := 0
  transferOffset : ℤ := 0
  dataLength : ℤ := 0
  headers : HeaderName → Option JString := fun _ => none

/-- `TorrentRequest.setHeader`. -/
def TorrentRequest.setHeader (res : TorrentRequest) (name : HeaderName) (value : JString) :
    TorrentRequest :=
  { res with headers := Function.update res.headers name (some value) }

/-- A file of a torrent; `streamable` is what `FileUtils.isStreamable` says of its path. -/
structure FileEntry where
  path : JString
  size : ℤ
  streamable : Bool
  isLong_size : IsLong size

/-- An answer of the native `getTorrentFiles`. -/
inductive TorrentFiles
  | thrown
  | null
  | entries (entries : List FileEntry)

/-- What `serve` gets from outside: the successive answers of `getTorrentFiles`, each with whether
the torrent is still being streamed afterwards; the canonical path of a file, unless looking it up
throws an `IOException`; the MIME type for a path; and the hash of path, date and length. -/
structure Env where
  torrentFiles : List (TorrentFiles × Bool)
  canonicalPath : FileEntry → Option JString
  mimeType : JString → String
  eTag : FileEntry → JString

/-- How `serve` ends without a response: `sendMessage` writes an error and leaves by an
`InterruptedException`, an unchecked exception escapes, or the torrent's files are still awaited. -/
inductive Failure
  | message (status : HttpStatus) (text : String)
  | unchecked
  | waiting

/-- The answer to a request for something that is not there. -/
def fileNotFound : Failure := .message .notFound "Error 404, file not found."

/-! ### The range header -/

/-- `"bytes="`. -/
def bytesPrefix : JString := ['b', 'y', 't', 'e', 's', '=']

/-- `startFrom` and `endAt` after the range header has been read. -/
def parseRange : Option JString → ℤ × ℤ
  | none => (0, -1)
  | some range =>
    if bytesPrefix <+: range then
      let range := range.drop bytesPrefix.length
      match range.idxOf? '-' with
      | none => (0, -1)
      | some minus =>
        if 0 < minus then
          match parseLong (range.take minus) with
          | none => (0, -1)
          | some startFrom =>
            match parseLong (range.drop (minus + 1)) with
            | none => (startFrom, -1)
            | some endAt => (startFrom, endAt)
        else (0, -1)
    else (0, -1)

/-- The header asks for the bytes from `a` to `b`. -/
def AsksFor (range : Option JString) (a b : ℤ) : Prop :=
  ∃ first last, range = some (bytesPrefix ++ first ++ '-' :: last) ∧ first ≠ [] ∧ '-' ∉ first ∧
    parseLong first = some a ∧ parseLong last = some b

/-- Two positions that the header asks for are in order and inside a file of length `fileLen`,
unless the last one is negative. -/
def RangeInside (range : Option JString) (fileLen : ℤ) : Prop :=
  ∀ a b, AsksFor range a b → 0 ≤ b → a ≤ b ∧ b < fileLen

/-! ### The response -/

/-- `"bytes " + startFrom + "-" + endAt + "/" + fileLen`. -/
def contentRange (startFrom endAt fileLen : ℤ) : JString :=
  ['b', 'y', 't', 'e', 's', ' '] ++ longToString startFrom ++ '-' :: (longToString endAt ++
    '/' :: longToString fileLen)

/-- `NanoHTTPD.MIME_PLAINTEXT`. -/
def mimePlaintext : String := "text/plain"

/-- The response for the file of length `fileLen` at `index`. -/
def rangeResponse (request : HttpRequest) (movieId index fileLen : ℤ) (mime : String)
    (etag : JString) : TorrentRequest :=
  let (startFrom, endAt) := parseRange request.range
  if request.range.isSome ∧ 0 ≤ startFrom then
    if fileLen ≤ startFrom then
      (({ status := .rangeNotSatisfiable, mimeType := mimePlaintext } : TorrentRequest).setHeader
        .contentRange (['b', 'y', 't', 'e', 's', ' ', '0', '-', '0', '/'] ++
          longToString fileLen)).setHeader .eTag etag
    else
      let endAt := if endAt < 0 then toLong (fileLen - 1) else endAt
      let newLen := toLong (toLong (endAt - startFrom) + 1)
      let dataLen := if newLen < 0 then 0 else newLen
      let res : TorrentRequest :=
        if request.method = methodHead then { status := .partialContent, mimeType := mime }
        else
          { status := .partialContent, mimeType := mime, movieId := movieId,
            hashCode := request.hashCode, index := index, transferOffset := startFrom,
            dataLength := dataLen }
      ((res.setHeader .contentLength (longToString dataLen)).setHeader .contentRange
        (contentRange startFrom endAt fileLen)).setHeader .eTag etag
  else if request.ifNoneMatch = some etag then { status := .notModified, mimeType := mime }
  else
    let res : TorrentRequest :=
      if request.method = methodHead then { status := .ok, mimeType := mime }
      else
        { status := .ok, mimeType := mime, movieId := movieId, hashCode := request.hashCode,
          index := index, transferOffset := 0, dataLength := fileLen }
    (res.setHeader .contentLength (longToString fileLen)).setHeader .eTag etag

/-! ### The file -/

/-- The loop that waits for the torrent's files. -/
def pollEntries : List (TorrentFiles × Bool) → Except Failure (Option (List FileEntry))
  | [] => .error .waiting
  | (.thrown, _) :: _ => .error fileNotFound
  | (.entries entries, _) :: _ => .ok (some entries)
  | (.null, isStreaming) :: rest => if isStreaming then pollEntries rest else .ok none

/-- The loop for the largest streamable file: the largest size so far and its index. -/
def largestStreamable : List FileEntry → (i maxSize index : ℤ) → ℤ
  | [], _, _, index => index
  | entry :: entries, i, maxSize, index =>
    if entry.streamable ∧ maxSize < entry.size then
      largestStreamable entries (i + 1) entry.size i
    else largestStreamable entries (i + 1) maxSize index

/-- The index of the file: the `file` parameter, or the largest streamable file. -/
def selectIndex (file : Option JString) (entries : Option (List FileEntry)) :
    Except Failure ℤ :=
  match file with
  | some file =>
    match parseInt file with
    | some index => .ok index
    | none => .error fileNotFound
  | none => .ok ((entries.map fun entries => largestStreamable entries 0 0 (-1)).getD (-1))

/-- The movie id, the index and the files that a request is about, up to the call of `initStream`. -/
def select (env : Env) (request : HttpRequest) : Except Failure (ℤ × ℤ × List FileEntry) := do
  let movieId ← match request.movieId with
    | none => .ok (-1)
    | some movieId => match parseLong movieId with
      | some movieId => .ok movieId
      | none => .error fileNotFound
  let entries ← pollEntries env.torrentFiles
  let index ← selectIndex request.file entries
  match entries with
  | none => .error fileNotFound
  | some entries => if index = -1 then .error fileNotFound else .ok (movieId, index, entries)

/-- `entries[index]`. -/
def entryAt (entries : List FileEntry) (index : ℤ) : Except Failure FileEntry :=
  if index < 0 then .error .unchecked
  else match entries[index.toNat]? with
    | none => .error .unchecked
    | some entry => .ok entry

/-- The movie id, the index and the file that a request is about. -/
def locate (env : Env) (request : HttpRequest) : Except Failure (ℤ × ℤ × FileEntry) := do
  let (movieId, index, entries) ← select env request
  let entry ← entryAt entries index
  .ok (movieId, index, entry)

/-- The response for the file at `index`. -/
def respond (env : Env) (request : HttpRequest) (movieId index : ℤ) (entry : FileEntry) :
    Except Failure TorrentRequest :=
  match env.canonicalPath entry with
  | none => .error (.message .forbidden "FORBIDDEN: Reading file failed.")
  | some path =>
    .ok ((rangeResponse request movieId index entry.size (env.mimeType path)
      (env.eTag entry)).setHeader .acceptRanges ['b', 'y', 't', 'e', 's'])

/-- `HttpHandler.serve`, apart from the call of `initStream` behind `select`. -/
def serve (env : Env) (request : HttpRequest) : Except Failure TorrentRequest := do
  let (movieId, index, entry) ← locate env request
  respond env request movieId index entry

/-! ### What the header leaves behind -/

/-- The two positions in front of and behind the first minus sign. -/
theorem parseRange_minus {first last : JString} (hne : first ≠ []) (hnot : '-' ∉ first) :
    parseRange (some (bytesPrefix ++ first ++ '-' :: last)) = match parseLong first with
      | none => (0, -1)
      | some startFrom => (startFrom, (parseLong last).getD (-1)) := by
  have hidx : (first ++ '-' :: last).idxOf? '-' = some first.length :=
    indexOf_eq_some_iff.2 ⟨first, last, rfl, hnot, rfl⟩
  have hpre : bytesPrefix <+: bytesPrefix ++ first ++ '-' :: last := by
    rw [List.append_assoc]; exact List.prefix_append _ _
  have hdrop : (bytesPrefix ++ first ++ '-' :: last).drop bytesPrefix.length =
      first ++ '-' :: last := by rw [List.append_assoc, List.drop_left]
  have hlast : (first ++ '-' :: last).drop (first.length + 1) = last := by
    rw [← List.drop_drop, List.drop_left]; rfl
  simp only [parseRange, if_pos hpre, hdrop, hidx, if_pos (List.length_pos_iff.2 hne),
    List.take_left, hlast]
  cases parseLong first with
  | none => rfl
  | some a => cases parseLong last <;> rfl

theorem parseRange_of_asksFor {range : Option JString} {a b : ℤ} (h : AsksFor range a b) :
    parseRange range = (a, b) := by
  obtain ⟨first, last, rfl, hne, hnot, ha, hb⟩ := h
  rw [parseRange_minus hne hnot, ha, hb]
  rfl

/-- The first position is never negative; the last one is negative unless the header gives it. -/
theorem parseRange_cases (range : Option JString) :
    0 ≤ (parseRange range).1 ∧
      (0 ≤ (parseRange range).2 → AsksFor range (parseRange range).1 (parseRange range).2) := by
  have hnone : ∀ b : ℤ, b = -1 → 0 ≤ b → AsksFor range 0 b := fun b hb h => by omega
  unfold parseRange
  split
  · exact ⟨le_rfl, hnone _ rfl⟩
  · rename_i range
    split
    · rename_i hpre
      dsimp only
      split
      · exact ⟨le_rfl, hnone _ rfl⟩
      · rename_i minus hidx
        split
        · rename_i hminus
          obtain ⟨first, last, heq, hnot, hlen⟩ := indexOf_eq_some_iff.1 hidx
          have htake : (range.drop bytesPrefix.length).take minus = first := by
            rw [heq, ← hlen, List.take_left]
          have hdrop : (range.drop bytesPrefix.length).drop (minus + 1) = last := by
            rw [heq, ← hlen, ← List.drop_drop, List.drop_left]; rfl
          rw [htake, hdrop]
          split
          · exact ⟨le_rfl, hnone _ rfl⟩
          · rename_i startFrom hstart
            have hnonneg := parseLong_nonneg hnot hstart
            split
            · exact ⟨hnonneg, fun h => by norm_num at h⟩
            · rename_i endAt hend
              refine ⟨hnonneg, fun _ => ⟨first, last, ?_, ?_, hnot, hstart, hend⟩⟩
              · obtain ⟨rest, rfl⟩ := hpre
                rw [List.drop_left] at heq
                rw [heq, List.append_assoc]
              · exact List.length_pos_iff.1 (hlen ▸ hminus)
        · exact ⟨le_rfl, hnone _ rfl⟩
    · exact ⟨le_rfl, hnone _ rfl⟩

/-! ### Partial answers -/

/-- The response announces the bytes from `a` to `b` of a file of length `fileLen`, and for a GET
it asks the streamer for these. -/
structure Announces (request : HttpRequest) (res : TorrentRequest) (fileLen a b : ℤ) : Prop where
  inside : 0 ≤ a ∧ a ≤ b ∧ b < fileLen
  content_range : res.headers .contentRange = some (contentRange a b fileLen)
  content_length : res.headers .contentLength = some (longToString (b - a + 1))
  body : request.method = methodGet → res.transferOffset = a ∧ res.dataLength = b - a + 1

/-- The texts of two content ranges agree only when their first and last positions do. -/
theorem contentRange_inj {a b a' b' fileLen : ℤ} (ha : 0 ≤ a) (hb : 0 ≤ b) (ha' : 0 ≤ a')
    (hb' : 0 ≤ b') (h : contentRange a b fileLen = contentRange a' b' fileLen) :
    a = a' ∧ b = b' := by
  unfold contentRange at h
  rw [List.append_assoc, List.append_assoc] at h
  obtain ⟨rfl, htail⟩ := longToString_append_inj ha ha' (by decide) (List.append_cancel_left h)
  exact ⟨rfl, (longToString_append_inj hb hb' (by decide) htail).1⟩

section Response

variable {request : HttpRequest} {movieId index fileLen : ℤ} {mime : String} {etag : JString}

/-- `endAt` once a missing last position has been replaced. -/
def lastPosition (range : Option JString) (fileLen : ℤ) : ℤ :=
  if (parseRange range).2 < 0 then toLong (fileLen - 1) else (parseRange range).2

/-- `newLen`, cut off at 0. -/
def partLength (range : Option JString) (fileLen : ℤ) : ℤ :=
  max 0 (toLong (toLong (lastPosition range fileLen - (parseRange range).1) + 1))

/-- A partial answer is given for a first position inside the file. -/
theorem rangeResponse_status206 {res : TorrentRequest}
    (hres : rangeResponse request movieId index fileLen mime etag = res)
    (h : res.status = .partialContent) :
    (parseRange request.range).1 < fileLen ∧
    res.headers .contentRange = some (contentRange (parseRange request.range).1
      (lastPosition request.range fileLen) fileLen) ∧
    res.headers .contentLength = some (longToString (partLength request.range fileLen)) ∧
    (request.method = methodGet → res.transferOffset = (parseRange request.range).1 ∧
      res.dataLength = partLength request.range fileLen) := by
  have hlast : (if (parseRange request.range).2 < 0 then toLong (fileLen - 1)
      else (parseRange request.range).2) = lastPosition request.range fileLen := rfl
  have hpart : ∀ x : ℤ, (if x < 0 then 0 else x) = max 0 x := fun x => by split_ifs <;> omega
  have hlen : max 0 (toLong (toLong (lastPosition request.range fileLen -
      (parseRange request.range).1) + 1)) = partLength request.range fileLen := rfl
  subst hres
  revert h
  simp only [rangeResponse, hlast, hpart, hlen]
  split_ifs with h1 h2 h3 h4 h5 <;> intro h
  · cases h
  · exact ⟨by omega, rfl, rfl, fun hm => by rw [hm] at h3; cases h3⟩
  · exact ⟨by omega, rfl, rfl, fun _ => ⟨rfl, rfl⟩⟩
  all_goals cases h

/-- The last position lies behind the first one inside the file, when the header keeps to the file. -/
theorem lastPosition_inside_iff {range : Option JString} (hlong : IsLong fileLen)
    (hpos : (parseRange range).1 < fileLen) :
    ((parseRange range).1 ≤ lastPosition range fileLen ∧ lastPosition range fileLen < fileLen) ↔
      RangeInside range fileLen := by
  obtain ⟨hstart, hasks⟩ := parseRange_cases range
  obtain ⟨-, hmax⟩ := hlong
  constructor
  · intro h a b hab hb
    have hlast : lastPosition range fileLen = b := by
      rw [lastPosition, parseRange_of_asksFor hab, if_neg (by simpa using hb)]
    rw [hlast, parseRange_of_asksFor hab] at h
    exact h
  · intro h
    unfold lastPosition
    split_ifs with hneg
    · rw [toLong_of_isLong ⟨by omega, by omega⟩]
      omega
    · exact h _ _ (hasks (by omega)) (by omega)

theorem lastPosition_nonneg {range : Option JString} (hlong : IsLong fileLen)
    (hpos : (parseRange range).1 < fileLen) : 0 ≤ lastPosition range fileLen := by
  obtain ⟨hstart, -⟩ := parseRange_cases range
  obtain ⟨-, hmax⟩ := hlong
  unfold lastPosition
  split_ifs with hneg
  · rw [toLong_of_isLong ⟨by omega, by omega⟩]
    omega
  · omega

/-- The length is the number of bytes. -/
theorem partLength_of_inside {range : Option JString} (hlong : IsLong fileLen)
    (h : (parseRange range).1 ≤ lastPosition range fileLen)
    (hlast : lastPosition range fileLen < fileLen) :
    partLength range fileLen = lastPosition range fileLen - (parseRange range).1 + 1 := by
  obtain ⟨hstart, -⟩ := parseRange_cases range
  obtain ⟨-, hmax⟩ := hlong
  rw [partLength, toLong_of_isLong (⟨by omega, by omega⟩ : IsLong (_ - _)),
    toLong_of_isLong ⟨by omega, by omega⟩]
  omega

end Response

/-- The bytes that a partial answer announces are those between the two positions. -/
theorem announces_iff {env : Env} {request : HttpRequest} {movieId index : ℤ} {entry : FileEntry}
    {res : TorrentRequest} (hl : locate env request = .ok (movieId, index, entry))
    (hs : serve env request = .ok res) (h206 : res.status = .partialContent) {a b : ℤ} :
    Announces request res entry.size a b ↔ a = (parseRange request.range).1 ∧
      b = lastPosition request.range entry.size ∧ a ≤ b ∧ b < entry.size := by
  rw [serve, hl] at hs
  simp only [bind, Except.bind, respond] at hs
  split at hs
  · cases hs
  · rename_i path _
    obtain ⟨r, hr⟩ : ∃ r, rangeResponse request movieId index entry.size (env.mimeType path)
      (env.eTag entry) = r := ⟨_, rfl⟩
    rw [hr] at hs
    cases hs
    obtain ⟨hpos, hrange, hlength, hbody⟩ := rangeResponse_status206 hr h206
    obtain ⟨hstart, -⟩ := parseRange_cases request.range
    constructor
    · rintro ⟨⟨ha, hab, hb⟩, hcr, -, -⟩
      -- the text of `Content-Range` gives the two positions back
      have htext : contentRange (parseRange request.range).1
          (lastPosition request.range entry.size) entry.size = contentRange a b entry.size := by
        rw [← Option.some_inj, ← hcr]
        exact hrange.symm
      obtain ⟨rfl, rfl⟩ := contentRange_inj hstart (lastPosition_nonneg entry.isLong_size hpos) ha
        (ha.trans hab) htext
      exact ⟨rfl, rfl, hab, hb⟩
    · rintro ⟨rfl, rfl, hab, hb⟩
      have hpart := partLength_of_inside entry.isLong_size hab hb
      refine ⟨⟨hstart, hab, hb⟩, hrange, ?_, fun hm => ?_⟩
      · rw [← hpart]
        exact hlength
      · rw [← hpart]
        exact hbody hm

/-- A partial answer is given for a first position inside the file. -/
theorem start_lt_of_status206 {env : Env} {request : HttpRequest} {movieId index : ℤ}
    {entry : FileEntry} {res : TorrentRequest}
    (hl : locate env request = .ok (movieId, index, entry)) (hs : serve env request = .ok res)
    (h206 : res.status = .partialContent) : (parseRange request.range).1 < entry.size := by
  rw [serve, hl] at hs
  simp only [bind, Except.bind, respond] at hs
  split at hs
  · cases hs
  · cases hs
    exact (rangeResponse_status206 rfl h206).1

/-- **A partial answer announces some bytes inside the file, and asks the streamer for these,
exactly when the header does not give two positions that are reversed or reach beyond the file.** -/
theorem serve_partial_iff {env : Env} {request : HttpRequest} {movieId index : ℤ}
    {entry : FileEntry} {res : TorrentRequest}
    (hl : locate env request = .ok (movieId, index, entry)) (hs : serve env request = .ok res)
    (h206 : res.status = .partialContent) :
    (∃ a b, Announces request res entry.size a b) ↔ RangeInside request.range entry.size := by
  rw [← lastPosition_inside_iff entry.isLong_size (start_lt_of_status206 hl hs h206)]
  simp only [announces_iff hl hs h206]
  constructor
  · rintro ⟨a, b, rfl, rfl, h⟩
    exact h
  · intro h
    exact ⟨_, _, rfl, rfl, h⟩

/-- A torrent with a single file of 100 bytes. -/
def singleFile : FileEntry := ⟨['a'], 100, true, by decide⟩

/-- The native layer and the file system around it. -/
def singleFileEnv : Env where
  torrentFiles := [(.entries [singleFile], true)]
  canonicalPath entry := some entry.path
  mimeType _ := "application/octet-stream"
  eTag entry := entry.path

/-- A GET with a range header. -/
def getRange (range : JString) : HttpRequest where
  method := methodGet
  hashCode := some ['h']
  file := none
  movieId := none
  range := some range
  ifNoneMatch := none

/-- `bytes=0-49` is answered with the first half of the file. -/
theorem serve_partial_first_half :
    ∃ res, serve singleFileEnv (getRange ['b', 'y', 't', 'e', 's', '=', '0', '-', '4', '9']) =
      .ok res ∧ ∃ a b, Announces (getRange ['b', 'y', 't', 'e', 's', '=', '0', '-', '4', '9']) res
        singleFile.size a b := by
  refine ⟨_, rfl, (@serve_partial_iff singleFileEnv _ (-1) 0 singleFile _ rfl rfl rfl).2
    fun a b hasks _ => ?_⟩
  have hparse := parseRange_of_asksFor hasks
  have h049 : ((0 : ℤ), (49 : ℤ)) = (a, b) := hparse
  cases h049
  decide

/-- `bytes=0-200` is answered with a range that goes 101 bytes beyond the file's end. -/
theorem not_serve_partial_beyond_end :
    ∃ res, serve singleFileEnv (getRange ['b', 'y', 't', 'e', 's', '=', '0', '-', '2', '0', '0']) =
      .ok res ∧ res.status = .partialContent ∧ res.dataLength = 201 ∧
      ¬ ∃ a b, Announces (getRange ['b', 'y', 't', 'e', 's', '=', '0', '-', '2', '0', '0']) res
        singleFile.size a b := by
  refine ⟨_, rfl, rfl, by decide, ?_⟩
  rintro ⟨a, b, ⟨ha, hab, hb⟩, hcr, -, -⟩
  have htext : contentRange 0 200 singleFile.size = contentRange a b singleFile.size :=
    Option.some.inj hcr
  obtain ⟨rfl, rfl⟩ := contentRange_inj le_rfl (by decide) ha (ha.trans hab) htext
  exact absurd hb (by decide)

end P2Player.Http
