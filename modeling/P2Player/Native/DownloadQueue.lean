import P2Player.Lib.Cursor
import P2Player.Native.PiecePicker

/-!
# The download queue

`piece_picker` keeps the pieces that are being downloaded in a vector, the most complete first, and the
blocks of all of them in one array: each piece has a place of `m_blocks_per_piece` blocks there.  When
a piece is erased, the blocks in the last place are moved to the one that becomes free.

* `Picker`: the vector, the array, and for each piece whether it is in the vector and whether it is
  complete; the calls of `piece_picker` that change them;
* `pieceCall`, `pieceStep`: the same calls, for the entry of one piece by itself;
* `Placed`: the places are the first ones, each given to one piece, and the flags are right;
* `Acts`: a call has acted on its piece, and on no other;
* `piece_of_run`: in every run of the queue, a piece is as its own calls leave it.

The order in which pieces are picked (`m_pieces` and its boundaries) is left out.
-/

namespace P2Player.DownloadQueue

open P2Player.Stream (BlockState)
open PiecePicker Transition

variable {P : Type*}

/-- What `init` is given; `m_blocks_in_last_piece` is as it is set there. -/
structure Layout where
  blocksPerPiece : ℕ
  blocksInLastPiece : ℕ
  numPieces : ℕ
  pos : 0 < blocksPerPiece
  last_pos : 0 < blocksInLastPiece
  last_le : blocksInLastPiece ≤ blocksPerPiece

/-- `blocks_in_piece`. -/
def Layout.blocksInPiece (L : Layout) (index : ℕ) : ℕ :=
  if index + 1 = L.numPieces then L.blocksInLastPiece else L.blocksPerPiece

theorem Layout.blocksInPiece_le (L : Layout) (index : ℕ) :
    L.blocksInPiece index ≤ L.blocksPerPiece := by
  unfold blocksInPiece
  split_ifs
  · exact L.last_le
  · exact le_rfl

theorem Layout.blocksInPiece_pos (L : Layout) (index : ℕ) : 0 < L.blocksInPiece index := by
  unfold blocksInPiece
  split_ifs
  · exact L.last_pos
  · exact L.pos

/-- `downloading_piece`, where the pointer `info` is a position in `m_block_info`. -/
@[ext]
structure Download where
  state : PieceState
  index : ℕ
  info : ℕ
  finished : ℤ
  writing : ℤ
  requested : ℤ

/-- The blocks that are finished or written, by which the queue is sorted. -/
def Download.complete (d : Download) : ℤ := d.finished + d.writing

/-- `m_downloads`, `m_block_info` with its size, and the flags of `m_piece_map`. -/
structure Picker (P : Type*) where
  downloads : List Download
  blockInfo : ℕ → BlockInfo P
  allocated : ℕ
  downloading : ℕ → Bool
  havePiece : ℕ → Bool

/-- After `init`. -/
def empty : Picker P := ⟨[], fun _ => ⟨none, 0, .none⟩, 0, fun _ => false, fun _ => false⟩

/-- `std::find_if` with `has_index`. -/
def Picker.findPiece (s : Picker P) (index : ℕ) : Option (Cursor Download) :=
  Cursor.find (fun d => d.index = index) s.downloads

/-- The entries, changed or in another order. -/
@[simps]
def Picker.setDownloads (s : Picker P) (downloads : List Download) : Picker P :=
  { s with downloads := downloads }

/-- A block in a new state. -/
@[simps]
def Picker.setBlock (s : Picker P) (k : ℕ) (info : BlockInfo P) : Picker P :=
  { s with blockInfo := Function.update s.blockInfo k info }

variable (L : Layout)

/-- The place of a new piece. -/
def Picker.nextPlace (s : Picker P) : ℕ := s.downloads.length * L.blocksPerPiece

/-- `add_download_piece`; the caller fills in the entry `d`, but for its place. -/
def Picker.addDownloadPiece (s : Picker P) (d : Download) : Picker P :=
  let blockIndex := s.nextPlace L
  { s with
    downloads := s.downloads ++ [{ d with info := blockIndex }]
    allocated := max s.allocated (blockIndex + L.blocksPerPiece)
    blockInfo := fun k =>
      if blockIndex ≤ k ∧ k < blockIndex + L.blocksPerPiece then ⟨none, 0, .none⟩
      else s.blockInfo k }

/-- `std::copy` of the blocks of one place to another. -/
def copyBlocks (blockInfo : ℕ → BlockInfo P) (source target k : ℕ) : BlockInfo P :=
  if target ≤ k ∧ k < target + L.blocksPerPiece then blockInfo (k - target + source)
  else blockInfo k

/-- `erase_download_piece`. -/
def Picker.eraseDownloadPiece (s : Picker P) (i : Cursor Download) : Picker P :=
  match Cursor.find (fun d => d.info = (s.downloads.length - 1) * L.blocksPerPiece) s.downloads with
  | none => s
  | some other =>
    let s := { s with downloading := Function.update s.downloading i.focus.index false }
    if i.left.length = other.left.length then s.setDownloads i.others
    else
      { s with
        downloads :=
          (other.set { other.focus with info := i.focus.info }).toList.eraseIdx i.left.length
        blockInfo := copyBlocks L s.blockInfo other.focus.info i.focus.info }

/-- `sort_piece`; it returns from the first loop when the piece comes to the front there. -/
def sortPiece (dp : Cursor Download) : Cursor Download :=
  let moved := dp.moveLeft fun d j => j.complete < d.complete
  if moved.left = [] ∧ dp.left ≠ [] then moved
  else moved.moveRight fun d j => d.complete < j.complete

/-- The last entry, `m_downloads.end() - 1`, after it is filled in. -/
def Picker.sortLast (s : Picker P) : Picker P :=
  match s.downloads.reverse with
  | [] => s
  | d :: left => s.setDownloads (sortPiece ⟨left, d, []⟩).toList

/-- A piece that was not in the queue: its entry, and its first block. -/
def Picker.start (s : Picker P) (i : ℕ) (d : Download) (info : BlockInfo P) : Picker P :=
  let s' := (s.addDownloadPiece L d).setBlock (s.nextPlace L + i) info
  { s' with downloading := Function.update s.downloading d.index true }

/-- `mark_as_downloading`. -/
def markAsDownloading (index i : ℕ) (peer : Option P) (state : PieceState) (s : Picker P) :
    Picker P × Bool :=
  if s.downloading index = false then
    (s.start L i ⟨state, index, 0, 0, 0, 1⟩ ⟨peer, 1, .requested⟩, true)
  else
    match s.findPiece index with
    | none => (s, false)
    | some c =>
      let d := c.focus
      let info := s.blockInfo (d.info + i)
      if info.state = .writing ∨ info.state = .finished then (s, false)
      else
        let d' := { d with
          state := if d.state = .none then state else d.state
          requested := if info.state = .requested then d.requested else int16 (d.requested + 1) }
        ((s.setBlock (d.info + i) ⟨peer, (info.numPeers + 1) % 2 ^ 14, .requested⟩).setDownloads
          (c.set d').toList, true)

/-- `mark_as_writing`. -/
def markAsWriting (index i : ℕ) (peer : Option P) (s : Picker P) : Picker P × Bool :=
  if s.downloading index = false then
    if s.havePiece index then (s, false)
    else ((s.start L i ⟨.none, index, 0, 0, 1, 0⟩ ⟨peer, 0, .writing⟩).sortLast, true)
  else
    match s.findPiece index with
    | none => (s, false)
    | some c =>
      let d := c.focus
      let info := s.blockInfo (d.info + i)
      let requested := if info.state = .requested then int16 (d.requested - 1) else d.requested
      if info.state = .writing ∨ info.state = .finished then
        ((s.setBlock (d.info + i) { info with peer := peer }).setDownloads
          (c.set { d with requested := requested }).toList, false)
      else
        let d' := { d with
          state := if requested = 0 then .none else d.state
          writing := int16 (d.writing + 1)
          requested := requested }
        ((s.setBlock (d.info + i) ⟨peer, 0, .writing⟩).setDownloads (sortPiece (c.set d')).toList, true)

/-- `mark_as_finished`; a block that was being written leaves the piece where it is. -/
def markAsFinished (index i : ℕ) (peer : Option P) (s : Picker P) : Picker P :=
  if s.downloading index = false then
    if s.havePiece index then s
    else (s.start L i ⟨.none, index, 0, 1, 0, 0⟩ ⟨peer, 0, .finished⟩).sortLast
  else
    match s.findPiece index with
    | none => s
    | some c =>
      let d := c.focus
      let info := s.blockInfo (d.info + i)
      if info.state = .finished then s
      else
        let s := s.setBlock (d.info + i) ⟨peer, info.numPeers, .finished⟩
        if info.state = .writing then
          let d' := { d with finished := int16 (d.finished + 1), writing := int16 (d.writing - 1) }
          s.setDownloads (c.set d').toList
        else
          let d' := { d with finished := int16 (d.finished + 1) }
          s.setDownloads (sortPiece (c.set d')).toList

/-- `abort_download`. -/
def abortDownload (index i : ℕ) (s : Picker P) : Picker P :=
  if s.downloading index = false then s
  else
    match s.findPiece index with
    | none => s
    | some c =>
      let d := c.focus
      let info := s.blockInfo (d.info + i)
      if info.state = .requested then
        if 0 < info.numPeers - 1 then s.setBlock (d.info + i) { info with numPeers := info.numPeers - 1 }
        else
          let requested := int16 (d.requested - 1)
          let s := s.setBlock (d.info + i) ⟨none, 0, .none⟩
          let c' := c.set { d with requested := requested }
          if requested + d.finished + d.writing = 0 then
            (s.setDownloads c'.toList).eraseDownloadPiece L c'
          else
            s.setDownloads (c.set { d with
              state := if requested = 0 then .none else d.state
              requested := requested }).toList
      else s

/-- `write_failed`. -/
def writeFailed (index i : ℕ) (s : Picker P) : Picker P :=
  match s.findPiece index with
  | none => s
  | some c =>
    let d := c.focus
    let info := s.blockInfo (d.info + i)
    if info.state = .finished then s
    else
      let d' := { d with writing := if info.state = .writing then int16 (d.writing - 1) else d.writing }
      let s := s.setBlock (d.info + i) ⟨none, info.numPeers, .none⟩
      let c' := c.set d'
      if d'.finished + d'.writing + d'.requested = 0 then
        (s.setDownloads c'.toList).eraseDownloadPiece L c'
      else s.setDownloads (sortPiece c').toList

/-- `restore_piece`. -/
def restorePiece (index : ℕ) (s : Picker P) : Picker P :=
  match s.findPiece index with
  | none => s
  | some c => s.eraseDownloadPiece L c

/-- `we_have`. -/
def weHave (index : ℕ) (s : Picker P) : Picker P :=
  let s := if s.downloading index then restorePiece L index s else s
  { s with havePiece := Function.update s.havePiece index true }

/-- `we_dont_have`. -/
def weDontHave (index : ℕ) (s : Picker P) : Picker P :=
  { s with havePiece := Function.update s.havePiece index false }

/-- `clear_peer`, in the whole of `m_block_info`. -/
def clearPeer [DecidableEq P] (peer : P) (s : Picker P) : Picker P :=
  { s with blockInfo := fun k => (s.blockInfo k).clearPeer peer }

/-! ### The calls at one piece -/

/-- What the picker knows of one piece. -/
structure Piece (P : Type*) (n : ℕ) where
  entry : Option (DownloadingPiece P n)
  havePiece : Bool

/-- The calls that are about one piece. -/
inductive PieceCall (P : Type*) (n : ℕ)
  | markAsDownloading (i : Fin n) (peer : Option P) (state : PieceState)
  | markAsWriting (i : Fin n) (peer : Option P)
  | markAsFinished (i : Fin n) (peer : Option P)
  | abortDownload (i : Fin n)
  | writeFailed (i : Fin n)
  | restorePiece
  | weHave
  | weDontHave

/-- `write_failed` at the entry. -/
def writeFailedEntry {n : ℕ} (i : Fin n) :
    Option (DownloadingPiece P n) → Option (DownloadingPiece P n)
  | none => none
  | some dp =>
    let info := dp.info i
    if info.state = .finished then some dp
    else
      let writing := if info.state = .writing then int16 (dp.writing - 1) else dp.writing
      if dp.finished + writing + dp.requested = 0 then none
      else some { dp.set i ⟨none, info.numPeers, .none⟩ with writing := writing }

/-- A call at its piece. -/
def pieceCall {n : ℕ} (x : Piece P n) : PieceCall P n → Piece P n
  | .markAsDownloading i peer state =>
    { x with entry := (PiecePicker.markAsDownloading i peer state x.entry).1 }
  | .markAsWriting i peer =>
    { x with entry := (PiecePicker.markAsWriting x.havePiece i peer x.entry).1 }
  | .markAsFinished i peer => { x with entry := PiecePicker.markAsFinished x.havePiece i peer x.entry }
  | .abortDownload i => { x with entry := PiecePicker.abortDownload i x.entry }
  | .writeFailed i => { x with entry := writeFailedEntry i x.entry }
  | .restorePiece => { x with entry := none }
  | .weHave => ⟨none, true⟩
  | .weDontHave => { x with havePiece := false }

/-- The calls of `piece_picker`. -/
inductive Action (P : Type*) (L : Layout)
  | piece (index : ℕ) (call : PieceCall P (L.blocksInPiece index))
  | clearPeer (peer : P)

/-- A call on the queue about one piece. -/
def call (index : ℕ) (s : Picker P) : PieceCall P (L.blocksInPiece index) → Picker P
  | .markAsDownloading i peer state => (markAsDownloading L index i peer state s).1
  | .markAsWriting i peer => (markAsWriting L index i peer s).1
  | .markAsFinished i peer => markAsFinished L index i peer s
  | .abortDownload i => abortDownload L index i s
  | .writeFailed i => writeFailed L index i s
  | .restorePiece => restorePiece L index s
  | .weHave => weHave L index s
  | .weDontHave => weDontHave index s

/-- One call; only a piece of the queue can be restored. -/
def step [DecidableEq P] (s : Picker P) : Action P L → Option (Picker P)
  | .piece index .restorePiece =>
    if s.downloading index then some (restorePiece L index s) else none
  | .piece index c => some (call L index s c)
  | .clearPeer peer => some (clearPeer peer s)

/-- A call as one piece sees it. -/
def pieceStep [DecidableEq P] (index : ℕ) (x : Piece P (L.blocksInPiece index)) :
    Action P L → Piece P (L.blocksInPiece index)
  | .piece q c => if h : q = index then pieceCall x (h ▸ c) else x
  | .clearPeer peer => { x with entry := PiecePicker.clearPeer peer x.entry }

/-! ### The entry of a piece -/

/-- An entry with its blocks. -/
@[simps state finished writing requested]
def Download.view (d : Download) (blockInfo : ℕ → BlockInfo P) (n : ℕ) : DownloadingPiece P n :=
  ⟨d.state, fun i => blockInfo (d.info + i), d.finished, d.writing, d.requested⟩

@[simp] theorem Download.view_info (d : Download) (blockInfo : ℕ → BlockInfo P) (n : ℕ) (i : Fin n) :
    (d.view blockInfo n).info i = blockInfo (d.info + i) := rfl

/-- The entry of a piece in the queue, without its place. -/
def Picker.entry (s : Picker P) (index : ℕ) : Option (DownloadingPiece P (L.blocksInPiece index)) :=
  (s.downloads.find? fun d => d.index = index).map fun d => d.view s.blockInfo _

/-- The queue has distinct pieces, whose places are the first ones of `m_block_info`, and the flags of the
piece map are right. -/
structure Placed (s : Picker P) : Prop where
  nodup : (s.downloads.map Download.index).Nodup
  downloading : ∀ index, s.downloading index = true ↔ index ∈ s.downloads.map Download.index
  places : (s.downloads.map Download.info).Perm
    ((List.range s.downloads.length).map (· * L.blocksPerPiece))
  allocated : s.nextPlace L ≤ s.allocated

variable {L} {s s' : Picker P} {d d' : Download} {rest : List Download} {index : ℕ}

/-- The blocks of different places are different. -/
theorem ne_of_places {n a b i j : ℕ} (ha : n ∣ a) (hb : n ∣ b) (hab : a ≠ b) (hi : i < n)
    (hj : j < n) : a + i ≠ b + j := by
  obtain ⟨x, rfl⟩ := ha
  obtain ⟨y, rfl⟩ := hb
  intro h
  have hx : (n * x + i) / n = x := by rw [Nat.mul_add_div (by omega), Nat.div_eq_of_lt hi, add_zero]
  have hy : (n * y + j) / n = y := by rw [Nat.mul_add_div (by omega), Nat.div_eq_of_lt hj, add_zero]
  rw [h, hy] at hx
  exact hab (by rw [hx])

namespace Placed

theorem info_nodup (h : Placed L s) : (s.downloads.map Download.info).Nodup := by
  refine h.places.nodup_iff.2 (List.nodup_range.map fun a b hab => ?_)
  exact Nat.eq_of_mul_eq_mul_right L.pos hab

theorem mem_info (h : Placed L s) {k : ℕ} :
    k ∈ s.downloads.map Download.info ↔ ∃ j < s.downloads.length, j * L.blocksPerPiece = k := by
  rw [h.places.mem_iff, List.mem_map]
  simp only [List.mem_range]

theorem dvd_info (h : Placed L s) (hd : d ∈ s.downloads) : L.blocksPerPiece ∣ d.info := by
  obtain ⟨j, -, hj⟩ := h.mem_info.1 (List.mem_map_of_mem hd)
  exact ⟨j, by rw [← hj, mul_comm]⟩

theorem findPiece_of_downloading (h : Placed L s) (hdownloading : s.downloading index = true) :
    ∃ c, s.findPiece index = some c := by
  obtain ⟨d, hd, hindex⟩ := List.mem_map.1 ((h.downloading index).1 hdownloading)
  exact Cursor.exists_find_of_mem hd (by simpa using hindex)

/-- The last place belongs to some piece. -/
theorem exists_last (h : Placed L s) (hpos : 0 < s.downloads.length) :
    ∃ other, Cursor.find (fun d => d.info = (s.downloads.length - 1) * L.blocksPerPiece) s.downloads =
      some other := by
  obtain ⟨d, hd, hinfo⟩ := List.mem_map.1 (h.mem_info.2 ⟨s.downloads.length - 1, by omega, rfl⟩)
  exact Cursor.exists_find_of_mem hd (by simpa using hinfo)

theorem entry_of_not_downloading (h : Placed L s) (hdownloading : s.downloading index = false) :
    s.entry L index = none := by
  have hnone : s.downloads.find? (fun d => d.index = index) = none := by
    refine List.find?_eq_none.2 fun d hd hindex => ?_
    have hmem : index ∈ s.downloads.map Download.index :=
      List.mem_map.2 ⟨d, hd, by simpa using hindex⟩
    rw [(h.downloading index).2 hmem] at hdownloading
    cases hdownloading
  rw [Picker.entry, hnone, Option.map_none]

end Placed

/-- The entry that is in front, in any order of the queue. -/
theorem entry_of_perm (hnodup : (s.downloads.map Download.index).Nodup)
    (hperm : s.downloads.Perm (d :: rest)) : s.entry L d.index = some (d.view s.blockInfo _) := by
  rw [Picker.entry, find?_eq_of_perm hnodup hperm, List.find?_cons_of_pos (by simp)]
  rfl

theorem entry_of_perm_of_ne (hnodup : (s.downloads.map Download.index).Nodup)
    (hperm : s.downloads.Perm (d :: rest)) (hne : index ≠ d.index) :
    s.entry L index =
      (rest.find? fun d => d.index = index).map fun d => d.view s.blockInfo _ := by
  rw [Picker.entry, find?_eq_of_perm hnodup hperm, List.find?_cons_of_neg (by simpa using hne.symm)]

/-- What `s'` is when a call on the piece `index` has turned its entry into `e`. -/
structure Acts (L : Layout) (s s' : Picker P) (index : ℕ)
    (e : Option (DownloadingPiece P (L.blocksInPiece index))) : Prop where
  placed : Placed L s'
  entry : s'.entry L index = e
  other : ∀ q ≠ index, s'.entry L q = s.entry L q
  havePiece : s'.havePiece = s.havePiece

/-- The order of the queue is not seen. -/
theorem Acts.perm {e : Option (DownloadingPiece P (L.blocksInPiece index))} (h : Acts L s s' index e)
    {l : List Download} (hperm : l.Perm s'.downloads) :
    Acts L s (s'.setDownloads l) index e := by
  have hnodup := ((hperm.map Download.index).nodup_iff).2 h.placed.nodup
  have hentry : ∀ q, (s'.setDownloads l).entry L q = s'.entry L q := fun q =>
    congrArg (Option.map _) (find?_eq_of_perm hnodup hperm q)
  refine ⟨⟨hnodup, fun q => ?_, ?_, ?_⟩, (hentry _).trans h.entry,
    fun q hq => (hentry q).trans (h.other q hq), h.havePiece⟩
  · exact (h.placed.downloading q).trans (hperm.map Download.index).mem_iff.symm
  · rw [Picker.setDownloads_downloads, hperm.length_eq]
    exact (hperm.map Download.info).trans h.placed.places
  · have hallocated := h.placed.allocated
    unfold Picker.nextPlace at hallocated ⊢
    rwa [Picker.setDownloads_downloads, hperm.length_eq]

/-- An entry whose blocks are the same in another array. -/
theorem Download.view_congr {n : ℕ} {blockInfo blockInfo' : ℕ → BlockInfo P}
    (h : ∀ j < n, blockInfo' (d.info + j) = blockInfo (d.info + j)) :
    d.view blockInfo' n = d.view blockInfo n := by
  unfold Download.view
  congr 1
  exact funext fun j => h j j.2

/-- A block and the entry of its piece are written. -/
theorem acts_setBlock (h : Placed L s) {c : Cursor Download} (hc : s.findPiece index = some c)
    (hindex : d'.index = c.focus.index) (hinfo : d'.info = c.focus.info)
    (i : Fin (L.blocksInPiece index)) (info : BlockInfo P) :
    Acts L s ((s.setBlock (c.focus.info + i) info).setDownloads (c.set d').toList) index
      (some { (c.focus.view s.blockInfo _).set i info with
        state := d'.state, finished := d'.finished, writing := d'.writing
        requested := d'.requested }) := by
  have hlist : c.toList = s.downloads := Cursor.toList_of_find hc
  have hperm : s.downloads.Perm (c.focus :: c.others) := Cursor.perm_of_find hc
  have hperm' : (c.set d').toList.Perm (d' :: c.others) := (c.set d').toList_perm
  obtain rfl : c.focus.index = index := by simpa using Cursor.focus_of_find hc
  have hindices : (c.set d').toList.map Download.index = s.downloads.map Download.index := by
    rw [c.map_toList_set hindex, hlist]
  have hinfos : (c.set d').toList.map Download.info = s.downloads.map Download.info := by
    rw [c.map_toList_set hinfo, hlist]
  have hlength : (c.set d').toList.length = s.downloads.length := by
    rw [← hlist, Cursor.length_toList, Cursor.length_toList, Cursor.others_set]
  have hnodup : ((c.set d').toList.map Download.index).Nodup := hindices ▸ h.nodup
  have hi : (i : ℕ) < L.blocksPerPiece := i.2.trans_le (L.blocksInPiece_le _)
  refine ⟨⟨hnodup, fun q => ?_, ?_, ?_⟩, ?_, fun q hq => ?_, rfl⟩
  · rw [Picker.setDownloads_downloads, hindices]
    exact h.downloading q
  · rw [Picker.setDownloads_downloads, hinfos, hlength]
    exact h.places
  · have hallocated := h.allocated
    unfold Picker.nextPlace at hallocated ⊢
    rwa [Picker.setDownloads_downloads, hlength]
  · have hentry := entry_of_perm (L := L)
      (s := ((s.setBlock (c.focus.info + i) info).setDownloads (c.set d').toList)) hnodup hperm'
    rw [hindex] at hentry
    rw [hentry]
    congr 1
    unfold Download.view
    congr 1
    funext j
    rw [DownloadingPiece.set_info, hinfo]
    rcases eq_or_ne j i with rfl | hj
    · simp [Picker.setBlock]
    · have hne : c.focus.info + (j : ℕ) ≠ c.focus.info + i := by
        simpa [Fin.val_inj] using hj
      rw [Function.update_of_ne hj]
      exact Function.update_of_ne hne ..
  · rw [entry_of_perm_of_ne (s := (s.setBlock (c.focus.info + i) info).setDownloads (c.set d').toList)
      hnodup hperm' (hindex ▸ hq),
      entry_of_perm_of_ne h.nodup hperm hq]
    refine Option.map_congr fun e he => ?_
    have hemem : e ∈ c.others := List.mem_of_find?_eq_some he
    refine Download.view_congr fun j hj => Function.update_of_ne ?_ ..
    have hdistinct : c.focus.info ∉ c.others.map Download.info :=
      (List.nodup_cons.1 ((hperm.map Download.info).nodup_iff.1 h.info_nodup)).1
    refine ne_of_places (h.dvd_info (hperm.mem_iff.2 (List.mem_cons_of_mem _ hemem)))
      (h.dvd_info (hperm.mem_iff.2 List.mem_cons_self)) ?_ (hj.trans_le (L.blocksInPiece_le _)) hi
    exact fun hsame => hdistinct (hsame ▸ List.mem_map_of_mem hemem)

/-- A piece comes into the queue. -/
theorem acts_start (h : Placed L s) (hd : s.downloading d.index = false)
    (i : Fin (L.blocksInPiece d.index)) (info : BlockInfo P) :
    Acts L s (s.start L i d info) d.index
      (some { (addDownloadPiece.set i info : DownloadingPiece P _) with
        state := d.state, finished := d.finished, writing := d.writing, requested := d.requested }) := by
  have hperm : (s.start L i d info).downloads.Perm ({ d with info := s.nextPlace L } :: s.downloads) :=
    List.perm_append_singleton ..
  have hnew : d.index ∉ s.downloads.map Download.index := fun hmem => by
    rw [(h.downloading _).2 hmem] at hd
    cases hd
  have hnodup : ((s.start L i d info).downloads.map Download.index).Nodup :=
    (hperm.map Download.index).nodup_iff.2 (List.nodup_cons.2 ⟨hnew, h.nodup⟩)
  have hi : (i : ℕ) < L.blocksPerPiece := i.2.trans_le (L.blocksInPiece_le _)
  have hlength : (s.start L i d info).downloads.length = s.downloads.length + 1 := hperm.length_eq
  refine ⟨⟨hnodup, fun q => ?_, ?_, ?_⟩, ?_, fun q hq => ?_, rfl⟩
  · rw [(hperm.map Download.index).mem_iff, List.map_cons, List.mem_cons, ← h.downloading]
    by_cases hq : q = d.index
    · simp [hq, Picker.start]
    · simp [hq, Picker.start, Picker.setBlock, Picker.addDownloadPiece]
  · rw [hlength, List.range_succ, List.map_append]
    refine (hperm.map Download.info).trans ?_
    refine (h.places.cons (s.nextPlace L)).trans ?_
    exact (List.perm_append_singleton ..).symm
  · unfold Picker.nextPlace
    rw [hlength, add_one_mul]
    exact le_max_right ..
  · have hentry := entry_of_perm (L := L) hnodup hperm
    rw [hentry]
    congr 1
    unfold Download.view
    congr 1
    funext j
    have hj : (j : ℕ) < L.blocksPerPiece := j.2.trans_le (L.blocksInPiece_le _)
    rw [DownloadingPiece.set_info]
    rcases eq_or_ne j i with rfl | hne
    · simp [Picker.start, Picker.setBlock]
    · have hne' : s.nextPlace L + (j : ℕ) ≠ s.nextPlace L + i := by simpa [Fin.val_inj] using hne
      rw [Function.update_of_ne hne]
      refine (Function.update_of_ne hne' ..).trans (if_pos ?_)
      omega
  · rw [entry_of_perm_of_ne hnodup hperm hq]
    refine Option.map_congr fun e he => ?_
    have hemem : e ∈ s.downloads := List.mem_of_find?_eq_some he
    obtain ⟨j, hj, hinfo⟩ := h.mem_info.1 (List.mem_map_of_mem hemem)
    have hle : (j + 1) * L.blocksPerPiece ≤ s.nextPlace L := Nat.mul_le_mul_right _ hj
    rw [add_one_mul] at hle
    refine Download.view_congr fun k hk => ?_
    have hk' : k < L.blocksPerPiece := hk.trans_le (L.blocksInPiece_le _)
    refine (Function.update_of_ne ?_ ..).trans (if_neg ?_)
    · omega
    · omega

/-- The blocks of a place are copied. -/
theorem copyBlocks_target (blockInfo : ℕ → BlockInfo P) (source target : ℕ) {j : ℕ}
    (hj : j < L.blocksPerPiece) :
    copyBlocks L blockInfo source target (target + j) = blockInfo (source + j) := by
  unfold copyBlocks
  rw [if_pos (by omega), Nat.add_sub_cancel_left, add_comm]

/-- The other places are as they were. -/
theorem copyBlocks_of_ne (blockInfo : ℕ → BlockInfo P) (source : ℕ) {target k j : ℕ}
    (hk : L.blocksPerPiece ∣ k) (htarget : L.blocksPerPiece ∣ target) (hne : k ≠ target)
    (hj : j < L.blocksPerPiece) :
    copyBlocks L blockInfo source target (k + j) = blockInfo (k + j) := by
  unfold copyBlocks
  refine if_neg fun h => ?_
  refine ne_of_places (j := k + j - target) hk htarget hne hj (by omega) ?_
  omega

/-- What a piece that is erased leaves. -/
theorem acts_of_erased (h : Placed L s) {c : Cursor Download} (hc : s.findPiece index = some c)
    (hdownloading : s'.downloading = Function.update s.downloading c.focus.index false)
    (hhave : s'.havePiece = s.havePiece)
    (hindices : s'.downloads.map Download.index = c.others.map Download.index)
    (hplaces : (s'.downloads.map Download.info).Perm
      ((List.range c.others.length).map (· * L.blocksPerPiece)))
    (hallocated : s.allocated ≤ s'.allocated) (hentry : ∀ q ≠ index, s'.entry L q = s.entry L q) :
    Acts L s s' index none := by
  have hperm : s.downloads.Perm (c.focus :: c.others) := Cursor.perm_of_find hc
  have hindex : c.focus.index = index := by simpa using Cursor.focus_of_find hc
  have hlength : s'.downloads.length = c.others.length := by
    simpa using congrArg List.length hindices
  have hnodup := List.nodup_cons.1 ((hperm.map Download.index).nodup_iff.1 h.nodup)
  have hplaced : Placed L s' := by
    refine ⟨hindices ▸ hnodup.2, fun q => ?_, hlength ▸ hplaces, ?_⟩
    · rw [hdownloading, hindices]
      by_cases hq : q = c.focus.index
      · subst hq
        rw [Function.update_self]
        exact iff_of_false (by simp) hnodup.1
      · rw [Function.update_of_ne hq, h.downloading, (hperm.map Download.index).mem_iff,
          List.map_cons, List.mem_cons, or_iff_right hq]
    · have hle := h.allocated
      unfold Picker.nextPlace at hle ⊢
      have hmul : s'.downloads.length * L.blocksPerPiece ≤ s.downloads.length * L.blocksPerPiece :=
        Nat.mul_le_mul_right _ (by rw [hlength, hperm.length_eq]; simp)
      omega
  refine ⟨hplaced, hplaced.entry_of_not_downloading ?_, hentry, hhave⟩
  rw [hdownloading, hindex, Function.update_self]

/-- A piece leaves the queue; the blocks in the last place move to its place. -/
theorem acts_eraseDownloadPiece (h : Placed L s) {c : Cursor Download}
    (hc : s.findPiece index = some c) : Acts L s (s.eraseDownloadPiece L c) index none := by
  have hlist : c.toList = s.downloads := Cursor.toList_of_find hc
  have hperm : s.downloads.Perm (c.focus :: c.others) := Cursor.perm_of_find hc
  have hindex : c.focus.index = index := by simpa using Cursor.focus_of_find hc
  have hlength : s.downloads.length = c.others.length + 1 := hperm.length_eq
  obtain ⟨other, hother⟩ := h.exists_last (by omega)
  have hlist' : c.toList = other.toList := hlist.trans (Cursor.toList_of_find hother).symm
  have hlast : other.focus.info = c.others.length * L.blocksPerPiece := by
    simpa [hlength] using Cursor.focus_of_find hother
  have hnodup : (c.focus :: c.others).map Download.index |>.Nodup :=
    (hperm.map Download.index).nodup_iff.1 h.nodup
  have hplaces : ((c.focus :: c.others).map Download.info).Perm
      (c.others.length * L.blocksPerPiece ::
        (List.range c.others.length).map (· * L.blocksPerPiece)) := by
    refine ((hperm.map Download.info).symm.trans h.places).trans ?_
    rw [hlength, List.range_succ, List.map_append]
    exact List.perm_append_singleton ..
  unfold Picker.eraseDownloadPiece
  rw [hother]
  dsimp only
  by_cases hsame : c.left.length = other.left.length
  · rw [if_pos hsame]
    have hfocus : c.focus.info = c.others.length * L.blocksPerPiece := by
      rw [Cursor.focus_eq_of_left_length hlist' hsame, hlast]
    rw [List.map_cons, hfocus] at hplaces
    refine acts_of_erased h hc rfl rfl rfl hplaces.cons_inv le_rfl fun q hq => ?_
    rw [entry_of_perm_of_ne h.nodup hperm (hindex ▸ hq)]
    rfl
  · rw [if_neg hsame]
    obtain ⟨rest, hrest, herased⟩ := Cursor.exists_perm_eraseIdx_set hlist' hsame
    have hothers : c.others.Perm (other.focus :: rest) := (c.toList_perm.symm.trans hrest).cons_inv
    have herased := herased { other.focus with info := c.focus.info }
    have hindices : ∀ f : Download → ℕ, f { other.focus with info := c.focus.info } = f other.focus →
        ((other.set { other.focus with info := c.focus.info }).toList.eraseIdx c.left.length).map f =
          c.others.map f := fun f hf => Cursor.map_eraseIdx_set c hlist' hf
    refine acts_of_erased h hc rfl rfl (hindices _ rfl) ?_ le_rfl fun q hq => ?_
    · refine (herased.map Download.info).trans ?_
      have hswap : ((c.focus :: c.others).map Download.info).Perm
          (other.focus.info :: c.focus.info :: rest.map Download.info) :=
        ((hothers.map Download.info).cons _).trans (.swap ..)
      rw [hlast] at hswap
      exact (hswap.symm.trans hplaces).cons_inv
    · have hdistinct : c.focus.info ∉ c.others.map Download.info :=
        (List.nodup_cons.1 ((hperm.map Download.info).nodup_iff.1 h.info_nodup)).1
      have hfocus : L.blocksPerPiece ∣ c.focus.info := h.dvd_info (hperm.mem_iff.2 List.mem_cons_self)
      have hnodup' := (hindices Download.index rfl).symm ▸ (List.nodup_cons.1 hnodup).2
      rw [entry_of_perm_of_ne h.nodup hperm (hindex ▸ hq), Picker.entry]
      dsimp only
      rw [find?_eq_of_perm hnodup' herased,
        find?_eq_of_perm (List.nodup_cons.1 hnodup).2 hothers]
      by_cases hmoved : other.focus.index = q
      · rw [List.find?_cons_of_pos (by simpa using hmoved), List.find?_cons_of_pos (by simpa using hmoved)]
        have hblocks : (fun j : Fin (L.blocksInPiece q) =>
            copyBlocks L s.blockInfo other.focus.info c.focus.info (c.focus.info + j)) =
              fun j : Fin (L.blocksInPiece q) => s.blockInfo (other.focus.info + j) :=
          funext fun j => copyBlocks_target _ _ _ (j.2.trans_le (L.blocksInPiece_le _))
        exact congrArg (fun info => some (⟨other.focus.state, info, other.focus.finished,
          other.focus.writing, other.focus.requested⟩ : DownloadingPiece P (L.blocksInPiece q))) hblocks
      · rw [List.find?_cons_of_neg (by simpa using hmoved), List.find?_cons_of_neg (by simpa using hmoved)]
        refine Option.map_congr fun e he => ?_
        have hemem : e ∈ c.others :=
          hothers.mem_iff.2 (List.mem_cons_of_mem _ (List.mem_of_find?_eq_some he))
        refine Download.view_congr fun j hj => ?_
        refine copyBlocks_of_ne _ _ (h.dvd_info (hperm.mem_iff.2 (List.mem_cons_of_mem _ hemem))) hfocus
          (fun hinfo => hdistinct (hinfo ▸ List.mem_map_of_mem hemem))
          (hj.trans_le (L.blocksInPiece_le _))

/-! ### One call at one piece -/

theorem sortPiece_perm (dp : Cursor Download) : (sortPiece dp).toList.Perm dp.toList := by
  unfold sortPiece
  dsimp only
  split_ifs
  · exact Cursor.moveLeft_perm dp
  · exact (Cursor.moveRight_perm _).trans (Cursor.moveLeft_perm dp)

theorem Acts.sortLast {e : Option (DownloadingPiece P (L.blocksInPiece index))}
    (h : Acts L s s' index e) : Acts L s s'.sortLast index e := by
  unfold Picker.sortLast
  split
  · exact h
  · next d left hreverse =>
    refine h.perm ((sortPiece_perm _).trans ?_)
    rw [← List.reverse_reverse s'.downloads, hreverse, List.reverse_cons]
    exact List.Perm.refl _

theorem Acts.refl {e : Option (DownloadingPiece P (L.blocksInPiece index))} (h : Placed L s)
    (he : s.entry L index = e) : Acts L s s index e :=
  ⟨h, he, fun _ _ => rfl, rfl⟩

theorem Placed.entry_of_find (h : Placed L s) {c : Cursor Download}
    (hc : s.findPiece index = some c) : s.entry L index = some (c.focus.view s.blockInfo _) := by
  obtain rfl : c.focus.index = index := by simpa using Cursor.focus_of_find hc
  exact entry_of_perm h.nodup (Cursor.perm_of_find hc)

theorem acts_markAsDownloading (h : Placed L s) (i : Fin (L.blocksInPiece index)) (peer : Option P)
    (state : PieceState) :
    Acts L s (markAsDownloading L index i peer state s).1 index
        (PiecePicker.markAsDownloading i peer state (s.entry L index)).1 ∧
      (markAsDownloading L index i peer state s).2 =
        (PiecePicker.markAsDownloading i peer state (s.entry L index)).2 := by
  unfold markAsDownloading
  by_cases hdownloading : s.downloading index = false
  · rw [if_pos hdownloading, h.entry_of_not_downloading hdownloading]
    exact ⟨acts_start (d := ⟨state, index, 0, 0, 0, 1⟩) h hdownloading i _, rfl⟩
  · rw [if_neg hdownloading]
    obtain ⟨c, hc⟩ := h.findPiece_of_downloading (by simpa using hdownloading)
    have hentry := h.entry_of_find hc
    rw [hc, hentry]
    unfold PiecePicker.markAsDownloading
    dsimp only [Download.view_info]
    by_cases htaken : (s.blockInfo (c.focus.info + i)).state = .writing ∨
        (s.blockInfo (c.focus.info + i)).state = .finished
    · simp only [htaken, ↓reduceIte]
      exact ⟨Acts.refl h hentry, trivial⟩
    · simp only [htaken, ↓reduceIte]
      refine ⟨acts_setBlock h hc ?_ ?_ i _, trivial⟩
      all_goals rfl

theorem acts_markAsWriting (h : Placed L s) (i : Fin (L.blocksInPiece index)) (peer : Option P) :
    Acts L s (markAsWriting L index i peer s).1 index
        (PiecePicker.markAsWriting (s.havePiece index) i peer (s.entry L index)).1 ∧
      (markAsWriting L index i peer s).2 =
        (PiecePicker.markAsWriting (s.havePiece index) i peer (s.entry L index)).2 := by
  unfold markAsWriting
  by_cases hdownloading : s.downloading index = false
  · have hentry := h.entry_of_not_downloading hdownloading
    rw [if_pos hdownloading, hentry]
    unfold PiecePicker.markAsWriting
    cases hhave : s.havePiece index with
    | true => exact ⟨Acts.refl h hentry, rfl⟩
    | false =>
      exact ⟨(acts_start (d := ⟨.none, index, 0, 0, 1, 0⟩) h hdownloading i _).sortLast, rfl⟩
  · rw [if_neg hdownloading]
    obtain ⟨c, hc⟩ := h.findPiece_of_downloading (by simpa using hdownloading)
    rw [hc, h.entry_of_find hc]
    unfold PiecePicker.markAsWriting
    dsimp only [Download.view_info]
    by_cases htaken : (s.blockInfo (c.focus.info + i)).state = .writing ∨
        (s.blockInfo (c.focus.info + i)).state = .finished
    · have hrequested : (s.blockInfo (c.focus.info + i)).state ≠ .requested := by
        rcases htaken with hw | hf
        · simp [hw]
        · simp [hf]
      simp only [htaken, hrequested, ↓reduceIte]
      refine ⟨acts_setBlock h hc ?_ ?_ i _, trivial⟩
      all_goals rfl
    · simp only [htaken, ↓reduceIte]
      refine ⟨(acts_setBlock h hc ?_ ?_ i _).perm (sortPiece_perm _), trivial⟩
      all_goals rfl

theorem acts_markAsFinished (h : Placed L s) (i : Fin (L.blocksInPiece index)) (peer : Option P) :
    Acts L s (markAsFinished L index i peer s) index
      (PiecePicker.markAsFinished (s.havePiece index) i peer (s.entry L index)) := by
  unfold markAsFinished
  by_cases hdownloading : s.downloading index = false
  · have hentry := h.entry_of_not_downloading hdownloading
    rw [if_pos hdownloading, hentry]
    unfold PiecePicker.markAsFinished
    cases hhave : s.havePiece index with
    | true => exact Acts.refl h hentry
    | false => exact (acts_start (d := ⟨.none, index, 0, 1, 0, 0⟩) h hdownloading i _).sortLast
  · rw [if_neg hdownloading]
    obtain ⟨c, hc⟩ := h.findPiece_of_downloading (by simpa using hdownloading)
    have hentry := h.entry_of_find hc
    rw [hc, hentry]
    unfold PiecePicker.markAsFinished
    dsimp only [Download.view_info]
    by_cases hfinished : (s.blockInfo (c.focus.info + i)).state = .finished
    · simp only [hfinished, ↓reduceIte]
      exact Acts.refl h hentry
    · simp only [hfinished, ↓reduceIte]
      by_cases hwriting : (s.blockInfo (c.focus.info + i)).state = .writing
      · simp only [hwriting, ↓reduceIte]
        refine acts_setBlock h hc ?_ ?_ i _
        all_goals rfl
      · simp only [hwriting, ↓reduceIte]
        refine (acts_setBlock h hc ?_ ?_ i _).perm (sortPiece_perm _)
        all_goals rfl

/-- A block is written, and nothing of the entry. -/
theorem acts_setBlock_only (h : Placed L s) {c : Cursor Download} (hc : s.findPiece index = some c)
    (i : Fin (L.blocksInPiece index)) (info : BlockInfo P) :
    Acts L s (s.setBlock (c.focus.info + i) info) index
      (some ((c.focus.view s.blockInfo _).set i info)) := by
  have hset := acts_setBlock h hc (rfl : c.focus.index = c.focus.index) rfl i info
  have hlist : (c.set c.focus).toList = s.downloads := Cursor.toList_of_find hc
  rw [hlist] at hset
  exact hset

/-- The search finds the entry that has been written. -/
theorem findPiece_set {c : Cursor Download} (hc : s.findPiece index = some c)
    (hindex : d'.index = c.focus.index) :
    (s'.setDownloads (c.set d').toList).findPiece index = some (c.set d') := by
  have hfocus : c.focus.index = index := by simpa using Cursor.focus_of_find hc
  exact Cursor.find_set hc (by simp [hindex, hfocus])

/-- After a call, the piece is erased. -/
theorem Acts.erase {e : Option (DownloadingPiece P (L.blocksInPiece index))} (h : Acts L s s' index e)
    {c : Cursor Download} (hc : s'.findPiece index = some c) :
    Acts L s (s'.eraseDownloadPiece L c) index none := by
  have herase := acts_eraseDownloadPiece h.placed hc
  exact ⟨herase.placed, herase.entry, fun q hq => (herase.other q hq).trans (h.other q hq),
    herase.havePiece.trans h.havePiece⟩

theorem acts_abortDownload (h : Placed L s) (i : Fin (L.blocksInPiece index)) :
    Acts L s (abortDownload L index i s) index
      (PiecePicker.abortDownload i (s.entry L index)) := by
  unfold abortDownload
  by_cases hdownloading : s.downloading index = false
  · have hentry := h.entry_of_not_downloading hdownloading
    rw [if_pos hdownloading]
    exact Acts.refl h (by rw [hentry, PiecePicker.abortDownload])
  · rw [if_neg hdownloading]
    obtain ⟨c, hc⟩ := h.findPiece_of_downloading (by simpa using hdownloading)
    have hentry := h.entry_of_find hc
    rw [hc, hentry]
    unfold PiecePicker.abortDownload
    dsimp only [Download.view_info]
    simp only [Download.view_requested, Download.view_finished, Download.view_writing]
    by_cases hrequested : (s.blockInfo (c.focus.info + i)).state = .requested
    · simp only [hrequested, ↓reduceIte]
      by_cases hpeers : 0 < (s.blockInfo (c.focus.info + i)).numPeers - 1
      · simp only [hpeers, ↓reduceIte]
        exact acts_setBlock_only h hc i _
      · simp only [hpeers, ↓reduceIte]
        by_cases herased : int16 (c.focus.requested - 1) + c.focus.finished + c.focus.writing = 0
        · simp only [herased, ↓reduceIte]
          refine (acts_setBlock h hc ?_ ?_ i _).erase (findPiece_set hc ?_)
          all_goals rfl
        · simp only [herased, ↓reduceIte]
          refine acts_setBlock h hc ?_ ?_ i _
          all_goals rfl
    · simp only [hrequested, ↓reduceIte]
      exact Acts.refl h hentry

theorem acts_writeFailed (h : Placed L s) (i : Fin (L.blocksInPiece index)) :
    Acts L s (writeFailed L index i s) index (writeFailedEntry i (s.entry L index)) := by
  unfold writeFailed
  cases hc : s.findPiece index with
  | none =>
    have hentry : s.entry L index = none := by
      refine h.entry_of_not_downloading (Bool.eq_false_iff.2 fun hdownloading => ?_)
      obtain ⟨c, hc'⟩ := h.findPiece_of_downloading hdownloading
      cases hc.symm.trans hc'
    exact Acts.refl h (by rw [hentry, writeFailedEntry])
  | some c =>
    have hentry := h.entry_of_find hc
    rw [hentry]
    unfold writeFailedEntry
    dsimp only [Download.view_info]
    simp only [Download.view_requested, Download.view_finished, Download.view_writing]
    by_cases hfinished : (s.blockInfo (c.focus.info + i)).state = .finished
    · simp only [hfinished, ↓reduceIte]
      exact Acts.refl h hentry
    · simp only [hfinished, ↓reduceIte]
      generalize hwriting : (if (s.blockInfo (c.focus.info + i)).state = .writing then
        int16 (c.focus.writing - 1) else c.focus.writing) = writing
      by_cases herased : c.focus.finished + writing + c.focus.requested = 0
      · simp only [herased, ↓reduceIte]
        refine (acts_setBlock h hc ?_ ?_ i _).erase (findPiece_set hc ?_)
        all_goals rfl
      · simp only [herased, ↓reduceIte]
        refine (acts_setBlock h hc ?_ ?_ i _).perm (sortPiece_perm _)
        all_goals rfl

theorem acts_restorePiece (h : Placed L s) (index : ℕ) :
    Acts L s (restorePiece L index s) index none := by
  unfold restorePiece
  cases hc : s.findPiece index with
  | none =>
    refine Acts.refl h (h.entry_of_not_downloading (Bool.eq_false_iff.2 fun hdownloading => ?_))
    obtain ⟨c, hc'⟩ := h.findPiece_of_downloading hdownloading
    cases hc.symm.trans hc'
  | some c => exact acts_eraseDownloadPiece h hc

theorem Placed.setHavePiece (h : Placed L s) (havePiece : ℕ → Bool) :
    Placed L { s with havePiece := havePiece } :=
  ⟨h.nodup, h.downloading, h.places, h.allocated⟩

/-- The piece as the queue has it. -/
def Picker.piece (L : Layout) (s : Picker P) (index : ℕ) : Piece P (L.blocksInPiece index) :=
  ⟨s.entry L index, s.havePiece index⟩

/-- A call acts on its piece as on the piece by itself, and on no other. -/
theorem placed_call (h : Placed L s) (c : PieceCall P (L.blocksInPiece index)) :
    Placed L (call L index s c) ∧ (call L index s c).piece L index = pieceCall (s.piece L index) c ∧
      ∀ q ≠ index, (call L index s c).piece L q = s.piece L q := by
  have hacts : ∀ {s' : Picker P} {e : Option (DownloadingPiece P (L.blocksInPiece index))},
      Acts L s s' index e → Placed L s' ∧ s'.piece L index = { s.piece L index with entry := e } ∧
        ∀ q ≠ index, s'.piece L q = s.piece L q := by
    intro s' e ha
    refine ⟨ha.placed, ?_, fun q hq => ?_⟩
    · rw [Picker.piece, ha.entry, ha.havePiece]
      rfl
    · rw [Picker.piece, ha.other q hq, ha.havePiece]
      rfl
  cases c with
  | markAsDownloading i peer state => exact hacts (acts_markAsDownloading h i peer state).1
  | markAsWriting i peer => exact hacts (acts_markAsWriting h i peer).1
  | markAsFinished i peer => exact hacts (acts_markAsFinished h i peer)
  | abortDownload i => exact hacts (acts_abortDownload h i)
  | writeFailed i => exact hacts (acts_writeFailed h i)
  | restorePiece => exact hacts (acts_restorePiece h index)
  | weHave =>
    have ha : Acts L s (if s.downloading index then restorePiece L index s else s) index none := by
      split_ifs with hdownloading
      · exact acts_restorePiece h index
      · exact Acts.refl h (h.entry_of_not_downloading (by simpa using hdownloading))
    refine ⟨ha.placed.setHavePiece _, ?_, fun q hq => ?_⟩
    · exact congrArg₂ Piece.mk ha.entry (Function.update_self ..)
    · exact congrArg₂ Piece.mk (ha.other q hq)
        ((Function.update_of_ne hq ..).trans (congrFun ha.havePiece q))
  | weDontHave =>
    refine ⟨h.setHavePiece _, ?_, fun q hq => ?_⟩
    · exact congrArg (Piece.mk _) (Function.update_self ..)
    · exact congrArg (Piece.mk _) (Function.update_of_ne hq ..)

/-- A peer that is forgotten in the whole array is forgotten at each piece. -/
theorem placed_clearPeer [DecidableEq P] (h : Placed L s) (peer : P) :
    Placed L (clearPeer peer s) ∧
      ∀ q, (clearPeer peer s).entry L q = PiecePicker.clearPeer peer (s.entry L q) := by
  refine ⟨⟨h.nodup, h.downloading, h.places, h.allocated⟩, fun q => ?_⟩
  rw [Picker.entry, Picker.entry, PiecePicker.clearPeer, Option.map_map]
  rfl

theorem call_of_step [DecidableEq P] {q : ℕ} {c : PieceCall P (L.blocksInPiece q)}
    (hs : step L s (.piece q c) = some s') : call L q s c = s' := by
  cases c with
  | restorePiece =>
    rw [step] at hs
    split_ifs at hs
    exact Option.some.inj hs
  | _ => exact Option.some.inj hs

/-- One call keeps the places, and each piece sees its own calls. -/
theorem placed_step [DecidableEq P] {a : Action P L} (h : Placed L s) (hs : step L s a = some s') :
    Placed L s' ∧ ∀ index, s'.piece L index = pieceStep L index (s.piece L index) a := by
  cases a with
  | piece q c =>
    obtain rfl := call_of_step hs
    obtain ⟨hplaced, hpiece, hother⟩ := placed_call h c
    refine ⟨hplaced, fun index => ?_⟩
    by_cases hq : q = index
    · subst hq
      rw [hpiece, pieceStep, dif_pos rfl]
    · rw [hother index (Ne.symm hq), pieceStep, dif_neg hq]
  | clearPeer peer =>
    cases hs
    obtain ⟨hplaced, hentry⟩ := placed_clearPeer h peer
    exact ⟨hplaced, fun index => congrArg₂ Piece.mk (hentry index) rfl⟩

theorem placed_empty : Placed L (empty : Picker P) :=
  ⟨List.nodup_nil, fun _ => by simp [empty], List.Perm.refl _, by simp [empty, Picker.nextPlace]⟩

/-- **The queue refines its pieces.**  In every run of the picker, each piece is as its own calls leave it,
whatever the calls on the other pieces and wherever its blocks have been moved. -/
theorem piece_of_run [DecidableEq P] {as : List (Action P L)} (hr : run (step L) empty as = some s)
    (index : ℕ) : Placed L s ∧ s.piece L index = as.foldl (pieceStep L index) ⟨none, false⟩ :=
  run_refines (f := fun s => s.piece L index)
    (fun _ _ _ h hs => ⟨(placed_step h hs).1, (placed_step h hs).2 index⟩) placed_empty hr

/-- Three pieces of two blocks, but for the last one. -/
def threePieces : Layout := ⟨2, 1, 3, by decide, Nat.one_pos, by decide⟩

/-- Two pieces in the queue, and the first one is aborted: the blocks of the second one move. -/
theorem piece_of_run_moved :
    ∃ s : Picker ℕ, Placed threePieces s ∧ s.piece threePieces 1 =
      [Action.piece 0 (.markAsDownloading ⟨0, by decide⟩ (some 7) .fast),
        .piece 1 (.markAsWriting ⟨1, by decide⟩ none), .clearPeer 8,
        .piece 0 (.abortDownload ⟨0, by decide⟩)].foldl (pieceStep threePieces 1) ⟨none, false⟩ :=
  ⟨_, piece_of_run (rfl : run (step threePieces) empty _ = some _) 1⟩

end P2Player.DownloadQueue
