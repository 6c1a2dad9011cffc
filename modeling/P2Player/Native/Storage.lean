import P2Player.Lib.Scatter
import P2Player.Lib.Slice
import P2Player.Lib.Transition

/-!
# Pieces and files

The bytes of a torrent are those of its files, one after the other.  Blocks of pieces are written to the files
and read from them by `readwritev`, with vectors of buffers on the one side and files on the other that need
not end at the same places.

* `FileEntry`, `FileStorage`: the files and the pieces;
* `Item`, `extractFiles`: how the table of the files is built from a torrent, and when its entries are
  `Separate`;
* `readv`, `writev`, `transfer`, `readwritev`: the code, with the files and the memory as `World`;
* `Place`, `byteAt`: where a byte of the torrent is, and what is there;
* `Stored`: what is written is at its places, and nothing else has changed;
* `transfer_read`, `transfer_write`: what an operation does to these bytes;
* `readv_of_run`: after any writes a block is read as if the torrent were one array.
-/

namespace P2Player.Storage

open Scatter Transition

variable {Path : Type*}

/-- `file_entry`. -/
structure FileEntry (Path : Type*) where
  path : Path
  size : ℕ
  fileBase : ℕ
  padFile : Bool

/-- No byte belongs to both entries; one file can have several of them. -/
def Separate (e e' : FileEntry Path) : Prop :=
  e.padFile ∨ e'.padFile ∨ e.path ≠ e'.path ∨ e.fileBase + e.size ≤ e'.fileBase ∨
    e'.fileBase + e'.size ≤ e.fileBase

/-- `file_storage`. -/
structure FileStorage (Path : Type*) where
  files : List (FileEntry Path)
  pieceLength : ℕ
  pieceLength_pos : 0 < pieceLength

/-- What the dictionary of a file says: where it is, how long, and whether it is padding. -/
structure Item (Path : Type*) where
  path : Path
  size : ℕ
  padFile : Bool

/-- `extract_single_file`. -/
def extractSingleFile (i : Item Path) : FileEntry Path where
  path := i.path
  size := i.size
  fileBase := 0
  padFile := i.padFile

/-- `add_file`; the offset and the total size are sums of what is before. -/
def addFile (files : List (FileEntry Path)) (ent : FileEntry Path) : List (FileEntry Path) := files ++ [ent]

/-- `extract_files`.  A path that is there already would get a suffix, but `BOOST_VERSON` is defined nowhere. -/
def extractFiles (items : List (Item Path)) : List (FileEntry Path) :=
  items.foldl (fun files i => addFile files (extractSingleFile i)) []

def totalSize (files : List (FileEntry Path)) : ℕ := (files.map FileEntry.size).sum

def FileStorage.numPieces (fs : FileStorage Path) : ℕ :=
  (totalSize fs.files + fs.pieceLength - 1) / fs.pieceLength

/-- `piece_size`. -/
def FileStorage.pieceSize (fs : FileStorage Path) (index : ℕ) : ℕ :=
  if index + 1 = fs.numPieces then totalSize fs.files - index * fs.pieceLength else fs.pieceLength

/-- The files with their bytes, and the memory. -/
structure World (Path : Type*) where
  disk : Path → Option (List UInt8)
  mem : ℕ → UInt8

/-- An operation on a file, with the cache of the system as `disk_io_read_mode` and `disk_io_write_mode` have it
by default: the number of bytes that are transferred, `none` for an error. -/
structure FileOp (Path : Type*) where
  readOnly : Bool
  run : Path → ℕ → List Buffer → World Path → Option (ℕ × World Path)

/-- `file::readv` on the file that is opened, as long as it has bytes. -/
def fileReadv : FileOp Path where
  readOnly := true
  run path offset bufs w := (w.disk path).map fun f =>
    let data := slice f offset (size bufs)
    (data.length, { w with mem := scatter (addresses bufs) data w.mem })

/-- The bytes of a file when some are written; a gap is filled by zeros. -/
def extend (f : List UInt8) (offset : ℕ) (data : List UInt8) : List UInt8 :=
  overwrite (f ++ List.replicate (offset - f.length) 0) offset data

/-- `file::writev`; the file is made when there is none. -/
def fileWritev [DecidableEq Path] : FileOp Path where
  readOnly := false
  run path offset bufs w :=
    let f := extend ((w.disk path).getD []) offset (gather (addresses bufs) w.mem)
    some (size bufs, { w with disk := Function.update w.disk path (some f) })

/-- The first loop of `readwritev`: the file of an offset, with those behind it. -/
def seek : List (FileEntry Path) → ℕ → Option (List (FileEntry Path) × ℕ)
  | [], _ => none
  | e :: files, fileOffset =>
    if fileOffset < e.size then some (e :: files, fileOffset) else seek files (fileOffset - e.size)

/-- The second loop, with `size` as the result when no file makes it return.  It does not go beyond the last
file. -/
def transfer (op : FileOp Path) (size : ℤ) :
    List (FileEntry Path) → ℕ → ℕ → List Buffer → World Path → Option (ℤ × World Path)
  | [], _, bytesLeft, _, w => if bytesLeft = 0 then some (size, w) else none
  | e :: files, fileOffset, bytesLeft, currentBuf, w =>
    if bytesLeft = 0 then some (size, w)
    else
      let fileBytesLeft := if e.size < fileOffset + bytesLeft then e.size - fileOffset else bytesLeft
      if fileBytesLeft = 0 then transfer op size files fileOffset bytesLeft currentBuf w
      else
        let tmpBufs := copyBufs currentBuf fileBytesLeft
        if e.padFile then
          let mem := scatter (addresses tmpBufs) (List.replicate fileBytesLeft 0) w.mem
          transfer op size files 0 (bytesLeft - fileBytesLeft) (advanceBufs currentBuf fileBytesLeft)
            (if op.readOnly then { w with mem := mem } else w)
        else
          match op.run e.path (e.fileBase + fileOffset) tmpBufs w with
          | none => some (-1, w)
          | some (bytesTransferred, w) =>
            if fileBytesLeft ≠ bytesTransferred then some (bytesTransferred, w)
            else transfer op size files 0 (bytesLeft - fileBytesLeft)
              (advanceBufs currentBuf fileBytesLeft) w

/-- `readwritev`. -/
def readwritev (op : FileOp Path) (fs : FileStorage Path) (bufs : List Buffer) (slot offset : ℕ)
    (w : World Path) : Option (ℤ × World Path) :=
  (seek fs.files (slot * fs.pieceLength + offset)).bind fun (files, fileOffset) =>
    let slotSize := fs.pieceSize slot
    let bytesLeft := if slotSize < offset + size bufs then slotSize - offset else size bufs
    transfer op (size bufs) files fileOffset bytesLeft bufs w

/-- `storage::readv`. -/
def readv (fs : FileStorage Path) : List Buffer → ℕ → ℕ → World Path → Option (ℤ × World Path) :=
  readwritev fileReadv fs

/-- `storage::writev`. -/
def writev [DecidableEq Path] (fs : FileStorage Path) : List Buffer → ℕ → ℕ → World Path → Option (ℤ × World Path) :=
  readwritev fileWritev fs

/-! ### The bytes of a torrent -/

/-- Where a byte is. -/
inductive Place (Path : Type*)
  | pad
  | file (path : Path) (k : ℕ)

/-- The place of the byte at `pos`. -/
def place : List (FileEntry Path) → ℕ → Option (Place Path)
  | [], _ => none
  | e :: files, pos =>
    if pos < e.size then some (if e.padFile then .pad else .file e.path (e.fileBase + pos))
    else place files (pos - e.size)

/-- The byte at `k` of a file. -/
def physical (disk : Path → Option (List UInt8)) (path : Path) (k : ℕ) : Option UInt8 :=
  (disk path).bind (·[k]?)

/-- The byte at a place. -/
def Place.byte (disk : Path → Option (List UInt8)) : Place Path → Option UInt8
  | .pad => some 0
  | .file path k => physical disk path k

/-- The byte at `pos`, as far as there is one. -/
def byteAt (files : List (FileEntry Path)) (disk : Path → Option (List UInt8)) (pos : ℕ) : Option UInt8 :=
  (place files pos).bind (Place.byte disk)

/-! ### The table -/

section Table

variable {items : List (Item Path)}

theorem foldl_addFile (items : List (Item Path)) (files : List (FileEntry Path)) :
    items.foldl (fun files i => addFile files (extractSingleFile i)) files =
      files ++ items.map extractSingleFile := by
  induction items generalizing files with
  | nil => rw [List.foldl_nil, List.map_nil, List.append_nil]
  | cons i items ih => rw [List.foldl_cons, ih, addFile, List.append_assoc, List.singleton_append, List.map_cons]

/-- In a table that is built, two files share bytes when they have one path and both have bytes. -/
theorem separate_extractFiles_iff : (extractFiles items).Pairwise Separate ↔ items.Pairwise fun i j =>
    i.padFile ∨ j.padFile ∨ i.path ≠ j.path ∨ i.size = 0 ∨ j.size = 0 := by
  rw [extractFiles, foldl_addFile, List.nil_append, List.pairwise_map]
  refine List.Pairwise.iff fun i j => ?_
  simp only [Separate, extractSingleFile, Nat.zero_add, Nat.le_zero]

end Table

/-! ### One file -/

section File

variable {f data : List UInt8} {offset i : ℕ}

theorem length_take_extend : ((f ++ List.replicate (offset - f.length) 0).take offset).length = offset := by
  rw [List.length_take, List.length_append, List.length_replicate]
  omega

theorem getElem?_extend (h : i < data.length) : (extend f offset data)[offset + i]? = data[i]? := by
  rw [extend, overwrite, List.append_assoc, List.getElem?_append_right (by rw [length_take_extend]; omega),
    length_take_extend, Nat.add_sub_cancel_left, List.getElem?_append_left h]

/-- What is outside of the data stays, if it was there. -/
theorem getElem?_extend_of_some (hi : i < offset ∨ offset + data.length ≤ i) {b : UInt8} (hb : f[i]? = some b) :
    (extend f offset data)[i]? = some b := by
  have hlt : i < f.length := (List.getElem?_eq_some_iff.1 hb).1
  have hpad : (f ++ List.replicate (offset - f.length) 0)[i]? = some b := by
    rw [List.getElem?_append_left hlt, hb]
  rw [extend, overwrite, List.append_assoc]
  rcases hi with hi | hi
  · rw [List.getElem?_append_left (by rw [length_take_extend]; exact hi), List.getElem?_take_of_lt hi, hpad]
  · rw [List.getElem?_append_right (by rw [length_take_extend]; omega), length_take_extend,
      List.getElem?_append_right (by omega), List.getElem?_drop,
      show offset + data.length + (i - offset - data.length) = i by omega, hpad]

variable [DecidableEq Path] {disk : Path → Option (List UInt8)} {path : Path}

theorem physical_extend (h : i < data.length) :
    physical (Function.update disk path (some (extend ((disk path).getD []) offset data))) path (offset + i) =
      data[i]? := by
  rw [physical, Function.update_self, Option.bind_some, getElem?_extend h]

theorem physical_extend_of_some {p : Path} {k : ℕ} {b : UInt8}
    (hk : p = path → k < offset ∨ offset + data.length ≤ k) (hb : physical disk p k = some b) :
    physical (Function.update disk path (some (extend ((disk path).getD []) offset data))) p k = some b := by
  by_cases hp : p = path
  · subst hp
    obtain ⟨f, hf, hb⟩ := Option.bind_eq_some_iff.1 hb
    rw [physical, Function.update_self, Option.bind_some, hf]
    exact getElem?_extend_of_some (hk rfl) hb
  · rwa [physical, Function.update_of_ne hp]

end File

/-! ### Places -/

section Places

variable {e : FileEntry Path} {files : List (FileEntry Path)}

theorem place_of_lt {pos : ℕ} (h : pos < e.size) :
    place (e :: files) pos = some (if e.padFile then .pad else .file e.path (e.fileBase + pos)) := if_pos h

/-- Behind the first entry. -/
theorem place_add {pos k : ℕ} (h : pos + k = e.size) (j : ℕ) :
    place (e :: files) (pos + (k + j)) = place files j := by
  rw [place, if_neg (by omega), show pos + (k + j) - e.size = j by omega]

/-- A place belongs to an entry. -/
theorem exists_of_place {pos k : ℕ} {p : Path} (h : place files pos = some (.file p k)) :
    ∃ e ∈ files, ¬ e.padFile ∧ p = e.path ∧ e.fileBase ≤ k ∧ k < e.fileBase + e.size := by
  induction files generalizing pos with
  | nil => cases h
  | cons e files ih =>
    by_cases hpos : pos < e.size
    · rw [place_of_lt hpos] at h
      cases hpad : e.padFile with
      | true =>
        rw [hpad] at h
        cases h
      | false =>
        rw [hpad] at h
        cases h
        exact ⟨e, List.mem_cons_self, by rw [hpad]; exact Bool.false_ne_true, rfl, by omega, by omega⟩
    · rw [place, if_neg hpos] at h
      obtain ⟨e', he', h'⟩ := ih h
      exact ⟨e', List.mem_cons_of_mem e he', h'⟩

/-- No later entry has a byte of the first one. -/
theorem place_ne_of_separate (hsep : (e :: files).Pairwise Separate) (hpad : e.padFile = false) {i j : ℕ}
    (hi : i < e.size) : place files j ≠ some (.file e.path (e.fileBase + i)) := fun h => by
  obtain ⟨e', he', hpad', hpath, hlo, hhi⟩ := exists_of_place h
  rcases (List.pairwise_cons.1 hsep).1 e' he' with h | h | h | h | h
  · rw [hpad] at h
    cases h
  · exact hpad' h
  · exact h hpath
  · omega
  · omega

/-- Each byte of a file is that of one position. -/
theorem place_injective (hsep : files.Pairwise Separate) {i j k : ℕ} {p : Path}
    (hi : place files i = some (.file p k)) (hj : place files j = some (.file p k)) : i = j := by
  induction files generalizing i j with
  | nil => cases hi
  | cons e files ih =>
    -- no position in the first file shares its byte with one behind it
    have hcross : ∀ {a b : ℕ}, a < e.size → place (e :: files) a = some (.file p k) →
        place files b ≠ some (.file p k) := fun {a b} ha hp hq => by
      rw [place_of_lt ha] at hp
      cases hpad : e.padFile with
      | true =>
        rw [hpad] at hp
        cases hp
      | false =>
        rw [hpad] at hp
        cases hp
        exact place_ne_of_separate hsep hpad ha hq
    by_cases hi' : i < e.size <;> by_cases hj' : j < e.size
    · rw [place_of_lt hi'] at hi
      rw [place_of_lt hj'] at hj
      cases hpad : e.padFile with
      | true =>
        rw [hpad] at hi
        cases hi
      | false =>
        rw [hpad, if_neg Bool.false_ne_true] at hi hj
        cases hi
        injection hj with hj
        injection hj with _ hj
        omega
    · rw [place, if_neg hj'] at hj
      exact absurd hj (hcross hi' hi)
    · rw [place, if_neg hi'] at hi
      exact absurd hi (hcross hj' hj)
    · rw [place, if_neg hi'] at hi
      rw [place, if_neg hj'] at hj
      have := ih hsep.tail hi hj
      omega

end Places

/-! ### Operations -/

section Transfer

/-- The first data, from their elements. -/
theorem take_eq_of_getElem? {data xs : List UInt8} {m : ℕ} (hlen : xs.length ≤ m)
    (h : ∀ j < m, data[j]? = xs[j]?) : data.take m = xs := by
  refine List.ext_getElem? fun j => ?_
  by_cases hj : j < m
  · rw [List.getElem?_take_of_lt hj, h j hj]
  · rw [List.getElem?_eq_none (by rw [List.length_take]; omega), List.getElem?_eq_none (by omega)]

section Part

variable {e : FileEntry Path} {files : List (FileEntry Path)} {fileOffset m n : ℕ}

/-- What is transferred with the first file: all, or up to its end. -/
theorem fileBytesLeft_spec (hoff : fileOffset = 0 ∨ ∃ e' ∈ (e :: files).head?, fileOffset < e'.size)
    (hm : (if e.size < fileOffset + n then e.size - fileOffset else n) = m) :
    m ≤ n ∧ (fileOffset + m ≤ e.size ∨ m = 0) ∧ (m < n → fileOffset + m = e.size) := by
  rcases hoff with rfl | ⟨e', he', hlt⟩
  · split_ifs at hm <;> omega
  · cases he'
    split_ifs at hm <;> omega

/-- **One file.**  Up to `m` bytes are transferred with the first file, and the others behind it. -/
theorem transfer_cons (op : FileOp Path) (ret : ℤ) (cur : List Buffer) (w : World Path)
    (hoff : fileOffset = 0 ∨ ∃ e' ∈ (e :: files).head?, fileOffset < e'.size) (hn : n ≠ 0) :
    ∃ m ≤ n, (m < n → fileOffset + m = e.size) ∧
      ((m = 0 ∧ fileOffset = 0 ∧ transfer op ret (e :: files) fileOffset n cur w = transfer op ret files 0 n cur w) ∨
        0 < m ∧ fileOffset + m ≤ e.size ∧
          ((e.padFile = true ∧ transfer op ret (e :: files) fileOffset n cur w =
              transfer op ret files 0 (n - m) (advanceBufs cur m) (if op.readOnly then
                { w with mem := scatter (addresses (copyBufs cur m)) (List.replicate m 0) w.mem } else w)) ∨
            e.padFile = false ∧ ∀ w', op.run e.path (e.fileBase + fileOffset) (copyBufs cur m) w = some (m, w') →
              transfer op ret (e :: files) fileOffset n cur w =
                transfer op ret files 0 (n - m) (advanceBufs cur m) w')) := by
  generalize hm : (if e.size < fileOffset + n then e.size - fileOffset else n) = m
  obtain ⟨hmn, hin, hend⟩ := fileBytesLeft_spec hoff hm
  refine ⟨m, hmn, hend, ?_⟩
  rw [transfer, if_neg hn]
  dsimp only
  rw [hm]
  by_cases hzero : m = 0
  · have hoffset : fileOffset = 0 := by
      have := hend (by omega)
      rcases hoff with rfl | ⟨e', he', hlt⟩
      · rfl
      · cases he'
        omega
    exact .inl ⟨hzero, hoffset, by rw [if_pos hzero, hoffset]⟩
  · refine .inr ⟨Nat.pos_of_ne_zero hzero, hin.resolve_right hzero, ?_⟩
    rw [if_neg hzero]
    cases hpad : e.padFile with
    | true => exact .inl ⟨rfl, if_pos rfl⟩
    | false =>
      refine .inr ⟨rfl, fun w' hrun => ?_⟩
      rw [if_neg Bool.false_ne_true, hrun]
      exact if_neg fun h => h rfl

end Part

/-! #### Reading -/

section Read

variable {disk : Path → Option (List UInt8)} {path : Path} {pos m : ℕ} {data : List UInt8}

/-- What is in a file can be read. -/
theorem exists_of_physical (hm : 0 < m) (hdata : m ≤ data.length)
    (h : ∀ j < m, physical disk path (pos + j) = data[j]?) :
    ∃ f, disk path = some f ∧ slice f pos m = data.take m := by
  have hfirst : physical disk path (pos + 0) = some data[0] :=
    (h 0 hm).trans (List.getElem?_eq_getElem (hm.trans_le hdata))
  obtain ⟨f, hf, -⟩ := Option.bind_eq_some_iff.1 hfirst
  refine ⟨f, hf, (take_eq_of_getElem? (by rw [length_slice]; omega) fun j hj => ?_).symm⟩
  rw [getElem?_slice _ _ hj, ← h j hj, physical, hf, Option.bind_some]

theorem fileReadv_copyBufs {cur : List Buffer} (hm : 0 < m) (hcur : m ≤ size cur) (hdata : m ≤ data.length)
    (h : ∀ j < m, physical disk path (pos + j) = data[j]?) (mem : ℕ → UInt8) :
    fileReadv.run path pos (copyBufs cur m) ⟨disk, mem⟩ =
      some (m, ⟨disk, scatter (addresses (copyBufs cur m)) (data.take m) mem⟩) := by
  obtain ⟨f, hf, hslice⟩ := exists_of_physical hm hdata h
  simp only [fileReadv, hf, Option.map_some, size_copyBufs hcur, hslice, List.length_take,
    Nat.min_eq_left hdata]

end Read

/-- **Reading.**  When there are bytes, they come to the buffers, one after the other. -/
theorem transfer_read (ret : ℤ) {disk : Path → Option (List UInt8)} {files : List (FileEntry Path)}
    {fileOffset n : ℕ} (cur : List Buffer) (mem : ℕ → UInt8) {data : List UInt8}
    (hoff : fileOffset = 0 ∨ ∃ e ∈ files.head?, fileOffset < e.size) (hdata : data.length = n)
    (hbufs : n ≤ size cur) (hbytes : ∀ j < n, byteAt files disk (fileOffset + j) = data[j]?) :
    transfer fileReadv ret files fileOffset n cur ⟨disk, mem⟩ =
      some (ret, ⟨disk, scatter ((addresses cur).take n) data mem⟩) := by
  induction files generalizing fileOffset n cur mem data with
  | nil =>
    have hn : n = 0 := by
      by_contra hne
      have hnone : byteAt [] disk fileOffset = data[0]? := hbytes 0 (Nat.pos_of_ne_zero hne)
      exact hne (hdata ▸ Nat.le_zero.1 (List.getElem?_eq_none_iff.1 hnone.symm))
    subst hn
    rw [transfer, if_pos rfl, List.eq_nil_of_length_eq_zero hdata, scatter_nil]
  | cons e files ih =>
    by_cases hn : n = 0
    · subst hn
      rw [transfer, if_pos rfl, List.eq_nil_of_length_eq_zero hdata, scatter_nil]
    obtain ⟨m, hmn, hend, h⟩ := transfer_cons fileReadv ret cur ⟨disk, mem⟩ hoff hn
    -- the bytes behind those of the first file
    have hrest : ∀ j < n - m, byteAt files disk (0 + j) = (data.drop m)[j]? := fun j hj => by
      have hbyte := hbytes (m + j) (by omega)
      rw [byteAt, place_add (hend (by omega))] at hbyte
      rw [Nat.zero_add, List.getElem?_drop]
      exact hbyte
    rcases h with ⟨rfl, rfl, h⟩ | ⟨hm, hin, h⟩
    · rw [h]
      exact ih cur mem (.inl rfl) hdata hbufs hrest
    have hnext := fun mem => ih (advanceBufs cur m) mem (.inl rfl) (show (data.drop m).length = n - m by
      rw [List.length_drop, hdata]) (by rw [size_advanceBufs]; omega) hrest
    have hfirst : ∀ j < m, (if e.padFile then Place.pad else .file e.path (e.fileBase + (fileOffset + j))).byte
        disk = data[j]? := fun j hj => by
      rw [← hbytes j (hj.trans_le hmn), byteAt, place_of_lt (by omega), Option.bind_some]
    rcases h with ⟨hpad, h⟩ | ⟨hpad, h⟩
    · rw [hpad] at hfirst
      have hzeros : data.take m = List.replicate m 0 :=
        take_eq_of_getElem? List.length_replicate.le fun j hj => by
          rw [← hfirst j hj, List.getElem?_replicate_of_lt hj]
          rfl
      rw [h, if_pos (show fileReadv.readOnly = true from rfl), ← hzeros]
      exact (hnext _).trans (by rw [scatter_advanceBufs hmn hbufs hdata])
    · rw [hpad] at hfirst
      have hrun := fileReadv_copyBufs hm (hmn.trans hbufs) (hmn.trans_eq hdata.symm)
        (fun j hj => by rw [Nat.add_assoc]; exact hfirst j hj) mem
      rw [h _ hrun]
      exact (hnext _).trans (by rw [scatter_advanceBufs hmn hbufs hdata])

/-! #### Writing -/

/-- The data are at the `n` places from `fileOffset` on, and what was at other places is still there. -/
structure Stored (files : List (FileEntry Path)) (fileOffset n : ℕ) (data : List UInt8)
    (disk disk' : Path → Option (List UInt8)) : Prop where
  written : ∀ j < n, ∀ p k, place files (fileOffset + j) = some (.file p k) → physical disk' p k = data[j]?
  frame : ∀ p k b, (∀ j < n, place files (fileOffset + j) ≠ some (.file p k)) → physical disk p k = some b →
    physical disk' p k = some b

section Write

variable {e : FileEntry Path} {files : List (FileEntry Path)} {fileOffset m n : ℕ} {data : List UInt8}
  {disk disk₁ disk' : Path → Option (List UInt8)}

theorem Stored.zero : Stored files fileOffset 0 data disk disk :=
  ⟨fun j hj => absurd hj (Nat.not_lt_zero j), fun _ _ _ _ hb => hb⟩

/-- Padding has no places in files. -/
theorem Stored.pad (hpad : e.padFile = true) (hin : fileOffset + m ≤ e.size) :
    Stored (e :: files) fileOffset m data disk disk := by
  refine ⟨fun j hj p k hp => ?_, fun _ _ _ _ hb => hb⟩
  rw [place_of_lt (by omega), hpad] at hp
  cases hp

/-- The part in the first file, and that in the others. -/
theorem Stored.append (hsep : (e :: files).Pairwise Separate) (hmn : m ≤ n) (hdata : n ≤ data.length)
    (hend : m < n → fileOffset + m = e.size) (h : Stored (e :: files) fileOffset m data disk disk₁)
    (h' : Stored files 0 (n - m) (data.drop m) disk₁ disk') : Stored (e :: files) fileOffset n data disk disk' := by
  have hbehind : ∀ j < n - m, place (e :: files) (fileOffset + (m + j)) = place files (0 + j) := fun j hj => by
    rw [Nat.zero_add]
    exact place_add (hend (by omega)) j
  constructor
  · intro j hj p k hp
    rcases Nat.lt_or_ge j m with hlt | hge
    · -- no later place is that of a byte in the first part
      have hne : ∀ i < n - m, place files (0 + i) ≠ some (.file p k) := fun i hi hp' => by
        have := place_injective hsep hp ((hbehind i hi).trans hp')
        omega
      rw [h'.frame p k data[j] hne (by rw [h.written j hlt p k hp, List.getElem?_eq_getElem]),
        List.getElem?_eq_getElem]
    · obtain ⟨i, rfl⟩ := Nat.exists_eq_add_of_le hge
      have hi : i < n - m := by omega
      rw [h'.written i hi p k ((hbehind i hi).symm.trans hp), List.getElem?_drop]
  · intro p k b hne hb
    have hfirst : physical disk₁ p k = some b := h.frame p k b (fun j hj => hne j (hj.trans_le hmn)) hb
    exact h'.frame p k b (fun i hi => hbehind i hi ▸ hne (m + i) (by omega)) hfirst

variable [DecidableEq Path]

theorem fileWritev_copyBufs {cur : List Buffer} (hcur : m ≤ size cur) (path : Path) (pos : ℕ)
    (mem : ℕ → UInt8) : fileWritev.run path pos (copyBufs cur m) ⟨disk, mem⟩ =
      some (m, ⟨Function.update disk path (some (extend ((disk path).getD []) pos
        ((gather (addresses cur) mem).take m))), mem⟩) := by
  simp only [fileWritev, gather_copyBufs, size_copyBufs hcur]

theorem Stored.extend (hpad : e.padFile = false) (hin : fileOffset + m ≤ e.size) (hm : m ≤ data.length) :
    Stored (e :: files) fileOffset m data disk (Function.update disk e.path
      (some (extend ((disk e.path).getD []) (e.fileBase + fileOffset) (data.take m)))) := by
  have hlen : (data.take m).length = m := by rw [List.length_take, Nat.min_eq_left hm]
  have hplace : ∀ j < m, place (e :: files) (fileOffset + j) =
      some (.file e.path (e.fileBase + fileOffset + j)) := fun j hj => by
    rw [place_of_lt (by omega), hpad, if_neg Bool.false_ne_true, Nat.add_assoc]
  constructor
  · intro j hj p k hp
    rw [hplace j hj] at hp
    cases hp
    rw [physical_extend (by rwa [hlen]), List.getElem?_take_of_lt hj]
  · intro p k b hne hb
    refine physical_extend_of_some (fun hp => ?_) hb
    rw [hlen]
    by_contra hk
    refine hne (k - (e.fileBase + fileOffset)) (by omega) ?_
    rw [hplace _ (by omega), hp, Nat.add_sub_cancel' (by omega)]

/-- **Writing.**  The data come to their places, and what is at other places stays. -/
theorem transfer_write (ret : ℤ) (hsep : files.Pairwise Separate) (disk : Path → Option (List UInt8))
    (cur : List Buffer) (mem : ℕ → UInt8) (hoff : fileOffset = 0 ∨ ∃ e ∈ files.head?, fileOffset < e.size)
    (hrange : fileOffset + n ≤ totalSize files) (hbufs : n ≤ size cur) :
    ∃ disk', transfer fileWritev ret files fileOffset n cur ⟨disk, mem⟩ = some (ret, ⟨disk', mem⟩) ∧
      Stored files fileOffset n (gather (addresses cur) mem) disk disk' := by
  induction files generalizing fileOffset n cur disk with
  | nil =>
    have hn : n = 0 := by
      simp only [totalSize, List.map_nil, List.sum_nil] at hrange
      omega
    subst hn
    exact ⟨disk, by rw [transfer, if_pos rfl], .zero⟩
  | cons e files ih =>
    by_cases hn : n = 0
    · subst hn
      exact ⟨disk, by rw [transfer, if_pos rfl], .zero⟩
    obtain ⟨m, hmn, hend, h⟩ := transfer_cons fileWritev ret cur ⟨disk, mem⟩ hoff hn
    have htotal : totalSize (e :: files) = e.size + totalSize files := List.sum_cons
    have hrange' : 0 + (n - m) ≤ totalSize files := by
      rcases Nat.lt_or_ge m n with hlt | hge
      · have := hend hlt
        omega
      · omega
    have hdata : n ≤ (gather (addresses cur) mem).length := by rwa [length_gather, length_addresses]
    rcases h with ⟨rfl, rfl, h⟩ | ⟨hm, hin, h⟩
    · obtain ⟨disk', htransfer, hstored⟩ := ih hsep.tail disk cur (.inl rfl) hrange' hbufs
      exact ⟨disk', h.trans htransfer, Stored.zero.append hsep hmn hdata hend hstored⟩
    have hnext := fun disk => ih hsep.tail disk (advanceBufs cur m) (.inl rfl) hrange'
      (by rw [size_advanceBufs]; omega)
    rw [gather_advanceBufs] at hnext
    rcases h with ⟨hpad, h⟩ | ⟨hpad, h⟩
    · obtain ⟨disk', htransfer, hstored⟩ := hnext disk
      exact ⟨disk', h.trans htransfer, (Stored.pad hpad hin).append hsep hmn hdata hend hstored⟩
    · obtain ⟨disk', htransfer, hstored⟩ := hnext _
      exact ⟨disk', (h _ (fileWritev_copyBufs (hmn.trans hbufs) ..)).trans htransfer,
        (Stored.extend hpad hin (hmn.trans hdata)).append hsep hmn hdata hend hstored⟩

end Write

end Transfer

/-! ### Blocks -/

/-- The files from that of an offset on. -/
theorem seek_spec {files : List (FileEntry Path)} {pos : ℕ} (h : pos < totalSize files) :
    ∃ files' off, seek files pos = some (files', off) ∧ (∃ e ∈ files'.head?, off < e.size) ∧
      (∀ j, place files (pos + j) = place files' (off + j)) ∧ files' <:+ files ∧
        totalSize files + off = totalSize files' + pos := by
  induction files generalizing pos with
  | nil => exact absurd h (Nat.not_lt_zero pos)
  | cons e files ih =>
    have htotal : totalSize (e :: files) = e.size + totalSize files := List.sum_cons
    by_cases hpos : pos < e.size
    · exact ⟨e :: files, pos, by rw [seek, if_pos hpos], ⟨e, rfl, hpos⟩, fun _ => rfl, List.suffix_rfl, rfl⟩
    · obtain ⟨files', off, hseek, hfirst, hplace, hsuffix, hsize⟩ := ih (show pos - e.size < totalSize files by omega)
      refine ⟨files', off, by rw [seek, if_neg hpos, hseek], hfirst, fun j => ?_,
        hsuffix.trans (List.suffix_cons e files), by omega⟩
      rw [← hplace j, place, if_neg (by omega), show pos + j - e.size = pos - e.size + j by omega]

/-- A block of a piece. -/
def FileStorage.Valid (fs : FileStorage Path) (bufs : List Buffer) (slot offset : ℕ) : Prop :=
  slot < fs.numPieces ∧ 0 < size bufs ∧ offset + size bufs ≤ fs.pieceSize slot

instance (fs : FileStorage Path) (bufs : List Buffer) (slot offset : ℕ) :
    Decidable (fs.Valid bufs slot offset) := inferInstanceAs (Decidable (_ ∧ _ ∧ _))

section Block

variable {fs : FileStorage Path} {bufs : List Buffer} {slot offset : ℕ} {disk : Path → Option (List UInt8)}
  {mem : ℕ → UInt8}

theorem FileStorage.Valid.le (h : fs.Valid bufs slot offset) :
    slot * fs.pieceLength + offset + size bufs ≤ totalSize fs.files := by
  obtain ⟨hslot, hsize, hle⟩ := h
  have hpos := fs.pieceLength_pos
  rw [FileStorage.pieceSize] at hle
  split_ifs at hle with hlast
  · omega
  · have hmul : (slot + 2) * fs.pieceLength ≤ totalSize fs.files + fs.pieceLength - 1 :=
      (Nat.mul_le_mul_right _ (show slot + 2 ≤ fs.numPieces by omega)).trans (Nat.div_mul_le_self _ _)
    rw [Nat.add_mul] at hmul
    omega

theorem readv_eq {data : List UInt8} (h : fs.Valid bufs slot offset) (hdata : data.length = size bufs)
    (hbytes : ∀ j < size bufs, byteAt fs.files disk (slot * fs.pieceLength + offset + j) = data[j]?) :
    readv fs bufs slot offset ⟨disk, mem⟩ =
      some ((size bufs : ℤ), ⟨disk, scatter (addresses bufs) data mem⟩) := by
  have hle := h.le
  obtain ⟨-, hpos, hpiece⟩ := h
  obtain ⟨files', off, hseek, hfirst, hplace, -⟩ :=
    seek_spec (show slot * fs.pieceLength + offset < totalSize fs.files by omega)
  have hread := transfer_read (size bufs) bufs mem (.inr hfirst) hdata le_rfl
    fun j hj => by rw [← hbytes j hj, byteAt, byteAt, hplace]
  rw [List.take_of_length_le (length_addresses bufs).le] at hread
  rw [readv, readwritev, hseek, Option.bind_some]
  dsimp only
  rw [if_neg hpiece.not_gt, hread]

/-- What a torrent has when data are written from `start` on; padding stays zero. -/
def write (fs : FileStorage Path) (start : ℕ) (data : List UInt8) (c : ℕ → Option UInt8) (pos : ℕ) :
    Option UInt8 :=
  match place fs.files pos with
  | some (.file _ _) => if start ≤ pos ∧ pos < start + data.length then data[pos - start]? else c pos
  | _ => c pos

/-- All bytes that are known are there. -/
def Holds (fs : FileStorage Path) (c : ℕ → Option UInt8) (disk : Path → Option (List UInt8)) : Prop :=
  ∀ pos b, c pos = some b → byteAt fs.files disk pos = some b

theorem writev_eq [DecidableEq Path] (hsep : fs.files.Pairwise Separate) {c : ℕ → Option UInt8}
    (mem : ℕ → UInt8) (h : fs.Valid bufs slot offset) (hc : Holds fs c disk) :
    ∃ disk', writev fs bufs slot offset ⟨disk, mem⟩ = some ((size bufs : ℤ), ⟨disk', mem⟩) ∧
      Holds fs (write fs (slot * fs.pieceLength + offset) (gather (addresses bufs) mem) c) disk' := by
  have hle := h.le
  obtain ⟨-, hpos, hpiece⟩ := h
  obtain ⟨files', off, hseek, hfirst, hplace, hsuffix, hsize⟩ :=
    seek_spec (show slot * fs.pieceLength + offset < totalSize fs.files by omega)
  obtain ⟨disk', htransfer, hstored⟩ := transfer_write (size bufs) (hsep.sublist hsuffix.sublist) disk bufs mem
    (.inr hfirst) (show off + size bufs ≤ totalSize files' by omega) le_rfl
  refine ⟨disk', ?_, fun pos b hb => ?_⟩
  · rw [writev, readwritev, hseek, Option.bind_some]
    dsimp only
    rw [if_neg hpiece.not_gt, htransfer]
  · have hdata : (gather (addresses bufs) mem).length = size bufs := by
      rw [length_gather, length_addresses]
    rw [write] at hb
    rw [byteAt]
    cases hp : place fs.files pos with
    | none =>
      rw [hp] at hb
      have hnone := hc pos b hb
      rw [byteAt, hp] at hnone
      cases hnone
    | some pl =>
      rw [hp] at hb
      cases pl with
      | pad =>
        have hzero := hc pos b hb
        rwa [byteAt, hp] at hzero
      | file p k =>
        dsimp only at hb
        rw [Option.bind_some, Place.byte]
        split_ifs at hb with hin
        · rw [hdata] at hin
          rw [← hb]
          refine hstored.written (pos - (slot * fs.pieceLength + offset)) (by omega) p k ?_
          rw [← hplace, Nat.add_sub_cancel' hin.1, hp]
        · refine hstored.frame p k b (fun j hj hp' => hin ?_) ?_
          · rw [← hplace] at hp'
            have := place_injective hsep hp hp'
            omega
          · have hbyte := hc pos b hb
            rwa [byteAt, hp, Option.bind_some, Place.byte] at hbyte

end Block

/-! ### Runs -/

/-- A job of the disk thread, with the memory at that time. -/
inductive Action
  | write (bufs : List Buffer) (slot offset : ℕ) (mem : ℕ → UInt8)
  | read (bufs : List Buffer) (slot offset : ℕ) (mem : ℕ → UInt8)

/-- The files after a job. -/
def step [DecidableEq Path] (fs : FileStorage Path) (disk : Path → Option (List UInt8)) :
    Action → Option (Path → Option (List UInt8))
  | .write bufs slot offset mem =>
    if fs.Valid bufs slot offset then (writev fs bufs slot offset ⟨disk, mem⟩).map (·.2.disk) else none
  | .read bufs slot offset mem =>
    if fs.Valid bufs slot offset then (readv fs bufs slot offset ⟨disk, mem⟩).map (·.2.disk) else none

/-- What a job does to the torrent as one array. -/
def contents (fs : FileStorage Path) (c : ℕ → Option UInt8) : Action → ℕ → Option UInt8
  | .write bufs slot offset mem => write fs (slot * fs.pieceLength + offset) (gather (addresses bufs) mem) c
  | .read _ _ _ _ => c

/-- Reading changes no file. -/
theorem disk_transfer_read {ret r : ℤ} {files : List (FileEntry Path)} {fileOffset n : ℕ} {cur : List Buffer}
    {w w' : World Path} (h : transfer fileReadv ret files fileOffset n cur w = some (r, w')) :
    w'.disk = w.disk := by
  induction files generalizing fileOffset n cur w with
  | nil =>
    rw [transfer] at h
    split_ifs at h
    cases h
    rfl
  | cons e files ih =>
    rw [transfer] at h
    dsimp only at h
    by_cases hn : n = 0
    · rw [if_pos hn] at h
      cases h
      rfl
    rw [if_neg hn] at h
    generalize (if e.size < fileOffset + n then e.size - fileOffset else n) = m at h
    by_cases hm : m = 0
    · rw [if_pos hm] at h
      exact ih h
    rw [if_neg hm] at h
    cases hpad : e.padFile with
    | true =>
      rw [hpad, if_pos rfl] at h
      have hdisk := ih h
      exact hdisk
    | false =>
      rw [hpad, if_neg Bool.false_ne_true] at h
      cases hrun : fileReadv.run e.path (e.fileBase + fileOffset) (copyBufs cur m) w with
      | none =>
        rw [hrun] at h
        cases h
        rfl
      | some result =>
        obtain ⟨k, w₁⟩ := result
        have hdisk : w₁.disk = w.disk := by
          obtain ⟨f, -, hf⟩ := Option.map_eq_some_iff.1 hrun
          cases hf
          rfl
        rw [hrun] at h
        dsimp only at h
        split_ifs at h
        · cases h
          exact hdisk
        · exact (ih h).trans hdisk

section Run

variable [DecidableEq Path] {fs : FileStorage Path} (hsep : fs.files.Pairwise Separate)
  {disk disk' : Path → Option (List UInt8)}

include hsep

theorem holds_step {c : ℕ → Option UInt8} {a : Action} (hc : Holds fs c disk) (h : step fs disk a = some disk') :
    Holds fs (contents fs c a) disk' := by
  cases a with
  | write bufs slot offset mem =>
    rw [step] at h
    split_ifs at h with hvalid
    obtain ⟨disk₁, hwrite, hholds⟩ := writev_eq hsep mem hvalid hc
    rw [hwrite] at h
    cases h
    exact hholds
  | read bufs slot offset mem =>
    rw [step] at h
    split_ifs at h
    obtain ⟨⟨r, w⟩, hread, rfl⟩ := Option.map_eq_some_iff.1 h
    obtain ⟨⟨files, off⟩, -, htransfer⟩ := Option.bind_eq_some_iff.1 hread
    have hdisk := disk_transfer_read htransfer
    dsimp only at hdisk ⊢
    rw [hdisk]
    exact hc

theorem holds_run {c : ℕ → Option UInt8} {as : List Action} (hc : Holds fs c disk)
    (h : run (step fs) disk as = some disk') : Holds fs (as.foldl (contents fs) c) disk' := by
  induction as generalizing c disk with
  | nil =>
    cases h
    exact hc
  | cons a as ih =>
    obtain ⟨disk₁, hstep, hrest⟩ := run_cons_eq_some.1 h
    exact ih (holds_step hsep hc hstep) hrest

/-- **Files as one array.**  If no two files share a byte, then after any jobs a block all of whose bytes have
been written, are padding or have been in the files before, is read as it was written last, and only the
buffers change. -/
theorem readv_of_run {as : List Action} (h : run (step fs) disk as = some disk') {bufs : List Buffer}
    {slot offset : ℕ} (hvalid : fs.Valid bufs slot offset) (hnodup : (addresses bufs).Nodup) {data : List UInt8}
    (hdata : data.length = size bufs)
    (hbytes : ∀ j < size bufs, as.foldl (contents fs) (byteAt fs.files disk)
      (slot * fs.pieceLength + offset + j) = data[j]?) (mem : ℕ → UInt8) :
    ∃ mem', readv fs bufs slot offset ⟨disk', mem⟩ = some ((size bufs : ℤ), ⟨disk', mem'⟩) ∧
      gather (addresses bufs) mem' = data ∧ ∀ a ∉ addresses bufs, mem' a = mem a := by
  have hholds := holds_run hsep (fun _ _ hb => hb) h
  refine ⟨scatter (addresses bufs) data mem, readv_eq hvalid hdata fun j hj => ?_,
    gather_scatter hnodup ((length_addresses bufs).trans hdata.symm) mem, fun a ha => scatter_of_notMem ha data mem⟩
  obtain ⟨b, hb⟩ : ∃ b, data[j]? = some b := ⟨_, List.getElem?_eq_getElem (hj.trans_eq hdata.symm)⟩
  rw [hb]
  exact hholds _ _ ((hbytes j hj).trans hb)

end Run

/-- Two files with padding in between, and pieces of four bytes. -/
def twoFiles : FileStorage ℕ where
  files := extractFiles [⟨0, 3, false⟩, ⟨1, 2, true⟩, ⟨2, 4, false⟩]
  pieceLength := 4
  pieceLength_pos := Nat.succ_pos 3

/-- The end of the first file and a byte of padding, from two buffers to another one. -/
theorem readv_of_run_padding :
    ∃ disk', run (step twoFiles) (fun _ => none) [.write [⟨0, 1⟩, ⟨10, 2⟩] 0 1 Nat.toUInt8] = some disk' ∧
      ∃ mem', readv twoFiles [⟨20, 3⟩] 0 1 ⟨disk', fun _ => 5⟩ = some (3, ⟨disk', mem'⟩) ∧
        gather (addresses [⟨20, 3⟩]) mem' = [0, 10, 0] ∧ ∀ a ∉ addresses [⟨20, 3⟩], mem' a = 5 := by
  have hr : run (step twoFiles) (fun _ => none) [.write [⟨0, 1⟩, ⟨10, 2⟩] 0 1 Nat.toUInt8] = some _ := rfl
  have hsep : twoFiles.files.Pairwise Separate := separate_extractFiles_iff.2 (by decide)
  exact ⟨_, hr, readv_of_run hsep hr (by decide) (by decide) rfl (by decide) fun _ => 5⟩

end P2Player.Storage
