import P2Player.Lib.Slice

/-!
# Sending a finished torrent's file

`HttpHandler.sendFileData` copies a file to the socket from `transferOffset` on, in reads of up to
1024 bytes, until `dataLength` has been counted down or the end of the file is reached.

* `readLen`: what a `RandomAccessFile.read` into the buffer may return;
* `sendLoop`, `sendFileData`: the bytes written;
* `sendFileData_eq_slice_iff`: they are the requested ones for every way the reads split the file
  exactly when the request is empty or reaches the end of the file.
-/

namespace P2Player.Http

/-- `buf.length` in `sendFileData`. -/
def bufLength : ℕ := 1024

/-- The length of a read with `remaining` bytes left in the file, when the operating system offers
`offer` bytes: at least one byte, at most the buffer and at most what is left. -/
def readLen (offer remaining : ℕ) : ℕ := max 1 (min offer (min bufLength remaining))

theorem readLen_pos (offer remaining : ℕ) : 0 < readLen offer remaining := by
  unfold readLen; omega

theorem readLen_le (offer : ℕ) {remaining : ℕ} (h : 0 < remaining) :
    readLen offer remaining ≤ remaining := by
  unfold readLen; omega

theorem readLen_eq {offer remaining : ℕ} (h0 : 0 < offer) (hb : offer ≤ bufLength)
    (h : offer ≤ remaining) : readLen offer remaining = offer := by
  unfold readLen; omega

/-- The loop of `sendFileData`, from its `k`-th test on, with `rest` the file from the file pointer
on.  `streaming k` is the outcome of the test for a stopped stream or an interrupted thread. -/
def sendLoop (streaming : ℕ → Bool) (offer : ℕ → ℕ) (k : ℕ) (rest : List UInt8)
    (dataLength : ℤ) : List UInt8 :=
  if streaming k ∧ 0 < dataLength then
    if _h : rest = [] then []
    else
      let len := readLen (offer k) rest.length
      rest.take len ++ sendLoop streaming offer (k + 1) (rest.drop len) (dataLength - len)
  else []
termination_by rest.length
decreasing_by
  have hrest := List.length_pos_iff.2 _h
  have hlen := readLen_pos (offer k) rest.length
  rw [List.length_drop]
  omega

/-- `sendFileData`: the bytes written to the socket. -/
def sendFileData (streaming : ℕ → Bool) (offer : ℕ → ℕ) (file : List UInt8) (dataLength : ℤ)
    (transferOffset : ℕ) : List UInt8 :=
  sendLoop streaming offer 0 (file.drop transferOffset) dataLength

/-- No test of the loop finds the stream stopped. -/
def uninterrupted : ℕ → Bool := fun _ => true

section Loop

variable {offer : ℕ → ℕ} {k : ℕ} {rest : List UInt8} {dataLength : ℤ}

theorem sendLoop_of_nonpos (h : dataLength ≤ 0) :
    sendLoop uninterrupted offer k rest dataLength = [] := by
  rw [sendLoop, if_neg (fun hc => absurd hc.2 (by omega))]

theorem sendLoop_of_pos (h : 0 < dataLength) (hrest : rest ≠ []) :
    sendLoop uninterrupted offer k rest dataLength =
      rest.take (readLen (offer k) rest.length) ++
        sendLoop uninterrupted offer (k + 1) (rest.drop (readLen (offer k) rest.length))
          (dataLength - readLen (offer k) rest.length) := by
  rw [sendLoop, if_pos ⟨rfl, h⟩, dif_neg hrest]

/-- What is written comes from the file, without a gap. -/
theorem sendLoop_prefix (streaming : ℕ → Bool) (offer : ℕ → ℕ) (k : ℕ) (rest : List UInt8)
    (dataLength : ℤ) : sendLoop streaming offer k rest dataLength <+: rest := by
  fun_induction sendLoop streaming offer k rest dataLength with
  | case1 => exact List.nil_prefix
  | case2 k rest dataLength _ _ len ih =>
    calc rest.take len ++ sendLoop streaming offer (k + 1) (rest.drop len) (dataLength - len)
        <+: rest.take len ++ rest.drop len := (List.prefix_append_right_inj _).2 ih
      _ = rest := List.take_append_drop ..
  | case3 => exact List.nil_prefix

/-- At least `dataLength` bytes are written, as long as the file has them. -/
theorem le_length_sendLoop (h : dataLength ≤ rest.length) :
    dataLength ≤ (sendLoop uninterrupted offer k rest dataLength).length := by
  induction hn : rest.length using Nat.strong_induction_on generalizing k rest dataLength with
  | _ n ih =>
    by_cases hpos : 0 < dataLength
    · have hrest : rest ≠ [] := by rintro rfl; simp at h; omega
      have hlen := List.length_pos_iff.2 hrest
      have hr0 := readLen_pos (offer k) rest.length
      have hr := readLen_le (offer k) hlen
      have ih := @ih (rest.length - readLen (offer k) rest.length) (by omega) (k + 1)
        (rest.drop (readLen (offer k) rest.length)) (dataLength - readLen (offer k) rest.length)
        (by rw [List.length_drop]; omega) (by rw [List.length_drop])
      rw [sendLoop_of_pos hpos hrest, List.length_append, List.length_take]
      omega
    · rw [sendLoop_of_nonpos (by omega)]
      simpa using hpos

/-- Reads of one byte each, but of two bytes once a single byte is missing, write a byte more than
requested when the file has it. -/
theorem exists_length_sendLoop {n : ℕ} (hn : 0 < n) (h : n < rest.length) (k : ℕ) :
    (sendLoop uninterrupted (fun j => if j + 1 < k + n then 1 else 2) k rest n).length = n + 1 := by
  induction n generalizing k rest with
  | zero => exact absurd hn (lt_irrefl _)
  | succ n ih =>
    have hrest : rest ≠ [] := by rintro rfl; simp at h
    rw [sendLoop_of_pos (by omega) hrest]
    rcases Nat.eq_zero_or_pos n with rfl | hn0
    · have hlen : readLen (if k + 1 < k + (0 + 1) then 1 else 2) rest.length = 2 := by
        rw [if_neg (by omega)]
        exact readLen_eq (by omega) (by simp [bufLength]) (by omega)
      rw [hlen, sendLoop_of_nonpos (by omega), List.append_nil, List.length_take]
      omega
    · have hlen : readLen (if k + 1 < k + (n + 1) then 1 else 2) rest.length = 1 := by
        rw [if_pos (by omega)]
        exact readLen_eq (by omega) (by simp [bufLength]) (by omega)
      have ih := @ih (rest.drop 1) hn0 (by rw [List.length_drop]; omega) (k + 1)
      have hshift : (fun j => if j + 1 < k + 1 + n then 1 else 2) =
          fun j => if j + 1 < k + (n + 1) then 1 else 2 := by
        funext j; congr 2; omega
      have hcast : ((n + 1 : ℕ) : ℤ) - (1 : ℕ) = (n : ℕ) := by omega
      rw [hshift] at ih
      rw [hlen, hcast, List.length_append, ih, List.length_take]
      omega

end Loop

/-- **The body of a finished torrent is the requested range for every granularity of the reads
exactly when the request is empty or ends where the file ends.** -/
theorem sendFileData_eq_slice_iff {file : List UInt8} {dataLength transferOffset : ℕ}
    (h : transferOffset + dataLength ≤ file.length) :
    (∀ offer, sendFileData uninterrupted offer file dataLength transferOffset =
      slice file transferOffset dataLength) ↔
    dataLength = 0 ∨ transferOffset + dataLength = file.length := by
  have hdrop : (file.drop transferOffset).length = file.length - transferOffset := List.length_drop
  constructor
  · intro hall
    by_contra hne
    push Not at hne
    have hlen := @exists_length_sendLoop (file.drop transferOffset) dataLength (by omega)
      (by omega) 0
    have heq := congrArg List.length
      (hall fun j => if j + 1 < 0 + dataLength then 1 else 2)
    rw [sendFileData, hlen, length_slice_of_le h] at heq
    omega
  · rintro (rfl | hend) offer
    · rw [sendFileData, sendLoop_of_nonpos (by simp), slice_zero]
    · have hpre := sendLoop_prefix uninterrupted offer 0 (file.drop transferOffset) dataLength
      have hle : dataLength ≤ (sendLoop uninterrupted offer 0 (file.drop transferOffset)
          dataLength).length := by
        exact_mod_cast @le_length_sendLoop offer 0 (file.drop transferOffset) dataLength (by omega)
      have hall := hpre.eq_of_length_le (by omega)
      rw [sendFileData, hall, slice, List.take_of_length_le (by omega)]

/-- The request for the last two bytes of a file of three. -/
theorem sendFileData_tail :
    sendFileData uninterrupted (fun _ => bufLength) [1, 2, 3] 2 1 = slice [1, 2, 3] 1 2 :=
  (@sendFileData_eq_slice_iff [1, 2, 3] 2 1 (by decide)).2 (Or.inr rfl) _

/-- A request for the first byte of a file of three is answered with the whole file, when the file
is read in one piece. -/
theorem not_sendFileData_head : ¬ ∀ offer, sendFileData uninterrupted offer [1, 2, 3] 1 0 =
    slice [1, 2, 3] 0 1 := by
  intro h
  have h3 : sendFileData uninterrupted (fun _ => 1024) [1, 2, 3] 1 0 = [1, 2, 3] := by
    simp [sendFileData, sendLoop, readLen, bufLength, uninterrupted]
  have h1 := h fun _ => 1024
  rw [h3] at h1
  exact absurd h1 (by decide)

end P2Player.Http
