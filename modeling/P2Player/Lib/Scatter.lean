import Mathlib.Tactic

/-!
# Vectors of buffers

A vector of buffers stands for the addresses in them, one buffer after the other.  It is split, as bytes are
transferred, so that buffers need not end where the bytes do.

* `Buffer`, `addresses`: a vector and its addresses;
* `gather`, `scatter`: what is read from a memory, and written to it;
* `gather_scatter`: a vector that has no address twice gives what was written;
* `copyBufs`, `advanceBufs`: the first bytes of a vector, and the others.
-/

namespace P2Player.Scatter

variable {α : Type*}

/-- `len` addresses from `base` on. -/
structure Buffer where
  base : ℕ
  len : ℕ

def addresses (bufs : List Buffer) : List ℕ := bufs.flatMap fun b => List.range' b.base b.len

@[simp] theorem addresses_nil : addresses [] = [] := rfl

@[simp] theorem addresses_cons (b : Buffer) (bufs : List Buffer) :
    addresses (b :: bufs) = List.range' b.base b.len ++ addresses bufs := rfl

/-- The size of all buffers. -/
def size (bufs : List Buffer) : ℕ := (bufs.map Buffer.len).sum

theorem length_addresses (bufs : List Buffer) : (addresses bufs).length = size bufs := by
  induction bufs with
  | nil => rfl
  | cons b bufs ih => rw [addresses_cons, List.length_append, List.length_range', ih, size, size, List.map_cons,
      List.sum_cons]

/-- What is at the addresses. -/
def gather (as : List ℕ) (mem : ℕ → α) : List α := as.map mem

/-- The data come to the addresses, one after the other. -/
def scatter : List ℕ → List α → (ℕ → α) → ℕ → α
  | a :: as, x :: data, mem => scatter as data (Function.update mem a x)
  | _, _, mem => mem

@[simp] theorem scatter_nil (as : List ℕ) (mem : ℕ → α) : scatter as [] mem = mem := by
  cases as <;> rfl

@[simp] theorem length_gather (as : List ℕ) (mem : ℕ → α) : (gather as mem).length = as.length :=
  List.length_map _

theorem scatter_append {as as' : List ℕ} {data data' : List α} (h : as.length = data.length) (mem : ℕ → α) :
    scatter (as ++ as') (data ++ data') mem = scatter as' data' (scatter as data mem) := by
  induction as generalizing data mem with
  | nil =>
    rw [List.eq_nil_of_length_eq_zero h.symm]
    rfl
  | cons a as ih =>
    obtain ⟨x, data, rfl⟩ := List.exists_cons_of_length_eq_add_one h.symm
    exact ih (Nat.succ.inj h) _

/-- Other addresses are left alone. -/
theorem scatter_of_notMem {as : List ℕ} {a : ℕ} (ha : a ∉ as) (data : List α) (mem : ℕ → α) :
    scatter as data mem a = mem a := by
  induction as generalizing data mem with
  | nil => rfl
  | cons a' as ih =>
    obtain ⟨hne, has⟩ := List.ne_and_not_mem_of_not_mem_cons ha
    cases data with
    | nil => rfl
    | cons x data => rw [scatter, ih has, Function.update_of_ne hne]

theorem gather_scatter {as : List ℕ} {data : List α} (has : as.Nodup) (h : as.length = data.length)
    (mem : ℕ → α) : gather as (scatter as data mem) = data := by
  induction as generalizing data mem with
  | nil => rw [List.eq_nil_of_length_eq_zero h.symm]; rfl
  | cons a as ih =>
    obtain ⟨x, data, rfl⟩ := List.exists_cons_of_length_eq_add_one h.symm
    obtain ⟨ha, has⟩ := List.nodup_cons.1 has
    rw [gather, List.map_cons, scatter, scatter_of_notMem ha, Function.update_self]
    exact congrArg (x :: ·) (ih has (Nat.succ.inj h) _)

/-! ### Splitting a vector -/

/-- A vector for the first `bytes` bytes. -/
def copyBufs : List Buffer → ℕ → List Buffer
  | [], _ => []
  | b :: bufs, bytes =>
    if bytes ≤ b.len then [{ b with len := bytes }] else b :: copyBufs bufs (bytes - b.len)

/-- The vector without its first `bytes` bytes. -/
def advanceBufs : List Buffer → ℕ → List Buffer
  | [], _ => []
  | b :: bufs, bytes =>
    if bytes ≤ b.len then ⟨b.base + bytes, b.len - bytes⟩ :: bufs else advanceBufs bufs (bytes - b.len)

theorem addresses_copyBufs (bufs : List Buffer) (n : ℕ) :
    addresses (copyBufs bufs n) = (addresses bufs).take n := by
  induction bufs generalizing n with
  | nil => rw [copyBufs, addresses_nil, List.take_nil]
  | cons b bufs ih =>
    rw [copyBufs, addresses_cons]
    split_ifs with hn
    · rw [List.take_append_of_le_length (by rwa [List.length_range']), List.take_range'_of_length_ge hn]
      exact List.append_nil _
    · have hle : (List.range' b.base b.len).length ≤ n := by
        rw [List.length_range']
        omega
      rw [addresses_cons, ih, List.take_append, List.take_of_length_le hle, List.length_range']

theorem addresses_advanceBufs (bufs : List Buffer) (n : ℕ) :
    addresses (advanceBufs bufs n) = (addresses bufs).drop n := by
  induction bufs generalizing n with
  | nil => rw [advanceBufs, addresses_nil, List.drop_nil]
  | cons b bufs ih =>
    rw [advanceBufs, addresses_cons]
    split_ifs with hn
    · rw [addresses_cons, List.drop_append_of_le_length (by rwa [List.length_range']), List.drop_range',
        Nat.mul_one]
    · have hle : (List.range' b.base b.len).length ≤ n := by
        rw [List.length_range']
        omega
      rw [ih, List.drop_append, List.drop_of_length_le hle, List.nil_append, List.length_range']

theorem size_copyBufs {bufs : List Buffer} {n : ℕ} (h : n ≤ size bufs) : size (copyBufs bufs n) = n := by
  rw [← length_addresses, addresses_copyBufs, List.length_take, length_addresses, Nat.min_eq_left h]

theorem size_advanceBufs (bufs : List Buffer) (n : ℕ) : size (advanceBufs bufs n) = size bufs - n := by
  rw [← length_addresses, addresses_advanceBufs, List.length_drop, length_addresses]

theorem gather_copyBufs (bufs : List Buffer) (n : ℕ) (mem : ℕ → α) :
    gather (addresses (copyBufs bufs n)) mem = (gather (addresses bufs) mem).take n := by
  rw [addresses_copyBufs, gather, gather, List.map_take]

theorem gather_advanceBufs (bufs : List Buffer) (n : ℕ) (mem : ℕ → α) :
    gather (addresses (advanceBufs bufs n)) mem = (gather (addresses bufs) mem).drop n := by
  rw [addresses_advanceBufs, gather, gather, List.map_drop]

/-- The first `m` bytes, and then the others up to the `n`th. -/
theorem scatter_advanceBufs {bufs : List Buffer} {data : List α} {m n : ℕ} (hm : m ≤ n) (hn : n ≤ size bufs)
    (hdata : data.length = n) (mem : ℕ → α) :
    scatter ((addresses (advanceBufs bufs m)).take (n - m)) (data.drop m)
        (scatter (addresses (copyBufs bufs m)) (data.take m) mem) =
      scatter ((addresses bufs).take n) data mem := by
  have hsplit : (addresses bufs).take n =
      addresses (copyBufs bufs m) ++ (addresses (advanceBufs bufs m)).take (n - m) := by
    rw [addresses_copyBufs, addresses_advanceBufs, ← List.take_add, Nat.add_sub_cancel' hm]
  have hlen : (addresses (copyBufs bufs m)).length = (data.take m).length := by
    rw [length_addresses, size_copyBufs (hm.trans hn), List.length_take, hdata, Nat.min_eq_left hm]
  rw [hsplit, ← scatter_append hlen, List.take_append_drop]

end P2Player.Scatter
