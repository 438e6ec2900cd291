import Mathlib.Data.List.Range
import Mathlib.Algebra.Order.Group.Nat

/-!
# Files

A file of the operating system: a size and a byte at each offset, zero past the end (which carries
the rule that a file grows with zeros). The same structure is the remote content of a revision, and
the plain byte array to which the files of the drive are compared.

* `File.pread`, `File.pwrite`, `File.truncate`: the system calls, when they succeed.
* `File.byte_pwrite`, `File.byte_truncate`: what they leave at each offset.
* `File.pread_congr`: what is read is determined by the size and the bytes read.
-/

namespace Pclsync

open List

/-- The content of a file. -/
@[ext]
structure File where
  size : ℕ
  byte : ℕ → UInt8
  byte_of_size_le : ∀ i, size ≤ i → byte i = 0

namespace File

variable {f g : File} {bs : List UInt8} {off n i : ℕ}

/-- The empty file. -/
def empty : File := ⟨0, fun _ => 0, fun _ _ => rfl⟩

/-- The file with the given bytes. -/
def ofList (bs : List UInt8) : File :=
  ⟨bs.length, fun i => bs.getD i 0, fun i h => by simp [h]⟩

/-- The bytes read by `pread`: up to `n` of them, fewer at the end of the file. -/
def pread (f : File) (n off : ℕ) : List UInt8 :=
  (range (min n (f.size - off))).map fun j => f.byte (off + j)

/-- The file after `pwrite` of the bytes `bs`, which zero-fills up to the offset; writing no byte
    does not change a file. -/
def pwrite (f : File) (bs : List UInt8) (off : ℕ) : File where
  size := if bs = [] then f.size else max f.size (off + bs.length)
  byte i := if off ≤ i ∧ i < off + bs.length then bs.getD (i - off) 0 else f.byte i
  byte_of_size_le i h := by
    split_ifs at h with hbs
    · simp [hbs, f.byte_of_size_le i h]
    · rw [if_neg (by omega), f.byte_of_size_le i (le_of_max_le_left h)]

/-- The file cut, or zero-filled, to `n` bytes. -/
def truncate (f : File) (n : ℕ) : File where
  size := n
  byte i := if i < n then f.byte i else 0
  byte_of_size_le _ h := if_neg (not_lt.2 h)

@[simp] theorem size_empty : empty.size = 0 := rfl

@[simp] theorem byte_empty : empty.byte i = 0 := rfl

@[simp] theorem size_ofList : (ofList bs).size = bs.length := rfl

@[simp] theorem length_pread : (f.pread n off).length = min n (f.size - off) := by simp [pread]

@[simp] theorem size_truncate : (f.truncate n).size = n := rfl

@[simp] theorem byte_truncate : (f.truncate n).byte i = if i < n then f.byte i else 0 := rfl

theorem byte_truncate_of_le (h : f.size ≤ n) : (f.truncate n).byte i = f.byte i := by
  rw [byte_truncate, ite_eq_left_iff]
  exact fun hi => (f.byte_of_size_le i (h.trans (not_lt.1 hi))).symm

theorem size_pwrite (h : bs ≠ []) : (f.pwrite bs off).size = max f.size (off + bs.length) :=
  if_neg h

theorem byte_pwrite : (f.pwrite bs off).byte i =
    if off ≤ i ∧ i < off + bs.length then bs.getD (i - off) 0 else f.byte i := rfl

theorem byte_pwrite_of_lt (h : i < off) : (f.pwrite bs off).byte i = f.byte i := by
  rw [byte_pwrite, if_neg (by omega)]

@[simp] theorem pread_eq_nil (h : f.size ≤ off) : f.pread n off = [] := by
  simp [pread, Nat.sub_eq_zero_of_le h]

theorem take_pread {m : ℕ} : (f.pread n off).take m = f.pread (min m n) off := by
  rw [pread, pread, ← map_take, take_range, Nat.min_assoc]

theorem lt_size_of_pread (h : (f.pread n off).length ≠ 0) : off < f.size := by
  rw [length_pread] at h
  omega

theorem getD_pread {j : ℕ} (hj : j < (f.pread n off).length) :
    (f.pread n off).getD j 0 = f.byte (off + j) := by
  rw [length_pread] at hj
  simp [pread, hj]

/-- Two files are read alike where they have the same bytes and the same end. -/
theorem pread_congr (hs : min n (f.size - off) = min n (g.size - off))
    (hb : ∀ i, off ≤ i → i < off + min n (g.size - off) → f.byte i = g.byte i) :
    f.pread n off = g.pread n off := by
  rw [pread, pread, hs]
  refine map_congr_left fun j hj => hb _ (Nat.le_add_right ..) ?_
  have := mem_range.1 hj
  omega

theorem pread_pwrite : (f.pwrite bs off).pread bs.length off = bs := by
  rcases eq_nil_or_concat bs with rfl | ⟨_, _, hbs⟩
  · simp [pread]
  have hne : bs ≠ [] := by rintro rfl; simp at hbs
  have hsize : (f.pwrite bs off).size = max f.size (off + bs.length) := size_pwrite hne
  refine ext_getElem (by rw [length_pread, hsize]; omega) fun j hj hj' => ?_
  simp [pread, byte_pwrite, hj']

/-- A write changes nothing that is read after it, when it does not make the file longer. -/
theorem pread_pwrite_of_le {m : ℕ} (h : off + bs.length ≤ m) (hs : off + bs.length ≤ f.size) :
    (f.pwrite bs off).pread n m = f.pread n m := by
  have hsize : (f.pwrite bs off).size = f.size := by
    rcases eq_or_ne bs [] with rfl | hne
    · rfl
    · rw [size_pwrite hne, max_eq_left hs]
  refine pread_congr (by rw [hsize]) fun i hi _ => ?_
  rw [byte_pwrite, if_neg (by omega)]

/-- A write changes nothing that is read before it, within the file. -/
theorem pread_pwrite_of_ge {m : ℕ} (h : off + n ≤ m) (hs : off + n ≤ f.size) :
    (f.pwrite bs m).pread n off = f.pread n off := by
  have hsize : f.size ≤ (f.pwrite bs m).size := by
    rcases eq_or_ne bs [] with rfl | hne
    · exact le_rfl
    · exact (@size_pwrite f bs m hne) ▸ le_max_left ..
  refine pread_congr (by omega) fun i _ hi => ?_
  rw [byte_pwrite_of_lt (by omega)]

/-- A file is determined by its size and its bytes within the size. -/
theorem ext_of_lt (hs : f.size = g.size) (hb : ∀ i < f.size, f.byte i = g.byte i) : f = g := by
  refine File.ext hs (funext fun i => ?_)
  rcases lt_or_ge i f.size with hi | hi
  · exact hb i hi
  · rw [f.byte_of_size_le i hi, g.byte_of_size_le i (hs ▸ hi)]

@[simp] theorem truncate_zero : f.truncate 0 = empty := ext_of_lt rfl (by simp)

@[simp] theorem truncate_size : f.truncate f.size = f :=
  ext_of_lt rfl fun _ hi => if_pos hi

@[simp] theorem truncate_truncate : (f.truncate n).truncate n = f.truncate n :=
  truncate_size (f := f.truncate n)

/-- A file is copied piece by piece: what follows a copied part is appended to it. -/
theorem truncate_pwrite_pread (hn : 0 < n) (h : off + n ≤ f.size) :
    (f.truncate off).pwrite (f.pread n off) off = f.truncate (off + n) := by
  have hlen : (f.pread n off).length = n := by rw [length_pread]; omega
  have hne : f.pread n off ≠ [] := ne_nil_of_length_pos (hlen.symm ▸ hn)
  refine ext_of_lt ?_ fun i hi => ?_
  · rw [size_pwrite hne, size_truncate, size_truncate, hlen, max_eq_right (by omega)]
  · rw [size_pwrite hne, size_truncate, hlen, max_eq_right (by omega)] at hi
    rw [byte_pwrite, hlen, byte_truncate, byte_truncate, if_pos hi]
    split_ifs with h1 h2
    · rw [getD_pread (by omega), Nat.add_sub_cancel' h1.1]
    · rfl
    · omega

end File

end Pclsync
