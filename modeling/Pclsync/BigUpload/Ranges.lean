import Mathlib.Algebra.Order.Ring.Nat
import Pclsync.File

/-!
# The ranges of a large upload

A large file is uploaded as a list of ranges (`psync_upload_range_list_t`), which are sent from the
local file or copied on the server from another upload or from a file.

* `Upload`: what does not change during an upload. Its list of ranges, as the search for known
  blocks leaves it, tiles the rest of the file (`Tiles`).
* `splitCopies`: long copies are split.
* `EachAt`: a property of all ranges at their places, which are the sums of the lengths before them.
  `eachAt_splitCopies` is the rule for the pieces of long copies.
* `Upload.Right`: the bytes of a range are those of the local file at its place.
-/

namespace Pclsync.BigUpload

open List

/-- `PSYNC_URANGE_…`, with the fields of the union. -/
inductive RangeType
  | upload
  | copyFile (fileid hash : ℕ)
  | copyUpload (uploadid : ℕ)
  | last
  deriving DecidableEq

def RangeType.isCopy : RangeType → Bool
  | .copyFile _ _ => true
  | .copyUpload _ => true
  | _ => false

/-- `psync_upload_range_list_t`. -/
structure UploadRange where
  uploadoffset : ℕ
  off : ℕ
  len : ℕ
  type : RangeType
  id : ℕ

variable {r : UploadRange} {rs : List UploadRange} {p i stop : ℕ} {P : UploadRange → ℕ → Prop}

/-! ## Places -/

/-- The number of bytes of some ranges. -/
def total (rs : List UploadRange) : ℕ := (rs.map UploadRange.len).sum

@[simp] theorem total_nil : total [] = 0 := rfl

@[simp] theorem total_cons : total (r :: rs) = r.len + total rs := sum_cons

theorem total_append (rs ss : List UploadRange) : total (rs ++ ss) = total rs + total ss := by
  rw [total, map_append, sum_append]
  rfl

/-- A property of every range at its place, the first one of which is at `p`. -/
def EachAt (P : UploadRange → ℕ → Prop) : ℕ → List UploadRange → Prop
  | _, [] => True
  | p, r :: rs => P r p ∧ EachAt P (p + r.len) rs

theorem eachAt_append (rs ss : List UploadRange) :
    EachAt P p (rs ++ ss) ↔ EachAt P p rs ∧ EachAt P (p + total rs) ss := by
  induction rs generalizing p with
  | nil => exact ⟨fun h => ⟨trivial, h⟩, fun h => h.2⟩
  | cons r rs ih =>
    rw [cons_append, EachAt, EachAt, ih, total_cons, Nat.add_assoc, and_assoc]

theorem eachAt_iff :
    EachAt P p rs ↔ ∀ (i : ℕ) r, rs[i]? = some r → P r (p + total (rs.take i)) := by
  induction rs generalizing p with
  | nil => exact ⟨fun _ i r h => (by cases h), fun _ => trivial⟩
  | cons r rs ih =>
    rw [EachAt, ih]
    constructor
    · rintro ⟨hr, hrs⟩ i r' hi
      cases i with
      | zero =>
        obtain ⟨⟩ := hi
        exact hr
      | succ i =>
        rw [take_succ_cons, total_cons, ← Nat.add_assoc]
        exact hrs i r' hi
    · refine fun h => ⟨h 0 r rfl, fun i r' hi => ?_⟩
      have hnext := h (i + 1) r' hi
      rwa [take_succ_cons, total_cons, ← Nat.add_assoc] at hnext

/-- A range of the same length at the same position. -/
theorem total_take_set (hlen : ∀ q, rs[i]? = some q → r.len = q.len) (j : ℕ) :
    total ((rs.set i r).take j) = total (rs.take j) := by
  induction rs generalizing i j with
  | nil => rfl
  | cons q rs ih =>
    cases j with
    | zero => rfl
    | succ j =>
      cases i with
      | zero =>
        have hq := hlen q rfl
        rw [set_cons_zero, take_succ_cons, take_succ_cons, total_cons, total_cons, hq]
      | succ i =>
        have hrest := ih (i := i) (fun q' hq' => hlen q' hq') j
        rw [set_cons_succ, take_succ_cons, take_succ_cons, total_cons, total_cons, hrest]

theorem eachAt_set (h : EachAt P p rs) (hlen : ∀ q, rs[i]? = some q → r.len = q.len)
    (hr : P r (p + total (rs.take i))) : EachAt P p (rs.set i r) := by
  rw [eachAt_iff] at h ⊢
  intro j q hq
  rw [total_take_set hlen]
  rcases eq_or_ne i j with rfl | hne
  · rw [getElem?_set_self'] at hq
    obtain ⟨-, -, rfl⟩ := Option.map_eq_some_iff.1 hq
    exact hr
  · rw [getElem?_set_ne hne] at hq
    exact h j q hq

/-- Every place in a list of ranges is in one of them. -/
theorem exists_range {x : ℕ} (hx : p ≤ x) (hx' : x < p + total rs) :
    ∃ i r, rs[i]? = some r ∧ p + total (rs.take i) ≤ x ∧ x < p + total (rs.take i) + r.len := by
  induction rs generalizing p with
  | nil => exact absurd hx' (Nat.not_lt_of_le hx)
  | cons r rs ih =>
    rw [total_cons, ← Nat.add_assoc] at hx'
    rcases Nat.lt_or_ge x (p + r.len) with hlt | hge
    · exact ⟨0, r, rfl, hx, hlt⟩
    · obtain ⟨i, q, hq, hle, hlt⟩ := ih hge hx'
      refine ⟨i + 1, q, hq, ?_, ?_⟩
      · rwa [take_succ_cons, total_cons, ← Nat.add_assoc]
      · rwa [take_succ_cons, total_cons, ← Nat.add_assoc]

/-! ## Splitting -/

/-- `PSYNC_MAX_COPY_FROM_REQ` -/
@[irreducible] def maxCopyFromReq : ℕ := 32 * 1024 * 1024

theorem maxCopyFromReq_pos : 0 < maxCopyFromReq := by
  rw [maxCopyFromReq]
  decide

/-- The pieces of a copy that is too long. -/
def splitCopy (r : UploadRange) : List UploadRange :=
  if maxCopyFromReq < r.len then
    { r with len := maxCopyFromReq } ::
      splitCopy { r with off := r.off + maxCopyFromReq, len := r.len - maxCopyFromReq }
  else [r]
  termination_by r.len
  decreasing_by
    have hpos := maxCopyFromReq_pos
    omega

/-- The loop that splits the copies of the list; it goes on with the piece that it adds. -/
def splitCopies : List UploadRange → List UploadRange
  | [] => []
  | r :: rs => (if r.type.isCopy then splitCopy r else [r]) ++ splitCopies rs

theorem total_splitCopy (r : UploadRange) : total (splitCopy r) = r.len := by
  induction hn : r.len using Nat.strong_induction_on generalizing r with
  | _ n ih =>
    have hpos := maxCopyFromReq_pos
    rw [splitCopy]
    split
    · rw [total_cons, ih (r.len - maxCopyFromReq) (by omega) _ rfl]
      change maxCopyFromReq + (r.len - maxCopyFromReq) = n
      omega
    · exact hn

theorem total_splitCopies (rs : List UploadRange) : total (splitCopies rs) = total rs := by
  induction rs with
  | nil => rfl
  | cons r rs ih =>
    rw [splitCopies, total_append, ih, total_cons]
    split
    · rw [total_splitCopy]
    · rfl

/-- A property that passes to both parts of a copy. -/
def Splits (P : UploadRange → ℕ → Prop) : Prop :=
  ∀ r p n, r.type.isCopy = true → P r p → n < r.len →
    P { r with len := n } p ∧ P { r with off := r.off + n, len := r.len - n } (p + n)

theorem eachAt_splitCopy (hP : Splits P) (hcopy : r.type.isCopy = true) (h : P r p) :
    EachAt P p (splitCopy r) := by
  induction hn : r.len using Nat.strong_induction_on generalizing r p with
  | _ n ih =>
    have hpos := maxCopyFromReq_pos
    rw [splitCopy]
    generalize maxCopyFromReq = m at hpos
    split
    · next hlong =>
      obtain ⟨hfirst, hrest⟩ := hP r p m hcopy h hlong
      rw [EachAt]
      exact ⟨hfirst, ih (r.len - m) (by omega) hcopy hrest rfl⟩
    · exact ⟨h, trivial⟩

theorem eachAt_splitCopies (hP : Splits P) (h : EachAt P p rs) : EachAt P p (splitCopies rs) := by
  induction rs generalizing p with
  | nil => exact trivial
  | cons r rs ih =>
    obtain ⟨hr, hrs⟩ := h
    rw [splitCopies, eachAt_append]
    split
    · next hcopy =>
      refine ⟨eachAt_splitCopy hP hcopy hr, ?_⟩
      rw [total_splitCopy]
      exact ih hrs
    · exact ⟨⟨hr, trivial⟩, ih hrs⟩

/-! ## Tilings -/

/-- A range at a place: what is uploaded comes from there. -/
def UploadRange.Placed (r : UploadRange) (p : ℕ) : Prop :=
  r.type ≠ .last ∧ (r.type = .upload → r.off = p)

/-- The ranges tile a file from a position to another one. -/
structure Tiles (start stop : ℕ) (rs : List UploadRange) : Prop where
  placed : EachAt UploadRange.Placed start rs
  total_eq : start + total rs = stop

theorem splits_placed : Splits UploadRange.Placed := by
  intro r p n hcopy h _
  have hupload : r.type ≠ .upload := by
    intro hr
    rw [hr] at hcopy
    cases hcopy
  exact ⟨⟨h.1, fun hr => absurd hr hupload⟩, ⟨h.1, fun hr => absurd hr hupload⟩⟩

theorem Tiles.splitCopies {start : ℕ} (h : Tiles start stop rs) :
    Tiles start stop (splitCopies rs) where
  placed := eachAt_splitCopies splits_placed h.placed
  total_eq := by
    rw [total_splitCopies]
    exact h.total_eq

/-! ## The bytes of ranges -/

/-- The parameters of `upload_big_file` and the world around it: the files and uploads on the server
    that copies can be made of, what the upload has before, and the ranges that are found. -/
structure Upload (H : Type) where
  localFile : File
  uploadid : ℕ
  uploadoffset : ℕ
  files : ℕ → ℕ → File
  uploads : ℕ → File
  content : File
  rlist : List UploadRange
  tiles : Tiles uploadoffset (max uploadoffset localFile.size) rlist
  /-- What is in memory where the last element of the list is allocated. -/
  junk : UploadRange
  /-- The checksum of a file, and the one that was computed of the local file. -/
  checksum : File → H
  hashhex : H
  /-- Whether `psync_handle_api_result` gives `PSYNC_NET_TEMPFAIL`. -/
  tempfail : ℕ → Bool

variable {H : Type} {u : Upload H}

/-- The size of the local file, as it was found before. -/
def Upload.fsize (u : Upload H) : ℕ := u.localFile.size

/-- The file from which the bytes of a range come. -/
def Upload.source (u : Upload H) (r : UploadRange) : File :=
  match r.type with
  | .upload => u.localFile
  | .copyFile fileid hash => u.files fileid hash
  | .copyUpload uploadid => u.uploads uploadid
  | .last => .empty

/-- The bytes of a range are those of the local file at a place. -/
def Upload.Right (u : Upload H) (r : UploadRange) (p : ℕ) : Prop :=
  ∀ j < r.len, (u.source r).byte (r.off + j) = u.localFile.byte (p + j)

/-- What the upload has before is right, and so are the ranges that were found. -/
structure Upload.SourcesRight (u : Upload H) : Prop where
  content : ∀ i < u.uploadoffset, u.content.byte i = u.localFile.byte i
  ranges : EachAt u.Right u.uploadoffset u.rlist

theorem splits_right (u : Upload H) : Splits u.Right := by
  refine fun r p n _ h hlong => ⟨fun j hj => h j (hj.trans hlong), fun j hj => ?_⟩
  have hlt : n + j < r.len := Nat.add_lt_of_lt_sub' hj
  have hright := h (n + j) hlt
  rwa [← Nat.add_assoc, ← Nat.add_assoc] at hright

/-- An uploaded range is right at the place from which it comes. -/
theorem UploadRange.Placed.right (h : r.Placed p) (hr : r.type = .upload) : u.Right r p := by
  intro j _
  rw [Upload.source, hr, h.2 hr]

end Pclsync.BigUpload
