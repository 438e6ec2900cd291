import Pclsync.OpenFile.Basic

/-!
# Modified files as overlays

A modified file shows the remote file overlaid with the local ranges (`OpenFile.view`).

* `OpenFile.Overlay`: the invariant of a modified file, on the data file and the intervals, and
  `OpenFile.Sparse`: moreover the index file records the intervals.
* `OpenFile.Overlay.readModified_eq`: under the invariant, when a read returns the bytes of the
  overlay.
* `OpenFile.Sparse.writeModified`, `OpenFile.Sparse.truncateOpened`: writes and truncations keep
  both invariants, unless a system call transfers a part of its bytes only.
-/

namespace Pclsync

open List

namespace OpenFile

/-! ## The overlay of the local ranges over the remote file -/

/-- The content of a modified file: the local bytes in the intervals, the remote ones elsewhere. -/
def view (of : OpenFile) : File where
  size := of.currentsize
  byte i := if i < of.currentsize then
      if i ∈ of.writeintervals then of.datafile.byte i else of.remote.byte i
    else 0
  byte_of_size_le _ h := if_neg (not_lt.2 h)

/-- The invariant of a modified file. -/
structure Overlay (of : OpenFile) : Prop where
  size : of.datafile.size = of.currentsize
  remote : of.initialsize ≤ of.remote.size
  /-- What is not local is remote. -/
  outside : ∀ i < of.currentsize, i ∉ of.writeintervals → i < of.initialsize
  /-- There is no gap among the local bytes past the remote end. -/
  closed : ∀ i ∈ of.writeintervals, ∀ j < i, of.initialsize ≤ j → j ∈ of.writeintervals

variable {of : OpenFile} {size offset : ℕ} {junk : ℕ → UInt8}

@[simp] theorem size_view : of.view.size = of.currentsize := rfl

theorem byte_view {i : ℕ} (h : i < of.currentsize) : of.view.byte i =
    if i ∈ of.writeintervals then of.datafile.byte i else of.remote.byte i := if_pos h

theorem readUnmodified_eq : of.readUnmodified size offset =
    of.remote.pread (min size (of.initialsize - offset)) offset := by
  rw [readUnmodified]
  split_ifs with h h'
  · simp [Nat.sub_eq_zero_of_le h, File.pread]
  · rw [min_eq_right (by omega)]
  · rw [min_eq_left (by omega)]

theorem length_readUnmodified (h : of.initialsize ≤ of.remote.size) :
    (of.readUnmodified size offset).length = min size (of.initialsize - offset) := by
  rw [readUnmodified_eq, File.length_pread]
  omega

theorem getD_readUnmodified {j : ℕ} (hj : j < (of.readUnmodified size offset).length) :
    (of.readUnmodified size offset).getD j 0 = of.remote.byte (offset + j) := by
  rw [readUnmodified_eq] at hj ⊢
  exact File.getD_pread hj

/-! ### The loop over the local ranges -/

section Loop

variable {ivs : List Interval} {buf : ℕ → UInt8} {rd j : ℕ} {fi : Interval}

/-- One round of the loop of `readLocal`: how far it reads. -/
theorem length_pread_interval : (of.datafile.pread
      (min fi.stop (offset + size) - max fi.start offset) (max fi.start offset)).length =
    min (min fi.stop (offset + size) - max fi.start offset)
      (of.datafile.size - max fi.start offset) := File.length_pread

theorem fill_interval (hfi : offset < fi.stop) (hj : j < size)
    (hjs : offset + j < of.datafile.size) :
    fill buf (max fi.start offset - offset) (of.datafile.pread
      (min fi.stop (offset + size) - max fi.start offset) (max fi.start offset)) j =
    if fi.start ≤ offset + j ∧ offset + j < fi.stop then of.datafile.byte (offset + j)
    else buf j := by
  rw [fill, length_pread_interval]
  refine if_ctx_congr (by omega) (fun h => ?_) fun _ => rfl
  have hoff : max fi.start offset + (j - (max fi.start offset - offset)) = offset + j := by omega
  rw [File.getD_pread (by rw [length_pread_interval]; omega), hoff]

theorem readLocal_buf (hc : Canonical ivs) (hs : ∀ fi ∈ ivs, offset < fi.stop) (hj : j < size)
    (hjs : offset + j < of.datafile.size) : (of.readLocal size offset ivs buf rd).1 j =
      if Covered ivs (offset + j) then of.datafile.byte (offset + j) else buf j := by
  induction ivs generalizing buf rd with
  | nil => simp [readLocal]
  | cons fi rest ih =>
    obtain ⟨hfi, hrest, hlt⟩ := canonical_cons.1 hc
    rw [readLocal]
    dsimp only
    by_cases h : fi.start < offset + size
    · rw [if_pos h, ih hrest fun b m => hs b (mem_cons_of_mem _ m),
        fill_interval (hs fi (mem_cons_self ..)) hj hjs]
      by_cases h1 : Covered rest (offset + j) <;>
        by_cases h2 : fi.start ≤ offset + j ∧ offset + j < fi.stop <;>
          simp [h1, h2]
    · rw [if_neg h, if_neg]
      rintro ⟨b, m, hb, -⟩
      rcases mem_cons.1 m with rfl | m
      · omega
      · have := hlt b m
        omega

theorem le_readLocal : rd ≤ (of.readLocal size offset ivs buf rd).2 := by
  induction ivs generalizing buf rd with
  | nil => exact le_rfl
  | cons fi rest ih =>
    rw [readLocal]
    dsimp only
    split_ifs with h h'
    · exact h'.2.le.trans ih
    · exact ih
    · exact le_rfl

theorem readLocal_le (hs : ∀ fi ∈ ivs, fi.start < offset + size →
      fi.start ≤ max offset of.datafile.size)
    (hrd : rd ≤ min size (of.datafile.size - offset)) :
    (of.readLocal size offset ivs buf rd).2 ≤ min size (of.datafile.size - offset) := by
  induction ivs generalizing buf rd with
  | nil => exact hrd
  | cons fi rest ih =>
    have hfi := hs fi (mem_cons_self ..)
    have hrest := fun b m => hs b (mem_cons_of_mem _ m)
    rw [readLocal]
    dsimp only
    rw [length_pread_interval]
    split_ifs with h
    · refine ih hrest ?_
      have := hfi h
      omega
    · exact ih hrest hrd
    · exact hrd

theorem lt_readLocal (hc : Canonical ivs) (hs : ∀ fi ∈ ivs, offset < fi.stop)
    (hrd : rd ≤ size) (hj : j < size) (hjs : offset + j < of.datafile.size)
    (hcov : Covered ivs (offset + j)) : j < (of.readLocal size offset ivs buf rd).2 := by
  induction ivs generalizing buf rd with
  | nil => exact absurd hcov not_covered_nil
  | cons fi rest ih =>
    obtain ⟨hfi, hrest, hlt⟩ := canonical_cons.1 hc
    have hstop := hs fi (mem_cons_self ..)
    have hs' := fun b m => hs b (mem_cons_of_mem _ m)
    rw [readLocal]
    dsimp only
    rw [length_pread_interval]
    rcases covered_cons.1 hcov with hcov | hcov
    · rw [if_pos (by omega)]
      refine lt_of_lt_of_le ?_ le_readLocal
      split_ifs <;> omega
    · have hstart : fi.start < offset + size := by
        obtain ⟨b, m, hb, -⟩ := hcov
        have := hlt b m
        omega
      rw [if_pos hstart]
      refine ih hrest hs' ?_ hcov
      split_ifs <;> omega

end Loop

/-! ### Reading a modified file -/

theorem Overlay.start_le (h : of.Overlay) {fi : Interval} (hfi : fi ∈ of.writeintervals.toList) :
    fi.start ≤ of.initialsize := by
  by_contra hlt
  have hlt : of.initialsize ≤ fi.start - 1 := by omega
  have hmem : fi.start ∈ of.writeintervals :=
    ⟨fi, hfi, le_rfl, of.writeintervals.canonical.lt fi hfi⟩
  exact IntervalTree.notMem_of_lt_start hfi (by omega)
    (h.closed _ hmem (fi.start - 1) (by omega) hlt)

/-- What a read of a modified file returns, when the interval found does not contain it. -/
theorem Overlay.readLocal_eq (h : of.Overlay) (hend : offset + size ≤ of.currentsize ∨
      of.initialsize ≤ max offset of.currentsize) :
    let p := of.readLocal size offset (of.writeintervals.containingOrAfter offset)
      (fill junk 0 (of.readUnmodified size offset)) (of.readUnmodified size offset).length
    p.2 = min size (of.currentsize - offset) ∧ ∀ j < p.2, p.1 j = of.view.byte (offset + j) := by
  intro p
  have hcan : Canonical (of.writeintervals.containingOrAfter offset) :=
    IntervalTree.canonical_containingOrAfter
  obtain ⟨_, -, -, hstop⟩ := of.writeintervals.containingOrAfter_spec offset
  have hlen : (of.readUnmodified size offset).length = min size (of.initialsize - offset) :=
    length_readUnmodified h.remote
  have hsize := h.size
  have hle : p.2 ≤ min size (of.currentsize - offset) := by
    rw [← hsize]
    refine readLocal_le (fun fi m hlt => ?_) (by omega)
    have := h.start_le (IntervalTree.mem_toList_of_mem_containingOrAfter m)
    omega
  have hge : (of.readUnmodified size offset).length ≤ p.2 := le_readLocal
  have hlocal : ∀ j < min size (of.currentsize - offset), offset + j ∈ of.writeintervals →
      j < p.2 := fun j hj hmem => lt_readLocal hcan hstop (by omega) (by omega) (by omega)
        ((IntervalTree.covered_containingOrAfter (by omega)).2 hmem)
  refine ⟨le_antisymm hle (not_lt.1 fun hlt => ?_), fun j hj => ?_⟩
  · -- the first byte not read would lie past the remote end, hence in an interval
    have hmem : offset + p.2 ∉ of.writeintervals := fun hmem => (hlocal p.2 hlt hmem).false
    have := h.outside (offset + p.2) (by omega) hmem
    omega
  · have hjs : offset + j < of.currentsize := by omega
    rw [byte_view hjs]
    refine (readLocal_buf hcan hstop (by omega) (by omega)).trans ?_
    refine if_ctx_congr (IntervalTree.covered_containingOrAfter (by omega)) (fun _ => rfl)
      fun hmem => ?_
    have := h.outside (offset + j) hjs hmem
    rw [fill, if_pos (by omega), Nat.sub_zero, getD_readUnmodified (by omega)]

theorem Overlay.pread_eq_of_containedAt (h : of.Overlay) (hc : of.ContainedAt size offset) :
    of.datafile.pread size offset = of.view.pread size offset := by
  obtain ⟨fi, hfi, hstart, hstop⟩ := hc
  have hmem := IntervalTree.mem_toList_of_mem_containingOrAfter (mem_of_head? hfi)
  refine File.pread_congr (by rw [h.size, size_view]) fun i hi hlt => ?_
  rw [size_view] at hlt
  rw [byte_view (by omega), if_pos]
  exact ⟨fi, hmem, by omega, by omega⟩

/-- A read which is found in one interval, or which does not go past the end of the file, or where
    the remote file does not go past the end of the file and the offset, returns the bytes of the
    overlay. -/
theorem Overlay.readModified_eq (h : of.Overlay) (hend : of.ContainedAt size offset ∨
      offset + size ≤ of.currentsize ∨ of.initialsize ≤ max offset of.currentsize) :
    of.readModified size offset junk = of.view.pread size offset := by
  by_cases hc : of.ContainedAt size offset
  · rw [readModified, if_pos hc, h.pread_eq_of_containedAt hc]
  · obtain ⟨hlen, hbuf⟩ := h.readLocal_eq (hend.resolve_left hc)
    rw [readModified, if_neg hc, File.pread, size_view, ← hlen]
    exact map_congr_left fun j hj => hbuf j (mem_range.1 hj)

/-! ## Writing to a modified file -/

/-- The invariant of a modified file: it is an overlay, and the index file records its intervals. -/
structure Sparse (of : OpenFile) : Prop extends of.Overlay where
  newfile : of.newfile = false
  length : of.indexfile.length = of.indexoff
  pos : ∀ r ∈ of.indexfile, 0 < r.length
  mem_index : ∀ i, (∃ r ∈ of.indexfile, r.offset ≤ i ∧ i < r.offset + r.length) ↔
    i ∈ of.writeintervals

theorem pwriteRecord_length (index : List IndexRecord) (r : IndexRecord) :
    pwriteRecord index index.length r = index ++ [r] := by
  simp [pwriteRecord]

/-- The file `of` with the range `[start, stop)`, whose bytes are in the new data file. -/
def addRange (of : OpenFile) (start stop : ℕ) (h : start < stop) (datafile : File) : OpenFile :=
  { of with
    datafile
    indexfile := of.indexfile ++ [⟨start, stop - start⟩]
    indexoff := of.indexoff + 1
    writeintervals := of.writeintervals.add start stop h
    currentsize := max of.currentsize stop }

@[simp] theorem mem_addRange {start stop i : ℕ} {h : start < stop} {datafile : File} :
    i ∈ (of.addRange start stop h datafile).writeintervals ↔
      i ∈ of.writeintervals ∨ (start ≤ i ∧ i < stop) :=
  @IntervalTree.mem_add start stop i of.writeintervals h

/-- Adding a range keeps the invariant if it leaves no hole after the end of the file. -/
theorem Sparse.addRange (h : of.Sparse) {start stop : ℕ} (hlt : start < stop)
    (hstart : start ≤ of.currentsize) {datafile : File}
    (hd : datafile.size = max of.currentsize stop) :
    (of.addRange start stop hlt datafile).Sparse where
  size := hd
  remote := h.remote
  newfile := h.newfile
  length := by simp [OpenFile.addRange, h.length]
  pos r hr := by
    rcases mem_append.1 hr with hr | hr
    · exact h.pos r hr
    · obtain rfl := mem_singleton.1 hr
      exact Nat.sub_pos_of_lt hlt
  mem_index i := by
    simp only [OpenFile.addRange, mem_append, mem_singleton, or_and_right, exists_or,
      exists_eq_left, h.mem_index, IntervalTree.mem_add, Nat.add_sub_cancel' hlt.le]
  outside i hi hmem := by
    rw [mem_addRange, not_or] at hmem
    exact h.outside i (by simp only [OpenFile.addRange] at hi; omega) hmem.1
  closed i hi j hj hinit := by
    rw [mem_addRange] at hi ⊢
    rcases hi with hi | hi
    · exact .inl (h.closed i hi j hj hinit)
    · by_cases hmem : j ∈ of.writeintervals
      · exact .inl hmem
      · refine .inr ⟨not_lt.1 fun hjs => ?_, hj.trans hi.2⟩
        have hout := h.outside j (hjs.trans_le hstart) hmem
        exact (hout.trans_le hinit).false

theorem byte_view_addRange {start stop : ℕ} (hlt : start < stop)
    (hstart : start ≤ of.currentsize) {datafile : File}
    (hd : ∀ i < of.currentsize, ¬(start ≤ i ∧ i < stop) → datafile.byte i = of.datafile.byte i) :
    ∀ i < max of.currentsize stop, (of.addRange start stop hlt datafile).view.byte i =
      if start ≤ i ∧ i < stop then datafile.byte i else of.view.byte i := by
  intro i hi
  rw [byte_view hi]
  by_cases hin : start ≤ i ∧ i < stop
  · rw [if_pos hin, if_pos (mem_addRange.2 (.inr hin))]
    rfl
  · have hcs : i < of.currentsize := by omega
    rw [if_neg hin, byte_view hcs]
    exact if_ctx_congr (mem_addRange.trans (or_iff_left hin)) (fun _ => hd i hcs hin) fun _ => rfl

/-- Extending a modified file adds the range up to the new end; the truncation may fail, leaving
    the file as it was. -/
theorem Sparse.modfileCheckSizeOk_eq (h : of.Sparse) {calls : ExtendCalls}
    (hi : calls.index = .done) (hlt : of.currentsize < size) :
    of.modfileCheckSizeOk size calls =
      if calls.truncate then (of.addRange of.currentsize size hlt (of.datafile.truncate size), 0)
      else (of, -1) := by
  rw [modfileCheckSizeOk, dif_pos hlt]
  by_cases ht : calls.truncate
  · have hr := pwriteRecord_length of.indexfile ⟨of.currentsize, size - of.currentsize⟩
    rw [h.length] at hr
    simp [ht, h.newfile, hi, OpenFile.addRange, IndexWrite.apply, hr, hlt.le]
  · simp [ht]

theorem modfileCheckSizeOk_of_le {calls : ExtendCalls} (hle : size ≤ of.currentsize) :
    of.modfileCheckSizeOk size calls = (of, 0) := dif_neg (not_lt.2 hle)

/-- The fields a write to a modified file leaves alone. -/
structure SameRevision (of of' : OpenFile) : Prop where
  modified : of'.modified = of.modified
  releasedforupload : of'.releasedforupload = of.releasedforupload
  writeid : of'.writeid = of.writeid
  initialsize : of'.initialsize = of.initialsize
  remote : of'.remote = of.remote

theorem SameRevision.refl (of : OpenFile) : of.SameRevision of := ⟨rfl, rfl, rfl, rfl, rfl⟩

theorem SameRevision.trans {of of' of'' : OpenFile} (h : of.SameRevision of')
    (h' : of'.SameRevision of'') : of.SameRevision of'' :=
  ⟨h'.1.trans h.1, h'.2.trans h.2, h'.3.trans h.3, h'.4.trans h.4, h'.5.trans h.5⟩

/-- The effect of extending a modified file. -/
theorem Sparse.modfileCheckSizeOk (h : of.Sparse) {calls : ExtendCalls} (hi : calls.index = .done)
    {of' : OpenFile} {ret : ℤ} (heq : of.modfileCheckSizeOk size calls = (of', ret)) :
    (calls.truncate = false ∧ ret ≠ 0 ∧ of' = of) ∨
      (ret = 0 ∧ of'.Sparse ∧ of.SameRevision of' ∧ of'.currentsize = max of.currentsize size ∧
        ∀ i < of'.currentsize, of'.view.byte i = of.view.byte i) := by
  rcases le_or_gt size of.currentsize with hle | hlt
  · rw [modfileCheckSizeOk_of_le hle] at heq
    obtain ⟨rfl, rfl⟩ := Prod.mk.inj heq
    exact .inr ⟨rfl, h, .refl _, (max_eq_left hle).symm, fun _ _ => rfl⟩
  · rw [h.modfileCheckSizeOk_eq hi hlt] at heq
    split_ifs at heq with ht
    · obtain ⟨rfl, rfl⟩ := Prod.mk.inj heq
      have hd : (of.datafile.truncate size).size = max of.currentsize size := by
        rw [File.size_truncate, max_eq_right hlt.le]
      refine .inr ⟨rfl, h.addRange hlt le_rfl hd, ⟨rfl, rfl, rfl, rfl, rfl⟩, rfl, fun i hi => ?_⟩
      have hbyte : (of.datafile.truncate size).byte i = of.datafile.byte i :=
        File.byte_truncate_of_le (h.size.trans_le hlt.le)
      rw [byte_view_addRange hlt le_rfl (fun _ _ _ => File.byte_truncate_of_le
        (h.size.trans_le hlt.le)) i hi, hbyte, ite_eq_right_iff]
      intro hin
      rw [of.datafile.byte_of_size_le i (h.size.trans_le hin.1), of.view.byte_of_size_le i hin.1]
    · obtain ⟨rfl, rfl⟩ := Prod.mk.inj heq
      exact .inl ⟨by simpa using ht, by decide, rfl⟩

/-- A write whose record is written keeps the invariant if all its bytes are written, or if the
    bytes given do not go past the end of the file. -/
theorem Sparse.writeModified (h : of.Sparse) {calls : WriteCalls} {buf : List UInt8} {bw : ℕ}
    (hx : calls.extend.index = .done) (hi : calls.index = .done) (hd : calls.data = some bw)
    (hbw : buf.length ≤ bw ∨ offset + buf.length ≤ of.currentsize) {of' : OpenFile} {ret : ℤ}
    (heq : of.writeModified buf offset calls = some (of', ret)) :
    (calls.extend.truncate = false ∧ of' = of) ∨
      (of'.Sparse ∧ of.SameRevision of' ∧ ret = (buf.take bw).length ∧
        of'.view = of.view.pwrite (buf.take bw) offset) := by
  rw [OpenFile.writeModified] at heq
  rcases hg : of.modfileCheckSizeOk offset calls.extend with ⟨g, r⟩
  rw [hg] at heq
  dsimp only at heq
  rcases h.modfileCheckSizeOk hx hg with ⟨ht, hr, rfl⟩ | ⟨rfl, hsp, hsame, hcs, hview⟩
  · rw [if_pos hr] at heq
    obtain ⟨rfl, rfl⟩ := Prod.mk.inj (Option.some.inj heq)
    exact .inl ⟨ht, rfl⟩
  · rw [if_neg (by simp), hd] at heq
    simp only [hi, ne_eq, not_true_eq_false, if_false] at heq
    have hlen : (buf.take bw).length ≤ buf.length := length_take_le' ..
    have hmax : max g.currentsize (offset + buf.length) =
        max g.currentsize (offset + (buf.take bw).length) := by
      rcases hbw with hbw | hbw
      · rw [take_of_length_le hbw]
      · omega
    rw [hmax] at heq
    generalize buf.take bw = written at heq ⊢
    split_ifs at heq with hlt
    have hne : written ≠ [] := by rintro rfl; simp at hlt
    have hrec := pwriteRecord_length g.indexfile ⟨offset, written.length⟩
    rw [hsp.length] at hrec
    have hsize : (g.datafile.pwrite written offset).size =
        max g.currentsize (offset + written.length) := by
      rw [File.size_pwrite hne, hsp.size]
    obtain ⟨rfl, rfl⟩ : of' = g.addRange offset _ hlt (g.datafile.pwrite written offset) ∧
        ret = written.length := by
      obtain ⟨rfl, rfl⟩ := Prod.mk.inj (Option.some.inj heq)
      simp [OpenFile.addRange, IndexWrite.apply, hrec]
    have hstart : offset ≤ g.currentsize := by omega
    refine .inr ⟨hsp.addRange hlt hstart hsize, hsame.trans ⟨rfl, rfl, rfl, rfl, rfl⟩, rfl, ?_⟩
    refine File.ext_of_lt ?_ fun i hlti => ?_
    · rw [size_view, File.size_pwrite hne, size_view, OpenFile.addRange]
      dsimp only
      omega
    · rw [byte_view_addRange hlt hstart (fun i _ hin => if_neg hin) i hlti, File.byte_pwrite]
      split_ifs with hin
      · rw [File.byte_pwrite, if_pos hin]
      · rw [File.byte_pwrite, if_neg hin]
        refine hview i ?_
        rw [size_view, OpenFile.addRange] at hlti
        dsimp only at hlti
        omega

theorem Sparse.incWriteid (h : of.Sparse) : of.incWriteid.Sparse := { h with }

theorem ensureModified_eq (of : OpenFile) (h : of.modified = true) (pagesInCache : Bool) :
    of.ensureModified pagesInCache = of := by
  simp [ensureModified, h]

theorem Sparse.cut (h : of.Sparse) (hlt : size < of.currentsize) :
    { of with datafile := of.datafile.truncate size, currentsize := size : OpenFile }.Sparse :=
  { h with
    size := File.size_truncate
    outside := fun i hi => h.outside i (hi.trans hlt) }

/-- A truncation whose record is written keeps the invariant; it either has its effect, or none
    when a system call fails. -/
theorem Sparse.truncateOpened (h : of.Sparse) {calls : TruncateCalls}
    (hx : calls.extend.index = .done) {of' : OpenFile} {ret : ℤ}
    (heq : of.truncateOpened size calls = (of', ret)) :
    of'.Sparse ∧ of.SameRevision of' ∧
      (ret = 0 ∧ of'.view = of.view.truncate size ∨
        ret ≠ 0 ∧ of'.view = of.view ∧
          (calls.extend.truncate = false ∨ calls.truncate = false)) := by
  rw [OpenFile.truncateOpened] at heq
  rcases hg : of.modfileCheckSizeOk size calls.extend with ⟨g, r⟩
  rw [hg] at heq
  dsimp only at heq
  rcases h.modfileCheckSizeOk hx hg with ⟨ht, hr, rfl⟩ | ⟨rfl, hsp, hsame, hcs, hview⟩
  · rw [if_pos hr] at heq
    obtain ⟨rfl, rfl⟩ := Prod.mk.inj heq
    exact ⟨h, .refl _, .inr ⟨by decide, rfl, .inl ht⟩⟩
  · rw [if_neg (by simp)] at heq
    split_ifs at heq with hup ht
    · obtain ⟨rfl, rfl⟩ := Prod.mk.inj heq
      refine ⟨hsp, hsame, .inl ⟨rfl, File.ext_of_lt hup fun i hi => ?_⟩⟩
      have hlt : i < size := hup ▸ hi
      rw [hview i hi, File.byte_truncate, if_pos hlt]
    · obtain ⟨rfl, rfl⟩ := Prod.mk.inj heq
      refine ⟨hsp, hsame, .inr ⟨by decide, ?_, .inr ht⟩⟩
      exact File.ext_of_lt (by rw [size_view, size_view]; omega) fun i hi => hview i hi
    · obtain ⟨rfl, rfl⟩ := Prod.mk.inj heq
      have hlt : size < g.currentsize := by omega
      refine ⟨hsp.cut hlt, hsame.trans ⟨rfl, rfl, rfl, rfl, rfl⟩, .inl ⟨rfl, ?_⟩⟩
      refine File.ext_of_lt rfl fun i hi => ?_
      have hi : i < size := hi
      rw [File.byte_truncate, if_pos hi]
      refine Eq.trans ?_ (hview i (hi.trans hlt))
      rw [@byte_view g i (hi.trans hlt), byte_view hi, File.byte_truncate, if_pos hi]

end OpenFile

end Pclsync
