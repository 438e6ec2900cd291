import Mathlib.Data.List.Nodup
import Mathlib.Data.List.Perm.Subperm
import Pclsync.Components
import Pclsync.Decimal

/-!
# Renaming a file to a conflict name

`psync_rename_conflicted_file` (`plibs.c`) tries names with a mark in front of the extension, until
one of them cannot be found. Here the names are bytes, and the buffer for them counts.

* `psyncRenameConflictedFile`: the function in a `Directory` that nobody else changes; a write
  behind the buffer gives `none`.
* `exists_free`: one of the first names is free, so that the search ends.
* `RenamedRight`: what is asked of a call.
* `renamedRight_iff`: a call is right exactly when the last dot of the path is in the name of the
  file, and the first name that is not found is no link that leads nowhere and has a number of at
  most 17 digits.
-/

namespace Pclsync.Downloads

open List Option

/-! ## The function -/

/-- The entries of the file system, by their paths; a link may lead nowhere. -/
structure Directory where
  entries : List (List UInt8)
  leadsNowhere : List UInt8 → Bool

/-- `'.'` -/
def dot : UInt8 := 46

/-- `'/'` -/
def slash : UInt8 := 47

/-- `" (conflicted"` -/
def conflicted : List UInt8 := [32, 40, 99, 111, 110, 102, 108, 105, 99, 116, 101, 100]

/-- `psync_stat` finds what a link leads to. -/
def Directory.stat (d : Directory) (path : List UInt8) : Bool :=
  decide (path ∈ d.entries) && !d.leadsNowhere path

/-- The loop that looks for the last dot. -/
def lastDot (path : List UInt8) : ℕ → ℕ
  | 0 => 0
  | i + 1 => if path[i + 1]? = some dot then i + 1 else lastDot path i

/-- `dotidx` -/
def dotidx (path : List UInt8) : ℕ :=
  if lastDot path path.length = 0 then path.length else lastDot path path.length

/-- `" (conflicted)"`, or with a number. -/
def mark (num : ℕ) : List UInt8 :=
  if num = 0 then conflicted ++ [41] else conflicted ++ [32] ++ decimal num ++ [41]

/-- The name with a mark. -/
def candidate (path : List UInt8) (num : ℕ) : List UInt8 :=
  path.take (dotidx path) ++ mark num ++ path.drop (dotidx path)

/-- The name is written into `npath`, with its terminating zero. -/
def writeCandidate (path : List UInt8) (num : ℕ) : Option (List UInt8) :=
  if (candidate path num).length + 1 ≤ path.length + 32 then some (candidate path num) else none

/-- The loop over the numbers. -/
def tryNumbers (d : Directory) (path : List UInt8) : ℕ → ℕ → Option (List UInt8)
  | 0, _ => none
  | fuel + 1, num =>
    (writeCandidate path num).bind fun npath =>
      if d.stat npath then tryNumbers d path fuel (num + 1) else some npath

/-- `psync_rename_conflicted_file`: the new name, and what `psync_file_rename` returns. -/
def psyncRenameConflictedFile (d : Directory) (rename : List UInt8 → List UInt8 → ℤ)
    (path : List UInt8) : Option (List UInt8 × ℤ) :=
  (tryNumbers d path (d.entries.length + 1) 0).map fun npath => (npath, rename path npath)

/-! ## The extension -/

variable {d : Directory} {path npath dir base ext l : List UInt8} {m n i fuel num : ℕ}

theorem lastDot_le (path : List UInt8) (n : ℕ) : lastDot path n ≤ n := by
  induction n with
  | zero => exact Nat.le_refl 0
  | succ n ih =>
    rw [lastDot]
    split
    · exact Nat.le_refl _
    · exact Nat.le_succ_of_le ih

theorem getElem?_lastDot (h : lastDot path n ≠ 0) : path[lastDot path n]? = some dot := by
  induction n with
  | zero => exact absurd rfl h
  | succ n ih =>
    rw [lastDot] at h ⊢
    split at h
    · next hdot => rwa [if_pos hdot]
    · next hdot =>
      rw [if_neg hdot]
      exact ih h

theorem ne_dot_of_lastDot_lt (hi : lastDot path n < i) (hn : i ≤ n) : path[i]? ≠ some dot := by
  induction n with
  | zero => omega
  | succ n ih =>
    rw [lastDot] at hi
    split at hi
    · omega
    · next hdot =>
      rcases Nat.lt_or_ge n i with hlt | hge
      · obtain rfl : i = n + 1 := by omega
        exact hdot
      · exact ih hi hge

theorem dotidx_le (path : List UInt8) : dotidx path ≤ path.length := by
  rw [dotidx]
  split
  · exact Nat.le_refl _
  · exact lastDot_le _ _

/-- The dot is not the first character, and no dot follows. -/
theorem dotidx_spec (path : List UInt8) : dotidx path = path.length ∧ dot ∉ path.tail ∨
      0 < dotidx path ∧ ∃ e, path.drop (dotidx path) = dot :: e ∧ dot ∉ e := by
  have hnone : ∀ i, lastDot path path.length < i → path[i]? ≠ some dot := by
    intro i hi
    rcases Nat.lt_or_ge path.length i with hlt | hge
    · rw [getElem?_eq_none hlt.le]
      exact fun hc => (by cases hc)
    · exact ne_dot_of_lastDot_lt hi hge
  rw [dotidx]
  split
  · next hzero =>
    refine .inl ⟨rfl, fun hmem => ?_⟩
    obtain ⟨i, hi⟩ := mem_iff_getElem?.1 hmem
    rw [getElem?_tail] at hi
    exact hnone (i + 1) (by omega) hi
  · next hpos =>
    refine .inr ⟨Nat.pos_of_ne_zero hpos, path.drop (lastDot path path.length + 1), ?_, ?_⟩
    · obtain ⟨hlt, heq⟩ := List.getElem?_eq_some_iff.1 (getElem?_lastDot hpos)
      rw [drop_eq_getElem_cons hlt, heq]
    · intro hmem
      obtain ⟨i, hi⟩ := mem_iff_getElem?.1 hmem
      rw [getElem?_drop] at hi
      exact hnone _ (by omega) hi

/-! ## The names that are tried -/

theorem length_mark_le_iff : (mark n).length ≤ 31 ↔ n < 10 ^ 17 := by
  rw [mark]
  split
  · next h =>
    rw [h]
    exact ⟨fun _ => Nat.pow_pos (by omega), fun _ => by decide⟩
  · have hlen : (conflicted ++ [32] ++ decimal n ++ [41]).length = 14 + (decimal n).length := by
      rw [length_append, length_append]
      change 13 + (decimal n).length + 1 = _
      omega
    rw [hlen]
    refine ⟨fun h => ?_, fun h => ?_⟩
    · by_contra hge
      have hlt := lt_length_decimal (Nat.not_lt.1 hge)
      omega
    · have hle := length_decimal_le (by omega) h
      omega

theorem length_candidate (path : List UInt8) (n : ℕ) :
    (candidate path n).length = path.length + (mark n).length := by
  have hle := dotidx_le path
  rw [candidate, length_append, length_append, length_take, length_drop]
  omega

/-- The buffer has room for the marks with few digits. -/
theorem writeCandidate_eq (path : List UInt8) (n : ℕ) :
    writeCandidate path n = if n < 10 ^ 17 then some (candidate path n) else none := by
  have hiff : (candidate path n).length + 1 ≤ path.length + 32 ↔ n < 10 ^ 17 := by
    rw [← length_mark_le_iff, length_candidate]
    omega
  rw [writeCandidate]
  exact if_congr hiff rfl rfl

theorem mark_injective : Function.Injective mark := by
  intro m n h
  have hlen : ∀ k, k ≠ 0 → (mark k).length ≠ (mark 0).length := by
    intro k hk hlen
    have hpos := length_pos_of_ne_nil (decimal_ne_nil k)
    rw [mark, if_neg hk, length_append, length_append] at hlen
    change 13 + (decimal k).length + 1 = 13 at hlen
    omega
  rcases eq_or_ne m 0 with rfl | hm
  · by_contra hn
    exact hlen n (Ne.symm hn) (congrArg length h).symm
  · rcases eq_or_ne n 0 with rfl | hn
    · exact absurd (congrArg length h) (hlen m hm)
    · rw [mark, mark, if_neg hm, if_neg hn] at h
      exact decimal_injective (append_cancel_left (append_cancel_right h))

theorem candidate_injective (path : List UInt8) : Function.Injective (candidate path) := by
  intro m n h
  rw [candidate, candidate, append_assoc, append_assoc] at h
  exact mark_injective (append_cancel_right (append_cancel_left h))

/-- Not all of the first names are taken. -/
theorem exists_free (d : Directory) (path : List UInt8) :
    ∃ n ≤ d.entries.length, d.stat (candidate path n) = false := by
  by_contra hall
  push Not at hall
  have hsub : (range (d.entries.length + 1)).map (candidate path) ⊆ d.entries := by
    intro npath hmem
    obtain ⟨n, hn, rfl⟩ := mem_map.1 hmem
    have hstat := hall n (Nat.le_of_lt_succ (mem_range.1 hn))
    rw [ne_eq, Bool.not_eq_false, Directory.stat, Bool.and_eq_true, decide_eq_true_iff] at hstat
    exact hstat.1
  have hnodup : ((range (d.entries.length + 1)).map (candidate path)).Nodup :=
    Nodup.map (candidate_injective path) nodup_range
  have hlen := (hnodup.subperm hsub).length_le
  rw [length_map, length_range] at hlen
  omega

/-- The loop ends at the first name that is not found. -/
theorem tryNumbers_eq_some (hle : num ≤ n) (hfuel : n < num + fuel) (hn : n < 10 ^ 17)
    (hfound : ∀ m, num ≤ m → m < n → d.stat (candidate path m) = true)
    (hfree : d.stat (candidate path n) = false) :
    tryNumbers d path fuel num = some (candidate path n) := by
  induction fuel generalizing num with
  | zero => omega
  | succ fuel ih =>
    rw [tryNumbers, writeCandidate_eq, if_pos (Nat.lt_of_le_of_lt hle hn), bind_some]
    rcases Nat.lt_or_eq_of_le hle with hlt | rfl
    · rw [if_pos (hfound num (Nat.le_refl _) hlt)]
      exact ih hlt (by omega) fun m hm => hfound m (by omega)
    · rw [hfree, if_neg Bool.false_ne_true]

theorem exists_of_tryNumbers (h : tryNumbers d path fuel num = some npath) :
    ∃ n, num ≤ n ∧ n < 10 ^ 17 ∧ npath = candidate path n ∧ d.stat npath = false ∧
      ∀ m, num ≤ m → m < n → d.stat (candidate path m) = true := by
  induction fuel generalizing num with
  | zero => cases h
  | succ fuel ih =>
    rw [tryNumbers, writeCandidate_eq] at h
    obtain ⟨p, hp, h⟩ := bind_eq_some_iff.1 h
    rw [ite_none_right_eq_some] at hp
    obtain ⟨hnum, hp⟩ := hp
    obtain ⟨⟩ := hp
    split at h
    · next hstat =>
      obtain ⟨n, hle, hn, hpath, hfree, hfound⟩ := ih h
      refine ⟨n, Nat.le_of_succ_le hle, hn, hpath, hfree, fun m hm hlt => ?_⟩
      rcases Nat.lt_or_eq_of_le hm with hm | rfl
      · exact hfound m hm hlt
      · exact hstat
    · next hstat =>
      obtain ⟨⟩ := h
      exact ⟨num, Nat.le_refl _, hnum, rfl, Bool.eq_false_iff.2 hstat, fun m hm hlt => by omega⟩

/-! ## What is asked of a call -/

/-- A base name and an extension; a dot at the beginning of the base name starts none. -/
def IsExtension (base ext : List UInt8) : Prop :=
  (∃ e, ext = dot :: e ∧ dot ∉ e) ∨ (ext = [] ∧ dot ∉ base.tail)

/-- The file is renamed, with a mark between its base name and its extension, to a name in its
    directory that is not taken, and the call returns what the renaming does. -/
def RenamedRight (d : Directory) (rename : List UInt8 → List UInt8 → ℤ) (path : List UInt8) :
    Prop :=
  ∃ dir base ext num, path = dir ++ base ++ ext ∧ (dir = [] ∨ dir.getLast? = some slash) ∧
    slash ∉ base ++ ext ∧ IsExtension base ext ∧ dir ++ base ++ mark num ++ ext ∉ d.entries ∧
    psyncRenameConflictedFile d rename path = some (dir ++ base ++ mark num ++ ext,
      rename path (dir ++ base ++ mark num ++ ext))

theorem exists_dir (l : List UInt8) :
    ∃ dir base, l = dir ++ base ∧ (dir = [] ∨ dir.getLast? = some slash) ∧ slash ∉ base := by
  obtain ⟨dir, base, hsplit, hdir, hbase⟩ := exists_lastWord (· == slash) l
  refine ⟨dir, base, hsplit, ?_, fun hmem => ?_⟩
  · rcases dir.eq_nil_or_concat' with rfl | ⟨p, c, rfl⟩
    · exact .inl rfl
    · have hc := beq_iff_eq.1 (hdir c getLast?_concat)
      exact .inr (hc ▸ getLast?_concat)
  · have hne := hbase slash hmem
    cases hne

theorem getElem?_mark_zero (n : ℕ) : (mark n)[0]? = some 32 := by
  rw [mark]
  split <;> rfl

/-- With the last dot in the directory, the name is one of another directory. -/
theorem slash_not_mem_of_candidate (hpath : path = dir ++ base ++ ext) (hname : slash ∉ base ++ ext)
    (hcandidate : candidate path n = dir ++ base ++ mark num ++ ext) :
    slash ∉ path.drop (dotidx path) := by
  intro hmem
  rw [append_assoc] at hpath
  have hlt : dotidx path < dir.length := by
    by_contra hge
    obtain ⟨j, hj⟩ := Nat.exists_eq_add_of_le (Nat.not_lt.1 hge)
    rw [hj, hpath, drop_length_add_append] at hmem
    exact hname (mem_of_mem_drop hmem)
  have hdot : path[dotidx path]? = some dot := by
    rcases dotidx_spec path with ⟨hend, -⟩ | ⟨-, e, he, -⟩
    · rw [hend, drop_length] at hmem
      cases hmem
    · have hhead := congrArg (fun l => l[0]?) he
      simpa only [getElem?_drop, Nat.add_zero, getElem?_cons_zero] using hhead
  -- the mark stands where the path has the dot
  have hmark : (candidate path n)[dotidx path]? = some 32 := by
    have htake : (path.take (dotidx path)).length = dotidx path :=
      length_take_of_le (dotidx_le path)
    rw [candidate, append_assoc, getElem?_append_right htake.le, htake, Nat.sub_self,
      getElem?_append_left (length_pos_of_ne_nil ?_), getElem?_mark_zero]
    intro hnil
    have hzero := getElem?_mark_zero n
    rw [hnil] at hzero
    cases hzero
  rw [hcandidate, append_assoc, append_assoc, getElem?_append_left hlt] at hmark
  rw [hpath, getElem?_append_left (hpath ▸ hlt)] at hdot
  rw [← hpath, hmark] at hdot
  cases hdot

theorem RenamedRight.slash_not_mem {rename : List UInt8 → List UInt8 → ℤ}
    (h : RenamedRight d rename path) : slash ∉ path.drop (dotidx path) := by
  obtain ⟨dir, base, ext, num, hpath, -, hname, -, -, hcall⟩ := h
  obtain ⟨npath, htry, heq⟩ := map_eq_some_iff.1 hcall
  obtain ⟨n, -, -, hcandidate, -⟩ := exists_of_tryNumbers htry
  have hnpath := (Prod.mk.inj heq).1
  exact slash_not_mem_of_candidate hpath hname (hcandidate.symm.trans hnpath)

/-- A call is right exactly when no slash follows the last dot, and the first name that is not found
    is not taken and fits into the buffer. -/
theorem renamedRight_iff (d : Directory) (rename : List UInt8 → List UInt8 → ℤ)
    (path : List UInt8) :
    RenamedRight d rename path ↔ slash ∉ path.drop (dotidx path) ∧
      ∃ n < 10 ^ 17, (∀ m < n, d.stat (candidate path m) = true) ∧
        candidate path n ∉ d.entries := by
  constructor
  · intro h
    refine ⟨h.slash_not_mem, ?_⟩
    obtain ⟨dir, base, ext, num, -, -, -, -, hfree, hcall⟩ := h
    obtain ⟨npath, htry, heq⟩ := map_eq_some_iff.1 hcall
    obtain ⟨n, -, hn, rfl, -, hfound⟩ := exists_of_tryNumbers htry
    rw [← (Prod.mk.inj heq).1] at hfree
    exact ⟨n, hn, fun m hm => hfound m (Nat.zero_le m) hm, hfree⟩
  · rintro ⟨hslash, n, hn, hfound, hfree⟩
    have hstat : d.stat (candidate path n) = false := by
      rw [Directory.stat, decide_eq_false hfree, Bool.false_and]
    have hfuel : n ≤ d.entries.length := by
      obtain ⟨k, hk, hkfree⟩ := exists_free d path
      by_contra hlt
      have hkfound := hfound k (by omega)
      rw [hkfree] at hkfound
      cases hkfound
    have htry : tryNumbers d path (d.entries.length + 1) 0 = some (candidate path n) :=
      tryNumbers_eq_some (Nat.zero_le n) (by omega) hn (fun m _ => hfound m) hstat
    obtain ⟨dir, base, hsplit, hdir, hbase⟩ := exists_dir (path.take (dotidx path))
    have hcandidate : candidate path n = dir ++ base ++ mark n ++ path.drop (dotidx path) := by
      rw [candidate, hsplit]
    have hpath : path = dir ++ base ++ path.drop (dotidx path) := by
      rw [← hsplit, take_append_drop]
    refine ⟨dir, base, path.drop (dotidx path), n, hpath, hdir, ?_, ?_, ?_, ?_⟩
    · rw [mem_append]
      exact fun h => h.elim hbase hslash
    · rcases dotidx_spec path with ⟨hend, hnone⟩ | ⟨-, hext⟩
      · have hnil : path.drop (dotidx path) = [] := by rw [hend, drop_length]
        refine .inr ⟨hnil, fun hmem => hnone ?_⟩
        rw [hpath, hnil, append_nil]
        cases dir with
        | nil => exact hmem
        | cons c dir => exact mem_append_right dir (mem_of_mem_tail hmem)
      · exact .inl hext
    · rwa [← hcandidate]
    · rw [psyncRenameConflictedFile, htry, ← hcandidate]
      rfl

/-- `/a.b/c` is renamed to a name in the directory `/a (conflicted).b`. -/
theorem renamed_dot_in_directory :
    ¬RenamedRight ⟨[[47, 97, 46, 98, 47, 99]], fun _ => false⟩ (fun _ _ => -1)
      [47, 97, 46, 98, 47, 99] :=
  fun h => h.slash_not_mem (by decide)

end Pclsync.Downloads
