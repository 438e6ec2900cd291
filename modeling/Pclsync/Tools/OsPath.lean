import Mathlib.Data.List.Basic
import Mathlib.Data.List.Induction
import Mathlib.Order.Lattice

/-!
# Cutting a path into its components

`parse_os_path` (`ptools.c`) copies a path into a buffer for one component and stores a copy of the
buffer in a table at each delimiter. The buffer has 255 bytes and the table 50 entries.

* `parseOsPath`: the function; a write behind the buffer or behind the table gives `none`.
* `componentNames`: the pieces between the delimiters, without a last empty one, and under the names
  that they get.
* `parseLoop_eq`: the loop stores these names one after the other.
* `parseOsPath_right_iff`: the table is right exactly for paths that are not empty, with at most 50
  pieces which fit into the buffer.
-/

namespace Pclsync.Tools

open Function List Option

/-! ## The function -/

/-- `folderPath`: the entries of the table from `cnt` on do not mean anything. -/
structure FolderPath where
  cnt : ℕ
  folders : ℕ → List UInt8

/-- The size of `fName`. -/
def fNameSize : ℕ := 255

/-- The number of entries of `folders`. -/
def foldersSize : ℕ := 50

/-- `"Drive "` -/
def drive : List UInt8 := [68, 114, 105, 118, 101, 32]

/-- `':'` -/
def colon : UInt8 := 58

/-- `fName[k]=path[i]` -/
def putChar (fName : List UInt8) (c : UInt8) : Option (List UInt8) :=
  if fName.length < fNameSize then some (fName ++ [c]) else none

/-- `fName[k]=0` -/
def endName (fName : List UInt8) : Option (List UInt8) :=
  if fName.length < fNameSize then some fName else none

/-- The name so far is a drive. -/
def driveName (fName : List UInt8) : Option (List UInt8) :=
  (endName fName).bind fun fName => endName (drive ++ fName)

/-- `folders->folders[j]=psync_strdup(fName)` -/
def storeName (folders : ℕ → List UInt8) (j : ℕ) (fName : List UInt8) : Option (ℕ → List UInt8) :=
  if j < foldersSize then some (update folders j fName) else none

/-- The loop; its end is at the terminating zero. -/
def parseLoop (delim : UInt8) (mode : ℤ) :
    List UInt8 → List UInt8 → ℕ → (ℕ → List UInt8) → Option FolderPath
  | [], fName, j, folders =>
    (endName fName).bind fun fName =>
      if fName = [] then some ⟨j, folders⟩
      else (storeName folders j fName).map fun folders => ⟨j + 1, folders⟩
  | c :: path, fName, j, folders =>
    if c ≠ delim then
      if c = colon ∧ mode = 1 then
        (driveName fName).bind fun fName => parseLoop delim mode path fName j folders
      else (putChar fName c).bind fun fName => parseLoop delim mode path fName j folders
    else
      (endName fName).bind fun fName =>
        (storeName folders j fName).bind fun folders => parseLoop delim mode path [] (j + 1) folders

/-- `parse_os_path`, with the `folderPath` of the caller before. -/
def parseOsPath (path : List UInt8) (folders : FolderPath) (delim : UInt8) (mode : ℤ) :
    Option FolderPath :=
  if path.length < 1 then some folders else parseLoop delim mode path [] 0 folders.folders

/-! ## Pieces and their names -/

variable {delim c : UInt8} {mode : ℤ} {path p pre : List UInt8} {j : ℕ} {names : List (List UInt8)}
  {folders : ℕ → List UInt8} {f : FolderPath}

/-- The pieces of a path, without a last empty one. -/
def pieces (delim : UInt8) (path : List UInt8) : List (List UInt8) :=
  if (path.splitOn delim).getLast? = some [] then (path.splitOn delim).dropLast
  else path.splitOn delim

/-- The name of a piece: in mode 1 a colon is dropped, and what is before it is a drive. -/
def componentName (mode : ℤ) (p : List UInt8) : List UInt8 :=
  if mode = 1 then (replicate (p.count colon) drive).flatten ++ p.filter (· ≠ colon) else p

/-- What is asked of the table. -/
def componentNames (delim : UInt8) (mode : ℤ) (path : List UInt8) : List (List UInt8) :=
  (pieces delim path).map (componentName mode)

theorem splitOn_of_not_mem (hp : delim ∉ p) : p.splitOn delim = [p] :=
  splitOn_eq_singleton hp

theorem pieces_of_not_mem (hp : delim ∉ p) : pieces delim p = if p = [] then [] else [p] := by
  rw [pieces, splitOn_of_not_mem hp]
  rcases eq_or_ne p [] with rfl | hne
  · rfl
  · rw [if_neg hne, if_neg]
    exact fun h => hne (some.inj h)

theorem pieces_append_cons (hp : delim ∉ p) :
    pieces delim (p ++ delim :: path) = p :: pieces delim path := by
  obtain ⟨q, qs, hq⟩ := exists_cons_of_ne_nil (splitOn_ne_nil delim path)
  rw [pieces, pieces, splitOn_append_cons_self_of_not_mem hp, hq, getLast?_cons_cons]
  split
  · rw [dropLast_cons_cons]
  · rfl

/-- A path that begins with some text begins with a piece that does. -/
theorem exists_pieces (path : List UInt8) (hp : delim ∉ p) (hne : p ≠ []) :
    ∃ w ps, pieces delim (p ++ path) = (p ++ w) :: ps := by
  induction path generalizing p with
  | nil =>
    refine ⟨[], [], ?_⟩
    rw [append_nil, pieces_of_not_mem hp, if_neg hne]
  | cons c path ih =>
    rcases eq_or_ne c delim with rfl | hc
    · refine ⟨[], pieces c path, ?_⟩
      rw [append_nil, pieces_append_cons hp]
    · have hp' : delim ∉ p ++ [c] := by
        rw [mem_append, mem_singleton]
        exact fun h => h.elim hp hc.symm
      obtain ⟨w, ps, hw⟩ := ih hp' (append_ne_nil_of_right_ne_nil _ (cons_ne_nil _ _))
      refine ⟨c :: w, ps, ?_⟩
      rw [append_cons, hw, append_assoc]
      rfl

@[simp] theorem componentName_nil : componentName mode [] = [] := by
  rw [componentName, ite_eq_right_iff]
  exact fun _ => rfl

theorem componentName_colon (hmode : mode = 1) :
    componentName mode (p ++ [colon]) = drive ++ componentName mode p := by
  rw [componentName, componentName, if_pos hmode, if_pos hmode, count_append,
    count_singleton_self, Nat.add_comm, replicate_add, flatten_append,
    filter_append, append_assoc]
  simp

theorem componentName_append (hc : ¬(c = colon ∧ mode = 1)) :
    componentName mode (p ++ [c]) = componentName mode p ++ [c] := by
  rcases eq_or_ne mode 1 with hmode | hmode
  · have hne : c ≠ colon := fun h => hc ⟨h, hmode⟩
    rw [componentName, componentName, if_pos hmode, if_pos hmode, count_append,
      count_singleton, filter_append, append_assoc]
    simp [hne]
  · rw [componentName, componentName, if_neg hmode, if_neg hmode]

theorem length_componentName_append (w : List UInt8) :
    (componentName mode p).length ≤ (componentName mode (p ++ w)).length := by
  induction w using reverseRecOn with
  | nil => rw [append_nil]
  | append_singleton w c ih =>
    rw [← append_assoc]
    by_cases hc : c = colon ∧ mode = 1
    · rw [hc.1, componentName_colon hc.2, length_append]
      omega
    · rw [componentName_append hc, length_append]
      omega

theorem componentName_eq_nil_iff : componentName mode p = [] ↔ p = [] := by
  refine ⟨fun h => ?_, fun h => by rw [h, componentName_nil]⟩
  cases p with
  | nil => rfl
  | cons c p =>
    have hlen : (componentName mode [c]).length ≤ (componentName mode ([c] ++ p)).length :=
      length_componentName_append p
    rw [singleton_append, h] at hlen
    by_cases hc : c = colon ∧ mode = 1
    · have hname := componentName_colon (p := []) hc.2
      rw [nil_append] at hname
      rw [hc.1, hname] at hlen
      cases hlen
    · have hname := componentName_append (p := []) hc
      rw [nil_append] at hname
      rw [hname, componentName_nil] at hlen
      cases hlen

/-! ## The loop -/

/-- Names that are stored one after the other. -/
def storeNames : List (List UInt8) → ℕ → (ℕ → List UInt8) → Option FolderPath
  | [], j, folders => some ⟨j, folders⟩
  | name :: names, j, folders =>
    (endName name).bind fun name =>
      (storeName folders j name).bind fun folders => storeNames names (j + 1) folders

theorem storeNames_of_length (hname : fNameSize ≤ p.length) :
    storeNames (p :: names) j folders = none := by
  rw [storeNames, endName, if_neg (Nat.not_lt.2 hname)]
  rfl

theorem storeNames_too_long (hp : delim ∉ p) (hlen : fNameSize ≤ (componentName mode p).length) :
    storeNames (componentNames delim mode (p ++ path)) j folders = none := by
  have hne : p ≠ [] := by
    rintro rfl
    rw [componentName_nil] at hlen
    cases hlen
  obtain ⟨w, ps, hw⟩ := exists_pieces path hp hne
  rw [componentNames, hw, map_cons]
  exact storeNames_of_length (hlen.trans (length_componentName_append w))

/-- The loop, with a part of a piece in the buffer. -/
theorem parseLoop_eq (path : List UInt8) (j : ℕ) (folders : ℕ → List UInt8) (hp : delim ∉ p) :
    parseLoop delim mode path (componentName mode p) j folders =
      storeNames (componentNames delim mode (p ++ path)) j folders := by
  induction path generalizing p j folders with
  | nil =>
    rw [parseLoop, append_nil, componentNames, pieces_of_not_mem hp]
    rcases eq_or_ne p [] with rfl | hne
    · rw [componentName_nil]
      rfl
    · have hname : componentName mode p ≠ [] := fun h => hne (componentName_eq_nil_iff.1 h)
      rw [if_neg hne, map_singleton, storeNames, endName]
      split
      · rw [bind_some, bind_some, if_neg hname]
        cases storeName folders j (componentName mode p) <;> rfl
      · rfl
  | cons c path ih =>
    rw [parseLoop]
    split
    · next hc =>
      have hp' : delim ∉ p ++ [c] := by
        rw [mem_append, mem_singleton]
        exact fun h => h.elim hp (Ne.symm hc)
      rw [append_cons]
      split
      · next hcolon =>
        have hname := componentName_colon (p := p) hcolon.2
        rw [← hcolon.1] at hname
        rw [driveName, endName]
        split
        · rw [bind_some, ← hname, endName]
          split
          · exact ih j folders hp'
          · next hlong => exact (storeNames_too_long hp' (Nat.not_lt.1 hlong)).symm
        · next hlong =>
          refine (storeNames_too_long hp' ((Nat.not_lt.1 hlong).trans ?_)).symm
          exact length_componentName_append _
      · next hcolon =>
        have hname := componentName_append (p := p) hcolon
        rw [putChar]
        split
        · rw [bind_some, ← hname]
          exact ih j folders hp'
        · next hlong =>
          refine (storeNames_too_long hp' ((Nat.not_lt.1 hlong).trans ?_)).symm
          exact length_componentName_append _
    · next hc =>
      obtain rfl : c = delim := not_not.1 hc
      rw [componentNames, pieces_append_cons hp, map_cons, storeNames]
      refine bind_congr fun name _ => bind_congr fun folders' _ => ?_
      have hnext := ih (p := []) (j + 1) folders' not_mem_nil
      rwa [componentName_nil, nil_append] at hnext

/-- For a path that is not empty the count of the caller does not matter. -/
theorem parseOsPath_eq (folders : FolderPath) (hne : path ≠ []) :
    parseOsPath path folders delim mode =
      storeNames (componentNames delim mode path) 0 folders.folders := by
  have hloop := @parseLoop_eq delim mode [] path 0 folders.folders not_mem_nil
  rw [componentName_nil, nil_append] at hloop
  rw [parseOsPath, if_neg (Nat.not_lt.2 (length_pos_of_ne_nil hne)), hloop]

/-! ## What is in the table -/

/-- All names are stored when they fit into the buffer and into the table. -/
theorem storeNames_eq_some (hnames : ∀ name ∈ names, name.length < fNameSize)
    (hsize : j + names.length ≤ foldersSize) :
    ∃ table, storeNames names j folders = some ⟨j + names.length, table⟩ ∧
      (∀ i < j, table i = folders i) ∧
      ∀ i < names.length, names[i]? = some (table (j + i)) := by
  induction names generalizing j folders with
  | nil => exact ⟨folders, rfl, fun _ _ => rfl, fun i h => absurd h (Nat.not_lt_zero i)⟩
  | cons name names ih =>
    have hlen : (name :: names).length = names.length + 1 := rfl
    rw [forall_mem_cons] at hnames
    rw [hlen] at hsize ⊢
    obtain ⟨table, htable, hbelow, hat⟩ :=
      @ih (j + 1) (update folders j name) hnames.2 (by omega)
    refine ⟨table, ?_, fun i hi => ?_, fun i hi => ?_⟩
    · rw [storeNames, endName, if_pos hnames.1, bind_some, storeName, if_pos (by omega),
        bind_some, htable, Nat.add_assoc, Nat.add_comm 1]
    · rw [hbelow i (Nat.lt_succ_of_lt hi), update_of_ne hi.ne]
    · cases i with
      | zero =>
        rw [Nat.add_zero, hbelow j (Nat.lt_succ_self j), update_self]
        rfl
      | succ i =>
        rw [← Nat.add_assoc, Nat.add_right_comm, getElem?_cons_succ]
        exact hat i (Nat.lt_of_succ_lt_succ hi)

theorem fits_of_storeNames (h : storeNames names j folders = some f) :
    (∀ name ∈ names, name.length < fNameSize) ∧ (j + names.length ≤ foldersSize ∨ names = []) := by
  induction names generalizing j folders with
  | nil => exact ⟨forall_mem_nil _, .inr rfl⟩
  | cons name names ih =>
    rw [storeNames] at h
    obtain ⟨name', hname, h⟩ := bind_eq_some_iff.1 h
    obtain ⟨folders', hfolders, h⟩ := bind_eq_some_iff.1 h
    obtain ⟨hnames, hsize⟩ := ih h
    rw [endName, ite_none_right_eq_some] at hname
    rw [storeName, ite_none_right_eq_some] at hfolders
    refine ⟨forall_mem_cons.2 ⟨hname.1, hnames⟩, .inl ?_⟩
    rw [length_cons]
    rcases hsize with hsize | rfl
    · omega
    · exact hfolders.1

/-- The table of a call has the names, and nothing is written outside of it and of the buffer. -/
def TableRight (path : List UInt8) (folders : FolderPath) (delim : UInt8) (mode : ℤ) : Prop :=
  ∃ f, parseOsPath path folders delim mode = some f ∧
    f.cnt = (componentNames delim mode path).length ∧
    ∀ i < f.cnt, (componentNames delim mode path)[i]? = some (f.folders i)

/-- The table is right exactly when the path is not empty, or the caller has set the count, and all
    names fit. -/
theorem parseOsPath_right_iff (path : List UInt8) (folders : FolderPath) (delim : UInt8)
    (mode : ℤ) :
    TableRight path folders delim mode ↔
      (path = [] → folders.cnt = 0) ∧ (componentNames delim mode path).length ≤ foldersSize ∧
        ∀ name ∈ componentNames delim mode path, name.length < fNameSize := by
  rcases eq_or_ne path [] with rfl | hne
  · have hnames : componentNames delim mode [] = [] := by
      rw [componentNames, pieces_of_not_mem not_mem_nil, if_pos rfl, map_nil]
    rw [TableRight, hnames]
    constructor
    · rintro ⟨f, hf, hcnt, -⟩
      obtain ⟨⟩ := hf
      exact ⟨fun _ => hcnt, Nat.zero_le _, forall_mem_nil _⟩
    · rintro ⟨hcnt, -⟩
      refine ⟨folders, rfl, hcnt rfl, fun i h => ?_⟩
      rw [hcnt rfl] at h
      exact absurd h (Nat.not_lt_zero i)
  · rw [TableRight, parseOsPath_eq folders hne]
    constructor
    · rintro ⟨f, hf, -⟩
      obtain ⟨hnames, hsize⟩ := fits_of_storeNames hf
      refine ⟨fun h => absurd h hne, ?_, hnames⟩
      rcases hsize with hsize | hnil
      · rwa [Nat.zero_add] at hsize
      · rw [hnil]
        exact Nat.zero_le _
    · rintro ⟨-, hsize, hnames⟩
      obtain ⟨table, htable, -, hat⟩ :=
        @storeNames_eq_some 0 _ folders.folders hnames (by rwa [Nat.zero_add])
      refine ⟨_, htable, Nat.zero_add _, fun i hi => ?_⟩
      rw [Nat.zero_add] at hi
      have hi' := hat i hi
      rwa [Nat.zero_add] at hi'

/-- For an empty path the count of the caller stays. -/
theorem parseOsPath_empty : ¬TableRight [] ⟨1, fun _ => []⟩ 59 0 := by
  rintro ⟨f, hf, hcnt, -⟩
  obtain ⟨⟩ := hf
  cases hcnt

example : componentNames 92 1 [67, 58, 92, 97, 92, 92, 98, 92] =
    [drive ++ [67], [97], [], [98]] := by decide

end Pclsync.Tools
