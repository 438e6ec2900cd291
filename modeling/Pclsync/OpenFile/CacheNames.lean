import Mathlib.Tactic.IntervalCases
import Pclsync.Bytes

/-!
# Names of the files of a task in the cache folder

A task that writes a file has a data file, an index and logs in the cache folder. Their names are
made of the task id by `psync_binhex` and a letter; when the program starts, logs are looked for in
the folder, and their names are read back.

* `cacheFileName`: the text is cut where `fileidhex[sizeof(psync_fsfileid_t)]` is set.
* `pauseTaskByName`: `psync_fs_pause_task_by_name`, the task id it pauses.
* `checkFile`: `psync_fs_crypto_check_file`, and the files `psync_fs_crypto_check_log` opens.
* `cacheNames_iff`: when names are different, and when the id is read back.
-/

namespace Pclsync

open Function List

/-! ## Building names -/

/-- The files of a task. -/
inductive CacheFile where
  | data
  | index
  | log
  /-- a log that is finalized -/
  | flog

def CacheFile.letter : CacheFile → UInt8
  | data => 'd'.toUInt8
  | index => 'i'.toUInt8
  | log => 'l'.toUInt8
  | flog => 'f'.toUInt8

def hexDigit (n : ℕ) : UInt8 := UInt8.ofNat (if n < 10 then 48 + n else 87 + n)

/-- An entry of `__hex_lookup`. -/
def hexLookup (b : UInt8) : List UInt8 := [hexDigit (b.toNat / 16), hexDigit (b.toNat % 16)]

/-- `psync_binhex` -/
def binhex (src : List UInt8) : List UInt8 := src.flatMap hexLookup

/-- The text in `fileidhex`, after the 16 digits, the letter and the zero are written to it. -/
def cacheFileName (taskid : UInt64) (file : CacheFile) : List UInt8 :=
  (((binhex (toLE 8 taskid.toNat)).set 8 file.letter).set 9 0).takeWhile (· ≠ 0)

/-! ## Reading names -/

def isxdigit (c : UInt8) : Bool :=
  (48 ≤ c && c ≤ 57) || (97 ≤ c && c ≤ 102) || (65 ≤ c && c ≤ 70)

/-- `conv_xdigit` -/
def convXdigit (dig : UInt8) : UInt32 :=
  if 48 ≤ dig && dig ≤ 57 then dig.toUInt32 - 48
  else if 97 ≤ dig && dig ≤ 102 then dig.toUInt32 - 97 + 10
  else dig.toUInt32 - 65 + 10

/-- The loop; the two digits are read after the pointer is moved. -/
def pauseLoop : List UInt8 → UInt64 → UInt64 → UInt64
  | c :: d :: fn, taskid, mul =>
    if isxdigit c && isxdigit d then
      pauseLoop fn
        (taskid + mul * (convXdigit (fn.getD 0 0) * 16 + convXdigit (fn.getD 1 0)).toUInt64)
        (mul * 256)
    else taskid
  | _, taskid, _ => taskid

/-- `psync_fs_pause_task_by_name`: the id in the `UPDATE`. -/
def pauseTaskByName (fn : List UInt8) : UInt64 := pauseLoop fn 0 1

/-- `psync_fs_crypto_check_file`: the data file and the index that go with a log. -/
def checkFile (name : List UInt8) : Option (List UInt8 × List UInt8) :=
  if name.getLast? = some CacheFile.log.letter ∨ name.getLast? = some CacheFile.flog.letter then
    some (name.dropLast ++ [CacheFile.data.letter], name.dropLast ++ [CacheFile.index.letter])
  else none

/-! ## Digits -/

theorem convXdigit_hexDigit {n : ℕ} (h : n < 16) : convXdigit (hexDigit n) = UInt32.ofNat n := by
  interval_cases n <;> rfl

theorem isxdigit_hexDigit {n : ℕ} (h : n < 16) : isxdigit (hexDigit n) = true := by
  interval_cases n <;> rfl

theorem hexDigit_ne_zero {n : ℕ} (h : n < 16) : hexDigit n ≠ 0 := by
  intro hzero
  have hdigit := isxdigit_hexDigit h
  rw [hzero] at hdigit
  exact absurd hdigit (by decide)

theorem hexDigit_inj {n k : ℕ} (hn : n < 16) (hk : k < 16) (h : hexDigit n = hexDigit k) :
    n = k := by
  have hconv := congrArg (UInt32.toNat ∘ convXdigit) h
  simp only [comp, convXdigit_hexDigit hn, convXdigit_hexDigit hk] at hconv
  rwa [UInt32.toNat_ofNat_of_lt' (by exact hn.trans (by decide)),
    UInt32.toNat_ofNat_of_lt' (by exact hk.trans (by decide))] at hconv

theorem hexLookup_injective : Injective hexLookup := by
  intro a b h
  have ha := a.toNat_lt
  have hb := b.toNat_lt
  obtain ⟨hhigh, hlow⟩ := cons.inj h
  have hdiv := hexDigit_inj (by omega) (by omega) hhigh
  have hmod := hexDigit_inj (Nat.mod_lt _ (by decide)) (Nat.mod_lt _ (by decide))
    (cons.inj hlow).1
  rw [← UInt8.toNat_inj]
  omega

theorem binhex_injective : Injective binhex := by
  intro as bs h
  induction as generalizing bs with
  | nil =>
    cases bs with
    | nil => rfl
    | cons b bs => exact absurd h (by simp [binhex, hexLookup])
  | cons a as ih =>
    cases bs with
    | nil => exact absurd h (by simp [binhex, hexLookup])
    | cons b bs =>
      obtain ⟨hhead, htail⟩ := append_inj h rfl
      rw [hexLookup_injective hhead, ih htail]

/-! ## Names -/

theorem CacheFile.letter_injective : Injective CacheFile.letter := by
  intro s t h
  cases s <;> cases t <;> first | rfl | exact absurd h (by decide)

theorem ne_zero_of_mem_binhex {bs : List UInt8} {c : UInt8} (h : c ∈ binhex bs) : c ≠ 0 := by
  obtain ⟨b, -, hc⟩ := mem_flatMap.1 h
  have hb := b.toNat_lt
  rcases mem_pair.1 hc with rfl | rfl
  · exact hexDigit_ne_zero (by omega)
  · exact hexDigit_ne_zero (Nat.mod_lt _ (by decide))

/-- The low half of the id is in the name. -/
theorem cacheFileName_eq (taskid : UInt64) (file : CacheFile) :
    cacheFileName taskid file = binhex (toLE 4 taskid.toNat) ++ [file.letter] := by
  have hletter : file.letter ≠ 0 := by cases file <;> decide
  have htext : ((binhex (toLE 8 taskid.toNat)).set 8 file.letter).set 9 0 =
      (binhex (toLE 4 taskid.toNat) ++ [file.letter]) ++
        0 :: (binhex (toLE 4 (taskid.toNat / 256 / 256 / 256 / 256))).drop 2 := rfl
  rw [cacheFileName, htext, takeWhile_append_of_pos, takeWhile_cons_of_neg (by decide),
    append_nil]
  intro c hc
  rcases mem_append.1 hc with hdigit | hlast
  · exact decide_eq_true (ne_zero_of_mem_binhex hdigit)
  · exact decide_eq_true (mem_singleton.1 hlast ▸ hletter)

theorem toLE_eq_iff {n x y : ℕ} : toLE n x = toLE n y ↔ x % 256 ^ n = y % 256 ^ n := by
  refine ⟨fun h => ?_, fun h => ?_⟩
  · rw [← ofLE_toLE, h, ofLE_toLE]
  · rw [← toLE_ofLE (length_toLE n x), ofLE_toLE, h, ← ofLE_toLE, toLE_ofLE (length_toLE n y)]

theorem cacheFileName_inj {a b : UInt64} {s t : CacheFile} :
    cacheFileName a s = cacheFileName b t ↔ a.toNat % 2 ^ 32 = b.toNat % 2 ^ 32 ∧ s = t := by
  have hle : toLE 4 a.toNat = toLE 4 b.toNat ↔ a.toNat % 2 ^ 32 = b.toNat % 2 ^ 32 := toLE_eq_iff
  rw [cacheFileName_eq, cacheFileName_eq, append_singleton_inj, binhex_injective.eq_iff, hle,
    CacheFile.letter_injective.eq_iff]

/-! ## Reading back -/

theorem convXdigit_pair (c : UInt8) :
    convXdigit (hexDigit (c.toNat / 16)) * 16 + convXdigit (hexDigit (c.toNat % 16)) =
      c.toUInt32 := by
  have hc := c.toNat_lt
  rw [convXdigit_hexDigit (by omega), convXdigit_hexDigit (Nat.mod_lt _ (by decide)),
    ← UInt32.toNat_inj, UInt32.toNat_add, UInt32.toNat_mul, UInt8.toNat_toUInt32,
    UInt32.toNat_ofNat', UInt32.toNat_ofNat']
  change (_ * 16 % 2 ^ 32 + _) % 2 ^ 32 = _
  omega

theorem isxdigit_pair (b : UInt8) :
    (isxdigit (hexDigit (b.toNat / 16)) && isxdigit (hexDigit (b.toNat % 16))) = true := by
  have hb := b.toNat_lt
  rw [isxdigit_hexDigit (by omega), isxdigit_hexDigit (Nat.mod_lt _ (by decide))]
  rfl

/-- One round: the byte that is added is the one behind the digits that are looked at. -/
theorem pauseLoop_binhex (b c : UInt8) (bs rest : List UInt8) (taskid mul : UInt64) :
    pauseLoop (binhex (b :: c :: bs) ++ rest) taskid mul =
      pauseLoop (binhex (c :: bs) ++ rest) (taskid + mul * c.toUInt64) (mul * 256) := by
  refine (if_pos (isxdigit_pair b)).trans ?_
  change pauseLoop _ (taskid + mul * (convXdigit (hexDigit (c.toNat / 16)) * 16 +
    convXdigit (hexDigit (c.toNat % 16))).toUInt64) _ = _
  rw [convXdigit_pair]
  rfl

/-- What the last round adds: the letter, and the zero behind it. -/
def CacheFile.tail (file : CacheFile) : UInt64 :=
  (convXdigit file.letter * 16 + convXdigit 0).toUInt64

theorem pauseLoop_last (b : UInt8) (file : CacheFile) (taskid mul : UInt64) :
    pauseLoop (binhex [b] ++ [file.letter]) taskid mul = taskid + mul * file.tail :=
  if_pos (isxdigit_pair b)

/-- The lowest byte of the id is lost, and what stands for the letter is above the other three. -/
theorem toNat_pauseTaskByName (taskid : UInt64) (file : CacheFile) :
    (pauseTaskByName (cacheFileName taskid file)).toNat =
      taskid.toNat / 256 % 2 ^ 24 + 2 ^ 24 * file.tail.toNat := by
  have htail : file.tail.toNat < 1024 := by cases file <;> decide
  rw [pauseTaskByName, cacheFileName_eq, toLE, toLE, toLE, toLE, toLE, pauseLoop_binhex,
    pauseLoop_binhex, pauseLoop_binhex, pauseLoop_last]
  simp only [UInt64.toNat_add, UInt64.toNat_mul, UInt8.toNat_toUInt64, UInt8.toNat_ofNat',
    UInt64.reduceToNat, UInt64.reduceMul]
  omega

/-- The one id that is read back from the name of its file. -/
def readBackId : CacheFile → UInt64
  | .data => 0x99999999
  | .index => 0x2E9E9E9E9
  | .log => 0x319191919
  | .flog => 0xB9B9B9B9

theorem pauseTaskByName_eq_iff {taskid : UInt64} {file : CacheFile} :
    pauseTaskByName (cacheFileName taskid file) = taskid ↔ taskid = readBackId file := by
  have hlt := taskid.toNat_lt
  rw [← UInt64.toNat_inj, ← UInt64.toNat_inj, toNat_pauseTaskByName]
  -- The number is a fixed point of shifting a byte out below the tail.
  cases file with
  | data => change _ + 2 ^ 24 * 153 = _ ↔ _ = 0x99999999; omega
  | index => change _ + 2 ^ 24 * 745 = _ ↔ _ = 0x2E9E9E9E9; omega
  | log => change _ + 2 ^ 24 * 793 = _ ↔ _ = 0x319191919; omega
  | flog => change _ + 2 ^ 24 * 185 = _ ↔ _ = 0xB9B9B9B9; omega

/-- Different ids have files of different names. -/
def NamesDiffer (ids : Set UInt64) : Prop :=
  ∀ a ∈ ids, ∀ b ∈ ids, a ≠ b → ∀ s t, cacheFileName a s ≠ cacheFileName b t

/-- The task that is paused because of a file is the task of the file. -/
def PausesOwn (ids : Set UInt64) (file : CacheFile) : Prop :=
  ∀ a ∈ ids, pauseTaskByName (cacheFileName a file) = a

/-- The files that are opened with a log are those of the task of the log. -/
def ChecksOwn (ids : Set UInt64) (file : CacheFile) : Prop :=
  ∀ a ∈ ids, checkFile (cacheFileName a file) = some (cacheFileName a .data, cacheFileName a .index)

theorem namesDiffer_iff {ids : Set UInt64} :
    NamesDiffer ids ↔ ∀ a ∈ ids, ∀ b ∈ ids, a.toNat % 2 ^ 32 = b.toNat % 2 ^ 32 → a = b := by
  refine ⟨fun h a ha b hb heq => ?_, fun h a ha b hb hne s t hname => ?_⟩
  · by_contra hne
    exact h a ha b hb hne .data .data (cacheFileName_inj.2 ⟨heq, rfl⟩)
  · exact hne (h a ha b hb (cacheFileName_inj.1 hname).1)

theorem checkFile_cacheFileName {file : CacheFile} (h : file = .log ∨ file = .flog)
    (taskid : UInt64) :
    checkFile (cacheFileName taskid file) =
      some (cacheFileName taskid .data, cacheFileName taskid .index) := by
  have hlast : (cacheFileName taskid file).getLast? = some file.letter := by
    rw [cacheFileName_eq, getLast?_concat]
  have hkind : (cacheFileName taskid file).getLast? = some CacheFile.log.letter ∨
      (cacheFileName taskid file).getLast? = some CacheFile.flog.letter := by
    rcases h with rfl | rfl
    · exact .inl hlast
    · exact .inr hlast
  rw [checkFile, if_pos hkind, cacheFileName_eq, cacheFileName_eq, cacheFileName_eq,
    dropLast_concat]

/-- For every set of task ids, and both kinds of logs: the names are different if and only if the
    low halves of the ids are; the id of a paused task is the one the name was built from for one
    id alone; and the data file and the index of a log are always those with its digits. -/
theorem cacheNames_iff (ids : Set UInt64) (file : CacheFile) (h : file = .log ∨ file = .flog) :
    (NamesDiffer ids ↔ ∀ a ∈ ids, ∀ b ∈ ids, a.toNat % 2 ^ 32 = b.toNat % 2 ^ 32 → a = b) ∧
      (PausesOwn ids file ↔ ∀ a ∈ ids, a = readBackId file) ∧ ChecksOwn ids file :=
  ⟨namesDiffer_iff, forall₂_congr fun _ _ => pauseTaskByName_eq_iff,
    fun a _ => checkFile_cacheFileName h a⟩

theorem cacheNames_iff_five : ¬PausesOwn {5} .log := by
  intro h
  exact absurd ((cacheNames_iff {5} .log (.inl rfl)).2.1.1 h 5 rfl) (by decide)

/-- The name of the log of task 5 is read as 13304332288, and task 2^32 + 5 has the same name. -/
theorem not_cacheNames : pauseTaskByName (cacheFileName 5 .log) ≠ 5 ∧
      cacheFileName 5 .log = cacheFileName 4294967301 .log := by
  constructor
  · decide
  · decide

end Pclsync
