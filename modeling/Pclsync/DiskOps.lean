import Pclsync.File

/-!
# Replaying the writes of a log

A replay is a list of writes and truncations of a file. When it starts by truncating the file to a
size to which it only truncates again (`DiskOp.Restarts`), the file it leaves does not depend on
the bytes it writes nor on those past that size; in particular it does not depend on any steps of
the replay that were made before (`DiskOp.replay_after`), in whatever number, order and repetition
they reached the disk.

* `DiskOp.apply`, `DiskOp.applyAll`: the file after one step, and after a list of them.
* `File.AgreeOff W`: files that differ only on the positions in `W`.
* `DiskOp.applyAll_eq`: a replay makes files equal that differ only where it writes.
-/

namespace Pclsync

open List

/-- Files of one size that differ at most at the positions in `W`. -/
structure File.AgreeOff (W : ℕ → Prop) (f g : File) : Prop where
  size_eq : f.size = g.size
  byte_eq : ∀ i, ¬ W i → f.byte i = g.byte i

/-- A write or a truncation of a file. -/
inductive DiskOp
  | write (bs : List UInt8) (off : ℕ)
  | truncate (n : ℕ)

namespace DiskOp

variable {op : DiskOp} {ops done : List DiskOp} {f g : File} {n : ℕ}

def apply : DiskOp → File → File
  | write bs off, f => f.pwrite bs off
  | truncate n, f => f.truncate n

/-- The file after the steps, in the order of the list. -/
def applyAll : List DiskOp → File → File
  | [], f => f
  | op :: ops, f => applyAll ops (op.apply f)

/-- The positions at which a step writes. -/
def writes : DiskOp → ℕ → Prop
  | write bs off, i => off ≤ i ∧ i < off + bs.length
  | truncate _, _ => False

/-- Whether a step truncates to `n`, if it truncates. -/
def truncatesTo (n : ℕ) : DiskOp → Prop
  | write _ _ => True
  | truncate m => m = n

/-- The replays that can be repeated: they start by truncating the file, and truncate it to that
    size only, or do nothing at all. -/
def Restarts (ops : List DiskOp) : Prop :=
  ops = [] ∨ ∃ n rest, ops = truncate n :: rest ∧ ∀ op ∈ rest, op.truncatesTo n

@[simp] theorem applyAll_nil : applyAll [] f = f := rfl

@[simp] theorem applyAll_cons : applyAll (op :: ops) f = applyAll ops (op.apply f) := rfl

/-- A step keeps the agreement of two files, and makes them agree where it writes. -/
theorem apply_agreeOff {W : ℕ → Prop} (h : f.AgreeOff W g) :
    (op.apply f).AgreeOff (fun i => W i ∧ ¬ op.writes i) (op.apply g) := by
  cases op with
  | write bs off =>
    refine ⟨by simp only [apply, File.pwrite, h.size_eq], fun i hi => ?_⟩
    simp only [apply, File.byte_pwrite]
    split_ifs with hw
    · rfl
    · exact h.byte_eq i fun hW => hi ⟨hW, hw⟩
  | truncate n =>
    refine ⟨rfl, fun i hi => ?_⟩
    simp only [apply, File.byte_truncate]
    split_ifs
    · exact h.byte_eq i fun hW => hi ⟨hW, id⟩
    · rfl

/-- Replays of one list of steps on files that differ only where the list writes. -/
theorem applyAll_eq (h : f.AgreeOff (fun i => ∃ op ∈ ops, op.writes i) g) :
    applyAll ops f = applyAll ops g := by
  induction ops generalizing f g with
  | nil => exact File.ext h.size_eq (funext fun i => h.byte_eq i (by simp))
  | cons op ops ih =>
    have h' : (op.apply f).AgreeOff _ (op.apply g) := apply_agreeOff h
    refine ih ⟨h'.size_eq, fun i hi => h'.byte_eq i ?_⟩
    rintro ⟨⟨op', hop', hw⟩, hnw⟩
    rcases mem_cons.1 hop' with rfl | hop'
    · exact hnw hw
    · exact hi ⟨op', hop', hw⟩

/-- Below the size to which it is truncated, a step only changes the bytes it writes. -/
theorem byte_apply (hop : op.truncatesTo n) {i : ℕ} (hi : i < n) (hw : ¬ op.writes i) :
    (op.apply f).byte i = f.byte i := by
  cases op with
  | write bs off => exact if_neg hw
  | truncate m =>
    obtain rfl : m = n := hop
    exact if_pos hi

/-- A replay that can be repeated gives the same file after any number of its steps were made. -/
theorem replay_after (hops : Restarts ops) (hdone : ∀ op ∈ done, op ∈ ops) (f : File) :
    applyAll ops (applyAll done f) = applyAll ops f := by
  rcases hops with rfl | ⟨n, rest, rfl, hrest⟩
  · obtain rfl : done = [] := eq_nil_iff_forall_not_mem.2 fun op hop => by
      simpa using hdone op hop
    rfl
  -- What was done changed no byte below `n` other than those that are written again.
  have hbyte : ∀ i < n, (∀ op ∈ rest, ¬ op.writes i) → (applyAll done f).byte i = f.byte i := by
    intro i hi hw
    induction done generalizing f with
    | nil => rfl
    | cons op done ih =>
      rw [applyAll_cons, ih _ fun o ho => hdone o (mem_cons_of_mem _ ho)]
      have hop := hdone op mem_cons_self
      rcases mem_cons.1 hop with rfl | hop
      · exact (if_pos hi : ((truncate n).apply f).byte i = f.byte i)
      · exact byte_apply (hrest op hop) hi (hw op hop)
  rw [applyAll_cons, applyAll_cons]
  refine applyAll_eq ⟨rfl, fun i hi => ?_⟩
  simp only [apply, File.byte_truncate]
  split_ifs with hn
  · exact hbyte i hn fun op hop hw => hi ⟨op, hop, hw⟩
  · rfl

end DiskOp

end Pclsync
