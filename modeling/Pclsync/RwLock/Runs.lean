import Mathlib.Algebra.Order.BigOperators.Group.Finset
import Pclsync.Counting
import Pclsync.RwLock.Lock

/-!
# Runs of the lock

How a thread holds the lock is a `Hold`; its two counters are the code of one (`Thread.Ok`). Each
step replaces one thread, and changes the shared counters by what this thread adds to them
(`State.Moved`), so that they remain sums over the threads (`State.Inv`).

* `State.runs_exclusive`: as long as no recursion reaches the mark of the reservation, readers and
  writers exclude each other, the counters are right, and one thread owns the reservation; no
  assertion fails when the users are well-bracketed and the owner of the reservation does not take
  it again.
* `State.nested_rslock_aborts`: the owner takes it again.
* `State.progress_of_reachable`: the lock alone never makes a deadlock.
-/

namespace Pclsync.RwLock

open Option

theorem wrReserved_eq : wrReserved = 4294967295 := rfl

theorem wrReserved_pos : 0 < wrReserved := Nat.zero_lt_succ _

theorem one_lt_wrReserved : 1 < wrReserved := Nat.succ_lt_succ (Nat.zero_lt_succ _)

theorem incr_eq {k : ℕ} (h : k < wrReserved) : incr k = k + 1 :=
  Nat.mod_eq_of_lt (by rw [wrReserved_eq] at h; rw [halfptrSize]; omega)

/-- How a thread holds the lock, and how often. -/
inductive Hold
  | free
  | read (k : ℕ)
  | reserved (k : ℕ)
  | write (k : ℕ)

namespace Hold

/-- The counters of the thread. -/
def cnt : Hold → Cnt
  | free => ⟨0, 0⟩
  | read k => ⟨k + 1, 0⟩
  | reserved k => ⟨k + 1, wrReserved⟩
  | write k => ⟨0, k + 1⟩

def count : Hold → ℕ
  | free => 0
  | read k | reserved k | write k => k + 1

/-- The recursion is not too deep for the counters. -/
def Fits : Hold → Prop
  | free => True
  | read k | reserved k => k < wrReserved
  | write k => k + 1 < wrReserved

/-- The loops in which the thread may be. -/
def Waits : Hold → Option Wait → Prop
  | free, w => w ≠ some .towrlock
  | read k, w | reserved k, w => w = none ∨ w = some .towrlock ∧ k + 1 < wrReserved
  | write _, w => w = none

end Hold

/-! ## Threads -/

/-- How often a thread holds the lock, as far as its counters say. -/
def Cnt.count (c : Cnt) : ℕ := if c.rd ≠ 0 then c.rd else c.wr

theorem Hold.count_cnt (h : Hold) : h.cnt.count = h.count := by
  cases h <;> simp [Hold.cnt, Hold.count, Cnt.count]

namespace Thread

variable (t : Thread)

/-- The thread holds the lock for reading. While it waits to become a writer, it does not. -/
def Reads : Prop := t.cnt.rd ≠ 0 ∧ t.waiting ≠ some .towrlock

/-- The thread holds the lock for writing. -/
def Writes : Prop := t.cnt.rd = 0 ∧ t.cnt.wr ≠ 0

/-- The thread owns the reservation. -/
def Owns : Prop := t.cnt.wr = wrReserved ∨ t.waiting = some .towrlock

/-- The thread is counted in `rwait`. -/
def RWaits : Prop := ∃ w ∈ t.waiting, w.reads = true

/-- The thread is counted in `wwait`. -/
def WWaits : Prop := ∃ w ∈ t.waiting, w.reads = false

instance : Decidable t.Reads := inferInstanceAs (Decidable (_ ∧ _))
instance : Decidable t.Writes := inferInstanceAs (Decidable (_ ∧ _))
instance : Decidable t.Owns := inferInstanceAs (Decidable (_ ∨ _))
instance : Decidable t.RWaits := inferInstanceAs (Decidable (∃ w ∈ t.waiting, w.reads = true))
instance : Decidable t.WWaits := inferInstanceAs (Decidable (∃ w ∈ t.waiting, w.reads = false))

/-- The thread with the counters of a hold. -/
def OfHold (h : Hold) : Prop :=
  t.cnt = h.cnt ∧ t.held = h.count ∧ h.Fits ∧ h.Waits t.waiting

/-- The counters are those of a hold. -/
def Ok : Prop := ∃ h, t.OfHold h

end Thread

/-- What one thread adds to a counter. -/
def share (p : Prop) [Decidable p] : ℕ := if p then 1 else 0

theorem share_pos {p : Prop} [Decidable p] (h : p) : share p = 1 := if_pos h

theorem share_neg {p : Prop} [Decidable p] (h : ¬ p) : share p = 0 := if_neg h

theorem not_of_share {p : Prop} [Decidable p] (h : share p = 0) : ¬ p := by
  intro hp
  rw [share_pos hp] at h
  cases h

namespace Hold

/-- The lock is taken once more. -/
def again : Hold → Hold
  | free => free
  | read k => read (k + 1)
  | reserved k => reserved (k + 1)
  | write k => write (k + 1)

/-- What a thread which holds the lock so adds to `rcount`, unless it waits to become a writer. -/
def reads : Hold → ℕ
  | free | write _ => 0
  | read _ | reserved _ => 1

/-- What it adds to `wcount`. -/
def writes : Hold → ℕ
  | free | read _ | reserved _ => 0
  | write _ => 1

/-- Whether it owns the reservation. -/
def owns : Hold → ℕ
  | free | read _ | write _ => 0
  | reserved _ => 1

end Hold

namespace Thread

variable {t : Thread} {h : Hold}

/-- A thread which is not becoming a writer. -/
theorem OfHold.shares (ht : t.OfHold h) (hw : t.waiting ≠ some .towrlock) :
    share t.Reads = h.reads ∧ share t.Writes = h.writes ∧ share t.Owns = h.owns := by
  obtain ⟨hcnt, -, hfits, -⟩ := ht
  have hR := wrReserved_pos.ne'
  cases h with
  | free => simp [share, Reads, Writes, Owns, hcnt, Hold.cnt, Hold.reads, Hold.writes, Hold.owns,
      hw, hR.symm]
  | read k => simp [share, Reads, Writes, Owns, hcnt, Hold.cnt, Hold.reads, Hold.writes, Hold.owns,
      hw, hR.symm]
  | reserved k => simp [share, Reads, Writes, Owns, hcnt, Hold.cnt, Hold.reads, Hold.writes,
      Hold.owns, hw]
  | write k =>
    have hk : k + 1 ≠ wrReserved := Nat.ne_of_lt hfits
    simp [share, Reads, Writes, Owns, hcnt, Hold.cnt, Hold.reads, Hold.writes, Hold.owns, hw, hk]

theorem OfHold.shares_towrlock (ht : t.OfHold h) (hw : t.waiting = some .towrlock) :
    share t.Reads = 0 ∧ share t.Writes = 0 ∧ share t.Owns = 1 := by
  obtain ⟨hcnt, -, -, hwaits⟩ := ht
  refine ⟨share_neg fun hc => hc.2 hw, share_neg ?_, share_pos (.inr hw)⟩
  rintro ⟨hrd, hwr⟩
  rw [hcnt] at hrd hwr
  cases h with
  | free => exact hwaits hw
  | read k | reserved k => cases hrd
  | write k =>
    rw [Hold.Waits, hw] at hwaits
    cases hwaits

end Thread

/-! ## The invariant -/

namespace State

variable {ι : Type*} [Fintype ι] {S S' T : State ι} {i j : ι} {t t' : Thread} {w : Wait}

/-- The shared counters are sums over the threads. -/
structure Inv (S : State ι) : Prop where
  ok : ∀ i, (S.thread i).Ok
  rcount : S.rcount = ∑ i, share (S.thread i).Reads
  wcount : S.wcount = ∑ i, share (S.thread i).Writes
  reserved : share (S.reserved = true) = ∑ i, share (S.thread i).Owns
  rwait : S.rwait = ∑ i, share (S.thread i).RWaits
  wwait : S.wwait = ∑ i, share (S.thread i).WWaits
  exclusive : S.wcount = 0 ∨ S.rcount = 0
  one : S.wcount + share (S.reserved = true) ≤ 1

theorem inv_start : (start : State ι).Inv where
  ok _ := ⟨.free, rfl, rfl, trivial, fun h => by cases h⟩
  rcount := (Finset.sum_eq_zero fun _ _ => share_neg fun h => h.1 rfl).symm
  wcount := (Finset.sum_eq_zero fun _ _ => share_neg fun h => h.2 rfl).symm
  reserved := by
    refine (share_neg Bool.false_ne_true).trans (Finset.sum_eq_zero fun _ _ => share_neg ?_).symm
    rintro (h | h) <;> cases h
  rwait := (Finset.sum_eq_zero fun _ _ => share_neg (by rintro ⟨w, h, -⟩; cases h)).symm
  wwait := (Finset.sum_eq_zero fun _ _ => share_neg (by rintro ⟨w, h, -⟩; cases h)).symm
  exclusive := .inl rfl
  one := (Nat.zero_add _).trans_le ((share_neg Bool.false_ne_true).trans_le (Nat.zero_le 1))

theorem share_le_sum (p : Thread → Prop) [∀ t, Decidable (p t)] (i : ι) (h : p (S.thread i)) :
    1 ≤ ∑ j, share (p (S.thread j)) :=
  (share_pos h).symm.trans_le
    (Finset.single_le_sum (f := fun j => share (p (S.thread j))) (fun _ _ => Nat.zero_le _)
      (Finset.mem_univ i))

variable [DecidableEq ι]

/-- One thread is replaced, and the counters change by what it adds to them. -/
structure Moved (S S' : State ι) (i : ι) (t' : Thread) : Prop where
  thread : S'.thread = Function.update S.thread i t'
  ok : t'.Ok
  rcount : S'.rcount + share (S.thread i).Reads = S.rcount + share t'.Reads
  wcount : S'.wcount + share (S.thread i).Writes = S.wcount + share t'.Writes
  reserved : share (S'.reserved = true) + share (S.thread i).Owns =
    share (S.reserved = true) + share t'.Owns
  rwait : S'.rwait + share (S.thread i).RWaits = S.rwait + share t'.RWaits
  wwait : S'.wwait + share (S.thread i).WWaits = S.wwait + share t'.WWaits
  exclusive : S'.wcount = 0 ∨ S'.rcount = 0
  one : S'.wcount + share (S'.reserved = true) ≤ 1
  aborted : S'.aborted = S.aborted

theorem Inv.moved (h : S.Inv) (hm : S.Moved S' i t') : S'.Inv := by
  have hsum : ∀ (p : Thread → Prop) [∀ t, Decidable (p t)],
      ∑ j, share (p (S'.thread j)) + share (p (S.thread i)) =
        ∑ j, share (p (S.thread j)) + share (p t') := by
    intro p _
    rw [hm.thread]
    exact sum_comp_update S.thread i t' fun t => share (p t)
  refine ⟨fun j => ?_, ?_, ?_, ?_, ?_, ?_, hm.exclusive, hm.one⟩
  · rw [hm.thread]
    by_cases hj : j = i
    · rw [hj, Function.update_self]
      exact hm.ok
    · rw [Function.update_of_ne hj]
      exact h.ok j
  · have hr := hsum Thread.Reads
    have hm' := hm.rcount
    have h' := h.rcount
    omega
  · have hr := hsum Thread.Writes
    have hm' := hm.wcount
    have h' := h.wcount
    omega
  · have hr := hsum Thread.Owns
    have hm' := hm.reserved
    have h' := h.reserved
    omega
  · have hr := hsum Thread.RWaits
    have hm' := hm.rwait
    have h' := h.rwait
    omega
  · have hr := hsum Thread.WWaits
    have hm' := hm.wwait
    have h' := h.wwait
    omega

theorem two_le_sum (p : Thread → Prop) [∀ t, Decidable (p t)] (hij : i ≠ j) (hi : p (S.thread i))
    (hj : p (S.thread j)) : 2 ≤ ∑ j, share (p (S.thread j)) := by
  have hpair : ∑ k ∈ {i, j}, share (p (S.thread k)) = 2 := by
    rw [Finset.sum_pair hij, share_pos hi, share_pos hj]
  rw [← hpair]
  exact Finset.sum_le_sum_of_subset (Finset.subset_univ _)

/-! ## Steps -/

/-- `T` is `S` where the thread is not counted among those who wait. -/
structure Left (S T : State ι) (i : ι) : Prop where
  rcount : T.rcount = S.rcount
  wcount : T.wcount = S.wcount
  reserved : T.reserved = S.reserved
  thread : T.thread = S.thread
  aborted : T.aborted = S.aborted
  rwait : T.rwait + share (S.thread i).RWaits = S.rwait
  wwait : T.wwait + share (S.thread i).WWaits = S.wwait

omit [Fintype ι] [DecidableEq ι] in
theorem left_refl (hw : (S.thread i).waiting = none) : S.Left S i where
  rcount := rfl
  wcount := rfl
  reserved := rfl
  thread := rfl
  aborted := rfl
  rwait := congrArg (S.rwait + ·) (share_neg (by rintro ⟨w, h, -⟩; rw [hw] at h; cases h))
  wwait := congrArg (S.wwait + ·) (share_neg (by rintro ⟨w, h, -⟩; rw [hw] at h; cases h))

omit [DecidableEq ι] in
theorem Inv.left_leaveWait (h : S.Inv) (hw : (S.thread i).waiting = some w) :
    S.Left (S.leaveWait w) i := by
  have hr : (S.thread i).RWaits ↔ w.reads = true := by simp [Thread.RWaits, hw]
  have hww : (S.thread i).WWaits ↔ w.reads = false := by simp [Thread.WWaits, hw]
  cases hreads : w.reads with
  | true =>
    have hpos := h.rwait ▸ share_le_sum Thread.RWaits i (hr.2 hreads)
    have hno : ¬ (S.thread i).WWaits := fun hc => by
      rw [hww, hreads] at hc
      cases hc
    refine ⟨rfl, rfl, rfl, rfl, rfl, ?_, ?_⟩
    · rw [share_pos (hr.2 hreads), leaveWait, hreads]
      exact Nat.sub_add_cancel hpos
    · rw [share_neg hno, leaveWait, hreads]
      rfl
  | false =>
    have hpos := h.wwait ▸ share_le_sum Thread.WWaits i (hww.2 hreads)
    have hno : ¬ (S.thread i).RWaits := fun hc => by
      rw [hr, hreads] at hc
      cases hc
    refine ⟨rfl, rfl, rfl, rfl, rfl, ?_, ?_⟩
    · rw [share_neg hno, leaveWait, hreads]
      rfl
    · rw [share_pos (hww.2 hreads), leaveWait, hreads]
      exact Nat.sub_add_cancel hpos

omit [Fintype ι] in
/-- A thread which was not waiting, or is not any more, changes the lock. -/
theorem Left.moved (hl : S.Left T i) {r x : ℕ} {b : Bool} {h : Hold} (ht : t.OfHold h)
    (hw : t.waiting = none) (hr : r + share (S.thread i).Reads = S.rcount + h.reads)
    (hx : x + share (S.thread i).Writes = S.wcount + h.writes)
    (hb : share (b = true) + share (S.thread i).Owns = share (S.reserved = true) + h.owns)
    (hex : x = 0 ∨ r = 0) (hone : x + share (b = true) ≤ 1) :
    S.Moved ({ T with rcount := r, wcount := x, reserved := b }.setThread i t) i t := by
  obtain ⟨hreads, hwrites, howns⟩ := ht.shares (by rw [hw]; simp)
  have hrw : ¬ t.RWaits := by
    rintro ⟨w, hc, -⟩
    rw [hw] at hc
    cases hc
  have hww : ¬ t.WWaits := by
    rintro ⟨w, hc, -⟩
    rw [hw] at hc
    cases hc
  refine ⟨by rw [← hl.thread]; rfl, ⟨h, ht⟩, hreads ▸ hr, hwrites ▸ hx, howns ▸ hb,
    ?_, ?_, hex, hone, hl.aborted⟩
  · rw [share_neg hrw]
    exact hl.rwait
  · rw [share_neg hww]
    exact hl.wwait

/-- A thread which does not hold the lock gets it. -/
theorem Left.acquire (hl : S.Left T i) (h : S.Inv) (ht : (S.thread i).OfHold .free)
    (hw : w ≠ .towrlock) (hb : ¬ S.Blocked w) : ∃ t, S.Moved (T.acquire i w) i t := by
  obtain ⟨hr, hx, ho⟩ := ht.shares ht.2.2.2
  have hheld : (T.thread i).held + 1 = 1 := by
    rw [hl.thread, ht.2.1]
    rfl
  have hw0 : S.wcount = 0 := by
    by_contra hc
    cases w <;> first | exact hb hc | exact hb (.inl hc) | exact hb (.inr (.inl hc)) | exact hw rfl
  have hread : ∃ t, S.Moved ({ T with rcount := T.rcount + 1 }.setThread i
      ⟨⟨1, 0⟩, none, (T.thread i).held + 1⟩) i t :=
    ⟨_, hl.moved (h := .read 0) ⟨rfl, hheld, wrReserved_pos, .inl rfl⟩ rfl
      (by rw [hr, hl.rcount]; rfl) (by rw [hx, hl.wcount]; rfl) (by rw [ho, hl.reserved]; rfl)
      (.inl (hl.wcount.trans hw0)) (by rw [hl.wcount, hl.reserved]; exact h.one)⟩
  have hwrite : S.rcount = 0 → S.reserved = false → ∃ t, S.Moved
      ({ T with wcount := T.wcount + 1 }.setThread i ⟨⟨0, 1⟩, none, (T.thread i).held + 1⟩) i t :=
    fun hr0 hres =>
    ⟨_, hl.moved (h := .write 0) ⟨rfl, hheld, one_lt_wrReserved, rfl⟩ rfl
      (by rw [hr, hl.rcount]; rfl) (by rw [hx, hl.wcount]; rfl) (by rw [ho, hl.reserved]; rfl)
      (.inr (hl.rcount.trans hr0)) (by rw [hl.wcount, hl.reserved, hw0, hres]; decide)⟩
  have hwr : ∀ c : Prop, ¬ (S.rcount ≠ 0 ∨ S.wcount ≠ 0 ∨ S.reserved = true) →
      S.rcount = 0 ∧ S.reserved = false := fun _ hb =>
    ⟨not_not.1 fun hc => hb (.inl hc), by simpa using fun hc => hb (.inr (.inr hc))⟩
  cases w with
  | rdlock | timedrdlock | rdlockStarvewr => exact hread
  | wrlock | timedwrlock => exact hwrite (hwr True hb).1 (hwr True hb).2
  | rslock =>
    have hres : S.reserved = false := by simpa using fun hc => hb (.inr hc)
    exact ⟨_, hl.moved (h := .reserved 0) ⟨rfl, hheld, wrReserved_pos, .inl rfl⟩ rfl
      (by rw [hr, hl.rcount]; rfl) (by rw [hx, hl.wcount]; rfl) (by rw [ho, hres]; rfl)
      (.inl (hl.wcount.trans hw0)) (by rw [hl.wcount, hw0]; decide)⟩
  | towrlock => exact absurd rfl hw

omit [Fintype ι] in
theorem moved_enterWait (hnone : (S.thread i).waiting = none) {r : ℕ} {b : Bool} {h : Hold}
    (ht : (Thread.mk (S.thread i).cnt (some w) (S.thread i).held).OfHold h)
    (hr : r + share (S.thread i).Reads =
      S.rcount + share (Thread.mk (S.thread i).cnt (some w) (S.thread i).held).Reads)
    (hb : share (b = true) + share (S.thread i).Owns = share (S.reserved = true) +
      share (Thread.mk (S.thread i).cnt (some w) (S.thread i).held).Owns)
    (hex : S.wcount = 0 ∨ r = 0) (hone : S.wcount + share (b = true) ≤ 1) :
    S.Moved ({ S with reserved := b, rcount := r }.enterWait i w) i
      ⟨(S.thread i).cnt, some w, (S.thread i).held⟩ := by
  have hrw : ¬ (S.thread i).RWaits := by
    rintro ⟨w, hc, -⟩
    rw [hnone] at hc
    cases hc
  have hww : ¬ (S.thread i).WWaits := by
    rintro ⟨w, hc, -⟩
    rw [hnone] at hc
    cases hc
  refine ⟨rfl, ⟨h, ht⟩, hr, rfl, hb, ?_, ?_, hex, hone, rfl⟩
  · rw [share_neg hrw, enterWait]
    cases hw : w.reads with
    | true => exact congrArg (S.rwait + ·) (share_pos ⟨w, rfl, hw⟩).symm
    | false =>
      refine congrArg (S.rwait + ·) (share_neg ?_).symm
      rintro ⟨w', hc, hw'⟩
      cases hc
      rw [hw] at hw'
      cases hw'
  · rw [share_neg hww, enterWait]
    cases hw : w.reads with
    | false => exact congrArg (S.wwait + ·) (share_pos ⟨w, rfl, hw⟩).symm
    | true =>
      refine congrArg (S.wwait + ·) (share_neg ?_).symm
      rintro ⟨w', hc, hw'⟩
      cases hc
      rw [hw] at hw'
      cases hw'

/-- A step which keeps the invariant, and in which no assertion fails. -/
def Fine (S S' : State ι) : Prop := S'.Inv ∧ S'.aborted = S.aborted

theorem Moved.fine (hm : S.Moved S' i t) (h : S.Inv) : S.Fine S' := ⟨h.moved hm, hm.aborted⟩

omit [DecidableEq ι] in
theorem Inv.fine_refl (h : S.Inv) : S.Fine S := ⟨h, rfl⟩

omit [DecidableEq ι] in
theorem Inv.abort (h : S.Inv) : S.abort.Inv :=
  ⟨h.ok, h.rcount, h.wcount, h.reserved, h.rwait, h.wwait, h.exclusive, h.one⟩

theorem Inv.enterWait (h : S.Inv) (ht : (S.thread i).OfHold .free)
    (hnone : (S.thread i).waiting = none) (hw : w ≠ .towrlock) : S.Fine (S.enterWait i w) := by
  have hw' : some w ≠ some .towrlock := fun hc => hw (some_inj.1 hc)
  have ht' : (Thread.mk (S.thread i).cnt (some w) (S.thread i).held).OfHold .free :=
    ⟨ht.1, ht.2.1, trivial, hw'⟩
  obtain ⟨hr, -, ho⟩ := ht.shares ht.2.2.2
  obtain ⟨hr', -, ho'⟩ := ht'.shares hw'
  exact (moved_enterWait hnone ht' (by rw [hr, hr']) (by rw [ho, ho']) h.exclusive h.one).fine h

/-- The loops of those which do not hold the lock. -/
theorem Inv.await (h : S.Inv) (ht : (S.thread i).OfHold .free)
    (hnone : (S.thread i).waiting = none) (hw : w ≠ .towrlock) : S.Fine (S.await i w) := by
  rw [State.await]
  by_cases hb : S.Blocked w
  · rw [if_pos hb]
    exact h.enterWait ht hnone hw
  · rw [if_neg hb]
    obtain ⟨t, hm⟩ := (left_refl hnone).acquire h ht hw hb
    exact hm.fine h

theorem Inv.tryAcquire (h : S.Inv) (ht : (S.thread i).OfHold .free)
    (hnone : (S.thread i).waiting = none) (hw : w ≠ .towrlock) : S.Fine (S.tryAcquire i w) := by
  rw [State.tryAcquire]
  by_cases hb : S.Blocked w
  · rw [if_pos hb]
    exact h.fine_refl
  · rw [if_neg hb]
    obtain ⟨t, hm⟩ := (left_refl hnone).acquire h ht hw hb
    exact hm.fine h

/-- The thread holds the lock in the same way as before, more or less often. -/
theorem Inv.rehold (h : S.Inv) {k k' : Hold} (ht : (S.thread i).OfHold k)
    (hnone : (S.thread i).waiting = none) (ht' : t.OfHold k') (hw : t.waiting = none)
    (hr : k'.reads = k.reads) (hx : k'.writes = k.writes) (ho : k'.owns = k.owns) :
    S.Fine (S.setThread i t) := by
  obtain ⟨hreads, hwrites, howns⟩ := ht.shares (by rw [hnone]; simp)
  exact ((left_refl hnone).moved ht' hw (by rw [hreads, hr]) (by rw [hwrites, hx])
    (by rw [howns, ho]) h.exclusive h.one).fine h

theorem Inv.again (h : S.Inv) {k : Hold} (ht : (S.thread i).OfHold k)
    (hnone : (S.thread i).waiting = none) (hk : k ≠ .free) (hfits : k.again.Fits) :
    S.Fine (S.setThread i
      { S.thread i with cnt := k.again.cnt, held := (S.thread i).held + 1 }) := by
  refine @Inv.rehold _ _ _ _ _ _ h k k.again ht hnone ⟨rfl, ?_, hfits, ?_⟩ hnone ?_ ?_ ?_
  · rw [ht.2.1]
    cases k <;> first | rfl | exact absurd rfl hk
  · rw [hnone]
    cases k with
    | free => exact absurd rfl hk
    | read k | reserved k => exact .inl rfl
    | write k => rfl
  all_goals cases k <;> rfl

/-! ## Calls -/

/-- The thread can take the lock once more: its counter does not reach the mark. -/
def CanRecurse (S : State ι) (i : ι) : Prop :=
  (S.thread i).cnt.rd < wrReserved ∧
    ((S.thread i).cnt.rd = 0 → (S.thread i).cnt.wr + 1 < wrReserved)

omit [Fintype ι] [DecidableEq ι] in
theorem fits_again {k : Hold} (ht : (S.thread i).OfHold k) (hd : S.CanRecurse i) :
    k.again.Fits := by
  obtain ⟨hrd, hwr⟩ := hd
  rw [ht.1] at hrd hwr
  cases k with
  | free => trivial
  | read k | reserved k => exact hrd
  | write k => exact hwr rfl

theorem Inv.lockIn_rd (h : S.Inv) (hnone : (S.thread i).waiting = none) (hd : S.CanRecurse i)
    {first : State ι} (hfirst : (S.thread i).OfHold .free → S.Fine first) :
    S.Fine (S.lockIn i first (checkRdrecursiveIn (S.thread i).cnt)) := by
  obtain ⟨k, ht⟩ := h.ok i
  have hfits := fits_again ht hd
  have hagain : k ≠ .free → checkRdrecursiveIn (S.thread i).cnt = .recursive k.again.cnt := by
    intro hk
    rw [ht.1]
    have hf := ht.2.2.1
    cases k with
    | free => exact absurd rfl hk
    | read k =>
      rw [checkRdrecursiveIn, Hold.cnt, if_pos (Nat.succ_ne_zero k), incr_eq hfits]
      rfl
    | reserved k =>
      rw [checkRdrecursiveIn, Hold.cnt, if_pos (Nat.succ_ne_zero k), incr_eq hfits]
      rfl
    | write k =>
      rw [checkRdrecursiveIn, Hold.cnt, if_neg (not_not.2 rfl), if_pos (Nat.succ_ne_zero k),
        if_neg (Nat.ne_of_lt hf), incr_eq hf]
      rfl
  by_cases hk : k = .free
  · subst hk
    rw [ht.1]
    exact hfirst ht
  · rw [hagain hk]
    exact h.again ht hnone hk hfits

/-- A thread which reads does not ask for the lock for writing. -/
theorem Inv.lockIn_wr (h : S.Inv) (hnone : (S.thread i).waiting = none) (hd : S.CanRecurse i)
    {first : State ι} (hfirst : (S.thread i).OfHold .free → S.Fine first) :
    (S.lockIn i first (checkWrrecursiveIn (S.thread i).cnt)).Inv ∧
      ((S.thread i).cnt.rd = 0 → (S.lockIn i first
        (checkWrrecursiveIn (S.thread i).cnt)).aborted = S.aborted) := by
  obtain ⟨k, ht⟩ := h.ok i
  have hfits := fits_again ht hd
  have hf := ht.2.2.1
  rw [ht.1]
  cases k with
  | free => exact ⟨(hfirst ht).1, fun _ => (hfirst ht).2⟩
  | read k | reserved k => exact ⟨h.abort, fun hc => by cases hc⟩
  | write k =>
    have hagain : checkWrrecursiveIn (Hold.write k).cnt = .recursive (Hold.write k).again.cnt := by
      rw [checkWrrecursiveIn, Hold.cnt, if_neg (not_not.2 rfl), if_pos (Nat.succ_ne_zero k),
        if_neg (Nat.ne_of_lt hf), incr_eq hf]
      rfl
    rw [hagain]
    have hfine := h.again ht hnone (fun hc => by cases hc) hfits
    exact ⟨hfine.1, fun _ => hfine.2⟩

/-- A thread which reads does not ask for the reservation, also when it owns it. -/
theorem Inv.rslock (h : S.Inv) (hnone : (S.thread i).waiting = none) (hd : S.CanRecurse i) :
    (S.rslock i).Inv ∧ ((S.thread i).cnt.rd = 0 → (S.rslock i).aborted = S.aborted) := by
  obtain ⟨k, ht⟩ := h.ok i
  have hfits := fits_again ht hd
  have hf := ht.2.2.1
  rw [State.rslock, ht.1]
  cases k with
  | free =>
    have hfine := h.await ht hnone (w := .rslock) (fun hc => by cases hc)
    exact ⟨hfine.1, fun _ => hfine.2⟩
  | read k | reserved k => exact ⟨h.abort, fun hc => by cases hc⟩
  | write k =>
    rw [Hold.cnt, if_neg (not_not.2 rfl), if_pos (Nat.succ_ne_zero k), if_neg (Nat.ne_of_lt hf)]
    dsimp only
    rw [incr_eq hf]
    have hfine := h.again ht hnone (fun hc => by cases hc) hfits
    exact ⟨hfine.1, fun _ => hfine.2⟩

omit [DecidableEq ι] in
/-- The counters of the lock, seen by a thread which has a share in them. -/
theorem Inv.of_reads (h : S.Inv) (hr : (S.thread i).Reads) : 1 ≤ S.rcount ∧ S.wcount = 0 := by
  have hpos : 1 ≤ S.rcount := h.rcount ▸ share_le_sum Thread.Reads i hr
  exact ⟨hpos, h.exclusive.resolve_right (Nat.ne_of_gt hpos)⟩

omit [DecidableEq ι] in
theorem Inv.of_owns (h : S.Inv) (ho : (S.thread i).Owns) :
    share (S.reserved = true) = 1 ∧ S.wcount = 0 := by
  have hpos : 1 ≤ share (S.reserved = true) := h.reserved ▸ share_le_sum Thread.Owns i ho
  have hone := h.one
  omega

omit [DecidableEq ι] in
theorem Inv.of_writes (h : S.Inv) (hw : (S.thread i).Writes) :
    S.wcount = 1 ∧ S.rcount = 0 ∧ share (S.reserved = true) = 0 := by
  have hpos : 1 ≤ S.wcount := h.wcount ▸ share_le_sum Thread.Writes i hw
  have hone := h.one
  have hex := h.exclusive
  omega

/-- The wait of a reader which becomes a writer is over. -/
theorem Left.acquire_towrlock (hl : S.Left T i) (h : S.Inv)
    (hw : (S.thread i).waiting = some .towrlock) (hr : S.rcount = 0) :
    S.Fine (T.acquire i .towrlock) := by
  obtain ⟨k, ht⟩ := h.ok i
  obtain ⟨hreads, hwrites, howns⟩ := ht.shares_towrlock hw
  obtain ⟨hres, hw0⟩ := h.of_owns (i := i) (.inr hw)
  rw [State.acquire, if_neg (not_not.2 (hl.wcount.trans hw0))]
  have hwaits := ht.2.2.2
  rw [hw] at hwaits
  have hmoved : ∀ n, (S.thread i).cnt.rd = n + 1 → (S.thread i).held = n + 1 →
      n + 1 < wrReserved → S.Fine ({ T with wcount := T.wcount + 1, reserved := false }.setThread i
        ⟨⟨0, (T.thread i).cnt.rd⟩, none, (T.thread i).held⟩) := by
    intro n hrd hheld hn
    refine Moved.fine (hl.moved (h := .write n) ⟨?_, ?_, hn, rfl⟩ rfl ?_ ?_ ?_ ?_ ?_) h
    · rw [hl.thread, hrd]
      rfl
    · rw [hl.thread]
      exact hheld
    · rw [hreads, hl.rcount]
      rfl
    · rw [hwrites, hl.wcount]
      rfl
    · rw [howns, hres]
      rfl
    · exact .inr (hl.rcount.trans hr)
    · rw [hl.wcount, hw0]
      exact le_rfl
  cases k with
  | free => exact absurd rfl hwaits
  | read k =>
    rcases hwaits with hc | ⟨-, hk⟩
    · cases hc
    · exact hmoved k (by rw [ht.1]; rfl) ht.2.1 hk
  | reserved k =>
    rcases hwaits with hc | ⟨-, hk⟩
    · cases hc
    · exact hmoved k (by rw [ht.1]; rfl) ht.2.1 hk
  | write k => cases hwaits

/-- A reader gives its share up, and waits for the others. -/
theorem Inv.await_towrlock (h : S.Inv) (hnone : (S.thread i).waiting = none) {k : Hold} {n : ℕ}
    (ht : (S.thread i).OfHold k) (hk : k = .read n ∨ k = .reserved n) (hn : n + 1 < wrReserved)
    (ho : share (S.reserved = true) = k.owns) :
    S.Fine ({ S with reserved := true, rcount := S.rcount - 1 }.await i .towrlock) := by
  have hwait : (S.thread i).waiting ≠ some .towrlock := by
    rw [hnone]
    simp
  obtain ⟨hreads, hwrites, howns⟩ := ht.shares hwait
  have hrd : (S.thread i).cnt.rd = n + 1 := by
    rw [ht.1]
    rcases hk with rfl | rfl <;> rfl
  obtain ⟨hpos, hw0⟩ := h.of_reads (i := i) ⟨by rw [hrd]; exact Nat.succ_ne_zero n, hwait⟩
  have hkreads : k.reads = 1 := by rcases hk with rfl | rfl <;> rfl
  have hkwrites : k.writes = 0 := by rcases hk with rfl | rfl <;> rfl
  have hheld : (S.thread i).held = n + 1 := by
    rw [ht.2.1]
    rcases hk with rfl | rfl <;> rfl
  rw [State.await]
  by_cases hb : State.Blocked { S with reserved := true, rcount := S.rcount - 1 } .towrlock
  · rw [if_pos hb]
    have ht' : (Thread.mk (S.thread i).cnt (some .towrlock) (S.thread i).held).OfHold k := by
      refine ⟨ht.1, ht.2.1, ht.2.2.1, ?_⟩
      rcases hk with rfl | rfl <;> exact .inr ⟨rfl, hn⟩
    obtain ⟨hreads', -, howns'⟩ := ht'.shares_towrlock rfl
    refine (moved_enterWait hnone ht' ?_ ?_ (.inl hw0) ?_).fine h
    · rw [hreads, hreads', hkreads]
      exact Nat.sub_add_cancel hpos
    · rw [howns, howns', ho]
      exact Nat.add_comm _ _
    · rw [hw0]
      exact le_rfl
  · -- the last reader is a writer at once
    rw [if_neg hb, State.acquire, if_neg (not_not.2 hw0)]
    refine Moved.fine ((left_refl hnone).moved (h := .write n) ⟨?_, hheld, hn, rfl⟩ rfl
      ?_ ?_ ?_ (.inr (not_not.1 hb)) ?_) h
    · rw [hrd]
      rfl
    · rw [hreads, hkreads]
      exact Nat.sub_add_cancel hpos
    · rw [hwrites, hkwrites]
      rfl
    · rw [howns, ho]
      exact Nat.zero_add _
    · rw [hw0]
      exact le_rfl

theorem Inv.towrlock (h : S.Inv) (hnone : (S.thread i).waiting = none)
    (hd : (S.thread i).cnt.rd < wrReserved) :
    (S.towrlock i).Inv ∧ (0 < (S.thread i).held → (S.towrlock i).aborted = S.aborted) := by
  obtain ⟨k, ht⟩ := h.ok i
  have hf := ht.2.2.1
  have hwait : (S.thread i).waiting ≠ some .towrlock := by
    rw [hnone]
    simp
  have hfine : S.Fine (S.towrlock i) → (S.towrlock i).Inv ∧
      (0 < (S.thread i).held → (S.towrlock i).aborted = S.aborted) :=
    fun hc => ⟨hc.1, fun _ => hc.2⟩
  have hR := wrReserved_pos.ne'
  cases k with
  | free =>
    have habort : S.towrlock i = S.abort := by
      rw [State.towrlock, ht.1]
      rfl
    rw [habort, ht.2.1]
    exact ⟨h.abort, fun hc => by cases hc⟩
  | read k =>
    refine hfine ?_
    rw [ht.1] at hd
    obtain ⟨hpos, hw0⟩ := h.of_reads (i := i) ⟨by rw [ht.1]; exact Nat.succ_ne_zero k, hwait⟩
    rw [State.towrlock, ht.1, Hold.cnt, if_neg (fun hc => hc.1 rfl),
      if_neg (not_or.2 ⟨Nat.succ_ne_zero k, not_or.2 ⟨Nat.ne_of_gt hpos, not_not.2 hw0⟩⟩)]
    by_cases hres : S.reserved = true
    · rw [if_pos ⟨hres, hR.symm⟩]
      exact h.fine_refl
    · rw [if_neg (fun hc => hres hc.1)]
      exact h.await_towrlock hnone ht (.inl rfl) hd (share_neg hres)
  | reserved k =>
    refine hfine ?_
    rw [ht.1] at hd
    obtain ⟨hpos, hw0⟩ := h.of_reads (i := i) ⟨by rw [ht.1]; exact Nat.succ_ne_zero k, hwait⟩
    have hres := (h.of_owns (i := i) (.inl (by rw [ht.1]; rfl))).1
    rw [State.towrlock, ht.1, Hold.cnt, if_neg (fun hc => hc.2 rfl),
      if_neg (not_or.2 ⟨Nat.succ_ne_zero k, not_or.2 ⟨Nat.ne_of_gt hpos, not_not.2 hw0⟩⟩),
      if_neg (fun hc => hc.2 rfl)]
    exact h.await_towrlock hnone ht (.inr rfl) hd hres
  | write k =>
    refine hfine ?_
    rw [State.towrlock, ht.1, Hold.cnt, if_pos ⟨Nat.succ_ne_zero k, Nat.ne_of_lt hf⟩]
    exact h.fine_refl

theorem Inv.unlock (h : S.Inv) (hnone : (S.thread i).waiting = none) :
    (S.unlock i).Inv ∧ (0 < (S.thread i).held → (S.unlock i).aborted = S.aborted) := by
  obtain ⟨k, ht⟩ := h.ok i
  have hf := ht.2.2.1
  have hwait : (S.thread i).waiting ≠ some .towrlock := by
    rw [hnone]
    simp
  obtain ⟨hreads, hwrites, howns⟩ := ht.shares hwait
  have hfine : S.Fine (S.unlock i) → (S.unlock i).Inv ∧
      (0 < (S.thread i).held → (S.unlock i).aborted = S.aborted) := fun hc => ⟨hc.1, fun _ => hc.2⟩
  have hR := wrReserved_pos.ne'
  -- the lock is still held
  have hless : ∀ k' : Hold, k' ≠ .free → k = k'.again → k'.Fits →
      checkRecursiveOut k.cnt = some (k'.cnt, true) → S.Fine (S.unlock i) := by
    rintro k' hk' rfl hfits hout
    rw [State.unlock, ht.1, hout]
    refine @Inv.rehold _ _ _ _ _ _ h _ k' ht hnone ⟨rfl, ?_, hfits, ?_⟩ hnone ?_ ?_ ?_
    · rw [ht.2.1]
      cases k' <;> rfl
    · rw [hnone]
      cases k' with
      | free => exact absurd rfl hk'
      | read k | reserved k => exact .inl rfl
      | write k => rfl
    all_goals cases k' <;> rfl
  -- the last hold of the thread
  have hlast : ∀ n, (S.thread i).held = n → n - 1 = 0 → (Thread.mk ⟨0, 0⟩ (S.thread i).waiting
      ((S.thread i).held - 1)).OfHold .free := fun n hn h0 =>
    ⟨rfl, (congrArg (· - 1) hn).trans h0, trivial, hwait⟩
  cases k with
  | free =>
    have habort : S.unlock i = S.abort := by
      rw [State.unlock, ht.1]
      rfl
    rw [habort, ht.2.1]
    exact ⟨h.abort, fun hc => by cases hc⟩
  | read k =>
    refine hfine ?_
    cases k with
    | succ k => exact hless (.read k) (fun hc => by cases hc) rfl (Nat.lt_of_succ_lt hf) rfl
    | zero =>
      obtain ⟨hpos, hw0⟩ := h.of_reads (i := i) ⟨by rw [ht.1]; exact Nat.one_ne_zero, hwait⟩
      have hout : checkRecursiveOut (Hold.read 0).cnt = some (⟨0, 0⟩, false) := rfl
      rw [State.unlock, ht.1, hout]
      dsimp only
      rw [if_neg (fun hc => hc.2 hw0), if_pos (Nat.ne_of_gt hpos), if_neg (fun hc => hR hc.2.symm)]
      refine Moved.fine ((left_refl hnone).moved (hlast 1 ht.2.1 rfl) hnone ?_ ?_ ?_ (.inl hw0)
        h.one) h
      · rw [hreads]
        exact Nat.sub_add_cancel hpos
      · rw [hwrites]
        rfl
      · rw [howns]
        rfl
  | reserved k =>
    refine hfine ?_
    cases k with
    | succ k => exact hless (.reserved k) (fun hc => by cases hc) rfl (Nat.lt_of_succ_lt hf) rfl
    | zero =>
      obtain ⟨hpos, hw0⟩ := h.of_reads (i := i) ⟨by rw [ht.1]; exact Nat.one_ne_zero, hwait⟩
      have hres := (h.of_owns (i := i) (.inl (by rw [ht.1]; rfl))).1
      have hres' : S.reserved = true := by
        by_contra hc
        rw [share_neg hc] at hres
        cases hres
      have hout : checkRecursiveOut (Hold.reserved 0).cnt = some (⟨0, wrReserved⟩, false) := rfl
      rw [State.unlock, ht.1, hout]
      dsimp only
      rw [if_neg (fun hc => hc.2 hw0), if_pos (Nat.ne_of_gt hpos), if_pos ⟨hres', rfl⟩]
      refine Moved.fine ((left_refl hnone).moved (hlast 1 ht.2.1 rfl) hnone ?_ ?_ ?_ (.inl hw0)
        ?_) h
      · rw [hreads]
        exact Nat.sub_add_cancel hpos
      · rw [hwrites]
        rfl
      · rw [howns, hres]
        rfl
      · rw [hw0]
        exact Nat.zero_le 1
  | write k =>
    refine hfine ?_
    cases k with
    | succ k => exact hless (.write k) (fun hc => by cases hc) rfl (Nat.lt_of_succ_lt hf) rfl
    | zero =>
      have hwrite : (S.thread i).Writes := by
        rw [Thread.Writes, ht.1]
        exact ⟨rfl, Nat.one_ne_zero⟩
      obtain ⟨hw1, hr0, hres⟩ := h.of_writes hwrite
      have hres' : S.reserved ≠ true := by
        intro hc
        rw [share_pos hc] at hres
        cases hres
      have hout : checkRecursiveOut (Hold.write 0).cnt = some (⟨0, 0⟩, false) := rfl
      rw [State.unlock, ht.1, hout]
      dsimp only
      rw [if_neg (fun hc => hc.1 hr0), if_neg (not_not.2 hr0),
        if_neg (not_or.2 ⟨by rw [hw1]; exact Nat.one_ne_zero, fun hc => hres' hc.2.1⟩)]
      refine Moved.fine ((left_refl hnone).moved (hlast 1 ht.2.1 rfl) hnone ?_ ?_ ?_ (.inr hr0)
        ?_) h
      · rw [hreads]
        rfl
      · rw [hwrites, hw1]
        rfl
      · rw [howns]
        rfl
      · rw [hw1, hres]
        exact Nat.zero_le 1

/-! ## Runs -/

/-- The condition on the depth of the recursion: no counter reaches the mark of the reservation when
    it is incremented, nor when a reader becomes a writer. -/
def DepthOk (S : State ι) : Action ι → Prop
  | .call _ .unlock => True
  | .call i .towrlock => (S.thread i).cnt.rd < wrReserved
  | .call i _ => S.CanRecurse i
  | .wake _ | .timeout _ => True

/-- The users are well-bracketed: who releases the lock or asks for an upgrade holds it, and who
    only reads asks neither for the lock for writing nor for the reservation. -/
def WellBracketed (S : State ι) : Action ι → Prop
  | .call i .unlock | .call i .towrlock => 0 < (S.thread i).held
  | .call i .wrlock | .call i .trywrlock | .call i .timedwrlock => (S.thread i).cnt.rd = 0
  | .call i .rslock => (S.thread i).cnt.rd ≠ 0 → (S.thread i).cnt.wr = wrReserved
  | .call _ .rdlock | .call _ .tryrdlock | .call _ .timedrdlock | .call _ .rdlockStarvewr => True
  | .wake _ | .timeout _ => True

/-- The owner of the reservation does not take it again. -/
def NotNested (S : State ι) : Action ι → Prop
  | .call i .rslock => (S.thread i).cnt.wr ≠ wrReserved
  | _ => True

theorem Inv.call {c : Call} (h : S.Inv) (hnone : (S.thread i).waiting = none)
    (hd : S.DepthOk (.call i c)) : (S.call i c).Inv ∧ (S.WellBracketed (.call i c) →
      S.NotNested (.call i c) → (S.call i c).aborted = S.aborted) := by
  have hfine : ∀ S', S.Fine S' → S'.Inv ∧ (S.WellBracketed (.call i c) →
      S.NotNested (.call i c) → S'.aborted = S.aborted) := fun S' hc => ⟨hc.1, fun _ _ => hc.2⟩
  cases c with
  | rdlock => exact hfine _ (h.lockIn_rd hnone hd fun ht => h.await ht hnone (by simp))
  | tryrdlock => exact hfine _ (h.lockIn_rd hnone hd fun ht => h.tryAcquire ht hnone (by simp))
  | timedrdlock => exact hfine _ (h.lockIn_rd hnone hd fun ht => h.await ht hnone (by simp))
  | rdlockStarvewr => exact hfine _ (h.lockIn_rd hnone hd fun ht => h.await ht hnone (by simp))
  | wrlock =>
    obtain ⟨hi, ha⟩ := h.lockIn_wr hnone hd fun ht => h.await ht hnone (w := .wrlock) (by simp)
    exact ⟨hi, fun hwell _ => ha hwell⟩
  | trywrlock =>
    obtain ⟨hi, ha⟩ := h.lockIn_wr hnone hd fun ht => h.tryAcquire ht hnone (w := .wrlock) (by simp)
    exact ⟨hi, fun hwell _ => ha hwell⟩
  | timedwrlock =>
    obtain ⟨hi, ha⟩ := h.lockIn_wr hnone hd fun ht => h.await ht hnone (w := .timedwrlock) (by simp)
    exact ⟨hi, fun hwell _ => ha hwell⟩
  | rslock =>
    obtain ⟨hi, ha⟩ := h.rslock hnone hd
    exact ⟨hi, fun hwell hnest => ha (by_contra fun hrd => hnest (hwell hrd))⟩
  | towrlock =>
    obtain ⟨hi, ha⟩ := h.towrlock hnone hd
    exact ⟨hi, fun hwell _ => ha hwell⟩
  | unlock =>
    obtain ⟨hi, ha⟩ := h.unlock hnone
    exact ⟨hi, fun hwell _ => ha hwell⟩

/-- The wait of a thread ends, and it goes on when it can. -/
theorem Inv.wake (h : S.Inv) (hw : (S.thread i).waiting = some w) (hb : ¬ S.Blocked w) :
    S.Fine ((S.leaveWait w).acquire i w) := by
  have hl := h.left_leaveWait hw
  obtain ⟨k, ht⟩ := h.ok i
  by_cases hto : w = .towrlock
  · subst hto
    exact hl.acquire_towrlock h hw (not_not.1 hb)
  · have hfree : k = .free := by
      have hwaits := ht.2.2.2
      rw [hw] at hwaits
      cases k with
      | free => rfl
      | write k => cases hwaits
      | read k | reserved k =>
        rcases hwaits with hc | ⟨hc, -⟩
        · cases hc
        · exact absurd (some_inj.1 hc) hto
    subst hfree
    obtain ⟨t, hm⟩ := hl.acquire h ht hto hb
    exact hm.fine h

theorem Inv.timeout (h : S.Inv) (hw : (S.thread i).waiting = some w)
    (ht : w = .timedrdlock ∨ w = .timedwrlock) :
    S.Fine ((S.leaveWait w).setThread i { S.thread i with waiting := none }) := by
  have hl := h.left_leaveWait hw
  obtain ⟨k, hk⟩ := h.ok i
  have hto : (S.thread i).waiting ≠ some .towrlock := by
    rw [hw]
    rcases ht with rfl | rfl <;> simp
  have hwaits : k.Waits none := by
    have hc := hk.2.2.2
    cases k with
    | free => exact fun hc => by cases hc
    | read k | reserved k => exact .inl rfl
    | write k => rfl
  obtain ⟨hreads, hwrites, howns⟩ := hk.shares hto
  exact (hl.moved (t := { S.thread i with waiting := none }) (r := S.rcount) (x := S.wcount)
    (b := S.reserved) (h := k)
    ⟨hk.1, hk.2.1, hk.2.2.1, hwaits⟩ rfl (by rw [hreads]) (by rw [hwrites]) (by rw [howns])
    h.exclusive h.one).fine h

theorem Inv.step {a : Action ι} (h : S.Inv) (hd : S.DepthOk a) (hs : S.step a = some S') :
    S'.Inv ∧ (S.WellBracketed a → S.NotNested a → S'.aborted = false) := by
  cases a with
  | call i c =>
    rw [State.step] at hs
    by_cases hc : S.aborted = true ∨ (S.thread i).waiting ≠ none
    · rw [if_pos hc] at hs
      cases hs
    · rw [if_neg hc] at hs
      cases hs
      obtain ⟨ha, hw⟩ := not_or.1 hc
      obtain ⟨hi, hab⟩ := h.call (not_not.1 hw) hd
      exact ⟨hi, fun h1 h2 => (hab h1 h2).trans (Bool.eq_false_iff.2 ha)⟩
  | wake i =>
    rw [State.step] at hs
    by_cases ha : S.aborted = true
    · rw [if_pos ha] at hs
      cases hs
    rw [if_neg ha] at hs
    have ha' := Bool.eq_false_iff.2 ha
    obtain ⟨w, hw, rfl⟩ := map_eq_some_iff.1 hs
    by_cases hb : S.Blocked w
    · rw [if_pos hb]
      exact ⟨h, fun _ _ => ha'⟩
    · rw [if_neg hb]
      obtain ⟨hi, hab⟩ := h.wake hw hb
      exact ⟨hi, fun _ _ => hab.trans ha'⟩
  | timeout i =>
    rw [State.step] at hs
    by_cases ha : S.aborted = true
    · rw [if_pos ha] at hs
      cases hs
    rw [if_neg ha] at hs
    obtain ⟨w, hw, hs⟩ := bind_eq_some_iff.1 hs
    by_cases ht : w = .timedrdlock ∨ w = .timedwrlock
    · rw [if_pos ht] at hs
      cases hs
      obtain ⟨hi, hab⟩ := h.timeout hw ht
      exact ⟨hi, fun _ _ => hab.trans (Bool.eq_false_iff.2 ha)⟩
    · rw [if_neg ht] at hs
      cases hs

/-- What the users of a lock rely on. -/
structure Safe (S : State ι) : Prop where
  exclusive : ∀ i j, i ≠ j → (S.thread i).Writes → ¬ (S.thread j).Writes ∧ ¬ (S.thread j).Reads
  rcount : S.rcount = (Finset.univ.filter fun i => (S.thread i).Reads).card
  reservation : ∀ i j, (S.thread i).Owns → (S.thread j).Owns → i = j
  /-- A thread releases the lock with as many calls as it took it with. -/
  held : ∀ i, (S.thread i).cnt.count = (S.thread i).held
  released : ∀ i, (S.thread i).held = 0 ↔
    ¬ (S.thread i).Reads ∧ ¬ (S.thread i).Writes ∧ ¬ (S.thread i).Owns

theorem Inv.safe (h : S.Inv) : S.Safe where
  exclusive := by
    intro i j hij hi
    obtain ⟨hw1, hr0, -⟩ := h.of_writes hi
    refine ⟨fun hj => ?_, fun hj => ?_⟩
    · have htwo := two_le_sum Thread.Writes hij hi hj
      have hsum := h.wcount
      omega
    · have hpos := (h.of_reads hj).1
      omega
  rcount := by
    rw [h.rcount, Finset.card_filter]
    rfl
  reservation := by
    intro i j hi hj
    by_contra hij
    have htwo := two_le_sum Thread.Owns hij hi hj
    have hone := h.one
    have hsum := h.reserved
    omega
  held := by
    intro i
    obtain ⟨k, ht⟩ := h.ok i
    rw [ht.1, ht.2.1, Hold.count_cnt]
  released := by
    intro i
    obtain ⟨k, ht⟩ := h.ok i
    by_cases hto : (S.thread i).waiting = some .towrlock
    · have hheld : (S.thread i).held ≠ 0 := by
        rw [ht.2.1]
        cases k with
        | free => exact absurd hto ht.2.2.2
        | read k | reserved k | write k => exact Nat.succ_ne_zero k
      exact ⟨fun hc => absurd hc hheld, fun hc => absurd (.inr hto) hc.2.2⟩
    · obtain ⟨hr, hx, ho⟩ := ht.shares hto
      rw [ht.2.1]
      cases k with
      | free => exact ⟨fun _ => ⟨not_of_share hr, not_of_share hx, not_of_share ho⟩, fun _ => rfl⟩
      | read k | reserved k =>
        refine ⟨fun hc => (by cases hc), fun hc => ?_⟩
        rw [share_neg hc.1] at hr
        cases hr
      | write k =>
        refine ⟨fun hc => (by cases hc), fun hc => ?_⟩
        rw [share_neg hc.2.1] at hx
        cases hx

/-- In every run whose recursions are not too deep the lock is safe; no assertion fails when,
    besides, the users are well-bracketed and the owner of the reservation does not take it
    again. -/
theorem runs_exclusive : ((machine ι).Reachable DepthOk S → S.Safe) ∧
    ((machine ι).Reachable (fun S a => S.DepthOk a ∧ S.WellBracketed a ∧ S.NotNested a) S →
      S.Safe ∧ S.aborted = false) := by
  have hstart : ∀ S : State ι, (machine ι).init S → S.Inv ∧ S.aborted = false := by
    rintro S rfl
    exact ⟨inv_start, rfl⟩
  constructor
  · intro h
    have hinv : S.Inv := h.invariant (P := Inv) (fun S hS => (hstart S hS).1)
      fun S a S' hi hd hs => (hi.step hd hs).1
    exact hinv.safe
  · intro h
    have hinv : S.Inv ∧ S.aborted = false := h.invariant
      (P := fun S => S.Inv ∧ S.aborted = false) hstart fun S a S' hi hok hs => by
        obtain ⟨hi', ha⟩ := hi.1.step hok.1 hs
        exact ⟨hi', ha hok.2.1 hok.2.2⟩
    exact ⟨hinv.1.safe, hinv.2⟩

/-- The first thread reserves the lock and becomes a writer, when the second one has gone. -/
theorem runs_exclusive_upgrade : ∃ S : State (Fin 2), S.wcount = 1 ∧ S.Safe ∧
    S.aborted = false := by
  let ok : State (Fin 2) → Action (Fin 2) → Prop := fun S a =>
    S.DepthOk a ∧ S.WellBracketed a ∧ S.NotNested a
  have h : (machine (Fin 2)).Reachable ok _ :=
    .step (a := .call 0 .rslock) (.init rfl)
    ⟨⟨wrReserved_pos, fun _ => one_lt_wrReserved⟩, fun hc => absurd rfl hc, wrReserved_pos.ne⟩ rfl
  replace h := h.next (.call 1 .rdlock)
    ⟨⟨wrReserved_pos, fun _ => one_lt_wrReserved⟩, trivial, trivial⟩ rfl
  replace h := h.next (.call 0 .towrlock) ⟨one_lt_wrReserved, Nat.zero_lt_one, trivial⟩ rfl
  replace h := h.next (.call 1 .unlock) ⟨trivial, Nat.zero_lt_one, trivial⟩ rfl
  replace h := h.next (.wake 0) ⟨trivial, trivial, trivial⟩ rfl
  exact ⟨_, rfl, runs_exclusive.1 (h.mono fun _ _ hok => hok.1), (runs_exclusive.2 h).2⟩

/-- The owner of the reservation asks for it again. -/
theorem nested_rslock_aborts : ¬ ∀ S : State (Fin 1),
    (machine (Fin 1)).Reachable WellBracketed S → S.Safe ∧ S.aborted = false := by
  intro hall
  have h : (machine (Fin 1)).Reachable WellBracketed _ :=
    .step (a := .call 0 .rslock) (.init rfl) (fun hc => absurd rfl hc) rfl
  replace h := h.next (.call 0 .rslock) (fun _ => rfl) rfl
  have haborted := (hall _ h).2
  cases haborted

/-! ## Progress -/

omit [DecidableEq ι] in
/-- Who does not hold the lock, or waits, adds nothing to the counters but the reservation. -/
theorem Inv.shares_of_waiting (h : S.Inv)
    (hheld : 0 < (S.thread i).held → (S.thread i).waiting ≠ none) :
    share (S.thread i).Reads = 0 ∧ share (S.thread i).Writes = 0 ∧
      ((S.thread i).waiting ≠ some .towrlock → share (S.thread i).Owns = 0) := by
  obtain ⟨k, ht⟩ := h.ok i
  by_cases hw : (S.thread i).waiting = some .towrlock
  · obtain ⟨hr, hx, -⟩ := ht.shares_towrlock hw
    exact ⟨hr, hx, fun hne => absurd hw hne⟩
  cases k with
  | free =>
    obtain ⟨hr, hx, ho⟩ := ht.shares hw
    exact ⟨hr, hx, fun _ => ho⟩
  | read k | reserved k =>
    exact absurd (ht.2.2.2.resolve_right fun hc => hw hc.1) (hheld (ht.2.1 ▸ Nat.succ_pos k))
  | write k => exact absurd ht.2.2.2 (hheld (ht.2.1 ▸ Nat.succ_pos k))

/-- In every run whose recursions are not too deep, while threads wait, one which holds the lock
    does not, or one can go on: the lock alone never makes a deadlock. -/
theorem progress_of_reachable (h : (machine ι).Reachable DepthOk S)
    (hwait : (S.thread i).waiting ≠ none) :
    (∃ j, 0 < (S.thread j).held ∧ (S.thread j).waiting = none) ∨
      ∃ j w, (S.thread j).waiting = some w ∧ ¬ S.Blocked w := by
  have hinv : S.Inv := h.invariant (P := Inv) (fun S hS => hS ▸ inv_start)
    fun S a S' hi hd hs => (hi.step hd hs).1
  rw [or_iff_not_imp_left]
  intro hheld
  push Not at hheld
  have hshares := fun j => hinv.shares_of_waiting (hheld j)
  have hr : S.rcount = 0 := hinv.rcount.trans (Finset.sum_eq_zero fun j _ => (hshares j).1)
  have hw : S.wcount = 0 := hinv.wcount.trans (Finset.sum_eq_zero fun j _ => (hshares j).2.1)
  by_cases howner : ∃ j, (S.thread j).waiting = some .towrlock
  · -- the owner waits for the readers, and there are none
    obtain ⟨j, hj⟩ := howner
    exact ⟨j, .towrlock, hj, not_not.2 hr⟩
  push Not at howner
  have hres : S.reserved ≠ true := not_of_share (hinv.reserved.trans
    (Finset.sum_eq_zero fun j _ => (hshares j).2.2 (howner j)))
  by_cases hwriter : ∃ j, (S.thread j).WWaits
  · obtain ⟨j, w, hj, hreads⟩ := hwriter
    refine ⟨j, w, hj, ?_⟩
    cases w with
    | rdlock | timedrdlock | rdlockStarvewr => cases hreads
    | wrlock | timedwrlock | rslock => simp [Blocked, hr, hw, hres]
    | towrlock => exact absurd hj (howner j)
  · push Not at hwriter
    have hwwait : S.wwait = 0 :=
      hinv.wwait.trans (Finset.sum_eq_zero fun j _ => share_neg (hwriter j))
    obtain ⟨w, hi⟩ := ne_none_iff_exists'.1 hwait
    refine ⟨i, w, hi, ?_⟩
    cases w with
    | rdlock | timedrdlock | rdlockStarvewr => simp [Blocked, hw, hwwait]
    | wrlock | timedwrlock | rslock | towrlock => exact absurd ⟨_, hi, rfl⟩ (hwriter i)

/-- The second thread waits for the first one, a writer. -/
theorem progress_of_reachable_writer : ∃ S : State (Fin 2), (S.thread 1).waiting = some .rdlock ∧
    ((∃ j, 0 < (S.thread j).held ∧ (S.thread j).waiting = none) ∨
      ∃ j w, (S.thread j).waiting = some w ∧ ¬ S.Blocked w) := by
  have h : (machine (Fin 2)).Reachable DepthOk _ :=
    .step (a := .call 0 .wrlock) (.init rfl) ⟨wrReserved_pos, fun _ => one_lt_wrReserved⟩ rfl
  replace h := h.next (.call 1 .rdlock) ⟨wrReserved_pos, fun _ => one_lt_wrReserved⟩ rfl
  exact ⟨_, rfl, progress_of_reachable (i := 1) h (some_ne_none _)⟩

end State

end Pclsync.RwLock
