import Pclsync.Uploads.Counters
import Mathlib.Algebra.BigOperators.Group.Multiset.Basic

/-!
# Runs of uploads

What the counters say of the uploads which are running, and whether `upload_thread` is woken, in
runs of the sections of both mutexes, whose accesses come one between the other.

* `Tallies`: a section under `current_uploads_mutex` leaves the counters right, whatever the
  sections under `upload_mutex` do meanwhile; `Notes`: these keep what it relies on.
* `accounted_of_fresh`: where no update of a counter is split by one of the same counter under the
  other mutex, and no broadcast falls between the check and the wait of `upload_thread`, the
  counters are right, but for the sizes of the uploads of the drive, and `upload_thread` does not
  sleep for ever when nothing is uploaded.
* `update_lost`: where an update is split, an upload is not counted.
-/

namespace Pclsync.Uploads

open Option Multiset Function

/-- The thread sleeps on the condition. -/
def Scheduler.asleep : Scheduler → Bool
  | .free => false
  | .start _ b | .noUploads b => b

/-- The upload which waits to be started has uploaded nothing. -/
def Scheduler.Fresh : Scheduler → Prop
  | .start ut _ => ut.uploaded = 0
  | _ => True

/-- A sum as the counters have it. -/
def total {α : Type} (f : α → UInt64) (m : Multiset α) : UInt64 :=
  UInt64.ofNat (m.map fun a => (f a).toNat).sum

section
variable {α : Type} {f : α → UInt64} {a : α} {m n : Multiset α}

@[simp] theorem total_cons : total f (a ::ₘ m) = f a + total f m := by
  rw [total, map_cons, sum_cons, UInt64.ofNat_add, UInt64.ofNat_toNat]
  rfl

theorem total_add : total f (m + n) = total f m + total f n := by
  rw [total, Multiset.map_add, sum_add, UInt64.ofNat_add]
  rfl

theorem total_erase [DecidableEq α] (h : a ∈ m) : total f m = f a + total f (m.erase a) := by
  rw [← total_cons, cons_erase h]

end

namespace State

/-- The number of uploads running. -/
def files (s : State) : ℕ := s.running.card + s.drive.card

/-- The bytes uploaded of the uploads running. -/
def bytes (s : State) : ℕ :=
  (s.running.map fun ut => ut.uploaded.toNat).sum + (s.drive.map fun d => d.asize.toNat).sum

/-- The sizes of the uploads of the synced folders. -/
def syncSizes (s : State) : ℕ := (s.running.map fun ut => ut.filesize.toNat).sum

/-- The sizes of the uploads of the drive. -/
def driveSizes (s : State) : ℕ := (s.drive.map fun d => d.size.toNat).sum

/-- The counters have room for the uploads, and for one more. -/
def Fits (s : State) : Prop :=
  s.files + 1 < 4294967296 ∧ s.bytes < 18446744073709551616 ∧
    s.syncSizes + s.driveSizes < 18446744073709551616

instance (s : State) : Decidable s.Fits := inferInstanceAs (Decidable (_ ∧ _ ∧ _))

/-- The condition which `upload_thread` waits for. -/
def awaited (s : State) : Bool :=
  match s.scheduler with
  | .free => false
  | .start ut _ => ut.stop || s.filesuploading < maxParallelUploads &&
      s.bytestouploadcurrent - s.bytesuploaded ≤ startNewUploadsTreshold
  | .noUploads _ => s.filesuploading = 0

/-- The thread sleeps, though what it waits for is there and nothing is uploaded. -/
def Stuck (s : State) : Prop :=
  s.scheduler.asleep = true ∧ s.awaited = true ∧ s.files = 0

/-- The counters are the number of the uploads running and the sums of their sizes and bytes. -/
structure Accounted (s : State) : Prop where
  filesuploading : s.filesuploading.toNat = s.files
  bytestouploadcurrent : s.bytestouploadcurrent.toNat = s.syncSizes + s.driveSizes
  bytesuploaded : s.bytesuploaded.toNat = s.bytes

/-- What holds at every access. -/
structure Sound (s : State) : Prop where
  files : s.filesuploading = UInt32.ofNat s.files
  waiters : s.scheduler ≠ .free → s.currentUploadsWaiters ≠ 0
  fresh : s.scheduler.Fresh

end State

/-- What is only changed under `current_uploads_mutex`: of `bytesuploaded` it is the part of the
    synced folders, of the scheduler all but its being woken. -/
structure Own where
  running : Multiset Upload
  current : UInt64
  uploaded : UInt64
  waiters : ℕ
  scheduler : Scheduler

/-- The counters are those of the uploads of the synced folders. -/
structure Own.Balanced (v : Own) : Prop where
  current : v.current = total Upload.filesize v.running
  uploaded : v.uploaded = total Upload.uploaded v.running

def State.own (s : State) : Own where
  running := s.running
  current := s.bytestouploadcurrent
  uploaded := s.bytesuploaded - total DriveUpload.asize s.drive
  waiters := s.currentUploadsWaiters
  scheduler := s.scheduler.woken

open Uploads.State

variable {s s' : State} {ut : Upload} {d : DriveUpload} {k : Section State} {v : Own}

/-! ## States -/

@[simp] theorem woken_woken (c : Scheduler) : c.woken.woken = c.woken := by
  cases c <;> rfl

@[simp] theorem asleep_woken (c : Scheduler) : c.woken.asleep = false := by
  cases c <;> rfl

theorem woken_eq_free {c : Scheduler} : c.woken = .free ↔ c = .free := by
  cases c <;> simp [Scheduler.woken]

theorem ne_free_of_asleep {c : Scheduler} (h : c.asleep = true) : c ≠ .free := by
  rintro rfl
  cases h

theorem fresh_woken {c : Scheduler} (h : c.Fresh) : c.woken.Fresh := by
  cases c <;> exact h

theorem State.Sound.woken (h : s.Sound) : Sound { s with scheduler := s.scheduler.woken } :=
  ⟨h.files, fun hne => h.waiters fun heq => hne (woken_eq_free.2 heq), fresh_woken h.fresh⟩

theorem own_woken : own { s with scheduler := s.scheduler.woken } = s.own := by
  rw [own, own, woken_woken]

theorem State.files_eq_zero (h : s.files = 0) : s.running = 0 ∧ s.drive = 0 := by
  obtain ⟨hr, hd⟩ := Nat.add_eq_zero_iff.1 h
  exact ⟨card_eq_zero.1 hr, card_eq_zero.1 hd⟩

theorem State.Sound.counter_zero (h : s.Sound) (h0 : s.files = 0) : s.filesuploading = 0 := by
  rw [h.files, h0]
  rfl

theorem State.Sound.files_zero (h : s.Sound) (hfit : s.Fits) (h0 : s.filesuploading = 0) :
    s.files = 0 := by
  have htoNat := congrArg UInt32.toNat h.files
  rw [h0, UInt32.toNat_ofNat_of_lt' (Nat.lt_of_succ_lt hfit.1)] at htoNat
  exact htoNat.symm

/-- Without uploads the counters of bytes are zero. -/
theorem Own.Balanced.zero (h : s.own.Balanced) (h0 : s.files = 0) :
    s.bytestouploadcurrent = 0 ∧ s.bytesuploaded = 0 := by
  obtain ⟨hr, hd⟩ := State.files_eq_zero h0
  have hcurrent : s.bytestouploadcurrent = total Upload.filesize s.running := h.current
  have huploaded : s.bytesuploaded - total DriveUpload.asize s.drive =
      total Upload.uploaded s.running := h.uploaded
  rw [hr] at hcurrent huploaded
  rw [hd] at huploaded
  exact ⟨hcurrent, (UInt64.sub_zero _).symm.trans huploaded⟩

theorem own_eq (h : s.own = v) : s.running = v.running ∧ s.bytestouploadcurrent = v.current ∧
    s.bytesuploaded - total DriveUpload.asize s.drive = v.uploaded ∧
      s.currentUploadsWaiters = v.waiters ∧ s.scheduler.woken = v.scheduler := by
  subst h
  exact ⟨rfl, rfl, rfl, rfl, rfl⟩

theorem card_erase_cons {α : Type} [DecidableEq α] {a b : α} {m : Multiset α} (h : a ∈ m) :
    (b ::ₘ m.erase a).card = m.card := by
  rw [card_cons, card_erase_add_one h]

theorem files_replaced (ut' : Upload) (h : ut ∈ s.running) :
    (ut' ::ₘ s.running.erase ut).card + s.drive.card = s.files := by
  rw [card_erase_cons h, State.files]

theorem files_ne_zero_of_running (h : ut ∈ s.running) : s.files ≠ 0 := fun h0 =>
  notMem_zero ut ((State.files_eq_zero h0).1 ▸ h)

theorem files_ne_zero_of_drive (h : d ∈ s.drive) : s.files ≠ 0 := fun h0 =>
  notMem_zero d ((State.files_eq_zero h0).2 ▸ h)

/-! ## What the sections rely on -/

/-- The section under `upload_mutex` is about to wake `upload_thread`. -/
inductive Wakes : Section State → Prop
  | noUploads : Wakes wakeNoUploads
  | waiters : Wakes wakeWaiters
  | signal : Wakes (signal .done)

/-- The last chance to wake `upload_thread`: nobody waits, or the broadcast is made. -/
def LastChance (p : Section State) (s : State) : Prop :=
  p = wakeWaiters ∧ s.currentUploadsWaiters = 0 ∨ p = signal .done

theorem LastChance.act_eq {act : State → State → State} {next : State → Section State}
    (h : LastChance (.step act next) s) (hs : s.Sound) :
    act s s = { s with scheduler := s.scheduler.woken } := by
  rcases h with ⟨heq, hw⟩ | heq
  · cases heq
    have hfree : s.scheduler = .free := by
      by_contra hne
      exact hs.waiters hne hw
    rw [hfree, Scheduler.woken, ← hfree]
  · cases heq
    rfl

/-- An access under `current_uploads_mutex`, with `k` to follow. -/
structure Tallied (s s' : State) (k : Section State) : Prop where
  sound : s'.Sound
  drive : s'.drive = s.drive
  files : (k.run s').scheduler.asleep = true → s'.files = 0 → s.files = 0

/-- An access of the section `p` under `upload_mutex`, with `k` to follow. -/
structure Noted (p : Section State) (s s' : State) (k : Section State) : Prop where
  sound : s'.Sound
  own : s'.own = s.own
  wakes : s'.files = 0 → Wakes k ∨ LastChance p s ∨ s' = s ∧ ¬ Wakes p

/-- The counters have room, and what holds at every access holds. -/
def Inv (s : State) : Prop := s.Sound ∧ s.Fits

/-- What a section under each mutex keeps at its accesses, and at the end. -/
def Keeps : Lock → Section State → State → Prop
  | .currentUploads, .done, s => s.own.Balanced
  | .currentUploads, .step act next, s => Tallied s (act s s) (next s)
  | .upload, .done, _ => True
  | .upload, .step act next, s => Noted (.step act next) s (act s s) (next s)

/-- Whatever is done under `upload_mutex` meanwhile, the section leaves the counters right. -/
def Tallies (p : Section State) (v : Own) : Prop := p.Safe State.own Inv (Keeps .currentUploads) v

/-- Whatever is done under `current_uploads_mutex` meanwhile, the section keeps what is relied on
    there. -/
def Notes (p : Section State) (v : Multiset DriveUpload) : Prop :=
  p.Safe State.drive Inv (Keeps .upload) v

/-! ## Sections under `current_uploads_mutex` -/

theorem tallies_done (hv : v.Balanced) : Tallies .done v := by
  intro s hs _
  subst hs
  exact hv

theorem tallies_read {α : Type} {g : State → α} {k : α → Section State}
    (h : ∀ s, s.own = v → Inv s → Tallies (k (g s)) v) : Tallies (.read g k) v :=
  fun s hs hinv => ⟨⟨hinv.1, rfl, fun _ h0 => h0⟩, hs ▸ h s hs hinv⟩

theorem tallies_write {act : State → State}
    (h : ∀ s, s.own = v → Inv s → Tallied s (act s) k ∧ Tallies k (act s).own) :
    Tallies (.write act k) v := h

theorem tallies_change {act : State → State → State}
    (h : ∀ s, s.own = v → Inv s → Tallied s (act s s) k ∧ Tallies k (act s s).own) :
    Tallies (.change act k) v :=
  fun _ hs hinv => ⟨⟨hinv.1, rfl, fun _ h0 => h0⟩, hs ▸ h⟩

theorem tallies_changeCurrent {f : UInt64 → UInt64}
    (h : Tallies k { v with current := f v.current }) : Tallies (changeCurrent f id k) v := by
  refine tallies_change fun s hs hinv => ⟨⟨?_, rfl, fun _ h0 => h0⟩, ?_⟩
  · exact { hinv.1 with }
  · subst hs
    exact h

theorem tallies_changeUploaded {x : UInt64} (h : Tallies k { v with uploaded := v.uploaded - x }) :
    Tallies (changeUploaded (· - x) id k) v := by
  refine tallies_change fun s hs hinv => ⟨⟨?_, rfl, fun _ h0 => h0⟩, ?_⟩
  · exact { hinv.1 with }
  · subst hs
    have hsub : s.bytesuploaded - x - total DriveUpload.asize s.drive =
        s.bytesuploaded - total DriveUpload.asize s.drive - x := by grind
    change Tallies k { s.own with
      uploaded := s.bytesuploaded - x - total DriveUpload.asize s.drive }
    rwa [hsub]

theorem tallies_wakeUploadWhenReady (hv : v.Balanced) : Tallies wakeUploadWhenReady v := by
  have hsignal : Tallies (signal .done) v := tallies_write fun s hs hinv =>
    ⟨⟨hinv.1.woken, rfl, fun _ h0 => h0⟩, own_woken.trans hs ▸ tallies_done hv⟩
  refine tallies_read fun _ _ _ => ?_
  split
  · exact tallies_done hv
  refine tallies_read fun _ _ _ => ?_
  split
  · refine tallies_read fun _ _ _ => tallies_read fun _ _ _ => ?_
    split
    · exact hsignal
    · exact tallies_done hv
  · exact tallies_done hv

/-- `wake_upload_when_ready` wakes at least when nothing is uploaded. -/
theorem awake_wakeUploadWhenReady (hs : s.Sound) (hb : s.own.Balanced) (h0 : s.files = 0) :
    (wakeUploadWhenReady.run s).scheduler.asleep = false := by
  obtain ⟨hcurrent, huploaded⟩ := hb.zero h0
  have hready : s.filesuploading < maxParallelUploads ∧
      s.bytestouploadcurrent - s.bytesuploaded ≤ startNewUploadsTreshold := by
    rw [hs.counter_zero h0, hcurrent, huploaded]
    decide
  rw [wakeUploadWhenReady, Section.run_read, Section.run_ite]
  split
  · next hw =>
    by_contra hasleep
    exact hs.waiters (ne_free_of_asleep (Bool.eq_true_of_not_eq_false hasleep)) hw
  · rw [Section.run_read, if_pos hready.1, Section.run_read, Section.run_read, if_pos hready.2]
    exact asleep_woken s.scheduler

/-- Without uploads the counters of bytes are zero already. -/
theorem run_reset (hs : s.Sound) (hb : s.own.Balanced) (h0 : s.files = 0) :
    (reset k).run s = k.run s := by
  obtain ⟨hcurrent, huploaded⟩ := hb.zero h0
  have hfiles := hs.counter_zero h0
  cases s
  dsimp only at hcurrent huploaded hfiles
  subst hcurrent huploaded hfiles
  rfl

/-- The last upload which ends resets the counters of bytes, which are zero by then. -/
theorem tallies_reset (hv : v.Balanced) (hrunning : v.running = 0) (h : Tallies k v) :
    Tallies (reset k) v := by
  have hcurrent : v.current = 0 := by
    rw [hv.current, hrunning]
    rfl
  intro s hs hinv
  have hreset : (if s.filesuploading = 0 then { s with bytesuploaded := 0 } else s).own = v := by
    split
    · next h0 =>
      have hzero := hinv.1.files_zero hinv.2 h0
      have hbytes := ((hs ▸ hv : s.own.Balanced).zero hzero).2
      rw [← hs, own, own, hbytes]
    · exact hs
  refine ⟨⟨?_, ?_, ?_⟩, ?_⟩
  · change Sound (if s.filesuploading = 0 then { s with bytesuploaded := 0 } else s)
    split
    · exact { hinv.1 with }
    · exact hinv.1
  · change (if s.filesuploading = 0 then { s with bytesuploaded := 0 } else s).drive = _
    split <;> rfl
  · change _ → (if s.filesuploading = 0 then { s with bytesuploaded := 0 } else s).files = 0 → _
    split <;> exact fun _ h0 => h0
  · change Tallies _ (if s.filesuploading = 0 then { s with bytesuploaded := 0 } else s).own
    rw [hreset]
    refine tallies_write fun s hs hinv => ⟨⟨?_, rfl, fun _ h0 => h0⟩, ?_⟩
    · exact { hinv.1 with }
    · have hsame : own { s with bytestouploadcurrent := 0 } = v := by
        rw [← hs] at hcurrent ⊢
        rw [own, own, show s.bytestouploadcurrent = 0 from hcurrent]
      exact hsame ▸ h

theorem tallies_addBytesUploaded {bytes : UInt64} (hv : v.Balanced) (hut : ut ∈ v.running) :
    Tallies (addBytesUploaded ut bytes) v := by
  refine tallies_change fun s hs hinv => ?_
  obtain ⟨hrunning, hcurrent, huploaded, -⟩ := own_eq hs
  rw [← hrunning] at hut
  have hfiles := files_replaced { ut with uploaded := ut.uploaded + bytes } hut
  refine ⟨⟨⟨?_, hinv.1.waiters, hinv.1.fresh⟩, rfl, fun _ h0 => hfiles.symm.trans h0⟩,
    tallies_wakeUploadWhenReady ⟨?_, ?_⟩⟩
  · exact hinv.1.files.trans (congrArg UInt32.ofNat hfiles.symm)
  · change s.bytestouploadcurrent = total Upload.filesize (_ ::ₘ s.running.erase ut)
    rw [total_cons, hcurrent, hv.current, ← hrunning, total_erase hut]
  · change s.bytesuploaded + bytes - total DriveUpload.asize s.drive =
      total Upload.uploaded (_ ::ₘ s.running.erase ut)
    rw [hv.uploaded, ← hrunning, total_erase hut] at huploaded
    rw [total_cons]
    grind

theorem tallies_changeFilesize {fsize : UInt64} (hv : v.Balanced) (hut : ut ∈ v.running) :
    Tallies (changeFilesize ut fsize) v := by
  refine tallies_changeCurrent (tallies_change fun s hs hinv => ?_)
  obtain ⟨hrunning, hcurrent, huploaded, -⟩ := own_eq hs
  dsimp only at hrunning hcurrent huploaded
  rw [← hrunning] at hut
  have hfiles := files_replaced { ut with filesize := fsize } hut
  refine ⟨⟨⟨?_, hinv.1.waiters, hinv.1.fresh⟩, rfl, fun _ h0 => hfiles.symm.trans h0⟩,
    tallies_done ⟨?_, ?_⟩⟩
  · exact hinv.1.files.trans (congrArg UInt32.ofNat hfiles.symm)
  · change s.bytestouploadcurrent + fsize = total Upload.filesize (_ ::ₘ s.running.erase ut)
    rw [total_cons, hcurrent, hv.current, ← hrunning, total_erase hut]
    grind
  · change s.bytesuploaded - total DriveUpload.asize s.drive =
      total Upload.uploaded (_ ::ₘ s.running.erase ut)
    rw [total_cons, huploaded, hv.uploaded, ← hrunning, total_erase hut]

theorem tallies_finish (hv : v.Balanced) (hut : ut ∈ v.running) : Tallies (finish ut) v := by
  refine tallies_changeCurrent (tallies_changeUploaded (tallies_change fun s hs hinv => ?_))
  obtain ⟨hrunning, hcurrent, huploaded, -⟩ := own_eq hs
  dsimp only at hrunning hcurrent huploaded
  rw [← hrunning] at hut
  have hfiles : s.files = (s.running.erase ut).card + s.drive.card + 1 := by
    rw [State.files, ← card_erase_add_one hut, Nat.add_right_comm]
  have hsound : Sound { s with
      filesuploading := s.filesuploading - 1, running := s.running.erase ut } := by
    refine ⟨?_, hinv.1.waiters, hinv.1.fresh⟩
    change s.filesuploading - 1 = UInt32.ofNat ((s.running.erase ut).card + s.drive.card)
    rw [hinv.1.files, hfiles, UInt32.ofNat_add]
    exact UInt32.add_sub_cancel _ _
  have hbalanced : Own.Balanced (own { s with
      filesuploading := s.filesuploading - 1, running := s.running.erase ut }) := by
    constructor
    · change s.bytestouploadcurrent = total Upload.filesize (s.running.erase ut)
      rw [hcurrent, hv.current, ← hrunning, total_erase hut]
      grind
    · change s.bytesuploaded - total DriveUpload.asize s.drive =
        total Upload.uploaded (s.running.erase ut)
      rw [huploaded, hv.uploaded, ← hrunning, total_erase hut]
      grind
  refine ⟨⟨hsound, rfl, fun hasleep h0 => ?_⟩, tallies_read fun s' hs' hinv' => ?_⟩
  · -- without uploads the end of the section wakes
    rw [Section.run_read, if_pos (hsound.counter_zero h0), run_reset hsound hbalanced h0,
      awake_wakeUploadWhenReady hsound hbalanced h0] at hasleep
    cases hasleep
  · split
    · next h0 =>
      have hzero := (State.files_eq_zero (hinv'.1.files_zero hinv'.2 h0)).1
      exact tallies_reset hbalanced ((own_eq hs').1.symm.trans hzero)
        (tallies_wakeUploadWhenReady hbalanced)
    · exact tallies_wakeUploadWhenReady hbalanced

theorem tallies_sleep {c : Scheduler} (hv : v.Balanced) (hc : c.Fresh) :
    Tallies (sleep c) v := by
  have hlast : Tallies (.write (fun s => { s with scheduler := c }) .done)
      { v with waiters := v.waiters + 1 } := by
    refine tallies_write fun s hs hinv => ⟨⟨?_, rfl, fun _ h0 => h0⟩, tallies_done ?_⟩
    · have hwaiters : s.currentUploadsWaiters = v.waiters + 1 := (own_eq hs).2.2.2.1
      exact ⟨hinv.1.files, fun _ => hwaiters ▸ Nat.succ_ne_zero _, hc⟩
    · obtain ⟨hrunning, hcurrent, huploaded, -⟩ := own_eq hs
      exact ⟨hcurrent.trans (hrunning ▸ hv.current), huploaded.trans (hrunning ▸ hv.uploaded)⟩
  refine tallies_write fun s hs hinv => ⟨⟨?_, rfl, fun _ h0 => h0⟩, ?_⟩
  · exact ⟨hinv.1.files, fun _ => Nat.succ_ne_zero _, hinv.1.fresh⟩
  · subst hs
    exact hlast

theorem tallies_startLoop (hv : v.Balanced) (hut : ut.uploaded = 0) : Tallies (startLoop ut) v := by
  rw [startLoop]
  split
  · exact tallies_done hv
  refine tallies_read fun _ _ _ => ?_
  split
  · exact tallies_sleep hv hut
  refine tallies_read fun _ _ _ => tallies_read fun _ _ _ => ?_
  split
  · exact tallies_sleep hv hut
  refine tallies_changeCurrent (tallies_change fun s hs hinv => ?_)
  obtain ⟨hrunning, hcurrent, huploaded, -⟩ := own_eq hs
  have hfiles : (ut ::ₘ s.running).card + s.drive.card = s.files + 1 := by
    rw [card_cons, Nat.add_right_comm, State.files]
  refine ⟨⟨⟨?_, hinv.1.waiters, hinv.1.fresh⟩, rfl, fun _ h0 => ?_⟩, tallies_done ⟨?_, ?_⟩⟩
  · change s.filesuploading + 1 = UInt32.ofNat ((ut ::ₘ s.running).card + s.drive.card)
    rw [hfiles, UInt32.ofNat_add, hinv.1.files]
    rfl
  · exact absurd (hfiles.symm.trans h0) (Nat.succ_ne_zero _)
  · change s.bytestouploadcurrent = total Upload.filesize (ut ::ₘ s.running)
    rw [total_cons, hcurrent, hrunning, hv.current, UInt64.add_comm]
  · change s.bytesuploaded - total DriveUpload.asize s.drive =
      total Upload.uploaded (ut ::ₘ s.running)
    rw [total_cons, huploaded, hrunning, hv.uploaded, hut, UInt64.zero_add]

theorem tallies_noUploadsLoop (hv : v.Balanced) : Tallies noUploadsLoop v := by
  refine tallies_read fun _ _ _ => ?_
  split
  · exact tallies_sleep hv trivial
  · exact tallies_done hv

theorem tallies_afterWait (hfree : v.scheduler = .free)
    (h : ∀ w, Tallies k { v with waiters := w }) : Tallies (afterWait k) v := by
  refine tallies_write fun s hs hinv => ⟨⟨?_, rfl, fun _ h0 => h0⟩, ?_⟩
  · have hwoken : s.scheduler.woken = v.scheduler := (own_eq hs).2.2.2.2
    have hs := woken_eq_free.1 (hwoken.trans hfree)
    exact ⟨hinv.1.files, fun hne => absurd hs hne, hinv.1.fresh⟩
  · subst hs
    exact h _

theorem total_map {α : Type} {φ : α → UInt64} {g : α → α} (hg : ∀ a, φ (g a) = φ a)
    (m : Multiset α) : total φ (m.map g) = total φ m := by
  rw [total, Multiset.map_map]
  simp only [comp_def, hg, total]

theorem filesize_stopped (p : Upload → Bool) (ut : Upload) :
    (ut.stopped p).filesize = ut.filesize := by
  rw [Upload.stopped]
  split <;> rfl

theorem uploaded_stopped (p : Upload → Bool) (ut : Upload) :
    (ut.stopped p).uploaded = ut.uploaded := by
  rw [Upload.stopped]
  split <;> rfl

theorem asleep_stopped (c : Scheduler) (p : Upload → Bool) : (c.stopped p).asleep = c.asleep := by
  cases c <;> rfl

theorem fresh_stopped {c : Scheduler} {p : Upload → Bool} (h : c.Fresh) : (c.stopped p).Fresh := by
  cases c with
  | start ut b => exact (uploaded_stopped p ut).trans h
  | free | noUploads b => trivial

theorem tallies_stopUploads {p : Upload → Bool} (hv : v.Balanced) : Tallies (stopUploads p) v := by
  refine tallies_write fun s hs hinv => ?_
  subst hs
  have hfiles : (s.running.map (Upload.stopped p)).card + s.drive.card = s.files := by
    rw [card_map, State.files]
  refine ⟨⟨⟨?_, fun hne => hinv.1.waiters ?_, fresh_stopped hinv.1.fresh⟩, rfl,
    fun _ h0 => hfiles.symm.trans h0⟩, tallies_done ⟨?_, ?_⟩⟩
  · exact hinv.1.files.trans (congrArg UInt32.ofNat hfiles.symm)
  · exact fun hfree => hne (congrArg (Scheduler.stopped p) hfree)
  · exact hv.current.trans (total_map (filesize_stopped p) _).symm
  · exact hv.uploaded.trans (total_map (uploaded_stopped p) _).symm

/-! ## Sections under `upload_mutex` -/

theorem awake_of_wakes (h : Wakes k) (h0 : s.filesuploading = 0)
    (hw : s.currentUploadsWaiters ≠ 0) : (k.run s).scheduler.asleep = false := by
  have hsignal : ((signal .done).run s).scheduler.asleep = false := asleep_woken _
  cases h with
  | noUploads =>
    rw [wakeNoUploads, Section.run_read, if_pos h0, wakeWaiters, Section.run_read, if_pos hw,
      hsignal]
  | waiters => rw [wakeWaiters, Section.run_read, if_pos hw, hsignal]
  | signal => exact hsignal

theorem notes_done {w : Multiset DriveUpload} : Notes .done w := fun _ _ _ => trivial

theorem notes_change {act : State → State → State} {w : Multiset DriveUpload}
    (hread : ∀ s : State, s.drive = w → s.files = 0 → ¬ Wakes (.change act k))
    (h : ∀ s, s.drive = w → Inv s → Noted (.step act fun _ => k) s (act s s) k)
    (hk : ∀ s, s.drive = w → Notes k (act s s).drive) : Notes (.change act k) w :=
  fun s hs hinv => ⟨⟨hinv.1, rfl, fun h0 => .inr (.inr ⟨rfl, hread s hs h0⟩)⟩,
    fun s' hs' hinv' => ⟨h s' (hs'.trans hs) hinv', hk s' (hs'.trans hs)⟩⟩

theorem notes_signal {w : Multiset DriveUpload} : Notes (signal .done) w := fun _ _ hinv =>
  ⟨⟨hinv.1.woken, own_woken, fun _ => .inr (.inl (.inr rfl))⟩, notes_done⟩

theorem notes_wakeNoUploads {w : Multiset DriveUpload} : Notes wakeNoUploads w := by
  have hwaiters : Notes wakeWaiters w := by
    refine fun s _ hinv => ⟨⟨hinv.1, rfl, fun _ => ?_⟩, ?_⟩
    · dsimp only
      by_cases hw : s.currentUploadsWaiters ≠ 0
      · rw [if_pos hw]
        exact .inl .signal
      · exact .inr (.inl (.inl ⟨rfl, not_not.1 hw⟩))
    · dsimp only
      split
      · exact notes_signal
      · exact notes_done
  refine fun s hs hinv => ⟨⟨hinv.1, rfl, fun h0 => .inl ?_⟩, ?_⟩
  · dsimp only
    rw [if_pos (hinv.1.counter_zero h0)]
    exact .waiters
  · subst hs
    dsimp only
    split
    · exact hwaiters
    · exact notes_done

theorem not_wakes (h : ∀ s : State, (k.run { s with
    filesuploading := 0, currentUploadsWaiters := 1,
    scheduler := .noUploads true }).scheduler.asleep = true) : ¬ Wakes k := fun hwakes => by
  have hasleep := h initial
  rw [awake_of_wakes hwakes rfl Nat.one_ne_zero] at hasleep
  cases hasleep

theorem notes_psyncUploadIncUploads {size : UInt64} {w : Multiset DriveUpload} :
    Notes (psyncUploadIncUploads size) w := by
  refine notes_change (fun _ _ _ => not_wakes fun _ => rfl) (fun s _ hinv => ?_)
    fun _ _ => notes_done
  have hfiles : s.running.card + (({ size, asize := 0 } : DriveUpload) ::ₘ s.drive).card =
      s.files + 1 := by
    rw [card_cons, State.files, Nat.add_assoc]
  refine ⟨⟨?_, hinv.1.waiters, hinv.1.fresh⟩, ?_, fun h0 => ?_⟩
  · change s.filesuploading + 1 = UInt32.ofNat (s.running.card + _)
    rw [hfiles, UInt32.ofNat_add, hinv.1.files]
    rfl
  · simp [own]
  · exact absurd (hfiles.symm.trans h0) (Nat.succ_ne_zero _)

theorem total_of_zero {α : Type} {φ : α → UInt64} {m : Multiset α} (h : ∀ a ∈ m, φ a = 0) :
    total φ m = 0 := by
  induction m using Multiset.induction with
  | empty => rfl
  | cons a m ih =>
    rw [total_cons, h a (mem_cons_self a m), UInt64.zero_add]
    exact ih fun b hb => h b (mem_cons_of_mem hb)

theorem notes_psyncUploadDecUploadsCnt {ds w : Multiset DriveUpload} (hne : ds ≠ 0) (hds : ds ≤ w)
    (hzero : ∀ d ∈ ds, d.asize = 0) : Notes (psyncUploadDecUploadsCnt ds) w := by
  refine notes_change (fun s hs h0 => ?_) (fun s hs hinv => ?_) fun _ _ => notes_wakeNoUploads
  · obtain ⟨d, hd⟩ := exists_mem_of_ne_zero hne
    exact absurd h0 (files_ne_zero_of_drive (hs ▸ mem_of_le hds hd))
  · subst hs
    have hcard : s.files = s.running.card + (s.drive - ds).card + ds.card := by
      rw [State.files, Nat.add_assoc, card_sub hds,
        Nat.sub_add_cancel (card_le_card hds)]
    have hasize : total DriveUpload.asize (s.drive - ds) = total DriveUpload.asize s.drive := by
      conv_rhs => rw [← Multiset.sub_add_cancel hds, total_add, total_of_zero hzero]
      rw [UInt64.add_zero]
    refine ⟨⟨?_, hinv.1.waiters, hinv.1.fresh⟩, ?_, fun _ => .inl .noUploads⟩
    · change s.filesuploading - UInt32.ofNat ds.card =
        UInt32.ofNat (s.running.card + (s.drive - ds).card)
      rw [hinv.1.files, hcard, UInt32.ofNat_add, UInt32.add_sub_cancel]
    · dsimp only [own]
      rw [hasize]

/-- The drive changes the bytes of an upload and the counter by the same amount. -/
theorem notes_changeUploaded {f : UInt64 → UInt64} {asize : UInt64} {w : Multiset DriveUpload}
    (hd : d ∈ w) (hf : ∀ x, f x = x - d.asize + asize) : Notes (changeUploaded f
      (fun s => { s with drive := { d with asize } ::ₘ s.drive.erase d }) .done) w := by
  refine notes_change (fun s hs h0 => ?_) (fun s hs hinv => ?_) fun _ _ => notes_done
  · exact absurd h0 (files_ne_zero_of_drive (hs ▸ hd))
  · subst hs
    have hfiles : s.running.card + ({ d with asize } ::ₘ s.drive.erase d).card = s.files := by
      rw [card_erase_cons hd, State.files]
    refine ⟨⟨?_, hinv.1.waiters, hinv.1.fresh⟩, ?_, fun h0 => ?_⟩
    · exact hinv.1.files.trans (congrArg UInt32.ofNat hfiles.symm)
    · dsimp only [own]
      rw [hf, total_cons, total_erase hd]
      congr 1
      grind
    · exact absurd (hfiles.symm.trans h0) (files_ne_zero_of_drive hd)

/-! ## Sections entered -/

/-- The loop of `task_run_uploadfile` does not sleep when nothing is uploaded. -/
theorem awake_startLoop (hs : s.Sound) (hb : s.own.Balanced) (h0 : s.files = 0)
    (hfree : s.scheduler = .free) : ((startLoop ut).run s).scheduler.asleep = false := by
  obtain ⟨hcurrent, huploaded⟩ := hb.zero h0
  have hroom : ¬ s.filesuploading ≥ maxParallelUploads ∧
      ¬ s.bytestouploadcurrent - s.bytesuploaded > startNewUploadsTreshold := by
    rw [hs.counter_zero h0, hcurrent, huploaded]
    decide
  rw [startLoop, Section.run_ite]
  split
  · rw [Section.run_done, hfree]
    rfl
  · rw [Section.run_read, if_neg hroom.1, Section.run_read, Section.run_read, if_neg hroom.2]
    exact congrArg Scheduler.asleep hfree

theorem awake_noUploadsLoop (hs : s.Sound) (h0 : s.files = 0) (hfree : s.scheduler = .free) :
    (noUploadsLoop.run s).scheduler.asleep = false := by
  rw [noUploadsLoop, Section.run_read, if_neg (not_not.2 (hs.counter_zero h0)), Section.run_done,
    hfree]
  rfl

/-- A section entered under `current_uploads_mutex`, which is to make `upload_thread` sleep only
    when something is uploaded. -/
structure Entered (s s' : State) (p : Section State) : Prop where
  sound : s'.Sound
  drive : s'.drive = s.drive
  tallies : Tallies p s'.own
  asleep : (p.run s').scheduler.asleep = true → s'.files = 0 →
    s.scheduler.asleep = true ∧ s.files = 0

theorem entered_resume {loop : Section State} (hs : s.Sound)
    (hb : s.own.Balanced) (hloop : ∀ v : Own, v.Balanced → Tallies loop v)
    (hawake : ∀ t : State, t.Sound → t.own.Balanced → t.files = 0 → t.scheduler = .free →
      (loop.run t).scheduler.asleep = false) :
    Entered s { s with scheduler := .free } (afterWait loop) where
  sound := ⟨hs.files, fun hne => absurd rfl hne, trivial⟩
  drive := rfl
  tallies := tallies_afterWait rfl fun _ => hloop _ ⟨hb.current, hb.uploaded⟩
  asleep hasleep h0 := by
    have hawake := hawake { s with
      scheduler := .free, currentUploadsWaiters := s.currentUploadsWaiters - 1 }
      ⟨hs.files, fun hne => absurd rfl hne, trivial⟩ ⟨hb.current, hb.uploaded⟩ h0 rfl
    exact absurd hasleep (Bool.not_eq_true _ ▸ hawake)

theorem entered_currentUploads {a : Entry} {p : Section State} (hlock : a.lock = .currentUploads)
    (henter : enter a s = some (s', p)) (hs : s.Sound) (hb : s.own.Balanced) : Entered s s' p := by
  cases a with
  | run localfileid syncid filesize =>
    obtain ⟨hfree, ⟨⟩⟩ := ite_none_right_eq_some.1 henter
    refine ⟨hs, rfl, tallies_startLoop hb rfl, fun hasleep h0 => ?_⟩
    rw [awake_startLoop hs hb h0 hfree] at hasleep
    cases hasleep
  | waitNoUploads =>
    obtain ⟨hfree, ⟨⟩⟩ := ite_none_right_eq_some.1 henter
    refine ⟨hs, rfl, tallies_noUploadsLoop hb, fun hasleep h0 => ?_⟩
    rw [awake_noUploadsLoop hs h0 hfree] at hasleep
    cases hasleep
  | resume =>
    rw [enter] at henter
    split at henter
    · cases henter
    · next ut b hc =>
      cases henter
      have hfresh : ut.uploaded = 0 := by
        have hfresh := hs.fresh
        rw [hc] at hfresh
        exact hfresh
      exact entered_resume hs hb (fun v hv => tallies_startLoop hv hfresh)
        fun t ht hbt h0 hfree => awake_startLoop ht hbt h0 hfree
    · cases henter
      exact entered_resume hs hb (fun v hv => tallies_noUploadsLoop hv)
        fun t ht _ h0 hfree => awake_noUploadsLoop ht h0 hfree
  | addBytes ut bytes =>
    obtain ⟨hut, ⟨⟩⟩ := ite_none_right_eq_some.1 henter
    exact ⟨hs, rfl, tallies_addBytesUploaded hb hut,
      fun _ h0 => absurd h0 (files_ne_zero_of_running hut)⟩
  | changeFilesize ut fsize =>
    obtain ⟨hut, ⟨⟩⟩ := ite_none_right_eq_some.1 henter
    exact ⟨hs, rfl, tallies_changeFilesize hb hut,
      fun _ h0 => absurd h0 (files_ne_zero_of_running hut)⟩
  | finish ut =>
    obtain ⟨hut, ⟨⟩⟩ := ite_none_right_eq_some.1 henter
    exact ⟨hs, rfl, tallies_finish hb hut,
      fun _ h0 => absurd h0 (files_ne_zero_of_running hut)⟩
  | stop p =>
    cases henter
    refine ⟨hs, rfl, tallies_stopUploads hb, fun hasleep h0 => ⟨?_, h0⟩⟩
    exact (asleep_stopped s.scheduler p).symm.trans hasleep
  | incUploads | decUploads | decUploadsCnt | addBytesUploaded | subBytesUploaded => cases hlock

theorem entered_upload {a : Entry} {p : Section State} (hlock : a.lock = .upload)
    (henter : enter a s = some (s', p)) : s' = s ∧ Notes p s.drive := by
  cases a with
  | incUploads size =>
    cases henter
    exact ⟨rfl, notes_psyncUploadIncUploads⟩
  | decUploads d =>
    obtain ⟨⟨hd, hzero⟩, ⟨⟩⟩ := ite_none_right_eq_some.1 henter
    refine ⟨rfl, notes_psyncUploadDecUploadsCnt (singleton_ne_zero d)
      (singleton_le.2 hd) fun d' hd' => ?_⟩
    rw [mem_singleton.1 hd', hzero]
  | decUploadsCnt ds =>
    obtain ⟨⟨hne, hds, hzero⟩, ⟨⟩⟩ := ite_none_right_eq_some.1 henter
    exact ⟨rfl, notes_psyncUploadDecUploadsCnt hne hds hzero⟩
  | addBytesUploaded d bytes =>
    obtain ⟨hd, ⟨⟩⟩ := ite_none_right_eq_some.1 henter
    exact ⟨rfl, notes_changeUploaded hd fun x => by grind⟩
  | subBytesUploaded d =>
    obtain ⟨hd, ⟨⟩⟩ := ite_none_right_eq_some.1 henter
    exact ⟨rfl, notes_changeUploaded hd fun x => by grind⟩
  | run | waitNoUploads | resume | addBytes | changeFilesize | finish | stop => cases hlock

/-! ## Runs -/

/-- What a section under a mutex relies on. -/
def View : Lock → Type
  | .currentUploads => Own
  | .upload => Multiset DriveUpload

def view : (m : Lock) → State → View m
  | .currentUploads => State.own
  | .upload => State.drive

variable {R R' : InSections State Lock} {mv : SectionMove Lock Entry}

/-- When `psync_upload_dec_uploads` makes its broadcast, or finds nobody to wake, with no upload
    counted, `upload_thread` is not between its check and `pthread_cond_wait`: the section in
    progress does not make it sleep. -/
def NotMissed (R : InSections State Lock) : Prop :=
  LastChance (R.rest .upload) R.shared → R.shared.filesuploading = 0 →
    ((R.rest .currentUploads).run
      { R.shared with scheduler := R.shared.scheduler.woken }).scheduler.asleep = false

/-- The counters have room, no update is split by one of the same counter, and no broadcast falls
    between the check and the wait. -/
def Ok (R : InSections State Lock) (mv : SectionMove Lock Entry) : Prop :=
  R.shared.Fits ∧ Sections.Fresh R mv ∧ (mv = .access .upload → NotMissed R)

/-- What holds in runs. -/
structure Kept (R : InSections State Lock) : Prop where
  sound : R.shared.Sound
  safe : Sections.AllSafe view Inv Keeps R
  wakes : ((R.rest .currentUploads).run R.shared).scheduler.asleep = true → R.shared.files = 0 →
    Wakes (R.rest .upload)

theorem Kept.balanced (h : Kept R) (hfit : R.shared.Fits)
    (hdone : R.rest .currentUploads = .done) : R.shared.own.Balanced := by
  have hsafe := h.safe .currentUploads
  rw [hdone] at hsafe
  exact hsafe R.shared rfl ⟨h.sound, hfit⟩

theorem not_wakes_done : ¬ Wakes .done := not_wakes fun _ => rfl

theorem allSafe_moved (h : Kept R) (hok : Ok R mv) (hs : sections.moved R mv = some R') :
    Sections.AllSafe view Inv Keeps R' := by
  refine Sections.safe_moved ⟨h.sound, hok.1⟩ (fun a s p henter hdone => ?_)
    (fun m act next hkeeps m' hne => ?_) hok.2.1 hs h.safe
  · change enter a R.shared = some (s, p) at henter
    rcases hlock : a.lock with _ | _
    · have hlock' : sections.mutex a = .currentUploads := hlock
      rw [hlock'] at hdone ⊢
      have ha := entered_currentUploads hlock henter h.sound
        (hdone R.shared rfl ⟨h.sound, hok.1⟩)
      refine ⟨ha.tallies, fun m hm => ?_⟩
      cases m with
      | currentUploads => exact absurd rfl hm
      | upload => exact ha.drive
    · have hlock' : sections.mutex a = .upload := hlock
      rw [hlock']
      obtain ⟨rfl, hnotes⟩ := entered_upload hlock henter
      exact ⟨hnotes, fun _ _ => rfl⟩
  · cases m with
    | currentUploads =>
      cases m' with
      | currentUploads => exact absurd rfl hne
      | upload => exact hkeeps.drive
    | upload =>
      cases m' with
      | currentUploads => exact hkeeps.own
      | upload => exact absurd rfl hne

theorem Kept.moved (h : Kept R) (hok : Ok R mv) (hs : sections.moved R mv = some R') : Kept R' := by
  have hsafe := allSafe_moved h hok hs
  rcases Sections.moved_cases hok.2.1 hs with ⟨a, p, -, hdone, henter, hrest⟩ |
    ⟨m, -, hshared, hrest⟩ | ⟨m, act, next, hmv, hrestm, hshared, hrest⟩
  · change enter a R.shared = some (R'.shared, p) at henter
    rcases hlock : a.lock with _ | _
    · have hlock' : sections.mutex a = .currentUploads := hlock
      rw [hlock'] at hdone hrest
      have ha := entered_currentUploads hlock henter h.sound (h.balanced hok.1 hdone)
      refine ⟨ha.sound, hsafe, fun hasleep h0 => ?_⟩
      rw [hrest, update_self] at hasleep
      rw [hrest, update_of_ne (Lock.noConfusion)]
      obtain ⟨hasleep, h0⟩ := ha.asleep hasleep h0
      exact h.wakes (by rwa [hdone]) h0
    · have hlock' : sections.mutex a = .upload := hlock
      rw [hlock'] at hdone hrest
      obtain ⟨hshared, -⟩ := entered_upload hlock henter
      refine ⟨hshared ▸ h.sound, hsafe, fun hasleep h0 => ?_⟩
      rw [hrest, update_of_ne (Lock.noConfusion), hshared] at hasleep
      exact absurd (hdone ▸ h.wakes hasleep (hshared ▸ h0)) not_wakes_done
  · exact ⟨hshared ▸ h.sound, hsafe, by rw [hrest, hshared]; exact h.wakes⟩
  · obtain ⟨hkeeps, -⟩ := h.safe.next ⟨h.sound, hok.1⟩ hrestm
    cases m with
    | currentUploads =>
      have hkeeps : Tallied R.shared (act R.shared R.shared) (next R.shared) := hkeeps
      refine ⟨hshared ▸ hkeeps.sound, hsafe, ?_⟩
      rw [hrest, hshared, update_self, update_of_ne (Lock.noConfusion)]
      refine fun hasleep h0 => h.wakes ?_ (hkeeps.files hasleep h0)
      rw [hrestm]
      exact hasleep
    | upload =>
      have hkeeps : Noted (.step act next) R.shared (act R.shared R.shared) (next R.shared) :=
        hkeeps
      refine ⟨hshared ▸ hkeeps.sound, hsafe, ?_⟩
      rw [hrest, hshared, update_self, update_of_ne (Lock.noConfusion)]
      intro hasleep h0
      rcases hkeeps.wakes h0 with hwakes | hlast | ⟨hsame, hnot⟩
      · exact hwakes
      · rw [hlast.act_eq h.sound] at hasleep h0
        have hawake := hok.2.2 hmv (hrestm ▸ hlast) (h.sound.counter_zero h0)
        exact absurd (hawake.symm.trans hasleep) Bool.false_ne_true
      · rw [hsame] at hasleep h0
        exact absurd (hrestm ▸ h.wakes hasleep h0) hnot

theorem kept_of_fresh (h : sections.machine.Reachable Ok R) : Kept R := by
  refine h.invariant (fun R hR => ?_) fun R mv R' hR hok hs => hR.moved hok hs
  obtain ⟨hinit, hidle⟩ := hR
  have hinit : R.shared = initial := hinit
  have hrest : ∀ m, R.rest m = .done := fun m => InSections.rest_of_none (hidle m)
  refine ⟨?_, fun m => ?_, fun hasleep => ?_⟩
  · rw [hinit]
    exact ⟨rfl, fun hne => absurd rfl hne, trivial⟩
  · rw [hrest, hinit]
    cases m with
    | currentUploads => exact tallies_done ⟨rfl, rfl⟩
    | upload => exact notes_done
  · rw [hrest, hinit] at hasleep
    cases hasleep

/-- What is left of a section in progress wakes `upload_thread`. -/
def WakeUp (R : InSections State Lock) : Prop :=
  ∃ m, ((R.rest m).run R.shared).scheduler.asleep = false

theorem Kept.wakeUp (h : Kept R) (hstuck : R.shared.Stuck) : WakeUp R := by
  obtain ⟨hasleep, -, h0⟩ := hstuck
  by_cases hown : ((R.rest .currentUploads).run R.shared).scheduler.asleep = true
  · exact ⟨.upload, awake_of_wakes (h.wakes hown h0) (h.sound.counter_zero h0)
      (h.sound.waiters (ne_free_of_asleep hasleep))⟩
  · exact ⟨.currentUploads, Bool.eq_false_iff.2 hown⟩

/-- In runs in which no update of a counter is split by one of the same counter and no broadcast
    falls between the check and the wait, `filesuploading` is right at any time, the counters of
    bytes while no section under `current_uploads_mutex` is in progress, `bytestouploadcurrent` for
    the uploads of the synced folders: so all are right if and only if no bytes of files are
    uploaded by the drive. When `upload_thread` sleeps though nothing is uploaded, a wake-up is on
    its way. -/
theorem accounted_of_fresh (h : sections.machine.Reachable Ok R) (hfit : R.shared.Fits) :
    R.shared.filesuploading.toNat = R.shared.files ∧
      (R.inside .currentUploads = none →
        R.shared.bytestouploadcurrent.toNat = R.shared.syncSizes ∧
          R.shared.bytesuploaded.toNat = R.shared.bytes ∧
            (R.shared.Accounted ↔ R.shared.driveSizes = 0)) ∧
      (R.shared.Stuck → WakeUp R) := by
  have hkept := kept_of_fresh h
  obtain ⟨hfiles, hbytes, hsizes⟩ := id hfit
  have hf : R.shared.filesuploading.toNat = R.shared.files := by
    rw [hkept.sound.files]
    exact UInt32.toNat_ofNat_of_lt' (Nat.lt_of_succ_lt hfiles)
  refine ⟨hf, fun hnone => ?_, hkept.wakeUp⟩
  have hb := hkept.balanced hfit (InSections.rest_of_none hnone)
  have hcur : R.shared.bytestouploadcurrent.toNat = R.shared.syncSizes := by
    have hsum : R.shared.bytestouploadcurrent = total Upload.filesize R.shared.running := hb.current
    rw [hsum]
    exact UInt64.toNat_ofNat_of_lt' (lt_of_le_of_lt (Nat.le_add_right _ _) hsizes)
  have hup : R.shared.bytesuploaded.toNat = R.shared.bytes := by
    have hown : R.shared.bytesuploaded - total DriveUpload.asize R.shared.drive =
        total Upload.uploaded R.shared.running := hb.uploaded
    have hsum : R.shared.bytesuploaded = UInt64.ofNat R.shared.bytes := by
      rw [← UInt64.sub_add_cancel R.shared.bytesuploaded (total DriveUpload.asize R.shared.drive),
        hown, State.bytes, UInt64.ofNat_add]
      rfl
    rw [hsum]
    exact UInt64.toNat_ofNat_of_lt' hbytes
  refine ⟨hcur, hup, fun ha => ?_, fun h0 => ⟨hf, by rw [hcur, h0]; rfl, hup⟩⟩
  have heq := ha.bytestouploadcurrent
  omega

/-- Nothing is uploaded and no section is in progress. -/
def idle : InSections State Lock := ⟨initial, fun _ => none⟩

/-- A move meets the conditions where no section in progress makes `upload_thread` sleep. -/
theorem ok_move {a : SectionMove Lock Entry} (hfit : R.shared.Fits) (hfresh : Sections.Fresh R a)
    (hawake : ((R.rest .currentUploads).run
      { R.shared with scheduler := R.shared.scheduler.woken }).scheduler.asleep = false) :
    Ok R a :=
  ⟨hfit, hfresh, fun _ _ _ => hawake⟩

/-- `task_run_uploadfile` has counted the 5 bytes of an upload, the drive counts the upload of a
    file of 3 bytes, then `task_run_uploadfile` counts its upload. -/
theorem accounted_of_fresh_overlap : ∃ R : InSections State Lock,
    R.shared.filesuploading.toNat = 2 ∧ R.shared.bytestouploadcurrent.toNat = 5 ∧
      (R.shared.Accounted ↔ R.shared.driveSizes = 0) ∧ (R.shared.Stuck → WakeUp R) := by
  have hruns : sections.machine.Runs Ok idle (.enter (.run 1 1 5) ::
      List.replicate 5 (.access .currentUploads) ++ .enter (.incUploads 3) ::
      List.replicate 2 (.access .upload) ++ List.replicate 3 (.access .currentUploads)) _ :=
    .cons (ok_move (by decide) trivial rfl) rfl <|
    .cons (ok_move (by decide) (fun _ _ _ h => by cases h; rfl) rfl) rfl <|
    .cons (ok_move (by decide) (fun _ _ _ h => by cases h; rfl) rfl) rfl <|
    .cons (ok_move (by decide) (fun _ _ _ h => by cases h; rfl) rfl) rfl <|
    .cons (ok_move (by decide) (fun _ _ _ h => by cases h; rfl) rfl) rfl <|
    .cons (ok_move (by decide) (fun _ _ _ h => by cases h; rfl) rfl) rfl <|
    .cons (ok_move (by decide) trivial rfl) rfl <|
    .cons (ok_move (by decide) (fun _ _ _ h => by cases h; rfl) rfl) rfl <|
    .cons (ok_move (by decide) (fun _ _ _ h => by cases h; rfl) rfl) rfl <|
    .cons (ok_move (by decide) (fun _ _ _ h => by cases h; rfl) rfl) rfl <|
    .cons (ok_move (by decide) (fun _ _ _ h => by cases h; rfl) rfl) rfl <|
    .cons (ok_move (by decide) (fun _ _ _ h => by cases h) rfl) rfl .nil
  obtain ⟨hfiles, hcounters, hwake⟩ :=
    accounted_of_fresh (.runs (.init (s := idle) ⟨rfl, fun _ => rfl⟩) hruns) (by decide)
  obtain ⟨hcurrent, -, hiff⟩ := hcounters rfl
  exact ⟨_, hfiles, hcurrent, hiff, hwake⟩

/-- `task_run_uploadfile` has read `filesuploading`, the drive starts to upload a file, then
    `task_run_uploadfile` writes what it computed. -/
def overlap : List (SectionMove Lock Entry) :=
  .enter (.run 1 1 5) :: List.replicate 6 (.access .currentUploads) ++
    .enter (.incUploads 0) :: List.replicate 3 (.access .upload) ++
    List.replicate 2 (.access .currentUploads)

/-- Two files are uploaded, and one is counted. -/
theorem update_lost : ¬ ∀ R : InSections State Lock,
    sections.machine.Reachable (fun _ _ => True) R → R.Idle → R.shared.Accounted := by
  intro h
  obtain ⟨R, hR, hidle, hfiles, hcount⟩ : ∃ R, sections.machine.run idle overlap = some R ∧
      R.Idle ∧ R.shared.files = 2 ∧ R.shared.filesuploading = 1 :=
    ⟨_, rfl, fun m => by cases m <;> rfl, rfl, rfl⟩
  have h₀ : sections.machine.Reachable (fun _ _ => True) idle := .init ⟨rfl, fun _ => rfl⟩
  have ha := (h R (.of_run h₀ hR) hidle).filesuploading
  rw [hfiles, hcount] at ha
  cases ha

end Pclsync.Uploads
