import Pclsync.CriticalSections
import Mathlib.Data.Multiset.MapFold

/-!
# Counters of uploads

`pupload.c` counts the files which are being uploaded and their bytes in `psync_status`. The threads
of the synced folders do it under `current_uploads_mutex`; the drive (`pfsupload.c`) calls
`psync_upload_inc_uploads` and so on, which do it under `upload_mutex`.

The sections of both mutexes are given access by access: `x-=y` reads the counter and then writes
it. One thread, `upload_thread`, starts the uploads of the synced folders. It is the only one which
waits on `current_uploads_cond`: for room for one more upload (`task_run_uploadfile`), or for no
upload to be running (`task_wait_no_uploads`).

The uploads which are running are kept besides: an upload is one of them from the access that counts
it in `filesuploading` to the one that counts it off, and its bytes are those added to
`bytesuploaded`. Those of the drive have the size of the file, for which there is no call.
-/

namespace Pclsync.Uploads

/-- `upload_list_t`; the fields which the counters do not depend on are left out. -/
structure Upload where
  localfileid : ℕ
  syncid : ℕ
  filesize : UInt64
  uploaded : UInt64
  stop : Bool
  deriving DecidableEq

/-- An upload of the drive which is running: the size of the file and `asize`. -/
structure DriveUpload where
  size : UInt64
  asize : UInt64
  deriving DecidableEq

/-- Where `upload_thread` is; in `pthread_cond_wait` it is asleep until it is woken. -/
inductive Scheduler
  | free
  /-- It waits in the loop of `task_run_uploadfile`, with the upload in the list. -/
  | start (ut : Upload) (asleep : Bool)
  /-- It waits in the loop of `task_wait_no_uploads`. -/
  | noUploads (asleep : Bool)
  deriving DecidableEq

/-- The counters of `psync_status`, the number of waiters and the uploads. -/
structure State where
  filesuploading : UInt32
  bytestouploadcurrent : UInt64
  bytesuploaded : UInt64
  currentUploadsWaiters : ℕ
  scheduler : Scheduler
  /-- The list `uploads`, but for the upload of `upload_thread`. -/
  running : Multiset Upload
  drive : Multiset DriveUpload

/-- The two mutexes. -/
inductive Lock
  | currentUploads
  | upload
  deriving DecidableEq

/-- `PSYNC_MAX_PARALLEL_UPLOADS`. -/
def maxParallelUploads : UInt32 := 32

/-- `PSYNC_START_NEW_UPLOADS_TRESHOLD`. -/
def startNewUploadsTreshold : UInt64 := 512 * 1024

/-- `pthread_cond_signal` and `pthread_cond_broadcast` on `current_uploads_cond`. -/
def Scheduler.woken : Scheduler → Scheduler
  | .free => .free
  | .start ut _ => .start ut false
  | .noUploads _ => .noUploads false

/-- `upl->stop=1`, for the uploads chosen. -/
def Upload.stopped (p : Upload → Bool) (ut : Upload) : Upload :=
  if p ut then { ut with stop := true } else ut

/-- `upl->stop=1`, for the upload of `upload_thread`. -/
def Scheduler.stopped (p : Upload → Bool) : Scheduler → Scheduler
  | .start ut asleep => .start (ut.stopped p) asleep
  | s => s

/-! ## Accesses -/

/-- `psync_status.filesuploading=…`, computed from the counter; `g` is what becomes of the uploads.
    -/
def changeFiles (f : UInt32 → UInt32) (g : State → State) (k : Section State) : Section State :=
  .change (fun old s => g { s with filesuploading := f old.filesuploading }) k

/-- `psync_status.bytestouploadcurrent=…`, computed from the counter. -/
def changeCurrent (f : UInt64 → UInt64) (g : State → State) (k : Section State) : Section State :=
  .change (fun old s => g { s with bytestouploadcurrent := f old.bytestouploadcurrent }) k

/-- `psync_status.bytesuploaded=…`, computed from the counter. -/
def changeUploaded (f : UInt64 → UInt64) (g : State → State) (k : Section State) : Section State :=
  .change (fun old s => g { s with bytesuploaded := f old.bytesuploaded }) k

/-- The condition of `current_uploads_cond` is signalled. -/
def signal (k : Section State) : Section State :=
  .write (fun s => { s with scheduler := s.scheduler.woken }) k

/-! ## Sections under `upload_mutex` -/

/-- `psync_upload_inc_uploads`, for a file of a size. -/
def psyncUploadIncUploads (size : UInt64) : Section State :=
  changeFiles (· + 1) (fun s => { s with drive := { size, asize := 0 } ::ₘ s.drive }) .done

/-- Wake who waits for no uploads, when there is somebody. -/
def wakeWaiters : Section State :=
  .read State.currentUploadsWaiters fun w => if w ≠ 0 then signal .done else .done

/-- The end of `psync_upload_dec_uploads`: wake who waits for no uploads. -/
def wakeNoUploads : Section State :=
  .read State.filesuploading fun n => if n = 0 then wakeWaiters else .done

/-- `psync_upload_dec_uploads_cnt`, for these uploads; `psync_upload_dec_uploads` is the same for
    one. -/
def psyncUploadDecUploadsCnt (ds : Multiset DriveUpload) : Section State :=
  changeFiles (· - UInt32.ofNat ds.card) (fun s => { s with drive := s.drive - ds }) wakeNoUploads

/-- `psync_upload_dec_uploads`. -/
def psyncUploadDecUploads (d : DriveUpload) : Section State := psyncUploadDecUploadsCnt {d}

/-- `psync_upload_add_bytes_uploaded`, for an upload. -/
def psyncUploadAddBytesUploaded (d : DriveUpload) (bytes : UInt64) : Section State :=
  changeUploaded (· + bytes)
    (fun s => { s with drive := { d with asize := d.asize + bytes } ::ₘ s.drive.erase d }) .done

/-- `psync_upload_sub_bytes_uploaded`, for the bytes of an upload. -/
def psyncUploadSubBytesUploaded (d : DriveUpload) : Section State :=
  changeUploaded (· - d.asize)
    (fun s => { s with drive := { d with asize := 0 } ::ₘ s.drive.erase d }) .done

/-! ## Sections under `current_uploads_mutex` -/

/-- `wake_upload_when_ready`. -/
def wakeUploadWhenReady : Section State :=
  .read State.currentUploadsWaiters fun w =>
    if w = 0 then .done
    else .read State.filesuploading fun n =>
      if n < maxParallelUploads then
        .read State.bytestouploadcurrent fun c =>
          .read State.bytesuploaded fun u =>
            if c - u ≤ startNewUploadsTreshold then signal .done else .done
      else .done

/-- `add_bytes_uploaded`, for an upload. -/
def addBytesUploaded (ut : Upload) (bytes : UInt64) : Section State :=
  changeUploaded (· + bytes)
    (fun s => { s with
      running := { ut with uploaded := ut.uploaded + bytes } ::ₘ s.running.erase ut })
    wakeUploadWhenReady

/-- The section of `task_uploadfile`: the size of the file is not the one it was started with. -/
def changeFilesize (ut : Upload) (fsize : UInt64) : Section State :=
  changeCurrent (· - ut.filesize) id <| changeCurrent (· + fsize)
    (fun s => { s with running := { ut with filesize := fsize } ::ₘ s.running.erase ut }) .done

/-- The counters of bytes are reset, as the access before found no upload. -/
def reset (k : Section State) : Section State :=
  .step (fun old s => if old.filesuploading = 0 then { s with bytesuploaded := 0 } else s) fun _ =>
    .write (fun s => { s with bytestouploadcurrent := 0 }) k

/-- The section at the end of `task_run_upload_file_thread`. -/
def finish (ut : Upload) : Section State :=
  changeCurrent (· - ut.filesize) id <| changeUploaded (· - ut.uploaded) id <|
    changeFiles (· - 1) (fun s => { s with running := s.running.erase ut }) <|
      .read State.filesuploading fun n =>
        if n = 0 then reset wakeUploadWhenReady else wakeUploadWhenReady

/-- `pthread_cond_wait`: sleep, with the mutex released. -/
def sleep (asleep : Scheduler) : Section State :=
  .write (fun s => { s with currentUploadsWaiters := s.currentUploadsWaiters + 1 }) <|
    .write (fun s => { s with scheduler := asleep }) .done

/-- The loop of `task_run_uploadfile`, to where it sleeps or ends, and what follows it. -/
def startLoop (ut : Upload) : Section State :=
  if ut.stop then .done
  else .read State.filesuploading fun n =>
    if n ≥ maxParallelUploads then sleep (.start ut true)
    else .read State.bytestouploadcurrent fun c =>
      .read State.bytesuploaded fun u =>
        if c - u > startNewUploadsTreshold then sleep (.start ut true)
        else changeCurrent (· + ut.filesize) id <| changeFiles (· + 1)
          (fun s => { s with running := ut ::ₘ s.running }) .done

/-- The loop of `task_wait_no_uploads`. -/
def noUploadsLoop : Section State :=
  .read State.filesuploading fun n => if n ≠ 0 then sleep (.noUploads true) else .done

/-- After `pthread_cond_wait`, in the loop where `upload_thread` is. -/
def afterWait (k : Section State) : Section State :=
  .write (fun s => { s with currentUploadsWaiters := s.currentUploadsWaiters - 1 }) k

/-- `psync_delete_upload_tasks_for_file`, `psync_stop_sync_upload` and `psync_stop_all_upload`. -/
def stopUploads (p : Upload → Bool) : Section State :=
  .write (fun s =>
    { s with scheduler := s.scheduler.stopped p, running := s.running.map (Upload.stopped p) })
      .done

/-! ## Threads -/

/-- The sections which threads enter. -/
inductive Entry
  /-- `task_run_uploadfile`. -/
  | run (localfileid syncid : ℕ) (filesize : UInt64)
  /-- `task_wait_no_uploads`. -/
  | waitNoUploads
  /-- `upload_thread` is woken, or wakes by itself. -/
  | resume
  | addBytes (ut : Upload) (bytes : UInt64)
  | changeFilesize (ut : Upload) (fsize : UInt64)
  | finish (ut : Upload)
  | stop (p : Upload → Bool)
  /-- The drive starts to upload a file of a size. -/
  | incUploads (size : UInt64)
  | decUploads (d : DriveUpload)
  /-- A number of files end at once. -/
  | decUploadsCnt (ds : Multiset DriveUpload)
  | addBytesUploaded (d : DriveUpload) (bytes : UInt64)
  | subBytesUploaded (d : DriveUpload)

/-- The mutex of a section. -/
def Entry.lock : Entry → Lock
  | .run _ _ _ | .waitNoUploads | .resume | .addBytes _ _ | .changeFilesize _ _ | .finish _
  | .stop _ => .currentUploads
  | .incUploads _ | .decUploads _ | .decUploadsCnt _ | .addBytesUploaded _ _
  | .subBytesUploaded _ => .upload

/-- The section of a thread, when the thread is there. An upload of the drive takes back its bytes
    before it ends. -/
def enter (a : Entry) (s : State) : Option (State × Section State) :=
  match a with
  | .run localfileid syncid filesize =>
    if s.scheduler = .free then
      some (s, startLoop { localfileid, syncid, filesize, uploaded := 0, stop := false })
    else none
  | .waitNoUploads => if s.scheduler = .free then some (s, noUploadsLoop) else none
  | .resume =>
    match s.scheduler with
    | .free => none
    | .start ut _ => some ({ s with scheduler := .free }, afterWait (startLoop ut))
    | .noUploads _ => some ({ s with scheduler := .free }, afterWait noUploadsLoop)
  | .addBytes ut bytes => if ut ∈ s.running then some (s, addBytesUploaded ut bytes) else none
  | .changeFilesize ut fsize =>
    if ut ∈ s.running then some (s, changeFilesize ut fsize) else none
  | .finish ut => if ut ∈ s.running then some (s, finish ut) else none
  | .stop p => some (s, stopUploads p)
  | .incUploads size => some (s, psyncUploadIncUploads size)
  | .decUploads d =>
    if d ∈ s.drive ∧ d.asize = 0 then some (s, psyncUploadDecUploads d) else none
  | .decUploadsCnt ds =>
    if ds ≠ 0 ∧ ds ≤ s.drive ∧ ∀ d ∈ ds, d.asize = 0 then some (s, psyncUploadDecUploadsCnt ds)
    else none
  | .addBytesUploaded d bytes =>
    if d ∈ s.drive then some (s, psyncUploadAddBytesUploaded d bytes) else none
  | .subBytesUploaded d => if d ∈ s.drive then some (s, psyncUploadSubBytesUploaded d) else none

/-- The counters at the start. -/
def initial : State where
  filesuploading := 0
  bytestouploadcurrent := 0
  bytesuploaded := 0
  currentUploadsWaiters := 0
  scheduler := .free
  running := 0
  drive := 0

/-- The sections of the threads which upload. -/
def sections : Sections State Lock Entry where
  init s := s = initial
  mutex := Entry.lock
  enter := enter

end Pclsync.Uploads
