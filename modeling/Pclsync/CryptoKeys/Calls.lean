import Pclsync.Transition
import Mathlib.Data.Multiset.Filter

/-!
# Keys and encoders

`pcloudcrypto.c` hands out encoders and decoders which are made from the keys of folders and files.
The keys are decrypted with the private key, which is there from `psync_cloud_crypto_start` to
`psync_cloud_crypto_stop`; keys, encoders and decoders are kept in the cache in between.

A call is given by where it is (`Call`); the steps of different calls come in any order. The flag
`crypto_started_l` and the private key change under the write lock of `crypto_lock` only, and the
getters take the read lock; `crypto_started_un` is read and written without a lock. What is under
the write lock is one step.

An encoder is represented by the key it was made from, and keys have the type `κ`. `keyOf` has the
keys of the revisions of files. A log, which nothing reads, has what is returned and whether the
private key was there when it was used.
-/

namespace Pclsync.CryptoKeys

/-- The name of a key. -/
inductive KeyName
  /-- `FKEY`. -/
  | folder (id : ℤ)
  /-- `DKEY`, of a file and a hash. -/
  | file (id : ℤ) (hash : ℕ)
  deriving DecidableEq

/-- The names in the cache. -/
inductive CacheName
  | key (n : KeyName)
  /-- `FLDD`. -/
  | decoder (id : ℤ)
  /-- `FLDE`. -/
  | encoder (id : ℤ)
  /-- `SEEN`. -/
  | sector (id : ℤ) (hash : ℕ)
  deriving DecidableEq

/-- What is asked for. -/
inductive Query
  | folderDecoder (id : ℤ)
  | folderEncoder (id : ℤ)
  | fileEncoder (id : ℤ) (hash : ℕ) (nonetwork : Bool)
  deriving DecidableEq

namespace Query

/-- The folder or file. -/
def id : Query → ℤ
  | folderDecoder id | folderEncoder id | fileEncoder id _ _ => id

/-- The name under which an encoder or decoder is kept. -/
def cacheName : Query → CacheName
  | folderDecoder id => .decoder id
  | folderEncoder id => .encoder id
  | fileEncoder id hash _ => .sector id hash

/-- The name of the key. -/
def keyName : Query → KeyName
  | folderDecoder id | folderEncoder id => .folder id
  | fileEncoder id hash _ => .file id hash

/-- A key which has to be downloaded is not waited for. -/
def nonetwork : Query → Bool
  | folderDecoder _ | folderEncoder _ => false
  | fileEncoder _ _ b => b

end Query

/-- A call in progress. -/
inductive Call (κ : Type)
  /-- A getter which has seen `crypto_started_un`, before it looks into the cache. -/
  | cache (q : Query)
  /-- Before the read lock. -/
  | lock (q : Query)
  /-- With the read lock. -/
  | locked (q : Query)
  /-- The key is not in the cache. -/
  | fetch (q : Query) (n : KeyName)
  /-- The encrypted key is there; the name is that under which the key is kept. -/
  | decrypt (q : Query) (n : Option KeyName) (k : κ)
  /-- The key is there. -/
  | key (q : Query) (n : Option KeyName) (k : κ)
  /-- Before the read lock is released, with what is returned. -/
  | unlock (q : Query) (enc : Option κ)
  /-- `psync_cloud_crypto_get_file_encoder_from_binresult`, before the read lock. -/
  | binLock (id : ℤ) (hash : ℕ) (k : κ)
  | binLocked (id : ℤ) (hash : ℕ) (k : κ)
  /-- The release of an encoder, after `crypto_started_un` was seen. -/
  | release (q : Query) (k : κ)
  /-- `psync_cloud_crypto_stop`, before the write lock. -/
  | stopping
  /-- Before `psync_cloud_crypto_clean_cache`. -/
  | cleaning
  | returning
  deriving DecidableEq

/-- What a getter returned: no encoder when it failed, or the key has to be downloaded first; and
    whether a stop had returned since the last start. -/
structure Returned (κ : Type) where
  query : Query
  enc : Option κ
  stopped : Bool

/-- The shared variables, the tables, the calls in progress and the encoders handed out. -/
structure State (κ : Type) where
  /-- `crypto_started_un`. -/
  startedUn : Bool
  /-- `crypto_started_l`. -/
  startedL : Bool
  /-- `crypto_privkey` is valid. -/
  privkey : Bool
  /-- The read locks of `crypto_lock`. -/
  readers : ℕ
  cache : List (CacheName × κ)
  /-- `cryptofilekey`. -/
  cryptofilekey : List (ℤ × ℕ × κ)
  /-- The tasks of `save_file_key_to_db`. -/
  saves : List (ℤ × ℕ × κ)
  /-- The hash of the last revision of a file, on the server. -/
  current : ℤ → ℕ
  calls : Multiset (Call κ)
  held : Multiset (Query × κ)
  stopped : Bool
  returned : List (Returned κ)
  used : List Bool

/-- What a step of a call finds outside: the key of a folder, in the database or on the server, or
    the key of a pending file or folder; the revision of a pending change; whether the server
    answers; whether a key has the right format. -/
structure Outcome (κ : Type) where
  key : Option κ
  modify : Option (ℤ × ℕ)
  online : Bool
  good : Bool

/-- The steps. -/
inductive Action (κ : Type)
  /-- `psync_cloud_crypto_start`, and whether it succeeds. -/
  | start (ok : Bool)
  | stop
  | stopLock
  | stopClean
  | stopReturn
  /-- A getter is called. -/
  | get (q : Query)
  | fromBinresult (id : ℤ) (hash : ℕ)
  /-- A getter or a release goes on. -/
  | go (c : Call κ) (o : Outcome κ)
  /-- An encoder is given back. -/
  | release (q : Query) (k : κ)
  /-- An encoder is freed by who has it. -/
  | free (q : Query) (k : κ)
  /-- `save_file_key_task`: the row of a file is replaced. -/
  | save (row : ℤ × ℕ × κ)
  /-- A row of `cryptofilekey` is deleted, as when the file was modified. -/
  | forget (row : ℤ × ℕ × κ)
  /-- The cache lets an entry go. -/
  | expire (e : CacheName × κ)
  /-- A file has a new revision. -/
  | revise (id : ℤ) (hash : ℕ)

namespace State

variable {κ : Type} [DecidableEq κ] (keyOf : ℤ → ℕ → κ) (S : State κ)

/-- A call goes on to `c'`. -/
def become (c c' : Call κ) : State κ := { S with calls := c' ::ₘ S.calls.erase c }

/-- `psync_cache_add`, of at most two entries with a name. -/
def cacheAdd (n : CacheName) (k : κ) : State κ :=
  if (S.cache.filter fun e => e.1 = n).length < 2 then { S with cache := (n, k) :: S.cache } else S

/-- `psync_cache_get`: the entry is taken out. -/
def cacheGet (n : CacheName) : Option (κ × State κ) :=
  (S.cache.find? fun e => e.1 = n).map fun e => (e.2, { S with cache := S.cache.erase e })

/-- The call is over, and returns. -/
def finish (c : Call κ) (q : Query) (enc : Option κ) : State κ :=
  { S with
    calls := S.calls.erase c
    held := match enc with
      | some k => (q, k) ::ₘ S.held
      | none => S.held
    returned := { query := q, enc := enc, stopped := S.stopped } :: S.returned }

/-- `psync_crypto_get_folder_symkey_locked` and `psync_crypto_get_file_symkey_locked`: a key is
    looked for in the cache. -/
def symkey (c : Call κ) (q : Query) (n : KeyName) : State κ :=
  match S.cacheGet (.key n) with
  | some (k, S) => S.become c (.key q (some n) k)
  | none => S.become c (.fetch q n)

/-- The key of `cryptofilekey`. -/
def fileKey (id : ℤ) (hash : ℕ) : Option κ :=
  (S.cryptofilekey.find? fun r => r.1 = id ∧ r.2.1 = hash).map fun r => r.2.2

/-- `psync_crypto_get_folder_enc_key` and `psync_crypto_get_file_enc_key`: the key which is
    downloaded is that of the last revision of the file, and it is saved as such. -/
def fetch (c : Call κ) (q : Query) (n : KeyName) (o : Outcome κ) : State κ :=
  match n with
  | .folder _ =>
    match o.key with
    | some k => S.become c (.decrypt q (some n) k)
    | none => S.become c (.unlock q none)
  | .file id hash =>
    match S.fileKey id hash with
    | some k => S.become c (.decrypt q (some n) k)
    | none =>
      if q.nonetwork ∨ ¬ o.online then S.become c (.unlock q none)
      else
        let k := keyOf id (S.current id)
        { S with saves := (id, S.current id, k) :: S.saves }.become c (.decrypt q (some n) k)

/-- With the read lock: `crypto_started_l` makes no difference. -/
def locked (c : Call κ) (q : Query) (o : Outcome κ) : State κ :=
  if q.id = 0 then S.become c (.unlock q none)
  else if q.id > 0 then S.symkey c q q.keyName
  -- a pending file or folder has its key in `fstask`, a pending change the revision changed
  else match q, o.modify, o.key with
    | .fileEncoder _ _ _, some (id, hash), _ => S.symkey c q (.file id hash)
    | _, _, some k => S.become c (.decrypt q none k)
    | _, _, none => S.become c (.unlock q none)

/-- `psync_ssl_rsa_decrypt_symm_key_lock`. -/
def decrypt (c : Call κ) (q : Query) (n : Option KeyName) (k : κ) : State κ :=
  { S with used := S.startedL :: S.used }.become c
    (if S.privkey then .key q n k else .unlock q none)

/-- The key is given back to the cache, and the encoder is made. -/
def makeEncoder (c : Call κ) (q : Query) (n : Option KeyName) (k : κ) (good : Bool) : State κ :=
  if good then
    match n with
    | some n => (S.cacheAdd (.key n) k).become c (.unlock q (some k))
    | none => S.become c (.unlock q (some k))
  else S.become c (.unlock q none)

/-- A call goes on. -/
def go (c : Call κ) (o : Outcome κ) : Option (State κ) :=
  match c with
  | .cache q =>
    match S.cacheGet q.cacheName with
    | some (k, S) => some (S.finish c q (some k))
    | none => some (S.become c (.lock q))
  | .lock q => some ({ S with readers := S.readers + 1 }.become c (.locked q))
  | .locked q => some (S.locked c q o)
  | .fetch q n => some (S.fetch keyOf c q n o)
  | .decrypt q n k => some (S.decrypt c q n k)
  | .key q n k => some (S.makeEncoder c q n k o.good)
  | .unlock q enc => some ({ S with readers := S.readers - 1 }.finish c q enc)
  | .binLock id hash k =>
    some ({ S with readers := S.readers + 1 }.become c (.binLocked id hash k))
  | .binLocked id hash k =>
    if S.startedL then
      some (({ S with used := S.startedL :: S.used }.cacheAdd (.key (.file id hash)) k).become c
        (.locked (.fileEncoder id hash false)))
    else some (S.become c (.unlock (.fileEncoder id hash false) none))
  | .release q k => some ({ S with calls := S.calls.erase c }.cacheAdd q.cacheName k)
  | .stopping | .cleaning | .returning => none

/-- The state after a step. -/
def step : Action κ → Option (State κ)
  | .start ok =>
    if S.readers = 0 then
      if S.startedL ∨ ¬ ok then some S
      else some { S with startedUn := true, startedL := true, privkey := true, stopped := false }
    else none
  | .stop => some { S with startedUn := false, calls := .stopping ::ₘ S.calls }
  | .stopLock =>
    if .stopping ∈ S.calls ∧ S.readers = 0 then
      if S.startedL then
        some ({ S with startedL := false, privkey := false }.become .stopping .cleaning)
      else some { S with calls := S.calls.erase .stopping }
    else none
  | .stopClean =>
    if .cleaning ∈ S.calls then some ({ S with cache := [] }.become .cleaning .returning) else none
  | .stopReturn =>
    if .returning ∈ S.calls then
      some { S with stopped := true, calls := S.calls.erase .returning }
    else none
  | .get q =>
    if S.startedUn then
      some { S with calls := (if q.id ≥ 0 then .cache q else .lock q) ::ₘ S.calls }
    else some { S with returned := { query := q, enc := none, stopped := S.stopped } :: S.returned }
  | .fromBinresult id hash =>
    let k := keyOf id hash
    some { S with saves := (id, hash, k) :: S.saves, calls := .binLock id hash k ::ₘ S.calls }
  | .go c o => if c ∈ S.calls then S.go keyOf c o else none
  | .release q k =>
    if (q, k) ∈ S.held then
      let S := { S with held := S.held.erase (q, k) }
      if S.startedUn ∧ q.id ≥ 0 then some { S with calls := .release q k ::ₘ S.calls } else some S
    else none
  | .free q k =>
    if (q, k) ∈ S.held then some { S with held := S.held.erase (q, k) } else none
  | .save row =>
    if row ∈ S.saves then
      some { S with
        saves := S.saves.erase row
        cryptofilekey := row :: S.cryptofilekey.filter fun r => r.1 ≠ row.1 }
    else none
  | .forget row => some { S with cryptofilekey := S.cryptofilekey.erase row }
  | .expire e => some { S with cache := S.cache.erase e }
  | .revise id hash => some { S with current := Function.update S.current id hash }

/-- Nothing is started and nothing is cached; the table has rows from before. -/
def initial (current : ℤ → ℕ) (rows : List (ℤ × ℕ × κ)) : State κ where
  startedUn := false
  startedL := false
  privkey := false
  readers := 0
  cache := []
  cryptofilekey := rows
  saves := []
  current := current
  calls := 0
  held := 0
  stopped := false
  returned := []
  used := []

/-- The machine of the calls. -/
def machine : Machine (State κ) (Action κ) where
  init S := ∃ current rows, (∀ r ∈ rows, r.2.2 = keyOf r.1 r.2.1) ∧ S = initial current rows
  step S a := S.step keyOf a

end State

end Pclsync.CryptoKeys
