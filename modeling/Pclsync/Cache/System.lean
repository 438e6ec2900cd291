import Pclsync.Transition

/-!
# The cache

`pcache.c`: values under keys, in a hash table of 2048 buckets which share 8 mutexes. A value which
is not taken out (`psync_cache_get`) is freed by the timer of its element. A timer which the timer
thread has picked cannot be stopped any more: `psync_timer_stop` returns 1 then, and the element is
left to the callback, which waits for the mutex of the bucket.

A thread which has the mutex visits one element in each step, so that timers may be picked between
two visits. What it does with an element after it was taken out of the list concerns nobody else,
and belongs to the same step. Each call of `psync_cache_add` adds the value which is its number.
-/

namespace Pclsync.Cache

open Function

/-- `CACHE_HASH_SIZE`. -/
def cacheHashSize : ℕ := 2048

/-- `CACHE_LOCKS`. -/
def cacheLocks : ℕ := 8

/-- `hash_to_bucket`. -/
def hashToBucket (h : UInt32) : ℕ := h.toNat % cacheHashSize

/-- `hash_to_lock`, of a hash. -/
def hashToLock (h : UInt32) : ℕ := (h * 8).toNat / cacheHashSize % cacheLocks

/-- `hash_to_lock`, of a bucket. -/
def bucketToLock (b : ℕ) : ℕ := b * cacheLocks / cacheHashSize % cacheLocks

/-- The bytes of a C string. -/
abbrev Key := List UInt8

/-- The conversion of a `char` to `uint32_t`. -/
def ofChar (c : UInt8) : UInt32 := if c < 128 then c.toUInt32 else c.toUInt32 + 0xffffff00

/-- `hash_func`, with `hash_seed`. -/
def hashFunc (seed : UInt32) (key : Key) : UInt32 :=
  let hash : UInt32 := key.foldl (fun (hash : UInt32) c => ofChar c + (hash <<< 5) + hash) seed
  let hash := hash + (hash <<< 3)
  hash ^^^ (hash >>> 11)

/-- `hash_element`. -/
structure HashElement where
  value : ℕ
  hash : UInt32
  key : Key
  deriving DecidableEq

/-- The timer of an element. -/
inductive TimerState
  | waiting
  /-- `PTIMER_IS_RUNNING`; the argument is `PTIMER_STOP_AFTER_RUN`. -/
  | running (stopAfterRun : Bool)
  | freed
  deriving DecidableEq

/-- `psync_timer_stop`, and whether it returns 1; a timer which was freed must not be stopped. -/
def timerStop : TimerState → Option (TimerState × Bool)
  | .waiting => some (.freed, false)
  | .running _ => some (.running true, true)
  | .freed => none

/-- What `timer_process_timers` does with a timer which was called. -/
def timerProcess : TimerState → TimerState
  | .running false => .waiting
  | _ => .freed

/-- The functions a thread is in: `psync_cache_get`, `psync_cache_del`, `psync_cache_add`, and
    `psync_cache_clean_starting_with_one_of`, or `psync_cache_clean_all` without prefixes, at one of
    the buckets. -/
inductive Op
  | get (key : Key)
  | del (key : Key)
  | add (key : Key) (maxkeys : ℕ)
  | clean (prefixes : Option (List Key)) (bucket : ℕ)

namespace Op

variable (seed : UInt32)

/-- The bucket which is visited. -/
def bucket : Op → ℕ
  | get key | del key | add key _ => hashToBucket (hashFunc seed key)
  | clean _ b => b

/-- The mutex which is taken. -/
def lock : Op → ℕ
  | get key | del key | add key _ => hashToLock (hashFunc seed key)
  | clean _ b => bucketToLock b

/-- Whether an element of the bucket is meant. -/
def wants (he : HashElement) : Op → Bool
  | get key | del key | add key _ => he.hash == hashFunc seed key && key == he.key
  | clean none _ => true
  | clean (some prefixes) _ => prefixes.any fun p => p.isPrefixOf he.key

/-- What comes after the bucket. -/
def next : Op → Option Op
  | get _ | del _ | add _ _ => none
  | clean prefixes b => if b + 1 < cacheHashSize then some (clean prefixes (b + 1)) else none

end Op

/-- A thread waits for the mutex, or has it and is still to visit the elements. -/
structure Pc where
  op : Op
  rest : Option (List HashElement)

/-- How a call of `psync_cache_add` ended, with the number of elements of its key right after. -/
structure Added where
  maxkeys : ℕ
  count : ℕ
  stored : Bool

structure System (ι : Type) where
  /-- `cache_hash`: a bucket consists of the elements whose hashes belong to it. -/
  elements : List HashElement
  /-- The timers of the elements, by their values. -/
  timers : ℕ → TimerState
  /-- The elements whose timers the timer thread is about to call. -/
  queue : List HashElement
  /-- `cache_mutexes`, with the threads which have them. -/
  mutexes : ℕ → Option ι
  threads : ι → Option Pc
  /-- The number of values added. -/
  adds : ℕ
  /-- The keys which `psync_cache_get` was asked for, with the elements it found. -/
  handed : List (Key × HashElement)
  /-- The values passed to their callbacks. -/
  freed : List ℕ
  added : List Added
  /-- A timer which was freed was stopped, or an element deleted which was not in its list. -/
  invalid : Bool

/-- A thread calls a function, or goes on; a timer is picked, or the callback of one is called. -/
inductive Action (ι : Type)
  | call (i : ι) (op : Op)
  | run (i : ι)
  | pick (value : ℕ)
  | fire

namespace System

variable {ι : Type} [DecidableEq ι] (seed : UInt32) (S : System ι) (i : ι)

/-- `cache_hash[b]`. -/
def bucket (b : ℕ) : List HashElement := S.elements.filter fun he => hashToBucket he.hash = b

def setThread (pc : Option Pc) : System ι :=
  { S with threads := update S.threads i pc }

def setTimer (he : HashElement) (timer : TimerState) : System ι :=
  { S with timers := update S.timers he.value timer }

/-- `psync_list_del`. -/
def listDel (he : HashElement) : System ι := { S with elements := S.elements.erase he }

/-- The mutex is released, and the thread goes on with something else. -/
def unlock (l : ℕ) (op : Option Op) : System ι :=
  { S with mutexes := update S.mutexes l none }.setThread i (op.map fun op => ⟨op, none⟩)

/-- The number of elements of a key. -/
def count (key : Key) : ℕ := (S.elements.filter fun he => he.key = key).length

/-- `psync_cache_add`, with the mutex: the loop over the bucket ends early when it finds `maxkeys`
    elements. -/
def cacheAdd (key : Key) (maxkeys : ℕ) : System ι :=
  let he : HashElement := ⟨S.adds, hashFunc seed key, key⟩
  let l := ((S.bucket (hashToBucket he.hash)).filter fun he2 =>
    he2.hash == he.hash && key == he2.key).length
  if maxkeys ≠ 0 ∧ maxkeys ≤ l then
    { S with
      freed := S.freed ++ [he.value]
      adds := S.adds + 1
      added := S.added ++ [Added.mk maxkeys (S.count key) false] }.setThread i none
  else
    let S' := { S with elements := he :: S.elements }.setTimer he .waiting
    { S' with
      adds := S.adds + 1
      added := S.added ++ [Added.mk maxkeys (S'.count key) true] }.setThread i none

/-- The mutex is free: `psync_cache_add` runs up to its end, the other functions start to visit the
    bucket. -/
def enter (op : Op) : System ι :=
  match op with
  | .add key maxkeys => S.cacheAdd seed i key maxkeys
  | _ => { S with mutexes := update S.mutexes (op.lock seed) (some i) }.setThread i
      (some (Pc.mk op (some (S.bucket (op.bucket seed)))))

/-- What the functions do with an element which they have taken out of its list. -/
def taken (op : Op) (he : HashElement) (rest : List HashElement) : System ι :=
  match op with
  | .get key => { S with handed := S.handed ++ [(key, he)] }.unlock i (op.lock seed) none
  | .del _ => { S with freed := S.freed ++ [he.value] }.unlock i (op.lock seed) (some op)
  | .clean _ _ => { S with freed := S.freed ++ [he.value] }.setThread i (some ⟨op, some rest⟩)
  | .add _ _ => S

/-- An element is visited. -/
def visit (op : Op) (he : HashElement) (rest : List HashElement) : System ι :=
  if op.wants seed he then
    match timerStop (S.timers he.value) with
    | none => { S with invalid := true }
    | some (timer, true) => (S.setTimer he timer).setThread i (some ⟨op, some rest⟩)
    | some (timer, false) => ((S.setTimer he timer).listDel he).taken seed i op he rest
  else S.setThread i (some ⟨op, some rest⟩)

/-- `cache_timer`, and the end of the timer. -/
def cacheTimer (he : HashElement) (queue : List HashElement) : System ι :=
  if he ∈ S.elements then
    match timerStop (S.timers he.value) with
    | none => { S with invalid := true }
    | some (timer, _) =>
      { S.listDel he with queue := queue, freed := S.freed ++ [he.value] }.setTimer he
        (timerProcess timer)
  else { S with invalid := true }

def step : Action ι → Option (System ι)
  | .call i op => if (S.threads i).isSome then none else some (S.setThread i (some ⟨op, none⟩))
  | .run i => (S.threads i).bind fun pc =>
    match pc.rest with
    | none => if (S.mutexes (pc.op.lock seed)).isSome then none else some (S.enter seed i pc.op)
    | some [] => some (S.unlock i (pc.op.lock seed) pc.op.next)
    | some (he :: rest) => some (S.visit seed i pc.op he rest)
  | .pick value => (S.elements.find? fun he => he.value = value).bind fun he =>
    if S.timers value = .waiting then
      some { S.setTimer he (.running false) with queue := S.queue ++ [he] }
    else none
  | .fire =>
    match S.queue with
    | [] => none
    | he :: queue =>
      if (S.mutexes (hashToLock he.hash)).isSome then none else some (S.cacheTimer he queue)

/-- `psync_cache_init`. -/
def start : System ι where
  elements := []
  timers := fun _ => .freed
  queue := []
  mutexes := fun _ => none
  threads := fun _ => none
  adds := 0
  handed := []
  freed := []
  added := []
  invalid := false

end System

/-- The machine of the threads `ι` which use the cache, and the timer thread. -/
def machine (ι : Type) [DecidableEq ι] (seed : UInt32) : Machine (System ι) (Action ι) where
  init S := S = .start
  step S := S.step seed

end Pclsync.Cache
