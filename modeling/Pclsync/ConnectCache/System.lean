import Pclsync.LinkedTree.Walks
import Pclsync.Transition

/-!
# Connections made ahead

`psync_http_connect_and_cache_host` makes a node for an attempt to connect to a host, puts it in
`connect_cache_tree`, and starts a thread that connects. A call of
`connect_cache_wait_for_http_connection` that finds the node before the thread is done claims it and
gets the connection; without a waiter the connection goes to the cache. The threads take
`connect_cache_mutex` for all they do with the nodes, so that each such section is one step.

* `State.search`, `State.freeNode`: the way to the nodes of a host, which are side by side, and the
  one among them that nobody waits for.
* `State.connectAndCacheHost`, `State.connect`, `State.finish`, `State.wait`, `State.wake`: the
  sections.
* `machine`: any interleaving of them.
* `State.Safe`: what holds of the attempts, the connections, the waiters and the nodes.
-/

namespace Pclsync.ConnectCache

open Function

/-- `connect_cache_tree_node_t`, besides its place in the tree. `cond` and `res` point to variables
    of the call `waiter`; `serial` tells apart the nodes made at one address. -/
structure Node (ι κ : Type*) where
  host : κ
  usessl : Bool
  haswaiter : Bool
  ready : Bool
  waiter : Option ι
  serial : ℕ

/-- What a thread does with a node. -/
inductive Phase (α σ : Type*)
  | idle
  | connecting (node : α)
  | connected (node : α) (sock : Option σ)
  | waiting (node : α)
  deriving DecidableEq

/-- The node of an attempt that is not finished. -/
def Phase.attempt {α σ : Type*} : Phase α σ → Option α
  | connecting a => some a
  | connected a _ => some a
  | _ => none

/-- The tree, the nodes and the threads, with what has become of the connections and nodes.
    `fault` tells that a pointer was used that is null, or leads to no node or variable. -/
structure State (α ι κ σ : Type*) where
  tree : Option α
  links : Heap α
  nodes : α → Option (Node ι κ)
  phase : ι → Phase α σ
  /-- The variable `sock` of a waiting call. -/
  sock : ι → Option (Option σ)
  /-- The variable `cond` of a waiting call has been signalled. -/
  signalled : ι → Bool
  established : List σ
  cached : List σ
  closed : List σ
  returned : List (ι × Option σ)
  freed : List ℕ
  allocs : ℕ
  fault : Bool

/-- Where the search for a host ends. -/
inductive Place (α : Type*)
  | before (e : α)
  | equal (e : α)
  | after (e : α)

/-- The sections, with what the environment chooses: the address and the thread of a new node, the
    result of connecting, whether the cache is full, and wake-ups without a signal. -/
inductive Action (α ι κ σ : Type*)
  | connectAndCacheHost (i : ι) (a : α) (host : κ) (usessl : Bool)
  | connect (i : ι) (sock : Option σ)
  | finish (i : ι) (full : Bool)
  | wait (w : ι) (host : κ) (usessl : Bool)
  | wake (w : ι) (spurious : Bool)

variable {α ι κ σ : Type*} [DecidableEq α] [DecidableEq ι] [LinearOrder κ] [DecidableEq σ]

namespace State

/-! ## Finding a node -/

omit [DecidableEq α] [DecidableEq ι] [DecidableEq σ] in
/-- The loop of both functions, from a node down. -/
def search (s : State α ι κ σ) (host : κ) : ℕ → α → Option (Place α)
  | 0, _ => none
  | n + 1, e => (s.nodes e).bind fun node =>
    if host < node.host then
      match (s.links e).left with
      | some c => s.search host n c
      | none => some (.before e)
    else if node.host < host then
      match (s.links e).right with
      | some c => s.search host n c
      | none => some (.after e)
    else some (.equal e)

omit [DecidableEq ι] [DecidableEq σ] in
/-- A loop of `connect_cache_neighbour_is_free_duplicate`, for at most as many nodes as the first
    argument says. -/
def freeDuplicateLoop (s : State α ι κ σ) (side : Side) (host : κ) :
    ℕ → Option α → Option (Option α)
  | _, none => some none
  | 0, some _ => none
  | n + 1, some e => (s.nodes e).bind fun node =>
    if node.host ≠ host then some none
    else if !node.haswaiter then some (some e)
    else (getNeighbour side s.allocs e s.links).bind (s.freeDuplicateLoop side host n)

omit [DecidableEq ι] [DecidableEq σ] in
/-- `connect_cache_neighbour_is_free_duplicate` -/
def neighbourIsFreeDuplicate (s : State α ι κ σ) (e : α) (host : κ) : Option (Option α) :=
  (getNeighbour .right s.allocs e s.links).bind fun n =>
    (s.freeDuplicateLoop .right host s.allocs n).bind fun r =>
      match r with
      | some n => some (some n)
      | none => (getNeighbour .left s.allocs e s.links).bind
          (s.freeDuplicateLoop .left host s.allocs)

omit [DecidableEq ι] [DecidableEq σ] in
/-- `!node->haswaiter || connect_cache_neighbour_is_free_duplicate(e, host)`, with the node. -/
def freeNode (s : State α ι κ σ) (e : α) (host : κ) : Option (Option α) :=
  (s.nodes e).bind fun node =>
    if !node.haswaiter then some (some e) else s.neighbourIsFreeDuplicate e host

/-! ## The sections -/

/-- `connect_cache_create_node` and `psync_tree_add_before` or `psync_tree_add_after`; when the
    mutex is free again the thread is started. -/
def addNode (s : State α ι κ σ) (i : ι) (a : α) (host : κ) (usessl : Bool) (side : Side)
    (e : Option α) : Option (State α ι κ σ) :=
  (getAdd side s.allocs s.tree e a s.links).map fun r =>
    { s with
      tree := some r.1
      links := r.2
      nodes := update s.nodes a (some ⟨host, usessl, false, false, none, s.allocs⟩)
      phase := update s.phase i (.connecting a)
      allocs := s.allocs + 1 }

/-- `psync_http_connect_and_cache_host` -/
def connectAndCacheHost (s : State α ι κ σ) (i : ι) (a : α) (host : κ) (usessl : Bool) :
    Option (State α ι κ σ) :=
  match s.tree with
  | none => s.addNode i a host usessl .right none
  | some tree => (s.search host s.allocs tree).bind fun place =>
    match place with
    | .before e => s.addNode i a host usessl .left (some e)
    | .after e => s.addNode i a host usessl .right (some e)
    | .equal e => (s.freeNode e host).bind fun free =>
      match free with
      | some _ => some s
      | none => s.addNode i a host usessl .right (some e)

/-- `psync_socket_connect` in `connect_cache_thread`, which reads the node without the mutex. -/
def connect (s : State α ι κ σ) (i : ι) (a : α) (sock : Option σ) : Option (State α ι κ σ) :=
  (s.nodes a).map fun _ =>
    { s with
      phase := update s.phase i (.connected a sock)
      established := sock.toList ++ s.established }

/-- `psync_free` of a node. -/
def freeNodeAt (s : State α ι κ σ) (a : α) (node : Node ι κ) : State α ι κ σ :=
  { s with nodes := update s.nodes a none, freed := node.serial :: s.freed }

/-- The branch of `connect_cache_thread` for a node with a waiter, whose variables are there as long
    as it waits. -/
def pass (s : State α ι κ σ) (a : α) (node : Node ι κ) (sock : Option σ) : Option (State α ι κ σ) :=
  node.waiter.bind fun w =>
    if s.phase w = .waiting a then
      some { s with
        sock := update s.sock w (some sock)
        nodes := update s.nodes a (some { node with ready := true })
        signalled := update s.signalled w true }
    else none

/-- `psync_cache_add`, which closes the connection when there are enough of them. -/
def cacheAdd (s : State α ι κ σ) (sock : Option σ) (full : Bool) : State α ι κ σ :=
  if full then { s with closed := sock.toList ++ s.closed }
  else { s with cached := sock.toList ++ s.cached }

/-- The rest of `connect_cache_thread`, with the mutex. -/
def finish (s : State α ι κ σ) (i : ι) (a : α) (sock : Option σ) (full : Bool) :
    Option (State α ι κ σ) :=
  s.tree.bind fun tree => (getDel s.allocs tree a s.links).bind fun r =>
    (s.nodes a).bind fun node =>
      let s := { s with
        tree := r.1
        links := r.2
        phase := update s.phase i .idle }
      if node.haswaiter then s.pass a node sock
      else some ((s.cacheAdd sock full).freeNodeAt a node)

/-- `return` of `connect_cache_wait_for_http_connection`. -/
def giveBack (s : State α ι κ σ) (w : ι) (sock : Option σ) : State α ι κ σ :=
  { s with
    phase := update s.phase w .idle
    returned := (w, sock) :: s.returned }

/-- The assignments before `pthread_cond_wait`. -/
def claim (s : State α ι κ σ) (w : ι) (a : α) (node : Node ι κ) : State α ι κ σ :=
  { s with
    nodes := update s.nodes a (some { node with haswaiter := true, waiter := some w })
    phase := update s.phase w (.waiting a)
    sock := update s.sock w none
    signalled := update s.signalled w false }

/-- `connect_cache_wait_for_http_connection` up to the wait. -/
def wait (s : State α ι κ σ) (w : ι) (host : κ) (usessl : Bool) : Option (State α ι κ σ) :=
  match s.tree with
  | none => some (s.giveBack w none)
  | some tree => (s.search host s.allocs tree).bind fun place =>
    match place with
    | .before _ => some (s.giveBack w none)
    | .after _ => some (s.giveBack w none)
    | .equal e => (s.freeNode e host).bind fun free =>
      match free with
      | none => some (s.giveBack w none)
      | some a => (s.nodes a).map fun node =>
        if node.usessl = usessl then s.claim w a node else s.giveBack w none

/-- What a waiting call does when it wakes up. -/
def wake (s : State α ι κ σ) (w : ι) (a : α) : Option (State α ι κ σ) :=
  (s.nodes a).bind fun node =>
    if node.ready then (s.sock w).map fun sock => (s.freeNodeAt a node).giveBack w sock
    else some { s with signalled := update s.signalled w false }

def broken (s : State α ι κ σ) : State α ι κ σ := { s with fault := true }

/-- A section of a thread that is where it starts. -/
def step (s : State α ι κ σ) : Action α ι κ σ → Option (State α ι κ σ)
  | .connectAndCacheHost i a host usessl =>
    if s.phase i = .idle ∧ (s.nodes a).isNone then
      some ((s.connectAndCacheHost i a host usessl).getD s.broken)
    else none
  | .connect i sock =>
    match s.phase i with
    | .connecting a =>
      if ∀ c ∈ sock, c ∉ s.established then some ((s.connect i a sock).getD s.broken) else none
    | _ => none
  | .finish i full =>
    match s.phase i with
    | .connected a sock => some ((s.finish i a sock full).getD s.broken)
    | _ => none
  | .wait w host usessl =>
    if s.phase w = .idle then some ((s.wait w host usessl).getD s.broken) else none
  | .wake w spurious =>
    match s.phase w with
    | .waiting a =>
      if spurious ∨ s.signalled w then some ((s.wake w a).getD s.broken) else none
    | _ => none

end State

/-- All threads and calls, from the start of the program on. -/
def machine : Machine (State α ι κ σ) (Action α ι κ σ) where
  init s := s.tree = none ∧ (∀ a, s.nodes a = none) ∧ (∀ i, s.phase i = .idle) ∧
    s.established = [] ∧ s.cached = [] ∧ s.closed = [] ∧ s.returned = [] ∧ s.freed = [] ∧
    s.allocs = 0 ∧ s.fault = false
  step s := s.step

/-! ## What holds -/

/-- Where a connection can be. -/
inductive Where (ι : Type*)
  /-- Made by a thread which is not finished. -/
  | thread (i : ι)
  /-- In the variable of a waiting call. -/
  | answer (w : ι)
  | returned (w : ι)
  | cached
  | closed

namespace State

omit [DecidableEq α] [DecidableEq ι] [LinearOrder κ] [DecidableEq σ]

def IsAt (s : State α ι κ σ) (c : σ) : Where ι → Prop
  | .thread i => ∃ a, s.phase i = .connected a (some c)
  | .answer w => ∃ a, s.phase w = .waiting a ∧ s.sock w = some (some c)
  | .returned w => (w, some c) ∈ s.returned
  | .cached => c ∈ s.cached
  | .closed => c ∈ s.closed

/-- The connections that calls have returned. -/
def returnedSocks (s : State α ι κ σ) : List σ := s.returned.filterMap Prod.snd

/-- An attempt of the thread `i` to connect to a host, that nobody waits for. -/
def FreeAttempt (s : State α ι κ σ) (i : ι) (host : κ) : Prop :=
  ∃ a node, (s.phase i).attempt = some a ∧ s.nodes a = some node ∧ node.host = host ∧
    node.haswaiter = false

/-- The thread of the attempt that the call `w` waits for is done. -/
def Finished (s : State α ι κ σ) (w : ι) : Prop :=
  ∃ a, s.phase w = .waiting a ∧ ∀ i, (s.phase i).attempt ≠ some a

/-- The node that was made as the `n`-th one is not freed. -/
def Live (s : State α ι κ σ) (n : ℕ) : Prop := ∃ a node, s.nodes a = some node ∧ node.serial = n

end State

/-- Attempts to connect, connections, waiters and nodes are as they should be. -/
structure State.Safe (s : State α ι κ σ) : Prop where
  sound : s.fault = false
  attempt : ∀ host i j, s.FreeAttempt i host → s.FreeAttempt j host → i = j
  isAt : ∀ c ∈ s.established, ∃! p, s.IsAt c p
  established : ∀ c p, s.IsAt c p → c ∈ s.established
  once : s.returnedSocks.Nodup ∧ s.cached.Nodup ∧ s.closed.Nodup
  /-- The signal wakes the call up, and it returns what its thread has passed to it. -/
  answered : ∀ w, s.Finished w → ∃ s' sock, s.step (.wake w false) = some s' ∧ s'.fault = false ∧
    s'.phase w = .idle ∧ s.sock w = some sock ∧ s'.returned = (w, sock) :: s.returned
  freed : s.freed.Nodup ∧ ∀ n, n ∈ s.freed ↔ n < s.allocs ∧ ¬ s.Live n
  /-- A node is freed by the thread of its attempt, or by the call that waits for it. -/
  owned : ∀ a node, s.nodes a = some node →
    (∃ i, (s.phase i).attempt = some a) ∨ ∃ w, s.phase w = .waiting a

end Pclsync.ConnectCache
