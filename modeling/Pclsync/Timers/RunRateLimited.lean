import Pclsync.KeyOrder
import Pclsync.Timers.System
import Pclsync.WrappedOrder

/-!
# Running callbacks at a limited rate

`prunratelimit.c`: `psync_run_ratelimited` starts a callback and registers a timer for it. As long
as there is the timer, another call for the same callback only marks its node in a tree, and the
timer starts the callback when it finds the mark. Without the mark it deletes the node and stops.

A timer is called at the time it is to run at, or later, and again a period after that. Each section
of `task_mutex` is a step, and so is what its thread does next. A node has one thread that has made
it and one timer; a `Task` says where these are.

* `step`: the calls and the timers.
* `Sound`: no call is lost, starts of one callback are a period apart, and nodes are found, and
  freed once.
* `rateLimited_of_reachable`: this holds in all interleavings.
-/

namespace Pclsync.Timers.RunRateLimited

open List Option

/-! ## Nodes -/

/-- A `psync_rr_tree_node`; `id` is its address, and `call` that of the callback. -/
structure Node where
  id : ℕ
  call : ℕ
  name : String
  scheduled : Bool
  deriving DecidableEq

/-- Where a node is. -/
inductive Phase
  /-- In the tree; the thread that has made it is about to start the callback. -/
  | starting
  /-- The thread has started the callback, and is about to register the timer. -/
  | registering
  /-- The timer is registered. -/
  | waiting (runat : ℕ)
  /-- The timer has taken the mark, and is about to start the callback. -/
  | called (call : ℕ) (name : String)
  /-- The node is deleted, and the timer is about to be stopped. -/
  | stopping
  /-- The timer is stopped, and the node is about to be freed. -/
  | freeing
  | freed

/-- The node is in the tree, and its timer is registered or is going to be. -/
def Phase.InTree : Phase → Prop
  | starting | registering | waiting _ | called _ _ => True
  | stopping | freeing | freed => False

/-- The timer thread is in `psync_run_ratelimited_timer`. -/
def Phase.InTimer : Phase → Prop
  | called _ _ | stopping | freeing => True
  | starting | registering | waiting _ | freed => False

instance (p : Phase) : Decidable p.InTree := by
  cases p <;> unfold Phase.InTree <;> infer_instance

/-- The arguments of the call that has made a node, and where the node is. -/
structure Task where
  name : String
  call : ℕ
  minintervalsec : ℕ
  runinthread : Bool
  phase : Phase

/-- The period of the timer: `psync_timer_register` has a maximum. -/
def Task.period (t : Task) : ℕ := (levelOf t.minintervalsec).2

/-- A start of a callback, with the period of the node's timer. -/
structure Start where
  call : ℕ
  name : String
  inThread : Bool
  time : ℕ
  period : ℕ

/-! ## Calls and timers -/

/-- The time, the tree, the nodes made so far by their addresses, the node whose timer is being
    called, the starts so far, the callbacks of calls after which the callback was not yet started,
    the freed nodes, and whether a node was used that is not there. -/
structure State where
  clock : ℕ
  tasks : Tree Node
  nodes : List Task
  running : Option ℕ
  starts : List Start
  unstarted : List ℕ
  freed : List ℕ
  fault : Bool

/-- The state at the beginning. -/
def State.start (time : ℕ) : State := ⟨time, .nil, [], none, [], [], [], false⟩

/-- `node->scheduled=v` -/
def setScheduled (id : ℕ) (v : Bool) (tasks : Tree Node) : Tree Node :=
  tasks.map fun n => if n.id = id then { n with scheduled := v } else n

/-- A thread goes on. -/
def setPhase (nodes : List Task) (id : ℕ) (p : Phase) : List Task :=
  nodes.modify id fun t => { t with phase := p }

namespace State

variable (s : State)

/-- A thread goes on, and nothing else changes. -/
def goOn (id : ℕ) (p : Phase) : State := { s with nodes := setPhase s.nodes id p }

/-- A callback is started. -/
def run (call : ℕ) (name : String) (inThread : Bool) (period : ℕ) : State :=
  { s with
    starts := s.starts ++ [⟨call, name, inThread, s.clock, period⟩]
    unstarted := s.unstarted.filter (· ≠ call) }

/-- The critical section of `psync_run_ratelimited`. -/
def runRatelimited (name : String) (call minintervalsec : ℕ) (runinthread : Bool) : State :=
  let s := { s with unstarted := call :: s.unstarted }
  match s.tasks.locate fun n => compare call n.call with
  | .found _ node =>
    if node.scheduled then s else { s with tasks := setScheduled node.id true s.tasks }
  | .vacant k =>
    { s with
      tasks := s.tasks.insertAt k ⟨s.nodes.length, call, name, false⟩
      nodes := s.nodes ++ [⟨name, call, minintervalsec, runinthread, .starting⟩] }

/-- The critical section of `psync_run_ratelimited_timer`. -/
def timerSection (id : ℕ) : State :=
  match s.tasks.toList.findIdx? fun n => n.id == id with
  | none => { s with fault := true }
  | some k =>
    match s.tasks.toList[k]? with
    | none => { s with fault := true }
    | some node =>
      if node.scheduled then
        { s with tasks := setScheduled id false s.tasks, running := some id }.goOn id
          (.called node.call node.name)
      else { s with tasks := s.tasks.removeAt k, running := some id }.goOn id .stopping

end State

/-- What happens next. -/
inductive Action
  /-- A call of `psync_run_ratelimited`. -/
  | call (name : String) (call minintervalsec : ℕ) (runinthread : Bool)
  /-- The thread that has made a node starts the callback, or registers the timer. -/
  | caller (id : ℕ)
  /-- The timer of a node is called, or goes on. -/
  | timer (id : ℕ)
  /-- The timer thread sets the time. -/
  | tick (time : ℕ)

/-- One step. -/
def step (s : State) : Action → Option State
  | .call name call minintervalsec runinthread =>
    some (s.runRatelimited name call minintervalsec runinthread)
  | .caller id => (s.nodes[id]?).bind fun t =>
    match t.phase with
    | .starting => some ((s.run t.call t.name t.runinthread t.period).goOn id .registering)
    | .registering => some (s.goOn id (.waiting (s.clock + t.period)))
    | _ => none
  | .timer id => (s.nodes[id]?).bind fun t =>
    match t.phase with
    | .waiting runat =>
      if s.running = none ∧ runat ≤ s.clock then some (s.timerSection id) else none
    | .called call name =>
      some ({ s.run call name true t.period with running := none }.goOn id
        (.waiting (s.clock + t.period)))
    | .stopping => some (s.goOn id .freeing)
    | .freeing => some ({ s with freed := s.freed ++ [id], running := none }.goOn id .freed)
    | _ => none
  | .tick time =>
    if s.running = none ∧ s.clock ≤ time then some { s with clock := time } else none

/-- All interleavings. -/
def machine : Machine State Action where
  init s := ∃ time, s = .start time
  step := step

/-! ## What is to hold -/

/-- A start is pending when the thread that has made the node is about to make it. -/
def AtCaller (s : State) (call : ℕ) : Prop :=
  ∃ (id : ℕ) (t : Task), s.nodes[id]? = some t ∧ t.call = call ∧ t.phase = .starting

/-- It is pending when its node is marked, and has a timer or is about to get it. -/
def Marked (s : State) (call : ℕ) : Prop :=
  ∃ n ∈ s.tasks.toList, n.call = call ∧ n.scheduled = true ∧
    ∃ t, s.nodes[n.id]? = some t ∧ t.phase.InTree

/-- It is pending when the timer has taken the mark and is about to make it. -/
def AtTimer (s : State) (call : ℕ) : Prop :=
  ∃ (id : ℕ) (t : Task) (name : String), s.nodes[id]? = some t ∧ t.phase = .called call name

/-- Calls are not lost, starts are apart, and nodes are found and freed as they should be. -/
structure Sound (s : State) : Prop where
  pending : ∀ call ∈ s.unstarted, AtCaller s call ∨ AtTimer s call ∨ Marked s call
  apart : s.starts.Pairwise fun a b => a.call = b.call → a.time + a.period ≤ b.time
  oneNode : s.tasks.toList.Pairwise fun m n => m.call ≠ n.call
  found : ∀ n ∈ s.tasks.toList, ∃ k, s.tasks.locate (fun m => compare n.call m.call) = .found k n
  inTree : ∀ (id : ℕ) (t : Task), s.nodes[id]? = some t →
    ((∃ n ∈ s.tasks.toList, n.id = id) ↔ t.phase.InTree)
  freedOnce : s.freed.Nodup
  freed : ∀ (id : ℕ) (t : Task), s.nodes[id]? = some t → (id ∈ s.freed ↔ t.phase = .freed)
  retired : ∀ (id : ℕ) (t : Task), s.nodes[id]? = some t → t.phase = .stopping →
    ∃ s', machine.run s [.timer id, .timer id] = some s' ∧ id ∈ s'.freed
  notUsed : s.fault = false

/-! ## Nodes and tasks -/

/-- The tree is ordered, and has the nodes of the tasks that are in it. -/
structure Table (tasks : Tree Node) (nodes : List Task) : Prop where
  order : tasks.KeyOrdered Node.call
  node : ∀ n ∈ tasks.toList, ∃ t, nodes[n.id]? = some t ∧ t.phase.InTree ∧ t.call = n.call
  inTree : ∀ (id : ℕ) (t : Task), nodes[id]? = some t → t.phase.InTree →
    ∃ n ∈ tasks.toList, n.id = id

variable {tasks : Tree Node} {nodes : List Task} {id j : ℕ} {t u : Task} {p : Phase} {v : Bool}
  {m n : Node}

theorem setPhase_cases (ht : nodes[id]? = some t) (hu : (setPhase nodes id p)[j]? = some u) :
    (j = id ∧ u = { t with phase := p }) ∨ (j ≠ id ∧ nodes[j]? = some u) := by
  rw [setPhase, getElem?_modify] at hu
  obtain ⟨u', hu', rfl⟩ := map_eq_some_iff.1 hu
  rcases eq_or_ne id j with rfl | hne
  · rw [ht] at hu'
    obtain rfl := some.inj hu'
    exact .inl ⟨rfl, if_pos rfl⟩
  · refine .inr ⟨hne.symm, ?_⟩
    rw [hu']
    exact congrArg some (if_neg hne).symm

theorem setPhase_self (ht : nodes[id]? = some t) :
    (setPhase nodes id p)[id]? = some { t with phase := p } := by
  rw [setPhase, getElem?_modify, ht]
  exact congrArg some (if_pos rfl)

theorem setPhase_of_ne (hne : j ≠ id) : (setPhase nodes id p)[j]? = nodes[j]? := by
  rw [setPhase, getElem?_modify]
  cases nodes[j]? with
  | none => rfl
  | some u => exact congrArg some (if_neg hne.symm)

theorem append_cases (hu : (nodes ++ [t])[j]? = some u) :
    nodes[j]? = some u ∨ (j = nodes.length ∧ u = t) := by
  rcases Nat.lt_or_ge j nodes.length with hj | hj
  · rw [getElem?_append_left hj] at hu
    exact .inl hu
  · rw [getElem?_append_right hj, getElem?_singleton] at hu
    obtain ⟨hj', hu⟩ := ite_none_right_eq_some.1 hu
    exact .inr ⟨by omega, (some.inj hu).symm⟩

theorem Table.exists_node (h : Table tasks nodes) (ht : nodes[id]? = some t)
    (hin : t.phase.InTree) : ∃ n ∈ tasks.toList, n.id = id ∧ n.call = t.call := by
  obtain ⟨n, hn, hid⟩ := h.inTree id t ht hin
  obtain ⟨t', ht', -, hcall⟩ := h.node n hn
  rw [hid, ht] at ht'
  obtain rfl := some.inj ht'
  exact ⟨n, hn, hid, hcall.symm⟩

/-- Nodes are determined by their addresses. -/
theorem Table.eq_of_id (h : Table tasks nodes) (hm : m ∈ tasks.toList) (hn : n ∈ tasks.toList)
    (hid : m.id = n.id) : m = n := by
  obtain ⟨t, ht, -, hcall⟩ := h.node m hm
  obtain ⟨t', ht', -, hcall'⟩ := h.node n hn
  rw [hid, ht'] at ht
  obtain ⟨⟩ := ht
  exact h.order.eq_of_key hm hn (hcall.symm.trans hcall')

/-- No two tasks with a node in the tree have the same callback. -/
theorem Table.id_eq (h : Table tasks nodes) (ht : nodes[id]? = some t) (hin : t.phase.InTree)
    (hu : nodes[j]? = some u) (hin' : u.phase.InTree) (hcall : t.call = u.call) : id = j := by
  obtain ⟨n, hn, rfl, hncall⟩ := h.exists_node ht hin
  obtain ⟨n', hn', rfl, hncall'⟩ := h.exists_node hu hin'
  rw [h.order.eq_of_key hn hn' (by rw [hncall, hncall', hcall])]

theorem Table.setPhase (h : Table tasks nodes) (ht : nodes[id]? = some t)
    (hin : p.InTree ↔ t.phase.InTree) : Table tasks (setPhase nodes id p) where
  order := h.order
  node n hn := by
    obtain ⟨u, hu, hu', hcall⟩ := h.node n hn
    rcases eq_or_ne n.id id with hid | hne
    · rw [hid, ht] at hu
      obtain ⟨⟩ := hu
      exact ⟨{ t with phase := p }, by rw [hid, setPhase_self ht], hin.2 hu', hcall⟩
    · exact ⟨u, by rw [setPhase_of_ne hne, hu], hu', hcall⟩
  inTree j u hu hu' := by
    rcases setPhase_cases ht hu with ⟨rfl, rfl⟩ | ⟨-, hu⟩
    · exact h.inTree j t ht (hin.1 hu')
    · exact h.inTree j u hu hu'

/-- The nodes after a mark is set or taken. -/
theorem mem_setScheduled : m ∈ (setScheduled id v tasks).toList ↔
    ∃ n ∈ tasks.toList, (if n.id = id then { n with scheduled := v } else n) = m := by
  rw [setScheduled, Tree.toList_map, List.mem_map]

theorem marked_id (id : ℕ) (v : Bool) (n : Node) :
    (if n.id = id then { n with scheduled := v } else n).id = n.id := by
  split <;> rfl

theorem marked_call (id : ℕ) (v : Bool) (n : Node) :
    (if n.id = id then { n with scheduled := v } else n).call = n.call := by
  split <;> rfl

theorem Table.setScheduled (h : Table tasks nodes) (id : ℕ) (v : Bool) :
    Table (setScheduled id v tasks) nodes where
  order := h.order.map (marked_call id v)
  node m hm := by
    obtain ⟨n, hn, rfl⟩ := mem_setScheduled.1 hm
    rw [marked_id, marked_call]
    exact h.node n hn
  inTree j t ht hin := by
    obtain ⟨n, hn, hid⟩ := h.inTree j t ht hin
    exact ⟨_, mem_setScheduled.2 ⟨n, hn, rfl⟩, by rw [marked_id, hid]⟩

theorem Table.insert (h : Table tasks nodes) {k : ℕ} (hp : t.phase.InTree)
    (hn : n.id = nodes.length) (hcall : n.call = t.call)
    (hl : (tasks.locate fun m => compare n.call m.call) = .vacant k) :
    Table (tasks.insertAt k n) (nodes ++ [t]) := by
  obtain ⟨horder, hmem⟩ := h.order.insertAt hl
  refine ⟨horder, fun m hm => ?_, fun j u hu hin => ?_⟩
  · rcases (hmem m).1 hm with rfl | hm
    · exact ⟨t, by rw [hn, getElem?_concat_length], hp, hcall.symm⟩
    · obtain ⟨u, hu, hin⟩ := h.node m hm
      exact ⟨u, by rw [getElem?_append_left (List.getElem?_eq_some_iff.1 hu).1, hu], hin⟩
  · rcases append_cases hu with hu | ⟨rfl, -⟩
    · obtain ⟨m, hm, hid⟩ := h.inTree j u hu hin
      exact ⟨m, (hmem m).2 (.inr hm), hid⟩
    · exact ⟨n, (hmem n).2 (.inl rfl), hn⟩

/-- The node of a task is found by its address, and deleted. -/
theorem Table.remove (h : Table tasks nodes) (ht : nodes[id]? = some t) (hin : t.phase.InTree) :
    ∃ k n, (tasks.toList.findIdx? fun m => m.id == id) = some k ∧ tasks.toList[k]? = some n ∧
      n.call = t.call ∧ n ∈ tasks.toList ∧ n.id = id ∧
      ∀ m, m ∈ (tasks.removeAt k).toList ↔ m ∈ tasks.toList ∧ m ≠ n := by
  obtain ⟨n, hn, hid, hcall⟩ := h.exists_node ht hin
  have honly : tasks.toList.Pairwise fun y z => ¬ ((y.id == id) = true ∧ (z.id == id) = true) := by
    refine h.order.imp_of_mem fun {y z} hy hz hlt heq => ?_
    have hyz : y.id = z.id := (beq_iff_eq.1 heq.1).trans (beq_iff_eq.1 heq.2).symm
    rw [h.eq_of_id hy hz hyz] at hlt
    exact lt_irrefl _ hlt
  obtain ⟨as, bs, k, hl, hk, hdel⟩ :=
    @Tree.toList_removeAt_findIdx _ tasks n (fun m => m.id == id) hn (beq_iff_eq.2 hid) honly
  obtain ⟨hlt, hget, -⟩ := findIdx?_eq_some_iff_getElem.1 hk
  have hat : tasks.toList[k] = n :=
    h.eq_of_id (getElem_mem hlt) hn ((beq_iff_eq.1 hget).trans hid.symm)
  have hnodup : (as ++ n :: bs).Nodup := by
    rw [← hl]
    exact h.order.imp fun {x y} hlt => ne_of_apply_ne Node.call (ne_of_lt hlt)
  obtain ⟨hnot, -⟩ := nodup_cons.1 (nodup_middle.1 hnodup)
  refine ⟨k, n, hk, by rw [getElem?_eq_getElem hlt, hat], hcall, hn, hid, fun m => ?_⟩
  rw [hdel, hl, mem_append, mem_append, mem_cons]
  refine ⟨fun hm => ⟨hm.imp_right .inr, fun heq => hnot (mem_append.2 (heq ▸ hm))⟩, ?_⟩
  rintro ⟨hm | rfl | hm, hne⟩
  · exact .inl hm
  · exact absurd rfl hne
  · exact .inr hm

theorem Table.removeAt (h : Table tasks nodes) (ht : nodes[id]? = some t) {k : ℕ}
    (hp : ¬p.InTree) (hn : n ∈ tasks.toList) (hid : n.id = id)
    (hmem : ∀ m, m ∈ (tasks.removeAt k).toList ↔ m ∈ tasks.toList ∧ m ≠ n) :
    Table (tasks.removeAt k) (RunRateLimited.setPhase nodes id p) where
  order := h.order.removeAt k
  node m hm := by
    obtain ⟨hm, hne⟩ := (hmem m).1 hm
    have hidne : m.id ≠ id := fun heq => hne (h.eq_of_id hm hn (heq.trans hid.symm))
    rw [setPhase_of_ne hidne]
    exact h.node m hm
  inTree j u hu hin := by
    rcases setPhase_cases ht hu with ⟨rfl, rfl⟩ | ⟨hne, hu⟩
    · exact absurd hin hp
    · obtain ⟨m, hm, rfl⟩ := h.inTree j u hu hin
      exact ⟨m, (hmem m).2 ⟨hm, fun heq => hne (by rw [heq, hid])⟩, rfl⟩

/-! ## Times -/

/-- The time from which on a task may start its callback. -/
def Task.dueAt (clock : ℕ) (t : Task) : ℕ :=
  match t.phase with
  | .registering => clock + t.period
  | .waiting runat => runat
  | _ => clock

/-- The starts are apart, and the next start of each callback will be. -/
structure Spaced (clock : ℕ) (tasks : Tree Node) (nodes : List Task) (starts : List Start) :
    Prop where
  apart : starts.Pairwise fun a b => a.call = b.call → a.time + a.period ≤ b.time
  due : ∀ a ∈ starts, ∀ (id : ℕ) (t : Task), nodes[id]? = some t → t.phase.InTree →
    t.call = a.call → a.time + a.period ≤ t.dueAt clock
  free : ∀ a ∈ starts, (∀ n ∈ tasks.toList, n.call ≠ a.call) → a.time + a.period ≤ clock

variable {clock : ℕ} {starts : List Start}

section

variable (h : Spaced clock tasks nodes starts)
include h

/-- A task goes on, and when it is in the tree it is not due earlier than before. -/
theorem Spaced.setPhase (ht : nodes[id]? = some t)
    (hin : p.InTree → t.phase.InTree ∧ t.dueAt clock ≤ { t with phase := p }.dueAt clock) :
    Spaced clock tasks (setPhase nodes id p) starts where
  apart := h.apart
  due a ha j u hu hu' hcall := by
    rcases setPhase_cases ht hu with ⟨rfl, rfl⟩ | ⟨-, hu⟩
    · exact (h.due a ha j t ht (hin hu').1 hcall).trans (hin hu').2
    · exact h.due a ha j u hu hu' hcall
  free := h.free

/-- A task that is due starts its callback. -/
theorem Spaced.run (htable : Table tasks nodes)
    (ht : nodes[id]? = some t) (hin : t.phase.InTree) (hnow : t.dueAt clock ≤ clock)
    (hdue : clock + t.period ≤ { t with phase := p }.dueAt clock) (name : String)
    (inThread : Bool) : Spaced clock tasks (RunRateLimited.setPhase nodes id p)
      (starts ++ [⟨t.call, name, inThread, clock, t.period⟩]) where
  apart := by
    refine pairwise_append.2 ⟨h.apart, pairwise_singleton _ _, fun a ha b hb hcall => ?_⟩
    obtain rfl := mem_singleton.1 hb
    exact (h.due a ha id t ht hin hcall.symm).trans hnow
  due a ha j u hu hu' hcall := by
    have hle : clock ≤ { t with phase := p }.dueAt clock := (Nat.le_add_right _ _).trans hdue
    rcases mem_append.1 ha with ha | ha
    · rcases setPhase_cases ht hu with ⟨rfl, rfl⟩ | ⟨-, hu⟩
      · exact (h.due a ha j t ht hin hcall).trans (hnow.trans hle)
      · exact h.due a ha j u hu hu' hcall
    · obtain rfl := mem_singleton.1 ha
      rcases setPhase_cases ht hu with ⟨rfl, rfl⟩ | ⟨hne, hu⟩
      · exact hdue
      · exact absurd (htable.id_eq hu hu' ht hin hcall) hne
  free a ha hnone := by
    rcases mem_append.1 ha with ha | ha
    · exact h.free a ha hnone
    · obtain rfl := mem_singleton.1 ha
      obtain ⟨n, hn, -, hcall⟩ := htable.exists_node ht hin
      exact absurd hcall (hnone n hn)

theorem Spaced.tick {time : ℕ} (hle : clock ≤ time) : Spaced time tasks nodes starts where
  apart := h.apart
  due a ha id t ht hin hcall := by
    refine (h.due a ha id t ht hin hcall).trans ?_
    rw [Task.dueAt, Task.dueAt]
    cases t.phase with
    | registering => exact Nat.add_le_add_right hle _
    | waiting runat => exact le_rfl
    | _ => exact hle
  free a ha hnone := (h.free a ha hnone).trans hle

theorem Spaced.setScheduled (id : ℕ) (v : Bool) :
    Spaced clock (setScheduled id v tasks) nodes starts where
  apart := h.apart
  due := h.due
  free a ha hnone := by
    refine h.free a ha fun n hn => ?_
    rw [← marked_call id v n]
    exact hnone _ (mem_setScheduled.2 ⟨n, hn, rfl⟩)

/-- A new task is due at once: there was none for its callback. -/
theorem Spaced.insert (htable : Table tasks nodes) {k : ℕ}
    (hp : t.phase = .starting) (hcall : n.call = t.call)
    (hl : (tasks.locate fun m => compare n.call m.call) = .vacant k) :
    Spaced clock (tasks.insertAt k n) (nodes ++ [t]) starts where
  apart := h.apart
  due a ha j u hu hin hu' := by
    rcases append_cases hu with hu | ⟨-, rfl⟩
    · exact h.due a ha j u hu hin hu'
    · rw [Task.dueAt, hp]
      refine h.free a ha fun m hm => ?_
      rw [← hu', ← hcall]
      exact htable.order.ne_of_locate hl hm
  free a ha hnone := by
    obtain ⟨-, hmem⟩ := htable.order.insertAt hl
    exact h.free a ha fun m hm => hnone m ((hmem m).2 (.inr hm))

theorem Spaced.removeAt (ht : nodes[id]? = some t) {k : ℕ}
    (hin : t.phase.InTree) (hnow : t.dueAt clock ≤ clock) (hp : ¬p.InTree) (hcall : n.call = t.call)
    (hmem : ∀ m, m ∈ (tasks.removeAt k).toList ↔ m ∈ tasks.toList ∧ m ≠ n) :
    Spaced clock (tasks.removeAt k) (RunRateLimited.setPhase nodes id p) starts where
  apart := h.apart
  due a ha j u hu hin hcall := by
    rcases setPhase_cases ht hu with ⟨rfl, rfl⟩ | ⟨-, hu⟩
    · exact absurd hin hp
    · exact h.due a ha j u hu hin hcall
  free a ha hnone := by
    by_cases heq : t.call = a.call
    · exact (h.due a ha id t ht hin heq).trans hnow
    · refine h.free a ha fun m hm => ?_
      by_cases hmn : m = n
      · rwa [hmn, hcall]
      · exact hnone m ((hmem m).2 ⟨hm, hmn⟩)

end

/-! ## Pending starts -/

/-- A start of a callback is pending. -/
def Pending (tasks : Tree Node) (nodes : List Task) (call : ℕ) : Prop :=
  (∃ (id : ℕ) (t : Task), nodes[id]? = some t ∧ t.call = call ∧ t.phase = .starting) ∨
    (∃ (id : ℕ) (t : Task) (name : String), nodes[id]? = some t ∧ t.phase = .called call name) ∨
    ∃ n ∈ tasks.toList, n.call = call ∧ n.scheduled = true

variable {call : ℕ} {name : String}

/-- A task goes on that is not about to make the start. -/
theorem Pending.setPhase (h : Pending tasks nodes call) (ht : nodes[id]? = some t)
    (hcaller : t.phase = .starting → t.call ≠ call) (htimer : ∀ name, t.phase ≠ .called call name) :
    Pending tasks (setPhase nodes id p) call := by
  rcases h with ⟨j, u, hu, hcall, hphase⟩ | ⟨j, u, name, hu, hphase⟩ | h
  · refine .inl ⟨j, u, ?_, hcall, hphase⟩
    rw [setPhase_of_ne ?_, hu]
    rintro rfl
    obtain rfl := some.inj (ht.symm.trans hu)
    exact hcaller hphase hcall
  · refine .inr (.inl ⟨j, u, name, ?_, hphase⟩)
    rw [setPhase_of_ne ?_, hu]
    rintro rfl
    obtain rfl := some.inj (ht.symm.trans hu)
    exact htimer name hphase
  · exact .inr (.inr h)

theorem Pending.mark (h : Pending tasks nodes call) (id : ℕ) :
    Pending (setScheduled id true tasks) nodes call := by
  refine h.imp_right fun h => h.imp_right ?_
  rintro ⟨n, hn, hcall, hscheduled⟩
  refine ⟨_, mem_setScheduled.2 ⟨n, hn, rfl⟩, by rw [marked_call, hcall], ?_⟩
  split
  · rfl
  · exact hscheduled

theorem pending_mark (hn : n ∈ tasks.toList) :
    Pending (setScheduled n.id true tasks) nodes n.call :=
  .inr (.inr ⟨_, mem_setScheduled.2 ⟨n, hn, rfl⟩, marked_call .., by rw [if_pos rfl]⟩)

theorem getElem?_append_of_some (hu : nodes[j]? = some u) (t : Task) :
    (nodes ++ [t])[j]? = some u := by
  rw [getElem?_append_left (List.getElem?_eq_some_iff.1 hu).1, hu]

theorem Pending.append (h : Pending tasks nodes call) {tasks' : Tree Node} (t : Task)
    (hsub : ∀ m ∈ tasks.toList, m ∈ tasks'.toList) : Pending tasks' (nodes ++ [t]) call := by
  rcases h with ⟨j, u, hu, hphase⟩ | ⟨j, u, name, hu, hphase⟩ | ⟨n, hn, hcall⟩
  · exact .inl ⟨j, u, getElem?_append_of_some hu t, hphase⟩
  · exact .inr (.inl ⟨j, u, name, getElem?_append_of_some hu t, hphase⟩)
  · exact .inr (.inr ⟨n, hsub n hn, hcall⟩)

theorem Pending.take (h : Pending tasks nodes call) (htable : Table tasks nodes)
    (ht : nodes[id]? = some t) {runat : ℕ} (hphase : t.phase = .waiting runat)
    (hn : n ∈ tasks.toList) (hid : n.id = id) :
    Pending (setScheduled id false tasks)
      (RunRateLimited.setPhase nodes id (.called n.call n.name)) call := by
  have hmove := h.setPhase (p := .called n.call n.name) ht
    (fun hc => by rw [hphase] at hc; cases hc) fun name hc => by rw [hphase] at hc; cases hc
  rcases hmove with hmove | hmove | ⟨m, hm, hcall, hscheduled⟩
  · exact .inl hmove
  · exact .inr (.inl hmove)
  · by_cases hmid : m.id = id
    · obtain rfl := htable.eq_of_id hm hn (hmid.trans hid.symm)
      exact .inr (.inl ⟨id, _, m.name, setPhase_self ht, by rw [hcall]⟩)
    · refine .inr (.inr ⟨m, mem_setScheduled.2 ⟨m, hm, if_neg hmid⟩, hcall, hscheduled⟩)

theorem Pending.removeAt (h : Pending tasks nodes call) (ht : nodes[id]? = some t) {runat k : ℕ}
    (hphase : t.phase = .waiting runat) (hscheduled : n.scheduled = false)
    (hmem : ∀ m, m ∈ (tasks.removeAt k).toList ↔ m ∈ tasks.toList ∧ m ≠ n) :
    Pending (tasks.removeAt k) (RunRateLimited.setPhase nodes id p) call := by
  have hmove := h.setPhase (p := p) ht (fun hc => by rw [hphase] at hc; cases hc)
    fun name hc => by rw [hphase] at hc; cases hc
  refine hmove.imp_right fun h => h.imp_right ?_
  rintro ⟨m, hm, hcall, hmark⟩
  refine ⟨m, (hmem m).2 ⟨hm, ?_⟩, hcall, hmark⟩
  rintro rfl
  exact Bool.noConfusion (hscheduled.symm.trans hmark)

/-! ## The timer thread, and freed nodes -/

/-- Only the node whose timer is being called is in a callback. -/
def Busy (nodes : List Task) (running : Option ℕ) : Prop :=
  ∀ (id : ℕ) (t : Task), nodes[id]? = some t → t.phase.InTimer → running = some id

variable {running : Option ℕ}

theorem Busy.setPhase (h : Busy nodes running) (ht : nodes[id]? = some t)
    (hp : p.InTimer → running = some id) : Busy (setPhase nodes id p) running := by
  intro j u hu hin
  rcases setPhase_cases ht hu with ⟨rfl, rfl⟩ | ⟨-, hu⟩
  · exact hp hin
  · exact h j u hu hin

theorem Busy.fire (h : Busy nodes none) (ht : nodes[id]? = some t) :
    Busy (RunRateLimited.setPhase nodes id p) (some id) := by
  intro j u hu hin
  rcases setPhase_cases ht hu with ⟨rfl, rfl⟩ | ⟨-, hu⟩
  · rfl
  · cases h j u hu hin

theorem Busy.finish (h : Busy nodes running) (ht : nodes[id]? = some t) (hin : t.phase.InTimer)
    (hp : ¬p.InTimer) : Busy (RunRateLimited.setPhase nodes id p) none := by
  intro j u hu hin'
  rcases setPhase_cases ht hu with ⟨rfl, rfl⟩ | ⟨hne, hu⟩
  · exact absurd hin' hp
  · exact absurd (some.inj ((h j u hu hin').symm.trans (h id t ht hin))) hne

theorem Busy.append (h : Busy nodes running) (hp : ¬t.phase.InTimer) :
    Busy (nodes ++ [t]) running := by
  intro j u hu hin
  rcases append_cases hu with hu | ⟨-, rfl⟩
  · exact h j u hu hin
  · exact absurd hin hp

/-- The callback that the timer is about to start is that of its task. -/
def Called (nodes : List Task) : Prop :=
  ∀ (id : ℕ) (t : Task) (call : ℕ) (name : String), nodes[id]? = some t →
    t.phase = .called call name → t.call = call

theorem Called.setPhase (h : Called nodes) (ht : nodes[id]? = some t)
    (hp : ∀ call name, p = .called call name → t.call = call) :
    Called (setPhase nodes id p) := by
  intro j u call name hu hphase
  rcases setPhase_cases ht hu with ⟨rfl, rfl⟩ | ⟨-, hu⟩
  · exact hp call name hphase
  · exact h j u call name hu hphase

theorem Called.append (h : Called nodes) (hp : t.phase = .starting) : Called (nodes ++ [t]) := by
  intro j u call name hu hphase
  rcases append_cases hu with hu | ⟨-, rfl⟩
  · exact h j u call name hu hphase
  · rw [hp] at hphase
    cases hphase

/-- The freed nodes are those of the tasks that have come to their end. -/
structure Freed (nodes : List Task) (freed : List ℕ) : Prop where
  nodup : freed.Nodup
  iff : ∀ (id : ℕ) (t : Task), nodes[id]? = some t → (id ∈ freed ↔ t.phase = .freed)
  lt : ∀ id ∈ freed, id < nodes.length

variable {freed : List ℕ}

theorem length_setPhase : (setPhase nodes id p).length = nodes.length := length_modify ..

theorem Freed.setPhase (h : Freed nodes freed) (ht : nodes[id]? = some t)
    (hphase : t.phase ≠ .freed) (hp : p ≠ .freed) : Freed (setPhase nodes id p) freed where
  nodup := h.nodup
  iff j u hu := by
    rcases setPhase_cases ht hu with ⟨rfl, rfl⟩ | ⟨-, hu⟩
    · exact ⟨fun hmem => absurd ((h.iff j t ht).1 hmem) hphase, fun heq => absurd heq hp⟩
    · exact h.iff j u hu
  lt j hj := by
    rw [length_setPhase]
    exact h.lt j hj

theorem Freed.free (h : Freed nodes freed) (ht : nodes[id]? = some t) (hphase : t.phase ≠ .freed) :
    Freed (RunRateLimited.setPhase nodes id .freed) (freed ++ [id]) where
  nodup := by
    refine nodup_append'.2 ⟨h.nodup, nodup_singleton id, ?_⟩
    exact disjoint_singleton.2 fun hmem => hphase ((h.iff id t ht).1 hmem)
  iff j u hu := by
    rw [mem_append, mem_singleton]
    rcases setPhase_cases ht hu with ⟨rfl, rfl⟩ | ⟨hne, hu⟩
    · exact ⟨fun _ => rfl, fun _ => .inr rfl⟩
    · rw [← h.iff j u hu]
      exact or_iff_left hne
  lt := by
    rw [length_setPhase]
    exact forall_mem_append.2
      ⟨h.lt, forall_mem_singleton.2 (List.getElem?_eq_some_iff.1 ht).1⟩

theorem Freed.append (h : Freed nodes freed) (hp : t.phase ≠ .freed) :
    Freed (nodes ++ [t]) freed where
  nodup := h.nodup
  iff j u hu := by
    rcases append_cases hu with hu | ⟨rfl, rfl⟩
    · exact h.iff j u hu
    · exact ⟨fun hmem => absurd (h.lt _ hmem) (lt_irrefl _), fun heq => absurd heq hp⟩
  lt j hj := by
    rw [length_append]
    exact Nat.lt_add_right _ (h.lt j hj)

/-! ## Runs -/

/-- The invariant. -/
structure Inv (s : State) : Prop where
  table : Table s.tasks s.nodes
  spaced : Spaced s.clock s.tasks s.nodes s.starts
  pending : ∀ call ∈ s.unstarted, Pending s.tasks s.nodes call
  busy : Busy s.nodes s.running
  called : Called s.nodes
  freed : Freed s.nodes s.freed
  notUsed : s.fault = false

variable {s s' : State} {a : Action}

theorem inv_start (time : ℕ) : Inv (.start time) where
  table := ⟨Tree.keyOrdered_nil, forall_mem_nil _, fun _ _ h => (by cases h)⟩
  spaced := ⟨.nil, forall_mem_nil _, forall_mem_nil _⟩
  pending := forall_mem_nil _
  busy _ _ h := by cases h
  called _ _ _ _ h := by cases h
  freed := ⟨.nil, fun _ _ h => (by cases h), forall_mem_nil _⟩
  notUsed := rfl

theorem Inv.runRatelimited (h : Inv s) (name : String) (call minintervalsec : ℕ)
    (runinthread : Bool) : Inv (s.runRatelimited name call minintervalsec runinthread) := by
  rw [State.runRatelimited]
  dsimp only
  split
  · next k node hl =>
    obtain ⟨hn, hcall⟩ := Tree.key_of_locate hl
    split
    · next hscheduled =>
      refine { h with pending := forall_mem_cons.2 ⟨?_, h.pending⟩ }
      exact .inr (.inr ⟨node, hn, hcall, hscheduled⟩)
    · refine { h with
        table := h.table.setScheduled node.id true
        spaced := h.spaced.setScheduled node.id true
        pending := forall_mem_cons.2 ⟨?_, fun call' hc => (h.pending call' hc).mark _⟩ }
      rw [← hcall]
      exact pending_mark hn
  · next k hl =>
    -- The new node and its task.
    obtain ⟨n, hn⟩ : ∃ n : Node, n = ⟨s.nodes.length, call, name, false⟩ := ⟨_, rfl⟩
    obtain ⟨t, ht⟩ : ∃ t : Task, t = ⟨name, call, minintervalsec, runinthread, .starting⟩ :=
      ⟨_, rfl⟩
    have hcall : n.call = t.call := by rw [hn, ht]
    have hphase : t.phase = .starting := by rw [ht]
    have hloc : (s.tasks.locate fun m => compare n.call m.call) = .vacant k := by rw [hn, hl]
    have hmem := (h.table.order.insertAt hloc).2
    have hsub : ∀ m ∈ s.tasks.toList, m ∈ (s.tasks.insertAt k n).toList :=
      fun m hm => (hmem m).2 (.inr hm)
    rw [← hn, ← ht]
    exact {
      table := h.table.insert (by rw [hphase]; trivial) (by rw [hn]) hcall hloc
      spaced := h.spaced.insert h.table hphase hcall hloc
      pending := forall_mem_cons.2
        ⟨.inl ⟨s.nodes.length, t, getElem?_concat_length, by rw [ht], hphase⟩,
          fun call' hc => (h.pending call' hc).append t hsub⟩
      busy := h.busy.append (by rw [hphase]; exact id)
      called := h.called.append hphase
      freed := h.freed.append (by rw [hphase]; exact Phase.noConfusion)
      notUsed := h.notUsed }

/-- The starts that are still pending when a callback is started. -/
theorem Inv.pending_run (h : Inv s) (ht : s.nodes[id]? = some t) (p : Phase) :
    ∀ call ∈ s.unstarted.filter (· ≠ t.call), Pending s.tasks (setPhase s.nodes id p) call := by
  intro call hc
  obtain ⟨hc, hne⟩ := mem_filter.1 hc
  have hne : call ≠ t.call := of_decide_eq_true hne
  refine (h.pending call hc).setPhase ht (fun _ => hne.symm) fun name hphase => ?_
  exact hne (h.called id t call name ht hphase).symm

theorem Inv.caller (h : Inv s) (hstep : step s (.caller id) = some s') : Inv s' := by
  obtain ⟨t, ht, hstep⟩ := bind_eq_some_iff.1 hstep
  cases hphase : t.phase with
  | starting =>
    rw [hphase] at hstep
    obtain ⟨⟩ := hstep
    have hin : t.phase.InTree := by rw [hphase]; trivial
    have hdue : t.dueAt s.clock = s.clock := by rw [Task.dueAt, hphase]
    exact {
      table := h.table.setPhase ht (by rw [hphase]; exact Iff.rfl)
      spaced := h.spaced.run h.table ht hin (le_of_eq hdue) le_rfl t.name t.runinthread
      pending := h.pending_run ht .registering
      busy := h.busy.setPhase ht fun hin => False.elim hin
      called := h.called.setPhase ht fun _ _ hc => (by cases hc)
      freed := h.freed.setPhase ht (by rw [hphase]; exact Phase.noConfusion) Phase.noConfusion
      notUsed := h.notUsed }
  | registering =>
    rw [hphase] at hstep
    obtain ⟨⟩ := hstep
    have hin : t.phase.InTree := by rw [hphase]; trivial
    have hdue : t.dueAt s.clock = s.clock + t.period := by rw [Task.dueAt, hphase]
    exact {
      table := h.table.setPhase ht (by rw [hphase]; exact Iff.rfl)
      spaced := h.spaced.setPhase ht fun _ => ⟨hin, le_of_eq hdue⟩
      pending := fun call hc => (h.pending call hc).setPhase ht
        (fun hc => by rw [hphase] at hc; cases hc) fun name hc => by rw [hphase] at hc; cases hc
      busy := h.busy.setPhase ht fun hin => False.elim hin
      called := h.called.setPhase ht fun _ _ hc => (by cases hc)
      freed := h.freed.setPhase ht (by rw [hphase]; exact Phase.noConfusion) Phase.noConfusion
      notUsed := h.notUsed }
  | _ =>
    rw [hphase] at hstep
    cases hstep

theorem Inv.timerSection (h : Inv s) (ht : s.nodes[id]? = some t) {runat : ℕ}
    (hphase : t.phase = .waiting runat) (hrunning : s.running = none) (hdue : runat ≤ s.clock) :
    Inv (s.timerSection id) := by
  have hin : t.phase.InTree := by rw [hphase]; trivial
  have hnow : t.dueAt s.clock ≤ s.clock := by rwa [Task.dueAt, hphase]
  have hbusy : Busy s.nodes none := hrunning ▸ h.busy
  have hfreed : t.phase ≠ .freed := by rw [hphase]; exact Phase.noConfusion
  obtain ⟨k, n, hk, hget, hcall, hn, hid, hmem⟩ := h.table.remove ht hin
  rw [State.timerSection, hk]
  dsimp only
  rw [hget]
  dsimp only
  split
  · exact {
      table := (h.table.setScheduled id false).setPhase ht (by rw [hphase]; exact Iff.rfl)
      spaced := (h.spaced.setScheduled id false).setPhase ht fun _ => ⟨hin, hnow⟩
      pending := fun call hc => (h.pending call hc).take h.table ht hphase hn hid
      busy := hbusy.fire ht
      called := h.called.setPhase ht fun call name hc => by
        rw [← hcall]
        exact (Phase.called.inj hc).1
      freed := h.freed.setPhase ht hfreed Phase.noConfusion
      notUsed := h.notUsed }
  · next hscheduled =>
    have hout : ¬Phase.stopping.InTree := fun hc => hc
    exact {
      table := h.table.removeAt ht hout hn hid hmem
      spaced := h.spaced.removeAt ht hin hnow hout hcall hmem
      pending := fun call hc =>
        (h.pending call hc).removeAt ht hphase (Bool.eq_false_iff.2 hscheduled) hmem
      busy := hbusy.fire ht
      called := h.called.setPhase ht fun _ _ hc => (by cases hc)
      freed := h.freed.setPhase ht hfreed Phase.noConfusion
      notUsed := h.notUsed }

/-- A node that has left the tree has no start to make. -/
theorem Inv.pending_retired (h : Inv s) (ht : s.nodes[id]? = some t)
    (hphase : t.phase = .stopping ∨ t.phase = .freeing) (p : Phase) :
    ∀ call ∈ s.unstarted, Pending s.tasks (setPhase s.nodes id p) call := by
  intro call hc
  refine (h.pending call hc).setPhase ht (fun hstart => ?_) fun name hcalled => ?_
  · rcases hphase with hphase | hphase <;> rw [hphase] at hstart <;> cases hstart
  · rcases hphase with hphase | hphase <;> rw [hphase] at hcalled <;> cases hcalled

theorem Inv.timer (h : Inv s) (hstep : step s (.timer id) = some s') : Inv s' := by
  obtain ⟨t, ht, hstep⟩ := bind_eq_some_iff.1 hstep
  cases hphase : t.phase with
  | waiting runat =>
    rw [hphase] at hstep
    obtain ⟨⟨hrunning, hdue⟩, hstep⟩ := ite_none_right_eq_some.1 hstep
    obtain ⟨⟩ := hstep
    exact h.timerSection ht hphase hrunning hdue
  | called call name =>
    rw [hphase] at hstep
    obtain ⟨⟩ := hstep
    obtain rfl := h.called id t call name ht hphase
    have hin : t.phase.InTree := by rw [hphase]; trivial
    have hdue : t.dueAt s.clock = s.clock := by rw [Task.dueAt, hphase]
    exact {
      table := h.table.setPhase ht (by rw [hphase]; exact Iff.rfl)
      spaced := h.spaced.run h.table ht hin (le_of_eq hdue) le_rfl name true
      pending := h.pending_run ht _
      busy := h.busy.finish ht (by rw [hphase]; trivial) fun hin => False.elim hin
      called := h.called.setPhase ht fun _ _ hc => (by cases hc)
      freed := h.freed.setPhase ht (by rw [hphase]; exact Phase.noConfusion) Phase.noConfusion
      notUsed := h.notUsed }
  | stopping =>
    rw [hphase] at hstep
    obtain ⟨⟩ := hstep
    have hrunning : s.running = some id := h.busy id t ht (by rw [hphase]; trivial)
    exact {
      table := h.table.setPhase ht (by rw [hphase]; exact Iff.rfl)
      spaced := h.spaced.setPhase ht fun hin => False.elim hin
      pending := h.pending_retired ht (.inl hphase) _
      busy := h.busy.setPhase ht fun _ => hrunning
      called := h.called.setPhase ht fun _ _ hc => (by cases hc)
      freed := h.freed.setPhase ht (by rw [hphase]; exact Phase.noConfusion) Phase.noConfusion
      notUsed := h.notUsed }
  | freeing =>
    rw [hphase] at hstep
    obtain ⟨⟩ := hstep
    exact {
      table := h.table.setPhase ht (by rw [hphase]; exact Iff.rfl)
      spaced := h.spaced.setPhase ht fun hin => False.elim hin
      pending := h.pending_retired ht (.inr hphase) _
      busy := h.busy.finish ht (by rw [hphase]; trivial) fun hin => False.elim hin
      called := h.called.setPhase ht fun _ _ hc => (by cases hc)
      freed := h.freed.free ht (by rw [hphase]; exact Phase.noConfusion)
      notUsed := h.notUsed }
  | _ =>
    rw [hphase] at hstep
    cases hstep

theorem Inv.step (h : Inv s) (hstep : step s a = some s') : Inv s' := by
  cases a with
  | call name call minintervalsec runinthread =>
    obtain ⟨⟩ := hstep
    exact h.runRatelimited name call minintervalsec runinthread
  | caller id => exact h.caller hstep
  | timer id => exact h.timer hstep
  | tick time =>
    obtain ⟨⟨-, hle⟩, hstep⟩ := ite_none_right_eq_some.1 hstep
    obtain ⟨⟩ := hstep
    exact { h with spaced := h.spaced.tick hle }

theorem Inv.sound (h : Inv s) : Sound s where
  pending call hc := by
    rcases h.pending call hc with hpending | ⟨id, t, name, ht, hphase⟩ | ⟨n, hn, hcall, hmark⟩
    · exact .inl hpending
    · exact .inr (.inl ⟨id, t, name, ht, hphase⟩)
    · obtain ⟨t, ht, hin, -⟩ := h.table.node n hn
      exact .inr (.inr ⟨n, hn, hcall, hmark, t, ht, hin⟩)
  apart := h.spaced.apart
  oneNode := h.table.order.imp ne_of_lt
  found n hn := h.table.order.locate_of_mem hn
  inTree id t ht := by
    refine ⟨?_, h.table.inTree id t ht⟩
    rintro ⟨n, hn, rfl⟩
    obtain ⟨t', ht', hin, -⟩ := h.table.node n hn
    obtain rfl := some.inj (ht.symm.trans ht')
    exact hin
  freedOnce := h.freed.nodup
  freed := h.freed.iff
  retired id t ht hphase := by
    have hstop : RunRateLimited.step s (.timer id) = some (s.goOn id .freeing) := by
      rw [RunRateLimited.step, ht, bind_some, hphase]
    have ht' : (s.goOn id .freeing).nodes[id]? = some { t with phase := .freeing } :=
      setPhase_self ht
    have hfree : RunRateLimited.step (s.goOn id .freeing) (.timer id) =
        some ({ s.goOn id .freeing with freed := s.freed ++ [id], running := none }.goOn id
          .freed) := by
      rw [RunRateLimited.step, ht', bind_some]
      rfl
    refine ⟨_, (congrArg (fun o => o.bind fun s => machine.run s [.timer id]) hstop).trans
      (congrArg (fun o => o.bind fun s => machine.run s []) hfree), ?_⟩
    exact mem_append_right s.freed mem_cons_self
  notUsed := h.notUsed

/-- In all interleavings of calls and timers. -/
theorem rateLimited_of_reachable (h : machine.Reachable (fun _ _ => True) s) : Sound s := by
  refine (h.invariant (P := Inv) ?_ fun _ _ _ h _ => h.step).sound
  rintro _ ⟨time, rfl⟩
  exact inv_start time

/-- Two calls for a callback, of which the timer makes the second start; the next time it finds no
    mark. -/
def twoCalls : List Action :=
  [.call "a" 7 1 true, .caller 0, .call "a" 7 1 true, .caller 0, .tick 1, .timer 0]

/-- All steps up to the free of the node. -/
theorem sound_twoCalls : ∃ s, machine.run (.start 0)
    (twoCalls ++ [.timer 0, .tick 2, .timer 0, .timer 0, .timer 0]) = some s ∧ Sound s := by
  have h : machine.Reachable (fun _ _ => True) (.start 0) := .init ⟨0, rfl⟩
  obtain ⟨s, hs⟩ : ∃ s, machine.run (.start 0)
      (twoCalls ++ [.timer 0, .tick 2, .timer 0, .timer 0, .timer 0]) = some s := ⟨_, rfl⟩
  exact ⟨s, hs, rateLimited_of_reachable (h.of_run hs)⟩

/-- The timer has taken the mark of the second call and has not yet made the start: its node is not
    marked any more, and no caller is about to make it. -/
theorem pending_at_timer : ∃ s, machine.run (.start 0) twoCalls = some s ∧ 7 ∈ s.unstarted ∧
    ¬ (AtCaller s 7 ∨ Marked s 7) := by
  refine ⟨_, rfl, by decide, ?_⟩
  rintro (⟨id, t, ht, -, hphase⟩ | ⟨n, hn, -, hmark, -⟩)
  · obtain ⟨hid, rfl⟩ := List.getElem?_eq_some_iff.1 ht
    obtain rfl := Nat.lt_one_iff.1 hid
    cases hphase
  · obtain rfl := mem_singleton.1 hn
    cases hmark

end Pclsync.Timers.RunRateLimited
