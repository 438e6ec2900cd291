import Pclsync.ConnectCache.System

/-!
# The nodes of the attempts

* `State.Found`: where the search for a host ends in the tree; `State.exists_search`.
* `State.exists_freeNode`: whether a node of a host is without a waiter.
* `State.Linked`: the tree holds the nodes of the attempts, in the order of their hosts.
* `State.Moved`: what one section does, in terms of the sequence of nodes; `State.Linked.moved`.
-/

namespace Pclsync.ConnectCache.State

open Function List Option

variable {α ι κ σ : Type*} {s s' : State α ι κ σ} {i w : ι} {a e : α} {host : κ} {xs as bs : List α}

/-! ## Nodes and their hosts -/

def HostIs (s : State α ι κ σ) (a : α) (host : κ) : Prop :=
  ∃ node, s.nodes a = some node ∧ node.host = host

/-- A node for a host that nobody waits for. -/
def Free (s : State α ι κ σ) (a : α) (host : κ) : Prop :=
  ∃ node, s.nodes a = some node ∧ node.host = host ∧ node.haswaiter = false

theorem Free.hostIs (h : s.Free a host) : s.HostIs a host := h.imp fun _ h => ⟨h.1, h.2.1⟩

theorem hostIs_iff {node : Node ι κ} (hnode : s.nodes a = some node) :
    s.HostIs a host ↔ node.host = host := by
  refine ⟨fun ⟨node', hnode', hhost⟩ => ?_, fun hhost => ⟨node, hnode, hhost⟩⟩
  rwa [some.inj (hnode.symm.trans hnode')]

theorem free_iff {node : Node ι κ} (hnode : s.nodes a = some node) :
    s.Free a host ↔ node.host = host ∧ node.haswaiter = false := by
  refine ⟨fun ⟨node', hnode', hfree⟩ => ?_, fun hfree => ⟨node, hnode, hfree⟩⟩
  rwa [some.inj (hnode.symm.trans hnode')]

theorem HostIs.unique {k : κ} (h : s.HostIs a host) (h' : s.HostIs a k) : host = k := by
  obtain ⟨node, hnode, rfl⟩ := h
  exact (hostIs_iff hnode).1 h'

variable [LinearOrder κ]

/-- All hosts of the nodes are before `host`. -/
def Below (s : State α ι κ σ) (xs : List α) (host : κ) : Prop :=
  ∀ a ∈ xs, ∀ h, s.HostIs a h → h < host

/-- All hosts of the nodes are after `host`. -/
def Above (s : State α ι κ σ) (xs : List α) (host : κ) : Prop :=
  ∀ a ∈ xs, ∀ h, s.HostIs a h → host < h

/-- The nodes are in the order of their hosts. -/
def Sorted (s : State α ι κ σ) (xs : List α) : Prop :=
  xs.Pairwise fun a b => ∀ h k, s.HostIs a h → s.HostIs b k → h ≤ k

/-- Where a search may end in a sequence of nodes. -/
inductive Found (s : State α ι κ σ) (host : κ) : List α → Place α → Prop
  | before {as bs : List α} {e : α} : s.Below as host → s.Above (e :: bs) host →
      Found s host (as ++ e :: bs) (.before e)
  | equal {as bs : List α} {e : α} : s.HostIs e host → Found s host (as ++ e :: bs) (.equal e)
  | after {as bs : List α} {e : α} : s.Below (as ++ [e]) host → s.Above bs host →
      Found s host (as ++ e :: bs) (.after e)

theorem Above.append (h : s.Above as host) (h' : s.Above bs host) : s.Above (as ++ bs) host :=
  fun a ha => (mem_append.1 ha).elim (h a) (h' a)

theorem Below.append (h : s.Below as host) (h' : s.Below bs host) : s.Below (as ++ bs) host :=
  fun a ha => (mem_append.1 ha).elim (h a) (h' a)

theorem Found.append_right {place : Place α} (h : s.Found host as place) (hbs : s.Above bs host) :
    s.Found host (as ++ bs) place := by
  cases h with
  | before hlt hgt =>
    rw [append_assoc]
    exact .before hlt (hgt.append hbs)
  | equal he =>
    rw [append_assoc]
    exact .equal he
  | after hlt hgt =>
    rw [append_assoc]
    exact .after hlt (hgt.append hbs)

theorem Found.append_left {place : Place α} (h : s.Found host bs place) (has : s.Below as host) :
    s.Found host (as ++ bs) place := by
  cases h with
  | before hlt hgt =>
    rw [← append_assoc]
    exact .before (has.append hlt) hgt
  | equal he =>
    rw [← append_assoc]
    exact .equal he
  | after hlt hgt =>
    rw [← append_assoc]
    exact .after (append_assoc _ _ _ ▸ has.append hlt) hgt

/-! ## The search -/

theorem exists_search {p : Option α} {t : Tree α} {n : ℕ} (hrep : s.links.Rep p t)
    (hroot : t.root = some e) (hlive : ∀ a ∈ t.toList, ∃ h, s.HostIs a h)
    (hsorted : s.Sorted t.toList) (hn : t.size ≤ n) :
    ∃ place, s.search host n e = some place ∧ s.Found host t.toList place := by
  induction t generalizing p n e with
  | nil => cases hroot
  | node l x r h ihl ihr =>
    obtain ⟨⟩ := hroot
    obtain ⟨hx, hl, hr⟩ := hrep
    rw [Tree.size] at hn
    obtain ⟨n, rfl⟩ := Nat.exists_eq_succ_of_ne_zero (show n ≠ 0 by omega)
    rw [Tree.toList_node] at hlive hsorted ⊢
    obtain ⟨hsl, hsr, hlr⟩ := pairwise_append.1 hsorted
    obtain ⟨hxr, hsr⟩ := pairwise_cons.1 hsr
    obtain ⟨k, node, hnode, rfl⟩ := hlive x (mem_append_right _ mem_cons_self)
    rw [search, hnode, bind_some, hx]
    rcases lt_trichotomy host node.host with hlt | rfl | hgt
    · -- to the left: the node and all after it are above the host
      have habove : s.Above (x :: r.toList) host := by
        intro b hb k hk
        rcases mem_cons.1 hb with rfl | hb
        · rwa [← (hostIs_iff hnode).1 hk]
        · exact hlt.trans_le (hxr b hb _ _ ⟨node, hnode, rfl⟩ hk)
      rw [if_pos hlt]
      cases hc : l.root with
      | none =>
        obtain rfl := Tree.root_eq_none hc
        have hbelow : s.Below [] host := fun _ h => (by cases h)
        exact ⟨.before x, rfl, .before hbelow habove⟩
      | some c =>
        obtain ⟨place, hrun, hfound⟩ := ihl (n := n) hl hc
          (fun b hb => hlive b (mem_append_left _ hb)) hsl (by omega)
        exact ⟨place, hrun, hfound.append_right habove⟩
    · rw [if_neg (lt_irrefl _), if_neg (lt_irrefl _)]
      exact ⟨.equal x, rfl, .equal ⟨node, hnode, rfl⟩⟩
    · -- to the right: the node and all before it are below the host
      have hbelow : s.Below (l.toList ++ [x]) host := by
        intro b hb k hk
        rcases mem_append.1 hb with hb | hb
        · exact (hlr b hb x mem_cons_self _ _ hk ⟨node, hnode, rfl⟩).trans_lt hgt
        · rw [mem_singleton.1 hb] at hk
          rwa [← (hostIs_iff hnode).1 hk]
      rw [if_neg hgt.not_gt, if_pos hgt]
      cases hc : r.root with
      | none =>
        obtain rfl := Tree.root_eq_none hc
        exact ⟨.after x, rfl, .after hbelow (fun _ h => (by cases h))⟩
      | some c =>
        obtain ⟨place, hrun, hfound⟩ := ihr (n := n) hr hc
          (fun b hb => hlive b (mem_append_right _ (mem_cons_of_mem _ hb))) hsr (by omega)
        refine ⟨place, hrun, ?_⟩
        rw [append_cons]
        exact hfound.append_left hbelow

variable [DecidableEq α]

/-- A walk over nodes in an order that keeps the nodes of the host together, at its beginning. -/
theorem exists_freeDuplicateLoop {side : Side} {ys : List α} {n : ℕ}
    (hnext : ∀ as y bs, ys = as ++ y :: bs →
      getNeighbour side s.allocs y s.links = some bs.head?)
    (hlive : ∀ b ∈ ys, ∃ h, s.HostIs b h)
    (hgroup : ys.Pairwise fun b c => s.HostIs c host → s.HostIs b host) (hn : ys.length ≤ n) :
    ∃ r, s.freeDuplicateLoop side host n ys.head? = some r ∧
      (∀ b, r = some b → b ∈ ys ∧ s.Free b host) ∧ (r = none → ∀ b ∈ ys, ¬ s.Free b host) := by
  induction ys generalizing n with
  | nil =>
    rw [head?_nil, freeDuplicateLoop]
    exact ⟨none, rfl, fun _ h => (by cases h), fun _ _ h => (by cases h)⟩
  | cons y ys ih =>
    obtain ⟨n, rfl⟩ := Nat.exists_eq_succ_of_ne_zero (show n ≠ 0 by rintro rfl; cases hn)
    obtain ⟨hy, hgroup⟩ := pairwise_cons.1 hgroup
    obtain ⟨k, node, hnode, rfl⟩ := hlive y mem_cons_self
    rw [head?_cons, freeDuplicateLoop, hnode, bind_some]
    by_cases hhost : node.host = host
    · rw [if_neg (not_not.2 hhost)]
      cases hwaiter : node.haswaiter with
      | false =>
        refine ⟨some y, rfl, fun b hb => ?_, fun h => (by cases h)⟩
        obtain ⟨⟩ := hb
        exact ⟨mem_cons_self, node, hnode, hhost, hwaiter⟩
      | true =>
        obtain ⟨r, hrun, hsome, hnone⟩ := ih
          (fun as z bs heq => hnext (y :: as) z bs (heq ▸ rfl))
          (fun b hb => hlive b (mem_cons_of_mem _ hb)) hgroup (Nat.le_of_succ_le_succ hn)
        refine ⟨r, ?_, fun b hb => ?_, fun h b hb => ?_⟩
        · rw [if_neg (by simp), hnext [] y ys rfl, bind_some]
          exact hrun
        · exact ⟨mem_cons_of_mem _ (hsome b hb).1, (hsome b hb).2⟩
        · rcases mem_cons.1 hb with rfl | hb
          · rw [free_iff hnode, hwaiter]
            exact fun h => (by cases h.2)
          · exact hnone h b hb
    · -- no node behind this one has the host
      rw [if_pos hhost]
      refine ⟨none, rfl, fun _ h => (by cases h), fun _ b hb hfree => hhost ?_⟩
      rcases mem_cons.1 hb with rfl | hb
      · exact (hostIs_iff hnode).1 hfree.hostIs
      · exact (hostIs_iff hnode).1 (hy b hb hfree.hostIs)

/-- The free node of a host, with a node `e` of the host in the tree. -/
theorem exists_freeNode (hstored : s.links.Stored s.tree (as ++ e :: bs))
    (hlen : (as ++ e :: bs).length ≤ s.allocs) (hlive : ∀ b ∈ as ++ e :: bs, ∃ h, s.HostIs b h)
    (hsorted : s.Sorted (as ++ e :: bs)) (he : s.HostIs e host) :
    ∃ r, s.freeNode e host = some r ∧
      (∀ b, r = some b → b ∈ as ++ e :: bs ∧ s.Free b host) ∧
      (r = none → ∀ b ∈ as ++ e :: bs, ¬ s.Free b host) := by
  obtain ⟨node, hnode, hhost⟩ := he
  rw [freeNode, hnode, bind_some]
  cases hwaiter : node.haswaiter with
  | false =>
    refine ⟨some e, rfl, fun b hb => ?_, fun h => (by cases h)⟩
    obtain ⟨⟩ := hb
    exact ⟨mem_append_right _ mem_cons_self, node, hnode, hhost, hwaiter⟩
  | true =>
    have henot : ¬ s.Free e host := by
      rw [free_iff hnode, hwaiter]
      exact fun h => (by cases h.2)
    rw [if_neg (by simp), neighbourIsFreeDuplicate]
    obtain ⟨hsas, hsebs, hcross⟩ := pairwise_append.1 hsorted
    obtain ⟨hebs, hsbs⟩ := pairwise_cons.1 hsebs
    have hnext : ∀ cs y ds, bs = cs ++ y :: ds →
        getNeighbour .right s.allocs y s.links = some ds.head? := by
      rintro cs y ds rfl
      have heq : as ++ e :: (cs ++ y :: ds) = (as ++ e :: cs) ++ y :: ds := by
        rw [append_assoc, cons_append]
      exact Heap.Stored.getNeighbour_eq .right (heq ▸ hstored) (heq ▸ hlen)
    have hprev : ∀ cs y ds, as.reverse = cs ++ y :: ds →
        getNeighbour .left s.allocs y s.links = some ds.head? := by
      intro cs y ds hrev
      obtain rfl : as = ds.reverse ++ y :: cs.reverse := by
        rw [← reverse_reverse as, hrev, reverse_append, reverse_cons, append_assoc]
        rfl
      rw [append_assoc, cons_append] at hstored hlen
      rw [hstored.getNeighbour_eq .left hlen, nearest, getLast?_reverse]
    -- going away from `e`, nodes of its host come first
    have hgroup : bs.Pairwise fun b c => s.HostIs c host → s.HostIs b host := by
      refine hsbs.imp_of_mem fun {b c} hb _ hbc hc => ?_
      obtain ⟨k, hk⟩ := hlive b (mem_append_right _ (mem_cons_of_mem _ hb))
      rwa [← le_antisymm (hbc k host hk hc) (hebs b hb host k ⟨node, hnode, hhost⟩ hk)]
    have hgroup' : as.reverse.Pairwise fun b c => s.HostIs c host → s.HostIs b host := by
      refine pairwise_reverse.2 (hsas.imp_of_mem fun {c b} _ hb hcb hc => ?_)
      obtain ⟨k, hk⟩ := hlive b (mem_append_left _ hb)
      rwa [← le_antisymm
        (hcross b hb e mem_cons_self k host hk ⟨node, hnode, hhost⟩) (hcb host k hc hk)]
    rw [length_append, length_cons] at hlen
    obtain ⟨r, hrun, hsome, hnone⟩ := exists_freeDuplicateLoop hnext
      (fun b hb => hlive b (mem_append_right _ (mem_cons_of_mem _ hb))) hgroup
      (show bs.length ≤ s.allocs by omega)
    obtain ⟨r', hrun', hsome', hnone'⟩ := exists_freeDuplicateLoop hprev
      (fun b hb => hlive b (mem_append_left _ (mem_reverse.1 hb))) hgroup'
      (show as.reverse.length ≤ s.allocs by rw [length_reverse]; omega)
    have hright := hstored.getNeighbour_eq .right
      (show (as ++ e :: bs).length ≤ s.allocs by rw [length_append, length_cons]; omega)
    have hleft := hstored.getNeighbour_eq .left
      (show (as ++ e :: bs).length ≤ s.allocs by rw [length_append, length_cons]; omega)
    rw [nearest, ← head?_reverse] at hleft
    rw [hright, bind_some, nearest, hrun, bind_some]
    cases r with
    | some b =>
      obtain ⟨hb, hfree⟩ := hsome b rfl
      refine ⟨some b, rfl, fun c hc => ?_, fun h => (by cases h)⟩
      obtain ⟨⟩ := hc
      exact ⟨mem_append_right _ (mem_cons_of_mem _ hb), hfree⟩
    | none =>
      dsimp only
      rw [hleft, bind_some]
      refine ⟨r', hrun', fun b hb => ?_, fun h b hb => ?_⟩
      · exact ⟨mem_append_left _ (mem_reverse.1 (hsome' b hb).1), (hsome' b hb).2⟩
      · rcases mem_append.1 hb with hb | hb
        · exact hnone' h b (mem_reverse.2 hb)
        · rcases mem_cons.1 hb with rfl | hb
          · exact henot
          · exact hnone rfl b hb

/-! ## The sections -/

variable [DecidableEq ι]

omit [DecidableEq α] [DecidableEq ι] in
/-- The tree holds the nodes `xs` of the attempts, in the order of their hosts. -/
structure Linked (s : State α ι κ σ) (xs : List α) : Prop where
  sound : s.fault = false
  stored : s.links.Stored s.tree xs
  length_le : xs.length ≤ s.allocs
  sorted : s.Sorted xs
  mem_iff : ∀ a, a ∈ xs ↔ ∃ i, (s.phase i).attempt = some a
  unique : ∀ i j a, (s.phase i).attempt = some a → (s.phase j).attempt = some a → i = j
  free : ∀ host, ∀ a ∈ xs, ∀ b ∈ xs, s.Free a host → s.Free b host → a = b
  unready : ∀ a ∈ xs, ∃ node, s.nodes a = some node ∧ node.ready = false ∧
    (node.haswaiter = true → ∃ w, node.waiter = some w ∧ s.phase w = .waiting a)
  waiting : ∀ w a, s.phase w = .waiting a → ∃ node, s.nodes a = some node ∧
    node.haswaiter = true ∧ node.waiter = some w ∧ (a ∈ xs → s.sock w = none) ∧
    (a ∉ xs → node.ready = true ∧ s.signalled w = true ∧ ∃ sock, s.sock w = some sock)
  owned : ∀ a node, s.nodes a = some node → a ∈ xs ∨ ∃ w, s.phase w = .waiting a

omit [DecidableEq α] [DecidableEq ι] in
theorem Linked.hostIs (h : s.Linked xs) (ha : a ∈ xs) : ∃ host, s.HostIs a host := by
  obtain ⟨node, hnode, -⟩ := h.unready a ha
  exact ⟨node.host, node, hnode, rfl⟩

/-- What a section does, with the sequence of nodes before and after. -/
inductive Moved (s : State α ι κ σ) (xs : List α) : State α ι κ σ → List α → Prop
  | same : Moved s xs s xs
  | added {as bs : List α} {i : ι} {a tree : α} {links : Heap α} (host : κ) (usessl : Bool) :
      s.phase i = .idle → s.nodes a = none → xs = as ++ bs →
      links.Stored (some tree) (as ++ a :: bs) →
      (∀ b ∈ as, ∀ h, s.HostIs b h → h ≤ host) → (∀ b ∈ bs, ∀ h, s.HostIs b h → host ≤ h) →
      (∀ b ∈ xs, ¬ s.Free b host) →
      Moved s xs { s with
        tree := some tree
        links := links
        nodes := update s.nodes a (some ⟨host, usessl, false, false, none, s.allocs⟩)
        phase := update s.phase i (.connecting a)
        allocs := s.allocs + 1 } (as ++ a :: bs)
  | connected {i : ι} {a : α} {sock : Option σ} :
      s.phase i = .connecting a → (∀ c ∈ sock, c ∉ s.established) →
      Moved s xs { s with
        phase := update s.phase i (.connected a sock)
        established := sock.toList ++ s.established } xs
  | passed {as bs : List α} {i w : ι} {a : α} {sock : Option σ} {node : Node ι κ}
      {tree : Option α} {links : Heap α} :
      s.phase i = .connected a sock → xs = as ++ a :: bs → links.Stored tree (as ++ bs) →
      s.nodes a = some node → node.haswaiter = true → node.waiter = some w →
      s.phase w = .waiting a →
      Moved s xs { s with
        tree := tree
        links := links
        phase := update s.phase i .idle
        sock := update s.sock w (some sock)
        nodes := update s.nodes a (some { node with ready := true })
        signalled := update s.signalled w true } (as ++ bs)
  | dropped {as bs : List α} {i : ι} {a : α} {sock : Option σ} {node : Node ι κ}
      {tree : Option α} {links : Heap α} (full : Bool) :
      s.phase i = .connected a sock → xs = as ++ a :: bs → links.Stored tree (as ++ bs) →
      s.nodes a = some node → node.haswaiter = false →
      Moved s xs ((cacheAdd { s with
        tree := tree
        links := links
        phase := update s.phase i .idle } sock full).freeNodeAt a node) (as ++ bs)
  | refused {w : ι} : s.phase w = .idle → Moved s xs (s.giveBack w none) xs
  | claimed {w : ι} {a : α} {node : Node ι κ} :
      s.phase w = .idle → a ∈ xs → s.nodes a = some node → node.haswaiter = false →
      Moved s xs (s.claim w a node) xs
  | returned {w : ι} {a : α} {node : Node ι κ} {sock : Option σ} :
      s.phase w = .waiting a → a ∉ xs → s.nodes a = some node → s.sock w = some sock →
      Moved s xs ((s.freeNodeAt a node).giveBack w sock) xs
  | woken {w : ι} {a : α} : s.phase w = .waiting a → a ∈ xs →
      Moved s xs { s with signalled := update s.signalled w false } xs

namespace Linked

theorem exists_addNode (h : s.Linked (as ++ e :: bs)) (hi : s.phase i = .idle)
    (ha : s.nodes a = none) (side : Side) (usessl : Bool)
    (hle : ∀ b ∈ as, ∀ k, s.HostIs b k → k ≤ host) (hge : ∀ b ∈ bs, ∀ k, s.HostIs b k → host ≤ k)
    (hleft : side = .left → ∀ k, s.HostIs e k → host ≤ k)
    (hright : side = .right → ∀ k, s.HostIs e k → k ≤ host)
    (hfree : ∀ b ∈ as ++ e :: bs, ¬ s.Free b host) :
    ∃ s' xs', s.addNode i a host usessl side (some e) = some s' ∧
      s.Moved (as ++ e :: bs) s' xs' := by
  have hnew : a ∉ as ++ e :: bs := by
    intro hmem
    obtain ⟨node, hnode, -⟩ := h.unready a hmem
    rw [ha] at hnode
    cases hnode
  obtain ⟨tree, htree⟩ : ∃ tree, s.tree = some tree := by
    refine ne_none_iff_exists'.1 fun hnone => ?_
    have hnil := (hnone ▸ h.stored : s.links.Stored none _).eq_nil
    exact absurd hnil (append_ne_nil_of_right_ne_nil _ (cons_ne_nil _ _))
  obtain ⟨tree', links', hrun, hstored, -⟩ :=
    (htree ▸ h.stored : s.links.Stored (some tree) _).exists_addBeside side hnew h.length_le
  have hadd : getAdd side s.allocs s.tree (some e) a s.links = some (tree', links') := by
    rw [htree]
    exact hrun
  rw [addNode, hadd]
  cases side with
  | left =>
    have hsplit : as ++ e :: bs = as ++ (e :: bs) := rfl
    refine ⟨_, _, rfl, .added host usessl hi ha hsplit hstored hle ?_ hfree⟩
    intro b hb
    rcases mem_cons.1 hb with rfl | hb
    · exact hleft rfl
    · exact hge b hb
  | right =>
    have hsplit : as ++ e :: bs = (as ++ [e]) ++ bs := append_cons as e bs
    have hstored' : links'.Stored (some tree') ((as ++ [e]) ++ a :: bs) := by
      rw [append_assoc]
      exact hstored
    refine ⟨_, _, rfl, .added host usessl hi ha hsplit hstored' ?_ hge hfree⟩
    intro b hb
    rcases mem_append.1 hb with hb | hb
    · exact hle b hb
    · rw [mem_singleton.1 hb]
      exact hright rfl

omit [DecidableEq α] [DecidableEq ι] in
/-- Where the search ends in the whole tree. -/
theorem exists_search {tree : α} (h : s.Linked xs) (htree : s.tree = some tree) (host : κ) :
    ∃ place, s.search host s.allocs tree = some place ∧ s.Found host xs place := by
  obtain ⟨t, ht, -, rfl⟩ := h.stored
  have hsize := h.length_le
  rw [Tree.length_toList] at hsize
  exact State.exists_search ht.rep (ht.root.trans htree) (fun b hb => h.hostIs hb) h.sorted hsize

omit [DecidableEq ι] in
theorem exists_freeNode (h : s.Linked (as ++ e :: bs)) (he : s.HostIs e host) :
    ∃ r, s.freeNode e host = some r ∧ (∀ b, r = some b → b ∈ as ++ e :: bs ∧ s.Free b host) ∧
      (r = none → ∀ b ∈ as ++ e :: bs, ¬ s.Free b host) :=
  State.exists_freeNode h.stored h.length_le (fun _ hb => h.hostIs hb) h.sorted he

/-- Starting an attempt, when there is none without a waiter. -/
theorem exists_connectAndCacheHost (h : s.Linked xs) (hi : s.phase i = .idle)
    (ha : s.nodes a = none) (host : κ) (usessl : Bool) :
    ∃ s' xs', s.connectAndCacheHost i a host usessl = some s' ∧ s.Moved xs s' xs' := by
  rw [connectAndCacheHost]
  cases htree : s.tree with
  | none =>
    obtain rfl := (htree ▸ h.stored : s.links.Stored none xs).eq_nil
    obtain ⟨links', hrun, hstored, -⟩ := Heap.exists_getAdd_empty .right none a s.allocs s.links
    dsimp only
    rw [addNode, htree, hrun]
    have hsplit : ([] : List α) = [] ++ [] := rfl
    exact ⟨_, _, rfl, .added host usessl hi ha hsplit hstored (fun _ h => (by cases h))
      (fun _ h => (by cases h)) (fun _ h => (by cases h))⟩
  | some tree =>
    obtain ⟨place, hsearch, hfound⟩ := h.exists_search htree host
    dsimp only
    rw [hsearch, bind_some]
    cases hfound with
    | before hlt hgt =>
      refine h.exists_addNode hi ha .left usessl (fun b hb k hk => (hlt b hb k hk).le)
        (fun b hb k hk => (hgt b (mem_cons_of_mem _ hb) k hk).le)
        (fun _ k hk => (hgt _ mem_cons_self k hk).le) (fun h => (by cases h)) ?_
      intro b hb hfree
      rcases mem_append.1 hb with hb | hb
      · exact lt_irrefl _ (hlt b hb host hfree.hostIs)
      · exact lt_irrefl _ (hgt b hb host hfree.hostIs)
    | after hlt hgt =>
      refine h.exists_addNode hi ha .right usessl
        (fun b hb k hk => (hlt b (mem_append_left _ hb) k hk).le)
        (fun b hb k hk => (hgt b hb k hk).le) (fun h => (by cases h))
        (fun _ k hk => (hlt _ (mem_append_right _ mem_cons_self) k hk).le) ?_
      intro b hb hfree
      rw [append_cons] at hb
      rcases mem_append.1 hb with hb | hb
      · exact lt_irrefl _ (hlt b hb host hfree.hostIs)
      · exact lt_irrefl _ (hgt b hb host hfree.hostIs)
    | equal he =>
      obtain ⟨r, hrun, -, hnone⟩ := h.exists_freeNode he
      dsimp only
      rw [hrun, bind_some]
      cases r with
      | some b => exact ⟨s, _, rfl, .same⟩
      | none =>
        obtain ⟨-, hse, hcross⟩ := pairwise_append.1 h.sorted
        have heq : ∀ k, s.HostIs _ k → k ≤ host := fun k hk => (hk.unique he).le
        exact h.exists_addNode hi ha .right usessl
          (fun b hb k hk => hcross b hb _ mem_cons_self k host hk he)
          (fun b hb k hk => (pairwise_cons.1 hse).1 b hb host k he hk)
          (fun h => (by cases h)) (fun _ => heq) (hnone rfl)

theorem exists_finish [DecidableEq σ] {sock : Option σ} (h : s.Linked xs)
    (hi : s.phase i = .connected a sock) (full : Bool) :
    ∃ s' xs', s.finish i a sock full = some s' ∧ s.Moved xs s' xs' := by
  have ha : a ∈ xs := (h.mem_iff a).2 ⟨i, by rw [hi]; rfl⟩
  obtain ⟨node, hnode, -, hwaiter⟩ := h.unready a ha
  obtain ⟨as, bs, rfl⟩ := append_of_mem ha
  obtain ⟨tree, htree⟩ : ∃ tree, s.tree = some tree := by
    refine ne_none_iff_exists'.1 fun hnone => ?_
    have hnil := (hnone ▸ h.stored : s.links.Stored none _).eq_nil
    exact absurd hnil (append_ne_nil_of_right_ne_nil _ (cons_ne_nil _ _))
  obtain ⟨tree', links', hrun, hstored, -⟩ :=
    (htree ▸ h.stored : s.links.Stored (some tree) _).exists_getDel h.length_le
  rw [finish, htree, bind_some, hrun, bind_some, hnode, bind_some]
  dsimp only
  cases hhas : node.haswaiter with
  | false => exact ⟨_, _, rfl, .dropped full hi rfl hstored hnode hhas⟩
  | true =>
    obtain ⟨w, hw, hwait⟩ := hwaiter hhas
    have hiw : i ≠ w := by
      rintro rfl
      rw [hi] at hwait
      cases hwait
    have hwait' : update s.phase i .idle w = .waiting a :=
      (update_of_ne hiw.symm _ _).trans hwait
    refine ⟨_, _, ?_, .passed hi rfl hstored hnode hhas hw hwait⟩
    rw [if_pos rfl, pass, hw, bind_some]
    exact if_pos hwait'

/-- A waiter claims a free node of its host, if the attempt is of its kind. -/
theorem exists_wait (h : s.Linked xs) (hw : s.phase w = .idle) (host : κ) (usessl : Bool) :
    ∃ s' xs', s.wait w host usessl = some s' ∧ s.Moved xs s' xs' := by
  rw [wait]
  cases htree : s.tree with
  | none => exact ⟨_, _, rfl, .refused hw⟩
  | some tree =>
    obtain ⟨place, hsearch, hfound⟩ := h.exists_search htree host
    dsimp only
    rw [hsearch, bind_some]
    cases hfound with
    | before _ _ | after _ _ => exact ⟨_, _, rfl, .refused hw⟩
    | equal he =>
      obtain ⟨r, hrun, hsome, -⟩ := h.exists_freeNode he
      dsimp only
      rw [hrun, bind_some]
      cases r with
      | none => exact ⟨_, _, rfl, .refused hw⟩
      | some a =>
        obtain ⟨ha, node, hnode, -, hhas⟩ := hsome a rfl
        dsimp only
        rw [hnode, map_some]
        by_cases hssl : node.usessl = usessl
        · rw [if_pos hssl]
          exact ⟨_, _, rfl, .claimed hw ha hnode hhas⟩
        · rw [if_neg hssl]
          exact ⟨_, _, rfl, .refused hw⟩

/-- A waiting call goes on when its node is ready. -/
theorem exists_wake (h : s.Linked xs) (hw : s.phase w = .waiting a) :
    ∃ s' xs', s.wake w a = some s' ∧ s.Moved xs s' xs' := by
  obtain ⟨node, hnode, -, -, -, hanswer⟩ := h.waiting w a hw
  rw [wake, hnode, bind_some]
  by_cases ha : a ∈ xs
  · obtain ⟨node', hnode', hready, -⟩ := h.unready a ha
    obtain rfl := some.inj (hnode.symm.trans hnode')
    rw [hready]
    exact ⟨_, _, rfl, .woken hw ha⟩
  · obtain ⟨hready, -, sock, hsock⟩ := hanswer ha
    rw [if_pos hready, hsock, map_some]
    exact ⟨_, _, rfl, .returned hw ha hnode hsock⟩

/-- Every section ends, and does one of the moves. -/
theorem exists_moved [DecidableEq σ] {act : Action α ι κ σ} (h : s.Linked xs)
    (hstep : s.step act = some s') : ∃ xs', s.Moved xs s' xs' := by
  have hgetD : ∀ {r : Option (State α ι κ σ)} {t : State α ι κ σ} {ys : List α},
      r = some t → some (r.getD s.broken) = some s' → s.Moved xs t ys → s.Moved xs s' ys := by
    rintro r t ys rfl hs hmoved
    exact some.inj hs ▸ hmoved
  cases act with
  | connectAndCacheHost i a host usessl =>
    rw [step] at hstep
    split at hstep
    · next hc =>
      obtain ⟨t, xs', hrun, hmoved⟩ :=
        h.exists_connectAndCacheHost hc.1 (isNone_iff_eq_none.1 hc.2) host usessl
      exact ⟨xs', hgetD hrun hstep hmoved⟩
    · cases hstep
  | connect i sock =>
    rw [step] at hstep
    split at hstep
    · next a hi =>
      split at hstep
      · next hnew =>
        obtain ⟨node, hnode, -⟩ := h.unready a ((h.mem_iff a).2 ⟨i, by rw [hi]; rfl⟩)
        rw [connect, hnode] at hstep
        exact ⟨xs, some.inj hstep ▸ .connected hi hnew⟩
      · cases hstep
    · cases hstep
  | finish i full =>
    rw [step] at hstep
    split at hstep
    · next a sock hi =>
      obtain ⟨t, xs', hrun, hmoved⟩ := h.exists_finish hi full
      exact ⟨xs', hgetD hrun hstep hmoved⟩
    · cases hstep
  | wait w host usessl =>
    rw [step] at hstep
    split at hstep
    · next hw =>
      obtain ⟨t, xs', hrun, hmoved⟩ := h.exists_wait hw host usessl
      exact ⟨xs', hgetD hrun hstep hmoved⟩
    · cases hstep
  | wake w spurious =>
    rw [step] at hstep
    split at hstep
    · next a hw =>
      split at hstep
      · obtain ⟨t, xs', hrun, hmoved⟩ := h.exists_wake hw
        exact ⟨xs', hgetD hrun hstep hmoved⟩
      · cases hstep
    · cases hstep

end Linked

end Pclsync.ConnectCache.State
