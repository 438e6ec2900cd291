import Pclsync.ConnectCache.Attempts

/-!
# All interleavings

Every section keeps three invariants, from which `State.Safe` follows.

* `State.Linked`: the tree and the nodes, kept by `State.Linked.moved`.
* `State.Serials`: a node that was made is freed or live; `State.Serials.moved`.
* `State.Placed`: a connection is in one place; `State.Placed.moved`.
* `connections_safe`: the states of all runs.
-/

namespace Pclsync.ConnectCache

open Function List Option

variable {α ι κ σ : Type*}

namespace State

variable {s s' : State α ι κ σ} {i j w : ι} {a b : α} {host : κ} {xs xs' as bs : List α}

/-! ## The tree -/

theorem hostIs_congr (h : s'.nodes a = s.nodes a) : s'.HostIs a host ↔ s.HostIs a host := by
  rw [HostIs, h, HostIs]

theorem free_congr (h : s'.nodes a = s.nodes a) : s'.Free a host ↔ s.Free a host := by
  rw [Free, h, Free]

theorem Sorted.imp [LinearOrder κ] (h : s.Sorted xs)
    (hhost : ∀ a ∈ xs, ∀ k, s'.HostIs a k → s.HostIs a k) : s'.Sorted xs :=
  h.imp_of_mem fun ha hb hab h k hh hk => hab h k (hhost _ ha h hh) (hhost _ hb k hk)

section

variable [DecidableEq ι]

/-- A thread goes on to something else with the same attempt. -/
theorem attempt_update {f : ι → Phase α σ} {p : Phase α σ} (h : p.attempt = (f i).attempt)
    (j : ι) : (update f i p j).attempt = (f j).attempt := by
  rcases eq_or_ne j i with rfl | hj
  · rw [update_self, h]
  · rw [update_of_ne hj]

theorem update_eq_iff {κ β : Type*} [DecidableEq κ] {f : κ → β} {i j : κ} {x y : β} (h : x ≠ y) :
    update f i x j = y ↔ j ≠ i ∧ f j = y := by
  rcases eq_or_ne j i with rfl | hj
  · rw [update_self]
    exact ⟨fun heq => absurd heq h, fun heq => absurd rfl heq.1⟩
  · rw [update_of_ne hj]
    exact ⟨fun heq => ⟨hj, heq⟩, And.right⟩

theorem update_idle_eq_waiting {f : ι → Phase α σ} :
    update f i .idle j = .waiting a ↔ j ≠ i ∧ f j = .waiting a :=
  update_eq_iff (by simp)

/-- A thread that was connected does not wait. -/
theorem idle_update_waiting {f : ι → Phase α σ} {sock : Option σ} (hi : f i = .connected a sock) :
    update f i .idle j = .waiting b ↔ f j = .waiting b := by
  rw [update_idle_eq_waiting]
  refine ⟨And.right, fun hj => ⟨?_, hj⟩⟩
  rintro rfl
  cases hi.symm.trans hj

theorem update_idle_eq_connected {f : ι → Phase α σ} {sock : Option σ} :
    update f i .idle j = .connected a sock ↔ j ≠ i ∧ f j = .connected a sock :=
  update_eq_iff (by simp)

end

variable [DecidableEq α] [DecidableEq ι] [LinearOrder κ]

namespace Linked

omit [DecidableEq α] [DecidableEq ι] in
theorem nodup (h : s.Linked xs) : xs.Nodup := by
  obtain ⟨t, ht, -, rfl⟩ := h.stored
  exact ht.nodup

omit [DecidableEq α] [DecidableEq ι] in
/-- The attempts are the same when the threads have the same ones. -/
theorem attempts (h : s.Linked xs) (hattempt : ∀ j, (s'.phase j).attempt = (s.phase j).attempt) :
    (∀ a, a ∈ xs ↔ ∃ i, (s'.phase i).attempt = some a) ∧
      ∀ i j a, (s'.phase i).attempt = some a → (s'.phase j).attempt = some a → i = j := by
  simp only [hattempt]
  exact ⟨h.mem_iff, h.unique⟩

omit [DecidableEq α] in
theorem attempts_idle (h : s.Linked (as ++ a :: bs)) (hi : (s.phase i).attempt = some a)
    (hphase : s'.phase = update s.phase i .idle) :
    (∀ b, b ∈ as ++ bs ↔ ∃ j, (s'.phase j).attempt = some b) ∧
      ∀ j k b, (s'.phase j).attempt = some b → (s'.phase k).attempt = some b → j = k := by
  have hattempt : ∀ j b, (s'.phase j).attempt = some b ↔ j ≠ i ∧ (s.phase j).attempt = some b := by
    intro j b
    rw [hphase]
    rcases eq_or_ne j i with rfl | hj
    · rw [update_self]
      exact ⟨fun h => (by cases h), fun h => absurd rfl h.1⟩
    · rw [update_of_ne hj]
      exact ⟨fun h => ⟨hj, h⟩, And.right⟩
  have hnodup := nodup_middle.1 h.nodup
  refine ⟨fun b => ?_, fun j k b hj hk =>
    h.unique j k b ((hattempt j b).1 hj).2 ((hattempt k b).1 hk).2⟩
  constructor
  · intro hb
    obtain ⟨j, hj⟩ := (h.mem_iff b).1 (perm_middle.mem_iff.2 (mem_cons_of_mem _ hb))
    refine ⟨j, (hattempt j b).2 ⟨?_, hj⟩⟩
    rintro rfl
    exact (nodup_cons.1 hnodup).1 (some.inj (hi.symm.trans hj) ▸ hb)
  · rintro ⟨j, hj⟩
    obtain ⟨hji, hj⟩ := (hattempt j b).1 hj
    refine (mem_cons.1 (perm_middle.mem_iff.1 ((h.mem_iff b).2 ⟨j, hj⟩))).resolve_left ?_
    rintro rfl
    exact hji (h.unique j i b hj hi)

theorem added {tree : α} {links : Heap α} {usessl : Bool} (h : s.Linked (as ++ bs))
    (hi : s.phase i = .idle) (ha : s.nodes a = none)
    (hstored : links.Stored (some tree) (as ++ a :: bs))
    (hle : ∀ b ∈ as, ∀ k, s.HostIs b k → k ≤ host) (hge : ∀ b ∈ bs, ∀ k, s.HostIs b k → host ≤ k)
    (hfree : ∀ b ∈ as ++ bs, ¬ s.Free b host) (hs' : s' = { s with
      tree := some tree
      links := links
      nodes := update s.nodes a (some ⟨host, usessl, false, false, none, s.allocs⟩)
      phase := update s.phase i (.connecting a)
      allocs := s.allocs + 1 }) : s'.Linked (as ++ a :: bs) := by
  have hnew : ∀ b, b ∈ as ++ bs → b ≠ a := by
    rintro b hb rfl
    obtain ⟨node, hnode, -⟩ := h.unready b hb
    rw [ha] at hnode
    cases hnode
  have hmem : ∀ b, b ∈ as ++ a :: bs ↔ b = a ∨ b ∈ as ++ bs := fun b => by
    rw [perm_middle.mem_iff, mem_cons]
  have hnodes : ∀ b, b ≠ a → s'.nodes b = s.nodes b := by
    intro b hb
    rw [hs']
    exact update_of_ne hb _ _
  have hself : s'.nodes a = some ⟨host, usessl, false, false, none, s.allocs⟩ := by
    rw [hs']
    exact update_self _ _ _
  have hhost : ∀ b ∈ as ++ bs, ∀ k, s'.HostIs b k → s.HostIs b k := fun b hb _ =>
    (hostIs_congr (hnodes b (hnew b hb))).1
  have hattempt : ∀ j b, (s'.phase j).attempt = some b ↔
      (j = i ∧ b = a) ∨ (s.phase j).attempt = some b := by
    intro j b
    rw [hs']
    dsimp only
    rcases eq_or_ne j i with rfl | hj
    · rw [update_self, hi]
      exact ⟨fun h => .inl ⟨rfl, (some.inj h).symm⟩, fun h => h.elim (fun h => h.2 ▸ rfl)
        (fun h => (by cases h))⟩
    · rw [update_of_ne hj]
      exact ⟨.inr, fun h => h.resolve_left fun h => hj h.1⟩
  have hnone : ∀ j, (s.phase j).attempt ≠ some a := fun j hj =>
    hnew a ((h.mem_iff a).2 ⟨j, hj⟩) rfl
  have hwait : ∀ w b, s'.phase w = .waiting b ↔ s.phase w = .waiting b := by
    intro w b
    rw [hs']
    dsimp only
    rcases eq_or_ne w i with rfl | hw
    · rw [update_self, hi]
      exact ⟨fun h => (by cases h), fun h => (by cases h)⟩
    · rw [update_of_ne hw]
  refine ⟨?_, ?_, ?_, ?_, ?_, ?_, ?_, ?_, ?_, ?_⟩
  · rw [hs']
    exact h.sound
  · rw [hs']
    exact hstored
  · have hlen := h.length_le
    rw [length_append] at hlen
    rw [hs', length_append, length_cons]
    exact Nat.succ_le_succ hlen
  · -- the new node is between those below and those above its host
    obtain ⟨hsas, hsbs, hcross⟩ := pairwise_append.1 (Sorted.imp h.sorted hhost)
    refine pairwise_append.2 ⟨hsas, pairwise_cons.2 ⟨fun b hb k l hk hl => ?_, hsbs⟩, ?_⟩
    · obtain rfl := (hostIs_iff hself).1 hk
      exact hge b hb l (hhost b (mem_append_right as hb) l hl)
    · intro b hb c hc
      rcases mem_cons.1 hc with rfl | hc
      · intro k l hk hl
        obtain rfl := (hostIs_iff hself).1 hl
        exact hle b hb k (hhost b (mem_append_left bs hb) k hk)
      · exact hcross b hb c hc
  · intro b
    rw [hmem, h.mem_iff]
    simp only [hattempt]
    constructor
    · rintro (rfl | ⟨j, hj⟩)
      · exact ⟨i, .inl ⟨rfl, rfl⟩⟩
      · exact ⟨j, .inr hj⟩
    · rintro ⟨j, ⟨rfl, rfl⟩ | hj⟩
      · exact .inl rfl
      · exact .inr ⟨j, hj⟩
  · intro j k b hj hk
    rcases (hattempt j b).1 hj with ⟨hji, hba⟩ | hj
    · rcases (hattempt k b).1 hk with ⟨hki, -⟩ | hk
      · rw [hji, hki]
      · exact absurd (hba ▸ hk) (hnone k)
    · rcases (hattempt k b).1 hk with ⟨-, hba⟩ | hk
      · exact absurd (hba ▸ hj) (hnone j)
      · exact h.unique j k b hj hk
  · -- a free node of another attempt is for another host
    intro k b hb c hc hbf hcf
    rcases (hmem b).1 hb with rfl | hb'
    · obtain ⟨rfl, -⟩ := (free_iff hself).1 hbf
      rcases (hmem c).1 hc with rfl | hc'
      · rfl
      · exact absurd ((free_congr (hnodes c (hnew c hc'))).1 hcf) (hfree c hc')
    · rw [free_congr (hnodes b (hnew b hb'))] at hbf
      rcases (hmem c).1 hc with rfl | hc'
      · obtain ⟨rfl, -⟩ := (free_iff hself).1 hcf
        exact absurd hbf (hfree b hb')
      · exact h.free k b hb' c hc' hbf ((free_congr (hnodes c (hnew c hc'))).1 hcf)
  · intro b hb
    simp only [hwait]
    rcases (hmem b).1 hb with rfl | hb
    · exact ⟨_, hself, rfl, fun h => (by cases h)⟩
    · rw [hnodes b (hnew b hb)]
      exact h.unready b hb
  · intro w b hw
    obtain ⟨node, hnode, hhas, hwaiter, hin, hout⟩ := h.waiting w b ((hwait w b).1 hw)
    have hb : b ≠ a := by
      rintro rfl
      rw [ha] at hnode
      cases hnode
    refine ⟨node, (hnodes b hb).trans hnode, hhas, hwaiter, fun h => ?_, fun h => ?_⟩
    · rw [hs']
      exact hin (((hmem b).1 h).resolve_left hb)
    · rw [hs']
      exact hout fun h' => h ((hmem b).2 (.inr h'))
  · intro b node hnode
    simp only [hwait]
    rw [hmem]
    rcases eq_or_ne b a with rfl | hb
    · exact .inl (.inl rfl)
    · exact (h.owned b node ((hnodes b hb).symm.trans hnode)).imp_left .inr

omit [DecidableEq α] in
/-- The thread of a node is done: what is left of the tree. The node itself, `node'` if it is not
    freed, belongs to its waiter. -/
theorem removed {sock : Option σ} (h : s.Linked (as ++ a :: bs))
    (hi : s.phase i = .connected a sock) (hstored : s'.links.Stored s'.tree (as ++ bs))
    (hallocs : s'.allocs = s.allocs) (hfault : s'.fault = s.fault)
    (hphase : s'.phase = update s.phase i .idle)
    (hnodes : ∀ b, b ≠ a → s'.nodes b = s.nodes b)
    (hvars : ∀ w b, b ≠ a → s.phase w = .waiting b → s'.sock w = s.sock w ∧
      s'.signalled w = s.signalled w)
    (hwaiting : ∀ w, s.phase w = .waiting a → ∃ node, s'.nodes a = some node ∧
      node.haswaiter = true ∧ node.waiter = some w ∧ node.ready = true ∧ s'.signalled w = true ∧
      ∃ sock, s'.sock w = some sock)
    (howned : ∀ node, s'.nodes a = some node → ∃ w, s.phase w = .waiting a) :
    s'.Linked (as ++ bs) := by
  obtain ⟨hmem, hunique⟩ := h.attempts_idle (by rw [hi]; rfl) hphase
  have hnodup := nodup_cons.1 (nodup_middle.1 h.nodup)
  have hne : ∀ b, b ∈ as ++ bs → b ≠ a := fun b hb heq => hnodup.1 (heq ▸ hb)
  have hsub : ∀ b, b ∈ as ++ bs → b ∈ as ++ a :: bs := fun b hb =>
    perm_middle.mem_iff.2 (mem_cons_of_mem _ hb)
  have hrest : ∀ b, b ∈ as ++ a :: bs → b ≠ a → b ∈ as ++ bs := fun b hb hba =>
    (mem_cons.1 (perm_middle.mem_iff.1 hb)).resolve_left hba
  have hwait : ∀ w b, s'.phase w = .waiting b ↔ s.phase w = .waiting b := by
    intro w b
    rw [hphase, update_idle_eq_waiting]
    refine ⟨And.right, fun hw => ⟨?_, hw⟩⟩
    rintro rfl
    rw [hi] at hw
    cases hw
  refine ⟨hfault.trans h.sound, hstored, ?_, ?_, hmem, hunique, ?_, ?_, ?_, ?_⟩
  · have hlen := h.length_le
    rw [length_append, length_cons] at hlen
    rw [hallocs, length_append]
    exact Nat.le_of_succ_le hlen
  · have hsorted : s.Sorted (as ++ bs) :=
      h.sorted.sublist ((sublist_cons_self a bs).append_left as)
    exact Sorted.imp hsorted fun b hb k => (hostIs_congr (hnodes b (hne b hb))).1
  · intro k b hb c hc hbf hcf
    exact h.free k b (hsub b hb) c (hsub c hc) ((free_congr (hnodes b (hne b hb))).1 hbf)
      ((free_congr (hnodes c (hne c hc))).1 hcf)
  · intro b hb
    simp only [hwait]
    rw [hnodes b (hne b hb)]
    exact h.unready b (hsub b hb)
  · intro w b hw
    rw [hwait] at hw
    rcases eq_or_ne b a with rfl | hb
    · obtain ⟨node, hnode, hhas, hwaiter, hready, hsignal, hsock⟩ := hwaiting w hw
      exact ⟨node, hnode, hhas, hwaiter, fun hmem => absurd rfl (hne b hmem),
        fun _ => ⟨hready, hsignal, hsock⟩⟩
    · obtain ⟨node, hnode, hhas, hwaiter, hin, hout⟩ := h.waiting w b hw
      rw [hnodes b hb, (hvars w b hb hw).1, (hvars w b hb hw).2]
      exact ⟨node, hnode, hhas, hwaiter, fun hmem => hin (hsub b hmem),
        fun hmem => hout fun hmem' => hmem (hrest b hmem' hb)⟩
  · intro b node hnode
    simp only [hwait]
    rcases eq_or_ne b a with rfl | hb
    · exact .inr (howned node hnode)
    · rw [hnodes b hb] at hnode
      exact (h.owned b node hnode).imp_left fun hmem => hrest b hmem hb

theorem claimed {node : Node ι κ} (h : s.Linked xs) (hw : s.phase w = .idle) (ha : a ∈ xs)
    (hnode : s.nodes a = some node) (hhas : node.haswaiter = false)
    (hs' : s' = s.claim w a node) : s'.Linked xs := by
  have hnodes : ∀ b, b ≠ a → s'.nodes b = s.nodes b := by
    intro b hb
    rw [hs']
    exact update_of_ne hb _ _
  have hself : s'.nodes a = some { node with haswaiter := true, waiter := some w } := by
    rw [hs']
    exact update_self _ _ _
  have hphase : s'.phase = update s.phase w (.waiting a) := by rw [hs', claim]
  have hattempt : ∀ j, (s'.phase j).attempt = (s.phase j).attempt := by
    rw [hphase]
    exact attempt_update (by rw [hw]; rfl)
  have hhost : ∀ b ∈ xs, ∀ k, s'.HostIs b k → s.HostIs b k := by
    intro b _ k hk
    rcases eq_or_ne b a with rfl | hb
    · exact (hostIs_iff hnode).2 ((hostIs_iff hself).1 hk)
    · exact (hostIs_congr (hnodes b hb)).1 hk
  have hfree : ∀ b k, s'.Free b k → s.Free b k := by
    intro b k hk
    rcases eq_or_ne b a with rfl | hb
    · cases ((free_iff hself).1 hk).2
    · exact (free_congr (hnodes b hb)).1 hk
  have hothers : ∀ v b, v ≠ w → (s'.phase v = .waiting b ↔ s.phase v = .waiting b) := by
    intro v b hv
    rw [hphase, update_of_ne hv]
  have hwself : s'.phase w = .waiting a := by rw [hphase, update_self]
  have hne : ∀ v b, s.phase v = .waiting b → v ≠ w := by
    rintro v b hv rfl
    rw [hw] at hv
    cases hv
  obtain ⟨hmem, hunique⟩ := h.attempts hattempt
  refine ⟨?_, ?_, ?_, Sorted.imp h.sorted hhost, hmem, hunique, ?_, ?_, ?_, ?_⟩
  · rw [hs']
    exact h.sound
  · rw [hs']
    exact h.stored
  · rw [hs']
    exact h.length_le
  · exact fun k b hb c hc hbf hcf => h.free k b hb c hc (hfree b k hbf) (hfree c k hcf)
  · intro b hb
    rcases eq_or_ne b a with rfl | hba
    · obtain ⟨node', hnode', hready, -⟩ := h.unready b hb
      obtain rfl := some.inj (hnode.symm.trans hnode')
      exact ⟨_, hself, hready, fun _ => ⟨w, rfl, hwself⟩⟩
    · obtain ⟨node', hnode', hready, hwaiter⟩ := h.unready b hb
      refine ⟨node', (hnodes b hba).trans hnode', hready, fun h => ?_⟩
      obtain ⟨v, hv, hwait⟩ := hwaiter h
      exact ⟨v, hv, (hothers v b (hne v b hwait)).2 hwait⟩
  · intro v b hv
    rcases eq_or_ne v w with rfl | hvw
    · obtain rfl := Phase.waiting.inj (hwself.symm.trans hv)
      refine ⟨_, hself, rfl, rfl, fun _ => ?_, fun hmem => absurd ha hmem⟩
      rw [hs']
      exact update_self _ _ _
    · obtain ⟨node', hnode', hhas', hwaiter, hanswer⟩ := h.waiting v b ((hothers v b hvw).1 hv)
      have hba : b ≠ a := by
        rintro rfl
        obtain rfl := some.inj (hnode.symm.trans hnode')
        rw [hhas] at hhas'
        cases hhas'
      refine ⟨node', (hnodes b hba).trans hnode', hhas', hwaiter, ?_⟩
      have hsock : s'.sock v = s.sock v := by
        rw [hs']
        exact update_of_ne hvw _ _
      have hsignal : s'.signalled v = s.signalled v := by
        rw [hs']
        exact update_of_ne hvw _ _
      rwa [hsock, hsignal]
  · intro b node' hnode'
    rcases eq_or_ne b a with rfl | hba
    · exact .inl ha
    · refine (h.owned b node' ((hnodes b hba).symm.trans hnode')).imp_right ?_
      exact fun ⟨v, hv⟩ => ⟨v, (hothers v b (hne v b hv)).2 hv⟩

theorem returned {node : Node ι κ} {sock : Option σ} (h : s.Linked xs)
    (hw : s.phase w = .waiting a) (ha : a ∉ xs) (hnode : s.nodes a = some node)
    (hs' : s' = (s.freeNodeAt a node).giveBack w sock) : s'.Linked xs := by
  have hnodes : ∀ b, b ≠ a → s'.nodes b = s.nodes b := by
    intro b hb
    rw [hs']
    exact update_of_ne hb _ _
  have hself : s'.nodes a = none := by
    rw [hs']
    exact update_self _ _ _
  have hphase : s'.phase = update s.phase w .idle := by rw [hs']; rfl
  have hattempt : ∀ j, (s'.phase j).attempt = (s.phase j).attempt := by
    rw [hphase]
    exact attempt_update (by rw [hw]; rfl)
  have hne : ∀ b, b ∈ xs → b ≠ a := fun b hb heq => ha (heq ▸ hb)
  have hwait : ∀ v b, b ≠ a → (s'.phase v = .waiting b ↔ s.phase v = .waiting b) := by
    intro v b hb
    rw [hphase, update_idle_eq_waiting]
    refine ⟨And.right, fun hv => ⟨?_, hv⟩⟩
    rintro rfl
    exact hb (Phase.waiting.inj (hv.symm.trans hw))
  obtain ⟨hmem, hunique⟩ := h.attempts hattempt
  refine ⟨?_, ?_, ?_, ?_, hmem, hunique, ?_, ?_, ?_, ?_⟩
  · rw [hs']
    exact h.sound
  · rw [hs']
    exact h.stored
  · rw [hs']
    exact h.length_le
  · exact Sorted.imp h.sorted fun b hb k => (hostIs_congr (hnodes b (hne b hb))).1
  · intro k b hb c hc hbf hcf
    exact h.free k b hb c hc ((free_congr (hnodes b (hne b hb))).1 hbf)
      ((free_congr (hnodes c (hne c hc))).1 hcf)
  · intro b hb
    rw [hnodes b (hne b hb)]
    simp only [hwait _ b (hne b hb)]
    exact h.unready b hb
  · intro v b hv
    rw [hphase, update_idle_eq_waiting] at hv
    obtain ⟨node', hnode', hhas', hwaiter, hanswer⟩ := h.waiting v b hv.2
    have hba : b ≠ a := by
      rintro rfl
      -- a node has one waiter
      obtain ⟨node'', hnode'', -, hwaiter', -⟩ := h.waiting w b hw
      obtain rfl := some.inj (hnode''.symm.trans hnode')
      exact hv.1 (some.inj (hwaiter.symm.trans hwaiter'))
    refine ⟨node', (hnodes b hba).trans hnode', hhas', hwaiter, ?_⟩
    rw [hs']
    exact hanswer
  · intro b node' hnode'
    have hba : b ≠ a := by
      rintro rfl
      rw [hself] at hnode'
      cases hnode'
    simp only [hwait _ b hba]
    exact h.owned b node' ((hnodes b hba).symm.trans hnode')

omit [DecidableEq α] [DecidableEq ι] in
/-- Steps of threads that change no node. -/
theorem kept (h : s.Linked xs) (htree : s'.tree = s.tree) (hlinks : s'.links = s.links)
    (hnodes : s'.nodes = s.nodes) (hallocs : s'.allocs = s.allocs) (hfault : s'.fault = s.fault)
    (hsock : s'.sock = s.sock)
    (hattempt : ∀ j, (s'.phase j).attempt = (s.phase j).attempt)
    (hwait : ∀ w a, s'.phase w = .waiting a ↔ s.phase w = .waiting a)
    (hsignal : ∀ w a, s.phase w = .waiting a → a ∉ xs → s'.signalled w = s.signalled w) :
    s'.Linked xs := by
  have hcongr : ∀ b, s'.nodes b = s.nodes b := congrFun hnodes
  obtain ⟨hmem, hunique⟩ := h.attempts hattempt
  refine ⟨hfault.trans h.sound, ?_, hallocs ▸ h.length_le, ?_, hmem, hunique, ?_, ?_, ?_, ?_⟩
  · rw [htree, hlinks]
    exact h.stored
  · exact Sorted.imp h.sorted fun b _ k => (hostIs_congr (hcongr b)).1
  · exact fun k b hb c hc hbf hcf => h.free k b hb c hc ((free_congr (hcongr b)).1 hbf)
      ((free_congr (hcongr c)).1 hcf)
  · simp only [hwait, hnodes]
    exact h.unready
  · intro w a hw
    obtain ⟨node, hnode, hhas, hwaiter, hin, hout⟩ := h.waiting w a ((hwait w a).1 hw)
    refine ⟨node, (hcongr a).trans hnode, hhas, hwaiter, hsock ▸ hin, fun ha => ?_⟩
    rw [hsignal w a ((hwait w a).1 hw) ha, hsock]
    exact hout ha
  · simp only [hwait, hnodes]
    exact h.owned

/-- Every section keeps the tree as it should be. -/
theorem moved (h : s.Linked xs) (hmoved : s.Moved xs s' xs') : s'.Linked xs' := by
  cases hmoved with
  | same => exact h
  | added host usessl hi ha hxs hstored hle hge hfree =>
    subst hxs
    exact h.added hi ha hstored hle hge hfree rfl
  | connected hi hnew =>
    refine h.kept rfl rfl rfl rfl rfl rfl (attempt_update (hi ▸ rfl)) (fun w b => ?_)
      fun _ _ _ _ => rfl
    dsimp only
    rw [update_apply]
    split
    · next hwi =>
      rw [hwi, hi]
      exact ⟨fun h => (by cases h), fun h => (by cases h)⟩
    · exact Iff.rfl
  | @passed as bs i w a sock node tree links hi hxs hstored hnode hhas hwaiter hwait =>
    subst hxs
    refine h.removed hi hstored rfl rfl rfl (fun b hb => update_of_ne hb _ _) ?_ ?_
      fun _ _ => ⟨_, hwait⟩
    · intro v b hb hv
      have hvw : v ≠ w := by
        rintro rfl
        exact hb (Phase.waiting.inj (hv.symm.trans hwait))
      exact ⟨update_of_ne hvw _ _, update_of_ne hvw _ _⟩
    · intro v hv
      obtain ⟨node', hnode', -, hwaiter', -⟩ := h.waiting v a hv
      obtain rfl := some.inj (hnode.symm.trans hnode')
      obtain rfl := some.inj (hwaiter.symm.trans hwaiter')
      exact ⟨_, update_self _ _ _, hhas, hwaiter, rfl, update_self _ _ _, _, update_self _ _ _⟩
  | @dropped as bs i a sock node tree links full hi hxs hstored hnode hhas =>
    subst hxs
    have hnone : ∀ w, s.phase w ≠ .waiting a := by
      intro w hw
      obtain ⟨node', hnode', hhas', -⟩ := h.waiting w a hw
      rw [some.inj (hnode'.symm.trans hnode), hhas] at hhas'
      cases hhas'
    cases full
    all_goals
      refine h.removed hi hstored rfl rfl rfl (fun b hb => update_of_ne hb _ _)
        (fun _ _ _ _ => ⟨rfl, rfl⟩) (fun w hw => absurd hw (hnone w)) fun node' hnode' => ?_
      have hfreed : update s.nodes a none a = some node' := hnode'
      rw [update_self] at hfreed
      cases hfreed
  | refused hw =>
    refine h.kept rfl rfl rfl rfl rfl rfl (attempt_update (hw ▸ rfl)) (fun v b => ?_)
      fun _ _ _ _ => rfl
    refine update_idle_eq_waiting.trans ⟨And.right, fun hv => ⟨?_, hv⟩⟩
    rintro rfl
    cases hw.symm.trans hv
  | claimed hw ha hnode hhas => exact h.claimed hw ha hnode hhas rfl
  | returned hw ha hnode hsock => exact h.returned hw ha hnode rfl
  | woken hw ha =>
    refine h.kept rfl rfl rfl rfl rfl rfl (fun _ => rfl) (fun _ _ => Iff.rfl) fun v b hv hb => ?_
    refine update_of_ne ?_ _ _
    rintro rfl
    exact hb (Phase.waiting.inj (hv.symm.trans hw) ▸ ha)

end Linked

/-! ## The nodes -/

omit [DecidableEq α] [DecidableEq ι] [LinearOrder κ] in
/-- Every node that was made is freed once, or live at one address. -/
structure Serials (s : State α ι κ σ) : Prop where
  nodup : s.freed.Nodup
  freed_iff : ∀ n, n ∈ s.freed ↔ n < s.allocs ∧ ¬ s.Live n
  lt : ∀ n, s.Live n → n < s.allocs
  unique : ∀ a b node node', s.nodes a = some node → s.nodes b = some node' →
    node.serial = node'.serial → a = b

namespace Serials

variable {node node' : Node ι κ}

omit [DecidableEq ι] [LinearOrder κ]

theorem alloc (h : s.Serials) (ha : s.nodes a = none) (hserial : node.serial = s.allocs)
    (hnodes : s'.nodes = update s.nodes a (some node)) (hfreed : s'.freed = s.freed)
    (hallocs : s'.allocs = s.allocs + 1) : s'.Serials := by
  have hat : ∀ b m, s'.nodes b = some m ↔ (b = a ∧ m = node) ∨ s.nodes b = some m := by
    intro b m
    rw [hnodes]
    rcases eq_or_ne b a with rfl | hb
    · rw [update_self, ha]
      exact ⟨fun h => .inl ⟨rfl, (some.inj h).symm⟩,
        fun h => h.elim (fun h => h.2 ▸ rfl) fun h => (by cases h)⟩
    · rw [update_of_ne hb]
      exact ⟨.inr, fun h => h.resolve_left fun h => hb h.1⟩
  have hlive : ∀ n, s'.Live n ↔ n = s.allocs ∨ s.Live n := by
    intro n
    simp only [Live, hat]
    constructor
    · rintro ⟨b, m, ⟨rfl, rfl⟩ | hm, rfl⟩
      · exact .inl hserial
      · exact .inr ⟨b, m, hm, rfl⟩
    · rintro (rfl | ⟨b, m, hm, rfl⟩)
      · exact ⟨a, node, .inl ⟨rfl, rfl⟩, hserial⟩
      · exact ⟨b, m, .inr hm, rfl⟩
  refine ⟨hfreed ▸ h.nodup, fun n => ?_, fun n hn => ?_, fun b c m m' hm hm' heq => ?_⟩
  · rw [hfreed, hallocs, hlive, h.freed_iff]
    constructor
    · exact fun ⟨hn, hnot⟩ => ⟨Nat.lt_succ_of_lt hn, fun h => h.elim hn.ne hnot⟩
    · exact fun ⟨hn, hnot⟩ => ⟨(Nat.lt_succ_iff_lt_or_eq.1 hn).resolve_right fun h => hnot (.inl h),
        fun h => hnot (.inr h)⟩
  · rw [hallocs]
    rcases (hlive n).1 hn with rfl | hn
    · exact Nat.lt_succ_self _
    · exact Nat.lt_succ_of_lt (h.lt n hn)
  · rcases (hat b m).1 hm with ⟨rfl, rfl⟩ | hm
    · rcases (hat c m').1 hm' with ⟨rfl, -⟩ | hm'
      · rfl
      · exact absurd (heq.symm.trans hserial) (h.lt _ ⟨c, m', hm', rfl⟩).ne
    · rcases (hat c m').1 hm' with ⟨rfl, rfl⟩ | hm'
      · exact absurd (heq.trans hserial) (h.lt _ ⟨b, m, hm, rfl⟩).ne
      · exact h.unique b c m m' hm hm' heq

theorem change (h : s.Serials) (ha : s.nodes a = some node)
    (hnodes : s'.nodes = update s.nodes a (some node'))
    (hserial : node'.serial = node.serial) (hfreed : s'.freed = s.freed)
    (hallocs : s'.allocs = s.allocs) : s'.Serials := by
  have hat : ∀ b m, s'.nodes b = some m → ∃ m', s.nodes b = some m' ∧ m'.serial = m.serial := by
    intro b m hm
    rw [hnodes] at hm
    rcases eq_or_ne b a with rfl | hb
    · rw [update_self] at hm
      exact ⟨node, ha, some.inj hm ▸ hserial.symm⟩
    · rw [update_of_ne hb] at hm
      exact ⟨m, hm, rfl⟩
  have hlive : ∀ n, s'.Live n ↔ s.Live n := by
    intro n
    constructor
    · rintro ⟨b, m, hm, rfl⟩
      obtain ⟨m', hm', heq⟩ := hat b m hm
      exact ⟨b, m', hm', heq⟩
    · rintro ⟨b, m, hm, rfl⟩
      rcases eq_or_ne b a with rfl | hb
      · refine ⟨b, node', ?_, ?_⟩
        · rw [hnodes, update_self]
        · rw [hserial, some.inj (ha.symm.trans hm)]
      · exact ⟨b, m, by rw [hnodes, update_of_ne hb, hm], rfl⟩
  refine ⟨hfreed ▸ h.nodup, fun n => ?_, fun n hn => ?_, fun b c m m' hm hm' heq => ?_⟩
  · rw [hfreed, hallocs, hlive, h.freed_iff]
  · exact hallocs ▸ h.lt n ((hlive n).1 hn)
  · obtain ⟨k, hk, hkm⟩ := hat b m hm
    obtain ⟨k', hk', hkm'⟩ := hat c m' hm'
    exact h.unique b c k k' hk hk' (hkm.trans (heq.trans hkm'.symm))

theorem free (h : s.Serials) (ha : s.nodes a = some node)
    (hnodes : s'.nodes = update s.nodes a none)
    (hfreed : s'.freed = node.serial :: s.freed) (hallocs : s'.allocs = s.allocs) :
    s'.Serials := by
  have hat : ∀ b m, s'.nodes b = some m ↔ b ≠ a ∧ s.nodes b = some m := fun b m => by
    rw [hnodes]
    exact update_eq_iff (by simp)
  have hlive : ∀ n, s'.Live n ↔ s.Live n ∧ n ≠ node.serial := by
    intro n
    simp only [Live, hat]
    constructor
    · rintro ⟨b, m, ⟨hb, hm⟩, rfl⟩
      exact ⟨⟨b, m, hm, rfl⟩, fun heq => hb (h.unique b a m node hm ha heq)⟩
    · rintro ⟨⟨b, m, hm, rfl⟩, hne⟩
      refine ⟨b, m, ⟨?_, hm⟩, rfl⟩
      rintro rfl
      exact hne (congrArg Node.serial (some.inj (hm.symm.trans ha)))
  have hself : s.Live node.serial := ⟨a, node, ha, rfl⟩
  refine ⟨?_, fun n => ?_, fun n hn => ?_, fun b c m m' hm hm' heq => ?_⟩
  · rw [hfreed]
    exact nodup_cons.2 ⟨fun hmem => ((h.freed_iff _).1 hmem).2 hself, h.nodup⟩
  · rw [hfreed, hallocs, hlive, mem_cons, h.freed_iff]
    constructor
    · rintro (rfl | ⟨hn, hnot⟩)
      · exact ⟨h.lt _ hself, fun h => h.2 rfl⟩
      · exact ⟨hn, fun h => hnot h.1⟩
    · rintro ⟨hn, hnot⟩
      by_cases heq : n = node.serial
      · exact .inl heq
      · exact .inr ⟨hn, fun h => hnot ⟨h, heq⟩⟩
  · exact hallocs ▸ h.lt n ((hlive n).1 hn).1
  · exact h.unique b c m m' ((hat b m).1 hm).2 ((hat c m').1 hm').2 heq

end Serials

theorem Serials.moved (h : s.Serials) (hmoved : s.Moved xs s' xs') : s'.Serials := by
  cases hmoved with
  | same => exact h
  | added host usessl hi ha _ _ _ _ _ => exact h.alloc ha rfl rfl rfl rfl
  | connected _ _ => exact ⟨h.nodup, h.freed_iff, h.lt, h.unique⟩
  | passed _ _ _ hnode _ _ _ => exact h.change hnode rfl rfl rfl rfl
  | dropped full _ _ _ hnode _ =>
    cases full
    · exact h.free hnode rfl rfl rfl
    · exact h.free hnode rfl rfl rfl
  | refused _ => exact ⟨h.nodup, h.freed_iff, h.lt, h.unique⟩
  | claimed _ _ hnode _ => exact h.change hnode rfl rfl rfl rfl
  | returned _ _ hnode _ => exact h.free hnode rfl rfl rfl
  | woken _ _ => exact ⟨h.nodup, h.freed_iff, h.lt, h.unique⟩

/-! ## The connections -/

omit [DecidableEq α] [DecidableEq ι] [LinearOrder κ] in
/-- Every connection is in one place. -/
structure Placed (s : State α ι κ σ) : Prop where
  isAt : ∀ c ∈ s.established, ∃! p, s.IsAt c p
  established : ∀ c p, s.IsAt c p → c ∈ s.established
  once : s.returnedSocks.Nodup ∧ s.cached.Nodup ∧ s.closed.Nodup

namespace Placed

variable {p q : Where ι} {c : σ} {sock : Option σ}

omit [DecidableEq α] [DecidableEq ι] [LinearOrder κ]

theorem unique (h : s.Placed) (hp : s.IsAt c p) (hq : s.IsAt c q) : p = q :=
  (h.isAt c (h.established c p hp)).unique hp hq

/-- A place of one connection is left for another one. -/
theorem move (h : s.Placed) (p₀ p₁ : Where ι) (hest : s'.established = s.established)
    (h0 : ∀ c, s.IsAt c p₀ ↔ sock = some c)
    (h1 : ∀ c p, s'.IsAt c p ↔ (p = p₁ ∧ sock = some c) ∨ (p ≠ p₀ ∧ s.IsAt c p))
    (honce : s'.returnedSocks.Nodup ∧ s'.cached.Nodup ∧ s'.closed.Nodup) : s'.Placed := by
  refine ⟨fun c hc => ?_, fun c p hp => ?_, honce⟩
  · rw [hest] at hc
    obtain ⟨p, hp, hunique⟩ := h.isAt c hc
    by_cases hpp : p = p₀
    · refine ⟨p₁, (h1 c p₁).2 (.inl ⟨rfl, (h0 c).1 (hpp ▸ hp)⟩), fun q hq => ?_⟩
      rcases (h1 c q).1 hq with ⟨hq, -⟩ | ⟨hne, hq⟩
      · exact hq
      · exact absurd ((hunique q hq).trans hpp) hne
    · refine ⟨p, (h1 c p).2 (.inr ⟨hpp, hp⟩), fun q hq => ?_⟩
      rcases (h1 c q).1 hq with ⟨-, hsock⟩ | ⟨-, hq⟩
      · exact absurd (hunique p₀ ((h0 c).2 hsock)).symm hpp
      · exact hunique q hq
  · rw [hest]
    rcases (h1 c p).1 hp with ⟨-, hsock⟩ | ⟨-, hp⟩
    · exact h.established c p₀ ((h0 c).2 hsock)
    · exact h.established c p hp

theorem establish (h : s.Placed) (i : ι) (hnew : ∀ c ∈ sock, c ∉ s.established)
    (hest : s'.established = sock.toList ++ s.established)
    (hreturned : s'.returnedSocks = s.returnedSocks) (hcached : s'.cached = s.cached)
    (hclosed : s'.closed = s.closed)
    (hat : ∀ c p, s'.IsAt c p ↔ (p = .thread i ∧ sock = some c) ∨ s.IsAt c p) : s'.Placed := by
  have hmem : ∀ c, c ∈ s'.established ↔ sock = some c ∨ c ∈ s.established := fun c => by
    rw [hest, mem_append, mem_toList]
  refine ⟨fun c hc => ?_, fun c p hp => ?_, ?_⟩
  · rcases (hmem c).1 hc with hsock | hc
    · refine ⟨.thread i, (hat c _).2 (.inl ⟨rfl, hsock⟩), fun q hq => ?_⟩
      exact ((hat c q).1 hq).elim And.left fun hq => absurd (h.established c q hq) (hnew c hsock)
    · obtain ⟨p, hp, hunique⟩ := h.isAt c hc
      refine ⟨p, (hat c p).2 (.inr hp), fun q hq => ?_⟩
      exact ((hat c q).1 hq).elim (fun hq => absurd hc (hnew c hq.2)) (hunique q)
  · rw [hmem]
    exact ((hat c p).1 hp).imp And.right (h.established c p)
  · rw [hreturned, hcached, hclosed]
    exact h.once

theorem keep (h : s.Placed) (hest : s'.established = s.established)
    (hreturned : s'.returnedSocks = s.returnedSocks) (hcached : s'.cached = s.cached)
    (hclosed : s'.closed = s.closed) (hat : ∀ c p, s'.IsAt c p ↔ s.IsAt c p) : s'.Placed := by
  refine ⟨?_, ?_, ?_⟩
  · simp only [hest, hat]
    exact h.isAt
  · simp only [hest, hat]
    exact h.established
  · rw [hreturned, hcached, hclosed]
    exact h.once

end Placed

omit [DecidableEq α] [DecidableEq ι] [LinearOrder κ] in
theorem mem_returnedSocks {c : σ} : c ∈ s.returnedSocks ↔ ∃ w, s.IsAt c (.returned w) := by
  rw [returnedSocks, mem_filterMap]
  constructor
  · rintro ⟨⟨w, sock⟩, hmem, rfl⟩
    exact ⟨w, hmem⟩
  · exact fun ⟨w, hmem⟩ => ⟨(w, some c), hmem, rfl⟩

theorem Placed.moved (h : s.Placed) (hlinked : s.Linked xs) (hmoved : s.Moved xs s' xs') :
    s'.Placed := by
  cases hmoved with
  | same => exact h
  | @added as bs i a tree links host usessl hi ha hxs hstored hle hge hfree =>
    refine h.keep rfl rfl rfl rfl fun c p => ?_
    cases p with
    | thread j =>
      simp only [IsAt, update_apply]
      split
      · next hj => simp [hj, hi]
      · rfl
    | answer w =>
      simp only [IsAt, update_apply]
      split
      · next hj => simp [hj, hi]
      · rfl
    | _ => exact Iff.rfl
  | @connected i a sock hi hnew =>
    refine h.establish i hnew rfl rfl rfl rfl fun c p => ?_
    cases p with
    | thread j =>
      simp only [IsAt, update_apply]
      split
      · next hj => simp [hj, hi]
      · next hj => simp [hj]
    | answer w =>
      simp only [IsAt, update_apply]
      split
      · next hw => simp [hw, hi]
      · simp
    | _ => simp [IsAt]
  | @passed as bs i w a sock node tree links hi hxs hstored hnode hhas hwaiter hwait =>
    subst hxs
    have hsock : s.sock w = none := by
      obtain ⟨-, -, -, -, hin, -⟩ := hlinked.waiting w a hwait
      exact hin (mem_append_right _ mem_cons_self)
    have hwi : w ≠ i := by
      rintro rfl
      cases hwait.symm.trans hi
    have hplace : ∀ c, s.IsAt c (.thread i) ↔ sock = some c := fun c => by simp [IsAt, hi]
    refine h.move (.thread i) (.answer w) rfl hplace (fun c p => ?_) h.once
    cases p with
    | thread j => simp [IsAt, update_idle_eq_connected]
    | answer v =>
      simp only [IsAt, idle_update_waiting hi]
      rcases eq_or_ne v w with rfl | hv
      · simp [hwait, hsock]
      · simp [hv]
    | _ => simp [IsAt]
  | @dropped as bs i a sock node tree links full hi hxs hstored hnode hhas =>
    have hplace : ∀ c, s.IsAt c (.thread i) ↔ sock = some c := fun c => by simp [IsAt, hi]
    have hnew : ∀ c ∈ sock.toList, c ∉ s.cached ∧ c ∉ s.closed := by
      intro c hc
      have hat := (hplace c).2 (mem_toList.1 hc)
      exact ⟨fun hmem => (by cases h.unique hat (show s.IsAt c .cached from hmem)),
        fun hmem => (by cases h.unique hat (show s.IsAt c .closed from hmem))⟩
    have hnodup : sock.toList.Nodup := by cases sock <;> simp
    cases full with
    | false =>
      refine h.move (.thread i) .cached rfl hplace (fun c p => ?_) ⟨h.once.1, ?_, h.once.2.2⟩
      · cases p with
        | thread j => simp [IsAt, freeNodeAt, cacheAdd, update_idle_eq_connected]
        | answer v => simp [IsAt, freeNodeAt, cacheAdd, idle_update_waiting hi]
        | _ => simp [IsAt, freeNodeAt, cacheAdd]
      · exact nodup_append.2 ⟨hnodup, h.once.2.1, fun c hc d hd heq =>
          (hnew c hc).1 (heq ▸ hd)⟩
    | true =>
      refine h.move (.thread i) .closed rfl hplace (fun c p => ?_) ⟨h.once.1, h.once.2.1, ?_⟩
      · cases p with
        | thread j => simp [IsAt, freeNodeAt, cacheAdd, update_idle_eq_connected]
        | answer v => simp [IsAt, freeNodeAt, cacheAdd, idle_update_waiting hi]
        | _ => simp [IsAt, freeNodeAt, cacheAdd]
      · exact nodup_append.2 ⟨hnodup, h.once.2.2, fun c hc d hd heq =>
          (hnew c hc).2 (heq ▸ hd)⟩
  | @refused w hw =>
    refine h.keep rfl rfl rfl rfl fun c p => ?_
    cases p with
    | thread j =>
      simp only [IsAt, giveBack, update_idle_eq_connected]
      exact ⟨fun ⟨a, ha⟩ => ⟨a, ha.2⟩, fun ⟨a, ha⟩ => ⟨a, fun hj => by simp [hj, hw] at ha, ha⟩⟩
    | answer v =>
      simp only [IsAt, giveBack, update_idle_eq_waiting]
      exact ⟨fun ⟨a, ha⟩ => ⟨a, ha.1.2, ha.2⟩,
        fun ⟨a, ha⟩ => ⟨a, ⟨fun hv => by simp [hv, hw] at ha, ha.1⟩, ha.2⟩⟩
    | returned _ => simp [IsAt, giveBack]
    | cached | closed => exact Iff.rfl
  | @claimed w a node hw ha hnode hhas =>
    refine h.keep rfl rfl rfl rfl fun c p => ?_
    cases p with
    | thread j =>
      simp only [IsAt, claim, update_apply]
      split
      · next hj => simp [hj, hw]
      · rfl
    | answer v =>
      simp only [IsAt, claim, update_apply]
      split
      · next hv => simp [hv, hw]
      · rfl
    | _ => exact Iff.rfl
  | @returned w a node sock hw ha hnode hsock =>
    have hplace : ∀ c, s.IsAt c (.answer w) ↔ sock = some c := fun c => by simp [IsAt, hw, hsock]
    refine h.move (.answer w) (.returned w) rfl hplace (fun c p => ?_)
      ⟨?_, h.once.2.1, h.once.2.2⟩
    · cases p with
      | thread j =>
        simp only [IsAt, giveBack, freeNodeAt, update_idle_eq_connected]
        rcases eq_or_ne j w with rfl | hj
        · simp [hw]
        · simp [hj]
      | answer v => simp [IsAt, giveBack, freeNodeAt, update_idle_eq_waiting, and_assoc]
      | returned v =>
        simp only [IsAt, giveBack, freeNodeAt, mem_cons, Prod.mk.injEq]
        simp [eq_comm]
      | cached | closed => simp [IsAt, giveBack, freeNodeAt]
    · cases hs : sock with
      | none => exact h.once.1
      | some c =>
        refine nodup_cons.2 ⟨fun hmem => ?_, h.once.1⟩
        obtain ⟨v, hv⟩ := mem_returnedSocks.1 hmem
        cases h.unique ((hplace c).2 hs) (show s.IsAt c (.returned v) from hv)
  | @woken w a hw ha => exact h.keep rfl rfl rfl rfl fun c p => by cases p <;> exact Iff.rfl

variable [DecidableEq σ]

omit [DecidableEq α] [DecidableEq ι] [LinearOrder κ] [DecidableEq σ] in
theorem serials_of_none (hnodes : ∀ a, s.nodes a = none) (hfreed : s.freed = [])
    (hallocs : s.allocs = 0) : s.Serials := by
  have hlive : ∀ n, ¬ s.Live n := by
    rintro n ⟨a, node, hnode, -⟩
    rw [hnodes a] at hnode
    cases hnode
  refine ⟨hfreed ▸ nodup_nil, fun n => ?_, fun n hn => absurd hn (hlive n), ?_⟩
  · rw [hfreed, hallocs]
    exact ⟨fun h => (by cases h), fun h => absurd h.1 (Nat.not_lt_zero n)⟩
  · intro a b node node' hnode
    rw [hnodes a] at hnode
    cases hnode

/-- The signal of a thread that is done wakes its waiter up. -/
theorem Linked.answered {w : ι} (h : s.Linked xs) (hw : s.Finished w) :
    ∃ s' sock, s.step (.wake w false) = some s' ∧ s'.fault = false ∧ s'.phase w = .idle ∧
      s.sock w = some sock ∧ s'.returned = (w, sock) :: s.returned := by
  obtain ⟨a, hphase, hdone⟩ := hw
  have ha : a ∉ xs := by
    rw [h.mem_iff]
    exact fun ⟨i, hi⟩ => hdone i hi
  obtain ⟨node, hnode, -, -, -, hout⟩ := h.waiting w a hphase
  obtain ⟨hready, hsignal, sock, hsock⟩ := hout ha
  refine ⟨(s.freeNodeAt a node).giveBack w sock, sock, ?_, h.sound, update_self _ _ _, hsock, rfl⟩
  rw [step, hphase]
  dsimp only
  rw [if_pos (.inr hsignal), wake, hnode, bind_some, if_pos hready, hsock]
  rfl

end State

section

variable [DecidableEq α] [DecidableEq ι] [LinearOrder κ] [DecidableEq σ]

theorem connections_safe {s : State α ι κ σ} (hs : machine.Reachable (fun _ _ => True) s) :
    s.Safe := by
  have hinv : ∃ xs, s.Linked xs ∧ s.Serials ∧ s.Placed := by
    refine hs.invariant (P := fun s => ∃ xs, s.Linked xs ∧ s.Serials ∧ s.Placed) ?_ ?_
    · rintro s ⟨htree, hnodes, hphase, hest, hcached, hclosed, hreturned, hfreed, hallocs, hfault⟩
      have hnone : ∀ a, ¬ ∃ i, (s.phase i).attempt = some a := by
        rintro a ⟨i, hi⟩
        rw [hphase i] at hi
        cases hi
      have hwait : ∀ w a, s.phase w ≠ .waiting a := by
        intro w a hw
        rw [hphase w] at hw
        cases hw
      have hplace : ∀ c p, ¬ s.IsAt c p := by
        intro c p
        cases p
        all_goals simp [State.IsAt, hphase, hcached, hclosed, hreturned]
      refine ⟨[], ⟨hfault, ?_, Nat.zero_le _, Pairwise.nil, ?_, ?_, ?_, ?_, ?_, ?_⟩,
        State.serials_of_none hnodes hfreed hallocs, ⟨?_, ?_, ?_⟩⟩
      · rw [htree]
        exact ⟨.nil, ⟨trivial, rfl, nodup_nil⟩, trivial, rfl⟩
      · exact fun a => ⟨fun h => (by cases h), fun h => absurd h (hnone a)⟩
      · exact fun i _ a hi => absurd ⟨i, hi⟩ (hnone a)
      · exact fun _ a ha => (by cases ha)
      · exact fun a ha => (by cases ha)
      · exact fun w a hw => absurd hw (hwait w a)
      · intro a node hnode
        rw [hnodes a] at hnode
        cases hnode
      · rw [hest]
        exact fun c hc => (by cases hc)
      · exact fun c p hp => absurd hp (hplace c p)
      · rw [State.returnedSocks, hreturned, hcached, hclosed]
        exact ⟨nodup_nil, nodup_nil, nodup_nil⟩
    · rintro s act s' ⟨xs, hlinked, hserials, hplaced⟩ - hstep
      obtain ⟨xs', hmoved⟩ := hlinked.exists_moved hstep
      exact ⟨xs', hlinked.moved hmoved, hserials.moved hmoved, hplaced.moved hlinked hmoved⟩
  obtain ⟨xs, hlinked, hserials, hplaced⟩ := hinv
  refine ⟨hlinked.sound, ?_, hplaced.isAt, hplaced.established, hplaced.once,
    fun w => hlinked.answered, ⟨hserials.nodup, hserials.freed_iff⟩, ?_⟩
  · rintro host i j ⟨a, node, hi, hnode, hhost, hfree⟩ ⟨b, node', hj, hnode', hhost', hfree'⟩
    have ha := (hlinked.mem_iff a).2 ⟨i, hi⟩
    have hb := (hlinked.mem_iff b).2 ⟨j, hj⟩
    obtain rfl := hlinked.free host a ha b hb ⟨node, hnode, hhost, hfree⟩
      ⟨node', hnode', hhost', hfree'⟩
    exact hlinked.unique i j a hi hj
  · exact fun a node hnode => (hlinked.owned a node hnode).imp_left (hlinked.mem_iff a).1

end

/-! ## A run -/

/-- The start of the program. -/
def start : State ℕ ℕ ℕ ℕ :=
  ⟨none, fun _ => ⟨none, none, none, 0⟩, fun _ => none, fun _ => .idle, fun _ => none,
    fun _ => false, [], [], [], [], [], 0, false⟩

/-- Thread 2 waits for the attempt of thread 1, which is done, while thread 3 connects again. -/
theorem connections_safe_answered : ∃ s : State ℕ ℕ ℕ ℕ, machine.run start [
    .connectAndCacheHost 1 10 7 true, .wait 2 7 true, .connectAndCacheHost 3 11 7 true,
    .connect 1 (some 5), .finish 1 false] = some s ∧ s.Finished 2 ∧ s.Safe := by
  have h0 : machine.Reachable (fun _ _ => True) start :=
    .init ⟨rfl, fun _ => rfl, fun _ => rfl, rfl, rfl, rfl, rfl, rfl, rfl, rfl⟩
  have hrun : machine.run start [
    .connectAndCacheHost 1 10 7 true, .wait 2 7 true, .connectAndCacheHost 3 11 7 true,
    .connect 1 (some 5), .finish 1 false] = some _ := rfl
  refine ⟨_, hrun, ⟨10, rfl, fun i => ?_⟩, connections_safe (h0.of_run hrun)⟩
  -- thread 3 has another node
  let f : ℕ → Phase ℕ ℕ := update (update (update (fun _ => .idle)
    1 (.connecting 10)) 2 (.waiting 10)) 3 (.connecting 11)
  change (update (update f 1 (.connected 10 (some 5))) 1 .idle i).attempt ≠
    some 10
  simp only [f, update_apply]
  split_ifs
  all_goals simp [Phase.attempt]

end Pclsync.ConnectCache
