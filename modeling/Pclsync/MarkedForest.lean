import Mathlib.Data.Set.Card

/-!
# Forests whose nodes are marked along the paths to marked nodes

Some nodes of a forest have a property of their own. A node is *marked* when it or a node below it
has the property; its mark says whether the node itself has it and counts its marked children. The
marks are kept up to date one link at a time, by walks that go up from a node as long as nodes get
their mark or lose it.

* `Forest`: a parent function with a bound on the length of its chains, `Forest.setParent`, the
  change of one link.
* `Counts own links marks`: the marks are those of the property `own`, when the links in `links`
  (from a child to its parent) are counted.
* `Counts.add_link`, `Counts.remove_link`, `Counts.add_own`, `Counts.remove_own`,
  `Counts.set_own`: the change of one mark for each change of a link or of the property.
* `Counts.marked_iff_below`: when all links of marked nodes are counted, a node is marked if and
  only if it or a node below it has the property.
-/

namespace Pclsync

open Function Option

variable {α : Type*}

/-! ## Forests -/

/-- The chain of parents of `x` ends after fewer than `n` steps. -/
def Ends (parent : α → Option α) : ℕ → α → Prop
  | 0, _ => False
  | n + 1, x => ∀ p, parent x = some p → Ends parent n p

theorem Ends.mono {parent : α → Option α} {n m : ℕ} (h : n ≤ m) {x : α} (hx : Ends parent n x) :
    Ends parent m x := by
  induction n generalizing m x with
  | zero => exact hx.elim
  | succ n ih =>
    obtain ⟨m, rfl⟩ : ∃ k, m = k + 1 := ⟨m - 1, by omega⟩
    exact fun p hp => ih (Nat.le_of_succ_le_succ h) (hx p hp)

/-- `x` is `f` or below it, at a distance less than `n`. -/
def isBelow [DecidableEq α] (parent : α → Option α) : ℕ → α → α → Bool
  | 0, _, _ => false
  | n + 1, x, f => x = f || match parent x with
    | none => false
    | some p => isBelow parent n p f

/-- A forest, with a bound on the length of its chains. -/
structure Forest (α : Type*) where
  parent : α → Option α
  height : ℕ
  bounded : ∀ x, Ends parent height x

/-- `d` is `f` or below it. -/
def Below (parent : α → Option α) (d f : α) : Prop :=
  Relation.ReflTransGen (fun c p => parent c = some p) d f

section SetParent

variable [DecidableEq α] {parent : α → Option α} {f : α} {q : Option α} {n m : ℕ} {x : α}

/-- A chain that does not meet `f` is not changed by a new parent of `f`. -/
theorem ends_update_of_not_isBelow (hx : Ends parent n x) (hf : isBelow parent n x f = false) :
    Ends (update parent f q) n x := by
  induction n generalizing x with
  | zero => exact hx.elim
  | succ n ih =>
    rw [isBelow, Bool.or_eq_false_iff, decide_eq_false_iff_not] at hf
    intro p hp
    rw [update_of_ne hf.1] at hp
    rw [hp] at hf
    exact ih (hx p hp) hf.2

theorem ends_update (hx : Ends parent n x) (hq : ∀ p, q = some p → Ends (update parent f q) m p) :
    Ends (update parent f q) (n + m) x := by
  induction n generalizing x with
  | zero => exact hx.elim
  | succ n ih =>
    rw [Nat.succ_add]
    intro p hp
    rcases eq_or_ne x f with rfl | hne
    · rw [update_self] at hp
      exact (hq p hp).mono (Nat.le_add_left ..)
    · rw [update_of_ne hne] at hp
      exact ih (hx p hp)

/-- The forest with `q` as the parent of `f`, when `q` is not below `f`. -/
def Forest.setParent (t : Forest α) (f : α) (q : Option α)
    (h : ∀ p, q = some p → isBelow t.parent t.height p f = false) : Forest α where
  parent := update t.parent f q
  height := t.height + t.height
  bounded x := ends_update (t.bounded x) fun p hp =>
    ends_update_of_not_isBelow (t.bounded p) (h p hp)

end SetParent

/-! ## Marks -/

/-- The mark of a node: the number of its marked children, and whether it has the property. -/
@[ext]
structure Mark where
  children : ℕ
  own : Bool

namespace Mark

/-- The mark of a node, which may not have one, that gets a marked child. -/
def addChild (m : Option Mark) : Mark :=
  { m.getD ⟨0, false⟩ with children := (m.getD ⟨0, false⟩).children + 1 }

/-- The mark of a node that loses a marked child. -/
def dropChild (m : Mark) : Option Mark :=
  if m.children = 1 ∧ m.own = false then none else some { m with children := m.children - 1 }

end Mark

/-- The marks for the property `own` when the links in `links` are counted. -/
structure Counts (own : α → Bool) (links : α → α → Prop) (marks : α → Option Mark) : Prop where
  finite : ∀ p, {c | links c p}.Finite
  marked_iff : ∀ p, (marks p).isSome ↔ own p = true ∨ ∃ c, links c p
  children_eq : ∀ p m, marks p = some m → m.children = {c | links c p}.ncard
  own_eq : ∀ p m, marks p = some m → m.own = own p

namespace Counts

variable {own : α → Bool} {links links' : α → α → Prop} {marks : α → Option Mark} {x p f : α}
  {m : Mark}

theorem congr (h : Counts own links marks) (hl : ∀ c p, links' c p ↔ links c p) :
    Counts own links' marks := by
  obtain rfl : links' = links := funext fun c => funext fun p => propext (hl c p)
  exact h

theorem own_eq_false (h : Counts own links marks) (hp : marks p = none) : own p = false := by
  have := (h.marked_iff p).not.1 (by simp [hp])
  rw [not_or, Bool.not_eq_true] at this
  exact this.1

theorem not_links (h : Counts own links marks) (hp : marks p = none) (c : α) : ¬ links c p := by
  have := (h.marked_iff p).not.1 (by simp [hp])
  exact fun hc => this (.inr ⟨c, hc⟩)

theorem own_of_children_eq_zero (h : Counts own links marks) (hp : marks p = some m)
    (hm : m.children = 0) : m.own = true := by
  rw [h.own_eq p m hp]
  have hset : {c | links c p} = ∅ := by
    rw [← Set.ncard_eq_zero (h.finite p), ← h.children_eq p m hp, hm]
  rcases (h.marked_iff p).1 (by simp [hp]) with ho | ⟨c, hc⟩
  · exact ho
  · exact absurd (show c ∈ {c | links c p} from hc) (by simp [hset])

variable [DecidableEq α]

section

variable (h : Counts own links marks)
include h

theorem add_link (hn : ¬ links x p) : Counts own (fun c q => links c q ∨ c = x ∧ q = p)
      (update marks p (some (Mark.addChild (marks p)))) := by
  have hset : {c | links c p ∨ c = x ∧ p = p} = insert x {c | links c p} := by
    ext c
    simp [or_comm]
  have hne : ∀ {q}, q ≠ p → {c | links c q ∨ c = x ∧ q = p} = {c | links c q} := fun hq => by
    simp [hq]
  refine ⟨fun q => ?_, fun q => ?_, fun q m hm => ?_, fun q m hm => ?_⟩
  all_goals rcases eq_or_ne q p with rfl | hq
  · rw [hset]
    exact (h.finite q).insert x
  · rw [hne hq]
    exact h.finite q
  · simp only [update_self, isSome_some, true_iff]
    exact .inr ⟨x, by simp⟩
  · simp [h.marked_iff q, hq]
  · rw [update_self, some_inj] at hm
    rw [hset, Set.ncard_insert_of_notMem (s := {c | links c q}) hn (h.finite q), ← hm]
    cases hq : marks q with
    | none => simp [Mark.addChild, h.not_links hq]
    | some k => simp [Mark.addChild, h.children_eq q k hq]
  · rw [update_of_ne hq] at hm
    rw [hne hq]
    exact h.children_eq q m hm
  · rw [update_self, some_inj] at hm
    rw [← hm]
    cases hq : marks q with
    | none => exact (h.own_eq_false hq).symm
    | some k => exact h.own_eq q k hq
  · rw [update_of_ne hq] at hm
    exact h.own_eq q m hm

/-- The mark of `p` when one of its marked children is not counted any more. -/
theorem remove_link (hx : links x p) : ∃ m, marks p = some m ∧ 0 < m.children ∧
      Counts own (fun c q => links c q ∧ ¬ (c = x ∧ q = p))
        (update marks p m.dropChild) := by
  obtain ⟨m, hm⟩ := isSome_iff_exists.1 ((h.marked_iff p).2 (.inr ⟨x, hx⟩))
  have hcard := h.children_eq p m hm
  have hpos : 0 < m.children := by
    rw [hcard]
    exact (Set.ncard_pos (h.finite p)).2 ⟨x, hx⟩
  have hset : {c | links c p ∧ ¬ (c = x ∧ p = p)} = {c | links c p} \ {x} := by
    ext c
    simp
  have hcard' : {c | links c p ∧ ¬ (c = x ∧ p = p)}.ncard = m.children - 1 := by
    rw [hset, hcard, Set.ncard_sdiff_singleton_of_mem (s := {c | links c p}) hx]
  have hne : ∀ {q}, q ≠ p → ∀ c, (links c q ∧ ¬ (c = x ∧ q = p)) ↔ links c q := fun hq c => by
    simp [hq]
  have hfin : ∀ q, {c | links c q ∧ ¬ (c = x ∧ q = p)}.Finite := fun q =>
    (h.finite q).subset fun c hc => hc.1
  refine ⟨m, hm, hpos, hfin, fun q => ?_, fun q k hk => ?_, fun q k hk => ?_⟩
  all_goals rcases eq_or_ne q p with rfl | hq
  · -- The mark goes with the last child, unless the node has the property.
    have hempty : (∃ c, links c q ∧ ¬ (c = x ∧ q = q)) ↔ m.children - 1 ≠ 0 := by
      rw [← hcard', Ne, Set.ncard_eq_zero (hfin q), ← Ne, ← Set.nonempty_iff_ne_empty]
      rfl
    rw [update_self, hempty, ← h.own_eq q m hm, Mark.dropChild]
    split_ifs with h1
    · simp [h1.1, h1.2]
    · simp only [isSome_some, true_iff]
      rw [not_and_or, Bool.not_eq_false] at h1
      rcases h1 with h1 | h1
      · exact .inr (by omega)
      · exact .inl h1
  · simp only [update_of_ne hq, hne hq]
    exact h.marked_iff q
  · rw [update_self, Mark.dropChild] at hk
    split_ifs at hk
    rw [← some_inj.1 hk, hcard']
  · rw [update_of_ne hq] at hk
    simp only [hne hq]
    exact h.children_eq q k hk
  · rw [update_self, Mark.dropChild] at hk
    split_ifs at hk
    rw [← some_inj.1 hk]
    exact h.own_eq q m hm
  · rw [update_of_ne hq] at hk
    exact h.own_eq q k hk

/-- The marks after a change of the property and of the mark of one node. -/
theorem update_own {b : Bool} {k : Option Mark} (hk : k.isSome ↔ b = true ∨ ∃ c, links c f)
    (hk' : ∀ m, k = some m → m.children = {c | links c f}.ncard ∧ m.own = b) :
    Counts (update own f b) links (update marks f k) := by
  refine ⟨h.finite, fun q => ?_, fun q m hm => ?_, fun q m hm => ?_⟩
  all_goals rcases eq_or_ne q f with rfl | hq
  · rwa [update_self, update_self]
  · rw [update_of_ne hq, update_of_ne hq]
    exact h.marked_iff q
  · rw [update_self] at hm
    exact (hk' m hm).1
  · rw [update_of_ne hq] at hm
    exact h.children_eq q m hm
  · rw [update_self] at hm ⊢
    exact (hk' m hm).2
  · rw [update_of_ne hq] at hm ⊢
    exact h.own_eq q m hm

/-- A node that is not marked gets the property. -/
theorem add_own (hf : marks f = none) :
    Counts (update own f true) links (update marks f (some ⟨0, true⟩)) := by
  refine h.update_own (by simp) fun m hm => ?_
  obtain ⟨⟩ := hm
  simp [h.not_links hf]

/-- A marked node with no marked child loses the property. -/
theorem remove_own (hf : marks f = some m) (hm : m.children = 0) :
    Counts (update own f false) links (update marks f none) := by
  refine h.update_own ?_ (by simp)
  have hset : {c | links c f} = ∅ := by
    rw [← Set.ncard_eq_zero (h.finite f), ← h.children_eq f m hf, hm]
  simp only [isSome_none, Bool.false_eq_true, false_or, false_iff, not_exists]
  exact fun c hc => by simpa [hset] using (show c ∈ {c | links c f} from hc)

/-- A marked node that keeps its mark gets the property, or loses it. -/
theorem set_own {b : Bool} (hf : marks f = some m) (hb : b = true ∨ m.children ≠ 0) :
    Counts (update own f b) links
      (update marks f (some { m with own := b })) := by
  refine h.update_own ?_ fun k hk => ?_
  · simp only [isSome_some, true_iff]
    refine hb.imp_right fun hm => ?_
    rw [h.children_eq f m hf, Ne, Set.ncard_eq_zero (h.finite f), ← Ne,
      ← Set.nonempty_iff_ne_empty] at hm
    exact hm
  · obtain ⟨⟩ := hk
    exact ⟨h.children_eq f m hf, rfl⟩

end

end Counts

/-- When all links of marked nodes are counted, the marks are on the paths to the nodes with the
    property. -/
theorem Counts.marked_iff_below {own : α → Bool} {marks : α → Option Mark} (t : Forest α)
    (h : Counts own (fun c p => t.parent c = some p ∧ (marks c).isSome) marks) (f : α) :
    (marks f).isSome ↔ ∃ d, Below t.parent d f ∧ own d = true := by
  constructor
  · intro hf
    by_contra hno
    -- From a marked node with nothing below it marked nodes would go down without end.
    have hdown : ∀ n, ∃ c, (marks c).isSome ∧ Below t.parent c f ∧ ¬ Ends t.parent n c := by
      intro n
      induction n with
      | zero => exact ⟨f, hf, .refl, id⟩
      | succ n ih =>
        obtain ⟨c, hc, hcf, hn⟩ := ih
        rcases (h.marked_iff c).1 hc with ho | ⟨d, hdc, hd⟩
        · exact absurd ⟨c, hcf, ho⟩ hno
        · exact ⟨d, hd, .head hdc hcf, fun hend => hn (hend c hdc)⟩
    obtain ⟨c, -, -, hc⟩ := hdown t.height
    exact hc (t.bounded c)
  · rintro ⟨d, hd, ho⟩
    have hmd : (marks d).isSome := (h.marked_iff d).2 (.inl ho)
    induction hd with
    | refl => exact hmd
    | tail _ hlink ih => exact (h.marked_iff _).2 (.inr ⟨_, hlink, ih⟩)

end Pclsync
