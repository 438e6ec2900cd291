import Pclsync.Guarded.Programs

/-!
# Rules for programs on an object with a mutex

`Spec F pre x post`: when `pre` holds before a run of the program `x`, then after it `post` holds of
its result and its end, unless the failure `F` has happened. A failure is stable (`Failure.stable`),
so that a program which goes on after one needs no proof (`Spec.bind`).

There is one rule for each way to make a program, and a rule for each kind of loop.
-/

namespace Pclsync.Guarded

variable {σ ε ν α β : Type}

/-- What stays as it is, once it has happened. -/
structure Failure (σ ε ν : Type) where
  holds : State σ ε ν → Prop
  stable : ∀ {s s'}, s.Grows s' → holds s → holds s'

/-- No failure. -/
def Failure.never : Failure σ ε ν := ⟨fun _ => False, fun _ h => h⟩

/-- Programs with a precondition and a postcondition, up to a failure. -/
def Spec (F : Failure σ ε ν) (pre : State σ ε ν → Prop) (x : Prog σ ε ν α)
    (post : α → State σ ε ν → Prop) : Prop :=
  ∀ s a s', x.run s = some (a, s') → pre s → post a s' ∨ F.holds s'

/-- After a round of a loop: the loop goes on, or it has a result. -/
def Round (inv : State σ ε ν → Prop) (post : α → State σ ε ν → Prop) : Option α → State σ ε ν → Prop
  | none => inv
  | some a => post a

namespace Spec

variable {F : Failure σ ε ν} {pre pre' : State σ ε ν → Prop} {x y : Prog σ ε ν α}
  {f : α → Prog σ ε ν β} {post post' : α → State σ ε ν → Prop} {post₂ : β → State σ ε ν → Prop}

theorem pure {a : α} (h : ∀ s, pre s → post a s) : Spec F pre (Pure.pure a) post := by
  intro s b s' hrun hpre
  cases hrun
  exact .inl (h s hpre)

theorem bind (hx : Spec F pre x post) (hf : ∀ a, Spec F (post a) (f a) post₂) :
    Spec F pre (x >>= f) post₂ := by
  intro s b s' hrun hpre
  rw [Prog.run_bind] at hrun
  obtain ⟨⟨a, s₁⟩, hx1, hf1⟩ := Option.bind_eq_some_iff.1 hrun
  rcases hx s a s₁ hx1 hpre with hpost | hfail
  · exact hf a s₁ b s' hf1 hpost
  · exact .inr (F.stable ((f a).grows hf1) hfail)

/-- The condition between the two, given. -/
theorem via (post : α → State σ ε ν → Prop) (hx : Spec F pre x post)
    (hf : ∀ a, Spec F (post a) (f a) post₂) : Spec F pre (x >>= f) post₂ :=
  bind hx hf

theorem weaken (h : Spec F pre x post) (hpre : ∀ s, pre' s → pre s)
    (hpost : ∀ a s, post a s → post' a s) : Spec F pre' x post' :=
  fun s a s' hrun hs => (h s a s' hrun (hpre s hs)).imp_left (hpost a s')

theorem strengthen (h : Spec F pre x post) (hpre : ∀ s, pre' s → pre s) : Spec F pre' x post :=
  h.weaken hpre fun _ _ h => h

theorem relax (h : Spec F pre x post) (hpost : ∀ a s, post a s → post' a s) : Spec F pre x post' :=
  h.weaken (fun _ h => h) hpost

/-- A part of the precondition which is not about the state. -/
theorem assuming {c : Prop} (h : c → Spec F pre x post) : Spec F (fun s => pre s ∧ c) x post :=
  fun s a s' hrun hpre => h hpre.2 s a s' hrun hpre.1

theorem cases (h : Spec F pre x post) (h' : Spec F pre' x post) :
    Spec F (fun s => pre s ∨ pre' s) x post :=
  fun s a s' hrun hpre => hpre.elim (h s a s' hrun) (h' s a s' hrun)

theorem ite {c : Prop} [Decidable c] (hx : c → Spec F pre x post) (hy : ¬ c → Spec F pre y post) :
    Spec F pre (if c then x else y) post := by
  split
  · exact hx ‹c›
  · exact hy ‹¬ c›

theorem onlyIf {c : Prop} [Decidable c] {x : Prog σ ε ν Unit} (h : c → Spec F pre x fun _ => pre) :
    Spec F pre (Prog.onlyIf c x) fun _ => pre :=
  ite h fun _ => pure fun _ h => h

/-! ## Steps -/

theorem get {post : σ → State σ ε ν → Prop} (h : ∀ s, pre s → post s.shared s) :
    Spec F pre Prog.get post := by
  intro s a s' hrun hpre
  cases hrun
  exact .inl (h s hpre)

theorem move {g : State σ ε ν → State σ ε ν} {hg : ∀ s : State σ ε ν, s.Grows (g s)}
    {post : Unit → State σ ε ν → Prop} (h : ∀ s, pre s → post () (g s)) :
    Spec F pre (Prog.move g hg) post := by
  intro s a s' hrun hpre
  cases hrun
  exact .inl (h s hpre)

theorem modify {g : σ → σ} {post : Unit → State σ ε ν → Prop}
    (h : ∀ s, pre s → post () { s with shared := g s.shared }) :
    Spec F pre (Prog.modify g) post := move h

theorem unlock {post : Unit → State σ ε ν → Prop}
    (h : ∀ s, pre s → post () { s with mutex := s.mutex.unlock }) :
    Spec F pre Prog.unlock post := move h

theorem note {n : ν} {post : Unit → State σ ε ν → Prop}
    (h : ∀ s, pre s → post () { s with notes := n :: s.notes }) :
    Spec F pre (Prog.note n) post := move h

theorem lock {post : Unit → State σ ε ν → Prop} (h : ∀ s x l, pre s →
    post () { s with shared := x, mutex := s.mutex.lock, answers := l, taken := x }) :
    Spec F pre Prog.lock post := by
  intro s a s' hrun hpre
  change Prog.lockNext s s.answers = some (a, s') at hrun
  rcases hl : s.answers with _ | ⟨x | e, l⟩ <;> rw [hl] at hrun <;> cases hrun
  exact .inl (h s x l hpre)

theorem ask {g : ε → Option α} (h : ∀ s e a l, g e = some a → pre s →
    post a { s with answers := l }) : Spec F pre (Prog.ask g) post := by
  intro s a s' hrun hpre
  change Prog.askNext g s s.answers = some (a, s') at hrun
  rcases hl : s.answers with _ | ⟨x | e, l⟩ <;> rw [hl] at hrun
  · cases hrun
  · cases hrun
  · obtain ⟨b, hb, ⟨⟩⟩ := Option.map_eq_some_iff.1 hrun
    exact .inl (h s e _ l hb hpre)

theorem stop : Spec F pre (Prog.stop : Prog σ ε ν α) post := by
  intro s a s' hrun
  cases hrun

theorem ofOption {o : Option α} (h : ∀ a s, o = some a → pre s → post a s) :
    Spec F pre (Prog.ofOption o) post := by
  rcases o with _ | a
  · exact stop
  · exact pure fun s hs => h a s rfl hs

/-! ## Loops -/

theorem withFuel {g : ℕ → Prog σ ε ν α} (h : ∀ n, Spec F pre (g n) post) :
    Spec F pre (Prog.withFuel g) post :=
  fun s a s' hrun hpre => h _ s a s' hrun hpre

theorem loop {body : Prog σ ε ν (Option α)} {inv : State σ ε ν → Prop}
    (h : Spec F inv body (Round inv post)) : Spec F inv (Prog.loop body) post := by
  refine withFuel fun n => ?_
  induction n with
  | zero => exact stop
  | succ n ih =>
    refine bind h fun r => ?_
    rcases r with _ | a
    · exact ih
    · exact pure fun s hs => hs

end Spec

end Pclsync.Guarded
