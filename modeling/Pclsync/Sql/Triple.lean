import Pclsync.Sql.Connection

/-!
# Rules for programs and calls

`Triple E P p Q`: when `P` holds of the database and the memory before the program `p`, and `p` ends
without a crash, then `Q` holds of its result, the database and the memory after it. There is one
rule for each way to make a program, and a rule for loops over lists (`Triple.forM`).

`Keeps E I p` says that `I` is an invariant of `p`.

`Call.Triple P m Q` is the same for a call, with conditions on the connection: when `m` returns,
`Q` holds. In a transaction a program does what its triple says (`Call.Triple.lift`).
-/

namespace Pclsync.Sql

variable {S : Type} {Q : Type → Type} {μ α β γ δ : Type}

/-- Programs with a precondition and a postcondition. -/
def Triple (E : Engine S Q δ) (pre : δ → μ → Prop) (p : Program S Q μ α)
    (post : α → δ → μ → Prop) : Prop :=
  ∀ (c c' : Session S δ μ) (a : α), p.exec E c = some (a, c') → pre c.db c.mem →
    post a c'.db c'.mem

/-- Programs with an invariant. -/
def Keeps (E : Engine S Q δ) (I : δ → μ → Prop) (p : Program S Q μ α) : Prop :=
  Triple E I p fun _ => I

namespace Triple

variable {E : Engine S Q δ} {pre pre' : δ → μ → Prop} {post post' : α → δ → μ → Prop}
  {p : Program S Q μ α} {f : α → Program S Q μ β} {post₂ : β → δ → μ → Prop}

theorem pure {a : α} (h : ∀ d m, pre d m → post a d m) :
    Triple E pre (Pure.pure a : Program S Q μ α) post := by
  intro c c' b hexec hpre
  cases hexec
  exact h _ _ hpre

theorem bind (hp : Triple E pre p post) (hf : ∀ a, Triple E (post a) (f a) post₂) :
    Triple E pre (p >>= f) post₂ := by
  intro c c' b hexec hpre
  rw [Program.exec_bind] at hexec
  obtain ⟨⟨a, c₁⟩, hexec1, hexec2⟩ := Option.bind_eq_some_iff.1 hexec
  exact hf a c₁ c' b hexec2 (hp c c₁ a hexec1 hpre)

theorem statement {s : S} {post : Ran → δ → μ → Prop}
    (h : ∀ d m, pre d m → post (E.run s d).1 (E.run s d).2 m) :
    Triple E pre (Program.statement s) post := by
  intro c c' a hexec hpre
  cases hexec
  exact h _ _ hpre

theorem execute {s : S} {post : Unit → δ → μ → Prop}
    (h : ∀ d m, pre d m → post () (E.run s d).2 m) : Triple E pre (Program.execute s) post := by
  intro c c' a hexec hpre
  cases hexec
  exact h _ _ hpre

theorem query {q : Q α} (h : ∀ d m, pre d m → post (E.ask q d) d m) :
    Triple E pre (Program.query q) post := by
  intro c c' a hexec hpre
  cases hexec
  exact h _ _ hpre

theorem memory {post : μ → δ → μ → Prop} (h : ∀ d m, pre d m → post m d m) :
    Triple E pre Program.memory post := by
  intro c c' a hexec hpre
  cases hexec
  exact h _ _ hpre

theorem modifyMemory {g : μ → μ} {post : Unit → δ → μ → Prop}
    (h : ∀ d m, pre d m → post () d (g m)) : Triple E pre (Program.modifyMemory g) post := by
  intro c c' a hexec hpre
  cases hexec
  exact h _ _ hpre

theorem crash : Triple E pre (Program.crash : Program S Q μ α) post := by
  intro c c' a hexec
  cases hexec

/-- A part of the precondition which is not about the state. -/
theorem assuming {c : Prop} (h : c → Triple E pre p post) :
    Triple E (fun d m => pre d m ∧ c) p post :=
  fun _ _ _ hexec hpre => h hpre.2 _ _ _ hexec hpre.1

theorem forM {l : List γ} {g : γ → Program S Q μ PUnit} {I : List γ → δ → μ → Prop}
    (h : ∀ x l', Triple E (I (x :: l')) (g x) fun _ => I l') :
    Triple E (I l) (l.forM g) fun _ => I [] := by
  induction l with
  | nil => exact pure fun _ _ h => h
  | cons x l ih => exact bind (h x l) fun _ => ih

end Triple

namespace Keeps

variable {E : Engine S Q δ} {I : δ → μ → Prop} {p : Program S Q μ α} {f : α → Program S Q μ β}

theorem pure (a : α) : Keeps E I (Pure.pure a : Program S Q μ α) := Triple.pure fun _ _ h => h

theorem bind (hp : Keeps E I p) (hf : ∀ a, Keeps E I (f a)) : Keeps E I (p >>= f) :=
  Triple.bind hp hf

theorem statement {s : S} (h : ∀ d m, I d m → I (E.run s d).2 m) :
    Keeps E I (Program.statement s) := Triple.statement h

theorem execute {s : S} (h : ∀ d m, I d m → I (E.run s d).2 m) :
    Keeps E I (Program.execute s) := Triple.execute h

theorem query (q : Q α) : Keeps E I (Program.query q) := Triple.query fun _ _ h => h

theorem memory : Keeps E I Program.memory := Triple.memory fun _ _ h => h

theorem modifyMemory {g : μ → μ} (h : ∀ d m, I d m → I d (g m)) :
    Keeps E I (Program.modifyMemory g) := Triple.modifyMemory h

theorem crash : Keeps E I (Program.crash : Program S Q μ α) := Triple.crash

theorem ite {c : Prop} [Decidable c] {p q : Program S Q μ α} (hp : Keeps E I p)
    (hq : Keeps E I q) : Keeps E I (if c then p else q) := by
  split
  · exact hp
  · exact hq

theorem forM {l : List γ} {g : γ → Program S Q μ PUnit} (h : ∀ x, Keeps E I (g x)) :
    Keeps E I (l.forM g) := Triple.forM (I := fun _ => I) fun x _ => h x

end Keeps

/-! ## Calls -/

/-- Calls with a precondition and a postcondition. -/
def Call.Triple (pre : Connection S δ μ → Prop) (m : Call S δ μ α)
    (post : α → Connection S δ μ → Prop) : Prop :=
  ∀ c c' a, m.run c = .returned a c' → pre c → post a c'

/-- The connection is in a transaction, with this condition on the database and the memory. -/
def InTransaction (P : δ → μ → Prop) (c : Connection S δ μ) : Prop :=
  c.in_transaction = true ∧ c.transaction_failed = false ∧ P c.session.db c.session.mem

namespace Call.Triple

variable {E : Engine S Q δ} {pre pre' : Connection S δ μ → Prop} {m : Call S δ μ α}
  {f : α → Call S δ μ β} {post post' : α → Connection S δ μ → Prop}
  {post₂ : β → Connection S δ μ → Prop} {P : δ → μ → Prop} {R : α → δ → μ → Prop}

theorem pure {a : α} (h : ∀ c, pre c → post a c) :
    Call.Triple pre (Pure.pure a : Call S δ μ α) post := by
  intro c c' b hrun hpre
  cases hrun
  exact h _ hpre

theorem bind (hm : Call.Triple pre m post) (hf : ∀ a, Call.Triple (post a) (f a) post₂) :
    Call.Triple pre (m >>= f) post₂ := by
  intro c c' b hrun hpre
  rcases hrun1 : m.run c with ⟨a, c₁⟩ | c₁ | c₁
  · rw [Call.bind_of_returned hrun1] at hrun
    exact hf a c₁ c' b hrun (hm c c₁ a hrun1 hpre)
  · rw [Call.bind_of_aborted hrun1] at hrun
    cases hrun
  · rw [Call.bind_of_crashed hrun1] at hrun
    cases hrun

theorem lift {p : Program S Q μ α} (h : Sql.Triple E P p R) :
    Call.Triple (InTransaction P) (Call.lift E p) fun a => InTransaction (R a) := by
  intro c c' a hrun hpre
  unfold Call.lift at hrun
  rcases hexec : p.exec E c.session with _ | ⟨b, s⟩
  · simp only [hexec] at hrun
    cases hrun
  · simp only [hexec, hpre.1, if_true] at hrun
    cases hrun
    exact ⟨rfl, hpre.2.1, h _ _ _ hexec hpre.2.2⟩

theorem assuming {p : Prop} (h : p → Call.Triple (InTransaction P) m post) :
    Call.Triple (InTransaction fun d m => P d m ∧ p) m post :=
  fun _ _ _ hrun hpre => h hpre.2.2.2 _ _ _ hrun ⟨hpre.1, hpre.2.1, hpre.2.2.1⟩

theorem onlyIf {p : Prop} [Decidable p] {m : Call S δ μ Unit}
    {I : Connection S δ μ → Prop} (h : p → Call.Triple I m fun _ => I) :
    Call.Triple I (Call.onlyIf p m) fun _ => I := by
  unfold Call.onlyIf
  split
  · exact h ‹p›
  · exact pure fun _ h => h

/-- A second transaction cannot be started. -/
theorem psync_sql_start_transaction {post : Unit → Connection S δ μ → Prop} :
    Call.Triple (InTransaction P) (Call.psync_sql_start_transaction : Call S δ μ Unit) post := by
  intro c c' a hrun hpre
  unfold Call.psync_sql_start_transaction at hrun
  simp only [hpre.1, if_true] at hrun
  cases hrun

end Call.Triple

end Pclsync.Sql
