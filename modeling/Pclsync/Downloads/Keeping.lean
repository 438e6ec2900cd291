import Pclsync.Downloads.Conflicts

/-!
# No file is lost to a download

A task replaces or deletes only contents which are known to be of revisions of the remote file, and
it moves the others to conflict names (`Safe`).

* `keeps_of_reachable`: so it is in the runs whose steps meet `Ok`: the file in the way can be read,
  the server's answer about the revisions is no permanent error, nothing changes between a check and
  what follows from it, and a rename task finds nothing unknown in its way.
* `not_safe_permfail`: after a permanent error the file is replaced.
-/

namespace Pclsync.Downloads.State

open Option List

variable {C κ : Type} [DecidableEq κ] {digest : C → Digest κ} {S T : State C κ} {o : Outcome C κ}
  {c : C} {p : String}

/-! ## The property -/

/-- What was found at the new name is known, or was moved to a conflict name. -/
def Kept (digest : C → Digest κ) (S : State C κ) : Prop :=
  ∀ c ∈ S.found, S.Known digest c ∨ ∃ num, (conflictName S.new num, c) ∈ S.moved

/-- Nothing unknown was replaced or deleted; and when the task is done and is not to be done again,
    what it found in its way is known, or was moved to a conflict name. -/
def Safe (digest : C → Digest κ) (S : State C κ) : Prop :=
  S.lost = [] ∧ (S.pc = .done false → S.Kept digest)

/-- The steps of the runs. -/
def Ok (digest : C → Digest κ) (S : State C κ) : Action C κ → Prop
  | .go o =>
    match S.pc with
    -- the file in the way can be read, or is known
    | .check => ∀ c ∈ S.disk S.new, o.ok = true ∨ S.Known digest c
    | .query _ => o.revisions ≠ .permfail
    -- the conflict name is free
    | .move num => S.disk (conflictName S.new num) = none
    -- nothing changed since it was checked, or put there
    | .overwrite | .delete => S.disk S.new = S.checked
    -- nothing unknown is in the way
    | .rename => S.old = S.new ∨ ∀ c ∈ S.disk S.new, S.Known digest c
    | _ => True
  | _ => True

/-! ## What holds in the runs -/

/-- All of it is known. -/
def AllKnown (digest : C → Digest κ) (S : State C κ) (x : Option C) : Prop :=
  ∀ c ∈ x, S.Known digest c

/-- What holds where the task is. -/
def Here (digest : C → Digest κ) (S : State C κ) : Prop :=
  match S.pc with
  | .readPartial target | .readLocal target => (∀ g ∈ target, g ∈ S.revisions) ∧ S.found = none
  | .transfer localdigest => localdigest = S.checked.map digest ∧ S.found = none
  | .check => S.AllKnown digest S.verified
  | .revision g | .query g =>
    S.AllKnown digest S.verified ∧ S.checked.map digest = some g ∧ S.found = S.checked
  | .stat _ | .move _ => S.AllKnown digest S.verified
  | .overwrite => S.AllKnown digest S.verified ∧ S.AllKnown digest S.checked ∧ S.Kept digest
  | .create | .delete => S.AllKnown digest S.checked ∧ S.Kept digest
  | .rename => S.found = none
  | .done retry => retry = false → S.Kept digest
  | .idle => True

/-- What holds in the runs. -/
structure Inv (digest : C → Digest κ) (S : State C κ) : Prop where
  lost : S.lost = []
  here : S.Here digest

omit [DecidableEq κ] in
theorem Inv.safe (h : Inv digest S) : Safe digest S := by
  refine ⟨h.lost, fun hpc => ?_⟩
  have hhere := h.here
  unfold Here at hhere
  rw [hpc] at hhere
  exact hhere rfl

/-! ## Changes of the disk -/

theorem destroy_of_known (h : S.AllKnown digest (S.disk p)) : S.destroy digest p = S := by
  unfold destroy
  rcases hp : S.disk p with _ | c
  · rfl
  · exact if_pos (h c hp)

theorem destroy_of_none (h : S.disk p = none) : S.destroy digest p = S :=
  destroy_of_known fun c hc => by rw [h] at hc; cases hc

omit [DecidableEq κ] in
theorem AllKnown.mono {x : Option C} (h : S.AllKnown digest x)
    (hsub : ∀ g ∈ S.revisions, g ∈ T.revisions) : T.AllKnown digest x :=
  fun c hc => (h c hc).imp_right (hsub _)

omit [DecidableEq κ] in
theorem allKnown_none : S.AllKnown digest none := fun c hc => by cases hc

omit [DecidableEq κ] in
/-- A task that is to be done again kept everything. -/
theorem Inv.retry (h : Inv digest S) : Inv digest (S.finish true) :=
  ⟨h.lost, fun hr => (by cases hr)⟩

omit [DecidableEq κ] in
theorem Inv.finish (h : Inv digest S) {retry : Bool} (hkept : S.Kept digest) :
    Inv digest (S.finish retry) := ⟨h.lost, fun _ => hkept⟩

/-! ## The steps -/

omit [DecidableEq κ] in
theorem kept_of_none (h : S.found = none) : S.Kept digest :=
  fun c hc => by rw [h] at hc; cases hc

theorem Inv.transferred {localdigest : Option (Digest κ)} (h : Inv digest S)
    (hpc : S.pc = .transfer localdigest)
    (hs : S.transferred digest localdigest o.transfer = some T) : Inv digest T := by
  have hhere := h.here
  simp only [Here, hpc] at hhere
  obtain ⟨hdigest, hfound⟩ := hhere
  rcases htransfer : o.transfer with retry | g | c <;> rw [htransfer] at hs
  · obtain ⟨⟩ := hs
    exact h.finish (kept_of_none hfound)
  · unfold State.transferred at hs
    obtain ⟨hg, ⟨⟩⟩ := ite_none_right_eq_some.1 hs
    refine ⟨h.lost, fun c hc => ?_, kept_of_none hfound⟩
    -- the server has the file that was read
    have hchecked : S.checked = some c := hc
    rw [hdigest, hchecked] at hg
    exact .inr (some.inj hg ▸ mem_cons_self)
  · obtain ⟨⟩ := hs
    refine ⟨h.lost, fun c' hc' => .inr ?_⟩
    obtain rfl := some.inj hc'
    exact mem_cons_self

/-- The revisions are asked for, without a permanent error. -/
theorem Inv.queried {g : Digest κ} (h : Inv digest S) (hpc : S.pc = .query g)
    (hok : o.revisions ≠ .permfail) : Inv digest (S.queried g o.revisions) := by
  have hhere := h.here
  simp only [Here, hpc] at hhere
  obtain ⟨hverified, hdigest, hfound⟩ := hhere
  rcases hrevisions : o.revisions with revisions | _ | _
  · have hsub : ∀ g ∈ S.revisions, g ∈ revisions ++ S.revisions :=
      fun _ => mem_append_right _
    unfold State.queried
    dsimp only
    split
    · rename_i hg
      -- the file is found to be of an old revision
      have hknown : ∀ c ∈ S.checked, (digest c).size = 0 ∨ digest c ∈ revisions ++ S.revisions := by
        intro c hc
        rw [mem_def.1 hc] at hdigest
        exact .inr (some.inj hdigest ▸ hg)
      exact ⟨h.lost, hverified.mono hsub, hknown, fun c hc => .inl (hknown c (hfound ▸ hc))⟩
    · exact ⟨h.lost, hverified.mono hsub⟩
  · exact h.retry
  · exact absurd hrevisions hok

theorem Inv.moved {num : ℕ} (h : Inv digest S) (hpc : S.pc = .move num)
    (hfree : S.disk (conflictName S.new num) = none) (c : C) :
    Inv digest { S.replace digest S.new (conflictName S.new num) c with
      checked := none
      found := c
      moved := (conflictName S.new num, c) :: S.moved
      pc := .overwrite } := by
  have hhere := h.here
  simp only [Here, hpc] at hhere
  unfold replace
  rw [destroy_of_none hfree]
  refine ⟨h.lost, hhere, allKnown_none, fun c' hc' => .inr ⟨num, ?_⟩⟩
  obtain rfl := some.inj hc'
  exact mem_cons_self

/-- The file is put over one that is known. -/
theorem Inv.overwritten (h : Inv digest S) (hpc : S.pc = .overwrite)
    (hsame : S.disk S.new = S.checked) (c : C) :
    Inv digest { S.replace digest S.old S.new c with checked := S.verified, pc := .create } := by
  have hhere := h.here
  simp only [Here, hpc] at hhere
  unfold replace
  rw [destroy_of_known (hsame ▸ hhere.2.1)]
  exact ⟨h.lost, hhere.1, hhere.2.2⟩

theorem Inv.go (h : Inv digest S) (hok : Ok digest S (.go o)) (hs : S.go digest o = some T) :
    Inv digest T := by
  have hhere := h.here
  unfold State.go at hs
  rcases hpc : S.pc <;> simp only [Here, hpc] at hhere <;> simp only [Ok, hpc] at hok <;>
    simp only [hpc] at hs
  case idle => cases hs
  case done => cases hs
  case readPartial target =>
    obtain ⟨⟩ := hs
    split
    · rename_i hread
      -- the partial file has the checksum that is wanted
      refine ⟨h.lost, fun c hc => ?_⟩
      have hold : S.disk S.old = some c := hc
      have hdigest := hread.2.2
      rw [hold] at hdigest
      exact .inr (hhere.1 _ hdigest.symm)
    · exact ⟨h.lost, hhere⟩
  case readLocal target =>
    obtain ⟨⟩ := hs
    generalize (if o.ok = true then S.disk S.new else none) = checked
    by_cases hread : target.isSome = true ∧ checked.map digest = target
    · -- the file has the checksum that is wanted
      rw [if_pos hread]
      refine ⟨h.lost, fun c hc => ?_, kept_of_none hhere.2⟩
      have hchecked : checked = some c := hc
      rw [hchecked] at hread
      exact .inr (hhere.1 _ hread.2.symm)
    · rw [if_neg hread]
      exact ⟨h.lost, rfl, hhere.2⟩
  case transfer localdigest => exact h.transferred hpc hs
  case check =>
    split at hs <;> obtain ⟨⟩ := hs
    · rename_i c hc
      split
      · exact ⟨h.lost, hhere, rfl, rfl⟩
      · rename_i hunreadable
        refine ⟨h.lost, hhere, fun c' hc' => ?_, kept_of_none rfl⟩
        obtain rfl := some.inj hc'
        exact (hok _ hc).resolve_left hunreadable
    · exact ⟨h.lost, hhere, allKnown_none, kept_of_none rfl⟩
  case revision g =>
    obtain ⟨⟩ := hs
    obtain ⟨hverified, hdigest, hfound⟩ := hhere
    by_cases hg : g.size = 0 ∨ g ∈ S.revisions
    · have hknown : S.AllKnown digest S.checked := fun c hc => by
        rw [mem_def.1 hc] at hdigest
        unfold Known
        rwa [some.inj hdigest]
      rw [if_pos hg]
      exact ⟨h.lost, hverified, hknown, fun c hc => .inl (hknown c (hfound ▸ hc))⟩
    · rw [if_neg hg]
      exact ⟨h.lost, hverified, hdigest, hfound⟩
  case query g =>
    obtain ⟨⟩ := hs
    exact h.queried hpc hok
  case stat num =>
    obtain ⟨⟩ := hs
    by_cases hthere : (S.disk (conflictName S.new num)).isSome = true ∧ o.ok = true
    · rw [if_pos hthere]
      exact ⟨h.lost, hhere⟩
    · rw [if_neg hthere]
      exact ⟨h.lost, hhere⟩
  case move num =>
    split at hs <;> obtain ⟨⟩ := hs
    · split
      · exact h.moved hpc hok _
      · exact h.retry
    · exact h.retry
  case overwrite =>
    split at hs <;> obtain ⟨⟩ := hs
    · split
      · exact h.overwritten hpc hok _
      · exact h.retry
    · exact h.retry
  case create =>
    split at hs <;> obtain ⟨⟩ := hs
    · split
      · split
        · exact h.finish hhere.2
        · exact ⟨h.lost, hhere⟩
      · exact h.retry
    · exact h.retry
  case delete =>
    obtain ⟨⟩ := hs
    split
    · rw [destroy_of_known (hok ▸ hhere.1)]
      exact ⟨h.lost, fun _ => hhere.2⟩
    · exact h.finish hhere.2
  case rename =>
    have hkept : S.Kept digest := kept_of_none hhere
    split at hs
    · obtain ⟨⟩ := hs
      exact h.finish hkept
    · rename_i hne
      split at hs <;> obtain ⟨⟩ := hs
      · exact h.finish hkept
      · split
        · unfold replace
          rw [destroy_of_known (hok.resolve_left hne)]
          exact ⟨h.lost, fun _ => hkept⟩
        · exact h.retry

/-! ## Runs -/

theorem Inv.step {a : Action C κ} (h : Inv digest S) (hok : Ok digest S a)
    (hs : S.step digest a = some T) : Inv digest T := by
  cases a with
  | change path content =>
    obtain ⟨⟩ := hs
    exact ⟨h.lost, h.here⟩
  | download localpath filename target =>
    have hT : S.startDownload localpath filename target = T := by
      unfold State.step at hs
      dsimp only at hs
      split at hs
      · exact some.inj hs
      · exact some.inj hs
      · cases hs
    subst hT
    exact ⟨h.lost, fun g hg => mem_append_left _ (mem_toList.2 hg), rfl⟩
  | rename t rows newfolder oldpath =>
    have hT : S.startRename t rows newfolder oldpath = T := by
      unfold State.step at hs
      dsimp only at hs
      split at hs
      · exact some.inj hs
      · exact some.inj hs
      · cases hs
    subst hT
    unfold startRename
    split
    · exact ⟨h.lost, rfl⟩
    · exact ⟨h.lost, fun _ => kept_of_none rfl⟩
  | go o => exact h.go hok hs

/-- In the runs whose steps meet the condition nothing is lost. -/
theorem keeps_of_reachable (hS : (machine digest).Reachable (Ok digest) S) : Safe digest S :=
  (hS.invariant (P := Inv digest) (fun S (h : S.Initial) => ⟨h.2, by
      unfold Here
      rw [h.1]
      trivial⟩)
    fun _ _ _ h hok hs => h.step hok hs).safe

/-! ## Two runs -/

/-- A content is its own checksum. -/
def ownDigest (c : String) : Digest String := ⟨c.length, c⟩

/-- The folder has one file. -/
def oneFile : State String String where
  disk p := if p = "/a" then some "mine" else none
  revisions := []
  pc := .idle
  old := ""
  new := ""
  server := none
  verified := none
  checked := none
  found := none
  moved := []
  lost := []

/-- The file in the way is moved to a conflict name. -/
theorem keeps_of_reachable_conflict :
    ∃ S : State String String, (machine ownDigest).Reachable (Ok ownDigest) S ∧
      S.disk "/a" = some "theirs" ∧ S.disk "/a (conflicted)" = some "mine" ∧ Safe ownDigest S := by
  let M : Machine (State String String) (Action String String) := machine ownDigest
  have h : M.Reachable (Ok ownDigest) oneFile := .init ⟨rfl, rfl⟩
  replace h := h.next (.download "" "a" none) trivial rfl
  replace h := h.next (.go {}) trivial rfl
  replace h := h.next (.go {}) trivial rfl
  replace h := h.next (.go { transfer := .got "theirs" }) trivial rfl
  replace h := h.next (.go {}) (fun _ _ => .inl rfl) rfl
  replace h := h.next (.go {}) trivial rfl
  replace h := h.next (.go { revisions := .ok [] }) (fun h => by cases h) rfl
  replace h := h.next (.go {}) trivial rfl
  replace h := h.next (.go {}) rfl rfl
  replace h := h.next (.go {}) rfl rfl
  exact ⟨_, h, rfl, rfl, keeps_of_reachable h⟩

/-- After a permanent error the file in the way is lost. -/
theorem not_safe_permfail :
    ¬ ∀ S : State String String, (machine ownDigest).Reachable (fun _ _ => True) S →
      Safe ownDigest S := by
  intro h
  have hrun : (machine ownDigest).run oneFile
      [.download "" "a" none, .go {}, .go {}, .go { transfer := .got "theirs" }, .go {}, .go {},
        .go { revisions := .permfail }, .go {}] = some _ := rfl
  have hsafe := h _ (Machine.Reachable.of_run (.init ⟨rfl, rfl⟩) hrun)
  exact absurd hsafe.1 (by decide)

end Pclsync.Downloads.State
