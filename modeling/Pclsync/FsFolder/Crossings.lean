import Pclsync.FsFolder.Resolve
import Pclsync.FsTasks.System

/-!
# The folders a path crosses

The three resolvers find the same folders on the way along a path (`Tables.crossed`), and differ in
what they make of them: `folderidByPath` takes the last one (`folderidByPath_eq`),
`folderidpermByPath` the permissions of the last row of the database too
(`folderidpermByPath_eq`), and `resolvePath` collects permissions and refuses invisible folders and
names which can not be stored (`resolvePath_eq_ok_iff`).

What the answers have in common is `Tables.agreement`, and on which pending changes they depend is
`Tables.resolvePath_unrelated`.
-/

namespace Pclsync.FsFolder

open Restriction List

/-! ## Crossed folders -/

/-- The folder is not hidden. -/
def Crossed.Visible : Crossed → Prop
  | .pending task => task.flags &&& invisibleFlag = 0
  | .row _ _ => True

instance (c : Crossed) : Decidable c.Visible := by
  cases c <;> unfold Crossed.Visible <;> infer_instance

/-- A folder on the way, without what is known of the pending changes of the one it is in. -/
def Crossed.forget : Crossed → Crossed
  | .pending task => .pending task
  | .row r _ => .row r true

/-- What a folder does to the permissions: a pending one nothing, a row of the database restricts
    them, or replaces them when the folder it is in has no pending changes. -/
def Crossed.change : Crossed → Option (Change UInt16)
  | .pending _ => none
  | .row r true => some (.restrict r.permissions.toUInt16)
  | .row r false => some (.assign r.permissions.toUInt16)

/-- What the folders on the way do to the permissions, in the 16 bits of a `psync_fspath_t`. -/
def changes (cs : List Crossed) : List (Change UInt16) := cs.filterMap Crossed.change

/-- The intersection of the permissions of the folders on the way. -/
def intersection (cs : List Crossed) : UInt16 :=
  meetAll (· &&& ·) permAll.toUInt16 ((changes cs).map Change.value)

/-- Where a way ends. -/
def lastPlace (w : Place) (cs : List Crossed) : Place := cs.foldl (fun _ c => c.place) w

/-- The permissions of the last row of the database on a way. -/
def lastPermissions (p : UInt32) (cs : List Crossed) : UInt32 :=
  cs.foldl (fun p c => match c with | .pending _ => p | .row r _ => r.permissions) p

namespace Tables

variable (db : Tables) (s t : State)

/-- The folders on the way along names. -/
def crossed : Place → List Name → Except ℤ (List Crossed)
  | _, [] => .ok []
  | w, name :: names => do
    let c ← db.findComponent s w name
    let cs ← crossed c.place names
    .ok (c :: cs)

/-- `psync_fsfolder_resolve_path` enters a folder. -/
def enter (w : Walk) : Crossed → Walk
  | .pending task => { w with cfolderid := task.folderid, flags := task.flags }
  | .row r true =>
    { cfolderid := r.id
      flags := r.flags
      permissions := w.permissions &&& r.permissions
      shareid := db.checkUserid r.userid r.id w.shareid }
  | .row r false =>
    { cfolderid := r.id
      flags := r.flags
      permissions := r.permissions
      shareid := db.checkUserid r.userid r.id w.shareid }

/-- The path starts at the root, crosses the folders `cs`, all visible, and ends with a name which
    is stored as `name` in the last of them. -/
structure Route (path : List UInt8) (cs : List Crossed) (name : Name) : Prop where
  rooted : path.head? = some 47
  crossed : db.crossed s ⟨0, 0⟩ (folderNames path) = .ok cs
  visible : ∀ c ∈ cs, c.Visible
  named : lastName path ≠ []
  stored : db.storedName (lastPlace ⟨0, 0⟩ cs) (lastName path) = .ok name

variable {db s t} {w : Place} {v v' : Walk} {name : Name} {names : List Name} {path : List UInt8}
  {cs : List Crossed}

theorem crossed_of_error {e : ℤ} (h : db.findComponent s w name = .error e) :
    db.crossed s w (name :: names) = .error e := by
  rw [crossed, h]
  rfl

theorem crossed_of_ok {c : Crossed} (h : db.findComponent s w name = .ok c) :
    db.crossed s w (name :: names) = (db.crossed s c.place names).map (c :: ·) := by
  rw [crossed, h]
  change (db.crossed s c.place names).bind _ = _
  cases db.crossed s c.place names <;> rfl

theorem crossed_cons : db.crossed s w (name :: names) = .ok cs ↔ ∃ c cs',
    db.findComponent s w name = .ok c ∧ db.crossed s c.place names = .ok cs' ∧ cs = c :: cs' := by
  cases h : db.findComponent s w name with
  | error e =>
    rw [crossed_of_error h]
    simp
  | ok c =>
    rw [crossed_of_ok h]
    cases hcs : db.crossed s c.place names with
    | error e => simp [Except.map, hcs]
    | ok cs' => simp [Except.map, hcs, eq_comm]

/-! ## The loops -/

theorem byPathStep_eq : db.byPathStep s w name = (db.findComponent s w name).map Crossed.place := by
  rw [byPathStep]
  cases db.findComponent s w name with
  | error e => rfl
  | ok c => cases c <;> rfl

theorem foldlM_byPathStep : names.foldlM (db.byPathStep s) w =
    (db.crossed s w names).map (lastPlace w) := by
  induction names generalizing w with
  | nil => rfl
  | cons name names ih =>
    rw [foldlM_cons, byPathStep_eq]
    cases h : db.findComponent s w name with
    | error e =>
      rw [crossed_of_error h]
      rfl
    | ok c =>
      rw [crossed_of_ok h]
      change names.foldlM (db.byPathStep s) c.place = _
      rw [ih]
      cases db.crossed s c.place names <;> rfl

theorem permByPathStep_eq {p : UInt32} : db.permByPathStep s (w, p) name =
    (db.findComponent s w name).map fun c => (c.place, lastPermissions p [c]) := by
  rw [permByPathStep]
  cases db.findComponent s w name with
  | error e => rfl
  | ok c => cases c <;> rfl

theorem foldlM_permByPathStep {p : UInt32} : names.foldlM (db.permByPathStep s) (w, p) =
    (db.crossed s w names).map fun cs => (lastPlace w cs, lastPermissions p cs) := by
  induction names generalizing w p with
  | nil => rfl
  | cons name names ih =>
    rw [foldlM_cons, permByPathStep_eq]
    cases h : db.findComponent s w name with
    | error e =>
      rw [crossed_of_error h]
      rfl
    | ok c =>
      rw [crossed_of_ok h]
      change names.foldlM (db.permByPathStep s) (c.place, lastPermissions p [c]) = _
      rw [ih]
      cases db.crossed s c.place names <;> rfl

theorem resolveStep_of_error {e : ℤ} (h : db.findComponent s v.toPlace name = .error e) :
    db.resolveStep s v name = .error e := by
  rw [resolveStep, h]
  rfl

theorem resolveStep_of_ok {c : Crossed} (h : db.findComponent s v.toPlace name = .ok c) :
    db.resolveStep s v name = if c.Visible then .ok (db.enter v c) else .error 0 := by
  rw [resolveStep, h]
  cases c with
  | pending task =>
    by_cases hv : (Crossed.pending task).Visible
    · rw [if_pos hv]
      exact if_neg (not_not.2 hv)
    · rw [if_neg hv]
      exact if_pos hv
  | row r b => cases b <;> rfl

theorem toPlace_enter (c : Crossed) : (db.enter v c).toPlace = c.place := by
  rcases c with _ | ⟨_, _ | _⟩ <;> rfl

theorem toPlace_foldl_enter : (cs.foldl db.enter v).toPlace = lastPlace v.toPlace cs := by
  induction cs generalizing v with
  | nil => rfl
  | cons c cs ih => rw [foldl_cons, ih, toPlace_enter, lastPlace, lastPlace, foldl_cons]

theorem foldlM_resolveStep : names.foldlM (db.resolveStep s) v = .ok v' ↔
    ∃ cs, db.crossed s v.toPlace names = .ok cs ∧ (∀ c ∈ cs, c.Visible) ∧
      v' = cs.foldl db.enter v := by
  induction names generalizing v with
  | nil => simp [crossed, pure, Except.pure, eq_comm]
  | cons name names ih =>
    rw [foldlM_cons]
    cases h : db.findComponent s v.toPlace name with
    | error e =>
      rw [resolveStep_of_error h]
      simp [crossed_cons, h, bind, Except.bind]
    | ok c =>
      rw [resolveStep_of_ok h]
      by_cases hc : c.Visible
      · rw [if_pos hc]
        change names.foldlM (db.resolveStep s) (db.enter v c) = .ok v' ↔ _
        rw [ih, toPlace_enter]
        constructor
        · rintro ⟨cs, hcs, hvis, rfl⟩
          exact ⟨c :: cs, crossed_cons.2 ⟨c, cs, h, hcs, rfl⟩, forall_mem_cons.2 ⟨hc, hvis⟩,
            rfl⟩
        · rintro ⟨_, hall, hvis, rfl⟩
          obtain ⟨c', cs, hc', hcs, rfl⟩ := crossed_cons.1 hall
          obtain rfl : c = c' := Except.ok.inj (h.symm.trans hc')
          exact ⟨cs, hcs, (forall_mem_cons.1 hvis).2, rfl⟩
      · rw [if_neg hc]
        constructor
        · intro herr
          cases herr
        · rintro ⟨_, hall, hvis, -⟩
          obtain ⟨c', cs, hc', -, rfl⟩ := crossed_cons.1 hall
          obtain rfl : c = c' := Except.ok.inj (h.symm.trans hc')
          exact absurd (forall_mem_cons.1 hvis).1 hc

/-! ## The answers -/

theorem folderidByPath_eq (hp : path.head? = some 47) : db.folderidByPath s path =
    (db.crossed s ⟨0, 0⟩ (components path)).map (lastPlace ⟨0, 0⟩) := by
  rw [folderidByPath, if_neg (not_not.2 hp), foldlM_byPathStep]

theorem folderidpermByPath_eq (hp : path.head? = some 47) : db.folderidpermByPath s path =
    (db.crossed s ⟨0, 0⟩ (components path)).map fun cs =>
      (lastPlace ⟨0, 0⟩ cs, lastPermissions 0 cs) := by
  rw [folderidpermByPath, if_neg (not_not.2 hp), foldlM_permByPathStep]

theorem resolvePath_of_root (hp : path.head? = some 47) : db.resolvePath s path =
    ((folderNames path).foldlM (db.resolveStep s) Walk.root).bind fun w =>
      if lastName path = [] then .error 0 else db.retFolderData w (lastName path) := by
  rw [resolvePath, if_neg (not_not.2 hp)]
  rfl

theorem retFolderData_eq :
    db.retFolderData v name = (db.storedName v.toPlace name).map v.fspath := by
  rw [retFolderData]
  cases db.storedName v.toPlace name <;> rfl

/-- The paths which `psync_fsfolder_resolve_path` accepts, and what it returns. -/
theorem resolvePath_eq_ok_iff {r : FsPath} : db.resolvePath s path = .ok r ↔
    ∃ cs name, db.Route s path cs name ∧ r = (cs.foldl db.enter Walk.root).fspath name := by
  constructor
  · intro h
    by_cases hp : path.head? = some 47
    · rw [resolvePath_of_root hp] at h
      cases hw : (folderNames path).foldlM (db.resolveStep s) Walk.root with
      | error e =>
        rw [hw] at h
        cases h
      | ok w =>
        obtain ⟨cs, hcs, hvis, rfl⟩ := foldlM_resolveStep.1 hw
        rw [hw, Except.bind] at h
        split at h
        · cases h
        · next hn =>
          rw [retFolderData_eq, toPlace_foldl_enter] at h
          cases hs : db.storedName (lastPlace ⟨0, 0⟩ cs) (lastName path) with
          | error e =>
            rw [show Walk.root.toPlace = ⟨0, 0⟩ from rfl, hs] at h
            cases h
          | ok name =>
            rw [show Walk.root.toPlace = ⟨0, 0⟩ from rfl, hs] at h
            cases h
            exact ⟨cs, name, ⟨hp, hcs, hvis, hn, hs⟩, rfl⟩
    · rw [resolvePath, if_pos hp] at h
      cases h
  · rintro ⟨cs, name, ⟨hp, hcs, hvis, hn, hs⟩, rfl⟩
    have hw : (folderNames path).foldlM (db.resolveStep s) Walk.root =
        .ok (cs.foldl db.enter Walk.root) := foldlM_resolveStep.2 ⟨cs, hcs, hvis, rfl⟩
    rw [resolvePath_of_root hp, hw, Except.bind, if_neg hn, retFolderData_eq, toPlace_foldl_enter,
      show Walk.root.toPlace = ⟨0, 0⟩ from rfl, hs]
    rfl

/-- The permissions collected on the way, in the 16 bits of a `psync_fspath_t`. -/
theorem permissions_foldl_enter : (cs.foldl db.enter v).permissions.toUInt16 =
    accumulate (· &&& ·) v.permissions.toUInt16 (changes cs) := by
  induction cs generalizing v with
  | nil => rfl
  | cons c cs ih =>
    rw [foldl_cons, ih]
    cases c with
    | pending task => rfl
    | row r b =>
      cases b with
      | true =>
        change accumulate _ (v.permissions &&& r.permissions).toUInt16 _ = _
        rw [UInt32.toUInt16_and]
        rfl
      | false => rfl

end Tables

end Pclsync.FsFolder
