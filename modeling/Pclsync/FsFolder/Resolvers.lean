import Pclsync.FsFolder.Crossings
import Mathlib.Data.List.Induction

/-!
# The three resolvers

What the answers of the three resolvers to a path have in common, and what the answer of
`psync_fsfolder_resolve_path` depends on.

* `Tables.agreement`: `psync_fsfolderid_by_path` and `psync_fsfolderidperm_by_path` find the same
  folder, and `psync_fsfolder_resolve_path` finds the folder which they find for the path up to its
  last slash.
* `Tables.resolvePath_unrelated`: two states of the pending changes which agree on the components
  of a path, but not on unrelated changes, give the same answer, if and only if on the way no
  folder without pending changes gives permissions back.
-/

namespace Pclsync.FsFolder

open Restriction List Option

/-! ## The folder part of a path -/

/-- A path up to its last slash. -/
def folderPart (path : List UInt8) : List UInt8 :=
  path.take (path.length - (lastName path).length)

section
variable {path dir : List UInt8} {name : Name}

theorem exists_split (h : 47 ∈ path) : ∃ dir name, path = dir ++ 47 :: name ∧ 47 ∉ name := by
  induction path with
  | nil => cases h
  | cons c path ih =>
    by_cases hmem : 47 ∈ path
    · obtain ⟨dir, name, rfl, hname⟩ := ih hmem
      exact ⟨c :: dir, name, rfl, hname⟩
    · obtain rfl : 47 = c := (mem_cons.1 h).resolve_right hmem
      exact ⟨[], path, rfl, hmem⟩

theorem parts_append (h : 47 ∉ name) : parts (dir ++ 47 :: name) = parts dir ++ [name] := by
  rw [parts, splitOn_append_cons_self, splitOn_eq_singleton h, parts]

theorem lastName_append (h : 47 ∉ name) : lastName (dir ++ 47 :: name) = name := by
  rw [lastName, parts_append h, getLastD_concat]

theorem folderPart_append (h : 47 ∉ name) : folderPart (dir ++ 47 :: name) = dir ++ [47] := by
  rw [folderPart, lastName_append h, append_cons, length_append, Nat.add_sub_cancel, take_left]

/-- The components of the folder part are the components with a slash after them. -/
theorem components_folderPart (h : path.head? = some 47) :
    components (folderPart path) = folderNames path := by
  obtain ⟨dir, name, rfl, hname⟩ := exists_split (mem_of_head? h)
  rw [folderPart_append hname, components, folderNames, parts_append hname,
    parts_append not_mem_nil, dropLast_concat, filter_append]
  exact append_nil _

theorem head?_folderPart (h : path.head? = some 47) : (folderPart path).head? = some 47 := by
  obtain ⟨dir, name, rfl, hname⟩ := exists_split (mem_of_head? h)
  rw [folderPart_append hname]
  cases dir with
  | nil => rfl
  | cons c dir => exact h

end

namespace Tables

variable (db : Tables) (s t : State)

/-! ## What the answers have in common -/

/-- The answers to a path agree. -/
structure SameAnswers (path : List UInt8) : Prop where
  accept : (∃ r, db.resolvePath s path = .ok r) ↔ ∃ w, db.folderidByPath s path = .ok w
  acceptPerm : (∃ w, db.folderidByPath s path = .ok w) ↔ ∃ w, db.folderidpermByPath s path = .ok w
  folder : ∀ r w, db.resolvePath s path = .ok r → db.folderidByPath s path = .ok w →
    r.folderid = w.cfolderid ∧ r.flags = w.flags.toUInt16
  permissions : ∀ r w p, db.resolvePath s path = .ok r → db.folderidpermByPath s path = .ok (w, p) →
    r.permissions = p.toUInt16

/-- What the answers to a path have in common. -/
structure Agreement (path : List UInt8) : Prop where
  /-- The two functions which look for a folder find the same. -/
  byPath : db.folderidByPath s path = (db.folderidpermByPath s path).map Prod.fst
  /-- The permissions are those of the last folder of the database on the way. -/
  permByPath : ∀ w p, db.folderidpermByPath s path = .ok (w, p) →
    ∃ cs, db.crossed s ⟨0, 0⟩ (components path) = .ok cs ∧ p = lastPermissions 0 cs
  /-- The paths accepted by `psync_fsfolder_resolve_path`. -/
  accept : (∃ r, db.resolvePath s path = .ok r) ↔
    ∃ w, db.folderidByPath s (folderPart path) = .ok w ∧
      (∀ cs, db.crossed s ⟨0, 0⟩ (folderNames path) = .ok cs → ∀ c ∈ cs, c.Visible) ∧
      lastName path ≠ [] ∧ ∃ name, db.storedName w (lastName path) = .ok name
  /-- The folder and the flags are those of the folder part, and the last component is the name. -/
  folder : ∀ r w, db.resolvePath s path = .ok r → db.folderidByPath s (folderPart path) = .ok w →
    r.folderid = w.cfolderid ∧ r.flags = w.flags.toUInt16 ∧
      db.storedName w (lastName path) = .ok r.name
  /-- The permissions agree when the last folder of the database on the way has none which was
      missing before. -/
  permissions : ∀ r w p cs before c, db.resolvePath s path = .ok r →
    db.folderidpermByPath s (folderPart path) = .ok (w, p) →
    db.crossed s ⟨0, 0⟩ (folderNames path) = .ok cs → changes cs = before ++ [c] →
    Within (· &&& ·) c.value (meetAll (· &&& ·) permAll.toUInt16 (before.map Change.value)) →
    r.permissions = p.toUInt16

variable {db s t} {path : List UInt8} {cs : List Crossed} {r : FsPath} {w : Place} {name : Name}

theorem folderidByPath_folderPart (hp : path.head? = some 47) :
    db.folderidByPath s (folderPart path) =
      (db.crossed s ⟨0, 0⟩ (folderNames path)).map (lastPlace ⟨0, 0⟩) := by
  rw [folderidByPath_eq (head?_folderPart hp), components_folderPart hp]

theorem map_eq_ok {α β : Type} {f : α → β} {x : Except ℤ α} {b : β} :
    x.map f = .ok b ↔ ∃ a, x = .ok a ∧ f a = b := by
  cases x <;> simp [Except.map]

/-- The last row of the database on a way is the last change of the permissions. -/
theorem lastPermissions_of_changes {p : UInt32} {before : List (Change UInt16)} {c : Change UInt16}
    (h : changes cs = before ++ [c]) : (lastPermissions p cs).toUInt16 = c.value := by
  induction cs using reverseRecOn with
  | nil => simp [changes] at h
  | append_singleton cs d ih =>
    rw [changes, filterMap_append] at h
    rw [lastPermissions, foldl_append]
    cases d with
    | pending task =>
      refine ih ?_
      rw [← h]
      exact (append_nil _).symm
    | row r b =>
      have hlast : ∀ d, cs.filterMap Crossed.change ++ [d] = before ++ [c] → d = c := fun d hd =>
        singleton_inj.1 (append_inj' hd rfl).2
      cases b with
      | true =>
        obtain rfl := hlast (.restrict r.permissions.toUInt16) h
        rfl
      | false =>
        obtain rfl := hlast (.assign r.permissions.toUInt16) h
        rfl

theorem resolvePath_permissions (h : r = (cs.foldl db.enter Walk.root).fspath name) :
    r.permissions = accumulate (· &&& ·) permAll.toUInt16 (changes cs) := by
  subst h
  exact permissions_foldl_enter

theorem resolvePath_place (h : r = (cs.foldl db.enter Walk.root).fspath name) :
    r.folderid = (lastPlace ⟨0, 0⟩ cs).cfolderid ∧
      r.flags = (lastPlace ⟨0, 0⟩ cs).flags.toUInt16 := by
  subst h
  have hplace : (cs.foldl db.enter Walk.root).toPlace = lastPlace ⟨0, 0⟩ cs := toPlace_foldl_enter
  rw [← hplace]
  exact ⟨rfl, rfl⟩

variable (db s) in
/-- What the answers of the three resolvers to a path have in common, for every path, database and
    state of the pending changes. -/
theorem agreement (path : List UInt8) : db.Agreement s path where
  byPath := by
    by_cases hp : path.head? = some 47
    · rw [folderidByPath_eq hp, folderidpermByPath_eq hp]
      cases db.crossed s ⟨0, 0⟩ (components path) <;> rfl
    · rw [folderidByPath, folderidpermByPath, if_pos hp, if_pos hp]
      rfl
  permByPath w p h := by
    by_cases hp : path.head? = some 47
    · rw [folderidpermByPath_eq hp, map_eq_ok] at h
      obtain ⟨cs, hcs, hw⟩ := h
      exact ⟨cs, hcs, (congrArg Prod.snd hw).symm⟩
    · rw [folderidpermByPath, if_pos hp] at h
      cases h
  accept := by
    constructor
    · rintro ⟨r, hr⟩
      obtain ⟨cs, name, hroute, rfl⟩ := resolvePath_eq_ok_iff.1 hr
      refine ⟨lastPlace ⟨0, 0⟩ cs, ?_, fun cs' hcs' => ?_, hroute.named, name, hroute.stored⟩
      · rw [folderidByPath_folderPart hroute.rooted, hroute.crossed]
        rfl
      · obtain rfl : cs = cs' := Except.ok.inj (hroute.crossed.symm.trans hcs')
        exact hroute.visible
    · rintro ⟨w, hw, hvis, hn, name, hs⟩
      have hp : path.head? = some 47 := by
        by_contra hp
        have hne : (folderPart path).head? ≠ some 47 := fun h => hp <| by
          rw [← h, folderPart, head?_take, if_neg]
          intro h0
          rw [folderPart, h0] at h
          cases h
        rw [folderidByPath, if_pos hne] at hw
        cases hw
      rw [folderidByPath_folderPart hp, map_eq_ok] at hw
      obtain ⟨cs, hcs, rfl⟩ := hw
      exact ⟨_, resolvePath_eq_ok_iff.2 ⟨cs, name, ⟨hp, hcs, hvis cs hcs, hn, hs⟩, rfl⟩⟩
  folder r w hr hw := by
    obtain ⟨cs, name, hroute, hr⟩ := resolvePath_eq_ok_iff.1 hr
    rw [folderidByPath_folderPart hroute.rooted, hroute.crossed] at hw
    obtain rfl : lastPlace ⟨0, 0⟩ cs = w := Except.ok.inj hw
    have hstored : db.storedName (lastPlace ⟨0, 0⟩ cs) (lastName path) = .ok r.name := by
      rw [hroute.stored, hr, Walk.fspath]
    exact ⟨(resolvePath_place hr).1, (resolvePath_place hr).2, hstored⟩
  permissions r w p cs before c hr hw hcs hc hle := by
    obtain ⟨cs', name, hroute, hr⟩ := resolvePath_eq_ok_iff.1 hr
    obtain rfl : cs = cs' := Except.ok.inj (hcs.symm.trans hroute.crossed)
    rw [folderidpermByPath_eq (head?_folderPart hroute.rooted), components_folderPart hroute.rooted,
      hcs] at hw
    obtain rfl : lastPermissions 0 cs = p := congrArg Prod.snd (Except.ok.inj hw)
    rw [resolvePath_permissions hr, lastPermissions_of_changes hc, hc]
    exact accumulate_of_within_last hle

/-- A database without folders. -/
def emptyTables : Tables where
  folder := []
  sharedfolder := []
  myUserid := 0
  fakePrefix := [46]
  encodeFilename _ _ := .error 0

/-- The path `/a` of an empty drive is accepted by `psync_fsfolder_resolve_path`, which does not
    look its last component up, but not by the other two. -/
theorem resolve_last_component : ¬ ∀ (db : Tables) (S : System) (path : List UInt8),
    System.machine.Reachable (fun _ _ => True) S → db.SameAnswers S.tasks path := by
  intro h
  have hsame := (h emptyTables System.initial [47, 97] (.init rfl)).accept
  obtain ⟨w, ⟨⟩⟩ := hsame.1 ⟨_, rfl⟩

/-! ## What an answer depends on -/

section
variable (db s t)

/-- The pending changes of a name which the resolvers look for. -/
def entry (s : State) (folderid : ℤ) (name : Name) : Option Mkdir × Option Rmdir :=
  let folder := s.getFolderTasksRdlocked folderid
  (folder.bind fun f => (f.find .mkdirs name 0).map Prod.snd,
    folder.bind fun f => (f.find .rmdirs name 0).map Prod.snd)

/-- Two states have the same pending changes of the components on the way along names. -/
def AgreeAlong : Place → List Name → Prop
  | _, [] => True
  | w, name :: names =>
    (∀ e, db.ename w name = .ok e → entry s w.cfolderid e = entry t w.cfolderid e) ∧
      ∀ c, db.findComponent s w name = .ok c → AgreeAlong c.place names

/-- The permissions returned are the intersection of those of the folders on the way. -/
def Intersects (path : List UInt8) : Prop :=
  ∀ r, db.resolvePath s path = .ok r →
    ∃ cs, db.crossed s ⟨0, 0⟩ (folderNames path) = .ok cs ∧ r.permissions = intersection cs

/-- The path is accepted, and on the way is a folder of the database, in one without pending
    changes, from where on there are permissions which were missing before. -/
def Regains (path : List UInt8) : Prop :=
  ∃ cs name, db.Route s path cs name ∧ ¬ NoRegain (· &&& ·) permAll.toUInt16 (changes cs)

end

variable {v v' : Walk} {names : List Name}

/-- What a component is found to be, given its pending changes. -/
def lookup (db : Tables) (folderid : ℤ) (e : Name) (x : Option Mkdir × Option Rmdir) :
    Except ℤ Crossed :=
  match x.1 with
  | some task => .ok (.pending task)
  | none =>
    match db.folderRow folderid e with
    | some r => if x.2.isNone then .ok (.row r true) else .error 0
    | none => .error 0

theorem findComponent_forget : (db.findComponent s w name).map Crossed.forget =
    (db.ename w name).bind fun e => lookup db w.cfolderid e (entry s w.cfolderid e) := by
  rw [findComponent]
  cases db.ename w name with
  | error e => rfl
  | ok e =>
    dsimp only [bind, Except.bind]
    rw [lookup, entry]
    cases s.getFolderTasksRdlocked w.cfolderid with
    | none =>
      dsimp only [bind_none]
      cases db.folderRow w.cfolderid e <;> rfl
    | some f =>
      dsimp only [bind_some]
      cases f.find .mkdirs e 0 with
      | some x => rfl
      | none =>
        dsimp only [map_none]
        cases db.folderRow w.cfolderid e with
        | none => rfl
        | some r =>
          dsimp only
          have hmap : ((f.find .rmdirs e 0).map Prod.snd).isNone = (f.find .rmdirs e 0).isNone :=
            isNone_map
          by_cases hn : (f.find .rmdirs e 0).isNone
          · rw [if_pos hn, if_pos (hmap.trans hn)]
            rfl
          · rw [if_neg hn, if_neg fun hn' => hn (hmap.symm.trans hn')]
            rfl

/-- The component found is the same in states with the same pending changes of it, but for the
    presence of other pending changes. -/
theorem findComponent_agree
    (h : ∀ e, db.ename w name = .ok e → entry s w.cfolderid e = entry t w.cfolderid e) :
    (db.findComponent s w name).map Crossed.forget =
      (db.findComponent t w name).map Crossed.forget := by
  rw [findComponent_forget, findComponent_forget]
  cases he : db.ename w name with
  | error e => rfl
  | ok e => rw [Except.bind, Except.bind, h e he]

theorem map_eq_map {α β : Type} {f : α → β} {x y : Except ℤ α} (h : x.map f = y.map f) :
    (∃ e, x = .error e ∧ y = .error e) ∨ ∃ a b, x = .ok a ∧ y = .ok b ∧ f a = f b := by
  cases x with
  | error e =>
    cases y with
    | error e' =>
      cases h
      exact .inl ⟨e, rfl, rfl⟩
    | ok b => cases h
  | ok a =>
    cases y with
    | error e' => cases h
    | ok b => exact .inr ⟨a, b, rfl, rfl, Except.ok.inj h⟩

theorem place_of_forget {c d : Crossed} (h : c.forget = d.forget) : c.place = d.place := by
  cases c <;> cases d <;> cases h <;> rfl

theorem visible_of_forget {c d : Crossed} (h : c.forget = d.forget) : c.Visible ↔ d.Visible := by
  cases c <;> cases d <;> cases h <;> rfl

/-- The variables of the loop, but for the permissions. -/
def Walk.erase (w : Walk) : Walk := { w with permissions := 0 }

theorem erase_enter {c d : Crossed} (h : c.forget = d.forget) (hv : v.erase = v'.erase) :
    (db.enter v c).erase = (db.enter v' d).erase := by
  obtain ⟨⟨cfolderid, flags⟩, permissions, shareid⟩ := v
  obtain ⟨⟨cfolderid', flags'⟩, permissions', shareid'⟩ := v'
  cases hv
  rcases c with task | ⟨r, _ | _⟩ <;> rcases d with task' | ⟨r', _ | _⟩ <;> cases h <;> rfl

/-- Along a path on which two states agree, the loops of `psync_fsfolder_resolve_path` differ in
    the permissions only. -/
theorem foldlM_resolveStep_agree (h : db.AgreeAlong s t v.toPlace names) (hv : v.erase = v'.erase) :
    (names.foldlM (db.resolveStep s) v).map Walk.erase =
      (names.foldlM (db.resolveStep t) v').map Walk.erase := by
  induction names generalizing v v' with
  | nil => exact congrArg Except.ok hv
  | cons name names ih =>
    have hplace : v.toPlace = v'.toPlace := by
      rw [show v.toPlace = v.erase.toPlace from rfl, hv]
      rfl
    rw [foldlM_cons, foldlM_cons]
    rcases map_eq_map (findComponent_agree h.1) with ⟨e, hs, ht⟩ | ⟨c, d, hs, ht, hcd⟩
    · rw [resolveStep_of_error hs, resolveStep_of_error (hplace ▸ ht)]
      rfl
    · rw [resolveStep_of_ok hs, resolveStep_of_ok (hplace ▸ ht)]
      by_cases hvis : c.Visible
      · rw [if_pos hvis, if_pos ((visible_of_forget hcd).1 hvis)]
        refine ih ?_ (erase_enter hcd hv)
        rw [toPlace_enter]
        exact h.2 c hs
      · rw [if_neg hvis, if_neg fun hd => hvis ((visible_of_forget hcd).2 hd)]
        rfl

theorem crossed_agree (h : db.AgreeAlong s t w names) :
    (db.crossed s w names).map (map Crossed.forget) =
      (db.crossed t w names).map (map Crossed.forget) := by
  induction names generalizing w with
  | nil => rfl
  | cons name names ih =>
    rcases map_eq_map (findComponent_agree h.1) with ⟨e, hs, ht⟩ | ⟨c, d, hs, ht, hcd⟩
    · rw [crossed_of_error hs, crossed_of_error ht]
    · have hrest := ih (h.2 c hs)
      rw [crossed_of_ok hs, crossed_of_ok ht, ← place_of_forget hcd]
      rcases map_eq_map hrest with ⟨e, hs, ht⟩ | ⟨cs, ds, hs, ht, hcds⟩
      · rw [hs, ht]
        rfl
      · rw [hs, ht]
        exact congrArg Except.ok (congrArg₂ cons hcd hcds)

theorem values_of_forget {cs ds : List Crossed}
    (h : cs.map Crossed.forget = ds.map Crossed.forget) :
    (changes cs).map Change.value = (changes ds).map Change.value := by
  have hforget : ∀ c : Crossed, c.forget.change.map Change.value = c.change.map Change.value := by
    rintro (_ | ⟨_, _ | _⟩) <;> rfl
  have hvalues : ∀ cs : List Crossed, (changes cs).map Change.value =
      (cs.map Crossed.forget).filterMap fun c => c.change.map Change.value := by
    intro cs
    rw [changes, map_filterMap, filterMap_map]
    exact filterMap_congr fun c _ => (hforget c).symm
  rw [hvalues, hvalues, h]

/-- The answer but for the permissions. -/
def FsPath.erase (r : FsPath) : FsPath := { r with permissions := 0 }

theorem resolvePath_agree (h : db.AgreeAlong s t ⟨0, 0⟩ (folderNames path)) :
    (db.resolvePath s path).map FsPath.erase = (db.resolvePath t path).map FsPath.erase := by
  by_cases hp : path.head? = some 47
  · rw [resolvePath_of_root hp, resolvePath_of_root hp]
    have hloop := foldlM_resolveStep_agree (v := Walk.root) h rfl
    rcases map_eq_map hloop with ⟨e, hs, ht⟩ | ⟨v, v', hs, ht, hv⟩
    · rw [hs, ht]
    · rw [hs, ht]
      obtain ⟨⟨cfolderid, flags⟩, permissions, shareid⟩ := v
      obtain ⟨⟨cfolderid', flags'⟩, permissions', shareid'⟩ := v'
      cases hv
      dsimp only [Except.bind]
      by_cases hn : lastName path = []
      · rw [if_pos hn, if_pos hn]
      · rw [if_neg hn, if_neg hn, retFolderData_eq, retFolderData_eq]
        cases db.storedName ⟨cfolderid, flags⟩ (lastName path) <;> rfl
  · rw [resolvePath, resolvePath, if_pos hp, if_pos hp]

theorem intersects_iff : db.Intersects s path ↔ ¬ db.Regains s path := by
  constructor
  · rintro h ⟨cs, name, hroute, hregain⟩
    obtain ⟨cs', hcs', hperm⟩ := h _ (resolvePath_eq_ok_iff.2 ⟨cs, name, hroute, rfl⟩)
    obtain rfl : cs = cs' := Except.ok.inj (hroute.crossed.symm.trans hcs')
    rw [resolvePath_permissions rfl] at hperm
    exact hregain ((accumulate_eq_meetAll_iff _ _).1 hperm)
  · intro h r hr
    obtain ⟨cs, name, hroute, hr⟩ := resolvePath_eq_ok_iff.1 hr
    refine ⟨cs, hroute.crossed, (resolvePath_permissions hr).trans ?_⟩
    exact (accumulate_eq_meetAll_iff _ _).2
      (not_not.1 fun hregain => h ⟨cs, name, hroute, hregain⟩)

/-- Two states of the pending changes which agree on the components of a path give the same answer,
    with the permissions in the intersection, if and only if in neither of them permissions are
    regained on the way. -/
theorem resolvePath_unrelated (h : db.AgreeAlong s t ⟨0, 0⟩ (folderNames path)) :
    (db.resolvePath s path = db.resolvePath t path ∧ db.Intersects s path ∧
      db.Intersects t path) ↔ ¬ db.Regains s path ∧ ¬ db.Regains t path := by
  rw [← intersects_iff, ← intersects_iff]
  refine and_iff_right_of_imp fun ⟨hs, ht⟩ => ?_
  rcases map_eq_map (resolvePath_agree h) with ⟨e, hrs, hrt⟩ | ⟨r, r', hrs, hrt, hr⟩
  · rw [hrs, hrt]
  · obtain ⟨cs, hcs, hperm⟩ := hs r hrs
    obtain ⟨ds, hds, hperm'⟩ := ht r' hrt
    have hforget : cs.map Crossed.forget = ds.map Crossed.forget := by
      have hmap := crossed_agree h
      rw [hcs, hds] at hmap
      exact Except.ok.inj hmap
    have hpermissions : r.permissions = r'.permissions := by
      rw [hperm, hperm', intersection, intersection, values_of_forget hforget]
    obtain ⟨folderid, name, shareid, permissions, flags⟩ := r
    obtain ⟨folderid', name', shareid', permissions', flags'⟩ := r'
    obtain rfl : permissions = permissions' := hpermissions
    cases hr
    rw [hrs, hrt]

/-- A database with the folders `/a` and `/a/b`. -/
def twoFolders (permissions permissions' : UInt32) : Tables :=
  { emptyTables with
    folder :=
      [{ id := 1, parentfolderid := 0, name := [97], permissions := permissions, flags := 0
         userid := 0 },
        { id := 2, parentfolderid := 1, name := [98], permissions := permissions', flags := 0
          userid := 0 }] }

/-- The pending changes after `mkdir /a/c`. -/
def mkdirInA : State := (State.mkdir (System.emptyDatabase 1) 1 [99] 0 System.initial.tasks).2

theorem agreeAlong_mkdirInA {p p' : UInt32} :
    (twoFolders p p').AgreeAlong System.initial.tasks mkdirInA ⟨0, 0⟩ [[97], [98]] := by
  refine ⟨fun e he => by cases he; rfl, fun c hc => ⟨fun e he => ?_, fun _ _ => trivial⟩⟩
  cases hc
  have hname : (twoFolders p p').ename ⟨1, 0⟩ [98] = .ok [98] := rfl
  obtain rfl : [98] = e := Except.ok.inj (hname.symm.trans he)
  rfl

/-- `/a` lets read only, `/a/b` read only too: the answer to `/a/b/x` is the same after
    `mkdir /a/c`. -/
theorem resolvePath_unrelated_readOnly : (twoFolders 1 1).resolvePath System.initial.tasks
    [47, 97, 47, 98, 47, 120] =
      (twoFolders 1 1).resolvePath mkdirInA [47, 97, 47, 98, 47, 120] := by
  refine ((resolvePath_unrelated agreeAlong_mkdirInA).2 ⟨?_, ?_⟩).1
  all_goals
    rintro ⟨cs, name, hroute, hregain⟩
    cases hroute.crossed
    exact hregain ((accumulate_eq_meetAll_iff _ _).1 rfl)

/-- `/a` lets read only, `/a/b` gives all permissions: they are given for `/a/b/x`, until
    `mkdir /a/c`. -/
theorem permissions_regained : ¬ ∀ (db : Tables) (S T : System) (path : List UInt8),
    System.machine.Reachable (fun _ _ => True) S → System.machine.Reachable (fun _ _ => True) T →
    db.AgreeAlong S.tasks T.tasks ⟨0, 0⟩ (folderNames path) →
    db.resolvePath S.tasks path = db.resolvePath T.tasks path ∧ db.Intersects S.tasks path ∧
      db.Intersects T.tasks path := by
  intro h
  have ht : System.machine.Reachable (fun _ _ => True) ⟨mkdirInA, 0⟩ :=
    .step (a := .mkdir (System.emptyDatabase 1) 1 [99] 0) (.init rfl) trivial rfl
  have heq := (h (twoFolders 1 15) System.initial _ [47, 97, 47, 98, 47, 120] (.init rfl) ht
    agreeAlong_mkdirInA).1
  have hs : (twoFolders 1 15).resolvePath System.initial.tasks [47, 97, 47, 98, 47, 120] =
      .ok { folderid := 2, name := [120], shareid := 0, permissions := 15, flags := 0 } := rfl
  have ht' : (twoFolders 1 15).resolvePath mkdirInA [47, 97, 47, 98, 47, 120] =
      .ok { folderid := 2, name := [120], shareid := 0, permissions := 1, flags := 0 } := rfl
  rw [hs, ht'] at heq
  cases heq

end Tables

end Pclsync.FsFolder
