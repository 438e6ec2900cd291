import Pclsync.Diff.FolderTable
import Pclsync.Diff.FileTable

/-!
# The tables and the tree

`Tracks` relates a tree of the server, the events which come later, and the tables of folders and
files with the used quota. The changes which are possible keep the tree a tree
(`Tree.WellFormed.apply`).

* `Tracks.deliver`: an event that fits is processed, one lemma for each kind.
* `Tracks.enter`: an answer of the server that fits is entered before its event comes.
* `Tracks.faithful`: when no events come later, the tables are those of the tree.
-/

namespace Pclsync.Diff

open Sql Sql.Table List

variable {env : Env}

/-! ## Trees -/

namespace Tree

/-- A tree: ids are 64-bit numbers, and the parents of its folders are there. -/
structure WellFormed (t : Tree) : Prop where
  folders : Keyed Folder.id t.folders
  files : Keyed File.id t.files
  ids : ∀ f ∈ t.folders, f.id < noParent
  parents : ∀ f ∈ t.folders, f.parentfolderid = noParent ∨
    (lookup Folder.id t.folders f.parentfolderid).isSome
  root : lookup Folder.id t.folders 0 = some rootFolder

theorem wellFormed_start : start.WellFormed where
  folders := nodup_singleton _
  files := nodup_nil
  ids f hf := by
    rw [mem_singleton.1 hf]
    decide
  parents f hf := .inl (by rw [mem_singleton.1 hf]; rfl)
  root := rfl

variable {t : Tree} {c : Change} {k : ℕ}

/-- What is not in the tree has no subfolders. -/
theorem WellFormed.subfolders_eq_zero (h : t.WellFormed) (hk : k < noParent)
    (hnone : lookup Folder.id t.folders k = none) : subfolders t.folders k = 0 := by
  refine Tree.subfolders_eq_zero fun f hf hparent => ?_
  rcases h.parents f hf with hno | hthere
  · exact Nat.lt_irrefl _ (hno ▸ hparent ▸ hk)
  · rw [hparent, hnone] at hthere
    cases hthere

theorem WellFormed.deletefolder (h : t.WellFormed) {id : ℕ} (hid : id ≠ 0)
    (hleaf : ∀ f ∈ t.folders, f.parentfolderid ≠ id) :
    ({ t with folders := without Folder.id t.folders id } : Tree).WellFormed where
  folders := h.folders.without id
  files := h.files
  ids f hf := h.ids f (mem_filter.1 hf).1
  parents f hf := by
    have hmem := (mem_filter.1 hf).1
    refine (h.parents f hmem).imp_right fun hthere => ?_
    rwa [lookup_without, if_neg (hleaf f hmem)]
  root := by rw [lookup_without, if_neg (Ne.symm hid), h.root]

theorem WellFormed.createfolder (h : t.WellFormed) {f : Folder} (hid : f.id < noParent)
    (hnone : lookup Folder.id t.folders f.id = none)
    (hparent : (lookup Folder.id t.folders f.parentfolderid).isSome) :
    ({ t with folders := t.folders ++ [f] } : Tree).WellFormed := by
  have hlookup : ∀ k, (lookup Folder.id t.folders k).isSome →
      (lookup Folder.id (t.folders ++ [f]) k).isSome := fun k hk => by
    rw [lookup_append hnone]
    split
    · rfl
    · exact hk
  refine ⟨h.folders.append hnone, h.files, fun g hg => ?_, fun g hg => ?_, ?_⟩
  · rcases mem_append.1 hg with hg | hg
    · exact h.ids g hg
    · exact mem_singleton.1 hg ▸ hid
  · rcases mem_append.1 hg with hg | hg
    · exact (h.parents g hg).imp_right (hlookup _)
    · exact .inr (hlookup _ (mem_singleton.1 hg ▸ hparent))
  · have hne : (0 : ℕ) ≠ f.id := fun h0 => by
      rw [← h0, h.root] at hnone
      cases hnone
    rw [lookup_append hnone, if_neg hne, h.root]

/-- A folder of the tree, but for the root, is changed and goes to a folder of the tree. -/
theorem WellFormed.modifyfolder (h : t.WellFormed) {f : Folder} (hid : f.id ≠ 0)
    (hthere : (lookup Folder.id t.folders f.id).isSome) (hbound : f.id < noParent)
    (hparent : (lookup Folder.id t.folders f.parentfolderid).isSome) :
    ({ t with folders := update Folder.id t.folders f.id fun _ => f } : Tree).WellFormed := by
  have hkey : ∀ r : Folder, r.id = f.id → f.id = f.id := fun _ _ => rfl
  have hlookup : ∀ k, (lookup Folder.id t.folders k).isSome →
      (lookup Folder.id (update Folder.id t.folders f.id fun _ => f) k).isSome := fun k hk => by
    rw [lookup_update hkey]
    split
    · rwa [Option.isSome_map]
    · exact hk
  have hmem : ∀ g ∈ update Folder.id t.folders f.id fun _ => f, g = f ∨ g ∈ t.folders :=
    fun g hg => by
      obtain ⟨old, hold, rfl⟩ := mem_map.1 hg
      split
      · exact .inl rfl
      · exact .inr hold
  refine ⟨h.folders.update hkey, h.files, fun g hg => ?_, fun g hg => ?_, ?_⟩
  · rcases hmem g hg with rfl | hg
    · exact hbound
    · exact h.ids g hg
  · rcases hmem g hg with rfl | hg
    · exact .inr (hlookup _ hparent)
    · exact (h.parents g hg).imp_right (hlookup _)
  · rw [lookup_update hkey, if_neg (Ne.symm hid), h.root]

theorem WellFormed.withFiles (h : t.WellFormed) {l : List File} (hl : Keyed File.id l) :
    ({ t with files := l } : Tree).WellFormed :=
  ⟨h.folders, hl, h.ids, h.parents, h.root⟩

theorem folder_bound (hc : c.sound env = true) : (c.folder env).id < noParent := by
  simp only [Change.sound, Bool.and_eq_true, decide_eq_true_eq] at hc
  exact hc.1.1

theorem deleted_ne (hc : c.sound env = true) : c.deleted ≠ some (c.file env).id := by
  simp only [Change.sound, Bool.and_eq_true, decide_eq_true_eq] at hc
  exact hc.1.2

theorem sound_of_possible (hc : t.possible env c = true) : c.sound env = true :=
  (Bool.and_eq_true_iff.1 hc).1

theorem WellFormed.apply (h : t.WellFormed) (hc : t.possible env c = true) :
    (t.apply env c).WellFormed := by
  have hsound := sound_of_possible hc
  unfold Tree.apply
  rcases hkind : c.kind <;>
    simp only [possible, hkind, Bool.and_eq_true, decide_eq_true_eq, Option.isNone_iff_eq_none,
      all_eq_true] at hc
  case createfolder => exact h.createfolder (folder_bound hsound) hc.2.1 hc.2.2
  case modifyfolder => exact h.modifyfolder hc.2.1.2 hc.2.1.1 (folder_bound hsound) hc.2.2
  case deletefolder => exact h.deletefolder hc.2.1.2 hc.2.2
  case createfile =>
    refine h.withFiles ((FileTable.keyed_dropFile h.files _).append ?_)
    rw [FileTable.lookup_dropFile, hc.2, ite_self]
  case modifyfile => exact h.withFiles ((FileTable.keyed_dropFile h.files _).update fun _ _ => rfl)
  case deletefile => exact h.withFiles (h.files.without _)

end Tree

/-! ## The relation -/

/-- The event deletes, creates or modifies the row of a file. -/
def Change.About (env : Env) (c : Change) (k : ℕ) : Prop :=
  match c.kind with
  | .createfolder | .modifyfolder | .deletefolder => False
  | .createfile | .modifyfile => k = (c.file env).id ∨ c.deleted = some k
  | .deletefile => k = (c.file env).id

/-- The tables are those of the tree, but for what the later events change. -/
structure Tracks (env : Env) (t : Tree) (later : List Change) (r : Remote) : Prop where
  folders : FolderTable t.folders
    (fun k => ∃ c ∈ later, c.kind = .createfolder ∧ k = (c.folder env).id)
    (Tree.subfolders t.folders) r.folder
  files : FileTable env t.files (fun k => ∃ c ∈ later, c.About env k) r.file r.used_quota

namespace Tracks

variable {t : Tree} {c : Change} {later : List Change} {r : Remote}

section

variable (h : Tracks env t (c :: later) r)
include h

theorem keepFolders (hc : c.kind ≠ .createfolder) :
    FolderTable t.folders (fun k => ∃ c ∈ later, c.kind = .createfolder ∧ k = (c.folder env).id)
      (Tree.subfolders t.folders) r.folder :=
  h.folders.weaken fun k hk => by
    obtain ⟨c', hmem, hkind, hid⟩ := hk
    rcases mem_cons.1 hmem with rfl | hmem
    · exact absurd hkind hc
    · exact ⟨c', hmem, hkind, hid⟩

theorem keepFiles (hc : ∀ k, ¬ c.About env k) :
    FileTable env t.files (fun k => ∃ c ∈ later, c.About env k) r.file r.used_quota :=
  h.files.weaken fun k hk => by
    obtain ⟨c', hmem, habout⟩ := hk
    rcases mem_cons.1 hmem with rfl | hmem
    · exact absurd habout (hc k)
    · exact ⟨c', hmem, habout⟩

theorem createfolder (ht : t.WellFormed)
    (hkind : c.kind = .createfolder) (hc : t.possible env c = true) :
    Tracks env (t.apply env c) later (c.deliver env r) := by
  have hbound := Tree.folder_bound (Tree.sound_of_possible hc)
  simp only [Tree.possible, hkind, Bool.and_eq_true, Option.isNone_iff_eq_none] at hc
  unfold Tree.apply Change.deliver
  simp only [hkind]
  refine ⟨?_, h.keepFiles fun k hk => by simp only [Change.About, hkind] at hk⟩
  have hearly : FolderTable t.folders (fun k => k = (c.folder env).id ∨
      ∃ c ∈ later, c.kind = .createfolder ∧ k = (c.folder env).id)
      (Tree.subfolders t.folders) r.folder := h.folders.weaken fun k hk => by
    obtain ⟨c', hmem, hkind', hid⟩ := hk
    rcases mem_cons.1 hmem with rfl | hmem
    · exact .inl hid
    · exact .inr ⟨c', hmem, hkind', hid⟩
  exact (hearly.putFolder (ht.subfolders_eq_zero hbound hc.2.1) hc.2.1).addSubdircnt
    fun k => Tree.subfolders_append

/-- The event of a folder that is modified. -/
theorem modifyfolder (ht : t.WellFormed)
    (hkind : c.kind = .modifyfolder) (hc : t.possible env c = true) :
    Tracks env (t.apply env c) later (c.deliver env r) := by
  simp only [Tree.possible, hkind, Bool.and_eq_true, decide_eq_true_eq] at hc
  have hkeep := h.keepFolders fun hcreate => by rw [hkind] at hcreate; cases hcreate
  obtain ⟨f, hf⟩ := Option.isSome_iff_exists.1 hc.2.1.1
  obtain ⟨old, hold, hsame⟩ := hkeep.there _ f hf
  have hparent : old.parentfolderid = f.parentfolderid :=
    show old.toFolder.timeless.parentfolderid = f.timeless.parentfolderid from
      congrArg Folder.parentfolderid hsame
  have hupdate := hkeep.updateFolder hc.2.1.1
  unfold Tree.apply Change.deliver Remote.modifyfolder
  simp only [hkind, hold]
  refine ⟨?_, h.keepFiles fun k hk => by simp only [Change.About, hkind] at hk⟩
  dsimp only
  split
  · exact (hupdate.addSubdircnt (fun _ => rfl)).addSubdircnt fun k =>
      hparent ▸ Tree.subfolders_update ht.folders hf
  · rename_i hstay
    refine hupdate.congr fun k => ?_
    rw [Tree.subfolders_update ht.folders hf, ← hparent, not_not.1 hstay]
    split <;> omega

theorem deletefolder (ht : t.WellFormed)
    (hkind : c.kind = .deletefolder) (hc : t.possible env c = true) :
    Tracks env (t.apply env c) later (c.deliver env r) := by
  simp only [Tree.possible, hkind, Bool.and_eq_true, decide_eq_true_eq] at hc
  have hkeep := h.keepFolders fun hcreate => by rw [hkind] at hcreate; cases hcreate
  obtain ⟨f, hf, hparent⟩ := Option.map_eq_some_iff.1 hc.2.1.1
  obtain ⟨old, hold, -⟩ := hkeep.there _ f hf
  have hthere : (lookup FolderRow.key r.folder (c.hash.findNum "folderid")).isSome :=
    Option.isSome_iff_exists.2 ⟨old, hold⟩
  unfold Tree.apply Change.deliver Remote.deletefolder
  simp only [hkind, hthere, if_true]
  refine ⟨?_, h.keepFiles fun k hk => by simp only [Change.About, hkind] at hk⟩
  refine (hkeep.without _).addSubdircnt fun k => ?_
  rw [Tree.subfolders_without ht.folders hf, hparent]
  rfl

end

/-! ### Files -/

/-- What the metadata adds to the used quota is what the row has of it. -/
theorem amount_eq (hc : c.sound env = true) :
    Remote.amount c.hash = Remote.own env (c.file env) := by
  simp only [Change.sound, Bool.and_eq_true, decide_eq_true_eq, Bool.or_eq_true] at hc
  have huser : (c.file env).userid =
      if c.hash.findBool "ismine" then env.psync_my_userid else c.hash.findNum "userid" := rfl
  unfold Remote.amount Remote.own
  rw [huser]
  by_cases hmine : c.hash.findBool "ismine" = true
  · rw [if_pos hmine, if_pos hmine, if_pos rfl]
    rfl
  · rw [if_neg hmine, if_neg hmine, if_neg (hc.2.resolve_left hmine)]

/-- An event is about the file it creates or modifies, and the one that is replaced. -/
theorem about_of_put {k : ℕ} (hkind : c.kind = .createfile ∨ c.kind = .modifyfile)
    (hk : k ≠ (c.file env).id) (hlater : ¬ ∃ c ∈ later, c.About env k) :
    ¬ ((∃ c' ∈ c :: later, c'.About env k) ∧ c.deleted ≠ some k) := by
  rintro ⟨⟨c', hmem, habout⟩, hdeleted⟩
  rcases mem_cons.1 hmem with rfl | hmem
  · rcases hkind with hkind | hkind <;> simp only [Change.About, hkind] at habout <;>
      exact habout.elim hk hdeleted
  · exact hlater ⟨c', hmem, habout⟩

theorem createfile (h : Tracks env t (c :: later) r) (hkind : c.kind = .createfile)
    (hc : t.possible env c = true) (hfits : Fits env t r c) :
    Tracks env (t.apply env c) later (c.deliver env r) := by
  have hsound := Tree.sound_of_possible hc
  simp only [Tree.possible, hkind, Bool.and_eq_true, Option.isNone_iff_eq_none] at hc
  simp only [Fits, hkind] at hfits
  have hkeep := h.keepFolders fun hcreate => by rw [hkind] at hcreate; cases hcreate
  unfold Tree.apply Change.deliver Remote.createfile
  simp only [hkind]
  have hnone : lookup File.id (Remote.dropFile c.deleted t.files) (c.file env).id = none := by
    rw [FileTable.lookup_dropFile, hc.2, ite_self]
  refine ⟨hkeep, (h.files.dropFile c.deleted hfits.1).put (fun k => lookup_append hnone)
    (fun _ => about_of_put (.inl hkind)) ?_⟩
  change r.used_quota + Remote.amount c.hash = r.used_quota -
    weight File.id (counted env (Remote.dropFile c.deleted t.files))
      (Remote.dropFile c.deleted r.file) (c.file env).id + Remote.own env (c.file env)
  rw [FileTable.weight_of_none hnone, UInt64.sub_zero, amount_eq hsound]

/-- In both cases `process_modifyfile` puts the row, with what it adds to that which was there. -/
theorem modifyfile_eq (hsound : c.sound env = true) : r.modifyfile env c.hash = { r with
      file := Remote.putFile (c.file env) (Remote.dropFile c.deleted r.file)
      used_quota := r.used_quota - weight File.id (Remote.own env) r.file (c.file env).id +
        Remote.own env (c.file env) } := by
  have hid : c.hash.findNum "fileid" = (c.file env).id := rfl
  have hlookup : lookup File.id (Remote.dropFile c.deleted r.file) (c.file env).id =
      lookup File.id r.file (c.file env).id := by
    rw [FileTable.lookup_dropFile, if_neg (Tree.deleted_ne hsound)]
  unfold Remote.modifyfile
  rw [hid, weight]
  rcases hold : lookup File.id r.file (c.file env).id with _ | old
  · simp only [Remote.createfile, amount_eq hsound, Option.elim_none, UInt64.sub_zero]
    rfl
  · rw [hold] at hlookup
    simp only [amount_eq hsound, Option.elim_some, Remote.putFile, hlookup, Option.isSome_some,
      if_true]
    rfl

theorem modifyfile (h : Tracks env t (c :: later) r) (hkind : c.kind = .modifyfile)
    (hc : t.possible env c = true) (hfits : Fits env t r c) :
    Tracks env (t.apply env c) later (c.deliver env r) := by
  have hsound := Tree.sound_of_possible hc
  have hdeleted := Tree.deleted_ne hsound
  simp only [Tree.possible, hkind, Bool.and_eq_true] at hc
  simp only [Fits, hkind] at hfits
  have hkeep := h.keepFolders fun hcreate => by rw [hkind] at hcreate; cases hcreate
  obtain ⟨f, hf⟩ := Option.isSome_iff_exists.1 hc.2
  have hthere : lookup File.id (Remote.dropFile c.deleted t.files) (c.file env).id = some f := by
    rw [FileTable.lookup_dropFile, if_neg hdeleted, hf]
  have hkey : ∀ r : File, r.id = (c.file env).id → (c.file env).id = (c.file env).id :=
    fun _ _ => rfl
  unfold Tree.apply Change.deliver
  simp only [hkind, modifyfile_eq hsound]
  refine ⟨hkeep, (h.files.dropFile c.deleted hfits.1).put (fun k => ?_)
    (fun _ => about_of_put (.inr hkind)) ?_⟩
  · rw [lookup_update hkey, hthere]
    rfl
  · rw [FileTable.weight_of_some hthere, FileTable.weight_dropFile hdeleted]

/-- When the event counts as many bytes as the row, they are subtracted. -/
theorem deletefile_eq (hkind : c.kind = .deletefile) (hfits : Fits env t r c) :
    r.deletefile c.hash = { r with
        file := without File.id r.file (c.file env).id
        used_quota := r.used_quota -
          weight File.id (counted env t.files) r.file (c.file env).id } := by
  have hid : c.hash.findNum "fileid" = (c.file env).id := rfl
  simp only [Fits, hkind] at hfits
  unfold Remote.deletefile
  rw [hid, weight]
  rcases hrow : lookup File.id r.file (c.file env).id with _ | row
  · rw [without_eq_self hrow, Option.elim_none, UInt64.sub_zero]
    rfl
  · rw [Option.elim_some, hfits row hrow]
    rfl

theorem deletefile (h : Tracks env t (c :: later) r) (hkind : c.kind = .deletefile)
    (hfits : Fits env t r c) : Tracks env (t.apply env c) later (c.deliver env r) := by
  have hkeep := h.keepFolders fun hcreate => by rw [hkind] at hcreate; cases hcreate
  have habout : ∀ k, k ≠ (c.file env).id → (¬ ∃ c ∈ later, c.About env k) →
      ¬ ∃ c' ∈ c :: later, c'.About env k := by
    rintro k hk hlater ⟨c', hmem, habout⟩
    rcases mem_cons.1 hmem with rfl | hmem
    · simp only [Change.About, hkind] at habout
      exact hk habout
    · exact hlater ⟨c', hmem, habout⟩
  unfold Tree.apply Change.deliver
  simp only [hkind, deletefile_eq hkind hfits]
  exact ⟨hkeep, h.files.without _ (fun k hk => lookup_without.trans (if_neg hk)) habout
    (fun _ => lookup_without.trans (if_pos rfl)) rfl⟩

theorem deliver (h : Tracks env t (c :: later) r) (ht : t.WellFormed)
    (hc : t.possible env c = true) (hfits : Fits env t r c) :
    Tracks env (t.apply env c) later (c.deliver env r) := by
  rcases hkind : c.kind
  case createfolder => exact h.createfolder ht hkind hc
  case modifyfolder => exact h.modifyfolder ht hkind hc
  case deletefolder => exact h.deletefolder ht hkind hc
  case createfile => exact h.createfile hkind hc hfits
  case modifyfile => exact h.modifyfile hkind hc hfits
  case deletefile => exact h.deletefile hkind hfits

/-! ### Answers of the server -/

/-- An answer that fits is entered before its event. -/
theorem enter (h : Tracks env t later r) (ht : t.WellFormed) (hmem : c ∈ later)
    (hsound : c.sound env = true) (hfits : Fits env t r c) :
    Tracks env t later (c.enter env r) := by
  have hdeleted := Tree.deleted_ne hsound
  have hreplaced : c.kind = .createfile ∨ c.kind = .modifyfile →
      (∃ c' ∈ later, c'.About env (c.file env).id) ∧
        ∀ id ∈ c.deleted, ∃ c' ∈ later, c'.About env id := by
    rintro (hkind | hkind) <;>
      exact ⟨⟨c, hmem, by simp only [Change.About, hkind, true_or]⟩, fun id hid => ⟨c, hmem, by
        simp only [Change.About, hkind]
        exact .inr hid⟩⟩
  unfold Change.enter
  rcases hkind : c.kind
  case createfolder =>
    exact ⟨h.folders.insertFolder (ht.subfolders_eq_zero (Tree.folder_bound hsound))
      ⟨c, hmem, hkind, rfl⟩, h.files⟩
  case modifyfolder => exact h
  case deletefolder => exact h
  case createfile =>
    obtain ⟨habout, habout'⟩ := hreplaced (.inl hkind)
    simp only [Fits, hkind] at hfits
    refine ⟨h.folders, (h.files.dropRow c.deleted hfits.1 habout').insert habout ?_⟩
    have hlookup : lookup File.id (Remote.dropFile c.deleted r.file) (c.file env).id =
        lookup File.id r.file (c.file env).id := by
      rw [FileTable.lookup_dropFile, if_neg hdeleted]
    exact hlookup ▸ hfits.2
  case modifyfile =>
    obtain ⟨habout, habout'⟩ := hreplaced (.inr hkind)
    simp only [Fits, hkind] at hfits
    dsimp only
    rw [modifyfile_eq hsound]
    refine ⟨h.folders, (h.files.dropRow c.deleted hfits.1 habout').enter habout ?_⟩
    rw [FileTable.weight_dropFile hdeleted]
    dsimp only
    rcases hthere : lookup File.id t.files (c.file env).id with _ | f
    · -- its own bytes stay the same
      have hsame := hfits.2.resolve_left (by simp [hthere])
      rw [FileTable.weight_of_none hthere, hsame, counted, hthere]
      grind
    · rw [FileTable.weight_of_some hthere, counted, hthere]
      rfl
  case deletefile =>
    have habout : ∃ c' ∈ later, c'.About env (c.file env).id :=
      ⟨c, hmem, by simp only [Change.About, hkind]⟩
    dsimp only
    rw [deletefile_eq hkind hfits]
    exact ⟨h.folders, h.files.without _ (fun _ _ => rfl) (fun _ _ h => h)
      (fun hn => absurd habout hn) rfl⟩

/-! ## After all events -/

end Tracks

/-- The tables are those of the tree, the numbers of subfolders are right, and the used quota is the
    sum of the sizes of the user's files. -/
structure Faithful (env : Env) (t : Tree) (r : Remote) : Prop where
  folders : (r.folder.map fun row => row.toFolder.timeless).Perm (t.folders.map Folder.timeless)
  files : r.file.Perm t.files
  subdircnt : ∀ row ∈ r.folder,
    row.subdircnt = (r.folder.filter fun s => s.parentfolderid = row.id).length
  used_quota : r.used_quota =
    UInt64.ofNat ((t.files.filter fun f => f.userid = env.psync_my_userid).map File.size).sum

namespace Tracks

variable {t : Tree} {r : Remote}

theorem perm_folders (h : Tracks env t [] r) (ht : t.WellFormed) :
    (r.folder.map fun row => row.toFolder.timeless).Perm (t.folders.map Folder.timeless) := by
  have hrows : ∀ row : FolderRow, row.toFolder.timeless.id = row.key := fun _ => rfl
  have htree : ∀ f : Folder, f.timeless.id = f.id := fun _ => rfl
  refine perm_of_lookup_eq (h.folders.keyed.map hrows) (ht.folders.map htree) fun k => ?_
  rw [lookup_map hrows, lookup_map htree]
  rcases hf : lookup Folder.id t.folders k with _ | f
  · rcases hrow : lookup FolderRow.key r.folder k with _ | row
    · rfl
    · rcases h.folders.early k (by rw [hrow]; rfl) with hthere | ⟨c, hc, -⟩
      · rw [hf] at hthere
        cases hthere
      · cases hc
  · obtain ⟨row, hrow, hsame⟩ := h.folders.there k f hf
    rw [hrow]
    exact congrArg some hsame

theorem perm_files (h : Tracks env t [] r) (ht : t.WellFormed) : r.file.Perm t.files :=
  perm_of_lookup_eq h.files.keyed ht.files fun k => h.files.same k fun ⟨c, hc, _⟩ => by cases hc

theorem subfolders_eq_length (l : List Folder) (id : ℕ) :
    Tree.subfolders l id = (l.filter fun f => f.parentfolderid = id).length := by
  induction l with
  | nil => rfl
  | cons f l ih =>
    have hcons : Tree.subfolders (f :: l) id =
        (if id = f.parentfolderid then 1 else 0) + Tree.subfolders l id := rfl
    rw [hcons, ih, filter_cons]
    by_cases hid : id = f.parentfolderid
    · simp [hid, add_comm]
    · simp [hid, Ne.symm hid]

theorem total_own (l : List File) : total (Remote.own env) l =
      UInt64.ofNat ((l.filter fun f => f.userid = env.psync_my_userid).map File.size).sum := by
  induction l with
  | nil => rfl
  | cons f l ih =>
    have hcons : total (Remote.own env) (f :: l) = Remote.own env f + total (Remote.own env) l :=
      rfl
    rw [hcons, ih, filter_cons, Remote.own]
    by_cases hmine : f.userid = env.psync_my_userid
    · simp [hmine, UInt64.ofNat_add]
    · simp [hmine]

/-- When no events come later, the tables are those of the tree. -/
theorem faithful (h : Tracks env t [] r) (ht : t.WellFormed) : Faithful env t r := by
  have hfolders := h.perm_folders ht
  have hfiles := h.perm_files ht
  refine ⟨hfolders, hfiles, fun row hrow => ?_, ?_⟩
  · have hlength := (hfolders.filter fun f => f.parentfolderid = row.id).length_eq
    rw [filter_map, length_map, filter_map, length_map] at hlength
    rw [h.folders.subdircnt _ row (h.folders.keyed.lookup_of_mem hrow), subfolders_eq_length]
    exact congrArg Nat.cast hlength.symm
  · have hall : total (counted env t.files) t.files = total (Remote.own env) t.files :=
      total_congr fun f hf => if_pos (isSome_lookup.2 ⟨f, hf, rfl⟩)
    rw [h.files.used_quota, ← total_own, ← hall]
    exact (hfiles.map _).sum_eq

end Tracks

end Pclsync.Diff
