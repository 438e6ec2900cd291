import Pclsync.FsTasks.Folder
import Mathlib.Data.List.Nodup

/-!
# Names in the task trees

The task trees of a folder are searched by name, so that a record is found only where the records
are in the order of their names. `Folder.Orderly` is this order, and what the names in the four
trees have to do with each other: no two pending folders and no two pending files have the same
name, and with every pending file there is a pending deletion of the same name and task, so that a
file of the database with its name is not shown.

* `searchTree_zero_isSome`, `mem_of_searchTree`: what the searches find in ordered trees.
* `Built`, `searchTree_spec`: the trees that insertions and removals make, where the records are
  inserted in the order of their names.
* `Folder.Orderly` is kept by the edits of a folder: `Folder.Orderly.insertMkdir`,
  `Folder.Orderly.dropUnlink`, `Folder.Orderly.insertCreat` and so on.
-/

namespace Pclsync

open List Option

/-! ## Descents by name -/

namespace Tree

variable {α : Type*}

/-- On a tree whose elements at most go from above the key to below it, a descent which leaves the
    tree has passed no element with the key. -/
theorem ne_eq_of_locate_vacant {c : α → Ordering} {t : Tree α} {k : ℕ}
    (hs : t.toList.Pairwise fun x y => (c x = .lt → c y = .lt) ∧ (c y = .gt → c x = .gt))
    (h : t.locate c = .vacant k) : ∀ x ∈ t.toList, c x ≠ .eq := by
  induction t generalizing k with
  | nil =>
    intro x hx
    cases hx
  | node l y r _ ihl ihr =>
    obtain ⟨hl, hyr, hlr⟩ := pairwise_append.1 hs
    obtain ⟨hyr, hr⟩ := pairwise_cons.1 hyr
    rw [locate] at h
    intro x hx
    rcases mem_append.1 hx with hx | hx
    · split at h
      · exact ihl hl h x hx
      · cases h
      · next hy =>
        rw [(hlr x hx y mem_cons_self).2 hy]
        exact Ordering.noConfusion
    · split at h
      · next hy =>
        rcases mem_cons.1 hx with rfl | hx
        · rw [hy]
          exact Ordering.noConfusion
        · rw [(hyr x hx).1 hy]
          exact Ordering.noConfusion
      · cases h
      · next hy =>
        rcases mem_cons.1 hx with rfl | hx
        · rw [hy]
          exact Ordering.noConfusion
        · rcases hj : r.locate c with ⟨j, z⟩ | j
          · rw [hj] at h
            cases h
          · exact ihr hr hj x hx

theorem map_modifyAt {β : Type*} {φ : α → β} {g : α → α} (hg : ∀ x, φ (g x) = φ x) (k : ℕ)
    (t : Tree α) : (t.modifyAt k g).toList.map φ = t.toList.map φ := by
  induction t generalizing k with
  | nil => rfl
  | node l y r _ ihl ihr =>
    rw [modifyAt]
    split_ifs
    · simp [ihl]
    · simp [hg]
    · simp [ihr]

/-- An element is added somewhere between the others. -/
theorem exists_toList_insertAt (k : ℕ) (x : α) (t : Tree α) :
    ∃ as bs, t.toList = as ++ bs ∧ (t.insertAt k x).toList = as ++ x :: bs := by
  induction t generalizing k with
  | nil => exact ⟨[], [], rfl, rfl⟩
  | node l y r _ ihl ihr =>
    rw [insertAt]
    split_ifs
    · obtain ⟨as, bs, hl, hins⟩ := ihl k
      refine ⟨as, bs ++ y :: r.toList, ?_, ?_⟩
      · rw [toList_node, hl, append_assoc]
      · rw [toList_rebalance, hins, append_assoc, cons_append]
    · obtain ⟨as, bs, hr, hins⟩ := ihr (k - l.size - 1)
      refine ⟨l.toList ++ y :: as, bs, ?_, ?_⟩
      · rw [toList_node, hr, append_assoc, cons_append]
      · rw [toList_rebalance, hins, append_assoc, cons_append]

theorem insertAt_perm (k : ℕ) (x : α) (t : Tree α) :
    (t.insertAt k x).toList.Perm (x :: t.toList) := by
  obtain ⟨as, bs, ht, hins⟩ := exists_toList_insertAt k x t
  rw [ht, hins]
  exact perm_middle

theorem mem_insertAt {k : ℕ} {x y : α} {t : Tree α} :
    y ∈ (t.insertAt k x).toList ↔ y = x ∨ y ∈ t.toList := by
  rw [(insertAt_perm k x t).mem_iff, mem_cons]

end Tree

/-! ## Ordered task trees -/

section
variable {τ : Type} [TaskRecord τ]

/-- The records are in the order of their names. -/
def Ordered (t : Tree τ) : Prop :=
  (t.toList.map TaskRecord.name).Pairwise fun n m => (compare n m).isLE

/-- The records are in the order of their names, which are all different. -/
def Increasing (t : Tree τ) : Prop :=
  (t.toList.map TaskRecord.name).Pairwise fun n m => compare n m = .lt

variable {t : Tree τ} {n : Name} {taskid k : ℕ} {x y : τ}

theorem Increasing.ordered (h : Increasing t) : Ordered t := h.imp fun hlt => by rw [hlt]; rfl

theorem Increasing.eq_of_name (h : Increasing t) (hx : x ∈ t.toList) (hy : y ∈ t.toList)
    (hn : TaskRecord.name x = TaskRecord.name y) : x = y := by
  refine inj_on_of_nodup_map (h.imp fun {n m} hlt => ?_) hx hy hn
  rintro rfl
  cases (Std.ReflCmp.compare_self : compare n n = .eq).symm.trans hlt

theorem Ordered.pairwise_compare (h : Ordered t) (n : Name) : t.toList.Pairwise fun x y =>
      (compare n (TaskRecord.name x) = .lt → compare n (TaskRecord.name y) = .lt) ∧
        (compare n (TaskRecord.name y) = .gt → compare n (TaskRecord.name x) = .gt) := by
  refine (pairwise_map.1 h).imp fun {x y} hle => ⟨fun hlt => ?_, fun hgt => ?_⟩
  · exact Std.TransCmp.lt_of_lt_of_isLE hlt hle
  · rw [Std.OrientedCmp.gt_iff_lt] at hgt ⊢
    exact Std.TransCmp.lt_of_isLE_of_lt hle hgt

theorem searchTree_zero : searchTree t n 0 =
    match t.locate fun x => compare n (TaskRecord.name x) with
    | .found k x => some (k, x)
    | .vacant _ => none := by
  rw [searchTree, searchPosition]
  rcases h : t.locate fun x => compare n (TaskRecord.name x) with ⟨k, x⟩ | k
  · obtain ⟨as, bs, ht, rfl, -⟩ := Tree.locate_found h
    simp [ht]
  · rfl

theorem name_of_searchTree_zero (h : searchTree t n 0 = some (k, x)) :
    x ∈ t.toList ∧ TaskRecord.name x = n := by
  rw [searchTree_zero] at h
  split at h
  · next hl =>
    cases h
    obtain ⟨hmem, heq⟩ := Tree.mem_of_locate hl
    exact ⟨hmem, (Std.LawfulEqOrd.eq_of_compare heq).symm⟩
  · cases h

theorem searchTree_zero_isSome (ht : Ordered t) :
    (searchTree t n 0).isSome ↔ ∃ x ∈ t.toList, TaskRecord.name x = n := by
  constructor
  · intro h
    obtain ⟨⟨k, x⟩, hx⟩ := isSome_iff_exists.1 h
    exact ⟨x, name_of_searchTree_zero hx⟩
  · rintro ⟨x, hx, rfl⟩
    rw [searchTree_zero]
    split
    · rfl
    · next hl =>
      refine absurd Std.ReflCmp.compare_self
        (Tree.ne_eq_of_locate_vacant (ht.pairwise_compare (TaskRecord.name x)) hl x hx)

/-- In a tree without equal names, a search finds the record with a name. -/
theorem searchTree_of_mem (ht : Increasing t) (hx : x ∈ t.toList)
    (hid : taskid = 0 ∨ TaskRecord.taskid x = taskid) :
    ∃ k, searchTree t (TaskRecord.name x) taskid = some (k, x) ∧ t.toList[k]? = some x := by
  have hsome := (searchTree_zero_isSome ht.ordered).2 ⟨x, hx, rfl⟩
  obtain ⟨⟨k, y⟩, hy⟩ := isSome_iff_exists.1 hsome
  obtain ⟨hmem, hname⟩ := name_of_searchTree_zero hy
  obtain rfl := ht.eq_of_name hmem hx hname
  rw [searchTree_zero] at hy
  split at hy
  · next hl =>
    cases hy
    obtain ⟨as, bs, ht, rfl, -⟩ := Tree.locate_found hl
    refine ⟨as.length, ?_, by simp [ht]⟩
    rw [searchTree, searchPosition, hl]
    dsimp only
    rw [if_pos hid]
    simp [ht]
  · cases hy

theorem scanName_spec {l : List τ} {j : ℕ} (h : scanName n taskid TaskRecord.name l = some j) :
    ∃ x, l[j]? = some x ∧ TaskRecord.name x = n ∧ TaskRecord.taskid x = taskid := by
  induction l generalizing j with
  | nil => cases h
  | cons x l ih =>
    rw [scanName] at h
    split at h
    · cases h
    · next hn =>
      split at h
      · next hid =>
        cases h
        exact ⟨x, rfl, not_not.1 hn, hid⟩
      · obtain ⟨i, hi, rfl⟩ := map_eq_some_iff.1 h
        obtain ⟨y, hy, hy'⟩ := ih hi
        exact ⟨y, by rw [getElem?_cons_succ, hy], hy'⟩

/-- A search finds, at a position, a record with the name and the task id. -/
theorem mem_of_searchTree (h : searchTree t n taskid = some (k, x)) :
    t.toList[k]? = some x ∧ TaskRecord.name x = n ∧
      (taskid = 0 ∨ TaskRecord.taskid x = taskid) := by
  obtain ⟨i, hi, hx⟩ := bind_eq_some_iff.1 h
  obtain ⟨_, hx, ⟨⟩⟩ := map_eq_some_iff.1 hx
  refine ⟨hx, ?_⟩
  rw [searchPosition] at hi
  split at hi
  · cases hi
  · next j z hl =>
    obtain ⟨as, bs, ht, rfl, hz⟩ := Tree.locate_found hl
    have hz : TaskRecord.name z = n := (Std.LawfulEqOrd.eq_of_compare hz).symm
    split at hi
    · next hid =>
      cases hi
      have hzx : (as ++ z :: bs)[as.length]? = some x := ht ▸ hx
      obtain rfl : z = x := by simpa using hzx
      exact ⟨hz, hid⟩
    -- the neighbours before the record found, from it backwards
    · split at hi
      · next i hscan =>
        cases hi
        obtain ⟨y, hy, hname, hid⟩ := scanName_spec hscan
        have hlt : i < (t.toList.take as.length).reverse.length :=
          (List.getElem?_eq_some_iff.1 hy).1
        have htake : (t.toList.take as.length).length = as.length := by simp [ht]
        rw [length_reverse, htake] at hlt
        rw [getElem?_reverse (by omega), htake, getElem?_take_of_lt (by omega), hx] at hy
        cases hy
        exact ⟨hname, .inr hid⟩
      · obtain ⟨i, hscan, rfl⟩ := map_eq_some_iff.1 hi
        obtain ⟨y, hy, hname, hid⟩ := scanName_spec hscan
        rw [getElem?_drop, hx] at hy
        cases hy
        exact ⟨hname, .inr hid⟩

/-! ## Edits of ordered trees -/

theorem Ordered.removeAt (h : Ordered t) (k : ℕ) : Ordered (t.removeAt k) :=
  h.sublist ((Tree.toList_removeAt_sublist k t).map _)

theorem Increasing.removeAt (h : Increasing t) (k : ℕ) : Increasing (t.removeAt k) :=
  h.sublist ((Tree.toList_removeAt_sublist k t).map _)

omit [TaskRecord τ] in
/-- What is left after a removal: all that differs from the record removed. -/
theorem mem_removeAt (hx : t.toList[k]? = some x) (hy : y ∈ t.toList) (hne : y ≠ x) :
    y ∈ (t.removeAt k).toList := by
  obtain ⟨hk, hx⟩ := List.getElem?_eq_some_iff.1 hx
  have hsplit : t.toList = t.toList.take k ++ x :: t.toList.drop (k + 1) := by
    rw [← hx]
    simp
  have hlen : (t.toList.take k).length = k := length_take_of_le hk.le
  have hrem := Tree.toList_removeAt hsplit
  rw [hlen] at hrem
  rw [hrem]
  rw [hsplit] at hy
  rcases mem_append.1 hy with hy | hy
  · exact mem_append_left _ hy
  · rcases mem_cons.1 hy with rfl | hy
    · exact absurd rfl hne
    · exact mem_append_right _ hy

/-- Records are added after those with the same name. -/
theorem toList_insertIntoTree (h : Ordered t) (x : τ) : ∃ as bs, t.toList = as ++ bs ∧
    (insertIntoTree t x).toList = as ++ x :: bs ∧
    (∀ y ∈ as, (compare (TaskRecord.name y) (TaskRecord.name x)).isLE) ∧
    ∀ y ∈ bs, compare (TaskRecord.name x) (TaskRecord.name y) = .lt := by
  have hs := h.pairwise_compare (TaskRecord.name x)
  obtain ⟨as, bs, ht, hk, has, hbs⟩ := @Tree.placeBy_spec τ
    (fun y => compare (TaskRecord.name x) (TaskRecord.name y) == .lt) t
    (hs.imp fun {y z} hyz hy => by simpa using hyz.1 (by simpa using hy))
  refine ⟨as, bs, ht, ?_, fun y hy => ?_, fun y hy => by simpa using hbs y hy⟩
  · rw [insertIntoTree, ← hk]
    exact Tree.toList_insertAt x ht
  · by_contra hle
    have hlt := Std.OrientedCmp.lt_of_not_isLE hle
    have hne := has y hy
    rw [hlt] at hne
    cases hne

theorem mem_insertIntoTree (h : Ordered t) :
    y ∈ (insertIntoTree t x).toList ↔ y = x ∨ y ∈ t.toList := by
  obtain ⟨as, bs, ht, hx, -, -⟩ := toList_insertIntoTree h x
  rw [hx, ht]
  simp only [mem_append, mem_cons]
  tauto

theorem pairwise_insert {α : Type*} {R : α → α → Prop} {as bs : List α} {x : α}
    (h : (as ++ bs).Pairwise R) (has : ∀ a ∈ as, R a x) (hbs : ∀ b ∈ bs, R x b) :
    (as ++ x :: bs).Pairwise R := by
  obtain ⟨ha, hb, hab⟩ := pairwise_append.1 h
  refine pairwise_append.2 ⟨ha, pairwise_cons.2 ⟨hbs, hb⟩, fun a hmem b hb => ?_⟩
  rcases mem_cons.1 hb with rfl | hb
  · exact has a hmem
  · exact hab a hmem b hb

theorem Ordered.insertIntoTree (h : Ordered t) (x : τ) : Ordered (insertIntoTree t x) := by
  obtain ⟨as, bs, ht, hx, has, hbs⟩ := toList_insertIntoTree h x
  rw [Ordered, pairwise_map, ht] at h
  rw [Ordered, pairwise_map, hx]
  exact pairwise_insert h has fun y hy => by rw [hbs y hy]; rfl

theorem Increasing.insertIntoTree (h : Increasing t)
    (hx : ∀ y ∈ t.toList, TaskRecord.name y ≠ TaskRecord.name x) :
    Increasing (insertIntoTree t x) := by
  obtain ⟨as, bs, ht, hl, has, hbs⟩ := toList_insertIntoTree h.ordered x
  rw [Increasing, pairwise_map, ht] at h
  rw [Increasing, pairwise_map, hl]
  refine pairwise_insert h (fun y hy => ?_) hbs
  have hne := hx y (ht ▸ mem_append_left _ hy)
  by_contra hlt
  have hle : (compare (TaskRecord.name x) (TaskRecord.name y)).isLE := by
    by_contra hle
    exact hlt (Std.OrientedCmp.lt_of_not_isLE hle)
  exact hne (Std.LawfulEqOrd.eq_of_compare (Std.OrientedCmp.isLE_antisymm (has y hy) hle))

/-- A tree without the record that a search finds. -/
def dropTree (t : Tree τ) (n : Name) (taskid : ℕ) : Tree τ :=
  match searchTree t n taskid with
  | some (k, _) => t.removeAt k
  | none => t

theorem mem_of_mem_dropTree (hy : y ∈ (dropTree t n taskid).toList) : y ∈ t.toList := by
  rw [dropTree] at hy
  split at hy
  · exact (Tree.toList_removeAt_sublist _ t).subset hy
  · exact hy

/-- Without equal names, none with the name and the task id is left. -/
theorem ne_of_mem_dropTree (ht : Increasing t) (hy : y ∈ (dropTree t n taskid).toList)
    (hn : TaskRecord.name y = n) : taskid ≠ 0 ∧ TaskRecord.taskid y ≠ taskid := by
  have hmem := mem_of_mem_dropTree hy
  by_contra hid
  rw [not_and_or, not_not, not_not] at hid
  obtain ⟨k, hk, hx⟩ := searchTree_of_mem ht hmem hid
  rw [hn] at hk
  rw [dropTree, hk] at hy
  -- the names before and after the record removed are other ones
  obtain ⟨hlt, hx⟩ := List.getElem?_eq_some_iff.1 hx
  have hsplit : t.toList = t.toList.take k ++ y :: t.toList.drop (k + 1) := by
    rw [← hx]
    simp
  have hrem := Tree.toList_removeAt hsplit
  rw [length_take_of_le hlt.le] at hrem
  have hpair := pairwise_map.1 ht
  rw [hsplit, pairwise_append, pairwise_cons] at hpair
  have hself : compare (TaskRecord.name y) (TaskRecord.name y) ≠ .lt := by
    intro hlt
    cases (Std.ReflCmp.compare_self : compare (TaskRecord.name y) _ = .eq).symm.trans hlt
  dsimp only at hy
  rw [hrem] at hy
  rcases mem_append.1 hy with hy | hy
  · exact hself (hpair.2.2 y hy y mem_cons_self)
  · exact hself (hpair.2.1.1 y hy)

/-! ## Searches by task id -/

/-- The texts at the offset `nameoff` put a record before the same records of a tree as the names
    do. -/
def AsNamed (t : Tree τ) (x : τ) (nameoff : τ → Name) : Prop :=
  ∀ y ∈ t.toList, compare (nameoff x) (nameoff y) = .lt ↔
    compare (TaskRecord.name x) (TaskRecord.name y) = .lt

/-- A tree to which records were added with `psync_fstask_insert_into_tree`, at offsets that meet
    `ok`, and from which some were removed. -/
inductive Built (ok : Tree τ → τ → (τ → Name) → Prop) : Tree τ → Prop
  | nil : Built ok .nil
  | insert {t : Tree τ} {x : τ} {nameoff : τ → Name} (h : Built ok t) (hx : ok t x nameoff) :
    Built ok (insertIntoTree t x nameoff)
  | remove {t : Tree τ} (k : ℕ) (h : Built ok t) : Built ok (t.removeAt k)

theorem AsNamed.insertIntoTree_eq {nameoff : τ → Name} (h : AsNamed t x nameoff) :
    insertIntoTree t x nameoff = insertIntoTree t x := by
  rw [insertIntoTree, Tree.placeBy_congr fun y hy => ?_]
  · rfl
  · rw [Bool.eq_iff_iff, beq_iff_eq, beq_iff_eq]
    exact h y hy

theorem Built.ordered (h : Built AsNamed t) : Ordered t := by
  induction h with
  | nil => exact .nil
  | insert _ hx ih => exact hx.insertIntoTree_eq ▸ ih.insertIntoTree _
  | remove k _ ih => exact ih.removeAt k

/-- A walk gets to a record when the neighbours before it have the same name. -/
theorem scanName_isSome {l : List τ}
    (hl : l.Pairwise fun y x => TaskRecord.name x = n → TaskRecord.name y = n) (hx : x ∈ l)
    (hn : TaskRecord.name x = n) (hid : TaskRecord.taskid x = taskid) :
    (scanName n taskid TaskRecord.name l).isSome := by
  induction l with
  | nil => cases hx
  | cons y l ih =>
    obtain ⟨hy, hl⟩ := pairwise_cons.1 hl
    have hyn : TaskRecord.name y = n := by
      rcases mem_cons.1 hx with rfl | hx
      · exact hn
      · exact hy x hx hn
    rw [scanName, if_neg (not_not.2 hyn)]
    split
    · rfl
    · next hne =>
      rw [isSome_map]
      rcases mem_cons.1 hx with rfl | hx
      · exact absurd hid hne
      · exact ih hl hx

/-- Around a record found, those with its name are next to each other. -/
theorem Ordered.neighbours {as bs : List τ} {z : τ} (h : Ordered t) (ht : t.toList = as ++ z :: bs)
    (hz : TaskRecord.name z = n) :
    (as.reverse.Pairwise fun y x => TaskRecord.name x = n → TaskRecord.name y = n) ∧
      bs.Pairwise fun y x => TaskRecord.name x = n → TaskRecord.name y = n := by
  rw [Ordered, pairwise_map, ht] at h
  obtain ⟨has, hbs, hab⟩ := pairwise_append.1 h
  obtain ⟨hzb, hbs⟩ := pairwise_cons.1 hbs
  have heq : ∀ {m : Name}, (compare n m).isLE → (compare m n).isLE → m = n := fun h1 h2 =>
    (Std.LawfulEqOrd.eq_of_compare (Std.OrientedCmp.isLE_antisymm h1 h2)).symm
  subst hz
  refine ⟨pairwise_reverse.2 (has.imp_of_mem fun {x y} _ hy hle hx => ?_),
    hbs.imp_of_mem fun {y x} hy _ hle hx => ?_⟩
  · exact heq (hx ▸ hle) (hab y hy z mem_cons_self)
  · exact heq (hzb y hy) (hx ▸ hle)

theorem searchPosition_isSome (h : Ordered t) (hx : x ∈ t.toList) (hn : TaskRecord.name x = n)
    (hid : TaskRecord.taskid x = taskid) : (searchPosition t n taskid).isSome := by
  rw [searchPosition]
  split
  · next hl =>
    exact absurd (hn ▸ Std.ReflCmp.compare_self)
      (Tree.ne_eq_of_locate_vacant (h.pairwise_compare n) hl x hx)
  · next k z hl =>
    obtain ⟨as, bs, ht, rfl, hz⟩ := Tree.locate_found hl
    obtain ⟨has, hbs⟩ := h.neighbours ht (Std.LawfulEqOrd.eq_of_compare hz).symm
    split
    · rfl
    · next hne =>
      have htake : t.toList.take as.length = as := by simp [ht]
      have hdrop : t.toList.drop (as.length + 1) = bs := by simp [ht]
      rw [htake, hdrop]
      split
      · rfl
      · next hnone =>
        -- The record is not before the one found.
        rw [isSome_map]
        rw [ht] at hx
        rcases mem_append.1 hx with hx | hx
        · have := scanName_isSome has (mem_reverse.2 hx) hn hid
          rw [hnone] at this
          cases this
        · rcases mem_cons.1 hx with rfl | hx
          · exact absurd (.inr hid) hne
          · exact scanName_isSome hbs hx hn hid

theorem lt_length_of_searchPosition (h : searchPosition t n taskid = some k) :
    k < t.toList.length := by
  rw [searchPosition] at h
  split at h
  · cases h
  · next hl =>
    obtain ⟨as, bs, ht, rfl, -⟩ := Tree.locate_found hl
    have hlen : t.toList.length = as.length + (bs.length + 1) := by rw [ht]; simp
    split at h
    · cases h
      omega
    · split at h
      · cases h
        omega
      · obtain ⟨i, hscan, rfl⟩ := map_eq_some_iff.1 h
        obtain ⟨y, hy, -⟩ := scanName_spec hscan
        have hlt := (List.getElem?_eq_some_iff.1 hy).1
        rw [length_drop] at hlt
        omega

/-- In a tree built at offsets that order the records as their names do, a search by name and task
    id finds such a record exactly when there is one, and a search by name one with the name. -/
theorem searchTree_spec (h : Built AsNamed t) (n : Name) (taskid : ℕ) :
    (∀ k x, searchTree t n taskid = some (k, x) → x ∈ t.toList ∧ TaskRecord.name x = n ∧
      (taskid ≠ 0 → TaskRecord.taskid x = taskid)) ∧
    (taskid ≠ 0 → ((searchTree t n taskid).isSome ↔
      ∃ x ∈ t.toList, TaskRecord.name x = n ∧ TaskRecord.taskid x = taskid)) ∧
    (taskid = 0 → ((searchTree t n taskid).isSome ↔ ∃ x ∈ t.toList, TaskRecord.name x = n)) := by
  have hfound : ∀ k x, searchTree t n taskid = some (k, x) → x ∈ t.toList ∧ TaskRecord.name x = n ∧
      (taskid ≠ 0 → TaskRecord.taskid x = taskid) := fun k x hx => by
    obtain ⟨hk, hn, hid⟩ := mem_of_searchTree hx
    exact ⟨mem_of_getElem? hk, hn, hid.resolve_left⟩
  refine ⟨hfound, fun h0 => ⟨fun hsome => ?_, fun ⟨x, hx, hn, hid⟩ => ?_⟩, fun h0 => ?_⟩
  · obtain ⟨⟨k, x⟩, hx⟩ := isSome_iff_exists.1 hsome
    obtain ⟨hmem, hn, hid⟩ := hfound k x hx
    exact ⟨x, hmem, hn, hid h0⟩
  · obtain ⟨k, hk⟩ := isSome_iff_exists.1 (searchPosition_isSome h.ordered hx hn hid)
    have hlt := lt_length_of_searchPosition hk
    rw [searchTree, hk, bind_some, isSome_map, getElem?_eq_getElem hlt]
    rfl
  · rw [h0]
    exact searchTree_zero_isSome h.ordered

/-- Two deletions of the name `bbbbbbbbb`, of different tasks, and one of `aaaaaaaaa`, inserted at
    the offset of a name in `psync_fstask_creat_t`, where its text is before theirs as well. -/
theorem searchTree_spec_three : Exists fun t : Tree Unlink => Built AsNamed t ∧
    t.toList.length = 3 ∧ (searchTree t (replicate 9 98) 5).isSome ∧
    (searchTree t (replicate 9 98) 6).isSome ∧
    (searchTree t (replicate 9 97) 0).isSome := by
  have h : Built AsNamed (insertIntoTree (insertIntoTree (insertIntoTree .nil
      (⟨1, 5, replicate 9 98⟩ : Unlink)) ⟨2, 6, replicate 9 98⟩)
      ⟨3, 7, replicate 9 97⟩ (Unlink.atCreatName fun _ => [])) :=
    .insert (.insert (.insert .nil fun _ _ => .rfl) fun _ _ => .rfl) (by unfold AsNamed; decide)
  refine ⟨_, h, rfl, ((searchTree_spec h _ 5).2.1 (by decide)).2 ⟨⟨1, 5, _⟩, ?_, rfl, rfl⟩,
    ((searchTree_spec h _ 6).2.1 (by decide)).2 ⟨⟨2, 6, _⟩, ?_, rfl, rfl⟩,
    ((searchTree_spec h _ 0).2.2 rfl).2 ⟨⟨3, 7, _⟩, ?_, rfl⟩⟩
  all_goals decide

/-- The deletions of `aaaaaaaab` and `bbbbbbbba`, inserted at the offset of a name in
    `psync_fstask_creat_t`, where their texts are `b` and `a`: the second, to the left of the first,
    is not found. -/
theorem searchTree_misses :
    Exists fun t : Tree Unlink =>
      Built (fun _ _ nameoff => nameoff = Unlink.atCreatName fun _ => []) t ∧
      ∃ un ∈ t.toList, searchTree t un.name un.taskid = none ∧ searchTree t un.name 0 = none := by
  refine ⟨_, .insert (x := ⟨2, 6, replicate 8 98 ++ [97]⟩)
    (.insert (x := ⟨1, 5, replicate 8 97 ++ [98]⟩) .nil rfl) rfl,
    ⟨2, 6, replicate 8 98 ++ [97]⟩, ?_, ?_, ?_⟩
  all_goals decide

end

/-! ## Folders -/

/-- A pending deletion goes with a pending file, unless its name is one of those made up, which
    start with `fake`. -/
def Folder.Covers (fake : Name) (f : Folder) (cr : Creat) : Prop :=
  fake.isPrefixOf cr.name ∨ ∃ un ∈ f.unlinks.toList, un.name = cr.name ∧ un.taskid = cr.taskid

/-- The records are in the order of their names; pending folders have different names, and pending
    files too, and pending deletions go with the pending files. -/
structure Folder.Orderly (fake : Name) (f : Folder) : Prop where
  mkdirs : Increasing f.mkdirs
  rmdirs : Ordered f.rmdirs
  creats : Increasing f.creats
  unlinks : Ordered f.unlinks
  covered : ∀ cr ∈ f.creats.toList, f.Covers fake cr

namespace Folder

variable {f g : Folder} {n fake : Name} {taskid k : ℕ}

/-- No pending folder has the name. -/
def NoMkdir (n : Name) (f : Folder) : Prop := ∀ mk ∈ f.mkdirs.toList, mk.name ≠ n

/-- No pending file has the name. -/
def NoCreat (n : Name) (f : Folder) : Prop := ∀ cr ∈ f.creats.toList, cr.name ≠ n

/-- No pending file has the name and the task. -/
def NoTask (n : Name) (taskid : ℕ) (f : Folder) : Prop :=
  ∀ cr ∈ f.creats.toList, cr.name = n → taskid ≠ 0 ∧ cr.taskid ≠ taskid

/-- The four trees are the same. -/
structure SameTrees (f g : Folder) : Prop where
  mkdirs : g.mkdirs = f.mkdirs
  rmdirs : g.rmdirs = f.rmdirs
  creats : g.creats = f.creats
  unlinks : g.unlinks = f.unlinks

theorem Orderly.congr (h : f.Orderly fake) (hg : SameTrees f g) : g.Orderly fake where
  mkdirs := hg.mkdirs ▸ h.mkdirs
  rmdirs := hg.rmdirs ▸ h.rmdirs
  creats := hg.creats ▸ h.creats
  unlinks := hg.unlinks ▸ h.unlinks
  covered := by
    rw [hg.creats]
    intro cr hcr
    rw [Covers, hg.unlinks]
    exact h.covered cr hcr

theorem Orderly.count (h : f.Orderly fake) (n : UInt32) : (f.count n).Orderly fake :=
  h.congr ⟨rfl, rfl, rfl, rfl⟩

theorem Orderly.uncount (h : f.Orderly fake) : f.uncount.Orderly fake :=
  h.congr ⟨rfl, rfl, rfl, rfl⟩

theorem orderly_empty (ptr refcnt : ℕ) (folderid : ℤ) :
    Orderly fake { ptr := ptr, folderid := folderid, refcnt := refcnt } where
  mkdirs := Pairwise.nil
  rmdirs := Pairwise.nil
  creats := Pairwise.nil
  unlinks := Pairwise.nil
  covered _ h := absurd h not_mem_nil

/-! ### Deletions -/

section

variable (h : f.Orderly fake)
include h

theorem Orderly.delMkdir (k : ℕ) : (f.del .mkdirs k).Orderly fake :=
  { h with mkdirs := h.mkdirs.removeAt k }

theorem Orderly.delRmdir (k : ℕ) : (f.del .rmdirs k).Orderly fake :=
  { h with rmdirs := h.rmdirs.removeAt k }

theorem Orderly.delCreat (k : ℕ) : (f.del .creats k).Orderly fake :=
  { h with
    creats := h.creats.removeAt k
    covered := fun cr hcr => h.covered cr ((Tree.toList_removeAt_sublist k _).subset hcr) }

/-- The deletion of a name can go when no pending file has its name and task. -/
theorem Orderly.delUnlink {un : Unlink} (hk : f.unlinks.toList[k]? = some un)
    (hun : ∀ cr ∈ f.creats.toList, cr.name = un.name → cr.taskid ≠ un.taskid) :
    (f.del .unlinks k).Orderly fake :=
  { h with
    unlinks := h.unlinks.removeAt k
    covered := fun cr hcr => by
      rcases h.covered cr hcr with hfake | ⟨un', hmem, hname, hid⟩
      · exact .inl hfake
      · refine .inr ⟨un', mem_removeAt hk hmem ?_, hname, hid⟩
        rintro rfl
        exact hun cr hcr hname.symm hid.symm }

theorem Orderly.dropMkdir (n : Name) (taskid : ℕ) :
    (f.dropFound .mkdirs n taskid).Orderly fake := by
  rw [dropFound]
  split
  · exact (h.delMkdir _).uncount
  · exact h

theorem Orderly.dropRmdir (n : Name) (taskid : ℕ) :
    (f.dropFound .rmdirs n taskid).Orderly fake := by
  rw [dropFound]
  split
  · exact (h.delRmdir _).uncount
  · exact h

theorem Orderly.dropCreat (n : Name) (taskid : ℕ) :
    (f.dropFound .creats n taskid).Orderly fake := by
  rw [dropFound]
  split
  · exact (h.delCreat _).uncount
  · exact h

theorem Orderly.dropUnlink (ht : f.NoTask n taskid) :
    (f.dropFound .unlinks n taskid).Orderly fake := by
  rw [dropFound]
  split
  · next k un hf =>
    obtain ⟨hk, hname, hid⟩ := mem_of_searchTree hf
    refine (h.delUnlink hk fun cr hcr hn hid' => ?_).uncount
    obtain ⟨hne, hne'⟩ := ht cr hcr (hn.trans hname)
    rcases hid with hid | hid
    · exact hne hid
    · exact hne' (hid'.trans hid)
  · exact h

end

theorem mkdirs_dropFound (f : Folder) (n : Name) (taskid : ℕ) :
    (f.dropFound .mkdirs n taskid).mkdirs = dropTree f.mkdirs n taskid := by
  have hfind : f.find .mkdirs n taskid = searchTree f.mkdirs n taskid := rfl
  rw [dropFound, dropTree, hfind]
  cases searchTree f.mkdirs n taskid <;> rfl

theorem creats_dropFound (f : Folder) (n : Name) (taskid : ℕ) :
    (f.dropFound .creats n taskid).creats = dropTree f.creats n taskid := by
  have hfind : f.find .creats n taskid = searchTree f.creats n taskid := rfl
  rw [dropFound, dropTree, hfind]
  cases searchTree f.creats n taskid <;> rfl

section

variable (h : f.Orderly fake)
include h

theorem Orderly.noMkdir_drop : (f.dropFound .mkdirs n 0).NoMkdir n := by
  intro mk hmk hn
  rw [mkdirs_dropFound] at hmk
  exact (ne_of_mem_dropTree h.mkdirs hmk hn).1 rfl

theorem Orderly.noTask_drop : (f.dropFound .creats n taskid).NoTask n taskid := by
  intro cr hcr hn
  rw [creats_dropFound] at hcr
  exact ne_of_mem_dropTree h.creats hcr hn

theorem Orderly.noCreat_drop : (f.dropFound .creats n 0).NoCreat n :=
  fun cr hcr hn => (h.noTask_drop cr hcr hn).1 rfl

/-! ### Insertions -/

theorem Orderly.insertMkdir {mk : Mkdir} (hn : f.NoMkdir mk.name) :
    (f.insert .mkdirs mk).Orderly fake :=
  { h with mkdirs := h.mkdirs.insertIntoTree hn }

theorem Orderly.insertRmdir (rm : Rmdir) : (f.insert .rmdirs rm).Orderly fake :=
  { h with rmdirs := h.rmdirs.insertIntoTree rm }

theorem Orderly.insertUnlink (un : Unlink) : (f.insert .unlinks un).Orderly fake :=
  { h with
    unlinks := h.unlinks.insertIntoTree un
    covered := fun cr hcr => by
      rcases h.covered cr hcr with hfake | ⟨un', hmem, hun⟩
      · exact .inl hfake
      · exact .inr ⟨un', (mem_insertIntoTree h.unlinks).2 (.inr hmem), hun⟩ }

theorem Orderly.insertCreat {cr : Creat} (hn : f.NoCreat cr.name) (hun : f.Covers fake cr) :
    (f.insert .creats cr).Orderly fake :=
  { h with
    creats := h.creats.insertIntoTree hn
    covered := fun cr' hcr => by
      rcases (mem_insertIntoTree h.creats.ordered).1 hcr with rfl | hcr
      · exact hun
      · exact h.covered cr' hcr }

/-- A pending file with the deletion that goes with it. -/
theorem Orderly.insertUnlinkCreat {un : Unlink} {cr : Creat}
    (hn : f.NoCreat cr.name) (hname : un.name = cr.name) (hid : un.taskid = cr.taskid) :
    ((f.insert .unlinks un).insert .creats cr).Orderly fake :=
  (h.insertUnlink un).insertCreat hn
    (.inr ⟨un, (mem_insertIntoTree h.unlinks).2 (.inl rfl), hname, hid⟩)

/-- A deletion which is added at a position. -/
theorem Orderly.insertUnlinkAt {un : Unlink}
    (hk : Ordered (f.unlinks.insertAt k un)) : (f.insertAt .unlinks k un).Orderly fake :=
  { h with
    unlinks := hk
    covered := fun cr hcr => by
      rcases h.covered cr hcr with hfake | ⟨un', hmem, hun⟩
      · exact .inl hfake
      · exact .inr ⟨un', Tree.mem_insertAt.2 (.inr hmem), hun⟩ }

/-! ### Assignments -/

theorem Orderly.assignMkdir {a : Mkdir → Mkdir}
    (ha : ∀ mk, (a mk).name = mk.name) (k : ℕ) : (f.assign .mkdirs k a).Orderly fake :=
  { h with
    mkdirs := by
      have hmap : (f.mkdirs.modifyAt k a).toList.map TaskRecord.name =
          f.mkdirs.toList.map TaskRecord.name := Tree.map_modifyAt ha k f.mkdirs
      rw [Increasing, show (f.assign .mkdirs k a).mkdirs = f.mkdirs.modifyAt k a from rfl, hmap]
      exact h.mkdirs }

theorem Orderly.assignCreat {a : Creat → Creat}
    (hname : ∀ cr, (a cr).name = cr.name) (hid : ∀ cr, (a cr).taskid = cr.taskid) (k : ℕ) :
    (f.assign .creats k a).Orderly fake :=
  { h with
    creats := by
      have hmap : (f.creats.modifyAt k a).toList.map TaskRecord.name =
          f.creats.toList.map TaskRecord.name := Tree.map_modifyAt hname k f.creats
      rw [Increasing, show (f.assign .creats k a).creats = f.creats.modifyAt k a from rfl, hmap]
      exact h.creats
    covered := fun cr hcr => by
      have hmap : (f.creats.modifyAt k a).toList.map (fun cr => (cr.name, cr.taskid)) =
          f.creats.toList.map fun cr => (cr.name, cr.taskid) :=
        Tree.map_modifyAt (fun cr => by rw [hname, hid]) k f.creats
      have hmem : (cr.name, cr.taskid) ∈ f.creats.toList.map fun cr => (cr.name, cr.taskid) := by
        rw [← hmap]
        exact mem_map_of_mem hcr
      obtain ⟨cr', hcr', heq⟩ := mem_map.1 hmem
      have hn : cr'.name = cr.name := (Prod.ext_iff.1 heq).1
      have hi : cr'.taskid = cr.taskid := (Prod.ext_iff.1 heq).2
      have hcov := h.covered cr' hcr'
      rw [Covers, hn, hi] at hcov
      exact hcov }

end

end Folder

end Pclsync
