import Mathlib.Data.List.Nodup

/-!
# Trees of folders

A tree whose leaves are files, or what is neither a file nor a folder, and whose inner nodes are
folders with named entries. A path is a list of names, from the root.

* `Node.get`: the node at a path. `Node.put`: the tree with another node there, or none.
* `Node.get_put_of_not_prefix`: nodes elsewhere stay as they are.
* `Node.kind_put`: a change at a path does not change what is not below it, except for the entries
  of the folders on the way.
-/

namespace Pclsync

open Function List

variable {ν κ : Type*}

/-- A file with its content, a folder with its entries, or something else. -/
inductive Node (ν κ : Type*)
  | file (content : κ)
  | other
  | folder (entries : List (ν × Node ν κ))

namespace Node

/-- A node without its entries. -/
inductive Kind (κ : Type*)
  | file (content : κ)
  | other
  | folder

/-- What a node is. -/
def kind : Node ν κ → Kind κ
  | file c => .file c
  | other => .other
  | folder _ => .folder

variable [DecidableEq ν]

/-- The entry with a name. -/
def child (n : ν) (entries : List (ν × Node ν κ)) : Option (Node ν κ) :=
  (entries.find? fun x => x.1 = n).map Prod.snd

/-- An entry is replaced, added or removed. -/
def setChild (n : ν) (v : Option (Node ν κ)) (entries : List (ν × Node ν κ)) :
    List (ν × Node ν κ) :=
  entries.filter (fun x => x.1 ≠ n) ++ v.toList.map fun e => (n, e)

/-- An entry is changed. -/
def mapChild (n : ν) (f : Node ν κ → Node ν κ) (entries : List (ν × Node ν κ)) :
    List (ν × Node ν κ) :=
  entries.map fun x => if x.1 = n then (x.1, f x.2) else x

/-- The node at a path. -/
def get : List ν → Node ν κ → Option (Node ν κ)
  | [], e => some e
  | n :: p, e =>
    match e with
    | folder entries => (child n entries).bind (get p)
    | _ => none

/-- Another node, or none, at a path; nothing changes when its folder is not there. -/
def put : List ν → Option (Node ν κ) → Node ν κ → Node ν κ
  | [], _, e => e
  | n :: p, v, e =>
    match e with
    | folder entries =>
      folder (if p = [] then setChild n v entries else mapChild n (put p v) entries)
    | _ => e

variable {n m : ν} {p q : List ν} {v : Option (Node ν κ)} {e x : Node ν κ}
  {entries : List (ν × Node ν κ)} {f : Node ν κ → Node ν κ}

theorem child_cons (n m : ν) (e : Node ν κ) (entries : List (ν × Node ν κ)) :
    child n ((m, e) :: entries) = if m = n then some e else child n entries := by
  rw [child, find?_cons]
  split
  · next h => rw [if_pos (of_decide_eq_true h), Option.map_some]
  · next h => rw [if_neg (of_decide_eq_false h), child]

theorem child_eq_none (h : n ∉ entries.map Prod.fst) : child n entries = none := by
  rw [child, find?_eq_none.2, Option.map_none]
  intro x hx hn
  exact h (mem_map.2 ⟨x, hx, of_decide_eq_true hn⟩)

theorem child_of_mem (hnodup : (entries.map Prod.fst).Nodup) (he : (n, e) ∈ entries) :
    child n entries = some e := by
  induction entries with
  | nil => cases he
  | cons x entries ih =>
    obtain ⟨m, x⟩ := x
    obtain ⟨hm, hnodup⟩ := nodup_cons.1 hnodup
    rw [child_cons]
    rcases mem_cons.1 he with heq | he
    · cases heq
      exact if_pos rfl
    · rw [if_neg, ih hnodup he]
      rintro rfl
      exact hm (mem_map.2 ⟨_, he, rfl⟩)

theorem child_setChild_self : child n (setChild n v entries) = v := by
  have hnone : (entries.filter fun x => x.1 ≠ n).find? (fun x => x.1 = n) = none := by
    refine find?_eq_none.2 fun x hx => ?_
    have hne := (mem_filter.1 hx).2
    simpa using hne
  rw [child, setChild, find?_append, hnone, Option.none_or]
  cases v with
  | none => rfl
  | some e => simp

theorem child_setChild_of_ne (h : m ≠ n) : child m (setChild n v entries) = child m entries := by
  have htail : (v.toList.map fun e => (n, e)).find? (fun x => x.1 = m) = none := by
    refine find?_eq_none.2 fun x hx => ?_
    obtain ⟨e, -, rfl⟩ := mem_map.1 hx
    simpa using h.symm
  rw [child, child, setChild, find?_append, htail, Option.or_none, find?_filter]
  congr 2
  funext x
  by_cases hx : x.1 = m
  · simp [hx, h]
  · simp [hx]

theorem child_mapChild : child m (mapChild n f entries) =
    if m = n then (child m entries).map f else child m entries := by
  have hname : ((fun x : ν × Node ν κ => decide (x.1 = m)) ∘ fun x =>
      if x.1 = n then (x.1, f x.2) else x) = fun x => decide (x.1 = m) := by
    funext x
    rw [comp_apply]
    split <;> rfl
  rw [child, child, mapChild, find?_map, hname, Option.map_map]
  generalize hfind : (entries.find? fun x => decide (x.1 = m)) = found
  cases found with
  | none => split <;> rfl
  | some x =>
    have hx : x.1 = m := by simpa using find?_some hfind
    rw [Option.map_some, Option.map_some, comp_apply, hx, Option.map_some]
    split <;> rfl

/-! ## Paths -/

@[simp] theorem get_nil : get [] e = some e := rfl

theorem get_cons (n : ν) (p : List ν) (entries : List (ν × Node ν κ)) :
    get (n :: p) (folder entries) = (child n entries).bind (get p) := rfl

theorem get_append (p q : List ν) (e : Node ν κ) : get (p ++ q) e = (get p e).bind (get q) := by
  induction p generalizing e with
  | nil => rfl
  | cons n p ih =>
    cases e with
    | folder entries =>
      rw [cons_append, get_cons, get_cons, Option.bind_assoc]
      exact congrArg _ (funext ih)
    | _ => rfl

/-- Away from the path, neither above nor below it, nothing changes. -/
theorem get_put_of_not_prefix (hpq : ¬p <+: q) (hqp : ¬q <+: p) : get q (put p v e) = get q e := by
  induction p generalizing q e with
  | nil => exact absurd nil_prefix hpq
  | cons n p ih =>
    cases q with
    | nil => exact absurd nil_prefix hqp
    | cons m q =>
      cases e with
      | folder entries =>
        rw [put]
        rw [get_cons, get_cons]
        by_cases hmn : m = n
        · subst hmn
          have hpq' : ¬p <+: q := fun h => hpq (cons_prefix_cons.2 ⟨rfl, h⟩)
          have hqp' : ¬q <+: p := fun h => hqp (cons_prefix_cons.2 ⟨rfl, h⟩)
          have hne : p ≠ [] := by
            rintro rfl
            exact hpq' nil_prefix
          rw [if_neg hne, child_mapChild, if_pos rfl, Option.bind_map]
          exact congrArg _ (funext fun _ => ih hpq' hqp')
        · split
          · rw [child_setChild_of_ne hmn]
          · rw [child_mapChild, if_neg hmn]
      | _ => rfl

/-- What is not below the path stays of its kind. -/
theorem kind_put (hpq : ¬p <+: q) : (get q (put p v e)).map kind = (get q e).map kind := by
  induction p generalizing q e with
  | nil => exact absurd nil_prefix hpq
  | cons n p ih =>
    cases e with
    | folder entries =>
      cases q with
      | nil => rfl
      | cons m q =>
        rw [put]
        rw [get_cons, get_cons]
        by_cases hmn : m = n
        · subst hmn
          have hpq' : ¬p <+: q := fun h => hpq (cons_prefix_cons.2 ⟨rfl, h⟩)
          have hne : p ≠ [] := by
            rintro rfl
            exact hpq' nil_prefix
          rw [if_neg hne, child_mapChild, if_pos rfl]
          cases child m entries with
          | none => rfl
          | some x => exact ih hpq'
        · split
          · rw [child_setChild_of_ne hmn]
          · rw [child_mapChild, if_neg hmn]
    | _ => rfl

/-- The node that was put at a path, when its folder is there. -/
theorem get_put (hfolder : get p e = some (folder entries)) (n : ν) :
    get (p ++ [n]) (put (p ++ [n]) v e) = v := by
  induction p generalizing e with
  | nil =>
    obtain ⟨⟩ := hfolder
    rw [nil_append, put]
    rw [if_pos rfl, get_cons, child_setChild_self]
    cases v <;> rfl
  | cons m p ih =>
    cases e with
    | folder es =>
      rw [get_cons] at hfolder
      obtain ⟨x, hx, hfolder⟩ := Option.bind_eq_some_iff.1 hfolder
      rw [cons_append, put]
      rw [if_neg (append_ne_nil_of_right_ne_nil p (cons_ne_nil n [])), get_cons,
        child_mapChild, if_pos rfl, hx]
      exact ih hfolder
    | _ => cases hfolder

theorem setChild_setChild (n : ν) (v w : Option (Node ν κ)) (entries : List (ν × Node ν κ)) :
    setChild n v (setChild n w entries) = setChild n v entries := by
  have hnone : (w.toList.map fun e => (n, e)).filter (fun x => x.1 ≠ n) = [] := by
    cases w <;> simp
  rw [setChild, setChild, filter_append, hnone, append_nil, filter_filter, setChild]
  simp only [Bool.and_self]

theorem mapChild_mapChild (n : ν) (f g : Node ν κ → Node ν κ) (entries : List (ν × Node ν κ)) :
    mapChild n f (mapChild n g entries) = mapChild n (f ∘ g) entries := by
  rw [mapChild, mapChild, map_map, mapChild]
  refine map_congr_left fun x _ => ?_
  rw [comp_apply]
  by_cases hx : x.1 = n
  · rw [if_pos hx, if_pos hx, if_pos hx, comp_apply]
  · rw [if_neg hx, if_neg hx, if_neg hx]

/-- What was put first at a path does not matter. -/
theorem put_put (p : List ν) (v w : Option (Node ν κ)) (e : Node ν κ) :
    put p v (put p w e) = put p v e := by
  induction p generalizing e with
  | nil => rfl
  | cons n p ih =>
    cases e with
    | folder entries =>
      rw [put, put, put]
      split
      · rw [setChild_setChild]
      · rw [mapChild_mapChild]
        exact congrArg (fun f => folder (mapChild n f entries)) (funext ih)
    | _ => rfl

end Node

end Pclsync
