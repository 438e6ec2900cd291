import Mathlib.Data.List.Basic

/-!
# Lists in chunks

A list which grows at its end and is kept in chunks of limited size. A new chunk is made when the
last one is full. Later the list is read from its beginning with a cursor, which stands at a place
of a chunk.

* `toList_push`: pushing appends.
* `toList_modify`: an element is changed in place, at its number counted over all chunks.
* `Valid.pop_eq`: the cursor reads the next element, over the ends of chunks.
-/

namespace Pclsync

open List Option

variable {α : Type*}

/-- The chunks: full ones, and the last one. -/
structure ChunkedList (α : Type*) where
  full : List (List α)
  last : Option (List α)

namespace ChunkedList

/-- No chunks. -/
def empty : ChunkedList α := ⟨[], none⟩

/-- All chunks, in their order. -/
def chunks (l : ChunkedList α) : List (List α) := l.full ++ l.last.toList

/-- The elements. -/
def toList (l : ChunkedList α) : List α := l.chunks.flatten

/-- An element is added to the last chunk, or to a new one. -/
def push (capacity : ℕ) (l : ChunkedList α) (a : α) : ChunkedList α :=
  match l.last with
  | none => { l with last := some [a] }
  | some c =>
    if c.length < capacity then { l with last := some (c ++ [a]) }
    else ⟨l.full ++ [c], some [a]⟩

/-- The element with a number is changed, in the chunk where it is. -/
def modifyChunks (f : α → α) : List (List α) → ℕ → List (List α)
  | [], _ => []
  | c :: l, n => if n < c.length then c.modify n f :: l else c :: modifyChunks f l (n - c.length)

/-- An element is changed. -/
def modify (l : ChunkedList α) (n : ℕ) (f : α → α) : ChunkedList α :=
  if n < l.full.flatten.length then { l with full := modifyChunks f l.full n }
  else { l with last := l.last.map fun c => c.modify (n - l.full.flatten.length) f }

/-- Chunks are not made without an element. -/
def NoneEmpty (l : ChunkedList α) : Prop := ∀ c ∈ l.chunks, c ≠ []

variable {l : ChunkedList α} {a : α} {capacity n : ℕ} {f : α → α} {c : List α}

@[simp] theorem toList_empty : (empty : ChunkedList α).toList = [] := rfl

theorem noneEmpty_empty : (empty : ChunkedList α).NoneEmpty := forall_mem_nil _

@[simp] theorem toList_push : (l.push capacity a).toList = l.toList ++ [a] := by
  obtain ⟨full, last⟩ := l
  rw [push]
  cases last with
  | none => simp [toList, chunks]
  | some c =>
    dsimp only
    split
    · simp [toList, chunks]
    · simp [toList, chunks]

theorem NoneEmpty.push (h : l.NoneEmpty) : (l.push capacity a).NoneEmpty := by
  obtain ⟨full, last⟩ := l
  rw [ChunkedList.push]
  cases last with
  | none =>
    have hfull : ∀ c ∈ full, c ≠ [] := fun c hc => h c (mem_append_left _ hc)
    exact forall_mem_append.2 ⟨hfull, forall_mem_singleton.2 (cons_ne_nil a [])⟩
  | some c =>
    have hfull : ∀ c ∈ full, c ≠ [] := fun c hc => h c (mem_append_left _ hc)
    dsimp only
    split
    · refine forall_mem_append.2 ⟨hfull, forall_mem_singleton.2 ?_⟩
      exact append_ne_nil_of_right_ne_nil c (cons_ne_nil a [])
    · exact forall_mem_append.2 ⟨h, forall_mem_singleton.2 (cons_ne_nil a [])⟩

theorem modify_append (l l' : List α) (n : ℕ) : (l ++ l').modify n f =
    if n < l.length then l.modify n f ++ l' else l ++ l'.modify (n - l.length) f := by
  induction l generalizing n with
  | nil => rfl
  | cons a l ih =>
    cases n with
    | zero => rfl
    | succ n =>
      rw [cons_append, modify_succ_cons, ih, length_cons]
      by_cases hn : n < l.length
      · rw [if_pos hn, if_pos (Nat.succ_lt_succ hn), modify_succ_cons, cons_append]
      · rw [if_neg hn, if_neg fun h => hn (Nat.lt_of_succ_lt_succ h), cons_append,
          Nat.add_sub_add_right]

theorem modify_length_append (l l' : List α) (a : α) :
    (l ++ a :: l').modify l.length f = l ++ f a :: l' := by
  rw [modify_append, if_neg (Nat.lt_irrefl _), Nat.sub_self, modify_zero_cons]

theorem flatten_modifyChunks (l : List (List α)) (n : ℕ) :
    (modifyChunks f l n).flatten = l.flatten.modify n f := by
  induction l generalizing n with
  | nil => exact (modify_nil f n).symm
  | cons c l ih =>
    rw [modifyChunks, flatten_cons, modify_append]
    split
    · rfl
    · rw [flatten_cons, ih]

theorem forall_modifyChunks {full : List (List α)} (h : ∀ c ∈ full, c ≠ []) :
    ∀ c ∈ modifyChunks f full n, c ≠ [] := by
  induction full generalizing n with
  | nil => exact forall_mem_nil _
  | cons c full ih =>
    rw [forall_mem_cons] at h
    rw [modifyChunks]
    split
    · exact forall_mem_cons.2 ⟨fun hnil => h.1 (modify_eq_nil_iff.1 hnil), h.2⟩
    · exact forall_mem_cons.2 ⟨h.1, ih h.2⟩

@[simp] theorem toList_modify : (l.modify n f).toList = l.toList.modify n f := by
  obtain ⟨full, last⟩ := l
  rw [modify, toList, toList, chunks, chunks, flatten_append, flatten_append, modify_append]
  dsimp only
  split
  · rw [flatten_modifyChunks]
  · cases last with
    | none | some c => simp

theorem NoneEmpty.modify (h : l.NoneEmpty) : (l.modify n f).NoneEmpty := by
  have hfull : ∀ c ∈ l.full, c ≠ [] := fun c hc => h c (mem_append_left _ hc)
  have hlast : ∀ c ∈ l.last.toList, c ≠ [] := fun c hc => h c (mem_append_right _ hc)
  rw [ChunkedList.modify]
  split
  · exact forall_mem_append.2 ⟨forall_modifyChunks hfull, hlast⟩
  · refine forall_mem_append.2 ⟨hfull, fun c hc => ?_⟩
    obtain ⟨c', hc', rfl⟩ := map_eq_some_iff.1 (mem_toList.1 hc)
    exact fun hnil => hlast c' (mem_toList.2 hc') (modify_eq_nil_iff.1 hnil)

/-! ## Reading -/

/-- A place to read from: the chunks from the current one on, and a position in it. -/
structure Cursor (α : Type*) where
  chunks : List (List α)
  position : ℕ

/-- The beginning. -/
def cursor (l : ChunkedList α) : Cursor α := ⟨l.chunks, 0⟩

namespace Cursor

/-- The next element; at the end of a chunk the cursor goes on to the next one. Behind the last
    chunk there is nothing to read. -/
def pop (r : Cursor α) : Option (α × Cursor α) :=
  match r.chunks with
  | [] => none
  | chunk :: rest => chunk[r.position]?.map fun a =>
    (a, if chunk.length ≤ r.position + 1 then ⟨rest, 0⟩ else ⟨chunk :: rest, r.position + 1⟩)

/-- What is not yet read. -/
def remaining (r : Cursor α) : List α := r.chunks.flatten.drop r.position

/-- The position is in the current chunk, and no chunk is empty. -/
structure Valid (r : Cursor α) : Prop where
  position : ∀ c ∈ r.chunks.head?, r.position < c.length
  noneEmpty : ∀ c ∈ r.chunks, c ≠ []

variable {r : Cursor α} {rest : List α}

theorem Valid.pop_eq (h : r.Valid) (hr : r.remaining = a :: rest) :
    ∃ r', r.pop = some (a, r') ∧ r'.remaining = rest ∧ r'.Valid := by
  obtain ⟨chunks, position⟩ := r
  cases chunks with
  | nil => cases position <;> cases hr
  | cons c chunks =>
    have hlt : position < c.length := h.position c rfl
    have hchunks := (forall_mem_cons.1 h.noneEmpty).2
    rw [remaining, flatten_cons, drop_append_of_le_length (Nat.le_of_lt hlt),
      drop_eq_getElem_cons hlt, cons_append] at hr
    obtain ⟨hget, hrest⟩ := cons.inj hr
    rw [pop]
    dsimp only
    rw [getElem?_eq_getElem hlt, hget, map_some]
    split
    · next hend =>
      rw [drop_of_length_le hend, nil_append] at hrest
      refine ⟨_, rfl, hrest, ⟨fun c' hc' => ?_, hchunks⟩⟩
      exact length_pos_of_ne_nil (hchunks c' (mem_of_head? hc'))
    · next hmore =>
      have hmore := Nat.not_le.1 hmore
      refine ⟨_, rfl, ?_, ⟨fun c' hc' => ?_, h.noneEmpty⟩⟩
      · rw [remaining, flatten_cons, drop_append_of_le_length (Nat.le_of_lt hmore)]
        exact hrest
      · obtain rfl := some.inj hc'
        exact hmore

end Cursor

theorem NoneEmpty.valid_cursor (h : l.NoneEmpty) : l.cursor.Valid :=
  ⟨fun c hc => length_pos_of_ne_nil (h c (mem_of_head? hc)), h⟩

end ChunkedList

end Pclsync
