import Mathlib.Data.List.Forall2
import Mathlib.Data.List.Infix
import Pclsync.Bytes
import Pclsync.ChunkedList
import Pclsync.Transition

/-!
# Building lists of elements with strings

A `psync_list_builder_t` (`plibs.c`) collects elements of one size, whose fields may point to
strings, and copies them at the end into one block: a header, the elements, and all strings. Until
then the strings are in chunks of 4000 bytes (longer ones on their own), and for each element a list
of numbers has the number of its strings, and an offset and a length for each of these.

* `addLstringOffset`, `addElement`, `addSql`: what adds elements and their strings.
* `finalize`: the block; nothing when a number, a string or a place that is not there is used.
* `Built`: the block has exactly the accepted elements with their strings.
* `built_of_reachable`: this is so when rejected rows have not added strings, the last row of a
  query is not rejected, and lengths and offsets fit into 32 bits.
-/

namespace Pclsync.Sql.ListBuilder

open Function List Option

/-! ## Elements -/

/-- Where a string is. -/
inductive Ptr
  /-- Somewhere else, or nowhere. -/
  | other
  /-- In a chunk of strings. -/
  | chunk (i pos : ℕ)
  /-- In the block, counted from the first string. -/
  | block (pos : ℕ)

/-- An element: the pointers at its offsets, and what else is in it. -/
structure Element (ρ : Type) where
  payload : ρ
  strs : ℕ → Ptr

/-- A string that is added: the offset of its field, and the bytes up to the one behind its end. -/
structure StringField where
  offset : ℕ
  data : List UInt8

/-- What a caller, or a callback for a row, puts into an element. -/
structure Filling (ρ : Type) where
  payload : ρ
  strings : List StringField

/-- A `psync_list_builder_t`. Places in the list of numbers are counted over all chunks. -/
structure Builder (ρ : Type) where
  elementSize : ℕ
  elementsOffset : ℕ
  stringalloc : ℕ
  cnt : ℕ
  elementList : ChunkedList (Element ρ)
  /-- The used bytes of the chunks. -/
  stringList : List (List UInt8)
  /-- The chunk to which strings are added. -/
  lastStrings : Option ℕ
  numberList : ChunkedList ℕ
  currentElement : Element ρ
  cstrcnt : ℕ

variable {ρ : Type}

/-- `psync_list_builder_create` -/
def create (elementSize offset : ℕ) (uninit : Element ρ) : Builder ρ :=
  ⟨elementSize, offset, 0, 0, .empty, [], none, .empty, uninit, 0⟩

namespace Builder

variable (b : Builder ρ)

/-- `elements_per_list` -/
def elementsPerList : ℕ := if b.elementSize ≤ 200 then 40 else 12

/-- The size of `numbers`. -/
def numbersSize : ℕ := 1000

/-- `psync_list_bulder_push_num`, and the store of a value into the new number. -/
def pushNum (n : ℕ) : Builder ρ :=
  { b with numberList := b.numberList.push numbersSize (n % 2 ^ 32) }

/-- A chunk is chosen, or made, for some bytes: the chunks, the one to which strings are added, and
    the pointer. -/
def storeString (data : List UInt8) : List (List UInt8) × Option ℕ × Ptr :=
  let alone := (b.stringList ++ [data], some b.stringList.length, Ptr.chunk b.stringList.length 0)
  if 2000 < data.length then
    (b.stringList ++ [data], b.lastStrings, .chunk b.stringList.length 0)
  else
    match b.lastStrings with
    | none => alone
    | some i =>
      let next := (b.stringList.getD i []).length
      if 4000 < next + data.length then alone
      else (b.stringList.modify i (· ++ data), some i, .chunk i next)

/-- `psync_list_add_lstring_offset` -/
def addLstringOffset (s : StringField) : Builder ρ :=
  let stored := b.storeString s.data
  let b := { b with
    stringalloc := b.stringalloc + s.data.length
    stringList := stored.1
    lastStrings := stored.2.1
    currentElement := { b.currentElement with
      strs := update b.currentElement.strs s.offset stored.2.2 } }
  let b := (b.pushNum s.offset).pushNum s.data.length
  { b with numberList := b.numberList.modify b.cstrcnt fun n => (n + 1) % 2 ^ 32 }

/-- A slot for the next element, with its number of strings. -/
def openElement (uninit : Element ρ) : Builder ρ :=
  { b.pushNum 0 with currentElement := uninit, cstrcnt := b.numberList.toList.length }

/-- `*builder->cstrcnt=0` -/
def resetCount : Builder ρ := { b with numberList := b.numberList.modify b.cstrcnt fun _ => 0 }

/-- An element is filled, and its strings are added one after the other. -/
def fill (row : Filling ρ) : Builder ρ :=
  row.strings.foldl addLstringOffset
    { b with currentElement := { b.currentElement with payload := row.payload } }

/-- The element is counted. -/
def closeElement : Builder ρ :=
  { b with
    elementList := b.elementList.push b.elementsPerList b.currentElement
    cnt := b.cnt + 1 }

/-- `psync_list_bulder_add_element`, and what its caller does with the element. It is counted before
    it is filled, which comes to the same. -/
def addElement (uninit : Element ρ) (row : Filling ρ) : Builder ρ :=
  ((b.openElement uninit).fill row).closeElement

end Builder

/-- A row of a query: what the callback does with it, and whether it rejects it. -/
structure SqlRow (ρ : Type) where
  row : Filling ρ
  rejected : Bool

/-- The loops of `psync_list_bulder_add_sql`, and whether they end; `opened` says that a slot is
    left from a rejected row. When the last row is rejected its slot is counted, and the row after
    it is fetched once more, for which SQLite runs the query again from its first row. -/
def addSqlLoop (uninit : Element ρ) : Bool → List (SqlRow ρ) → Builder ρ → Builder ρ × Bool
  | false, [], b => (b, true)
  | true, [], b => (b.closeElement, false)
  | opened, r :: rows, b =>
    let b := if opened then b.resetCount else b.openElement uninit
    let b := b.fill r.row
    if r.rejected then addSqlLoop uninit true rows b
    else addSqlLoop uninit false rows b.closeElement

/-- `psync_list_bulder_add_sql` -/
def addSql (uninit : Element ρ) (rows : List (SqlRow ρ)) (b : Builder ρ) : Builder ρ × Bool :=
  addSqlLoop uninit false rows b

/-! ## The block -/

/-- The first bytes of a memory, when there are so many. -/
def takeExact (l : List UInt8) (n : ℕ) : Option (List UInt8) :=
  if n ≤ l.length then some (l.take n) else none

/-- The bytes at a pointer; `out` are the strings which are already in the block. -/
def readString (stringList : List (List UInt8)) (out : List UInt8) (n : ℕ) :
    Ptr → Option (List UInt8)
  | .other => none
  | .chunk i pos => (stringList[i]?).bind fun bytes => takeExact (bytes.drop pos) n
  | .block pos => takeExact (out.drop pos) n

namespace Builder

variable (b : Builder ρ)

/-- One string is copied, if there is room for it. -/
def copyString (offset length : ℕ) (el : Element ρ) (out : List UInt8) :
    Option (Element ρ × List UInt8) :=
  (readString b.stringList out length (el.strs offset)).bind fun bytes =>
    if out.length + length ≤ b.stringalloc then
      some ({ el with strs := update el.strs offset (.block out.length) }, out ++ bytes)
    else none

/-- The inner loop: the strings of an element. -/
def copyStrings : ℕ → ChunkedList.Cursor ℕ → Element ρ → List UInt8 →
    Option (ChunkedList.Cursor ℕ × Element ρ × List UInt8)
  | 0, cur, el, out => some (cur, el, out)
  | n + 1, cur, el, out =>
    cur.pop.bind fun offset => offset.2.pop.bind fun length =>
      (b.copyString offset.1 length.1 el out).bind fun copied =>
        copyStrings n length.2 copied.1 copied.2

/-- The loop over the elements. -/
def copyElements : List (Element ρ) → ChunkedList.Cursor ℕ → List UInt8 →
    Option (List (Element ρ) × List UInt8)
  | [], _, out => some ([], out)
  | el :: els, cur, out =>
    cur.pop.bind fun scnt => (b.copyStrings scnt.1 scnt.2 el out).bind fun copied =>
      (copyElements els copied.1 copied.2.2).map fun r => (copied.2.1 :: r.1, r.2)

end Builder

/-- The block that is returned: what is before the elements, the elements, and the strings. -/
structure Block (ρ : Type) where
  header : List UInt8
  elements : List (Element ρ)
  strings : List UInt8

/-- The bytes of `cnt` which are copied to the beginning. -/
def headerOf (elementsOffset cnt : ℕ) : List UInt8 := (toLE 8 cnt).take (min elementsOffset 8)

/-- `psync_list_builder_finalize` -/
def Builder.finalize (b : Builder ρ) : Option (Block ρ) :=
  if b.elementList.toList.length ≤ b.cnt then
    (b.copyElements b.elementList.toList b.numberList.cursor []).map fun r =>
      ⟨headerOf b.elementsOffset b.cnt, r.1, r.2⟩
  else none

/-! ## Strings of an element -/

/-- The string which was last added for a field. -/
def fieldOf (strings : List StringField) (offset : ℕ) : Option (List UInt8) :=
  (strings.reverse.find? fun s => s.offset = offset).map StringField.data

/-- The bytes at a pointer are those of a string. -/
def Leads (stringList : List (List UInt8)) (out : List UInt8) (p : Ptr) (data : List UInt8) :
    Prop :=
  readString stringList out data.length p = some data

/-- An element has what was put into it. -/
structure Matches (stringList : List (List UInt8)) (out : List UInt8) (row : Filling ρ)
    (el : Element ρ) : Prop where
  payload : el.payload = row.payload
  strs : ∀ offset data, fieldOf row.strings offset = some data →
    Leads stringList out (el.strs offset) data

/-- Lengths and offsets fit into 32 bits, and strings for the same field have the same length. -/
structure Filling.Fits (row : Filling ρ) : Prop where
  offset_lt : ∀ s ∈ row.strings, s.offset < 2 ^ 32
  length_lt : ∀ s ∈ row.strings, s.data.length < 2 ^ 32
  count_lt : row.strings.length < 2 ^ 32
  same_length : ∀ s ∈ row.strings, ∀ t ∈ row.strings, s.offset = t.offset →
    s.data.length = t.data.length

/-- An offset and a length for each string. -/
def pairs (strings : List StringField) : List ℕ :=
  strings.flatMap fun s => [s.offset, s.data.length]

/-- The numbers of an element. -/
def encode (row : Filling ρ) : List ℕ := row.strings.length :: pairs row.strings

/-- The number of bytes of strings. -/
def total (strings : List StringField) : ℕ := (strings.map fun s => s.data.length).sum

/-- The number of bytes of the strings of elements. -/
def totalAll (rows : List (Filling ρ)) : ℕ := (rows.map fun row => total row.strings).sum

variable {b b' : Builder ρ} {row : Filling ρ} {rows accepted : List (Filling ρ)} {s : StringField}
  {strings : List StringField} {el uninit : Element ρ} {out out' data l l' : List UInt8}
  {n offset : ℕ}
  {store store' : List (List UInt8)} {p : Ptr}

theorem fieldOf_concat (strings : List StringField) (s : StringField) (offset : ℕ) :
    fieldOf (strings ++ [s]) offset =
      if s.offset = offset then some s.data else fieldOf strings offset := by
  rw [fieldOf, reverse_append, reverse_singleton, singleton_append]
  split
  · next h => rw [find?_cons_of_pos (by simpa using h), map_some]
  · next h => rw [find?_cons_of_neg (by simpa using h), fieldOf]

theorem mem_of_fieldOf (h : fieldOf strings offset = some data) :
    ∃ s ∈ strings, s.offset = offset ∧ s.data = data := by
  obtain ⟨s, hs, rfl⟩ := map_eq_some_iff.1 h
  exact ⟨s, mem_reverse.1 (mem_of_find?_eq_some hs), by
    simpa using find?_some hs, rfl⟩

theorem exists_fieldOf (h : s ∈ strings) : ∃ data, fieldOf strings s.offset = some data := by
  have hsome : (strings.reverse.find? fun t => t.offset = s.offset).isSome = true :=
    find?_isSome.2 ⟨s, mem_reverse.2 h, decide_eq_true rfl⟩
  obtain ⟨t, ht⟩ := isSome_iff_exists.1 hsome
  exact ⟨t.data, by rw [fieldOf, ht, map_some]⟩

theorem takeExact_of_prefix (h : takeExact l n = some data) (hpre : l <+: l') :
    takeExact l' n = some data := by
  obtain ⟨hle, htake⟩ := ite_none_right_eq_some.1 h
  obtain ⟨⟩ := htake
  obtain ⟨t, rfl⟩ := hpre
  rw [takeExact, if_pos (by rw [length_append]; omega), take_append_of_le_length hle]

theorem takeExact_self (data : List UInt8) : takeExact data data.length = some data := by
  rw [takeExact, if_pos (Nat.le_refl _), take_length]

/-- Chunks are only added and extended. -/
def Extends (store store' : List (List UInt8)) : Prop :=
  ∀ (i : ℕ) (bytes : List UInt8), store[i]? = some bytes →
    ∃ bytes', store'[i]? = some bytes' ∧ bytes <+: bytes'

theorem Leads.mono (h : Leads store out p data) (hstore : Extends store store')
    (hout : out <+: out') : Leads store' out' p data := by
  cases p with
  | other => cases h
  | chunk i pos =>
    obtain ⟨bytes, hbytes, hread⟩ := bind_eq_some_iff.1 h
    obtain ⟨bytes', hbytes', hpre⟩ := hstore i bytes hbytes
    exact bind_eq_some_iff.2
      ⟨bytes', hbytes', takeExact_of_prefix hread (hpre.drop pos)⟩
  | block pos => exact takeExact_of_prefix h (hout.drop pos)

theorem Extends.refl (store : List (List UInt8)) : Extends store store :=
  fun _ bytes h => ⟨bytes, h, prefix_rfl⟩

theorem extends_append (store : List (List UInt8)) (data : List UInt8) :
    Extends store (store ++ [data]) := fun i bytes h =>
  ⟨bytes, by rw [getElem?_append_left (List.getElem?_eq_some_iff.1 h).1, h], prefix_rfl⟩

theorem extends_modify (store : List (List UInt8)) (i : ℕ) (data : List UInt8) :
    Extends store (store.modify i (· ++ data)) := by
  intro j bytes h
  rw [getElem?_modify, h]
  by_cases hij : i = j
  · exact ⟨bytes ++ data, congrArg some (if_pos hij), prefix_append _ _⟩
  · exact ⟨bytes, congrArg some (if_neg hij), prefix_rfl⟩

/-- A string is stored: nothing else changes, and it is where the pointer leads to. -/
theorem storeString_spec (data : List UInt8)
    (hlast : ∀ i ∈ b.lastStrings, i < b.stringList.length) :
    Extends b.stringList (b.storeString data).1 ∧
      Leads (b.storeString data).1 [] (b.storeString data).2.2 data ∧
      ∀ i ∈ (b.storeString data).2.1, i < (b.storeString data).1.length := by
  have hnew : Leads (b.stringList ++ [data]) [] (.chunk b.stringList.length 0) data :=
    bind_eq_some_iff.2 ⟨data, getElem?_concat_length, takeExact_self data⟩
  have hlen : (b.stringList ++ [data]).length = b.stringList.length + 1 := by
    rw [length_append, length_singleton]
  rw [Builder.storeString]
  dsimp only
  split
  · refine ⟨extends_append _ _, hnew, fun i hi => ?_⟩
    rw [hlen]
    exact Nat.lt_succ_of_lt (hlast i hi)
  · split
    · refine ⟨extends_append _ _, hnew, fun i hi => ?_⟩
      obtain ⟨⟩ := hi
      rw [hlen]
      exact Nat.lt_succ_self _
    · next i hi =>
      split
      · refine ⟨extends_append _ _, hnew, fun i hi => ?_⟩
        obtain ⟨⟩ := hi
        rw [hlen]
        exact Nat.lt_succ_self _
      · have hilt := hlast i hi
        have hget : b.stringList[i]? = some (b.stringList.getD i []) := by
          rw [getD_eq_getElem?_getD, getElem?_eq_getElem hilt, getD_some]
        refine ⟨extends_modify _ _ _, ?_, fun j hj => ?_⟩
        · refine bind_eq_some_iff.2 ⟨b.stringList.getD i [] ++ data, ?_, ?_⟩
          · rw [getElem?_modify, hget]
            exact congrArg some (if_pos rfl)
          · have hdrop : (b.stringList.getD i [] ++ data).drop (b.stringList.getD i []).length =
                data := drop_left
            rw [hdrop]
            exact takeExact_self data
        · obtain ⟨⟩ := hj
          rw [length_modify]
          exact hilt

/-! ## Adding -/

/-- What a builder has of the elements which are accepted so far. -/
structure Base (b : Builder ρ) (accepted : List (Filling ρ)) : Prop where
  elements : Forall₂ (Matches b.stringList []) accepted b.elementList.toList
  cnt : b.cnt = accepted.length
  noneEmpty : b.numberList.NoneEmpty
  lastStrings : ∀ i ∈ b.lastStrings, i < b.stringList.length

/-- A builder with accepted elements only. -/
structure Closed (b : Builder ρ) (accepted : List (Filling ρ)) : Prop extends Base b accepted where
  numbers : b.numberList.toList = accepted.flatMap encode
  alloc : totalAll accepted ≤ b.stringalloc

/-- A builder with an element that is being filled. -/
structure Opened (b : Builder ρ) (accepted : List (Filling ρ)) (row : Filling ρ) : Prop
    extends Base b accepted where
  numbers : b.numberList.toList = accepted.flatMap encode ++ encode row
  cstrcnt : b.cstrcnt = (accepted.flatMap encode).length
  current : Matches b.stringList [] row b.currentElement
  alloc : totalAll accepted + total row.strings ≤ b.stringalloc

theorem pairs_concat (strings : List StringField) (s : StringField) :
    pairs (strings ++ [s]) = pairs strings ++ [s.offset] ++ [s.data.length] := by
  rw [pairs, flatMap_append, append_assoc]
  rfl

theorem total_concat (strings : List StringField) (s : StringField) :
    total (strings ++ [s]) = total strings + s.data.length := by
  rw [total, map_append, sum_append]
  rfl

theorem Matches.mono (h : Matches store out row el) (hstore : Extends store store')
    (hout : out <+: out') : Matches store' out' row el :=
  ⟨h.payload, fun offset data hfield => (h.strs offset data hfield).mono hstore hout⟩

theorem Opened.addLstringOffset (h : Opened b accepted row) (hoffset : s.offset < 2 ^ 32)
    (hlength : s.data.length < 2 ^ 32) (hcount : row.strings.length + 1 < 2 ^ 32) :
    Opened (b.addLstringOffset s) accepted { row with strings := row.strings ++ [s] } := by
  obtain ⟨hextends, hleads, hlast⟩ := storeString_spec s.data h.lastStrings
  refine { elements := ?_, cnt := h.cnt, noneEmpty := ?_, lastStrings := hlast, numbers := ?_,
           cstrcnt := h.cstrcnt, current := ⟨h.current.payload, ?_⟩, alloc := ?_ }
  · exact h.elements.imp fun _ _ hmatch => hmatch.mono hextends prefix_rfl
  · exact h.noneEmpty.push.push.modify
  · change (((b.numberList.push _ _).push _ _).modify b.cstrcnt _).toList = _
    rw [ChunkedList.toList_modify, ChunkedList.toList_push, ChunkedList.toList_push, h.numbers,
      Nat.mod_eq_of_lt hoffset, Nat.mod_eq_of_lt hlength, h.cstrcnt, encode, append_assoc,
      append_assoc, cons_append, ChunkedList.modify_length_append,
      Nat.mod_eq_of_lt hcount, encode, pairs_concat, length_append, length_singleton]
    simp only [append_assoc]
  · intro offset data hfield
    dsimp only at hfield
    rw [fieldOf_concat] at hfield
    change Leads _ [] (update b.currentElement.strs s.offset _ offset) data
    split at hfield
    · next heq =>
      obtain ⟨⟩ := hfield
      rw [← heq, update_self]
      exact hleads
    · next hne =>
      rw [update_of_ne (Ne.symm hne)]
      exact (h.current.strs offset data hfield).mono hextends prefix_rfl
  · change _ ≤ b.stringalloc + s.data.length
    have halloc := h.alloc
    rw [total_concat]
    omega

theorem Opened.foldl (h : Opened b accepted row) (hfits : Filling.Fits ⟨row.payload,
    row.strings ++ strings⟩) :
    Opened (strings.foldl Builder.addLstringOffset b) accepted
      ⟨row.payload, row.strings ++ strings⟩ := by
  induction strings generalizing b row with
  | nil =>
    rw [append_nil]
    exact h
  | cons s strings ih =>
    have hmem : s ∈ row.strings ++ s :: strings :=
      mem_append_right _ mem_cons_self
    have hcount : row.strings.length + 1 < 2 ^ 32 := by
      have hlt := hfits.count_lt
      rw [length_append, length_cons] at hlt
      omega
    rw [append_cons] at hfits ⊢
    exact ih (h.addLstringOffset (hfits.offset_lt s (append_cons .. ▸ hmem))
      (hfits.length_lt s (append_cons .. ▸ hmem)) hcount) hfits

theorem Closed.openElement (h : Closed b accepted) (uninit : Element ρ) :
    Opened (b.openElement uninit) accepted ⟨uninit.payload, []⟩ where
  elements := h.elements
  cnt := h.cnt
  noneEmpty := h.noneEmpty.push
  lastStrings := h.lastStrings
  numbers := by
    change (b.numberList.push _ _).toList = _
    rw [ChunkedList.toList_push, h.numbers]
    rfl
  cstrcnt := congrArg length h.numbers
  current := ⟨rfl, fun _ _ hfield => (by cases hfield)⟩
  alloc := h.alloc

theorem Opened.setPayload (h : Opened b accepted row) (payload : ρ) :
    Opened { b with currentElement := { b.currentElement with payload := payload } } accepted
      ⟨payload, row.strings⟩ :=
  { h with current := ⟨rfl, h.current.strs⟩ }

theorem Opened.fill {payload : ρ} (h : Opened b accepted ⟨payload, []⟩) (hfits : row.Fits) :
    Opened (b.fill row) accepted row :=
  (h.setPayload row.payload).foldl hfits

/-- A slot that is used again has no strings. -/
theorem Opened.resetCount {payload : ρ} (h : Opened b accepted ⟨payload, []⟩) :
    Opened b.resetCount accepted ⟨payload, []⟩ := by
  refine { h with noneEmpty := h.noneEmpty.modify, numbers := ?_ }
  change (b.numberList.modify b.cstrcnt _).toList = _
  rw [ChunkedList.toList_modify, h.numbers, h.cstrcnt, encode, ChunkedList.modify_length_append]
  rfl

theorem totalAll_concat (rows : List (Filling ρ)) (row : Filling ρ) :
    totalAll (rows ++ [row]) = totalAll rows + total row.strings := by
  rw [totalAll, map_append, sum_append]
  rfl

theorem Opened.closeElement (h : Opened b accepted row) :
    Closed b.closeElement (accepted ++ [row]) where
  elements := by
    change Forall₂ _ _ (b.elementList.push _ _).toList
    rw [ChunkedList.toList_push]
    exact rel_append h.elements (.cons h.current .nil)
  cnt := by
    rw [length_append, ← h.cnt]
    rfl
  noneEmpty := h.noneEmpty
  lastStrings := h.lastStrings
  numbers := by
    rw [flatMap_append, flatMap_singleton]
    exact h.numbers
  alloc := by
    rw [totalAll_concat]
    exact h.alloc

theorem Closed.addElement (h : Closed b accepted) (uninit : Element ρ) (hfits : row.Fits) :
    Closed (b.addElement uninit row) (accepted ++ [row]) :=
  ((h.openElement uninit).fill hfits).closeElement

/-- The accepted rows of a query. -/
def acceptedRows (rows : List (SqlRow ρ)) : List (Filling ρ) :=
  (rows.filter fun r => !r.rejected).map SqlRow.row

/-- Accepted rows fit, rejected ones add no strings, and the last row is not rejected. -/
structure QueryFine (rows : List (SqlRow ρ)) : Prop where
  fits : ∀ r ∈ rows, r.rejected = false → r.row.Fits
  rejected : ∀ r ∈ rows, r.rejected = true → r.row.strings = []
  last : ∀ r ∈ rows.getLast?, r.rejected = false

/-- A state of the loops: a slot without strings is open, or not. -/
def Between (b : Builder ρ) (accepted : List (Filling ρ)) (opened : Bool) : Prop :=
  if opened then ∃ payload, Opened b accepted ⟨payload, []⟩ else Closed b accepted

theorem QueryFine.tail {r : SqlRow ρ} {rows : List (SqlRow ρ)} (h : QueryFine (r :: rows))
    (hne : rows ≠ []) : QueryFine rows where
  fits t ht := h.fits t (mem_cons_of_mem r ht)
  rejected t ht := h.rejected t (mem_cons_of_mem r ht)
  last t ht := h.last t (by rwa [getLast?_cons_of_ne_nil hne])

theorem queryFine_nil : QueryFine ([] : List (SqlRow ρ)) :=
  ⟨forall_mem_nil _, forall_mem_nil _, fun _ h => (by cases h)⟩

theorem Between.open {opened : Bool} (h : Between b accepted opened) (uninit : Element ρ) :
    ∃ payload, Opened (if opened then b.resetCount else b.openElement uninit) accepted
      ⟨payload, []⟩ := by
  cases opened with
  | true =>
    obtain ⟨payload, h⟩ := h
    exact ⟨payload, h.resetCount⟩
  | false => exact ⟨uninit.payload, Closed.openElement h uninit⟩

theorem addSqlLoop_spec {opened : Bool} {rows : List (SqlRow ρ)} (h : Between b accepted opened)
    (hfine : QueryFine rows) (hopened : opened = true → rows ≠ []) :
    (addSqlLoop uninit opened rows b).2 = true ∧
      Closed (addSqlLoop uninit opened rows b).1 (accepted ++ acceptedRows rows) := by
  induction rows generalizing b accepted opened with
  | nil =>
    cases opened with
    | true => exact absurd rfl (hopened rfl)
    | false =>
      refine ⟨rfl, ?_⟩
      rw [acceptedRows, filter_nil, map_nil, append_nil]
      exact h
  | cons r rows ih =>
    obtain ⟨payload, hslot⟩ := h.open uninit
    rw [addSqlLoop]
    cases hrej : r.rejected with
    | true =>
      -- The slot stays open, with another payload.
      have hstrings := hfine.rejected r mem_cons_self hrej
      have hne : rows ≠ [] := by
        rintro rfl
        exact Bool.noConfusion (hrej.symm.trans (hfine.last r rfl))
      have hrow : r.row = ⟨r.row.payload, []⟩ := by rw [← hstrings]
      have hfill : Opened ((if opened then b.resetCount else b.openElement uninit).fill r.row)
          accepted ⟨r.row.payload, []⟩ := by
        rw [hrow]
        exact hslot.setPayload r.row.payload
      have hrows : acceptedRows (r :: rows) = acceptedRows rows := by
        rw [acceptedRows, filter_cons_of_neg (by rw [hrej]; exact Bool.false_ne_true)]
        rfl
      have hbetween : Between _ accepted true := ⟨_, hfill⟩
      rw [hrows]
      exact ih hbetween (hfine.tail hne) fun _ => hne
    | false =>
      have hclosed : Between _ (accepted ++ [r.row]) false :=
        (hslot.fill (hfine.fits r mem_cons_self hrej)).closeElement
      have hrows : acceptedRows (r :: rows) = r.row :: acceptedRows rows := by
        rw [acceptedRows, filter_cons_of_pos (by rw [hrej]; rfl)]
        rfl
      rw [hrows, append_cons]
      rcases eq_or_ne rows [] with rfl | hne
      · exact ih hclosed queryFine_nil fun h => (by cases h)
      · exact ih hclosed (hfine.tail hne) fun h => (by cases h)

/-! ## Copying -/

/-- An element in the block, of which the strings `todo` are not yet copied. -/
structure Copying (store : List (List UInt8)) (out : List UInt8) (row : Filling ρ)
    (todo : List StringField) (el : Element ρ) : Prop extends Matches store out row el where
  placed : ∀ offset data, fieldOf row.strings offset = some data →
    (∀ s ∈ todo, s.offset ≠ offset) → ∃ pos, el.strs offset = .block pos

theorem Matches.copying (h : Matches store [] row el) (out : List UInt8) :
    Copying store out row row.strings el where
  toMatches := h.mono (.refl store) nil_prefix
  placed _ _ hfield hnot := by
    obtain ⟨s, hs, hoffset, -⟩ := mem_of_fieldOf hfield
    exact absurd hoffset (hnot s hs)

/-- Without the chunks all strings are still there. -/
theorem Copying.matches (h : Copying store out row [] el) : Matches [] out row el where
  payload := h.payload
  strs offset data hfield := by
    obtain ⟨pos, hpos⟩ := h.placed offset data hfield (forall_mem_nil _)
    have hleads := h.strs offset data hfield
    rw [hpos] at hleads ⊢
    exact hleads

/-- A string is copied; its field may already have been, with the same length. -/
theorem Copying.copyString {todo : List StringField}
    (h : Copying b.stringList out row (s :: todo) el) (hfits : row.Fits)
    (hs : s ∈ row.strings) (hroom : out.length + s.data.length ≤ b.stringalloc) :
    ∃ el' data, b.copyString s.offset s.data.length el out = some (el', out ++ data) ∧
      data.length = s.data.length ∧ Copying b.stringList (out ++ data) row todo el' := by
  obtain ⟨data, hdata⟩ := exists_fieldOf hs
  obtain ⟨t, ht, hoffset, hlength⟩ := mem_of_fieldOf hdata
  have hlen : data.length = s.data.length := by
    rw [← hlength]
    exact hfits.same_length t ht s hs hoffset
  have hread : readString b.stringList out s.data.length (el.strs s.offset) = some data := by
    rw [← hlen]
    exact h.strs s.offset data hdata
  refine ⟨{ el with strs := update el.strs s.offset (.block out.length) }, data, ?_, hlen,
    ⟨⟨h.payload, fun offset other hother => ?_⟩, fun offset other hother hnot => ?_⟩⟩
  · rw [Builder.copyString, hread, bind_some, if_pos hroom]
  · dsimp only
    rcases eq_or_ne offset s.offset with rfl | hne
    · obtain rfl := some.inj (hdata.symm.trans hother)
      have hdrop : (out ++ data).drop out.length = data := drop_left
      rw [update_self, Leads, readString, hdrop]
      exact takeExact_self data
    · rw [update_of_ne hne]
      exact (h.strs offset other hother).mono (.refl _) (prefix_append _ _)
  · dsimp only
    rcases eq_or_ne offset s.offset with rfl | hne
    · exact ⟨out.length, update_self ..⟩
    · rw [update_of_ne hne]
      exact h.placed offset other hother (forall_mem_cons.2 ⟨hne.symm, hnot⟩)

theorem total_cons (s : StringField) (strings : List StringField) :
    total (s :: strings) = s.data.length + total strings := sum_cons

/-- All strings of an element are copied. -/
theorem Copying.copyStrings {todo : List StringField} {cur : ChunkedList.Cursor ℕ} {rest : List ℕ}
    (h : Copying b.stringList out row todo el) (hfits : row.Fits) (hsub : todo ⊆ row.strings)
    (hcur : cur.Valid) (hnumbers : cur.remaining = pairs todo ++ rest)
    (hroom : out.length + total todo ≤ b.stringalloc) :
    ∃ cur' el' out', b.copyStrings todo.length cur el out = some (cur', el', out') ∧
      cur'.Valid ∧ cur'.remaining = rest ∧ Matches [] out' row el' ∧ out <+: out' ∧
      out'.length = out.length + total todo := by
  induction todo generalizing cur el out with
  | nil => exact ⟨cur, el, out, rfl, hcur, hnumbers, h.matches, prefix_rfl, rfl⟩
  | cons s todo ih =>
    obtain ⟨hs, hsub⟩ := cons_subset.1 hsub
    rw [total_cons] at hroom
    obtain ⟨cur₁, hpop1, hrem1, hcur1⟩ := hcur.pop_eq hnumbers
    obtain ⟨cur₂, hpop2, hrem2, hcur2⟩ := hcur1.pop_eq hrem1
    obtain ⟨el', data, hcopy, hlen, h'⟩ := h.copyString hfits hs (by omega)
    have hroom' : (out ++ data).length + total todo ≤ b.stringalloc := by
      rw [length_append, hlen]
      omega
    obtain ⟨cur', el'', out', hall, hcur', hrem', hmatch, hpre, hout⟩ :=
      ih h' hsub hcur2 hrem2 hroom'
    refine ⟨cur', el'', out', ?_, hcur', hrem', hmatch, (prefix_append _ _).trans hpre, ?_⟩
    · rw [length_cons, Builder.copyStrings, hpop1, bind_some, hpop2, bind_some, hcopy, bind_some]
      exact hall
    · rw [hout, length_append, hlen, total_cons, Nat.add_assoc]

theorem totalAll_cons (row : Filling ρ) (rows : List (Filling ρ)) :
    totalAll (row :: rows) = total row.strings + totalAll rows := sum_cons

theorem copyElements_spec {els : List (Element ρ)} {cur : ChunkedList.Cursor ℕ}
    (h : Forall₂ (Matches b.stringList []) rows els) (hfits : ∀ row ∈ rows, row.Fits)
    (hcur : cur.Valid) (hnumbers : cur.remaining = rows.flatMap encode)
    (hroom : out.length + totalAll rows ≤ b.stringalloc) :
    ∃ els' out', b.copyElements els cur out = some (els', out') ∧
      Forall₂ (Matches [] out') rows els' ∧ out <+: out' ∧
      out'.length = out.length + totalAll rows := by
  induction h generalizing cur out with
  | nil => exact ⟨[], out, rfl, .nil, prefix_rfl, rfl⟩
  | @cons row el rows els hmatch _ ih =>
    obtain ⟨hrow, hfits⟩ := forall_mem_cons.1 hfits
    rw [totalAll_cons] at hroom
    obtain ⟨cur₁, hpop, hrem, hcur1⟩ := hcur.pop_eq hnumbers
    obtain ⟨cur₂, el', out₂, hcopy, hcur2, hrem2, hdone, hpre, hlen⟩ :=
      (hmatch.copying out).copyStrings hrow (Subset.refl _) hcur1 hrem (by omega)
    have hroom' : out₂.length + totalAll rows ≤ b.stringalloc := by
      rw [hlen]
      omega
    obtain ⟨els', out', hrest, hall, hpre', hlen'⟩ := ih hfits hcur2 hrem2 hroom'
    refine ⟨el' :: els', out', ?_, .cons (hdone.mono (.refl []) hpre') hall, hpre.trans hpre', ?_⟩
    · rw [Builder.copyElements, hpop, bind_some, hcopy, bind_some, hrest, map_some]
    · rw [hlen', hlen, totalAll_cons, Nat.add_assoc]

/-! ## Runs -/

/-- A call that adds elements; what is in a new slot is not known. -/
inductive Action (ρ : Type)
  | addElement (uninit : Element ρ) (row : Filling ρ)
  | addSql (uninit : Element ρ) (rows : List (SqlRow ρ))

/-- A builder, the elements that were accepted, and whether the last call has returned. -/
structure State (ρ : Type) where
  builder : Builder ρ
  accepted : List (Filling ρ)
  returns : Bool

/-- A call, when the one before it has returned. -/
def step (s : State ρ) : Action ρ → Option (State ρ)
  | .addElement uninit row =>
    if s.returns then some ⟨s.builder.addElement uninit row, s.accepted ++ [row], true⟩ else none
  | .addSql uninit rows =>
    if s.returns then
      let r := addSql uninit rows s.builder
      some ⟨r.1, s.accepted ++ acceptedRows rows, r.2⟩
    else none

/-- A builder, from `psync_list_builder_create` on. -/
def machine (elementSize offset : ℕ) (uninit : Element ρ) : Machine (State ρ) (Action ρ) where
  init s := s = ⟨create elementSize offset uninit, [], true⟩
  step := step

/-- When a call keeps the lists aligned. -/
def Fine (_ : State ρ) : Action ρ → Prop
  | .addElement _ row => row.Fits
  | .addSql _ rows => QueryFine rows

/-- The last call has returned, and the block has the accepted elements in their order, with their
    strings, and does not exceed the allocation. -/
def Built (s : State ρ) : Prop :=
  s.returns = true ∧ ∃ r, s.builder.finalize = some r ∧
    r.header = headerOf s.builder.elementsOffset s.accepted.length ∧
    Forall₂ (Matches [] r.strings) s.accepted r.elements ∧
    r.strings.length ≤ s.builder.stringalloc

/-- What holds between calls. -/
structure Inv (s : State ρ) : Prop where
  returns : s.returns = true
  closed : Closed s.builder s.accepted
  fits : ∀ row ∈ s.accepted, row.Fits

theorem closed_create (elementSize offset : ℕ) (uninit : Element ρ) :
    Closed (create elementSize offset uninit) [] where
  elements := .nil
  cnt := rfl
  noneEmpty := ChunkedList.noneEmpty_empty
  lastStrings _ h := by cases h
  numbers := rfl
  alloc := Nat.le_refl _

variable {s s' : State ρ} {a : Action ρ}

theorem QueryFine.acceptedRows_fits {rows : List (SqlRow ρ)} (h : QueryFine rows) :
    ∀ row ∈ acceptedRows rows, row.Fits := by
  intro row hrow
  obtain ⟨r, hr, rfl⟩ := mem_map.1 hrow
  obtain ⟨hmem, hrej⟩ := mem_filter.1 hr
  exact h.fits r hmem (by simpa using hrej)

theorem Inv.step (h : Inv s) (hfine : Fine s a) (hstep : step s a = some s') : Inv s' := by
  cases a with
  | addElement uninit row =>
    rw [ListBuilder.step, if_pos h.returns] at hstep
    obtain ⟨⟩ := hstep
    refine ⟨rfl, h.closed.addElement uninit hfine, ?_⟩
    exact forall_mem_append.2 ⟨h.fits, forall_mem_singleton.2 hfine⟩
  | addSql uninit rows =>
    rw [ListBuilder.step, if_pos h.returns] at hstep
    obtain ⟨⟩ := hstep
    have hbetween : Between s.builder s.accepted false := h.closed
    obtain ⟨hreturns, hclosed⟩ :=
      @addSqlLoop_spec ρ _ _ uninit _ _ hbetween hfine fun h => (by cases h)
    exact ⟨hreturns, hclosed, forall_mem_append.2 ⟨h.fits, QueryFine.acceptedRows_fits hfine⟩⟩

theorem Inv.built (h : Inv s) : Built s := by
  have hroom : ([] : List UInt8).length + totalAll s.accepted ≤ s.builder.stringalloc := by
    rw [length_nil, Nat.zero_add]
    exact h.closed.alloc
  obtain ⟨els', out', hcopy, hall, -, hlen⟩ := copyElements_spec h.closed.elements h.fits
    h.closed.noneEmpty.valid_cursor h.closed.numbers hroom
  have hcnt : s.builder.elementList.toList.length ≤ s.builder.cnt := by
    rw [h.closed.cnt, h.closed.elements.length_eq]
  refine ⟨h.returns, ⟨headerOf s.builder.elementsOffset s.builder.cnt, els', out'⟩, ?_, ?_, hall,
    ?_⟩
  · rw [Builder.finalize, if_pos hcnt, hcopy, map_some]
  · exact congrArg (headerOf s.builder.elementsOffset) h.closed.cnt
  · exact hlen ▸ hroom

/-- When all calls keep the lists aligned, the block is as it should be at every time. -/
theorem built_of_reachable (elementSize offset : ℕ) (uninit : Element ρ)
    (h : (machine elementSize offset uninit).Reachable Fine s) : Built s := by
  refine Inv.built (h.invariant ?_ fun _ _ _ => Inv.step)
  rintro _ rfl
  exact ⟨rfl, closed_create elementSize offset uninit, forall_mem_nil _⟩

/-- An element without pointers to strings. -/
def blank : Element ℕ := ⟨0, fun _ => .other⟩

/-- An element with `"ab"`. -/
def abRow : Filling ℕ := ⟨1, [⟨0, [97, 98, 0]⟩]⟩

/-- A query of which the first row is rejected. -/
def emptyAndC : List (SqlRow ℕ) :=
  [⟨⟨2, []⟩, true⟩, ⟨⟨3, [⟨8, [0]⟩, ⟨0, [99, 0]⟩]⟩, false⟩]

theorem built_aligned : ∃ s, (machine 16 8 blank).run ⟨create 16 8 blank, [], true⟩
      [.addElement blank abRow, .addSql blank emptyAndC] = some s ∧ Built s := by
  have hrow : abRow.Fits := ⟨by decide, by decide, by decide, by decide⟩
  have hlast : @Filling.Fits ℕ ⟨3, [⟨8, [0]⟩, ⟨0, [99, 0]⟩]⟩ :=
    ⟨by decide, by decide, by decide, by decide⟩
  have hquery : QueryFine emptyAndC := by
    refine ⟨?_, by decide, by decide⟩
    intro r hr hrej
    rcases mem_cons.1 hr with rfl | hr
    · cases hrej
    · rw [mem_singleton.1 hr]
      exact hlast
  have h : (machine 16 8 blank).Reachable Fine ⟨create 16 8 blank, [], true⟩ := .init rfl
  have hadd : ∀ s, Fine s (.addElement blank abRow) := fun _ => hrow
  have hsql : ∀ s, Fine s (.addSql blank emptyAndC) := fun _ => hquery
  exact ⟨_, rfl, built_of_reachable 16 8 blank ((h.step (hadd _) rfl).step (hsql _) rfl)⟩

/-- A row with `"a"` is rejected, and the next one, with `"bcd"`, is accepted. -/
def misaligned : List (Action ℕ) :=
  [.addSql blank [⟨⟨1, [⟨0, [97, 0]⟩]⟩, true⟩, ⟨⟨2, [⟨0, [98, 99, 100, 0]⟩]⟩, false⟩]]

/-- The length of the rejected string is used for the accepted one; and with a rejected row at the
    end the query does not end. -/
theorem not_built :
    (∃ s, (machine 16 8 blank).run ⟨create 16 8 blank, [], true⟩ misaligned = some s ∧ ¬Built s) ∧
    ∃ s, (machine 16 8 blank).run ⟨create 16 8 blank, [], true⟩
      [.addSql blank [⟨⟨1, []⟩, true⟩]] = some s ∧ ¬Built s := by
  refine ⟨⟨_, rfl, fun h => ?_⟩, ⟨_, rfl, fun h => (by cases h.1)⟩⟩
  obtain ⟨-, r, hr, -, hall, -⟩ := h
  obtain ⟨⟩ := hr
  obtain ⟨hmatch, -⟩ := forall₂_cons.1 hall
  have hread : readString [] [98, 99] 4 (.block 0) = some [98, 99, 100, 0] :=
    hmatch.strs 0 [98, 99, 100, 0] rfl
  exact absurd hread (by decide)

end Pclsync.Sql.ListBuilder
