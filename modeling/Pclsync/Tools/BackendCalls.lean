import Pclsync.Api.Commands

/-!
# Commands with lists of parameters

`backend_call` and `create_backend_event` (`ptools.c`) make the parameters of a command out of
lists (`eventParams`), in an array of their own, and send it with `do_send_command`.

* `BinParam`: a `binparam` as it is in memory, `pStr`, `pNum`, `pBool`: the macros that make it.
* `backendCall`: the parameters of the command, and the elements of arrays that are used.
* `sentRight_iff`: these are the right ones when there are no optional ones, or when these are as if
  all of them were the first one; `not_inside`: an element behind the array is always read.
* `createBackendEvent`: the parameters of the other command, or nothing when a buffer is overrun or
  a pointer is used which was not set; `eventRight_iff`: when all is right.
-/

namespace Pclsync.Tools

open List Option

/-! ## Parameters -/

/-- The union of `num` and `str`. -/
inductive Word
  | str (s : List UInt8)
  | num (n : BitVec 64)

/-- A `binparam` -/
structure BinParam where
  paramtype : ℕ
  paramnamelen : ℕ
  opts : ℕ
  paramname : List UInt8
  word : Word

/-- `strlen(val)`, for a value that is a string. -/
def Word.strlen : Word → ℕ
  | .str s => s.length % 2 ^ 32
  | .num _ => 0

/-- The value is not zero, and no null pointer. -/
def Word.isTrue : Word → Bool
  | .str _ => true
  | .num n => n ≠ 0

/-- `P_STR` -/
def pStr (name : List UInt8) (val : Word) : BinParam :=
  ⟨0, name.length % 2 ^ 16, val.strlen, name, val⟩

/-- `P_NUM` -/
def pNum (name : List UInt8) (val : Word) : BinParam := ⟨1, name.length % 2 ^ 16, 0, name, val⟩

/-- `P_BOOL` -/
def pBool (name : List UInt8) (val : Word) : BinParam :=
  ⟨2, name.length % 2 ^ 16, 0, name, .num (if val.isTrue then 1 else 0)⟩

/-- A parameter as its caller means it. -/
structure EventParam where
  paramname : List UInt8
  value : Api.ParamValue

/-- The value under another name. -/
def EventParam.named (p : EventParam) (name : List UInt8) : BinParam :=
  match p.value with
  | .str s => pStr name (.str s)
  | .num n => pNum name (.num n)
  | .bool b => pBool name (.num (if b then 1 else 0))

/-- The parameter in memory. -/
def EventParam.binparam (p : EventParam) : BinParam := p.named p.paramname

/-- The size of `Params` -/
def paramsSize : ℕ := 100

/-- An `eventParams`; what is in memory from `paramCnt` on does not mean anything. -/
structure EventParams where
  params : List EventParam
  beyond : ℕ → BinParam
  length_le : params.length ≤ paramsSize

/-- `Params[i]` -/
def EventParams.get (e : EventParams) (i : ℕ) : BinParam :=
  match e.params[i]? with
  | some p => p.binparam
  | none => e.beyond (i - e.params.length)

/-! ## Calls -/

/-- An element of an array that is used. -/
inductive Access
  | requiredParams (i : ℕ)
  | optionalParams (i : ℕ)
  | localParams (i : ℕ)

/-- The parameter that is made of `src` for the kind of `p`; for other kinds nothing is stored. -/
def copyParam (p src old : BinParam) : BinParam :=
  if p.paramtype = 0 then pStr src.paramname src.word
  else if p.paramtype = 1 then pNum src.paramname src.word
  else if p.paramtype = 2 then pBool src.paramname src.word
  else old

/-- A command: its parameters, and the elements that were used for it. -/
structure Command where
  params : List BinParam
  accesses : List Access

/-- `backend_call`, up to the command. In the second loop `j` is zero in each pass. -/
def backendCall (requiredParams optionalParams : EventParams) (uninit : ℕ → BinParam) : Command :=
  let reqParCnt := requiredParams.params.length
  let optParCnt := optionalParams.params.length
  let totalParCnt := reqParCnt + optParCnt
  let required := (range reqParCnt).map fun i =>
    copyParam (requiredParams.get i) (requiredParams.get i) (uninit i)
  let optional := (range' reqParCnt optParCnt).map fun i =>
    copyParam (optionalParams.get i) (optionalParams.get 0) (uninit i)
  -- the last loop only looks at the kinds, up to `totalParCnt` and including it
  ⟨required ++ optional,
    ((range reqParCnt).flatMap fun i => [.requiredParams i, .localParams i]) ++
      ((range' reqParCnt optParCnt).flatMap fun i =>
        [.optionalParams i, .optionalParams 0, .localParams i]) ++
      (range (totalParCnt + 1)).map .localParams⟩

/-- The element is in the list, or in the array. -/
def Access.Inside (reqParCnt optParCnt : ℕ) : Access → Prop
  | .requiredParams i => i < reqParCnt
  | .optionalParams i => i < optParCnt
  | .localParams i => i < reqParCnt + optParCnt

/-- The parameters are the required ones and the optional ones, whatever is in memory behind the
    lists and in the new array. -/
def SentRight (required optional : List EventParam) : Prop :=
  ∀ requiredParams optionalParams uninit, requiredParams.params = required →
    optionalParams.params = optional →
    (backendCall requiredParams optionalParams uninit).params =
      (required ++ optional).map EventParam.binparam

/-- What is asked of `backend_call`. -/
structure BackendCallRight (requiredParams optionalParams : EventParams) : Prop where
  sent : SentRight requiredParams.params optionalParams.params
  inside : ∀ uninit, ∀ x ∈ (backendCall requiredParams optionalParams uninit).accesses,
    x.Inside requiredParams.params.length optionalParams.params.length

/-- There are no required parameters, and each optional one is what is made of the first one for its
    kind. -/
def AllLikeFirst (required optional : List EventParam) : Prop :=
  required = [] ∧ ∀ first ∈ optional.head?, ∀ p ∈ optional,
    p.binparam = copyParam p.binparam first.binparam p.binparam

variable {e : EventParams} {required optional : List EventParam} {p : EventParam} {i : ℕ}
  {old : BinParam}

theorem paramtype_binparam (p : EventParam) :
    p.binparam.paramtype = 0 ∨ p.binparam.paramtype = 1 ∨ p.binparam.paramtype = 2 := by
  rw [EventParam.binparam, EventParam.named]
  split
  · exact .inl rfl
  · exact .inr (.inl rfl)
  · exact .inr (.inr rfl)

/-- Nothing of the array's old content is left for a parameter of one of the kinds. -/
theorem copyParam_binparam (p : EventParam) (src old old' : BinParam) :
    copyParam p.binparam src old = copyParam p.binparam src old' := by
  rw [copyParam, copyParam]
  rcases paramtype_binparam p with h | h | h <;> simp [h]

theorem copyParam_self (p : EventParam) (old : BinParam) :
    copyParam p.binparam p.binparam old = p.binparam := by
  rw [EventParam.binparam, EventParam.named]
  split
  · rfl
  · rfl
  · next b _ => cases b <;> rfl

theorem get_eq (h : e.params[i]? = some p) : e.get i = p.binparam := by
  rw [EventParams.get, h]

theorem get_beyond (h : e.params.length ≤ i) : e.get i = e.beyond (i - e.params.length) := by
  rw [EventParams.get, getElem?_eq_none h]

/-- The required parameters are copied as they are. -/
theorem required_eq (e : EventParams) (uninit : ℕ → BinParam) :
    (range e.params.length).map (fun i => copyParam (e.get i) (e.get i) (uninit i)) =
      e.params.map EventParam.binparam := by
  refine ext_getElem? fun i => ?_
  rw [getElem?_map, getElem?_map]
  rcases Nat.lt_or_ge i e.params.length with hi | hi
  · have hget : e.params[i]? = some e.params[i] := getElem?_eq_getElem hi
    rw [getElem?_range hi, hget, map_some, map_some, get_eq hget, copyParam_self]
  · rw [getElem?_eq_none hi, getElem?_eq_none (by rwa [length_range])]
    rfl

theorem not_inside (requiredParams optionalParams : EventParams) (uninit : ℕ → BinParam) :
    ¬∀ x ∈ (backendCall requiredParams optionalParams uninit).accesses,
      x.Inside requiredParams.params.length optionalParams.params.length := by
  intro h
  have hmem : Access.localParams (requiredParams.params.length + optionalParams.params.length) ∈
      (backendCall requiredParams optionalParams uninit).accesses :=
    mem_append_right _ (mem_map_of_mem (mem_range.2 (Nat.lt_succ_self _)))
  exact Nat.lt_irrefl _ (h _ hmem)

/-- A parameter of no kind. -/
def noKind : BinParam := ⟨3, 0, 0, [], .num 0⟩

/-- Behind required parameters the kinds of the optional ones are read from the wrong places, the
    last one behind the list. -/
theorem required_eq_nil_of_sentRight (requiredParams : EventParams)
    (h : SentRight requiredParams.params optional) (hle : optional.length ≤ paramsSize)
    (hne : optional ≠ []) : requiredParams.params = [] := by
  by_contra hreq
  have hlen := length_pos_of_ne_nil hne
  have hpos := length_pos_of_ne_nil hreq
  let optionalParams : EventParams := ⟨optional, fun _ => noKind, hle⟩
  let i := requiredParams.params.length + optional.length - 1
  have hget : optionalParams.get i = noKind := get_beyond (by
    change optional.length ≤ i
    omega)
  have hcopied : copyParam (optionalParams.get i) (optionalParams.get 0) noKind = noKind := by
    rw [hget]
    rfl
  have hmem : noKind ∈ (backendCall requiredParams optionalParams fun _ => noKind).params := by
    refine mem_append_right _ (mem_map.2 ⟨i, ?_, hcopied⟩)
    exact mem_range'_1.2 ⟨by omega, by
      change i < requiredParams.params.length + optional.length
      omega⟩
  rw [h requiredParams optionalParams _ rfl rfl] at hmem
  obtain ⟨p, -, hp⟩ := mem_map.1 hmem
  rcases paramtype_binparam p with hkind | hkind | hkind <;> rw [hp] at hkind <;> cases hkind

/-- The optional parameters without required ones before them. -/
theorem optional_get? (e : EventParams) (uninit : ℕ → BinParam) (hp : e.params[i]? = some p) :
    ((range' 0 e.params.length).map fun i =>
      copyParam (e.get i) (e.get 0) (uninit i))[i]? =
      some (copyParam p.binparam (e.get 0) (uninit i)) := by
  have hi : i < e.params.length := (List.getElem?_eq_some_iff.1 hp).1
  rw [← range_eq_range', getElem?_map, getElem?_range hi, map_some, get_eq hp]

theorem sentRight_iff (requiredParams optionalParams : EventParams) :
    SentRight requiredParams.params optionalParams.params ↔
      optionalParams.params = [] ∨
        AllLikeFirst requiredParams.params optionalParams.params := by
  constructor
  · intro h
    refine or_iff_not_imp_left.2 fun hne => ?_
    have hreq := required_eq_nil_of_sentRight requiredParams h optionalParams.length_le hne
    refine ⟨hreq, fun first hfirst p hp => ?_⟩
    have hzero : optionalParams.params[0]? = some first := by rwa [← head?_eq_getElem?]
    obtain ⟨i, hi⟩ := mem_iff_getElem?.1 hp
    have hsent := h requiredParams optionalParams (fun _ => p.binparam) rfl rfl
    rw [backendCall, hreq] at hsent
    have hat := congrArg (·[i]?) hsent
    dsimp only at hat
    rw [nil_append, getElem?_map, hi, length_nil, range_zero, map_nil,
      nil_append, optional_get? optionalParams _ hi, map_some, get_eq hzero] at hat
    exact (some.inj hat).symm
  · rintro h r o uninit hr ho
    rw [← hr, ← ho] at h
    rw [← hr, ← ho, backendCall]
    dsimp only
    rw [required_eq, map_append]
    refine congrArg _ ?_
    rcases h with hnil | ⟨hreq, hfirst⟩
    · rw [hnil]
      rfl
    · rw [hreq, length_nil]
      refine ext_getElem? fun i => ?_
      cases hi : o.params[i]? with
      | none =>
        have hlen := getElem?_eq_none_iff.1 hi
        rw [getElem?_eq_none (by rwa [length_map, length_range']),
          getElem?_eq_none (by rwa [length_map])]
      | some p =>
        have hp := mem_of_getElem? hi
        obtain ⟨first, hhead⟩ : ∃ first, o.params.head? = some first := by
          cases hlist : o.params with
          | nil =>
            rw [hlist] at hp
            cases hp
          | cons first rest => exact ⟨first, rfl⟩
        have hzero : o.params[0]? = some first := by rwa [← head?_eq_getElem?]
        rw [optional_get? o uninit hi, getElem?_map, hi, map_some, get_eq hzero,
          copyParam_binparam p _ _ p.binparam, ← hfirst first hhead p hp]

/-! ## Events -/

/-- The arguments of `create_backend_event` for the fixed parameters; the numbers as they are
    stored. -/
structure EventArgs where
  category : List UInt8
  action : List UInt8
  label : List UInt8
  auth : List UInt8
  os : BitVec 64
  etime : BitVec 64

/-- `EPARAM_CATEG` -/
def eparamCateg : List UInt8 := [99, 97, 116, 101, 103, 111, 114, 121]

/-- `EPARAM_ACTION` -/
def eparamAction : List UInt8 := [97, 99, 116, 105, 111, 110]

/-- `EPARAM_LABEL` -/
def eparamLabel : List UInt8 := [108, 97, 98, 101, 108]

/-- `EPARAM_AUTH` -/
def eparamAuth : List UInt8 := [97, 117, 116, 104]

/-- `EPARAM_OS` -/
def eparamOs : List UInt8 := [111, 115]

/-- `EPARAM_TIME` -/
def eparamTime : List UInt8 := [101, 116, 105, 109, 101]

/-- `EPARAM_KEY` -/
def eparamKey : List UInt8 := [107, 101, 121, 115]

/-- `"key%s"` -/
def keyName (name : List UInt8) : List UInt8 := [107, 101, 121] ++ name

/-- `','` -/
def comma : UInt8 := 44

/-- The parameters of every event. -/
def fixedParams (args : EventArgs) : List BinParam :=
  [pStr eparamCateg (.str args.category), pStr eparamAction (.str args.action),
    pStr eparamLabel (.str args.label), pStr eparamAuth (.str args.auth),
    pNum eparamOs (.num args.os), pNum eparamTime (.num args.etime)]

/-- The number of rows of `charBuff` and the size of one -/
def charBuffRows : ℕ := 30
def charBuffSize : ℕ := 258

/-- A string fits with its terminating zero. -/
def fits (size : ℕ) (s : List UInt8) : Option (List UInt8) :=
  if s.length < size then some s else none

/-- `sprintf(charBuff[i], "key%s", …)` -/
def printKey (i : ℕ) (name : List UInt8) : Option (List UInt8) :=
  if i < charBuffRows then fits charBuffSize (keyName name) else none

/-- The parameter of a row; for a boolean its name is all of `charBuff`, which begins with the first
    row. -/
def rowParam (p : EventParam) (row first : List UInt8) : BinParam :=
  match p.value with
  | .str s => pStr row (.str s)
  | .num n => pNum row (.num n)
  | .bool b => pBool first (.num (if b then 1 else 0))

/-- The loop over the given parameters: what is in `keyParams` then, and the parameters. -/
def eventLoop (pCnt : ℕ) (first : List UInt8) :
    ℕ → List UInt8 → List EventParam → Option (List UInt8 × List BinParam)
  | _, keyParams, [] => some (keyParams, [])
  | i, keyParams, p :: params =>
    (fits (258 * pCnt)
      (if 0 < i then keyParams ++ [comma] ++ p.paramname else keyParams ++ p.paramname)).bind
      fun keyParams => (printKey i p.paramname).bind fun row =>
        (eventLoop pCnt first (i + 1) keyParams params).map fun r =>
          (r.1, rowParam p row first :: r.2)

/-- `create_backend_event`, up to the command. Without parameters `keyParams` is not set when it is
    freed. -/
def createBackendEvent (args : EventArgs) (params : List EventParam) : Option (List BinParam) :=
  match params.head? with
  | none => none
  | some p =>
    (eventLoop params.length (keyName p.paramname) 0 [] params).map fun r =>
      fixedParams args ++ r.2 ++ [pStr eparamKey (.str r.1)]

/-- The parameters that should be sent. -/
def eventParams (args : EventArgs) (params : List EventParam) : List BinParam :=
  fixedParams args ++ params.map (fun p => p.named (keyName p.paramname)) ++
    if params = [] then []
    else [pStr eparamKey (.str (intercalate [comma] (params.map EventParam.paramname)))]

/-- What is asked of `create_backend_event`. -/
def EventRight (args : EventArgs) (params : List EventParam) : Prop :=
  createBackendEvent args params = some (eventParams args params)

/-- The parameter is a boolean. -/
def EventParam.IsBool (p : EventParam) : Prop := p.value.paramtype = 2

/-- There are parameters, not more than rows and with names that fit into them, and all booleans
    have the name of the first parameter. -/
structure EventFine (params : List EventParam) : Prop where
  ne_nil : params ≠ []
  rows : params.length ≤ charBuffRows
  names : ∀ p ∈ params, (keyName p.paramname).length < charBuffSize
  bools : ∀ first ∈ params.head?, ∀ p ∈ params, p.IsBool → p.paramname = first.paramname

variable {args : EventArgs} {params : List EventParam} {first row key name : List UInt8} {pCnt : ℕ}
  {s s' : List UInt8} {r : List UInt8 × List BinParam} {size : ℕ}

theorem fits_eq_some_iff : fits size s = some s' ↔ s.length < size ∧ s' = s := by
  rw [fits, ite_none_right_eq_some, some.injEq, eq_comm (a := s)]

theorem printKey_eq_some_iff : printKey i name = some row ↔
    i < charBuffRows ∧ (keyName name).length < charBuffSize ∧ row = keyName name := by
  rw [printKey, ite_none_right_eq_some, fits_eq_some_iff]

/-- Names behind a text, each one with a comma before it unless it is the first of all. -/
def joined (i : ℕ) : List (List UInt8) → List UInt8
  | [] => []
  | name :: names => (if 0 < i then [comma] else []) ++ name ++ joined (i + 1) names

theorem joined_zero (names : List (List UInt8)) :
    joined 0 names = intercalate [comma] names := by
  have hrest : ∀ (names : List (List UInt8)) (name : List UInt8) (i : ℕ),
      name ++ joined (i + 1) names = intercalate [comma] (name :: names) := by
    intro names
    induction names with
    | nil =>
      intro name i
      rw [joined, append_nil, intercalate_singleton]
    | cons name' names ih =>
      intro name i
      rw [joined, if_pos (Nat.succ_pos i), append_assoc, ih, intercalate_cons_cons, append_assoc]
  cases names with
  | nil => rfl
  | cons name names =>
    rw [joined, if_neg (Nat.lt_irrefl 0), nil_append]
    exact hrest names name 0

/-- The parameters of a loop that overruns nothing. -/
theorem eventLoop_eq_some (h : eventLoop pCnt first i key params = some r) :
    (params ≠ [] → i + params.length ≤ charBuffRows) ∧
      (∀ p ∈ params, (keyName p.paramname).length < charBuffSize) ∧
      r = (key ++ joined i (params.map EventParam.paramname),
        params.map fun p => rowParam p (keyName p.paramname) first) := by
  induction params generalizing i key r with
  | nil =>
    obtain ⟨⟩ := h
    exact ⟨fun hne => absurd rfl hne, forall_mem_nil _, by rw [map_nil, joined,
      append_nil, map_nil]⟩
  | cons p params ih =>
    rw [eventLoop] at h
    obtain ⟨key', hkey, h⟩ := bind_eq_some_iff.1 h
    obtain ⟨row, hrow, h⟩ := bind_eq_some_iff.1 h
    obtain ⟨r', hr', rfl⟩ := map_eq_some_iff.1 h
    obtain ⟨hrows, hname, rfl⟩ := printKey_eq_some_iff.1 hrow
    obtain ⟨-, rfl⟩ := fits_eq_some_iff.1 hkey
    obtain ⟨hlen, hnames, rfl⟩ := ih hr'
    refine ⟨fun _ => ?_, forall_mem_cons.2 ⟨hname, hnames⟩, ?_⟩
    · rw [length_cons]
      cases params with
      | nil => exact hrows
      | cons p' params =>
        have hrest := hlen (cons_ne_nil p' params)
        omega
    · rw [map_cons, map_cons, joined]
      split
      · rw [append_assoc, append_assoc, append_assoc]
      · rw [append_assoc, nil_append]

/-- The loop overruns nothing when the rows and the names fit. -/
theorem exists_eventLoop (hrows : i + params.length ≤ charBuffRows)
    (hnames : ∀ p ∈ params, (keyName p.paramname).length < charBuffSize)
    (hkey : key.length ≤ 255 * i) (hcnt : i + params.length ≤ pCnt) :
    ∃ r, eventLoop pCnt first i key params = some r := by
  induction params generalizing i key with
  | nil => exact ⟨_, rfl⟩
  | cons p params ih =>
    rw [length_cons] at hrows hcnt
    rw [forall_mem_cons] at hnames
    have hname : p.paramname.length + 3 < 258 := by
      have hlen := hnames.1
      rw [keyName, length_append] at hlen
      change 3 + p.paramname.length < 258 at hlen
      omega
    have hnext : (if 0 < i then key ++ [comma] ++ p.paramname else key ++ p.paramname).length ≤
        255 * (i + 1) := by
      split
      · rw [length_append, length_append, length_singleton]
        omega
      · rw [length_append]
        omega
    obtain ⟨r, hr⟩ := ih (by omega) hnames.2 hnext (by omega)
    have hrow : i < charBuffRows := by omega
    rw [eventLoop, fits, if_pos (by omega), bind_some, printKey, if_pos hrow, fits,
      if_pos hnames.1, bind_some, hr, map_some]
    exact ⟨_, rfl⟩

/-- A row is right unless its parameter is a boolean under another name than the first one. -/
theorem rowParam_eq_iff : rowParam p (keyName p.paramname) (keyName name) =
    p.named (keyName p.paramname) ↔ (p.IsBool → p.paramname = name) := by
  rw [rowParam, EventParam.named, EventParam.IsBool]
  split
  · next h => exact iff_of_true rfl fun hbool => (by rw [h] at hbool; cases hbool)
  · next h => exact iff_of_true rfl fun hbool => (by rw [h] at hbool; cases hbool)
  · next b h =>
    rw [h]
    constructor
    · intro heq _
      have hname := congrArg BinParam.paramname heq
      exact (append_cancel_left hname).symm
    · intro hname
      rw [hname rfl]

theorem eventRight_iff (args : EventArgs) (params : List EventParam) :
    EventRight args params ↔ EventFine params := by
  rw [EventRight, createBackendEvent]
  cases params with
  | nil => exact iff_of_false (fun h => (by cases h)) fun h => h.ne_nil rfl
  | cons p params =>
    rw [eventParams, if_neg (cons_ne_nil p params), ← joined_zero]
    dsimp only [head?_cons]
    constructor
    · intro h
      obtain ⟨r, hr, heq⟩ := map_eq_some_iff.1 h
      obtain ⟨hrows, hnames, rfl⟩ := eventLoop_eq_some hr
      have hsent := (append_inj' heq rfl).1
      have hmap := append_cancel_left hsent
      refine ⟨cons_ne_nil p params, ?_, hnames, ?_⟩
      · have hle := hrows (cons_ne_nil p params)
        rwa [Nat.zero_add] at hle
      · rintro first hfirst q hq
        obtain ⟨⟩ := hfirst
        exact rowParam_eq_iff.1 (map_inj_left.1 hmap q hq)
    · rintro ⟨-, hrows, hnames, hbools⟩
      obtain ⟨r, hr⟩ : ∃ r, eventLoop (p :: params).length (keyName p.paramname) 0 []
          (p :: params) = some r :=
        exists_eventLoop (by rwa [Nat.zero_add]) hnames (Nat.zero_le _)
          (Nat.le_of_eq (Nat.zero_add _))
      rw [hr, map_some]
      obtain ⟨-, -, rfl⟩ := eventLoop_eq_some hr
      rw [map_congr_left fun q hq => rowParam_eq_iff.2 (hbools p rfl q hq)]
      rfl

/-! ## Both functions -/

/-- `backend_call` is never right, since it reads behind its array; what it sends is right without
    optional parameters, or with optional ones only that are all made of the first one.
    `create_backend_event` is right for 1 to 30 parameters with names of at most 254 bytes, in which
    booleans have the name of the first one. -/
theorem backendCalls_right (requiredParams optionalParams : EventParams) :
    (¬BackendCallRight requiredParams optionalParams ∧
      (SentRight requiredParams.params optionalParams.params ↔ optionalParams.params = [] ∨
        AllLikeFirst requiredParams.params optionalParams.params)) ∧
    ∀ args params, EventRight args params ↔ EventFine params :=
  ⟨⟨fun h => not_inside requiredParams optionalParams (fun _ => noKind) (h.inside _),
    sentRight_iff requiredParams optionalParams⟩, eventRight_iff⟩

/-- A number under a name. -/
def numParam (name : UInt8) (n : BitVec 64) : EventParam := ⟨[name], .num n⟩

/-- One required parameter and one optional one: the optional one is not sent, and two arrays are
    read from behind their ends. An event without parameters frees a pointer which was not set. -/
theorem backendCalls_wrong : (∃ requiredParams optionalParams : EventParams,
      requiredParams.params = [numParam 97 1] ∧ optionalParams.params = [numParam 98 2] ∧
        ¬BackendCallRight requiredParams optionalParams ∧
        ¬SentRight [numParam 97 1] [numParam 98 2]) ∧
    ¬EventRight ⟨[], [], [], [], 5, 0⟩ [] := by
  refine ⟨⟨⟨[numParam 97 1], fun _ => noKind, by decide⟩,
    ⟨[numParam 98 2], fun _ => noKind, by decide⟩, rfl, rfl,
    fun h => not_inside _ _ (fun _ => noKind) (h.inside _), fun h => ?_⟩, fun h => ?_⟩
  · have hreq := required_eq_nil_of_sentRight ⟨[numParam 97 1], fun _ => noKind, by decide⟩ h
      (by decide) (by decide)
    cases hreq
  · exact ((eventRight_iff _ []).1 h).ne_nil rfl

end Pclsync.Tools
