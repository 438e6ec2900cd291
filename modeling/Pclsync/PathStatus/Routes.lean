import Pclsync.Components

/-!
# Which folder a path belongs to

`psync_path_status_get` (`ppathstatus.c`) first looks for a root, the drive or a synced folder,
whose path is the beginning of the path asked for, byte by byte, and then, with
`psync_path_is_prefix_of`, for one whose components are the first components of the path.

* `psyncPathIsPrefixOf_iff`: where both texts begin with a slash, or neither does, the second test
  is about components, and a root found by the first test is the one which the second would find,
  when no other root is above the path.
* `not_psyncPathIsPrefixOf_relative`: an absolute path is not taken for a relative one.

The terminating zero of a path is the end of the list.
-/

namespace Pclsync.PathStatus

open List Option

/-- `is_slash`. -/
def isSlash (ch : UInt8) : Bool := ch = 47

/-- `valid_last_char`; the terminating zero is `none`. -/
def validLastChar : Option UInt8 → Bool
  | none => true
  | some ch => isSlash ch

/-- The inner loop of `psync_path_is_prefix_of`. -/
def skipCommon : List UInt8 → List UInt8 → List UInt8 × List UInt8
  | a :: pre, b :: path =>
    if !isSlash a && a = b then skipCommon pre path else (a :: pre, b :: path)
  | pre, path => (pre, path)

theorem skipCommon_spec (pre path : List UInt8) :
    ∃ w, (∀ a ∈ w, isSlash a = false) ∧ pre = w ++ (skipCommon pre path).1 ∧
      path = w ++ (skipCommon pre path).2 ∧
      ∀ a p b q, skipCommon pre path = (a :: p, b :: q) → isSlash a = true ∨ a ≠ b := by
  induction pre, path using skipCommon.induct with
  | case1 a pre b path h ih =>
    obtain ⟨w, hw, hpre, hpath, hstop⟩ := ih
    obtain ⟨ha, hab⟩ : isSlash a = false ∧ a = b := by simpa using h
    subst hab
    rw [skipCommon, if_pos h]
    exact ⟨a :: w, forall_mem_cons.2 ⟨ha, hw⟩, congrArg (a :: ·) hpre, congrArg (a :: ·) hpath,
      hstop⟩
  | case2 a pre b path h =>
    rw [skipCommon, if_neg h]
    refine ⟨[], fun _ hc => (by cases hc), rfl, rfl, fun a' p b' q hc => ?_⟩
    cases hc
    by_contra hc
    exact h (by simpa using hc)
  | case3 pre path h =>
    have hsame : skipCommon pre path = (pre, path) := by
      rw [skipCommon]
      exact h
    rw [hsame]
    exact ⟨[], fun _ hc => (by cases hc), rfl, rfl, fun a p b q hc => by
      cases hc
      exact (h _ _ _ _ rfl rfl).elim⟩

/-- `psync_path_is_prefix_of`: the rest of the path, on success. -/
def psyncPathIsPrefixOf (pre path : List UInt8) : Option (List UInt8) :=
  match _h : skipCommon pre path with
  | ([], path) => if validLastChar path.head? then some path else none
  | (_ :: _, []) => none
  | (a :: pre', b :: path') =>
    if isSlash a != isSlash b then none
    else if isSlash a then
      if pre'.dropWhile isSlash = [] then some (path'.dropWhile isSlash)
      else if path'.dropWhile isSlash = [] then none
      else psyncPathIsPrefixOf (pre'.dropWhile isSlash) (path'.dropWhile isSlash)
    else none
termination_by pre.length
decreasing_by
  obtain ⟨w, -, hpre, -⟩ := skipCommon_spec pre path
  have hlen := congrArg length hpre
  have hdrop := (dropWhile_sublist isSlash (l := pre')).length_le
  rw [_h, length_append, length_cons] at hlen
  omega

section
variable {pre path p q : List UInt8} {a b : UInt8}

theorem psyncPathIsPrefixOf_nil (h : skipCommon pre path = ([], q)) :
    psyncPathIsPrefixOf pre path = if validLastChar q.head? then some q else none := by
  rw [psyncPathIsPrefixOf]
  split
  · rename_i hs
    cases h.symm.trans hs
    rfl
  · rename_i hs
    cases h.symm.trans hs
  · rename_i hs
    cases h.symm.trans hs

theorem psyncPathIsPrefixOf_cons_nil (h : skipCommon pre path = (a :: p, [])) :
    psyncPathIsPrefixOf pre path = none := by
  rw [psyncPathIsPrefixOf]
  split <;> rename_i hs <;> rw [h] at hs <;> cases hs

theorem psyncPathIsPrefixOf_cons (h : skipCommon pre path = (a :: p, b :: q)) :
    psyncPathIsPrefixOf pre path = if isSlash a != isSlash b then none
      else if isSlash a then
        if p.dropWhile isSlash = [] then some (q.dropWhile isSlash)
        else if q.dropWhile isSlash = [] then none
        else psyncPathIsPrefixOf (p.dropWhile isSlash) (q.dropWhile isSlash)
      else none := by
  rw [psyncPathIsPrefixOf]
  split
  · rename_i hs
    cases h.symm.trans hs
  · rename_i hs
    cases h.symm.trans hs
  · rename_i hs
    cases h.symm.trans hs
    rfl

end

/-! ## Components -/

/-- A slash at the beginning. -/
def startsSlash (l : List UInt8) : Bool := l.head?.any isSlash

/-- A slash at the end. -/
def endsSlash (l : List UInt8) : Bool := l.getLast?.any isSlash

variable {p q w : List UInt8}

theorem startsSlash_append (hw : w ≠ []) : startsSlash (w ++ p) = startsSlash w := by
  cases w with
  | nil => exact absurd rfl hw
  | cons a w => rfl

theorem endsSlash_append (hp : p ≠ []) : endsSlash (w ++ p) = endsSlash p := by
  rw [endsSlash, getLast?_append_of_ne_nil _ hp]
  rfl

theorem endsSlash_word (hw : ∀ a ∈ w, isSlash a = false) : endsSlash w = false := by
  rw [endsSlash]
  cases h : w.getLast? with
  | none => rfl
  | some a => exact hw a (mem_of_getLast? h)

/-- The slash where a text ends which has nothing else after its last word. -/
theorem endsSlash_of_all (hp : p ≠ []) (h : ∀ a ∈ p, isSlash a = true) : endsSlash p = true := by
  obtain ⟨a, ha⟩ := isSome_iff_exists.1 (getLast?_isSome.2 hp)
  rw [endsSlash, ha]
  exact h a (mem_of_getLast? ha)

theorem components_word_cons (hw : ∀ a ∈ w, isSlash a = false) (hne : w ≠ []) {a : UInt8}
    (ha : isSlash a = true) : components isSlash (w ++ a :: p) = w :: components isSlash p := by
  have hfirst : firstWord isSlash (a :: p) = [] := by simp [firstWord, ha]
  have hafter : afterWord isSlash (a :: p) = a :: p := by simp [afterWord, ha]
  rw [components_word_append hw hne, hfirst, hafter, append_nil, components_cons_of_sep ha]

theorem components_word (hw : ∀ a ∈ w, isSlash a = false) (hne : w ≠ []) :
    components isSlash w = [w] := by
  have h := components_word_append hw hne []
  rwa [append_nil, show firstWord isSlash [] = [] from rfl,
    show afterWord isSlash [] = [] from rfl, components_nil, append_nil] at h

theorem components_longer (hw : ∀ a ∈ w, isSlash a = false) {a : UInt8} (ha : isSlash a = false) :
    ∃ t c, components isSlash (w ++ a :: p) = (w ++ a :: t) :: c := by
  rw [show w ++ a :: p = (w ++ [a]) ++ p by simp,
    components_word_append (forall_mem_append.2 ⟨hw, by simpa using ha⟩) (by simp)]
  exact ⟨firstWord isSlash p, _, by rw [append_assoc]; rfl⟩

/-- What `psync_path_is_prefix_of` finds. -/
structure Found (pre path : List UInt8) : Prop where
  some : ∀ rest, psyncPathIsPrefixOf pre path = some rest →
    components isSlash path = components isSlash pre ++ components isSlash rest
  /-- It does not find a prefix with a slash at its end which the path does not have. -/
  none : psyncPathIsPrefixOf pre path = none → components isSlash pre <+: components isSlash path →
    endsSlash pre = true ∧ endsSlash path = false ∧
      components isSlash pre = components isSlash path

/-- After slashes, the text is at its end or at a word. -/
theorem dropWhile_isSlash (l : List UInt8) :
    l.dropWhile isSlash = [] ∨ startsSlash (l.dropWhile isSlash) = false := by
  cases h : l.dropWhile isSlash with
  | nil => exact .inl rfl
  | cons a t =>
    refine .inr (Bool.eq_false_iff.2 fun ha => ?_)
    have := head?_dropWhile_not isSlash l
    rw [h] at this
    exact absurd ha (by simpa [startsSlash] using this)

/-- The slashes after the same word on both sides. -/
theorem found_slashes {pre' path' : List UInt8} {a b : UInt8} (hw : ∀ c ∈ w, isSlash c = false)
    (ha : isSlash a = true) (hb : isSlash b = true)
    (h : psyncPathIsPrefixOf (w ++ a :: pre') (w ++ b :: path') =
      if pre'.dropWhile isSlash = [] then some (path'.dropWhile isSlash)
      else if path'.dropWhile isSlash = [] then none
      else psyncPathIsPrefixOf (pre'.dropWhile isSlash) (path'.dropWhile isSlash))
    (ih : pre'.dropWhile isSlash ≠ [] → path'.dropWhile isSlash ≠ [] →
      Found (pre'.dropWhile isSlash) (path'.dropWhile isSlash)) :
    Found (w ++ a :: pre') (w ++ b :: path') := by
  obtain ⟨W, hW⟩ : ∃ W, ∀ c l, isSlash c = true →
      components isSlash (w ++ c :: l) = W ++ components isSlash (l.dropWhile isSlash) := by
    by_cases hne : w = []
    · refine ⟨[], fun c l hc => ?_⟩
      rw [hne, nil_append, components_cons_of_sep hc, components_dropWhile, nil_append]
    · refine ⟨[w], fun c l hc => ?_⟩
      rw [components_word_cons hw hne hc, components_dropWhile]
      rfl
  have hends : ∀ c (l : List UInt8), l.dropWhile isSlash ≠ [] →
      endsSlash (w ++ c :: l) = endsSlash (l.dropWhile isSlash) := fun c l hl => by
    rw [← endsSlash_append (w := w ++ c :: l.takeWhile isSlash) hl, append_assoc,
      cons_append, takeWhile_append_dropWhile]
  constructor
  · intro rest hrest
    rw [h] at hrest
    rw [hW a pre' ha, hW b path' hb]
    split at hrest
    · rename_i hnil
      rw [hnil, components_nil, append_nil, some.inj hrest]
    · rename_i hpre
      split at hrest
      · cases hrest
      · rename_i hpath
        rw [(ih hpre hpath).some rest hrest, append_assoc]
  · intro hnone hprefix
    rw [h] at hnone
    rw [hW a pre' ha, hW b path' hb, prefix_append_right_inj] at hprefix
    split at hnone
    · cases hnone
    · rename_i hpre
      split at hnone
      · rename_i hpath
        rw [hpath, components_nil, prefix_nil] at hprefix
        have hall := components_eq_nil_iff.1 hprefix
        rcases dropWhile_isSlash pre' with hnil | hstart
        · exact absurd hnil hpre
        · cases hc : pre'.dropWhile isSlash with
          | nil => exact absurd hc hpre
          | cons c t =>
            rw [hc] at hstart hall
            exact absurd (hall c mem_cons_self) (Bool.eq_false_iff.1 hstart)
      · rename_i hpath
        obtain ⟨h1, h2, h3⟩ := (ih hpre hpath).none hnone hprefix
        exact ⟨(hends a pre' hpre).trans h1, (hends b path' hpath).trans h2, by
          rw [hW a pre' ha, hW b path' hb, h3]⟩

theorem found_of_words (hp : p ≠ []) (hq : q ≠ []) (hps : startsSlash p = false)
    (hqs : startsSlash q = false) : Found p q := by
  induction hn : p.length using Nat.strongRecOn generalizing p q with
  | ind n ih =>
    obtain ⟨w, hw, hpre, hpath, hstop⟩ := skipCommon_spec p q
    -- The word in front cannot be the end of one component and the middle of another.
    have hcut : ∀ {l c t}, w ≠ [] → isSlash c = false →
        ¬ (w :: l <+: components isSlash (w ++ c :: t)) ∧
        ¬ (components isSlash (w ++ c :: t) <+: w :: l) := by
      intro l c t hne hc
      obtain ⟨t', c', ht⟩ := components_longer (p := t) hw hc
      rw [ht]
      constructor <;> intro h <;> have := (cons_prefix_cons.1 h).1 <;> simp at this
    obtain ⟨p', q', hs⟩ : ∃ p' q', skipCommon p q = (p', q') := ⟨_, _, rfl⟩
    rw [hs] at hpre hpath hstop
    dsimp only at hpre hpath
    have hne : w ≠ [] ∨ (∃ a p₀ b q₀, p' = a :: p₀ ∧ q' = b :: q₀ ∧ isSlash a = false ∧
        isSlash b = false ∧ a ≠ b) := by
      by_cases hne : w = []
      · subst hne
        obtain ⟨a, p₀, rfl⟩ := exists_cons_of_ne_nil hp
        obtain ⟨b, q₀, rfl⟩ := exists_cons_of_ne_nil hq
        refine .inr ⟨a, p₀, b, q₀, hpre.symm, hpath.symm, hps, hqs, ?_⟩
        rw [nil_append] at hpre hpath
        exact (hstop a p₀ b q₀ (by rw [← hpre, ← hpath])).resolve_left
          fun ha => absurd (ha.symm.trans hps) (by simp)
      · exact .inl hne
    cases p' with
    | nil =>
      -- The prefix is a word, which has to be a whole component of the path.
      have hw' : w ≠ [] := hne.resolve_right fun ⟨_, _, _, _, h, _⟩ => (by cases h)
      have hf := psyncPathIsPrefixOf_nil hs
      have hcp : components isSlash p = [w] := by
        rw [hpre, append_nil, components_word hw hw']
      cases q' with
      | nil =>
        have hcq : components isSlash q = [w] := by
          rw [hpath, append_nil, components_word hw hw']
        have hf := hf.trans (if_pos rfl)
        refine ⟨fun rest hrest => ?_, fun hnone => absurd (hf.symm.trans hnone) (by simp)⟩
        obtain rfl := some.inj (hf.symm.trans hrest)
        rw [hcq, hcp, components_nil]
        rfl
      | cons b q' =>
        cases hb : isSlash b with
        | true =>
          have hcq : components isSlash q = w :: components isSlash (b :: q') := by
            rw [hpath, components_word_cons hw hw' hb, components_cons_of_sep hb]
          have hf := hf.trans (if_pos hb)
          refine ⟨fun rest hrest => ?_, fun hnone => absurd (hf.symm.trans hnone) (by simp)⟩
          obtain rfl := some.inj (hf.symm.trans hrest)
          rw [hcq, hcp]
          rfl
        | false =>
          have hf := hf.trans (if_neg (Bool.eq_false_iff.1 hb))
          refine ⟨fun rest hrest => absurd (hf.symm.trans hrest) (by simp), fun _ hprefix => ?_⟩
          rw [hcp, hpath] at hprefix
          exact absurd hprefix (hcut hw' hb).1
    | cons a p' =>
      cases q' with
      | nil =>
        -- The path ends: what is left of the prefix may be slashes only.
        have hw' : w ≠ [] := hne.resolve_right fun ⟨_, _, _, _, _, h, _⟩ => (by cases h)
        have hf := psyncPathIsPrefixOf_cons_nil hs
        have hcq : components isSlash q = [w] := by
          rw [hpath, append_nil, components_word hw hw']
        refine ⟨fun rest hrest => absurd (hf.symm.trans hrest) (by simp), fun _ hprefix => ?_⟩
        cases ha : isSlash a with
        | true =>
          have hcp : components isSlash p = w :: components isSlash (a :: p') := by
            rw [hpre, components_word_cons hw hw' ha, components_cons_of_sep ha]
          rw [hcp, hcq] at hprefix
          have hnil := prefix_nil.1 (cons_prefix_cons.1 hprefix).2
          refine ⟨?_, ?_, by rw [hcp, hcq, hnil]⟩
          · rw [hpre, endsSlash_append (cons_ne_nil _ _)]
            exact endsSlash_of_all (cons_ne_nil _ _) (components_eq_nil_iff.1 hnil)
          · rw [hpath, append_nil]
            exact endsSlash_word hw
        | false =>
          rw [hcq, hpre] at hprefix
          exact absurd hprefix (hcut hw' ha).2
      | cons b q' =>
        have hf := psyncPathIsPrefixOf_cons hs
        cases ha : isSlash a with
        | true =>
          cases hb : isSlash b with
          | true =>
            rw [ha, hb] at hf
            rw [hpre, hpath]
            refine found_slashes hw ha hb ?_ fun hp' hq' => ?_
            · rw [← hpre, ← hpath]
              exact hf
            · refine ih _ ?_ hp' hq' ((dropWhile_isSlash p').resolve_left hp')
                ((dropWhile_isSlash q').resolve_left hq') rfl
              have hlen := congrArg length hpre
              have hdrop := (dropWhile_sublist isSlash (l := p')).length_le
              rw [length_append, length_cons] at hlen
              omega
          | false =>
            have hw' : w ≠ [] := hne.resolve_right fun ⟨_, _, _, _, h, _, h', _⟩ => by
              obtain rfl := (cons.inj h).1
              exact absurd (ha.symm.trans h') (by simp)
            rw [ha, hb] at hf
            refine ⟨fun rest hrest => absurd (hf.symm.trans hrest) (by simp), fun _ hprefix => ?_⟩
            rw [hpre, hpath, components_word_cons hw hw' ha] at hprefix
            exact absurd hprefix (hcut hw' hb).1
        | false =>
          have hnone : psyncPathIsPrefixOf p q = none := by
            rw [hf, ha]
            cases isSlash b <;> rfl
          refine ⟨fun rest hrest => absurd (hnone.symm.trans hrest) (by simp), fun _ hprefix => ?_⟩
          cases hb : isSlash b with
          | true =>
            have hw' : w ≠ [] := hne.resolve_right fun ⟨_, _, _, _, _, h, _, h', _⟩ => by
              obtain rfl := (cons.inj h).1
              exact absurd (hb.symm.trans h') (by simp)
            rw [hpre, hpath, components_word_cons hw hw' hb] at hprefix
            exact absurd hprefix (hcut hw' ha).2
          | false =>
            have hab : a ≠ b := (hstop a p' b q' rfl).resolve_left (Bool.eq_false_iff.1 ha)
            obtain ⟨t, c, ht⟩ := components_longer (p := p') hw ha
            obtain ⟨t', c', ht'⟩ := components_longer (p := q') hw hb
            rw [hpre, hpath, ht, ht'] at hprefix
            have heq := append_cancel_left (cons_prefix_cons.1 hprefix).1
            exact absurd (cons.inj heq).1 hab

/-! ## The prefix test -/

/-- Both texts begin with a slash, or neither. -/
theorem found {pre path : List UInt8} (hne : pre ≠ [])
    (hstart : startsSlash pre = startsSlash path) : Found pre path := by
  obtain ⟨a, pre', rfl⟩ := exists_cons_of_ne_nil hne
  cases path with
  | nil =>
    have ha : isSlash a = false := hstart
    have hnone : psyncPathIsPrefixOf (a :: pre') [] = none :=
      psyncPathIsPrefixOf_cons_nil rfl
    refine ⟨fun rest hrest => absurd (hnone.symm.trans hrest) (by simp), fun _ hprefix => ?_⟩
    rw [components_nil, prefix_nil] at hprefix
    have := components_eq_nil_iff.1 hprefix a mem_cons_self
    exact absurd (ha.symm.trans this) (by simp)
  | cons b path' =>
    have hab : isSlash a = isSlash b := hstart
    cases ha : isSlash a with
    | true =>
      have hb : isSlash b = true := hab.symm.trans ha
      have hskip : skipCommon (a :: pre') (b :: path') = (a :: pre', b :: path') := by
        rw [skipCommon, if_neg (by simp [ha])]
      have hf := psyncPathIsPrefixOf_cons hskip
      rw [ha, hb] at hf
      exact found_slashes (w := []) (fun _ hc => (by cases hc)) ha hb hf fun hp hq =>
        found_of_words hp hq ((dropWhile_isSlash pre').resolve_left hp)
          ((dropWhile_isSlash path').resolve_left hq)
    | false =>
      exact found_of_words (cons_ne_nil _ _) (cons_ne_nil _ _) ha (hab.symm.trans ha)

/-- One text begins with a slash and the other does not. -/
theorem psyncPathIsPrefixOf_of_ne {pre path : List UInt8} (hne : pre ≠ [])
    (hstart : startsSlash pre ≠ startsSlash path) : psyncPathIsPrefixOf pre path = none := by
  obtain ⟨a, pre', rfl⟩ := exists_cons_of_ne_nil hne
  cases path with
  | nil =>
    exact psyncPathIsPrefixOf_cons_nil rfl
  | cons b path' =>
    have hab : isSlash a ≠ isSlash b := hstart
    have hskip : skipCommon (a :: pre') (b :: path') = (a :: pre', b :: path') := by
      rw [skipCommon, if_neg]
      intro h
      have h : isSlash a = false ∧ a = b := by simpa using h
      exact hab (by rw [h.2])
    rw [psyncPathIsPrefixOf_cons hskip, if_pos (by simpa using hab)]

/-! ## Routes -/

/-- `path_sync_list_entry_t`. -/
structure SyncEntry where
  path : List UInt8
  folderid : UInt64
  syncid : UInt32
  flags : UInt32
  deriving DecidableEq

/-- What a path can belong to. -/
inductive Root
  /-- The drive, mounted at `drive_path`. -/
  | drive (path : List UInt8)
  | sync (s : SyncEntry)
  deriving DecidableEq

/-- The roots, in the order in which they are tried. -/
def roots (drivePath : Option (List UInt8)) (syncs : List SyncEntry) : List Root :=
  drivePath.toList.map .drive ++ syncs.map .sync

namespace Root

def path : Root → List UInt8
  | drive path => path
  | sync s => s.path

/-- The test with `memcmp`: the rest of the path, on success. -/
def fast (r : Root) (path : List UInt8) : Option (List UInt8) :=
  if r.path.length ≤ path.length ∧ path.take r.path.length = r.path ∧
      validLastChar path[r.path.length]? = true then
    some (path.drop r.path.length)
  else none

/-- The test with `psync_path_is_prefix_of`, which a synced folder with a longer path does not
    get. -/
def slow (path : List UInt8) : Root → Option (List UInt8)
  | drive d => psyncPathIsPrefixOf d path
  | sync s => if s.path.length ≤ path.length then psyncPathIsPrefixOf s.path path else none

end Root

/-- The first root whose test succeeds, and the rest of the path. -/
def firstRoot (test : Root → Option (List UInt8)) : List Root → Option (Root × List UInt8)
  | [] => none
  | r :: rs =>
    match test r with
    | some rest => some (r, rest)
    | none => firstRoot test rs

section
variable {rs : List Root} {r x : Root} {pre path rest : List UInt8}

theorem firstRoot_some {test : Root → Option (List UInt8)} {rs : List Root}
    (h : firstRoot test rs = some (r, rest)) : r ∈ rs ∧ test r = some rest := by
  induction rs with
  | nil => cases h
  | cons x rs ih =>
    rw [firstRoot] at h
    split at h
    · rename_i rest' ht
      cases h
      exact ⟨mem_cons_self, ht⟩
    · exact (ih h).imp_left (mem_cons_of_mem x)

/-- When only one of the roots passes the test, it is found. -/
theorem firstRoot_of_unique {test : Root → Option (List UInt8)} {rs : List Root} (hr : r ∈ rs)
    (ht : test r = some rest) (h : ∀ x ∈ rs, ∀ rest, test x = some rest → x = r) :
    firstRoot test rs = some (r, rest) := by
  induction rs with
  | nil => cases hr
  | cons x rs ih =>
    rw [firstRoot]
    split
    · rename_i rest' hx
      obtain rfl := h x mem_cons_self rest' hx
      rw [some.inj (hx.symm.trans ht)]
    · rename_i hx
      rcases mem_cons.1 hr with rfl | hr
      · cases hx.symm.trans ht
      · exact ih hr fun y hy => h y (mem_cons_of_mem x hy)

/-- A prefix which is found is the beginning of the components. -/
theorem components_prefix (h : psyncPathIsPrefixOf pre path = some rest) :
    components isSlash pre <+: components isSlash path := by
  by_cases hne : pre = []
  · rw [hne, components_nil]
    exact nil_prefix
  · by_cases hstart : startsSlash pre = startsSlash path
    · exact ⟨_, ((found hne hstart).some rest h).symm⟩
    · cases h.symm.trans (psyncPathIsPrefixOf_of_ne hne hstart)

/-- A text which continues another one after its end, or with a slash. -/
theorem psyncPathIsPrefixOf_append (hrest : rest = [] ∨ startsSlash rest = true) :
    ∃ rest', psyncPathIsPrefixOf pre (pre ++ rest) = some rest' ∧
      components isSlash rest' = components isSlash rest := by
  have hcomponents : components isSlash (pre ++ rest) =
      components isSlash pre ++ components isSlash rest := by
    rcases hrest with rfl | hrest
    · rw [components_nil, append_nil, append_nil]
    · cases rest with
      | nil => cases hrest
      | cons a rest =>
        have ha : isSlash a = true := hrest
        rw [components_append_cons ha, components_cons_of_sep ha]
  by_cases hne : pre = []
  · subst hne
    refine ⟨rest, ?_, rfl⟩
    rw [nil_append, psyncPathIsPrefixOf_nil (q := rest) rfl, if_pos]
    rcases hrest with rfl | hrest
    · rfl
    · cases rest with
      | nil => rfl
      | cons a rest => exact hrest
  · have hfound := found hne (startsSlash_append (p := rest) hne).symm
    cases h : psyncPathIsPrefixOf pre (pre ++ rest) with
    | some rest' =>
      refine ⟨rest', rfl, ?_⟩
      have hsome := hfound.some rest' h
      rw [hcomponents] at hsome
      exact (append_cancel_left hsome).symm
    | none =>
      obtain ⟨h1, h2, h3⟩ := hfound.none h ⟨_, hcomponents.symm⟩
      rw [hcomponents] at h3
      have hnil : components isSlash rest = [] := append_right_eq_self.1 h3.symm
      by_cases hr : rest = []
      · rw [hr, append_nil] at h2
        cases h1.symm.trans h2
      · rw [endsSlash_append hr] at h2
        cases (endsSlash_of_all hr (components_eq_nil_iff.1 hnil)).symm.trans h2

/-- A root which is found byte by byte is found by its components. -/
theorem slow_of_fast (hf : r.fast path = some rest) :
    ∃ rest', r.slow path = some rest' ∧ components isSlash rest' = components isSlash rest := by
  unfold Root.fast at hf
  split at hf
  · rename_i h
    obtain ⟨hlen, htake, hlast⟩ := h
    obtain ⟨⟩ := hf
    have hpath : r.path ++ path.drop r.path.length = path := by
      conv_rhs => rw [← take_append_drop r.path.length path, htake]
    have hrest : path.drop r.path.length = [] ∨ startsSlash (path.drop r.path.length) = true := by
      rw [← head?_drop] at hlast
      cases hd : path.drop r.path.length with
      | nil => exact .inl rfl
      | cons a t =>
        rw [hd] at hlast
        exact .inr hlast
    obtain ⟨rest', hslow, hcomp⟩ := @psyncPathIsPrefixOf_append r.path _ hrest
    rw [hpath] at hslow
    refine ⟨rest', ?_, hcomp⟩
    cases r with
    | drive d => exact hslow
    | sync s => exact (if_pos hlen).trans hslow
  · cases hf

theorem prefix_of_slow (h : x.slow path = some rest) :
    components isSlash x.path <+: components isSlash path := by
  cases x with
  | drive d => exact components_prefix h
  | sync s =>
    have h : (if s.path.length ≤ path.length then psyncPathIsPrefixOf s.path path else none) =
      some rest := h
    split at h
    · exact components_prefix h
    · cases h

/-- `psync_path_is_prefix_of` is about components, for texts which both begin with a slash or both
    do not; an absolute path is no prefix of a relative one and conversely. The root which is found
    byte by byte is the one which is found by components, when no other one is above the path. -/
theorem psyncPathIsPrefixOf_iff : (∀ pre path : List UInt8, pre ≠ [] →
      (startsSlash pre = startsSlash path →
        (endsSlash pre = true → endsSlash path = true ∨
          components isSlash pre ≠ components isSlash path) →
        ((∃ rest, psyncPathIsPrefixOf pre path = some rest) ↔
          components isSlash pre <+: components isSlash path)) ∧
      (startsSlash pre ≠ startsSlash path → psyncPathIsPrefixOf pre path = none)) ∧
    (∀ pre path rest : List UInt8, psyncPathIsPrefixOf pre path = some rest →
      components isSlash path = components isSlash pre ++ components isSlash rest) ∧
    ∀ (drivePath : Option (List UInt8)) (syncs : List SyncEntry) (path rest : List UInt8)
      (r : Root),
      firstRoot (·.fast path) (roots drivePath syncs) = some (r, rest) →
      (∀ x ∈ roots drivePath syncs, components isSlash x.path <+: components isSlash path → x = r) →
      ∃ rest', firstRoot (Root.slow path) (roots drivePath syncs) = some (r, rest') ∧
        components isSlash rest' = components isSlash rest := by
  refine ⟨fun pre path hne => ⟨fun hstart hend => ⟨fun ⟨rest, h⟩ => components_prefix h,
    fun hprefix => ?_⟩, psyncPathIsPrefixOf_of_ne hne⟩, fun pre path rest h => ?_,
    fun drivePath syncs path rest r hfast hunique => ?_⟩
  · cases h : psyncPathIsPrefixOf pre path with
    | some rest => exact ⟨rest, rfl⟩
    | none =>
      obtain ⟨h1, h2, h3⟩ := (found hne hstart).none h hprefix
      rcases hend h1 with hpath | hdiff
      · cases h2.symm.trans hpath
      · exact absurd h3 hdiff
  · by_cases hne : pre = []
    · subst hne
      have hskip : skipCommon [] path = ([], path) := rfl
      rw [psyncPathIsPrefixOf_nil hskip] at h
      split at h
      · rw [some.inj h, components_nil, nil_append]
      · cases h
    · by_cases hstart : startsSlash pre = startsSlash path
      · exact (found hne hstart).some rest h
      · cases h.symm.trans (psyncPathIsPrefixOf_of_ne hne hstart)
  · obtain ⟨hr, hfast⟩ := firstRoot_some hfast
    obtain ⟨rest', hslow, hcomp⟩ := slow_of_fast hfast
    exact ⟨rest', firstRoot_of_unique hr hslow fun x hx rest hs =>
      hunique x hx (prefix_of_slow hs), hcomp⟩

end

/-- The drive at `/d//`, and `/d/a` and `/s/b` asked for, with a folder synced at `/s`. -/
theorem psyncPathIsPrefixOf_iff_drive :
    (∃ rest, psyncPathIsPrefixOf [47, 100, 47, 47] [47, 100, 47, 97] = some rest) ∧
    (components isSlash [47, 100, 47, 97] = components isSlash [47, 100, 47, 47] ++
      components isSlash [97]) ∧
    ∃ rest', firstRoot (Root.slow [47, 115, 47, 98])
        (roots (some [47, 100, 47, 47]) [⟨[47, 115], 5, 1, 0⟩]) =
      some (.sync ⟨[47, 115], 5, 1, 0⟩, rest') ∧
      components isSlash rest' = components isSlash [47, 98] := by
  refine ⟨?_, ?_, ?_⟩
  · exact ((psyncPathIsPrefixOf_iff.1 _ _ (by decide)).1 (by decide) (by decide)).2 (by decide)
  · have h1 : psyncPathIsPrefixOf [47, 100, 47, 47] [47, 100, 47, 97] =
        psyncPathIsPrefixOf [100, 47, 47] [100, 47, 97] :=
      psyncPathIsPrefixOf_cons (a := 47) (b := 47) (p := [100, 47, 47]) (q := [100, 47, 97]) rfl
    have h2 : psyncPathIsPrefixOf [100, 47, 47] [100, 47, 97] = some [97] :=
      psyncPathIsPrefixOf_cons (a := 47) (b := 47) (p := [47]) (q := [97]) rfl
    exact psyncPathIsPrefixOf_iff.2.1 _ _ _ (h1.trans h2)
  · exact psyncPathIsPrefixOf_iff.2.2 _ _ _ _ _ (by decide) (by decide)

/-- A leading slash is not ignored. -/
theorem not_psyncPathIsPrefixOf_relative : psyncPathIsPrefixOf [97] [47, 97, 47, 98] = none ∧
      components isSlash [97] <+: components isSlash [47, 97, 47, 98] :=
  ⟨psyncPathIsPrefixOf_of_ne (by decide) (by decide), by decide⟩

end Pclsync.PathStatus
