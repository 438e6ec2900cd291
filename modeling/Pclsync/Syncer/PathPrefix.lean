import Mathlib.Data.List.GetD
import Pclsync.Components

/-!
# Tests for parents of folders

`psync_str_is_prefix` and `psync_left_str_is_prefix` (`psyncer.c`) compare two paths byte by byte.
Slashes at the end of the first path do not count.

* `Within`: what the tests are about, the components of the paths.
* `psyncStrIsPrefix_eq_true_iff`, `psyncLeftStrIsPrefix_eq_true_iff`: what they test.
* `strIsPrefixRight_iff`: the first test is right where the longer path repeats the text of the
  shorter one.
* `leftStrIsPrefixRight_iff`: the second one also takes a folder for a parent when its name is the
  beginning of another one's.
-/

namespace Pclsync.Syncer

open List

/-! ## The functions -/

/-- `'/'`, which is also `PSYNC_DIRECTORY_SEPARATORC`. -/
def isSeparator (c : UInt8) : Bool := c == 47

/-- A character of a string, or its terminating zero. -/
def charAt (str : List UInt8) (i : ℕ) : UInt8 := str.getD i 0

/-- The loop that drops slashes at the end of the first path. -/
def trim (str : List UInt8) : ℕ → ℕ
  | 0 => 0
  | 1 => 1
  | n + 2 => if isSeparator (charAt str (n + 1)) then trim str (n + 1) else n + 2

/-- `psync_str_is_prefix` -/
def psyncStrIsPrefix (str1 str2 : List UInt8) : Bool :=
  let len1 := trim str1 str1.length
  let len2 := str2.length
  if len2 < len1 then
    if !isSeparator (charAt str1 len2) then false else str1.take len2 == str2.take len2
  else if !isSeparator (charAt str2 len1) then false
  else str1.take len1 == str2.take len1

/-- A byte of a string or of the memory behind it. -/
def byteAt (str : List UInt8) (behind : ℕ → UInt8) (i : ℕ) : UInt8 :=
  if i ≤ str.length then charAt str i else behind (i - str.length - 1)

/-- The loop that drops slashes at the end of the second path; it also looks at the first one. -/
def trimLeft (str1 str2 : List UInt8) (behind : ℕ → UInt8) : ℕ → ℕ
  | 0 => 0
  | 1 => 1
  | n + 2 =>
    if isSeparator (charAt str2 (n + 1)) || isSeparator (byteAt str1 behind (n + 1)) then
      trimLeft str1 str2 behind (n + 1)
    else n + 2

/-- `psync_left_str_is_prefix` -/
def psyncLeftStrIsPrefix (str1 str2 : List UInt8) (behind : ℕ → UInt8) : Bool :=
  let len1 := trim str1 str1.length
  let len2 := trimLeft str1 str2 behind str2.length
  if len2 < len1 then false else str1.take len1 == str2.take len1

/-! ## The first path without slashes at its end -/

variable {str str1 str2 u : List UInt8} {n i : ℕ} {c : UInt8} {behind : ℕ → UInt8}

/-- The first path as it is compared. -/
def trimmed (str : List UInt8) : List UInt8 := str.take (trim str str.length)

theorem trim_le (str : List UInt8) (n : ℕ) : trim str n ≤ n := by
  induction n using trim.induct str with
  | case1 => exact Nat.le_refl 0
  | case2 => exact Nat.le_refl 1
  | case3 n hsep ih =>
    rw [trim, if_pos hsep]
    exact Nat.le_succ_of_le ih
  | case4 n hsep =>
    exact Nat.le_of_eq (by rw [trim, if_neg hsep])

theorem trim_pos (str : List UInt8) (hn : 0 < n) : 0 < trim str n := by
  induction n using trim.induct str with
  | case1 => exact absurd hn (Nat.lt_irrefl 0)
  | case2 => exact Nat.one_pos
  | case3 n hsep ih =>
    rw [trim, if_pos hsep]
    exact ih (Nat.succ_pos n)
  | case4 n hsep =>
    rw [trim, if_neg hsep]
    exact Nat.succ_pos _

theorem isSeparator_of_trim_le (str : List UInt8) (hi : trim str n ≤ i) (hn : i < n) :
    isSeparator (charAt str i) = true := by
  induction n using trim.induct str with
  | case1 => exact absurd hn (Nat.not_lt_zero i)
  | case2 =>
    rw [trim] at hi
    omega
  | case3 n hsep ih =>
    rw [trim, if_pos hsep] at hi
    rcases Nat.lt_succ_iff_lt_or_eq.1 hn with hlt | rfl
    · exact ih hi hlt
    · exact hsep
  | case4 n hsep =>
    rw [trim, if_neg hsep] at hi
    omega

theorem trim_eq_one_or (str : List UInt8) (hn : 0 < n) :
    trim str n = 1 ∨ isSeparator (charAt str (trim str n - 1)) = false := by
  induction n using trim.induct str with
  | case1 => exact absurd hn (Nat.lt_irrefl 0)
  | case2 => exact .inl rfl
  | case3 n hsep ih =>
    rw [trim, if_pos hsep]
    exact ih (Nat.succ_pos n)
  | case4 n hsep =>
    rw [trim, if_neg hsep]
    exact .inr (Bool.eq_false_iff.2 hsep)

theorem length_trimmed (str : List UInt8) : (trimmed str).length = trim str str.length :=
  length_take_of_le (trim_le str str.length)

theorem prefix_trimmed (str : List UInt8) : trimmed str <+: str := take_prefix _ _

theorem exists_trimmed_append (str : List UInt8) :
    ∃ w, str = trimmed str ++ w ∧ ∀ a ∈ w, isSeparator a = true := by
  refine ⟨str.drop (trim str str.length), (take_append_drop _ _).symm, fun a ha => ?_⟩
  obtain ⟨i, hi, rfl⟩ := mem_iff_getElem.1 ha
  rw [length_drop] at hi
  rw [getElem_drop]
  have hsep := isSeparator_of_trim_le str (n := str.length)
    (i := trim str str.length + i) (Nat.le_add_right _ _) (by omega)
  rwa [charAt, getD_eq_getElem _ _ (by omega)] at hsep

/-- What is left is one character, or ends with a name. -/
theorem trimmed_eq (hne : str ≠ []) :
    (∃ c, trimmed str = [c]) ∨ ∃ u c, trimmed str = u ++ [c] ∧ isSeparator c = false := by
  have hlen := length_pos_of_ne_nil hne
  have hpos := trim_pos str hlen
  have htlen := length_trimmed str
  have htne : trimmed str ≠ [] := ne_nil_of_length_pos (htlen.symm ▸ hpos)
  rcases trim_eq_one_or str hlen with hone | hlast
  · rw [hone] at htlen
    exact .inl (length_eq_one_iff.1 htlen)
  · refine .inr ⟨(trimmed str).dropLast, (trimmed str).getLast htne,
      (dropLast_append_getLast htne).symm, ?_⟩
    have hlt : trim str str.length - 1 < str.length := by
      have := trim_le str str.length
      omega
    rw [charAt, getD_eq_getElem _ _ hlt] at hlast
    have hget : (trimmed str).getLast htne = str[trim str str.length - 1] := by
      simp only [getLast_eq_getElem, htlen]
      exact getElem_take
    rw [hget]
    exact hlast

theorem components_trimmed (str : List UInt8) :
    components isSeparator (trimmed str) = components isSeparator str := by
  obtain ⟨w, hw, hsep⟩ := exists_trimmed_append str
  conv_rhs => rw [hw]
  exact (components_append_seps hsep _).symm

/-! ## What is tested -/

theorem charAt_append (u v : List UInt8) : charAt (u ++ v) u.length = charAt v 0 := by
  rw [charAt, charAt, getD_append_right _ _ _ _ (Nat.le_refl _), Nat.sub_self]

theorem isSeparator_charAt_iff : isSeparator (charAt str 0) = true ↔ ∃ t, str = 47 :: t := by
  cases str with
  | nil => exact ⟨fun h => (by cases h), fun ⟨t, h⟩ => (by cases h)⟩
  | cons c str =>
    refine ⟨fun h => ⟨str, ?_⟩, fun ⟨t, h⟩ => ?_⟩
    · have hc : c = 47 := beq_iff_eq.1 h
      rw [hc]
    · rw [h]
      rfl

/-- One of the texts, the first one without slashes at its end, goes on with a slash behind the
    other one. -/
theorem psyncStrIsPrefix_eq_true_iff : psyncStrIsPrefix str1 str2 = true ↔
    (trimmed str1 ++ [47]) <+: str2 ∨ (str2 ++ [47]) <+: trimmed str1 := by
  have hlen := length_trimmed str1
  have htake : str1.take (trim str1 str1.length) = trimmed str1 := rfl
  obtain ⟨w, hw, -⟩ := exists_trimmed_append str1
  rw [psyncStrIsPrefix]
  split
  · next hlt =>
    -- the second path is shorter
    rw [← hlen] at hlt
    have hchar : charAt str1 str2.length = charAt (trimmed str1) str2.length := by
      rw [charAt, charAt, hw, getD_append _ _ _ _ hlt, ← hw]
    have htaken : str1.take str2.length = (trimmed str1).take str2.length := by
      conv_lhs => rw [hw]
      exact take_append_of_le_length (Nat.le_of_lt hlt)
    rw [hchar, htaken, take_length]
    have hnot : ¬(trimmed str1 ++ [47]) <+: str2 := by
      intro h
      have hle := h.length_le
      rw [length_append] at hle
      omega
    rw [or_iff_right hnot]
    constructor
    · intro h
      split at h
      · cases h
      · next hsep =>
        rw [Bool.not_eq_true', Bool.not_eq_false] at hsep
        have hpre : trimmed str1 = str2 ++ (trimmed str1).drop str2.length := by
          conv_lhs => rw [← take_append_drop str2.length (trimmed str1), beq_iff_eq.1 h]
        rw [hpre, charAt_append, isSeparator_charAt_iff] at hsep
        obtain ⟨t, ht⟩ := hsep
        rw [hpre, ht]
        exact ⟨t, by rw [append_assoc]; rfl⟩
    · rintro ⟨t, ht⟩
      have hchar : charAt ([47] ++ t) 0 = 47 := rfl
      rw [← ht, append_assoc, charAt_append, take_left, hchar, if_neg (by decide)]
      exact beq_self_eq_true str2
  · next hge =>
    rw [← hlen] at hge
    have hle := Nat.not_lt.1 hge
    rw [htake, ← hlen]
    have hnot : ¬(str2 ++ [47]) <+: trimmed str1 := by
      intro h
      have hle' := h.length_le
      rw [length_append, length_singleton] at hle'
      omega
    rw [or_iff_left hnot]
    constructor
    · intro h
      split at h
      · cases h
      · next hsep =>
        rw [Bool.not_eq_true', Bool.not_eq_false] at hsep
        have hpre : str2 = trimmed str1 ++ str2.drop (trimmed str1).length := by
          conv_lhs => rw [← take_append_drop (trimmed str1).length str2, ← beq_iff_eq.1 h]
        rw [hpre, charAt_append, isSeparator_charAt_iff] at hsep
        obtain ⟨t, ht⟩ := hsep
        rw [hpre, ht]
        exact ⟨t, by rw [append_assoc]; rfl⟩
    · rintro ⟨t, rfl⟩
      have hchar : charAt ([47] ++ t) 0 = 47 := rfl
      rw [append_assoc, charAt_append, take_left, hchar, if_neg (by decide)]
      exact beq_self_eq_true (trimmed str1)

/-- The second path is not cut into the first one, when it begins with it. -/
theorem trim_le_trimLeft (behind : ℕ → UInt8) (hpre : trimmed str1 <+: str2) (hne : str1 ≠ [])
    (hn : trim str1 str1.length ≤ n) :
    trim str1 str1.length ≤ trimLeft str1 str2 behind n := by
  have hpos := trim_pos str1 (length_pos_of_ne_nil hne)
  induction n using trimLeft.induct str1 str2 behind with
  | case1 | case2 => exact hn
  | case3 n hsep ih =>
    rw [trimLeft, if_pos hsep]
    refine ih ?_
    by_contra hlt
    have hend : trim str1 str1.length = n + 2 := by omega
    have hlast := trim_eq_one_or str1 (length_pos_of_ne_nil hne)
    rw [hend] at hlast
    have hchar : isSeparator (charAt str1 (n + 1)) = false := hlast.resolve_left (by omega)
    have hle := trim_le str1 str1.length
    have hsame : charAt str2 (n + 1) = charAt str1 (n + 1) := by
      obtain ⟨t, rfl⟩ := hpre
      obtain ⟨w, hw, -⟩ := exists_trimmed_append str1
      have hlen : n + 1 < (trimmed str1).length := by
        rw [length_trimmed]
        omega
      conv_rhs => rw [hw]
      rw [charAt, charAt, getD_append _ _ _ _ hlen, getD_append _ _ _ _ hlen]
    rw [hsame, hchar, byteAt, if_pos (by omega), hchar] at hsep
    cases hsep
  | case4 n hsep =>
    rwa [trimLeft, if_neg hsep]

/-- The second text begins with the first one, without slashes at its end. -/
theorem psyncLeftStrIsPrefix_eq_true_iff (hne : str1 ≠ []) :
    psyncLeftStrIsPrefix str1 str2 behind = true ↔ trimmed str1 <+: str2 := by
  have hlen := length_trimmed str1
  have htake : str1.take (trim str1 str1.length) = trimmed str1 := rfl
  rw [psyncLeftStrIsPrefix]
  split
  · next hlt =>
    refine ⟨fun h => (by cases h), fun h => ?_⟩
    have hle := trim_le_trimLeft behind h hne (hlen ▸ h.length_le)
    omega
  · rw [htake, beq_iff_eq, ← hlen]
    exact prefix_iff_eq_take.symm

/-! ## Components -/

/-- An absolute path. -/
def IsAbsolute (str : List UInt8) : Prop := ∃ t, str = 47 :: t

/-- The second path is the first one or inside of it. -/
def Within (str1 str2 : List UInt8) : Prop :=
  components isSeparator str1 <+: components isSeparator str2

/-- The second path is inside of the first one. -/
def Inside (str1 str2 : List UInt8) : Prop := Within str1 str2 ∧ ¬Within str2 str1

theorem isSeparator_slash : isSeparator 47 = true := rfl

/-- A path that goes on with a slash behind another one is within it. -/
theorem within_of_append (h : (u ++ [47]) <+: str) : Within u str := by
  obtain ⟨t, rfl⟩ := h
  rw [Within, append_assoc, singleton_append, components_append_cons isSeparator_slash]
  exact prefix_append _ _

theorem within_trimmed_left : Within (trimmed str1) str2 ↔ Within str1 str2 := by
  rw [Within, Within, components_trimmed]

theorem within_trimmed_right : Within str1 (trimmed str2) ↔ Within str1 str2 := by
  rw [Within, Within, components_trimmed]

/-- A test that finds something has found paths one of which is within the other. -/
theorem within_of_psyncStrIsPrefix (h : psyncStrIsPrefix str1 str2 = true) :
    Within str1 str2 ∨ Within str2 str1 := by
  rcases psyncStrIsPrefix_eq_true_iff.1 h with h | h
  · exact .inl (within_trimmed_left.1 (within_of_append h))
  · exact .inr (within_trimmed_right.1 (within_of_append h))

/-- What is asked of the first test. -/
structure StrIsPrefixRight (str1 str2 : List UInt8) : Prop where
  found : Inside str1 str2 ∨ Inside str2 str1 → psyncStrIsPrefix str1 str2 = true
  not_found : ¬Within str1 str2 → ¬Within str2 str1 → psyncStrIsPrefix str1 str2 = false

/-- A path inside another one repeats its text, with a slash behind it; slashes at the end of the
    first path do not count. -/
structure RepeatsText (str1 str2 : List UInt8) : Prop where
  left : Inside str1 str2 → (trimmed str1 ++ [47]) <+: str2
  right : Inside str2 str1 → (str2 ++ [47]) <+: str1

/-- Slashes at the end do not matter for a path that has something inside of it. -/
theorem append_prefix_trimmed (h : (str2 ++ [47]) <+: str1) (hin : Inside str2 str1) :
    (str2 ++ [47]) <+: trimmed str1 := by
  obtain ⟨w, hw, hsep⟩ := exists_trimmed_append str1
  rcases prefix_or_prefix_of_prefix h (prefix_trimmed str1) with hpre | hpre
  · exact hpre
  rcases prefix_concat_iff.1 hpre with heq | hpre
  · exact heq ▸ prefix_rfl
  · -- otherwise only slashes follow, and the paths are the same
    obtain ⟨x, rfl⟩ := hpre
    rw [append_assoc] at h
    conv_rhs at h => rw [hw]
    rw [prefix_append_right_inj] at h
    have hx : ∀ a ∈ x, isSeparator a = true := fun a ha =>
      hsep a (h.subset (mem_append_left _ ha))
    refine absurd ?_ hin.2
    rw [← within_trimmed_left, Within]
    exact (components_append_seps hx _) ▸ prefix_rfl

theorem strIsPrefixRight_iff : StrIsPrefixRight str1 str2 ↔ RepeatsText str1 str2 := by
  constructor
  · intro h
    constructor
    · intro hin
      rcases psyncStrIsPrefix_eq_true_iff.1 (h.found (.inl hin)) with hpre | hpre
      · exact hpre
      · exact absurd (within_trimmed_right.1 (within_of_append hpre)) hin.2
    · intro hin
      rcases psyncStrIsPrefix_eq_true_iff.1 (h.found (.inr hin)) with hpre | hpre
      · exact absurd (within_trimmed_left.1 (within_of_append hpre)) hin.2
      · exact hpre.trans (prefix_trimmed str1)
  · intro h
    constructor
    · rintro (hin | hin)
      · exact psyncStrIsPrefix_eq_true_iff.2 (.inl (h.left hin))
      · exact psyncStrIsPrefix_eq_true_iff.2 (.inr (append_prefix_trimmed (h.right hin) hin))
    · intro h1 h2
      rw [Bool.eq_false_iff]
      intro htest
      exact (within_of_psyncStrIsPrefix htest).elim h1 h2

/-! ## The second test -/

/-- What is asked of the second test, whatever is in the memory behind the first path. -/
def LeftStrIsPrefixRight (str1 str2 : List UInt8) : Prop :=
  ∀ behind, psyncLeftStrIsPrefix str1 str2 behind = true ↔ Within str1 str2

/-- The second path goes on with another character of a name where the first one ends. -/
def GoesOn (str1 str2 : List UInt8) : Prop :=
  ∃ u c d t, trimmed str1 = u ++ [c] ∧ isSeparator c = false ∧
    str2 = trimmed str1 ++ d :: t ∧ isSeparator d = false

/-- A path begins with the text of what it is within, and does not go on with a name there. -/
structure BeginsWithText (str1 str2 : List UInt8) : Prop where
  repeats : Within str1 str2 → trimmed str1 <+: str2
  ends : ¬GoesOn str1 str2

theorem IsAbsolute.ne_nil (h : IsAbsolute str) : str ≠ [] := by
  obtain ⟨t, rfl⟩ := h
  exact cons_ne_nil 47 t

/-- The text of an absolute path is the root, or ends with a name. -/
theorem IsAbsolute.trimmed_eq (h : IsAbsolute str) :
    trimmed str = [47] ∨ ∃ u c, trimmed str = u ++ [c] ∧ isSeparator c = false := by
  rcases Pclsync.Syncer.trimmed_eq h.ne_nil with ⟨c, hc⟩ | hname
  · left
    obtain ⟨t, rfl⟩ := h
    obtain ⟨w, hw, -⟩ := exists_trimmed_append (47 :: t)
    rw [hc, singleton_append, cons.injEq] at hw
    rw [hc, hw.1]
  · exact .inr hname

/-- A text that repeats a path and does not go on with a name is within it. -/
theorem within_iff_of_trimmed (h1 : IsAbsolute str1) (h : trimmed str1 <+: str2) :
    Within str1 str2 ↔ ¬GoesOn str1 str2 := by
  obtain ⟨r, rfl⟩ := h
  rcases h1.trimmed_eq with hroot | ⟨u, c, hu, hc⟩
  · have hwithin : Within str1 (trimmed str1 ++ r) := by
      rw [← within_trimmed_left, Within, hroot, components_cons_of_sep isSeparator_slash,
        components_nil]
      exact nil_prefix
    refine ⟨fun _ => ?_, fun _ => hwithin⟩
    rintro ⟨u, c, d, t, hu, hc, -, -⟩
    rw [hroot] at hu
    have hlast := congrArg getLast? hu
    rw [getLast?_concat] at hlast
    obtain ⟨⟩ := hlast
    cases hc
  · rw [← within_trimmed_left, Within, hu, components_prefix_append_iff hc]
    constructor
    · rintro h ⟨-, -, d, t, -, -, hr, hd⟩
      rw [hu, append_cancel_left_eq] at hr
      rw [h d (by rw [hr]; rfl)] at hd
      cases hd
    · intro h d hd
      by_contra hsep
      obtain ⟨t, rfl⟩ := head?_eq_some_iff.1 hd
      exact h ⟨u, c, d, t, hu, hc, by rw [hu], Bool.eq_false_iff.2 hsep⟩

theorem GoesOn.prefix (h : GoesOn str1 str2) : trimmed str1 <+: str2 := by
  obtain ⟨-, -, d, t, -, -, rfl, -⟩ := h
  exact prefix_append _ _

theorem leftStrIsPrefixRight_iff (h1 : IsAbsolute str1) :
    LeftStrIsPrefixRight str1 str2 ↔ BeginsWithText str1 str2 := by
  have htest : ∀ behind, psyncLeftStrIsPrefix str1 str2 behind = true ↔ trimmed str1 <+: str2 :=
    fun _ => psyncLeftStrIsPrefix_eq_true_iff h1.ne_nil
  constructor
  · intro h
    have hwithin := (htest fun _ => 0).symm.trans (h fun _ => 0)
    refine ⟨hwithin.2, fun hgo => ?_⟩
    exact (within_iff_of_trimmed h1 hgo.prefix).1 (hwithin.1 hgo.prefix) hgo
  · intro h behind
    rw [htest]
    exact ⟨fun hpre => (within_iff_of_trimmed h1 hpre).2 h.ends, h.repeats⟩

end Pclsync.Syncer
