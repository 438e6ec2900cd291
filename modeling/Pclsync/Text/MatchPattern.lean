import Mathlib.Computability.Language
import Mathlib.Data.List.DropRight
import Pclsync.Http.Header

/-!
# Patterns of names

`psync_match_pattern` (`plibs.c`) compares a name with a pattern, in which `*` stands for any
characters and `?` for one. A star followed by a character is tried at one occurrence of this
character in the name after the other, with a call for what follows it in the pattern.

* `matchPattern`: the function, whose name and pattern are without their terminating zero.
* `language`: what a pattern means, as the product of the languages of its characters.
* `matchPattern_iff`: the function decides whether the name is in this language.
* `isLnameToIgnore_iff`: the names which the setting `ignorepatterns` excludes.
-/

namespace Pclsync.Text

open List

/-- A character of a string that ends with a zero. -/
abbrev Character := { c : UInt8 // c ≠ 0 }

/-- `*` -/
def star : Character := ⟨42, by decide⟩

/-- `?` -/
def questionMark : Character := ⟨63, by decide⟩

/-! ## The function -/

/-- The loop over the occurrences of a character, which `strchr` finds, with what is called for the
    name behind each of them. -/
def retry (c : Character) (call : List Character → Bool) : List Character → Bool
  | [] => false
  | d :: name => if d = c then call name || retry c call name else retry c call name

mutual

/-- `psync_match_pattern`, from some index of the pattern and of the name on. -/
def matchPattern : List Character → List Character → Bool
  | [], name => name.isEmpty
  | p :: pattern, name =>
    if p = star then matchStar pattern name
    else if name = [] ∨ some p ≠ name.head? ∧ p ≠ questionMark then false
    else matchPattern pattern name.tail
termination_by structural pattern => pattern

/-- The loop behind a star. -/
def matchStar : List Character → List Character → Bool
  | [], _ => true
  | p :: pattern, name =>
    if p = questionMark then if name = [] then false else matchStar pattern name.tail
    else if p = star then matchStar pattern name
    else retry p (fun name => matchPattern pattern name) name
termination_by structural pattern => pattern

end

/-! ## What a pattern means -/

/-- The names of one character. -/
def anyOne : Language Character := {name | name.length = 1}

/-- The names that a character of a pattern stands for. -/
def meaning (p : Character) : Language Character :=
  if p = star then ⊤ else if p = questionMark then anyOne else {[p]}

/-- The names that a pattern stands for. -/
def language (pattern : List Character) : Language Character := (pattern.map meaning).prod

variable {p : Character} {pattern name : List Character}

theorem mem_language_nil : name ∈ language [] ↔ name = [] := Language.mem_one name

theorem mem_language_cons : name ∈ language (p :: pattern) ↔
    ∃ a ∈ meaning p, ∃ b ∈ language pattern, a ++ b = name := by
  rw [language, map_cons, prod_cons]
  exact Language.mem_mul

theorem mem_language_star :
    name ∈ language (star :: pattern) ↔ ∃ rest, rest <:+ name ∧ rest ∈ language pattern := by
  rw [mem_language_cons, meaning, if_pos rfl]
  constructor
  · rintro ⟨a, -, rest, hrest, rfl⟩
    exact ⟨rest, suffix_append a rest, hrest⟩
  · rintro ⟨rest, ⟨a, rfl⟩, hrest⟩
    exact ⟨a, trivial, rest, hrest, rfl⟩

theorem questionMark_ne_star : questionMark ≠ star := by decide

theorem mem_language_questionMark : name ∈ language (questionMark :: pattern) ↔
    ∃ c rest, name = c :: rest ∧ rest ∈ language pattern := by
  rw [mem_language_cons, meaning, if_neg questionMark_ne_star, if_pos rfl]
  constructor
  · rintro ⟨a, ha, rest, hrest, rfl⟩
    obtain ⟨c, rfl⟩ := length_eq_one_iff.1 ha
    exact ⟨c, rest, rfl, hrest⟩
  · rintro ⟨c, rest, rfl, hrest⟩
    exact ⟨[c], rfl, rest, hrest, rfl⟩

theorem mem_language_character (hstar : p ≠ star) (hmark : p ≠ questionMark) :
    name ∈ language (p :: pattern) ↔ ∃ rest, name = p :: rest ∧ rest ∈ language pattern := by
  rw [mem_language_cons, meaning, if_neg hstar, if_neg hmark]
  constructor
  · rintro ⟨a, rfl, rest, hrest, rfl⟩
    exact ⟨rest, rfl, hrest⟩
  · rintro ⟨rest, rfl, hrest⟩
    exact ⟨[p], rfl, rest, hrest, rfl⟩

/-! ## The function decides it -/

theorem retry_iff {call : List Character → Bool} :
    retry p call name = true ↔ ∃ rest, p :: rest <:+ name ∧ call rest = true := by
  induction name with
  | nil => simp [retry]
  | cons d name ih =>
    have hcons : (∃ rest, p :: rest <:+ d :: name ∧ call rest = true) ↔
        (d = p ∧ call name = true) ∨ ∃ rest, p :: rest <:+ name ∧ call rest = true := by
      constructor
      · rintro ⟨rest, hrest, hcall⟩
        rcases suffix_cons_iff.1 hrest with heq | hrest
        · obtain ⟨rfl, rfl⟩ := cons.inj heq
          exact .inl ⟨rfl, hcall⟩
        · exact .inr ⟨rest, hrest, hcall⟩
      · rintro (⟨rfl, hcall⟩ | ⟨rest, hrest, hcall⟩)
        · exact ⟨name, suffix_rfl, hcall⟩
        · exact ⟨rest, hrest.trans (suffix_cons d name), hcall⟩
    rw [hcons, ← ih, retry]
    by_cases hd : d = p <;> simp [hd]

/-- What follows a star may begin anywhere in the name. -/
def MatchesBehindStar (pattern name : List Character) : Prop :=
  ∃ rest, rest <:+ name ∧ rest ∈ language pattern

theorem matches_nil : MatchesBehindStar [] name :=
  ⟨[], nil_suffix, mem_language_nil.2 rfl⟩

theorem matches_star :
    MatchesBehindStar (star :: pattern) name ↔ MatchesBehindStar pattern name := by
  constructor
  · rintro ⟨rest, hrest, hmem⟩
    obtain ⟨rest', hrest', hmem'⟩ := mem_language_star.1 hmem
    exact ⟨rest', hrest'.trans hrest, hmem'⟩
  · rintro ⟨rest, hrest, hmem⟩
    exact ⟨name, suffix_rfl, mem_language_star.2 ⟨rest, hrest, hmem⟩⟩

/-- A character for `?` can as well be taken from the beginning of the name. -/
theorem matches_questionMark : MatchesBehindStar (questionMark :: pattern) name ↔
    ∃ c rest, name = c :: rest ∧ MatchesBehindStar pattern rest := by
  constructor
  · rintro ⟨rest, ⟨a, rfl⟩, hmem⟩
    obtain ⟨c, rest, rfl, hrest⟩ := mem_language_questionMark.1 hmem
    rcases a with _ | ⟨d, a⟩
    · exact ⟨c, rest, rfl, rest, suffix_rfl, hrest⟩
    · exact ⟨d, a ++ c :: rest, rfl, rest, ⟨a ++ [c], by simp⟩, hrest⟩
  · rintro ⟨c, name, rfl, rest, ⟨a, rfl⟩, hrest⟩
    rcases eq_nil_or_concat a with rfl | ⟨a, d, rfl⟩
    · exact ⟨c :: rest, suffix_rfl, mem_language_questionMark.2 ⟨c, rest, rfl, hrest⟩⟩
    · exact ⟨d :: rest, ⟨c :: a, by simp⟩, mem_language_questionMark.2 ⟨d, rest, rfl, hrest⟩⟩

theorem matches_character (hstar : p ≠ star) (hmark : p ≠ questionMark) :
    MatchesBehindStar (p :: pattern) name ↔
      ∃ rest, p :: rest <:+ name ∧ rest ∈ language pattern := by
  constructor
  · rintro ⟨_, hsuffix, hmem⟩
    obtain ⟨rest, rfl, hrest⟩ := (mem_language_character hstar hmark).1 hmem
    exact ⟨rest, hsuffix, hrest⟩
  · rintro ⟨rest, hsuffix, hrest⟩
    exact ⟨_, hsuffix, (mem_language_character hstar hmark).2 ⟨rest, rfl, hrest⟩⟩

/-- The function and the loop behind a star call each other for the rest of the pattern. -/
theorem matches_iff (pattern : List Character) :
    (∀ name, matchPattern pattern name = true ↔ name ∈ language pattern) ∧
      ∀ name, matchStar pattern name = true ↔ MatchesBehindStar pattern name := by
  induction pattern with
  | nil =>
    refine ⟨fun name => ?_, fun name => iff_of_true rfl matches_nil⟩
    rw [matchPattern, List.isEmpty_iff, mem_language_nil]
  | cons p pattern ih =>
    obtain ⟨ihname, ihstar⟩ := ih
    refine ⟨fun name => ?_, fun name => ?_⟩
    · rw [matchPattern]
      by_cases hstar : p = star
      · rw [if_pos hstar, ihstar, hstar]
        exact mem_language_star.symm
      rw [if_neg hstar]
      by_cases hmark : p = questionMark
      · subst hmark
        rw [mem_language_questionMark]
        rcases name with _ | ⟨c, name⟩
        · simp
        · simp [ihname]
      · rw [mem_language_character hstar hmark]
        rcases name with _ | ⟨c, name⟩
        · simp
        · simp [hmark, ihname, @eq_comm _ c p]
    · rw [matchStar]
      by_cases hmark : p = questionMark
      · subst hmark
        rw [if_pos rfl, matches_questionMark]
        rcases name with _ | ⟨c, name⟩
        · simp
        · simp [ihstar]
      rw [if_neg hmark]
      by_cases hstar : p = star
      · rw [if_pos hstar, ihstar, hstar, matches_star]
      · rw [if_neg hstar, retry_iff, matches_character hstar hmark]
        simp only [ihname]

/-- The function returns, and what it returns is whether the name matches the pattern. -/
theorem matchPattern_iff (pattern name : List Character) :
    matchPattern pattern name = true ↔ name ∈ language pattern :=
  (matches_iff pattern).1 name

/-! ## Names to ignore -/

theorem tolower_ne_zero (c : Character) : Http.tolower c ≠ 0 := by
  rw [Http.tolower]
  split
  · exact fun h => absurd (congrArg UInt8.toNat h) (by grind)
  · exact c.2

/-- `tolower` -/
def tolower (c : Character) : Character := ⟨Http.tolower c, tolower_ne_zero c⟩

/-- `;` -/
def semicolon : Character := ⟨59, by decide⟩

/-- `isspace` -/
def isspace (c : Character) : Bool := Http.isspace c

/-- The loops over `pt` and `pl` that leave out white space. -/
def trim (pt : List Character) : List Character := (pt.dropWhile isspace).rdropWhile isspace

/-- The loop over the patterns. `pt` is what `memchr` has passed since the last semicolon. -/
def isIgnoredFrom (namelower pt : List Character) : List Character → Bool
  | [] => matchPattern (trim pt) namelower
  | c :: ign =>
    if c = semicolon then matchPattern (trim pt) namelower || isIgnoredFrom namelower [] ign
    else isIgnoredFrom namelower (pt ++ [c]) ign

/-- `psync_is_lname_to_ignore` -/
def isLnameToIgnore (ignorepatterns name : List Character) : Bool :=
  isIgnoredFrom (name.map tolower) [] ignorepatterns

/-- `lower_patterns` -/
def lowerPatterns (str : List Character) : List Character := str.map tolower

theorem tolower_eq_semicolon (c : Character) : tolower c = semicolon ↔ c = semicolon := by
  rw [Subtype.ext_iff, Subtype.ext_iff]
  change Http.tolower c = 59 ↔ c.1 = 59
  rw [Http.tolower]
  split <;> grind

theorem isspace_tolower (c : Character) : isspace (tolower c) = isspace c := by
  change Http.isspace (Http.tolower c) = Http.isspace c
  rw [Http.tolower]
  split <;> grind [Http.isspace]

theorem trim_map_tolower (pt : List Character) : trim (pt.map tolower) = (trim pt).map tolower := by
  have hspace : isspace ∘ tolower = isspace := funext isspace_tolower
  rw [trim, trim, dropWhile_map, hspace, rdropWhile, rdropWhile, ← map_reverse, dropWhile_map,
    hspace, map_reverse]

/-- The loop tries what is between two semicolons, one after the other. -/
theorem isIgnoredFrom_iff (namelower pt ign : List Character) :
    isIgnoredFrom namelower (pt.map tolower) (lowerPatterns ign) = true ↔
      ∃ piece ∈ (ign.splitOn semicolon).modifyHead (pt ++ ·),
        namelower ∈ language ((trim piece).map tolower) := by
  have hmatch (pt : List Character) : matchPattern (trim (pt.map tolower)) namelower = true ↔
      namelower ∈ language ((trim pt).map tolower) := by
    rw [trim_map_tolower]
    exact (matches_iff _).1 namelower
  induction ign generalizing pt with
  | nil => simp [lowerPatterns, isIgnoredFrom, hmatch]
  | cons c ign ih =>
    rw [lowerPatterns, map_cons, isIgnoredFrom, splitOn_cons_eq_if_modifyHead]
    obtain ⟨piece, pieces, hsplit⟩ := exists_cons_of_ne_nil (splitOn_ne_nil semicolon ign)
    rw [hsplit] at ih ⊢
    by_cases hc : c = semicolon
    · rw [if_pos ((tolower_eq_semicolon c).2 hc), if_pos (beq_iff_eq.2 hc), Bool.or_eq_true, hmatch]
      have hrest := ih []
      rw [map_nil, lowerPatterns] at hrest
      simp [hrest]
    · rw [if_neg (mt (tolower_eq_semicolon c).1 hc), if_neg (mt beq_iff_eq.1 hc)]
      have hrest := ih (pt ++ [c])
      rw [map_append] at hrest
      exact hrest.trans (by simp)

/-- A name is ignored when, apart from case, it matches what is between two semicolons of the
    setting, without the white space around it. -/
theorem isLnameToIgnore_iff (ignorepatterns name : List Character) :
    isLnameToIgnore (lowerPatterns ignorepatterns) name = true ↔
      ∃ piece ∈ ignorepatterns.splitOn semicolon,
        name.map tolower ∈ language ((trim piece).map tolower) := by
  obtain ⟨piece, pieces, hsplit⟩ := exists_cons_of_ne_nil (splitOn_ne_nil semicolon ignorepatterns)
  have hloop := isIgnoredFrom_iff (name.map tolower) [] ignorepatterns
  rwa [hsplit, modifyHead_cons, nil_append, ← hsplit] at hloop

end Pclsync.Text
