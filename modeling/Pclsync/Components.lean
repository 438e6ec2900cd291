import Mathlib.Data.List.Basic
import Mathlib.Data.List.Induction

/-!
# Components of a path

The parts of a list between separators, where a run of separators counts as one and separators at
the ends do not count.

* `components_cons_of_sep`, `components_word_append`: a separator adds nothing; a word in front goes
  on with what is before the next separator.
* `components_append_cons`: a text which is continued after a separator.
* `components_eq_nil_iff`, `components_append_seps`: only separators, and separators at the end.
* `components_prefix_append_iff`: a text that goes on behind a word has the same components at its
  beginning only when it goes on with a separator.
-/

namespace Pclsync

open List

variable {α : Type*} (sep : α → Bool)

/-- The nonempty parts between separators. -/
def components (l : List α) : List (List α) := (l.splitOnP sep).filter fun c => !c.isEmpty

/-- What is before the first separator. -/
def firstWord (l : List α) : List α := l.takeWhile fun a => !sep a

/-- The list from its first separator on. -/
def afterWord (l : List α) : List α := l.dropWhile fun a => !sep a

variable {sep} {a : α} {l w : List α}

@[simp] theorem components_nil : components sep [] = [] := by
  rw [components, splitOnP_nil]
  rfl

theorem components_cons_of_sep (h : sep a = true) : components sep (a :: l) = components sep l := by
  rw [components, splitOnP_cons_eq_if_modifyHead, if_pos h]
  rfl

theorem exists_splitOnP (l : List α) : ∃ t, l.splitOnP sep = firstWord sep l :: t ∧
    t.filter (fun c => !c.isEmpty) = components sep (afterWord sep l) := by
  induction l with
  | nil => exact ⟨[], splitOnP_nil, components_nil.symm⟩
  | cons a l ih =>
    rw [splitOnP_cons_eq_if_modifyHead]
    by_cases h : sep a = true
    · have hword : firstWord sep (a :: l) = [] := by simp [firstWord, h]
      have hafter : afterWord sep (a :: l) = a :: l := by simp [afterWord, h]
      rw [if_pos h, hword, hafter, components_cons_of_sep h]
      exact ⟨_, rfl, rfl⟩
    · obtain ⟨t, ht, hfilter⟩ := ih
      have hword : firstWord sep (a :: l) = a :: firstWord sep l := by simp [firstWord, h]
      have hafter : afterWord sep (a :: l) = afterWord sep l := by simp [afterWord, h]
      rw [if_neg h, ht, hword, hafter]
      exact ⟨t, rfl, hfilter⟩

theorem components_cons_of_not_sep (h : sep a = false) :
    components sep (a :: l) = (a :: firstWord sep l) :: components sep (afterWord sep l) := by
  obtain ⟨t, ht, hfilter⟩ := @exists_splitOnP _ sep l
  rw [components, splitOnP_cons_eq_if_modifyHead, if_neg (by rw [h]; exact Bool.false_ne_true),
    ht, ← hfilter]
  rfl

theorem components_word_append (hw : ∀ a ∈ w, sep a = false) (hne : w ≠ []) (l : List α) :
    components sep (w ++ l) = (w ++ firstWord sep l) :: components sep (afterWord sep l) := by
  induction w with
  | nil => exact absurd rfl hne
  | cons a w ih =>
    have ha := hw a mem_cons_self
    have hword : firstWord sep (w ++ l) = w ++ firstWord sep l := by
      rw [firstWord, takeWhile_append_of_pos fun b hb => by
        rw [hw b (mem_cons_of_mem a hb)]; rfl]
      rfl
    have hafter : afterWord sep (w ++ l) = afterWord sep l := by
      rw [afterWord, dropWhile_append_of_pos fun b hb => by
        rw [hw b (mem_cons_of_mem a hb)]; rfl]
      rfl
    rw [cons_append, components_cons_of_not_sep ha, hword, hafter]
    rfl

theorem components_dropWhile (l : List α) :
    components sep (l.dropWhile sep) = components sep l := by
  induction l with
  | nil => rfl
  | cons a l ih =>
    by_cases h : sep a = true
    · rw [dropWhile_cons_of_pos h, ih, components_cons_of_sep h]
    · rw [dropWhile_cons_of_neg h]

/-- A text which is continued after a separator. -/
theorem components_append_cons {r : List α} (ha : sep a = true) (l : List α) :
    components sep (l ++ a :: r) = components sep l ++ components sep r := by
  induction hn : l.length using Nat.strongRecOn generalizing l with
  | ind n ih =>
    cases l with
    | nil => rw [nil_append, components_cons_of_sep ha, components_nil, nil_append]
    | cons b l =>
      rw [length_cons] at hn
      by_cases hb : sep b = true
      · rw [cons_append, components_cons_of_sep hb, components_cons_of_sep hb,
          ih l.length (by omega) l rfl]
      · have hword : firstWord sep (l ++ a :: r) = firstWord sep l := by
          rw [firstWord, takeWhile_append]
          split
          · rename_i hlen
            rw [takeWhile_cons_of_neg (by simp [ha]), append_nil]
            have hpre : l.takeWhile (fun b => !sep b) <+: l := takeWhile_prefix _
            exact (hpre.eq_of_length hlen).symm
          · rfl
        have hafter : afterWord sep (l ++ a :: r) = afterWord sep l ++ a :: r := by
          rw [afterWord, dropWhile_append]
          split
          · rename_i hnil
            rw [dropWhile_cons_of_neg (by simp [ha]), afterWord,
              isEmpty_iff.1 hnil, nil_append]
          · rfl
        have hlen : (afterWord sep l).length ≤ l.length :=
          (dropWhile_sublist _).length_le
        rw [cons_append, components_cons_of_not_sep (Bool.eq_false_iff.2 hb), hword, hafter,
          ih _ (by omega) _ rfl, components_cons_of_not_sep (Bool.eq_false_iff.2 hb)]
        rfl

theorem components_eq_nil_iff : components sep l = [] ↔ ∀ a ∈ l, sep a = true := by
  induction l with
  | nil => simp
  | cons a l ih =>
    by_cases h : sep a = true
    · rw [components_cons_of_sep h, ih]
      simp [h]
    · rw [components_cons_of_not_sep (Bool.eq_false_iff.2 h)]
      simp [h]

theorem components_append_seps (h : ∀ a ∈ w, sep a = true) (l : List α) :
    components sep (l ++ w) = components sep l := by
  cases w with
  | nil => rw [append_nil]
  | cons a w =>
    rw [forall_mem_cons] at h
    rw [components_append_cons h.1, components_eq_nil_iff.2 h.2, append_nil]

/-- A list is a part up to its last separator and a word. -/
theorem exists_lastWord (sep : α → Bool) (l : List α) :
    ∃ p w, l = p ++ w ∧ (∀ a ∈ p.getLast?, sep a = true) ∧ ∀ a ∈ w, sep a = false := by
  induction l using reverseRecOn with
  | nil => exact ⟨[], [], rfl, fun _ h => (by cases h), fun _ h => (by cases h)⟩
  | append_singleton l c ih =>
    obtain ⟨p, w, rfl, hp, hw⟩ := ih
    by_cases hc : sep c = true
    · refine ⟨p ++ w ++ [c], [], (append_nil _).symm, fun a ha => ?_, fun _ h => (by cases h)⟩
      rw [getLast?_concat] at ha
      rwa [← Option.some.inj ha]
    · refine ⟨p, w ++ [c], append_assoc _ _ _, hp, fun a ha => ?_⟩
      rcases mem_append.1 ha with ha | ha
      · exact hw a ha
      · rw [mem_singleton.1 ha]
        exact Bool.eq_false_iff.2 hc

/-- What is before a last word does not change its components. -/
theorem components_append_word {p : List α} (hp : ∀ a ∈ p.getLast?, sep a = true)
    (hw : ∀ a ∈ w, sep a = false) (hne : w ≠ []) (l : List α) :
    components sep (p ++ (w ++ l)) =
      components sep p ++ (w ++ firstWord sep l) :: components sep (afterWord sep l) := by
  have hword := components_word_append hw hne l
  rcases p.eq_nil_or_concat' with rfl | ⟨q, a, rfl⟩
  · rw [nil_append, components_nil, nil_append, hword]
  · have ha : sep a = true := hp a getLast?_concat
    rw [append_assoc, singleton_append, components_append_cons ha,
      components_append_cons ha, components_nil, append_nil, hword]

/-- A text that ends with a word, and one that goes on behind it. -/
theorem components_prefix_append_iff {c : α} (hc : sep c = false) (u r : List α) :
    components sep (u ++ [c]) <+: components sep (u ++ [c] ++ r) ↔ ∀ a ∈ r.head?, sep a = true := by
  cases r with
  | nil =>
    rw [append_nil]
    exact ⟨fun _ a ha => (by cases ha), fun _ => prefix_rfl⟩
  | cons a r =>
    constructor
    · intro h b hb
      obtain ⟨⟩ := hb
      by_contra ha
      have ha := Bool.eq_false_iff.2 ha
      obtain ⟨p, w, hsplit, hp, hw⟩ := exists_lastWord sep (u ++ [c])
      have hne : w ≠ [] := by
        rintro rfl
        rw [append_nil] at hsplit
        have hlast := hp c (hsplit ▸ getLast?_concat)
        rw [hc] at hlast
        cases hlast
      have hshort := components_append_word hp hw hne []
      rw [append_nil, ← hsplit] at hshort
      rw [hshort, hsplit, append_assoc, components_append_word hp hw hne,
        prefix_append_right_inj, cons_prefix_cons] at h
      have hword := append_cancel_left h.1
      rw [firstWord, firstWord, takeWhile_nil, takeWhile_cons_of_pos (by rw [ha]; rfl)]
        at hword
      cases hword
    · intro h
      rw [components_append_cons (h a rfl)]
      exact prefix_append _ _

end Pclsync
