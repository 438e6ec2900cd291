import Mathlib.Algebra.Order.Group.Nat
import Mathlib.Data.List.Basic

/-!
# Hierarchical timing wheels

A wheel has levels of `b` slots each. An item with the key `k` is at the level `l` in the slot
`k / b ^ l % b`, which is due at the time `b ^ l * (k / b ^ l)`, its *start*. At a time divisible by
`b ^ (l + 1)` the slot of the level above which is due is emptied into the level `l` (`cascade`);
then the slot of the lowest level holds what is due.

The slots are one list of items with their places, in which a slot is a sublist.

* `Placed`: an entry is in its slot, and this slot is due next at its start.
* `Settled.cascade`: a level is emptied of what is due now.
* `Settled.at_iff`: when all higher levels are, the slot of the lowest level holds the items
  with the key now.
-/

namespace Pclsync

open List

namespace TimingWheel

/-- An item in a slot. -/
structure Entry (α : Type*) where
  level : ℕ
  slot : ℕ
  item : α

variable {α : Type*}

/-- The entry is in the slot. -/
def Entry.at (e : Entry α) (level slot : ℕ) : Bool :=
  decide (e.level = level) && decide (e.slot = slot)

theorem Entry.at_iff {e : Entry α} {level slot : ℕ} :
    e.at level slot = true ↔ e.level = level ∧ e.slot = slot := by
  rw [Entry.at, Bool.and_eq_true, decide_eq_true_iff, decide_eq_true_iff]

/-- A slot of the level above is emptied into the level `l`, where `place` gives the new slots. -/
def cascade (place : α → ℕ) (l m : ℕ) (es : List (Entry α)) : List (Entry α) :=
  es.filter (fun e => !e.at (l + 1) m) ++
    (es.filter fun e => e.at (l + 1) m).map fun e => ⟨l, place e.item, e.item⟩

theorem items_cascade (place : α → ℕ) (l m : ℕ) (es : List (Entry α)) :
    ((cascade place l m es).map Entry.item).Perm (es.map Entry.item) := by
  rw [cascade, map_append, map_map]
  refine perm_append_comm.trans ?_
  have hmap : (fun e : Entry α => e.item) ∘ (fun e => ⟨l, place e.item, e.item⟩) = Entry.item := rfl
  rw [hmap, ← map_append]
  exact (filter_append_perm _ es).map _

variable {b w l : ℕ} {key : α → ℕ} {e : Entry α} {es : List (Entry α)}

/-- The time when the slot of the entry is due. -/
def Entry.start (b : ℕ) (key : α → ℕ) (e : Entry α) : ℕ :=
  b ^ e.level * (key e.item / b ^ e.level)

/-- An entry in its slot which will be due, after the time `w`, at the start of the entry. -/
structure Placed (b : ℕ) (key : α → ℕ) (w : ℕ) (e : Entry α) : Prop where
  slot_eq : e.slot = key e.item / b ^ e.level % b
  lt : w < e.start b key
  le : e.start b key ≤ w + b ^ (e.level + 1)

theorem Entry.start_le : e.start b key ≤ key e.item := Nat.mul_div_le _ _

theorem Entry.lt_start_add (hb : 0 < b) : key e.item < e.start b key + b ^ e.level := by
  have hmod := Nat.mod_lt (key e.item) (Nat.pow_pos (n := e.level) hb)
  have hdiv := Nat.div_add_mod (key e.item) (b ^ e.level)
  rw [Entry.start]
  omega

/-- A slot which is due holds entries which start now. -/
theorem Placed.start_eq (h : Placed b key w e) (hb : 0 < b) (hd : b ^ e.level ∣ w + 1)
    (hs : e.slot = (w + 1) / b ^ e.level % b) : e.start b key = w + 1 := by
  obtain ⟨u, hu⟩ := hd
  have hpos : 0 < b ^ e.level := Nat.pow_pos hb
  have hlt := h.lt
  have hle := h.le
  rw [h.slot_eq, hu, Nat.mul_div_cancel_left _ hpos] at hs
  rw [Entry.start, Nat.pow_succ] at hle
  rw [Entry.start] at hlt ⊢
  rw [hu]
  generalize key e.item / b ^ e.level = q at *
  -- between two turns of the wheel there is one time for a slot
  have hmul : b ^ e.level * u ≤ b ^ e.level * q := by omega
  have huq : u ≤ q := Nat.le_of_mul_le_mul_left hmul hpos
  have hqu : q < u + b := by
    refine Nat.lt_of_mul_lt_mul_left (a := b ^ e.level) ?_
    rw [Nat.mul_add]
    omega
  obtain ⟨d, rfl⟩ := Nat.exists_eq_add_of_le huq
  have hd : d < b := by omega
  have hmod := Nat.sub_mod_eq_zero_of_mod_eq hs
  rw [Nat.add_sub_cancel_left, Nat.mod_eq_of_lt hd] at hmod
  rw [hmod, Nat.add_zero]

/-- An entry which starts now is in a slot which is due. -/
theorem Placed.slot_of_start (h : Placed b key w e) (hb : 0 < b) (hs : e.start b key = w + 1) :
    b ^ e.level ∣ w + 1 ∧ e.slot = (w + 1) / b ^ e.level % b := by
  rw [← hs]
  refine ⟨Nat.dvd_mul_right _ _, ?_⟩
  rw [h.slot_eq, Entry.start, Nat.mul_div_cancel_left _ (Nat.pow_pos hb)]

/-! ## One tick -/

/-- Before the tick after `w`, when what is due is only at the levels below `j`. -/
def Settled (b : ℕ) (key : α → ℕ) (w j : ℕ) (es : List (Entry α)) : Prop :=
  ∀ e ∈ es, Placed b key w e ∧ (j ≤ e.level → w + 1 < e.start b key)

theorem settled_of_not_dvd {j : ℕ} (h : ∀ e ∈ es, Placed b key w e) (hb : 0 < b)
    (hd : ¬ b ^ j ∣ w + 1) : Settled b key w j es := by
  intro e he
  refine ⟨h e he, fun hl => Nat.lt_of_le_of_ne (h e he).lt fun hs => hd ?_⟩
  exact Nat.dvd_trans (Nat.pow_dvd_pow b hl) ((h e he).slot_of_start hb hs.symm).1

/-- The slot which is due is emptied into the level below. -/
theorem Settled.cascade (h : Settled b key w (l + 2) es) (hb : 0 < b) (hd : b ^ (l + 1) ∣ w + 1) :
    Settled b key w (l + 1)
      (cascade (fun x => key x / b ^ l % b) l ((w + 1) / b ^ (l + 1) % b) es) := by
  intro e he
  rcases mem_append.1 he with he | he
  · obtain ⟨he, hat⟩ := mem_filter.1 he
    obtain ⟨hp, hlt⟩ := h e he
    refine ⟨hp, fun hl => ?_⟩
    rcases Nat.eq_or_lt_of_le hl with hl | hl
    · refine Nat.lt_of_le_of_ne hp.lt fun hs => ?_
      have hslot := (hp.slot_of_start hb hs.symm).2
      rw [← hl] at hslot
      rw [Entry.at_iff.2 ⟨hl.symm, hslot⟩] at hat
      cases hat
    · exact hlt hl
  · -- the entry starts now: it is placed in a lower level, less than a turn ahead
    obtain ⟨e', he', rfl⟩ := mem_map.1 he
    obtain ⟨he', hat⟩ := mem_filter.1 he'
    obtain ⟨hl, hslot⟩ := Entry.at_iff.1 hat
    obtain ⟨hp, -⟩ := h e' he'
    have hstart := hp.start_eq hb (hl ▸ hd) (hl ▸ hslot)
    have hle := @Entry.start_le α b key e'
    have hlt := @Entry.lt_start_add α b key e' hb
    rw [hstart, hl] at hlt
    rw [hstart] at hle
    refine ⟨⟨rfl, ?_, ?_⟩, fun hc => absurd hc (Nat.not_succ_le_self l)⟩
    · obtain ⟨u, hu⟩ := Nat.dvd_trans (Nat.pow_dvd_pow b (Nat.le_succ l)) hd
      have hpos : 0 < b ^ l := Nat.pow_pos hb
      have hq : u ≤ key e'.item / b ^ l := (Nat.le_div_iff_mul_le hpos).2 (by
        rw [Nat.mul_comm, ← hu]
        exact hle)
      have hmul := Nat.mul_le_mul_left (b ^ l) hq
      rw [← hu] at hmul
      exact hmul
    · have hfloor : b ^ l * (key e'.item / b ^ l) ≤ key e'.item := Nat.mul_div_le _ _
      change b ^ l * (key e'.item / b ^ l) ≤ w + b ^ (l + 1)
      omega

/-- When the higher levels are settled, the slot of the lowest one which is due holds the items with
    the key now. -/
theorem Settled.at_iff (h : Settled b key w 1 es) (hb : 0 < b) (he : e ∈ es) :
    e.at 0 ((w + 1) % b) = true ↔ key e.item = w + 1 := by
  obtain ⟨hp, hlt⟩ := h e he
  rw [Entry.at_iff]
  constructor
  · rintro ⟨hl, hslot⟩
    have hstart := hp.start_eq hb (by rw [hl, pow_zero]; exact Nat.one_dvd _)
      (by rw [hl, pow_zero, Nat.div_one]; exact hslot)
    rwa [Entry.start, hl, pow_zero, Nat.div_one, Nat.one_mul] at hstart
  · intro hkey
    have hstart : e.start b key = w + 1 :=
      le_antisymm (hkey ▸ Entry.start_le) hp.lt
    have hl : e.level = 0 := by
      by_contra hl
      exact absurd hstart (hlt (Nat.one_le_iff_ne_zero.2 hl)).ne'
    refine ⟨hl, ?_⟩
    have hslot := (hp.slot_of_start hb hstart).2
    rwa [hl, pow_zero, Nat.div_one] at hslot

/-- The entries of the other slots are placed after the tick. -/
theorem Settled.placed (h : Settled b key w 1 es) (hb : 0 < b) (he : e ∈ es)
    (hat : e.at 0 ((w + 1) % b) = false) : Placed b key (w + 1) e := by
  obtain ⟨hp, hlt⟩ := h e he
  refine ⟨hp.slot_eq, ?_, hp.le.trans (Nat.add_le_add_right (Nat.le_succ w) _)⟩
  rcases Nat.eq_zero_or_pos e.level with hl | hl
  · refine Nat.lt_of_le_of_ne hp.lt fun hs => ?_
    have hkey : key e.item = w + 1 := by
      rw [hs, Entry.start, hl, pow_zero, Nat.div_one, Nat.one_mul]
    rw [(h.at_iff hb he).2 hkey] at hat
    cases hat
  · exact hlt hl

end TimingWheel

end Pclsync
