import Mathlib.Data.List.GetD
import Mathlib.Data.Nat.ModEq

/-!
# Linear probing

Open addressing in a table of slots which are probed one after the other, from the home of an entry
on and around the end of the table; `free` marks the slots without an entry.

* `Probing`: every entry is reached from its home without a free slot in between, in a limited
  number of steps.
* `Probing.put`: an entry put where the probing for it has ended keeps this.
* `Probing.exists_probe`: probing stops, and at a free slot only if no entry of the table is looked
  for.
* `Probing.exists_shiftBack`: removing an entry and shifting later ones back to the hole, each if
  its home does not lie behind the hole, keeps it too, and permutes the slots.
-/

namespace Pclsync.LinearProbing

open List

/-- The slot after slot `o`, of `m`. -/
def advance (m o : ℕ) : ℕ := if m ≤ o + 1 then 0 else o + 1

variable {m h a b : ℕ}

theorem advance_mod (hm : 0 < m) (h e : ℕ) : advance m ((h + e) % m) = (h + (e + 1)) % m := by
  have hlt : (h + e) % m < m := Nat.mod_lt _ hm
  rw [← Nat.add_assoc, ← Nat.mod_add_mod (h + e), advance]
  split
  · rename_i hge
    rw [show (h + e) % m + 1 = m by omega, Nat.mod_self]
  · rename_i hge
    rw [Nat.mod_eq_of_lt (Nat.lt_of_not_le hge)]

/-- Fewer than `m` steps apart, slots are different. -/
theorem offset_unique (ha : a < m) (hb : b < m) (heq : (h + a) % m = (h + b) % m) : a = b := by
  have hmod : a ≡ b [MOD m] := Nat.ModEq.add_left_cancel' h heq
  rwa [Nat.ModEq, Nat.mod_eq_of_lt ha, Nat.mod_eq_of_lt hb] at hmod

/-- Every slot is met on the way around the table. -/
theorem exists_offset {p : ℕ} (ho : h < m) (hp : p < m) : ∃ d < m, (h + d) % m = p := by
  rcases Nat.lt_or_ge p h with hlt | hle
  · refine ⟨p + m - h, by omega, ?_⟩
    rw [show h + (p + m - h) = p + m by omega, Nat.add_mod_right,
      Nat.mod_eq_of_lt hp]
  · exact ⟨p - h, by omega, by rw [Nat.add_sub_cancel' hle, Nat.mod_eq_of_lt hp]⟩

variable {α : Type*} (free : α)

/-- The content of slot `p`. -/
def slot (t : List α) (p : ℕ) : α := t.getD p free

variable {free} {t : List α} {p q : ℕ} {x : α}

theorem slot_set_self (hp : p < t.length) : slot free (t.set p x) p = x := by
  rw [slot, getD_eq_getElem?_getD, getElem?_set_self hp, Option.getD_some]

theorem slot_set_ne (hne : p ≠ q) : slot free (t.set p x) q = slot free t q := by
  rw [slot, getD_eq_getElem?_getD, getElem?_set_ne hne, ← getD_eq_getElem?_getD, slot]

theorem slot_eq_getElem (hp : p < t.length) : slot free t p = t[p] :=
  getD_eq_getElem _ _ hp

theorem slot_mem (hp : p < t.length) : slot free t p ∈ t := by
  rw [slot_eq_getElem hp]
  exact getElem_mem hp

variable (free) in
/-- The way of `d` slots from `h` on has no free slot. -/
def Along (t : List α) (h d : ℕ) : Prop :=
  ∀ e < d, slot free t ((h + e) % t.length) ≠ free

variable (free) in
/-- Every entry is reached from its home, in at most `limit` steps. -/
def Probing (home : α → ℕ) (limit : ℕ) (t : List α) : Prop :=
  ∀ p < t.length, slot free t p ≠ free →
    ∃ d < t.length, d ≤ limit ∧ (home (slot free t p) + d) % t.length = p ∧
      Along free t (home (slot free t p)) d

variable {home : α → ℕ} {limit d : ℕ}

/-- Writing an entry into a slot keeps the ways. -/
theorem Along.set (hx : x ≠ free) (ha : Along free t h d) : Along free (t.set p x) h d := by
  rintro e he
  rw [length_set]
  by_cases hp : p = (h + e) % t.length
  · rw [← hp, slot_set_self]
    · exact hx
    · rw [hp]
      by_contra hlen
      refine ha e he ?_
      rw [slot, getD_eq_default _ _ (Nat.le_of_not_lt hlen)]
  · rw [slot_set_ne hp]
    exact ha e he

/-- An entry is put into the free slot at which the probing for it ended, or over an entry with its
    home. -/
theorem Probing.put (hp : Probing free home limit t) (hx : x ≠ free) (hd : d < t.length)
    (hlimit : d ≤ limit) (ha : Along free t (home x) d) :
    Probing free home limit (t.set ((home x + d) % t.length) x) := by
  have hlt : (home x + d) % t.length < t.length := Nat.mod_lt _ (Nat.zero_lt_of_lt hd)
  rintro q hq hne
  rw [length_set] at hq ⊢
  by_cases hpq : (home x + d) % t.length = q
  · rw [← hpq, slot_set_self hlt]
    exact ⟨d, hd, hlimit, rfl, ha.set hx⟩
  · rw [slot_set_ne hpq] at hne ⊢
    obtain ⟨d', hd', hl, heq, ha'⟩ := hp q hq hne
    exact ⟨d', hd', hl, heq, ha'.set hx⟩

/-! ## Looking for an entry -/

section Probe

variable [DecidableEq α]

variable (free) in
/-- The first slot from `o` on, of at most `n`, which is free or whose entry is looked for. -/
def probe (stop : α → Bool) (t : List α) : ℕ → ℕ → Option ℕ
  | 0, _ => none
  | n + 1, o =>
    if slot free t o = free ∨ stop (slot free t o) = true then some o
    else probe stop t n (advance t.length o)

variable {stop : α → Bool} {n k o : ℕ}

theorem exists_probe (hm : 0 < t.length)
    (hstop : ∃ d, k ≤ d ∧ d < k + n ∧ slot free t ((o + d) % t.length) = free) :
    ∃ d, k ≤ d ∧ d < k + n ∧ probe free stop t n ((o + k) % t.length) = some ((o + d) % t.length) ∧
      (slot free t ((o + d) % t.length) ≠ free → stop (slot free t ((o + d) % t.length)) = true) ∧
      ∀ e, k ≤ e → e < d → slot free t ((o + e) % t.length) ≠ free ∧
        stop (slot free t ((o + e) % t.length)) = false := by
  induction n generalizing k with
  | zero =>
    obtain ⟨d, hk, hd, _⟩ := hstop
    omega
  | succ n ih =>
    rw [probe]
    split
    · rename_i hs
      exact ⟨k, le_refl _, by omega, rfl, fun hne => hs.resolve_left hne, by omega⟩
    · rename_i hs
      obtain ⟨hfree, hs⟩ := not_or.1 hs
      rw [advance_mod hm]
      obtain ⟨d, hk, hd, hfd⟩ := hstop
      have hkd : k ≠ d := by
        rintro rfl
        exact hfree hfd
      obtain ⟨d', hk', hd', hprobe, hfound, hbefore⟩ :=
        ih (k := k + 1) ⟨d, by omega, by omega, hfd⟩
      refine ⟨d', by omega, by omega, hprobe, hfound, fun e he hed => ?_⟩
      rcases Nat.eq_or_lt_of_le he with rfl | he
      · exact ⟨hfree, Bool.eq_false_of_not_eq_true hs⟩
      · exact hbefore e he hed

/-- Probing for the entries which stop it, all with the home `o`: it ends at one of them, or at a
    free slot if the table has none. -/
theorem Probing.exists_probe (hprob : Probing free home limit t) (stop : α → Bool)
    (hfree : ∃ p < t.length, slot free t p = free) (ho : o < t.length)
    (hhome : ∀ p < t.length, slot free t p ≠ free → stop (slot free t p) = true →
      home (slot free t p) = o) :
    ∃ p < t.length, probe free stop t t.length o = some p ∧
      (slot free t p ≠ free → stop (slot free t p) = true) ∧
      ∀ q < t.length, slot free t q ≠ free → stop (slot free t q) = true →
        slot free t p ≠ free := by
  have hm : 0 < t.length := Nat.zero_lt_of_lt ho
  obtain ⟨f, hf, hslot⟩ := hfree
  obtain ⟨c, hc, hcf⟩ := exists_offset ho hf
  have hend : ∃ d, 0 ≤ d ∧ d < 0 + t.length ∧ slot free t ((o + d) % t.length) = free :=
    ⟨c, Nat.zero_le _, by omega, by rw [hcf, hslot]⟩
  obtain ⟨d, _, hd, hprobe, hfound, hbefore⟩ :=
    @LinearProbing.exists_probe _ free t _ stop _ _ _ hm hend
  rw [Nat.add_zero, Nat.mod_eq_of_lt ho] at hprobe
  refine ⟨_, Nat.mod_lt _ hm, hprobe, hfound, fun q hq hne hs hend => ?_⟩
  obtain ⟨d', _, _, heq, halong⟩ := hprob q hq hne
  rw [hhome q hq hne hs] at heq halong
  -- the entry is on the way to the free slot, where the probing would have ended earlier
  rcases Nat.lt_trichotomy d' d with hlt | rfl | hlt
  · have hearly := (hbefore d' (Nat.zero_le _) hlt).2
    rw [heq, hs] at hearly
    cases hearly
  · rw [heq] at hend
    exact hne hend
  · exact halong d hlt hend

end Probe

/-! ## Removing an entry -/

/-- Whether the way from `p` to `o` meets `z` first, of at most `n` slots. -/
def meets (m z o : ℕ) : ℕ → ℕ → Option Bool
  | 0, _ => none
  | n + 1, p =>
    if p = z then some true
    else if p = o then some false
    else meets m z o n (advance m p)

variable {z : ℕ}

theorem exists_meets (hm : 0 < m) (hd : d < m) (hk : k ≤ d) (hn : d < k + n)
    (hz : z ≠ (h + d) % m) :
    ∃ met, meets m z ((h + d) % m) n ((h + k) % m) = some met ∧
      (met = true ↔ ∃ e, k ≤ e ∧ e < d ∧ (h + e) % m = z) := by
  induction n generalizing k with
  | zero => omega
  | succ n ih =>
    rw [meets]
    split
    · rename_i hkz
      refine ⟨true, rfl, fun _ => ⟨k, le_refl _, ?_, hkz⟩, fun _ => rfl⟩
      rcases Nat.eq_or_lt_of_le hk with rfl | hlt
      · exact absurd hkz.symm hz
      · exact hlt
    · rename_i hkz
      split
      · rename_i hkd
        obtain rfl := offset_unique (by omega) hd hkd
        exact ⟨false, rfl, fun hc => (by cases hc), fun ⟨e, he, hek, _⟩ => (by omega)⟩
      · rename_i hkd
        have hne : k ≠ d := by
          rintro rfl
          exact hkd rfl
        rw [advance_mod hm]
        obtain ⟨met, hmet, hiff⟩ := ih (k := k + 1) (by omega) (by omega)
        refine ⟨met, hmet, hiff.trans ⟨fun ⟨e, he, hed, hez⟩ => ⟨e, by omega, hed, hez⟩,
          fun ⟨e, he, hed, hez⟩ => ⟨e, ?_, hed, hez⟩⟩⟩
        rcases Nat.eq_or_lt_of_le he with rfl | hlt
        · exact absurd hez hkz
        · exact hlt

variable (free) in
/-- The table while later entries are shifted back to the hole `z`: the way of an entry may pass the
    hole, but not that of the entries in the `k` slots after it, which were examined. -/
structure Hollow (home : α → ℕ) (limit : ℕ) (t : List α) (z k : ℕ) : Prop where
  hole : z < t.length
  empty : slot free t z = free
  reach : ∀ p < t.length, slot free t p ≠ free → ∃ d < t.length, d ≤ limit ∧
    (home (slot free t p) + d) % t.length = p ∧
    (∀ e < d, slot free t ((home (slot free t p) + e) % t.length) ≠ free ∨
      (home (slot free t p) + e) % t.length = z) ∧
    ∀ a, 0 < a → a ≤ k → p = (z + a) % t.length →
      ∀ e < d, (home (slot free t p) + e) % t.length ≠ z

theorem Probing.hollow (hprob : Probing free home limit t) (hz : z < t.length) :
    Hollow free home limit (t.set z free) z 0 := by
  refine ⟨by rwa [length_set], slot_set_self hz, fun p hp hne => ?_⟩
  rw [length_set] at hp ⊢
  have hzp : z ≠ p := by
    rintro rfl
    exact hne (slot_set_self hz)
  rw [slot_set_ne hzp] at hne ⊢
  obtain ⟨d, hd, hl, heq, halong⟩ := hprob p hp hne
  refine ⟨d, hd, hl, heq, fun e he => ?_, fun a ha hak => absurd hak (by omega)⟩
  by_cases hez : (home (slot free t p) + e) % t.length = z
  · exact .inr hez
  · rw [slot_set_ne (Ne.symm hez)]
    exact .inl (halong e he)

/-- The way which meets the hole `z` and then leads on to `p`, `a` slots after it. -/
theorem offset_add {e : ℕ} (hd : d < m) (ha : a < m) (he : e < d) (hz : (h + e) % m = z)
    (hp : (h + d) % m = (z + a) % m) : d = e + a := by
  have hsub : (h + e + (d - e)) % m = (h + e + a) % m := by
    rw [show h + e + (d - e) = h + d by omega, hp, ← hz, Nat.mod_add_mod]
  have := offset_unique (by omega) ha hsub
  omega

namespace Hollow

/-- Behind a free slot no way leads over the hole. -/
theorem probing (hh : Hollow free home limit t z k)
    (hend : slot free t ((z + (k + 1)) % t.length) = free) : Probing free home limit t := by
  rintro p hp hne
  obtain ⟨d, hd, hl, heq, hway, hexam⟩ := hh.reach p hp hne
  refine ⟨d, hd, hl, heq, fun e he => (hway e he).resolve_right fun hez => ?_⟩
  obtain ⟨a, ha, rfl⟩ := exists_offset hh.hole hp
  have hda := offset_add hd ha he hez heq
  have hpos : 0 < a := by omega
  rcases Nat.lt_trichotomy a (k + 1) with hlt | rfl | hlt
  · exact hexam a hpos (by omega) rfl e he hez
  · exact hne hend
  · -- the free slot is on the way from the hole to the entry
    have hmid : (home (slot free t ((z + a) % t.length)) + (e + (k + 1))) % t.length =
        (z + (k + 1)) % t.length := by
      rw [← Nat.add_assoc, ← Nat.mod_add_mod, hez]
    rcases hway (e + (k + 1)) (by omega) with hway | hway
    · exact hway (by rw [hmid, hend])
    · have := offset_unique (by omega) (by omega) (hway.trans hez.symm)
      omega

/-- An entry whose way does not meet the hole stays. -/
theorem stay (hh : Hollow free home limit t z k)
    (havoid : ∀ d < t.length, (home (slot free t ((z + (k + 1)) % t.length)) + d) % t.length =
        (z + (k + 1)) % t.length →
      ∀ e < d, (home (slot free t ((z + (k + 1)) % t.length)) + e) % t.length ≠ z) :
    Hollow free home limit t z (k + 1) := by
  refine { hh with reach := fun p hp hne => ?_ }
  obtain ⟨d, hd, hl, heq, hway, hexam⟩ := hh.reach p hp hne
  refine ⟨d, hd, hl, heq, hway, fun a ha hak hpa => ?_⟩
  rcases Nat.eq_or_lt_of_le hak with rfl | hlt
  · subst hpa
    exact havoid d hd heq
  · exact hexam a ha (by omega) hpa

/-- An entry whose way meets the hole is moved there and leaves a hole behind. -/
theorem move (hh : Hollow free home limit t z k) (hk : k + 1 < t.length)
    (hne : slot free t ((z + (k + 1)) % t.length) ≠ free)
    (hmet : ∀ d < t.length, (home (slot free t ((z + (k + 1)) % t.length)) + d) % t.length =
        (z + (k + 1)) % t.length →
      ∃ e < d, (home (slot free t ((z + (k + 1)) % t.length)) + e) % t.length = z) :
    Hollow free home limit ((t.set z (slot free t ((z + (k + 1)) % t.length))).set
      ((z + (k + 1)) % t.length) free) ((z + (k + 1)) % t.length) 0 := by
  have hm : 0 < t.length := Nat.zero_lt_of_lt hk
  have hlt : (z + (k + 1)) % t.length < t.length := Nat.mod_lt _ hm
  have hzo : z ≠ (z + (k + 1)) % t.length := by
    intro heq
    have hzero : (z + 0) % t.length = (z + (k + 1)) % t.length := by
      rw [Nat.add_zero, Nat.mod_eq_of_lt hh.hole, ← heq]
    have := offset_unique hm hk hzero
    omega
  generalize ho : (z + (k + 1)) % t.length = o at *
  have hset : ∀ q, o ≠ q → slot free ((t.set z (slot free t o)).set o free) q =
      if q = z then slot free t o else slot free t q := by
    intro q hq
    rw [slot_set_ne hq]
    split
    · rename_i hqz
      rw [hqz, slot_set_self hh.hole]
    · rename_i hqz
      rw [slot_set_ne (Ne.symm hqz)]
  have hway : ∀ q, slot free t q ≠ free ∨ q = z →
      slot free ((t.set z (slot free t o)).set o free) q ≠ free ∨ q = o := by
    rintro q hq
    by_cases hqo : q = o
    · exact .inr hqo
    · rw [hset q (Ne.symm hqo)]
      split
      · exact .inl hne
      · rename_i hqz
        exact .inl (hq.resolve_right hqz)
  have hlen : ((t.set z (slot free t o)).set o free).length = t.length := by
    rw [length_set, length_set]
  refine ⟨by rwa [hlen], slot_set_self (by rwa [length_set]), fun p hp hpne => ?_⟩
  rw [hlen] at hp ⊢
  have hop : o ≠ p := by
    rintro rfl
    exact hpne (slot_set_self (by rwa [length_set]))
  rw [hset p hop] at hpne ⊢
  split
  · -- the entry moved: its way ends where it met the hole
    rename_i hpz
    obtain ⟨d, hd, hl, heq, hold, _⟩ := hh.reach o hlt hne
    obtain ⟨e, he, hez⟩ := hmet d hd heq
    exact ⟨e, by omega, by omega, by rw [hez, hpz], fun b hb => hway _ (hold b (by omega)),
      fun a ha hak => absurd hak (by omega)⟩
  · rename_i hpz
    rw [if_neg hpz] at hpne
    obtain ⟨d, hd, hl, heq, hold, _⟩ := hh.reach p hp hpne
    exact ⟨d, hd, hl, heq, fun b hb => hway _ (hold b hb), fun a ha hak => absurd hak (by omega)⟩

end Hollow

/-- Moving an entry to a hole permutes the slots. -/
theorem perm_move {o : ℕ} (hz : z < t.length) (ho : o < t.length) (hempty : slot free t z = free) :
    ((t.set z (slot free t o)).set o free).Perm t := by
  have hperm := @set_set_perm _ t z o hz ho
  rwa [← @slot_eq_getElem _ free _ _ ho, ← @slot_eq_getElem _ free _ _ hz, hempty] at hperm

variable [DecidableEq α]

variable (free) in
/-- Slot `z` is a hole and slot `o` was examined last: every later entry up to a free slot is moved
    to the hole if the way from its home meets it. -/
def shiftBack (home : α → ℕ) : ℕ → List α → ℕ → ℕ → Option (List α)
  | 0, _, _, _ => none
  | n + 1, t, z, o =>
    let o := advance t.length o
    let x := slot free t o
    if x = free then some t
    else if home x ≠ o then
      (meets t.length z o t.length (home x)).bind fun met =>
        if met then shiftBack home n ((t.set z x).set o free) o o else shiftBack home n t z o
    else shiftBack home n t z o

theorem Hollow.exists_shiftBack {c : ℕ} (hh : Hollow free home limit t z k) (hkc : k < c)
    (hc : c < t.length) (hcn : c ≤ k + n) (hend : slot free t ((z + c) % t.length) = free)
    (hhome : ∀ x ∈ t, x ≠ free → home x < t.length) :
    ∃ u, shiftBack free home n t z ((z + k) % t.length) = some u ∧ Probing free home limit u ∧
      u.Perm t := by
  induction n generalizing t z k c with
  | zero => omega
  | succ n ih =>
    have hm : 0 < t.length := Nat.zero_lt_of_lt hc
    have hlt : (z + (k + 1)) % t.length < t.length := Nat.mod_lt _ hm
    simp only [shiftBack]
    rw [advance_mod hm]
    by_cases hfree : slot free t ((z + (k + 1)) % t.length) = free
    · rw [if_pos hfree]
      exact ⟨t, rfl, hh.probing hfree, List.Perm.refl _⟩
    · rw [if_neg hfree]
      have hne : k + 1 ≠ c := by
        rintro rfl
        exact hfree hend
      have hzo : z ≠ (z + (k + 1)) % t.length := by
        intro heq
        rw [← heq] at hfree
        exact hfree hh.empty
      have hnext := hhome _ (slot_mem hlt) hfree
      obtain ⟨d, hd, _, heq, _⟩ := hh.reach _ hlt hfree
      -- the way from the home of the entry is the one that `reach` is about
      have hsame : ∀ e < t.length, (home (slot free t ((z + (k + 1)) % t.length)) + e) % t.length =
          (z + (k + 1)) % t.length → e = d := fun e he h =>
        offset_unique he hd (h.trans heq.symm)
      have hstay : (∀ e < d, (home (slot free t ((z + (k + 1)) % t.length)) + e) % t.length ≠ z) →
          ∃ u, shiftBack free home n t z ((z + (k + 1)) % t.length) = some u ∧
            Probing free home limit u ∧ u.Perm t := fun havoid =>
        ih (hh.stay fun e he h => (hsame e he h).symm ▸ havoid) (by omega) hc (by omega) hend hhome
      obtain ⟨met, hmet, hiff⟩ := exists_meets (h := home (slot free t ((z + (k + 1)) % t.length)))
        (z := z) (k := 0) (n := t.length) hm hd (Nat.zero_le _) (by omega) (by rwa [heq])
      rw [heq, Nat.add_zero (home _), Nat.mod_eq_of_lt hnext] at hmet
      split
      · rename_i hhome'
        rw [hmet, Option.bind_some]
        cases met with
        | false =>
          refine hstay fun e he hez => ?_
          cases hiff.2 ⟨e, Nat.zero_le _, he, hez⟩
        | true =>
          obtain ⟨e, _, he, hez⟩ := hiff.1 rfl
          have hmove := hh.move (by omega) hfree fun e' he' h =>
            ⟨e, (hsame e' he' h).symm ▸ he, hez⟩
          have hperm := perm_move hh.hole hlt hh.empty
          generalize ho : (z + (k + 1)) % t.length = o at *
          have hlen := hperm.length_eq
          have hc' : (o + (c - (k + 1))) % t.length = (z + c) % t.length := by
            rw [← ho, Nat.mod_add_mod, Nat.add_assoc, Nat.add_sub_cancel' hkc]
          have hend' : slot free ((t.set z (slot free t o)).set o free) ((z + c) % t.length) =
              free := by
            have hoc : o ≠ (z + c) % t.length := fun h => hfree (h ▸ hend)
            have hzc : z ≠ (z + c) % t.length := by
              intro h
              have hzero : (z + 0) % t.length = (z + c) % t.length := by
                rw [Nat.add_zero, Nat.mod_eq_of_lt hh.hole, ← h]
              have := offset_unique hm hc hzero
              omega
            rw [slot_set_ne hoc, slot_set_ne hzc]
            exact hend
          obtain ⟨u, hu, hprob, hpu⟩ := ih (k := 0) (c := c - (k + 1)) hmove (by omega)
            (by omega) (by omega) (by rw [hlen, hc', hend'])
            (fun x hx hxne => (hhome x (hperm.mem_iff.1 hx) hxne).trans_eq hlen.symm)
          rw [Nat.add_zero, hlen, Nat.mod_eq_of_lt hlt] at hu
          exact ⟨u, hu, hprob, hpu.trans hperm⟩
      · rename_i hhome'
        refine hstay fun e he hez => ?_
        have hd0 := hsame 0 hm
          (by rw [Nat.add_zero, Nat.mod_eq_of_lt hnext]; exact not_not.1 hhome')
        omega

/-- An entry is taken out of a table which has another free slot, and the hole is closed. -/
theorem Probing.exists_shiftBack (hprob : Probing free home limit t) (hz : z < t.length)
    (hne : slot free t z ≠ free) (hfree : ∃ p < t.length, slot free t p = free)
    (hhome : ∀ x ∈ t, x ≠ free → home x < t.length) :
    ∃ u, shiftBack free home t.length (t.set z free) z z = some u ∧ Probing free home limit u ∧
      u.Perm (t.set z free) := by
  obtain ⟨f, hf, hslot⟩ := hfree
  obtain ⟨c, hc, hcf⟩ := exists_offset hz hf
  have hlen : (t.set z free).length = t.length := length_set
  have hzf : z ≠ f := fun h => hne (h ▸ hslot)
  have hpos : 0 < c := by
    by_contra hzero
    rw [Nat.eq_zero_of_not_pos hzero, Nat.add_zero, Nat.mod_eq_of_lt hz] at hcf
    exact hzf hcf
  obtain ⟨u, hu, hrest⟩ := (hprob.hollow hz).exists_shiftBack (n := t.length) hpos
    (by rwa [hlen]) (by omega) (by rw [hlen, hcf, slot_set_ne hzf, hslot]) fun x hx hxne => by
      rw [hlen]
      rcases mem_or_eq_of_mem_set hx with hx | rfl
      · exact hhome x hx hxne
      · exact absurd rfl hxne
  rw [Nat.add_zero, hlen, Nat.mod_eq_of_lt hz] at hu
  exact ⟨u, hu, hrest⟩

end Pclsync.LinearProbing
