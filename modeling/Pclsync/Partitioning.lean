import Mathlib.Data.List.Perm.Basic

/-!
# Partitioning an array around a pivot

Hoare's partition of a segment of an array, given as a list which is changed by swaps: two cursors
run towards each other from the ends of the segment and swap what is on the wrong side of the pivot,
which is a bound for both of them. The order is given by `lt`; a read outside of the array is
`none`.

* `Rearranged lo hi`: the relation between two arrays of which the second permutes the segment from
  `lo` to `hi` of the first.
* `Split rank k`: what stands before index `k` is not larger than what stands from there on.
* `exists_hoare`: the cursors meet at the pivot, with the array split before and behind it.
-/

namespace Pclsync.Partitioning

open List Option

variable {α : Type*}

/-! ## Rearranging a segment -/

/-- The array with two elements swapped. -/
def swap (a : List α) (i j : ℕ) : List α :=
  match a[i]?, a[j]? with
  | some x, some y => (a.set i y).set j x
  | _, _ => a

variable {a b c : List α} {i j k l r lo hi mid n : ℕ} {x y p : α}

theorem swap_eq (hi : a[i]? = some x) (hj : a[j]? = some y) : swap a i j = (a.set i y).set j x := by
  rw [swap, hi, hj]

theorem swap_perm (hi : a[i]? = some x) (hj : a[j]? = some y) : (swap a i j).Perm a := by
  obtain ⟨hilt, rfl⟩ := List.getElem?_eq_some_iff.1 hi
  obtain ⟨hjlt, rfl⟩ := List.getElem?_eq_some_iff.1 hj
  rw [swap_eq hi hj]
  exact set_set_perm hilt hjlt

theorem getElem?_swap (hi : a[i]? = some x) (hj : a[j]? = some y) (k : ℕ) :
    (swap a i j)[k]? = if k = j then some x else if k = i then some y else a[k]? := by
  obtain ⟨hilt, _⟩ := List.getElem?_eq_some_iff.1 hi
  obtain ⟨hjlt, _⟩ := List.getElem?_eq_some_iff.1 hj
  rw [swap_eq hi hj]
  by_cases hkj : k = j
  · rw [if_pos hkj, hkj, getElem?_set_self (by rwa [length_set])]
  · rw [if_neg hkj, getElem?_set_ne (Ne.symm hkj)]
    by_cases hki : k = i
    · rw [if_pos hki, hki, getElem?_set_self hilt]
    · rw [if_neg hki, getElem?_set_ne (Ne.symm hki)]

/-- A permutation of the images is the image of a permutation. -/
theorem exists_perm_of_map {β : Type*} {f : α → β} {s : List α} {m : List β}
    (h : m.Perm (s.map f)) : ∃ t : List α, t.Perm s ∧ t.map f = m := by
  generalize hs : s.map f = m' at h
  induction h generalizing s with
  | nil => exact ⟨s, .refl s, hs⟩
  | cons x _ ih =>
    obtain ⟨u, s', rfl, rfl, hs'⟩ := map_eq_cons_iff.1 hs
    obtain ⟨t, hperm, hmap⟩ := ih hs'
    exact ⟨u :: t, hperm.cons u, by rw [map_cons, hmap]⟩
  | swap x y _ =>
    obtain ⟨u, s', rfl, rfl, hs'⟩ := map_eq_cons_iff.1 hs
    obtain ⟨v, s'', rfl, rfl, rfl⟩ := map_eq_cons_iff.1 hs'
    exact ⟨v :: u :: s'', .swap u v s'', rfl⟩
  | trans _ _ ih ih' =>
    obtain ⟨t, hperm, hmap⟩ := ih' hs
    obtain ⟨t', hperm', hmap'⟩ := ih hmap
    exact ⟨t', hperm'.trans hperm, hmap'⟩

/-- `b` permutes the elements of `a` from index `lo` to `hi`. -/
structure Rearranged (lo hi : ℕ) (a b : List α) : Prop where
  perm : b.Perm a
  outside : ∀ i, i < lo ∨ hi < i → b[i]? = a[i]?
  inside : ∀ i, lo ≤ i → i ≤ hi → ∃ j, lo ≤ j ∧ j ≤ hi ∧ b[i]? = a[j]?

namespace Rearranged

theorem refl (lo hi : ℕ) (a : List α) : Rearranged lo hi a a :=
  ⟨.refl a, fun _ _ => rfl, fun i hlo hhi => ⟨i, hlo, hhi, rfl⟩⟩

theorem trans (h : Rearranged lo hi a b) (h' : Rearranged lo hi b c) : Rearranged lo hi a c where
  perm := h'.perm.trans h.perm
  outside := fun i hi => (h'.outside i hi).trans (h.outside i hi)
  inside := fun i hlo hhi => by
    obtain ⟨j, hjlo, hjhi, hj⟩ := h'.inside i hlo hhi
    obtain ⟨k, hklo, hkhi, hk⟩ := h.inside j hjlo hjhi
    exact ⟨k, hklo, hkhi, hj.trans hk⟩

theorem length (h : Rearranged lo hi a b) : b.length = a.length := h.perm.length_eq

theorem mem (h : Rearranged lo hi a b) : x ∈ b ↔ x ∈ a := h.perm.mem_iff

theorem of_swap (hx : a[i]? = some x) (hy : a[j]? = some y) (hilo : lo ≤ i) (hihi : i ≤ hi)
    (hjlo : lo ≤ j) (hjhi : j ≤ hi) : Rearranged lo hi a (swap a i j) where
  perm := swap_perm hx hy
  outside := fun k hk => by
    rw [getElem?_swap hx hy, if_neg (by omega), if_neg (by omega)]
  inside := fun k hklo hkhi => by
    rw [getElem?_swap hx hy]
    split
    · exact ⟨i, hilo, hihi, hx.symm⟩
    · split
      · exact ⟨j, hjlo, hjhi, hy.symm⟩
      · exact ⟨k, hklo, hkhi, rfl⟩

end Rearranged

variable (rank : α → ℕ)

/-- No element before index `k` is larger than one from there on. -/
def Split (a : List α) (k : ℕ) : Prop :=
  ∀ i j x y, i < k → k ≤ j → a[i]? = some x → a[j]? = some y → rank x ≤ rank y

variable {rank}

/-- Rearranging a segment on one side of the cut keeps the array split there. -/
theorem Split.rearranged (hs : Split rank a k) (h : Rearranged lo hi a b)
    (hk : k ≤ lo ∨ hi < k) : Split rank b k := by
  have hside : ∀ i z, b[i]? = some z → ∃ i', a[i']? = some z ∧ (i' < k ↔ i < k) := by
    rintro i z hz
    by_cases hin : lo ≤ i ∧ i ≤ hi
    · obtain ⟨i', hlo, hhi, heq⟩ := h.inside i hin.1 hin.2
      exact ⟨i', heq ▸ hz, by omega⟩
    · exact ⟨i, h.outside i (by omega) ▸ hz, Iff.rfl⟩
  rintro i j x y hik hkj hx hy
  obtain ⟨i', hx', hi'⟩ := hside i x hx
  obtain ⟨j', hy', hj'⟩ := hside j y hy
  exact hs i' j' x y (hi'.2 hik) (by omega) hx' hy'

/-! ## The cursors -/

variable (lt : α → α → Bool)

/-- The left cursor: the first index from `l` on at which the element is not less than `p`. -/
def scanUp (a : List α) (p : α) : ℕ → ℕ → Option ℕ
  | 0, _ => none
  | n + 1, l => a[l]?.bind fun x => if lt x p then scanUp a p n (l + 1) else some l

/-- The right cursor: the last index before `r` at which `p` is not less than the element. -/
def scanDown (a : List α) (p : α) : ℕ → Option ℕ
  | 0 => none
  | r + 1 => a[r]?.bind fun x => if lt p x then scanDown a p r else some r

/-- The cursors, of which the left one goes on at `l` and the right one before `r`, around the pivot
    at `mid`, for at most `n` swaps. -/
def hoare : ℕ → List α → ℕ → ℕ → ℕ → Option (List α × ℕ)
  | 0, _, _, _, _ => none
  | n + 1, a, mid, l, r =>
    a[mid]?.bind fun p => (scanUp lt a p a.length l).bind fun l => (scanDown lt a p r).bind fun r =>
      if r ≤ l then some (a, mid)
      else if mid = l then hoare n (swap a l r) r (l + 1) (r + 1)
      else if mid = r then hoare n (swap a l r) l l r
      else hoare n (swap a l r) mid (l + 1) r

variable {lt}

theorem exists_scanUp (hm : a[mid]? = some y) (hp : lt y p = false) (hl : l ≤ mid)
    (hn : mid < l + n) :
    ∃ l', scanUp lt a p n l = some l' ∧ l ≤ l' ∧ l' ≤ mid ∧
      (∃ x, a[l']? = some x ∧ lt x p = false) ∧
      ∀ i x, l ≤ i → i < l' → a[i]? = some x → lt x p = true := by
  induction n generalizing l with
  | zero => omega
  | succ n ih =>
    obtain ⟨hmid, _⟩ := List.getElem?_eq_some_iff.1 hm
    have hget : a[l]? = some a[l] := getElem?_eq_getElem (by omega)
    rw [scanUp, hget, bind_some]
    by_cases hx : lt a[l] p = true
    · rw [if_pos hx]
      have hne : l ≠ mid := by
        rintro rfl
        rw [hm] at hget
        rw [← some.inj hget, hp] at hx
        cases hx
      obtain ⟨l', hscan, hle, hlem, hstop, hbefore⟩ := ih (l := l + 1) (by omega) (by omega)
      refine ⟨l', hscan, by omega, hlem, hstop, fun i x hli hi hxi => ?_⟩
      rcases Nat.eq_or_lt_of_le hli with rfl | hli
      · rw [hget] at hxi
        rwa [← some.inj hxi]
      · exact hbefore i x hli hi hxi
    · rw [if_neg hx]
      exact ⟨l, rfl, Nat.le_refl l, hl, ⟨_, hget, eq_false_of_ne_true hx⟩,
        fun i x hli hi => absurd hi (Nat.not_lt_of_le hli)⟩

theorem exists_scanDown (hm : a[mid]? = some y) (hp : lt p y = false) (hr : mid < r)
    (hlen : r ≤ a.length) :
    ∃ r', scanDown lt a p r = some r' ∧ mid ≤ r' ∧ r' < r ∧
      (∃ x, a[r']? = some x ∧ lt p x = false) ∧
      ∀ i x, r' < i → i < r → a[i]? = some x → lt p x = true := by
  induction r with
  | zero => omega
  | succ r ih =>
    have hget : a[r]? = some a[r] := getElem?_eq_getElem (by omega)
    rw [scanDown, hget, bind_some]
    by_cases hx : lt p a[r] = true
    · rw [if_pos hx]
      have hne : mid ≠ r := by
        rintro rfl
        rw [hm] at hget
        rw [← some.inj hget, hp] at hx
        cases hx
      obtain ⟨r', hscan, hle, hlt, hstop, hbehind⟩ := ih (by omega) (by omega)
      refine ⟨r', hscan, hle, by omega, hstop, fun i x hri hi hxi => ?_⟩
      rcases Nat.lt_succ_iff_lt_or_eq.1 hi with hi | rfl
      · exact hbehind i x hri hi hxi
      · rw [hget] at hxi
        rwa [← some.inj hxi]
    · rw [if_neg hx]
      exact ⟨r, rfl, by omega, Nat.lt_succ_self r, ⟨_, hget, eq_false_of_ne_true hx⟩,
        fun i x hri hi => absurd hi (by omega)⟩

/-- `lt` compares the ranks of the elements of an array. -/
def Ranks (lt : α → α → Bool) (rank : α → ℕ) (a : List α) : Prop :=
  ∀ x ∈ a, ∀ y ∈ a, lt x y = true ↔ rank x < rank y

theorem Ranks.perm (h : Ranks lt rank a) (hp : b.Perm a) : Ranks lt rank b := fun x hx y hy =>
  h x (hp.mem_iff.1 hx) y (hp.mem_iff.1 hy)

theorem Ranks.le (h : Ranks lt rank a) (hx : x ∈ a) (hy : y ∈ a) (hlt : lt x y = false) :
    rank y ≤ rank x := by
  by_contra hle
  rw [(h x hx y hy).2 (Nat.lt_of_not_le hle)] at hlt
  cases hlt

theorem Ranks.irrefl (h : Ranks lt rank a) (hx : x ∈ a) : lt x x = false := by
  refine eq_false_of_ne_true fun hlt => ?_
  exact Nat.lt_irrefl _ ((h x hx x hx).1 hlt)

/-- The cursors meet at the pivot, with nothing larger before it and nothing smaller behind it in
    the segment from `lo` to `hi`. -/
theorem exists_hoare (lo hi : ℕ) (h : Ranks lt rank a) (hm : a[mid]? = some p) (hlo : lo ≤ l)
    (hlm : l ≤ mid) (hmr : mid < r) (hrhi : r ≤ hi + 1) (hhi : hi < a.length) (hn : r < l + n)
    (hlow : ∀ i x, lo ≤ i → i < l → a[i]? = some x → rank x ≤ rank p)
    (hhigh : ∀ i x, r ≤ i → i ≤ hi → a[i]? = some x → rank p ≤ rank x) :
    ∃ b m, hoare lt n a mid l r = some (b, m) ∧ Rearranged lo hi a b ∧ lo ≤ m ∧ m ≤ hi ∧
      b[m]? = some p ∧ (∀ i x, lo ≤ i → i ≤ m → b[i]? = some x → rank x ≤ rank p) ∧
      ∀ i x, m ≤ i → i ≤ hi → b[i]? = some x → rank p ≤ rank x := by
  induction n generalizing a mid l r with
  | zero => omega
  | succ n ih =>
    have hpa : p ∈ a := mem_of_getElem? hm
    have hirr := h.irrefl hpa
    obtain ⟨l', hup, hll', hl'm, ⟨y, hy, hyp⟩, hbefore⟩ := exists_scanUp (n := a.length) hm hirr hlm
      (by omega)
    obtain ⟨r', hdown, hmr', hr'r, ⟨z, hz, hpz⟩, hbehind⟩ := exists_scanDown hm hirr hmr (by omega)
    -- what the cursors went over is on its side of the pivot
    have hlow' : ∀ i x, lo ≤ i → i < l' → a[i]? = some x → rank x ≤ rank p := by
      rintro i x hi hil hx
      rcases Nat.lt_or_ge i l with hlt | hge
      · exact hlow i x hi hlt hx
      · have hxp := hbefore i x hge hil hx
        exact Nat.le_of_lt ((h x (mem_of_getElem? hx) p hpa).1 hxp)
    have hhigh' : ∀ i x, r' < i → i ≤ hi → a[i]? = some x → rank p ≤ rank x := by
      rintro i x hri hi hx
      rcases Nat.lt_or_ge i r with hlt | hge
      · have hpx := hbehind i x hri hlt hx
        exact Nat.le_of_lt ((h p hpa x (mem_of_getElem? hx)).1 hpx)
      · exact hhigh i x hge hi hx
    rw [hoare, hm, bind_some, hup, bind_some, hdown, bind_some]
    split
    · rename_i hle
      have hlr : l' = mid := by omega
      have hrr : r' = mid := by omega
      refine ⟨a, mid, rfl, .refl _ _ _, by omega, by omega, hm, fun i x hi him hx => ?_,
        fun i x him hi hx => ?_⟩
      · rcases Nat.eq_or_lt_of_le him with rfl | him
        · exact Nat.le_of_eq (congrArg rank (some.inj (hx.symm.trans hm)))
        · exact hlow' i x hi (by omega) hx
      · rcases Nat.eq_or_lt_of_le him with rfl | him
        · exact Nat.le_of_eq (congrArg rank (some.inj (hm.symm.trans hx)))
        · exact hhigh' i x (by omega) hi hx
    · rename_i hlt
      have hlr : l' < r' := Nat.lt_of_not_le hlt
      have hyle := h.le (mem_of_getElem? hy) hpa hyp
      have hzle := h.le hpa (mem_of_getElem? hz) hpz
      have hre : Rearranged lo hi a (swap a l' r') :=
        .of_swap hy hz (by omega) (by omega) (by omega) (by omega)
      have hget := getElem?_swap hy hz
      have hlow'' : ∀ i x, lo ≤ i → i ≤ l' → (swap a l' r')[i]? = some x → rank x ≤ rank p := by
        rintro i x hi hil hx
        rw [hget, if_neg (by omega)] at hx
        split at hx
        · rwa [← some.inj hx]
        · exact hlow' i x hi (by omega) hx
      have hhigh'' : ∀ i x, r' ≤ i → i ≤ hi → (swap a l' r')[i]? = some x → rank p ≤ rank x := by
        rintro i x hri hi hx
        rw [hget] at hx
        split at hx
        · rwa [← some.inj hx]
        · rw [if_neg (by omega)] at hx
          exact hhigh' i x (by omega) hi hx
      have hnext : ∀ m u v, (swap a l' r')[m]? = some p → lo ≤ u → u ≤ l' + 1 → u ≤ m → m < v →
          r' ≤ v → v ≤ hi + 1 → v < u + n →
          ∃ b m', hoare lt n (swap a l' r') m u v = some (b, m') ∧ Rearranged lo hi a b ∧ lo ≤ m' ∧
            m' ≤ hi ∧ b[m']? = some p ∧
            (∀ i x, lo ≤ i → i ≤ m' → b[i]? = some x → rank x ≤ rank p) ∧
            ∀ i x, m' ≤ i → i ≤ hi → b[i]? = some x → rank p ≤ rank x := by
        rintro m u v hm' hlou hu hum hmv hv hvhi hn'
        obtain ⟨b, m', hb, hrb, hrest⟩ := ih (h.perm hre.perm) hm' hlou hum hmv hvhi
          (by rw [hre.length]; exact hhi) hn' (fun i x hi hil hx => hlow'' i x hi (by omega) hx)
          fun i x hri hi hx => hhigh'' i x (by omega) hi hx
        exact ⟨b, m', hb, hre.trans hrb, hrest⟩
      split
      · rename_i hml
        subst hml
        obtain rfl := some.inj (hm.symm.trans hy)
        exact hnext r' (mid + 1) (r' + 1) (by rw [hget, if_pos rfl]) (by omega) (by omega)
          (by omega) (by omega) (by omega) (by omega) (by omega)
      · rename_i hml
        split
        · rename_i hmr
          subst hmr
          obtain rfl := some.inj (hm.symm.trans hz)
          exact hnext l' l' mid (by rw [hget, if_neg (by omega), if_pos rfl]) (by omega) (by omega)
            (by omega) (by omega) (by omega) (by omega) (by omega)
        · rename_i hmr
          exact hnext mid (l' + 1) r' (by rw [hget, if_neg hmr, if_neg hml, hm]) (by omega)
            (by omega) (by omega) (by omega) (by omega) (by omega) (by omega)

/-! ## Comparisons -/

/-- `lt` is the strict part of a total preorder, in which `x` is not above `y` when `lt y x` is
    false. -/
structure TotalPreorder (lt : α → α → Bool) : Prop where
  asymm : ∀ x y, lt x y = true → lt y x = false
  trans : ∀ x y z, lt y x = false → lt z y = false → lt z x = false

namespace TotalPreorder

theorem irrefl (h : TotalPreorder lt) (x : α) : lt x x = false := by
  cases hx : lt x x with
  | false => rfl
  | true => exact hx.symm.trans (h.asymm x x hx)

theorem lt_of_lt_of_le {z : α} (h : TotalPreorder lt) (hxy : lt x y = true)
    (hyz : lt z y = false) : lt x z = true := by
  cases hxz : lt x z with
  | true => rfl
  | false =>
    have hle : lt x y = false := h.trans y z x hyz hxz
    rw [hle] at hxy
    cases hxy

/-- Every element has a rank in the array: the number of elements below it. -/
theorem ranks (h : TotalPreorder lt) (a : List α) : Ranks lt (fun x => a.countP (lt · x)) a := by
  intro x hx y _
  constructor
  · intro hxy
    -- `x` itself is below `y`, and not below `x`
    have hsub : ∀ z ∈ a, lt z x = true → lt z y = true := fun z _ hzx =>
      h.lt_of_lt_of_le hzx (h.asymm x y hxy)
    obtain ⟨l, r, rfl⟩ := append_of_mem hx
    have hl : l.countP (lt · x) ≤ l.countP (lt · y) :=
      countP_mono_left fun z hz => hsub z (mem_append_left _ hz)
    have hr : r.countP (lt · x) ≤ r.countP (lt · y) :=
      countP_mono_left fun z hz => hsub z (mem_append_right _ (mem_cons_of_mem _ hz))
    change (l ++ x :: r).countP (lt · x) < (l ++ x :: r).countP (lt · y)
    have hx : (x :: r).countP (lt · x) = r.countP (lt · x) :=
      countP_cons_of_neg (by simp [h.irrefl])
    have hy : (x :: r).countP (lt · y) = r.countP (lt · y) + 1 := countP_cons_of_pos hxy
    rw [countP_append, countP_append, hx, hy]
    omega
  · intro hrank
    cases hxy : lt x y with
    | true => rfl
    | false =>
      have hle : a.countP (lt · y) ≤ a.countP (lt · x) := by
        refine countP_mono_left fun z _ hzy => ?_
        exact h.lt_of_lt_of_le hzy hxy
      exact absurd hrank (Nat.not_lt_of_le hle)

end TotalPreorder

end Pclsync.Partitioning
