import Mathlib.Data.List.Nodup
import Mathlib.Data.List.Perm.Subperm
import Mathlib.Data.Nat.Find
import Mathlib.Data.Nat.Prime.Infinite
import Mathlib.Data.Vector.Defs
import Pclsync.LinearProbing
import Pclsync.Transition

/-!
# The hash table of block checksums

The blocks of a file to be transferred are looked up by their checksums in a hash table
(`psync_net_create_hash`, `pnetlibs.c`) while local files are searched for them. A block which has
the SHA-1 of an entry takes its place and keeps it on its `next` chain; a block which is more than
`MAX_ADLER_COLL` slots away from its home is ignored. A block that is found
(`psync_net_block_match_found`) is marked with all of its chain and removed from the table
(`psync_net_hash_remove`).

* `Live`: the invariant of the table: it holds the blocks which are neither ignored nor marked, each
  checksum once, with the chain of all blocks of that checksum.
* `sound_iff_alike`: whatever is searched for, in every order, the table keeps finding the blocks
  which are left and no other, and marks them once each, if and only if creating the hash never
  chains a block to one with the same SHA-1 and another Adler-32. Only the SHA-1 is compared there,
  whereas looking up and removing compare both; `not_sound` is a table of two such blocks.
-/

namespace Pclsync.BlockSearch

open LinearProbing Function Option
open List hiding Vector

/-! ## The code -/

/-- `PSYNC_MAX_CHECKSUMS_SIZE`. -/
def psyncMaxChecksumsSize : ℕ := 64 * 1024 * 1024

/-- `MAX_ADLER_COLL`. -/
def maxAdlerColl : ℕ := 64

/-- `psync_block_checksum`. -/
structure PsyncBlockChecksum where
  sha1 : Vector UInt8 20
  adler : UInt32
deriving DecidableEq

/-- `psync_file_checksums`: the blocks. Both functions which read them from the network refuse so
    many that `psync_block_checksum` and `next` would take `PSYNC_MAX_CHECKSUMS_SIZE` bytes. -/
structure PsyncFileChecksums where
  blocks : List PsyncBlockChecksum
  size : (24 + 4) * blocks.length < psyncMaxChecksumsSize

/-- `type` of a `psync_block_action`. -/
inductive PsyncRange
  | transfer
  | copy
deriving DecidableEq

/-- `psync_block_action`. -/
structure PsyncBlockAction where
  type : PsyncRange
  idx : UInt32
  off : UInt64

/-- The loop of `psync_is_prime` from `i` on. -/
def psyncIsPrimeFrom (num i : ℕ) : Bool :=
  if i * i ≤ num then
    if num % i = 0 then false
    else psyncIsPrimeFrom num (i + 2)
  else true
termination_by num + 1 - i
decreasing_by
  have hle : i ≤ i * i := Nat.le_mul_self i
  omega

/-- `psync_is_prime`, of numbers that neither 2 nor 3 divides. -/
def psyncIsPrime (num : ℕ) : Bool := psyncIsPrimeFrom num 5

theorem psyncIsPrimeFrom_of_prime {num : ℕ} (hnum : num.Prime) (i : ℕ) (hi : 2 ≤ i) :
    psyncIsPrimeFrom num i = true := by
  induction hn : num + 1 - i using Nat.strongRecOn generalizing i with
  | ind n ih =>
    rw [psyncIsPrimeFrom]
    split
    · have hlt : i < num := by
        have hmul : 2 * i ≤ i * i := Nat.mul_le_mul_right i hi
        omega
      split
      · rename_i hmod
        rcases hnum.eq_one_or_self_of_dvd i (Nat.dvd_of_mod_eq_zero hmod) with rfl | rfl
        · omega
        · omega
      · exact ih _ (by omega) (i + 2) (by omega) rfl
    · rfl

/-- The primes beside the numbers tried are 2 and 3. -/
theorem le_of_prime {cnt p : ℕ} (hcnt : cnt % 6 = 1) (hp : p.Prime) (hle : cnt ≤ p)
    (h₀ : psyncIsPrime cnt = false) (h₄ : psyncIsPrime (cnt + 4) = false) : cnt + 6 ≤ p := by
  have hone : cnt ≠ 1 := by
    rintro rfl
    rw [psyncIsPrime, psyncIsPrimeFrom] at h₀
    cases h₀
  have hne : ∀ c, psyncIsPrime c = false → c ≠ p := by
    rintro c hc rfl
    rw [psyncIsPrime, psyncIsPrimeFrom_of_prime hp 5 (by omega)] at hc
    cases hc
  have h2 : p % 2 ≠ 0 := fun h => by
    have := (Nat.prime_dvd_prime_iff_eq Nat.prime_two hp).1 (Nat.dvd_of_mod_eq_zero h)
    omega
  have h3 : p % 3 ≠ 0 := fun h => by
    have := (Nat.prime_dvd_prime_iff_eq Nat.prime_three hp).1 (Nat.dvd_of_mod_eq_zero h)
    omega
  have h0 := hne _ h₀
  have h4 := hne _ h₄
  omega

/-- The loop of `psync_net_create_hash` which looks for a prime. -/
def nextElementcnt (cnt : ℕ) (hcnt : cnt % 6 = 1) : ℕ :=
  if psyncIsPrime cnt then cnt
  else if psyncIsPrime (cnt + 4) then cnt + 4
  else nextElementcnt (cnt + 6) (by omega)
termination_by Nat.find (Nat.exists_infinite_primes cnt) - cnt
decreasing_by
  rename_i h₀ h₄
  obtain ⟨hle, hp⟩ := Nat.find_spec (Nat.exists_infinite_primes cnt)
  have hnext := le_of_prime hcnt hp hle (Bool.eq_false_of_not_eq_true h₀)
    (Bool.eq_false_of_not_eq_true h₄)
  have := Nat.find_min' (Nat.exists_infinite_primes (cnt + 6)) ⟨hnext, hp⟩
  omega

theorem le_nextElementcnt (cnt : ℕ) (hcnt : cnt % 6 = 1) : cnt ≤ nextElementcnt cnt hcnt := by
  induction cnt, hcnt using nextElementcnt.induct with
  | case1 cnt hcnt h => rw [nextElementcnt, if_pos h]
  | case2 cnt hcnt h₀ h₄ =>
    rw [nextElementcnt, if_neg h₀, if_pos h₄]
    omega
  | case3 cnt hcnt h₀ h₄ ih =>
    rw [nextElementcnt, if_neg h₀, if_neg h₄]
    omega

namespace PsyncFileChecksums

variable (cs : PsyncFileChecksums)

/-- `blockcnt`. -/
def blockcnt : ℕ := cs.blocks.length

/-- `elementcnt` of the hash. -/
def elementcnt : ℕ := nextElementcnt ((cs.blockcnt + 1) / 2 * 6 + 1) (by omega)

/-- `blocks[i]`. -/
def block (i : ℕ) : PsyncBlockChecksum := cs.blocks.getD i ⟨Vector.replicate 20 0, 0⟩

/-- The slot at which a lookup of an Adler-32 begins. -/
def homeOf (adler : UInt32) : ℕ := adler.toNat % cs.elementcnt

/-- The slot at which a lookup of the block of an entry begins. -/
def home (idx : ℕ) : ℕ := cs.homeOf (cs.block (idx - 1)).adler

end PsyncFileChecksums

variable (cs : PsyncFileChecksums)

/-- Where a block goes. -/
inductive Place
  | chain (o : ℕ)
  | empty (o : ℕ)
  | ignored

/-- The `do` loop of `psync_net_create_hash` for block `i` at the entry in slot `o`, with
    `MAX_ADLER_COLL-col`. -/
def seek (elements : List ℕ) (i : ℕ) : ℕ → ℕ → Place
  | 0, o =>
    if (cs.block i).sha1 = (cs.block (slot 0 elements o - 1)).sha1 then .chain o
    else .ignored
  | n + 1, o =>
    if (cs.block i).sha1 = (cs.block (slot 0 elements o - 1)).sha1 then .chain o
    else if slot 0 elements (advance cs.elementcnt o) ≠ 0 then
      seek elements i n (advance cs.elementcnt o)
    else .empty (advance cs.elementcnt o)

/-- The slot for block `i`. -/
def place (elements : List ℕ) (i : ℕ) : Place :=
  if slot 0 elements (cs.homeOf (cs.block i).adler) ≠ 0 then
    seek cs elements i maxAdlerColl (cs.homeOf (cs.block i).adler)
  else .empty (cs.homeOf (cs.block i).adler)

/-- `elements` of the hash, `next` of the checksums and the blocks for which a warning was
    logged. -/
structure Hash where
  elements : List ℕ
  next : List ℕ
  ignored : List ℕ

/-- The body of the loop of `psync_net_create_hash`. -/
def insertBlock (h : Hash) (i : ℕ) : Hash :=
  match place cs h.elements i with
  | .chain o =>
    { h with elements := h.elements.set o (i + 1), next := h.next.set i (slot 0 h.elements o) }
  | .empty o => { h with elements := h.elements.set o (i + 1) }
  | .ignored => { h with ignored := i :: h.ignored }

/-- The first `n` rounds of that loop. -/
def insertBlocks (n : ℕ) : Hash :=
  (List.range n).foldl (insertBlock cs)
    ⟨List.replicate cs.elementcnt 0, List.replicate cs.blockcnt 0, []⟩

/-- `psync_net_create_hash`. -/
def psyncNetCreateHash : Hash := insertBlocks cs cs.blockcnt

/-- The loop over the slots for blocks which meet `p`; nothing if it never ends. -/
def lookup (elements : List ℕ) (adler : UInt32) (p : PsyncBlockChecksum → Bool) : Option ℕ :=
  probe 0 (fun idx => p (cs.block (idx - 1))) elements cs.elementcnt (cs.homeOf adler)

/-- `psync_net_hash_has_adler`. -/
def psyncNetHashHasAdler (elements : List ℕ) (adler : UInt32) : Option Bool :=
  (lookup cs elements adler fun b => b.adler = adler).map fun o => slot 0 elements o ≠ 0

/-- `psync_net_hash_has_adler_and_sha1`. -/
def psyncNetHashHasAdlerAndSha1 (elements : List ℕ) (b : PsyncBlockChecksum) : Option ℕ :=
  (lookup cs elements b.adler fun c => c = b).map fun o => slot 0 elements o

/-- `psync_net_hash_remove`. -/
def psyncNetHashRemove (elements : List ℕ) (b : PsyncBlockChecksum) : Option (List ℕ) :=
  (lookup cs elements b.adler fun c => c = b).bind fun o =>
    if slot 0 elements o = 0 then some elements
    else shiftBack 0 cs.home cs.elementcnt (elements.set o 0) o o

/-- The values of `cidx` in the loop of `psync_net_block_match_found`, of at most `n`. -/
def chain (next : List ℕ) : ℕ → ℕ → Option (List ℕ)
  | 0, _ => none
  | n + 1, cidx =>
    if next.getD cidx 0 = 0 then some [cidx]
    else (chain next n (next.getD cidx 0 - 1)).map (cidx :: ·)

/-- The hash while files are searched, and the actions for the blocks. -/
structure State extends Hash where
  blockactions : List PsyncBlockAction

/-- The action for block `i`. -/
def State.action (s : State) (i : ℕ) : PsyncBlockAction := s.blockactions.getD i ⟨.transfer, 0, 0⟩

/-- `psync_net_block_match_found`. -/
def psyncNetBlockMatchFound (s : State) (idx : ℕ) (fileidx : UInt32) (fileoffset : UInt64) :
    Option State :=
  if (s.action (idx - 1)).type ≠ .transfer then some s
  else
    (chain s.next cs.blockcnt (idx - 1)).bind fun visited =>
      (psyncNetHashRemove cs s.elements (cs.block (idx - 1))).map fun elements =>
        { s with
          elements
          blockactions := visited.foldl
            (fun actions c => actions.set c ⟨.copy, fileidx, fileoffset⟩) s.blockactions }

/-- A window of a file: its checksums and where it is. -/
structure Window where
  sums : PsyncBlockChecksum
  fileidx : UInt32
  fileoffset : UInt64

/-- A window is looked up and, if it is a block, marked (`psync_net_check_file_for_blocks`). -/
def searchWindow (s : State) (w : Window) : Option State :=
  (psyncNetHashHasAdler cs s.elements w.sums.adler).bind fun has =>
    if has then
      (psyncNetHashHasAdlerAndSha1 cs s.elements w.sums).bind fun off =>
        if off ≠ 0 then psyncNetBlockMatchFound cs s off w.fileidx w.fileoffset else some s
    else some s

/-- `psync_net_download_ranges` before it searches the files. -/
def initial : State :=
  { psyncNetCreateHash cs with blockactions := List.replicate cs.blockcnt ⟨.transfer, 0, 0⟩ }

/-- The hash and the windows searched for. -/
def machine : Machine State Window where
  init s := s = initial cs
  step := searchWindow cs

/-! ## The table -/

variable {cs} {elements next : List ℕ} {i o d k n : ℕ} {b : PsyncBlockChecksum}

theorem blockcnt_lt_elementcnt : cs.blockcnt < cs.elementcnt := by
  have hle := le_nextElementcnt ((cs.blockcnt + 1) / 2 * 6 + 1) (by omega)
  rw [← PsyncFileChecksums.elementcnt] at hle
  omega

theorem elementcnt_pos : 0 < cs.elementcnt := Nat.zero_lt_of_lt blockcnt_lt_elementcnt

theorem homeOf_lt (adler : UInt32) : cs.homeOf adler < cs.elementcnt := Nat.mod_lt _ elementcnt_pos

variable (cs) in
/-- How often the table holds a block of a checksum. -/
def holds (elements : List ℕ) (b : PsyncBlockChecksum) : ℕ :=
  elements.countP fun idx => idx ≠ 0 ∧ cs.block (idx - 1) = b

theorem holds_pos : 0 < holds cs elements b ↔
    ∃ idx ∈ elements, idx ≠ 0 ∧ cs.block (idx - 1) = b := by
  rw [holds, countP_pos_iff]
  exact ⟨fun ⟨idx, hidx, h⟩ => ⟨idx, hidx, of_decide_eq_true h⟩,
    fun ⟨idx, hidx, h⟩ => ⟨idx, hidx, decide_eq_true h⟩⟩

theorem slot_getElem (ho : o < elements.length) : slot 0 elements o = elements[o] :=
  slot_eq_getElem ho

theorem holds_set (ho : o < elements.length) (idx : ℕ) :
    holds cs (elements.set o idx) b = holds cs elements b -
      (if slot 0 elements o ≠ 0 ∧ cs.block (slot 0 elements o - 1) = b then 1 else 0) +
      (if idx ≠ 0 ∧ cs.block (idx - 1) = b then 1 else 0) := by
  rw [holds, countP_set ho, ← slot_getElem ho]
  simp only [decide_eq_true_eq]
  rfl

theorem holds_clear (ho : o < elements.length) :
    holds cs (elements.set o 0) b = holds cs elements b -
      if slot 0 elements o ≠ 0 ∧ cs.block (slot 0 elements o - 1) = b then 1 else 0 := by
  rw [holds_set ho, if_neg fun hc : (0 : ℕ) ≠ 0 ∧ cs.block (0 - 1) = b => hc.1 rfl, Nat.add_zero]

variable (cs) in
theorem holds_pos_of_slot (ho : o < elements.length) (hne : slot 0 elements o ≠ 0) :
    0 < holds cs elements (cs.block (slot 0 elements o - 1)) :=
  holds_pos.2 ⟨_, slot_mem ho, hne, rfl⟩

theorem exists_slot (h : 0 < holds cs elements b) :
    ∃ o < elements.length, slot 0 elements o ≠ 0 ∧ cs.block (slot 0 elements o - 1) = b := by
  obtain ⟨idx, hidx, hne, hb⟩ := holds_pos.1 h
  obtain ⟨o, ho, rfl⟩ := getElem_of_mem hidx
  rw [← slot_getElem ho] at hne hb
  exact ⟨o, ho, hne, hb⟩

/-- The entries met on the way of `d` slots from `h` on have another SHA-1 than block `i`. -/
def Passed (cs : PsyncFileChecksums) (elements : List ℕ) (i h d : ℕ) : Prop :=
  ∀ e < d, slot 0 elements ((h + e) % cs.elementcnt) ≠ 0 ∧
    (cs.block i).sha1 ≠ (cs.block (slot 0 elements ((h + e) % cs.elementcnt) - 1)).sha1

/-- What is known of a place found from `h` on. -/
def Place.Holds (cs : PsyncFileChecksums) (elements : List ℕ) (i h limit : ℕ) : Place → Prop
  | .chain o => ∃ d ≤ limit, o = (h + d) % cs.elementcnt ∧ Passed cs elements i h d ∧
      slot 0 elements o ≠ 0 ∧ (cs.block i).sha1 = (cs.block (slot 0 elements o - 1)).sha1
  | .empty o => ∃ d ≤ limit, o = (h + d) % cs.elementcnt ∧ Passed cs elements i h d ∧
      slot 0 elements o = 0
  | .ignored => Passed cs elements i h (limit + 1)

theorem Passed.succ {h : ℕ} (hp : Passed cs elements i h k)
    (hne : slot 0 elements ((h + k) % cs.elementcnt) ≠ 0)
    (hsha : (cs.block i).sha1 ≠
      (cs.block (slot 0 elements ((h + k) % cs.elementcnt) - 1)).sha1) :
    Passed cs elements i h (k + 1) := by
  rintro e he
  rcases Nat.lt_succ_iff_lt_or_eq.1 he with he | rfl
  · exact hp e he
  · exact ⟨hne, hsha⟩

theorem seek_holds {h : ℕ} (hp : Passed cs elements i h k)
    (hne : slot 0 elements ((h + k) % cs.elementcnt) ≠ 0) :
    (seek cs elements i n ((h + k) % cs.elementcnt)).Holds cs elements i h (k + n) := by
  induction n generalizing k with
  | zero =>
    rw [seek]
    split
    · rename_i hsha
      exact ⟨k, le_refl _, rfl, hp, hne, hsha⟩
    · rename_i hsha
      exact hp.succ hne hsha
  | succ n ih =>
    rw [seek]
    split
    · rename_i hsha
      exact ⟨k, by omega, rfl, hp, hne, hsha⟩
    · rename_i hsha
      have hp' := hp.succ hne hsha
      rw [advance_mod elementcnt_pos]
      split
      · rename_i hne'
        rw [show k + (n + 1) = k + 1 + n by omega]
        exact ih hp' hne'
      · rename_i hempty
        exact ⟨k + 1, by omega, rfl, hp', not_not.1 hempty⟩

theorem place_holds : (place cs elements i).Holds cs elements i (cs.homeOf (cs.block i).adler)
    maxAdlerColl := by
  have hmod : (cs.homeOf (cs.block i).adler + 0) % cs.elementcnt =
      cs.homeOf (cs.block i).adler := Nat.mod_eq_of_lt (homeOf_lt _)
  have hnone : Passed cs elements i (cs.homeOf (cs.block i).adler) 0 :=
    fun e he => absurd he (Nat.not_lt_zero _)
  rw [place]
  split
  · have hseek := seek_holds (n := maxAdlerColl) hnone (by rwa [hmod])
    rwa [hmod, Nat.zero_add] at hseek
  · rename_i hempty
    exact ⟨0, Nat.zero_le _, hmod.symm, hnone, not_not.1 hempty⟩

/-- The way to a place found is shorter than once around the table. -/
theorem Passed.lt {h : ℕ} (hp : Passed cs elements i h d)
    (hend : slot 0 elements ((h + d) % cs.elementcnt) = 0 ∨
      (cs.block i).sha1 = (cs.block (slot 0 elements ((h + d) % cs.elementcnt) - 1)).sha1) :
    d < cs.elementcnt := by
  by_contra hle
  obtain ⟨hne, hsha⟩ := hp (d - cs.elementcnt) (by have := @elementcnt_pos cs; omega)
  rw [← Nat.add_mod_right, show h + (d - cs.elementcnt) + cs.elementcnt = h + d by omega]
    at hne hsha
  rcases hend with hend | hend
  · exact hne hend
  · exact hsha hend

theorem Passed.along (hlen : elements.length = cs.elementcnt) {h : ℕ}
    (hp : Passed cs elements i h d) : Along 0 elements h d := by
  rintro e he
  rw [hlen]
  exact (hp e he).1

/-- A block of the checksum of an entry is passed on the way there. -/
theorem Passed.not_holds (hlen : elements.length = cs.elementcnt)
    (hprob : Probing 0 cs.home maxAdlerColl elements)
    (hp : Passed cs elements i (cs.homeOf (cs.block i).adler) d)
    (hend : maxAdlerColl < d ∨
      slot 0 elements ((cs.homeOf (cs.block i).adler + d) % cs.elementcnt) = 0) :
    holds cs elements (cs.block i) = 0 := by
  by_contra hpos
  obtain ⟨q, hq, hne, hb⟩ := exists_slot (Nat.pos_of_ne_zero hpos)
  obtain ⟨d', _, hlimit, heq, halong⟩ := hprob q hq hne
  rw [PsyncFileChecksums.home, hb, hlen] at heq
  rw [PsyncFileChecksums.home, hb] at halong
  rcases Nat.lt_or_ge d' d with hlt | hge
  · apply (hp d' hlt).2
    rw [heq, hb]
  · rcases hend with hend | hend
    · omega
    · rcases Nat.eq_or_lt_of_le hge with rfl | hlt
      · rw [heq] at hend
        exact hne hend
      · exact halong d hlt (by rw [hlen]; exact hend)

/-- No other entry has the checksum of one that the table holds once. -/
theorem slot_unique {p q : ℕ} (honce : holds cs elements b ≤ 1) (hp : p < elements.length)
    (hq : q < elements.length) (hpne : slot 0 elements p ≠ 0)
    (hpb : cs.block (slot 0 elements p - 1) = b) (hqne : slot 0 elements q ≠ 0)
    (hqb : cs.block (slot 0 elements q - 1) = b) : p = q := by
  by_contra hne
  have hset := @holds_clear cs _ _ b hp
  rw [if_pos ⟨hpne, hpb⟩] at hset
  have hrest : 0 < holds cs (elements.set p 0) b := by
    have hpos := @holds_pos_of_slot cs (elements.set p 0) q (by rwa [length_set])
      (by rwa [slot_set_ne hne])
    rwa [slot_set_ne hne, hqb] at hpos
  omega

/-! ## The chains -/

/-- The blocks on the `next` chain from block `i` on. -/
inductive Chain (next : List ℕ) : ℕ → List ℕ → Prop
  | last {i : ℕ} : next.getD i 0 = 0 → Chain next i [i]
  | cons {i : ℕ} {l : List ℕ} : next.getD i 0 ≠ 0 → Chain next (next.getD i 0 - 1) l →
      Chain next i (i :: l)

theorem Chain.mem {l : List ℕ} (hc : Chain next i l) : i ∈ l := by
  cases hc with
  | last h => exact mem_singleton_self i
  | cons h hc => exact mem_cons_self

theorem Chain.chain_eq {l : List ℕ} (hc : Chain next i l) (hn : l.length ≤ n) :
    chain next n i = some l := by
  induction hc generalizing n with
  | last h =>
    obtain ⟨n, rfl⟩ := Nat.exists_eq_add_of_le' hn
    rw [length_singleton, chain, if_pos h]
  | @cons i l h hc ih =>
    obtain ⟨n, rfl⟩ := Nat.exists_eq_add_of_le' hn
    rw [length_cons, ← Nat.add_assoc, chain, if_neg h, ih (by omega), map_some]

theorem Chain.of_chain {l : List ℕ} (hc : chain next n i = some l) : Chain next i l := by
  induction n generalizing i l with
  | zero => cases hc
  | succ n ih =>
    rw [chain] at hc
    split at hc
    · rename_i hzero
      obtain ⟨⟩ := hc
      exact .last hzero
    · rename_i hne
      obtain ⟨l', hl', rfl⟩ := map_eq_some_iff.1 hc
      exact .cons hne (ih hl')

theorem Chain.unique {l l' : List ℕ} (hc : Chain next i l) (hc' : Chain next i l') : l = l' := by
  induction hc generalizing l' with
  | last h =>
    cases hc' with
    | last h' => rfl
    | cons h' hc' => exact absurd h h'
  | cons h hc ih =>
    cases hc' with
    | last h' => exact absurd h' h
    | cons h' hc' => rw [ih hc']

theorem getD_set_of_ne {l : List ℕ} (v : ℕ) (h : i ≠ k) : (l.set k v).getD i 0 = l.getD i 0 := by
  rw [getD_eq_getElem?_getD, getElem?_set_ne (Ne.symm h), getD_eq_getElem?_getD]

/-- Chaining another block leaves a chain as it is. -/
theorem Chain.set {l : List ℕ} (hc : Chain next i l) (hk : k ∉ l) (v : ℕ) :
    Chain (next.set k v) i l := by
  induction hc with
  | last h =>
    have hne : k ≠ _ := ne_of_not_mem_cons hk
    exact .last (by rwa [getD_set_of_ne v hne.symm])
  | @cons i l h hc ih =>
    obtain ⟨hne, hk⟩ := ne_and_not_mem_of_not_mem_cons hk
    have hget : (next.set k v).getD i 0 = next.getD i 0 := getD_set_of_ne v hne.symm
    refine .cons (by rwa [hget]) ?_
    rw [hget]
    exact ih hk

/-- The chain of entry `idx` are the blocks of its checksum below `k`. -/
def Chained (cs : PsyncFileChecksums) (next : List ℕ) (k idx : ℕ) : Prop :=
  ∃ l, Chain next (idx - 1) l ∧ l.Nodup ∧ ∀ j, j ∈ l ↔ j < k ∧ cs.block j = cs.block (idx - 1)

/-! ## Creating the hash -/

/-- The table after `k` blocks. -/
structure Built (cs : PsyncFileChecksums) (h : Hash) (k : ℕ) : Prop where
  length : h.elements.length = cs.elementcnt
  lengthNext : h.next.length = cs.blockcnt
  probing : Probing 0 cs.home maxAdlerColl h.elements
  used : h.elements.countP (· ≠ 0) ≤ k
  once : ∀ b, holds cs h.elements b ≤ 1
  inserted : ∀ i < k, i ∉ h.ignored → 0 < holds cs h.elements (cs.block i)
  dropped : ∀ i ∈ h.ignored, holds cs h.elements (cs.block i) = 0 ∧
    Passed cs h.elements i (cs.homeOf (cs.block i).adler) (maxAdlerColl + 1)
  chained : ∀ o < cs.elementcnt, slot 0 h.elements o ≠ 0 →
    Chained cs h.next k (slot 0 h.elements o)
  fresh : ∀ j, k ≤ j → h.next.getD j 0 = 0

theorem getD_replicate_zero (m o : ℕ) : (List.replicate m 0).getD o 0 = 0 := by
  rw [getD_eq_getElem?_getD, getElem?_replicate]
  split <;> rfl

variable (cs) in
theorem built_zero : Built cs (insertBlocks cs 0) 0 := by
  have hslot : ∀ o, slot 0 (List.replicate cs.elementcnt 0) o = 0 := fun o => by
    rw [slot, getD_replicate_zero]
  have hcount : ∀ p : ℕ → Bool, p 0 = false →
      (List.replicate cs.elementcnt 0).countP p = 0 := fun p hp => by
    rw [countP_replicate, if_neg (by rw [hp]; exact Bool.false_ne_true)]
  exact {
    length := length_replicate
    lengthNext := length_replicate
    probing := fun p _ hne => absurd (hslot p) hne
    used := (hcount _ rfl).le
    once := fun b => (hcount _ (by simp)).le.trans (Nat.zero_le 1)
    inserted := fun i hi => absurd hi (Nat.not_lt_zero i)
    dropped := forall_mem_nil _
    chained := fun o _ hne => absurd (hslot o) hne
    fresh := fun j _ => getD_replicate_zero _ _ }

section Put

variable {h : Hash}

theorem holds_put (hb : Built cs h k) (ho : o < h.elements.length)
    (hover : slot 0 h.elements o ≠ 0 → cs.block (slot 0 h.elements o - 1) = cs.block k)
    (hnew : slot 0 h.elements o = 0 → holds cs h.elements (cs.block k) = 0)
    (b : PsyncBlockChecksum) :
    holds cs (h.elements.set o (k + 1)) b =
      if cs.block k = b then 1 else holds cs h.elements b := by
  rw [holds_set ho, Nat.add_sub_cancel]
  by_cases hkb : cs.block k = b
  · rw [if_pos hkb, if_pos (⟨Nat.succ_ne_zero k, hkb⟩ : k + 1 ≠ 0 ∧ _)]
    by_cases hzero : slot 0 h.elements o = 0
    · rw [if_neg fun hc => hc.1 hzero, ← hkb, hnew hzero]
    · have hle := hb.once b
      rw [if_pos ⟨hzero, (hover hzero).trans hkb⟩]
      omega
  · rw [if_neg hkb, if_neg fun hc => hkb ((hover hc.1).symm.trans hc.2),
      if_neg fun hc => hkb hc.2]
    omega

/-- Putting block `k` at the end of a way from its home, over an entry of its checksum or, when no
    entry has it, into a free slot. -/
theorem Built.put (hb : Built cs h k) (hk : k < cs.blockcnt) (hlimit : d ≤ maxAdlerColl)
    (ho : o = (cs.homeOf (cs.block k).adler + d) % cs.elementcnt) (hd : d < cs.elementcnt)
    (halong : Along 0 h.elements (cs.homeOf (cs.block k).adler) d)
    (hover : slot 0 h.elements o ≠ 0 → cs.block (slot 0 h.elements o - 1) = cs.block k)
    (hnew : slot 0 h.elements o = 0 → holds cs h.elements (cs.block k) = 0) :
    Built cs { h with
      elements := h.elements.set o (k + 1)
      next := h.next.set k (slot 0 h.elements o) } (k + 1) := by
  have holt : o < h.elements.length := by
    rw [hb.length, ho]
    exact Nat.mod_lt _ elementcnt_pos
  have hholds := holds_put hb holt hover hnew
  -- the other entries have other checksums, and so have the blocks ignored
  have hothers : ∀ q < h.elements.length, o ≠ q → slot 0 h.elements q ≠ 0 →
      cs.block (slot 0 h.elements q - 1) ≠ cs.block k := by
    rintro q hq hoq hne heq
    have hpos := holds_pos_of_slot cs hq hne
    rw [heq] at hpos
    by_cases hzero : slot 0 h.elements o = 0
    · rw [hnew hzero] at hpos
      exact absurd hpos (Nat.lt_irrefl 0)
    · exact hoq (slot_unique (hb.once _) holt hq hzero (hover hzero) hne heq)
  have hignored : ∀ i ∈ h.ignored, cs.block k ≠ cs.block i := by
    rintro i hi heq
    obtain ⟨hne, hsha⟩ := (hb.dropped i hi).2 d (by omega)
    rw [← heq, ← ho] at hne hsha
    exact hsha (by rw [hover hne])
  have hget : (h.next.set k (slot 0 h.elements o)).getD k 0 = slot 0 h.elements o := by
    rw [getD_eq_getElem?_getD, getElem?_set_self (by rwa [hb.lengthNext]),
      getD_some]
  refine {
    length := (length_set).trans hb.length
    lengthNext := (length_set).trans hb.lengthNext
    probing := ?_
    used := ?_
    once := fun b => ?_
    inserted := fun i hi hni => ?_
    dropped := fun i hi => ⟨?_, fun e he => ?_⟩
    chained := fun q hq hne => ?_
    fresh := fun j hj => ?_ }
  · have hput := hb.probing.put (x := k + 1) (Nat.succ_ne_zero k) (by rwa [hb.length]) hlimit halong
    rw [ho, ← hb.length]
    exact hput
  · refine (countP_set holt).le.trans (Nat.add_le_add ?_ ?_)
    · exact (Nat.sub_le _ _).trans hb.used
    · split <;> omega
  · rw [hholds]
    split
    · exact le_refl 1
    · exact hb.once b
  · rw [hholds]
    split
    · exact Nat.one_pos
    · rename_i hne
      rcases Nat.lt_succ_iff_lt_or_eq.1 hi with hi | rfl
      · exact hb.inserted i hi hni
      · exact absurd rfl hne
  · rw [hholds, if_neg (hignored i hi)]
    exact (hb.dropped i hi).1
  · obtain ⟨hne, hsha⟩ := (hb.dropped i hi).2 e he
    by_cases hoe : o = (cs.homeOf (cs.block i).adler + e) % cs.elementcnt
    · rw [← hoe] at hne hsha
      rw [← hoe, slot_set_self holt, Nat.add_sub_cancel, ← hover hne]
      exact ⟨Nat.succ_ne_zero k, hsha⟩
    · rw [slot_set_ne hoe]
      exact ⟨hne, hsha⟩
  · by_cases hoq : o = q
    · subst hoq
      rw [slot_set_self holt, Chained, Nat.add_sub_cancel]
      by_cases hzero : slot 0 h.elements o = 0
      · refine ⟨[k], .last (hget.trans hzero), nodup_singleton k, fun j => ?_⟩
        rw [mem_singleton]
        refine ⟨fun hj => ⟨by omega, by rw [hj]⟩, fun ⟨hj, heq⟩ => ?_⟩
        by_contra hjk
        by_cases hji : j ∈ h.ignored
        · exact hignored j hji heq.symm
        · have hpos := hb.inserted j (by omega) hji
          rw [heq, hnew hzero] at hpos
          exact absurd hpos (Nat.lt_irrefl 0)
      · obtain ⟨l, hl, hnodup, hmem⟩ := hb.chained o hq hzero
        have hkl : k ∉ l := fun hkl => absurd ((hmem k).1 hkl).1 (Nat.lt_irrefl k)
        refine ⟨k :: l, .cons (by rwa [hget]) (by rw [hget]; exact hl.set hkl _),
          nodup_cons.2 ⟨hkl, hnodup⟩, fun j => ?_⟩
        rw [mem_cons, hmem, hover hzero]
        refine ⟨?_, fun ⟨hj, heq⟩ => ?_⟩
        · rintro (rfl | ⟨hj, heq⟩)
          · exact ⟨Nat.lt_succ_self j, rfl⟩
          · exact ⟨Nat.lt_succ_of_lt hj, heq⟩
        · rcases Nat.lt_succ_iff_lt_or_eq.1 hj with hj | hj
          · exact .inr ⟨hj, heq⟩
          · exact .inl hj
    · rw [slot_set_ne hoq] at hne ⊢
      have hqk := hothers q (by rwa [hb.length]) hoq hne
      obtain ⟨l, hl, hnodup, hmem⟩ := hb.chained q hq hne
      have hkl : k ∉ l := fun hkl => absurd ((hmem k).1 hkl).1 (Nat.lt_irrefl k)
      refine ⟨l, hl.set hkl _, hnodup, fun j => (hmem j).trans ?_⟩
      refine ⟨fun ⟨hj, heq⟩ => ⟨Nat.lt_succ_of_lt hj, heq⟩, fun ⟨hj, heq⟩ => ⟨?_, heq⟩⟩
      refine Nat.lt_of_le_of_ne (Nat.le_of_lt_succ hj) ?_
      rintro rfl
      exact hqk heq.symm
  · exact (getD_set_of_ne _ (by omega)).trans (hb.fresh j (by omega))

variable (cs) in
/-- Block `i` is not chained to one with another Adler-32. -/
def Alike (h : Hash) (i : ℕ) : Prop :=
  ∀ o, place cs h.elements i = .chain o →
    (cs.block i).adler = (cs.block (slot 0 h.elements o - 1)).adler

theorem PsyncBlockChecksum.eq_of {a b : PsyncBlockChecksum} (hs : a.sha1 = b.sha1)
    (ha : a.adler = b.adler) : a = b := by
  cases a
  cases hs
  cases ha
  rfl

theorem set_fresh (hlen : next.length = n) (hk : k < n) (hget : next.getD k 0 = 0) :
    next.set k 0 = next := by
  rw [getD_eq_getElem _ _ (by rwa [hlen])] at hget
  rw [← hget]
  exact set_getElem_self _

theorem Built.insertBlock (hb : Built cs h k) (hk : k < cs.blockcnt) (halike : Alike cs h k) :
    Built cs (insertBlock cs h k) (k + 1) := by
  have hplace := @place_holds cs h.elements k
  rw [BlockSearch.insertBlock]
  cases hp : place cs h.elements k with
  | chain o =>
    rw [hp] at hplace
    obtain ⟨d, hlimit, ho, hpassed, hne, hsha⟩ := hplace
    have heq := PsyncBlockChecksum.eq_of hsha (halike o hp)
    exact hb.put hk hlimit ho (hpassed.lt (.inr (ho ▸ hsha))) (hpassed.along hb.length)
      (fun _ => heq.symm) fun hzero => absurd hzero hne
  | empty o =>
    rw [hp] at hplace
    obtain ⟨d, hlimit, ho, hpassed, hzero⟩ := hplace
    have hput := hb.put hk hlimit ho (hpassed.lt (.inl (ho ▸ hzero))) (hpassed.along hb.length)
      (fun hne => absurd hzero hne)
      fun _ => hpassed.not_holds hb.length hb.probing (.inr (ho ▸ hzero))
    have hsame : h.next.set k 0 = h.next := set_fresh hb.lengthNext hk (hb.fresh k (le_refl k))
    rw [hzero, hsame] at hput
    exact hput
  | ignored =>
    rw [hp] at hplace
    have hzero := Passed.not_holds hb.length hb.probing hplace (.inl (Nat.lt_succ_self _))
    refine { hb with
      used := hb.used.trans (Nat.le_succ k)
      inserted := fun i hi hni => ?_
      dropped := fun i hi => ?_
      chained := fun q hq hne => ?_
      fresh := fun j hj => hb.fresh j (by omega) }
    · obtain ⟨hik, hni⟩ := ne_and_not_mem_of_not_mem_cons hni
      exact hb.inserted i (by omega) hni
    · rcases mem_cons.1 hi with rfl | hi
      · exact ⟨hzero, hplace⟩
      · exact hb.dropped i hi
    · obtain ⟨l, hl, hnodup, hmem⟩ := hb.chained q hq hne
      refine ⟨l, hl, hnodup, fun j => (hmem j).trans ?_⟩
      refine ⟨fun ⟨hj, heq⟩ => ⟨Nat.lt_succ_of_lt hj, heq⟩, fun ⟨hj, heq⟩ => ⟨?_, heq⟩⟩
      refine Nat.lt_of_le_of_ne (Nat.le_of_lt_succ hj) ?_
      rintro rfl
      have hpos := holds_pos_of_slot cs (by rwa [hb.length]) hne
      rw [← heq, hzero] at hpos
      exact absurd hpos (Nat.lt_irrefl 0)

end Put

/-- The table that is created, if no block was chained to one with another Adler-32. -/
theorem built_of_alike (hk : k ≤ cs.blockcnt)
    (halike : ∀ i < k, Alike cs (insertBlocks cs i) i) : Built cs (insertBlocks cs k) k := by
  induction k with
  | zero => exact built_zero cs
  | succ k ih =>
    rw [insertBlocks, range_succ, foldl_append]
    exact (ih (by omega) fun i hi => halike i (by omega)).insertBlock hk
      (halike k (Nat.lt_succ_self k))

/-! ## Searching -/

/-- The invariant: the table holds the blocks which are neither ignored nor marked, each checksum
    once and with its chain. -/
structure Live (cs : PsyncFileChecksums) (s : State) : Prop where
  length : s.elements.length = cs.elementcnt
  probing : Probing 0 cs.home maxAdlerColl s.elements
  room : 0 ∈ s.elements
  once : ∀ b, holds cs s.elements b ≤ 1
  left : ∀ i < cs.blockcnt, 0 < holds cs s.elements (cs.block i) ↔
    i ∉ s.ignored ∧ (s.action i).type = .transfer
  chained : ∀ idx ∈ s.elements, idx ≠ 0 → Chained cs s.next cs.blockcnt idx
  lengthActions : s.blockactions.length = cs.blockcnt

theorem action_initial (i : ℕ) : ((initial cs).action i).type = .transfer := by
  rw [State.action, initial, getD_eq_getElem?_getD, getElem?_replicate]
  split <;> rfl

theorem Built.live (hb : Built cs (psyncNetCreateHash cs) cs.blockcnt) : Live cs (initial cs) where
  length := hb.length
  probing := hb.probing
  room := by
    by_contra hfull
    have hcount : (psyncNetCreateHash cs).elements.countP (· ≠ 0) = cs.elementcnt := by
      rw [← hb.length, countP_eq_length]
      rintro idx hidx
      refine decide_eq_true fun hzero => hfull ?_
      rwa [← hzero]
    have hused := hb.used
    rw [hcount] at hused
    exact absurd blockcnt_lt_elementcnt (Nat.not_lt_of_le hused)
  once := hb.once
  left := fun i hi => by
    refine ⟨fun hpos => ⟨fun hni => ?_, action_initial i⟩, fun h => hb.inserted i hi h.1⟩
    rw [show (initial cs).elements = (psyncNetCreateHash cs).elements from rfl,
      (hb.dropped i hni).1] at hpos
    exact absurd hpos (Nat.lt_irrefl 0)
  chained := fun idx hidx hne => by
    obtain ⟨o, (ho : o < (psyncNetCreateHash cs).elements.length), rfl⟩ := getElem_of_mem hidx
    have hslot := hb.chained o (hb.length ▸ ho)
    rw [slot_getElem ho] at hslot
    exact hslot hne
  lengthActions := length_replicate

variable {s : State}

namespace Live

/-- A lookup ends, and at an entry if the table has one that is looked for. -/
theorem exists_lookup (h : Live cs s) (adler : UInt32) (p : PsyncBlockChecksum → Bool)
    (hp : ∀ b, p b = true → b.adler = adler) :
    ∃ o < s.elements.length, lookup cs s.elements adler p = some o ∧
      (slot 0 s.elements o ≠ 0 → p (cs.block (slot 0 s.elements o - 1)) = true) ∧
      ∀ b, 0 < holds cs s.elements b → p b = true → slot 0 s.elements o ≠ 0 := by
  have hroom : ∃ p < s.elements.length, slot 0 s.elements p = 0 := by
    obtain ⟨o, ho, hzero⟩ := getElem_of_mem h.room
    exact ⟨o, ho, (slot_eq_getElem ho).trans hzero⟩
  obtain ⟨o, ho, hprobe, hstop, hall⟩ := h.probing.exists_probe
    (fun idx => p (cs.block (idx - 1))) hroom (h.length ▸ homeOf_lt adler)
    fun q _ _ hq => by rw [PsyncFileChecksums.home, hp _ hq]
  rw [h.length] at hprobe
  refine ⟨o, ho, hprobe, hstop, fun b hpos hb => ?_⟩
  obtain ⟨q, hq, hne, hqb⟩ := exists_slot hpos
  exact hall q hq hne (by rw [hqb, hb])

theorem exists_found (h : Live cs s) (b : PsyncBlockChecksum) :
    ∃ o < s.elements.length, lookup cs s.elements b.adler (fun c => c = b) = some o ∧
      psyncNetHashHasAdlerAndSha1 cs s.elements b = some (slot 0 s.elements o) ∧
      (slot 0 s.elements o ≠ 0 → cs.block (slot 0 s.elements o - 1) = b) ∧
      (slot 0 s.elements o = 0 → holds cs s.elements b = 0) := by
  obtain ⟨o, ho, hlookup, hstop, hall⟩ := h.exists_lookup b.adler (fun c => c = b)
    fun c hc => by rw [of_decide_eq_true hc]
  refine ⟨o, ho, hlookup, ?_, fun hne => of_decide_eq_true (hstop hne), fun hzero => ?_⟩
  · rw [psyncNetHashHasAdlerAndSha1, hlookup, map_some]
  · by_contra hpos
    exact hall b (Nat.pos_of_ne_zero hpos) (decide_eq_true rfl) hzero

/-- The chain of an entry is walked to its end. -/
theorem exists_chain (h : Live cs s) {idx : ℕ} (hidx : idx ∈ s.elements) (hne : idx ≠ 0) :
    ∃ l, chain s.next cs.blockcnt (idx - 1) = some l ∧ idx - 1 ∈ l ∧ l.Nodup ∧
      ∀ j, j ∈ l ↔ j < cs.blockcnt ∧ cs.block j = cs.block (idx - 1) := by
  obtain ⟨l, hl, hnodup, hmem⟩ := h.chained idx hidx hne
  refine ⟨l, hl.chain_eq ?_, hl.mem, hnodup, hmem⟩
  have hsub : l ⊆ List.range cs.blockcnt := fun j hj => mem_range.2 ((hmem j).1 hj).1
  exact (hnodup.subperm hsub).length_le.trans length_range.le

theorem entry (h : Live cs s) {idx : ℕ} (hidx : idx ∈ s.elements) (hne : idx ≠ 0) :
    idx - 1 < cs.blockcnt ∧ idx - 1 ∉ s.ignored ∧ (s.action (idx - 1)).type = .transfer := by
  obtain ⟨l, _, hself, _, hmem⟩ := h.exists_chain hidx hne
  have hlt := ((hmem _).1 hself).1
  exact ⟨hlt, (h.left _ hlt).1 (holds_pos.2 ⟨idx, hidx, hne, rfl⟩)⟩

/-- Removing an entry removes its checksum and nothing else. -/
theorem exists_remove (h : Live cs s) (ho : o < s.elements.length)
    (hlookup : lookup cs s.elements b.adler (fun c => c = b) = some o)
    (hne : slot 0 s.elements o ≠ 0) (hb : cs.block (slot 0 s.elements o - 1) = b) :
    ∃ u, psyncNetHashRemove cs s.elements b = some u ∧ Probing 0 cs.home maxAdlerColl u ∧
      u.length = cs.elementcnt ∧ 0 ∈ u ∧ (∀ idx ∈ u, idx ≠ 0 → idx ∈ s.elements) ∧
      ∀ c, holds cs u c = if c = b then 0 else holds cs s.elements c := by
  have hroom : ∃ p < s.elements.length, slot 0 s.elements p = 0 := by
    obtain ⟨p, hp, hzero⟩ := getElem_of_mem h.room
    exact ⟨p, hp, (slot_eq_getElem hp).trans hzero⟩
  obtain ⟨u, hu, hprob, hperm⟩ := h.probing.exists_shiftBack ho hne hroom
    fun idx _ _ => h.length ▸ homeOf_lt _
  refine ⟨u, ?_, hprob, ?_, ?_, fun idx hidx hidxne => ?_, fun c => ?_⟩
  · rw [psyncNetHashRemove, hlookup, bind_some, if_neg hne, ← h.length]
    exact hu
  · rw [hperm.length_eq, length_set, h.length]
  · exact hperm.mem_iff.2 (mem_set ho 0)
  · exact (mem_or_eq_of_mem_set (hperm.mem_iff.1 hidx)).resolve_right hidxne
  · rw [holds, hperm.countP_eq, ← holds, holds_clear ho, hb]
    by_cases hcb : b = c
    · have hle := h.once c
      rw [if_pos ⟨hne, hcb⟩, if_pos hcb.symm]
      omega
    · rw [if_neg fun hc => hcb hc.2, if_neg fun hc => hcb hc.symm, Nat.sub_zero]

end Live

theorem action_foldl (l : List ℕ) (v : PsyncBlockAction) (hi : i < s.blockactions.length) :
    (l.foldl (fun actions c => actions.set c v) s.blockactions).getD i ⟨.transfer, 0, 0⟩ =
      if i ∈ l then v else s.action i := by
  rw [State.action]
  generalize s.blockactions = actions at hi ⊢
  induction l generalizing actions with
  | nil => rw [foldl_nil, if_neg not_mem_nil]
  | cons c l ih =>
    rw [foldl_cons, ih _ (by rwa [length_set])]
    by_cases hil : i ∈ l
    · rw [if_pos hil, if_pos (mem_cons_of_mem c hil)]
    · rw [if_neg hil]
      by_cases hic : i = c
      · subst hic
        rw [if_pos mem_cons_self, getD_eq_getElem?_getD, getElem?_set_self hi, getD_some]
      · rw [if_neg fun hc => (mem_cons.1 hc).elim hic hil, getD_eq_getElem?_getD,
          getElem?_set_ne (Ne.symm hic), getD_eq_getElem?_getD]

theorem length_foldl_set (l : List ℕ) (v : PsyncBlockAction) (actions : List PsyncBlockAction) :
    (l.foldl (fun actions c => actions.set c v) actions).length = actions.length := by
  induction l generalizing actions with
  | nil => rfl
  | cons c l ih => rw [foldl_cons, ih, length_set]

/-- A match marks the blocks of its checksum and keeps the invariant. -/
theorem Live.exists_matchFound (h : Live cs s) (ho : o < s.elements.length)
    (hlookup : lookup cs s.elements b.adler (fun c => c = b) = some o)
    (hne : slot 0 s.elements o ≠ 0) (hb : cs.block (slot 0 s.elements o - 1) = b)
    (fileidx : UInt32) (fileoffset : UInt64) :
    ∃ s', psyncNetBlockMatchFound cs s (slot 0 s.elements o) fileidx fileoffset = some s' ∧
      Live cs s' ∧ ∀ j < cs.blockcnt, s'.action j =
        if cs.block j = b then ⟨.copy, fileidx, fileoffset⟩ else s.action j := by
  have hidx : slot 0 s.elements o ∈ s.elements := slot_mem ho
  obtain ⟨l, hl, _, hnodup, hmem⟩ := h.exists_chain hidx hne
  obtain ⟨u, hu, hprob, hlen, hroom, hsub, hholds⟩ := h.exists_remove ho hlookup hne hb
  have haction : ∀ j < cs.blockcnt,
      (l.foldl (fun actions c => actions.set c ⟨.copy, fileidx, fileoffset⟩) s.blockactions).getD j
        ⟨.transfer, 0, 0⟩ =
          if cs.block j = b then ⟨.copy, fileidx, fileoffset⟩ else s.action j := by
    rintro j hj
    rw [action_foldl l _ (by rwa [h.lengthActions])]
    by_cases hjb : cs.block j = b
    · rw [if_pos hjb, if_pos ((hmem j).2 ⟨hj, hjb.trans hb.symm⟩)]
    · rw [if_neg hjb, if_neg fun hc => hjb (((hmem j).1 hc).2.trans hb)]
  refine ⟨{ s with
    elements := u
    blockactions := l.foldl (fun actions c => actions.set c ⟨.copy, fileidx, fileoffset⟩)
      s.blockactions }, ?_, ?_, haction⟩
  · rw [psyncNetBlockMatchFound, if_neg (not_not.2 (h.entry hidx hne).2.2), hl, bind_some,
      hb, hu, map_some]
  · exact {
      length := hlen
      probing := hprob
      room := hroom
      once := fun c => by
        rw [hholds]
        split
        · exact Nat.zero_le 1
        · exact h.once c
      left := fun i hi => by
        rw [hholds, State.action, haction i hi]
        split
        · exact ⟨fun hc => absurd hc (Nat.lt_irrefl 0), fun hc => (by cases hc.2)⟩
        · exact h.left i hi
      chained := fun idx hidx hne => h.chained idx (hsub idx hidx hne) hne
      lengthActions := (length_foldl_set _ _ _).trans h.lengthActions }

variable (cs) in
/-- Block `i` was inserted and not removed since. -/
def Left (s : State) (i : ℕ) : Prop :=
  i < cs.blockcnt ∧ i ∉ s.ignored ∧ (s.action i).type = .transfer

variable (cs) in
/-- The hash finds what is left, and a match marks all of its checksum. -/
structure Sound (s : State) : Prop where
  /-- Every block that is left is on the chain of the entry which a lookup of it returns. -/
  found : ∀ i, Left cs s i → ∃ r l,
    psyncNetHashHasAdlerAndSha1 cs s.elements (cs.block i) = some (r + 1) ∧
      chain s.next cs.blockcnt r = some l ∧ i ∈ l
  /-- A lookup returns a block of the checksum which is left, -/
  only : ∀ b r, psyncNetHashHasAdlerAndSha1 cs s.elements b = some (r + 1) →
    Left cs s r ∧ cs.block r = b
  /-- and nothing for a block which was removed. -/
  gone : ∀ i < cs.blockcnt, (s.action i).type = .copy →
    psyncNetHashHasAdlerAndSha1 cs s.elements (cs.block i) = some 0
  /-- Every lookup ends. -/
  ends : ∀ b, ∃ r, psyncNetHashHasAdlerAndSha1 cs s.elements b = some r
  /-- So does every lookup of an Adler-32, which holds if some block with it is left. -/
  adler : ∀ a, ∃ has, psyncNetHashHasAdler cs s.elements a = some has ∧
    (has = true ↔ ∃ i, Left cs s i ∧ (cs.block i).adler = a)
  /-- A match visits every block of its checksum once, marks it, and leaves the others. -/
  marked : ∀ b r fileidx fileoffset,
    psyncNetHashHasAdlerAndSha1 cs s.elements b = some (r + 1) → ∃ l s',
      chain s.next cs.blockcnt r = some l ∧ l.Nodup ∧
      (∀ j, j ∈ l ↔ j < cs.blockcnt ∧ cs.block j = b) ∧
      psyncNetBlockMatchFound cs s (r + 1) fileidx fileoffset = some s' ∧
      ∀ j < cs.blockcnt, s'.action j =
        if cs.block j = b then ⟨.copy, fileidx, fileoffset⟩ else s.action j

namespace Live

theorem holds_of_left (h : Live cs s) (hl : Left cs s i) : 0 < holds cs s.elements (cs.block i) :=
  (h.left i hl.1).2 hl.2

theorem eq_slot (h : Live cs s) {r : ℕ}
    (hr : psyncNetHashHasAdlerAndSha1 cs s.elements b = some (r + 1)) :
    ∃ o < s.elements.length, lookup cs s.elements b.adler (fun c => c = b) = some o ∧
      slot 0 s.elements o = r + 1 ∧ cs.block r = b := by
  obtain ⟨o, ho, hlookup, hhas, hentry, _⟩ := h.exists_found b
  have hslot := some.inj (hhas.symm.trans hr)
  rw [hslot] at hentry
  exact ⟨o, ho, hlookup, hslot, hentry (Nat.succ_ne_zero r)⟩

theorem sound (h : Live cs s) : Sound cs s where
  found := fun i hl => by
    obtain ⟨o, ho, _, hhas, hentry, hnone⟩ := h.exists_found (cs.block i)
    have hne : slot 0 s.elements o ≠ 0 := fun hzero =>
      absurd (hnone hzero) (Nat.pos_iff_ne_zero.1 (h.holds_of_left hl))
    obtain ⟨l, hchain, _, _, hmem⟩ := h.exists_chain (slot_mem ho) hne
    refine ⟨slot 0 s.elements o - 1, l, ?_, hchain, (hmem i).2 ⟨hl.1, (hentry hne).symm⟩⟩
    rw [hhas, Nat.sub_add_cancel (Nat.pos_of_ne_zero hne)]
  only := fun b r hr => by
    obtain ⟨o, ho, _, hslot, hb⟩ := h.eq_slot hr
    have hentry := h.entry (slot_mem ho : slot 0 s.elements o ∈ s.elements) (by omega)
    rw [hslot, Nat.add_sub_cancel] at hentry
    exact ⟨hentry, hb⟩
  gone := fun i hi hcopy => by
    obtain ⟨o, ho, _, hhas, hentry, _⟩ := h.exists_found (cs.block i)
    rw [hhas]
    by_contra hne
    have hne : slot 0 s.elements o ≠ 0 := fun hzero => hne (by rw [hzero])
    have hpos := holds_pos_of_slot cs ho hne
    rw [hentry hne, h.left i hi, hcopy] at hpos
    cases hpos.2
  ends := fun b => by
    obtain ⟨o, _, _, hhas, _⟩ := h.exists_found b
    exact ⟨_, hhas⟩
  adler := fun a => by
    obtain ⟨o, ho, hlookup, hstop, hall⟩ := h.exists_lookup a (fun b => b.adler = a)
      fun b => of_decide_eq_true
    refine ⟨_, by rw [psyncNetHashHasAdler, hlookup, map_some], ?_, fun ⟨i, hl, hi⟩ => ?_⟩
    · intro hne
      have hne := of_decide_eq_true hne
      exact ⟨_, h.entry (slot_mem ho) hne, of_decide_eq_true (hstop hne)⟩
    · exact decide_eq_true (hall _ (h.holds_of_left hl) (decide_eq_true hi))
  marked := fun b r fileidx fileoffset hr => by
    obtain ⟨o, ho, hlookup, hslot, hb⟩ := h.eq_slot hr
    have hne : slot 0 s.elements o ≠ 0 := by omega
    have hsub : slot 0 s.elements o - 1 = r := by omega
    obtain ⟨l, hchain, _, hnodup, hmem⟩ := h.exists_chain (slot_mem ho) hne
    obtain ⟨s', hs', _, haction⟩ := h.exists_matchFound ho hlookup hne (by rw [hsub, hb]) fileidx
      fileoffset
    rw [hsub] at hchain hmem
    rw [hslot] at hs'
    exact ⟨l, s', hchain, hnodup, by rwa [hb] at hmem, hs', haction⟩

/-- Searching for a window ends and keeps the invariant. -/
theorem exists_searchWindow (h : Live cs s) (w : Window) :
    ∃ s', searchWindow cs s w = some s' ∧ Live cs s' := by
  obtain ⟨has, hhas, _⟩ := h.sound.adler w.sums.adler
  rw [searchWindow, hhas, bind_some]
  cases has with
  | false => exact ⟨s, rfl, h⟩
  | true =>
    obtain ⟨o, ho, hlookup, hfound, hentry, _⟩ := h.exists_found w.sums
    rw [if_pos rfl, hfound, bind_some]
    by_cases hne : slot 0 s.elements o = 0
    · rw [if_neg (not_not.2 hne)]
      exact ⟨s, rfl, h⟩
    · rw [if_pos hne]
      obtain ⟨s', hs', hlive, _⟩ := h.exists_matchFound ho hlookup hne (hentry hne) w.fileidx
        w.fileoffset
      exact ⟨s', hs', hlive⟩

theorem exists_run (h : Live cs s) (ws : List Window) :
    ∃ s', (machine cs).run s ws = some s' ∧ Live cs s' := by
  induction ws generalizing s with
  | nil => exact ⟨s, rfl, h⟩
  | cons w ws ih =>
    obtain ⟨t, ht, hlive⟩ := h.exists_searchWindow w
    obtain ⟨s', hs', hlive'⟩ := ih hlive
    exact ⟨s', (congrArg (·.bind fun t => (machine cs).run t ws) ht).trans hs', hlive'⟩

end Live

/-! ## Blocks chained to one with another Adler-32 -/

/-- The blocks on the chain of every entry belong to its slot. -/
structure Owned (cs : PsyncFileChecksums) (h : Hash) (k : ℕ) (owner : ℕ → ℕ) : Prop where
  lengthNext : h.next.length = cs.blockcnt
  length : h.elements.length = cs.elementcnt
  chained : ∀ o < cs.elementcnt, slot 0 h.elements o ≠ 0 → ∃ l,
    Chain h.next (slot 0 h.elements o - 1) l ∧ ∀ x ∈ l, x < k ∧ x ∉ h.ignored ∧ owner x = o
  dropped : ∀ i ∈ h.ignored, i < k
  fresh : ∀ j, k ≤ j → h.next.getD j 0 = 0

theorem Owned.put {h : Hash} {owner : ℕ → ℕ} (hw : Owned cs h k owner) (hk : k < cs.blockcnt)
    (ho : o < cs.elementcnt) :
    Owned cs { h with
      elements := h.elements.set o (k + 1)
      next := h.next.set k (slot 0 h.elements o) } (k + 1) (update owner k o) := by
  have holt : o < h.elements.length := by rwa [hw.length]
  have hkept : ∀ q < cs.elementcnt, slot 0 h.elements q ≠ 0 → ∃ l,
      Chain (h.next.set k (slot 0 h.elements o)) (slot 0 h.elements q - 1) l ∧
        ∀ x ∈ l, x < k + 1 ∧ x ∉ h.ignored ∧ update owner k o x = q := by
    rintro q hq hne
    obtain ⟨l, hl, hmem⟩ := hw.chained q hq hne
    have hkl : k ∉ l := fun hkl => absurd (hmem k hkl).1 (Nat.lt_irrefl k)
    refine ⟨l, hl.set hkl _, fun x hx => ?_⟩
    obtain ⟨hlt, hni, how⟩ := hmem x hx
    exact ⟨by omega, hni, by rw [update_of_ne (by omega), how]⟩
  have hself : k < k + 1 ∧ k ∉ h.ignored ∧ update owner k o k = o :=
    ⟨Nat.lt_succ_self k, fun hk => absurd (hw.dropped k hk) (Nat.lt_irrefl k),
      update_self _ _ _⟩
  have hget : (h.next.set k (slot 0 h.elements o)).getD k 0 = slot 0 h.elements o := by
    rw [getD_eq_getElem?_getD, getElem?_set_self (by rwa [hw.lengthNext]),
      getD_some]
  refine {
    lengthNext := (length_set).trans hw.lengthNext
    length := (length_set).trans hw.length
    chained := fun q hq hne => ?_
    dropped := fun i hi => (hw.dropped i hi).trans (Nat.lt_succ_self k)
    fresh := fun j hj => (getD_set_of_ne _ (by omega)).trans (hw.fresh j (by omega)) }
  by_cases hoq : o = q
  · subst hoq
    rw [slot_set_self holt, Nat.add_sub_cancel]
    by_cases hzero : slot 0 h.elements o = 0
    · refine ⟨[k], .last (hget.trans hzero), fun x hx => ?_⟩
      rw [mem_singleton.1 hx]
      exact hself
    · obtain ⟨l, hl, hmem⟩ := hkept o hq hzero
      refine ⟨k :: l, .cons (by rwa [hget]) (by rwa [hget]), fun x hx => ?_⟩
      rcases mem_cons.1 hx with rfl | hx
      · exact hself
      · exact hmem x hx
  · rw [slot_set_ne hoq] at hne ⊢
    exact hkept q hq hne

theorem Owned.insertBlock {h : Hash} {owner : ℕ → ℕ} (hw : Owned cs h k owner)
    (hk : k < cs.blockcnt) :
    ∃ owner', Owned cs (insertBlock cs h k) (k + 1) owner' ∧ (∀ x < k, owner' x = owner x) ∧
      ∀ o, place cs h.elements k = .chain o →
        owner' k = o ∧ owner' (slot 0 h.elements o - 1) = o ∧ slot 0 h.elements o - 1 < k ∧
          slot 0 h.elements o - 1 ∉ h.ignored := by
  have hplace := @place_holds cs h.elements k
  rw [BlockSearch.insertBlock]
  cases hp : place cs h.elements k with
  | chain o =>
    rw [hp] at hplace
    obtain ⟨d, _, ho, _, hne, _⟩ := hplace
    have holt : o < cs.elementcnt := ho ▸ Nat.mod_lt _ elementcnt_pos
    obtain ⟨l, hl, hmem⟩ := hw.chained o holt hne
    obtain ⟨hlt, hni, how⟩ := hmem _ hl.mem
    refine ⟨_, hw.put hk holt, fun x hx => update_of_ne (by omega) _ _, fun o' ho' => ?_⟩
    cases ho'
    exact ⟨update_self _ _ _, by rw [update_of_ne (by omega), how], hlt, hni⟩
  | empty o =>
    rw [hp] at hplace
    obtain ⟨d, _, ho, _, hzero⟩ := hplace
    have hput := hw.put hk (ho ▸ Nat.mod_lt _ elementcnt_pos : o < cs.elementcnt)
    have hsame : h.next.set k 0 = h.next := set_fresh hw.lengthNext hk (hw.fresh k (le_refl k))
    rw [hzero, hsame] at hput
    exact ⟨_, hput, fun x hx => update_of_ne (by omega) _ _, fun o' ho' => by cases ho'⟩
  | ignored =>
    refine ⟨owner, { hw with
      chained := fun q hq hne => ?_
      dropped := fun i hi => ?_
      fresh := fun j hj => hw.fresh j (by omega) }, fun _ _ => rfl, fun o' ho' => by cases ho'⟩
    · obtain ⟨l, hl, hmem⟩ := hw.chained q hq hne
      refine ⟨l, hl, fun x hx => ?_⟩
      obtain ⟨hlt, hni, how⟩ := hmem x hx
      exact ⟨by omega, fun hc => (mem_cons.1 hc).elim (by omega) hni, how⟩
    · rcases mem_cons.1 hi with rfl | hi
      · exact Nat.lt_succ_self i
      · exact (hw.dropped i hi).trans (Nat.lt_succ_self k)

theorem not_mem_ignored {h : Hash} {x : ℕ} (hx : x < k) (hni : x ∉ h.ignored) :
    x ∉ (insertBlock cs h k).ignored := by
  rw [insertBlock]
  cases place cs h.elements k with
  | chain o | empty o => exact hni
  | ignored => exact fun hc => (mem_cons.1 hc).elim (by omega) hni

variable (cs) in
theorem exists_owned (hk : k ≤ cs.blockcnt) : ∃ owner, Owned cs (insertBlocks cs k) k owner := by
  induction k with
  | zero =>
    have hb := built_zero cs
    refine ⟨id, hb.lengthNext, hb.length, fun o _ hne => absurd ?_ hne, ?_, hb.fresh⟩
    · exact getD_replicate_zero _ _
    · exact forall_mem_nil _
  | succ k ih =>
    obtain ⟨owner, hw⟩ := ih (by omega)
    obtain ⟨owner', hw', _⟩ := hw.insertBlock hk
    rw [insertBlocks, range_succ, foldl_append]
    exact ⟨owner', hw'⟩

/-- What two blocks belong to stays as further blocks are inserted. -/
theorem Owned.exists_later {owner : ℕ → ℕ} (hw : Owned cs (insertBlocks cs k) k owner)
    (hk : k + n ≤ cs.blockcnt) :
    ∃ owner', Owned cs (insertBlocks cs (k + n)) (k + n) owner' ∧ ∀ x < k, owner' x = owner x ∧
      (x ∉ (insertBlocks cs k).ignored → x ∉ (insertBlocks cs (k + n)).ignored) := by
  induction n with
  | zero => exact ⟨owner, hw, fun x _ => ⟨rfl, id⟩⟩
  | succ n ih =>
    obtain ⟨owner', hw', hsame⟩ := ih (by omega)
    obtain ⟨owner'', hw'', hsame', _⟩ := hw'.insertBlock (by omega)
    rw [← Nat.add_assoc, insertBlocks, range_succ, foldl_append]
    refine ⟨owner'', hw'', fun x hx => ?_⟩
    obtain ⟨heq, hni⟩ := hsame x hx
    exact ⟨(hsame' x (by omega)).trans heq, fun h => not_mem_ignored (by omega) (hni h)⟩

theorem Sound.exists_owner {s : State} {owner : ℕ → ℕ} (hs : Sound cs s)
    (hw : Owned cs s.toHash k owner) (hl : Left cs s i) :
    ∃ r, slot 0 s.elements (owner i) = r + 1 ∧ cs.block r = cs.block i := by
  obtain ⟨r, l, hr, hchain, hil⟩ := hs.found i hl
  obtain ⟨o, _, hslot⟩ := map_eq_some_iff.1 hr
  have holt : o < s.elements.length := by
    by_contra hlen
    rw [slot, getD_eq_default _ _ (Nat.le_of_not_lt hlen)] at hslot
    cases hslot
  obtain ⟨l', hl', hmem⟩ := hw.chained o (hw.length ▸ holt) (by omega)
  rw [hslot, Nat.add_sub_cancel] at hl'
  obtain rfl := hl'.unique (.of_chain hchain)
  exact ⟨r, by rw [(hmem i hil).2.2, hslot], (hs.only _ r hr).2⟩

/-- A block chained to one with another Adler-32: one of the two is not found. -/
theorem Sound.alike (hs : Sound cs (initial cs)) (hk : k < cs.blockcnt) :
    Alike cs (insertBlocks cs k) k := by
  rintro o ho
  obtain ⟨owner, hw⟩ := exists_owned cs (Nat.le_of_lt hk)
  obtain ⟨owner₁, hw1, _, hplace⟩ := hw.insertBlock hk
  obtain ⟨hown, howner, hlt, hni⟩ := hplace o ho
  have hstep : insertBlock cs (insertBlocks cs k) k = insertBlocks cs (k + 1) := by
    rw [insertBlocks, insertBlocks, range_succ, foldl_append]
    rfl
  have hkni : k ∉ (insertBlocks cs (k + 1)).ignored := by
    rw [← hstep, insertBlock, ho]
    exact fun hc => absurd (hw.dropped k hc) (Nat.lt_irrefl k)
  have hjni := @not_mem_ignored cs _ _ _ hlt hni
  rw [hstep] at hw1 hjni
  obtain ⟨n, hn⟩ := Nat.exists_eq_add_of_le hk
  obtain ⟨owner₂, hw2, hlater⟩ := hw1.exists_later (n := n) hn.ge
  rw [show k + 1 + n = cs.blockcnt from hn.symm] at hw2 hlater
  obtain ⟨hk2, hkni2⟩ := hlater k (Nat.lt_succ_self k)
  obtain ⟨hj2, hjni2⟩ := hlater _ (hlt.trans (Nat.lt_succ_self k))
  obtain ⟨r, hr, hrk⟩ := hs.exists_owner hw2 ⟨hk, hkni2 hkni, action_initial k⟩
  obtain ⟨r', hr', hrj⟩ := hs.exists_owner hw2 ⟨hlt.trans hk, hjni2 hjni, action_initial _⟩
  rw [hk2, hown] at hr
  rw [hj2, howner, hr] at hr'
  obtain rfl := Nat.succ.inj hr'
  rw [← hrk, hrj]

/-- Whatever is searched for, in every order: the hash is sound after it, if and only if no block
    was chained to one with another Adler-32 when it was created. -/
theorem sound_iff_alike (cs : PsyncFileChecksums) :
    (∀ ws, ∃ s, (machine cs).run (initial cs) ws = some s ∧ Sound cs s) ↔
      ∀ i < cs.blockcnt, Alike cs (insertBlocks cs i) i := by
  refine ⟨fun h i hi => ?_, fun halike ws => ?_⟩
  · obtain ⟨s, hs, hsound⟩ := h []
    obtain ⟨⟩ := hs
    exact hsound.alike hi
  · obtain ⟨s, hs, hlive⟩ := (built_of_alike (le_refl _) halike).live.exists_run ws
    exact ⟨s, hs, hlive.sound⟩

/-- Two blocks with one SHA-1 whose Adler-32 have one home in a table of 7 slots. -/
def colliding : PsyncFileChecksums :=
  ⟨[⟨Vector.replicate 20 0, 0⟩, ⟨Vector.replicate 20 0, 7⟩], by decide⟩

theorem elementcnt_colliding : colliding.elementcnt = 7 := by
  have hprime : psyncIsPrime 7 = true := by
    rw [psyncIsPrime, psyncIsPrimeFrom, if_neg (by decide)]
  have hnext : nextElementcnt 7 rfl = 7 := by rw [nextElementcnt, if_pos hprime]
  exact hnext

/-- The second block takes the place of the first, which is not found any more. -/
theorem not_sound : ¬ ∀ ws, ∃ s, (machine colliding).run (initial colliding) ws = some s ∧
    Sound colliding s := by
  intro h
  obtain ⟨s, hs, hsound⟩ := h []
  obtain ⟨⟩ := hs
  have hhome : ∀ a, colliding.homeOf a = a.toNat % 7 := fun a => by
    rw [PsyncFileChecksums.homeOf, elementcnt_colliding]
  have hsecond : place colliding [1, 0, 0, 0, 0, 0, 0] 1 = .chain 0 := by
    rw [place, hhome, show maxAdlerColl = 63 + 1 from rfl, seek]
    rfl
  have hcreate : psyncNetCreateHash colliding = ⟨[2, 0, 0, 0, 0, 0, 0], [0, 1], []⟩ := by
    rw [psyncNetCreateHash, insertBlocks, elementcnt_colliding]
    have hzero : insertBlock colliding ⟨List.replicate 7 0, List.replicate 2 0, []⟩ 0 =
        ⟨[1, 0, 0, 0, 0, 0, 0], [0, 0], []⟩ := by
      rfl
    have hone : insertBlock colliding ⟨[1, 0, 0, 0, 0, 0, 0], [0, 0], []⟩ 1 =
        ⟨[2, 0, 0, 0, 0, 0, 0], [0, 1], []⟩ := by
      rw [insertBlock, hsecond]
      rfl
    exact (congrArg (fun h => insertBlock colliding h 1) hzero).trans hone
  obtain ⟨r, l, hr, _⟩ := hsound.found 0 ⟨by decide, by rw [initial, hcreate]; decide, rfl⟩
  have hnone : psyncNetHashHasAdlerAndSha1 colliding (initial colliding).elements
      (colliding.block 0) = some 0 := by
    rw [initial, hcreate, psyncNetHashHasAdlerAndSha1, lookup, hhome, elementcnt_colliding]
    decide
  rw [hnone] at hr
  cases hr

end Pclsync.BlockSearch
