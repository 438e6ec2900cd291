import Pclsync.EncryptedFile.Calls
import Pclsync.Guarded.Rules

/-!
# The mutex of encrypted files

Every function is entered with the mutex held, and either returns with it or has released it. The
caller has to know which, and the result has to be an error when a sector was not read or written.
This holds of all functions (`Good`), except for four places (`Branch`): at three of them a function
returns without the mutex to callers that release it (`Left`), at the fourth it releases the mutex
and goes on. Each time the mutex is released again later (`broken`).

* `FileCall.disciplined_iff`: a call keeps the rules when none of the four branches is taken, and
  only then.
-/

namespace Pclsync

open Guarded Crypto List

namespace EncryptedFile

/-! ## Conditions -/

/-- The mutex was used well and nothing failed. -/
def Fine (held : Bool) (s : World) : Prop := s.mutex = .sound held ∧ s.notes = []

/-- The mutex was used well, and none of the branches taken. -/
def Sound (held : Bool) (s : World) : Prop :=
  s.mutex = .sound held ∧ ∀ b, Note.branch b ∉ s.notes

/-- The mutex was used well, and if something failed then the result is an error. -/
def Good (held : Bool) (ret : ℤ) (s : World) : Prop := Fine held s ∨ ret < 0 ∧ Sound held s

/-- One of the branches has been taken, and the mutex is not held. -/
def Doomed (s : World) : Prop := s.mutex = .sound false ∧ ∃ b, Note.branch b ∈ s.notes

/-- After a function whose callers release the mutex. -/
def Left (ret : ℤ) (s : World) : Prop := Good true ret s ∨ ret < 0 ∧ Doomed s

/-- One of the branches has been taken, and the mutex misused. -/
def broken : Failure EncryptedFile Reply Note where
  holds s := 0 < s.mutex.misuses ∧ ∃ b, Note.branch b ∈ s.notes
  stable h hs := ⟨hs.1.trans_le h.misuses, hs.2.imp fun _ hb => h.notes _ hb⟩

/-- A function keeps the rules and leaves the mutex as it is. -/
abbrev Keeps (held : Bool) (x : Op ℤ) : Prop := Spec broken (Fine held) x (Good held)

/-- A function keeps the rules and releases the mutex. -/
abbrev Releases (x : Op ℤ) : Prop := Spec broken (Fine true) x (Good false)

/-- A function keeps the rules, and its callers release the mutex. -/
abbrev Leaves (x : Op ℤ) : Prop := Spec broken (Fine true) x Left

/-- A part of a function keeps the rules, and nothing fails in it. -/
abbrev Calm (held : Bool) {α : Type} (x : Op α) : Prop :=
  Spec broken (Fine held) x fun _ => Fine held

variable {held checkextender : Bool} {ret : ℤ} {s : World} {α : Type} {P : World → Prop}
  {x y : Op ℤ}
  {size offset sectorid rd full sectors rounds fuel firstsectorid lastsectorid oldsize pages : ℕ}

theorem Fine.sound (h : Fine held s) : Sound held s :=
  ⟨h.1, fun b hb => by rw [h.2] at hb; exact not_mem_nil hb⟩

theorem Good.sound (h : Good held ret s) : Sound held s := h.elim Fine.sound And.right

theorem Good.fine (h : Good held ret s) (hret : ¬ ret < 0) : Fine held s :=
  h.resolve_right fun hneg => hret hneg.1

theorem Good.left (h : Good true ret s) : Left ret s := .inl h

theorem Left.fine (h : Left ret s) (hret : ¬ ret < 0) : Fine true s :=
  (h.resolve_right fun hneg => hret hneg.1).fine hret

/-! ## Steps -/

theorem fine_get : Calm held Prog.get := .get fun _ h => h

theorem fine_ask {f : Reply → Option α} : Calm held (Prog.ask f) := .ask fun _ _ _ _ _ h => h

theorem fine_modify {f : EncryptedFile → EncryptedFile} :
    Calm held (Prog.modify f) := .modify fun _ h => h

theorem fine_ofOption {o : Option α} : Calm held (Prog.ofOption o) := .ofOption fun _ _ _ h => h

theorem fine_lock : Spec broken (Fine false) Prog.lock fun _ => Fine true :=
  .lock fun _ _ _ h => ⟨congrArg Mutex.lock h.1, h.2⟩

theorem fine_unlock : Spec broken (Fine true) Prog.unlock fun _ => Fine false :=
  .unlock fun _ h => ⟨congrArg Mutex.unlock h.1, h.2⟩

theorem fine_wait : Calm true Prog.wait :=
  .bind fine_unlock fun _ => fine_lock

theorem fine_lock_unlock : Calm false (do Prog.lock; Prog.unlock) :=
  .bind fine_lock fun _ => fine_unlock

theorem note_failed : Spec broken (Fine held) (Prog.note .failed) fun _ => Sound held := by
  refine .note fun s h => ⟨h.1, fun b hb => ?_⟩
  rcases mem_cons.1 hb with hb | hb
  · cases hb
  · exact h.sound.2 b hb

theorem fail {ret : ℤ} (hret : ret < 0) : Keeps held (do Prog.note .failed; pure ret) :=
  .bind note_failed fun _ => .pure fun _ h => .inr ⟨hret, h⟩

theorem fine_pure : Keeps held (pure ret) :=
  .pure fun _ h => .inl h

theorem good_pure : Spec broken (Good held ret) (pure ret) (Good held) := .pure fun _ h => h

theorem good_unlockRet : Spec broken (Good true ret) (unlockRet ret) (Good false) := by
  refine .via (fun _ => Good false ret) (.unlock fun s h => ?_) fun _ => good_pure
  exact h.imp (fun h => ⟨congrArg Mutex.unlock h.1, h.2⟩)
    fun h => ⟨h.1, congrArg Mutex.unlock h.2.1, h.2.2⟩

theorem fine_unlockRet : Releases (unlockRet ret) :=
  good_unlockRet.strengthen fun _ h => .inl h

/-- The mutex is released although it is not held. -/
theorem doomed_unlock {Q : Unit → World → Prop} : Spec broken Doomed Prog.unlock Q := by
  intro s a s' hrun h
  cases hrun
  refine .inr ⟨?_, h.2⟩
  change 0 < s.mutex.unlock.misuses
  rw [h.1]
  exact Nat.zero_lt_one

theorem left_unlockRet : Spec broken (Left ret) (unlockRet ret) (Good false) :=
  .cases good_unlockRet
    (.bind (doomed_unlock.strengthen fun _ h => h.2) fun _ => good_pure)

theorem note_branch (b : Branch) {held : Bool} (h : held = false) :
    Spec broken (Sound held) (Prog.note (.branch b)) fun _ => Doomed :=
  .note fun _ hs => ⟨h ▸ hs.1, b, mem_cons_self⟩

/-- An error ends the function, and else it goes on. -/
theorem onError {c : Prop} [Decidable c] {x y : Op α} {Q : α → World → Prop}
    (hc : ¬ c → ¬ ret < 0) (hx : Spec broken (Good held ret) x Q)
    (hy : Spec broken (Fine held) y Q) : Spec broken (Good held ret) (if c then x else y) Q :=
  .ite (fun _ => hx) fun hret => hy.strengthen fun _ h => h.fine (hc hret)

theorem good_orReturn (hx : Spec broken P x (Good held))
    (hy : Keeps held y) : Spec broken P (orReturn x y) (Good held) := by
  exact .bind hx fun ret => onError (mt ne_of_lt) good_pure hy

theorem left_orReturn (hx : Spec broken P x Left) (hy : Leaves y) :
    Spec broken P (orReturn x y) Left := by
  refine .bind hx fun ret => .ite (fun _ => .pure fun _ h => h) fun hret =>
    hy.strengthen fun s h => ?_
  exact h.fine fun hneg => hret hneg.ne

theorem fine_askIo {y : Bool → Op α} {Q : α → World → Prop}
    (htrue : Spec broken (Fine held) (y true) Q) (hfalse : Spec broken (Sound held) (y false) Q) :
    Spec broken (Fine held) (askIo >>= y) Q := by
  refine .via (fun b s => b = true ∧ Fine held s ∨ b = false ∧ Sound held s) ?_ fun b => ?_
  · refine .bind fine_ask fun b => .ite (fun _ => .pure fun _ h => .inl ⟨rfl, h⟩) fun _ => ?_
    exact .bind note_failed fun _ => .pure fun _ h => .inr ⟨rfl, h⟩
  · rcases b with _ | _
    · exact hfalse.strengthen fun s h => (h.resolve_left fun h => Bool.noConfusion h.1).2
    · exact htrue.strengthen fun s h => (h.resolve_right fun h => Bool.noConfusion h.1).2

/-! ## Sectors -/

theorem good_readNewfileFullSector : Keeps held (readNewfileFullSector sectorid) := by
  refine .bind fine_ask fun r => ?_
  rcases r with _ | rd
  · exact fail (by decide)
  · exact fine_pure

theorem good_readNewfilePartialSector :
    Keeps held (readNewfilePartialSector sectorid size offset) := by
  exact .bind good_readNewfileFullSector fun rd => onError (mt le_of_lt) good_pure
    (.ite (fun _ => fine_pure) fun _ => fine_pure)

theorem sound_resetLogToOff : Spec broken (Sound held) resetLogToOff fun _ => Sound held := by
  refine .via (fun _ => Sound held) (.ask fun _ _ _ _ _ h => h) fun r => ?_
  rcases r with _ | ⟨sz, inited⟩
  · exact .pure fun _ h => h
  · refine .via (fun _ => Sound held) (.ofOption fun _ _ _ h => h) fun currentsize => ?_
    exact .modify fun _ h => h

theorem good_writeNewfileFullSector : Keeps held (writeNewfileFullSector sectorid size) := by
  refine .bind fine_ask fun ok => .ite (fun _ => ?_) fun _ => ?_
  · exact .bind fine_modify fun _ => fine_pure
  · refine .bind note_failed fun _ => .bind sound_resetLogToOff fun _ => ?_
    exact .pure fun _ h => .inr ⟨by decide, h⟩

theorem good_writeNewfilePartialSector :
    Keeps held (writeNewfilePartialSector sectorid size offset) := by
  exact .bind good_readNewfileFullSector fun rd => onError id good_pure good_writeNewfileFullSector

theorem good_finalizeLog : Keeps held finalizeLog := by
  refine .bind fine_ask fun r => .bind fine_modify fun _ => ?_
  exact .ite (fun _ => fine_pure) fun _ => fail (by decide)

/-! ## The extender -/

theorem good_extenderError (e : Extender) : Keeps held (extenderError e) :=
  .ite (fun _ => fine_pure) fun hne => fail (lt_of_le_of_ne e.error_nonpos hne)

theorem fine_waitRound (p : Extender → Prop) [DecidablePred p] : Spec broken (Fine true)
    (waitRound p) (Round (Fine true) fun _ => Fine true) := by
  refine .bind fine_get fun of => ?_
  rcases of.extender with _ | e
  · exact .pure fun _ h => h
  · refine .ite (fun _ => .pure fun _ h => h) fun _ => ?_
    exact .bind fine_wait fun _ => .pure fun _ h => h

/-- The mutex is released and taken again, over which an error is carried. -/
theorem good_goneRound : Spec broken (Good true ret) goneRound
    (Round (Good true ret) fun _ => Good true ret) := by
  refine .via (fun _ => Good false ret) (.unlock fun s h => ?_) fun _ => ?_
  · exact h.imp (fun h => ⟨congrArg Mutex.unlock h.1, h.2⟩)
      fun h => ⟨h.1, congrArg Mutex.unlock h.2.1, h.2.2⟩
  refine .via (fun _ => Good true ret) (.lock fun s _ _ h => ?_) fun _ => ?_
  · exact h.imp (fun h => ⟨congrArg Mutex.lock h.1, h.2⟩)
      fun h => ⟨h.1, congrArg Mutex.lock h.2.1, h.2.2⟩
  refine .via (fun _ => Good true ret) (.get fun _ h => h) fun of => ?_
  exact .ite (fun _ => .pure fun _ h => h) fun _ => .pure fun _ h => h

theorem good_waitNoExtenderLocked : Keeps true waitNoExtenderLocked := by
  refine .bind (.loop (fine_waitRound _)) fun extender => ?_
  rcases extender with _ | e
  · exact fine_pure
  · refine .bind (good_extenderError e) fun ret => ?_
    exact .via (fun _ => Good true ret) (.loop good_goneRound) fun _ => good_pure

theorem good_waitExtenderAfterLocked : Keeps true (waitExtenderAfterLocked offset) := by
  refine .bind (.loop (fine_waitRound _)) fun extender => ?_
  rcases extender with _ | e
  · exact fine_pure
  · exact good_extenderError e

/-! ## Files that are all local -/

theorem Good.short (h : Good held ret s) (rd : ℕ) : Good held (shortRead ret rd) s := by
  refine h.imp_right fun hneg => ⟨?_, hneg.2⟩
  rw [shortRead, if_pos hneg.1]
  exact hneg.1

theorem good_readSectors : Releases (readSectors full size sectorid rd) := by
  induction full generalizing size sectorid rd with
  | zero =>
    refine .ite (fun _ => fine_unlockRet) fun _ => ?_
    exact .bind good_readNewfilePartialSector fun ret => onError (by omega)
      (good_unlockRet.strengthen fun s h => h.short _) fine_unlockRet
  | succ full ih =>
    exact .bind good_readNewfileFullSector fun ret => onError (by omega)
      (good_unlockRet.strengthen fun s h => h.short _) ih

theorem good_readNewfileLocked : Releases (readNewfileLocked size offset) := by
  refine .ite (fun _ => fine_unlockRet) fun _ => ?_
  refine .bind good_waitExtenderAfterLocked fun ret => onError (mt ne_of_lt) good_unlockRet ?_
  refine .bind fine_get fun of => .ite (fun _ => fine_unlockRet) fun _ => ?_
  refine .ite (fun _ => good_readSectors) fun _ => ?_
  exact .bind good_readNewfilePartialSector fun ret => onError (by omega) good_unlockRet
    good_readSectors

theorem fine_growTo : Calm held (growTo offset) := fine_modify

theorem good_fillSectors : Keeps held (fillSectors sectors size offset sectorid) := by
  induction sectors generalizing size offset sectorid with
  | zero => exact fine_pure
  | succ sectors ih =>
    exact .bind good_writeNewfileFullSector fun ret => onError id good_pure
      (.bind fine_growTo fun _ => ih)

theorem good_newfileFillzero : Keeps held (newfileFillzero size offset) := by
  refine .ite (fun _ => good_fillSectors) fun _ => ?_
  exact .bind good_writeNewfilePartialSector fun ret => onError id good_pure
    (.bind fine_growTo fun _ => good_fillSectors)

theorem good_writeSectors : Keeps held (writeSectors full offset sectorid) := by
  induction full generalizing offset sectorid with
  | zero => exact fine_pure
  | succ full ih =>
    exact good_orReturn good_writeNewfileFullSector (.bind fine_growTo fun _ => ih)

theorem good_writeLastSector : Keeps held (writeLastSector size offset sectorid) := by
  refine .ite (fun _ => fine_pure) fun _ => .bind fine_get fun of => good_orReturn ?_ ?_
  · exact .ite (fun _ => good_writeNewfileFullSector)
      fun _ => good_writeNewfilePartialSector
  · exact .bind fine_growTo fun _ => fine_pure

theorem good_writeFrom : Keeps held (writeFrom size offset) := by
  refine .ite (fun _ => ?_) fun _ => ?_
  · exact good_orReturn good_writeSectors good_writeLastSector
  · refine good_orReturn good_writeNewfilePartialSector (.bind fine_growTo fun _ => ?_)
    exact good_orReturn good_writeSectors good_writeLastSector

theorem good_finalizeIfLong : Keeps held finalizeIfLong :=
  .bind fine_get fun _ => .ite (fun _ => good_finalizeLog) fun _ => fine_pure

theorem good_checkExtender : Keeps true
    (if checkextender then waitExtenderAfterLocked offset else pure 0) :=
  .ite (fun _ => good_waitExtenderAfterLocked) fun _ => fine_pure

theorem good_writeNewfileLockedNu :
    Keeps true (writeNewfileLockedNu size offset checkextender) := by
  refine .ite (fun _ => fine_pure) fun _ => .ite (fun _ => fine_pure) fun _ => ?_
  refine good_orReturn good_checkExtender (.bind fine_get fun of => good_orReturn ?_ ?_)
  · exact .ite (fun _ => good_newfileFillzero) fun _ => fine_pure
  · exact good_orReturn good_writeFrom (good_orReturn good_finalizeIfLong fine_pure)

theorem good_writeNewfileLocked : Releases (writeNewfileLocked size offset) :=
  .bind good_writeNewfileLockedNu fun _ => good_unlockRet

/-! ## Pages of the remote file -/

theorem fine_waitKey : Calm false waitKey := by
  refine .bind fine_lock fun _ => .via (fun _ => Fine true) (.loop (.bind fine_get fun of => ?_))
    fun encoder => .bind fine_unlock fun _ => .pure fun _ h => h
  exact .ite (fun _ => .bind fine_wait fun _ => .pure fun _ h => h) fun _ => .pure fun _ h => h

theorem fault_code_neg (e : Fault) : e.code < 0 := by
  cases e <;> decide

theorem firstError_nonpos (hret : ret ≤ 0) (r : Option Fault) : firstError ret r ≤ 0 := by
  rcases r with _ | e
  · exact hret
  · rw [firstError]
    split
    · exact (fault_code_neg e).le
    · exact hret

/-- Waiting for pages fails with an error only. -/
theorem fine_readPages (hret : ret ≤ 0) : Spec broken (Fine false)
    (readPages pages ret) fun ret s => Fine false s ∧ ret ≤ 0 := by
  induction pages generalizing ret with
  | zero => exact .pure fun _ h => ⟨h, hret⟩
  | succ pages ih =>
    refine .bind fine_ask fun auth => .bind fine_ask fun chain => ?_
    have hauth := firstError_nonpos hret auth
    refine .via (fun ret s => Fine false s ∧ ret ≤ 0)
      (.ite (fun _ => ?_) fun _ => .pure fun _ h => ⟨h, hauth⟩) fun ret => .assuming fun hret => ?_
    · refine .bind fine_ask fun above => .bind (.onlyIf fun _ => fine_lock_unlock) fun _ => ?_
      exact .pure fun _ h => ⟨h, firstError_nonpos hauth above⟩
    · exact .bind fine_ask fun page => ih (firstError_nonpos hret page)

theorem fine_fetchKey (needkey : Prop) [Decidable needkey] : Spec broken (Fine false)
    (if needkey then do
        if ← waitKey then pure 0 else pure (-5)
      else pure 0) fun ret s => Fine false s ∧ ret ≤ 0 := by
  refine .ite (fun _ => .bind fine_waitKey fun ok => ?_) fun _ => .pure fun _ h => ⟨h, le_rfl⟩
  exact .ite (fun _ => .pure fun _ h => ⟨h, le_rfl⟩) fun _ => .pure fun _ h => ⟨h, by decide⟩

theorem good_readUnmodifiedEncryptedLocked :
    Releases (readUnmodifiedEncryptedLocked size offset) := by
  refine .bind fine_get fun of => .bind fine_modify fun _ => .bind fine_unlock fun _ => ?_
  refine .ite (fun _ => fine_pure) fun _ => fine_askIo ?_ ?_
  · -- the request was made: the pages are waited for
    refine .bind fine_ask fun request => .bind (.onlyIf fun _ => fine_lock_unlock) fun _ => ?_
    refine .bind (fine_fetchKey _) fun ret => .assuming fun hret => ?_
    refine .bind (fine_readPages hret) fun ret => .assuming fun hret => ?_
    exact .ite (fun _ => fine_pure) fun hne => fail (lt_of_le_of_ne hret hne)
  · exact .pure fun _ h => .inr ⟨by decide, h⟩

/-- Without the content of the ranges something failed. -/
def Fetched (held : Bool) (content : Option (ℕ → UInt8)) (s : World) : Prop :=
  content ≠ none ∧ Fine held s ∨ content = none ∧ Sound held s

theorem fetched_readvLocked : Spec broken (Fine true) readvLocked (Fetched false) := by
  refine .bind fine_get fun of => .bind fine_modify fun _ => .bind fine_unlock fun _ => ?_
  refine .bind fine_ask fun request => .bind (.onlyIf fun _ => fine_lock_unlock) fun _ => ?_
  refine .via (fun _ => Fine false) (.ite (fun _ => fine_waitKey)
    fun _ => .pure fun _ h => h) fun key => .bind fine_ask fun content => ?_
  refine .ite (fun _ => ?_) fun _ => .bind note_failed fun _ => .pure fun _ h => .inr ⟨rfl, h⟩
  rcases content with _ | bytes
  · exact .bind note_failed fun _ => .pure fun _ h => .inr ⟨rfl, h⟩
  · exact .pure fun _ h => .inl ⟨Option.some_ne_none _, h⟩

/-! ## Reading -/

theorem doomed_readNewfileFullSector :
    Spec broken Doomed (readNewfileFullSector sectorid) fun _ => Doomed := by
  refine .via (fun _ => Doomed) (.ask fun _ _ _ _ _ h => h) fun r => ?_
  rcases r with _ | rd
  · refine .via (fun _ => Doomed) (.note fun s h => ?_) fun _ => .pure fun _ h => h
    exact ⟨h.1, h.2.imp fun b hb => mem_cons_of_mem _ hb⟩
  · exact .pure fun _ h => h

theorem doomed_readNewfilePartialSector :
    Spec broken Doomed (readNewfilePartialSector sectorid size offset) fun _ => Doomed := by
  refine .bind doomed_readNewfileFullSector fun rd => .ite (fun _ => .pure fun _ h => h)
    fun _ => ?_
  exact .ite (fun _ => .pure fun _ h => h) fun _ => .pure fun _ h => h

/-- What holds while sectors are merged. -/
def Merging (s : World) : Prop := Fine true s ∨ Doomed s

theorem merging_expectRead {rd : ℕ} (hfine : Keeps true x)
    (hdoomed : Spec broken Doomed x fun _ => Doomed) :
    Spec broken Merging (expectRead rd x) fun _ => Merging := by
  refine .cases (.bind hfine fun rfr => .ite (fun _ => ?_) fun heq => ?_)
    (.bind hdoomed fun rfr => .ite (fun _ => ?_) fun _ => .pure fun _ h => .inr h)
  · -- the mutex is released, and the loop goes on
    refine .via (fun _ s => s.mutex = .sound true ∧ ∃ b, Note.branch b ∈ s.notes)
      (.note fun s h => ⟨h.sound.1, _, mem_cons_self⟩) fun _ => ?_
    exact .unlock fun s h => .inr ⟨congrArg Mutex.unlock h.1, h.2⟩
  · exact .pure fun s h => .inl (h.fine (by omega))
  · refine .via (fun _ => Doomed) (.note fun s h => ?_) fun _ => doomed_unlock
    exact ⟨h.1, h.2.imp fun b hb => mem_cons_of_mem _ hb⟩

theorem merging_mergeSector :
    Spec broken Merging (mergeSector size offset firstsectorid lastsectorid sectorid)
      fun _ => Merging := by
  have hpartial : ∀ size offset rd : ℕ, Spec broken Merging
      (expectRead rd (readNewfilePartialSector sectorid size offset)) fun _ => Merging :=
    fun _ _ _ => merging_expectRead good_readNewfilePartialSector
      doomed_readNewfilePartialSector
  refine .ite (fun _ => hpartial _ _ _) fun _ => .ite (fun _ => hpartial _ _ _) fun _ => ?_
  exact merging_expectRead good_readNewfileFullSector doomed_readNewfileFullSector

theorem merging_mergeSectors (l : List ℕ) (itr : Option Interval) : Spec broken Merging
      (mergeSectors size offset firstsectorid lastsectorid l itr) fun _ => Merging := by
  induction l generalizing itr with
  | nil => exact .pure fun _ h => h
  | cons sectorid l ih =>
    refine .via (fun _ => Merging) (.get fun _ h => h) fun of => ?_
    exact .bind (.onlyIf fun _ => merging_mergeSector) fun _ => ih _

theorem good_readModifiedLocked : Releases (readModifiedLocked size offset) := by
  refine .ite (fun _ => fine_unlockRet) fun _ => .bind fine_get fun of => ?_
  refine .ite (fun _ => fine_unlockRet) fun _ => ?_
  dsimp only
  split
  · exact good_readNewfileLocked
  · exact good_readUnmodifiedEncryptedLocked
  · refine .bind good_readUnmodifiedEncryptedLocked fun rfr => onError id good_pure
      (.bind fine_lock fun _ => .bind fine_get fun of => ?_)
    refine .ite (fun _ => fine_unlockRet) fun _ => ?_
    refine .bind ((merging_mergeSectors _ _).strengthen fun _ h => .inl h) fun _ => ?_
    exact .cases fine_unlockRet (.bind doomed_unlock fun _ => fine_pure)

/-! ## Writing -/

theorem good_storeRanges (bytes : ℕ → UInt8) (l : List Interval) :
    Spec broken (Fine true) (storeRanges bytes l) fun r s =>
      r ≠ .failed ∧ Fine true s ∨ r = .failed ∧ Sound true s := by
  induction l with
  | nil => exact .pure fun _ h => .inl ⟨(fun h => by cases h), h⟩
  | cons range l ih =>
    refine .bind fine_get fun of => .ite (fun _ => .pure fun _ h => ?_) fun _ => ?_
    · exact .inl ⟨(fun h => by cases h), h⟩
    · refine .bind fine_ask fun bw => .bind fine_modify fun _ => .ite (fun _ => ?_)
        fun _ => ?_
      · exact .bind note_failed fun _ => .pure fun _ h => .inr ⟨rfl, h⟩
      · exact .bind fine_modify fun _ => ih

theorem good_modfileFillzero {write : ℕ → ℕ → Op ℤ}
    (hwrite : ∀ size offset, Keeps true (write size offset))
    (rounds size offset : ℕ) :
    Keeps true (modfileFillzero write rounds size offset) := by
  induction rounds generalizing size offset with
  | zero => exact fine_pure
  | succ rounds ih =>
    refine .ite (fun _ => fine_pure) fun _ => .bind (hwrite _ _) fun ret => ?_
    exact onError (mt le_of_lt) good_pure (ih _ _)

theorem good_fetch :
    Spec broken (Fine true) (fetch size offset) (Round (Fine true) (Good true)) := by
  refine .bind fine_get fun of => .bind fine_ofOption fun ranges => ?_
  refine .ite (fun _ => .pure fun _ h => .inl h) fun _ =>
    .bind fetched_readvLocked fun content => ?_
  refine .via (fun _ => Fetched true content) (.lock fun s _ _ h => ?_) fun _ => ?_
  · exact h.imp (fun h => ⟨h.1, congrArg Mutex.lock h.2.1, h.2.2⟩)
      fun h => ⟨h.1, congrArg Mutex.lock h.2.1, h.2.2⟩
  rcases content with _ | bytes
  · exact .pure fun s h => .inr ⟨by decide, (h.resolve_left fun h => h.1 rfl).2⟩
  · refine .bind (.strengthen (good_storeRanges bytes ranges) fun s h =>
      (h.resolve_right fun h => by cases h.1).2) fun r => ?_
    rcases r with _ | _ | _
    · exact .pure fun s h => .inl (h.resolve_right fun h => by cases h.1).2
    · exact .pure fun s h => (h.resolve_right fun h => by cases h.1).2
    · exact .pure fun s h => .inr ⟨by decide, (h.resolve_left fun h => h.1 rfl).2⟩

theorem good_prepare {write : ℕ → ℕ → Op ℤ} (hwrite : ∀ size offset, Keeps true (write size offset))
    (size offset : ℕ) :
    Spec broken (Fine true) (prepare write size offset) (Round (Fine true) (Good true)) := by
  refine .via (Good true) (.bind fine_get fun of => .ite (fun _ => ?_) fun _ => fine_pure)
    fun ret => .ite (fun _ => .pure fun _ h => h) fun hret => ?_
  · exact good_modfileFillzero hwrite _ _ _
  · exact good_fetch.strengthen fun s h => h.fine (by omega)

theorem good_writeModifiedLockedAt : Spec broken
    (Fine true) (writeModifiedLockedAt fuel size offset checkextender) (Good true) := by
  induction fuel generalizing size offset checkextender with
  | zero => exact .stop
  | succ fuel ih =>
    refine .ite (fun _ => fine_pure) fun _ => good_orReturn good_checkExtender ?_
    refine .ite (fun _ => fine_pure) fun _ => good_orReturn (.loop ?_) ?_
    · exact good_prepare (fun _ _ => ih) _ _
    · exact good_writeNewfileLockedNu

theorem good_writeModifiedLockedNu : Spec broken
    (Fine true) (writeModifiedLockedNu size offset checkextender) (Good true) :=
  .withFuel fun _ => good_writeModifiedLockedAt

theorem good_writeModifiedLocked : Releases (writeModifiedLocked size offset) :=
  .bind good_writeModifiedLockedNu fun _ => good_unlockRet

/-! ## Truncation -/

theorem good_initLog : Keeps held initLog := by
  refine fine_askIo ?_ (.pure fun _ h => .inr ⟨by decide, h⟩)
  exact .bind fine_modify fun _ => fine_pure

theorem good_ftruncateToZero : Keeps held ftruncateToZero := by
  refine fine_askIo ?_ (.pure fun _ h => .inr ⟨by decide, h⟩)
  refine good_orReturn good_initLog (.bind fine_get fun of => ?_)
  refine .bind fine_ofOption fun limit => ?_
  exact .bind fine_modify fun _ => .bind fine_modify fun _ => fine_pure

/-- A function returned an error without the mutex, and its caller returns it. -/
theorem left_branch (b : Branch) {R : World → Prop} (hret : ret < 0) : Spec broken
    (Good false ret) (do Prog.note (.branch b); pure (some ret)) (Round R Left) :=
  .bind ((note_branch b rfl).strengthen fun _ h => h.sound) fun _ =>
    .pure fun _ h => .inr ⟨hret, h⟩

theorem left_localizeLast :
    Spec broken (Fine true) (localizeLast lastsectorid oldsize) (Round (Fine true) Left) := by
  refine .bind fine_get fun of => .ite (fun _ => ?_) fun _ => ?_
  · refine .bind good_readNewfileFullSector fun ret => .pure fun s h => .inl ?_
    exact h.imp_right fun h => ⟨(min_le_left _ _).trans_lt h.1, h.2⟩
  · refine .bind good_readModifiedLocked fun ret => .ite (left_branch .truncateRead)
      fun hret => ?_
    refine .strengthen (.bind fine_lock fun _ => .bind fine_get fun of => ?_) fun s h => h.fine hret
    refine .ite (fun _ => .pure fun _ h => h) fun _ => ?_
    refine .bind good_writeModifiedLocked fun ret => .ite (left_branch .truncateWrite)
      fun hret => ?_
    refine .strengthen (.bind fine_lock fun _ => .bind fine_get fun of => ?_) fun s h => h.fine hret
    exact .ite (fun _ => .pure fun _ h => h) fun _ => .pure fun _ h => .inl (.inl h)

theorem left_cutLastSector : Leaves (cutLastSector size) := by
  refine .bind fine_get fun of => left_orReturn (.loop left_localizeLast) ?_
  refine .relax ?_ fun _ _ h => Good.left h
  refine .bind fine_modify fun _ => .bind good_writeNewfileFullSector fun ret => ?_
  exact onError id good_pure (.bind fine_ofOption fun limit => .bind fine_modify fun _ => fine_pure)

theorem left_ftruncateDown : Leaves (ftruncateDown size) := by
  refine .bind fine_get fun of => ?_
  rcases of.extender with _ | e
  · exact left_cutLastSector
  · refine left_orReturn ((good_extenderError e).relax fun _ _ h => Good.left h) ?_
    refine .ite (fun _ => left_cutLastSector) fun _ => .ite (fun _ => ?_) fun _ => ?_
    · exact .bind fine_modify fun _ => left_cutLastSector
    · exact .bind fine_modify fun _ => .pure fun _ h => .inl (.inl h)

theorem good_fillzeroAtEnd : Keeps true (fillzeroAtEnd size offset) :=
  good_modfileFillzero (fun _ _ => good_writeModifiedLockedNu) _ _ _

theorem good_extendTo (of : EncryptedFile) (size : ℕ) : Keeps true (extendTo of size) := by
  refine .ite (fun _ => good_orReturn ?_ ?_) fun _ => .ite (fun _ => ?_) fun _ => ?_
  · exact .ite (fun _ => fine_pure) fun _ => good_fillzeroAtEnd
  · exact .bind fine_modify fun _ => fine_pure
  · exact good_newfileFillzero
  · exact good_fillzeroAtEnd

theorem round_map {F : Failure EncryptedFile Reply Note} {post : ℤ → World → Prop}
    {R : World → Prop} (h : Spec F P x post) : Spec F P (some <$> x) (Round R post) :=
  .bind h fun _ => .pure fun _ h => h

theorem left_ftruncateCrypto : Leaves (ftruncateCrypto size) := by
  refine .loop (.bind fine_get fun of => .ite (fun _ => ?_) fun _ => .ite (fun _ => ?_) fun _ => ?_)
  · rcases of.extender with _ | e
    · exact round_map ((good_extendTo of size).relax fun _ _ h => h.left)
    · refine .ite (fun _ => ?_) fun _ => .bind fine_modify fun _ =>
        .pure fun _ h => .inl (.inl h)
      refine .bind good_waitNoExtenderLocked fun ret => .ite (fun _ => .pure fun _ h => h.left)
        fun hret => .pure fun s h => h.fine (by omega)
  · refine .ite (fun _ => ?_) fun _ => round_map left_ftruncateDown
    exact round_map (good_ftruncateToZero.relax fun _ _ h => h.left)
  · exact .pure fun _ h => .inl (.inl h)

/-! ## Before a write -/

/-- The check returns 1 with the mutex, or an error without it. -/
theorem spec_checkWriteSpace : Spec broken (Fine true)
    (checkWriteSpace size offset) fun ret s => 0 < ret ∧ Fine true s ∨ ret < 0 ∧ Fine false s := by
  have hone : Spec broken (Fine true) (pure (1 : ℤ)) fun ret s =>
      0 < ret ∧ Fine true s ∨ ret < 0 ∧ Fine false s := .pure fun _ h => .inl ⟨by decide, h⟩
  refine .bind fine_get fun of => .ite (fun _ => hone) fun _ => .ite (fun _ => hone) fun _ => ?_
  refine .bind fine_ask fun r => .ite (fun _ => hone) fun _ => .ite (fun _ => ?_) fun _ => ?_
  · exact .bind fine_modify fun _ => hone
  · refine .bind fine_modify fun _ => .bind fine_unlock fun _ => ?_
    split
    · exact .pure fun _ h => .inr ⟨by decide, h⟩
    · exact .bind fine_lock fun _ => hone

theorem fine_incWriteidLocked : Calm true incWriteidLocked := by
  refine .bind fine_get fun of => .bind (.onlyIf fun _ => .bind fine_ask fun locked => ?_)
    fun _ => fine_modify
  exact .onlyIf fun _ => .bind fine_unlock fun _ => fine_lock

/-! ## Reopening -/

theorem good_openWriteFiles : Keeps true openWriteFiles := by
  refine .bind fine_ask fun ok => .ite (fun _ => ?_) fun _ => fine_pure
  exact .bind fine_ask fun x => .bind fine_modify fun _ => fine_pure

theorem good_convertToNewfile : Keeps true (convertToNewfile size) := by
  refine .bind fine_ask fun ok => .ite (fun _ => .bind fine_modify fun _ => ?_)
    fun _ => fine_pure
  refine good_orReturn good_openWriteFiles ?_
  have hcopied : Keeps true (do
      Prog.modify fun of => { of with currentsize := of.initialsize }
      pure 1) := .bind fine_modify fun _ => fine_pure
  by_cases hsize : size = 0
  · rw [if_pos hsize]
    exact .via (fun _ => Fine true) (.pure fun _ h => h) fun copied =>
      .ite (fun _ => hcopied) fun _ => fine_pure
  · rw [if_neg hsize]
    exact fine_askIo hcopied (.pure fun _ h => .inr ⟨by decide, h⟩)

theorem good_convertToModified : Keeps true convertToModified := by
  refine .bind fine_ask fun ok => .ite (fun _ => ?_) fun _ => fine_pure
  refine good_orReturn good_openWriteFiles (.bind fine_ask fun ok => ?_)
  exact .ite (fun _ => .bind fine_modify fun _ => fine_pure) fun _ => fine_pure

theorem good_reopenWithDatabase : Keeps true reopenWithDatabase := by
  refine .bind fine_get fun of => .bind fine_ask fun expired => .ite (fun _ => fine_pure)
    fun _ => .bind fine_ofOption fun size => .bind fine_ask fun r => ?_
  rcases r with _ | e
  · refine .via (fun _ => Fine true) (.ite (fun _ => fine_ask) fun _ => .pure fun _ h => h)
      fun cached => ?_
    exact .ite (fun _ => good_convertToNewfile) fun _ => good_convertToModified
  · exact fine_pure

theorem good_reopenTakingDatabase : Keeps true reopenTakingDatabase := by
  refine .bind fine_ask fun locked => .ite (fun _ => good_reopenWithDatabase) fun _ => ?_
  refine .bind fine_unlock fun _ => .bind fine_lock fun _ => .bind fine_get fun of => ?_
  exact .ite (fun _ => fine_pure) fun _ => good_reopenWithDatabase

theorem left_reopenFileForWriting : Leaves reopenFileForWriting := by
  have htaking := good_reopenTakingDatabase.relax fun _ _ h => h.left
  refine .bind fine_get fun of => .ite (fun _ => .bind fine_unlock fun _ => ?_) fun _ => htaking
  refine .bind fine_ask fun r => ?_
  rcases r with _ | e
  · refine .bind fine_lock fun _ => .bind fine_modify fun _ => .bind fine_get fun of => ?_
    exact .ite (fun _ => fine_pure.relax fun _ _ h => h.left) fun _ => htaking
  · refine .bind ((note_branch .reopenKey rfl).strengthen fun _ h => h.sound) fun _ => ?_
    exact .pure fun _ h => .inr ⟨by simpa using e.toErrno_pos, h⟩

/-! ## The calls -/

theorem good_read : Keeps false (read size offset) := by
  refine .bind fine_lock fun _ => .bind fine_get fun of => .ite (fun _ => ?_) fun _ => ?_
  · exact good_readNewfileLocked
  · exact .ite (fun _ => good_readModifiedLocked)
      fun _ => good_readUnmodifiedEncryptedLocked

theorem good_writeRound :
    Spec broken (Fine true) (writeRound size offset) (Round (Fine true) (Good false)) := by
  refine .bind fine_get fun of => .ite (fun _ => round_map good_writeNewfileLocked)
    fun _ => ?_
  refine .via (Left) (.ite (fun _ => ?_) fun _ => left_reopenFileForWriting) fun ret => ?_
  · exact fine_pure.relax fun _ _ h => h.left
  · refine .ite (fun hret => .pure fun s h => h.fine (by omega)) fun _ => .ite (fun _ => ?_)
      fun hret => ?_
    · exact round_map left_unlockRet
    · exact (round_map good_writeModifiedLocked).strengthen fun s h => h.fine hret

theorem good_write : Keeps false (write size offset) := by
  refine .bind fine_lock fun _ => .bind spec_checkWriteSpace fun ret => .ite (fun hret => ?_)
    fun hret => ?_
  · exact .pure fun s h => .inl (h.resolve_left fun h => absurd h.1 (by omega)).2
  · refine .strengthen (.bind fine_incWriteidLocked fun _ => .loop good_writeRound)
      fun s h => ?_
    exact (h.resolve_right fun h => absurd h.1 (by omega)).2

theorem left_ftruncateRound :
    Spec broken (Fine true) (ftruncateRound size) (Round (Fine true) Left) := by
  refine .bind fine_get fun of => .via (Left) (.ite (fun _ => ?_)
    fun _ => left_reopenFileForWriting) fun ret => ?_
  · exact fine_pure.relax fun _ _ h => h.left
  · refine .ite (fun hret => .pure fun s h => h.fine (by omega)) fun _ => .ite (fun _ => ?_)
      fun hret => ?_
    · exact .pure fun _ h => h
    · exact (round_map left_ftruncateCrypto).strengthen fun s h => h.fine hret

theorem good_ftruncate : Keeps false (ftruncate size) := by
  refine .bind fine_lock fun _ => .via (Left) (.bind fine_get fun of => ?_)
    fun ret => left_unlockRet
  refine .ite (fun _ => .pure fun _ h => .inl (.inl h)) fun _ => ?_
  exact .bind fine_incWriteidLocked fun _ => .loop left_ftruncateRound

end EncryptedFile

namespace FileCall

open EncryptedFile

/-- A call starts without the mutex. -/
def start (of : EncryptedFile) (answers : List (Answer EncryptedFile Reply)) : World :=
  ⟨of, .sound false, answers, [], of⟩

/-- The mutex was released exactly as often as it was taken, each time after it was taken, and the
    result tells of failed sectors. -/
def Disciplined (ret : ℤ) (s : World) : Prop :=
  s.mutex = .sound false ∧ (Note.failed ∈ s.notes → ret < 0)

theorem good_op (c : FileCall) : Spec broken (Fine false) c.op (Good false) := by
  rcases c with ⟨size, offset⟩ | ⟨size, offset⟩ | size
  · exact good_read
  · exact good_write
  · exact good_ftruncate

/-- A call on an encrypted file keeps the rules for the mutex and for failures when none of the four
    branches is taken, and only then. -/
theorem disciplined_iff {c : FileCall} {of : EncryptedFile}
    {answers : List (Answer EncryptedFile Reply)} {ret : ℤ} {s : World}
    (hrun : c.op.run (start of answers) = some (ret, s)) :
    Disciplined ret s ↔ ∀ b, Note.branch b ∉ s.notes := by
  rcases c.good_op (start of answers) ret s hrun ⟨rfl, rfl⟩ with hgood | ⟨hmisused, b, hb⟩
  · refine ⟨fun _ => hgood.sound.2, fun _ => ⟨hgood.sound.1, fun hfailed => ?_⟩⟩
    refine (hgood.resolve_left fun hfine => ?_).1
    rw [hfine.2] at hfailed
    exact not_mem_nil hfailed
  · refine iff_of_false (fun h => ?_) fun h => h b hb
    rw [h.1] at hmisused
    exact Nat.lt_irrefl 0 hmisused

/-- A file just opened for writing: empty and new, or unmodified and without its key. -/
def opened (newfile : Bool) : EncryptedFile where
  newfile := newfile
  modified := newfile
  encoder := if newfile then .loaded else .unloaded
  releasedforupload := false
  throttle := false
  writeid := 1
  initialsize := 0
  currentsize := 0
  logoffset := sectorSize
  writeintervals := ∅
  datafile := fun _ => 0
  extender := none

/-- One byte is written to a new file. -/
theorem disciplined_iff_newfile : ∃ s : World, (write 1 0).op.run (start (opened true)
      [.others (opened true), .reply (.logged 0 1 true)]) = some (1, s) ∧ Disciplined 1 s :=
  have hrun : (write 1 0).op.run (start (opened true)
      [.others (opened true), .reply (.logged 0 1 true)]) = some (1, _) := rfl
  ⟨_, hrun, (disciplined_iff hrun).2 fun _ hb => not_mem_nil hb⟩

/-- When the key cannot be fetched, a write releases the mutex twice. -/
theorem not_disciplined : ∃ s : World, (write 1 0).op.run (start (opened false)
      [.others (opened false), .reply (.cryptoError (some .cantConnect))]) = some (-107, s) ∧
      ¬ Disciplined (-107) s :=
  ⟨_, rfl, fun h => absurd (congrArg Mutex.misuses h.1) (by decide)⟩

end FileCall

end Pclsync
