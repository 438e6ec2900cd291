import Pclsync.Compression.Deflate

/-!
# Runs of compressed streams

What is in a stream (`Deflate.content`) is what the ring holds, and what is left of the added
buffer. Each call keeps its bytes in order: `Deflate.write_spec` appends what was produced, and
`Deflate.read_spec` takes from the front.

In every run whose calls meet the condition (`Stream.Ok`) the bytes delivered and those in the
stream are the bytes produced, `psync_deflate_pending` returns how many can still be read, and no
assertion fails (`Stream.runs_faithful`). Without it the end of a stream is lost
(`Stream.end_lost`).
-/

namespace Pclsync.Compression

open List

namespace Deflate

/-- What can still be read from the stream without calling zlib. -/
def content (d : Deflate) : List UInt8 :=
  Ring.contents d.buffer bufferSize d.bufferstartoff (d.bufferendoff - d.bufferstartoff) ++
    d.flushbuff.elim [] fun buff => buff.drop d.flushbuffoff

/-- The offsets into the ring and into the added buffer are within their bounds. -/
structure Bounded (d : Deflate) : Prop where
  start_lt : d.bufferstartoff < bufferSize
  start_le : d.bufferstartoff ≤ d.bufferendoff
  length_le : d.bufferendoff - d.bufferstartoff ≤ bufferSize
  off_le : ∀ buff, d.flushbuff = some buff → d.flushbuffoff ≤ buff.length

/-- After some calls which produced `out`. -/
structure Appended (d d' : Deflate) (out : List UInt8) : Prop extends d'.Bounded where
  content : d'.content = d.content ++ out

variable {d : Deflate} {availIn availOut last len : ℕ} {a : Answer} {as : List Answer}

/-! ## Writing -/

/-- The room for output is behind the contents of the ring, and does not reach over its end. -/
structure Room (d : Deflate) (last availOut : ℕ) : Prop where
  last_eq : last = (d.bufferstartoff + (d.bufferendoff - d.bufferstartoff)) % bufferSize
  pos : availOut ≠ 0
  free : d.bufferendoff - d.bufferstartoff + availOut ≤ bufferSize
  end_le : last + availOut ≤ bufferSize

theorem setOutBuff_spec (h : d.Bounded) : d.setOutBuff = .done none ∨
    ∃ last availOut, d.setOutBuff = .done (some (last, availOut)) ∧ d.Room last availOut := by
  obtain ⟨hlt, hle, hlen, -⟩ := h
  rw [setOutBuff]
  generalize hN : bufferSize = N at *
  have hN0 : 0 < N := by omega
  by_cases hfull : d.bufferendoff - d.bufferstartoff = N
  · exact .inl (if_pos hfull)
  · have hsum : d.bufferstartoff + (d.bufferendoff - d.bufferstartoff) = d.bufferendoff := by omega
    -- the ring is written in one piece, or around its end
    have hmod : d.bufferendoff % N =
        if d.bufferendoff < N then d.bufferendoff else d.bufferendoff - N := by
      split_ifs with hwrap
      · exact Nat.mod_eq_of_lt hwrap
      · rw [Nat.mod_eq_sub_mod (by omega), Nat.mod_eq_of_lt (by omega)]
    refine .inr ⟨d.bufferendoff % N, if d.bufferendoff % N < d.bufferstartoff then
      d.bufferstartoff - d.bufferendoff % N else N - d.bufferendoff % N, ?_, ?_, ?_, ?_, ?_⟩
    · rw [if_neg hfull]
      exact if_neg (by rw [hmod]; split_ifs <;> omega)
    · rw [hsum, hN]
    all_goals
      rw [hmod]
      split_ifs <;> omega

theorem compressToRing_spec (h : d.Bounded) (hf : d.flushbuff = none) (hr : d.Room last availOut) :
    d.compressToRing availIn last availOut a = .impossible ∨
      ∃ d', d.compressToRing availIn last availOut a = .done d' ∧ d.Appended d' a.output ∧
        d'.flushbuff = none := by
  rw [compressToRing, callCompressor, if_neg hr.pos]
  by_cases hv : a.Valid availIn availOut
  · rw [if_pos hv]
    refine .inr ⟨_, rfl, ⟨⟨h.start_lt, ?_, ?_, fun buff hb => h.off_le buff hb⟩, ?_⟩, hf⟩
    · exact h.start_le.trans (Nat.le_add_right _ _)
    · have hfree := hr.free
      have hout := hv.2.1
      have hle := h.start_le
      change d.bufferendoff + a.output.length - d.bufferstartoff ≤ bufferSize
      omega
    · have hlen : d.bufferendoff + a.output.length - d.bufferstartoff =
          d.bufferendoff - d.bufferstartoff + a.output.length := Nat.sub_add_comm h.start_le
      have hout := hv.2.1
      have hput := @Ring.contents_put UInt8 d.buffer bufferSize d.bufferstartoff
        (d.bufferendoff - d.bufferstartoff) a.output (by have := hr.free; omega)
        (by rw [← hr.last_eq]; have := hr.end_le; omega)
      simp only [Deflate.content, hf, Option.elim, append_nil]
      rw [hlen, hr.last_eq, hput]
  · rw [if_neg hv, Outcome.bind_impossible]
    exact .inl rfl

theorem Appended.trans {d' d'' : Deflate} {out out' : List UInt8} (h : d.Appended d' out)
    (h' : d'.Appended d'' out') : d.Appended d'' (out ++ out') :=
  ⟨h'.toBounded, by rw [h'.content, h.content, append_assoc]⟩

theorem writeRing_spec (h : d.Bounded) (hf : d.flushbuff = none) (hr : d.Room last availOut) :
    d.writeRing len last availOut as = .impossible ∨
      ∃ ret availIn d', d.writeRing len last availOut as = .done (ret, availIn, d') ∧
        d.Appended d' (outputs as) ∧ d'.flushbuff = none := by
  cases as with
  | nil => exact .inl rfl
  | cons a as =>
    rw [writeRing]
    rcases @compressToRing_spec d len availOut last a h hf hr with hx | ⟨d₁, hx, h1, hf1⟩
    · rw [hx, Outcome.bind_impossible]
      exact .inl rfl
    rw [hx, Outcome.bind_done]
    have hone : ∀ o : List UInt8, outputs [a] = a.output := fun _ => append_nil _
    split_ifs with hmore hnil
    · rcases setOutBuff_spec h1.toBounded with hroom | ⟨last', availOut', hroom, hr'⟩
      · rw [hroom, Outcome.bind_done]
        cases as with
        | nil => exact .inr ⟨_, _, _, rfl, (hone []).symm ▸ h1, hf1⟩
        | cons a' as => exact .inl rfl
      · rw [hroom, Outcome.bind_done]
        rcases as with - | ⟨a', - | ⟨a'', as⟩⟩
        · exact .inl rfl
        · have hspec := @compressToRing_spec d₁ (len - a.consumed) availOut' last' a' h1.toBounded
            hf1 hr'
          rcases hspec with hx | ⟨d₂, hx, h2, hf2⟩
          · simp only [hx, Outcome.bind_impossible, true_or]
          · simp only [hx, Outcome.bind_done]
            refine .inr ⟨_, _, _, rfl, ?_, hf2⟩
            have htwo : outputs [a, a'] = a.output ++ a'.output := by simp [outputs]
            exact htwo ▸ h1.trans h2
        · exact .inl rfl
    · subst hnil
      exact .inr ⟨_, _, _, rfl, (hone []).symm ▸ h1, hf1⟩
    · exact .inl rfl

/-- The loop of a flush keeps all the output, when zlib does not end the stream in it. -/
theorem finishFlushLoop_spec {used alloced : ℕ} {buff : List UInt8} (hu : used = buff.length)
    (ha : used < alloced)
    (hok : (∀ a ∈ as, a.ret = .ok ∨ a.ret = .bufError) ∨ buff = [] ∧ outputs as = [])
    (hsize : buff.length + (outputs as).length < 2 ^ 31) :
    finishFlushLoop availIn used alloced buff as = .impossible ∨
      ∃ ret b n, finishFlushLoop availIn used alloced buff as = .done (ret, b, n) ∧
        b.getD [] = buff ++ outputs as := by
  induction as generalizing availIn used alloced buff with
  | nil => exact .inl rfl
  | cons a as ih =>
    have hcons : outputs (a :: as) = a.output ++ outputs as := rfl
    rw [finishFlushLoop]
    by_cases hv : a.Valid availIn (alloced - used)
    swap
    · exact .inl (if_pos hv)
    rw [if_neg (not_not.2 hv)]
    have hout := hv.2.1
    by_cases hret : a.ret = .ok
    · rw [if_neg (not_not.2 hret)]
      by_cases hshort : a.output.length < alloced - used
      · rw [if_pos hshort]
        by_cases hnil : as = []
        · rw [if_neg (not_not.2 hnil)]
          refine .inr ⟨_, _, _, rfl, ?_⟩
          rw [hcons, hnil]
          exact congrArg (buff ++ ·) (append_nil a.output).symm
        · exact .inl (if_pos hnil)
      · -- the buffer is full, and is doubled
        rw [hcons, length_append] at hsize
        rw [if_neg hshort, if_pos (by omega), hcons, ← append_assoc]
        refine ih ?_ (by omega) ?_ ?_
        · rw [length_append]
          omega
        · rcases hok with hok | ⟨-, hnone⟩
          · exact .inl fun b hb => hok b (mem_cons_of_mem _ hb)
          · rw [hcons, append_eq_nil_iff] at hnone
            rw [hnone.1] at hshort
            exact absurd (show 0 < alloced - used by omega) hshort
        · rw [length_append]
          omega
    · rw [if_pos hret]
      by_cases hnil : as = []
      swap
      · exact .inl (if_pos hnil)
      rw [if_neg (not_not.2 hnil)]
      by_cases hbuf : a.ret = .bufError
      · have hnone : outputs (a :: as) = [] := by
          rw [hcons, hv.2.2 hbuf, hnil]
          rfl
        rw [if_neg (not_not.2 hbuf), hnone, append_nil]
        by_cases hused : used = 0
        · rw [if_pos hused]
          exact .inr ⟨_, _, _, rfl, (length_eq_zero_iff.1 (hu.symm.trans hused)).symm⟩
        · rw [if_neg hused]
          exact .inr ⟨_, _, _, rfl, rfl⟩
      · rw [if_pos hbuf]
        rcases hok with hok | ⟨hb, hnone⟩
        · exact ((hok a mem_cons_self).elim hret hbuf).elim
        · refine .inr ⟨_, _, _, rfl, ?_⟩
          rw [hb, hnone]
          rfl

/-- What a flush adds is kept, and is not too long. -/
def FlushKept (added : List Answer) : Prop :=
  (outputs added).length < 2 ^ 31 ∧
    ((∀ a ∈ added, a.ret = .ok ∨ a.ret = .bufError) ∨ outputs added = [])

theorem finishFlushAddBuffer_spec (h : d.Bounded) (hf : d.flushbuff = none) (hok : FlushKept as) :
    d.finishFlushAddBuffer availIn as = .impossible ∨
      ∃ ret n d', d.finishFlushAddBuffer availIn as = .done (ret, n, d') ∧
        d.Appended d' (outputs as) := by
  rw [finishFlushAddBuffer]
  rcases @finishFlushLoop_spec availIn as 0 4096 [] rfl (by omega)
    (hok.2.imp id fun h => ⟨rfl, h⟩) (by have := hok.1; simpa using this) with
    hx | ⟨ret, b, n, hx, hb⟩
  · rw [hx, Outcome.bind_impossible]
    exact .inl rfl
  · rw [hx, Outcome.bind_done]
    refine .inr ⟨_, _, _, rfl, ⟨h.start_lt, h.start_le, h.length_le, fun _ _ => Nat.zero_le _⟩, ?_⟩
    rw [Deflate.content, Deflate.content, hf, Option.elim, append_nil]
    cases b with
    | none | some buff => exact congrArg _ hb

theorem write_spec {flush : Flush} {ring added : List Answer} (h : d.Bounded)
    (hok : FlushKept added) :
    d.write len flush ring added = .impossible ∨
      ∃ ret d', d.write len flush ring added = .done (ret, d') ∧
        d.Appended d' (outputs (ring ++ added)) := by
  have hnothing : ∀ ret : ℤ, ∀ x, (if ring = [] ∧ added = [] then Outcome.done (ret, d)
      else .impossible) = x → x = .impossible ∨
        ∃ ret d', x = .done (ret, d') ∧ d.Appended d' (outputs (ring ++ added)) := by
    rintro ret x rfl
    by_cases hnil : ring = [] ∧ added = []
    · refine .inr ⟨_, _, if_pos hnil, h, ?_⟩
      rw [hnil.1, hnil.2]
      exact (append_nil _).symm
    · exact .inl (if_neg hnil)
  rw [write]
  by_cases hlen : len = 0 ∧ flush = .deflateNoflush
  · rw [if_pos hlen]
    exact hnothing _ _ rfl
  rw [if_neg hlen]
  by_cases hflush : d.flushbuff.isSome
  · rw [if_pos hflush]
    exact hnothing _ _ rfl
  rw [if_neg hflush]
  have hf : d.flushbuff = none := by simpa using hflush
  rcases setOutBuff_spec h with hroom | ⟨last, availOut, hroom, hr⟩
  · rw [hroom, Outcome.bind_done]
    exact hnothing _ _ rfl
  rw [hroom, Outcome.bind_done]
  dsimp only
  rcases @writeRing_spec d availOut last len ring h hf hr with hx | ⟨ret, n, d₁, hx, h1, hf1⟩
  · rw [hx, Outcome.bind_impossible]
    exact .inl rfl
  rw [hx, Outcome.bind_done]
  have happend : outputs (ring ++ added) = outputs ring ++ outputs added := flatMap_append
  -- the flag which is set at the end does not matter for the contents
  have hend : ∀ (ret : ZResult) (d₂ : Deflate), d.Appended d₂ (outputs (ring ++ added)) →
      d.Appended (if ret = .streamEnd then { d₂ with streamEnd := true } else d₂)
        (outputs (ring ++ added)) := by
    intro ret d₂ h2
    by_cases hret : ret = .streamEnd
    · rw [if_pos hret]
      exact ⟨⟨h2.start_lt, h2.start_le, h2.length_le, h2.off_le⟩, h2.content⟩
    · rw [if_neg hret]
      exact h2
  dsimp only
  by_cases hmore : ret = .ok ∧ d₁.deflate ∧ flush ≠ .deflateNoflush ∧ d₁.moreData
  · rw [if_pos hmore]
    rcases @finishFlushAddBuffer_spec d₁ n added h1.toBounded hf1 hok with
      hy | ⟨ret₂, n₂, d₂, hy, h2⟩
    · rw [hy, Outcome.bind_impossible]
      exact .inl rfl
    · rw [hy, Outcome.bind_done]
      exact .inr ⟨_, _, rfl, hend ret₂ d₂ (happend ▸ h1.trans h2)⟩
  rw [if_neg hmore]
  by_cases hnil : added = []
  · rw [if_pos hnil, Outcome.bind_done]
    refine .inr ⟨_, _, rfl, hend ret d₁ ?_⟩
    rw [hnil, append_nil]
    exact h1
  · rw [if_neg hnil, Outcome.bind_impossible]
    exact .inl rfl

/-! ## Reading -/

/-- A read that can be served: from the ring, it does not stop behind the end of the ring before
    the end of the contents; directly from zlib, it has room for output, and an error comes without
    any. -/
def ReadOk (d : Deflate) (len : ℕ) (answer : Option Answer) : Prop :=
  if d.bufferendoff = d.bufferstartoff then
    d.flushbuff = none → d.moreData → 0 < len ∧ ∀ a ∈ answer,
      a.ret = .streamError ∨ a.ret = .dataError → a.output = []
  else d.bufferstartoff + len ≤ bufferSize ∨ d.bufferendoff ≤ d.bufferstartoff + len

/-- After a call which produced `out` and delivered `data`. -/
structure Delivered (d d' : Deflate) (out data : List UInt8) : Prop extends d'.Bounded where
  content : d.content ++ out = data ++ d'.content

theorem readRing_spec (h : d.Bounded)
    (hok : d.bufferstartoff + len ≤ bufferSize ∨ d.bufferendoff ≤ d.bufferstartoff + len) :
    ∃ ret data d', d.readRing len = .done (ret, data, d') ∧ d.Delivered d' [] data := by
  obtain ⟨hlt, hle, hlen, hoff⟩ := h
  rw [readRing]
  dsimp only
  generalize hk : min len (d.bufferendoff - d.bufferstartoff) = k
  have hkle : k ≤ d.bufferendoff - d.bufferstartoff := hk ▸ Nat.min_le_right _ _
  have hsplit : Ring.contents d.buffer bufferSize d.bufferstartoff
        (d.bufferendoff - d.bufferstartoff) =
      Ring.contents d.buffer bufferSize d.bufferstartoff k ++
        Ring.contents d.buffer bufferSize (d.bufferstartoff + k)
          (d.bufferendoff - (d.bufferstartoff + k)) := by
    rw [← Ring.contents_add]
    congr 1
    omega
  -- what is copied is the front of the contents
  have hdata : (if d.bufferstartoff + k ≤ bufferSize then
        Outcome.done (Ring.cells d.buffer d.bufferstartoff k)
      else if k - (bufferSize - d.bufferstartoff) = d.bufferendoff % bufferSize then
        .done (Ring.cells d.buffer d.bufferstartoff (bufferSize - d.bufferstartoff) ++
          Ring.cells d.buffer 0 (k - (bufferSize - d.bufferstartoff)))
      else .aborted) = .done (Ring.contents d.buffer bufferSize d.bufferstartoff k) := by
    by_cases hend : d.bufferstartoff + k ≤ bufferSize
    · rw [if_pos hend, Ring.contents_eq_cells hend]
    · have hall : d.bufferstartoff + k = d.bufferendoff := by omega
      have hmod : d.bufferendoff % bufferSize = d.bufferendoff - bufferSize := by
        rw [Nat.mod_eq_sub_mod (by omega), Nat.mod_eq_of_lt (by omega)]
      rw [if_neg hend, if_pos (by omega),
        Ring.contents_wrap hlt.le (by omega) (by omega)]
  rw [if_neg (by omega), hdata, Outcome.bind_done]
  by_cases hlast : d.bufferstartoff + k = d.bufferendoff
  · rw [if_pos hlast]
    refine ⟨_, _, _, rfl, ⟨Nat.zero_lt_succ _, le_rfl, Nat.zero_le _, hoff⟩, ?_⟩
    rw [Deflate.content, hsplit, hlast, Nat.sub_self, Ring.contents_zero, append_nil, append_nil]
    rfl
  rw [if_neg hlast]
  by_cases hover : d.bufferstartoff + k ≥ bufferSize
  · have hsub : d.bufferstartoff + k - bufferSize + bufferSize = d.bufferstartoff + k :=
      Nat.sub_add_cancel hover
    rw [if_pos hover, if_pos (by omega)]
    refine ⟨_, _, _, rfl, ⟨?_, ?_, ?_, hoff⟩, ?_⟩
    · change d.bufferstartoff + k - bufferSize < bufferSize
      omega
    · exact Nat.sub_le_sub_right (by omega) _
    · change d.bufferendoff - bufferSize - (d.bufferstartoff + k - bufferSize) ≤ bufferSize
      omega
    · rw [Deflate.content, hsplit, ← hsub, Ring.contents_add_size, append_nil, append_assoc, hsub]
      have hn : d.bufferendoff - (d.bufferstartoff + k) =
          d.bufferendoff - bufferSize - (d.bufferstartoff + k - bufferSize) := by omega
      rw [hn]
      rfl
  · rw [if_neg hover]
    refine ⟨_, _, _, rfl, ⟨Nat.lt_of_not_le hover, ?_, ?_, hoff⟩, ?_⟩
    · change d.bufferstartoff + k ≤ d.bufferendoff
      omega
    · change d.bufferendoff - (d.bufferstartoff + k) ≤ bufferSize
      omega
    · rw [Deflate.content, hsplit, append_nil, append_assoc]
      rfl

theorem content_of_empty (h : d.bufferendoff = d.bufferstartoff) :
    d.content = d.flushbuff.elim [] fun buff => buff.drop d.flushbuffoff := by
  rw [content, h, Nat.sub_self, Ring.contents_zero, nil_append]

theorem readDirect_spec (h : d.Bounded) (he : d.bufferendoff = d.bufferstartoff)
    (hf : d.flushbuff = none) (hpos : 0 < len)
    (herr : a.ret = .streamError ∨ a.ret = .dataError → a.output = []) :
    d.readDirect len a = .impossible ∨
      ∃ ret data d', d.readDirect len a = .done (ret, data, d') ∧
        d.Delivered d' a.output data := by
  have hnone : ∀ d' : Deflate, d'.bufferendoff = d.bufferendoff →
      d'.bufferstartoff = d.bufferstartoff → d'.flushbuff = none →
      d.Delivered d' a.output a.output := by
    intro d' hend hstart hf'
    refine ⟨⟨hstart ▸ h.start_lt, ?_, ?_, fun buff hb => ?_⟩, ?_⟩
    · rw [hend, hstart, he]
    · rw [hend, hstart]
      exact h.length_le
    · rw [hf'] at hb
      cases hb
    · rw [content_of_empty he, content_of_empty (by rw [hend, hstart, he]), hf, hf']
      exact (append_nil _).symm
  rw [readDirect, callCompressor, if_neg hpos.ne']
  by_cases hv : a.Valid 0 len
  swap
  · rw [if_neg hv, Outcome.bind_impossible]
    exact .inl rfl
  rw [if_pos hv, Outcome.bind_done]
  by_cases hbuf : a.ret = .bufError
  · rw [if_pos hbuf]
    exact .inr ⟨_, _, _, rfl, hv.2.2 hbuf ▸ hnone _ rfl rfl hf⟩
  rw [if_neg hbuf]
  by_cases hret : a.ret = .streamError ∨ a.ret = .dataError
  · rw [if_pos hret]
    exact .inr ⟨_, _, _, rfl, herr hret ▸ hnone _ rfl rfl hf⟩
  rw [if_neg hret]
  refine .inr ⟨_, _, _, rfl, ?_⟩
  by_cases hend : a.ret = .streamEnd
  · rw [if_pos hend]
    exact hnone _ rfl rfl hf
  · rw [if_neg hend]
    exact hnone _ rfl rfl hf

theorem read_spec {answer : Option Answer} (h : d.Bounded) (hok : d.ReadOk len answer) :
    d.read len answer = .impossible ∨
      ∃ ret data d', d.read len answer = .done (ret, data, d') ∧
        d.Delivered d' (outputs answer.toList) data := by
  rw [read.eq_def, if_neg (not_not.2 h.start_le)]
  by_cases he : d.bufferendoff = d.bufferstartoff
  · rw [ReadOk, if_pos he] at hok
    rw [if_pos he]
    cases hf : d.flushbuff with
    | some buff =>
      cases answer with
      | some a => exact .inl rfl
      | none =>
        -- the added buffer is let go when all of it has been read
        have hoff := h.off_le buff hf
        refine .inr ⟨_, _, _, rfl, ⟨h.start_lt, h.start_le, h.length_le, fun b hb => ?_⟩, ?_⟩
        · dsimp only at hb ⊢
          by_cases hall : d.flushbuffoff + min len (buff.length - d.flushbuffoff) = buff.length
          · rw [if_pos hall] at hb
            cases hb
          · rw [if_neg hall] at hb
            cases hb
            omega
        · refine Eq.trans ?_ (congrArg _ (content_of_empty (by exact he)).symm)
          rw [content_of_empty he, hf]
          have hdrop : (buff.drop d.flushbuffoff).drop
              (min len (buff.length - d.flushbuffoff)) =
              buff.drop (d.flushbuffoff + min len (buff.length - d.flushbuffoff)) :=
            drop_drop
          have hsplit := take_append_drop (min len (buff.length - d.flushbuffoff))
            (buff.drop d.flushbuffoff)
          rw [hdrop] at hsplit
          dsimp only
          by_cases hall : d.flushbuffoff + min len (buff.length - d.flushbuffoff) = buff.length
          · rw [hall, drop_length] at hsplit
            rw [if_pos hall]
            exact (append_nil _).trans hsplit.symm
          · rw [if_neg hall]
            exact (append_nil _).trans hsplit.symm
    | none =>
      dsimp only
      cases answer with
      | none =>
        by_cases hmore : d.moreData
        · exact .inl (if_pos hmore)
        · exact .inr ⟨_, _, _, if_neg hmore, h, append_nil _⟩
      | some a =>
        by_cases hmore : d.moreData
        · obtain ⟨hpos, herr⟩ := hok hf hmore
          have hone : outputs (some a).toList = a.output := append_nil _
          rw [hone]
          dsimp only
          rw [if_pos hmore]
          exact readDirect_spec h he hf hpos (herr a rfl)
        · exact .inl (if_neg hmore)
  · rw [ReadOk, if_neg he] at hok
    rw [if_neg he]
    by_cases hanswer : answer = none
    · rw [if_pos hanswer, hanswer]
      exact .inr (readRing_spec h hok)
    · exact .inl (if_neg hanswer)

theorem pending_of_lt
    (h : d.bufferendoff - d.bufferstartoff + d.flushbuff.elim 0 length < 2 ^ 31) :
    d.pending = (d.bufferendoff - d.bufferstartoff + d.flushbuff.elim 0 length : ℕ) :=
  Int.bmod_eq_of_le (by omega) (by omega)

end Deflate

/-! ## Runs -/

namespace Stream

variable {S S' : Stream} {a : Action}

/-- The condition on a call: a flush is not ended in the added buffer and fits in it, a read can be
    served, and the added buffer has not been read from when the length is asked for. -/
def Ok (S : Stream) : Action → Prop
  | .write _ _ _ added => Deflate.FlushKept added
  | .read len answer => S.deflate.ReadOk len answer
  | .pending => ∀ buff ∈ S.deflate.flushbuff, S.deflate.flushbuffoff = 0 ∧
      S.deflate.bufferendoff - S.deflate.bufferstartoff + buff.length < 2 ^ 31

/-- What the users of a stream rely on. -/
structure Faithful (S : Stream) : Prop where
  produced : S.produced = S.delivered ++ S.deflate.content
  pendings : ∀ p ∈ S.pendings, p.1 = p.2
  aborted : S.aborted = false

/-- The invariant. -/
structure Inv (S : Stream) : Prop extends S.Faithful, S.deflate.Bounded

theorem inv_start (deflate : Bool) (memory : ℕ → UInt8) : (start deflate memory).Inv where
  produced := rfl
  pendings := by
    intro p hp
    cases hp
  aborted := rfl
  start_lt := Nat.zero_lt_succ _
  start_le := le_rfl
  length_le := Nat.zero_le _
  off_le := by
    intro buff hb
    cases hb

theorem pending_eq (h : S.Inv) (hok : S.Ok .pending) :
    S.deflate.pending = (S.produced.length - S.delivered.length : ℕ) := by
  have hcontent : S.produced.length - S.delivered.length = S.deflate.content.length := by
    rw [h.produced, length_append, Nat.add_sub_cancel_left]
  have hlen := h.length_le
  rw [bufferSize] at hlen
  rw [hcontent, Deflate.content, length_append, Ring.length_contents]
  cases hf : S.deflate.flushbuff with
  | none =>
    rw [Deflate.pending_of_lt (by rw [hf, Option.elim]; omega), hf]
    rfl
  | some buff =>
    obtain ⟨hoff, hlt⟩ := hok buff hf
    rw [Deflate.pending_of_lt (by rw [hf]; exact hlt), hf, hoff]
    rfl

theorem Inv.step (h : S.Inv) (hok : S.Ok a) (hs : S.step a = some S') : S'.Inv := by
  have hrun : ¬ S.aborted := by
    rw [h.aborted]
    decide
  cases a with
  | write len flush ring added =>
    rw [Stream.step, if_neg hrun] at hs
    rcases @Deflate.write_spec S.deflate len flush ring added h.toBounded hok with
      hw | ⟨ret, d', hw, hd⟩
    · rw [hw] at hs
      cases hs
    · rw [hw] at hs
      cases hs
      refine ⟨⟨?_, h.pendings, h.aborted⟩, hd.toBounded⟩
      change S.produced ++ outputs (ring ++ added) = S.delivered ++ d'.content
      rw [hd.content, h.produced, append_assoc]
  | read len answer =>
    rw [Stream.step, if_neg hrun] at hs
    rcases @Deflate.read_spec S.deflate len answer h.toBounded hok with
      hr | ⟨ret, data, d', hr, hd⟩
    · rw [hr] at hs
      cases hs
    · rw [hr] at hs
      cases hs
      refine ⟨⟨?_, h.pendings, h.aborted⟩, hd.toBounded⟩
      change S.produced ++ outputs answer.toList = S.delivered ++ data ++ d'.content
      rw [h.produced, append_assoc, hd.content, append_assoc]
  | pending =>
    rw [Stream.step, if_neg hrun] at hs
    cases hs
    refine ⟨⟨h.produced, fun p hp => ?_, h.aborted⟩, h.toBounded⟩
    rcases mem_append.1 hp with hp | hp
    · exact h.pendings p hp
    · rw [mem_singleton.1 hp]
      dsimp only
      exact pending_eq h hok

/-- In every run whose calls meet the condition, what was produced is delivered, in order and once,
    as far as it has been read. -/
theorem runs_faithful (h : stream.Reachable Stream.Ok S) : S.Faithful := by
  have hinv : S.Inv := Machine.Reachable.invariant (P := Inv)
    (fun S hS => ?_) (fun S a S' hi hok hs => hi.step hok hs) h
  · exact hinv.toFaithful
  · obtain ⟨deflate, memory, rfl⟩ := hS
    exact inv_start deflate memory

/-- Three bytes are produced, and two of them are read. -/
theorem runs_faithful_twoBytes : ∃ S : Stream, S.delivered = [1, 2] ∧
    S.pendings = [(3, 3)] ∧ S.Faithful := by
  have h : stream.Reachable Stream.Ok _ :=
    .step (a := .write 8 .deflateFlush [⟨8, [1, 2, 3], .ok⟩] []) (.init ⟨true, fun _ => 0, rfl⟩)
    ⟨by decide, .inr rfl⟩ rfl
  replace h := h.next .pending (by
    intro buff hb
    cases hb) rfl
  replace h := h.next (.read 2 none) (by
    rw [Stream.Ok, Deflate.ReadOk, if_neg (by decide)]
    exact .inl (by decide)) rfl
  exact ⟨_, rfl, by decide, runs_faithful h⟩

/-- `out` fills the ring, and zlib ends the stream in the added buffer. -/
def lostEnd (out : List UInt8) : Action :=
  .write 1 .deflateFlushEnd [⟨1, out, .ok⟩] [⟨0, [7], .streamEnd⟩]

theorem step_lostEnd {memory : ℕ → UInt8} {out : List UInt8} (h : out.length = 4096) :
    ∃ S', (start true memory).step (lostEnd out) = some S' ∧ S'.produced.length = 4097 ∧
      S'.delivered = [] ∧ S'.deflate.flushbuff = none ∧ S'.deflate.bufferendoff = 4096 := by
  simp [step, lostEnd, start, Deflate.write, Deflate.writeRing, Deflate.compressToRing,
    Deflate.callCompressor, Answer.Valid, Deflate.finishFlushAddBuffer, Deflate.finishFlushLoop,
    Deflate.setOutBuff, Deflate.init, outputs, bufferSize, h]

theorem end_lost : ¬ ∀ S, stream.Reachable (fun _ _ => True) S → S.Faithful := by
  intro h
  obtain ⟨out, hout⟩ : ∃ out : List UInt8, out.length = 4096 :=
    ⟨replicate 4096 0, length_replicate⟩
  obtain ⟨S, hS, hproduced, hdelivered, hflush, hend⟩ := @step_lostEnd (fun _ => 0) out hout
  have hall := (h S (.step (a := lostEnd out) (.init ⟨true, fun _ => 0, rfl⟩) trivial hS)).produced
  have hlen := congrArg length hall
  rw [hproduced, hdelivered, nil_append, Deflate.content, hflush, hend, Option.elim,
    append_nil, Ring.length_contents] at hlen
  omega

end Stream

end Pclsync.Compression
