import Pclsync.Timers.System

/-!
# Runs of the timers

The timers in the wheel are placed in it (`TimingWheel.Placed`) with regard to the time up to which
it was advanced (`System.wheelTime`). `timerPrepareTimers_spec`: it takes out the timers whose time
has come, each of them at the second it is to run at.

In every run whose steps meet the condition (`System.Ok`) each period is called once, at the second
it is to run at, unless its timer is stopped (`System.runs_onTime`). A timer of 64 seconds which is
registered between the update of the clock and the advance of the wheel is called at once
(`System.early_call`).
-/

namespace Pclsync.Timers

open TimingWheel List

/-! ## The wheel -/

/-- The time of a timer. -/
abbrev runat (timer : Timer) : ℕ := timer.runat

theorem timerArraySize_pos : 0 < timerArraySize := Nat.zero_lt_succ _

theorem shiftRight_mod (n l : ℕ) : (n >>> (l * timerArraySizeShift)) % timerArraySize =
      n / timerArraySize ^ l % timerArraySize := by
  have hpow : 2 ^ (l * timerArraySizeShift) = timerArraySize ^ l := by
    rw [Nat.mul_comm, Nat.pow_mul]
    rfl
  rw [Nat.shiftRight_eq_div_pow, hpow]

variable {w l : ℕ} {lists : Lists}

/-- The entries are in the wheel, before the second after `w`. -/
def InWheel (w : ℕ) (lists : Lists) : Prop :=
  ∀ e ∈ lists, Placed timerArraySize runat w e ∧ e.level < timerLevels

/-- A level above the lowest one, and those above it, are emptied of what is due. -/
theorem timerCheckUpperLevels_spec {tmdiv : ℕ} (ht : w + 1 = timerArraySize ^ (l + 1) * tmdiv)
    (hl : l + 1 < timerLevels) (h : InWheel w lists) :
    Settled timerArraySize runat w (l + 1)
        (timerCheckUpperLevels tmdiv l (l * timerArraySizeShift) lists) ∧
      ((timerCheckUpperLevels tmdiv l (l * timerArraySizeShift) lists).map Entry.item).Perm
        (lists.map Entry.item) ∧
      ∀ e ∈ timerCheckUpperLevels tmdiv l (l * timerArraySizeShift) lists,
        e.level < timerLevels := by
  induction hk : timerLevels - l generalizing l tmdiv with
  | zero => omega
  | succ k ih =>
    rw [timerCheckUpperLevels]
    -- the levels above the next one
    have hupper : ∃ upper, (if _h : tmdiv % timerArraySize = 0 ∧ l < timerLevels - 2 then
          timerCheckUpperLevels (tmdiv / timerArraySize) (l + 1)
            (l * timerArraySizeShift + timerArraySizeShift) lists
        else lists) = upper ∧ Settled timerArraySize runat w (l + 2) upper ∧
        (upper.map Entry.item).Perm (lists.map Entry.item) ∧
        ∀ e ∈ upper, e.level < timerLevels := by
      by_cases hm : tmdiv % timerArraySize = 0 ∧ l < timerLevels - 2
      · rw [dif_pos hm, ← Nat.succ_mul]
        refine ⟨_, rfl, ih ?_ (by omega) (by omega)⟩
        rw [ht, Nat.pow_succ timerArraySize (l + 1), Nat.mul_assoc,
          Nat.mul_div_cancel' (Nat.dvd_of_mod_eq_zero hm.1)]
      · rw [dif_neg hm]
        refine ⟨_, rfl, ?_, List.Perm.refl _, fun e he => (h e he).2⟩
        by_cases hm0 : tmdiv % timerArraySize = 0
        · have hlast : timerLevels ≤ l + 2 := by omega
          exact fun e he => ⟨(h e he).1, fun hc => absurd (hc.trans_lt (h e he).2) (by omega)⟩
        · refine settled_of_not_dvd (fun e he => (h e he).1) timerArraySize_pos fun hd => hm0 ?_
          rw [ht, Nat.pow_succ timerArraySize (l + 1)] at hd
          exact Nat.mod_eq_zero_of_dvd
            (Nat.dvd_of_mul_dvd_mul_left (Nat.pow_pos timerArraySize_pos) hd)
    obtain ⟨upper, hu, hsettled, hperm, hlt⟩ := hupper
    rw [hu]
    refine ⟨?_, (items_cascade _ _ _ _).trans hperm, fun e he => ?_⟩
    · have hplace : (fun timer : Timer =>
          (timer.runat >>> (l * timerArraySizeShift)) % timerArraySize) =
          fun timer => runat timer / timerArraySize ^ l % timerArraySize :=
        funext fun timer => shiftRight_mod timer.runat l
      have hdiv : (w + 1) / timerArraySize ^ (l + 1) = tmdiv := by
        rw [ht, Nat.mul_div_cancel_left _ (Nat.pow_pos timerArraySize_pos)]
      rw [hplace, ← hdiv]
      exact hsettled.cascade timerArraySize_pos ⟨tmdiv, ht⟩
    · rcases mem_append.1 he with he | he
      · exact hlt e (mem_filter.1 he).1
      · obtain ⟨e', -, rfl⟩ := mem_map.1 he
        exact Nat.lt_of_succ_lt hl

/-- A timer which is taken out at the second it is to run at. -/
def pick (timer : Timer) : Picked := ⟨{ timer with running := true }, timer.runat⟩

theorem prepareTick_spec {picked : List Picked} (h : InWheel w lists) : ∃ lists' timers,
    prepareTick (lists, picked) (w + 1) = (lists', picked ++ timers.map pick) ∧
      InWheel (w + 1) lists' ∧
      (lists.map Entry.item).Perm (lists'.map Entry.item ++ timers) := by
  have hupper : ∃ upper, (if (w + 1) % timerArraySize = 0 then
        timerCheckUpperLevels ((w + 1) / timerArraySize) 0 0 lists else lists) = upper ∧
      Settled timerArraySize runat w 1 upper ∧
      (upper.map Entry.item).Perm (lists.map Entry.item) ∧
      ∀ e ∈ upper, e.level < timerLevels := by
    by_cases hm : (w + 1) % timerArraySize = 0
    · rw [if_pos hm]
      refine ⟨_, rfl, ?_⟩
      have hspec := @timerCheckUpperLevels_spec w 0 lists ((w + 1) / timerArraySize)
        (by rw [Nat.zero_add, Nat.pow_one, Nat.mul_div_cancel' (Nat.dvd_of_mod_eq_zero hm)])
        (by decide) h
      rwa [Nat.zero_mul] at hspec
    · rw [if_neg hm]
      refine ⟨_, rfl, ?_, List.Perm.refl _, fun e he => (h e he).2⟩
      refine settled_of_not_dvd (fun e he => (h e he).1) timerArraySize_pos fun hd => hm ?_
      rw [Nat.pow_one] at hd
      exact Nat.mod_eq_zero_of_dvd hd
  obtain ⟨upper, hu, hsettled, hperm, hlt⟩ := hupper
  refine ⟨upper.filter fun e => !e.at 0 ((w + 1) % timerArraySize),
    (upper.filter fun e => e.at 0 ((w + 1) % timerArraySize)).map Entry.item, ?_, ?_, ?_⟩
  · rw [prepareTick]
    dsimp only
    rw [hu, map_map]
    refine congrArg (fun l => Prod.mk _ (picked ++ l)) (map_congr_left fun e he => ?_)
    obtain ⟨he, hat⟩ := mem_filter.1 he
    have hrun : e.item.runat = w + 1 := (hsettled.at_iff timerArraySize_pos he).1 hat
    rw [Function.comp_apply, pick, hrun]
  · intro e he
    obtain ⟨he, hat⟩ := mem_filter.1 he
    exact ⟨hsettled.placed timerArraySize_pos he (by simpa using hat), hlt e he⟩
  · rw [← map_append]
    refine hperm.symm.trans (Perm.map _ ?_)
    exact (filter_append_perm _ upper).symm.trans perm_append_comm

/-- `timer_prepare_timers` takes out timers at the second they are to run at. -/
theorem timerPrepareTimers_spec {t t' : ℕ} (h : InWheel t lists) : ∃ lists' timers,
    timerPrepareTimers t t' lists = (lists', timers.map pick) ∧
      InWheel (t + (t' - t)) lists' ∧
      (lists.map Entry.item).Perm (lists'.map Entry.item ++ timers) := by
  have key : ∀ n w lists picked, InWheel w lists → ∃ lists' timers,
      (range' (w + 1) n).foldl prepareTick (lists, picked) =
        (lists', picked ++ timers.map pick) ∧ InWheel (w + n) lists' ∧
      (lists.map Entry.item).Perm (lists'.map Entry.item ++ timers) := by
    intro n
    induction n with
    | zero =>
      intro w lists picked h
      refine ⟨lists, [], ?_, h, ?_⟩
      · rw [map_nil, append_nil]
        rfl
      · rw [append_nil]
    | succ n ih =>
      intro w lists picked h
      obtain ⟨lists₁, timers₁, heq1, hin1, hperm1⟩ := @prepareTick_spec w lists picked h
      obtain ⟨lists₂, timers₂, heq2, hin2, hperm2⟩ := ih (w + 1) lists₁ _ hin1
      refine ⟨lists₂, timers₁ ++ timers₂, ?_, ?_, ?_⟩
      · rw [range'_succ, foldl_cons, heq1, heq2, map_append, append_assoc]
      · rwa [Nat.add_right_comm, Nat.add_assoc] at hin2
      · refine hperm1.trans ((hperm2.append_right _).trans ?_)
        rw [append_assoc]
        exact perm_append_comm.append_left _
  obtain ⟨lists', timers, heq, hin, hperm⟩ := key (t' - t) t lists [] h
  exact ⟨lists', timers, heq, hin, hperm⟩

/-! ## Timers -/

/-- The level of a timer fits to its number of seconds. -/
structure TimerOk (timer : Timer) : Prop where
  pos : 1 ≤ timer.numsec
  le : timer.numsec ≤ timerArraySize ^ (timer.level + 1)
  lt : timer.level ≠ 0 → timerArraySize ^ timer.level < timer.numsec
  level_lt : timer.level < timerLevels

/-- The level found in `psync_timer_register`. -/
theorem levelOf_spec {numsec : ℕ} (h : 1 ≤ numsec) : 1 ≤ (levelOf numsec).2 ∧
    (levelOf numsec).2 ≤ timerArraySize ^ ((levelOf numsec).1 + 1) ∧
    ((levelOf numsec).1 ≠ 0 → timerArraySize ^ (levelOf numsec).1 < (levelOf numsec).2) ∧
    (levelOf numsec).1 < timerLevels := by
  by_cases h₀ : numsec ≤ 64
  · have hlevel : levelOf numsec = (0, numsec) := by
      simp [levelOf, timerLevels, levelLoop, timerArraySize, h₀]
    rw [hlevel]
    exact ⟨h, h₀, fun hc => absurd rfl hc, Nat.zero_lt_succ 2⟩
  by_cases h1 : numsec ≤ 4096
  · have hlevel : levelOf numsec = (1, numsec) := by
      simp [levelOf, timerLevels, levelLoop, timerArraySize, h₀, h1]
    rw [hlevel]
    exact ⟨h, h1, fun _ => Nat.lt_of_not_le h₀, Nat.lt_succ_of_le (Nat.le_succ 1)⟩
  by_cases h2 : numsec ≤ 262144
  · have hlevel : levelOf numsec = (2, numsec) := by
      simp [levelOf, timerLevels, levelLoop, timerArraySize, h₀, h1, h2]
    rw [hlevel]
    exact ⟨h, h2, fun _ => Nat.lt_of_not_le h1, Nat.lt_succ_self 2⟩
  · have hlevel : levelOf numsec = (2, 262144) := by
      simp [levelOf, timerLevels, levelLoop, timerArraySize, h₀, h1, h2]
    rw [hlevel]
    exact ⟨by decide, le_rfl, fun _ => by decide, by decide⟩

/-- The slot of a new timer is due after the current time. -/
theorem lt_start {now numsec level : ℕ} (hpos : 1 ≤ numsec)
    (hlt : level ≠ 0 → timerArraySize ^ level < numsec) :
    now < timerArraySize ^ level * ((now + numsec) / timerArraySize ^ level) := by
  have hdiv := Nat.div_add_mod (now + numsec) (timerArraySize ^ level)
  have hmod := Nat.mod_lt (now + numsec) (Nat.pow_pos (n := level) timerArraySize_pos)
  by_cases h0 : level = 0
  · subst h0
    rw [Nat.pow_zero] at hdiv hmod ⊢
    omega
  · have hlt := hlt h0
    omega

theorem InWheel.addTail (h : InWheel w lists) {timer : Timer}
    (hlt : w < timerArraySize ^ timer.level * (timer.runat / timerArraySize ^ timer.level))
    (hle : timerArraySize ^ timer.level * (timer.runat / timerArraySize ^ timer.level) ≤
      w + timerArraySize ^ (timer.level + 1)) (hl : timer.level < timerLevels) :
    InWheel w (addTail lists timer.level
      ((timer.runat >>> (timer.level * timerArraySizeShift)) % timerArraySize) timer) := by
  intro e he
  rcases mem_append.1 he with he | he
  · exact h e he
  · rw [mem_singleton.1 he]
    exact ⟨⟨shiftRight_mod _ _, hlt, hle⟩, hl⟩

/-! ## The invariant -/

namespace System

variable {S S' : System}

/-- The time up to which the wheel was advanced. When the clock was set back, the wheel goes back
    with it. -/
def wheelTime (S : System) : ℕ :=
  if S.phase = .calling then S.currentTime else min S.lt S.currentTime

/-- The invariant. -/
structure Inv (S : System) : Prop where
  wheel : InWheel S.wheelTime S.lists
  lists : ∀ e ∈ S.lists, TimerOk e.item ∧ e.item.running = false
  timers : ∀ p ∈ S.timers, TimerOk p.timer ∧ p.timer.running = true ∧ p.tick = p.timer.runat
  done : ∀ timer ∈ S.done, TimerOk timer ∧ timer.running = true
  idle : S.phase ≠ .calling → S.timers = [] ∧ S.done = []
  time : S.phase = .sleeping → S.lt = S.currentTime
  calls : ∀ f ∈ S.calls, f.tick = f.runat
  once : (S.lists.map (fun e => e.item.period) ++ S.timers.map (fun p => p.timer.period) ++
    S.calls.map Fired.period ++ S.stopped).Perm (range S.periods)
  ids : (S.live.map Timer.id ++ S.freed).Perm (range S.registered)

theorem inv_start (time : ℕ) : (start time).Inv where
  wheel := by
    intro e he
    cases he
  lists := by
    intro e he
    cases he
  timers := by
    intro p hp
    cases hp
  done := by
    intro timer ht
    cases ht
  idle _ := ⟨rfl, rfl⟩
  time _ := rfl
  calls := by
    intro f hf
    cases hf
  once := List.Perm.refl _
  ids := List.Perm.refl _

theorem wheelTime_le : S.wheelTime ≤ S.currentTime := by
  rw [wheelTime]
  split_ifs
  · exact le_rfl
  · exact Nat.min_le_right _ _

/-- The condition on a step: a timer waits for a second at least, and the slot in which it is
    registered is due within one turn of the wheel; a clock that is set back does not bring a slot
    before its time. -/
def Ok (S : System) : Action → Prop
  | .register numsec => 1 ≤ numsec ∧
    timerArraySize ^ (levelOf numsec).1 *
        ((S.currentTime + (levelOf numsec).2) / timerArraySize ^ (levelOf numsec).1) ≤
      S.wheelTime + timerArraySize ^ ((levelOf numsec).1 + 1)
  | .update time => ∀ e ∈ S.lists,
    e.start timerArraySize runat ≤ time + timerArraySize ^ (e.level + 1)
  | _ => True

theorem Inv.register {numsec : ℕ} (h : S.Inv) (hok : S.Ok (.register numsec)) :
    (S.register numsec).Inv := by
  obtain ⟨hpos, hle⟩ := hok
  obtain ⟨hpos', hle', hlt', hlevel⟩ := levelOf_spec hpos
  refine ⟨?_, ?_, h.timers, h.done, h.idle, h.time, h.calls, ?_, ?_⟩
  · refine @InWheel.addTail S.wheelTime S.lists h.wheel _ ?_ ?_ ?_
    · exact wheelTime_le.trans_lt (lt_start hpos' hlt')
    · exact hle
    · exact hlevel
  · intro e he
    rcases mem_append.1 he with he | he
    · exact h.lists e he
    · rw [mem_singleton.1 he]
      exact ⟨⟨hpos', hle', hlt', hlevel⟩, rfl⟩
  · have honce := perm_iff_count.1 h.once
    refine perm_iff_count.2 fun a => ?_
    have hcount := honce a
    simp only [System.register, addTail, map_append, map_cons, map_nil,
      count_append, range_succ] at hcount ⊢
    omega
  · have hids := perm_iff_count.1 h.ids
    refine perm_iff_count.2 fun a => ?_
    have hcount := hids a
    simp only [System.register, live, addTail, map_append, map_cons, map_nil,
      count_append, range_succ] at hcount ⊢
    omega

/-- The mark of `psync_timer_stop` changes nothing else. -/
theorem stopRun_eq (id : ℕ) (timer : Timer) :
    stopRun id timer = { timer with stopAfterRun := (stopRun id timer).stopAfterRun } := by
  rw [stopRun]
  split_ifs <;> rfl

theorem timerOk_stopRun {id : ℕ} {timer : Timer} (h : TimerOk timer) :
    TimerOk (stopRun id timer) := by
  rw [stopRun_eq]
  exact ⟨h.pos, h.le, h.lt, h.level_lt⟩

theorem Inv.stopTimer (h : S.Inv) {timer : Timer} (ht : timer ∈ S.live) :
    (S.stopTimer timer).Inv := by
  rw [System.stopTimer]
  by_cases hrun : timer.running = true
  · rw [if_pos hrun]
    have hid : ∀ t, (stopRun timer.id t).id = t.id := fun t => by rw [stopRun_eq]
    have hperiod : ∀ t, (stopRun timer.id t).period = t.period := fun t => by rw [stopRun_eq]
    refine ⟨h.wheel, h.lists, ?_, ?_, ?_, h.time, h.calls, ?_, ?_⟩
    · intro p hp
      obtain ⟨p', hp', rfl⟩ := mem_map.1 hp
      obtain ⟨hok, hr, htick⟩ := h.timers p' hp'
      refine ⟨timerOk_stopRun hok, ?_, ?_⟩
      · rw [stopRun_eq]
        exact hr
      · rw [stopRun_eq]
        exact htick
    · intro t ht
      obtain ⟨t', ht', rfl⟩ := mem_map.1 ht
      obtain ⟨hok, hr⟩ := h.done t' ht'
      refine ⟨timerOk_stopRun hok, ?_⟩
      rw [stopRun_eq]
      exact hr
    · intro hidle
      obtain ⟨h1, h2⟩ := h.idle hidle
      dsimp only
      rw [h1, h2]
      exact ⟨rfl, rfl⟩
    · have honce := h.once
      simpa [Function.comp_def, hperiod] using honce
    · have hids := h.ids
      simpa [live, Function.comp_def, hid] using hids
  · rw [if_neg hrun]
    -- the timer is in the wheel
    have hmem : timer ∈ S.lists.map Entry.item := by
      rcases mem_append.1 ht with ht | ht
      · rcases mem_append.1 ht with ht | ht
        · exact ht
        · obtain ⟨p, hp, rfl⟩ := mem_map.1 ht
          exact absurd (h.timers p hp).2.1 hrun
      · exact absurd (h.done timer ht).2 hrun
    obtain ⟨e, he, rfl⟩ := mem_map.1 hmem
    obtain ⟨e', l₁, l₂, -, heq, hl, herase⟩ :=
      exists_of_eraseP (p := fun e' : Entry Timer => decide (e'.item = e.item)) he
        (decide_eq_true rfl)
    have heq := of_decide_eq_true heq
    rw [herase]
    have hsub : ∀ x ∈ l₁ ++ l₂, x ∈ S.lists := by
      intro x hx
      rw [hl]
      rcases mem_append.1 hx with hx | hx
      · exact mem_append_left _ hx
      · exact mem_append_right _ (mem_cons_of_mem _ hx)
    refine ⟨fun x hx => h.wheel x (hsub x hx), fun x hx => h.lists x (hsub x hx), h.timers, h.done,
      h.idle, h.time, h.calls, ?_, ?_⟩
    · have honce := perm_iff_count.1 h.once
      refine perm_iff_count.2 fun a => ?_
      have hcount := honce a
      rw [hl] at hcount
      simp only [map_append, map_cons, count_append, count_cons, count_nil, heq] at hcount ⊢
      omega
    · have hids := perm_iff_count.1 h.ids
      refine perm_iff_count.2 fun a => ?_
      have hcount := hids a
      simp only [live, hl, map_append, map_cons, count_append, count_cons,
        count_nil, heq] at hcount ⊢
      omega

theorem Inv.update {time : ℕ} (h : S.Inv) (hphase : S.phase = .sleeping)
    (hok : S.Ok (.update time)) : Inv { S with currentTime := time, phase := .updated } := by
  have hcalling : S.phase ≠ .calling := by
    rw [hphase]
    decide
  have hw : S.wheelTime = S.lt := by
    rw [wheelTime, if_neg hcalling, ← h.time hphase, Nat.min_self]
  refine ⟨fun e he => ?_, h.lists, h.timers, h.done, fun _ => h.idle hcalling,
    fun hc => (by cases hc), h.calls, h.once, h.ids⟩
  obtain ⟨hp, hl⟩ := h.wheel e he
  rw [hw] at hp
  have hw' : wheelTime { S with currentTime := time, phase := .updated } = min S.lt time := rfl
  rw [hw']
  refine ⟨⟨hp.slot_eq, (Nat.min_le_left _ _).trans_lt hp.lt, ?_⟩, hl⟩
  have hlt := hp.le
  have htime := hok e he
  omega

theorem Inv.prepare (h : S.Inv) (hphase : S.phase = .updated) : Inv { S with
    lists := (timerPrepareTimers S.lt S.currentTime S.lists).1
    timers := (timerPrepareTimers S.lt S.currentTime S.lists).2
    phase := .calling } := by
  have hcalling : S.phase ≠ .calling := by
    rw [hphase]
    decide
  obtain ⟨htimers, hdone⟩ := h.idle hcalling
  have hw : S.wheelTime = min S.lt S.currentTime := if_neg hcalling
  have hspec : ∃ lists' timers,
      timerPrepareTimers S.lt S.currentTime S.lists = (lists', timers.map pick) ∧
        InWheel S.currentTime lists' ∧
        (S.lists.map Entry.item).Perm (lists'.map Entry.item ++ timers) := by
    have hwheel := h.wheel
    rw [hw] at hwheel
    rcases Nat.le_total S.lt S.currentTime with hle | hle
    · rw [Nat.min_eq_left hle] at hwheel
      have hspec := @timerPrepareTimers_spec S.lists S.lt S.currentTime hwheel
      rwa [Nat.add_sub_cancel' hle] at hspec
    · -- the clock was set back: there is nothing to do
      rw [Nat.min_eq_right hle] at hwheel
      refine ⟨S.lists, [], ?_, hwheel, ?_⟩
      · rw [timerPrepareTimers, Nat.sub_eq_zero_of_le hle]
        rfl
      · rw [append_nil]
  obtain ⟨lists', timers, heq, hin, hperm⟩ := hspec
  rw [heq]
  have hmem : ∀ t, t ∈ lists'.map Entry.item ∨ t ∈ timers → TimerOk t ∧ t.running = false := by
    intro t ht
    have ht' := hperm.symm.subset (mem_append.2 ht)
    obtain ⟨e, he, rfl⟩ := mem_map.1 ht'
    exact h.lists e he
  refine ⟨hin, fun e he => hmem _ (.inl (mem_map_of_mem he)), fun p hp => ?_, ?_,
    fun hc => absurd rfl hc, fun hc => (by cases hc), h.calls, ?_, ?_⟩
  · obtain ⟨t, ht, rfl⟩ := mem_map.1 hp
    obtain ⟨hok, -⟩ := hmem t (.inr ht)
    exact ⟨⟨hok.pos, hok.le, hok.lt, hok.level_lt⟩, rfl, rfl⟩
  · intro t ht
    rw [hdone] at ht
    cases ht
  · have hmap := hperm.map Timer.period
    have honce := h.once
    rw [htimers] at honce
    simp only [map_append, map_map, map_nil, append_nil] at hmap honce
    refine Perm.trans ?_ honce
    refine Perm.append_right _ (Perm.append_right _ ?_)
    rw [map_map]
    exact hmap.symm
  · have hmap := hperm.map Timer.id
    have hids := h.ids
    rw [live, htimers, hdone] at hids
    simp only [map_append, map_map, map_nil, append_nil] at hmap hids
    refine Perm.trans ?_ hids
    refine Perm.append_right _ ?_
    rw [live, hdone, append_nil, map_append, map_map, map_map, map_map]
    exact hmap.symm

theorem Inv.call {p : Picked} {timers : List Picked} (h : S.Inv) (ht : S.timers = p :: timers) :
    Inv { S with
      timers := timers
      done := S.done ++ [p.timer]
      calls := S.calls ++ [⟨p.timer.period, p.timer.runat, p.tick⟩] } := by
  have hp := h.timers p (ht ▸ mem_cons_self)
  have hcalling : S.phase = .calling := by
    by_contra hc
    rw [(h.idle hc).1] at ht
    cases ht
  refine ⟨h.wheel, h.lists, fun q hq => h.timers q (ht ▸ mem_cons_of_mem _ hq),
    fun t hd => ?_, fun hc => absurd hcalling hc, h.time, fun f hf => ?_, ?_, ?_⟩
  · rcases mem_append.1 hd with hd | hd
    · exact h.done t hd
    · rw [mem_singleton.1 hd]
      exact ⟨hp.1, hp.2.1⟩
  · rcases mem_append.1 hf with hf | hf
    · exact h.calls f hf
    · rw [mem_singleton.1 hf]
      exact hp.2.2
  · have honce := perm_iff_count.1 h.once
    refine perm_iff_count.2 fun a => ?_
    have hcount := honce a
    rw [ht] at hcount
    simp only [map_append, map_cons, map_nil, count_append, count_cons, count_nil] at hcount ⊢
    omega
  · have hids := perm_iff_count.1 h.ids
    refine perm_iff_count.2 fun a => ?_
    have hcount := hids a
    simp only [live, ht, map_append, map_cons, map_nil, count_append,
      count_cons, count_nil] at hcount ⊢
    omega

/-- One of the timers which were called goes back to the wheel, or is freed. -/
theorem Inv.processTimer {timer : Timer} {done : List Timer}
    (h : Inv { S with done := timer :: done }) (hphase : S.phase = .calling) :
    Inv { S.processTimer timer with done := done } := by
  obtain ⟨hok, -⟩ := h.done timer mem_cons_self
  have hdone : ∀ t ∈ done, TimerOk t ∧ t.running = true :=
    fun t ht => h.done t (mem_cons_of_mem _ ht)
  rw [System.processTimer]
  by_cases hstop : timer.stopAfterRun = true
  · rw [if_pos hstop]
    refine ⟨h.wheel, h.lists, h.timers, hdone, fun hc => absurd hphase hc, h.time, h.calls, h.once,
      ?_⟩
    have hids := perm_iff_count.1 h.ids
    refine perm_iff_count.2 fun a => ?_
    have hcount := hids a
    simp only [live, map_append, map_cons, count_append, count_cons, count_nil] at hcount ⊢
    omega
  · rw [if_neg hstop]
    have hw : S.wheelTime = S.currentTime := if_pos hphase
    have hwheel : InWheel S.wheelTime S.lists := h.wheel
    refine ⟨?_, fun e he => ?_, h.timers, hdone, fun hc => absurd hphase hc, h.time, h.calls, ?_,
      ?_⟩
    · refine @InWheel.addTail S.wheelTime S.lists hwheel _ ?_ ?_ hok.level_lt
      · rw [hw]
        exact lt_start hok.pos hok.lt
      · refine (Nat.mul_div_le _ _).trans ?_
        rw [hw]
        exact Nat.add_le_add_left hok.le _
    · rcases mem_append.1 he with he | he
      · exact h.lists e he
      · rw [mem_singleton.1 he]
        exact ⟨⟨hok.pos, hok.le, hok.lt, hok.level_lt⟩, rfl⟩
    · have honce := perm_iff_count.1 h.once
      refine perm_iff_count.2 fun a => ?_
      have hcount := honce a
      simp only [addTail, map_append, map_cons, map_nil, count_append, range_succ] at hcount ⊢
      omega
    · have hids := perm_iff_count.1 h.ids
      refine perm_iff_count.2 fun a => ?_
      have hcount := hids a
      simp only [live, addTail, map_append, map_cons, map_nil, count_append,
        count_cons, count_nil] at hcount ⊢
      omega

theorem Inv.processTimers {done : List Timer} (h : Inv { S with done := done })
    (hphase : S.phase = .calling) :
    Inv { done.foldl System.processTimer S with done := [] } ∧
      (done.foldl System.processTimer S).phase = .calling ∧
      (done.foldl System.processTimer S).timers = S.timers ∧
      (done.foldl System.processTimer S).currentTime = S.currentTime := by
  induction done generalizing S with
  | nil => exact ⟨h, hphase, rfl, rfl⟩
  | cons timer done ih =>
    have hsame : (S.processTimer timer).phase = S.phase ∧
        (S.processTimer timer).timers = S.timers ∧
        (S.processTimer timer).currentTime = S.currentTime := by
      rw [System.processTimer]
      split_ifs <;> exact ⟨rfl, rfl, rfl⟩
    obtain ⟨hinv, hp, ht, hc⟩ := ih (h.processTimer hphase) (hsame.1.trans hphase)
    exact ⟨hinv, hp, ht.trans hsame.2.1, hc.trans hsame.2.2⟩

theorem Inv.finish (h : S.Inv) (hphase : S.phase = .calling) (htimers : S.timers = []) :
    Inv { S.done.foldl System.processTimer S with
      done := []
      lt := S.currentTime
      phase := .sleeping } := by
  obtain ⟨hinv, hp, ht, hc⟩ := @Inv.processTimers S S.done h hphase
  have hw : wheelTime { S.done.foldl System.processTimer S with done := [] } = S.currentTime :=
    (if_pos hp).trans hc
  have hwheel := hinv.wheel
  rw [hw] at hwheel
  refine ⟨?_, hinv.lists, hinv.timers, hinv.done, fun _ => ⟨ht.trans htimers, rfl⟩,
    fun _ => hc.symm, hinv.calls, hinv.once, hinv.ids⟩
  have hw' : wheelTime { S.done.foldl System.processTimer S with
      done := []
      lt := S.currentTime
      phase := .sleeping } = S.currentTime := by
    change min S.currentTime (S.done.foldl System.processTimer S).currentTime = _
    rw [hc, Nat.min_self]
  rw [hw']
  exact hwheel

theorem Inv.step {a : Action} (h : S.Inv) (hok : S.Ok a) (hs : S.step a = some S') : S'.Inv := by
  cases a with
  | register numsec =>
    cases hs
    exact h.register hok
  | stop id =>
    obtain ⟨timer, hfind, rfl⟩ := Option.map_eq_some_iff.1 hs
    exact h.stopTimer (mem_of_find?_eq_some hfind)
  | update time =>
    rw [System.step] at hs
    by_cases hp : S.phase = .sleeping
    · rw [if_pos hp] at hs
      cases hs
      exact h.update hp hok
    · rw [if_neg hp] at hs
      cases hs
  | prepare =>
    rw [System.step] at hs
    by_cases hp : S.phase = .updated
    · rw [if_pos hp] at hs
      cases hs
      exact h.prepare hp
    · rw [if_neg hp] at hs
      cases hs
  | call =>
    rw [System.step] at hs
    cases ht : S.timers with
    | nil =>
      rw [ht] at hs
      cases hs
    | cons p timers =>
      rw [ht] at hs
      cases hs
      exact h.call ht
  | finish =>
    rw [System.step] at hs
    by_cases hp : S.phase = .calling ∧ S.timers = []
    · rw [if_pos hp] at hs
      cases hs
      exact h.finish hp.1 hp.2
    · rw [if_neg hp] at hs
      cases hs

/-! ## Runs -/

/-- What the users of timers rely on. -/
structure OnTime (S : System) : Prop where
  /-- Each callback is called at the second it is to run at. -/
  calls : ∀ f ∈ S.calls, f.tick = f.runat
  /-- No time has come of those which wait. -/
  waiting : ∀ e ∈ S.lists, S.wheelTime < e.item.runat
  /-- Each period waits, or is about to be called, or was called, or its timer was stopped. -/
  once : (S.lists.map (fun e => e.item.period) ++ S.timers.map (fun p => p.timer.period) ++
    S.calls.map Fired.period ++ S.stopped).Perm (range S.periods)
  /-- Each timer is there, unless it was freed. -/
  ids : (S.live.map Timer.id ++ S.freed).Perm (range S.registered)

theorem Inv.onTime (h : S.Inv) : S.OnTime where
  calls := h.calls
  waiting := fun e he => (h.wheel e he).1.lt.trans_le Entry.start_le
  once := h.once
  ids := h.ids

/-- In every run whose steps meet the condition the timers are called on time. -/
theorem runs_onTime (h : machine.Reachable System.Ok S) : S.OnTime := by
  have hinv : S.Inv := Machine.Reachable.invariant (P := Inv)
    (fun S hS => ?_) (fun S a S' hi hok hs => hi.step hok hs) h
  · exact hinv.onTime
  · obtain ⟨time, rfl⟩ := hS
    exact inv_start time

/-- A timer of two seconds is called after them. -/
theorem runs_onTime_twoSeconds : ∃ S : System, S.calls = [⟨0, 12, 12⟩] ∧ S.OnTime := by
  have h : machine.Reachable System.Ok _ :=
    .step (a := .register 2) (.init ⟨10, rfl⟩) ⟨Nat.le_succ 1, by decide⟩ rfl
  replace h := h.next (.update 13) (fun e he => by
    rw [mem_singleton.1 he]
    decide) rfl
  replace h := h.next .prepare trivial rfl
  replace h := h.next .call trivial rfl
  exact ⟨_, rfl, runs_onTime h⟩

/-- A timer is registered when the clock was set, and the wheel not yet advanced. -/
def earlyCall : List Action := [.update 11, .register 64, .prepare, .call]

theorem early_call : ¬ ∀ S, machine.Reachable (fun _ _ => True) S → S.OnTime := by
  intro h
  obtain ⟨S, hS, hcalls⟩ : ∃ S, machine.run (start 10) earlyCall = some S ∧
      S.calls = [⟨0, 75, 11⟩] := ⟨_, rfl, rfl⟩
  have hcall := (h S (.of_run (.init ⟨10, rfl⟩) hS)).calls ⟨0, 75, 11⟩ (by simp [hcalls])
  cases hcall

end System

end Pclsync.Timers
