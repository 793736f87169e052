import OhMyPi.Accounts.Pool

/-! When a candidate that is turned down becomes eligible. Everything that turns it down for the time being
is a barrier, which stands up to an instant or for ever, so the candidate is eligible from the last barrier
on. The time that selection reports is that of the last barrier it knows of, which is the last one exactly
when no barrier of the reserve comes later and no retry barrier hides a rate window that never resets. -/

namespace OhMyPi.Accounts

/-! ## Barriers of windows -/

section

variable {Time : Type} [LinearOrder Time]

/-- When a reset comes; never, when none is known. -/
def resetTime (resetAt : Option (Sample Time Time)) : WithTop Time := resetAt.elim ⊤ fun sample => sample.value

def RateWindow.barriers (window : RateWindow Time) : List (WithTop Time) :=
  (window.retryAt.map fun sample => (sample.value : WithTop Time)).toList ++
    if window.isExhausted then [resetTime window.resetAt] else []

def QuotaWindow.barriers (window : QuotaWindow Time) : List (WithTop Time) :=
  if window.isExhausted then [resetTime window.resetAt] else []

/-- A reset ends the reserve only when it is after the observation. -/
def QuotaWindow.reserveBarriers (window : QuotaWindow Time) (percent : Nat) : List (WithTop Time) :=
  match window.remaining, window.limit with
  | some remaining, some limit =>
    if limit.value ≠ 0 ∧ remaining.value * 100 < limit.value * percent then
      [resetTime (window.resetAt.filter fun reset => remaining.observedAt < reset.value)]
    else []
  | _, _ => []

/-- The barriers stand no more. -/
def Passed (barriers : List (WithTop Time)) (now : Time) : Prop := ∀ barrier ∈ barriers, barrier ≤ now

/-- The availability says until when the barriers stand, apart from those that stand for ever. -/
def Tells (now : Time) (barriers : List (WithTop Time)) : Availability Time → Prop
  | .available => Passed barriers now
  | .delayed time => now < time ∧ ↑time ∈ barriers ∧ ∀ barrier ∈ barriers, barrier ≤ time ∨ barrier = ⊤
  | .exhaustedUnknownReset => ⊤ ∈ barriers

theorem Tells.available_iff {now : Time} {barriers : List (WithTop Time)} {availability : Availability Time}
    (h : Tells now barriers availability) :
    availability = .available ↔ Passed barriers now := by
  cases availability with
  | available => exact ⟨fun _ => h, fun _ => rfl⟩
  | delayed time =>
    refine ⟨fun heq => (nomatch heq), fun hall => ?_⟩
    exact absurd h.1 (not_lt.2 (WithTop.coe_le_coe.1 (hall _ h.2.1)))
  | exhaustedUnknownReset =>
    refine ⟨fun heq => (nomatch heq), fun hall => ?_⟩
    exact absurd (hall ⊤ h) (by simp)

theorem RateWindow.tells_availability (window : RateWindow Time) (now : Time) :
    Tells now window.barriers (window.availability now) := by
  obtain ⟨remaining, resetAt, retryAt⟩ := window
  cases hexhausted : RateWindow.isExhausted ⟨remaining, resetAt, retryAt⟩ with
  | false =>
    cases retryAt with
    | none => simp [availability, barriers, hexhausted, Tells, Passed]
    | some retry =>
      by_cases hretry : now < retry.value
      · simp [availability, barriers, hexhausted, hretry, Tells]
      · simp [availability, barriers, hexhausted, hretry, Tells, Passed, not_lt.1 hretry]
  | true =>
    cases resetAt with
    | none =>
      cases retryAt with
      | none => simp [availability, barriers, hexhausted, Tells, resetTime]
      | some retry =>
        by_cases hretry : now < retry.value
        · simp [availability, barriers, hexhausted, hretry, Tells, resetTime]
        · simp [availability, barriers, hexhausted, hretry, Tells, resetTime]
    | some reset =>
      cases retryAt with
      | none =>
        by_cases hreset : now < reset.value
        · simp [availability, barriers, hexhausted, hreset, Tells, resetTime]
        · simp [availability, barriers, hexhausted, hreset, Tells, Passed, resetTime, not_lt.1 hreset]
      | some retry =>
        by_cases hretry : now < retry.value
        · by_cases hreset : now < reset.value
          · simp only [availability, barriers, hexhausted, hretry, hreset, Tells, resetTime,
              Option.bind_some, if_true, Option.map_some, Option.toList_some, Option.elim_some,
              List.cons_append, List.nil_append, List.mem_cons, List.not_mem_nil, or_false]
            refine ⟨lt_max_of_lt_left hretry, ?_, ?_⟩
            · rcases max_choice retry.value reset.value with hmax | hmax
              · exact .inl (by rw [hmax])
              · exact .inr (by rw [hmax])
            · rintro _ (rfl | rfl)
              · exact .inl (WithTop.coe_le_coe.2 (le_max_left _ _))
              · exact .inl (WithTop.coe_le_coe.2 (le_max_right _ _))
          · have hle : reset.value ≤ retry.value := (not_lt.1 hreset).trans hretry.le
            simp [availability, barriers, hexhausted, hretry, hreset, Tells, resetTime, hle]
        · by_cases hreset : now < reset.value
          · have hle : retry.value ≤ reset.value := (not_lt.1 hretry).trans hreset.le
            simp [availability, barriers, hexhausted, hretry, hreset, Tells, resetTime, hle]
          · simp [availability, barriers, hexhausted, hretry, hreset, Tells, Passed, resetTime, not_lt.1 hretry,
              not_lt.1 hreset]

theorem QuotaWindow.tells_availability (window : QuotaWindow Time) (now : Time) :
    Tells now window.barriers (window.availability now) := by
  rw [barriers, availability]
  split
  · cases window.resetAt with
    | none => simp [Tells, resetTime]
    | some reset =>
      by_cases hreset : now < reset.value
      · simp [Tells, resetTime, hreset]
      · simp [Tells, Passed, resetTime, hreset, not_lt.1 hreset]
  · simp [Tells, Passed]

theorem Tells.append_available {now : Time} {before barriers : List (WithTop Time)}
    {availability : Availability Time} (hbefore : Tells now before availability)
    (h : Tells now barriers .available) : Tells now (before ++ barriers) availability := by
  cases availability with
  | available => exact List.forall_mem_append.2 ⟨hbefore, h⟩
  | delayed time =>
    obtain ⟨hlt, hmem, hall⟩ := hbefore
    refine ⟨hlt, List.mem_append_left _ hmem, List.forall_mem_append.2 ⟨hall, fun barrier hbarrier => ?_⟩⟩
    exact .inl ((h barrier hbarrier).trans (WithTop.coe_le_coe.2 hlt.le))
  | exhaustedUnknownReset => exact List.mem_append_left _ hbefore

theorem Tells.append_delayed {now time candidate : Time} {before barriers : List (WithTop Time)}
    (hbefore : Tells now before (.delayed time)) (h : Tells now barriers (.delayed candidate)) :
    Tells now (before ++ barriers) (.delayed (max time candidate)) := by
  obtain ⟨hlt, hmem, hall⟩ := hbefore
  obtain ⟨-, hmem', hall'⟩ := h
  refine ⟨lt_max_of_lt_left hlt, ?_, List.forall_mem_append.2 ⟨fun barrier hbarrier => ?_,
    fun barrier hbarrier => ?_⟩⟩
  · rcases max_choice time candidate with hmax | hmax
    · rw [hmax]
      exact List.mem_append_left _ hmem
    · rw [hmax]
      exact List.mem_append_right _ hmem'
  · exact (hall barrier hbarrier).imp_left fun hle => hle.trans (WithTop.coe_le_coe.2 (le_max_left _ _))
  · exact (hall' barrier hbarrier).imp_left fun hle => hle.trans (WithTop.coe_le_coe.2 (le_max_right _ _))

theorem Tells.append_latest {now : Time} {l : List (Availability Time × List (WithTop Time))}
    (hl : ∀ p ∈ l, Tells now p.2 p.1) {before : List (WithTop Time)} {time : Option Time}
    (hbefore : Tells now before (time.elim .available .delayed)) :
    Tells now (before ++ l.flatMap Prod.snd) (latest time (l.map Prod.fst)) := by
  induction l generalizing before time with
  | nil =>
    rw [List.flatMap_nil, List.append_nil]
    cases time with
    | none => exact hbefore
    | some time => exact hbefore
  | cons p l ih =>
    obtain ⟨availability, barriers⟩ := p
    obtain ⟨hp, hrest⟩ := List.forall_mem_cons.1 hl
    rw [List.flatMap_cons, ← List.append_assoc, List.map_cons]
    cases availability with
    | available =>
      rw [latest]
      exact ih hrest (hbefore.append_available hp)
    | delayed candidate =>
      cases time with
      | none =>
        rw [latest]
        refine ih hrest ?_
        obtain ⟨hlt, hmem, hall⟩ := hp
        refine ⟨hlt, List.mem_append_right _ hmem, List.forall_mem_append.2 ⟨fun barrier hbarrier => ?_, hall⟩⟩
        exact .inl ((hbefore barrier hbarrier).trans (WithTop.coe_le_coe.2 hlt.le))
      | some time =>
        rw [latest]
        exact ih hrest (hbefore.append_delayed hp)
    | exhaustedUnknownReset =>
      have hlatest : latest time (.exhaustedUnknownReset :: l.map Prod.fst) = .exhaustedUnknownReset := by
        cases time <;> rfl
      rw [hlatest]
      exact List.mem_append_left _ (List.mem_append_right _ hp)

theorem tells_latest {α : Type} {now : Time} {windows : List α} {availability : α → Availability Time}
    {barriers : α → List (WithTop Time)} (h : ∀ window, Tells now (barriers window) (availability window)) :
    Tells now (windows.flatMap barriers) (latest none (windows.map availability)) := by
  have hall := @Tells.append_latest _ _ now (windows.map fun window => (availability window, barriers window))
    (by simpa using fun window _ => h window) [] none (fun _ hmem => absurd hmem List.not_mem_nil)
  simpa [List.flatMap_map, Function.comp_def] using hall

/-- One window without a known reset is enough. -/
theorem latest_eq_exhaustedUnknownReset {l : List (Availability Time)} {time : Option Time} :
    latest time l = .exhaustedUnknownReset ↔ .exhaustedUnknownReset ∈ l := by
  induction l generalizing time with
  | nil => cases time <;> simp [latest]
  | cons availability l ih =>
    cases availability with
    | available => rw [latest, ih]; simp
    | delayed candidate =>
      cases time with
      | none => rw [latest, ih]; simp
      | some time => rw [latest, ih]; simp
    | exhaustedUnknownReset => cases time <;> simp [latest]

theorem RateState.tells_availability (rate : RateState Time) (now : Time) :
    Tells now (rate.flatMap fun window => window.2.barriers) (rate.availability now) :=
  tells_latest fun window => window.2.tells_availability now

theorem QuotaState.tells_availabilityScoped (quota : QuotaState Time) (now : Time) (meter : Option Str) :
    Tells now ((quota.filter fun window => inScope meter window.1).flatMap fun window => window.2.barriers)
      (quota.availabilityScoped now meter) :=
  tells_latest fun window => window.2.tells_availability now

/-- The rate window will not open again, and it says so: no retry barrier stands before it. -/
def RateWindow.isLost (window : RateWindow Time) (now : Time) : Bool :=
  window.isExhausted && window.resetAt.isNone && !window.retryAt.any fun retry => now < retry.value

theorem RateWindow.availability_eq_exhaustedUnknownReset {window : RateWindow Time} {now : Time} :
    window.availability now = .exhaustedUnknownReset ↔ window.isLost now = true := by
  obtain ⟨remaining, resetAt, retryAt⟩ := window
  cases hexhausted : RateWindow.isExhausted ⟨remaining, resetAt, retryAt⟩ with
  | false =>
    cases retryAt with
    | none => simp [availability, isLost, hexhausted]
    | some retry => by_cases hretry : now < retry.value <;> simp [availability, isLost, hexhausted, hretry]
  | true =>
    cases resetAt with
    | none =>
      cases retryAt with
      | none => simp [availability, isLost, hexhausted]
      | some retry => by_cases hretry : now < retry.value <;> simp [availability, isLost, hexhausted, hretry]
    | some reset =>
      cases retryAt with
      | none => by_cases hreset : now < reset.value <;> simp [availability, isLost, hexhausted, hreset]
      | some retry =>
        by_cases hretry : now < retry.value <;> by_cases hreset : now < reset.value <;>
          simp [availability, isLost, hexhausted, hretry, hreset]

theorem QuotaWindow.availability_eq_exhaustedUnknownReset {window : QuotaWindow Time} {now : Time} :
    window.availability now = .exhaustedUnknownReset ↔ ⊤ ∈ window.barriers := by
  rw [availability, barriers]
  split
  · cases window.resetAt with
    | none => simp [resetTime]
    | some reset => by_cases hreset : now < reset.value <;> simp [resetTime, hreset]
  · simp

theorem QuotaWindow.isBelow_iff {window : QuotaWindow Time} {now : Time} {percent : Nat} :
    window.isBelow now percent = true ↔ ¬ Passed (window.reserveBarriers percent) now := by
  rw [isBelow, reserveBarriers, Passed]
  cases window.remaining with
  | none => simp
  | some remaining =>
    cases window.limit with
    | none => simp
    | some limit =>
      by_cases hbelow : limit.value ≠ 0 ∧ remaining.value * 100 < limit.value * percent
      · cases hresetAt : window.resetAt with
        | none => simp [isStale, hresetAt, hbelow.1, hbelow.2, resetTime]
        | some reset =>
          by_cases hseen : remaining.observedAt < reset.value
          · simp [isStale, hresetAt, hbelow.1, hbelow.2, resetTime, Option.filter, hseen]
          · simp [isStale, hresetAt, hbelow.1, hbelow.2, resetTime, Option.filter, hseen]
      · have hnot : limit.value = 0 ∨ ¬ remaining.value * 100 < limit.value * percent := by
          by_cases hzero : limit.value = 0
          · exact .inl hzero
          · exact .inr fun hlt => hbelow ⟨hzero, hlt⟩
        rcases hnot with hzero | hnot
        · simp [hzero]
        · simp [hnot]

end

/-! ## Barriers of candidates -/

section

variable {Id Principal Provider Route Time : Type} [LinearOrder Id] [DecidableEq Principal]
variable [DecidableEq Provider] [DecidableEq Route] [LinearOrder Time]
variable (state : PoolState Id Principal Provider Route Time)
variable (record : AccountRecord Id Principal Provider Route)
variable (request : AccountSelectionRequest Id Principal Provider Route Time)

def cooldownBarriers : List (WithTop Time) :=
  ((state.cooldowns record.account).map fun cooldown => (cooldown.until_ : WithTop Time)).toList ++
    ((state.routeCooldowns record.account request.route).map fun cooldown =>
      (cooldown.until_ : WithTop Time)).toList

def quotaBarriers : List (WithTop Time) :=
  (((state.quota record.account).getD []).filter fun window =>
    QuotaState.inScope request.quotaScope window.1).flatMap fun window => window.2.barriers

def reserveBarriers : List (WithTop Time) :=
  state.quotaReserve.percent.elim [] fun percent =>
    (((state.quota record.account).getD []).filter fun window =>
      QuotaState.inScope request.quotaScope window.1).flatMap fun window =>
        window.2.reserveBarriers (min percent 100)

def rateBarriers : List (WithTop Time) :=
  ((state.rate record.account).getD []).flatMap fun window => window.2.barriers

/-- The request at another instant. -/
def AccountSelectionRequest.atTime (time : Time) : AccountSelectionRequest Id Principal Provider Route Time :=
  { request with now := time }

theorem cooling_eq_none {now : Time} {cooldown : Option (Cooldown Time)} :
    cooling now cooldown = none ↔
      Passed (cooldown.map fun cooldown => (cooldown.until_ : WithTop Time)).toList now := by
  cases cooldown with
  | none => simp [cooling, Passed]
  | some cooldown => simp [cooling, Passed, Option.filter_eq_none_iff]

theorem tells_quotaAvailability :
    Tells request.now (quotaBarriers state record request) (quotaAvailability state record request) := by
  rw [quotaBarriers, quotaAvailability]
  cases state.quota record.account with
  | none => exact fun _ hmem => absurd hmem List.not_mem_nil
  | some quota => exact quota.tells_availabilityScoped _ _

theorem tells_rateAvailability :
    Tells request.now (rateBarriers state record) (rateAvailability state record request) := by
  rw [rateBarriers, rateAvailability]
  cases state.rate record.account with
  | none => exact fun _ hmem => absurd hmem List.not_mem_nil
  | some rate => exact rate.tells_availability _

theorem reserved_eq_none :
    reserved state record request = none ↔ Passed (reserveBarriers state record request) request.now := by
  rw [reserved, reserveBarriers]
  cases state.quotaReserve.percent with
  | none => simp [Passed]
  | some percent =>
    cases state.quota record.account with
    | none => simp [Passed, Option.filter_eq_none_iff]
    | some quota =>
      have hbelow : quota.belowRemainingPercentScoped request.now percent request.quotaScope = false ↔
          ∀ window ∈ quota, QuotaState.inScope request.quotaScope window.1 = true →
            Passed (window.2.reserveBarriers (min percent 100)) request.now := by
        rw [QuotaState.belowRemainingPercentScoped, List.any_eq_false]
        refine forall₂_congr fun window _ => ?_
        rw [Bool.and_eq_true, QuotaWindow.isBelow_iff, not_and, not_not]
      simp only [Option.filter_eq_none_iff, Option.some.injEq, forall_eq', Option.any_some, Option.elim_some,
        Option.getD_some, Bool.not_eq_true, hbelow, Passed, List.mem_flatMap, List.mem_filter]
      constructor
      · rintro h barrier ⟨window, ⟨hmem, hscope⟩, hbarrier⟩
        exact h window hmem hscope barrier hbarrier
      · exact fun h window hmem hscope barrier hbarrier => h barrier ⟨window, ⟨hmem, hscope⟩, hbarrier⟩

theorem passed_append {before barriers : List (WithTop Time)} {now : Time} :
    Passed (before ++ barriers) now ↔ Passed before now ∧ Passed barriers now :=
  List.forall_mem_append

/-- The barriers that `candidate_eligible_at` knows of. -/
def knownBarriers : List (WithTop Time) :=
  cooldownBarriers state record request ++ rateBarriers state record ++ quotaBarriers state record request

/-- The reserve is what turns the candidate down: it is looked at after cooldowns and quotas and before
the rate. -/
def ReserveFirst : Prop :=
  Passed (cooldownBarriers state record request ++ quotaBarriers state record request) request.now ∧
    ¬ Passed (reserveBarriers state record request) request.now

/-- What decides about a candidate whose standing allows it. -/
theorem eligibility_cases {state : PoolState Id Principal Provider Route Time}
    {record : AccountRecord Id Principal Provider Route}
    {request : AccountSelectionRequest Id Principal Provider Route Time}
    (h : standing state record request = none) :
    (eligibility state record request = .eligible ∧ Passed (knownBarriers state record request) request.now ∧
      Passed (reserveBarriers state record request) request.now) ∨
    (∃ remaining percent, eligibility state record request = .quotaReserved remaining percent ∧
      ReserveFirst state record request) ∨
    (eligibility state record request).isTemporary = true ∧ eligibility state record request ≠ .eligible ∧
      ¬ ReserveFirst state record request ∧ ¬ Passed (knownBarriers state record request) request.now := by
  have hquota := (tells_quotaAvailability state record request).available_iff
  have hrate := (tells_rateAvailability state record request).available_iff
  have hreserve := reserved_eq_none state record request
  simp only [eligibility, h, ReserveFirst, knownBarriers, cooldownBarriers, passed_append, ← cooling_eq_none,
    ← hquota, ← hrate, ← hreserve]
  cases cooling request.now (state.cooldowns record.account) with
  | some cooldown => simp [Eligibility.isTemporary]
  | none =>
    cases cooling request.now (state.routeCooldowns record.account request.route) with
    | some cooldown => simp [Eligibility.isTemporary]
    | none =>
      cases quotaAvailability state record request with
      | delayed time => simp [Eligibility.isTemporary]
      | exhaustedUnknownReset => simp [Eligibility.isTemporary]
      | available =>
        cases reserved state record request with
        | some percent => simp
        | none => cases rateAvailability state record request <;> simp [Eligibility.isTemporary]

variable {state record request}

theorem standing_eq_some {blocker : Eligibility Time} (h : standing state record request = some blocker) :
    blocker ≠ .eligible ∧ blocker.isTemporary = false := by
  simp only [standing] at h
  split_ifs at h
  all_goals try (cases h; exact ⟨nofun, rfl⟩)
  obtain ⟨generation, -, hrejected⟩ := Option.bind_eq_some_iff.1 h
  split_ifs at hrejected
  cases hrejected
  exact ⟨nofun, rfl⟩

theorem eligibility_of_standing {blocker : Eligibility Time}
    (h : standing state record request = some blocker) : eligibility state record request = blocker := by
  rw [eligibility, h]

/-- A candidate is eligible when its standing allows it and no barrier stands. -/
theorem eligibility_eq_eligible :
    eligibility state record request = .eligible ↔ standing state record request = none ∧
      Passed (knownBarriers state record request) request.now ∧
      Passed (reserveBarriers state record request) request.now := by
  cases hstanding : standing state record request with
  | some blocker =>
    rw [eligibility_of_standing hstanding]
    exact ⟨fun h => absurd h (standing_eq_some hstanding).1, fun h => (nomatch h.1)⟩
  | none =>
    rcases eligibility_cases hstanding with ⟨h, hknown, hreserve⟩ | ⟨_, _, h, hfirst⟩ | ⟨-, hne, -, hknown⟩
    · exact ⟨fun _ => ⟨rfl, hknown, hreserve⟩, fun _ => h⟩
    · rw [h]
      exact ⟨fun h => (nomatch h), fun hpassed => absurd hpassed.2.2 hfirst.2⟩
    · exact ⟨fun h => absurd h hne, fun hpassed => absurd hpassed.2.1 hknown⟩

theorem eligible_atTime_iff {time : Time} :
    eligibility state record (request.atTime time) = .eligible ↔ standing state record request = none ∧
      Passed (knownBarriers state record request) time ∧
      Passed (reserveBarriers state record request) time :=
  eligibility_eq_eligible

/-! ## The time that is reported -/

/-- The latest of the barriers, or now when they have passed. -/
def Reached (now time : Time) (barriers : List (WithTop Time)) : Prop :=
  time = now ∧ Tells now barriers .available ∨ Tells now barriers (.delayed time)

theorem Reached.le {now time : Time} {barriers : List (WithTop Time)} (h : Reached now time barriers) :
    now ≤ time := by
  rcases h with ⟨rfl, -⟩ | h
  · exact le_rfl
  · exact h.1.le

theorem Reached.append_available {now time : Time} {before barriers : List (WithTop Time)}
    (h : Reached now time before) (hbarriers : Tells now barriers .available) :
    Reached now time (before ++ barriers) :=
  h.imp (fun ⟨heq, hbefore⟩ => ⟨heq, hbefore.append_available hbarriers⟩)
    fun hbefore => hbefore.append_available hbarriers

theorem Reached.append_delayed {now time candidate : Time} {before barriers : List (WithTop Time)}
    (h : Reached now time before) (hbarriers : Tells now barriers (.delayed candidate)) :
    Reached now (max time candidate) (before ++ barriers) := by
  rcases h with ⟨rfl, hbefore⟩ | hbefore
  · obtain ⟨hlt, hmem, hall⟩ := hbarriers
    rw [max_eq_right hlt.le]
    refine .inr ⟨hlt, List.mem_append_right _ hmem, List.forall_mem_append.2 ⟨fun barrier hbarrier => ?_, hall⟩⟩
    exact .inl ((hbefore barrier hbarrier).trans (WithTop.coe_le_coe.2 hlt.le))
  · exact .inr (hbefore.append_delayed hbarriers)

theorem Reached.later {now time : Time} {before : List (WithTop Time)} (h : Reached now time before)
    (cooldown : Option (Cooldown Time)) :
    Reached now (later time (cooldown.map (·.until_)))
      (before ++ (cooldown.map fun cooldown => (cooldown.until_ : WithTop Time)).toList) := by
  cases cooldown with
  | none => simpa [Accounts.later] using h
  | some cooldown =>
    rw [Option.map_some, Option.map_some, Accounts.later, Option.elim_some, Option.toList_some]
    by_cases hlt : now < cooldown.until_
    · exact h.append_delayed ⟨hlt, List.mem_singleton_self _, fun barrier hbarrier =>
        .inl (List.mem_singleton.1 hbarrier).le⟩
    · rw [max_eq_left ((not_lt.1 hlt).trans h.le)]
      refine h.append_available fun barrier hbarrier => ?_
      rw [List.mem_singleton.1 hbarrier]
      exact WithTop.coe_le_coe.2 (not_lt.1 hlt)

theorem candidateEligibleAt_of_isTemporary (hne : eligibility state record request ≠ .eligible)
    (htemporary : (eligibility state record request).isTemporary = true) :
    (candidateEligibleAt state record request = none ∧
      (rateAvailability state record request = .exhaustedUnknownReset ∨
        quotaAvailability state record request = .exhaustedUnknownReset)) ∨
    ∃ time, candidateEligibleAt state record request = some time ∧
      rateAvailability state record request ≠ .exhaustedUnknownReset ∧
      quotaAvailability state record request ≠ .exhaustedUnknownReset ∧
      Reached request.now time (knownBarriers state record request) := by
  have hstart : Reached request.now request.now [] :=
    .inl ⟨rfl, fun _ hmem => absurd hmem List.not_mem_nil⟩
  have hcooldown := (hstart.later (state.cooldowns record.account)).later
    (state.routeCooldowns record.account request.route)
  rw [List.nil_append] at hcooldown
  have hrate := tells_rateAvailability state record request
  have hquota := tells_quotaAvailability state record request
  simp only [candidateEligibleAt, hne, htemporary, if_false, Bool.not_true, Bool.false_eq_true]
  rw [knownBarriers, cooldownBarriers]
  cases hr : rateAvailability state record request with
  | exhaustedUnknownReset => exact .inl ⟨rfl, .inl rfl⟩
  | available =>
    rw [hr] at hrate
    cases hq : quotaAvailability state record request with
    | exhaustedUnknownReset => exact .inl ⟨rfl, .inr rfl⟩
    | available =>
      rw [hq] at hquota
      exact .inr ⟨_, rfl, nofun, nofun, (hcooldown.append_available hrate).append_available hquota⟩
    | delayed time =>
      rw [hq] at hquota
      exact .inr ⟨_, rfl, nofun, nofun, (hcooldown.append_available hrate).append_delayed hquota⟩
  | delayed delay =>
    rw [hr] at hrate
    cases hq : quotaAvailability state record request with
    | exhaustedUnknownReset => exact .inl ⟨rfl, .inr rfl⟩
    | available =>
      rw [hq] at hquota
      exact .inr ⟨_, rfl, nofun, nofun, (hcooldown.append_delayed hrate).append_available hquota⟩
    | delayed time =>
      rw [hq] at hquota
      exact .inr ⟨_, rfl, nofun, nofun, (hcooldown.append_delayed hrate).append_delayed hquota⟩

theorem rateAvailability_eq_exhaustedUnknownReset :
    rateAvailability state record request = .exhaustedUnknownReset ↔
      ∃ window ∈ (state.rate record.account).getD [], window.2.isLost request.now = true := by
  rw [rateAvailability]
  cases state.rate record.account with
  | none => simp
  | some rate =>
    simp only [Option.map_some, Option.getD_some, RateState.availability, latest_eq_exhaustedUnknownReset,
      List.mem_map, RateWindow.availability_eq_exhaustedUnknownReset]

theorem quotaAvailability_eq_exhaustedUnknownReset :
    quotaAvailability state record request = .exhaustedUnknownReset ↔
      ⊤ ∈ quotaBarriers state record request := by
  rw [quotaAvailability, quotaBarriers]
  cases state.quota record.account with
  | none => simp
  | some quota =>
    simp only [Option.map_some, Option.getD_some, QuotaState.availabilityScoped,
      latest_eq_exhaustedUnknownReset, List.mem_map, List.mem_flatMap,
      QuotaWindow.availability_eq_exhaustedUnknownReset]

theorem exists_passed {barriers : List (WithTop Time)} (h : ⊤ ∉ barriers) (now : Time) :
    ∃ time, now ≤ time ∧ Passed barriers time := by
  induction barriers with
  | nil => exact ⟨now, le_rfl, fun _ hmem => absurd hmem List.not_mem_nil⟩
  | cons barrier barriers ih =>
    rw [List.mem_cons, not_or] at h
    obtain ⟨time, hle, hpassed⟩ := ih h.2
    obtain ⟨candidate, rfl⟩ := WithTop.ne_top_iff_exists.1 (Ne.symm h.1)
    refine ⟨max time candidate, le_max_of_le_left hle, List.forall_mem_cons.2 ⟨?_, fun other hother => ?_⟩⟩
    · exact WithTop.coe_le_coe.2 (le_max_right _ _)
    · exact (hpassed other hother).trans (WithTop.coe_le_coe.2 (le_max_left _ _))

theorem not_passed_of_top_mem {barriers : List (WithTop Time)} (h : ⊤ ∈ barriers) (time : Time) :
    ¬ Passed barriers time :=
  fun hpassed => absurd (hpassed ⊤ h) (by simp)

theorem top_not_mem_cooldownBarriers : ⊤ ∉ cooldownBarriers state record request := by
  simp [cooldownBarriers]

/-- What is reported about a candidate is what happens to it while nothing but time passes. -/
structure TimeExact (state : PoolState Id Principal Provider Route Time)
    (request : AccountSelectionRequest Id Principal Provider Route Time)
    (record : AccountRecord Id Principal Provider Route) : Prop where
  later : ∀ time, candidateEligibleAt state record request = some time → request.now < time →
    (∀ earlier, request.now ≤ earlier → earlier < time →
      eligibility state record (request.atTime earlier) ≠ .eligible) ∧
    eligibility state record (request.atTime time) = .eligible
  never : candidateEligibleAt state record request = none → ∀ time, request.now ≤ time →
    eligibility state record (request.atTime time) ≠ .eligible

/-- No barrier of the candidate is overlooked. -/
structure Foreseen (state : PoolState Id Principal Provider Route Time)
    (request : AccountSelectionRequest Id Principal Provider Route Time)
    (record : AccountRecord Id Principal Provider Route) : Prop where
  /-- A candidate that the reserve turns down is never let in. -/
  reserve : standing state record request = none → ReserveFirst state record request →
    ⊤ ∈ rateBarriers state record ∨ ⊤ ∈ reserveBarriers state record request
  /-- For one that waits for something else, nothing that stands for ever is hidden by a retry barrier and
  the reserve is free by then, unless it is seen that it waits for ever. -/
  waiting : standing state record request = none → ¬ ReserveFirst state record request →
    ⊤ ∈ quotaBarriers state record request ∨
    (∃ window ∈ (state.rate record.account).getD [], window.2.isLost request.now = true) ∨
    ⊤ ∉ rateBarriers state record ∧ ∀ barrier ∈ reserveBarriers state record request,
      barrier ≤ request.now ∨ ∃ known ∈ knownBarriers state record request, barrier ≤ known

theorem timeExact_of_standing {blocker : Eligibility Time}
    (h : standing state record request = some blocker) : TimeExact state request record := by
  have hne := standing_eq_some h
  have hat : candidateEligibleAt state record request = none := by
    simp only [candidateEligibleAt, eligibility_of_standing h, hne.1, hne.2, if_false, Bool.not_false, if_true]
  constructor
  · intro time htime
    rw [hat] at htime
    cases htime
  · intro _ time _ heligible
    have hnone := (eligible_atTime_iff.1 heligible).1
    rw [h] at hnone
    cases hnone

theorem timeExact_iff_of_reserve (hstanding : standing state record request = none)
    (hfirst : ReserveFirst state record request)
    (hat : candidateEligibleAt state record request = none) :
    TimeExact state request record ↔
      ⊤ ∈ rateBarriers state record ∨ ⊤ ∈ reserveBarriers state record request := by
  constructor
  · intro h
    by_contra hnot
    rw [not_or] at hnot
    have hquota : ⊤ ∉ quotaBarriers state record request := fun hmem =>
      not_passed_of_top_mem hmem request.now (passed_append.1 hfirst.1).2
    have hall : ⊤ ∉ knownBarriers state record request ++ reserveBarriers state record request := by
      simp only [knownBarriers, List.mem_append, not_or]
      exact ⟨⟨⟨top_not_mem_cooldownBarriers, hnot.1⟩, hquota⟩, hnot.2⟩
    obtain ⟨time, hle, hpassed⟩ := exists_passed hall request.now
    exact h.never hat time hle (eligible_atTime_iff.2 ⟨hstanding, passed_append.1 hpassed⟩)
  · intro htop
    refine ⟨fun time htime => (nomatch hat.symm.trans htime), fun _ time _ heligible => ?_⟩
    obtain ⟨-, hknown, hreserve⟩ := eligible_atTime_iff.1 heligible
    rcases htop with htop | htop
    · exact not_passed_of_top_mem htop time (passed_append.1 (passed_append.1 hknown).1).2
    · exact not_passed_of_top_mem htop time hreserve

/-- A known barrier is waited for. -/
theorem timeExact_iff_of_some {time : Time} (hstanding : standing state record request = none)
    (hat : candidateEligibleAt state record request = some time)
    (hquota : ⊤ ∉ quotaBarriers state record request)
    (htells : Tells request.now (knownBarriers state record request) (.delayed time)) :
    TimeExact state request record ↔
      ⊤ ∉ rateBarriers state record ∧ ∀ barrier ∈ reserveBarriers state record request,
        barrier ≤ request.now ∨ ∃ known ∈ knownBarriers state record request, barrier ≤ known := by
  obtain ⟨hlt, hmem, hall⟩ := htells
  constructor
  · intro h
    obtain ⟨-, hknown, hreserve⟩ := eligible_atTime_iff.1 (h.later time hat hlt).2
    refine ⟨fun htop => ?_, fun barrier hbarrier => .inr ⟨time, hmem, hreserve barrier hbarrier⟩⟩
    exact not_passed_of_top_mem htop time (passed_append.1 (passed_append.1 hknown).1).2
  · rintro ⟨hrate, hreserve⟩
    have htop : ⊤ ∉ knownBarriers state record request := by
      simp only [knownBarriers, List.mem_append, not_or]
      exact ⟨⟨top_not_mem_cooldownBarriers, hrate⟩, hquota⟩
    have hknown : Passed (knownBarriers state record request) time := fun barrier hbarrier =>
      (hall barrier hbarrier).resolve_right fun heq => htop (heq ▸ hbarrier)
    refine ⟨fun other hother _ => ?_, fun hnone => by rw [hat] at hnone; cases hnone⟩
    cases Option.some.inj (hat.symm.trans hother)
    constructor
    · intro earlier _ hearlier heligible
      have hle := (eligible_atTime_iff.1 heligible).2.1 time hmem
      exact absurd hearlier (not_lt.2 (WithTop.coe_le_coe.1 hle))
    · refine eligible_atTime_iff.2 ⟨hstanding, hknown, fun barrier hbarrier => ?_⟩
      rcases hreserve barrier hbarrier with hle | ⟨known, hmemKnown, hle⟩
      · exact hle.trans (WithTop.coe_le_coe.2 hlt.le)
      · exact hle.trans (hknown known hmemKnown)

/-- The time that is reported about a candidate is right exactly when no barrier is overlooked. -/
theorem timeExact_iff : TimeExact state request record ↔ Foreseen state request record := by
  cases hstanding : standing state record request with
  | some blocker =>
    refine iff_of_true (timeExact_of_standing hstanding) ⟨fun h => ?_, fun h => ?_⟩
    · rw [hstanding] at h
      cases h
    · rw [hstanding] at h
      cases h
  | none =>
    rcases eligibility_cases hstanding with ⟨heligible, hknown, hreserve⟩ | ⟨remaining, percent, hreserved, hfirst⟩ |
      ⟨htemporary, hne, hfirst, hknown⟩
    · have hat : candidateEligibleAt state record request = some request.now := by
        rw [candidateEligibleAt, if_pos heligible]
      refine iff_of_true ⟨fun time htime hlt => ?_, fun hnone => ?_⟩ ⟨fun _ hfirst => absurd hreserve hfirst.2,
        fun _ _ => .inr (.inr ⟨fun htop => ?_, fun barrier hbarrier => .inl (hreserve barrier hbarrier)⟩)⟩
      · rw [hat] at htime
        cases htime
        exact absurd hlt (lt_irrefl _)
      · rw [hat] at hnone
        cases hnone
      · exact not_passed_of_top_mem htop _ (passed_append.1 (passed_append.1 hknown).1).2
    · have hat : candidateEligibleAt state record request = none := by
        rw [candidateEligibleAt, hreserved]
        rfl
      rw [timeExact_iff_of_reserve hstanding hfirst hat]
      exact ⟨fun h => ⟨fun _ _ => h, fun _ hnot => absurd hfirst hnot⟩, fun h => h.reserve hstanding hfirst⟩
    · rcases candidateEligibleAt_of_isTemporary hne htemporary with ⟨hat, hunknown⟩ | ⟨time, hat, hrate, hquota, hreached⟩
      · have htop : ⊤ ∈ knownBarriers state record request := by
          rw [knownBarriers, List.mem_append, List.mem_append]
          rcases hunknown with hunknown | hunknown
          · have htells := tells_rateAvailability state record request
            rw [hunknown] at htells
            exact .inl (.inr htells)
          · exact .inr (quotaAvailability_eq_exhaustedUnknownReset.1 hunknown)
        refine iff_of_true ⟨fun time htime => (nomatch hat.symm.trans htime),
          fun _ time _ heligible => not_passed_of_top_mem htop time (eligible_atTime_iff.1 heligible).2.1⟩
          ⟨fun _ h => absurd h hfirst, fun _ _ => ?_⟩
        rcases hunknown with hunknown | hunknown
        · exact .inr (.inl (rateAvailability_eq_exhaustedUnknownReset.1 hunknown))
        · exact .inl (quotaAvailability_eq_exhaustedUnknownReset.1 hunknown)
      · rw [Ne, rateAvailability_eq_exhaustedUnknownReset] at hrate
        rw [Ne, quotaAvailability_eq_exhaustedUnknownReset] at hquota
        have htells : Tells request.now (knownBarriers state record request) (.delayed time) :=
          hreached.resolve_left fun hnow => hknown hnow.2
        rw [timeExact_iff_of_some hstanding hat hquota htells]
        exact ⟨fun h => ⟨fun _ h' => absurd h' hfirst, fun _ _ => .inr (.inr h)⟩,
          fun h => ((h.waiting hstanding hfirst).resolve_left hquota).resolve_left hrate⟩

/-! ## Selection -/

theorem get?_of_mem_candidates (h : record ∈ candidates state request) :
    state.accounts.get? record.account = some record := by
  rw [candidates, List.mem_filter, List.mem_map] at h
  obtain ⟨⟨⟨id, record⟩, hentry, rfl⟩, -⟩ := h
  rw [state.keyed _ hentry]
  exact OrdMap.get?_eq_some_iff.2 hentry

theorem eq_of_account_eq {other : AccountRecord Id Principal Provider Route}
    (h : record ∈ candidates state request) (hother : other ∈ candidates state request)
    (haccount : record.account = other.account) : record = other := by
  have hget := get?_of_mem_candidates h
  rw [haccount, get?_of_mem_candidates hother] at hget
  exact (Option.some.inj hget).symm

theorem mem_ranked {key : Nat ×ₗ Nat ×ₗ Natᵒᵈ ×ₗ Id} :
    key ∈ ranked state request ↔ ∃ record ∈ candidates state request,
      eligibility state record request = .eligible ∧ rank state record request = key := by
  simp only [ranked, List.mem_map, List.mem_filter, decide_eq_true_eq, and_assoc]

def outcomeReceipt : Except (AccountPoolError Id Principal Provider Route Time)
    (AccountSelection Id Principal Provider Route Time) → SelectionReceipt Id Principal Provider Route Time
  | .ok selection => selection.receipt
  | .error error => error.receipt

/-- What `select` can return. -/
theorem select_cases (state : PoolState Id Principal Provider Route Time)
    (request : AccountSelectionRequest Id Principal Provider Route Time) :
    (∃ selection, select state request = .ok selection ∧ selection.receipt = receipt state request ∧
      selection.record ∈ candidates state request ∧ eligibility state selection.record request = .eligible ∧
      ∀ other ∈ candidates state request, eligibility state other request = .eligible →
        rank state selection.record request ≤ rank state other request) ∨
    ∃ error, select state request = .error error ∧ error.receipt = receipt state request ∧
      ∀ other ∈ candidates state request, eligibility state other request ≠ .eligible := by
  rw [select]
  have hsorted := List.pairwise_insertionSort (· ≤ ·) (ranked state request)
  have hmem := fun key => @List.mem_insertionSort _ (· ≤ ·) _ (ranked state request) key
  cases hsort : (ranked state request).insertionSort (· ≤ ·) with
  | nil =>
    refine .inr ⟨_, rfl, rfl, fun other hother heligible => ?_⟩
    have hrank := (hmem _).2 (mem_ranked.2 ⟨other, hother, heligible, rfl⟩)
    rw [hsort] at hrank
    cases hrank
  | cons best rest =>
    rw [hsort] at hsorted hmem
    obtain ⟨record, hrecord, heligible, rfl⟩ := mem_ranked.1 ((hmem best).1 List.mem_cons_self)
    have hget : state.accounts.get? (ofLex (ofLex (ofLex (rank state record request)).2).2).2 = some record :=
      get?_of_mem_candidates hrecord
    simp only [hget]
    refine .inl ⟨_, rfl, rfl, hrecord, heligible, fun other hother hother' => ?_⟩
    rcases List.mem_cons.1 ((hmem _).2 (mem_ranked.2 ⟨other, hother, hother', rfl⟩)) with heq | hrest
    · exact heq.ge
    · exact (List.pairwise_cons.1 hsorted).1 _ hrest

theorem outcomeReceipt_select (state : PoolState Id Principal Provider Route Time)
    (request : AccountSelectionRequest Id Principal Provider Route Time) :
    outcomeReceipt (select state request) = receipt state request := by
  rcases select_cases state request with ⟨selection, hselect, hreceipt, -⟩ | ⟨error, hselect, hreceipt, -⟩
  · rw [hselect, outcomeReceipt, hreceipt]
  · rw [hselect, outcomeReceipt, hreceipt]

/-- Selection at an instant reports the account as eligible. -/
def EligibleAt (state : PoolState Id Principal Provider Route Time)
    (request : AccountSelectionRequest Id Principal Provider Route Time) (account : Id) (time : Time) : Prop :=
  ∃ candidate ∈ (outcomeReceipt (select state (request.atTime time))).candidates,
    candidate.account = account ∧ candidate.eligibility = .eligible

theorem eligibleAt_iff (h : record ∈ candidates state request) {time : Time} :
    EligibleAt state request record.account time ↔
      eligibility state record (request.atTime time) = .eligible := by
  rw [EligibleAt, outcomeReceipt_select]
  simp only [receipt, List.mem_map]
  constructor
  · rintro ⟨_, ⟨other, hother, rfl⟩, haccount, heligible⟩
    cases eq_of_account_eq hother (show record ∈ candidates state (request.atTime time) from h) haccount
    exact heligible
  · exact fun heligible => ⟨_, ⟨record, h, rfl⟩, rfl, heligible⟩

/-- Selection takes the best eligible account, and what it reports about the others is what happens to
them while nothing but time passes. -/
structure RetryTimesExact (state : PoolState Id Principal Provider Route Time)
    (request : AccountSelectionRequest Id Principal Provider Route Time) : Prop where
  best : ∀ selection, select state request = .ok selection →
    selection.record ∈ candidates state request ∧ eligibility state selection.record request = .eligible ∧
      ∀ other ∈ candidates state request, eligibility state other request = .eligible →
        rank state selection.record request ≤ rank state other request
  refused : ∀ error, select state request = .error error →
    ∀ other ∈ candidates state request, eligibility state other request ≠ .eligible
  later : ∀ candidate ∈ (outcomeReceipt (select state request)).candidates,
    ∀ time, candidate.eligibleAt = some time → request.now < time →
      (∀ earlier, request.now ≤ earlier → earlier < time → ¬ EligibleAt state request candidate.account earlier) ∧
        EligibleAt state request candidate.account time
  never : ∀ candidate ∈ (outcomeReceipt (select state request)).candidates,
    candidate.eligibleAt = none → ∀ time, request.now ≤ time → ¬ EligibleAt state request candidate.account time

/-- For every pool and request. -/
theorem retryTimesExact_iff (state : PoolState Id Principal Provider Route Time)
    (request : AccountSelectionRequest Id Principal Provider Route Time) :
    RetryTimesExact state request ↔ ∀ record ∈ candidates state request, Foreseen state request record := by
  have hmem : ∀ record ∈ candidates state request,
      evidence state record request ∈ (outcomeReceipt (select state request)).candidates := by
    intro record hrecord
    rw [outcomeReceipt_select]
    exact List.mem_map_of_mem hrecord
  constructor
  · intro h record hrecord
    refine timeExact_iff.1 ⟨fun time htime hlt => ?_, fun hnone time hle heligible => ?_⟩
    · obtain ⟨hbefore, hat⟩ := h.later _ (hmem record hrecord) time htime hlt
      exact ⟨fun earlier hle hlt heligible => hbefore earlier hle hlt ((eligibleAt_iff hrecord).2 heligible),
        (eligibleAt_iff hrecord).1 hat⟩
    · exact h.never _ (hmem record hrecord) hnone time hle ((eligibleAt_iff hrecord).2 heligible)
  · intro h
    have hreceipt : ∀ candidate ∈ (outcomeReceipt (select state request)).candidates,
        ∃ record ∈ candidates state request, evidence state record request = candidate := by
      intro candidate hcandidate
      rw [outcomeReceipt_select] at hcandidate
      exact List.mem_map.1 hcandidate
    constructor
    · intro selection hselection
      rcases select_cases state request with ⟨other, hselect, -, hbest⟩ | ⟨error, hselect, -⟩
      · cases hselection.symm.trans hselect
        exact hbest
      · cases hselection.symm.trans hselect
    · intro error herror
      rcases select_cases state request with ⟨other, hselect, -⟩ | ⟨error, hselect, -, hnone⟩
      · cases herror.symm.trans hselect
      · exact hnone
    · intro candidate hcandidate time htime hlt
      obtain ⟨record, hrecord, rfl⟩ := hreceipt candidate hcandidate
      obtain ⟨hbefore, hat⟩ := (timeExact_iff.2 (h record hrecord)).later time htime hlt
      exact ⟨fun earlier hle hlt heligible => hbefore earlier hle hlt ((eligibleAt_iff hrecord).1 heligible),
        (eligibleAt_iff hrecord).2 hat⟩
    · intro candidate hcandidate hnone time hle heligible
      obtain ⟨record, hrecord, rfl⟩ := hreceipt candidate hcandidate
      exact (timeExact_iff.2 (h record hrecord)).never hnone time hle ((eligibleAt_iff hrecord).1 heligible)

end

/-- The only account of a pool. -/
def soleAccount : AccountRecord Nat Unit Unit Unit := ⟨0, (), (), [()], true, 0, {}⟩

def soleAccounts : OrdMap Nat (AccountRecord Nat Unit Unit Unit) := OrdMap.empty.insert 0 soleAccount

theorem soleAccounts_keyed : ∀ entry ∈ soleAccounts.entries, entry.2.account = entry.1 := by
  intro entry hentry
  rw [List.mem_singleton.1 hentry]
  rfl

/-- Its rate is exhausted, with a retry time and no reset. -/
def retryOnly : PoolState Nat Unit Unit Unit Nat where
  accounts := soleAccounts
  keyed := soleAccounts_keyed
  cooldowns _ := none
  routeCooldowns _ _ := none
  rejections _ := none
  rate _ := some [([], { remaining := some ⟨0, 0⟩, retryAt := some ⟨5, 0⟩ })]
  quota _ := none
  quotaReserve := .disabled

/-- It is reported as eligible at the retry time, and is not. -/
theorem retryOnly_not_exact : ¬ RetryTimesExact retryOnly { provider := (), route := (), now := 0 } := by
  intro h
  have hlater := h.later _ List.mem_cons_self 5 rfl (Nat.succ_pos 4)
  obtain ⟨candidate, hmem, -, heligible⟩ := hlater.2
  rcases List.mem_singleton.1 hmem with rfl
  cases heligible

end OhMyPi.Accounts
