import Mathlib.Algebra.Order.Field.Rat
import Mathlib.Data.List.Chain
import Mathlib.Tactic.Linarith
import Mathlib.Tactic.NormNum

/-!
# Back pressure

`BackPressure::tolerated_msgs_per_s`: the messages per second the node tolerates from each
caller, and whether to tell its callers. The candidate is ten times the monitored rate,
spread over the sessions and clamped to `[SANITY_MIN, SANITY_MAX]` (`msgsPerSAndPeer`). It is
reported when it changes significantly (`significantChange`) from the last report; before
any report, from `SANITY_MAX`, and then it is recorded even when not reported.

Values are exact rationals. `SANITY_MAX_PER_S_AND_PEER` equals `INITIAL_MSGS_PER_S`, which is
outside the sources: it is the parameter `sanityMax`. The instant of a report is left out:
nothing reads it.

Run one at a time, a call compares its candidate with the last advertised value, or, before
any advertisement, with the first call's candidate (`tolerated_msgs_per_s_against_last_report`),
and successive advertisements are outside each other's band (`serial_advertisements_apart`).
The read and the write of `last_report` are separate locked steps (`callStep`): calls that
overlap can both pass the check against the same old value. Whatever the interleaving, every
value advertised, returned or recorded is still one call's clamped candidate, within
`[SANITY_MIN, SANITY_MAX]` (`advertised_values_are_candidates`).
-/

namespace SafeNetwork

/-- `SANITY_MIN_PER_S_AND_PEER`. -/
def sanityMinPerSAndPeer : ℚ := 1

/-- The state the calls share: the value of `last_report`. -/
structure BackPressure where
  lastReport : Option ℚ

/-- The monitored rate (`LoadMonitoring::msgs_per_s`) and the session count a call is made
with. -/
abbrev Reading := ℚ × Nat

/-- `significant_change`: 5 % worse, 10 % better, or zero. -/
def significantChange (changeRatio : ℚ) : Bool :=
  decide (changeRatio ≤ 0.95) || decide (changeRatio ≥ 1.1) || decide (changeRatio = 0)

/-- A ratio of zero is within the first bound, so the change is significant exactly outside
the band. -/
theorem significantChange_iff (r : ℚ) : significantChange r ↔ r ≤ 0.95 ∨ 1.1 ≤ r := by
  simp only [significantChange, Bool.or_eq_true, decide_eq_true_eq, ge_iff_le]
  constructor
  · rintro ((h | h) | rfl)
    · exact .inl h
    · exact .inr h
    · exact .inl (by norm_num)
  · rintro (h | h)
    · exact .inl (.inl h)
    · exact .inl (.inr h)

namespace BackPressure

variable (sanityMax : ℚ)

/-- The candidate of `try_get_new_value`: ten times the monitored rate, per caller, clamped. -/
def msgsPerSAndPeer (msgsPerS : ℚ) (sessionsCount : Nat) : ℚ :=
  max sanityMinPerSAndPeer (min sanityMax (10 * msgsPerS / max 1 (sessionsCount : ℚ)))

/-- The candidate of a reading. -/
def candidate (c : Reading) : ℚ := msgsPerSAndPeer sanityMax c.1 c.2

/-- A reading of `x / 10` from one session has candidate `x`, for `x` within the sanity
bounds. -/
theorem candidate_tenth (x : ℚ) (h1 : 1 ≤ x) (h2 : x ≤ sanityMax) :
    candidate sanityMax (x / 10, 1) = x := by
  simp only [candidate, msgsPerSAndPeer, sanityMinPerSAndPeer, Nat.cast_one, max_self]
  rw [mul_div_cancel₀ _ (by norm_num : (10 : ℚ) ≠ 0), div_one, min_eq_right h2, max_eq_right h1]

/-- What `try_get_new_value` does with a candidate after reading the last report: whether to
record it and whether to report it. -/
def recordAndReport (prev : Option ℚ) (v : ℚ) : Bool × Bool :=
  match prev with
  | some previous => if significantChange (v / previous) then (true, true) else (false, false)
  | none => if significantChange (v / sanityMax) then (true, true) else (true, false)

/-- `try_get_new_value` with no other call in between: its result and the state after. -/
def tryGetNewValue (bp : BackPressure) (c : Reading) : Option ℚ × BackPressure :=
  let v := candidate sanityMax c
  let d := recordAndReport sanityMax bp.lastReport v
  (if d.2 then some v else none, if d.1 then ⟨some v⟩ else bp)

/-- Calls one after another from `bp`: their results in order, and the state after. -/
def runCalls (bp : BackPressure) : List Reading → List (Option ℚ) × BackPressure
  | [] => ([], bp)
  | c :: cs =>
    let r := tryGetNewValue sanityMax bp c
    let rest := runCalls r.2 cs
    (r.1 :: rest.1, rest.2)

theorem runCalls_append_singleton (bp : BackPressure) (cs : List Reading) (c : Reading) :
    runCalls sanityMax bp (cs ++ [c]) =
      ((runCalls sanityMax bp cs).1 ++ [(tryGetNewValue sanityMax (runCalls sanityMax bp cs).2 c).1],
        (tryGetNewValue sanityMax (runCalls sanityMax bp cs).2 c).2) := by
  induction cs generalizing bp with
  | nil => rfl
  | cons c' cs ih => simp only [List.cons_append, runCalls, List.append_eq, ih]

/-- What `last_report` holds after calls from `bp` with these readings and results: the last
value advertised; else what it held; else the first call's candidate. -/
def recordedAfter (bp : BackPressure) (cs : List Reading) (results : List (Option ℚ)) :
    Option ℚ :=
  match (results.filterMap id).getLast? with
  | some a => some a
  | none =>
    match bp.lastReport with
    | some p => some p
    | none => cs.head?.map (candidate sanityMax)

theorem recordedAfter_append_some (bp : BackPressure) (cs : List Reading) (rs : List (Option ℚ))
    (v : ℚ) : recordedAfter sanityMax bp cs (rs ++ [some v]) = some v := by
  simp [recordedAfter, List.filterMap_append]

theorem recordedAfter_append_none {bp : BackPressure} {cs : List Reading} {rs : List (Option ℚ)}
    {x : ℚ} (c : Reading) (h : recordedAfter sanityMax bp cs rs = some x) :
    recordedAfter sanityMax bp (cs ++ [c]) (rs ++ [none]) = some x := by
  unfold recordedAfter at h ⊢
  rw [List.filterMap_append, show [none].filterMap (id : Option ℚ → Option ℚ) = [] from rfl,
    List.append_nil]
  split at h
  · exact h
  · split at h
    · exact h
    · cases cs <;> simp_all

theorem recordedAfter_eq_none {bp : BackPressure} {cs : List Reading} {rs : List (Option ℚ)}
    (h : recordedAfter sanityMax bp cs rs = none) :
    rs.filterMap id = [] ∧ bp.lastReport = none ∧ cs = [] := by
  unfold recordedAfter at h
  split at h
  · cases h
  · next hl =>
    split at h
    · cases h
    · next hb => exact ⟨List.getLast?_eq_none_iff.1 hl, hb, by simpa using h⟩

/-- The run invariant: `last_report` holds the last advertised value, else what it held
before the calls, else the candidate of the first call. -/
theorem lastReport_runCalls (bp : BackPressure) (cs : List Reading) :
    (runCalls sanityMax bp cs).2.lastReport =
      recordedAfter sanityMax bp cs (runCalls sanityMax bp cs).1 := by
  induction cs using List.reverseRecOn with
  | nil => cases h : bp.lastReport <;> simp [runCalls, recordedAfter, h]
  | append_singleton cs c ih =>
    rw [runCalls_append_singleton]
    simp only [tryGetNewValue, recordAndReport]
    cases hp : (runCalls sanityMax bp cs).2.lastReport with
    | some prev =>
      rw [hp] at ih
      by_cases hs : significantChange (candidate sanityMax c / prev) <;>
        simp only [hs, Bool.false_eq_true, eq_self_iff_true, if_true, if_false]
      · exact (recordedAfter_append_some ..).symm
      · rw [hp]
        exact (recordedAfter_append_none sanityMax c ih.symm).symm
    | none =>
      obtain ⟨hrs, hb, rfl⟩ := recordedAfter_eq_none sanityMax (hp.symm.trans ih).symm
      by_cases hs : significantChange (candidate sanityMax c / sanityMax) <;>
        simp only [hs, Bool.false_eq_true, eq_self_iff_true, if_true, if_false]
      · exact (recordedAfter_append_some ..).symm
      · simp [recordedAfter, List.filterMap_append, hrs, hb]

/-- Run one at a time, a call returns its candidate exactly when it lies outside the band
of the reference: the last value advertised; before any advertisement, the last report held
before the calls, or else the first call's candidate, recorded without being advertised;
before any call, `SANITY_MAX`. -/
theorem tolerated_msgs_per_s_against_last_report (bp : BackPressure) (cs : List Reading)
    (c : Reading) :
    (runCalls sanityMax bp (cs ++ [c])).1 = (runCalls sanityMax bp cs).1 ++
      [let v := candidate sanityMax c
       let ref := (recordedAfter sanityMax bp cs (runCalls sanityMax bp cs).1).getD sanityMax
       if v / ref ≤ 0.95 ∨ 1.1 ≤ v / ref then some v else none] := by
  rw [runCalls_append_singleton, ← lastReport_runCalls]
  simp only [tryGetNewValue, recordAndReport]
  cases (runCalls sanityMax bp cs).2.lastReport <;>
    simp only [Option.getD_some, Option.getD_none, ← significantChange_iff] <;> split_ifs <;> simp_all

/-- The law as first stated: a call advertises its candidate when it lies outside the band
of the last advertised value, or of `SANITY_MAX` before any advertisement. -/
def advertisedAgainstLast : ℚ → List Reading → List (Option ℚ)
  | _, [] => []
  | last, c :: cs =>
    if candidate sanityMax c / last ≤ 0.95 ∨ 1.1 ≤ candidate sanityMax c / last then
      some (candidate sanityMax c) :: advertisedAgainstLast (candidate sanityMax c) cs
    else none :: advertisedAgainstLast last cs

/-- Every run of calls from no report advertises as `advertisedAgainstLast` says. -/
def AdvertisesAgainstLast : Prop :=
  ∀ cs, (runCalls sanityMax ⟨none⟩ cs).1 = advertisedAgainstLast sanityMax sanityMax cs

/-- A first candidate 3 % below `SANITY_MAX` is recorded without being advertised; a second,
7 % below `SANITY_MAX` but within the band of the first, is then not advertised either. -/
theorem first_candidate_recorded_unadvertised :
    ¬ ∃ sanityMax : ℚ, 2 ≤ sanityMax ∧ AdvertisesAgainstLast sanityMax := by
  rintro ⟨M, hM, hstated⟩
  have hM0 : M ≠ 0 := by positivity
  have h := hstated [(0.97 * M / 10, 1), (0.93 * M / 10, 1)]
  have hr : 93 / 100 * M / (97 / 100 * M) = 93 / 97 := by
    rw [mul_div_mul_right _ _ hM0]
    norm_num
  simp only [runCalls, tryGetNewValue, recordAndReport, advertisedAgainstLast,
    candidate_tenth M (0.97 * M) (by linarith only [hM]) (by linarith only [hM]),
    candidate_tenth M (0.93 * M) (by linarith only [hM]) (by linarith only [hM]), mul_div_cancel_right₀ _ hM0] at h
  norm_num [significantChange, hr, hM0] at h
  exact Option.noConfusion h

/-- Run one at a time, each advertisement is outside the band of the one before. -/
theorem runCalls_advertisements_apart (bp : BackPressure) (cs : List Reading) :
    ((runCalls sanityMax bp cs).1.filterMap id).Chain' fun a b => b / a ≤ 0.95 ∨ 1.1 ≤ b / a := by
  induction cs using List.reverseRecOn with
  | nil => exact List.chain'_nil
  | append_singleton cs c ih =>
    have hinv := lastReport_runCalls sanityMax bp cs
    rw [runCalls_append_singleton, List.filterMap_append]
    refine List.chain'_append.2 ⟨ih, ?_, fun a ha b hb => ?_⟩
    · cases (tryGetNewValue sanityMax (runCalls sanityMax bp cs).2 c).1 <;> simp
    · have hrec : (runCalls sanityMax bp cs).2.lastReport = some a := by
        rw [hinv, recordedAfter, Option.mem_def.1 ha]
      simp only [tryGetNewValue, recordAndReport, hrec] at hb
      by_cases hs : significantChange (candidate sanityMax c / a) <;> simp [hs] at hb
      subst hb
      exact (significantChange_iff _).1 hs

/-! ## Calls that overlap -/

/-- Where a call of `try_get_new_value` is: before its read of `last_report`, between its
read and its write, or returned. -/
inductive CallStage where
  | ready (c : Reading)
  | decided (v : ℚ) (record report : Bool)
  | done (result : Option ℚ)

/-- One locked step of a call: the read of `last_report` and the decision it leads to; then
the write, if any, and the result. -/
def callStep (bp : BackPressure) : CallStage → BackPressure × CallStage
  | .ready c =>
    let v := candidate sanityMax c
    let d := recordAndReport sanityMax bp.lastReport v
    (bp, .decided v d.1 d.2)
  | .decided v record report =>
    (if record then ⟨some v⟩ else bp, .done (if report then some v else none))
  | .done r => (bp, .done r)

/-- The calls in flight on one shared state. -/
structure Calls where
  bp : BackPressure
  calls : List CallStage

/-- Call `i` takes its next step, with the value it advertises if this is the write of a call
that reports. -/
def Calls.step (sys : Calls) (i : Nat) : Calls × Option ℚ :=
  match sys.calls[i]? with
  | some st =>
    let r := callStep sanityMax sys.bp st
    (⟨r.1, sys.calls.set i r.2⟩, match st with
      | .decided v _ true => some v
      | _ => none)
  | none => (sys, none)

/-- The steps of a schedule: the state after, and the values advertised in the order of the
writes. -/
def Calls.run (sys : Calls) : List Nat → Calls × List ℚ
  | [] => (sys, [])
  | i :: is =>
    let r := sys.step sanityMax i
    let rest := r.1.run is
    (rest.1, r.2.toList ++ rest.2)

/-- A call's two steps in a row, after calls that have returned and before calls yet to
start: `try_get_new_value` run alone. -/
theorem Calls.run_pair (bp : BackPressure) (pre : List (Option ℚ)) (c : Reading)
    (cs : List Reading) (rest : List Nat) :
    (⟨bp, pre.map .done ++ .ready c :: cs.map .ready⟩ : Calls).run sanityMax
        (pre.length :: pre.length :: rest) =
      let r := tryGetNewValue sanityMax bp c
      let next : Calls := ⟨r.2, (pre ++ [r.1]).map .done ++ cs.map .ready⟩
      ((next.run sanityMax rest).1, r.1.toList ++ (next.run sanityMax rest).2) := by
  have hget : ∀ st : CallStage,
      (pre.map CallStage.done ++ st :: cs.map CallStage.ready)[pre.length]? = some st :=
    fun st => by rw [List.getElem?_append_right (by simp)]; simp
  have hset : ∀ st st' : CallStage,
      (pre.map CallStage.done ++ st :: cs.map CallStage.ready).set pre.length st' =
        pre.map CallStage.done ++ st' :: cs.map CallStage.ready := fun st st' => by
    rw [List.set_append_right _ _ (by simp)]; simp
  simp only [Calls.run, Calls.step, hget, hset, callStep]
  cases hd : (recordAndReport sanityMax bp.lastReport (candidate sanityMax (c.1, c.2))).2 <;>
    simp [tryGetNewValue, hd]

/-- The schedule in which calls `k` to `k + n - 1` run one at a time, each reading and then
writing. -/
def serialFrom (k n : Nat) : List Nat := (List.range' k n).flatMap fun i => [i, i]

/-- Run one at a time after calls that have returned, the calls return what `runCalls`
returns and advertise what it advertises. -/
theorem run_serialFrom (bp : BackPressure) (pre : List (Option ℚ)) (cs : List Reading) :
    (⟨bp, pre.map .done ++ cs.map .ready⟩ : Calls).run sanityMax
        (serialFrom pre.length cs.length) =
      (⟨(runCalls sanityMax bp cs).2, (pre ++ (runCalls sanityMax bp cs).1).map .done⟩,
        (runCalls sanityMax bp cs).1.filterMap id) := by
  induction cs generalizing bp pre with
  | nil => simp [serialFrom, Calls.run, runCalls]
  | cons c cs ih =>
    have h := ih (tryGetNewValue sanityMax bp c).2 (pre ++ [(tryGetNewValue sanityMax bp c).1])
    simp only [List.length_append, List.length_singleton] at h
    simp only [serialFrom, List.length_cons, List.range'_succ, List.flatMap_cons,
      List.singleton_append, List.cons_append, List.nil_append, List.map_cons] at h ⊢
    rw [Calls.run_pair]
    simp only [h, runCalls, List.append_assoc, List.singleton_append]
    cases (tryGetNewValue sanityMax bp c).1 <;> rfl

/-- Successive advertisements as first stated: in the order of the writes, each is outside
the band of the one before, whatever the interleaving of the calls. -/
def AdvertisementsApart : Prop :=
  ∀ (bp : BackPressure) (cs : List Reading) (schedule : List Nat),
    ((⟨bp, cs.map .ready⟩ : Calls).run sanityMax schedule).2.Chain'
      fun a b => b / a ≤ 0.95 ∨ 1.1 ≤ b / a

/-- Two calls read the empty report before either writes: both advertise, against
`SANITY_MAX`, candidates 4 % apart. -/
theorem overlapping_calls_advertise_within_band :
    ¬ ∃ sanityMax : ℚ, 2 ≤ sanityMax ∧ AdvertisementsApart sanityMax := by
  rintro ⟨M, hM, hstated⟩
  have hM0 : M ≠ 0 := by positivity
  have h := hstated ⟨none⟩ [(0.5 * M / 10, 1), (0.52 * M / 10, 1)] [0, 1, 0, 1]
  have hr : 13 / 25 * M / (1 / 2 * M) = 26 / 25 := by
    rw [mul_div_mul_right _ _ hM0]
    norm_num
  simp only [List.map_cons, List.map_nil, Calls.run, Calls.step, List.getElem?_cons_zero,
    List.getElem?_cons_succ, List.set_cons_zero, List.set_cons_succ, callStep, recordAndReport,
    candidate_tenth M (0.5 * M) (by linarith only [hM]) (by linarith only [hM]),
    candidate_tenth M (0.52 * M) (by linarith only [hM]) (by linarith only [hM]), mul_div_cancel_right₀ _ hM0] at h
  norm_num [significantChange, hr] at h

/-- When the calls do not overlap, each reading and writing before the next one starts, every
advertisement is outside the band of the one before, in the order of the writes. -/
theorem serial_advertisements_apart (bp : BackPressure) (cs : List Reading) :
    ((⟨bp, cs.map .ready⟩ : Calls).run sanityMax (serialFrom 0 cs.length)).2.Chain'
      fun a b => b / a ≤ 0.95 ∨ 1.1 ≤ b / a := by
  have h := run_serialFrom sanityMax bp [] cs
  simp only [List.map_nil, List.nil_append, List.length_nil] at h
  rw [h]
  exact runCalls_advertisements_apart sanityMax bp cs

/-! ## What the calls can advertise -/

/-- When `SANITY_MAX` is at least `SANITY_MIN`, every candidate lies between them. -/
theorem candidate_bounds (hM : 1 ≤ sanityMax) (c : Reading) :
    1 ≤ candidate sanityMax c ∧ candidate sanityMax c ≤ sanityMax :=
  ⟨le_max_left _ _, max_le hM (min_le_left _ _)⟩

/-- `v` is the candidate of one of the readings `cs`. -/
def IsCandidateOf (cs : List Reading) (v : ℚ) : Prop := ∃ c ∈ cs, v = candidate sanityMax c

/-- A call's stage holds nothing but candidates of the readings `cs`. -/
def CallStage.Of (cs : List Reading) : CallStage → Prop
  | .ready c => c ∈ cs
  | .decided v _ _ => IsCandidateOf sanityMax cs v
  | .done r => ∀ v ∈ r, IsCandidateOf sanityMax cs v

/-- The calls in flight hold candidates of `cs`, and `last_report` holds what `bp₀` held or
one of them. -/
structure Calls.CandidatesOf (bp₀ : BackPressure) (cs : List Reading) (sys : Calls) : Prop where
  calls : ∀ st ∈ sys.calls, st.Of sanityMax cs
  lastReport : sys.bp.lastReport = bp₀.lastReport ∨
    ∃ v, sys.bp.lastReport = some v ∧ IsCandidateOf sanityMax cs v

variable {sanityMax} {bp₀ : BackPressure} {cs : List Reading}

/-- One step of any call keeps the invariant and advertises only a candidate of `cs`. -/
theorem Calls.CandidatesOf.step {sys : Calls} (h : sys.CandidatesOf sanityMax bp₀ cs) (i : Nat) :
    (sys.step sanityMax i).1.CandidatesOf sanityMax bp₀ cs ∧
      ∀ v ∈ (sys.step sanityMax i).2, IsCandidateOf sanityMax cs v := by
  unfold Calls.step
  split
  · next st hi =>
    have hst := h.calls st (List.getElem?_mem hi)
    have hset : ∀ st', st'.Of sanityMax cs → ∀ x ∈ sys.calls.set i st', x.Of sanityMax cs :=
      fun st' h' x hx => (List.mem_or_eq_of_mem_set hx).elim (h.calls x) (· ▸ h')
    cases st with
    | ready c => exact ⟨⟨hset _ ⟨c, hst, rfl⟩, h.lastReport⟩, by simp⟩
    | decided v record report =>
      refine ⟨⟨hset _ fun x hx => ?_, ?_⟩, fun x hx => ?_⟩
      · cases report <;> simp_all [CallStage.Of]
      · cases record
        · exact h.lastReport
        · exact .inr ⟨v, rfl, hst⟩
      · cases report <;> simp_all [CallStage.Of]
    | done r => exact ⟨⟨hset _ hst, h.lastReport⟩, by simp⟩
  · exact ⟨h, by simp⟩

theorem Calls.CandidatesOf.run {sys : Calls} (h : sys.CandidatesOf sanityMax bp₀ cs)
    (schedule : List Nat) : (sys.run sanityMax schedule).1.CandidatesOf sanityMax bp₀ cs ∧
      ∀ v ∈ (sys.run sanityMax schedule).2, IsCandidateOf sanityMax cs v := by
  induction schedule generalizing sys with
  | nil => exact ⟨h, by simp [Calls.run]⟩
  | cons i is ih =>
    obtain ⟨hstep, hadv⟩ := h.step i
    obtain ⟨hrun, hrest⟩ := ih hstep
    refine ⟨hrun, fun v hv => ?_⟩
    rcases List.mem_append.1 hv with hv | hv
    · exact hadv v (Option.mem_toList.1 hv)
    · exact hrest v hv

variable (sanityMax)

/-- After `schedule`, calls of the readings `cs` from `bp` have advertised, returned and
recorded nothing but their own candidates, or the report held before them, each within
`[SANITY_MIN, SANITY_MAX]`. -/
structure AdvertisesCandidates (bp : BackPressure) (cs : List Reading) (schedule : List Nat) :
    Prop where
  advertised : ∀ v ∈ ((⟨bp, cs.map .ready⟩ : Calls).run sanityMax schedule).2,
    IsCandidateOf sanityMax cs v ∧ 1 ≤ v ∧ v ≤ sanityMax
  returned : ∀ v, CallStage.done (some v) ∈ ((⟨bp, cs.map .ready⟩ : Calls).run sanityMax schedule).1.calls →
    IsCandidateOf sanityMax cs v ∧ 1 ≤ v ∧ v ≤ sanityMax
  recorded : ((⟨bp, cs.map .ready⟩ : Calls).run sanityMax schedule).1.bp.lastReport = bp.lastReport ∨
    ∃ v, ((⟨bp, cs.map .ready⟩ : Calls).run sanityMax schedule).1.bp.lastReport = some v ∧
      IsCandidateOf sanityMax cs v ∧ 1 ≤ v ∧ v ≤ sanityMax

/-- Whatever the interleaving of the calls, every value advertised, returned or recorded in
`last_report` is the clamped candidate of one of the calls, or the report held before them:
it lies within `[SANITY_MIN, SANITY_MAX]`. -/
theorem advertised_values_are_candidates (hM : 1 ≤ sanityMax) (bp : BackPressure)
    (cs : List Reading) (schedule : List Nat) : AdvertisesCandidates sanityMax bp cs schedule := by
  have hinit : (⟨bp, cs.map .ready⟩ : Calls).CandidatesOf sanityMax bp cs :=
    ⟨fun st hst => by obtain ⟨c, hc, rfl⟩ := List.mem_map.1 hst; exact hc, .inl rfl⟩
  obtain ⟨⟨hcalls, hrec⟩, hadv⟩ := hinit.run schedule
  have hbounds : ∀ v, IsCandidateOf sanityMax cs v →
      IsCandidateOf sanityMax cs v ∧ 1 ≤ v ∧ v ≤ sanityMax := fun v hv => by
    obtain ⟨c, hc, rfl⟩ := hv
    exact ⟨⟨c, hc, rfl⟩, candidate_bounds sanityMax hM c⟩
  exact ⟨fun v hv => hbounds v (hadv v hv), fun v hv => hbounds v (hcalls _ hv v rfl),
    hrec.imp_right fun ⟨v, hv, hc⟩ => ⟨v, hv, hbounds v hc⟩⟩

/-- Two calls from no report, interleaved read, read, write, write. -/
theorem overlapping_calls_advertise_candidates :
    (1 : ℚ) ≤ 100 ∧ AdvertisesCandidates 100 ⟨none⟩ [(5, 1), (5.2, 1)] [0, 1, 0, 1] :=
  ⟨by norm_num, advertised_values_are_candidates 100 (by norm_num) _ _ _⟩

end BackPressure

end SafeNetwork
