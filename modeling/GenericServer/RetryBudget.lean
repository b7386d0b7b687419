import GenericServer.ConnectAttempts

/-!
# The retry budget of a connect request

`Connector::retry` of `src/net/Connector.cpp` counts in a static variable. Every retryable failure
of a request is recorded with what the connector does about it.
-/
namespace GenericServer.RetryBudget

open TransitionRuns ConnectAttempts

/-- A retryable failure, and whether it leads to another attempt or to the failure callback. -/
structure Failure where
  request : ℕ
  timer : Bool
  callback : Bool
  deriving DecidableEq, Repr

structure Session where
  connector : Connector
  failures : List Failure

/-- The request for which a step calls `retry`. -/
def retrying (c : Connector) : Label → Option ℕ
  | .startConnect (some err) => if outcome err = .retry then some c.requests else none
  | .startConnect none => none
  | .connect req err => if outcome err = .retry then some req else none
  | .retryTimer req err => if outcome err = .retry then some req else none
  | .writeEvent fd err laddr paddr =>
    match c.mEvent with
    | some ev =>
      if ev.fd = fd ∧ err ≠ 0 ∧ isSelfConnect laddr paddr then some ev.request else none
    | none => none
  | .returned => none
  | .elsewhere => none

def observed (c c' : Connector) (req : ℕ) : Failure where
  request := req
  timer := req ∈ c'.timers
  callback := c.failed.length < c'.failed.length

def step (s : Session) (l : Label) : Option Session :=
  (ConnectAttempts.step s.connector l).map fun c =>
    ⟨c, s.failures ++ (retrying s.connector l).toList.map (observed s.connector c)⟩

def start (success failure : Bool) (retryTimes : ℕ) : Session :=
  ⟨ConnectAttempts.start success failure retryTimes, []⟩

/-- How often a request has failed. -/
def own (failures : List Failure) (req : ℕ) : ℕ := (failures.map Failure.request).count req

/-- The next failure of a request leads to another attempt if it is the first or the second one,
and to the failure callback if it is the third; there is no fourth one. -/
def Owed (failure : Bool) (failures : List Failure) (f : Failure) : Prop :=
  own failures f.request ≤ 2 ∧ f.timer = decide (own failures f.request < 2) ∧
    f.callback = (failure && decide (own failures f.request = 2))

/-- Every request has the budget for itself. -/
def Budgeted (failure : Bool) (failures : List Failure) : Prop :=
  ∀ earlier f later, failures = earlier ++ f :: later → Owed failure earlier f

/-- A retryable failure comes after less than two calls of `retry`, of whatever request, or after
two failures of its own request. -/
def Fits (s : Session) (l : Label) : Prop :=
  ∀ req ∈ retrying s.connector l, s.connector.retryTimes < 2 ∨ own s.failures req = 2

instance decidableFits (s : Session) (l : Label) : Decidable (Fits s l) :=
  inferInstanceAs (Decidable (∀ req ∈ retrying s.connector l, _))

variable {c c' u : Connector} {s s' : Session} {l : Label} {ls : List Label} {req : ℕ} {err : ℤ}
  {failure : Bool} {failures : List Failure} {f : Failure}

theorem budgeted_concat : Budgeted failure (failures ++ [f]) ↔
    Budgeted failure failures ∧ Owed failure failures f := by
  constructor
  · intro h
    refine ⟨fun earlier g later heq => h earlier g (later ++ [f]) ?_, h failures f [] rfl⟩
    rw [heq, List.append_assoc, List.cons_append]
  · rintro ⟨h, hf⟩ earlier g later heq
    rcases List.eq_nil_or_concat later with rfl | ⟨init, last, rfl⟩
    · obtain ⟨rfl, hg⟩ := List.append_inj' heq rfl
      cases hg
      exact hf
    · rw [List.concat_eq_append, ← List.cons_append, ← List.append_assoc] at heq
      obtain ⟨hinit, -⟩ := List.append_inj' heq rfl
      exact h earlier g init hinit

/-! ## One call of `retry` -/

theorem length_fail (u : Connector) (req : ℕ) :
    u.failed.length < (u.fail req).failed.length ↔ u.mFailedCallback = true := by
  unfold Connector.fail
  split
  case isTrue h =>
    refine iff_of_true ?_ h
    rw [List.length_append]
    exact Nat.lt_succ_self _
  case isFalse h => exact iff_of_false (Nat.lt_irrefl _) h

structure Retried (c c' : Connector) (req : ℕ) : Prop where
  counted : c'.retryTimes = c.retryTimes + 1
  timer : req ∈ c'.timers ↔ c.retryTimes < 2
  callback : c.failed.length < c'.failed.length ↔ 2 ≤ c.retryTimes ∧ c.mFailedCallback = true

theorem retry_retried (u : Connector) (fd : ℕ) (h : req ∉ u.timers) :
    Retried u (u.retry fd req) req := by
  refine ⟨retry_retryTimes u fd req, ?_, ?_⟩
  · unfold Connector.retry
    dsimp only
    split_ifs with hlt
    · exact iff_of_true (List.mem_append_right _ (List.mem_singleton_self _)) (by omega)
    · obtain ⟨fs, hfs⟩ := fail_frame { u.close fd with retryTimes := u.retryTimes + 1 } req
      rw [hfs]
      exact iff_of_false h (by omega)
  · unfold Connector.retry
    dsimp only
    split_ifs with hlt
    · exact iff_of_false (Nat.lt_irrefl _) (by omega)
    · refine (length_fail { u.close fd with retryTimes := u.retryTimes + 1 } req).trans ?_
      exact (and_iff_right (by omega)).symm

theorem connect_retried (h : req ∉ u.timers) (herr : outcome err = .retry) :
    Retried u (u.connect req err) req := by
  unfold Connector.connect
  rw [herr]
  obtain ⟨hcounted, htimer, hcallback⟩ :=
    retry_retried { u with sockets := u.sockets + 1 } u.sockets h
  exact ⟨hcounted, htimer, hcallback⟩

theorem connect_retryTimes (h : outcome err ≠ .retry) :
    (u.connect req err).retryTimes = u.retryTimes := by
  unfold Connector.connect
  cases herr : outcome err with
  | check => rfl
  | retry => exact absurd herr h
  | fail =>
    obtain ⟨fs, hfs⟩ := fail_frame { u with sockets := u.sockets + 1 } req
    dsimp only
    rw [hfs]

theorem handleWrite_retried {ev : Event} (h : ev.request ∉ c.timers) (hpoll : ev.polling = true)
    (herr : err ≠ 0) {laddr paddr : SockAddr} (hself : isSelfConnect laddr paddr = true) :
    Retried c (c.handleWrite ev err laddr paddr) ev.request := by
  unfold Connector.handleWrite Connector.removeEvent
  rw [if_pos hpoll]
  dsimp only
  rw [if_neg herr, if_pos hself]
  obtain ⟨hcounted, htimer, hcallback⟩ := retry_retried { c with
    registered := c.registered.erase ev.fd, mEvent := some { ev with polling := false },
    dispatching := some ev.fd } ev.fd h
  exact ⟨hcounted, htimer, hcallback⟩

theorem handleWrite_retryTimes {ev : Event} (hpoll : ev.polling = true) {laddr paddr : SockAddr}
    (h : ¬ (err ≠ 0 ∧ isSelfConnect laddr paddr = true)) :
    (c.handleWrite ev err laddr paddr).retryTimes = c.retryTimes := by
  unfold Connector.handleWrite Connector.removeEvent
  rw [if_pos hpoll]
  dsimp only
  split_ifs with herr hself
  · unfold Connector.succeed
    split <;> rfl
  · exact absurd ⟨herr, hself⟩ h
  · obtain ⟨fs, hfs⟩ := fail_frame (Connector.close { c with
        registered := c.registered.erase ev.fd, mEvent := some { ev with polling := false },
        dispatching := some ev.fd } ev.fd) ev.request
    rw [hfs]
    rfl

/-! ## One step of the connector -/

theorem not_mem_timers (hp : Placed c) {r : ℕ}
    (h : 0 < c.pending.count r + c.awaiting r ∨ c.requests ≤ r) : r ∉ c.timers := by
  have hr := hp r
  unfold Connector.places at hr
  refine List.count_eq_zero.mp ?_
  split_ifs at hr <;> omega

theorem not_mem_erase (hp : Placed c) {r : ℕ} (h : r ∈ c.timers) : r ∉ c.timers.erase r := by
  have hr := hp r
  have hcount := count_erase_add h r
  unfold Connector.places at hr
  refine List.count_eq_zero.mp ?_
  split_ifs at hr hcount <;> omega

/-- What the record of a step says about it. -/
def Recorded (c c' : Connector) (r : Option ℕ) : Prop :=
  (∀ req ∈ r, Retried c c' req) ∧ (r = none → c.retryTimes ≤ c'.retryTimes)

theorem recorded_none (h : c.retryTimes ≤ c'.retryTimes) : Recorded c c' none :=
  ⟨fun _ hreq => absurd hreq (Option.not_mem_none _), fun _ => h⟩

theorem recorded_some (h : Retried c c' req) : Recorded c c' (some req) :=
  ⟨fun _ hreq => Option.some.inj hreq ▸ h, fun hnone => by cases hnone⟩

theorem not_mem_timers_of_attempts (hp : Placed c) (h : Attempts c l u req err) :
    req ∉ u.timers := by
  cases h with
  | startConnect err => exact not_mem_timers hp (.inr (le_refl _))
  | connect err h =>
    exact not_mem_timers hp (.inl (Nat.lt_add_right _ (List.count_pos_iff.mpr h)))
  | retryTimer err h => exact not_mem_erase hp h

theorem retrying_of_attempts (h : Attempts c l u req err) :
    retrying c l = if outcome err = .retry then some req else none := by
  cases h with
  | startConnect err => rfl
  | connect err h => rfl
  | retryTimer err h => rfl

theorem attempt_recorded (hp : Placed c) (h : Attempts c l u req err) :
    Recorded c (u.connect req err) (retrying c l) := by
  have htimers := not_mem_timers_of_attempts hp h
  rw [retrying_of_attempts h]
  obtain ⟨ps, ts, k, rfl⟩ := h.frame
  split_ifs with herr
  · obtain ⟨hcounted, htimer, hcallback⟩ := connect_retried htimers herr
    exact recorded_some ⟨hcounted, htimer, hcallback⟩
  · exact recorded_none (connect_retryTimes
      (u := { c with pending := ps, timers := ts, requests := k }) herr).ge

theorem returned_frame (c : Connector) (fd : ℕ) :
    ∃ d undefined, c.returned fd = { c with dispatching := d, undefined := undefined } := by
  unfold Connector.returned
  split
  · split_ifs
    · exact ⟨_, _, rfl⟩
    · exact ⟨_, _, rfl⟩
  · exact ⟨_, _, rfl⟩

theorem writeEvent_recorded (h : Consistent c) (hp : Placed c) {fd : ℕ} {laddr paddr : SockAddr}
    (hfd : fd ∈ c.registered) : Recorded c (c.writeEvent fd err laddr paddr)
      (retrying c (.writeEvent fd err laddr paddr)) := by
  unfold Connector.writeEvent retrying
  cases hev : c.mEvent with
  | none => exact recorded_none (le_refl _)
  | some ev =>
    dsimp only
    by_cases heq : ev.fd = fd
    · subst heq
      have hpoll := (h.event ev hev).2.mpr hfd
      have htimers : ev.request ∉ c.timers := not_mem_timers hp (.inl (by
        simp [Connector.awaiting, hev, hpoll]))
      rw [if_pos rfl]
      split_ifs with hself
      · exact recorded_some (handleWrite_retried htimers hpoll hself.2.1 hself.2.2)
      · exact recorded_none (handleWrite_retryTimes hpoll fun hboth => hself ⟨rfl, hboth⟩).ge
    · rw [if_neg heq, if_neg fun hboth => heq hboth.1]
      exact recorded_none (le_refl _)

theorem step_recorded (h : Consistent c) (hp : Placed c)
    (hs : ConnectAttempts.step c l = some c') : Recorded c c' (retrying c l) := by
  obtain ⟨-, ⟨rfl, rfl⟩ | ⟨rfl, rfl⟩ | ⟨u, req, err, hu, rfl⟩ |
    ⟨fd, err, laddr, paddr, rfl, hfd, -, rfl⟩ | ⟨fd, rfl, -, rfl⟩⟩ := step_cases hs
  · exact recorded_none (Nat.le_succ _)
  · exact recorded_none (le_refl _)
  · exact attempt_recorded hp hu
  · exact writeEvent_recorded h hp hfd
  · obtain ⟨d, undefined, hc⟩ := returned_frame c fd
    rw [hc]
    exact recorded_none (le_refl _)

theorem connect_callback (u : Connector) (req : ℕ) (err : ℤ) :
    (u.connect req err).mFailedCallback = u.mFailedCallback := by
  unfold Connector.connect
  cases outcome err with
  | check => rfl
  | retry =>
    obtain ⟨n, ts, fs, hs⟩ := retry_frame { u with sockets := u.sockets + 1 } u.sockets req
    dsimp only
    rw [hs]
    rfl
  | fail =>
    obtain ⟨fs, hs⟩ := fail_frame { u with sockets := u.sockets + 1 } req
    dsimp only
    rw [hs]

theorem step_callback (h : Consistent c) (hs : ConnectAttempts.step c l = some c') :
    c'.mFailedCallback = c.mFailedCallback := by
  obtain ⟨-, ⟨-, rfl⟩ | ⟨-, rfl⟩ | ⟨u, req, err, hu, rfl⟩ |
    ⟨fd, err, laddr, paddr, -, hfd, -, rfl⟩ | ⟨fd, -, -, rfl⟩⟩ := step_cases hs
  · rfl
  · rfl
  · rw [connect_callback]
    obtain ⟨ps, ts, k, rfl⟩ := hu.frame
    rfl
  · unfold Connector.writeEvent
    split
    case h_1 ev hev =>
      split_ifs with heq
      · subst heq
        obtain ⟨n, ts, cs, hs, ss, fs, hs', -⟩ :=
          handleWrite_frame c ((h.event ev hev).2.mpr hfd) err laddr paddr
        rw [hs']
      · rfl
    case h_2 => rfl
  · obtain ⟨d, undefined, hc⟩ := returned_frame c fd
    rw [hc]

/-! ## Every step -/

structure Inv (failure : Bool) (s : Session) : Prop where
  consistent : Consistent s.connector
  placed : Placed s.connector
  callback : s.connector.mFailedCallback = failure
  own_le : ∀ req, own s.failures req ≤ s.connector.retryTimes

theorem own_concat (failures : List Failure) (f : Failure) (req : ℕ) :
    own (failures ++ [f]) req = own failures req + if f.request = req then 1 else 0 := by
  rw [own, List.map_append, List.count_append, List.map_singleton, List.count_singleton]
  simp only [beq_iff_eq, own]

theorem step_failures (hs : step s l = some s') :
    ConnectAttempts.step s.connector l = some s'.connector ∧
      s'.failures = s.failures ++
        (retrying s.connector l).toList.map (observed s.connector s'.connector) := by
  obtain ⟨c, hc, rfl⟩ := Option.map_eq_some_iff.mp hs
  exact ⟨hc, rfl⟩

theorem step_inv (h : Inv failure s) (hs : step s l = some s') : Inv failure s' := by
  obtain ⟨hc, hf⟩ := step_failures hs
  have hrec := step_recorded h.consistent h.placed hc
  refine ⟨step_consistent h.consistent hc, step_placed h.consistent h.placed hc,
    (step_callback h.consistent hc).trans h.callback, fun r => ?_⟩
  have hle := h.own_le r
  rw [hf]
  cases hreq : retrying s.connector l with
  | none =>
    have hmono := hrec.2 hreq
    rw [Option.toList_none, List.map_nil, List.append_nil]
    exact hle.trans hmono
  | some req =>
    have hcounted := (hrec.1 req hreq).counted
    rw [Option.toList_some, List.map_singleton, own_concat, hcounted]
    split_ifs <;> omega

/-- The observation is owed exactly where the static counter is as low as the request's own one,
or both are used up. -/
theorem owed_iff (h : Inv failure s) (hret : Retried s.connector s'.connector req) :
    Owed failure s.failures (observed s.connector s'.connector req) ↔
      s.connector.retryTimes < 2 ∨ own s.failures req = 2 := by
  have hle := h.own_le req
  have htimer := hret.timer
  have hcallback := hret.callback
  rw [h.callback] at hcallback
  unfold Owed observed
  dsimp only
  by_cases hlow : s.connector.retryTimes < 2
  · have hnone : ¬ s.connector.failed.length < s'.connector.failed.length := fun hlt => by
      have := (hcallback.mp hlt).1
      omega
    refine iff_of_true ⟨by omega, ?_, ?_⟩ (.inl hlow)
    · rw [decide_eq_true (htimer.mpr hlow), decide_eq_true (by omega)]
    · rw [decide_eq_false hnone, decide_eq_false (by omega), Bool.and_false]
  · rw [or_iff_right hlow, decide_eq_false (fun hmem => hlow (htimer.mp hmem))]
    constructor
    · rintro ⟨hle, htimer, -⟩
      have := of_decide_eq_false htimer.symm
      omega
    · intro heq
      refine ⟨by omega, (decide_eq_false (by omega)).symm, ?_⟩
      rw [decide_eq_true heq, Bool.and_true, Bool.eq_iff_iff, decide_eq_true_iff, hcallback]
      exact and_iff_right (by omega)

theorem step_budgeted_iff (h : Inv failure s) (hs : step s l = some s') :
    Budgeted failure s'.failures ↔ Budgeted failure s.failures ∧ Fits s l := by
  obtain ⟨hc, hf⟩ := step_failures hs
  have hrec := step_recorded h.consistent h.placed hc
  unfold Fits
  rw [hf]
  cases hreq : retrying s.connector l with
  | none =>
    rw [Option.toList_none, List.map_nil, List.append_nil]
    exact (and_iff_left fun _ hnone => by cases hnone).symm
  | some req =>
    rw [Option.toList_some, List.map_singleton, budgeted_concat, owed_iff h (hrec.1 req hreq)]
    refine and_congr_right fun _ => ⟨fun hfits q hq => ?_, fun hfits => hfits req rfl⟩
    cases hq
    exact hfits

theorem inv_start (success failure : Bool) (retryTimes : ℕ) :
    Inv failure (start success failure retryTimes) where
  consistent := start_consistent success failure retryTimes
  placed _ := Nat.zero_le _
  callback := rfl
  own_le _ := Nat.zero_le _

/-- In every run every request has three attempts to itself exactly when no failure finds the
static counter used up by other requests. -/
theorem budgeted_iff (success failure : Bool) (retryTimes : ℕ)
    (hr : run step (start success failure retryTimes) ls = some s) :
    Budgeted failure s.failures ↔ Guarded step Fits (start success failure retryTimes) ls :=
  guarded_iff (fun _ _ _ h hs => step_inv h hs) (fun _ _ _ h hs => step_budgeted_iff h hs)
    (inv_start success failure retryTimes)
    (fun _ _ _ heq => absurd heq.symm (List.append_ne_nil_of_right_ne_nil _ (List.cons_ne_nil _ _))) hr

/-- A request with two failures of its own. -/
theorem budgeted_one_request :
    let ls := [.startConnect (some ECONNREFUSED), .retryTimer 0 ECONNREFUSED,
      .retryTimer 0 EINPROGRESS]
    ∃ s, run step (start true true 0) ls = some s ∧
      s.failures = [⟨0, true, false⟩, ⟨0, true, false⟩] ∧
      Guarded step Fits (start true true 0) ls ∧ Budgeted true s.failures := by
  intro ls
  obtain ⟨s, hs⟩ : ∃ s, run step (start true true 0) ls = some s := ⟨_, rfl⟩
  have hfits : Guarded step Fits (start true true 0) ls := by decide
  refine ⟨s, hs, ?_, hfits, (budgeted_iff true true 0 hs).mpr hfits⟩
  cases hs
  rfl

/-- The second request of a process gives up at its first failure. -/
theorem second_request_unbudgeted : ∃ s, run step (start true true 0)
      [.startConnect (some ECONNREFUSED), .retryTimer 0 ECONNREFUSED, .retryTimer 0 ECONNREFUSED,
        .startConnect (some ECONNREFUSED)] = some s ∧
    s.failures = [⟨0, true, false⟩, ⟨0, true, false⟩, ⟨0, false, true⟩, ⟨1, false, true⟩] ∧
    ¬ Budgeted true s.failures := by
  refine ⟨_, rfl, rfl, fun h => ?_⟩
  have howed := h [⟨0, true, false⟩, ⟨0, true, false⟩, ⟨0, false, true⟩] ⟨1, false, true⟩ [] rfl
  exact absurd howed.2.1 (by decide)

end GenericServer.RetryBudget
