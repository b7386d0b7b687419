import GenericServer.ConnectAttempts

/-!
# The answers to connect requests

Every call of `Connector::startConnect` is to lead to one call of one of the two callbacks. A
request gets lost when `check` replaces the event of another attempt, or where a callback that is
due has not been set.
-/
namespace GenericServer.ConnectAnswers

open TransitionRuns ConnectAttempts

/-- There is another attempt, or a failure callback. -/
def RetryFits (s : Connector) : Prop := s.retryTimes + 1 < 3 ∨ s.mFailedCallback = true

/-- The attempt of a request for which `::connect` returns with `err` loses no request. -/
def AttemptFits (s : Connector) (err : ℤ) : Prop :=
  match outcome err with
  | .check => (∀ ev ∈ s.mEvent, ev.polling = false) ∧ s.dispatching = none
  | .retry => RetryFits s
  | .fail => s.mFailedCallback = true

def AnswerFits (s : Connector) : Label → Prop
  | .startConnect own => ∀ err ∈ own, AttemptFits s err
  | .connect _ err => AttemptFits s err
  | .retryTimer _ err => AttemptFits s err
  | .writeEvent _ err laddr paddr =>
    if err = 0 then s.mSuccessCallback = true
    else if isSelfConnect laddr paddr then RetryFits s else s.mFailedCallback = true
  | .returned => True
  | .elsewhere => True

/-- Every request has been answered once, by one of the callbacks. -/
def Answered (s : Connector) : Prop :=
  s.undefined = false ∧ ∀ r < s.requests, (s.succeeded ++ s.failed).count r = 1

structure Whole (s : Connector) : Prop where
  defined : s.undefined = false
  placed : ∀ r < s.requests, s.places r = 1
  dispatching : ∀ fd ∈ s.dispatching, ∃ ev ∈ s.mEvent, ev.fd = fd

variable {s s' u : Connector} {l : Label} {ls : List Label} {req : ℕ} {err : ℤ}

theorem whole_iff_answered (hidle : Idle s) : Whole s ↔ Answered s := by
  have hplaces : ∀ r, s.places r = (s.succeeded ++ s.failed).count r := by
    intro r
    have hawaiting : s.awaiting r = 0 := by
      unfold Connector.awaiting
      split
      · rename_i ev hev
        rw [hidle.event ev hev]
        exact if_neg fun h => by cases h.1
      · rfl
    rw [Connector.places, hidle.pending, hidle.timers, hawaiting, List.count_nil, List.count_append]
    omega
  constructor
  · intro h
    refine ⟨h.defined, fun r hr => ?_⟩
    rw [← hplaces]
    exact h.placed r hr
  · intro h
    refine ⟨h.1, fun r hr => ?_, fun fd hfd => ?_⟩
    · rw [hplaces]
      exact h.2 r hr
    · rw [hidle.dispatching] at hfd
      cases hfd

/-! ## Where a request goes -/

theorem fail_places_eq (s : Connector) (req r : ℕ) : (s.fail req).places r =
    s.places r + if req = r ∧ s.mFailedCallback = true then 1 else 0 := by
  unfold Connector.fail
  split_ifs with hcallback hr hr
  · simp only [Connector.places, Connector.awaiting, List.count_append, List.count_singleton,
      beq_iff_eq, hr.1, if_true]
    omega
  · have hne : ¬ req = r := fun h => hr ⟨h, hcallback⟩
    simp only [Connector.places, Connector.awaiting, List.count_append, List.count_singleton,
      beq_iff_eq, hne, if_false]
    omega
  · exact absurd hr.2 hcallback
  · rfl

theorem succeed_places_eq (s : Connector) (fd req r : ℕ) : (s.succeed fd req).places r =
    s.places r + if req = r ∧ s.mSuccessCallback = true then 1 else 0 := by
  unfold Connector.succeed
  split_ifs with hcallback hr hr
  · simp only [Connector.places, Connector.awaiting, List.count_append, List.count_singleton,
      beq_iff_eq, hr.1, if_true]
    omega
  · have hne : ¬ req = r := fun h => hr ⟨h, hcallback⟩
    simp only [Connector.places, Connector.awaiting, List.count_append, List.count_singleton,
      beq_iff_eq, hne, if_false]
    omega
  · exact absurd hr.2 hcallback
  · rfl

theorem retry_places_of_fits (s : Connector) (fd req r : ℕ) (hfits : RetryFits s) :
    (s.retry fd req).places r = s.places r + if req = r then 1 else 0 := by
  unfold Connector.retry
  dsimp only
  by_cases hbudget : s.retryTimes + 1 < 3
  · rw [if_pos hbudget]
    simp only [Connector.places, Connector.awaiting, Connector.close, List.count_append,
      List.count_singleton, beq_iff_eq]
    omega
  · have hcallback := hfits.resolve_left hbudget
    rw [if_neg hbudget, fail_places_eq]
    simp only [Connector.close, hcallback, and_true]
    rfl

theorem retry_places_of_not_fits (s : Connector) (fd req r : ℕ) (hfits : ¬ RetryFits s) :
    (s.retry fd req).places r = s.places r := by
  obtain ⟨hbudget, hcallback⟩ := not_or.mp hfits
  unfold Connector.retry
  dsimp only
  rw [if_neg hbudget, fail_places_eq, if_neg fun h => hcallback h.2]
  rfl

theorem check_places_eq (s : Connector) (fd req r : ℕ) :
    (s.check fd req).places r + s.awaiting r = s.places r + if req = r then 1 else 0 := by
  simp only [Connector.places, Connector.awaiting, Connector.check, true_and]
  omega

theorem awaiting_event {ev : Event} (hev : s.mEvent = some ev) (hpoll : ev.polling = true) :
    s.awaiting ev.request = 1 := by
  rw [Connector.awaiting, hev]
  exact if_pos ⟨hpoll, rfl⟩

theorem awaiting_eq_zero (h : ∀ ev ∈ s.mEvent, ev.polling = false) (r : ℕ) :
    s.awaiting r = 0 := by
  unfold Connector.awaiting
  split
  · rename_i ev hev
    rw [h ev hev]
    exact if_neg fun h => by cases h.1
  · rfl

theorem lt_requests (hp : Placed s) {r : ℕ} (h : 1 ≤ s.places r) : r < s.requests := by
  have hr := hp r
  split_ifs at hr with hlt
  · exact hlt
  · omega

theorem places_le_one (hp : Placed s) (r : ℕ) : s.places r ≤ 1 := by
  have hr := hp r
  split_ifs at hr <;> omega

/-! ## One attempt -/

/-- Every request is somewhere, but for the one of the attempt. -/
structure Owed (u : Connector) (req : ℕ) : Prop where
  defined : u.undefined = false
  placed : ∀ r < u.requests, r ≠ req → u.places r = 1
  dispatching : ∀ fd ∈ u.dispatching, ∃ ev ∈ u.mEvent, ev.fd = fd

theorem whole_iff_owed (hzero : u.places req = 0) (hrequests : s.requests = u.requests)
    (hundefined : s.undefined = u.undefined) (hevent : s.mEvent = u.mEvent)
    (hdispatching : s.dispatching = u.dispatching)
    (hplaces : ∀ r, s.places r = u.places r + if req = r then 1 else 0) :
    Whole s ↔ Owed u req := by
  constructor
  · intro h
    refine ⟨hundefined ▸ h.defined, fun r hr hne => ?_, ?_⟩
    · have hone := h.placed r (hrequests ▸ hr)
      rwa [hplaces, if_neg hne.symm, Nat.add_zero] at hone
    · rw [← hdispatching, ← hevent]
      exact h.dispatching
  · intro h
    refine ⟨hundefined.trans h.defined, fun r hr => ?_, ?_⟩
    · rw [hplaces]
      by_cases hreq : req = r
      · rw [if_pos hreq, ← hreq, hzero]
      · rw [if_neg hreq, h.placed r (hrequests ▸ hr) (Ne.symm hreq)]
    · rw [hdispatching, hevent]
      exact h.dispatching

/-- `check` loses the request of the event that it replaces. -/
theorem check_whole_iff (hc : Consistent u) (hp : Placed u) (hzero : u.places req = 0) :
    Whole (Connector.check { u with sockets := u.sockets + 1 } u.sockets req) ↔
      Owed u req ∧ (∀ ev ∈ u.mEvent, ev.polling = false) ∧ u.dispatching = none := by
  have heq : ∀ r, (Connector.check { u with sockets := u.sockets + 1 } u.sockets req).places r +
      u.awaiting r = u.places r + if req = r then 1 else 0 :=
    fun r => check_places_eq { u with sockets := u.sockets + 1 } u.sockets req r
  constructor
  · intro h'
    have hrest : ∀ r < u.requests, r ≠ req → u.places r = 1 ∧ u.awaiting r = 0 := by
      intro r hr hne
      have hone := h'.placed r hr
      have hle := places_le_one hp r
      have hsum := heq r
      rw [hone, if_neg hne.symm] at hsum
      omega
    have hevent : ∀ ev ∈ u.mEvent, ev.polling = false := by
      intro ev hev
      rw [← Bool.not_eq_true]
      intro hpoll
      have hone := awaiting_event hev hpoll
      have hpos : 1 ≤ u.places ev.request := by
        rw [Connector.places]
        omega
      have hne : ev.request ≠ req := by
        intro hself
        rw [hself, hzero] at hpos
        omega
      have hnone := (hrest ev.request (lt_requests hp hpos) hne).2
      omega
    have hdispatching : u.dispatching = none := by
      refine Option.eq_none_iff_forall_ne_some.mpr fun fd hfd => ?_
      obtain ⟨ev, hev, rfl⟩ := h'.dispatching fd hfd
      cases hev
      exact absurd (hc.dispatching _ hfd) (Nat.lt_irrefl _)
    refine ⟨⟨h'.defined, fun r hr hne => (hrest r hr hne).1, fun fd hfd => ?_⟩, hevent,
      hdispatching⟩
    rw [hdispatching] at hfd
    cases hfd
  · rintro ⟨h, hevent, hdispatching⟩
    refine ⟨h.defined, fun r hr => ?_, fun fd hfd => ?_⟩
    · have hsum := heq r
      rw [awaiting_eq_zero hevent r, Nat.add_zero] at hsum
      rw [hsum]
      by_cases hself : req = r
      · rw [if_pos hself, ← hself, hzero]
      · rw [if_neg hself, h.placed r hr (Ne.symm hself)]
    · have hnone : u.dispatching = some fd := hfd
      rw [hdispatching] at hnone
      cases hnone

theorem connect_whole_iff (hc : Consistent u) (hp : Placed u) (hreq : req < u.requests)
    (hzero : u.places req = 0) (err : ℤ) :
    Whole (u.connect req err) ↔ Owed u req ∧ AttemptFits u err := by
  have hlost : ∀ s : Connector, s.requests = u.requests → (∀ r, s.places r = u.places r) →
      ¬ Whole s := by
    intro s hrequests hplaces h
    have hone := h.placed req (hrequests ▸ hreq)
    rw [hplaces, hzero] at hone
    cases hone
  unfold Connector.connect AttemptFits
  cases outcome err with
  | check => exact check_whole_iff hc hp hzero
  | retry =>
    obtain ⟨n, ts, fs, hs⟩ := retry_frame { u with sockets := u.sockets + 1 } u.sockets req
    by_cases hfits : RetryFits u
    · rw [and_iff_left hfits]
      have hplaces := fun r =>
        retry_places_of_fits { u with sockets := u.sockets + 1 } u.sockets req r hfits
      dsimp only
      rw [hs] at hplaces ⊢
      exact whole_iff_owed hzero rfl rfl rfl rfl hplaces
    · refine iff_of_false ?_ fun h => hfits h.2
      have hplaces := fun r =>
        retry_places_of_not_fits { u with sockets := u.sockets + 1 } u.sockets req r hfits
      dsimp only
      rw [hs] at hplaces ⊢
      exact hlost _ rfl hplaces
  | fail =>
    obtain ⟨fs, hs⟩ := fail_frame { u with sockets := u.sockets + 1 } req
    have hplaces : ∀ r, (Connector.fail { u with sockets := u.sockets + 1 } req).places r =
        u.places r + if req = r ∧ u.mFailedCallback = true then 1 else 0 :=
      fail_places_eq { u with sockets := u.sockets + 1 } req
    dsimp only
    rw [hs] at hplaces ⊢
    by_cases hfits : u.mFailedCallback = true
    · rw [and_iff_left hfits]
      refine whole_iff_owed hzero rfl rfl rfl rfl fun r => (hplaces r).trans ?_
      simp only [hfits, and_true]
    · refine iff_of_false (hlost _ rfl fun r => (hplaces r).trans ?_) fun h => hfits h.2
      rw [if_neg fun h => hfits h.2, Nat.add_zero]

/-- The request of an attempt has left its place, and nothing else has changed. -/
structure Leaves (s u : Connector) (req : ℕ) : Prop where
  lt : req < u.requests
  zero : u.places req = 0
  places : ∀ r < s.requests, u.places r + (if req = r then 1 else 0) = s.places r
  placed : Placed u
  owed_iff : Owed u req ↔ Whole s

theorem leaves_of_waiting (hp : Placed s) (hrequests : u.requests = s.requests)
    (hundefined : u.undefined = s.undefined) (hevent : u.mEvent = s.mEvent)
    (hdispatching : u.dispatching = s.dispatching)
    (hplaces : ∀ r, u.places r + (if req = r then 1 else 0) = s.places r) : Leaves s u req := by
  have hself := hplaces req
  rw [if_pos rfl] at hself
  have hone := places_le_one hp req
  have hlt : req < s.requests := lt_requests hp (by omega)
  refine ⟨hrequests ▸ hlt, by omega, fun r _ => hplaces r, fun r => ?_, ?_, ?_⟩
  · rw [hrequests]
    exact Nat.le_trans (by rw [← hplaces r]; exact Nat.le_add_right _ _) (hp r)
  · intro h
    refine ⟨hundefined ▸ h.defined, fun r hr => ?_, ?_⟩
    · rw [← hplaces]
      by_cases hreq : req = r
      · subst hreq
        rw [if_pos rfl]
        omega
      · rw [if_neg hreq, h.placed r (hrequests ▸ hr) (Ne.symm hreq)]
    · rw [← hdispatching, ← hevent]
      exact h.dispatching
  · intro h
    refine ⟨hundefined.trans h.defined, fun r hr hne => ?_, ?_⟩
    · have hone := h.placed r (hrequests ▸ hr)
      rwa [← hplaces, if_neg (Ne.symm hne), Nat.add_zero] at hone
    · rw [hdispatching, hevent]
      exact h.dispatching

theorem leaves_of_new (hp : Placed s) :
    Leaves s { s with requests := s.requests + 1 } s.requests := by
  have hnew := hp s.requests
  rw [if_neg (Nat.lt_irrefl _)] at hnew
  refine ⟨Nat.lt_succ_self _, Nat.le_zero.mp hnew, fun r hr => ?_, fun r => ?_, ?_, ?_⟩
  · rw [if_neg hr.ne']
    rfl
  · have hr := hp r
    change s.places r ≤ if r < s.requests + 1 then 1 else 0
    split_ifs at hr ⊢ <;> omega
  · intro h
    exact ⟨h.defined, fun r hr => h.placed r (Nat.lt_succ_of_lt hr) hr.ne, h.dispatching⟩
  · intro h
    refine ⟨h.defined, fun r hr hne => h.placed r ?_, h.dispatching⟩
    exact Nat.lt_of_le_of_ne (Nat.lt_succ_iff.mp hr) hne

theorem leaves_of_attempts (hp : Placed s) (h : Attempts s l u req err) : Leaves s u req := by
  cases h with
  | startConnect err => exact leaves_of_new hp
  | connect err h =>
    refine leaves_of_waiting hp rfl rfl rfl rfl fun r => ?_
    have hcount := count_erase_add h r
    simp only [Connector.places, Connector.awaiting]
    omega
  | retryTimer err h =>
    refine leaves_of_waiting hp rfl rfl rfl rfl fun r => ?_
    have hcount := count_erase_add h r
    simp only [Connector.places, Connector.awaiting]
    omega

theorem attemptFits_iff (h : Attempts s l u req err) : AttemptFits u err ↔ AnswerFits s l := by
  cases h with
  | startConnect err => simp [AnswerFits, AttemptFits, RetryFits]
  | connect err h => exact Iff.rfl
  | retryTimer err h => exact Iff.rfl

/-! ## Write events -/

theorem handleWrite_places_eq {ev : Event} (hev : s.mEvent = some ev) (hpoll : ev.polling = true)
    (err : ℤ) (laddr paddr : SockAddr) (r : ℕ) :
    (AnswerFits s (.writeEvent ev.fd err laddr paddr) →
      (s.handleWrite ev err laddr paddr).places r = s.places r) ∧
    (¬ AnswerFits s (.writeEvent ev.fd err laddr paddr) →
      (s.handleWrite ev err laddr paddr).places r + (if ev.request = r then 1 else 0) =
        s.places r) := by
  have hgone : { s with
      registered := s.registered.erase ev.fd, mEvent := some { ev with polling := false },
      dispatching := some ev.fd }.places r + (if ev.request = r then 1 else 0) = s.places r := by
    simp only [Connector.places, Connector.awaiting, hev, hpoll, true_and]
    simp
    omega
  unfold Connector.handleWrite Connector.removeEvent AnswerFits
  rw [if_pos hpoll]
  dsimp only
  by_cases herr : err = 0
  · rw [if_pos herr, if_pos herr, succeed_places_eq]
    refine ⟨fun hfits => ?_, fun hfits => ?_⟩
    · rw [← hgone]
      simp only [hfits, and_true]
    · rw [if_neg fun h => hfits h.2]
      exact hgone
  · rw [if_neg herr, if_neg herr]
    by_cases hself : isSelfConnect laddr paddr = true
    · rw [if_pos hself, if_pos hself]
      refine ⟨fun hfits => ?_, fun hfits => ?_⟩
      · rw [retry_places_of_fits]
        · exact hgone
        · exact hfits
      · rw [retry_places_of_not_fits]
        · exact hgone
        · exact hfits
    · rw [if_neg hself, if_neg hself, fail_places_eq]
      refine ⟨fun hfits => ?_, fun hfits => ?_⟩
      · rw [← hgone]
        simp only [Connector.close, hfits, and_true]
        rfl
      · rw [if_neg fun h => hfits h.2]
        exact hgone

theorem handleWrite_whole_iff {ev : Event} (hp : Placed s) (hev : s.mEvent = some ev)
    (hpoll : ev.polling = true) (hdispatching : s.dispatching = none) (err : ℤ)
    (laddr paddr : SockAddr) :
    Whole (s.handleWrite ev err laddr paddr) ↔
      Whole s ∧ AnswerFits s (.writeEvent ev.fd err laddr paddr) := by
  obtain ⟨n, ts, cs, hs, ss, fs, hs', -⟩ := handleWrite_frame s hpoll err laddr paddr
  have hrequests : (s.handleWrite ev err laddr paddr).requests = s.requests := by rw [hs']
  have hundefined : (s.handleWrite ev err laddr paddr).undefined = s.undefined := by rw [hs']
  have hpos : 1 ≤ s.places ev.request := by
    have hone := awaiting_event hev hpoll
    rw [Connector.places]
    omega
  by_cases hfits : AnswerFits s (.writeEvent ev.fd err laddr paddr)
  · rw [and_iff_left hfits]
    have hplaces := fun r => (handleWrite_places_eq hev hpoll err laddr paddr r).1 hfits
    constructor
    · intro h
      refine ⟨hundefined ▸ h.defined, fun r hr => ?_, fun fd hfd => ?_⟩
      · rw [← hplaces]
        exact h.placed r (hrequests ▸ hr)
      · rw [hdispatching] at hfd
        cases hfd
    · intro h
      refine ⟨hundefined.trans h.defined, fun r hr => ?_, fun fd hfd => ?_⟩
      · rw [hplaces]
        exact h.placed r (hrequests ▸ hr)
      · rw [hs'] at hfd ⊢
        cases hfd
        exact ⟨_, rfl, rfl⟩
  · refine iff_of_false (fun h => ?_) fun h => hfits h.2
    have hplaces := (handleWrite_places_eq hev hpoll err laddr paddr ev.request).2 hfits
    have hone := h.placed ev.request (hrequests ▸ lt_requests hp hpos)
    have hle := places_le_one hp ev.request
    rw [if_pos rfl, hone] at hplaces
    omega

/-- A descriptor that is registered without its event has cost a request. -/
def Traced (s : Connector) : Prop :=
  ∀ fd ∈ s.registered, Waiting s fd ∨ ∃ r < s.requests, s.places r = 0

theorem waiting_of_whole (ht : Traced s) (h : Whole s) {fd : ℕ} (hfd : fd ∈ s.registered) :
    Waiting s fd := by
  rcases ht fd hfd with hw | ⟨r, hr, hzero⟩
  · exact hw
  · have hone := h.placed r hr
    rw [hzero] at hone
    cases hone

theorem writeEvent_whole_iff (hc : Consistent s) (hp : Placed s) (ht : Traced s) {fd : ℕ}
    (hfd : fd ∈ s.registered) (hdispatching : s.dispatching = none) (err : ℤ)
    (laddr paddr : SockAddr) :
    Whole (s.writeEvent fd err laddr paddr) ↔
      Whole s ∧ AnswerFits s (.writeEvent fd err laddr paddr) := by
  by_cases hw : Waiting s fd
  · obtain ⟨ev, hev, rfl, hpoll⟩ := hw
    have hev : s.mEvent = some ev := hev
    simp only [Connector.writeEvent, hev, if_true]
    exact handleWrite_whole_iff hp hev hpoll hdispatching err laddr paddr
  · refine iff_of_false (fun h' => ?_) fun h => hw (waiting_of_whole ht h.1 hfd)
    unfold Connector.writeEvent at h'
    cases hev : s.mEvent with
    | none =>
      rw [hev] at h'
      cases h'.defined
    | some ev =>
      rw [hev] at h'
      dsimp only at h'
      split_ifs at h' with heq
      · subst heq
        exact hw ⟨ev, hev, rfl, (hc.event ev hev).2.mpr hfd⟩
      · cases h'.defined

theorem returned_whole_iff {fd : ℕ} (hdispatching : s.dispatching = some fd) :
    Whole (s.returned fd) ↔ Whole s := by
  constructor
  · intro h'
    unfold Connector.returned at h'
    split at h'
    case h_1 ev hev =>
      split_ifs at h' with heq
      · refine ⟨h'.defined, h'.placed, fun x hx => ⟨ev, hev, ?_⟩⟩
        cases hdispatching.symm.trans hx
        exact heq
      · cases h'.defined
    case h_2 => cases h'.defined
  · intro h
    obtain ⟨ev, hev, rfl⟩ := h.dispatching fd hdispatching
    rw [returned_eq hev]
    exact ⟨h.defined, h.placed, fun _ hfd => by cases hfd⟩

/-! ## Every step -/

/-- Nothing comes back to a request that has been lost. -/
theorem places_le (hc : Consistent s) (hp : Placed s) (hs : step s l = some s') {r : ℕ}
    (hr : r < s.requests) : r < s'.requests ∧ s'.places r ≤ s.places r := by
  obtain ⟨-, ⟨-, rfl⟩ | ⟨-, rfl⟩ | ⟨u, req, err, hu, rfl⟩ |
    ⟨fd, err, laddr, paddr, -, hfd, -, rfl⟩ | ⟨fd, -, -, rfl⟩⟩ := step_cases hs
  · exact ⟨hr, Nat.le_refl _⟩
  · refine ⟨Nat.lt_succ_of_lt hr, ?_⟩
    simp only [Connector.places, Connector.awaiting, Connector.startConnect, List.count_append,
      List.count_singleton, beq_iff_eq, if_neg hr.ne']
    omega
  · have hleaves := leaves_of_attempts hp hu
    refine ⟨?_, ?_⟩
    · rw [connect_requests]
      cases hu with
      | startConnect err => exact Nat.lt_succ_of_lt hr
      | connect err h => exact hr
      | retryTimer err h => exact hr
    · rw [← hleaves.places r hr]
      exact connect_places u req err r
  · unfold Connector.writeEvent
    split
    · rename_i ev hev
      split_ifs with heq
      · subst heq
        have hpoll := (hc.event ev hev).2.mpr hfd
        obtain ⟨n, ts, cs, hs, ss, fs, hs', -⟩ := handleWrite_frame s hpoll err laddr paddr
        refine ⟨?_, handleWrite_places hev hpoll err laddr paddr r⟩
        rw [hs']
        exact hr
      · exact ⟨hr, Nat.le_refl _⟩
    · exact ⟨hr, Nat.le_refl _⟩
  · unfold Connector.returned
    split
    · split_ifs
      · exact ⟨hr, Nat.le_refl _⟩
      · exact ⟨hr, Nat.le_refl _⟩
    · exact ⟨hr, Nat.le_refl _⟩

theorem connect_event (u : Connector) (req : ℕ) (err : ℤ) :
    (u.connect req err).registered = u.registered ∧ (u.connect req err).mEvent = u.mEvent ∨
      u.connect req err =
        Connector.check { u with sockets := u.sockets + 1 } u.sockets req := by
  unfold Connector.connect
  cases outcome err with
  | check => exact .inr rfl
  | retry =>
    obtain ⟨n, ts, fs, hs⟩ := retry_frame { u with sockets := u.sockets + 1 } u.sockets req
    dsimp only
    rw [hs]
    exact .inl ⟨rfl, rfl⟩
  | fail =>
    obtain ⟨fs, hs⟩ := fail_frame { u with sockets := u.sockets + 1 } req
    dsimp only
    rw [hs]
    exact .inl ⟨rfl, rfl⟩

theorem check_loses (hl : Leaves s u req) {ev : Event} (hev : u.mEvent = some ev)
    (hpoll : ev.polling = true) :
    ev.request < u.requests ∧ (Connector.check { u with sockets := u.sockets + 1 } u.sockets
      req).places ev.request = 0 := by
  have hone := awaiting_event hev hpoll
  have hle := places_le_one hl.placed ev.request
  have hpos : 1 ≤ u.places ev.request := by
    rw [Connector.places]
    omega
  have hne : ¬ req = ev.request := by
    intro hself
    have hzero := hl.zero
    rw [hself] at hzero
    omega
  refine ⟨lt_requests hl.placed hpos, ?_⟩
  have hsum :
      (Connector.check { u with sockets := u.sockets + 1 } u.sockets req).places ev.request +
        u.awaiting ev.request = u.places ev.request + if req = ev.request then 1 else 0 :=
    check_places_eq { u with sockets := u.sockets + 1 } u.sockets req ev.request
  rw [if_neg hne] at hsum
  omega

theorem step_traced (hc : Consistent s) (hp : Placed s) (ht : Traced s)
    (hs : step s l = some s') : Traced s' := by
  -- a request that was lost before stays lost
  have hlost : ∀ fd, (Waiting s fd → Waiting s' fd ∨ ∃ r < s'.requests, s'.places r = 0) →
      fd ∈ s.registered → Waiting s' fd ∨ ∃ r < s'.requests, s'.places r = 0 := by
    intro fd hw hfd
    rcases ht fd hfd with hwaiting | ⟨r, hr, hzero⟩
    · exact hw hwaiting
    · obtain ⟨hr', hle⟩ := places_le hc hp hs hr
      exact .inr ⟨r, hr', by omega⟩
  obtain ⟨-, ⟨-, rfl⟩ | ⟨-, rfl⟩ | ⟨u, req, err, hu, rfl⟩ |
    ⟨fd, err, laddr, paddr, -, hfd, -, rfl⟩ | ⟨fd, -, -, rfl⟩⟩ := step_cases hs
  · exact fun fd hfd => hlost fd .inl hfd
  · exact fun fd hfd => hlost fd .inl hfd
  · have hleaves := leaves_of_attempts hp hu
    have hevent : u.mEvent = s.mEvent ∧ u.registered = s.registered := by
      obtain ⟨ps, ts, k, rfl⟩ := hu.frame
      exact ⟨rfl, rfl⟩
    rcases connect_event u req err with ⟨hregistered, hsame⟩ | hcheck
    · intro fd hfd
      rw [hregistered, hevent.2] at hfd
      refine hlost fd (fun hw => .inl ?_) hfd
      rw [Waiting, hsame, hevent.1]
      exact hw
    · rw [hcheck] at hlost ⊢
      intro fd hfd
      rcases Finset.mem_insert.mp hfd with rfl | hold
      · exact .inl ⟨_, rfl, rfl, rfl⟩
      · refine hlost fd (fun hw => .inr ?_) (hevent.2 ▸ hold)
        obtain ⟨ev, hev, -, hpoll⟩ := hw
        obtain ⟨hlt, hzero⟩ := check_loses hleaves (hevent.1.trans hev) hpoll
        exact ⟨ev.request, hlt, hzero⟩
  · unfold Connector.writeEvent at hlost ⊢
    split
    · rename_i ev hev
      split_ifs with heq
      · subst heq
        have hpoll := (hc.event ev hev).2.mpr hfd
        obtain ⟨n, ts, cs, hs, ss, fs, hs', -⟩ := handleWrite_frame s hpoll err laddr paddr
        simp only [hev, if_true] at hlost
        intro x hx
        rw [hs'] at hx
        obtain ⟨hne, hold⟩ := Finset.mem_erase.mp hx
        refine hlost x (fun hw => absurd ?_ hne) hold
        obtain ⟨e, he, hxe, -⟩ := hw
        cases hev.symm.trans he
        exact hxe.symm
      · exact ht
    · exact ht
  · unfold Connector.returned
    split
    · split_ifs
      · exact ht
      · exact ht
    · exact ht

theorem step_whole_iff (hc : Consistent s) (hp : Placed s) (ht : Traced s)
    (hs : step s l = some s') : Whole s' ↔ Whole s ∧ AnswerFits s l := by
  obtain ⟨-, ⟨rfl, rfl⟩ | ⟨rfl, rfl⟩ | ⟨u, req, err, hu, rfl⟩ |
    ⟨fd, err, laddr, paddr, rfl, hfd, hdispatching, rfl⟩ | ⟨fd, rfl, hfd, rfl⟩⟩ := step_cases hs
  · rw [and_iff_left (show AnswerFits s .elsewhere from trivial)]
    exact ⟨fun h' => ⟨h'.defined, h'.placed, h'.dispatching⟩,
      fun h' => ⟨h'.defined, h'.placed, h'.dispatching⟩⟩
  · -- the new request waits in the loop
    rw [and_iff_left (show AnswerFits s (.startConnect none) from fun err herr => by cases herr),
      ← (leaves_of_new hp).owed_iff]
    refine whole_iff_owed (leaves_of_new hp).zero rfl rfl rfl rfl fun r => ?_
    simp only [Connector.places, Connector.awaiting, Connector.startConnect, List.count_append,
      List.count_singleton, beq_iff_eq]
    omega
  · have hleaves := leaves_of_attempts hp hu
    rw [← hleaves.owed_iff, ← attemptFits_iff hu]
    refine connect_whole_iff ?_ hleaves.placed hleaves.lt hleaves.zero err
    obtain ⟨ps, ts, k, rfl⟩ := hu.frame
    exact ⟨hc.fresh, hc.once, hc.registered, hc.event, hc.dispatching⟩
  · exact writeEvent_whole_iff hc hp ht hfd hdispatching err laddr paddr
  · rw [returned_whole_iff hfd]
    exact (and_iff_left trivial).symm

theorem whole_start (success failure : Bool) (retryTimes : ℕ) :
    Whole (start success failure retryTimes) where
  defined := rfl
  placed _ h := absurd h (Nat.not_lt_zero _)
  dispatching _ h := by cases h

/-- A run that has come to rest has answered every request exactly once, exactly when each of its
steps fits. -/
theorem requests_answered_iff (success failure : Bool) (retryTimes : ℕ)
    (hr : run step (start success failure retryTimes) ls = some s) (hidle : Idle s) :
    Answered s ↔ Guarded step AnswerFits (start success failure retryTimes) ls := by
  have hkeep : ∀ t m t', Consistent t ∧ Placed t ∧ Traced t → step t m = some t' →
      Consistent t' ∧ Placed t' ∧ Traced t' :=
    fun _ _ _ h hs => ⟨step_consistent h.1 hs, step_placed h.1 h.2.1 hs,
      step_traced h.1 h.2.1 h.2.2 hs⟩
  have hexact : ∀ t m t', Consistent t ∧ Placed t ∧ Traced t → step t m = some t' →
      (Whole t' ↔ Whole t ∧ AnswerFits t m) :=
    fun _ _ _ h hs => step_whole_iff h.1 h.2.1 h.2.2 hs
  have hstart : Consistent (start success failure retryTimes) ∧
      Placed (start success failure retryTimes) ∧ Traced (start success failure retryTimes) :=
    ⟨start_consistent success failure retryTimes, fun _ => Nat.zero_le _,
      fun _ hfd => absurd hfd (Finset.notMem_empty _)⟩
  rw [← whole_iff_answered hidle]
  exact guarded_iff hkeep hexact hstart (whole_start success failure retryTimes) hr

instance (s : Connector) : Decidable (RetryFits s) :=
  inferInstanceAs (Decidable (s.retryTimes + 1 < 3 ∨ s.mFailedCallback = true))

instance decidableAttemptFits (s : Connector) (err : ℤ) : Decidable (AttemptFits s err) :=
  match h : outcome err with
  | .check => decidable_of_iff ((∀ ev ∈ s.mEvent, ev.polling = false) ∧ s.dispatching = none)
      (by rw [AttemptFits, h])
  | .retry => decidable_of_iff (RetryFits s) (by rw [AttemptFits, h])
  | .fail => decidable_of_iff (s.mFailedCallback = true) (by rw [AttemptFits, h])

instance decidableAnswerFits (s : Connector) : (l : Label) → Decidable (AnswerFits s l)
  | .startConnect own => inferInstanceAs (Decidable (∀ err ∈ own, AttemptFits s err))
  | .connect _ err => inferInstanceAs (Decidable (AttemptFits s err))
  | .retryTimer _ err => inferInstanceAs (Decidable (AttemptFits s err))
  | .writeEvent _ err laddr paddr => inferInstanceAs (Decidable
      (if err = 0 then s.mSuccessCallback = true
        else if isSelfConnect laddr paddr then RetryFits s else s.mFailedCallback = true))
  | .returned => isTrue trivial
  | .elsewhere => isTrue trivial

/-- The first request is refused twice and then succeeds, the second one fails for good at its
write event. -/
theorem requests_answered_two : ∃ s,
    run step (start true true 0)
      [.startConnect (some ECONNREFUSED), .retryTimer 0 ECONNREFUSED, .retryTimer 0 EINPROGRESS,
        .writeEvent 2 0 ⟨2, 1, 1, 0⟩ ⟨2, 2, 1, 0⟩, .returned, .startConnect none, .connect 1 0,
        .writeEvent 3 ECONNREFUSED ⟨2, 1, 1, 0⟩ ⟨2, 2, 1, 0⟩, .returned] = some s ∧
    (s.succeeded, s.failed) = ([0], [1]) ∧ Answered s := by
  obtain ⟨s, hs⟩ : ∃ s, run step (start true true 0)
      [.startConnect (some ECONNREFUSED), .retryTimer 0 ECONNREFUSED, .retryTimer 0 EINPROGRESS,
        .writeEvent 2 0 ⟨2, 1, 1, 0⟩ ⟨2, 2, 1, 0⟩, .returned, .startConnect none, .connect 1 0,
        .writeEvent 3 ECONNREFUSED ⟨2, 1, 1, 0⟩ ⟨2, 2, 1, 0⟩, .returned] = some s := ⟨_, rfl⟩
  have hidle : Idle s := by
    cases hs
    exact ⟨rfl, rfl, fun ev hev => by cases hev; rfl, rfl⟩
  refine ⟨s, hs, ?_, (requests_answered_iff true true 0 hs hidle).mpr ?_⟩
  · cases hs
    rfl
  · decide

-- The second attempt replaces the event of the first one, whose request is never answered.
example : (run step (start true true 0)
    [.startConnect (some EINPROGRESS), .startConnect (some EINPROGRESS),
      .writeEvent 1 0 ⟨2, 1, 1, 0⟩ ⟨2, 2, 1, 0⟩, .returned]).map
    (fun s => (s.succeeded, s.failed)) = some ([1], []) := by rfl

end GenericServer.ConnectAnswers
