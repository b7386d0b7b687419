import GenericServer.ConnectAttempts

/-!
# The two classifications of a connect error

An error number reaches the connector as the result of `::connect` or, after `EINPROGRESS`, as
the `SO_ERROR` of a write event. What the connector does about it is read off the state before
and after.
-/
namespace GenericServer.ConnectClassification

open TransitionRuns ConnectAttempts

/-- Wait for completion, hand the descriptor to the success callback, close it and count a retry,
or give up, with the descriptor closed or not. -/
inductive Decision
  | wait
  | succeed
  | retry
  | giveUp (closed : Bool)
  deriving DecidableEq, Repr

def decision (s s' : Connector) (fd : ℕ) : Decision :=
  if s.retryTimes < s'.retryTimes then .retry
  else if fd ∈ s'.handed then .succeed
  else if fd ∈ s'.registered then .wait
  else .giveUp (fd ∈ s'.closed)

def attempted : Label → Option ℤ
  | .startConnect own => own
  | .connect _ err => some err
  | .retryTimer _ err => some err
  | .writeEvent _ _ _ _ => none
  | .returned => none
  | .elsewhere => none

def inProgress : List ℤ := [EINTR, EISCONN, EALREADY, EINPROGRESS]

/-- The errors that end the attempt in `connect`. -/
def fatal : List ℤ := [EPERM, EACCES, EAFNOSUPPORT, EBADF, EFAULT, ENOTSOCK]

/-- The two endpoints of the socket are one. -/
def SelfConnected (laddr paddr : SockAddr) : Prop :=
  laddr.family = paddr.family ∧ laddr.port = paddr.port ∧
    (laddr.family = AF_INET ∧ laddr.addr4 = paddr.addr4 ∨
      laddr.family = AF_INET6 ∧ laddr.addr6 = paddr.addr6)

/-- `early` is decided about the error as the result of `::connect`, and `late` about the same
error as `SO_ERROR` of a connection with these endpoints. -/
structure Alike (err : ℤ) (laddr paddr : SockAddr) (early late : Decision) : Prop where
  same : err ≠ 0 → err ∉ inProgress → early = late
  success : late = .succeed → err = 0 ∧ ¬ SelfConnected laddr paddr
  selfConnect : SelfConnected laddr paddr → late = .retry

/-- An error is one that both places retry, and a connection without an error is none to itself. -/
def Agrees (err : ℤ) (laddr paddr : SockAddr) : Prop :=
  (err ≠ 0 → err ∉ inProgress → err ∉ fatal ∧ isSelfConnect laddr paddr = true) ∧
    (err = 0 → ¬ SelfConnected laddr paddr)

variable {s s' : Connector} {l : Label} {ls : List Label} {fd : ℕ} {err : ℤ}
  {laddr paddr : SockAddr}

theorem decision_fail (s s' : Connector) (req fd : ℕ) :
    decision s (s'.fail req) fd = decision s s' fd := by
  obtain ⟨fs, hfs⟩ := fail_frame s' req
  rw [hfs]
  rfl

theorem decision_retry (h : s'.retryTimes = s.retryTimes + 1) : decision s s' fd = .retry :=
  if_pos (h ▸ Nat.lt_succ_self _)

theorem decision_succeed (h : s'.retryTimes = s.retryTimes) (hh : fd ∈ s'.handed) :
    decision s s' fd = .succeed := by
  rw [decision, if_neg (h ▸ Nat.lt_irrefl _), if_pos hh]

theorem decision_wait (h : s'.retryTimes = s.retryTimes) (hh : fd ∉ s'.handed)
    (hr : fd ∈ s'.registered) : decision s s' fd = .wait := by
  rw [decision, if_neg (h ▸ Nat.lt_irrefl _), if_neg hh, if_pos hr]

theorem decision_giveUp {closed : Bool} (h : s'.retryTimes = s.retryTimes) (hh : fd ∉ s'.handed)
    (hr : fd ∉ s'.registered) (hc : decide (fd ∈ s'.closed) = closed) :
    decision s s' fd = .giveUp closed := by
  rw [decision, if_neg (h ▸ Nat.lt_irrefl _), if_neg hh, if_neg hr, hc]

theorem not_mem_of_settles (h : s.settles fd = 0) : fd ∉ s.closed ∧ fd ∉ s.handed := by
  unfold Connector.settles at h
  exact ⟨List.count_eq_zero.mp (by omega), List.count_eq_zero.mp (by omega)⟩

/-! ## The result of `::connect` -/

def early (err : ℤ) : Decision :=
  match outcome err with
  | .check => .wait
  | .retry => .retry
  | .fail => .giveUp false

theorem step_attempted (hs : step s l = some s') (hl : attempted l = some err) :
    ∃ u req, Attempts s l u req err ∧ s' = u.connect req err := by
  obtain ⟨-, ⟨rfl, -⟩ | ⟨rfl, -⟩ | ⟨u, req, e, hu, rfl⟩ | ⟨fd, e, laddr, paddr, rfl, -⟩ |
    ⟨fd, rfl, -⟩⟩ := step_cases hs
  · cases hl
  · cases hl
  · have herr : attempted l = some e := by cases hu <;> rfl
    cases herr.symm.trans hl
    exact ⟨u, req, hu, rfl⟩
  · cases hl
  · cases hl

theorem decision_attempted (h : Consistent s) (hs : step s l = some s')
    (hl : attempted l = some err) : decision s s' s.sockets = early err := by
  obtain ⟨u, req, hu, rfl⟩ := step_attempted hs hl
  obtain ⟨ps, ts, k, rfl⟩ := hu.frame
  obtain ⟨hclosed, hhanded⟩ := not_mem_of_settles (h.fresh s.sockets (Nat.le_refl _))
  have hregistered : s.sockets ∉ s.registered := fun hmem =>
    absurd (h.registered _ hmem).1 (Nat.lt_irrefl _)
  unfold Connector.connect early
  cases outcome err with
  | check => exact decision_wait rfl hhanded (Finset.mem_insert_self _ _)
  | retry => exact decision_retry (retry_retryTimes _ _ _)
  | fail =>
    dsimp only
    rw [decision_fail]
    exact decision_giveUp rfl hhanded hregistered (decide_eq_false hclosed)

/-! ## The error of a write event -/

def late (success : Bool) (err : ℤ) (laddr paddr : SockAddr) : Decision :=
  if err = 0 then if success = true then .succeed else .giveUp false
  else if isSelfConnect laddr paddr then .retry else .giveUp true

theorem decision_handleWrite (h : Consistent s) {ev : Event} (hev : s.mEvent = some ev)
    (hpoll : ev.polling = true) :
    decision s (s.handleWrite ev err laddr paddr) ev.fd =
      late s.mSuccessCallback err laddr paddr := by
  have hreg := (h.event ev hev).2.mp hpoll
  obtain ⟨hclosed, hhanded⟩ := not_mem_of_settles (h.registered _ hreg).2
  have herased : ev.fd ∉ s.registered.erase ev.fd := Finset.notMem_erase _ _
  unfold Connector.handleWrite Connector.removeEvent late
  rw [if_pos hpoll]
  dsimp only
  split_ifs with herr hcallback hself
  · unfold Connector.succeed
    rw [if_pos hcallback]
    exact decision_succeed rfl (List.mem_append_right _ (List.mem_singleton_self _))
  · unfold Connector.succeed
    rw [if_neg hcallback]
    exact decision_giveUp rfl hhanded herased (decide_eq_false hclosed)
  · exact decision_retry (retry_retryTimes _ _ _)
  · rw [decision_fail]
    have hmem : ev.fd ∈ s.closed ++ [ev.fd] := List.mem_append_right _ (List.mem_singleton_self _)
    exact decision_giveUp rfl hhanded herased (decide_eq_true hmem)

theorem decision_writeEvent (h : Consistent s) (hw : Waiting s fd)
    (hs : step s (.writeEvent fd err laddr paddr) = some s') :
    decision s s' fd = late s.mSuccessCallback err laddr paddr := by
  obtain ⟨ev, hev, rfl, hpoll⟩ := hw
  have hev : s.mEvent = some ev := hev
  unfold step at hs
  simp only [next] at hs
  split_ifs at hs
  cases hs
  simp only [Connector.writeEvent, hev, if_true]
  exact decision_handleWrite h hev hpoll

/-! ## Both -/

theorem SelfConnected.isSelfConnect (h : SelfConnected laddr paddr) :
    isSelfConnect laddr paddr = true := by
  obtain ⟨-, hport, ⟨hfamily, haddr⟩ | ⟨hfamily, haddr⟩⟩ := h
  · rw [ConnectAttempts.isSelfConnect, if_pos hfamily]
    exact decide_eq_true ⟨hport, haddr⟩
  · rw [ConnectAttempts.isSelfConnect, hfamily, if_neg (by decide), if_pos rfl]
    exact decide_eq_true ⟨hport, haddr⟩

theorem outcome_eq (herr : err ≠ 0) (hprogress : err ∉ inProgress) :
    outcome err = if err ∈ fatal then .fail else .retry := by
  have hdisjoint : ∀ e ∈ fatal,
      e ∉ [EAGAIN, EADDRINUSE, EADDRNOTAVAIL, ENETUNREACH, ECONNREFUSED] := by decide
  have hcheck : err ∉ [EINTR, EISCONN, EALREADY, EINPROGRESS] := hprogress
  unfold outcome
  rw [if_neg herr, if_neg hcheck]
  by_cases hfatal : err ∈ fatal
  · rw [if_neg (hdisjoint err hfatal)]
    rfl
  · rw [if_neg hfatal]
    have hunknown : err ∉ [EPERM, EACCES, EAFNOSUPPORT, EBADF, EFAULT, ENOTSOCK] := hfatal
    rw [if_neg hunknown, ite_self]

/-- A descriptor that `handleWrite` gives up is closed, one that `connect` gives up is not. -/
theorem early_eq_late_iff (success : Bool) (herr : err ≠ 0) (hprogress : err ∉ inProgress) :
    early err = late success err laddr paddr ↔
      err ∉ fatal ∧ ConnectAttempts.isSelfConnect laddr paddr = true := by
  unfold early late
  rw [outcome_eq herr hprogress, if_neg herr]
  split_ifs with hfatal hself hself
  · exact iff_of_false (fun h => by cases h) fun h => h.1 hfatal
  · exact iff_of_false (fun h => by cases h) fun h => h.1 hfatal
  · exact iff_of_true rfl ⟨hfatal, hself⟩
  · exact iff_of_false (fun h => by cases h) fun h => hself h.2

theorem alike_iff (success : Bool) :
    Alike err laddr paddr (early err) (late success err laddr paddr) ↔ Agrees err laddr paddr := by
  by_cases herr : err = 0
  · have hlate : late success err laddr paddr = if success = true then .succeed else .giveUp false :=
      if_pos herr
    constructor
    · intro h
      refine ⟨fun hne => absurd herr hne, fun _ hself => ?_⟩
      have hretry := hlate.symm.trans (h.selfConnect hself)
      split_ifs at hretry
    · intro h
      exact ⟨fun hne => absurd herr hne, fun _ => ⟨herr, h.2 herr⟩,
        fun hself => absurd hself (h.2 herr)⟩
  · have hlate : late success err laddr paddr =
        if ConnectAttempts.isSelfConnect laddr paddr then .retry else .giveUp true := if_neg herr
    constructor
    · intro h
      exact ⟨fun _ hprogress => (early_eq_late_iff success herr hprogress).mp (h.same herr hprogress),
        fun hzero => absurd hzero herr⟩
    · intro h
      refine ⟨fun _ hprogress => (early_eq_late_iff success herr hprogress).mpr (h.1 herr hprogress),
        fun hsucceed => ?_, fun hself => ?_⟩
      · rw [hlate] at hsucceed
        split_ifs at hsucceed
      · rw [hlate, if_pos hself.isSelfConnect]

/-- An error is decided about in the same way, and the success callback is invoked as it should
be, exactly where the two classifications agree; `s` and `u` are states of any two runs, a
connection being attempted in the one and about to complete in the other. -/
theorem classified_alike_iff (success failure : Bool) (retryTimes : ℕ) {ms : List Label}
    {u u' : Connector} (hr : run step (start success failure retryTimes) ls = some s)
    (hs : step s l = some s') (hl : attempted l = some err)
    (hr' : run step (start success failure retryTimes) ms = some u) (hw : Waiting u fd)
    (hs' : step u (.writeEvent fd err laddr paddr) = some u') :
    Alike err laddr paddr (decision s s' s.sockets) (decision u u' fd) ↔ Agrees err laddr paddr := by
  have hstart := start_consistent success failure retryTimes
  have hinv : ∀ t m t', Consistent t → step t m = some t' → Consistent t' :=
    fun _ _ _ h hs => step_consistent h hs
  rw [decision_attempted (run_invariant hinv hstart hr) hs hl,
    decision_writeEvent (run_invariant hinv hstart hr') hw hs']
  exact alike_iff u.mSuccessCallback

/-- A connection to itself whose error both places retry. -/
theorem classified_alike_self : ∃ s' u u',
    step (start true true 0) (.startConnect (some EADDRNOTAVAIL)) = some s' ∧
    run step (start true true 0) [.startConnect (some EINPROGRESS)] = some u ∧
    step u (.writeEvent 0 EADDRNOTAVAIL ⟨2, 9, 1, 0⟩ ⟨2, 9, 1, 0⟩) = some u' ∧
    decision (start true true 0) s' 0 = .retry ∧ decision u u' 0 = .retry ∧
    Agrees EADDRNOTAVAIL ⟨2, 9, 1, 0⟩ ⟨2, 9, 1, 0⟩ ∧
    Alike EADDRNOTAVAIL ⟨2, 9, 1, 0⟩ ⟨2, 9, 1, 0⟩ (decision (start true true 0) s' 0)
      (decision u u' 0) := by
  obtain ⟨s', hs⟩ : ∃ s', step (start true true 0) (.startConnect (some EADDRNOTAVAIL)) = some s' :=
    ⟨_, rfl⟩
  obtain ⟨u, hr'⟩ : ∃ u, run step (start true true 0) [.startConnect (some EINPROGRESS)] = some u :=
    ⟨_, rfl⟩
  obtain ⟨u', hs'⟩ : ∃ u', step u (.writeEvent 0 EADDRNOTAVAIL ⟨2, 9, 1, 0⟩ ⟨2, 9, 1, 0⟩) = some u' := by
    cases hr'
    exact ⟨_, rfl⟩
  have hw : Waiting u 0 := by
    cases hr'
    exact ⟨_, rfl, rfl, rfl⟩
  have hr : run step (start true true 0) [] = some (start true true 0) := rfl
  have hagrees : Agrees EADDRNOTAVAIL ⟨2, 9, 1, 0⟩ ⟨2, 9, 1, 0⟩ :=
    ⟨fun _ _ => by decide, fun hzero => absurd hzero (by decide)⟩
  refine ⟨s', u, u', hs, hr', hs', ?_, ?_, hagrees,
    (classified_alike_iff true true 0 hr hs rfl hr' hw hs').mpr hagrees⟩
  · cases hs
    rfl
  · cases hr'
    cases hs'
    rfl

/-- A refusal is retried if `::connect` reports it and given up if `SO_ERROR` does, and a socket
that is connected to itself is handed to the success callback. -/
theorem refusal_classified_twice : ∃ s' u u' v,
    step (start true true 0) (.startConnect (some ECONNREFUSED)) = some s' ∧
    run step (start true true 0) [.startConnect (some EINPROGRESS)] = some u ∧
    step u (.writeEvent 0 ECONNREFUSED ⟨2, 9, 1, 0⟩ ⟨2, 7, 1, 0⟩) = some u' ∧
    step u (.writeEvent 0 0 ⟨2, 9, 1, 0⟩ ⟨2, 9, 1, 0⟩) = some v ∧
    decision (start true true 0) s' 0 = .retry ∧ decision u u' 0 = .giveUp true ∧
    decision u v 0 = .succeed ∧
    ¬ Alike ECONNREFUSED ⟨2, 9, 1, 0⟩ ⟨2, 7, 1, 0⟩ (decision (start true true 0) s' 0)
      (decision u u' 0) ∧
    ¬ Alike 0 ⟨2, 9, 1, 0⟩ ⟨2, 9, 1, 0⟩ (decision (start true true 0) s' 0) (decision u v 0) := by
  refine ⟨_, _, _, _, rfl, rfl, rfl, rfl, rfl, rfl, rfl, fun h => ?_, fun h => ?_⟩
  · exact absurd (h.same (by decide) (by decide)) (by decide)
  · exact (h.success rfl).2 ⟨rfl, rfl, .inl ⟨rfl, rfl⟩⟩

end GenericServer.ConnectClassification
