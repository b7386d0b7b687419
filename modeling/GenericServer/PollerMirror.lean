import GenericServer.EventRegistration
import GenericServer.TransitionRuns
import Mathlib.Logic.Function.Basic

/-!
# The polling flags of the events of a loop

Calls of `addEvent`, `modifyEvent` and `removeEvent` by the loop thread and by other ones, with
the two close paths of `TCPConnection`. A call by another thread is cut between its assertion and
its push; what it has pushed is executed by `doPending`.
-/
namespace GenericServer.PollerMirror

open EventRegistration TransitionRuns

/-- `calls` are the calls by other threads behind their assertions, and `closing` the events
whose connection is in `shutdown`, behind `stopPollEvent`. -/
structure EventLoop where
  event : ℕ → Event
  mPending : List (ℕ × Operation)
  calls : List (ℕ × Operation)
  closing : List ℕ

def start : EventLoop where
  event := fun _ => .new
  mPending := []
  calls := []
  closing := []

/-- `update` is a call by the loop thread and `call` one by another thread, up to the assertion.
`shutdown` is made by the loop thread if `own`; `close` is the rest of it. -/
inductive Label
  | update (e : ℕ) (op : Operation)
  | call (e : ℕ) (op : Operation)
  | addPending (e : ℕ) (op : Operation)
  | doPending
  | handleClose (e : ℕ)
  | shutdown (own : Bool) (e : ℕ)
  | close (e : ℕ)
  deriving DecidableEq, Repr

namespace EventLoop

def setEvent (s : EventLoop) (e : ℕ) (x : Event) : EventLoop :=
  { s with event := Function.update s.event e x }

def addPending (s : EventLoop) (e : ℕ) (op : Operation) : EventLoop :=
  { s with mPending := s.mPending ++ [(e, op)] }

/-- The closures that wait for `e`. -/
def queued (s : EventLoop) (e : ℕ) : List Operation :=
  (s.mPending.filter fun p => p.1 = e).map Prod.snd

def Mirrors (s : EventLoop) : Prop := ∀ e, (s.event e).Mirrors

end EventLoop

def step (s : EventLoop) : Label → Option EventLoop
  | .update e op =>
    if (s.event e).asserts op then some (s.setEvent e ((s.event e).execute op)) else none
  | .call e op =>
    if (s.event e).asserts op then some { s with calls := s.calls ++ [(e, op)] } else none
  | .addPending e op =>
    if (e, op) ∈ s.calls then
      some { s.addPending e op with calls := s.calls.erase (e, op) }
    else none
  | .doPending => match s.mPending with
    | (e, op) :: rest =>
      some { s.setEvent e ((s.event e).execute op) with mPending := rest }
    | [] => none
  | .handleClose e => some (s.setEvent e (s.event e).handleClose)
  | .shutdown true e =>
    some { s.setEvent e ((s.event e).execute .removeEvent) with closing := s.closing ++ [e] }
  | .shutdown false e =>
    some { s.addPending e .removeEvent with closing := s.closing ++ [e] }
  | .close e =>
    if e ∈ s.closing then
      some { s.setEvent e (s.event e).close with closing := s.closing.erase e }
    else none

/-- The closures that wait for the event still play, with a call by the loop thread in front of
them, with one by another thread behind them, and with the descriptor closed. -/
def CallFits (s : EventLoop) : Label → Prop
  | .update e op => Plays (s.event e).mPolling (s.event e).valid (op :: s.queued e)
  | .call _ _ => True
  | .addPending e op => Plays (s.event e).mPolling (s.event e).valid (s.queued e ++ [op])
  | .doPending => True
  | .handleClose e => ((s.event e).mPolling = true → (s.event e).valid = true) ∧
      Plays false false (s.queued e)
  | .shutdown true e =>
    Plays (s.event e).mPolling (s.event e).valid (.removeEvent :: s.queued e)
  | .shutdown false e =>
    Plays (s.event e).mPolling (s.event e).valid (s.queued e ++ [.removeEvent])
  | .close e => Plays (s.event e).mPolling false (s.queued e)

/-! ## One step -/

/-- What the closures of `e` leave. -/
def EventLoop.drained (s : EventLoop) (e : ℕ) : Event := (s.queued e).foldl .execute (s.event e)

/-- The flags are in line with the epoll set, and the queue may be carried out. -/
structure Sound (s : EventLoop) : Prop where
  polling : ∀ e, (s.event e).mPolling = (s.event e).registered
  drained : ∀ e, (s.drained e).Mirrors

theorem sound_start : Sound start where
  polling _ := rfl
  drained _ := Event.mirrors_new

variable {s s' : EventLoop} {l : Label} {e k : ℕ} {op : Operation} {x : Event}

@[simp] theorem setEvent_event_self : (s.setEvent e x).event e = x := Function.update_self ..

theorem setEvent_event_of_ne (h : k ≠ e) : (s.setEvent e x).event k = s.event k :=
  Function.update_of_ne h ..

@[simp] theorem addPending_queued_self : (s.addPending e op).queued e = s.queued e ++ [op] := by
  simp [EventLoop.addPending, EventLoop.queued]

theorem addPending_queued_of_ne (h : k ≠ e) : (s.addPending e op).queued k = s.queued k := by
  simp [EventLoop.addPending, EventLoop.queued, h.symm]

theorem Sound.mirrors (h : Sound s) : s.Mirrors :=
  fun e => ((Event.mirrors_foldl (h.polling e)).mp (h.drained e)).1

theorem Sound.iff_of_others (h : Sound s)
    (hpolling : (s'.event e).mPolling = (s'.event e).registered)
    (hevent : ∀ k, k ≠ e → s'.event k = s.event k)
    (hqueued : ∀ k, k ≠ e → s'.queued k = s.queued k) :
    Sound s' ↔ (s'.drained e).Mirrors := by
  refine ⟨fun hs => hs.drained e, fun hs => ⟨fun k => ?_, fun k => ?_⟩⟩
  · by_cases hk : k = e
    · rw [hk]
      exact hpolling
    · rw [hevent k hk]
      exact h.polling k
  · by_cases hk : k = e
    · rw [hk]
      exact hs
    · rw [EventLoop.drained, hevent k hk, hqueued k hk]
      exact h.drained k

theorem Sound.iff_of_event (h : Sound s) (hpolling : x.mPolling = x.registered)
    (hevent : s'.event = Function.update s.event e x) (hpending : s'.mPending = s.mPending) :
    Sound s' ↔ x.Mirrors ∧ Plays x.mPolling x.valid (s.queued e) := by
  have hqueued : ∀ k, s'.queued k = s.queued k := fun k => by
    rw [EventLoop.queued, hpending, EventLoop.queued]
  have hself : s'.event e = x := by rw [hevent, Function.update_self]
  have hother : ∀ k, k ≠ e → s'.event k = s.event k := fun k hk => by
    rw [hevent, Function.update_of_ne hk]
  rw [h.iff_of_others (hself ▸ hpolling) hother fun k _ => hqueued k, EventLoop.drained, hself,
    hqueued, Event.mirrors_foldl hpolling]

theorem Sound.iff_of_execute (h : Sound s)
    (hevent : s'.event = Function.update s.event e ((s.event e).execute op))
    (hpending : s'.mPending = s.mPending) :
    Sound s' ↔ Plays (s.event e).mPolling (s.event e).valid (op :: s.queued e) := by
  have hpolling := Event.polling_execute (h.polling e) op
  rw [h.iff_of_event hpolling hevent hpending, ← Event.mirrors_foldl hpolling, ← List.foldl_cons,
    Event.mirrors_foldl (h.polling e)]
  exact and_iff_right (h.mirrors e)

theorem Sound.iff_of_push (h : Sound s) (hevent : s'.event = s.event)
    (hpending : s'.mPending = s.mPending ++ [(e, op)]) :
    Sound s' ↔ Plays (s.event e).mPolling (s.event e).valid (s.queued e ++ [op]) := by
  have hqueued : ∀ k, s'.queued k = (s.addPending e op).queued k := fun k => by
    rw [EventLoop.queued, hpending, EventLoop.queued, EventLoop.addPending]
  have hpolling : (s'.event e).mPolling = (s'.event e).registered := by
    rw [hevent]
    exact h.polling e
  have hevents : ∀ k, k ≠ e → s'.event k = s.event k := fun k _ => by rw [hevent]
  rw [h.iff_of_others hpolling hevents fun k hk => (hqueued k).trans (addPending_queued_of_ne hk),
    EventLoop.drained, hevent, hqueued, addPending_queued_self,
    Event.mirrors_foldl (h.polling e)]
  exact and_iff_right (h.mirrors e)

theorem drained_doPending {rest : List (ℕ × Operation)} (hpending : s.mPending = (e, op) :: rest)
    (k : ℕ) :
    ({ s.setEvent e ((s.event e).execute op) with mPending := rest } : EventLoop).drained k =
      s.drained k := by
  by_cases hk : k = e
  · subst hk
    simp [EventLoop.drained, EventLoop.queued, EventLoop.setEvent, hpending]
  · have hne : e ≠ k := Ne.symm hk
    simp [EventLoop.drained, EventLoop.queued, EventLoop.setEvent, hpending, hk, hne]

theorem polling_setEvent (h : ∀ k, (s.event k).mPolling = (s.event k).registered)
    (hx : x.mPolling = x.registered) (k : ℕ) :
    ((s.setEvent e x).event k).mPolling = ((s.setEvent e x).event k).registered := by
  by_cases hk : k = e
  · subst hk
    rw [setEvent_event_self]
    exact hx
  · rw [setEvent_event_of_ne hk]
    exact h k

theorem Sound.step_iff (h : Sound s) (hs : step s l = some s') : Sound s' ↔ CallFits s l := by
  cases l with
  | update e op =>
    simp only [step] at hs
    split_ifs at hs
    cases hs
    exact h.iff_of_execute rfl rfl
  | call e op =>
    simp only [step] at hs
    split_ifs at hs
    cases hs
    exact ⟨fun _ => trivial, fun _ => ⟨h.polling, h.drained⟩⟩
  | addPending e op =>
    simp only [step] at hs
    split_ifs at hs
    cases hs
    exact h.iff_of_push rfl rfl
  | doPending =>
    simp only [step] at hs
    split at hs
    · rename_i e op rest hpending
      cases hs
      refine ⟨fun _ => trivial, fun _ => ⟨?_, fun k => ?_⟩⟩
      · exact polling_setEvent h.polling (Event.polling_execute (h.polling e) op)
      · rw [drained_doPending hpending]
        exact h.drained k
    · cases hs
  | handleClose e =>
    cases hs
    refine Iff.trans (h.iff_of_event (Event.polling_handleClose (h.polling e)) rfl rfl) ?_
    rw [Event.mirrors_handleClose (h.polling e), Event.handleClose_mPolling,
      Event.handleClose_valid, and_iff_right (h.mirrors e)]
    rfl
  | shutdown own e =>
    cases own with
    | true =>
      cases hs
      exact h.iff_of_execute rfl rfl
    | false =>
      cases hs
      exact h.iff_of_push rfl rfl
  | close e =>
    simp only [step] at hs
    split_ifs at hs
    cases hs
    refine Iff.trans (h.iff_of_event (Event.polling_close (h.polling e)) rfl rfl) ?_
    rw [Event.mirrors_close]
    exact and_iff_right (h.mirrors e)

theorem polling_step (h : ∀ k, (s.event k).mPolling = (s.event k).registered)
    (hs : step s l = some s') (k : ℕ) : (s'.event k).mPolling = (s'.event k).registered := by
  cases l with
  | update e op =>
    simp only [step] at hs
    split_ifs at hs
    cases hs
    exact polling_setEvent h (Event.polling_execute (h e) op) k
  | call e op =>
    simp only [step] at hs
    split_ifs at hs
    cases hs
    exact h k
  | addPending e op =>
    simp only [step] at hs
    split_ifs at hs
    cases hs
    exact h k
  | doPending =>
    simp only [step] at hs
    split at hs
    · rename_i e op rest hpending
      cases hs
      exact polling_setEvent h (Event.polling_execute (h e) op) k
    · cases hs
  | handleClose e =>
    cases hs
    exact polling_setEvent h (Event.polling_handleClose (h e)) k
  | shutdown own e =>
    cases own with
    | true =>
      cases hs
      exact polling_setEvent h (Event.polling_execute (h e) .removeEvent) k
    | false =>
      cases hs
      exact h k
  | close e =>
    simp only [step] at hs
    split_ifs at hs
    cases hs
    exact polling_setEvent h (Event.polling_close (h e)) k

/-! ## Runs -/

/-- `doPending` until the queue is empty. -/
def drain (s : EventLoop) : List Label := List.replicate s.mPending.length .doPending

theorem run_drain (s : EventLoop) :
    ∃ u, run step s (drain s) = some u ∧ u.event = s.drained := by
  cases s with
  | mk event mPending calls closing =>
    induction mPending generalizing event with
    | nil => exact ⟨_, rfl, rfl⟩
    | cons p rest ih =>
      obtain ⟨e, op⟩ := p
      obtain ⟨u, hu, hevent⟩ := ih (Function.update event e ((event e).execute op))
      refine ⟨u, hu, hevent.trans (funext fun k => ?_)⟩
      exact drained_doPending (s := ⟨event, (e, op) :: rest, calls, closing⟩) rfl k

/-- A schedule that does not fit has a part behind which the closures break the mirror. -/
theorem exists_drain (h : Sound s) {ls : List Label} (hr : run step s ls = some s')
    (hg : ¬ Guarded step CallFits s ls) :
    ∃ ms, ms <+: ls ∧ ∃ t u, run step s ms = some t ∧ run step t (drain t) = some u ∧
      ¬ u.Mirrors := by
  induction ls generalizing s with
  | nil => exact absurd trivial hg
  | cons l ls ih =>
    obtain ⟨t, ht, hr⟩ := run_cons_eq_some.mp hr
    by_cases hfit : CallFits s l
    · have hrest : ¬ Guarded step CallFits t ls := fun hrest => hg (guarded_cons hfit ht hrest)
      obtain ⟨ms, hms, v, u, hv, hu⟩ := ih ((h.step_iff ht).mpr hfit) hr hrest
      refine ⟨l :: ms, List.cons_prefix_cons.mpr ⟨rfl, hms⟩, v, u, ?_, hu⟩
      rw [run_cons_of ht]
      exact hv
    · obtain ⟨u, hu, hevent⟩ := run_drain t
      refine ⟨[l], List.cons_prefix_cons.mpr ⟨rfl, List.nil_prefix⟩, t, u, ?_, hu, ?_⟩
      · rw [run_cons_of ht, run_nil]
      · intro hmirrors
        refine hfit ((h.step_iff ht).mp ⟨polling_step h.polling ht, fun e => ?_⟩)
        rw [← hevent]
        exact hmirrors e

/-- As long as every call fits the closures that wait, the flags mirror the poller; once one does
not, the queued closures break the mirror. -/
theorem polling_mirrors {ls : List Label} (hr : run step start ls = some s) :
    (Guarded step CallFits start ls → s.Mirrors) ∧
      (¬ Guarded step CallFits start ls → ∃ ms, ms <+: ls ∧ ∃ t u,
        run step start ms = some t ∧ run step t (drain t) = some u ∧ ¬ u.Mirrors) := by
  refine ⟨fun hg => ?_, exists_drain sound_start hr⟩
  have hsound : Sound s :=
    hg.invariant (fun _ _ _ h hfit hs => (h.step_iff hs).mpr hfit) sound_start hr
  exact hsound.mirrors

instance (s : EventLoop) (l : Label) : Decidable (CallFits s l) :=
  match l with
  | .update _ _ => inferInstanceAs (Decidable (Plays _ _ _))
  | .call _ _ => isTrue trivial
  | .addPending _ _ => inferInstanceAs (Decidable (Plays _ _ _))
  | .doPending => isTrue trivial
  | .handleClose _ => inferInstanceAs (Decidable (_ ∧ Plays _ _ _))
  | .shutdown true _ => inferInstanceAs (Decidable (Plays _ _ _))
  | .shutdown false _ => inferInstanceAs (Decidable (Plays _ _ _))
  | .close _ => inferInstanceAs (Decidable (Plays _ _ _))

/-- One connection is registered by another thread, used and closed by its peer; a second one is
registered and shut down by the loop thread. -/
theorem polling_mirrors_two : ∃ s, run step start
    [.call 0 .addEvent, .addPending 0 .addEvent, .update 1 .addEvent, .doPending,
      .call 0 .modifyEvent, .addPending 0 .modifyEvent, .doPending, .shutdown true 1,
      .handleClose 0, .close 1] = some s ∧
    (s.event 0).ctls.map Ctl.op = [.add, .mod, .del] ∧ s.Mirrors := by
  obtain ⟨s, hs⟩ : ∃ s, run step start
      [.call 0 .addEvent, .addPending 0 .addEvent, .update 1 .addEvent, .doPending,
        .call 0 .modifyEvent, .addPending 0 .modifyEvent, .doPending, .shutdown true 1,
        .handleClose 0, .close 1] = some s := ⟨_, rfl⟩
  refine ⟨s, hs, ?_, (polling_mirrors hs).1 (by decide)⟩
  cases hs
  rfl

/-- Two threads have found the event unregistered. -/
theorem registered_twice : ∃ s, run step start
    [.call 0 .addEvent, .call 0 .addEvent, .addPending 0 .addEvent, .addPending 0 .addEvent,
      .doPending, .doPending] = some s ∧
    (s.event 0).ctls = [⟨.add, false, true⟩, ⟨.add, true, true⟩] ∧ ¬ s.Mirrors := by
  refine ⟨_, rfl, rfl, fun h => ?_⟩
  have hadd := (h 0).add ⟨.add, true, true⟩ (List.mem_cons_of_mem _ (List.mem_singleton_self _)) rfl
  cases hadd

end GenericServer.PollerMirror
