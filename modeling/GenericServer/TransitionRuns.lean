import Mathlib.Data.List.Basic

/-!
# Finite runs of a labelled partial step function

A program is given as `step : σ → ℓ → Option σ`: the label names the thread that
moves together with everything the environment chooses (kernel results, user
callbacks), and `none` means that the step is not enabled. A schedule is a list of
labels. The rules below turn a fact about one step into a fact about every run.
-/
namespace GenericServer.TransitionRuns

variable {σ ℓ : Type*} {step : σ → ℓ → Option σ}

/-- Replay a schedule; `none` as soon as one of its steps is not enabled. -/
def run (step : σ → ℓ → Option σ) (s : σ) : List ℓ → Option σ
  | [] => some s
  | l :: ls => (step s l).bind (fun s' => run step s' ls)

@[simp] theorem run_nil (s : σ) : run step s [] = some s := rfl

theorem run_cons_eq_some {s s' : σ} {l : ℓ} {ls : List ℓ} :
    run step s (l :: ls) = some s' ↔ ∃ t, step s l = some t ∧ run step t ls = some s' := by
  simp [run, Option.bind_eq_some_iff]

theorem run_cons_of {s t : σ} {l : ℓ} {ls : List ℓ} (h : step s l = some t) :
    run step s (l :: ls) = run step t ls := by
  rw [run, h, Option.bind_some]

theorem run_append (s : σ) (ls ms : List ℓ) :
    run step s (ls ++ ms) = (run step s ls).bind (fun t => run step t ms) := by
  induction ls generalizing s with
  | nil => simp
  | cons l ls ih =>
    cases h : step s l with
    | none => simp [run, h]
    | some t => simp [run, h, ih]

/-- Every step of the schedule that is reached meets the condition `ok` on its source state. -/
def Guarded (step : σ → ℓ → Option σ) (ok : σ → ℓ → Prop) (s : σ) : List ℓ → Prop
  | [] => True
  | l :: ls => ok s l ∧ ∀ t, step s l = some t → Guarded step ok t ls

variable {ok : σ → ℓ → Prop}

@[simp] theorem guarded_nil (s : σ) : Guarded step ok s [] := trivial

theorem guarded_cons {s t : σ} {l : ℓ} {ls : List ℓ} (hok : ok s l) (ht : step s l = some t)
    (h : Guarded step ok t ls) : Guarded step ok s (l :: ls) := by
  refine ⟨hok, fun u hu => ?_⟩
  cases hu.symm.trans ht
  exact h

theorem guarded_of_forall (s : σ) {ls : List ℓ} (h : ∀ l ∈ ls, ∀ t, ok t l) :
    Guarded step ok s ls := by
  induction ls generalizing s with
  | nil => trivial
  | cons l ls ih =>
    exact ⟨h l (List.mem_cons_self ..) s, fun t _ => ih t fun m hm => h m (List.mem_cons_of_mem _ hm)⟩

theorem guarded_true (s : σ) (ls : List ℓ) : Guarded step (fun _ _ => True) s ls :=
  guarded_of_forall s fun _ _ _ => trivial

/-- A schedule whose condition can be decided at every state can be replayed to check it. -/
instance decidableGuarded [∀ s l, Decidable (ok s l)] (s : σ) :
    (ls : List ℓ) → Decidable (Guarded step ok s ls)
  | [] => isTrue trivial
  | l :: ls =>
    match h : step s l with
    | none => decidable_of_iff (ok s l) ⟨fun hl => ⟨hl, fun t ht => by rw [h] at ht; cases ht⟩,
        fun hl => hl.1⟩
    | some t =>
      have := decidableGuarded t ls
      decidable_of_iff (ok s l ∧ Guarded step ok t ls)
        ⟨fun hl => ⟨hl.1, fun u hu => by rw [h] at hu; cases hu; exact hl.2⟩,
          fun hl => ⟨hl.1, hl.2 t h⟩⟩

theorem Guarded.imp {Inv : σ → Prop} {ok' : σ → ℓ → Prop}
    (hstep : ∀ s l s', Inv s → step s l = some s' → Inv s')
    (himp : ∀ s l, Inv s → ok s l → ok' s l) {s : σ} {ls : List ℓ} (hs : Inv s)
    (h : Guarded step ok s ls) : Guarded step ok' s ls := by
  induction ls generalizing s with
  | nil => trivial
  | cons l ls ih =>
    exact ⟨himp s l hs h.1, fun t ht => ih (hstep s l t hs ht) (h.2 t ht)⟩

theorem Guarded.and {ok' : σ → ℓ → Prop} {s : σ} {ls : List ℓ} (h : Guarded step ok s ls)
    (h' : Guarded step ok' s ls) : Guarded step (fun s l => ok s l ∧ ok' s l) s ls := by
  induction ls generalizing s with
  | nil => trivial
  | cons l ls ih => exact ⟨⟨h.1, h'.1⟩, fun t ht => ih (h.2 t ht) (h'.2 t ht)⟩

theorem Guarded.before {s : σ} {ls ms : List ℓ} (h : Guarded step ok s (ls ++ ms)) :
    Guarded step ok s ls := by
  induction ls generalizing s with
  | nil => trivial
  | cons l ls ih => exact ⟨h.1, fun t ht => ih (h.2 t ht)⟩

theorem Guarded.after {s t : σ} {ls ms : List ℓ} (h : Guarded step ok s (ls ++ ms))
    (hr : run step s ls = some t) : Guarded step ok t ms := by
  induction ls generalizing s with
  | nil =>
    cases hr
    exact h
  | cons l ls ih =>
    obtain ⟨u, hu, hr⟩ := run_cons_eq_some.mp hr
    exact ih (h.2 u hu) hr

/-- A property kept by every step that meets the condition holds at the end of every
run whose steps all meet it. -/
theorem Guarded.invariant {Inv : σ → Prop}
    (hstep : ∀ s l s', Inv s → ok s l → step s l = some s' → Inv s')
    {s s' : σ} {ls : List ℓ} (hg : Guarded step ok s ls) (h : Inv s)
    (hr : run step s ls = some s') : Inv s' := by
  induction ls generalizing s with
  | nil => cases hr; exact h
  | cons l ls ih =>
    obtain ⟨t, ht, hr⟩ := run_cons_eq_some.mp hr
    exact ih (hg.2 t ht) (hstep s l t h hg.1 ht) hr

theorem run_invariant {Inv : σ → Prop} (hstep : ∀ s l s', Inv s → step s l = some s' → Inv s')
    {s s' : σ} {ls : List ℓ} (h : Inv s) (hr : run step s ls = some s') : Inv s' :=
  (guarded_true s ls).invariant (fun a l b ha _ hb => hstep a l b ha hb) h hr

/-- Where every step of one program is answered by steps of another one and the relation `R` is
kept, every run is answered by a run. -/
theorem Guarded.simulation {τ m : Type*} {step' : τ → m → Option τ} {R : σ → τ → Prop}
    (hstep : ∀ s l s' a, R s a → ok s l → step s l = some s' →
      ∃ ms a', run step' a ms = some a' ∧ R s' a')
    {s s' : σ} {a : τ} {ls : List ℓ} (hg : Guarded step ok s ls) (h : R s a)
    (hr : run step s ls = some s') : ∃ ms a', run step' a ms = some a' ∧ R s' a' := by
  induction ls generalizing s a with
  | nil =>
    cases hr
    exact ⟨[], a, rfl, h⟩
  | cons l ls ih =>
    obtain ⟨t, ht, hr⟩ := run_cons_eq_some.mp hr
    obtain ⟨ms, b, hb, hnext⟩ := hstep s l t a h hg.1 ht
    obtain ⟨ms', a', ha', hend⟩ := ih (hg.2 t ht) hnext hr
    refine ⟨ms ++ ms', a', ?_, hend⟩
    rw [run_append, hb, Option.bind_some]
    exact ha'

/-- A condition that is exact for one step is exact for a run, where no step repairs what an
earlier one has broken. -/
theorem guarded_iff {Inv Good : σ → Prop}
    (hstep : ∀ s l s', Inv s → step s l = some s' → Inv s')
    (hexact : ∀ s l s', Inv s → step s l = some s' → (Good s' ↔ Good s ∧ ok s l))
    {s s' : σ} {ls : List ℓ} (h : Inv s) (hgood : Good s) (hr : run step s ls = some s') :
    Good s' ↔ Guarded step ok s ls := by
  induction ls generalizing s with
  | nil =>
    cases hr
    exact iff_of_true hgood trivial
  | cons l ls ih =>
    obtain ⟨t, ht, hr⟩ := run_cons_eq_some.mp hr
    have hinv := hstep s l t h ht
    have hone := hexact s l t h ht
    constructor
    · intro hend
      -- what is good at the end was good all the way
      have hkeep : ∀ u m v, Inv u ∧ (Good u → Good t) → step u m = some v →
          Inv v ∧ (Good v → Good t) :=
        fun u m v hu hm => ⟨hstep u m v hu.1 hm, fun hv => hu.2 ((hexact u m v hu.1 hm).mp hv).1⟩
      have hnext : Good t := (run_invariant hkeep ⟨hinv, id⟩ hr).2 hend
      exact guarded_cons (hone.mp hnext).2 ht ((ih hinv hnext hr).mp hend)
    · rintro ⟨hok, hrest⟩
      exact (ih hinv (hone.mpr ⟨hgood, hok⟩) hr).mpr (hrest t ht)

section Views

variable {τ m : Type*} {step' : τ → m → Option τ} {ok' : τ → m → Prop} {view : σ → τ}
  {proj : ℓ → Option m}

/-- An observer who sees a part of the state, and of the steps those that concern it, sees a run. -/
theorem run_filterMap
    (hview : ∀ s l s', step s l = some s' → run step' (view s) (proj l).toList = some (view s'))
    {s s' : σ} {ls : List ℓ} (hr : run step s ls = some s') :
    run step' (view s) (ls.filterMap proj) = some (view s') := by
  induction ls generalizing s with
  | nil =>
    cases hr
    rfl
  | cons l ls ih =>
    obtain ⟨t, ht, hr⟩ := run_cons_eq_some.mp hr
    have hone := hview s l t ht
    cases hl : proj l with
    | none =>
      rw [hl] at hone
      rw [List.filterMap_cons_none hl, Option.some.inj hone]
      exact ih hr
    | some a =>
      rw [hl] at hone
      obtain ⟨u, hu, hone⟩ := run_cons_eq_some.mp hone
      cases hone
      rw [List.filterMap_cons_some hl, run_cons_of hu]
      exact ih hr

/-- The steps that the observer sees meet what those of the run guarantee. -/
theorem Guarded.filterMap
    (hview : ∀ s l s', step s l = some s' → run step' (view s) (proj l).toList = some (view s'))
    (hok : ∀ s l a, ok s l → proj l = some a → ok' (view s) a)
    {s s' : σ} {ls : List ℓ} (hr : run step s ls = some s') (h : Guarded step ok s ls) :
    Guarded step' ok' (view s) (ls.filterMap proj) := by
  induction ls generalizing s with
  | nil => trivial
  | cons l ls ih =>
    obtain ⟨t, ht, hr⟩ := run_cons_eq_some.mp hr
    have hone := hview s l t ht
    have hrest := ih hr (h.2 t ht)
    cases hl : proj l with
    | none =>
      rw [hl] at hone
      rw [List.filterMap_cons_none hl, Option.some.inj hone]
      exact hrest
    | some a =>
      rw [hl] at hone
      obtain ⟨u, hu, hone⟩ := run_cons_eq_some.mp hone
      cases hone
      rw [List.filterMap_cons_some hl]
      exact guarded_cons (hok s l a h.1 hl) hu hrest

end Views

end GenericServer.TransitionRuns
