import GenericServer.LoggerDrain
import GenericServer.ThreadWeights

/-!
# Stopping the asynchronous logger

`AsyncLogger::stop` (`src/log/Log.cpp`) clears `m_running` and joins the thread of `threadFunc`,
while other threads may go on logging.
-/
namespace GenericServer.LoggerDrain

open FifoQueues TransitionRuns ThreadWeights
open LoggerThreads (bufferSize highWaterMark)

variable {β : Type*} {s s' : Logger β} {l : Label β} {ls ms : List (Label β)} {t : ℤ}

def Label.own : Label β → Bool
  | .append _ _ | .stop => false
  | _ => true

/-- Up to three steps for each byte, and two for a new ring. -/
def Label.charge : Label β → ℕ
  | .append _ bytes => 3 * bytes.length + 2
  | _ => 0

namespace Logger

def stored (s : Logger β) : ℕ := total (fun q : Fifo β => q.stored.length) s.keys.toFinset s.ring

def ahead (s : Logger β) (t : ℤ) : ℕ := (s.keys.filter fun k => t < k).length

/-- The steps that `threadFunc` has to make behind ring `t` if no ring has a byte. -/
def behind (s : Logger β) (t : ℤ) (final : Bool) : ℕ :=
  s.ahead t + 1 + if final then 0 else s.keys.length + 2

def left (s : Logger β) : ℕ :=
  match s.pc with
  | .visit t final => s.behind t final + 1
  | .retriving t final => s.behind t final
  | .retrived t final => s.behind t final + 2
  | .settling => s.keys.length + 3
  | .loop => s.keys.length + 2
  | .finishing => 1
  | .finished => 0

/-- What is left to do, with three steps for each byte. -/
def work (s : Logger β) : ℕ := 3 * s.stored + s.left

end Logger

/-! ## How much is left to do -/

theorem stored_eq_nil (hk : Known s) (ht : t ∉ s.keys) : (s.ring t).stored = [] := by
  have hall := (s.ring t).conserved
  rw [hk.keys t ht] at hall
  exact (List.append_eq_nil_iff.mp hall).2

theorem stored_append (h : Known s) (t : ℤ) (bytes : List β) :
    (s.append t bytes).stored = s.stored + bytes.length := by
  unfold Logger.stored Logger.append
  dsimp only
  split_ifs with ht
  · have hupdate := total_update (fun q : Fifo β => q.stored.length) s.ring
      ((s.ring t).accept bytes) (List.mem_toFinset.mpr ht)
    rw [Fifo.accept_stored, List.length_append] at hupdate
    omega
  · rw [List.toFinset_cons, total_insert _ _ _ (mt List.mem_toFinset.mp ht), Fifo.accept_stored,
      stored_eq_nil h ht, List.nil_append]

theorem stored_retrive (hk : Known s) (hg : Staging s) {final : Bool}
    (hpc : s.pc = .retriving t final) : (s.retrive t).stored < s.stored := by
  have hbytes := hg.stored t final hpc
  have hmem : t ∈ s.keys := by
    by_contra hnot
    exact hbytes (stored_eq_nil hk hnot)
  have hlow : s.n ≤ highWaterMark := hg.low (by rw [hpc]; rfl)
  have hroom : 0 < (bufferSize - s.n).toNat := by
    unfold highWaterMark bufferSize at *
    omega
  have hpos := List.length_pos_of_ne_nil hbytes
  apply total_lt (List.mem_toFinset.mpr hmem)
  rw [Fifo.release_stored, List.length_drop]
  omega

theorem ahead_le (s : Logger β) (t : ℤ) : s.ahead t ≤ s.keys.length := List.length_filter_le ..

theorem ahead_lt {p : ℤ → Bool} {k : ℤ} (hp : ∀ u, k < u → p u = true)
    (hmin : (s.keys.filter p).min? = some k) : s.ahead k < (s.keys.filter p).length := by
  have hk : k ∈ s.keys.filter p := (List.min?_eq_some_iff.mp hmin).1
  have hsub : s.keys.filter (fun u => k < u) = (s.keys.filter p).filter fun u => k < u := by
    rw [List.filter_filter]
    apply List.filter_congr
    intro u _
    by_cases hu : k < u
    · simp [hu, hp u hu]
    · simp [hu]
  rw [Logger.ahead, hsub]
  apply List.length_filter_lt_length_iff_exists.mpr
  exact ⟨k, hk, by simp⟩

theorem left_nextPc {p : ℤ → Bool} {k : ℕ} (final : Bool)
    (hp : ∀ m, (s.keys.filter p).min? = some m → ∀ u, m < u → p u = true)
    (hk : (s.keys.filter p).length + 1 + (if final then 0 else s.keys.length + 2) = k) :
    Logger.left { s with pc := nextPc final (s.keys.filter p).min? } ≤ k := by
  cases hmin : (s.keys.filter p).min? with
  | some m =>
    have hless := ahead_lt (hp m hmin) hmin
    change s.behind m final + 1 ≤ k
    unfold Logger.behind
    omega
  | none =>
    cases final with
    | true =>
      change 1 ≤ k
      omega
    | false =>
      change s.keys.length + 3 ≤ k
      simp only [Bool.false_eq_true, if_false] at hk
      omega

/-- A ring more can be ahead, and has to be walked over once more. -/
theorem left_append (s : Logger β) (t : ℤ) (bytes : List β) :
    (s.append t bytes).left ≤ s.left + 2 := by
  have hkeys : (s.append t bytes).keys.length ≤ s.keys.length + 1 := by
    unfold Logger.append
    dsimp only
    split_ifs
    · omega
    · exact Nat.le_refl _
  have hahead : ∀ u, (s.append t bytes).ahead u ≤ s.ahead u + 1 := by
    intro u
    unfold Logger.ahead Logger.append
    dsimp only
    split_ifs
    · omega
    · rw [List.filter_cons]
      split_ifs
      · exact Nat.le_refl _
      · omega
  have hbehind : ∀ u final, (s.append t bytes).behind u final ≤ s.behind u final + 2 := by
    intro u final
    have hu := hahead u
    unfold Logger.behind
    split_ifs <;> omega
  have hpc : (s.append t bytes).pc = s.pc := rfl
  unfold Logger.left
  rw [hpc]
  cases s.pc with
  | visit u final =>
    have hu := hbehind u final
    dsimp only
    omega
  | retriving u final => exact hbehind u final
  | retrived u final =>
    have hu := hbehind u final
    dsimp only
    omega
  | loop | settling =>
    dsimp only
    omega
  | finishing | finished => exact Nat.le_add_right ..

theorem left_le (s : Logger β) : s.left ≤ 2 * s.keys.length + 5 := by
  have hbehind : ∀ u final, s.behind u final ≤ 2 * s.keys.length + 3 := by
    intro u final
    have hu := ahead_le s u
    unfold Logger.behind
    split_ifs <;> omega
  unfold Logger.left
  cases s.pc with
  | visit u final | retriving u final | retrived u final =>
    have hu := hbehind u final
    dsimp only
    omega
  | loop | settling | finishing | finished =>
    dsimp only
    omega

theorem work_step (hk : Known s) (hg : Staging s) (hstop : s.mRunning = false)
    (hs : step s l = some s') : (if l.own then 1 else 0) + s'.work ≤ s.work + l.charge := by
  have hall : s.keys.filter (fun _ => true) = s.keys := List.filter_true s.keys
  cases moves_of_step hs with
  | append t bytes =>
    have hstored := stored_append hk t bytes
    have hleft := left_append s t bytes
    change 0 + (3 * (s.append t bytes).stored + (s.append t bytes).left) ≤
      3 * s.stored + s.left + (3 * bytes.length + 2)
    omega
  | stop => exact Nat.le_of_eq (Nat.zero_add _)
  | running hpc =>
    have hleft : s.left = s.keys.length + 2 := by rw [Logger.left, hpc]
    have hnext := left_nextPc (s := s) (p := fun _ => true) true (fun _ _ _ _ => rfl)
      (k := s.keys.length + 1) (by rw [hall]; rfl)
    rw [hall] at hnext
    rw [hstop]
    change 1 + (3 * s.stored + Logger.left { s with pc := nextPc true s.keys.min? }) ≤
      3 * s.stored + s.left + 0
    omega
  | leave t final hpc hempty =>
    have hleft : s.left = s.behind t final + 1 := by rw [Logger.left, hpc]
    have hnext := left_nextPc (s := s) (p := fun k => t < k) (k := s.behind t final) final (by
      intro m hm u hu
      have hmem := (List.mem_filter.mp (List.min?_eq_some_iff.mp hm).1).2
      simp only [decide_eq_true_eq] at hmem ⊢
      exact hmem.trans hu) rfl
    change 1 + (3 * s.stored + Logger.left { s with pc := nextPc final _ }) ≤
      3 * s.stored + s.left + 0
    omega
  | enter t final hpc hstored =>
    have hleft : s.left = s.behind t final + 1 := by rw [Logger.left, hpc]
    change 1 + (3 * s.stored + s.behind t final) ≤ 3 * s.stored + s.left + 0
    omega
  | retrive t final hpc =>
    have hleft : s.left = s.behind t final := by rw [Logger.left, hpc]
    have hstored := stored_retrive hk hg hpc
    change 1 + (3 * (s.retrive t).stored + (s.behind t final + 2)) ≤ 3 * s.stored + s.left + 0
    omega
  | high t final hpc | low t final hpc =>
    have hleft : s.left = s.behind t final + 2 := by rw [Logger.left, hpc]
    change 1 + (3 * s.stored + (s.behind t final + 1)) ≤ 3 * s.stored + s.left + 0
    omega
  | settle timeout hpc | hold timeout hpc =>
    have hleft : s.left = s.keys.length + 3 := by rw [Logger.left, hpc]
    change 1 + (3 * s.stored + (s.keys.length + 2)) ≤ 3 * s.stored + s.left + 0
    omega
  | finish hpc =>
    have hleft : s.left = 1 := by rw [Logger.left, hpc]
    change 1 + (3 * s.stored + 0) ≤ 3 * s.stored + s.left + 0
    omega

theorem exists_own_step (h : s.pc ≠ .finished) : ∃ l s', l.own = true ∧ step s l = some s' := by
  cases hpc : s.pc with
  | loop => exact ⟨.running, _, rfl, by rw [step, hpc]⟩
  | visit t final =>
    by_cases hempty : (s.ring t).stored.isEmpty = true
    · exact ⟨.check, _, rfl, by simp only [step, hpc, hempty, if_true]; rfl⟩
    · exact ⟨.check, _, rfl, by simp only [step, hpc, hempty]; rfl⟩
  | retriving t final => exact ⟨.retrive, _, rfl, by simp only [step, hpc]; rfl⟩
  | retrived t final => exact ⟨.retrived, _, rfl, by simp only [step, hpc]; rfl⟩
  | settling => exact ⟨.settle false, _, rfl, by simp only [step, hpc]; rfl⟩
  | finishing => exact ⟨.finish, _, rfl, by simp only [step, hpc]; rfl⟩
  | finished => exact absurd hpc h

/-! ## Late records -/

/-- No bytes for a ring that the last drain has left behind. -/
def InTime (s : Logger β) : Label β → Prop
  | .append t bytes => bytes = [] ∨ ¬ s.pc.passed t
  | _ => True

/-- The rings that the last drain has left behind are empty. -/
def Cleared (s : Logger β) : Prop := ∀ t, s.pc.passed t → (s.ring t).stored = []

theorem cleared_of_not_passed (h : ∀ t, ¬ s.pc.passed t) : Cleared s :=
  fun t ht => absurd ht (h t)

theorem cleared_append_iff (s : Logger β) (t : ℤ) (bytes : List β) :
    Cleared (s.append t bytes) ↔ Cleared s ∧ InTime s (.append t bytes) := by
  have hother : ∀ u, u ≠ t → (s.append t bytes).ring u = s.ring u :=
    fun u hu => Function.update_of_ne hu ..
  have hself : ((s.append t bytes).ring t).stored = (s.ring t).stored ++ bytes := by
    simp [Logger.append]
  constructor
  · intro h
    refine ⟨fun u hu => ?_, ?_⟩
    · by_cases heq : u = t
      · subst heq
        have hnil := h u hu
        rw [hself] at hnil
        exact (List.append_eq_nil_iff.mp hnil).1
      · rw [← hother u heq]
        exact h u hu
    · by_cases ht : s.pc.passed t
      · have hnil := h t ht
        rw [hself] at hnil
        exact .inl (List.append_eq_nil_iff.mp hnil).2
      · exact .inr ht
  · rintro ⟨h, hlabel⟩ u hu
    by_cases heq : u = t
    · subst heq
      have hbytes : bytes = [] := hlabel.resolve_right fun hnot => hnot hu
      rw [hself, hbytes, List.append_nil]
      exact h u hu
    · rw [hother u heq]
      exact h u hu

/-- The last drain leaves a ring behind when it has found it empty. -/
theorem cleared_leave_iff (hk : Known s) {final : Bool} (hpc : s.pc = .visit t final)
    (hempty : (s.ring t).stored = []) :
    Cleared { s with pc := nextPc final (s.keys.filter fun k => t < k).min? } ↔ Cleared s := by
  constructor
  · intro h u hu
    cases final with
    | false =>
      rw [hpc] at hu
      exact hu.elim
    | true =>
      rw [hpc] at hu
      refine h u ?_
      cases hmin : (s.keys.filter fun k => t < k).min? with
      | none => trivial
      | some m =>
        have hmem := (List.mem_filter.mp (List.min?_eq_some_iff.mp hmin).1).2
        have hless : t < m := of_decide_eq_true hmem
        exact lt_trans hu hless
  · intro h u hu
    obtain ⟨rfl, hbehind⟩ := nextPc_passed hu
    rcases lt_trichotomy u t with hlt | rfl | hgt
    · exact h u (by rw [hpc]; exact hlt)
    · exact hempty
    · have hnew : u ∉ s.keys :=
        fun hmem => hbehind (List.mem_filter.mpr ⟨hmem, decide_eq_true hgt⟩)
      have hnil : (s.ring u).stored = [] := stored_eq_nil hk hnew
      exact hnil

theorem cleared_step_iff (hk : Known s) (hs : step s l = some s') :
    Cleared s' ↔ Cleared s ∧ InTime s l := by
  cases moves_of_step hs with
  | append t bytes => exact cleared_append_iff s t bytes
  | stop => exact (and_iff_left trivial).symm
  | running hpc =>
    have hbefore : Cleared s := cleared_of_not_passed fun u hu => by
      rw [hpc] at hu
      exact hu
    refine iff_of_true (fun u hu => ?_) ⟨hbefore, trivial⟩
    have hnil : (s.ring u).stored = [] := stored_eq_nil hk (nextPc_passed hu).2
    exact hnil
  | leave t final hpc hempty =>
    rw [cleared_leave_iff hk hpc hempty]
    exact (and_iff_left trivial).symm
  | enter t final hpc hstored =>
    have hpassed : (Pc.retriving t final).passed = s.pc.passed := by
      rw [hpc, (passed_retrived t final).2, (passed_retrived t final).1]
    unfold Cleared
    rw [hpassed]
    exact (and_iff_left trivial).symm
  | retrive t final hpc =>
    have hpassed : (Pc.retrived t final).passed = s.pc.passed := by
      rw [hpc, (passed_retrived t final).1]
    have hsame : ∀ u, s.pc.passed u → (s.retrive t).ring u = s.ring u := by
      intro u hu
      rw [hpc] at hu
      have hne : u ≠ t := by
        rintro rfl
        cases final with
        | true => exact lt_irrefl _ hu
        | false => exact hu
      exact Function.update_of_ne hne ..
    unfold Cleared
    rw [hpassed]
    constructor
    · intro h
      refine ⟨fun u hu => ?_, trivial⟩
      rw [← hsame u hu]
      exact h u hu
    · intro h u hu
      change ((s.retrive t).ring u).stored = []
      rw [hsame u hu]
      exact h.1 u hu
  | high t final hpc | low t final hpc =>
    have hpassed : (Pc.visit t final).passed = s.pc.passed := by
      rw [hpc, (passed_retrived t final).2]
    unfold Cleared
    change (∀ u, (Pc.visit t final).passed u → (s.ring u).stored = []) ↔ _
    rw [hpassed]
    exact (and_iff_left trivial).symm
  | settle timeout hpc | hold timeout hpc =>
    have hbefore : Cleared s := cleared_of_not_passed fun u hu => by
      rw [hpc] at hu
      exact hu
    exact iff_of_true (cleared_of_not_passed fun u hu => hu) ⟨hbefore, trivial⟩
  | finish hpc =>
    have hpassed : Pc.finished.passed = s.pc.passed := by
      rw [hpc]
      rfl
    unfold Cleared
    change (∀ u, Pc.finished.passed u → (s.ring u).stored = []) ↔ _
    rw [hpassed]
    exact (and_iff_left trivial).symm

def Logger.written (s : Logger β) (t : ℤ) : List β :=
  (s.retrieved.filter fun p => p.1 = t).map Prod.snd

theorem cleared_iff_written (hg : Staging s) (hfinished : s.pc = .finished) :
    Cleared s ↔ ∀ t, s.written t = (s.ring t).accepted := by
  have hone : ∀ t, (s.ring t).stored = [] ↔ s.written t = (s.ring t).accepted := by
    intro t
    rw [Logger.written, hg.returned t, ← (s.ring t).conserved]
    exact List.self_eq_append_right.symm
  constructor
  · intro h t
    exact (hone t).mp (h t (by rw [hfinished]; trivial))
  · intro h t _
    exact (hone t).mpr (h t)

/-- `stop` is called. Whatever goes on beside it, `threadFunc` is never held up and returns after
so many steps at most; and what it has written by then is all that the threads have appended,
exactly when no thread has appended to a ring that the last drain had left behind. -/
theorem stop_returns {buffer : ℤ → β} (hr : run step (start buffer) ls = some s)
    (hrunning : s.mRunning = true) (hrest : run step s (.stop :: ms) = some s') :
    ms.countP Label.own ≤
        3 * s.stored + 2 * s.keys.length + 5 + (ms.map Label.charge).sum ∧
      (s'.pc ≠ .finished → ∃ l u, l.own = true ∧ step s' l = some u) ∧
      (s'.pc = .finished → s'.chunks.flatten = s'.retrieved.map Prod.snd ∧
        ((∀ t, s'.written t = (s'.ring t).accepted) ↔ Guarded step InTime s (.stop :: ms))) := by
  have hboth : ∀ (u : Logger β) l v, Known u ∧ Staging u → step u l = some v →
      Known v ∧ Staging v := fun _ _ _ h hs => ⟨h.1.step hs, h.2.step hs⟩
  have hs : Known s ∧ Staging s := run_invariant hboth ⟨known_start buffer, staging_start buffer⟩ hr
  have hs' : Known s' ∧ Staging s' := run_invariant hboth hs hrest
  refine ⟨?_, exists_own_step, fun hfinished => ⟨?_, ?_⟩⟩
  · obtain ⟨u, hu, hrest⟩ := run_cons_eq_some.mp hrest
    cases hu
    have hwork : ∀ (u : Logger β) l v, (Known u ∧ Staging u) ∧ u.mRunning = false →
        step u l = some v → ((Known v ∧ Staging v) ∧ v.mRunning = false) ∧
          (if l.own then 1 else 0) + v.work ≤ u.work + l.charge := by
      intro u l v h hstep
      refine ⟨⟨hboth u l v h.1 hstep, ?_⟩, work_step h.1.1 h.1.2 h.2 hstep⟩
      cases moves_of_step hstep with
      | stop => rfl
      | _ => exact h.2
    have hcount := run_countP_le hwork ⟨hboth s .stop _ hs rfl, rfl⟩ hrest
    have hleft := left_le s
    change ms.countP Label.own + s'.work ≤ 3 * s.stored + s.left + (ms.map Label.charge).sum
      at hcount
    omega
  · have hbytes := hs'.2.bytes
    rw [if_pos hfinished, List.append_nil] at hbytes
    exact hbytes
  · rw [← cleared_iff_written hs'.2 hfinished]
    have hknown : ∀ (u : Logger β) l v, Known u → step u l = some v → Known v :=
      fun _ _ _ h hstep => h.step hstep
    exact guarded_iff hknown (fun _ _ _ h hstep => cleared_step_iff h hstep) hs.1
      (cleared_of_not_passed (hs.1.running hrunning)) hrest

instance decidablePassed (t : ℤ) : (pc : Pc) → Decidable (pc.passed t)
  | .visit p true | .retriving p true | .retrived p true => inferInstanceAs (Decidable (t < p))
  | .visit _ false | .retriving _ false | .retrived _ false => isFalse id
  | .loop | .settling => isFalse id
  | .finishing | .finished => isTrue trivial

instance decidableInTime (s : Logger β) : (l : Label β) → Decidable (InTime s l)
  | .append t bytes => inferInstanceAs (Decidable (bytes = [] ∨ ¬ s.pc.passed t))
  | .stop | .running | .check | .retrive | .retrived | .settle _ | .finish => isTrue trivial

/-- The first of two records behind `stop` is written, the second one comes when its ring has been
left behind. -/
theorem stop_returns_late_record :
    let ls := [.append 3 [1, 2], .running, .check, .retrive, .retrived, .check, .settle false]
    let ms := [.running, .append 3 [4], .check, .retrive, .retrived, .check, .append 3 [6], .finish]
    ∃ s s', run step (start fun _ => (0 : UInt8)) ls = some s ∧
      run step s (.stop :: ms) = some s' ∧ s'.pc = .finished ∧ ms.countP Label.own ≤ 17 ∧
      ¬ ∀ t, s'.written t = (s'.ring t).accepted := by
  intro ls ms
  obtain ⟨s, hs⟩ : ∃ s, run step (start fun _ => (0 : UInt8)) ls = some s := ⟨_, rfl⟩
  obtain ⟨s', hs'⟩ : ∃ s', run step s (.stop :: ms) = some s' := by
    cases hs
    exact ⟨_, rfl⟩
  have hrunning : s.mRunning = true := by
    cases hs
    rfl
  have hfinished : s'.pc = .finished := by
    cases hs
    cases hs'
    rfl
  have hlate : ¬ Guarded step InTime s (.stop :: ms) := by
    cases hs
    decide
  obtain ⟨-, -, hreturned⟩ := stop_returns hs hrunning hs'
  exact ⟨s, s', hs, hs', hfinished, by decide, fun hall => hlate ((hreturned hfinished).2.mp hall)⟩

end GenericServer.LoggerDrain
