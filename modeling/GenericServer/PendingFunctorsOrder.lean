import GenericServer.PendingFunctorsSteps
import Mathlib.Data.List.Nodup
import Mathlib.Data.List.Range

/-!
# What becomes of a functor that is handed to an event loop

For each thread, what it has handed over is what has been executed, followed by what waits in
`m_pending`, followed by what the thread is about to push. Functors that the loop thread pushes
while it walks along `m_pending` are left out.
-/
namespace GenericServer.PendingFunctors

open TransitionRuns

variable {t u : ℤ} {way : Way} {f : Functor} {l l' : List Functor}

@[simp] theorem handed_nil (t : ℤ) (way : Way) : handed t way [] = [] := rfl

@[simp] theorem handed_append (t : ℤ) (way : Way) (l l' : List Functor) :
    handed t way (l ++ l') = handed t way l ++ handed t way l' := List.filter_append ..

theorem handed_self (htid : f.tid = t) (hway : f.way = way) : handed t way [f] = [f] := by
  simp [handed, htid, hway]

theorem handed_of_tid_ne (h : f.tid ≠ t) : handed t way [f] = [] := by
  simp [handed, h]

theorem handed_eq_nil (h : ∀ f ∈ l, f.way ≠ way) : handed t way l = [] := by
  apply List.filter_eq_nil_iff.mpr
  intro f hf
  simp [h f hf]

theorem handed_of_way_ne (h : f.way ≠ way) : handed t way [f] = [] := by
  simp [handed, h]

/-- In these states the loop thread holds `m_pendingMutex`. -/
def Pc.holds : Pc → Bool
  | .walking _ _ => true
  | .cleared => true
  | _ => false

structure Accounted (s : EventLoop) : Prop where
  ids : s.posted.map Functor.id = List.range s.posted.length
  others : ∀ f ∈ s.posted, f.tid ≠ s.threadId → f.way = .pending
  ordered : ∀ t, handed t .pending s.posted = handed t .pending s.executed ++
    handed t .pending (waiting s) ++ handed t .pending (s.poster t).inFlight
  direct : ∀ t, handed t .direct s.posted = handed t .direct s.executed
  late : ∀ f ∈ s.executed, f.way ≠ .during
  loopThread : s.poster s.threadId = .idle
  holds : s.owner = some s.threadId ↔ s.pc.holds = true
  pushing : ∀ t f wake, s.poster t = .pushing f wake → s.owner = some t
  own : ∀ t, ∀ f ∈ (s.poster t).inFlight, f.tid = t ∧ f.way = .pending
  walk : ∀ next stop, s.pc = .walking next stop → next ≤ stop ∧ stop ≤ s.pending.length ∧
    (∀ f ∈ s.pending.take stop, f.way = .pending) ∧ ∀ f ∈ s.pending.drop stop, f.way = .during
  still : s.pc.holds = false → ∀ f ∈ s.pending, f.way = .pending
  cleared : s.pc = .cleared → s.pending = [] ∧ s.nesting = 0

variable {s s' : EventLoop}

theorem accounted_start (threadId : ℤ) : Accounted (start threadId) where
  ids := rfl
  others _ hf := absurd hf List.not_mem_nil
  ordered _ := rfl
  direct _ := rfl
  late _ hf := absurd hf List.not_mem_nil
  loopThread := rfl
  holds := by simp [start, Pc.holds]
  pushing _ _ _ h := by cases h
  own _ _ hf := absurd hf List.not_mem_nil
  walk _ _ h := by cases h
  still _ _ hf := absurd hf List.not_mem_nil
  cleared h := by cases h

theorem waiting_walking {next stop : ℕ} (h : s.pc = .walking next stop) :
    waiting s = s.pending.drop next := by
  simp only [waiting, h]

theorem waiting_of_not_walking (h : ∀ next stop, s.pc ≠ .walking next stop) :
    waiting s = s.pending := by
  unfold waiting
  split
  · rename_i next stop hpc
    exact absurd hpc (h next stop)
  · rfl

theorem ne_walking_of_not_holds {pc : Pc} (h : pc.holds = false) (next stop : ℕ) :
    pc ≠ .walking next stop := by
  intro hpc
  rw [hpc] at h
  cases h

theorem map_id_append (h : s.posted.map Functor.id = List.range s.posted.length) (t : ℤ)
    (way : Way) : (s.posted ++ [call s t way]).map Functor.id =
      List.range (s.posted ++ [call s t way]).length := by
  rw [List.map_append, h, List.length_append, List.length_singleton, List.range_succ]
  rfl

namespace Accounted

theorem others_append (h : Accounted s) (hway : t = s.threadId ∨ way = .pending) :
    ∀ f ∈ s.posted ++ [call s t way], f.tid ≠ s.threadId → f.way = .pending := by
  intro f hf hne
  rcases List.mem_append.mp hf with hf | hf
  · exact h.others f hf hne
  · cases List.mem_singleton.mp hf
    exact hway.resolve_left hne

theorem move (h : Accounted s) (pc : Pc) (hfrom : s.pc.holds = false) (hto : pc.holds = false)
    (nesting wakeup : ℕ) :
    Accounted { s with pc := pc, nesting := nesting, wakeup := wakeup } := by
  have hsame : waiting { s with pc := pc, nesting := nesting, wakeup := wakeup } = waiting s := by
    rw [waiting_of_not_walking (ne_walking_of_not_holds hfrom),
      waiting_of_not_walking (ne_walking_of_not_holds hto)]
  refine ⟨h.ids, h.others, fun t => ?_, h.direct, h.late, h.loopThread, ?_, h.pushing, h.own, ?_, fun _ =>
    h.still hfrom, ?_⟩
  · rw [hsame]
    exact h.ordered t
  · rw [h.holds, hfrom, hto]
  · intro next stop hpc
    exact absurd hpc (ne_walking_of_not_holds hto next stop)
  · intro hpc
    rw [show pc = .cleared from hpc] at hto
    cases hto

theorem local_step (h : Accounted s) (quit : Bool) {nesting : ℕ} (hle : nesting ≤ s.nesting) :
    Accounted { s with nesting := nesting, quit := quit } :=
  ⟨h.ids, h.others, h.ordered, h.direct, h.late, h.loopThread, h.holds, h.pushing, h.own, h.walk, h.still,
    fun hpc => ⟨(h.cleared hpc).1, Nat.le_zero.mp (hle.trans (h.cleared hpc).2.le)⟩⟩

theorem not_cleared (h : Accounted s) (hnesting : 0 < s.nesting) : s.pc ≠ .cleared := by
  intro hpc
  rw [(h.cleared hpc).2] at hnesting
  exact absurd hnesting (lt_irrefl 0)

theorem runInLoop (h : Accounted s) (hnesting : 0 < s.nesting) :
    Accounted { s with posted := s.posted ++ [call s s.threadId .direct]
                       executed := s.executed ++ [call s s.threadId .direct]
                       nesting := s.nesting + 1 } := by
  have hway : (call s s.threadId .direct).way ≠ .pending := by
    simp [call]
  refine ⟨map_id_append h.ids _ _, h.others_append (.inl rfl), fun t => ?_, fun t => ?_, ?_,
    h.loopThread, h.holds, h.pushing, h.own, h.walk, h.still, fun hpc => absurd hpc (h.not_cleared hnesting)⟩
  · rw [handed_append, handed_append, handed_of_way_ne hway, List.append_nil, List.append_nil]
    exact h.ordered t
  · rw [handed_append, handed_append, h.direct]
  · intro f hf
    rcases List.mem_append.mp hf with hf | hf
    · exact h.late f hf
    · cases List.mem_singleton.mp hf
      simp [call]

theorem ne_threadId (h : Accounted s) (hp : s.poster t ≠ .idle) : t ≠ s.threadId := by
  intro ht
  rw [ht] at hp
  exact hp h.loopThread

theorem not_holds (h : Accounted s) (howner : s.owner ≠ some s.threadId) : s.pc.holds = false := by
  by_contra hholds
  exact howner (h.holds.mpr (by simpa using hholds))

theorem ordered_update (h : Accounted s) {p : Poster}
    (hp : p.inFlight = (s.poster t).inFlight) (u : ℤ) :
    handed u .pending s.posted = handed u .pending s.executed ++ handed u .pending (waiting s) ++
      handed u .pending (Function.update s.poster t p u).inFlight := by
  rw [h.ordered u]
  by_cases hu : u = t
  · subst hu
    rw [Function.update_self, hp]
  · rw [Function.update_of_ne hu]

theorem pushing_update_idle (h : Accounted s) {p : Poster} (hp : ∀ f wake, p ≠ .pushing f wake)
    (u : ℤ) (f : Functor) (wake : Bool) (hu : Function.update s.poster t p u = .pushing f wake) :
    s.owner = some u := by
  by_cases hut : u = t
  · subst hut
    rw [Function.update_self] at hu
    exact absurd hu (hp f wake)
  · rw [Function.update_of_ne hut] at hu
    exact h.pushing u f wake hu

private theorem posters (h : Accounted s) (ht : t ≠ s.threadId) {p : Poster}
    (hp : ∀ f ∈ p.inFlight, f.tid = t ∧ f.way = .pending) :
    Function.update s.poster t p s.threadId = .idle ∧
      ∀ u, ∀ f ∈ (Function.update s.poster t p u).inFlight, f.tid = u ∧ f.way = .pending := by
  constructor
  · rw [Function.update_of_ne (Ne.symm ht)]
    exact h.loopThread
  · intro u f hf
    by_cases hu : u = t
    · subst hu
      rw [Function.update_self] at hf
      exact hp f hf
    · rw [Function.update_of_ne hu] at hf
      exact h.own u f hf

private theorem pushing_update (h : Accounted s) {p : Poster} {owner : Option ℤ}
    (hothers : ∀ u, u ≠ t → s.owner ≠ some u) (hp : ∀ f wake, p = .pushing f wake → owner = some t) :
    ∀ u f wake, Function.update s.poster t p u = .pushing f wake → owner = some u := by
  intro u f wake hu
  by_cases hut : u = t
  · subst hut
    rw [Function.update_self] at hu
    exact hp f wake hu
  · rw [Function.update_of_ne hut] at hu
    exact absurd (h.pushing u f wake hu) (hothers u hut)

theorem post (h : Accounted s) {wake : Bool} (ht : t ≠ s.threadId) (hidle : s.poster t = .idle) :
    Accounted { setPoster s t (.locking (call s t .pending) wake) with
      posted := s.posted ++ [call s t .pending] } := by
  obtain ⟨hloop, hown⟩ := h.posters ht (p := .locking (call s t .pending) wake) (by
    intro f hf
    cases List.mem_singleton.mp hf
    exact ⟨rfl, rfl⟩)
  refine ⟨map_id_append h.ids _ _, h.others_append (.inr rfl), fun u => ?_, fun u => ?_, h.late,
    hloop, h.holds, ?_, hown, h.walk, h.still, h.cleared⟩
  · have hordered := h.ordered u
    by_cases hu : u = t
    · subst hu
      rw [hidle, Poster.inFlight, handed_nil, List.append_nil] at hordered
      rw [handed_append, hordered]
      simp only [setPoster, Function.update_self]
      rfl
    · rw [handed_append, handed_of_tid_ne (Ne.symm hu), List.append_nil, hordered]
      simp only [setPoster, Function.update_of_ne hu]
      rfl
  · rw [handed_append, handed_of_way_ne (by simp [call]), List.append_nil]
    exact h.direct u
  · exact h.pushing_update_idle fun _ _ hpush => by cases hpush

theorem lock (h : Accounted s) {wake : Bool} (hp : s.poster t = .locking f wake)
    (howner : s.owner = none) :
    Accounted { setPoster s t (.pushing f wake) with owner := some t } := by
  have ht : t ≠ s.threadId := h.ne_threadId (by rw [hp]; exact nofun)
  have hfree : s.pc.holds = false := h.not_holds (by rw [howner]; exact nofun)
  obtain ⟨hloop, hown⟩ := h.posters ht (p := .pushing f wake) (by
    have hf := h.own t
    rwa [hp] at hf)
  refine ⟨h.ids, h.others, h.ordered_update (by rw [hp]; rfl), h.direct, h.late, hloop, ?_, ?_,
    hown, h.walk, h.still, h.cleared⟩
  · simp only [setPoster, hfree, Option.some.injEq, Bool.false_eq_true, iff_false]
    exact ht
  · apply h.pushing_update
    · intro u _
      rw [howner]
      exact nofun
    · exact fun _ _ _ => rfl

theorem waiting_emplaceBack (h : Accounted s) (f : Functor) (room : ℕ) :
    waiting (emplaceBack s f room) = waiting s ++ [f] := by
  cases hpc : s.pc with
  | walking next stop =>
    obtain ⟨hnext, hstop, -⟩ := h.walk next stop hpc
    simp only [waiting, emplaceBack, hpc]
    exact List.drop_append_of_le_length (hnext.trans hstop)
  | outside | testing | polling | handling _ | locking | cleared =>
    simp only [waiting, emplaceBack, hpc]

theorem pushing_free (h : Accounted s) {wake : Bool} (hp : s.poster t = .pushing f wake) :
    t ≠ s.threadId ∧ s.pc.holds = false ∧ ∀ u, u ≠ t → s.owner ≠ some u := by
  have ht : t ≠ s.threadId := h.ne_threadId (by rw [hp]; exact nofun)
  have howner := h.pushing t f wake hp
  refine ⟨ht, h.not_holds ?_, fun u hu => ?_⟩
  · rw [howner]
    intro heq
    cases heq
    exact ht rfl
  · rw [howner]
    intro heq
    cases heq
    exact hu rfl

theorem push (h : Accounted s) {wake : Bool} (hp : s.poster t = .pushing f wake) (room : ℕ) :
    Accounted { emplaceBack (setPoster s t (if wake then .waking else .idle)) f room with
      owner := none } := by
  obtain ⟨ht, hfree, hothers⟩ := h.pushing_free hp
  obtain ⟨htid, hway⟩ := h.own t f (by rw [hp]; exact List.mem_singleton.mpr rfl)
  have hgone : (if wake then Poster.waking else .idle).inFlight = [] := by
    split_ifs
    · rfl
    · rfl
  obtain ⟨hloop, hown⟩ := h.posters ht (p := if wake then .waking else .idle) (by
    rw [hgone]
    exact fun _ hf => absurd hf List.not_mem_nil)
  have hwalk := ne_walking_of_not_holds hfree
  refine ⟨h.ids, h.others, fun u => ?_, h.direct, h.late, hloop, ?_, ?_, hown,
    fun next stop hpc => absurd hpc (hwalk next stop), fun hholds g hg => ?_, fun hpc => ?_⟩
  · have hordered : handed u .pending s.posted = handed u .pending s.executed ++
        handed u .pending (waiting s ++ [f]) ++ handed u .pending (Function.update s.poster t
          (if wake then .waking else .idle) u).inFlight := by
      rw [h.ordered u, handed_append]
      by_cases hu : u = t
      · subst hu
        rw [Function.update_self, hgone, hp, Poster.inFlight, handed_self htid hway, handed_nil,
          List.append_nil, List.append_assoc]
      · rw [Function.update_of_ne hu, handed_of_tid_ne (by rw [htid]; exact Ne.symm hu),
          List.append_nil]
    rw [← h.waiting_emplaceBack f room] at hordered
    exact hordered
  · simp only [emplaceBack, setPoster, hfree]
    simp
  · apply h.pushing_update hothers
    intro g w hw
    split_ifs at hw
  · rcases List.mem_append.mp hg with hg | hg
    · exact h.still hfree g hg
    · cases List.mem_singleton.mp hg
      exact hway
  · rw [show s.pc = .cleared from hpc] at hfree
    cases hfree

theorem wake (h : Accounted s) (hp : s.poster t = .waking) (wakeup : ℕ) :
    Accounted { setPoster s t .idle with wakeup := wakeup } := by
  have ht : t ≠ s.threadId := h.ne_threadId (by rw [hp]; exact nofun)
  obtain ⟨hloop, hown⟩ := h.posters ht (p := .idle) fun _ hf => absurd hf List.not_mem_nil
  exact ⟨h.ids, h.others, h.ordered_update (by rw [hp]; rfl), h.direct, h.late, hloop, h.holds,
    h.pushing_update_idle (fun _ _ hpush => by cases hpush), hown, h.walk, h.still, h.cleared⟩

theorem pushOwn (h : Accounted s) (howner : s.owner = none) (room : ℕ) :
    Accounted (emplaceBack { s with posted := s.posted ++ [call s s.threadId .pending] }
      (call s s.threadId .pending) room) := by
  have hfree : s.pc.holds = false := h.not_holds (by rw [howner]; exact nofun)
  have hwalk := ne_walking_of_not_holds hfree
  refine ⟨map_id_append h.ids _ _, h.others_append (.inl rfl), fun u => ?_, fun u => ?_, h.late,
    h.loopThread, h.holds, h.pushing, h.own, fun next stop hpc => absurd hpc (hwalk next stop),
    fun _ f hf => ?_, fun hpc => ?_⟩
  · have hordered : handed u .pending (s.posted ++ [call s s.threadId .pending]) =
        handed u .pending s.executed ++
        handed u .pending (waiting s ++ [call s s.threadId .pending]) ++
        handed u .pending (s.poster u).inFlight := by
      rw [handed_append, handed_append, h.ordered u]
      by_cases hu : u = s.threadId
      · rw [hu, h.loopThread, Poster.inFlight, handed_nil, List.append_nil, List.append_nil,
          List.append_assoc]
      · rw [handed_of_tid_ne (Ne.symm hu), List.append_nil, List.append_nil]
    rw [← h.waiting_emplaceBack (call s s.threadId .pending) room] at hordered
    exact hordered
  · rw [emplaceBack, handed_append, handed_of_way_ne (by simp [call]), List.append_nil]
    exact h.direct u
  · rcases List.mem_append.mp hf with hf | hf
    · exact h.still hfree f hf
    · cases List.mem_singleton.mp hf
      rfl
  · rw [show s.pc = .cleared from hpc] at hfree
    cases hfree

/-- A functor of the walk calls `addPending`: the new functor stands behind the end that the
range-for has taken. -/
theorem pushDuring (h : Accounted s) (hnesting : 0 < s.nesting)
    (howner : s.owner = some s.threadId) (room : ℕ) :
    Accounted (emplaceBack { s with posted := s.posted ++ [call s s.threadId .during] }
      (call s s.threadId .during) room) := by
  have hlate : (call s s.threadId .during).way = .during := rfl
  have hholds := h.holds.mp howner
  refine ⟨map_id_append h.ids _ _, h.others_append (.inl rfl), fun u => ?_, fun u => ?_, h.late,
    h.loopThread, h.holds, h.pushing, h.own, fun next stop hpc => ?_, fun hfree => ?_,
    fun hpc => ?_⟩
  · have hordered : handed u .pending (s.posted ++ [call s s.threadId .during]) =
        handed u .pending s.executed ++
        handed u .pending (waiting s ++ [call s s.threadId .during]) ++
        handed u .pending (s.poster u).inFlight := by
      rw [handed_append, handed_append, handed_of_way_ne (by rw [hlate]; decide), List.append_nil,
        List.append_nil]
      exact h.ordered u
    rw [← h.waiting_emplaceBack (call s s.threadId .during) room] at hordered
    exact hordered
  · rw [emplaceBack, handed_append, handed_of_way_ne (by rw [hlate]; decide), List.append_nil]
    exact h.direct u
  · obtain ⟨hnext, hstop, hbefore, hbehind⟩ := h.walk next stop hpc
    simp only [emplaceBack, List.length_append, List.length_singleton]
    rw [List.take_append_of_le_length hstop, List.drop_append_of_le_length hstop]
    refine ⟨hnext, by omega, hbefore, fun f hf => ?_⟩
    rcases List.mem_append.mp hf with hf | hf
    · exact hbehind f hf
    · cases List.mem_singleton.mp hf
      rfl
  · rw [show s.pc.holds = false from hfree] at hholds
    cases hholds
  · exact absurd hpc (h.not_cleared hnesting)

theorem not_pushing (h : Accounted s) (howner : ∀ t, s.owner = some t → t = s.threadId) (t : ℤ)
    (f : Functor) (wake : Bool) : s.poster t ≠ .pushing f wake := by
  intro hp
  have ht := howner t (h.pushing t f wake hp)
  exact (h.pushing_free hp).1 ht

/-- `doPending` gets the mutex: the range-for takes its end. -/
theorem lockPending (h : Accounted s) (hpc : s.pc = .locking) (howner : s.owner = none) :
    Accounted { s with pc := .walking 0 s.pending.length, owner := some s.threadId } := by
  have hnone := h.not_pushing (by rw [howner]; exact nofun)
  have hstill := h.still (by rw [hpc]; rfl)
  have hwaiting : waiting s = s.pending := by
    unfold waiting
    rw [hpc]
  refine ⟨h.ids, h.others, fun u => ?_, h.direct, h.late, h.loopThread, ?_,
    fun t f wake hp => absurd hp (hnone t f wake), h.own, fun next stop hwalk => ?_, ?_, ?_⟩
  · have hordered := h.ordered u
    rw [hwaiting] at hordered
    exact hordered
  · simp only [Pc.holds]
  · cases hwalk
    rw [List.take_length, List.drop_length]
    exact ⟨Nat.zero_le _, le_rfl, hstill, fun _ hf => absurd hf List.not_mem_nil⟩
  · intro hholds
    cases hholds
  · intro hcleared
    cases hcleared

theorem next (h : Accounted s) {next stop : ℕ} (hpc : s.pc = .walking next stop)
    (hnext : next < stop) (hf : s.pending[next]? = some f) :
    Accounted { s with pc := .walking (next + 1) stop, executed := s.executed ++ [f],
                       nesting := 1 } := by
  obtain ⟨-, hstop, hbefore, hbehind⟩ := h.walk next stop hpc
  obtain ⟨hlt, hget⟩ := List.getElem?_eq_some_iff.mp hf
  have hway : f.way = .pending := by
    apply hbefore
    rw [← hget]
    exact List.mem_take_iff_getElem.mpr ⟨next, by omega, rfl⟩
  have hwaiting : waiting s = f :: s.pending.drop (next + 1) := by
    rw [waiting_walking hpc, List.drop_eq_getElem_cons hlt, hget]
  refine ⟨h.ids, h.others, fun u => ?_, fun u => ?_, fun g hg => ?_, h.loopThread, ?_, h.pushing, h.own,
    fun n m hwalk => ?_, ?_, ?_⟩
  · have hordered := h.ordered u
    rw [hwaiting, ← List.singleton_append, handed_append] at hordered
    rw [handed_append, List.append_assoc (handed u .pending s.executed)]
    exact hordered
  · rw [handed_append, handed_of_way_ne (by rw [hway]; decide), List.append_nil]
    exact h.direct u
  · rcases List.mem_append.mp hg with hg | hg
    · exact h.late g hg
    · cases List.mem_singleton.mp hg
      rw [hway]
      decide
  · rw [h.holds, hpc]
    simp only [Pc.holds]
  · cases hwalk
    exact ⟨hnext, hstop, hbefore, hbehind⟩
  · intro hholds
    cases hholds
  · intro hcleared
    cases hcleared

/-- `m_pending.clear()`: only functors that were pushed during the walk have not been
executed. -/
theorem clear (h : Accounted s) {stop : ℕ} (hpc : s.pc = .walking stop stop)
    (hnesting : s.nesting = 0) : Accounted { s with pc := .cleared, pending := [] } := by
  obtain ⟨-, -, -, hbehind⟩ := h.walk stop stop hpc
  refine ⟨h.ids, h.others, fun u => ?_, h.direct, h.late, h.loopThread, ?_, h.pushing, h.own, ?_, ?_,
    fun _ => ⟨rfl, hnesting⟩⟩
  · have hwaiting : handed u .pending (waiting s) = [] := by
      apply handed_eq_nil
      intro f hf
      rw [waiting_walking hpc] at hf
      rw [hbehind f hf]
      decide
    have hordered := h.ordered u
    rw [hwaiting] at hordered
    exact hordered
  · rw [h.holds, hpc]
    simp only [Pc.holds]
  · intro n m hwalk
    cases hwalk
  · intro _ f hf
    exact absurd hf List.not_mem_nil

theorem unlock (h : Accounted s) (hpc : s.pc = .cleared) :
    Accounted { s with pc := .testing, owner := none } := by
  have howner : s.owner = some s.threadId := h.holds.mpr (by rw [hpc]; rfl)
  have hnone := h.not_pushing (by
    intro t ht
    rw [howner] at ht
    cases ht
    rfl)
  obtain ⟨hpending, -⟩ := h.cleared hpc
  have hwaiting : waiting s = s.pending := by
    unfold waiting
    rw [hpc]
  refine ⟨h.ids, h.others, fun u => ?_, h.direct, h.late, h.loopThread, ?_,
    fun t f wake hp => absurd hp (hnone t f wake), h.own, ?_, ?_, ?_⟩
  · have hordered := h.ordered u
    rw [hwaiting] at hordered
    exact hordered
  · simp [Pc.holds]
  · intro n m hwalk
    cases hwalk
  · intro _ f hf
    rw [show ({ s with pc := .testing, owner := none } : EventLoop).pending = [] from hpending] at hf
    cases hf
  · intro hcleared
    cases hcleared

theorem of_move {l : Label} (h : Accounted s) (hm : Move s l s') : Accounted s' := by
  cases hm with
  | runInLoop hnesting => exact h.runInLoop hnesting
  | post hl ht hidle => exact h.post ht hidle
  | pushOwn hnesting howner => exact h.pushOwn howner _
  | pushDuring hnesting howner => exact h.pushDuring hnesting howner _
  | lock hp howner => exact h.lock hp howner
  | push hp => exact h.push hp _
  | wake hp => exact h.wake hp _
  | ret => exact h.local_step s.quit (Nat.sub_le _ _)
  | quit => exact h.local_step true le_rfl
  | loop hpc => exact h.move _ (by rw [hpc]; rfl) rfl _ _
  | leave hpc => exact h.move _ (by rw [hpc]; rfl) rfl _ _
  | goOn hpc => exact h.move _ (by rw [hpc]; rfl) rfl _ _
  | poll hpc hsome hread => exact h.move _ (by rw [hpc]; rfl) rfl _ _
  | handleEvent hpc hnesting => exact h.move s.pc (by rw [hpc]; rfl) (by rw [hpc]; rfl) _ _
  | handleWakeup hpc hnesting => exact h.move _ (by rw [hpc]; rfl) rfl _ _
  | handled hpc hnesting => exact h.move _ (by rw [hpc]; rfl) rfl _ _
  | lockPending hpc howner => exact h.lockPending hpc howner
  | next hpc hn hnesting hf => exact h.next hpc hn hf
  | clear hpc hnesting => exact h.clear hpc hnesting
  | unlock hpc => exact h.unlock hpc

theorem step {l : Label} (h : Accounted s) (hs : PendingFunctors.step s l = some s') :
    Accounted s' :=
  h.of_move (move_of_step hs)

theorem nodup_posted (h : Accounted s) : s.posted.Nodup := by
  apply List.Nodup.of_map Functor.id
  rw [h.ids]
  exact List.nodup_range

theorem handed_executed (h : Accounted s) (hf : f ∈ s.executed) :
    handed f.tid f.way s.executed <+: handed f.tid f.way s.posted := by
  cases hway : f.way with
  | pending =>
    rw [h.ordered, List.append_assoc]
    exact List.prefix_append _ _
  | direct => exact ⟨[], by rw [List.append_nil, h.direct]⟩
  | during => exact absurd hway (h.late f hf)

theorem mem_handed (hf : f ∈ l) : f ∈ handed f.tid f.way l :=
  List.mem_filter.mpr ⟨hf, by simp⟩

theorem exactlyOnce (h : Accounted s) : ExactlyOnce s where
  once := by
    apply List.nodup_iff_count_le_one.mpr
    intro f
    by_cases hf : f ∈ s.executed
    · have hcount : ∀ l : List Functor, (handed f.tid f.way l).count f = l.count f :=
        fun l => List.count_filter (by simp)
      rw [← hcount]
      calc (handed f.tid f.way s.executed).count f
          ≤ (handed f.tid f.way s.posted).count f := (h.handed_executed hf).sublist.count_le f
        _ = s.posted.count f := hcount s.posted
        _ ≤ 1 := List.nodup_iff_count_le_one.mp h.nodup_posted f
    · rw [List.count_eq_zero_of_not_mem hf]
      exact Nat.zero_le 1
  known f hf := List.mem_of_mem_filter ((h.handed_executed hf).subset (mem_handed hf))
  others := h.others
  ordered := h.ordered
  direct := h.direct
  goesOn next stop hpc hnesting := by
    obtain ⟨hnext, hstop, -⟩ := h.walk next stop hpc
    rcases hnext.lt_or_eq with hlt | heq
    · left
      have hget : s.pending[next]? = some s.pending[next] := List.getElem?_eq_getElem (by omega)
      simp only [PendingFunctors.step, hpc, hget, if_pos (And.intro hlt hnesting)]
      rfl
    · right
      simp only [PendingFunctors.step, hpc, if_pos (And.intro heq hnesting)]
      rfl
  drained hpc := by
    rw [waiting_of_not_walking (fun next stop hwalk => by rw [hpc] at hwalk; cases hwalk)]
    exact (h.cleared hpc).1

end Accounted

/-- In every run of the loop with any posting threads, a functor that has been handed over
otherwise than by the loop thread during the walk is executed exactly once and in order. -/
theorem functors_exactly_once (threadId : ℤ) {ls : List Label}
    (hr : run step (start threadId) ls = some s) : ExactlyOnce s := by
  have hstep : ∀ (u : EventLoop) l u', Accounted u → step u l = some u' → Accounted u' :=
    fun _ _ _ hu hs => hu.step hs
  exact (run_invariant hstep (accounted_start threadId) hr).exactlyOnce

/-- Two threads post, and a functor calls `runInLoop` on the loop thread. -/
theorem functors_exactly_once_nested :
    ∃ s, run step (start 1)
        [.loop, .test, .runInLoop 2, .runInLoop 3, .lock 3, .push 3 0, .lock 2, .wake 3,
          .poll true false, .push 2 0, .handleWakeup, .wake 2, .handleEvent, .addPending 1 0, .ret,
          .handled, .lockPending, .next, .runInLoop 1, .addPending 2 0, .ret, .ret, .next, .ret,
          .next, .ret, .clear] = some s ∧
      s.executed = [⟨1, 3, .pending⟩, ⟨3, 1, .direct⟩, ⟨0, 2, .pending⟩, ⟨2, 1, .pending⟩] ∧
      s.poster 2 = .locking ⟨4, 2, .pending⟩ false ∧ ExactlyOnce s := by
  obtain ⟨s, hs⟩ : ∃ s, run step (start 1)
      [.loop, .test, .runInLoop 2, .runInLoop 3, .lock 3, .push 3 0, .lock 2, .wake 3,
        .poll true false, .push 2 0, .handleWakeup, .wake 2, .handleEvent, .addPending 1 0, .ret,
        .handled, .lockPending, .next, .runInLoop 1, .addPending 2 0, .ret, .ret, .next, .ret,
        .next, .ret, .clear] = some s := ⟨_, rfl⟩
  refine ⟨s, hs, ?_, ?_, functors_exactly_once 1 hs⟩
  · cases hs
    rfl
  · cases hs
    rfl

/-- On the loop thread `runInLoop` overtakes an earlier `addPending`; and a functor that is pushed
during the walk, into a vector that has room for it, is dropped. -/
theorem functors_overtaken_and_dropped :
    (∃ s, run step (start 1)
        [.addPending 1 0, .runInLoop 1, .ret, .loop, .test, .poll false true, .handled,
          .lockPending, .next, .ret, .clear, .unlock] = some s ∧
      s.posted = [⟨0, 1, .pending⟩, ⟨1, 1, .direct⟩] ∧
      s.executed = [⟨1, 1, .direct⟩, ⟨0, 1, .pending⟩]) ∧
    ∃ s, run step (start 1)
        [.loop, .test, .runInLoop 2, .lock 2, .push 2 0, .wake 2, .runInLoop 2, .lock 2, .push 2 0,
          .wake 2, .poll true false, .handleWakeup, .handled, .lockPending, .next, .ret, .next, .ret,
          .clear, .unlock, .test, .runInLoop 2, .lock 2, .push 2 0, .wake 2, .poll true false,
          .handleWakeup, .handled, .lockPending, .next, .addPending 1 0, .ret, .clear,
          .unlock] = some s ∧
      ⟨3, 1, .during⟩ ∈ s.posted ∧ ⟨3, 1, .during⟩ ∉ s.executed ∧ s.pending = [] ∧
      s.poster 1 = .idle ∧ s.poster 2 = .idle := by
  constructor
  · obtain ⟨s, hs⟩ : ∃ s, run step (start 1)
        [.addPending 1 0, .runInLoop 1, .ret, .loop, .test, .poll false true, .handled,
          .lockPending, .next, .ret, .clear, .unlock] = some s := ⟨_, rfl⟩
    refine ⟨s, hs, ?_, ?_⟩
    · cases hs
      rfl
    · cases hs
      rfl
  · obtain ⟨s, hs⟩ : ∃ s, run step (start 1)
        [.loop, .test, .runInLoop 2, .lock 2, .push 2 0, .wake 2, .runInLoop 2, .lock 2, .push 2 0,
          .wake 2, .poll true false, .handleWakeup, .handled, .lockPending, .next, .ret, .next, .ret,
          .clear, .unlock, .test, .runInLoop 2, .lock 2, .push 2 0, .wake 2, .poll true false,
          .handleWakeup, .handled, .lockPending, .next, .addPending 1 0, .ret, .clear,
          .unlock] = some s := ⟨_, rfl⟩
    have hposted : s.posted = [⟨0, 2, .pending⟩, ⟨1, 2, .pending⟩, ⟨2, 2, .pending⟩,
        ⟨3, 1, .during⟩] := by
      cases hs
      rfl
    have hexecuted : s.executed = [⟨0, 2, .pending⟩, ⟨1, 2, .pending⟩, ⟨2, 2, .pending⟩] := by
      cases hs
      rfl
    refine ⟨s, hs, ?_, ?_, ?_, ?_, ?_⟩
    · rw [hposted]
      decide
    · rw [hexecuted]
      decide
    all_goals
      cases hs
      rfl

end GenericServer.PendingFunctors
