import GenericServer.TransitionRuns
import Mathlib.Algebra.Group.Nat.Defs
import Mathlib.Data.Finset.Card

/-!
# Batches of events

`EPollPoller::poll` (`src/reactor/EPollPoller.cpp`). `::epoll_wait` fills an array, which is
doubled when it has been filled, and is free to leave out any of the ready descriptors where there
are more of them. A handler may make descriptors ready or not.
-/
namespace GenericServer.PollBatches

open TransitionRuns

/-- One entry of `m_events`: the `Event` of `data.ptr`, and `events`. -/
structure EpollEvent where
  ptr : ℕ
  events : ℕ
  deriving DecidableEq, Repr

/-- `size` is `m_events.size()`, and `revents` has `m_revents` of every `Event`. -/
structure EPollPoller where
  size : ℕ
  revents : ℕ → ℕ
  activeEvents : List ℕ

def INITIAL_SIZE : ℕ := 16

def new : EPollPoller := ⟨INITIAL_SIZE, fun _ => 0, []⟩

/-- `poll` with cleared `activeEvents`, when `::epoll_wait` has stored `events`, or none since it
has been interrupted. -/
def poll (p : EPollPoller) (events : List EpollEvent) : EPollPoller :=
  if 0 < events.length then
    { size := if events.length = p.size then 2 * p.size else p.size
      revents := events.foldl (fun r e => Function.update r e.ptr e.events) p.revents
      activeEvents := events.map EpollEvent.ptr }
  else { p with activeEvents := [] }

/-- What `::epoll_wait` has found ready, and what it has reported. -/
structure Wait where
  ready : Finset ℕ
  events : List EpollEvent

/-- As many descriptors as there is room for, each of them once. -/
structure Wait.Possible (w : Wait) (size : ℕ) : Prop where
  nonempty : w.ready.Nonempty
  nodup : (w.events.map EpollEvent.ptr).Nodup
  ready : ∀ e ∈ w.events, e.ptr ∈ w.ready
  length : w.events.length = min size w.ready.card

/-- The descriptor was ready and was not reported. -/
def Wait.leavesOut (w : Wait) (ptr : ℕ) : Bool :=
  ptr ∈ w.ready ∧ ptr ∉ w.events.map EpollEvent.ptr

instance (w : Wait) (size : ℕ) : Decidable (w.Possible size) :=
  decidable_of_iff (w.ready.Nonempty ∧ (w.events.map EpollEvent.ptr).Nodup ∧
      (∀ e ∈ w.events, e.ptr ∈ w.ready) ∧ w.events.length = min size w.ready.card)
    ⟨fun h => ⟨h.1, h.2.1, h.2.2.1, h.2.2.2⟩, fun h => ⟨h.nonempty, h.nodup, h.ready, h.length⟩⟩

/-- A poller with what has been reported to it so far. -/
structure Session where
  poller : EPollPoller
  waits : List Wait

def start : Session := ⟨new, []⟩

/-- A wait that has been interrupted is `none`. -/
def step (s : Session) : Option Wait → Option Session
  | none => some { s with poller := poll s.poller [] }
  | some w =>
    if w.Possible s.poller.size then some ⟨poll s.poller w.events, s.waits ++ [w]⟩ else none

variable {s s' : Session} {w : Wait} {R k : ℕ}

theorem size_lt_of_leavesOut {size ptr : ℕ} (h : w.Possible size)
    (hout : w.leavesOut ptr = true) : w.events.length = size ∧ size < w.ready.card := by
  obtain ⟨hready, hreported⟩ := of_decide_eq_true hout
  have hsubset : (w.events.map EpollEvent.ptr).toFinset ⊂ w.ready := by
    refine Finset.ssubset_iff_of_subset (fun x hx => ?_) |>.mpr ⟨ptr, hready, ?_⟩
    · obtain ⟨e, he, rfl⟩ := List.mem_map.mp (List.mem_toFinset.mp hx)
      exact h.ready e he
    · rwa [List.mem_toFinset]
  have hcard := Finset.card_lt_card hsubset
  rw [List.toFinset_card_of_nodup h.nodup, List.length_map, h.length] at hcard
  have hlength := h.length
  omega

/-- Each wait that leaves the descriptor out has doubled the array. -/
structure Grown (R k ptr : ℕ) (s : Session) : Prop where
  doubled : INITIAL_SIZE * 2 ^ s.waits.countP (·.leavesOut ptr) ≤ s.poller.size
  bounded : s.poller.size ≤ max INITIAL_SIZE (2 * R)
  served : s.waits.countP (·.leavesOut ptr) ≤ k

theorem size_poll (p : EPollPoller) (hsize : 0 < p.size) (events : List EpollEvent) :
    (poll p events).size = if events.length = p.size then 2 * p.size else p.size := by
  unfold poll
  split_ifs with hpos hfull hfull
  · rfl
  · rfl
  · omega
  · rfl

theorem Grown.wait {ptr : ℕ} (hk : R ≤ INITIAL_SIZE * 2 ^ k) (h : Grown R k ptr s)
    (hw : w.Possible s.poller.size) (hcard : w.ready.card ≤ R) :
    Grown R k ptr ⟨poll s.poller w.events, s.waits ++ [w]⟩ := by
  have hdoubled := h.doubled
  have hbounded := h.bounded
  have hlength := hw.length
  have hpos : 0 < s.poller.size := by
    have hone := Nat.one_le_two_pow (n := s.waits.countP (·.leavesOut ptr))
    rw [INITIAL_SIZE] at hdoubled
    omega
  have hsize := size_poll s.poller hpos w.events
  have hnext : (poll s.poller w.events).size ≤ max INITIAL_SIZE (2 * R) := by
    rw [hsize]
    split_ifs <;> omega
  have hcount : (s.waits ++ [w]).countP (·.leavesOut ptr) =
      s.waits.countP (·.leavesOut ptr) + if w.leavesOut ptr then 1 else 0 := by
    rw [List.countP_append, List.countP_singleton]
  by_cases hout : w.leavesOut ptr = true
  · obtain ⟨hfull, hlt⟩ := size_lt_of_leavesOut hw hout
    rw [if_pos hout] at hcount
    rw [if_pos hfull] at hsize
    refine ⟨?_, hnext, ?_⟩
    · rw [INITIAL_SIZE] at hdoubled ⊢
      simp only [hcount, hsize, Nat.pow_succ]
      omega
    · rw [hcount]
      have hpow : 2 ^ s.waits.countP (·.leavesOut ptr) < 2 ^ k := by
        rw [INITIAL_SIZE] at hdoubled hk
        omega
      exact (Nat.pow_lt_pow_iff_right (by decide)).mp hpow
  · rw [if_neg hout, Nat.add_zero] at hcount
    refine ⟨?_, hnext, ?_⟩
    · simp only [hcount, hsize]
      split_ifs <;> omega
    · rw [hcount]
      exact h.served

theorem Grown.step {ptr : ℕ} (hk : R ≤ INITIAL_SIZE * 2 ^ k) {l : Option Wait}
    (h : (∀ w ∈ s.waits, w.ready.card ≤ R) → Grown R k ptr s)
    (hs : PollBatches.step s l = some s') :
    (∀ w ∈ s'.waits, w.ready.card ≤ R) → Grown R k ptr s' := by
  cases l with
  | none =>
    cases hs
    intro hR
    have hold := h hR
    exact ⟨hold.doubled, hold.bounded, hold.served⟩
  | some w =>
    simp only [PollBatches.step] at hs
    split_ifs at hs with hw
    cases hs
    intro hR
    exact (h fun v hv => hR v (List.mem_append_left _ hv)).wait hk hw
      (hR w (List.mem_append_right _ (List.mem_singleton_self _)))

/-- While there are never more than `16 * 2 ^ k` descriptors ready at once, no descriptor that is
ready is left out more than `k` times in the whole life of the poller, whatever `::epoll_wait`
leaves out; and the array does not outgrow twice the number of descriptors. -/
theorem left_out_le (hk : R ≤ INITIAL_SIZE * 2 ^ k) {ls : List (Option Wait)}
    (hr : run step start ls = some s) (hR : ∀ w ∈ s.waits, w.ready.card ≤ R) :
    s.poller.size ≤ max INITIAL_SIZE (2 * R) ∧
      ∀ ptr, s.waits.countP (·.leavesOut ptr) ≤ k := by
  have hgrown : ∀ ptr, Grown R k ptr s := by
    intro ptr
    have hstep : ∀ (t : Session) (l : Option Wait) t',
        ((∀ w ∈ t.waits, w.ready.card ≤ R) → Grown R k ptr t) → step t l = some t' →
        (∀ w ∈ t'.waits, w.ready.card ≤ R) → Grown R k ptr t' :=
      fun _ _ _ ht hs => Grown.step hk ht hs
    have hstart : (∀ w ∈ start.waits, w.ready.card ≤ R) → Grown R k ptr start :=
      fun _ => ⟨le_refl _, Nat.le_max_left _ _, Nat.zero_le _⟩
    exact run_invariant hstep hstart hr hR
  exact ⟨(hgrown 0).bounded, fun ptr => (hgrown ptr).served⟩

/-- Seventeen descriptors are ready: the first wait leaves one of them out, the second one finds a
larger array. -/
theorem left_out_seventeen :
    let ready := Finset.range 17
    let ls := [some ⟨ready, (List.range 16).map fun i => ⟨i, 1⟩⟩, none,
      some ⟨ready, (List.range 17).map fun i => ⟨i, 1⟩⟩]
    ∃ s, run step start ls = some s ∧ s.poller.size ≤ max INITIAL_SIZE (2 * 17) ∧
      ∀ ptr, s.waits.countP (·.leavesOut ptr) ≤ 1 := by
  intro ready ls
  obtain ⟨s, hs⟩ : ∃ s, run step start ls = some s := ⟨_, rfl⟩
  have hready : ∀ w ∈ s.waits, w.ready.card ≤ 17 := by
    cases hs
    decide
  exact ⟨s, hs, left_out_le (R := 17) (by decide) hs hready⟩

end GenericServer.PollBatches
