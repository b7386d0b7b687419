import GenericServer.FifoQueues
import GenericServer.RingBuffer
import GenericServer.TransitionRuns

/-!
# Sequences of calls on one ring against a first-in first-out queue
-/
namespace GenericServer.RingBuffer

open FifoQueues TransitionRuns

variable {β : Type*}

/-- One call. The caller's array holds at least `size` bytes. -/
inductive Call (β : Type*)
  | append (data : List β) (size : ℤ) (fits : size ≤ data.length)
  | retrive (size : ℤ)

/-- A ring with what its clients have seen: the accepted prefixes, the returned bytes,
and for every `append` its `size` and its result. -/
structure Session (β : Type*) where
  ring : RingBuffer β
  accepted : List β
  returned : List β
  results : List (ℤ × ℤ)

def start (size : ℤ) (garbage : ℤ → β) : Session β := ⟨new size garbage, [], [], []⟩

/-- Perform a call and record what the client sees. -/
def call (s : Session β) : Call β → Option (Session β)
  | .append data size _ => (s.ring.append data size).map fun (r, n) =>
      { s with ring := r, accepted := s.accepted ++ data.take n.toNat,
               results := s.results ++ [(size, n)] }
  | .retrive size => (s.ring.retrive size).map fun (r, _, buf) =>
      { s with ring := r, returned := s.returned ++ buf }

/-- The bytes that an unbounded `retrive` would return. -/
def content (r : RingBuffer β) : List β := (r.retrive r.mSize).elim [] (·.2.2)

/-- The calls behave as on a first-in first-out queue: none of them leaves the arrays or
copies a negative length, every result lies between 0 and `size`, the indices stay in
the ring, and what was returned and what is still stored make up what was accepted. -/
def RefinesFifo (size : ℤ) (garbage : ℤ → β) (calls : List (Call β)) : Prop :=
  ∃ s, run call (start size garbage) calls = some s ∧
    s.returned ++ content s.ring = s.accepted ∧
    (∀ p ∈ s.results, 0 ≤ p.2 ∧ p.2 ≤ max p.1 0) ∧
    (0 ≤ s.ring.mIn ∧ s.ring.mIn < size) ∧ 0 ≤ s.ring.mOut ∧ s.ring.mOut < size

/-- An `append` that finds the reader at index 0 asks for less than the distance from
the write index to the end of the ring. -/
def AppendFits (s : Session β) : Call β → Prop
  | .append _ size _ => s.ring.mOut = 0 → size < s.ring.mSize - s.ring.mIn
  | .retrive _ => True

theorem content_eq {r : RingBuffer β} {q : List β} (h : Represents r q) : content r = q := by
  have hsize := h.size
  have hroom := h.room
  obtain ⟨r', hr, -, -⟩ := retrive_spec h (show 0 < r.mSize by omega)
  rw [content, hr, Option.elim_some, List.take_of_length_le (by omega)]

/-- The session stores `q` in a ring of the given size, with sound results so far. -/
structure Sound (size : ℤ) (s : Session β) (q : List β) : Prop where
  represents : Represents s.ring q
  size_eq : s.ring.mSize = size
  results : ∀ p ∈ s.results, 0 ≤ p.2 ∧ p.2 ≤ max p.1 0

theorem sound_start {size : ℤ} (h : 2 ≤ size) (garbage : ℤ → β) :
    Sound size (start size garbage) [] :=
  ⟨represents_new h garbage, rfl, by simp [start]⟩

private theorem results_append {results : List (ℤ × ℤ)} {size n : ℤ}
    (h : ∀ p ∈ results, 0 ≤ p.2 ∧ p.2 ≤ max p.1 0) (h0 : 0 ≤ n) (hn : n ≤ max size 0) :
    ∀ p ∈ results ++ [(size, n)], 0 ≤ p.2 ∧ p.2 ≤ max p.1 0 := by
  intro p hp
  rcases List.mem_append.mp hp with hp | hp
  · exact h p hp
  · cases List.mem_singleton.mp hp
    exact ⟨h0, hn⟩

private theorem call_append {s : Session β} {data : List β} {n k : ℤ} {r : RingBuffer β}
    (fits : n ≤ data.length) (h : s.ring.append data n = some (r, k)) :
    call s (.append data n fits) = some
      { s with ring := r, accepted := s.accepted ++ data.take k.toNat,
               results := s.results ++ [(n, k)] } := by
  rw [call, h]
  rfl

private theorem call_retrive {s : Session β} {n k : ℤ} {r : RingBuffer β} {buf : List β}
    (h : s.ring.retrive n = some (r, k, buf)) :
    call s (.retrive n) = some { s with ring := r, returned := s.returned ++ buf } := by
  rw [call, h]
  rfl

/-- A call that meets the condition acts on the stored bytes as on a queue: it puts some
block behind them and takes some number of the oldest ones away. -/
theorem Sound.call {size : ℤ} {s : Session β} {q : List β} (h : Sound size s q)
    (c : Call β) (hfit : AppendFits s c) :
    ∃ s' xs k, RingBuffer.call s c = some s' ∧ Sound size s' ((q ++ xs).drop k) ∧
      s'.accepted = s.accepted ++ xs ∧ s'.returned = s.returned ++ (q ++ xs).take k := by
  cases c with
  | append data n fits =>
    by_cases hn : n ≤ 0
    · have happ : s.ring.append data n = some (s.ring, 0) := by simp [append, hn]
      refine ⟨_, [], 0, call_append fits happ, ⟨by simpa using h.represents, h.size_eq, ?_⟩,
        by simp, by simp⟩
      exact results_append h.results (le_refl _) (le_max_right _ _)
    · obtain ⟨r', hr, hm, hrep⟩ := append_spec h.represents (not_le.mp hn) fits hfit
      have hroom := h.represents.room
      have havail := h.represents.availSize_eq
      refine ⟨_, data.take (min n s.ring.availSize).toNat, 0, call_append fits hr,
        ⟨by simpa using hrep, hm.trans h.size_eq, ?_⟩, rfl, by simp⟩
      exact results_append h.results (by omega) (by omega)
  | retrive n =>
    by_cases hn : n ≤ 0
    · have hret : s.ring.retrive n = some (s.ring, 0, []) := by simp [retrive, hn]
      exact ⟨_, [], 0, call_retrive hret,
        ⟨by simpa using h.represents, h.size_eq, h.results⟩, by simp, by simp⟩
    · obtain ⟨r', hr, hm, hrep⟩ := retrive_spec h.represents (not_le.mp hn)
      exact ⟨_, [], n.toNat, call_retrive hr,
        ⟨by simpa using hrep, hm.trans h.size_eq, h.results⟩, by simp, by simp⟩

/-- A call that does not meet the condition fails or forgets everything that is stored,
together with the bytes it accepts. -/
theorem Sound.call_overflow {size : ℤ} {s s' : Session β} {q : List β} (h : Sound size s q)
    {c : Call β} (hfit : ¬ AppendFits s c) (hs : RingBuffer.call s c = some s') :
    Sound size s' [] ∧ s'.returned = s.returned ∧
      s.accepted.length < s'.accepted.length := by
  cases c with
  | retrive n => exact absurd trivial hfit
  | append data n fits =>
    simp only [AppendFits, Classical.not_imp, not_lt] at hfit
    have hlt := h.represents.in_lt
    have hn : 0 < n := by omega
    rcases append_zero_out h.represents hn fits hfit.1 hfit.2 with hnone | ⟨r', hr, hm, hrep, -⟩
    · simp [RingBuffer.call, hnone] at hs
    · rw [call_append fits hr] at hs
      cases hs
      refine ⟨⟨hrep, hm.trans h.size_eq, ?_⟩, rfl, ?_⟩
      · exact results_append h.results hn.le (le_max_left _ _)
      · simp only [List.length_append, List.length_take]
        omega

/-- The session agrees with the history of a queue. -/
structure Refines (size : ℤ) (s : Session β) (f : Fifo β) : Prop where
  sound : Sound size s f.stored
  accepted : s.accepted = f.accepted
  returned : s.returned = f.returned

theorem Refines.call {size : ℤ} {s : Session β} {f : Fifo β} (h : Refines size s f)
    (c : Call β) (hfit : AppendFits s c) :
    ∃ s' f', RingBuffer.call s c = some s' ∧ Refines size s' f' := by
  obtain ⟨s', xs, k, hs', hsound, hacc, hret⟩ := h.sound.call c hfit
  exact ⟨s', (f.accept xs).release k, hs', hsound, by simp [hacc, h.accepted],
    by simp [hret, h.returned]⟩

theorem Refines.run {size : ℤ} {s : Session β} {f : Fifo β} {calls : List (Call β)}
    (h : Refines size s f) (hg : Guarded RingBuffer.call AppendFits s calls) :
    ∃ s' f', TransitionRuns.run RingBuffer.call s calls = some s' ∧ Refines size s' f' := by
  induction calls generalizing s f with
  | nil => exact ⟨s, f, rfl, h⟩
  | cons c calls ih =>
    obtain ⟨t, g, ht, hrt⟩ := h.call c hg.1
    obtain ⟨s', f', hs', hr⟩ := ih hrt (hg.2 t ht)
    exact ⟨s', f', run_cons_eq_some.mpr ⟨t, ht, hs'⟩, hr⟩

/-- Bytes have been lost: fewer are returned or stored than were accepted. -/
def Lossy (size : ℤ) (s : Session β) : Prop :=
  ∃ q, Sound size s q ∧ s.returned.length + q.length < s.accepted.length

theorem Lossy.call {size : ℤ} {s s' : Session β} {c : Call β} (h : Lossy size s)
    (hs : RingBuffer.call s c = some s') : Lossy size s' := by
  obtain ⟨q, hsound, hlt⟩ := h
  by_cases hfit : AppendFits s c
  · obtain ⟨t, xs, k, ht, hsound', hacc, hret⟩ := hsound.call c hfit
    cases ht.symm.trans hs
    refine ⟨_, hsound', ?_⟩
    have hlen := congrArg List.length (List.take_append_drop k (q ++ xs))
    simp only [List.length_append] at hlen
    simp only [hacc, hret, List.length_append]
    omega
  · obtain ⟨hsound', hret, hacc⟩ := hsound.call_overflow hfit hs
    refine ⟨[], hsound', ?_⟩
    rw [hret, List.length_nil]
    omega

theorem Lossy.run {size : ℤ} {s s' : Session β} {calls : List (Call β)} (h : Lossy size s)
    (hr : TransitionRuns.run RingBuffer.call s calls = some s') : Lossy size s' :=
  run_invariant (fun _ _ _ ht hs => Lossy.call ht hs) h hr

theorem Refines.guarded {size : ℤ} {s s' : Session β} {f : Fifo β} {calls : List (Call β)}
    (h : Refines size s f) (hr : TransitionRuns.run RingBuffer.call s calls = some s')
    (hcons : s'.returned ++ content s'.ring = s'.accepted) :
    Guarded RingBuffer.call AppendFits s calls := by
  induction calls generalizing s f with
  | nil => trivial
  | cons c calls ih =>
    obtain ⟨t, ht, hr⟩ := run_cons_eq_some.mp hr
    by_cases hfit : AppendFits s c
    · obtain ⟨t', g, ht', hrt⟩ := h.call c hfit
      cases ht'.symm.trans ht
      refine ⟨hfit, fun u hu => ?_⟩
      cases hu.symm.trans ht
      exact ih hrt hr
    · -- the bytes lost here are missing in every later state
      exfalso
      obtain ⟨hsound, hret, hacc⟩ := h.sound.call_overflow hfit ht
      have hlen := f.length_returned_add_stored
      have hlossy : Lossy size t := by
        refine ⟨[], hsound, ?_⟩
        rw [hret, h.returned, List.length_nil]
        have := congrArg List.length h.accepted
        omega
      obtain ⟨q, hq, hlt⟩ := hlossy.run hr
      rw [content_eq hq.represents] at hcons
      rw [← hcons, List.length_append] at hlt
      omega

/-- A sequence of calls behaves as on a first-in first-out queue exactly when every
`append` in it that finds the reader at index 0 stays short of the end of the ring. -/
theorem refinesFifo_iff {size : ℤ} (hsize : 2 ≤ size) (garbage : ℤ → β)
    (calls : List (Call β)) :
    RefinesFifo size garbage calls ↔ Guarded call AppendFits (start size garbage) calls := by
  have hstart : Refines size (start size garbage) (Fifo.empty : Fifo β) :=
    ⟨sound_start hsize garbage, rfl, rfl⟩
  constructor
  · rintro ⟨s, hr, hcons, -⟩
    exact hstart.guarded hr hcons
  · intro hg
    obtain ⟨s, f, hr, href⟩ := hstart.run hg
    have hrep := href.sound.represents
    refine ⟨s, hr, ?_, href.sound.results, ?_, hrep.out_nonneg, ?_⟩
    · rw [content_eq hrep, href.returned, href.accepted, f.conserved]
    · exact ⟨hrep.in_nonneg, href.sound.size_eq ▸ hrep.in_lt⟩
    · exact href.sound.size_eq ▸ hrep.out_lt

theorem refinesFifo_three_of_four :
    RefinesFifo (β := UInt8) 4 (fun _ => 0) [.append [1, 2, 3] 3 (by decide), .retrive 9] :=
  (refinesFifo_iff (by decide) _ _).mpr
    ⟨fun _ => show (3 : ℤ) < 4 - 0 by decide, fun _ _ => ⟨trivial, fun _ _ => trivial⟩⟩

/-- Four bytes appended to an empty ring of four cells are reported as accepted, and the
ring is empty afterwards. -/
theorem append_four_lost :
    ¬ RefinesFifo (β := UInt8) 4 (fun _ => 0) [.append [1, 2, 3, 4] 4 (by decide)] := by
  rintro ⟨s, hr, hcons, -⟩
  have hrun : (run call (start 4 (fun _ => (0 : UInt8)))
      [.append [1, 2, 3, 4] 4 (by decide)]).map
        (fun s => (s.returned ++ content s.ring, s.accepted)) = some ([], [1, 2, 3, 4]) := by
    decide
  rw [hr, Option.map_some, hcons, Option.some.injEq, Prod.mk.injEq] at hrun
  exact absurd (hrun.1.symm.trans hrun.2) (by decide)

end GenericServer.RingBuffer
