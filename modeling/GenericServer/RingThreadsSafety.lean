import GenericServer.RingBufferRefinement
import GenericServer.RingThreads

/-!
# Every interleaving of a well-behaved producer with a consumer

The producer asks `avail_size()` before each `append` and stays within the answer; the
consumer calls `retrive` with any sizes.
-/
namespace GenericServer.RingThreads

open BlockMemory CircularWindows RingBuffer TransitionRuns

variable {β : Type*}

/-- Both threads with what has been handed to `append` and what `retrive` has returned, and
for every finished `append` its `size` and its result. -/
structure Session (β : Type*) where
  shared : Shared β
  producer : Producer β
  consumer : Consumer β
  observed : Option ℤ
  appended : List β
  returned : List β
  results : List (ℤ × ℤ)

def start (size : ℤ) (garbage : ℤ → β) : Session β where
  shared := ⟨RingBuffer.new size garbage, fun _ => false, [], []⟩
  producer := .idle
  consumer := .idle
  observed := none
  appended := []
  returned := []
  results := []

def Consumer.buf : Consumer β → List β
  | .idle => []
  | .entered _ => []
  | .copying _ _ => []
  | .storing _ _ buf => buf
  | .copyingWrapped _ _ => []
  | .storingWrapped _ _ _ buf => buf
  | .copyingRest _ _ _ buf => buf
  | .storingRest _ _ _ buf => buf
  | .done _ _ buf => buf

/-- Calls, steps and returns of the two threads; `observe` is `avail_size()`. -/
inductive Label (β : Type*)
  | observe
  | append (data : List β) (size : ℤ)
  | produce
  | appended
  | retrive (size : ℤ)
  | consume
  | retrived

def step (t : Session β) : Label β → Option (Session β)
  | .observe => match t.producer with
    | .idle => some { t with observed := some t.shared.ring.availSize }
    | _ => none
  | .append data size => match t.producer, t.observed with
    | .idle, some avail =>
      if size ≤ avail ∧ size ≤ data.length then
        some { t with producer := .entered data size, observed := none,
                      appended := t.appended ++ data.take size.toNat }
      else none
    | _, _ => none
  | .produce => (produce t.shared t.producer).map fun (s, p) =>
      { t with shared := s, producer := p }
  | .appended => match t.producer with
    | .done size n => some { t with producer := .idle, results := t.results ++ [(size, n)] }
    | _ => none
  | .retrive size => match t.consumer with
    | .idle => some { t with consumer := .entered size }
    | _ => none
  | .consume => (consume t.shared t.consumer).map fun (s, c) =>
      { t with shared := s, consumer := c }
  | .retrived => match t.consumer with
    | .done _ _ buf => some { t with consumer := .idle, returned := t.returned ++ buf }
    | _ => none

/-- The cells that the next step of the producer copies into: the first and their number. -/
def Producer.target (r : RingBuffer β) : Producer β → Option (ℤ × ℤ)
  | .copying _ size _ => some (r.mIn, min size (r.mSize - r.mIn))
  | .copyingRest _ _ _ len2 => some (r.mIn, len2)
  | .copyingBehind _ _ len => some (r.mIn, len)
  | _ => none

def Producer.rest : Producer β → List β
  | .idle => []
  | .entered data size => data.take size.toNat
  | .copying data size _ => data.take size.toNat
  | .storing data size _ len => slice data len (size - len)
  | .copyingRest data size len _ => slice data len (size - len)
  | .storingRest _ _ _ _ => []
  | .copyingBehind data size _ => data.take size.toNat
  | .storingBehind _ _ _ => []
  | .done _ _ => []

/-- The running `append` will accept its whole request. -/
def Producer.Complete (r : RingBuffer β) (q : List β) : Producer β → Prop
  | .idle => True
  | .entered _ size => size + q.length < r.mSize
  | .copying _ size out => size < r.mSize - r.mIn + out
  | .storing _ size out _ => size < r.mSize - r.mIn + out
  | .copyingRest _ size len len2 => len + len2 = size
  | .storingRest _ size len len2 => len + len2 = size
  | .copyingBehind _ size len => len = size
  | .storingBehind _ size len => len = size
  | .done size n => n = max size 0

theorem copyIn_copied {s s' : Shared β} {data : List β} {off len : ℤ}
    (h : s.copyIn data off len = some s') :
    s'.copied = s.copied ++ slice data off len ∧ s'.ring.mIn = s.ring.mIn ∧
      s'.ring.mSize = s.ring.mSize := by
  obtain ⟨r, hr, rfl⟩ := Option.map_eq_some_iff.mp h
  rw [RingBuffer.copyIn] at hr
  split_ifs at hr
  cases hr
  exact ⟨rfl, rfl, rfl⟩

theorem copyOut_fetched {s s' : Shared β} {len : ℤ} {xs : List β}
    (h : s.copyOut len = some (s', xs)) : s'.fetched = s.fetched ++ xs := by
  obtain ⟨ys, -, hys⟩ := Option.map_eq_some_iff.mp h
  cases hys
  rfl

theorem consume_buf {s s' : Shared β} {c c' : Consumer β} (hs : consume s c = some (s', c')) :
    ∃ xs, s'.fetched = s.fetched ++ xs ∧ c'.buf = c.buf ++ xs := by
  cases c with
  | idle => cases hs
  | done size n buf => cases hs
  | entered size =>
    simp only [consume] at hs
    split_ifs at hs <;> cases hs <;> exact ⟨[], by simp, by simp [Consumer.buf]⟩
  | storing size len buf =>
    cases hs
    exact ⟨[], by simp, by simp [Consumer.buf]⟩
  | storingRest size len len2 buf =>
    cases hs
    exact ⟨[], by simp, by simp [Consumer.buf]⟩
  | storingWrapped size input len buf =>
    cases hs
    split_ifs <;> exact ⟨[], by simp, by simp [Consumer.buf]⟩
  | copying size len | copyingWrapped size input | copyingRest size len len2 buf =>
    obtain ⟨⟨t, xs⟩, ht, hc⟩ := Option.map_eq_some_iff.mp hs
    cases hc
    exact ⟨xs, copyOut_fetched ht, rfl⟩

theorem consume_fetched {s s' : Shared β} {c c' : Consumer β} {returned : List β}
    (hs : consume s c = some (s', c')) (h : s.fetched = returned ++ c.buf) :
    s'.fetched = returned ++ c'.buf := by
  obtain ⟨xs, hfetched, hbuf⟩ := consume_buf hs
  rw [hfetched, hbuf, h, List.append_assoc]

theorem produce_copied {s s' : Shared β} {p p' : Producer β} {q pending : List β}
    (hr : s.ring.Represents q) (hp : p.Fits s.ring q pending) (hc : p.Complete s.ring q)
    (hs : produce s p = some (s', p')) :
    s'.copied ++ p'.rest = s.copied ++ p.rest ∧ p'.Complete s'.ring q := by
  have hin := hr.in_lt
  cases p with
  | idle => cases hs
  | done size n => cases hs
  | entered data size =>
    have hroom : size + q.length < s.ring.mSize := hc
    simp only [produce] at hs
    split_ifs at hs with hneg hge
    · cases hs
      refine ⟨?_, ?_⟩
      · simp [Producer.rest, Int.toNat_of_nonpos hneg]
      · exact (max_eq_right hneg).symm
    · cases hs
      refine ⟨rfl, ?_⟩
      simp only [Producer.Complete]
      rcases hr.in_cases with ⟨_, hq⟩ | ⟨hlt, _⟩ <;> omega
    · cases hs
      refine ⟨rfl, ?_⟩
      simp only [Producer.Complete]
      rcases hr.in_cases with ⟨hle, _⟩ | ⟨_, hq⟩ <;> omega
  | copying data size out =>
    obtain ⟨-, hsize, hdata, -⟩ := hp
    obtain ⟨t, ht, heq⟩ := Option.map_eq_some_iff.mp hs
    cases heq
    obtain ⟨hcopied, hin', hm⟩ := copyIn_copied ht
    refine ⟨?_, by simpa only [Producer.Complete, hin', hm] using hc⟩
    have hsplit := take_append_slice data (m := min size (s.ring.mSize - s.ring.mIn))
      (n := size - min size (s.ring.mSize - s.ring.mIn)) (by omega) (by omega)
    rw [hcopied, Producer.rest, Producer.rest, List.append_assoc]
    rw [show min size (s.ring.mSize - s.ring.mIn) + (size - min size (s.ring.mSize - s.ring.mIn))
      = size by omega] at hsplit
    rw [← hsplit]
    simp [slice]
  | storing data size out len =>
    obtain ⟨-, hlen, hsize, hdata, hout, -⟩ := hp
    cases hs
    have hroom : size < s.ring.mSize - s.ring.mIn + out := hc
    split_ifs with hremain
    · refine ⟨rfl, ?_⟩
      simp only [Producer.Complete]
      omega
    · refine ⟨?_, ?_⟩
      · have hall : size - len = 0 := by omega
        simp [Producer.rest, slice, hall]
      · simp only [Producer.Complete]
        omega
  | copyingRest data size len len2 =>
    obtain ⟨t, ht, heq⟩ := Option.map_eq_some_iff.mp hs
    cases heq
    have hwhole : len + len2 = size := hc
    refine ⟨?_, hwhole⟩
    rw [(copyIn_copied ht).1, ← hwhole]
    simp [Producer.rest]
  | storingRest data size len len2 =>
    obtain ⟨-, -, hlen, hlen2, -⟩ := hp
    cases hs
    have hwhole : len + len2 = size := hc
    refine ⟨rfl, ?_⟩
    simp only [Producer.Complete]
    omega
  | copyingBehind data size len =>
    obtain ⟨t, ht, heq⟩ := Option.map_eq_some_iff.mp hs
    cases heq
    have hwhole : len = size := hc
    refine ⟨?_, hwhole⟩
    rw [(copyIn_copied ht).1, hwhole]
    simp [Producer.rest, slice]
  | storingBehind data size len =>
    obtain ⟨-, hlen, -⟩ := hp
    cases hs
    have hwhole : len = size := hc
    refine ⟨rfl, ?_⟩
    simp only [Producer.Complete]
    omega

theorem Producer.Complete.mono {p : Producer β} {r r' : RingBuffer β} {q q' : List β}
    (h : p.Complete r q) (hin : r'.mIn = r.mIn) (hsize : r'.mSize = r.mSize)
    (hq : q'.length ≤ q.length) : p.Complete r' q' := by
  cases p with
  | entered data size =>
    have hroom : size + q.length < r.mSize := h
    simp only [Producer.Complete, hsize]
    omega
  | copying data size out => simpa only [Producer.Complete, hin, hsize] using h
  | storing data size out len => simpa only [Producer.Complete, hin, hsize] using h
  | idle | copyingRest data size len len2 | storingRest data size len len2
    | copyingBehind data size len | storingBehind data size len | done size n => exact h

theorem Producer.Complete.published {p : Producer β} {r : RingBuffer β} {q q' : List β}
    (h : p.Complete r q) (hp : ∀ data size, p ≠ .entered data size) : p.Complete r q' := by
  cases p with
  | entered data size => exact absurd rfl (hp data size)
  | _ => exact h

theorem produce_ne_entered {s s' : Shared β} {p p' : Producer β} (hs : produce s p = some (s', p'))
    (data : List β) (size : ℤ) : p' ≠ .entered data size := by
  intro hp
  subst hp
  cases p with
  | idle | done size n | storingRest data size len len2 | storingBehind data size len => cases hs
  | entered data size =>
    simp only [produce] at hs
    split_ifs at hs <;> cases hs
  | storing data size out len =>
    simp only [produce, Option.some.injEq, Prod.mk.injEq] at hs
    split_ifs at hs
    · cases hs.2
    · cases hs.2
  | copying data size out | copyingRest data size len len2 | copyingBehind data size len =>
    obtain ⟨t, -, heq⟩ := Option.map_eq_some_iff.mp hs
    cases heq

/-- The invariant of the session. -/
structure Safe (t : Session β) (released q pending : List β) (taken : ℕ) : Prop where
  good : Good t.shared released q pending taken
  producer : t.producer.Fits t.shared.ring q pending
  consumer : t.consumer.Fits t.shared.ring q taken
  complete : t.producer.Complete t.shared.ring q
  observed : ∀ a, t.observed = some a → a + q.length < t.shared.ring.mSize
  resting : t.observed ≠ none → t.producer = .idle
  appended : t.appended = t.shared.copied ++ t.producer.rest
  returned : t.shared.fetched = t.returned ++ t.consumer.buf
  results : ∀ r ∈ t.results, r.2 = max r.1 0

theorem safe_start {size : ℤ} (h : 2 ≤ size) (garbage : ℤ → β) :
    Safe (start size garbage) [] [] [] 0 where
  good := good_new h garbage
  producer := rfl
  consumer := rfl
  complete := trivial
  observed a ha := by cases ha
  resting h := absurd rfl h
  appended := rfl
  returned := rfl
  results r hr := by cases hr

variable {t : Session β} {released q pending : List β} {taken : ℕ}

/-- With the request within the space observed, the load of `m_out` cannot find the reader at
index 0 in the way of the request. -/
theorem Safe.room (h : Safe t released q pending taken) (data : List β) (size : ℤ)
    (hp : t.producer = .entered data size) (hout : t.shared.ring.mOut = 0) :
    size < t.shared.ring.mSize - t.shared.ring.mIn := by
  have hroom := h.complete
  rw [hp] at hroom
  have hroom : size + q.length < t.shared.ring.mSize := hroom
  have hin := h.good.represents.in_nonneg
  rcases h.good.represents.in_cases with ⟨_, hq⟩ | ⟨hlt, _⟩ <;> omega

theorem Safe.produce {t' : Session β} (h : Safe t released q pending taken)
    (hs : step t .produce = some t') :
    ∃ q' pending', Safe t' released q' pending' taken := by
  obtain ⟨⟨s', p'⟩, hprod, rfl⟩ := Option.map_eq_some_iff.mp hs
  rcases h.good.produce h.producer h.room with (hidle | ⟨size, n, hdone⟩) | ⟨s₂, p₂, hprod₂, hout⟩
  · rw [hidle] at hprod
    cases hprod
  · rw [hdone] at hprod
    cases hprod
  · cases hprod.symm.trans hprod₂
    obtain ⟨ys, pending', hgood, hfits, hmout, hmsize⟩ := hout
    obtain ⟨hcopied, hcomplete⟩ :=
      produce_copied h.good.represents h.producer h.complete hprod
    have hfetched : s'.fetched = t.shared.fetched := by
      rw [hgood.fetched, h.good.fetched, List.take_append_of_le_length h.good.taken_le]
    refine ⟨q ++ ys, pending', hgood, hfits,
      h.consumer.mono hmout hmsize (by simp), hcomplete.published (produce_ne_entered hprod),
      fun a ha => ?_, fun hobs => ?_, ?_, ?_, h.results⟩
    · rw [h.resting (by rw [ha]; exact nofun)] at hprod
      cases hprod
    · rw [h.resting hobs] at hprod
      cases hprod
    · rw [h.appended]
      exact hcopied.symm
    · rw [hfetched]
      exact h.returned

theorem Safe.consume {t' : Session β} (h : Safe t released q pending taken)
    (hs : step t .consume = some t') :
    ∃ released' q' taken', Safe t' released' q' pending taken' := by
  obtain ⟨⟨s', c'⟩, hcons, rfl⟩ := Option.map_eq_some_iff.mp hs
  rcases h.good.consume h.consumer with (hidle | ⟨size, n, buf, hdone⟩) | ⟨s₂, c₂, hcons₂, hout⟩
  · rw [hidle] at hcons
    cases hcons
  · rw [hdone] at hcons
    cases hcons
  · cases hcons.symm.trans hcons₂
    obtain ⟨k, taken', hgood, hfits, hmin, hmsize⟩ := hout
    have hshort : (q.drop k).length ≤ q.length := by simp
    have hcopied : s'.copied = t.shared.copied := by
      rw [hgood.copied, h.good.copied, List.append_assoc, ← List.append_assoc (q.take k),
        List.take_append_drop]
    refine ⟨_, _, _, hgood, h.producer.mono hmin hmsize hshort, hfits,
      h.complete.mono hmin hmsize hshort, fun a ha => ?_, h.resting, ?_,
      consume_fetched hcons h.returned, h.results⟩
    · have hroom := h.observed a ha
      simp only [hmsize]
      omega
    · rw [hcopied]
      exact h.appended

theorem Safe.step {t' : Session β} {l : Label β} (h : Safe t released q pending taken)
    (hs : RingThreads.step t l = some t') :
    ∃ released' q' pending' taken', Safe t' released' q' pending' taken' := by
  cases l with
  | produce =>
    obtain ⟨q', pending', hsafe⟩ := h.produce hs
    exact ⟨released, q', pending', taken, hsafe⟩
  | consume =>
    obtain ⟨released', q', taken', hsafe⟩ := h.consume hs
    exact ⟨released', q', pending, taken', hsafe⟩
  | observe =>
    simp only [RingThreads.step] at hs
    split at hs
    · rename_i hidle
      cases hs
      refine ⟨released, q, pending, taken, h.good, h.producer, h.consumer, h.complete,
        fun a ha => ?_, fun _ => hidle, h.appended, h.returned, h.results⟩
      cases ha
      rw [h.good.represents.availSize_eq]
      simp only
      omega
    · cases hs
  | append data size =>
    simp only [RingThreads.step] at hs
    split at hs
    · rename_i avail hidle hobs
      split_ifs at hs with hfit
      cases hs
      have hroom := h.observed avail hobs
      have hpending : pending = [] := by
        have hfits := h.producer
        rw [hidle] at hfits
        exact hfits
      refine ⟨released, q, pending, taken, h.good, ⟨hpending, hfit.2⟩, h.consumer, ?_, nofun,
        fun hne => absurd rfl hne, ?_, h.returned, h.results⟩
      · simp only [Producer.Complete]
        omega
      · rw [h.appended, hidle]
        simp [Producer.rest]
    · cases hs
  | appended =>
    simp only [RingThreads.step] at hs
    split at hs
    · rename_i size n hdone
      cases hs
      have hfits := h.producer
      have hcomplete := h.complete
      have happended := h.appended
      rw [hdone] at hfits hcomplete happended
      refine ⟨released, q, pending, taken, h.good, hfits, h.consumer, trivial, h.observed,
        fun _ => rfl, happended, h.returned, fun r hr => ?_⟩
      rcases List.mem_append.mp hr with hr | hr
      · exact h.results r hr
      · cases List.mem_singleton.mp hr
        exact hcomplete
    · cases hs
  | retrive size =>
    simp only [RingThreads.step] at hs
    split at hs
    · rename_i hidle
      cases hs
      have hfits := h.consumer
      have hreturned := h.returned
      rw [hidle] at hfits hreturned
      exact ⟨released, q, pending, taken, h.good, h.producer, hfits, h.complete, h.observed,
        h.resting, h.appended, hreturned, h.results⟩
    · cases hs
  | retrived =>
    simp only [RingThreads.step] at hs
    split at hs
    · rename_i size n buf hdone
      cases hs
      have hfits := h.consumer
      have hreturned := h.returned
      rw [hdone] at hfits hreturned
      refine ⟨released, q, pending, taken, h.good, h.producer, hfits, h.complete, h.observed,
        h.resting, h.appended, ?_, h.results⟩
      simpa [Consumer.buf] using hreturned
    · cases hs

theorem Safe.run {t' : Session β} {ls : List (Label β)} (h : Safe t released q pending taken)
    (hr : TransitionRuns.run RingThreads.step t ls = some t') :
    ∃ released' q' pending' taken', Safe t' released' q' pending' taken' := by
  have hstep : ∀ (u : Session β) l u', (∃ released q pending taken, Safe u released q pending taken) →
      RingThreads.step u l = some u' →
      ∃ released q pending taken, Safe u' released q pending taken := by
    rintro u l u' ⟨_, _, _, _, hu⟩ hs
    exact hu.step hs
  exact run_invariant hstep ⟨released, q, pending, taken, h⟩ hr

theorem Safe.target_dead (h : Safe t released q pending taken) {dst len a : ℤ}
    (ht : t.producer.target t.shared.ring = some (dst, len)) (hge : dst ≤ a) (hlt : a < dst + len) :
    t.shared.live a = false := by
  have hgood := h.good
  have hin := hgood.represents.in_lt
  have hfits := h.producer
  cases hp : t.producer with
  | copying data size out =>
    rw [hp] at hfits ht
    obtain ⟨rfl, hsize, -, hout, hq, hzero⟩ := hfits
    cases ht
    exact hgood.dead (by omega) (by omega) hge hlt
  | copyingRest data size len' len2 =>
    rw [hp] at hfits ht
    obtain ⟨rfl, hzero, -, -, -, -, hroom⟩ := hfits
    cases ht
    exact hgood.dead hroom (by omega) hge hlt
  | copyingBehind data size len' =>
    rw [hp] at hfits ht
    obtain ⟨rfl, -, -, -, hroom, hend⟩ := hfits
    cases ht
    exact hgood.dead hroom (by omega) hge hlt
  | idle | entered data size | storing data size out len' | storingRest data size len' len2
    | storingBehind data size len' | done size n =>
    rw [hp] at ht
    cases ht

theorem Safe.producer_enabled (h : Safe t released q pending taken) :
    t.producer = .idle ∨ (RingThreads.step t .produce).isSome ∨
      (RingThreads.step t .appended).isSome := by
  rcases h.good.produce h.producer h.room with (hidle | ⟨size, n, hdone⟩) | ⟨s', p', hs, -⟩
  · exact .inl hidle
  · simp [RingThreads.step, hdone]
  · simp [RingThreads.step, hs]

theorem Safe.consumer_enabled (h : Safe t released q pending taken) :
    t.consumer = .idle ∨ (RingThreads.step t .consume).isSome ∨
      (RingThreads.step t .retrived).isSome := by
  rcases h.good.consume h.consumer with (hidle | ⟨size, n, buf, hdone⟩) | ⟨s', c', hs, -⟩
  · exact .inl hidle
  · simp [RingThreads.step, hdone]
  · simp [RingThreads.step, hs]

theorem Safe.idle (h : Safe t released q pending taken) (hp : t.producer = .idle)
    (hc : t.consumer = .idle) : t.returned ++ content t.shared.ring = t.appended := by
  have hpending := h.producer
  have htaken := h.consumer
  have happended := h.appended
  have hreturned := h.returned
  rw [hp] at hpending happended
  rw [hc] at htaken hreturned
  simp only [Producer.Fits, Consumer.Fits] at hpending htaken
  subst hpending htaken
  rw [content_eq h.good.represents, happended, h.good.copied]
  simpa [Producer.rest, Consumer.buf, h.good.fetched] using hreturned.symm

/-- In every interleaving the returned bytes are a prefix of the appended ones, every
finished `append` has accepted its whole request, no copy of the producer touches a cell whose
byte has not been copied out, an idle ring holds the remaining suffix, and no call gets stuck. -/
theorem spsc_safe {size : ℤ} (hsize : 2 ≤ size) (garbage : ℤ → β) {ls : List (Label β)}
    {t : Session β} (hr : run step (start size garbage) ls = some t) :
    t.returned <+: t.appended ∧ (∀ r ∈ t.results, r.2 = max r.1 0) ∧
      (∀ dst len a, t.producer.target t.shared.ring = some (dst, len) → dst ≤ a → a < dst + len →
        t.shared.live a = false) ∧
      (t.producer = .idle → t.consumer = .idle →
        t.returned ++ content t.shared.ring = t.appended) ∧
      (t.producer = .idle ∨ (step t .produce).isSome ∨ (step t .appended).isSome) ∧
      (t.consumer = .idle ∨ (step t .consume).isSome ∨ (step t .retrived).isSome) := by
  obtain ⟨released, q, pending, taken, h⟩ := (safe_start hsize garbage).run hr
  refine ⟨?_, h.results, fun dst len a ht hge hlt => h.target_dead ht hge hlt, h.idle,
    h.producer_enabled, h.consumer_enabled⟩
  refine ⟨t.consumer.buf ++ (q.drop taken ++ pending) ++ t.producer.rest, ?_⟩
  calc t.returned ++ (t.consumer.buf ++ (q.drop taken ++ pending) ++ t.producer.rest)
      = t.shared.fetched ++ (q.drop taken ++ pending) ++ t.producer.rest := by
        rw [h.returned]
        simp only [List.append_assoc]
    _ = t.shared.copied ++ t.producer.rest := by
        rw [h.good.fetched, h.good.copied, ← List.append_assoc, List.append_assoc released,
          List.take_append_drop]
        simp only [List.append_assoc]
    _ = t.appended := h.appended.symm

/-- A run in which the second message wraps and the consumer reads between its two stores. -/
theorem spsc_safe_wrapped :
    ∃ t, run step (start 4 (fun _ => (0 : UInt8)))
        [.observe, .append [1, 2] 2, .produce, .produce, .produce, .appended,
          .retrive 9, .consume, .consume, .consume, .retrived,
          .observe, .append [3, 4, 5] 3, .produce, .produce, .produce, .retrive 9, .consume,
          .consume, .consume, .produce, .produce, .consume, .consume, .retrived] = some t ∧
      t.returned = [1, 2, 3, 4] ∧ t.returned <+: t.appended := by
  obtain ⟨t, ht⟩ : ∃ t, run step (start 4 (fun _ => (0 : UInt8)))
      [.observe, .append [1, 2] 2, .produce, .produce, .produce, .appended,
        .retrive 9, .consume, .consume, .consume, .retrived,
        .observe, .append [3, 4, 5] 3, .produce, .produce, .produce, .retrive 9, .consume,
        .consume, .consume, .produce, .produce, .consume, .consume, .retrived] = some t := ⟨_, rfl⟩
  refine ⟨t, ht, ?_, (spsc_safe (by decide) _ ht).1⟩
  cases ht
  rfl

end GenericServer.RingThreads
