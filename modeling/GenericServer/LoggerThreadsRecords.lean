import GenericServer.LoggerThreads
import GenericServer.RingThreadsSafety

/-!
# Records in the ring of one logging thread

What a thread has copied into its ring is the records before the running one followed by a part
of the running one. What it has published ends with a record that did fit, but for the gap
between the two stores of a record that wraps.
-/
namespace GenericServer.LoggerThreads

open BlockMemory CircularWindows ContiguousBlocks RingBuffer RingThreads TransitionRuns

variable {β : Type*} {t : ℤ} {n : ℕ}

abbrev Byte.key (b : Byte β) : ℤ × ℕ := (b.tid, b.record)

@[simp] theorem length_stamp (t : ℤ) (n : ℕ) (fits : Bool) (record : List β) :
    (stamp t n fits record).length = record.length := by
  induction record with
  | nil => rfl
  | cons b bs ih => rw [stamp, List.length_cons, List.length_cons, ih]

theorem stamp_keys (t : ℤ) (n : ℕ) (fits : Bool) (record : List β) :
    ∀ b ∈ stamp t n fits record, b.tid = t ∧ b.record = n := by
  induction record with
  | nil => exact nofun
  | cons b bs ih =>
    intro x hx
    rcases List.mem_cons.mp hx with rfl | hx
    · exact ⟨rfl, rfl⟩
    · exact ih x hx

theorem stamp_plain (t : ℤ) (n : ℕ) (record : List β) :
    ∀ b ∈ stamp t n false record, b.inner = false := by
  induction record with
  | nil => exact nofun
  | cons b bs ih =>
    intro x hx
    rcases List.mem_cons.mp hx with rfl | hx
    · rfl
    · exact ih x hx

theorem stamp_closed (t : ℤ) (n : ℕ) (fits : Bool) (record : List β) :
    Closed Byte.inner (stamp t n fits record) := by
  induction record with
  | nil => exact closed_nil
  | cons b bs ih =>
    cases bs with
    | nil =>
      intro x hx
      cases hx
      exact Bool.and_false _
    | cons b' bs => exact closed_append_of_ne_nil (l := [_]) ih (List.cons_ne_nil _ _)

theorem stamp_opened (t : ℤ) (n : ℕ) (record : List β) :
    ∀ b ∈ (stamp t n true record).dropLast, b.inner = true := by
  induction record with
  | nil => exact nofun
  | cons b bs ih =>
    cases bs with
    | nil => exact nofun
    | cons b' bs =>
      intro x hx
      rw [stamp, List.dropLast_cons_of_ne_nil (by exact List.cons_ne_nil _ _)] at hx
      rcases List.mem_cons.mp hx with rfl | hx
      · rfl
      · exact ih x hx

/-- Records of thread `t`, numbered below `n`, one behind the other; `entries` are those that
did fit. -/
structure Archived (t : ℤ) (n : ℕ) (entries : List (ℕ × List (Byte β))) (l : List (Byte β)) :
    Prop where
  keys : ∀ b ∈ l, b.tid = t ∧ b.record < n
  linked : Linked Byte.key Byte.inner l
  closed : Closed Byte.inner l
  entries : ∀ e ∈ entries, e.1 < n ∧ l.filter (·.record = e.1) = e.2 ∧
    ∀ b ∈ e.2.dropLast, b.inner = true

/-- The running record of a thread has number `n`, and what is before it is archived. -/
structure Recorded (t : ℤ) (n : ℕ) (old : List (ℕ × List (Byte β))) (w : Worker β) : Prop where
  archived : Archived t n old w.before
  keys : ∀ b ∈ w.data, b.tid = t ∧ b.record = n
  closed : Closed Byte.inner w.data
  plain : w.fits = false → ∀ b ∈ w.data, b.inner = false
  opened : w.fits = true → ∀ b ∈ w.data.dropLast, b.inner = true
  number : n ≤ w.count
  running : w.fits = true ∨ w.data ≠ [] → n < w.count
  fitting : w.fitting = if w.fits then (n, w.data) :: old else old

variable {old : List (ℕ × List (Byte β))} {w : Worker β} {l : List (Byte β)}

theorem Recorded.frame (h : Recorded t n old w) (sh : Shared (Byte β)) (p : Producer (Byte β))
    (m : ℤ) : Recorded t n old { w with shared := sh, producer := p, remain := m } :=
  ⟨h.archived, h.keys, h.closed, h.plain, h.opened, h.number, h.running, h.fitting⟩

theorem Recorded.linked_append (h : Recorded t n old w) {xs : List (Byte β)}
    (hxs : ∀ b ∈ xs, b ∈ w.data) : Linked Byte.key Byte.inner (w.before ++ xs) := by
  apply h.archived.linked.append_of_closed h.archived.closed
  apply linked_of_key (k := (t, n))
  intro b hb
  obtain ⟨htid, hrecord⟩ := h.keys b (hxs b hb)
  rw [Byte.key, htid, hrecord]

theorem Recorded.keys_append (h : Recorded t n old w) {xs : List (Byte β)}
    (hxs : ∀ b ∈ xs, b ∈ w.data) :
    ∀ b ∈ w.before ++ xs, b.tid = t ∧ b.record < w.count := by
  intro b hb
  rcases List.mem_append.mp hb with hb | hb
  · exact ⟨(h.archived.keys b hb).1, (h.archived.keys b hb).2.trans_le h.number⟩
  · obtain ⟨htid, hrecord⟩ := h.keys b (hxs b hb)
    refine ⟨htid, ?_⟩
    rw [hrecord]
    exact h.running (.inr (List.ne_nil_of_mem (hxs b hb)))

theorem Recorded.filter_data (h : Recorded t n old w) {xs : List (Byte β)}
    (hxs : ∀ b ∈ xs, b ∈ w.data) {m : ℕ} (hm : m ≠ n) : xs.filter (·.record = m) = [] := by
  apply List.filter_eq_nil_iff.mpr
  intro b hb
  rw [decide_eq_true_iff, (h.keys b (hxs b hb)).2]
  exact hm.symm

theorem Recorded.filter_before (h : Recorded t n old w) : w.before.filter (·.record = n) = [] := by
  apply List.filter_eq_nil_iff.mpr
  intro b hb
  rw [decide_eq_true_iff]
  exact (h.archived.keys b hb).2.ne

theorem Recorded.filter_own (h : Recorded t n old w) {xs : List (Byte β)}
    (hxs : ∀ b ∈ xs, b ∈ w.data) : xs.filter (·.record = n) = xs := by
  apply List.filter_eq_self.mpr
  intro b hb
  rw [decide_eq_true_iff]
  exact (h.keys b (hxs b hb)).2

theorem Recorded.filter_append (h : Recorded t n old w) {xs : List (Byte β)}
    (hxs : ∀ b ∈ xs, b ∈ w.data) (hhead : w.fits = true → xs <+: w.data)
    {e : ℕ × List (Byte β)} (he : e ∈ w.fitting) :
    (w.before ++ xs).filter (·.record = e.1) <+: e.2 ∧ ∀ b ∈ e.2.dropLast, b.inner = true := by
  have hold : ∀ e ∈ old, (w.before ++ xs).filter (·.record = e.1) <+: e.2 ∧
      ∀ b ∈ e.2.dropLast, b.inner = true := by
    intro e he
    obtain ⟨hlt, hfilter, hopened⟩ := h.archived.entries e he
    rw [List.filter_append, hfilter, h.filter_data hxs hlt.ne, List.append_nil]
    exact ⟨List.prefix_refl _, hopened⟩
  rw [h.fitting] at he
  split_ifs at he with hfits
  · rcases List.mem_cons.mp he with rfl | he
    · rw [List.filter_append, h.filter_before, List.nil_append, h.filter_own hxs]
      exact ⟨hhead hfits, h.opened hfits⟩
    · exact hold e he
  · exact hold e he

theorem Recorded.finish (h : Recorded t n old w) {xs : List (Byte β)}
    (hxs : ∀ b ∈ xs, b ∈ w.data) (hwhole : w.fits = true → xs = w.data) :
    Archived t w.count w.fitting (w.before ++ xs) where
  keys := h.keys_append hxs
  linked := h.linked_append hxs
  closed := by
    cases hfits : w.fits with
    | false =>
      exact closed_append_of_not_inner h.archived.closed fun b hb => h.plain hfits b (hxs b hb)
    | true =>
      rw [hwhole hfits]
      by_cases hne : w.data = []
      · rw [hne, List.append_nil]
        exact h.archived.closed
      · exact closed_append_of_ne_nil h.closed hne
  entries := by
    intro e he
    have hlt : e.1 < w.count := by
      rw [h.fitting] at he
      split_ifs at he with hfits
      · rcases List.mem_cons.mp he with rfl | he
        · exact h.running (.inl hfits)
        · exact (h.archived.entries e he).1.trans_le h.number
      · exact (h.archived.entries e he).1.trans_le h.number
    have hfull : (w.before ++ xs).filter (·.record = e.1) = e.2 := by
      rw [List.filter_append]
      rw [h.fitting] at he
      split_ifs at he with hfits
      · rcases List.mem_cons.mp he with rfl | he
        · rw [h.filter_before, List.nil_append, h.filter_own hxs]
          exact hwhole hfits
        · obtain ⟨hlt, hfilter, -⟩ := h.archived.entries e he
          rw [hfilter, h.filter_data hxs hlt.ne, List.append_nil]
      · obtain ⟨hlt, hfilter, -⟩ := h.archived.entries e he
        rw [hfilter, h.filter_data hxs hlt.ne, List.append_nil]
    exact ⟨hlt, hfull, (h.filter_append hxs (fun hfits => by rw [hwhole hfits]) he).2⟩

/-- The running call of the ring's `append` has the whole record as its argument. -/
def Carries (data : List (Byte β)) : Producer (Byte β) → Prop
  | .idle => data = []
  | .entered d size => d = data ∧ size = data.length
  | .copying d size _ => d = data ∧ size = data.length
  | .storing d size _ _ => d = data ∧ size = data.length
  | .copyingRest d size _ _ => d = data ∧ size = data.length
  | .storingRest d size _ _ => d = data ∧ size = data.length
  | .copyingBehind d size _ => d = data ∧ size = data.length
  | .storingBehind d size _ => d = data ∧ size = data.length
  | .done size _ => size = data.length

theorem mem_of_mem_slice {data : List (Byte β)} {off len : ℤ} {b : Byte β}
    (h : b ∈ slice data off len) : b ∈ data :=
  List.mem_of_mem_drop (List.mem_of_mem_take h)

variable {sh sh' : Shared (Byte β)} {p p' : Producer (Byte β)} {data : List (Byte β)}

theorem copyIn_carries {off len : ℤ} (h : sh.copyIn data off len = some sh') :
    ∃ xs, sh'.copied = sh.copied ++ xs ∧ ∀ b ∈ xs, b ∈ data :=
  ⟨_, (copyIn_copied h).1, fun _ hb => mem_of_mem_slice hb⟩

theorem produce_ne_idle (hs : RingThreads.produce sh p = some (sh', p')) : p' ≠ .idle := by
  intro hp
  subst hp
  cases p with
  | idle | done size m | storingRest d size len len2 | storingBehind d size len => cases hs
  | entered d size =>
    simp only [RingThreads.produce] at hs
    split_ifs at hs <;> cases hs
  | storing d size out len =>
    simp only [RingThreads.produce, Option.some.injEq, Prod.mk.injEq] at hs
    split_ifs at hs
    · cases hs.2
    · cases hs.2
  | copying d size out | copyingRest d size len len2 | copyingBehind d size len =>
    obtain ⟨sh₂, -, heq⟩ := Option.map_eq_some_iff.mp hs
    cases heq

theorem produce_carries (hc : Carries data p) (hs : RingThreads.produce sh p = some (sh', p')) :
    Carries data p' ∧ ∃ xs, sh'.copied = sh.copied ++ xs ∧ ∀ b ∈ xs, b ∈ data := by
  have hnothing : ∃ xs, sh.copied = sh.copied ++ xs ∧ ∀ b ∈ xs, b ∈ data :=
    ⟨[], by simp, fun _ hb => absurd hb List.not_mem_nil⟩
  cases p with
  | idle => cases hs
  | done size m => cases hs
  | entered d size =>
    obtain ⟨rfl, rfl⟩ := hc
    simp only [RingThreads.produce] at hs
    split_ifs at hs
    · cases hs
      exact ⟨rfl, hnothing⟩
    · cases hs
      exact ⟨⟨rfl, rfl⟩, hnothing⟩
    · cases hs
      exact ⟨⟨rfl, rfl⟩, hnothing⟩
  | storing d size out len =>
    obtain ⟨rfl, rfl⟩ := hc
    cases hs
    split_ifs
    · exact ⟨⟨rfl, rfl⟩, hnothing⟩
    · exact ⟨rfl, hnothing⟩
  | storingRest d size len len2 | storingBehind d size len =>
    obtain ⟨rfl, rfl⟩ := hc
    cases hs
    exact ⟨rfl, hnothing⟩
  | copying d size out | copyingRest d size len len2 | copyingBehind d size len =>
    obtain ⟨rfl, rfl⟩ := hc
    obtain ⟨sh₂, hcopy, heq⟩ := Option.map_eq_some_iff.mp hs
    cases heq
    exact ⟨⟨rfl, rfl⟩, copyIn_carries hcopy⟩

/-- Outside the gap between its two stores, a call that will be complete has published either
nothing of the record or all of it. -/
theorem pending_rest {r : RingBuffer (Byte β)} {q pending : List (Byte β)} (hr : r.Represents q)
    (hp : p.Fits r q pending) (hcomplete : p.Complete r q) (hc : Carries data p)
    (hgap : ¬ between p) : pending ++ p.rest = data ∨ pending ++ p.rest = [] := by
  have hin := hr.in_lt
  cases p with
  | idle =>
    cases hp
    exact .inr rfl
  | done size m =>
    cases hp
    exact .inr rfl
  | entered d size =>
    obtain ⟨rfl, rfl⟩ := hc
    obtain ⟨rfl, -⟩ := hp
    exact .inl (List.take_of_length_le (by simp))
  | copying d size out =>
    obtain ⟨rfl, rfl⟩ := hc
    obtain ⟨rfl, -⟩ := hp
    exact .inl (List.take_of_length_le (by simp))
  | copyingBehind d size len =>
    obtain ⟨rfl, rfl⟩ := hc
    obtain ⟨rfl, -⟩ := hp
    exact .inl (List.take_of_length_le (by simp))
  | storing d size out len =>
    obtain ⟨rfl, rfl⟩ := hc
    obtain ⟨rfl, hlen, hsize, -⟩ := hp
    left
    have hsplit := take_append_slice d (m := len) (n := d.length - len) (by omega) (by omega)
    rw [show len + (d.length - len) = (d.length : ℤ) by omega, Int.toNat_natCast,
      List.take_length] at hsplit
    exact hsplit
  | storingBehind d size len =>
    obtain ⟨rfl, rfl⟩ := hc
    obtain ⟨rfl, hlen, -⟩ := hp
    have hwhole : len = (d.length : ℤ) := hcomplete
    left
    rw [Producer.rest, List.append_nil, hwhole]
    exact List.take_of_length_le (by simp)
  | copyingRest d size len len2 => exact absurd trivial hgap
  | storingRest d size len len2 => exact absurd trivial hgap

/-- The invariant of thread `t` and its ring, with the logger thread's `retrive` at `c`. -/
structure Sound (t : ℤ) (w : Worker β) (c : Consumer (Byte β)) (released q pending : List (Byte β))
    (taken : ℕ) : Prop where
  good : Good w.shared released q pending taken
  producer : w.producer.Fits w.shared.ring q pending
  consumer : c.Fits w.shared.ring q taken
  carries : Carries w.data w.producer
  recorded : ∃ n old, Recorded t n old w
  published : w.before <+: released ++ q
  copied : ∃ xs, w.shared.copied = w.before ++ xs ∧ ∀ b ∈ xs, b ∈ w.data
  complete : w.fits = true → w.producer.Complete w.shared.ring q ∧
    w.shared.copied ++ w.producer.rest = w.before ++ w.data ∧ w.remain = w.data.length
  resting : w.producer = .idle → w.fits = false

namespace Sound

variable {c : Consumer (Byte β)} {released q pending : List (Byte β)} {taken : ℕ}

/-- What has been copied of the running record, and that it comes in the record's order when the
record did fit. -/
theorem part (h : Sound t w c released q pending taken) :
    ∃ xs, w.shared.copied = w.before ++ xs ∧ (∀ b ∈ xs, b ∈ w.data) ∧
      (w.fits = true → xs <+: w.data) := by
  obtain ⟨xs, hcopied, hxs⟩ := h.copied
  refine ⟨xs, hcopied, hxs, fun hfits => ⟨w.producer.rest, ?_⟩⟩
  have hrest := (h.complete hfits).2.1
  rw [hcopied, List.append_assoc] at hrest
  exact List.append_cancel_left hrest

theorem linked (h : Sound t w c released q pending taken) :
    Linked Byte.key Byte.inner w.shared.copied := by
  obtain ⟨n, old, hrec⟩ := h.recorded
  obtain ⟨xs, hcopied, hxs⟩ := h.copied
  rw [hcopied]
  exact hrec.linked_append hxs

theorem tids (h : Sound t w c released q pending taken) : ∀ b ∈ w.shared.copied, b.tid = t := by
  obtain ⟨n, old, hrec⟩ := h.recorded
  obtain ⟨xs, hcopied, hxs⟩ := h.copied
  rw [hcopied]
  exact fun b hb => (hrec.keys_append hxs b hb).1

theorem entries (h : Sound t w c released q pending taken) {e : ℕ × List (Byte β)}
    (he : e ∈ w.fitting) : w.shared.copied.filter (·.record = e.1) <+: e.2 ∧
      ∀ b ∈ e.2.dropLast, b.inner = true := by
  obtain ⟨n, old, hrec⟩ := h.recorded
  obtain ⟨xs, hcopied, hxs, hhead⟩ := h.part
  rw [hcopied]
  exact hrec.filter_append hxs hhead he

theorem fetched_prefix (h : Sound t w c released q pending taken) :
    w.shared.fetched <+: w.shared.copied := by
  rw [h.good.fetched, h.good.copied, List.prefix_append_right_inj]
  exact (List.take_prefix taken q).trans (List.prefix_append q pending)

theorem archived (h : Sound t w c released q pending taken)
    (hp : w.producer = .idle ∨ ∃ size m, w.producer = .done size m) :
    pending = [] ∧ Archived t w.count w.fitting w.shared.copied := by
  obtain ⟨n, old, hrec⟩ := h.recorded
  obtain ⟨xs, hcopied, hxs, -⟩ := h.part
  have hrest : w.producer.rest = [] ∧ pending = [] := by
    have hpending := h.producer
    rcases hp with hidle | ⟨size, m, hdone⟩
    · rw [hidle] at hpending ⊢
      exact ⟨rfl, hpending⟩
    · rw [hdone] at hpending ⊢
      exact ⟨rfl, hpending⟩
  refine ⟨hrest.2, ?_⟩
  rw [hcopied]
  apply hrec.finish hxs
  intro hfits
  have hall := (h.complete hfits).2.1
  rw [hcopied, hrest.1, List.append_nil] at hall
  exact List.append_cancel_left hall

/-- What is published ends with a record, but for the gap in a record that did fit. -/
theorem published_closed (h : Sound t w c released q pending taken)
    (hgap : w.fits = true → ¬ between w.producer) : Closed Byte.inner (released ++ q) := by
  obtain ⟨n, old, hrec⟩ := h.recorded
  obtain ⟨xs, hcopied, hxs⟩ := h.copied
  have hall := h.good.copied
  rw [← List.append_assoc] at hall
  cases hfits : w.fits with
  | false =>
    obtain ⟨ys, hys⟩ := h.published
    rw [← hys]
    apply closed_append_of_not_inner hrec.archived.closed
    intro b hb
    apply hrec.plain hfits b (hxs b _)
    rw [hcopied, ← hys, List.append_assoc] at hall
    rw [List.append_cancel_left hall]
    exact List.mem_append_left pending hb
  | true =>
    obtain ⟨hcomplete, hrest, -⟩ := h.complete hfits
    rw [hall, List.append_assoc] at hrest
    rcases pending_rest h.good.represents h.producer hcomplete h.carries (hgap hfits) with
      hdata | hnone
    · rw [hdata] at hrest
      rw [List.append_cancel_right hrest]
      exact hrec.archived.closed
    · rw [hnone, List.append_nil] at hrest
      rw [hrest]
      by_cases hne : w.data = []
      · rw [hne, List.append_nil]
        exact hrec.archived.closed
      · exact closed_append_of_ne_nil hrec.closed hne

theorem settled (h : Sound t w c released q pending taken)
    (hgap : w.fits = true → ¬ between w.producer) (hempty : w.shared.ring.empty = true) :
    Closed Byte.inner w.shared.fetched := by
  have hq := h.good.represents.empty_eq.mp hempty
  have hclosed := h.published_closed hgap
  rw [h.good.fetched, hq, List.take_nil]
  rwa [hq] at hclosed

private theorem restart (h : Sound t w c released q pending taken) (w' : Worker β)
    (hpending : pending = [])
    (hshared : w'.shared = w.shared) (hbefore : w'.before = w.shared.copied)
    (hproducer : w'.producer.Fits w.shared.ring q []) (hcarries : Carries w'.data w'.producer)
    (hrecorded : Recorded t w.count w.fitting w')
    (hcomplete : w'.fits = true → w'.producer.Complete w.shared.ring q ∧
      w'.producer.rest = w'.data ∧ w'.remain = w'.data.length)
    (hresting : w'.producer = .idle → w'.fits = false) :
    Sound t w' c released q pending taken where
  good := by rw [hshared]; exact h.good
  producer := by rw [hshared, hpending]; exact hproducer
  consumer := by rw [hshared]; exact h.consumer
  carries := hcarries
  recorded := ⟨w.count, w.fitting, hrecorded⟩
  published := by
    rw [hbefore, h.good.copied, hpending, List.append_nil]
  copied := ⟨[], by rw [hshared, hbefore, List.append_nil], nofun⟩
  complete := by
    intro hfits
    obtain ⟨hcomp, hrest, hremain⟩ := hcomplete hfits
    rw [hshared, hbefore, hrest]
    exact ⟨hcomp, rfl, hremain⟩
  resting := hresting

theorem log (h : Sound t w c released q pending taken) (hidle : w.producer = .idle)
    (record : List β) : Sound t (w.log t record) c released q pending taken := by
  obtain ⟨hpending, harch⟩ := h.archived (.inl hidle)
  apply h.restart (w.log t record) hpending rfl rfl
  · exact ⟨rfl, le_refl _⟩
  · exact ⟨rfl, rfl⟩
  · refine ⟨harch, stamp_keys t _ _ record, stamp_closed t _ _ record, fun hfits => ?_,
      fun hfits => ?_, Nat.le_succ _, fun _ => Nat.lt_succ_self _, rfl⟩
    · simp only [Worker.log] at hfits ⊢
      rw [hfits]
      exact stamp_plain t _ record
    · simp only [Worker.log] at hfits ⊢
      rw [hfits]
      exact stamp_opened t _ record
  · intro hfits
    have hroom : (record.length : ℤ) ≤ w.shared.ring.availSize := of_decide_eq_true hfits
    rw [h.good.represents.availSize_eq] at hroom
    refine ⟨?_, List.take_of_length_le (by simp), ?_⟩
    · simp only [Worker.log, Producer.Complete, length_stamp]
      omega
    · simp [Worker.log]
  · intro hbusy
    cases hbusy

theorem pushed (h : Sound t w c released q pending taken) {size m : ℤ}
    (hdone : w.producer = .done size m) :
    Sound t (w.pushed m) c released q pending taken := by
  have hcarries := h.carries
  have hfits := h.producer
  rw [hdone] at hcarries hfits
  have hpending : pending = [] := hfits
  subst hpending
  unfold Worker.pushed
  split_ifs with hremain
  · have hplain : w.fits = false := by
      by_contra hfits
      obtain ⟨hcomplete, -, hlen⟩ := h.complete (by simpa using hfits)
      rw [hdone] at hcomplete
      have hwhole : m = max size 0 := hcomplete
      have hsize : size = w.data.length := hcarries
      omega
    obtain ⟨n, old, hrec⟩ := h.recorded
    refine ⟨h.good, ⟨rfl, le_refl _⟩, h.consumer, ⟨rfl, rfl⟩, ⟨n, old, hrec.frame _ _ _⟩,
      h.published, h.copied, fun hfits => ?_, nofun⟩
    · rw [hplain] at hfits
      cases hfits
  · have harch := (h.archived (.inr ⟨size, m, hdone⟩)).2
    apply h.restart { w with producer := .idle, remain := w.remain - m, data := [], fits := false,
                             before := w.shared.copied } rfl rfl rfl
    · exact rfl
    · exact rfl
    · refine ⟨harch, nofun, closed_nil, fun _ => nofun, nofun, le_refl _, ?_, rfl⟩
      intro hbusy
      rcases hbusy with hbusy | hbusy
      · cases hbusy
      · exact absurd rfl hbusy
    · exact nofun
    · exact fun _ => rfl

theorem produce (h : Sound t w c released q pending taken) {sh : Shared (Byte β)}
    {p : Producer (Byte β)} (hs : RingThreads.produce w.shared w.producer = some (sh, p))
    (hzero : ∀ data size, w.producer = .entered data size → w.fits = false →
      w.shared.ring.mOut = 0 → size < w.shared.ring.mSize - w.shared.ring.mIn) :
    sh.fetched = w.shared.fetched ∧ ∃ q' pending',
      Sound t { w with shared := sh, producer := p } c released q' pending' taken := by
  have hroom : ∀ data size, w.producer = .entered data size → w.shared.ring.mOut = 0 →
      size < w.shared.ring.mSize - w.shared.ring.mIn := by
    intro data size hp hout
    cases hfits : w.fits with
    | false => exact hzero data size hp hfits hout
    | true =>
      have hcomplete := (h.complete hfits).1
      rw [hp] at hcomplete
      have hspace : size + q.length < w.shared.ring.mSize := hcomplete
      rcases h.good.represents.in_cases with ⟨_, hq⟩ | ⟨hlt, _⟩
      · omega
      · have := h.good.represents.in_nonneg
        omega
  rcases h.good.produce h.producer hroom with (hidle | ⟨size, m, hdone⟩) | ⟨s₂, p₂, hs₂, hout⟩
  · rw [hidle] at hs
    cases hs
  · rw [hdone] at hs
    cases hs
  · cases hs.symm.trans hs₂
    obtain ⟨ys, pending', hgood, hfits', hmout, hmsize⟩ := hout
    obtain ⟨hcarries, zs, hcopied, hzs⟩ := produce_carries h.carries hs
    obtain ⟨n, old, hrec⟩ := h.recorded
    obtain ⟨xs, hbefore, hxs⟩ := h.copied
    refine ⟨?_, q ++ ys, pending', hgood, hfits', h.consumer.mono hmout hmsize (by simp), hcarries,
      ⟨n, old, hrec.frame _ _ _⟩, ?_, ⟨xs ++ zs, ?_, ?_⟩, fun hfits => ?_,
      fun hidle => absurd hidle (produce_ne_idle hs)⟩
    · rw [hgood.fetched, h.good.fetched, List.take_append_of_le_length h.good.taken_le]
    · rw [← List.append_assoc]
      exact h.published.trans (List.prefix_append _ _)
    · rw [hcopied, hbefore, List.append_assoc]
    · intro b hb
      rcases List.mem_append.mp hb with hb | hb
      · exact hxs b hb
      · exact hzs b hb
    · obtain ⟨hcomplete, hrest, hremain⟩ := h.complete hfits
      obtain ⟨hcopied', hcomplete'⟩ :=
        produce_copied h.good.represents h.producer hcomplete hs
      exact ⟨hcomplete'.published (produce_ne_entered hs), hcopied'.trans hrest, hremain⟩

theorem consume (h : Sound t w c released q pending taken) {sh : Shared (Byte β)}
    {c' : Consumer (Byte β)} (hs : RingThreads.consume w.shared c = some (sh, c')) :
    ∃ released' q' taken',
      Sound t { w with shared := sh } c' released' q' pending taken' := by
  rcases h.good.consume h.consumer with (hidle | ⟨size, m, buf, hdone⟩) | ⟨s₂, c₂, hs₂, hout⟩
  · rw [hidle] at hs
    cases hs
  · rw [hdone] at hs
    cases hs
  · cases hs.symm.trans hs₂
    obtain ⟨k, taken', hgood, hfits, hmin, hmsize⟩ := hout
    have hshort : (q.drop k).length ≤ q.length := by simp
    have hsplit : released ++ q.take k ++ q.drop k = released ++ q := by
      rw [List.append_assoc, List.take_append_drop]
    have hcopied : sh.copied = w.shared.copied := by
      rw [hgood.copied, h.good.copied, ← List.append_assoc, hsplit, List.append_assoc]
    obtain ⟨n, old, hrec⟩ := h.recorded
    refine ⟨_, _, _, hgood, h.producer.mono hmin hmsize hshort, hfits, h.carries,
      ⟨n, old, hrec.frame _ _ _⟩, ?_, ?_, fun hfit => ?_, h.resting⟩
    · rw [hsplit]
      exact h.published
    · rw [hcopied]
      exact h.copied
    · obtain ⟨hcomplete, hrest, hremain⟩ := h.complete hfit
      rw [hcopied]
      exact ⟨hcomplete.mono hmin hmsize hshort, hrest, hremain⟩

theorem reader {c' : Consumer (Byte β)} (h : Sound t w c released q pending taken)
    (hc : c'.Fits w.shared.ring q taken) : Sound t w c' released q pending taken :=
  ⟨h.good, h.producer, hc, h.carries, h.recorded, h.published, h.copied, h.complete, h.resting⟩

end Sound

theorem sound_start (t : ℤ) (garbage : ℤ → ℤ → Byte β) :
    Sound t ((start garbage).worker t) .idle [] [] [] 0 where
  good := good_new (by decide) (garbage t)
  producer := rfl
  consumer := rfl
  carries := rfl
  recorded := by
    refine ⟨0, [], ⟨nofun, linked_nil, closed_nil, nofun⟩, nofun, closed_nil, fun _ => nofun, nofun,
      le_refl _, ?_, rfl⟩
    intro hbusy
    rcases hbusy with hbusy | hbusy
    · cases hbusy
    · exact absurd rfl hbusy
  published := List.prefix_refl _
  copied := ⟨[], rfl, nofun⟩
  complete := nofun
  resting := fun _ => rfl

end GenericServer.LoggerThreads
