import GenericServer.RingThreadsSafety

/-!
# Where `retrive` takes its bytes

With its load of `m_in` a `retrive` has fixed the bytes that it returns: all that are published
at that moment, or as many as it is asked for. What it copies and releases later are these.
-/
namespace GenericServer.RingThreads

open BlockMemory RingBuffer

variable {β : Type*} {s s' : Shared β} {c c' : Consumer β} {released q pending : List β} {taken : ℕ}

/-- How many of the bytes that are not released yet the running `retrive` has taken or will take. -/
def Consumer.claim (r : RingBuffer β) : Consumer β → ℤ
  | .idle => 0
  | .entered _ => 0
  | .copying _ len => len
  | .storing _ len _ => len
  | .copyingWrapped size input => min size (r.mSize - r.mOut + input)
  | .storingWrapped size input len _ => len + min (size - len) input
  | .copyingRest _ _ len2 _ => len2
  | .storingRest _ _ len2 _ => len2
  | .done _ _ _ => 0

/-- The load of `m_in` is behind. -/
def Consumer.loaded : Consumer β → Bool
  | .idle | .entered _ => false
  | _ => true

theorem Good.claim_le (h : Good s released q pending taken) (hc : c.Fits s.ring q taken) :
    taken ≤ c.claim s.ring ∧ c.claim s.ring ≤ q.length := by
  have hout := h.represents.out_lt
  have htaken := h.taken_le
  cases c <;> simp only [Consumer.Fits] at hc <;> simp only [Consumer.claim] <;> omega

theorem Good.length_eq {released' q' pending' : List β} {taken' : ℕ}
    (h : Good s released q pending taken) (h' : Good s released' q' pending' taken') :
    q'.length = q.length := by
  have hsize := h.represents.dataSize_eq
  rw [h'.represents.dataSize_eq] at hsize
  exact_mod_cast hsize

theorem Good.published_unique {q' pending' : List β} {taken' : ℕ}
    (h : Good s released q pending taken) (h' : Good s released q' pending' taken') :
    q' = q ∧ pending' = pending := by
  have hcopied := h'.copied
  rw [h.copied] at hcopied
  have hall := List.append_cancel_left hcopied
  obtain ⟨hq, hpending⟩ := List.append_inj hall (h.length_eq h').symm
  exact ⟨hq.symm, hpending.symm⟩

theorem Good.released_unique {released' q' : List β} {taken' : ℕ}
    (h : Good s released q pending taken) (h' : Good s released' q' pending taken') :
    released' = released ∧ q' = q ∧ taken' = taken := by
  have hcopied := h'.copied
  rw [h.copied, ← List.append_assoc, ← List.append_assoc] at hcopied
  obtain ⟨hreleased, hq⟩ := List.append_inj' (List.append_cancel_right hcopied) (h.length_eq h').symm
  subst hreleased hq
  have hfetched := congrArg List.length h'.fetched
  rw [h.fetched, List.length_append, List.length_append, List.length_take, List.length_take]
    at hfetched
  have := h.taken_le
  have := h'.taken_le
  exact ⟨rfl, rfl, by omega⟩

theorem copyOut_length {len : ℤ} {xs : List β} (h : s.copyOut len = some (s', xs)) :
    xs.length = len.toNat := by
  obtain ⟨ys, hys, heq⟩ := Option.map_eq_some_iff.mp h
  cases heq
  rw [RingBuffer.copyOut] at hys
  split_ifs at hys
  cases hys
  exact length_readBlock ..

theorem Good.consume_count (h : Good s released q pending taken) (hc : c.Fits s.ring q taken)
    (hs : RingThreads.consume s c = some (s', c')) :
    ∃ k taken' xs, k ≤ q.length ∧ Good s' (released ++ q.take k) (q.drop k) pending taken' ∧
      c'.Fits s'.ring (q.drop k) taken' ∧ s'.fetched = s.fetched ++ xs ∧ c'.buf = c.buf ++ xs ∧
      k + taken' = taken + xs.length := by
  obtain ⟨xs, hfetched, hbuf⟩ := consume_buf hs
  rcases h.consume hc with (rfl | ⟨size, m, buf, rfl⟩) | ⟨s₂, c₂, hs₂, k, taken', hgood, hfits, -, -⟩
  · cases hs
  · cases hs
  cases hs.symm.trans hs₂
  obtain ⟨j, hj, htake, hdrop⟩ : ∃ j, j ≤ q.length ∧ q.take k = q.take j ∧ q.drop k = q.drop j := by
    rcases Nat.le_total k q.length with hk | hk
    · exact ⟨k, hk, rfl, rfl⟩
    · refine ⟨q.length, le_rfl, ?_, ?_⟩
      · rw [List.take_of_length_le hk, List.take_length]
      · rw [List.drop_of_length_le hk, List.drop_length]
  rw [htake, hdrop] at hgood
  rw [hdrop] at hfits
  refine ⟨j, taken', xs, hj, hgood, hfits, hfetched, hbuf, ?_⟩
  have hlength := congrArg List.length hgood.fetched
  rw [hfetched, h.fetched] at hlength
  simp only [List.length_append, List.length_take, List.length_drop] at hlength
  have := h.taken_le
  have htaken' := hgood.taken_le
  rw [List.length_drop] at htaken'
  omega

/-- The load of `m_in`: from here on it is settled what `retrive` returns. -/
theorem Good.load {size : ℤ} (h : Good s released q pending taken)
    (hs : RingThreads.consume s (.entered size) = some (s', c')) :
    s' = s ∧ c'.loaded = true ∧ c'.buf = [] ∧
      q.take (c'.claim s.ring).toNat = q.take size.toNat ∧
      q.drop (c'.claim s.ring).toNat = q.drop size.toNat := by
  have hsame : ∀ {m : ℤ}, m = min size q.length →
      q.take m.toNat = q.take size.toNat ∧ q.drop m.toNat = q.drop size.toNat := by
    rintro m rfl
    rcases le_total size q.length with hle | hle
    · rw [min_eq_left hle]
      exact ⟨rfl, rfl⟩
    · rw [min_eq_right hle, Int.toNat_natCast, List.take_length, List.drop_length,
        List.take_of_length_le (by omega), List.drop_of_length_le (by omega)]
      exact ⟨rfl, rfl⟩
  simp only [RingThreads.consume] at hs
  split_ifs at hs with hneg hge
  · cases hs
    refine ⟨rfl, rfl, rfl, ?_⟩
    rw [Int.toNat_of_nonpos hneg]
    exact ⟨rfl, rfl⟩
  · cases hs
    refine ⟨rfl, rfl, rfl, hsame ?_⟩
    rcases h.represents.in_cases with ⟨-, hq⟩ | ⟨hlt, -⟩
    · rw [hq]
      rfl
    · omega
  · cases hs
    refine ⟨rfl, rfl, rfl, hsame ?_⟩
    rcases h.represents.in_cases with ⟨hle, -⟩ | ⟨-, hq⟩
    · omega
    · rw [hq]
      rfl

/-- Behind the load the claim gets smaller by what is released, and by nothing else. -/
theorem Good.fetch (h : Good s released q pending taken) (hc : c.Fits s.ring q taken)
    (hloaded : c.loaded = true) (hs : RingThreads.consume s c = some (s', c')) :
    ∃ k taken' xs, Good s' (released ++ q.take k) (q.drop k) pending taken' ∧
      c'.Fits s'.ring (q.drop k) taken' ∧ s'.fetched = s.fetched ++ xs ∧ c'.buf = c.buf ++ xs ∧
      k + taken' = taken + xs.length ∧ c'.claim s'.ring + k = c.claim s.ring ∧
      c'.loaded = true := by
  obtain ⟨k, taken', xs, hk, hgood, hfits, hfetched, hbuf, hcount⟩ := h.consume_count hc hs
  suffices hclaim : c'.claim s'.ring + k = c.claim s.ring ∧ c'.loaded = true from
    ⟨k, taken', xs, hgood, hfits, hfetched, hbuf, hcount, hclaim⟩
  have hout := h.represents.out_lt
  cases c with
  | idle | done size m buf => cases hs
  | entered size => cases hloaded
  | copying size len =>
    obtain ⟨⟨s₂, ys⟩, hcopy, heq⟩ := Option.map_eq_some_iff.mp hs
    cases heq
    have hlength := copyOut_length hcopy
    cases hbuf
    obtain ⟨hzero, hlen, -⟩ := hc
    simp only [Consumer.Fits] at hfits
    simp only [Consumer.claim]
    exact ⟨by omega, rfl⟩
  | storing size len buf =>
    cases hs
    have hnone := List.self_eq_append_right.mp hbuf
    simp only [hnone, Consumer.Fits, List.length_nil] at hc hfits hcount
    simp only [Consumer.claim]
    exact ⟨by omega, rfl⟩
  | copyingWrapped size input =>
    obtain ⟨⟨s₂, ys⟩, hcopy, heq⟩ := Option.map_eq_some_iff.mp hs
    cases heq
    have hlength := copyOut_length hcopy
    cases hbuf
    obtain ⟨hzero, hsize, hinput, -⟩ := hc
    simp only [Consumer.Fits] at hfits
    simp only [Consumer.claim]
    exact ⟨by omega, rfl⟩
  | storingWrapped size input len buf =>
    obtain ⟨htaken, hlen, hsize, hinput, -⟩ := hc
    simp only [RingThreads.consume, Option.some.injEq, Prod.mk.injEq] at hs
    obtain ⟨-, rfl⟩ := hs
    split_ifs at hbuf hfits ⊢ with hremain
    · have hnone := List.self_eq_append_right.mp hbuf
      simp only [hnone, Consumer.Fits, List.length_nil] at hfits hcount
      simp only [Consumer.claim]
      exact ⟨by omega, rfl⟩
    · have hnone := List.self_eq_append_right.mp hbuf
      simp only [hnone, Consumer.Fits, List.length_nil] at hfits hcount
      simp only [Consumer.claim]
      exact ⟨by omega, rfl⟩
  | copyingRest size len len2 buf =>
    obtain ⟨⟨s₂, ys⟩, hcopy, heq⟩ := Option.map_eq_some_iff.mp hs
    cases heq
    have hlength := copyOut_length hcopy
    have hxs : ys = xs := List.append_cancel_left hbuf
    subst hxs
    obtain ⟨hzero, -, hlen, -⟩ := hc
    simp only [Consumer.Fits] at hfits
    simp only [Consumer.claim]
    exact ⟨by omega, rfl⟩
  | storingRest size len len2 buf =>
    cases hs
    have hnone := List.self_eq_append_right.mp hbuf
    simp only [hnone, Consumer.Fits, List.length_nil] at hc hfits hcount
    simp only [Consumer.claim]
    exact ⟨by omega, rfl⟩

end GenericServer.RingThreads
