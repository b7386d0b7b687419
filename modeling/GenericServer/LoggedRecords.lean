import GenericServer.LoggerRefinement

/-!
# Logged records

What a thread has copied into its ring is made of prefixes of the records that it has logged: each
round of the retry loop in `AsyncLogger::append` begins with the record anew. Where the rings take
either a whole record or nothing, it is these records.
-/
namespace GenericServer.LoggerThreads

open RingBuffer RingThreads TransitionRuns

variable {β : Type*} {t : ℤ} {s s' : Logger β} {l : Label β} {ls : List (Label β)}

def Label.records (t : ℤ) : Label β → List (List β)
  | .log u record => if u = t then [record] else []
  | _ => []

/-- The records that thread `t` logs in the course of a schedule. -/
def records (t : ℤ) (ls : List (Label β)) : List (List β) := ls.flatMap (Label.records t)

/-- The same, one behind the other. -/
def logged (t : ℤ) (ls : List (Label β)) : List β := (records t ls).flatten

/-- The list is made of prefixes of the records, in the order of the records; those of one record
are together at least as long as the record. -/
inductive Pieces : List (List β) → List β → Prop
  | nil : Pieces [] []
  | record {recs : List (List β)} {xs record : List β} {ps : List (List β)} (h : Pieces recs xs)
    (hps : ∀ p ∈ ps, p <+: record) (hall : record.length ≤ ps.flatten.length) :
    Pieces (recs ++ [record]) (xs ++ ps.flatten)

/-- The ring has got such prefixes of the records; only of the running one there may be less. -/
def Worker.Copies (w : Worker β) (recs : List (List β)) : Prop :=
  ∃ xs, Pieces recs xs ∧ w.shared.copied.map Byte.val <+: xs ∧
    (w.producer = .idle → w.shared.copied.map Byte.val = xs)

/-- A ring `append` finds room for the whole record, or for nothing. -/
def Whole (s : Logger β) : Label β → Prop
  | .produce t => ∀ data size, (s.worker t).producer = .entered data size →
      size ≤ (s.worker t).shared.ring.availSize ∨ (s.worker t).shared.ring.availSize = 0
  | _ => True

/-! ## Properties of a worker -/

/-- A property of a worker, and of the records that its thread has logged, that is kept by all steps
that meet the condition. -/
structure Lasting (ok : Logger β → Label β → Prop) (P : Worker β → List (List β) → Prop) : Prop where
  log : ∀ {w recs} t record, w.producer = .idle → P w recs →
    P (w.log t record) (recs ++ [record])
  produce : ∀ {s : Logger β} {t c released q pending taken sh p recs}, ok s (.produce t) →
    Sound t (s.worker t) c released q pending taken →
    RingThreads.produce (s.worker t).shared (s.worker t).producer = some (sh, p) →
    P (s.worker t) recs → P { s.worker t with shared := sh, producer := p } recs
  pushed : ∀ {t w c released q pending taken size m recs}, Sound t w c released q pending taken →
    w.producer = .done size m → P w recs → P (w.pushed m) recs
  consume : ∀ {t w c c' released q pending taken sh recs}, Sound t w c released q pending taken →
    RingThreads.consume w.shared c = some (sh, c') → P w recs → P { w with shared := sh } recs

namespace Lasting

variable {ok : Logger β → Label β → Prop} {P : Worker β → List (List β) → Prop}
  {recs : ℤ → List (List β)}

theorem update (h : ∀ t, P (s.worker t) (recs t)) {u : ℤ} {v : Worker β} (hv : P v (recs u))
    (t : ℤ) : P (Function.update s.worker u v t) (recs t ++ []) := by
  rw [List.append_nil]
  by_cases htu : t = u
  · subst htu
    rw [Function.update_self]
    exact hv
  · rw [Function.update_of_ne htu]
    exact h t

theorem update_log (hP : Lasting ok P) (h : ∀ t, P (s.worker t) (recs t)) {u : ℤ}
    (hidle : (s.worker u).producer = .idle) (record : List β) (t : ℤ) :
    P (Function.update s.worker u ((s.worker u).log u record) t)
      (recs t ++ Label.records t (.log u record)) := by
  by_cases htu : t = u
  · subst htu
    rw [Function.update_self, Label.records, if_pos rfl]
    exact hP.log t record hidle (h t)
  · rw [Function.update_of_ne htu, Label.records, if_neg (Ne.symm htu), List.append_nil]
    exact h t

theorem step (hP : Lasting ok P) {a : LoggerDrain.Logger (Byte β)} {todo : List (Byte β)}
    (hrefines : Refines todo s a) (hok : ok s l) (hs : LoggerThreads.step s l = some s')
    (h : ∀ t, P (s.worker t) (recs t)) (t : ℤ) : P (s'.worker t) (recs t ++ l.records t) := by
  have hsame : P (s.worker t) (recs t ++ []) := (List.append_nil (recs t)).symm ▸ h t
  cases l with
  | log u record =>
    simp only [LoggerThreads.step] at hs
    split at hs
    · rename_i hidle
      cases hs
      exact hP.update_log h hidle record t
    · cases hs
  | produce u =>
    obtain ⟨⟨sh, p⟩, hprod, rfl⟩ := Option.map_eq_some_iff.mp hs
    obtain ⟨released, q, pending, taken, hsound, -⟩ := hrefines.rings u
    exact update h (hP.produce hok hsound hprod (h u)) t
  | pushed u =>
    simp only [LoggerThreads.step] at hs
    split at hs
    · rename_i size m hdone
      cases hs
      obtain ⟨released, q, pending, taken, hsound, -⟩ := hrefines.rings u
      exact update h (hP.pushed hsound hdone (h u)) t
    · cases hs
  | retrive =>
    simp only [LoggerThreads.step] at hs
    split at hs
    · rename_i u final hpc
      obtain ⟨⟨sh, c⟩, hcons, rfl⟩ := Option.map_eq_some_iff.mp hs
      have hring := hrefines.rings u
      rw [reader_retriving hpc, if_pos rfl] at hring
      obtain ⟨released, q, pending, taken, hsound, -⟩ := hring
      exact update h (hP.consume hsound hcons (h u)) t
    · cases hs
  | stop =>
    cases hs
    exact hsame
  | running | finish =>
    simp only [LoggerThreads.step] at hs
    split at hs
    · cases hs
      exact hsame
    · cases hs
  | check =>
    simp only [LoggerThreads.step] at hs
    split at hs
    · split_ifs at hs <;> cases hs <;> exact hsame
    · cases hs
  | retrived | settle timeout =>
    simp only [LoggerThreads.step] at hs
    split at hs
    · cases hs
      split_ifs <;> exact hsame
    · cases hs

theorem run (hP : Lasting ok P) {a : LoggerDrain.Logger (Byte β)} {todo : List (Byte β)}
    (hrefines : Refines todo s a) (hclear : Guarded LoggerThreads.step Clear s ls)
    (hok : Guarded LoggerThreads.step ok s ls)
    (hr : TransitionRuns.run LoggerThreads.step s ls = some s')
    (h : ∀ t, P (s.worker t) (recs t)) (t : ℤ) : P (s'.worker t) (recs t ++ records t ls) := by
  induction ls generalizing s a todo recs with
  | nil =>
    cases hr
    rw [records, List.flatMap_nil, List.append_nil]
    exact h t
  | cons l ls ih =>
    obtain ⟨u, hu, hr⟩ := run_cons_eq_some.mp hr
    obtain ⟨ms, b, todo', -, hnext⟩ := hrefines.step hclear.1 hu
    have hall := ih hnext (hclear.2 u hu) (hok.2 u hu) hr (hP.step hrefines hok.1 hu h)
    rw [List.append_assoc] at hall
    exact hall

theorem of_run (hP : Lasting ok P) (garbage : ℤ → ℤ → Byte β)
    (hclear : Guarded LoggerThreads.step Clear (start garbage) ls)
    (hok : Guarded LoggerThreads.step ok (start garbage) ls)
    (hr : TransitionRuns.run LoggerThreads.step (start garbage) ls = some s)
    (hstart : ∀ t, P ((start garbage).worker t) []) (t : ℤ) : P (s.worker t) (records t ls) :=
  hP.run (refines_start garbage (garbage 0)) hclear hok hr hstart t

end Lasting

theorem map_val_stamp (t : ℤ) (n : ℕ) (fits : Bool) (record : List β) :
    (stamp t n fits record).map Byte.val = record := by
  induction record with
  | nil => rfl
  | cons b bs ih => rw [stamp, List.map_cons, ih]

variable {w : Worker β} {recs : List (List β)} {c : Consumer (Byte β)}
  {released q pending : List (Byte β)} {taken : ℕ} {sh : Shared (Byte β)} {p : Producer (Byte β)}

theorem consume_keeps {c' : Consumer (Byte β)} (hs : Sound t w c released q pending taken)
    (hcons : RingThreads.consume w.shared c = some (sh, c')) :
    sh.copied = w.shared.copied ∧ sh.ring.mIn = w.shared.ring.mIn ∧
      sh.ring.mSize = w.shared.ring.mSize := by
  rcases hs.good.consume hs.consumer with (hidle | ⟨size, m, buf, hdone⟩) | ⟨sh₂, c₂, hcons₂, hout⟩
  · rw [hidle] at hcons
    cases hcons
  · rw [hdone] at hcons
    cases hcons
  · cases hcons.symm.trans hcons₂
    obtain ⟨k, taken', hgood, -, hin, hsize⟩ := hout
    refine ⟨?_, hin, hsize⟩
    rw [hgood.copied, hs.good.copied, ← List.append_assoc (released ++ q.take k),
      List.append_assoc released, List.take_append_drop, List.append_assoc]

/-! ## Prefixes of records -/

/-- How much of the record the running `append` of the ring has copied. -/
def written : Producer (Byte β) → ℤ
  | .idle | .entered _ _ | .copying _ _ _ | .copyingBehind _ _ _ => 0
  | .storing _ _ _ len | .copyingRest _ _ len _ | .storingBehind _ _ len => len
  | .storingRest _ _ len len2 => len + len2
  | .done _ n => n

theorem produce_written {r : RingBuffer (Byte β)} {data : List (Byte β)} {sh' : Shared (Byte β)}
    {p' : Producer (Byte β)} (hp : p.Fits r q pending) (hc : Carries data p)
    (hs : RingThreads.produce sh p = some (sh', p')) :
    ∃ xs, sh'.copied = sh.copied ++ xs ∧
      data.take (written p').toNat = data.take (written p).toNat ++ xs := by
  have hnothing : ∀ n : ℕ, ∃ xs, sh.copied = sh.copied ++ xs ∧
      data.take n = data.take n ++ xs :=
    fun n => ⟨[], (List.append_nil _).symm, (List.append_nil _).symm⟩
  cases p with
  | idle | done size m => cases hs
  | entered d size =>
    simp only [RingThreads.produce] at hs
    split_ifs at hs <;> cases hs <;> exact hnothing 0
  | storing d size out len =>
    cases hs
    split_ifs <;> exact hnothing len.toNat
  | storingRest d size len len2 =>
    cases hs
    exact hnothing (len + len2).toNat
  | storingBehind d size len =>
    cases hs
    exact hnothing len.toNat
  | copying d size out | copyingBehind d size len =>
    obtain ⟨rfl, -⟩ := hc
    obtain ⟨sh₂, hcopy, heq⟩ := Option.map_eq_some_iff.mp hs
    cases heq
    exact ⟨_, (copyIn_copied hcopy).1, rfl⟩
  | copyingRest d size len len2 =>
    obtain ⟨rfl, -⟩ := hc
    obtain ⟨-, -, hlen, hlen2, -⟩ := hp
    obtain ⟨sh₂, hcopy, heq⟩ := Option.map_eq_some_iff.mp hs
    cases heq
    exact ⟨_, (copyIn_copied hcopy).1, (take_append_slice d hlen hlen2).symm⟩

theorem produce_within {data : List (Byte β)} {sh' : Shared (Byte β)} {p' : Producer (Byte β)}
    (hr : sh.ring.Represents q) (hp : p.Fits sh.ring q pending) (hc : Carries data p)
    (hwithin : 0 ≤ written p ∧ written p ≤ data.length)
    (hs : RingThreads.produce sh p = some (sh', p')) :
    0 ≤ written p' ∧ written p' ≤ data.length := by
  have hin := hr.in_lt
  cases p with
  | idle | done size m => cases hs
  | entered d size =>
    simp only [RingThreads.produce] at hs
    split_ifs at hs <;> cases hs <;> exact hwithin
  | storing d size out len =>
    cases hs
    split_ifs <;> exact hwithin
  | storingRest d size len len2 | storingBehind d size len =>
    cases hs
    exact hwithin
  | copying d size out =>
    obtain ⟨rfl, rfl⟩ := hc
    obtain ⟨-, hsize, -⟩ := hp
    obtain ⟨sh₂, -, heq⟩ := Option.map_eq_some_iff.mp hs
    cases heq
    simp only [written]
    omega
  | copyingBehind d size len =>
    obtain ⟨rfl, rfl⟩ := hc
    obtain ⟨-, hlen, hle, -⟩ := hp
    obtain ⟨sh₂, -, heq⟩ := Option.map_eq_some_iff.mp hs
    cases heq
    exact ⟨hlen, hle⟩
  | copyingRest d size len len2 =>
    obtain ⟨rfl, rfl⟩ := hc
    obtain ⟨-, -, hlen, hlen2, hle, -⟩ := hp
    obtain ⟨sh₂, -, heq⟩ := Option.map_eq_some_iff.mp hs
    cases heq
    exact ⟨Int.add_nonneg hlen hlen2, hle⟩

/-- The running `AsyncLogger::append`: behind the earlier records (`old`) the ring has got the
prefixes `ps` of the record, and a part of the next one. -/
structure Attempt (w : Worker β) (old : List β) (ps : List (List β)) : Prop where
  busy : w.producer ≠ .idle
  pieces : ∀ p ∈ ps, p <+: w.data.map Byte.val
  copied : w.shared.copied.map Byte.val =
    old ++ (ps ++ [(w.data.take (written w.producer).toNat).map Byte.val]).flatten
  within : 0 ≤ written w.producer ∧ written w.producer ≤ w.data.length
  remain : w.remain + ps.flatten.length = w.data.length

def Attempted (w : Worker β) (recs : List (List β)) : Prop :=
  w.producer = .idle ∧ Pieces recs (w.shared.copied.map Byte.val) ∨
    ∃ earlier old ps, recs = earlier ++ [w.data.map Byte.val] ∧ Pieces earlier old ∧
      Attempt w old ps

namespace Attempt

variable {old : List β} {ps : List (List β)}

theorem prefixes (h : Attempt w old ps) (n : ℕ) :
    ∀ p ∈ ps ++ [(w.data.take n).map Byte.val], p <+: w.data.map Byte.val := by
  intro p hp
  rcases List.mem_append.mp hp with hp | hp
  · exact h.pieces p hp
  · rw [List.mem_singleton.mp hp]
    exact (List.take_prefix n w.data).map Byte.val

theorem length_pieces (h : Attempt w old ps) :
    (ps ++ [(w.data.take (written w.producer).toNat).map Byte.val]).flatten.length =
      ps.flatten.length + written w.producer := by
  obtain ⟨hpos, hle⟩ := h.within
  rw [List.flatten_append, List.flatten_singleton, List.length_append, List.length_map,
    List.length_take]
  omega

theorem produce (h : Attempt w old ps) (hs : Sound t w c released q pending taken)
    (hprod : RingThreads.produce w.shared w.producer = some (sh, p)) :
    Attempt { w with shared := sh, producer := p } old ps := by
  obtain ⟨ys, hys, hwritten⟩ := produce_written hs.producer hs.carries hprod
  refine ⟨produce_ne_idle hprod, h.pieces, ?_, produce_within hs.good.represents hs.producer hs.carries h.within hprod,
    h.remain⟩
  dsimp only
  rw [hys, List.map_append, h.copied, hwritten]
  simp

theorem pushed (h : Attempt w old ps) {earlier : List (List β)} (hold : Pieces earlier old)
    {size m : ℤ} (hdone : w.producer = .done size m) :
    Attempted (w.pushed m) (earlier ++ [w.data.map Byte.val]) := by
  have hlength := h.length_pieces
  have hcopied := h.copied
  have hremain := h.remain
  have hprefixes := h.prefixes m.toNat
  rw [hdone] at hlength hcopied
  unfold Worker.pushed
  split_ifs with hagain
  · refine .inr ⟨earlier, old, _, rfl, hold, nofun, hprefixes, ?_,
      ⟨le_refl 0, Int.natCast_nonneg _⟩, ?_⟩
    · dsimp only [written] at hcopied ⊢
      rw [hcopied]
      simp
    · dsimp only [written] at hlength ⊢
      omega
  · refine .inl ⟨rfl, ?_⟩
    dsimp only [written] at hcopied hlength ⊢
    rw [hcopied]
    refine hold.record hprefixes ?_
    rw [List.length_map]
    omega

end Attempt

namespace Attempted

theorem copies (h : Attempted w recs) : w.Copies recs := by
  rcases h with ⟨-, hpieces⟩ | ⟨earlier, old, ps, rfl, hold, hrunning⟩
  · exact ⟨_, hpieces, List.prefix_rfl, fun _ => rfl⟩
  · -- the running call may yet take the record as a whole
    have hprefixes : ∀ p ∈ ps ++ [(w.data.take (written w.producer).toNat).map Byte.val] ++
        [w.data.map Byte.val], p <+: w.data.map Byte.val := by
      intro p hp
      rcases List.mem_append.mp hp with hp | hp
      · exact hrunning.prefixes _ p hp
      · rw [List.mem_singleton.mp hp]
    refine ⟨_, hold.record hprefixes ?_, ?_, fun hidle => absurd hidle hrunning.busy⟩
    · rw [List.flatten_append, List.flatten_singleton, List.length_append]
      exact Nat.le_add_left _ _
    · refine ⟨w.data.map Byte.val, ?_⟩
      rw [hrunning.copied, List.append_assoc, ← List.flatten_concat]

theorem log (h : Attempted w recs) (hidle : w.producer = .idle) (record : List β) :
    Attempted (w.log t record) (recs ++ [record]) := by
  rcases h with ⟨-, hpieces⟩ | ⟨earlier, old, ps, rfl, hold, hrunning⟩
  · refine .inr ⟨recs, _, [], ?_, hpieces, nofun, fun _ hp => absurd hp List.not_mem_nil, ?_,
      ⟨le_refl 0, Int.natCast_nonneg _⟩, Int.add_zero _⟩
    · simp only [Worker.log, map_val_stamp]
    · exact (List.append_nil _).symm
  · exact absurd hidle hrunning.busy

end Attempted

theorem lasting_attempted :
    Lasting (fun (_ : Logger β) (_ : Label β) => True) (Attempted (β := β)) where
  log _ record hidle h := h.log hidle record
  produce _ hs hprod h := by
    rcases h with ⟨hidle, -⟩ | ⟨earlier, old, ps, hrecs, hold, hrunning⟩
    · rw [hidle] at hprod
      cases hprod
    · exact .inr ⟨earlier, old, ps, hrecs, hold, hrunning.produce hs hprod⟩
  pushed _ hdone h := by
    rcases h with ⟨hidle, -⟩ | ⟨earlier, old, ps, rfl, hold, hrunning⟩
    · rw [hidle] at hdone
      cases hdone
    · exact hrunning.pushed hold hdone
  consume hs hcons h := by
    obtain ⟨hcopied, -⟩ := consume_keeps hs hcons
    rcases h with ⟨hidle, hpieces⟩ | ⟨earlier, old, ps, hrecs, hold, hrunning⟩
    · exact .inl ⟨hidle, hcopied.symm ▸ hpieces⟩
    · exact .inr ⟨earlier, old, ps, hrecs, hold, hrunning.busy, hrunning.pieces,
        (congrArg _ hcopied).trans hrunning.copied, hrunning.within, hrunning.remain⟩

/-- In whatever way `append` is held up, nothing but prefixes of the records gets into the ring, and
of each record at least as many bytes as it has. -/
theorem copies_of_run (garbage : ℤ → ℤ → Byte β) (hclear : Guarded step Clear (start garbage) ls)
    (hr : run step (start garbage) ls = some s) (t : ℤ) :
    (s.worker t).Copies (records t ls) :=
  (lasting_attempted.of_run garbage hclear (guarded_true ..) hr (fun _ => .inl ⟨rfl, .nil⟩) t).copies

/-! ## Whole records -/

/-- The running `append` of the ring takes nothing, or is still to look for room. -/
def Refused : Producer (Byte β) → Prop
  | .entered _ _ => True
  | .copyingBehind _ _ len => len = 0
  | .storingBehind _ _ len => len = 0
  | .done _ n => n = 0
  | _ => False

/-- The thread has logged `recs`; the running record is copied as a whole or not at all. -/
structure Handed (w : Worker β) (recs : List (List β)) : Prop where
  part : w.shared.copied = w.before ∧ Refused w.producer ∨
    (∀ q, w.producer.Complete w.shared.ring q) ∧
      w.shared.copied ++ w.producer.rest = w.before ++ w.data
  remain : w.remain = w.data.length
  recs : (w.before ++ w.data).map Byte.val = recs.flatten

namespace Handed

theorem copied_within (h : Handed w recs) : w.shared.copied.map Byte.val <+: recs.flatten := by
  rw [← h.recs]
  apply List.IsPrefix.map
  rcases h.part with ⟨hnothing, -⟩ | ⟨-, hall⟩
  · rw [hnothing]
    exact List.prefix_append _ _
  · rw [← hall]
    exact List.prefix_append _ _

theorem copied_eq (h : Handed w recs) (hidle : w.producer = .idle) :
    w.shared.copied.map Byte.val = recs.flatten := by
  rw [← h.recs]
  rcases h.part with ⟨-, hrefused⟩ | ⟨-, hall⟩
  · rw [hidle] at hrefused
    exact hrefused.elim
  · rw [hidle, Producer.rest, List.append_nil] at hall
    rw [hall]

theorem log (h : Handed w recs) (hidle : w.producer = .idle) (record : List β) :
    Handed (w.log t record) (recs ++ [record]) where
  part := .inl ⟨rfl, trivial⟩
  remain := rfl
  recs := by
    simp only [Worker.log, List.map_append, map_val_stamp]
    rw [h.copied_eq hidle, List.flatten_append, List.flatten_singleton]

theorem entered (hs : Sound t w c released q pending taken)
    {data : List (Byte β)} {size : ℤ} (hp : w.producer = .entered data size)
    (hprod : RingThreads.produce w.shared w.producer = some (sh, p))
    (hroom : size ≤ w.shared.ring.availSize ∨ w.shared.ring.availSize = 0)
    (hzero : w.fits = false → w.shared.ring.mOut = 0 →
      size < w.shared.ring.mSize - w.shared.ring.mIn) :
    sh = w.shared ∧ (Refused p ∨ (∀ q, p.Complete sh.ring q) ∧ p.rest = w.data) := by
  have hcarries := hs.carries
  rw [hp] at hcarries
  obtain ⟨rfl, rfl⟩ := hcarries
  have hin := hs.good.represents.in_lt
  have hout := hs.good.represents.out_nonneg
  have hfit : w.fits = true → (w.data.length : ℤ) + q.length < w.shared.ring.mSize := by
    intro hfits
    have hcomplete := (hs.complete hfits).1
    rw [hp] at hcomplete
    exact hcomplete
  have havail := hs.good.represents.availSize_eq
  rw [hp] at hprod
  simp only [RingThreads.produce] at hprod
  split_ifs at hprod with hneg hge
  · cases hprod
    exact ⟨rfl, .inl rfl⟩
  · -- `m_in >= out`, where the ring is full only with the reader at index 0
    cases hprod
    refine ⟨rfl, .inr ⟨fun _ => ?_, List.take_of_length_le (by simp)⟩⟩
    have hless : (w.data.length : ℤ) ≤ w.shared.ring.availSize := by
      rcases hroom with hroom | hnone
      · exact hroom
      · cases hfits : w.fits with
        | false =>
          have hlow := hzero hfits
          rw [availSize, if_pos hge] at hnone
          omega
        | true =>
          have := hfit hfits
          omega
    rw [availSize, if_pos hge] at hless
    simp only [Producer.Complete]
    omega
  · cases hprod
    rw [availSize, if_neg hge] at hroom
    rcases hroom with hroom | hnone
    · refine ⟨rfl, .inr ⟨fun _ => ?_, List.take_of_length_le (by simp)⟩⟩
      simp only [Producer.Complete]
      omega
    · refine ⟨rfl, .inl ?_⟩
      simp only [Refused]
      omega

theorem refused (hp : Refused w.producer) (hentered : ∀ data size, w.producer ≠ .entered data size)
    (hprod : RingThreads.produce w.shared w.producer = some (sh, p)) :
    sh.copied = w.shared.copied ∧ Refused p := by
  cases hw : w.producer with
  | entered data size => exact absurd hw (hentered data size)
  | idle | copying | storing | copyingRest | storingRest =>
    rw [hw] at hp
    exact hp.elim
  | done size n =>
    rw [hw] at hprod
    cases hprod
  | copyingBehind data size len =>
    rw [hw] at hp hprod
    obtain rfl : len = 0 := hp
    obtain ⟨sh₂, hcopy, heq⟩ := Option.map_eq_some_iff.mp hprod
    cases heq
    refine ⟨?_, rfl⟩
    rw [(copyIn_copied hcopy).1]
    exact List.append_nil _
  | storingBehind data size len =>
    rw [hw] at hp hprod
    cases hprod
    exact ⟨rfl, hp⟩

theorem produce (h : Handed w recs) (hs : Sound t w c released q pending taken)
    (hprod : RingThreads.produce w.shared w.producer = some (sh, p))
    (hroom : ∀ data size, w.producer = .entered data size →
      size ≤ w.shared.ring.availSize ∨ w.shared.ring.availSize = 0)
    (hzero : ∀ data size, w.producer = .entered data size → w.fits = false →
      w.shared.ring.mOut = 0 → size < w.shared.ring.mSize - w.shared.ring.mIn) :
    Handed { w with shared := sh, producer := p } recs := by
  refine ⟨?_, h.remain, h.recs⟩
  by_cases hentered : ∃ data size, w.producer = .entered data size
  · obtain ⟨data, size, hp⟩ := hentered
    obtain ⟨rfl, hnext⟩ := entered hs hp hprod (hroom data size hp) (hzero data size hp)
    have hbefore : w.shared.copied = w.before := by
      rcases h.part with ⟨hnothing, -⟩ | ⟨-, hall⟩
      · exact hnothing
      · have hcarries := hs.carries
        rw [hp] at hcarries hall
        obtain ⟨rfl, rfl⟩ := hcarries
        rw [Producer.rest, List.take_of_length_le (by simp)] at hall
        exact List.append_cancel_right hall
    rcases hnext with hrefused | ⟨hcomplete, hrest⟩
    · exact .inl ⟨hbefore, hrefused⟩
    · exact .inr ⟨hcomplete, by rw [hrest, hbefore]⟩
  · push Not at hentered
    rcases h.part with ⟨hnothing, hrefused⟩ | ⟨hcomplete, hall⟩
    · obtain ⟨hsame, hnext⟩ := refused hrefused hentered hprod
      exact .inl ⟨hsame.trans hnothing, hnext⟩
    · obtain ⟨hcopied, hcomplete⟩ :=
        produce_copied hs.good.represents hs.producer (hcomplete q) hprod
      exact .inr ⟨fun _ => hcomplete.published (produce_ne_entered hprod), hcopied.trans hall⟩

theorem pushed (h : Handed w recs) (hs : Sound t w c released q pending taken) {size m : ℤ}
    (hdone : w.producer = .done size m) : Handed (w.pushed m) recs := by
  have hsize : size = w.data.length := by
    have hcarries := hs.carries
    rw [hdone] at hcarries
    exact hcarries
  have hremain := h.remain
  have hcases : m = 0 ∧ w.shared.copied = w.before ∨
      m = w.data.length ∧ w.shared.copied = w.before ++ w.data := by
    rcases h.part with ⟨hnothing, hrefused⟩ | ⟨hcomplete, hall⟩
    · rw [hdone] at hrefused
      exact .inl ⟨hrefused, hnothing⟩
    · rw [hdone] at hcomplete hall
      have hwhole : m = max size 0 := hcomplete []
      rw [Producer.rest, List.append_nil] at hall
      exact .inr ⟨by omega, hall⟩
  unfold Worker.pushed
  split_ifs with hagain
  · rcases hcases with ⟨rfl, hnothing⟩ | ⟨rfl, -⟩
    · exact ⟨.inl ⟨hnothing, trivial⟩, by dsimp only; omega, h.recs⟩
    · omega
  · have hall : w.shared.copied = w.before ++ w.data ∧ w.remain - m = 0 := by
      rcases hcases with ⟨rfl, hnothing⟩ | ⟨rfl, hall⟩
      · have hnil : w.data = [] := List.eq_nil_of_length_eq_zero (by omega)
        rw [hnil, List.append_nil]
        exact ⟨hnothing, by omega⟩
      · exact ⟨hall, by omega⟩
    refine ⟨.inr ⟨fun _ => trivial, rfl⟩, hall.2, ?_⟩
    dsimp only
    rw [List.append_nil, hall.1]
    exact h.recs

end Handed

theorem Handed.consume (h : Handed w recs) (hs : Sound t w c released q pending taken)
    {c' : Consumer (Byte β)} (hcons : RingThreads.consume w.shared c = some (sh, c')) :
    Handed { w with shared := sh } recs := by
  obtain ⟨hcopied, hin, hsize⟩ := consume_keeps hs hcons
  refine ⟨?_, h.remain, h.recs⟩
  dsimp only
  rw [hcopied]
  refine h.part.imp_right fun ⟨hcomplete, hall⟩ => ⟨fun q => ?_, hall⟩
  exact (hcomplete q).mono hin hsize le_rfl

theorem handed_start (garbage : ℤ → ℤ → Byte β) (t : ℤ) : Handed ((start garbage).worker t) [] :=
  ⟨.inr ⟨fun _ => trivial, rfl⟩, rfl, rfl⟩

theorem lasting_handed :
    Lasting (fun (s : Logger β) l => Clear s l ∧ Whole s l) (Handed (β := β)) where
  log _ record hidle h := h.log hidle record
  produce hok hs hprod h := h.produce hs hprod hok.2 hok.1
  pushed hs hdone h := h.pushed hs hdone
  consume hs hcons h := h.consume hs hcons

theorem handed_of_run (garbage : ℤ → ℤ → Byte β)
    (hclear : Guarded step Clear (start garbage) ls) (hwhole : Guarded step Whole (start garbage) ls)
    (hr : run step (start garbage) ls = some s) (t : ℤ) : Handed (s.worker t) (records t ls) :=
  lasting_handed.of_run garbage hclear (hclear.and hwhole) hr (handed_start garbage) t

/-- What comes out of the rings of the threads is a part of what they have logged. -/
theorem prefix_logged (garbage : ℤ → ℤ → Byte β) (hclear : Guarded step Clear (start garbage) ls)
    (hwhole : Guarded step Whole (start garbage) ls) (hr : run step (start garbage) ls = some s)
    {xs : List (Byte β)} (hxs : xs <+: (s.worker t).shared.copied) :
    xs.map Byte.val <+: logged t ls :=
  (hxs.map Byte.val).trans (handed_of_run garbage hclear hwhole hr t).copied_within

theorem logged_prefix (garbage : ℤ → ℤ → Byte β) (hclear : Guarded step Clear (start garbage) ls)
    (hwhole : Guarded step Whole (start garbage) ls) (hr : run step (start garbage) ls = some s)
    (hidle : (s.worker t).producer = .idle) {xs : List (Byte β)}
    (hxs : (s.worker t).shared.copied <+: xs) : logged t ls <+: xs.map Byte.val := by
  rw [logged, ← (handed_of_run garbage hclear hwhole hr t).copied_eq hidle]
  exact hxs.map Byte.val

instance decidableWhole (s : Logger β) : (l : Label β) → Decidable (Whole s l)
  | .produce t =>
    match h : (s.worker t).producer with
    | .entered data size => decidable_of_iff
        (size ≤ (s.worker t).shared.ring.availSize ∨ (s.worker t).shared.ring.availSize = 0)
        ⟨fun hroom data' size' hp => by cases h.symm.trans hp; exact hroom,
          fun hroom => hroom data size h⟩
    | .idle => isTrue fun _ _ hp => by cases h.symm.trans hp
    | .copying _ _ _ => isTrue fun _ _ hp => by cases h.symm.trans hp
    | .storing _ _ _ _ => isTrue fun _ _ hp => by cases h.symm.trans hp
    | .copyingRest _ _ _ _ => isTrue fun _ _ hp => by cases h.symm.trans hp
    | .storingRest _ _ _ _ => isTrue fun _ _ hp => by cases h.symm.trans hp
    | .copyingBehind _ _ _ => isTrue fun _ _ hp => by cases h.symm.trans hp
    | .storingBehind _ _ _ => isTrue fun _ _ hp => by cases h.symm.trans hp
    | .done _ _ => isTrue fun _ _ hp => by cases h.symm.trans hp
  | .log _ _ | .pushed _ | .stop | .running | .check | .retrive | .retrived | .settle _
  | .finish => isTrue trivial

end GenericServer.LoggerThreads
