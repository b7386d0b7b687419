import GenericServer.LoggerThreadsRecords

/-!
# Records in the output of the asynchronous logger

The output is merged from what the threads have published, and the logger thread changes to
another ring only between records that did fit.
-/
namespace GenericServer.LoggerThreads

open BlockMemory CircularWindows ContiguousBlocks RingBuffer RingThreads TransitionRuns

variable {β : Type*} {t : ℤ}

def Pc.ring : Pc → Option ℤ
  | .visit t _ => some t
  | .retriving t _ => some t
  | _ => none

/-- Where the logger thread's `retrive` stands on the ring of `t`. -/
def Logger.reader (s : Logger β) (t : ℤ) : Consumer (Byte β) :=
  match s.pc with
  | .retriving u _ => if u = t then s.consumer else .idle
  | _ => .idle

/-- All that has been copied out of the rings, in order. -/
def Logger.stream (s : Logger β) : List (Byte β) := s.output ++ (s.staged ++ s.consumer.buf)

/-- The invariant of the logger: only the ring at which the logger thread is may have been left
inside a record. -/
structure Orderly (s : Logger β) : Prop where
  sound : ∀ t, ∃ released q pending taken,
    Sound t (s.worker t) (s.reader t) released q pending taken
  resting : (∀ t final, s.pc ≠ .retriving t final) → s.consumer = .idle
  own : ∀ b ∈ s.consumer.buf, s.pc.ring = some b.tid
  merged : ∀ t, s.stream.filter (·.tid = t) = (s.worker t).shared.fetched
  linked : Linked Byte.key Byte.inner s.stream
  settled : ∀ t, s.pc.ring ≠ some t → Closed Byte.inner (s.worker t).shared.fetched
  finished : s.pc = .finished → s.staged = []

variable {s s' : Logger β}

theorem orderly_start (garbage : ℤ → ℤ → Byte β) : Orderly (start garbage) where
  sound t := ⟨[], [], [], 0, sound_start t garbage⟩
  resting _ := rfl
  own := nofun
  merged _ := rfl
  linked := linked_nil
  settled _ _ := closed_nil
  finished _ := rfl

theorem nextPc_cases (final : Bool) (o : Option ℤ) :
    (∃ t, nextPc final o = .visit t final) ∨ nextPc final o = .finishing ∨
      nextPc final o = .settling := by
  cases o with
  | some t => exact .inl ⟨t, rfl⟩
  | none =>
    cases final
    · exact .inr (.inr rfl)
    · exact .inr (.inl rfl)

theorem nextPc_ne_retriving (final : Bool) (o : Option ℤ) (t : ℤ) (f : Bool) :
    nextPc final o ≠ .retriving t f := by
  rcases nextPc_cases final o with ⟨u, hpc⟩ | hpc | hpc <;> rw [hpc] <;> exact nofun

theorem nextPc_ne_finished (final : Bool) (o : Option ℤ) : nextPc final o ≠ .finished := by
  rcases nextPc_cases final o with ⟨u, hpc⟩ | hpc | hpc <;> rw [hpc] <;> exact nofun

theorem worker_self (s : Logger β) (t : ℤ) (w : Worker β) : (setWorker s t w).worker t = w :=
  Function.update_self ..

theorem worker_of_ne (s : Logger β) (w : Worker β) {u : ℤ} (hu : u ≠ t) :
    (setWorker s t w).worker u = s.worker u :=
  Function.update_of_ne hu ..

theorem reader_of_ne (h : ∀ final, s.pc ≠ .retriving t final) : s.reader t = .idle := by
  unfold Logger.reader
  split
  · rename_i u final hpc
    apply if_neg
    rintro rfl
    exact h final hpc
  · rfl

namespace Orderly

theorem worker (h : Orderly s) (ks : List ℤ) {w : Worker β}
    (hw : ∃ released q pending taken, Sound t w (s.reader t) released q pending taken)
    (hfetched : w.shared.fetched = (s.worker t).shared.fetched) :
    Orderly (setWorker { s with keys := ks } t w) := by
  have hsame : ∀ u, ((setWorker { s with keys := ks } t w).worker u).shared.fetched
      = (s.worker u).shared.fetched := by
    intro u
    by_cases hu : u = t
    · subst hu
      rw [worker_self]
      exact hfetched
    · rw [worker_of_ne _ _ hu]
  refine ⟨fun u => ?_, h.resting, h.own, fun u => ?_, h.linked, fun u hu => ?_, h.finished⟩
  · by_cases hu : u = t
    · subst hu
      rw [worker_self]
      exact hw
    · rw [worker_of_ne _ _ hu]
      exact h.sound u
  · rw [hsame]
    exact h.merged u
  · rw [hsame]
    exact h.settled u hu

theorem move (h : Orderly s) {pc : Pc} (hfrom : ∀ t final, s.pc ≠ .retriving t final)
    (hto : ∀ t final, pc ≠ .retriving t final)
    (hsettled : ∀ t, pc.ring ≠ some t → Closed Byte.inner (s.worker t).shared.fetched)
    (hend : pc = .finished → s.staged = []) : Orderly { s with pc := pc } := by
  refine ⟨fun u => ?_, fun _ => h.resting hfrom, ?_, h.merged, h.linked, hsettled, hend⟩
  swap
  · rw [h.resting hfrom]
    exact nofun
  have hidle := reader_of_ne (hfrom u)
  have hidle' := reader_of_ne (s := { s with pc := pc }) (hto u)
  rw [hidle', ← hidle]
  exact h.sound u

theorem flush (h : Orderly s) (hidle : s.consumer = .idle) : Orderly (flush s) := by
  have hstream : (LoggerThreads.flush s).stream = s.stream := by
    simp [LoggerThreads.flush, Logger.stream, hidle]
  refine ⟨h.sound, h.resting, h.own, fun u => ?_, ?_, h.settled, fun _ => rfl⟩
  · rw [hstream]
    exact h.merged u
  · rw [hstream]
    exact h.linked

theorem moveOn (h : Orderly s) {pc : Pc} (hring : s.pc.ring = none)
    (hto : ∀ t final, pc ≠ .retriving t final) (hend : pc = .finished → s.staged = []) :
    Orderly { s with pc := pc } := by
  apply h.move _ hto _ hend
  · intro t final hpc
    rw [hpc] at hring
    cases hring
  · intro t _
    apply h.settled
    rw [hring]
    exact nofun

theorem leave (h : Orderly s) {t : ℤ} {final : Bool} (hpc : s.pc = .visit t final)
    (hempty : (s.worker t).shared.ring.empty = true)
    (hgap : (s.worker t).fits = true → ¬ between (s.worker t).producer) (o : Option ℤ) :
    Orderly { s with pc := nextPc final o } := by
  apply h.move
  · rw [hpc]
    exact nofun
  · exact nextPc_ne_retriving final o
  · intro u _
    by_cases hu : u = t
    · subst hu
      obtain ⟨released, q, pending, taken, hsound⟩ := h.sound u
      exact hsound.settled hgap hempty
    · apply h.settled
      rw [hpc]
      simpa [Pc.ring] using Ne.symm hu
  · exact fun hend => absurd hend (nextPc_ne_finished final o)

theorem enter (h : Orderly s) {t : ℤ} {final : Bool} (hpc : s.pc = .visit t final) (size : ℤ) :
    Orderly { s with pc := .retriving t final, consumer := .entered size } := by
  have hfrom : ∀ u f, s.pc ≠ .retriving u f := by
    rw [hpc]
    exact nofun
  have hstream : Logger.stream { s with pc := .retriving t final, consumer := .entered size }
      = s.stream := by
    simp only [Logger.stream, h.resting hfrom]
    rfl
  refine ⟨fun u => ?_, fun hto => absurd rfl (hto t final), fun _ hb => absurd hb List.not_mem_nil,
    fun u => ?_, ?_, fun u hu => ?_, fun hend => by cases hend⟩
  · obtain ⟨released, q, pending, taken, hsound⟩ := h.sound u
    rw [reader_of_ne (hfrom u)] at hsound
    refine ⟨released, q, pending, taken, hsound.reader ?_⟩
    have hidle := hsound.consumer
    simp only [Logger.reader]
    split_ifs
    · exact hidle
    · exact hidle
  · rw [hstream]
    exact h.merged u
  · rw [hstream]
    exact h.linked
  · apply h.settled
    rw [hpc]
    exact hu

/-- The logger thread copies out of a ring, and the block joins the stream. -/
theorem fetch (h : Orderly s) {t : ℤ} {final : Bool} (hpc : s.pc = .retriving t final)
    {sh : Shared (Byte β)} {c : Consumer (Byte β)}
    (hs : RingThreads.consume (s.worker t).shared s.consumer = some (sh, c)) :
    Orderly (setWorker { s with consumer := c } t { s.worker t with shared := sh }) := by
  obtain ⟨released, q, pending, taken, hsound⟩ := h.sound t
  have hreader : s.reader t = s.consumer := by simp [Logger.reader, hpc]
  rw [hreader] at hsound
  obtain ⟨released', q', taken', hsound'⟩ := hsound.consume hs
  obtain ⟨xs, hfetched, hbuf⟩ := consume_buf hs
  obtain ⟨rest, hrest⟩ := hsound'.fetched_prefix
  have htids : ∀ b ∈ xs, b.tid = t := by
    intro b hb
    apply hsound'.tids
    rw [← hrest]
    apply List.mem_append_left
    rw [hfetched]
    exact List.mem_append_right _ hb
  have hstream : (setWorker { s with consumer := c } t { s.worker t with shared := sh }).stream
      = s.stream ++ xs := by
    simp only [Logger.stream, setWorker, hbuf, List.append_assoc]
  refine ⟨fun u => ?_, fun hto => absurd hpc (hto t final), fun b hb => ?_, fun u => ?_, ?_,
    fun u hu => ?_, h.finished⟩
  · by_cases hu : u = t
    · subst hu
      rw [worker_self]
      refine ⟨released', q', pending, taken', ?_⟩
      simpa [Logger.reader, setWorker, hpc] using hsound'
    · rw [worker_of_ne _ _ hu]
      have hother := h.sound u
      simp only [Logger.reader, setWorker, hpc, if_neg (Ne.symm hu)] at hother ⊢
      exact hother
  · change b ∈ c.buf at hb
    rw [hbuf] at hb
    rcases List.mem_append.mp hb with hb | hb
    · exact h.own b hb
    · rw [htids b hb]
      simp [setWorker, Pc.ring, hpc]
  · rw [hstream, List.filter_append, h.merged]
    by_cases hu : u = t
    · subst hu
      rw [worker_self, hfetched, List.filter_eq_self.mpr (by simpa using htids)]
    · rw [worker_of_ne _ _ hu, List.filter_eq_nil_iff.mpr, List.append_nil]
      intro b hb
      rw [decide_eq_true_iff, htids b hb]
      exact Ne.symm hu
  · rw [hstream]
    apply h.linked.append_of_source Byte.tid t
    · rw [h.merged, ← hfetched]
      exact hsound'.linked.of_prefix hsound'.fetched_prefix
    · intro u hu
      rw [h.merged]
      apply h.settled
      rw [hpc]
      simpa [Pc.ring] using Ne.symm hu
  · have hne : u ≠ t := by
      rintro rfl
      exact hu (by simp [setWorker, Pc.ring, hpc])
    rw [worker_of_ne _ _ hne]
    exact h.settled u hu

theorem stage (h : Orderly s) {t size m : ℤ} {final : Bool} {buf : List (Byte β)}
    (hpc : s.pc = .retriving t final) (hc : s.consumer = .done size m buf) :
    Orderly { s with pc := .visit t final, consumer := .idle, staged := s.staged ++ buf } := by
  have hstream : Logger.stream
      { s with pc := .visit t final, consumer := .idle, staged := s.staged ++ buf } = s.stream := by
    simp [Logger.stream, hc, Consumer.buf]
  refine ⟨fun u => ?_, fun _ => rfl, fun _ hb => absurd hb List.not_mem_nil, fun u => ?_, ?_,
    fun u hu => ?_, fun hend => by cases hend⟩
  · obtain ⟨released, q, pending, taken, hsound⟩ := h.sound u
    refine ⟨released, q, pending, taken, hsound.reader ?_⟩
    have hfits := hsound.consumer
    simp only [Logger.reader, hpc, hc] at hfits ⊢
    split_ifs at hfits
    · exact hfits
    · exact hfits
  · rw [hstream]
    exact h.merged u
  · rw [hstream]
    exact h.linked
  · apply h.settled
    rw [hpc]
    exact hu

theorem step {l : Label β} (h : Orderly s) (hok : InOrder s l)
    (hs : LoggerThreads.step s l = some s') : Orderly s' := by
  cases l with
  | log t record =>
    simp only [LoggerThreads.step] at hs
    split at hs
    · rename_i hidle
      cases hs
      obtain ⟨released, q, pending, taken, hsound⟩ := h.sound t
      exact h.worker _ ⟨released, q, pending, taken, hsound.log hidle record⟩ rfl
    · cases hs
  | produce t =>
    obtain ⟨⟨sh, p⟩, hprod, rfl⟩ := Option.map_eq_some_iff.mp hs
    obtain ⟨released, q, pending, taken, hsound⟩ := h.sound t
    obtain ⟨hfetched, q', pending', hsound'⟩ := hsound.produce hprod hok
    exact h.worker s.keys ⟨released, q', pending', taken, hsound'⟩ hfetched
  | pushed t =>
    simp only [LoggerThreads.step] at hs
    split at hs
    · rename_i size m hdone
      cases hs
      obtain ⟨released, q, pending, taken, hsound⟩ := h.sound t
      apply h.worker s.keys ⟨released, q, pending, taken, hsound.pushed hdone⟩
      unfold Worker.pushed
      split_ifs
      · rfl
      · rfl
    · cases hs
  | stop =>
    cases hs
    exact ⟨h.sound, h.resting, h.own, h.merged, h.linked, h.settled, h.finished⟩
  | running =>
    simp only [LoggerThreads.step] at hs
    split at hs
    · rename_i hpc
      cases hs
      exact h.moveOn (by rw [hpc]; rfl) (nextPc_ne_retriving _ _)
        fun hend => absurd hend (nextPc_ne_finished _ _)
    · cases hs
  | check =>
    simp only [LoggerThreads.step] at hs
    split at hs
    · rename_i t final hpc
      split_ifs at hs with hempty
      · cases hs
        exact h.leave hpc hempty (hok t final hpc hempty) _
      · cases hs
        exact h.enter hpc _
    · cases hs
  | retrive =>
    simp only [LoggerThreads.step] at hs
    split at hs
    · rename_i t final hpc
      obtain ⟨⟨sh, c⟩, hcons, rfl⟩ := Option.map_eq_some_iff.mp hs
      exact h.fetch hpc hcons
    · cases hs
  | retrived =>
    simp only [LoggerThreads.step] at hs
    split at hs
    · rename_i t final size m buf hpc hc
      have hstaged := h.stage hpc hc
      cases hs
      split_ifs
      · exact hstaged.flush rfl
      · exact hstaged
    · cases hs
  | settle timeout =>
    simp only [LoggerThreads.step] at hs
    split at hs
    · rename_i hpc
      have hidle := h.resting (by rw [hpc]; exact nofun)
      have hmoved : Orderly { s with pc := .loop } :=
        h.moveOn (by rw [hpc]; rfl) (by exact nofun) (by exact nofun)
      cases hs
      split_ifs
      · exact hmoved.flush hidle
      · exact hmoved
    · cases hs
  | finish =>
    simp only [LoggerThreads.step] at hs
    split at hs
    · rename_i hpc
      have hflushed := h.flush (h.resting (by rw [hpc]; exact nofun))
      cases hs
      exact hflushed.moveOn (show s.pc.ring = none by rw [hpc]; rfl) (by exact nofun) fun _ => rfl
    · cases hs

theorem filter_key (l : List (Byte β)) (t : ℤ) (m : ℕ) :
    l.filter (Byte.key · = (t, m)) = (l.filter (·.tid = t)).filter (·.record = m) := by
  rw [List.filter_filter]
  apply List.filter_congr
  intro b _
  rw [← Bool.decide_and, decide_eq_decide, Prod.mk.injEq, and_comm]

theorem inOnePiece {l : List (Byte β)} (h : Orderly s) (hl : l <+: s.stream) {t : ℤ}
    {e : ℕ × List (Byte β)} (he : e ∈ (s.worker t).fitting) :
    InOnePiece Byte.key (t, e.1) l e.2 := by
  obtain ⟨released, q, pending, taken, hsound⟩ := h.sound t
  obtain ⟨hentry, hopened⟩ := hsound.entries he
  have hstream : l.filter (Byte.key · = (t, e.1)) <+: s.stream.filter (Byte.key · = (t, e.1)) :=
    hl.filter _
  have hfetched : (s.worker t).shared.fetched.filter (·.record = e.1)
      <+: (s.worker t).shared.copied.filter (·.record = e.1) := hsound.fetched_prefix.filter _
  rw [filter_key s.stream, h.merged] at hstream
  exact (h.linked.of_prefix hl).inOnePiece (hstream.trans (hfetched.trans hentry)) hopened

/-- A drained ring has handed over all its records. -/
theorem whole (h : Orderly s) {t : ℤ} {e : ℕ × List (Byte β)} (he : e ∈ (s.worker t).fitting)
    (hidle : (s.worker t).producer = .idle) (hempty : (s.worker t).shared.ring.empty = true)
    (hpc : ∀ final, s.pc ≠ .retriving t final) :
    Whole Byte.key (t, e.1) (s.output ++ s.staged) e.2 := by
  have hl : s.output ++ s.staged <+: s.stream := by
    rw [Logger.stream, ← List.append_assoc]
    exact List.prefix_append _ _
  apply (h.inOnePiece hl he).whole
  obtain ⟨released, q, pending, taken, hsound⟩ := h.sound t
  obtain ⟨hpending, harch⟩ := hsound.archived (.inl hidle)
  have hq := hsound.good.represents.empty_eq.mp hempty
  have hall : (s.worker t).shared.fetched = (s.worker t).shared.copied := by
    rw [hsound.good.fetched, hsound.good.copied, hpending, hq, List.take_nil]
    rfl
  have hbuf : s.consumer.buf.filter (·.tid = t) = [] := by
    apply List.filter_eq_nil_iff.mpr
    intro b hb
    rw [decide_eq_true_iff]
    rintro rfl
    have hring := h.own b hb
    cases hp : s.pc with
    | retriving u final =>
      rw [hp] at hring
      cases hring
      exact hpc final hp
    | loop | visit _ _ | settling | finishing | finished =>
      rw [h.resting (by rw [hp]; exact nofun)] at hb
      cases hb
  have hmerged := h.merged t
  rw [Logger.stream, ← List.append_assoc, List.filter_append, hbuf, List.append_nil] at hmerged
  rw [filter_key, hmerged, hall]
  exact (harch.entries e he).2.1

end Orderly

/-- In every run in which the logger thread never takes a ring for drained between the two
stores of a record that did fit, the records that did fit are contiguous. -/
theorem records_contiguous (garbage : ℤ → ℤ → Byte β) {ls : List (Label β)}
    (hg : Guarded step InOrder (start garbage) ls) (hr : run step (start garbage) ls = some s) :
    Contiguous s ∧ (s.pc = .finished → s.staged = []) := by
  have hstep : ∀ (u : Logger β) l u', Orderly u → InOrder u l → step u l = some u' → Orderly u' :=
    fun _ _ _ hu hok hs => hu.step hok hs
  have h := hg.invariant hstep (orderly_start garbage) hr
  refine ⟨fun t e he => ⟨?_, ?_, h.whole he⟩, h.finished⟩
  · exact h.inOnePiece (List.prefix_append _ _) he
  · apply h.inOnePiece _ he
    rw [Logger.stream, ← List.append_assoc]
    exact List.prefix_append _ _

def blank : Byte UInt8 := ⟨0, 0, false, 0⟩

theorem inOrder_check {t : ℤ} {final : Bool} (hpc : s.pc = .visit t final)
    (hgap : ¬ between (s.worker t).producer) : InOrder s .check := by
  intro u f hu _ _
  cases hpc.symm.trans hu
  exact hgap

theorem inOrder_produce {t : ℤ} (hfits : (s.worker t).fits = true) : InOrder s (.produce t) := by
  intro _ _ _ hplain
  rw [hfits] at hplain
  cases hplain

/-- Two threads log while the logger thread is at work. -/
theorem records_contiguous_two :
    ∃ s, run step (start fun _ _ => blank)
        [.log 1 [7, 8], .produce 1, .produce 1, .log 2 [9], .produce 1, .running, .check, .retrive,
          .produce 2, .pushed 1, .retrive, .retrive, .retrived, .check, .produce 2, .produce 2,
          .check, .retrive, .retrive, .retrive, .retrived, .check, .settle true] = some s ∧
      s.output = [⟨1, 0, true, 7⟩, ⟨1, 0, false, 8⟩, ⟨2, 0, false, 9⟩] ∧
      (Contiguous s ∧ (s.pc = .finished → s.staged = [])) := by
  have hguard : Guarded step InOrder (start fun _ _ => blank)
      [.log 1 [7, 8], .produce 1, .produce 1, .log 2 [9], .produce 1, .running, .check, .retrive,
        .produce 2, .pushed 1, .retrive, .retrive, .retrived, .check, .produce 2, .produce 2,
        .check, .retrive, .retrive, .retrive, .retrived, .check, .settle true] := by
    apply guarded_cons trivial rfl
    apply guarded_cons (inOrder_produce rfl) rfl
    apply guarded_cons (inOrder_produce rfl) rfl
    apply guarded_cons trivial rfl
    apply guarded_cons (inOrder_produce rfl) rfl
    apply guarded_cons trivial rfl
    apply guarded_cons (inOrder_check rfl (by exact id)) rfl
    apply guarded_cons trivial rfl
    apply guarded_cons (inOrder_produce rfl) rfl
    apply guarded_cons trivial rfl
    apply guarded_cons trivial rfl
    apply guarded_cons trivial rfl
    apply guarded_cons trivial rfl
    apply guarded_cons (inOrder_check rfl (by exact id)) rfl
    apply guarded_cons (inOrder_produce rfl) rfl
    apply guarded_cons (inOrder_produce rfl) rfl
    apply guarded_cons (inOrder_check rfl (by exact id)) rfl
    apply guarded_cons trivial rfl
    apply guarded_cons trivial rfl
    apply guarded_cons trivial rfl
    apply guarded_cons trivial rfl
    apply guarded_cons (inOrder_check rfl (by exact id)) rfl
    apply guarded_cons trivial rfl
    exact guarded_nil _
  obtain ⟨s, hs⟩ : ∃ s, run step (start fun _ _ => blank)
      [.log 1 [7, 8], .produce 1, .produce 1, .log 2 [9], .produce 1, .running, .check, .retrive,
        .produce 2, .pushed 1, .retrive, .retrive, .retrived, .check, .produce 2, .produce 2,
        .check, .retrive, .retrive, .retrive, .retrived, .check, .settle true] = some s := ⟨_, rfl⟩
  refine ⟨s, hs, ?_, records_contiguous _ hguard hs⟩
  cases hs
  rfl

private def longRecord : List (Byte UInt8) := stamp 1 0 true (List.replicate 32766 0)

private theorem length_longRecord : longRecord.length = 32766 := by
  rw [longRecord, length_stamp, List.length_replicate]

private def logging (w : Worker UInt8) (pc : Pc) (c : Consumer (Byte UInt8))
    (staged output : List (Byte UInt8)) : Logger UInt8 where
  worker := Function.update (start fun _ _ => blank).worker 1 w
  keys := [1]
  running := true
  pc := pc
  consumer := c
  staged := staged
  output := output

section

variable {w : Worker UInt8} {pc : Pc} {c c' : Consumer (Byte UInt8)}
  {staged output : List (Byte UInt8)} {sh : Shared (Byte UInt8)} {p : Producer (Byte UInt8)}

private theorem setWorker_logging (w' : Worker UInt8) :
    setWorker (logging w pc c staged output) 1 w' = logging w' pc c staged output := by
  simp only [setWorker, logging, Function.update_idem]

private theorem worker_logging : (logging w pc c staged output).worker 1 = w := by
  simp only [logging, Function.update_self]

private theorem logging_produce (h : RingThreads.produce w.shared w.producer = some (sh, p)) :
    step (logging w pc c staged output) (.produce 1) =
      some (logging { w with shared := sh, producer := p } pc c staged output) := by
  simp only [step, worker_logging, h, Option.map_some, setWorker_logging]

private theorem logging_pushed {size m : ℤ} (h : w.producer = .done size m) :
    step (logging w pc c staged output) (.pushed 1) =
      some (logging (w.pushed m) pc c staged output) := by
  simp only [step, worker_logging, h, setWorker_logging]

private theorem logging_retrive {final : Bool} (h : consume w.shared c = some (sh, c')) :
    step (logging w (.retriving 1 final) c staged output) .retrive =
      some (logging { w with shared := sh } (.retriving 1 final) c' staged output) := by
  have hpc : (logging w (.retriving 1 final) c staged output).pc = .retriving 1 final := rfl
  have hc : (logging w (.retriving 1 final) c staged output).consumer = c := rfl
  simp only [step, hpc, hc, worker_logging, h, Option.map_some]
  exact congrArg some (setWorker_logging _)

private theorem logging_check {final : Bool} (h : w.shared.ring.empty = false) :
    step (logging w (.visit 1 final) c staged output) .check = some (logging w
      (.retriving 1 final) (.entered (bufferSize - staged.length)) staged output) := by
  have hpc : (logging w (.visit 1 final) c staged output).pc = .visit 1 final := rfl
  simp only [step, hpc, worker_logging, h]
  rfl

private theorem logging_leave (h : w.shared.ring.empty = true) :
    step (logging w (.visit 1 false) c staged output) .check =
      some (logging w .settling c staged output) := by
  have hpc : (logging w (.visit 1 false) c staged output).pc = .visit 1 false := rfl
  simp only [step, hpc, worker_logging, h]
  rfl

private theorem logging_running : step (logging w .loop c staged output) .running =
    some (logging w (.visit 1 false) c staged output) := rfl

private theorem logging_retrived {final : Bool} {size n : ℤ} {buf : List (Byte UInt8)}
    (h : ¬ (staged ++ buf).length > highWaterMark) :
    step (logging w (.retriving 1 final) (.done size n buf) staged output) .retrived =
      some (logging w (.visit 1 final) .idle (staged ++ buf) output) := by
  have hpc : (logging w (.retriving 1 final) (.done size n buf) staged output).pc =
      .retriving 1 final := rfl
  have hc : (logging w (.retriving 1 final) (.done size n buf) staged output).consumer =
      .done size n buf := rfl
  have hs : (logging w (.retriving 1 final) (.done size n buf) staged output).staged = staged := rfl
  simp only [step, hpc, hc, hs, if_neg h]
  rfl

private theorem logging_settle : step (logging w .settling c staged output) (.settle true) =
    some (logging w .loop c [] (output ++ staged)) := by
  have hpc : (logging w .settling c staged output).pc = .settling := rfl
  simp only [step, hpc, or_true, if_true]
  rfl

end

private theorem long_logged : step (start fun _ _ => blank) (.log 1 (List.replicate 32766 0)) =
    some (logging ⟨⟨RingBuffer.new 32768 fun _ => blank, fun _ => false, [], []⟩,
      .entered longRecord 32766, longRecord, 32766, 1, true, [], [(0, longRecord)]⟩
      .loop .idle [] []) := by
  have hlog : ((start fun _ _ => blank).worker 1).log 1 (List.replicate 32766 0) =
      ⟨⟨RingBuffer.new 32768 fun _ => blank, fun _ => false, [], []⟩, .entered longRecord 32766,
        longRecord, 32766, 1, true, [], [(0, longRecord)]⟩ := by
    simp only [Worker.log, length_stamp, List.length_replicate]
    rfl
  have hstep : step (start fun _ _ => blank) (.log 1 (List.replicate 32766 0)) =
    some (setWorker { start fun _ _ => blank with keys := [1] } 1
      (((start fun _ _ => blank).worker 1).log 1 (List.replicate 32766 0))) := rfl
  rw [hstep, hlog]
  rfl

private def afterCopyIn : Shared (Byte UInt8) :=
  ⟨⟨32768, writeBlock (fun _ => blank) 0 longRecord, 0, 0⟩,
    fun a => decide (0 ≤ a) && decide (a < 0 + 32766), longRecord, []⟩

private theorem long_copied :
    (⟨RingBuffer.new 32768 fun _ => blank, fun _ => false, [], []⟩ : Shared (Byte UInt8)).copyIn
      longRecord 0 32766 = some afterCopyIn := by
  have hslice : slice longRecord 0 32766 = longRecord :=
    List.take_of_length_le (by simp [length_longRecord])
  have hcopy : (RingBuffer.new 32768 fun _ => blank).copyIn 0 longRecord 0 32766 =
      some ⟨32768, writeBlock (fun _ => blank) 0 longRecord, 0, 0⟩ := by
    rw [RingBuffer.copyIn, if_pos (by rw [length_longRecord]; decide), hslice]
    rfl
  rw [Shared.copyIn]
  simp only [RingBuffer.new] at hcopy ⊢
  rw [hcopy, Option.map_some, hslice]
  rfl

private def afterCopyOut : Shared (Byte UInt8) :=
  ⟨⟨32768, writeBlock (fun _ => blank) 0 longRecord, 32766, 0⟩,
    fun a => (decide (0 ≤ a) && decide (a < 0 + 32766)) &&
      !(decide (0 ≤ a) && decide (a < 0 + 32766)), longRecord, longRecord⟩

private theorem long_fetched :
    (afterCopyIn.setRing { afterCopyIn.ring with mIn := 32766 }).copyOut 32766
      = some (afterCopyOut, longRecord) := by
  have hread : readBlock (writeBlock (fun _ => blank) 0 longRecord) 0 32766 = longRecord := by
    have h := readBlock_writeBlock_self (fun _ => blank) 0 longRecord
    rwa [length_longRecord] at h
  have hcopy : (⟨32768, writeBlock (fun _ => blank) 0 longRecord, 32766, 0⟩ :
      RingBuffer (Byte UInt8)).copyOut 0 32766 = some longRecord := by
    rw [RingBuffer.copyOut, if_pos (by decide)]
    exact congrArg some hread
  simp only [Shared.copyOut, Shared.setRing, afterCopyIn]
  rw [hcopy]
  rfl

private theorem long_produced : RingThreads.produce
    ⟨RingBuffer.new 32768 fun _ => blank, fun _ => false, [], []⟩ (.copying longRecord 32766 0) =
      some (afterCopyIn, .storing longRecord 32766 0 32766) := by
  have hroom : (RingBuffer.new 32768 fun _ => blank).mSize -
      (RingBuffer.new 32768 fun _ => blank).mIn = 32768 - 0 := rfl
  have hlen : min (32766 : ℤ) (32768 - 0) = 32766 := by decide
  simp only [RingThreads.produce]
  rw [hroom, hlen, long_copied]
  rfl

private theorem long_consumed : consume
    (afterCopyIn.setRing { afterCopyIn.ring with mIn := 32766 }) (.copying 65536 32766) =
      some (afterCopyOut, .storing 65536 32766 longRecord) := by
  simp only [consume]
  rw [long_fetched]
  rfl

private theorem long_drained : run step (start fun _ _ => blank)
    [.log 1 (List.replicate 32766 0), .produce 1, .produce 1, .produce 1, .pushed 1, .running,
      .check, .retrive, .retrive, .retrive, .retrived, .check, .settle true] = some
    (logging ⟨afterCopyOut.setRing { afterCopyOut.ring with mOut := 32766 }, .idle, [], 0, 1, false,
      longRecord, [(0, longRecord)]⟩ .loop .idle [] longRecord) := by
  have hroom : ¬ (([] : List (Byte UInt8)) ++ longRecord).length > highWaterMark := by
    rw [List.nil_append, length_longRecord]
    decide
  refine Eq.trans (run_cons_of long_logged) ?_
  refine Eq.trans (run_cons_of (logging_produce (by exact rfl))) ?_
  refine Eq.trans (run_cons_of (logging_produce (by exact long_produced))) ?_
  refine Eq.trans (run_cons_of (logging_produce (by exact rfl))) ?_
  refine Eq.trans (run_cons_of (logging_pushed (by exact rfl))) ?_
  refine Eq.trans (run_cons_of logging_running) ?_
  refine Eq.trans (run_cons_of (logging_check (by exact rfl))) ?_
  refine Eq.trans (run_cons_of (logging_retrive (by exact rfl))) ?_
  refine Eq.trans (run_cons_of (logging_retrive (by exact long_consumed))) ?_
  refine Eq.trans (run_cons_of (logging_retrive (by exact rfl))) ?_
  refine Eq.trans (run_cons_of (logging_retrived hroom)) ?_
  refine Eq.trans (run_cons_of (logging_leave (by exact rfl))) ?_
  exact run_cons_of logging_settle

/-- The second record of thread 1 wraps. The logger thread comes between its two stores, finds
the ring empty and goes on to the ring of thread 2. -/
theorem record_torn : ∃ s, run step (start fun _ _ => blank)
      ([.log 1 (List.replicate 32766 0), .produce 1, .produce 1, .produce 1, .pushed 1, .running,
        .check, .retrive, .retrive, .retrive, .retrived, .check, .settle true] ++
      [.log 1 [1, 2, 3], .produce 1, .produce 1, .produce 1, .log 2 [4], .produce 2, .produce 2,
        .produce 2, .pushed 2, .running, .check, .retrive, .retrive, .retrive, .retrive, .retrive,
        .retrived, .check, .check, .retrive, .retrive, .retrive, .retrived, .check, .produce 1,
        .produce 1, .pushed 1, .settle true, .running, .check, .retrive, .retrive, .retrive,
        .retrived, .check, .check, .settle true]) = some s ∧
      s.output = stamp 1 0 true (List.replicate 32766 0) ++
        ([⟨1, 1, true, 1⟩, ⟨1, 1, true, 2⟩, ⟨2, 0, false, 4⟩] ++ [⟨1, 1, false, 3⟩]) ∧
      (1, [⟨1, 1, true, 1⟩, ⟨1, 1, true, 2⟩, ⟨1, 1, false, 3⟩]) ∈ (s.worker 1).fitting ∧
      ¬ Contiguous s := by
  rw [run_append, long_drained, Option.bind_some]
  obtain ⟨s, hs⟩ : ∃ s, run step (logging
      ⟨afterCopyOut.setRing { afterCopyOut.ring with mOut := 32766 }, .idle, [], 0, 1, false,
        longRecord, [(0, longRecord)]⟩ .loop .idle [] longRecord)
      [.log 1 [1, 2, 3], .produce 1, .produce 1, .produce 1, .log 2 [4], .produce 2, .produce 2,
        .produce 2, .pushed 2, .running, .check, .retrive, .retrive, .retrive, .retrive, .retrive,
        .retrived, .check, .check, .retrive, .retrive, .retrive, .retrived, .check, .produce 1,
        .produce 1, .pushed 1, .settle true, .running, .check, .retrive, .retrive, .retrive,
        .retrived, .check, .check, .settle true] = some s := ⟨_, rfl⟩
  have hout : s.output = longRecord ++
      [⟨1, 1, true, 1⟩, ⟨1, 1, true, 2⟩, ⟨2, 0, false, 4⟩] ++ [⟨1, 1, false, 3⟩] := by
    cases hs
    rfl
  have hmem : (1, [⟨1, 1, true, 1⟩, ⟨1, 1, true, 2⟩, ⟨1, 1, false, 3⟩]) ∈ (s.worker 1).fitting := by
    cases hs
    exact List.mem_cons_self
  rw [List.append_assoc] at hout
  refine ⟨s, hs, hout, hmem, fun h => ?_⟩
  have hfar : ∀ b ∈ longRecord, Byte.key b ≠ (1, 1) := by
    intro b hb
    obtain ⟨-, hrecord⟩ := stamp_keys _ _ _ _ b hb
    simp [Byte.key, hrecord]
  have hthere : s.output.filter (Byte.key · = (1, 1)) =
      [⟨1, 1, true, 1⟩, ⟨1, 1, true, 2⟩, ⟨1, 1, false, 3⟩] := by
    rw [hout, List.filter_append, List.filter_eq_nil_iff.mpr fun b hb => by simpa using hfar b hb]
    rfl
  obtain ⟨pre, post, heq, hfree⟩ := (h 1 _ hmem).1.whole hthere
  have hbehind := congrArg (List.dropWhile (Byte.key · ≠ (1, 1))) heq
  rw [List.append_assoc, List.dropWhile_append_of_pos fun a ha =>
    decide_eq_true (hfree a (List.mem_append_left _ ha)), hout,
    List.dropWhile_append_of_pos fun a ha => decide_eq_true (hfar a ha)] at hbehind
  cases hbehind

end GenericServer.LoggerThreads
