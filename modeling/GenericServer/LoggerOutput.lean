import GenericServer.LoggedRecords

/-!
# What the asynchronous logger has written

The threads with their rings behave as the logger over queues, whose last drain leaves nothing
behind; so what has been appended before `stop` is in the output of `threadFunc`.
-/
namespace GenericServer.LoggerThreads

open FifoQueues RingThreads TransitionRuns

variable {β : Type*} {t : ℤ} {s s' : Logger β} {a : LoggerDrain.Logger (Byte β)}
  {todo : List (Byte β)}

namespace Refines

theorem returned_prefix (h : Refines todo s a) (t : ℤ) :
    (a.ring t).returned <+: (s.worker t).shared.copied := by
  obtain ⟨released, q, pending, taken, hsound, hreturned, -⟩ := h.rings t
  rw [hreturned, hsound.good.copied, List.prefix_append_right_inj]
  exact (List.take_prefix _ q).trans (List.prefix_append q pending)

/-- When its thread is in no call, the queue has got all that has been copied into the ring. -/
theorem accepted_eq (h : Refines todo s a) (hidle : (s.worker t).producer = .idle) :
    (a.ring t).returned ++ (a.ring t).stored = (s.worker t).shared.copied := by
  obtain ⟨released, q, pending, taken, hsound, hreturned, hstored, -⟩ := h.rings t
  have hpending := hsound.producer
  rw [hidle] at hpending
  rw [hreturned, hstored, List.append_assoc, List.take_append_drop, hsound.good.copied, hpending,
    List.append_nil]

theorem retrieved_tid (h : Refines todo s a) (ha : LoggerDrain.Staging a) {p : ℤ × Byte β}
    (hp : p ∈ a.retrieved) : p.2.tid = p.1 := by
  have hmem : p.2 ∈ (a.ring p.1).returned := by
    rw [← ha.returned p.1]
    exact List.mem_map_of_mem (List.mem_filter.mpr ⟨hp, decide_eq_true rfl⟩)
  obtain ⟨released, q, pending, taken, hsound, -⟩ := h.rings p.1
  exact hsound.tids p.2 ((h.returned_prefix p.1).subset hmem)

theorem filter_retrieved (h : Refines todo s a) (ha : LoggerDrain.Staging a) (t : ℤ) :
    (a.retrieved.map Prod.snd).filter (·.tid = t) = (a.ring t).returned := by
  rw [List.filter_map, ← ha.returned t]
  congr 1
  apply List.filter_congr
  intro p hp
  simp only [Function.comp, h.retrieved_tid ha hp]

theorem output_prefix (h : Refines todo s a) (ha : LoggerDrain.Staging a) (t : ℤ) :
    s.output.filter (·.tid = t) <+: (a.ring t).returned := by
  rw [← h.filter_retrieved ha, ← ha.bytes, h.output, List.filter_append]
  exact List.prefix_append _ _

theorem output_finished (h : Refines todo s a) (ha : LoggerDrain.Staging a)
    (hpc : s.pc = .finished) (t : ℤ) :
    s.output.filter (·.tid = t) = (a.ring t).returned := by
  have hplace : a.pc = .finished := by rw [h.place, Logger.place, hpc]
  rw [← h.filter_retrieved ha, ← ha.bytes, if_pos hplace, List.append_nil, h.output]

theorem room (h : Refines todo s a) (ha : LoggerDrain.Staging a) :
    (s.pc ≠ .finished → ((s.staged ++ s.consumer.buf).length : ℤ) ≤ bufferSize) ∧
      ∀ size, s.consumer = .entered size → 1 ≤ size := by
  constructor
  · intro hopen
    have hle := ha.le
    rw [h.n_eq hopen] at hle
    simp only [List.length_append] at hle ⊢
    omega
  · intro size hsize
    have hasked := h.asked size hsize
    have hreading : ∃ t final, s.pc = .retriving t final := by
      by_contra hnone
      push Not at hnone
      rw [(h.resting hnone).1] at hsize
      cases hsize
    obtain ⟨t, final, hpc⟩ := hreading
    have hplace : a.pc = .retriving t final := by
      rw [h.place, Logger.place, hpc, hsize]
      rfl
    have hlow := ha.low (by rw [hplace]; rfl)
    have hn := h.n_eq (by simp [hpc])
    rw [highWaterMark] at hlow
    simp only [List.length_append] at hn
    omega

end Refines

theorem staging_of_run {buffer : ℤ → Byte β} {ms : List (LoggerDrain.Label (Byte β))}
    (hrun : run LoggerDrain.step (LoggerDrain.start buffer) ms = some a) :
    LoggerDrain.Staging a :=
  run_invariant (fun _ _ _ h hs => h.step hs) (LoggerDrain.staging_start buffer) hrun

theorem returned_of_stop {b d : LoggerDrain.Logger (Byte β)} (hb : LoggerDrain.Known b)
    (hrunning : b.mRunning = true) {ms : List (LoggerDrain.Label (Byte β))}
    (hrun : run LoggerDrain.step { b with mRunning := false } ms = some d)
    (hpc : d.pc = .finished) (t : ℤ) :
    (b.ring t).returned ++ (b.ring t).stored <+: (d.ring t).returned := by
  have hkeep : ∀ (x : LoggerDrain.Logger (Byte β)) l y, LoggerDrain.Known x ∧
      LoggerDrain.Draining (fun t => (b.ring t).returned ++ (b.ring t).stored) x →
      LoggerDrain.step x l = some y → LoggerDrain.Known y ∧
        LoggerDrain.Draining (fun t => (b.ring t).returned ++ (b.ring t).stored) y :=
    fun _ _ _ h hs => ⟨h.1.step hs, h.2.step h.1 hs⟩
  have hdraining : LoggerDrain.Draining (fun t => (b.ring t).returned ++ (b.ring t).stored)
      { b with mRunning := false } :=
    ⟨rfl, fun t => (b.ring t).conserved ▸ List.prefix_refl _,
      fun t ht => absurd ht (hb.running hrunning t)⟩
  have hstop : LoggerDrain.Known { b with mRunning := false } :=
    ⟨hb.keys, fun h => by cases h⟩
  exact (run_invariant hkeep ⟨hstop, hdraining⟩ hrun).2.passed t (by rw [hpc]; trivial)

theorem copied_prefix_of_stop (garbage : ℤ → ℤ → Byte β) {ms ms' : List (Label β)} {u : Logger β}
    (hl : Guarded step Clear (start garbage) (ms ++ .stop :: ms'))
    (hu : run step (start garbage) ms = some u) (hrunning : u.running = true)
    (hr : run step { u with running := false } ms' = some s) (hfinished : s.pc = .finished)
    (hidle : (u.worker t).producer = .idle) :
    (u.worker t).shared.copied <+: s.output.filter (·.tid = t) := by
  obtain ⟨cs, b, todo, hb, hmid⟩ := (refines_start garbage (garbage 0)).run hl.before hu
  obtain ⟨ds, d, todo', hd, hlast⟩ := hmid.stop.run ((hl.after hu).2 _ rfl) hr
  have hall : run LoggerDrain.step (LoggerDrain.start (garbage 0)) (cs ++ .stop :: ds) = some d := by
    rw [run_append, hb, Option.bind_some]
    exact hd
  have hknown : LoggerDrain.Known b :=
    run_invariant (fun _ _ _ h hs => h.step hs) (LoggerDrain.known_start _) hb
  have hplace : d.pc = .finished := by rw [hlast.place, Logger.place, hfinished]
  rw [hlast.output_finished (staging_of_run hall) hfinished, ← hmid.accepted_eq hidle]
  exact returned_of_stop hknown (hmid.running.trans hrunning) hd hplace t

/-- Under every interleaving `threadFunc` writes of each thread what this thread has copied into its
ring, in order and nothing twice, and its buffer never overflows. These are prefixes of the records
that the thread has logged. When `threadFunc` has returned, all is written that threads which were
in no call had copied when `stop` was called. Where the rings take whole records only, that is what
the threads have logged. -/
theorem stop_writes_all (garbage : ℤ → ℤ → Byte β) {ls : List (Label β)}
    (hr : run step (start garbage) ls = some s) (hl : Guarded step Clear (start garbage) ls) :
    (s.pc ≠ .finished → ((s.staged ++ s.consumer.buf).length : ℤ) ≤ bufferSize) ∧
      (∀ size, s.consumer = .entered size → 1 ≤ size) ∧
      (∀ t, s.output.filter (·.tid = t) <+: (s.worker t).shared.copied ∧
        (s.worker t).Copies (records t ls)) ∧
      (s.pc = .finished → ∀ ms ms' u, ls = ms ++ .stop :: ms' →
        run step (start garbage) ms = some u → u.running = true → ∀ t,
          (u.worker t).producer = .idle →
            (u.worker t).shared.copied <+: s.output.filter (·.tid = t)) ∧
      (Guarded step Whole (start garbage) ls →
        (∀ t, (s.output.filter (·.tid = t)).map Byte.val <+: logged t ls) ∧
        (s.pc = .finished → ∀ ms ms' u, ls = ms ++ .stop :: ms' →
          run step (start garbage) ms = some u → u.running = true → ∀ t,
            (u.worker t).producer = .idle →
              logged t ms <+: (s.output.filter (·.tid = t)).map Byte.val)) := by
  obtain ⟨bs, a, todo, hrun, hend⟩ := (refines_start garbage (garbage 0)).run hl hr
  obtain ⟨hroom, hasked⟩ := hend.room (staging_of_run hrun)
  have hcopied : ∀ t, s.output.filter (·.tid = t) <+: (s.worker t).shared.copied := fun t =>
    (hend.output_prefix (staging_of_run hrun) t).trans (hend.returned_prefix t)
  have hstop : s.pc = .finished → ∀ ms ms' u, ls = ms ++ .stop :: ms' →
      run step (start garbage) ms = some u → u.running = true → ∀ t,
        (u.worker t).producer = .idle →
          (u.worker t).shared.copied <+: s.output.filter (·.tid = t) := by
    rintro hfinished ms ms' u rfl hu hrunning t hidle
    rw [run_append, hu, Option.bind_some] at hr
    obtain ⟨v, hv, hr⟩ := run_cons_eq_some.mp hr
    cases hv
    exact copied_prefix_of_stop garbage hl hu hrunning hr hfinished hidle
  refine ⟨hroom, hasked, fun t => ⟨hcopied t, copies_of_run garbage hl hr t⟩, hstop, fun hwhole => ⟨fun t => ?_, ?_⟩⟩
  · exact prefix_logged garbage hl hwhole hr (hcopied t)
  · intro hfinished ms ms' u heq hu hrunning t hidle
    have hout := hstop hfinished ms ms' u heq hu hrunning t hidle
    subst heq
    exact logged_prefix garbage hl.before hwhole.before hu hidle hout

/-- Thread 2 logs while the ring of thread 1 is being drained, and `stop` is called before its ring
has been looked at. -/
theorem stop_writes_all_two :
    let ls : List (Label UInt8) := [.log 1 [7, 8], .produce 1, .produce 1, .produce 1, .running,
      .check, .retrive, .log 2 [9], .retrive, .produce 2, .retrive, .pushed 1, .retrived, .check,
      .produce 2, .produce 2, .pushed 2, .stop, .check, .retrive, .retrive, .retrive, .retrived,
      .check, .settle false, .running, .check, .check, .finish]
    ∃ s, run step (start fun _ _ => blank) ls = some s ∧ s.pc = .finished ∧
      s.output.map Byte.val = [7, 8, 9] ∧ logged 1 ls = [7, 8] ∧ logged 2 ls = [9] ∧
      (∀ t, s.output.filter (·.tid = t) <+: (s.worker t).shared.copied ∧
        (s.worker t).Copies (records t ls)) ∧
      ∀ t, (s.output.filter (·.tid = t)).map Byte.val <+: logged t ls := by
  intro ls
  obtain ⟨s, hs⟩ : ∃ s, run step (start fun _ _ => blank) ls = some s := ⟨_, rfl⟩
  obtain ⟨-, -, hcopied, -, hrecords⟩ := stop_writes_all (fun _ _ => blank) hs (by decide)
  refine ⟨s, hs, ?_, ?_, rfl, rfl, hcopied, (hrecords (by decide)).1⟩
  · cases hs
    rfl
  · cases hs
    rfl

end GenericServer.LoggerThreads
