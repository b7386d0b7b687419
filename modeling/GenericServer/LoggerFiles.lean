import GenericServer.LogFiles
import GenericServer.LoggerOutput

/-!
# From the threads to the files

An `AsyncLogger` with a `FileAppender`: what `threadFunc` hands to `m_appender` goes through
`LogFile::append`, which may rotate. Neither `::open` nor `::write` fails, and every `::write` is
complete.
-/
namespace GenericServer.LoggerFiles

open LoggerThreads FileContents TransitionRuns
open LogFiles hiding Label

variable {β : Type*}

structure System (β : Type*) where
  logger : Logger β
  file : LogFile (Byte β)

def start (garbage : ℤ → ℤ → Byte β) (files : Files (Byte β)) (filename : String) : System β :=
  ⟨LoggerThreads.start garbage, .new files filename⟩

def passed (s s' : Logger β) : List (Byte β) := s'.output.drop s.output.length

/-- A step of the logger, and the second in which a rotation for it takes place. -/
def step (strftime : ℤ → String) (pid : ℤ) (s : System β) (l : Label β × ℤ) :
    Option (System β) :=
  (LoggerThreads.step s.logger l.1).map fun a =>
    { logger := a
      file :=
        -- with no bytes `LogFile::append` leaves everything as it is
        if (passed s.logger a).isEmpty then s.file
        else s.file.append strftime pid l.2 (passed s.logger a) (passed s.logger a).length }

/-- The ring's `append` is as `Clear` says, and what is handed to the appender starts a new file
that is empty or goes to the end of the current one. -/
def Proper (strftime : ℤ → String) (pid : ℤ) (s : System β) (l : Label β × ℤ) : Prop :=
  Clear s.logger l.1 ∧ ∀ a, LoggerThreads.step s.logger l.1 = some a →
    Fits strftime pid s.file ⟨passed s.logger a, l.2⟩

variable {strftime : ℤ → String} {pid : ℤ} {s s' : System β} {files : Files (Byte β)}

theorem output_step {s s' : Logger β} {l : LoggerThreads.Label β}
    (hs : LoggerThreads.step s l = some s') :
    ∃ chunk, s'.output = s.output ++ chunk ∧ (chunk = [] ∨
      s.pc ≠ .finished ∧ chunk.length ≤ (s.staged ++ s.consumer.buf).length) := by
  have hnone : s.output = s.output ++ [] := (List.append_nil _).symm
  cases l with
  | log t record =>
    simp only [LoggerThreads.step] at hs
    split at hs
    · cases hs
      exact ⟨[], hnone, .inl rfl⟩
    · cases hs
  | produce t =>
    obtain ⟨x, -, rfl⟩ := Option.map_eq_some_iff.mp hs
    exact ⟨[], hnone, .inl rfl⟩
  | pushed t =>
    simp only [LoggerThreads.step] at hs
    split at hs
    · cases hs
      exact ⟨[], hnone, .inl rfl⟩
    · cases hs
  | stop =>
    cases hs
    exact ⟨[], hnone, .inl rfl⟩
  | running =>
    simp only [LoggerThreads.step] at hs
    split at hs
    · cases hs
      exact ⟨[], hnone, .inl rfl⟩
    · cases hs
  | check =>
    simp only [LoggerThreads.step] at hs
    split at hs
    · split_ifs at hs
      · cases hs
        exact ⟨[], hnone, .inl rfl⟩
      · cases hs
        exact ⟨[], hnone, .inl rfl⟩
    · cases hs
  | retrive =>
    simp only [LoggerThreads.step] at hs
    split at hs
    · obtain ⟨x, -, rfl⟩ := Option.map_eq_some_iff.mp hs
      exact ⟨[], hnone, .inl rfl⟩
    · cases hs
  | retrived =>
    simp only [LoggerThreads.step] at hs
    split at hs
    · rename_i t final size m buf hpc hc
      cases hs
      split_ifs
      · refine ⟨s.staged ++ buf, rfl, .inr ⟨by simp [hpc], ?_⟩⟩
        rw [hc]
        exact le_rfl
      · exact ⟨[], hnone, .inl rfl⟩
    · cases hs
  | settle timeout =>
    simp only [LoggerThreads.step] at hs
    split at hs
    · rename_i hpc
      cases hs
      split_ifs
      · refine ⟨s.staged, rfl, .inr ⟨by simp [hpc], ?_⟩⟩
        rw [List.length_append]
        exact Nat.le_add_right _ _
      · exact ⟨[], hnone, .inl rfl⟩
    · cases hs
  | finish =>
    simp only [LoggerThreads.step] at hs
    split at hs
    · rename_i hpc
      cases hs
      refine ⟨s.staged, rfl, .inr ⟨by simp [hpc], ?_⟩⟩
      rw [List.length_append]
      exact Nat.le_add_right _ _
    · cases hs

/-- The logger behaves as over queues, and the files hold what it has handed over. -/
structure Filed (files : Files (Byte β)) (s : System β) : Prop where
  refines : ∃ a todo, Refines todo s.logger a ∧ LoggerDrain.Staging a
  bounded : Bounded files s.file
  kept : Kept files s.file
  records : s.file.records.flatten = s.logger.output

theorem filed_start (garbage : ℤ → ℤ → Byte β) (filename : String) :
    Filed files (start garbage files filename) where
  refines := ⟨_, [], refines_start garbage (garbage 0), LoggerDrain.staging_start _⟩
  bounded := bounded_new filename
  kept := kept_new filename
  records := rfl

theorem Filed.step {l : Label β × ℤ} (h : Filed files s) (hl : Proper strftime pid s l)
    (hs : LoggerFiles.step strftime pid s l = some s') : Filed files s' := by
  obtain ⟨b, hb, rfl⟩ := Option.map_eq_some_iff.mp hs
  obtain ⟨a, todo, hrefines, hstaging⟩ := h.refines
  obtain ⟨ms, a', todo', hrun, hnext⟩ := hrefines.step hl.1 hb
  have hstaging' : LoggerDrain.Staging a' :=
    run_invariant (fun _ _ _ h hs => h.step hs) hstaging hrun
  obtain ⟨chunk, houtput, hchunk⟩ := output_step hb
  have hpassed : passed s.logger b = chunk := by
    rw [passed, houtput, List.drop_left]
  have hfits := hl.2 b hb
  rw [hpassed] at hfits ⊢
  by_cases hempty : chunk = []
  · subst hempty
    refine ⟨⟨a', todo', hnext, hstaging'⟩, h.bounded, h.kept, ?_⟩
    rw [houtput, List.append_nil]
    exact h.records
  · have hlength : chunk.length ≤ LOGFILE_SIZE := by
      obtain ⟨hopen, hle⟩ := hchunk.resolve_left hempty
      have hroom := (hrefines.room hstaging).1 hopen
      rw [bufferSize] at hroom
      rw [LOGFILE_SIZE]
      omega
    have hfile : LogFiles.step strftime pid s.file ⟨chunk, l.2⟩ =
        some (s.file.append strftime pid l.2 chunk chunk.length) := if_pos hlength
    have hnonempty : chunk.isEmpty = false := by simpa using hempty
    simp only [hnonempty, Bool.false_eq_true, if_false]
    refine ⟨⟨a', todo', hnext, hstaging'⟩, h.bounded.step hfile, ?_, ?_⟩
    · exact (step_kept_iff h.bounded hfile).mpr ⟨h.kept, hfits⟩
    · have hrecords : (s.file.append strftime pid l.2 chunk chunk.length).records =
          s.file.records ++ [chunk] := by
        rw [append_eq hlength, List.take_length, records_put, records_ready]
      rw [hrecords, List.flatten_concat, h.records]
      exact houtput.symm

theorem step_logger (s : System β) (l : Label β × ℤ) (s' : System β)
    (hs : step strftime pid s l = some s') :
    run LoggerThreads.step s.logger (some l.1).toList = some s'.logger := by
  obtain ⟨a, ha, rfl⟩ := Option.map_eq_some_iff.mp hs
  exact run_cons_of ha

theorem run_logger {ls : List (Label β × ℤ)} (hr : run (step strftime pid) s ls = some s') :
    run LoggerThreads.step s.logger (ls.map Prod.fst) = some s'.logger := by
  rw [← List.filterMap_eq_map]
  exact run_filterMap step_logger hr

theorem guarded_logger {ls : List (Label β × ℤ)} (hr : run (step strftime pid) s ls = some s')
    (hl : Guarded (step strftime pid) (Proper strftime pid) s ls) :
    Guarded LoggerThreads.step Clear s.logger (ls.map Prod.fst) := by
  rw [← List.filterMap_eq_map]
  refine hl.filterMap step_logger (fun s l a hok ha => ?_) hr
  cases ha
  exact hok.1

/-- Under every interleaving and with any clock, where every `::open` succeeds and every `::write`
is complete, no byte of a log file is overwritten, and the files hold, in the order in which they
were opened, what `threadFunc` has handed over: of each thread a prefix of what it has copied into
its ring, which are prefixes of its records. When `threadFunc` has returned, all is on disk that threads which were in no call had
copied when `stop` was called. Where the rings take whole records only, that is what the threads
have logged. -/
theorem appended_on_disk (garbage : ℤ → ℤ → Byte β) (filename : String) {ls : List (Label β × ℤ)}
    (hr : run (step strftime pid) (start garbage files filename) ls = some s)
    (hl : Guarded (step strftime pid) (Proper strftime pid) (start garbage files filename) ls) :
    Kept files s.file ∧
      (∀ t, s.file.records.flatten.filter (·.tid = t) <+: (s.logger.worker t).shared.copied ∧
        (s.logger.worker t).Copies (records t (ls.map Prod.fst))) ∧
      (s.logger.pc = .finished → ∀ ms now ms' u, ls = ms ++ (.stop, now) :: ms' →
        run (step strftime pid) (start garbage files filename) ms = some u →
          u.logger.running = true → ∀ t, (u.logger.worker t).producer = .idle →
            (u.logger.worker t).shared.copied <+:
              s.file.records.flatten.filter (·.tid = t)) ∧
      (Guarded LoggerThreads.step Whole (LoggerThreads.start garbage) (ls.map Prod.fst) →
        (∀ t, (s.file.records.flatten.filter (·.tid = t)).map Byte.val <+:
          logged t (ls.map Prod.fst)) ∧
        (s.logger.pc = .finished → ∀ ms now ms' u, ls = ms ++ (.stop, now) :: ms' →
          run (step strftime pid) (start garbage files filename) ms = some u →
            u.logger.running = true → ∀ t, (u.logger.worker t).producer = .idle →
              logged t (ms.map Prod.fst) <+:
                (s.file.records.flatten.filter (·.tid = t)).map Byte.val)) := by
  have hfiled : Filed files s :=
    hl.invariant (fun _ _ _ h hl hs => h.step hl hs) (filed_start garbage filename) hr
  have hguard := guarded_logger hr hl
  rw [hfiled.records]
  obtain ⟨a, todo, hrefines, hstaging⟩ := hfiled.refines
  have hcopied : ∀ t, s.logger.output.filter (·.tid = t) <+: (s.logger.worker t).shared.copied :=
    fun t => (hrefines.output_prefix hstaging t).trans (hrefines.returned_prefix t)
  have hstop : s.logger.pc = .finished → ∀ ms now ms' u, ls = ms ++ (.stop, now) :: ms' →
      run (step strftime pid) (start garbage files filename) ms = some u →
        u.logger.running = true → ∀ t, (u.logger.worker t).producer = .idle →
          (u.logger.worker t).shared.copied <+: s.logger.output.filter (·.tid = t) := by
    rintro hfinished ms now ms' u rfl hu hrunning t hidle
    rw [List.map_append, List.map_cons] at hguard
    rw [run_append, hu, Option.bind_some] at hr
    obtain ⟨v, hv, hr⟩ := run_cons_eq_some.mp hr
    obtain ⟨b, hb, rfl⟩ := Option.map_eq_some_iff.mp hv
    cases hb
    exact copied_prefix_of_stop garbage hguard (run_logger hu) hrunning (run_logger hr) hfinished
      hidle
  have hcopies : ∀ t, (s.logger.worker t).Copies (records t (ls.map Prod.fst)) :=
    copies_of_run garbage hguard (run_logger hr)
  refine ⟨hfiled.kept, fun t => ⟨hcopied t, hcopies t⟩, hstop, fun hwhole => ⟨fun t => ?_, ?_⟩⟩
  · exact prefix_logged garbage hguard hwhole (run_logger hr) (hcopied t)
  · intro hfinished ms now ms' u heq hu hrunning t hidle
    have hout := hstop hfinished ms now ms' u heq hu hrunning t hidle
    subst heq
    rw [List.map_append] at hguard hwhole
    exact logged_prefix garbage hguard.before hwhole.before (run_logger hu) hidle hout

instance decidableProper [DecidableEq β] (strftime : ℤ → String) (pid : ℤ) (s : System β)
    (l : Label β × ℤ) : Decidable (Proper strftime pid s l) :=
  match h : LoggerThreads.step s.logger l.1 with
  | none => decidable_of_iff (Clear s.logger l.1)
      ⟨fun hl => ⟨hl, fun a ha => by rw [h] at ha; cases ha⟩, fun hl => hl.1⟩
  | some a => decidable_of_iff
      (Clear s.logger l.1 ∧ Fits strftime pid s.file ⟨passed s.logger a, l.2⟩)
      ⟨fun hl => ⟨hl.1, fun b hb => by rw [h] at hb; cases hb; exact hl.2⟩,
        fun hl => ⟨hl.1, hl.2 a h⟩⟩

def oldLog : Files (Byte UInt8) := Function.update (fun _ => none) "old.log" (some [⟨0, 0, false, 9⟩])

/-- The drain after `stop` writes a record to a new file beside an old one. -/
theorem appended_on_disk_last_drain :
    let ls : List (Label UInt8 × ℤ) := [(.log 1 [7, 8], 0), (.produce 1, 0), (.produce 1, 0),
      (.produce 1, 0), (.pushed 1, 0), (.stop, 1), (.running, 1), (.check, 1), (.retrive, 1),
      (.retrive, 1), (.retrive, 1), (.retrived, 2), (.check, 2), (.finish, 3)]
    ∃ s, run (step (fun _ => "20240101-000000.") 7) (start (fun _ _ => blank) oldLog "new.log")
        ls = some s ∧
      s.logger.pc = .finished ∧ (s.file.files.content "new.log").map Byte.val = [7, 8] ∧
      Kept oldLog s.file ∧ logged 1 (ls.map Prod.fst) = [7, 8] ∧
      ∀ t, (s.file.records.flatten.filter (·.tid = t)).map Byte.val <+:
        logged t (ls.map Prod.fst) := by
  intro ls
  obtain ⟨s, hs⟩ : ∃ s, run (step (fun _ => "20240101-000000.") 7) (start (fun _ _ => blank) oldLog
      "new.log") ls = some s := ⟨_, rfl⟩
  obtain ⟨hkept, -, -, hrecords⟩ := appended_on_disk (fun _ _ => blank) "new.log" hs
    (by decide)
  refine ⟨s, hs, ?_, ?_, hkept, rfl, (hrecords (by decide)).1⟩
  · cases hs
    rfl
  · cases hs
    rfl

end GenericServer.LoggerFiles
