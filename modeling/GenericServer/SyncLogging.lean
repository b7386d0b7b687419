import GenericServer.LogAppenders
import GenericServer.LogRecords

/-!
# The log of one thread

A thread with a `SyncLogger` of its own (`src/log/Log.h` and `Log.cpp`): from the `LOG_`
statements to the lines of the file or of the console. The functions called for the values of a
statement may log as well, so that a `Logger` is destroyed while another one is alive. Every
`::write` is complete.
-/
namespace GenericServer.SyncLogging

open BufferBase LogStream LogRecords LogAppenders TextPieces

/-- A `LOG_` statement with those that its values lead to, in the order in which they are
evaluated. `now` is the second in which a rotation takes place. -/
inductive Statement
  | log (s : LogStatement) (calls : List Statement) (now : ℤ)

def value : LogLevel → ℕ
  | .TRACE => 0
  | .DEBUG => 1
  | .INFO => 2
  | .WARN => 3
  | .ERROR => 4
  | .FATAL => 5

section Exec

variable (strftime : ℤ → String) (pid : ℤ) (mem : ℤ → Char) (data : ℤ) (logLevel : LogLevel)

/-- The end of `~Logger`: `append` and `output` of the logger. -/
def finish (st : LogStatement) (now : ℤ) (s : Session Char) : Option (Session Char) :=
  (step strftime pid s (.log (st.record mem data))).bind fun s =>
    step strftime pid s (.output now s.mBuffer.unread.length)

mutual

/-- `if (Logger::logLevel <= level) Logger(..).stream() << ..`. -/
def exec (s : Session Char) : Statement → Option (Session Char)
  | .log st calls now =>
    if value logLevel ≤ value st.level then
      (execAll s calls).bind (finish strftime pid mem data st now)
    else some s

def execAll (s : Session Char) : List Statement → Option (Session Char)
  | [] => some s
  | c :: cs => (exec s c).bind fun s => execAll s cs

end

end Exec

section Printed

variable (logLevel : LogLevel)

mutual

/-- The statements that get a record, in the order in which they end. Where a statement is below
the level, its values are not evaluated either. -/
def printed : Statement → List LogStatement
  | .log st calls _ => if value logLevel ≤ value st.level then printedAll calls ++ [st] else []

def printedAll : List Statement → List LogStatement
  | [] => []
  | c :: cs => printed c ++ printedAll cs

end

end Printed

/-- The logger has passed on everything: what was printed has been written, record by record. -/
structure Flushed (mem : ℤ → Char) (data : ℤ) (s : Session Char) (printed : List LogStatement) :
    Prop where
  rptr : s.mBuffer.mRptr = s.mBuffer.mData
  wptr : s.mBuffer.mWptr = s.mBuffer.mData
  size : s.mBuffer.mEnd = s.mBuffer.mData + SYNCLOGGER_BUFFER_SIZE
  chunks : s.chunks = printed.map (LogStatement.record mem data)
  written : s.appender.written = s.chunks.flatten

variable {strftime : ℤ → String} {pid : ℤ} {mem : ℤ → Char} {data : ℤ} {logLevel : LogLevel}
  {s : Session Char} {recs : List LogStatement}

theorem flushed_start (mem' : ℤ → Char) (data' : ℤ) (files : FileContents.Files Char)
    (filename : Option String) : Flushed mem data (start mem' data' files filename) [] where
  rptr := rfl
  wptr := rfl
  size := rfl
  chunks := rfl
  written := by cases filename <;> rfl

theorem length_record_le (mem : ℤ → Char) (data : ℤ) (st : LogStatement) :
    (st.record mem data).length ≤ LogStream.LOGSTREAM_BUFFER_SIZE := by
  rw [record_eq, List.length_take]
  exact Nat.min_le_left _ _

namespace Flushed

theorem unread_append (h : Flushed mem data s recs) (st : LogStatement) :
    (s.mBuffer.append (st.record mem data) (st.record mem data).length).1.unread =
      st.record mem data := by
  have hlength := length_record_le mem data st
  have hsize := h.size
  have hrptr := h.rptr
  have hwptr := h.wptr
  have hordered : s.mBuffer.Ordered := by
    refine ⟨hrptr.ge, ?_, ?_⟩
    · rw [hrptr, hwptr]
    · rw [hwptr, hsize]
      exact Int.le_add_of_nonneg_right (Int.natCast_nonneg _)
  have hnone : s.mBuffer.unread = [] := by
    rw [unread, dataSize, hrptr, hwptr, sub_self]
    rfl
  have hfit : ((st.record mem data).length : ℤ) ≤ s.mBuffer.remainSize := by
    rw [remainSize, hwptr, hsize]
    simp only [LogStream.LOGSTREAM_BUFFER_SIZE, SYNCLOGGER_BUFFER_SIZE] at hlength ⊢
    omega
  have haccepted : (s.mBuffer.append (st.record mem data) (st.record mem data).length).2 =
      (st.record mem data).length := by
    rcases Nat.eq_zero_or_pos (st.record mem data).length with hzero | hpos
    · rw [hzero]
      rfl
    · rw [append_eq _ _ (by omega), min_eq_left hfit]
  rw [(append_spec hordered (le_refl _)).2.1, haccepted, hnone, List.nil_append,
    Int.toNat_natCast, List.take_length]

theorem finish (h : Flushed mem data s recs) (st : LogStatement) (now : ℤ) :
    ∃ s', SyncLogging.finish strftime pid mem data st now s = some s' ∧
      Flushed mem data s' (recs ++ [st]) := by
  have hunread := h.unread_append st
  have hchunk : (st.record mem data).length ≤ LogFiles.LOGFILE_SIZE := by
    have hlength := length_record_le mem data st
    simp only [LogStream.LOGSTREAM_BUFFER_SIZE] at hlength
    rw [LogFiles.LOGFILE_SIZE]
    omega
  have hends := append_ends s.mBuffer (st.record mem data) (st.record mem data).length
  have hpossible : Possible (st.record mem data) (st.record mem data).length :=
    ⟨hchunk, le_refl _, id⟩
  simp only [SyncLogging.finish, step, Option.bind_some, hunread, if_pos hpossible]
  refine ⟨_, rfl, rfl, rfl, ?_, ?_, ?_⟩
  · exact hends.2.trans (h.size.trans (by rw [← hends.1]; rfl))
  · simp only [Session.pass, h.chunks, List.map_append, List.map_cons, List.map_nil]
  · simp only [Session.pass, Appender.written_append _ hchunk, List.take_length, h.written,
      List.flatten_append, List.flatten_singleton]

mutual

theorem exec {s : Session Char} {recs : List LogStatement} (h : Flushed mem data s recs)
    (c : Statement) :
    ∃ s', SyncLogging.exec strftime pid mem data logLevel s c = some s' ∧
      Flushed mem data s' (recs ++ printed logLevel c) := by
  cases c with
  | log st calls now =>
    rw [SyncLogging.exec, printed]
    split_ifs with hlevel
    · obtain ⟨t, ht, hflushed⟩ := execAll h calls
      obtain ⟨s', hs', hend⟩ := hflushed.finish st now
      refine ⟨s', ?_, ?_⟩
      · rw [ht, Option.bind_some, hs']
      · rwa [List.append_assoc] at hend
    · exact ⟨s, rfl, by rwa [List.append_nil]⟩

theorem execAll {s : Session Char} {recs : List LogStatement} (h : Flushed mem data s recs)
    (cs : List Statement) :
    ∃ s', SyncLogging.execAll strftime pid mem data logLevel s cs = some s' ∧
      Flushed mem data s' (recs ++ printedAll logLevel cs) := by
  cases cs with
  | nil => exact ⟨s, rfl, by rwa [printedAll, List.append_nil]⟩
  | cons c cs =>
    obtain ⟨t, ht, hflushed⟩ := exec h c
    obtain ⟨s', hs', hend⟩ := execAll hflushed cs
    refine ⟨s', ?_, ?_⟩
    · rw [SyncLogging.execAll, ht, Option.bind_some, hs']
    · rwa [printedAll, ← List.append_assoc]

end

end Flushed

/-- A thread that logs is never held up. Where every `::write` is complete and there are no newlines
in the values and file names, what it has written is, line by line, the records of the statements
that the level lets through, in the order in which they end, exactly when each of them fits in the
buffer of its `Logger`. -/
theorem log_lines_iff (strftime : ℤ → String) (pid : ℤ) (mem : ℤ → Char) (data : ℤ)
    (logLevel : LogLevel) (mem' : ℤ → Char) (data' : ℤ) (files : FileContents.Files Char)
    (filename : Option String) (cs : List Statement)
    (h : ∀ st ∈ printedAll logLevel cs, st.Plain) :
    ∃ s, execAll strftime pid mem data logLevel (start mem' data' files filename) cs = some s ∧
      s.chunks = (printedAll logLevel cs).map (LogStatement.record mem data) ∧
      (((∀ line ∈ s.chunks, OneLine '\n' line) ∧
        splitLines '\n' [] s.appender.written = s.chunks) ↔
          ∀ st ∈ printedAll logLevel cs, st.Fits) := by
  have hstart : Flushed mem data (start mem' data' files filename) [] :=
    flushed_start mem' data' files filename
  obtain ⟨s, hs, hflushed⟩ :
      ∃ s, execAll strftime pid mem data logLevel (start mem' data' files filename) cs = some s ∧
        Flushed mem data s ([] ++ printedAll logLevel cs) := hstart.execAll cs
  rw [List.nil_append] at hflushed
  refine ⟨s, hs, hflushed.chunks, ?_⟩
  rw [hflushed.written, hflushed.chunks]
  constructor
  · rintro ⟨hlines, -⟩ st hst
    exact (oneLine_record_iff mem data (h st hst)).mp (hlines _ (List.mem_map_of_mem hst))
  · intro hfits
    have hlines : ∀ line ∈ (printedAll logLevel cs).map (LogStatement.record mem data),
        OneLine '\n' line := by
      intro line hline
      obtain ⟨st, hst, rfl⟩ := List.mem_map.mp hline
      exact (oneLine_record_iff mem data (h st hst)).mpr (hfits st hst)
    exact ⟨hlines, splitLines_flatten hlines⟩

/-- The value of a statement is computed by a function that logs as well: its record comes
first. -/
theorem log_lines_nested :
    let cs := [Statement.log (sample [.char 'a']) [.log (sample [.char 'b']) [] 0] 0]
    ∃ s, execAll (fun _ => "") 7 (fun _ => ' ') 0 .INFO
        (start (fun _ => ' ') 0 (fun _ => none) none) cs = some s ∧
      s.chunks = [sample [.char 'b'], sample [.char 'a']].map
        (LogStatement.record (fun _ => ' ') 0) ∧
      (∀ st ∈ [sample [.char 'b'], sample [.char 'a']], st.Fits) ∧
      (∀ line ∈ s.chunks, OneLine '\n' line) ∧
        splitLines '\n' [] s.appender.written = s.chunks := by
  intro cs
  have hplain : ∀ c, '\n' ≠ c → (sample [.char c]).Plain := by
    intro c hc
    refine ⟨fun x hx => ?_, by simp [sample]⟩
    obtain rfl := List.mem_singleton.mp hx
    simpa [Insertion.text] using hc
  have hprinted : ∀ st ∈ printedAll .INFO cs, st.Plain := by
    intro st hst
    have hst : st ∈ [sample [.char 'b'], sample [.char 'a']] := hst
    simp only [List.mem_cons, List.not_mem_nil, or_false] at hst
    rcases hst with rfl | rfl
    · exact hplain 'b' (by decide)
    · exact hplain 'a' (by decide)
  have hfits : ∀ st ∈ [sample [.char 'b'], sample [.char 'a']], st.Fits := by
    unfold LogStatement.Fits
    decide +kernel
  obtain ⟨s, hs, hchunks, hiff⟩ := log_lines_iff (fun _ => "") 7 (fun _ => ' ') 0 .INFO
    (fun _ => ' ') 0 (fun _ => none) none cs hprinted
  exact ⟨s, hs, hchunks, hfits, hiff.mpr hfits⟩

end GenericServer.SyncLogging
