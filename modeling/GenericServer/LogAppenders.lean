import GenericServer.Buffer
import GenericServer.LogFiles

/-!
# Log data and short writes

`FileAppender` and `ConsoleAppender` of `src/log/Appender.h` over `LogFile` and `Console`, and
`SyncLogger` of `src/log/Log.cpp`, which clears its buffer behind a call. What `::write` returns
is positive and not larger than what it has been asked for.
-/
namespace GenericServer.LogAppenders

open FileContents LogFiles TransitionRuns

variable {β : Type*}

/-- `stdout` has what each `::write` on `STDOUT_FILENO` has written. -/
inductive Appender (β : Type*)
  | file (mLogFile : LogFile β)
  | console (stdout : List (List β))

namespace Appender

/-- A `FileAppender` with its first file, or a `ConsoleAppender`. -/
def new (files : Files β) : Option String → Appender β
  | some filename => .file (.new files filename)
  | none => .console []

/-- `append`, when the `::write` of it returns `n`. -/
def append (strftime : ℤ → String) (pid : ℤ) (a : Appender β) (now : ℤ) (chunk : List β) (n : ℕ) :
    Appender β :=
  match a with
  | .file f => .file (f.append strftime pid now chunk n)
  | .console stdout => .console (stdout ++ [chunk.take n])

def written : Appender β → List β
  | .file f => f.records.flatten
  | .console stdout => stdout.flatten

end Appender

def SYNCLOGGER_BUFFER_SIZE : ℕ := 1024

/-- `m_buffer` of a `SyncLogger`, the appender, and the chunks that were passed to the appender. -/
structure Session (β : Type*) where
  mBuffer : BufferBase β
  appender : Appender β
  chunks : List (List β)

def start (mem : ℤ → β) (data : ℤ) (files : Files β) (filename : Option String) : Session β where
  mBuffer := .new mem data SYNCLOGGER_BUFFER_SIZE
  appender := .new files filename
  chunks := []

/-- A call of `append` of the appender, or of `append` and `output` of the logger, with the second in
which a rotation takes place and the result of `::write`. -/
inductive Label (β : Type*)
  | append (chunk : List β) (now : ℤ) (n : ℕ)
  | log (data : List β)
  | output (now : ℤ) (n : ℕ)

def Session.pass (strftime : ℤ → String) (pid : ℤ) (s : Session β) (now : ℤ) (chunk : List β)
    (n : ℕ) : Session β :=
  { s with appender := s.appender.append strftime pid now chunk n, chunks := s.chunks ++ [chunk] }

abbrev Possible (chunk : List β) (n : ℕ) : Prop :=
  chunk.length ≤ LOGFILE_SIZE ∧ n ≤ chunk.length ∧ (0 < chunk.length → 0 < n)

def step (strftime : ℤ → String) (pid : ℤ) (s : Session β) : Label β → Option (Session β)
  | .append chunk now n =>
    if Possible chunk n then some (s.pass strftime pid now chunk n) else none
  | .log data => some { s with mBuffer := (s.mBuffer.append data data.length).1 }
  | .output now n =>
    if Possible s.mBuffer.unread n then
      let s := s.pass strftime pid now s.mBuffer.unread n
      some { s with mBuffer := s.mBuffer.clear }
    else none

/-! ## The bytes of the current file -/

/-- The descriptor stands behind what was written through it, and the file begins with this. -/
structure Counted (s : LogFile β) : Prop where
  count : s.mFile.mWrittenBytes = s.mFile.writes.flatten.length
  pos : s.mFile.pos = s.mFile.writes.flatten.length
  stored : (s.files.content s.mFile.mName).take s.mFile.pos = s.mFile.writes.flatten

theorem counted_new (files : Files β) (name : String) : Counted (LogFile.new files name) :=
  ⟨rfl, rfl, List.take_zero⟩

variable {f : LogFile β}

theorem Counted.pos_le (h : Counted f) : f.mFile.pos ≤ (f.files.content f.mFile.mName).length := by
  have hlen := congrArg List.length h.stored
  rw [List.length_take, ← h.pos] at hlen
  omega

theorem Counted.ready (h : Counted f) (name : String) (data : List β) :
    Counted (f.ready name data) := by
  rw [LogFile.ready]
  split_ifs
  · exact ⟨rfl, rfl, List.take_zero⟩
  · exact h

theorem Counted.put (h : Counted f) (bytes : List β) : Counted (f.put bytes) := by
  have hwrites : (f.put bytes).mFile.writes.flatten = f.mFile.writes.flatten ++ bytes := by
    simp [LogFile.put, FileUtil.put]
  constructor
  · have hcount := h.count
    rw [hwrites, List.length_append]
    simp only [LogFile.put, FileUtil.put]
    omega
  · rw [hwrites, List.length_append, ← h.pos]
    rfl
  · rw [hwrites, ← h.stored, ← take_writeAt h.pos_le]
    exact congrArg (List.take _) (content_put_self f bytes)

/-! ## Runs -/

/-- The files of an appender count what was written through them. -/
def Appender.Counted : Appender β → Prop
  | .file f => LogAppenders.Counted f
  | .console _ => True

/-- Every chunk has been written as a whole, and the counter agrees with the current file. -/
structure Lossless (s : Session β) : Prop where
  complete : s.appender.written = s.chunks.flatten
  counted : s.appender.Counted

/-- The `::write` of this call takes the whole chunk. -/
def Complete (s : Session β) : Label β → Prop
  | .append chunk _ n => n = chunk.length
  | .log _ => True
  | .output _ n => n = s.mBuffer.unread.length

/-- No more has been written than was passed. -/
structure Behind (s : Session β) : Prop where
  length_le : s.appender.written.length ≤ s.chunks.flatten.length
  counted : s.appender.Counted

variable {strftime : ℤ → String} {pid : ℤ} {s s' : Session β} {l : Label β} {ls : List (Label β)}
  {chunk : List β} {n : ℕ}

theorem Appender.written_append (a : Appender β) (hchunk : chunk.length ≤ LOGFILE_SIZE) (now : ℤ)
    (n : ℕ) : (a.append strftime pid now chunk n).written = a.written ++ chunk.take n := by
  cases a with
  | file f =>
    simp only [append, written, append_eq hchunk, records_put, records_ready, List.flatten_append,
      List.flatten_singleton]
  | console stdout => simp [append, written]

theorem Appender.Counted.append {a : Appender β} (h : a.Counted) (hchunk : chunk.length ≤ LOGFILE_SIZE)
    (now : ℤ) (n : ℕ) : (a.append strftime pid now chunk n).Counted := by
  cases a with
  | file f =>
    simp only [Appender.append, append_eq hchunk]
    exact (LogAppenders.Counted.ready h _ _).put _
  | console stdout => trivial

theorem step_cases (hs : step strftime pid s l = some s') :
    (∃ chunk now n, Possible chunk n ∧ s'.appender = s.appender.append strftime pid now chunk n ∧
      s'.chunks = s.chunks ++ [chunk] ∧ (Complete s l ↔ n = chunk.length)) ∨
    (s'.appender = s.appender ∧ s'.chunks = s.chunks ∧ Complete s l) := by
  cases l with
  | append chunk now n =>
    simp only [step] at hs
    split_ifs at hs with hpossible
    cases hs
    exact .inl ⟨chunk, now, n, hpossible, rfl, rfl, Iff.rfl⟩
  | log data =>
    cases hs
    exact .inr ⟨rfl, rfl, trivial⟩
  | output now n =>
    simp only [step] at hs
    split_ifs at hs with hpossible
    cases hs
    exact .inl ⟨s.mBuffer.unread, now, n, hpossible, rfl, rfl, Iff.rfl⟩

theorem Behind.step (h : Behind s) (hs : LogAppenders.step strftime pid s l = some s') : Behind s' := by
  obtain ⟨chunk, now, n, ⟨hchunk, -, -⟩, happ, hchunks, -⟩ | ⟨happ, hchunks, -⟩ := step_cases hs
  · refine ⟨?_, by rw [happ]; exact h.counted.append hchunk now n⟩
    have hle := h.length_le
    rw [happ, hchunks, Appender.written_append _ hchunk]
    simp only [List.flatten_append, List.flatten_singleton, List.length_append, List.length_take]
    omega
  · exact ⟨by rw [happ, hchunks]; exact h.length_le, by rw [happ]; exact h.counted⟩

/-- Nobody writes the rest of a chunk later. -/
theorem step_complete_iff (h : Behind s) (hs : step strftime pid s l = some s') :
    s'.appender.written = s'.chunks.flatten ↔
      s.appender.written = s.chunks.flatten ∧ Complete s l := by
  obtain ⟨chunk, now, n, ⟨hchunk, hn, -⟩, happ, hchunks, hcomplete⟩ | ⟨happ, hchunks, hcomplete⟩ :=
    step_cases hs
  · rw [happ, hchunks, Appender.written_append _ hchunk, List.flatten_append, List.flatten_singleton,
      hcomplete]
    constructor
    · intro heq
      have hlen := congrArg List.length heq
      have hle := h.length_le
      simp only [List.length_append, List.length_take] at hlen
      exact ⟨(List.append_inj heq (by omega)).1, by omega⟩
    · rintro ⟨heq, rfl⟩
      rw [heq, List.take_length]
  · rw [happ, hchunks]
    exact (and_iff_left hcomplete).symm

/-- In a run every chunk is written once and as a whole if and only if no `::write` is short. -/
theorem chunks_written_iff {mem : ℤ → β} {data : ℤ} {files : Files β} {filename : Option String}
    (hr : run (step strftime pid) (start mem data files filename) ls = some s) :
    Lossless s ↔ Guarded (step strftime pid) Complete (start mem data files filename) ls := by
  have hstep : ∀ (t : Session β) l t', Behind t → step strftime pid t l = some t' → Behind t' :=
    fun _ _ _ h hs => h.step hs
  have hstart : (start mem data files filename).appender.written = [] ∧
      (start mem data files filename).appender.Counted := by
    cases filename with
    | none => exact ⟨rfl, trivial⟩
    | some name => exact ⟨rfl, counted_new files name⟩
  have hbehind : Behind (start mem data files filename) :=
    ⟨by rw [hstart.1]; exact Nat.zero_le _, hstart.2⟩
  refine Iff.trans ⟨fun h => h.complete, fun h => ⟨h, (run_invariant hstep hbehind hr).counted⟩⟩ ?_
  exact guarded_iff hstep (fun _ _ _ h hs => step_complete_iff h hs) hbehind hstart.1 hr

instance decidableComplete (s : Session β) : (l : Label β) → Decidable (Complete s l)
  | .append chunk _ n => inferInstanceAs (Decidable (n = chunk.length))
  | .log _ => isTrue trivial
  | .output _ n => inferInstanceAs (Decidable (n = s.mBuffer.unread.length))

/-- A chunk to a new file, and a record that the logger puts out. -/
theorem chunks_written_two : ∃ s,
    run (step (fun _ => "20240101-000000.") 7)
      (start (fun _ => (0 : UInt8)) 100 (fun _ => none) "a.log")
      [.append [1, 2] 0 2, .log [3], .output 1 1] = some s ∧
    s.appender.written = [1, 2, 3] ∧ Lossless s := by
  obtain ⟨s, hs⟩ : ∃ s,
      run (step (fun _ => "20240101-000000.") 7)
        (start (fun _ => (0 : UInt8)) 100 (fun _ => none) "a.log")
        [.append [1, 2] 0 2, .log [3], .output 1 1] = some s := ⟨_, rfl⟩
  refine ⟨s, hs, ?_, (chunks_written_iff hs).mpr (by decide)⟩
  cases hs
  rfl

/-- `::write` takes one byte of two, and the next chunk follows at once. -/
theorem short_write_drops_byte : ∃ s,
    run (step (fun _ => "20240101-000000.") 7)
      (start (fun _ => (0 : UInt8)) 100 (fun _ => none) "a.log")
      [.append [1, 2] 0 1, .append [3] 0 1] = some s ∧
    s.appender.written = [1, 3] ∧ s.chunks = [[1, 2], [3]] ∧ ¬ Lossless s := by
  refine ⟨_, rfl, rfl, rfl, fun h => ?_⟩
  exact absurd h.complete (by decide)

end GenericServer.LogAppenders
