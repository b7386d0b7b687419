import GenericServer.LogStream

/-!
# Log records

`Logger` of `src/log/Log.h` and `Log.cpp`: a `LOG_` statement constructs a `Logger`, streams its
values, and the destructor passes the record to the logger of the thread.
-/
namespace GenericServer.LogRecords

open BufferBase LogStream TextPieces Decimals

inductive LogLevel
  | TRACE
  | DEBUG
  | INFO
  | WARN
  | ERROR
  | FATAL
  deriving DecidableEq, Repr

def s_logLevelName : LogLevel → List Char
  | .TRACE => ['T', 'R', 'A', 'C', 'E', ' ']
  | .DEBUG => ['D', 'E', 'B', 'U', 'G', ' ']
  | .INFO => [' ', 'I', 'N', 'F', 'O', ' ']
  | .WARN => [' ', 'W', 'A', 'R', 'N', ' ']
  | .ERROR => ['E', 'R', 'R', 'O', 'R', ' ']
  | .FATAL => ['F', 'A', 'T', 'A', 'L', ' ']

structure Time where
  tmYear : ℕ
  tmMon : ℕ
  tmMday : ℕ
  tmHour : ℕ
  tmMin : ℕ
  tmSec : ℕ
  usec : ℕ

/-- A number in at least `width` places. -/
def padded (c : Char) (width n : ℕ) : List Char := (Nat.toDigits 10 n).leftpad width c

def formatString (t : Time) : List Char :=
  padded ' ' 4 (t.tmYear + 1900) ++ padded '0' 2 (t.tmMon + 1) ++ padded '0' 2 t.tmMday ++ [' '] ++
    padded '0' 2 t.tmHour ++ [':'] ++ padded '0' 2 t.tmMin ++ [':'] ++ padded '0' 2 t.tmSec ++
    ['.'] ++ padded '0' 6 t.usec

/-- A `LOG_` statement at a place of the source, run by the thread `tid`; `time` is there where
time stamps are shown. -/
structure LogStatement where
  source : Option (List Char)
  line : Integer
  level : LogLevel
  time : Option Time
  tid : Integer
  values : List Insertion

namespace LogStatement

def format (s : LogStatement) : List Insertion :=
  [.simpleString (match s.time with
    | some time => formatString time ++ [' ']
    | none => []), .integer s.tid, .cString (some [' ']), .simpleString (s_logLevelName s.level)]

def finish (s : LogStatement) : List Insertion :=
  [.cString (some [' ', '-']), .cString s.source, .cString (some [':']), .integer s.line,
    .cString (some ['\n'])]

/-- The bytes that `~Logger` passes to the logger. -/
def record (mem : ℤ → Char) (data : ℤ) (s : LogStatement) : List Char :=
  let b := s.format.foldl insert (new mem data)
  let b := s.values.foldl insert b
  let b := s.finish.foldl insert b
  b.unread

def insertions (s : LogStatement) : List Insertion := s.format ++ s.values ++ s.finish

/-- There is no newline in the values and the file name. -/
def Plain (s : LogStatement) : Prop :=
  (∀ x ∈ s.values, '\n' ∉ x.text) ∧ '\n' ∉ s.source.getD []

/-- All that the buffer is asked to append comes to 256 bytes at most. -/
def Fits (s : LogStatement) : Prop :=
  (s.insertions.flatMap Insertion.asked).length ≤ LOGSTREAM_BUFFER_SIZE

end LogStatement

variable {s : LogStatement} {x : Insertion}

theorem not_mem_decimal (v : ℤ) : '\n' ∉ decimal v := by
  intro h
  rcases isDigit_of_mem_decimal h with hsign | hdigit
  · exact absurd hsign (by decide)
  · exact absurd hdigit (by decide)

theorem not_mem_padded {c : Char} (hc : '\n' ≠ c) (width n : ℕ) : '\n' ∉ padded c width n := by
  intro h
  rcases List.mem_append.mp h with hpad | hdigit
  · exact hc (List.eq_of_mem_replicate hpad)
  · exact absurd (Nat.isDigit_of_mem_toDigits (by decide) (by decide) hdigit) (by decide)

theorem not_mem_formatString (t : Time) : '\n' ∉ formatString t := by
  have hblank : '\n' ≠ ' ' := by decide
  have hzero : '\n' ≠ '0' := by decide
  simp [formatString, not_mem_padded hblank, not_mem_padded hzero]

theorem mem_text_of_mem_asked {c : Char} (h : c ∈ x.asked) : c ∈ x.text := by
  cases x with
  | char _ => exact h
  | cString str => exact List.mem_of_mem_take h
  | simpleString str => exact List.mem_of_mem_take h
  | string str => exact List.mem_of_mem_take h
  | integer v => exact h
  | floating text => exact List.mem_of_mem_take h

theorem not_mem_format (s : LogStatement) (hx : x ∈ s.format) : '\n' ∉ x.text := by
  simp only [LogStatement.format, List.mem_cons, List.not_mem_nil, or_false] at hx
  rcases hx with rfl | rfl | rfl | rfl
  · cases s.time with
    | none => exact List.not_mem_nil
    | some time =>
      intro hmem
      rcases List.mem_append.mp hmem with htime | hblank
      · exact not_mem_formatString time htime
      · exact absurd hblank (by decide)
  · exact not_mem_decimal s.tid.value
  · exact by decide
  · cases s.level <;> exact by decide

theorem not_mem_finish (h : s.Plain) (hx : x ∈ s.finish.dropLast) : '\n' ∉ x.text := by
  simp only [LogStatement.finish, List.dropLast_cons_cons, List.dropLast_singleton, List.mem_cons,
    List.not_mem_nil, or_false] at hx
  rcases hx with rfl | rfl | rfl | rfl
  · exact by decide
  · exact h.2
  · exact by decide
  · exact not_mem_decimal s.line.value

/-- The newline of `~Logger` is the only one that the buffer is asked to append. -/
theorem asked_eq (h : s.Plain) :
    ∃ body, '\n' ∉ body ∧ s.insertions.flatMap Insertion.asked = body ++ ['\n'] := by
  refine ⟨(s.format ++ s.values ++ s.finish.dropLast).flatMap Insertion.asked, fun hmem => ?_, ?_⟩
  · obtain ⟨x, hx, hasked⟩ := List.mem_flatMap.mp hmem
    have htext := mem_text_of_mem_asked hasked
    rcases List.mem_append.mp hx with hx | hx
    · rcases List.mem_append.mp hx with hx | hx
      · exact not_mem_format s hx htext
      · exact h.1 x hx htext
    · exact not_mem_finish h hx htext
  · have hlast : s.finish = s.finish.dropLast ++ [.cString (some ['\n'])] := rfl
    rw [LogStatement.insertions, hlast, ← List.append_assoc, List.flatMap_append]
    rfl

theorem record_eq (mem : ℤ → Char) (data : ℤ) (s : LogStatement) :
    s.record mem data = (s.insertions.flatMap Insertion.asked).take LOGSTREAM_BUFFER_SIZE := by
  have hcontent := (holds_stream mem data s.insertions).content
  rw [stream, LogStatement.insertions, List.foldl_append, List.foldl_append] at hcontent
  exact hcontent

theorem oneLine_record_iff (mem : ℤ → Char) (data : ℤ) (h : s.Plain) :
    OneLine '\n' (s.record mem data) ↔ s.Fits := by
  obtain ⟨body, hbody, hasked⟩ := asked_eq h
  rw [record_eq, LogStatement.Fits, hasked]
  exact oneLine_take_iff hbody LOGSTREAM_BUFFER_SIZE

/-- The records of any log statements are lines, and can be told apart, exactly when each of them
fits in the buffer with all of its pieces. -/
theorem records_split_iff (mem : ℤ → Char) (data : ℤ) {ss : List LogStatement}
    (h : ∀ s ∈ ss, s.Plain) :
    ((∀ s ∈ ss, OneLine '\n' (s.record mem data)) ∧
      splitLines '\n' [] (ss.flatMap (LogStatement.record mem data)) =
        ss.map (LogStatement.record mem data)) ↔ ∀ s ∈ ss, s.Fits := by
  constructor
  · intro hlines s hs
    exact (oneLine_record_iff mem data (h s hs)).mp (hlines.1 s hs)
  · intro hfits
    have hlines : ∀ s ∈ ss, OneLine '\n' (s.record mem data) := fun s hs =>
      (oneLine_record_iff mem data (h s hs)).mpr (hfits s hs)
    refine ⟨hlines, ?_⟩
    rw [List.flatMap_def]
    refine splitLines_flatten fun line hline => ?_
    obtain ⟨s, hs, rfl⟩ := List.mem_map.mp hline
    exact hlines s hs

/-- A statement of the thread 7 in line 12 of `a.cpp`. -/
def sample (values : List Insertion) : LogStatement where
  source := some ['a', '.', 'c', 'p', 'p']
  line := ⟨.int, 12, by decide⟩
  level := .INFO
  time := none
  tid := ⟨.int, 7, by decide⟩
  values := values

theorem records_split_two :
    let ss := [sample [.char 'a'], sample [.integer ⟨.unsignedInt, 80, by decide⟩]]
    (∀ s ∈ ss, s.Fits) ∧ (∀ s ∈ ss, OneLine '\n' (s.record (fun _ => ' ') 0)) ∧
      splitLines '\n' [] (ss.flatMap (LogStatement.record (fun _ => ' ') 0)) =
        ss.map (LogStatement.record (fun _ => ' ') 0) := by
  intro ss
  have hplain : ∀ s ∈ ss, s.Plain := by
    intro s hs
    simp only [ss, List.mem_cons, List.not_mem_nil, or_false] at hs
    rcases hs with rfl | rfl
    · exact ⟨by simp [sample, Insertion.text], by decide⟩
    · exact ⟨by simp [sample, Insertion.text, not_mem_decimal], by decide⟩
  have hfits : ∀ s ∈ ss, s.Fits := by
    unfold LogStatement.Fits
    decide +kernel
  exact ⟨hfits, (records_split_iff (fun _ => ' ') 0 hplain).mpr hfits⟩

/-- A value of 300 bytes leaves no room for the newline. -/
theorem long_record_unterminated :
    let s := sample [.string (List.replicate 300 'x')]
    s.Plain ∧ ¬ OneLine '\n' (s.record (fun _ => ' ') 0) := by
  intro s
  have hplain : s.Plain := by
    refine ⟨fun x hx hmem => ?_, by decide⟩
    obtain rfl := List.mem_singleton.mp hx
    exact absurd (List.eq_of_mem_replicate hmem) (by decide)
  have hlong : ¬ s.Fits := by
    unfold LogStatement.Fits
    decide +kernel
  exact ⟨hplain, fun hline => hlong ((oneLine_record_iff (fun _ => ' ') 0 hplain).mp hline)⟩

end GenericServer.LogRecords
