import GenericServer.FileContents
import GenericServer.TransitionRuns
import Mathlib.Data.Int.Notation
import Mathlib.Tactic.SplitIfs

/-!
# Log files and their rotation

`FileUtil` of `src/log/FileUtil.cpp` and `LogFile` of `src/log/LogFile.cpp`. The files belong to
one `LogFile`, and neither `::open` nor `::write` fails.
-/
namespace GenericServer.LogFiles

open FileContents TransitionRuns

variable {β : Type*}

def LOGFILE_SIZE : ℕ := 67108864

/-- `pos` is the offset of `m_fd`, and `writes` has what each `::write` on it has written. -/
structure FileUtil (β : Type*) where
  mName : String
  mWrittenBytes : ℤ
  maxSize : ℤ
  pos : ℕ
  writes : List (List β)

namespace FileUtil

def new (name : String) (maxsize : ℤ) : FileUtil β := ⟨name, 0, maxsize, 0, []⟩

/-- `open_internal(O_RDWR | O_CREAT)`: no `O_TRUNC`, and `O_APPEND` is commented out. -/
def openInternal (f : FileUtil β) (files : Files β) : FileUtil β × Files β :=
  ({ f with pos := 0 }, files.create f.mName)

/-- `::write(m_fd, bytes)` and `m_writtenBytes += n`. -/
def put (f : FileUtil β) (bytes : List β) : FileUtil β :=
  { f with mWrittenBytes := f.mWrittenBytes + bytes.length
           pos := f.pos + bytes.length
           writes := f.writes ++ [bytes] }

/-- `FileUtil::write` when `::write` returns `n`. -/
def write (f : FileUtil β) (files : Files β) (data : List β) (n : ℕ) : FileUtil β × Files β × ℤ :=
  let remain := f.maxSize - f.mWrittenBytes
  if remain < data.length then (f, files, -1)
  else
    (f.put (data.take n), files.put f.mName (writeAt (files.content f.mName) f.pos (data.take n)), n)

end FileUtil

/-- `m_file`, the files that the rotations have closed, and the directory. -/
structure LogFile (β : Type*) where
  mFile : FileUtil β
  closed : List (FileUtil β)
  files : Files β

/-- `LogFile::genFileName` in the second `now`; `strftime` is the formatted time with the dot. -/
def genFileName (strftime : ℤ → String) (pid : ℤ) (now : ℤ) : String :=
  strftime now ++ toString pid ++ ".log"

namespace LogFile

def new (files : Files β) (name : String) : LogFile β :=
  let (f, files) := (FileUtil.new name LOGFILE_SIZE).openInternal files
  ⟨f, [], files⟩

/-- `m_file->close()`, and a new `FileUtil` in place of it. -/
def rotate (s : LogFile β) (name : String) : LogFile β :=
  let (f, files) := (FileUtil.new name LOGFILE_SIZE).openInternal s.files
  ⟨f, s.closed ++ [s.mFile], files⟩

/-- `LogFile::append`, when the `::write` of it returns `n`. -/
def append (strftime : ℤ → String) (pid : ℤ) (s : LogFile β) (now : ℤ) (data : List β) (n : ℕ) :
    LogFile β :=
  if data.length > LOGFILE_SIZE then s
  else
    let (f, files, ret) := s.mFile.write s.files data n
    if ret = -1 then
      let s := s.rotate (genFileName strftime pid now)
      let (f, files, _) := s.mFile.write s.files data n
      { s with mFile := f, files := files }
    else { s with mFile := f, files := files }

def opened (s : LogFile β) : List (FileUtil β) := s.closed ++ [s.mFile]

def records (s : LogFile β) : List (List β) := s.opened.flatMap FileUtil.writes

/-- What was appended to the files of this name. -/
def appended (s : LogFile β) (name : String) : List β :=
  (s.opened.filter fun f => f.mName = name).flatMap fun f => f.writes.flatten

/-- One complete `::write` on the current file. -/
def put (s : LogFile β) (bytes : List β) : LogFile β where
  mFile := s.mFile.put bytes
  closed := s.closed
  files := s.files.put s.mFile.mName (writeAt (s.files.content s.mFile.mName) s.mFile.pos bytes)

end LogFile

/-! ## What a call of `append` does -/

variable {strftime : ℤ → String} {pid : ℤ} {s s' : LogFile β} {data : List β}

/-- The data do not fit into what is left of the file. -/
abbrev FileUtil.Full (f : FileUtil β) (data : List β) : Prop :=
  f.maxSize - f.mWrittenBytes < data.length

theorem write_of_full {f : FileUtil β} (h : f.Full data) (files : Files β) (n : ℕ) :
    f.write files data n = (f, files, -1) := if_pos h

theorem write_of_not_full {f : FileUtil β} (h : ¬ f.Full data) (files : Files β) (n : ℕ) :
    f.write files data n = (f.put (data.take n),
      files.put f.mName (writeAt (files.content f.mName) f.pos (data.take n)), (n : ℤ)) := if_neg h

/-- With the file that gets the data. -/
def LogFile.ready (s : LogFile β) (name : String) (data : List β) : LogFile β :=
  if s.mFile.Full data then s.rotate name else s

theorem append_eq (hdata : data.length ≤ LOGFILE_SIZE) (s : LogFile β) (now : ℤ) (n : ℕ) :
    s.append strftime pid now data n =
      (s.ready (genFileName strftime pid now) data).put (data.take n) := by
  have hret : ¬ (n : ℤ) = -1 := by omega
  rw [LogFile.append, if_neg (Nat.not_lt.mpr hdata), LogFile.ready]
  by_cases hfull : s.mFile.Full data
  · have hnew : ¬ (s.rotate (genFileName strftime pid now)).mFile.Full data :=
      show ¬ (LOGFILE_SIZE : ℤ) - 0 < data.length by omega
    rw [write_of_full hfull, if_pos hfull]
    dsimp only
    rw [if_pos rfl, write_of_not_full hnew]
    rfl
  · rw [write_of_not_full hfull, if_neg hfull]
    dsimp only
    rw [if_neg hret]
    rfl

section Rotate

variable (s : LogFile β) (name other : String)

theorem content_rotate : (s.rotate name).files.content other = s.files.content other :=
  s.files.content_create name other

theorem records_rotate : (s.rotate name).records = s.records := by
  simp [LogFile.records, LogFile.opened, LogFile.rotate, FileUtil.openInternal, FileUtil.new]

theorem appended_rotate : (s.rotate name).appended other = s.appended other := by
  simp only [LogFile.appended, LogFile.opened, LogFile.rotate, FileUtil.openInternal, FileUtil.new]
  rw [List.filter_append, List.flatMap_append]
  by_cases h : name = other <;> simp [h]

theorem records_ready (data : List β) : (s.ready name data).records = s.records := by
  rw [LogFile.ready]
  split_ifs
  · exact records_rotate s name
  · rfl

end Rotate

section Put

variable (s : LogFile β) (bytes : List β)

theorem records_put : (s.put bytes).records = s.records ++ [bytes] := by
  simp [LogFile.records, LogFile.opened, LogFile.put, FileUtil.put]

theorem appended_put_self :
    (s.put bytes).appended s.mFile.mName = s.appended s.mFile.mName ++ bytes := by
  simp [LogFile.appended, LogFile.opened, LogFile.put, FileUtil.put]

theorem appended_put_of_ne {name : String} (h : name ≠ s.mFile.mName) :
    (s.put bytes).appended name = s.appended name := by
  simp [LogFile.appended, LogFile.opened, LogFile.put, FileUtil.put, h.symm]

theorem content_put_self : (s.put bytes).files.content s.mFile.mName
    = writeAt (s.files.content s.mFile.mName) s.mFile.pos bytes :=
  s.files.content_put_self _ _

theorem content_put_of_ne {name : String} (h : name ≠ s.mFile.mName) :
    (s.put bytes).files.content name = s.files.content name :=
  s.files.content_put_of_ne h _

end Put

/-- The current file is not shorter than what has been written through `m_file`, and no file is
longer than what it was at first with everything that was appended to it. -/
structure Bounded (files : Files β) (s : LogFile β) : Prop where
  pos_le : s.mFile.pos ≤ (s.files.content s.mFile.mName).length
  length_le : ∀ name, (s.files.content name).length ≤
    (files.content name).length + (s.appended name).length

/-- Each file is what it was at first, followed by everything that was appended to it. -/
def Kept (files : Files β) (s : LogFile β) : Prop :=
  ∀ name, s.files.content name = files.content name ++ s.appended name

variable {files : Files β}

theorem content_new (name other : String) :
    (LogFile.new files name).files.content other = files.content other :=
  files.content_create name other

theorem appended_new (name other : String) : (LogFile.new files name).appended other = [] := by
  simp only [LogFile.appended, LogFile.opened, LogFile.new, FileUtil.openInternal, FileUtil.new]
  by_cases h : name = other <;> simp [h]

theorem bounded_new (name : String) : Bounded files (LogFile.new files name) where
  pos_le := Nat.zero_le _
  length_le := fun other => by rw [content_new]; omega

theorem kept_new (name : String) : Kept files (LogFile.new files name) := fun other => by
  rw [content_new, appended_new, List.append_nil]

theorem Bounded.ready (h : Bounded files s) (name : String) (data : List β) :
    Bounded files (s.ready name data) := by
  rw [LogFile.ready]
  split_ifs
  · refine ⟨Nat.zero_le _, fun other => ?_⟩
    rw [content_rotate, appended_rotate]
    exact h.length_le other
  · exact h

theorem Bounded.put (h : Bounded files s) (bytes : List β) : Bounded files (s.put bytes) := by
  constructor
  · refine le_of_le_of_eq ?_ (congrArg List.length (content_put_self s bytes)).symm
    rw [length_writeAt h.pos_le]
    exact Nat.le_max_right _ _
  · intro name
    rcases eq_or_ne name s.mFile.mName with rfl | hne
    · have hpos := h.pos_le
      have hlen := h.length_le s.mFile.mName
      rw [content_put_self, appended_put_self, length_writeAt hpos, List.length_append]
      omega
    · rw [content_put_of_ne s bytes hne, appended_put_of_ne s bytes hne]
      exact h.length_le name

theorem kept_ready (name : String) (data : List β) : Kept files (s.ready name data) ↔ Kept files s := by
  rw [LogFile.ready]
  split_ifs
  · exact forall_congr' fun other => by rw [content_rotate, appended_rotate]
  · exact Iff.rfl

theorem content_put_eq (h : Bounded files s) {bytes : List β}
    (hend : bytes ≠ [] → (s.files.content s.mFile.mName).length = s.mFile.pos) :
    (s.put bytes).files.content s.mFile.mName = s.files.content s.mFile.mName ++ bytes := by
  rw [content_put_self, writeAt_eq_append_iff h.pos_le]
  exact (eq_or_ne bytes []).imp_right fun hne => (hend hne).symm

/-- A `::write` keeps everything exactly when it starts at the end of the file; what has been
overwritten before is not repaired by it. -/
theorem kept_put_iff (h : Bounded files s) (bytes : List β) : Kept files (s.put bytes) ↔
    Kept files s ∧ (bytes ≠ [] → (s.files.content s.mFile.mName).length = s.mFile.pos) := by
  constructor
  · intro hkept
    have hend : bytes ≠ [] → (s.files.content s.mFile.mName).length = s.mFile.pos := by
      intro hne
      have hlen := congrArg List.length (hkept s.mFile.mName)
      have hpos := List.length_pos_of_ne_nil hne
      have hle := h.length_le s.mFile.mName
      have hoff := h.pos_le
      rw [content_put_self, appended_put_self, length_writeAt h.pos_le, List.length_append,
        List.length_append] at hlen
      omega
    refine ⟨fun name => ?_, hend⟩
    rcases eq_or_ne name s.mFile.mName with rfl | hne
    · have hall := hkept s.mFile.mName
      rw [content_put_eq h hend, appended_put_self, ← List.append_assoc] at hall
      exact List.append_cancel_right hall
    · have hother := hkept name
      rwa [content_put_of_ne s bytes hne, appended_put_of_ne s bytes hne] at hother
  · rintro ⟨hkept, hend⟩ name
    rcases eq_or_ne name s.mFile.mName with rfl | hne
    · rw [content_put_eq h hend, appended_put_self, hkept, List.append_assoc]
    · rw [content_put_of_ne s bytes hne, appended_put_of_ne s bytes hne]
      exact hkept name

/-! ## Runs with complete writes -/

/-- A record, and the second in which a rotation for it takes place. -/
structure Label (β : Type*) where
  record : List β
  now : ℤ

def step (strftime : ℤ → String) (pid : ℤ) (s : LogFile β) (l : Label β) : Option (LogFile β) :=
  if l.record.length ≤ LOGFILE_SIZE then
    some (s.append strftime pid l.now l.record l.record.length)
  else none

/-- A record that starts a new file finds no other content in it, and the current file ends where
the record is written. -/
def Fits (strftime : ℤ → String) (pid : ℤ) (s : LogFile β) (l : Label β) : Prop :=
  l.record ≠ [] →
    if s.mFile.maxSize - s.mFile.mWrittenBytes < l.record.length then
      s.files.content (genFileName strftime pid l.now) = []
    else (s.files.content s.mFile.mName).length = s.mFile.pos

/-- Nothing is overwritten, and the files have got the records, each as a whole and in order. -/
structure Preserved (files : Files β) (ls : List (Label β)) (s : LogFile β) : Prop where
  kept : Kept files s
  records : s.records = ls.map Label.record

variable {l : Label β} {ls : List (Label β)}

theorem step_eq (hs : step strftime pid s l = some s') :
    s' = (s.ready (genFileName strftime pid l.now) l.record).put l.record := by
  rw [step] at hs
  split_ifs at hs with hsize
  cases hs
  rw [append_eq hsize, List.take_length]

theorem Bounded.step (h : Bounded files s) (hs : LogFiles.step strftime pid s l = some s') :
    Bounded files s' := by
  rw [step_eq hs]
  exact (h.ready _ _).put _

theorem step_kept_iff (h : Bounded files s) (hs : step strftime pid s l = some s') :
    Kept files s' ↔ Kept files s ∧ Fits strftime pid s l := by
  rw [step_eq hs, kept_put_iff (h.ready _ _), kept_ready, Fits, LogFile.ready]
  refine and_congr_right fun _ => imp_congr_right fun _ => ?_
  split_ifs
  · rw [content_rotate, ← List.length_eq_zero_iff]
    exact Iff.rfl
  · exact Iff.rfl

/-- A rotation in the second that has named the current file already starts this file again. -/
theorem not_kept_of_same_second (h : Bounded files s) (hs : step strftime pid s l = some s')
    (hname : s.mFile.mName = genFileName strftime pid l.now) (hfull : s.mFile.Full l.record)
    (hrecord : l.record ≠ []) (hold : s.files.content s.mFile.mName ≠ []) : ¬ Kept files s' := by
  intro hkept
  have hfits := ((step_kept_iff h hs).mp hkept).2 hrecord
  rw [if_pos hfull, ← hname] at hfits
  exact hold hfits

theorem run_records (hr : run (step strftime pid) s ls = some s') :
    s'.records = s.records ++ ls.map Label.record := by
  induction ls generalizing s with
  | nil =>
    cases hr
    exact (List.append_nil _).symm
  | cons l ls ih =>
    obtain ⟨t, ht, hr⟩ := run_cons_eq_some.mp hr
    rw [ih hr, step_eq ht, records_put, records_ready, List.append_assoc]
    rfl

/-- From any directory and with any clock, a run preserves everything if and only if each file
that gets a record was missing or empty when it was opened. -/
theorem rotation_preserves_iff {name : String}
    (hr : run (step strftime pid) (.new files name) ls = some s) :
    Preserved files ls s ↔ Guarded (step strftime pid) (Fits strftime pid) (.new files name) ls := by
  have hrecords : s.records = ls.map Label.record := run_records hr
  refine Iff.trans ⟨fun h => h.kept, fun h => ⟨h, hrecords⟩⟩ ?_
  exact guarded_iff (fun _ _ _ h hs => h.step hs) (fun _ _ _ h hs => step_kept_iff h hs)
    (bounded_new name) (kept_new name) hr

instance decidableFits (strftime : ℤ → String) (pid : ℤ) [DecidableEq β] (s : LogFile β)
    (l : Label β) : Decidable (Fits strftime pid s l) :=
  inferInstanceAs (Decidable (l.record ≠ [] →
    if s.mFile.maxSize - s.mFile.mWrittenBytes < l.record.length then
      s.files.content (genFileName strftime pid l.now) = []
    else (s.files.content s.mFile.mName).length = s.mFile.pos))

/-- Two records in a new file beside an old one. -/
theorem rotation_preserves_two_records : ∃ s,
    run (step (fun _ => "20240101-000000.") 7)
      (.new (Function.update (fun _ => none) "old.log" (some [(9 : UInt8)])) "new.log")
      [⟨[1, 2], 0⟩, ⟨[3], 1⟩] = some s ∧
    s.files.content "new.log" = [1, 2, 3] ∧
    Preserved (Function.update (fun _ => none) "old.log" (some [(9 : UInt8)]))
      [⟨[1, 2], 0⟩, ⟨[3], 1⟩] s := by
  obtain ⟨s, hs⟩ : ∃ s, run (step (fun _ => "20240101-000000.") 7)
      (.new (Function.update (fun _ => none) "old.log" (some [(9 : UInt8)])) "new.log")
      [⟨[1, 2], 0⟩, ⟨[3], 1⟩] = some s := ⟨_, rfl⟩
  refine ⟨s, hs, ?_, (rotation_preserves_iff hs).mpr (by decide)⟩
  cases hs
  rfl

/-- A log file that exists already: its first byte is gone behind the first record. -/
theorem reopened_file_overwritten : ∃ s,
    run (step (fun _ => "20240101-000000.") 7)
      (.new (Function.update (fun _ => none) "old.log" (some [(9 : UInt8), 8])) "old.log")
      [⟨[1], 0⟩] = some s ∧
    s.files.content "old.log" = [1, 8] ∧
    ¬ Preserved (Function.update (fun _ => none) "old.log" (some [(9 : UInt8), 8]))
      [⟨[1], 0⟩] s := by
  refine ⟨_, rfl, rfl, fun h => ?_⟩
  exact absurd (h.kept "old.log") (by decide)

end GenericServer.LogFiles
