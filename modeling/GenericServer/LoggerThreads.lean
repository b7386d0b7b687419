import GenericServer.ContiguousBlocks
import GenericServer.RingThreads

/-!
# The asynchronous logger with its threads

`AsyncLogger::append` on any number of threads and `AsyncLogger::threadFunc`
(`src/log/Log.cpp`) over the rings of `m_bufferMap`, with the steps of `RingThreads` for each
ring. Every byte carries the thread and the record it comes from; the code never looks at
a byte, so this changes nothing. Accesses to `m_bufferMap` itself are atomic.
-/
namespace GenericServer.LoggerThreads

open ContiguousBlocks RingThreads TransitionRuns

variable {β : Type*}

def ASYNCLOGGER_BUFFER_SIZE : ℤ := 32768

/-- `buffer_size`, `highWaterMark` and `lowWaterMark` of `threadFunc`. -/
def bufferSize : ℤ := 65536
def highWaterMark : ℤ := bufferSize - 2048
def lowWaterMark : ℤ := 2048

/-- A byte of record number `record` of thread `tid`. It is `inner` when the record did fit into
the free space of the ring at the start of the call, and has more bytes. -/
structure Byte (β : Type*) where
  tid : ℤ
  record : ℕ
  inner : Bool
  val : β
  deriving DecidableEq, Repr

def stamp (tid : ℤ) (record : ℕ) (fits : Bool) : List β → List (Byte β)
  | [] => []
  | b :: bs => ⟨tid, record, fits && !bs.isEmpty, b⟩ :: stamp tid record fits bs

/-- A logging thread with its ring: the record and the `remain` of the running
`AsyncLogger::append`, whether this record did fit, what had been copied before it, and the
records so far, with their numbers, that did fit. -/
structure Worker (β : Type*) where
  shared : Shared (Byte β)
  producer : Producer (Byte β)
  data : List (Byte β)
  remain : ℤ
  count : ℕ
  fits : Bool
  before : List (Byte β)
  fitting : List (ℕ × List (Byte β))

/-- The logger thread: before the test of `m_running`; at a ring, before `empty()` or inside
`retrive`, in the loop or in the drain at the end (`final`); behind the rings; done. -/
inductive Pc
  | loop
  | visit (t : ℤ) (final : Bool)
  | retriving (t : ℤ) (final : Bool)
  | settling
  | finishing
  | finished
  deriving DecidableEq, Repr

/-- `staged` is `buffer[0..n)`, `output` what has been handed to `m_appender`. -/
structure Logger (β : Type*) where
  worker : ℤ → Worker β
  keys : List ℤ
  running : Bool
  pc : Pc
  consumer : Consumer (Byte β)
  staged : List (Byte β)
  output : List (Byte β)

def start (garbage : ℤ → ℤ → Byte β) : Logger β where
  worker t :=
    { shared := ⟨RingBuffer.new ASYNCLOGGER_BUFFER_SIZE (garbage t), fun _ => false, [], []⟩
      producer := .idle
      data := []
      remain := 0
      count := 0
      fits := false
      before := []
      fitting := [] }
  keys := []
  running := true
  pc := .loop
  consumer := .idle
  staged := []
  output := []

/-- Threads log, and their `append` goes on and returns; `stop` clears `m_running`; the other
labels are the steps of `threadFunc`, which may find that two seconds have passed. -/
inductive Label (β : Type*)
  | log (t : ℤ) (record : List β)
  | produce (t : ℤ)
  | pushed (t : ℤ)
  | stop
  | running
  | check
  | retrive
  | retrived
  | settle (timeout : Bool)
  | finish

/-- The start of `AsyncLogger::append` on thread `t`, up to the call of the ring's `append`. -/
def Worker.log (w : Worker β) (t : ℤ) (record : List β) : Worker β :=
  let fits := decide ((record.length : ℤ) ≤ w.shared.ring.availSize)
  let data := stamp t w.count fits record
  { w with
    producer := .entered data data.length
    data := data
    remain := data.length
    count := w.count + 1
    fits := fits
    before := w.shared.copied
    fitting := if fits then (w.count, data) :: w.fitting else w.fitting }

/-- The ring's `append` has returned `n`: `remain -= n`, and once more with the same arguments
while `remain > 0`. -/
def Worker.pushed (w : Worker β) (n : ℤ) : Worker β :=
  if w.remain - n > 0 then
    { w with producer := .entered w.data w.data.length, remain := w.remain - n }
  else
    { w with producer := .idle, remain := w.remain - n, data := [], fits := false,
             before := w.shared.copied }

def setWorker (s : Logger β) (t : ℤ) (w : Worker β) : Logger β :=
  { s with worker := Function.update s.worker t w }

def nextPc (final : Bool) : Option ℤ → Pc
  | some t => .visit t final
  | none => if final then .finishing else .settling

def flush (s : Logger β) : Logger β := { s with output := s.output ++ s.staged, staged := [] }

def step (s : Logger β) : Label β → Option (Logger β)
  | .log t record => match (s.worker t).producer with
    | .idle => some (setWorker { s with keys := if t ∈ s.keys then s.keys else t :: s.keys } t
        ((s.worker t).log t record))
    | _ => none
  | .produce t => (produce (s.worker t).shared (s.worker t).producer).map fun (sh, p) =>
      setWorker s t { s.worker t with shared := sh, producer := p }
  | .pushed t => match (s.worker t).producer with
    | .done _ n => some (setWorker s t ((s.worker t).pushed n))
    | _ => none
  | .stop => some { s with running := false }
  | .running => match s.pc with
    | .loop => some { s with pc := nextPc (!s.running) s.keys.min? }
    | _ => none
  | .check => match s.pc with
    | .visit t final =>
      if (s.worker t).shared.ring.empty then
        some { s with pc := nextPc final (s.keys.filter fun k => t < k).min? }
      else
        some { s with pc := .retriving t final, consumer := .entered (bufferSize - s.staged.length) }
    | _ => none
  | .retrive => match s.pc with
    | .retriving t _ => (consume (s.worker t).shared s.consumer).map fun (sh, c) =>
        setWorker { s with consumer := c } t { s.worker t with shared := sh }
    | _ => none
  | .retrived => match s.pc, s.consumer with
    | .retriving t final, .done _ _ buf =>
      let s := { s with pc := .visit t final, consumer := .idle, staged := s.staged ++ buf }
      some (if s.staged.length > highWaterMark then flush s else s)
    | _, _ => none
  | .settle timeout => match s.pc with
    | .settling =>
      let s := { s with pc := .loop }
      some (if s.staged.length > lowWaterMark ∨ timeout then flush s else s)
    | _ => none
  | .finish => match s.pc with
    | .finishing => some (flush { s with pc := .finished })
    | _ => none

/-- The producer is between the two stores of `m_in` of a record that wraps. -/
def between : Producer β → Prop
  | .copyingRest _ _ _ _ => True
  | .storingRest _ _ _ _ => True
  | _ => False

/-- A ring `append` of a record that did not fit does not find the reader at index 0 with the
record reaching the end of the ring; and the logger thread does not take a ring for drained
while its producer is between the two stores of a record that did fit. -/
def InOrder (s : Logger β) : Label β → Prop
  | .produce t => ∀ data size, (s.worker t).producer = .entered data size →
      (s.worker t).fits = false → (s.worker t).shared.ring.mOut = 0 →
      size < (s.worker t).shared.ring.mSize - (s.worker t).shared.ring.mIn
  | .check => ∀ t final, s.pc = .visit t final → (s.worker t).shared.ring.empty = true →
      (s.worker t).fits = true → ¬ between (s.worker t).producer
  | _ => True

/-- Every record that did fit stands in one piece in what the appender has got, and also in this
followed by what is staged; nothing follows an incomplete one. All of it is there when its
`append` has returned and its ring is drained. -/
def Contiguous (s : Logger β) : Prop :=
  ∀ t, ∀ e ∈ (s.worker t).fitting,
    InOnePiece (fun b : Byte β => (b.tid, b.record)) (t, e.1) s.output e.2 ∧
    InOnePiece (fun b : Byte β => (b.tid, b.record)) (t, e.1) (s.output ++ s.staged) e.2 ∧
    ((s.worker t).producer = .idle → (s.worker t).shared.ring.empty = true →
      (∀ final, s.pc ≠ .retriving t final) →
      Whole (fun b : Byte β => (b.tid, b.record)) (t, e.1) (s.output ++ s.staged) e.2)

end GenericServer.LoggerThreads
