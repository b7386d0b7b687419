import GenericServer.Buffer
import GenericServer.TransitionRuns

/-!
# The input side of an open connection

`TCPConnection::handleRead` of `src/net/TCPConnection.cpp` with `SocketOP::recv`. A successful
`::read` leaves `errno` as the thread's last failing call has set it. What the message callback
does to the buffer is undone by `clear`.
-/
namespace GenericServer.ConnectionInput

open TransitionRuns

variable {β : Type*}

def EAGAIN : ℤ := 11
def ECONNRESET : ℤ := 104

/-- What a call of `handleRead` does: `handleClose`, the message callback on the content of
`m_rbuf`, or neither. -/
inductive Reaction (β : Type*)
  | close
  | message (content : List β)
  | ignore
  deriving DecidableEq, Repr

/-- `m_rbuf` of a connection, and every call of `handleRead` with the outcome of its `::read`. -/
structure Input (β : Type*) where
  rbuf : BufferBase β
  closed : Bool
  calls : List (Except ℤ (List β) × Reaction β)

def start (mem : ℤ → β) (data : ℤ) (size : ℕ) : Input β where
  rbuf := .new mem data size
  closed := false
  calls := []

def recv (b : BufferBase β) (r : Except ℤ (List β)) : BufferBase β × ℤ := b.readIn r

def errnoAfter (errno : ℤ) : Except ℤ (List β) → ℤ
  | .ok _ => errno
  | .error e => e

def handleRead (s : Input β) (errno : ℤ) (r : Except ℤ (List β)) : Input β :=
  let (b, n) := recv s.rbuf r
  if n = 0 ∨ errnoAfter errno r = ECONNRESET then
    { s with rbuf := b, closed := true, calls := s.calls ++ [(r, .close)] }
  else { s with rbuf := b.clear, calls := s.calls ++ [(r, .message b.unread)] }

def delivered : Except ℤ (List β) → List β
  | .ok ys => ys
  | .error _ => []

/-- A read event that finds `errno` with some value of the thread's past. -/
inductive Label (β : Type*)
  | handleRead (errno : ℤ) (r : Except ℤ (List β))

/-- `::read` stores no more than it has been asked for. -/
def step (s : Input β) : Label β → Option (Input β)
  | .handleRead errno r =>
    if s.closed = false ∧ (delivered r).length ≤ s.rbuf.remainSize then
      some (handleRead s errno r)
    else none

/-! ## What the reads ask for -/

def due : Except ℤ (List β) → Reaction β
  | .ok [] => .close
  | .ok (y :: ys) => .message (y :: ys)
  | .error e => if e = ECONNRESET then .close else .ignore

def received (s : Input β) : List β := s.calls.flatMap fun c => delivered c.1

def Reaction.content : Reaction β → List β
  | .message ys => ys
  | .close => []
  | .ignore => []

/-- The bytes that the callbacks have seen. -/
def shown (s : Input β) : List β := s.calls.flatMap fun c => c.2.content

structure Faithful (s : Input β) : Prop where
  reactions : ∀ c ∈ s.calls, c.2 = due c.1
  cleared : s.closed = false → s.rbuf.unread = []
  complete : shown s = received s

/-- Bytes arrive while `errno` is not `ECONNRESET`, and the only failure is `ECONNRESET`. -/
def Fits (_ : Input β) : Label β → Prop
  | .handleRead errno r => match r with
    | .ok ys => ys ≠ [] → errno ≠ ECONNRESET
    | .error e => e = ECONNRESET

variable {s s' : Input β} {l : Label β} {ls : List (Label β)}

/-- Before every read the buffer is as in the beginning. -/
structure Empty (b : BufferBase β) : Prop where
  wptr : b.mWptr = b.mData
  rptr : b.mRptr = b.mData

theorem Empty.unread {b : BufferBase β} (h : Empty b) : b.unread = [] := by
  rw [BufferBase.unread, BufferBase.dataSize, h.wptr, h.rptr, Int.sub_self]
  rfl

theorem Empty.unread_readIn {b : BufferBase β} (h : Empty b) (r : Except ℤ (List β)) :
    (b.readIn r).1.unread = delivered r := by
  cases r with
  | ok ys =>
    have hsize : (b.mWptr + ys.length - b.mRptr).toNat = ys.length := by
      rw [h.wptr, h.rptr]
      omega
    simp only [BufferBase.readIn, BufferBase.unread, BufferBase.dataSize, hsize]
    rw [h.rptr, ← h.wptr]
    exact BlockMemory.readBlock_writeBlock_self _ _ _
  | error e => exact h.unread

theorem step_empty (hs : step s l = some s') : s'.closed = false → Empty s'.rbuf := by
  obtain ⟨errno, r⟩ := l
  simp only [step] at hs
  split_ifs at hs with hok
  cases hs
  unfold handleRead
  dsimp only
  split_ifs
  · exact fun hclosed => absurd hclosed (by decide)
  · exact fun _ => ⟨rfl, rfl⟩

theorem step_reaction (h : s.closed = false → Empty s.rbuf) (hs : step s l = some s') :
    ∃ r c, s'.calls = s.calls ++ [(r, c)] ∧ (c = due r ↔ Fits s l) := by
  obtain ⟨errno, r⟩ := l
  simp only [step] at hs
  split_ifs at hs with hok
  cases hs
  have hunread := (h hok.1).unread_readIn r
  unfold handleRead
  dsimp only [recv]
  cases r with
  | error e =>
    have hn : (s.rbuf.readIn (.error e)).2 ≠ 0 := show (-1 : ℤ) ≠ 0 by decide
    by_cases he : e = ECONNRESET
    · rw [if_pos (.inr he)]
      exact ⟨_, _, rfl, iff_of_true (if_pos he).symm he⟩
    · rw [if_neg fun h => h.elim hn he]
      refine ⟨_, _, rfl, iff_of_false ?_ he⟩
      rw [due, if_neg he]
      exact nofun
  | ok ys =>
    cases ys with
    | nil =>
      rw [if_pos (.inl rfl)]
      exact ⟨_, _, rfl, iff_of_true rfl fun hne => absurd rfl hne⟩
    | cons y ys =>
      have hn : (s.rbuf.readIn (.ok (y :: ys))).2 ≠ 0 := by
        simp only [BufferBase.readIn, List.length_cons]
        omega
      by_cases he : errno = ECONNRESET
      · rw [if_pos (.inr he)]
        refine ⟨_, _, rfl, iff_of_false nofun fun hfits => ?_⟩
        exact hfits (List.cons_ne_nil y ys) he
      · rw [if_neg fun h => h.elim hn he]
        exact ⟨_, _, rfl, iff_of_true (congrArg Reaction.message hunread) fun _ => he⟩

theorem step_reactions_iff (h : s.closed = false → Empty s.rbuf) (hs : step s l = some s') :
    (∀ c ∈ s'.calls, c.2 = due c.1) ↔ (∀ c ∈ s.calls, c.2 = due c.1) ∧ Fits s l := by
  obtain ⟨r, c, hcalls, hfits⟩ := step_reaction h hs
  rw [hcalls, ← hfits]
  simp [or_imp, forall_and]

theorem content_due (r : Except ℤ (List β)) : (due r).content = delivered r := by
  cases r with
  | error e =>
    rw [due]
    split_ifs <;> rfl
  | ok ys => cases ys <;> rfl

/-- Each call of `handleRead` in a run reacts to its own read, and all bytes are shown once and in
order, if and only if every call fits. -/
theorem input_faithful_iff {mem : ℤ → β} {data : ℤ} {size : ℕ}
    (hr : run step (start mem data size) ls = some s) :
    Faithful s ↔ Guarded step Fits (start mem data size) ls := by
  have hstep : ∀ (t : Input β) m t', (t.closed = false → Empty t.rbuf) → step t m = some t' →
      (t'.closed = false → Empty t'.rbuf) := fun _ _ _ _ hs => step_empty hs
  have hstart : (start mem data size).closed = false → Empty (start mem data size).rbuf :=
    fun _ => ⟨rfl, rfl⟩
  have hreactions : Faithful s ↔ ∀ c ∈ s.calls, c.2 = due c.1 := by
    refine ⟨fun h => h.reactions, fun h => ⟨h, fun hopen => ?_, ?_⟩⟩
    · exact (run_invariant hstep hstart hr hopen).unread
    · refine List.flatMap_congr fun c hc => ?_
      rw [h c hc, content_due]
  rw [hreactions]
  exact guarded_iff hstep (fun _ _ _ h hs => step_reactions_iff h hs) hstart
    (fun _ hc => absurd hc List.not_mem_nil) hr

/-- Two reads, the second one behind a failure with `EAGAIN` elsewhere, and the end of the
stream. -/
theorem input_faithful_three_reads : ∃ s,
    run step (start (fun _ => (0 : UInt8)) 100 8)
      [.handleRead 0 (.ok [1, 2]), .handleRead EAGAIN (.ok [3]), .handleRead ECONNRESET (.ok [])]
        = some s ∧
    shown s = [1, 2, 3] ∧ Faithful s := by
  obtain ⟨s, hs⟩ : ∃ s, run step (start (fun _ => (0 : UInt8)) 100 8)
      [.handleRead 0 (.ok [1, 2]), .handleRead EAGAIN (.ok [3]), .handleRead ECONNRESET (.ok [])]
        = some s := ⟨_, rfl⟩
  refine ⟨s, hs, ?_, (input_faithful_iff hs).mpr ?_⟩
  · cases hs
    rfl
  · exact guarded_of_forall _ (by simp [Fits, EAGAIN, ECONNRESET])

/-- Another connection of the thread has been reset before: two bytes arrive, the connection is
closed, and nobody sees them. -/
theorem stale_reset_drops_bytes : ∃ s,
    run step (start (fun _ => (0 : UInt8)) 100 8) [.handleRead ECONNRESET (.ok [1, 2])] = some s ∧
    s.closed = true ∧ received s = [1, 2] ∧ shown s = [] ∧ ¬ Faithful s := by
  refine ⟨_, rfl, rfl, rfl, rfl, fun h => ?_⟩
  exact absurd h.complete (by decide)

end GenericServer.ConnectionInput
