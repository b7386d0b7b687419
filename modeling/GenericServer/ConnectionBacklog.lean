import GenericServer.ConnectionOutput

/-!
# Messages and the room for them

`sendMsg` measures the room behind the write pointer of `m_wbuf`, while a short `::write` frees
bytes in front of the read pointer. These come back when the buffer has been drained.
-/
namespace GenericServer.ConnectionOutput

open TransitionRuns

variable {β : Type*}

def BUFFER_SIZE : ℕ := 1048576

/-- A message for which there is room beside the unsent bytes is accepted as a whole. -/
def Accepts (size : ℕ) (s : Output β) : Label β → Prop
  | .append _ msg len => s.wbuf.dataSize + len ≤ size → (s.wbuf.append msg len).2 = max len 0
  | _ => True

/-- The backlog does not exceed the capacity. -/
def Within (size : ℕ) (s : Output β) : Label β → Prop
  | .append _ _ len => s.wbuf.dataSize + len ≤ size
  | _ => True

/-- A message for which there is room beside the unsent bytes finds this room behind them: the
hole that short writes have left since the last drain is not needed. -/
def Fits (size : ℕ) (s : Output β) : Label β → Prop
  | .append _ _ len => 0 < len → s.wbuf.dataSize + len ≤ size →
      s.wbuf.mRptr - s.wbuf.mData + s.wbuf.dataSize + len ≤ size
  | _ => True

def Label.message : Label β → List β
  | .append _ msg len => msg.take len.toNat
  | _ => []

def messages (ls : List (Label β)) : List β := ls.flatMap Label.message

/-- No message is cut while there is room, and if there always is, the peer gets all messages. -/
structure Uncut (mem : ℤ → β) (data : ℤ) (size : ℕ) (ls : List (Label β)) (s : Output β) : Prop where
  accepts : Guarded step (Accepts size) (start mem data size) ls
  stream : Guarded step (Within size) (start mem data size) ls →
    s.wire ++ s.wbuf.unread = messages ls

variable {s s' : Output β} {l : Label β} {ls : List (Label β)} {size : ℕ}

structure Allocated (size : ℕ) (s : Output β) : Prop where
  intact : Intact s
  size_eq : s.wbuf.mEnd = s.wbuf.mData + size

theorem allocated_start (mem : ℤ → β) (data : ℤ) (size : ℕ) :
    Allocated size (start mem data size) := ⟨intact_start mem data size, rfl⟩

theorem send_ends (b : BufferBase β) (n : ℤ) :
    (send b n).1.mData = b.mData ∧ (send b n).1.mEnd = b.mEnd := by
  rw [send]
  split_ifs
  · exact ⟨rfl, rfl⟩
  · exact b.writeOut_ends n

theorem Allocated.step (h : Allocated size s) (hs : ConnectionOutput.step s l = some s') :
    Allocated size s' := by
  have hends : s'.wbuf.mData = s.wbuf.mData ∧ s'.wbuf.mEnd = s.wbuf.mEnd := by
    rcases step_stream hs with ⟨t, msg, len, rfl⟩ | ⟨n, rfl⟩ | ⟨hbuf, -, -⟩
    · simp only [ConnectionOutput.step] at hs
      split_ifs at hs
      cases hs
      exact s.wbuf.append_ends msg len
    · simp only [ConnectionOutput.step] at hs
      split at hs
      · split_ifs at hs
        · cases hs
          exact send_ends s.wbuf n
        · cases hs
          exact send_ends s.wbuf n
        · cases hs
          exact ⟨rfl, rfl⟩
      · cases hs
    · rw [hbuf]
      exact ⟨rfl, rfl⟩
  exact ⟨h.intact.step hs, by rw [hends.1, hends.2]; exact h.size_eq⟩

theorem accepts_iff (h : Allocated size s) (l : Label β) : Accepts size s l ↔ Fits size s l := by
  cases l with
  | append t msg len =>
    simp only [Accepts, Fits]
    rcases le_or_gt len 0 with hneg | hpos
    · have hnone : (s.wbuf.append msg len).2 = max len 0 := by
        rw [BufferBase.append, if_pos hneg, max_eq_right hneg]
      exact iff_of_true (fun _ => hnone) fun hpos => absurd hpos (not_lt.mpr hneg)
    · rw [BufferBase.append_eq s.wbuf msg hpos, max_eq_left hpos.le, imp_iff_right hpos]
      refine imp_congr_right fun _ => ?_
      have hsize := h.size_eq
      dsimp only
      unfold BufferBase.remainSize BufferBase.dataSize
      omega
  | load | store | modify | runQueued | lock | write | clearLoad | clearStore | clearModify
  | unlock => exact Iff.rfl

theorem step_accepted (haccepts : Accepts size s l) (hwithin : Within size s l)
    (hs : step s l = some s') : s'.accepted = s.accepted ++ l.message := by
  cases l with
  | append t msg len =>
    simp only [step] at hs
    split_ifs at hs
    cases hs
    have hlen : (s.wbuf.append msg len).2.toNat = len.toNat := by
      rw [haccepts hwithin]
      omega
    exact congrArg (fun k => s.accepted ++ msg.take k) hlen
  | write n =>
    refine Eq.trans ?_ (List.append_nil _).symm
    simp only [step] at hs
    split at hs
    · split_ifs at hs <;> cases hs <;> rfl
    · cases hs
  | load | store | modify | runQueued | lock | clearLoad | clearStore | clearModify | unlock =>
    rcases step_stream hs with ⟨_, _, _, h⟩ | ⟨_, h⟩ | ⟨-, -, hsame⟩
    · cases h
    · cases h
    · exact hsame.trans (List.append_nil _).symm

theorem accepted_eq (h : Allocated size s) (haccepts : Guarded step (Accepts size) s ls)
    (hwithin : Guarded step (Within size) s ls) (hr : run step s ls = some s') :
    s'.accepted = s.accepted ++ messages ls := by
  induction ls generalizing s with
  | nil =>
    cases hr
    exact (List.append_nil _).symm
  | cons l ls ih =>
    obtain ⟨t, ht, hr⟩ := run_cons_eq_some.mp hr
    rw [ih (h.step ht) (haccepts.2 t ht) (hwithin.2 t ht) hr]
    rw [step_accepted haccepts.1 hwithin.1 ht, List.append_assoc]
    rfl

/-- In a run no message is cut while there is room if and only if none of them needs the hole at
the front of the buffer. -/
theorem messages_uncut_iff {mem : ℤ → β} {data : ℤ} (hr : run step (start mem data size) ls = some s) :
    Uncut mem data size ls s ↔ Guarded step (Fits size) (start mem data size) ls := by
  have hstart := allocated_start mem data size
  have hstep : ∀ (t : Output β) l t', Allocated size t → step t l = some t' → Allocated size t' :=
    fun _ _ _ h hs => h.step hs
  constructor
  · intro h
    exact h.accepts.imp hstep (fun t l ht => (accepts_iff ht l).mp) hstart
  · intro h
    have haccepts : Guarded step (Accepts size) (start mem data size) ls :=
      h.imp hstep (fun t l ht => (accepts_iff ht l).mpr) hstart
    refine ⟨haccepts, fun hwithin => ?_⟩
    rw [(run_invariant hstep hstart hr).intact.stream]
    exact accepted_eq hstart haccepts hwithin hr

instance decidableFits (size : ℕ) (s : Output β) : (l : Label β) → Decidable (Fits size s l)
  | .append _ _ len => inferInstanceAs (Decidable (0 < len → s.wbuf.dataSize + len ≤ size →
      s.wbuf.mRptr - s.wbuf.mData + s.wbuf.dataSize + len ≤ size))
  | .load _ | .store _ | .modify _ _ | .runQueued | .lock | .write _ | .clearLoad | .clearStore
  | .clearModify | .unlock => isTrue trivial

/-- A short write, and a second message behind the hole that it leaves. -/
theorem messages_uncut_short_write : ∃ s,
    run step (start (fun _ => (0 : UInt8)) 100 8)
      [.append 1 [1, 2, 3] 3, .lock, .write 2, .unlock, .append 2 [4, 5] 2] = some s ∧
    s.wire = [1, 2] ∧ s.wbuf.unread = [3, 4, 5] ∧
    Uncut (fun _ => (0 : UInt8)) 100 8
      [.append 1 [1, 2, 3] 3, .lock, .write 2, .unlock, .append 2 [4, 5] 2] s := by
  obtain ⟨s, hs⟩ : ∃ s, run step (start (fun _ => (0 : UInt8)) 100 8)
      [.append 1 [1, 2, 3] 3, .lock, .write 2, .unlock, .append 2 [4, 5] 2] = some s := ⟨_, rfl⟩
  refine ⟨s, hs, ?_, ?_, (messages_uncut_iff hs).mpr (by decide)⟩
  · cases hs
    rfl
  · cases hs
    rfl

theorem run_fill_write_one (mem : ℤ → β) {size : ℕ} (hsize : 2 ≤ size) {msg : List β}
    (hmsg : msg.length = size) : ∃ s,
    run step (start mem 0 size) [.append 1 msg size, .lock, .write 1, .unlock] = some s ∧
    s.wbuf.mRptr = 1 ∧ s.wbuf.mWptr = size ∧ s.wbuf.mEnd = size ∧ s.writer = .idle ∧
    s.sender 2 = .idle := by
  obtain ⟨s₁, h₁, hrptr₁, hwptr₁, hend₁, hwriter₁, hsender₁⟩ :
      ∃ s₁, step (start mem 0 size) (.append 1 msg size) = some s₁ ∧ s₁.wbuf.mRptr = 0 ∧
        s₁.wbuf.mWptr = size ∧ s₁.wbuf.mEnd = size ∧ s₁.writer = .idle ∧ s₁.sender 2 = .idle := by
    have hfill := BufferBase.append_eq (BufferBase.new mem 0 size) msg
      (show (0 : ℤ) < size by omega)
    have hall : min (size : ℤ) (BufferBase.new mem 0 size).remainSize = size := by
      simp only [BufferBase.remainSize, BufferBase.new]
      omega
    rw [hall] at hfill
    refine ⟨_, if_pos ⟨rfl, rfl, by omega⟩, ?_⟩
    change (((BufferBase.new mem 0 size).append msg size).1.mRptr = 0 ∧
      ((BufferBase.new mem 0 size).append msg size).1.mWptr = size ∧
      ((BufferBase.new mem 0 size).append msg size).1.mEnd = size ∧ _)
    rw [hfill]
    exact ⟨rfl, zero_add _, zero_add _, rfl, rfl⟩
  have hdata : s₁.wbuf.dataSize = size := by
    rw [BufferBase.dataSize, hwptr₁, hrptr₁]
    omega
  have h₂ : step s₁ .lock = some { s₁ with writer := .locked size } := by
    simp only [step, hwriter₁, hdata]
  have hsend : send s₁.wbuf 1 = ({ s₁.wbuf with mRptr := s₁.wbuf.mRptr + 1 }, 1,
      BlockMemory.readBlock s₁.wbuf.mem s₁.wbuf.mRptr 1) := by
    rw [send, if_neg (by omega), BufferBase.writeOut_short s₁.wbuf (by decide) (by omega)]
    rfl
  have hshort : (1 : ℤ) < size ∧ (1 : ℤ) > 0 := by omega
  have h₃ : ∃ s₃, step { s₁ with writer := .locked size } (.write 1) = some s₃ ∧
      s₃.wbuf = { s₁.wbuf with mRptr := s₁.wbuf.mRptr + 1 } ∧ s₃.writer = .leaving ∧
      s₃.sender = s₁.sender := by
    have hpos : (size : ℤ) > 0 := by omega
    have hroom : (-1 : ℤ) ≤ 1 ∧ (1 : ℤ) ≤ s₁.wbuf.dataSize := by omega
    simp only [step, hsend, if_pos hpos, if_pos hroom, if_pos hshort]
    exact ⟨_, rfl, rfl, rfl, rfl⟩
  obtain ⟨s₃, h₃, hbuf₃, hwriter₃, hsender₃⟩ := h₃
  have h₄ : step s₃ .unlock = some { s₃ with writer := .idle } := by
    simp only [step, hwriter₃]
  refine ⟨{ s₃ with writer := .idle }, ?_, ?_, ?_, ?_, rfl, ?_⟩
  · rw [run_cons_of h₁, run_cons_of h₂, run_cons_of h₃, run_cons_of h₄, run_nil]
  · simp only [hbuf₃, hrptr₁]
    decide
  · simpa only [hbuf₃] using hwptr₁
  · simpa only [hbuf₃] using hend₁
  · exact (congrFun hsender₃ 2).trans hsender₁

/-- The hole is room enough for one more byte, and this byte is not accepted. -/
theorem fill_write_one_cut (mem : ℤ → β) {size : ℕ} (hsize : 2 ≤ size) {msg : List β}
    (hmsg : msg.length = size) (x : β) : ∃ s,
    run step (start mem 0 size)
      [.append 1 msg size, .lock, .write 1, .unlock, .append 2 [x] 1] = some s ∧
    ¬ Uncut mem 0 size [.append 1 msg size, .lock, .write 1, .unlock, .append 2 [x] 1] s := by
  obtain ⟨t, ht, hrptr, hwptr, hend, hwriter, hsender⟩ := run_fill_write_one mem hsize hmsg
  obtain ⟨s, hs⟩ : ∃ s, step t (.append 2 [x] 1) = some s :=
    ⟨_, if_pos ⟨hwriter, hsender, show (1 : ℤ) ≤ 1 by decide⟩⟩
  refine ⟨s, ?_, fun h => ?_⟩
  · refine (run_append (start mem 0 size)
      [Label.append 1 msg size, .lock, .write 1, .unlock] [.append 2 [x] 1]).trans ?_
    rw [ht, Option.bind_some, run_cons_of hs, run_nil]
  · have haccepts : Guarded step (Accepts size) (start mem 0 size)
        ([.append 1 msg size, .lock, .write 1, .unlock] ++ [.append 2 [x] 1]) := h.accepts
    have hroom : t.wbuf.dataSize + 1 ≤ size := by
      rw [BufferBase.dataSize, hwptr, hrptr]
      omega
    have hall := (haccepts.after ht).1 hroom
    rw [BufferBase.append_eq t.wbuf [x] (by decide), BufferBase.remainSize, hwptr, hend] at hall
    simp at hall

/-- One byte of a full `m_wbuf` has gone out, and there is no room for one more. -/
theorem hole_cuts_message : ∃ s,
    run step (start (fun _ => (0 : UInt8)) 0 BUFFER_SIZE)
      [.append 1 (List.replicate BUFFER_SIZE 0) BUFFER_SIZE, .lock, .write 1, .unlock,
        .append 2 [7] 1] = some s ∧
    ¬ Uncut (fun _ => (0 : UInt8)) 0 BUFFER_SIZE
      [.append 1 (List.replicate BUFFER_SIZE 0) BUFFER_SIZE, .lock, .write 1, .unlock,
        .append 2 [7] 1] s :=
  fill_write_one_cut _ (by decide) List.length_replicate 7

end GenericServer.ConnectionOutput
