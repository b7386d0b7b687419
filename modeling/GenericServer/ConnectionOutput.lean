import GenericServer.Buffer
import GenericServer.EventDispatch

/-!
# The output side of an open connection

`TCPConnection::sendMsg` on any number of threads and `handleWrite` on the loop thread
(`src/net/TCPConnection.cpp`), with `SocketOP::send` and `Event::enableWrite`. The critical
section of `sendMsg` is one step, and so is every access of `handleWrite` to shared data: it
holds `m_wlock` from its first step to its last, while the interest mask is not protected.
-/
namespace GenericServer.ConnectionOutput

open EventDispatch TransitionRuns

variable {β : Type*}

/-- `SocketOP::send` when `::write` returns `n`. -/
def send (b : BufferBase β) (n : ℤ) : BufferBase β × ℤ × List β :=
  if b.dataSize ≤ 0 then (b, -1, []) else b.writeOut n

/-- `Event::enableWrite`: the new value of `m_events`. -/
def enableWrite (events : BitVec 32) (on : Bool) : BitVec 32 :=
  if on then events ||| EPOLLOUT else events &&& ~~~EPOLLOUT

/-- A thread outside `sendMsg`, behind its critical section, between the load and the store
of `enableWrite(true)`, or behind the store. -/
inductive Sender
  | idle
  | appended
  | loaded (events : BitVec 32)
  | stored
  deriving DecidableEq, Repr

/-- The loop thread outside `handleWrite` or inside: with `size` read, about to switch the
interest off after a `::write` with the result `n` or because there was no data (`none`),
between load and store of `enableWrite(false)`, behind the store, about to return. -/
inductive Writer
  | idle
  | locked (size : ℤ)
  | clearing (n : Option ℤ)
  | loaded (n : Option ℤ) (events : BitVec 32)
  | stored
  | leaving
  deriving DecidableEq, Repr

/-- The shared data of an open connection. `interest` is the mask that the poller has been
told last, `queued` the number of posted `modifyEvent` functors; `wire` is what has gone to
the socket and `accepted` what the appends have accepted. -/
structure Output (β : Type*) where
  wbuf : BufferBase β
  mEvents : BitVec 32
  interest : BitVec 32
  queued : ℕ
  sender : ℕ → Sender
  writer : Writer
  wire : List β
  accepted : List β

/-- A connection registered for input, with an empty buffer of `size` bytes. -/
def start (mem : ℤ → β) (data : ℤ) (size : ℕ) : Output β where
  wbuf := .new mem data size
  mEvents := EPOLLIN ||| EPOLLPRI
  interest := EPOLLIN ||| EPOLLPRI
  queued := 0
  sender := fun _ => .idle
  writer := .idle
  wire := []
  accepted := []

def setSender (s : Output β) (t : ℕ) (x : Sender) : Output β :=
  { s with sender := Function.update s.sender t x }

/-- `EPollPoller::modifyEvent`. -/
def updatePoller (s : Output β) : Output β := { s with interest := s.mEvents }

/-- `append` is the critical section of `sendMsg(msg, len)` on thread `t`, followed by
`load`, `store` and `modify` (immediate on the loop thread, posted elsewhere and executed
by `runQueued`); `write n` is the `::write` of `handleWrite`. -/
inductive Label (β : Type*)
  | append (t : ℕ) (msg : List β) (len : ℤ)
  | load (t : ℕ)
  | store (t : ℕ)
  | modify (t : ℕ) (inLoop : Bool)
  | runQueued
  | lock
  | write (n : ℤ)
  | clearLoad
  | clearStore
  | clearModify
  | unlock

def step (s : Output β) : Label β → Option (Output β)
  | .append t msg len =>
    if s.writer = .idle ∧ s.sender t = .idle ∧ len ≤ msg.length then
      let (b, n) := s.wbuf.append msg len
      some (setSender { s with wbuf := b, accepted := s.accepted ++ msg.take n.toNat } t .appended)
    else none
  | .load t => match s.sender t with
    | .appended => some (setSender s t (.loaded s.mEvents))
    | _ => none
  | .store t => match s.sender t with
    | .loaded events => some (setSender { s with mEvents := enableWrite events true } t .stored)
    | _ => none
  | .modify t inLoop => match s.sender t with
    | .stored =>
      some (setSender (if inLoop then updatePoller s else { s with queued := s.queued + 1 }) t .idle)
    | _ => none
  | .runQueued =>
    if 0 < s.queued then some (updatePoller { s with queued := s.queued - 1 }) else none
  | .lock => match s.writer with
    | .idle => some { s with writer := .locked s.wbuf.dataSize }
    | _ => none
  | .write n => match s.writer with
    | .locked size =>
      if size > 0 then
        if -1 ≤ n ∧ n ≤ s.wbuf.dataSize then
          let (b, n, out) := send s.wbuf n
          let s := { s with wbuf := b, wire := s.wire ++ out }
          if n < size ∧ n > 0 then some { s with writer := .leaving }
          else some { s with writer := .clearing (some n) }
        else none
      else some { s with writer := .clearing none }
    | _ => none
  | .clearLoad => match s.writer with
    | .clearing n => some { s with writer := .loaded n s.mEvents }
    | _ => none
  | .clearStore => match s.writer with
    | .loaded _ events => some { s with mEvents := enableWrite events false, writer := .stored }
    | _ => none
  | .clearModify => match s.writer with
    | .stored => some (updatePoller { s with writer := .leaving })
    | _ => none
  | .unlock => match s.writer with
    | .leaving => some { s with writer := .idle }
    | _ => none

/-- What has gone out and what is still unread make up what has been accepted, and the
pointers of the buffer are in order. -/
structure Intact (s : Output β) : Prop where
  stream : s.wire ++ s.wbuf.unread = s.accepted
  ordered : s.wbuf.Ordered

theorem intact_start (mem : ℤ → β) (data : ℤ) (size : ℕ) : Intact (start mem data size) where
  stream := BufferBase.unread_new mem data size
  ordered := BufferBase.ordered_new mem data size

theorem Intact.send {s : Output β} (h : Intact s) {n : ℤ} (hn : n ≤ s.wbuf.dataSize) :
    Intact { s with wbuf := (ConnectionOutput.send s.wbuf n).1,
                    wire := s.wire ++ (ConnectionOutput.send s.wbuf n).2.2 } := by
  rw [ConnectionOutput.send]
  split_ifs with hsize
  · exact ⟨by simpa using h.stream, h.ordered⟩
  · obtain ⟨hord, hout, -⟩ := BufferBase.writeOut_spec h.ordered (not_le.mp hsize) hn
    refine ⟨?_, hord⟩
    rw [List.append_assoc, hout]
    exact h.stream

theorem Intact.append {s : Output β} (h : Intact s) {msg : List β} {len : ℤ}
    (hlen : len ≤ msg.length) :
    Intact { s with wbuf := (s.wbuf.append msg len).1,
                    accepted := s.accepted ++ msg.take (s.wbuf.append msg len).2.toNat } := by
  obtain ⟨hord, hun, -⟩ := BufferBase.append_spec h.ordered hlen
  refine ⟨?_, hord⟩
  rw [hun, ← List.append_assoc, h.stream]

/-- The steps that leave the stream alone: everything but `append` and `write`. -/
theorem step_stream {s s' : Output β} {l : Label β} (hs : step s l = some s') :
    (∃ t msg len, l = .append t msg len) ∨ (∃ n, l = .write n) ∨
      (s'.wbuf = s.wbuf ∧ s'.wire = s.wire ∧ s'.accepted = s.accepted) := by
  cases l with
  | append t msg len => exact .inl ⟨t, msg, len, rfl⟩
  | write n => exact .inr (.inl ⟨n, rfl⟩)
  | modify t inLoop =>
    simp only [step] at hs
    split at hs
    · cases hs
      cases inLoop <;> exact .inr (.inr ⟨rfl, rfl, rfl⟩)
    · cases hs
  | runQueued =>
    simp only [step] at hs
    split_ifs at hs
    cases hs
    exact .inr (.inr ⟨rfl, rfl, rfl⟩)
  | load t | store t | lock | clearLoad | clearStore | clearModify | unlock =>
    simp only [step] at hs
    split at hs
    · cases hs
      exact .inr (.inr ⟨rfl, rfl, rfl⟩)
    · cases hs

theorem Intact.step {s s' : Output β} {l : Label β} (h : Intact s)
    (hs : ConnectionOutput.step s l = some s') : Intact s' := by
  rcases step_stream hs with ⟨t, msg, len, rfl⟩ | ⟨n, rfl⟩ | ⟨hbuf, hwire, hacc⟩
  · simp only [ConnectionOutput.step] at hs
    split_ifs at hs with hfree
    cases hs
    exact ⟨(h.append hfree.2.2).stream, (h.append hfree.2.2).ordered⟩
  · simp only [ConnectionOutput.step] at hs
    split at hs
    · split_ifs at hs with hdata hn hshort
      · cases hs
        exact ⟨(h.send hn.2).stream, (h.send hn.2).ordered⟩
      · cases hs
        exact ⟨(h.send hn.2).stream, (h.send hn.2).ordered⟩
      · cases hs
        exact ⟨h.stream, h.ordered⟩
    · cases hs
  · constructor
    · rw [hwire, hbuf, hacc]
      exact h.stream
    · rw [hbuf]
      exact h.ordered

/-- After every run the bytes on the wire followed by the unread bytes of `m_wbuf` are the
accepted prefixes in the order of the critical sections, and
`m_data <= m_rptr <= m_wptr <= m_end`. -/
theorem output_stream_intact {mem : ℤ → β} {data : ℤ} {size : ℕ} {ls : List (Label β)}
    {s : Output β} (hr : run step (start mem data size) ls = some s) :
    s.wire ++ s.wbuf.unread = s.accepted ∧ s.wbuf.mData ≤ s.wbuf.mRptr ∧
      s.wbuf.mRptr ≤ s.wbuf.mWptr ∧ s.wbuf.mWptr ≤ s.wbuf.mEnd := by
  have h : Intact s := run_invariant (fun _ _ _ h hs => Intact.step h hs)
    (intact_start mem data size) hr
  exact ⟨h.stream, h.ordered.data_le, h.ordered.rptr_le, h.ordered.wptr_le⟩

/-- A full buffer cuts the second message, a short write leaves a hole at the front. -/
theorem output_stream_intact_cut :
    ∃ s, run step (start (fun _ => (0 : UInt8)) 100 4)
        [.append 1 [1, 2, 3] 3, .lock, .write 2, .unlock, .append 2 [4, 5] 2] = some s ∧
      s.wire = [1, 2] ∧ s.accepted = [1, 2, 3, 4] ∧ s.wire ++ s.wbuf.unread = s.accepted := by
  obtain ⟨s, hs⟩ : ∃ s, run step (start (fun _ => (0 : UInt8)) 100 4)
      [.append 1 [1, 2, 3] 3, .lock, .write 2, .unlock, .append 2 [4, 5] 2] = some s := ⟨_, rfl⟩
  refine ⟨s, hs, ?_, ?_, (output_stream_intact hs).1⟩
  · cases hs
    rfl
  · cases hs
    rfl

def wantsWrite (events : BitVec 32) : Prop := events &&& EPOLLOUT ≠ 0

theorem wantsWrite_enableWrite (events : BitVec 32) : wantsWrite (enableWrite events true) := by
  have habsorb : (events ||| EPOLLOUT) &&& EPOLLOUT = EPOLLOUT := by
    ext i
    simp only [BitVec.getElem_and, BitVec.getElem_or]
    cases EPOLLOUT[i] <;> simp
  rw [wantsWrite, enableWrite, if_pos rfl, habsorb]
  decide

/-- The thread has appended and not yet stored its mask. -/
def Sender.owes : Sender → Prop
  | .appended => True
  | .loaded _ => True
  | .idle => False
  | .stored => False

/-- `handleWrite` is about to store a mask without `EPOLLOUT`, after a `::write` with the
result `n`. -/
def Writer.clears (w : Writer) (n : Option ℤ) : Prop :=
  w = .clearing n ∨ ∃ events, w = .loaded n events

/-- When `handleWrite` stores the cleared mask after a `::write` that returned no positive
count, some thread has appended and not yet stored its own mask. -/
def InterestKept (s : Output β) : Label β → Prop
  | .clearStore => ∀ n, s.writer.clears (some n) → n ≤ 0 → ∃ t, (s.sender t).owes
  | _ => True

/-- No `sendMsg` is between its append and its `modifyEvent`, no `handleWrite` is in progress. -/
def Quiet (s : Output β) : Prop := s.writer = .idle ∧ ∀ t, s.sender t = .idle

/-- Unread bytes are announced in the mask, and in the poller, by somebody. While
`handleWrite` is switching the interest off after a successful `::write` there are none. -/
structure Announced (s : Output β) : Prop where
  events : s.wbuf.unread ≠ [] → wantsWrite s.mEvents ∨ ∃ t, (s.sender t).owes
  interest : s.wbuf.unread ≠ [] →
    wantsWrite s.interest ∨ 0 < s.queued ∨ ∃ t, s.sender t ≠ .idle
  size : ∀ size, s.writer = .locked size → size = s.wbuf.dataSize
  drained : ∀ n, s.writer.clears n → (∀ k, n = some k → 0 < k) → s.wbuf.unread = []

theorem announced_start (mem : ℤ → β) (data : ℤ) (size : ℕ) :
    Announced (start mem data size) where
  events h := absurd (BufferBase.unread_new mem data size) h
  interest h := absurd (BufferBase.unread_new mem data size) h
  size n h := by cases h
  drained n h := by
    rcases h with h | ⟨events, h⟩ <;> cases h

@[simp] theorem setSender_self (s : Output β) (t : ℕ) (x : Sender) :
    (setSender s t x).sender t = x := Function.update_self ..

theorem exists_setSender {s : Output β} {p : Sender → Prop} {t : ℕ} (x : Sender)
    (h : ∃ u, p (s.sender u)) (ht : ¬ p (s.sender t)) : ∃ u, p ((setSender s t x).sender u) := by
  obtain ⟨u, hu⟩ := h
  refine ⟨u, ?_⟩
  have hne : u ≠ t := fun hut => ht (hut ▸ hu)
  simpa [setSender, hne] using hu

theorem Sender.owes.ne_idle {x : Sender} (h : x.owes) : x ≠ .idle := by
  rintro rfl
  exact h

/-- The obligations that `handleWrite` has only while it works on the buffer. -/
theorem announced_of_done {s : Output β}
    (events : s.wbuf.unread ≠ [] → wantsWrite s.mEvents ∨ ∃ t, (s.sender t).owes)
    (interest : s.wbuf.unread ≠ [] →
      wantsWrite s.interest ∨ 0 < s.queued ∨ ∃ t, s.sender t ≠ .idle)
    (hw : s.writer = .idle ∨ s.writer = .stored ∨ s.writer = .leaving) : Announced s where
  events := events
  interest := interest
  size n hn := by rcases hw with hw | hw | hw <;> cases hw.symm.trans hn
  drained n hn := by
    rcases hn with hn | ⟨events, hn⟩ <;> rcases hw with hw | hw | hw <;> cases hw.symm.trans hn

theorem Announced.of_sender {s s' : Output β} (h : Announced s) {t : ℕ}
    (howes : (s'.sender t).owes) (hwriter : s'.writer = s.writer)
    (hbuf : s.writer ≠ .idle → s'.wbuf = s.wbuf) : Announced s' where
  events _ := .inr ⟨t, howes⟩
  interest _ := .inr (.inr ⟨t, howes.ne_idle⟩)
  size n hn := by
    rw [hwriter] at hn
    rw [hbuf (by simp [hn])]
    exact h.size n hn
  drained n hn := by
    rw [hwriter] at hn
    rw [hbuf (by rcases hn with hn | ⟨events, hn⟩ <;> simp [hn])]
    exact h.drained n hn

theorem Announced.store {s : Output β} (h : Announced s) (t : ℕ) (events : BitVec 32) :
    Announced (setSender { s with mEvents := enableWrite events true } t .stored) where
  events _ := .inl (wantsWrite_enableWrite events)
  interest _ := .inr (.inr ⟨t, by simp⟩)
  size := h.size
  drained := h.drained

theorem Announced.modify {s : Output β} (h : Announced s) {t : ℕ} (ht : s.sender t = .stored)
    (inLoop : Bool) :
    Announced (setSender (if inLoop then updatePoller s else { s with queued := s.queued + 1 })
      t .idle) := by
  have hnot : ¬ (s.sender t).owes := by
    rw [ht]
    exact id
  cases inLoop with
  | true =>
    refine ⟨fun hun => (h.events hun).imp_right fun howes => exists_setSender .idle howes hnot,
      fun hun => (h.events hun).imp_right fun howes => .inr ?_, h.size, h.drained⟩
    obtain ⟨u, hu⟩ := exists_setSender .idle howes hnot
    exact ⟨u, hu.ne_idle⟩
  | false =>
    exact ⟨fun hun => (h.events hun).imp_right fun howes => exists_setSender .idle howes hnot,
      fun _ => .inr (.inl (Nat.succ_pos _)), h.size, h.drained⟩

theorem Announced.write {s s' : Output β} (h : Announced s) (hi : Intact s) {n : ℤ}
    (hs : step s (.write n) = some s') : Announced s' := by
  simp only [step] at hs
  split at hs
  · rename_i size hwriter
    have hsize := h.size size hwriter
    split_ifs at hs with hdata hn hshort
    · cases hs
      obtain ⟨-, hout, -⟩ := BufferBase.writeOut_spec hi.ordered (hsize ▸ hdata) hn.2
      have hstill : (send s.wbuf n).1.unread ≠ [] → s.wbuf.unread ≠ [] := by
        rw [send, if_neg (by omega), ← hout]
        exact fun hun hnil => hun (List.append_eq_nil_iff.mp hnil).2
      exact announced_of_done (fun hun => h.events (hstill hun))
        (fun hun => h.interest (hstill hun)) (.inr (.inr rfl))
    · cases hs
      obtain ⟨-, hout, hall⟩ := BufferBase.writeOut_spec hi.ordered (hsize ▸ hdata) hn.2
      have hstill : (send s.wbuf n).1.unread ≠ [] → s.wbuf.unread ≠ [] := by
        rw [send, if_neg (by omega), ← hout]
        exact fun hun hnil => hun (List.append_eq_nil_iff.mp hnil).2
      refine ⟨fun hun => h.events (hstill hun), fun hun => h.interest (hstill hun),
        nofun, fun m hm hpos => ?_⟩
      rcases hm with hm | ⟨events, hm⟩ <;> cases hm
      -- a positive count that is not short is the whole content
      have hresult : (send s.wbuf n).2.1 = n := by
        rw [send, if_neg (by omega)]
        exact s.wbuf.writeOut_result (by omega) n
      have hk := hpos _ rfl
      rw [hresult] at hk hshort
      simp only [send]
      rw [if_neg (by omega)]
      exact hall (by omega)
    · cases hs
      refine ⟨h.events, h.interest, nofun, fun m hm _ => ?_⟩
      have hempty : s.wbuf.dataSize ≤ 0 := by omega
      rw [BufferBase.unread, Int.toNat_of_nonpos hempty, BlockMemory.readBlock_zero]
  · cases hs

theorem Announced.clearStore {s s' : Output β} (h : Announced s) (hfit : InterestKept s .clearStore)
    (hs : step s .clearStore = some s') : Announced s' := by
  simp only [step] at hs
  split at hs
  · rename_i n events hwriter
    cases hs
    have hclears : s.writer.clears n := .inr ⟨events, hwriter⟩
    have howes : s.wbuf.unread ≠ [] → ∃ t, (s.sender t).owes := by
      intro hun
      by_contra hnone
      apply hun
      refine h.drained n hclears fun k hk => ?_
      subst hk
      by_contra hneg
      exact hnone (hfit k hclears (by omega))
    exact announced_of_done (fun hun => .inr (howes hun)) h.interest (.inr (.inl rfl))
  · cases hs

theorem Announced.step {s s' : Output β} {l : Label β} (h : Announced s) (hi : Intact s)
    (hfit : InterestKept s l) (hs : ConnectionOutput.step s l = some s') : Announced s' := by
  cases l with
  | append t msg len =>
    simp only [ConnectionOutput.step] at hs
    split_ifs at hs with hfree
    cases hs
    exact h.of_sender (t := t) (by simp [Sender.owes]) rfl (fun hbusy => absurd hfree.1 hbusy)
  | load t =>
    simp only [ConnectionOutput.step] at hs
    split at hs
    · cases hs
      exact h.of_sender (t := t) (by simp [Sender.owes]) rfl (fun _ => rfl)
    · cases hs
  | store t =>
    simp only [ConnectionOutput.step] at hs
    split at hs
    · cases hs
      exact h.store t _
    · cases hs
  | modify t inLoop =>
    simp only [ConnectionOutput.step] at hs
    split at hs
    · rename_i ht
      cases hs
      exact h.modify ht inLoop
    · cases hs
  | runQueued =>
    simp only [ConnectionOutput.step] at hs
    split_ifs at hs
    cases hs
    refine ⟨h.events, fun hun => (h.events hun).imp_right fun howes => .inr ?_, h.size, h.drained⟩
    obtain ⟨u, hu⟩ := howes
    exact ⟨u, hu.ne_idle⟩
  | lock =>
    simp only [ConnectionOutput.step] at hs
    split at hs
    · cases hs
      refine ⟨h.events, h.interest, fun m hm => ?_, fun m hm => ?_⟩
      · cases hm
        rfl
      · rcases hm with hm | ⟨events, hm⟩ <;> cases hm
    · cases hs
  | write n => exact h.write hi hs
  | clearLoad =>
    simp only [ConnectionOutput.step] at hs
    split at hs
    · rename_i n hwriter
      cases hs
      refine ⟨h.events, h.interest, nofun, fun m hm => ?_⟩
      rcases hm with hm | ⟨events, hm⟩ <;> cases hm
      exact h.drained n (.inl hwriter)
    · cases hs
  | clearStore => exact h.clearStore hfit hs
  | clearModify =>
    simp only [ConnectionOutput.step] at hs
    split at hs
    · cases hs
      refine announced_of_done h.events (fun hun => (h.events hun).imp_right fun howes => ?_)
        (.inr (.inr rfl))
      obtain ⟨u, hu⟩ := howes
      exact .inr ⟨u, hu.ne_idle⟩
    · cases hs
  | unlock =>
    simp only [ConnectionOutput.step] at hs
    split at hs
    · cases hs
      exact announced_of_done h.events h.interest (.inl rfl)
    · cases hs

/-- In every run in which the interest is kept, unread bytes are announced whenever nobody is
at work on them: in the mask, and in the poller or by a functor that is still queued. -/
theorem pending_output_keeps_interest {mem : ℤ → β} {data : ℤ} {size : ℕ} {ls : List (Label β)}
    {s : Output β} (hg : Guarded step InterestKept (start mem data size) ls)
    (hr : run step (start mem data size) ls = some s) (hquiet : Quiet s)
    (hunread : s.wbuf.unread ≠ []) :
    wantsWrite s.mEvents ∧ (wantsWrite s.interest ∨ 0 < s.queued) := by
  have hstep : ∀ (s : Output β) l s', Intact s ∧ Announced s → InterestKept s l →
      step s l = some s' → Intact s' ∧ Announced s' :=
    fun _ _ _ h hfit hs => ⟨h.1.step hs, h.2.step h.1 hfit hs⟩
  have h : Intact s ∧ Announced s :=
    hg.invariant hstep ⟨intact_start mem data size, announced_start mem data size⟩ hr
  have hnobody : ∀ t, ¬ (s.sender t).owes := fun t => by
    rw [hquiet.2 t]
    exact id
  refine ⟨(h.2.events hunread).resolve_right fun ⟨t, ht⟩ => hnobody t ht, ?_⟩
  rcases h.2.interest hunread with hint | hqueued | ⟨t, ht⟩
  · exact .inl hint
  · exact .inr hqueued
  · exact absurd (hquiet.2 t) ht

/-- One complete write, then a message that nobody has written yet. -/
theorem pending_output_keeps_interest_refilled :
    ∃ s, run step (start (fun _ => (0 : UInt8)) 0 8) [.append 1 [1] 1, .load 1, .store 1,
        .modify 1 true, .lock, .write 1, .clearLoad, .clearStore, .clearModify, .unlock,
        .append 1 [2, 3] 2, .load 1, .store 1, .modify 1 false] = some s ∧
      s.wbuf.unread = [2, 3] ∧ wantsWrite s.mEvents ∧ (wantsWrite s.interest ∨ 0 < s.queued) := by
  obtain ⟨s, hs⟩ : ∃ s, run step (start (fun _ => (0 : UInt8)) 0 8) [.append 1 [1] 1, .load 1,
      .store 1, .modify 1 true, .lock, .write 1, .clearLoad, .clearStore, .clearModify, .unlock,
      .append 1 [2, 3] 2, .load 1, .store 1, .modify 1 false] = some s := ⟨_, rfl⟩
  have hunread : s.wbuf.unread = [2, 3] := by
    cases hs
    rfl
  have hquiet : Quiet s := by
    cases hs
    refine ⟨rfl, fun t => ?_⟩
    by_cases ht : t = 1 <;> simp [setSender, updatePoller, start, ht]
  have hcomplete : ∀ s : Output UInt8, (∃ events, s.writer = .loaded (some 1) events) →
      InterestKept s .clearStore := by
    rintro s ⟨events, hw⟩ n (hn | ⟨_, hn⟩) hneg
    · cases hw.symm.trans hn
    · cases hw.symm.trans hn
      exact absurd hneg (by decide)
  refine ⟨s, hs, hunread, pending_output_keeps_interest ?_ hs hquiet (by simp [hunread])⟩
  exact guarded_cons trivial rfl <| guarded_cons trivial rfl <| guarded_cons trivial rfl <|
    guarded_cons trivial rfl <| guarded_cons trivial rfl <| guarded_cons trivial rfl <|
    guarded_cons trivial rfl <| guarded_cons (hcomplete _ ⟨_, rfl⟩) rfl <|
    guarded_cons trivial rfl <| guarded_cons trivial rfl <| guarded_cons trivial rfl <|
    guarded_cons trivial rfl <| guarded_cons trivial rfl <| guarded_cons trivial rfl trivial

/-- The socket is not ready when the only message is to be written: the byte stays in
`m_wbuf` and nobody waits for `EPOLLOUT`. -/
theorem would_block_strands_output :
    ∃ s, run step (start (fun _ => (0 : UInt8)) 0 8) [.append 1 [1] 1, .load 1, .store 1,
        .modify 1 true, .lock, .write (-1), .clearLoad, .clearStore, .clearModify, .unlock] = some s ∧
      Quiet s ∧ s.wbuf.unread = [1] ∧ ¬ wantsWrite s.mEvents := by
  refine ⟨_, rfl, ⟨rfl, fun t => ?_⟩, rfl, ?_⟩
  · by_cases ht : t = 1 <;> simp [setSender, updatePoller, start, ht]
  · rw [wantsWrite]
    decide

end GenericServer.ConnectionOutput
