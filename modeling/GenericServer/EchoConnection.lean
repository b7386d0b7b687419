import GenericServer.ConnectionInput
import GenericServer.ConnectionOutput

/-!
# A connection of the echo server

`EchoServer::onMessage` of `src/example/EchoServer.h` sends the content of the read buffer back.
Everything happens on the loop thread of the connection: the callback runs inside of `handleRead`
and the `sendMsg` in it is not interrupted.
-/
namespace GenericServer.EchoConnection

open TransitionRuns
open ConnectionInput (Input recv delivered received ECONNRESET)
open ConnectionOutput (Output Intact Quiet wantsWrite enableWrite)

variable {β : Type*}

/-- The two sides of an open connection. -/
structure Echo (β : Type*) where
  input : Input β
  output : Output β

def start (rmem wmem : ℤ → β) (rdata wdata : ℤ) (size : ℕ) : Echo β where
  input := ConnectionInput.start rmem rdata size
  output := ConnectionOutput.start wmem wdata size

/-- `sendMsg` on the loop thread, whose `modifyEvent` takes effect at once. -/
def sendMsg (o : Output β) (msg : List β) : Option (Output β) :=
  run ConnectionOutput.step o
    [.append 0 msg msg.length, .load 0, .store 0, .modify 0 true]

/-- `handleWrite` with a `::write` that returns `n`, from the lock to its release. -/
def handleWrite (o : Output β) (n : ℤ) : Option (Output β) :=
  (run ConnectionOutput.step o [.lock, .write n]).bind fun o =>
    run ConnectionOutput.step o
      (if o.writer = .leaving then [.unlock] else [.clearLoad, .clearStore, .clearModify, .unlock])

/-- `handleRead`, with `onMessage` as the message callback. -/
def handleRead (s : Echo β) (errno : ℤ) (r : Except ℤ (List β)) : Option (Echo β) :=
  (ConnectionInput.step s.input (.handleRead errno r)).bind fun input =>
    if input.closed then some { s with input := input }
    else (sendMsg s.output (recv s.input.rbuf r).1.unread).map fun output => ⟨input, output⟩

inductive Label (β : Type*)
  | handleRead (errno : ℤ) (r : Except ℤ (List β))
  | handleWrite (n : ℤ)

instance (events : BitVec 32) : Decidable (wantsWrite events) :=
  inferInstanceAs (Decidable (events &&& EventDispatch.EPOLLOUT ≠ 0))

/-- The poller reports what the interest mask asks for. -/
def step (s : Echo β) : Label β → Option (Echo β)
  | .handleRead errno r => handleRead s errno r
  | .handleWrite n =>
    if s.input.closed = false ∧ wantsWrite s.output.interest then
      (handleWrite s.output n).map fun output => { s with output := output }
    else none

def outgoing (s : Echo β) : List β := s.output.wire ++ s.output.wbuf.unread

/-- A read event that loses nothing: `errno` is not `ECONNRESET` while bytes arrive, and there is
room for them behind the write pointer of `m_wbuf`. -/
def Fits (s : Echo β) : Label β → Prop
  | .handleRead errno r => (delivered r ≠ [] → errno ≠ ECONNRESET) ∧
      (delivered r).length ≤ s.output.wbuf.remainSize
  | .handleWrite _ => True

/-- A `::write` on behalf of unsent bytes takes at least one. -/
def Writes (s : Echo β) : Label β → Prop
  | .handleRead _ _ => True
  | .handleWrite n => s.output.wbuf.unread ≠ [] → 0 < n

variable {s s' : Echo β} {o o' : Output β} {l : Label β} {ls : List (Label β)}

/-! ## The two handlers -/

theorem sendMsg_spec (h : Quiet o) (msg : List β) : ∃ o', sendMsg o msg = some o' ∧ Quiet o' ∧
    o'.wbuf = (o.wbuf.append msg msg.length).1 ∧ o'.wire = o.wire ∧
    o'.accepted = o.accepted ++ msg.take (o.wbuf.append msg msg.length).2.toNat ∧
    wantsWrite o'.interest := by
  obtain ⟨hwriter, hsender⟩ := h
  simp only [sendMsg, run, ConnectionOutput.step, hwriter, hsender, ConnectionOutput.setSender,
    ConnectionOutput.updatePoller, le_refl, and_self, if_true, Option.bind_some,
    Function.update_self, Function.update_idem, Option.some.injEq, exists_eq_left']
  refine ⟨⟨rfl, fun t => ?_⟩, trivial, trivial, trivial, ?_⟩
  · dsimp only
    by_cases ht : t = 0
    · rw [ht, Function.update_self]
    · rw [Function.update_of_ne ht]
      exact hsender t
  · exact ConnectionOutput.wantsWrite_enableWrite _

theorem not_wantsWrite_enableWrite (events : BitVec 32) :
    ¬ wantsWrite (enableWrite events false) := by
  have hclear : (events &&& ~~~EventDispatch.EPOLLOUT) &&& EventDispatch.EPOLLOUT = 0#32 := by
    rw [BitVec.and_assoc, BitVec.and_comm (~~~_), BitVec.and_not_self]
    exact BitVec.and_zero
  rw [wantsWrite, not_not, enableWrite, if_neg Bool.false_ne_true]
  exact hclear

/-- What `handleWrite` leaves behind: the buffer after its `::write`, and the interest as it was
behind a short write and switched off otherwise. -/
structure Written (o o' : Output β) (n : ℤ) : Prop where
  quiet : Quiet o'
  accepted : o'.accepted = o.accepted
  buffer : o.wbuf.dataSize ≤ 0 ∧ o'.wbuf = o.wbuf ∨
    0 < o.wbuf.dataSize ∧ -1 ≤ n ∧ n ≤ o.wbuf.dataSize ∧
      o'.wbuf = (ConnectionOutput.send o.wbuf n).1
  short : 0 < n → n < o.wbuf.dataSize → o'.interest = o.interest
  otherwise : ¬ (0 < n ∧ n < o.wbuf.dataSize) → ¬ wantsWrite o'.interest

theorem send_result {b : BufferBase β} (hsize : 0 < b.dataSize) (n : ℤ) :
    (ConnectionOutput.send b n).2.1 = n := by
  rw [ConnectionOutput.send, if_neg (not_le.mpr hsize)]
  exact b.writeOut_result hsize n

theorem handleWrite_spec (h : Quiet o) {n : ℤ} (hs : handleWrite o n = some o') :
    Written o o' n := by
  obtain ⟨hwriter, hsender⟩ := h
  simp only [handleWrite, run, ConnectionOutput.step, hwriter, Option.bind_some] at hs
  split_ifs at hs with hsize hn hshort
  · rw [send_result hsize] at hshort
    obtain rfl := Option.some.inj hs
    exact ⟨⟨rfl, hsender⟩, rfl, .inr ⟨hsize, hn.1, hn.2, rfl⟩, fun _ _ => rfl,
      fun hlong => absurd hshort.symm hlong⟩
  · rw [send_result hsize] at hshort
    obtain rfl := Option.some.inj hs
    exact ⟨⟨rfl, hsender⟩, rfl, .inr ⟨hsize, hn.1, hn.2, rfl⟩,
      fun hpos hlt => absurd ⟨hlt, hpos⟩ hshort, fun _ => not_wantsWrite_enableWrite _⟩
  · cases hs
  · obtain rfl := Option.some.inj hs
    exact ⟨⟨rfl, hsender⟩, rfl, .inl ⟨not_lt.mp hsize, rfl⟩,
      fun hpos hlt => absurd (hpos.trans hlt) hsize, fun _ => not_wantsWrite_enableWrite _⟩

theorem handleRead_cases (hempty : s.input.closed = false → ConnectionInput.Empty s.input.rbuf)
    {errno : ℤ} {r : Except ℤ (List β)} (hs : handleRead s errno r = some s') :
    (s'.input.closed = false → ConnectionInput.Empty s'.input.rbuf) ∧
      received s'.input = received s.input ++ delivered r ∧
      ((s'.output = s.output ∧ (delivered r = [] ∨ errno = ECONNRESET)) ∨
        ((delivered r ≠ [] → errno ≠ ECONNRESET) ∧
          sendMsg s.output (delivered r) = some s'.output)) := by
  obtain ⟨input, hinput, hs⟩ := Option.bind_eq_some_iff.mp hs
  have hnext := ConnectionInput.step_empty hinput
  simp only [ConnectionInput.step] at hinput
  split_ifs at hinput with hopen
  have hunread := (hempty hopen.1).unread_readIn r
  cases hinput
  have hsame : received (ConnectionInput.handleRead s.input errno r) =
      received s.input ++ delivered r := by
    unfold ConnectionInput.handleRead
    dsimp only
    split_ifs <;> simp [received]
  have hclosed : (ConnectionInput.handleRead s.input errno r).closed = true ↔
      (recv s.input.rbuf r).2 = 0 ∨ ConnectionInput.errnoAfter errno r = ECONNRESET := by
    unfold ConnectionInput.handleRead
    dsimp only
    split_ifs with hclose
    · exact iff_of_true rfl hclose
    · exact iff_of_false (by rw [hopen.1]; exact Bool.false_ne_true) hclose
  split_ifs at hs with hc
  · cases hs
    refine ⟨hnext, hsame, .inl ⟨rfl, ?_⟩⟩
    rw [hclosed] at hc
    cases r with
    | error e => exact .inl rfl
    | ok ys =>
      exact hc.imp (fun hzero => List.length_eq_zero_iff.mp (Int.ofNat_eq_zero.mp hzero)) id
  · obtain ⟨output, hsend, rfl⟩ := Option.map_eq_some_iff.mp hs
    rw [show (recv s.input.rbuf r).1.unread = delivered r from hunread] at hsend
    refine ⟨hnext, hsame, .inr ⟨fun hne herr => ?_, hsend⟩⟩
    cases r with
    | error e => exact hne rfl
    | ok ys => exact hc (hclosed.mpr (.inr herr))

/-! ## What every run keeps -/

/-- Between two events nothing is under way, and no more has been accepted than received. -/
structure Kept (s : Echo β) : Prop where
  intact : Intact s.output
  quiet : Quiet s.output
  empty : s.input.closed = false → ConnectionInput.Empty s.input.rbuf
  bounded : (outgoing s).length ≤ (received s.input).length

theorem kept_start (rmem wmem : ℤ → β) (rdata wdata : ℤ) (size : ℕ) :
    Kept (start rmem wmem rdata wdata size) where
  intact := ConnectionOutput.intact_start wmem wdata size
  quiet := ⟨rfl, fun _ => rfl⟩
  empty _ := ⟨rfl, rfl⟩
  bounded := by
    have hnone : outgoing (start rmem wmem rdata wdata size) = [] :=
      BufferBase.unread_new wmem wdata size
    rw [hnone]
    exact Nat.zero_le _

theorem intact_sendMsg (h : Intact o) {msg : List β} (hs : sendMsg o msg = some o') : Intact o' :=
  run_invariant (fun _ _ _ h hs => h.step hs) h hs

theorem intact_handleWrite (h : Intact o) {n : ℤ} (hs : handleWrite o n = some o') : Intact o' := by
  obtain ⟨t, ht, hs⟩ := Option.bind_eq_some_iff.mp hs
  have hkeep : ∀ (a : Output β) l b, Intact a → ConnectionOutput.step a l = some b → Intact b :=
    fun _ _ _ h hs => h.step hs
  exact run_invariant hkeep (run_invariant hkeep h ht) hs

theorem append_length {b : BufferBase β} (h : b.Ordered) (msg : List β) :
    (b.append msg msg.length).2 = min (msg.length : ℤ) b.remainSize := by
  have hroom : 0 ≤ b.remainSize := by
    have := h.wptr_le
    rw [BufferBase.remainSize]
    omega
  rcases Nat.eq_zero_or_pos msg.length with hzero | hpos
  · rw [BufferBase.append, if_pos (by omega)]
    dsimp only
    omega
  · rw [BufferBase.append_eq b msg (by omega)]

/-- All that an event does to the two streams: the delivered bytes are received, and a prefix of
them, complete if the event fits, goes out. -/
theorem step_streams (h : Kept s) (hs : step s l = some s') :
    Intact s'.output ∧ Quiet s'.output ∧
      (s'.input.closed = false → ConnectionInput.Empty s'.input.rbuf) ∧
      ∃ taken rest, outgoing s' = outgoing s ++ taken ∧
        received s'.input = received s.input ++ (taken ++ rest) ∧ (rest = [] ↔ Fits s l) := by
  have hroom : 0 ≤ s.output.wbuf.remainSize := by
    have := h.intact.ordered.wptr_le
    rw [BufferBase.remainSize]
    omega
  cases l with
  | handleRead errno r =>
    obtain ⟨hempty, hreceived, ⟨houtput, hlost⟩ | ⟨herrno, hsend⟩⟩ := handleRead_cases h.empty hs
    · refine ⟨houtput ▸ h.intact, houtput ▸ h.quiet, hempty, [], delivered r, ?_, hreceived, ?_⟩
      · rw [outgoing, houtput, List.append_nil, outgoing]
      · rw [Fits]
        constructor
        · intro hnil
          rw [hnil]
          exact ⟨fun hne => absurd rfl hne, hroom⟩
        · rintro ⟨herrno, -⟩
          by_contra hne
          exact herrno hne (hlost.resolve_left hne)
    · obtain ⟨o, ho, hquiet, -, -, haccepted, -⟩ := sendMsg_spec h.quiet (delivered r)
      obtain rfl := Option.some.inj (ho.symm.trans hsend)
      have hintact := intact_sendMsg h.intact hsend
      rw [append_length h.intact.ordered] at haccepted
      refine ⟨hintact, hquiet, hempty,
        (delivered r).take (min ((delivered r).length : ℤ) s.output.wbuf.remainSize).toNat,
        (delivered r).drop (min ((delivered r).length : ℤ) s.output.wbuf.remainSize).toNat,
        ?_, ?_, ?_⟩
      · rw [outgoing, hintact.stream, haccepted, outgoing, h.intact.stream]
      · rw [hreceived, List.take_append_drop]
      · rw [Fits, List.drop_eq_nil_iff, and_iff_right herrno]
        omega
  | handleWrite n =>
    simp only [step] at hs
    split_ifs at hs with hready
    obtain ⟨output, hwrite, rfl⟩ := Option.map_eq_some_iff.mp hs
    have hintact := intact_handleWrite h.intact hwrite
    have hwritten := handleWrite_spec h.quiet hwrite
    refine ⟨hintact, hwritten.quiet, h.empty, [], [], ?_, ?_, iff_of_true rfl trivial⟩
    · rw [outgoing, hintact.stream, hwritten.accepted, outgoing, h.intact.stream, List.append_nil]
    · rw [List.append_nil, List.append_nil]

theorem Kept.step (h : Kept s) (hs : EchoConnection.step s l = some s') : Kept s' := by
  obtain ⟨hintact, hquiet, hempty, taken, rest, hout, hin, -⟩ := step_streams h hs
  refine ⟨hintact, hquiet, hempty, ?_⟩
  have := h.bounded
  simp only [hout, hin, List.length_append]
  omega

theorem outgoing_step_iff (h : Kept s) (hs : step s l = some s') :
    outgoing s' = received s'.input ↔ outgoing s = received s.input ∧ Fits s l := by
  obtain ⟨-, -, -, taken, rest, hout, hin, hfits⟩ := step_streams h hs
  rw [hout, hin, ← hfits]
  constructor
  · intro hall
    have hlen := congrArg List.length hall
    have hbound := h.bounded
    simp only [List.length_append] at hlen
    have hrest : rest = [] := List.length_eq_zero_iff.mp (by omega)
    rw [hrest, List.append_nil] at hall
    exact ⟨List.append_cancel_right hall, hrest⟩
  · rintro ⟨hsame, rfl⟩
    rw [hsame, List.append_nil]

/-- In every run of a connection, what has been echoed and what is still in `m_wbuf` are exactly
the bytes that were received, in order, if and only if every read event fits: no stale
`ECONNRESET`, and room behind the write pointer. -/
theorem echo_complete_iff {rmem wmem : ℤ → β} {rdata wdata : ℤ} {size : ℕ}
    (hr : run step (start rmem wmem rdata wdata size) ls = some s) :
    outgoing s = received s.input ↔
      Guarded step Fits (start rmem wmem rdata wdata size) ls := by
  have hstart : outgoing (start rmem wmem rdata wdata size) =
      received (start rmem wmem rdata wdata size).input :=
    BufferBase.unread_new wmem wdata size
  exact guarded_iff (fun _ _ _ h hs => h.step hs) (fun _ _ _ h hs => outgoing_step_iff h hs)
    (kept_start rmem wmem rdata wdata size) hstart hr

instance [DecidableEq β] (s : Echo β) (l : Label β) : Decidable (Fits s l) :=
  match l with
  | .handleRead errno r => inferInstanceAs (Decidable ((delivered r ≠ [] → errno ≠ ECONNRESET) ∧
      (delivered r).length ≤ s.output.wbuf.remainSize))
  | .handleWrite _ => isTrue trivial

instance [DecidableEq β] (s : Echo β) (l : Label β) : Decidable (Writes s l) :=
  match l with
  | .handleRead _ _ => isTrue trivial
  | .handleWrite n => inferInstanceAs (Decidable (s.output.wbuf.unread ≠ [] → 0 < n))

def twoReads : List (Label UInt8) :=
  [.handleRead 0 (.ok [1, 2, 3]), .handleWrite 2, .handleRead 0 (.ok [4]), .handleWrite 2]

theorem echo_complete_two_reads : ∃ s,
    run step (start (fun _ => (0 : UInt8)) (fun _ => 0) 0 100 8) twoReads = some s ∧
      s.output.wire = [1, 2, 3, 4] ∧ outgoing s = received s.input := by
  obtain ⟨s, hs⟩ : ∃ s, run step (start (fun _ => (0 : UInt8)) (fun _ => 0) 0 100 8) twoReads =
      some s := ⟨_, rfl⟩
  refine ⟨s, hs, ?_, (echo_complete_iff hs).mpr (by decide)⟩
  cases hs
  rfl

/-! ## When the output drains -/

theorem unread_eq_nil_iff (b : BufferBase β) : b.unread = [] ↔ b.dataSize ≤ 0 := by
  rw [BufferBase.unread, ← List.length_eq_zero_iff, BlockMemory.length_readBlock]
  omega

/-- The poller waits for `EPOLLOUT` as long as there are unsent bytes. -/
def Waiting (s : Echo β) : Prop :=
  s.output.wbuf.unread ≠ [] → wantsWrite s.output.interest

/-- A write event whose `::write` takes a byte is the last one for now, or the backlog gets
smaller and the poller goes on waiting. -/
theorem handleWrite_progress (h : Kept s) {n : ℤ} (hwrites : Writes s (.handleWrite n))
    (hs : step s (.handleWrite n) = some s') :
    (s'.output.wbuf.unread = [] ∧ ¬ wantsWrite s'.output.interest) ∨
      (0 < s'.output.wbuf.unread.length ∧
        s'.output.wbuf.unread.length < s.output.wbuf.unread.length ∧
        wantsWrite s'.output.interest) := by
  simp only [step] at hs
  split_ifs at hs with hready
  obtain ⟨output, hwrite, rfl⟩ := Option.map_eq_some_iff.mp hs
  have hwritten := handleWrite_spec h.quiet hwrite
  rcases hwritten.buffer with ⟨hnone, hsame⟩ | ⟨hsize, hlow, hhigh, hsent⟩
  · refine .inl ⟨?_, hwritten.otherwise fun hshort => by omega⟩
    rw [hsame, unread_eq_nil_iff]
    exact hnone
  · have hpos : 0 < n := hwrites ((unread_eq_nil_iff _).not.mpr (not_le.mpr hsize))
    rw [ConnectionOutput.send, if_neg (not_le.mpr hsize)] at hsent
    obtain ⟨-, hsplit, hdrained⟩ := BufferBase.writeOut_spec h.intact.ordered hsize hhigh
    rcases lt_or_eq_of_le hhigh with hshort | hfull
    · have hkeep : wantsWrite output.interest := by
        rw [hwritten.short hpos hshort]
        exact hready.2
      have hlen : n.toNat + output.wbuf.unread.length = s.output.wbuf.unread.length := by
        have hall := congrArg List.length hsplit
        rw [BufferBase.writeOut_short _ hpos.le hshort] at hall hsent
        rw [List.length_append, BlockMemory.length_readBlock] at hall
        rw [hsent]
        exact hall
      have hold : s.output.wbuf.unread.length = s.output.wbuf.dataSize.toNat :=
        BlockMemory.length_readBlock ..
      refine .inr ⟨?_, ?_, hkeep⟩
      · show 0 < output.wbuf.unread.length
        omega
      · show output.wbuf.unread.length < s.output.wbuf.unread.length
        omega
    · exact .inl ⟨by rw [hsent]; exact hdrained hfull, hwritten.otherwise fun hshort => by omega⟩

theorem Waiting.step (h : Waiting s) (hk : Kept s) (hwrites : Writes s l)
    (hs : EchoConnection.step s l = some s') : Waiting s' := by
  cases l with
  | handleRead errno r =>
    obtain ⟨-, -, ⟨houtput, -⟩ | ⟨-, hsend⟩⟩ := handleRead_cases hk.empty hs
    · rw [Waiting, houtput]
      exact h
    · obtain ⟨o, ho, -, -, -, -, hwants⟩ := sendMsg_spec hk.quiet (delivered r)
      obtain rfl := Option.some.inj (ho.symm.trans hsend)
      exact fun _ => hwants
  | handleWrite n =>
    rcases handleWrite_progress hk hwrites hs with ⟨hnone, -⟩ | ⟨-, -, hwants⟩
    · exact fun hne => absurd hnone hne
    · exact fun _ => hwants

theorem length_writes_le (h : Kept s) {ns : List ℤ}
    (hwrites : Guarded step Writes s (ns.map .handleWrite))
    (hr : run step s (ns.map .handleWrite) = some s') :
    ns.length ≤ max 1 s.output.wbuf.unread.length := by
  induction ns generalizing s with
  | nil => exact Nat.zero_le _
  | cons n ns ih =>
    obtain ⟨t, ht, hr⟩ := run_cons_eq_some.mp hr
    rcases handleWrite_progress h hwrites.1 ht with ⟨-, hoff⟩ | ⟨hpos, hless, -⟩
    · cases ns with
      | nil => exact Nat.le_max_left ..
      | cons m ns =>
        obtain ⟨u, hu, -⟩ := run_cons_eq_some.mp hr
        simp only [step] at hu
        split_ifs at hu with hready
        exact absurd hready.2 hoff
    · have := ih (h.step ht) (hwrites.2 t ht) hr
      rw [List.length_cons]
      omega

theorem wire_eq_received {rmem wmem : ℤ → β} {rdata wdata : ℤ} {size : ℕ}
    (hfits : Guarded step Fits (start rmem wmem rdata wdata size) ls)
    (hwrites : Guarded step Writes (start rmem wmem rdata wdata size) ls)
    (hr : run step (start rmem wmem rdata wdata size) ls = some s)
    (hoff : ¬ wantsWrite s.output.interest) : s.output.wire = received s.input := by
  have hkept := kept_start rmem wmem rdata wdata size
  have hwait : ∀ (s : Echo β) l s', Kept s ∧ Waiting s → Writes s l → step s l = some s' →
      Kept s' ∧ Waiting s' := fun _ _ _ h hok hs => ⟨h.1.step hs, h.2.step h.1 hok hs⟩
  have hwaiting : Kept s ∧ Waiting s := hwrites.invariant hwait
    ⟨hkept, fun hne => absurd (BufferBase.unread_new wmem wdata size) hne⟩ hr
  have hlossless : ∀ (s : Echo β) l s', Kept s ∧ outgoing s = received s.input → Fits s l →
      step s l = some s' → Kept s' ∧ outgoing s' = received s'.input :=
    fun _ _ _ h hok hs => ⟨h.1.step hs, (outgoing_step_iff h.1 hs).mpr ⟨h.2, hok⟩⟩
  have hall : outgoing s = received s.input :=
    (hfits.invariant hlossless ⟨hkept, BufferBase.unread_new wmem wdata size⟩ hr).2
  have hnone : s.output.wbuf.unread = [] := by
    by_contra hne
    exact hoff (hwaiting.2 hne)
  rw [← hall, outgoing, hnone, List.append_nil]

/-- A connection whose read events fit and whose writes take at least a byte: whenever the
poller does not wait for `EPOLLOUT`, all received bytes have been echoed, and without further
read events it stops waiting after as many write events as there are unsent bytes, or after one if
there are none. -/
theorem echo_settles {rmem wmem : ℤ → β} {rdata wdata : ℤ} {size : ℕ}
    (hfits : Guarded step Fits (start rmem wmem rdata wdata size) ls)
    (hwrites : Guarded step Writes (start rmem wmem rdata wdata size) ls)
    (hr : run step (start rmem wmem rdata wdata size) ls = some s) :
    (¬ wantsWrite s.output.interest → s.output.wire = received s.input) ∧
      ∀ (ns : List ℤ) s', Guarded step Writes s (ns.map .handleWrite) →
        run step s (ns.map .handleWrite) = some s' →
        ns.length ≤ max 1 s.output.wbuf.unread.length := by
  have hkept : Kept s := run_invariant (fun _ _ _ h hs => h.step hs)
    (kept_start rmem wmem rdata wdata size) hr
  exact ⟨wire_eq_received hfits hwrites hr, fun ns s' hns hrun => length_writes_le hkept hns hrun⟩

theorem echo_settles_two_reads : ∃ s,
    run step (start (fun _ => (0 : UInt8)) (fun _ => 0) 0 100 8) twoReads = some s ∧
      (¬ wantsWrite s.output.interest → s.output.wire = received s.input) ∧
      ∀ (ns : List ℤ) s', Guarded step Writes s (ns.map .handleWrite) →
        run step s (ns.map .handleWrite) = some s' →
        ns.length ≤ max 1 s.output.wbuf.unread.length := by
  obtain ⟨s, hs⟩ : ∃ s, run step (start (fun _ => (0 : UInt8)) (fun _ => 0) 0 100 8) twoReads =
      some s := ⟨_, rfl⟩
  exact ⟨s, hs, echo_settles (by decide) (by decide) hs⟩

end GenericServer.EchoConnection
