import GenericServer.DescriptorTables
import GenericServer.EventRegistration
import GenericServer.TransitionRuns
import Mathlib.Data.List.Nodup

/-!
# Connections that share the numbers of the process

The acceptor and the loops of an echo server, with the descriptors and the epoll sets behind them.
A number that has been closed may be given to the next client at once; `handleClose` resets
`m_fd`, and `shutdown` leaves the number in it. No connection is destroyed while its `handleClose`
is going on, as the acceptor can do when it overwrites `m_connMap[fd]` with the next one.
-/
namespace GenericServer.SharedDescriptors

open DescriptorTables TransitionRuns
open EventRegistration (CtlOp)

/-- The socket of a client, or another file of the process. -/
inductive File
  | socket (c : ℕ)
  | other
  deriving DecidableEq, Repr

/-- A loop is in `epoll_wait`, in the walk over `m_activeEvents`, or in `doPending`. In the walk it
is in `handleEvent` of a connection (`current`) or of an event of the server, and the connections
of `ahead` follow. -/
inductive Place
  | polling
  | batch (current : Option ℕ) (ahead : List ℕ)
  | pending
  deriving DecidableEq, Repr

namespace Place

def current : Place → Option ℕ
  | .batch current _ => current
  | .polling | .pending => none

def ahead : Place → List ℕ
  | .batch _ ahead => ahead
  | .polling | .pending => []

/-- An event of the server is being handled, such as the timer or a new connection. -/
def between : Place → Bool
  | .batch none _ => true
  | .batch (some _) _ | .polling | .pending => false

def events (p : Place) : List ℕ := p.current.toList ++ p.ahead

end Place

/-- `mPending` has the functors of `TCPConnection::init`. -/
structure EventLoop where
  place : Place
  mPending : List ℕ

/-- `loop` is `m_loop`, and `fd` and `mPolling` are those of `m_event`, with `none` for `-1`;
`entry` tells that the connection has an idle entry. -/
structure Connection where
  accepted : Bool
  loop : ℕ
  fd : Option ℕ
  mPolling : Bool
  entry : Bool

/-- The epoll sets are those of the loops, and report connections. -/
structure Reactor where
  kernel : Kernel File ℕ ℕ
  conn : ℕ → Connection
  loop : ℕ → EventLoop

/-- The process has some files in the beginning, such as the listening socket. -/
def start (taken : ℕ → Bool) : Reactor where
  kernel := ⟨fun n => if taken n then some .other else none, fun _ _ => none⟩
  conn _ := ⟨false, 0, none, false, false⟩
  loop _ := ⟨.polling, []⟩

namespace Reactor

def setConn (r : Reactor) (c : ℕ) (x : Connection) : Reactor :=
  { r with conn := Function.update r.conn c x }

def setLoop (r : Reactor) (l : ℕ) (x : EventLoop) : Reactor :=
  { r with loop := Function.update r.loop l x }

def updateEvent (r : Reactor) (c : ℕ) (op : CtlOp) : Reactor :=
  match (r.conn c).fd with
  | none => r
  | some n =>
    { r with kernel := match op with
      | .add => r.kernel.add (r.conn c).loop n c
      | .mod => r.kernel.modify (r.conn c).loop n c
      | .del => r.kernel.remove (r.conn c).loop n }

def setPolling (r : Reactor) (c : ℕ) (b : Bool) : Reactor :=
  r.setConn c { r.conn c with mPolling := b }

/-- On the loop thread. A failed assertion ends the process. -/
def addEvent (r : Reactor) (c : ℕ) : Option Reactor :=
  if (r.conn c).mPolling then none else some ((r.updateEvent c .add).setPolling c true)

def modifyEvent (r : Reactor) (c : ℕ) : Option Reactor :=
  if (r.conn c).mPolling then some (r.updateEvent c .mod) else none

def removeEvent (r : Reactor) (c : ℕ) : Reactor :=
  if (r.conn c).mPolling then (r.updateEvent c .del).setPolling c false else r

/-- `::close` of the number that `m_event` has. -/
def close (r : Reactor) (c : ℕ) : Reactor :=
  match (r.conn c).fd with
  | none => r
  | some n => { r with kernel := r.kernel.close n }

/-- `EchoServer::onConnected` makes the idle entry, and `init` adds the event. -/
def init (r : Reactor) (c : ℕ) : Option Reactor :=
  (r.setConn c { r.conn c with entry := true }).addEvent c

def shutdown (r : Reactor) (c : ℕ) : Reactor := (r.removeEvent c).close c

/-- `TCPConnection::handleClose`, which clears `m_revents`: nothing else of this event is
handled. -/
def handleClose (r : Reactor) (c : ℕ) : Reactor :=
  let r := (r.removeEvent c).close c
  let r := r.setConn c { r.conn c with fd := none }
  let loop := r.loop (r.conn c).loop
  r.setLoop (r.conn c).loop { loop with place := .batch none loop.place.ahead }

def Handles (r : Reactor) (c : ℕ) : Prop := (r.loop (r.conn c).loop).place.current = some c

instance (r : Reactor) (c : ℕ) : Decidable (r.Handles c) :=
  inferInstanceAs (Decidable (_ = some c))

end Reactor

/-- `connect` is `onNewConnection` for the client `c`: the socket has got the number `n`, and the
connection the loop `l`, which is the thread of the acceptor if `own`. `opened` and `closed` are
other files of the process. `poll` is `epoll_wait` with the numbers that it reports; `expire` is
the end of an idle entry, in a tick of the timer. -/
inductive Label
  | connect (c n l : ℕ) (own : Bool)
  | opened (n : ℕ)
  | closed (n : ℕ)
  | poll (l : ℕ) (ns : List ℕ)
  | handleEvent (l : ℕ)
  | handleClose (c : ℕ)
  | handled (l : ℕ)
  | expire (c : ℕ)
  | batchDone (l : ℕ)
  | doPending (l : ℕ)
  | pendingDone (l : ℕ)
  deriving DecidableEq, Repr

def step (r : Reactor) : Label → Option Reactor
  | .connect c n l own =>
    if (r.conn c).accepted = false ∧ r.kernel.file n = none then
      let r := { r.setConn c ⟨true, l, some n, false, false⟩ with
        kernel := r.kernel.give n (.socket c) }
      if own then
        if (r.loop l).place.between then r.init c else none
      else some (r.setLoop l { r.loop l with mPending := (r.loop l).mPending ++ [c] })
    else none
  | .opened n =>
    if r.kernel.file n = none then some { r with kernel := r.kernel.give n .other } else none
  | .closed n =>
    if r.kernel.file n = some .other then some { r with kernel := r.kernel.close n } else none
  | .poll l ns =>
    if (r.loop l).place = .polling ∧ ns.Nodup ∧ ∀ n ∈ ns, (r.kernel.data l n).isSome then
      some (r.setLoop l { r.loop l with place := .batch none (ns.filterMap (r.kernel.data l)) })
    else none
  | .handleEvent l => match (r.loop l).place with
    | .batch none (c :: cs) => some (r.setLoop l { r.loop l with place := .batch (some c) cs })
    | _ => none
  | .handleClose c => if r.Handles c then some (r.handleClose c) else none
  | .handled l => match (r.loop l).place with
    | .batch (some _) cs => some (r.setLoop l { r.loop l with place := .batch none cs })
    | _ => none
  | .expire c =>
    if (r.conn c).entry ∧ (r.loop (r.conn c).loop).place.between then
      let r := r.shutdown c
      some (r.setConn c { r.conn c with entry := false })
    else none
  | .batchDone l => match (r.loop l).place with
    | .batch none [] => some (r.setLoop l { r.loop l with place := .pending })
    | _ => none
  | .doPending l => match (r.loop l).place, (r.loop l).mPending with
    | .pending, c :: cs => (r.setLoop l ⟨.pending, cs⟩).init c
    | _, _ => none
  | .pendingDone l => match (r.loop l).place, (r.loop l).mPending with
    | .pending, [] => some (r.setLoop l ⟨.polling, []⟩)
    | _, _ => none

/-- No connection expires while its event is still ahead in the batch. -/
def Fits (r : Reactor) : Label → Prop
  | .expire c => c ∉ (r.loop (r.conn c).loop).place.ahead
  | _ => True

instance (r : Reactor) : (l : Label) → Decidable (Fits r l)
  | .expire c => inferInstanceAs (Decidable (c ∉ (r.loop (r.conn c).loop).place.ahead))
  | .connect _ _ _ _ | .opened _ | .closed _ | .poll _ _ | .handleEvent _ | .handleClose _
  | .handled _ | .batchDone _ | .doPending _ | .pendingDone _ => isTrue trivial

namespace Reactor

/-- The number that the connection has is that of its client, and `l` is its loop. -/
def Owns (r : Reactor) (l c : ℕ) : Prop :=
  (r.conn c).loop = l ∧ ∃ n, (r.conn c).fd = some n ∧ r.kernel.file n = some (.socket c)

end Reactor

/-- The sockets, the epoll sets and the loops know each connection by its own number only. -/
structure Separate (r : Reactor) : Prop where
  owner : ∀ n c, r.kernel.file n = some (.socket c) → (r.conn c).fd = some n
  aligned : Aligned (fun l _ f c =>
    f = .socket c ∧ (r.conn c).loop = l ∧ (r.conn c).mPolling = true) r.kernel
  entry : ∀ c n, (r.conn c).entry = true → (r.conn c).fd = some n →
    r.kernel.file n = some (.socket c)
  events : ∀ l, ∀ c ∈ (r.loop l).place.events, r.Owns l c ∧ (r.conn c).mPolling = true
  pending : ∀ l, ∀ c ∈ (r.loop l).mPending,
    r.Owns l c ∧ (r.conn c).mPolling = false ∧ (r.conn c).entry = false
  once : ∀ l, (r.loop l).place.events.Nodup ∧ (r.loop l).mPending.Nodup
  fresh : ∀ c, (r.conn c).accepted = false →
    (r.conn c).fd = none ∧ (r.conn c).mPolling = false ∧ (r.conn c).entry = false

variable {r r' : Reactor} {c d l n : ℕ} {x : Connection} {y : EventLoop}

@[simp] theorem setConn_self : (r.setConn c x).conn c = x := Function.update_self ..

theorem setConn_of_ne (h : d ≠ c) : (r.setConn c x).conn d = r.conn d := Function.update_of_ne h ..

@[simp] theorem setLoop_self : (r.setLoop l y).loop l = y := Function.update_self ..

theorem setLoop_of_ne {k : ℕ} (h : k ≠ l) : (r.setLoop l y).loop k = r.loop k :=
  Function.update_of_ne h ..

namespace Separate

theorem setLoop (h : Separate r)
    (hevents : ∀ c ∈ y.place.events, r.Owns l c ∧ (r.conn c).mPolling = true)
    (hpending : ∀ c ∈ y.mPending,
      r.Owns l c ∧ (r.conn c).mPolling = false ∧ (r.conn c).entry = false)
    (honce : y.place.events.Nodup ∧ y.mPending.Nodup) : Separate (r.setLoop l y) where
  owner := h.owner
  aligned := h.aligned
  entry := h.entry
  events k := by
    by_cases hk : k = l
    · subst hk
      rw [setLoop_self]
      exact hevents
    · rw [setLoop_of_ne hk]
      exact h.events k
  pending k := by
    by_cases hk : k = l
    · subst hk
      rw [setLoop_self]
      exact hpending
    · rw [setLoop_of_ne hk]
      exact h.pending k
  once k := by
    by_cases hk : k = l
    · subst hk
      rw [setLoop_self]
      exact honce
    · rw [setLoop_of_ne hk]
      exact h.once k
  fresh := h.fresh

theorem goto (h : Separate r) {p : Place} (hp : p.events.Sublist (r.loop l).place.events) :
    Separate (r.setLoop l { r.loop l with place := p }) :=
  h.setLoop (fun c hc => h.events l c (hp.subset hc)) (h.pending l)
    ⟨(h.once l).1.sublist hp, (h.once l).2⟩

end Separate

/-! ## A connection that goes -/

def Reactor.released (r : Reactor) (c : ℕ) : Kernel File ℕ ℕ :=
  match (r.conn c).fd with
  | none => r.kernel
  | some n => r.kernel.close n

theorem close_eq (r : Reactor) (c : ℕ) : r.close c = { r with kernel := r.released c } := by
  unfold Reactor.close Reactor.released
  split <;> rfl

theorem setPolling_false (h : (r.conn c).mPolling = false) : r.setPolling c false = r := by
  rw [Reactor.setPolling, ← h]
  exact congrArg (fun f => { r with conn := f }) (Function.update_eq_self c r.conn)

/-- The registration ends with the number anyhow. -/
theorem released_removeEvent (r : Reactor) (c : ℕ) :
    (r.removeEvent c).released c = r.released c := by
  unfold Reactor.removeEvent
  split_ifs
  · have hfd : (((r.updateEvent c .del).setPolling c false).conn c).fd = (r.conn c).fd := by
      rw [Reactor.setPolling, setConn_self]
      unfold Reactor.updateEvent
      split <;> rfl
    rw [Reactor.released, hfd, Reactor.released]
    cases hn : (r.conn c).fd with
    | none =>
      have hcall : r.updateEvent c .del = r := by rw [Reactor.updateEvent, hn]
      rw [hcall]
      rfl
    | some n =>
      have hcall : r.updateEvent c .del =
          { r with kernel := r.kernel.remove (r.conn c).loop n } := by rw [Reactor.updateEvent, hn]
      rw [hcall]
      exact close_remove
  · rfl

theorem shutdown_eq (r : Reactor) (c : ℕ) :
    r.shutdown c = { r.setPolling c false with kernel := r.released c } := by
  rw [Reactor.shutdown, close_eq, released_removeEvent]
  unfold Reactor.removeEvent
  split_ifs with hpolling
  · unfold Reactor.updateEvent
    split <;> rfl
  · rw [setPolling_false (Bool.not_eq_true _ ▸ hpolling)]

namespace Separate

theorem released_file (h : Separate r)
    (hown : ∀ n, (r.conn c).fd = some n → r.kernel.file n = some (.socket c)) {f : File} :
    (r.released c).file n = some f ↔ r.kernel.file n = some f ∧ f ≠ .socket c := by
  unfold Reactor.released
  split
  · rename_i hfd
    refine ⟨fun hn => ⟨hn, ?_⟩, fun hn => hn.1⟩
    rintro rfl
    cases hfd.symm.trans (h.owner n c hn)
  · rename_i m hfd
    rw [close_file_eq_some, and_comm]
    refine and_congr_right fun hn => ⟨?_, ?_⟩
    · rintro hne rfl
      exact hne (Option.some.inj ((h.owner n c hn).symm.trans hfd))
    · rintro hne rfl
      exact hne (Option.some.inj (hn.symm.trans (hown n hfd)))

/-- A connection that the loops have done with is shut down: its number is closed, and `m_event`
may keep the number if there is no idle entry. -/
theorem leave (h : Separate r) (hevents : ∀ l, c ∉ (r.loop l).place.events)
    (hpending : ∀ l, c ∉ (r.loop l).mPending)
    (hown : ∀ n, (r.conn c).fd = some n → r.kernel.file n = some (.socket c))
    (haccepted : x.accepted = true) (hentry : x.entry = true → x.fd = none) :
    Separate ((r.shutdown c).setConn c x) := by
  obtain ⟨r', hr'⟩ : ∃ r', r' = (r.shutdown c).setConn c x := ⟨_, rfl⟩
  have hself : r'.conn c = x := by rw [hr', setConn_self]
  have hother : ∀ {d}, d ≠ c → r'.conn d = r.conn d := by
    intro d hd
    rw [hr', setConn_of_ne hd, shutdown_eq]
    exact setConn_of_ne hd
  have hloop : r'.loop = r.loop := by rw [hr', shutdown_eq]; rfl
  have hkernel : r'.kernel = r.released c := by rw [hr', shutdown_eq]; rfl
  have hfile : ∀ {n d}, r'.kernel.file n = some (.socket d) ↔
      r.kernel.file n = some (.socket d) ∧ d ≠ c := by
    intro n d
    rw [hkernel, h.released_file hown, ne_eq, File.socket.injEq]
  have hkept : ∀ {l d}, d ≠ c → r.Owns l d → r'.Owns l d := by
    rintro l d hd ⟨hl, n, hfd, hn⟩
    rw [Reactor.Owns, hother hd]
    exact ⟨hl, n, hfd, hfile.mpr ⟨hn, hd⟩⟩
  rw [← hr']
  refine ⟨fun n d hn => ?_, ?_, fun d n hd hn => ?_, fun l d hd => ?_, fun l d hd => ?_, ?_,
    fun d hd => ?_⟩
  · obtain ⟨hn, hdc⟩ := hfile.mp hn
    rw [hother hdc]
    exact h.owner n d hn
  · have hbase : Aligned (fun l _ f c =>
        f = .socket c ∧ (r.conn c).loop = l ∧ (r.conn c).mPolling = true) r'.kernel := by
      rw [hkernel]
      unfold Reactor.released
      split
      · exact h.aligned
      · exact h.aligned.close _
    refine hbase.imp fun l n f d _ hn hR => ?_
    obtain ⟨rfl, hrest⟩ := hR
    rw [hother (hfile.mp hn).2]
    exact ⟨rfl, hrest⟩
  · by_cases hdc : d = c
    · subst hdc
      rw [hself] at hd hn
      cases hn.symm.trans (hentry hd)
    · rw [hother hdc] at hd hn
      exact hfile.mpr ⟨h.entry d n hd hn, hdc⟩
  · rw [hloop] at hd
    have hdc : d ≠ c := fun heq => hevents l (heq ▸ hd)
    obtain ⟨howns, hpolling⟩ := h.events l d hd
    exact ⟨hkept hdc howns, (hother hdc).symm ▸ hpolling⟩
  · rw [hloop] at hd
    have hdc : d ≠ c := fun heq => hpending l (heq ▸ hd)
    obtain ⟨howns, hrest⟩ := h.pending l d hd
    exact ⟨hkept hdc howns, (hother hdc).symm ▸ hrest⟩
  · rw [hloop]
    exact h.once
  · by_cases hdc : d = c
    · subst hdc
      rw [hself, haccepted] at hd
      cases hd
    · rw [hother hdc] at hd ⊢
      exact h.fresh d hd

theorem init_eq (hfd : (r.conn c).fd = some n) (hpolling : (r.conn c).mPolling = false) :
    r.init c = some { r.setConn c { r.conn c with mPolling := true, entry := true } with
      kernel := r.kernel.add (r.conn c).loop n c } := by
  have hnot : ¬ ((r.setConn c { r.conn c with entry := true }).conn c).mPolling = true := by
    rw [setConn_self]
    exact (Bool.not_eq_true _).mpr hpolling
  have hcall : (r.setConn c { r.conn c with entry := true }).updateEvent c .add =
      { r.setConn c { r.conn c with entry := true } with
        kernel := r.kernel.add (r.conn c).loop n c } := by
    rw [Reactor.updateEvent, setConn_self]
    dsimp only
    rw [hfd]
    rfl
  rw [Reactor.init, Reactor.addEvent, if_neg hnot, hcall, Reactor.setPolling]
  dsimp only
  rw [setConn_self, Reactor.setConn, Reactor.setConn, Reactor.setConn, Function.update_idem]

theorem init (h : Separate r) (howns : r.Owns l c) (haccepted : (r.conn c).accepted = true)
    (hpolling : (r.conn c).mPolling = false) (hpending : ∀ l, c ∉ (r.loop l).mPending)
    (hs : r.init c = some r') : Separate r' := by
  obtain ⟨rfl, n, hfd, hfile⟩ := howns
  rw [init_eq hfd hpolling] at hs
  have hself : r'.conn c = { r.conn c with mPolling := true, entry := true } := by
    cases hs
    exact setConn_self
  have hother : ∀ {d}, d ≠ c → r'.conn d = r.conn d := by
    cases hs
    exact setConn_of_ne
  have hloop : r'.loop = r.loop := by
    cases hs
    rfl
  have hkernel : r'.kernel = r.kernel.add (r.conn c).loop n c := by
    cases hs
    rfl
  have hfiles : r'.kernel.file = r.kernel.file := by rw [hkernel, add_file]
  have hsame : ∀ d, (r'.conn d).fd = (r.conn d).fd ∧ (r'.conn d).loop = (r.conn d).loop ∧
      (r'.conn d).accepted = (r.conn d).accepted := by
    intro d
    by_cases hd : d = c
    · rw [hd, hself]
      exact ⟨rfl, rfl, rfl⟩
    · rw [hother hd]
      exact ⟨rfl, rfl, rfl⟩
  have hkept : ∀ {l d}, r.Owns l d → r'.Owns l d := by
    intro l d hd
    rw [Reactor.Owns, hfiles, (hsame d).1, (hsame d).2.1]
    exact hd
  refine ⟨fun m d hm => ?_, ?_, fun d m hd hm => ?_, fun l d hd => ?_, fun l d hd => ?_, ?_,
    fun d hd => ?_⟩
  · rw [(hsame d).1]
    exact h.owner m d (hfiles ▸ hm)
  · have hbase : Aligned (fun l _ f c =>
        f = .socket c ∧ (r'.conn c).loop = l ∧ (r'.conn c).mPolling = true) r.kernel := by
      refine h.aligned.imp fun l m f d _ _ hR => ?_
      rw [(hsame d).2.1]
      refine ⟨hR.1, hR.2.1, ?_⟩
      by_cases hd : d = c
      · rw [hd, hself]
      · rw [hother hd]
        exact hR.2.2
    rw [hkernel]
    exact hbase.add hfile ⟨rfl, (hsame c).2.1, by rw [hself]⟩
  · rw [hfiles]
    rw [(hsame d).1] at hm
    by_cases hdc : d = c
    · rw [hdc] at hm ⊢
      cases hfd.symm.trans hm
      exact hfile
    · rw [hother hdc] at hd
      exact h.entry d m hd hm
  · rw [hloop] at hd
    obtain ⟨howns, hon⟩ := h.events l d hd
    refine ⟨hkept howns, ?_⟩
    by_cases hdc : d = c
    · rw [hdc, hself]
    · rw [hother hdc]
      exact hon
  · rw [hloop] at hd
    have hdc : d ≠ c := fun heq => hpending l (heq ▸ hd)
    obtain ⟨howns, hrest⟩ := h.pending l d hd
    exact ⟨hkept howns, (hother hdc).symm ▸ hrest⟩
  · rw [hloop]
    exact h.once
  · rw [(hsame d).2.2] at hd
    by_cases hdc : d = c
    · rw [hdc, haccepted] at hd
      cases hd
    · rw [hother hdc]
      exact h.fresh d hd

theorem owns_accept (r : Reactor) (c n l : ℕ) :
    Reactor.Owns { r.setConn c ⟨true, l, some n, false, false⟩ with
      kernel := r.kernel.give n (.socket c) } l c := by
  rw [Reactor.Owns, setConn_self]
  exact ⟨rfl, n, rfl, give_file_self _⟩

theorem accept (h : Separate r) (hnew : (r.conn c).accepted = false)
    (hfree : r.kernel.file n = none) (l : ℕ) :
    Separate { r.setConn c ⟨true, l, some n, false, false⟩ with
      kernel := r.kernel.give n (.socket c) } := by
  obtain ⟨r', hr'⟩ : ∃ r' : Reactor, r' = { r.setConn c ⟨true, l, some n, false, false⟩ with
      kernel := r.kernel.give n (.socket c) } := ⟨_, rfl⟩
  obtain ⟨hfd, hpolling, hentry⟩ := h.fresh c hnew
  have hself : r'.conn c = ⟨true, l, some n, false, false⟩ := by rw [hr', setConn_self]
  have hother : ∀ {d}, d ≠ c → r'.conn d = r.conn d := by
    intro d hd
    rw [hr']
    exact setConn_of_ne hd
  have hkernel : r'.kernel = r.kernel.give n (.socket c) := by rw [hr']
  have hfile : ∀ {m f}, r.kernel.file m = some f → r'.kernel.file m = some f := by
    intro m f hm
    have hne : m ≠ n := by
      rintro rfl
      cases hfree.symm.trans hm
    rw [hkernel, give_file_of_ne hne]
    exact hm
  have hkept : ∀ {l d}, d ≠ c → r.Owns l d → r'.Owns l d := by
    rintro l d hd ⟨hl, m, hm, hsocket⟩
    rw [Reactor.Owns, hother hd]
    exact ⟨hl, m, hm, hfile hsocket⟩
  rw [← hr']
  refine ⟨fun m d hm => ?_, ?_, fun d m hd hm => ?_, fun k d hd => ?_, fun k d hd => ?_, ?_,
    fun d hd => ?_⟩
  · by_cases hmn : m = n
    · rw [hmn, hkernel, give_file_self] at hm
      cases hm
      rw [hself, hmn]
    · rw [hkernel, give_file_of_ne hmn] at hm
      have hold := h.owner m d hm
      have hdc : d ≠ c := by
        rintro rfl
        cases hfd.symm.trans hold
      rw [hother hdc]
      exact hold
  · rw [hkernel]
    refine (h.aligned.give hfree _).imp fun k m f d _ _ hR => ?_
    have hdc : d ≠ c := by
      rintro rfl
      cases hpolling.symm.trans hR.2.2
    rw [hother hdc]
    exact hR
  · have hdc : d ≠ c := by
      rintro rfl
      rw [hself] at hd
      cases hd
    rw [hother hdc] at hd hm
    exact hfile (h.entry d m hd hm)
  · rw [hr'] at hd
    obtain ⟨howns, hon⟩ := h.events k d hd
    have hdc : d ≠ c := by
      rintro rfl
      cases hpolling.symm.trans hon
    exact ⟨hkept hdc howns, (hother hdc).symm ▸ hon⟩
  · rw [hr'] at hd
    obtain ⟨howns, hrest⟩ := h.pending k d hd
    have hdc : d ≠ c := by
      rintro rfl
      obtain ⟨-, m, hm, -⟩ := howns
      cases hfd.symm.trans hm
    exact ⟨hkept hdc howns, (hother hdc).symm ▸ hrest⟩
  · rw [hr']
    exact h.once
  · have hdc : d ≠ c := by
      rintro rfl
      rw [hself] at hd
      cases hd
    rw [hother hdc] at hd ⊢
    exact h.fresh d hd

theorem others (h : Separate r) {k : Kernel File ℕ ℕ}
    (hfile : ∀ m d, k.file m = some (.socket d) ↔ r.kernel.file m = some (.socket d))
    (haligned : Aligned (fun l _ f c =>
      f = .socket c ∧ (r.conn c).loop = l ∧ (r.conn c).mPolling = true) k) :
    Separate { r with kernel := k } where
  owner n c hn := h.owner n c ((hfile n c).mp hn)
  aligned := haligned
  entry c n hc hn := (hfile n c).mpr (h.entry c n hc hn)
  events l c hc := by
    obtain ⟨⟨hl, n, hfd, hn⟩, hon⟩ := h.events l c hc
    exact ⟨⟨hl, n, hfd, (hfile n c).mpr hn⟩, hon⟩
  pending l c hc := by
    obtain ⟨⟨hl, n, hfd, hn⟩, hrest⟩ := h.pending l c hc
    exact ⟨⟨hl, n, hfd, (hfile n c).mpr hn⟩, hrest⟩
  once := h.once
  fresh := h.fresh

theorem modifyEvent (h : Separate r) (howns : r.Owns l c) (hs : r.modifyEvent c = some r') :
    Separate r' := by
  obtain ⟨rfl, n, hfd, hfile⟩ := howns
  unfold Reactor.modifyEvent at hs
  split_ifs at hs with hpolling
  cases hs
  have hcall : r.updateEvent c .mod =
      { r with kernel := r.kernel.modify (r.conn c).loop n c } := by
    rw [Reactor.updateEvent, hfd]
  rw [hcall]
  refine h.others (fun m d => ?_) (h.aligned.modify hfile ⟨rfl, rfl, hpolling⟩)
  rw [modify_file]

theorem owns_of_events (h : Separate r) (hc : c ∈ (r.loop l).place.events) : r.Owns l c :=
  (h.events l c hc).1

theorem owns_of_handles (h : Separate r) (hc : r.Handles c) : r.Owns (r.conn c).loop c := by
  refine h.owns_of_events ?_
  rw [Reactor.Handles] at hc
  rw [Place.events, hc]
  exact List.mem_cons_self ..

theorem handleClose (h : Separate r) (hc : r.Handles c) : Separate (r.handleClose c) := by
  obtain ⟨l, hl⟩ : ∃ l, l = (r.conn c).loop := ⟨_, rfl⟩
  obtain ⟨-, n, hfd, hfile⟩ := h.owns_of_handles hc
  have hplace : (r.loop l).place.events = c :: (r.loop l).place.ahead := by
    rw [Reactor.Handles, ← hl] at hc
    rw [Place.events, hc]
    rfl
  have hmem : c ∈ (r.loop l).place.events := by
    rw [hplace]
    exact List.mem_cons_self ..
  have hleft : Separate (r.setLoop l { r.loop l with place := .batch none (r.loop l).place.ahead }) := by
    refine h.goto ?_
    rw [hplace]
    exact List.sublist_cons_self ..
  have hsame : r.handleClose c = ((r.setLoop l { r.loop l with
      place := .batch none (r.loop l).place.ahead }).shutdown c).setConn c
        { r.conn c with mPolling := false, fd := none } := by
    have hdown : (r.removeEvent c).close c = r.shutdown c := rfl
    rw [Reactor.handleClose, hdown, shutdown_eq, shutdown_eq, hl]
    simp only [Reactor.setPolling, Reactor.setConn, Reactor.setLoop, Function.update_self,
      Function.update_idem]
    rfl
  rw [hsame]
  refine hleft.leave (fun k hk => ?_) (fun k hk => ?_) (fun m hm => ?_) ?_ (fun _ => rfl)
  · have hnodup := (h.once l).1
    rw [hplace, List.nodup_cons] at hnodup
    by_cases hkl : k = l
    · subst hkl
      rw [setLoop_self] at hk
      exact hnodup.1 hk
    · rw [setLoop_of_ne hkl] at hk
      exact hkl ((h.owns_of_events hk).1.symm.trans hl.symm)
  · have hoff : (r.conn c).mPolling = false := by
      by_cases hkl : k = l
      · subst hkl
        rw [setLoop_self] at hk
        exact (h.pending k c hk).2.1
      · rw [setLoop_of_ne hkl] at hk
        exact (h.pending k c hk).2.1
    cases hoff.symm.trans (h.events l c hmem).2
  · cases hfd.symm.trans hm
    exact hfile
  · change (r.conn c).accepted = true
    by_contra hnew
    cases hfd.symm.trans (h.fresh c ((Bool.not_eq_true _).mp hnew)).1

theorem expire (h : Separate r) (hentry : (r.conn c).entry = true)
    (hbetween : (r.loop (r.conn c).loop).place.between = true)
    (hahead : c ∉ (r.loop (r.conn c).loop).place.ahead) :
    Separate ((r.shutdown c).setConn c { (r.shutdown c).conn c with entry := false }) := by
  have hself : (r.shutdown c).conn c = { r.conn c with mPolling := false } := by
    rw [shutdown_eq]
    exact setConn_self
  refine h.leave (fun k hk => ?_) (fun k hk => ?_) (fun n hn => h.entry c n hentry hn) ?_ nofun
  · obtain ⟨⟨rfl, -⟩, -⟩ := h.events k c hk
    have hnone : (r.loop (r.conn c).loop).place.current = none := by
      cases hp : (r.loop (r.conn c).loop).place with
      | polling | pending => rfl
      | batch current ahead =>
        cases current with
        | none => rfl
        | some d =>
          rw [hp] at hbetween
          cases hbetween
    rw [Place.events, hnone] at hk
    exact hahead hk
  · cases hentry.symm.trans (h.pending k c hk).2.2
  · rw [hself]
    change (r.conn c).accepted = true
    by_contra hnew
    cases hentry.symm.trans (h.fresh c ((Bool.not_eq_true _).mp hnew)).2.2

theorem poll (h : Separate r) {ns : List ℕ} (hns : ns.Nodup) :
    Separate (r.setLoop l { r.loop l with place := .batch none (ns.filterMap (r.kernel.data l)) }) := by
  have howner : ∀ {n c}, r.kernel.data l n = some c →
      r.kernel.file n = some (.socket c) ∧ (r.conn c).loop = l ∧ (r.conn c).mPolling = true := by
    intro n c hn
    obtain ⟨f, hf, rfl, hrest⟩ := h.aligned l n c hn
    exact ⟨hf, hrest⟩
  refine h.setLoop (fun c hc => ?_) (h.pending l) ⟨?_, (h.once l).2⟩
  · obtain ⟨n, -, hn⟩ := List.mem_filterMap.mp hc
    obtain ⟨hfile, hloop, hon⟩ := howner hn
    exact ⟨⟨hloop, n, h.owner n c hfile, hfile⟩, hon⟩
  · refine hns.filterMap fun n m c hn hm => ?_
    have hfd := h.owner n c (howner hn).1
    exact Option.some.inj (hfd.symm.trans (h.owner m c (howner hm).1))

theorem not_pending (h : Separate r) (hnew : (r.conn c).accepted = false) (k : ℕ) :
    c ∉ (r.loop k).mPending := by
  intro hk
  obtain ⟨⟨-, n, hfd, -⟩, -⟩ := h.pending k c hk
  cases (h.fresh c hnew).1.symm.trans hfd

theorem push (h : Separate r) (howns : r.Owns l c) (hpolling : (r.conn c).mPolling = false)
    (hentry : (r.conn c).entry = false) (hnew : c ∉ (r.loop l).mPending) :
    Separate (r.setLoop l { r.loop l with mPending := (r.loop l).mPending ++ [c] }) := by
  refine h.setLoop (h.events l) (fun d hd => ?_) ⟨(h.once l).1, ?_⟩
  · rcases List.mem_append.mp hd with hd | hd
    · exact h.pending l d hd
    · rw [List.mem_singleton.mp hd]
      exact ⟨howns, hpolling, hentry⟩
  · refine List.Nodup.append (h.once l).2 (List.nodup_singleton c) fun d hd hdc => ?_
    exact hnew (List.mem_singleton.mp hdc ▸ hd)

theorem doPending (h : Separate r) {cs : List ℕ} (hplace : (r.loop l).place = .pending)
    (hpending : (r.loop l).mPending = c :: cs)
    (hs : (r.setLoop l ⟨.pending, cs⟩).init c = some r') : Separate r' := by
  have hhead : c ∈ (r.loop l).mPending := by
    rw [hpending]
    exact List.mem_cons_self ..
  obtain ⟨howns, hpolling, hentry⟩ := h.pending l c hhead
  have hnodup := (h.once l).2
  rw [hpending, List.nodup_cons] at hnodup
  have hpopped : Separate (r.setLoop l ⟨.pending, cs⟩) := by
    refine h.setLoop (fun _ hd => absurd hd List.not_mem_nil) (fun d hd => h.pending l d ?_)
      ⟨List.nodup_nil, hnodup.2⟩
    rw [hpending]
    exact List.mem_cons_of_mem c hd
  refine hpopped.init howns ?_ hpolling (fun k hk => ?_) hs
  · change (r.conn c).accepted = true
    by_contra hnew
    exact h.not_pending ((Bool.not_eq_true _).mp hnew) l hhead
  · by_cases hkl : k = l
    · subst hkl
      rw [setLoop_self] at hk
      exact hnodup.1 hk
    · rw [setLoop_of_ne hkl] at hk
      exact hkl ((h.pending k c hk).1.1.symm.trans howns.1)

theorem step {m : Label} (h : Separate r) (hm : Fits r m) (hs : SharedDescriptors.step r m = some r') :
    Separate r' := by
  cases m with
  | connect c n l own =>
    simp only [SharedDescriptors.step] at hs
    split_ifs at hs with hnew hown hbetween
    · exact (h.accept hnew.1 hnew.2 l).init (owns_accept r c n l) (by rw [setConn_self])
        (by rw [setConn_self]) (h.not_pending hnew.1) hs
    · cases hs
      exact (h.accept hnew.1 hnew.2 l).push (owns_accept r c n l) (by rw [setConn_self])
        (by rw [setConn_self]) (h.not_pending hnew.1 l)
  | opened n =>
    simp only [SharedDescriptors.step] at hs
    split_ifs at hs with hfree
    cases hs
    refine h.others (fun m d => ?_) (h.aligned.give hfree _)
    by_cases hmn : m = n
    · rw [hmn, give_file_self, hfree]
      exact iff_of_false nofun nofun
    · rw [give_file_of_ne hmn]
  | closed n =>
    simp only [SharedDescriptors.step] at hs
    split_ifs at hs with hother
    cases hs
    refine h.others (fun m d => ?_) (h.aligned.close n)
    rw [close_file_eq_some]
    refine and_iff_right_of_imp fun hd => ?_
    rintro rfl
    cases hother.symm.trans hd
  | poll l ns =>
    simp only [SharedDescriptors.step] at hs
    split_ifs at hs with hready
    cases hs
    exact h.poll hready.2.1
  | handleEvent l =>
    simp only [SharedDescriptors.step] at hs
    split at hs
    · rename_i c cs hplace
      cases hs
      exact h.goto (by rw [hplace]; exact List.Sublist.refl _)
    · cases hs
  | handleClose c =>
    simp only [SharedDescriptors.step] at hs
    split_ifs at hs with hc
    cases hs
    exact h.handleClose hc
  | handled l =>
    simp only [SharedDescriptors.step] at hs
    split at hs
    · rename_i c cs hplace
      cases hs
      exact h.goto (by rw [hplace]; exact List.sublist_cons_self ..)
    · cases hs
  | expire c =>
    simp only [SharedDescriptors.step] at hs
    split_ifs at hs with hready
    cases hs
    exact h.expire hready.1 hready.2 hm
  | batchDone l =>
    simp only [SharedDescriptors.step] at hs
    split at hs
    · cases hs
      exact h.goto (List.nil_sublist _)
    · cases hs
  | doPending l =>
    simp only [SharedDescriptors.step] at hs
    split at hs
    · rename_i c cs hplace hpending
      exact h.doPending hplace hpending hs
    · cases hs
  | pendingDone l =>
    simp only [SharedDescriptors.step] at hs
    split at hs
    · cases hs
      exact h.setLoop (fun _ hc => absurd hc List.not_mem_nil) (fun _ hc => absurd hc List.not_mem_nil)
        ⟨List.nodup_nil, List.nodup_nil⟩
    · cases hs

end Separate

end GenericServer.SharedDescriptors
