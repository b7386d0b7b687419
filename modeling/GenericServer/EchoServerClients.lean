import GenericServer.ConnectionBacklog
import GenericServer.EchoConnection
import GenericServer.SharedDescriptors

/-!
# The clients of the echo server

Any number of connections on any number of loops. The handlers read and write what the number in
`m_event` stands for at that moment, which need not be the socket of the connection. As in
`SharedDescriptors`, no connection is destroyed in its `handleClose`.
-/
namespace GenericServer.EchoServerClients

open TransitionRuns
open SharedDescriptors (File Reactor Separate)
open EchoConnection (Echo outgoing)
open ConnectionInput (delivered received)
open ConnectionOutput (BUFFER_SIZE wantsWrite)

variable {β : Type*}

def EBADF : ℤ := 9

/-- What a client has sent, what of this has not been read yet, and what has been written to its
socket. -/
structure Socket (β : Type*) where
  sent : List β
  incoming : List β
  delivered : List β

structure Server (β : Type*) where
  reactor : Reactor
  echo : ℕ → Echo β
  socket : ℕ → Socket β

def start (taken : ℕ → Bool) (rmem wmem : ℕ → ℤ → β) (rdata wdata : ℕ → ℤ) : Server β where
  reactor := SharedDescriptors.start taken
  echo c := EchoConnection.start (rmem c) (wmem c) (rdata c) (wdata c) BUFFER_SIZE
  socket _ := ⟨[], [], []⟩

/-- What a `::read` of a number that stands for this file can return. -/
def Reads (incoming : ℕ → List β) : Option File → Except ℤ (List β) → Prop
  | none, .error e => e = EBADF
  | none, .ok _ => False
  | some (.socket k), .ok ys => ys <+: incoming k
  | some (.socket _), .error _ => True
  | some .other, _ => True

namespace Server

def setEcho (s : Server β) (c : ℕ) (e : Echo β) : Server β :=
  { s with echo := Function.update s.echo c e }

def setSocket (s : Server β) (c : ℕ) (x : Socket β) : Server β :=
  { s with socket := Function.update s.socket c x }

def file (s : Server β) (c : ℕ) : Option File := (s.reactor.conn c).fd.bind s.reactor.kernel.file

def Readable (s : Server β) (c : ℕ) (r : Except ℤ (List β)) : Prop :=
  Reads (fun k => (s.socket k).incoming) (s.file c) r

def Writable (s : Server β) (c : ℕ) (n : ℤ) : Prop := s.file c = none → n = -1

/-- A `::read` takes bytes out of a socket. -/
def read (s : Server β) (c : ℕ) (ys : List β) : Server β :=
  match s.file c with
  | some (.socket k) =>
    s.setSocket k { s.socket k with incoming := (s.socket k).incoming.drop ys.length }
  | _ => s

def write (s : Server β) (c : ℕ) (ys : List β) : Server β :=
  match s.file c with
  | some (.socket k) =>
    s.setSocket k { s.socket k with delivered := (s.socket k).delivered ++ ys }
  | _ => s

def modifyEvent (s : Server β) (c : ℕ) : Option (Server β) :=
  (s.reactor.modifyEvent c).map fun r => { s with reactor := r }

end Server

/-- Clients send at any time. -/
inductive Label (β : Type*)
  | reactor (l : SharedDescriptors.Label)
  | arrive (c : ℕ) (ys : List β)
  | handleRead (c : ℕ) (errno : ℤ) (r : Except ℤ (List β))
  | handleWrite (c : ℕ) (n : ℤ)

instance decidableReads [DecidableEq β] (incoming : ℕ → List β) :
    (f : Option File) → (r : Except ℤ (List β)) → Decidable (Reads incoming f r)
  | none, .error e => inferInstanceAs (Decidable (e = EBADF))
  | none, .ok _ => isFalse id
  | some (.socket k), .ok ys => inferInstanceAs (Decidable (ys <+: incoming k))
  | some (.socket _), .error _ => isTrue trivial
  | some .other, _ => isTrue trivial

instance [DecidableEq β] (s : Server β) (c : ℕ) (r : Except ℤ (List β)) :
    Decidable (s.Readable c r) :=
  inferInstanceAs (Decidable (Reads _ (s.file c) r))

instance (s : Server β) (c : ℕ) (n : ℤ) : Decidable (s.Writable c n) :=
  inferInstanceAs (Decidable (s.file c = none → n = -1))

def step [DecidableEq β] (s : Server β) : Label β → Option (Server β)
  | .reactor l => (SharedDescriptors.step s.reactor l).map fun r => { s with reactor := r }
  | .arrive c ys => some (s.setSocket c { s.socket c with
      sent := (s.socket c).sent ++ ys
      incoming := (s.socket c).incoming ++ ys })
  | .handleRead c errno r =>
    if s.reactor.Handles c ∧ s.Readable c r then
      (EchoConnection.step (s.echo c) (.handleRead errno r)).bind fun e =>
        let s := (s.read c (delivered r)).setEcho c e
        if e.input.closed then some { s with reactor := s.reactor.handleClose c }
        else s.modifyEvent c
    else none
  | .handleWrite c n =>
    if s.reactor.Handles c ∧ s.Writable c n then
      (EchoConnection.step (s.echo c) (.handleWrite n)).bind fun e =>
        let size := (s.echo c).output.wbuf.dataSize
        let s := (s.write c (e.output.wire.drop (s.echo c).output.wire.length)).setEcho c e
        if n < size ∧ n > 0 then some s else s.modifyEvent c
    else none

/-- No connection expires while its event is ahead in the batch. -/
def Fits (s : Server β) : Label β → Prop
  | .reactor l => SharedDescriptors.Fits s.reactor l
  | _ => True

instance (s : Server β) : (l : Label β) → Decidable (Fits s l)
  | .reactor l => inferInstanceAs (Decidable (SharedDescriptors.Fits s.reactor l))
  | .arrive _ _ | .handleRead _ _ _ | .handleWrite _ _ => isTrue trivial

def Label.event (c : ℕ) : Label β → Option (EchoConnection.Label β)
  | .handleRead d errno r => if d = c then some (.handleRead errno r) else none
  | .handleWrite d n => if d = c then some (.handleWrite n) else none
  | _ => none

variable {s s' : Server β} {e e' : Echo β} {c d : ℕ} {ls : List (Label β)}

/-! ## The events of one connection -/

theorem wire_grows {o o' : ConnectionOutput.Output β} {l : ConnectionOutput.Label β}
    (hs : ConnectionOutput.step o l = some o') : o.wire <+: o'.wire := by
  rcases ConnectionOutput.step_stream hs with ⟨t, msg, len, rfl⟩ | ⟨n, rfl⟩ | ⟨-, hwire, -⟩
  · simp only [ConnectionOutput.step] at hs
    split_ifs at hs
    cases hs
    exact List.prefix_refl _
  · simp only [ConnectionOutput.step] at hs
    split at hs
    · split_ifs at hs
      · cases hs
        exact List.prefix_append _ _
      · cases hs
        exact List.prefix_append _ _
      · cases hs
        exact List.prefix_refl _
    · cases hs
  · exact hwire ▸ List.prefix_refl _

theorem handleWrite_wire {o o' : ConnectionOutput.Output β} {n : ℤ}
    (hs : EchoConnection.handleWrite o n = some o') : o.wire <+: o'.wire := by
  obtain ⟨t, ht, hs⟩ := Option.bind_eq_some_iff.mp hs
  have hkeep : ∀ (a : ConnectionOutput.Output β) l b, o.wire <+: a.wire →
      ConnectionOutput.step a l = some b → o.wire <+: b.wire :=
    fun _ _ _ h hs => h.trans (wire_grows hs)
  exact run_invariant hkeep (run_invariant hkeep (List.prefix_refl _) ht) hs

theorem read_spec (h : EchoConnection.Kept e) {errno : ℤ} {r : Except ℤ (List β)}
    (hs : EchoConnection.step e (.handleRead errno r) = some e') :
    received e'.input = received e.input ++ delivered r ∧ e'.output.wire = e.output.wire := by
  obtain ⟨-, hreceived, ⟨houtput, -⟩ | ⟨-, hsend⟩⟩ := EchoConnection.handleRead_cases h.empty hs
  · exact ⟨hreceived, by rw [houtput]⟩
  · obtain ⟨o, ho, -, -, hwire, -⟩ := EchoConnection.sendMsg_spec h.quiet (delivered r)
    obtain rfl := Option.some.inj (ho.symm.trans hsend)
    exact ⟨hreceived, hwire⟩

theorem write_spec {n : ℤ} (hs : EchoConnection.step e (.handleWrite n) = some e') :
    e'.input = e.input ∧ e.output.wire <+: e'.output.wire := by
  simp only [EchoConnection.step] at hs
  split_ifs at hs
  obtain ⟨o, ho, rfl⟩ := Option.map_eq_some_iff.mp hs
  exact ⟨rfl, handleWrite_wire ho⟩

/-- What goes out has come in, in this order. -/
structure Echoes (e : Echo β) : Prop where
  kept : EchoConnection.Kept e
  sublist : (outgoing e).Sublist (received e.input)

theorem Echoes.step {l : EchoConnection.Label β} (h : Echoes e)
    (hs : EchoConnection.step e l = some e') : Echoes e' := by
  obtain ⟨-, -, -, taken, rest, hout, hin, -⟩ := EchoConnection.step_streams h.kept hs
  refine ⟨h.kept.step hs, ?_⟩
  rw [hout, hin]
  exact h.sublist.append (List.sublist_append_left taken rest)

/-! ## All connections -/

theorem read_reactor (s : Server β) (c : ℕ) (ys : List β) (e : Echo β) :
    ((s.read c ys).setEcho c e).reactor = s.reactor := by
  unfold Server.read
  split <;> rfl

theorem write_reactor (s : Server β) (c : ℕ) (ys : List β) (e : Echo β) :
    ((s.write c ys).setEcho c e).reactor = s.reactor := by
  unfold Server.write
  split <;> rfl

/-- The events of a connection are its own, on its own socket. -/
structure Isolated (s : Server β) : Prop where
  separate : Separate s.reactor
  echoes : ∀ c, Echoes (s.echo c)
  received : ∀ c, received (s.echo c).input ++ (s.socket c).incoming = (s.socket c).sent
  delivered : ∀ c, (s.socket c).delivered = (s.echo c).output.wire

namespace Isolated

theorem react (h : Isolated s) {r : Reactor} (hr : Separate r) :
    Isolated { s with reactor := r } :=
  ⟨hr, h.echoes, h.received, h.delivered⟩

theorem file_eq (h : Isolated s) (hc : s.reactor.Handles c) : s.file c = some (.socket c) := by
  obtain ⟨-, n, hfd, hfile⟩ := h.separate.owns_of_handles hc
  rw [Server.file, hfd]
  exact hfile

theorem update (h : Isolated s) {x : Socket β} (he : Echoes e)
    (hreceived : ConnectionInput.received e.input ++ x.incoming = x.sent)
    (hdelivered : x.delivered = e.output.wire) : Isolated ((s.setSocket c x).setEcho c e) := by
  obtain ⟨s', hs'⟩ : ∃ s', s' = (s.setSocket c x).setEcho c e := ⟨_, rfl⟩
  have hself : s'.echo c = e ∧ s'.socket c = x := by
    rw [hs']
    exact ⟨Function.update_self .., Function.update_self ..⟩
  have hother : ∀ {d}, d ≠ c → s'.echo d = s.echo d ∧ s'.socket d = s.socket d := by
    intro d hd
    rw [hs']
    exact ⟨Function.update_of_ne hd .., Function.update_of_ne hd ..⟩
  have hreactor : s'.reactor = s.reactor := by rw [hs']; rfl
  rw [← hs']
  refine ⟨hreactor ▸ h.separate, fun d => ?_, fun d => ?_, fun d => ?_⟩
  · by_cases hd : d = c
    · rw [hd, hself.1]
      exact he
    · rw [(hother hd).1]
      exact h.echoes d
  · by_cases hd : d = c
    · rw [hd, hself.1, hself.2]
      exact hreceived
    · rw [(hother hd).1, (hother hd).2]
      exact h.received d
  · by_cases hd : d = c
    · rw [hd, hself.1, hself.2]
      exact hdelivered
    · rw [(hother hd).1, (hother hd).2]
      exact h.delivered d

theorem modifyEvent (h : Isolated s) (hc : s.reactor.Handles c) (hs : s.modifyEvent c = some s') :
    Isolated s' := by
  obtain ⟨r, hr, rfl⟩ := Option.map_eq_some_iff.mp hs
  exact h.react (h.separate.modifyEvent (h.separate.owns_of_handles hc) hr)

theorem arrive (h : Isolated s) (c : ℕ) (ys : List β) :
    Isolated (s.setSocket c { s.socket c with
      sent := (s.socket c).sent ++ ys
      incoming := (s.socket c).incoming ++ ys }) := by
  have hnext := h.update (c := c) (x := { s.socket c with
      sent := (s.socket c).sent ++ ys
      incoming := (s.socket c).incoming ++ ys }) (h.echoes c)
    (by rw [← List.append_assoc, h.received c]) (h.delivered c)
  have hsame : s.setEcho c (s.echo c) = s :=
    congrArg (fun f => { s with echo := f }) (Function.update_eq_self c s.echo)
  rw [← hsame]
  exact hnext

theorem read (h : Isolated s) (hc : s.reactor.Handles c) {errno : ℤ} {r : Except ℤ (List β)}
    (hr : s.Readable c r) (he : EchoConnection.step (s.echo c) (.handleRead errno r) = some e) :
    Isolated ((s.read c (ConnectionInput.delivered r)).setEcho c e) := by
  have hfile := h.file_eq hc
  obtain ⟨hreceived, hwire⟩ := read_spec (h.echoes c).kept he
  rw [Server.Readable, hfile] at hr
  rw [Server.read, hfile]
  refine h.update ((h.echoes c).step he) ?_ ((h.delivered c).trans hwire.symm)
  rw [hreceived, ← h.received c, List.append_assoc]
  congr 1
  cases r with
  | error err => rfl
  | ok ys =>
    obtain ⟨rest, hrest⟩ : ys <+: (s.socket c).incoming := hr
    dsimp only [ConnectionInput.delivered]
    rw [← hrest, List.drop_left]

theorem write (h : Isolated s) (hc : s.reactor.Handles c) {n : ℤ}
    (he : EchoConnection.step (s.echo c) (.handleWrite n) = some e) :
    Isolated ((s.write c (e.output.wire.drop (s.echo c).output.wire.length)).setEcho c e) := by
  obtain ⟨hinput, rest, hwire⟩ := write_spec he
  rw [Server.write, h.file_eq hc]
  refine h.update ((h.echoes c).step he) ?_ ?_
  · rw [hinput]
    exact h.received c
  · dsimp only
    rw [h.delivered c, ← hwire, List.drop_left]

variable [DecidableEq β]

theorem step {l : Label β} (h : Isolated s) (hl : Fits s l)
    (hs : EchoServerClients.step s l = some s') : Isolated s' := by
  cases l with
  | reactor l =>
    obtain ⟨r, hr, rfl⟩ := Option.map_eq_some_iff.mp hs
    exact h.react (h.separate.step hl hr)
  | arrive c ys =>
    cases hs
    exact h.arrive c ys
  | handleRead c errno r =>
    simp only [EchoServerClients.step] at hs
    split_ifs at hs with hguard
    obtain ⟨e, he, hs⟩ := Option.bind_eq_some_iff.mp hs
    have hread := h.read hguard.1 hguard.2 he
    have hc : ((s.read c (ConnectionInput.delivered r)).setEcho c e).reactor.Handles c := by
      rw [read_reactor]
      exact hguard.1
    split_ifs at hs
    · cases hs
      exact hread.react (hread.separate.handleClose hc)
    · exact hread.modifyEvent hc hs
  | handleWrite c n =>
    simp only [EchoServerClients.step] at hs
    split_ifs at hs with hguard hshort
    · obtain ⟨e, he, hs⟩ := Option.bind_eq_some_iff.mp hs
      cases hs
      exact h.write hguard.1 he
    · obtain ⟨e, he, hs⟩ := Option.bind_eq_some_iff.mp hs
      refine (h.write hguard.1 he).modifyEvent ?_ hs
      rw [write_reactor]
      exact hguard.1

end Isolated

section Runs

variable [DecidableEq β] {taken : ℕ → Bool} {rmem wmem : ℕ → ℤ → β} {rdata wdata : ℕ → ℤ}

end Runs

/-- The connection of the first client expires while its event is ahead, and its number goes to
the second client, who gets a byte of the first one: the object has not been destroyed yet. -/
theorem expired_ahead : ∃ s,
    run step (start (fun n => n < 5) (fun _ _ => 0) (fun _ _ => 0) (fun _ => 0) (fun _ => 0))
      [.reactor (.connect 0 5 0 false), .arrive 0 [(1 : UInt8), 2], .reactor (.poll 0 []),
        .reactor (.batchDone 0), .reactor (.doPending 0), .reactor (.pendingDone 0),
        .reactor (.poll 0 [5]), .reactor (.handleEvent 0), .handleRead 0 0 (.ok [1, 2]),
        .reactor (.handled 0), .reactor (.batchDone 0), .reactor (.pendingDone 0),
        .reactor (.poll 0 [5]), .reactor (.expire 0), .reactor (.connect 1 5 0 false),
        .reactor (.handleEvent 0), .handleWrite 0 1] = some s ∧
    (s.socket 1).sent = [] ∧ (s.socket 1).delivered = [1] := ⟨_, rfl, rfl, rfl⟩

/-! ## All that clients get back -/

/-- No connection expires while its event is ahead, every read event fits as for a connection
alone, and a `::write` on behalf of unsent bytes takes at least one. -/
def Proper (s : Server β) : Label β → Prop
  | .reactor l => SharedDescriptors.Fits s.reactor l
  | .arrive _ _ => True
  | .handleRead c errno r => EchoConnection.Fits (s.echo c) (.handleRead errno r)
  | .handleWrite c n => EchoConnection.Writes (s.echo c) (.handleWrite n)

instance [DecidableEq β] (s : Server β) : (l : Label β) → Decidable (Proper s l)
  | .reactor l => inferInstanceAs (Decidable (SharedDescriptors.Fits s.reactor l))
  | .arrive _ _ => isTrue trivial
  | .handleRead c errno r =>
    inferInstanceAs (Decidable (EchoConnection.Fits (s.echo c) (.handleRead errno r)))
  | .handleWrite c n => inferInstanceAs (Decidable (EchoConnection.Writes (s.echo c) (.handleWrite n)))

end GenericServer.EchoServerClients
