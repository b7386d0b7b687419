import GenericServer.TransitionRuns
import Mathlib.Data.Nat.Notation

/-!
# The lifetime of a connection

A `TCPConnection` of the server lives as long as a `shared_ptr` to it: in
`onNewConnection` (`src/net/TCPServer.cpp`), in `m_connMap`, in a callback that has got
`shared_from_this()`, or with the user. Its loop also has pointers that keep nothing alive: the
functors of `init`, `addEvent`, `modifyEvent` and `removeEvent`, the `data.ptr` of the poller,
`m_activeEvents`, and the functions of the connection that the loop thread is in.
-/
namespace GenericServer.ConnectionLifetimes

open TransitionRuns

/-- `onNewConnection` behind `conn->init()`: before the insertion, before the return, done. -/
inductive Acceptor
  | inserting
  | returning
  | done
  deriving DecidableEq, Repr

/-- Where the loop thread is: not in the connection; in `m_connectedCallback`, which the functor
of `init` calls; in `handleEvent` of `m_event`; in `m_msgCallback`, which `handleRead` calls; in
`handleClose` behind `m_event.close()`; in `m_closeCallback`, which `handleClose` calls. -/
inductive Pc
  | away
  | connected
  | handling
  | message
  | closing
  | closed
  deriving DecidableEq, Repr

/-- The loop thread is in a callback, which has got a `shared_ptr`. -/
def Pc.holds : Pc → Bool
  | .connected | .message | .closed => true
  | .away | .handling | .closing => false

inductive Functor
  | init
  | addEvent
  | modifyEvent
  | removeEvent
  deriving DecidableEq, Repr

/-- `m_event.fd()`: open; closed by `shutdown`, which leaves the number; `-1`, by `handleClose`. -/
inductive Descriptor
  | opened
  | closed
  | invalid
  deriving DecidableEq, Repr

/-- One connection. `table` is its entry in `m_connMap` and `holders` counts the `shared_ptr`s of
the user; `pending` are its functors in the loop, `registered` says that the poller has its
`Event`, and `active` that the `Event` is still ahead in `m_activeEvents`. `undefined` says that
it has been used after it had been destroyed. -/
structure Connection where
  acceptor : Acceptor
  table : Bool
  holders : ℕ
  pc : Pc
  pending : List Functor
  registered : Bool
  active : Bool
  fd : Descriptor
  undefined : Bool

/-- Behind `conn->init()`, which has posted its functor to another loop. -/
def start : Connection where
  acceptor := .inserting
  table := false
  holders := 0
  pc := .away
  pending := [.init]
  registered := false
  active := false
  fd := .opened
  undefined := false

namespace Connection

/-- There is a `shared_ptr` besides those of the callbacks of the loop thread. -/
def Held (s : Connection) : Prop := s.acceptor ≠ .done ∨ s.table = true ∨ 0 < s.holders

def Alive (s : Connection) : Prop := s.Held ∨ s.pc.holds = true

/-- The loop has no other pointer to the connection. -/
structure Forgotten (s : Connection) : Prop where
  pc : s.pc = .away
  pending : s.pending = []
  registered : s.registered = false
  active : s.active = false

instance (s : Connection) : Decidable s.Held :=
  inferInstanceAs (Decidable (s.acceptor ≠ .done ∨ s.table = true ∨ 0 < s.holders))

instance (s : Connection) : Decidable s.Alive :=
  inferInstanceAs (Decidable (s.Held ∨ s.pc.holds = true))

instance (s : Connection) : Decidable s.Forgotten :=
  decidable_of_iff (s.pc = .away ∧ s.pending = [] ∧ s.registered = false ∧ s.active = false)
    ⟨fun h => ⟨h.1, h.2.1, h.2.2.1, h.2.2.2⟩, fun h => ⟨h.pc, h.pending, h.registered, h.active⟩⟩

/-- The loop thread uses the connection, and goes on to `next`. -/
def use (s next : Connection) : Connection :=
  if s.Alive then next else { s with undefined := true }

/-- `shutdown` takes the `Event` out of the poller and closes the descriptor, and it takes the
entry out of the table unless the number is lost. -/
def shutdown (s : Connection) : Connection :=
  match s.fd with
  | .invalid => { s with registered := false }
  | _ => { s with registered := false, table := false, fd := .closed }

/-- `m_loop->addEvent(&m_event)` on the loop thread, with the result of `epoll_ctl`. -/
def addEvent (s : Connection) (ok : Bool) : Connection :=
  { s with registered := ok && s.fd ≠ .invalid }

end Connection

/-- The acceptor inserts the connection and returns, and later inserts another one under its number
(`replaced`); a connection that had the number before and is shut down once more takes its entry
(`erased`). The user takes and drops `shared_ptr`s, and with one of them calls `sendMsg` or
`startPollEvent` (`post`) or `shutdown` on another thread, or `shutdown` on the loop thread;
`expire` is the end of an idle entry. The others are the steps of the loop thread. -/
inductive Label
  | insert
  | accepted
  | replaced
  | erased
  | hold
  | release
  | post (f : Functor)
  | shutdownElsewhere
  | shutdown
  | expire
  | poll (report : Bool)
  | handleEvent
  | handleWrite
  | handleRead
  | messageReturned
  | handleClose
  | closeCallback
  | closeReturned
  | handled
  | doPending (callback ok : Bool)
  | connectedReturned (ok : Bool)
  deriving DecidableEq, Repr

/-- A functor, on the loop thread. `init` calls `m_connectedCallback` if there is one. -/
def execute (s : Connection) (callback ok : Bool) : Functor → Connection
  | .init => if callback then { s with pc := .connected } else s.addEvent ok
  | .addEvent => s.addEvent ok
  | .modifyEvent => s
  | .removeEvent => { s with registered := false }

def step (s : Connection) : Label → Option Connection
  | .insert =>
    if s.acceptor = .inserting then some { s with acceptor := .returning, table := true } else none
  | .accepted => if s.acceptor = .returning then some { s with acceptor := .done } else none
  | .replaced =>
    if s.acceptor = .done ∧ s.table then some { s with table := false } else none
  | .erased => if s.table then some { s with table := false } else none
  | .hold => if s.Alive then some { s with holders := s.holders + 1 } else none
  | .release => if 0 < s.holders then some { s with holders := s.holders - 1 } else none
  | .post f =>
    if 0 < s.holders ∧ (f = .addEvent ∨ f = .modifyEvent) then
      some { s with pending := s.pending ++ [f] }
    else none
  | .shutdownElsewhere =>
    if 0 < s.holders then some { s.shutdown with pending := s.pending ++ [.removeEvent] } else none
  | .shutdown =>
    if s.pc = .connected ∨ s.pc = .message ∨ s.pc = .away ∧ 0 < s.holders then some s.shutdown
    else none
  | .expire => if s.pc = .away ∧ s.Held then some s.shutdown else none
  | .poll report =>
    if s.pc = .away ∧ ¬ s.active then
      some (if s.registered ∧ report then s.use { s with active := true } else s)
    else none
  | .handleEvent =>
    if s.pc = .away ∧ s.active then some (s.use { s with pc := .handling, active := false })
    else none
  | .handleWrite => if s.pc = .handling then some (s.use s) else none
  | .handleRead => if s.pc = .handling then some (s.use { s with pc := .message }) else none
  | .messageReturned =>
    if s.pc = .message then
      let s := { s with pc := .handling }
      some (s.use s)
    else none
  | .handleClose =>
    if s.pc = .handling then
      some (s.use { s with pc := .closing, registered := false, fd := .invalid })
    else none
  | .closeCallback => if s.pc = .closing then some (s.use { s with pc := .closed }) else none
  | .closeReturned => if s.pc = .closed then some { s with pc := .handling } else none
  | .handled => if s.pc = .handling then some (s.use { s with pc := .away }) else none
  | .doPending callback ok =>
    match s.pending with
    | f :: fs =>
      if s.pc = .away ∧ ¬ s.active then
        some (s.use (execute { s with pending := fs } callback ok f))
      else none
    | [] => none
  | .connectedReturned ok =>
    if s.pc = .connected then
      let s := { s with pc := .away }
      some (s.use (s.addEvent ok))
    else none

/-- A `shared_ptr` is dropped, and it is not the last one or the loop has forgotten the
connection. A callback only returns while there is another `shared_ptr`, since the loop thread
goes on in the connection. -/
def DropFits (s : Connection) : Label → Prop
  | .accepted => s.table = true ∨ 0 < s.holders ∨ s.pc.holds = true ∨ s.Forgotten
  | .replaced => 0 < s.holders ∨ s.pc.holds = true ∨ s.Forgotten
  | .erased => s.acceptor ≠ .done ∨ 0 < s.holders ∨ s.pc.holds = true ∨ s.Forgotten
  | .release =>
    s.acceptor ≠ .done ∨ s.table = true ∨ 1 < s.holders ∨ s.pc.holds = true ∨ s.Forgotten
  | .expire =>
    s.acceptor ≠ .done ∨ 0 < s.holders ∨ s.fd = .invalid ∨ s.pending = [] ∧ s.active = false
  | .messageReturned | .closeReturned | .connectedReturned _ => s.Held
  | _ => True

/-- The connection has not been used after its end, and will not be: when it is destroyed, the
loop has forgotten it. -/
structure Sound (s : Connection) : Prop where
  defined : s.undefined = false
  forgotten : ¬ s.Alive → s.Forgotten

variable {s s' next : Connection} {l : Label} {ls : List Label}

/-! ## Steps that use the connection -/

theorem sound_iff_of_alive (h : s.Alive) : Sound s ↔ s.undefined = false :=
  ⟨fun hs => hs.defined, fun hs => ⟨hs, fun hnot => absurd h hnot⟩⟩

theorem sound_iff_of_not_forgotten (h : ¬ s.Forgotten) :
    Sound s ↔ s.undefined = false ∧ s.Alive := by
  constructor
  · intro hs
    refine ⟨hs.defined, ?_⟩
    by_contra hnot
    exact h (hs.forgotten hnot)
  · rintro ⟨hs, halive⟩
    exact (sound_iff_of_alive halive).mpr hs

theorem not_sound_use (h : ¬ s.Alive) : ¬ Sound (s.use next) := by
  intro hs
  rw [Connection.use, if_neg h] at hs
  cases hs.defined

theorem use_of_alive (h : s.Alive) : s.use next = next := if_pos h

/-- A step through one of the pointers that keep nothing alive. -/
theorem sound_use_iff (h : ¬ s.Forgotten)
    (hnext : s.Alive → next.undefined = s.undefined ∧ next.Alive) :
    Sound (s.use next) ↔ Sound s := by
  by_cases halive : s.Alive
  · obtain ⟨hdefined, hnext⟩ := hnext halive
    rw [use_of_alive halive, sound_iff_of_alive hnext, sound_iff_of_alive halive, hdefined]
  · refine iff_of_false (not_sound_use halive) fun hs => h (hs.forgotten halive)

theorem not_forgotten_of_pc (h : s.pc ≠ .away) : ¬ s.Forgotten := fun hf => h hf.pc

theorem held_of_alive (h : s.Alive) (hpc : s.pc.holds = false) : s.Held := by
  rcases h with h | h
  · exact h
  · rw [hpc] at h
    cases h

theorem shutdown_of_invalid (h : s.fd = .invalid) :
    s.shutdown = { s with registered := false } := by
  rw [Connection.shutdown, h]

theorem shutdown_of_ne (h : s.fd ≠ .invalid) :
    s.shutdown = { s with registered := false, table := false, fd := .closed } := by
  unfold Connection.shutdown
  split
  · rename_i hfd
    exact absurd hfd h
  · rfl

theorem shutdown_alive_iff (s : Connection) : s.shutdown.Alive ↔ s.acceptor ≠ .done ∨
    (s.fd = .invalid ∧ s.table = true) ∨ 0 < s.holders ∨ s.pc.holds = true := by
  unfold Connection.Alive Connection.Held Connection.shutdown
  cases s.fd <;> simp [or_assoc]

theorem shutdown_undefined (s : Connection) : s.shutdown.undefined = s.undefined := by
  unfold Connection.shutdown
  cases s.fd <;> rfl

/-! ## Steps that drop a `shared_ptr` -/

/-- The state behind the step differs in the `shared_ptr`s only; before it there was one. -/
theorem sound_drop_iff (s' : Connection) (halive : s.Alive) (hdefined : s'.undefined = s.undefined)
    (hforgotten : s'.Forgotten ↔ s.Forgotten) :
    Sound s' ↔ Sound s ∧ (s'.Alive ∨ s.Forgotten) := by
  rw [sound_iff_of_alive halive]
  constructor
  · intro h
    refine ⟨hdefined ▸ h.defined, ?_⟩
    by_cases hnext : s'.Alive
    · exact .inl hnext
    · exact .inr (hforgotten.mp (h.forgotten hnext))
  · rintro ⟨hs, hnext⟩
    exact ⟨hdefined.trans hs, fun hnot => hforgotten.mpr (hnext.resolve_left hnot)⟩

theorem accepted_sound_iff (hacc : s.acceptor = .returning) :
    Sound { s with acceptor := .done } ↔ Sound s ∧ DropFits s .accepted := by
  have halive : s.Alive := .inl (.inl (by rw [hacc]; exact nofun))
  rw [sound_drop_iff { s with acceptor := .done } halive rfl
    ⟨fun h => ⟨h.1, h.2, h.3, h.4⟩, fun h => ⟨h.1, h.2, h.3, h.4⟩⟩]
  simp [Connection.Alive, Connection.Held, DropFits, or_assoc]

theorem erased_sound_iff (htable : s.table = true) :
    Sound { s with table := false } ↔ Sound s ∧ DropFits s .erased := by
  have halive : s.Alive := .inl (.inr (.inl htable))
  rw [sound_drop_iff { s with table := false } halive rfl
    ⟨fun h => ⟨h.1, h.2, h.3, h.4⟩, fun h => ⟨h.1, h.2, h.3, h.4⟩⟩]
  simp [Connection.Alive, Connection.Held, DropFits, or_assoc]

theorem replaced_sound_iff (hacc : s.acceptor = .done) (htable : s.table = true) :
    Sound { s with table := false } ↔ Sound s ∧ DropFits s .replaced := by
  rw [erased_sound_iff htable]
  simp [DropFits, hacc]

theorem release_sound_iff (hholders : 0 < s.holders) :
    Sound { s with holders := s.holders - 1 } ↔ Sound s ∧ DropFits s .release := by
  have halive : s.Alive := .inl (.inr (.inr hholders))
  have hone : 0 < s.holders - 1 ↔ 1 < s.holders := by omega
  rw [sound_drop_iff { s with holders := s.holders - 1 } halive rfl
    ⟨fun h => ⟨h.1, h.2, h.3, h.4⟩, fun h => ⟨h.1, h.2, h.3, h.4⟩⟩]
  simp [Connection.Alive, Connection.Held, DropFits, or_assoc, hone]

/-- The end of an idle entry shuts the connection down, and may be its end too. -/
theorem expire_sound_iff (hpc : s.pc = .away) (hheld : s.Held) :
    Sound s.shutdown ↔ Sound s ∧ DropFits s .expire := by
  rw [sound_iff_of_alive (.inl hheld)]
  have hafter := shutdown_alive_iff s
  rw [hpc] at hafter
  constructor
  · intro h
    refine ⟨shutdown_undefined s ▸ h.defined, ?_⟩
    by_cases hnext : s.shutdown.Alive
    · rcases hafter.mp hnext with hacc | hfd | hholders | hcallback
      · exact .inl hacc
      · exact .inr (.inr (.inl hfd.1))
      · exact .inr (.inl hholders)
      · cases hcallback
    · have hforgotten := h.forgotten hnext
      refine .inr (.inr (.inr ⟨?_, ?_⟩))
      · rw [← hforgotten.pending]
        unfold Connection.shutdown
        cases s.fd <;> rfl
      · rw [← hforgotten.active]
        unfold Connection.shutdown
        cases s.fd <;> rfl
  · rintro ⟨hdefined, hfit⟩
    refine ⟨(shutdown_undefined s).trans hdefined, fun hnot => ?_⟩
    rcases hfit with hacc | hholders | hfd | ⟨hpending, hactive⟩
    · exact absurd (hafter.mpr (.inl hacc)) hnot
    · exact absurd (hafter.mpr (.inr (.inr (.inl hholders)))) hnot
    · rcases hheld with hacc | htable | hholders
      · exact absurd (hafter.mpr (.inl hacc)) hnot
      · exact absurd (hafter.mpr (.inr (.inl ⟨hfd, htable⟩))) hnot
      · exact absurd (hafter.mpr (.inr (.inr (.inl hholders)))) hnot
    · unfold Connection.shutdown
      cases s.fd <;> exact ⟨hpc, hpending, rfl, hactive⟩

theorem returned_sound_iff (hholds : s.pc.holds = true) :
    Sound { s with pc := .handling } ↔ Sound s ∧ s.Held := by
  have hnot : ¬ Connection.Forgotten { s with pc := .handling } := not_forgotten_of_pc nofun
  rw [sound_iff_of_not_forgotten hnot, sound_iff_of_alive (.inr hholds)]
  constructor
  · rintro ⟨hdefined, halive⟩
    have hheld : Connection.Held { s with pc := .handling } := held_of_alive halive rfl
    exact ⟨hdefined, hheld⟩
  · rintro ⟨hdefined, hheld⟩
    exact ⟨hdefined, .inl hheld⟩

theorem connectedReturned_sound_iff (hpc : s.pc = .connected) (ok : Bool) :
    Sound (Connection.use { s with pc := .away } (Connection.addEvent { s with pc := .away } ok)) ↔
      Sound s ∧ s.Held := by
  rw [sound_iff_of_alive (s := s) (.inr (by rw [hpc]; rfl))]
  by_cases hheld : s.Held
  · have halive : Connection.Alive { s with pc := .away } := .inl hheld
    have hadded : Connection.Alive (Connection.addEvent { s with pc := .away } ok) := .inl hheld
    rw [use_of_alive halive, sound_iff_of_alive hadded]
    exact (and_iff_left hheld).symm
  · have hgone : ¬ Connection.Alive { s with pc := .away } := by
      intro halive
      have hnext : Connection.Held { s with pc := .away } := held_of_alive halive rfl
      exact hheld hnext
    exact iff_of_false (not_sound_use hgone) fun h => hheld h.2

theorem sound_step_iff (hs : step s l = some s') : Sound s' ↔ Sound s ∧ DropFits s l := by
  have htrue : ∀ {p q : Prop}, (p ↔ q) → (p ↔ q ∧ True) :=
    fun h => h.trans (and_iff_left trivial).symm
  cases l with
  | insert =>
    simp only [step] at hs
    split_ifs at hs with hacc
    cases hs
    apply htrue
    have hnext : Connection.Alive { s with acceptor := .returning, table := true } :=
      .inl (.inl nofun)
    rw [sound_iff_of_alive (s := s) (.inl (.inl (by rw [hacc]; exact nofun))),
      sound_iff_of_alive hnext]
  | accepted =>
    simp only [step] at hs
    split_ifs at hs with hacc
    cases hs
    exact accepted_sound_iff hacc
  | replaced =>
    simp only [step] at hs
    split_ifs at hs with hguard
    cases hs
    exact replaced_sound_iff hguard.1 hguard.2
  | erased =>
    simp only [step] at hs
    split_ifs at hs with htable
    cases hs
    exact erased_sound_iff htable
  | hold =>
    simp only [step] at hs
    split_ifs at hs with halive
    cases hs
    apply htrue
    have hnext : Connection.Alive { s with holders := s.holders + 1 } :=
      .inl (.inr (.inr (Nat.succ_pos _)))
    rw [sound_iff_of_alive halive, sound_iff_of_alive hnext]
  | release =>
    simp only [step] at hs
    split_ifs at hs with hholders
    cases hs
    exact release_sound_iff hholders
  | post f =>
    simp only [step] at hs
    split_ifs at hs with hguard
    cases hs
    apply htrue
    have hnext : Connection.Alive { s with pending := s.pending ++ [f] } :=
      .inl (.inr (.inr hguard.1))
    rw [sound_iff_of_alive (s := s) (.inl (.inr (.inr hguard.1))), sound_iff_of_alive hnext]
  | shutdownElsewhere =>
    simp only [step] at hs
    split_ifs at hs with hholders
    cases hs
    apply htrue
    have hdown : s.shutdown.Alive :=
      (shutdown_alive_iff s).mpr (.inr (.inr (.inl hholders)))
    have hnext : Connection.Alive { s.shutdown with
        pending := s.pending ++ [.removeEvent] } := hdown
    rw [sound_iff_of_alive (s := s) (.inl (.inr (.inr hholders))), sound_iff_of_alive hnext]
    exact Eq.congr_left (shutdown_undefined s)
  | shutdown =>
    simp only [step] at hs
    split_ifs at hs with hguard
    cases hs
    apply htrue
    have hboth : s.Alive ∧ s.shutdown.Alive := by
      rcases hguard with hpc | hpc | ⟨-, hholders⟩
      · have hholds : s.pc.holds = true := by rw [hpc]; rfl
        exact ⟨.inr hholds, (shutdown_alive_iff s).mpr (.inr (.inr (.inr hholds)))⟩
      · have hholds : s.pc.holds = true := by rw [hpc]; rfl
        exact ⟨.inr hholds, (shutdown_alive_iff s).mpr (.inr (.inr (.inr hholds)))⟩
      · exact ⟨.inl (.inr (.inr hholders)),
          (shutdown_alive_iff s).mpr (.inr (.inr (.inl hholders)))⟩
    rw [sound_iff_of_alive hboth.1, sound_iff_of_alive hboth.2]
    exact Eq.congr_left (shutdown_undefined s)
  | expire =>
    simp only [step] at hs
    split_ifs at hs with hguard
    cases hs
    exact expire_sound_iff hguard.1 hguard.2
  | poll report =>
    simp only [step] at hs
    split_ifs at hs with hguard hreport
    · cases hs
      apply htrue
      refine sound_use_iff (fun hf => ?_) fun halive => ⟨rfl, halive⟩
      have hregistered := hf.registered
      rw [hreport.1] at hregistered
      cases hregistered
    · cases hs
      exact htrue Iff.rfl
  | handleEvent =>
    simp only [step] at hs
    split_ifs at hs with hguard
    cases hs
    apply htrue
    refine sound_use_iff (fun hf => ?_) fun halive => ⟨rfl, ?_⟩
    · have hactive := hf.active
      rw [hguard.2] at hactive
      cases hactive
    · have hheld : s.Held := held_of_alive halive (by rw [hguard.1]; rfl)
      exact .inl hheld
  | handleWrite =>
    simp only [step] at hs
    split_ifs at hs with hpc
    cases hs
    apply htrue
    exact sound_use_iff (not_forgotten_of_pc (by rw [hpc]; exact nofun)) fun halive => ⟨rfl, halive⟩
  | handleRead =>
    simp only [step] at hs
    split_ifs at hs with hpc
    cases hs
    apply htrue
    exact sound_use_iff (not_forgotten_of_pc (by rw [hpc]; exact nofun)) fun _ => ⟨rfl, .inr rfl⟩
  | messageReturned =>
    simp only [step] at hs
    split_ifs at hs with hpc
    cases hs
    have hself : Sound (Connection.use { s with pc := .handling } { s with pc := .handling }) ↔
        Sound { s with pc := .handling } :=
      sound_use_iff (not_forgotten_of_pc nofun) fun halive => ⟨rfl, halive⟩
    rw [hself, returned_sound_iff (by rw [hpc]; rfl)]
    rfl
  | handleClose =>
    simp only [step] at hs
    split_ifs at hs with hpc
    cases hs
    apply htrue
    refine sound_use_iff (not_forgotten_of_pc (by rw [hpc]; exact nofun)) fun halive => ⟨rfl, ?_⟩
    have hheld : s.Held := held_of_alive halive (by rw [hpc]; rfl)
    exact .inl hheld
  | closeCallback =>
    simp only [step] at hs
    split_ifs at hs with hpc
    cases hs
    apply htrue
    exact sound_use_iff (not_forgotten_of_pc (by rw [hpc]; exact nofun)) fun _ => ⟨rfl, .inr rfl⟩
  | closeReturned =>
    simp only [step] at hs
    split_ifs at hs with hpc
    cases hs
    exact returned_sound_iff (by rw [hpc]; rfl)
  | handled =>
    simp only [step] at hs
    split_ifs at hs with hpc
    cases hs
    apply htrue
    refine sound_use_iff (not_forgotten_of_pc (by rw [hpc]; exact nofun)) fun halive => ⟨rfl, ?_⟩
    have hheld : s.Held := held_of_alive halive (by rw [hpc]; rfl)
    exact .inl hheld
  | doPending callback ok =>
    simp only [step] at hs
    split at hs
    · rename_i f fs hpending
      split_ifs at hs with hguard
      cases hs
      apply htrue
      refine sound_use_iff (fun hf => ?_) fun halive => ?_
      · have hnil := hf.pending
        rw [hpending] at hnil
        cases hnil
      · have hheld := held_of_alive halive (by rw [hguard.1]; rfl)
        cases f with
        | init =>
          cases callback with
          | false => exact ⟨rfl, .inl hheld⟩
          | true => exact ⟨rfl, .inl hheld⟩
        | addEvent => exact ⟨rfl, .inl hheld⟩
        | modifyEvent => exact ⟨rfl, .inl hheld⟩
        | removeEvent => exact ⟨rfl, .inl hheld⟩
    · cases hs
  | connectedReturned ok =>
    simp only [step] at hs
    split_ifs at hs with hpc
    cases hs
    exact connectedReturned_sound_iff hpc ok

theorem sound_start : Sound start :=
  (sound_iff_of_alive (by decide)).mpr rfl

/-- A connection is not used after its end, and when it is destroyed nothing of it is left in the
loop, exactly when no step drops the last `shared_ptr` while the loop has another pointer. -/
theorem sound_iff (hr : run step start ls = some s) :
    Sound s ↔ Guarded step DropFits start ls :=
  guarded_iff (fun _ _ _ _ _ => trivial) (fun _ _ _ _ hs => sound_step_iff hs) trivial sound_start hr

/-- A message callback that shuts the connection down is its end, and `handleRead` goes on to clear
the read buffer. -/
theorem sound_iff_shutdown_in_message :
    let ls := [.insert, .accepted, .doPending true true, .connectedReturned true, .poll true,
      .handleEvent, .handleRead, .shutdown, .messageReturned]
    ∃ s, run step start ls = some s ∧ s.undefined = true ∧ ¬ Guarded step DropFits start ls := by
  intro ls
  obtain ⟨s, hs⟩ : ∃ s, run step start ls = some s := ⟨_, rfl⟩
  have hundefined : s.undefined = true := by
    cases hs
    rfl
  refine ⟨s, hs, hundefined, fun hg => ?_⟩
  have hdefined := ((sound_iff hs).mpr hg).defined
  rw [hundefined] at hdefined
  cases hdefined

/-! ## The echo server -/

/-- The echo server keeps no `shared_ptr`, and it calls `shutdown` through its idle entries only, of
which `onConnected` makes one for each connection. -/
def echoStep (s : Connection) : Label → Option Connection
  | .erased | .hold | .release | .post _ | .shutdownElsewhere | .shutdown => none
  | .expire => if s.pending = [] then step s .expire else none
  | .doPending callback ok => if callback then step s (.doPending true ok) else none
  | l => step s l

/-- The number goes to another connection only when the loop has forgotten this one, and an entry
expires only when its event is not ahead in the batch, at latest where `onNewConnection` returns. -/
def EchoFits (s : Connection) : Label → Prop
  | .accepted => s.table = true ∨ s.pc = .away ∧ s.active = false
  | .replaced => s.Forgotten
  | .expire => s.acceptor ≠ .done ∨ s.active = false
  | _ => True

structure Echoed (s : Connection) : Prop where
  holders : s.holders = 0
  pending : s.pending = [] ∨
    s.pending = [.init] ∧ s.pc = .away ∧ s.registered = false ∧ s.active = false
  table : s.fd = .opened → s.acceptor = .returning → s.table = true
  lost : s.fd ≠ .opened → s.registered = false ∧ s.pc ≠ .connected ∧ s.pending = []
  inside : s.pc ≠ .away → s.active = false
  invalid : s.fd = .invalid → s.active = false

theorem step_of_echoStep (hs : echoStep s l = some s') : step s l = some s' := by
  cases l with
  | erased | hold | release | post f | shutdownElsewhere | shutdown => cases hs
  | expire =>
    simp only [echoStep] at hs
    split_ifs at hs
    exact hs
  | doPending callback ok =>
    cases callback with
    | true => exact hs
    | false => cases hs
  | _ => exact hs

theorem Echoed.use (h : Echoed s) (hnext : Echoed next) : Echoed (s.use next) := by
  unfold Connection.use
  split_ifs
  · exact hnext
  · exact ⟨h.holders, h.pending, h.table, h.lost, h.inside, h.invalid⟩

theorem Echoed.goto (h : Echoed s) (hpending : s.pending = []) (hactive : s.active = false) {pc : Pc}
    (hpc : pc ≠ .connected) : Echoed { s with pc := pc } where
  holders := h.holders
  pending := .inl hpending
  table := h.table
  lost hfd := ⟨(h.lost hfd).1, hpc, hpending⟩
  inside _ := hactive
  invalid := h.invalid

theorem Echoed.pending_eq_nil (h : Echoed s) (hpc : s.pc ≠ .away) : s.pending = [] :=
  h.pending.resolve_right fun hinit => hpc hinit.2.1

theorem Echoed.step (h : Echoed s) (hs : echoStep s l = some s') : Echoed s' := by
  have hstep := step_of_echoStep hs
  cases l with
  | insert =>
    simp only [ConnectionLifetimes.step] at hstep
    split_ifs at hstep with hacc
    cases hstep
    exact ⟨h.holders, h.pending, fun _ _ => rfl, h.lost, h.inside, h.invalid⟩
  | accepted =>
    simp only [ConnectionLifetimes.step] at hstep
    split_ifs at hstep with hacc
    cases hstep
    exact ⟨h.holders, h.pending, fun _ hdone => (by cases hdone), h.lost, h.inside, h.invalid⟩
  | replaced =>
    simp only [ConnectionLifetimes.step] at hstep
    split_ifs at hstep with hguard
    cases hstep
    refine ⟨h.holders, h.pending, fun _ hacc => ?_, h.lost, h.inside, h.invalid⟩
    cases hguard.1.symm.trans hacc
  | erased | hold | release | post f | shutdownElsewhere | shutdown => cases hs
  | expire =>
    simp only [ConnectionLifetimes.step] at hstep
    split_ifs at hstep with hguard
    cases hstep
    simp only [echoStep] at hs
    split_ifs at hs with hpending
    by_cases hfd : s.fd = .invalid
    · rw [shutdown_of_invalid hfd]
      exact ⟨h.holders, .inl hpending, h.table, fun hopen => ⟨rfl, (h.lost hopen).2⟩, h.inside,
        h.invalid⟩
    · rw [shutdown_of_ne hfd]
      refine ⟨h.holders, .inl hpending, nofun, fun _ => ⟨rfl, ?_, hpending⟩, h.inside, nofun⟩
      dsimp only
      rw [hguard.1]
      exact nofun
  | poll report =>
    simp only [ConnectionLifetimes.step] at hstep
    split_ifs at hstep with hguard hreport
    · cases hstep
      have hopen : s.fd = .opened := by
        by_contra hfd
        have hregistered := (h.lost hfd).1
        rw [hreport.1] at hregistered
        cases hregistered
      have hpending : s.pending = [] := h.pending.resolve_right fun hinit => by
        have hregistered := hinit.2.2.1
        rw [hreport.1] at hregistered
        cases hregistered
      refine h.use ⟨h.holders, .inl hpending, h.table, h.lost, fun hpc => absurd hguard.1 hpc, ?_⟩
      intro hfd
      cases hopen.symm.trans hfd
    · cases hstep
      exact h
  | handleEvent =>
    simp only [ConnectionLifetimes.step] at hstep
    split_ifs at hstep with hguard
    cases hstep
    have hpending : s.pending = [] := h.pending.resolve_right fun hinit => by
      rw [hinit.2.2.2] at hguard
      cases hguard.2
    exact h.use ⟨h.holders, .inl hpending, h.table,
      fun hfd => ⟨(h.lost hfd).1, nofun, hpending⟩, fun _ => rfl, fun _ => rfl⟩
  | handleWrite =>
    simp only [ConnectionLifetimes.step] at hstep
    split_ifs at hstep with hpc
    cases hstep
    exact h.use h
  | handleRead =>
    simp only [ConnectionLifetimes.step] at hstep
    split_ifs at hstep with hpc
    cases hstep
    have hne : s.pc ≠ .away := by rw [hpc]; exact nofun
    exact h.use (h.goto (h.pending_eq_nil hne) (h.inside hne) nofun)
  | messageReturned =>
    simp only [ConnectionLifetimes.step] at hstep
    split_ifs at hstep with hpc
    cases hstep
    have hne : s.pc ≠ .away := by rw [hpc]; exact nofun
    have hnext : Echoed { s with pc := .handling } :=
      h.goto (h.pending_eq_nil hne) (h.inside hne) nofun
    exact hnext.use hnext
  | handleClose =>
    simp only [ConnectionLifetimes.step] at hstep
    split_ifs at hstep with hpc
    cases hstep
    have hne : s.pc ≠ .away := by rw [hpc]; exact nofun
    exact h.use ⟨h.holders, .inl (h.pending_eq_nil hne), nofun,
      fun _ => ⟨rfl, nofun, h.pending_eq_nil hne⟩, fun _ => h.inside hne, fun _ => h.inside hne⟩
  | closeCallback =>
    simp only [ConnectionLifetimes.step] at hstep
    split_ifs at hstep with hpc
    cases hstep
    have hne : s.pc ≠ .away := by rw [hpc]; exact nofun
    exact h.use (h.goto (h.pending_eq_nil hne) (h.inside hne) nofun)
  | closeReturned =>
    simp only [ConnectionLifetimes.step] at hstep
    split_ifs at hstep with hpc
    cases hstep
    have hne : s.pc ≠ .away := by rw [hpc]; exact nofun
    exact h.goto (h.pending_eq_nil hne) (h.inside hne) nofun
  | handled =>
    simp only [ConnectionLifetimes.step] at hstep
    split_ifs at hstep with hpc
    cases hstep
    have hne : s.pc ≠ .away := by rw [hpc]; exact nofun
    exact h.use (h.goto (h.pending_eq_nil hne) (h.inside hne) nofun)
  | doPending callback ok =>
    cases callback with
    | false => cases hs
    | true =>
      simp only [ConnectionLifetimes.step] at hstep
      split at hstep
      · rename_i f fs hpending
        split_ifs at hstep with hguard
        cases hstep
        have hinit : s.pending = [.init] ∧ s.pc = .away ∧ s.registered = false ∧
            s.active = false := by
          refine h.pending.resolve_left ?_
          rw [hpending]
          exact nofun
        have hlist := hpending.symm.trans hinit.1
        simp only [List.cons.injEq] at hlist
        obtain ⟨rfl, rfl⟩ := hlist
        have hopen : s.fd = .opened := by
          by_contra hfd
          have hnil := (h.lost hfd).2.2
          rw [hpending] at hnil
          cases hnil
        refine h.use ⟨h.holders, .inl rfl, h.table, fun hfd => absurd hopen hfd, fun _ => ?_, ?_⟩
        · exact hinit.2.2.2
        · exact fun _ => hinit.2.2.2
      · cases hstep
  | connectedReturned ok =>
    simp only [ConnectionLifetimes.step] at hstep
    split_ifs at hstep with hpc
    cases hstep
    have hne : s.pc ≠ .away := by rw [hpc]; exact nofun
    have hnil := h.pending_eq_nil hne
    have hactive := h.inside hne
    have hopen : s.fd = .opened := by
      by_contra hfd
      exact (h.lost hfd).2.1 hpc
    have hleft : Echoed { s with pc := .away } := h.goto hnil hactive nofun
    exact hleft.use ⟨h.holders, .inl hnil, h.table, fun hfd => absurd hopen hfd, fun _ => hactive,
      fun _ => hactive⟩

/-- A callback of the loop thread is not the only one that has a `shared_ptr`. -/
def Backed (s : Connection) : Prop := s.pc.holds = true → s.Held

theorem backed_of_not_holds (h : s.pc.holds = false) : Backed s := by
  intro hholds
  rw [h] at hholds
  cases hholds

theorem backed_use (h : s.pc.holds = false) (hnext : next.pc.holds = false) :
    Backed (s.use next) := by
  unfold Connection.use
  split_ifs
  · exact backed_of_not_holds hnext
  · exact backed_of_not_holds h

theorem called_iff (hs : Sound s' ↔ Sound s) (h : ¬ s.Forgotten) (hpc : s.pc.holds = false)
    (hnext : s.Held → Backed s') : Sound s' ∧ Backed s' ↔ Sound s ∧ Backed s := by
  constructor
  · rintro ⟨hsound, -⟩
    exact ⟨hs.mp hsound, backed_of_not_holds hpc⟩
  · rintro ⟨hsound, -⟩
    have halive := ((sound_iff_of_not_forgotten h).mp hsound).2
    exact ⟨hs.mpr hsound, hnext (held_of_alive halive hpc)⟩

theorem returned_iff (hs : Sound s' ↔ Sound s ∧ s.Held) (hpc : s.pc.holds = true)
    (hnext : Backed s') : Sound s' ∧ Backed s' ↔ Sound s ∧ Backed s := by
  rw [hs]
  constructor
  · rintro ⟨⟨hsound, hheld⟩, -⟩
    exact ⟨hsound, fun _ => hheld⟩
  · rintro ⟨hsound, hback⟩
    exact ⟨⟨hsound, hback hpc⟩, hnext⟩

theorem passed_iff (hs : Sound s' ↔ Sound s) (h : Backed s) (h' : Backed s') :
    Sound s' ∧ Backed s' ↔ Sound s ∧ Backed s := by
  rw [hs]
  exact and_congr_right fun _ => iff_of_true h' h

theorem Echoed.accepted_iff (h : Echoed s) (hacc : s.acceptor = .returning) :
    Sound { s with acceptor := .done } ∧ Backed { s with acceptor := .done } ↔
      (Sound s ∧ Backed s) ∧ EchoFits s .accepted := by
  have hback : Backed s := fun _ => .inl (by rw [hacc]; exact nofun)
  have hholders := h.holders
  rw [accepted_sound_iff hacc]
  constructor
  · rintro ⟨⟨hsound, hfit⟩, hnext⟩
    refine ⟨⟨hsound, hback⟩, ?_⟩
    rcases hfit with htable | hholder | hholds | hforgotten
    · exact .inl htable
    · omega
    · rcases hnext hholds with hdone | htable | hholder
      · exact absurd rfl hdone
      · exact .inl htable
      · exact absurd hholder (by dsimp only; omega)
    · exact .inr ⟨hforgotten.pc, hforgotten.active⟩
  · rintro ⟨⟨hsound, -⟩, hfit⟩
    by_cases htable : s.table = true
    · exact ⟨⟨hsound, .inl htable⟩, fun _ => .inr (.inl htable)⟩
    · obtain ⟨hpc, hactive⟩ := hfit.resolve_left htable
      have hfd : s.fd ≠ .opened := fun hopen => htable (h.table hopen hacc)
      obtain ⟨hregistered, -, hpending⟩ := h.lost hfd
      refine ⟨⟨hsound, .inr (.inr (.inr ⟨hpc, hpending, hregistered, hactive⟩))⟩, ?_⟩
      exact backed_of_not_holds (by dsimp only; rw [hpc]; rfl)

theorem Echoed.replaced_iff (h : Echoed s) (hacc : s.acceptor = .done) (htable : s.table = true) :
    Sound { s with table := false } ∧ Backed { s with table := false } ↔
      (Sound s ∧ Backed s) ∧ EchoFits s .replaced := by
  have hholders := h.holders
  rw [replaced_sound_iff hacc htable]
  constructor
  · rintro ⟨⟨hsound, hfit⟩, hnext⟩
    refine ⟨⟨hsound, fun _ => .inr (.inl htable)⟩, ?_⟩
    rcases hfit with hholder | hholds | hforgotten
    · omega
    · rcases hnext hholds with hdone | hgone | hholder
      · exact absurd hacc hdone
      · cases hgone
      · exact absurd hholder (by dsimp only; omega)
    · exact hforgotten
  · rintro ⟨⟨hsound, -⟩, hforgotten⟩
    refine ⟨⟨hsound, .inr (.inr hforgotten)⟩, ?_⟩
    exact backed_of_not_holds (by dsimp only; rw [hforgotten.pc]; rfl)

theorem Echoed.expire_iff (h : Echoed s) (hpc : s.pc = .away) (hheld : s.Held)
    (hpending : s.pending = []) :
    Sound s.shutdown ∧ Backed s.shutdown ↔ (Sound s ∧ Backed s) ∧ EchoFits s .expire := by
  have hholders := h.holders
  have haway : s.pc.holds = false := by rw [hpc]; rfl
  have hdown : s.shutdown.pc.holds = false := by
    rw [← haway]
    unfold Connection.shutdown
    cases s.fd <;> rfl
  rw [expire_sound_iff hpc hheld]
  constructor
  · rintro ⟨⟨hsound, hfit⟩, -⟩
    refine ⟨⟨hsound, backed_of_not_holds haway⟩, ?_⟩
    rcases hfit with hacc | hholder | hfd | ⟨-, hactive⟩
    · exact .inl hacc
    · omega
    · exact .inr (h.invalid hfd)
    · exact .inr hactive
  · rintro ⟨⟨hsound, -⟩, hacc | hactive⟩
    · exact ⟨⟨hsound, .inl hacc⟩, backed_of_not_holds hdown⟩
    · exact ⟨⟨hsound, .inr (.inr (.inr ⟨hpending, hactive⟩))⟩, backed_of_not_holds hdown⟩

theorem Echoed.step_iff (h : Echoed s) (hs : echoStep s l = some s') :
    Sound s' ∧ Backed s' ↔ (Sound s ∧ Backed s) ∧ EchoFits s l := by
  have hstep := step_of_echoStep hs
  have hsound := sound_step_iff hstep
  have htrue : ∀ {p q : Prop}, (p ↔ q) → (p ↔ q ∧ True) :=
    fun h => h.trans (and_iff_left trivial).symm
  cases l with
  | insert =>
    simp only [ConnectionLifetimes.step] at hstep
    split_ifs at hstep with hacc
    cases hstep
    apply htrue
    exact passed_iff (hsound.trans (and_iff_left trivial))
      (fun _ => .inl (by rw [hacc]; exact nofun)) (fun _ => .inl nofun)
  | accepted =>
    simp only [ConnectionLifetimes.step] at hstep
    split_ifs at hstep with hacc
    cases hstep
    exact h.accepted_iff hacc
  | replaced =>
    simp only [ConnectionLifetimes.step] at hstep
    split_ifs at hstep with hguard
    cases hstep
    exact h.replaced_iff hguard.1 hguard.2
  | erased | hold | release | post f | shutdownElsewhere | shutdown => cases hs
  | expire =>
    simp only [echoStep] at hs
    split_ifs at hs with hpending
    simp only [ConnectionLifetimes.step] at hstep
    split_ifs at hstep with hguard
    cases hstep
    exact h.expire_iff hguard.1 hguard.2 hpending
  | poll report =>
    simp only [ConnectionLifetimes.step] at hstep
    split_ifs at hstep with hguard hreport
    · cases hstep
      apply htrue
      have hpc : s.pc.holds = false := by rw [hguard.1]; rfl
      exact passed_iff (hsound.trans (and_iff_left trivial)) (backed_of_not_holds hpc)
        (backed_use hpc hpc)
    · cases hstep
      exact htrue Iff.rfl
  | handleEvent =>
    simp only [ConnectionLifetimes.step] at hstep
    split_ifs at hstep with hguard
    cases hstep
    apply htrue
    have hpc : s.pc.holds = false := by rw [hguard.1]; rfl
    exact passed_iff (hsound.trans (and_iff_left trivial)) (backed_of_not_holds hpc)
      (backed_use hpc rfl)
  | handleWrite | handleClose | handled =>
    simp only [ConnectionLifetimes.step] at hstep
    split_ifs at hstep with hguard
    cases hstep
    apply htrue
    have hpc : s.pc.holds = false := by rw [hguard]; rfl
    exact passed_iff (hsound.trans (and_iff_left trivial)) (backed_of_not_holds hpc)
      (backed_use hpc (by first | exact hpc | rfl))
  | handleRead | closeCallback =>
    simp only [ConnectionLifetimes.step] at hstep
    split_ifs at hstep with hguard
    cases hstep
    apply htrue
    refine called_iff (hsound.trans (and_iff_left trivial))
      (not_forgotten_of_pc (by rw [hguard]; exact nofun)) (by rw [hguard]; rfl) fun hheld => ?_
    rw [use_of_alive (.inl hheld)]
    exact fun _ => hheld
  | messageReturned =>
    simp only [ConnectionLifetimes.step] at hstep
    split_ifs at hstep with hguard
    cases hstep
    apply htrue
    exact returned_iff hsound (by rw [hguard]; rfl) (backed_use rfl rfl)
  | closeReturned =>
    simp only [ConnectionLifetimes.step] at hstep
    split_ifs at hstep with hguard
    cases hstep
    apply htrue
    exact returned_iff hsound (by rw [hguard]; rfl) (backed_of_not_holds rfl)
  | doPending callback ok =>
    simp only [ConnectionLifetimes.step] at hstep
    split at hstep
    · rename_i f fs hpending
      split_ifs at hstep with hguard
      cases hstep
      apply htrue
      have hraw : ¬ s.Forgotten := by
        intro hf
        rw [hf.pending] at hpending
        cases hpending
      refine called_iff (hsound.trans (and_iff_left trivial)) hraw (by rw [hguard.1]; rfl)
        fun hheld => ?_
      rw [use_of_alive (.inl hheld)]
      cases f with
      | init => cases callback <;> exact fun _ => hheld
      | addEvent | modifyEvent | removeEvent => exact fun _ => hheld
    · cases hstep
  | connectedReturned ok =>
    simp only [ConnectionLifetimes.step] at hstep
    split_ifs at hstep with hguard
    cases hstep
    apply htrue
    exact returned_iff hsound (by rw [hguard]; rfl) (backed_use rfl rfl)

instance (s : Connection) (l : Label) : Decidable (EchoFits s l) :=
  match l with
  | .accepted =>
    inferInstanceAs (Decidable (s.table = true ∨ s.pc = .away ∧ s.active = false))
  | .replaced => inferInstanceAs (Decidable s.Forgotten)
  | .expire => inferInstanceAs (Decidable (s.acceptor ≠ .done ∨ s.active = false))
  | .insert | .erased | .hold | .release | .post _ | .shutdownElsewhere | .shutdown | .poll _
  | .handleEvent | .handleWrite | .handleRead | .messageReturned | .handleClose | .closeCallback
  | .closeReturned | .handled | .doPending _ _ | .connectedReturned _ => isTrue trivial

end GenericServer.ConnectionLifetimes
