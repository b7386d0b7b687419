import GenericServer.TransitionRuns
import Mathlib.Data.Int.Notation
import Mathlib.Logic.Function.Basic

/-!
# The connection table of the server

`TCPServer::onNewConnection` and `onClose` of `src/net/TCPServer.cpp` with the close paths
of `TCPConnection`. A step is a whole callback, except that `onNewConnection` is cut where
the connection has been started and is not in the table yet: a worker can run its
connected callback there, and without workers `init` runs it there.
-/
namespace GenericServer.ConnectionTable

open TransitionRuns

/-- `TCPConnection`, as far as descriptors go: `m_event.fd()`, the number that `accept4`
returned, and whether a close path has been run on it. -/
structure Connection where
  mFd : ℤ
  acceptedFd : ℤ
  closed : Bool
  deriving DecidableEq, Repr

/-- `TCPServer` with the kernel's table of open numbers. Connections are numbered in the
order of acceptance; `accepting` is the one that `onNewConnection` has not inserted yet and
`pending` are those whose `init` functor has not run. -/
structure Server where
  pool : Bool
  count : ℕ
  conn : ℕ → Connection
  connMap : ℤ → Option ℕ
  kernel : ℤ → Bool
  accepting : Option ℕ
  pending : List ℕ

namespace Server

def new (pool : Bool) : Server where
  pool := pool
  count := 0
  conn := fun _ => ⟨-1, -1, true⟩
  connMap := fun _ => none
  kernel := fun _ => false
  accepting := none
  pending := []

/-- `onNewConnection(fd, addr)` up to and including `conn->init()`. -/
def initConn (s : Server) (fd : ℤ) : Server :=
  { s with
    conn := Function.update s.conn s.count ⟨fd, fd, false⟩
    count := s.count + 1
    kernel := Function.update s.kernel fd true
    accepting := some s.count
    pending := s.pending ++ [s.count] }

/-- `m_connMap[fd] = conn`, the end of `onNewConnection`. -/
def insert (s : Server) (c : ℕ) : Server :=
  { s with
    connMap := Function.update s.connMap (s.conn c).acceptedFd (some c)
    accepting := none }

/-- `m_connMap.erase(conn->getFd())`. -/
def onClose (s : Server) (c : ℕ) : Server :=
  { s with connMap := Function.update s.connMap (s.conn c).mFd none }

/-- `::close(fd)`; a number that is not open is left alone. -/
def sysClose (s : Server) (fd : ℤ) : Server :=
  { s with kernel := Function.update s.kernel fd false }

def setConn (s : Server) (c : ℕ) (x : Connection) : Server :=
  { s with conn := Function.update s.conn c x }

/-- `Event::close`. -/
def eventClose (s : Server) (c : ℕ) : Server :=
  (s.sysClose (s.conn c).mFd).setConn c { s.conn c with mFd := -1 }

/-- Bookkeeping of the model: one of the close paths has run on `c`. -/
def markClosed (s : Server) (c : ℕ) : Server := s.setConn c { s.conn c with closed := true }

/-- `TCPConnection::shutdown`. -/
def shutdown (s : Server) (c : ℕ) : Server :=
  let s := s.onClose c
  (s.sysClose (s.conn c).mFd).markClosed c

/-- `TCPConnection::handleClose`: the descriptor is invalidated before the callback. -/
def handleClose (s : Server) (c : ℕ) : Server :=
  ((s.eventClose c).onClose c).markClosed c

end Server

/-- `accept` is `onNewConnection` up to `conn->init()`, `insert` the rest of it;
`connected` is the functor of `init`, whose callback may shut the connection down. -/
inductive Label
  | accept (fd : ℤ)
  | connected (c : ℕ) (shut : Bool)
  | insert
  | handleClose (c : ℕ)
  | shutdown (c : ℕ)
  deriving DecidableEq, Repr

def step (s : Server) : Label → Option Server
  | .accept fd =>
    if s.accepting = none ∧ 0 ≤ fd ∧ s.kernel fd = false then some (s.initConn fd) else none
  | .connected c shut =>
    if c ∈ s.pending then
      let s := { s with pending := s.pending.erase c }
      some (if shut then s.shutdown c else s)
    else none
  | .insert =>
    match s.accepting with
    | some c => if s.pool ∨ c ∉ s.pending then some (s.insert c) else none
    | none => none
  | .handleClose c => if c < s.count then some (s.handleClose c) else none
  | .shutdown c => if c < s.count then some (s.shutdown c) else none

/-- Connection `c` has been accepted under the number `fd` and is not closed. -/
def Live (s : Server) (c : ℕ) (fd : ℤ) : Prop :=
  c < s.count ∧ (s.conn c).closed = false ∧ (s.conn c).acceptedFd = fd

/-- Unless a connection is just being accepted, the table holds the live connections,
each under its own descriptor. -/
def Exact (s : Server) : Prop :=
  s.accepting = none → ∀ fd c, s.connMap fd = some c ↔ Live s c fd

/-- The connection that a step closes. -/
def Label.closes : Label → Option ℕ
  | .connected c shut => if shut then some c else none
  | .handleClose c => some c
  | .shutdown c => some c
  | .accept _ => none
  | .insert => none

/-- The number that a closed connection still holds is not in use. -/
def Harmless (s : Server) (c : ℕ) : Prop :=
  (s.conn c).closed = true ∧ s.kernel (s.conn c).mFd = false

/-- `shutdown` meets a live connection that is in the table already, or a closed one whose
number is not in use. -/
def ShutdownFits (s : Server) (c : ℕ) : Prop :=
  Harmless s c ∨ ((s.conn c).closed = false ∧ s.accepting ≠ some c)

/-- `handleClose` only meets connections that are closed already. -/
def CloseFits (s : Server) : Label → Prop
  | .connected c shut => shut = true → ShutdownFits s c
  | .handleClose c => Harmless s c
  | .shutdown c => ShutdownFits s c
  | .accept _ => True
  | .insert => True

/-- The table is exact up to the connection being accepted, the live connections have
pairwise different descriptors, and these are open. -/
structure Good (s : Server) : Prop where
  listed : ∀ fd c, s.connMap fd = some c ↔ Live s c fd ∧ s.accepting ≠ some c
  owns : ∀ c fd, Live s c fd → (s.conn c).mFd = fd ∧ 0 ≤ fd ∧ s.kernel fd = true
  unique : ∀ c d fd, Live s c fd → Live s d fd → c = d
  accepting : ∀ c, s.accepting = some c → ∃ fd, Live s c fd
  pending : ∀ c ∈ s.pending, c < s.count

theorem good_new (pool : Bool) : Good (Server.new pool) where
  listed fd c := by simp [Server.new, Live]
  owns c fd h := absurd h.1 (Nat.not_lt_zero c)
  unique c d fd h _ := absurd h.1 (Nat.not_lt_zero c)
  accepting c h := by simp [Server.new] at h
  pending c h := by simp [Server.new] at h

theorem Good.exact {s : Server} (h : Good s) : Exact s := by
  intro hnone fd c
  rw [h.listed, hnone]
  simp

/-- The entry of `c` is gone and every other one is as before. -/
def OwnEntryOnly (s s' : Server) (c : ℕ) : Prop :=
  ∀ fd, s'.connMap fd = if s.connMap fd = some c then none else s.connMap fd

/-- What both close paths do when the number they act on belongs to no other connection. -/
structure Closes (s s' : Server) (c : ℕ) : Prop where
  count : s'.count = s.count
  accepting : s'.accepting = s.accepting
  pending : s'.pending = s.pending
  others : ∀ d, d ≠ c → s'.conn d = s.conn d
  self : (s'.conn c).closed = true
  kernel : ∀ d fd, d ≠ c → Live s d fd → s'.kernel fd = s.kernel fd
  entries : OwnEntryOnly s s' c

theorem Closes.live {s s' : Server} {c : ℕ} (h : Closes s s' c) (d : ℕ) (fd : ℤ) :
    Live s' d fd ↔ Live s d fd ∧ d ≠ c := by
  by_cases hd : d = c
  · subst hd
    simp [Live, h.self]
  · simp [Live, h.count, h.others d hd, hd]

theorem Closes.good {s s' : Server} {c : ℕ} (hc : Closes s s' c) (h : Good s)
    (hacc : s.accepting ≠ some c) : Good s' where
  listed fd d := by
    rw [hc.entries fd, hc.live, hc.accepting]
    split_ifs with hentry
    · have hlive := ((h.listed fd c).mp hentry).1
      simp only [false_iff, not_and, not_not]
      intro hd
      exact absurd (h.unique d c fd hd.1 hlive) hd.2
    · rw [h.listed]
      refine ⟨fun hd => ⟨⟨hd.1, ?_⟩, hd.2⟩, fun hd => ⟨hd.1.1, hd.2⟩⟩
      rintro rfl
      exact hentry ((h.listed fd d).mpr hd)
  owns d fd hd := by
    obtain ⟨hd, hne⟩ := (hc.live d fd).mp hd
    rw [hc.others d hne, hc.kernel d fd hne hd]
    exact h.owns d fd hd
  unique d e fd hd he := h.unique d e fd ((hc.live d fd).mp hd).1 ((hc.live e fd).mp he).1
  accepting d hd := by
    rw [hc.accepting] at hd
    obtain ⟨fd, hlive⟩ := h.accepting d hd
    refine ⟨fd, (hc.live d fd).mpr ⟨hlive, ?_⟩⟩
    rintro rfl
    exact hacc hd
  pending d hd := by
    rw [hc.count]
    exact h.pending d (hc.pending ▸ hd)

private theorem erase_own {s : Server} (h : Good s) {c : ℕ} {fd₀ : ℤ}
    (hown : ∀ fd, Live s c fd → fd₀ = fd)
    (hother : ∀ d fd, d ≠ c → Live s d fd → fd ≠ fd₀) (fd : ℤ) :
    Function.update s.connMap fd₀ none fd
      = if s.connMap fd = some c then none else s.connMap fd := by
  rcases eq_or_ne fd fd₀ with rfl | hne
  · rw [Function.update_self]
    split_ifs with hentry
    · rfl
    · cases hd : s.connMap fd with
      | none => rfl
      | some d =>
        have hlive := ((h.listed fd d).mp hd).1
        have hdc : d ≠ c := fun hdc => hentry (hdc ▸ hd)
        exact absurd rfl (hother d fd hdc hlive)
  · rw [Function.update_of_ne hne, if_neg]
    intro hentry
    exact hne (hown fd ((h.listed fd c).mp hentry).1).symm

private theorem shutdown_number {s : Server} (h : Good s) {c : ℕ} (hlt : c < s.count)
    (hfit : ShutdownFits s c) :
    (∀ fd, Live s c fd → (s.conn c).mFd = fd) ∧
      ∀ d fd, d ≠ c → Live s d fd → fd ≠ (s.conn c).mFd := by
  refine ⟨fun fd hlive => (h.owns c fd hlive).1, ?_⟩
  rintro d fd hne hlive rfl
  obtain ⟨-, -, hopen⟩ := h.owns d _ hlive
  rcases hfit with ⟨-, hfree⟩ | ⟨hopen', -⟩
  · rw [hfree] at hopen
    cases hopen
  · have hself : Live s c (s.conn c).acceptedFd := ⟨hlt, hopen', rfl⟩
    rw [(h.owns c _ hself).1] at hlive
    exact hne (h.unique d c _ hlive hself)

theorem Good.shutdown_closes {s : Server} (h : Good s) {c : ℕ} (hlt : c < s.count)
    (hfit : ShutdownFits s c) : Closes s (s.shutdown c) c := by
  obtain ⟨hown, hother⟩ := shutdown_number h hlt hfit
  refine ⟨rfl, rfl, rfl, fun d hd => Function.update_of_ne hd _ _, ?_, fun d fd hd hlive => ?_,
    erase_own h hown hother⟩
  · simp [Server.shutdown, Server.markClosed, Server.setConn]
  · exact Function.update_of_ne (hother d fd hd hlive) _ _

theorem Good.handleClose_closes {s : Server} (h : Good s) {c : ℕ} (hlt : c < s.count)
    (hfit : Harmless s c) : Closes s (s.handleClose c) c := by
  obtain ⟨-, hother⟩ := shutdown_number h hlt (.inl hfit)
  have hminus : ∀ d fd, d ≠ c → Live s d fd → fd ≠ -1 := by
    rintro d fd - hlive rfl
    exact absurd (h.owns d _ hlive).2.1 (by decide)
  have hdead : ∀ fd, Live s c fd → (-1 : ℤ) = fd := by
    intro fd hlive
    exact absurd hlive.2.1 (by simp [hfit.1])
  refine ⟨rfl, rfl, rfl, fun d hd => ?_, ?_, fun d fd hd hlive => ?_, fun fd => ?_⟩
  · simp [Server.handleClose, Server.markClosed, Server.setConn, Server.eventClose,
      Server.onClose, Server.sysClose, Function.update_of_ne hd]
  · simp [Server.handleClose, Server.markClosed, Server.setConn]
  · exact Function.update_of_ne (hother d fd hd hlive) _ _
  · rw [← erase_own h hdead hminus fd]
    simp [Server.handleClose, Server.markClosed, Server.setConn, Server.eventClose,
      Server.onClose, Server.sysClose]

theorem Good.start {s : Server} (h : Good s) (c : ℕ) :
    Good { s with pending := s.pending.erase c } where
  listed := h.listed
  owns := h.owns
  unique := h.unique
  accepting := h.accepting
  pending d hd := h.pending d (List.mem_of_mem_erase hd)

theorem live_initConn (s : Server) (fd : ℤ) (d : ℕ) (n : ℤ) :
    Live (s.initConn fd) d n ↔ if d = s.count then n = fd else Live s d n := by
  rcases eq_or_ne d s.count with rfl | hne
  · simp [Live, Server.initConn, eq_comm]
  · have hlt : d < s.count + 1 ↔ d < s.count := by omega
    simp [Live, Server.initConn, hlt, hne]

theorem Good.initConn {s : Server} (h : Good s) {fd : ℤ} (hnone : s.accepting = none) (hfd : 0 ≤ fd)
    (hfree : s.kernel fd = false) : Good (s.initConn fd) := by
  have hnew : ∀ d, ¬ Live s d fd := by
    intro d hd
    have hopen := (h.owns d fd hd).2.2
    rw [hfree] at hopen
    cases hopen
  constructor
  · intro n d
    have hlisted : (s.initConn fd).connMap n = some d ↔ Live s d n := by
      simpa [hnone, Server.initConn] using h.listed n d
    rw [hlisted, live_initConn]
    split_ifs with hd
    · subst hd
      simp [Live, Server.initConn]
    · simp [Server.initConn, Ne.symm hd]
  · intro d n hd
    rw [live_initConn] at hd
    split_ifs at hd with hdc
    · subst hdc hd
      simp [Server.initConn, hfd]
    · have hne : n ≠ fd := fun hn => hnew d (hn ▸ hd)
      simpa [Server.initConn, Function.update_of_ne hdc, Function.update_of_ne hne] using h.owns d n hd
  · intro d e n hd he
    rw [live_initConn] at hd he
    split_ifs at hd he with hdc hec hec
    · rw [hdc, hec]
    · exact absurd (hd ▸ he) (hnew e)
    · exact absurd (he ▸ hd) (hnew d)
    · exact h.unique d e n hd he
  · intro d hd
    cases hd
    exact ⟨fd, (live_initConn s fd s.count fd).mpr (by simp)⟩
  · intro d hd
    rcases List.mem_append.mp hd with hd | hd
    · exact Nat.lt_succ_of_lt (h.pending d hd)
    · rw [List.mem_singleton.mp hd]
      exact Nat.lt_succ_self _

theorem Good.insert {s : Server} (h : Good s) {c : ℕ} (hacc : s.accepting = some c) :
    Good (s.insert c) := by
  obtain ⟨fd, hc⟩ := h.accepting c hacc
  have hlisted : ∀ n d, (s.insert c).connMap n = some d ↔ Live s d n := by
    intro n d
    rw [Server.insert, hc.2.2]
    rcases eq_or_ne n fd with rfl | hne
    · simp only [Function.update_self, Option.some.injEq]
      constructor
      · rintro rfl
        exact hc
      · intro hd
        exact h.unique c d n hc hd
    · simp only [Function.update_of_ne hne, h.listed, hacc]
      refine ⟨fun hd => hd.1, fun hd => ⟨hd, ?_⟩⟩
      intro hdc
      cases hdc
      exact hne (hd.2.2.symm.trans hc.2.2)
  refine ⟨fun n d => (hlisted n d).trans ?_, h.owns, h.unique,
    fun d hd => absurd hd (by simp [Server.insert]), h.pending⟩
  simp [Server.insert, Live]

/-- A closing step that meets the condition: the state it acts on, less a functor that has
been taken out of the pending list, and what it does to that state. -/
theorem Good.closes {s s' : Server} {l : Label} {c : ℕ} (h : Good s) (hl : l.closes = some c)
    (hfit : CloseFits s l) (hs : step s l = some s') :
    ∃ pending, Good { s with pending := pending } ∧ Closes { s with pending := pending } s' c ∧
      s.accepting ≠ some c := by
  have hacc : ShutdownFits s c → s.accepting ≠ some c := by
    rintro (hdead | ⟨-, hne⟩) hc
    · obtain ⟨fd, hlive⟩ := h.accepting c hc
      exact absurd hlive.2.1 (by simp [hdead.1])
    · exact hne hc
  cases l with
  | accept fd => cases hl
  | insert => cases hl
  | connected d shut =>
    cases shut with
    | false => cases hl
    | true =>
      cases hl
      simp only [step] at hs
      split_ifs at hs with hmem
      cases hs
      exact ⟨_, h.start c, (h.start c).shutdown_closes (h.pending c hmem) (hfit rfl), hacc (hfit rfl)⟩
  | handleClose d =>
    cases hl
    simp only [step] at hs
    split_ifs at hs with hlt
    cases hs
    exact ⟨_, h, h.handleClose_closes hlt hfit, hacc (.inl hfit)⟩
  | shutdown d =>
    cases hl
    simp only [step] at hs
    split_ifs at hs with hlt
    cases hs
    exact ⟨_, h, h.shutdown_closes hlt hfit, hacc hfit⟩

theorem Good.step {s s' : Server} {l : Label} (h : Good s) (hfit : CloseFits s l)
    (hs : ConnectionTable.step s l = some s') : Good s' := by
  cases hl : l.closes with
  | some c =>
    obtain ⟨pending, hgood, hcloses, hacc⟩ := h.closes hl hfit hs
    exact hcloses.good hgood hacc
  | none =>
    cases l with
    | accept fd =>
      simp only [ConnectionTable.step] at hs
      split_ifs at hs with hfree
      cases hs
      exact h.initConn hfree.1 hfree.2.1 hfree.2.2
    | insert =>
      simp only [ConnectionTable.step] at hs
      split at hs
      · rename_i c hacc
        split_ifs at hs
        cases hs
        exact h.insert hacc
      · cases hs
    | connected c shut =>
      cases shut with
      | true => cases hl
      | false =>
        simp only [ConnectionTable.step, Bool.false_eq_true, if_false] at hs
        split_ifs at hs
        cases hs
        exact h.start c
    | handleClose c => cases hl
    | shutdown c => cases hl

/-- In every run whose closing steps meet the condition, the table is exact whenever no
connection is being accepted, and closing a connection removes its own entry and no other. -/
theorem table_exact {pool : Bool} {ls : List Label} {s : Server}
    (hg : Guarded step CloseFits (Server.new pool) ls)
    (hr : run step (Server.new pool) ls = some s) :
    Exact s ∧ ∀ l c s', l.closes = some c → CloseFits s l → step s l = some s' →
      OwnEntryOnly s s' c := by
  have hgood : Good s := hg.invariant (fun _ _ _ h hfit hs => Good.step h hfit hs)
    (good_new pool) hr
  refine ⟨hgood.exact, fun l c s' hl hfit hs => ?_⟩
  obtain ⟨pending, -, hcloses, -⟩ := hgood.closes hl hfit hs
  exact hcloses.entries

theorem table_exact_reused_number :
    Exact ((((Server.new true).initConn 5).insert 0).shutdown 0 |>.initConn 5 |>.insert 1) :=
  (@table_exact true [.accept 5, .insert, .shutdown 0, .accept 5, .insert] _
    (guarded_cons trivial rfl <| guarded_cons trivial rfl <|
      guarded_cons (.inr ⟨rfl, nofun⟩) rfl <| guarded_cons trivial rfl <|
      guarded_cons trivial rfl trivial) rfl).1

/-- The peer of the only connection closes it: the table still holds the connection. -/
theorem handleClose_leaves_entry :
    ∃ s, run step (Server.new true) [.accept 5, .insert, .connected 0 false, .handleClose 0] = some s ∧
      s.accepting = none ∧ s.connMap 5 = some 0 ∧ ¬ Live s 0 5 ∧ ¬ Exact s := by
  refine ⟨_, rfl, rfl, rfl, fun hlive => ?_, fun hexact => ?_⟩
  · exact absurd hlive.2.1 (by decide)
  · exact absurd ((hexact rfl 5 0).mp rfl).2.1 (by decide)

/-- The other direction for the ordinary close path: `handleClose` on a live connection
always leaves its entry behind. -/
theorem handleClose_strands {s s' : Server} {c : ℕ} {fd : ℤ} (h : Good s)
    (hnone : s.accepting = none) (hlive : Live s c fd) (hs : step s (.handleClose c) = some s') :
    ¬ Exact s' := by
  simp only [step, if_pos hlive.1] at hs
  cases hs
  intro hexact
  have hentry : s.connMap fd = some c := (h.listed fd c).mpr ⟨hlive, by simp [hnone]⟩
  have hfd : fd ≠ -1 := by
    have := (h.owns c fd hlive).2.1
    omega
  have hstays : (s.handleClose c).connMap fd = some c := by
    simp [Server.handleClose, Server.markClosed, Server.setConn, Server.eventClose,
      Server.onClose, Server.sysClose, Function.update_of_ne hfd, hentry]
  have hdead := ((hexact hnone fd c).mp hstays).2.1
  simp [Server.handleClose, Server.markClosed, Server.setConn] at hdead

end GenericServer.ConnectionTable
