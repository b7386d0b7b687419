import GenericServer.TransitionRuns
import Mathlib.Data.Int.Notation
import Mathlib.Data.List.Nodup
import Mathlib.Data.List.Perm.Basic
import Mathlib.Logic.Function.Basic

/-!
# The connections of a client

`TCPClient` of `src/net/TCPClient.h` with `TCPConnection::handleClose` and `Event::close`. A step
is a whole call. The rest of the process, and the connector until it hands a descriptor over,
open and close numbers as they like.
-/
namespace GenericServer.ClientConnections

open TransitionRuns

/-- `TCPConnection`: `m_event.fd()`, the number that the connection was established with, and
whether `handleClose` has run on it. -/
structure Connection where
  mFd : ℤ
  fd : ℤ
  closed : Bool
  deriving DecidableEq, Repr

inductive Owner
  | elsewhere
  | connection (c : ℕ)
  deriving DecidableEq, Repr

/-- A call of `send`: what the number of each `::send` stood for, and the connections that were
established and not closed. -/
structure Call where
  msg : List UInt8
  recipients : List (Option Owner)
  live : List ℕ
  deriving DecidableEq, Repr

/-- `mConns` has the entries of `m_conns`, and `kernel` the open numbers. Connections are numbered
in the order in which they are established. -/
structure TCPClient where
  mConns : List (ℤ × ℕ)
  conn : ℕ → Connection
  count : ℕ
  kernel : ℤ → Option Owner
  calls : List Call

def start : TCPClient where
  mConns := []
  conn := fun _ => ⟨-1, -1, true⟩
  count := 0
  kernel := fun _ => none
  calls := []

namespace TCPClient

def keys (s : TCPClient) : List ℤ := s.mConns.map Prod.fst

def erase (s : TCPClient) (fd : ℤ) : TCPClient :=
  { s with mConns := s.mConns.filter (fun e => e.1 ≠ fd) }

def insert (s : TCPClient) (fd : ℤ) (c : ℕ) : TCPClient :=
  { s with mConns := (fd, c) :: (s.erase fd).mConns }

def setConn (s : TCPClient) (c : ℕ) (x : Connection) : TCPClient :=
  { s with conn := Function.update s.conn c x }

def setKernel (s : TCPClient) (fd : ℤ) (o : Option Owner) : TCPClient :=
  { s with kernel := Function.update s.kernel fd o }

def connected (s : TCPClient) (fd : ℤ) : TCPClient :=
  let c := s.count
  let s := ({ s with count := s.count + 1 }.setConn c ⟨fd, fd, false⟩).setKernel fd
    (some (.connection c))
  s.insert fd c

def eventClose (s : TCPClient) (c : ℕ) : TCPClient :=
  (s.setKernel (s.conn c).mFd none).setConn c { s.conn c with mFd := -1 }

def closeCallback (s : TCPClient) (c : ℕ) : TCPClient := s.erase (s.conn c).mFd

def handleClose (s : TCPClient) (c : ℕ) : TCPClient :=
  let s := (s.eventClose c).closeCallback c
  s.setConn c { s.conn c with closed := true }

def live (s : TCPClient) : List ℕ :=
  (List.range s.count).filter (fun c => !(s.conn c).closed)

/-- `send(msg)`, which meets the keys of the table in some order. -/
def send (s : TCPClient) (msg : List UInt8) (order : List ℤ) : TCPClient :=
  { s with calls := s.calls ++ [⟨msg, order.map s.kernel, s.live⟩] }

end TCPClient

/-- `opened` and `closed` are numbers of the rest of the process. `handleClose` takes the event
out of the poller, so that it is not called again. -/
inductive Label
  | opened (fd : ℤ)
  | closed (fd : ℤ)
  | connected (fd : ℤ)
  | handleClose (c : ℕ)
  | send (msg : List UInt8) (order : List ℤ)
  deriving DecidableEq, Repr

def step (s : TCPClient) : Label → Option TCPClient
  | .opened fd =>
    if 0 ≤ fd ∧ s.kernel fd = none then some (s.setKernel fd (some .elsewhere)) else none
  | .closed fd => if s.kernel fd = some .elsewhere then some (s.setKernel fd none) else none
  | .connected fd => if s.kernel fd = some .elsewhere then some (s.connected fd) else none
  | .handleClose c =>
    if c < s.count ∧ (s.conn c).closed = false then some (s.handleClose c) else none
  | .send msg order => if order.Perm s.keys then some (s.send msg order) else none

/-- The message goes to every live connection once, and to nothing else. -/
def Call.Covers (call : Call) : Prop :=
  call.recipients.Perm (call.live.map fun c => some (.connection c))

def Covered (s : TCPClient) : Prop := ∀ call ∈ s.calls, call.Covers

/-- Every number that a closed connection had is again that of a live one. -/
def Reused (s : TCPClient) : Prop :=
  ∀ c < s.count, (s.conn c).closed = true →
    ∃ d < s.count, (s.conn d).closed = false ∧ (s.conn d).fd = (s.conn c).fd

def Fits (s : TCPClient) : Label → Prop
  | .send _ _ => Reused s
  | _ => True

instance decidableReused (s : TCPClient) : Decidable (Reused s) :=
  inferInstanceAs (Decidable (∀ c < s.count, (s.conn c).closed = true →
    ∃ d < s.count, (s.conn d).closed = false ∧ (s.conn d).fd = (s.conn c).fd))

instance decidableFits (s : TCPClient) : (l : Label) → Decidable (Fits s l)
  | .send _ _ => inferInstanceAs (Decidable (Reused s))
  | .opened _ | .closed _ | .connected _ | .handleClose _ => isTrue trivial

/-! ## The table keeps every number -/

variable {s s' : TCPClient} {l : Label} {ls : List Label} {fd : ℤ} {c : ℕ}

structure Consistent (s : TCPClient) : Prop where
  nonneg : ∀ fd, s.kernel fd ≠ none → 0 ≤ fd
  established : ∀ c < s.count, 0 ≤ (s.conn c).fd
  mFd : ∀ c < s.count, (s.conn c).mFd = if (s.conn c).closed then -1 else (s.conn c).fd
  nodup : s.keys.Nodup
  keys : ∀ fd, fd ∈ s.keys ↔ ∃ c < s.count, (s.conn c).fd = fd
  kernel : ∀ fd c, s.kernel fd = some (.connection c) ↔
    c < s.count ∧ (s.conn c).closed = false ∧ (s.conn c).fd = fd

theorem mem_live : c ∈ s.live ↔ c < s.count ∧ (s.conn c).closed = false := by
  simp [TCPClient.live]

theorem mem_keys_erase {x : ℤ} : x ∈ (s.erase fd).keys ↔ x ∈ s.keys ∧ x ≠ fd := by
  simp only [TCPClient.keys, TCPClient.erase, List.mem_map, List.mem_filter, decide_eq_true_eq]
  constructor
  · rintro ⟨e, ⟨he, hne⟩, rfl⟩
    exact ⟨⟨e, he, rfl⟩, hne⟩
  · rintro ⟨⟨e, he, rfl⟩, hne⟩
    exact ⟨e, ⟨he, hne⟩, rfl⟩

theorem nodup_keys_erase (h : s.keys.Nodup) (fd : ℤ) : (s.erase fd).keys.Nodup :=
  h.sublist (List.filter_sublist.map Prod.fst)

theorem setKernel_consistent (h : Consistent s) {o : Option Owner}
    (hfd : ∀ c, s.kernel fd ≠ some (.connection c)) (ho : ∀ c, o ≠ some (.connection c))
    (hnonneg : o ≠ none → 0 ≤ fd) : Consistent (s.setKernel fd o) := by
  refine ⟨fun x hx => ?_, h.established, h.mFd, h.nodup, h.keys, fun x c => ?_⟩
  · by_cases hne : x = fd
    · subst hne
      exact hnonneg (by simpa [TCPClient.setKernel] using hx)
    · exact h.nonneg x (by simpa [TCPClient.setKernel, Function.update_of_ne hne] using hx)
  · by_cases hne : x = fd
    · subst hne
      refine (iff_of_false ?_ fun hx => hfd c ((h.kernel x c).mpr hx))
      simpa [TCPClient.setKernel] using ho c
    · simpa [TCPClient.setKernel, Function.update_of_ne hne] using h.kernel x c

section Connected

variable (s fd)

theorem conn_connected_self : (s.connected fd).conn s.count = ⟨fd, fd, false⟩ :=
  Function.update_self ..

theorem conn_connected_of_lt (hc : c < s.count) : (s.connected fd).conn c = s.conn c :=
  Function.update_of_ne (Nat.ne_of_lt hc) _ _

theorem mem_keys_connected {x : ℤ} : x ∈ (s.connected fd).keys ↔ x = fd ∨ x ∈ s.keys ∧ x ≠ fd :=
  List.mem_cons.trans (or_congr_right mem_keys_erase)

end Connected

theorem connected_cases (hc : c < (s.connected fd).count) : c = s.count ∨ c < s.count := by
  have hlt : c < s.count + 1 := hc
  omega

theorem connected_keys (h : Consistent s) (fd x : ℤ) : x ∈ (s.connected fd).keys ↔
    ∃ c < (s.connected fd).count, ((s.connected fd).conn c).fd = x := by
  rw [mem_keys_connected]
  constructor
  · rintro (rfl | ⟨hx, -⟩)
    · exact ⟨s.count, Nat.lt_succ_self _, by rw [conn_connected_self]⟩
    · obtain ⟨c, hc, rfl⟩ := (h.keys x).mp hx
      exact ⟨c, Nat.lt_succ_of_lt hc, by rw [conn_connected_of_lt s fd hc]⟩
  · rintro ⟨c, hc, rfl⟩
    rcases connected_cases hc with rfl | hc
    · exact .inl (by rw [conn_connected_self])
    · rw [conn_connected_of_lt s fd hc]
      by_cases heq : (s.conn c).fd = fd
      · exact .inl heq
      · exact .inr ⟨(h.keys _).mpr ⟨c, hc, rfl⟩, heq⟩

theorem connected_kernel (h : Consistent s) (hfd : s.kernel fd = some .elsewhere) (x : ℤ) (c : ℕ) :
    (s.connected fd).kernel x = some (.connection c) ↔ c < (s.connected fd).count ∧
      ((s.connected fd).conn c).closed = false ∧ ((s.connected fd).conn c).fd = x := by
  by_cases hx : x = fd
  · subst hx
    have hkernel : (s.connected x).kernel x = some (.connection s.count) := Function.update_self ..
    rw [hkernel]
    constructor
    · intro heq
      cases heq
      exact ⟨Nat.lt_succ_self _, by rw [conn_connected_self], by rw [conn_connected_self]⟩
    · rintro ⟨hc, hlive, heq⟩
      rcases connected_cases hc with rfl | hc
      · rfl
      · rw [conn_connected_of_lt s x hc] at hlive heq
        have hold := (h.kernel x c).mpr ⟨hc, hlive, heq⟩
        rw [hfd] at hold
        cases hold
  · have hkernel : (s.connected fd).kernel x = s.kernel x := Function.update_of_ne hx _ _
    rw [hkernel, h.kernel x c]
    constructor
    · rintro ⟨hc, hlive, heq⟩
      rw [conn_connected_of_lt s fd hc]
      exact ⟨Nat.lt_succ_of_lt hc, hlive, heq⟩
    · rintro ⟨hc, hlive, heq⟩
      rcases connected_cases hc with rfl | hc
      · rw [conn_connected_self] at heq
        exact absurd heq.symm hx
      · rw [conn_connected_of_lt s fd hc] at hlive heq
        exact ⟨hc, hlive, heq⟩

theorem connected_consistent (h : Consistent s) (hfd : s.kernel fd = some .elsewhere) :
    Consistent (s.connected fd) := by
  have hnonneg : 0 ≤ fd := h.nonneg fd (by simp [hfd])
  refine ⟨fun x hx => ?_, fun c hc => ?_, fun c hc => ?_, ?_, connected_keys h fd,
    connected_kernel h hfd⟩
  · by_cases hne : x = fd
    · exact hne ▸ hnonneg
    · exact h.nonneg x fun hx' => hx ((Function.update_of_ne hne _ _).trans hx')
  · rcases connected_cases hc with rfl | hc
    · rw [conn_connected_self]
      exact hnonneg
    · rw [conn_connected_of_lt s fd hc]
      exact h.established c hc
  · rcases connected_cases hc with rfl | hc
    · rw [conn_connected_self]
      rfl
    · rw [conn_connected_of_lt s fd hc]
      exact h.mFd c hc
  · refine List.nodup_cons.mpr ⟨fun hmem => ?_, nodup_keys_erase h.nodup fd⟩
    exact (mem_keys_erase.mp hmem).2 rfl

/-- The close callback asks for the number that `Event::close` has just invalidated, so that
nothing is erased. -/
theorem handleClose_mConns (h : Consistent s) (c : ℕ) :
    (s.handleClose c).mConns = s.mConns := by
  have hfd : ((s.eventClose c).conn c).mFd = -1 := by
    simp [TCPClient.eventClose, TCPClient.setConn]
  have hkeep : ∀ e ∈ s.mConns, decide (e.1 ≠ ((s.eventClose c).conn c).mFd) = true := by
    intro e he
    obtain ⟨d, hd, heq⟩ := (h.keys e.1).mp (List.mem_map_of_mem he)
    have := h.established d hd
    rw [hfd, decide_eq_true_eq]
    omega
  exact List.filter_eq_self.mpr hkeep

theorem conn_handleClose_self (s : TCPClient) (c : ℕ) :
    (s.handleClose c).conn c = ⟨-1, (s.conn c).fd, true⟩ := by
  simp [TCPClient.handleClose, TCPClient.closeCallback, TCPClient.erase, TCPClient.eventClose,
    TCPClient.setConn, TCPClient.setKernel]

theorem conn_handleClose_of_ne {d : ℕ} (hd : d ≠ c) : (s.handleClose c).conn d = s.conn d := by
  simp [TCPClient.handleClose, TCPClient.closeCallback, TCPClient.erase, TCPClient.eventClose,
    TCPClient.setConn, TCPClient.setKernel, Function.update_of_ne hd]

theorem fd_handleClose (s : TCPClient) (c d : ℕ) :
    ((s.handleClose c).conn d).fd = (s.conn d).fd := by
  by_cases hd : d = c
  · rw [hd, conn_handleClose_self]
  · rw [conn_handleClose_of_ne hd]

theorem kernel_handleClose (h : Consistent s) (hc : c < s.count)
    (hopen : (s.conn c).closed = false) :
    (s.handleClose c).kernel = Function.update s.kernel (s.conn c).fd none := by
  have hmFd : (s.conn c).mFd = (s.conn c).fd := by
    rw [h.mFd c hc, hopen]
    rfl
  rw [← hmFd]
  rfl

theorem handleClose_kernel (h : Consistent s) (hc : c < s.count)
    (hopen : (s.conn c).closed = false) (x : ℤ) (d : ℕ) :
    (s.handleClose c).kernel x = some (.connection d) ↔ d < (s.handleClose c).count ∧
      ((s.handleClose c).conn d).closed = false ∧ ((s.handleClose c).conn d).fd = x := by
  rw [kernel_handleClose h hc hopen]
  by_cases hd : d = c
  · subst hd
    rw [conn_handleClose_self]
    refine iff_of_false (fun hx => ?_) (fun hx => by cases hx.2.1)
    by_cases hne : x = (s.conn d).fd
    · rw [hne, Function.update_self] at hx
      cases hx
    · rw [Function.update_of_ne hne, h.kernel] at hx
      exact hne hx.2.2.symm
  · rw [conn_handleClose_of_ne hd]
    by_cases hne : x = (s.conn c).fd
    · subst hne
      rw [Function.update_self]
      refine iff_of_false nofun fun hx => hd ?_
      have hd' := (h.kernel (s.conn c).fd d).mpr hx
      rw [(h.kernel (s.conn c).fd c).mpr ⟨hc, hopen, rfl⟩] at hd'
      cases hd'
      rfl
    · rw [Function.update_of_ne hne]
      exact h.kernel x d

theorem handleClose_consistent (h : Consistent s) (hc : c < s.count)
    (hopen : (s.conn c).closed = false) : Consistent (s.handleClose c) := by
  have hkeys : (s.handleClose c).keys = s.keys := congrArg (List.map Prod.fst)
    (handleClose_mConns h c)
  refine ⟨fun x hx => ?_, fun d hd => ?_, fun d hd => ?_, hkeys ▸ h.nodup, fun x => ?_,
    handleClose_kernel h hc hopen⟩
  · rw [kernel_handleClose h hc hopen] at hx
    by_cases hne : x = (s.conn c).fd
    · exact hne ▸ h.established c hc
    · exact h.nonneg x fun hx' => hx ((Function.update_of_ne hne _ _).trans hx')
  · rw [fd_handleClose]
    exact h.established d hd
  · by_cases hd' : d = c
    · subst hd'
      rw [conn_handleClose_self]
      rfl
    · rw [conn_handleClose_of_ne hd']
      exact h.mFd d hd
  · simp only [hkeys, fd_handleClose]
    exact h.keys x

theorem step_consistent (h : Consistent s) (hs : step s l = some s') : Consistent s' := by
  cases l with
  | opened fd =>
    simp only [step] at hs
    split_ifs at hs with hok
    cases hs
    exact setKernel_consistent h (by simp [hok.2]) (by simp) fun _ => hok.1
  | closed fd =>
    simp only [step] at hs
    split_ifs at hs with hok
    cases hs
    exact setKernel_consistent h (by simp [hok]) (by simp) fun hne => absurd rfl hne
  | connected fd =>
    simp only [step] at hs
    split_ifs at hs with hok
    cases hs
    exact connected_consistent h hok
  | handleClose c =>
    simp only [step] at hs
    split_ifs at hs with hok
    cases hs
    exact handleClose_consistent h hok.1 hok.2
  | send msg order =>
    simp only [step] at hs
    split_ifs at hs with hok
    cases hs
    exact ⟨h.nonneg, h.established, h.mFd, h.nodup, h.keys, h.kernel⟩

/-! ## What a send reaches -/

theorem mem_live_iff_kernel (h : Consistent s) :
    c ∈ s.live ↔ s.kernel (s.conn c).fd = some (.connection c) := by
  rw [mem_live, h.kernel, eq_self, and_true]

/-- The keys are the numbers of all connections so far, so that a send covers exactly the live
ones if each of these numbers is that of a live one again. -/
theorem covers_iff (h : Consistent s) {order : List ℤ} (horder : order.Perm s.keys) :
    (order.map s.kernel).Perm (s.live.map fun c => some (.connection c)) ↔ Reused s := by
  have hmem : ∀ fd, fd ∈ order ↔ ∃ c < s.count, (s.conn c).fd = fd := fun fd =>
    horder.mem_iff.trans (h.keys fd)
  constructor
  · intro hperm c hc _
    have hrecipient := hperm.mem_iff.mp (List.mem_map_of_mem ((hmem _).mpr ⟨c, hc, rfl⟩))
    obtain ⟨d, -, hd⟩ := List.mem_map.mp hrecipient
    exact ⟨d, (h.kernel _ d).mp hd.symm⟩
  · intro hreused
    have howner : ∀ fd ∈ order, ∃ d ∈ s.live, s.kernel fd = some (.connection d) := by
      intro fd hfd
      obtain ⟨c, hc, rfl⟩ := (hmem fd).mp hfd
      cases hclosed : (s.conn c).closed with
      | false => exact ⟨c, mem_live.mpr ⟨hc, hclosed⟩, (h.kernel _ c).mpr ⟨hc, hclosed, rfl⟩⟩
      | true =>
        obtain ⟨d, hd, hopen, heq⟩ := hreused c hc hclosed
        exact ⟨d, mem_live.mpr ⟨hd, hopen⟩, (h.kernel _ d).mpr ⟨hd, hopen, heq⟩⟩
    refine (List.perm_ext_iff_of_nodup ?_ ?_).mpr fun o => ?_
    · refine List.Nodup.map_on (fun x hx y hy heq => ?_) (horder.nodup_iff.mpr h.nodup)
      obtain ⟨d, -, hd⟩ := howner x hx
      have hx' := ((h.kernel x d).mp hd).2.2
      rw [heq] at hd
      exact hx'.symm.trans ((h.kernel y d).mp hd).2.2
    · exact (List.nodup_range.filter _).map fun c d heq => by
        cases heq
        rfl
    · simp only [List.mem_map]
      constructor
      · rintro ⟨fd, hfd, rfl⟩
        obtain ⟨d, hd, heq⟩ := howner fd hfd
        exact ⟨d, hd, heq.symm⟩
      · rintro ⟨c, hc, rfl⟩
        exact ⟨(s.conn c).fd, (hmem _).mpr ⟨c, (mem_live.mp hc).1, rfl⟩,
          (mem_live_iff_kernel h).mp hc⟩

theorem step_covered_iff (h : Consistent s) (hs : step s l = some s') :
    Covered s' ↔ Covered s ∧ Fits s l := by
  cases l with
  | send msg order =>
    simp only [step] at hs
    split_ifs at hs with hok
    cases hs
    have hcalls : Covered (s.send msg order) ↔ Covered s ∧
        Call.Covers ⟨msg, order.map s.kernel, s.live⟩ := by
      simp [Covered, TCPClient.send, or_imp, forall_and]
    rw [hcalls]
    exact and_congr_right fun _ => covers_iff h hok
  | opened | closed | connected | handleClose =>
    simp only [step] at hs
    split_ifs at hs
    cases hs
    exact (and_iff_left trivial).symm

theorem start_consistent : Consistent start where
  nonneg _ h := absurd rfl h
  established _ h := absurd h (Nat.not_lt_zero _)
  mFd _ h := absurd h (Nat.not_lt_zero _)
  nodup := List.nodup_nil
  keys _ := iff_of_false List.not_mem_nil fun ⟨_, hc, _⟩ => Nat.not_lt_zero _ hc
  kernel _ _ := iff_of_false nofun fun h => Nat.not_lt_zero _ h.1

/-- Every send of a run covers exactly the live connections if and only if each of them is
called when the numbers of all closed connections are those of live ones again. -/
theorem sends_cover_live_iff (hr : run step start ls = some s) :
    Covered s ↔ Guarded step Fits start ls :=
  guarded_iff (fun _ _ _ h hs => step_consistent h hs) (fun _ _ _ h hs => step_covered_iff h hs)
    start_consistent (fun _ h => absurd h List.not_mem_nil) hr

/-- The second connection has the number of the first one, which the peer has closed. -/
theorem sends_cover_reused_number : ∃ s,
    run step start [.opened 7, .connected 7, .send [1] [7], .handleClose 0, .opened 7,
      .connected 7, .send [2] [7]] = some s ∧
    s.calls = [⟨[1], [some (.connection 0)], [0]⟩, ⟨[2], [some (.connection 1)], [1]⟩] ∧
    Covered s := by
  obtain ⟨s, hs⟩ : ∃ s, run step start [.opened 7, .connected 7, .send [1] [7], .handleClose 0,
      .opened 7, .connected 7, .send [2] [7]] = some s := ⟨_, rfl⟩
  refine ⟨s, hs, ?_, (sends_cover_live_iff hs).mpr (by decide)⟩
  cases hs
  rfl

/-- The peer closes the connection, and a file that the process opens next gets its number: the
message is written to that file. -/
theorem send_reaches_unrelated_file : ∃ s,
    run step start [.opened 7, .connected 7, .handleClose 0, .opened 7, .send [1] [7]] = some s ∧
    s.calls = [⟨[1], [some .elsewhere], []⟩] ∧ ¬ Covered s := by
  refine ⟨_, rfl, rfl, fun h => ?_⟩
  have hcovers : Call.Covers ⟨[1], [some .elsewhere], []⟩ := h _ (List.mem_singleton_self _)
  exact absurd hcovers.length_eq (by decide)

end GenericServer.ClientConnections
