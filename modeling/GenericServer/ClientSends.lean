import GenericServer.ClientConnections

/-!
# What a client sends

`TCPClient::send` of `src/net/TCPClient.h` with `SocketOP::send` of `src/net/Socket.h`. The kernel
takes a prefix of the message for every socket, which may be empty or the whole of it.
-/
namespace GenericServer.ClientSends

open TransitionRuns ClientConnections

/-- `sent` are the messages that have been sent while a connection was open, and `wire` the bytes
that the kernel has taken for its peer. -/
structure Session where
  client : TCPClient
  sent : ℕ → List UInt8
  wire : ℕ → List UInt8

def start : Session := ⟨ClientConnections.start, fun _ => [], fun _ => []⟩

/-- A call, and what `::send` returns for each number in it; nothing is taken where it fails. -/
structure Label where
  call : ClientConnections.Label
  result : ℤ → ℤ

/-- `SocketOP::send(i.first, msg.c_str(), msg.length())`, whose result is logged. -/
def transmit (s : Session) (msg : List UInt8) (result : ℤ → ℤ) (wire : ℕ → List UInt8) (fd : ℤ) :
    ℕ → List UInt8 :=
  match s.client.kernel fd with
  | some (.connection c) => Function.update wire c (wire c ++ msg.take (result fd).toNat)
  | some .elsewhere => wire
  | none => wire

/-- `send(msg)`, which meets the keys of the table in some order. -/
def send (s : Session) (client : TCPClient) (msg : List UInt8) (order : List ℤ)
    (result : ℤ → ℤ) : Session where
  client := client
  sent c := if c ∈ s.client.live then s.sent c ++ msg else s.sent c
  wire := order.foldl (transmit s msg result) s.wire

def step (s : Session) (l : Label) : Option Session :=
  (ClientConnections.step s.client l.call).bind fun client =>
    match l.call with
    | .send msg order =>
      if ∀ fd ∈ order, -1 ≤ l.result fd ∧ l.result fd ≤ msg.length then
        some (send s client msg order l.result)
      else none
    | .opened _ => some { s with client := client }
    | .closed _ => some { s with client := client }
    | .connected _ => some { s with client := client }
    | .handleClose _ => some { s with client := client }

/-- Every peer has received a prefix of what has been sent to it. -/
def Whole (s : Session) : Prop := ∀ c, s.wire c <+: s.sent c

/-- The bytes that a connection has been sent and that the kernel has not taken. -/
def Session.missing (s : Session) (c : ℕ) : List UInt8 := (s.sent c).drop (s.wire c).length

/-- An open connection whose earlier messages were not all taken is given no bytes but the missing
ones, and then those that follow them. -/
def Fits (s : Session) (l : Label) : Prop :=
  match l.call with
  | .send msg _ => ∀ c ∈ s.client.live, s.missing c = [] ∨
    msg.take (l.result (s.client.conn c).fd).toNat <+: s.missing c ++ msg
  | .opened _ => True
  | .closed _ => True
  | .connected _ => True
  | .handleClose _ => True

instance decidableFits (s : Session) (l : Label) : Decidable (Fits s l) :=
  match h : l.call with
  | .send msg _ => decidable_of_iff (∀ c ∈ s.client.live, s.missing c = [] ∨
      msg.take (l.result (s.client.conn c).fd).toNat <+: s.missing c ++ msg) (by rw [Fits, h])
  | .opened _ => isTrue (by rw [Fits, h]; trivial)
  | .closed _ => isTrue (by rw [Fits, h]; trivial)
  | .connected _ => isTrue (by rw [Fits, h]; trivial)
  | .handleClose _ => isTrue (by rw [Fits, h]; trivial)

variable {s s' : Session} {l : Label} {ls : List Label} {c : ℕ}

/-! ## One call -/

theorem live_fd_iff (h : Consistent s.client) (fd : ℤ) : s.client.kernel fd = some (.connection c) ↔
    c ∈ s.client.live ∧ (s.client.conn c).fd = fd := by
  rw [mem_live, h.kernel, and_assoc]

theorem transmit_eq (h : Consistent s.client) (msg : List UInt8) (result : ℤ → ℤ)
    (wire : ℕ → List UInt8) (fd : ℤ) (c : ℕ) : transmit s msg result wire fd c = wire c ++
      if c ∈ s.client.live ∧ (s.client.conn c).fd = fd then msg.take (result fd).toNat else [] := by
  have howner := live_fd_iff (c := c) h fd
  cases hfd : s.client.kernel fd with
  | none =>
    rw [hfd] at howner
    rw [if_neg fun hc => by simpa using howner.mpr hc, List.append_nil]
    simp only [transmit, hfd]
  | some o =>
    rw [hfd] at howner
    cases o with
    | elsewhere =>
      rw [if_neg fun hc => by simpa using howner.mpr hc, List.append_nil]
      simp only [transmit, hfd]
    | connection d =>
      simp only [transmit, hfd]
      by_cases hcd : c = d
      · subst hcd
        rw [Function.update_self, if_pos (howner.mp rfl)]
      · rw [Function.update_of_ne hcd, if_neg fun hc => hcd ?_, List.append_nil]
        cases howner.mpr hc
        rfl

theorem foldl_transmit (h : Consistent s.client) (msg : List UInt8) (result : ℤ → ℤ) (c : ℕ)
    {order : List ℤ} (hnodup : order.Nodup) (wire : ℕ → List UInt8) :
    order.foldl (transmit s msg result) wire c = wire c ++
      if c ∈ s.client.live ∧ (s.client.conn c).fd ∈ order then
        msg.take (result (s.client.conn c).fd).toNat
      else [] := by
  induction order generalizing wire with
  | nil => rw [List.foldl_nil, if_neg fun hc => List.not_mem_nil hc.2, List.append_nil]
  | cons fd order ih =>
    obtain ⟨hfresh, hnodup⟩ := List.nodup_cons.mp hnodup
    rw [List.foldl_cons, ih hnodup, transmit_eq h]
    by_cases hc : c ∈ s.client.live ∧ (s.client.conn c).fd = fd
    · obtain ⟨hlive, rfl⟩ := hc
      rw [if_pos ⟨hlive, rfl⟩, if_neg fun hc => hfresh hc.2, List.append_nil,
        if_pos ⟨hlive, List.mem_cons_self⟩]
    · rw [if_neg hc, List.append_nil]
      refine congrArg _ (if_congr (and_congr_right fun hlive => ?_) rfl rfl)
      rw [List.mem_cons, or_iff_right fun heq => hc ⟨hlive, heq⟩]

theorem send_stream (h : Consistent s.client) (client : TCPClient) (msg : List UInt8)
    {order : List ℤ} (horder : order.Perm s.client.keys) (result : ℤ → ℤ) (c : ℕ) :
    (c ∈ s.client.live ∧ (send s client msg order result).sent c = s.sent c ++ msg ∧
      (send s client msg order result).wire c =
        s.wire c ++ msg.take (result (s.client.conn c).fd).toNat) ∨
    (c ∉ s.client.live ∧ (send s client msg order result).sent c = s.sent c ∧
      (send s client msg order result).wire c = s.wire c) := by
  have hwire := foldl_transmit h msg result c (horder.nodup_iff.mpr h.nodup) s.wire
  by_cases hlive : c ∈ s.client.live
  · have hmem : (s.client.conn c).fd ∈ order :=
      horder.mem_iff.mpr ((h.keys _).mpr ⟨c, (mem_live.mp hlive).1, rfl⟩)
    rw [if_pos ⟨hlive, hmem⟩] at hwire
    exact .inl ⟨hlive, if_pos hlive, hwire⟩
  · rw [if_neg fun hc => hlive hc.1, List.append_nil] at hwire
    exact .inr ⟨hlive, if_neg hlive, hwire⟩

/-! ## Every run -/

structure Inv (s : Session) : Prop where
  consistent : Consistent s.client
  length_le : ∀ c, (s.wire c).length ≤ (s.sent c).length

theorem step_cases (hs : step s l = some s') :
    ClientConnections.step s.client l.call = some s'.client ∧
    ((∃ msg order, l.call = .send msg order ∧ order.Perm s.client.keys ∧
      (∀ fd, fd ∈ order → l.result fd ≤ msg.length) ∧
      s' = send s s'.client msg order l.result) ∨
    (s'.sent = s.sent ∧ s'.wire = s.wire ∧ Fits s l)) := by
  obtain ⟨client, hclient, hs⟩ := Option.bind_eq_some_iff.mp hs
  unfold Fits
  cases hcall : l.call with
  | send msg order =>
    rw [hcall] at hs hclient
    dsimp only at hs
    split_ifs at hs with hresult
    cases hs
    have hperm : order.Perm s.client.keys := by
      simp only [ClientConnections.step] at hclient
      split_ifs at hclient with hok
      exact hok
    exact ⟨hclient, .inl ⟨msg, order, rfl, hperm, fun fd hfd => (hresult fd hfd).2, rfl⟩⟩
  | opened | closed | connected | handleClose =>
    rw [hcall] at hs hclient
    cases hs
    exact ⟨hclient, .inr ⟨rfl, rfl, trivial⟩⟩

theorem step_inv (h : Inv s) (hs : step s l = some s') : Inv s' := by
  obtain ⟨hclient, ⟨msg, order, hcall, horder, hresult, hs'⟩ | ⟨hsent, hwire, -⟩⟩ := step_cases hs
  · refine ⟨ClientConnections.step_consistent h.consistent hclient, fun c => ?_⟩
    have hle := h.length_le c
    rw [hs']
    obtain ⟨-, hsent, hwire⟩ | ⟨-, hsent, hwire⟩ :=
      send_stream h.consistent s'.client msg horder l.result c
    · rw [hsent, hwire, List.length_append, List.length_append, List.length_take]
      omega
    · rw [hsent, hwire]
      exact hle
  · refine ⟨ClientConnections.step_consistent h.consistent hclient, fun c => ?_⟩
    rw [hsent, hwire]
    exact h.length_le c

/-- What has once gone wrong with a stream stays wrong. -/
theorem send_prefix_iff {wire sent msg : List UInt8} {n : ℕ} (hle : wire.length ≤ sent.length) :
    wire ++ msg.take n <+: sent ++ msg ↔ wire <+: sent ∧
      (sent.drop wire.length = [] ∨ msg.take n <+: sent.drop wire.length ++ msg) := by
  have hsplit : wire <+: sent → (wire ++ msg.take n <+: sent ++ msg ↔
      sent.drop wire.length = [] ∨ msg.take n <+: sent.drop wire.length ++ msg) := by
    rintro ⟨rest, rfl⟩
    rw [List.drop_left, List.append_assoc, List.prefix_append_right_inj, or_iff_right_of_imp]
    -- when nothing is missing, the kernel takes the next bytes anyway
    rintro rfl
    exact List.take_prefix n msg
  constructor
  · intro h
    have hwire : wire <+: sent := List.prefix_of_prefix_length_le
      ((List.prefix_append _ _).trans h) (List.prefix_append _ _) hle
    exact ⟨hwire, (hsplit hwire).mp h⟩
  · rintro ⟨hwire, h⟩
    exact (hsplit hwire).mpr h

theorem step_whole_iff (h : Inv s) (hs : step s l = some s') : Whole s' ↔ Whole s ∧ Fits s l := by
  obtain ⟨-, ⟨msg, order, hcall, horder, -, hs'⟩ | ⟨hsent, hwire, hfits⟩⟩ := step_cases hs
  · have hstream := fun c =>
      send_stream h.consistent s'.client msg horder l.result c
    unfold Fits
    rw [hcall, hs']
    constructor
    · intro hwhole
      refine ⟨fun c => ?_, fun c hlive => ?_⟩
      · have hc := hwhole c
        obtain ⟨-, hsent, hwire⟩ | ⟨-, hsent, hwire⟩ := hstream c
        · rw [hsent, hwire] at hc
          exact ((send_prefix_iff (h.length_le c)).mp hc).1
        · rw [hsent, hwire] at hc
          exact hc
      · have hc := hwhole c
        obtain ⟨-, hsent, hwire⟩ | ⟨hclosed, -⟩ := hstream c
        · rw [hsent, hwire] at hc
          exact ((send_prefix_iff (h.length_le c)).mp hc).2
        · exact absurd hlive hclosed
    · rintro ⟨hwhole, hfits⟩ c
      obtain ⟨hlive, hsent, hwire⟩ | ⟨-, hsent, hwire⟩ := hstream c
      · rw [hsent, hwire]
        exact (send_prefix_iff (h.length_le c)).mpr ⟨hwhole c, hfits c hlive⟩
      · rw [hsent, hwire]
        exact hwhole c
  · unfold Whole
    rw [hsent, hwire]
    exact (and_iff_left hfits).symm

theorem inv_start : Inv start where
  consistent := start_consistent
  length_le _ := Nat.le_refl _

/-- In a run every peer has received a prefix of its messages exactly when no call after a short or
refused write lets the kernel take something else than the bytes that are missing. -/
theorem streams_whole_iff (hr : run step start ls = some s) :
    Whole s ↔ Guarded step Fits start ls :=
  guarded_iff (fun _ _ _ h hs => step_inv h hs) (fun _ _ _ h hs => step_whole_iff h hs) inv_start
    (fun _ => List.prefix_rfl) hr

/-- Two messages that the kernel takes as they are. -/
theorem streams_whole_two_messages : ∃ s,
    run step start [⟨.opened 5, fun _ => 0⟩, ⟨.connected 5, fun _ => 0⟩,
      ⟨.send [1, 2] [5], fun _ => 2⟩, ⟨.send [3] [5], fun _ => 1⟩] = some s ∧ Whole s := by
  obtain ⟨s, hs⟩ : ∃ s, run step start [⟨.opened 5, fun _ => 0⟩, ⟨.connected 5, fun _ => 0⟩,
      ⟨.send [1, 2] [5], fun _ => 2⟩, ⟨.send [3] [5], fun _ => 1⟩] = some s := ⟨_, rfl⟩
  exact ⟨s, hs, (streams_whole_iff hs).mpr (by decide)⟩

/-- The kernel takes one byte of the first message and the whole of the second one. -/
theorem short_write_leaves_gap : ∃ s,
    run step start [⟨.opened 5, fun _ => 0⟩, ⟨.connected 5, fun _ => 0⟩,
      ⟨.send [1, 2] [5], fun _ => 1⟩, ⟨.send [3] [5], fun _ => 1⟩] = some s ∧
    s.sent 0 = [1, 2, 3] ∧ s.wire 0 = [1, 3] ∧ ¬ Whole s := by
  refine ⟨_, rfl, rfl, rfl, fun h => ?_⟩
  exact absurd (h 0) (by decide)

end GenericServer.ClientSends
