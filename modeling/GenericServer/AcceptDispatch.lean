import GenericServer.CrossLoopPosting
import Mathlib.Data.Int.CardIntervalMod

/-!
# Accepted connections and the loops of the pool

`TCPServer::onNewConnection` of `src/net/TCPServer.cpp` runs in a handler of the base loop. It takes
the next loop of the pool (`EventLoopThreadPool::getNextLoop`), and `TCPConnection::init` hands the
connected callback to `runInLoop` of that loop. All loops run concurrently (`CrossLoopPosting`) and
may post to each other.
-/
namespace GenericServer.AcceptDispatch

open TransitionRuns PendingFunctors
open CrossLoopPosting (System)

/-- The thread of the base loop. -/
def baseId : ℤ := 0

/-- The thread of the loop with the index `i` in `m_loops`. -/
def workerId (i : ℕ) : ℤ := i + 1

/-- `getNextLoop` for a pool of `size` loops: the new value of `m_nextLoop`. -/
def getNextLoop (size next : ℕ) : ℕ := if next < size - 1 then next + 1 else 0

/-- `accepted` are the connections so far, each with the index of its loop and the number of the
functor of `init` in the record of that loop. -/
structure Server where
  system : System
  mNextLoop : ℕ
  accepted : List (ℕ × ℕ)

def start : Server := ⟨CrossLoopPosting.start, 0, []⟩

/-- `accept` is a call of `onNewConnection` up to the lock in `addPending`; the rest of this call
and everything else is a step of some loop. -/
inductive Label
  | accept
  | loop (j : ℤ) (l : PendingFunctors.Label)
  deriving DecidableEq, Repr

def step (size : ℕ) (s : Server) : Label → Option Server
  | .accept =>
    let i := getNextLoop size s.mNextLoop
    (CrossLoopPosting.step s.system (workerId i, .runInLoop baseId)).map fun system =>
      { system := system
        mNextLoop := i
        accepted := s.accepted ++ [(i, (s.system.loop (workerId i)).posted.length)] }
  | .loop j l =>
    (CrossLoopPosting.step s.system (j, l)).map fun system => { s with system := system }

/-- The functors of the connections on loop `i`, in the order of their acceptance. -/
def assigned (s : Server) (i : ℕ) : List ℕ := (s.accepted.filter (·.1 = i)).map (·.2)

/-- Of a list of functors, the numbers of those that run connected callbacks of loop `i`. -/
def callbacks (s : Server) (i : ℕ) (l : List Functor) : List ℕ :=
  (l.map Functor.id).filter (· ∈ assigned s i)

/-- The thread of the base loop is the only one that posts connections. -/
def fromBase (s : Server) (i : ℕ) (l : List Functor) : List ℕ :=
  callbacks s i (handed baseId .pending l)

variable {size : ℕ} {s s' : Server} {i : ℕ}

structure Dispatched (size : ℕ) (s : Server) : Prop where
  next : s.mNextLoop = s.accepted.length % size
  order : s.accepted.map (·.1) = (List.range s.accepted.length).map fun k => (k + 1) % size
  accounted : ∀ j, Accounted (s.system.loop j) ∧ (s.system.loop j).threadId = j
  posted : ∀ i, fromBase s i (s.system.loop (workerId i)).posted = assigned s i

theorem workerId_ne_baseId (i : ℕ) : baseId ≠ workerId i := by
  unfold baseId workerId
  omega

theorem workerId_injective {i k : ℕ} (h : workerId i = workerId k) : i = k := by
  unfold workerId at h
  omega

theorem dispatched_start (size : ℕ) : Dispatched size start where
  next := (Nat.zero_mod size).symm
  order := rfl
  accounted j := ⟨accounted_start j, rfl⟩
  posted _ := rfl

theorem getNextLoop_mod (hsize : 0 < size) (n : ℕ) :
    getNextLoop size (n % size) = (n + 1) % size := by
  have hlt := Nat.mod_lt n hsize
  rw [show (n + 1) % size = (n % size + 1) % size from (Nat.mod_add_mod n size 1).symm, getNextLoop]
  split_ifs with hnext
  · exact (Nat.mod_eq_of_lt (by omega)).symm
  · rw [show n % size + 1 = size by omega, Nat.mod_self]

theorem posted_of_move {u u' : EventLoop} {l : PendingFunctors.Label} (h : Move u l u') :
    u'.posted = u.posted ∨ ∃ t way, u'.posted = u.posted ++ [call u t way] := by
  cases h with
  | runInLoop | post | pushOwn | pushDuring => exact .inr ⟨_, _, rfl⟩
  | lock | push | wake | ret | quit | loop | leave | goOn | poll | handleEvent | handleWakeup
  | handled | lockPending | next | clear | unlock => exact .inl rfl

theorem system_step {sys sys' : System} {j : ℤ} {l : PendingFunctors.Label}
    (h : CrossLoopPosting.step sys (j, l) = some sys') :
    ∃ u, PendingFunctors.step (sys.loop j) l = some u ∧
      sys'.loop = Function.update sys.loop j u := by
  simp only [CrossLoopPosting.step] at h
  split_ifs at h
  all_goals
    obtain ⟨u, hu, rfl⟩ := Option.map_eq_some_iff.mp h
    exact ⟨u, hu, rfl⟩

theorem Dispatched.loops (h : Dispatched size s) {sys' : System} {j : ℤ}
    {l : PendingFunctors.Label} (hs : CrossLoopPosting.step s.system (j, l) = some sys') (k : ℤ) :
    Accounted (sys'.loop k) ∧ (sys'.loop k).threadId = k := by
  obtain ⟨u, hu, hloop⟩ := system_step hs
  rw [hloop]
  by_cases hk : k = j
  · subst hk
    obtain ⟨hacc, hid⟩ := h.accounted k
    rw [Function.update_self]
    exact ⟨hacc.step hu, (move_of_step hu).threadId.trans hid⟩
  · rw [Function.update_of_ne hk]
    exact h.accounted k

theorem Dispatched.lt_length (h : Dispatched size s) {n : ℕ} (hn : n ∈ assigned s i) :
    n < (s.system.loop (workerId i)).posted.length := by
  rw [← h.posted i] at hn
  obtain ⟨hmem, -⟩ := List.mem_filter.mp hn
  obtain ⟨f, hf, rfl⟩ := List.mem_map.mp hmem
  have hid := List.mem_map_of_mem (f := Functor.id) (List.mem_of_mem_filter hf)
  rw [(h.accounted (workerId i)).1.ids] at hid
  exact List.mem_range.mp hid

theorem fromBase_append (s : Server) (i : ℕ) (l m : List Functor) :
    fromBase s i (l ++ m) = fromBase s i l ++ fromBase s i m := by
  simp [fromBase, callbacks, handed]

theorem fromBase_new (h : Dispatched size s) (t : ℤ) (way : Way) :
    fromBase s i [call (s.system.loop (workerId i)) t way] = [] := by
  have hnew : (call (s.system.loop (workerId i)) t way).id ∉ assigned s i :=
    fun hmem => absurd (h.lt_length hmem) (Nat.lt_irrefl _)
  refine List.filter_eq_nil_iff.mpr fun n hn => ?_
  obtain ⟨f, hf, rfl⟩ := List.mem_map.mp hn
  obtain rfl := List.mem_singleton.mp (List.mem_of_mem_filter hf)
  simpa using hnew

theorem Dispatched.loop (h : Dispatched size s) {j : ℤ} {l : PendingFunctors.Label}
    (hs : step size s (.loop j l) = some s') : Dispatched size s' := by
  obtain ⟨sys', hsys, rfl⟩ := Option.map_eq_some_iff.mp hs
  obtain ⟨u, hu, hloop⟩ := system_step hsys
  refine ⟨h.next, h.order, h.loops hsys, fun i => ?_⟩
  show fromBase s i (sys'.loop (workerId i)).posted = assigned s i
  rw [hloop]
  by_cases hi : workerId i = j
  · subst hi
    rw [Function.update_self]
    rcases posted_of_move (move_of_step hu) with hsame | ⟨t, way, hmore⟩
    · rw [hsame, h.posted]
    · rw [hmore, fromBase_append, fromBase_new h, List.append_nil, h.posted]
  · rw [Function.update_of_ne hi, h.posted]

theorem posted_runInLoop {u u' : EventLoop} {t : ℤ} (ht : t ≠ u.threadId)
    (hs : PendingFunctors.step u (.runInLoop t) = some u') :
    u'.posted = u.posted ++ [call u t .pending] := by
  simp only [PendingFunctors.step, if_neg ht, post] at hs
  split at hs
  · cases hs
    rfl
  · cases hs

theorem fromBase_accept (h : Dispatched size s) {t : Server}
    (ht : assigned t i = assigned s i ++ [(s.system.loop (workerId i)).posted.length]) :
    fromBase t i ((s.system.loop (workerId i)).posted ++
      [call (s.system.loop (workerId i)) baseId .pending]) = assigned t i := by
  have hold : fromBase t i (s.system.loop (workerId i)).posted = assigned s i := by
    rw [← h.posted i]
    refine List.filter_congr fun n hn => ?_
    obtain ⟨f, hf, rfl⟩ := List.mem_map.mp hn
    have hid := List.mem_map_of_mem (f := Functor.id) (List.mem_of_mem_filter hf)
    rw [(h.accounted (workerId i)).1.ids] at hid
    have hlt := List.mem_range.mp hid
    refine decide_eq_decide.mpr ?_
    rw [ht, List.mem_append, List.mem_singleton]
    exact or_iff_left hlt.ne
  have hnew : fromBase t i [call (s.system.loop (workerId i)) baseId .pending] =
      [(s.system.loop (workerId i)).posted.length] := by
    simp [fromBase, callbacks, handed, call, ht]
  rw [fromBase_append, hold, hnew, ht]

theorem Dispatched.accept (hsize : 0 < size) (h : Dispatched size s)
    (hs : step size s .accept = some s') : Dispatched size s' := by
  obtain ⟨sys', hsys, rfl⟩ := Option.map_eq_some_iff.mp hs
  obtain ⟨u, hu, hloop⟩ := system_step hsys
  have hnext : getNextLoop size s.mNextLoop = (s.accepted.length + 1) % size := by
    rw [h.next, getNextLoop_mod hsize]
  refine ⟨?_, ?_, h.loops hsys, fun i => ?_⟩
  · rw [hnext, List.length_append, List.length_singleton]
  · rw [List.map_append, h.order, List.length_append, List.length_singleton, List.range_succ,
      List.map_append, hnext]
    rfl
  · dsimp only
    rw [hloop]
    by_cases hi : i = getNextLoop size s.mNextLoop
    · subst hi
      have hbase : baseId ≠ (s.system.loop (workerId (getNextLoop size s.mNextLoop))).threadId := by
        rw [(h.accounted _).2]
        exact workerId_ne_baseId _
      rw [Function.update_self, posted_runInLoop hbase hu]
      exact fromBase_accept h (by simp [assigned])
    · have hsame : assigned { s with
            system := sys'
            mNextLoop := getNextLoop size s.mNextLoop
            accepted := s.accepted ++ [(getNextLoop size s.mNextLoop,
              (s.system.loop (workerId (getNextLoop size s.mNextLoop))).posted.length)] } i =
          assigned s i := by
        simp [assigned, Ne.symm hi]
      rw [Function.update_of_ne fun hid => hi (workerId_injective hid), hsame, ← h.posted i]
      refine List.filter_congr fun n _ => ?_
      rw [hsame]

theorem Dispatched.step (hsize : 0 < size) {l : Label} (h : Dispatched size s)
    (hs : AcceptDispatch.step size s l = some s') : Dispatched size s' := by
  cases l with
  | accept => exact h.accept hsize hs
  | loop j l => exact h.loop hs

/-! ## What a loop has executed -/

theorem fromBase_eq_callbacks (h : Dispatched size s) {l : List Functor}
    (hl : ∀ f ∈ l, f ∈ (s.system.loop (workerId i)).posted) : fromBase s i l = callbacks s i l := by
  obtain ⟨hacc, -⟩ := h.accounted (workerId i)
  have hinj : ∀ f ∈ (s.system.loop (workerId i)).posted, f.id ∈ assigned s i →
      f.tid = baseId ∧ f.way = .pending := by
    intro f hf hid
    rw [← h.posted i] at hid
    obtain ⟨hmem, -⟩ := List.mem_filter.mp hid
    obtain ⟨g, hg, hgid⟩ := List.mem_map.mp hmem
    obtain ⟨hgposted, hgbase⟩ := List.mem_filter.mp hg
    have hnodup : ((s.system.loop (workerId i)).posted.map Functor.id).Nodup := by
      rw [hacc.ids]
      exact List.nodup_range
    obtain rfl := List.inj_on_of_nodup_map hnodup hgposted hf hgid
    simpa using hgbase
  unfold fromBase callbacks handed
  induction l with
  | nil => rfl
  | cons f l ih =>
    have hrest := ih fun g hg => hl g (List.mem_cons_of_mem f hg)
    by_cases hid : f.id ∈ assigned s i
    · obtain ⟨htid, hway⟩ := hinj f (hl f (List.mem_cons_self ..)) hid
      simp only [List.filter_cons, htid, hway, and_self, decide_true, if_true, List.map_cons, hid,
        hrest]
    · by_cases hbase : f.tid = baseId ∧ f.way = .pending
      · simp only [List.filter_cons, hbase, and_self, decide_true, if_true, List.map_cons, hid,
          decide_false, Bool.false_eq_true, if_false, hrest]
      · simp only [List.filter_cons, hbase, decide_false, Bool.false_eq_true, if_false,
          List.map_cons, hid, hrest]

/-- The functors of the base thread that wait for the `doPending` of loop `i`, and the one that it
is about to push. -/
def outstanding (s : Server) (i : ℕ) : List Functor :=
  handed baseId .pending (waiting (s.system.loop (workerId i))) ++
    handed baseId .pending ((s.system.loop (workerId i)).poster baseId).inFlight

/-- The number of connections on a loop: the round starts at index 1. -/
theorem assigned_length (hsize : 0 < size) (h : Dispatched size s) (hi : i < size) :
    (assigned s i).length + (if i = 0 then 1 else 0) = (s.accepted.length + 1) / size +
      if i < (s.accepted.length + 1) % size then 1 else 0 := by
  have hround : ∀ k, k ≡ i [MOD size] ↔ k % size = i := fun k => by
    rw [Nat.ModEq, Nat.mod_eq_of_lt hi]
  have hcount : (assigned s i).length =
      s.accepted.length.count fun k => k + 1 ≡ i [MOD size] := by
    calc (assigned s i).length = (s.accepted.map (·.1)).countP (· = i) := by
          rw [assigned, List.length_map, List.countP_map, List.countP_eq_length_filter]
          rfl
      _ = s.accepted.length.count fun k => k + 1 ≡ i [MOD size] := by
          rw [h.order, List.countP_map, Nat.count]
          refine List.countP_congr fun k _ => ?_
          simp [hround]
  have hall := Nat.count_modEq_card (s.accepted.length + 1) hsize i
  have hzero : (0 ≡ i [MOD size]) ↔ i = 0 := by
    rw [hround, Nat.zero_mod, eq_comm]
  rw [Nat.count_succ', Nat.mod_eq_of_lt hi, ← hcount] at hall
  simpa only [hzero] using hall

/-- Behind any run of the server and its loops: the `k`-th connection was given to the loop with
the index `(k + 1) % size`, so that no loop has two connections more than another one. The
connected callbacks that a loop has run are those of its first connections, in the order of
acceptance and none twice; the others wait for its `doPending`. -/
theorem dispatch_in_order (hsize : 0 < size) {ls : List Label}
    (hr : run (step size) start ls = some s) :
    (s.accepted.map (·.1) = (List.range s.accepted.length).map fun k => (k + 1) % size) ∧
      (∀ i k, i < size → k < size → (assigned s i).length ≤ (assigned s k).length + 1) ∧
      ∀ i, callbacks s i (s.system.loop (workerId i)).executed ++
          callbacks s i (outstanding s i) = assigned s i ∧
        (s.system.loop (workerId i)).executed.Nodup := by
  have h : Dispatched size s :=
    run_invariant (fun _ _ _ h hs => h.step hsize hs) (dispatched_start size) hr
  refine ⟨h.order, fun i k hi hk => ?_, fun i => ?_⟩
  · have hleft := assigned_length hsize h hi
    have hright := assigned_length hsize h hk
    split_ifs at hleft hright <;> omega
  · obtain ⟨hacc, -⟩ := h.accounted (workerId i)
    have honce := hacc.exactlyOnce
    have hwaiting : ∀ f ∈ outstanding s i, f ∈ (s.system.loop (workerId i)).posted := by
      intro f hf
      have hmem : f ∈ handed baseId .pending (s.system.loop (workerId i)).posted := by
        rw [hacc.ordered baseId, List.append_assoc]
        exact List.mem_append_right _ hf
      exact List.mem_of_mem_filter hmem
    refine ⟨?_, honce.once⟩
    rw [← fromBase_eq_callbacks h honce.known, ← fromBase_eq_callbacks h hwaiting, ← h.posted i]
    unfold fromBase
    rw [hacc.ordered baseId, outstanding]
    simp [callbacks, handed]

def threeConnections : List Label :=
  [.loop 1 .loop, .loop 2 .loop, .accept, .loop 2 (.lock 0), .loop 2 (.push 0 0), .loop 2 (.wake 0),
    .accept, .loop 1 (.lock 0), .loop 1 (.push 0 0), .loop 1 (.wake 0), .loop 2 .test,
    .loop 2 (.poll true false), .loop 2 .handleWakeup, .loop 2 .handled, .loop 2 .lockPending,
    .loop 2 .next, .accept]

theorem dispatch_in_order_three : ∃ s, run (step 2) start threeConnections = some s ∧
    s.accepted.map (·.1) = [1, 0, 1] ∧ assigned s 0 = [0] ∧ assigned s 1 = [0, 1] ∧
      callbacks s 0 (s.system.loop (workerId 0)).executed = [] ∧
      callbacks s 1 (s.system.loop (workerId 1)).executed = [0] ∧
    (s.accepted.map (·.1) = (List.range s.accepted.length).map fun k => (k + 1) % 2) ∧
      (∀ i k, i < 2 → k < 2 → (assigned s i).length ≤ (assigned s k).length + 1) ∧
      ∀ i, callbacks s i (s.system.loop (workerId i)).executed ++
          callbacks s i (outstanding s i) = assigned s i ∧
        (s.system.loop (workerId i)).executed.Nodup := by
  obtain ⟨s, hs⟩ : ∃ s, run (step 2) start threeConnections = some s := ⟨_, rfl⟩
  have hconcrete : s.accepted.map (·.1) = [1, 0, 1] ∧ assigned s 0 = [0] ∧
      assigned s 1 = [0, 1] ∧ callbacks s 0 (s.system.loop (workerId 0)).executed = [] ∧
      callbacks s 1 (s.system.loop (workerId 1)).executed = [0] := by
    cases hs
    exact ⟨rfl, rfl, rfl, rfl, rfl⟩
  obtain ⟨horder, hzero, hone, hnone, hfirst⟩ := hconcrete
  exact ⟨s, hs, horder, hzero, hone, hnone, hfirst, dispatch_in_order Nat.zero_lt_two hs⟩

end GenericServer.AcceptDispatch
