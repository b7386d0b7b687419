import GenericServer.LoopThreads

/-!
# The idle tables of the echo server

`EchoServer` (`example/EchoServer.h`) with at least one worker: the constructor gives every worker
loop a timer that ticks the table under the thread id of the loop, and the connections of a loop
look their table up under that id again. The workers are not waited for, and may be anywhere
before `loop()` when their id is read.
-/
namespace GenericServer.EchoServerTables

open TransitionRuns LoopThreads

/-- A connection of the loop looks its table up under `key`. -/
structure Use where
  loop : ℕ
  key : Thread
  present : Bool
  deriving DecidableEq, Repr

/-- `ids` are the ids that the constructor has read, loop by loop, and `added` counts its calls of
`addTimer`; the timer of loop `i` ticks the table under `ids[i]`. A loop is listed in `connecting`
for each of its connections whose `onConnected` is running. -/
structure EchoServer where
  pool : Pool
  ids : List Thread
  added : ℕ
  mIdleConnsMap : List Thread
  connecting : List ℕ
  uses : List Use

/-- Behind `m_server.init()` has constructed the pool of `size` workers. -/
def start (size : ℕ) : EchoServer := ⟨LoopThreads.start size true, [], 0, [], [], []⟩

inductive Label
  | background (l : LoopThreads.Label)
  | getThreadId
  | addTimer
  | accept (i : ℕ)
  | doPending (i : ℕ)
  | onConnected (i : ℕ)
  | onMessage (i : ℕ)
  deriving DecidableEq, Repr

/-- What goes on in the pool besides: the threads are started, calls go on behind their first
test, and the connections of the workers change their events. -/
def background : LoopThreads.Label → Bool
  | .operation (.worker _) _ op => op = .addEvent ∨ op = .modifyEvent ∨ op = .removeEvent
  | .operation .starter _ _ => false
  | .doPending _ => false
  | _ => true

namespace EchoServer

/-- There is a table under the key, a new one if need be. -/
def insert (s : EchoServer) (key : Thread) : EchoServer :=
  { s with mIdleConnsMap := if key ∈ s.mIdleConnsMap then s.mIdleConnsMap
      else s.mIdleConnsMap ++ [key] }

/-- A connection of loop `i` asks for the id of the loop and takes the table. -/
def use (s : EchoServer) (i : ℕ) : EchoServer :=
  let key := (s.pool.loop i).mThreadId
  { s.insert key with uses := s.uses ++ [⟨i, key, key ∈ s.mIdleConnsMap⟩] }

/-- The loops with a timer that ticks the table under `key`. -/
def tickers (s : EchoServer) (key : Thread) : List ℕ :=
  (List.range s.added).filter fun i => s.ids[i]? = some key

end EchoServer

/-- The listening socket is served behind the constructor, by its thread. `init()` of the
connection posts the functor that calls `onConnected`; a loop that takes the caller for its own
thread has it executed at once. -/
def step (s : EchoServer) : Label → Option EchoServer
  | .background l =>
    if background l then (LoopThreads.step s.pool l).map fun p => { s with pool := p } else none
  | .getThreadId =>
    if s.pool.pc = .running ∧ s.pool.call .starter = none ∧ s.ids.length = s.added ∧
        s.added < s.pool.size then
      some { s with ids := s.ids ++ [(s.pool.loop s.added).mThreadId] }
    else none
  | .addTimer =>
    match s.ids.drop s.added with
    | [tid] =>
      (LoopThreads.step s.pool (.operation .starter s.added .addTimer)).map fun p =>
        { s.insert tid with pool := p, added := s.added + 1 }
    | _ => none
  | .accept i =>
    if s.added = s.pool.size then
      (LoopThreads.step s.pool (.operation .starter i .runInLoop)).map fun p =>
        { s with
          pool := p
          connecting := if s.pool.isInLoopThread i .starter then s.connecting ++ [i]
            else s.connecting }
    else none
  | .doPending i =>
    (LoopThreads.step s.pool (.doPending i)).map fun p =>
      { s with
        pool := p
        connecting := if (s.pool.loop i).pending.head? = some .runInLoop then s.connecting ++ [i]
          else s.connecting }
  | .onConnected i =>
    if i ∈ s.connecting then some ({ s with connecting := s.connecting.erase i }.use i) else none
  | .onMessage i =>
    if (s.pool.loop i).phase = .looping ∧ s.uses.any (fun u => u.loop = i) then some (s.use i)
    else none

/-- The worker has called `setThreadId` before the constructor reads the id of the loop. -/
def ReadFits (s : EchoServer) : Label → Prop
  | .getThreadId => (s.pool.loop s.added).phase = .looping
  | _ => True

def Armed (p : Pool) (i : ℕ) : Prop := (i, .worker i, .addTimer) ∈ p.executed

/-- A connection finds its table, and the table is ticked, by the timer of its own loop and by no
other one. -/
def Ticked (s : EchoServer) (u : Use) : Prop :=
  u.present = true ∧ s.tickers u.key = [u.loop] ∧ Armed s.pool u.loop

/-! ## What is posted to a loop -/

/-- The operations that are executed before the timer. -/
def ahead (ops : List Operation) : List Operation := ops.takeWhile (· ≠ .addTimer)

theorem not_mem_ahead_append {ops : List Operation} {op : Operation}
    (h : .runInLoop ∉ ahead ops) (hop : op = .runInLoop → .addTimer ∈ ops) :
    .runInLoop ∉ ahead (ops ++ [op]) := by
  unfold ahead at h ⊢
  rw [List.takeWhile_append]
  split_ifs with hall
  · -- there is no timer in the queue
    have hnone : ∀ x ∈ ops, x ≠ .addTimer := by
      intro x hx
      have hsame : ops.takeWhile (· ≠ .addTimer) = ops :=
        (List.takeWhile_prefix _).eq_of_length hall
      rw [← hsame] at hx
      simpa using List.all_eq_true.mp (List.all_takeWhile ..) x hx
    intro hmem
    rcases List.mem_append.mp hmem with hold | hnew
    · exact h (by rwa [(List.takeWhile_prefix _).eq_of_length hall])
    · have hself := List.mem_singleton.mp ((List.takeWhile_prefix _).subset hnew)
      exact hnone _ (hop hself.symm) rfl
  · exact h

theorem not_mem_ahead_tail {ops : List Operation} {op : Operation}
    (h : .runInLoop ∉ ahead (op :: ops)) (hop : op ≠ .addTimer) :
    op ≠ .runInLoop ∧ .runInLoop ∉ ahead ops := by
  rw [ahead, List.takeWhile_cons_of_pos (by simpa using hop), List.mem_cons, not_or] at h
  exact ⟨fun hself => h.1 hself.symm, h.2⟩

section Updates

variable {p : Pool} {t u : Thread} {i j : ℕ}

theorem setCall_self (p : Pool) (t : Thread) (c : Option Call) : (p.setCall t c).call t = c :=
  Function.update_self ..

theorem setCall_of_ne (h : u ≠ t) (c : Option Call) : (p.setCall t c).call u = p.call u :=
  Function.update_of_ne h ..

theorem setLoop_self (p : Pool) (i : ℕ) (l : EventLoop) : (p.setLoop i l).loop i = l :=
  Function.update_self ..

theorem setLoop_of_ne (h : j ≠ i) (l : EventLoop) : (p.setLoop i l).loop j = p.loop j :=
  Function.update_of_ne h ..

theorem pending_setLoop {l : EventLoop} (h : l.pending = (p.loop i).pending) (j : ℕ) :
    ((p.setLoop i l).loop j).pending = (p.loop j).pending := by
  by_cases hj : j = i
  · subst hj
    rw [setLoop_self, h]
  · rw [setLoop_of_ne hj]

end Updates

/-- The starting thread posts the timer of a loop before any connection. -/
structure Posted (p : Pool) (added : ℕ) : Prop where
  timer : ∀ i, i < added → Armed p i ∨ .addTimer ∈ (p.loop i).pending ∨
    p.call .starter = some (.pushing i .addTimer)
  order : ∀ i, Armed p i ∨ .runInLoop ∉ ahead (p.loop i).pending
  posting : ∀ i, p.call .starter = some (.pushing i .runInLoop) →
    i < added ∧ (Armed p i ∨ .addTimer ∈ (p.loop i).pending)
  bound : ∀ i, .runInLoop ∈ (p.loop i).pending → i < added
  workers : ∀ k i, p.call (.worker k) ≠ some (.pushing i .runInLoop)

namespace Posted

variable {p p' : Pool} {added i : ℕ}

theorem start (size : ℕ) : Posted (LoopThreads.start size true) 0 where
  timer _ h := absurd h (Nat.not_lt_zero _)
  order _ := .inr List.not_mem_nil
  posting _ h := by cases h
  bound _ h := absurd h List.not_mem_nil
  workers _ _ h := by cases h

theorem congr (h : Posted p added) (hpending : ∀ i, (p'.loop i).pending = (p.loop i).pending)
    (hcall : p'.call = p.call) (hgrow : p.executed ⊆ p'.executed) : Posted p' added where
  timer i hi := by
    rw [hpending, hcall]
    exact (h.timer i hi).imp_left fun harmed => hgrow harmed
  order i := by
    rw [hpending]
    exact (h.order i).imp_left fun harmed => hgrow harmed
  posting i hc := by
    rw [hpending]
    rw [hcall] at hc
    exact (h.posting i hc).imp_right (Or.imp_left fun harmed => hgrow harmed)
  bound i hi := by
    rw [hpending] at hi
    exact h.bound i hi
  workers k i hc := by
    rw [hcall] at hc
    exact h.workers k i hc

theorem setCall_worker (h : Posted p added) (k : ℕ) {c : Option Call}
    (hc : ∀ i, c ≠ some (.pushing i .runInLoop)) : Posted (p.setCall (.worker k) c) added where
  timer i hi := by
    rw [setCall_of_ne (by simp)]
    exact h.timer i hi
  order := h.order
  posting i hi := by
    rw [setCall_of_ne (by simp)] at hi
    exact h.posting i hi
  bound := h.bound
  workers j i := by
    by_cases hj : j = k
    · rw [hj, setCall_self]
      exact hc i
    · rw [setCall_of_ne (by simpa using hj)]
      exact h.workers j i

theorem mem_pending_push (p : Pool) (i j : ℕ) (op : Operation) {x : Operation}
    (hx : x ∈ (p.loop j).pending) :
    x ∈ ((p.setLoop i { p.loop i with pending := (p.loop i).pending ++ [op] }).loop j).pending := by
  by_cases hj : j = i
  · subst hj
    rw [setLoop_self]
    exact List.mem_append_left _ hx
  · rwa [setLoop_of_ne hj]

theorem addPending (h : Posted p added) {t : Thread} {op : Operation}
    (hc : p.call t = some (.pushing i op)) :
    Posted ((p.setLoop i { p.loop i with pending := (p.loop i).pending ++ [op] }).setCall t
      (some (.waking i))) added where
  timer j hj := by
    rcases h.timer j hj with harmed | htimer | hpushing
    · exact .inl harmed
    · exact .inr (.inl (mem_pending_push p i j op htimer))
    · by_cases ht : t = .starter
      · subst ht
        cases hc.symm.trans hpushing
        refine .inr (.inl ?_)
        change _ ∈ ((p.setLoop i _).loop i).pending
        rw [setLoop_self]
        exact List.mem_append_right _ (List.mem_singleton_self _)
      · rw [setCall_of_ne (Ne.symm ht)]
        exact .inr (.inr hpushing)
  order j := by
    change Armed p j ∨ _ ∉ ahead ((p.setLoop i _).loop j).pending
    by_cases hj : j = i
    · subst hj
      rw [setLoop_self]
      rcases h.order j with harmed | hahead
      · exact .inl harmed
      · by_cases hop : op = .runInLoop
        · subst hop
          cases t with
          | starter =>
            exact (h.posting j hc).2.imp_right fun htimer =>
              not_mem_ahead_append hahead fun _ => htimer
          | worker k => exact absurd hc (h.workers k j)
        · exact .inr (not_mem_ahead_append hahead fun hrun => absurd hrun hop)
    · rw [setLoop_of_ne hj]
      exact h.order j
  posting j hj := by
    by_cases ht : t = .starter
    · subst ht
      rw [setCall_self] at hj
      cases hj
    · rw [setCall_of_ne (Ne.symm ht)] at hj
      exact (h.posting j hj).imp_right (Or.imp_right fun htimer =>
        mem_pending_push p i j op htimer)
  bound j hj := by
    change _ ∈ ((p.setLoop i _).loop j).pending at hj
    by_cases hji : j = i
    · subst hji
      rw [setLoop_self] at hj
      rcases List.mem_append.mp hj with hold | hnew
      · exact h.bound j hold
      · cases List.mem_singleton.mp hnew
        cases t with
        | starter => exact (h.posting j hc).1
        | worker k => exact absurd hc (h.workers k j)
    · rw [setLoop_of_ne hji] at hj
      exact h.bound j hj
  workers k j hj := by
    by_cases ht : t = .worker k
    · subst ht
      rw [setCall_self] at hj
      cases hj
    · rw [setCall_of_ne (Ne.symm ht)] at hj
      exact h.workers k j hj

theorem wakeup (h : Posted p added) {t : Thread} (hc : p.call t = some (.waking i)) :
    Posted (p.setCall t none) added where
  timer j hj := by
    by_cases ht : t = .starter
    · subst ht
      rcases h.timer j hj with harmed | htimer | hpushing
      · exact .inl harmed
      · exact .inr (.inl htimer)
      · cases hc.symm.trans hpushing
    · rw [setCall_of_ne (Ne.symm ht)]
      exact h.timer j hj
  order := h.order
  posting j hj := by
    by_cases ht : t = .starter
    · subst ht
      rw [setCall_self] at hj
      cases hj
    · rw [setCall_of_ne (Ne.symm ht)] at hj
      exact h.posting j hj
  bound := h.bound
  workers k j hj := by
    by_cases ht : t = .worker k
    · subst ht
      rw [setCall_self] at hj
      cases hj
    · rw [setCall_of_ne (Ne.symm ht)] at hj
      exact h.workers k j hj

theorem addTimer (h : Posted p added) (hidle : p.call .starter = none) :
    Posted (p.setCall .starter (some (.pushing added .addTimer))) (added + 1) where
  timer j hj := by
    rw [setCall_self]
    rcases Nat.lt_succ_iff_lt_or_eq.mp hj with hold | rfl
    · rcases h.timer j hold with harmed | htimer | hpushing
      · exact .inl harmed
      · exact .inr (.inl htimer)
      · rw [hidle] at hpushing
        cases hpushing
    · exact .inr (.inr rfl)
  order := h.order
  posting j hj := by
    rw [setCall_self] at hj
    cases hj
  bound j hj := Nat.lt_succ_of_lt (h.bound j hj)
  workers k j := by
    rw [setCall_of_ne (by simp)]
    exact h.workers k j

theorem accept (h : Posted p added) (hidle : p.call .starter = none) (hi : i < added) :
    Posted (p.setCall .starter (some (.pushing i .runInLoop))) added := by
  have htimer : ∀ j, j < added → Armed p j ∨ .addTimer ∈ (p.loop j).pending := by
    intro j hj
    rcases h.timer j hj with harmed | htimer | hpushing
    · exact .inl harmed
    · exact .inr htimer
    · rw [hidle] at hpushing
      cases hpushing
  refine ⟨fun j hj => (htimer j hj).imp_right .inl, h.order, fun j hj => ?_, h.bound,
    fun k j => ?_⟩
  · rw [setCall_self] at hj
    cases hj
    exact ⟨hi, htimer i hi⟩
  · rw [setCall_of_ne (by simp)]
    exact h.workers k j

theorem doPending (h : Posted p added) {op : Operation} {rest : List Operation}
    (hpending : (p.loop i).pending = op :: rest) :
    Posted { p.setLoop i { p.loop i with pending := rest } with
        executed := p.executed ++ [(i, .worker i, op)] } added ∧
      (op = .runInLoop → i < added ∧ Armed p i) := by
  have hgrow : ∀ j, Armed p j → (j, .worker j, .addTimer) ∈ p.executed ++ [(i, .worker i, op)] :=
    fun j harmed => List.mem_append_left _ harmed
  -- a timer is either executed now or stays in its queue
  have htimer : ∀ j, .addTimer ∈ (p.loop j).pending →
      (j, .worker j, .addTimer) ∈ p.executed ++ [(i, .worker i, op)] ∨
        .addTimer ∈ ((p.setLoop i { p.loop i with pending := rest }).loop j).pending := by
    intro j hmem
    by_cases hj : j = i
    · subst hj
      rw [setLoop_self]
      rw [hpending] at hmem
      rcases List.mem_cons.mp hmem with rfl | hrest
      · exact .inl (List.mem_append_right _ (List.mem_singleton_self _))
      · exact .inr hrest
    · rw [setLoop_of_ne hj]
      exact .inr hmem
  refine ⟨⟨fun j hj => ?_, fun j => ?_, fun j hj => ?_, fun j hj => ?_, h.workers⟩,
    fun hop => ?_⟩
  · rcases h.timer j hj with harmed | hmem | hpushing
    · exact .inl (hgrow j harmed)
    · exact (htimer j hmem).imp_right .inl
    · exact .inr (.inr hpushing)
  · change (j, _, _) ∈ _ ∨ _ ∉ ahead ((p.setLoop i _).loop j).pending
    rcases h.order j with harmed | hahead
    · exact .inl (hgrow j harmed)
    · by_cases hj : j = i
      · subst hj
        rw [setLoop_self]
        rw [hpending] at hahead
        by_cases hop : op = .addTimer
        · subst hop
          exact .inl (List.mem_append_right _ (List.mem_singleton_self _))
        · exact .inr (not_mem_ahead_tail hahead hop).2
      · rw [setLoop_of_ne hj]
        exact .inr hahead
  · obtain ⟨hbound, harmed | hmem⟩ := h.posting j hj
    · exact ⟨hbound, .inl (hgrow j harmed)⟩
    · exact ⟨hbound, htimer j hmem⟩
  · change _ ∈ ((p.setLoop i _).loop j).pending at hj
    by_cases hji : j = i
    · subst hji
      rw [setLoop_self] at hj
      exact h.bound j (hpending ▸ List.mem_cons_of_mem _ hj)
    · rw [setLoop_of_ne hji] at hj
      exact h.bound j hj
  · subst hop
    refine ⟨h.bound i (hpending ▸ List.mem_cons_self), ?_⟩
    rcases h.order i with harmed | hahead
    · exact harmed
    · rw [hpending] at hahead
      exact absurd rfl (not_mem_ahead_tail hahead (by simp)).1

theorem background (h : Posted p added) {l : LoopThreads.Label}
    (hl : EchoServerTables.background l = true) (hs : LoopThreads.step p l = some p') :
    Posted p' added := by
  cases l with
  | create =>
    simp only [LoopThreads.step] at hs
    split at hs
    · split_ifs at hs
      · cases hs
        exact h.congr (pending_setLoop rfl) rfl (List.Subset.refl _)
      · cases hs
        exact h.congr (fun _ => rfl) rfl (List.Subset.refl _)
      · cases hs
        exact h.congr (fun _ => rfl) rfl (List.Subset.refl _)
    · cases hs
  | testJoinable =>
    simp only [LoopThreads.step] at hs
    split at hs
    · split_ifs at hs
      all_goals
        cases hs
        exact h.congr (fun _ => rfl) rfl (List.Subset.refl _)
    · cases hs
  | setThreadId i =>
    simp only [LoopThreads.step] at hs
    split_ifs at hs
    cases hs
    exact h.congr (pending_setLoop rfl) rfl (List.Subset.refl _)
  | operation t i op =>
    cases t with
    | starter => cases hl
    | worker k =>
      have hevent : op ≠ .runInLoop := by
        rintro rfl
        cases hl
      simp only [LoopThreads.step] at hs
      split_ifs at hs with hcall hin
      · cases hs
        exact h.congr (fun _ => rfl) rfl (List.subset_append_left ..)
      · cases hs
        have htest : Posted (p.test i (.worker k)) added :=
          h.congr (fun _ => rfl) rfl (List.Subset.refl _)
        refine htest.setCall_worker k fun j hj => ?_
        cases hj
        exact hevent rfl
  | addPending t =>
    simp only [LoopThreads.step] at hs
    split at hs
    · rename_i i op hc
      cases hs
      exact (h.addPending hc).congr (fun _ => rfl) rfl (List.Subset.refl _)
    · cases hs
  | wakeup t =>
    simp only [LoopThreads.step] at hs
    split at hs
    · rename_i i hc
      cases hs
      exact (h.wakeup hc).congr (fun _ => rfl) rfl (List.Subset.refl _)
    · cases hs
  | doPending i => cases hl

end Posted

/-! ## A constructor that reads the ids in time -/

theorem filter_range_eq {n i : ℕ} (h : i < n) :
    (List.range n).filter (fun j => decide (j = i)) = [i] := by
  induction n with
  | zero => exact absurd h (Nat.not_lt_zero _)
  | succ n ih =>
    rw [List.range_succ, List.filter_append]
    rcases Nat.lt_succ_iff_lt_or_eq.mp h with hlt | rfl
    · rw [ih hlt, List.filter_cons_of_neg (by simpa using Nat.ne_of_gt hlt), List.filter_nil]
      rfl
    · rw [List.filter_eq_nil_iff.mpr, List.filter_cons_of_pos (by simp), List.filter_nil]
      · rfl
      · intro j hj
        simpa using Nat.ne_of_lt (List.mem_range.mp hj)

/-- Workers stay in their loops, and no step of the pool forgets what has been executed. -/
structure Grows (p p' : Pool) : Prop where
  size : p'.size = p.size
  looping : ∀ i, (p.loop i).phase = .looping → (p'.loop i).phase = .looping
  executed : p.executed ⊆ p'.executed

namespace Grows

variable {p p' : Pool} {i : ℕ}

theorem setLoop (p : Pool) (i : ℕ) {x : EventLoop}
    (hx : (p.loop i).phase = .looping → x.phase = .looping) : Grows p (p.setLoop i x) where
  size := rfl
  looping j hj := by
    by_cases hji : j = i
    · subst hji
      rw [setLoop_self]
      exact hx hj
    · rwa [setLoop_of_ne hji]
  executed := List.Subset.refl _

theorem step {l : LoopThreads.Label} (hs : LoopThreads.step p l = some p') : Grows p p' := by
  cases l with
  | create =>
    simp only [LoopThreads.step] at hs
    split at hs
    · rename_i i hpc
      split_ifs at hs with hi habsent
      · cases hs
        have hloop := setLoop p i (x := { p.loop i with phase := .created }) fun hphase => by
          rw [habsent] at hphase
          cases hphase
        exact ⟨rfl, hloop.looping, hloop.executed⟩
      · cases hs
        exact ⟨rfl, fun _ => id, List.Subset.refl _⟩
      · cases hs
        exact ⟨rfl, fun _ => id, List.Subset.refl _⟩
    · cases hs
  | testJoinable =>
    simp only [LoopThreads.step] at hs
    split at hs
    · split_ifs at hs
      all_goals
        cases hs
        exact ⟨rfl, fun _ => id, List.Subset.refl _⟩
    · cases hs
  | setThreadId i =>
    simp only [LoopThreads.step] at hs
    split_ifs at hs
    cases hs
    exact setLoop p i fun _ => rfl
  | operation t i op =>
    simp only [LoopThreads.step] at hs
    split_ifs at hs
    · cases hs
      exact ⟨rfl, fun _ => id, List.subset_append_left ..⟩
    · cases hs
      exact ⟨rfl, fun _ => id, List.Subset.refl _⟩
  | addPending t =>
    simp only [LoopThreads.step] at hs
    split at hs
    · rename_i i op hc
      cases hs
      have hloop := setLoop p i
        (x := { p.loop i with pending := (p.loop i).pending ++ [op] }) id
      exact ⟨rfl, hloop.looping, hloop.executed⟩
    · cases hs
  | wakeup t =>
    simp only [LoopThreads.step] at hs
    split at hs
    · cases hs
      exact ⟨rfl, fun _ => id, List.Subset.refl _⟩
    · cases hs
  | doPending i =>
    simp only [LoopThreads.step] at hs
    split at hs
    · rename_i op rest hphase hpending
      cases hs
      have hloop := setLoop p i (x := { p.loop i with pending := rest }) id
      exact ⟨rfl, hloop.looping, List.subset_append_left ..⟩
    · cases hs

end Grows

def InTime (s : EchoServer) : Prop := s.ids = (List.range s.ids.length).map .worker

/-- While all ids have been read in time, every connection is posted behind the timer of its loop
and finds its table. -/
structure Settled (s : EchoServer) : Prop where
  owned : Owned s.pool
  inTime : InTime s
  added_le : s.added ≤ s.ids.length
  le_size : s.ids.length ≤ s.pool.size
  looping : ∀ i < s.ids.length, (s.pool.loop i).phase = .looping
  tables : ∀ i < s.added, .worker i ∈ s.mIdleConnsMap
  posted : Posted s.pool s.added
  connecting : ∀ i ∈ s.connecting, i < s.added ∧ Armed s.pool i
  uses : ∀ u ∈ s.uses, u.loop < s.added ∧ u.key = .worker u.loop ∧ u.present = true ∧
    Armed s.pool u.loop

variable {s s' : EchoServer} {i : ℕ}

theorem settled_start (size : ℕ) : Settled (start size) where
  owned := owned_start size true
  inTime := rfl
  added_le := Nat.le_refl _
  le_size := Nat.zero_le _
  looping _ h := absurd h (Nat.not_lt_zero _)
  tables _ h := absurd h (Nat.not_lt_zero _)
  posted := Posted.start size
  connecting _ h := absurd h List.not_mem_nil
  uses _ h := absurd h List.not_mem_nil

namespace Settled

theorem setPool (h : Settled s) {p : Pool} (hgrows : Grows s.pool p) (howned : Owned p)
    (hposted : Posted p s.added) {connecting : List ℕ}
    (hconnecting : ∀ i ∈ connecting, i ∈ s.connecting ∨ i < s.added ∧ Armed s.pool i) :
    Settled { s with pool := p, connecting := connecting } where
  owned := howned
  inTime := h.inTime
  added_le := h.added_le
  le_size := by
    rw [hgrows.size]
    exact h.le_size
  looping i hi := hgrows.looping i (h.looping i hi)
  tables := h.tables
  posted := hposted
  connecting i hi := by
    rcases hconnecting i hi with hold | hnew
    · exact (h.connecting i hold).imp_right fun harmed => hgrows.executed harmed
    · exact hnew.imp_right fun harmed => hgrows.executed harmed
  uses u hu := by
    obtain ⟨hloop, hkey, hpresent, harmed⟩ := h.uses u hu
    exact ⟨hloop, hkey, hpresent, hgrows.executed harmed⟩

theorem use (h : Settled s) (hi : i < s.added) (harmed : Armed s.pool i) :
    Settled (s.use i) := by
  have hkey : (s.pool.loop i).mThreadId = .worker i := by
    rw [h.owned.owner, if_pos (h.looping i (Nat.lt_of_lt_of_le hi h.added_le))]
  have htable := h.tables i hi
  refine ⟨h.owned, h.inTime, h.added_le, h.le_size, h.looping, fun j hj => ?_, h.posted,
    h.connecting, fun u hu => ?_⟩
  · simp only [EchoServer.use, EchoServer.insert, hkey, if_pos htable]
    exact h.tables j hj
  · rcases List.mem_append.mp hu with hold | hnew
    · exact h.uses u hold
    · cases List.mem_singleton.mp hnew
      exact ⟨hi, hkey, decide_eq_true (hkey ▸ htable), harmed⟩

theorem getThreadId (h : Settled s) (hlength : s.ids.length = s.added)
    (hsize : s.added < s.pool.size) (hfit : (s.pool.loop s.added).phase = .looping) :
    Settled { s with ids := s.ids ++ [(s.pool.loop s.added).mThreadId] } := by
  have hkey : (s.pool.loop s.added).mThreadId = .worker s.ids.length := by
    rw [h.owned.owner, if_pos hfit, hlength]
  have hmore : (s.ids ++ [(s.pool.loop s.added).mThreadId]).length = s.added + 1 := by
    rw [List.length_append, hlength, List.length_singleton]
  refine ⟨h.owned, ?_, ?_, ?_, fun i hi => ?_, h.tables, h.posted, h.connecting, h.uses⟩
  · have hold := h.inTime
    unfold InTime at hold ⊢
    rw [hkey, List.length_append, List.length_singleton, List.range_succ, List.map_append, ← hold]
    rfl
  · rw [hmore]
    exact Nat.le_succ _
  · rw [hmore]
    exact hsize
  · rw [hmore] at hi
    rcases Nat.lt_succ_iff_lt_or_eq.mp hi with hlt | rfl
    · exact h.looping i (hlength ▸ hlt)
    · exact hfit

theorem not_isInLoopThread (h : Settled s) (hi : i < s.ids.length) :
    ¬ s.pool.isInLoopThread i .starter = true := by
  rw [h.owned.isInLoopThread_eq]
  rintro (⟨hself, -⟩ | ⟨-, hphase⟩)
  · cases hself
  · exact hphase (h.looping i hi)

theorem operation (h : Settled s) (hi : i < s.ids.length) {op : Operation} {p : Pool}
    (hs : LoopThreads.step s.pool (.operation .starter i op) = some p) :
    s.pool.call .starter = none ∧ p = s.pool.setCall .starter (some (.pushing i op)) := by
  have hout := h.not_isInLoopThread hi
  simp only [LoopThreads.step, if_neg hout] at hs
  split_ifs at hs with hcall
  cases hs
  refine ⟨hcall.2.2, ?_⟩
  rw [Pool.test, if_neg hout]

theorem addTimer (h : Settled s) {tid : Thread} (htid : s.ids.drop s.added = [tid]) {p : Pool}
    (hs : LoopThreads.step s.pool (.operation .starter s.added .addTimer) = some p) :
    Settled { s.insert tid with pool := p, added := s.added + 1 } := by
  have hlength : s.ids.length = s.added + 1 := by
    have hone := congrArg List.length htid
    rw [List.length_drop, List.length_singleton] at hone
    omega
  have hlast : s.ids[s.added]? = some tid := by
    have hhead := congrArg List.head? htid
    rwa [List.head?_drop, List.head?_cons] at hhead
  have hkey : tid = .worker s.added := by
    rw [h.inTime, List.getElem?_map, List.getElem?_range (by omega)] at hlast
    cases hlast
    rfl
  obtain ⟨hidle, rfl⟩ := h.operation (by omega) hs
  have htables : ∀ j, j < s.added + 1 → .worker j ∈ (s.insert tid).mIdleConnsMap := by
    intro j hj
    unfold EchoServer.insert
    rcases Nat.lt_succ_iff_lt_or_eq.mp hj with hlt | rfl
    · have hold := h.tables j hlt
      simp only
      split_ifs
      · exact hold
      · exact List.mem_append_left _ hold
    · rw [← hkey]
      simp only
      split_ifs with hmem
      · exact hmem
      · exact List.mem_append_right _ (List.mem_singleton_self _)
  refine ⟨?_, h.inTime, Nat.le_of_eq hlength.symm, h.le_size, h.looping, htables,
    h.posted.addTimer hidle, ?_, ?_⟩
  · exact h.owned.step hs
  · exact fun j hj => (h.connecting j hj).imp_left Nat.lt_succ_of_lt
  · exact fun u hu => (h.uses u hu).imp_left Nat.lt_succ_of_lt

theorem accept (h : Settled s) (hall : s.added = s.pool.size) {p : Pool}
    (hs : LoopThreads.step s.pool (.operation .starter i .runInLoop) = some p) :
    Settled { s with
      pool := p
      connecting := if s.pool.isInLoopThread i .starter then s.connecting ++ [i]
        else s.connecting } := by
  have hi : i < s.pool.size := by
    simp only [LoopThreads.step] at hs
    split_ifs at hs with hcall hin
    · exact hcall.1
    · exact hcall.1
  have hread : i < s.ids.length := Nat.lt_of_lt_of_le (hall ▸ hi) h.added_le
  have hgrows := Grows.step hs
  have howned := h.owned.step hs
  obtain ⟨hidle, rfl⟩ := h.operation hread hs
  rw [if_neg (h.not_isInLoopThread hread)]
  exact h.setPool hgrows howned (h.posted.accept hidle (hall ▸ hi)) fun j hj => .inl hj

theorem doPending (h : Settled s) {p : Pool}
    (hs : LoopThreads.step s.pool (.doPending i) = some p) :
    Settled { s with
      pool := p
      connecting := if (s.pool.loop i).pending.head? = some .runInLoop then s.connecting ++ [i]
        else s.connecting } := by
  have hgrows := Grows.step hs
  have howned := h.owned.step hs
  simp only [LoopThreads.step] at hs
  split at hs
  · rename_i op rest hphase hpending
    cases hs
    obtain ⟨hposted, hrun⟩ := h.posted.doPending hpending
    refine h.setPool hgrows howned hposted fun j hj => ?_
    split_ifs at hj with hhead
    · rcases List.mem_append.mp hj with hold | hnew
      · exact .inl hold
      · cases List.mem_singleton.mp hnew
        rw [hpending, List.head?_cons, Option.some_inj] at hhead
        exact .inr (hrun hhead)
    · exact .inl hj
  · cases hs

theorem step (h : Settled s) {l : Label} (hfit : ReadFits s l)
    (hs : EchoServerTables.step s l = some s') : Settled s' := by
  cases l with
  | background l =>
    simp only [EchoServerTables.step] at hs
    split_ifs at hs with hl
    obtain ⟨p, hp, rfl⟩ := Option.map_eq_some_iff.mp hs
    exact h.setPool (Grows.step hp) (h.owned.step hp) (h.posted.background hl hp)
      fun j hj => .inl hj
  | getThreadId =>
    simp only [EchoServerTables.step] at hs
    split_ifs at hs with hready
    cases hs
    exact h.getThreadId hready.2.2.1 hready.2.2.2 hfit
  | addTimer =>
    simp only [EchoServerTables.step] at hs
    split at hs
    · rename_i tid htid
      obtain ⟨p, hp, rfl⟩ := Option.map_eq_some_iff.mp hs
      exact h.addTimer htid hp
    · cases hs
  | accept i =>
    simp only [EchoServerTables.step] at hs
    by_cases hall : s.added = s.pool.size
    · rw [if_pos hall] at hs
      obtain ⟨p, hp, rfl⟩ := Option.map_eq_some_iff.mp hs
      exact h.accept hall hp
    · rw [if_neg hall] at hs
      cases hs
  | doPending i =>
    simp only [EchoServerTables.step] at hs
    obtain ⟨p, hp, rfl⟩ := Option.map_eq_some_iff.mp hs
    exact h.doPending hp
  | onConnected i =>
    simp only [EchoServerTables.step] at hs
    split_ifs at hs with hmem
    cases hs
    obtain ⟨hi, harmed⟩ := h.connecting i hmem
    have hless : Settled { s with connecting := s.connecting.erase i } :=
      ⟨h.owned, h.inTime, h.added_le, h.le_size, h.looping, h.tables, h.posted,
        fun j hj => h.connecting j (List.mem_of_mem_erase hj), h.uses⟩
    exact hless.use hi harmed
  | onMessage i =>
    simp only [EchoServerTables.step] at hs
    split_ifs at hs with hmessage
    cases hs
    obtain ⟨u, hu, hloop⟩ := List.any_eq_true.mp hmessage.2
    obtain ⟨hi, -, -, harmed⟩ := h.uses u hu
    cases of_decide_eq_true hloop
    exact h.use hi harmed

/-- With all ids read in time, the table of a worker has one timer, in the loop of the worker. -/
theorem tickers_eq (h : Settled s) (hi : i < s.added) : s.tickers (.worker i) = [i] := by
  have hread : ∀ j ∈ List.range s.added,
      decide (s.ids[j]? = some (Thread.worker i)) = decide (j = i) := by
    intro j hj
    have hlt := Nat.lt_of_lt_of_le (List.mem_range.mp hj) h.added_le
    rw [h.inTime, List.getElem?_map, List.getElem?_range hlt]
    simp
  rw [EchoServer.tickers, List.filter_congr hread]
  exact filter_range_eq hi

theorem ticked (h : Settled s) {u : Use} (hu : u ∈ s.uses) : Ticked s u := by
  obtain ⟨hi, hkey, hpresent, harmed⟩ := h.uses u hu
  refine ⟨hpresent, ?_, harmed⟩
  rw [hkey]
  exact h.tickers_eq hi

end Settled

/-! ## Exactly when the tables are ticked -/

/-- What a step does to the ids, in time or not: the constructor may read one more. -/
theorem ids_cases {l : Label} (h : Owned s.pool) (hs : step s l = some s') :
    Owned s'.pool ∧ (s'.ids = s.ids ∧ ReadFits s l ∨ l = .getThreadId ∧ s.ids.length = s.added ∧
      s'.ids = s.ids ++ [(s.pool.loop s.added).mThreadId]) := by
  cases l with
  | background l =>
    simp only [step] at hs
    split_ifs at hs
    obtain ⟨p, hp, rfl⟩ := Option.map_eq_some_iff.mp hs
    exact ⟨h.step hp, .inl ⟨rfl, trivial⟩⟩
  | getThreadId =>
    simp only [step] at hs
    split_ifs at hs with hready
    cases hs
    exact ⟨h, .inr ⟨rfl, hready.2.2.1, rfl⟩⟩
  | addTimer =>
    simp only [step] at hs
    split at hs
    · obtain ⟨p, hp, rfl⟩ := Option.map_eq_some_iff.mp hs
      exact ⟨h.step hp, .inl ⟨rfl, trivial⟩⟩
    · cases hs
  | accept i =>
    simp only [step] at hs
    by_cases hall : s.added = s.pool.size
    · rw [if_pos hall] at hs
      obtain ⟨p, hp, rfl⟩ := Option.map_eq_some_iff.mp hs
      exact ⟨h.step hp, .inl ⟨rfl, trivial⟩⟩
    · rw [if_neg hall] at hs
      cases hs
  | doPending i =>
    simp only [step] at hs
    obtain ⟨p, hp, rfl⟩ := Option.map_eq_some_iff.mp hs
    exact ⟨h.step hp, .inl ⟨rfl, trivial⟩⟩
  | onConnected i =>
    simp only [step] at hs
    split_ifs at hs
    cases hs
    exact ⟨h, .inl ⟨rfl, trivial⟩⟩
  | onMessage i =>
    simp only [step] at hs
    split_ifs at hs
    cases hs
    exact ⟨h, .inl ⟨rfl, trivial⟩⟩

/-- An id that is read too early is the one of the starting thread. -/
theorem inTime_step_iff {l : Label} (h : Owned s.pool) (hs : step s l = some s') :
    InTime s' ↔ InTime s ∧ ReadFits s l := by
  rcases (ids_cases h hs).2 with ⟨hids, hfit⟩ | ⟨rfl, hlength, hids⟩
  · rw [InTime, hids]
    exact ⟨fun hold => ⟨hold, hfit⟩, fun hold => hold.1⟩
  · have hnext : (s.pool.loop s.added).mThreadId = .worker s.ids.length ↔
        (s.pool.loop s.added).phase = .looping := by
      rw [h.owner, hlength]
      split_ifs with hphase
      · exact ⟨fun _ => hphase, fun _ => rfl⟩
      · constructor
        · intro hself
          cases hself
        · intro hlooping
          exact absurd hlooping hphase
    rw [InTime, hids, List.length_append, List.length_singleton, List.range_succ, List.map_append]
    constructor
    · intro hboth
      obtain ⟨hold, hlast⟩ := List.append_inj' hboth rfl
      exact ⟨hold, hnext.mp (List.singleton_inj.mp hlast)⟩
    · rintro ⟨hold, hfit⟩
      rw [← hold, hnext.mpr hfit]
      rfl

theorem inTime_iff (size : ℕ) {ls : List Label} (hr : run step (start size) ls = some s) :
    InTime s ↔ Guarded step ReadFits (start size) ls :=
  guarded_iff (fun s _ _ h hs => (ids_cases (s := s) h hs).1)
    (fun _ _ _ h hs => inTime_step_iff h hs) (owned_start size true) rfl hr

/-- The timers of the workers tick the tables of the workers, and every connection always finds
its table and has it ticked by its own loop only, exactly when each worker has called
`setThreadId` before the constructor reads its id. -/
theorem tables_ticked_iff (size : ℕ) {ls : List Label}
    (hr : run step (start size) ls = some s) :
    (InTime s ∧ ∀ u ∈ s.uses, Ticked s u) ↔ Guarded step ReadFits (start size) ls := by
  constructor
  · intro h
    exact (inTime_iff size hr).mp h.1
  · intro hg
    have hkeep : ∀ (s : EchoServer) l s', Settled s → ReadFits s l → step s l = some s' →
        Settled s' := fun s l s' h hfit hs => h.step hfit hs
    have h : Settled s := hg.invariant hkeep (settled_start size) hr
    exact ⟨h.inTime, fun u hu => h.ticked hu⟩

instance (s : EchoServer) (l : Label) : Decidable (ReadFits s l) :=
  match l with
  | .getThreadId => inferInstanceAs (Decidable ((s.pool.loop s.added).phase = .looping))
  | .background _ => isTrue trivial
  | .addTimer => isTrue trivial
  | .accept _ => isTrue trivial
  | .doPending _ => isTrue trivial
  | .onConnected _ => isTrue trivial
  | .onMessage _ => isTrue trivial

/-- Both workers are in `loop()` when their ids are read. -/
theorem tables_ticked_two : ∃ s, run step (start 2)
    [.background .create, .background (.setThreadId 0), .background .create,
      .background (.setThreadId 1), .background .create, .background .testJoinable,
      .background .testJoinable, .background .testJoinable, .getThreadId, .addTimer,
      .background (.addPending .starter), .background (.wakeup .starter), .getThreadId, .addTimer,
      .background (.addPending .starter), .background (.wakeup .starter), .accept 1,
      .background (.addPending .starter), .background (.wakeup .starter), .doPending 1,
      .doPending 1, .onConnected 1, .onMessage 1] = some s ∧
    s.uses = [⟨1, .worker 1, true⟩, ⟨1, .worker 1, true⟩] ∧ ∀ u ∈ s.uses, Ticked s u := by
  obtain ⟨s, hs⟩ : ∃ s, run step (start 2)
      [.background .create, .background (.setThreadId 0), .background .create,
        .background (.setThreadId 1), .background .create, .background .testJoinable,
        .background .testJoinable, .background .testJoinable, .getThreadId, .addTimer,
        .background (.addPending .starter), .background (.wakeup .starter), .getThreadId,
        .addTimer, .background (.addPending .starter), .background (.wakeup .starter), .accept 1,
        .background (.addPending .starter), .background (.wakeup .starter), .doPending 1,
        .doPending 1, .onConnected 1, .onMessage 1] = some s := ⟨_, rfl⟩
  refine ⟨s, hs, ?_, ((tables_ticked_iff 2 hs).mpr (by decide)).2⟩
  cases hs
  rfl

-- The id is read before `setThreadId`: the table of the worker is not there when its first
-- connection comes, and it has no timer.
example : (run step (start 1)
    [.background .create, .background .create, .background .testJoinable,
      .background .testJoinable, .getThreadId, .addTimer, .background (.setThreadId 0), .accept 0,
      .background (.addPending .starter), .background (.wakeup .starter), .doPending 0,
      .onConnected 0]).map (fun s => (s.uses, s.tickers (.worker 0))) =
    some ([⟨0, .worker 0, false⟩], []) := by rfl

end GenericServer.EchoServerTables
