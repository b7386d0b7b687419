import GenericServer.BlockMemory
import GenericServer.FifoQueues
import GenericServer.LoggerThreads

/-!
# The drain loops of the logger thread

`AsyncLogger::threadFunc` of `src/log/Log.cpp` with its staging buffer, over rings that are
first-in first-out queues with an atomic `append` and `retrive`. Threads append in every state.
-/
namespace GenericServer.LoggerDrain

open BlockMemory FifoQueues TransitionRuns
open LoggerThreads (bufferSize highWaterMark lowWaterMark)

variable {β : Type*}

/-- Before the test of `m_running`; at a ring, before `empty()`, before `retrive` or behind it, in
the loop or in the drain at the end (`final`); behind the rings; done. -/
inductive Pc
  | loop
  | visit (t : ℤ) (final : Bool)
  | retriving (t : ℤ) (final : Bool)
  | retrived (t : ℤ) (final : Bool)
  | settling
  | finishing
  | finished
  deriving DecidableEq, Repr

/-- The locals `buffer` and `n` of `threadFunc`, the rings of `m_bufferMap` and its keys. `retrives`
has the size and the result of every call of `retrive`, `retrieved` the bytes in the order in
which they were retrieved, with their rings, and `chunks` what `m_appender` has got. -/
structure Logger (β : Type*) where
  ring : ℤ → Fifo β
  keys : List ℤ
  mRunning : Bool
  pc : Pc
  buffer : ℤ → β
  n : ℤ
  retrives : List (ℤ × ℕ)
  retrieved : List (ℤ × β)
  chunks : List (List β)

def start (buffer : ℤ → β) : Logger β where
  ring := fun _ => .empty
  keys := []
  mRunning := true
  pc := .loop
  buffer := buffer
  n := 0
  retrives := []
  retrieved := []
  chunks := []

/-- Thread `t` appends to its ring, which may be new, and `stop` clears `m_running`; the other
labels are the steps of `threadFunc`, which may find that two seconds have passed. -/
inductive Label (β : Type*)
  | append (t : ℤ) (bytes : List β)
  | stop
  | running
  | check
  | retrive
  | retrived
  | settle (timeout : Bool)
  | finish

namespace Logger

def append (s : Logger β) (t : ℤ) (bytes : List β) : Logger β :=
  { s with ring := Function.update s.ring t ((s.ring t).accept bytes),
           keys := if t ∈ s.keys then s.keys else t :: s.keys }

/-- `buffer[0..n)`. -/
def staged (s : Logger β) : List β := readBlock s.buffer 0 s.n.toNat

/-- `n += buf.second->retrive(buffer + n, buffer_size - n)`. -/
def retrive (s : Logger β) (t : ℤ) : Logger β :=
  let size := bufferSize - s.n
  let bytes := (s.ring t).stored.take size.toNat
  { s with ring := Function.update s.ring t ((s.ring t).release size.toNat)
           buffer := writeBlock s.buffer s.n bytes
           n := s.n + bytes.length
           retrives := s.retrives ++ [(size, bytes.length)]
           retrieved := s.retrieved ++ bytes.map fun b => (t, b) }

/-- `m_appender->append(buffer, n)`. -/
def output (s : Logger β) : Logger β := { s with chunks := s.chunks ++ [s.staged] }

/-- `m_appender->append(buffer, n); n = 0;` -/
def flush (s : Logger β) : Logger β := { s.output with n := 0 }

end Logger

/-- The next ring of the range-for over `m_bufferMap`, or what follows the loop. -/
def nextPc (final : Bool) : Option ℤ → Pc
  | some t => .visit t final
  | none => if final then .finishing else .settling

def step (s : Logger β) : Label β → Option (Logger β)
  | .append t bytes => some (s.append t bytes)
  | .stop => some { s with mRunning := false }
  | .running => match s.pc with
    | .loop => some { s with pc := nextPc (!s.mRunning) s.keys.min? }
    | _ => none
  | .check => match s.pc with
    | .visit t final =>
      if (s.ring t).stored.isEmpty then
        some { s with pc := nextPc final (s.keys.filter fun k => t < k).min? }
      else some { s with pc := .retriving t final }
    | _ => none
  | .retrive => match s.pc with
    | .retriving t final => some { s.retrive t with pc := .retrived t final }
    | _ => none
  | .retrived => match s.pc with
    | .retrived t final =>
      let s := { s with pc := .visit t final }
      some (if s.n > highWaterMark then s.flush else s)
    | _ => none
  | .settle timeout => match s.pc with
    | .settling =>
      let s := { s with pc := .loop }
      some (if s.n > lowWaterMark ∨ timeout then s.flush else s)
    | _ => none
  | .finish => match s.pc with
    | .finishing => some { s.output with pc := .finished }
    | _ => none

variable {s s' : Logger β} {l : Label β} {ls : List (Label β)} {t : ℤ}

/-- What a step does, and where `threadFunc` stands before it. -/
inductive Moves (s : Logger β) : Label β → Logger β → Prop
  | append (t : ℤ) (bytes : List β) : Moves s (.append t bytes) (s.append t bytes)
  | stop : Moves s .stop { s with mRunning := false }
  | running (hpc : s.pc = .loop) :
    Moves s .running { s with pc := nextPc (!s.mRunning) s.keys.min? }
  | leave (t : ℤ) (final : Bool) (hpc : s.pc = .visit t final) (hempty : (s.ring t).stored = []) :
    Moves s .check { s with pc := nextPc final (s.keys.filter fun k => t < k).min? }
  | enter (t : ℤ) (final : Bool) (hpc : s.pc = .visit t final) (hstored : (s.ring t).stored ≠ []) :
    Moves s .check { s with pc := .retriving t final }
  | retrive (t : ℤ) (final : Bool) (hpc : s.pc = .retriving t final) :
    Moves s .retrive { s.retrive t with pc := .retrived t final }
  | high (t : ℤ) (final : Bool) (hpc : s.pc = .retrived t final) :
    Moves s .retrived (Logger.flush { s with pc := .visit t final })
  | low (t : ℤ) (final : Bool) (hpc : s.pc = .retrived t final) (hlow : s.n ≤ highWaterMark) :
    Moves s .retrived { s with pc := .visit t final }
  | settle (timeout : Bool) (hpc : s.pc = .settling) :
    Moves s (.settle timeout) (Logger.flush { s with pc := .loop })
  | hold (timeout : Bool) (hpc : s.pc = .settling) :
    Moves s (.settle timeout) { s with pc := .loop }
  | finish (hpc : s.pc = .finishing) : Moves s .finish { s.output with pc := .finished }

theorem moves_of_step (hs : step s l = some s') : Moves s l s' := by
  cases l with
  | append t bytes =>
    cases hs
    exact .append t bytes
  | stop =>
    cases hs
    exact .stop
  | running =>
    simp only [step] at hs
    split at hs
    case h_1 hpc =>
      cases hs
      exact .running hpc
    case h_2 => cases hs
  | check =>
    simp only [step] at hs
    split at hs
    case h_1 t final hpc =>
      split_ifs at hs with hempty
      · cases hs
        exact .leave t final hpc (List.isEmpty_iff.mp hempty)
      · cases hs
        exact .enter t final hpc fun hnil => hempty (List.isEmpty_iff.mpr hnil)
    case h_2 => cases hs
  | retrive =>
    simp only [step] at hs
    split at hs
    case h_1 t final hpc =>
      cases hs
      exact .retrive t final hpc
    case h_2 => cases hs
  | retrived =>
    simp only [step] at hs
    split at hs
    case h_1 t final hpc =>
      cases hs
      split_ifs with hhigh
      · exact .high t final hpc
      · exact .low t final hpc (not_lt.mp hhigh)
    case h_2 => cases hs
  | settle timeout =>
    simp only [step] at hs
    split at hs
    case h_1 hpc =>
      cases hs
      split_ifs
      · exact .settle timeout hpc
      · exact .hold timeout hpc
    case h_2 => cases hs
  | finish =>
    simp only [step] at hs
    split at hs
    case h_1 hpc =>
      cases hs
      exact .finish hpc
    case h_2 => cases hs

/-! ## The staging buffer -/

def Pc.unchecked : Pc → Bool
  | .retrived _ _ => true
  | _ => false

structure Staging (s : Logger β) : Prop where
  nonneg : 0 ≤ s.n
  le : s.n ≤ bufferSize
  low : s.pc.unchecked = false → s.n ≤ highWaterMark
  stored : ∀ t final, s.pc = .retriving t final → (s.ring t).stored ≠ []
  retrives : ∀ p ∈ s.retrives, 1 ≤ p.1 ∧ 1 ≤ p.2 ∧ (p.2 : ℤ) ≤ p.1
  bytes : s.chunks.flatten ++ (if s.pc = .finished then [] else s.staged) =
    s.retrieved.map Prod.snd
  returned : ∀ t, (s.retrieved.filter fun p => p.1 = t).map Prod.snd = (s.ring t).returned

theorem staged_retrive (hn : 0 ≤ s.n) (t : ℤ) : (s.retrive t).staged =
    s.staged ++ (s.ring t).stored.take (bufferSize - s.n).toNat := by
  unfold Logger.staged Logger.retrive
  dsimp only
  have hsize : (s.n + ((s.ring t).stored.take (bufferSize - s.n).toNat).length).toNat =
      s.n.toNat + ((s.ring t).stored.take (bufferSize - s.n).toNat).length := by omega
  have hend : (0 : ℤ) + s.n.toNat = s.n := by omega
  rw [hsize, readBlock_add, readBlock_writeBlock_of_le (by omega), hend,
    readBlock_writeBlock_self]

theorem staged_flush (s : Logger β) : s.flush.staged = [] := rfl

theorem returned_retrive (h : ∀ t, (s.retrieved.filter fun p => p.1 = t).map Prod.snd =
    (s.ring t).returned) (t u : ℤ) :
    ((s.retrive t).retrieved.filter fun p => p.1 = u).map Prod.snd =
      ((s.retrive t).ring u).returned := by
  unfold Logger.retrive
  dsimp only
  rw [List.filter_append, List.map_append, h]
  by_cases hu : u = t
  · subst hu
    have hall : ∀ bytes : List β, (bytes.map fun b => (u, b)).filter (fun p => p.1 = u) =
        bytes.map fun b => (u, b) := by
      intro bytes
      refine List.filter_eq_self.mpr fun p hp => ?_
      obtain ⟨b, -, rfl⟩ := List.mem_map.mp hp
      exact decide_eq_true rfl
    rw [hall, Function.update_self, List.map_map]
    exact congrArg _ (List.map_id _)
  · have hnone : ∀ bytes : List β, (bytes.map fun b => (t, b)).filter (fun p => p.1 = u) = [] := by
      intro bytes
      refine List.filter_eq_nil_iff.mpr fun p hp => ?_
      obtain ⟨b, -, rfl⟩ := List.mem_map.mp hp
      simpa using Ne.symm hu
    rw [hnone, Function.update_of_ne hu, List.map_nil, List.append_nil]

theorem nextPc_ne (final : Bool) (k : Option ℤ) : (nextPc final k).unchecked = false ∧
    (∀ t f, nextPc final k ≠ .retriving t f) ∧ nextPc final k ≠ .finished := by
  cases k with
  | some t => exact ⟨rfl, nofun, nofun⟩
  | none => cases final <;> exact ⟨rfl, nofun, nofun⟩

theorem Staging.move (h : Staging s) {pc : Pc} (hchecked : s.pc.unchecked = false)
    (hretriving : ∀ t final, pc = .retriving t final → (s.ring t).stored ≠ [])
    (hopen : s.pc ≠ .finished) (hfinished : pc ≠ .finished) : Staging { s with pc := pc } where
  nonneg := h.nonneg
  le := h.le
  low _ := h.low hchecked
  stored := hretriving
  retrives := h.retrives
  bytes := by
    have := h.bytes
    rw [if_neg hopen] at this
    rw [if_neg hfinished]
    exact this
  returned := h.returned

theorem Staging.flush (h : Staging s) {pc : Pc} (hopen : s.pc ≠ .finished)
    (hretriving : ∀ t final, pc ≠ .retriving t final) (hfinished : pc ≠ .finished) :
    Staging (Logger.flush { s with pc := pc }) where
  nonneg := le_refl _
  le := show (0 : ℤ) ≤ bufferSize by decide
  low _ := show (0 : ℤ) ≤ highWaterMark by decide
  stored t final hpc := absurd hpc (hretriving t final)
  retrives := h.retrives
  bytes := by
    have hbytes := h.bytes
    rw [if_neg hopen] at hbytes
    rw [if_neg (show (Logger.flush { s with pc := pc }).pc ≠ .finished from hfinished), staged_flush,
      List.append_nil]
    exact List.flatten_concat.trans hbytes
  returned := h.returned

theorem Staging.append (h : Staging s) (t : ℤ) (bytes : List β) : Staging (s.append t bytes) where
  nonneg := h.nonneg
  le := h.le
  low := h.low
  stored u final hpc := by
    have hold := h.stored u final hpc
    by_cases hu : u = t
    · subst hu
      simp [Logger.append, hold]
    · simpa [Logger.append, Function.update_of_ne hu] using hold
  retrives := h.retrives
  bytes := h.bytes
  returned u := by
    refine (h.returned u).trans ?_
    by_cases hu : u = t
    · subst hu
      simp [Logger.append]
    · simp [Logger.append, Function.update_of_ne hu]

/-- A ring that is not empty is asked for at least one byte, and gives at least one. -/
theorem Staging.retrive (h : Staging s) {final : Bool} (hpc : s.pc = .retriving t final) :
    Staging { s.retrive t with pc := .retrived t final } := by
  have hstored := h.stored t final hpc
  have hlow : s.n ≤ highWaterMark := h.low (by rw [hpc]; rfl)
  have hsize : 2048 ≤ bufferSize - s.n := by
    rw [highWaterMark] at hlow
    omega
  have hlength : ((s.ring t).stored.take (bufferSize - s.n).toNat).length =
      min (bufferSize - s.n).toNat (s.ring t).stored.length := List.length_take
  have hpos : 0 < (s.ring t).stored.length := List.length_pos_iff.mpr hstored
  have hnonneg := h.nonneg
  refine ⟨?_, ?_, fun hun => ?_, fun _ _ => nofun, fun p hp => ?_, ?_, ?_⟩
  · exact Int.add_nonneg hnonneg (Int.natCast_nonneg _)
  · change s.n + (((s.ring t).stored.take (bufferSize - s.n).toNat).length : ℤ) ≤ bufferSize
    omega
  · cases hun
  · rcases List.mem_append.mp hp with hp | hp
    · exact h.retrives p hp
    · obtain rfl := List.mem_singleton.mp hp
      dsimp only
      omega
  · have hbytes := h.bytes
    rw [if_neg (by rw [hpc]; exact nofun)] at hbytes
    have hstaged := staged_retrive hnonneg t
    rw [if_neg nofun]
    refine (congrArg (s.chunks.flatten ++ ·) hstaged).trans ?_
    rw [← List.append_assoc, hbytes]
    simp [Logger.retrive, List.map_map, Function.comp_def]
  · exact returned_retrive h.returned t

theorem Staging.step (h : Staging s) (hs : LoggerDrain.step s l = some s') : Staging s' := by
  cases moves_of_step hs with
  | append t bytes => exact h.append t bytes
  | stop => exact ⟨h.nonneg, h.le, h.low, h.stored, h.retrives, h.bytes, h.returned⟩
  | running hpc =>
    obtain ⟨-, hretriving, hfinished⟩ := nextPc_ne (!s.mRunning) s.keys.min?
    exact h.move (by rw [hpc]; rfl) (fun t f hpc => absurd hpc (hretriving t f))
      (by rw [hpc]; exact nofun) hfinished
  | leave t final hpc hempty =>
    obtain ⟨-, hretriving, hfinished⟩ := nextPc_ne final (s.keys.filter fun k => t < k).min?
    exact h.move (by rw [hpc]; rfl) (fun t f hpc => absurd hpc (hretriving t f))
      (by rw [hpc]; exact nofun) hfinished
  | enter t final hpc hstored =>
    refine h.move (by rw [hpc]; rfl) (fun u f heq => ?_) (by rw [hpc]; exact nofun) nofun
    cases heq
    exact hstored
  | retrive t final hpc => exact h.retrive hpc
  | high t final hpc => exact h.flush (by rw [hpc]; exact nofun) nofun nofun
  | low t final hpc hlow =>
    have hbytes := h.bytes
    rw [if_neg (by rw [hpc]; exact nofun)] at hbytes
    exact ⟨h.nonneg, h.le, fun _ => hlow, nofun, h.retrives, hbytes, h.returned⟩
  | settle timeout hpc => exact h.flush (by rw [hpc]; exact nofun) nofun nofun
  | hold timeout hpc =>
    exact h.move (by rw [hpc]; rfl) nofun (by rw [hpc]; exact nofun) nofun
  | finish hpc =>
    have hbytes := h.bytes
    rw [if_neg (by rw [hpc]; exact nofun)] at hbytes
    refine ⟨h.nonneg, h.le, fun _ => h.low (by rw [hpc]; rfl), nofun, h.retrives, ?_, h.returned⟩
    rw [if_pos rfl, List.append_nil]
    exact List.flatten_concat.trans hbytes

theorem staging_start (buffer : ℤ → β) : Staging (start buffer) where
  nonneg := le_refl _
  le := show (0 : ℤ) ≤ bufferSize by decide
  low _ := show (0 : ℤ) ≤ highWaterMark by decide
  stored _ _ h := by cases h
  retrives _ h := absurd h List.not_mem_nil
  bytes := rfl
  returned _ := rfl

/-! ## The last drain -/

/-- The last drain has left the ring behind. -/
def Pc.passed : Pc → ℤ → Prop
  | .visit p true, t => t < p
  | .retriving p true, t => t < p
  | .retrived p true, t => t < p
  | .finishing, _ => True
  | .finished, _ => True
  | _, _ => False

structure Known (s : Logger β) : Prop where
  keys : ∀ t, t ∉ s.keys → (s.ring t).accepted = []
  running : s.mRunning = true → ∀ t, ¬ s.pc.passed t

/-- What the rings had accepted, `xs`, when `m_running` became false. -/
structure Draining (xs : ℤ → List β) (s : Logger β) : Prop where
  stopped : s.mRunning = false
  accepted : ∀ t, xs t <+: (s.ring t).accepted
  passed : ∀ t, s.pc.passed t → xs t <+: (s.ring t).returned

theorem nextPc_passed {final : Bool} {ks : List ℤ} (h : (nextPc final ks.min?).passed t) :
    final = true ∧ t ∉ ks := by
  cases final with
  | false => cases hmin : ks.min? <;> rw [hmin] at h <;> exact h.elim
  | true =>
    refine ⟨rfl, fun hmem => ?_⟩
    cases hmin : ks.min? with
    | none =>
      rw [List.min?_eq_none_iff.mp hmin] at hmem
      cases hmem
    | some m =>
      rw [hmin] at h
      exact absurd ((List.min?_eq_some_iff.mp hmin).2 t hmem) (not_le.mpr h)

theorem passed_retrived (t : ℤ) (final : Bool) :
    (Pc.retrived t final).passed = (Pc.retriving t final).passed ∧
      (Pc.visit t final).passed = (Pc.retrived t final).passed := by
  cases final <;> exact ⟨rfl, rfl⟩

theorem append_ring (s : Logger β) (t u : ℤ) (bytes : List β) :
    (s.ring u).accepted <+: ((s.append t bytes).ring u).accepted ∧
      ((s.append t bytes).ring u).returned = (s.ring u).returned := by
  by_cases hu : u = t
  · subst hu
    simp [Logger.append]
  · simp [Logger.append, Function.update_of_ne hu]

theorem retrive_ring (s : Logger β) (t u : ℤ) :
    ((s.retrive t).ring u).accepted = (s.ring u).accepted ∧
      (s.ring u).returned <+: ((s.retrive t).ring u).returned := by
  by_cases hu : u = t
  · subst hu
    simp [Logger.retrive]
  · simp [Logger.retrive, Function.update_of_ne hu]

theorem Known.step (h : Known s) (hs : LoggerDrain.step s l = some s') : Known s' := by
  cases moves_of_step hs with
  | append t bytes =>
    refine ⟨fun u hu => ?_, h.running⟩
    have hnew : u ≠ t ∧ u ∉ s.keys := by
      simp only [Logger.append] at hu
      split_ifs at hu with ht
      · exact ⟨fun heq => hu (heq ▸ ht), hu⟩
      · exact ⟨List.ne_of_not_mem_cons hu, List.not_mem_of_not_mem_cons hu⟩
    simpa [Logger.append, Function.update_of_ne hnew.1] using h.keys u hnew.2
  | stop => exact ⟨h.keys, fun hrun => by cases hrun⟩
  | running hpc =>
    refine ⟨h.keys, fun hrun u hu => ?_⟩
    have hfinal := (nextPc_passed hu).1
    rw [show s.mRunning = true from hrun] at hfinal
    cases hfinal
  | leave t final hpc hempty =>
    refine ⟨h.keys, fun hrun u hu => ?_⟩
    obtain ⟨rfl, -⟩ := nextPc_passed hu
    exact h.running hrun (t - 1) (by rw [hpc]; exact sub_one_lt t)
  | enter t final hpc hstored =>
    refine ⟨h.keys, fun hrun u hu => h.running hrun u ?_⟩
    rw [hpc, (passed_retrived t final).2, (passed_retrived t final).1]
    exact hu
  | retrive t final hpc =>
    refine ⟨fun u hu => ?_, fun hrun u hu => h.running hrun u ?_⟩
    · exact (retrive_ring s t u).1.trans (h.keys u hu)
    · rw [hpc, ← (passed_retrived t final).1]
      exact hu
  | high t final hpc | low t final hpc =>
    refine ⟨h.keys, fun hrun u hu => h.running hrun u ?_⟩
    rw [hpc, ← (passed_retrived t final).2]
    exact hu
  | settle timeout hpc | hold timeout hpc => exact ⟨h.keys, fun _ _ => id⟩
  | finish hpc => exact ⟨h.keys, fun hrun u _ => h.running hrun u (by rw [hpc]; trivial)⟩

theorem Draining.step {xs : ℤ → List β} (h : Draining xs s) (hk : Known s)
    (hs : LoggerDrain.step s l = some s') : Draining xs s' := by
  -- a ring that is not in the map had accepted nothing
  have hnew : ∀ u ∉ s.keys, xs u <+: (s.ring u).returned := by
    intro u hu
    have hnil := h.accepted u
    rw [hk.keys u hu, List.prefix_nil] at hnil
    rw [hnil]
    exact List.nil_prefix
  cases moves_of_step hs with
  | append t bytes =>
    refine ⟨h.stopped, fun u => (h.accepted u).trans (append_ring s t u bytes).1, fun u hu => ?_⟩
    rw [(append_ring s t u bytes).2]
    exact h.passed u hu
  | stop => exact ⟨rfl, h.accepted, h.passed⟩
  | running hpc => exact ⟨h.stopped, h.accepted, fun u hu => hnew u (nextPc_passed hu).2⟩
  | leave t final hpc hempty =>
    refine ⟨h.stopped, h.accepted, fun u hu => ?_⟩
    obtain ⟨rfl, hbehind⟩ := nextPc_passed hu
    rcases lt_trichotomy u t with hlt | rfl | hgt
    · exact h.passed u (by rw [hpc]; exact hlt)
    · have hall := (s.ring u).conserved
      rw [hempty, List.append_nil] at hall
      exact hall.symm ▸ h.accepted u
    · exact hnew u fun hu => hbehind (List.mem_filter.mpr ⟨hu, decide_eq_true hgt⟩)
  | enter t final hpc hstored =>
    refine ⟨h.stopped, h.accepted, fun u hu => h.passed u ?_⟩
    rw [hpc, (passed_retrived t final).2, (passed_retrived t final).1]
    exact hu
  | retrive t final hpc =>
    refine ⟨h.stopped, fun u => ?_, fun u hu => ?_⟩
    · exact (retrive_ring s t u).1.symm ▸ h.accepted u
    · rw [show (Pc.retrived t final).passed = s.pc.passed by
        rw [hpc, (passed_retrived t final).1]] at hu
      exact (h.passed u hu).trans (retrive_ring s t u).2
  | high t final hpc | low t final hpc =>
    refine ⟨h.stopped, h.accepted, fun u hu => h.passed u ?_⟩
    rw [hpc, ← (passed_retrived t final).2]
    exact hu
  | settle timeout hpc | hold timeout hpc => exact ⟨h.stopped, h.accepted, fun _ => False.elim⟩
  | finish hpc => exact ⟨h.stopped, h.accepted, fun u _ => h.passed u (by rw [hpc]; trivial)⟩

theorem known_start (buffer : ℤ → β) : Known (start buffer) where
  keys _ _ := rfl
  running _ _ := id

/-- The staging buffer never overflows, every `retrive` asks for a byte and gets one, and a thread
function that has returned has written what it has retrieved, among it all that was in the rings
when `m_running` became false. -/
theorem threadFunc_drains {buffer : ℤ → β} (hr : run step (start buffer) ls = some s) :
    0 ≤ s.n ∧ s.n ≤ bufferSize ∧ (∀ p ∈ s.retrives, 1 ≤ p.1 ∧ 1 ≤ p.2) ∧
      (s.pc = .finished → s.chunks.flatten = s.retrieved.map Prod.snd ∧
        ∀ ms ms' u, ls = ms ++ .stop :: ms' → run step (start buffer) ms = some u →
          u.mRunning = true → ∀ t, (u.ring t).returned ++ (u.ring t).stored <+:
            (s.retrieved.filter fun p => p.1 = t).map Prod.snd) := by
  have hstaging : Staging s := run_invariant (fun _ _ _ h hs => h.step hs) (staging_start buffer) hr
  refine ⟨hstaging.nonneg, hstaging.le, fun p hp => ?_, fun hfinished => ⟨?_, ?_⟩⟩
  · exact ⟨(hstaging.retrives p hp).1, (hstaging.retrives p hp).2.1⟩
  · have hbytes := hstaging.bytes
    rw [if_pos hfinished, List.append_nil] at hbytes
    exact hbytes
  · rintro ms ms' u rfl hu hrunning t
    have hknown : Known u := run_invariant (fun _ _ _ h hs => h.step hs) (known_start buffer) hu
    rw [run_append, hu, Option.bind_some] at hr
    obtain ⟨v, hv, hr⟩ := run_cons_eq_some.mp hr
    have hstep : ∀ (a : Logger β) l b,
        Known a ∧ Draining (fun t => (u.ring t).returned ++ (u.ring t).stored) a →
        step a l = some b →
        Known b ∧ Draining (fun t => (u.ring t).returned ++ (u.ring t).stored) b :=
      fun _ _ _ h hs => ⟨h.1.step hs, h.2.step h.1 hs⟩
    have hstop : Known v ∧ Draining (fun t => (u.ring t).returned ++ (u.ring t).stored) v := by
      refine ⟨hknown.step hv, ?_⟩
      cases hv
      exact ⟨rfl, fun t => (u.ring t).conserved ▸ List.prefix_refl _,
        fun t ht => absurd ht (hknown.running hrunning t)⟩
    have hend := (run_invariant hstep hstop hr).2.passed t (by rw [hfinished]; trivial)
    rw [hstaging.returned t]
    exact hend

/-- Two threads log, and one of them once more while the last drain is on its way. -/
theorem threadFunc_drains_late_record : ∃ s,
    run step (start fun _ => (0 : UInt8))
      [.append 3 [1, 2], .running, .check, .retrive, .append 5 [7], .retrived, .check, .stop,
        .check, .retrive, .retrived, .check, .settle false, .append 3 [4], .running, .check,
        .retrive, .retrived, .append 3 [6], .check, .retrive, .retrived, .check, .check,
        .finish] = some s ∧
    s.chunks = [[1, 2, 7, 4, 6]] ∧ s.chunks.flatten = s.retrieved.map Prod.snd := by
  obtain ⟨s, hs⟩ : ∃ s, run step (start fun _ => (0 : UInt8))
      [.append 3 [1, 2], .running, .check, .retrive, .append 5 [7], .retrived, .check, .stop,
        .check, .retrive, .retrived, .check, .settle false, .append 3 [4], .running, .check,
        .retrive, .retrived, .append 3 [6], .check, .retrive, .retrived, .check, .check,
        .finish] = some s := ⟨_, rfl⟩
  have hpc : s.pc = .finished := by
    cases hs
    rfl
  refine ⟨s, hs, ?_, ((threadFunc_drains hs).2.2.2 hpc).1⟩
  cases hs
  rfl

end GenericServer.LoggerDrain
