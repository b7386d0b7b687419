import GenericServer.LoggerDrain
import GenericServer.LoggerThreadsContiguity
import GenericServer.RingLinearization

/-!
# The logger over its rings is the logger over queues

`LoggerThreads` cuts `append` and `retrive` of a ring at their accesses to shared data, and
`LoggerDrain` takes them for atomic calls of a queue. Every run of the former is one of the
latter: a store of `m_in` appends what it publishes, and a `retrive` takes its bytes with its load
of `m_in`.
-/
namespace GenericServer.LoggerThreads

open BlockMemory FifoQueues RingBuffer RingThreads TransitionRuns

variable {β : Type*} {t : ℤ}

/-! ## One ring -/

/-- The queue `f` stands for the ring: the reader at `c` is going to copy `todo` and release what it
has claimed, and both are gone from the queue already. -/
def RingRefines (t : ℤ) (w : Worker β) (c : Consumer (Byte β)) (f : Fifo (Byte β))
    (todo : List (Byte β)) : Prop :=
  ∃ released q pending taken, Sound t w c released q pending taken ∧
    f.returned = released ++ q.take (c.claim w.shared.ring).toNat ∧
    f.stored = q.drop (c.claim w.shared.ring).toNat ∧
    todo = (q.take (c.claim w.shared.ring).toNat).drop taken

namespace RingRefines

variable {w : Worker β} {c c' : Consumer (Byte β)} {f : Fifo (Byte β)} {todo : List (Byte β)}
  {sh : Shared (Byte β)}

theorem log (h : RingRefines t w c f todo) (hidle : w.producer = .idle) (record : List β) :
    RingRefines t (w.log t record) c f todo := by
  obtain ⟨released, q, pending, taken, hsound, hrest⟩ := h
  exact ⟨released, q, pending, taken, hsound.log hidle record, hrest⟩

theorem pushed (h : RingRefines t w c f todo) {size m : ℤ} (hdone : w.producer = .done size m) :
    RingRefines t (w.pushed m) c f todo := by
  obtain ⟨released, q, pending, taken, hsound, hrest⟩ := h
  have hring : (w.pushed m).shared = w.shared := by
    unfold Worker.pushed
    split_ifs <;> rfl
  refine ⟨released, q, pending, taken, hsound.pushed hdone, ?_⟩
  rw [hring]
  exact hrest

/-- What a step of the ring's `append` publishes stands behind what the queue holds. -/
theorem produce (h : RingRefines t w c f todo) {p : Producer (Byte β)}
    (hs : RingThreads.produce w.shared w.producer = some (sh, p))
    (hzero : ∀ data size, w.producer = .entered data size → w.fits = false →
      w.shared.ring.mOut = 0 → size < w.shared.ring.mSize - w.shared.ring.mIn) :
    ∃ ys, RingRefines t { w with shared := sh, producer := p } c (f.accept ys) todo := by
  obtain ⟨released, q, pending, taken, hsound, hreturned, hstored, htodo⟩ := h
  obtain ⟨-, q', pending', hnext⟩ := hsound.produce hs hzero
  suffices hmore : ∃ ys, q' = q ++ ys ∧ sh.ring.mOut = w.shared.ring.mOut ∧
      sh.ring.mSize = w.shared.ring.mSize by
    obtain ⟨ys, rfl, hout, hsize⟩ := hmore
    have hclaim : c.claim sh.ring = c.claim w.shared.ring := by
      cases c <;> simp only [Consumer.claim, hout, hsize]
    obtain ⟨htaken, hle⟩ := hsound.good.claim_le hsound.consumer
    refine ⟨ys, released, q ++ ys, pending', taken, hnext, ?_⟩
    dsimp only
    rw [hclaim, List.take_append_of_le_length (by omega), List.drop_append_of_le_length (by omega)]
    exact ⟨hreturned, congrArg (· ++ ys) hstored, htodo⟩
  by_cases hentered : ∃ data size, w.producer = .entered data size
  · obtain ⟨data, size, hp⟩ := hentered
    have hsame : sh = w.shared := by
      simp only [hp, RingThreads.produce] at hs
      split_ifs at hs <;> cases hs <;> rfl
    subst hsame
    obtain ⟨rfl, -⟩ := hsound.good.published_unique hnext.good
    exact ⟨[], (List.append_nil _).symm, rfl, rfl⟩
  · rcases hsound.good.produce hsound.producer (fun data size hp => absurd ⟨data, size, hp⟩ hentered)
      with (hidle | ⟨size, m, hdone⟩) | ⟨s₂, p₂, hs₂, ys, pending₂, hgood, -, hout, hsize⟩
    · rw [hidle] at hs
      cases hs
    · rw [hdone] at hs
      cases hs
    · cases hs.symm.trans hs₂
      exact ⟨ys, (hgood.published_unique hnext.good).1, hout, hsize⟩

theorem todo_nil (h : RingRefines t w c f todo) (hc : c.claim w.shared.ring = 0) : todo = [] := by
  obtain ⟨released, q, pending, taken, -, -, -, htodo⟩ := h
  rw [htodo, hc]
  exact List.drop_nil

theorem reader (h : RingRefines t w c f todo) (hc : c.claim w.shared.ring = 0)
    (hc' : ∀ q taken, c.Fits w.shared.ring q taken → c'.Fits w.shared.ring q taken)
    (hclaim : c'.claim w.shared.ring = 0) : RingRefines t w c' f todo := by
  obtain ⟨released, q, pending, taken, hsound, hrest⟩ := h
  rw [hc] at hrest
  refine ⟨released, q, pending, taken, hsound.reader (hc' q taken hsound.consumer), ?_⟩
  rw [hclaim]
  exact hrest

theorem empty_iff (h : RingRefines t w .idle f todo) :
    w.shared.ring.empty = true ↔ f.stored = [] := by
  obtain ⟨released, q, pending, taken, hsound, -, hstored, -⟩ := h
  rw [hsound.good.represents.empty_eq, hstored]
  exact Iff.rfl

/-- The load of `m_in` is where the bytes leave the queue. -/
theorem load {size : ℤ} (h : RingRefines t w (.entered size) f todo)
    (hs : RingThreads.consume w.shared (.entered size) = some (sh, c')) :
    RingRefines t { w with shared := sh } c' (f.release size.toNat) (f.stored.take size.toNat) ∧
      c'.loaded = true ∧ c'.buf = [] := by
  obtain ⟨released, q, pending, taken, hsound, hreturned, hstored, -⟩ := h
  obtain ⟨rfl, hloaded, hbuf, htake, hdrop⟩ := hsound.good.load hs
  obtain ⟨released', q', taken', hnext⟩ := hsound.consume hs
  obtain ⟨rfl, rfl, rfl⟩ := hsound.good.released_unique hnext.good
  have hnone : taken' = 0 := hsound.consumer
  subst hnone
  rw [show (Consumer.entered size : Consumer (Byte β)).claim w.shared.ring = 0 from rfl,
    Int.toNat_zero] at hreturned hstored
  rw [List.take_zero, List.append_nil] at hreturned
  rw [List.drop_zero] at hstored
  refine ⟨⟨released', q', pending, 0, hnext, ?_⟩, hloaded, hbuf⟩
  dsimp only
  rw [htake, hdrop, Fifo.release_returned, Fifo.release_stored, hreturned, hstored, List.drop_zero]
  exact ⟨rfl, rfl, rfl⟩

/-- Behind the load the reader only copies what has left the queue. -/
theorem fetch (h : RingRefines t w c f todo) (hloaded : c.loaded = true)
    (hs : RingThreads.consume w.shared c = some (sh, c')) :
    ∃ xs todo', todo = xs ++ todo' ∧ c'.buf = c.buf ++ xs ∧ c'.loaded = true ∧
      RingRefines t { w with shared := sh } c' f todo' := by
  obtain ⟨released, q, pending, taken, hsound, hreturned, hstored, htodo⟩ := h
  obtain ⟨released', q', taken', hnext⟩ := hsound.consume hs
  obtain ⟨k, taken₂, xs, hgood, -, hfetched, hbuf, hcount, hclaim, hloaded'⟩ :=
    hsound.good.fetch hsound.consumer hloaded hs
  obtain ⟨rfl, rfl, rfl⟩ := hgood.released_unique hnext.good
  have htaken : taken' ≤ c'.claim sh.ring := (hnext.good.claim_le hnext.consumer).1
  have hfits := hsound.good.taken_le
  have hsum : (c.claim w.shared.ring).toNat = k + (c'.claim sh.ring).toNat := by omega
  have hxs : q.take (k + taken') = q.take taken ++ xs := by
    rw [hgood.fetched, hsound.good.fetched, List.append_assoc, List.append_assoc] at hfetched
    rw [List.take_add]
    exact List.append_cancel_left hfetched
  have hsplit : q.take (k + (c'.claim sh.ring).toNat) = q.take taken ++
      (xs ++ (q.drop (k + taken')).take ((c'.claim sh.ring).toNat - taken')) := by
    rw [← List.append_assoc, ← hxs, ← List.take_add]
    congr 1
    omega
  rw [hsum] at hreturned hstored htodo
  refine ⟨xs, _, ?_, hbuf, hloaded', released ++ q.take k, q.drop k, pending, taken', hnext, ?_, ?_,
    rfl⟩
  · rw [htodo, hsplit, List.drop_append_of_le_length (by rw [List.length_take]; omega),
      List.drop_of_length_le (by rw [List.length_take]; omega), List.nil_append, List.drop_take,
      List.drop_drop]
  · rw [hreturned, List.take_add, List.append_assoc]
  · rw [hstored, List.drop_drop]

end RingRefines

/-! ## All rings -/

/-- Where `threadFunc` stands when a `retrive` is over with its load of `m_in`. -/
def Logger.place (s : Logger β) : LoggerDrain.Pc :=
  match s.pc with
  | .loop => .loop
  | .visit t final => .visit t final
  | .retriving t final => if s.consumer.loaded then .retrived t final else .retriving t final
  | .settling => .settling
  | .finishing => .finishing
  | .finished => .finished

/-- The logger `a` over queues stands for `s`. The running `retrive` is still going to copy `todo`,
which `a` has staged already. -/
structure Refines (todo : List (Byte β)) (s : Logger β) (a : LoggerDrain.Logger (Byte β)) :
    Prop where
  keys : a.keys = s.keys
  running : a.mRunning = s.running
  place : a.pc = s.place
  rings : ∀ t, RingRefines t (s.worker t) (s.reader t) (a.ring t)
    (if s.pc.ring = some t then todo else [])
  resting : (∀ t final, s.pc ≠ .retriving t final) → s.consumer = .idle ∧ todo = []
  asked : ∀ size, s.consumer = .entered size → size = bufferSize - s.staged.length
  known : ∀ t, (s.worker t).producer ≠ .idle → t ∈ s.keys
  nonneg : 0 ≤ a.n
  staged : s.pc ≠ .finished → a.staged = s.staged ++ (s.consumer.buf ++ todo)
  output : a.chunks.flatten = s.output

variable {s s' : Logger β} {a : LoggerDrain.Logger (Byte β)} {todo : List (Byte β)}

theorem refines_start (garbage : ℤ → ℤ → Byte β) (buffer : ℤ → Byte β) :
    Refines [] (start garbage) (LoggerDrain.start buffer) where
  keys := rfl
  running := rfl
  place := rfl
  rings t := ⟨[], [], [], 0, sound_start t garbage, rfl, rfl, rfl⟩
  resting _ := ⟨rfl, rfl⟩
  asked _ := nofun
  known _ h := absurd rfl h
  nonneg := le_rfl
  staged _ := rfl
  output := rfl

theorem place_nextPc (final : Bool) (o : Option ℤ) :
    Logger.place { s with pc := nextPc final o } = LoggerDrain.nextPc final o := by
  cases o with
  | some t => rfl
  | none => cases final <;> rfl

theorem reader_retriving {final : Bool} (hpc : s.pc = .retriving t final) (u : ℤ) :
    s.reader u = if t = u then s.consumer else .idle := by
  simp only [Logger.reader, hpc]

namespace Refines

theorem n_eq (h : Refines todo s a) (hopen : s.pc ≠ .finished) :
    a.n = (s.staged ++ (s.consumer.buf ++ todo)).length := by
  rw [← h.staged hopen, LoggerDrain.Logger.staged, length_readBlock]
  exact (Int.toNat_of_nonneg h.nonneg).symm

theorem worker (h : Refines todo s a) {ks : List ℤ} {w : Worker β} {r : ℤ → Fifo (Byte β)}
    (hr : ∀ u, u ≠ t → r u = a.ring u)
    (hw : RingRefines t w (s.reader t) (r t) (if s.pc.ring = some t then todo else []))
    (hsub : ∀ u ∈ s.keys, u ∈ ks) (hmem : w.producer ≠ .idle → t ∈ ks) :
    Refines todo (setWorker { s with keys := ks } t w) { a with ring := r, keys := ks } := by
  refine ⟨rfl, h.running, h.place, fun u => ?_, h.resting, h.asked, fun u hu => ?_, h.nonneg,
    h.staged, h.output⟩
  · by_cases hut : u = t
    · subst hut
      rw [worker_self]
      exact hw
    · rw [worker_of_ne _ _ hut]
      dsimp only
      rw [hr u hut]
      exact h.rings u
  · by_cases hut : u = t
    · subst hut
      rw [worker_self] at hu
      exact hmem hu
    · rw [worker_of_ne _ _ hut] at hu
      exact hsub u (h.known u hu)

theorem move (h : Refines todo s a) {pc : Pc} {place : LoggerDrain.Pc}
    (hfrom : ∀ t final, s.pc ≠ .retriving t final) (hto : ∀ t final, pc ≠ .retriving t final)
    (hopen : s.pc ≠ .finished) (hplace : place = Logger.place { s with pc := pc }) :
    Refines [] { s with pc := pc } { a with pc := place } := by
  obtain ⟨hidle, rfl⟩ := h.resting hfrom
  refine ⟨h.keys, h.running, hplace, fun u => ?_, fun _ => ⟨hidle, rfl⟩, h.asked, h.known, h.nonneg,
    fun _ => h.staged hopen, h.output⟩
  have hring := h.rings u
  rw [ite_self, reader_of_ne (hfrom u)] at hring
  rw [ite_self, reader_of_ne (s := { s with pc := pc }) (hto u)]
  exact hring

theorem flush (h : Refines [] s a) (hidle : s.consumer = .idle) (hopen : s.pc ≠ .finished) :
    Refines [] (flush s) a.flush := by
  have hstaged := h.staged hopen
  rw [hidle, Consumer.buf, List.append_nil, List.append_nil] at hstaged
  refine ⟨h.keys, h.running, h.place, h.rings, h.resting, fun size hsize => ?_, h.known, le_rfl, ?_,
    ?_⟩
  · rw [show s.consumer = .entered size from hsize] at hidle
    cases hidle
  · intro _
    rw [LoggerDrain.staged_flush]
    simp [LoggerThreads.flush, hidle, Consumer.buf]
  · simp [LoggerThreads.flush, LoggerDrain.Logger.flush, LoggerDrain.Logger.output, h.output, hstaged]

theorem stop (h : Refines todo s a) :
    Refines todo { s with running := false } { a with mRunning := false } :=
  ⟨h.keys, rfl, h.place, h.rings, h.resting, h.asked, h.known, h.nonneg, h.staged, h.output⟩

theorem enter (h : Refines todo s a) {final : Bool} (hpc : s.pc = .visit t final) :
    Refines [] { s with pc := .retriving t final,
                        consumer := .entered (bufferSize - s.staged.length) }
      { a with pc := .retriving t final } := by
  have hfrom : ∀ u f, s.pc ≠ .retriving u f := by simp [hpc]
  obtain ⟨hidle, rfl⟩ := h.resting hfrom
  have hstaged := h.staged (by simp [hpc])
  rw [hidle] at hstaged
  refine ⟨h.keys, h.running, rfl, fun u => ?_, fun hto => absurd rfl (hto t final), fun size hsize => ?_,
    h.known, h.nonneg, fun _ => hstaged, h.output⟩
  · have hring := h.rings u
    rw [ite_self, reader_of_ne (hfrom u)] at hring
    rw [ite_self, reader_retriving rfl u]
    split_ifs
    · exact hring.reader rfl (fun _ _ => id) rfl
    · exact hring
  · cases hsize
    rfl

theorem retrive (h : Refines todo s a) {final : Bool} (hpc : s.pc = .retriving t final)
    {sh : Shared (Byte β)} {c : Consumer (Byte β)} {todo' : List (Byte β)}
    {a' : LoggerDrain.Logger (Byte β)} (hkeys : a'.keys = a.keys)
    (hrunning : a'.mRunning = a.mRunning) (hplace : a'.pc = .retrived t final)
    (hloaded : c.loaded = true) (hothers : ∀ u, u ≠ t → a'.ring u = a.ring u)
    (hring : RingRefines t { s.worker t with shared := sh } c (a'.ring t) todo')
    (hnonneg : 0 ≤ a'.n) (hstaged : a'.staged = s.staged ++ (c.buf ++ todo'))
    (houtput : a'.chunks = a.chunks) :
    Refines todo' (setWorker { s with consumer := c } t { s.worker t with shared := sh }) a' := by
  refine ⟨hkeys.trans h.keys, hrunning.trans h.running, ?_, fun u => ?_,
    fun hto => absurd hpc (hto t final), fun size hsize => ?_, fun u hu => ?_, hnonneg,
    fun _ => hstaged, houtput ▸ h.output⟩
  · rw [hplace]
    simp [Logger.place, setWorker, hpc, hloaded]
  · have hat : (setWorker { s with consumer := c } t { s.worker t with shared := sh }).pc.ring =
        some t := by
      simp only [setWorker, hpc, Pc.ring]
    rw [reader_retriving (show (setWorker { s with consumer := c } t _).pc = _ from hpc) u, hat]
    by_cases hu : u = t
    · subst hu
      rw [worker_self, if_pos rfl, if_pos rfl]
      exact hring
    · have hold := h.rings u
      have hne : some t ≠ some u := fun heq => hu (Option.some.inj heq).symm
      rw [reader_retriving hpc, if_neg (Ne.symm hu), hpc, Pc.ring, if_neg hne] at hold
      rw [worker_of_ne _ _ hu, if_neg (Ne.symm hu), if_neg hne, hothers u hu]
      exact hold
  · rw [show c = .entered size from hsize] at hloaded
    cases hloaded
  · by_cases hut : u = t
    · subst hut
      rw [worker_self] at hu
      exact h.known u hu
    · rw [worker_of_ne _ _ hut] at hu
      exact h.known u hu

theorem stage (h : Refines todo s a) {final : Bool} {size m : ℤ} {buf : List (Byte β)}
    (hpc : s.pc = .retriving t final) (hc : s.consumer = .done size m buf) :
    Refines [] { s with pc := .visit t final, consumer := .idle, staged := s.staged ++ buf }
      { a with pc := .visit t final } := by
  have hread := h.rings t
  simp only [Logger.reader, hpc, Pc.ring, hc, if_pos] at hread
  have hnone : todo = [] := hread.todo_nil rfl
  subst hnone
  have hstaged := h.staged (by simp [hpc])
  rw [hc, Consumer.buf, List.append_nil] at hstaged
  refine ⟨h.keys, h.running, rfl, fun u => ?_, fun _ => ⟨rfl, rfl⟩, by simp, h.known, h.nonneg,
    fun _ => ?_, h.output⟩
  · have hring := h.rings u
    rw [ite_self, reader_retriving hpc, hc] at hring
    have hto : ∀ f, (Pc.visit t final : Pc) ≠ .retriving u f := by simp
    rw [ite_self, reader_of_ne
      (s := { s with pc := .visit t final, consumer := .idle, staged := s.staged ++ buf }) hto]
    split_ifs at hring
    · exact hring.reader rfl (fun _ _ => id) rfl
    · exact hring
  · simp only [Consumer.buf, List.append_nil]
    exact hstaged

end Refines

/-- What `InOrder` asks of the ring's `append`; where `threadFunc` leaves a ring does not matter. -/
def Clear (s : Logger β) : Label β → Prop
  | .produce t => InOrder s (.produce t)
  | _ => True

/-- The condition can be decided where the ring's `append` is. -/
instance decidableClear (s : Logger β) : (l : Label β) → Decidable (Clear s l)
  | .produce t =>
    match h : (s.worker t).producer with
    | .entered data size => decidable_of_iff
        ((s.worker t).fits = false → (s.worker t).shared.ring.mOut = 0 →
          size < (s.worker t).shared.ring.mSize - (s.worker t).shared.ring.mIn)
        ⟨fun hroom data' size' hp => by cases h.symm.trans hp; exact hroom,
          fun hroom => hroom data size h⟩
    | .idle => isTrue fun _ _ hp => by cases h.symm.trans hp
    | .copying _ _ _ => isTrue fun _ _ hp => by cases h.symm.trans hp
    | .storing _ _ _ _ => isTrue fun _ _ hp => by cases h.symm.trans hp
    | .copyingRest _ _ _ _ => isTrue fun _ _ hp => by cases h.symm.trans hp
    | .storingRest _ _ _ _ => isTrue fun _ _ hp => by cases h.symm.trans hp
    | .copyingBehind _ _ _ => isTrue fun _ _ hp => by cases h.symm.trans hp
    | .storingBehind _ _ _ => isTrue fun _ _ hp => by cases h.symm.trans hp
    | .done _ _ => isTrue fun _ _ hp => by cases h.symm.trans hp
  | .log _ _ | .pushed _ | .stop | .running | .check | .retrive | .retrived | .settle _
  | .finish => isTrue trivial

theorem Refines.step {l : Label β} (h : Refines todo s a) (hl : Clear s l)
    (hs : LoggerThreads.step s l = some s') :
    ∃ ms a' todo', run LoggerDrain.step a ms = some a' ∧ Refines todo' s' a' := by
  cases l with
  | log t record =>
    simp only [LoggerThreads.step] at hs
    split at hs
    · rename_i hidle
      cases hs
      refine ⟨[.append t []], _, todo, rfl, ?_⟩
      rw [LoggerDrain.Logger.append, h.keys]
      refine h.worker (fun u hu => Function.update_of_ne hu _ _) ?_ (fun u hu => ?_) fun _ => ?_
      · rw [Function.update_self]
        obtain ⟨released, q, pending, taken, hsound, hreturned, hstored, htodo⟩ :=
          (h.rings t).log hidle record
        refine ⟨released, q, pending, taken, hsound, hreturned, ?_, htodo⟩
        rw [Fifo.accept_stored, List.append_nil]
        exact hstored
      · split_ifs
        · exact hu
        · exact List.mem_cons_of_mem _ hu
      · split_ifs with hmem
        · exact hmem
        · exact List.mem_cons_self ..
    · cases hs
  | produce t =>
    obtain ⟨⟨sh, p⟩, hprod, rfl⟩ := Option.map_eq_some_iff.mp hs
    obtain ⟨ys, hring⟩ := (h.rings t).produce hprod hl
    have hmem : t ∈ s.keys := by
      apply h.known
      intro hidle
      rw [hidle] at hprod
      cases hprod
    refine ⟨[.append t ys], _, todo, rfl, ?_⟩
    rw [LoggerDrain.Logger.append, h.keys, if_pos hmem]
    refine h.worker (fun u hu => Function.update_of_ne hu _ _) ?_ (fun _ hu => hu) fun _ => hmem
    rw [Function.update_self]
    exact hring
  | pushed t =>
    simp only [LoggerThreads.step] at hs
    split at hs
    · rename_i size m hdone
      cases hs
      have hmem : t ∈ s.keys := h.known t (by simp [hdone])
      have hnext := h.worker (r := a.ring) (fun _ _ => rfl) ((h.rings t).pushed hdone)
        (fun _ hu => hu) fun _ => hmem
      have hsame : { a with ring := a.ring, keys := s.keys } = a := by rw [← h.keys]
      rw [hsame] at hnext
      exact ⟨[], a, todo, rfl, hnext⟩
    · cases hs
  | stop =>
    cases hs
    exact ⟨[.stop], _, todo, rfl, h.stop⟩
  | running =>
    simp only [LoggerThreads.step] at hs
    split at hs
    · rename_i hpc
      cases hs
      have hplace : a.pc = .loop := by rw [h.place, Logger.place, hpc]
      refine ⟨[.running], _, [], by simp only [run, LoggerDrain.step, hplace]; rfl, ?_⟩
      apply h.move (by simp [hpc]) (nextPc_ne_retriving _ _) (by simp [hpc])
      rw [place_nextPc, h.running, h.keys]
    · cases hs
  | check =>
    simp only [LoggerThreads.step] at hs
    split at hs
    · rename_i t final hpc
      have hplace : a.pc = .visit t final := by rw [h.place, Logger.place, hpc]
      have hfrom : ∀ u f, s.pc ≠ .retriving u f := by simp [hpc]
      have hring := h.rings t
      rw [reader_of_ne (hfrom t)] at hring
      split_ifs at hs with hempty
      · cases hs
        have hnil := List.isEmpty_iff.mpr (hring.empty_iff.mp hempty)
        refine ⟨[.check], _, [], by simp only [run, LoggerDrain.step, hplace, hnil]; rfl, ?_⟩
        apply h.move hfrom (nextPc_ne_retriving _ _) (by simp [hpc])
        rw [place_nextPc, h.keys]
      · cases hs
        have hsome : ¬ (a.ring t).stored.isEmpty = true :=
          fun hnil => hempty (hring.empty_iff.mpr (List.isEmpty_iff.mp hnil))
        refine ⟨[.check], _, [], by simp only [run, LoggerDrain.step, hplace, if_neg hsome]; rfl, ?_⟩
        exact h.enter hpc
    · cases hs
  | retrive =>
    simp only [LoggerThreads.step] at hs
    split at hs
    · rename_i t final hpc
      obtain ⟨⟨sh, c⟩, hcons, rfl⟩ := Option.map_eq_some_iff.mp hs
      have hring := h.rings t
      rw [reader_retriving hpc, if_pos rfl, hpc, Pc.ring, if_pos rfl] at hring
      cases hloaded : s.consumer.loaded with
      | true =>
        have hplace : a.pc = .retrived t final := by
          rw [h.place, Logger.place, hpc]
          exact if_pos hloaded
        obtain ⟨xs, todo', rfl, hbuf, hloaded', hnext⟩ := hring.fetch hloaded hcons
        refine ⟨[], a, todo', rfl, ?_⟩
        refine h.retrive hpc rfl rfl hplace hloaded' (fun _ _ => rfl) hnext h.nonneg ?_ rfl
        rw [h.staged (by simp [hpc]), hbuf, List.append_assoc]
      | false =>
        cases hc : s.consumer with
        | idle =>
          rw [hc] at hcons
          cases hcons
        | entered size =>
          rw [hc] at hcons hring
          have hplace : a.pc = .retriving t final := by
            rw [h.place, Logger.place, hpc]
            exact if_neg (by rw [hloaded]; exact Bool.false_ne_true)
          have hnone : todo = [] := hring.todo_nil rfl
          subst hnone
          have hopen : s.pc ≠ .finished := by simp [hpc]
          have hstaged := h.staged hopen
          have hn := h.n_eq hopen
          rw [hc, Consumer.buf, List.append_nil, List.append_nil] at hstaged hn
          have hsize : size = bufferSize - a.n := by
            rw [hn]
            exact h.asked size hc
          obtain ⟨hnext, hloaded', hbuf⟩ := hring.load hcons
          rw [hsize] at hnext
          refine ⟨[.retrive], { a.retrive t with pc := .retrived t final },
            (a.ring t).stored.take (bufferSize - a.n).toNat,
            by simp only [run, LoggerDrain.step, hplace]; rfl, ?_⟩
          refine h.retrive hpc rfl rfl rfl hloaded' (fun u hu => Function.update_of_ne hu _ _) ?_
            (Int.add_nonneg h.nonneg (Int.natCast_nonneg _)) ?_ rfl
          · have hself : (a.retrive t).ring t = (a.ring t).release (bufferSize - a.n).toNat :=
              Function.update_self ..
            rw [← hself] at hnext
            exact hnext
          · rw [hbuf, ← hstaged]
            exact LoggerDrain.staged_retrive h.nonneg t
        | copying | storing | copyingWrapped | storingWrapped | copyingRest | storingRest | done =>
          rw [hc] at hloaded
          cases hloaded
    · cases hs
  | retrived =>
    simp only [LoggerThreads.step] at hs
    split at hs
    · rename_i t final size m buf hpc hc
      have hstage := h.stage hpc hc
      have hplace : a.pc = .retrived t final := by
        rw [h.place, Logger.place, hpc]
        exact if_pos (by rw [hc]; rfl)
      have hn : a.n = (s.staged ++ buf).length := by
        have hlength := hstage.n_eq (by simp)
        rwa [Consumer.buf, List.append_nil, List.append_nil] at hlength
      cases hs
      split_ifs with hhigh
      · have hhigh' : a.n > highWaterMark := by rwa [hn]
        refine ⟨[.retrived], _, [], ?_, hstage.flush rfl (by simp)⟩
        simp only [run, LoggerDrain.step, hplace, if_pos hhigh']
        rfl
      · have hlow : ¬ a.n > highWaterMark := by rwa [hn]
        refine ⟨[.retrived], _, [], ?_, hstage⟩
        simp only [run, LoggerDrain.step, hplace, if_neg hlow]
        rfl
    · cases hs
  | settle timeout =>
    simp only [LoggerThreads.step] at hs
    split at hs
    · rename_i hpc
      have hplace : a.pc = .settling := by rw [h.place, Logger.place, hpc]
      have hfrom : ∀ u f, s.pc ≠ .retriving u f := by simp [hpc]
      have hmove : Refines [] { s with pc := .loop } { a with pc := .loop } :=
        h.move hfrom (by simp) (by simp [hpc]) rfl
      have hidle := (h.resting hfrom).1
      have hn : a.n = s.staged.length := by
        have hlength := hmove.n_eq (by simp)
        rwa [hidle, Consumer.buf, List.append_nil, List.append_nil] at hlength
      cases hs
      split_ifs with hlow
      · have hlow' : a.n > lowWaterMark ∨ timeout := by rwa [hn]
        refine ⟨[.settle timeout], _, [], ?_, hmove.flush hidle (by simp)⟩
        simp only [run, LoggerDrain.step, hplace, if_pos hlow']
        rfl
      · have hhold : ¬ (a.n > lowWaterMark ∨ timeout) := by rwa [hn]
        refine ⟨[.settle timeout], _, [], ?_, hmove⟩
        simp only [run, LoggerDrain.step, hplace, if_neg hhold]
        rfl
    · cases hs
  | finish =>
    simp only [LoggerThreads.step] at hs
    split at hs
    · rename_i hpc
      have hplace : a.pc = .finishing := by rw [h.place, Logger.place, hpc]
      have hfrom : ∀ u f, s.pc ≠ .retriving u f := by simp [hpc]
      obtain ⟨hidle, rfl⟩ := h.resting hfrom
      have hopen : s.pc ≠ .finished := by simp [hpc]
      have hend : Refines [] { s with pc := .finished } { a with pc := .finished } :=
        h.move hfrom (by simp) hopen rfl
      cases hs
      refine ⟨[.finish], { a.output with pc := .finished }, [],
        by simp only [run, LoggerDrain.step, hplace]; rfl, ?_⟩
      refine ⟨hend.keys, hend.running, rfl, hend.rings, hend.resting, fun size hsize => ?_,
        hend.known, hend.nonneg, fun hne => absurd rfl hne, ?_⟩
      · rw [show s.consumer = .entered size from hsize] at hidle
        cases hidle
      · simp [LoggerThreads.flush, LoggerDrain.Logger.output, h.output, h.staged hopen, hidle,
          Consumer.buf]
    · cases hs

theorem Refines.run (h : Refines todo s a) {ls : List (Label β)}
    (hl : Guarded LoggerThreads.step Clear s ls)
    (hr : TransitionRuns.run LoggerThreads.step s ls = some s') :
    ∃ ms a' todo', TransitionRuns.run LoggerDrain.step a ms = some a' ∧ Refines todo' s' a' := by
  have hstep : ∀ (s : Logger β) l s' a, (∃ todo, Refines todo s a) → Clear s l →
      LoggerThreads.step s l = some s' → ∃ ms a', TransitionRuns.run LoggerDrain.step a ms = some a' ∧
        ∃ todo, Refines todo s' a' := by
    rintro s l s' a ⟨todo, h⟩ hok hs
    obtain ⟨ms, a', todo', hrun, hnext⟩ := h.step hok hs
    exact ⟨ms, a', hrun, todo', hnext⟩
  obtain ⟨ms, a', hrun, todo', hend⟩ := hl.simulation hstep ⟨todo, h⟩ hr
  exact ⟨ms, a', todo', hrun, hend⟩

/-- Over any number of threads and under every interleaving of the steps of their ring's `append`
with those of `threadFunc`, the logger does what it does over first-in first-out queues with atomic
calls. -/
theorem threads_refine_drain (garbage : ℤ → ℤ → Byte β) (buffer : ℤ → Byte β)
    {ls : List (Label β)} (hr : run step (start garbage) ls = some s)
    (hl : Guarded step Clear (start garbage) ls) :
    ∃ ms a todo, run LoggerDrain.step (LoggerDrain.start buffer) ms = some a ∧
      Refines todo s a := (refines_start garbage buffer).run hl hr

/-- The logger thread is at the ring of thread 1, and thread 2 between its copy and its store. -/
theorem threads_refine_drain_two : ∃ s, run step (start fun _ _ => blank)
      [.log 1 [7, 8], .produce 1, .produce 1, .produce 1, .running, .check, .retrive, .log 2 [9],
        .retrive, .produce 2, .produce 2] = some s ∧
    ∃ ms a todo, run LoggerDrain.step (LoggerDrain.start fun _ => blank) ms = some a ∧
      Refines todo s a := by
  obtain ⟨s, hs⟩ : ∃ s, run step (start fun _ _ => blank)
      [.log 1 [7, 8], .produce 1, .produce 1, .produce 1, .running, .check, .retrive, .log 2 [9],
        .retrive, .produce 2, .produce 2] = some s := ⟨_, rfl⟩
  exact ⟨s, hs, threads_refine_drain (fun _ _ => blank) (fun _ => blank) hs (by decide)⟩

end GenericServer.LoggerThreads
