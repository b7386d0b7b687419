import GenericServer.PendingFunctors
import Mathlib.Tactic.SplitIfs

/-!
# What a step of an event loop does

`Move s l s'` lists the steps of `PendingFunctors.step` with what they need and the state they
lead to; the invariants of the loop go through its constructors.
-/
namespace GenericServer.PendingFunctors

/-- The call that a label begins on thread `t`; `wake` tells `runInLoop` from `addPending`. -/
inductive Label.Begins : Label → ℤ → Bool → Prop
  | runInLoop (t : ℤ) : Begins (.runInLoop t) t true
  | addPending (t : ℤ) (room : ℕ) : Begins (.addPending t room) t false

inductive Move (s : EventLoop) : Label → EventLoop → Prop
  | runInLoop (hnesting : 0 < s.nesting) : Move s (.runInLoop s.threadId)
      { s with posted := s.posted ++ [call s s.threadId .direct]
               executed := s.executed ++ [call s s.threadId .direct]
               nesting := s.nesting + 1 }
  | post {t : ℤ} {wake : Bool} {l : Label} (hl : l.Begins t wake) (ht : t ≠ s.threadId)
      (hidle : s.poster t = .idle) : Move s l { setPoster s t (.locking (call s t .pending) wake) with
        posted := s.posted ++ [call s t .pending] }
  | pushOwn {room : ℕ} (hnesting : 0 < s.nesting) (howner : s.owner = none) :
      Move s (.addPending s.threadId room)
        (emplaceBack { s with posted := s.posted ++ [call s s.threadId .pending] }
          (call s s.threadId .pending) room)
  | pushDuring {room : ℕ} (hnesting : 0 < s.nesting) (howner : s.owner = some s.threadId) :
      Move s (.addPending s.threadId room)
        (emplaceBack { s with posted := s.posted ++ [call s s.threadId .during] }
          (call s s.threadId .during) room)
  | lock {t : ℤ} {f : Functor} {wake : Bool} (hp : s.poster t = .locking f wake)
      (howner : s.owner = none) : Move s (.lock t) { setPoster s t (.pushing f wake) with owner := some t }
  | push {t : ℤ} {f : Functor} {wake : Bool} {room : ℕ} (hp : s.poster t = .pushing f wake) :
      Move s (.push t room)
        { emplaceBack (setPoster s t (if wake then .waking else .idle)) f room with owner := none }
  | wake {t : ℤ} (hp : s.poster t = .waking) :
      Move s (.wake t) { setPoster s t .idle with wakeup := s.wakeup + 1 }
  | ret : Move s .ret { s with nesting := s.nesting - 1 }
  | quit : Move s .quit { s with quit := true }
  | loop (hpc : s.pc = .outside) : Move s .loop { s with pc := .testing, nesting := 0 }
  | leave (hpc : s.pc = .testing) : Move s .test { s with pc := .outside, nesting := 1 }
  | goOn (hpc : s.pc = .testing) : Move s .test { s with pc := .polling }
  | poll {wakeup others : Bool} (hpc : s.pc = .polling) (hsome : wakeup ∨ others)
      (hread : wakeup → 0 < s.wakeup) :
      Move s (.poll wakeup others) { s with pc := .handling wakeup }
  | handleEvent {w : Bool} (hpc : s.pc = .handling w) (hnesting : s.nesting = 0) :
      Move s .handleEvent { s with nesting := 1 }
  | handleWakeup (hpc : s.pc = .handling true) (hnesting : s.nesting = 0) :
      Move s .handleWakeup { s with pc := .handling false, wakeup := 0 }
  | handled (hpc : s.pc = .handling false) (hnesting : s.nesting = 0) :
      Move s .handled { s with pc := .locking }
  | lockPending (hpc : s.pc = .locking) (howner : s.owner = none) : Move s .lockPending
      { s with pc := .walking 0 s.pending.length, owner := some s.threadId }
  | next {f : Functor} {n stop : ℕ} (hpc : s.pc = .walking n stop) (hn : n < stop)
      (hnesting : s.nesting = 0) (hf : s.pending[n]? = some f) : Move s .next
      { s with pc := .walking (n + 1) stop, executed := s.executed ++ [f], nesting := 1 }
  | clear {stop : ℕ} (hpc : s.pc = .walking stop stop) (hnesting : s.nesting = 0) :
      Move s .clear { s with pc := .cleared, pending := [] }
  | unlock (hpc : s.pc = .cleared) : Move s .unlock { s with pc := .testing, owner := none }

variable {s s' : EventLoop}

private theorem move_of_post {t : ℤ} {wake : Bool} {l : Label} (hl : l.Begins t wake)
    (ht : t ≠ s.threadId) (hs : post s t wake = some s') : Move s l s' := by
  unfold post at hs
  split at hs
  · rename_i hidle
    cases hs
    exact .post hl ht hidle
  · cases hs

private theorem move_of_addPendingInLoop {room : ℕ} (hnesting : 0 < s.nesting)
    (hs : addPendingInLoop s room = some s') : Move s (.addPending s.threadId room) s' := by
  unfold addPendingInLoop at hs
  split at hs
  · rename_i howner
    cases hs
    exact .pushOwn hnesting howner
  · rename_i t howner
    split_ifs at hs with hroom
    cases hs
    obtain ⟨rfl, -⟩ := hroom
    exact .pushDuring hnesting howner

theorem move_of_step {l : Label} (hs : step s l = some s') : Move s l s' := by
  cases l with
  | runInLoop t =>
    simp only [step] at hs
    split_ifs at hs with ht hnesting
    · cases hs
      subst ht
      exact .runInLoop hnesting
    · exact move_of_post (.runInLoop t) ht hs
  | addPending t room =>
    simp only [step] at hs
    split_ifs at hs with ht hnesting
    · subst ht
      exact move_of_addPendingInLoop hnesting hs
    · exact move_of_post (.addPending t room) ht hs
  | lock t =>
    simp only [step] at hs
    split at hs
    · rename_i hp howner
      cases hs
      exact .lock hp howner
    · cases hs
  | push t room =>
    simp only [step] at hs
    split at hs
    · rename_i hp
      cases hs
      exact .push hp
    · cases hs
  | wake t =>
    simp only [step] at hs
    split at hs
    · rename_i hp
      cases hs
      exact .wake hp
    · cases hs
  | ret =>
    simp only [step] at hs
    split_ifs at hs
    cases hs
    exact .ret
  | quit =>
    cases hs
    exact .quit
  | loop =>
    simp only [step] at hs
    split_ifs at hs with hpc
    cases hs
    exact .loop hpc.1
  | test =>
    simp only [step] at hs
    split at hs
    · rename_i hpc
      cases hs
      split_ifs
      · exact .leave hpc
      · exact .goOn hpc
    · cases hs
  | poll wakeup others =>
    simp only [step] at hs
    split_ifs at hs with hpc
    cases hs
    exact .poll hpc.1 hpc.2.1 hpc.2.2
  | handleEvent =>
    simp only [step] at hs
    split at hs
    · rename_i w hpc
      split_ifs at hs with hnesting
      cases hs
      exact .handleEvent hpc hnesting
    · cases hs
  | handleWakeup =>
    simp only [step] at hs
    split_ifs at hs with hpc
    cases hs
    exact .handleWakeup hpc.1 hpc.2
  | handled =>
    simp only [step] at hs
    split_ifs at hs with hpc
    cases hs
    exact .handled hpc.1 hpc.2
  | lockPending =>
    simp only [step] at hs
    split_ifs at hs with hpc
    cases hs
    exact .lockPending hpc.1 hpc.2
  | next =>
    simp only [step] at hs
    split at hs
    · rename_i n stop hpc
      split_ifs at hs with hnext
      obtain ⟨f, hf, rfl⟩ := Option.map_eq_some_iff.mp hs
      exact .next hpc hnext.1 hnext.2 hf
    · cases hs
  | clear =>
    simp only [step] at hs
    split at hs
    · rename_i n stop hpc
      split_ifs at hs with hend
      cases hs
      obtain ⟨rfl, hnesting⟩ := hend
      exact .clear hpc hnesting
    · cases hs
  | unlock =>
    simp only [step] at hs
    split_ifs at hs with hpc
    cases hs
    exact .unlock hpc

theorem Move.threadId {l : Label} (h : Move s l s') : s'.threadId = s.threadId := by
  cases h <;> rfl

end GenericServer.PendingFunctors
