import Mathlib.Data.Finset.Basic
import Mathlib.Data.Fintype.Card
import Mathlib.Data.Set.Finite.Basic
import Mathlib.Logic.Relation
import Mathlib.Order.WellFounded

/-!
# Graphs of parties that wait for each other

`waits t u` says that `t` cannot go on before `u` does. A deadlock is a finite set of parties
each of which waits for another one of the set; where every party of the set waits for somebody
this is a cycle. The rules below follow a graph through the steps of a system: a party that
starts to wait adds edges that go out of it, and a party that has just got what others wait for
has only edges that come in.
-/
namespace GenericServer.WaitGraphs

open Relation

variable {ι : Type*} {waits waits' : ι → ι → Prop} {s t u : ι}

/-- Each party of the set waits for another one of the set. -/
def Stuck (waits : ι → ι → Prop) (parties : Finset ι) : Prop :=
  parties.Nonempty ∧ ∀ t ∈ parties, ∃ u ∈ parties, u ≠ t ∧ waits t u

def Deadlock (waits : ι → ι → Prop) : Prop := ∃ parties, Stuck waits parties

def Acyclic (waits : ι → ι → Prop) : Prop := ∀ t, ¬ TransGen waits t t

theorem Acyclic.not_deadlock (h : Acyclic waits) : ¬ Deadlock waits := by
  rintro ⟨parties, ⟨t, ht⟩, hwaits⟩
  let below : parties → parties → Prop := fun a b => TransGen waits b a
  have hirrefl : Std.Irrefl below := ⟨fun a => h a⟩
  have htrans : IsTrans parties below := ⟨fun _ _ _ hab hbc => hbc.trans hab⟩
  have hwf : WellFounded below := Finite.wellFounded_of_trans_of_irrefl below
  obtain ⟨last, -, hlast⟩ := hwf.has_min Set.univ ⟨⟨t, ht⟩, trivial⟩
  obtain ⟨u, hu, -, hedge⟩ := hwaits last last.2
  exact hlast ⟨u, hu⟩ trivial (.single hedge)

theorem Acyclic.mono (h : Acyclic waits) (hsub : ∀ a b, waits' a b → waits a b) :
    Acyclic waits' :=
  fun t ht => h t (TransGen.mono hsub t t ht)

/-- The new edges go out of `t`, to parties that have no path to `t`. -/
theorem Acyclic.add_out (h : Acyclic waits)
    (hnew : ∀ a b, waits' a b → waits a b ∨ (a = t ∧ ¬ ReflTransGen waits b t)) :
    Acyclic waits' := by
  -- a path is an old one, or it leads to `t` and goes on from the end of a new edge
  have hpath : ∀ {a c}, TransGen waits' a c →
      TransGen waits a c ∨ ∃ b, ¬ ReflTransGen waits b t ∧ ReflTransGen waits a t ∧
        ReflTransGen waits b c := by
    intro a c hac
    induction hac with
    | single hedge =>
      rcases hnew _ _ hedge with hold | ⟨rfl, hback⟩
      · exact .inl (.single hold)
      · exact .inr ⟨_, hback, .refl, .refl⟩
    | tail _ hedge ih =>
      rcases hnew _ _ hedge with hold | ⟨rfl, hback⟩
      · rcases ih with hac | ⟨b, hb, hat, hbc⟩
        · exact .inl (hac.tail hold)
        · exact .inr ⟨b, hb, hat, hbc.tail hold⟩
      · rcases ih with hac | ⟨b, hb, -, hbc⟩
        · exact .inr ⟨_, hback, hac.to_reflTransGen, .refl⟩
        · exact absurd hbc hb
  intro a ha
  rcases hpath ha with hold | ⟨b, hb, hat, hba⟩
  · exact h a hold
  · exact hb (hba.trans hat)

/-- The new edges lead to `u`, which waits for nobody. -/
theorem Acyclic.add_sink (h : Acyclic waits) (hnew : ∀ a b, waits' a b → waits a b ∨ b = u)
    (hsink : ∀ b, ¬ waits' u b) : Acyclic waits' := by
  have hpath : ∀ {a c}, TransGen waits' a c → TransGen waits a c ∨ c = u := by
    intro a c hac
    induction hac with
    | single hedge =>
      rcases hnew _ _ hedge with hold | heq
      · exact .inl (.single hold)
      · exact .inr heq
    | tail _ hedge ih =>
      rcases hnew _ _ hedge with hold | heq
      · rcases ih with hac | rfl
        · exact .inl (hac.tail hold)
        · exact absurd hedge (hsink _)
      · exact .inr heq
  intro a ha
  rcases hpath ha with hold | rfl
  · exact h a hold
  · obtain ⟨b, hb, -⟩ := TransGen.head'_iff.mp ha
    exact hsink b hb

end GenericServer.WaitGraphs
