/-
Dominance in a directed graph: a node that every path to another one leaves
through.
-/
import Mathlib.Logic.Relation
import Mathlib.Tactic.ByContra

namespace Flow

open Relation

variable {α : Type} (edge : α → α → Prop)

/-- A path that does not leave `d`. -/
def Avoids (d : α) : α → α → Prop := ReflTransGen fun a c => edge a c ∧ a ≠ d

/-- Every path from the entry to `b` goes through `d`. -/
def Dominates (entry d b : α) : Prop := b ≠ d → ¬ Avoids edge d entry b

variable {edge}

theorem Avoids.tail {d entry a c : α} (h : Avoids edge d entry a) (hedge : edge a c) (ha : a ≠ d) :
    Avoids edge d entry c :=
  ReflTransGen.tail h ⟨hedge, ha⟩

/-- A path that avoids `d` goes through `b` on its way or avoids it as well. -/
theorem Avoids.through {d entry c : α} (b : α) (h : Avoids edge d entry c) :
    Avoids edge b entry c ∨ (b ≠ d ∧ Avoids edge d entry b) := by
  induction h with
  | refl => exact Or.inl ReflTransGen.refl
  | @tail a c hpath hedge ih =>
      rcases ih with ih | ih
      · by_cases ha : a = b
        · exact Or.inr ⟨ha ▸ hedge.2, ha ▸ hpath⟩
        · exact Or.inl (ih.tail hedge.1 ha)
      · exact Or.inr ih

/-- A path to a node can be cut where it gets there first. -/
theorem avoids_of_reaches {entry d : α} (h : ReflTransGen edge entry d) :
    Avoids edge d entry d := by
  have hcut : ∀ c, ReflTransGen edge entry c → Avoids edge d entry c ∨ Avoids edge d entry d := by
    intro c hc
    induction hc with
    | refl => exact Or.inl ReflTransGen.refl
    | @tail a c _ hedge ih =>
        rcases ih with ih | ih
        · by_cases ha : a = d
          · exact Or.inr (ha ▸ ih)
          · exact Or.inl (ih.tail hedge ha)
        · exact Or.inr ih
  exact (hcut d h).elim id id

theorem dominates_refl (entry d : α) : Dominates edge entry d d := fun h => absurd rfl h

theorem Dominates.trans {entry a b c : α} (hab : Dominates edge entry a b)
    (hbc : Dominates edge entry b c) : Dominates edge entry a c := by
  intro hca hpath
  rcases hpath.through b with hb | ⟨hba, hb⟩
  · by_cases hcb : c = b
    · exact hab (hcb ▸ hca) (hcb ▸ hpath)
    · exact hbc hcb hb
  · exact hab hba hb

/-- Two reachable nodes do not dominate each other. -/
theorem Dominates.antisymm {entry a b : α} (hab : Dominates edge entry a b)
    (hba : Dominates edge entry b a) (h : ReflTransGen edge entry a) : a = b := by
  by_contra hne
  rcases (avoids_of_reaches h).through b with hb | ⟨hba', hb⟩
  · exact hba hne hb
  · exact hab hba' hb

/-- A set that holds the entry and is closed but for the edges that leave `d`
shows what `d` dominates. -/
theorem dominates_of_closed {entry d b : α} {S : α → Prop} (hentry : S entry)
    (hclosed : ∀ a c, S a → a ≠ d → edge a c → S c) (hb : ¬ S b) : Dominates edge entry d b := by
  intro _ hpath
  have hmem : ∀ c, Avoids edge d entry c → S c := by
    intro c hc
    induction hc with
    | refl => exact hentry
    | tail _ hedge ih => exact hclosed _ _ ih hedge.2 hedge.1
  exact hb (hmem b hpath)

end Flow
