/-
Two machines that go side by side, but for a region in which each takes its own way.
-/
import Mathlib.Logic.Relation

namespace Flow

open Relation

section Detour

variable {σ : Type} {step step' : σ → Option σ}

/-- The states a machine gets to. -/
def Reaches (step : σ → Option σ) : σ → σ → Prop := ReflTransGen fun s t => step s = some t

/-- The states it gets to without leaving a region before. -/
def ReachesIn (inside : σ → Prop) (step : σ → Option σ) : σ → σ → Prop :=
  ReflTransGen fun s t => inside s ∧ step s = some t

variable {inside : σ → Prop} {R : σ → σ → Prop}

theorem Reaches.trans {s t u : σ} (h : Reaches step s t) (h' : Reaches step t u) :
    Reaches step s u := ReflTransGen.trans h h'

theorem Reaches.head {s t u : σ} (h : step s = some t) (h' : Reaches step t u) :
    Reaches step s u := ReflTransGen.head h h'

theorem ReachesIn.trans {s t u : σ} (h : ReachesIn inside step s t)
    (h' : ReachesIn inside step t u) : ReachesIn inside step s u := ReflTransGen.trans h h'

theorem ReachesIn.head {s t u : σ} (hs : inside s) (h : step s = some t)
    (h' : ReachesIn inside step t u) : ReachesIn inside step s u := ReflTransGen.head ⟨hs, h⟩ h'

theorem ReachesIn.reaches {s t : σ} (h : ReachesIn inside step s t) : Reaches step s t := by
  induction h with
  | refl => exact ReflTransGen.refl
  | tail _ hstep ih => exact ReflTransGen.tail ih hstep.2

theorem ReachesIn.eq_of_outside {s t : σ} (h : ReachesIn inside step s t) (hs : ¬ inside s) :
    s = t := by
  cases h.cases_head with
  | inl heq => exact heq
  | inr hstep =>
      obtain ⟨_, ⟨hinside, _⟩, _⟩ := hstep
      exact absurd hinside hs

/-- A state outside that the first machine gets to has one beside it that the second machine
gets to, when they go together outside and come out of the region together. -/
theorem exists_reaches_of_detours
    (houtside : ∀ s s' t, ¬ inside s → R s s' → step s = some t →
      ∃ t', step' s' = some t' ∧ R t t')
    (hinside : ∀ s s', inside s → R s s' → ∃ t t', ReachesIn inside step s t ∧ ¬ inside t ∧
      Reaches step' s' t' ∧ R t t')
    {s s' t : σ} (hs : ¬ inside s) (hR : R s s') (h : Reaches step s t) (ht : ¬ inside t) :
    ∃ t', Reaches step' s' t' ∧ R t t' := by
  -- inside the region the second machine waits where the first one comes out
  suffices hwait : ∀ u u', ReachesIn inside step s u → ¬ inside u → R u u' →
      ∃ t', Reaches step' u' t' ∧ R t t' from hwait s s' .refl hs hR
  clear hs hR s'
  induction h using ReflTransGen.head_induction_on with
  | refl =>
      intro u u' hin _ hR
      obtain rfl := hin.eq_of_outside ht
      exact ⟨u', .refl, hR⟩
  | @head s next hstep _ ih =>
      intro u u' hin hu hR
      rcases hin.cases_head with rfl | ⟨next', ⟨_, hnext⟩, hrest⟩
      · obtain ⟨next', hstep', hR'⟩ := houtside s u' next hu hR hstep
        by_cases hin' : inside next
        · obtain ⟨left, left', hpass, hleft, hpass', hR''⟩ := hinside next next' hin' hR'
          obtain ⟨t', hreaches, ht'⟩ := ih left left' hpass hleft hR''
          exact ⟨t', (Reaches.head hstep' hpass').trans hreaches, ht'⟩
        · obtain ⟨t', hreaches, ht'⟩ := ih next next' .refl hin' hR'
          exact ⟨t', .head hstep' hreaches, ht'⟩
      · obtain rfl := Option.some.inj (hnext.symm.trans hstep)
        exact ih u u' hrest hu hR

end Detour

end Flow
