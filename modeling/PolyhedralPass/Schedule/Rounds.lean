/-
Loops that are executed step by step.  A loop that comes back to its head with the next
value, and leaves it behind the last one, runs its body for every value.
-/
import PolyhedralPass.Schedule.Permuted
import Mathlib.Logic.Relation

namespace Schedule

open Relation

section Rounds

variable {σ μ : Type} {step : σ → σ → Prop} {head : Int → μ → σ → Prop} {left : μ → σ → Prop}
  {body : Int → μ → μ} {bound : Int}

/-- From the head of a loop with some value to behind the loop. -/
theorem exists_rounds
    (hround : ∀ v memory state, v < bound → head v memory state →
      ∃ state', ReflTransGen step state state' ∧ head (v + 1) (body v memory) state')
    (hleave : ∀ v memory state, bound ≤ v → head v memory state →
      ∃ state', ReflTransGen step state state' ∧ left memory state') (start : Int) (memory : μ)
    (state : σ) (h : head start memory state) :
    ∃ state', ReflTransGen step state state' ∧
      left (run body (countUp bound start) memory) state' := by
  induction start using countUp.induct bound generalizing memory state with
  | case1 start hlt ih =>
      obtain ⟨next, hsteps, hnext⟩ := hround start memory state hlt h
      obtain ⟨last, hrest, hlast⟩ := ih _ next hnext
      rw [countUp, if_pos hlt, run_cons]
      exact ⟨last, hsteps.trans hrest, hlast⟩
  | case2 start hge =>
      rw [countUp, if_neg hge, run_nil]
      exact hleave start memory state (not_lt.mp hge) h

end Rounds

section Nested

variable {α σ : Type} {body : List α → σ → σ}

/-- The outermost loop of a nest runs the loops inside it for each of its values. -/
theorem run_nested_cons (values : List α) (ranges : List (List α)) (state : σ) :
    run body (nested (values :: ranges)) state =
      run (fun v => run (fun y => body (v :: y)) (nested ranges)) values state := by
  induction values generalizing state with
  | nil => rfl
  | cons v values ih =>
      have hnested : nested ((v :: values) :: ranges) =
          (nested ranges).map (v :: ·) ++ nested (values :: ranges) := by
        simp only [nested, List.flatMap_cons]
      rw [hnested, run_append, ih, run_cons, run_map]

end Nested

end Schedule
