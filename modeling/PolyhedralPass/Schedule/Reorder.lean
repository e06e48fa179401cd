/-
Reordering the instances of a program.  A schedule is a list of instances that
are executed one after the other; two schedules of the same instances end in
the same state if they agree on the order of all instances that do not commute.
-/
import Mathlib.Data.List.Basic
import Mathlib.Data.Set.Basic

namespace Schedule

section Steps

variable {ι σ : Type} (step : ι → σ → σ)

/-- The state behind a schedule. -/
def run (order : List ι) (state : σ) : σ :=
  order.foldl (fun s i => step i s) state

@[simp] theorem run_nil (state : σ) : run step [] state = state := rfl

@[simp] theorem run_cons (i : ι) (order : List ι) (state : σ) :
    run step (i :: order) state = run step order (step i state) := rfl

@[simp] theorem run_append (first second : List ι) (state : σ) :
    run step (first ++ second) state = run step second (run step first state) :=
  List.foldl_append

/-- Two instances that can be executed in either order. -/
def Commutes (i j : ι) : Prop := ∀ state, step i (step j state) = step j (step i state)

variable {step}

/-- An instance moves to the front over instances it commutes with. -/
theorem run_move_front {i : ι} {front : List ι} (hfront : ∀ j ∈ front, Commutes step i j)
    (back : List ι) (state : σ) :
    run step (front ++ i :: back) state = run step (i :: (front ++ back)) state := by
  induction front generalizing state with
  | nil => rfl
  | cons j front ih =>
      have hrest := ih (fun k hk => hfront k (List.mem_cons_of_mem j hk)) (step j state)
      have hswap : step i (step j state) = step j (step i state) := hfront j (by simp) state
      rw [List.cons_append, run_cons, hrest, run_cons, hswap]
      simp

/-- Two schedules of the same instances, each with a relation that holds between
every instance and the later ones.  Instances that the schedules have in
different order must commute. -/
theorem run_eq_of_perm {R S : ι → ι → Prop} {first second : List ι}
    (hperm : first.Perm second) (hfirst : first.Pairwise R) (hsecond : second.Pairwise S)
    (hcommutes : ∀ i ∈ first, ∀ j ∈ first, R i j → S j i → Commutes step i j) (state : σ) :
    run step first state = run step second state := by
  induction first generalizing second state with
  | nil =>
      rw [List.nil_perm.mp hperm]
  | cons i first ih =>
      obtain ⟨front, back, rfl⟩ := List.append_of_mem (hperm.subset (List.mem_cons_self))
      have hrest : first.Perm (front ++ back) :=
        (hperm.trans List.perm_middle).cons_inv
      have hbefore := (List.pairwise_append.mp hsecond).2.2
      have hfront : ∀ j ∈ front, Commutes step i j := by
        intro j hj
        have hmem : j ∈ first := hrest.symm.subset (List.mem_append_left back hj)
        apply hcommutes i (by simp) j (List.mem_cons_of_mem i hmem)
        · exact (List.pairwise_cons.mp hfirst).1 j hmem
        · exact hbefore j hj i (by simp)
      have hsublist : (front ++ back).Sublist (front ++ i :: back) :=
        List.Sublist.append_left (List.sublist_cons_self i back) front
      have htail := ih hrest (List.pairwise_cons.mp hfirst).2 (hsecond.sublist hsublist)
        (fun a ha b hb => hcommutes a (List.mem_cons_of_mem i ha) b (List.mem_cons_of_mem i hb))
        (step i state)
      rw [run_move_front hfront, run_cons, run_cons, htail]

/-- In a schedule sorted by a relation an instance has the smaller ones in front
of it. -/
theorem exists_split_of_pairwise {R : ι → ι → Prop} (hasymm : ∀ i j, R i j → ¬ R j i)
    {order : List ι} (hpairwise : order.Pairwise R) {i j : ι} (hi : i ∈ order) (hj : j ∈ order)
    (hne : i ≠ j) :
    ∃ front back, order = front ++ j :: back ∧ (R i j → i ∈ front) ∧ (R j i → i ∉ front) := by
  obtain ⟨front, back, rfl⟩ := List.append_of_mem hj
  obtain ⟨_, hback, hbefore⟩ := List.pairwise_append.mp hpairwise
  refine ⟨front, back, rfl, ?_, ?_⟩
  · intro hij
    rcases List.mem_append.mp hi with hfront | hi
    · exact hfront
    · rcases List.mem_cons.mp hi with heq | hi
      · exact absurd heq hne
      · exact absurd ((List.pairwise_cons.mp hback).1 i hi) (hasymm i j hij)
  · intro hji hfront
    exact hasymm j i hji (hbefore i hfront j (by simp))

end Steps

section Effects

/-- The instances of a program on a memory: each reads some cells, writes others,
and what it writes depends on nothing but what it reads. -/
structure Effects (ι κ ν : Type) where
  reads : ι → Set κ
  writes : ι → Set κ
  step : ι → (κ → ν) → (κ → ν)
  step_frame : ∀ i memory cell, cell ∉ writes i → step i memory cell = memory cell
  step_congr : ∀ i memory memory', (∀ cell ∈ reads i, memory cell = memory' cell) →
    ∀ cell ∈ writes i, step i memory cell = step i memory' cell

variable {ι κ ν : Type} (effects : Effects ι κ ν)

/-- Two instances touch a common cell, and one of them writes it. -/
def Effects.Conflicts (i j : ι) : Prop :=
  ∃ cell, (cell ∈ effects.writes i ∧ cell ∈ effects.writes j) ∨
    (cell ∈ effects.writes i ∧ cell ∈ effects.reads j) ∨
    (cell ∈ effects.reads i ∧ cell ∈ effects.writes j)

variable {effects}

/-- An instance does what it did before one that does not conflict with it. -/
theorem Effects.step_step {i j : ι} (hconflict : ¬ effects.Conflicts i j) (memory : κ → ν)
    {cell : κ} (hcell : cell ∈ effects.writes i) :
    effects.step i (effects.step j memory) cell = effects.step i memory cell := by
  apply effects.step_congr i _ _ _ cell hcell
  intro read hread
  apply effects.step_frame
  exact fun hwrite => hconflict ⟨read, Or.inr (Or.inr ⟨hread, hwrite⟩)⟩

theorem Effects.Conflicts.symm {i j : ι} (h : effects.Conflicts i j) : effects.Conflicts j i := by
  obtain ⟨cell, ⟨hi, hj⟩ | ⟨hi, hj⟩ | ⟨hi, hj⟩⟩ := h
  · exact ⟨cell, Or.inl ⟨hj, hi⟩⟩
  · exact ⟨cell, Or.inr (Or.inr ⟨hj, hi⟩)⟩
  · exact ⟨cell, Or.inr (Or.inl ⟨hj, hi⟩)⟩

/-- Instances without a conflict commute. -/
theorem Effects.commutes {i j : ι} (hconflict : ¬ effects.Conflicts i j) :
    Commutes effects.step i j := by
  intro memory
  have hconflict' : ¬ effects.Conflicts j i := fun h => hconflict h.symm
  funext cell
  by_cases hi : cell ∈ effects.writes i
  · have hj : cell ∉ effects.writes j := fun hj => hconflict ⟨cell, Or.inl ⟨hi, hj⟩⟩
    rw [Effects.step_step hconflict memory hi, effects.step_frame j _ cell hj]
  · rw [effects.step_frame i _ cell hi]
    by_cases hj : cell ∈ effects.writes j
    · rw [Effects.step_step hconflict' memory hj]
    · rw [effects.step_frame j _ cell hj, effects.step_frame j _ cell hj,
        effects.step_frame i _ cell hi]

/-- Schedules that agree on the order of all conflicting instances end with the
same memory. -/
theorem Effects.run_eq_of_perm {R S : ι → ι → Prop} {first second : List ι}
    (hperm : first.Perm second) (hfirst : first.Pairwise R) (hsecond : second.Pairwise S)
    (hordered : ∀ i ∈ first, ∀ j ∈ first, effects.Conflicts i j → R i j → ¬ S j i)
    (memory : κ → ν) : run effects.step first memory = run effects.step second memory := by
  apply Schedule.run_eq_of_perm hperm hfirst hsecond
  intro i hi j hj hij hji
  apply Effects.commutes
  exact fun hconflict => hordered i hi j hj hconflict hij hji

/-- A cell that no instance writes keeps its value. -/
theorem Effects.run_frame {order : List ι} {cell : κ}
    (h : ∀ i ∈ order, cell ∉ effects.writes i) (memory : κ → ν) :
    run effects.step order memory cell = memory cell := by
  induction order generalizing memory with
  | nil => rfl
  | cons i order ih =>
      rw [run_cons, ih (fun j hj => h j (List.mem_cons_of_mem i hj)),
        effects.step_frame i _ cell (h i (by simp))]

/-- The last instance that writes a cell gives it its value. -/
theorem Effects.run_last {front back : List ι} {i : ι} {cell : κ}
    (hback : ∀ j ∈ back, cell ∉ effects.writes j) (memory : κ → ν) :
    run effects.step (front ++ i :: back) memory cell =
      effects.step i (run effects.step front memory) cell := by
  rw [run_append, run_cons, Effects.run_frame hback]

end Effects

end Schedule
