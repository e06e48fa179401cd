/-
Two counters of a function.  A run carries what the induction variables of two loops hold
and follows the instructions for them: the PHI nodes on the edges into the headers, the
increments, and the tests that leave the two loops.
-/
import PolyhedralPass.Agreement

namespace PolyhedralPass

open Relation

/-- What the induction variables of two loops hold; one whose loop has not been entered yet
holds nothing. -/
structure Counters (w : Nat) where
  outer : Option (BitVec w)
  inner : Option (BitVec w)

/-- The counters with their places exchanged. -/
def Counters.exchanged {w : Nat} (counters : Counters w) : Counters w :=
  ⟨counters.inner, counters.outer⟩

section Runs

variable (F : Function) (outer inner : LoopDescriptor) {w : Nat}

def Counters.held (counters : Counters w) (value : Value) : Option (BitVec w) :=
  if value = outer.induction then counters.outer
  else if value = inner.induction then counters.inner
  else none

/-- What a use of a value sees, as far as the counters say: a constant, one of the induction
variables, or its increment. -/
def Function.seen (counters : Counters w) (value : Value) : Option (BitVec w) :=
  match F.constant value with
  | some c => c.ofWidth w
  | none =>
      if value = outer.nextValue ∨ value = inner.nextValue then
        match F.inst? value with
        | some ⟨_, _, .add lhs rhs⟩ => (counters.held outer inner lhs).bind fun iv =>
            ((F.constant rhs).bind (ConstInt.ofWidth w)).map (iv + ·)
        | _ => none
      else counters.held outer inner value

/-- An induction variable behind an edge: the PHI node takes what comes in there. -/
def Counters.follow (counters : Counters w) (loop : LoopDescriptor) (b c : BlockId) :
    Option (BitVec w) :=
  if c = loop.loopNode.header then
    (F.incomingValueForBlock loop.induction b).bind (F.seen outer inner counters)
  else counters.held outer inner loop.induction

variable (bounds : Value → BitVec w → Prop)

/-- The comparison at the end of a block takes the edge.  A right operand that the counters
say nothing about has one of the values given for it. -/
def Function.Tests (counters : Counters w) (b c : BlockId) : Prop :=
  ∃ value type cond ifTrue ifFalse,
    F.terminator? b = some ⟨value, type, .condBr cond ifTrue ifFalse⟩ ∧
    ∃ name type predicate lhs rhs, F.inst? cond = some ⟨name, type, .icmp predicate lhs rhs⟩ ∧
    ∃ iv bound, F.seen outer inner counters lhs = some iv ∧
      (F.seen outer inner counters rhs = some bound ∨
        F.seen outer inner counters rhs = none ∧ bounds rhs bound) ∧
      c = if predicate.eval iv bound then ifTrue else ifFalse

/-- One step of a run.  The exiting blocks of the two loops make their tests; the branches
of other blocks may go either way. -/
def PairStep (s s' : BlockId × Counters w) : Prop :=
  s'.1 ∈ F.successors s.1 ∧
    (∀ loop ∈ [outer, inner], loop.loopNode.exitingBlock F = some s.1 →
      F.Tests outer inner bounds s.2 s.1 s'.1) ∧
    s'.2 = ⟨s.2.follow F outer inner outer s.1 s'.1, s.2.follow F outer inner inner s.1 s'.1⟩

/-- The blocks that a run gets to, with the counters. -/
def PairRuns (entry b : BlockId) (counters : Counters w) : Prop :=
  ReflTransGen (PairStep F outer inner bounds) (entry, ⟨none, none⟩) (b, counters)

/-- The runs that execute a use in a block: those that get to its place, and for a PHI node
those of them that take the edge it stands for. -/
def Executes (entry block : BlockId) (place : Place) (counters : Counters w) : Prop :=
  match place with
  | .before b _ => PairRuns F outer inner bounds entry b counters
  | .endOf b => PairRuns F outer inner bounds entry b counters ∧
      ∃ counters', PairStep F outer inner bounds (b, counters) (block, counters')

end Runs

section Agreeing

variable {F : Function} {SE : ScalarEvolution} {outer inner loop : LoopDescriptor} {w : Nat}

theorem Agrees.next_ne (h : Agrees F SE loop) (hF : F.Distinct) {other : LoopDescriptor}
    (hother : Agrees F SE other) : loop.nextValue ≠ other.induction := by
  obtain ⟨_, _, _, _, _, _, _, _, hone⟩ := h.edges
  exact hother.ne_of_not_phi hF hone.not_phi

theorem Agrees.constant_next (h : Agrees F SE loop) (hF : F.Distinct) :
    F.constant loop.nextValue = none := by
  obtain ⟨_, _, _, _, _, _, _, _, _, _, _, hinst, _⟩ := h.edges
  obtain ⟨hmem, hvalue⟩ := (Function.inst?_eq_some hF.values_nodup).mp hinst
  exact hvalue ▸ hF.constants _ hmem

theorem Agrees.seen_start (h : Agrees F SE loop) (htyped : loop.Typed F w)
    (counters : Counters w) : F.seen outer inner counters loop.startValue = some 0 := by
  obtain ⟨_, _, _, _, _, _, _, ⟨c, hc, hbits⟩, _⟩ := h.edges
  rw [Function.seen, hc]
  exact ofWidth_of_beq (htyped.start c hc) hbits

/-- What the uses see depends on the constants and the two increments. -/
theorem seen_congr (F F' : Function) (hconstant : F'.constant = F.constant)
    (hnext : ∀ loop ∈ [outer, inner], F'.inst? loop.nextValue = F.inst? loop.nextValue)
    (counters : Counters w) (value : Value) :
    F'.seen outer inner counters value = F.seen outer inner counters value := by
  rw [Function.seen, Function.seen, hconstant]
  cases F.constant value with
  | some c => rfl
  | none =>
      by_cases hvalue : value = outer.nextValue ∨ value = inner.nextValue
      · have hinst : F'.inst? value = F.inst? value := by
          rcases hvalue with rfl | rfl
          · exact hnext outer List.mem_cons_self
          · exact hnext inner (List.mem_cons_of_mem outer List.mem_cons_self)
        rw [if_pos hvalue, if_pos hvalue, hinst]
      · rw [if_neg hvalue, if_neg hvalue]

theorem tests_iff {bounds : Value → BitVec w → Prop} {counters : Counters w}
    {b c ifTrue ifFalse : BlockId} {value cond name lhs rhs : Value} {type type' : IRType}
    {predicate : Predicate}
    (hterminator : F.terminator? b = some ⟨value, type, .condBr cond ifTrue ifFalse⟩)
    (hcompare : F.inst? cond = some ⟨name, type', .icmp predicate lhs rhs⟩) :
    F.Tests outer inner bounds counters b c ↔ ∃ iv bound,
      F.seen outer inner counters lhs = some iv ∧
      (F.seen outer inner counters rhs = some bound ∨
        F.seen outer inner counters rhs = none ∧ bounds rhs bound) ∧
      c = if predicate.eval iv bound then ifTrue else ifFalse := by
  constructor
  · rintro ⟨_, _, _, _, _, hterminator', _, _, _, _, _, hcompare', hrest⟩
    obtain ⟨_, _, hbranch⟩ := Inst.mk.inj (Option.some.inj (hterminator.symm.trans hterminator'))
    obtain ⟨rfl, rfl, rfl⟩ := InstKind.condBr.inj hbranch
    obtain ⟨_, _, hkind⟩ := Inst.mk.inj (Option.some.inj (hcompare.symm.trans hcompare'))
    obtain ⟨rfl, rfl, rfl⟩ := InstKind.icmp.inj hkind
    exact hrest
  · intro hrest
    exact ⟨_, _, _, _, _, hterminator, _, _, _, _, _, hcompare, hrest⟩

end Agreeing

end PolyhedralPass
