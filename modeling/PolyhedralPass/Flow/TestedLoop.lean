/-
Loops of a control-flow graph with one tested exit.  A state is a node and the
number of the iteration; only the exiting node looks at the test, and a run
leaves the loop where the test fails.
-/
import Mathlib.Logic.Relation

namespace Flow

open Relation

/-- A loop: the edges between its nodes but for the one from the latch back to
the header, and the node that tests whether to go on. -/
structure TestedLoop (α : Type) where
  edge : α → α → Prop
  header : α
  latch : α
  exiting : α

namespace TestedLoop

variable {α : Type} (loop : TestedLoop α) (test : Nat → Prop)

/-- One step inside the loop. -/
inductive Step : α × Nat → α × Nat → Prop
  | inner {b c : α} {k : Nat} (hedge : loop.edge b c) (htest : b = loop.exiting → test k) :
      Step (b, k) (c, k)
  | back {k : Nat} (htest : loop.latch = loop.exiting → test k) :
      Step (loop.latch, k) (loop.header, k + 1)

/-- The nodes and iterations a run gets to. -/
def Reaches (b : α) (k : Nat) : Prop := ReflTransGen (loop.Step test) (loop.header, 0) (b, k)

/-- A path from the header that does not leave the exiting node. -/
def Untested (b : α) : Prop :=
  ReflTransGen (fun b c => loop.edge b c ∧ b ≠ loop.exiting) loop.header b

/-- An iteration can go round the test. -/
def Bypasses : Prop := loop.Untested loop.latch ∧ loop.latch ≠ loop.exiting

variable {loop test}

theorem reaches_header : loop.Reaches test loop.header 0 := ReflTransGen.refl

theorem Reaches.edge {b c : α} {k : Nat} (h : loop.Reaches test b k) (hedge : loop.edge b c)
    (htest : b = loop.exiting → test k) : loop.Reaches test c k :=
  ReflTransGen.tail h (.inner hedge htest)

/-- A run only gets to nodes that the header is connected to. -/
theorem Reaches.connected {b : α} {k : Nat} (h : loop.Reaches test b k) :
    ReflTransGen loop.edge loop.header b := by
  have hpath : ∀ state, ReflTransGen (loop.Step test) (loop.header, 0) state →
      ReflTransGen loop.edge loop.header state.1 := by
    intro state hstate
    induction hstate with
    | refl => exact ReflTransGen.refl
    | tail _ hstep ih =>
        cases hstep with
        | inner hedge _ => exact ReflTransGen.tail ih hedge
        | back _ => exact ReflTransGen.refl
  exact hpath (b, k) h

/-- Behind a test that succeeds every path of the loop can be taken. -/
theorem Reaches.path {b c : α} {k : Nat} (h : loop.Reaches test b k) (htest : test k)
    (hpath : ReflTransGen loop.edge b c) : loop.Reaches test c k := by
  induction hpath with
  | refl => exact h
  | tail _ hedge ih => exact ih.edge hedge fun _ => htest

theorem Reaches.untested {b : α} {k : Nat} (h : loop.Reaches test loop.header k)
    (huntested : loop.Untested b) : loop.Reaches test b k := by
  induction huntested with
  | refl => exact h
  | tail _ hedge ih => exact ih.edge hedge.1 fun heq => absurd heq hedge.2

theorem Reaches.back {k : Nat} (h : loop.Reaches test loop.latch k)
    (htest : loop.latch = loop.exiting → test k) : loop.Reaches test loop.header (k + 1) :=
  ReflTransGen.tail h (.back htest)

/-- A loop whose earlier tests succeed gets to its next iteration. -/
theorem reaches_of_test {k : Nat} (hlatch : ReflTransGen loop.edge loop.header loop.latch)
    (h : ∀ j < k, test j) : loop.Reaches test loop.header k := by
  induction k with
  | zero => exact reaches_header
  | succ k ih =>
      have hheader := ih fun j hj => h j (Nat.lt_succ_of_lt hj)
      have htest := h k (Nat.lt_succ_self k)
      exact (hheader.path htest hlatch).back fun _ => htest

/-- A loop that can go round its test gets to every iteration. -/
theorem reaches_of_bypasses (h : loop.Bypasses) (k : Nat) : loop.Reaches test loop.header k := by
  induction k with
  | zero => exact reaches_header
  | succ k ih => exact (ih.untested h.1).back fun heq => absurd heq h.2

/-- The exiting node itself is reached before it is left. -/
theorem untested_exiting (hexiting : ReflTransGen loop.edge loop.header loop.exiting) :
    loop.Untested loop.exiting := by
  have hpath : ∀ b, ReflTransGen loop.edge loop.header b →
      loop.Untested b ∨ loop.Untested loop.exiting := by
    intro b hb
    induction hb with
    | refl => exact Or.inl ReflTransGen.refl
    | @tail b c _ hedge ih =>
        rcases ih with ih | ih
        · by_cases heq : b = loop.exiting
          · exact Or.inr (heq ▸ ih)
          · exact Or.inl (ReflTransGen.tail ih ⟨hedge, heq⟩)
        · exact Or.inr ih
  exact (hpath _ hexiting).elim id id

/-- Behind the exiting node the test of the iteration has succeeded. -/
theorem Reaches.behind {b : α} {k : Nat} (h : loop.Reaches test b k) :
    loop.Untested b ∨ test k := by
  have hinvariant : ∀ state, ReflTransGen (loop.Step test) (loop.header, 0) state →
      loop.Untested state.1 ∨ test state.2 := by
    intro state hstate
    induction hstate with
    | refl => exact Or.inl ReflTransGen.refl
    | tail _ hstep ih =>
        cases hstep with
        | @inner b c k hedge htest =>
            by_cases heq : b = loop.exiting
            · exact Or.inr (htest heq)
            · exact ih.imp_left fun huntested => ReflTransGen.tail huntested ⟨hedge, heq⟩
        | back _ => exact Or.inl ReflTransGen.refl
  exact hinvariant (b, k) h

/-- What a run has tested where no iteration goes round the test. -/
theorem Reaches.tested (hbypass : ¬ loop.Bypasses) {b : α} {k : Nat}
    (h : loop.Reaches test b k) : (∀ j < k, test j) ∧ (loop.Untested b ∨ test k) := by
  refine ⟨?_, h.behind⟩
  have hinvariant : ∀ state, ReflTransGen (loop.Step test) (loop.header, 0) state →
      ∀ j < state.2, test j := by
    intro state hstate
    induction hstate with
    | refl => exact fun j hj => absurd hj (Nat.not_lt_zero j)
    | tail hpath hstep ih =>
        cases hstep with
        | inner _ _ => exact ih
        | @back k htest =>
            have hk : test k := by
              rcases Reaches.behind hpath with huntested | hnow
              · by_cases heq : loop.latch = loop.exiting
                · exact htest heq
                · exact absurd ⟨huntested, heq⟩ hbypass
              · exact hnow
            intro j hj
            rcases Nat.lt_succ_iff_lt_or_eq.mp hj with hj | rfl
            · exact ih j hj
            · exact hk
  exact hinvariant (b, k) h

/-- The nodes and iterations a run gets to, from what it has tested. -/
theorem reaches_iff (hlatch : ReflTransGen loop.edge loop.header loop.latch) {b : α}
    (hpath : ReflTransGen loop.edge loop.header b) {k : Nat} : loop.Reaches test b k ↔
      (loop.Bypasses ∨ ∀ j < k, test j) ∧ (loop.Untested b ∨ test k) := by
  constructor
  · intro h
    refine ⟨?_, h.behind⟩
    by_cases hbypass : loop.Bypasses
    · exact Or.inl hbypass
    · exact Or.inr (h.tested hbypass).1
  · rintro ⟨hearlier, hnow⟩
    have hheader : loop.Reaches test loop.header k := by
      rcases hearlier with hbypass | hearlier
      · exact reaches_of_bypasses hbypass k
      · exact reaches_of_test hlatch hearlier
    rcases hnow with huntested | hnow
    · exact hheader.untested huntested
    · exact hheader.path hnow hpath

/-- A node in front of the test is reached once all earlier tests succeeded. -/
theorem reaches_untested_iff (hbypass : ¬ loop.Bypasses)
    (hlatch : ReflTransGen loop.edge loop.header loop.latch) {b : α} (hb : loop.Untested b)
    {k : Nat} : loop.Reaches test b k ↔ ∀ j < k, test j :=
  ⟨fun h => (h.tested hbypass).1, fun h => (reaches_of_test hlatch h).untested hb⟩

/-- A node behind the test needs the test of its own iteration as well. -/
theorem reaches_tested_iff (hbypass : ¬ loop.Bypasses)
    (hlatch : ReflTransGen loop.edge loop.header loop.latch) {b : α}
    (hpath : ReflTransGen loop.edge loop.header b) (hb : ¬ loop.Untested b) {k : Nat} :
    loop.Reaches test b k ↔ ∀ j ≤ k, test j := by
  constructor
  · intro h j hj
    obtain ⟨hearlier, hnow⟩ := h.tested hbypass
    rcases Nat.lt_or_eq_of_le hj with hj | rfl
    · exact hearlier j hj
    · exact hnow.resolve_left hb
  · intro h
    have hheader : loop.Reaches test loop.header k :=
      reaches_of_test hlatch fun j hj => h j (Nat.le_of_lt hj)
    exact hheader.path (h k (Nat.le_refl k)) hpath

end TestedLoop

end Flow
