/-
Loops over the iterates of a function, with the test at the top or at the bottom,
and what their finite runs execute.
-/
import Mathlib.Data.List.Iterate
import Mathlib.Data.List.Flatten
import Mathlib.Tactic.ByContra

namespace Flow

section Top

variable {α : Type} (test : α → Prop) (next : α → α)

/-- A finite run of a loop that tests at its top, with the values its body runs for. -/
inductive TopRun : α → List α → Prop
  | stop {a : α} (htest : ¬ test a) : TopRun a []
  | go {a : α} {values : List α} (htest : test a) (hrest : TopRun (next a) values) :
      TopRun a (a :: values)

variable {test next}

theorem topRun_iterate {a : α} {n : Nat} (h : ∀ i < n, test (next^[i] a))
    (hlast : ¬ test (next^[n] a)) : TopRun test next a (List.iterate next a n) := by
  induction n generalizing a with
  | zero => exact .stop hlast
  | succ n ih =>
      refine .go (h 0 (Nat.succ_pos n)) (ih ?_ hlast)
      intro i hi
      exact h (i + 1) (Nat.succ_lt_succ hi)

/-- The loop runs for the iterates in front of the first one that fails the test. -/
theorem topRun_iff {a : α} {values : List α} : TopRun test next a values ↔
    ∃ n, (∀ i < n, test (next^[i] a)) ∧ ¬ test (next^[n] a) ∧
      values = List.iterate next a n := by
  constructor
  · intro h
    induction h with
    | stop htest => exact ⟨0, fun i hi => absurd hi (Nat.not_lt_zero i), htest, rfl⟩
    | go htest _ ih =>
        obtain ⟨n, hn, hlast, rfl⟩ := ih
        refine ⟨n + 1, ?_, hlast, rfl⟩
        intro i hi
        cases i with
        | zero => exact htest
        | succ i => exact hn i (Nat.lt_of_succ_lt_succ hi)
  · rintro ⟨n, hn, hlast, rfl⟩
    exact topRun_iterate hn hlast

theorem TopRun.unique {a : α} {values values' : List α} (h : TopRun test next a values)
    (h' : TopRun test next a values') : values' = values := by
  induction h generalizing values' with
  | stop htest =>
      cases h' with
      | stop _ => rfl
      | go htest' _ => exact absurd htest' htest
  | go htest _ ih =>
      cases h' with
      | stop htest' => exact absurd htest htest'
      | go _ hrest => rw [ih hrest]

end Top

section Bottom

variable {α β : Type} (test : α → Prop) (next : α → α) (body : α → List β → Prop)

/-- A finite run of a loop that tests the next value at its bottom. -/
inductive BottomRun : α → List β → Prop
  | stop {a : α} {items : List β} (hbody : body a items) (htest : ¬ test (next a)) :
      BottomRun a items
  | go {a : α} {items rest : List β} (hbody : body a items) (htest : test (next a))
      (hrest : BottomRun (next a) rest) : BottomRun a (items ++ rest)

/-- The loop leaves if its body does. -/
def Leaves (a : α) : Prop := ∃ n, ¬ test (next^[n + 1] a)

variable {test next body}

theorem bottomRun_blocks {a : α} {n : Nat} {block : Nat → List β}
    (hbody : ∀ i ≤ n, body (next^[i] a) (block i)) (htest : ∀ i < n, test (next^[i + 1] a))
    (hlast : ¬ test (next^[n + 1] a)) :
    BottomRun test next body a ((List.range (n + 1)).flatMap block) := by
  induction n generalizing a block with
  | zero => simpa using BottomRun.stop (hbody 0 (Nat.le_refl 0)) hlast
  | succ n ih =>
      have hrest : BottomRun test next body (next a)
          ((List.range (n + 1)).flatMap fun i => block (i + 1)) :=
        ih (fun i hi => hbody (i + 1) (Nat.succ_le_succ hi))
          (fun i hi => htest (i + 1) (Nat.succ_lt_succ hi)) hlast
      have hrun := BottomRun.go (hbody 0 (Nat.zero_le _)) (htest 0 (Nat.succ_pos n)) hrest
      rwa [List.range_succ_eq_map, List.flatMap_cons, List.flatMap_map]

/-- A loop that leaves does so at the first iterate that fails the test. -/
theorem BottomRun.leaves {a : α} {items : List β} (h : BottomRun test next body a items) :
    Leaves test next a := by
  induction h with
  | stop _ htest => exact ⟨0, htest⟩
  | go _ _ _ ih =>
      obtain ⟨n, hn⟩ := ih
      exact ⟨n + 1, hn⟩

/-- What the first rounds of a run execute, and the run of the others. -/
theorem BottomRun.rounds {a : α} {items : List β} (h : BottomRun test next body a items)
    (hunique : ∀ b first second, body b first → body b second → second = first) {n : Nat}
    {block : Nat → List β} (hbody : ∀ i < n, body (next^[i] a) (block i))
    (htest : ∀ i < n, test (next^[i + 1] a)) : ∃ rest, BottomRun test next body (next^[n] a) rest ∧
      items = (List.range n).flatMap block ++ rest := by
  induction n generalizing a items block with
  | zero => exact ⟨items, h, rfl⟩
  | succ n ih =>
      cases h with
      | stop _ hstop => exact absurd (htest 0 (Nat.succ_pos n)) hstop
      | go hfirst _ hrest =>
          have htail : ∀ i < n, body (next^[i] (next a)) ((fun i => block (i + 1)) i) :=
            fun i hi => hbody (i + 1) (Nat.succ_lt_succ hi)
          obtain ⟨rest, hrun, rfl⟩ := ih hrest htail
            (fun i hi => htest (i + 1) (Nat.succ_lt_succ hi))
          refine ⟨rest, hrun, ?_⟩
          rw [hunique a _ _ (hbody 0 (Nat.succ_pos n)) hfirst, List.range_succ_eq_map,
            List.flatMap_cons, List.flatMap_map, List.append_assoc]

/-- The first round of a run. -/
theorem BottomRun.first {a : α} {items : List β} (h : BottomRun test next body a items) :
    ∃ front rest, body a front ∧ items = front ++ rest := by
  cases h with
  | stop hbody _ => exact ⟨items, [], hbody, (List.append_nil items).symm⟩
  | go hbody _ _ => exact ⟨_, _, hbody, rfl⟩

theorem BottomRun.unique {a : α} {items items' : List β} (h : BottomRun test next body a items)
    (hunique : ∀ b first second, body b first → body b second → second = first)
    (h' : BottomRun test next body a items') : items' = items := by
  induction h generalizing items' with
  | stop hbody htest =>
      cases h' with
      | stop hbody' _ => exact hunique _ _ _ hbody hbody'
      | go _ htest' _ => exact absurd htest' htest
  | go hbody htest _ ih =>
      cases h' with
      | stop _ htest' => exact absurd htest htest'
      | go hbody' _ hrest => rw [hunique _ _ _ hbody hbody', ih hrest]

end Bottom

end Flow
