/-
The iterations a nest runs for, before and after the bounds of two of its loops
change places: how often each loop goes round, given its predicate, the side of its
exit and the place of its test.
-/
import PolyhedralPass.Coverage
import PolyhedralPass.Legality
import PolyhedralPass.Swap
import PolyhedralPass.Wrapping
import Mathlib.Data.ENat.Basic
import Mathlib.Data.Set.Prod
import Mathlib.Logic.Equiv.Basic

namespace PolyhedralPass

/-- How often a comparison of `0, 1, 2, ...` with a bound holds before it fails. -/
def Predicate.tripCount {w : Nat} (predicate : Predicate) (bound : BitVec w) : ℕ∞ :=
  match predicate with
  | .eq => if bound = 0 then 1 else 0
  | .ne | .ult => bound.toNat
  | .ule => if bound = BitVec.allOnes w then ⊤ else (bound.toNat + 1 : Nat)
  | .ugt => 0
  | .uge => if bound = 0 then ⊤ else 0
  | .slt => bound.toInt.toNat
  | .sle => if bound = BitVec.intMax w then ⊤ else (bound.toInt + 1).toNat
  | .sgt => if 0 ≤ bound.toInt then 0 else (2 ^ (w - 1) : Nat)
  | .sge =>
      if 0 < bound.toInt then 0 else if bound = BitVec.intMin w then ⊤ else (2 ^ (w - 1) : Nat)

def isInfinite : ℕ∞ → Bool
  | ⊤ => true
  | (_ : ℕ) => false

/-- The first of a number of iterations, if there is one. -/
def firstOnly : ℕ∞ → ℕ∞
  | ⊤ => 1
  | (n : ℕ) => (min n 1 : ℕ)

theorem isInfinite_eq_false {n : ℕ∞} : isInfinite n = false ↔ n ≠ ⊤ := by
  cases n with
  | top => exact iff_of_false (fun h : true = false => Bool.noConfusion h) (by simp)
  | coe n => exact iff_of_true rfl (ENat.natCast_ne_top n)

theorem lt_firstOnly {k : Nat} {n : ℕ∞} : (k : ℕ∞) < firstOnly n ↔ (k : ℕ∞) < n ∧ k = 0 := by
  cases n with
  | top =>
      have htop : firstOnly ⊤ = ((1 : Nat) : ℕ∞) := rfl
      rw [htop, Nat.cast_lt, Nat.lt_one_iff]
      exact (and_iff_right (ENat.natCast_lt_top k)).symm
  | coe n =>
      have hcoe : firstOnly (n : ℕ∞) = ((min n 1 : Nat) : ℕ∞) := rfl
      rw [hcoe, Nat.cast_lt, Nat.cast_lt, Nat.lt_min, Nat.lt_one_iff]

/-- What the control flow of a loop makes of its test: the outcome with which the loop
goes on, and whether the test comes before what is inside the loop. -/
structure ExitTest where
  polarity : Bool
  inFront : Bool

/-- The exit tests of the loops, the widths of the induction variables and the bits of
the bounds. -/
structure Setting where
  exitTest : Loop → ExitTest
  width : Value → Nat
  bits : Value → Nat

namespace Setting

variable (S : Setting)

/-- The predicate under which a loop goes on. -/
def stays (loop : LoopDescriptor) : Predicate :=
  if (S.exitTest loop.loopNode).polarity then loop.predicate else loop.predicate.inverse

def boundBits (loop : LoopDescriptor) (bound : Value) : BitVec (S.width loop.induction) :=
  BitVec.ofNat _ (S.bits bound)

/-- The test of an iteration against some bound. -/
def GoesOn (loop : LoopDescriptor) (bound : Value) (k : Nat) : Prop :=
  (S.stays loop).eval (BitVec.ofNat _ k) (S.boundBits loop bound) = true

/-- What is inside the loop runs in an iteration. -/
def Runs (loop : LoopDescriptor) (bound : Value) (k : Nat) : Prop :=
  ∀ j, (if (S.exitTest loop.loopNode).inFront then j ≤ k else j < k) → S.GoesOn loop bound j

def Ends (loop : LoopDescriptor) (bound : Value) : Prop := ∃ k, ¬ S.GoesOn loop bound k

/-- The loops come to an end, each in every iteration of the ones around it. -/
def Finishes : List LoopDescriptor → Prop
  | [] => True
  | loop :: rest => S.Ends loop loop.boundValue ∧ (¬ S.Runs loop loop.boundValue 0 ∨ Finishes rest)

/-- The body runs in the iterations `x` of the loops.  A loop gets to its second iteration
once the loops inside it come to an end. -/
def BodyRuns : List LoopDescriptor → (Nat → Nat) → Prop
  | [], _ => True
  | loop :: rest, x => S.Runs loop loop.boundValue (x 0) ∧ (x 0 = 0 ∨ S.Finishes rest) ∧
      BodyRuns rest fun i => x (i + 1)

/-- The logical index of each loop is the induction variable of the loop it stands in. -/
def KeepsIterations (before after : List LoopDescriptor) (idxOuter idxInner : Nat) : Prop :=
  ∀ x, S.BodyRuns before x ↔ S.BodyRuns after (x ∘ Equiv.swap idxOuter idxInner)

/-- The number of iterations of a loop by itself. -/
def iterations (loop : LoopDescriptor) (bound : Value) : ℕ∞ :=
  (S.stays loop).tripCount (S.boundBits loop bound) +
    (if (S.exitTest loop.loopNode).inFront then 0 else 1)

/-- One of the loops never ends.  The loop at each place has the given bound. -/
def endless : List LoopDescriptor → (Nat → Value) → Bool
  | [], _ => false
  | loop :: rest, bound => isInfinite (S.iterations loop (bound 0)) ||
      endless rest fun i => bound (i + 1)

/-- The number of iterations inside the nest, where a loop around an endless one only
gets to its first. -/
def reached : List LoopDescriptor → (Nat → Value) → Nat → ℕ∞
  | [], _, _ => ⊤
  | loop :: rest, bound, 0 =>
      if S.endless rest fun i => bound (i + 1) then firstOnly (S.iterations loop (bound 0))
      else S.iterations loop (bound 0)
  | _ :: rest, bound, i + 1 => reached rest (fun i => bound (i + 1)) i

end Setting

/-- The bound of each loop. -/
def boundAt (loops : List LoopDescriptor) (i : Nat) : Value :=
  ((loops[i]?).map LoopDescriptor.boundValue).getD 0

/-- No loop of the nest runs, neither with its own bound nor with the bounds of two loops
exchanged, or each loop runs as often with the other bound as the other loop did. -/
def Setting.SameIterations (S : Setting) (loops : List LoopDescriptor) (idxOuter idxInner : Nat) :
    Prop :=
  let place := Equiv.swap idxOuter idxInner
  let before := S.reached loops (boundAt loops)
  let after := S.reached loops fun i => boundAt loops (place i)
  (∃ i, before i = 0) ∧ (∃ i, after i = 0) ∨ ∀ i, before i = after (place i)

section Trips

variable {w : Nat}

/-- A test that fails first at `n`. -/
theorem forall_lt_iff_le {test : Nat → Prop} {n : Nat} (hbefore : ∀ j < n, test j)
    (hfails : ¬ test n) (k : Nat) : (∀ j < k, test j) ↔ k ≤ n := by
  constructor
  · intro hall
    by_contra hlt
    exact hfails (hall n (not_le.mp hlt))
  · exact fun hle j hj => hbefore j (hj.trans_le hle)

theorem toNat_ofNat_of_lt {x : Nat} (hx : x < 2 ^ w) : (BitVec.ofNat w x).toNat = x := by
  rw [BitVec.toNat_ofNat, Nat.mod_eq_of_lt hx]

variable {predicate : Predicate} {bound : BitVec w}

theorem tripCount_of_fails {n : Nat} (htrip : predicate.tripCount bound = (n : ℕ∞))
    (hbefore : ∀ j < n, predicate.eval (BitVec.ofNat w j) bound = true)
    (hfails : predicate.eval (BitVec.ofNat w n) bound = false) (k : Nat) :
    (∀ j < k, predicate.eval (BitVec.ofNat w j) bound = true) ↔
      (k : ℕ∞) ≤ predicate.tripCount bound := by
  rw [htrip, Nat.cast_le]
  apply forall_lt_iff_le hbefore
  rw [hfails]
  exact Bool.false_ne_true

theorem tripCount_of_endless (htrip : predicate.tripCount bound = ⊤)
    (hall : ∀ j, predicate.eval (BitVec.ofNat w j) bound = true) (k : Nat) :
    (∀ j < k, predicate.eval (BitVec.ofNat w j) bound = true) ↔
      (k : ℕ∞) ≤ predicate.tripCount bound := by
  rw [htrip]
  exact iff_of_true (fun j _ => hall j) le_top

theorem tripCount_of_never (htrip : predicate.tripCount bound = 0)
    (hfails : predicate.eval 0 bound = false) (k : Nat) :
    (∀ j < k, predicate.eval (BitVec.ofNat w j) bound = true) ↔
      (k : ℕ∞) ≤ predicate.tripCount bound :=
  tripCount_of_fails (n := 0) htrip (fun j hj => absurd hj (Nat.not_lt_zero j)) hfails k

theorem toInt_lt_half (bound : BitVec w) :
    bound.toInt < (2 ^ (w - 1) : Nat) ∧ -((2 ^ (w - 1) : Nat) : Int) ≤ bound.toInt := by
  have hlt : bound.toInt < 2 ^ (w - 1) := bound.toInt_lt
  have hle : -2 ^ (w - 1) ≤ bound.toInt := bound.le_toInt
  push_cast
  exact ⟨hlt, hle⟩

/-- The signed counter turns negative at the half of its type. -/
theorem toInt_half (hw : 0 < w) :
    (BitVec.ofNat w (2 ^ (w - 1))).toInt = -((2 ^ (w - 1) : Nat) : Int) := by
  have hpow := two_pow_eq hw
  have hpos := Nat.two_pow_pos (w - 1)
  have hint := toInt_natCast_of_ge hw (Nat.le_refl (2 ^ (w - 1))) (by omega)
  rw [BitVec.natCast_eq_ofNat] at hint
  omega

section Table

variable (hw : 0 < w) (bound : BitVec w) (k : Nat)

include hw in
theorem forall_lt_eq : (∀ j < k, Predicate.eq.eval (BitVec.ofNat w j) bound = true) ↔
    (k : ℕ∞) ≤ Predicate.eq.tripCount bound := by
  by_cases hbound : bound = 0
  · refine tripCount_of_fails (n := 1) (by simp [Predicate.tripCount, hbound]) ?_ ?_ k
    · intro j hj
      obtain rfl := Nat.lt_one_iff.mp hj
      simp [Predicate.eval, hbound]
    · have hone := @toNat_ofNat_of_lt w 1 (Nat.one_lt_two_pow hw.ne')
      simp only [Predicate.eval, beq_eq_false_iff_ne]
      rintro rfl
      rw [(bound_eq_zero_iff _).mp hbound] at hone
      exact absurd hone (by decide)
  · refine tripCount_of_never (by simp only [Predicate.tripCount, if_neg hbound]) ?_ k
    simpa [Predicate.eval] using Ne.symm hbound

theorem forall_lt_ne : (∀ j < k, Predicate.ne.eval (BitVec.ofNat w j) bound = true) ↔
    (k : ℕ∞) ≤ Predicate.ne.tripCount bound := by
  refine tripCount_of_fails rfl ?_ ?_ k
  · intro j hj
    simp only [Predicate.eval, bne_iff_ne]
    intro heq
    have hnat := toNat_ofNat_of_lt (hj.trans bound.isLt)
    rw [heq] at hnat
    exact Nat.ne_of_gt hj hnat
  · simp [Predicate.eval]

theorem forall_lt_ult : (∀ j < k, Predicate.ult.eval (BitVec.ofNat w j) bound = true) ↔
    (k : ℕ∞) ≤ Predicate.ult.tripCount bound := by
  refine tripCount_of_fails rfl ?_ ?_ k
  · intro j hj
    simpa only [Predicate.eval, BitVec.ult_eq_decide, toNat_ofNat_of_lt (hj.trans bound.isLt),
      decide_eq_true_eq] using hj
  · simp [Predicate.eval, BitVec.ult_eq_decide]

theorem forall_lt_ule : (∀ j < k, Predicate.ule.eval (BitVec.ofNat w j) bound = true) ↔
    (k : ℕ∞) ≤ Predicate.ule.tripCount bound := by
  have hlt := bound.isLt
  by_cases hbound : bound = BitVec.allOnes w
  · refine tripCount_of_endless (by simp [Predicate.tripCount, hbound]) ?_ k
    intro j
    have hj := (BitVec.ofNat w j).isLt
    simp only [Predicate.eval, BitVec.ule_eq_decide, hbound, BitVec.toNat_allOnes,
      decide_eq_true_eq]
    omega
  · have hmax : bound.toNat ≠ 2 ^ w - 1 := by
      intro heq
      exact hbound (BitVec.eq_of_toNat_eq (heq.trans BitVec.toNat_allOnes.symm))
    refine tripCount_of_fails (n := bound.toNat + 1) (by simp [Predicate.tripCount, hbound]) ?_ ?_ k
    · intro j hj
      simp only [Predicate.eval, BitVec.ule_eq_decide,
        @toNat_ofNat_of_lt w j (by omega), decide_eq_true_eq]
      omega
    · simp only [Predicate.eval, BitVec.ule_eq_decide,
        @toNat_ofNat_of_lt w (bound.toNat + 1) (by omega), decide_eq_false_iff_not]
      omega

theorem forall_lt_uge : (∀ j < k, Predicate.uge.eval (BitVec.ofNat w j) bound = true) ↔
    (k : ℕ∞) ≤ Predicate.uge.tripCount bound := by
  by_cases hbound : bound = 0
  · refine tripCount_of_endless (by simp [Predicate.tripCount, hbound]) ?_ k
    intro j
    simp [Predicate.eval, BitVec.ule_eq_decide, hbound]
  · refine tripCount_of_never (by simp only [Predicate.tripCount, if_neg hbound]) ?_ k
    have hne : bound.toNat ≠ 0 := fun heq => hbound ((bound_eq_zero_iff bound).mpr heq)
    simpa [Predicate.eval, BitVec.ule_eq_decide, Nat.pos_iff_ne_zero] using hne

include hw in
theorem forall_lt_slt : (∀ j < k, Predicate.slt.eval (BitVec.ofNat w j) bound = true) ↔
    (k : ℕ∞) ≤ Predicate.slt.tripCount bound := by
  obtain ⟨hupper, hlower⟩ := toInt_lt_half bound
  have hpos := Nat.two_pow_pos (w - 1)
  have hint : ∀ x < 2 ^ (w - 1), (BitVec.ofNat w x).toInt = x :=
    fun x hx => (toInt_ofNat_of_lt hw hx).1
  refine tripCount_of_fails rfl ?_ ?_ k
  · intro j hj
    simp only [Predicate.eval, BitVec.slt_eq_decide, hint j (by omega), decide_eq_true_eq]
    omega
  · simp only [Predicate.eval, BitVec.slt_eq_decide, hint bound.toInt.toNat (by omega),
      decide_eq_false_iff_not]
    omega

include hw in
theorem forall_lt_sle : (∀ j < k, Predicate.sle.eval (BitVec.ofNat w j) bound = true) ↔
    (k : ℕ∞) ≤ Predicate.sle.tripCount bound := by
  obtain ⟨hupper, hlower⟩ := toInt_lt_half bound
  have hpos := Nat.two_pow_pos (w - 1)
  have hint : ∀ x < 2 ^ (w - 1), (BitVec.ofNat w x).toInt = x :=
    fun x hx => (toInt_ofNat_of_lt hw hx).1
  have hcast : ((2 ^ (w - 1) : Nat) : Int) = 2 ^ (w - 1) := by push_cast; rfl
  by_cases hbound : bound = BitVec.intMax w
  · refine tripCount_of_endless (by simp [Predicate.tripCount, hbound]) ?_ k
    intro j
    have hj := (toInt_lt_half (BitVec.ofNat w j)).1
    simp only [Predicate.eval, BitVec.sle_eq_decide, hbound, BitVec.toInt_intMax,
      decide_eq_true_eq]
    omega
  · have hmax : bound.toInt ≠ 2 ^ (w - 1) - 1 := by
      intro heq
      exact hbound (BitVec.eq_of_toInt_eq (heq.trans BitVec.toInt_intMax.symm))
    refine tripCount_of_fails (n := (bound.toInt + 1).toNat)
      (by simp [Predicate.tripCount, hbound]) ?_ ?_ k
    · intro j hj
      simp only [Predicate.eval, BitVec.sle_eq_decide, hint j (by omega), decide_eq_true_eq]
      omega
    · simp only [Predicate.eval, BitVec.sle_eq_decide, hint (bound.toInt + 1).toNat (by omega),
        decide_eq_false_iff_not]
      omega

include hw in
theorem forall_lt_sgt : (∀ j < k, Predicate.sgt.eval (BitVec.ofNat w j) bound = true) ↔
    (k : ℕ∞) ≤ Predicate.sgt.tripCount bound := by
  obtain ⟨hupper, hlower⟩ := toInt_lt_half bound
  by_cases hbound : 0 ≤ bound.toInt
  · refine tripCount_of_never (by simp [Predicate.tripCount, hbound]) ?_ k
    simpa [Predicate.eval, BitVec.slt_eq_decide] using hbound
  · refine tripCount_of_fails (n := 2 ^ (w - 1)) (by simp [Predicate.tripCount, hbound]) ?_ ?_ k
    · intro j hj
      simp only [Predicate.eval, BitVec.slt_eq_decide, (toInt_ofNat_of_lt hw hj).1,
        decide_eq_true_eq]
      omega
    · simp only [Predicate.eval, BitVec.slt_eq_decide, toInt_half hw, decide_eq_false_iff_not]
      omega

include hw in
theorem forall_lt_sge : (∀ j < k, Predicate.sge.eval (BitVec.ofNat w j) bound = true) ↔
    (k : ℕ∞) ≤ Predicate.sge.tripCount bound := by
  obtain ⟨hupper, hlower⟩ := toInt_lt_half bound
  have hcast : ((2 ^ (w - 1) : Nat) : Int) = 2 ^ (w - 1) := by push_cast; rfl
  have hmin := BitVec.toInt_intMin_of_pos hw
  by_cases hbound : 0 < bound.toInt
  · refine tripCount_of_never (by simp [Predicate.tripCount, hbound]) ?_ k
    simpa [Predicate.eval, BitVec.sle_eq_decide] using hbound
  · by_cases hlast : bound = BitVec.intMin w
    · refine tripCount_of_endless ?_ ?_ k
      · simp only [Predicate.tripCount, if_neg hbound, if_pos hlast]
      · intro j
        have hj := (toInt_lt_half (BitVec.ofNat w j)).2
        simp only [Predicate.eval, BitVec.sle_eq_decide, hlast, hmin, decide_eq_true_eq]
        omega
    · have hne : bound.toInt ≠ -2 ^ (w - 1) := by
        intro heq
        exact hlast (BitVec.eq_of_toInt_eq (heq.trans hmin.symm))
      refine tripCount_of_fails (n := 2 ^ (w - 1)) ?_ ?_ ?_ k
      · simp only [Predicate.tripCount, if_neg hbound, if_neg hlast]
      · intro j hj
        simp only [Predicate.eval, BitVec.sle_eq_decide, (toInt_ofNat_of_lt hw hj).1,
          decide_eq_true_eq]
        omega
      · simp only [Predicate.eval, BitVec.sle_eq_decide, toInt_half hw, decide_eq_false_iff_not]
        omega

end Table

/-- The table gives the number of tests that hold. -/
theorem Predicate.forall_lt_iff_le_tripCount (hw : 0 < w) (predicate : Predicate)
    (bound : BitVec w) (k : Nat) : (∀ j < k, predicate.eval (BitVec.ofNat w j) bound = true) ↔
      (k : ℕ∞) ≤ predicate.tripCount bound := by
  cases predicate with
  | eq => exact forall_lt_eq hw bound k
  | ne => exact forall_lt_ne bound k
  | ugt =>
      apply tripCount_of_never rfl
      simp [Predicate.eval, BitVec.ult_eq_decide]
  | uge => exact forall_lt_uge bound k
  | ult => exact forall_lt_ult bound k
  | ule => exact forall_lt_ule bound k
  | sgt => exact forall_lt_sgt hw bound k
  | sge => exact forall_lt_sge hw bound k
  | slt => exact forall_lt_slt hw bound k
  | sle => exact forall_lt_sle hw bound k

end Trips

namespace Setting

variable {S : Setting} {loop : LoopDescriptor} {bound : Value}

theorem Runs.zero {k : Nat} (h : S.Runs loop bound k) : S.Runs loop bound 0 := by
  intro j hj
  apply h
  split_ifs at hj ⊢ <;> omega

section Widths

variable (hwidth : 0 < S.width loop.induction)

include hwidth in
/-- The table gives the iterations in which the body of a loop runs. -/
theorem runs_iff (k : Nat) : S.Runs loop bound k ↔ (k : ℕ∞) < S.iterations loop bound := by
  have htrip := Predicate.forall_lt_iff_le_tripCount hwidth (S.stays loop) (S.boundBits loop bound)
  rw [iterations]
  cases hfront : (S.exitTest loop.loopNode).inFront with
  | false =>
      simp only [Runs, GoesOn, hfront, Bool.false_eq_true, if_false]
      rw [htrip k]
      exact ENat.natCast_lt_add_one_iff.symm
  | true =>
      simp only [Runs, GoesOn, hfront, if_true, add_zero]
      have hsucc := htrip (k + 1)
      simp only [Nat.lt_succ_iff] at hsucc
      rw [hsucc, Nat.cast_succ]
      exact ENat.natCast_add_one_le_iff

include hwidth in
theorem ends_iff : S.Ends loop bound ↔ S.iterations loop bound ≠ ⊤ := by
  have htrip := Predicate.forall_lt_iff_le_tripCount hwidth (S.stays loop) (S.boundBits loop bound)
  have htop : S.iterations loop bound = ⊤ ↔
      (S.stays loop).tripCount (S.boundBits loop bound) = ⊤ := by
    rw [iterations]
    split_ifs <;> simp
  rw [Ends, ne_eq, htop, ENat.eq_top_iff_forall_ge, not_forall]
  constructor
  · rintro ⟨k, hk⟩
    refine ⟨k + 1, fun hle => hk ?_⟩
    exact (htrip (k + 1)).mpr hle k (Nat.lt_succ_self k)
  · rintro ⟨k, hk⟩
    by_contra hall
    push Not at hall
    exact hk ((htrip k).mp fun j _ => hall j)

end Widths

theorem finishes_iff {loops : List LoopDescriptor}
    (hwidth : ∀ loop ∈ loops, 0 < S.width loop.induction) {x : Nat → Nat}
    (h : S.BodyRuns loops x) : S.Finishes loops ↔ S.endless loops (boundAt loops) = false := by
  induction loops generalizing x with
  | nil => exact iff_of_true trivial rfl
  | cons loop rest ih =>
      obtain ⟨hruns, _, hrest⟩ := h
      have hinner := ih (fun later hlater => hwidth later (List.mem_cons_of_mem loop hlater)) hrest
      have hends := @ends_iff S loop loop.boundValue (hwidth loop List.mem_cons_self)
      have hstart : ¬ ¬ S.Runs loop loop.boundValue 0 := not_not.mpr hruns.zero
      have hhead : boundAt (loop :: rest) 0 = loop.boundValue := rfl
      simp only [Finishes, endless, Bool.or_eq_false_iff, isInfinite_eq_false, hhead, hends, hstart,
        false_or, hinner]
      rfl

/-- The iterations of the body are a box. -/
theorem bodyRuns_iff {loops : List LoopDescriptor}
    (hwidth : ∀ loop ∈ loops, 0 < S.width loop.induction) (x : Nat → Nat) :
    S.BodyRuns loops x ↔ ∀ i, (x i : ℕ∞) < S.reached loops (boundAt loops) i := by
  induction loops generalizing x with
  | nil =>
      refine iff_of_true trivial fun i => ?_
      exact ENat.natCast_lt_top (x i)
  | cons loop rest ih =>
      have hrest := fun later hlater => hwidth later (List.mem_cons_of_mem loop hlater)
      have hruns := @runs_iff S loop loop.boundValue (hwidth loop List.mem_cons_self) (x 0)
      rw [BodyRuns, ← Nat.and_forall_add_one]
      have htail : (∀ i, (x (i + 1) : ℕ∞) <
          S.reached (loop :: rest) (boundAt (loop :: rest)) (i + 1)) ↔
          S.BodyRuns rest fun i => x (i + 1) := (ih hrest fun i => x (i + 1)).symm
      rw [htail, ← and_assoc, and_congr_left_iff]
      intro hbody
      have hbound : boundAt (loop :: rest) 0 = loop.boundValue := rfl
      have hinner : (fun i => boundAt (loop :: rest) (i + 1)) = boundAt rest := rfl
      rw [hruns, finishes_iff hrest hbody, reached, hbound, hinner]
      split_ifs with hendless
      · rw [lt_firstOnly, hendless]
        simp
      · simp [hendless]

section Boxes

variable {ι : Type}

theorem not_forall_lt_of_zero {e : ι → ℕ∞} (h : ∃ i, e i = 0) (x : ι → Nat) :
    ¬ ∀ i, (x i : ℕ∞) < e i := by
  obtain ⟨i, hi⟩ := h
  intro hall
  exact absurd (hi ▸ hall i) not_lt_zero

/-- A box that is not empty has a point for every entry of a side. -/
theorem update_lt_iff [DecidableEq ι] {e : ι → ℕ∞} (h : ¬ ∃ i, e i = 0) (i : ι) (n : Nat) :
    (∀ j, ((Function.update (fun _ => 0) i n j : Nat) : ℕ∞) < e j) ↔ (n : ℕ∞) < e i := by
  constructor
  · intro hall
    simpa using hall i
  · intro hlt j
    by_cases heq : j = i
    · subst heq
      simpa using hlt
    · rw [Function.update_of_ne heq]
      exact pos_iff_ne_zero.mpr fun hzero => h ⟨j, hzero⟩

/-- Two boxes are the same if they are empty or have the same sides. -/
theorem box_eq_iff [DecidableEq ι] (e f : ι → ℕ∞) :
    (∀ x : ι → Nat, (∀ i, (x i : ℕ∞) < e i) ↔ ∀ i, (x i : ℕ∞) < f i) ↔
      (∃ i, e i = 0) ∧ (∃ i, f i = 0) ∨ ∀ i, e i = f i := by
  constructor
  · intro hall
    by_cases he : ∃ i, e i = 0
    · refine Or.inl ⟨he, ?_⟩
      by_contra hf
      have hzero := (hall fun _ => 0).mpr fun i => pos_iff_ne_zero.mpr fun hi => hf ⟨i, hi⟩
      exact not_forall_lt_of_zero he _ hzero
    · by_cases hf : ∃ i, f i = 0
      · have hzero := (hall fun _ => 0).mp fun i => pos_iff_ne_zero.mpr fun hi => he ⟨i, hi⟩
        exact absurd hzero (not_forall_lt_of_zero hf _)
      · refine Or.inr fun i => ENat.eq_of_forall_natCast_le_iff fun n => ?_
        cases n with
        | zero => simp
        | succ n =>
            rw [Nat.cast_succ, ENat.natCast_add_one_le_iff, ENat.natCast_add_one_le_iff,
              ← update_lt_iff he, ← update_lt_iff hf]
            exact hall _
  · rintro (⟨he, hf⟩ | heq) x
    · exact iff_of_false (not_forall_lt_of_zero he x) (not_forall_lt_of_zero hf x)
    · exact forall_congr' fun i => by rw [heq i]

end Boxes

section Exchange

/-- Two descriptors of one loop, their bounds apart. -/
structure SameLoop (loop loop' : LoopDescriptor) : Prop where
  loopNode : loop'.loopNode = loop.loopNode
  induction : loop'.induction = loop.induction
  predicate : loop'.predicate = loop.predicate

theorem SameLoop.refl (loop : LoopDescriptor) : SameLoop loop loop := ⟨rfl, rfl, rfl⟩

theorem sameLoop_withBoundsOf (loop other : LoopDescriptor) :
    SameLoop loop (loop.withBoundsOf other) :=
  ⟨rfl, rfl, rfl⟩

theorem SameLoop.iterations_eq {loop loop' : LoopDescriptor} (h : SameLoop loop loop')
    (bound : Value) : S.iterations loop' bound = S.iterations loop bound := by
  obtain ⟨hnode, hinduction, hpredicate⟩ := h
  cases loop
  cases loop'
  simp only at hnode hinduction hpredicate
  subst hnode hinduction hpredicate
  rfl

theorem endless_congr {loops loops' : List LoopDescriptor}
    (h : List.Forall₂ SameLoop loops loops') (bound : Nat → Value) :
    S.endless loops' bound = S.endless loops bound := by
  induction h generalizing bound with
  | nil => rfl
  | cons hloop _ ih => rw [endless, endless, hloop.iterations_eq, ih]

theorem reached_congr {loops loops' : List LoopDescriptor}
    (h : List.Forall₂ SameLoop loops loops') (bound : Nat → Value) (i : Nat) :
    S.reached loops' bound i = S.reached loops bound i := by
  induction h generalizing bound i with
  | nil => rfl
  | cons hloop hrest ih =>
      cases i with
      | zero => rw [reached, reached, endless_congr hrest, hloop.iterations_eq]
      | succ i => rw [reached, reached, ih]

theorem forall₂_set {loops : List LoopDescriptor} {i : Nat} {loop loop' : LoopDescriptor}
    (hloop : loops[i]? = some loop) (h : SameLoop loop loop') :
    List.Forall₂ SameLoop loops (loops.set i loop') := by
  induction loops generalizing i with
  | nil => exact .nil
  | cons first rest ih =>
      cases i with
      | zero =>
          obtain rfl : first = loop := Option.some.inj hloop
          exact .cons h (List.forall₂_same.mpr fun loop _ => .refl loop)
      | succ i => exact .cons (.refl first) (ih hloop)

variable {nest : LoopNestDescriptor} {idxOuter idxInner : Nat} {outer inner : LoopDescriptor}

/-- The nest behind an interchange has the same loops with the bounds exchanged. -/
theorem reached_swapBounds (houter : nest.loops[idxOuter]? = some outer)
    (hinner : nest.loops[idxInner]? = some inner) (hne : idxOuter ≠ idxInner) (i : Nat) :
    S.reached (nest.swapBounds idxOuter idxInner outer inner).loops
      (boundAt (nest.swapBounds idxOuter idxInner outer inner).loops) i =
      S.reached nest.loops (fun i => boundAt nest.loops (Equiv.swap idxOuter idxInner i)) i := by
  have hinner' : (nest.loops.set idxOuter (outer.withBoundsOf inner))[idxInner]? = some inner := by
    rw [List.getElem?_set_ne hne, hinner]
  have hbound : boundAt (nest.swapBounds idxOuter idxInner outer inner).loops =
      fun i => boundAt nest.loops (Equiv.swap idxOuter idxInner i) := by
    funext j
    simp only [LoopNestDescriptor.swapBounds, boundAt]
    by_cases hj : j = idxInner
    · subst hj
      rw [List.getElem?_set_self (List.getElem?_eq_some_iff.mp hinner').1, Equiv.swap_apply_right,
        houter]
      rfl
    · rw [List.getElem?_set_ne (Ne.symm hj)]
      by_cases hj' : j = idxOuter
      · subst hj'
        rw [List.getElem?_set_self (List.getElem?_eq_some_iff.mp houter).1, Equiv.swap_apply_left,
          hinner]
        rfl
      · rw [List.getElem?_set_ne (Ne.symm hj'), Equiv.swap_apply_of_ne_of_ne hj' hj]
  rw [hbound]
  have hfirst : S.reached (nest.loops.set idxOuter (outer.withBoundsOf inner)) _ i =
      S.reached nest.loops (fun i => boundAt nest.loops (Equiv.swap idxOuter idxInner i)) i :=
    reached_congr (forall₂_set houter (sameLoop_withBoundsOf outer inner)) _ i
  rw [← hfirst]
  exact reached_congr (forall₂_set hinner' (sameLoop_withBoundsOf inner outer)) _ i

end Exchange

end Setting

section Control

open Flow

variable {F : Function} {SE : ScalarEvolution} {loop : LoopDescriptor} {S : Setting}

/-- What the setting says of a loop is read off its control flow: the side of its exit, and
whether the test comes before the block that stands for what is inside the loop. -/
structure Setting.Reads (S : Setting) (F : Function) (loop : LoopDescriptor)
    (exiting latch inside : BlockId) : Prop where
  exitingBlock : loop.loopNode.exitingBlock F = some exiting
  loopLatch : loop.loopNode.loopLatch F = some latch
  tested : ¬ (loop.loopNode.tested F exiting latch).Bypasses
  inside_mem : inside ∈ loop.loopNode.blocks
  stays : S.stays loop = loop.staysWhile F loop.loopNode exiting
  inFront : (S.exitTest loop.loopNode).inFront = true ↔
    ¬ (loop.loopNode.tested F exiting latch).Untested inside

/-- A block of a described loop runs in the iterations of the setting. -/
theorem Setting.Reads.loopRuns_iff {exiting latch inside : BlockId}
    (h : S.Reads F loop exiting latch inside) (hdescribes : Describes F SE loop.loopNode loop)
    (htyped : loop.Typed F (S.width loop.induction)) (hnatural : loop.loopNode.Natural F)
    (bound : Value) (iv : BitVec (S.width loop.induction)) :
    LoopRuns F loop.loopNode loop (S.boundBits loop bound) inside iv ↔
      ∃ k, iv = BitVec.ofNat _ k ∧ S.Runs loop bound k := by
  have hpath := hnatural.from_header latch ((loopLatch_spec h.loopLatch latch).mpr rfl).1
  rw [hdescribes.loopRuns_iff htyped hnatural h.exitingBlock h.loopLatch]
  refine exists_congr fun k => and_congr_right fun _ => ?_
  by_cases huntested : (loop.loopNode.tested F exiting latch).Untested inside
  · have hbehind : (S.exitTest loop.loopNode).inFront = false :=
      Bool.eq_false_of_not_eq_true fun heq => h.inFront.mp heq huntested
    rw [TestedLoop.reaches_untested_iff h.tested hpath huntested]
    simp only [Setting.Runs, Setting.GoesOn, hbehind, h.stays, Bool.false_eq_true, if_false]
  · rw [TestedLoop.reaches_tested_iff h.tested hpath (hnatural.from_header inside h.inside_mem)
      huntested]
    simp only [Setting.Runs, Setting.GoesOn, h.inFront.mpr huntested, h.stays, if_true]

/-- The table counts the iterations of the loops of an analysed nest: a block of a loop runs
as often as the number for its test says, whatever the bound. -/
theorem loopRuns_iff_lt_iterations (F : Function) (SE : ScalarEvolution) (root : Loop)
    (nest : LoopNestDescriptor) (S : Setting) (loop : LoopDescriptor)
    (exiting latch inside : BlockId) (hnest : analyzeLoopNest F SE root = some nest)
    (hloop : loop ∈ nest.loops) (hreads : S.Reads F loop exiting latch inside)
    (htyped : loop.Typed F (S.width loop.induction)) (hnatural : loop.loopNode.Natural F)
    (bound : Value) (iv : BitVec (S.width loop.induction)) :
    LoopRuns F loop.loopNode loop (S.boundBits loop bound) inside iv ↔
      ∃ k : Nat, iv = BitVec.ofNat _ k ∧ (k : ℕ∞) < S.iterations loop bound := by
  obtain ⟨i, hi, rfl⟩ := List.mem_iff_getElem.mp hloop
  have hloops := (describes_of_analyzeLoopNest hnest).2.1
  have hlength := hloops.length_eq
  have hdescribes := List.forall₂_iff_get.mp hloops |>.2 i (hlength ▸ hi) hi
  simp only [List.get_eq_getElem] at hdescribes
  have hsame : Describes F SE (nest.loops[i]).loopNode nest.loops[i] := by
    rwa [hdescribes.loopNode]
  rw [hreads.loopRuns_iff hsame htyped hnatural]
  exact exists_congr fun k => and_congr_right fun _ => Setting.runs_iff htyped.width_pos k

end Control

section Program

/-- Two loops that test at the top and go on where the comparison holds. -/
def exampleSetting : Setting where
  exitTest _ := ⟨true, true⟩
  width _ := 32
  bits _ := 8

theorem exampleSetting_width (value : Value) : 0 < exampleSetting.width value := Nat.succ_pos 31

theorem exampleSetting_reads : exampleSetting.Reads (Payload.function {} .slt)
    (exampleDescriptor .slt) 1 5 2 where
  exitingBlock := rfl
  loopLatch := rfl
  tested h := absurd (show (5 : BlockId) = 1 from untested_header (L := exampleOuter) h.1)
    (by decide)
  inside_mem := by decide
  stays := rfl
  inFront := by
    refine iff_of_true rfl fun h => ?_
    exact absurd (show (2 : BlockId) = 1 from untested_header (L := exampleOuter) h) (by decide)

/-- The outer loop of the example runs its inner loop for 7 and not for 8. -/
theorem exampleOuter_runs :
    LoopRuns (Payload.function {} .slt) exampleOuter (exampleDescriptor .slt) (8 : BitVec 32) 2
      (7 : BitVec 32) ∧
    ¬ LoopRuns (Payload.function {} .slt) exampleOuter (exampleDescriptor .slt) (8 : BitVec 32) 2
      (8 : BitVec 32) := by
  have hruns := loopRuns_iff_lt_iterations (Payload.function {} .slt) exampleEvolution exampleOuter
    (exampleLoops []) exampleSetting (exampleDescriptor .slt) 1 5 2 rfl List.mem_cons_self
    exampleSetting_reads (exampleDescriptor_typed .slt) (exampleOuter_natural .slt) 10
  have hcount : exampleSetting.iterations (exampleDescriptor .slt) 10 = ((8 : Nat) : ℕ∞) := rfl
  refine ⟨(hruns 7).mpr ⟨7, rfl, ?_⟩, fun hlast => ?_⟩
  · rw [hcount, Nat.cast_lt]
    decide
  · obtain ⟨k, hk, hlt⟩ := (hruns 8).mp hlast
    rw [hcount, Nat.cast_lt] at hlt
    have heq : 8 = (BitVec.ofNat 32 k).toNat := congrArg BitVec.toNat hk
    rw [toNat_ofNat_of_lt (Nat.lt_trans hlt (by decide))] at heq
    exact absurd heq (Nat.ne_of_gt hlt)

/-- Three such loops with bounds of their own. -/
def deepSetting : Setting where
  exitTest _ := ⟨true, true⟩
  width _ := 32
  bits value := if value = 10 then 8 else if value = 14 then 16 else 24

end Program

end PolyhedralPass
