/-
Tiling modulo the width of the induction variable: when the additions of a tile
loop stay in front of the largest number of its type.
-/
import PolyhedralPass.Partition
import Mathlib.Data.BitVec

namespace PolyhedralPass

open Flow

/-- The loop `IV < bound` on integers of a width. -/
def lessControl {w : Nat} (signed : Bool) (bound : BitVec w) : Control (BitVec w) :=
  ⟨(if signed then Predicate.slt else .ult).eval, true, bound⟩

/-- How often such a loop runs from zero. -/
def iterationCount {w : Nat} (signed : Bool) (bound : BitVec w) : Nat :=
  if signed then bound.toInt.toNat else bound.toNat

/-- The first number that wraps. -/
def wrapLimit (w : Nat) (signed : Bool) : Nat := if signed then 2 ^ (w - 1) else 2 ^ w

/-- A number of iterations in full tiles. -/
def roundUp (n tileSize : Nat) : Nat := (n + tileSize - 1) / tileSize * tileSize

/-- The tile and point loops run for `0, ..., bound - 1`, each once. -/
def RunsExactly {w : Nat} (signed : Bool) (bound : BitVec w) (tileSize : Nat) : Prop :=
  ∀ executed, (lessControl signed bound).TileRun tileSize 0 executed ↔
    executed = (List.range (iterationCount signed bound)).map Nat.cast

section Rounds

variable {α : Type} [AddMonoidWithOne α] {control : Control α} {tileSize : Nat}

/-- A tile loop whose next value wraps leaves out the tile in front of it. -/
theorem Control.not_tileRun_range {n k : Nat} (hk : k * tileSize < n)
    (hgo : ∀ i < k + 1, control.holds (((i + 1) * tileSize : Nat) : α) control.bound = true)
    (hfull : ∀ i < k, ∀ x, i * tileSize ≤ x → x < (i + 1) * tileSize →
      control.holds (x : α) (((i + 1) * tileSize : Nat) : α) = control.polarity)
    (hend : ∀ i < k, control.holds (((i + 1) * tileSize : Nat) : α)
      (((i + 1) * tileSize : Nat) : α) ≠ control.polarity)
    (hempty : control.holds ((k * tileSize : Nat) : α) (((k + 1) * tileSize : Nat) : α) ≠
      control.polarity)
    (hagain : control.holds (((k + 1) * tileSize : Nat) : α)
      (control.clamp tileSize (((k + 1) * tileSize : Nat) : α)) = control.polarity)
    (hne : (((k + 1) * tileSize : Nat) : α) ≠ ((k * tileSize : Nat) : α)) :
    ¬ control.TileRun tileSize 0 ((List.range n).map Nat.cast) := by
  intro hrun
  have hpoint : ∀ i < k + 1, control.LoopRun (control.clamp tileSize ((i * tileSize : Nat) : α))
      ((i * tileSize : Nat) : α)
      ((List.range' (i * tileSize) (if i < k then tileSize else 0)).map Nat.cast) := by
    intro i hi
    rw [Control.loopRun_iff, Control.clamp_of_go (hgo i hi)]
    rcases Nat.lt_or_eq_of_le (Nat.le_of_lt_succ hi) with hlt | rfl
    · rw [if_pos hlt]
      refine ⟨tileSize, ?_, ?_, rfl⟩
      · intro j hj
        apply hfull i hlt _ (Nat.le_add_right _ _)
        rw [Nat.succ_mul]
        exact Nat.add_lt_add_left hj _
      · rw [← Nat.succ_mul]
        exact hend i hlt
    · rw [if_neg (lt_irrefl i)]
      exact ⟨0, fun j hj => absurd hj (Nat.not_lt_zero j), hempty, rfl⟩
  obtain ⟨rest, hrest, hsplit⟩ := BottomRun.rounds hrun (n := k + 1)
    (fun _ _ _ => Control.LoopRun.unique)
    (fun i hi => by rw [iterate_add_tileSize]; exact hpoint i hi)
    (fun i hi => by rw [iterate_add_tileSize]; exact hgo i hi)
  rw [iterate_add_tileSize] at hrest
  -- the tile behind starts with the wrapped value where `k * tileSize` is expected
  obtain ⟨front, back, hfirst, rfl⟩ := hrest.first
  obtain ⟨m, _, hleave, rfl⟩ := Control.loopRun_iff.mp hfirst
  cases m with
  | zero => exact hleave hagain
  | succ m =>
      have hfront : ((List.range (k + 1)).flatMap fun i =>
          (List.range' (i * tileSize) (if i < k then tileSize else 0)).map (Nat.cast (R := α))) =
          (List.range (k * tileSize)).map Nat.cast := by
        rw [← List.map_flatMap, Control.flatMap_tiles_last, Nat.add_zero]
      have hget := congrArg (fun values => values[k * tileSize]?) hsplit
      simp only [hfront, List.range'_succ, List.map_cons, List.cons_append] at hget
      rw [List.getElem?_append_right (by simp)] at hget
      simp [hk] at hget
      exact hne (by exact_mod_cast hget.symm)

end Rounds

section Numbers

variable {w : Nat}

theorem two_pow_eq (hw : 0 < w) : 2 ^ w = 2 ^ (w - 1) + 2 ^ (w - 1) :=
  (Nat.two_pow_pred_add_two_pow_pred hw).symm

theorem toNat_natCast (x : Nat) : ((x : Nat) : BitVec w).toNat = x % 2 ^ w := by
  rw [BitVec.natCast_eq_ofNat, BitVec.toNat_ofNat]

theorem toInt_natCast_of_lt (hw : 0 < w) {x : Nat} (hx : x < 2 ^ (w - 1)) :
    ((x : Nat) : BitVec w).toInt = x := by
  have hpow := two_pow_eq hw
  rw [BitVec.natCast_eq_ofNat, BitVec.toInt_ofNat']
  apply Int.bmod_eq_of_le <;> omega

/-- A number from the first one that wraps on reads as a negative one. -/
theorem toInt_natCast_of_ge (hw : 0 < w) {x : Nat} (hx : 2 ^ (w - 1) ≤ x)
    (hlt : x < 2 ^ w + 2 ^ (w - 1)) : ((x : Nat) : BitVec w).toInt = x - (2 ^ w : Nat) := by
  have hpow := two_pow_eq hw
  rw [BitVec.natCast_eq_ofNat, BitVec.toInt_ofNat', ← Int.sub_bmod_right]
  apply Int.bmod_eq_of_le <;> omega

variable {signed : Bool} {bound : BitVec w}

theorem lessControl_holds (a b : BitVec w) : (lessControl signed bound).holds a b =
    if signed then decide (a.toInt < b.toInt) else decide (a.toNat < b.toNat) := by
  cases signed with
  | false => exact BitVec.ult_eq_decide
  | true => exact BitVec.slt_eq_decide

@[simp] theorem lessControl_polarity : (lessControl signed bound).polarity = true := rfl

@[simp] theorem lessControl_bound : (lessControl signed bound).bound = bound := rfl

/-- In front of the limit the comparison is that of the numbers. -/
theorem holds_natCast (hw : 0 < w) {x y : Nat} (hx : x < wrapLimit w signed)
    (hy : y < wrapLimit w signed) :
    (lessControl signed bound).holds (x : BitVec w) (y : BitVec w) = decide (x < y) := by
  rw [lessControl_holds]
  cases signed with
  | false =>
      have hx : x < 2 ^ w := hx
      have hy : y < 2 ^ w := hy
      simp only [toNat_natCast, Nat.mod_eq_of_lt hx, Nat.mod_eq_of_lt hy]
      rfl
  | true =>
      have hx : x < 2 ^ (w - 1) := hx
      have hy : y < 2 ^ (w - 1) := hy
      simp only [toInt_natCast_of_lt hw hx, toInt_natCast_of_lt hw hy, if_true, Nat.cast_lt]

theorem holds_bound (hw : 0 < w) {x : Nat} (hx : x < wrapLimit w signed) :
    (lessControl signed bound).holds (x : BitVec w) bound =
      decide (x < iterationCount signed bound) := by
  rw [lessControl_holds]
  cases signed with
  | false =>
      have hx : x < 2 ^ w := hx
      simp only [toNat_natCast, Nat.mod_eq_of_lt hx]
      rfl
  | true =>
      have hx : x < 2 ^ (w - 1) := hx
      simp only [toInt_natCast_of_lt hw hx, iterationCount, if_true]
      congr 1
      exact propext Int.lt_toNat.symm

theorem iterationCount_lt (hw : 0 < w) : iterationCount signed bound < wrapLimit w signed := by
  have hpow := two_pow_eq hw
  cases signed with
  | false => exact bound.isLt
  | true =>
      have hlt : 2 * bound.toInt < ((2 ^ w : Nat) : Int) := by
        exact_mod_cast BitVec.two_mul_toInt_lt
      have hpos := Nat.two_pow_pos (w - 1)
      simp only [iterationCount, wrapLimit, if_true]
      omega

theorem le_wrapLimit : 2 ^ (w - 1) ≤ wrapLimit w signed := by
  cases signed with
  | false => exact Nat.pow_le_pow_right (by decide) (Nat.sub_le w 1)
  | true => exact Nat.le_refl _

/-- The value behind the last tile, if it wraps: the comparison with the bound takes it
for another tile, and the tile in front of it is empty. -/
theorem holds_wrapped (hw : 0 < w) {tileSize x y : Nat} (htile : tileSize < 2 ^ (w - 1))
    (hy : y < iterationCount signed bound) (hx : x = y + tileSize)
    (hwrap : wrapLimit w signed ≤ x) (hpos : tileSize ≤ y ∨ signed = true) :
    (lessControl signed bound).holds (x : BitVec w) bound = true ∧
      (lessControl signed bound).holds (y : BitVec w) (x : BitVec w) = false ∧
      (lessControl signed bound).holds (x : BitVec w) ((x + tileSize : Nat) : BitVec w) =
        decide (0 < tileSize) := by
  have hpow := two_pow_eq hw
  have hcount := @iterationCount_lt w signed bound hw
  simp only [lessControl_holds]
  cases signed with
  | false =>
      simp only [wrapLimit, iterationCount, Bool.false_eq_true, if_false, or_false] at *
      have hxmod : x % 2 ^ w = x - 2 ^ w := by
        rw [Nat.mod_eq_sub_mod hwrap, Nat.mod_eq_of_lt (by omega)]
      have hnext : (x + tileSize) % 2 ^ w = x + tileSize - 2 ^ w := by
        rw [Nat.mod_eq_sub_mod (by omega), Nat.mod_eq_of_lt (by omega)]
      simp only [toNat_natCast, hxmod, hnext, Nat.mod_eq_of_lt (hy.trans bound.isLt)]
      refine ⟨?_, ?_, ?_⟩
      · simp only [decide_eq_true_eq]
        omega
      · simp only [decide_eq_false_iff_not]
        omega
      · congr 1
        apply propext
        omega
  | true =>
      simp only [wrapLimit, iterationCount, if_true] at *
      rw [toInt_natCast_of_ge hw hwrap (by omega), toInt_natCast_of_lt hw (by omega),
        toInt_natCast_of_ge hw (by omega) (by omega)]
      refine ⟨?_, ?_, ?_⟩
      · simp only [decide_eq_true_eq]
        omega
      · simp only [decide_eq_false_iff_not]
        omega
      · congr 1
        apply propext
        omega

end Numbers

theorem roundUp_eq {n k tileSize : Nat} (hk : k * tileSize < n) (hn : n ≤ (k + 1) * tileSize) :
    roundUp n tileSize = (k + 1) * tileSize := by
  have hdiv : (n + tileSize - 1) / tileSize = k + 1 := by
    apply Nat.div_eq_of_lt_le
    · rw [Nat.succ_mul]
      omega
    · rw [Nat.succ_mul]
      omega
  rw [roundUp, hdiv]

section Runs

variable {w : Nat} {signed : Bool} {bound : BitVec w} {tileSize : Nat}

theorem runsExactly_of_tileRun
    (h : (lessControl signed bound).TileRun tileSize 0
      ((List.range (iterationCount signed bound)).map Nat.cast)) :
    RunsExactly signed bound tileSize := by
  intro executed
  constructor
  · exact fun hexecuted => h.unique hexecuted
  · rintro rfl
    exact h

theorem runsExactly_of_lt (hw : 0 < w) {k : Nat}
    (hk : k * tileSize ≤ iterationCount signed bound)
    (hn : iterationCount signed bound ≤ (k + 1) * tileSize)
    (hfirst : ∀ i < k, (i + 1) * tileSize < iterationCount signed bound)
    (hlt : (k + 1) * tileSize < wrapLimit w signed) : RunsExactly signed bound tileSize := by
  have hlimit : ∀ i ≤ k, (i + 1) * tileSize < wrapLimit w signed :=
    fun i hi => lt_of_le_of_lt (le_mul_of_le (Nat.succ_le_succ hi)) hlt
  have hcount := @iterationCount_lt w signed bound hw
  apply runsExactly_of_tileRun
  apply Control.tileRun_range (k := k) hk
  · intro i hi
    rw [lessControl_bound, holds_bound hw (hlimit i hi.le)]
    exact decide_eq_true (hfirst i hi)
  · rw [lessControl_bound, holds_bound hw hlt]
    exact decide_eq_false (not_lt.mpr hn)
  · intro i hi x _ hx
    rw [holds_natCast hw (hx.trans (hlimit i hi.le)) (hlimit i hi.le)]
    exact decide_eq_true hx
  · intro i hi
    rw [holds_natCast hw (hlimit i hi.le) (hlimit i hi.le), lessControl_polarity]
    simp
  · intro x _ hx
    rw [lessControl_bound, holds_bound hw (hx.trans hcount)]
    exact decide_eq_true hx
  · rw [lessControl_bound, holds_bound hw hcount, lessControl_polarity]
    simp

/-- Behind a wrapped value the tile loop starts again. -/
theorem not_runsExactly_of_ge (hw : 0 < w) (htile : 1 ≤ tileSize)
    (hsmall : tileSize < 2 ^ (w - 1)) {k : Nat} (hk : k * tileSize < iterationCount signed bound)
    (hge : wrapLimit w signed ≤ (k + 1) * tileSize) : ¬ RunsExactly signed bound tileSize := by
  have hcount := @iterationCount_lt w signed bound hw
  have hnext : (k + 1) * tileSize = k * tileSize + tileSize := Nat.succ_mul k tileSize
  have hfull : ∀ i < k, (i + 1) * tileSize ≤ k * tileSize := fun i hi => le_mul_of_le hi
  have hlimit : ∀ i < k, (i + 1) * tileSize < wrapLimit w signed :=
    fun i hi => ((hfull i hi).trans_lt hk).trans hcount
  have hpos : tileSize ≤ k * tileSize ∨ signed = true := by
    cases k with
    | zero =>
        have hle := @le_wrapLimit w signed
        omega
    | succ k => exact Or.inl (Nat.le_mul_of_pos_left tileSize (Nat.succ_pos k))
  obtain ⟨hgo, hempty, hagain⟩ := holds_wrapped hw hsmall hk hnext hge hpos
  intro hruns
  refine Control.not_tileRun_range hk ?_ ?_ ?_ ?_ ?_ ?_ ((hruns _).mpr rfl)
  · intro i hi
    rcases Nat.lt_or_eq_of_le (Nat.le_of_lt_succ hi) with hlt | rfl
    · rw [lessControl_bound, holds_bound hw (hlimit i hlt)]
      exact decide_eq_true ((hfull i hlt).trans_lt hk)
    · exact hgo
  · intro i hi x _ hx
    rw [holds_natCast hw (hx.trans (hlimit i hi)) (hlimit i hi)]
    exact decide_eq_true hx
  · intro i hi
    rw [holds_natCast hw (hlimit i hi) (hlimit i hi), lessControl_polarity]
    simp
  · rw [hempty, lessControl_polarity]
    exact Bool.false_ne_true
  · rw [Control.clamp, ← Nat.cast_add, lessControl_polarity]
    split_ifs
    · rw [hagain]
      exact decide_eq_true htile
    · exact hgo
  · intro heq
    rw [hnext, Nat.cast_add, add_eq_left] at heq
    have hzero : tileSize % 2 ^ w = 0 := by
      rw [← toNat_natCast, heq]
      exact BitVec.toNat_zero
    have hpow := two_pow_eq hw
    rw [Nat.mod_eq_of_lt (by omega)] at hzero
    omega

end Runs

/-- The tile loop and its point loops run for the numbers below the bound if the bound
in full tiles still is a number of the type. -/
theorem runsExactly_iff (w : Nat) (signed : Bool) (bound : BitVec w) (tileSize : Nat)
    (htile : 1 ≤ tileSize) (hsmall : tileSize < 2 ^ (w - 1)) :
    RunsExactly signed bound tileSize ↔
      roundUp (iterationCount signed bound) tileSize < wrapLimit w signed := by
  have hw : 0 < w := by
    rcases Nat.eq_zero_or_pos w with rfl | hw
    · simp at hsmall
      omega
    · exact hw
  rcases Nat.eq_zero_or_pos (iterationCount signed bound) with hzero | hpos
  · have hlimit : tileSize < wrapLimit w signed := hsmall.trans_le le_wrapLimit
    refine iff_of_true (runsExactly_of_lt hw (k := 0) ?_ ?_ ?_ ?_) ?_
    · rw [Nat.zero_mul]
      exact Nat.zero_le _
    · rw [hzero]
      exact Nat.zero_le _
    · exact fun i hi => absurd hi (Nat.not_lt_zero i)
    · rwa [Nat.zero_add, Nat.one_mul]
    · rw [hzero, roundUp, Nat.zero_add, Nat.div_eq_of_lt (Nat.sub_lt htile Nat.one_pos),
        Nat.zero_mul]
      exact (Nat.zero_le _).trans_lt hlimit
  · obtain ⟨k, hk, hn⟩ := exists_tiles htile hpos
    rw [roundUp_eq hk hn]
    constructor
    · intro hruns
      by_contra hge
      exact not_runsExactly_of_ge hw htile hsmall hk (not_lt.mp hge) hruns
    · intro hlt
      apply runsExactly_of_lt hw hk.le hn _ hlt
      exact fun i hi => (le_mul_of_le hi).trans_lt hk

/-- Bound 127 of eight bits in tiles of ten. -/
theorem runsExactly_byte : ¬ RunsExactly true (127 : BitVec 8) 10 := by
  rw [runsExactly_iff 8 true 127 10 (by decide) (by decide)]
  decide

theorem not_forall_runsExactly : ¬ ∀ (w : Nat) (signed : Bool) (bound : BitVec w)
    (tileSize : Nat), 1 ≤ tileSize → tileSize < 2 ^ (w - 1) →
      RunsExactly signed bound tileSize := by
  intro hall
  have hruns := hall 8 true 127 10 (by decide) (by decide)
  exact not_runsExactly_of_ge (k := 12) (by decide) (by decide) (by decide) (by decide) (by decide)
    hruns

end PolyhedralPass
