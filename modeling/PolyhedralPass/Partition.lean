/-
Tiling over the integers: for which predicates, bounds and tile sizes the tile
loop and its point loops run for the iterations of the loop they stand for.
-/
import PolyhedralPass.Blocking
import Mathlib.Tactic.Positivity

namespace PolyhedralPass

open Flow

/-- The predicates on integers that do not wrap; signed and unsigned ones agree. -/
@[grind] def Predicate.evalInt : Predicate → Int → Int → Bool
  | eq, a, b => decide (a = b)
  | ne, a, b => decide (a ≠ b)
  | ugt, a, b => decide (b < a)
  | uge, a, b => decide (b ≤ a)
  | ult, a, b => decide (a < b)
  | ule, a, b => decide (a ≤ b)
  | sgt, a, b => decide (b < a)
  | sge, a, b => decide (b ≤ a)
  | slt, a, b => decide (a < b)
  | sle, a, b => decide (a ≤ b)

def Predicate.control (pred : Predicate) (polarity : Bool) (bound : Int) : Control Int :=
  ⟨pred.evalInt, polarity, bound⟩

@[simp, grind =] theorem Predicate.control_holds (pred : Predicate) (polarity : Bool)
    (bound a b : Int) : (pred.control polarity bound).holds a b = pred.evalInt a b := rfl

@[simp, grind =] theorem Predicate.control_polarity (pred : Predicate) (polarity : Bool)
    (bound : Int) :
    (pred.control polarity bound).polarity = polarity := rfl

@[simp, grind =] theorem Predicate.control_bound (pred : Predicate) (polarity : Bool)
    (bound : Int) :
    (pred.control polarity bound).bound = bound := rfl

/-- If the loop is finite then the tiled loop runs for the same values. -/
def Control.Partitions {α : Type} [AddMonoidWithOne α] (control : Control α) (tileSize : Nat) :
    Prop :=
  ∀ values, control.LoopRun control.bound 0 values →
    ∀ executed, control.TileRun tileSize 0 executed ↔ executed = values

/-- The bounds and tile sizes at which tiling is right for a predicate and the outcome
of the test that continues the loop. -/
def PartitionsWhen (tileSize : Nat) (bound : Int) : Predicate → Bool → Prop
  | .slt, _ | .ult, _ => True
  | .sle, true | .ule, true => bound < tileSize
  | .sle, false | .ule, false => True
  | .sgt, true | .ugt, true => bound < 0 ∨ tileSize ≤ bound
  | .sgt, false | .ugt, false => tileSize ≤ bound
  | .sge, true | .uge, true => bound ≤ 0 ∨ tileSize < bound
  | .sge, false | .uge, false => tileSize < bound
  | .eq, true => bound ≠ tileSize
  | .eq, false => True
  | .ne, true => bound < 0 ∨ 0 < bound ∧ (tileSize : Int) ∣ bound
  | .ne, false => 0 < bound ∧ (tileSize : Int) ∣ bound

section Runs

variable {α : Type} [AddMonoidWithOne α] {control : Control α} {tileSize : Nat}

theorem Control.loopRun_range {bound : α} {n : Nat}
    (hgo : ∀ i < n, control.holds (i : α) bound = control.polarity)
    (hleave : control.holds (n : α) bound ≠ control.polarity) :
    control.LoopRun bound 0 ((List.range n).map Nat.cast) := by
  rw [← Nat.cast_zero, Control.loopRun_iff]
  refine ⟨n, ?_, ?_, by rw [List.range_eq_range']⟩
  · intro i hi
    rw [Nat.zero_add]
    exact hgo i hi
  · rw [Nat.zero_add]
    exact hleave

theorem Control.partitions_of_run {values : List α}
    (horiginal : control.LoopRun control.bound 0 values)
    (htiled : control.TileRun tileSize 0 values) : control.Partitions tileSize := by
  intro values' hvalues' executed
  obtain rfl := horiginal.unique hvalues'
  constructor
  · exact fun hexecuted => htiled.unique hexecuted
  · rintro rfl
    exact htiled

/-- Nothing is asked of a loop that goes on for ever. -/
theorem Control.partitions_of_endless
    (h : ∀ i : Nat, control.holds (i : α) control.bound = control.polarity) :
    control.Partitions tileSize := by
  intro values hvalues
  have hrun : control.LoopRun control.bound ((0 : Nat) : α) values := by rwa [Nat.cast_zero]
  obtain ⟨n, _, hn, _⟩ := Control.loopRun_iff.mp hrun
  exact absurd (h _) hn

/-- A tile loop that leaves behind its first tile has the whole loop in it. -/
theorem Control.partitions_of_one_tile
    (hstop : control.holds (tileSize : α) control.bound = false) : control.Partitions tileSize := by
  intro values hvalues
  have hclamp : control.clamp tileSize 0 = control.bound := by
    rw [Control.clamp, zero_add, hstop, if_neg Bool.false_ne_true]
  have hrun : control.TileRun tileSize 0 values := by
    refine .stop ?_ ?_
    · rwa [hclamp]
    · rw [zero_add, hstop]
      exact Bool.false_ne_true
  exact Control.partitions_of_run hvalues hrun values hvalues

theorem Control.not_partitions_of_endless {values : List α}
    (horiginal : control.LoopRun control.bound 0 values)
    (h : ∀ i, control.holds (((i + 1) * tileSize : Nat) : α) control.bound = true) :
    ¬ control.Partitions tileSize := by
  intro hpartitions
  exact Control.not_tileRun h ((hpartitions values horiginal values).mpr rfl)

theorem Control.not_partitions_of_ne {values executed : List α}
    (horiginal : control.LoopRun control.bound 0 values)
    (htiled : control.TileRun tileSize 0 executed) (hne : executed ≠ values) :
    ¬ control.Partitions tileSize := by
  intro hpartitions
  exact hne ((hpartitions values horiginal executed).mp htiled)

end Runs

section Cases

variable {bound : Int} {tileSize : Nat}

/-- The number of full tiles in front of the last one. -/
theorem exists_tiles {n : Nat} (htile : 1 ≤ tileSize) (hn : 1 ≤ n) :
    ∃ k, k * tileSize < n ∧ n ≤ (k + 1) * tileSize := by
  have hdiv := Nat.div_add_mod' (n - 1) tileSize
  have hmod := Nat.mod_lt (n - 1) htile
  refine ⟨(n - 1) / tileSize, ?_, ?_⟩
  · omega
  · rw [Nat.succ_mul]
    omega

theorem le_mul_of_le {i k : Nat} (h : i ≤ k) : i * tileSize ≤ k * tileSize :=
  Nat.mul_le_mul_right tileSize h

/-- Full tiles and a last one. -/
theorem partitions_slt_true (htile : 1 ≤ tileSize) :
    (Predicate.slt.control true bound).Partitions tileSize := by
  rcases le_or_gt bound 0 with hbound | hbound
  · apply Control.partitions_of_one_tile
    grind
  · obtain ⟨n, rfl⟩ := Int.eq_ofNat_of_zero_le hbound.le
    obtain ⟨k, hk, hn⟩ := exists_tiles htile (Int.ofNat_lt.mp hbound)
    have hle : ∀ i < k, (i + 1) * tileSize ≤ k * tileSize := fun i hi => le_mul_of_le hi
    refine Control.partitions_of_run (Control.loopRun_range (n := n) ?_ ?_)
      (Control.tileRun_range (n := n) (k := k) hk.le ?_ ?_ ?_ ?_ ?_ ?_) <;>
    grind

/-- Empty tiles. -/
theorem partitions_slt_false (htile : 1 ≤ tileSize) :
    (Predicate.slt.control false bound).Partitions tileSize := by
  rcases le_or_gt bound 0 with hbound | hbound
  · apply Control.partitions_of_endless
    grind
  · obtain ⟨n, rfl⟩ := Int.eq_ofNat_of_zero_le hbound.le
    obtain ⟨k, hk, hn⟩ := exists_tiles htile (Int.ofNat_lt.mp hbound)
    have hle : ∀ i < k, (i + 1) * tileSize ≤ k * tileSize := fun i hi => le_mul_of_le hi
    refine Control.partitions_of_run (Control.loopRun_range (n := 0) ?_ ?_)
      (Control.tileRun_nil (k := k) ?_ ?_ ?_ ?_) <;>
    grind

theorem partitions_sle_false (htile : 1 ≤ tileSize) :
    (Predicate.sle.control false bound).Partitions tileSize := by
  rcases lt_or_ge bound 0 with hbound | hbound
  · apply Control.partitions_of_endless
    grind
  · obtain ⟨n, rfl⟩ := Int.eq_ofNat_of_zero_le hbound
    obtain ⟨k, hk, hn⟩ := exists_tiles htile (Nat.succ_pos n)
    have hle : ∀ i < k, (i + 1) * tileSize ≤ k * tileSize := fun i hi => le_mul_of_le hi
    refine Control.partitions_of_run (Control.loopRun_range (n := 0) ?_ ?_)
      (Control.tileRun_nil (k := k) ?_ ?_ ?_ ?_) <;>
    grind

/-- Each tile but the last one also runs for the first value of the next one. -/
theorem not_partitions_sle_true (htile : 1 ≤ tileSize) {n : Nat} (hn : tileSize ≤ n) :
    ¬ (Predicate.sle.control true n).Partitions tileSize := by
  obtain ⟨k, hk, hlast⟩ := exists_tiles htile (Nat.succ_pos n)
  have hle : ∀ i < k, (i + 1) * tileSize ≤ k * tileSize := fun i hi => le_mul_of_le hi
  let control := Predicate.sle.control true n
  have hgo : ∀ i < k, control.holds (((i + 1) * tileSize : Nat) : Int) control.bound = true := by
    grind
  have hstop : control.holds (((k + 1) * tileSize : Nat) : Int) control.bound = false := by
    grind
  let count := fun i => if i < k then tileSize + 1 else n + 1 - k * tileSize
  have hrun := @Control.tileRun_of_counts Int _ control tileSize k count hgo hstop ?_
  · refine Control.not_partitions_of_ne (Control.loopRun_range (n := n + 1) ?_ ?_) hrun ?_
    · grind
    · grind
    · intro heq
      have hlength := congrArg List.length heq
      have hfront : ((List.range k).map count).sum = k * (tileSize + 1) := by
        rw [List.map_congr_left fun i hi => if_pos (List.mem_range.mp hi)]
        simp
      have hsum : ((List.range (k + 1)).map count).sum =
          k * (tileSize + 1) + (n + 1 - k * tileSize) := by
        rw [List.range_succ, List.map_append, List.sum_append, hfront]
        simp [count]
      simp only [List.length_flatMap, List.length_map, List.length_range', List.length_range,
        hsum] at hlength
      have hpos : 1 ≤ k := by
        rcases Nat.eq_zero_or_pos k with rfl | hpos
        · omega
        · exact hpos
      rw [Nat.mul_succ] at hlength
      omega
  · intro i hi
    rw [Control.loopRun_iff]
    rcases Nat.lt_or_eq_of_le hi with hi | rfl
    · rw [Control.clamp_of_go (hgo i hi), show count i = tileSize + 1 from if_pos hi]
      refine ⟨tileSize + 1, ?_, ?_, rfl⟩ <;>
      grind
    · rw [Control.clamp_of_stop hstop, show count i = n + 1 - i * tileSize from
        if_neg (lt_irrefl i)]
      refine ⟨n + 1 - i * tileSize, ?_, ?_, rfl⟩ <;>
      grind

theorem partitions_sle_true_iff (htile : 1 ≤ tileSize) :
    (Predicate.sle.control true bound).Partitions tileSize ↔ bound < tileSize := by
  constructor
  · intro hpartitions
    by_contra hge
    obtain ⟨n, rfl⟩ := Int.eq_ofNat_of_zero_le ((Int.natCast_nonneg _).trans (not_lt.mp hge))
    exact not_partitions_sle_true htile (Int.ofNat_le.mp (not_lt.mp hge)) hpartitions
  · intro hlt
    apply Control.partitions_of_one_tile
    grind

/-- A latch that asks for a value above the bound goes on for ever behind it. -/
theorem partitions_sgt_true_iff :
    (Predicate.sgt.control true bound).Partitions tileSize ↔ bound < 0 ∨ tileSize ≤ bound := by
  rcases lt_or_ge bound 0 with hbound | hbound
  · refine iff_of_true (Control.partitions_of_endless ?_) (Or.inl hbound)
    grind
  · rcases le_or_gt (tileSize : Int) bound with hle | hlt
    · refine iff_of_true (Control.partitions_of_one_tile ?_) (Or.inr hle)
      grind
    · refine iff_of_false (Control.not_partitions_of_endless
        (Control.loopRun_range (n := 0) ?_ ?_) ?_) (by omega)
      · exact fun i hi => absurd hi (Nat.not_lt_zero i)
      · grind
      · intro i
        have hle : 1 * tileSize ≤ (i + 1) * tileSize := le_mul_of_le (Nat.le_add_left 1 i)
        grind

theorem partitions_sgt_false_iff :
    (Predicate.sgt.control false bound).Partitions tileSize ↔ tileSize ≤ bound := by
  rcases le_or_gt (tileSize : Int) bound with hle | hlt
  · refine iff_of_true (Control.partitions_of_one_tile ?_) hle
    grind
  · refine iff_of_false (Control.not_partitions_of_endless
      (Control.loopRun_range (n := (bound + 1).toNat) ?_ ?_) ?_) (by omega)
    · grind
    · grind
    · intro i
      have hle : 1 * tileSize ≤ (i + 1) * tileSize := le_mul_of_le (Nat.le_add_left 1 i)
      grind

theorem partitions_sge_true_iff :
    (Predicate.sge.control true bound).Partitions tileSize ↔ bound ≤ 0 ∨ tileSize < bound := by
  rcases le_or_gt bound 0 with hbound | hbound
  · refine iff_of_true (Control.partitions_of_endless ?_) (Or.inl hbound)
    grind
  · rcases lt_or_ge (tileSize : Int) bound with hlt | hge
    · refine iff_of_true (Control.partitions_of_one_tile ?_) (Or.inr hlt)
      grind
    · refine iff_of_false (Control.not_partitions_of_endless
        (Control.loopRun_range (n := 0) ?_ ?_) ?_) (by omega)
      · exact fun i hi => absurd hi (Nat.not_lt_zero i)
      · grind
      · intro i
        have hle : 1 * tileSize ≤ (i + 1) * tileSize := le_mul_of_le (Nat.le_add_left 1 i)
        grind

theorem partitions_sge_false_iff :
    (Predicate.sge.control false bound).Partitions tileSize ↔ tileSize < bound := by
  rcases lt_or_ge (tileSize : Int) bound with hlt | hge
  · refine iff_of_true (Control.partitions_of_one_tile ?_) hlt
    grind
  · refine iff_of_false (Control.not_partitions_of_endless
      (Control.loopRun_range (n := bound.toNat) ?_ ?_) ?_) (by omega)
    · grind
    · grind
    · intro i
      have hle : 1 * tileSize ≤ (i + 1) * tileSize := le_mul_of_le (Nat.le_add_left 1 i)
      grind

/-- At a bound of one tile the second tile runs for the bound itself. -/
theorem partitions_eq_true_iff (htile : 1 ≤ tileSize) :
    (Predicate.eq.control true bound).Partitions tileSize ↔ bound ≠ tileSize := by
  by_cases heq : bound = tileSize
  · refine iff_of_false ?_ (not_not.mpr heq)
    subst heq
    let control := Predicate.eq.control true tileSize
    have hgo : ∀ i < 1, control.holds (((i + 1) * tileSize : Nat) : Int) control.bound = true := by
      grind
    have hstop : control.holds (((1 + 1) * tileSize : Nat) : Int) control.bound = false := by
      grind
    have hrun := @Control.tileRun_of_counts Int _ control tileSize 1 id hgo hstop ?_
    · refine Control.not_partitions_of_ne (Control.loopRun_range (n := 0) ?_ ?_) hrun ?_
      · grind
      · grind
      · simp [List.range_succ]
    · intro i hi
      rw [Control.loopRun_iff]
      rcases Nat.lt_or_eq_of_le hi with hi | rfl
      · rw [Control.clamp_of_go (hgo i hi)]
        refine ⟨i, ?_, ?_, rfl⟩ <;>
        grind
      · rw [Control.clamp_of_stop hstop]
        refine ⟨1, ?_, ?_, rfl⟩ <;>
        grind
  · refine iff_of_true (Control.partitions_of_one_tile ?_) heq
    grind

theorem partitions_eq_false (htile : 1 ≤ tileSize) :
    (Predicate.eq.control false bound).Partitions tileSize := by
  by_cases heq : bound = tileSize
  · subst heq
    refine Control.partitions_of_run (Control.loopRun_range (n := tileSize) ?_ ?_)
      (Control.tileRun_range (n := tileSize) (k := 1) ?_ ?_ ?_ ?_ ?_ ?_ ?_) <;>
    grind
  · apply Control.partitions_of_one_tile
    grind

/-- A bound that is the end of a tile. -/
theorem exists_last_tile (hbound : 0 < bound) (hdvd : (tileSize : Int) ∣ bound) :
    ∃ k : Nat, bound = ((k + 1) * tileSize : Nat) := by
  obtain ⟨n, rfl⟩ := Int.eq_ofNat_of_zero_le hbound.le
  obtain ⟨m, rfl⟩ := Int.natCast_dvd_natCast.mp hdvd
  cases m with
  | zero => simp at hbound
  | succ k => exact ⟨k, by rw [Nat.mul_comm]⟩

theorem mul_lt_of_lt (htile : 1 ≤ tileSize) {i k : Nat} (h : i < k) :
    i * tileSize < k * tileSize :=
  Nat.mul_lt_mul_of_pos_right h htile

/-- A latch that asks for another value than the bound goes on for ever if it steps
over it. -/
theorem ne_latch_endless (h : ¬ (0 < bound ∧ (tileSize : Int) ∣ bound)) (htile : 1 ≤ tileSize)
    (i : Nat) : (((i + 1) * tileSize : Nat) : Int) ≠ bound := by
  rintro rfl
  apply h
  constructor
  · exact_mod_cast Nat.mul_pos (Nat.succ_pos i) htile
  · exact Int.natCast_dvd_natCast.mpr (Nat.dvd_mul_left tileSize (i + 1))

theorem partitions_ne_true_iff (htile : 1 ≤ tileSize) :
    (Predicate.ne.control true bound).Partitions tileSize ↔
      bound < 0 ∨ 0 < bound ∧ (tileSize : Int) ∣ bound := by
  rcases lt_or_ge bound 0 with hbound | hbound
  · refine iff_of_true (Control.partitions_of_endless ?_) (Or.inl hbound)
    grind
  · by_cases hdvd : 0 < bound ∧ (tileSize : Int) ∣ bound
    · refine iff_of_true ?_ (Or.inr hdvd)
      obtain ⟨k, rfl⟩ := exists_last_tile hdvd.1 hdvd.2
      have hlt : ∀ i < k, (i + 1) * tileSize < (k + 1) * tileSize :=
        fun i hi => mul_lt_of_lt htile (Nat.succ_lt_succ hi)
      refine Control.partitions_of_run (Control.loopRun_range (n := (k + 1) * tileSize) ?_ ?_)
        (Control.tileRun_range (n := (k + 1) * tileSize) (k := k) (le_mul_of_le (Nat.le_succ k))
          ?_ ?_ ?_ ?_ ?_ ?_) <;>
      grind
    · refine iff_of_false (Control.not_partitions_of_endless
        (Control.loopRun_range (n := bound.toNat) ?_ ?_) ?_) (by omega)
      · grind
      · grind
      · intro i
        have hne := ne_latch_endless hdvd htile i
        grind

theorem partitions_ne_false_iff (htile : 1 ≤ tileSize) :
    (Predicate.ne.control false bound).Partitions tileSize ↔
      0 < bound ∧ (tileSize : Int) ∣ bound := by
  by_cases hdvd : 0 < bound ∧ (tileSize : Int) ∣ bound
  · refine iff_of_true ?_ hdvd
    obtain ⟨k, rfl⟩ := exists_last_tile hdvd.1 hdvd.2
    have hlt : ∀ i < k + 1, i * tileSize < (k + 1) * tileSize := fun i hi => mul_lt_of_lt htile hi
    refine Control.partitions_of_run (Control.loopRun_range (n := 0) ?_ ?_)
      (Control.tileRun_nil (k := k) ?_ ?_ ?_ ?_)
    · grind
    · grind
    · intro i hi
      have hnext := hlt (i + 1) (Nat.succ_lt_succ hi)
      grind
    · grind
    · intro i hi
      have hnext : i * tileSize < (i + 1) * tileSize := mul_lt_of_lt htile (Nat.lt_succ_self i)
      grind
    · have hlast := hlt k (Nat.lt_succ_self k)
      grind
  · have hlatch := ne_latch_endless hdvd htile
    refine iff_of_false (Control.not_partitions_of_endless (Control.loopRun_range
      (n := if bound = 0 then 1 else 0) ?_ ?_) ?_) hdvd
    · grind
    · grind
    · intro i
      have hne := hlatch i
      grind

end Cases

/-- Tiling partitions the iterations of a loop for these bounds and no others. -/
theorem partitions_iff (pred : Predicate) (polarity : Bool) (bound : Int) (tileSize : Nat)
    (htile : 1 ≤ tileSize) : (pred.control polarity bound).Partitions tileSize ↔
      PartitionsWhen tileSize bound pred polarity := by
  cases pred with
  | eq =>
      cases polarity with
      | false => exact iff_of_true (partitions_eq_false htile) trivial
      | true => exact partitions_eq_true_iff htile
  | ne =>
      cases polarity with
      | false => exact partitions_ne_false_iff htile
      | true => exact partitions_ne_true_iff htile
  | slt | ult =>
      cases polarity with
      | false => exact iff_of_true (partitions_slt_false htile) trivial
      | true => exact iff_of_true (partitions_slt_true htile) trivial
  | sle | ule =>
      cases polarity with
      | false => exact iff_of_true (partitions_sle_false htile) trivial
      | true => exact partitions_sle_true_iff htile
  | sgt | ugt =>
      cases polarity with
      | false => exact partitions_sgt_false_iff
      | true => exact partitions_sgt_true_iff
  | sge | uge =>
      cases polarity with
      | false => exact partitions_sge_false_iff
      | true => exact partitions_sge_true_iff

/-- The loop `i <= 2` in tiles of two. -/
theorem partitions_sle_two : ¬ (Predicate.sle.control true 2).Partitions 2 := by
  rw [partitions_iff .sle true 2 2 (by decide)]
  exact lt_irrefl (2 : Int)

theorem not_forall_partitions : ¬ ∀ (pred : Predicate) (polarity : Bool) (bound : Int)
    (tileSize : Nat), 1 ≤ tileSize → (pred.control polarity bound).Partitions tileSize := by
  intro hall
  exact @not_partitions_sle_true 2 (by decide) 2 (by decide)
    (hall .sle true 2 2 (by decide))

end PolyhedralPass
