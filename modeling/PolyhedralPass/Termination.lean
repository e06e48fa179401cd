/-
Whether tile loops terminate: which values the induction variable of a tile loop
takes, and when its latch leaves at one of them.
-/
import PolyhedralPass.Wrapping
import Mathlib.Data.Int.GCD
import Mathlib.Data.Nat.Prime.Pow

namespace PolyhedralPass

open Flow

/-- A tile loop leaves at some value of its induction variable. -/
def TileLoopLeaves {w : Nat} (pred : Predicate) (tileSize : BitVec 32) (bound : BitVec w) : Prop :=
  Leaves (fun iv => pred.eval iv bound = true) (· + (tileSize.toNat : BitVec w)) 0

/-- The distance between the values the induction variable takes, once round the type. -/
def tileStride (w : Nat) (tileSize : BitVec 32) : Nat := Nat.gcd tileSize.toNat (2 ^ w)

/-- A number the induction variable takes. -/
def IsTile (w : Nat) (tileSize : BitVec 32) (m : Nat) : Prop :=
  m < 2 ^ w ∧ tileStride w tileSize ∣ m

/-- The largest and the smallest of these values, read as signed numbers. -/
def lastTile (w : Nat) (tileSize : BitVec 32) : Int :=
  if 2 ^ w ∣ tileSize.toNat then 0 else 2 ^ (w - 1) - (tileStride w tileSize : Int)

def firstTile (w : Nat) (tileSize : BitVec 32) : Int :=
  if 2 ^ w ∣ tileSize.toNat then 0 else -2 ^ (w - 1)

/-- The bounds at which the latch leaves. -/
def LeavesWhen {w : Nat} (tileSize : BitVec 32) (bound : BitVec w) : Predicate → Prop
  | .eq => ¬ 2 ^ w ∣ tileSize.toNat ∨ bound ≠ 0
  | .ne => tileStride w tileSize ∣ bound.toNat
  | .ugt => True
  | .uge => 0 < bound.toNat
  | .ult => bound.toNat + tileStride w tileSize ≤ 2 ^ w
  | .ule => bound.toNat + tileStride w tileSize < 2 ^ w
  | .sgt => firstTile w tileSize ≤ bound.toInt
  | .sge => firstTile w tileSize < bound.toInt
  | .slt => bound.toInt ≤ lastTile w tileSize
  | .sle => bound.toInt < lastTile w tileSize

section Multiples

variable {w : Nat} {tileSize : BitVec 32} {bound : BitVec w} {pred : Predicate}

theorem tileStride_dvd : tileStride w tileSize ∣ 2 ^ w := Nat.gcd_dvd_right _ _

theorem tileStride_pos : 0 < tileStride w tileSize :=
  Nat.pos_of_dvd_of_pos tileStride_dvd (Nat.two_pow_pos w)

/-- Every multiple of the greatest common divisor is one of the factor. -/
theorem exists_mul_mod_eq {n k m : Nat} (hk : 0 < k) (hm : Nat.gcd n k ∣ m) :
    ∃ i, (i + 1) * n % k = m % k := by
  have hstart : ∃ i, i * n % k = m % k := by
    rcases Nat.lt_or_eq_of_le (Nat.gcd_le_right n hk) with hlt | heq
    · obtain ⟨q, rfl⟩ := hm
      obtain ⟨i, _, hi⟩ := Nat.exists_mul_mod_eq_gcd hlt
      have hgcd : n * i ≡ Nat.gcd n k [MOD k] := by
        rw [Nat.ModEq, hi, Nat.mod_eq_of_lt hlt]
      have hmul : n * i * q ≡ Nat.gcd n k * q [MOD k] := hgcd.mul_right q
      refine ⟨i * q, ?_⟩
      rwa [Nat.ModEq, Nat.mul_assoc, Nat.mul_comm n] at hmul
    · refine ⟨0, ?_⟩
      rw [heq] at hm
      rw [Nat.zero_mul, Nat.zero_mod, Nat.mod_eq_zero_of_dvd hm]
  obtain ⟨i, hi⟩ := hstart
  refine ⟨i + (k - 1), ?_⟩
  rw [Nat.add_assoc, Nat.sub_add_cancel hk, Nat.add_mul, Nat.add_mul_mod_self_left, hi]

/-- The induction variable takes the multiples of the stride. -/
theorem tileLoopLeaves_iff_multiple : TileLoopLeaves pred tileSize bound ↔
    ∃ m, IsTile w tileSize m ∧ pred.eval (m : BitVec w) bound = false := by
  have hiterate : ∀ n, (· + (tileSize.toNat : BitVec w))^[n] 0 =
      ((n * tileSize.toNat : Nat) : BitVec w) := iterate_add_tileSize
  simp only [TileLoopLeaves, Leaves, hiterate, Bool.not_eq_true]
  have hmod : ∀ x : Nat, ((x % 2 ^ w : Nat) : BitVec w) = (x : BitVec w) := by
    intro x
    apply BitVec.eq_of_toNat_eq
    rw [toNat_natCast, toNat_natCast, Nat.mod_mod]
  constructor
  · rintro ⟨n, hn⟩
    refine ⟨(n + 1) * tileSize.toNat % 2 ^ w, ⟨Nat.mod_lt _ (Nat.two_pow_pos w), ?_⟩, ?_⟩
    · exact (Nat.dvd_mod_iff tileStride_dvd).mpr
        (Dvd.dvd.mul_left (Nat.gcd_dvd_left _ _) (n + 1))
    · rwa [hmod]
  · rintro ⟨m, ⟨hm, hdvd⟩, hleave⟩
    obtain ⟨n, hn⟩ := exists_mul_mod_eq (Nat.two_pow_pos w) hdvd
    refine ⟨n, ?_⟩
    rwa [← hmod, hn, Nat.mod_eq_of_lt hm]

theorem isTile_zero : IsTile w tileSize 0 := ⟨Nat.two_pow_pos w, Nat.dvd_zero _⟩

theorem tileStride_of_dvd (h : 2 ^ w ∣ tileSize.toNat) : tileStride w tileSize = 2 ^ w :=
  Nat.gcd_eq_right h

theorem IsTile.eq_zero (h : 2 ^ w ∣ tileSize.toNat) {m : Nat} (hm : IsTile w tileSize m) :
    m = 0 := by
  obtain ⟨hlt, hdvd⟩ := hm
  rw [tileStride_of_dvd h] at hdvd
  exact Nat.eq_zero_of_dvd_of_lt hdvd hlt

/-- A tile size that is not zero in the type takes the half of the type as well. -/
theorem tileStride_dvd_half (h : ¬ 2 ^ w ∣ tileSize.toNat) :
    0 < w ∧ tileStride w tileSize ∣ 2 ^ (w - 1) := by
  obtain ⟨j, hj, hstride⟩ := (Nat.dvd_prime_pow Nat.prime_two).mp (@tileStride_dvd w tileSize)
  rcases Nat.lt_or_eq_of_le hj with hlt | rfl
  · refine ⟨Nat.zero_lt_of_lt hlt, ?_⟩
    rw [hstride]
    exact Nat.pow_dvd_pow 2 (Nat.le_sub_one_of_lt hlt)
  · exact absurd (hstride ▸ Nat.gcd_dvd_left _ _) h

theorem IsTile.add_le {m : Nat} (hm : IsTile w tileSize m) : m + tileStride w tileSize ≤ 2 ^ w := by
  have hdvd : tileStride w tileSize ∣ 2 ^ w - m := Nat.dvd_sub tileStride_dvd hm.2
  have hle := Nat.le_of_dvd (Nat.sub_pos_of_lt hm.1) hdvd
  have hlt := hm.1
  omega

theorem isTile_last : IsTile w tileSize (2 ^ w - tileStride w tileSize) :=
  ⟨Nat.sub_lt (Nat.two_pow_pos w) tileStride_pos, Nat.dvd_sub tileStride_dvd (Nat.dvd_refl _)⟩

theorem toInt_zero_cast : ((0 : Nat) : BitVec w).toInt = 0 := by
  rw [Nat.cast_zero]
  exact BitVec.toInt_zero

/-- The signed values of the induction variable end at the last tile. -/
theorem IsTile.toInt_le {m : Nat} (hm : IsTile w tileSize m) :
    (m : BitVec w).toInt ≤ lastTile w tileSize := by
  rw [lastTile]
  split_ifs with h
  · obtain rfl := hm.eq_zero h
    exact toInt_zero_cast.le
  · obtain ⟨hw, hdvd⟩ := tileStride_dvd_half h
    have hle := Nat.le_of_dvd (Nat.two_pow_pos (w - 1)) hdvd
    have hlt := hm.1
    have hpow := two_pow_eq hw
    have hcast : ((2 ^ (w - 1) : Nat) : Int) = 2 ^ (w - 1) := by push_cast; rfl
    rcases Nat.lt_or_ge m (2 ^ (w - 1)) with hsmall | hlarge
    · have hrest := Nat.le_of_dvd (Nat.sub_pos_of_lt hsmall) (Nat.dvd_sub hdvd hm.2)
      rw [toInt_natCast_of_lt hw hsmall, ← hcast]
      omega
    · rw [toInt_natCast_of_ge hw hlarge (by omega), ← hcast]
      omega

theorem exists_lastTile :
    ∃ m, IsTile w tileSize m ∧ (m : BitVec w).toInt = lastTile w tileSize := by
  rw [lastTile]
  split_ifs with h
  · exact ⟨0, isTile_zero, toInt_zero_cast⟩
  · obtain ⟨hw, hdvd⟩ := tileStride_dvd_half h
    have hle := Nat.le_of_dvd (Nat.two_pow_pos (w - 1)) hdvd
    have hpos := @tileStride_pos w tileSize
    have hpow := two_pow_eq hw
    have hcast : ((2 ^ (w - 1) : Nat) : Int) = 2 ^ (w - 1) := by push_cast; rfl
    refine ⟨2 ^ (w - 1) - tileStride w tileSize, ⟨by omega, Nat.dvd_sub hdvd (Nat.dvd_refl _)⟩, ?_⟩
    rw [toInt_natCast_of_lt hw (by omega), ← hcast]
    omega

theorem IsTile.le_toInt {m : Nat} (hm : IsTile w tileSize m) :
    firstTile w tileSize ≤ (m : BitVec w).toInt := by
  rw [firstTile]
  split_ifs with h
  · obtain rfl := hm.eq_zero h
    exact toInt_zero_cast.ge
  · obtain ⟨hw, _⟩ := tileStride_dvd_half h
    have hlt := hm.1
    have hpow := two_pow_eq hw
    have hcast : ((2 ^ (w - 1) : Nat) : Int) = 2 ^ (w - 1) := by push_cast; rfl
    rcases Nat.lt_or_ge m (2 ^ (w - 1)) with hsmall | hlarge
    · rw [toInt_natCast_of_lt hw hsmall, ← hcast]
      omega
    · rw [toInt_natCast_of_ge hw hlarge (by omega), ← hcast]
      omega

theorem exists_firstTile :
    ∃ m, IsTile w tileSize m ∧ (m : BitVec w).toInt = firstTile w tileSize := by
  rw [firstTile]
  split_ifs with h
  · exact ⟨0, isTile_zero, toInt_zero_cast⟩
  · obtain ⟨hw, hdvd⟩ := tileStride_dvd_half h
    have hpos := Nat.two_pow_pos (w - 1)
    have hpow := two_pow_eq hw
    have hcast : ((2 ^ (w - 1) : Nat) : Int) = 2 ^ (w - 1) := by push_cast; rfl
    refine ⟨2 ^ (w - 1), ⟨by omega, hdvd⟩, ?_⟩
    rw [toInt_natCast_of_ge hw (Nat.le_refl _) (by omega), ← hcast]
    omega

theorem toNat_tile {m : Nat} (hm : IsTile w tileSize m) : (m : BitVec w).toNat = m := by
  rw [toNat_natCast, Nat.mod_eq_of_lt hm.1]

theorem exists_ne_tile (bound : BitVec w) :
    (∃ m, IsTile w tileSize m ∧ (m : BitVec w) ≠ bound) ↔
      ¬ 2 ^ w ∣ tileSize.toNat ∨ bound ≠ 0 := by
  constructor
  · rintro ⟨m, hm, hne⟩
    by_cases h : 2 ^ w ∣ tileSize.toNat
    · obtain rfl := hm.eq_zero h
      rw [Nat.cast_zero] at hne
      exact Or.inr hne.symm
    · exact Or.inl h
  · rintro (h | h)
    · by_cases hzero : bound = 0
      · obtain ⟨hw, hdvd⟩ := tileStride_dvd_half h
        have hle := Nat.le_of_dvd (Nat.two_pow_pos (w - 1)) hdvd
        have hpos := @tileStride_pos w tileSize
        have hpow := two_pow_eq hw
        have htile : IsTile w tileSize (tileStride w tileSize) := ⟨by omega, Nat.dvd_refl _⟩
        refine ⟨_, htile, ?_⟩
        rintro rfl
        have hnat := toNat_tile htile
        rw [hzero, BitVec.ofNat_eq_ofNat, BitVec.toNat_zero] at hnat
        omega
      · exact ⟨0, isTile_zero, by rw [Nat.cast_zero]; exact fun heq => hzero heq.symm⟩
    · exact ⟨0, isTile_zero, by rw [Nat.cast_zero]; exact h.symm⟩

theorem exists_le_tile (n : Nat) :
    (∃ m, IsTile w tileSize m ∧ n ≤ m) ↔ n + tileStride w tileSize ≤ 2 ^ w := by
  constructor
  · rintro ⟨m, hm, hle⟩
    exact (Nat.add_le_add_right hle _).trans hm.add_le
  · intro hle
    exact ⟨_, isTile_last, Nat.le_sub_of_add_le hle⟩

theorem exists_le_toInt (n : Int) :
    (∃ m, IsTile w tileSize m ∧ n ≤ (m : BitVec w).toInt) ↔ n ≤ lastTile w tileSize := by
  constructor
  · rintro ⟨m, hm, hle⟩
    exact hle.trans hm.toInt_le
  · intro hle
    obtain ⟨m, hm, hlast⟩ := @exists_lastTile w tileSize
    exact ⟨m, hm, hlast ▸ hle⟩

theorem exists_toInt_le (n : Int) :
    (∃ m, IsTile w tileSize m ∧ (m : BitVec w).toInt ≤ n) ↔ firstTile w tileSize ≤ n := by
  constructor
  · rintro ⟨m, hm, hle⟩
    exact hm.le_toInt.trans hle
  · intro hle
    obtain ⟨m, hm, hfirst⟩ := @exists_firstTile w tileSize
    exact ⟨m, hm, hfirst ▸ hle⟩

/-- A tile loop leaves for these bounds and no others. -/
theorem tileLoopLeaves_iff :
    TileLoopLeaves pred tileSize bound ↔ LeavesWhen tileSize bound pred := by
  rw [tileLoopLeaves_iff_multiple]
  cases pred with
  | eq =>
      simp only [Predicate.eval, LeavesWhen, beq_eq_false_iff_ne]
      exact exists_ne_tile bound
  | ne =>
      simp only [Predicate.eval, LeavesWhen, bne_eq_false_iff_eq]
      constructor
      · rintro ⟨m, hm, rfl⟩
        rw [toNat_tile hm]
        exact hm.2
      · intro hdvd
        refine ⟨bound.toNat, ⟨bound.isLt, hdvd⟩, ?_⟩
        rw [BitVec.natCast_eq_ofNat, BitVec.ofNat_toNat, BitVec.setWidth_eq]
  | ult =>
      simp only [Predicate.eval, LeavesWhen, BitVec.ult_eq_decide, decide_eq_false_iff_not, not_lt]
      rw [← exists_le_tile bound.toNat]
      exact exists_congr fun m => and_congr_right fun hm => by rw [toNat_tile hm]
  | ule =>
      simp only [Predicate.eval, LeavesWhen, BitVec.ule_eq_decide, decide_eq_false_iff_not, not_le]
      rw [Nat.lt_iff_add_one_le, Nat.add_right_comm, ← exists_le_tile (bound.toNat + 1)]
      exact exists_congr fun m => and_congr_right fun hm => by rw [toNat_tile hm,
        Nat.add_one_le_iff]
  | ugt =>
      simp only [Predicate.eval, LeavesWhen, BitVec.ult_eq_decide, decide_eq_false_iff_not, not_lt,
        iff_true]
      refine ⟨0, isTile_zero, ?_⟩
      rw [toNat_tile (@isTile_zero w tileSize)]
      exact Nat.zero_le _
  | uge =>
      simp only [Predicate.eval, LeavesWhen, BitVec.ule_eq_decide, decide_eq_false_iff_not, not_le]
      constructor
      · rintro ⟨m, _, hlt⟩
        exact Nat.zero_lt_of_lt hlt
      · intro hpos
        refine ⟨0, isTile_zero, ?_⟩
        rwa [toNat_tile (@isTile_zero w tileSize)]
  | slt =>
      simp only [Predicate.eval, LeavesWhen, BitVec.slt_eq_decide, decide_eq_false_iff_not, not_lt]
      exact exists_le_toInt bound.toInt
  | sle =>
      simp only [Predicate.eval, LeavesWhen, BitVec.sle_eq_decide, decide_eq_false_iff_not, not_le]
      exact exists_le_toInt (bound.toInt + 1)
  | sgt =>
      simp only [Predicate.eval, LeavesWhen, BitVec.slt_eq_decide, decide_eq_false_iff_not, not_lt]
      exact exists_toInt_le bound.toInt
  | sge =>
      simp only [Predicate.eval, LeavesWhen, BitVec.sle_eq_decide, decide_eq_false_iff_not, not_le]
      have hiff := @exists_toInt_le w tileSize (bound.toInt - 1)
      simp only [Int.le_sub_one_iff] at hiff
      exact hiff

end Multiples

section Nest

variable (options : Options) (nest : LoopNestDescriptor) (editor : Editor) (value : Value → Nat)

/-- The width all tile loops of a nest count in, that of the outermost loop. -/
def tileWidth : Nat :=
  match nest.loops.head? with
  | none => 0
  | some outermost => (editor.function.type outermost.induction).width

/-- The tile loop of each loop leaves, or there is none; the bounds have the given bits. -/
def TilingTerminates : Prop :=
  applyPolyhedralTiling options nest editor = .ok (false, editor) ∨
    ∀ loop ∈ nest.loops, TileLoopLeaves loop.predicate options.tileSize
      (BitVec.ofNat (tileWidth nest editor) (value loop.boundValue))

/-- Tiling gives up on a nest. -/
def LeftUntiled : Prop :=
  options.enableBlocking = false ∨ nest.depth < 2 ∨ ∃ outermost, nest.loops.head? = some outermost ∧
    (outermost.loopNode.loopPreheader editor.function = none ∨
      outermost.loopNode.exitBlock editor.function = none)

variable {options nest editor}

theorem applyPolyhedralTiling_eq_false_iff :
    applyPolyhedralTiling options nest editor = .ok (false, editor) ↔
      LeftUntiled options nest editor := by
  cases hloops : nest.loops with
  | nil => simp [applyPolyhedralTiling, LeftUntiled, LoopNestDescriptor.depth, hloops]
  | cons outermost rest =>
      by_cases hgiven : options.enableBlocking = false ∨ nest.depth < 2
      · refine iff_of_true ?_ (hgiven.imp_right Or.inl)
        have hstop : (!options.enableBlocking || decide (nest.depth < 2)) = true := by
          simpa using hgiven
        simp only [applyPolyhedralTiling, hloops, hstop, if_true]
      · obtain ⟨hblocking, hdepth⟩ := not_or.mp hgiven
        have hblocking : options.enableBlocking = true := Bool.eq_true_of_not_eq_false hblocking
        simp only [LeftUntiled, hblocking, hdepth, hloops, List.head?_cons, Option.some.injEq,
          Bool.true_eq_false, false_or, exists_eq_left']
        cases hpreheader : outermost.loopNode.loopPreheader editor.function with
        | none => simp [applyPolyhedralTiling, hloops, hpreheader]
        | some preheader =>
            cases hexit : outermost.loopNode.exitBlock editor.function with
            | none => simp [applyPolyhedralTiling, hloops, hpreheader, hexit]
            | some exit =>
                rw [applyPolyhedralTiling_fault hblocking hloops (not_lt.mp hdepth) hpreheader
                  hexit]
                simp

/-- Tiling terminates for these nests, options and bounds and no others. -/
theorem tilingTerminates_iff (options : Options) (nest : LoopNestDescriptor) (editor : Editor)
    (value : Value → Nat) : TilingTerminates options nest editor value ↔
      LeftUntiled options nest editor ∨ ∀ loop ∈ nest.loops, LeavesWhen options.tileSize
        (BitVec.ofNat (tileWidth nest editor) (value loop.boundValue)) loop.predicate := by
  simp only [TilingTerminates, applyPolyhedralTiling_eq_false_iff, tileLoopLeaves_iff]

/-- Tile loops of size zero. -/
theorem not_leavesWhen_zero : ¬ LeavesWhen 0 (8 : BitVec 32) .slt := by
  intro h
  have hle : (8 : BitVec 32).toInt ≤ lastTile 32 0 := h
  exact absurd hle (by decide)

theorem not_leftUntiled_example (options : Options) (hblocking : options.enableBlocking = true) :
    ¬ LeftUntiled options (exampleLoops []) (.ofFunction (Payload.function {} .slt) 40) := by
  rintro (h | h | ⟨outermost, hhead, h⟩)
  · rw [hblocking] at h
    exact absurd h (by decide)
  · exact absurd h (by decide)
  · obtain rfl := Option.some.inj hhead
    rcases h with h | h
    · exact absurd h (by decide)
    · exact absurd h (by decide)

/-- The loops of the example leave, their tile loops of size zero do not. -/
theorem not_forall_tilingTerminates : ¬ ∀ (F : Function) (SE : ScalarEvolution) (root : Loop)
    (nest : LoopNestDescriptor) (options : Options) (editor : Editor) (value : Value → Nat),
    editor.function = F → analyzeLoopNest F SE root = some nest → isRectangularNest nest = true →
    (∀ loop ∈ nest.loops, ∀ polarity, ∃ n : Nat, loop.predicate.eval
      (n : BitVec (F.type loop.induction).width) (BitVec.ofNat _ (value loop.boundValue)) ≠
        polarity) →
    TilingTerminates options nest editor value := by
  intro hall
  have hleave : ∀ polarity, ∃ n : Nat,
      Predicate.slt.eval (n : BitVec 32) (BitVec.ofNat 32 8) ≠ polarity := by
    intro polarity
    cases polarity with
    | false => exact ⟨0, by decide⟩
    | true => exact ⟨8, by decide⟩
  have hterminates := hall (Payload.function {} .slt) exampleEvolution exampleOuter
    (exampleLoops []) { tileSize := 0 } (.ofFunction (Payload.function {} .slt) 40) (fun _ => 8) rfl
    rfl rfl ?_
  · rcases hterminates with huntiled | hleaves
    · exact not_leftUntiled_example _ rfl (applyPolyhedralTiling_eq_false_iff.mp huntiled)
    · exact not_leavesWhen_zero
        (tileLoopLeaves_iff.mp (hleaves (exampleDescriptor .slt) List.mem_cons_self))
  · intro loop hloop
    rcases List.mem_pair.mp hloop with rfl | rfl
    · exact hleave
    · exact hleave

end Nest

end PolyhedralPass
