/-
Affine functions of integer variables: which values they take, and when one of
them is zero wherever another has a given value.
-/
import Mathlib.LinearAlgebra.Finsupp.LinearCombination
import Mathlib.RingTheory.PrincipalIdealDomain
import Mathlib.Algebra.GCDMonoid.Finset
import Mathlib.Algebra.GCDMonoid.Nat
import Mathlib.RingTheory.Int.Basic

/-- An affine function of integer variables: a constant and the coefficients. -/
abbrev LinearForm (ι : Type) := ℤ × (ι →₀ ℤ)

namespace LinearForm

variable {ι κ : Type}

/-- The value of an affine function, which is linear in the function. -/
noncomputable def eval (m : ι → ℤ) : LinearForm ι →ₗ[ℤ] ℤ :=
  LinearMap.coprod LinearMap.id (Finsupp.linearCombination ℤ m)

theorem eval_apply (m : ι → ℤ) (f : LinearForm ι) :
    eval m f = f.1 + Finsupp.linearCombination ℤ m f.2 := rfl

theorem eval_eq_sum (m : ι → ℤ) (f : LinearForm ι) :
    eval m f = f.1 + ∑ i ∈ f.2.support, f.2 i * m i := by
  rw [eval_apply, Finsupp.linearCombination_apply, Finsupp.sum]
  simp only [smul_eq_mul]

/-- The affine function that always has the same value. -/
def const (c : ℤ) : LinearForm ι := (c, 0)

@[simp] theorem eval_const (m : ι → ℤ) (c : ℤ) : eval m (const c) = c := by
  simp [eval_apply, const]

/-- One variable, as an affine function. -/
noncomputable def var (i : ι) : LinearForm ι := (0, Finsupp.single i 1)

@[simp] theorem eval_var (m : ι → ℤ) (i : ι) : eval m (var i) = m i := by
  simp [eval_apply, var]

/-- The same function of other variables. -/
noncomputable def rename (r : ι → κ) (f : LinearForm ι) : LinearForm κ :=
  (f.1, f.2.mapDomain r)

@[simp] theorem eval_rename (m : κ → ℤ) (r : ι → κ) (f : LinearForm ι) :
    eval m (f.rename r) = eval (m ∘ r) f := by
  rw [eval_apply, eval_apply, rename, Finsupp.linearCombination_mapDomain]

theorem map_eval_rename (m : κ → ℤ) (r : ι → κ) (fs : List (LinearForm ι)) :
    (fs.map (rename r)).map (eval m) = fs.map (eval (m ∘ r)) := by
  simp only [List.map_map, Function.comp_def, eval_rename]

/-- The greatest common divisor of the coefficients. -/
def content (f : LinearForm ι) : ℤ := f.2.support.gcd f.2

/-- The values are those that differ from the constant by a multiple of the content. -/
theorem exists_eval_eq_iff (f : LinearForm ι) (value : ℤ) :
    (∃ m, eval m f = value) ↔ f.content ∣ value - f.1 := by
  constructor
  · rintro ⟨m, rfl⟩
    rw [eval_eq_sum, add_sub_cancel_left]
    exact Finset.dvd_sum fun i hi => dvd_mul_of_dvd_left (Finset.gcd_dvd hi) (m i)
  · rintro ⟨k, hk⟩
    obtain ⟨m, hm⟩ := Finset.gcd_eq_sum_mul f.2.support f.2
    refine ⟨fun i => m i * k, ?_⟩
    have hsum : ∑ i ∈ f.2.support, f.2 i * (m i * k) = f.content * k := by
      rw [content, hm, Finset.sum_mul]
      exact Finset.sum_congr rfl fun i _ => (mul_assoc _ _ _).symm
    rw [eval_eq_sum, hsum, ← hk, add_sub_cancel]

/-- One affine function is a rational multiple of another. -/
def IsMultiple (g f : LinearForm ι) : Prop :=
  ∃ k n : ℤ, k ≠ 0 ∧ k • g = n • f

theorem ext_of_eval {f g : LinearForm ι} (h : ∀ m, eval m f = eval m g) : f = g := by
  classical
  have hconst := h 0
  simp only [eval_apply, Finsupp.linearCombination_zero_apply, add_zero] at hconst
  refine Prod.ext hconst (Finsupp.ext fun i => ?_)
  have hi := h (Pi.single i 1)
  simp only [eval_apply, Finsupp.linearCombination_single_index, smul_eq_mul, mul_one,
    hconst] at hi
  exact add_left_cancel hi

theorem eval_move [DecidableEq ι] (m : ι → ℤ) (a b : ℤ) (i j : ι) (f : LinearForm ι) :
    eval (m + (a • Pi.single j 1 - b • Pi.single i 1)) f =
      eval m f + (a * f.2 j - b * f.2 i) := by
  have hlinear : ∀ v : ι → ℤ, Finsupp.linearCombination ℤ v f.2 =
      Finsupp.bilinearCombination ℤ ℤ v f.2 := fun _ => rfl
  rw [eval_apply, eval_apply, hlinear, map_add, map_sub, map_smul, map_smul,
    LinearMap.add_apply, LinearMap.sub_apply, LinearMap.smul_apply, LinearMap.smul_apply,
    ← hlinear, ← hlinear, ← hlinear, Finsupp.linearCombination_single_index,
    Finsupp.linearCombination_single_index]
  simp only [smul_eq_mul, mul_one, add_assoc]

theorem isMultiple_of_eval {f g : LinearForm ι} {k n : ℤ} (hk : k ≠ 0)
    (h : ∀ m, k * eval m g = n * eval m f) : g.IsMultiple f := by
  refine ⟨k, n, hk, ext_of_eval fun m => ?_⟩
  simpa only [map_smul, smul_eq_mul] using h m

/-- Where `f` is zero somewhere, `g` is zero in all these places only as a multiple
of `f`. -/
theorem vanishes_iff {f g : LinearForm ι} (hf : ∃ m, eval m f = 0) :
    (∀ m, eval m f = 0 → eval m g = 0) ↔ g.IsMultiple f := by
  classical
  obtain ⟨m, hm⟩ := hf
  constructor
  · intro h
    by_cases hzero : f.2 = 0
    · -- a constant that is zero somewhere is zero, and `g` is zero everywhere
      have hevery : ∀ m', eval m' g = 0 := by
        intro m'
        refine h m' ?_
        simpa [eval_apply, hzero] using hm
      refine isMultiple_of_eval one_ne_zero (n := 0) fun m' => ?_
      rw [hevery m', mul_zero, zero_mul]
    · obtain ⟨i, hi⟩ := Finsupp.ne_iff.mp hzero
      refine ⟨f.2 i, g.2 i, hi, ?_⟩
      -- moving along `f i • e j - f j • e i` keeps `f` at zero
      have hcoeff : ∀ j, f.2 i * g.2 j = g.2 i * f.2 j := by
        intro j
        let move : ι → ℤ := f.2 i • Pi.single j 1 - f.2 j • Pi.single i 1
        have hkeep : eval (m + move) f = 0 := by
          rw [eval_move, hm, mul_comm, sub_self, add_zero]
        have hg := h _ hkeep
        rw [eval_move, h m hm, zero_add, mul_comm (f.2 j)] at hg
        exact sub_eq_zero.mp hg
      have hconst : f.2 i * g.1 = g.2 i * f.1 := by
        have hcombine : f.2 i • g.2 = g.2 i • f.2 := Finsupp.ext hcoeff
        have hm' := h m hm
        rw [eval_apply] at hm hm'
        have hg := congrArg (f.2 i * ·) hm'
        have hf := congrArg (g.2 i * ·) hm
        have hsame := congrArg (Finsupp.linearCombination ℤ m) hcombine
        simp only [map_smul, smul_eq_mul] at hsame
        simp only [mul_add, mul_zero, hsame] at hg hf
        exact add_right_cancel (hg.trans hf.symm)
      exact Prod.ext hconst (Finsupp.ext hcoeff)
  · rintro ⟨k, n, hk, heq⟩ m' hm'
    have heval : k * eval m' g = n * eval m' f := by
      simpa only [map_smul, smul_eq_mul] using congrArg (eval m') heq
    rw [hm', mul_zero] at heval
    exact (mul_eq_zero.mp heval).resolve_left hk

theorem exists_eval_sub_const {f : LinearForm ι} {value : ℤ} :
    (∃ m, eval m (f - const value) = 0) ↔ f.content ∣ value - f.1 := by
  rw [← exists_eval_eq_iff]
  simp only [map_sub, eval_const, sub_eq_zero]

/-- Two lists of affine functions have the same values wherever `f` has a given one,
which it has somewhere. -/
theorem map_eval_eq_iff {f : LinearForm ι} {value : ℤ} (hf : f.content ∣ value - f.1)
    (gs hs : List (LinearForm ι)) :
    (∀ m, eval m f = value → gs.map (eval m) = hs.map (eval m)) ↔
      List.Forall₂ (fun g h => (g - h).IsMultiple (f - const value)) gs hs := by
  obtain ⟨m₀, hm₀⟩ := (exists_eval_eq_iff f value).mpr hf
  induction gs generalizing hs with
  | nil =>
      cases hs with
      | nil => simp
      | cons h hs => simpa using ⟨m₀, hm₀⟩
  | cons g gs ih =>
      cases hs with
      | nil => simpa using ⟨m₀, hm₀⟩
      | cons h hs =>
          rw [List.forall₂_cons, ← ih, ← vanishes_iff (exists_eval_sub_const.mpr hf), ← forall_and]
          refine forall_congr' fun m => ?_
          simp only [List.map_cons, List.cons.injEq, map_sub, eval_const, sub_eq_zero]
          exact imp_and

section Residues

/-- The constant and the coefficients as their residues around zero. -/
noncomputable def bmod (n : ℕ) (f : LinearForm ι) : LinearForm ι :=
  (f.1.bmod n, f.2.mapRange (·.bmod n) Int.zero_bmod)

theorem support_bmod_subset (n : ℕ) (f : LinearForm ι) : (f.bmod n).2.support ⊆ f.2.support := by
  intro i hi
  rw [Finsupp.mem_support_iff] at hi ⊢
  intro hzero
  exact hi (by rw [bmod, Finsupp.mapRange_apply, hzero, Int.zero_bmod])

theorem bmod_const (n : ℕ) (c : ℤ) : (const c : LinearForm ι).bmod n = const (c.bmod n) :=
  Prod.ext rfl (Finsupp.ext fun _ => Int.zero_bmod)

theorem bmod_zero (n : ℕ) : (0 : LinearForm ι).bmod n = 0 :=
  Prod.ext Int.zero_bmod (Finsupp.ext fun _ => Int.zero_bmod)

theorem bmod_var {n : ℕ} (hn : 2 < n) (i : ι) : (var i).bmod n = var i := by
  have hone : (1 : ℤ).bmod n = 1 := Int.bmod_eq_of_le_mul_two (by omega) (by omega)
  refine Prod.ext Int.zero_bmod ?_
  rw [bmod, var, Finsupp.mapRange_single, hone]

theorem bmod_add_bmod (n : ℕ) (f g : LinearForm ι) : (f.bmod n + g).bmod n = (f + g).bmod n :=
  Prod.ext Int.bmod_add_bmod (Finsupp.ext fun _ => Int.bmod_add_bmod)

theorem add_bmod_bmod (n : ℕ) (f g : LinearForm ι) : (f + g.bmod n).bmod n = (f + g).bmod n := by
  rw [add_comm, bmod_add_bmod, add_comm]

theorem bmod_smul_bmod (n : ℕ) (c : ℤ) (f : LinearForm ι) :
    (c.bmod n • f).bmod n = (c • f).bmod n :=
  Prod.ext Int.bmod_mul_bmod (Finsupp.ext fun _ => Int.bmod_mul_bmod)

theorem smul_bmod_bmod (n : ℕ) (c : ℤ) (f : LinearForm ι) :
    (c • f.bmod n).bmod n = (c • f).bmod n :=
  Prod.ext Int.mul_bmod_bmod (Finsupp.ext fun _ => Int.mul_bmod_bmod)

/-- A modulus that divides the first one takes no notice of the residues. -/
theorem dvd_eval_sub_bmod {k n : ℕ} (hdvd : k ∣ n) (m : ι → ℤ) (f : LinearForm ι) :
    (k : ℤ) ∣ eval m (f - f.bmod n) := by
  rw [eval_eq_sum]
  have hresidue : ∀ c : ℤ, (k : ℤ) ∣ c - c.bmod n := fun c =>
    (Int.natCast_dvd_natCast.mpr hdvd).trans Int.dvd_self_sub_bmod
  refine dvd_add (hresidue f.1) (Finset.dvd_sum fun i _ => dvd_mul_of_dvd_left ?_ (m i))
  exact hresidue (f.2 i)

end Residues

section Box

-- Each variable stays between two bounds.
variable (lo hi : ι → ℤ)

/-- The largest value of an affine function on a box. -/
noncomputable def sup (f : LinearForm ι) : ℤ :=
  f.1 + ∑ i ∈ f.2.support, max (f.2 i * lo i) (f.2 i * hi i)

/-- The smallest value of an affine function on a box. -/
noncomputable def inf (f : LinearForm ι) : ℤ :=
  f.1 + ∑ i ∈ f.2.support, min (f.2 i * lo i) (f.2 i * hi i)

variable {lo hi} {m m' : ι → ℤ} {f : LinearForm ι}

theorem eval_congr (h : ∀ i ∈ f.2.support, m i = m' i) : eval m f = eval m' f := by
  rw [eval_eq_sum, eval_eq_sum]
  exact congrArg (f.1 + ·) (Finset.sum_congr rfl fun i hi => by rw [h i hi])

theorem sup_var {i : ι} (hle : lo i ≤ hi i) : (var i).sup lo hi = hi i := by
  rw [sup, var, Finsupp.support_single i one_ne_zero, Finset.sum_singleton,
    Finsupp.single_eq_same, one_mul, one_mul, zero_add, max_eq_right hle]

theorem inf_var {i : ι} (hle : lo i ≤ hi i) : (var i).inf lo hi = lo i := by
  rw [inf, var, Finsupp.support_single i one_ne_zero, Finset.sum_singleton,
    Finsupp.single_eq_same, one_mul, one_mul, zero_add, min_eq_left hle]

theorem eval_le_sup (hbox : ∀ i, lo i ≤ m i ∧ m i ≤ hi i) : eval m f ≤ f.sup lo hi := by
  rw [eval_eq_sum, sup]
  refine add_le_add_right (Finset.sum_le_sum fun i _ => ?_) f.1
  rcases le_total 0 (f.2 i) with hpos | hneg
  · exact le_max_of_le_right (mul_le_mul_of_nonneg_left (hbox i).2 hpos)
  · exact le_max_of_le_left (mul_le_mul_of_nonpos_left (hbox i).1 hneg)

theorem inf_le_eval (hbox : ∀ i, lo i ≤ m i ∧ m i ≤ hi i) : f.inf lo hi ≤ eval m f := by
  rw [eval_eq_sum, inf]
  refine add_le_add_right (Finset.sum_le_sum fun i _ => ?_) f.1
  rcases le_total 0 (f.2 i) with hpos | hneg
  · exact min_le_of_left_le (mul_le_mul_of_nonneg_left (hbox i).1 hpos)
  · exact min_le_of_right_le (mul_le_mul_of_nonpos_left (hbox i).2 hneg)

/-- The largest value is that of a corner. -/
theorem exists_eval_eq_sup (hle : ∀ i, lo i ≤ hi i) :
    ∃ m, (∀ i, lo i ≤ m i ∧ m i ≤ hi i) ∧ eval m f = f.sup lo hi := by
  refine ⟨fun i => if 0 ≤ f.2 i then hi i else lo i, ?_, ?_⟩
  · intro i
    dsimp only
    split_ifs
    · exact ⟨hle i, le_refl _⟩
    · exact ⟨le_refl _, hle i⟩
  · rw [eval_eq_sum, sup]
    refine congrArg (f.1 + ·) (Finset.sum_congr rfl fun i _ => ?_)
    split_ifs with hpos
    · exact (max_eq_right (mul_le_mul_of_nonneg_left (hle i) hpos)).symm
    · exact (max_eq_left (mul_le_mul_of_nonpos_left (hle i) (not_le.mp hpos).le)).symm

theorem exists_eval_eq_inf (hle : ∀ i, lo i ≤ hi i) :
    ∃ m, (∀ i, lo i ≤ m i ∧ m i ≤ hi i) ∧ eval m f = f.inf lo hi := by
  refine ⟨fun i => if 0 ≤ f.2 i then lo i else hi i, ?_, ?_⟩
  · intro i
    dsimp only
    split_ifs
    · exact ⟨le_refl _, hle i⟩
    · exact ⟨hle i, le_refl _⟩
  · rw [eval_eq_sum, inf]
    refine congrArg (f.1 + ·) (Finset.sum_congr rfl fun i _ => ?_)
    split_ifs with hpos
    · exact (min_eq_left (mul_le_mul_of_nonneg_left (hle i) hpos)).symm
    · exact (min_eq_right (mul_le_mul_of_nonpos_left (hle i) (not_le.mp hpos).le)).symm

/-- An affine function stays below a bound on a box exactly if its largest value does. -/
theorem forall_eval_le_iff (hle : ∀ i, lo i ≤ hi i) {b : ℤ} :
    (∀ m, (∀ i, lo i ≤ m i ∧ m i ≤ hi i) → eval m f ≤ b) ↔ f.sup lo hi ≤ b := by
  constructor
  · intro h
    obtain ⟨m, hbox, heq⟩ := exists_eval_eq_sup hle (f := f)
    exact heq ▸ h m hbox
  · exact fun h m hbox => (eval_le_sup hbox).trans h

theorem forall_le_eval_iff (hle : ∀ i, lo i ≤ hi i) {b : ℤ} :
    (∀ m, (∀ i, lo i ≤ m i ∧ m i ≤ hi i) → b ≤ eval m f) ↔ b ≤ f.inf lo hi := by
  constructor
  · intro h
    obtain ⟨m, hbox, heq⟩ := exists_eval_eq_inf hle (f := f)
    exact heq ▸ h m hbox
  · exact fun h m hbox => h.trans (inf_le_eval hbox)

/-- On a box around zero and the negative units, only a function with multiples of `n`
as constant and coefficients has multiples of `n` as values. -/
theorem forall_dvd_eval_iff (hlo : ∀ i, lo i ≤ -1) (hhi : ∀ i, 0 ≤ hi i) {n : ℤ} :
    (∀ m, (∀ i, lo i ≤ m i ∧ m i ≤ hi i) → n ∣ eval m f) ↔ n ∣ f.1 ∧ ∀ i, n ∣ f.2 i := by
  classical
  constructor
  · intro h
    have hconst : n ∣ f.1 := by
      have hzero := h 0 fun i => ⟨(hlo i).trans (by simp), hhi i⟩
      rwa [eval_apply, Finsupp.linearCombination_zero_apply, add_zero] at hzero
    refine ⟨hconst, fun i => ?_⟩
    have hunit := h (-Pi.single i 1) fun j => by
      have hj := hlo j
      have hj' := hhi j
      by_cases hji : j = i
      · subst hji
        simp only [Pi.neg_apply, Pi.single_eq_same]
        omega
      · simp only [Pi.neg_apply, Pi.single_eq_of_ne hji]
        omega
    have hvalue : eval (-Pi.single i 1) f = f.1 - f.2 i := by
      have hmove := eval_move 0 0 1 i i f
      simp only [zero_smul, one_smul, zero_sub, zero_mul, zero_add, one_mul, eval_apply,
        Finsupp.linearCombination_zero_apply, add_zero] at hmove
      rw [eval_apply, hmove, sub_eq_add_neg]
    rw [hvalue] at hunit
    exact (dvd_sub_right hconst).mp hunit
  · rintro ⟨hconst, hcoeff⟩ m _
    rw [eval_eq_sum]
    exact dvd_add hconst (Finset.dvd_sum fun i _ => dvd_mul_of_dvd_left (hcoeff i) (m i))

end Box

end LinearForm
