/-
The bounds of a nest that passes for rectangular.  A bound moves with the loops around
its own where its expression mentions one of them, or a value that is computed in the
nest; `isRectangularNest` looks for the induction variables in what the translation
leaves of the expression.
-/
import PolyhedralPass.Translation

namespace PolyhedralPass

section Expressions

variable (inside : Value → Prop) (around : Nat → Prop)

mutual

/-- An expression without recurrences of the given loops and without the given values. -/
def SCEV.Fixed : SCEV → Prop
  | .constant _ _ => True
  | .add ops => SCEV.OperandsFixed ops
  | .mul ops => SCEV.OperandsFixed ops
  | .addRec start step loop => ¬ around loop ∧ SCEV.Fixed start ∧ SCEV.Fixed step
  | .trunc _ op => SCEV.Fixed op
  | .zext _ op => SCEV.Fixed op
  | .sext _ op => SCEV.Fixed op
  | .ptrToInt _ op => SCEV.Fixed op
  | .udiv lhs rhs => SCEV.Fixed lhs ∧ SCEV.Fixed rhs
  | .smax ops => SCEV.OperandsFixed ops
  | .umax ops => SCEV.OperandsFixed ops
  | .smin ops => SCEV.OperandsFixed ops
  | .umin ops => SCEV.OperandsFixed ops
  | .unknown value _ => ¬ inside value
  -- nothing is known about the value
  | .couldNotCompute => False

def SCEV.OperandsFixed : List SCEV → Prop
  | [] => True
  | op :: ops => SCEV.Fixed op ∧ SCEV.OperandsFixed ops

end

variable {inside around}

mutual

/-- Such an expression has one value, whatever the loops and the values do. -/
theorem value_congr {sym sym' : Value → Int}
    (hsym : ∀ value, ¬ inside value → sym value = sym' value) :
    ∀ (scev : SCEV) {iter iter' : Nat → Nat}, (∀ loop, ¬ around loop → iter loop = iter' loop) →
      scev.Fixed inside around → scev.value sym iter = scev.value sym' iter'
  | .constant _ _, _, _, _, _ => by rw [SCEV.value, SCEV.value]
  | .add ops, _, _, hiter, h => by
      rw [SCEV.value, SCEV.value, values_congr hsym ops hiter h]
  | .mul ops, _, _, hiter, h => by
      rw [SCEV.value, SCEV.value, values_congr hsym ops hiter h]
  | .addRec start step loop, iter, iter', hiter, h => by
      obtain ⟨hloop, hstart, hstep⟩ := h
      have hround : ∀ k, step.value sym (Function.update iter loop k) =
          step.value sym' (Function.update iter' loop k) := by
        intro k
        refine value_congr hsym step (fun other hother => ?_) hstep
        by_cases heq : other = loop
        · rw [heq, Function.update_self, Function.update_self]
        · rw [Function.update_of_ne heq, Function.update_of_ne heq, hiter other hother]
      rw [SCEV.value, SCEV.value, value_congr hsym start hiter hstart, hiter loop hloop]
      simp only [hround]
  | .trunc _ op, _, _, hiter, h => by
      rw [SCEV.value, SCEV.value, value_congr hsym op hiter h]
  | .zext _ op, _, _, hiter, h => by
      rw [SCEV.value, SCEV.value, value_congr hsym op hiter h]
  | .sext _ op, _, _, hiter, h => by
      rw [SCEV.value, SCEV.value, value_congr hsym op hiter h]
  | .ptrToInt _ op, _, _, hiter, h => by
      rw [SCEV.value, SCEV.value, value_congr hsym op hiter h]
  | .udiv lhs rhs, _, _, hiter, h => by
      rw [SCEV.value, SCEV.value, value_congr hsym lhs hiter h.1, value_congr hsym rhs hiter h.2]
  | .smax ops, _, _, hiter, h => by
      rw [SCEV.value, SCEV.value, values_congr hsym ops hiter h]
  | .umax ops, _, _, hiter, h => by
      rw [SCEV.value, SCEV.value, values_congr hsym ops hiter h]
  | .smin ops, _, _, hiter, h => by
      rw [SCEV.value, SCEV.value, values_congr hsym ops hiter h]
  | .umin ops, _, _, hiter, h => by
      rw [SCEV.value, SCEV.value, values_congr hsym ops hiter h]
  | .unknown value _, _, _, _, h => by
      rw [SCEV.value, SCEV.value, hsym value h]
  | .couldNotCompute, _, _, _, h => h.elim

theorem values_congr {sym sym' : Value → Int}
    (hsym : ∀ value, ¬ inside value → sym value = sym' value) :
    ∀ (ops : List SCEV) {iter iter' : Nat → Nat}, (∀ loop, ¬ around loop → iter loop = iter' loop) →
      SCEV.OperandsFixed inside around ops → SCEV.values sym iter ops = SCEV.values sym' iter' ops
  | [], _, _, _, _ => by rw [SCEV.values, SCEV.values]
  | op :: ops, _, _, hiter, h => by
      rw [SCEV.values, SCEV.values, value_congr hsym op hiter h.1, values_congr hsym ops hiter h.2]

end

section Losses

variable (inside : Value → Prop) (around : Nat → Prop)
  (canonicalIV : Nat → Option Value) (valueShown : Value → Prop) (loopShown : Nat → Prop)

mutual

/-- What the translation drops of an expression is fixed, and what it keeps of the given
loops and values shows in the result. -/
def SCEV.NothingLost : SCEV → Prop
  | .constant _ _ => True
  | .add ops => SCEV.NoOperandLost ops
  | .mul ops => SCEV.NoFactorLost ops
  | .addRec start step loop =>
      if (canonicalIV loop).isSome ∧ (createExprFromSCEV canonicalIV step).terms.isEmpty then
        (around loop → loopShown loop) ∧ SCEV.NothingLost start ∧ step.Fixed inside around
      else (SCEV.addRec start step loop).Fixed inside around
  | .trunc _ op => SCEV.NothingLost op
  | .zext _ op => SCEV.NothingLost op
  | .sext _ op => SCEV.NothingLost op
  | .ptrToInt _ op => SCEV.NothingLost op
  | .udiv lhs rhs => (SCEV.udiv lhs rhs).Fixed inside around
  | .smax ops => (SCEV.smax ops).Fixed inside around
  | .umax ops => (SCEV.umax ops).Fixed inside around
  | .smin ops => (SCEV.smin ops).Fixed inside around
  | .umin ops => (SCEV.umin ops).Fixed inside around
  | .unknown value _ => inside value → valueShown value
  | .couldNotCompute => SCEV.couldNotCompute.Fixed inside around

def SCEV.NoOperandLost : List SCEV → Prop
  | [] => True
  | op :: ops => SCEV.NothingLost op ∧ SCEV.NoOperandLost ops

/-- The factor beside a constant is kept, any other product is dropped. -/
def SCEV.NoFactorLost : List SCEV → Prop
  | [.constant _ _, rhs] => SCEV.NothingLost rhs
  | [lhs, .constant _ _] => SCEV.NothingLost lhs
  | ops => SCEV.OperandsFixed inside around ops

end

variable {inside around canonicalIV valueShown loopShown}

mutual

/-- An expression that shows nothing of the loops and values has nothing of them. -/
theorem fixed_of_nothingLost (hvalue : ∀ value, inside value → ¬ valueShown value)
    (hloop : ∀ loop, around loop → ¬ loopShown loop) : ∀ scev : SCEV,
    scev.NothingLost inside around canonicalIV valueShown loopShown → scev.Fixed inside around
  | .constant _ _, _ => trivial
  | .add ops, h => by
      rw [SCEV.NothingLost] at h
      exact operandsFixed_of_noOperandLost hvalue hloop ops h
  | .mul ops, h => by
      rw [SCEV.NothingLost, SCEV.NoFactorLost.eq_def] at h
      rw [SCEV.Fixed]
      split at h
      · exact ⟨trivial, fixed_of_nothingLost hvalue hloop _ h, trivial⟩
      · exact ⟨fixed_of_nothingLost hvalue hloop _ h, trivial, trivial⟩
      · exact h
  | .addRec start step loop, h => by
      rw [SCEV.NothingLost] at h
      split_ifs at h
      · obtain ⟨hshown, hstart, hstep⟩ := h
        exact ⟨fun haround => hloop loop haround (hshown haround),
          fixed_of_nothingLost hvalue hloop start hstart, hstep⟩
      · exact h
  | .trunc _ op, h => by
      rw [SCEV.NothingLost] at h
      exact fixed_of_nothingLost hvalue hloop op h
  | .zext _ op, h => by
      rw [SCEV.NothingLost] at h
      exact fixed_of_nothingLost hvalue hloop op h
  | .sext _ op, h => by
      rw [SCEV.NothingLost] at h
      exact fixed_of_nothingLost hvalue hloop op h
  | .ptrToInt _ op, h => by
      rw [SCEV.NothingLost] at h
      exact fixed_of_nothingLost hvalue hloop op h
  | .unknown value _, h => by
      rw [SCEV.NothingLost] at h
      exact fun hinside => hvalue value hinside (h hinside)
  | .udiv _ _, h | .smax _, h | .umax _, h | .smin _, h | .umin _, h | .couldNotCompute, h => by
      rw [SCEV.NothingLost] at h
      exact h

theorem operandsFixed_of_noOperandLost (hvalue : ∀ value, inside value → ¬ valueShown value)
    (hloop : ∀ loop, around loop → ¬ loopShown loop) : ∀ ops : List SCEV,
    SCEV.NoOperandLost inside around canonicalIV valueShown loopShown ops →
      SCEV.OperandsFixed inside around ops
  | [], _ => trivial
  | op :: ops, h => by
      rw [SCEV.NoOperandLost] at h
      exact ⟨fixed_of_nothingLost hvalue hloop op h.1,
        operandsFixed_of_noOperandLost hvalue hloop ops h.2⟩

end

end Losses

end Expressions

section Bounds

/-- The unknown values and the iteration numbers at one moment of a run. -/
structure Moment where
  sym : Value → Int
  iter : Nat → Nat

def Moment.value (moment : Moment) (scev : SCEV) : Int := scev.value moment.sym moment.iter

variable (F : Function) (SE : ScalarEvolution) (root : Loop) (nest : LoopNestDescriptor)

/-- A value that is computed in a loop. -/
def Loop.Computes (value : Value) : Prop :=
  ∃ block ∈ root.blocks, ∃ inst ∈ F.insts block, inst.value = value

def IsHeaderOf (loops : List LoopDescriptor) (header : Nat) : Prop :=
  ∃ loop ∈ loops, loop.loopNode.header = header

/-- Two moments of one execution of the nest, in any iterations of the given loops: the
values that are computed in the nest may be others. -/
structure SameExecution (around : List LoopDescriptor) (m m' : Moment) : Prop where
  sym_eq : ∀ value, ¬ root.Computes F value → m.sym value = m'.sym value
  iter_eq : ∀ header, ¬ IsHeaderOf around header → m.iter header = m'.iter header

/-- Each bound has one value in all iterations of the loops around its own. -/
def BoundsRigid : Prop :=
  ∀ i loop, nest.loops[i]? = some loop → ∀ m m' : Moment,
    SameExecution F root (nest.loops.take i) m m' →
    m.value (SE.getSCEV loop.boundValue) = m'.value (SE.getSCEV loop.boundValue)

/-- A symbol has a coefficient in the upper bound of a loop. -/
def LoopDescriptor.Shows (loop : LoopDescriptor) (symbol : Value) : Prop :=
  coefficientOf symbol loop.bounds.upper.terms ≠ 0

/-- The translation of a bound loses no iteration of the loops around, and no value that
is computed in the nest: nor is such a value taken for an induction variable. -/
def BoundKept (around : List LoopDescriptor) (loop : LoopDescriptor) : Prop :=
  (SE.getSCEV loop.boundValue).NothingLost (root.Computes F) (IsHeaderOf around) (SE.canonicalIV F)
    (fun value => loop.Shows value ∧
      sanitizeISLName (F.valueNameOrFallback (some value) "sym") ∉ nest.identifiers)
    (fun header => ∃ iv, SE.canonicalIV F header = some iv ∧ loop.Shows iv)

/-- The bounds name nothing but induction variables of the nest. -/
def NamesOnlyIVs : Prop :=
  ∀ loop ∈ nest.loops, ∀ term ∈ loop.bounds.upper.terms, termName F term ∈ nest.identifiers

instance : Decidable (NamesOnlyIVs F nest) :=
  inferInstanceAs (Decidable (∀ loop ∈ nest.loops, ∀ term ∈ loop.bounds.upper.terms,
    termName F term ∈ nest.identifiers))

variable {F SE root nest}

theorem LoopDescriptor.Shows.exists_term {loop : LoopDescriptor} {symbol : Value}
    (h : loop.Shows symbol) : ∃ term ∈ loop.bounds.upper.terms,
      term.symbol = some symbol ∧ term.coefficient ≠ 0 := by
  rw [LoopDescriptor.Shows] at h
  generalize loop.bounds.upper.terms = terms at h ⊢
  induction terms with
  | nil => exact absurd rfl h
  | cons term rest ih =>
      rw [coefficientOf] at h
      split_ifs at h with hsymbol
      · exact ⟨term, List.mem_cons_self, hsymbol, h⟩
      · obtain ⟨found, hfound, hshown⟩ := ih h
        exact ⟨found, List.mem_cons_of_mem term hfound, hshown⟩

theorem not_mentions_of_isRectangularNest (h : isRectangularNest nest = true) {i : Nat}
    {loop outer : LoopDescriptor} (hloop : nest.loops[i]? = some loop)
    (houter : outer ∈ nest.loops.take i) :
    exprMentionsSymbol loop.bounds.upper outer.induction = false := by
  have hi : i ∈ List.range nest.depth :=
    List.mem_range.mpr (List.getElem?_eq_some_iff.mp hloop).1
  have hall := List.all_eq_true.mp h i hi
  rw [hloop] at hall
  simp only [Bool.and_eq_true, List.all_eq_true, Bool.not_eq_true', Bool.or_eq_false_iff] at hall
  exact (hall.2 outer houter).2

/-- The bounds of a rectangular nest show no loop around. -/
theorem not_shows_of_isRectangularNest (h : isRectangularNest nest = true) {i : Nat}
    {loop outer : LoopDescriptor} (hloop : nest.loops[i]? = some loop)
    (houter : outer ∈ nest.loops.take i) : ¬ loop.Shows outer.induction := by
  intro hshown
  obtain ⟨term, hterm, hsymbol, hcoefficient⟩ := hshown.exists_term
  have hnot := not_mentions_of_isRectangularNest h hloop houter
  rw [exprMentionsSymbol, List.any_eq_false] at hnot
  exact hnot term hterm (by simp [hsymbol, hcoefficient])

/-- In every run the bounds of a nest that passes for rectangular have one value in all
iterations of the loops around, if the translation loses nothing of these. -/
theorem boundsRigid_of_boundKept (F : Function) (SE : ScalarEvolution) (root : Loop)
    (nest : LoopNestDescriptor) (hsound : SE.Sound F (linearizePerfectNest root))
    (hnest : analyzeLoopNest F SE root = some nest) (hrectangular : isRectangularNest nest = true)
    (hnames : NamesOnlyIVs F nest)
    (hkept : ∀ i loop, nest.loops[i]? = some loop →
      BoundKept F SE root nest (nest.loops.take i) loop) : BoundsRigid F SE root nest := by
  intro i loop hloop m m' hsame
  have hmem := List.mem_of_getElem? hloop
  have hfixed : (SE.getSCEV loop.boundValue).Fixed (root.Computes F)
      (IsHeaderOf (nest.loops.take i)) := by
    refine fixed_of_nothingLost ?_ ?_ _ (hkept i loop hloop)
    · rintro value _ ⟨hshown, hname⟩
      obtain ⟨term, hterm, hsymbol, _⟩ := hshown.exists_term
      have hidentifier := hnames loop hmem term hterm
      rw [termName, hsymbol] at hidentifier
      exact hname hidentifier
    · rintro _ ⟨outer, houter, rfl⟩ ⟨iv, hiv, hshown⟩
      obtain ⟨L, hL, hdescribes⟩ := exists_describes hnest (List.mem_of_mem_take houter)
      obtain ⟨L', hL', hcanonical⟩ := Option.bind_eq_some_iff.mp hiv
      rw [hdescribes.loopNode, hsound.loopOf L hL] at hL'
      obtain rfl := Option.some.inj hL'
      obtain rfl := Option.some.inj (hdescribes.induction.symm.trans hcanonical)
      exact not_shows_of_isRectangularNest hrectangular hloop houter hshown
  exact value_congr hsame.sym_eq _ hsame.iter_eq hfixed

end Bounds

section Program

/-- Two nested loops, the inner one with a bound that the outer one computes from a value. -/
def boundFunction (value : Value) : Function :=
  { Payload.function {} .slt with
    blocks :=
      [(0, [⟨20, .void, .br 1⟩]),
        (1, [⟨1, .int 32, .phi [(8, 0), (5, 5)]⟩, ⟨3, .int 1, .icmp .slt 1 10⟩,
          ⟨21, .void, .condBr 3 2 6⟩]),
        (2, [⟨40, .int 32, .compute [value]⟩, ⟨22, .void, .br 3⟩]),
        (3, [⟨2, .int 32, .phi [(8, 2), (6, 4)]⟩, ⟨4, .int 1, .icmp .slt 2 40⟩,
          ⟨23, .void, .condBr 4 4 5⟩]),
        (4, [⟨6, .int 32, .add 2 9⟩, ⟨24, .void, .br 3⟩]),
        (5, [⟨5, .int 32, .add 1 9⟩, ⟨25, .void, .br 1⟩]),
        (6, [⟨26, .void, .ret none⟩])] }

/-- The bound of the inner loop is lost in the translation. -/
def boundNest : LoopNestDescriptor where
  loops := [exampleDescriptor .slt, { exampleInnerDescriptor with
    boundValue := 40
    bounds := { lower := .ofConstant 0, upper := {} } }]
  accesses := []

theorem indexEvolution_sound (value : Value) (index : SCEV) :
    (indexEvolution index).Sound (boundFunction value) [exampleOuter, exampleInner] where
  canonical := by
    intro L hL induction hinduction
    refine ⟨32, ?_⟩
    rcases List.mem_pair.mp hL with rfl | rfl
    · obtain rfl : 1 = induction := Option.some.inj hinduction
      rfl
    · obtain rfl : 2 = induction := Option.some.inj hinduction
      rfl
  constant := by
    intro constant c hc
    have hc : exampleConstant constant = some c := hc
    have hne : constant ≠ 40 := by
      rintro rfl
      exact absurd ((show exampleConstant 40 = none from rfl).symm.trans hc) (by simp)
    rw [indexEvolution]
    simp only [if_neg hne, exampleEvolution, hc]
  loopOf := by
    intro L hL
    rcases List.mem_pair.mp hL with rfl | rfl
    · rfl
    · rfl

/-- The inner loop runs up to half of an argument. -/
theorem halfArgument_boundsRigid : BoundsRigid (boundFunction 32)
    (indexEvolution (.udiv (.unknown 32 32) (.constant 32 2))) exampleOuter boundNest := by
  refine boundsRigid_of_boundKept (boundFunction 32) _ exampleOuter boundNest
    (indexEvolution_sound 32 _) rfl (by decide) (by decide) ?_
  intro i loop hloop
  have hargument : ¬ exampleOuter.Computes (boundFunction 32) 32 := by
    rintro ⟨block, hblock, inst, hinst, hvalue⟩
    have hall : ∀ block ∈ exampleOuter.blocks, ∀ inst ∈ (boundFunction 32).insts block,
        inst.value ≠ 32 := by decide
    exact hall block hblock inst hinst hvalue
  rcases List.mem_pair.mp (List.mem_of_getElem? hloop) with rfl | rfl
  · exact trivial
  · exact ⟨hargument, trivial⟩

/-- The inner loop runs up to half of `i`. -/
theorem not_forall_boundsRigid : ¬ ∀ (F : Function) (SE : ScalarEvolution) (root : Loop)
    (nest : LoopNestDescriptor), SE.Counts F → (∀ value, (SE.getSCEV value).WellTyped SE) →
    SE.Sound F (linearizePerfectNest root) → analyzeLoopNest F SE root = some nest →
    isRectangularNest nest = true → NamesOnlyIVs F nest → BoundsRigid F SE root nest := by
  intro hall
  have hpos : 0 < 32 := by decide
  let index : SCEV := .udiv outerCounter (.constant 32 2)
  have hrigid := hall (boundFunction 1) (indexEvolution index) exampleOuter boundNest
    (indexEvolution_counts_of index rfl rfl)
    (indexEvolution_typed ⟨hpos, rfl, ⟨hpos, rfl, hpos, hpos⟩, hpos⟩) (indexEvolution_sound 1 index)
    rfl (by decide) (by decide)
  -- the first and the third iteration of the outer loop
  let first : Moment := ⟨0, fun _ => 0⟩
  let third : Moment := ⟨0, fun header => if header = 1 then 2 else 0⟩
  have hsame : SameExecution (boundFunction 1) exampleOuter (boundNest.loops.take 1)
      first third := by
    refine ⟨fun _ _ => rfl, fun header hheader => ?_⟩
    have hne : header ≠ 1 := by
      rintro rfl
      exact hheader ⟨exampleDescriptor .slt, List.mem_singleton_self _, rfl⟩
    exact (if_neg hne).symm
  have hvalue := hrigid 1 _ rfl first third hsame
  exact absurd hvalue (by decide)

end Program

end PolyhedralPass
