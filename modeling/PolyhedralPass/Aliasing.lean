/-
Accesses and the bytes they touch.  The pass tells arrays apart by the names of
their base pointers; which bytes two accesses touch is up to where the program
allows the pointers to point.
-/
import PolyhedralPass.Analysis
import PolyhedralPass.Legality
import PolyhedralPass.Reading.Values

namespace PolyhedralPass

open Isl (Point UnionMap checkKeywords)

/-- What the program says about a base pointer: it points into an object of its
own (a global, an alloca, an argument without aliases, or a constant expression
into one of them), or anywhere, in every iteration of a nest to the same place or
not. -/
inductive Provenance
  | object (id : Nat) (offset : Int)
  | anywhere (invariant : Bool)
deriving DecidableEq

/-- The provenance of the base pointers and the sizes of objects and types. -/
structure PointerFacts where
  provenance : Value → Provenance
  objectSize : Nat → Nat
  typeSize : IRType → Nat

/-- An assignment of addresses that the program allows. -/
structure Layout (facts : PointerFacts) where
  object : Nat → Int
  pointer : Value → List Int → Int
  apart : ∀ i j, i ≠ j → object i + facts.objectSize i ≤ object j ∨
    object j + facts.objectSize j ≤ object i
  invariant : ∀ p, facts.provenance p = .anywhere true → ∀ x y, pointer p x = pointer p y

section Addresses

variable (F : Function) (facts : PointerFacts)

def GepIndex.offset (values : Value → Int) : GepIndex → Int
  | elem index stride => values index * stride
  | field _ offset => offset

/-- The distance of a pointer from the base pointer `flattenGEP` finds. -/
def gepOffset (values : Value → Int) : Nat → Value → Int
  | 0, _ => 0
  | fuel + 1, pointer =>
      match F.inst? pointer with
      | some ⟨_, _, .gep base indices⟩ =>
          gepOffset values fuel base + (indices.map (GepIndex.offset values)).sum
      | _ => 0

/-- The indices of a chain of address computations, from its base on. -/
def chainIndices : Nat → Value → List GepIndex
  | 0, _ => []
  | fuel + 1, pointer =>
      match F.inst? pointer with
      | some ⟨_, _, .gep base indices⟩ => chainIndices fuel base ++ indices
      | _ => []

theorem flattenGEP_eq (SE : ScalarEvolution) (fuel : Nat) (pointer : Value) :
    (flattenGEP F SE fuel pointer).2 = (chainIndices F fuel pointer).map fun index =>
      SE.expr F (SE.getSCEV index.value) := by
  induction fuel generalizing pointer with
  | zero => rfl
  | succ fuel ih =>
      rw [flattenGEP]
      split
      · rename_i base indices hinst
        simp only [chainIndices, hinst, List.map_append, ih]
      · rename_i hinst
        rw [chainIndices]
        split
        · rename_i base indices hgep
          exact absurd hgep (hinst _ _ base indices)
        · rfl

variable {facts}

/-- The address of a base pointer in an iteration. -/
def Layout.baseAddress (layout : Layout facts) (pointer : Value) (x : List Int) : Int :=
  match facts.provenance pointer with
  | .object id offset => layout.object id + offset
  | .anywhere _ => layout.pointer pointer x

/-- The address of a pointer, up its chain of address computations. -/
def Layout.address (layout : Layout facts) (values : List Int → Value → Int) :
    Nat → Value → List Int → Int
  | 0, pointer, x => layout.baseAddress pointer x
  | fuel + 1, pointer, x =>
      match F.inst? pointer with
      | some ⟨_, _, .gep base indices⟩ =>
          layout.address values fuel base x + (indices.map (GepIndex.offset (values x))).sum
      | _ => layout.baseAddress pointer x

/-- An address is that of the base pointer and an offset that no layout changes. -/
theorem Layout.address_eq (layout : Layout facts) (SE : ScalarEvolution)
    (values : List Int → Value → Int) (fuel : Nat) (pointer : Value) (x : List Int) :
    layout.address F values fuel pointer x =
      layout.baseAddress (flattenGEP F SE fuel pointer).1 x +
        gepOffset F (values x) fuel pointer := by
  induction fuel generalizing pointer with
  | zero => simp [Layout.address, flattenGEP, gepOffset]
  | succ fuel ih =>
      rw [Layout.address]
      split
      · rename_i base indices hinst
        simp only [flattenGEP, gepOffset, hinst, ih, add_assoc]
      · rename_i hinst
        rw [flattenGEP, gepOffset]
        split
        · rename_i base indices hgep
          exact absurd hgep (hinst _ _ base indices)
        · simp

end Addresses

section Accesses

/-- The pointer a load or a store uses. -/
def Inst.accessPointer (inst : Inst) : Option Value :=
  match inst.kind with
  | .load pointer => some pointer
  | .store _ pointer => some pointer
  | _ => none

def Inst.isStore (inst : Inst) : Bool :=
  match inst.kind with
  | .store _ _ => true
  | _ => false

variable (F : Function) (facts : PointerFacts)

/-- The number of bytes a load or a store touches. -/
def Inst.accessSize (inst : Inst) : Nat :=
  match inst.kind with
  | .load _ => facts.typeSize inst.type
  | .store value _ => facts.typeSize (F.type value)
  | _ => 0

/-- Two ranges of bytes have one in common. -/
def Overlap (start size start' size' : Int) : Prop :=
  ∃ byte, (start ≤ byte ∧ byte < start + size) ∧ start' ≤ byte ∧ byte < start' + size'

theorem overlap_iff (start size start' size' : Int) :
    Overlap start size start' size' ↔
      0 < size ∧ 0 < size' ∧ start < start' + size' ∧ start' < start + size := by
  constructor
  · rintro ⟨byte, _, _⟩
    omega
  · intro _
    exact ⟨max start start', by omega, by omega⟩

/-- The instructions of the innermost loop. -/
def LoopNestDescriptor.insts (nest : LoopNestDescriptor) : List Inst :=
  match nest.loops.getLast? with
  | none => []
  | some innermost => innermost.loopNode.blocks.flatMap F.insts

end Accesses

section Words

/-- The word a value is printed as. -/
def Function.word (F : Function) (value : Value) : String :=
  sanitizeISLName (F.valueNameOrFallback (some value) "sym")

def AffineExpr.symbols (expr : AffineExpr) : List Value := expr.terms.filterMap AffineTerm.symbol

def LoopNestDescriptor.inductions (nest : LoopNestDescriptor) : List Value :=
  nest.loops.map LoopDescriptor.induction

/-- The values that the string of an access has words for. -/
def LoopNestDescriptor.scope (nest : LoopNestDescriptor) (access : MemoryAccess) : List Value :=
  nest.inductions ++ access.subscripts.flatMap AffineExpr.symbols

end Words

section Conservative

variable (F : Function) (SE : ScalarEvolution) (facts : PointerFacts) (nest : LoopNestDescriptor)

/-- A run of the nest: its iterations and the value of every index in them.  An
access to an object stays inside the object. -/
structure NestRun where
  iterations : Set (List Int)
  values : List Int → Value → Int
  in_bounds : ∀ inst ∈ nest.insts F, ∀ pointer, inst.accessPointer = some pointer →
    ∀ id offset, facts.provenance (flattenPointer F SE pointer).1 = .object id offset →
    ∀ x ∈ iterations,
      0 ≤ offset + gepOffset F (values x) F.allInsts.length pointer ∧
      offset + gepOffset F (values x) F.allInsts.length pointer + inst.accessSize F facts ≤
        facts.objectSize id

variable {F SE facts nest}

/-- The distance of an access from its base pointer. -/
def NestRun.start (run : NestRun F SE facts nest) (p : Value) (x : List Int) : Int :=
  gepOffset F (run.values x) F.allInsts.length p

/-- Two accesses touch a byte in common in two iterations. -/
def NestRun.Touch (run : NestRun F SE facts nest) (layout : Layout facts) (a b : Inst)
    (p q : Value) (x y : List Int) : Prop :=
  Overlap (layout.address F run.values F.allInsts.length p x) (a.accessSize F facts)
    (layout.address F run.values F.allInsts.length q y) (b.accessSize F facts)

/-- Two accesses may touch a byte in common: their base pointers have a fixed
distance at which they do, or no fixed distance at all. -/
def NestRun.MayTouch (run : NestRun F SE facts nest) (a b : Inst) (p q : Value)
    (x y : List Int) : Prop :=
  let base := (flattenPointer F SE p).1
  let base' := (flattenPointer F SE q).1
  match facts.provenance base, facts.provenance base' with
  | .object id offset, .object id' offset' => id = id' ∧
      Overlap (offset + run.start p x) (a.accessSize F facts)
        (offset' + run.start q y) (b.accessSize F facts)
  | .anywhere true, .anywhere true =>
      if base = base' then
        Overlap (run.start p x) (a.accessSize F facts) (run.start q y) (b.accessSize F facts)
      else 0 < a.accessSize F facts ∧ 0 < b.accessSize F facts
  | _, _ => 0 < a.accessSize F facts ∧ 0 < b.accessSize F facts

/-- Every pair of iterations that may depend on each other is in the relation. -/
def NestRun.Conservative (run : NestRun F SE facts nest) (deps : UnionMap) : Prop :=
  ∀ layout : Layout facts, ∀ a ∈ nest.insts F, ∀ b ∈ nest.insts F, ∀ p q,
    a.accessPointer = some p → b.accessPointer = some q →
    (a.isStore = true ∨ b.isStore = true) →
    ∀ x ∈ run.iterations, ∀ y ∈ run.iterations, List.Lex (· < ·) x y →
      run.Touch layout a b p q x y → ((⟨"Stmt", x⟩ : Point), (⟨"Stmt", y⟩ : Point)) ∈ deps

/-- The values of the indices of a pointer in an iteration. -/
def NestRun.indexValues (run : NestRun F SE facts nest) (p : Value) (x : List Int) : List Int :=
  (chainIndices F F.allInsts.length p).map fun index => run.values x index.value

variable (F SE) in
/-- The name the strings have for the array behind a pointer. -/
def arrayName (p : Value) : String :=
  sanitizeISLName (F.valueNameOrFallback (some (flattenPointer F SE p).1) "ptr")

/-- Where two accesses may touch a byte in common, their base pointers have one name
and their indices the same values. -/
def NestRun.NamesTell (run : NestRun F SE facts nest) : Prop :=
  ∀ a ∈ nest.insts F, ∀ b ∈ nest.insts F, ∀ p q,
    a.accessPointer = some p → b.accessPointer = some q →
    (a.isStore = true ∨ b.isStore = true) →
    ∀ x ∈ run.iterations, ∀ y ∈ run.iterations, List.Lex (· < ·) x y →
      run.MayTouch a b p q x y →
      arrayName F SE p = arrayName F SE q ∧ run.indexValues p x = run.indexValues q y

/-- The strings say of the run what it does: distinct words stand for distinct values,
the executed iterations lie within the bounds, and the indices have the values that
they are translated to. -/
structure NestRun.Faithful (run : NestRun F SE facts nest) : Prop where
  names : nest.NamesDistinct
  coefficients : ∀ expr ∈ nest.exprs, ∀ term ∈ expr.terms,
    term.coefficient ≠ 0 ∧ -2 ^ 63 < term.coefficient.toInt
  bounds : ∀ loop ∈ nest.loops, ∀ symbol ∈ loop.bounds.upper.symbols, symbol ∈ nest.inductions
  words : ∀ access ∈ nest.accesses, ∀ symbol ∈ nest.scope access,
    checkKeywords (F.word symbol) = none
  words_apart : ∀ access ∈ nest.accesses, ∀ symbol ∈ nest.scope access,
    ∀ symbol' ∈ nest.scope access, F.word symbol = F.word symbol' → symbol = symbol'
  coords : ∀ x ∈ run.iterations, nest.inductions.map (run.values x) = x
  within : ∀ x ∈ run.iterations, ∀ loop ∈ nest.loops,
    loop.bounds.lower.constant.toInt ≤ run.values x loop.induction ∧
      run.values x loop.induction < loop.bounds.upper.eval (run.values x)
  indices : ∀ inst ∈ nest.insts F, ∀ pointer, inst.accessPointer = some pointer →
    ∀ index ∈ chainIndices F F.allInsts.length pointer, ∀ x ∈ run.iterations,
      (SE.expr F (SE.getSCEV index.value)).eval (run.values x) = run.values x index.value

/-- The distance of two base pointers is the same in all layouts, or they point into
objects that are apart. -/
def PointerFacts.DistanceKnown (facts : PointerFacts) (base base' : Value) : Prop :=
  match facts.provenance base, facts.provenance base' with
  | .object _ _, .object _ _ => True
  | .anywhere true, .anywhere true => base = base'
  | _, _ => False

end Conservative

section Layouts

variable {facts : PointerFacts}

/-- Objects one behind the other, and the other pointers wherever they are wanted. -/
def PointerFacts.layout (facts : PointerFacts) (pointer : Value → List Int → Int)
    (hpointer : ∀ p, facts.provenance p = .anywhere true → ∀ x y, pointer p x = pointer p y) :
    Layout facts where
  object id := ((List.range id).map facts.objectSize).sum
  pointer := pointer
  apart := by
    have hle : ∀ i j, i < j → (((List.range i).map facts.objectSize).sum : Int) +
        facts.objectSize i ≤ ((List.range j).map facts.objectSize).sum := by
      intro i j hij
      induction j with
      | zero => exact absurd hij (Nat.not_lt_zero i)
      | succ j ih =>
          rw [List.range_succ, List.map_append, List.sum_append, List.map_singleton,
            List.sum_singleton]
          rcases Nat.lt_succ_iff_lt_or_eq.mp hij with hij | rfl
          · have hrest := ih hij
            omega
          · omega
    intro i j hne
    rcases Nat.lt_or_gt_of_ne hne with hlt | hgt
    · exact Or.inl (hle i j hlt)
    · exact Or.inr (hle j i hgt)
  invariant := hpointer

variable {F : Function} {SE : ScalarEvolution} {nest : LoopNestDescriptor}
  (run : NestRun F SE facts nest)

theorem NestRun.address_eq (layout : Layout facts) (p : Value) (x : List Int) :
    layout.address F run.values F.allInsts.length p x =
      layout.baseAddress (flattenPointer F SE p).1 x + run.start p x :=
  layout.address_eq F SE run.values F.allInsts.length p x

variable {run}

/-- Ranges of bytes of objects that are kept apart do not overlap. -/
theorem NestRun.Touch.mayTouch {layout : Layout facts} {a b : Inst} {p q : Value}
    {x y : List Int} (ha : a ∈ nest.insts F) (hb : b ∈ nest.insts F)
    (hp : a.accessPointer = some p) (hq : b.accessPointer = some q) (hx : x ∈ run.iterations)
    (hy : y ∈ run.iterations) (h : run.Touch layout a b p q x y) : run.MayTouch a b p q x y := by
  rw [NestRun.Touch, run.address_eq, run.address_eq, overlap_iff] at h
  simp only [NestRun.MayTouch]
  split
  · rename_i id offset id' offset' hid hid'
    have hin := run.in_bounds a ha p hp id offset hid x hx
    have hin' := run.in_bounds b hb q hq id' offset' hid' y hy
    simp only [Layout.baseAddress, hid, hid', NestRun.start] at h
    have heq : id = id' := by
      by_contra hne
      have hapart := layout.apart id id' hne
      omega
    subst heq
    refine ⟨rfl, ?_⟩
    rw [overlap_iff, NestRun.start, NestRun.start]
    omega
  · rename_i hid hid'
    split_ifs with heq
    · simp only [Layout.baseAddress, hid, hid'] at h
      rw [← heq, layout.invariant _ hid x y] at h
      rw [overlap_iff]
      omega
    · omega
  · omega

/-- Accesses at one address touch a byte in common. -/
theorem NestRun.touch_of_eq {layout : Layout facts} {a b : Inst} {p q : Value} {x y : List Int}
    (hsize : 0 < a.accessSize F facts ∧ 0 < b.accessSize F facts)
    (heq : layout.baseAddress (flattenPointer F SE p).1 x + run.start p x =
      layout.baseAddress (flattenPointer F SE q).1 y + run.start q y) :
    run.Touch layout a b p q x y := by
  rw [NestRun.Touch, run.address_eq, run.address_eq, overlap_iff]
  omega

/-- The pointers of unknown origin at fixed addresses. -/
def PointerFacts.fixed (facts : PointerFacts) (pointer : Value → Int) : Layout facts :=
  facts.layout (fun p _ => pointer p) fun _ _ _ _ => rfl

/-- What may touch does so in a layout the program allows. -/
theorem NestRun.MayTouch.exists_layout {a b : Inst} {p q : Value} {x y : List Int} (hne : x ≠ y)
    (h : run.MayTouch a b p q x y) : ∃ layout, run.Touch layout a b p q x y := by
  simp only [NestRun.MayTouch] at h
  cases hp : facts.provenance (flattenPointer F SE p).1 with
  | object id offset =>
      cases hq : facts.provenance (flattenPointer F SE q).1 with
      | object id' offset' =>
          simp only [hp, hq] at h
          obtain ⟨rfl, h⟩ := h
          refine ⟨facts.fixed fun _ => 0, ?_⟩
          rw [overlap_iff] at h
          rw [NestRun.Touch, run.address_eq, run.address_eq, overlap_iff]
          simp only [Layout.baseAddress, hp, hq]
          omega
      | anywhere invariant =>
          simp only [hp, hq] at h
          refine ⟨facts.fixed fun _ => (facts.fixed fun _ => 0).object id + offset +
            run.start p x - run.start q y, NestRun.touch_of_eq h ?_⟩
          simp only [Layout.baseAddress, hp, hq]
          simp only [PointerFacts.fixed, PointerFacts.layout]
          omega
  | anywhere invariant =>
      cases hq : facts.provenance (flattenPointer F SE q).1 with
      | object id offset =>
          simp only [hp, hq] at h
          refine ⟨facts.fixed fun _ => (facts.fixed fun _ => 0).object id + offset +
            run.start q y - run.start p x, NestRun.touch_of_eq h ?_⟩
          simp only [Layout.baseAddress, hp, hq]
          simp only [PointerFacts.fixed, PointerFacts.layout]
          omega
      | anywhere invariant' =>
          by_cases heq : (flattenPointer F SE p).1 = (flattenPointer F SE q).1
          · rw [← heq, hp] at hq
            obtain rfl : invariant = invariant' := Provenance.anywhere.inj hq
            cases invariant with
            | true =>
                rw [← heq] at h
                simp only [hp, if_true] at h
                refine ⟨facts.fixed fun _ => 0, ?_⟩
                rw [NestRun.Touch, run.address_eq, run.address_eq, ← heq]
                simpa [Layout.baseAddress, hp, PointerFacts.fixed, PointerFacts.layout] using h
            | false =>
                rw [← heq] at h
                simp only [hp] at h
                let pointer : Value → List Int → Int := fun r z =>
                  if r = (flattenPointer F SE p).1 ∧ z = x then run.start q y - run.start p x else 0
                have hpointer : ∀ r, facts.provenance r = .anywhere true →
                    ∀ z z', pointer r z = pointer r z' := by
                  intro r hr z z'
                  have hne : r ≠ (flattenPointer F SE p).1 := by
                    rintro rfl
                    rw [hp] at hr
                    exact absurd hr (by decide)
                  simp only [pointer, hne, false_and, if_false]
                refine ⟨facts.layout pointer hpointer, NestRun.touch_of_eq h ?_⟩
                simp only [Layout.baseAddress, ← heq, hp]
                simp [PointerFacts.layout, pointer, hne.symm]
          · have hsize : 0 < a.accessSize F facts ∧ 0 < b.accessSize F facts := by
              simp only [hp, hq, heq, if_false] at h
              cases invariant <;> cases invariant' <;> exact h
            refine ⟨facts.fixed fun r => if r = (flattenPointer F SE p).1 then
              run.start q y - run.start p x else 0, NestRun.touch_of_eq hsize ?_⟩
            simp only [Layout.baseAddress, hp, hq]
            simp [PointerFacts.fixed, PointerFacts.layout, Ne.symm heq]

/-- Base pointers at no known distance may point to one place. -/
theorem NestRun.mayTouch_of_not_distanceKnown {a b : Inst} {p q : Value}
    (hsize : 0 < a.accessSize F facts) (hsize' : 0 < b.accessSize F facts)
    (hunknown : ¬ facts.DistanceKnown (flattenPointer F SE p).1 (flattenPointer F SE q).1)
    (x y : List Int) : run.MayTouch a b p q x y := by
  simp only [NestRun.MayTouch]
  rw [PointerFacts.DistanceKnown] at hunknown
  split
  · rename_i hid hid'
    simp [hid, hid'] at hunknown
  · rename_i hid hid'
    have hne : (flattenPointer F SE p).1 ≠ (flattenPointer F SE q).1 := by
      simpa [hid, hid'] using hunknown
    rw [if_neg hne]
    exact ⟨by exact_mod_cast hsize, by exact_mod_cast hsize'⟩
  · exact ⟨by exact_mod_cast hsize, by exact_mod_cast hsize'⟩

end Layouts

section Words

variable {F : Function}

/-- A meaning of the words, where they tell the values apart. -/
theorem exists_meaning {values : List Value} (hapart : ∀ v ∈ values, ∀ w ∈ values,
    F.word v = F.word w → v = w) (val : Value → Int) :
    ∃ meaning : String → Int, ∀ v ∈ values, meaning (F.word v) = val v := by
  refine ⟨fun word => ((values.find? (F.word · == word)).map val).getD 0, ?_⟩
  intro v hv
  obtain ⟨w, hw⟩ : ∃ w, values.find? (F.word · == F.word v) = some w := by
    rw [← Option.isSome_iff_exists, List.find?_isSome]
    exact ⟨v, hv, by simp⟩
  have hword : F.word w = F.word v := by simpa using List.find?_some hw
  have heq : w = v := hapart w (List.mem_of_find?_eq_some hw) v hv hword
  simp only [hw, heq, Option.map_some, Option.getD_some]

/-- The words of an expression mean the values of its symbols. -/
theorem wordsMean_of_symbols {expr : AffineExpr} {values : List Value} {meaning : String → Int}
    {val : Value → Int} (hmeaning : ∀ v ∈ values, meaning (F.word v) = val v)
    (hwords : ∀ v ∈ values, checkKeywords (F.word v) = none)
    (hexpr : expr.HasSymbols) (hsymbols : ∀ symbol ∈ expr.symbols, symbol ∈ values)
    (hcoefficients : ∀ term ∈ expr.terms,
      term.coefficient ≠ 0 ∧ -2 ^ 63 < term.coefficient.toInt) :
    WordsMean F meaning val expr := by
  intro term hterm
  obtain ⟨symbol, hsymbol⟩ := Option.ne_none_iff_exists'.mp (hexpr term hterm)
  have hmem : symbol ∈ values :=
    hsymbols symbol (List.mem_filterMap.mpr ⟨term, hterm, hsymbol⟩)
  have hname : termName F term = F.word symbol := by
    rw [termName, hsymbol]
    rfl
  obtain ⟨hzero, hmin⟩ := hcoefficients term hterm
  rw [hname]
  exact ⟨hzero, hmin, hwords symbol hmem, symbol, hsymbol, hmeaning symbol hmem⟩

end Words

section Faithful

variable {F : Function} {SE : ScalarEvolution} {facts : PointerFacts} {nest : LoopNestDescriptor}
  {run : NestRun F SE facts nest}

theorem accessOf_of_accessPointer (F : Function) (SE : ScalarEvolution) {inst : Inst}
    {pointer : Value} (h : inst.accessPointer = some pointer) :
    ∃ access, accessOf F SE inst = some access ∧
      sanitizeISLName access.baseName = arrayName F SE pointer ∧
      access.subscripts = (flattenPointer F SE pointer).2 ∧
      (inst.isStore = true → access.accessKind = .store) := by
  obtain ⟨value, type, kind⟩ := inst
  cases kind with
  | load loaded =>
      obtain rfl := Option.some.inj h
      exact ⟨_, rfl, rfl, rfl, by simp [Inst.isStore]⟩
  | store stored loaded =>
      obtain rfl := Option.some.inj h
      exact ⟨_, rfl, rfl, rfl, fun _ => rfl⟩
  | _ => exact absurd h (by simp [Inst.accessPointer])

/-- The nest has an access for every load and store of the innermost loop. -/
theorem mem_accesses {inst : Inst} {access : MemoryAccess}
    (haccesses : nest.accesses = collectMemoryAccesses F SE nest.loops)
    (hinst : inst ∈ nest.insts F) (haccess : accessOf F SE inst = some access) :
    access ∈ nest.accesses := by
  rw [LoopNestDescriptor.insts] at hinst
  rw [haccesses, collectMemoryAccesses]
  cases hlast : nest.loops.getLast? with
  | none =>
      rw [hlast] at hinst
      simp at hinst
  | some innermost =>
      rw [hlast] at hinst
      obtain ⟨block, hblock, hmem⟩ := List.mem_flatMap.mp hinst
      exact List.mem_flatMap.mpr ⟨block, hblock, List.mem_filterMap.mpr ⟨inst, hmem, haccess⟩⟩

/-- The subscripts of an access have the values of its indices, a zero where there are
none. -/
theorem NestRun.Faithful.printedSubscripts (h : run.Faithful) {inst : Inst} {pointer : Value}
    (hinst : inst ∈ nest.insts F) (hpointer : inst.accessPointer = some pointer)
    {access : MemoryAccess} (hsubscripts : access.subscripts = (flattenPointer F SE pointer).2)
    {x : List Int} (hx : x ∈ run.iterations) :
    access.printedSubscripts.map (AffineExpr.eval (run.values x)) =
      if (run.indexValues pointer x).isEmpty then [0] else run.indexValues pointer x := by
  have hvalues : access.subscripts.map (AffineExpr.eval (run.values x)) =
      run.indexValues pointer x := by
    rw [hsubscripts, flattenPointer, flattenGEP_eq, List.map_map, NestRun.indexValues]
    exact List.map_congr_left fun index hindex => h.indices inst hinst pointer hpointer index
      hindex x hx
  rw [← hvalues, List.isEmpty_map, MemoryAccess.printedSubscripts]
  split_ifs
  · simp [AffineExpr.eval, evalTerms]
  · rfl

variable (hwf : nest.WellFormed F) (h : run.Faithful) {x : List Int} (hx : x ∈ run.iterations)
  {access : MemoryAccess} (haccess : access ∈ nest.accesses)
include hwf h hx haccess

/-- In each iteration the words of an access mean the values of the iteration. -/
theorem NestRun.Faithful.exists_meaning : ∃ meaning : String → Int,
    nest.identifiers.map meaning = x ∧
      (∀ loop ∈ nest.loops, meaning (sanitizeISLName loop.inductionName) =
        run.values x loop.induction) ∧
      (∀ loop ∈ nest.loops, WordsMean F meaning (run.values x) loop.bounds.upper) ∧
      ∀ expr ∈ access.printedSubscripts, WordsMean F meaning (run.values x) expr := by
  obtain ⟨meaning, hmeaning⟩ :=
    PolyhedralPass.exists_meaning (h.words_apart access haccess) (run.values x)
  have hinductions : ∀ loop ∈ nest.loops,
      meaning (sanitizeISLName loop.inductionName) = run.values x loop.induction := by
    intro loop hloop
    rw [hwf.inductionName loop hloop]
    exact hmeaning loop.induction (List.mem_append_left _ (List.mem_map_of_mem hloop))
  have hmean : ∀ expr ∈ nest.exprs, expr.HasSymbols →
      (∀ symbol ∈ expr.symbols, symbol ∈ nest.scope access) →
      WordsMean F meaning (run.values x) expr :=
    fun expr hexpr hsymbols hscope => wordsMean_of_symbols hmeaning (h.words access haccess)
      hsymbols hscope (h.coefficients expr hexpr)
  refine ⟨meaning, ?_, hinductions, ?_, ?_⟩
  · rw [← h.coords x hx, LoopNestDescriptor.identifiers, LoopNestDescriptor.inductions,
      List.map_map, List.map_map]
    exact List.map_congr_left hinductions
  · intro loop hloop
    exact hmean _ (List.mem_append_left _ (List.mem_flatMap.mpr ⟨loop, hloop, by simp⟩))
      (hwf.upper_hasSymbols loop hloop)
      fun symbol hsymbol => List.mem_append_left _ (h.bounds loop hloop symbol hsymbol)
  · intro expr hexpr
    rw [MemoryAccess.printedSubscripts] at hexpr
    split_ifs at hexpr
    · obtain rfl := List.mem_singleton.mp hexpr
      simp [WordsMean]
    · exact hmean _ (List.mem_append_right _ (List.mem_flatMap.mpr ⟨access, haccess, hexpr⟩))
        (hwf.subscript_hasSymbols access haccess expr hexpr)
        fun symbol hsymbol => List.mem_append_right _ (List.mem_flatMap.mpr ⟨expr, hexpr, hsymbol⟩)

/-- An executed iteration is in the domain isl reads. -/
theorem NestRun.Faithful.inDomain (hread : (domainBody F nest).isSome) :
    InDomain F nest ⟨"Stmt", x⟩ := by
  obtain ⟨meaning, hx', hinductions, hupper, _⟩ := h.exists_meaning hwf hx haccess
  refine h.names.inDomain hx' hread hwf.lower_constant hupper fun loop hloop => ?_
  rw [hinductions loop hloop]
  exact h.within x hx loop hloop

/-- An access touches the element its indices name. -/
theorem NestRun.Faithful.touches (hread : (accessBody F nest access).isSome) :
    Touches F nest access ⟨"Stmt", x⟩ ⟨sanitizeISLName access.baseName,
      access.printedSubscripts.map (AffineExpr.eval (run.values x))⟩ := by
  obtain ⟨meaning, hx', _, _, hmean⟩ := h.exists_meaning hwf hx haccess
  exact h.names.touches hx' hread hmean

end Faithful

section Program

/-- Where the strings are faithful and the names tell, the relation has every pair of
iterations that depend on each other.  Where it has them, it has all pairs of executed
iterations as soon as two base pointers are at no known distance. -/
theorem conservative_of_namesTell (F : Function) (SE : ScalarEvolution) (root : Loop)
    (hSE : SE.Sound F (linearizePerfectNest root)) (nest : LoopNestDescriptor)
    (hnest : analyzeLoopNest F SE root = some nest) (deps : UnionMap)
    (hdeps : getDependencies true F nest = some deps) (facts : PointerFacts)
    (run : NestRun F SE facts nest) :
    (run.Faithful → run.NamesTell → run.Conservative deps) ∧
      (run.Conservative deps → ∀ a ∈ nest.insts F, ∀ b ∈ nest.insts F, ∀ p q,
        a.accessPointer = some p → b.accessPointer = some q →
        (a.isStore = true ∨ b.isStore = true) →
        0 < a.accessSize F facts → 0 < b.accessSize F facts →
        ¬ facts.DistanceKnown (flattenPointer F SE p).1 (flattenPointer F SE q).1 →
        ∀ x ∈ run.iterations, ∀ y ∈ run.iterations, List.Lex (· < ·) x y →
          ((⟨"Stmt", x⟩ : Point), (⟨"Stmt", y⟩ : Point)) ∈ deps) := by
  have hwf := wellFormed_of_analyzeLoopNest hSE hnest
  have haccesses := (describes_of_analyzeLoopNest hnest).2.2
  have hsome : (getDependencies true F nest).isSome := by
    rw [hdeps]
    rfl
  obtain ⟨hdomain, hbodies⟩ := (getDependencies_isSome hwf).mp hsome
  constructor
  · intro h htell layout a ha b hb p q hp hq hstore x hx y hy hlex htouch
    have hmay := htouch.mayTouch ha hb hp hq hx hy
    obtain ⟨hname, hindices⟩ := htell a ha b hb p q hp hq hstore x hx y hy hlex hmay
    obtain ⟨first, hfirst, hfirstName, hfirstSubscripts, hfirstStore⟩ :=
      accessOf_of_accessPointer F SE hp
    obtain ⟨second, hsecond, hsecondName, hsecondSubscripts, hsecondStore⟩ :=
      accessOf_of_accessPointer F SE hq
    have hmem := mem_accesses haccesses ha hfirst
    have hmem' := mem_accesses haccesses hb hsecond
    have hlength : ∀ z ∈ run.iterations, z.length = nest.depth := by
      intro z hz
      rw [← h.coords z hz, List.length_map, LoopNestDescriptor.inductions, List.length_map]
      rfl
    rw [mem_getDependencies hwf hdeps]
    refine ⟨h.inDomain hwf hx hmem hdomain, h.inDomain hwf hy hmem hdomain,
      (h.names.before_iff (hlength x hx) (hlength y hy)).mpr ⟨rfl, rfl, hlex⟩, first, hmem,
      second, hmem', hstore.imp hfirstStore hsecondStore, _,
      h.touches hwf hx hmem (hbodies first hmem), ?_⟩
    -- both accesses name one element
    have htouches := h.touches hwf hy hmem' (hbodies second hmem')
    rw [hsecondName, h.printedSubscripts hb hq hsecondSubscripts hy, ← hname, ← hindices,
      ← h.printedSubscripts ha hp hfirstSubscripts hx, ← hfirstName] at htouches
    exact htouches
  · intro h a ha b hb p q hp hq hstore hsize hsize' hunknown x hx y hy hlex
    have hne : x ≠ y := by
      rintro rfl
      exact lex_asymm x x hlex hlex
    have hmay : run.MayTouch a b p q x y :=
      NestRun.mayTouch_of_not_distanceKnown hsize hsize' hunknown x y
    obtain ⟨layout, htouch⟩ := hmay.exists_layout hne
    exact h layout a ha b hb p q hp hq hstore x hx y hy hlex htouch

/-- `B[j] = A[i][j]` -/
def stripPayload : Payload where
  inner := [⟨41, .ptr, .gep 30 [.elem 1 64, .elem 2 8]⟩, ⟨42, .float, .load 41⟩,
    ⟨43, .ptr, .gep 31 [.elem 2 8]⟩, ⟨44, .void, .store 42 43⟩]

def stripNest : LoopNestDescriptor :=
  exampleLoops
    [⟨.load, 42, 30, "A", [⟨0, [⟨some 1, 1⟩]⟩, ⟨0, [⟨some 2, 1⟩]⟩]⟩,
      ⟨.store, 44, 31, "B", [⟨0, [⟨some 2, 1⟩]⟩]⟩]

/-- Two objects of their own. -/
def stripFacts : PointerFacts where
  provenance value := if value = 30 then .object 0 0 else .object 1 0
  objectSize _ := 512
  typeSize _ := 8

theorem stripNest_box : stripNest.Box (stripPayload.function .slt) := by
  decide

theorem mem_stripNest_box {x : List Int} (hx : x ∈ stripNest.box) :
    ∃ i j, x = [i, j] ∧ 0 ≤ i ∧ i < 8 ∧ 0 ≤ j ∧ j < 8 := by
  obtain _ | ⟨hi, _ | ⟨hj, _ | _⟩⟩ := hx
  exact ⟨_, _, rfl, hi.1, hi.2, hj.1, hj.2⟩

/-- The loads and stores of the loop. -/
theorem stripNest_accesses : ∀ inst ∈ stripNest.insts (stripPayload.function .slt),
    ∀ pointer ∈ inst.accessPointer, inst = ⟨42, .float, .load 41⟩ ∧ pointer = 41 ∨
      inst = ⟨44, .void, .store 42 43⟩ ∧ pointer = 43 := by
  decide

/-- All iterations of the nest. -/
def stripRun : NestRun (stripPayload.function .slt) exampleEvolution stripFacts stripNest where
  iterations := stripNest.box
  values := stripNest.valuation
  in_bounds := by
    intro inst hinst pointer hpointer id offset hobject x hx
    obtain ⟨i, j, rfl, hi⟩ := mem_stripNest_box hx
    have hload : gepOffset (stripPayload.function .slt) (stripNest.valuation [i, j])
        (stripPayload.function .slt).allInsts.length 41 = 0 + (i * 64 + (j * 8 + 0)) := rfl
    have hstore : gepOffset (stripPayload.function .slt) (stripNest.valuation [i, j])
        (stripPayload.function .slt).allInsts.length 43 = 0 + (j * 8 + 0) := rfl
    rcases stripNest_accesses inst hinst pointer hpointer with ⟨rfl, rfl⟩ | ⟨rfl, rfl⟩
    · have hobject : Provenance.object 0 0 = .object id offset := hobject
      obtain ⟨rfl, rfl⟩ := Provenance.object.inj hobject
      rw [hload]
      exact ⟨by omega, by simp [Inst.accessSize, stripFacts]; omega⟩
    · have hobject : Provenance.object 1 0 = .object id offset := hobject
      obtain ⟨rfl, rfl⟩ := Provenance.object.inj hobject
      rw [hstore]
      exact ⟨by omega, by simp [Inst.accessSize, stripFacts]; omega⟩

theorem stripRun_faithful : stripRun.Faithful where
  names := stripNest_box.toNamesDistinct
  coefficients := by decide
  bounds := by decide
  words := by decide
  words_apart := by decide
  coords := by
    intro x hx
    obtain ⟨i, j, rfl, _⟩ := mem_stripNest_box hx
    rfl
  within := by
    intro x hx loop hloop
    obtain ⟨i, j, rfl, hi⟩ := mem_stripNest_box hx
    rcases List.mem_pair.mp hloop with rfl | rfl
    · exact ⟨hi.1, hi.2.1⟩
    · exact ⟨hi.2.2.1, hi.2.2.2⟩
  indices := by
    intro inst hinst pointer hpointer index hindex x _
    have hvalue : index.value = 1 ∨ index.value = 2 := by
      rcases stripNest_accesses inst hinst pointer hpointer with ⟨_, rfl⟩ | ⟨_, rfl⟩
      · rcases List.mem_pair.mp hindex with rfl | rfl
        · exact Or.inl rfl
        · exact Or.inr rfl
      · obtain rfl := List.mem_singleton.mp hindex
        exact Or.inr rfl
    have hexpr : ∀ v, v = 1 ∨ v = 2 → exampleEvolution.expr (stripPayload.function .slt)
        (exampleEvolution.getSCEV v) = makeUnknownExpr v := by
      rintro _ (rfl | rfl)
      · decide
      · decide
    rw [hexpr _ hvalue, eval_makeUnknownExpr]

theorem stripRun_namesTell : stripRun.NamesTell := by
  intro a ha b hb p q hp hq hstore x hx y hy hlex hmay
  obtain ⟨i, j, rfl, _⟩ := mem_stripNest_box hx
  obtain ⟨i', j', rfl, _⟩ := mem_stripNest_box hy
  rcases stripNest_accesses a ha p hp with ⟨rfl, rfl⟩ | ⟨rfl, rfl⟩
  · rcases stripNest_accesses b hb q hq with ⟨rfl, rfl⟩ | ⟨rfl, rfl⟩
    · exact absurd hstore (by decide)
    · exact absurd hmay.1 (by decide)
  · rcases stripNest_accesses b hb q hq with ⟨rfl, rfl⟩ | ⟨rfl, rfl⟩
    · exact absurd hmay.1 (by decide)
    · -- two stores that share a byte are in one column
      have hoverlap : Overlap (0 + (0 + (j * 8 + 0))) 8 (0 + (0 + (j' * 8 + 0))) 8 := hmay.2
      rw [overlap_iff] at hoverlap
      obtain rfl : j = j' := by omega
      exact ⟨rfl, rfl⟩

theorem stripRun_conservative : ∃ deps,
    getDependencies true (stripPayload.function .slt) stripNest = some deps ∧
      stripRun.Conservative deps := by
  obtain ⟨deps, hdeps⟩ := Option.isSome_iff_exists.mp stripNest_box.getDependencies_isSome
  exact ⟨deps, hdeps, (conservative_of_namesTell (stripPayload.function .slt) exampleEvolution
    exampleOuter (exampleEvolution_sound rfl rfl rfl) stripNest rfl deps hdeps stripFacts
    stripRun).1 stripRun_faithful stripRun_namesTell⟩

/-- `B[i][j] = A[i][j]` -/
def copyPayload : Payload where
  inner := [⟨41, .ptr, .gep 30 [.elem 1 64, .elem 2 8]⟩, ⟨42, .float, .load 41⟩,
    ⟨43, .ptr, .gep 31 [.elem 1 64, .elem 2 8]⟩, ⟨44, .void, .store 42 43⟩]

def copyNest : LoopNestDescriptor :=
  exampleLoops
    [⟨.load, 42, 30, "A", [⟨0, [⟨some 1, 1⟩]⟩, ⟨0, [⟨some 2, 1⟩]⟩]⟩,
      ⟨.store, 44, 31, "B", [⟨0, [⟨some 1, 1⟩]⟩, ⟨0, [⟨some 2, 1⟩]⟩]⟩]

theorem copyNest_box : copyNest.Box (copyPayload.function .slt) := by
  decide

/-- Two pointer arguments without a guarantee. -/
def argumentFacts : PointerFacts where
  provenance _ := .anywhere true
  objectSize _ := 0
  typeSize _ := 8

/-- All iterations of the nest, with the induction variables as indices. -/
def copyRun : NestRun (copyPayload.function .slt) exampleEvolution argumentFacts copyNest where
  iterations := copyNest.box
  values := copyNest.valuation
  in_bounds := by
    intro inst _ pointer _ id offset hobject
    exact absurd hobject (by simp [argumentFacts])

/-- No two accesses with one name touch the same element in the first two
iterations. -/
theorem copyNest_cells : ∀ a ∈ copyNest.accesses, ∀ b ∈ copyNest.accesses,
    (a.accessKind = .store ∨ b.accessKind = .store) →
    sanitizeISLName a.baseName = sanitizeISLName b.baseName →
    copyNest.cell a [0, 0] ≠ copyNest.cell b [0, 1] := by
  decide

/-- With `B` eight bytes behind `A` the store of an iteration is what the next one
loads, and the relation does not have the two. -/
theorem not_conservative : ¬ ∀ (F : Function) (SE : ScalarEvolution) (root : Loop)
    (nest : LoopNestDescriptor) (deps : UnionMap) (facts : PointerFacts)
    (run : NestRun F SE facts nest), SE.Sound F (linearizePerfectNest root) →
    analyzeLoopNest F SE root = some nest → isRectangularNest nest = true →
    getDependencies true F nest = some deps → run.Conservative deps := by
  intro hall
  obtain ⟨deps, hdeps⟩ := Option.isSome_iff_exists.mp copyNest_box.getDependencies_isSome
  have hconservative := hall _ _ exampleOuter copyNest deps argumentFacts copyRun
    (exampleEvolution_sound rfl rfl rfl) rfl (by decide) hdeps
  have hx : [0, 0] ∈ copyNest.box :=
    .cons ⟨by decide, by decide⟩ (.cons ⟨by decide, by decide⟩ .nil)
  have hy : [0, 1] ∈ copyNest.box :=
    .cons ⟨by decide, by decide⟩ (.cons ⟨by decide, by decide⟩ .nil)
  have htouch : copyRun.Touch (argumentFacts.fixed fun p => if p = 31 then 8 else 0)
      ⟨44, .void, .store 42 43⟩ ⟨42, .float, .load 41⟩ 43 41 [0, 0] [0, 1] :=
    ⟨8, ⟨by decide, by decide⟩, by decide, by decide⟩
  have hdep := hconservative _ ⟨44, .void, .store 42 43⟩ (by decide) ⟨42, .float, .load 41⟩
    (by decide) 43 41 rfl rfl (Or.inl rfl) [0, 0] hx [0, 1] hy (by decide) htouch
  obtain ⟨_, _, _, _, _, a, ha, b, hb, hstore, hname, hcell⟩ :=
    (copyNest_box.mem_getDependencies hdeps _ _).mp hdep
  exact copyNest_cells a ha b hb hstore hname hcell

end Program

end PolyhedralPass
