/-
What the analysis guarantees of the nests it describes: the shape of the loops
behind a loop descriptor, and the form of the expressions ScalarEvolution's
answers are translated into.
-/
import PolyhedralPass.Nest
import PolyhedralPass.Reading.Domain

namespace PolyhedralPass

section Symbols

theorem mergeTerm_hasSymbols {symbol : Value} {coefficient : Int64} {terms : List AffineTerm}
    (h : ∀ term ∈ terms, term.symbol ≠ none) :
    ∀ term ∈ mergeTerm symbol coefficient terms, term.symbol ≠ none := by
  induction terms with
  | nil => simp [mergeTerm]
  | cons first rest ih =>
      have hrest := ih fun term hterm => h term (List.mem_cons_of_mem first hterm)
      rw [mergeTerm]
      split_ifs with heq
      · intro term hterm
        rcases List.mem_cons.mp hterm with rfl | hterm
        · exact h first (by simp)
        · exact h term (List.mem_cons_of_mem first hterm)
      · intro term hterm
        rcases List.mem_cons.mp hterm with rfl | hterm
        · exact h term (by simp)
        · exact hrest term hterm

theorem addTerm_hasSymbols {expr : AffineExpr} (h : expr.HasSymbols) (symbol : Option Value)
    (coefficient : Int64) : (addTerm expr symbol coefficient).HasSymbols := by
  unfold addTerm
  cases symbol with
  | none => exact h
  | some symbol =>
      simp only
      split_ifs
      · exact h
      · exact mergeTerm_hasSymbols h

theorem foldl_addTerm_hasSymbols (f : AffineTerm → Int64) (terms : List AffineTerm)
    {expr : AffineExpr} (h : expr.HasSymbols) :
    (terms.foldl (fun result term => addTerm result term.symbol (f term)) expr).HasSymbols := by
  induction terms generalizing expr with
  | nil => exact h
  | cons term terms ih => exact ih (addTerm_hasSymbols h term.symbol (f term))

theorem addExpr_hasSymbols {lhs rhs : AffineExpr} (h : lhs.HasSymbols) :
    (addExpr lhs rhs).HasSymbols :=
  foldl_addTerm_hasSymbols AffineTerm.coefficient rhs.terms h

theorem ofConstant_hasSymbols (constant : Int64) : (AffineExpr.ofConstant constant).HasSymbols := by
  simp [AffineExpr.HasSymbols, AffineExpr.ofConstant]

theorem empty_hasSymbols : AffineExpr.HasSymbols {} := ofConstant_hasSymbols 0

theorem mulExpr_hasSymbols (expr : AffineExpr) (factor : Int64) :
    (mulExpr expr factor).HasSymbols :=
  foldl_addTerm_hasSymbols (fun term => term.coefficient * factor) expr.terms
    (ofConstant_hasSymbols (expr.constant * factor))

theorem makeUnknownExpr_hasSymbols (value : Value) : (makeUnknownExpr value).HasSymbols :=
  addTerm_hasSymbols empty_hasSymbols _ _

theorem AffineExpr.Built.hasSymbols {expr : AffineExpr} (h : expr.Built) : expr.HasSymbols := by
  induction h with
  | ofConstant constant => exact ofConstant_hasSymbols constant
  | makeUnknownExpr value => exact makeUnknownExpr_hasSymbols value
  | addTerm _ symbol coefficient ih => exact addTerm_hasSymbols ih symbol coefficient
  | addExpr _ _ ih _ => exact addExpr_hasSymbols ih
  | mulExpr _ factor _ => exact mulExpr_hasSymbols _ factor

/-- No expression the translation returns has the null symbol. -/
theorem createExprFromSCEV_hasSymbols (canonicalIV : Nat → Option Value) (scev : SCEV) :
    (createExprFromSCEV canonicalIV scev).HasSymbols :=
  (createExprFromSCEV_built canonicalIV scev).hasSymbols

end Symbols

section Descriptors

variable (F : Function) (SE : ScalarEvolution)

/-- What a loop descriptor says about its loop. -/
structure Describes (L : Loop) (loop : LoopDescriptor) : Prop where
  loopNode : loop.loopNode = L
  induction : L.canonicalInductionVariable F = some loop.induction
  inductionName : loop.inductionName = F.valueNameOrFallback (some loop.induction) "iv"
  preheader : ∃ preheader, L.loopPreheader F = some preheader ∧
    F.incomingValueForBlock loop.induction preheader = some loop.startValue
  latch : ∃ latch, L.loopLatch F = some latch ∧
    F.incomingValueForBlock loop.induction latch = some loop.nextValue
  recurrence : ∃ start step header, SE.getSCEV loop.induction = .addRec start step header ∧
    loop.bounds.lower = SE.expr F start ∧ (SE.expr F step).terms = [] ∧
    loop.bounds.step = (SE.expr F step).constant ∧ 0 < loop.bounds.step
  upper : loop.bounds.upper = SE.expr F (SE.getSCEV loop.boundValue)
  exit : ∃ exiting, L.exitingBlock F = some exiting ∧ ∃ value type cond ifTrue ifFalse,
    F.terminator? exiting = some ⟨value, type, .condBr cond ifTrue ifFalse⟩ ∧ ∃ type,
      F.inst? cond = some ⟨loop.compare, type, .icmp loop.predicate loop.induction loop.boundValue⟩

variable {F SE}

theorem describes_of_buildLoopDescriptor {L : Loop} {loop : LoopDescriptor}
    (h : buildLoopDescriptor F SE L = some loop) : Describes F SE L loop := by
  unfold buildLoopDescriptor at h
  obtain ⟨induction, hinduction, h⟩ := Option.bind_eq_some_iff.mp h
  obtain ⟨preheader, hpreheader, h⟩ := Option.bind_eq_some_iff.mp h
  obtain ⟨exiting, hexiting, h⟩ := Option.bind_eq_some_iff.mp h
  obtain ⟨latch, hlatch, h⟩ := Option.bind_eq_some_iff.mp h
  obtain ⟨startValue, hstart, h⟩ := Option.bind_eq_some_iff.mp h
  obtain ⟨nextValue, hnext, h⟩ := Option.bind_eq_some_iff.mp h
  split at h
  · rename_i start step header hscev
    simp only at h
    split_ifs at h with hstep
    split at h
    · rename_i value type cond ifTrue ifFalse hterminator
      split at h
      · rename_i compare type' predicate lhs boundValue hcond
        split_ifs at h with hlhs
        obtain rfl := Option.some.inj h
        obtain rfl : lhs = induction := not_not.mp hlhs
        have hzero : (SE.expr F step).terms = [] ∧ 0 < (SE.expr F step).constant := by
          simpa using hstep
        exact {
          loopNode := rfl
          induction := hinduction
          inductionName := rfl
          preheader := ⟨preheader, hpreheader, hstart⟩
          latch := ⟨latch, hlatch, hnext⟩
          recurrence := ⟨start, step, header, hscev, rfl, hzero.1, rfl, hzero.2⟩
          upper := rfl
          exit := ⟨exiting, hexiting, value, type, cond, ifTrue, ifFalse, hterminator, type',
            hcond⟩ }
      · exact absurd h (by simp)
    · exact absurd h (by simp)
  · exact absurd h (by simp)

theorem forall₂_of_mapM {α β : Type} {f : α → Option β} {items : List α} {results : List β}
    (h : items.mapM f = some results) : List.Forall₂ (fun a b => f a = some b) items results := by
  induction items generalizing results with
  | nil =>
      obtain rfl : results = [] := by simpa using h.symm
      exact List.Forall₂.nil
  | cons item items ih =>
      rw [List.mapM_cons] at h
      obtain ⟨first, hfirst, hrest⟩ := Option.bind_eq_some_iff.mp h
      obtain ⟨rest, htail, heq⟩ := Option.bind_eq_some_iff.mp hrest
      obtain rfl := Option.some.inj heq
      exact List.Forall₂.cons hfirst (ih htail)

/-- A nest describes the loops of the chain below its root, one by one. -/
theorem describes_of_analyzeLoopNest {root : Loop} {nest : LoopNestDescriptor}
    (h : analyzeLoopNest F SE root = some nest) :
    2 ≤ nest.depth ∧ List.Forall₂ (Describes F SE) (linearizePerfectNest root) nest.loops ∧
      nest.accesses = collectMemoryAccesses F SE nest.loops := by
  unfold analyzeLoopNest at h
  simp only at h
  split_ifs at h with hshort
  obtain ⟨loops, hloops, rfl⟩ := Option.map_eq_some_iff.mp h
  have hdescribes := forall₂_of_mapM hloops
  refine ⟨?_, hdescribes.imp fun _ _ => describes_of_buildLoopDescriptor, rfl⟩
  have hlength := hdescribes.length_eq
  simp only [LoopNestDescriptor.depth]
  omega

/-- What ScalarEvolution answers about the given loops: a canonical induction
variable is the recurrence that starts at zero and adds one.  A constant is
itself. -/
structure ScalarEvolution.Sound (F : Function) (SE : ScalarEvolution) (loops : List Loop) :
    Prop where
  canonical : ∀ L ∈ loops, ∀ induction, L.canonicalInductionVariable F = some induction →
    ∃ width, SE.getSCEV induction = .addRec (.constant width 0) (.constant width 1) L.header
  constant : ∀ value (c : ConstInt), F.constant value = some c →
    SE.getSCEV value = .constant c.width c.bits
  loopOf : ∀ L ∈ loops, SE.loopOf L.header = some L

theorem expr_constant (width : Nat) (bits : BitVec width) :
    SE.expr F (.constant width bits) = .ofConstant (getSExtValue bits) := by
  rw [ScalarEvolution.expr, createExprFromSCEV]

theorem getSExtValue_zero (width : Nat) : getSExtValue (0 : BitVec width) = 0 := by
  simp [getSExtValue]

theorem Describes.lower_eq {L : Loop} {loop : LoopDescriptor} (h : Describes F SE L loop)
    {loops : List Loop} (hSE : SE.Sound F loops) (hL : L ∈ loops) :
    loop.bounds.lower = .ofConstant 0 := by
  obtain ⟨start, step, header, hscev, hlower, _⟩ := h.recurrence
  obtain ⟨width, hcanonical⟩ := hSE.canonical L hL loop.induction h.induction
  rw [hcanonical, SCEV.addRec.injEq] at hscev
  obtain ⟨rfl, _⟩ := hscev
  rw [hlower, expr_constant, getSExtValue_zero]

theorem flattenGEP_built (fuel : Nat) (pointer : Value) :
    ∀ expr ∈ (flattenGEP F SE fuel pointer).2, AffineExpr.Built expr := by
  induction fuel generalizing pointer with
  | zero => simp [flattenGEP]
  | succ fuel ih =>
      rw [flattenGEP]
      split
      · rename_i base indices _
        intro expr hexpr
        rcases List.mem_append.mp hexpr with hexpr | hexpr
        · exact ih base expr hexpr
        · obtain ⟨index, _, rfl⟩ := List.mem_map.mp hexpr
          exact createExprFromSCEV_built _ _
      · simp

theorem accessOf_built {inst : Inst} {access : MemoryAccess}
    (h : accessOf F SE inst = some access) :
    ∀ expr ∈ access.subscripts, AffineExpr.Built expr := by
  unfold accessOf at h
  simp only at h
  split at h
  · obtain rfl := Option.some.inj h
    exact flattenGEP_built _ _
  · obtain rfl := Option.some.inj h
    exact flattenGEP_built _ _
  · exact absurd h (by simp)

theorem collectMemoryAccesses_built {loops : List LoopDescriptor} {access : MemoryAccess}
    (h : access ∈ collectMemoryAccesses F SE loops) :
    ∀ expr ∈ access.subscripts, AffineExpr.Built expr := by
  rw [collectMemoryAccesses] at h
  split at h
  · exact absurd h (by simp)
  · obtain ⟨block, _, hmem⟩ := List.mem_flatMap.mp h
    obtain ⟨inst, _, hinst⟩ := List.mem_filterMap.mp hmem
    exact accessOf_built hinst

theorem map_loopNode {chain : List Loop} {loops : List LoopDescriptor}
    (h : List.Forall₂ (Describes F SE) chain loops) :
    loops.map LoopDescriptor.loopNode = chain := by
  induction h with
  | nil => rfl
  | cons hfirst _ ih => rw [List.map_cons, hfirst.loopNode, ih]

theorem exists_describes {root : Loop} {nest : LoopNestDescriptor}
    (h : analyzeLoopNest F SE root = some nest) {loop : LoopDescriptor}
    (hloop : loop ∈ nest.loops) : ∃ L ∈ linearizePerfectNest root, Describes F SE L loop := by
  obtain ⟨_, hloops, _⟩ := describes_of_analyzeLoopNest h
  obtain ⟨i, hi, rfl⟩ := List.getElem_of_mem hloop
  have hi' : i < (linearizePerfectNest root).length := hloops.length_eq ▸ hi
  exact ⟨_, List.getElem_mem hi', (List.forall₂_iff_get.mp hloops).2 i hi' hi⟩

/-- Every nest the analysis returns is well formed. -/
theorem wellFormed_of_analyzeLoopNest {root : Loop}
    (hSE : SE.Sound F (linearizePerfectNest root)) {nest : LoopNestDescriptor}
    (h : analyzeLoopNest F SE root = some nest) : nest.WellFormed F := by
  obtain ⟨hdepth, _, haccesses⟩ := describes_of_analyzeLoopNest h
  constructor
  · exact hdepth
  · intro loop hloop
    obtain ⟨L, _, hL⟩ := exists_describes h hloop
    exact hL.inductionName
  · intro loop hloop
    obtain ⟨L, hmem, hL⟩ := exists_describes h hloop
    rw [hL.lower_eq hSE hmem]
    rfl
  · intro loop hloop
    obtain ⟨L, _, hL⟩ := exists_describes h hloop
    rw [hL.upper]
    exact createExprFromSCEV_hasSymbols _ _
  · intro access haccess expr hexpr
    rw [haccesses] at haccess
    exact (collectMemoryAccesses_built haccess expr hexpr).hasSymbols

end Descriptors

section Program

/-- The instructions a nest of two loops has besides the loops themselves. -/
structure Payload where
  outerPhis : List Inst := []
  outer : List Inst := []
  innerPhis : List Inst := []
  inner : List Inst := []
  exit : List Inst := []

def exampleConstant (value : Value) : Option ConstInt :=
  [(8, ⟨32, 0⟩), (9, ⟨32, 1⟩), (10, ⟨32, 8⟩)].lookup value

/-- Two nested loops over `i` and `j` from 0 to 8. -/
def Payload.function (payload : Payload) (predicate : Predicate) : Function where
  blocks :=
    [(0, [⟨20, .void, .br 1⟩]),
      (1, ⟨1, .int 32, .phi [(8, 0), (5, 5)]⟩ :: payload.outerPhis ++
        [⟨3, .int 1, .icmp predicate 1 10⟩, ⟨21, .void, .condBr 3 2 6⟩]),
      (2, payload.outer ++ [⟨22, .void, .br 3⟩]),
      (3, ⟨2, .int 32, .phi [(8, 2), (6, 4)]⟩ :: payload.innerPhis ++
        [⟨4, .int 1, .icmp .slt 2 10⟩, ⟨23, .void, .condBr 4 4 5⟩]),
      (4, payload.inner ++ [⟨6, .int 32, .add 2 9⟩, ⟨24, .void, .br 3⟩]),
      (5, [⟨5, .int 32, .add 1 9⟩, ⟨25, .void, .br 1⟩]),
      (6, payload.exit ++ [⟨26, .void, .ret none⟩])]
  constant := exampleConstant
  argType _ := .ptr
  name value := [(1, "i"), (2, "j"), (30, "A"), (31, "B")].lookup value
  operand _ := "%0"

def exampleInner : Loop := .mk 3 [3, 4] []

def exampleOuter : Loop := .mk 1 [1, 2, 3, 4, 5] [exampleInner]

/-- ScalarEvolution on such a nest. -/
def exampleEvolution : ScalarEvolution where
  getSCEV value :=
    match exampleConstant value with
    | some c => .constant c.width c.bits
    | none =>
        if value = 1 then .addRec (.constant 32 0) (.constant 32 1) 1
        else if value = 2 then .addRec (.constant 32 0) (.constant 32 1) 3
        else .unknown value 32
  loopOf header := [exampleOuter, exampleInner].find? (·.header == header)

theorem exampleEvolution_sound {F : Function} (hconstant : F.constant = exampleConstant)
    (houter : exampleOuter.canonicalInductionVariable F = some 1)
    (hinner : exampleInner.canonicalInductionVariable F = some 2) :
    exampleEvolution.Sound F [exampleOuter, exampleInner] where
  canonical := by
    intro L hL induction hinduction
    refine ⟨32, ?_⟩
    rcases List.mem_pair.mp hL with rfl | rfl
    · obtain rfl : 1 = induction := Option.some.inj (houter.symm.trans hinduction)
      rfl
    · obtain rfl : 2 = induction := Option.some.inj (hinner.symm.trans hinduction)
      rfl
  constant := by
    intro value c hc
    rw [hconstant] at hc
    simp only [exampleEvolution, hc]
  loopOf := by
    intro L hL
    rcases List.mem_pair.mp hL with rfl | rfl
    · rfl
    · rfl

def exampleDescriptor (predicate : Predicate) : LoopDescriptor where
  loopNode := exampleOuter
  induction := 1
  nextValue := 5
  inductionName := "i"
  bounds := { lower := .ofConstant 0, upper := .ofConstant 8 }
  startValue := 8
  boundValue := 10
  compare := 3
  predicate := predicate

def exampleInnerDescriptor : LoopDescriptor where
  loopNode := exampleInner
  induction := 2
  nextValue := 6
  inductionName := "j"
  bounds := { lower := .ofConstant 0, upper := .ofConstant 8 }
  startValue := 8
  boundValue := 10
  compare := 4
  predicate := .slt

/-- The nest of such a function with the given accesses. -/
def exampleLoops (accesses : List MemoryAccess) : LoopNestDescriptor where
  loops := [exampleDescriptor .slt, exampleInnerDescriptor]
  accesses := accesses

example : analyzeLoopNest (Payload.function {} .slt) exampleEvolution exampleOuter =
    some (exampleLoops []) := rfl

def deepConstant (value : Value) : Option ConstInt :=
  [(8, ⟨32, 0⟩), (9, ⟨32, 1⟩), (10, ⟨32, 8⟩), (14, ⟨32, 16⟩), (15, ⟨32, 24⟩)].lookup value

/-- Three nested loops over `i < 8`, `j < 16` and `k < 24`, around `A[j] = f(A[j], i, k)`. -/
def deepFunction : Function where
  blocks :=
    [(0, [⟨20, .void, .br 1⟩]),
      (1, [⟨1, .int 32, .phi [(8, 0), (5, 8)]⟩, ⟨11, .int 1, .icmp .slt 1 10⟩,
        ⟨21, .void, .condBr 11 2 9⟩]),
      (2, [⟨22, .void, .br 3⟩]),
      (3, [⟨2, .int 32, .phi [(8, 2), (6, 7)]⟩, ⟨12, .int 1, .icmp .slt 2 14⟩,
        ⟨23, .void, .condBr 12 4 8⟩]),
      (4, [⟨24, .void, .br 5⟩]),
      (5, [⟨3, .int 32, .phi [(8, 4), (7, 6)]⟩, ⟨13, .int 1, .icmp .slt 3 15⟩,
        ⟨25, .void, .condBr 13 6 7⟩]),
      (6, [⟨40, .int 64, .compute [2]⟩, ⟨41, .ptr, .gep 30 [.elem 40 4]⟩, ⟨42, .int 32, .load 41⟩,
        ⟨43, .int 32, .compute [42, 1, 3]⟩, ⟨44, .void, .store 43 41⟩, ⟨7, .int 32, .add 3 9⟩,
        ⟨26, .void, .br 5⟩]),
      (7, [⟨6, .int 32, .add 2 9⟩, ⟨27, .void, .br 3⟩]),
      (8, [⟨5, .int 32, .add 1 9⟩, ⟨28, .void, .br 1⟩]),
      (9, [⟨29, .void, .ret none⟩])]
  constant := deepConstant
  argType _ := .ptr
  name value := [(1, "i"), (2, "j"), (3, "k"), (30, "A")].lookup value
  operand _ := "%0"

def deepInner : Loop := .mk 5 [5, 6] []

def deepMiddle : Loop := .mk 3 [3, 4, 5, 6, 7] [deepInner]

def deepOuter : Loop := .mk 1 [1, 2, 3, 4, 5, 6, 7, 8] [deepMiddle]

/-- ScalarEvolution on these loops; the index of the accesses is `j` in a wider type. -/
def deepEvolution : ScalarEvolution where
  getSCEV value :=
    match deepConstant value with
    | some c => .constant c.width c.bits
    | none =>
        if value = 1 then .addRec (.constant 32 0) (.constant 32 1) 1
        else if value = 2 then .addRec (.constant 32 0) (.constant 32 1) 3
        else if value = 3 then .addRec (.constant 32 0) (.constant 32 1) 5
        else if value = 40 then .sext 64 (.addRec (.constant 32 0) (.constant 32 1) 3)
        else .unknown value 32
  loopOf header := [deepOuter, deepMiddle, deepInner].find? (·.header == header)

theorem deepEvolution_sound :
    deepEvolution.Sound deepFunction [deepOuter, deepMiddle, deepInner] where
  canonical := by
    intro L hL induction hinduction
    refine ⟨32, ?_⟩
    simp only [List.mem_cons, List.not_mem_nil, or_false] at hL
    rcases hL with rfl | rfl | rfl
    · obtain rfl : 1 = induction := Option.some.inj hinduction
      rfl
    · obtain rfl : 2 = induction := Option.some.inj hinduction
      rfl
    · obtain rfl : 3 = induction := Option.some.inj hinduction
      rfl
  constant := by
    intro value c hc
    have hc' : deepConstant value = some c := hc
    simp only [deepEvolution, hc']
  loopOf := by
    intro L hL
    simp only [List.mem_cons, List.not_mem_nil, or_false] at hL
    rcases hL with rfl | rfl | rfl <;> rfl

def deepDescriptor (loopNode : Loop) (induction nextValue compare boundValue : Value)
    (inductionName : String) (upper : Int64) : LoopDescriptor where
  loopNode := loopNode
  induction := induction
  nextValue := nextValue
  inductionName := inductionName
  bounds := { lower := .ofConstant 0, upper := .ofConstant upper }
  startValue := 8
  boundValue := boundValue
  compare := compare
  predicate := .slt

def deepNest : LoopNestDescriptor where
  loops := [deepDescriptor deepOuter 1 5 11 10 "i" 8, deepDescriptor deepMiddle 2 6 12 14 "j" 16,
    deepDescriptor deepInner 3 7 13 15 "k" 24]
  accesses :=
    [⟨.load, 42, 30, "A", [makeUnknownExpr 2]⟩, ⟨.store, 44, 30, "A", [makeUnknownExpr 2]⟩]

theorem analyzeLoopNest_deepOuter :
    analyzeLoopNest deepFunction deepEvolution deepOuter = some deepNest := rfl

end Program

end PolyhedralPass
