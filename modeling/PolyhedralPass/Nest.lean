/-
Phase 1 of the pass: from the loops of a function to the descriptor of a nest,
its loop bounds and its memory accesses.
-/
import PolyhedralPass.Ir
import PolyhedralPass.Scev

namespace PolyhedralPass

structure LoopBound where
  lower : AffineExpr
  upper : AffineExpr
  step : Int64 := 1
deriving DecidableEq

inductive AccessKind
  | load | store
deriving DecidableEq

structure MemoryAccess where
  accessKind : AccessKind
  inst : Value
  basePointer : Value
  baseName : String
  subscripts : List AffineExpr
deriving DecidableEq

structure LoopDescriptor where
  loopNode : Loop
  induction : Value
  nextValue : Value
  inductionName : String
  bounds : LoopBound
  startValue : Value
  boundValue : Value
  compare : Value
  predicate : Predicate

structure LoopNestDescriptor where
  loops : List LoopDescriptor
  accesses : List MemoryAccess

def LoopNestDescriptor.depth (nest : LoopNestDescriptor) : Nat := nest.loops.length

/-- What ScalarEvolution and LoopInfo answer: the SCEV of a value, and the loops
an add-recurrence may name. -/
structure ScalarEvolution where
  getSCEV : Value → SCEV
  loopOf : Nat → Option Loop

section Analysis

variable (F : Function) (SE : ScalarEvolution)

/-- `createExprFromSCEV` with the canonical induction variables of the function. -/
def ScalarEvolution.expr (scev : SCEV) : AffineExpr :=
  createExprFromSCEV
    (fun loop => (SE.loopOf loop).bind fun L => L.canonicalInductionVariable F) scev

/-- `flattenGEP`, down a chain of at most `fuel` address computations. -/
def flattenGEP : Nat → Value → Value × List AffineExpr
  | 0, pointer => (pointer, [])
  | fuel + 1, pointer =>
      match F.inst? pointer with
      | some ⟨_, _, .gep base indices⟩ =>
          let flattened := flattenGEP fuel base
          (flattened.1, flattened.2 ++
            indices.map fun index => SE.expr F (SE.getSCEV index.value))
      | _ => (pointer, [])

/-- A chain of address computations cannot be longer than the function. -/
def flattenPointer (pointer : Value) : Value × List AffineExpr :=
  flattenGEP F SE F.allInsts.length pointer

def buildLoopDescriptor (L : Loop) : Option LoopDescriptor := do
  let induction ← L.canonicalInductionVariable F
  let preheader ← L.loopPreheader F
  let exiting ← L.exitingBlock F
  let latch ← L.loopLatch F
  let startValue ← F.incomingValueForBlock induction preheader
  let nextValue ← F.incomingValueForBlock induction latch
  match SE.getSCEV induction with
  | .addRec start step _ =>
      let stepExpr := SE.expr F step
      if !stepExpr.terms.isEmpty || stepExpr.constant ≤ 0 then none
      else
        match F.terminator? exiting with
        | some ⟨_, _, .condBr cond _ _⟩ =>
            match F.inst? cond with
            | some ⟨compare, _, .icmp predicate lhs boundValue⟩ =>
                if lhs ≠ induction then none
                else some {
                  loopNode := L
                  induction, nextValue, startValue, boundValue, compare, predicate
                  inductionName := F.valueNameOrFallback (some induction) "iv"
                  bounds := {
                    lower := SE.expr F start
                    upper := SE.expr F (SE.getSCEV boundValue)
                    step := stepExpr.constant } }
            | _ => none
        | _ => none
  | _ => none

mutual

/-- The chain of only sub-loops below a loop, the loop itself first. -/
def linearizePerfectNest : Loop → List Loop
  | .mk header blocks subLoops => .mk header blocks subLoops :: linearizeOnlyChild subLoops

def linearizeOnlyChild : List Loop → List Loop
  | [child] => linearizePerfectNest child
  | _ => []

end

/-- The access a load or a store makes; any other instruction is passed over. -/
def accessOf (inst : Inst) : Option MemoryAccess :=
  let access (kind : AccessKind) (pointer : Value) : MemoryAccess :=
    let flattened := flattenPointer F SE pointer
    { accessKind := kind
      inst := inst.value
      basePointer := flattened.1
      baseName := F.valueNameOrFallback (some flattened.1) "ptr"
      subscripts := flattened.2 }
  match inst.kind with
  | .load pointer => some (access .load pointer)
  | .store _ pointer => some (access .store pointer)
  | _ => none

def collectMemoryAccesses (loops : List LoopDescriptor) : List MemoryAccess :=
  match loops.getLast? with
  | none => []
  | some innermost => innermost.loopNode.blocks.flatMap fun block =>
      (F.insts block).filterMap (accessOf F SE)

def analyzeLoopNest (root : Loop) : Option LoopNestDescriptor :=
  let perfectLoops := linearizePerfectNest root
  if perfectLoops.length < 2 then none
  else (perfectLoops.mapM (buildLoopDescriptor F SE)).map fun loops =>
    { loops, accesses := collectMemoryAccesses F SE loops }

end Analysis

/-- The pairs of the two nested loops: every loop with the loops around it. -/
def isRectangularNest (nest : LoopNestDescriptor) : Bool :=
  (List.range nest.depth).all fun i =>
    match nest.loops[i]? with
    | none => true
    | some loop => loop.bounds.step == 1 &&
        (nest.loops.take i).all fun outer =>
          !(exprMentionsSymbol loop.bounds.lower outer.induction ||
            exprMentionsSymbol loop.bounds.upper outer.induction)

end PolyhedralPass
