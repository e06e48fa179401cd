/-
The part of LLVM IR the pass looks at: functions as lists of basic blocks,
the instruction kinds it tells apart, and the queries on blocks, values and
edges that it makes through the LLVM API.
-/
import PolyhedralPass.Affine

namespace PolyhedralPass

abbrev BlockId := Nat

inductive IRType
  | int (width : Nat)
  | ptr
  | float
  | void
deriving DecidableEq

/-- The width of an integer type. -/
def IRType.width : IRType → Nat
  | int width => width
  | _ => 0

/-- The integer predicates of `icmp`. -/
inductive Predicate
  | eq | ne | ugt | uge | ult | ule | sgt | sge | slt | sle
deriving DecidableEq

def Predicate.eval {w : Nat} : Predicate → BitVec w → BitVec w → Bool
  | eq, a, b => a == b
  | ne, a, b => a != b
  | ugt, a, b => b.ult a
  | uge, a, b => b.ule a
  | ult, a, b => a.ult b
  | ule, a, b => a.ule b
  | sgt, a, b => b.slt a
  | sge, a, b => b.sle a
  | slt, a, b => a.slt b
  | sle, a, b => a.sle b

/-- One index of a `getelementptr`: an index into an array-like type with the
size of its elements, or a field of a structure with its offset. -/
inductive GepIndex
  | elem (index : Value) (stride : Nat)
  | field (index : Value) (offset : Nat)
deriving DecidableEq

def GepIndex.value : GepIndex → Value
  | elem index _ => index
  | field index _ => index

/-- What a call may do to memory. -/
inductive MemoryEffects
  | none | read | write | readWrite
deriving DecidableEq

inductive InstKind
  | phi (incoming : List (Value × BlockId))
  | add (lhs rhs : Value)
  | icmp (pred : Predicate) (lhs rhs : Value)
  | select (cond ifTrue ifFalse : Value)
  | load (pointer : Value)
  | store (value pointer : Value)
  | gep (pointer : Value) (indices : List GepIndex)
  | call (args : List Value) (effects : MemoryEffects)
  | atomicRMW (pointer value : Value)
  | cmpXchg (pointer expected replacement : Value)
  /-- Any other instruction: arithmetic, casts, no access to memory. -/
  | compute (args : List Value)
  | br (dest : BlockId)
  | condBr (cond : Value) (ifTrue ifFalse : BlockId)
  | switch (cond : Value) (dests : List BlockId)
  | ret (value : Option Value)
deriving DecidableEq

structure Inst where
  value : Value
  type : IRType
  kind : InstKind
deriving DecidableEq

namespace InstKind

def isPhi : InstKind → Bool
  | phi _ => true
  | _ => false

def isTerminator : InstKind → Bool
  | br _ | condBr _ _ _ | switch _ _ | ret _ => true
  | _ => false

def successors : InstKind → List BlockId
  | br dest => [dest]
  | condBr _ ifTrue ifFalse => [ifTrue, ifFalse]
  | switch _ dests => dests
  | _ => []

/-- The values an instruction uses, in operand order. -/
def operands : InstKind → List Value
  | phi incoming => incoming.map Prod.fst
  | add lhs rhs => [lhs, rhs]
  | icmp _ lhs rhs => [lhs, rhs]
  | select cond ifTrue ifFalse => [cond, ifTrue, ifFalse]
  | load pointer => [pointer]
  | store value pointer => [value, pointer]
  | gep pointer indices => pointer :: indices.map GepIndex.value
  | call args _ => args
  | atomicRMW pointer value => [pointer, value]
  | cmpXchg pointer expected replacement => [pointer, expected, replacement]
  | compute args => args
  | br _ => []
  | condBr cond _ _ => [cond]
  | switch cond _ => [cond]
  | ret value => value.toList

def mayReadFromMemory : InstKind → Bool
  | load _ | atomicRMW _ _ | cmpXchg _ _ _ => true
  | call _ effects => effects == .read || effects == .readWrite
  | _ => false

def mayWriteToMemory : InstKind → Bool
  | store _ _ | atomicRMW _ _ | cmpXchg _ _ _ => true
  | call _ effects => effects == .write || effects == .readWrite
  | _ => false

/-- `User::replaceSuccessorWith` on a terminator. -/
def replaceSuccessorWith (old new : BlockId) : InstKind → InstKind
  | br dest => br (if dest = old then new else dest)
  | condBr cond ifTrue ifFalse =>
      condBr cond (if ifTrue = old then new else ifTrue)
        (if ifFalse = old then new else ifFalse)
  | switch cond dests => switch cond (dests.map fun dest => if dest = old then new else dest)
  | kind => kind

end InstKind

/-- The integer constant behind a value, `ConstantInt`. -/
structure ConstInt where
  width : Nat
  bits : BitVec width
deriving DecidableEq

/-- A function.  `constant` gives the integer constants, `type` the types of
the values that no instruction defines, `name` the names of the named values
and `operand` what `printAsOperand` prints for the unnamed ones. -/
structure Function where
  blocks : List (BlockId × List Inst)
  constant : Value → Option ConstInt
  argType : Value → IRType
  name : Value → Option String
  operand : Value → String

namespace Function

variable (F : Function)

def insts (block : BlockId) : List Inst := (F.blocks.lookup block).getD []

def allInsts : List Inst := F.blocks.flatMap Prod.snd

/-- The instruction that defines a value. -/
def inst? (value : Value) : Option Inst := F.allInsts.find? (·.value == value)

def type (value : Value) : IRType :=
  ((F.inst? value).map Inst.type).getD (F.argType value)

/-- `BasicBlock::getTerminator`: null unless the last instruction is one. -/
def terminator? (block : BlockId) : Option Inst :=
  (F.insts block).getLast?.filter (·.kind.isTerminator)

def successors (block : BlockId) : List BlockId :=
  ((F.terminator? block).map (·.kind.successors)).getD []

/-- `predecessors`: a block once for every edge from it. -/
def predecessors (block : BlockId) : List BlockId :=
  F.blocks.flatMap fun pred =>
    ((F.successors pred.1).filter (· == block)).map fun _ => pred.1

/-- The PHI nodes at the head of a block. -/
def phis (block : BlockId) : List (Value × List (Value × BlockId)) :=
  (F.insts block).filterMap fun inst =>
    match inst.kind with
    | .phi incoming => some (inst.value, incoming)
    | _ => none

/-- `PHINode::getIncomingValueForBlock` -/
def incomingValueForBlock (phi : Value) (block : BlockId) : Option Value :=
  match F.inst? phi with
  | some ⟨_, _, .phi incoming⟩ =>
      (incoming.find? fun entry => entry.2 == block).map Prod.fst
  | _ => none

/-- The test `getCanonicalInductionVariable` makes on one PHI node: it starts at
zero and is incremented by one on the back edge. -/
def isCanonicalPhi (incoming backedge : BlockId) (phi : Value) : Bool :=
  (((F.incomingValueForBlock phi incoming).bind F.constant).any
      fun start => start.bits == 0) &&
  match (F.incomingValueForBlock phi backedge).bind F.inst? with
  | some ⟨_, _, .add lhs rhs⟩ =>
      lhs == phi && (F.constant rhs).any fun step => step.bits == 1
  | _ => false

def valueNameOrFallback (value : Option Value) (fallback : String) : String :=
  match value with
  | none => fallback
  | some value => (F.name value).getD (F.operand value)

end Function

/-- A natural loop of `LoopInfo`: its header, all its blocks (the header first,
those of the inner loops included) and the loops directly inside it. -/
inductive Loop
  | mk (header : BlockId) (blocks : List BlockId) (subLoops : List Loop)

namespace Loop

def header : Loop → BlockId
  | mk header _ _ => header

def blocks : Loop → List BlockId
  | mk _ blocks _ => blocks

variable (L : Loop)

def contains (block : BlockId) : Bool := L.blocks.contains block

/-- The single value of a list with exactly one element. -/
def onlyElement {α : Type} : List α → Option α
  | [a] => some a
  | _ => none

variable (F : Function)

/-- `getLoopPredecessor`: the one block outside the loop that enters it. -/
def loopPredecessor : Option BlockId :=
  onlyElement ((F.predecessors L.header).filter fun pred => !L.contains pred).dedup

def loopPreheader : Option BlockId :=
  (L.loopPredecessor F).filter fun pred => (F.successors pred).length == 1

/-- `getLoopLatch`: the one edge from inside the loop back to its header. -/
def loopLatch : Option BlockId :=
  onlyElement ((F.predecessors L.header).filter fun pred => L.contains pred)

def isExiting (block : BlockId) : Bool :=
  (F.successors block).any fun succ => !L.contains succ

/-- `getExitingBlock`: the one block of the loop with an edge out of it. -/
def exitingBlock : Option BlockId :=
  onlyElement (L.blocks.filter fun block => L.isExiting F block)

/-- `getExitBlock`: the target of the one edge out of the loop. -/
def exitBlock : Option BlockId :=
  onlyElement (L.blocks.flatMap fun block =>
    (F.successors block).filter fun succ => !L.contains succ)

/-- `getIncomingAndBackEdge`: the header has two predecessors, one outside. -/
def incomingAndBackEdge : Option (BlockId × BlockId) :=
  match F.predecessors L.header with
  | [a, b] =>
      if L.contains a && !L.contains b then some (b, a)
      else if L.contains b && !L.contains a then some (a, b)
      else none
  | _ => none

def canonicalInductionVariable : Option Value :=
  (L.incomingAndBackEdge F).bind fun (incoming, backedge) =>
    ((F.phis L.header).map Prod.fst).find? (F.isCanonicalPhi incoming backedge)

end Loop

end PolyhedralPass
