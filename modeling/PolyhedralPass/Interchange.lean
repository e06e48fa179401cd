/-
Phase 3 of the pass, interchange: the edits `applyLoopInterchange` makes and the
choice `optimizeLoopOrder` makes between the loops.
-/
import PolyhedralPass.Analysis
import PolyhedralPass.Editor
import Mathlib.Data.List.Sort

namespace PolyhedralPass

section Uses

variable (F : Function)

/-- The users of an induction variable that belong to the control of its loop. -/
def LoopDescriptor.isControlInst (loop : LoopDescriptor) (block : BlockId) (user : Inst) : Bool :=
  user.value == loop.nextValue || user.value == loop.compare ||
    (user.kind.isPhi &&
      (block == loop.loopNode.header || loop.loopNode.exitBlock F == some block))

/-- The operand that stands where `value` stood: each induction variable gives way
to the other one, but for the uses in the control of its own loop. -/
def swapUse (outer inner : LoopDescriptor) (block : BlockId) (user : Inst) (value : Value) :
    Value :=
  if value = outer.induction then
    if outer.isControlInst F block user then value else inner.induction
  else if value = inner.induction then
    if inner.isControlInst F block user then value else outer.induction
  else value

end Uses

/-- The fields of two descriptors that `applyLoopInterchange` swaps; the loop, its
induction variable, its increment, its comparison and the predicate stay. -/
def LoopDescriptor.withBoundsOf (loop other : LoopDescriptor) : LoopDescriptor :=
  { loop with
    startValue := other.startValue
    boundValue := other.boundValue
    bounds := other.bounds
    inductionName := other.inductionName }

def LoopNestDescriptor.swapBounds (nest : LoopNestDescriptor) (idxOuter idxInner : Nat)
    (outer inner : LoopDescriptor) : LoopNestDescriptor :=
  { nest with
    loops := (nest.loops.set idxOuter (outer.withBoundsOf inner)).set idxInner
      (inner.withBoundsOf outer) }

namespace Editor

/-- The preheader of a loop, as long as the induction variable has a value for it. -/
def startBlock (editor : Editor) (loop : LoopDescriptor) : Except Fault BlockId :=
  match loop.loopNode.loopPreheader editor.function with
  | none => .error (.nullPreheader loop.loopNode.header)
  | some preheader =>
      if (editor.function.incomingValueForBlock loop.induction preheader).isSome then
        .ok preheader
      else .error (.noIncoming loop.induction preheader)

def swapUses (editor : Editor) (outer inner : LoopDescriptor) : Editor :=
  editor.mapInsts fun block user =>
    user.kind.mapOperands (swapUse editor.function outer inner block user)

/-- The edits of two loops that change places, the names of their induction
variables apart. -/
def swapLoops (editor : Editor) (preOuter preInner : BlockId) (outer inner : LoopDescriptor) :
    Editor :=
  let editor := editor.updateInst outer.induction (InstKind.setIncoming preOuter inner.startValue)
  let editor := editor.updateInst inner.induction (InstKind.setIncoming preInner outer.startValue)
  let editor := editor.updateInst outer.compare (InstKind.setBound inner.boundValue)
  let editor := editor.updateInst inner.compare (InstKind.setBound outer.boundValue)
  editor.swapUses outer inner

end Editor

section Interchange

-- The name a value gets when it is renamed.  LLVM keeps names apart by numbers, and
-- the second of the two names is taken from memory that the first renaming frees.
variable (renamed : Function → Value → String)

def applyLoopInterchange (nest : LoopNestDescriptor) (idxOuter idxInner : Nat) (editor : Editor) :
    Except Fault (Bool × LoopNestDescriptor × Editor) :=
  match nest.loops[idxOuter]?, nest.loops[idxInner]? with
  | some outer, some inner =>
      if editor.function.type outer.induction ≠ editor.function.type inner.induction then
        .ok (false, nest, editor)
      else do
        let preOuter ← editor.startBlock outer
        let preInner ← editor.startBlock inner
        let editor := editor.swapLoops preOuter preInner outer inner
        let editor := editor.setName outer.induction (renamed editor.function outer.induction)
        let editor := editor.setName inner.induction (renamed editor.function inner.induction)
        return (true, nest.swapBounds idxOuter idxInner outer inner, editor)
  | _, _ => .ok (false, nest, editor)

/-- The symbols of the last subscripts, one for each term. -/
def lastSubscriptSymbols (nest : LoopNestDescriptor) : List Value :=
  nest.accesses.flatMap fun access =>
    match access.subscripts.getLast? with
    | none => []
    | some last => last.terms.filterMap AffineTerm.symbol

-- The order of the pointers that are the keys of `Score`.
variable (address : Value → Nat)

/-- The first symbol with the largest score, in the order of the map. -/
def bestIV (nest : LoopNestDescriptor) : Option Value :=
  let symbols := lastSubscriptSymbols nest
  let keys := symbols.dedup.insertionSort fun a b => address a ≤ address b
  (keys.foldl (fun best symbol =>
    if symbols.count symbol > best.2 then (some symbol, symbols.count symbol) else best)
    (none, 0)).1

/-- The loop of the symbol, or loop 0. -/
def bestIdx (nest : LoopNestDescriptor) (best : Value) : Nat :=
  (nest.loops.findIdx? (·.induction == best)).getD 0

def optimizeLoopOrder (nest : LoopNestDescriptor) (editor : Editor) :
    Except Fault (Bool × LoopNestDescriptor × Editor) :=
  if nest.depth < 2 then .ok (false, nest, editor)
  else match bestIV address nest with
    | none => .ok (false, nest, editor)
    | some best =>
        let innermostIdx := nest.depth - 1
        if bestIdx nest best ≠ innermostIdx then
          applyLoopInterchange renamed nest (bestIdx nest best) innermostIdx editor
        else .ok (false, nest, editor)

end Interchange

end PolyhedralPass
