/-
A function as it is executed, block by block: the PHI nodes take the values of the edge
the block is entered by, the instructions behind them follow one after the other, and the
terminator names the next block.
-/
import PolyhedralPass.Execution
import PolyhedralPass.Flow.Detour

namespace PolyhedralPass

section Words

/-- A value at run time: bits, and how many. -/
abbrev Word := ConstInt

/-- The sum, in the width of the first operand. -/
def ConstInt.add (a b : Word) : Word := ⟨a.width, a.bits + b.bits.setWidth a.width⟩

def ConstInt.compare (predicate : Predicate) (a b : Word) : Word :=
  ⟨1, BitVec.ofBool (predicate.eval a.bits (b.bits.setWidth a.width))⟩

def ConstInt.isTrue (a : Word) : Bool := a.bits.toNat != 0

/-- An integer in a register of the given width. -/
def wordOf (w : Nat) (n : Int) : Word := ⟨w, BitVec.ofInt w n⟩

@[simp] theorem isTrue_compare (predicate : Predicate) (a b : Word) :
    (ConstInt.compare predicate a b).isTrue =
      predicate.eval a.bits (b.bits.setWidth a.width) := by
  cases h : predicate.eval a.bits (b.bits.setWidth a.width) <;>
    simp [ConstInt.isTrue, ConstInt.compare, h]

theorem add_wordOf (w : Nat) (m n : Int) : (wordOf w m).add (wordOf w n) = wordOf w (m + n) := by
  have hsum : BitVec.ofInt w m + (BitVec.ofInt w n).setWidth w = BitVec.ofInt w (m + n) := by
    rw [BitVec.setWidth_eq, BitVec.ofInt_add]
  exact congrArg (ConstInt.mk w) hsum

theorem toInt_wordOf {w : Nat} {n : Int} (hlow : -2 ^ (w - 1) ≤ n) (hhigh : n < 2 ^ (w - 1))
    (hw : 0 < w) : (wordOf w n).bits.toInt = n := by
  have hpow : (2 : Int) ^ w = 2 * 2 ^ (w - 1) := by
    rw [← pow_succ', Nat.sub_add_cancel hw]
  have hcast : ((2 ^ w : Nat) : Int) = 2 ^ w := by norm_cast
  change (BitVec.ofInt w n).toInt = n
  rw [BitVec.toInt_ofInt]
  exact Int.bmod_eq_of_le (by omega) (by omega)

/-- How a small counter compares with a bound of its width. -/
theorem isTrue_compare_wordOf {w : Nat} (hw : 0 < w) {n : Int} (hn : 0 ≤ n) {bound : BitVec w}
    (hbound : n ≤ max 0 bound.toInt) :
    (ConstInt.compare .slt (wordOf w n) ⟨w, bound⟩).isTrue = decide (n < bound.toInt) := by
  have hlt := bound.toInt_lt
  have hpow : (0 : Int) < 2 ^ (w - 1) := by positivity
  have hint : (wordOf w n).bits.toInt = n := toInt_wordOf (by omega) (by omega) hw
  rw [isTrue_compare, Predicate.eval, BitVec.slt, hint]
  simp [wordOf]

end Words

section Step

/-- What the model leaves to the target: the instructions besides additions, comparisons
and selections, the memory behind a pointer, the case a switch takes, and the memory of an
array element. -/
structure Target (κ : Type) where
  compute : Value → List Word → Word
  address : Word → κ
  pick : Value → Word → Nat
  place : String × List Int → κ
  place_injective : Function.Injective place

structure Config (κ : Type) where
  block : BlockId
  pred : BlockId
  registers : Value → Word
  memory : κ → Word

def Config.state {κ : Type} (config : Config κ) : Straight.State Value κ Word :=
  ⟨config.registers, config.memory⟩

variable {κ : Type} [DecidableEq κ]

namespace Function

variable (F : Function) (target : Target κ)

/-- What the instruction of a value computes from its operands. -/
def machine : Straight.Machine Value κ Word where
  result dest operands :=
    match (F.inst? dest).map Inst.kind, operands with
    | some (.add _ _), [a, b] => a.add b
    | some (.icmp predicate _ _), [a, b] => ConstInt.compare predicate a b
    | some (.select _ _ _), [cond, a, b] => if cond.isTrue then a else b
    | _, _ => target.compute dest operands
  address := target.address

/-- The body of a nest on this target, with indices of one width. -/
def interpretation (w : Nat) (start : Value → Word) : Interpretation κ Word where
  machine := F.machine target
  index := wordOf w
  outside := start
  place := target.place
  place_injective := target.place_injective

/-- The instructions between the PHI nodes and the terminator. -/
def code (block : BlockId) : List (Straight.Line Value) :=
  ((F.insts block).filter fun inst => !inst.kind.isPhi && !inst.kind.isTerminator).map Inst.line

/-- The registers behind the PHI nodes, which take their values all at once. -/
def enter (config : Config κ) (value : Value) : Word :=
  if value ∈ (F.phis config.block).map Prod.fst then
    ((F.incomingValueForBlock value config.pred).map config.registers).getD
      (config.registers value)
  else config.registers value

/-- Loads and stores are all there is to memory. -/
def TouchesByAccess (block : BlockId) : Prop :=
  ∀ inst ∈ F.insts block, inst.kind.touchesMemory = true → inst.kind.isLoadOrStore = true

instance (block : BlockId) : Decidable (F.TouchesByAccess block) :=
  inferInstanceAs (Decidable (∀ inst ∈ F.insts block, _))

/-- The block a terminator names. -/
def chosen (terminator : Inst) (registers : Value → Word) : Option BlockId :=
  match terminator.kind with
  | .br dest => some dest
  | .condBr cond ifTrue ifFalse => some (if (registers cond).isTrue then ifTrue else ifFalse)
  | .switch cond dests => dests[target.pick terminator.value (registers cond)]?
  | _ => none

/-- The state behind the instructions of a block. -/
def behind (config : Config κ) : Straight.State Value κ Word :=
  Straight.exec (F.machine target) (F.code config.block) ⟨F.enter config, config.memory⟩

/-- One block.  There is no step from a block that returns, and none where memory is
touched by other means than loads and stores. -/
def stepBlock (config : Config κ) : Option (Config κ) :=
  if F.TouchesByAccess config.block then
    let state := F.behind target config
    ((F.terminator? config.block).bind fun terminator =>
      chosen target terminator state.registers).map fun succ =>
        ⟨succ, config.block, state.registers, state.memory⟩
  else none

/-- An execution, from one block to a later one. -/
def Steps : Config κ → Config κ → Prop := Flow.Reaches (F.stepBlock target)

/-- An execution that leaves some blocks with its last step at the earliest. -/
def Passes (home : List BlockId) : Config κ → Config κ → Prop :=
  Flow.ReachesIn (·.block ∈ home) (F.stepBlock target)

end Function

variable {F F' : Function} {target : Target κ}

theorem Function.Passes.head {home : List BlockId} {config config' config'' : Config κ}
    (hblock : config.block ∈ home) (h : F.stepBlock target config = some config')
    (h' : F.Passes target home config' config'') : F.Passes target home config config'' :=
  Flow.ReachesIn.head hblock h h'

omit [DecidableEq κ] in
/-- A block without PHI nodes is entered with the registers as they are. -/
theorem enter_of_phis_nil {config : Config κ} (h : F.phis config.block = []) :
    F.enter config = config.registers := by
  funext value
  simp [Function.enter, h]

theorem stepBlock_eq {config : Config κ} (htouches : F.TouchesByAccess config.block)
    {terminator : Inst} (hterminator : F.terminator? config.block = some terminator)
    {succ : BlockId}
    (hchosen : Function.chosen target terminator (F.behind target config).registers = some succ) :
    F.stepBlock target config = some ⟨succ, config.block, (F.behind target config).registers,
      (F.behind target config).memory⟩ := by
  simp only [Function.stepBlock, if_pos htouches, hterminator, Option.bind_some, hchosen,
    Option.map_some]

/-- What there is to a step. -/
theorem stepBlock_eq_some_iff {config config' : Config κ} :
    F.stepBlock target config = some config' ↔ F.TouchesByAccess config.block ∧
      ∃ terminator succ, F.terminator? config.block = some terminator ∧
        Function.chosen target terminator (F.behind target config).registers = some succ ∧
        config' = ⟨succ, config.block, (F.behind target config).registers,
          (F.behind target config).memory⟩ := by
  constructor
  · intro h
    unfold Function.stepBlock at h
    split_ifs at h with htouches
    obtain ⟨succ, hsucc, rfl⟩ := Option.map_eq_some_iff.mp h
    obtain ⟨terminator, hterminator, hchosen⟩ := Option.bind_eq_some_iff.mp hsucc
    exact ⟨htouches, terminator, succ, hterminator, hchosen, rfl⟩
  · rintro ⟨htouches, terminator, succ, hterminator, hchosen, rfl⟩
    exact stepBlock_eq htouches hterminator hchosen

omit [DecidableEq κ] in
/-- A terminator looks at its operands only. -/
theorem chosen_congr {terminator : Inst} {registers registers' : Value → Word}
    (h : ∀ operand ∈ terminator.kind.operands, registers' operand = registers operand) :
    Function.chosen target terminator registers' =
      Function.chosen target terminator registers := by
  obtain ⟨value, type, kind⟩ := terminator
  cases kind with
  | condBr cond _ _ => simp only [Function.chosen, h cond List.mem_cons_self]
  | switch cond _ => simp only [Function.chosen, h cond List.mem_cons_self]
  | _ => rfl

omit [DecidableEq κ] in
/-- It names one of its successors. -/
theorem mem_successors_of_chosen {terminator : Inst} {registers : Value → Word} {succ : BlockId}
    (h : Function.chosen target terminator registers = some succ) :
    succ ∈ terminator.kind.successors := by
  obtain ⟨value, type, kind⟩ := terminator
  cases kind with
  | br dest => exact List.mem_singleton.mpr (Option.some.inj h).symm
  | condBr cond ifTrue ifFalse =>
      rw [← Option.some.inj h]
      split_ifs <;> simp [InstKind.successors]
  | switch cond dests => exact List.mem_of_getElem? h
  | _ => exact absurd h (by simp [Function.chosen])

omit [DecidableEq κ] in
theorem machine_add {dest lhs rhs : Value} {type : IRType}
    (h : F.inst? dest = some ⟨dest, type, .add lhs rhs⟩) (a b : Word) :
    (F.machine target).result dest [a, b] = a.add b := by
  simp [Function.machine, h]

omit [DecidableEq κ] in
theorem machine_icmp {dest lhs rhs : Value} {type : IRType} {predicate : Predicate}
    (h : F.inst? dest = some ⟨dest, type, .icmp predicate lhs rhs⟩) (a b : Word) :
    (F.machine target).result dest [a, b] = ConstInt.compare predicate a b := by
  simp [Function.machine, h]

end Step

end PolyhedralPass
