/-
Edits of a function: new blocks, new instructions and new targets of branches,
as the rewriting part of the pass makes them through the LLVM API.
-/
import PolyhedralPass.Ir
import Mathlib.Logic.Function.Basic

namespace PolyhedralPass

/-- What ends the whole compilation: the pass uses a null pointer, or an operand
that is not there. -/
inductive Fault
  | nullTerminator (block : BlockId)
  | noSuccessor (block : BlockId)
  | nullPreheader (header : BlockId)
  | noIncoming (phi : Value) (block : BlockId)
deriving DecidableEq

theorem bind_eq_ok {ε α β : Type} {x : Except ε α} {f : α → Except ε β} {b : β}
    (h : x >>= f = .ok b) : ∃ a, x = .ok a ∧ f a = .ok b := by
  cases x with
  | error e => exact absurd h (by simp [bind, Except.bind])
  | ok a => exact ⟨a, rfl, h⟩

/-- Another value for an index. -/
def GepIndex.mapValue (f : Value → Value) : GepIndex → GepIndex
  | elem index stride => elem (f index) stride
  | field index offset => field (f index) offset

namespace InstKind

/-- `setSuccessor` on a terminator. -/
def setSuccessor (index : Nat) (dest : BlockId) : InstKind → InstKind
  | br old => br (if index = 0 then dest else old)
  | condBr cond ifTrue ifFalse =>
      condBr cond (if index = 0 then dest else ifTrue) (if index = 1 then dest else ifFalse)
  | switch cond dests => switch cond (dests.set index dest)
  | kind => kind

/-- `addIncoming` on a PHI node. -/
def addIncoming (value : Value) (block : BlockId) : InstKind → InstKind
  | phi incoming => phi (incoming ++ [(value, block)])
  | kind => kind

/-- A new value for the first of the incoming edges that comes from a block. -/
def setFirstIncoming (block : BlockId) (value : Value) :
    List (Value × BlockId) → List (Value × BlockId)
  | [] => []
  | entry :: rest =>
      if entry.2 = block then (value, block) :: rest
      else entry :: setFirstIncoming block value rest

/-- `setIncomingValue` at the index that `getBasicBlockIndex` gives for a block. -/
def setIncoming (block : BlockId) (value : Value) : InstKind → InstKind
  | phi incoming => phi (setFirstIncoming block value incoming)
  | kind => kind

/-- A new value for the incoming edges that the test picks. -/
def setIncomingWhere (test : BlockId → Bool) (value : Value) : InstKind → InstKind
  | phi incoming => phi (incoming.map fun entry =>
      if test entry.2 then (value, entry.2) else entry)
  | kind => kind

/-- The second operand of a comparison. -/
def setBound (bound : Value) : InstKind → InstKind
  | icmp pred lhs _ => icmp pred lhs bound
  | kind => kind

/-- Another value for every operand. -/
def mapOperands (f : Value → Value) : InstKind → InstKind
  | phi incoming => phi (incoming.map fun entry => (f entry.1, entry.2))
  | add lhs rhs => add (f lhs) (f rhs)
  | icmp pred lhs rhs => icmp pred (f lhs) (f rhs)
  | select cond ifTrue ifFalse => select (f cond) (f ifTrue) (f ifFalse)
  | load pointer => load (f pointer)
  | store value pointer => store (f value) (f pointer)
  | gep pointer indices => gep (f pointer) (indices.map (GepIndex.mapValue f))
  | call args effects => call (args.map f) effects
  | atomicRMW pointer value => atomicRMW (f pointer) (f value)
  | cmpXchg pointer expected replacement => cmpXchg (f pointer) (f expected) (f replacement)
  | compute args => compute (args.map f)
  | br dest => br dest
  | condBr cond ifTrue ifFalse => condBr (f cond) ifTrue ifFalse
  | switch cond dests => switch (f cond) dests
  | ret value => ret (value.map f)

@[simp] theorem isTerminator_replaceSuccessorWith (old new : BlockId) (kind : InstKind) :
    (kind.replaceSuccessorWith old new).isTerminator = kind.isTerminator := by
  cases kind <;> rfl

@[simp] theorem isTerminator_addIncoming (value : Value) (block : BlockId) (kind : InstKind) :
    (kind.addIncoming value block).isTerminator = kind.isTerminator := by
  cases kind <;> rfl

@[simp] theorem isTerminator_setBound (bound : Value) (kind : InstKind) :
    (kind.setBound bound).isTerminator = kind.isTerminator := by
  cases kind <;> rfl

end InstKind

namespace Function

variable (F : Function)

/-- A change of the instructions of one block. -/
def updateBlock (block : BlockId) (f : List Inst → List Inst) : Function :=
  { F with blocks := F.blocks.map fun entry =>
      (entry.1, if entry.1 = block then f entry.2 else entry.2) }

/-- A change of one instruction, wherever it stands. -/
def updateInst (value : Value) (f : InstKind → InstKind) : Function :=
  { F with blocks := F.blocks.map fun entry =>
      (entry.1, entry.2.map fun inst =>
        if inst.value = value then { inst with kind := f inst.kind } else inst) }

/-- A change of every instruction, given the block it stands in. -/
def mapInsts (f : BlockId → Inst → InstKind) : Function :=
  { F with blocks := F.blocks.map fun entry =>
      (entry.1, entry.2.map fun inst => { inst with kind := f entry.1 inst }) }

/-- An empty block in front of another one, or at the end. -/
def insertBlock (block before : BlockId) : Function :=
  { F with blocks := F.blocks.takeWhile (·.1 != before) ++
      (block, []) :: F.blocks.dropWhile (·.1 != before) }

end Function

/-- A function under construction, with the identities of the next block and of
the next value. -/
structure Editor where
  function : Function
  nextBlock : BlockId
  nextValue : Value
  block_lt : ∀ entry ∈ function.blocks, entry.1 < nextBlock

namespace Editor

variable (editor : Editor)

def ofFunction (F : Function) (nextValue : Value) : Editor where
  function := F
  nextBlock := (F.blocks.map Prod.fst).foldr max 0 + 1
  nextValue := nextValue
  block_lt := by
    intro entry hentry
    have hle : ∀ ids : List Nat, ∀ n ∈ ids, n ≤ ids.foldr max 0 := by
      intro ids n hn
      induction ids with
      | nil => simp at hn
      | cons first rest ih =>
          rcases List.mem_cons.mp hn with rfl | hn
          · exact le_max_left _ _
          · exact (ih hn).trans (le_max_right _ _)
    exact Nat.lt_succ_of_le (hle _ _ (List.mem_map_of_mem hentry))

/-- `BasicBlock::Create` -/
def createBlock (before : BlockId) : BlockId × Editor :=
  (editor.nextBlock,
    { function := editor.function.insertBlock editor.nextBlock before
      nextBlock := editor.nextBlock + 1
      nextValue := editor.nextValue
      block_lt := by
        intro entry hentry
        simp only [Function.insertBlock, List.mem_append, List.mem_cons] at hentry
        rcases hentry with hentry | rfl | hentry
        · have hmem := (List.takeWhile_prefix _).subset hentry
          exact Nat.lt_succ_of_lt (editor.block_lt entry hmem)
        · exact Nat.lt_succ_self _
        · have hmem := (List.dropWhile_suffix _).subset hentry
          exact Nat.lt_succ_of_lt (editor.block_lt entry hmem) })

def updateBlock (block : BlockId) (f : List Inst → List Inst) : Editor :=
  { editor with
    function := editor.function.updateBlock block f
    block_lt := by
      intro entry hentry
      obtain ⟨old, hold, rfl⟩ := List.mem_map.mp hentry
      exact editor.block_lt old hold }

def updateInst (value : Value) (f : InstKind → InstKind) : Editor :=
  { editor with
    function := editor.function.updateInst value f
    block_lt := by
      intro entry hentry
      obtain ⟨old, hold, rfl⟩ := List.mem_map.mp hentry
      exact editor.block_lt old hold }

def mapInsts (f : BlockId → Inst → InstKind) : Editor :=
  { editor with
    function := editor.function.mapInsts f
    block_lt := by
      intro entry hentry
      obtain ⟨old, hold, rfl⟩ := List.mem_map.mp hentry
      exact editor.block_lt old hold }

/-- `setName` -/
def setName (value : Value) (name : String) : Editor :=
  { editor with
    function := { editor.function with
      name := Function.update editor.function.name value (some name) } }

/-- A value no instruction has, with its name. -/
def createValue (name : String) : Value × Editor :=
  (editor.nextValue,
    { editor with
      nextValue := editor.nextValue + 1
      function := { editor.function with
        name := Function.update editor.function.name editor.nextValue (some name) } })

/-- `ConstantInt::get` -/
def createConstant (type : IRType) (n : Nat) : Value × Editor :=
  (editor.nextValue,
    { editor with
      nextValue := editor.nextValue + 1
      function := { editor.function with
        constant := Function.update editor.function.constant editor.nextValue
          (some ⟨type.width, BitVec.ofNat type.width n⟩)
        argType := Function.update editor.function.argType editor.nextValue type } })

/-- An instruction at the end of a block. -/
def append (block : BlockId) (name : String) (type : IRType) (kind : InstKind) : Value × Editor :=
  let (value, editor) := editor.createValue name
  (value, editor.updateBlock block (· ++ [⟨value, type, kind⟩]))

/-- An instruction in front of the last one of a block. -/
def insertBeforeLast (block : BlockId) (name : String) (type : IRType) (kind : InstKind) :
    Value × Editor :=
  let (value, editor) := editor.createValue name
  (value, editor.updateBlock block fun insts =>
    insts.dropLast ++ ⟨value, type, kind⟩ :: insts.getLast?.toList)

/-- A change of the last instruction of a block. -/
def updateLast (block : BlockId) (f : InstKind → InstKind) : Editor :=
  editor.updateBlock block fun insts =>
    insts.dropLast ++ (insts.getLast?.map fun inst => { inst with kind := f inst.kind }).toList

/-- `getTerminator`, used without a test. -/
def getTerminator (block : BlockId) : Except Fault Inst :=
  match editor.function.terminator? block with
  | none => .error (.nullTerminator block)
  | some inst => .ok inst

section Blocks

variable {editor} {b block : BlockId}

/-- No instruction of a block is a terminator. -/
def Unterminated (editor : Editor) (block : BlockId) : Prop :=
  ∀ inst ∈ editor.function.insts block, inst.kind.isTerminator = false

theorem Unterminated.getTerminator (h : editor.Unterminated block) :
    editor.getTerminator block = .error (.nullTerminator block) := by
  have hnone : editor.function.terminator? block = none := by
    rw [Function.terminator?, Option.filter_eq_none_iff]
    intro inst hinst
    rw [h inst (List.mem_of_getLast? hinst)]
    exact Bool.false_ne_true
  rw [Editor.getTerminator, hnone]

theorem lookup_mapInsts (g : BlockId → List Inst → List Inst)
    (entries : List (BlockId × List Inst)) :
    (entries.map fun entry => (entry.1, g entry.1 entry.2)).lookup b =
      (entries.lookup b).map (g b) := by
  induction entries with
  | nil => rfl
  | cons entry entries ih =>
      rw [List.map_cons, List.lookup_cons, List.lookup_cons]
      by_cases heq : b = entry.1
      · subst heq
        simp
      · rw [beq_eq_false_iff_ne.mpr heq]
        exact ih

theorem insts_mapInsts {g : BlockId → List Inst → List Inst} {F : Function}
    (hnil : g b [] = []) :
    Function.insts { F with blocks := F.blocks.map fun entry => (entry.1, g entry.1 entry.2) } b =
      g b (F.insts b) := by
  rw [Function.insts, lookup_mapInsts, Function.insts]
  cases F.blocks.lookup b with
  | none => simp [hnil]
  | some insts => rfl

theorem insts_updateBlock_of_ne (editor : Editor) (f : List Inst → List Inst) (hne : b ≠ block) :
    (editor.updateBlock block f).function.insts b = editor.function.insts b := by
  have hinsts := insts_mapInsts (b := b) (F := editor.function)
    (g := fun c insts => if c = block then f insts else insts) (if_neg hne)
  rw [if_neg hne] at hinsts
  exact hinsts

theorem insts_updateBlock_of_mem {f : List Inst → List Inst}
    (hblock : block ∈ editor.function.blocks.map Prod.fst) :
    (editor.updateBlock block f).function.insts block = f (editor.function.insts block) := by
  simp only [Editor.updateBlock, Function.updateBlock, Function.insts,
    lookup_mapInsts fun c insts => if c = block then f insts else insts, if_true]
  cases hlookup : editor.function.blocks.lookup block with
  | none =>
      obtain ⟨entry, hentry, rfl⟩ := List.mem_map.mp hblock
      have hne := List.lookup_eq_none_iff.mp hlookup entry hentry
      simp at hne
  | some insts => rfl

theorem insts_updateBlock_self (editor : Editor) (f : List Inst → List Inst) :
    (editor.updateBlock block f).function.insts block = f (editor.function.insts block) ∨
      (editor.updateBlock block f).function.insts block = editor.function.insts block := by
  simp only [Editor.updateBlock, Function.updateBlock, Function.insts,
    lookup_mapInsts fun c insts => if c = block then f insts else insts, if_true]
  cases editor.function.blocks.lookup block with
  | none => exact Or.inr rfl
  | some insts => exact Or.inl rfl

theorem insts_updateInst (editor : Editor) (value : Value) (f : InstKind → InstKind) :
    (editor.updateInst value f).function.insts block = (editor.function.insts block).map fun inst =>
      if inst.value = value then { inst with kind := f inst.kind } else inst := by
  exact insts_mapInsts (F := editor.function)
    (g := fun _ insts => insts.map fun inst =>
      if inst.value = value then { inst with kind := f inst.kind } else inst) rfl

theorem insts_updateInst_of_fresh {value : Value} (f : InstKind → InstKind)
    (h : ∀ inst ∈ editor.function.insts block, inst.value ≠ value) :
    (editor.updateInst value f).function.insts block = editor.function.insts block := by
  rw [insts_updateInst]
  conv_rhs => rw [← List.map_id (editor.function.insts block)]
  apply List.map_congr_left
  intro inst hinst
  rw [if_neg (h inst hinst)]
  rfl

theorem insts_append_of_ne {name : String} {type : IRType} {kind : InstKind} (hne : b ≠ block) :
    (editor.append block name type kind).2.function.insts b = editor.function.insts b :=
  insts_updateBlock_of_ne (editor.createValue name).2 _ hne

theorem insts_append_of_mem {name : String} {type : IRType} {kind : InstKind}
    (hblock : block ∈ editor.function.blocks.map Prod.fst) :
    (editor.append block name type kind).2.function.insts block =
      editor.function.insts block ++ [⟨editor.nextValue, type, kind⟩] :=
  @insts_updateBlock_of_mem (editor.createValue name).2 block _ hblock

/-- The blocks of a function are the same after a change of one of them. -/
theorem ids_updateBlock (f : List Inst → List Inst) :
    (editor.updateBlock block f).function.blocks.map Prod.fst =
      editor.function.blocks.map Prod.fst := by
  simp [Editor.updateBlock, Function.updateBlock]

theorem ids_updateInst (value : Value) (f : InstKind → InstKind) :
    (editor.updateInst value f).function.blocks.map Prod.fst =
      editor.function.blocks.map Prod.fst := by
  simp [Editor.updateInst, Function.updateInst]

theorem ids_append (name : String) (type : IRType) (kind : InstKind) :
    (editor.append block name type kind).2.function.blocks.map Prod.fst =
      editor.function.blocks.map Prod.fst :=
  @ids_updateBlock (editor.createValue name).2 block _

/-- A change that adds no terminator leaves a block without one. -/
theorem Unterminated.updateBlock (h : editor.Unterminated b) {f : List Inst → List Inst}
    (hf : b = block → ∀ insts : List Inst, (∀ inst ∈ insts, inst.kind.isTerminator = false) →
      ∀ inst ∈ f insts, inst.kind.isTerminator = false) :
    (editor.updateBlock block f).Unterminated b := by
  intro inst hinst
  by_cases heq : b = block
  · simp only [Editor.updateBlock, Function.updateBlock, Function.insts,
      lookup_mapInsts fun c insts => if c = block then f insts else insts, if_pos heq] at hinst
    cases hlookup : editor.function.blocks.lookup b with
    | none => simp [hlookup] at hinst
    | some insts =>
        rw [hlookup, Option.map_some, Option.getD_some] at hinst
        refine hf heq insts ?_ inst hinst
        intro old hold
        exact h old (by simpa [Function.insts, hlookup] using hold)
  · rw [insts_updateBlock_of_ne editor f heq] at hinst
    exact h inst hinst

theorem Unterminated.append (h : editor.Unterminated b) {name : String} {type : IRType}
    {kind : InstKind} (hkind : b = block → kind.isTerminator = false) :
    (editor.append block name type kind).2.Unterminated b := by
  have hvalue : (editor.createValue name).2.Unterminated b := h
  apply hvalue.updateBlock
  intro heq insts hinsts inst hinst
  rcases List.mem_append.mp hinst with hinst | hinst
  · exact hinsts inst hinst
  · obtain rfl := List.mem_singleton.mp hinst
    exact hkind heq

theorem Unterminated.updateInst (h : editor.Unterminated b) {value : Value}
    {f : InstKind → InstKind} (hf : ∀ kind, (f kind).isTerminator = kind.isTerminator) :
    (editor.updateInst value f).Unterminated b := by
  intro inst hinst
  have hinsts := insts_mapInsts (b := b) (F := editor.function)
    (g := fun _ insts => insts.map fun inst =>
      if inst.value = value then { inst with kind := f inst.kind } else inst) rfl
  obtain ⟨old, hold, rfl⟩ := List.mem_map.mp (hinsts ▸ hinst)
  have hopen := h old hold
  split_ifs
  · exact (hf old.kind).trans hopen
  · exact hopen

theorem lookup_insertBlock {F : Function} {before : BlockId}
    (hblock : ∀ entry ∈ F.blocks, entry.1 ≠ block) :
    (F.insertBlock block before).blocks.lookup b =
      if b = block then some [] else F.blocks.lookup b := by
  have hfront : (F.blocks.takeWhile (·.1 != before)).lookup block = none := by
    rw [List.lookup_eq_none_iff]
    intro entry hentry
    have hne := hblock entry ((List.takeWhile_prefix _).subset hentry)
    simpa using hne.symm
  rw [Function.insertBlock, List.lookup_append, List.lookup_cons]
  split_ifs with heq
  · subst heq
    simp [hfront]
  · rw [beq_eq_false_iff_ne.mpr heq]
    conv_rhs => rw [← List.takeWhile_append_dropWhile (p := (·.1 != before)) (l := F.blocks)]
    rw [List.lookup_append]

theorem insts_createBlock (editor : Editor) (before : BlockId) :
    (editor.createBlock before).2.function.insts b =
      if b = editor.nextBlock then [] else editor.function.insts b := by
  have hblock : ∀ entry ∈ editor.function.blocks, entry.1 ≠ editor.nextBlock :=
    fun entry hentry => Nat.ne_of_lt (editor.block_lt entry hentry)
  simp only [createBlock, Function.insts, lookup_insertBlock hblock]
  split_ifs <;> rfl

/-- A new block has no terminator. -/
theorem unterminated_createBlock (editor : Editor) (before : BlockId) :
    (editor.createBlock before).2.Unterminated editor.nextBlock := by
  intro inst hinst
  rw [insts_createBlock, if_pos rfl] at hinst
  exact absurd hinst (List.not_mem_nil)

theorem Unterminated.createBlock (h : editor.Unterminated b) (before : BlockId) :
    (editor.createBlock before).2.Unterminated b := by
  intro inst hinst
  rw [insts_createBlock] at hinst
  split_ifs at hinst
  · exact absurd hinst (List.not_mem_nil)
  · exact h inst hinst

theorem Unterminated.updateLast (h : editor.Unterminated b) {f : InstKind → InstKind}
    (hf : ∀ kind, (f kind).isTerminator = kind.isTerminator) :
    (editor.updateLast block f).Unterminated b := by
  apply h.updateBlock
  intro _ insts hinsts inst hinst
  rcases List.mem_append.mp hinst with hinst | hinst
  · exact hinsts inst ((List.dropLast_sublist insts).subset hinst)
  · obtain ⟨old, hold, rfl⟩ := Option.map_eq_some_iff.mp (Option.mem_toList.mp hinst)
    exact (hf old.kind).trans (hinsts old (List.mem_of_getLast? hold))

/-- A block with a terminator is not the next one. -/
theorem lt_of_terminator {terminator : Inst}
    (h : editor.function.terminator? b = some terminator) : b < editor.nextBlock := by
  cases hlookup : editor.function.blocks.lookup b with
  | none => simp [Function.terminator?, Function.insts, hlookup] at h
  | some insts =>
      obtain ⟨front, back, heq, _⟩ := List.lookup_eq_some_iff.mp hlookup
      exact editor.block_lt (b, insts) (by simp [heq])

theorem terminator_createBlock {terminator : Inst}
    (h : editor.function.terminator? b = some terminator) (before : BlockId) :
    (editor.createBlock before).2.function.terminator? b = some terminator := by
  rw [Function.terminator?, insts_createBlock, if_neg (Nat.ne_of_lt (lt_of_terminator h))]
  exact h

end Blocks

end Editor

end PolyhedralPass
