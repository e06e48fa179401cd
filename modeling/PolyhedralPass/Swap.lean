/-
The edits of an interchange as one rewriting of the instructions of a function.
-/
import PolyhedralPass.Interchange
import PolyhedralPass.Ssa

namespace PolyhedralPass

section Kinds

@[simp] theorem GepIndex.value_mapValue (f : Value → Value) (index : GepIndex) :
    (index.mapValue f).value = f index.value := by
  cases index <;> rfl

namespace InstKind

theorem operands_mapOperands (f : Value → Value) (kind : InstKind) :
    (kind.mapOperands f).operands = kind.operands.map f := by
  cases kind with
  | phi incoming => simp [mapOperands, operands, Function.comp_def]
  | gep pointer indices => simp [mapOperands, operands, Function.comp_def]
  | ret value => cases value <;> rfl
  | _ => rfl

@[simp] theorem isTerminator_mapOperands (f : Value → Value) (kind : InstKind) :
    (kind.mapOperands f).isTerminator = kind.isTerminator := by
  cases kind <;> rfl

@[simp] theorem isPhi_mapOperands (f : Value → Value) (kind : InstKind) :
    (kind.mapOperands f).isPhi = kind.isPhi := by
  cases kind <;> rfl

@[simp] theorem isTerminator_setIncoming (block : BlockId) (value : Value) (kind : InstKind) :
    (kind.setIncoming block value).isTerminator = kind.isTerminator := by
  cases kind <;> rfl

@[simp] theorem successors_mapOperands (f : Value → Value) (kind : InstKind) :
    (kind.mapOperands f).successors = kind.successors := by
  cases kind <;> rfl

@[simp] theorem successors_setIncoming (block : BlockId) (value : Value) (kind : InstKind) :
    (kind.setIncoming block value).successors = kind.successors := by
  cases kind <;> rfl

@[simp] theorem successors_setBound (bound : Value) (kind : InstKind) :
    (kind.setBound bound).successors = kind.successors := by
  cases kind <;> rfl

@[simp] theorem isPhi_setIncoming (block : BlockId) (value : Value) (kind : InstKind) :
    (kind.setIncoming block value).isPhi = kind.isPhi := by
  cases kind <;> rfl

@[simp] theorem isPhi_setBound (bound : Value) (kind : InstKind) :
    (kind.setBound bound).isPhi = kind.isPhi := by
  cases kind <;> rfl

/-- Other operands are used at the same places. -/
theorem slots_mapOperands (f : Value → Value) (kind : InstKind) (block : BlockId) (index : Nat) :
    (kind.mapOperands f).slots block index =
      (kind.slots block index).map fun slot => (f slot.1, slot.2) := by
  have hother : ∀ kind : InstKind, (kind.mapOperands f).operands.map
      (fun value => (value, Place.before block index)) =
      (kind.operands.map fun value => (value, Place.before block index)).map
        fun slot => (f slot.1, slot.2) := by
    intro kind
    simp [operands_mapOperands, Function.comp_def]
  cases kind with
  | phi incoming => simp [mapOperands, slots, Function.comp_def]
  | _ => exact hother _

theorem mem_setFirstIncoming {block : BlockId} {value : Value}
    {incoming : List (Value × BlockId)} {entry : Value × BlockId}
    (h : entry ∈ setFirstIncoming block value incoming) : entry ∈ incoming ∨ entry.1 = value := by
  induction incoming with
  | nil => exact absurd h List.not_mem_nil
  | cons first rest ih =>
      rw [setFirstIncoming] at h
      split_ifs at h with heq
      · rcases List.mem_cons.mp h with rfl | h
        · exact Or.inr rfl
        · exact Or.inl (List.mem_cons_of_mem first h)
      · rcases List.mem_cons.mp h with rfl | h
        · exact Or.inl List.mem_cons_self
        · exact (ih h).imp_left (List.mem_cons_of_mem first)

/-- Only the first entry for the block is replaced. -/
theorem mem_setFirstIncoming_of_mem {block : BlockId} {value : Value}
    {incoming : List (Value × BlockId)} {entry : Value × BlockId} (h : entry ∈ incoming)
    (hfirst : (incoming.find? fun entry => entry.2 == block) ≠ some entry) :
    entry ∈ setFirstIncoming block value incoming := by
  induction incoming with
  | nil => exact absurd h List.not_mem_nil
  | cons first rest ih =>
      rw [setFirstIncoming]
      rw [List.find?_cons] at hfirst
      split_ifs with heq
      · rcases List.mem_cons.mp h with rfl | h
        · simp [heq] at hfirst
        · exact List.mem_cons_of_mem _ h
      · rcases List.mem_cons.mp h with rfl | h
        · exact List.mem_cons_self
        · have hne : (first.2 == block) = false := by simpa using heq
          rw [hne] at hfirst
          exact List.mem_cons_of_mem first (ih h hfirst)

theorem mem_slots_setIncoming {pred : BlockId} {value : Value} {kind : InstKind}
    {block : BlockId} {index : Nat} {slot : Value × Place}
    (h : slot ∈ (kind.setIncoming pred value).slots block index) :
    slot ∈ kind.slots block index ∨ slot.1 = value := by
  cases kind with
  | phi incoming =>
      obtain ⟨entry, hentry, rfl⟩ := List.mem_map.mp h
      exact (mem_setFirstIncoming hentry).imp_left fun hmem => List.mem_map.mpr ⟨entry, hmem, rfl⟩
  | _ => exact Or.inl h

theorem mem_slots_setBound {bound : Value} {kind : InstKind} {block : BlockId} {index : Nat}
    {slot : Value × Place} (h : slot ∈ (kind.setBound bound).slots block index) :
    slot ∈ kind.slots block index ∨ slot = (bound, .before block index) := by
  cases kind with
  | icmp pred lhs rhs =>
      rcases List.mem_pair.mp h with h | h
      · exact Or.inl (List.mem_pair.mpr (Or.inl h))
      · exact Or.inr h
  | _ => exact Or.inl h

end InstKind

end Kinds

section Rewriting

variable (F : Function) (preOuter preInner : BlockId) (outer inner : LoopDescriptor)

/-- The starts and bounds of two loops that change places. -/
def controlKind (inst : Inst) : InstKind :=
  let kind := inst.kind
  let kind := if inst.value = outer.induction then kind.setIncoming preOuter inner.startValue
    else kind
  let kind := if inst.value = inner.induction then kind.setIncoming preInner outer.startValue
    else kind
  let kind := if inst.value = outer.compare then kind.setBound inner.boundValue else kind
  if inst.value = inner.compare then kind.setBound outer.boundValue else kind

/-- An instruction behind an interchange. -/
def swapKind (block : BlockId) (inst : Inst) : InstKind :=
  (controlKind preOuter preInner outer inner inst).mapOperands (swapUse F outer inner block inst)

variable {F preOuter preInner outer inner}

theorem mem_insts_mapInsts {f : BlockId → Inst → InstKind} {block : BlockId} {inst : Inst}
    (h : inst ∈ F.insts block) :
    { inst with kind := f block inst } ∈ (F.mapInsts f).insts block := by
  rw [Function.insts_mapInsts]
  exact List.mem_map_of_mem (f := fun inst => { inst with kind := f block inst }) h

section Control

variable (preOuter preInner outer inner)

theorem controlKind_condBr {inst : Inst} {cond : Value} {ifTrue ifFalse : BlockId}
    (h : inst.kind = .condBr cond ifTrue ifFalse) :
    controlKind preOuter preInner outer inner inst = .condBr cond ifTrue ifFalse := by
  simp only [controlKind, h, InstKind.setIncoming, InstKind.setBound, ite_self]

theorem controlKind_icmp {inst : Inst} {predicate : Predicate} {lhs bound : Value}
    (h : inst.kind = .icmp predicate lhs bound) :
    ∃ bound', controlKind preOuter preInner outer inner inst = .icmp predicate lhs bound' := by
  simp only [controlKind, h, InstKind.setIncoming, ite_self]
  split_ifs <;> exact ⟨_, rfl⟩

theorem controlKind_phi {inst : Inst} {incoming : List (Value × BlockId)}
    (h : inst.kind = .phi incoming) (houter : inst.value ≠ outer.induction)
    (hinner : inst.value ≠ inner.induction) :
    controlKind preOuter preInner outer inner inst = .phi incoming := by
  simp only [controlKind, if_neg houter, if_neg hinner, h, InstKind.setBound, ite_self]

theorem exists_controlKind_phi {inst : Inst} {incoming : List (Value × BlockId)}
    (h : inst.kind = .phi incoming) :
    ∃ incoming', controlKind preOuter preInner outer inner inst = .phi incoming' := by
  simp only [controlKind, h, InstKind.setIncoming, InstKind.setBound]
  split_ifs <;> exact ⟨_, rfl⟩

end Control

theorem isPhi_controlKind (inst : Inst) :
    (controlKind preOuter preInner outer inner inst).isPhi = inst.kind.isPhi := by
  unfold controlKind
  simp only
  split_ifs <;> simp

theorem isTerminator_controlKind (inst : Inst) :
    (controlKind preOuter preInner outer inner inst).isTerminator = inst.kind.isTerminator := by
  unfold controlKind
  simp only
  split_ifs <;> simp

theorem successors_controlKind (inst : Inst) :
    (controlKind preOuter preInner outer inner inst).successors = inst.kind.successors := by
  unfold controlKind
  simp only
  split_ifs <;> simp

theorem keepsBranches_swapKind :
    Function.KeepsBranches (swapKind F preOuter preInner outer inner) where
  isTerminator := by
    intro block inst
    rw [swapKind, InstKind.isTerminator_mapOperands, isTerminator_controlKind]
  successors := by
    intro block inst
    rw [swapKind, InstKind.successors_mapOperands, successors_controlKind]

theorem mapInsts_mapInsts (f g : BlockId → Inst → InstKind) :
    (F.mapInsts f).mapInsts g = F.mapInsts fun block inst =>
      g block { inst with kind := f block inst } := by
  simp [Function.mapInsts, Function.comp_def]

theorem isControlInst_congr {F' : Function} (loop : LoopDescriptor)
    (hexit : loop.loopNode.exitBlock F' = loop.loopNode.exitBlock F) (block : BlockId)
    {user user' : Inst} (hvalue : user'.value = user.value)
    (hphi : user'.kind.isPhi = user.kind.isPhi) :
    loop.isControlInst F' block user' = loop.isControlInst F block user := by
  simp only [LoopDescriptor.isControlInst, hexit, hvalue, hphi]

/-- The function behind an interchange, up to the names. -/
theorem function_swapLoops (editor : Editor) :
    (editor.swapLoops preOuter preInner outer inner).function =
      editor.function.mapInsts (swapKind editor.function preOuter preInner outer inner) := by
  have hcontrol : ((((editor.updateInst outer.induction
      (InstKind.setIncoming preOuter inner.startValue)).updateInst inner.induction
      (InstKind.setIncoming preInner outer.startValue)).updateInst outer.compare
      (InstKind.setBound inner.boundValue)).updateInst inner.compare
      (InstKind.setBound outer.boundValue)).function =
      editor.function.mapInsts fun _ => controlKind preOuter preInner outer inner := by
    simp only [Editor.updateInst, Function.updateInst_eq_mapInsts, mapInsts_mapInsts]
    rfl
  simp only [Editor.swapLoops, Editor.swapUses, Editor.mapInsts, hcontrol, mapInsts_mapInsts]
  have hkeeps : Function.KeepsBranches
      fun (_ : BlockId) => controlKind preOuter preInner outer inner :=
    ⟨fun _ => isTerminator_controlKind, fun _ => successors_controlKind⟩
  congr 1
  funext block inst
  rw [swapKind]
  congr 1
  funext value
  have hcontrols : ∀ loop : LoopDescriptor,
      loop.isControlInst (editor.function.mapInsts fun _ => controlKind
        preOuter preInner outer inner)
        block { inst with kind := controlKind preOuter preInner outer inner inst } =
      loop.isControlInst editor.function block inst := by
    intro loop
    apply isControlInst_congr loop (hkeeps.exitBlock_eq _) block
    · rfl
    · exact isPhi_controlKind inst
  simp only [swapUse, hcontrols]

end Rewriting

section Success

variable {renamed : Function → Value → String} {nest nest' : LoopNestDescriptor}
  {idxOuter idxInner : Nat} {editor editor' : Editor}

/-- The loops and edits of an interchange that is made. -/
structure Interchanged (nest nest' : LoopNestDescriptor) (idxOuter idxInner : Nat)
    (editor editor' : Editor) (outer inner : LoopDescriptor) (preOuter preInner : BlockId) :
    Prop where
  getElem_outer : nest.loops[idxOuter]? = some outer
  getElem_inner : nest.loops[idxInner]? = some inner
  type_eq : editor.function.type outer.induction = editor.function.type inner.induction
  startBlock_outer : editor.startBlock outer = .ok preOuter
  startBlock_inner : editor.startBlock inner = .ok preInner
  nest_eq : nest' = nest.swapBounds idxOuter idxInner outer inner
  function_eq : ∃ name, editor'.function =
    { editor.function.mapInsts (swapKind editor.function preOuter preInner outer inner) with name }
  name_eq : ∀ value, value ≠ outer.induction → value ≠ inner.induction →
    editor'.function.name value = editor.function.name value

theorem applyLoopInterchange_eq
    (h : applyLoopInterchange renamed nest idxOuter idxInner editor = .ok (true, nest', editor')) :
    ∃ outer inner preOuter preInner nameOuter nameInner, nest.loops[idxOuter]? = some outer ∧
      nest.loops[idxInner]? = some inner ∧
      editor.function.type outer.induction = editor.function.type inner.induction ∧
      editor.startBlock outer = .ok preOuter ∧ editor.startBlock inner = .ok preInner ∧
      nest' = nest.swapBounds idxOuter idxInner outer inner ∧
      editor' = ((editor.swapLoops preOuter preInner outer inner).setName outer.induction
        nameOuter).setName inner.induction nameInner := by
  unfold applyLoopInterchange at h
  split at h
  · rename_i outer inner houter hinner
    split_ifs at h with htype
    · exact absurd (Prod.mk.inj (Except.ok.inj h)).1 (by simp)
    · obtain ⟨preOuter, hpreOuter, h⟩ := bind_eq_ok h
      obtain ⟨preInner, hpreInner, h⟩ := bind_eq_ok h
      obtain ⟨_, hrest⟩ := Prod.mk.inj (Except.ok.inj h)
      obtain ⟨rfl, rfl⟩ := Prod.mk.inj hrest
      exact ⟨outer, inner, preOuter, preInner, _, _, houter, hinner, not_not.mp htype, hpreOuter,
        hpreInner, rfl, rfl⟩
  · exact absurd (Prod.mk.inj (Except.ok.inj h)).1 (by simp)

theorem applyLoopInterchange_ok
    (h : applyLoopInterchange renamed nest idxOuter idxInner editor = .ok (true, nest', editor')) :
    ∃ outer inner preOuter preInner,
      Interchanged nest nest' idxOuter idxInner editor editor' outer inner preOuter preInner := by
  obtain ⟨outer, inner, preOuter, preInner, nameOuter, nameInner, houter, hinner, htype, hpreOuter,
    hpreInner, hnest, rfl⟩ := applyLoopInterchange_eq h
  refine ⟨outer, inner, preOuter, preInner, houter, hinner, htype, hpreOuter, hpreInner, hnest, ?_,
    ?_⟩
  · rw [← function_swapLoops]
    exact ⟨_, rfl⟩
  · intro value houterNe hinnerNe
    simp only [Editor.setName, Function.update_of_ne houterNe, Function.update_of_ne hinnerNe]
    rw [function_swapLoops]
    rfl

end Success

end PolyhedralPass
