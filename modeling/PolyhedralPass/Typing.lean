/-
The types of the operands of a function, and the edits that keep them right.
-/
import PolyhedralPass.Swap

namespace PolyhedralPass

section Rules

/-- The operands of an instruction have the types it asks for. -/
def InstKind.Typed (types : Value → IRType) (type : IRType) : InstKind → Prop
  | .phi incoming => ∀ entry ∈ incoming, types entry.1 = type
  | .add lhs rhs => types lhs = type ∧ types rhs = type
  | .icmp _ lhs rhs => types lhs = types rhs
  | .select cond ifTrue ifFalse =>
      types cond = .int 1 ∧ types ifTrue = type ∧ types ifFalse = type
  | _ => True

instance (types : Value → IRType) (type : IRType) :
    (kind : InstKind) → Decidable (kind.Typed types type)
  | .phi incoming => inferInstanceAs (Decidable (∀ entry ∈ incoming, types entry.1 = type))
  | .add lhs rhs => inferInstanceAs (Decidable (types lhs = type ∧ types rhs = type))
  | .icmp _ lhs rhs => inferInstanceAs (Decidable (types lhs = types rhs))
  | .select cond ifTrue ifFalse => inferInstanceAs
      (Decidable (types cond = .int 1 ∧ types ifTrue = type ∧ types ifFalse = type))
  | .load _ | .store _ _ | .gep _ _ | .call _ _ | .atomicRMW _ _ | .cmpXchg _ _ _ | .compute _
  | .br _ | .condBr _ _ _ | .switch _ _ | .ret _ => isTrue trivial

/-- Every instruction has the type of its value, and operands of the right types. -/
def Function.WellTyped (F : Function) : Prop :=
  ∀ inst ∈ F.allInsts, F.type inst.value = inst.type ∧ inst.kind.Typed F.type inst.type

instance (F : Function) : Decidable F.WellTyped :=
  inferInstanceAs (Decidable (∀ inst ∈ F.allInsts,
    F.type inst.value = inst.type ∧ inst.kind.Typed F.type inst.type))

theorem InstKind.typed_congr {types types' : Value → IRType} {type : IRType} {kind : InstKind}
    (h : ∀ value ∈ kind.operands, types value = types' value) :
    kind.Typed types type ↔ kind.Typed types' type := by
  cases kind with
  | phi incoming =>
      have hentry : ∀ entry ∈ incoming, types entry.1 = types' entry.1 :=
        fun entry hentry => h entry.1 (List.mem_map_of_mem hentry)
      simp only [Typed]
      constructor
      · intro htyped entry hmem
        rw [← hentry entry hmem, htyped entry hmem]
      · intro htyped entry hmem
        rw [hentry entry hmem, htyped entry hmem]
  | add lhs rhs => simp only [Typed, h lhs (by simp [operands]), h rhs (by simp [operands])]
  | icmp predicate lhs rhs =>
      simp only [Typed, h lhs (by simp [operands]), h rhs (by simp [operands])]
  | select cond ifTrue ifFalse =>
      simp only [Typed, h cond (by simp [operands]), h ifTrue (by simp [operands]),
        h ifFalse (by simp [operands])]
  | _ => rfl

/-- The first operand of a comparison. -/
def InstKind.compared : InstKind → Option Value
  | .icmp _ lhs _ => some lhs
  | _ => none

/-- An instruction of a function with its type. -/
def Inst.declaration (inst : Inst) : Value × IRType := (inst.value, inst.type)

/-- The types of the instructions decide on those of all values. -/
theorem Function.type_congr {F F' : Function}
    (hinsts : F'.allInsts.map Inst.declaration = F.allInsts.map Inst.declaration)
    (harg : F'.argType = F.argType) : F'.type = F.type := by
  have htype : ∀ (G : Function) (value : Value), G.type value =
      (((G.allInsts.map Inst.declaration).find? (·.1 == value)).map Prod.snd).getD
        (G.argType value) := by
    intro G value
    rw [List.find?_map, Option.map_map]
    rfl
  funext value
  rw [htype F', htype F, hinsts, harg]

/-- New targets for a branch. -/
def InstKind.Retargets (f : InstKind → InstKind) : Prop :=
  ∀ kind, f kind = kind ∨ kind.isTerminator = true ∧ (f kind).isTerminator = true ∧
    (f kind).operands = kind.operands

theorem InstKind.retargets_replaceSuccessorWith (old new : BlockId) :
    Retargets (replaceSuccessorWith old new) := by
  intro kind
  cases kind with
  | br _ | condBr _ _ _ | switch _ _ => exact Or.inr ⟨rfl, rfl, rfl⟩
  | _ => exact Or.inl rfl

theorem InstKind.retargets_setSuccessor (index : Nat) (dest : BlockId) :
    Retargets (setSuccessor index dest) := by
  intro kind
  cases kind with
  | br _ | condBr _ _ _ | switch _ _ => exact Or.inr ⟨rfl, rfl, rfl⟩
  | _ => exact Or.inl rfl

theorem InstKind.typed_of_isTerminator (types : Value → IRType) (type : IRType) {kind : InstKind}
    (h : kind.isTerminator = true) : kind.Typed types type := by
  cases kind <;> trivial

theorem InstKind.compared_of_isTerminator {kind : InstKind} (h : kind.isTerminator = true) :
    kind.compared = none := by
  cases kind <;> first | rfl | exact absurd h (by simp [isTerminator])

theorem InstKind.typed_mapOperands {types : Value → IRType} {type : IRType} {f : Value → Value}
    {kind : InstKind} (hf : ∀ value ∈ kind.operands, types (f value) = types value)
    (h : kind.Typed types type) : (kind.mapOperands f).Typed types type := by
  cases kind with
  | phi incoming =>
      intro entry hentry
      obtain ⟨old, hold, rfl⟩ := List.mem_map.mp hentry
      exact (hf old.1 (List.mem_map_of_mem hold)).trans (h old hold)
  | add lhs rhs =>
      exact ⟨(hf lhs (by simp [operands])).trans h.1, (hf rhs (by simp [operands])).trans h.2⟩
  | icmp predicate lhs rhs =>
      exact (hf lhs (by simp [operands])).trans (Eq.trans h (hf rhs (by simp [operands])).symm)
  | select cond ifTrue ifFalse =>
      exact ⟨(hf cond (by simp [operands])).trans h.1,
        (hf ifTrue (by simp [operands])).trans h.2.1,
        (hf ifFalse (by simp [operands])).trans h.2.2⟩
  | _ => trivial

theorem InstKind.compared_mapOperands (f : Value → Value) (kind : InstKind) :
    (kind.mapOperands f).compared = kind.compared.map f := by
  cases kind <;> rfl

end Rules

namespace Editor

variable {editor editor' editor'' : Editor} {type : IRType}

/-- A value that is there already, with its type. -/
structure Has (editor : Editor) (type : IRType) (value : Value) : Prop where
  lt : value < editor.nextValue
  type_eq : editor.function.type value = type

/-- A function under construction whose values are older than the next one, and have the
types of their instructions. -/
structure Declared (editor : Editor) : Prop where
  value_lt : ∀ inst ∈ editor.function.allInsts, inst.value < editor.nextValue
  type_eq : ∀ inst ∈ editor.function.allInsts, editor.function.type inst.value = inst.type

/-- The same with old operands of the right types. -/
structure Typed (editor : Editor) : Prop where
  value_lt : ∀ inst ∈ editor.function.allInsts, inst.value < editor.nextValue
  operand_lt : ∀ inst ∈ editor.function.allInsts, ∀ value ∈ inst.kind.operands,
    value < editor.nextValue
  wellTyped : editor.function.WellTyped

theorem Typed.declared (h : editor.Typed) : editor.Declared :=
  ⟨h.value_lt, fun inst hinst => (h.wellTyped inst hinst).1⟩

/-- Edits that leave the types of the old values alone, and what the comparisons compare. -/
structure Kept (editor editor' : Editor) : Prop where
  nextValue_le : editor.nextValue ≤ editor'.nextValue
  type_eq : ∀ value < editor.nextValue,
    editor'.function.type value = editor.function.type value
  compared : ∀ inst ∈ editor'.function.allInsts, inst.value < editor.nextValue →
    ∃ old ∈ editor.function.allInsts, old.value = inst.value ∧
      old.kind.compared = inst.kind.compared

theorem Kept.refl (editor : Editor) : editor.Kept editor :=
  ⟨le_refl _, fun _ _ => rfl, fun inst hinst _ => ⟨inst, hinst, rfl, rfl⟩⟩

theorem Kept.trans (h : editor.Kept editor') (h' : editor'.Kept editor'') :
    editor.Kept editor'' where
  nextValue_le := h.nextValue_le.trans h'.nextValue_le
  type_eq := fun value hvalue =>
    (h'.type_eq value (lt_of_lt_of_le hvalue h.nextValue_le)).trans (h.type_eq value hvalue)
  compared := by
    intro inst hinst hlt
    obtain ⟨middle, hmiddle, hvalue, hcompared⟩ :=
      h'.compared inst hinst (lt_of_lt_of_le hlt h.nextValue_le)
    obtain ⟨old, hold, hvalue', hcompared'⟩ := h.compared middle hmiddle (hvalue ▸ hlt)
    exact ⟨old, hold, hvalue'.trans hvalue, hcompared'.trans hcompared⟩

theorem Has.kept {value : Value} (h : editor.Has type value) (hkept : editor.Kept editor') :
    editor'.Has type value :=
  ⟨lt_of_lt_of_le h.lt hkept.nextValue_le, (hkept.type_eq value h.lt).trans h.type_eq⟩

section Changes

/-- Edits that change nothing but the kinds of instructions. -/
structure SameTypes (editor editor' : Editor) : Prop where
  insts : editor'.function.allInsts.map Inst.declaration =
    editor.function.allInsts.map Inst.declaration
  argType : editor'.function.argType = editor.function.argType
  nextValue : editor'.nextValue = editor.nextValue

theorem SameTypes.type_eq (h : editor.SameTypes editor') :
    editor'.function.type = editor.function.type :=
  Function.type_congr h.insts h.argType

theorem SameTypes.trans (h : editor.SameTypes editor') (h' : editor'.SameTypes editor'') :
    editor.SameTypes editor'' :=
  ⟨h'.insts.trans h.insts, h'.argType.trans h.argType, h'.nextValue.trans h.nextValue⟩

theorem SameTypes.declared (h : editor.SameTypes editor') (hold : editor.Declared) :
    editor'.Declared := by
  have hmem : ∀ inst ∈ editor'.function.allInsts, ∃ old ∈ editor.function.allInsts,
      old.value = inst.value ∧ old.type = inst.type := by
    intro inst hinst
    have hdeclaration := List.mem_map_of_mem (f := Inst.declaration) hinst
    rw [h.insts] at hdeclaration
    obtain ⟨old, hmem, heq⟩ := List.mem_map.mp hdeclaration
    exact ⟨old, hmem, congrArg Prod.fst heq, congrArg Prod.snd heq⟩
  constructor
  · intro inst hinst
    obtain ⟨old, hmem, hvalue, _⟩ := hmem inst hinst
    rw [h.nextValue, ← hvalue]
    exact hold.value_lt old hmem
  · intro inst hinst
    obtain ⟨old, hmem, hvalue, htype⟩ := hmem inst hinst
    rw [h.type_eq, ← hvalue, ← htype]
    exact hold.type_eq old hmem

/-- New kinds with operands of the right types. -/
theorem SameTypes.typed (h : editor.SameTypes editor') (hold : editor.Declared)
    (hkind : ∀ inst ∈ editor'.function.allInsts,
      (∀ value ∈ inst.kind.operands, value < editor.nextValue) ∧
        inst.kind.Typed editor.function.type inst.type) : editor'.Typed where
  value_lt := (h.declared hold).value_lt
  operand_lt := by
    intro inst hinst
    rw [h.nextValue]
    exact (hkind inst hinst).1
  wellTyped := by
    intro inst hinst
    refine ⟨(h.declared hold).type_eq inst hinst, ?_⟩
    rw [h.type_eq]
    exact (hkind inst hinst).2

theorem SameTypes.kept (h : editor.SameTypes editor')
    (hcompared : ∀ inst ∈ editor'.function.allInsts, ∃ old ∈ editor.function.allInsts,
      old.value = inst.value ∧ old.kind.compared = inst.kind.compared) : editor.Kept editor' where
  nextValue_le := h.nextValue.ge
  type_eq := fun value _ => congrFun h.type_eq value
  compared := fun inst hinst _ => hcompared inst hinst

theorem allInsts_updateInst (value : Value) (f : InstKind → InstKind) :
    (editor.updateInst value f).function.allInsts = editor.function.allInsts.map fun inst =>
      if inst.value = value then { inst with kind := f inst.kind } else inst := by
  simp only [Editor.updateInst, Function.updateInst, Function.allInsts, List.flatMap_map,
    List.map_flatMap]

theorem sameTypes_updateInst (value : Value) (f : InstKind → InstKind) :
    editor.SameTypes (editor.updateInst value f) where
  insts := by
    rw [allInsts_updateInst, List.map_map]
    apply List.map_congr_left
    intro inst _
    simp only [Function.comp_apply]
    split_ifs <;> rfl
  argType := rfl
  nextValue := rfl

/-- A change of one instruction keeps the types when the new operands fit. -/
theorem Typed.updateInst (h : editor.Typed) {value : Value} {f : InstKind → InstKind}
    (hf : ∀ inst ∈ editor.function.allInsts, inst.value = value →
      (∀ operand ∈ (f inst.kind).operands, operand < editor.nextValue) ∧
        (f inst.kind).Typed editor.function.type inst.type) :
    (editor.updateInst value f).Typed := by
  refine (sameTypes_updateInst value f).typed h.declared ?_
  intro inst hinst
  rw [allInsts_updateInst] at hinst
  obtain ⟨old, hold, rfl⟩ := List.mem_map.mp hinst
  split_ifs with hvalue
  · exact hf old hold hvalue
  · exact ⟨h.operand_lt old hold, (h.wellTyped old hold).2⟩

theorem kept_updateInst (value : Value) {f : InstKind → InstKind}
    (hf : ∀ kind, (f kind).compared = kind.compared) : editor.Kept (editor.updateInst value f) := by
  refine (sameTypes_updateInst value f).kept ?_
  intro inst hinst
  rw [allInsts_updateInst] at hinst
  obtain ⟨old, hold, rfl⟩ := List.mem_map.mp hinst
  refine ⟨old, hold, ?_⟩
  split_ifs
  · exact ⟨rfl, (hf old.kind).symm⟩
  · exact ⟨rfl, rfl⟩

theorem allInsts_createBlock (editor : Editor) (before : BlockId) :
    (editor.createBlock before).2.function.allInsts = editor.function.allInsts := by
  have hsplit : editor.function.blocks.takeWhile (·.1 != before) ++
      editor.function.blocks.dropWhile (·.1 != before) = editor.function.blocks :=
    List.takeWhile_append_dropWhile
  simp only [Editor.createBlock, Function.insertBlock, Function.allInsts, List.flatMap_append,
    List.flatMap_cons, List.nil_append]
  rw [← List.flatMap_append, hsplit]

theorem sameTypes_createBlock (before : BlockId) :
    editor.SameTypes (editor.createBlock before).2 :=
  ⟨congrArg _ (allInsts_createBlock editor before), rfl, rfl⟩

theorem kept_createBlock (before : BlockId) : editor.Kept (editor.createBlock before).2 :=
  (sameTypes_createBlock before).kept fun inst hinst =>
    ⟨inst, allInsts_createBlock editor before ▸ hinst, rfl, rfl⟩

theorem mem_updateLast {f : InstKind → InstKind} {insts : List Inst} {inst : Inst}
    (h : inst ∈ insts.dropLast ++
      (insts.getLast?.map fun last => { last with kind := f last.kind }).toList) :
    ∃ old ∈ insts, inst = old ∨ inst = { old with kind := f old.kind } := by
  rcases List.mem_append.mp h with h | h
  · exact ⟨inst, (List.dropLast_sublist insts).subset h, Or.inl rfl⟩
  · obtain ⟨old, hold, rfl⟩ := Option.map_eq_some_iff.mp (Option.mem_toList.mp h)
    exact ⟨old, List.mem_of_getLast? hold, Or.inr rfl⟩

theorem map_updateLast (f : InstKind → InstKind) (insts : List Inst) :
    (insts.dropLast ++ (insts.getLast?.map fun inst : Inst =>
      { inst with kind := f inst.kind }).toList).map Inst.declaration =
      insts.map Inst.declaration := by
  rcases List.eq_nil_or_concat insts with rfl | ⟨front, last, rfl⟩
  · rfl
  · simp [Inst.declaration]

theorem sameTypes_updateLast (block : BlockId) (f : InstKind → InstKind) :
    editor.SameTypes (editor.updateLast block f) where
  insts := by
    simp only [Editor.updateLast, Editor.updateBlock, Function.updateBlock, Function.allInsts,
      List.flatMap_map, List.map_flatMap]
    apply List.flatMap_congr
    intro entry _
    split_ifs
    · exact map_updateLast f entry.2
    · rfl
  argType := rfl
  nextValue := rfl

theorem mem_allInsts_updateLast {block : BlockId} {f : InstKind → InstKind} {inst : Inst}
    (h : inst ∈ (editor.updateLast block f).function.allInsts) :
    ∃ old ∈ editor.function.allInsts, inst = old ∨ inst = { old with kind := f old.kind } := by
  simp only [Editor.updateLast, Editor.updateBlock, Function.updateBlock, Function.allInsts,
    List.mem_flatMap, List.mem_map] at h
  obtain ⟨_, ⟨entry, hentry, rfl⟩, hinst⟩ := h
  have hmem : ∀ old ∈ entry.2, old ∈ editor.function.allInsts :=
    fun old hold => List.mem_flatMap.mpr ⟨entry, hentry, hold⟩
  simp only at hinst
  split_ifs at hinst
  · obtain ⟨old, hold, hcase⟩ := mem_updateLast hinst
    exact ⟨old, hmem old hold, hcase⟩
  · exact ⟨inst, hmem inst hinst, Or.inl rfl⟩

/-- Other targets of a branch change no type. -/
theorem Typed.updateLast (h : editor.Typed) (block : BlockId) {f : InstKind → InstKind}
    (hf : InstKind.Retargets f) : (editor.updateLast block f).Typed := by
  refine (sameTypes_updateLast block f).typed h.declared ?_
  intro inst hinst
  obtain ⟨old, hold, rfl | rfl⟩ := mem_allInsts_updateLast hinst
  · exact ⟨h.operand_lt inst hold, (h.wellTyped inst hold).2⟩
  · rcases hf old.kind with hsame | ⟨_, hterminator, hoperands⟩
    · simp only [hsame]
      exact ⟨h.operand_lt old hold, (h.wellTyped old hold).2⟩
    · simp only [hoperands]
      exact ⟨h.operand_lt old hold, InstKind.typed_of_isTerminator _ _ hterminator⟩

theorem kept_updateLast (block : BlockId) {f : InstKind → InstKind} (hf : InstKind.Retargets f) :
    editor.Kept (editor.updateLast block f) := by
  refine (sameTypes_updateLast block f).kept ?_
  intro inst hinst
  obtain ⟨old, hold, rfl | rfl⟩ := mem_allInsts_updateLast hinst
  · exact ⟨inst, hold, rfl, rfl⟩
  · refine ⟨old, hold, rfl, ?_⟩
    rcases hf old.kind with hsame | ⟨hbefore, hafter, _⟩
    · simp only [hsame]
    · rw [InstKind.compared_of_isTerminator hbefore, InstKind.compared_of_isTerminator hafter]

end Changes

section Insertions

/-- A new instruction somewhere in the function. -/
structure Inserts (editor editor' : Editor) (inst : Inst) : Prop where
  value : inst.value = editor.nextValue
  nextValue : editor'.nextValue = editor.nextValue + 1
  mem_iff : ∀ other, other ∈ editor'.function.allInsts ↔
    other ∈ editor.function.allInsts ∨ other = inst
  argType : editor'.function.argType = editor.function.argType

theorem mem_allInsts_updateBlock (editor : Editor) {block : BlockId} {f : List Inst → List Inst}
    {inst : Inst} (hf : ∀ insts other, other ∈ f insts ↔ other ∈ insts ∨ other = inst)
    (hblock : block ∈ editor.function.blocks.map Prod.fst) (other : Inst) :
    other ∈ (editor.updateBlock block f).function.allInsts ↔
      other ∈ editor.function.allInsts ∨ other = inst := by
  simp only [Editor.updateBlock, Function.updateBlock, Function.allInsts, List.mem_flatMap,
    List.mem_map]
  constructor
  · rintro ⟨_, ⟨entry, hentry, rfl⟩, hother⟩
    simp only at hother
    split_ifs at hother
    · exact ((hf entry.2 other).mp hother).imp_left fun hold => ⟨entry, hentry, hold⟩
    · exact Or.inl ⟨entry, hentry, hother⟩
  · rintro (⟨entry, hentry, hother⟩ | rfl)
    · refine ⟨_, ⟨entry, hentry, rfl⟩, ?_⟩
      simp only
      split_ifs
      · exact (hf entry.2 other).mpr (Or.inl hother)
      · exact hother
    · obtain ⟨entry, hentry, rfl⟩ := List.mem_map.mp hblock
      refine ⟨_, ⟨entry, hentry, rfl⟩, ?_⟩
      simp only [if_true]
      exact (hf entry.2 other).mpr (Or.inr rfl)

theorem inserts_append {block : BlockId} (hblock : block ∈ editor.function.blocks.map Prod.fst)
    (name : String) (type : IRType) (kind : InstKind) :
    Inserts editor (editor.append block name type kind).2 ⟨editor.nextValue, type, kind⟩ where
  value := rfl
  nextValue := rfl
  mem_iff := mem_allInsts_updateBlock (editor.createValue name).2
    (fun insts other => by rw [List.mem_append, List.mem_singleton]) hblock
  argType := rfl

theorem inserts_insertBeforeLast {block : BlockId}
    (hblock : block ∈ editor.function.blocks.map Prod.fst) (name : String) (type : IRType)
    (kind : InstKind) :
    Inserts editor (editor.insertBeforeLast block name type kind).2
      ⟨editor.nextValue, type, kind⟩ where
  value := rfl
  nextValue := rfl
  mem_iff := by
    refine mem_allInsts_updateBlock (editor.createValue name).2 ?_ hblock
    intro insts other
    have hsplit : other ∈ insts ↔ other ∈ insts.dropLast ∨ other ∈ insts.getLast? := by
      cases hlast : insts.getLast? with
      | none => simp [List.getLast?_eq_none_iff.mp hlast]
      | some last =>
          obtain ⟨front, rfl⟩ := List.getLast?_eq_some_iff.mp hlast
          simp [eq_comm]
    rw [List.mem_append, List.mem_cons, Option.mem_toList, hsplit]
    tauto
  argType := rfl

variable {inst : Inst}

/-- The values that were there keep their types. -/
theorem Inserts.type_eq (h : Inserts editor editor' inst) (hold : editor.Declared)
    {value : Value} (hne : value ≠ editor.nextValue) :
    editor'.function.type value = editor.function.type value := by
  cases hfind : editor'.function.inst? value with
  | some found =>
      have hvalue : found.value = value := by simpa using List.find?_some hfind
      have hmem := (h.mem_iff found).mp (List.mem_of_find?_eq_some hfind)
      rcases hmem with hmem | rfl
      · rw [Function.type, hfind, ← hvalue, hold.type_eq found hmem]
        rfl
      · exact absurd (hvalue.symm.trans h.value) hne
  | none =>
      have hnone : editor.function.inst? value = none := by
        rw [Function.inst?, List.find?_eq_none] at hfind ⊢
        exact fun other hother => hfind other ((h.mem_iff other).mpr (Or.inl hother))
      rw [Function.type, hfind, Function.type, hnone, h.argType]

theorem Inserts.type_new (h : Inserts editor editor' inst) (hold : editor.Declared) :
    editor'.function.type editor.nextValue = inst.type := by
  cases hfind : editor'.function.inst? editor.nextValue with
  | some found =>
      have hvalue : found.value = editor.nextValue := by simpa using List.find?_some hfind
      have hmem := (h.mem_iff found).mp (List.mem_of_find?_eq_some hfind)
      rcases hmem with hmem | rfl
      · exact absurd (hold.value_lt found hmem) (Nat.not_lt.mpr hvalue.ge)
      · rw [Function.type, hfind]
        rfl
  | none =>
      rw [Function.inst?, List.find?_eq_none] at hfind
      have hnot := hfind inst ((h.mem_iff inst).mpr (Or.inr rfl))
      exact absurd h.value (by simpa using hnot)

theorem Inserts.declared (h : Inserts editor editor' inst) (hold : editor.Declared) :
    editor'.Declared where
  value_lt := by
    intro other hother
    rw [h.nextValue]
    rcases (h.mem_iff other).mp hother with hother | rfl
    · exact Nat.lt_succ_of_lt (hold.value_lt other hother)
    · rw [h.value]
      exact Nat.lt_succ_self _
  type_eq := by
    intro other hother
    rcases (h.mem_iff other).mp hother with hother | rfl
    · rw [h.type_eq hold (Nat.ne_of_lt (hold.value_lt other hother)), hold.type_eq other hother]
    · rw [h.value]
      exact h.type_new hold

/-- An instruction with the right types may be added. -/
theorem Inserts.typed (h : Inserts editor editor' inst) (hold : editor.Typed)
    (hoperands : ∀ value ∈ inst.kind.operands, value < editor.nextValue)
    (htyped : inst.kind.Typed editor.function.type inst.type) : editor'.Typed where
  value_lt := (h.declared hold.declared).value_lt
  operand_lt := by
    intro other hother value hvalue
    rw [h.nextValue]
    rcases (h.mem_iff other).mp hother with hother | rfl
    · exact Nat.lt_succ_of_lt (hold.operand_lt other hother value hvalue)
    · exact Nat.lt_succ_of_lt (hoperands value hvalue)
  wellTyped := by
    intro other hother
    refine ⟨(h.declared hold.declared).type_eq other hother, ?_⟩
    have hkept : ∀ value < editor.nextValue,
        editor'.function.type value = editor.function.type value :=
      fun value hvalue => h.type_eq hold.declared (Nat.ne_of_lt hvalue)
    rcases (h.mem_iff other).mp hother with hother | rfl
    · exact (InstKind.typed_congr fun value hvalue =>
        hkept value (hold.operand_lt other hother value hvalue)).mpr (hold.wellTyped other hother).2
    · exact (InstKind.typed_congr fun value hvalue => hkept value (hoperands value hvalue)).mpr
        htyped

/-- The rest of the function stays as it was. -/
theorem Inserts.kept (h : Inserts editor editor' inst) (hold : editor.Declared) :
    editor.Kept editor' where
  nextValue_le := by
    rw [h.nextValue]
    exact Nat.le_succ _
  type_eq := fun value hvalue => h.type_eq hold (Nat.ne_of_lt hvalue)
  compared := by
    intro other hother hlt
    rcases (h.mem_iff other).mp hother with hother | rfl
    · exact ⟨other, hother, rfl, rfl⟩
    · exact absurd hlt (Nat.not_lt.mpr h.value.ge)

theorem Inserts.has_new (h : Inserts editor editor' inst) (hold : editor.Declared) :
    editor'.Has inst.type editor.nextValue where
  lt := by
    rw [h.nextValue]
    exact Nat.lt_succ_self _
  type_eq := h.type_new hold

end Insertions

section Operands

variable {phi value compare bound : Value}

/-- A PHI node may take a value of its type. -/
theorem Typed.updatePhi (h : editor.Typed) (hphi : editor.Has type phi)
    (hvalue : editor.Has type value) {f : InstKind → InstKind}
    (hf : ∀ kind, f kind = kind ∨ ∃ incoming incoming', kind = .phi incoming ∧
      f kind = .phi incoming' ∧
        ∀ entry ∈ incoming', entry.1 = value ∨ ∃ old ∈ incoming, old.1 = entry.1) :
    (editor.updateInst phi f).Typed := by
  refine h.updateInst fun inst hinst heq => ?_
  obtain ⟨hself, htyped⟩ := h.wellTyped inst hinst
  have hold := h.operand_lt inst hinst
  rw [heq, hphi.type_eq] at hself
  rcases hf inst.kind with hsame | ⟨incoming, incoming', hkind, hnew, hentries⟩
  · rw [hsame]
    exact ⟨hold, htyped⟩
  · rw [hnew]
    rw [hkind] at hold htyped
    simp only [InstKind.operands, InstKind.Typed, List.mem_map] at hold htyped ⊢
    constructor
    · rintro operand ⟨entry, hentry, rfl⟩
      rcases hentries entry hentry with heq | ⟨old, hmem, heq⟩
      · rw [heq]
        exact hvalue.lt
      · rw [← heq]
        exact hold old.1 ⟨old, hmem, rfl⟩
    · intro entry hentry
      rcases hentries entry hentry with heq | ⟨old, hmem, heq⟩
      · rw [heq]
        exact hvalue.type_eq.trans hself
      · rw [← heq]
        exact htyped old hmem

theorem Typed.addIncoming (h : editor.Typed) (hphi : editor.Has type phi)
    (hvalue : editor.Has type value) (block : BlockId) :
    (editor.updateInst phi (InstKind.addIncoming value block)).Typed := by
  refine h.updatePhi hphi hvalue fun kind => ?_
  cases kind with
  | phi incoming =>
      refine Or.inr ⟨incoming, _, rfl, rfl, fun entry hentry => ?_⟩
      rcases List.mem_append.mp hentry with hentry | hentry
      · exact Or.inr ⟨entry, hentry, rfl⟩
      · exact Or.inl (congrArg Prod.fst (List.mem_singleton.mp hentry))
  | _ => exact Or.inl rfl

theorem Typed.setIncomingWhere (h : editor.Typed) (hphi : editor.Has type phi)
    (hvalue : editor.Has type value) (test : BlockId → Bool) :
    (editor.updateInst phi (InstKind.setIncomingWhere test value)).Typed := by
  refine h.updatePhi hphi hvalue fun kind => ?_
  cases kind with
  | phi incoming =>
      refine Or.inr ⟨incoming, _, rfl, rfl, fun entry hentry => ?_⟩
      obtain ⟨old, hold, rfl⟩ := List.mem_map.mp hentry
      split_ifs
      · exact Or.inl rfl
      · exact Or.inr ⟨old, hold, rfl⟩
  | _ => exact Or.inl rfl

theorem Typed.setIncoming (h : editor.Typed) (hphi : editor.Has type phi)
    (hvalue : editor.Has type value) (block : BlockId) :
    (editor.updateInst phi (InstKind.setIncoming block value)).Typed := by
  refine h.updatePhi hphi hvalue fun kind => ?_
  cases kind with
  | phi incoming =>
      refine Or.inr ⟨incoming, _, rfl, rfl, fun entry hentry => ?_⟩
      rcases InstKind.mem_setFirstIncoming hentry with hentry | hentry
      · exact Or.inr ⟨entry, hentry, rfl⟩
      · exact Or.inl hentry
  | _ => exact Or.inl rfl

/-- A comparison with a value of some type. -/
def Compares (editor : Editor) (type : IRType) (compare : Value) : Prop :=
  ∀ inst ∈ editor.function.allInsts, inst.value = compare →
    ∃ lhs, inst.kind.compared = some lhs ∧ editor.Has type lhs

theorem Compares.kept (h : editor.Compares type compare) (hlt : compare < editor.nextValue)
    (hkept : editor.Kept editor') : editor'.Compares type compare := by
  intro inst hinst hvalue
  obtain ⟨old, hold, hvalue', hcompared⟩ := hkept.compared inst hinst (hvalue ▸ hlt)
  obtain ⟨lhs, hlhs, hhas⟩ := h old hold (hvalue'.trans hvalue)
  exact ⟨lhs, hcompared ▸ hlhs, hhas.kept hkept⟩

theorem Typed.setBound (h : editor.Typed) (hbound : editor.Has type bound)
    (hcompare : editor.Compares type compare) :
    (editor.updateInst compare (InstKind.setBound bound)).Typed := by
  refine h.updateInst fun inst hinst hvalue => ?_
  have hold := h.operand_lt inst hinst
  obtain ⟨lhs, hlhs, hhas⟩ := hcompare inst hinst hvalue
  obtain ⟨name, type, kind⟩ := inst
  cases kind with
  | icmp predicate old rhs =>
      obtain rfl := Option.some.inj hlhs
      refine ⟨?_, hhas.type_eq.trans hbound.type_eq.symm⟩
      intro operand hoperand
      rcases List.mem_pair.mp hoperand with rfl | rfl
      · exact hhas.lt
      · exact hbound.lt
  | _ => exact absurd hlhs (by simp [InstKind.compared])

theorem compared_addIncoming (value : Value) (block : BlockId) (kind : InstKind) :
    (kind.addIncoming value block).compared = kind.compared := by
  cases kind <;> rfl

theorem compared_setIncomingWhere (test : BlockId → Bool) (value : Value) (kind : InstKind) :
    (kind.setIncomingWhere test value).compared = kind.compared := by
  cases kind <;> rfl

theorem compared_setIncoming (block : BlockId) (value : Value) (kind : InstKind) :
    (kind.setIncoming block value).compared = kind.compared := by
  cases kind <;> rfl

theorem compared_setBound (bound : Value) (kind : InstKind) :
    (kind.setBound bound).compared = kind.compared := by
  cases kind <;> rfl

end Operands

end Editor

end PolyhedralPass
