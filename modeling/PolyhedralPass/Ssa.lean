/-
SSA form: where a function uses its values, and whether their definitions
dominate these places.
-/
import PolyhedralPass.Editor
import PolyhedralPass.Flow.Dominance
import Mathlib.Data.List.Nodup
import Mathlib.Data.List.Pairwise

namespace PolyhedralPass

open Flow Relation

/-- Where a value is used: in front of an instruction or at the end of a block. -/
inductive Place
  | before (block : BlockId) (index : Nat)
  | endOf (block : BlockId)
deriving DecidableEq

/-- The operands of an instruction with the places they are used at.  A PHI node
uses its operands at the ends of the incoming blocks. -/
def InstKind.slots (kind : InstKind) (block : BlockId) (index : Nat) : List (Value × Place) :=
  match kind with
  | .phi incoming => incoming.map fun entry => (entry.1, .endOf entry.2)
  | kind => kind.operands.map fun value => (value, .before block index)

namespace Function

variable (F : Function) (entry : BlockId)

def Edge (b c : BlockId) : Prop := c ∈ F.successors b

def DefinedAt (value : Value) (block : BlockId) (index : Nat) : Prop :=
  ∃ inst, (F.insts block)[index]? = some inst ∧ inst.value = value

def Uses (value : Value) (place : Place) : Prop :=
  ∃ block index, ∃ inst : Inst, (F.insts block)[index]? = some inst ∧
    (value, place) ∈ inst.kind.slots block index

/-- Every way to a place leads over an instruction. -/
def Precedes (block : BlockId) (index : Nat) : Place → Prop
  | .before b i => if b = block then index < i else Dominates F.Edge entry block b
  | .endOf b => Dominates F.Edge entry block b

/-- A value is defined wherever control gets to a place; arguments and constants
are defined everywhere. -/
def Available (value : Value) (place : Place) : Prop :=
  ∀ block index, F.DefinedAt value block index → F.Precedes entry block index place

def UsesDominated : Prop := ∀ value place, F.Uses value place → F.Available entry value place

/-- What LLVM guarantees of a function in SSA form. -/
structure SSAForm : Prop where
  blocks_nodup : (F.blocks.map Prod.fst).Nodup
  values_nodup : (F.allInsts.map Inst.value).Nodup
  constants : ∀ inst ∈ F.allInsts, F.constant inst.value = none
  targets : ∀ b c, c ∈ F.successors b → c ∈ F.blocks.map Prod.fst
  entry_mem : entry ∈ F.blocks.map Prod.fst
  entry_first : ∀ b, entry ∉ F.successors b
  dominated : F.UsesDominated entry

/-- Blocks and values have one definition each, and constants none. -/
structure Distinct : Prop where
  blocks_nodup : (F.blocks.map Prod.fst).Nodup
  values_nodup : (F.allInsts.map Inst.value).Nodup
  constants : ∀ inst ∈ F.allInsts, F.constant inst.value = none

variable {F entry}

theorem SSAForm.distinct (hF : F.SSAForm entry) : F.Distinct :=
  ⟨hF.blocks_nodup, hF.values_nodup, hF.constants⟩

theorem mem_blocks_of_mem_insts {block : BlockId} {inst : Inst} (h : inst ∈ F.insts block) :
    ∃ insts, (block, insts) ∈ F.blocks ∧ inst ∈ insts := by
  cases hlookup : F.blocks.lookup block with
  | none => simp [insts, hlookup] at h
  | some found =>
      rw [insts, hlookup, Option.getD_some] at h
      obtain ⟨front, back, heq, _⟩ := List.lookup_eq_some_iff.mp hlookup
      exact ⟨found, by simp [heq], h⟩

theorem mem_allInsts {block : BlockId} {inst : Inst} (h : inst ∈ F.insts block) :
    inst ∈ F.allInsts := by
  obtain ⟨insts, hblock, hinst⟩ := mem_blocks_of_mem_insts h
  exact List.mem_flatMap.mpr ⟨(block, insts), hblock, hinst⟩

theorem block_of_mem_insts {block : BlockId} {inst : Inst} (h : inst ∈ F.insts block) :
    block ∈ F.blocks.map Prod.fst := by
  obtain ⟨insts, hblock, _⟩ := mem_blocks_of_mem_insts h
  exact List.mem_map.mpr ⟨(block, insts), hblock, rfl⟩

theorem eq_of_value_eq (hvalues : (F.allInsts.map Inst.value).Nodup) {first second : Inst}
    (hfirst : first ∈ F.allInsts) (hsecond : second ∈ F.allInsts)
    (h : first.value = second.value) : first = second :=
  List.inj_on_of_nodup_map hvalues hfirst hsecond h

theorem inst?_eq_some (hvalues : (F.allInsts.map Inst.value).Nodup) {value : Value} {inst : Inst} :
    F.inst? value = some inst ↔ inst ∈ F.allInsts ∧ inst.value = value := by
  constructor
  · intro h
    exact ⟨List.mem_of_find?_eq_some h, by simpa using List.find?_some h⟩
  · rintro ⟨hmem, rfl⟩
    cases hfind : F.inst? inst.value with
    | none =>
        have hnone := List.find?_eq_none.mp hfind inst hmem
        simp at hnone
    | some found =>
        have hvalue : found.value = inst.value := by simpa using List.find?_some hfind
        exact congrArg some (eq_of_value_eq hvalues (List.mem_of_find?_eq_some hfind) hmem hvalue)

theorem mem_blocks_of_mem_successors {b c : BlockId} (h : c ∈ F.successors b) :
    b ∈ F.blocks.map Prod.fst := by
  cases hterminator : F.terminator? b with
  | none => simp [successors, hterminator] at h
  | some terminator =>
      have hlast := (Option.filter_eq_some_iff.mp hterminator).1
      exact block_of_mem_insts (List.mem_of_getLast? hlast)

theorem mem_predecessors {b c : BlockId} : b ∈ F.predecessors c ↔ c ∈ F.successors b := by
  simp only [predecessors, List.mem_flatMap, List.mem_map, List.mem_filter]
  constructor
  · rintro ⟨pred, _, succ, ⟨hsucc, heq⟩, rfl⟩
    rwa [← beq_iff_eq.mp heq]
  · intro h
    obtain ⟨pred, hpred, rfl⟩ := List.mem_map.mp (mem_blocks_of_mem_successors h)
    exact ⟨pred, hpred, c, ⟨h, beq_self_eq_true c⟩, rfl⟩

theorem exists_definedAt {block : BlockId} {inst : Inst} (h : inst ∈ F.insts block) :
    ∃ index, (F.insts block)[index]? = some inst ∧ F.DefinedAt inst.value block index := by
  obtain ⟨index, hindex⟩ := List.getElem?_of_mem h
  exact ⟨index, hindex, inst, hindex, rfl⟩

theorem insts_eq_of_mem (hblocks : (F.blocks.map Prod.fst).Nodup) {block : BlockId}
    {insts : List Inst} (h : (block, insts) ∈ F.blocks) : F.insts block = insts := by
  cases hlookup : F.blocks.lookup block with
  | none =>
      have hne := List.lookup_eq_none_iff.mp hlookup (block, insts) h
      simp at hne
  | some found =>
      obtain ⟨front, back, heq, _⟩ := List.lookup_eq_some_iff.mp hlookup
      have hmem : (block, found) ∈ F.blocks := by simp [heq]
      have hsame := List.inj_on_of_nodup_map hblocks hmem h rfl
      rw [Function.insts, hlookup, Option.getD_some, (Prod.mk.inj hsame).2]

theorem exists_block_of_mem (hblocks : (F.blocks.map Prod.fst).Nodup) {inst : Inst}
    (h : inst ∈ F.allInsts) : ∃ block, inst ∈ F.insts block := by
  obtain ⟨⟨block, insts⟩, hblock, hinst⟩ := List.mem_flatMap.mp h
  exact ⟨block, by rwa [insts_eq_of_mem hblocks hblock]⟩

/-- A value has one definition. -/
theorem Distinct.definedAt_unique (hF : F.Distinct) {value : Value} {b c : BlockId}
    {i j : Nat} (hb : F.DefinedAt value b i) (hc : F.DefinedAt value c j) : b = c ∧ i = j := by
  obtain ⟨inst, hinst, rfl⟩ := hb
  obtain ⟨other, hother, heq⟩ := hc
  obtain ⟨insts, hblock, hmem⟩ := mem_blocks_of_mem_insts (List.mem_of_getElem? hinst)
  obtain ⟨insts', hblock', hmem'⟩ := mem_blocks_of_mem_insts (List.mem_of_getElem? hother)
  have hvalues := hF.values_nodup
  rw [allInsts, List.map_flatMap, List.nodup_flatMap] at hvalues
  have hsame : (b, insts) = (c, insts') := by
    by_contra hne
    have hsymm : Std.Symm (Function.onFun List.Disjoint
        fun block : BlockId × List Inst => block.2.map Inst.value) :=
        ⟨fun _ _ h _ ha hb => h hb ha⟩
    have hdisjoint := hvalues.2.forall hblock hblock' hne
    exact hdisjoint (List.mem_map_of_mem hmem) (heq ▸ List.mem_map_of_mem hmem')
  obtain ⟨rfl, rfl⟩ := Prod.mk.inj hsame
  rw [insts_eq_of_mem hF.blocks_nodup hblock] at hinst hother
  obtain ⟨hi, _⟩ := List.getElem?_eq_some_iff.mp hinst
  refine ⟨rfl, (List.getElem?_inj (by simpa using hi) (hvalues.1 _ hblock)).mp ?_⟩
  simp only [List.getElem?_map, List.getElem?_map, hinst, hother, Option.map_some, Option.map_some,
    heq]

theorem Distinct.not_definedAt (hF : F.Distinct) {value : Value} {c : ConstInt}
    (hc : F.constant value = some c) (block : BlockId) (index : Nat) :
    ¬ F.DefinedAt value block index := by
  rintro ⟨inst, hinst, rfl⟩
  rw [hF.constants inst (mem_allInsts (List.mem_of_getElem? hinst))] at hc
  exact absurd hc (by simp)

theorem Distinct.available_constant (hF : F.Distinct) {value : Value} {c : ConstInt}
    (hc : F.constant value = some c) (place : Place) : F.Available entry value place :=
  fun block index hdef => absurd hdef (hF.not_definedAt hc block index)

theorem updateInst_eq_mapInsts (value : Value) (f : InstKind → InstKind) :
    F.updateInst value f =
      F.mapInsts fun _ inst => if inst.value = value then f inst.kind else inst.kind := by
  simp only [Function.updateInst, Function.mapInsts]
  congr 1
  apply List.map_congr_left
  intro entry _
  congr 1
  apply List.map_congr_left
  intro inst _
  split_ifs <;> rfl

section Rewrite

variable {f : BlockId → Inst → InstKind}

theorem insts_mapInsts (block : BlockId) : (F.mapInsts f).insts block =
    (F.insts block).map fun inst => { inst with kind := f block inst } := by
  exact Editor.insts_mapInsts (F := F)
    (g := fun b insts => insts.map fun inst => { inst with kind := f b inst }) rfl

theorem getElem?_mapInsts (block : BlockId) (index : Nat) : ((F.mapInsts f).insts block)[index]? =
    ((F.insts block)[index]?).map fun inst => { inst with kind := f block inst } := by
  rw [insts_mapInsts, List.getElem?_map]

theorem definedAt_mapInsts {value : Value} {block : BlockId} {index : Nat} :
    (F.mapInsts f).DefinedAt value block index ↔ F.DefinedAt value block index := by
  simp only [DefinedAt, getElem?_mapInsts, Option.map_eq_some_iff]
  constructor
  · rintro ⟨_, ⟨inst, hinst, rfl⟩, hvalue⟩
    exact ⟨inst, hinst, hvalue⟩
  · rintro ⟨inst, hinst, hvalue⟩
    exact ⟨_, ⟨inst, hinst, rfl⟩, hvalue⟩

theorem uses_mapInsts {value : Value} {place : Place} : (F.mapInsts f).Uses value place ↔
    ∃ block index, ∃ inst : Inst, (F.insts block)[index]? = some inst ∧
      (value, place) ∈ (f block inst).slots block index := by
  simp only [Uses, getElem?_mapInsts, Option.map_eq_some_iff]
  constructor
  · rintro ⟨block, index, _, ⟨inst, hinst, rfl⟩, hslot⟩
    exact ⟨block, index, inst, hinst, hslot⟩
  · rintro ⟨block, index, inst, hinst, hslot⟩
    exact ⟨block, index, _, ⟨inst, hinst, rfl⟩, hslot⟩

/-- A rewriting that leaves the branches where they go. -/
structure KeepsBranches (f : BlockId → Inst → InstKind) : Prop where
  isTerminator : ∀ block inst, (f block inst).isTerminator = inst.kind.isTerminator
  successors : ∀ block inst, (f block inst).successors = inst.kind.successors

theorem KeepsBranches.terminator (hf : KeepsBranches f) (block : BlockId) :
    (F.mapInsts f).terminator? block =
      (F.terminator? block).map fun inst => { inst with kind := f block inst } := by
  rw [terminator?, terminator?, insts_mapInsts, List.getLast?_map]
  cases (F.insts block).getLast? with
  | none => rfl
  | some inst =>
      by_cases hinst : inst.kind.isTerminator = true <;>
        simp [hf.isTerminator, hinst, Option.filter]

theorem KeepsBranches.successors_eq (hf : KeepsBranches f) (block : BlockId) :
    (F.mapInsts f).successors block = F.successors block := by
  rw [Function.successors, hf.terminator, Function.successors]
  cases F.terminator? block with
  | none => rfl
  | some inst => exact hf.successors block inst

theorem KeepsBranches.predecessors_eq (hf : KeepsBranches f) (block : BlockId) :
    (F.mapInsts f).predecessors block = F.predecessors block := by
  simp only [predecessors, hf.successors_eq]
  simp only [mapInsts, List.flatMap_map]

theorem KeepsBranches.loopPreheader_eq (hf : KeepsBranches f) (L : Loop) :
    L.loopPreheader (F.mapInsts f) = L.loopPreheader F := by
  simp only [Loop.loopPreheader, Loop.loopPredecessor, hf.predecessors_eq, hf.successors_eq]

theorem KeepsBranches.loopLatch_eq (hf : KeepsBranches f) (L : Loop) :
    L.loopLatch (F.mapInsts f) = L.loopLatch F := by
  simp only [Loop.loopLatch, hf.predecessors_eq]

theorem KeepsBranches.incomingAndBackEdge_eq (hf : KeepsBranches f) (L : Loop) :
    L.incomingAndBackEdge (F.mapInsts f) = L.incomingAndBackEdge F := by
  simp only [Loop.incomingAndBackEdge, hf.predecessors_eq]

theorem KeepsBranches.exitBlock_eq (hf : KeepsBranches f) (L : Loop) :
    L.exitBlock (F.mapInsts f) = L.exitBlock F := by
  simp only [Loop.exitBlock, hf.successors_eq]

theorem KeepsBranches.edge_eq (hf : KeepsBranches f) : (F.mapInsts f).Edge = F.Edge := by
  funext b c
  simp only [Edge, hf.successors_eq]

/-- Such a rewriting keeps what is available where. -/
theorem KeepsBranches.available_iff (hf : KeepsBranches f) {value : Value} {place : Place} :
    (F.mapInsts f).Available entry value place ↔ F.Available entry value place := by
  simp only [Available, definedAt_mapInsts]
  cases place <;> simp only [Precedes, hf.edge_eq]

theorem KeepsBranches.exitingBlock_eq (hf : KeepsBranches f) (L : Loop) :
    L.exitingBlock (F.mapInsts f) = L.exitingBlock F := by
  simp only [Loop.exitingBlock, Loop.isExiting, hf.successors_eq]

theorem blocks_mapInsts : (F.mapInsts f).blocks.map Prod.fst = F.blocks.map Prod.fst := by
  simp only [mapInsts, List.map_map, Function.comp_def]

theorem values_mapInsts : (F.mapInsts f).allInsts.map Inst.value = F.allInsts.map Inst.value := by
  simp only [mapInsts, allInsts, List.flatMap_map, List.map_flatMap, List.map_map,
    Function.comp_def]

theorem Distinct.mapInsts (hF : F.Distinct) : (F.mapInsts f).Distinct where
  blocks_nodup := by
    rw [blocks_mapInsts]
    exact hF.blocks_nodup
  values_nodup := by
    rw [values_mapInsts]
    exact hF.values_nodup
  constants := by
    intro inst hinst
    have hvalue := List.mem_map_of_mem (f := Inst.value) hinst
    rw [values_mapInsts] at hvalue
    obtain ⟨old, hold, heq⟩ := List.mem_map.mp hvalue
    exact heq ▸ hF.constants old hold

/-- Only the uses are new behind such a rewriting. -/
theorem SSAForm.mapInsts (hF : F.SSAForm entry) (hf : KeepsBranches f)
    (hdominated : (F.mapInsts f).UsesDominated entry) : (F.mapInsts f).SSAForm entry where
  blocks_nodup := hF.distinct.mapInsts.blocks_nodup
  values_nodup := hF.distinct.mapInsts.values_nodup
  constants := hF.distinct.mapInsts.constants
  targets := by
    intro b c hc
    rw [blocks_mapInsts]
    exact hF.targets b c (hf.successors_eq b ▸ hc)
  entry_mem := by
    rw [blocks_mapInsts]
    exact hF.entry_mem
  entry_first := by
    intro b hb
    exact hF.entry_first b (hf.successors_eq b ▸ hb)
  dominated := hdominated

end Rewrite

section Certificate

variable (F) (entry) (avoiding : BlockId → List BlockId)

/-- `avoiding d` holds the blocks that paths that do not leave `d` get to. -/
def certifies : Bool :=
  (F.blocks.map Prod.fst).all fun d => (avoiding d).contains entry &&
    (avoiding d).all fun a => a == d || (F.successors a).all fun c => (avoiding d).contains c

def precedesBy (block : BlockId) (index : Nat) : Place → Bool
  | .before b i => if b = block then index < i else !(avoiding block).contains b
  | .endOf b => b == block || !(avoiding block).contains b

/-- A test of all uses against all definitions. -/
def checkUses : Bool :=
  (F.blocks.map Prod.fst).all fun block => (F.insts block).zipIdx.all fun user =>
    (user.1.kind.slots block user.2).all fun slot =>
      (F.blocks.map Prod.fst).all fun home => (F.insts home).zipIdx.all fun definition =>
        definition.1.value != slot.1 || precedesBy avoiding home definition.2 slot.2

variable {F entry avoiding}

theorem dominates_of_certifies (h : F.certifies entry avoiding = true) {d b : BlockId}
    (hd : d ∈ F.blocks.map Prod.fst) (hb : (avoiding d).contains b = false) :
    Dominates F.Edge entry d b := by
  have hset := List.all_eq_true.mp h d hd
  simp only [Bool.and_eq_true, List.all_eq_true] at hset
  refine dominates_of_closed (S := fun b => (avoiding d).contains b = true) hset.1 ?_
    (by simpa using hb)
  intro a c ha hne hedge
  have hclosed := hset.2 a (by simpa using ha)
  simp only [Bool.or_eq_true, beq_iff_eq, List.all_eq_true] at hclosed
  exact hclosed.resolve_left hne c hedge

theorem precedes_of_precedesBy (h : F.certifies entry avoiding = true) {block : BlockId}
    (hblock : block ∈ F.blocks.map Prod.fst) {index : Nat} {place : Place}
    (hprecedes : precedesBy avoiding block index place = true) :
    F.Precedes entry block index place := by
  cases place with
  | before b i =>
      simp only [precedesBy] at hprecedes
      simp only [Precedes]
      split_ifs with heq
      · simpa [heq] using hprecedes
      · apply dominates_of_certifies h hblock
        simpa [heq] using hprecedes
  | endOf b =>
      simp only [precedesBy, Bool.or_eq_true, beq_iff_eq, Bool.not_eq_true'] at hprecedes
      rcases hprecedes with rfl | hprecedes
      · exact dominates_refl entry b
      · exact dominates_of_certifies h hblock hprecedes

theorem usesDominated_of_checkUses (h : F.certifies entry avoiding = true)
    (hcheck : F.checkUses avoiding = true) : F.UsesDominated entry := by
  rintro value place ⟨block, index, user, huser, hslot⟩ home i ⟨definition, hdefinition, rfl⟩
  have hmem := List.mem_of_getElem? hdefinition
  simp only [checkUses, List.all_eq_true] at hcheck
  have huse := hcheck block (block_of_mem_insts (List.mem_of_getElem? huser)) (user, index)
    (List.mem_zipIdx_iff_getElem?.mpr huser) _ hslot home (block_of_mem_insts hmem) (definition, i)
    (List.mem_zipIdx_iff_getElem?.mpr hdefinition)
  simp only [bne_self_eq_false, Bool.false_or] at huse
  exact precedes_of_precedesBy h (block_of_mem_insts hmem) huse

/-- A test for SSA form, given the certificate. -/
def checkSSA (F : Function) (entry : BlockId) (avoiding : BlockId → List BlockId) : Bool :=
  let ids := F.blocks.map Prod.fst
  decide ids.Nodup && decide (F.allInsts.map Inst.value).Nodup &&
    (F.allInsts.all fun inst => (F.constant inst.value).isNone) &&
    (ids.all fun b => (F.successors b).all fun c => ids.contains c && c != entry) &&
    ids.contains entry && F.certifies entry avoiding && F.checkUses avoiding

theorem ssaForm_of_checkSSA (avoiding : BlockId → List BlockId)
    (h : F.checkSSA entry avoiding = true) : F.SSAForm entry := by
  simp only [checkSSA, Bool.and_eq_true, decide_eq_true_eq, List.all_eq_true,
    Option.isNone_iff_eq_none, List.contains_iff_mem, bne_iff_ne, ne_eq] at h
  obtain ⟨⟨⟨⟨⟨⟨hblocks, hvalues⟩, hconstants⟩, htargets⟩, hentry⟩, hcertifies⟩, huses⟩ := h
  exact {
    blocks_nodup := hblocks
    values_nodup := hvalues
    constants := hconstants
    targets := fun b c hc => (htargets b (mem_blocks_of_mem_successors hc) c hc).1
    entry_mem := hentry
    entry_first := fun b hb => (htargets b (mem_blocks_of_mem_successors hb) entry hb).2 rfl
    dominated := usesDominated_of_checkUses hcertifies huses }

end Certificate

end Function

end PolyhedralPass
