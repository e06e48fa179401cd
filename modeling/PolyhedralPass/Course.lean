/-
The course of a run.  The loops of the forest are visited one after the other, each
with the function that the visits before it have left behind.  No visit ever tiles a
nest: it rewrites operands and names, or it ends the run in a fault.
-/
import PolyhedralPass.Acceptance
import PolyhedralPass.Choice
import PolyhedralPass.TiledTypes

namespace PolyhedralPass

section Skeleton

/-- An instruction without its operands. -/
def InstKind.skeleton (kind : InstKind) : InstKind := kind.mapOperands fun _ => 0

/-- A function without the operands of its instructions and without names. -/
def Function.skeleton (F : Function) : Function :=
  { F.mapInsts fun _ inst => inst.kind.skeleton with name := fun _ => none }

namespace InstKind

@[simp] theorem skeleton_mapOperands (f : Value → Value) (kind : InstKind) :
    (kind.mapOperands f).skeleton = kind.skeleton := by
  cases kind with
  | gep pointer indices =>
      simp only [skeleton, mapOperands, List.map_map, gep.injEq, true_and]
      apply List.map_congr_left
      intro index _
      cases index <;> rfl
  | phi incoming => simp [skeleton, mapOperands, Function.comp_def]
  | call args effects => simp [skeleton, mapOperands, Function.comp_def]
  | compute args => simp [skeleton, mapOperands, Function.comp_def]
  | ret value => cases value <;> rfl
  | _ => rfl

theorem map_snd_setFirstIncoming (block : BlockId) (value : Value)
    (incoming : List (Value × BlockId)) :
    (setFirstIncoming block value incoming).map Prod.snd = incoming.map Prod.snd := by
  induction incoming with
  | nil => rfl
  | cons first rest ih =>
      rw [setFirstIncoming]
      split_ifs with heq
      · simp [heq]
      · rw [List.map_cons, List.map_cons, ih]

@[simp] theorem skeleton_setIncoming (block : BlockId) (value : Value) (kind : InstKind) :
    (kind.setIncoming block value).skeleton = kind.skeleton := by
  cases kind with
  | phi incoming =>
      have hsnd := map_snd_setFirstIncoming block value incoming
      have hmap := congrArg (List.map fun pred : BlockId => ((0 : Value), pred)) hsnd
      simpa [skeleton, setIncoming, mapOperands, Function.comp_def] using hmap
  | _ => rfl

@[simp] theorem skeleton_setBound (bound : Value) (kind : InstKind) :
    (kind.setBound bound).skeleton = kind.skeleton := by
  cases kind <;> rfl

theorem isPhi_skeleton (kind : InstKind) : kind.skeleton.isPhi = kind.isPhi :=
  isPhi_mapOperands _ kind

end InstKind

namespace Function

variable {F F' : Function}

theorem skeleton_mapInsts {f : BlockId → Inst → InstKind}
    (hf : ∀ block inst, (f block inst).skeleton = inst.kind.skeleton) :
    (F.mapInsts f).skeleton = F.skeleton := by
  simp only [skeleton, mapInsts_mapInsts, hf]

theorem keepsBranches_skeleton : KeepsBranches fun _ inst => inst.kind.skeleton where
  isTerminator := fun _ inst => InstKind.isTerminator_mapOperands _ inst.kind
  successors := fun _ inst => InstKind.successors_mapOperands _ inst.kind

section Queries

variable (F)

theorem successors_skeleton (block : BlockId) : F.skeleton.successors block = F.successors block :=
  keepsBranches_skeleton.successors_eq block

theorem loopPreheader_skeleton (L : Loop) : L.loopPreheader F.skeleton = L.loopPreheader F :=
  keepsBranches_skeleton.loopPreheader_eq L

theorem loopLatch_skeleton (L : Loop) : L.loopLatch F.skeleton = L.loopLatch F :=
  keepsBranches_skeleton.loopLatch_eq L

theorem exitingBlock_skeleton (L : Loop) : L.exitingBlock F.skeleton = L.exitingBlock F :=
  keepsBranches_skeleton.exitingBlock_eq L

theorem exitBlock_skeleton (L : Loop) : L.exitBlock F.skeleton = L.exitBlock F :=
  keepsBranches_skeleton.exitBlock_eq L

theorem blocks_skeleton : F.skeleton.blocks.map Prod.fst = F.blocks.map Prod.fst :=
  @blocks_mapInsts F fun _ inst => inst.kind.skeleton

theorem values_skeleton : F.skeleton.allInsts.map Inst.value = F.allInsts.map Inst.value :=
  @values_mapInsts F fun _ inst => inst.kind.skeleton

theorem insts_skeleton (block : BlockId) : F.skeleton.insts block =
    (F.insts block).map fun inst => { inst with kind := inst.kind.skeleton } :=
  @insts_mapInsts F (fun _ inst => inst.kind.skeleton) block

theorem inst?_skeleton (value : Value) : F.skeleton.inst? value =
    (F.inst? value).map fun inst => { inst with kind := inst.kind.skeleton } := by
  have hall : F.skeleton.allInsts =
      F.allInsts.map fun inst => { inst with kind := inst.kind.skeleton } := by
    simp only [skeleton, mapInsts, allInsts, List.flatMap_map, List.map_flatMap]
  rw [inst?, hall, List.find?_map]
  rfl

end Queries

section Same

variable (h : F'.skeleton = F.skeleton)
include h

theorem exitBlock_of_skeleton (L : Loop) : L.exitBlock F' = L.exitBlock F := by
  rw [← exitBlock_skeleton, h, exitBlock_skeleton]

theorem loopPreheader_of_skeleton (L : Loop) : L.loopPreheader F' = L.loopPreheader F := by
  rw [← loopPreheader_skeleton, h, loopPreheader_skeleton]

theorem loopLatch_of_skeleton (L : Loop) : L.loopLatch F' = L.loopLatch F := by
  rw [← loopLatch_skeleton, h, loopLatch_skeleton]

theorem exitingBlock_of_skeleton (L : Loop) : L.exitingBlock F' = L.exitingBlock F := by
  rw [← exitingBlock_skeleton, h, exitingBlock_skeleton]

theorem edge_of_skeleton : F'.Edge = F.Edge := by
  funext b c
  simp only [Edge, ← successors_skeleton F', h, successors_skeleton F]

theorem distinct_of_skeleton (hF : F.Distinct) : F'.Distinct where
  blocks_nodup := by
    rw [← blocks_skeleton, h, blocks_skeleton]
    exact hF.blocks_nodup
  values_nodup := by
    rw [← values_skeleton, h, values_skeleton]
    exact hF.values_nodup
  constants := by
    intro inst hinst
    have hvalue := List.mem_map_of_mem (f := Inst.value) hinst
    rw [← values_skeleton, h, values_skeleton] at hvalue
    obtain ⟨old, hold, heq⟩ := List.mem_map.mp hvalue
    have hconstant : F'.skeleton.constant = F.skeleton.constant := congrArg Function.constant h
    change F'.skeleton.constant inst.value = none
    rw [hconstant, ← heq]
    exact hF.constants old hold

theorem type_of_skeleton (value : Value) : F'.type value = F.type value := by
  have htype : ∀ G : Function, G.type value = G.skeleton.type value := by
    intro G
    rw [Function.type, Function.type, inst?_skeleton, Option.map_map]
    rfl
  rw [htype F', h, ← htype F]

end Same

end Function

variable {preOuter preInner : BlockId} {outer inner : LoopDescriptor}

theorem skeleton_controlKind (inst : Inst) :
    (controlKind preOuter preInner outer inner inst).skeleton = inst.kind.skeleton := by
  unfold controlKind
  simp only
  split_ifs <;> simp

theorem skeleton_swapKind (F : Function) (block : BlockId) (inst : Inst) :
    (swapKind F preOuter preInner outer inner block inst).skeleton = inst.kind.skeleton := by
  rw [swapKind, InstKind.skeleton_mapOperands, skeleton_controlKind]

end Skeleton

section Visit

variable (env : Environment)

/-- The tiling stage of a run in which nothing is tiled. -/
def leaveUntiled (_ : LoopNestDescriptor) (editor : Editor) : Except Fault (Bool × Editor) :=
  .ok (false, editor)

/-- A visit of one loop that tiles nothing. -/
def reorderNest (root : Loop) (editor : Editor) : Bool × Editor :=
  match runNest env leaveUntiled root editor with
  | .ok result => result
  | .error _ => (false, editor)

/-- The loops of a run that tiles nothing, each with the function it is visited with. -/
def visits : List Loop → Editor → List (Loop × Editor)
  | [], _ => []
  | root :: rest, editor => (root, editor) :: visits rest (reorderNest env root editor).2

/-- The changes of a run that tiles nothing. -/
def reorderNests : List Loop → Editor → List (Loop × Bool) × Editor
  | [], editor => ([], editor)
  | root :: rest, editor =>
      let visit := reorderNest env root editor
      let later := reorderNests rest visit.2
      ((root, visit.1) :: later.1, later.2)

/-- A run that tiles nothing. -/
def reorder (forest : List Loop) (editor : Editor) : PreservedAnalyses × Editor :=
  let changes := reorderNests env (collectSubLoops forest) editor
  (if changes.1.any Prod.snd then .none else .all, changes.2)

/-- Tiling is tried on the nest below the loop and has an exit to lead the tile loops to. -/
def WouldTile (visit : Loop × Editor) : Prop :=
  env.options.enableBlocking = true ∧ Selected env visit.2.function visit.1 ∧
    (visit.1.exitBlock visit.2.function).isSome

/-- What the stage in front of tiling leaves as it is. -/
structure Reordered (nest nest' : LoopNestDescriptor) (editor editor' : Editor) : Prop where
  nodes : nest'.loops.map LoopDescriptor.loopNode = nest.loops.map LoopDescriptor.loopNode
  skeleton : editor'.function.skeleton = editor.function.skeleton
  nextBlock : editor'.nextBlock = editor.nextBlock
  nextValue : editor'.nextValue = editor.nextValue

variable {env} {root : Loop} {nest nest' : LoopNestDescriptor} {editor editor' : Editor}

theorem Reordered.refl (nest : LoopNestDescriptor) (editor : Editor) :
    Reordered nest nest editor editor := ⟨rfl, rfl, rfl, rfl⟩

theorem reordered_interchange {renamed : Function → Value → String} {idxOuter idxInner : Nat}
    (h : applyLoopInterchange renamed nest idxOuter idxInner editor = .ok (true, nest', editor')) :
    Reordered nest nest' editor editor' := by
  obtain ⟨outer, inner, preOuter, preInner, nameOuter, nameInner, houter, hinner, _, _, _, rfl,
    rfl⟩ := applyLoopInterchange_eq h
  refine ⟨map_swapBounds (fun _ _ => rfl) houter hinner, ?_, rfl, rfl⟩
  change (editor.swapLoops preOuter preInner outer inner).function.skeleton = _
  rw [function_swapLoops]
  exact Function.skeleton_mapInsts fun block inst => skeleton_swapKind editor.function block inst

/-- The first transformation of an analysed nest never ends the run. -/
theorem interchangeNest_ok (hnest : analyzeLoopNest editor.function env.SE root = some nest) :
    ∃ interchanged nest' editor',
      interchangeNest env nest editor = .ok (interchanged, nest', editor') ∧
        Reordered nest nest' editor editor' := by
  unfold interchangeNest
  split_ifs with henabled
  · rw [optimizeLoopOrder_eq]
    cases hchoice : orderChoice env.address editor.function nest with
    | none => exact ⟨false, nest, editor, rfl, Reordered.refl nest editor⟩
    | some idx =>
        have hloops : ∀ loop ∈ nest.loops, ∃ L, Describes editor.function env.SE L loop := by
          intro loop hloop
          obtain ⟨L, _, hdescribes⟩ := exists_describes hnest hloop
          exact ⟨L, hdescribes⟩
        have hmoved : ∃ symbol, movedLoop editor.function nest symbol = some idx := by
          unfold orderChoice at hchoice
          split_ifs at hchoice
          obtain ⟨symbol, _, hmoved⟩ := Option.bind_eq_some_iff.mp hchoice
          exact ⟨symbol, hmoved⟩
        obtain ⟨symbol, hmoved⟩ := hmoved
        obtain ⟨nest', editor', happly⟩ :=
          exists_interchange_of_moved env.renamed editor hloops hmoved
        exact ⟨true, nest', editor', happly, reordered_interchange happly⟩
  · exact ⟨false, nest, editor, rfl, Reordered.refl nest editor⟩

variable {tile : LoopNestDescriptor → Editor → Except Fault (Bool × Editor)}

/-- A nest that is not selected is left as it is. -/
theorem runNest_of_not_selected (h : ¬ Selected env editor.function root) :
    runNest env tile root editor = .ok (false, editor) := by
  unfold runNest
  cases hnest : analyzeLoopNest editor.function env.SE root with
  | none => rfl
  | some nest =>
      simp only
      by_cases hrectangular : isRectangularNest nest = true
      · have hlegal : env.legal editor.function nest = false := by
          by_contra hlegal
          exact h ⟨nest, hnest, hrectangular, Bool.eq_true_of_not_eq_false hlegal⟩
        simp [hrectangular, hlegal]
      · simp [hrectangular]

/-- A nest that is selected goes through both stages. -/
theorem runNest_of_selected (h : Selected env editor.function root) :
    ∃ nest interchanged nest' editor',
      analyzeLoopNest editor.function env.SE root = some nest ∧
      interchangeNest env nest editor = .ok (interchanged, nest', editor') ∧
      Reordered nest nest' editor editor' ∧
      reorderNest env root editor = (interchanged, editor') ∧
      ∀ tile, runNest env tile root editor =
        (tile nest' editor').map fun result => (interchanged || result.1, result.2) := by
  obtain ⟨nest, hnest, hrectangular, hlegal⟩ := h
  obtain ⟨interchanged, nest', editor', hinterchange, hreordered⟩ := interchangeNest_ok hnest
  have hrun : ∀ tile, runNest env tile root editor =
      (tile nest' editor').map fun result => (interchanged || result.1, result.2) := by
    intro tile
    simp only [runNest, hnest, hrectangular, hlegal, transformNest, hinterchange]
    cases htile : tile nest' editor' <;> simp [bind, Except.bind, htile, Except.map, pure,
      Except.pure]
  refine ⟨nest, interchanged, nest', editor', hnest, hinterchange, hreordered, ?_, hrun⟩
  simp [reorderNest, hrun leaveUntiled, leaveUntiled, Except.map]

/-- A visit that tiles nothing keeps the skeleton of the function. -/
theorem reorderNest_keeps (env : Environment) (root : Loop) (editor : Editor) :
    (reorderNest env root editor).2.function.skeleton = editor.function.skeleton ∧
      (reorderNest env root editor).2.nextBlock = editor.nextBlock ∧
      (reorderNest env root editor).2.nextValue = editor.nextValue := by
  by_cases hselected : Selected env editor.function root
  · obtain ⟨_, _, _, _, _, _, hreordered, heq, _⟩ := runNest_of_selected hselected
    rw [heq]
    exact ⟨hreordered.skeleton, hreordered.nextBlock, hreordered.nextValue⟩
  · rw [reorderNest, runNest_of_not_selected hselected]
    exact ⟨rfl, rfl, rfl⟩

/-- A visit reorders the nest and tiles nothing, or ends the run where the nest would be
tiled. -/
theorem runNest_eq (env : Environment) (root : Loop) (editor : Editor) :
    (WouldTile env (root, editor) →
      runNest env (applyPolyhedralTiling env.options) root editor =
        .error (.nullTerminator editor.nextBlock)) ∧
    (¬ WouldTile env (root, editor) →
      runNest env (applyPolyhedralTiling env.options) root editor =
        .ok (reorderNest env root editor)) := by
  by_cases hselected : Selected env editor.function root
  · obtain ⟨nest, interchanged, nest', editor', hnest, _, hreordered, heq, hrun⟩ :=
      runNest_of_selected hselected
    obtain ⟨first, others, hfirst, hdescribes⟩ := analyzeLoopNest_head hnest
    obtain ⟨hdepth, _, _⟩ := describes_of_analyzeLoopNest hnest
    have hnodes := hreordered.nodes
    rw [hfirst] at hnodes
    obtain ⟨outermost, rest, hloops, hnode, _⟩ := List.map_eq_cons_iff.mp hnodes
    rw [hdescribes.loopNode] at hnode
    have hdepth' : 2 ≤ nest'.depth := by
      have hlength := congrArg List.length hreordered.nodes
      rw [List.length_map, List.length_map] at hlength
      rw [LoopNestDescriptor.depth, hlength]
      exact hdepth
    have hexit := Function.exitBlock_of_skeleton hreordered.skeleton root
    constructor
    · rintro ⟨hblocking, _, hsome⟩
      obtain ⟨exit, hsome⟩ := Option.isSome_iff_exists.mp hsome
      obtain ⟨preheader, hpreheader, _⟩ := hdescribes.preheader
      rw [← Function.loopPreheader_of_skeleton hreordered.skeleton] at hpreheader
      rw [hrun, applyPolyhedralTiling_fault hblocking hloops hdepth' (hnode ▸ hpreheader)
        (hnode ▸ hexit.trans hsome), hreordered.nextBlock]
      rfl
    · intro hnot
      have huntiled : env.options.enableBlocking = false ∨
          outermost.loopNode.exitBlock editor'.function = none := by
        rw [hnode, hexit]
        by_contra hboth
        obtain ⟨hblocking, hsome⟩ := not_or.mp hboth
        exact hnot ⟨Bool.eq_true_of_not_eq_false hblocking, hselected,
          Option.isSome_iff_ne_none.mpr hsome⟩
      rw [hrun, applyPolyhedralTiling_untiled hloops huntiled, heq]
      simp [Except.map]
  · refine ⟨fun htile => absurd htile.2.1 hselected, fun _ => ?_⟩
    rw [reorderNest, runNest_of_not_selected hselected, runNest_of_not_selected hselected]

end Visit

section Outcome

variable {env : Environment} {editor : Editor}

theorem reorderNests_keeps (env : Environment) (roots : List Loop) (editor : Editor) :
    (reorderNests env roots editor).2.function.skeleton = editor.function.skeleton ∧
      (reorderNests env roots editor).2.nextBlock = editor.nextBlock ∧
      (reorderNests env roots editor).2.nextValue = editor.nextValue := by
  induction roots generalizing editor with
  | nil => exact ⟨rfl, rfl, rfl⟩
  | cons root rest ih =>
      obtain ⟨hskeleton, hblock, hvalue⟩ := reorderNest_keeps env root editor
      obtain ⟨hskeleton', hblock', hvalue'⟩ := ih (reorderNest env root editor).2
      exact ⟨hskeleton'.trans hskeleton, hblock'.trans hblock, hvalue'.trans hvalue⟩

/-- The visits of a run up to the first that would tile. -/
theorem runNests_eq (env : Environment) (roots : List Loop) (editor : Editor) :
    ((∃ visit ∈ visits env roots editor, WouldTile env visit) →
      runNests env (applyPolyhedralTiling env.options) roots editor =
        .error (.nullTerminator editor.nextBlock)) ∧
    ((¬ ∃ visit ∈ visits env roots editor, WouldTile env visit) →
      runNests env (applyPolyhedralTiling env.options) roots editor =
        .ok (reorderNests env roots editor)) := by
  induction roots generalizing editor with
  | nil => exact ⟨fun ⟨_, hvisit, _⟩ => absurd hvisit List.not_mem_nil, fun _ => rfl⟩
  | cons root rest ih =>
      obtain ⟨hfault, hvisit⟩ := runNest_eq env root editor
      obtain ⟨hlater, hcompletes⟩ := ih (reorderNest env root editor).2
      rw [(reorderNest_keeps env root editor).2.1] at hlater
      have hmem : (∃ visit ∈ visits env (root :: rest) editor, WouldTile env visit) ↔
          WouldTile env (root, editor) ∨
            ∃ visit ∈ visits env rest (reorderNest env root editor).2, WouldTile env visit := by
        simp only [visits, List.exists_mem_cons_iff]
      rw [hmem, not_or, runNests]
      by_cases hfirst : WouldTile env (root, editor)
      · rw [hfault hfirst]
        exact ⟨fun _ => rfl, fun hnot => absurd hfirst hnot.1⟩
      · rw [hvisit hfirst]
        refine ⟨fun hexists => ?_, fun hnot => ?_⟩
        · have hrest := hlater (hexists.resolve_left hfirst)
          simp only [bind, Except.bind, hrest]
        · have hrest := hcompletes hnot.2
          simp only [bind, Except.bind, hrest]
          rfl

/-- A run that completes is one that tiles nothing. -/
theorem run_of_not_tiled (forest : List Loop) (editor : Editor)
    (h : ¬ ∃ visit ∈ visits env (collectSubLoops forest) editor, WouldTile env visit) :
    run env forest editor = .ok (reorder env forest editor) := by
  cases forest with
  | nil => rfl
  | cons first rest =>
      simp only [run, runWith, List.isEmpty_cons, Bool.false_eq_true, if_false,
        (runNests_eq env (collectSubLoops (first :: rest)) editor).2 h]
      rfl

theorem run_of_tiled (forest : List Loop) (editor : Editor)
    (h : ∃ visit ∈ visits env (collectSubLoops forest) editor, WouldTile env visit) :
    run env forest editor = .error (.nullTerminator editor.nextBlock) := by
  cases forest with
  | nil =>
      obtain ⟨_, hvisit, _⟩ := h
      exact absurd hvisit List.not_mem_nil
  | cons first rest =>
      simp only [run, runWith, List.isEmpty_cons, Bool.false_eq_true, if_false,
        (runNests_eq env (collectSubLoops (first :: rest)) editor).1 h]
      rfl

theorem run_ok {forest : List Loop} {result : PreservedAnalyses × Editor}
    (h : run env forest editor = .ok result) : result = reorder env forest editor := by
  by_cases htiled : ∃ visit ∈ visits env (collectSubLoops forest) editor, WouldTile env visit
  · rw [run_of_tiled forest editor htiled] at h
    exact absurd h (by simp)
  · rw [run_of_not_tiled forest editor htiled] at h
    exact (Except.ok.inj h).symm

/-- How a run ends: in a null pointer as soon as it comes to a nest that would be tiled,
and else with what the interchanges alone make of the function. -/
theorem run_outcome (env : Environment) (forest : List Loop) (editor : Editor) :
    ((∃ visit ∈ visits env (collectSubLoops forest) editor, WouldTile env visit) →
      run env forest editor = .error (.nullTerminator editor.nextBlock)) ∧
    ((¬ ∃ visit ∈ visits env (collectSubLoops forest) editor, WouldTile env visit) →
      run env forest editor = .ok (reorder env forest editor)) :=
  ⟨run_of_tiled forest editor, run_of_not_tiled forest editor⟩

/-- Another tile size. -/
def Environment.withTileSize (env : Environment) (tileSize : BitVec 32) : Environment :=
  { env with options := { env.options with tileSize } }

theorem reorderNest_withTileSize (tileSize : BitVec 32) (root : Loop) (editor : Editor) :
    reorderNest (env.withTileSize tileSize) root editor = reorderNest env root editor := rfl

theorem visits_withTileSize (tileSize : BitVec 32) (roots : List Loop) (editor : Editor) :
    visits (env.withTileSize tileSize) roots editor = visits env roots editor := by
  induction roots generalizing editor with
  | nil => rfl
  | cons root rest ih => rw [visits, visits, reorderNest_withTileSize, ih]

theorem reorderNests_withTileSize (tileSize : BitVec 32) (roots : List Loop) (editor : Editor) :
    reorderNests (env.withTileSize tileSize) roots editor = reorderNests env roots editor := by
  induction roots generalizing editor with
  | nil => rfl
  | cons root rest ih => simp only [reorderNests, reorderNest_withTileSize, ih]

/-- The tile size has no part in what a run does, whether it completes or not. -/
theorem run_withTileSize (env : Environment) (tileSize : BitVec 32) (forest : List Loop)
    (editor : Editor) :
    run (env.withTileSize tileSize) forest editor = run env forest editor := by
  have hvisits := @visits_withTileSize env tileSize (collectSubLoops forest) editor
  by_cases htiled : ∃ visit ∈ visits env (collectSubLoops forest) editor, WouldTile env visit
  · rw [run_of_tiled forest editor htiled]
    rw [← hvisits] at htiled
    exact run_of_tiled forest editor htiled
  · rw [run_of_not_tiled forest editor htiled, reorder, ← reorderNests_withTileSize tileSize]
    rw [← hvisits] at htiled
    exact run_of_not_tiled forest editor htiled

end Outcome

section Kept

theorem forall₂_trans {α : Type} {R : α → α → Prop} (hR : ∀ a b c, R a b → R b c → R a c)
    {first second third : List α} (h : List.Forall₂ R first second)
    (h' : List.Forall₂ R second third) : List.Forall₂ R first third := by
  induction h generalizing third with
  | nil => exact h'
  | cons hab _ ih =>
      cases h' with
      | cons hbc hrest => exact List.Forall₂.cons (hR _ _ _ hab hbc) (ih hrest)

/-- The loops that the visits of a run describe. -/
def Visited (env : Environment) (roots : List Loop) (editor : Editor) (loop : LoopDescriptor) :
    Prop :=
  ∃ visit ∈ visits env roots editor, ∃ nest,
    analyzeLoopNest visit.2.function env.SE visit.1 = some nest ∧ loop ∈ nest.loops

-- The loops whose control may be edited.
variable (visited : LoopDescriptor → Prop)

def IsInduction (value : Value) : Prop := ∃ loop, visited loop ∧ value = loop.induction

/-- The instructions a loop is controlled by: its induction variable and its comparison. -/
def IsControl (inst : Inst) : Prop :=
  ∃ loop, visited loop ∧ (inst.value = loop.induction ∨ inst.value = loop.compare)

/-- What the control of a loop may be given: an induction variable, a start or a bound. -/
def IsControlOperand (value : Value) : Prop :=
  ∃ loop, visited loop ∧
    (value = loop.induction ∨ value = loop.startValue ∨ value = loop.boundValue)

/-- An operand stays, or one induction variable takes the place of another. -/
def SameOrInduction (value value' : Value) : Prop :=
  value' = value ∨ (IsInduction visited value ∧ IsInduction visited value')

/-- What a run without tiling may do to a function. -/
structure Rewrites (F F' : Function) (kind : BlockId → Inst → InstKind) : Prop where
  function_eq : ∃ name, F' = { F.mapInsts kind with name }
  skeleton : ∀ block inst, (kind block inst).skeleton = inst.kind.skeleton
  operands : ∀ block inst, ¬ IsControl visited inst →
    List.Forall₂ (SameOrInduction visited) inst.kind.operands (kind block inst).operands
  control : ∀ block inst, List.Forall₂ (fun value value' => value' = value ∨
    IsControlOperand visited value') inst.kind.operands (kind block inst).operands
  name : ∀ value, ¬ IsInduction visited value → F'.name value = F.name value

variable {visited} {F F' F'' : Function}

theorem Rewrites.refl (visited : LoopDescriptor → Prop) (F : Function) :
    Rewrites visited F F fun _ inst => inst.kind where
  function_eq := ⟨F.name, by simp [Function.mapInsts]⟩
  skeleton := fun _ _ => rfl
  operands := fun _ _ _ => List.forall₂_same.mpr fun _ _ => Or.inl rfl
  control := fun _ _ => List.forall₂_same.mpr fun _ _ => Or.inl rfl
  name := fun _ _ => rfl

theorem SameOrInduction.trans {value value' value'' : Value}
    (h : SameOrInduction visited value value') (h' : SameOrInduction visited value' value'') :
    SameOrInduction visited value value'' := by
  rcases h with rfl | ⟨hold, hnew⟩
  · exact h'
  · rcases h' with rfl | ⟨_, hlast⟩
    · exact Or.inr ⟨hold, hnew⟩
    · exact Or.inr ⟨hold, hlast⟩

theorem Rewrites.trans {kind kind' : BlockId → Inst → InstKind} (h : Rewrites visited F F' kind)
    (h' : Rewrites visited F' F'' kind') :
    Rewrites visited F F'' fun block inst => kind' block { inst with kind := kind block inst } where
  function_eq := by
    obtain ⟨name, rfl⟩ := h.function_eq
    obtain ⟨name', rfl⟩ := h'.function_eq
    exact ⟨name', congrArg (fun G : Function => { G with name := name' })
      (mapInsts_mapInsts kind kind')⟩
  skeleton := by
    intro block inst
    rw [h'.skeleton, h.skeleton]
  operands := by
    intro block inst hcontrol
    have htrans : ∀ a b c, SameOrInduction visited a b → SameOrInduction visited b c →
        SameOrInduction visited a c := fun _ _ _ => SameOrInduction.trans
    exact forall₂_trans htrans (h.operands block inst hcontrol)
      (h'.operands block { inst with kind := kind block inst } hcontrol)
  control := by
    intro block inst
    refine forall₂_trans ?_ (h.control block inst)
      (h'.control block { inst with kind := kind block inst })
    rintro _ _ _ hfirst (rfl | hsecond)
    · exact hfirst
    · exact Or.inr hsecond
  name := by
    intro value hvalue
    rw [h'.name value hvalue, h.name value hvalue]

variable {env : Environment} {root : Loop} {nest nest' : LoopNestDescriptor}
  {editor editor' : Editor} {outer inner : LoopDescriptor}

theorem forall₂_setIncoming (block : BlockId) (value : Value) (kind : InstKind) :
    List.Forall₂ (fun old new => new = old ∨ new = value) kind.operands
      (kind.setIncoming block value).operands := by
  have hrefl : ∀ values : List Value,
      List.Forall₂ (fun old new => new = old ∨ new = value) values values :=
    fun values => List.forall₂_same.mpr fun _ _ => Or.inl rfl
  cases kind with
  | phi incoming =>
      simp only [InstKind.setIncoming, InstKind.operands]
      induction incoming with
      | nil => exact List.Forall₂.nil
      | cons first rest ih =>
          rw [InstKind.setFirstIncoming]
          split_ifs
          · exact List.Forall₂.cons (Or.inr rfl) (hrefl _)
          · exact List.Forall₂.cons (Or.inl rfl) ih
  | _ => exact hrefl _

theorem forall₂_setBound (bound : Value) (kind : InstKind) :
    List.Forall₂ (fun old new => new = old ∨ new = bound) kind.operands
      (kind.setBound bound).operands := by
  cases kind with
  | icmp predicate lhs rhs =>
      exact .cons (Or.inl rfl) (.cons (Or.inr rfl) .nil)
  | _ => exact List.forall₂_same.mpr fun _ _ => Or.inl rfl

theorem swapUse_same (houter : visited outer) (hinner : visited inner) (block : BlockId)
    (user : Inst) (value : Value) :
    SameOrInduction visited value (swapUse F outer inner block user value) := by
  unfold swapUse
  split_ifs with hvalue _ hvalue'
  · exact Or.inl rfl
  · exact Or.inr ⟨⟨outer, houter, hvalue⟩, inner, hinner, rfl⟩
  · exact Or.inl rfl
  · exact Or.inr ⟨⟨inner, hinner, hvalue'⟩, outer, houter, rfl⟩
  · exact Or.inl rfl

theorem controlKind_of_not_control {preOuter preInner : BlockId} (houter : visited outer)
    (hinner : visited inner) {inst : Inst} (h : ¬ IsControl visited inst) :
    controlKind preOuter preInner outer inner inst = inst.kind := by
  have hne : ∀ loop, visited loop → inst.value ≠ loop.induction ∧ inst.value ≠ loop.compare :=
    fun loop hloop => ⟨fun heq => h ⟨loop, hloop, Or.inl heq⟩,
      fun heq => h ⟨loop, hloop, Or.inr heq⟩⟩
  simp only [controlKind, if_neg (hne outer houter).1, if_neg (hne outer houter).2,
    if_neg (hne inner hinner).1, if_neg (hne inner hinner).2]

/-- The control of two loops that change places is given the starts and bounds of the
other. -/
theorem forall₂_controlKind {preOuter preInner : BlockId} (houter : visited outer)
    (hinner : visited inner) (inst : Inst) :
    List.Forall₂ (fun value value' => value' = value ∨ IsControlOperand visited value')
      inst.kind.operands (controlKind preOuter preInner outer inner inst).operands := by
  let R : Value → Value → Prop := fun old new => new = old ∨ IsControlOperand visited new
  have hrefl : ∀ kind : InstKind, List.Forall₂ R kind.operands kind.operands :=
    fun kind => List.forall₂_same.mpr fun _ _ => Or.inl rfl
  have htrans : ∀ a b c, R a b → R b c → R a c := by
    rintro a b c hfirst (rfl | hsecond)
    · exact hfirst
    · exact Or.inr hsecond
  have hincoming : ∀ loop, visited loop → ∀ block (kind : InstKind),
      List.Forall₂ R kind.operands (kind.setIncoming block loop.startValue).operands := by
    intro loop hloop block kind
    exact (forall₂_setIncoming block loop.startValue kind).imp fun _ _ =>
      Or.imp_right fun heq => ⟨loop, hloop, Or.inr (Or.inl heq)⟩
  have hbound : ∀ loop, visited loop → ∀ kind : InstKind,
      List.Forall₂ R kind.operands (kind.setBound loop.boundValue).operands := by
    intro loop hloop kind
    exact (forall₂_setBound loop.boundValue kind).imp fun _ _ =>
      Or.imp_right fun heq => ⟨loop, hloop, Or.inr (Or.inr heq)⟩
  have hif : ∀ (c : Prop) [Decidable c] (kind kind' : InstKind),
      List.Forall₂ R kind.operands kind'.operands →
      List.Forall₂ R kind.operands (if c then kind' else kind).operands := by
    intro c _ kind kind' h
    split_ifs
    · exact h
    · exact hrefl kind
  simp only [controlKind]
  refine forall₂_trans htrans ?_ (hif _ _ _ (hbound outer houter _))
  refine forall₂_trans htrans ?_ (hif _ _ _ (hbound inner hinner _))
  refine forall₂_trans htrans ?_ (hif _ _ _ (hincoming outer houter _ _))
  exact hif _ _ _ (hincoming inner hinner _ _)

theorem rewrites_interchange {renamed : Function → Value → String} {idxOuter idxInner : Nat}
    (hloops : ∀ loop ∈ nest.loops, visited loop)
    (h : applyLoopInterchange renamed nest idxOuter idxInner editor = .ok (true, nest', editor')) :
    ∃ kind, Rewrites visited editor.function editor'.function kind := by
  obtain ⟨outer, inner, preOuter, preInner, nameOuter, nameInner, houter, hinner, _, _, _, rfl,
    rfl⟩ := applyLoopInterchange_eq h
  have hvisitedOuter := hloops outer (List.mem_of_getElem? houter)
  have hvisitedInner := hloops inner (List.mem_of_getElem? hinner)
  have huse : ∀ block inst value, SameOrInduction visited value
      (swapUse editor.function outer inner block inst value) :=
    swapUse_same hvisitedOuter hvisitedInner
  refine ⟨swapKind editor.function preOuter preInner outer inner, ?_, ?_, ?_, ?_, ?_⟩
  · rw [← function_swapLoops]
    exact ⟨_, rfl⟩
  · exact skeleton_swapKind editor.function
  · intro block inst hcontrol
    rw [swapKind, InstKind.operands_mapOperands,
      controlKind_of_not_control hvisitedOuter hvisitedInner hcontrol,
      List.forall₂_map_right_iff, List.forall₂_same]
    exact fun value _ => huse block inst value
  · intro block inst
    rw [swapKind, InstKind.operands_mapOperands, List.forall₂_map_right_iff]
    refine (forall₂_controlKind hvisitedOuter hvisitedInner inst).imp fun value value' hvalue => ?_
    rcases huse block inst value' with heq | ⟨_, loop, hloop, heq⟩
    · rwa [heq]
    · exact Or.inr ⟨loop, hloop, Or.inl heq⟩
  · intro value hvalue
    have hne : ∀ loop, visited loop → value ≠ loop.induction :=
      fun loop hloop heq => hvalue ⟨loop, hloop, heq⟩
    simp only [Editor.setName, Function.update_of_ne (hne _ hvisitedInner),
      Function.update_of_ne (hne _ hvisitedOuter)]
    rfl

theorem rewrites_reorderNest (env : Environment) (editor : Editor)
    (hvisited : ∀ nest, analyzeLoopNest editor.function env.SE root = some nest →
      ∀ loop ∈ nest.loops, visited loop) :
    ∃ kind, Rewrites visited editor.function (reorderNest env root editor).2.function kind := by
  by_cases hselected : Selected env editor.function root
  · obtain ⟨nest, interchanged, nest', editor', hnest, hinterchange, _, heq, _⟩ :=
      runNest_of_selected hselected
    rw [heq]
    unfold interchangeNest at hinterchange
    split_ifs at hinterchange
    · cases interchanged with
      | false =>
          obtain ⟨_, rfl⟩ := optimizeLoopOrder_unchanged hinterchange
          exact ⟨_, Rewrites.refl visited _⟩
      | true =>
          obtain ⟨_, _, happly⟩ := optimizeLoopOrder_changed hinterchange
          exact rewrites_interchange (hvisited nest hnest) happly
    · obtain ⟨_, hrest⟩ := Prod.mk.inj (Except.ok.inj hinterchange)
      obtain ⟨_, rfl⟩ := Prod.mk.inj hrest
      exact ⟨_, Rewrites.refl visited _⟩
  · rw [reorderNest, runNest_of_not_selected hselected]
    exact ⟨_, Rewrites.refl visited _⟩

theorem rewrites_reorderNests (env : Environment) {roots : List Loop} (editor : Editor)
    (hvisited : ∀ loop, Visited env roots editor loop → visited loop) :
    ∃ kind, Rewrites visited editor.function (reorderNests env roots editor).2.function kind := by
  induction roots generalizing editor with
  | nil => exact ⟨_, Rewrites.refl visited _⟩
  | cons root rest ih =>
      obtain ⟨kind, hkind⟩ := @rewrites_reorderNest visited root env editor
        fun nest hnest loop hloop =>
          hvisited loop ⟨(root, editor), List.mem_cons_self, nest, hnest, hloop⟩
      obtain ⟨kind', hkind'⟩ := ih (reorderNest env root editor).2
        fun loop ⟨visit, hvisit, hloop⟩ =>
          hvisited loop ⟨visit, List.mem_cons_of_mem _ hvisit, hloop⟩
      exact ⟨_, hkind.trans hkind'⟩

/-- What a run that completes does to a function: the instructions stay where they are and
what they are.  The induction variables and comparisons of the loops that its visits
describe may get other starts and bounds; elsewhere one induction variable takes the place
of another at most. -/
theorem run_rewrites (env : Environment) (forest : List Loop) (editor editor' : Editor)
    (report : PreservedAnalyses) (h : run env forest editor = .ok (report, editor')) :
    ∃ kind, Rewrites (Visited env (collectSubLoops forest) editor) editor.function
      editor'.function kind := by
  obtain rfl : editor' = (reorder env forest editor).2 := congrArg Prod.snd (run_ok h)
  exact rewrites_reorderNests env editor fun _ => id

/-- The blocks, their edges and what LoopInfo reads off them are the same behind every run
that completes. -/
theorem run_keepsFlow (env : Environment) (forest : List Loop) (editor editor' : Editor)
    (report : PreservedAnalyses) (h : run env forest editor = .ok (report, editor')) :
    editor'.function.skeleton = editor.function.skeleton ∧
      editor'.function.Edge = editor.function.Edge ∧
      (∀ L : Loop, L.loopPreheader editor'.function = L.loopPreheader editor.function ∧
        L.loopLatch editor'.function = L.loopLatch editor.function ∧
        L.exitingBlock editor'.function = L.exitingBlock editor.function ∧
        L.exitBlock editor'.function = L.exitBlock editor.function) := by
  obtain rfl : editor' = (reorder env forest editor).2 := congrArg Prod.snd (run_ok h)
  obtain ⟨hskeleton, _⟩ := reorderNests_keeps env (collectSubLoops forest) editor
  refine ⟨hskeleton, Function.edge_of_skeleton hskeleton, fun L => ⟨?_, ?_, ?_, ?_⟩⟩
  · exact Function.loopPreheader_of_skeleton hskeleton L
  · exact Function.loopLatch_of_skeleton hskeleton L
  · exact Function.exitingBlock_of_skeleton hskeleton L
  · exact Function.exitBlock_of_skeleton hskeleton L

end Kept

section Types

variable {env : Environment} {root : Loop} {editor editor' : Editor}

theorem typed_reorderNest (env : Environment) (root : Loop) (hF : editor.function.Distinct)
    (htyped : editor.Typed) : (reorderNest env root editor).2.Typed := by
  by_cases hselected : Selected env editor.function root
  · obtain ⟨_, _, _, _, hnest, hinterchange, _, heq, _⟩ := runNest_of_selected hselected
    rw [heq]
    exact (settled_interchangeNest hF htyped hnest hinterchange).typed
  · rw [reorderNest, runNest_of_not_selected hselected]
    exact htyped

theorem typed_reorderNests (env : Environment) (roots : List Loop) (hF : editor.function.Distinct)
    (htyped : editor.Typed) : (reorderNests env roots editor).2.Typed := by
  induction roots generalizing editor with
  | nil => exact htyped
  | cons root rest ih =>
      have hskeleton := (reorderNest_keeps env root editor).1
      exact ih (Function.distinct_of_skeleton hskeleton hF) (typed_reorderNest env root hF htyped)

/-- A well-typed function is well typed behind every run that completes, each value still
being defined once. -/
theorem run_typed (env : Environment) (forest : List Loop) (editor editor' : Editor)
    (report : PreservedAnalyses) (hF : editor.function.Distinct) (htyped : editor.Typed)
    (h : run env forest editor = .ok (report, editor')) :
    editor'.function.Distinct ∧ editor'.function.WellTyped := by
  obtain rfl : editor' = (reorder env forest editor).2 := congrArg Prod.snd (run_ok h)
  have hskeleton := (reorderNests_keeps env (collectSubLoops forest) editor).1
  exact ⟨Function.distinct_of_skeleton hskeleton hF,
    (typed_reorderNests env (collectSubLoops forest) hF htyped).wellTyped⟩

end Types

section Linked

/-- The pass as it is linked with isl: the verdict on a nest is that of `getDependencies`
and `isTilingLegal`. -/
noncomputable def Environment.linked (env : Environment) (eqEq : Bool) : Environment :=
  { env with legal := fun F nest => isTilingLegal eqEq nest (getDependencies eqEq F nest) }

/-- With a reader that does not take `==` no nest is ever selected. -/
theorem not_selected_linked (env : Environment) (F : Function) (root : Loop) :
    ¬ Selected (env.linked false) F root := by
  rintro ⟨nest, hnest, _, hlegal⟩
  have hdepth : 2 ≤ nest.depth := (describes_of_analyzeLoopNest hnest).1
  have hnone : getDependencies false F nest = none :=
    getDependencies_of_beforeStr_none (unionMapReadFromStr_beforeStr_none hdepth)
  have hlegal : isTilingLegal false nest (getDependencies false F nest) = true := hlegal
  rw [hnone] at hlegal
  exact absurd hlegal (by simp [isTilingLegal])

theorem reorderNests_linked (env : Environment) (roots : List Loop) (editor : Editor) :
    reorderNests (env.linked false) roots editor =
      (roots.map fun root => (root, false), editor) := by
  induction roots with
  | nil => rfl
  | cons root rest ih =>
      have hfirst : reorderNest (env.linked false) root editor = (false, editor) := by
        rw [reorderNest, runNest_of_not_selected (not_selected_linked env _ root)]
      simp only [reorderNests, hfirst, ih, List.map_cons]

/-- With the isl of the repository the pass never changes a function, and never ends in a
fault, whatever the function, its loops and the options are. -/
theorem run_linked (env : Environment) (forest : List Loop) (editor : Editor) :
    run (env.linked false) forest editor = .ok (.all, editor) := by
  have hnever : ¬ ∃ visit ∈ visits (env.linked false) (collectSubLoops forest) editor,
      WouldTile (env.linked false) visit := by
    rintro ⟨visit, _, _, hselected, _⟩
    exact not_selected_linked env _ visit.1 hselected
  rw [run_of_not_tiled forest editor hnever, reorder, reorderNests_linked]
  simp

end Linked

section Program

/-- The chains of two and of three loops are both interchanged. -/
theorem deepEditor_rewrites : ∃ report editor' kind,
    run (deepEnvironment fun _ _ => true) [deepOuter] deepEditor = .ok (report, editor') ∧
      Rewrites (Visited (deepEnvironment fun _ _ => true) (collectSubLoops [deepOuter]) deepEditor)
        deepFunction editor'.function kind := by
  obtain ⟨kind, hkind⟩ := run_rewrites (deepEnvironment fun _ _ => true) [deepOuter] deepEditor _ _
    rfl
  exact ⟨_, _, kind, rfl, hkind⟩

theorem deepEditor_keepsFlow : ∃ report editor',
    run (deepEnvironment fun _ _ => true) [deepOuter] deepEditor = .ok (report, editor') ∧
      editor'.function.skeleton = deepFunction.skeleton ∧
      editor'.function.Edge = deepFunction.Edge ∧
      (∀ L : Loop, L.loopPreheader editor'.function = L.loopPreheader deepFunction ∧
        L.loopLatch editor'.function = L.loopLatch deepFunction ∧
        L.exitingBlock editor'.function = L.exitingBlock deepFunction ∧
        L.exitBlock editor'.function = L.exitBlock deepFunction) :=
  ⟨_, _, rfl, run_keepsFlow (deepEnvironment fun _ _ => true) [deepOuter] deepEditor _ _ rfl⟩

/-- Two loops of one width, without blocking. -/
theorem widthFunction_run_typed : ∃ report editor',
    run { widthEnvironment 32 with options := { enableBlocking := false } } [exampleOuter]
      (.ofFunction (widthFunction 32) 40) = .ok (report, editor') ∧
      editor'.function.Distinct ∧ editor'.function.WellTyped :=
  ⟨_, _, rfl, run_typed { widthEnvironment 32 with options := { enableBlocking := false } }
    [exampleOuter] (.ofFunction (widthFunction 32) 40) _ _ (widthFunction_distinct 32 (Or.inl rfl))
    (widthFunction_typed 32 (Or.inl rfl)) rfl⟩

end Program

end PolyhedralPass
