/-
The PHI nodes of a tiled nest.  The edits of `applyPolyhedralTiling` give PHI
nodes other values but never other incoming blocks, while the edges move.
-/
import PolyhedralPass.Rewiring

namespace PolyhedralPass

open Relation

/-- The incoming blocks of a PHI node. -/
def InstKind.incomingBlocks : InstKind → Option (List BlockId)
  | .phi incoming => some (incoming.map Prod.snd)
  | _ => none

/-- The PHI nodes of a block with their incoming blocks. -/
def incomingOf (insts : List Inst) : List (Value × List BlockId) :=
  insts.filterMap fun inst => inst.kind.incomingBlocks.map fun blocks => (inst.value, blocks)

namespace Function

variable (F : Function)

def incomingBlocks (block : BlockId) : List (Value × List BlockId) := incomingOf (F.insts block)

/-- The PHI nodes have one incoming entry for each edge into their block. -/
def PhisFollow : Prop :=
  ∀ block, ∀ phi ∈ F.incomingBlocks block, phi.2.Perm (F.predecessors block)

end Function

section Kinds

theorem incomingBlocks_setIncomingWhere (test : BlockId → Bool) (value : Value) (kind : InstKind) :
    (kind.setIncomingWhere test value).incomingBlocks = kind.incomingBlocks := by
  cases kind with
  | phi incoming =>
      simp only [InstKind.setIncomingWhere, InstKind.incomingBlocks, List.map_map,
        Option.some.injEq]
      apply List.map_congr_left
      intro entry _
      simp only [Function.comp]
      split_ifs <;> rfl
  | _ => rfl

theorem incomingBlocks_setBound (bound : Value) (kind : InstKind) :
    (kind.setBound bound).incomingBlocks = kind.incomingBlocks := by
  cases kind <;> rfl

theorem incomingBlocks_replaceSuccessorWith (old new : BlockId) (kind : InstKind) :
    (kind.replaceSuccessorWith old new).incomingBlocks = kind.incomingBlocks := by
  cases kind <;> rfl

theorem incomingBlocks_setSuccessor (index : Nat) (dest : BlockId) (kind : InstKind) :
    (kind.setSuccessor index dest).incomingBlocks = kind.incomingBlocks := by
  cases kind <;> rfl

theorem incomingOf_map {f : Inst → Inst} (hvalue : ∀ inst, (f inst).value = inst.value)
    (insts : List Inst)
    (hkind : ∀ inst ∈ insts, (f inst).kind.incomingBlocks = inst.kind.incomingBlocks) :
    incomingOf (insts.map f) = incomingOf insts := by
  rw [incomingOf, incomingOf, List.filterMap_map]
  apply List.filterMap_congr
  intro inst hinst
  simp only [Function.comp, hvalue, hkind inst hinst]

theorem incomingOf_updateLast {f : InstKind → InstKind}
    (hf : ∀ kind, (f kind).incomingBlocks = kind.incomingBlocks) (insts : List Inst) :
    incomingOf (insts.dropLast ++
      (insts.getLast?.map fun inst => { inst with kind := f inst.kind }).toList) =
      incomingOf insts := by
  rcases List.eq_nil_or_concat insts with rfl | ⟨front, last, rfl⟩
  · rfl
  · simp [incomingOf, List.filterMap_cons, hf]

theorem incomingOf_insertBeforeLast {inst : Inst} (hinst : inst.kind.incomingBlocks = none)
    (insts : List Inst) :
    incomingOf (insts.dropLast ++ inst :: insts.getLast?.toList) = incomingOf insts := by
  rcases List.eq_nil_or_concat insts with rfl | ⟨front, last, rfl⟩
  · simp [incomingOf, hinst]
  · simp [incomingOf, hinst]

end Kinds

namespace Editor

variable {editor editor' editor'' : Editor} {block : BlockId}

/-- A block that was there before the edits. -/
def Old (editor : Editor) (block : BlockId) : Prop :=
  block < editor.nextBlock ∧ ∀ inst ∈ editor.function.insts block, inst.value < editor.nextValue

/-- Edits that leave the incoming blocks of the PHI nodes of old blocks alone. -/
def KeepsPhis (before after : Editor) : Prop :=
  ∀ block, before.Old block → after.Old block ∧
    after.function.incomingBlocks block = before.function.incomingBlocks block

theorem KeepsPhis.refl (editor : Editor) : editor.KeepsPhis editor := fun _ hold => ⟨hold, rfl⟩

theorem KeepsPhis.trans (h : editor.KeepsPhis editor') (h' : editor'.KeepsPhis editor'') :
    editor.KeepsPhis editor'' := by
  intro block hold
  obtain ⟨hold', hsame⟩ := h block hold
  obtain ⟨hold'', hsame'⟩ := h' block hold'
  exact ⟨hold'', hsame'.trans hsame⟩

/-- Edits that leave the instructions of old blocks alone. -/
theorem keepsPhis_of_insts (hblock : editor.nextBlock ≤ editor'.nextBlock)
    (hvalue : editor.nextValue ≤ editor'.nextValue)
    (h : ∀ block, editor.Old block →
      editor'.function.insts block = editor.function.insts block) : editor.KeepsPhis editor' := by
  intro block hold
  have hsame := h block hold
  refine ⟨⟨lt_of_lt_of_le hold.1 hblock, ?_⟩, ?_⟩
  · intro inst hinst
    exact lt_of_lt_of_le (hold.2 inst (hsame ▸ hinst)) hvalue
  · rw [Function.incomingBlocks, Function.incomingBlocks, hsame]

theorem keepsPhis_updateInst (value : Value) {f : InstKind → InstKind}
    (hf : ∀ kind, (f kind).incomingBlocks = kind.incomingBlocks) :
    editor.KeepsPhis (editor.updateInst value f) := by
  intro block hold
  refine ⟨⟨hold.1, ?_⟩, ?_⟩
  · intro inst hinst
    rw [insts_updateInst] at hinst
    obtain ⟨old, hmem, rfl⟩ := List.mem_map.mp hinst
    split_ifs <;> exact hold.2 old hmem
  · rw [Function.incomingBlocks, insts_updateInst, incomingOf_map]
    · rfl
    · intro inst
      split_ifs <;> rfl
    · intro inst _
      split_ifs
      · exact hf inst.kind
      · rfl

/-- A change of one block, given what it does to the instructions of a block. -/
theorem keepsPhis_updateBlock {f : List Inst → List Inst}
    (hincoming : ∀ insts, incomingOf (f insts) = incomingOf insts)
    (hvalue : ∀ insts, (∀ inst ∈ insts, inst.value < editor.nextValue) →
      ∀ inst ∈ f insts, inst.value < editor.nextValue) :
    editor.KeepsPhis (editor.updateBlock block f) := by
  intro b hold
  have hcases : (editor.updateBlock block f).function.insts b = f (editor.function.insts b) ∨
      (editor.updateBlock block f).function.insts b = editor.function.insts b := by
    by_cases heq : b = block
    · subst heq
      exact insts_updateBlock_self editor f
    · exact Or.inr (insts_updateBlock_of_ne editor f heq)
  rcases hcases with hinsts | hinsts
  · refine ⟨⟨hold.1, ?_⟩, ?_⟩
    · intro inst hinst
      rw [hinsts] at hinst
      exact hvalue _ hold.2 inst hinst
    · rw [Function.incomingBlocks, hinsts, hincoming]
      rfl
  · refine ⟨⟨hold.1, ?_⟩, ?_⟩
    · intro inst hinst
      exact hold.2 inst (hinsts ▸ hinst)
    · rw [Function.incomingBlocks, hinsts]
      rfl

theorem keepsPhis_updateLast (block : BlockId) {f : InstKind → InstKind}
    (hf : ∀ kind, (f kind).incomingBlocks = kind.incomingBlocks) :
    editor.KeepsPhis (editor.updateLast block f) := by
  apply keepsPhis_updateBlock (incomingOf_updateLast hf)
  intro insts hinsts inst hinst
  rcases List.mem_append.mp hinst with hinst | hinst
  · exact hinsts inst ((List.dropLast_sublist insts).subset hinst)
  · obtain ⟨old, hold, rfl⟩ := Option.map_eq_some_iff.mp (Option.mem_toList.mp hinst)
    exact hinsts old (List.mem_of_getLast? hold)

theorem keepsPhis_createValue (editor : Editor) (name : String) :
    editor.KeepsPhis (editor.createValue name).2 :=
  keepsPhis_of_insts (Nat.le_refl _) (Nat.le_succ _) fun _ _ => rfl

theorem keepsPhis_createConstant (editor : Editor) (type : IRType) (n : Nat) :
    editor.KeepsPhis (editor.createConstant type n).2 :=
  keepsPhis_of_insts (Nat.le_refl _) (Nat.le_succ _) fun _ _ => rfl

theorem keepsPhis_createBlock (editor : Editor) (before : BlockId) :
    editor.KeepsPhis (editor.createBlock before).2 := by
  refine keepsPhis_of_insts (Nat.le_succ _) (Nat.le_refl _) ?_
  intro block hold
  rw [insts_createBlock, if_neg (Nat.ne_of_lt hold.1)]

theorem keepsPhis_insertBeforeLast (editor : Editor) (block : BlockId) (name : String)
    (type : IRType) {kind : InstKind} (hkind : kind.incomingBlocks = none) :
    editor.KeepsPhis (editor.insertBeforeLast block name type kind).2 := by
  refine (keepsPhis_createValue editor name).trans
    (keepsPhis_updateBlock (incomingOf_insertBeforeLast hkind) ?_)
  intro insts hinsts inst hinst
  rcases List.mem_append.mp hinst with hinst | hinst
  · exact hinsts inst ((List.dropLast_sublist _).subset hinst)
  · rcases List.mem_cons.mp hinst with rfl | hinst
    · exact Nat.lt_succ_self _
    · exact hinsts inst (List.mem_of_getLast? (Option.mem_toList.mp hinst))

theorem keepsPhis_append (editor : Editor) (block : BlockId) (name : String) (type : IRType)
    {kind : InstKind} (hkind : kind.incomingBlocks = none) :
    editor.KeepsPhis (editor.append block name type kind).2 := by
  refine (keepsPhis_createValue editor name).trans (keepsPhis_updateBlock ?_ ?_)
  · intro insts
    simp [incomingOf, hkind]
  · intro insts hinsts inst hinst
    rcases List.mem_append.mp hinst with hinst | hinst
    · exact hinsts inst hinst
    · obtain rfl := List.mem_singleton.mp hinst
      exact Nat.lt_succ_self _

section Stages

variable {ivType : IRType} {tileSizeVal : Value}

/-- A tile loop is filled into its own blocks only. -/
theorem insts_fillTileLoop (ivType : IRType) (tileSizeVal : Value) (currentPreheader : BlockId)
    (loop : LoopDescriptor) {header latch b : BlockId} (hheader : b ≠ header) (hlatch : b ≠ latch)
    (hfresh : ∀ inst ∈ editor.function.insts b, inst.value < editor.nextValue) :
    (editor.fillTileLoop ivType tileSizeVal currentPreheader header latch loop).2.function.insts b =
      editor.function.insts b := by
  have hne : ∀ inst ∈ editor.function.insts b, inst.value ≠ editor.nextValue :=
    fun inst hinst => Nat.ne_of_lt (hfresh inst hinst)
  simp only [Editor.fillTileLoop]
  rw [insts_append_of_ne hlatch, insts_append_of_ne hlatch, insts_updateInst_of_fresh,
    insts_append_of_ne hlatch, insts_updateInst_of_fresh, insts_append_of_ne hheader]
  · rwa [insts_append_of_ne hheader]
  · rw [insts_append_of_ne hlatch, insts_updateInst_of_fresh, insts_append_of_ne hheader]
    · exact hne
    · rwa [insts_append_of_ne hheader]

theorem keepsPhis_redirectFirstSuccessor {dest : BlockId}
    (h : editor.redirectFirstSuccessor block dest = .ok editor') : editor.KeepsPhis editor' := by
  obtain ⟨terminator, _, h⟩ := bind_eq_ok h
  split at h
  · exact absurd h (by simp)
  · obtain rfl := Except.ok.inj h
    exact keepsPhis_updateLast block (incomingBlocks_replaceSuccessorWith _ _)

theorem keepsPhis_createTileLoop {originalHeader currentPreheader : BlockId}
    {loop : LoopDescriptor} {tile : TileLoop}
    (h : editor.createTileLoop ivType tileSizeVal originalHeader currentPreheader loop =
      .ok (tile, editor')) : editor.KeepsPhis editor' := by
  obtain ⟨redirected, hredirect, h⟩ := bind_eq_ok h
  have hfilled : (redirected.fillTileLoop ivType tileSizeVal currentPreheader editor.nextBlock
      (editor.nextBlock + 1) loop).2 = editor' := congrArg Prod.snd (Except.ok.inj h)
  intro block hold
  have hcreated := ((keepsPhis_createBlock editor originalHeader).trans
    (keepsPhis_createBlock _ originalHeader)).trans (keepsPhis_redirectFirstSuccessor hredirect)
  obtain ⟨hold', hsame⟩ := hcreated block hold
  have hheader : block ≠ editor.nextBlock := Nat.ne_of_lt hold.1
  have hlatch : block ≠ editor.nextBlock + 1 := Nat.ne_of_lt (Nat.lt_succ_of_lt hold.1)
  have hfill := insts_fillTileLoop ivType tileSizeVal currentPreheader loop hheader hlatch hold'.2
  have hvalue : editor'.nextValue = redirected.nextValue + 4 := by rw [← hfilled]; rfl
  have hblock : editor'.nextBlock = redirected.nextBlock := by rw [← hfilled]; rfl
  rw [hfilled] at hfill
  refine ⟨⟨hblock ▸ hold'.1, ?_⟩, ?_⟩
  · intro inst hinst
    rw [hvalue]
    exact Nat.lt_of_lt_of_le (hold'.2 inst (hfill ▸ hinst)) (Nat.le_add_right _ 4)
  · rw [Function.incomingBlocks, hfill]
    exact hsame

theorem keepsPhis_createTileLoops {originalHeader currentPreheader : BlockId}
    {loops : List LoopDescriptor} {tiles : List TileLoop}
    (h : editor.createTileLoops ivType tileSizeVal originalHeader currentPreheader loops =
      .ok (tiles, editor')) : editor.KeepsPhis editor' := by
  induction loops generalizing editor currentPreheader tiles with
  | nil =>
      obtain ⟨_, rfl⟩ := Prod.mk.inj (Except.ok.inj h)
      exact .refl editor
  | cons loop rest ih =>
      obtain ⟨⟨tile, tiled⟩, hfirst, h⟩ := bind_eq_ok h
      obtain ⟨⟨later, tiled'⟩, hrest, h⟩ := bind_eq_ok h
      obtain ⟨_, rfl⟩ := Prod.mk.inj (Except.ok.inj h)
      exact (keepsPhis_createTileLoop hfirst).trans (ih hrest)

theorem keepsPhis_redirectExit {originalExit outermostLatch innermostLatch : BlockId}
    {preds : List BlockId}
    (h : editor.redirectExit originalExit outermostLatch innermostLatch preds = .ok editor') :
    editor.KeepsPhis editor' := by
  induction preds with
  | nil =>
      obtain rfl := Except.ok.inj h
      exact .refl editor
  | cons pred rest ih =>
      rw [Editor.redirectExit] at h
      split_ifs at h with houtermost
      · exact ih h
      · obtain ⟨terminator, _, h⟩ := bind_eq_ok h
        obtain rfl := Except.ok.inj h
        exact keepsPhis_updateLast pred (incomingBlocks_replaceSuccessorWith _ _)

theorem keepsPhis_linkLatches {originalExit : BlockId} {tiles : List TileLoop}
    (h : editor.linkLatches originalExit tiles = .ok editor') : editor.KeepsPhis editor' := by
  induction tiles generalizing editor with
  | nil =>
      obtain rfl := Except.ok.inj h
      exact .refl editor
  | cons tile rest ih =>
      cases rest with
      | nil =>
          obtain ⟨terminator, _, h⟩ := bind_eq_ok h
          obtain rfl := Except.ok.inj h
          exact keepsPhis_updateLast tile.latch (incomingBlocks_setSuccessor 1 originalExit)
      | cons outer rest =>
          obtain ⟨terminator, _, h⟩ := bind_eq_ok h
          exact (keepsPhis_updateLast tile.latch
            (incomingBlocks_setSuccessor 1 outer.latch)).trans (ih h)

theorem keepsPhis_clampPointLoop {loop : LoopDescriptor} {tile : TileLoop}
    (h : editor.clampPointLoop ivType tileSizeVal loop tile = .ok editor') :
    editor.KeepsPhis editor' := by
  simp only [Editor.clampPointLoop] at h
  split at h
  · exact absurd h (by simp)
  · rename_i preheader _
    obtain rfl := Except.ok.inj h
    have hstart : editor.KeepsPhis (editor.updateInst loop.induction (InstKind.setIncomingWhere
        (fun block => !loop.loopNode.contains block) tile.induction)) :=
      keepsPhis_updateInst _ (incomingBlocks_setIncomingWhere _ _)
    have hinsert : ∀ (edited : Editor) (name : String) (type : IRType) (kind : InstKind),
        kind.incomingBlocks = none →
        edited.KeepsPhis (edited.insertBeforeLast preheader name type kind).2 :=
      fun edited name type _ hkind => keepsPhis_insertBeforeLast edited preheader name type hkind
    exact (((hstart.trans (hinsert _ _ _ _ rfl)).trans (hinsert _ _ _ _ rfl)).trans
      (hinsert _ _ _ _ rfl)).trans (keepsPhis_updateInst _ (incomingBlocks_setBound _))

theorem keepsPhis_clampPointLoops {loops : List (LoopDescriptor × TileLoop)}
    (h : editor.clampPointLoops ivType tileSizeVal loops = .ok editor') :
    editor.KeepsPhis editor' := by
  induction loops generalizing editor with
  | nil =>
      obtain rfl := Except.ok.inj h
      exact .refl editor
  | cons entry rest ih =>
      obtain ⟨clamped, hfirst, h⟩ := bind_eq_ok h
      exact (keepsPhis_clampPointLoop hfirst).trans (ih h)

variable (ivType tileSizeVal) in
/-- One stage of the tiling: a constant, some tile loops, a branch, the edge to the exit, the
edges out of the latches, or the bounds of the point loops. -/
inductive TilingStage : Editor → Editor → Prop
  | constant (editor : Editor) (type : IRType) (n : Nat) :
      TilingStage editor (editor.createConstant type n).2
  | tileLoops {editor editor' : Editor} {originalHeader currentPreheader : BlockId}
      {loops : List LoopDescriptor} {tiles : List TileLoop}
      (h : editor.createTileLoops ivType tileSizeVal originalHeader currentPreheader loops =
        .ok (tiles, editor')) : TilingStage editor editor'
  | branch (editor : Editor) (block dest : BlockId) :
      TilingStage editor (editor.append block "" .void (.br dest)).2
  | exit {editor editor' : Editor} {originalExit outermostLatch innermostLatch : BlockId}
      {preds : List BlockId}
      (h : editor.redirectExit originalExit outermostLatch innermostLatch preds = .ok editor') :
      TilingStage editor editor'
  | latches {editor editor' : Editor} {originalExit : BlockId} {tiles : List TileLoop}
      (h : editor.linkLatches originalExit tiles = .ok editor') : TilingStage editor editor'
  | clamp {editor editor' : Editor} {loops : List (LoopDescriptor × TileLoop)}
      (h : editor.clampPointLoops ivType tileSizeVal loops = .ok editor') :
      TilingStage editor editor'

/-- No stage gives a PHI node of an old block another incoming block. -/
theorem TilingStage.keepsPhis (h : TilingStage ivType tileSizeVal editor editor') :
    editor.KeepsPhis editor' := by
  cases h with
  | constant type n => exact keepsPhis_createConstant editor type n
  | tileLoops h => exact keepsPhis_createTileLoops h
  | branch block dest => exact keepsPhis_append editor block "" .void rfl
  | exit h => exact keepsPhis_redirectExit h
  | latches h => exact keepsPhis_linkLatches h
  | clamp h => exact keepsPhis_clampPointLoops h

theorem keepsPhis_of_stages (h : ReflTransGen (TilingStage ivType tileSizeVal) editor editor') :
    editor.KeepsPhis editor' := by
  induction h with
  | refl => exact .refl editor
  | tail _ hstage ih => exact ih.trans hstage.keepsPhis

end Stages

end Editor

/-- The tiling is made of its stages. -/
theorem stages_applyPolyhedralTiling {options : Options} {nest : LoopNestDescriptor}
    {editor editor' : Editor} {changed : Bool}
    (h : applyPolyhedralTiling options nest editor = .ok (changed, editor')) :
    ∃ ivType tileSizeVal, ReflTransGen (Editor.TilingStage ivType tileSizeVal) editor editor' := by
  have hstop : (.ok (false, editor) : Except Fault _) = .ok (changed, editor') →
      ∃ ivType tileSizeVal,
        ReflTransGen (Editor.TilingStage ivType tileSizeVal) editor editor' := by
    intro heq
    obtain ⟨_, rfl⟩ := Prod.mk.inj (Except.ok.inj heq)
    exact ⟨.void, 0, .refl⟩
  unfold applyPolyhedralTiling at h
  split at h
  · exact hstop h
  · rename_i outermost _ _
    split_ifs at h
    · exact hstop h
    · split at h
      · obtain ⟨⟨tiles, tiled⟩, htiles, h⟩ := bind_eq_ok h
        refine ⟨editor.function.type outermost.induction, editor.nextValue, ?_⟩
        have hloops := (ReflTransGen.single (Editor.TilingStage.constant editor _ _)).tail
          (.tileLoops htiles)
        simp only at h
        split at h
        · obtain ⟨redirected, hredirect, h⟩ := bind_eq_ok h
          obtain ⟨linked, hlink, h⟩ := bind_eq_ok h
          obtain ⟨clamped, hclamp, h⟩ := bind_eq_ok h
          obtain ⟨_, rfl⟩ := Prod.mk.inj (Except.ok.inj h)
          exact (((hloops.tail (.branch _ _ _)).tail (.exit hredirect)).tail
            (.latches hlink)).tail (.clamp hclamp)
        · obtain ⟨_, rfl⟩ := Prod.mk.inj (Except.ok.inj h)
          exact hloops
      · exact hstop h

section Consistency

variable {F : Function} {SE : ScalarEvolution} {entry : BlockId}

/-- The induction variable of the outermost loop has an entry for the preheader,
whose edge to the header is gone. -/
theorem not_phisFollow_of_incomingBlocks {root : Loop} {nest : LoopNestDescriptor}
    (hF : F.SSAForm entry) (hnest : analyzeLoopNest F SE root = some nest)
    {preheader exit exiting : BlockId} {headers latches : List BlockId}
    (hblocks : TileBlocks F root preheader exit exiting headers latches) {tiled : Function}
    (hedges : ∀ b c, tiled.Edge b c ↔ TiledEdge F root preheader exit headers latches b c)
    (hphis : ∀ b ∈ F.blocks.map Prod.fst, tiled.incomingBlocks b = F.incomingBlocks b) :
    ¬ tiled.PhisFollow := by
  intro hfollow
  obtain ⟨outermost, rest, _, hdescribes⟩ := analyzeLoopNest_head hnest
  obtain ⟨inst, hinst, hvalue, incoming, hkind⟩ := hdescribes.phi
  obtain ⟨block, hpreheader, hstart⟩ := hdescribes.preheader
  obtain rfl : preheader = block := Option.some.inj (hblocks.preheader.symm.trans hpreheader)
  have hheader := Function.block_of_mem_insts hinst
  have hentry : preheader ∈ incoming.map Prod.snd := by
    rw [← hvalue, incomingValueForBlock_eq hF.distinct hinst hkind] at hstart
    obtain ⟨found, hfound, _⟩ := Option.map_eq_some_iff.mp hstart
    have hblock : found.2 = preheader := by simpa using List.find?_some hfound
    exact hblock ▸ List.mem_map_of_mem (List.mem_of_find?_eq_some hfound)
  have hphi : (inst.value, incoming.map Prod.snd) ∈ tiled.incomingBlocks root.header := by
    rw [hphis root.header hheader]
    exact List.mem_filterMap.mpr ⟨inst, hinst, by simp [hkind, InstKind.incomingBlocks]⟩
  have hpred := (hfollow root.header _ hphi).subset hentry
  obtain ⟨hedge, hout, _, _⟩ := loopPreheader_spec hpreheader
  have hmem := Function.mem_blocks_of_mem_successors hedge
  -- none of the new edges leads from the preheader to the header
  cases (hedges preheader root.header).mp (Function.mem_predecessors.mp hpred) with
  | enter hc => exact (hblocks.not_mem hheader).1 (List.mem_of_head? hc)
  | inward i hb hc => exact (hblocks.not_mem hmem).1 (List.mem_of_getElem? hb)
  | point hb => exact (hblocks.not_mem hmem).1 (List.mem_of_getLast? hb)
  | leave hb hsucc hc => exact hout hb
  | «repeat» i hb hc => exact (hblocks.not_mem hmem).2 (List.mem_of_getElem? hb)
  | outward i hb hc => exact (hblocks.not_mem hmem).2 (List.mem_of_getElem? hb)
  | finish hb => exact (hblocks.not_mem hmem).2 (List.mem_of_head? hb)
  | other hsucc hb hc => exact hb rfl

/-- No function with the edges of the tiled nest and the incoming blocks of the old one has
consistent PHI nodes, and the stages of the tiling lead to no others. -/
theorem not_phisFollow (F : Function) (SE : ScalarEvolution) (entry : BlockId) (root : Loop)
    (nest : LoopNestDescriptor) (hF : F.SSAForm entry)
    (hnest : analyzeLoopNest F SE root = some nest) (preheader exit exiting : BlockId)
    (headers latches : List BlockId)
    (hblocks : TileBlocks F root preheader exit exiting headers latches) :
    (∀ tiled : Function,
      (∀ b c, tiled.Edge b c ↔ TiledEdge F root preheader exit headers latches b c) →
      (∀ b ∈ F.blocks.map Prod.fst, tiled.incomingBlocks b = F.incomingBlocks b) →
      ¬ tiled.PhisFollow) ∧
    ∀ editor edited : Editor, editor.function = F →
      (∀ inst ∈ F.allInsts, inst.value < editor.nextValue) →
      (∀ options changed, applyPolyhedralTiling options nest editor = .ok (changed, edited) →
        ∃ ivType tileSizeVal,
          ReflTransGen (Editor.TilingStage ivType tileSizeVal) editor edited) ∧
      ∀ ivType tileSizeVal,
        ReflTransGen (Editor.TilingStage ivType tileSizeVal) editor edited →
        (∀ b c, edited.function.Edge b c ↔ TiledEdge F root preheader exit headers latches b c) →
        ¬ edited.function.PhisFollow := by
  refine ⟨fun tiled => not_phisFollow_of_incomingBlocks hF hnest hblocks, ?_⟩
  rintro editor edited rfl hvalues
  refine ⟨fun _ _ => stages_applyPolyhedralTiling, fun _ _ hstages hedges => ?_⟩
  refine not_phisFollow_of_incomingBlocks hF hnest hblocks hedges fun b hb => ?_
  obtain ⟨block, hblock, rfl⟩ := List.mem_map.mp hb
  refine (Editor.keepsPhis_of_stages hstages block.1 ⟨editor.block_lt block hblock, ?_⟩).2
  intro inst hinst
  exact hvalues inst (Function.mem_allInsts hinst)

/-- The example nest behind the stages of the tiling, with the branch out of the first tile
header in front of the second tile loop. -/
def exampleTiled : Function :=
  { Payload.function {} .slt with
    blocks :=
      [(0, [⟨20, .void, .br 7⟩]),
        (7, [⟨61, .int 32, .phi [(8, 0), (62, 8)]⟩, ⟨65, .void, .br 9⟩]),
        (8, [⟨62, .int 32, .add 61 60⟩, ⟨63, .int 1, .icmp .slt 62 10⟩,
          ⟨64, .void, .condBr 63 7 6⟩]),
        (9, [⟨66, .int 32, .phi [(8, 7), (67, 10)]⟩, ⟨71, .int 32, .add 61 60⟩,
          ⟨72, .int 1, .icmp .slt 71 10⟩, ⟨73, .int 32, .select 72 71 10⟩, ⟨70, .void, .br 1⟩]),
        (10, [⟨67, .int 32, .add 66 60⟩, ⟨68, .int 1, .icmp .slt 67 10⟩,
          ⟨69, .void, .condBr 68 9 8⟩]),
        (1, [⟨1, .int 32, .phi [(61, 0), (5, 5)]⟩, ⟨3, .int 1, .icmp .slt 1 73⟩,
          ⟨21, .void, .condBr 3 2 10⟩]),
        (2, [⟨74, .int 32, .add 66 60⟩, ⟨75, .int 1, .icmp .slt 74 10⟩,
          ⟨76, .int 32, .select 75 74 10⟩, ⟨22, .void, .br 3⟩]),
        (3, [⟨2, .int 32, .phi [(66, 2), (6, 4)]⟩, ⟨4, .int 1, .icmp .slt 2 76⟩,
          ⟨23, .void, .condBr 4 4 5⟩]),
        (4, [⟨6, .int 32, .add 2 9⟩, ⟨24, .void, .br 3⟩]),
        (5, [⟨5, .int 32, .add 1 9⟩, ⟨25, .void, .br 1⟩]),
        (6, [⟨26, .void, .ret none⟩])] }

theorem exampleTiled_stages : ∃ edited : Editor,
    ReflTransGen (Editor.TilingStage (.int 32) 60) (.ofFunction (Payload.function {} .slt) 60)
      edited ∧ edited.function.blocks = exampleTiled.blocks := by
  refine ⟨_, ReflTransGen.single (Editor.TilingStage.constant _ (.int 32) 8)
    |>.tail (.tileLoops (show Editor.createTileLoops _ (.int 32) 60 1 0
      [exampleDescriptor .slt] = .ok ([⟨7, 8, 61, 62⟩], _) from rfl))
    |>.tail (.branch _ 7 1)
    |>.tail (.tileLoops (show Editor.createTileLoops _ (.int 32) 60 1 7
      [exampleInnerDescriptor] = .ok ([⟨9, 10, 66, 67⟩], _) from rfl))
    |>.tail (.branch _ 9 1)
    |>.tail (.exit (show Editor.redirectExit _ 6 8 10 [1] = .ok _ from rfl))
    |>.tail (.latches (show Editor.linkLatches _ 6 [⟨9, 10, 66, 67⟩, ⟨7, 8, 61, 62⟩] = .ok _
      from rfl))
    |>.tail (.clamp (show Editor.clampPointLoops _ (.int 32) 60
      [(exampleDescriptor .slt, ⟨7, 8, 61, 62⟩), (exampleInnerDescriptor, ⟨9, 10, 66, 67⟩)] = .ok _
      from rfl)), rfl⟩

/-- The edges out of each block. -/
theorem tiledEdge_of_exampleTiled {b c : BlockId} (hedge : exampleTiled.Edge b c) :
    TiledEdge (Payload.function {} .slt) exampleOuter 0 6 [7, 9] [8, 10] b c := by
  have hb : b ∈ [0, 7, 8, 9, 10, 1, 2, 3, 4, 5, 6] :=
    Function.mem_blocks_of_mem_successors hedge
  have hc : c ∈ exampleTiled.successors b := hedge
  simp only [List.mem_cons, List.not_mem_nil, or_false] at hb
  rcases hb with rfl | rfl | rfl | rfl | rfl | rfl | rfl | rfl | rfl | rfl | rfl
  · obtain rfl : c = 7 := List.mem_singleton.mp hc
    exact .enter rfl
  · obtain rfl : c = 9 := List.mem_singleton.mp hc
    exact .inward 0 rfl rfl
  · obtain rfl | rfl : c = 7 ∨ c = 6 := List.mem_pair.mp hc
    · exact .repeat 0 rfl rfl
    · exact .finish rfl
  · obtain rfl : c = 1 := List.mem_singleton.mp hc
    exact .point rfl
  · obtain rfl | rfl : c = 9 ∨ c = 8 := List.mem_pair.mp hc
    · exact .repeat 1 rfl rfl
    · exact .outward 0 rfl rfl
  · obtain rfl | rfl : c = 2 ∨ c = 10 := List.mem_pair.mp hc
    · exact .other (by decide) (by decide) (by decide)
    · exact .leave (by decide) (by decide) rfl
  · obtain rfl : c = 3 := List.mem_singleton.mp hc
    exact .other (by decide) (by decide) (by decide)
  · obtain rfl | rfl : c = 4 ∨ c = 5 := List.mem_pair.mp hc
    · exact .other (by decide) (by decide) (by decide)
    · exact .other (by decide) (by decide) (by decide)
  · obtain rfl : c = 3 := List.mem_singleton.mp hc
    exact .other (by decide) (by decide) (by decide)
  · obtain rfl : c = 1 := List.mem_singleton.mp hc
    exact .other (by decide) (by decide) (by decide)
  · exact absurd hc List.not_mem_nil

theorem exampleTiled_of_tiledEdge {b c : BlockId}
    (hedge : TiledEdge (Payload.function {} .slt) exampleOuter 0 6 [7, 9] [8, 10] b c) :
    exampleTiled.Edge b c := by
  have hmem : ∀ a d : BlockId, d ∈ exampleTiled.successors a → exampleTiled.Edge a d :=
    fun _ _ h => h
  cases hedge with
  | enter hc =>
      obtain rfl := Option.some.inj hc
      exact hmem 0 7 (by decide)
  | inward i hb hc =>
      cases i with
      | zero =>
          obtain rfl := Option.some.inj hb
          obtain rfl := Option.some.inj hc
          exact hmem 7 9 (by decide)
      | succ i => exact absurd hc (by simp)
  | point hb =>
      obtain rfl := Option.some.inj hb
      exact hmem 9 1 (by decide)
  | leave hb hsucc hc =>
      obtain rfl := Option.some.inj hc
      have hexiting := ((exitBlock_spec exampleOuter_tileBlocks.exit
        exampleOuter_tileBlocks.exiting).2.2.2 b hb 6 hsucc (by decide)).1
      exact hmem b 10 (hexiting ▸ by decide)
  | «repeat» i hb hc =>
      cases i with
      | zero =>
          obtain rfl := Option.some.inj hb
          obtain rfl := Option.some.inj hc
          exact hmem 8 7 (by decide)
      | succ i =>
          cases i with
          | zero =>
              obtain rfl := Option.some.inj hb
              obtain rfl := Option.some.inj hc
              exact hmem 10 9 (by decide)
          | succ i => exact absurd hc (by simp)
  | outward i hb hc =>
      cases i with
      | zero =>
          obtain rfl := Option.some.inj hb
          obtain rfl := Option.some.inj hc
          exact hmem 10 8 (by decide)
      | succ i => exact absurd hb (by simp)
  | finish hb =>
      obtain rfl := Option.some.inj hb
      exact hmem 8 6 (by decide)
  | other hsucc hb hc =>
      have hkept : ∀ a ∈ [1, 2, 3, 4, 5, 6],
          ∀ d ∈ (Payload.function {} .slt).successors a,
            ¬ (a ∈ exampleOuter.blocks ∧ d = 6) → d ∈ exampleTiled.successors a := by decide
      have hmem' : b ∈ [0, 1, 2, 3, 4, 5, 6] := Function.mem_blocks_of_mem_successors hsucc
      exact hmem b c (hkept b ((List.mem_cons.mp hmem').resolve_left hb) c hsucc hc)

theorem exampleTiled_edges (b c : BlockId) : exampleTiled.Edge b c ↔
    TiledEdge (Payload.function {} .slt) exampleOuter 0 6 [7, 9] [8, 10] b c :=
  ⟨tiledEdge_of_exampleTiled, exampleTiled_of_tiledEdge⟩

/-- The tiled example, and the function the stages lead to. -/
theorem exampleTiled_not_phisFollow : ¬ exampleTiled.PhisFollow ∧
    ∃ edited : Editor, edited.function.blocks = exampleTiled.blocks ∧
      ¬ edited.function.PhisFollow := by
  obtain ⟨hfunctions, heditors⟩ := not_phisFollow (Payload.function {} .slt) exampleEvolution 0
    exampleOuter (exampleLoops []) exampleFunction_ssaForm rfl 0 6 1 [7, 9] [8, 10]
    exampleOuter_tileBlocks
  refine ⟨hfunctions exampleTiled exampleTiled_edges (by decide), ?_⟩
  obtain ⟨edited, hstages, hblocks⟩ := exampleTiled_stages
  have hedge : ∀ b c, edited.function.Edge b c ↔ exampleTiled.Edge b c := by
    intro b c
    simp only [Function.Edge, Function.successors, Function.terminator?, Function.insts, hblocks]
  exact ⟨edited, hblocks, (heditors _ edited rfl (by decide)).2 _ _ hstages fun b c =>
    (hedge b c).trans (exampleTiled_edges b c)⟩

/-- Block 0 branches to the first tile header and is no predecessor of the header
any more, but the PHI node of `i` still has its entry. -/
theorem not_forall_phisFollow : ¬ ∀ (F : Function) (SE : ScalarEvolution) (entry : BlockId)
    (root : Loop) (nest : LoopNestDescriptor), F.SSAForm entry →
    analyzeLoopNest F SE root = some nest → ∀ (preheader exit exiting : BlockId)
    (headers latches : List BlockId), TileBlocks F root preheader exit exiting headers latches →
    ∀ tiled : Function,
    (∀ b c, tiled.Edge b c ↔ TiledEdge F root preheader exit headers latches b c) →
    (∀ b ∈ F.blocks.map Prod.fst, tiled.incomingBlocks b = F.incomingBlocks b) →
    tiled.PhisFollow := by
  intro hall
  have hfollow := hall (Payload.function {} .slt) exampleEvolution 0 exampleOuter (exampleLoops [])
    exampleFunction_ssaForm rfl 0 6 1 [7, 9] [8, 10] exampleOuter_tileBlocks exampleTiled
    exampleTiled_edges (by decide)
  have hperm : [0, 5].Perm (exampleTiled.predecessors 1) := hfollow 1 (1, [0, 5]) (by decide)
  have hpred : 0 ∈ exampleTiled.predecessors 1 := hperm.subset (by decide)
  exact absurd hpred (by decide)

end Consistency

end PolyhedralPass
