/-
The types of the instructions that tiling emits.  They are all given the type of the
outermost induction variable, and combined with the starts, bounds and comparisons of
every other loop of the nest.
-/
import PolyhedralPass.Blocking
import PolyhedralPass.Revisit
import PolyhedralPass.Typing

namespace PolyhedralPass

namespace Editor

variable {editor editor' editor'' : Editor} {type : IRType}

section Loops

variable {ivType : IRType} {tileSizeVal : Value} {loop : LoopDescriptor}

/-- The values of a loop that tiling combines have one type. -/
structure Fits (editor : Editor) (type : IRType) (loop : LoopDescriptor) : Prop where
  start : editor.Has type loop.startValue
  bound : editor.Has type loop.boundValue
  induction : editor.Has type loop.induction
  compare_lt : loop.compare < editor.nextValue
  compare : editor.Compares type loop.compare

theorem Fits.kept (h : editor.Fits type loop) (hkept : editor.Kept editor') :
    editor'.Fits type loop where
  start := h.start.kept hkept
  bound := h.bound.kept hkept
  induction := h.induction.kept hkept
  compare_lt := lt_of_lt_of_le h.compare_lt hkept.nextValue_le
  compare := h.compare.kept h.compare_lt hkept

/-- The steps in which a tile loop is filled. -/
structure FillSteps (editor opened added tested filled : Editor) (ivType : IRType)
    (tileSizeVal : Value) (currentPreheader header latch : BlockId) (loop : LoopDescriptor) :
    Prop where
  phi : Inserts editor opened ⟨editor.nextValue, ivType, .phi []⟩
  next : Inserts (opened.updateInst editor.nextValue
    (InstKind.addIncoming loop.startValue currentPreheader)) added
    ⟨opened.nextValue, ivType, .add editor.nextValue tileSizeVal⟩
  test : Inserts (added.updateInst editor.nextValue
    (InstKind.addIncoming opened.nextValue latch)) tested
    ⟨added.nextValue, .int 1, .icmp loop.predicate opened.nextValue loop.boundValue⟩
  branch : Inserts tested filled
    ⟨tested.nextValue, .void, .condBr added.nextValue header latch⟩

theorem fillTileLoop_steps {header latch : BlockId}
    (hheader : header ∈ editor.function.blocks.map Prod.fst)
    (hlatch : latch ∈ editor.function.blocks.map Prod.fst) (ivType : IRType) (tileSizeVal : Value)
    (currentPreheader : BlockId) (loop : LoopDescriptor) : ∃ opened added tested,
      FillSteps editor opened added tested
        (editor.fillTileLoop ivType tileSizeVal currentPreheader header latch loop).2 ivType
        tileSizeVal currentPreheader header latch loop := by
  let name := "tile." ++ loop.inductionName
  let opened := (editor.append header (name ++ ".iv") ivType (.phi [])).2
  let started := opened.updateInst editor.nextValue
    (InstKind.addIncoming loop.startValue currentPreheader)
  let added := (started.append latch (name ++ ".next") ivType (.add editor.nextValue tileSizeVal)).2
  let closed := added.updateInst editor.nextValue
    (InstKind.addIncoming opened.nextValue latch)
  let tested := (closed.append latch (name ++ ".cmp") (.int 1)
    (.icmp loop.predicate opened.nextValue loop.boundValue)).2
  have hstarted : latch ∈ started.function.blocks.map Prod.fst := by
    rwa [ids_updateInst, ids_append]
  have hclosed : latch ∈ closed.function.blocks.map Prod.fst := by
    rwa [ids_updateInst, ids_append]
  have htested : latch ∈ tested.function.blocks.map Prod.fst := by
    rwa [ids_append]
  exact ⟨opened, added, tested, inserts_append hheader _ _ _, inserts_append hstarted _ _ _,
    inserts_append hclosed _ _ _, inserts_append htested _ _ _⟩

section Fill

variable {opened added tested filled : Editor} {currentPreheader header latch : BlockId}

/-- The values that are made on the way, and those that were there. -/
theorem FillSteps.kept (h : FillSteps editor opened added tested filled ivType tileSizeVal
      currentPreheader header latch loop) (hold : editor.Declared) :
    (editor.Kept opened ∧ opened.Declared) ∧ (opened.Kept added ∧ added.Declared) ∧
      (added.Kept tested ∧ tested.Declared) ∧ tested.Kept filled ∧ filled.Declared := by
  have hopened := h.phi.declared hold
  have hstarted := (sameTypes_updateInst editor.nextValue
    (InstKind.addIncoming loop.startValue currentPreheader)).declared hopened
  have hadded := h.next.declared hstarted
  have hclosed := (sameTypes_updateInst editor.nextValue
    (InstKind.addIncoming opened.nextValue latch)).declared hadded
  have htested := h.test.declared hclosed
  exact ⟨⟨h.phi.kept hold, hopened⟩,
    ⟨(kept_updateInst _ (compared_addIncoming _ _)).trans (h.next.kept hstarted), hadded⟩,
    ⟨(kept_updateInst _ (compared_addIncoming _ _)).trans (h.test.kept hclosed), htested⟩,
    h.branch.kept htested, h.branch.declared htested⟩

theorem FillSteps.kept_filled (h : FillSteps editor opened added tested filled ivType tileSizeVal
      currentPreheader header latch loop) (hold : editor.Declared) :
    editor.Kept filled ∧ filled.Declared ∧ filled.Has ivType editor.nextValue := by
  obtain ⟨⟨hopened, hdeclared⟩, ⟨hadded, _⟩, ⟨htested, _⟩, hfilled, hdeclared'⟩ := h.kept hold
  have hlater := (hadded.trans htested).trans hfilled
  exact ⟨hopened.trans hlater, hdeclared', (h.phi.has_new hold).kept hlater⟩

/-- The tile loop of a loop that fits has the right types. -/
theorem FillSteps.typed (h : FillSteps editor opened added tested filled ivType tileSizeVal
      currentPreheader header latch loop) (hold : editor.Typed)
    (htile : editor.Has ivType tileSizeVal) (hloop : editor.Fits ivType loop) : filled.Typed := by
  obtain ⟨⟨hopened, _⟩, ⟨hadded, _⟩, _⟩ := h.kept hold.declared
  -- the PHI node with the start of the loop
  have hphi := h.phi.has_new hold.declared
  have htyped : opened.Typed :=
    h.phi.typed hold (by simp [InstKind.operands]) (by simp [InstKind.Typed])
  have hstarted := htyped.addIncoming hphi (hloop.start.kept hopened) currentPreheader
  have hkept : opened.Kept _ := kept_updateInst editor.nextValue
    (compared_addIncoming loop.startValue currentPreheader)
  -- the increment in the latch
  have hnext := h.next.has_new hstarted.declared
  have htyped' : added.Typed := by
    refine h.next.typed hstarted ?_
      ⟨(hphi.kept hkept).type_eq, ((htile.kept hopened).kept hkept).type_eq⟩
    intro value hvalue
    rcases List.mem_pair.mp hvalue with rfl | rfl
    · exact (hphi.kept hkept).lt
    · exact ((htile.kept hopened).kept hkept).lt
  have hclosed := htyped'.addIncoming (hphi.kept hadded) hnext latch
  have hkept' : added.Kept _ := kept_updateInst editor.nextValue
    (compared_addIncoming opened.nextValue latch)
  -- the test and the branch
  have hbound := ((hloop.bound.kept hopened).kept hadded).kept hkept'
  have htested : tested.Typed := by
    refine h.test.typed hclosed ?_ ((hnext.kept hkept').type_eq.trans hbound.type_eq.symm)
    intro value hvalue
    rcases List.mem_pair.mp hvalue with rfl | rfl
    · exact (hnext.kept hkept').lt
    · exact hbound.lt
  refine h.branch.typed htested ?_ trivial
  intro value hvalue
  obtain rfl := List.mem_singleton.mp hvalue
  exact (h.test.has_new hclosed.declared).lt

/-- The PHI node of a tile loop has the start of its loop as an operand. -/
theorem FillSteps.start_of_wellTyped (h : FillSteps editor opened added tested filled ivType
      tileSizeVal currentPreheader header latch loop) (hold : editor.Declared)
    (hstart : loop.startValue < editor.nextValue) (htyped : filled.function.WellTyped) :
    editor.function.type loop.startValue = ivType := by
  let start := (loop.startValue, currentPreheader)
  have hstarted : ⟨editor.nextValue, ivType, .phi [start]⟩ ∈ (opened.updateInst editor.nextValue
      (InstKind.addIncoming loop.startValue currentPreheader)).function.allInsts := by
    rw [allInsts_updateInst]
    exact List.mem_map.mpr ⟨_, (h.phi.mem_iff _).mpr (Or.inr rfl), if_pos rfl⟩
  have hclosed : ⟨editor.nextValue, ivType, .phi [start, (opened.nextValue, latch)]⟩ ∈
      (added.updateInst editor.nextValue
        (InstKind.addIncoming opened.nextValue latch)).function.allInsts := by
    rw [allInsts_updateInst]
    exact List.mem_map.mpr ⟨_, (h.next.mem_iff _).mpr (Or.inl hstarted), if_pos rfl⟩
  have hfilled := (h.branch.mem_iff _).mpr (Or.inl ((h.test.mem_iff _).mpr (Or.inl hclosed)))
  rw [← (h.kept_filled hold).1.type_eq _ hstart]
  exact (htyped _ hfilled).2 start List.mem_cons_self

end Fill

section Clamp

variable {tile : TileLoop} {added tested selected clamped : Editor} {test : BlockId → Bool}

/-- The steps in which the start and the bound of a point loop are replaced. -/
structure ClampSteps (editor added tested selected clamped : Editor) (ivType : IRType)
    (tileSizeVal : Value) (loop : LoopDescriptor) (tile : TileLoop) (test : BlockId → Bool) :
    Prop where
  ending : Inserts (editor.updateInst loop.induction
    (InstKind.setIncomingWhere test tile.induction)) added
    ⟨editor.nextValue, ivType, .add tile.induction tileSizeVal⟩
  test : Inserts added tested
    ⟨added.nextValue, .int 1, .icmp loop.predicate editor.nextValue loop.boundValue⟩
  minimum : Inserts tested selected
    ⟨tested.nextValue, ivType, .select added.nextValue editor.nextValue loop.boundValue⟩
  clamped_eq : clamped = selected.updateInst loop.compare (InstKind.setBound tested.nextValue)

theorem mem_blocks_of_loopPreheader {F : Function} {L : Loop} {preheader : BlockId}
    (h : L.loopPreheader F = some preheader) : preheader ∈ F.blocks.map Prod.fst := by
  obtain ⟨terminator, hterminator, _⟩ := terminator_of_loopPreheader h
  have hlast := (Option.filter_eq_some_iff.mp hterminator).1
  exact Function.block_of_mem_insts (List.mem_of_getLast? hlast)

theorem clampPointLoop_steps
    (h : editor.clampPointLoop ivType tileSizeVal loop tile = .ok clamped) :
    ∃ added tested selected test,
      ClampSteps editor added tested selected clamped ivType tileSizeVal loop tile test := by
  simp only [Editor.clampPointLoop] at h
  split at h
  · exact absurd h (by simp)
  · rename_i preheader hpreheader
    obtain rfl := Except.ok.inj h
    have hblock := mem_blocks_of_loopPreheader hpreheader
    exact ⟨_, _, _, _, inserts_insertBeforeLast hblock _ _ _,
      inserts_insertBeforeLast (by rwa [ids_insertBeforeLast]) _ _ _,
      inserts_insertBeforeLast (by rwa [ids_insertBeforeLast, ids_insertBeforeLast]) _ _ _, rfl⟩

theorem ClampSteps.kept (h : ClampSteps editor added tested selected clamped ivType tileSizeVal loop
      tile test) (hold : editor.Declared) :
    (editor.Kept added ∧ added.Declared) ∧ (added.Kept tested ∧ tested.Declared) ∧
      (tested.Kept selected ∧ selected.Declared) ∧ selected.Kept clamped ∧ clamped.Declared := by
  have hstarted := (sameTypes_updateInst loop.induction
    (InstKind.setIncomingWhere test tile.induction)).declared hold
  have hadded := h.ending.declared hstarted
  have htested := h.test.declared hadded
  have hselected := h.minimum.declared htested
  refine ⟨⟨(kept_updateInst _ (compared_setIncomingWhere _ _)).trans (h.ending.kept hstarted),
    hadded⟩, ⟨h.test.kept hadded, htested⟩, ⟨h.minimum.kept htested, hselected⟩, ?_⟩
  rw [h.clamped_eq]
  exact ⟨kept_updateInst _ (compared_setBound _), (sameTypes_updateInst _ _).declared hselected⟩

/-- The clamp of a loop that fits has the right types. -/
theorem ClampSteps.typed (h : ClampSteps editor added tested selected clamped ivType
      tileSizeVal loop tile test) (hold : editor.Typed) (htile : editor.Has ivType tileSizeVal)
    (hloop : editor.Fits ivType loop) (hstart : editor.Has ivType tile.induction) :
    clamped.Typed := by
  obtain ⟨⟨hadded, _⟩, ⟨htested, _⟩, ⟨hselected, _⟩, _⟩ := h.kept hold.declared
  -- the start of the point loop
  have hstarted := hold.setIncomingWhere hloop.induction hstart test
  have hkept : editor.Kept _ := kept_updateInst loop.induction
    (compared_setIncomingWhere test tile.induction)
  -- the end of the tile
  have hending := h.ending.has_new hstarted.declared
  have htyped : added.Typed := by
    refine h.ending.typed hstarted ?_
      ⟨(hstart.kept hkept).type_eq, (htile.kept hkept).type_eq⟩
    intro value hvalue
    rcases List.mem_pair.mp hvalue with rfl | rfl
    · exact (hstart.kept hkept).lt
    · exact (htile.kept hkept).lt
  -- its comparison with the bound of the loop
  have hbound := hloop.bound.kept hadded
  have htest := h.test.has_new htyped.declared
  have htyped' : tested.Typed := by
    refine h.test.typed htyped ?_ (hending.type_eq.trans hbound.type_eq.symm)
    intro value hvalue
    rcases List.mem_pair.mp hvalue with rfl | rfl
    · exact hending.lt
    · exact hbound.lt
  -- the smaller of the two
  have hminimum := h.minimum.has_new htyped'.declared
  have htyped'' : selected.Typed := by
    refine h.minimum.typed htyped' ?_
      ⟨htest.type_eq, (hending.kept htested).type_eq, (hbound.kept htested).type_eq⟩
    intro value hvalue
    simp only [InstKind.operands, List.mem_cons, List.not_mem_nil, or_false] at hvalue
    rcases hvalue with rfl | rfl | rfl
    · exact htest.lt
    · exact (hending.kept htested).lt
    · exact (hbound.kept htested).lt
  rw [h.clamped_eq]
  exact htyped''.setBound hminimum ((hloop.kept ((hadded.trans htested).trans hselected)).compare)

end Clamp

end Loops

section Emission

variable {ivType : IRType} {tileSizeVal : Value} {loops : List LoopDescriptor}

/-- The functions that tiling passes through, from the one it starts with: new blocks,
other targets of branches, the tile loops in their order, and the clamps. -/
inductive Emits (ivType : IRType) (tileSizeVal : Value) (loops : List LoopDescriptor)
    (start : Editor) : List TileLoop → Editor → Prop
  | start : Emits ivType tileSizeVal loops start [] start
  | block {tiles : List TileLoop} {editor : Editor} (before : BlockId)
      (h : Emits ivType tileSizeVal loops start tiles editor) :
      Emits ivType tileSizeVal loops start tiles (editor.createBlock before).2
  | target {tiles : List TileLoop} {editor : Editor} (block : BlockId) {f : InstKind → InstKind}
      (hf : InstKind.Retargets f) (h : Emits ivType tileSizeVal loops start tiles editor) :
      Emits ivType tileSizeVal loops start tiles (editor.updateLast block f)
  | jump {tiles : List TileLoop} {editor : Editor} {block : BlockId} (dest : BlockId)
      (hblock : block ∈ editor.function.blocks.map Prod.fst)
      (h : Emits ivType tileSizeVal loops start tiles editor) :
      Emits ivType tileSizeVal loops start tiles (editor.append block "" .void (.br dest)).2
  | fill {tiles : List TileLoop} {editor : Editor} {loop : LoopDescriptor}
      (currentPreheader : BlockId) {header latch : BlockId}
      (hloop : loops[tiles.length]? = some loop)
      (hheader : header ∈ editor.function.blocks.map Prod.fst)
      (hlatch : latch ∈ editor.function.blocks.map Prod.fst)
      (h : Emits ivType tileSizeVal loops start tiles editor) :
      Emits ivType tileSizeVal loops start
        (tiles ++ [(editor.fillTileLoop ivType tileSizeVal currentPreheader header latch loop).1])
        (editor.fillTileLoop ivType tileSizeVal currentPreheader header latch loop).2
  | clamp {tiles : List TileLoop} {editor clamped : Editor} {loop : LoopDescriptor}
      {tile : TileLoop} (hpair : (loop, tile) ∈ loops.zip tiles)
      (hclamp : editor.clampPointLoop ivType tileSizeVal loop tile = .ok clamped)
      (h : Emits ivType tileSizeVal loops start tiles editor) :
      Emits ivType tileSizeVal loops start tiles clamped

variable {start : Editor} {tiles : List TileLoop}

/-- What was there keeps its type, and the tile loops have the type of the outermost one. -/
theorem Emits.kept (h : Emits ivType tileSizeVal loops start tiles editor) (hold : start.Declared) :
    start.Kept editor ∧ editor.Declared ∧ ∀ tile ∈ tiles, editor.Has ivType tile.induction := by
  induction h with
  | start => exact ⟨.refl start, hold, fun tile htile => absurd htile List.not_mem_nil⟩
  | @block _ editor before _ ih =>
      obtain ⟨hkept, hdeclared, htiles⟩ := ih
      have hstep := @kept_createBlock editor before
      exact ⟨hkept.trans hstep, (sameTypes_createBlock before).declared hdeclared,
        fun tile htile => (htiles tile htile).kept hstep⟩
  | @target _ editor block _ hf _ ih =>
      obtain ⟨hkept, hdeclared, htiles⟩ := ih
      have hstep := @kept_updateLast editor block _ hf
      exact ⟨hkept.trans hstep, (sameTypes_updateLast block _).declared hdeclared,
        fun tile htile => (htiles tile htile).kept hstep⟩
  | jump dest hblock _ ih =>
      obtain ⟨hkept, hdeclared, htiles⟩ := ih
      have hinsert := inserts_append hblock "" .void (.br dest)
      have hstep := hinsert.kept hdeclared
      exact ⟨hkept.trans hstep, hinsert.declared hdeclared, fun tile htile =>
        (htiles tile htile).kept hstep⟩
  | @fill _ _ loop currentPreheader _ _ hloop hheader hlatch _ ih =>
      obtain ⟨hkept, hdeclared, htiles⟩ := ih
      obtain ⟨opened, added, tested, hsteps⟩ :=
        fillTileLoop_steps hheader hlatch ivType tileSizeVal currentPreheader loop
      obtain ⟨hstep, hfilled, hnew⟩ := hsteps.kept_filled hdeclared
      refine ⟨hkept.trans hstep, hfilled, ?_⟩
      intro tile htile
      rcases List.mem_append.mp htile with htile | htile
      · exact (htiles tile htile).kept hstep
      · rw [List.mem_singleton.mp htile]
        exact hnew
  | clamp hpair hclamp _ ih =>
      obtain ⟨hkept, hdeclared, htiles⟩ := ih
      obtain ⟨added, tested, selected, test, hsteps⟩ := clampPointLoop_steps hclamp
      obtain ⟨⟨hadded, _⟩, ⟨htested, _⟩, ⟨hselected, _⟩, hclamped, hdone⟩ := hsteps.kept hdeclared
      have hstep := ((hadded.trans htested).trans hselected).trans hclamped
      exact ⟨hkept.trans hstep, hdone, fun tile htile => (htiles tile htile).kept hstep⟩

/-- Tiling loops that all fit emits nothing of a wrong type. -/
theorem Emits.typed (h : Emits ivType tileSizeVal loops start tiles editor) (hold : start.Typed)
    (htile : start.Has ivType tileSizeVal) (hloops : ∀ loop ∈ loops, start.Fits ivType loop) :
    editor.Typed := by
  induction h with
  | start => exact hold
  | block before _ ih =>
      have htyped := ih
      refine (sameTypes_createBlock before).typed htyped.declared fun inst hinst => ?_
      rw [allInsts_createBlock] at hinst
      exact ⟨htyped.operand_lt inst hinst, (htyped.wellTyped inst hinst).2⟩
  | target block hf _ ih => exact (ih).updateLast block hf
  | jump dest hblock _ ih =>
      refine (inserts_append hblock "" .void (.br dest)).typed (ih) ?_ trivial
      exact fun value hvalue => absurd hvalue List.not_mem_nil
  | @fill _ _ loop currentPreheader _ _ hloop hheader hlatch h ih =>
      obtain ⟨hkept, _, _⟩ := h.kept hold.declared
      obtain ⟨opened, added, tested, hsteps⟩ :=
        fillTileLoop_steps hheader hlatch ivType tileSizeVal currentPreheader loop
      exact hsteps.typed (ih) (htile.kept hkept)
        ((hloops loop (List.mem_of_getElem? hloop)).kept hkept)
  | clamp hpair hclamp h ih =>
      obtain ⟨hkept, _, htiles⟩ := h.kept hold.declared
      obtain ⟨added, tested, selected, test, hsteps⟩ := clampPointLoop_steps hclamp
      obtain ⟨hloop, hmem⟩ := List.of_mem_zip hpair
      exact hsteps.typed (ih) (htile.kept hkept) ((hloops _ hloop).kept hkept)
        (htiles _ hmem)

theorem mem_blocks_createBlock (editor : Editor) (before : BlockId) :
    editor.nextBlock ∈ (editor.createBlock before).2.function.blocks.map Prod.fst := by
  simp [Editor.createBlock, Function.insertBlock]

theorem mem_blocks_createBlock_of_mem {block : BlockId} (before : BlockId)
    (h : block ∈ editor.function.blocks.map Prod.fst) :
    block ∈ (editor.createBlock before).2.function.blocks.map Prod.fst := by
  obtain ⟨entry, hentry, rfl⟩ := List.mem_map.mp h
  refine List.mem_map_of_mem ?_
  rw [← List.takeWhile_append_dropWhile (p := (·.1 != before)) (l := editor.function.blocks)]
    at hentry
  rcases List.mem_append.mp hentry with hentry | hentry
  · exact List.mem_append_left _ hentry
  · exact List.mem_append_right _ (List.mem_cons_of_mem _ hentry)

theorem ids_fillTileLoop (editor : Editor) (ivType : IRType) (tileSizeVal : Value)
    (currentPreheader header latch : BlockId) (loop : LoopDescriptor) :
    (editor.fillTileLoop ivType tileSizeVal currentPreheader header latch
      loop).2.function.blocks.map Prod.fst = editor.function.blocks.map Prod.fst := by
  simp only [Editor.fillTileLoop, ids_append, ids_updateInst]

theorem ids_clampPointLoop {editor clamped : Editor} {ivType : IRType} {tileSizeVal : Value}
    {loop : LoopDescriptor} {tile : TileLoop}
    (h : editor.clampPointLoop ivType tileSizeVal loop tile = .ok clamped) :
    clamped.function.blocks.map Prod.fst = editor.function.blocks.map Prod.fst := by
  simp only [Editor.clampPointLoop] at h
  split at h
  · exact absurd h (by simp)
  · obtain rfl := Except.ok.inj h
    simp only [ids_updateInst, ids_insertBeforeLast]

/-- The headers of the tile loops are blocks from there on. -/
theorem Emits.header_mem (h : Emits ivType tileSizeVal loops start tiles editor) :
    ∀ tile ∈ tiles, tile.header ∈ editor.function.blocks.map Prod.fst := by
  induction h with
  | start => exact fun tile htile => absurd htile List.not_mem_nil
  | block before _ ih =>
      exact fun tile htile => mem_blocks_createBlock_of_mem before (ih tile htile)
  | target block _ _ ih => exact fun tile htile => (ids_updateBlock _).symm ▸ ih tile htile
  | jump dest _ _ ih => exact fun tile htile => (ids_append _ _ _).symm ▸ ih tile htile
  | fill currentPreheader _ hheader _ _ ih =>
      intro tile htile
      rw [ids_fillTileLoop]
      rcases List.mem_append.mp htile with htile | htile
      · exact ih tile htile
      · rw [List.mem_singleton.mp htile]
        exact hheader
  | clamp _ hclamp _ ih => exact fun tile htile => ids_clampPointLoop hclamp ▸ ih tile htile

/-- One round of the loop over the dimensions. -/
theorem Emits.createTileLoop (h : Emits ivType tileSizeVal loops start tiles editor)
    {loop : LoopDescriptor} (hloop : loops[tiles.length]? = some loop)
    {originalHeader currentPreheader : BlockId} {tile : TileLoop} {tiled : Editor}
    (hcreate : editor.createTileLoop ivType tileSizeVal originalHeader currentPreheader loop =
      .ok (tile, tiled)) :
    Emits ivType tileSizeVal loops start (tiles ++ [tile]) tiled := by
  obtain ⟨redirected, hredirect, hfill⟩ := bind_eq_ok hcreate
  have hblocks := (h.block originalHeader).block originalHeader
  have hids : redirected.function.blocks.map Prod.fst =
        ((editor.createBlock originalHeader).2.createBlock originalHeader).2.function.blocks.map
          Prod.fst ∧
      Emits ivType tileSizeVal loops start tiles redirected := by
    obtain ⟨terminator, _, hredirect⟩ := bind_eq_ok hredirect
    split at hredirect
    · exact absurd hredirect (by simp)
    · obtain rfl := Except.ok.inj hredirect
      exact ⟨ids_updateBlock _, hblocks.target _ (InstKind.retargets_replaceSuccessorWith _ _)⟩
  have hfill := Except.ok.inj hfill
  have hfirst := mem_blocks_createBlock_of_mem originalHeader
    (mem_blocks_createBlock editor originalHeader)
  have hsecond := mem_blocks_createBlock (editor.createBlock originalHeader).2 originalHeader
  have hemits := hids.2.fill currentPreheader hloop (hids.1 ▸ hfirst) (hids.1 ▸ hsecond)
  rw [show tile = _ from (congrArg Prod.fst hfill).symm,
    show tiled = _ from (congrArg Prod.snd hfill).symm]
  exact hemits

/-- The whole loop over the dimensions. -/
theorem Emits.createTileLoops (h : Emits ivType tileSizeVal loops start tiles editor)
    {rest : List LoopDescriptor} (hrest : loops.drop tiles.length = rest)
    {originalHeader currentPreheader : BlockId} {tiles' : List TileLoop} {tiled : Editor}
    (hcreate : editor.createTileLoops ivType tileSizeVal originalHeader currentPreheader rest =
      .ok (tiles', tiled)) :
    Emits ivType tileSizeVal loops start (tiles ++ tiles') tiled := by
  induction rest generalizing editor tiles tiles' tiled currentPreheader with
  | nil =>
      obtain ⟨rfl, rfl⟩ := Prod.mk.inj (Except.ok.inj hcreate)
      rwa [List.append_nil]
  | cons loop rest ih =>
      obtain ⟨⟨tile, first⟩, hfirst, hcreate⟩ := bind_eq_ok hcreate
      obtain ⟨⟨later, last⟩, hlater, hcreate⟩ := bind_eq_ok hcreate
      obtain ⟨rfl, rfl⟩ := Prod.mk.inj (Except.ok.inj hcreate)
      have hloop : loops[tiles.length]? = some loop := by
        rw [← List.head?_drop, hrest]
        rfl
      have hdrop : loops.drop (tiles ++ [tile]).length = rest := by
        rw [List.length_append, List.length_singleton, ← List.drop_drop, hrest]
        rfl
      have hemits := ih (h.createTileLoop hloop hfirst) hdrop hlater
      rwa [List.append_assoc] at hemits

/-- The loop over the predecessors of the exit. -/
theorem Emits.redirectExit (h : Emits ivType tileSizeVal loops start tiles editor)
    {originalExit outermostLatch innermostLatch : BlockId} {preds : List BlockId}
    {redirected : Editor} (hredirect : editor.redirectExit originalExit outermostLatch
      innermostLatch preds = .ok redirected) :
    Emits ivType tileSizeVal loops start tiles redirected := by
  induction preds with
  | nil =>
      obtain rfl := Except.ok.inj hredirect
      exact h
  | cons pred rest ih =>
      rw [Editor.redirectExit] at hredirect
      split_ifs at hredirect with hlatch
      · exact ih hredirect
      · obtain ⟨_, _, hredirect⟩ := bind_eq_ok hredirect
        obtain rfl := Except.ok.inj hredirect
        exact h.target pred (InstKind.retargets_replaceSuccessorWith _ _)

/-- The loop over the latches. -/
theorem Emits.linkLatches (h : Emits ivType tileSizeVal loops start tiles editor)
    {originalExit : BlockId} {latches : List TileLoop} {linked : Editor}
    (hlink : editor.linkLatches originalExit latches = .ok linked) :
    Emits ivType tileSizeVal loops start tiles linked := by
  induction latches generalizing editor with
  | nil =>
      obtain rfl := Except.ok.inj hlink
      exact h
  | cons tile rest ih =>
      cases rest with
      | nil =>
          obtain ⟨_, _, hlink⟩ := bind_eq_ok hlink
          obtain rfl := Except.ok.inj hlink
          exact h.target _ (InstKind.retargets_setSuccessor _ _)
      | cons outer rest =>
          obtain ⟨_, _, hlink⟩ := bind_eq_ok hlink
          exact ih (h.target _ (InstKind.retargets_setSuccessor _ _)) hlink

/-- The loop over the clamps. -/
theorem Emits.clampPointLoops (h : Emits ivType tileSizeVal loops start tiles editor)
    {pairs : List (LoopDescriptor × TileLoop)} (hpairs : ∀ pair ∈ pairs, pair ∈ loops.zip tiles)
    {clamped : Editor}
    (hclamp : editor.clampPointLoops ivType tileSizeVal pairs = .ok clamped) :
    Emits ivType tileSizeVal loops start tiles clamped := by
  induction pairs generalizing editor with
  | nil =>
      obtain rfl := Except.ok.inj hclamp
      exact h
  | cons pair rest ih =>
      obtain ⟨first, hfirst, hclamp⟩ := bind_eq_ok hclamp
      exact ih (h.clamp (hpairs pair List.mem_cons_self) hfirst)
        (fun pair hpair => hpairs pair (List.mem_cons_of_mem _ hpair)) hclamp

/-- Some function on the way has the tile loops of the first dimensions. -/
theorem Emits.exists_fill (start : Editor) {n : Nat} (hn : n ≤ loops.length) :
    ∃ tiles editor, tiles.length = n ∧ Emits ivType tileSizeVal loops start tiles editor := by
  induction n with
  | zero => exact ⟨[], start, rfl, .start⟩
  | succ n ih =>
      obtain ⟨tiles, editor, hlength, hemits⟩ := ih (Nat.le_of_succ_le hn)
      have hblock := mem_blocks_createBlock editor 0
      have hloop : loops[tiles.length]? = some loops[n] := by
        rw [hlength]
        exact List.getElem?_eq_getElem hn
      exact ⟨_, _, by simp [hlength], (hemits.block 0).fill 0 hloop hblock hblock⟩

/-- If every function on the way is well typed, every loop starts with the type of the
outermost one. -/
theorem start_of_emits (loops : List LoopDescriptor) (hold : start.Declared)
    (hlt : ∀ loop ∈ loops, loop.startValue < start.nextValue)
    (htyped : ∀ tiles editor, Emits ivType tileSizeVal loops start tiles editor →
      editor.function.WellTyped) :
    ∀ loop ∈ loops, start.function.type loop.startValue = ivType := by
  intro loop hloop
  obtain ⟨n, hn, rfl⟩ := List.getElem_of_mem hloop
  obtain ⟨tiles, editor, hlength, hemits⟩ := Emits.exists_fill start (Nat.le_of_lt hn)
  have hget : loops[tiles.length]? = some loops[n] := by
    rw [hlength]
    exact List.getElem?_eq_getElem hn
  have hblock := mem_blocks_createBlock editor 0
  have hfilled := htyped _ _ ((hemits.block 0).fill 0 hget hblock hblock)
  obtain ⟨opened, added, tested, hsteps⟩ :=
    fillTileLoop_steps hblock hblock ivType tileSizeVal 0 loops[n]
  obtain ⟨hkept, hdeclared, _⟩ := (hemits.block 0).kept hold
  have hstart := hlt _ hloop
  rw [← hkept.type_eq _ hstart]
  exact hsteps.start_of_wellTyped hdeclared (lt_of_lt_of_le hstart hkept.nextValue_le) hfilled

end Emission

section Exchange

variable {outer inner loop : LoopDescriptor} {value : Value}

/-- An induction variable gives way to one of the same type. -/
theorem Has.swapUse (houter : editor.Has type outer.induction)
    (hinner : editor.Has type inner.induction)
    {type' : IRType} (h : editor.Has type' value) (F : Function) (block : BlockId) (user : Inst) :
    editor.Has type' (swapUse F outer inner block user value) := by
  have hsame : ∀ {iv other : Value}, value = iv → editor.Has type iv → editor.Has type other →
      editor.Has type' other := by
    rintro iv other rfl hiv hother
    rwa [h.type_eq.symm.trans hiv.type_eq]
  rw [PolyhedralPass.swapUse]
  split_ifs with hvalue hcontrol hvalue' hcontrol'
  · exact h
  · exact hsame hvalue houter hinner
  · exact h
  · exact hsame hvalue' hinner houter
  · exact h

theorem sameTypes_mapInsts (f : BlockId → Inst → InstKind) :
    editor.SameTypes (editor.mapInsts f) where
  insts := by
    simp only [Editor.mapInsts, Function.mapInsts, Function.allInsts, List.flatMap_map,
      List.map_flatMap, List.map_map]
    rfl
  argType := rfl
  nextValue := rfl

theorem mem_allInsts_mapInsts {f : BlockId → Inst → InstKind} {inst : Inst}
    (h : inst ∈ (editor.mapInsts f).function.allInsts) :
    ∃ block, ∃ old ∈ editor.function.allInsts, inst = { old with kind := f block old } := by
  obtain ⟨_, hnew, hinst⟩ := List.mem_flatMap.mp h
  obtain ⟨entry, hentry, rfl⟩ := List.mem_map.mp hnew
  obtain ⟨old, hold, rfl⟩ := List.mem_map.mp hinst
  exact ⟨entry.1, old, List.mem_flatMap.mpr ⟨entry, hentry, hold⟩, rfl⟩

theorem Typed.has_operand (h : editor.Typed) {inst : Inst} (hinst : inst ∈ editor.function.allInsts)
    (hvalue : value ∈ inst.kind.operands) : editor.Has (editor.function.type value) value :=
  ⟨h.operand_lt inst hinst value hvalue, rfl⟩

/-- Behind an exchange of the induction variables the types are right. -/
theorem Typed.swapUses (h : editor.Typed) (houter : editor.Has type outer.induction)
    (hinner : editor.Has type inner.induction) : (editor.swapUses outer inner).Typed := by
  refine (sameTypes_mapInsts _).typed h.declared fun inst hinst => ?_
  obtain ⟨block, old, hold, rfl⟩ := mem_allInsts_mapInsts hinst
  have hswap : ∀ value ∈ old.kind.operands, editor.Has (editor.function.type value)
      (PolyhedralPass.swapUse editor.function outer inner block old value) :=
    fun value hvalue => houter.swapUse hinner (h.has_operand hold hvalue) _ block old
  constructor
  · intro value hvalue
    rw [InstKind.operands_mapOperands] at hvalue
    obtain ⟨operand, hoperand, rfl⟩ := List.mem_map.mp hvalue
    exact (hswap operand hoperand).lt
  · exact InstKind.typed_mapOperands (fun value hvalue => (hswap value hvalue).type_eq)
      (h.wellTyped old hold).2

theorem Fits.swapUses {type' : IRType} (h : editor.Fits type' loop)
    (houter : editor.Has type outer.induction) (hinner : editor.Has type inner.induction) :
    (editor.swapUses outer inner).Fits type' loop := by
  have hsame : editor.SameTypes (editor.swapUses outer inner) := sameTypes_mapInsts _
  have hkept : ∀ {value : Value} {type : IRType}, editor.Has type value →
      (editor.swapUses outer inner).Has type value :=
    fun hvalue => ⟨hvalue.lt, hsame.type_eq ▸ hvalue.type_eq⟩
  refine ⟨hkept h.start, hkept h.bound, hkept h.induction, h.compare_lt, ?_⟩
  intro inst hinst hvalue
  obtain ⟨block, old, hold, rfl⟩ := mem_allInsts_mapInsts hinst
  obtain ⟨lhs, hlhs, hhas⟩ := h.compare old hold hvalue
  refine ⟨_, ?_, hkept (houter.swapUse hinner hhas editor.function block old)⟩
  rw [InstKind.compared_mapOperands, hlhs, Option.map_some]

/-- The edits of an interchange keep the types right, and every loop that fits fitting. -/
theorem typed_swapLoops (h : editor.Typed) (houter : editor.Fits type outer)
    (hinner : editor.Fits type inner) (preOuter preInner : BlockId) :
    (editor.swapLoops preOuter preInner outer inner).Typed ∧
      editor.SameTypes (editor.swapLoops preOuter preInner outer inner) ∧
      ∀ type' loop, editor.Fits type' loop →
        (editor.swapLoops preOuter preInner outer inner).Fits type' loop := by
  let first := editor.updateInst outer.induction (InstKind.setIncoming preOuter inner.startValue)
  let second := first.updateInst inner.induction (InstKind.setIncoming preInner outer.startValue)
  let third := second.updateInst outer.compare (InstKind.setBound inner.boundValue)
  let fourth := third.updateInst inner.compare (InstKind.setBound outer.boundValue)
  have hfirst : editor.Kept first := kept_updateInst _ (compared_setIncoming _ _)
  have hsecond : editor.Kept second := hfirst.trans (kept_updateInst _ (compared_setIncoming _ _))
  have hthird : editor.Kept third := hsecond.trans (kept_updateInst _ (compared_setBound _))
  have hfourth : editor.Kept fourth := hthird.trans (kept_updateInst _ (compared_setBound _))
  have htyped : first.Typed := h.setIncoming houter.induction hinner.start preOuter
  have htyped : second.Typed := htyped.setIncoming (hinner.induction.kept hfirst)
    (houter.start.kept hfirst) preInner
  have htyped : third.Typed := htyped.setBound (hinner.bound.kept hsecond)
    (houter.kept hsecond).compare
  have htyped : fourth.Typed := htyped.setBound (houter.bound.kept hthird)
    (hinner.kept hthird).compare
  have hsame : editor.SameTypes fourth :=
    (((sameTypes_updateInst _ _).trans (sameTypes_updateInst _ _)).trans
      (sameTypes_updateInst _ _)).trans (sameTypes_updateInst _ _)
  have houter' := houter.induction.kept hfourth
  have hinner' := hinner.induction.kept hfourth
  exact ⟨htyped.swapUses houter' hinner', hsame.trans (sameTypes_mapInsts _),
    fun _ _ hloop => (hloop.kept hfourth).swapUses houter' hinner'⟩

theorem Typed.setName (h : editor.Typed) (value : Value) (name : String) :
    (editor.setName value name).Typed := ⟨h.value_lt, h.operand_lt, h.wellTyped⟩

theorem Fits.setName (h : editor.Fits type loop) (value : Value) (name : String) :
    (editor.setName value name).Fits type loop :=
  ⟨⟨h.start.lt, h.start.type_eq⟩, ⟨h.bound.lt, h.bound.type_eq⟩,
    ⟨h.induction.lt, h.induction.type_eq⟩, h.compare_lt, fun inst hinst hvalue =>
      (h.compare inst hinst hvalue).imp fun _ hlhs => ⟨hlhs.1, hlhs.2.lt, hlhs.2.type_eq⟩⟩

/-- The loops that the analysis describes fit. -/
theorem fits_of_describes {SE : ScalarEvolution} {L : Loop} (hF : editor.function.Distinct)
    (hold : editor.Typed) (h : Describes editor.function SE L loop) :
    editor.Fits (editor.function.type loop.induction) loop := by
  obtain ⟨compare, hcompare, hvalue, hkind⟩ := h.compare_mem hF
  obtain ⟨phi, hphi, hinduction, incoming, hincoming⟩ := h.phi
  have hphi' := Function.mem_allInsts hphi
  obtain ⟨preheader, _, hstart⟩ := h.preheader
  rw [← hinduction, incomingValueForBlock_eq hF hphi hincoming] at hstart
  obtain ⟨entry, hentry, heq⟩ := Option.map_eq_some_iff.mp hstart
  have hentry := List.mem_of_find?_eq_some hentry
  obtain ⟨hself, htyped⟩ := hold.wellTyped phi hphi'
  have hoperands := hold.operand_lt phi hphi'
  rw [hincoming] at htyped hoperands
  have hbounds := (hold.wellTyped compare hcompare).2
  have hcompared := hold.operand_lt compare hcompare
  rw [hkind] at hbounds hcompared
  refine ⟨⟨?_, ?_⟩, ⟨hcompared _ (by simp [InstKind.operands]), hbounds.symm⟩,
    ⟨hcompared _ (by simp [InstKind.operands]), rfl⟩, hvalue ▸ hold.value_lt compare hcompare, ?_⟩
  · rw [← heq]
    exact hoperands entry.1 (List.mem_map_of_mem hentry)
  · rw [← heq, htyped entry hentry, ← hself, hinduction]
  · intro inst hinst hinstValue
    rw [h.compare_kind hF hinst hinstValue]
    exact ⟨_, rfl, hcompared _ (by simp [InstKind.operands]), rfl⟩

end Exchange

section Constants

theorem type_createConstant {value : Value} (hne : value ≠ editor.nextValue) (n : Nat) :
    (editor.createConstant type n).2.function.type value = editor.function.type value := by
  have hinst : (editor.createConstant type n).2.function.inst? value =
      editor.function.inst? value :=
    rfl
  rw [Function.type, hinst, Function.type]
  exact congrArg _ (Function.update_of_ne hne _ _)

theorem kept_createConstant (editor : Editor) (type : IRType) (n : Nat) :
    editor.Kept (editor.createConstant type n).2 :=
  ⟨Nat.le_succ _, fun _ hvalue => type_createConstant (Nat.ne_of_lt hvalue) n,
    fun inst hinst _ => ⟨inst, hinst, rfl, rfl⟩⟩

theorem typed_createConstant (h : editor.Typed) (type : IRType) (n : Nat) :
    (editor.createConstant type n).2.Typed where
  value_lt := fun inst hinst => Nat.lt_succ_of_lt (h.value_lt inst hinst)
  operand_lt := fun inst hinst value hvalue => Nat.lt_succ_of_lt
    (h.operand_lt inst hinst value hvalue)
  wellTyped := by
    intro inst hinst
    obtain ⟨hself, htyped⟩ := h.wellTyped inst hinst
    refine ⟨(type_createConstant (Nat.ne_of_lt (h.value_lt inst hinst)) n).trans hself, ?_⟩
    refine (InstKind.typed_congr fun value hvalue => ?_).mpr htyped
    exact type_createConstant (Nat.ne_of_lt (h.operand_lt inst hinst value hvalue)) n

theorem has_createConstant (h : editor.Declared) (n : Nat) :
    (editor.createConstant type n).2.Has type editor.nextValue where
  lt := Nat.lt_succ_self _
  type_eq := by
    have hnone : editor.function.inst? editor.nextValue = none := by
      rw [Function.inst?, List.find?_eq_none]
      intro inst hinst
      have hne := Nat.ne_of_lt (h.value_lt inst hinst)
      simpa using hne
    have hinst : (editor.createConstant type n).2.function.inst? editor.nextValue = none := hnone
    rw [Function.type, hinst]
    exact Function.update_self _ _ _

end Constants

end Editor

section Stages

variable {SE : ScalarEvolution} {root : Loop} {nest nest' : LoopNestDescriptor}
  {editor editor' : Editor}

/-- What tiling starts with: the types are right, and each loop is of one type. -/
structure Settled (nest nest' : LoopNestDescriptor) (editor editor' : Editor) : Prop where
  typed : editor'.Typed
  type_eq : editor'.function.type = editor.function.type
  fits : ∀ loop ∈ nest'.loops, editor'.Fits (editor'.function.type loop.induction) loop
  inductions : nest'.loops.map LoopDescriptor.induction = nest.loops.map LoopDescriptor.induction
  nodes : nest'.loops.map LoopDescriptor.loopNode = nest.loops.map LoopDescriptor.loopNode
  preheader : ∀ L : Loop, L.loopPreheader editor'.function = L.loopPreheader editor.function
  exit : ∀ L : Loop, L.exitBlock editor'.function = L.exitBlock editor.function

theorem settled_self (hF : editor.function.Distinct) (hold : editor.Typed)
    (hnest : analyzeLoopNest editor.function SE root = some nest) :
    Settled nest nest editor editor := by
  refine ⟨hold, rfl, ?_, rfl, rfl, fun _ => rfl, fun _ => rfl⟩
  intro loop hloop
  obtain ⟨L, _, hL⟩ := exists_describes hnest hloop
  exact Editor.fits_of_describes hF hold hL

theorem settled_interchange {renamed : Function → Value → String} {idxOuter idxInner : Nat}
    (hF : editor.function.Distinct) (hold : editor.Typed)
    (hnest : analyzeLoopNest editor.function SE root = some nest)
    (h : applyLoopInterchange renamed nest idxOuter idxInner editor = .ok (true, nest', editor')) :
    Settled nest nest' editor editor' := by
  have hself := settled_self hF hold hnest
  obtain ⟨_, _, _, _, hswap⟩ := applyLoopInterchange_ok h
  obtain ⟨outer, inner, preOuter, preInner, nameOuter, nameInner, houter, hinner, htype, _, _, rfl,
    rfl⟩ := applyLoopInterchange_eq h
  obtain ⟨name, hfunction⟩ := hswap.function_eq
  have hfitsOuter := hself.fits outer (List.mem_of_getElem? houter)
  have hfitsInner := hself.fits inner (List.mem_of_getElem? hinner)
  rw [← htype] at hfitsInner
  obtain ⟨htyped, hsame, hfits⟩ := Editor.typed_swapLoops hold hfitsOuter hfitsInner
    preOuter preInner
  refine ⟨(htyped.setName _ _).setName _ _, hsame.type_eq, ?_,
    map_swapBounds (fun _ _ => rfl) houter hinner, map_swapBounds (fun _ _ => rfl) houter hinner,
    ?_, ?_⟩
  · intro loop hloop
    refine ((?_ : Editor.Fits _ _ loop).setName _ _).setName _ _
    change Editor.Fits _ ((editor.swapLoops preOuter preInner outer inner).function.type
      loop.induction) loop
    rw [hsame.type_eq]
    apply hfits
    rcases List.mem_or_eq_of_mem_set hloop with hloop | rfl
    · rcases List.mem_or_eq_of_mem_set hloop with hloop | rfl
      · exact hself.fits loop hloop
      · exact ⟨hfitsInner.start, hfitsInner.bound, hfitsOuter.induction, hfitsOuter.compare_lt,
          hfitsOuter.compare⟩
    · change editor.Fits (editor.function.type inner.induction) _
      rw [← htype]
      exact ⟨hfitsOuter.start, hfitsOuter.bound, hfitsInner.induction, hfitsInner.compare_lt,
        hfitsInner.compare⟩
  · intro L
    rw [hfunction]
    exact keepsBranches_swapKind.loopPreheader_eq L
  · intro L
    rw [hfunction]
    exact keepsBranches_swapKind.exitBlock_eq L

theorem settled_interchangeNest {env : Environment} {interchanged : Bool}
    (hF : editor.function.Distinct) (hold : editor.Typed)
    (hnest : analyzeLoopNest editor.function env.SE root = some nest)
    (h : interchangeNest env nest editor = .ok (interchanged, nest', editor')) :
    Settled nest nest' editor editor' := by
  unfold interchangeNest at h
  split_ifs at h
  · cases interchanged with
    | false =>
        obtain ⟨rfl, rfl⟩ := optimizeLoopOrder_unchanged h
        exact settled_self hF hold hnest
    | true =>
        obtain ⟨idxOuter, idxInner, happly⟩ := optimizeLoopOrder_changed h
        exact settled_interchange hF hold hnest happly
  · obtain ⟨_, hrest⟩ := Prod.mk.inj (Except.ok.inj h)
    obtain ⟨rfl, rfl⟩ := Prod.mk.inj hrest
    exact settled_self hF hold hnest

/-- The nest is left untiled, or every function on the way of its tiling is well typed. -/
def TilingTyped (options : Options) (nest : LoopNestDescriptor) (editor : Editor) : Prop :=
  applyPolyhedralTiling options nest editor = .ok (false, editor) ∨
    ∀ outermost, nest.loops.head? = some outermost → ∀ tiles emitted,
      Editor.Emits (editor.function.type outermost.induction) editor.nextValue nest.loops
        (editor.createConstant (editor.function.type outermost.induction)
          options.tileSize.toNat).2 tiles emitted →
      emitted.function.WellTyped

/-- A tiling that completes is made of these steps. -/
theorem emits_applyPolyhedralTiling {options : Options}
    (h : applyPolyhedralTiling options nest editor = .ok (true, editor')) :
    ∃ outermost, nest.loops.head? = some outermost ∧ ∃ tiles,
      Editor.Emits (editor.function.type outermost.induction) editor.nextValue nest.loops
        (editor.createConstant (editor.function.type outermost.induction)
          options.tileSize.toNat).2 tiles editor' := by
  have hstop : (.ok (false, editor) : Except Fault _) ≠ .ok (true, editor') := by simp
  unfold applyPolyhedralTiling at h
  split at h
  · exact absurd h hstop
  · rename_i outermost rest hloops
    split_ifs at h
    · exact absurd h hstop
    · split at h
      · obtain ⟨⟨tiles, tiled⟩, htiles, h⟩ := bind_eq_ok h
        have hemits := Editor.Emits.start.createTileLoops rfl htiles
        simp only at h
        split at h
        · rename_i first last hfirst hlast
          obtain ⟨redirected, hredirect, h⟩ := bind_eq_ok h
          obtain ⟨linked, hlink, h⟩ := bind_eq_ok h
          obtain ⟨clamped, hclamp, h⟩ := bind_eq_ok h
          obtain ⟨_, rfl⟩ := Prod.mk.inj (Except.ok.inj h)
          have hmem := hemits.header_mem last (List.mem_of_getLast? hlast)
          have hjump := hemits.jump outermost.loopNode.header hmem
          exact ⟨outermost, by rw [hloops, List.head?_cons], tiles,
            ((hjump.redirectExit hredirect).linkLatches hlink).clampPointLoops
              (fun _ hpair => hpair) hclamp⟩
        · exact absurd (Prod.mk.inj (Except.ok.inj h)).1 (by simp)
      · exact absurd h hstop

/-- A tiling that completes, in a nest whose tiling is well typed. -/
theorem TilingTyped.applied {options : Options} (h : TilingTyped options nest editor)
    (happly : applyPolyhedralTiling options nest editor = .ok (true, editor')) :
    editor'.function.WellTyped := by
  rcases h with huntiled | hemits
  · rw [huntiled] at happly
    exact absurd (Prod.mk.inj (Except.ok.inj happly)).1 (by simp)
  · obtain ⟨outermost, hhead, tiles, hsteps⟩ := emits_applyPolyhedralTiling happly
    exact hemits outermost hhead tiles editor' hsteps

/-- The induction variables of a nest have one type. -/
def LoopNestDescriptor.OneType (F : Function) (nest : LoopNestDescriptor) : Prop :=
  ∀ loop ∈ nest.loops, ∀ other ∈ nest.loops, F.type loop.induction = F.type other.induction

instance (F : Function) (nest : LoopNestDescriptor) : Decidable (nest.OneType F) :=
  inferInstanceAs (Decidable (∀ loop ∈ nest.loops, ∀ other ∈ nest.loops,
    F.type loop.induction = F.type other.induction))

theorem applyPolyhedralTiling_untiled {options : Options} {outermost : LoopDescriptor}
    {rest : List LoopDescriptor} (hloops : nest.loops = outermost :: rest)
    (h : options.enableBlocking = false ∨ outermost.loopNode.exitBlock editor.function = none) :
    applyPolyhedralTiling options nest editor = .ok (false, editor) := by
  unfold applyPolyhedralTiling
  simp only [hloops]
  rcases h with h | h
  · rw [h]
    rfl
  · rw [h]
    split_ifs
    · rfl
    · cases outermost.loopNode.loopPreheader editor.function <;> rfl

/-- Tiling is well typed exactly where nothing is tiled, or the induction variables of the
nest have one type. -/
theorem tilingTyped_iff (env : Environment) (editor editor' : Editor) (root : Loop)
    (nest nest' : LoopNestDescriptor) (interchanged : Bool) (hF : editor.function.Distinct)
    (htyped : editor.Typed) (hnest : analyzeLoopNest editor.function env.SE root = some nest)
    (h : interchangeNest env nest editor = .ok (interchanged, nest', editor')) :
    TilingTyped env.options nest' editor' ↔ (env.options.enableBlocking = true →
      (root.exitBlock editor.function).isSome → nest.OneType editor.function) := by
  have hsettled := settled_interchangeNest hF htyped hnest h
  obtain ⟨first, others, hfirst, hdescribes⟩ := analyzeLoopNest_head hnest
  obtain ⟨hdepth, _, _⟩ := describes_of_analyzeLoopNest hnest
  have hnodes := hsettled.nodes
  have hinductions := hsettled.inductions
  rw [hfirst] at hnodes hinductions
  obtain ⟨outermost, rest, hloops, hnode, _⟩ := List.map_eq_cons_iff.mp hnodes
  rw [hdescribes.loopNode] at hnode
  have hinduction : outermost.induction = first.induction := by
    rw [hloops] at hinductions
    exact (List.cons.inj hinductions).1
  have hdepth' : 2 ≤ nest'.depth := by
    have hlength := congrArg List.length hsettled.nodes
    rw [List.length_map, List.length_map] at hlength
    rw [LoopNestDescriptor.depth, hlength]
    exact hdepth
  -- the types of the induction variables, before and after the interchange
  have htypes : nest.OneType editor.function ↔ ∀ loop ∈ nest'.loops,
      editor'.function.type loop.induction = editor'.function.type outermost.induction := by
    have hmem : ∀ value, value ∈ nest.loops.map LoopDescriptor.induction ↔
        value ∈ nest'.loops.map LoopDescriptor.induction := fun value => by rw [hsettled.inductions]
    rw [hsettled.type_eq]
    constructor
    · intro hone loop hloop
      obtain ⟨old, hold, heq⟩ := List.mem_map.mp ((hmem _).mpr (List.mem_map_of_mem hloop))
      rw [← heq, hinduction]
      exact hone old hold first (hfirst ▸ List.mem_cons_self)
    · intro hall loop hloop other hother
      have hto : ∀ loop ∈ nest.loops,
          editor.function.type loop.induction = editor.function.type outermost.induction := by
        intro loop hloop
        obtain ⟨new, hnew, heq⟩ := List.mem_map.mp ((hmem _).mp (List.mem_map_of_mem hloop))
        exact heq ▸ hall new hnew
      rw [hto loop hloop, hto other hother]
  rw [htypes]
  constructor
  · intro htiling hblocking hexit loop hloop
    obtain ⟨exit, hexit⟩ := Option.isSome_iff_exists.mp hexit
    obtain ⟨preheader, hpreheader, _⟩ := hdescribes.preheader
    rcases htiling with huntiled | hemits
    · have hfault := applyPolyhedralTiling_fault hblocking hloops hdepth'
        (by rw [hnode, hsettled.preheader, hpreheader]) (by rw [hnode, hsettled.exit, hexit])
      rw [hfault] at huntiled
      exact absurd huntiled (by simp)
    · have hkept := editor'.kept_createConstant (editor'.function.type outermost.induction)
        env.options.tileSize.toNat
      have hstart := Editor.start_of_emits _
        (Editor.typed_createConstant hsettled.typed _ _).declared
        (fun loop hloop => ((hsettled.fits loop hloop).start.kept hkept).lt)
        (hemits outermost (by rw [hloops]; rfl)) loop hloop
      rw [((hsettled.fits loop hloop).start.kept hkept).type_eq] at hstart
      exact hstart
  · intro hone
    by_cases htile : env.options.enableBlocking = true ∧ (root.exitBlock editor.function).isSome
    · refine Or.inr fun head hhead tiles emitted hemits => ?_
      obtain rfl : outermost = head := by
        rw [hloops] at hhead
        exact Option.some.inj hhead
      refine (hemits.typed (Editor.typed_createConstant hsettled.typed _ _)
        (Editor.has_createConstant hsettled.typed.declared _) ?_).wellTyped
      intro loop hloop
      have hfits := hsettled.fits loop hloop
      rw [hone htile.1 htile.2 loop hloop] at hfits
      exact hfits.kept (Editor.kept_createConstant _ _ _)
    · refine Or.inl (applyPolyhedralTiling_untiled hloops ?_)
      rw [hnode, hsettled.exit]
      rcases not_and_or.mp htile with hoff | hnone
      · exact Or.inl (Bool.eq_false_of_not_eq_true hoff)
      · exact Or.inr (Option.not_isSome_iff_eq_none.mp hnone)

end Stages

section Program

def widthConstant (width : Nat) (value : Value) : Option ConstInt :=
  [(8, ⟨32, 0⟩), (9, ⟨32, 1⟩), (10, ⟨32, 8⟩), (11, ⟨width, 0⟩), (12, ⟨width, 1⟩),
    (13, ⟨width, 8⟩)].lookup value

/-- Two nested loops from 0 to 8, the inner one with another width. -/
def widthFunction (width : Nat) : Function where
  blocks :=
    [(0, [⟨20, .void, .br 1⟩]),
      (1, [⟨1, .int 32, .phi [(8, 0), (5, 5)]⟩, ⟨3, .int 1, .icmp .slt 1 10⟩,
        ⟨21, .void, .condBr 3 2 6⟩]),
      (2, [⟨22, .void, .br 3⟩]),
      (3, [⟨2, .int width, .phi [(11, 2), (6, 4)]⟩, ⟨4, .int 1, .icmp .slt 2 13⟩,
        ⟨23, .void, .condBr 4 4 5⟩]),
      (4, [⟨6, .int width, .add 2 12⟩, ⟨24, .void, .br 3⟩]),
      (5, [⟨5, .int 32, .add 1 9⟩, ⟨25, .void, .br 1⟩]),
      (6, [⟨26, .void, .ret none⟩])]
  constant := widthConstant width
  argType value := if value < 11 then .int 32 else .int width
  name value := [(1, "i"), (2, "j")].lookup value
  operand _ := "%0"

def widthEvolution (width : Nat) : ScalarEvolution where
  getSCEV value :=
    match widthConstant width value with
    | some c => .constant c.width c.bits
    | none =>
        if value = 1 then .addRec (.constant 32 0) (.constant 32 1) 1
        else if value = 2 then .addRec (.constant width 0) (.constant width 1) 3
        else .unknown value 32
  loopOf header := [exampleOuter, exampleInner].find? (·.header == header)

def widthNest : LoopNestDescriptor where
  loops := [exampleDescriptor .slt,
    { exampleInnerDescriptor with startValue := 11, boundValue := 13 }]
  accesses := []

def widthEnvironment (width : Nat) : Environment where
  options := {}
  SE := widthEvolution width
  legal := fun _ _ => true
  address := id
  renamed := fun _ _ => ""

theorem widthFunction_typed (width : Nat) (h : width = 32 ∨ width = 64) :
    (Editor.ofFunction (widthFunction width) 40).Typed := by
  rcases h with rfl | rfl
  · exact ⟨by decide, by decide, by decide⟩
  · exact ⟨by decide, by decide, by decide⟩

theorem widthFunction_distinct (width : Nat) (h : width = 32 ∨ width = 64) :
    (widthFunction width).Distinct := by
  rcases h with rfl | rfl
  · exact ⟨by decide, by decide, by decide⟩
  · exact ⟨by decide, by decide, by decide⟩

/-- Two loops of one width. -/
theorem widthNest_tilingTyped :
    TilingTyped {} widthNest (.ofFunction (widthFunction 32) 40) :=
  (tilingTyped_iff (widthEnvironment 32) (.ofFunction (widthFunction 32) 40)
    (.ofFunction (widthFunction 32) 40) exampleOuter widthNest widthNest false
    (widthFunction_distinct 32 (Or.inl rfl)) (widthFunction_typed 32 (Or.inl rfl)) rfl rfl).mpr
    fun _ _ => by decide

theorem widthNest_box : widthNest.Box (widthFunction 64) := by
  decide

theorem widthEvolution_sound :
    (widthEvolution 64).Sound (widthFunction 64) [exampleOuter, exampleInner] where
  canonical := by
    intro L hL induction hinduction
    rcases List.mem_pair.mp hL with rfl | rfl
    · obtain rfl : 1 = induction := Option.some.inj hinduction
      exact ⟨32, rfl⟩
    · obtain rfl : 2 = induction := Option.some.inj hinduction
      exact ⟨64, rfl⟩
  constant := by
    intro value c hc
    have hc : widthConstant 64 value = some c := hc
    simp only [widthEvolution, hc]
  loopOf := by
    intro L hL
    rcases List.mem_pair.mp hL with rfl | rfl
    · rfl
    · rfl

/-- A 32-bit tile loop starts with the 64-bit zero of the inner loop. -/
theorem not_forall_tilingTyped : ¬ ∀ (env : Environment) (editor editor' : Editor) (root : Loop)
    (nest nest' : LoopNestDescriptor) (deps : Isl.UnionMap) (interchanged : Bool),
    editor.function.Distinct → editor.Typed →
    env.SE.Sound editor.function (linearizePerfectNest root) →
    analyzeLoopNest editor.function env.SE root = some nest → isRectangularNest nest = true →
    getDependencies true editor.function nest = some deps →
    isTilingLegal true nest (some deps) = true →
    interchangeNest env nest editor = .ok (interchanged, nest', editor') →
    TilingTyped env.options nest' editor' := by
  intro hall
  let editor := Editor.ofFunction (widthFunction 64) 40
  obtain ⟨deps, hdeps, hlegal⟩ := widthNest_box.legal_of_no_accesses rfl
  have htyped := widthFunction_typed 64 (Or.inr rfl)
  have hF := widthFunction_distinct 64 (Or.inr rfl)
  have htiling := hall (widthEnvironment 64) editor editor exampleOuter widthNest widthNest
    deps false hF htyped widthEvolution_sound rfl (by decide) hdeps hlegal rfl
  rcases htiling with huntiled | hemits
  · have hloops : widthNest.loops = exampleDescriptor .slt ::
        [{ exampleInnerDescriptor with startValue := 11, boundValue := 13 }] := rfl
    have hpreheader : (exampleDescriptor .slt).loopNode.loopPreheader editor.function =
      some 0 := rfl
    have hexit : (exampleDescriptor .slt).loopNode.exitBlock editor.function = some 6 := rfl
    have hfault : applyPolyhedralTiling (widthEnvironment 64).options widthNest editor =
        .error (.nullTerminator editor.nextBlock) :=
      applyPolyhedralTiling_fault rfl hloops (by decide) hpreheader hexit
    rw [hfault] at huntiled
    exact absurd huntiled (by simp)
  · have hstart := Editor.start_of_emits widthNest.loops
      (Editor.typed_createConstant htyped (.int 32) (8 : BitVec 32).toNat).declared (by decide)
      (hemits _ rfl)
      { exampleInnerDescriptor with startValue := 11, boundValue := 13 } (by simp [widthNest])
    exact absurd hstart (by decide)

end Program

end PolyhedralPass
