/-
Phase 3 of the pass, tiling: the blocks, instructions and edges that
`applyPolyhedralTiling` makes, and the control flow they are meant to form.
-/
import PolyhedralPass.Analysis
import PolyhedralPass.Editor

namespace PolyhedralPass

/-- The command line options of the pass. -/
structure Options where
  enableInterchange : Bool := true
  enableBlocking : Bool := true
  tileSize : BitVec 32 := 8

structure TileLoop where
  header : BlockId
  latch : BlockId
  induction : Value
  nextValue : Value

namespace Editor

variable (editor : Editor)

/-- The first successor of a block becomes another one. -/
def redirectFirstSuccessor (block dest : BlockId) : Except Fault Editor := do
  let terminator ← editor.getTerminator block
  match terminator.kind.successors with
  | [] => .error (.noSuccessor block)
  | old :: _ => .ok (editor.updateLast block (InstKind.replaceSuccessorWith old dest))

/-- The instructions of a tile loop. -/
def fillTileLoop (ivType : IRType) (tileSizeVal : Value) (currentPreheader header latch : BlockId)
    (loop : LoopDescriptor) : TileLoop × Editor :=
  let name := "tile." ++ loop.inductionName
  let (induction, editor) := editor.append header (name ++ ".iv") ivType (.phi [])
  let editor := editor.updateInst induction (InstKind.addIncoming loop.startValue currentPreheader)
  let (next, editor) := editor.append latch (name ++ ".next") ivType (.add induction tileSizeVal)
  let editor := editor.updateInst induction (InstKind.addIncoming next latch)
  let (compare, editor) := editor.append latch (name ++ ".cmp") (.int 1)
    (.icmp loop.predicate next loop.boundValue)
  -- the second target is a placeholder, set when all latches are there
  let (_, editor) := editor.append latch "" .void (.condBr compare header latch)
  (⟨header, latch, induction, next⟩, editor)

/-- The tile loop of one dimension. -/
def createTileLoop (ivType : IRType) (tileSizeVal : Value)
    (originalHeader currentPreheader : BlockId) (loop : LoopDescriptor) :
    Except Fault (TileLoop × Editor) := do
  let (header, editor) := editor.createBlock originalHeader
  let (latch, editor) := editor.createBlock originalHeader
  let editor ← editor.redirectFirstSuccessor currentPreheader header
  return editor.fillTileLoop ivType tileSizeVal currentPreheader header latch loop

/-- The tile loops, each with the header of the one around it as its preheader. -/
def createTileLoops (editor : Editor) (ivType : IRType) (tileSizeVal : Value)
    (originalHeader currentPreheader : BlockId) :
    List LoopDescriptor → Except Fault (List TileLoop × Editor)
  | [] => .ok ([], editor)
  | loop :: rest => do
      let (tile, editor) ←
        editor.createTileLoop ivType tileSizeVal originalHeader currentPreheader loop
      let (tiles, editor) ← createTileLoops editor ivType tileSizeVal originalHeader tile.header
        rest
      return (tile :: tiles, editor)

/-- The loop over the predecessors of the exit.  It walks the list of the uses of
the exit, and a use that is given another block moves to the list of that block:
behind the first edge that is redirected the walk has left the list. -/
def redirectExit (editor : Editor) (originalExit outermostLatch innermostLatch : BlockId) :
    List BlockId → Except Fault Editor
  | [] => .ok editor
  | pred :: rest =>
      if pred = outermostLatch then
        redirectExit editor originalExit outermostLatch innermostLatch rest
      else do
        let _ ← editor.getTerminator pred
        return editor.updateLast pred (InstKind.replaceSuccessorWith originalExit innermostLatch)

/-- The latches from the innermost to the outermost, each with the next one as
its second target, and the exit behind the last. -/
def linkLatches (editor : Editor) (originalExit : BlockId) :
    List TileLoop → Except Fault Editor
  | [] => .ok editor
  | [tile] => do
      let _ ← editor.getTerminator tile.latch
      return editor.updateLast tile.latch (InstKind.setSuccessor 1 originalExit)
  | tile :: outer :: rest => do
      let _ ← editor.getTerminator tile.latch
      linkLatches (editor.updateLast tile.latch (InstKind.setSuccessor 1 outer.latch))
        originalExit (outer :: rest)

/-- The start and the clamped bound of the point loop of one dimension. -/
def clampPointLoop (ivType : IRType) (tileSizeVal : Value) (loop : LoopDescriptor)
    (tile : TileLoop) : Except Fault Editor := do
  let editor := editor.updateInst loop.induction
    (InstKind.setIncomingWhere (fun block => !loop.loopNode.contains block) tile.induction)
  match loop.loopNode.loopPreheader editor.function with
  | none => .error (.nullPreheader loop.loopNode.header)
  | some preheader => do
      let name := "clamp." ++ loop.inductionName
      let (endBound, editor) := editor.insertBeforeLast preheader (name ++ ".end") ivType
        (.add tile.induction tileSizeVal)
      let (compare, editor) := editor.insertBeforeLast preheader (name ++ ".cmp") (.int 1)
        (.icmp loop.predicate endBound loop.boundValue)
      let (minBound, editor) := editor.insertBeforeLast preheader (name ++ ".min") ivType
        (.select compare endBound loop.boundValue)
      return editor.updateInst loop.compare (InstKind.setBound minBound)

def clampPointLoops (editor : Editor) (ivType : IRType) (tileSizeVal : Value) :
    List (LoopDescriptor × TileLoop) → Except Fault Editor
  | [] => .ok editor
  | (loop, tile) :: rest => do
      let editor ← editor.clampPointLoop ivType tileSizeVal loop tile
      clampPointLoops editor ivType tileSizeVal rest

end Editor

/-- `applyPolyhedralTiling`: whether the function changed, and the function. -/
def applyPolyhedralTiling (options : Options) (nest : LoopNestDescriptor) (editor : Editor) :
    Except Fault (Bool × Editor) :=
  match nest.loops with
  | [] => .ok (false, editor)
  | outermost :: _ =>
      if !options.enableBlocking || nest.depth < 2 then .ok (false, editor)
      else match outermost.loopNode.loopPreheader editor.function,
          outermost.loopNode.exitBlock editor.function with
        | some originalPreheader, some originalExit => do
            let originalHeader := outermost.loopNode.header
            let ivType := editor.function.type outermost.induction
            let (tileSizeVal, editor) := editor.createConstant ivType options.tileSize.toNat
            let (tiles, editor) ← editor.createTileLoops ivType tileSizeVal originalHeader
              originalPreheader nest.loops
            match tiles.head?, tiles.getLast? with
            | some first, some last =>
                let (_, editor) := editor.append last.header "" .void (.br originalHeader)
                let editor ← editor.redirectExit originalExit first.latch last.latch
                  (editor.function.predecessors originalExit)
                let editor ← editor.linkLatches originalExit tiles.reverse
                let editor ← editor.clampPointLoops ivType tileSizeVal (nest.loops.zip tiles)
                return (true, editor)
            | _, _ => .ok (false, editor)
        | _, _ => .ok (false, editor)

section Shape

variable (F : Function) (nest : LoopNestDescriptor)

/-- The edges of a tiled nest. -/
inductive TiledEdge (L : Loop) (preheader exit : BlockId) (headers latches : List BlockId) :
    BlockId → BlockId → Prop
  | enter {c : BlockId} (hc : headers.head? = some c) :
      TiledEdge L preheader exit headers latches preheader c
  | inward {b c : BlockId} (i : Nat) (hb : headers[i]? = some b) (hc : headers[i + 1]? = some c) :
      TiledEdge L preheader exit headers latches b c
  | point {b : BlockId} (hb : headers.getLast? = some b) :
      TiledEdge L preheader exit headers latches b L.header
  | leave {b c : BlockId} (hb : b ∈ L.blocks) (hexit : exit ∈ F.successors b)
      (hc : latches.getLast? = some c) : TiledEdge L preheader exit headers latches b c
  | repeat {b c : BlockId} (i : Nat) (hb : latches[i]? = some b) (hc : headers[i]? = some c) :
      TiledEdge L preheader exit headers latches b c
  | outward {b c : BlockId} (i : Nat) (hb : latches[i + 1]? = some b) (hc : latches[i]? = some c) :
      TiledEdge L preheader exit headers latches b c
  | finish {b : BlockId} (hb : latches.head? = some b) :
      TiledEdge L preheader exit headers latches b exit
  | other {b c : BlockId} (hedge : c ∈ F.successors b) (hb : b ≠ preheader)
      (hc : ¬ (b ∈ L.blocks ∧ c = exit)) : TiledEdge L preheader exit headers latches b c

/-- The control flow a tiled nest is meant to have. -/
structure TiledShape (L : Loop) (preheader exit : BlockId) (tiled : Function) : Prop where
  one_terminator : ∀ entry ∈ tiled.blocks, ∃ front terminator, entry.2 = front ++ [terminator] ∧
    terminator.kind.isTerminator = true ∧ ∀ inst ∈ front, inst.kind.isTerminator = false
  edges : ∃ headers latches : List BlockId, headers.length = nest.depth ∧
    latches.length = nest.depth ∧ (headers ++ latches).Nodup ∧
    (∀ b ∈ headers ++ latches, b ∉ F.blocks.map Prod.fst) ∧
    ∀ b c, c ∈ tiled.successors b ↔ TiledEdge F L preheader exit headers latches b c

end Shape

namespace Editor

variable {editor : Editor}

/-- The header of a tile loop is filled with nothing but a PHI node. -/
theorem Unterminated.fillTileLoop {header latch : BlockId} (h : editor.Unterminated header)
    (hlatch : header ≠ latch) (ivType : IRType) (tileSizeVal : Value) (currentPreheader : BlockId)
    (loop : LoopDescriptor) :
    (editor.fillTileLoop ivType tileSizeVal currentPreheader header latch loop).2.Unterminated
      header := by
  simp only [Editor.fillTileLoop]
  apply Unterminated.append _ fun heq => absurd heq hlatch
  apply Unterminated.append _ fun _ => rfl
  apply Unterminated.updateInst _ (InstKind.isTerminator_addIncoming _ _)
  apply Unterminated.append _ fun _ => rfl
  apply Unterminated.updateInst _ (InstKind.isTerminator_addIncoming _ _)
  exact h.append fun _ => rfl

/-- The header of a new tile loop is left without a terminator. -/
theorem createTileLoop_ok {currentPreheader : BlockId} {terminator : Inst}
    (hterminator : editor.function.terminator? currentPreheader = some terminator)
    (hsuccessors : terminator.kind.successors ≠ []) (ivType : IRType) (tileSizeVal : Value)
    (originalHeader : BlockId) (loop : LoopDescriptor) :
    ∃ tile tiled, editor.createTileLoop ivType tileSizeVal originalHeader currentPreheader loop =
      .ok (tile, tiled) ∧ tile.header = editor.nextBlock ∧ tiled.Unterminated editor.nextBlock := by
  obtain ⟨old, dests, hdests⟩ := List.exists_cons_of_ne_nil hsuccessors
  let created := ((editor.createBlock originalHeader).2.createBlock originalHeader).2
  let redirected := created.updateLast currentPreheader
    (InstKind.replaceSuccessorWith old editor.nextBlock)
  have hcreated : created.function.terminator? currentPreheader = some terminator :=
    terminator_createBlock (terminator_createBlock hterminator originalHeader) originalHeader
  have hredirect : created.redirectFirstSuccessor currentPreheader editor.nextBlock =
      .ok redirected := by
    simp only [redirectFirstSuccessor, Editor.getTerminator, hcreated, bind, Except.bind, hdests,
      redirected]
  have hheader : redirected.Unterminated editor.nextBlock :=
    ((unterminated_createBlock editor originalHeader).createBlock originalHeader).updateLast
      (InstKind.isTerminator_replaceSuccessorWith old editor.nextBlock)
  have hlatch : editor.nextBlock ≠ editor.nextBlock + 1 := Nat.ne_of_lt (Nat.lt_succ_self _)
  let filled := redirected.fillTileLoop ivType tileSizeVal currentPreheader editor.nextBlock
    (editor.nextBlock + 1) loop
  refine ⟨filled.1, filled.2, ?_, rfl,
    hheader.fillTileLoop hlatch ivType tileSizeVal currentPreheader loop⟩
  change created.redirectFirstSuccessor currentPreheader editor.nextBlock >>= _ = _
  rw [hredirect]
  rfl

/-- A preheader without a terminator ends the pass. -/
theorem Unterminated.createTileLoop {currentPreheader : BlockId}
    (h : editor.Unterminated currentPreheader) (ivType : IRType) (tileSizeVal : Value)
    (originalHeader : BlockId) (loop : LoopDescriptor) :
    editor.createTileLoop ivType tileSizeVal originalHeader currentPreheader loop =
      .error (.nullTerminator currentPreheader) := by
  have hnew := (h.createBlock originalHeader).createBlock originalHeader
  simp only [Editor.createTileLoop, redirectFirstSuccessor, hnew.getTerminator]
  rfl

/-- The second tile loop has the header of the first one as its preheader. -/
theorem createTileLoops_fault (editor : Editor) {currentPreheader : BlockId} {terminator : Inst}
    (hterminator : editor.function.terminator? currentPreheader = some terminator)
    (hsuccessors : terminator.kind.successors ≠ []) (ivType : IRType) (tileSizeVal : Value)
    (originalHeader : BlockId) (first second : LoopDescriptor) (rest : List LoopDescriptor) :
    editor.createTileLoops ivType tileSizeVal originalHeader currentPreheader
      (first :: second :: rest) = .error (.nullTerminator editor.nextBlock) := by
  obtain ⟨tile, tiled, hfirst, hheader, hopen⟩ :=
    createTileLoop_ok hterminator hsuccessors ivType tileSizeVal originalHeader first
  have hsecond := hopen.createTileLoop ivType tileSizeVal originalHeader second
  simp only [createTileLoops, hfirst, bind, Except.bind, hheader, hsecond]

end Editor

/-- A preheader has a terminator with a successor. -/
theorem terminator_of_loopPreheader {F : Function} {L : Loop} {preheader : BlockId}
    (h : L.loopPreheader F = some preheader) :
    ∃ terminator, F.terminator? preheader = some terminator ∧ terminator.kind.successors ≠ [] := by
  obtain ⟨_, hlength⟩ := Option.filter_eq_some_iff.mp h
  have hlength : (F.successors preheader).length = 1 := by simpa using hlength
  cases hterminator : F.terminator? preheader with
  | none => simp [Function.successors, hterminator] at hlength
  | some terminator =>
      refine ⟨terminator, rfl, ?_⟩
      intro hnil
      simp [Function.successors, hterminator, hnil] at hlength

/-- Tiling a nest of two or more loops ends in the second round of the first
loop: the tile header of the first dimension has no terminator yet. -/
theorem applyPolyhedralTiling_fault {options : Options} (hblocking : options.enableBlocking = true)
    {nest : LoopNestDescriptor} {outermost : LoopDescriptor} {rest : List LoopDescriptor}
    (hloops : nest.loops = outermost :: rest) (hdepth : 2 ≤ nest.depth) {editor : Editor}
    {preheader exit : BlockId}
    (hpreheader : outermost.loopNode.loopPreheader editor.function = some preheader)
    (hexit : outermost.loopNode.exitBlock editor.function = some exit) :
    applyPolyhedralTiling options nest editor = .error (.nullTerminator editor.nextBlock) := by
  obtain ⟨terminator, hterminator, hsuccessors⟩ := terminator_of_loopPreheader hpreheader
  have hshort : ¬ nest.depth < 2 := not_lt.mpr hdepth
  cases rest with
  | nil => simp [LoopNestDescriptor.depth, hloops] at hdepth
  | cons second rest =>
      have hfault := Editor.createTileLoops_fault
        (editor.createConstant (editor.function.type outermost.induction)
          options.tileSize.toNat).2 hterminator hsuccessors
          (editor.function.type outermost.induction) editor.nextValue
        outermost.loopNode.header outermost second rest
      simp only [applyPolyhedralTiling, hloops, hblocking, hshort, hpreheader, hexit,
        Bool.not_true, decide_false, Bool.or_self, Bool.false_eq_true, if_false]
      exact congrArg (Except.bind · _) hfault


/-- No nest gets the control flow of a tiled one: the pass ends in a null pointer
before. -/
theorem not_tiledShape (options : Options) (hblocking : options.enableBlocking = true)
    (nest : LoopNestDescriptor) (hdepth : 2 ≤ nest.depth) (outermost : LoopDescriptor)
    (hloops : nest.loops.head? = some outermost) (editor : Editor) (preheader exit : BlockId)
    (hpreheader : outermost.loopNode.loopPreheader editor.function = some preheader)
    (hexit : outermost.loopNode.exitBlock editor.function = some exit) :
    applyPolyhedralTiling options nest editor = .error (.nullTerminator editor.nextBlock) ∧
      ¬ ∃ tiled, applyPolyhedralTiling options nest editor = .ok (true, tiled) ∧
        TiledShape editor.function nest outermost.loopNode preheader exit tiled.function := by
  obtain ⟨rest, hrest⟩ := List.head?_eq_some_iff.mp hloops
  have hfault := applyPolyhedralTiling_fault hblocking hrest hdepth hpreheader hexit
  refine ⟨hfault, ?_⟩
  rintro ⟨tiled, hok, _⟩
  rw [hfault] at hok
  exact absurd hok (by simp)

/-- The header of the first tile loop is block 7. -/
theorem exampleLoops_fault : applyPolyhedralTiling {} (exampleLoops [])
    (.ofFunction (Payload.function {} .slt) 40) = .error (.nullTerminator 7) :=
  (not_tiledShape {} rfl (exampleLoops []) (by decide) (exampleDescriptor .slt) rfl
    (.ofFunction (Payload.function {} .slt) 40) 0 6 rfl rfl).1

theorem not_forall_tiledShape : ¬ ∀ (options : Options) (nest : LoopNestDescriptor)
    (outermost : LoopDescriptor) (editor : Editor) (preheader exit : BlockId),
    options.enableBlocking = true → 2 ≤ nest.depth → nest.loops.head? = some outermost →
    outermost.loopNode.loopPreheader editor.function = some preheader →
    outermost.loopNode.exitBlock editor.function = some exit →
    ∃ tiled, applyPolyhedralTiling options nest editor = .ok (true, tiled) ∧
      TiledShape editor.function nest outermost.loopNode preheader exit tiled.function := by
  intro hall
  obtain ⟨tiled, hok, _⟩ := hall {} (exampleLoops []) (exampleDescriptor .slt)
    (.ofFunction (Payload.function {} .slt) 40) 0 6 rfl (by decide) rfl rfl rfl
  rw [applyPolyhedralTiling_fault rfl rfl (by decide) rfl rfl] at hok
  exact absurd hok (by simp)

end PolyhedralPass
