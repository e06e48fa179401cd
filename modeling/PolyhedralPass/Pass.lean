/-
The pass over a function: the loops it visits, the stages each nest goes through,
and what it reports about the analyses.
-/
import PolyhedralPass.Tiling
import PolyhedralPass.Interchange

namespace PolyhedralPass

mutual

/-- The loops below a loop, each behind the loops inside it. -/
def collectLoopsRecursively : Loop → List Loop
  | .mk header blocks subLoops => collectSubLoops subLoops ++ [.mk header blocks subLoops]

def collectSubLoops : List Loop → List Loop
  | [] => []
  | loop :: rest => collectLoopsRecursively loop ++ collectSubLoops rest

end

inductive PreservedAnalyses
  | none | all
deriving DecidableEq

/-- What a run depends on besides the function: the options, the answers of
ScalarEvolution (one for each value, since they are cached and no stage drops
them), the verdicts on the nests, the order of pointers and the names values get. -/
structure Environment where
  options : Options
  SE : ScalarEvolution
  legal : Function → LoopNestDescriptor → Bool
  address : Value → Nat
  renamed : Function → Value → String

section Run

variable (env : Environment)
  (tile : LoopNestDescriptor → Editor → Except Fault (Bool × Editor))

/-- The first transformation of a legal nest. -/
def interchangeNest (nest : LoopNestDescriptor) (editor : Editor) :
    Except Fault (Bool × LoopNestDescriptor × Editor) :=
  if env.options.enableInterchange then optimizeLoopOrder env.renamed env.address nest editor
  else .ok (false, nest, editor)

/-- The transformations of a legal nest. -/
def transformNest (nest : LoopNestDescriptor) (editor : Editor) : Except Fault (Bool × Editor) := do
  let (interchanged, nest, editor) ← interchangeNest env nest editor
  let (tiled, editor) ← tile nest editor
  return (interchanged || tiled, editor)

/-- The body of the loop over the loops: whether the function changed. -/
def runNest (root : Loop) (editor : Editor) : Except Fault (Bool × Editor) :=
  match analyzeLoopNest editor.function env.SE root with
  | none => .ok (false, editor)
  | some nest =>
      if !isRectangularNest nest then .ok (false, editor)
      else if !env.legal editor.function nest then .ok (false, editor)
      else transformNest env tile nest editor

/-- The loop over the loops, with the change that each of them brings. -/
def runNests : List Loop → Editor → Except Fault (List (Loop × Bool) × Editor)
  | [], editor => .ok ([], editor)
  | root :: rest, editor => do
      let (changed, editor) ← runNest env tile root editor
      let (changes, editor) ← runNests rest editor
      return ((root, changed) :: changes, editor)

/-- `PolyhedralPass::run` with a given tiling stage, on the forest of the loops. -/
def runWith (forest : List Loop) (editor : Editor) :
    Except Fault (PreservedAnalyses × Editor) :=
  if forest.isEmpty then .ok (.all, editor)
  else do
    let (changes, editor) ← runNests env tile (collectSubLoops forest) editor
    return (if changes.any Prod.snd then .none else .all, editor)

end Run

/-- `PolyhedralPass::run` -/
def run (env : Environment) (forest : List Loop) (editor : Editor) :
    Except Fault (PreservedAnalyses × Editor) :=
  runWith env (applyPolyhedralTiling env.options) forest editor

section Unchanged

variable {editor editor' : Editor} {nest nest' : LoopNestDescriptor}

/-- An interchange that reports no change has given up before its first edit. -/
theorem applyLoopInterchange_unchanged {renamed : Function → Value → String}
    {idxOuter idxInner : Nat}
    (h : applyLoopInterchange renamed nest idxOuter idxInner editor = .ok (false, nest', editor')) :
    nest' = nest ∧ editor' = editor := by
  unfold applyLoopInterchange at h
  split at h
  · split_ifs at h with htype
    · obtain ⟨_, hrest⟩ := Prod.mk.inj (Except.ok.inj h)
      obtain ⟨rfl, rfl⟩ := Prod.mk.inj hrest
      exact ⟨rfl, rfl⟩
    · obtain ⟨preOuter, _, h⟩ := bind_eq_ok h
      obtain ⟨preInner, _, h⟩ := bind_eq_ok h
      exact absurd (Prod.mk.inj (Except.ok.inj h)).1 (by simp)
  · obtain ⟨_, hrest⟩ := Prod.mk.inj (Except.ok.inj h)
    obtain ⟨rfl, rfl⟩ := Prod.mk.inj hrest
    exact ⟨rfl, rfl⟩

theorem optimizeLoopOrder_unchanged {renamed : Function → Value → String} {address : Value → Nat}
    (h : optimizeLoopOrder renamed address nest editor = .ok (false, nest', editor')) :
    nest' = nest ∧ editor' = editor := by
  have hstop : (.ok (false, nest, editor) : Except Fault _) = .ok (false, nest', editor') →
      nest' = nest ∧ editor' = editor := by
    intro heq
    obtain ⟨rfl, rfl⟩ := Prod.mk.inj (Prod.mk.inj (Except.ok.inj heq)).2
    exact ⟨rfl, rfl⟩
  unfold optimizeLoopOrder at h
  split_ifs at h with hdepth
  · exact hstop h
  · split at h
    · exact hstop h
    · simp only at h
      split_ifs at h with hinnermost
      · exact applyLoopInterchange_unchanged h
      · exact hstop h

/-- The tile loops are as many as the loops of the nest. -/
theorem length_createTileLoops {ivType : IRType} {tileSizeVal : Value} {originalHeader : BlockId}
    {loops : List LoopDescriptor} {currentPreheader : BlockId} {tiles : List TileLoop}
    (h : editor.createTileLoops ivType tileSizeVal originalHeader currentPreheader loops =
      .ok (tiles, editor')) : tiles.length = loops.length := by
  induction loops generalizing editor editor' currentPreheader tiles with
  | nil =>
      obtain ⟨rfl, _⟩ := Prod.mk.inj (Except.ok.inj h)
      rfl
  | cons loop rest ih =>
      obtain ⟨⟨tile, tiled⟩, _, h⟩ := bind_eq_ok h
      obtain ⟨⟨later, tiled'⟩, hrest, h⟩ := bind_eq_ok h
      obtain ⟨rfl, _⟩ := Prod.mk.inj (Except.ok.inj h)
      rw [List.length_cons, List.length_cons, ih hrest]

/-- Tiling that reports no change has given up before its first edit. -/
theorem applyPolyhedralTiling_unchanged {options : Options}
    (h : applyPolyhedralTiling options nest editor = .ok (false, editor')) : editor' = editor := by
  unfold applyPolyhedralTiling at h
  split at h
  · exact (Prod.mk.inj (Except.ok.inj h)).2.symm
  · rename_i outermost rest hloops
    split_ifs at h
    · exact (Prod.mk.inj (Except.ok.inj h)).2.symm
    · split at h
      · obtain ⟨⟨tiles, tiled⟩, htiles, h⟩ := bind_eq_ok h
        have hlength := length_createTileLoops htiles
        simp only at h
        split at h
        · obtain ⟨_, _, h⟩ := bind_eq_ok h
          obtain ⟨_, _, h⟩ := bind_eq_ok h
          obtain ⟨_, _, h⟩ := bind_eq_ok h
          exact absurd (Prod.mk.inj (Except.ok.inj h)).1 (by simp)
        · rename_i hnone
          have htiles : tiles ≠ [] := by
            intro hnil
            simp [hnil, hloops] at hlength
          exact absurd (List.getLast?_eq_some_getLast htiles)
            (hnone _ _ (List.head?_eq_some_head htiles))
      · exact (Prod.mk.inj (Except.ok.inj h)).2.symm

variable {env : Environment}

theorem transformNest_unchanged
    (h : transformNest env (applyPolyhedralTiling env.options) nest editor = .ok (false, editor')) :
    editor' = editor := by
  obtain ⟨⟨interchanged, middle, edited⟩, hinterchange, h⟩ := bind_eq_ok h
  obtain ⟨⟨tiled, final⟩, htile, h⟩ := bind_eq_ok h
  obtain ⟨hchanged, rfl⟩ := Prod.mk.inj (Except.ok.inj h)
  obtain ⟨rfl, rfl⟩ := Bool.or_eq_false_iff.mp hchanged
  have hedited : edited = editor := by
    unfold interchangeNest at hinterchange
    split_ifs at hinterchange
    · exact (optimizeLoopOrder_unchanged hinterchange).2
    · exact (Prod.mk.inj (Prod.mk.inj (Except.ok.inj hinterchange)).2).2.symm
  rw [applyPolyhedralTiling_unchanged htile, hedited]

theorem runNest_unchanged {root : Loop}
    (h : runNest env (applyPolyhedralTiling env.options) root editor = .ok (false, editor')) :
    editor' = editor := by
  unfold runNest at h
  split at h
  · exact (Prod.mk.inj (Except.ok.inj h)).2.symm
  · split_ifs at h
    · exact (Prod.mk.inj (Except.ok.inj h)).2.symm
    · exact (Prod.mk.inj (Except.ok.inj h)).2.symm
    · exact transformNest_unchanged h

theorem runNests_unchanged {roots : List Loop} {changes : List (Loop × Bool)}
    (h : runNests env (applyPolyhedralTiling env.options) roots editor = .ok (changes, editor'))
    (hchanges : changes.any Prod.snd = false) : editor' = editor := by
  induction roots generalizing editor changes with
  | nil => exact (Prod.mk.inj (Except.ok.inj h)).2.symm
  | cons root rest ih =>
      obtain ⟨⟨changed, edited⟩, hroot, h⟩ := bind_eq_ok h
      obtain ⟨⟨later, final⟩, hrest, h⟩ := bind_eq_ok h
      obtain ⟨rfl, rfl⟩ := Prod.mk.inj (Except.ok.inj h)
      simp only [List.any_cons, Bool.or_eq_false_iff] at hchanges
      obtain ⟨rfl, hlater⟩ := hchanges
      rw [ih hrest hlater, runNest_unchanged hroot]

/-- What is reported as unchanged is unchanged. -/
structure ChangeReported (env : Environment) : Prop where
  run : ∀ forest editor editor', run env forest editor = .ok (.all, editor') → editor' = editor
  interchange : ∀ nest idxOuter idxInner editor nest' editor',
    applyLoopInterchange env.renamed nest idxOuter idxInner editor = .ok (false, nest', editor') →
      nest' = nest ∧ editor' = editor
  order : ∀ nest editor nest' editor',
    optimizeLoopOrder env.renamed env.address nest editor = .ok (false, nest', editor') →
      nest' = nest ∧ editor' = editor
  tiling : ∀ nest editor editor',
    applyPolyhedralTiling env.options nest editor = .ok (false, editor') → editor' = editor

/-- Every stage and the whole run report a change whenever they make one. -/
theorem changeReported (env : Environment) : ChangeReported env where
  run := by
    intro forest editor editor' h
    unfold PolyhedralPass.run runWith at h
    split_ifs at h
    · exact (Prod.mk.inj (Except.ok.inj h)).2.symm
    · obtain ⟨⟨changes, edited⟩, hnests, h⟩ := bind_eq_ok h
      obtain ⟨hreport, rfl⟩ := Prod.mk.inj (Except.ok.inj h)
      apply runNests_unchanged hnests
      by_contra hany
      rw [if_pos (Bool.eq_true_of_not_eq_false hany)] at hreport
      exact absurd hreport (by simp)
  interchange := fun _ _ _ _ _ _ => applyLoopInterchange_unchanged
  order := fun _ _ _ _ => optimizeLoopOrder_unchanged
  tiling := fun _ _ _ => applyPolyhedralTiling_unchanged

end Unchanged

end PolyhedralPass
