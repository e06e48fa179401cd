/-
The isl objects of a nest.  `getDependencies` and `isTilingLegal` are here with every
copy and every free they make, and a run of the pass with the context of each nest.
-/
import PolyhedralPass.Counted
import PolyhedralPass.Failures
import PolyhedralPass.Pass

namespace PolyhedralPass

namespace Owned

open Counted
open Isl (UnionSet UnionMap Bool3)

section Dependences

variable (fails : Failures)

/-- A copy of an object, which may fail. -/
def copyCall {α : Type} (failed : Bool) (pointer : Pointer α) : Act (Pointer α) :=
  if failed then return none else copy pointer

/-- A call of `getDependencies` that takes two objects. -/
def takeCall {α β γ : Type} (call : DependenceCall) (f : Option α → Option β → Option γ)
    (first : Pointer α) (second : Pointer β) : Act (Pointer γ) :=
  map₂ (fun value value' => fails.dependenceCall call (f value value')) first second

/-- One of the three lines that compose two accesses. -/
def conflictPart (part : ConflictPart) (first second : Pointer UnionMap) :
    Act (Pointer UnionMap) := do
  let first ← copyCall (fails (.dependence (.copyFirst part))) first
  let second ← copyCall (fails (.dependence (.copySecond part))) second
  let reversed ← map₁ (fun second =>
    fails.dependenceCall (.reverse part) (second.map Isl.reverse)) second
  takeCall fails (.applyRange part) (Option.map₂ Isl.applyRange) first reversed

/-- `getDependencies`, with the references it holds.  A null pointer is freed where the
source leaves it out, which does nothing. -/
def getDependencies (eqEq : Bool) (F : Function) (nest : LoopNestDescriptor) :
    Act (Pointer UnionMap) := do
  let domain ← create
    (fails.dependenceCall .readDomain (Isl.unionSetReadFromStr eqEq (domainStr F nest)))
  let reads ← create
    (fails.dependenceCall .readReads (Isl.unionMapReadFromStr eqEq (readStr F nest)))
  let writes ← create
    (fails.dependenceCall .readWrites (Isl.unionMapReadFromStr eqEq (writeStr F nest)))
  if domain.isNone || reads.isNone || writes.isNone then
    free domain
    free reads
    free writes
    return none
  let domainForReads ← copyCall (fails (.dependence .copyDomainForReads)) domain
  let reads ← takeCall fails .intersectReads (Option.map₂ Isl.intersectDomain) reads domainForReads
  let domainForWrites ← copyCall (fails (.dependence .copyDomainForWrites)) domain
  let writes ← takeCall fails .intersectWrites (Option.map₂ Isl.intersectDomain) writes
    domainForWrites
  let ww ← conflictPart fails .ww writes writes
  let wr ← conflictPart fails .wr writes reads
  let rw ← conflictPart fails .rw reads writes
  let inner ← takeCall fails .unionInner (Option.map₂ (· ∪ ·)) ww wr
  let conflicts ← takeCall fails .unionOuter (Option.map₂ (· ∪ ·)) inner rw
  let before ← create
    (fails.dependenceCall .readBefore (Isl.unionMapReadFromStr eqEq (beforeStr nest)))
  let deps ← takeCall fails .intersectBefore Isl.intersect conflicts before
  free domain
  free reads
  free writes
  return deps

variable {fails}

theorem triple_copyCall {α : Type} (failed : Bool) (pointer : Pointer α) {own : Multiset Nat}
    (hown : held pointer ≤ own) :
    Triple own (copyCall failed pointer) (fun copied => held copied + own)
      fun copied => pointee copied = attempt failed (pointee pointer) := by
  cases failed with
  | true => exact Triple.pure (zero_add own) rfl
  | false => exact triple_copy pointer hown

theorem triple_takeCall {α β γ : Type} (call : DependenceCall)
    (f : Option α → Option β → Option γ) (first : Pointer α) (second : Pointer β) :
    Triple (held first + held second) (takeCall fails call f first second) held
      fun made => pointee made = fails.dependenceCall call (f (pointee first) (pointee second)) :=
  triple_map₂ _ first second

theorem triple_conflictPart (part : ConflictPart) (first second : Pointer UnionMap)
    {own : Multiset Nat} (hfirst : held first ≤ own) (hsecond : held second ≤ own) :
    Triple own (conflictPart fails part first second) (fun made => held made + own)
      fun made => pointee made = fails.conflictPart part (pointee first) (pointee second) := by
  apply (triple_copyCall _ first hfirst).bind
  intro copied hcopied
  apply (triple_copyCall _ second (hsecond.trans (Multiset.le_add_left own (held copied)))).bind
  intro copied' hcopied'
  apply (triple_map₁ _ copied').step rfl
  intro reversed hreversed
  have hown : held reversed + (held copied + own) = held copied + held reversed + own := by ac_rfl
  rw [hown]
  apply ((triple_takeCall _ _ copied reversed).frame own).weaken (fun _ _ => rfl)
  intro made hmade
  rw [hmade, hreversed, hcopied, hcopied']
  rfl

/-- `getDependencies` holds nothing in the end but its result, which is the one it has
without the accounting. -/
theorem triple_getDependencies (eqEq : Bool) (F : Function) (nest : LoopNestDescriptor) :
    Triple 0 (getDependencies fails eqEq F nest) held
      fun deps => pointee deps = fails.getDependencies eqEq F nest := by
  apply Triple.create
  intro domain hdomain
  apply Triple.create
  intro reads hreads
  apply Triple.create
  intro writes hwrites
  rw [add_zero]
  simp only [Failures.getDependencies, ← hdomain, ← hreads, ← hwrites, pointee_isNone]
  split_ifs with hnull
  · have hown : held writes + (held reads + held domain) =
        held domain + (held reads + held writes) := by ac_rfl
    apply Triple.free hown
    apply Triple.free rfl
    apply Triple.free (add_zero (held writes)).symm
    exact Triple.pure rfl rfl
  · apply (triple_copyCall _ domain (le_add_left (le_add_left le_rfl))).bind
    intro domainForReads hdomainForReads
    have hown : held domainForReads + (held writes + (held reads + held domain)) =
        held reads + held domainForReads + (held writes + held domain) := by ac_rfl
    apply (triple_takeCall _ _ reads domainForReads).step hown
    intro reads' hreads'
    apply (triple_copyCall _ domain (le_add_left (le_add_left le_rfl))).bind
    intro domainForWrites hdomainForWrites
    have hown : held domainForWrites + (held reads' + (held writes + held domain)) =
        held writes + held domainForWrites + (held reads' + held domain) := by ac_rfl
    apply (triple_takeCall _ _ writes domainForWrites).step hown
    intro writes' hwrites'
    -- the conflicts are computed from copies; the two accesses and the domain stay
    generalize hkept : held writes' + (held reads' + held domain) = kept
    have hwritesKept : held writes' ≤ kept := hkept ▸ le_add_right le_rfl
    have hreadsKept : held reads' ≤ kept := hkept ▸ le_add_left (le_add_right le_rfl)
    apply (triple_conflictPart .ww writes' writes' hwritesKept hwritesKept).bind
    intro ww hww
    apply (triple_conflictPart .wr writes' reads' (le_add_left hwritesKept)
      (le_add_left hreadsKept)).bind
    intro wr hwr
    apply (triple_conflictPart .rw reads' writes' (le_add_left (le_add_left hreadsKept))
      (le_add_left (le_add_left hwritesKept))).bind
    intro rw hrw
    have hown : held rw + (held wr + (held ww + kept)) =
        held ww + held wr + (held rw + kept) := by ac_rfl
    apply (triple_takeCall _ _ ww wr).step hown
    intro inner hinner
    apply (triple_takeCall _ _ inner rw).step (add_assoc _ _ _).symm
    intro conflicts hconflicts
    apply Triple.create
    intro before hbefore
    have hown : held before + (held conflicts + kept) = held conflicts + held before + kept := by
      ac_rfl
    apply (triple_takeCall _ _ conflicts before).step hown
    intro deps hdeps
    have hown : held deps + kept = held domain + (held reads' + (held writes' + held deps)) := by
      rw [← hkept]
      ac_rfl
    apply Triple.free hown
    apply Triple.free rfl
    apply Triple.free rfl
    apply Triple.pure rfl
    rw [hdeps, hbefore, hconflicts, hinner, hrw, hwr, hww, hwrites', hreads', hdomainForReads,
      hdomainForWrites]
    rfl

end Dependences

section Legality

variable (fails : Failures) (eqEq : Bool) (nest : LoopNestDescriptor) (deps : Pointer UnionMap)

/-- The loop of `isTilingLegal`, which ends with the first violation. -/
noncomputable def testLoops : List Nat → Act Bool
  | [] => return true
  | k :: rest => do
      let negativeDist ← create (attempt (fails (.readNegativeDist k))
        (Isl.unionMapReadFromStr eqEq (negativeDistStr nest k)))
      let copied ← copyCall (fails (.copyDeps k)) deps
      let violations ← map₂ (fun first second =>
        attempt (fails (.intersectNegativeDist k)) (Isl.intersect first second)) copied negativeDist
      let isEmpty ← keep violations fun violations =>
        if fails (.isEmpty k) then .error else Isl.unionMapIsEmpty violations
      free violations
      if isEmpty.not then return false else testLoops rest

noncomputable def isTilingLegal : Act Bool :=
  if nest.depth < 2 || deps.isNone then return false
  else testLoops fails eqEq nest deps (List.range nest.depth)

variable {fails eqEq nest deps}

theorem triple_testLoops {own : Multiset Nat} (hown : held deps ≤ own) (ks : List Nat) :
    Triple own (testLoops fails eqEq nest deps ks) (fun _ => own)
      fun legal => legal = ks.all fun k => !(fails.report eqEq nest (pointee deps) k).not := by
  induction ks with
  | nil => exact Triple.pure rfl rfl
  | cons k rest ih =>
      apply Triple.create
      intro negativeDist hnegativeDist
      apply (triple_copyCall _ deps (le_add_left hown)).bind
      intro copied hcopied
      apply (triple_map₂ _ copied negativeDist).step (add_assoc _ _ _).symm
      intro violations hviolations
      apply (triple_keep violations _ (le_add_right le_rfl)).bind
      intro isEmpty hisEmpty
      apply Triple.free rfl
      rw [hviolations, hcopied, hnegativeDist] at hisEmpty
      have hreport : isEmpty = fails.report eqEq nest (pointee deps) k := hisEmpty
      rw [List.all_cons, ← hreport]
      cases hnot : isEmpty.not with
      | true => exact Triple.pure rfl rfl
      | false => exact ih

theorem triple_isTilingLegal {own : Multiset Nat} (hown : held deps ≤ own) :
    Triple own (isTilingLegal fails eqEq nest deps) (fun _ => own)
      fun legal => legal = fails.isTilingLegal eqEq nest (pointee deps) := by
  rw [isTilingLegal, Failures.isTilingLegal, pointee_isNone]
  split_ifs
  · exact Triple.pure rfl rfl
  · exact triple_testLoops hown _

end Legality

/-- Whatever calls fail, the two functions use no freed object and free all they make but
the relation that is returned.  What they return is what they compute. -/
theorem getDependencies_isTilingLegal_balanced (fails : Failures) (eqEq : Bool) (F : Function)
    (nest : LoopNestDescriptor) (objects : Objects) :
    ∃ deps objects', getDependencies fails eqEq F nest objects = .ok (deps, objects') ∧
      objects'.references = held deps + objects.references ∧
      pointee deps = fails.getDependencies eqEq F nest ∧
      ∃ legal objects'', isTilingLegal fails eqEq nest deps objects' = .ok (legal, objects'') ∧
        objects''.references = objects'.references ∧
        legal = fails.isTilingLegal eqEq nest (pointee deps) := by
  obtain ⟨deps, objects', hdeps, hleft, hpointee⟩ :=
    triple_getDependencies eqEq F nest objects objects.references (zero_add _).symm
  obtain ⟨legal, objects'', hlegal, hleft', hresult⟩ :=
    triple_isTilingLegal le_rfl objects' objects.references hleft
  exact ⟨deps, objects', hdeps, hleft, hpointee, legal, objects'', hlegal, hleft'.trans hleft.symm,
    hresult⟩

section Run

/-- What ends a run: a fault of a transformation, the use of a freed object, or objects
that are left behind with their context. -/
inductive RunFault
  | pass (fault : Fault)
  | freed (id : Nat)
  | leaked (references : Multiset Nat)

/-- The verdict on a nest, with the dependences that are to be freed. -/
noncomputable def judgeNest (fails : Failures) (eqEq : Bool) (F : Function)
    (nest : LoopNestDescriptor) : Act (Pointer UnionMap × Bool) := do
  let deps ← getDependencies fails eqEq F nest
  if deps.isNone then return (deps, false)
  else
    let legal ← isTilingLegal fails eqEq nest deps
    return (deps, legal)

def islCall {α : Type} (act : Act α) (objects : Objects) : Except RunFault (α × Objects) :=
  (act objects).mapError fun freed => .freed freed.id

/-- `isl_ctx_free` -/
def ctxFree (objects : Objects) : Except RunFault Unit :=
  if objects.references = 0 then .ok () else .error (.leaked objects.references)

/-- A context around what isl computes, the transformation that follows from it and the
object it leaves to be freed. -/
def inContext {α β γ : Type} (act : Act (Pointer α × β)) (transform : β → Except Fault γ) :
    Except RunFault γ := do
  let ((pointer, verdict), objects) ← islCall act noObjects
  let result ← (transform verdict).mapError .pass
  let ((), objects) ← islCall (free pointer) objects
  ctxFree objects
  return result

variable (env : Environment) (eqEq : Bool) (fails : Function → LoopNestDescriptor → Failures)

/-- The body of the loop over the loops. -/
noncomputable def runNest (root : Loop) (editor : Editor) : Except RunFault (Bool × Editor) :=
  match analyzeLoopNest editor.function env.SE root with
  | none => .ok (false, editor)
  | some nest =>
      if !isRectangularNest nest then .ok (false, editor)
      else inContext (judgeNest (fails editor.function nest) eqEq editor.function nest) fun legal =>
        if legal then transformNest env (applyPolyhedralTiling env.options) nest editor
        else .ok (false, editor)

noncomputable def runNests : List Loop → Editor → Except RunFault (List (Loop × Bool) × Editor)
  | [], editor => .ok ([], editor)
  | root :: rest, editor => do
      let (changed, editor) ← runNest env eqEq fails root editor
      let (changes, editor) ← runNests rest editor
      return ((root, changed) :: changes, editor)

noncomputable def run (forest : List Loop) (editor : Editor) :
    Except RunFault (PreservedAnalyses × Editor) :=
  if forest.isEmpty then .ok (.all, editor)
  else do
    let (changes, editor) ← runNests env eqEq fails (collectSubLoops forest) editor
    return (if changes.any Prod.snd then .none else .all, editor)

/-- The verdicts of isl under a pattern of failures for each nest. -/
noncomputable def judged : Environment :=
  { env with legal := fun F nest =>
      (fails F nest).isTilingLegal eqEq nest ((fails F nest).getDependencies eqEq F nest) }

variable {env eqEq fails}

theorem triple_judgeNest (fails : Failures) (F : Function) (nest : LoopNestDescriptor) :
    Triple 0 (judgeNest fails eqEq F nest) (fun result => held result.1) fun result =>
      result.2 = fails.isTilingLegal eqEq nest (fails.getDependencies eqEq F nest) := by
  apply (triple_getDependencies eqEq F nest).bind
  intro deps hdeps
  rw [← hdeps]
  split_ifs with hnull
  · refine Triple.pure (a := (deps, false)) rfl ?_
    simp [Failures.isTilingLegal, pointee_isNone, hnull]
  · apply (triple_isTilingLegal le_rfl).bind
    rintro legal rfl
    exact Triple.pure rfl rfl

/-- A context whose objects are all accounted for is freed, and changes nothing. -/
theorem inContext_eq {α β γ : Type} {act : Act (Pointer α × β)} {verdict : β}
    (h : Triple 0 act (fun result => held result.1) fun result => result.2 = verdict)
    (transform : β → Except Fault γ) :
    inContext act transform = (transform verdict).mapError .pass := by
  obtain ⟨⟨pointer, given⟩, objects, hact, hheld, rfl⟩ := h noObjects 0 rfl
  obtain ⟨⟨⟩, objects', hfree, hempty, _⟩ := triple_free pointer objects 0 hheld
  have hcall : islCall act noObjects = .ok ((pointer, given), objects) := by rw [islCall, hact]; rfl
  have hcall' : islCall (free pointer) objects = .ok ((), objects') := by rw [islCall, hfree]; rfl
  have hctx : ctxFree objects' = .ok () := if_pos hempty
  cases htransform : transform given with
  | error fault => simp [inContext, hcall, htransform, Except.mapError, bind, Except.bind]
  | ok result =>
      simp [inContext, hcall, hcall', hctx, htransform, Except.mapError, bind, Except.bind, pure,
        Except.pure]

theorem runNest_eq (root : Loop) (editor : Editor) : runNest env eqEq fails root editor =
    (PolyhedralPass.runNest (judged env eqEq fails) (applyPolyhedralTiling env.options) root
      editor).mapError .pass := by
  have hSE : (judged env eqEq fails).SE = env.SE := rfl
  rw [runNest, PolyhedralPass.runNest, hSE]
  cases analyzeLoopNest editor.function env.SE root with
  | none => rfl
  | some nest =>
      simp only
      rw [inContext_eq (triple_judgeNest (fails editor.function nest) editor.function nest)]
      have hlegal : (judged env eqEq fails).legal editor.function nest =
          (fails editor.function nest).isTilingLegal eqEq nest
            ((fails editor.function nest).getDependencies eqEq editor.function nest) := rfl
      rw [← hlegal]
      cases isRectangularNest nest with
      | false => rfl
      | true => cases (judged env eqEq fails).legal editor.function nest <;> rfl

theorem runNests_eq (roots : List Loop) (editor : Editor) : runNests env eqEq fails roots editor =
    (PolyhedralPass.runNests (judged env eqEq fails) (applyPolyhedralTiling env.options) roots
      editor).mapError .pass := by
  induction roots generalizing editor with
  | nil => rfl
  | cons root rest ih =>
      rw [runNests, PolyhedralPass.runNests, runNest_eq]
      cases PolyhedralPass.runNest (judged env eqEq fails) (applyPolyhedralTiling env.options) root
          editor with
      | error fault => rfl
      | ok result =>
          change (runNests env eqEq fails rest result.2 >>= fun _ => _) =
            Except.mapError _ (PolyhedralPass.runNests _ _ rest result.2 >>= fun _ => _)
          rw [ih]
          cases PolyhedralPass.runNests (judged env eqEq fails) (applyPolyhedralTiling env.options)
            rest result.2 <;> rfl

/-- A run uses no freed object and leaves none behind, whatever calls fail: it is the run
on the verdicts of isl, and ends in no other fault. -/
theorem run_eq_judged (env : Environment) (eqEq : Bool)
    (fails : Function → LoopNestDescriptor → Failures) (forest : List Loop) (editor : Editor) :
    run env eqEq fails forest editor =
      (PolyhedralPass.run (judged env eqEq fails) forest editor).mapError .pass := by
  rw [run, PolyhedralPass.run, runWith]
  split_ifs
  · rfl
  · rw [runNests_eq]
    change _ = Except.mapError _ (PolyhedralPass.runNests (judged env eqEq fails)
      (applyPolyhedralTiling env.options) (collectSubLoops forest) editor >>= fun _ => _)
    cases PolyhedralPass.runNests (judged env eqEq fails) (applyPolyhedralTiling env.options)
      (collectSubLoops forest) editor <;> rfl

end Run

end Owned

end PolyhedralPass
