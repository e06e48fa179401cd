/-
What the pass prints.  The functions of the pass are here once more, each with the
messages it writes to the error stream, and a run says exactly as much as it does.
-/
import PolyhedralPass.Course
import PolyhedralPass.Reporting

namespace PolyhedralPass

/-- The lines the pass itself prints about a function.  What isl reports on the same
stream about a string it cannot read is not among them. -/
inductive Message
  | analyzing (depth : Nat)
  | notRectangular
  | notParsed
  | negativeDistance
  | permutable (depth : Nat)
  | typesMismatch
  | interchanging (name innermost : String)
  | noPreheaderOrExit
  | tiled (depth tileSize : Nat)
deriving DecidableEq

def kPassName : String := "polyhedral-pass"

namespace Message

/-- The line without the name of the pass in front of it. -/
def body (function : String) : Message → String
  | analyzing depth => "analyzing function " ++ function ++ " with nest depth " ++ toString depth ++
      "\n"
  | notRectangular => "skipped: nest is not rectangular/unit-stride\n"
  | notParsed => "ISL engine failed to parse access bounds.\n"
  | negativeDistance =>
      "Polyhedral operations illegal: ISL detected negative dependence distance.\n"
  | permutable depth => "ISL verified " ++ toString depth ++ "-Deep band is fully permutable!\n"
  | typesMismatch => "Interchange failed: IV types mismatch.\n"
  | interchanging name innermost => "Interchanging loop '" ++ name ++ "' with innermost loop '" ++
      innermost ++ "' to maximize spatial locality.\n"
  | noPreheaderOrExit => "Tiling failed: Outermost loop lacks canonical preheader/exit.\n"
  | tiled depth tileSize => "Successfully tiled " ++ toString depth ++ " loops with block size " ++
      toString tileSize ++ ".\n"

def text (function : String) (message : Message) : String :=
  "[" ++ kPassName ++ "] " ++ message.body function

/-- What the line begins with that reports a tiling. -/
def tiledStart : String := "[" ++ kPassName ++ "] " ++ "Successfully tiled "

theorem head_body (function : String) (message : Message) :
    (message.body function).toList.head? = some 'S' ↔
      ∃ depth tileSize, message = tiled depth tileSize := by
  cases message <;> unfold body <;> simp

/-- No other line begins like the one that reports a tiling. -/
theorem tiledStart_prefix_iff (function : String) (message : Message) :
    tiledStart.toList <+: (message.text function).toList ↔
      ∃ depth tileSize, message = tiled depth tileSize := by
  rw [tiledStart, text, String.toList_append, String.toList_append (t := message.body function),
    List.prefix_append_right_inj]
  constructor
  · rintro ⟨rest, hrest⟩
    rw [← head_body function, ← hrest]
    simp
  · rintro ⟨depth, tileSize, rfl⟩
    unfold body
    simp only [String.toList_append, List.append_assoc]
    exact List.prefix_append _ _

end Message

open Reporting

namespace Reported

section Stages

variable (renamed : Function → Value → String) (address : Value → Nat)

def applyLoopInterchange (nest : LoopNestDescriptor) (idxOuter idxInner : Nat) (editor : Editor) :
    Report Message Fault (Bool × LoopNestDescriptor × Editor) :=
  match nest.loops[idxOuter]?, nest.loops[idxInner]? with
  | some outer, some inner =>
      if editor.function.type outer.induction ≠ editor.function.type inner.induction then do
        say .typesMismatch
        return (false, nest, editor)
      else silent (PolyhedralPass.applyLoopInterchange renamed nest idxOuter idxInner editor)
  | _, _ => return (false, nest, editor)

def inductionName (nest : LoopNestDescriptor) (idx : Nat) : String :=
  (nest.loops[idx]?.map LoopDescriptor.inductionName).getD ""

def optimizeLoopOrder (nest : LoopNestDescriptor) (editor : Editor) :
    Report Message Fault (Bool × LoopNestDescriptor × Editor) :=
  if nest.depth < 2 then return (false, nest, editor)
  else match bestIV address nest with
    | none => return (false, nest, editor)
    | some best =>
        let innermostIdx := nest.depth - 1
        if bestIdx nest best ≠ innermostIdx then do
          say (.interchanging (inductionName nest (bestIdx nest best))
            (inductionName nest innermostIdx))
          applyLoopInterchange renamed nest (bestIdx nest best) innermostIdx editor
        else return (false, nest, editor)

/-- The message about the missing blocks stands in front of the first edit, the other
one behind the last. -/
def applyPolyhedralTiling (options : Options) (nest : LoopNestDescriptor) (editor : Editor) :
    Report Message Fault (Bool × Editor) :=
  match nest.loops with
  | [] => return (false, editor)
  | outermost :: _ =>
      if !options.enableBlocking || nest.depth < 2 then return (false, editor)
      else match outermost.loopNode.loopPreheader editor.function,
          outermost.loopNode.exitBlock editor.function with
        | some _, some _ => do
            let (tiled, editor) ← silent (PolyhedralPass.applyPolyhedralTiling options nest editor)
            say (.tiled nest.depth options.tileSize.toNat)
            return (tiled, editor)
        | _, _ => do
            say .noPreheaderOrExit
            return (false, editor)

/-- The messages of `isTilingLegal` about a verdict. -/
def isTilingLegal (nest : LoopNestDescriptor) (legal : Bool) : Report Message Fault Bool :=
  if nest.depth < 2 then return false
  else do
    say (if legal then .permutable nest.depth else .negativeDistance)
    return legal

end Stages

section Run

/-- The verdict of isl on a nest, which has none where the dependences are null. -/
abbrev Verdict := Function → LoopNestDescriptor → Option Bool

variable (env : Environment) (verdict : Verdict)

def interchangeNest (nest : LoopNestDescriptor) (editor : Editor) :
    Report Message Fault (Bool × LoopNestDescriptor × Editor) :=
  if env.options.enableInterchange then optimizeLoopOrder env.renamed env.address nest editor
  else return (false, nest, editor)

def transformNest (nest : LoopNestDescriptor) (editor : Editor) :
    Report Message Fault (Bool × Editor) := do
  let (interchanged, nest, editor) ← interchangeNest env nest editor
  let (tiled, editor) ← applyPolyhedralTiling env.options nest editor
  return (interchanged || tiled, editor)

def runNest (root : Loop) (editor : Editor) : Report Message Fault (Bool × Editor) :=
  match analyzeLoopNest editor.function env.SE root with
  | none => return (false, editor)
  | some nest => do
      say (.analyzing nest.depth)
      if !isRectangularNest nest then do
        say .notRectangular
        return (false, editor)
      else match verdict editor.function nest with
        | none => do
            say .notParsed
            return (false, editor)
        | some legal => do
            let legal ← isTilingLegal nest legal
            if legal then transformNest env nest editor else return (false, editor)

def runNests : List Loop → Editor → Report Message Fault (List (Loop × Bool) × Editor)
  | [], editor => return ([], editor)
  | root :: rest, editor => do
      let (changed, editor) ← runNest env verdict root editor
      let (changes, editor) ← runNests rest editor
      return ((root, changed) :: changes, editor)

def run (forest : List Loop) (editor : Editor) :
    Report Message Fault (PreservedAnalyses × Editor) :=
  if forest.isEmpty then return (.all, editor)
  else do
    let (changes, editor) ← runNests env verdict (collectSubLoops forest) editor
    return (if changes.any Prod.snd then .none else .all, editor)

/-- The environment of the run without the messages. -/
def judged : Environment := { env with legal := fun F nest => (verdict F nest).getD false }

end Run

section Results

variable {renamed : Function → Value → String} {address : Value → Nat} {env : Environment}
  {verdict : Verdict} {nest : LoopNestDescriptor} {editor : Editor}

theorem result_applyLoopInterchange (nest : LoopNestDescriptor) (idxOuter idxInner : Nat)
    (editor : Editor) : (applyLoopInterchange renamed nest idxOuter idxInner editor).result =
      PolyhedralPass.applyLoopInterchange renamed nest idxOuter idxInner editor := by
  unfold applyLoopInterchange
  cases houter : nest.loops[idxOuter]? with
  | none => simp [PolyhedralPass.applyLoopInterchange, houter]
  | some outer =>
      cases hinner : nest.loops[idxInner]? with
      | none => simp [PolyhedralPass.applyLoopInterchange, houter, hinner]
      | some inner =>
          by_cases htype : editor.function.type outer.induction =
              editor.function.type inner.induction
          · simp [htype]
          · simp [PolyhedralPass.applyLoopInterchange, houter, hinner, htype]

theorem result_optimizeLoopOrder (nest : LoopNestDescriptor) (editor : Editor) :
    (optimizeLoopOrder renamed address nest editor).result =
      PolyhedralPass.optimizeLoopOrder renamed address nest editor := by
  unfold optimizeLoopOrder PolyhedralPass.optimizeLoopOrder
  split_ifs with hdepth
  · rfl
  · cases bestIV address nest with
    | none => rfl
    | some best =>
        simp only
        split_ifs
        · exact result_applyLoopInterchange nest _ _ editor
        · rfl

theorem result_interchangeNest (env : Environment) (nest : LoopNestDescriptor) (editor : Editor) :
    (interchangeNest env nest editor).result = PolyhedralPass.interchangeNest env nest editor := by
  unfold interchangeNest PolyhedralPass.interchangeNest
  split_ifs
  · exact result_optimizeLoopOrder nest editor
  · rfl

theorem result_applyPolyhedralTiling (options : Options) (nest : LoopNestDescriptor)
    (editor : Editor) : (applyPolyhedralTiling options nest editor).result =
      PolyhedralPass.applyPolyhedralTiling options nest editor := by
  cases hloops : nest.loops with
  | nil => simp [applyPolyhedralTiling, PolyhedralPass.applyPolyhedralTiling, hloops]
  | cons outermost rest =>
      by_cases hskip : (!options.enableBlocking || decide (nest.depth < 2)) = true
      · unfold applyPolyhedralTiling PolyhedralPass.applyPolyhedralTiling
        simp only [hloops, hskip, if_true, result_pure]
      · unfold applyPolyhedralTiling
        simp only [hloops, hskip]
        cases hpreheader : outermost.loopNode.loopPreheader editor.function with
        | none =>
            simp [PolyhedralPass.applyPolyhedralTiling, hloops, hpreheader]
        | some preheader =>
            cases hexit : outermost.loopNode.exitBlock editor.function with
            | none =>
                simp [PolyhedralPass.applyPolyhedralTiling, hloops, hpreheader, hexit]
            | some exit =>
                simp only [Bool.false_eq_true, if_false, result_bind, result_silent]
                cases PolyhedralPass.applyPolyhedralTiling options nest editor <;> rfl

theorem result_transformNest (env : Environment) (nest : LoopNestDescriptor) (editor : Editor) :
    (transformNest env nest editor).result = PolyhedralPass.transformNest env
      (PolyhedralPass.applyPolyhedralTiling env.options) nest editor := by
  rw [transformNest, PolyhedralPass.transformNest, result_bind, result_interchangeNest]
  cases PolyhedralPass.interchangeNest env nest editor with
  | error fault => rfl
  | ok middle =>
      change (_ >>= _ : Report Message Fault _).result = _ >>= _
      rw [result_bind, result_applyPolyhedralTiling]
      rfl

theorem result_runNest (root : Loop) (editor : Editor) :
    (runNest env verdict root editor).result = PolyhedralPass.runNest (judged env verdict)
      (PolyhedralPass.applyPolyhedralTiling env.options) root editor := by
  have hSE : (judged env verdict).SE = env.SE := rfl
  rw [runNest, PolyhedralPass.runNest, hSE]
  cases hnest : analyzeLoopNest editor.function env.SE root with
  | none => rfl
  | some nest =>
      have hdepth : ¬ nest.depth < 2 := not_lt.mpr (describes_of_analyzeLoopNest hnest).1
      have hlegal : (judged env verdict).legal editor.function nest =
          (verdict editor.function nest).getD false := rfl
      simp only [result_say_bind, hlegal]
      cases isRectangularNest nest with
      | false => rfl
      | true =>
          cases verdict editor.function nest with
          | none => rfl
          | some legal =>
              change (isTilingLegal nest legal >>= _).result = _
              rw [isTilingLegal, if_neg hdepth, result_bind, result_say_bind, result_pure]
              cases legal with
              | false => rfl
              | true => exact result_transformNest env nest editor

end Results

section Log

/-- What is said about the order of the loops: which loop is to change places with the
innermost one, and that their types do not allow it. -/
def orderLines (env : Environment) (nest : LoopNestDescriptor) (editor : Editor) : List Message :=
  if env.options.enableInterchange then
    match bestIV env.address nest with
    | none => []
    | some best =>
        if bestIdx nest best = nest.depth - 1 then []
        else .interchanging (inductionName nest (bestIdx nest best))
            (inductionName nest (nest.depth - 1)) ::
          if (orderChoice env.address editor.function nest).isSome then [] else [.typesMismatch]
  else []

/-- What is said about the tiling of a nest that is not tiled. -/
def tilingLines (env : Environment) (root : Loop) (editor : Editor) : List Message :=
  if env.options.enableBlocking ∧ root.exitBlock editor.function = none then [.noPreheaderOrExit]
  else []

/-- What is said about a loop, when it is visited with the function of an editor. -/
def visitLines (env : Environment) (verdict : Verdict) (visit : Loop × Editor) : List Message :=
  match analyzeLoopNest visit.2.function env.SE visit.1 with
  | none => []
  | some nest => .analyzing nest.depth ::
      if isRectangularNest nest then
        match verdict visit.2.function nest with
        | none => [.notParsed]
        | some false => [.negativeDistance]
        | some true => .permutable nest.depth ::
            (orderLines env nest visit.2 ++ tilingLines env visit.1 visit.2)
      else [.notRectangular]

/-- What the first stage says, and whether it changes the nest. -/
inductive OrderMessages : Bool → List Message → Prop
  | kept : OrderMessages false []
  | moved (name innermost : String) : OrderMessages true [.interchanging name innermost]
  | mismatch (name innermost : String) :
      OrderMessages false [.interchanging name innermost, .typesMismatch]

/-- What a visit of one loop says, and whether it changes the function. -/
inductive VisitMessages : Bool → List Message → Prop
  | passed : VisitMessages false []
  | rejected {depth : Nat} {reason : Message} (hdepth : 2 ≤ depth)
      (hreason : reason ∈ [Message.notRectangular, .notParsed, .negativeDistance]) :
      VisitMessages false [.analyzing depth, reason]
  | accepted {depth : Nat} {changed : Bool} {order tiling : List Message} (hdepth : 2 ≤ depth)
      (horder : OrderMessages changed order)
      (htiling : tiling ∈ [[], [Message.noPreheaderOrExit]]) :
      VisitMessages changed (.analyzing depth :: .permutable depth :: (order ++ tiling))

/-- The visits a log is made of, each with its change. -/
structure LogOf (parts : List (Bool × List Message)) (log : List Message) : Prop where
  visits : ∀ part ∈ parts, VisitMessages part.1 part.2
  log_eq : log = parts.flatMap Prod.snd

variable {renamed : Function → Value → String} {address : Value → Nat} {env : Environment}
  {verdict : Verdict} {root : Loop} {nest : LoopNestDescriptor} {editor : Editor}

theorem bestIdx_lt_depth (hdepth : 0 < nest.depth) (best : Value) :
    bestIdx nest best < nest.depth := by
  unfold bestIdx
  cases hidx : nest.loops.findIdx? (·.induction == best) with
  | none => exact hdepth
  | some idx => exact (List.findIdx?_eq_some_iff_getElem.mp hidx).1

/-- Where both loops are there, an interchange that fails says so. -/
theorem messages_applyLoopInterchange {idxOuter idxInner : Nat} (houter : idxOuter < nest.depth)
    (hinner : idxInner < nest.depth) {changed : Bool} {nest' : LoopNestDescriptor}
    {editor' : Editor}
    (h : PolyhedralPass.applyLoopInterchange renamed nest idxOuter idxInner editor =
      .ok (changed, nest', editor')) :
    (applyLoopInterchange renamed nest idxOuter idxInner editor).messages =
      if changed then [] else [.typesMismatch] := by
  have houter' := List.getElem?_eq_getElem houter
  have hinner' := List.getElem?_eq_getElem hinner
  simp only [PolyhedralPass.applyLoopInterchange, houter', hinner'] at h
  simp only [applyLoopInterchange, houter', hinner']
  split_ifs at h ⊢ with htype hchanged hchanged
  · obtain ⟨rfl, _⟩ := Prod.mk.inj (Except.ok.inj h)
    exact absurd hchanged (by simp)
  · rfl
  · rfl
  · obtain ⟨_, _, h⟩ := bind_eq_ok h
    obtain ⟨_, _, h⟩ := bind_eq_ok h
    exact absurd (Prod.mk.inj (Except.ok.inj h)).1.symm hchanged

theorem messages_optimizeLoopOrder {changed : Bool} {nest' : LoopNestDescriptor} {editor' : Editor}
    (h : PolyhedralPass.optimizeLoopOrder renamed address nest editor =
      .ok (changed, nest', editor')) :
    OrderMessages changed (optimizeLoopOrder renamed address nest editor).messages := by
  have hkept : (.ok (false, nest, editor) : Except Fault _) = .ok (changed, nest', editor') →
      OrderMessages changed [] := by
    intro heq
    obtain ⟨rfl, _⟩ := Prod.mk.inj (Except.ok.inj heq)
    exact .kept
  unfold PolyhedralPass.optimizeLoopOrder at h
  unfold optimizeLoopOrder
  by_cases hdepth : nest.depth < 2
  · rw [if_pos hdepth] at h ⊢
    exact hkept h
  · rw [if_neg hdepth] at h ⊢
    cases hbest : bestIV address nest with
    | none =>
        rw [hbest] at h
        exact hkept h
    | some best =>
        simp only [hbest] at h
        simp only
        by_cases hlast : bestIdx nest best ≠ nest.depth - 1
        · rw [if_pos hlast] at h ⊢
          rw [messages_say_bind, messages_applyLoopInterchange
            (bestIdx_lt_depth (by omega) best) (by omega) h]
          cases changed with
          | false => exact .mismatch _ _
          | true => exact .moved _ _
        · rw [if_neg hlast] at h ⊢
          exact hkept h

/-- The first stage announces the loop with the best score, if it is not innermost. -/
theorem messages_interchangeNest_eq (env : Environment) (hdepth : 2 ≤ nest.depth)
    (editor : Editor) :
    (interchangeNest env nest editor).messages = orderLines env nest editor := by
  have hdepth' : ¬ nest.depth < 2 := not_lt.mpr hdepth
  unfold interchangeNest orderLines
  by_cases henabled : env.options.enableInterchange = true
  · rw [if_pos henabled, if_pos henabled]
    unfold optimizeLoopOrder orderChoice
    rw [if_neg hdepth', if_neg hdepth']
    cases hbest : bestIV env.address nest with
    | none => rfl
    | some best =>
        simp only [Option.bind_some]
        by_cases hlast : bestIdx nest best = nest.depth - 1
        · rw [if_neg (not_not.mpr hlast), if_pos hlast]
          rfl
        · obtain ⟨loop, hloop⟩ : ∃ loop, nest.loops[bestIdx nest best]? = some loop :=
            ⟨_, List.getElem?_eq_getElem (@bestIdx_lt_depth nest (by omega) best)⟩
          have hlength : nest.depth - 1 < nest.loops.length := by
            rw [← LoopNestDescriptor.depth]
            omega
          obtain ⟨innermost, hinnermost⟩ : ∃ loop, nest.loops[nest.depth - 1]? = some loop :=
            ⟨_, List.getElem?_eq_getElem hlength⟩
          rw [if_pos hlast, if_neg hlast, messages_say_bind]
          congr 1
          simp only [applyLoopInterchange, movedLoop, hloop, hinnermost, if_neg hlast]
          by_cases htype : editor.function.type loop.induction =
              editor.function.type innermost.induction
          · rw [if_neg (not_not.mpr htype), if_pos htype]
            rfl
          · rw [if_pos htype, if_neg htype]
            rfl
  · rw [if_neg henabled, if_neg henabled]
    rfl

theorem messages_interchangeNest {changed : Bool} {nest' : LoopNestDescriptor} {editor' : Editor}
    (h : PolyhedralPass.interchangeNest env nest editor = .ok (changed, nest', editor')) :
    OrderMessages changed (interchangeNest env nest editor).messages := by
  unfold PolyhedralPass.interchangeNest at h
  unfold interchangeNest
  split_ifs at h ⊢ with henabled
  · exact messages_optimizeLoopOrder h
  · obtain ⟨rfl, _⟩ := Prod.mk.inj (Except.ok.inj h)
    exact .kept

/-- Tiling never comes to the message behind its last edit. -/
theorem messages_applyPolyhedralTiling {options : Options} {outermost : LoopDescriptor}
    {rest : List LoopDescriptor} (hloops : nest.loops = outermost :: rest) (hdepth : 2 ≤ nest.depth)
    {preheader : BlockId}
    (hpreheader : outermost.loopNode.loopPreheader editor.function = some preheader) :
    (applyPolyhedralTiling options nest editor).messages =
        (if options.enableBlocking ∧ outermost.loopNode.exitBlock editor.function = none then
          [.noPreheaderOrExit] else []) ∧
      ∀ result, PolyhedralPass.applyPolyhedralTiling options nest editor = .ok result →
        result.1 = false := by
  have hdepth' : ¬ nest.depth < 2 := not_lt.mpr hdepth
  by_cases hblocking : options.enableBlocking = true
  · cases hexit : outermost.loopNode.exitBlock editor.function with
    | none =>
        rw [applyPolyhedralTiling_untiled hloops (Or.inr hexit)]
        simp [applyPolyhedralTiling, hloops, hblocking, hdepth', hpreheader, hexit]
    | some exit =>
        have hfault := applyPolyhedralTiling_fault hblocking hloops hdepth hpreheader hexit
        rw [hfault]
        refine ⟨?_, fun _ hresult => absurd hresult (by simp)⟩
        simp only [applyPolyhedralTiling, hloops, hblocking, hdepth', hpreheader, hexit,
          Bool.not_true, decide_false, Bool.or_false, Bool.false_eq_true, if_false]
        rw [messages_bind_of_error hfault, messages_silent, if_neg (by simp)]
  · have hblocking := Bool.eq_false_of_not_eq_true hblocking
    rw [applyPolyhedralTiling_untiled hloops (Or.inl hblocking)]
    simp [applyPolyhedralTiling, hloops, hblocking]

/-- What is said about a legal nest, and what its transformations change. -/
theorem messages_transformNest (hnest : analyzeLoopNest editor.function env.SE root = some nest) :
    ∃ changed, OrderMessages changed (orderLines env nest editor) ∧
      (transformNest env nest editor).messages =
        orderLines env nest editor ++ tilingLines env root editor ∧
      ∀ result, (transformNest env nest editor).result = .ok result → result.1 = changed := by
  obtain ⟨interchanged, nest', editor', hinterchange, hreordered⟩ :=
    interchangeNest_ok hnest
  obtain ⟨first, others, hfirst, hdescribes⟩ := analyzeLoopNest_head hnest
  have hnodes := hreordered.nodes
  rw [hfirst] at hnodes
  obtain ⟨outermost, rest, hloops, hnode, _⟩ := List.map_eq_cons_iff.mp hnodes
  have hdepth : 2 ≤ nest'.depth := by
    have hlength := congrArg List.length hreordered.nodes
    rw [List.length_map, List.length_map] at hlength
    rw [LoopNestDescriptor.depth, hlength]
    exact (describes_of_analyzeLoopNest hnest).1
  obtain ⟨preheader, hpreheader, _⟩ := hdescribes.preheader
  rw [← Function.loopPreheader_of_skeleton hreordered.skeleton, ← hdescribes.loopNode,
    ← hnode] at hpreheader
  obtain ⟨htiling, hnever⟩ := messages_applyPolyhedralTiling hloops hdepth hpreheader
  rw [hnode, hdescribes.loopNode,
    Function.exitBlock_of_skeleton hreordered.skeleton] at htiling
  have hresult := (result_interchangeNest env nest editor).trans hinterchange
  have horder := messages_interchangeNest hinterchange
  have hlines := messages_interchangeNest_eq env (describes_of_analyzeLoopNest hnest).1 editor
  rw [hlines] at horder
  refine ⟨interchanged, horder, ?_, ?_⟩
  · rw [transformNest, messages_bind_of_ok hresult, hlines, tilingLines, ← htiling]
    congr 1
    simp only
    cases htiled : (applyPolyhedralTiling env.options nest' editor').result with
    | error fault => rw [messages_bind_of_error htiled]
    | ok result => rw [messages_bind_of_ok htiled, messages_pure, List.append_nil]
  · intro result h
    rw [transformNest] at h
    obtain ⟨middle, hmiddle, h⟩ := bind_result_ok h
    obtain rfl := Except.ok.inj (hresult.symm.trans hmiddle)
    obtain ⟨tiled, htiled, h⟩ := bind_result_ok h
    rw [result_applyPolyhedralTiling] at htiled
    obtain rfl := Except.ok.inj h
    simp [hnever tiled htiled]

theorem tilingLines_mem (env : Environment) (root : Loop) (editor : Editor) :
    tilingLines env root editor ∈ [[], [Message.noPreheaderOrExit]] := by
  unfold tilingLines
  split_ifs <;> simp

/-- A visit says what it does. -/
theorem messages_runNest (env : Environment) (verdict : Verdict) (root : Loop) (editor : Editor) :
    (runNest env verdict root editor).messages = visitLines env verdict (root, editor) ∧
      ∃ changed, VisitMessages changed (visitLines env verdict (root, editor)) ∧
        ∀ result, (runNest env verdict root editor).result = .ok result →
          result.1 = changed := by
  unfold runNest visitLines
  cases hnest : analyzeLoopNest editor.function env.SE root with
  | none =>
      refine ⟨rfl, false, .passed, fun result h => ?_⟩
      obtain rfl := Except.ok.inj h
      rfl
  | some nest =>
      have hdepth := (describes_of_analyzeLoopNest hnest).1
      have hkept : ∀ result, (.ok (false, editor) : Except Fault (Bool × Editor)) = .ok result →
          result.1 = false := by
        rintro result h
        obtain rfl := Except.ok.inj h
        rfl
      simp only [messages_say_bind, result_say_bind]
      cases isRectangularNest nest with
      | false => exact ⟨rfl, false, .rejected hdepth (by simp), hkept⟩
      | true =>
          cases verdict editor.function nest with
          | none => exact ⟨rfl, false, .rejected hdepth (by simp), hkept⟩
          | some legal =>
              have hshort : ¬ nest.depth < 2 := not_lt.mpr hdepth
              cases legal with
              | false =>
                  simp only [Bool.not_true, isTilingLegal, hshort]
                  exact ⟨rfl, false, .rejected hdepth (by simp), hkept⟩
              | true =>
                  obtain ⟨changed, horder, hmessages, hresult⟩ := messages_transformNest hnest
                  simp only [Bool.not_true, isTilingLegal, hshort]
                  refine ⟨?_, changed, ?_, hresult⟩
                  · exact congrArg (fun lines => Message.analyzing nest.depth ::
                      Message.permutable nest.depth :: lines) hmessages
                  · exact .accepted hdepth horder (tilingLines_mem env root editor)

/-- The log of the loop over the loops, up to the visit that ends the run. -/
theorem messages_runNests (env : Environment) (verdict : Verdict) (roots : List Loop)
    (editor : Editor) :
    ∃ parts, LogOf parts (runNests env verdict roots editor).messages ∧
      ∀ result, (runNests env verdict roots editor).result = .ok result →
        result.1.map Prod.snd = parts.map Prod.fst := by
  induction roots generalizing editor with
  | nil =>
      refine ⟨[], ⟨fun part hpart => absurd hpart List.not_mem_nil, rfl⟩, fun result h => ?_⟩
      obtain rfl := Except.ok.inj h
      rfl
  | cons root rest ih =>
      obtain ⟨hsaid, changed, hvisit, hchanged⟩ := messages_runNest env verdict root editor
      generalize visitLines env verdict (root, editor) = said at hsaid hvisit
      rw [runNests]
      cases hroot : (runNest env verdict root editor).result with
      | error fault =>
          refine ⟨[(changed, said)], ⟨?_, ?_⟩, ?_⟩
          · intro part hpart
            rw [List.mem_singleton.mp hpart]
            exact hvisit
          · rw [messages_bind_of_error hroot, hsaid]
            simp
          · intro result h
            rw [result_bind, hroot] at h
            exact absurd h (by simp [bind, Except.bind])
      | ok middle =>
          obtain ⟨parts, hlog, hlater⟩ := ih middle.2
          refine ⟨(changed, said) :: parts, ⟨?_, ?_⟩, ?_⟩
          · intro part hpart
            rcases List.mem_cons.mp hpart with rfl | hpart
            · exact hvisit
            · exact hlog.visits part hpart
          · rw [messages_bind_of_ok hroot, hsaid, List.flatMap_cons, ← hlog.log_eq]
            congr 1
            simp only
            cases hrest : (runNests env verdict rest middle.2).result with
            | error fault => rw [messages_bind_of_error hrest]
            | ok result => rw [messages_bind_of_ok hrest, messages_pure, List.append_nil]
          · intro result h
            obtain ⟨first, hfirst, h⟩ := bind_result_ok h
            obtain rfl := Except.ok.inj (hroot.symm.trans hfirst)
            obtain ⟨changes, hchanges, h⟩ := bind_result_ok h
            obtain rfl := Except.ok.inj h
            simp [hchanged middle hroot, hlater changes hchanges]

/-- The log of the loop over the loops is what is said at its visits, up to the first at
which the nest would be tiled. -/
theorem messages_runNests_eq (env : Environment) (verdict : Verdict) (roots : List Loop)
    (editor : Editor) :
    ((∀ visit ∈ visits (judged env verdict) roots editor,
        ¬ WouldTile (judged env verdict) visit) →
      (runNests env verdict roots editor).messages =
        (visits (judged env verdict) roots editor).flatMap (visitLines env verdict)) ∧
    ∀ before visit after, visits (judged env verdict) roots editor = before ++ visit :: after →
      (∀ earlier ∈ before, ¬ WouldTile (judged env verdict) earlier) →
      WouldTile (judged env verdict) visit →
      (runNests env verdict roots editor).messages =
        (before ++ [visit]).flatMap (visitLines env verdict) := by
  induction roots generalizing editor with
  | nil =>
      refine ⟨fun _ => rfl, fun before visit after h => ?_⟩
      exact absurd h (by simp [visits])
  | cons root rest ih =>
      obtain ⟨hsaid, _⟩ := messages_runNest env verdict root editor
      obtain ⟨hfault, hvisit⟩ := runNest_eq (judged env verdict) root editor
      have hresult := @result_runNest env verdict root editor
      have hoptions : (judged env verdict).options = env.options := rfl
      rw [hoptions, ← hresult] at hfault hvisit
      rw [runNests, visits]
      -- behind a visit that does not end the run come the lines of the others
      have hcompletes : ¬ WouldTile (judged env verdict) (root, editor) →
          (runNest env verdict root editor >>= fun changed =>
            runNests env verdict rest changed.2 >>= fun changes =>
              pure ((root, changed.1) :: changes.1, changes.2)).messages =
            visitLines env verdict (root, editor) ++
              (runNests env verdict rest (reorderNest (judged env verdict) root editor).2).messages
          := by
        intro hnot
        rw [messages_bind_of_ok (hvisit hnot), hsaid]
        congr 1
        cases hrest : (runNests env verdict rest
            (reorderNest (judged env verdict) root editor).2).result with
        | error fault => rw [messages_bind_of_error hrest]
        | ok result => rw [messages_bind_of_ok hrest, messages_pure, List.append_nil]
      obtain ⟨hall, hsplit⟩ := ih (reorderNest (judged env verdict) root editor).2
      constructor
      · intro hnone
        rw [List.flatMap_cons, ← hall fun visit hmem => hnone visit (List.mem_cons_of_mem _ hmem)]
        exact hcompletes (hnone _ List.mem_cons_self)
      · intro before visit after heq hbefore htile
        cases before with
        | nil =>
            obtain ⟨rfl, _⟩ := List.cons.inj heq
            rw [messages_bind_of_error (hfault htile), hsaid]
            simp
        | cons first earlier =>
            obtain ⟨rfl, htail⟩ := List.cons.inj heq
            rw [List.cons_append, List.flatMap_cons, ← hsplit earlier visit after htail
              (fun v hv => hbefore v (List.mem_cons_of_mem _ hv)) htile]
            exact hcompletes (hbefore _ List.mem_cons_self)

/-- How often the log says that two loops are interchanged. -/
def interchangings (log : List Message) : Nat :=
  log.countP fun message => match message with
    | .interchanging _ _ => true
    | _ => false

/-- One interchange for each change, but for those that are taken back at once. -/
theorem VisitMessages.interchangings_eq {changed : Bool} {log : List Message}
    (h : VisitMessages changed log) :
    interchangings log = log.count .typesMismatch + if changed then 1 else 0 := by
  cases h with
  | passed => rfl
  | rejected hdepth hreason =>
      simp only [List.mem_cons, List.not_mem_nil, or_false] at hreason
      rcases hreason with rfl | rfl | rfl <;> rfl
  | accepted hdepth horder htiling =>
      simp only [List.mem_cons, List.not_mem_nil, or_false] at htiling
      rcases htiling with rfl | rfl <;> cases horder <;> rfl

theorem LogOf.interchangings_eq {parts : List (Bool × List Message)} {log : List Message}
    (h : LogOf parts log) :
    interchangings log = log.count .typesMismatch + (parts.map Prod.fst).count true := by
  obtain ⟨hvisits, rfl⟩ := h
  induction parts with
  | nil => rfl
  | cons part rest ih =>
      have hpart := (hvisits part List.mem_cons_self).interchangings_eq
      have hrest := ih fun later hlater => hvisits later (List.mem_cons_of_mem part hlater)
      simp only [interchangings, List.flatMap_cons, List.countP_append, List.count_append,
        List.map_cons, List.count_cons] at hpart hrest ⊢
      cases hchanged : part.1 <;> simp [hchanged] at hpart ⊢ <;> omega

/-- A log says of no nest that it was tiled. -/
theorem LogOf.not_tiled {parts : List (Bool × List Message)} {log : List Message}
    (h : LogOf parts log) (depth tileSize : Nat) : Message.tiled depth tileSize ∉ log := by
  obtain ⟨hvisits, rfl⟩ := h
  intro hmem
  obtain ⟨part, hpart, hmem⟩ := List.mem_flatMap.mp hmem
  obtain ⟨changed, messages⟩ := part
  have hvisit := hvisits _ hpart
  cases hvisit with
  | passed => exact absurd hmem List.not_mem_nil
  | rejected hdepth hreason =>
      simp only [List.mem_cons, List.not_mem_nil, or_false] at hreason hmem
      rcases hreason with rfl | rfl | rfl <;> simp at hmem
  | accepted hdepth horder htiling =>
      simp only [List.mem_cons, List.not_mem_nil, or_false] at htiling
      rcases htiling with rfl | rfl <;> cases horder <;> simp at hmem

end Log

section Runs

variable (env : Environment) (verdict : Verdict)

theorem result_runNests (roots : List Loop) (editor : Editor) :
    (runNests env verdict roots editor).result = PolyhedralPass.runNests (judged env verdict)
      (PolyhedralPass.applyPolyhedralTiling env.options) roots editor := by
  induction roots generalizing editor with
  | nil => rfl
  | cons root rest ih =>
      rw [runNests, PolyhedralPass.runNests, result_bind, result_runNest]
      cases PolyhedralPass.runNest (judged env verdict)
          (PolyhedralPass.applyPolyhedralTiling env.options) root editor with
      | error fault => rfl
      | ok middle =>
          change (_ >>= _ : Report Message Fault _).result = _ >>= _
          rw [result_bind, ih]
          rfl

theorem result_run (forest : List Loop) (editor : Editor) :
    (run env verdict forest editor).result =
      PolyhedralPass.run (judged env verdict) forest editor := by
  rw [run, PolyhedralPass.run, runWith]
  split_ifs
  · rfl
  · rw [result_bind, result_runNests]
    rfl

theorem exists_logOf_run (forest : List Loop) (editor : Editor) :
    ∃ parts, LogOf parts (run env verdict forest editor).messages ∧
      ∀ result, (run env verdict forest editor).result = .ok result →
        (result.1 = .none ↔ true ∈ parts.map Prod.fst) := by
  rw [run]
  split_ifs
  · refine ⟨[], ⟨fun part hpart => absurd hpart List.not_mem_nil, rfl⟩, fun result h => ?_⟩
    obtain rfl := Except.ok.inj h
    simp
  · obtain ⟨parts, hlog, hchanges⟩ := messages_runNests env verdict (collectSubLoops forest) editor
    refine ⟨parts, ?_, fun result h => ?_⟩
    · cases hresult : (runNests env verdict (collectSubLoops forest) editor).result with
      | error fault => rwa [messages_bind_of_error hresult]
      | ok result => rwa [messages_bind_of_ok hresult, messages_pure, List.append_nil]
    · obtain ⟨changes, hnests, h⟩ := bind_result_ok h
      obtain rfl := Except.ok.inj h
      rw [← hchanges changes hnests]
      simp only
      split_ifs with hany
      · simp only [List.any_eq_true, true_iff] at hany ⊢
        obtain ⟨change, hchange, htrue⟩ := hany
        exact List.mem_map.mpr ⟨change, hchange, htrue⟩
      · simp only [List.any_eq_true, false_iff] at hany ⊢
        intro hmem
        obtain ⟨change, hchange, htrue⟩ := List.mem_map.mp hmem
        exact hany ⟨change, hchange, htrue⟩

/-- What a run prints, also one that ends in a fault: for each loop it visits, in their
order, what is said of it with the function that the visits before have left behind, up to
the first visit that would tile, which ends the run; and never a line about a tiled nest. -/
theorem run_messages (functionName : String) (forest : List Loop) (editor : Editor) :
    ((∀ visit ∈ visits (judged env verdict) (collectSubLoops forest) editor,
        ¬ WouldTile (judged env verdict) visit) →
      (run env verdict forest editor).messages =
        (visits (judged env verdict) (collectSubLoops forest) editor).flatMap
          (visitLines env verdict)) ∧
    (∀ before visit after,
      visits (judged env verdict) (collectSubLoops forest) editor = before ++ visit :: after →
      (∀ earlier ∈ before, ¬ WouldTile (judged env verdict) earlier) →
      WouldTile (judged env verdict) visit →
      (run env verdict forest editor).messages =
        (before ++ [visit]).flatMap (visitLines env verdict)) ∧
    ∀ message ∈ (run env verdict forest editor).messages,
      ¬ Message.tiledStart.toList <+: (message.text functionName).toList := by
  have hmessages : (run env verdict forest editor).messages =
      (runNests env verdict (collectSubLoops forest) editor).messages := by
    cases forest with
    | nil => rfl
    | cons first rest =>
        rw [run, if_neg (by simp)]
        cases hnests : (runNests env verdict (collectSubLoops (first :: rest)) editor).result with
        | error fault => rw [messages_bind_of_error hnests]
        | ok result => rw [messages_bind_of_ok hnests, messages_pure, List.append_nil]
  obtain ⟨hall, hsplit⟩ := messages_runNests_eq env verdict (collectSubLoops forest) editor
  obtain ⟨parts, hlog, _⟩ := exists_logOf_run env verdict forest editor
  rw [← hmessages] at hall hsplit
  refine ⟨hall, hsplit, fun message hmessage hprefix => ?_⟩
  obtain ⟨depth, tileSize, rfl⟩ := (Message.tiledStart_prefix_iff functionName message).mp hprefix
  exact hlog.not_tiled depth tileSize hmessage

/-- A run that completes reports a change exactly when its log has an interchange that no
mismatch of the types has stopped; what it does is what it does without the messages. -/
theorem run_reported (forest : List Loop) (editor : Editor) :
    (run env verdict forest editor).result =
        PolyhedralPass.run (judged env verdict) forest editor ∧
      ∀ report editor', PolyhedralPass.run (judged env verdict) forest editor =
          .ok (report, editor') →
        (report = .none ↔ (run env verdict forest editor).messages.count .typesMismatch <
          interchangings (run env verdict forest editor).messages) := by
  refine ⟨result_run env verdict forest editor, fun report editor' h => ?_⟩
  rw [← result_run] at h
  obtain ⟨parts, hlog, hreport⟩ := exists_logOf_run env verdict forest editor
  rw [hreport _ h, hlog.interchangings_eq, ← List.count_pos_iff]
  omega

end Runs

section Linked

variable (env : Environment)

/-- The verdict of the isl the pass is linked with. -/
noncomputable def linkedVerdict (eqEq : Bool) : Verdict := fun F nest =>
  (getDependencies eqEq F nest).map fun deps => PolyhedralPass.isTilingLegal eqEq nest (some deps)

theorem judged_linkedVerdict (eqEq : Bool) : judged env (linkedVerdict eqEq) = env.linked eqEq := by
  have hlegal : ∀ F nest, ((linkedVerdict eqEq) F nest).getD false =
      PolyhedralPass.isTilingLegal eqEq nest (getDependencies eqEq F nest) := by
    intro F nest
    unfold linkedVerdict
    cases getDependencies eqEq F nest with
    | none => simp [PolyhedralPass.isTilingLegal]
    | some deps => rfl
  simp only [judged, Environment.linked, hlegal]

/-- What a loop is given as reason why it is left alone. -/
def linkedMessages (F : Function) (root : Loop) : List Message :=
  match analyzeLoopNest F env.SE root with
  | none => []
  | some nest =>
      [.analyzing nest.depth, if isRectangularNest nest then .notParsed else .notRectangular]

theorem runNest_linked (root : Loop) (editor : Editor) :
    runNest env (linkedVerdict false) root editor =
      ⟨linkedMessages env editor.function root, .ok (false, editor)⟩ := by
  unfold runNest linkedMessages
  cases hnest : analyzeLoopNest editor.function env.SE root with
  | none => rfl
  | some nest =>
      have hdepth := (describes_of_analyzeLoopNest hnest).1
      have hnone : linkedVerdict false editor.function nest = none := by
        rw [linkedVerdict, getDependencies_of_beforeStr_none
          (unionMapReadFromStr_beforeStr_none hdepth), Option.map_none]
      simp only [hnone]
      cases isRectangularNest nest <;> rfl

theorem runNests_linked (roots : List Loop) (editor : Editor) :
    runNests env (linkedVerdict false) roots editor =
      ⟨roots.flatMap (linkedMessages env editor.function),
        .ok (roots.map fun root => (root, false), editor)⟩ := by
  induction roots with
  | nil => rfl
  | cons root rest ih =>
      rw [runNests, runNest_linked]
      change (⟨linkedMessages env editor.function root ++
        (runNests env (linkedVerdict false) rest editor >>= _).messages,
        (runNests env (linkedVerdict false) rest editor >>= _).result⟩ : Report _ _ _) = _
      rw [ih]
      simp [bind]

/-- With the isl of the repository a run says of every loop with a nest why it is left
alone: isl cannot read the order of the iterations.  The pass itself says nothing else. -/
theorem run_linked_messages (forest : List Loop) (editor : Editor) :
    judged env (linkedVerdict false) = env.linked false ∧
      run env (linkedVerdict false) forest editor =
        ⟨(collectSubLoops forest).flatMap (linkedMessages env editor.function),
          .ok (.all, editor)⟩ := by
  refine ⟨judged_linkedVerdict env false, ?_⟩
  cases forest with
  | nil => rfl
  | cons first rest =>
      rw [run, if_neg (by simp), runNests_linked]
      simp [bind]

end Linked

end Reported

end PolyhedralPass
