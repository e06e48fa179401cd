/-
Failing calls of isl.  Every call that `getDependencies` and `isTilingLegal` make
may fail; this module follows a failure to the verdict on the nest.
-/
import PolyhedralPass.Exactness
import Mathlib.Data.Option.NAry

namespace PolyhedralPass

open Isl (UnionSet UnionMap Bool3 Point wordReadable)

/-- The three parts of the conflict relation. -/
inductive ConflictPart
  | ww | wr | rw
deriving DecidableEq

/-- The calls `getDependencies` makes, but for those that free a relation. -/
inductive DependenceCall
  | readDomain | readReads | readWrites
  | copyDomainForReads | intersectReads
  | copyDomainForWrites | intersectWrites
  | copyFirst (part : ConflictPart)
  | copySecond (part : ConflictPart)
  | reverse (part : ConflictPart)
  | applyRange (part : ConflictPart)
  | unionInner | unionOuter
  | readBefore | intersectBefore
deriving DecidableEq

/-- The calls behind a verdict; those of `isTilingLegal` are made once for each
loop of the nest. -/
inductive IslCall
  | dependence (call : DependenceCall)
  | copyDeps (k : Nat)
  | readNegativeDist (k : Nat)
  | intersectNegativeDist (k : Nat)
  | isEmpty (k : Nat)
deriving DecidableEq

/-- A pattern of failures: which calls fail, whatever their arguments are. -/
abbrev Failures := IslCall → Bool

def noFailures : Failures := fun _ => false

/-- A call with a pointer result. -/
def attempt {α : Type} (failed : Bool) (result : Option α) : Option α :=
  if failed then none else result

@[simp] theorem attempt_false {α : Type} (result : Option α) : attempt false result = result := rfl

theorem attempt_isSome {α : Type} {failed : Bool} {result : Option α} :
    (attempt failed result).isSome = true ↔ failed = false ∧ result.isSome = true := by
  cases failed <;> simp [attempt]

namespace Failures

variable (fails : Failures) (eqEq : Bool) (F : Function) (nest : LoopNestDescriptor)

/-- One call of `getDependencies`. -/
def dependenceCall {α : Type} (call : DependenceCall) (result : Option α) : Option α :=
  attempt (fails (.dependence call)) result

/-- The two accesses of one part of the conflicts, composed over the elements. -/
def conflictPart (part : ConflictPart) (first second : Option UnionMap) : Option UnionMap :=
  let first := fails.dependenceCall (.copyFirst part) first
  let second := fails.dependenceCall (.copySecond part) second
  let reversed := fails.dependenceCall (.reverse part) (second.map Isl.reverse)
  fails.dependenceCall (.applyRange part) (Option.map₂ Isl.applyRange first reversed)

/-- `getDependencies`, each call of which fails where the pattern says so or where
it is handed a null pointer. -/
def getDependencies : Option UnionMap :=
  let domain := fails.dependenceCall .readDomain (Isl.unionSetReadFromStr eqEq (domainStr F nest))
  let reads := fails.dependenceCall .readReads (Isl.unionMapReadFromStr eqEq (readStr F nest))
  let writes := fails.dependenceCall .readWrites (Isl.unionMapReadFromStr eqEq (writeStr F nest))
  if domain.isNone || reads.isNone || writes.isNone then none
  else
    let reads := fails.dependenceCall .intersectReads
      (Option.map₂ Isl.intersectDomain reads (fails.dependenceCall .copyDomainForReads domain))
    let writes := fails.dependenceCall .intersectWrites
      (Option.map₂ Isl.intersectDomain writes (fails.dependenceCall .copyDomainForWrites domain))
    let ww := fails.conflictPart .ww writes writes
    let wr := fails.conflictPart .wr writes reads
    let rw := fails.conflictPart .rw reads writes
    let inner := fails.dependenceCall .unionInner (Option.map₂ (· ∪ ·) ww wr)
    let conflicts := fails.dependenceCall .unionOuter (Option.map₂ (· ∪ ·) inner rw)
    let before :=
      fails.dependenceCall .readBefore (Isl.unionMapReadFromStr eqEq (beforeStr nest))
    fails.dependenceCall .intersectBefore (Isl.intersect conflicts before)

variable (deps : Option UnionMap)

/-- What the emptiness test of loop `k` reports. -/
noncomputable def report (k : Nat) : Bool3 :=
  let negativeDist := attempt (fails (.readNegativeDist k))
    (Isl.unionMapReadFromStr eqEq (negativeDistStr nest k))
  let violations := attempt (fails (.intersectNegativeDist k))
    (Isl.intersect (attempt (fails (.copyDeps k)) deps) negativeDist)
  if fails (.isEmpty k) then .error else Isl.unionMapIsEmpty violations

/-- `isTilingLegal` under a pattern of failures. -/
noncomputable def isTilingLegal : Bool :=
  if nest.depth < 2 || deps.isNone then false
  else (List.range nest.depth).all fun k => !(fails.report eqEq nest deps k).not

/-- A verdict that rests on a failed call leaves the nest alone. -/
structure FailSafe : Prop where
  dependences : (fails.getDependencies eqEq F nest).isSome = true →
    ∀ call, fails (.dependence call) = false
  legality : fails.isTilingLegal eqEq nest deps = true →
    deps.isSome = true ∧ ∀ k < nest.depth, fails.report eqEq nest deps k = .true

/-- The calls of one loop of the nest all succeed. -/
def Clean (k : Nat) : Prop :=
  fails (.copyDeps k) = false ∧ fails (.readNegativeDist k) = false ∧
    fails (.intersectNegativeDist k) = false ∧ fails (.isEmpty k) = false

/-- The calls of a loop succeed and there is a pair that violates it. -/
def SeesViolation (k : Nat) : Prop :=
  fails.Clean k ∧ ∃ relation, deps = some relation ∧
    ∃ x y, (x, y) ∈ relation ∧ Violates nest (nest.identifiers.getD k "") x y

/-- All loops are tested without a failure, or one of them shows a violation, or
the test is not reached. -/
def Unbroken : Prop :=
  nest.depth < 2 ∨ deps = none ∨
    (nest.identifiers.all wordReadable = true ∧ ∀ k < nest.depth, fails.Clean k) ∨
    ∃ k < nest.depth, fails.SeesViolation nest deps k

section NoFailure

/-- Without failures these are the functions of the pass. -/
theorem getDependencies_none :
    noFailures.getDependencies eqEq F nest = PolyhedralPass.getDependencies eqEq F nest := by
  simp only [getDependencies, conflictPart, dependenceCall, noFailures, attempt_false,
    PolyhedralPass.getDependencies]
  cases Isl.unionSetReadFromStr eqEq (domainStr F nest) with
  | none => simp
  | some domain =>
      cases Isl.unionMapReadFromStr eqEq (readStr F nest) with
      | none => simp
      | some reads =>
          cases Isl.unionMapReadFromStr eqEq (writeStr F nest) with
          | none => simp
          | some writes => simp

theorem isTilingLegal_none :
    noFailures.isTilingLegal eqEq nest deps = PolyhedralPass.isTilingLegal eqEq nest deps := by
  simp only [isTilingLegal, report, noFailures, attempt_false, PolyhedralPass.isTilingLegal]
  rfl

end NoFailure

variable {fails eqEq F nest deps}

section Dependences

theorem dependenceCall_isSome {α : Type} {call : DependenceCall} {result : Option α} :
    (fails.dependenceCall call result).isSome = true ↔
      fails (.dependence call) = false ∧ result.isSome = true :=
  attempt_isSome

theorem map₂_isSome {α β γ : Type} {f : α → β → γ} {a : Option α} {b : Option β} :
    (Option.map₂ f a b).isSome = true ↔ a.isSome = true ∧ b.isSome = true := by
  cases a <;> cases b <;> simp

theorem conflictPart_isSome {part : ConflictPart} {first second : Option UnionMap} :
    (fails.conflictPart part first second).isSome = true ↔
      (fails (.dependence (.applyRange part)) = false ∧
        (fails (.dependence (.copyFirst part)) = false ∧ first.isSome = true) ∧
        fails (.dependence (.reverse part)) = false ∧
        fails (.dependence (.copySecond part)) = false ∧ second.isSome = true) := by
  simp only [conflictPart, dependenceCall_isSome, map₂_isSome, Option.isSome_map]

theorem intersect_isSome {first second : Option UnionMap} :
    (Isl.intersect first second).isSome = true ↔ first.isSome = true ∧ second.isSome = true := by
  cases first <;> cases second <;> simp [Isl.intersect]

/-- A null pointer goes through every later call: a relation comes back only
where no call has failed. -/
theorem not_fails_of_getDependencies (h : (fails.getDependencies eqEq F nest).isSome = true)
    (call : DependenceCall) : fails (.dependence call) = false := by
  simp only [getDependencies] at h
  split_ifs at h with hread
  · exact absurd h (by simp)
  · simp only [Bool.or_eq_true, Option.isNone_iff_eq_none, not_or, ← Option.isSome_iff_ne_none,
      dependenceCall_isSome] at hread
    simp only [dependenceCall_isSome, intersect_isSome, map₂_isSome, conflictPart_isSome] at h
    cases call with
    | copyFirst part | copySecond part | reverse part | applyRange part =>
        cases part <;> simp only [h]
    | _ => simp only [h]

end Dependences

section Reports

variable {k : Nat}

theorem report_of_not_clean (h : ¬ fails.Clean k) : fails.report eqEq nest deps k = .error := by
  simp only [report]
  split_ifs with hempty
  · rfl
  · have hnull : attempt (fails (.intersectNegativeDist k)) (Isl.intersect
        (attempt (fails (.copyDeps k)) deps) (attempt (fails (.readNegativeDist k))
          (Isl.unionMapReadFromStr eqEq (negativeDistStr nest k)))) = none := by
      by_contra hne
      rw [← ne_eq, ← Option.isSome_iff_ne_none, attempt_isSome, intersect_isSome, attempt_isSome,
        attempt_isSome] at hne
      exact h ⟨hne.2.1.1, hne.2.2.1, hne.1, Bool.eq_false_iff.mpr hempty⟩
    rw [hnull]
    rfl

/-- Without a failure the report of a loop is the one of the pass. -/
theorem report_of_clean (h : fails.Clean k) : fails.report eqEq nest deps k =
    Isl.unionMapIsEmpty (Isl.intersect deps
      (Isl.unionMapReadFromStr eqEq (negativeDistStr nest k))) := by
  obtain ⟨hcopy, hread, hintersect, hempty⟩ := h
  simp only [report, hcopy, hread, hintersect, hempty, attempt_false, Bool.false_eq_true, if_false]

theorem isEmpty_ne_error {relation : UnionMap} :
    Isl.unionMapIsEmpty (some relation) ≠ .error := by
  simp only [Isl.unionMapIsEmpty]
  split_ifs <;> simp

theorem readable_negativeDistStr (hk : k < nest.depth) :
    (Isl.unionMapReadFromStr eqEq (negativeDistStr nest k)).isSome =
      nest.identifiers.all wordReadable := by
  have hk : k < nest.identifiers.length := by rwa [identifiers_length]
  rw [← pairScope_isSome]
  cases hscope : pairScope nest with
  | none => rw [unionMapReadFromStr_negativeDistStr_none eqEq hscope hk]; rfl
  | some scope =>
      obtain ⟨dom, ran, vars⟩ := scope
      obtain ⟨cond, hread, _⟩ := unionMapReadFromStr_negativeDistStr eqEq hscope hk
      rw [hread]
      rfl

/-- The test of a loop reports an error where one of its calls fails or where isl
cannot read its string. -/
theorem report_eq_error_iff {relation : UnionMap} (hk : k < nest.depth) :
    fails.report eqEq nest (some relation) k = .error ↔
      ¬ (fails.Clean k ∧ nest.identifiers.all wordReadable = true) := by
  by_cases hclean : fails.Clean k
  · have hreadable : (Isl.unionMapReadFromStr eqEq (negativeDistStr nest k)).isSome =
        nest.identifiers.all wordReadable := readable_negativeDistStr hk
    rw [report_of_clean hclean, ← hreadable]
    cases Isl.unionMapReadFromStr eqEq (negativeDistStr nest k) with
    | none => simp [Isl.unionMapIsEmpty]
    | some negativeDist => simp [Isl.intersect, isEmpty_ne_error, hclean]
  · simp [report_of_not_clean hclean, hclean]

/-- The test of a loop reports a violation where there is one that it sees. -/
theorem report_eq_false_iff {relation : UnionMap} (hk : k < nest.depth) :
    fails.report eqEq nest (some relation) k = .false ↔
      fails.SeesViolation nest (some relation) k := by
  have hk' : k < nest.identifiers.length := by rwa [identifiers_length]
  have hword : nest.identifiers.getD k "" = nest.identifiers[k] := by simp [hk']
  by_cases hclean : fails.Clean k
  · have htest : ∀ b : Bool3, b = .false ↔ ¬ b.not = false := by
      intro b
      cases b <;> simp [Bool3.not]
    rw [report_of_clean hclean, htest, dimensionLegal_iff eqEq relation hk', SeesViolation, hword]
    simp [hclean]
  · simp [report_of_not_clean hclean, SeesViolation, hclean]

end Reports

/-- The negation of a report is false where the report is not `isl_bool_false`,
so an error counts as a success. -/
theorem isTilingLegal_iff {relation : UnionMap} (hdepth : 2 ≤ nest.depth) :
    fails.isTilingLegal eqEq nest (some relation) = true ↔
      ∀ k < nest.depth, fails.report eqEq nest (some relation) k ≠ .false := by
  have hnot : ∀ b : Bool3, b.not = false ↔ b ≠ .false := by
    intro b
    cases b <;> simp [Bool3.not]
  simp [isTilingLegal, Nat.not_lt.mpr hdepth, hnot]

/-- The verdict is fail-safe exactly where no failure is taken for a success. -/
theorem failSafe_iff (fails : Failures) (eqEq : Bool) (F : Function) (nest : LoopNestDescriptor)
    (deps : Option UnionMap) : fails.FailSafe eqEq F nest deps ↔ fails.Unbroken nest deps := by
  have hsafe : fails.FailSafe eqEq F nest deps ↔ (fails.isTilingLegal eqEq nest deps = true →
      deps.isSome = true ∧ ∀ k < nest.depth, fails.report eqEq nest deps k = .true) :=
    ⟨fun h => h.legality, fun h => ⟨not_fails_of_getDependencies, h⟩⟩
  rw [hsafe, Unbroken]
  by_cases hdepth : nest.depth < 2
  · simp [isTilingLegal, hdepth]
  cases deps with
  | none => simp [isTilingLegal]
  | some relation =>
      rw [isTilingLegal_iff (not_lt.mp hdepth)]
      simp only [hdepth, Option.isSome_some, true_and, false_or, reduceCtorEq]
      constructor
      · intro h
        by_cases hall : ∀ k < nest.depth, fails.report eqEq nest (some relation) k ≠ .false
        · left
          have hclean : ∀ k < nest.depth,
              fails.Clean k ∧ nest.identifiers.all wordReadable = true := by
            intro k hk
            have hreport := h hall k hk
            by_contra hbroken
            rw [(report_eq_error_iff hk).mpr hbroken] at hreport
            exact absurd hreport (by simp)
          exact ⟨(hclean 0 (by omega)).2, fun k hk => (hclean k hk).1⟩
        · right
          push Not at hall
          obtain ⟨k, hk, hreport⟩ := hall
          exact ⟨k, hk, (report_eq_false_iff hk).mp hreport⟩
      · rintro (⟨hreadable, hclean⟩ | ⟨k, hk, hsees⟩) hall k' hk'
        · cases hreport : fails.report eqEq nest (some relation) k' with
          | error => exact absurd ⟨hclean k' hk', hreadable⟩ ((report_eq_error_iff hk').mp hreport)
          | false => exact absurd hreport (hall k' hk')
          | true => rfl
        · exact absurd ((report_eq_false_iff hk).mpr hsees) (hall k hk)

/-- The intersection for the second loop fails, and a pair that violates it is
taken to be none. -/
theorem not_failSafe : ¬ ∀ (fails : Failures) (eqEq : Bool) (F : Function)
    (nest : LoopNestDescriptor) (deps : Option UnionMap), fails.FailSafe eqEq F nest deps := by
  intro hall
  let fails : Failures := fun call => call == .intersectNegativeDist 1
  let source : Point := ⟨"Stmt", [0, 1]⟩
  let target : Point := ⟨"Stmt", [1, 0]⟩
  have hbroken : ¬ fails.Clean 1 := fun h => absurd h.2.2.1 (by decide)
  have hlegal : fails.isTilingLegal false exampleNest (some {(source, target)}) = true := by
    rw [isTilingLegal_iff (by decide)]
    intro k hk hfalse
    obtain ⟨_, relation, hrelation, x, y, hmem, hviolates⟩ := (report_eq_false_iff hk).mp hfalse
    obtain rfl := Option.some.inj hrelation
    obtain ⟨rfl, rfl⟩ := Prod.mk.inj (Set.mem_singleton_iff.mp hmem)
    have hlt : k < 2 := hk
    obtain rfl | rfl : k = 0 ∨ k = 1 := by omega
    · obtain ⟨_, _, a, b, ha, hb, hlt⟩ := (exampleNest_box.toNamesDistinct.violates_iff
        rfl rfl (show 0 < exampleNest.identifiers.length by decide)).mp hviolates
      obtain rfl : 0 = a := Option.some.inj ha
      obtain rfl : 1 = b := Option.some.inj hb
      exact absurd hlt (by decide)
    · rw [report_of_not_clean hbroken] at hfalse
      exact absurd hfalse (by simp)
  have hreport := ((hall fails false exampleFunction exampleNest _).legality hlegal).2 1 (by decide)
  rw [report_of_not_clean hbroken] at hreport
  exact absurd hreport (by simp)

end Failures

end PolyhedralPass
