/-
What the legality test decides: that the nest is fully permutable.  Its loops can be
put into any order, and all of them blocked, exactly when it accepts the nest.
-/
import PolyhedralPass.Legality
import PolyhedralPass.Schedule.Permuted
import Mathlib.Data.List.Lex

namespace PolyhedralPass

open Isl Schedule

section Conflicts

variable (nest : LoopNestDescriptor)

/-- Two iterations touch a common array element, one of them in a store. -/
def LoopNestDescriptor.Conflict (x y : List Int) : Prop :=
  ∃ a ∈ nest.accesses, ∃ b ∈ nest.accesses,
    (a.accessKind = .store ∨ b.accessKind = .store) ∧
    sanitizeISLName a.baseName = sanitizeISLName b.baseName ∧ nest.cell a x = nest.cell b y

/-- Of two conflicting iterations one is below the other in every dimension. -/
def LoopNestDescriptor.Comparable : Prop :=
  ∀ x ∈ nest.box, ∀ y ∈ nest.box, nest.Conflict x y →
    List.Forall₂ (· ≤ ·) x y ∨ List.Forall₂ (· ≤ ·) y x

/-- The verdict of the pass on a nest. -/
noncomputable def tilingVerdict (F : Function) (nest : LoopNestDescriptor) : Bool :=
  isTilingLegal true nest (getDependencies true F nest)

variable {nest}

theorem LoopNestDescriptor.Conflict.symm {x y : List Int} (h : nest.Conflict x y) :
    nest.Conflict y x := by
  obtain ⟨a, ha, b, hb, hkind, hname, hcell⟩ := h
  exact ⟨b, hb, a, ha, hkind.symm, hname.symm, hcell.symm⟩

theorem mem_dependences_iff {x y : List Int} : (x, y) ∈ nest.dependences ↔
    x ∈ nest.box ∧ y ∈ nest.box ∧ List.Lex (· < ·) x y ∧ nest.Conflict x y := Iff.rfl

variable {F : Function}

/-- The test accepts a nest whose dependences all go forward in every dimension. -/
theorem tilingVerdict_iff_forward (hbox : nest.Box F) : tilingVerdict F nest = true ↔
    ∀ x y, (x, y) ∈ nest.dependences → List.Forall₂ (· ≤ ·) x y := by
  obtain ⟨deps, hdeps⟩ := Option.isSome_iff_exists.mp hbox.getDependencies_isSome
  rw [tilingVerdict, hdeps]
  constructor
  · intro hlegal x y hdep
    have hx := nest.length_of_mem_box hdep.1
    have hy := nest.length_of_mem_box hdep.2.1
    exact hbox.forward_of_legal hbox.depth_ge hlegal (x := ⟨"Stmt", x⟩) (y := ⟨"Stmt", y⟩) rfl rfl
      hx hy ((hbox.mem_getDependencies hdeps _ _).mpr ⟨rfl, rfl, hdep⟩)
  · intro hforward
    rw [isTilingLegal_iff true hbox.depth_ge]
    intro word hword x y hdep hviolates
    obtain ⟨_, _, hdep⟩ := (hbox.mem_getDependencies hdeps x y).mp hdep
    obtain ⟨k, hk, rfl⟩ := List.getElem_of_mem hword
    have hx := nest.length_of_mem_box hdep.1
    have hy := nest.length_of_mem_box hdep.2.1
    obtain ⟨_, _, a, b, ha, hb, hlt⟩ := (hbox.violates_iff hx hy hk).mp hviolates
    exact absurd ((forall₂_iff_getElem?.mp (hforward _ _ hdep)).2 k a b ha hb) (by omega)

/-- Which of two conflicting iterations comes first has no part in the verdict. -/
theorem tilingVerdict_iff_comparable (hbox : nest.Box F) :
    tilingVerdict F nest = true ↔ nest.Comparable := by
  rw [tilingVerdict_iff_forward hbox]
  constructor
  · intro hforward x hx y hy hconflict
    rcases lt_trichotomy x y with hlex | rfl | hlex
    · exact Or.inl (hforward x y ⟨hx, hy, hlex, hconflict⟩)
    · exact Or.inl (List.forall₂_same.mpr fun v _ => le_refl v)
    · exact Or.inr (hforward y x ⟨hy, hx, hlex, hconflict.symm⟩)
  · intro hcomparable x y hdep
    obtain ⟨hx, hy, hlex, hconflict⟩ := mem_dependences_iff.mp hdep
    exact (hcomparable x hx y hy hconflict).resolve_right (not_le_of_lex hlex)

end Conflicts

/-- The element `A[i][j + c]` of an iteration. -/
def rowElement (c : Int) (x : List Int) : String × List Int :=
  ("A", [x.getD 0 0, c + x.getD 1 0])

/-- The subscripts of the load and the store of `A[i][j] = A[i][j - 1]`. -/
theorem exampleNest_cell {access : MemoryAccess} (haccess : access ∈ exampleNest.accesses)
    (x : List Int) : (sanitizeISLName access.baseName, exampleNest.cell access x) =
      rowElement (if access.accessKind = .load then -1 else 0) x := by
  have hi : exampleNest.valuation x 1 = x.getD 0 0 := rfl
  have hj : exampleNest.valuation x 2 = x.getD 1 0 := rfl
  simp only [exampleNest, List.mem_cons, List.not_mem_nil, or_false] at haccess
  rcases haccess with rfl | rfl <;>
    simp [LoopNestDescriptor.cell, MemoryAccess.printedSubscripts, AffineExpr.eval,
      AffineTerm.eval, hi, hj, rowElement] <;> rfl

/-- The dependences of `A[i][j] = A[i][j - 1]` stay in one row. -/
theorem exampleNest_comparable : exampleNest.Comparable := by
  intro x hx y hy hconflict
  obtain ⟨u, v, rfl⟩ : ∃ u v, x = [u, v] :=
    List.length_eq_two.mp (exampleNest.length_of_mem_box hx)
  obtain ⟨u', v', rfl⟩ : ∃ u v, y = [u, v] :=
    List.length_eq_two.mp (exampleNest.length_of_mem_box hy)
  obtain ⟨a, ha, b, hb, _, hname, hcell⟩ := hconflict
  have hsame : (sanitizeISLName a.baseName, exampleNest.cell a [u, v]) =
      (sanitizeISLName b.baseName, exampleNest.cell b [u', v']) := Prod.ext hname hcell
  rw [exampleNest_cell ha, exampleNest_cell hb] at hsame
  obtain rfl : u = u' := (List.cons.inj (Prod.mk.inj hsame).2).1
  simp only [List.forall₂_cons, List.forall₂_nil_left_iff, and_true, le_refl, true_and]
  exact le_total v v'

theorem exampleNest_legal : isTilingLegal true exampleNest
    (getDependencies true exampleFunction exampleNest) = true :=
  (tilingVerdict_iff_comparable exampleNest_box).mpr exampleNest_comparable

/-- The test accepts a nest exactly when every order of its loops executes every dependence
forward. -/
theorem isTilingLegal_iff_permutable (F : Function) (nest : LoopNestDescriptor)
    (hbox : nest.Box F) : isTilingLegal true nest (getDependencies true F nest) = true ↔
      ∀ order, IsOrder nest.depth order → ∀ x y, (x, y) ∈ nest.dependences →
        List.Lex (· < ·) (permuted order x) (permuted order y) := by
  have hne : ∀ {x y}, (x, y) ∈ nest.dependences → x ≠ y := by
    rintro x y hdep rfl
    exact lex_asymm x x hdep.2.2.1 hdep.2.2.1
  have hverdict := tilingVerdict_iff_forward hbox
  rw [tilingVerdict] at hverdict
  rw [hverdict]
  constructor
  · intro hforward order horder x y hdep
    rw [← nest.length_of_mem_box hdep.1] at horder
    exact lex_permuted_of_le (hforward x y hdep) (hne hdep) horder
  · intro hlex x y hdep
    have hx := nest.length_of_mem_box hdep.1
    have hy := nest.length_of_mem_box hdep.2.1
    apply le_of_lex_permuted (hx.trans hy.symm)
    intro order horder
    rw [hx] at horder
    exact hlex order horder x y hdep

theorem exampleNest_permutable :
    isTilingLegal true exampleNest (getDependencies true exampleFunction exampleNest) = true ∧
      ∀ order, IsOrder exampleNest.depth order → ∀ x y, (x, y) ∈ exampleNest.dependences →
        List.Lex (· < ·) (permuted order x) (permuted order y) :=
  ⟨exampleNest_legal, (isTilingLegal_iff_permutable exampleFunction exampleNest exampleNest_box).mp
    exampleNest_legal⟩

section Reordered

/-- The loops of a nest in another order, around the same accesses. -/
def LoopNestDescriptor.reordered (nest : LoopNestDescriptor) (order : List Nat) :
    LoopNestDescriptor := { nest with loops := permuted order nest.loops }

variable {F : Function} {nest : LoopNestDescriptor} {order : List Nat}
  (horder : IsOrder nest.depth order)
include horder

theorem mem_loops_reordered {loop : LoopDescriptor} :
    loop ∈ (nest.reordered order).loops ↔ loop ∈ nest.loops :=
  (IsOrder.permuted_perm horder).mem_iff

theorem LoopNestDescriptor.Box.reordered (hbox : nest.Box F) : (nest.reordered order).Box F := by
  have hperm : (nest.reordered order).loops.Perm nest.loops := IsOrder.permuted_perm horder
  have hids : (nest.reordered order).identifiers.Perm nest.identifiers := hperm.map _
  have hprimed : (nest.reordered order).primed.Perm nest.primed := hids.map _
  constructor
  · constructor
    · exact hbox.depth_ge.trans_eq hperm.length_eq.symm
    · exact fun loop hloop => hbox.inductionName loop (hperm.mem_iff.mp hloop)
    · exact fun loop hloop => hbox.lower_constant loop (hperm.mem_iff.mp hloop)
    · exact fun loop hloop => hbox.upper_hasSymbols loop (hperm.mem_iff.mp hloop)
    · exact hbox.subscript_hasSymbols
  · constructor
    · exact (hids.append hprimed).nodup_iff.mpr hbox.identifiers_nodup
    · exact fun word hword => hbox.identifiers_word word (hids.mem_iff.mp hword)
  · exact fun loop hloop => hbox.upper_constant loop (hperm.mem_iff.mp hloop)
  · intro access haccess expr hexpr term hterm
    obtain ⟨hzero, hmin, loop, hloop, hsymbol⟩ :=
      hbox.subscript_affine access haccess expr hexpr term hterm
    exact ⟨hzero, hmin, loop, hperm.mem_iff.mpr hloop, hsymbol⟩

theorem mem_box_reordered {x : List Int} (hx : x.length = nest.depth) :
    permuted order x ∈ (nest.reordered order).box ↔ x ∈ nest.box :=
  forall₂_permuted_iff horder hx.symm

omit horder in
theorem valuation_eq_zero {x : List Int} (hx : x.length = nest.depth) {value : Value}
    (h : ∀ loop ∈ nest.loops, loop.induction ≠ value) : nest.valuation x value = 0 := by
  have hfind : nest.loops.findIdx (·.induction == value) = nest.loops.length :=
    List.findIdx_eq_length.mpr fun loop hloop => beq_eq_false_iff_ne.mpr (h loop hloop)
  rw [LoopNestDescriptor.valuation, hfind, List.getD_eq_getElem?_getD,
    List.getElem?_eq_none (show x.length ≤ nest.loops.length from le_of_eq hx)]
  rfl

/-- An induction variable has the same value at an iteration in either order. -/
theorem valuation_reordered (hbox : nest.Box F) {x : List Int} (hx : x.length = nest.depth)
    (value : Value) :
    (nest.reordered order).valuation (permuted order x) value = nest.valuation x value := by
  have hx' : IsOrder x.length order := hx ▸ horder
  have hdepth : (nest.reordered order).depth = nest.depth := IsOrder.length_permuted horder
  have hlength : (permuted order x).length = (nest.reordered order).depth := by
    rw [hx'.length_permuted, hx, hdepth]
  by_cases hvalue : ∃ loop ∈ nest.loops, loop.induction = value
  · obtain ⟨loop, hloop, rfl⟩ := hvalue
    obtain ⟨i, hi, rfl⟩ := List.getElem_of_mem hloop
    -- loop `i` stands in place `j` of the order
    have hloops : (nest.reordered order).loops[order.idxOf i]? = some nest.loops[i] := by
      rw [LoopNestDescriptor.reordered, IsOrder.getElem?_permuted horder, horder.getElem?_idxOf hi,
        Option.bind_some, List.getElem?_eq_getElem hi]
    have hcoords : (permuted order x)[order.idxOf i]? = x[i]? := by
      rw [hx'.getElem?_permuted, horder.getElem?_idxOf hi, Option.bind_some]
    obtain ⟨hj, hloop'⟩ := List.getElem?_eq_some_iff.mp hloops
    have hxi : i < x.length := by rw [hx]; exact hi
    have hxj : order.idxOf i < (permuted order x).length := by rw [hlength]; exact hj
    have hreordered := (hbox.reordered horder).valuation_induction hj hxj
    rw [hloop'] at hreordered
    rw [hreordered, hbox.valuation_induction hi hxi]
    rwa [List.getElem?_eq_getElem hxj, List.getElem?_eq_getElem hxi, Option.some.injEq] at hcoords
  · have hnone : ∀ loop ∈ nest.loops, loop.induction ≠ value :=
      fun loop hloop heq => hvalue ⟨loop, hloop, heq⟩
    rw [valuation_eq_zero hx hnone, valuation_eq_zero hlength]
    exact fun loop hloop => hnone loop ((mem_loops_reordered horder).mp hloop)

theorem conflict_reordered (hbox : nest.Box F) {x y : List Int} (hx : x.length = nest.depth)
    (hy : y.length = nest.depth) :
    (nest.reordered order).Conflict (permuted order x) (permuted order y) ↔ nest.Conflict x y := by
  have hcell : ∀ (access : MemoryAccess) {x : List Int}, x.length = nest.depth →
      (nest.reordered order).cell access (permuted order x) = nest.cell access x := by
    intro access x hx
    have hvaluation : (nest.reordered order).valuation (permuted order x) = nest.valuation x :=
      funext fun value => valuation_reordered horder hbox hx value
    rw [LoopNestDescriptor.cell, LoopNestDescriptor.cell, hvaluation]
  simp only [LoopNestDescriptor.Conflict, hcell _ hx, hcell _ hy]
  rfl

theorem comparable_reordered (hbox : nest.Box F) :
    (nest.reordered order).Comparable ↔ nest.Comparable := by
  have hdepth : (nest.reordered order).depth = nest.depth := IsOrder.length_permuted horder
  constructor
  · intro hcomparable x hx y hy hconflict
    have hxl := nest.length_of_mem_box hx
    have hyl := nest.length_of_mem_box hy
    have hx' : IsOrder x.length order := hxl ▸ horder
    have hy' : IsOrder y.length order := hyl ▸ horder
    have hle := hcomparable _ ((mem_box_reordered horder hxl).mpr hx) _
      ((mem_box_reordered horder hyl).mpr hy)
      ((conflict_reordered horder hbox hxl hyl).mpr hconflict)
    rwa [forall₂_permuted_iff hx' (hxl.trans hyl.symm),
      forall₂_permuted_iff hy' (hyl.trans hxl.symm)] at hle
  · intro hcomparable x hx y hy hconflict
    have hxl : x.length = nest.depth := (LoopNestDescriptor.length_of_mem_box hx).trans hdepth
    have hyl : y.length = nest.depth := (LoopNestDescriptor.length_of_mem_box hy).trans hdepth
    have hx' : IsOrder x.length order := hxl ▸ horder
    have hy' : IsOrder y.length order := hyl ▸ horder
    -- every iteration of the reordered nest is one of the nest in the new order
    have hxi := hx'.inverse.length_permuted.trans hxl
    have hyi := hy'.inverse.length_permuted.trans hyl
    rw [← hx'.permuted_permuted_inverse] at hx hconflict ⊢
    rw [← hy'.permuted_permuted_inverse] at hy hconflict ⊢
    have hxo : IsOrder (permuted (inverse order) x).length order := hxi ▸ horder
    have hyo : IsOrder (permuted (inverse order) y).length order := hyi ▸ horder
    rw [forall₂_permuted_iff hxo (hxi.trans hyi.symm),
      forall₂_permuted_iff hyo (hyi.trans hxi.symm)]
    exact hcomparable _ ((mem_box_reordered horder hxi).mp hx) _
      ((mem_box_reordered horder hyi).mp hy) ((conflict_reordered horder hbox hxi hyi).mp hconflict)

end Reordered

/-- The verdict on a nest does not depend on the order of its loops. -/
theorem isTilingLegal_reordered (F : Function) (nest : LoopNestDescriptor) (order : List Nat)
    (hbox : nest.Box F) (horder : IsOrder nest.depth order) :
    isTilingLegal true (nest.reordered order) (getDependencies true F (nest.reordered order)) =
      isTilingLegal true nest (getDependencies true F nest) := by
  rw [Bool.eq_iff_iff]
  exact (tilingVerdict_iff_comparable (hbox.reordered horder)).trans
    ((comparable_reordered horder hbox).trans (tilingVerdict_iff_comparable hbox).symm)

theorem exampleNest_reordered :
    isTilingLegal true (exampleNest.reordered [1, 0])
        (getDependencies true exampleFunction (exampleNest.reordered [1, 0])) =
      isTilingLegal true exampleNest (getDependencies true exampleFunction exampleNest) :=
  isTilingLegal_reordered exampleFunction exampleNest [1, 0] exampleNest_box
    (List.Perm.swap 0 1 [])

section Narrowed

variable {F : Function} {nest nest' : LoopNestDescriptor}

/-- A nest over the same induction variables with fewer iterations and fewer accesses. -/
structure LoopNestDescriptor.Narrows (nest' nest : LoopNestDescriptor) : Prop where
  inductions : nest'.loops.map LoopDescriptor.induction = nest.loops.map LoopDescriptor.induction
  bounds : List.Forall₂ (fun loop' loop : LoopDescriptor =>
    loop.bounds.lower.constant.toInt ≤ loop'.bounds.lower.constant.toInt ∧
      loop'.bounds.upper.constant.toInt ≤ loop.bounds.upper.constant.toInt) nest'.loops nest.loops
  accesses : nest'.accesses ⊆ nest.accesses

theorem LoopNestDescriptor.Narrows.mem_box (h : nest'.Narrows nest) {x : List Int}
    (hx : x ∈ nest'.box) : x ∈ nest.box := by
  obtain ⟨hlength, hbounds⟩ := forall₂_iff_getElem?.mp h.bounds
  obtain ⟨hlength', hx⟩ := forall₂_iff_getElem?.mp hx
  refine forall₂_iff_getElem?.mpr ⟨hlength.symm.trans hlength', ?_⟩
  intro k loop v hloop hv
  have hk : k < nest'.loops.length := by
    rw [hlength]
    exact (List.getElem?_eq_some_iff.mp hloop).1
  have hloop' := List.getElem?_eq_getElem hk
  obtain ⟨hlower, hupper⟩ := hbounds k _ loop hloop' hloop
  obtain ⟨hle, hlt⟩ := hx k _ v hloop' hv
  exact ⟨hlower.trans hle, hlt.trans_le hupper⟩

theorem valuation_congr
    (h : nest'.loops.map LoopDescriptor.induction = nest.loops.map LoopDescriptor.induction)
    (x : List Int) : nest'.valuation x = nest.valuation x := by
  funext value
  have hfind : ∀ loops : List LoopDescriptor, loops.findIdx (·.induction == value) =
      (loops.map LoopDescriptor.induction).findIdx (· == value) := by
    intro loops
    rw [List.findIdx_map]
    rfl
  rw [LoopNestDescriptor.valuation, LoopNestDescriptor.valuation, hfind, hfind, h]

end Narrowed

/-- A legal nest stays legal when bounds shrink and accesses disappear. -/
theorem isTilingLegal_narrowed (F : Function) (nest nest' : LoopNestDescriptor)
    (hbox : nest.Box F) (hbox' : nest'.Box F) (h : nest'.Narrows nest)
    (hlegal : isTilingLegal true nest (getDependencies true F nest) = true) :
    isTilingLegal true nest' (getDependencies true F nest') = true := by
  refine (tilingVerdict_iff_comparable hbox').mpr fun x hx y hy hconflict => ?_
  obtain ⟨a, ha, b, hb, hkind, hname, hcell⟩ := hconflict
  refine (tilingVerdict_iff_comparable hbox).mp hlegal x (h.mem_box hx) y (h.mem_box hy)
    ⟨a, h.accesses ha, b, h.accesses hb, hkind, hname, ?_⟩
  simpa only [LoopNestDescriptor.cell, valuation_congr h.inductions] using hcell

/-- Half of the rows of the example, and only its store. -/
def halfNest : LoopNestDescriptor where
  loops := [exampleLoop 1 "i" 4, exampleLoop 2 "j" 8]
  accesses := exampleNest.accesses.drop 1

theorem halfNest_box : halfNest.Box exampleFunction := by
  decide

theorem halfNest_narrows : halfNest.Narrows exampleNest where
  inductions := rfl
  bounds := List.Forall₂.cons (by decide) (List.Forall₂.cons (by decide) List.Forall₂.nil)
  accesses := List.drop_subset 1 exampleNest.accesses

theorem halfNest_legal : isTilingLegal true halfNest
    (getDependencies true exampleFunction halfNest) = true :=
  isTilingLegal_narrowed exampleFunction exampleNest halfNest exampleNest_box halfNest_box
    halfNest_narrows exampleNest_legal

section Renamed

variable {nest : LoopNestDescriptor} {name : LoopDescriptor → String} {base : MemoryAccess → String}

/-- The nest with other names for its loops and its arrays. -/
def LoopNestDescriptor.renamed (nest : LoopNestDescriptor) (name : LoopDescriptor → String)
    (base : MemoryAccess → String) : LoopNestDescriptor where
  loops := nest.loops.map fun loop => { loop with inductionName := name loop }
  accesses := nest.accesses.map fun access => { access with baseName := base access }

theorem mem_box_renamed {x : List Int} : x ∈ (nest.renamed name base).box ↔ x ∈ nest.box :=
  List.forall₂_map_left_iff

theorem cell_renamed (access : MemoryAccess) (x : List Int) :
    (nest.renamed name base).cell { access with baseName := base access } x =
      nest.cell access x := by
  have hinductions : (nest.renamed name base).loops.map LoopDescriptor.induction =
      nest.loops.map LoopDescriptor.induction := by
    rw [LoopNestDescriptor.renamed, List.map_map]
    rfl
  rw [LoopNestDescriptor.cell, valuation_congr hinductions, LoopNestDescriptor.cell]
  rfl

/-- Conflicts depend on which arrays have one name, and not on the names. -/
theorem conflict_renamed (hbase : ∀ a ∈ nest.accesses, ∀ b ∈ nest.accesses,
      (sanitizeISLName (base a) = sanitizeISLName (base b) ↔
        sanitizeISLName a.baseName = sanitizeISLName b.baseName)) {x y : List Int} :
    (nest.renamed name base).Conflict x y ↔ nest.Conflict x y := by
  constructor
  · rintro ⟨_, ha, _, hb, hkind, hname, hcell⟩
    obtain ⟨a, ha', rfl⟩ := List.mem_map.mp ha
    obtain ⟨b, hb', rfl⟩ := List.mem_map.mp hb
    rw [cell_renamed, cell_renamed] at hcell
    exact ⟨a, ha', b, hb', hkind, (hbase a ha' b hb').mp hname, hcell⟩
  · rintro ⟨a, ha, b, hb, hkind, hname, hcell⟩
    refine ⟨_, List.mem_map_of_mem ha, _, List.mem_map_of_mem hb, hkind,
      (hbase a ha b hb).mpr hname, ?_⟩
    rw [cell_renamed, cell_renamed, hcell]

end Renamed

/-- Names have no part in the verdict as long as isl can read them and they tell the same
arrays apart. -/
theorem isTilingLegal_renamed (F F' : Function) (nest : LoopNestDescriptor)
    (name : LoopDescriptor → String) (base : MemoryAccess → String) (hbox : nest.Box F)
    (hbox' : (nest.renamed name base).Box F')
    (hbase : ∀ a ∈ nest.accesses, ∀ b ∈ nest.accesses,
      (sanitizeISLName (base a) = sanitizeISLName (base b) ↔
        sanitizeISLName a.baseName = sanitizeISLName b.baseName)) :
    isTilingLegal true (nest.renamed name base)
        (getDependencies true F' (nest.renamed name base)) =
      isTilingLegal true nest (getDependencies true F nest) := by
  have hcomparable : (nest.renamed name base).Comparable ↔ nest.Comparable := by
    unfold LoopNestDescriptor.Comparable
    simp only [mem_box_renamed, conflict_renamed hbase]
  exact Bool.eq_iff_iff.mpr ((tilingVerdict_iff_comparable hbox').trans
    (hcomparable.trans (tilingVerdict_iff_comparable hbox).symm))

/-- The function with names that isl has to be given in another form. -/
def dottedFunction : Function :=
  { exampleFunction with
    name := fun value => [(1, "i.0"), (2, "j.interchanged"), (3, "A")].lookup value }

def dottedName (loop : LoopDescriptor) : String :=
  dottedFunction.valueNameOrFallback (some loop.induction) "iv"

theorem dottedNest_box : (exampleNest.renamed dottedName fun _ => "B.addr").Box dottedFunction := by
  decide

theorem dottedNest_legal :
    isTilingLegal true (exampleNest.renamed dottedName fun _ => "B.addr")
        (getDependencies true dottedFunction (exampleNest.renamed dottedName fun _ => "B.addr")) =
      isTilingLegal true exampleNest (getDependencies true exampleFunction exampleNest) :=
  isTilingLegal_renamed exampleFunction dottedFunction exampleNest dottedName (fun _ => "B.addr")
    exampleNest_box dottedNest_box (by decide)

section Execution

/-- The array elements an iteration touches with its accesses of one kind. -/
def LoopNestDescriptor.touched (nest : LoopNestDescriptor) (kind : AccessKind) (x : List Int) :
    Set (String × List Int) :=
  { cell | ∃ a ∈ nest.accesses, a.accessKind = kind ∧
    cell = (sanitizeISLName a.baseName, nest.cell a x) }

/-- The exclusive upper bounds of the loops. -/
def LoopNestDescriptor.uppers (nest : LoopNestDescriptor) : List Int :=
  nest.loops.map fun loop => loop.bounds.upper.constant.toInt

/-- A body that reads what the loads of a nest touch and writes what its stores touch. -/
structure NestBody (nest : LoopNestDescriptor) (ν : Type) extends
    Effects (List Int) (String × List Int) ν where
  reads_eq : ∀ x, reads x = nest.touched .load x
  writes_eq : ∀ x, writes x = nest.touched .store x

variable {F : Function} {nest : LoopNestDescriptor} {ν : Type}

theorem NestBody.conflict (body : NestBody nest ν) {x y : List Int} (h : body.Conflicts x y) :
    nest.Conflict x y := by
  obtain ⟨cell, h⟩ := h
  simp only [body.reads_eq, body.writes_eq] at h
  obtain ⟨⟨a, ha, hkind, rfl⟩, ⟨b, hb, _, heq⟩⟩ | ⟨⟨a, ha, hkind, rfl⟩, ⟨b, hb, _, heq⟩⟩ |
    ⟨⟨a, ha, _, rfl⟩, ⟨b, hb, hkind, heq⟩⟩ := h
  · exact ⟨a, ha, b, hb, Or.inl hkind, (Prod.mk.inj heq).1, (Prod.mk.inj heq).2⟩
  · exact ⟨a, ha, b, hb, Or.inl hkind, (Prod.mk.inj heq).1, (Prod.mk.inj heq).2⟩
  · exact ⟨a, ha, b, hb, Or.inr hkind, (Prod.mk.inj heq).1, (Prod.mk.inj heq).2⟩

theorem inBox_uppers (hlower : ∀ loop ∈ nest.loops, loop.bounds.lower = .ofConstant 0)
    {x : List Int} : InBox nest.uppers x ↔ x ∈ nest.box := by
  have hzero : ∀ loop ∈ nest.loops, loop.bounds.lower.constant.toInt = 0 := by
    intro loop hloop
    rw [hlower loop hloop]
    rfl
  rw [InBox, LoopNestDescriptor.uppers, List.forall₂_map_left_iff]
  have hiff : List.Forall₂ (fun (loop : LoopDescriptor) v => 0 ≤ v ∧
      v < loop.bounds.upper.constant.toInt) nest.loops x ↔
      List.Forall₂ (fun (loop : LoopDescriptor) v => loop.bounds.lower.constant.toInt ≤ v ∧
        v < loop.bounds.upper.constant.toInt) nest.loops x := by
    simp only [forall₂_iff_getElem?]
    refine and_congr_right fun _ => forall_congr' fun k => forall_congr' fun loop =>
      forall_congr' fun v => imp_congr_right fun hloop => ?_
    rw [hzero loop (List.mem_of_getElem? hloop)]
  exact hiff

/-- The loops of a nest that the test accepts can be put into any order and all of them
blocked, with any block size: every iteration is executed once, and the memory is the same. -/
theorem run_reorderedPoints (F : Function) (nest : LoopNestDescriptor) (hbox : nest.Box F)
    (hlower : ∀ loop ∈ nest.loops, loop.bounds.lower = .ofConstant 0)
    (hlegal : isTilingLegal true nest (getDependencies true F nest) = true) (ν : Type)
    (body : NestBody nest ν) (order : List Nat) (horder : IsOrder nest.depth order) (size : Int)
    (hsize : 1 ≤ size) :
    (boxPoints nest.uppers).Nodup ∧
      (boxPoints nest.uppers).Perm (reorderedPoints size order nest.uppers) ∧
      ∀ memory, Schedule.run body.step (reorderedPoints size order nest.uppers) memory =
        Schedule.run body.step (boxPoints nest.uppers) memory := by
  have horder' : IsOrder nest.uppers.length order := by
    rw [LoopNestDescriptor.uppers, List.length_map]
    exact horder
  have hperm := perm_reorderedPoints horder' (show 0 < size by omega)
  refine ⟨nodup_boxPoints _, hperm, run_of_pairwise_not_le hperm
    (pairwise_reorderedPoints horder' (by omega)) ?_⟩
  intro x y hx hy hlex hconflict
  rw [inBox_uppers hlower] at hx hy
  exact (tilingVerdict_iff_forward hbox).mp hlegal x y ⟨hx, hy, hlex, body.conflict hconflict⟩

theorem exampleNest_touched (kind : AccessKind) (x : List Int) :
    exampleNest.touched kind x = {rowElement (if kind = .load then -1 else 0) x} := by
  have hexists : ∃ a ∈ exampleNest.accesses, a.accessKind = kind := by
    cases kind <;> decide
  ext cell
  constructor
  · rintro ⟨a, ha, rfl, rfl⟩
    exact exampleNest_cell ha x
  · rintro rfl
    obtain ⟨a, ha, rfl⟩ := hexists
    exact ⟨a, ha, rfl, (exampleNest_cell ha x).symm⟩

/-- The statement `A[i][j] = A[i][j - 1]`. -/
def exampleBody : NestBody exampleNest Int where
  reads x := {rowElement (-1) x}
  writes x := {rowElement 0 x}
  step x memory := Function.update memory (rowElement 0 x) (memory (rowElement (-1) x))
  step_frame x memory cell hcell := Function.update_of_ne hcell _ _
  step_congr x memory memory' hreads cell hcell := by
    obtain rfl := Set.mem_singleton_iff.mp hcell
    simpa using hreads _ rfl
  reads_eq x := (exampleNest_touched .load x).symm
  writes_eq x := (exampleNest_touched .store x).symm

theorem exampleNest_run_reorderedPoints :
    (boxPoints exampleNest.uppers).Nodup ∧
      (boxPoints exampleNest.uppers).Perm (reorderedPoints 3 [1, 0] exampleNest.uppers) ∧
      ∀ memory, Schedule.run exampleBody.step (reorderedPoints 3 [1, 0] exampleNest.uppers) memory =
        Schedule.run exampleBody.step (boxPoints exampleNest.uppers) memory :=
  run_reorderedPoints exampleFunction exampleNest exampleNest_box (by decide) exampleNest_legal
    Int exampleBody [1, 0] (List.Perm.swap 0 1 []) 3 (by decide)

end Execution

end PolyhedralPass
