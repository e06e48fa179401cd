/-
What the legality test is worth: a nest whose dependences it accepts can be
interchanged and tiled without a change of its result, if isl can tell the
identifiers of the nest apart.
-/
import PolyhedralPass.Acceptance
import PolyhedralPass.Schedule.Interchange

namespace PolyhedralPass

open Isl Schedule

section Execution

/-- A subscript: a constant and a coefficient for every dimension. -/
structure Subscript where
  constant : Int
  coefficients : List Int

def Subscript.eval (subscript : Subscript) (x : List Int) : Int :=
  subscript.constant + (List.zipWith (· * ·) subscript.coefficients x).sum

/-- An access with affine subscripts. -/
structure AffineAccess where
  accessKind : AccessKind
  array : Nat
  subscripts : List Subscript

abbrev Cell := Nat × List Int

def AffineAccess.cell (access : AffineAccess) (x : List Int) : Cell :=
  (access.array, access.subscripts.map fun subscript => subscript.eval x)

/-- The cells the accesses of one kind touch at an iteration. -/
def touched (accesses : List AffineAccess) (kind : AccessKind) (x : List Int) : Set Cell :=
  { cell | ∃ access ∈ accesses, access.accessKind = kind ∧ access.cell x = cell }

/-- The dependences of a nest whose loops count from zero to the given bounds. -/
def exactDependences (bounds : List Int) (accesses : List AffineAccess) : UnionMap :=
  { pair | (pair.1.name = "Stmt" ∧ pair.2.name = "Stmt") ∧
    InBox bounds pair.1.coords ∧ InBox bounds pair.2.coords ∧
    List.Lex (· < ·) pair.1.coords pair.2.coords ∧
    ∃ a ∈ accesses, ∃ b ∈ accesses, (a.accessKind = .store ∨ b.accessKind = .store) ∧
      a.cell pair.1.coords = b.cell pair.2.coords }

/-- The interpretation of a loop body: one step for each iteration that reads the
cells of the loads and writes those of the stores. -/
structure BodySteps (accesses : List AffineAccess) (ν : Type) extends
    Effects (List Int) Cell ν where
  reads_eq : ∀ x, reads x = touched accesses .load x
  writes_eq : ∀ x, writes x = touched accesses .store x

/-- `MinBound`: the end of a tile, or the bound if that is smaller. -/
def minBound (tileSize bound iv : Int) : Int :=
  if iv + tileSize < bound then iv + tileSize else bound

/-- The tile loops: `TNext` is compared with the bound in the latch. -/
def tileLoops (tileSize : Int) (bounds : List Int) : List (List Int) :=
  nested (bounds.map fun bound => blockStarts tileSize bound 0)

/-- The point loops, started from the tile loops. -/
def pointLoops (tileSize : Int) (bounds tiles : List Int) : List (List Int) :=
  nested (List.zipWith (fun bound iv => countUp (minBound tileSize bound iv) iv) bounds tiles)

/-- The iterations of the nest `applyPolyhedralTiling` emits. -/
def tiledNest (tileSize : Int) (bounds : List Int) : List (List Int) :=
  (tileLoops tileSize bounds).flatMap (pointLoops tileSize bounds)

/-- The iterations behind an interchange of loop `k` with the innermost one: the
loops have each other's bounds, and the body each other's variables. -/
def interchangedTiledNest (tileSize : Int) (k : Nat) (bounds : List Int) : List (List Int) :=
  (tiledNest tileSize (exchange k (bounds.length - 1) bounds)).map
    (exchange k (bounds.length - 1))

theorem minBound_eq (tileSize bound iv : Int) :
    minBound tileSize bound iv = min (iv + tileSize) bound := by
  unfold minBound
  split_ifs with h
  · exact (min_eq_left (le_of_lt h)).symm
  · exact (min_eq_right (not_lt.mp h)).symm

theorem tiledNest_eq (tileSize : Int) (bounds : List Int) :
    tiledNest tileSize bounds = blockedPoints tileSize bounds := by
  have hpoints : pointLoops tileSize bounds = blockPoints tileSize bounds := by
    funext tiles
    simp only [pointLoops, blockPoints, minBound_eq]
  rw [tiledNest, tileLoops, blockedPoints, hpoints]

theorem interchangedTiledNest_eq (tileSize : Int) (k : Nat) (bounds : List Int) :
    interchangedTiledNest tileSize k bounds = tiledPoints tileSize k (bounds.length - 1)
      bounds := by
  rw [interchangedTiledNest, tiledNest_eq, tiledPoints]

variable {accesses : List AffineAccess} {ν : Type}

/-- Two iterations conflict when accesses of them touch a cell, one in a store. -/
theorem BodySteps.conflicts_iff (body : BodySteps accesses ν) (x y : List Int) :
    body.Conflicts x y ↔ ∃ a ∈ accesses, ∃ b ∈ accesses,
      (a.accessKind = .store ∨ b.accessKind = .store) ∧ a.cell x = b.cell y := by
  simp only [Effects.Conflicts, body.reads_eq, body.writes_eq, touched, Set.mem_ofPred_eq]
  constructor
  · rintro ⟨cell, ⟨⟨a, ha, hak, rfl⟩, b, hb, hbk, hcell⟩ |
      ⟨⟨a, ha, hak, rfl⟩, b, hb, hbk, hcell⟩ | ⟨⟨a, ha, hak, rfl⟩, b, hb, hbk, hcell⟩⟩
    · exact ⟨a, ha, b, hb, Or.inl hak, hcell.symm⟩
    · exact ⟨a, ha, b, hb, Or.inl hak, hcell.symm⟩
    · exact ⟨a, ha, b, hb, Or.inr hbk, hcell.symm⟩
  · rintro ⟨a, ha, b, hb, hkind, hcell⟩
    refine ⟨a.cell x, ?_⟩
    cases hak : a.accessKind with
    | store =>
        cases hbk : b.accessKind with
        | store => exact Or.inl ⟨⟨a, ha, hak, rfl⟩, b, hb, hbk, hcell.symm⟩
        | load => exact Or.inr (Or.inl ⟨⟨a, ha, hak, rfl⟩, b, hb, hbk, hcell.symm⟩)
    | load =>
        have hbk : b.accessKind = .store := by simpa [hak] using hkind
        exact Or.inr (Or.inr ⟨⟨a, ha, hak, rfl⟩, b, hb, hbk, hcell.symm⟩)

end Execution

section Soundness

/-- The legality test is sound for a nest: whatever the bounds and the accesses,
if it accepts their dependences, every interchange and every tile size runs each
iteration once and ends with the memory of the original nest. -/
def TilingSound (nest : LoopNestDescriptor) : Prop :=
  ∀ (eqEq : Bool) (bounds : List Int) (accesses : List AffineAccess),
    bounds.length = nest.depth →
    isTilingLegal eqEq nest (some (exactDependences bounds accesses)) = true →
    ∀ (ν : Type) (body : BodySteps accesses ν) (k : Nat) (tileSize : Int),
      k < nest.depth → 1 ≤ tileSize →
      (boxPoints bounds).Nodup ∧
      (boxPoints bounds).Perm (interchangedTiledNest tileSize k bounds) ∧
      ∀ memory, run body.step (interchangedTiledNest tileSize k bounds) memory =
        run body.step (boxPoints bounds) memory

variable {nest : LoopNestDescriptor}

/-- With distinct names the test accepts only dependences that go forward in
every dimension. -/
theorem LoopNestDescriptor.NamesDistinct.forward_of_legal (hnames : nest.NamesDistinct)
    (hdepth : 2 ≤ nest.depth) {eqEq : Bool} {deps : UnionMap}
    (hlegal : isTilingLegal eqEq nest (some deps) = true) {x y : Point}
    (hxn : x.name = "Stmt") (hyn : y.name = "Stmt") (hx : x.coords.length = nest.depth)
    (hy : y.coords.length = nest.depth) (hdep : (x, y) ∈ deps) :
    List.Forall₂ (· ≤ ·) x.coords y.coords := by
  rw [isTilingLegal_iff eqEq hdepth] at hlegal
  rw [forall₂_iff_getElem?]
  refine ⟨by rw [hx, hy], ?_⟩
  intro k a b ha hb
  obtain ⟨hk, _⟩ := List.getElem?_eq_some_iff.mp ha
  have hk : k < nest.identifiers.length := by rw [identifiers_length, ← hx]; exact hk
  by_contra hlt
  apply hlegal _ (List.getElem_mem hk) x y hdep
  rw [hnames.violates_iff hx hy hk]
  exact ⟨hxn, hyn, a, b, ha, hb, by omega⟩

/-- The conflicts of a body whose dependences are accepted go forward as well. -/
theorem LoopNestDescriptor.NamesDistinct.conflicts_forward (hnames : nest.NamesDistinct)
    (hdepth : 2 ≤ nest.depth) {eqEq : Bool} {bounds : List Int} {accesses : List AffineAccess}
    (hbounds : bounds.length = nest.depth)
    (hlegal : isTilingLegal eqEq nest (some (exactDependences bounds accesses)) = true)
    {ν : Type} (body : BodySteps accesses ν) (x y : List Int) (hx : InBox bounds x)
    (hy : InBox bounds y) (hlex : List.Lex (· < ·) x y) (hconflict : body.Conflicts x y) :
    List.Forall₂ (· ≤ ·) x y := by
  rw [body.conflicts_iff] at hconflict
  have hdep : (⟨"Stmt", x⟩, ⟨"Stmt", y⟩) ∈ exactDependences bounds accesses :=
    ⟨⟨rfl, rfl⟩, hx, hy, hlex, hconflict⟩
  exact hnames.forward_of_legal hdepth hlegal rfl rfl (by rw [← hbounds]; exact hx.length_eq.symm)
    (by rw [← hbounds]; exact hy.length_eq.symm) hdep

theorem LoopNestDescriptor.NamesDistinct.tilingSound (hnames : nest.NamesDistinct)
    (hdepth : 2 ≤ nest.depth) : TilingSound nest := by
  intro eqEq bounds accesses hbounds hlegal ν body k tileSize hk hsize
  have hi : k < bounds.length := by omega
  have hj : bounds.length - 1 < bounds.length := by omega
  rw [interchangedTiledNest_eq]
  refine ⟨nodup_boxPoints bounds, perm_tiledPoints (by omega) hi hj, ?_⟩
  exact run_tiledPoints (by omega) hi hj (hnames.conflicts_forward hdepth hbounds hlegal body)

end Soundness

/-
The converse.  Two dimensions `a < b` whose words isl cannot tell apart are
enough for a dependence that goes back in `b` and that the test does not see.
-/
section Converse

variable {n a b : Nat}

/-- The points of the two dimensions, zero in the others. -/
def planePoint (n a b : Nat) (u v : Int) : List Int :=
  (List.range n).map fun k => if k = a then u else if k = b then v else 0

/-- The bounds of the box of the converse: two in `a`, three in `b`. -/
def planeBounds (n a b : Nat) : List Int :=
  (List.range n).map fun k => if k = a then 2 else if k = b then 3 else 1

/-- The subscript `3 * i_a + i_b + constant`. -/
def planeSubscript (n a b : Nat) (constant : Int) : Subscript :=
  ⟨constant, (List.range n).map fun k => if k = a then 3 else if k = b then 1 else 0⟩

/-- `X[3 * i_a + i_b - 2][0] = X[0][3 * i_a + i_b - 4] + 1` -/
def planeAccesses (n a b : Nat) : List AffineAccess :=
  [⟨.load, 0, [⟨0, []⟩, planeSubscript n a b (-4)]⟩,
    ⟨.store, 0, [planeSubscript n a b (-2), ⟨0, []⟩]⟩]

theorem getElem?_planePoint (u v : Int) {k : Nat} (hk : k < n) :
    (planePoint n a b u v)[k]? = some (if k = a then u else if k = b then v else 0) := by
  simp [planePoint, hk]

theorem length_planePoint (u v : Int) : (planePoint n a b u v).length = n := by
  simp [planePoint]

theorem inBox_planeBounds (hab : a < b) (hb : b < n) {x : List Int} :
    InBox (planeBounds n a b) x ↔
      ∃ u v, (0 ≤ u ∧ u < 2) ∧ (0 ≤ v ∧ v < 3) ∧ x = planePoint n a b u v := by
  rw [InBox, planeBounds, List.forall₂_map_left_iff, forall₂_iff_getElem?, List.length_range]
  constructor
  · rintro ⟨hlength, h⟩
    have hcoord : ∀ k (hk : k < x.length), 0 ≤ x[k] ∧
        x[k] < if k = a then 2 else if k = b then 3 else 1 := fun k hk =>
      h k k x[k] (List.getElem?_range (by omega)) (List.getElem?_eq_getElem hk)
    have ha := hcoord a (by omega)
    have hb' := hcoord b (by omega)
    rw [if_pos rfl] at ha
    rw [if_neg (by omega), if_pos rfl] at hb'
    refine ⟨x[a], x[b], ha, hb', ?_⟩
    apply List.ext_getElem
    · rw [length_planePoint, hlength]
    · intro k hk hk'
      have hx := hcoord k hk
      simp only [planePoint, List.getElem_map, List.getElem_range]
      by_cases hka : k = a
      · subst hka
        rw [if_pos rfl]
      · by_cases hkb : k = b
        · subst hkb
          rw [if_neg hka, if_pos rfl]
        · rw [if_neg hka, if_neg hkb] at hx ⊢
          omega
  · rintro ⟨u, v, hu, hv, rfl⟩
    refine ⟨(length_planePoint u v).symm, ?_⟩
    intro k i y hi hy
    obtain ⟨hk, rfl⟩ := List.getElem?_eq_some_iff.mp hi
    rw [List.length_range] at hk
    rw [getElem?_planePoint u v hk, Option.some.injEq] at hy
    rw [List.getElem_range, ← hy]
    split_ifs
    · exact hu
    · exact hv
    · exact ⟨le_refl 0, Int.one_pos⟩

theorem sum_plane (hab : a ≠ b) (s t : Int) :
    ((List.range n).map fun k => if k = a then s else if k = b then t else 0).sum =
      (if a < n then s else 0) + if b < n then t else 0 := by
  induction n with
  | zero => rfl
  | succ n ih =>
      rw [List.range_succ, List.map_append, List.sum_append, ih, List.map_singleton,
        List.sum_singleton]
      split_ifs <;> omega

theorem eval_planeSubscript (hab : a < b) (hb : b < n) (constant u v : Int) :
    (planeSubscript n a b constant).eval (planePoint n a b u v) = 3 * u + v + constant := by
  have hzip : List.zipWith (· * ·) (planeSubscript n a b constant).coefficients
      (planePoint n a b u v) =
      (List.range n).map fun k => if k = a then 3 * u else if k = b then v else 0 := by
    apply List.ext_getElem
    · simp [planeSubscript, planePoint]
    · intro k hk hk'
      simp only [planeSubscript, planePoint, List.getElem_zipWith, List.getElem_map,
        List.getElem_range]
      split_ifs <;> simp
  rw [Subscript.eval, hzip, sum_plane (by omega), if_pos (by omega), if_pos hb]
  simp only [planeSubscript]
  ring

/-- Lexicographic order at the first difference. -/
theorem lex_of_first_difference {f g : Nat → Int} {k : Nat} (hk : k < n)
    (hbefore : ∀ j < k, f j = g j) (hlt : f k < g k) :
    List.Lex (· < ·) ((List.range n).map f) ((List.range n).map g) := by
  obtain ⟨m, rfl⟩ := Nat.exists_eq_add_of_lt hk
  have hrange : List.range (k + m + 1) = List.range k ++ k :: List.range' (k + 1) m := by
    rw [List.range_eq_range', List.range_eq_range', Nat.add_assoc, ← List.range'_append_1,
      Nat.zero_add, List.range'_succ]
  have hprefix : (List.range k).map f = (List.range k).map g := by
    refine List.map_congr_left fun j hj => hbefore j (List.mem_range.mp hj)
  rw [hrange, List.map_append, List.map_append, hprefix, List.map_cons, List.map_cons]
  exact List.Lex.append_left _ (List.Lex.rel hlt) _

/-- The two iterations of the dependence. -/
def planeSource (n a b : Nat) : List Int := planePoint n a b 0 2

def planeTarget (n a b : Nat) : List Int := planePoint n a b 1 1

def planeStore (n a b : Nat) (x : List Int) : Cell :=
  (0, [(planeSubscript n a b (-2)).eval x, 0])

def planeLoad (n a b : Nat) (x : List Int) : Cell :=
  (0, [0, (planeSubscript n a b (-4)).eval x])

theorem subscript_zero_eval (x : List Int) : (⟨0, []⟩ : Subscript).eval x = 0 := by
  simp [Subscript.eval]

theorem touched_store (x : List Int) :
    touched (planeAccesses n a b) .store x = {planeStore n a b x} := by
  ext cell
  simp [touched, planeAccesses, AffineAccess.cell, subscript_zero_eval, planeStore, eq_comm]

theorem touched_load (x : List Int) :
    touched (planeAccesses n a b) .load x = {planeLoad n a b x} := by
  ext cell
  simp [touched, planeAccesses, AffineAccess.cell, subscript_zero_eval, planeLoad, eq_comm]

/-- The body that stores the successor of what it loads. -/
def planeBody (n a b : Nat) : BodySteps (planeAccesses n a b) Int where
  reads x := {planeLoad n a b x}
  writes x := {planeStore n a b x}
  step x memory cell := if cell = planeStore n a b x then memory (planeLoad n a b x) + 1
    else memory cell
  step_frame x memory cell hcell := if_neg hcell
  step_congr x memory memory' hreads cell hcell := by
    rw [Set.mem_singleton_iff] at hcell
    rw [if_pos hcell, if_pos hcell, hreads _ rfl]
  reads_eq x := (touched_load x).symm
  writes_eq x := (touched_store x).symm

theorem step_planeBody (x : List Int) (memory : Cell → Int) :
    (planeBody n a b).step x memory (planeStore n a b x) = memory (planeLoad n a b x) + 1 :=
  if_pos rfl

theorem planeStore_injective (hab : a < b) (hb : b < n) {x y : List Int}
    (hx : InBox (planeBounds n a b) x) (hy : InBox (planeBounds n a b) y)
    (h : planeStore n a b x = planeStore n a b y) : x = y := by
  obtain ⟨u, v, hu, hv, rfl⟩ := (inBox_planeBounds hab hb).mp hx
  obtain ⟨u', v', hu', hv', rfl⟩ := (inBox_planeBounds hab hb).mp hy
  simp only [planeStore, eval_planeSubscript hab hb, Prod.mk.injEq, true_and, List.cons.injEq,
    and_true] at h
  obtain rfl : u = u' := by omega
  obtain rfl : v = v' := by omega
  rfl

/-- One iteration stores what another one loads only in the dependence. -/
theorem planeStore_eq_planeLoad (hab : a < b) (hb : b < n) {x y : List Int}
    (hx : InBox (planeBounds n a b) x) (hy : InBox (planeBounds n a b) y) :
    planeStore n a b x = planeLoad n a b y ↔ x = planeSource n a b ∧ y = planeTarget n a b := by
  constructor
  · intro h
    obtain ⟨u, v, hu, hv, rfl⟩ := (inBox_planeBounds hab hb).mp hx
    obtain ⟨u', v', hu', hv', rfl⟩ := (inBox_planeBounds hab hb).mp hy
    simp only [planeStore, planeLoad, eval_planeSubscript hab hb, Prod.mk.injEq, true_and,
      List.cons.injEq, and_true] at h
    obtain rfl : u = 0 := by omega
    obtain rfl : v = 2 := by omega
    obtain rfl : u' = 1 := by omega
    obtain rfl : v' = 1 := by omega
    exact ⟨rfl, rfl⟩
  · rintro ⟨rfl, rfl⟩
    simp only [planeStore, planeLoad, planeSource, planeTarget, eval_planeSubscript hab hb]
    rfl

theorem inBox_planeSource (hab : a < b) (hb : b < n) :
    InBox (planeBounds n a b) (planeSource n a b) :=
  (inBox_planeBounds hab hb).mpr ⟨0, 2, by decide, by decide, rfl⟩

theorem inBox_planeTarget (hab : a < b) (hb : b < n) :
    InBox (planeBounds n a b) (planeTarget n a b) :=
  (inBox_planeBounds hab hb).mpr ⟨1, 1, by decide, by decide, rfl⟩

theorem lex_planeSource (hab : a < b) (hb : b < n) :
    List.Lex (· < ·) (planeSource n a b) (planeTarget n a b) := by
  apply lex_of_first_difference (show a < n by omega)
  · intro j hj
    rw [if_neg (by omega), if_neg (by omega), if_neg (by omega), if_neg (by omega)]
  · rw [if_pos rfl, if_pos rfl]
    decide

theorem lex_asymm (x y : List Int) (h : List.Lex (· < ·) x y) : ¬ List.Lex (· < ·) y x :=
  (List.Lex.asymm (α := Int) (· < ·)).asymm x y h

theorem planeSource_ne (hab : a < b) (hb : b < n) : planeSource n a b ≠ planeTarget n a b := by
  intro heq
  have hlex := lex_planeSource hab hb
  rw [heq] at hlex
  exact lex_asymm _ _ hlex hlex

/-- The interchange of the first dimension turns the dependence around. -/
theorem lex_exchange_planeTarget (hab : a < b) (hb : b < n) :
    List.Lex (· < ·) (exchange a (n - 1) (planeTarget n a b))
      (exchange a (n - 1) (planeSource n a b)) := by
  rw [planeTarget, planeSource, planePoint, planePoint,
    exchange_map_range (by omega) (by omega), exchange_map_range (by omega) (by omega)]
  have ha : a ≠ n - 1 := by omega
  by_cases hlast : b = n - 1
  · subst hlast
    apply lex_of_first_difference (show a < n by omega)
    · intro j hj
      have hja : j ≠ a := by omega
      have hjb : j ≠ n - 1 := by omega
      simp [hja, hjb]
    · simp [ha, ha.symm]
  · have hb' : b ≠ a := by omega
    apply lex_of_first_difference hb
    · intro j hj
      have hjb : j ≠ b := by omega
      have hjn : j ≠ n - 1 := by omega
      simp [hjb, hjn, ha.symm, Ne.symm hlast]
    · simp [hlast, hb']

/-- The exact dependences of the converse. -/
theorem mem_planeDependences (hab : a < b) (hb : b < n) {x y : Point}
    (h : (x, y) ∈ exactDependences (planeBounds n a b) (planeAccesses n a b)) :
    x = ⟨"Stmt", planeSource n a b⟩ ∧ y = ⟨"Stmt", planeTarget n a b⟩ := by
  obtain ⟨⟨hxn, hyn⟩, hx, hy, hlex, hconflict⟩ := h
  rw [← (planeBody n a b).conflicts_iff] at hconflict
  obtain ⟨xname, x⟩ := x
  obtain ⟨yname, y⟩ := y
  obtain rfl : xname = "Stmt" := hxn
  obtain rfl : yname = "Stmt" := hyn
  have hasymm := lex_asymm x y hlex
  have hcells : x = planeSource n a b ∧ y = planeTarget n a b := by
    obtain ⟨cell, ⟨hxc, hyc⟩ | ⟨hxc, hyc⟩ | ⟨hxc, hyc⟩⟩ := hconflict
    · have heq : x = y := planeStore_injective hab hb hx hy
        ((Set.mem_singleton_iff.mp hxc).symm.trans (Set.mem_singleton_iff.mp hyc))
      subst heq
      exact absurd hlex hasymm
    · exact (planeStore_eq_planeLoad hab hb hx hy).mp
        ((Set.mem_singleton_iff.mp hxc).symm.trans (Set.mem_singleton_iff.mp hyc))
    · obtain ⟨rfl, rfl⟩ := (planeStore_eq_planeLoad hab hb hy hx).mp
        ((Set.mem_singleton_iff.mp hyc).symm.trans (Set.mem_singleton_iff.mp hxc))
      exact absurd (lex_planeSource hab hb) hasymm
  rw [hcells.1, hcells.2]
  exact ⟨rfl, rfl⟩

/-- What a schedule leaves in the cell the second iteration of the dependence
stores: that iteration sees the first one or not. -/
theorem run_planeBody (hab : a < b) (hb : b < n) {front back : List (List Int)}
    (hnodup : (front ++ planeTarget n a b :: back).Nodup)
    (hbox : ∀ x ∈ front ++ planeTarget n a b :: back, InBox (planeBounds n a b) x) :
    run (planeBody n a b).step (front ++ planeTarget n a b :: back) (fun _ => 0)
        (planeStore n a b (planeTarget n a b)) =
      if planeSource n a b ∈ front then 2 else 1 := by
  obtain ⟨_, hnodupBack, hdisjoint⟩ := List.nodup_append.mp hnodup
  have hsource := inBox_planeSource hab hb
  have htarget := inBox_planeTarget hab hb
  have hne := planeSource_ne hab hb
  have hload : planeLoad n a b (planeTarget n a b) = planeStore n a b (planeSource n a b) :=
    ((planeStore_eq_planeLoad hab hb hsource htarget).mpr ⟨rfl, rfl⟩).symm
  -- no other iteration stores the cells of the two
  have hstore : ∀ {z x}, InBox (planeBounds n a b) z → InBox (planeBounds n a b) x → x ≠ z →
      planeStore n a b z ∉ (planeBody n a b).writes x := by
    intro z x hz hx hxz hmem
    exact hxz (planeStore_injective hab hb hz hx (Set.mem_singleton_iff.mp hmem)).symm
  have hback : ∀ x ∈ back, planeStore n a b (planeTarget n a b) ∉ (planeBody n a b).writes x := by
    intro x hx
    apply hstore htarget (hbox x (by simp [hx]))
    rintro rfl
    exact (List.nodup_cons.mp hnodupBack).1 hx
  have hlast : run (planeBody n a b).step (front ++ planeTarget n a b :: back) (fun _ => 0)
      (planeStore n a b (planeTarget n a b)) =
      run (planeBody n a b).step front (fun _ => 0)
        (planeStore n a b (planeSource n a b)) + 1 := by
    rw [Effects.run_last hback, step_planeBody, hload]
  rw [hlast]
  by_cases hmem : planeSource n a b ∈ front
  · rw [if_pos hmem]
    obtain ⟨before, after, rfl⟩ := List.append_of_mem hmem
    have hnodupFront := (List.nodup_append.mp (List.nodup_append.mp hnodup).1).2.1
    have hafter : ∀ x ∈ after, planeStore n a b (planeSource n a b) ∉
        (planeBody n a b).writes x := by
      intro x hx
      apply hstore hsource (hbox x (by simp [hx]))
      rintro rfl
      exact (List.nodup_cons.mp hnodupFront).1 hx
    have hbefore : ∀ x ∈ before, planeLoad n a b (planeSource n a b) ∉
        (planeBody n a b).writes x := by
      intro x hx hwrite
      have heq := (planeStore_eq_planeLoad hab hb (hbox x (by simp [hx])) hsource).mp
        (Set.mem_singleton_iff.mp hwrite).symm
      exact hne heq.2
    rw [Effects.run_last hafter, step_planeBody, Effects.run_frame hbefore]
    rfl
  · rw [if_neg hmem, Effects.run_frame]
    · rfl
    · intro x hx
      apply hstore hsource (hbox x (by simp [hx]))
      rintro rfl
      exact hmem hx

/-- Behind the interchange the second iteration of the dependence comes first. -/
theorem split_interchangedTiledNest (hab : a < b) (hb : b < n) :
    ∃ front back, interchangedTiledNest 3 a (planeBounds n a b) =
      front ++ planeTarget n a b :: back ∧ planeSource n a b ∉ front := by
  have hlength : (planeBounds n a b).length = n := by simp [planeBounds]
  have hle : ∀ bound ∈ exchange a (n - 1) (planeBounds n a b), bound ≤ 3 := by
    intro bound hbound
    rw [planeBounds, exchange_map_range (by omega) (by omega)] at hbound
    obtain ⟨k, _, rfl⟩ := List.mem_map.mp hbound
    split_ifs <;> decide
  have hexchange : ∀ u v, exchange a (n - 1) (exchange a (n - 1) (planePoint n a b u v)) =
      planePoint n a b u v := fun u v =>
    exchange_exchange (by rw [length_planePoint]; omega) (by rw [length_planePoint]; omega)
  have hmem : ∀ {x}, InBox (planeBounds n a b) x →
      exchange a (n - 1) x ∈ boxPoints (exchange a (n - 1) (planeBounds n a b)) := by
    intro x hx
    rw [mem_boxPoints, inBox_exchange (by omega) (by omega)]
    exact hx
  have hne : exchange a (n - 1) (planeSource n a b) ≠ exchange a (n - 1) (planeTarget n a b) := by
    intro heq
    have hlex := lex_exchange_planeTarget hab hb
    rw [heq] at hlex
    exact lex_asymm _ _ hlex hlex
  obtain ⟨front, back, hsplit, _, hafter⟩ := exists_split_of_pairwise lex_asymm
    (pairwise_boxPoints _) (hmem (inBox_planeSource hab hb)) (hmem (inBox_planeTarget hab hb)) hne
  refine ⟨front.map (exchange a (n - 1)), back.map (exchange a (n - 1)), ?_, ?_⟩
  · rw [interchangedTiledNest, hlength, tiledNest_eq, blockedPoints_of_le hle, hsplit,
      List.map_append, List.map_cons, planeTarget, hexchange]
  · intro hsource
    obtain ⟨x, hx, heq⟩ := List.mem_map.mp hsource
    apply hafter (lex_exchange_planeTarget hab hb)
    have hxlength : x.length = n := by
      have hin := mem_boxPoints.mp (hsplit ▸ List.mem_append_left _ hx)
      rw [← hin.length_eq, length_exchange, hlength]
    rw [← heq, exchange_exchange (by omega) (by omega)]
    exact hx

/-- A dependence the test does not see makes it unsound. -/
theorem not_tilingSound_of_unseen {nest : LoopNestDescriptor} (hdepth : 2 ≤ nest.depth)
    (hab : a < b) (hb : b < nest.depth)
    (hunseen : ∀ word ∈ nest.identifiers, ¬ Violates nest word
      ⟨"Stmt", planeSource nest.depth a b⟩ ⟨"Stmt", planeTarget nest.depth a b⟩) :
    ¬ TilingSound nest := by
  intro hsound
  have hlegal : isTilingLegal true nest (some (exactDependences (planeBounds nest.depth a b)
      (planeAccesses nest.depth a b))) = true := by
    rw [isTilingLegal_iff true hdepth]
    intro word hword x y hdep
    obtain ⟨rfl, rfl⟩ := mem_planeDependences hab hb hdep
    exact hunseen word hword
  obtain ⟨hnodup, hperm, hrun⟩ := hsound true (planeBounds nest.depth a b) _
    (by simp [planeBounds]) hlegal Int (planeBody nest.depth a b) a 3 (by omega) (by decide)
  have horiginal : run (planeBody nest.depth a b).step (boxPoints (planeBounds nest.depth a b))
      (fun _ => 0) (planeStore nest.depth a b (planeTarget nest.depth a b)) = 2 := by
    obtain ⟨front, back, hsplit, hbefore, _⟩ := exists_split_of_pairwise lex_asymm
      (pairwise_boxPoints (planeBounds nest.depth a b))
      (mem_boxPoints.mpr (inBox_planeSource hab hb)) (mem_boxPoints.mpr (inBox_planeTarget hab hb))
      (planeSource_ne hab hb)
    rw [hsplit] at hnodup ⊢
    rw [run_planeBody hab hb hnodup (fun x hx => mem_boxPoints.mp (hsplit ▸ hx)),
      if_pos (hbefore (lex_planeSource hab hb))]
  have htiled : run (planeBody nest.depth a b).step
      (interchangedTiledNest 3 a (planeBounds nest.depth a b))
      (fun _ => 0) (planeStore nest.depth a b (planeTarget nest.depth a b)) = 1 := by
    obtain ⟨front, back, hsplit, hbefore⟩ := split_interchangedTiledNest hab hb
    rw [hsplit] at hperm ⊢
    rw [run_planeBody hab hb (hperm.nodup hnodup)
      (fun x hx => mem_boxPoints.mp (hperm.symm.subset hx)), if_neg hbefore]
  have hsame := congrFun (hrun fun _ => 0) (planeStore nest.depth a b (planeTarget nest.depth a b))
  rw [horiginal, htiled] at hsame
  exact absurd hsame (by decide)

end Converse

section Unseen

variable {nest : LoopNestDescriptor} {a b : Nat}

/-- The values the words have in a pair of iterations that isl compares. -/
def SeesPair (nest : LoopNestDescriptor) (vars : Vars) (x y : List Int) : Prop :=
  ∀ i (hi : i < nest.identifiers.length),
    wordEval vars nest.identifiers[i] (x ++ y) = x[i]? ∧
      wordEval vars (nest.identifiers[i] ++ "_p") (x ++ y) = y[i]?

theorem Violates.seesPair {word : String} {x y : Point} (h : Violates nest word x y) :
    ∃ vars, SeesPair nest vars x.coords y.coords := by
  obtain ⟨dom, ran, vars, hscope, hmem, _⟩ := h
  exact ⟨vars, (wordEval_of_pairScope hscope hmem).2.2⟩

/-- The dependence of two dimensions is unseen when no scope gives the words its
values. -/
theorem not_tilingSound_of_not_seesPair (hdepth : 2 ≤ nest.depth) (hab : a < b)
    (hb : b < nest.depth)
    (h : ∀ vars, ¬ SeesPair nest vars (planeSource nest.depth a b) (planeTarget nest.depth a b)) :
    ¬ TilingSound nest := by
  apply not_tilingSound_of_unseen hdepth hab hb
  intro word _ hviolates
  obtain ⟨vars, hsees⟩ := hviolates.seesPair
  exact h vars hsees

theorem not_tilingSound_of_keyword (hdepth : 2 ≤ nest.depth) {word : String}
    (hword : word ∈ nest.identifiers) (hkeyword : checkKeywords word ≠ none) :
    ¬ TilingSound nest := by
  apply not_tilingSound_of_not_seesPair hdepth (show 0 < 1 by decide) (by omega)
  intro vars hsees
  obtain ⟨i, hi, rfl⟩ := List.getElem_of_mem hword
  have hnone : wordPos vars nest.identifiers[i] = none := by
    cases hpos : wordPos vars nest.identifiers[i] with
    | none => rfl
    | some pos =>
        obtain ⟨kw, hkw⟩ := Option.ne_none_iff_exists'.mp hkeyword
        simp [wordPos, wordToken, hkw] at hpos
  have hvalue := (hsees i hi).1
  rw [identifiers_length] at hi
  rw [planeSource, getElem?_planePoint _ _ hi, wordEval, hnone] at hvalue
  exact absurd hvalue (by simp)

theorem not_tilingSound_of_repeated (hdepth : 2 ≤ nest.depth) (hab : a < b)
    (hb : b < nest.identifiers.length) (heq : nest.identifiers[a] = nest.identifiers[b]) :
    ¬ TilingSound nest := by
  have hids := identifiers_length nest
  apply not_tilingSound_of_not_seesPair hdepth hab (by omega)
  intro vars hsees
  have hfirst := (hsees a (by omega)).1
  have hsecond := (hsees b hb).1
  rw [heq, hsecond, planeSource, getElem?_planePoint _ _ (by omega),
    getElem?_planePoint _ _ (by omega)] at hfirst
  simp [Nat.ne_of_gt hab] at hfirst

theorem not_tilingSound_of_suffixed (hdepth : 2 ≤ nest.depth) {i j : Nat}
    (hi : i < nest.identifiers.length) (hj : j < nest.identifiers.length)
    (heq : nest.identifiers[i] = nest.identifiers[j] ++ "_p") : ¬ TilingSound nest := by
  have hids := identifiers_length nest
  have hne : i ≠ j := by
    rintro rfl
    have hlength := congrArg String.length heq
    simp at hlength
  have hsees : ∀ vars x y, SeesPair nest vars x y → x[i]? = y[j]? := by
    intro vars x y hsees
    rw [← (hsees i hi).1, ← (hsees j hj).2, heq]
  rcases Nat.lt_or_gt_of_ne hne with hlt | hgt
  · apply not_tilingSound_of_not_seesPair hdepth hlt (by omega)
    intro vars h
    have hvalue := hsees vars _ _ h
    rw [planeSource, planeTarget, getElem?_planePoint _ _ (by omega),
      getElem?_planePoint _ _ (by omega)] at hvalue
    simp [hne.symm] at hvalue
  · apply not_tilingSound_of_not_seesPair hdepth hgt (by omega)
    intro vars h
    have hvalue := hsees vars _ _ h
    rw [planeSource, planeTarget, getElem?_planePoint _ _ (by omega),
      getElem?_planePoint _ _ (by omega)] at hvalue
    simp [hne] at hvalue

/-- Words that isl cannot tell apart make the test unsound. -/
theorem namesDistinct_of_tilingSound (hdepth : 2 ≤ nest.depth) (hsound : TilingSound nest) :
    nest.NamesDistinct := by
  have hwords : ∀ word ∈ nest.identifiers, checkKeywords word = none := by
    intro word hword
    by_contra hkeyword
    exact not_tilingSound_of_keyword hdepth hword hkeyword hsound
  refine ⟨identifiers_primed_nodup_iff.mpr ⟨?_, ?_⟩, hwords⟩
  · rw [List.Nodup, List.pairwise_iff_getElem]
    intro i j hi hj hij heq
    exact not_tilingSound_of_repeated hdepth hij hj heq hsound
  · intro word hword word' hword' heq
    obtain ⟨i, hi, rfl⟩ := List.getElem_of_mem hword
    obtain ⟨j, hj, rfl⟩ := List.getElem_of_mem hword'
    exact not_tilingSound_of_suffixed hdepth hi hj heq hsound

end Unseen

/-- The legality test is sound exactly for the nests whose identifiers, with and
without the suffix, are distinct and no keywords. -/
theorem tilingSound_iff (nest : LoopNestDescriptor) (hdepth : 2 ≤ nest.depth) :
    TilingSound nest ↔ (nest.identifiers ++ nest.primed).Nodup ∧
      ∀ word ∈ nest.identifiers, checkKeywords word = none := by
  constructor
  · intro hsound
    have hnames := namesDistinct_of_tilingSound hdepth hsound
    exact ⟨hnames.identifiers_nodup, hnames.identifiers_word⟩
  · rintro ⟨hnodup, hword⟩
    have hnames : nest.NamesDistinct := ⟨hnodup, hword⟩
    exact hnames.tilingSound hdepth

/-- A nest without accesses is legal. -/
theorem isTilingLegal_nil (eqEq : Bool) {nest : LoopNestDescriptor} (hdepth : 2 ≤ nest.depth)
    (bounds : List Int) : isTilingLegal eqEq nest (some (exactDependences bounds [])) = true := by
  rw [isTilingLegal_iff eqEq hdepth]
  rintro word _ x y ⟨_, _, _, _, a, ha, _⟩
  exact absurd ha (List.not_mem_nil)

/-- Without accesses the pass finds no dependence and nothing against a change. -/
theorem LoopNestDescriptor.Box.legal_of_no_accesses {F : Function} {nest : LoopNestDescriptor}
    (hbox : nest.Box F) (hnone : nest.accesses = []) :
    ∃ deps, getDependencies true F nest = some deps ∧
      isTilingLegal true nest (some deps) = true := by
  obtain ⟨deps, hdeps⟩ := Option.isSome_iff_exists.mp hbox.getDependencies_isSome
  refine ⟨deps, hdeps, ?_⟩
  rw [isTilingLegal_iff true hbox.depth_ge]
  intro word _ x y hdep
  obtain ⟨_, _, _, _, _, a, ha, _⟩ := (hbox.mem_getDependencies hdeps x y).mp hdep
  rw [hnone] at ha
  exact absurd ha List.not_mem_nil

theorem exampleNest_tilingSound : TilingSound exampleNest ↔
    (exampleNest.identifiers ++ exampleNest.primed).Nodup ∧
      ∀ word ∈ exampleNest.identifiers, checkKeywords word = none :=
  tilingSound_iff exampleNest (by decide)

/-- Two variables whose names are one identifier. -/
theorem not_tilingSound_mergedNest : ¬ TilingSound mergedNest :=
  not_tilingSound_of_repeated (a := 0) (b := 1) (by decide) (by decide) (by decide) (by decide)

end PolyhedralPass
