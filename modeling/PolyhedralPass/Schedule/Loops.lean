/-
Counting loops, loop nests and blocking.  A nest enumerates the points of a box
in lexicographic order; blocking enumerates the same points block by block.
-/
import Mathlib.Data.List.Forall2
import Mathlib.Data.List.Lex
import Mathlib.Data.List.Pairwise
import Mathlib.Order.Defs.LinearOrder
import Mathlib.Tactic.Linarith

namespace Schedule

section Counting

/-- The values of a counter that starts at `start` and is incremented while it is
less than `bound`. -/
def countUp (bound start : Int) : List Int :=
  if start < bound then start :: countUp bound (start + 1) else []
termination_by (bound - start).toNat

/-- The starts of the blocks of a counter.  The loop over the blocks is tested
at its bottom, so the first block is always there. -/
def blockStarts (size bound start : Int) : List Int :=
  if 0 < size ∧ start + size < bound then start :: blockStarts size bound (start + size)
  else [start]
termination_by (bound - start).toNat

theorem mem_countUp {bound start v : Int} : v ∈ countUp bound start ↔ start ≤ v ∧ v < bound := by
  induction start using countUp.induct bound with
  | case1 start hlt ih =>
      rw [countUp, if_pos hlt, List.mem_cons, ih]
      constructor
      · rintro (rfl | ⟨hle, hlt'⟩)
        · exact ⟨le_refl v, hlt⟩
        · exact ⟨by omega, hlt'⟩
      · rintro ⟨hle, hlt'⟩
        by_cases heq : v = start
        · exact Or.inl heq
        · exact Or.inr ⟨by omega, hlt'⟩
  | case2 start hge =>
      rw [countUp, if_neg hge]
      constructor
      · exact fun h => absurd h (List.not_mem_nil)
      · rintro ⟨hle, hlt⟩
        exact absurd (lt_of_le_of_lt hle hlt) hge

theorem pairwise_countUp (bound start : Int) : (countUp bound start).Pairwise (· < ·) := by
  induction start using countUp.induct bound with
  | case1 start hlt ih =>
      rw [countUp, if_pos hlt, List.pairwise_cons]
      refine ⟨?_, ih⟩
      intro v hv
      have hle := (mem_countUp.mp hv).1
      omega
  | case2 start hge =>
      rw [countUp, if_neg hge]
      exact List.Pairwise.nil

theorem le_of_mem_blockStarts {size bound start t : Int} (h : t ∈ blockStarts size bound start) :
    start ≤ t := by
  induction start using blockStarts.induct size bound with
  | case1 start hmore ih =>
      rw [blockStarts, if_pos hmore, List.mem_cons] at h
      rcases h with rfl | h
      · exact le_refl t
      · have hle := ih h
        omega
  | case2 start hlast =>
      rw [blockStarts, if_neg hlast, List.mem_singleton] at h
      exact le_of_eq h.symm

/-- A block ends before the next one starts. -/
theorem pairwise_blockStarts (size bound start : Int) :
    (blockStarts size bound start).Pairwise fun t t' => t + size ≤ t' := by
  induction start using blockStarts.induct size bound with
  | case1 start hmore ih =>
      rw [blockStarts, if_pos hmore, List.pairwise_cons]
      exact ⟨fun t ht => le_of_mem_blockStarts ht, ih⟩
  | case2 start hlast =>
      rw [blockStarts, if_neg hlast]
      exact List.pairwise_singleton _ _

/-- Every value of the counter lies in a block. -/
theorem exists_mem_blockStarts {size : Int} (hsize : 0 < size) {bound start v : Int}
    (hstart : start ≤ v) (hv : v < bound) :
    ∃ t ∈ blockStarts size bound start, t ≤ v ∧ v < t + size := by
  induction start using blockStarts.induct size bound with
  | case1 start hmore ih =>
      rw [blockStarts, if_pos hmore]
      by_cases hblock : v < start + size
      · exact ⟨start, by simp, hstart, hblock⟩
      · obtain ⟨t, ht, hle, hlt⟩ := ih (by omega)
        exact ⟨t, List.mem_cons_of_mem start ht, hle, hlt⟩
  | case2 start hlast =>
      rw [blockStarts, if_neg hlast]
      refine ⟨start, by simp, hstart, ?_⟩
      by_contra hge
      exact hlast ⟨hsize, by omega⟩

end Counting

section Nests

variable {α : Type}

/-- The points a loop nest visits, given what each loop visits. -/
def nested : List (List α) → List (List α)
  | [] => [[]]
  | values :: rest => values.flatMap fun v => (nested rest).map (v :: ·)

theorem mem_nested {ranges : List (List α)} {x : List α} :
    x ∈ nested ranges ↔ List.Forall₂ (fun values v => v ∈ values) ranges x := by
  induction ranges generalizing x with
  | nil => simp [nested]
  | cons values rest ih =>
      rw [nested, List.mem_flatMap]
      constructor
      · rintro ⟨v, hv, hx⟩
        obtain ⟨tail, htail, rfl⟩ := List.mem_map.mp hx
        exact List.Forall₂.cons hv (ih.mp htail)
      · intro hx
        cases hx with
        | cons hv htail => exact ⟨_, hv, List.mem_map.mpr ⟨_, ih.mpr htail, rfl⟩⟩

/-- A nest visits its points in the lexicographic order of what its loops do. -/
theorem pairwise_nested {R : α → α → Prop} {ranges : List (List α)}
    (hranges : ∀ values ∈ ranges, values.Pairwise R) :
    (nested ranges).Pairwise (List.Lex R) := by
  induction ranges with
  | nil => exact List.pairwise_singleton _ _
  | cons values rest ih =>
      have hrest := ih fun range hrange => hranges range (List.mem_cons_of_mem values hrange)
      rw [nested, List.pairwise_flatMap]
      constructor
      · intro v _
        rw [List.pairwise_map]
        exact hrest.imp fun h => List.Lex.cons h
      · apply (hranges values (by simp)).imp
        rintro v v' hlt _ hx _ hy
        obtain ⟨x, _, rfl⟩ := List.mem_map.mp hx
        obtain ⟨y, _, rfl⟩ := List.mem_map.mp hy
        exact List.Lex.rel hlt

end Nests

section Blocking

/-- The points of a box in lexicographic order. -/
def boxPoints (bounds : List Int) : List (List Int) :=
  nested (bounds.map fun bound => countUp bound 0)

/-- The points of the block with the given starts: the loops over the points are
clamped to the bounds. -/
def blockPoints (size : Int) (bounds starts : List Int) : List (List Int) :=
  nested (List.zipWith (fun bound start => countUp (min (start + size) bound) start) bounds starts)

/-- The points of a box block by block. -/
def blockedPoints (size : Int) (bounds : List Int) : List (List Int) :=
  (nested (bounds.map fun bound => blockStarts size bound 0)).flatMap (blockPoints size bounds)

/-- The points of a box. -/
def InBox (bounds x : List Int) : Prop := List.Forall₂ (fun bound v => 0 ≤ v ∧ v < bound) bounds x

theorem mem_boxPoints {bounds x : List Int} : x ∈ boxPoints bounds ↔ InBox bounds x := by
  rw [boxPoints, mem_nested, List.forall₂_map_left_iff]
  simp only [mem_countUp]
  rfl

theorem pairwise_boxPoints (bounds : List Int) :
    (boxPoints bounds).Pairwise (List.Lex (· < ·)) := by
  apply pairwise_nested
  intro values hvalues
  obtain ⟨bound, _, rfl⟩ := List.mem_map.mp hvalues
  exact pairwise_countUp bound 0

/-- A point that comes later in lexicographic order is not below. -/
theorem not_le_of_lex {x y : List Int} (h : List.Lex (· < ·) x y) :
    ¬ List.Forall₂ (· ≤ ·) y x := by
  induction h with
  | nil => exact fun h => nomatch h
  | cons _ ih =>
      intro hle
      cases hle with
      | cons _ htail => exact ih htail
  | rel hlt =>
      intro hle
      cases hle with
      | cons hhead _ => exact absurd hhead (not_le_of_gt hlt)

theorem nodup_of_pairwise_not_le {points : List (List Int)}
    (h : points.Pairwise fun x y => ¬ List.Forall₂ (· ≤ ·) y x) : points.Nodup := by
  apply h.imp
  rintro x _ hxy rfl
  exact hxy (List.forall₂_same.mpr fun v _ => le_refl v)

/-- The coordinates of a point of a block are inside the block and the box. -/
theorem mem_blockPoints {size : Int} {bounds starts x : List Int} :
    x ∈ blockPoints size bounds starts ↔
      List.Forall₂ (fun values v => v ∈ values)
        (List.zipWith (fun bound start => countUp (min (start + size) bound) start)
          bounds starts) x := mem_nested

/-- Later blocks have a coordinate in which all their points are larger. -/
theorem not_le_of_blocks {size : Int} {bounds starts starts' x y : List Int}
    (hlex : List.Lex (fun t t' => t + size ≤ t') starts starts')
    (hstarts : bounds.length = starts.length) (hstarts' : bounds.length = starts'.length)
    (hx : x ∈ blockPoints size bounds starts) (hy : y ∈ blockPoints size bounds starts') :
    ¬ List.Forall₂ (· ≤ ·) y x := by
  rw [mem_blockPoints] at hx hy
  intro hle
  induction hlex generalizing bounds x y with
  | nil =>
      rw [hstarts] at hstarts'
      exact absurd hstarts' (by simp)
  | cons _ ih =>
      cases bounds with
      | nil => exact absurd hstarts (by simp)
      | cons bound bounds =>
          rw [List.zipWith_cons_cons] at hx hy
          cases hx with
          | cons _ hx =>
              cases hy with
              | cons _ hy =>
                  cases hle with
                  | cons _ hle =>
                      exact ih (by simpa using hstarts) (by simpa using hstarts') hx hy hle
  | rel hlt =>
      cases bounds with
      | nil => exact absurd hstarts (by simp)
      | cons bound bounds =>
          rw [List.zipWith_cons_cons] at hx hy
          cases hx with
          | cons hxv _ =>
              cases hy with
              | cons hyv _ =>
                  cases hle with
                  | cons hle _ =>
                      have hxv := (mem_countUp.mp hxv).2
                      have hyv := (mem_countUp.mp hyv).1
                      omega

theorem length_of_mem_blockStarts {size : Int} {bounds starts : List Int}
    (h : starts ∈ nested (bounds.map fun bound => blockStarts size bound 0)) :
    bounds.length = starts.length := by
  rw [mem_nested, List.forall₂_map_left_iff] at h
  exact h.length_eq

/-- Blocking visits the points of the box. -/
theorem mem_blockedPoints {size : Int} (hsize : 0 < size) {bounds x : List Int} :
    x ∈ blockedPoints size bounds ↔ InBox bounds x := by
  rw [blockedPoints, List.mem_flatMap]
  simp only [mem_nested, mem_blockPoints, List.forall₂_map_left_iff]
  constructor
  · rintro ⟨starts, hstarts, hx⟩
    induction hstarts generalizing x with
    | nil =>
        cases hx
        exact List.Forall₂.nil
    | cons hstart _ ih =>
        rw [List.zipWith_cons_cons] at hx
        cases hx with
        | cons hv hx =>
            have hle := le_of_mem_blockStarts hstart
            have hv := mem_countUp.mp hv
            exact List.Forall₂.cons ⟨by omega, by omega⟩ (ih hx)
  · intro hx
    induction hx with
    | nil => exact ⟨[], List.Forall₂.nil, List.Forall₂.nil⟩
    | cons hv _ ih =>
        obtain ⟨starts, hstarts, htail⟩ := ih
        obtain ⟨t, ht, hle, hlt⟩ := exists_mem_blockStarts hsize hv.1 hv.2
        refine ⟨t :: starts, List.Forall₂.cons ht hstarts, ?_⟩
        rw [List.zipWith_cons_cons]
        exact List.Forall₂.cons (mem_countUp.mpr ⟨hle, lt_min hlt hv.2⟩) htail

/-- Blocking never visits a point after one that it is below. -/
theorem pairwise_blockedPoints (size : Int) (bounds : List Int) :
    (blockedPoints size bounds).Pairwise fun x y => ¬ List.Forall₂ (· ≤ ·) y x := by
  have hstarts : (nested (bounds.map fun bound => blockStarts size bound 0)).Pairwise
      (List.Lex fun t t' => t + size ≤ t') := by
    apply pairwise_nested
    intro values hvalues
    obtain ⟨bound, _, rfl⟩ := List.mem_map.mp hvalues
    exact pairwise_blockStarts size bound 0
  rw [blockedPoints, List.pairwise_flatMap]
  constructor
  · intro starts _
    have hpoints : (blockPoints size bounds starts).Pairwise (List.Lex (· < ·)) := by
      apply pairwise_nested
      intro values hvalues
      obtain ⟨i, hi, rfl⟩ := List.getElem_of_mem hvalues
      rw [List.getElem_zipWith]
      exact pairwise_countUp _ _
    exact hpoints.imp not_le_of_lex
  · apply List.Pairwise.imp_of_mem _ hstarts
    intro starts starts' hmem hmem' hlex x hx y hy
    exact not_le_of_blocks hlex (length_of_mem_blockStarts hmem) (length_of_mem_blockStarts hmem')
      hx hy

theorem nodup_boxPoints (bounds : List Int) : (boxPoints bounds).Nodup :=
  nodup_of_pairwise_not_le ((pairwise_boxPoints bounds).imp not_le_of_lex)

/-- One block that covers the box leaves the order as it is. -/
theorem blockedPoints_of_le {size : Int} {bounds : List Int}
    (hbounds : ∀ bound ∈ bounds, bound ≤ size) : blockedPoints size bounds = boxPoints bounds := by
  have hstarts : nested (bounds.map fun bound => blockStarts size bound 0) =
      [bounds.map fun _ => 0] := by
    induction bounds with
    | nil => rfl
    | cons bound bounds ih =>
        have hle := hbounds bound (by simp)
        have hstart : blockStarts size bound 0 = [0] := by
          rw [blockStarts, if_neg (by omega)]
        rw [List.map_cons, nested, ih fun b hb => hbounds b (List.mem_cons_of_mem bound hb), hstart]
        rfl
  have hvalues : List.zipWith (fun bound start => countUp (min (start + size) bound) start) bounds
      (bounds.map fun _ => 0) = bounds.map fun bound => countUp bound 0 := by
    rw [List.zipWith_map_right, List.zipWith_self]
    refine List.map_congr_left fun bound hbound => ?_
    rw [Int.zero_add, min_eq_right (hbounds bound hbound)]
  rw [blockedPoints, hstarts, List.flatMap_singleton, blockPoints, hvalues, boxPoints]

end Blocking

end Schedule
