/-
Loop nests with their loops in another order.  Dependences survive every order of the
loops just when they go forward in every dimension.
-/
import PolyhedralPass.Schedule.Interchange
import Mathlib.Data.List.Nodup
import Mathlib.Data.List.Perm.Basic

namespace Schedule

section Permuted

variable {α β : Type}

/-- An order of `n` loops has each of them once. -/
def IsOrder (n : Nat) (order : List Nat) : Prop := order.Perm (List.range n)

/-- The entries of a list in another order. -/
def permuted (order : List Nat) (l : List α) : List α := order.filterMap fun k => l[k]?

/-- The order that undoes another one. -/
def inverse (order : List Nat) : List Nat := (List.range order.length).map fun k => order.idxOf k

/-- The order with one loop moved to the front. -/
def frontOrder (n k : Nat) : List Nat := k :: (List.range n).erase k

section Orders

variable {n : Nat} {order : List Nat} (h : IsOrder n order)
include h

theorem IsOrder.length_eq : order.length = n :=
  (List.Perm.length_eq h).trans List.length_range

theorem IsOrder.mem_iff {k : Nat} : k ∈ order ↔ k < n := (List.Perm.mem_iff h).trans List.mem_range

theorem IsOrder.nodup : order.Nodup := (List.Perm.nodup_iff h).mpr List.nodup_range

theorem IsOrder.idxOf_lt {k : Nat} (hk : k < n) : order.idxOf k < n := by
  rw [← h.length_eq]
  exact List.idxOf_lt_length_iff.mpr (h.mem_iff.mpr hk)

theorem IsOrder.getElem?_idxOf {k : Nat} (hk : k < n) : order[order.idxOf k]? = some k :=
  List.getElem?_idxOf (h.mem_iff.mpr hk)

theorem IsOrder.getElem?_inverse {k : Nat} (hk : k < n) :
    (inverse order)[k]? = some (order.idxOf k) := by
  simp [inverse, h.length_eq, hk]

theorem IsOrder.inverse : IsOrder n (inverse order) := by
  have hnodup : (Schedule.inverse order).Nodup := by
    rw [Schedule.inverse, h.length_eq]
    apply List.Nodup.map_on _ List.nodup_range
    intro a ha b hb heq
    have hget := h.getElem?_idxOf (List.mem_range.mp ha)
    rw [heq, h.getElem?_idxOf (List.mem_range.mp hb)] at hget
    exact (Option.some.inj hget).symm
  refine (List.perm_ext_iff_of_nodup hnodup List.nodup_range).mpr fun i => ?_
  rw [Schedule.inverse, h.length_eq, List.mem_map]
  constructor
  · rintro ⟨k, hk, rfl⟩
    exact List.mem_range.mpr (h.idxOf_lt (List.mem_range.mp hk))
  · intro hi
    have hi' : i < order.length := by rw [h.length_eq]; exact List.mem_range.mp hi
    refine ⟨order[i], List.mem_range.mpr (h.mem_iff.mp (List.getElem_mem hi')), ?_⟩
    exact h.nodup.idxOf_getElem i hi'

end Orders

theorem isOrder_frontOrder {n k : Nat} (hk : k < n) : IsOrder n (frontOrder n k) :=
  (List.perm_cons_erase (List.mem_range.mpr hk)).symm

theorem getElem?_permuted {order : List Nat} {l : List α} (h : ∀ k ∈ order, k < l.length)
    (i : Nat) : (permuted order l)[i]? = order[i]?.bind fun k => l[k]? := by
  induction order generalizing i with
  | nil => simp [permuted]
  | cons k rest ih =>
      have hk : k < l.length := h k List.mem_cons_self
      have hcons : permuted (k :: rest) l = l[k] :: permuted rest l := by
        simp [permuted, List.getElem?_eq_getElem hk]
      rw [hcons]
      cases i with
      | zero => simp [List.getElem?_eq_getElem hk]
      | succ i => simpa using ih (fun k hk => h k (List.mem_cons_of_mem _ hk)) i

section Lists

variable {order : List Nat} {l : List α} (h : IsOrder l.length order)
include h

theorem IsOrder.getElem?_permuted (i : Nat) :
    (permuted order l)[i]? = order[i]?.bind fun k => l[k]? :=
  Schedule.getElem?_permuted (fun _ hk => h.mem_iff.mp hk) i

omit h in
theorem permuted_range (l : List α) : permuted (List.range l.length) l = l := by
  apply List.ext_getElem?
  intro i
  rw [Schedule.getElem?_permuted fun k hk => List.mem_range.mp hk]
  by_cases hi : i < l.length
  · simp [List.getElem?_range hi]
  · simp [hi]

theorem IsOrder.permuted_perm : (permuted order l).Perm l := by
  have hperm := h.filterMap fun k => l[k]?
  rwa [← permuted, ← permuted, permuted_range] at hperm

@[simp] theorem IsOrder.length_permuted : (permuted order l).length = l.length :=
  h.permuted_perm.length_eq

theorem IsOrder.permuted_inverse : permuted (Schedule.inverse order) (permuted order l) = l := by
  have hinverse : IsOrder (permuted order l).length (Schedule.inverse order) := by
    rw [h.length_permuted]
    exact h.inverse
  apply List.ext_getElem?
  intro k
  rw [hinverse.getElem?_permuted]
  by_cases hk : k < l.length
  · rw [h.getElem?_inverse hk, Option.bind_some, h.getElem?_permuted, h.getElem?_idxOf hk,
      Option.bind_some]
  · have hlength : (Schedule.inverse order).length ≤ k := by
      rw [hinverse.length_eq, h.length_permuted]
      omega
    rw [List.getElem?_eq_none hlength, List.getElem?_eq_none (by omega)]
    rfl

theorem IsOrder.permuted_permuted_inverse :
    permuted order (permuted (Schedule.inverse order) l) = l := by
  have horder : IsOrder (permuted (Schedule.inverse order) l).length order := by
    rw [h.inverse.length_permuted]
    exact h
  apply List.ext_getElem?
  intro i
  rw [horder.getElem?_permuted]
  by_cases hi : i < l.length
  · have hi' : i < order.length := by rw [h.length_eq]; exact hi
    have hk : order[i] < l.length := h.mem_iff.mp (List.getElem_mem hi')
    rw [List.getElem?_eq_getElem hi', Option.bind_some, h.inverse.getElem?_permuted,
      h.getElem?_inverse hk, Option.bind_some, h.nodup.idxOf_getElem i hi']
  · have hlength : order.length ≤ i := by rw [h.length_eq]; omega
    rw [List.getElem?_eq_none hlength, List.getElem?_eq_none (by omega)]
    rfl

end Lists

/-- Another order keeps what holds in every position. -/
theorem forall₂_permuted {R : α → β → Prop} {order : List Nat} {a : List α} {b : List β}
    (h : IsOrder a.length order) (hab : List.Forall₂ R a b) :
    List.Forall₂ R (permuted order a) (permuted order b) := by
  have hlength := hab.length_eq
  have h' : IsOrder b.length order := hlength ▸ h
  rw [forall₂_iff_getElem?] at hab ⊢
  refine ⟨by rw [h.length_permuted, h'.length_permuted, hlength], ?_⟩
  intro i x y hx hy
  rw [h.getElem?_permuted] at hx
  rw [h'.getElem?_permuted] at hy
  obtain ⟨k, hk, hx⟩ := Option.bind_eq_some_iff.mp hx
  rw [hk, Option.bind_some] at hy
  exact hab.2 k x y hx hy

theorem forall₂_permuted_iff {R : α → β → Prop} {order : List Nat} {a : List α} {b : List β}
    (h : IsOrder a.length order) (hlength : a.length = b.length) :
    List.Forall₂ R (permuted order a) (permuted order b) ↔ List.Forall₂ R a b := by
  refine ⟨fun hab => ?_, forall₂_permuted h⟩
  have h' : IsOrder b.length order := hlength ▸ h
  have hinverse : IsOrder (permuted order a).length (inverse order) := by
    rw [h.length_permuted]
    exact h.inverse
  have hback := forall₂_permuted hinverse hab
  rwa [h.permuted_inverse, h'.permuted_inverse] at hback

end Permuted

section Forward

/-- Two points of which one is below the other are in lexicographic order. -/
theorem lex_of_le_of_ne {x y : List Int} (hle : List.Forall₂ (· ≤ ·) x y) (hne : x ≠ y) :
    List.Lex (· < ·) x y := by
  induction hle with
  | nil => exact absurd rfl hne
  | cons hhead _ ih =>
      rcases lt_or_eq_of_le hhead with hlt | rfl
      · exact List.Lex.rel hlt
      · exact List.Lex.cons (ih fun heq => hne (heq ▸ rfl))

/-- A pair of points goes forward in every dimension if every order of the dimensions has
them in lexicographic order. -/
theorem le_of_lex_permuted {x y : List Int} (hlength : x.length = y.length)
    (h : ∀ order, IsOrder x.length order →
      List.Lex (· < ·) (permuted order x) (permuted order y)) : List.Forall₂ (· ≤ ·) x y := by
  rw [forall₂_iff_getElem?]
  refine ⟨hlength, ?_⟩
  intro k a b ha hb
  obtain ⟨hk, rfl⟩ := List.getElem?_eq_some_iff.mp ha
  obtain ⟨hk', rfl⟩ := List.getElem?_eq_some_iff.mp hb
  -- the order with dimension `k` in front compares it first
  have hlex := h (frontOrder x.length k) (isOrder_frontOrder hk)
  simp only [permuted, frontOrder, List.filterMap_cons, List.getElem?_eq_getElem hk,
    List.getElem?_eq_getElem hk'] at hlex
  rcases List.cons_lex_cons_iff.mp hlex with hlt | ⟨heq, _⟩
  · exact le_of_lt hlt
  · exact le_of_eq heq

theorem lex_permuted_of_le {x y : List Int} (hle : List.Forall₂ (· ≤ ·) x y) (hne : x ≠ y)
    {order : List Nat} (h : IsOrder x.length order) :
    List.Lex (· < ·) (permuted order x) (permuted order y) := by
  have h' : IsOrder y.length order := hle.length_eq ▸ h
  apply lex_of_le_of_ne (forall₂_permuted h hle)
  intro heq
  have hback := congrArg (permuted (inverse order)) heq
  rw [h.permuted_inverse, h'.permuted_inverse] at hback
  exact hne hback

end Forward

section Schedules

variable {ι τ σ : Type} {step step' : ι → σ → σ}

theorem run_map (f : τ → ι) (order : List τ) (state : σ) :
    run step (order.map f) state = run (fun i => step (f i)) order state :=
  List.foldl_map

/-- Instances that do the same are exchanged for each other. -/
theorem run_congr {order : List ι} (h : ∀ i ∈ order, step i = step' i) (state : σ) :
    run step order state = run step' order state := by
  induction order generalizing state with
  | nil => rfl
  | cons i order ih =>
      rw [run_cons, run_cons, h i List.mem_cons_self,
        ih fun j hj => h j (List.mem_cons_of_mem i hj)]

theorem exists_size (bounds : List Int) : ∃ size, 0 < size ∧ ∀ bound ∈ bounds, bound ≤ size := by
  induction bounds with
  | nil => exact ⟨1, one_pos, by simp⟩
  | cons bound bounds ih =>
      obtain ⟨size, hsize, hle⟩ := ih
      refine ⟨max bound size, lt_max_of_lt_right hsize, ?_⟩
      intro other hother
      rcases List.mem_cons.mp hother with rfl | hother
      · exact le_max_left _ _
      · exact le_max_of_le_right (hle other hother)

end Schedules

section Orders

variable {κ ν : Type} {effects : Effects (List Int) κ ν} {bounds : List Int}

/-- Dependences that go forward in every dimension survive every schedule that never
executes a point after one that it is below. -/
theorem run_of_pairwise_not_le {schedule : List (List Int)}
    (hperm : (boxPoints bounds).Perm schedule)
    (hpairwise : schedule.Pairwise fun x y => ¬ List.Forall₂ (· ≤ ·) y x)
    (hforward : ∀ x y, InBox bounds x → InBox bounds y → List.Lex (· < ·) x y →
      effects.Conflicts x y → List.Forall₂ (· ≤ ·) x y) (memory : κ → ν) :
    run effects.step schedule memory = run effects.step (boxPoints bounds) memory := by
  symm
  apply Effects.run_eq_of_perm hperm (pairwise_boxPoints bounds) hpairwise
  intro x hx y hy hconflict hlex hlater
  exact hlater (hforward x y (mem_boxPoints.mp hx) (mem_boxPoints.mp hy) hlex hconflict)

/-- The points of a box with the loops in another order, all of them blocked. -/
def reorderedPoints (size : Int) (order : List Nat) (bounds : List Int) : List (List Int) :=
  (blockedPoints size (permuted order bounds)).map (permuted (inverse order))

variable {size : Int} {order : List Nat} (h : IsOrder bounds.length order)
include h

theorem inBox_permuted_iff {x : List Int} (hx : x.length = bounds.length) :
    InBox (permuted order bounds) (permuted order x) ↔ InBox bounds x :=
  forall₂_permuted_iff h hx.symm

theorem mem_reorderedPoints (hsize : 0 < size) {x : List Int} :
    x ∈ reorderedPoints size order bounds ↔ InBox bounds x := by
  rw [reorderedPoints, List.mem_map]
  simp only [mem_blockedPoints hsize]
  constructor
  · rintro ⟨y, hy, rfl⟩
    have hlength : y.length = bounds.length := by
      rw [← hy.length_eq, h.length_permuted]
    have hy' : IsOrder y.length order := hlength ▸ h
    rwa [← inBox_permuted_iff h (by rw [hy'.inverse.length_permuted, hlength]),
      hy'.permuted_permuted_inverse]
  · intro hx
    have hlength : x.length = bounds.length := hx.length_eq.symm
    have hx' : IsOrder x.length order := hlength ▸ h
    exact ⟨permuted order x, (inBox_permuted_iff h hlength).mpr hx, hx'.permuted_inverse⟩

theorem pairwise_reorderedPoints (hsize : 0 < size) :
    (reorderedPoints size order bounds).Pairwise fun x y => ¬ List.Forall₂ (· ≤ ·) y x := by
  rw [reorderedPoints, List.pairwise_map]
  apply List.Pairwise.imp_of_mem _ (pairwise_blockedPoints size (permuted order bounds))
  intro x y hx hy hxy hle
  have hx : x.length = bounds.length := by
    rw [← ((mem_blockedPoints hsize).mp hx).length_eq, h.length_permuted]
  have hy : y.length = bounds.length := by
    rw [← ((mem_blockedPoints hsize).mp hy).length_eq, h.length_permuted]
  have hinverse : IsOrder y.length (inverse order) := by
    rw [hy]
    exact h.inverse
  exact hxy ((forall₂_permuted_iff hinverse (hy.trans hx.symm)).mp hle)

/-- Every point of the box is visited exactly once. -/
theorem perm_reorderedPoints (hsize : 0 < size) :
    (boxPoints bounds).Perm (reorderedPoints size order bounds) := by
  rw [List.perm_ext_iff_of_nodup (nodup_boxPoints bounds)
    (nodup_of_pairwise_not_le (pairwise_reorderedPoints h hsize))]
  intro x
  rw [mem_boxPoints, mem_reorderedPoints h hsize]

end Orders

end Schedule
