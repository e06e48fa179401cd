/-
Loop interchange and blocking together.  Both are legal on a box when all
dependences go forward in every dimension.
-/
import PolyhedralPass.Schedule.Loops
import PolyhedralPass.Schedule.Reorder

namespace Schedule

section Exchange

variable {α β : Type}

/-- Two entries of a list change places. -/
def exchange (i j : Nat) (l : List α) : List α :=
  match l[i]?, l[j]? with
  | some a, some b => (l.set i b).set j a
  | _, _ => l

@[simp] theorem length_exchange (i j : Nat) (l : List α) : (exchange i j l).length = l.length := by
  unfold exchange
  split
  · simp
  · rfl

theorem getElem?_exchange {i j : Nat} {l : List α} (hi : i < l.length) (hj : j < l.length)
    (k : Nat) : (exchange i j l)[k]? = if k = j then l[i]? else if k = i then l[j]? else l[k]? := by
  have hset : exchange i j l = (l.set i l[j]).set j l[i] := by
    simp [exchange, hi, hj]
  rw [hset, List.getElem?_set, List.getElem?_set, List.length_set]
  by_cases hkj : k = j
  · subst hkj
    rw [if_pos rfl, if_pos rfl, if_pos hj, List.getElem?_eq_getElem hi]
  · rw [if_neg (Ne.symm hkj), if_neg hkj]
    by_cases hki : k = i
    · subst hki
      rw [if_pos rfl, if_pos rfl, if_pos hi, List.getElem?_eq_getElem hj]
    · rw [if_neg (Ne.symm hki), if_neg hki]

theorem exchange_map_range {i j n : Nat} (hi : i < n) (hj : j < n) (f : Nat → α) :
    exchange i j ((List.range n).map f) =
      (List.range n).map fun k => if k = j then f i else if k = i then f j else f k := by
  apply List.ext_getElem?
  intro k
  have hget : ∀ (g : Nat → α) {m : Nat}, m < n → ((List.range n).map g)[m]? = some (g m) := by
    intro g m hm
    simp [hm]
  rw [getElem?_exchange (by simpa using hi) (by simpa using hj)]
  by_cases hk : k < n
  · rw [hget f hi, hget f hj, hget f hk, hget _ hk]
    split_ifs <;> rfl
  · have hki : k ≠ i := by omega
    have hkj : k ≠ j := by omega
    simp [hki, hkj, hk]

theorem exchange_exchange {i j : Nat} {l : List α} (hi : i < l.length) (hj : j < l.length) :
    exchange i j (exchange i j l) = l := by
  have hlength := length_exchange i j l
  apply List.ext_getElem?
  intro k
  rw [getElem?_exchange (by omega) (by omega), getElem?_exchange hi hj, getElem?_exchange hi hj,
    getElem?_exchange hi hj]
  by_cases hkj : k = j
  · subst hkj
    rw [if_pos rfl]
    by_cases hik : i = k
    · subst hik
      rw [if_pos rfl]
    · rw [if_neg hik, if_pos rfl]
  · rw [if_neg hkj]
    by_cases hki : k = i
    · subst hki
      rw [if_pos rfl, if_pos rfl]
    · rw [if_neg hki, if_neg hki, if_neg hkj]

theorem forall₂_iff_getElem? {R : α → β → Prop} {a : List α} {b : List β} :
    List.Forall₂ R a b ↔ a.length = b.length ∧
      ∀ (k : Nat) (x : α) (y : β), a[k]? = some x → b[k]? = some y → R x y := by
  rw [List.forall₂_iff_get]
  constructor
  · rintro ⟨hlength, h⟩
    refine ⟨hlength, ?_⟩
    intro k x y hx hy
    obtain ⟨hk, rfl⟩ := List.getElem?_eq_some_iff.mp hx
    obtain ⟨hk', rfl⟩ := List.getElem?_eq_some_iff.mp hy
    exact h k hk hk'
  · rintro ⟨hlength, h⟩
    exact ⟨hlength, fun k hk hk' => h k _ _ (List.getElem?_eq_getElem hk)
      (List.getElem?_eq_getElem hk')⟩

/-- An exchange keeps what holds in every position. -/
theorem forall₂_exchange {R : α → β → Prop} {i j : Nat} {a : List α} {b : List β}
    (hi : i < a.length) (hj : j < a.length) (h : List.Forall₂ R a b) :
    List.Forall₂ R (exchange i j a) (exchange i j b) := by
  have hlength := h.length_eq
  rw [forall₂_iff_getElem?] at h ⊢
  refine ⟨by simp [hlength], ?_⟩
  intro k x y hx hy
  rw [getElem?_exchange hi hj] at hx
  rw [getElem?_exchange (by omega) (by omega)] at hy
  split_ifs at hx hy
  · exact h.2 i x y hx hy
  · exact h.2 j x y hx hy
  · exact h.2 k x y hx hy

theorem forall₂_exchange_iff {R : α → β → Prop} {i j : Nat} {a : List α} {b : List β}
    (hi : i < a.length) (hj : j < a.length) (hlength : a.length = b.length) :
    List.Forall₂ R (exchange i j a) (exchange i j b) ↔ List.Forall₂ R a b := by
  refine ⟨fun h => ?_, forall₂_exchange hi hj⟩
  have hback := forall₂_exchange (i := i) (j := j) (by simpa using hi) (by simpa using hj) h
  rwa [exchange_exchange hi hj, exchange_exchange (by omega) (by omega)] at hback

end Exchange

section Tiling

/-- The points of a box in the order of the loops behind an interchange and
blocking. -/
def tiledPoints (size : Int) (i j : Nat) (bounds : List Int) : List (List Int) :=
  (blockedPoints size (exchange i j bounds)).map (exchange i j)

variable {size : Int} {i j : Nat} {bounds : List Int}

theorem inBox_exchange (hi : i < bounds.length) (hj : j < bounds.length) {x : List Int} :
    InBox (exchange i j bounds) (exchange i j x) ↔ InBox bounds x := by
  constructor
  · intro h
    have hlength : bounds.length = x.length := by simpa using h.length_eq
    exact (forall₂_exchange_iff hi hj hlength).mp h
  · exact forall₂_exchange hi hj

theorem mem_tiledPoints (hsize : 0 < size) (hi : i < bounds.length) (hj : j < bounds.length)
    {x : List Int} : x ∈ tiledPoints size i j bounds ↔ InBox bounds x := by
  rw [tiledPoints, List.mem_map]
  simp only [mem_blockedPoints hsize]
  constructor
  · rintro ⟨y, hy, rfl⟩
    have hlength : bounds.length = y.length := by simpa using hy.length_eq
    rwa [← inBox_exchange hi hj, exchange_exchange (by omega) (by omega)]
  · intro hx
    have hlength : bounds.length = x.length := hx.length_eq
    exact ⟨exchange i j x, (inBox_exchange hi hj).mpr hx,
      exchange_exchange (by omega) (by omega)⟩

/-- The loops never visit a point after one that it is below. -/
theorem pairwise_tiledPoints (hsize : 0 < size) (hi : i < bounds.length) (hj : j < bounds.length) :
    (tiledPoints size i j bounds).Pairwise fun x y => ¬ List.Forall₂ (· ≤ ·) y x := by
  rw [tiledPoints, List.pairwise_map]
  apply List.Pairwise.imp_of_mem _ (pairwise_blockedPoints size (exchange i j bounds))
  intro x y hx hy hxy hle
  have hx : bounds.length = x.length := by
    simpa using ((mem_blockedPoints hsize).mp hx).length_eq
  have hy : bounds.length = y.length := by
    simpa using ((mem_blockedPoints hsize).mp hy).length_eq
  exact hxy ((forall₂_exchange_iff (by omega) (by omega) (by omega)).mp hle)

/-- Every point of the box is visited exactly once. -/
theorem perm_tiledPoints (hsize : 0 < size) (hi : i < bounds.length) (hj : j < bounds.length) :
    (boxPoints bounds).Perm (tiledPoints size i j bounds) := by
  rw [List.perm_ext_iff_of_nodup (nodup_boxPoints bounds)
    (nodup_of_pairwise_not_le (pairwise_tiledPoints hsize hi hj))]
  intro x
  rw [mem_boxPoints, mem_tiledPoints hsize hi hj]

variable {κ ν : Type} {effects : Effects (List Int) κ ν}

/-- Dependences that go forward in every dimension survive the interchange and
the blocking, so the memory does not change. -/
theorem run_tiledPoints (hsize : 0 < size) (hi : i < bounds.length) (hj : j < bounds.length)
    (hforward : ∀ x y, InBox bounds x → InBox bounds y → List.Lex (· < ·) x y →
      effects.Conflicts x y → List.Forall₂ (· ≤ ·) x y) (memory : κ → ν) :
    run effects.step (tiledPoints size i j bounds) memory =
      run effects.step (boxPoints bounds) memory := by
  symm
  apply Effects.run_eq_of_perm (perm_tiledPoints hsize hi hj) (pairwise_boxPoints bounds)
    (pairwise_tiledPoints hsize hi hj)
  intro x hx y hy hconflict hlex hlater
  exact hlater (hforward x y (mem_boxPoints.mp hx) (mem_boxPoints.mp hy) hlex hconflict)

end Tiling

end Schedule
