/-
One loop of a nest and a block inside it: the values of the induction variable with
which the loop gets to the block, and with which its tiles do.
-/
import PolyhedralPass.Coverage
import PolyhedralPass.Partition

namespace PolyhedralPass

open Relation Flow

section Gates

/-- The tile loop gets to a tile: its latch compares the start of each further one with the
bound. -/
def Predicate.HasTile (predicate : Predicate) (tileSize : Nat) (bound tile : Int) : Prop :=
  ∃ m : Nat, tile = m * tileSize ∧
    ∀ i < m, predicate.evalInt ((i + 1 : Nat) * tileSize : Int) bound = true

/-- The tile loop leaves. -/
def Predicate.TilesEnd (predicate : Predicate) (tileSize : Nat) (bound : Int) : Prop :=
  ∃ m : Nat, predicate.evalInt ((m + 1 : Nat) * tileSize : Int) bound = false

/-- The bound of the point loop in a tile. -/
@[grind =] def Predicate.clamp (predicate : Predicate) (tileSize : Nat) (bound tile : Int) : Int :=
  if predicate.evalInt (tile + tileSize) bound then tile + tileSize else bound

theorem Predicate.hasTile_zero (predicate : Predicate) (tileSize : Nat) (bound : Int) :
    predicate.HasTile tileSize bound 0 :=
  ⟨0, by simp, fun i hi => absurd hi (Nat.not_lt_zero i)⟩

theorem Predicate.hasTile_one {predicate : Predicate} {tileSize : Nat} {bound : Int}
    (h : predicate.evalInt tileSize bound = true) : predicate.HasTile tileSize bound tileSize := by
  refine ⟨1, by simp, fun i hi => ?_⟩
  obtain rfl := Nat.lt_one_iff.mp hi
  simpa using h

/-- A further tile has satisfied the predicate. -/
theorem Predicate.HasTile.start {predicate : Predicate} {tileSize : Nat} {bound tile : Int}
    (h : predicate.HasTile tileSize bound tile) :
    0 ≤ tile ∧ (tile = 0 ∨ predicate.evalInt tile bound = true) := by
  obtain ⟨m, rfl, hgo⟩ := h
  refine ⟨by positivity, ?_⟩
  cases m with
  | zero => simp
  | succ m => exact Or.inr (hgo m (Nat.lt_succ_self m))

/-- How a block of a loop stands to its test: the predicate, the outcome with which the
loop goes on, whether an iteration can go round the test, and whether the block is behind it. -/
structure Gate where
  predicate : Predicate
  polarity : Bool
  round : Prop
  behind : Prop

namespace Gate

variable (gate : Gate)

def GoesOn (bound iv : Int) : Prop := gate.predicate.evalInt iv bound = gate.polarity

/-- The loop gets from its start to the block in an iteration. -/
def Visits (start bound iv : Int) : Prop :=
  start ≤ iv ∧ (gate.round ∨ ∀ j, start ≤ j → j < iv → gate.GoesOn bound j) ∧
    (gate.behind → gate.GoesOn bound iv)

/-- The test fails sooner or later. -/
def Ends (start bound : Int) : Prop := ∃ iv, start ≤ iv ∧ ¬ gate.GoesOn bound iv

/-- The point loop of a tile gets to the block. -/
def TileVisits (tileSize : Nat) (bound tile iv : Int) : Prop :=
  gate.Visits tile (gate.predicate.clamp tileSize bound tile) iv

/-- A loop that ends never gets to the block. -/
def Dead : Prop :=
  ¬ gate.round ∧ gate.behind ∧
    match gate.predicate with
    | .slt | .ult | .sle | .ule => gate.polarity = false
    | .sgt | .ugt | .sge | .uge => gate.polarity = true
    | .eq | .ne => False

/-- The tiles get to the block as the loop does. -/
def Right : Prop :=
  gate.behind ∧
    match gate.predicate with
    | .slt | .ult => gate.polarity = true
    | .eq => gate.polarity = false ∧ ¬ gate.round
    | _ => False

variable {gate}

theorem Dead.not_visits (h : gate.Dead) {bound : Int} (hends : gate.Ends 0 bound) (iv : Int) :
    ¬ gate.Visits 0 bound iv := by
  obtain ⟨predicate, polarity, round, behind⟩ := gate
  obtain ⟨k, hk⟩ := hends
  obtain ⟨hround, hbehind, htable⟩ := h
  rintro ⟨hstart, hearlier, htest⟩
  cases predicate <;> simp only [GoesOn] at * <;> grind

/-- The tiles of a loop with a strict bound start in front of it. -/
theorem hasTile_iff_lt (hpredicate : gate.predicate = .slt ∨ gate.predicate = .ult)
    {tileSize : Nat} {bound tile : Int} : gate.predicate.HasTile tileSize bound tile ↔
      ∃ m : Nat, tile = (m * tileSize : Nat) ∧ (m = 0 ∨ ((m * tileSize : Nat) : Int) < bound) := by
  have hlt : ∀ a b : Int, gate.predicate.evalInt a b = true ↔ a < b := by
    intro a b
    rcases hpredicate with hpredicate | hpredicate <;> simp [hpredicate, Predicate.evalInt]
  constructor
  · rintro ⟨m, rfl, hgo⟩
    refine ⟨m, by push_cast; rfl, ?_⟩
    cases m with
    | zero => exact Or.inl rfl
    | succ m =>
        refine Or.inr ?_
        push_cast
        exact (hlt _ _).mp (hgo m (Nat.lt_succ_self m))
  · rintro ⟨m, rfl, hlast⟩
    refine ⟨m, by push_cast; rfl, fun i hi => (hlt _ _).mpr ?_⟩
    have hle := Nat.mul_le_mul_right tileSize (Nat.succ_le_of_lt hi)
    have hbound := hlast.resolve_left (Nat.ne_zero_of_lt hi)
    push_cast at hbound ⊢
    zify at hle
    omega

/-- A counter that goes on below its bound. -/
def CountsUp (gate : Gate) : Prop :=
  gate.behind ∧ (gate.predicate = .slt ∨ gate.predicate = .ult) ∧ gate.polarity = true

theorem CountsUp.visits_iff (h : gate.CountsUp) {start bound iv : Int} :
    gate.Visits start bound iv ↔ start ≤ iv ∧ iv < bound := by
  have hgoes : ∀ j, gate.GoesOn bound j ↔ j < bound := by
    intro j
    obtain ⟨_, hpredicate | hpredicate, hpolarity⟩ := h <;>
      simp [GoesOn, hpredicate, hpolarity, Predicate.evalInt]
  simp only [Visits, hgoes]
  constructor
  · rintro ⟨hstart, _, htest⟩
    exact ⟨hstart, htest h.1⟩
  · rintro ⟨hstart, htest⟩
    exact ⟨hstart, Or.inr fun j _ hj => hj.trans htest, fun _ => htest⟩

theorem CountsUp.clamp_eq_min (h : gate.CountsUp) (tileSize : Nat) (bound tile : Int) :
    gate.predicate.clamp tileSize bound tile = min (tile + tileSize) bound := by
  rw [Predicate.clamp]
  obtain ⟨_, hpredicate | hpredicate, _⟩ := h <;>
    simp only [hpredicate, decide_eq_true_eq, Predicate.evalInt] <;> omega

theorem CountsUp.tileVisits_iff (h : gate.CountsUp) {tileSize : Nat} {bound tile iv : Int} :
    gate.TileVisits tileSize bound tile iv ↔
      tile ≤ iv ∧ iv < tile + tileSize ∧ iv < bound := by
  rw [TileVisits, h.visits_iff, h.clamp_eq_min, lt_min_iff]

/-- The tiles get to the block with the same values, with each in only one of them. -/
structure Once (gate : Gate) (tileSize : Nat) (bound : Int) : Prop where
  visits : ∀ iv, gate.Visits 0 bound iv ↔
    ∃ tile, gate.predicate.HasTile tileSize bound tile ∧ gate.TileVisits tileSize bound tile iv
  unique : ∀ iv tile tile', gate.predicate.HasTile tileSize bound tile →
    gate.predicate.HasTile tileSize bound tile' → gate.TileVisits tileSize bound tile iv →
    gate.TileVisits tileSize bound tile' iv → tile = tile'

theorem CountsUp.once (h : gate.CountsUp) {tileSize : Nat} (hsize : 1 ≤ tileSize) (bound : Int) :
    gate.Once tileSize bound := by
  constructor
  · intro iv
    rw [h.visits_iff]
    constructor
    · rintro ⟨hstart, hiv⟩
      obtain ⟨n, rfl⟩ := Int.eq_ofNat_of_zero_le hstart
      have hle : n / tileSize * tileSize ≤ n := Nat.div_mul_le_self n tileSize
      have hlt : n < n / tileSize * tileSize + tileSize := Nat.lt_div_mul_add hsize
      refine ⟨(n / tileSize * tileSize : Nat), (hasTile_iff_lt h.2.1).mpr ⟨_, rfl, Or.inr ?_⟩,
        h.tileVisits_iff.mpr ?_⟩ <;> omega
    · rintro ⟨tile, htile, hvisits⟩
      obtain ⟨m, rfl, _⟩ := (hasTile_iff_lt h.2.1).mp htile
      obtain ⟨hle, _, hlt⟩ := h.tileVisits_iff.mp hvisits
      omega
  · intro iv tile tile' htile htile' hvisits hvisits'
    obtain ⟨m, rfl, _⟩ := (hasTile_iff_lt h.2.1).mp htile
    obtain ⟨m', rfl, _⟩ := (hasTile_iff_lt h.2.1).mp htile'
    rw [h.tileVisits_iff] at hvisits hvisits'
    have hdiv : ∀ k : Nat, ((k * tileSize : Nat) : Int) ≤ iv →
        iv < (k * tileSize : Nat) + tileSize → k = iv.toNat / tileSize := by
      intro k hle hlt
      refine (Nat.div_eq_of_lt_le ?_ ?_).symm
      · omega
      · rw [Nat.succ_mul]
        omega
    rw [hdiv m hvisits.1 hvisits.2.1, hdiv m' hvisits'.1 hvisits'.2.1]

theorem CountsUp.tilesEnd (h : gate.CountsUp) {tileSize : Nat} (hsize : 1 ≤ tileSize)
    (bound : Int) : gate.predicate.TilesEnd tileSize bound := by
  refine ⟨bound.toNat, ?_⟩
  have hle : bound.toNat ≤ bound.toNat * tileSize := Nat.le_mul_of_pos_right _ hsize
  have hlt : bound ≤ ((bound.toNat + 1 : Nat) * tileSize : Int) := by
    push_cast
    zify at hle
    rw [add_mul]
    omega
  obtain ⟨_, hpredicate | hpredicate, _⟩ := h <;> simpa [hpredicate, Predicate.evalInt] using hlt

/-- A counter that goes on until it meets its bound. -/
def CountsTo (gate : Gate) : Prop :=
  gate.behind ∧ gate.predicate = .eq ∧ gate.polarity = false ∧ ¬ gate.round

theorem CountsTo.visits_iff (h : gate.CountsTo) {start bound iv : Int} :
    gate.Visits start bound iv ↔ start ≤ iv ∧ (bound < start ∨ iv < bound) := by
  obtain ⟨hbehind, hpredicate, hpolarity, hround⟩ := h
  have hgoes : ∀ j, gate.GoesOn bound j ↔ j ≠ bound := by
    intro j
    simp [GoesOn, hpredicate, hpolarity, Predicate.evalInt]
  simp only [Visits, hgoes, hround, false_or]
  constructor
  · rintro ⟨hstart, hearlier, htest⟩
    refine ⟨hstart, ?_⟩
    by_contra hnot
    rcases lt_or_eq_of_le (show bound ≤ iv by omega) with hlt | rfl
    · exact hearlier bound (by omega) hlt rfl
    · exact htest hbehind rfl
  · rintro ⟨hstart, hbound⟩
    exact ⟨hstart, fun j hj hlt => by omega, fun _ => by omega⟩

/-- Its second tile starts at the bound, if there is one. -/
theorem CountsTo.hasTile (h : gate.CountsTo) {tileSize : Nat} (hsize : 1 ≤ tileSize)
    {bound tile : Int} (htile : gate.predicate.HasTile tileSize bound tile) :
    tile = 0 ∨ tile = tileSize ∧ bound = tileSize := by
  obtain ⟨m, rfl, hgo⟩ := htile
  have hmeets : ∀ i < m, ((i + 1 : Nat) * tileSize : Int) = bound := by
    intro i hi
    simpa [h.2.1, Predicate.evalInt] using hgo i hi
  match m with
  | 0 => simp
  | 1 =>
      have hfirst := hmeets 0 (by decide)
      simp at hfirst
      exact Or.inr ⟨by simp, hfirst.symm⟩
  | m + 2 =>
      have hfirst := hmeets 0 (by omega)
      have hsecond := hmeets 1 (by omega)
      push_cast at hfirst hsecond
      omega

theorem CountsTo.once (h : gate.CountsTo) {tileSize : Nat} (hsize : 1 ≤ tileSize) {bound : Int}
    (hends : gate.Ends 0 bound) : gate.Once tileSize bound := by
  have hbound : 0 ≤ bound := by
    obtain ⟨k, hk⟩ := hends
    simp only [GoesOn, h.2.1, h.2.2.1, Predicate.evalInt, decide_eq_false_iff_not, not_not] at hk
    omega
  have hclamp : ∀ tile, gate.predicate.clamp tileSize bound tile = bound := by
    intro tile
    rw [Predicate.clamp]
    simp only [h.2.1, decide_eq_true_eq, Predicate.evalInt]
    split_ifs with heq
    · exact heq
    · rfl
  constructor
  · intro iv
    simp only [TileVisits, hclamp, h.visits_iff]
    constructor
    · rintro ⟨hstart, hiv⟩
      exact ⟨0, gate.predicate.hasTile_zero _ _, hstart, hiv⟩
    · rintro ⟨tile, htile, hle, hiv⟩
      rcases h.hasTile hsize htile with rfl | ⟨rfl, rfl⟩
      · exact ⟨hle, hiv⟩
      · omega
  · intro iv tile tile' htile htile' hvisits hvisits'
    simp only [TileVisits, hclamp, h.visits_iff] at hvisits hvisits'
    rcases h.hasTile hsize htile with rfl | ⟨rfl, heq⟩ <;>
      rcases h.hasTile hsize htile' with rfl | ⟨rfl, heq'⟩ <;> omega

theorem CountsTo.tilesEnd (h : gate.CountsTo) {tileSize : Nat} (hsize : 1 ≤ tileSize)
    (bound : Int) : gate.predicate.TilesEnd tileSize bound := by
  by_cases hone : ((0 + 1 : Nat) * tileSize : Int) = bound
  · refine ⟨1, ?_⟩
    simp only [h.2.1, decide_eq_false_iff_not, Predicate.evalInt]
    push_cast at hone ⊢
    omega
  · exact ⟨0, by simpa [h.2.1, Predicate.evalInt] using hone⟩

theorem right_iff : gate.Right ↔ gate.CountsUp ∨ gate.CountsTo := by
  obtain ⟨predicate, polarity, round, behind⟩ := gate
  cases predicate <;> simp [Right, CountsUp, CountsTo]

theorem Right.once (h : gate.Right) {tileSize : Nat} (hsize : 1 ≤ tileSize) {bound : Int}
    (hends : gate.Ends 0 bound) : gate.Once tileSize bound := by
  rcases right_iff.mp h with h | h
  · exact h.once hsize bound
  · exact h.once hsize hends

theorem Right.tilesEnd (h : gate.Right) {tileSize : Nat} (hsize : 1 ≤ tileSize) (bound : Int) :
    gate.predicate.TilesEnd tileSize bound := by
  rcases right_iff.mp h with h | h
  · exact h.tilesEnd hsize bound
  · exact h.tilesEnd hsize bound

/-- A tile gets to the block with a value with which the loop does not, or another tile too. -/
def Extra (gate : Gate) (tileSize : Nat) (bound : Int) : Prop :=
  ∃ iv tile, gate.predicate.HasTile tileSize bound tile ∧ gate.TileVisits tileSize bound tile iv ∧
    (gate.Visits 0 bound iv → ∃ tile', tile' ≠ tile ∧ gate.predicate.HasTile tileSize bound tile' ∧
      gate.TileVisits tileSize bound tile' iv)

/-- What the point loop of a tile does, with the clamped bound. -/
@[grind =] theorem tileVisits_iff {tileSize : Nat} {bound tile iv : Int} :
    gate.TileVisits tileSize bound tile iv ↔ tile ≤ iv ∧
      (gate.round ∨ ∀ j, tile ≤ j → j < iv →
        gate.predicate.evalInt j (gate.predicate.clamp tileSize bound tile) = gate.polarity) ∧
      (gate.behind → gate.predicate.evalInt iv (gate.predicate.clamp tileSize bound tile) =
        gate.polarity) :=
  Iff.rfl

/-- A later iteration has the test of the first one behind it. -/
theorem Visits.goesOn {start bound iv : Int} (h : gate.Visits start bound iv) (hlt : start < iv) :
    gate.round ∨ gate.predicate.evalInt start bound = gate.polarity :=
  h.2.1.imp_right fun hearlier => hearlier start (le_refl start) hlt

section Extra

variable (gate)

theorem extra_of_lt (hpredicate : ∀ a b, gate.predicate.evalInt a b = decide (a < b))
    (hgate : ¬ gate.behind ∨ gate.polarity = false ∧ gate.round) :
    gate.Ends 0 2 ∧ gate.Extra 1 2 := by
  have hsecond : gate.predicate.HasTile 1 2 1 := Predicate.hasTile_one (by simp [hpredicate])
  constructor
  · exact ⟨if gate.polarity then 2 else 0, by grind [GoesOn]⟩
  · by_cases hbehind : gate.behind
    · exact ⟨1, 0, gate.predicate.hasTile_zero 1 2, by grind,
        by grind [Visits, GoesOn]⟩
    · exact ⟨1, 1, hsecond, by grind, fun hvisits =>
        ⟨0, by decide, gate.predicate.hasTile_zero 1 2, by grind [Visits, GoesOn]⟩⟩

theorem extra_of_le (hpredicate : ∀ a b, gate.predicate.evalInt a b = decide (a ≤ b))
    (hgate : gate.round ∨ ¬ gate.behind ∨ gate.polarity = true) :
    gate.Ends 0 1 ∧ gate.Extra 1 1 := by
  have hsecond : gate.predicate.HasTile 1 1 1 := Predicate.hasTile_one (by simp [hpredicate])
  constructor
  · exact ⟨if gate.polarity then 2 else 0, by grind [GoesOn]⟩
  · by_cases hlate : gate.behind ∧ gate.polarity = false
    · exact ⟨2, 1, hsecond, by grind, fun _ =>
        ⟨0, by decide, gate.predicate.hasTile_zero 1 1, by grind⟩⟩
    · exact ⟨1, 1, hsecond, by grind, fun hvisits =>
        ⟨0, by decide, gate.predicate.hasTile_zero 1 1, by grind [Visits, GoesOn]⟩⟩

theorem extra_of_gt (hpredicate : ∀ a b, gate.predicate.evalInt a b = decide (b < a))
    (hgate : gate.round ∨ ¬ gate.behind ∨ gate.polarity = false) :
    gate.Ends 0 0 ∧ gate.Extra 2 0 := by
  have hsecond : gate.predicate.HasTile 2 0 2 := Predicate.hasTile_one (by simp [hpredicate])
  constructor
  · exact ⟨if gate.polarity then 0 else 1, by grind [GoesOn]⟩
  · by_cases hpolarity : gate.polarity = true
    · by_cases hbehind : gate.behind
      · exact ⟨5, 2, hsecond, by grind, fun _ =>
          ⟨0, by decide, gate.predicate.hasTile_zero 2 0, by grind⟩⟩
      · exact ⟨2, 2, hsecond, by grind, fun hvisits =>
          ⟨0, by decide, gate.predicate.hasTile_zero 2 0, by grind [hvisits.goesOn]⟩⟩
    · exact ⟨2, 0, gate.predicate.hasTile_zero 2 0, by grind, fun hvisits =>
        ⟨2, by decide, hsecond, by grind [Visits, GoesOn]⟩⟩

theorem extra_of_ge (hpredicate : ∀ a b, gate.predicate.evalInt a b = decide (b ≤ a))
    (hgate : gate.round ∨ ¬ gate.behind ∨ gate.polarity = false) :
    gate.Ends 0 1 ∧ gate.Extra 2 1 := by
  have hsecond : gate.predicate.HasTile 2 1 2 := Predicate.hasTile_one (by simp [hpredicate])
  constructor
  · exact ⟨if gate.polarity then 0 else 1, by grind [GoesOn]⟩
  · by_cases hpolarity : gate.polarity = true
    · by_cases hbehind : gate.behind
      · exact ⟨4, 2, hsecond, by grind, fun _ =>
          ⟨0, by decide, gate.predicate.hasTile_zero 2 1, by grind⟩⟩
      · exact ⟨2, 2, hsecond, by grind, fun hvisits =>
          ⟨0, by decide, gate.predicate.hasTile_zero 2 1, by grind [hvisits.goesOn]⟩⟩
    · by_cases hbehind : gate.behind
      · exact ⟨1, 0, gate.predicate.hasTile_zero 2 1, by grind,
          by grind [Visits, GoesOn]⟩
      · exact ⟨2, 0, gate.predicate.hasTile_zero 2 1, by grind, fun hvisits =>
          ⟨2, by decide, hsecond, by grind [Visits, GoesOn]⟩⟩

theorem extra_of_eq (hpredicate : ∀ a b, gate.predicate.evalInt a b = decide (a = b))
    (hgate : gate.round ∨ ¬ gate.behind ∨ gate.polarity = true) :
    gate.Ends 0 1 ∧ gate.Extra 1 1 := by
  have hsecond : gate.predicate.HasTile 1 1 1 := Predicate.hasTile_one (by simp [hpredicate])
  constructor
  · exact ⟨if gate.polarity then 0 else 1, by grind [GoesOn]⟩
  · by_cases hlate : gate.behind ∧ gate.polarity = false
    · exact ⟨2, 1, hsecond, by grind, fun _ =>
        ⟨0, by decide, gate.predicate.hasTile_zero 1 1, by grind⟩⟩
    · exact ⟨1, 1, hsecond, by grind, fun hvisits =>
        ⟨0, by decide, gate.predicate.hasTile_zero 1 1, by grind [Visits, GoesOn]⟩⟩

theorem extra_of_ne (hpredicate : ∀ a b, gate.predicate.evalInt a b = decide (a ≠ b))
    (hgate : ¬ gate.behind ∨ gate.polarity = true) : gate.Ends 0 1 ∧ gate.Extra 2 1 := by
  have hsecond : gate.predicate.HasTile 2 1 2 := Predicate.hasTile_one (by simp [hpredicate])
  constructor
  · exact ⟨if gate.polarity then 1 else 0, by grind [GoesOn]⟩
  · by_cases hbehind : gate.behind
    · exact ⟨1, 0, gate.predicate.hasTile_zero 2 1, by grind,
        by grind [Visits, GoesOn]⟩
    · exact ⟨2, 2, hsecond, by grind, fun hvisits =>
        ⟨0, by decide, gate.predicate.hasTile_zero 2 1, by grind [hvisits.goesOn]⟩⟩

end Extra

/-- The first tile gets to a block behind the test while the counter differs from its bound,
but not with the value with which the loop does. -/
def Lost (gate : Gate) : Prop :=
  gate.behind ∧ gate.predicate = .ne ∧ gate.polarity = false

theorem Lost.not_tileVisits (h : gate.Lost) {tileSize : Nat} (hsize : 1 ≤ tileSize) {tile : Int}
    (htile : gate.predicate.HasTile tileSize 0 tile) : ¬ gate.TileVisits tileSize 0 tile 0 := by
  obtain ⟨hbehind, hpredicate, hpolarity⟩ := h
  obtain ⟨m, rfl, _⟩ := htile
  have hnonneg : (0 : Int) ≤ m * tileSize := by positivity
  grind 

theorem Lost.visits (h : gate.Lost) : gate.Ends 0 0 ∧ gate.Visits 0 0 0 := by
  obtain ⟨_, hpredicate, hpolarity⟩ := h
  exact ⟨⟨1, by grind [GoesOn]⟩, by grind [Visits, GoesOn]⟩

/-- Every other loop whose tiles are not right has a tile that gets too often to the block. -/
theorem exists_extra (hlive : ¬ gate.Dead) (hlost : ¬ gate.Lost) (hright : ¬ gate.Right) :
    ∃ tileSize bound, (tileSize = 1 ∨ tileSize = 2) ∧ gate.Ends 0 bound ∧
      gate.Extra tileSize bound := by
  obtain ⟨predicate, polarity, round, behind⟩ := gate
  cases predicate with
  | slt | ult =>
      refine ⟨1, 2, Or.inl rfl, extra_of_lt _ (fun _ _ => rfl) ?_⟩
      grind [Dead, Right]
  | sle | ule =>
      refine ⟨1, 1, Or.inl rfl, extra_of_le _ (fun _ _ => rfl) ?_⟩
      grind [Dead]
  | sgt | ugt =>
      refine ⟨2, 0, Or.inr rfl, extra_of_gt _ (fun _ _ => rfl) ?_⟩
      grind [Dead]
  | sge | uge =>
      refine ⟨2, 1, Or.inr rfl, extra_of_ge _ (fun _ _ => rfl) ?_⟩
      grind [Dead]
  | eq =>
      refine ⟨1, 1, Or.inl rfl, extra_of_eq _ (fun _ _ => rfl) ?_⟩
      grind [Right]
  | ne =>
      refine ⟨2, 1, Or.inr rfl, extra_of_ne _ (fun _ _ => rfl) ?_⟩
      grind [Lost]

/-- A bound with which a loop and its tiles come to an end. -/
def shortBound (gate : Gate) : Int :=
  match gate.predicate with
  | .slt | .ult => 1
  | .sle | .ule => 0
  | .sgt | .ugt => 2
  | .sge | .uge => 3
  | .eq => if gate.polarity then 0 else 1
  | .ne => 2

theorem ends_shortBound (gate : Gate) : gate.Ends 0 gate.shortBound := by
  obtain ⟨predicate, polarity, round, behind⟩ := gate
  by_contra hnever
  simp only [Ends, not_exists, GoesOn, shortBound] at hnever
  have hsmall := hnever 0
  have hlarge := hnever 3
  have hone := hnever 1
  have htwo := hnever 2
  cases predicate <;> cases polarity <;> simp [Predicate.evalInt] at *

theorem tilesEnd_shortBound (gate : Gate) {tileSize : Nat} (hsize : tileSize = 1 ∨ tileSize = 2) :
    gate.predicate.TilesEnd tileSize gate.shortBound := by
  obtain ⟨predicate, polarity, round, behind⟩ := gate
  by_contra hnever
  simp only [Predicate.TilesEnd, not_exists, shortBound] at hnever
  have hfirst := hnever 0
  have hsecond := hnever 1
  rcases hsize with rfl | rfl <;> cases predicate <;> cases polarity <;>
    simp [Predicate.evalInt] at *

/-- The first tile and the loop get to the block together. -/
theorem exists_visits (hlive : ¬ gate.Dead) (hlost : ¬ gate.Lost) {tileSize : Nat}
    (hsize : tileSize = 1 ∨ tileSize = 2) : ∃ iv, gate.Visits 0 gate.shortBound iv ∧
      gate.TileVisits tileSize gate.shortBound 0 iv := by
  -- a loop that gets to the block only round its test does so with a later value
  let first : Int :=
    match gate.predicate with
    | .slt | .ult | .sle | .ule => if gate.polarity then 0 else 1
    | .sgt | .ugt | .sge | .uge => if gate.polarity then 3 else 0
    | .eq | .ne => 0
  by_cases hbehind : gate.behind
  · refine ⟨first, ?_, ?_⟩
    · grind [Visits, GoesOn, Dead, Lost, shortBound]
    · grind [Predicate.evalInt, Dead, Lost, shortBound]
  · exact ⟨0, by grind [Visits], by grind⟩

/-- The point loop of a tile ends where the loop does. -/
theorem Ends.tile {tileSize : Nat} (hsize : 1 ≤ tileSize) {bound tile : Int}
    (h : gate.Ends 0 bound) (htile : gate.predicate.HasTile tileSize bound tile) :
    gate.Ends tile (gate.predicate.clamp tileSize bound tile) := by
  obtain ⟨predicate, polarity, round, behind⟩ := gate
  obtain ⟨iv, hstart, hfails⟩ := h
  have hfirst := htile.start
  by_contra hnever
  simp only [Ends, not_exists, not_and, not_not, GoesOn] at hnever hfails
  have hsmall := hnever tile (le_refl tile)
  have hmeets := hnever (predicate.clamp tileSize bound tile)
  have hlarge := hnever (max tile (predicate.clamp tileSize bound tile) + 1) (by omega)
  cases predicate <;> cases polarity <;> grind

/-- With some bound a loop that ends has two tiles of size one. -/
theorem exists_two_tiles (gate : Gate) :
    ∃ bound, gate.Ends 0 bound ∧ gate.predicate.HasTile 1 bound 1 := by
  obtain ⟨predicate, polarity, round, behind⟩ := gate
  let bound : Int :=
    match predicate with
    | .slt | .ult | .ne => 2
    | .sle | .ule | .sge | .uge | .eq => 1
    | .sgt | .ugt => 0
  refine ⟨bound, ?_, @Predicate.hasTile_one predicate 1 _ ?_⟩
  · by_contra hnever
    simp only [Ends, not_exists, GoesOn] at hnever
    have hsmall := hnever 0
    have hone := hnever 1
    have hlarge := hnever 2
    cases predicate <;> cases polarity <;> simp [Predicate.evalInt, bound] at *
  · cases predicate <;> rfl

end Gate

end Gates

section Levels

/-- The loops of a nest, of which the outer ones are around a block: with which values a
loop gets from its start to the next one, or to the block, and whether it ends. -/
structure Levels (depth : Nat) where
  level : Nat
  predicate : Fin depth → Predicate
  visits : Fin depth → Int → Int → Int → Prop
  ends : Fin depth → Int → Int → Prop

namespace Levels

variable {depth : Nat} (nest : Levels depth) (tileSize : Nat) (bounds tiles : Fin depth → Int)

/-- The block is executed with some values of the induction variables.  A loop gets to a
further iteration once the loops inside it end. -/
def Executes (starts bounds x : Fin depth → Int) : Prop :=
  ∀ i : Fin depth, i < nest.level → nest.visits i (starts i) (bounds i) (x i) ∧
    (x i = starts i ∨ ∀ j, i < j → nest.ends j (starts j) (bounds j))

/-- The tile loops get to a tile of every loop. -/
def HasTiles : Prop :=
  ∀ i, (nest.predicate i).HasTile tileSize (bounds i) (tiles i) ∧
    (tiles i = 0 ∨ ∀ j, i < j → (nest.predicate j).TilesEnd tileSize (bounds j))

/-- The bounds of the point loops. -/
def clamps (i : Fin depth) : Int := (nest.predicate i).clamp tileSize (bounds i) (tiles i)

/-- All loops end. -/
def Finite : Prop := ∀ i, nest.ends i 0 (bounds i)

/-- The block is executed for some bounds. -/
def Executed : Prop := ∃ bounds x, nest.Finite bounds ∧ nest.Executes (fun _ => 0) bounds x

/-- Behind tiling the block is executed for the same values, and with each of them once. -/
structure KeepsExecutions : Prop where
  executes : ∀ tileSize bounds, 1 ≤ tileSize → nest.Finite bounds → ∀ x,
    nest.Executes (fun _ => 0) bounds x ↔ ∃ tiles, nest.HasTiles tileSize bounds tiles ∧
      nest.Executes tiles (nest.clamps tileSize bounds tiles) x
  once : ∀ tileSize bounds, 1 ≤ tileSize → nest.Finite bounds → ∀ x tiles tiles',
    nest.HasTiles tileSize bounds tiles → nest.HasTiles tileSize bounds tiles' →
    nest.Executes tiles (nest.clamps tileSize bounds tiles) x →
    nest.Executes tiles' (nest.clamps tileSize bounds tiles') x → tiles = tiles'

/-- Two views of the loops that tell the same of those around the block. -/
structure Agree (nest nest' : Levels depth) : Prop where
  level_eq : nest'.level = nest.level
  predicate_eq : nest'.predicate = nest.predicate
  ends_eq : nest'.ends = nest.ends
  visits_iff : ∀ i : Fin depth, i < nest.level → ∀ start bound iv,
    nest'.visits i start bound iv ↔ nest.visits i start bound iv

variable {nest} {nest' : Levels depth}

theorem Agree.executes_eq (h : nest.Agree nest') : nest'.Executes = nest.Executes := by
  funext starts bounds x
  simp only [Executes, h.level_eq, h.ends_eq]
  refine propext (forall_congr' fun i => imp_congr_right fun hi => ?_)
  rw [h.visits_iff i hi]

theorem Agree.hasTiles_eq (h : nest.Agree nest') : nest'.HasTiles = nest.HasTiles := by
  funext tileSize bounds tiles
  simp only [HasTiles, h.predicate_eq]

theorem Agree.clamps_eq (h : nest.Agree nest') : nest'.clamps = nest.clamps := by
  funext tileSize bounds tiles i
  simp only [clamps, h.predicate_eq]

theorem Agree.finite_eq (h : nest.Agree nest') : nest'.Finite = nest.Finite := by
  funext bounds
  simp only [Finite, h.ends_eq]

theorem Agree.executed_iff (h : nest.Agree nest') : nest'.Executed ↔ nest.Executed := by
  simp only [Executed, h.executes_eq, h.finite_eq]

theorem Agree.keepsExecutions_iff (h : nest.Agree nest') :
    nest'.KeepsExecutions ↔ nest.KeepsExecutions := by
  constructor
  · rintro ⟨hexecutes, honce⟩
    rw [h.executes_eq, h.hasTiles_eq, h.clamps_eq, h.finite_eq] at hexecutes honce
    exact ⟨hexecutes, honce⟩
  · rintro ⟨hexecutes, honce⟩
    rw [← h.executes_eq, ← h.hasTiles_eq, ← h.clamps_eq, ← h.finite_eq] at hexecutes honce
    exact ⟨hexecutes, honce⟩

end Levels

variable {depth : Nat}

/-- Loops that are given by how the next one, or the block, stands to their tests. -/
def gatedLevels (level : Nat) (gates : Fin depth → Gate) : Levels depth where
  level := level
  predicate i := (gates i).predicate
  visits i := (gates i).Visits
  ends i := (gates i).Ends

variable {level : Nat} {gates : Fin depth → Gate} {tileSize : Nat} {bounds : Fin depth → Int}

theorem executes_of_ends {starts x : Fin depth → Int}
    (hvisits : ∀ i : Fin depth, i < level → (gates i).Visits (starts i) (bounds i) (x i))
    (hends : ∀ i, (gates i).Ends (starts i) (bounds i)) :
    (gatedLevels level gates).Executes starts bounds x :=
  fun i hi => ⟨hvisits i hi, Or.inr fun j _ => hends j⟩

/-- The point loops of all tiles end. -/
theorem executes_tiles {tiles x : Fin depth → Int} (hsize : 1 ≤ tileSize)
    (hfinite : (gatedLevels level gates).Finite bounds)
    (htiles : (gatedLevels level gates).HasTiles tileSize bounds tiles)
    (hvisits : ∀ i : Fin depth, i < level →
      (gates i).TileVisits tileSize (bounds i) (tiles i) (x i)) :
    (gatedLevels level gates).Executes tiles
      ((gatedLevels level gates).clamps tileSize bounds tiles) x :=
  executes_of_ends hvisits fun i => (hfinite i).tile hsize (htiles i).1

theorem keepsExecutions_of_right (hgates : ∀ i, (gates i).Right) :
    (gatedLevels depth gates).KeepsExecutions := by
  constructor
  · intro tileSize bounds hsize hfinite x
    have honce : ∀ i, (gates i).Once tileSize (bounds i) :=
      fun i => (hgates i).once hsize (hfinite i)
    constructor
    · intro hexecutes
      choose tiles htile hvisits using fun i =>
        ((honce i).visits (x i)).mp (hexecutes i i.isLt).1
      have hhas : (gatedLevels depth gates).HasTiles tileSize bounds tiles :=
        fun i => ⟨htile i, Or.inr fun j _ => (hgates j).tilesEnd hsize _⟩
      exact ⟨tiles, hhas, executes_tiles hsize hfinite hhas fun i _ => hvisits i⟩
    · rintro ⟨tiles, htiles, hexecutes⟩
      refine executes_of_ends (fun i _ => ?_) hfinite
      exact ((honce i).visits (x i)).mpr ⟨tiles i, (htiles i).1, (hexecutes i i.isLt).1⟩
  · intro tileSize bounds hsize hfinite x tiles tiles' htiles htiles' hexecutes hexecutes'
    funext i
    exact ((hgates i).once hsize (hfinite i)).unique (x i) (tiles i) (tiles' i)
      (htiles i).1 (htiles' i).1 (hexecutes i i.isLt).1 (hexecutes' i i.isLt).1

/-- The bounds of loops that are short, but for one of them. -/
theorem finite_update {i : Fin depth} {bound : Int} (hends : (gates i).Ends 0 bound) :
    (gatedLevels level gates).Finite
      (Function.update (fun j => (gates j).shortBound) i bound) := by
  intro j
  by_cases heq : j = i
  · subst heq
    simpa [gatedLevels] using hends
  · simpa [gatedLevels, heq] using (gates j).ends_shortBound

theorem hasTiles_update {i : Fin depth} {bound tile : Int}
    (hsize : tileSize = 1 ∨ tileSize = 2)
    (htile : (gates i).predicate.HasTile tileSize bound tile) :
    (gatedLevels level gates).HasTiles tileSize
      (Function.update (fun j => (gates j).shortBound) i bound)
      (Function.update (fun _ => 0) i tile) := by
  intro j
  by_cases heq : j = i
  · subst heq
    refine ⟨by simpa [gatedLevels] using htile, Or.inr fun k hk => ?_⟩
    simpa [gatedLevels, hk.ne'] using (gates k).tilesEnd_shortBound hsize
  · exact ⟨by simpa [gatedLevels, heq] using Predicate.hasTile_zero _ _ _, Or.inl (by simp [heq])⟩

/-- Loops that get to the block in their first tile, but for one of them. -/
theorem executes_update {i : Fin depth} {bound tile iv : Int}
    (hsize : tileSize = 1 ∨ tileSize = 2) (hends : (gates i).Ends 0 bound)
    (htile : (gates i).predicate.HasTile tileSize bound tile) {x : Fin depth → Int}
    (hvisits : i < level → (gates i).TileVisits tileSize bound tile iv)
    (hothers : ∀ j : Fin depth, j < level →
      (gates j).TileVisits tileSize (gates j).shortBound 0 (x j)) :
    (gatedLevels level gates).Executes (Function.update (fun _ => 0) i tile)
      ((gatedLevels level gates).clamps tileSize
        (Function.update (fun j => (gates j).shortBound) i bound)
        (Function.update (fun _ => 0) i tile)) (Function.update x i iv) := by
  refine executes_tiles (by omega) (finite_update hends) (hasTiles_update hsize htile) ?_
  intro j hj
  by_cases heq : j = i
  · subst heq
    simpa using hvisits hj
  · simpa [heq] using hothers j hj

/-- Every loop ends for some bound, with which it gets to the block if it ever does. -/
theorem Gate.exists_sample (gate : Gate) : ∃ bound iv, gate.Ends 0 bound ∧
    (¬ gate.Dead → gate.Visits 0 bound iv) ∧ (gate.Lost → bound = 0 ∧ iv = 0) := by
  by_cases hlost : gate.Lost
  · obtain ⟨hends, hvisits⟩ := hlost.visits
    exact ⟨0, 0, hends, fun _ => hvisits, fun _ => ⟨rfl, rfl⟩⟩
  · by_cases hdead : gate.Dead
    · exact ⟨gate.shortBound, 0, gate.ends_shortBound, fun hlive => absurd hdead hlive,
        fun h => absurd h hlost⟩
    · obtain ⟨iv, hvisits, _⟩ := Gate.exists_visits hdead hlost (Or.inl rfl)
      exact ⟨gate.shortBound, iv, gate.ends_shortBound, fun _ => hvisits, fun h => absurd h hlost⟩

/-- A block that no dead loop is around is executed. -/
theorem executed_iff : (gatedLevels level gates).Executed ↔
    ∀ i : Fin depth, i < level → ¬ (gates i).Dead := by
  constructor
  · rintro ⟨bounds, x, hfinite, hexecutes⟩ i hi hdead
    exact hdead.not_visits (hfinite i) (x i) (hexecutes i hi).1
  · intro hlive
    choose bounds x hends hvisits _ using fun i => (gates i).exists_sample
    exact ⟨bounds, x, hends, executes_of_ends (fun i hi => hvisits i (hlive i hi)) hends⟩

section Live

variable (hlive : ∀ i : Fin depth, i < level → ¬ (gates i).Dead)

include hlive

/-- No tile loses the iteration of a loop. -/
theorem Levels.KeepsExecutions.not_lost (h : (gatedLevels level gates).KeepsExecutions)
    (i : Fin depth) (hi : i < level) : ¬ (gates i).Lost := by
  intro hlost
  choose bounds x hends hvisits hzero using fun i => (gates i).exists_sample
  obtain ⟨tiles, htiles, hexecutes⟩ := (h.executes 1 bounds (le_refl 1) hends x).mp
    (executes_of_ends (fun i hi => hvisits i (hlive i hi)) hends)
  have htile := (htiles i).1
  have htileVisits := (hexecutes i hi).1
  simp only [gatedLevels, Levels.clamps, (hzero i hlost).1, (hzero i hlost).2] at htile htileVisits
  exact hlost.not_tileVisits (le_refl 1) htile htileVisits

/-- The values with which the loops get to a block in their first tiles. -/
theorem exists_firstVisits (hlost : ∀ i : Fin depth, i < level → ¬ (gates i).Lost)
    (hsize : tileSize = 1 ∨ tileSize = 2) : ∃ x : Fin depth → Int, ∀ i : Fin depth, i < level →
      (gates i).TileVisits tileSize (gates i).shortBound 0 (x i) := by
  have hvisits : ∀ i : Fin depth, ∃ iv, i < level →
      (gates i).TileVisits tileSize (gates i).shortBound 0 iv := by
    intro i
    by_cases hi : i < level
    · obtain ⟨iv, _, hvisits⟩ := Gate.exists_visits (hlive i hi) (hlost i hi) hsize
      exact ⟨iv, fun _ => hvisits⟩
    · exact ⟨0, fun h => absurd h hi⟩
  choose x hx using hvisits
  exact ⟨x, hx⟩

/-- A block outside an inner loop is executed again in each of its tiles. -/
theorem Levels.KeepsExecutions.le_level (h : (gatedLevels level gates).KeepsExecutions) :
    depth ≤ level := by
  by_contra hlt
  let inner : Fin depth := ⟨level, Nat.lt_of_not_le hlt⟩
  obtain ⟨x, hx⟩ := exists_firstVisits hlive (h.not_lost hlive) (Or.inl rfl)
  obtain ⟨bound, hends, htile⟩ := (gates inner).exists_two_tiles
  have hnone : ∀ tile, inner < level → (gates inner).TileVisits 1 bound tile (x inner) :=
    fun _ h => absurd h (lt_irrefl level)
  have hzero := Predicate.hasTile_zero (gates inner).predicate 1 bound
  have htiles := h.once 1 _ (le_refl 1) (finite_update hends) _ _ _
    (hasTiles_update (Or.inl rfl) hzero) (hasTiles_update (Or.inl rfl) htile)
    (executes_update (Or.inl rfl) hends hzero (hnone 0) hx)
    (executes_update (Or.inl rfl) hends htile (hnone 1) hx)
  have hsame := congrFun htiles inner
  simp at hsame

theorem Levels.KeepsExecutions.right (h : (gatedLevels level gates).KeepsExecutions)
    (i : Fin depth) (hi : i < level) : (gates i).Right := by
  by_contra hright
  have hlost := h.not_lost hlive
  obtain ⟨tileSize, bound, hsize, hends, iv, tile, htile, hvisits, hextra⟩ :=
    Gate.exists_extra (hlive i hi) (hlost i hi) hright
  obtain ⟨x, hx⟩ := exists_firstVisits hlive hlost hsize
  have hsize' : 1 ≤ tileSize := by omega
  have hexecutes := executes_update hsize hends htile (fun _ => hvisits) hx
  have horiginal := (h.executes tileSize _ hsize' (finite_update hends) _).mpr
    ⟨_, hasTiles_update hsize htile, hexecutes⟩
  have hvisits' : (gates i).Visits 0 bound iv := by
    simpa [gatedLevels] using (horiginal i hi).1
  -- the loop itself or a second tile gets there too
  obtain ⟨tile', hne, htile', hvisits''⟩ := hextra hvisits'
  have htiles := h.once tileSize _ hsize' (finite_update hends) _ _ _
    (hasTiles_update hsize htile) (hasTiles_update hsize htile') hexecutes
    (executes_update hsize hends htile' (fun _ => hvisits'') hx)
  have hsame := congrFun htiles i
  simp only [Function.update_self] at hsame
  exact hne hsame.symm

/-- Tiling keeps the executions of a block exactly where it is in all of the loops and the
tiles of each are right. -/
theorem keepsExecutions_iff (hlevel : level ≤ depth) :
    (gatedLevels level gates).KeepsExecutions ↔ level = depth ∧ ∀ i, (gates i).Right := by
  constructor
  · intro h
    obtain rfl := le_antisymm hlevel (h.le_level hlive)
    exact ⟨rfl, fun i => h.right hlive i i.isLt⟩
  · rintro ⟨rfl, hright⟩
    exact keepsExecutions_of_right hright

end Live

end Levels

end PolyhedralPass
