import Cafe.Coverage
import Mathlib.Analysis.SpecialFunctions.Sqrt

/-!
# RSUs along a road

RSUs stand in a row at equal spacing, on one side of the road, on alternating
sides or in the middle. Over the real numbers each strategy has a spacing up
to which the road between the RSUs is in reach of one of them.
-/

namespace Cafe

/-! ## A row of stations -/

section Row

variable {r d y₀ y₁ : ℝ}

/-- How far along the road a station reaches at the offset `a`. -/
noncomputable def reach (r a : ℝ) : ℝ := √(r ^ 2 - a ^ 2)

theorem reach_nonneg (r a : ℝ) : 0 ≤ reach r a := Real.sqrt_nonneg _

theorem reach_neg (r a : ℝ) : reach r (-a) = reach r a := by
  rw [reach, reach, neg_sq]

theorem reach_zero (hr : 0 ≤ r) : reach r 0 = r := by
  rw [reach, zero_pow two_ne_zero, sub_zero, Real.sqrt_sq hr]

theorem sq_reach {a : ℝ} (ha : |a| ≤ r) : reach r a ^ 2 = r ^ 2 - a ^ 2 :=
  Real.sq_sqrt (sub_nonneg.mpr (sq_le_sq' (by linarith [neg_abs_le a]) ((le_abs_self a).trans ha)))

theorem reach_le {a b : ℝ} (hab : a ^ 2 ≤ b ^ 2) : reach r b ≤ reach r a :=
  Real.sqrt_le_sqrt (sub_le_sub_left hab _)

theorem distance_le_iff {p q : Point ℝ} (h : |p.y - q.y| ≤ r) :
    q.distanceFromPoint p ≤ r ↔ |p.x - q.x| ≤ reach r (p.y - q.y) := by
  have hr : 0 ≤ r := (abs_nonneg _).trans h
  have hsq := sq_reach h
  change √((q.x - p.x) ^ 2 + (q.y - p.y) ^ 2) ≤ r ↔ _
  rw [Real.sqrt_le_left hr, ← sq_le_sq₀ (abs_nonneg _) (reach_nonneg _ _), sq_abs, hsq]
  constructor
  · intro hle
    nlinarith only [hle]
  · intro hle
    nlinarith only [hle]

/-- The station `k` of a row with the sides `y₀` and `y₁` in turn. -/
noncomputable def station (d y₀ y₁ : ℝ) (k : ℕ) : Point ℝ := ⟨k * d, if Even k then y₀ else y₁⟩

@[simp] theorem station_x (d y₀ y₁ : ℝ) (k : ℕ) : (station d y₀ y₁ k).x = k * d := rfl

theorem station_y (d y₀ y₁ : ℝ) (k : ℕ) : (station d y₀ y₁ k).y = if Even k then y₀ else y₁ := rfl

/-- Two neighbours stand on the two sides. -/
theorem reach_pair (y : ℝ) (k : ℕ) :
    reach r (y - (station d y₀ y₁ k).y) + reach r (y - (station d y₀ y₁ (k + 1)).y) =
      reach r (y - y₀) + reach r (y - y₁) := by
  rw [station_y, station_y]
  by_cases hk : Even k
  · rw [if_pos hk, if_neg (Nat.not_even_iff_odd.mpr hk.add_one)]
  · rw [if_neg hk, if_pos (Nat.not_even_iff_odd.mp hk).add_one, add_comm]

/-- Between two stations whose reaches meet, one of them is in reach. -/
theorem exists_station (hd : 0 < d) {p : Point ℝ} (h₀ : |p.y - y₀| ≤ r) (h₁ : |p.y - y₁| ≤ r)
    (hmeet : d ≤ reach r (p.y - y₀) + reach r (p.y - y₁)) {n : ℕ} (hx : 0 ≤ p.x)
    (hn : p.x ≤ n * d) : ∃ k ≤ n, (station d y₀ y₁ k).distanceFromPoint p ≤ r := by
  have hside : ∀ k, |p.y - (station d y₀ y₁ k).y| ≤ r := by
    intro k
    rw [station_y]
    split
    · exact h₀
    · exact h₁
  have hiff := fun k => distance_le_iff (hside k)
  simp only [station_x] at hiff
  rcases hn.lt_or_eq with hlt | heq
  · have hk : ⌊p.x / d⌋₊ + 1 ≤ n := by
      rw [Nat.succ_le_iff, Nat.floor_lt (div_nonneg hx hd.le), div_lt_iff₀ hd]
      exact hlt
    have hlow : (⌊p.x / d⌋₊ : ℝ) * d ≤ p.x := (le_div_iff₀ hd).mp (Nat.floor_le (by positivity))
    have hhigh : p.x < (⌊p.x / d⌋₊ + 1) * d := (div_lt_iff₀ hd).mp (Nat.lt_floor_add_one _)
    generalize ⌊p.x / d⌋₊ = k at hk hlow hhigh
    rw [← reach_pair (d := d) p.y k] at hmeet
    by_cases hnear : p.x - k * d ≤ reach r (p.y - (station d y₀ y₁ k).y)
    · refine ⟨k, by omega, (hiff k).mpr ?_⟩
      rwa [abs_of_nonneg (sub_nonneg.mpr hlow)]
    · refine ⟨k + 1, hk, (hiff (k + 1)).mpr ?_⟩
      push_cast
      rw [abs_of_nonpos (by linarith)]
      linarith
  · refine ⟨n, le_rfl, (hiff n).mpr ?_⟩
    rw [heq, sub_self, abs_zero]
    exact reach_nonneg _ _

/-- Where the reaches of two neighbours do not meet, no station is in reach. -/
theorem exists_gap (hd : 0 < d) {y : ℝ} (h₀ : |y - y₀| ≤ r) (h₁ : |y - y₁| ≤ r)
    (hgap : reach r (y - y₀) + reach r (y - y₁) < d) :
    ∃ x, 0 ≤ x ∧ x ≤ d ∧ ∀ k, r < (station d y₀ y₁ k).distanceFromPoint ⟨x, y⟩ := by
  have hpos₀ := reach_nonneg r (y - y₀)
  have hpos₁ := reach_nonneg r (y - y₁)
  obtain ⟨x, hx₀, hx₁⟩ := exists_between (lt_sub_iff_add_lt.mpr hgap)
  refine ⟨x, by linarith, by linarith, fun k => ?_⟩
  have hside : |y - (station d y₀ y₁ k).y| ≤ r := by
    rw [station_y]
    split
    · exact h₀
    · exact h₁
  rw [← not_le, distance_le_iff (p := ⟨x, y⟩) hside, not_le, station_x, station_y]
  match k with
  | 0 =>
      rw [if_pos Even.zero, Nat.cast_zero, zero_mul, sub_zero]
      exact hx₀.trans_le (le_abs_self x)
  | 1 =>
      rw [if_neg Nat.not_even_one, Nat.cast_one, one_mul]
      rw [abs_sub_comm]
      exact (lt_sub_comm.mp hx₁).trans_le (le_abs_self _)
  | k + 2 =>
      -- a later station is a whole spacing behind the second one
      have hk : (0 : ℝ) ≤ k * d := by positivity
      rw [abs_sub_comm]
      refine lt_of_lt_of_le ?_ (le_abs_self _)
      push_cast
      split
      · nlinarith only [hk, hx₁, hgap, hpos₁, hpos₀, hd, hx₀]
      · nlinarith only [hk, hx₁, hgap, hpos₁, hpos₀, hd, hx₀]

end Row

/-! ## The spacing functions and the loop that places the RSUs -/

/-- `std::sqrt`: of a negative number it is not a number, which is `none`. -/
class Sqrt (F : Type) where
  sqrt : F → Option F

noncomputable instance : Sqrt ℝ := ⟨fun a => if 0 ≤ a then some √a else none⟩

theorem sqrt_eq_some {a : ℝ} (ha : 0 ≤ a) : Sqrt.sqrt a = some √a := if_pos ha

theorem sqrt_eq_none {a : ℝ} (ha : a < 0) : Sqrt.sqrt a = none := if_neg (not_le.mpr ha)

namespace Spacing

variable {F : Type} [Arith F] [Sqrt F]

def f (r w delta : F) : Option F :=
  (Sqrt.sqrt (r * r - w * w)).map fun root => Arith.lit 2 * root + delta

def g (r w delta : F) : Option F :=
  (f r w delta).bind fun dx =>
    (Sqrt.sqrt (Arith.lit 2 * r * r - w * w + r * dx)).map (· + delta)

def h (r w delta : F) : Option F := (Sqrt.sqrt (Arith.lit 4 * r * r - w * w)).map (· + delta)

end Spacing

/-- The variables of the loop; a sum with what is not a number is none. -/
structure Placing (F : Type) where
  x : Option F
  y : F
  dy : F
  rsuPositions : List (Point F)

section Loop

variable {F : Type} [Arith F]

/-- A round, at a number `x`. -/
def Placing.next (dx : Option F) (st : Placing F) (x : F) : Placing F where
  x := dx.map (x + ·)
  y := st.y + st.dy
  dy := 0 - st.dy
  rsuPositions := st.rsuPositions ++ [⟨x, st.y⟩]

/-- `while (x <= roadLength)`, in less than `fuel` rounds. What is not a number compares with
none. -/
def placeRsus (roadLength : F) (dx : Option F) : ℕ → Placing F → Option (List (Point F))
  | 0, _ => none
  | fuel + 1, st =>
    match st.x with
    | none => some st.rsuPositions
    | some x =>
      if x ≤ roadLength then placeRsus roadLength dx fuel (st.next dx x) else some st.rsuPositions

inductive PlacementStrategy
  | oneSide
  | bothSide
  | middle
  deriving DecidableEq, Repr

/-- What `main` selects for a strategy. -/
structure PlacementStrategy.Selected (F : Type) where
  dx : Option F
  dy : F
  y : F

namespace PlacementStrategy

variable [Sqrt F]

def select (r roadWidth delta : F) : PlacementStrategy → Selected F
  | .oneSide => ⟨Spacing.f r roadWidth delta, 0, (0 - roadWidth) / Arith.lit 2⟩
  | .bothSide => ⟨Spacing.g r roadWidth delta, roadWidth, (0 - roadWidth) / Arith.lit 2⟩
  | .middle => ⟨Spacing.h r roadWidth delta, 0, 0⟩

def rsuPositions (s : PlacementStrategy) (r roadWidth delta roadLength : F) (fuel : ℕ) :
    Option (List (Point F)) :=
  let sel := s.select r roadWidth delta
  placeRsus roadLength sel.dx fuel ⟨some 0, sel.y, sel.dy, []⟩

end PlacementStrategy

end Loop

/-! ## The loop places a row -/

namespace Placing

variable {dx y dy : ℝ}

noncomputable def row (dx y dy : ℝ) (n : ℕ) : List (Point ℝ) :=
  (List.range n).map (station dx y (y + dy))

/-- The variables after `n` rounds. -/
noncomputable def after (dx y dy : ℝ) (n : ℕ) : Placing ℝ where
  x := some (n * dx)
  y := (station dx y (y + dy) n).y
  dy := if Even n then dy else -dy
  rsuPositions := row dx y dy n

theorem next_after (n : ℕ) :
    (after dx y dy n).next (some dx) (n * dx) = after dx y dy (n + 1) := by
  unfold after next
  congr 1
  · rw [Option.map_some, Nat.cast_add_one, add_one_mul]
  · simp only [station_y]
    by_cases hn : Even n
    · rw [if_pos hn, if_pos hn, if_neg (Nat.not_even_iff_odd.mpr hn.add_one)]
    · rw [if_neg hn, if_neg hn, if_pos (Nat.not_even_iff_odd.mp hn).add_one]
      ring
  · by_cases hn : Even n
    · rw [if_pos hn, if_neg (Nat.not_even_iff_odd.mpr hn.add_one), zero_sub]
    · rw [if_neg hn, if_pos (Nat.not_even_iff_odd.mp hn).add_one, zero_sub, neg_neg]
  · rw [row, row, List.range_succ, List.map_append]
    rfl

/-- The loop runs on while the next RSU is on the road. -/
theorem placeRsus_after {L : ℝ} {fuel n : ℕ} (hon : ∀ k < n, k * dx ≤ L) :
    placeRsus L (some dx) (n + fuel) (after dx y dy 0) =
      placeRsus L (some dx) fuel (after dx y dy n) := by
  induction n generalizing fuel with
  | zero => rw [zero_add]
  | succ n ih =>
      rw [add_assoc, add_comm 1, ih fun k hk => hon k (hk.trans (Nat.lt_succ_self n)), placeRsus]
      exact (if_pos (hon n (Nat.lt_succ_self n))).trans (by rw [next_after])

theorem placeRsus_eq {L : ℝ} {fuel n : ℕ} (hon : ∀ k < n, k * dx ≤ L) (hoff : L < n * dx) :
    placeRsus L (some dx) fuel (after dx y dy 0) =
      if n < fuel then some (row dx y dy n) else none := by
  split
  · rename_i hlt
    obtain ⟨m, rfl⟩ := Nat.exists_eq_add_of_lt hlt
    rw [add_assoc, placeRsus_after hon, placeRsus]
    exact if_neg (not_le.mpr hoff)
  · rename_i hge
    rw [← add_zero fuel, placeRsus_after fun k hk => hon k (by omega)]
    rfl

/-- A spacing that is not positive never leaves the road. -/
theorem placeRsus_none {L : ℝ} (hL : 0 ≤ L) (hdx : dx ≤ 0) (fuel : ℕ) :
    placeRsus L (some dx) fuel (after dx y dy 0) = none := by
  rw [← add_zero fuel, placeRsus_after]
  · rfl
  · intro k _
    exact (mul_nonpos_of_nonneg_of_nonpos (Nat.cast_nonneg k) hdx).trans hL

/-- A spacing that is not a number leaves it after one RSU. -/
theorem placeRsus_nan {L : ℝ} (hL : 0 ≤ L) (fuel : ℕ) :
    placeRsus L none (fuel + 2) ⟨some 0, y, dy, []⟩ = some [⟨0, y⟩] := by
  rw [placeRsus]
  exact if_pos hL

theorem placeRsus_nan_eq {L : ℝ} (hL : 0 ≤ L) {fuel : ℕ} {ps : List (Point ℝ)}
    (h : placeRsus L none fuel ⟨some 0, y, dy, []⟩ = some ps) : ps = [⟨0, y⟩] := by
  match fuel with
  | 0 => cases h
  | 1 =>
      rw [placeRsus] at h
      exact absurd ((if_pos hL).symm.trans h) (Option.some_ne_none ps).symm
  | fuel + 2 =>
      rw [placeRsus_nan hL] at h
      exact (Option.some.inj h).symm

end Placing

/-! ## The strategies -/

namespace PlacementStrategy

variable {s : PlacementStrategy} {r w delta : ℝ}

/-- The two sides of the row of a strategy. -/
noncomputable def side (s : PlacementStrategy) (r w : ℝ) : ℝ := (s.select r w 0).y

noncomputable def otherSide (s : PlacementStrategy) (r w : ℝ) : ℝ :=
  (s.select r w 0).y + (s.select r w 0).dy

/-- The spacing without a deviation. -/
noncomputable def spacing (s : PlacementStrategy) (r w : ℝ) : ℝ := (s.select r w 0).dx.getD 0

theorem side_eq (s : PlacementStrategy) (r w : ℝ) :
    s.side r w = match s with
      | .oneSide => -(w / 2)
      | .bothSide => -(w / 2)
      | .middle => 0 := by
  cases s <;> simp [side, select, Arith.lit] <;> ring

theorem otherSide_eq (s : PlacementStrategy) (r w : ℝ) :
    s.otherSide r w = match s with
      | .oneSide => -(w / 2)
      | .bothSide => w / 2
      | .middle => 0 := by
  cases s <;> simp [otherSide, select, Arith.lit] <;> ring

theorem f_eq (hw : 0 ≤ w) (hr : w ≤ r) (delta : ℝ) :
    Spacing.f r w delta = some (2 * reach r w + delta) := by
  rw [Spacing.f, sqrt_eq_some (sub_nonneg.mpr (mul_self_le_mul_self hw hr)), Option.map_some]
  simp [reach, Arith.lit, sq]

theorem sq_add_reach (hw : 0 ≤ w) (hr : w ≤ r) :
    (r + reach r w) ^ 2 = 2 * r * r - w * w + r * (2 * reach r w) := by
  have hsq := sq_reach (r := r) (a := w) (by rwa [abs_of_nonneg hw])
  linear_combination hsq

theorem g_eq (hw : 0 ≤ w) (hr : w ≤ r) (delta : ℝ) : Spacing.g r w delta =
    (Sqrt.sqrt ((r + reach r w) ^ 2 + r * delta)).map (· + delta) := by
  rw [sq_add_reach hw hr, Spacing.g, f_eq hw hr, Option.bind_some]
  congr 2
  simp only [Arith.lit]
  push_cast
  ring

/-- The root in the spacing of RSUs in the middle. -/
theorem sqrt_middle (hroot : w * w ≤ 4 * r * r) :
    Sqrt.sqrt (Arith.lit 4 * r * r - w * w) = some (2 * reach r (w / 2)) := by
  have hscale : 4 * r * r - w * w = 2 ^ 2 * (r ^ 2 - (w / 2) ^ 2) := by ring
  have hlit : (Arith.lit 4 : ℝ) = 4 := by simp [Arith.lit]
  rw [hlit, sqrt_eq_some (sub_nonneg.mpr hroot), hscale, Real.sqrt_mul (by positivity),
    Real.sqrt_sq two_pos.le, reach]

theorem h_eq (hw : 0 ≤ w) (hr : w ≤ 2 * r) (delta : ℝ) :
    Spacing.h r w delta = some (2 * reach r (w / 2) + delta) := by
  rw [Spacing.h, sqrt_middle (by nlinarith only [hw, hr]), Option.map_some]

theorem select_dx_zero (hw : 0 ≤ w) (hr : w ≤ r) :
    (s.select r w 0).dx = some (match s with
      | .oneSide => 2 * reach r w
      | .bothSide => r + reach r w
      | .middle => 2 * reach r (w / 2)) := by
  cases s with
  | oneSide => exact (f_eq hw hr 0).trans (by rw [add_zero])
  | bothSide =>
      refine (g_eq hw hr 0).trans ?_
      rw [mul_zero, add_zero, sqrt_eq_some (sq_nonneg _), Option.map_some, add_zero,
        Real.sqrt_sq (add_nonneg (hw.trans hr) (reach_nonneg r w))]
  | middle => exact (h_eq hw (by linarith) 0).trans (by rw [add_zero])

theorem spacing_eq (hw : 0 ≤ w) (hr : w ≤ r) :
    s.spacing r w = match s with
      | .oneSide => 2 * reach r w
      | .bothSide => r + reach r w
      | .middle => 2 * reach r (w / 2) := by
  rw [spacing, select_dx_zero hw hr, Option.getD_some]

/-- Only the spacing of both sides may not be a number. -/
theorem select_dx_eq_none_iff (hw : 0 ≤ w) (hr : w ≤ r) : (s.select r w delta).dx = none ↔
    s = .bothSide ∧ (r + reach r w) ^ 2 + r * delta < 0 := by
  cases s with
  | oneSide => simp [select, f_eq hw hr]
  | bothSide =>
      rw [select, g_eq hw hr, Option.map_eq_none_iff]
      constructor
      · intro hnone
        refine ⟨rfl, lt_of_not_ge fun hroot => ?_⟩
        exact absurd ((sqrt_eq_some hroot).symm.trans hnone) (Option.some_ne_none _)
      · exact fun h => sqrt_eq_none h.2
  | middle => simp [select, h_eq hw (by linarith : w ≤ 2 * r)]

/-- The deviation alone decides how the spacing compares with that of no deviation. -/
theorem select_dx_le_iff (hw : 0 ≤ w) (hr : w ≤ r) {dx : ℝ}
    (hdx : (s.select r w delta).dx = some dx) : dx ≤ s.spacing r w ↔ delta ≤ 0 := by
  rw [spacing_eq hw hr]
  cases s with
  | oneSide =>
      obtain rfl : 2 * reach r w + delta = dx := Option.some.inj ((f_eq hw hr delta).symm.trans hdx)
      exact add_le_iff_nonpos_right _
  | bothSide =>
      rw [select, g_eq hw hr] at hdx
      obtain ⟨root, hroot, rfl⟩ := Option.map_eq_some_iff.mp hdx
      have harg : 0 ≤ (r + reach r w) ^ 2 + r * delta := by
        refine le_of_not_gt fun hneg => ?_
        exact absurd ((sqrt_eq_none hneg).symm.trans hroot) (Option.some_ne_none _).symm
      obtain rfl := Option.some.inj ((sqrt_eq_some harg).symm.trans hroot)
      have hr₀ : 0 ≤ r := hw.trans hr
      have hbest : 0 ≤ r + reach r w := add_nonneg hr₀ (reach_nonneg r w)
      constructor
      · intro hle
        by_contra hpos
        have hmore : r + reach r w ≤ √((r + reach r w) ^ 2 + r * delta) :=
          Real.le_sqrt_of_sq_le (le_add_of_nonneg_right (mul_nonneg hr₀ (not_le.mp hpos).le))
        linarith
      · intro hle
        have hless : √((r + reach r w) ^ 2 + r * delta) ≤ r + reach r w :=
          (Real.sqrt_le_left hbest).mpr (add_le_of_nonpos_right
            (mul_nonpos_of_nonneg_of_nonpos hr₀ hle))
        linarith
  | middle =>
      obtain rfl : 2 * reach r (w / 2) + delta = dx :=
        Option.some.inj ((h_eq hw (by linarith) delta).symm.trans hdx)
      exact add_le_iff_nonpos_right _

/-- The reaches of two offsets that add up to `a + b` are least when one offset is zero. -/
theorem add_reach_le {a b : ℝ} (ha : 0 ≤ a) (hb : 0 ≤ b) (hab : a + b ≤ r) :
    r + reach r (a + b) ≤ reach r a + reach r b := by
  have hr : 0 ≤ r := by linarith
  have hsum := sq_reach (r := r) (a := a + b) (by rwa [abs_of_nonneg (add_nonneg ha hb)])
  have hsqa := sq_reach (r := r) (a := a) (by rw [abs_of_nonneg ha]; linarith)
  have hsqb := sq_reach (r := r) (a := b) (by rw [abs_of_nonneg hb]; linarith)
  have hprod : r * reach r (a + b) ≤ reach r a * reach r b := by
    rw [← sq_le_sq₀ (mul_nonneg hr (reach_nonneg _ _))
      (mul_nonneg (reach_nonneg _ _) (reach_nonneg _ _)), mul_pow, mul_pow, hsum, hsqa, hsqb]
    have hmixed : 0 ≤ a * b * r ^ 2 := by positivity
    have hsquare : 0 ≤ (a * b) ^ 2 := by positivity
    nlinarith only [hmixed, hsquare]
  have hmul : 0 ≤ a * b := mul_nonneg ha hb
  rw [← sq_le_sq₀ (add_nonneg hr (reach_nonneg _ _))
    (add_nonneg (reach_nonneg _ _) (reach_nonneg _ _))]
  nlinarith only [hprod, hsum, hsqa, hsqb, hmul]

/-- Across the road the reaches of neighbours meet at the spacing of the strategy. -/
theorem spacing_le (hw : 0 ≤ w) (hr : w ≤ r) {y : ℝ} (hy : |y| ≤ w / 2) :
    s.spacing r w ≤ reach r (y - s.side r w) + reach r (y - s.otherSide r w) := by
  obtain ⟨hlow, hhigh⟩ := abs_le.mp hy
  rw [spacing_eq hw hr, side_eq, otherSide_eq]
  cases s with
  | oneSide =>
      have hfar : reach r w ≤ reach r (y - -(w / 2)) :=
        reach_le (pow_le_pow_left₀ (by linarith) (by linarith) 2)
      simp only
      linarith
  | bothSide =>
      have hsum := add_reach_le (r := r) (a := y + w / 2) (b := w / 2 - y) (by linarith)
        (by linarith) (by linarith)
      rw [show y + w / 2 + (w / 2 - y) = w by ring, ← reach_neg r (w / 2 - y), neg_sub] at hsum
      simpa only [sub_neg_eq_add] using hsum
  | middle =>
      have hfar : reach r (w / 2) ≤ reach r (y - 0) := by
        rw [sub_zero]
        exact reach_le (sq_le_sq' (by linarith) hhigh)
      simp only
      linarith

/-- Somewhere across the road they meet at no larger spacing. -/
theorem exists_spacing_eq (hw : 0 ≤ w) (hr : w ≤ r) : ∃ y, |y| ≤ w / 2 ∧
    s.spacing r w = reach r (y - s.side r w) + reach r (y - s.otherSide r w) := by
  have hhalf : |w / 2| ≤ w / 2 := (abs_of_nonneg (by linarith)).le
  rw [spacing_eq hw hr, side_eq, otherSide_eq]
  cases s with
  | oneSide =>
      refine ⟨w / 2, hhalf, ?_⟩
      simp only [sub_neg_eq_add, add_halves]
      ring
  | bothSide =>
      refine ⟨w / 2, hhalf, ?_⟩
      simp only [sub_neg_eq_add, add_halves, sub_self, reach_zero (hw.trans hr)]
      ring
  | middle =>
      refine ⟨w / 2, hhalf, ?_⟩
      simp only [sub_zero]
      ring

theorem abs_sub_side_le (hr : w ≤ r) {y : ℝ} (hy : |y| ≤ w / 2) :
    |y - s.side r w| ≤ r ∧ |y - s.otherSide r w| ≤ r := by
  obtain ⟨hlow, hhigh⟩ := abs_le.mp hy
  rw [side_eq, otherSide_eq]
  cases s <;> exact ⟨abs_le.mpr ⟨by linarith, by linarith⟩, abs_le.mpr ⟨by linarith, by linarith⟩⟩

/-- The RSUs of a row that stand on the road. -/
noncomputable def placed (s : PlacementStrategy) (r w dx L : ℝ) : List (Point ℝ) :=
  (List.range (⌊L / dx⌋₊ + 1)).map (station dx (s.side r w) (s.otherSide r w))

theorem rsuPositions_of_dx {dx : Option ℝ} (hdx : (s.select r w delta).dx = dx) (L : ℝ)
    (fuel : ℕ) : s.rsuPositions r w delta L fuel = placeRsus L dx fuel
      ⟨some 0, (s.select r w delta).y, (s.select r w delta).dy, []⟩ := by
  rw [← hdx]
  rfl

theorem rsuPositions_eq_after {dx : ℝ} (hdx : (s.select r w delta).dx = some dx) (L : ℝ)
    (fuel : ℕ) : s.rsuPositions r w delta L fuel = placeRsus L (some dx) fuel
      (Placing.after dx (s.side r w) (s.select r w delta).dy 0) := by
  rw [rsuPositions_of_dx hdx, Placing.after]
  simp only [Nat.cast_zero, zero_mul, station_y, if_pos Even.zero]
  cases s <;> rfl

theorem rsuPositions_eq {L dx : ℝ} (hL : 0 ≤ L) (hselect : (s.select r w delta).dx = some dx)
    (hdx : 0 < dx) (fuel : ℕ) : s.rsuPositions r w delta L fuel =
      if ⌊L / dx⌋₊ + 1 < fuel then some (s.placed r w dx L) else none := by
  have hother : s.side r w + (s.select r w delta).dy = s.otherSide r w := by
    cases s <;> rfl
  rw [rsuPositions_eq_after hselect, Placing.placeRsus_eq, Placing.row, hother]
  · rfl
  · intro k hk
    rw [← le_div_iff₀ hdx]
    exact (Nat.cast_le.mpr (Nat.lt_succ_iff.mp hk)).trans (Nat.floor_le (div_nonneg hL hdx.le))
  · rw [← div_lt_iff₀ hdx]
    exact_mod_cast Nat.lt_floor_add_one _

theorem mem_placed {L dx : ℝ} (hL : 0 ≤ L) (hdx : 0 < dx) {q : Point ℝ} :
    q ∈ s.placed r w dx L ↔ ∃ k : ℕ, k * dx ≤ L ∧
      station dx (s.side r w) (s.otherSide r w) k = q := by
  simp only [placed, List.mem_map, List.mem_range, Nat.lt_succ_iff]
  refine exists_congr fun k => and_congr_left fun _ => ?_
  rw [Nat.le_floor_iff (div_nonneg hL hdx.le), le_div_iff₀ hdx]

/-- Up to the last RSU the road is in reach exactly if neighbours are near enough. -/
theorem placed_in_reach_iff (hw : 0 ≤ w) (hr : w ≤ r) {L dx : ℝ} (hdx : 0 < dx) (htwo : dx ≤ L) :
    (∀ p : Point ℝ, |p.y| ≤ w / 2 → 0 ≤ p.x → (∃ q ∈ s.placed r w dx L, p.x ≤ q.x) →
        ∃ q ∈ s.placed r w dx L, q.distanceFromPoint p ≤ r) ↔ dx ≤ s.spacing r w := by
  have hL : 0 ≤ L := hdx.le.trans htwo
  constructor
  · intro hall
    by_contra hfar
    obtain ⟨y, hy, heq⟩ := exists_spacing_eq (s := s) hw hr
    obtain ⟨hside, hother⟩ := abs_sub_side_le (s := s) hr hy
    obtain ⟨x, hx, hxd, hnone⟩ := exists_gap hdx hside hother (heq ▸ not_le.mp hfar)
    have hsecond : station dx (s.side r w) (s.otherSide r w) 1 ∈ s.placed r w dx L :=
      (mem_placed hL hdx).mpr ⟨1, by simpa using htwo, rfl⟩
    obtain ⟨q, hq, hnear⟩ := hall ⟨x, y⟩ hy hx ⟨_, hsecond, by simpa using hxd⟩
    obtain ⟨k, _, rfl⟩ := (mem_placed hL hdx).mp hq
    exact absurd hnear (not_le.mpr (hnone k))
  · rintro hle p hy hx ⟨q, hq, hpq⟩
    obtain ⟨n, hn, rfl⟩ := (mem_placed hL hdx).mp hq
    obtain ⟨hside, hother⟩ := abs_sub_side_le (s := s) hr hy
    have hmeet := hle.trans (spacing_le hw hr hy)
    obtain ⟨k, hk, hnear⟩ := exists_station hdx hside hother hmeet hx hpq
    refine ⟨_, (mem_placed hL hdx).mpr ⟨k, ?_, rfl⟩, hnear⟩
    exact (mul_le_mul_of_nonneg_right (Nat.cast_le.mpr hk) hdx.le).trans hn

end PlacementStrategy

/-- The loop ends exactly if the spacing is positive or not a number. If it is not a number, which
only a deviation of the spacing of both sides can do, one RSU is placed. Else the RSUs stand on the
road, the rest behind the last one is shorter than the spacing, and with at least two of them the
road up to the last one is in reach exactly if the spacing deviates upwards by nothing. -/
theorem road_in_reach_iff (s : PlacementStrategy) {r w delta L : ℝ} (hw : 0 ≤ w) (hr : w ≤ r)
    (hL : 0 ≤ L) :
    ((∃ fuel ps, s.rsuPositions r w delta L fuel = some ps) ↔
      ∀ dx, (s.select r w delta).dx = some dx → 0 < dx) ∧
    ((s.select r w delta).dx = none ↔
      s = .bothSide ∧ (r + reach r w) ^ 2 + r * delta < 0) ∧
    ∀ fuel ps, s.rsuPositions r w delta L fuel = some ps →
      ((s.select r w delta).dx = none → ps = [⟨0, (s.select r w delta).y⟩]) ∧
      ∀ dx, (s.select r w delta).dx = some dx →
        (∀ q ∈ ps, 0 ≤ q.x ∧ q.x ≤ L) ∧
        (∃ q ∈ ps, L < q.x + dx) ∧
        (dx ≤ L →
          ((∀ p : Point ℝ, |p.y| ≤ w / 2 → 0 ≤ p.x → (∃ q ∈ ps, p.x ≤ q.x) →
            ∃ q ∈ ps, q.distanceFromPoint p ≤ r) ↔ delta ≤ 0)) := by
  have hends : ∀ fuel ps dx, s.rsuPositions r w delta L fuel = some ps →
      (s.select r w delta).dx = some dx → 0 < dx ∧ ps = s.placed r w dx L := by
    intro fuel ps dx hps hselect
    have hdx : 0 < dx := by
      by_contra hle
      rw [PlacementStrategy.rsuPositions_eq_after hselect,
        Placing.placeRsus_none hL (not_lt.mp hle)] at hps
      cases hps
    rw [PlacementStrategy.rsuPositions_eq hL hselect hdx] at hps
    split at hps
    · exact ⟨hdx, (Option.some.inj hps).symm⟩
    · cases hps
  refine ⟨⟨?_, fun hpos => ?_⟩, PlacementStrategy.select_dx_eq_none_iff hw hr,
    fun fuel ps hps => ⟨fun hselect => ?_, fun dx hselect => ?_⟩⟩
  · rintro ⟨fuel, ps, hps⟩ dx hselect
    exact (hends fuel ps dx hps hselect).1
  · cases hselect : (s.select r w delta).dx with
    | none =>
        exact ⟨2, _, (PlacementStrategy.rsuPositions_of_dx hselect L 2).trans
          (Placing.placeRsus_nan hL 0)⟩
    | some dx =>
        have hends := PlacementStrategy.rsuPositions_eq hL hselect (hpos dx hselect)
        exact ⟨_, _, (hends _).trans (if_pos (Nat.lt_succ_self _))⟩
  · rw [PlacementStrategy.rsuPositions_of_dx hselect] at hps
    exact Placing.placeRsus_nan_eq hL hps
  · obtain ⟨hdx, rfl⟩ := hends fuel ps dx hps hselect
    refine ⟨?_, ?_, fun htwo => ?_⟩
    · intro q hq
      obtain ⟨k, hk, rfl⟩ := (PlacementStrategy.mem_placed hL hdx).mp hq
      exact ⟨mul_nonneg (Nat.cast_nonneg k) hdx.le, hk⟩
    · refine ⟨station _ _ _ ⌊L / dx⌋₊, (PlacementStrategy.mem_placed hL hdx).mpr ⟨_, ?_, rfl⟩, ?_⟩
      · exact (le_div_iff₀ hdx).mp (Nat.floor_le (div_nonneg hL hdx.le))
      · have hlast := (div_lt_iff₀ hdx).mp (Nat.lt_floor_add_one (L / dx))
        rwa [add_one_mul] at hlast
    · rw [PlacementStrategy.placed_in_reach_iff hw hr hdx htwo,
        PlacementStrategy.select_dx_le_iff hw hr hselect]

/-- With the constants of the script, RSUs on alternating sides have the road in reach. A spacing
that is to deviate by 200 downwards is not a number. -/
theorem road_in_reach_iff_bothSide :
    (∃ fuel ps, PlacementStrategy.bothSide.rsuPositions (50 : ℝ) 21 0 1000 fuel = some ps ∧
      ∀ p : Point ℝ, |p.y| ≤ 21 / 2 → 0 ≤ p.x → (∃ q ∈ ps, p.x ≤ q.x) →
        ∃ q ∈ ps, q.distanceFromPoint p ≤ 50) ∧
    ∃ fuel, PlacementStrategy.bothSide.rsuPositions (50 : ℝ) 21 (-200) 1000 fuel =
      some [⟨0, (0 - 21) / Arith.lit 2⟩] := by
  have hsq := sq_reach (r := 50) (a := 21) (by norm_num [abs_of_pos])
  have hreach : reach 50 21 ≤ 50 := by nlinarith only [hsq, reach_nonneg 50 21]
  constructor
  · obtain ⟨hends, _, hroad⟩ := @road_in_reach_iff .bothSide 50 21 0 1000 (by norm_num)
      (by norm_num) (by norm_num)
    have hdx : (PlacementStrategy.bothSide.select (50 : ℝ) 21 0).dx = some (50 + reach 50 21) :=
      PlacementStrategy.select_dx_zero (by norm_num) (by norm_num)
    obtain ⟨fuel, ps, hps⟩ := hends.mpr fun dx h => by
      obtain rfl := Option.some.inj (hdx.symm.trans h)
      linarith [reach_nonneg 50 21]
    exact ⟨fuel, ps, hps, (((hroad fuel ps hps).2 _ hdx).2.2 (by linarith)).mpr le_rfl⟩
  · obtain ⟨hends, hnan, hroad⟩ := @road_in_reach_iff .bothSide 50 21 (-200) 1000 (by norm_num)
      (by norm_num) (by norm_num)
    have hdx := hnan.mpr ⟨rfl, by nlinarith only [hsq, hreach]⟩
    obtain ⟨fuel, ps, hps⟩ := hends.mpr fun dx h =>
      absurd (hdx.symm.trans h) (Option.some_ne_none dx).symm
    exact ⟨fuel, hps.trans (congrArg some ((hroad fuel ps hps).1 hdx))⟩

end Cafe
