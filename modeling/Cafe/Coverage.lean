import Cafe.Destinations
import Cafe.Polygon
import Mathlib.Analysis.Complex.Norm

/-!
# Coverage

Over the real numbers a disc covers a zone when it meets it. The three tests
of a zone agree wherever no component is a next-hop neighbourhood, whose own
tests are placeholders.
-/

open ClosedWalk

namespace Cafe

/-! ## Distances -/

namespace Point

def toComplex (p : Point ℝ) : ℂ := ⟨p.x, p.y⟩

theorem distanceFromPoint_eq (p q : Point ℝ) :
    p.distanceFromPoint q = ‖p.toComplex - q.toComplex‖ := by
  rw [Complex.norm_eq_sqrt_sq_add_sq]
  rfl

theorem distanceFromPoint_comm (p q : Point ℝ) :
    p.distanceFromPoint q = q.distanceFromPoint p := by
  rw [distanceFromPoint_eq, distanceFromPoint_eq, norm_sub_rev]

@[simp] theorem distanceFromPoint_self (p : Point ℝ) : p.distanceFromPoint p = 0 := by
  rw [distanceFromPoint_eq, sub_self, norm_zero]

theorem distanceFromPoint_nonneg (p q : Point ℝ) : 0 ≤ p.distanceFromPoint q := by
  rw [distanceFromPoint_eq]
  exact norm_nonneg _

theorem distanceFromPoint_triangle (p q s : Point ℝ) :
    p.distanceFromPoint s ≤ p.distanceFromPoint q + q.distanceFromPoint s := by
  simp only [distanceFromPoint_eq]
  exact norm_sub_le_norm_sub_add_norm_sub _ _ _

theorem x_le_add_distance (p q : Point ℝ) : p.x ≤ q.x + p.distanceFromPoint q := by
  have hle : |p.x - q.x| ≤ p.distanceFromPoint q :=
    Real.abs_le_sqrt (le_add_of_nonneg_right (sq_nonneg _))
  have hx := (le_abs_self _).trans hle
  linarith

theorem distanceFromPoint_le_iff_sq {p q s u : Point ℝ} :
    p.distanceFromPoint q ≤ s.distanceFromPoint u ↔
      (p.x - q.x) ^ 2 + (p.y - q.y) ^ 2 ≤ (s.x - u.x) ^ 2 + (s.y - u.y) ^ 2 :=
  Real.sqrt_le_sqrt_iff (by positivity)

/-- The point at the ratio `t` of the way from `a` to `b`. -/
def toward (a b : Point ℝ) (t : ℝ) : Point ℝ := ⟨a.x + t * (b.x - a.x), a.y + t * (b.y - a.y)⟩

def OnSegment (a b q : Point ℝ) : Prop := ∃ t, 0 ≤ t ∧ t ≤ 1 ∧ q = a.toward b t

theorem distance_toward (a b : Point ℝ) {t : ℝ} (h : 0 ≤ t) :
    a.distanceFromPoint (a.toward b t) = t * a.distanceFromPoint b := by
  have hx : (a.x - (a.toward b t).x) ^ 2 + (a.y - (a.toward b t).y) ^ 2 =
      t ^ 2 * ((a.x - b.x) ^ 2 + (a.y - b.y) ^ 2) := by
    simp only [toward]
    ring
  change √_ = t * √_
  rw [hx, Real.sqrt_mul (sq_nonneg t), Real.sqrt_sq h]

theorem toward_symm (a b : Point ℝ) (t : ℝ) : b.toward a (1 - t) = a.toward b t := by
  simp only [toward, mk.injEq]
  constructor <;> ring

theorem distance_toward_end (a b : Point ℝ) {t : ℝ} (h : t ≤ 1) :
    (a.toward b t).distanceFromPoint b = (1 - t) * a.distanceFromPoint b := by
  rw [← toward_symm, distanceFromPoint_comm, distance_toward b a (sub_nonneg.mpr h),
    distanceFromPoint_comm]

theorem onSegment_iff {a b q : Point ℝ} :
    OnSegment a b q ↔ q.pair ∈ segment ℝ a.pair b.pair := by
  rw [segment_eq_image']
  constructor
  · rintro ⟨t, h0, h1, rfl⟩
    exact ⟨t, ⟨h0, h1⟩, rfl⟩
  · rintro ⟨t, ⟨h0, h1⟩, heq⟩
    refine ⟨t, h0, h1, ?_⟩
    obtain ⟨hx, hy⟩ := Prod.mk.inj heq
    exact congrArg₂ Point.mk hx.symm hy.symm

/-- The clamped ratio is the nearest one in the unit interval. -/
theorem clamp_nearest (v : ℝ) : 0 ≤ stdClamp v 0 1 ∧ stdClamp v 0 1 ≤ 1 ∧
    ∀ t, 0 ≤ t → t ≤ 1 → (stdClamp v 0 1 - v) ^ 2 ≤ (t - v) ^ 2 := by
  unfold stdClamp
  split_ifs with hlo hhi
  · refine ⟨le_rfl, zero_le_one, fun t h0 _ => ?_⟩
    exact pow_le_pow_left₀ (by linarith) (by linarith) 2
  · refine ⟨zero_le_one, le_rfl, fun t _ h1 => ?_⟩
    nlinarith
  · refine ⟨not_lt.mp hlo, not_lt.mp hhi, fun t _ _ => ?_⟩
    rw [sub_self, zero_pow two_ne_zero]
    exact sq_nonneg _

theorem eqValue_iff {x y : ℝ} : eqValue x y ↔ x = y :=
  ⟨fun h => le_antisymm h.1 h.2, fun h => ⟨h.le, h.ge⟩⟩

/-- The point of the segment that `distanceFromLine` measures is its nearest. -/
theorem distanceFromLine_spec (p a b : Point ℝ) :
    (∃ q, OnSegment a b q ∧ p.distanceFromPoint q = p.distanceFromLine a b) ∧
      ∀ q, OnSegment a b q → p.distanceFromLine a b ≤ p.distanceFromPoint q := by
  simp only [distanceFromLine, eqValue_iff]
  split_ifs with hzero
  · have hq : ∀ t, a.toward b t = a := by
      intro t
      simp only [toward, hzero.1, hzero.2, mul_zero, add_zero]
    refine ⟨⟨a, ⟨0, le_rfl, zero_le_one, (hq 0).symm⟩, rfl⟩, ?_⟩
    rintro q ⟨t, _, _, rfl⟩
    rw [hq]
  · have hpos : 0 < (b.x - a.x) * (b.x - a.x) + (b.y - a.y) * (b.y - a.y) := by
      rcases not_and_or.mp hzero with hx | hy
      · exact add_pos_of_pos_of_nonneg (mul_self_pos.mpr hx) (mul_self_nonneg _)
      · exact add_pos_of_nonneg_of_pos (mul_self_nonneg _) (mul_self_pos.mpr hy)
    rcases clamp_nearest (((p.x - a.x) * (b.x - a.x) + (p.y - a.y) * (b.y - a.y)) /
      ((b.x - a.x) * (b.x - a.x) + (b.y - a.y) * (b.y - a.y))) with ⟨h0, h1, hnear⟩
    refine ⟨⟨_, ⟨_, h0, h1, rfl⟩, rfl⟩, ?_⟩
    rintro q ⟨t, ht0, ht1, rfl⟩
    rw [distanceFromPoint_le_iff_sq]
    have hle := mul_le_mul_of_nonneg_left (hnear t ht0 ht1) hpos.le
    set v := ((p.x - a.x) * (b.x - a.x) + (p.y - a.y) * (b.y - a.y)) /
      ((b.x - a.x) * (b.x - a.x) + (b.y - a.y) * (b.y - a.y)) with hv
    have hdot : v * ((b.x - a.x) * (b.x - a.x) + (b.y - a.y) * (b.y - a.y)) =
        (p.x - a.x) * (b.x - a.x) + (p.y - a.y) * (b.y - a.y) := div_mul_cancel₀ _ hpos.ne'
    -- the squared distance is a parabola in the ratio with its vertex at `v`
    have hparabola : ∀ s : ℝ, (p.x - (a.x + s * (b.x - a.x))) ^ 2 +
        (p.y - (a.y + s * (b.y - a.y))) ^ 2 =
        ((b.x - a.x) * (b.x - a.x) + (b.y - a.y) * (b.y - a.y)) * (s - v) ^ 2 +
          ((p.x - a.x) ^ 2 + (p.y - a.y) ^ 2 -
            v * ((p.x - a.x) * (b.x - a.x) + (p.y - a.y) * (b.y - a.y))) := by
      intro s
      linear_combination (2 * s - v) * hdot
    simp only [toward, hparabola]
    exact add_le_add_left hle _

end Point

/-! ## The least distance -/

namespace ZoR

theorem stdMin_le_iff {a b r : ℝ} : stdMin a b ≤ r ↔ a ≤ r ∨ b ≤ r := by
  unfold stdMin
  split_ifs with h
  · exact ⟨Or.inr, fun h' => h'.elim (fun ha => h.le.trans ha) id⟩
  · exact ⟨Or.inl, fun h' => h'.elim id fun hb => (not_lt.mp h).trans hb⟩

theorem edgeDistance_le_iff (p first a : Point ℝ) (rest : List (Point ℝ)) {minDist r : ℝ} :
    edgeDistance p first (a :: rest) minDist ≤ r ↔
      minDist ≤ r ∨ ∃ e ∈ steps a (rest ++ [first]), p.distanceFromLine e.1 e.2 ≤ r := by
  induction rest generalizing a minDist with
  | nil => simp [edgeDistance, steps, stdMin_le_iff]
  | cons b rest ih =>
      rw [edgeDistance, ih, stdMin_le_iff]
      simp [steps, or_assoc]

theorem polygonDistance_le_iff {vertices : List (Point ℝ)} {p : Point ℝ} {r : ℝ} :
    polygonDistance vertices p ≤ r ↔
      Arith.inf ≤ r ∨ ∃ e ∈ edges vertices, p.distanceFromLine e.1 e.2 ≤ r := by
  cases vertices with
  | nil => simp [polygonDistance, edges]
  | cons first rest => exact edgeDistance_le_iff p first first rest

theorem distanceToAny_le_iff {zs : List (ZoR ℝ)} {p : Point ℝ} {minDist r : ℝ} :
    distanceToAny zs p minDist ≤ r ↔ minDist ≤ r ∨ ∃ z ∈ zs, z.distanceToBoundary p ≤ r := by
  induction zs generalizing minDist with
  | nil => simp [distanceToAny]
  | cons z zs ih =>
      rw [distanceToAny, ih, stdMin_le_iff]
      simp [or_assoc]

theorem coveredByAny_iff {F : Type} [Arith F] {zs : List (ZoR F)} {c : Point F} {r : F} :
    coveredByAny zs c r = true ↔ ∃ z ∈ zs, z.coveredBy c r := by
  induction zs with
  | nil => simp [coveredByAny]
  | cons z zs ih => simp [coveredByAny, ih]

/-! ## Discs that meet a zone -/

/-- The point lies on an edge of a polygon of the zone. -/
def OnEdge (z : ZoR ℝ) (q : Point ℝ) : Prop :=
  ∃ vertices ∈ z.polygons, ∃ e ∈ edges vertices, Point.OnSegment e.1 e.2 q

/-- The disc has a point inside the zone or on an edge of it. -/
def MeetsDisc (z : ZoR ℝ) (c : Point ℝ) (r : ℝ) : Prop :=
  ∃ q, c.distanceFromPoint q ≤ r ∧ (z.contains q ∨ z.OnEdge q)

def IsSolid : ZoR ℝ → Prop
  | circle _ radius => 0 ≤ radius
  | polygon _ => True
  | _ => False

theorem circle_coveredBy_iff {center c : Point ℝ} {radius r : ℝ} (hradius : 0 ≤ radius)
    (h0 : 0 ≤ r) : (circle center radius).coveredBy c r ↔ (circle center radius).MeetsDisc c r := by
  simp only [coveredBy, MeetsDisc, contains, OnEdge, polygons, List.not_mem_nil, false_and,
    exists_false, or_false, decide_eq_true_eq]
  constructor
  · intro hcov
    by_cases hnear : c.distanceFromPoint center ≤ r
    · exact ⟨center, hnear, by rwa [Point.distanceFromPoint_self]⟩
    · have hpos : 0 < c.distanceFromPoint center := h0.trans_lt (not_le.mp hnear)
      have hratio := div_le_one_of_le₀ (not_le.mp hnear).le hpos.le
      refine ⟨c.toward center (r / c.distanceFromPoint center), ?_, ?_⟩
      · rw [Point.distance_toward _ _ (div_nonneg h0 hpos.le), div_mul_cancel₀ _ hpos.ne']
      · rw [Point.distance_toward_end _ _ hratio, sub_mul, div_mul_cancel₀ _ hpos.ne']
        linarith
  · rintro ⟨q, hq, hin⟩
    have hle := c.distanceFromPoint_triangle q center
    linarith

/-- Between a point inside a polygon and one outside lies a point of an edge. -/
theorem exists_edge_between {vertices : List (Point ℝ)} {c q : Point ℝ}
    (hc : ¬ (polygon vertices).contains c) (hq : (polygon vertices).contains q) :
    ∃ w, Point.OnSegment c q w ∧ ∃ e ∈ edges vertices, Point.OnSegment e.1 e.2 w := by
  rw [contains, inside_of_polygonContains] at hc hq
  rcases EvenOdd.exists_edge_of_inside_ne (fun heq => hc (heq.trans hq)) with ⟨w, hw, e, he, hon⟩
  rw [edges_map] at he
  rcases List.mem_map.mp he with ⟨e', he', rfl⟩
  exact ⟨⟨w.1, w.2⟩, Point.onSegment_iff.mpr hw, e', he', Point.onSegment_iff.mpr hon⟩

theorem polygon_coveredBy_iff {vertices : List (Point ℝ)} {c : Point ℝ} {r : ℝ} (h0 : 0 ≤ r)
    (hr : r < Arith.inf) :
    (polygon vertices).coveredBy c r ↔ (polygon vertices).MeetsDisc c r := by
  have honEdge : ∀ q, (polygon vertices).OnEdge q ↔
      ∃ e ∈ edges vertices, Point.OnSegment e.1 e.2 q := fun q => by simp [OnEdge, polygons]
  simp only [coveredBy, MeetsDisc, honEdge, Bool.or_eq_true, decide_eq_true_eq,
    polygonDistance_le_iff]
  constructor
  · rintro (hin | hinf | ⟨e, he, hnear⟩)
    · exact ⟨c, by rwa [Point.distanceFromPoint_self], Or.inl hin⟩
    · exact absurd hinf (not_le.mpr hr)
    · rcases (c.distanceFromLine_spec e.1 e.2).1 with ⟨q, hq, hdist⟩
      exact ⟨q, hdist.le.trans hnear, Or.inr ⟨e, he, hq⟩⟩
  · rintro ⟨q, hdist, hin | ⟨e, he, hon⟩⟩
    · by_cases hc : (polygon vertices).contains c
      · exact Or.inl hc
      · rcases exists_edge_between hc hin with ⟨w, ⟨t, ht0, ht1, rfl⟩, e, he, hon⟩
        refine Or.inr (Or.inr ⟨e, he, ((c.distanceFromLine_spec e.1 e.2).2 _ hon).trans ?_⟩)
        rw [Point.distance_toward c q ht0]
        exact (mul_le_of_le_one_left (c.distanceFromPoint_nonneg q) ht1).trans hdist
    · exact Or.inr (Or.inr ⟨e, he, ((c.distanceFromLine_spec e.1 e.2).2 q hon).trans hdist⟩)

theorem composite_meetsDisc_iff {zs : List (ZoR ℝ)} {c : Point ℝ} {r : ℝ} :
    (composite zs).MeetsDisc c r ↔ ∃ z ∈ zs, z.MeetsDisc c r := by
  have hedge : ∀ q, (composite zs).OnEdge q ↔ ∃ z ∈ zs, z.OnEdge q := by
    intro q
    simp only [OnEdge, polygons, mem_polygonsAll]
    constructor
    · rintro ⟨vertices, ⟨z, hz, hmem⟩, hon⟩
      exact ⟨z, hz, vertices, hmem, hon⟩
    · rintro ⟨z, hz, vertices, hmem, hon⟩
      exact ⟨vertices, ⟨z, hz, hmem⟩, hon⟩
  constructor
  · rintro ⟨q, hdist, hin | hon⟩
    · rcases containsAny_iff.mp hin with ⟨z, hz, hin⟩
      exact ⟨z, hz, q, hdist, Or.inl hin⟩
    · rcases (hedge q).mp hon with ⟨z, hz, hon⟩
      exact ⟨z, hz, q, hdist, Or.inr hon⟩
  · rintro ⟨z, hz, q, hdist, hin | hon⟩
    · exact ⟨q, hdist, Or.inl (containsAny_iff.mpr ⟨z, hz, hin⟩)⟩
    · exact ⟨q, hdist, Or.inr ((hedge q).mpr ⟨z, hz, hon⟩)⟩

/-- Coverage by a disc is a common point. -/
theorem coveredBy_iff_meetsDisc {z : ZoR ℝ} (hz : z.MadeOf IsSolid) {c : Point ℝ} {r : ℝ}
    (h0 : 0 ≤ r) (hr : r < Arith.inf) : z.coveredBy c r ↔ z.MeetsDisc c r := by
  induction z using nested_induction with
  | hneighbor => exact absurd hz id
  | hcircle center radius => exact circle_coveredBy_iff hz h0
  | hpolygon vertices => exact polygon_coveredBy_iff h0 hr
  | hcomposite components ih =>
      have hparts := madeOf_composite.mp hz
      rw [coveredBy, coveredByAny_iff, composite_meetsDisc_iff]
      exact exists_congr fun z => and_congr_right fun hmem => ih z hmem (hparts z hmem)

theorem coveredBy_mono {z : ZoR ℝ} {c : Point ℝ} {r r' : ℝ} (hle : r ≤ r')
    (h : z.coveredBy c r) : z.coveredBy c r' := by
  induction z using nested_induction with
  | hneighbor => exact h
  | hcircle center radius =>
      simp only [coveredBy, decide_eq_true_eq] at h ⊢
      exact h.trans (add_le_add_right hle radius)
  | hpolygon vertices =>
      simp only [coveredBy, Bool.or_eq_true, decide_eq_true_eq] at h ⊢
      exact h.imp_right fun hnear => hnear.trans hle
  | hcomposite components ih =>
      rcases coveredByAny_iff.mp h with ⟨z, hz, hcov⟩
      exact coveredByAny_iff.mpr ⟨z, hz, ih z hz hcov⟩

/-! ## The three tests together -/

/-- Coverage is containment or a short way to the boundary. -/
def Agrees (z : ZoR ℝ) (c : Point ℝ) (r : ℝ) : Prop :=
  z.coveredBy c r ↔ z.contains c ∨ z.distanceToBoundary c ≤ r

theorem circle_agrees (center c : Point ℝ) (radius : ℝ) {r : ℝ} (h0 : 0 ≤ r) :
    (circle center radius).Agrees c r := by
  simp only [Agrees, coveredBy, contains, distanceToBoundary, decide_eq_true_eq]
  split_ifs with hout
  · rw [sub_le_iff_le_add']
    exact ⟨Or.inr, fun h => h.elim (fun hin => absurd hin (not_le.mpr hout)) id⟩
  · have hin : c.distanceFromPoint center ≤ radius := not_lt.mp hout
    exact iff_of_true (hin.trans (le_add_of_nonneg_right h0)) (Or.inl hin)

theorem zero_lt_inf : (0 : ℝ) < Arith.inf := by
  simp only [Arith.inf]
  norm_num

/-- Where no component is a next-hop neighbourhood, the tests agree. -/
theorem agrees_of_madeOf {z : ZoR ℝ} (hz : z.MadeOf (· ≠ neighbor)) (c : Point ℝ) {r : ℝ}
    (h0 : 0 ≤ r) (hr : r < Arith.inf) : z.Agrees c r := by
  induction z using nested_induction with
  | hneighbor => exact absurd rfl hz
  | hcircle center radius => exact circle_agrees center c radius h0
  | hpolygon vertices =>
      simp only [Agrees, coveredBy, contains, distanceToBoundary, Bool.or_eq_true,
        decide_eq_true_eq]
  | hcomposite components ih =>
      have hparts := madeOf_composite.mp hz
      rw [Agrees, coveredBy, coveredByAny_iff, contains, containsAny_iff, distanceToBoundary,
        distanceToAny_le_iff]
      constructor
      · rintro ⟨z, hz, hcov⟩
        rcases (ih z hz (hparts z hz)).mp hcov with hin | hnear
        · exact Or.inl ⟨z, hz, hin⟩
        · exact Or.inr (Or.inr ⟨z, hz, hnear⟩)
      · rintro (⟨z, hz, hin⟩ | hinf | ⟨z, hz, hnear⟩)
        · exact ⟨z, hz, (ih z hz (hparts z hz)).mpr (Or.inl hin)⟩
        · exact absurd hinf (not_le.mpr hr)
        · exact ⟨z, hz, (ih z hz (hparts z hz)).mpr (Or.inr hnear)⟩

theorem distanceToBoundary_nonneg (z : ZoR ℝ) (c : Point ℝ) : 0 ≤ z.distanceToBoundary c := by
  have hlow : ∀ r, z.distanceToBoundary c ≤ r → 0 ≤ r := by
    induction z using nested_induction with
    | hneighbor => exact fun r h => h
    | hcircle center radius =>
        intro r h
        simp only [distanceToBoundary] at h
        split_ifs at h with hout
        · exact (sub_nonneg.mpr hout.le).trans h
        · exact h
    | hpolygon vertices =>
        intro r h
        rcases polygonDistance_le_iff.mp h with hinf | ⟨e, _, hnear⟩
        · exact zero_lt_inf.le.trans hinf
        · rcases (c.distanceFromLine_spec e.1 e.2).1 with ⟨q, _, hdist⟩
          rw [← hdist] at hnear
          exact (c.distanceFromPoint_nonneg q).trans hnear
    | hcomposite components ih =>
        intro r h
        rcases distanceToAny_le_iff.mp h with hinf | ⟨z, hz, hnear⟩
        · exact zero_lt_inf.le.trans hinf
        · exact ih z hz r hnear
  exact hlow _ le_rfl

/-- A next-hop neighbourhood inside a zone puts its boundary everywhere. -/
theorem distanceToBoundary_of_neighbor {z : ZoR ℝ} (hz : ¬ z.MadeOf (· ≠ neighbor))
    (c : Point ℝ) : z.distanceToBoundary c = 0 := by
  apply le_antisymm _ (z.distanceToBoundary_nonneg c)
  induction z using nested_induction with
  | hneighbor => exact le_rfl
  | hcircle center radius => exact absurd (by simp [MadeOf]) hz
  | hpolygon vertices => exact absurd (by simp [MadeOf]) hz
  | hcomposite components ih =>
      rw [madeOf_composite] at hz
      push Not at hz
      rcases hz with ⟨z, hmem, hz⟩
      exact distanceToAny_le_iff.mpr (Or.inr ⟨z, hmem, ih z hmem hz⟩)

theorem exists_bound {α : Type} (l : List α) (f : α → ℝ) : ∃ B, ∀ a ∈ l, f a ≤ B := by
  rcases ((List.finite_toSet l).image f).bddAbove with ⟨B, hB⟩
  exact ⟨B, fun a ha => hB (Set.mem_image_of_mem f ha)⟩

theorem x_le_of_coveredBy_polygon {vertices : List (Point ℝ)} {B : ℝ}
    (hB : ∀ v ∈ vertices, v.x ≤ B) {c : Point ℝ} (h : (polygon vertices).coveredBy c 0) :
    c.x ≤ B := by
  have hconvex : Convex ℝ {q : ℝ × ℝ | q.1 ≤ B} := convex_halfSpace_le ⟨fun _ _ => rfl,
    fun _ _ => rfl⟩ B
  rw [coveredBy, Bool.or_eq_true, decide_eq_true_eq, polygonDistance_le_iff] at h
  rcases h with hin | hinf | ⟨e, he, hnear⟩
  · have hsub : {v | v ∈ vertices.map Point.pair} ⊆ {q : ℝ × ℝ | q.1 ≤ B} := by
      intro v hv
      rcases List.mem_map.mp hv with ⟨w, hw, rfl⟩
      exact hB w hw
    exact convexHull_min hsub hconvex (mem_hull_of_contains hin)
  · exact absurd hinf (not_le.mpr zero_lt_inf)
  · have hmem := mem_of_mem_edges he
    rcases (c.distanceFromLine_spec e.1 e.2).1 with ⟨q, hq, hdist⟩
    have hx : q.x ≤ B := hconvex.segment_subset (hB e.1 hmem.1) (hB e.2 hmem.2)
      (Point.onSegment_iff.mp hq)
    have hle := c.x_le_add_distance q
    rw [hdist] at hle
    linarith

/-- The covered centres lie to the left of some line. -/
theorem exists_bound_of_coveredBy (z : ZoR ℝ) : ∃ B, ∀ c, z.coveredBy c 0 → c.x ≤ B := by
  induction z using nested_induction with
  | hneighbor => exact ⟨0, fun c h => absurd h (by simp [coveredBy])⟩
  | hcircle center radius =>
      refine ⟨center.x + radius, fun c h => ?_⟩
      have hle := c.x_le_add_distance center
      simp only [coveredBy, decide_eq_true_eq] at h
      linarith
  | hpolygon vertices =>
      rcases exists_bound vertices Point.x with ⟨B, hB⟩
      exact ⟨B, fun c h => x_le_of_coveredBy_polygon hB h⟩
  | hcomposite components ih =>
      choose! bound hbound using ih
      rcases exists_bound components bound with ⟨B, hB⟩
      refine ⟨B, fun c h => ?_⟩
      rcases coveredByAny_iff.mp h with ⟨z, hz, hcov⟩
      exact (hbound z hz c hcov).trans (hB z hz)

end ZoR

/-- A disc covers a zone of discs and polygons iff it meets it, and so does every
wider disc. An RSU whose disc meets the zone is a destination wherever it can be
reached. -/
theorem covered_iff_disc_meets {z : ZoR ℝ} (hz : z.MadeOf ZoR.IsSolid) {r : ℝ} (h0 : 0 ≤ r)
    (hr : r < Arith.inf) : (∀ c, z.coveredBy c r ↔ z.MeetsDisc c r) ∧
      (∀ c r', r ≤ r' → z.coveredBy c r → z.coveredBy c r') ∧
      ∀ fuel G rsuPositions s D, computeDestinationNodes fuel G rsuPositions r s z = .ok D →
        ∀ v pos, WeightedDigraph.Reaches G.Link s v → rsuPositions.lookup v = some pos →
          z.MeetsDisc pos r → v ∈ D := by
  have hiff : ∀ c, z.coveredBy c r ↔ z.MeetsDisc c r := fun c =>
    ZoR.coveredBy_iff_meetsDisc hz h0 hr
  refine ⟨hiff, fun c r' hle h => ZoR.coveredBy_mono hle h, ?_⟩
  intro fuel G rsuPositions s D hrun v pos hv hpos hmeets
  have hcov : Destinations.Covers rsuPositions r z v := ⟨pos, hpos, (hiff pos).mpr hmeets⟩
  have hspec := (computeDestinationNodes_spec G rsuPositions r s z).2 fuel D hrun
  exact (hspec.covered ⟨v, hv, hcov⟩ v).mpr ⟨hv, hcov⟩

/-- A lone RSU beside a disc and a square. -/
theorem covered_iff_disc_meets_square :
    let z : ZoR ℝ := .composite [.circle ⟨0, 0⟩ 1, .polygon square]
    let rsuPositions : NodePosition ℝ := AList.singleton 0 ⟨1 + 1, 0⟩
    z.MeetsDisc ⟨1 + 1, 0⟩ 1 ∧ z.coveredBy ⟨1 + 1, 0⟩ (1 + 1) ∧
      ∃ fuel D, computeDestinationNodes fuel ∅ rsuPositions 1 0 z = .ok D ∧ 0 ∈ D := by
  intro z rsuPositions
  have hsolid : z.MadeOf ZoR.IsSolid := ⟨zero_le_one, trivial, trivial⟩
  have hinf : (1 : ℝ) < Arith.inf := by
    simp only [Arith.inf]
    norm_num
  rcases covered_iff_disc_meets hsolid zero_le_one hinf with ⟨hiff, hmono, hfound⟩
  have hcov : z.coveredBy ⟨1 + 1, 0⟩ 1 := by
    apply ZoR.coveredByAny_iff.mpr
    refine ⟨_, List.mem_cons_self, ?_⟩
    simp only [ZoR.coveredBy, decide_eq_true_eq, Point.distance_axis]
    norm_num
  have hmeets := (hiff _).mp hcov
  obtain ⟨D, bound, hrun, _⟩ := computeDestinationNodes_returns ∅ rsuPositions 1 0 z
  refine ⟨hmeets, hmono _ _ (by norm_num) hcov, bound, D, hrun bound le_rfl, ?_⟩
  exact hfound bound ∅ rsuPositions 0 D (hrun bound le_rfl) 0 _
    (WeightedDigraph.Reaches.refl 0) rfl hmeets

/-- The tests agree on a zone iff none of its components is a next-hop
neighbourhood. With one, the boundary is reached everywhere, and the tests
agree where the zone is covered all the same. -/
theorem coverage_agrees_iff (z : ZoR ℝ) :
    ((∀ c r, 0 ≤ r → r < Arith.inf → z.Agrees c r) ↔ z.MadeOf (· ≠ .neighbor)) ∧
      (¬ z.MadeOf (· ≠ .neighbor) → ∀ c r, 0 ≤ r → z.distanceToBoundary c = 0 ∧
        (z.Agrees c r ↔ z.coveredBy c r)) := by
  have hneighbor : ¬ z.MadeOf (· ≠ .neighbor) → ∀ c r, 0 ≤ r → z.distanceToBoundary c = 0 ∧
      (z.Agrees c r ↔ z.coveredBy c r) := by
    intro hz c r h0
    have hzero := ZoR.distanceToBoundary_of_neighbor hz c
    have hle : z.distanceToBoundary c ≤ r := hzero.le.trans h0
    exact ⟨hzero, fun h => h.mpr (Or.inr hle), fun h => iff_of_true h (Or.inr hle)⟩
  refine ⟨⟨fun hall => ?_, fun hz c r h0 hr => ZoR.agrees_of_madeOf hz c h0 hr⟩, hneighbor⟩
  by_contra hz
  rcases z.exists_bound_of_coveredBy with ⟨B, hB⟩
  have hcov := ((hneighbor hz ⟨B + 1, 0⟩ 0 le_rfl).2).mp (hall _ 0 le_rfl ZoR.zero_lt_inf)
  have hle := hB _ hcov
  simp only at hle
  linarith

theorem coverage_agrees_iff_square : (ZoR.composite [.circle ⟨0, 0⟩ 1, .polygon square]).Agrees
      ⟨2, 0⟩ 0 ∧ (ZoR.composite [.polygon square, .neighbor]).distanceToBoundary ⟨2, 0⟩ = 0 := by
  constructor
  · have hfree : (ZoR.composite [.circle ⟨0, 0⟩ 1, .polygon square]).MadeOf (· ≠ .neighbor) := by
      simp [ZoR.MadeOf, ZoR.AllMadeOf]
    exact (coverage_agrees_iff _).1.mpr hfree ⟨2, 0⟩ 0 le_rfl ZoR.zero_lt_inf
  · have hneighbor : ¬ (ZoR.composite [.polygon square, .neighbor]).MadeOf (· ≠ .neighbor) := by
      simp [ZoR.MadeOf, ZoR.AllMadeOf]
    exact ((coverage_agrees_iff _).2 hneighbor ⟨2, 0⟩ 0 le_rfl).1

/-- A composite of a next-hop neighbourhood alone is decoded from three bytes. It
covers nothing and has its boundary everywhere. -/
theorem not_coverage_agrees : ¬ ∀ (buf : Decoding.Bytes) (z : ZoR RawFloat) (value : RawFloat → ℝ),
    ZoR.deserialize buf = .ok (some z) →
    (z.map value).MadeOf (fun w => ∀ center radius, w = .circle center radius → 0 ≤ radius) →
    ∀ c r, 0 ≤ r → r < Arith.inf → (z.map value).Agrees c r := by
  intro hall
  have hradii : ((ZoR.composite [.neighbor]).map fun _ : RawFloat => (0 : ℝ)).MadeOf
      (fun w => ∀ center radius, w = .circle center radius → 0 ≤ radius) := by
    simp [ZoR.map, ZoR.mapAll, ZoR.MadeOf, ZoR.AllMadeOf]
  have hagrees := hall [ZoRType.composite.tag, 1, ZoRType.neighbor.tag] (.composite [.neighbor])
    (fun _ => 0) rfl hradii ⟨0, 0⟩ 0 le_rfl ZoR.zero_lt_inf
  have hcov := hagrees.mpr (Or.inr (ZoR.distanceToAny_le_iff.mpr
    (Or.inr ⟨.neighbor, List.mem_singleton_self _, le_rfl⟩)))
  simp [ZoR.map, ZoR.mapAll, ZoR.coveredBy, ZoR.coveredByAny] at hcov

end Cafe
