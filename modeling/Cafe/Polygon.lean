import Cafe.EvenOdd
import Cafe.ZorRoundTrip

/-!
# The points of a polygon

The scan of `contains` computes the even-odd rule. Its verdict depends on the
closed walk and not on the list that presents it, and every point it accepts
lies in the hull of the vertices.
-/

open ClosedWalk

namespace Cafe

namespace Point

def pair {F : Type} (p : Point F) : F × F := (p.x, p.y)

/-- The edge from `a` to `b` crosses the ray to the right of `p`. -/
noncomputable def crosses (p a b : Point ℝ) : Bool := EvenOdd.crosses p.pair a.pair b.pair

theorem crosses_comm (p a b : Point ℝ) : p.crosses a b = p.crosses b a :=
  EvenOdd.crosses_comm _ _ _

theorem crosses_self (p a : Point ℝ) : p.crosses a a = false := EvenOdd.crosses_self _ _

end Point

namespace ZoR

/-- One round of the scan. -/
theorem crossings_cons (p vj vi : Point ℝ) (rest : List (Point ℝ)) (inside : Bool) :
    crossings p vj (vi :: rest) inside = crossings p vi rest (inside ^^ p.crosses vj vi) := by
  have htest : decide (decide (p.y < vi.y) ≠ decide (p.y < vj.y) ∧
      p.x < (vj.x - vi.x) * (p.y - vi.y) / (vj.y - vi.y) + vi.x) = p.crosses vj vi := by
    rw [Bool.decide_and, Point.crosses, EvenOdd.crosses, Bool.xor_comm]
    congr 1
    have habove : ∀ v : Point ℝ, EvenOdd.above p.pair v.pair = decide (p.y < v.y) :=
      fun v => decide_eq_decide.mpr Iff.rfl
    rw [habove, habove]
    cases decide (p.y < vi.y) <;> cases decide (p.y < vj.y) <;> rfl
  rw [crossings, htest]
  cases p.crosses vj vi <;> simp

theorem crossings_eq (p vj : Point ℝ) (vertices : List (Point ℝ)) (inside : Bool) :
    crossings p vj vertices inside = (inside ^^ parity p.crosses (steps vj vertices)) := by
  induction vertices generalizing vj inside with
  | nil => simp [crossings, steps]
  | cons vi rest ih => rw [crossings_cons, ih, steps, parity_cons, Bool.xor_assoc]

theorem polygonContains_eq (vertices : List (Point ℝ)) (p : Point ℝ) :
    polygonContains vertices p = parity p.crosses (edges vertices) := by
  rcases List.eq_nil_or_concat vertices with rfl | ⟨l, z, rfl⟩
  · rfl
  · have hperm := edges_append_perm [z] l
    simp only [List.concat_eq_append, polygonContains, List.getLast?_append,
      List.getLast?_singleton,
      Option.some_or]
    rw [crossings_eq, Bool.false_xor, ← parity_perm hperm]
    rfl

/-! ## The presentation of a polygon -/

/-- A division that fails on a zero divisor. -/
noncomputable def checkedDiv (a b : ℝ) : Option ℝ := if b = 0 then none else some (a / b)

/-- The scan with its division checked. The divisor is looked at for the edges
that straddle the height of the point, and for no others. -/
noncomputable def crossingsChecked (p : Point ℝ) : Point ℝ → List (Point ℝ) → Bool → Option Bool
  | _, [], inside => some inside
  | vj, vi :: rest, inside => do
      let crosses ←
        if decide (p.y < vi.y) ≠ decide (p.y < vj.y) then do
          let q ← checkedDiv ((vj.x - vi.x) * (p.y - vi.y)) (vj.y - vi.y)
          pure (decide (p.x < q + vi.x))
        else
          pure false
      crossingsChecked p vi rest (if crosses then !inside else inside)

noncomputable def polygonContainsChecked (vertices : List (Point ℝ)) (p : Point ℝ) : Option Bool :=
  match vertices.getLast? with
  | none => some false
  | some last => crossingsChecked p last vertices false

theorem crossingsChecked_eq (p vj : Point ℝ) (vertices : List (Point ℝ)) (inside : Bool) :
    crossingsChecked p vj vertices inside = some (crossings p vj vertices inside) := by
  induction vertices generalizing vj inside with
  | nil => rfl
  | cons vi rest ih =>
      rw [crossingsChecked, crossings]
      by_cases hstraddle : decide (p.y < vi.y) ≠ decide (p.y < vj.y)
      · have hne : vj.y - vi.y ≠ 0 := by
          intro hzero
          rw [sub_eq_zero.mp hzero] at hstraddle
          exact hstraddle rfl
        simp only [checkedDiv, if_neg hne, hstraddle, not_false_eq_true,
          true_and, ne_eq]
        exact ih vi _
      · simp only [hstraddle, false_and, decide_false]
        exact ih vi _

theorem polygonContainsChecked_eq (vertices : List (Point ℝ)) (p : Point ℝ) :
    polygonContainsChecked vertices p = some (polygonContains vertices p) := by
  unfold polygonContainsChecked polygonContains
  cases vertices.getLast? with
  | none => rfl
  | some last => exact crossingsChecked_eq p last vertices false

end ZoR

/-- A polygon contains the same points from whichever vertex and in whichever
direction it is given. Of the parts into which chords cut it, an odd number
contain a point exactly when it does. The scan never divides by zero. -/
theorem contains_of_presentation (vertices : List (Point ℝ)) (p : Point ℝ) :
    (∀ n, (ZoR.polygon (vertices.rotate n)).contains p = (ZoR.polygon vertices).contains p) ∧
      (ZoR.polygon vertices.reverse).contains p = (ZoR.polygon vertices).contains p ∧
      (∀ k, (ZoR.polygon vertices).contains p =
        ((ZoR.polygon (vertices.take (k + 1))).contains p ^^
          (ZoR.polygon (vertices.drop k ++ vertices.take 1)).contains p)) ∧
      (∀ parts, Cuts vertices parts → ((ZoR.polygon vertices).contains p ↔
        Odd (parts.countP fun part => (ZoR.polygon part).contains p))) ∧
      ZoR.polygonContainsChecked vertices p = some ((ZoR.polygon vertices).contains p) := by
  have hcontains : ∀ vs : List (Point ℝ),
      (ZoR.polygon vs).contains p = parity p.crosses (edges vs) := fun vs => by
    rw [ZoR.contains, ZoR.polygonContains_eq]
  simp only [hcontains]
  refine ⟨fun n => ?_, ?_, fun k => ?_, fun parts hcuts => ?_, ?_⟩
  · exact parity_edges_rotate vertices n
  · exact parity_edges_reverse p.crosses_comm vertices
  · exact parity_edges_chord p.crosses_comm p.crosses_self vertices k
  · exact hcuts.parity_iff p.crosses_comm p.crosses_self
  · rw [ZoR.polygonContainsChecked_eq, ZoR.polygonContains_eq]

/-- The corners of a square about the origin. -/
def square : List (Point ℝ) := [⟨1, 1⟩, ⟨-1, 1⟩, ⟨-1, -1⟩, ⟨1, -1⟩]

/-- The square cut along its diagonal. -/
theorem contains_of_presentation_square : ∃ parts, Cuts square parts ∧ parts.length = 2 ∧
    ((ZoR.polygon square).contains (⟨0, 0⟩ : Point ℝ) ↔
      Odd (parts.countP fun part => (ZoR.polygon part).contains (⟨0, 0⟩ : Point ℝ))) := by
  have hwhole : Cuts square ([] ++ square :: []) := .whole
  have hcuts : Cuts square [square.take 3, square.drop 2 ++ square.take 1] := hwhole.chord 2
  exact ⟨_, hcuts, rfl, (contains_of_presentation square ⟨0, 0⟩).2.2.2.1 _ hcuts⟩

/-! ## The hull of a polygon -/

namespace ZoR

/-- The convex hull of the vertices of a polygon. -/
def hull (vertices : List (Point ℝ)) : Set (Point ℝ) :=
  {p | p.pair ∈ convexHull ℝ {v | v ∈ vertices.map Point.pair}}

section Polygons

variable {F : Type}

mutual

/-- The polygons of a zone, however deep in its composites. -/
def polygons : ZoR F → List (List (Point F))
  | polygon vertices => [vertices]
  | composite components => polygonsAll components
  | _ => []

def polygonsAll : List (ZoR F) → List (List (Point F))
  | [] => []
  | z :: zs => z.polygons ++ polygonsAll zs

end

mutual

/-- The zone is made of components with the property `P`, nested in composites. -/
def MadeOf (P : ZoR F → Prop) : ZoR F → Prop
  | composite components => AllMadeOf P components
  | z => P z

def AllMadeOf (P : ZoR F → Prop) : List (ZoR F) → Prop
  | [] => True
  | z :: zs => z.MadeOf P ∧ AllMadeOf P zs

end

def IsPolygon : ZoR F → Prop
  | polygon _ => True
  | _ => False

theorem mem_polygonsAll {zs : List (ZoR F)} {vertices : List (Point F)} :
    vertices ∈ polygonsAll zs ↔ ∃ z ∈ zs, vertices ∈ z.polygons := by
  induction zs with
  | nil => simp [polygonsAll]
  | cons z zs ih => simp [polygonsAll, ih]

theorem madeOf_composite {P : ZoR F → Prop} {zs : List (ZoR F)} :
    (composite zs).MadeOf P ↔ ∀ z ∈ zs, z.MadeOf P := by
  rw [MadeOf]
  induction zs with
  | nil => simp [AllMadeOf]
  | cons z zs ih => simp [AllMadeOf, ih]

theorem containsAny_iff [Arith F] {zs : List (ZoR F)} {p : Point F} :
    containsAny zs p = true ↔ ∃ z ∈ zs, z.contains p := by
  induction zs with
  | nil => simp [containsAny]
  | cons z zs ih => simp [containsAny, ih]

end Polygons

theorem inside_of_polygonContains {vertices : List (Point ℝ)} {p : Point ℝ} :
    polygonContains vertices p = EvenOdd.inside (vertices.map Point.pair) p.pair := by
  rw [polygonContains_eq, EvenOdd.inside, edges_map, parity_map]
  rfl

theorem mem_hull_of_contains {vertices : List (Point ℝ)} {p : Point ℝ}
    (h : (polygon vertices).contains p) : p ∈ hull vertices := by
  rw [contains, inside_of_polygonContains] at h
  exact EvenOdd.mem_convexHull_of_inside h

end ZoR

/-- A polygon contains no point outside the hull of its vertices, a composite of
polygons none outside all their hulls, and fewer than three vertices none. -/
theorem contains_within_hull : (∀ (vertices : List (Point ℝ)) (p : Point ℝ),
      (ZoR.polygon vertices).contains p → p ∈ ZoR.hull vertices) ∧
    (∀ (z : ZoR ℝ) (p : Point ℝ), z.MadeOf ZoR.IsPolygon → z.contains p →
      ∃ vertices ∈ z.polygons, p ∈ ZoR.hull vertices) ∧
    ∀ (vertices : List (Point ℝ)) (p : Point ℝ), vertices.length < 3 →
      (ZoR.polygon vertices).contains p = false := by
  refine ⟨fun _ _ => ZoR.mem_hull_of_contains, ?_, ?_⟩
  · intro z p
    induction z using ZoR.nested_induction with
    | hneighbor => exact fun h _ => absurd h id
    | hcircle center radius => exact fun h _ => absurd h id
    | hpolygon vertices =>
        exact fun _ h => ⟨vertices, List.mem_singleton_self _, ZoR.mem_hull_of_contains h⟩
    | hcomposite components ih =>
        intro hof h
        rcases ZoR.containsAny_iff.mp h with ⟨z, hz, hcontains⟩
        rcases ih z hz (ZoR.madeOf_composite.mp hof z hz) hcontains with ⟨vertices, hmem, hhull⟩
        exact ⟨vertices, ZoR.mem_polygonsAll.mpr ⟨z, hz, hmem⟩, hhull⟩
  · intro vertices p hlt
    rw [ZoR.contains, ZoR.inside_of_polygonContains]
    apply EvenOdd.inside_of_length_lt
    rwa [List.length_map]

theorem square_contains : (ZoR.polygon square).contains (⟨0, 0⟩ : Point ℝ) = true := by
  simp [ZoR.contains, ZoR.polygonContains, square, ZoR.crossings]

theorem contains_within_hull_square : (⟨0, 0⟩ : Point ℝ) ∈ ZoR.hull square ∧
    (∃ vertices ∈ (ZoR.composite [.polygon square]).polygons, ⟨0, 0⟩ ∈ ZoR.hull vertices) ∧
    (ZoR.polygon (square.take 2)).contains ⟨0, 0⟩ = false := by
  have hcontains : (ZoR.composite [.polygon square]).contains (⟨0, 0⟩ : Point ℝ) :=
    ZoR.containsAny_iff.mpr ⟨_, List.mem_singleton_self _, square_contains⟩
  refine ⟨?_, ?_, ?_⟩
  · exact contains_within_hull.1 square ⟨0, 0⟩ square_contains
  · exact contains_within_hull.2.1 _ _ ⟨trivial, trivial⟩ hcontains
  · exact contains_within_hull.2.2 _ _ (by decide)

end Cafe
