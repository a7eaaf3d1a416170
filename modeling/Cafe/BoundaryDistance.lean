import Cafe.Coverage

/-!
# The distance to the boundary of a zone

The distance to a line is the least distance to a point of the segment. From
one point to another it changes by no more than the two are apart, and so does
the distance to the boundary of any zone.
-/

open ClosedWalk

namespace Cafe

namespace Point

/-- From one point to another a value falls by no more than the two are apart. -/
def Steady (f : Point ℝ → ℝ) : Prop := ∀ p q, f p ≤ f q + p.distanceFromPoint q

theorem Steady.abs_sub_le {f : Point ℝ → ℝ} (h : Steady f) (p q : Point ℝ) :
    |f p - f q| ≤ p.distanceFromPoint q := by
  rw [abs_sub_le_iff]
  have hpq := h p q
  have hqp := h q p
  rw [distanceFromPoint_comm] at hqp
  constructor <;> linarith

theorem steady_const (r : ℝ) : Steady fun _ => r := fun p q =>
  le_add_of_nonneg_right (p.distanceFromPoint_nonneg q)

theorem steady_distanceFromPoint (s : Point ℝ) : Steady fun p => p.distanceFromPoint s := by
  intro p q
  rw [add_comm]
  exact p.distanceFromPoint_triangle q s

/-- The distance to a set, where some point of it is the nearest. -/
theorem steady_of_nearest {S : Set (Point ℝ)} {f : Point ℝ → ℝ}
    (h : ∀ p, IsLeast (p.distanceFromPoint '' S) (f p)) : Steady f := by
  intro p q
  obtain ⟨s, hs, hnearest⟩ := (h q).1
  have hle : f p ≤ p.distanceFromPoint s := (h p).2 ⟨s, hs, rfl⟩
  have htriangle := steady_distanceFromPoint s p q
  simp only [hnearest] at htriangle
  exact hle.trans htriangle

/-- What is left of a value above a limit. -/
theorem Steady.excess {f : Point ℝ → ℝ} (h : Steady f) (r : ℝ) :
    Steady fun p => if r < f p then f p - r else 0 := by
  intro p q
  have hpq := h p q
  have hnonneg := p.distanceFromPoint_nonneg q
  simp only
  split_ifs with hp hq hq
  · linarith
  · linarith [not_lt.mp hq]
  · linarith
  · linarith

/-- The least of some steady values and a constant. -/
theorem steady_of_le_iff {α : Type} {S : Set α} {g : α → Point ℝ → ℝ} {f : Point ℝ → ℝ} {c : ℝ}
    (hf : ∀ p r, f p ≤ r ↔ c ≤ r ∨ ∃ a ∈ S, g a p ≤ r) (hg : ∀ a ∈ S, Steady (g a)) :
    Steady f := by
  intro p q
  have hnonneg := p.distanceFromPoint_nonneg q
  rw [hf]
  rcases (hf q (f q)).mp le_rfl with hc | ⟨a, ha, hle⟩
  · exact Or.inl (by linarith)
  · refine Or.inr ⟨a, ha, ?_⟩
    have hstep := hg a ha p q
    linarith

theorem isLeast_distanceFromLine (p a b : Point ℝ) :
    IsLeast (p.distanceFromPoint '' {q | OnSegment a b q}) (p.distanceFromLine a b) := by
  obtain ⟨⟨q, hq, hnearest⟩, hle⟩ := p.distanceFromLine_spec a b
  refine ⟨⟨q, hq, hnearest⟩, ?_⟩
  rintro r ⟨q', hq', rfl⟩
  exact hle q' hq'

theorem steady_distanceFromLine (a b : Point ℝ) : Steady fun p => p.distanceFromLine a b :=
  steady_of_nearest fun p => p.isLeast_distanceFromLine a b

end Point

theorem ZoR.steady_distanceToBoundary (z : ZoR ℝ) : Point.Steady z.distanceToBoundary := by
  induction z using nested_induction with
  | hneighbor => exact Point.steady_const 0
  | hcircle center radius => exact (Point.steady_distanceFromPoint center).excess radius
  | hpolygon vertices =>
      exact Point.steady_of_le_iff (S := {e | e ∈ edges vertices})
        (fun p r => polygonDistance_le_iff) fun e _ => Point.steady_distanceFromLine e.1 e.2
  | hcomposite components ih =>
      exact Point.steady_of_le_iff (S := {z | z ∈ components})
        (fun p r => distanceToAny_le_iff) ih

/-- The distance to a line is that to the segment. The distance to the boundary
of a zone moves no faster than the point, and the difference between sender and
node no faster than the two of them. -/
theorem boundary_distance :
    (∀ p a b : Point ℝ, IsLeast (p.distanceFromPoint '' {q | Point.OnSegment a b q})
      (p.distanceFromLine a b)) ∧
    (∀ (z : ZoR ℝ) (p q : Point ℝ),
      |z.distanceToBoundary p - z.distanceToBoundary q| ≤ p.distanceFromPoint q) ∧
    ∀ (z : ZoR ℝ) (sender node sender' node' : Point ℝ),
      |(z.distanceToBoundary sender - z.distanceToBoundary node) -
          (z.distanceToBoundary sender' - z.distanceToBoundary node')| ≤
        sender.distanceFromPoint sender' + node.distanceFromPoint node' := by
  refine ⟨Point.isLeast_distanceFromLine, fun z => z.steady_distanceToBoundary.abs_sub_le, ?_⟩
  intro z sender node sender' node'
  have hsender := z.steady_distanceToBoundary.abs_sub_le sender sender'
  have hnode := z.steady_distanceToBoundary.abs_sub_le node node'
  rw [sub_sub_sub_comm]
  exact (abs_sub _ _).trans (add_le_add hsender hnode)

end Cafe
