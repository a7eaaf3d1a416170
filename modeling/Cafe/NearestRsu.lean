import Cafe.Coverage

/-!
# The fallback to the nearest RSU

Over the real numbers the search finds the RSUs that cover the zone, and
without one the nearest. It keeps its first guess, the largest node id, when
no distance lies below that of a zone without boundary.
-/

open WeightedDigraph

namespace Cafe

namespace Destinations

variable {G : Graph} {rsuPositions : NodePosition ℝ} {r : ℝ} {zor : ZoR ℝ} {s : NodeId}

/-- The node can be reached from `s` and has a position. -/
def Candidates (G : Graph) (rsuPositions : NodePosition ℝ) (s v : NodeId) : Prop :=
  Reaches G.Link s v ∧ ∃ pos, rsuPositions.lookup v = some pos

/-- No node that can be reached lies nearer to the zone. -/
def IsNearest (G : Graph) (rsuPositions : NodePosition ℝ) (zor : ZoR ℝ) (s v : NodeId) : Prop :=
  Reaches G.Link s v ∧ ∃ pos, rsuPositions.lookup v = some pos ∧ ∀ w pos', Reaches G.Link s w →
    rsuPositions.lookup w = some pos' → zor.distanceToBoundary pos ≤ zor.distanceToBoundary pos'

/-- The search returns `D` when it is given fuel enough. -/
def Returns (G : Graph) (rsuPositions : NodePosition ℝ) (r : ℝ) (zor : ZoR ℝ) (s : NodeId)
    (D : DestinationNodes) : Prop :=
  ∃ bound, ∀ fuel, bound ≤ fuel → computeDestinationNodes fuel G rsuPositions r s zor = .ok D

variable (rsuPositions r zor) in
/-- After a scan the nearest node is the old one, or a scanned one at the
distance that the scan keeps. -/
theorem foldl_compute_minDist (l : List NodeId) (b : Found ℝ) :
    let b' := l.foldl (compute rsuPositions r zor) b
    (b'.minDist ≤ b.minDist ∧ ∀ v ∈ l, ∀ dist, Candidate rsuPositions r zor v dist →
        b'.minDist ≤ dist) ∧
      ((b'.minDist = b.minDist ∧ b'.nearestNode = b.nearestNode) ∨
        (b'.nearestNode ∈ l ∧ Candidate rsuPositions r zor b'.nearestNode b'.minDist)) := by
  induction l generalizing b with
  | nil => simp
  | cons x l ih =>
      rw [List.foldl_cons]
      rcases ih (compute rsuPositions r zor b x) with ⟨⟨hle, hall⟩, hnear⟩
      rcases compute_nearest rsuPositions r zor b x
        with ⟨dist, hcand, hlt, hx, hmin⟩ | ⟨hno, hx, hmin⟩
      · refine ⟨⟨hle.trans (hmin.le.trans hlt.le), ?_⟩, Or.inr ?_⟩
        · intro v hv dist' hcand'
          rcases List.mem_cons.mp hv with rfl | hv
          · obtain rfl := hcand.unique hcand'
            exact hle.trans hmin.le
          · exact hall v hv dist' hcand'
        · rcases hnear with ⟨hdist, hnode⟩ | ⟨hmem, hcand'⟩
          · rw [hdist, hnode, hx, hmin]
            exact ⟨List.mem_cons_self, hcand⟩
          · exact ⟨List.mem_cons_of_mem _ hmem, hcand'⟩
      · rw [hmin] at hle hnear
        refine ⟨⟨hle, ?_⟩, ?_⟩
        · intro v hv dist' hcand'
          rcases List.mem_cons.mp hv with rfl | hv
          · exact hle.trans (not_lt.mp (hno dist' hcand'))
          · exact hall v hv dist' hcand'
        · rcases hnear with ⟨hdist, hnode⟩ | ⟨hmem, hcand'⟩
          · exact Or.inl ⟨hdist, hnode.trans hx⟩
          · exact Or.inr ⟨List.mem_cons_of_mem _ hmem, hcand'⟩

/-- What the search returns is a scan of the nodes it can reach. -/
theorem exists_scan {fuel : ℕ} {D : DestinationNodes}
    (h : computeDestinationNodes fuel G rsuPositions r s zor = .ok D) :
    ∃ visited : List NodeId, (∀ v, v ∈ visited ↔ Reaches G.Link s v) ∧
      D = if (visited.foldl (compute rsuPositions r zor) (Found.init ℝ)).dstNodes.isEmpty then
        [(visited.foldl (compute rsuPositions r zor) (Found.init ℝ)).nearestNode]
      else (visited.foldl (compute rsuPositions r zor) (Found.init ℝ)).dstNodes := by
  obtain ⟨b, hb, h⟩ := Fallible.bind_eq_ok.mp h
  obtain ⟨hq, hinv⟩ := (bfs_spec fuel (start_inv G rsuPositions r zor s)).2 b hb
  refine ⟨b.visited, hinv.visited_iff hq, ?_⟩
  rw [← hinv.found]
  split at h
  · rename_i hemp
    rw [if_pos hemp]
    exact (Fallible.pure_eq_ok.mp h).symm
  · rename_i hemp
    rw [if_neg hemp]
    exact (Fallible.pure_eq_ok.mp h).symm

/-- Without a cover, a node at a distance below the greatest one makes the search
return a nearest node. -/
theorem exists_isNearest {fuel : ℕ} {D : DestinationNodes}
    (h : computeDestinationNodes fuel G rsuPositions r s zor = .ok D)
    (hno : ∀ v, Reaches G.Link s v → ¬ Covers rsuPositions r zor v)
    (hbelow : ∃ v pos, Reaches G.Link s v ∧ rsuPositions.lookup v = some pos ∧
      zor.distanceToBoundary pos < Arith.inf) :
    ∃ v, D = [v] ∧ IsNearest G rsuPositions zor s v := by
  rcases exists_scan h with ⟨visited, hvisited, hD⟩
  rcases foldl_compute_minDist rsuPositions r zor visited (Found.init ℝ)
    with ⟨⟨_, hall⟩, hnear⟩
  have hcandidate : ∀ v pos, Reaches G.Link s v → rsuPositions.lookup v = some pos →
      Candidate rsuPositions r zor v (zor.distanceToBoundary pos) :=
    fun v pos hv hpos => ⟨pos, hpos, fun hcov => hno v hv ⟨pos, hpos, hcov⟩, rfl⟩
  have hempty : (visited.foldl (compute rsuPositions r zor) (Found.init ℝ)).dstNodes = [] := by
    apply List.eq_nil_iff_forall_not_mem.mpr
    intro v hv
    rcases (foldl_compute_mem visited (Found.init ℝ) v).mp hv with hv | ⟨hmem, hcov⟩
    · cases hv
    · exact hno v ((hvisited v).mp hmem) hcov
  rw [hempty] at hD
  refine ⟨_, hD, ?_⟩
  rcases hnear with ⟨hdist, _⟩ | ⟨hmem, pos, hpos, _, hdist⟩
  · rcases hbelow with ⟨v, pos, hv, hpos, hlt⟩
    have hle := hall v ((hvisited v).mpr hv) _ (hcandidate v pos hv hpos)
    rw [hdist] at hle
    exact absurd hlt (not_lt.mpr hle)
  · refine ⟨(hvisited _).mp hmem, pos, hpos, fun w pos' hw hpos' => ?_⟩
    rw [hdist]
    exact hall w ((hvisited w).mpr hw) _ (hcandidate w pos' hw hpos')

/-- What the search is for, from `s`, as soon as it can reach a node with a
position. -/
structure Serves (G : Graph) (rsuPositions : NodePosition ℝ) (r : ℝ) (zor : ZoR ℝ) (s : NodeId)
    (D : DestinationNodes) : Prop where
  nonempty : D ≠ []
  candidates : ∀ v ∈ D, Candidates G rsuPositions s v
  covered : (∃ v, Reaches G.Link s v ∧ Covers rsuPositions r zor v) →
    ∀ v, v ∈ D ↔ Reaches G.Link s v ∧ Covers rsuPositions r zor v
  nearest : (∀ v, Reaches G.Link s v → ¬ Covers rsuPositions r zor v) →
    ∃ v, D = [v] ∧ IsNearest G rsuPositions zor s v
  component : ∀ s' D', Reaches G.Link s s' → Reaches G.Link s' s →
    Returns G rsuPositions r zor s' D' →
    (∃ v, Reaches G.Link s v ∧ Covers rsuPositions r zor v) → ∀ v, v ∈ D ↔ v ∈ D'

/-- A node with a position that can be reached covers the zone or lies below the
greatest distance, or the first guess is such a node, and a nearest one. -/
def Decided (G : Graph) (rsuPositions : NodePosition ℝ) (r : ℝ) (zor : ZoR ℝ) (s : NodeId) : Prop :=
  (∃ v pos, Reaches G.Link s v ∧ rsuPositions.lookup v = some pos ∧
      (zor.coveredBy pos r ∨ zor.distanceToBoundary pos < Arith.inf)) ∨
    IsNearest G rsuPositions zor s 4294967295

theorem Returns.spec {D : DestinationNodes} (h : Returns G rsuPositions r zor s D) :
    Spec G rsuPositions r zor s D := by
  rcases h with ⟨bound, hrun⟩
  exact (computeDestinationNodes_spec G rsuPositions r s zor).2 bound D (hrun bound le_rfl)

/-- Which RSUs cover a zone is seen alike from all of a component. -/
theorem Returns.component {D D' : DestinationNodes} {s' : NodeId}
    (h : Returns G rsuPositions r zor s D) (h' : Returns G rsuPositions r zor s' D')
    (hto : Reaches G.Link s s') (hback : Reaches G.Link s' s)
    (hcov : ∃ v, Reaches G.Link s v ∧ Covers rsuPositions r zor v) (v : NodeId) :
    v ∈ D ↔ v ∈ D' := by
  have hcov' : ∃ v, Reaches G.Link s' v ∧ Covers rsuPositions r zor v := by
    rcases hcov with ⟨v, hv, hc⟩
    exact ⟨v, hback.trans hv, hc⟩
  rw [h.spec.covered hcov, h'.spec.covered hcov']
  exact and_congr_left fun _ => ⟨hback.trans, hto.trans⟩

/-- Reaching no node below the greatest distance, the search returns its first
guess. -/
theorem Returns.eq_guess {D : DestinationNodes} (h : Returns G rsuPositions r zor s D)
    (hno : ¬ ∃ v pos, Reaches G.Link s v ∧ rsuPositions.lookup v = some pos ∧
      (zor.coveredBy pos r ∨ zor.distanceToBoundary pos < Arith.inf)) : D = [4294967295] := by
  push Not at hno
  apply h.spec.none
  · rintro v hv ⟨pos, hpos, hcov⟩
    exact (hno v pos hv hpos).1 hcov
  · rintro v dist hv ⟨pos, hpos, _, rfl⟩
    exact not_lt.mpr (hno v pos hv hpos).2

theorem Returns.serves {D : DestinationNodes} (h : Returns G rsuPositions r zor s D)
    (hdecided : Decided G rsuPositions r zor s) : Serves G rsuPositions r zor s D := by
  have hnearest : (∀ v, Reaches G.Link s v → ¬ Covers rsuPositions r zor v) →
      ∃ v, D = [v] ∧ IsNearest G rsuPositions zor s v := by
    intro hno
    by_cases hbelow : ∃ v pos, Reaches G.Link s v ∧ rsuPositions.lookup v = some pos ∧
        (zor.coveredBy pos r ∨ zor.distanceToBoundary pos < Arith.inf)
    · rcases id h with ⟨bound, hrun⟩
      rcases hbelow with ⟨v, pos, hv, hpos, hcov | hlt⟩
      · exact absurd ⟨pos, hpos, hcov⟩ (hno v hv)
      · exact exists_isNearest (hrun bound le_rfl) hno ⟨v, pos, hv, hpos, hlt⟩
    · exact ⟨_, h.eq_guess hbelow, hdecided.resolve_left hbelow⟩
  have hmem : ∀ v ∈ D, Candidates G rsuPositions s v := by
    intro v hv
    by_cases hcov : ∃ v, Reaches G.Link s v ∧ Covers rsuPositions r zor v
    · rcases (h.spec.covered hcov v).mp hv with ⟨hreach, pos, hpos, _⟩
      exact ⟨hreach, pos, hpos⟩
    · push Not at hcov
      rcases hnearest hcov with ⟨w, rfl, hreach, pos, hpos, _⟩
      obtain rfl := List.mem_singleton.mp hv
      exact ⟨hreach, pos, hpos⟩
  refine ⟨?_, hmem, h.spec.covered, hnearest, fun s' D' hto hback h' => h.component h' hto hback⟩
  by_cases hcov : ∃ v, Reaches G.Link s v ∧ Covers rsuPositions r zor v
  · rcases id hcov with ⟨v, hv⟩
    exact List.ne_nil_of_mem ((h.spec.covered hcov v).mpr hv)
  · push Not at hcov
    rcases hnearest hcov with ⟨w, rfl, _⟩
    exact List.cons_ne_nil _ _

end Destinations

open Destinations in
/-- The search returns, and where it reaches a node with a position, what it
returns serves the zone iff the fallback is decided. -/
theorem serves_iff_decided (G : Graph) (rsuPositions : NodePosition ℝ) (r : ℝ) (s : NodeId)
    (zor : ZoR ℝ) : ∃ D, Returns G rsuPositions r zor s D ∧
      (((∃ v, Candidates G rsuPositions s v) → Serves G rsuPositions r zor s D) ↔
        ((∃ v, Candidates G rsuPositions s v) → Decided G rsuPositions r zor s)) := by
  obtain ⟨D, bound, hrun, _⟩ := computeDestinationNodes_returns G rsuPositions r s zor
  have hreturns : Returns G rsuPositions r zor s D := ⟨bound, hrun⟩
  refine ⟨D, hreturns, fun h hsome => ?_, fun h hsome => hreturns.serves (h hsome)⟩
  by_cases hbelow : ∃ v pos, Reaches G.Link s v ∧ rsuPositions.lookup v = some pos ∧
      (zor.coveredBy pos r ∨ zor.distanceToBoundary pos < Arith.inf)
  · exact Or.inl hbelow
  · have hguess := hreturns.eq_guess hbelow
    push Not at hbelow
    have hno : ∀ v, Reaches G.Link s v → ¬ Covers rsuPositions r zor v := by
      rintro v hv ⟨pos, hpos, hcov⟩
      exact (hbelow v pos hv hpos).1 hcov
    rcases (h hsome).nearest hno with ⟨v, hv, hnearest⟩
    rw [hguess, List.singleton_inj] at hv
    exact Or.inr (hv ▸ hnearest)

open Destinations in
/-- A composite without components is decoded from two bytes. From a lone RSU the
search for it returns an id that no RSU has. -/
theorem not_serves : ¬ ∀ (buf : Decoding.Bytes) (z : ZoR RawFloat) (value : RawFloat → ℝ)
    (G : Graph) (rsuPositions : NodePosition ℝ) (r : ℝ) (s : NodeId) (D : DestinationNodes),
    ZoR.deserialize buf = .ok (some z) → (z.map value).IsGeographic → 0 ≤ r →
    Returns G rsuPositions r (z.map value) s D → (∃ v, Candidates G rsuPositions s v) →
    Serves G rsuPositions r (z.map value) s D := by
  intro hall
  have hdist : ∀ pos : Point ℝ, (ZoR.composite []).distanceToBoundary pos = Arith.inf :=
    fun _ => rfl
  let lone : NodePosition ℝ := AList.singleton 0 ⟨0, 0⟩
  obtain ⟨D, bound, hrun, _⟩ := computeDestinationNodes_returns ∅ lone 0 0 (.composite [])
  have hreturns : Returns ∅ lone 0 (.composite []) 0 D := ⟨bound, hrun⟩
  have hserves := hall [ZoRType.composite.tag, 0] (.composite []) (fun _ => 0) ∅ lone 0 0 D rfl
    trivial le_rfl hreturns ⟨0, Reaches.refl 0, ⟨0, 0⟩, rfl⟩
  have hguess : D = [4294967295] := by
    apply hreturns.eq_guess
    rintro ⟨v, pos, _, _, hcov | hlt⟩
    · cases hcov
    · exact absurd hlt (hdist pos).not_lt
  rcases hserves.candidates 4294967295 (hguess ▸ List.mem_singleton_self _) with ⟨_, pos, hpos⟩
  cases hpos

end Cafe
