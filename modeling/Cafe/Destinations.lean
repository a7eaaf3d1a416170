import Cafe.MiraSearch
import Cafe.Zor

/-!
# The RSUs that serve a zone

A breadth-first search from the current node looks at every reachable RSU
with a position. The destinations are those that cover the zone; without
one it is the nearest, and without a nearest the largest node id.
-/

open WeightedDigraph

namespace Cafe

abbrev NodePosition (F : Type) := UnorderedMap NodeId (Point F)

variable {F : Type} [Arith F]

namespace Destinations

/-- What the lambda `compute` updates. -/
structure Found (F : Type) where
  dstNodes : DestinationNodes
  nearestNode : NodeId
  minDist : F

def Found.init (F : Type) [Arith F] : Found F where
  dstNodes := []
  nearestNode := 4294967295
  minDist := Arith.inf

def compute (rsuPositions : NodePosition F) (txRadius : F) (zor : ZoR F) (b : Found F)
    (nodeId : NodeId) : Found F :=
  match rsuPositions.lookup nodeId with
  | none => b
  | some pos =>
      if zor.coveredBy pos txRadius then
        { b with dstNodes := b.dstNodes.insert nodeId }
      else
        let dist := zor.distanceToBoundary pos
        if dist < b.minDist then { b with minDist := dist, nearestNode := nodeId } else b

/-- The search: the visited nodes in the order of their visits, and the queue. -/
structure Bfs (F : Type) where
  visited : List NodeId
  que : List NodeId
  found : Found F

def visit (rsuPositions : NodePosition F) (txRadius : F) (zor : ZoR F) (b : Bfs F)
    (nodeId : NodeId) : Bfs F where
  visited := b.visited ++ [nodeId]
  que := b.que ++ [nodeId]
  found := compute rsuPositions txRadius zor b.found nodeId

def visitFace (rsuPositions : NodePosition F) (txRadius : F) (zor : ZoR F) (b : Bfs F)
    (face : Face) : Bfs F :=
  if face.remoteNodeId ∈ b.visited then b
  else visit rsuPositions txRadius zor b face.remoteNodeId

def bfs (G : Graph) (rsuPositions : NodePosition F) (txRadius : F) (zor : ZoR F) :
    ℕ → Bfs F → Except Fault (Bfs F)
  | 0, _ => .error .outOfFuel
  | fuel + 1, b =>
      match b.que with
      | [] => .ok b
      | curr :: rest =>
          let b' := { b with que := rest }
          match G.lookup curr with
          | none => bfs G rsuPositions txRadius zor fuel b'
          | some faces =>
              bfs G rsuPositions txRadius zor fuel
                (faces.foldl (visitFace rsuPositions txRadius zor) b')

end Destinations

open Destinations in
/-- The RSUs that cover the zone, or the one nearest to it. -/
def computeDestinationNodes (fuel : ℕ) (G : Graph) (rsuPositions : NodePosition F) (txRadius : F)
    (startNode : NodeId) (zor : ZoR F) : Except Fault DestinationNodes := do
  let start := visit rsuPositions txRadius zor ⟨[], [], Found.init F⟩ startNode
  let b ← bfs G rsuPositions txRadius zor fuel start
  if b.found.dstNodes.isEmpty then
    return [b.found.nearestNode]
  else
    return b.found.dstNodes

namespace Destinations

variable {G : Graph} {rsuPositions : NodePosition F} {txRadius : F} {zor : ZoR F} {s : NodeId}

/-! ## The search -/

/-- The invariant of the search from `s`. The links in `todo` are still to
be followed. -/
structure Bfs.Inv (G : Graph) (rsuPositions : NodePosition F) (txRadius : F) (zor : ZoR F)
    (s : NodeId) (todo : NodeId → NodeId → Prop) (b : Bfs F) : Prop where
  start : ∃ rest, b.visited = s :: rest
  nodup : b.visited.Nodup
  reach : ∀ v ∈ b.visited, Reaches G.Link s v
  queued : ∀ v ∈ b.que, v ∈ b.visited
  followed : ∀ u ∈ b.visited, u ∉ b.que → ∀ v c, G.Link u v c → ¬ todo u v → v ∈ b.visited
  found : b.found = b.visited.foldl (compute rsuPositions txRadius zor) (Found.init F)

variable (G rsuPositions txRadius zor s) in
theorem start_inv : (visit rsuPositions txRadius zor ⟨[], [], Found.init F⟩ s).Inv G rsuPositions
    txRadius zor s (fun _ _ => False) where
  start := ⟨[], rfl⟩
  nodup := by simp [visit]
  reach := by
    intro v hv
    obtain rfl : v = s := by simpa [visit] using hv
    exact Reaches.refl v
  queued := by simp [visit]
  followed := by
    intro u hu hq
    exact absurd hu (by simpa [visit] using hq)
  found := rfl

/-- The nodes that a search from `s` can visit. -/
def nodes (G : Graph) (s : NodeId) : Finset NodeId :=
  insert s (G.entries.flatMap fun e => e.2.map Face.remoteNodeId).toFinset

theorem mem_nodes_of_link {u v : NodeId} {c : ℕ} (h : G.Link u v c) : v ∈ nodes G s := by
  obtain ⟨faces, hf, face, hmem, rfl, _⟩ := h
  have hentry : (⟨u, faces⟩ : Σ _ : NodeId, List Face) ∈ G.entries :=
    (List.mem_dlookup_iff G.nodupKeys).mp hf
  refine Finset.mem_insert_of_mem (List.mem_toFinset.mpr (List.mem_flatMap.mpr ⟨_, hentry, ?_⟩))
  exact List.mem_map_of_mem (f := Face.remoteNodeId) hmem

theorem mem_nodes {v : NodeId} (h : Reaches G.Link s v) : v ∈ nodes G s :=
  Reaches.induct (Finset.mem_insert_self _ _) (fun _ _ _ _ _ he => mem_nodes_of_link he) h

/-- A bound on the rounds still to come. -/
def Bfs.potential (G : Graph) (s : NodeId) (b : Bfs F) : ℕ :=
  (nodes G s).card - b.visited.length + b.que.length

theorem Bfs.Inv.length_le {todo : NodeId → NodeId → Prop} {b : Bfs F}
    (h : b.Inv G rsuPositions txRadius zor s todo) :
    b.visited.length ≤ (nodes G s).card := by
  rw [← List.toFinset_card_of_nodup h.nodup]
  refine Finset.card_le_card fun v hv => mem_nodes (h.reach v (List.mem_toFinset.mp hv))

/-- A round over one face follows its link. -/
theorem visitFace_inv {curr : NodeId} {face : Face} {faces : List Face} {b : Bfs F}
    (h : b.Inv G rsuPositions txRadius zor s
      (fun u v => u = curr ∧ ∃ f ∈ face :: faces, f.remoteNodeId = v))
    (hcurr : Reaches G.Link s curr)
    (hlink : G.Link curr face.remoteNodeId face.linkCost.toNat) :
    (visitFace rsuPositions txRadius zor b face).Inv G rsuPositions txRadius zor s
        (fun u v => u = curr ∧ ∃ f ∈ faces, f.remoteNodeId = v) ∧
      (visitFace rsuPositions txRadius zor b face).potential G s ≤ b.potential G s := by
  have hfollow : ∀ u ∈ b.visited, u ∉ b.que → ∀ v c, G.Link u v c →
      ¬ (u = curr ∧ ∃ f ∈ faces, f.remoteNodeId = v) → v ∈ b.visited ∨ v = face.remoteNodeId := by
    intro u hu hq v c he hno
    by_cases hv : v = face.remoteNodeId
    · exact Or.inr hv
    · refine Or.inl (h.followed u hu hq v c he ?_)
      rintro ⟨rfl, f, hf, rfl⟩
      rcases List.mem_cons.mp hf with rfl | hf
      · exact hv rfl
      · exact hno ⟨rfl, f, hf, rfl⟩
  unfold visitFace
  split
  · rename_i hmem
    refine ⟨⟨h.start, h.nodup, h.reach, h.queued, ?_, h.found⟩, le_rfl⟩
    intro u hu hq v c he hno
    rcases hfollow u hu hq v c he hno with hv | rfl
    · exact hv
    · exact hmem
  · rename_i hnew
    have hinv : (visit rsuPositions txRadius zor b face.remoteNodeId).Inv G rsuPositions txRadius
        zor s (fun u v => u = curr ∧ ∃ f ∈ faces, f.remoteNodeId = v) := by
      refine ⟨?_, ?_, ?_, ?_, ?_, ?_⟩
      · obtain ⟨rest, hrest⟩ := h.start
        exact ⟨rest ++ [face.remoteNodeId], by simp [visit, hrest]⟩
      · simp only [visit]
        exact List.nodup_append.mpr ⟨h.nodup, by simp, by
          rintro a ha b' hb rfl
          exact hnew (List.mem_singleton.mp hb ▸ ha)⟩
      · intro v hv
        rcases List.mem_append.mp hv with hv | hv
        · exact h.reach v hv
        · obtain rfl := List.mem_singleton.mp hv
          exact hcurr.snoc hlink
      · intro v hv
        simp only [visit, List.mem_append] at hv ⊢
        rcases hv with hv | hv
        · exact Or.inl (h.queued v hv)
        · exact Or.inr hv
      · intro u hu hq v c he hno
        simp only [visit, List.mem_append, List.mem_singleton, not_or] at hu hq ⊢
        rcases hu with hu | hu
        · exact hfollow u hu hq.1 v c he hno
        · exact absurd hu hq.2
      · simp [visit, h.found, List.foldl_append]
    refine ⟨hinv, ?_⟩
    have hle := hinv.length_le
    simp only [Bfs.potential, visit, List.length_append, List.length_singleton] at hle ⊢
    omega

theorem visitFaces_inv {curr : NodeId} {faces : List Face} {b : Bfs F}
    (h : b.Inv G rsuPositions txRadius zor s
      (fun u v => u = curr ∧ ∃ f ∈ faces, f.remoteNodeId = v))
    (hcurr : Reaches G.Link s curr)
    (hlink : ∀ face ∈ faces, G.Link curr face.remoteNodeId face.linkCost.toNat) :
    (faces.foldl (visitFace rsuPositions txRadius zor) b).Inv G rsuPositions txRadius zor s
        (fun _ _ => False) ∧
      (faces.foldl (visitFace rsuPositions txRadius zor) b).potential G s ≤ b.potential G s := by
  induction faces generalizing b with
  | nil =>
      refine ⟨⟨h.start, h.nodup, h.reach, h.queued, ?_, h.found⟩, le_rfl⟩
      intro u hu hq v c he _
      exact h.followed u hu hq v c he (by simp)
  | cons face faces ih =>
      obtain ⟨h', hle⟩ := visitFace_inv h hcurr (hlink face (by simp))
      obtain ⟨h'', hle'⟩ := ih h' fun f hf => hlink f (List.mem_cons_of_mem _ hf)
      exact ⟨h'', hle'.trans hle⟩

/-- A round of the search keeps the invariant and uses up one unit. -/
theorem round_inv {curr : NodeId} {rest : List NodeId} {b : Bfs F}
    (h : b.Inv G rsuPositions txRadius zor s (fun _ _ => False)) (hq : b.que = curr :: rest)
    {faces : List Face} (hfaces : ∀ v c, G.Link curr v c → ∃ f ∈ faces, f.remoteNodeId = v)
    (hlink : ∀ face ∈ faces, G.Link curr face.remoteNodeId face.linkCost.toNat) :
    let b' := faces.foldl (visitFace rsuPositions txRadius zor) { b with que := rest }
    b'.Inv G rsuPositions txRadius zor s (fun _ _ => False) ∧
      b'.potential G s < b.potential G s := by
  have hcurr : Reaches G.Link s curr := h.reach curr (h.queued curr (by simp [hq]))
  have hpop : (Bfs.mk b.visited rest b.found).Inv G rsuPositions txRadius zor s
      (fun u v => u = curr ∧ ∃ f ∈ faces, f.remoteNodeId = v) := by
    refine ⟨h.start, h.nodup, h.reach, fun v hv => h.queued v (by simp [hq, hv]), ?_, h.found⟩
    intro u hu hnq v c he hno
    by_cases huc : u = curr
    · subst huc
      exact absurd ⟨rfl, hfaces v c he⟩ hno
    · exact h.followed u hu (by simp [hq, huc, hnq]) v c he (by simp)
  obtain ⟨hinv, hle⟩ := visitFaces_inv hpop hcurr hlink
  refine ⟨hinv, lt_of_le_of_lt hle ?_⟩
  simp only [Bfs.potential, hq, List.length_cons]
  omega

/-- With enough fuel the search returns; whenever it returns its queue is
empty and the invariant holds. -/
theorem bfs_spec (fuel : ℕ) {b : Bfs F}
    (h : b.Inv G rsuPositions txRadius zor s (fun _ _ => False)) :
    (b.potential G s < fuel → ∃ b', bfs G rsuPositions txRadius zor fuel b = .ok b') ∧
      ∀ b', bfs G rsuPositions txRadius zor fuel b = .ok b' →
        b'.que = [] ∧ b'.Inv G rsuPositions txRadius zor s (fun _ _ => False) := by
  induction fuel generalizing b with
  | zero => exact ⟨fun hlt => by omega, fun b' hb => by cases hb⟩
  | succ fuel ih =>
      simp only [bfs]
      cases hq : b.que with
      | nil =>
          refine ⟨fun _ => ⟨b, rfl⟩, fun b' hb => ?_⟩
          obtain rfl := Except.ok.inj hb
          exact ⟨hq, h⟩
      | cons curr rest =>
          have hround : ∀ faces : List Face,
              (∀ v c, G.Link curr v c → ∃ f ∈ faces, f.remoteNodeId = v) →
              (∀ face ∈ faces, G.Link curr face.remoteNodeId face.linkCost.toNat) →
              (b.potential G s < fuel + 1 → ∃ b', bfs G rsuPositions txRadius zor fuel
                (faces.foldl (visitFace rsuPositions txRadius zor) { b with que := rest }) =
                  .ok b') ∧
              ∀ b', bfs G rsuPositions txRadius zor fuel
                (faces.foldl (visitFace rsuPositions txRadius zor) { b with que := rest }) =
                  .ok b' →
                b'.que = [] ∧ b'.Inv G rsuPositions txRadius zor s (fun _ _ => False) := by
            intro faces hall hlink
            obtain ⟨hinv, hlt⟩ := round_inv h hq hall hlink
            obtain ⟨htotal, hpartial⟩ := ih hinv
            exact ⟨fun hfuel => htotal (by omega), hpartial⟩
          cases hfaces : G.lookup curr with
          | none =>
              simp only [hfaces]
              refine hround [] ?_ (by simp)
              rintro v c ⟨faces, hf, _⟩
              rw [hfaces] at hf
              cases hf
          | some faces =>
              simp only [hfaces]
              refine hround faces ?_ fun face hf => ⟨faces, hfaces, face, hf, rfl, rfl⟩
              rintro v c ⟨faces', hf, face, hmem, rfl, _⟩
              obtain rfl := Option.some.inj (hfaces.symm.trans hf)
              exact ⟨face, hmem, rfl⟩

theorem Bfs.Inv.visited_iff {b : Bfs F}
    (h : b.Inv G rsuPositions txRadius zor s (fun _ _ => False)) (hq : b.que = []) (v : NodeId) :
    v ∈ b.visited ↔ Reaches G.Link s v := by
  refine ⟨h.reach v, Reaches.induct ?_ ?_⟩
  · obtain ⟨rest, hrest⟩ := h.start
    simp [hrest]
  · intro u v c _ hu he
    exact h.followed u hu (by simp [hq]) v c he (by simp)

/-! ## What it finds -/

/-- The RSU at `nodeId` covers the zone. -/
def Covers (rsuPositions : NodePosition F) (txRadius : F) (zor : ZoR F) (nodeId : NodeId) : Prop :=
  ∃ pos, rsuPositions.lookup nodeId = some pos ∧ zor.coveredBy pos txRadius

/-- The RSU at `nodeId` does not cover the zone and lies at distance `dist`. -/
def Candidate (rsuPositions : NodePosition F) (txRadius : F) (zor : ZoR F) (nodeId : NodeId)
    (dist : F) : Prop :=
  ∃ pos, rsuPositions.lookup nodeId = some pos ∧ ¬ zor.coveredBy pos txRadius ∧
    zor.distanceToBoundary pos = dist

theorem Candidate.unique {v : NodeId} {dist dist' : F}
    (h : Candidate rsuPositions txRadius zor v dist)
    (h' : Candidate rsuPositions txRadius zor v dist') : dist = dist' := by
  rcases h with ⟨pos, hpos, _, rfl⟩
  rcases h' with ⟨pos', hpos', _, rfl⟩
  obtain rfl := Option.some.inj (hpos.symm.trans hpos')
  rfl

theorem compute_mem (b : Found F) (nodeId v : NodeId) :
    v ∈ (compute rsuPositions txRadius zor b nodeId).dstNodes ↔
      v ∈ b.dstNodes ∨ (v = nodeId ∧ Covers rsuPositions txRadius zor nodeId) := by
  unfold compute Covers
  cases hpos : rsuPositions.lookup nodeId with
  | none => simp
  | some pos =>
      by_cases hcov : zor.coveredBy pos txRadius
      · simp [hcov, or_comm]
      · by_cases hlt : zor.distanceToBoundary pos < b.minDist <;> simp [hcov, hlt]

variable (rsuPositions txRadius zor) in
/-- A visit improves the nearest node or leaves it alone. -/
theorem compute_nearest (b : Found F) (nodeId : NodeId) :
    (∃ dist, Candidate rsuPositions txRadius zor nodeId dist ∧ dist < b.minDist ∧
        (compute rsuPositions txRadius zor b nodeId).nearestNode = nodeId ∧
        (compute rsuPositions txRadius zor b nodeId).minDist = dist) ∨
      ((∀ dist, Candidate rsuPositions txRadius zor nodeId dist → ¬ dist < b.minDist) ∧
        (compute rsuPositions txRadius zor b nodeId).nearestNode = b.nearestNode ∧
        (compute rsuPositions txRadius zor b nodeId).minDist = b.minDist) := by
  unfold compute Candidate
  cases hpos : rsuPositions.lookup nodeId with
  | none => simp
  | some pos =>
      by_cases hcov : zor.coveredBy pos txRadius
      · simp [hcov]
      · by_cases hlt : zor.distanceToBoundary pos < b.minDist
        · simp [hcov, hlt]
        · simp [hcov, hlt]

theorem foldl_compute_mem (l : List NodeId) (b : Found F) (v : NodeId) :
    v ∈ (l.foldl (compute rsuPositions txRadius zor) b).dstNodes ↔
      v ∈ b.dstNodes ∨ (v ∈ l ∧ Covers rsuPositions txRadius zor v) := by
  induction l generalizing b with
  | nil => simp
  | cons x l ih =>
      rw [List.foldl_cons, ih, compute_mem, List.mem_cons]
      constructor
      · rintro ((h | ⟨rfl, h⟩) | ⟨h, hc⟩)
        · exact Or.inl h
        · exact Or.inr ⟨Or.inl rfl, h⟩
        · exact Or.inr ⟨Or.inr h, hc⟩
      · rintro (h | ⟨rfl | h, hc⟩)
        · exact Or.inl (Or.inl h)
        · exact Or.inl (Or.inr ⟨rfl, hc⟩)
        · exact Or.inr ⟨h, hc⟩

variable (rsuPositions txRadius zor) in
/-- The nearest node after a scan: no node beat the old one, or some did and
the new one was scanned. -/
theorem foldl_compute_nearest (l : List NodeId) (b : Found F) :
    let b' := l.foldl (compute rsuPositions txRadius zor) b
    ((∀ v ∈ l, ∀ dist, Candidate rsuPositions txRadius zor v dist → ¬ dist < b.minDist) ∧
        b'.nearestNode = b.nearestNode) ∨
      ((∃ v ∈ l, ∃ dist, Candidate rsuPositions txRadius zor v dist ∧ dist < b.minDist) ∧
        b'.nearestNode ∈ l ∧
        ∃ dist, Candidate rsuPositions txRadius zor b'.nearestNode dist) := by
  induction l generalizing b with
  | nil => simp
  | cons x l ih =>
      rw [List.foldl_cons]
      have ih' := ih (compute rsuPositions txRadius zor b x)
      rcases compute_nearest rsuPositions txRadius zor b x
        with ⟨dist, hcand, hlt, hnear, hmin⟩ | ⟨hno, hnear, hmin⟩
      · right
        refine ⟨⟨x, by simp, dist, hcand, hlt⟩, ?_⟩
        rcases ih' with ⟨_, heq⟩ | ⟨_, hmem, hc⟩
        · rw [heq, hnear]
          exact ⟨by simp, dist, hcand⟩
        · exact ⟨List.mem_cons_of_mem _ hmem, hc⟩
      · rcases ih' with ⟨hall, heq⟩ | ⟨⟨v, hv, dist, hc, hlt⟩, hmem, hc'⟩
        · left
          rw [hmin] at hall
          refine ⟨fun v hv => ?_, heq.trans hnear⟩
          rcases List.mem_cons.mp hv with rfl | hv
          · exact hno
          · exact hall v hv
        · right
          rw [hmin] at hlt
          exact ⟨⟨v, List.mem_cons_of_mem _ hv, dist, hc, hlt⟩, List.mem_cons_of_mem _ hmem, hc'⟩

/-- The destinations found from `s`: the RSUs that cover the zone, or a
single nearest one. -/
structure Spec (G : Graph) (rsuPositions : NodePosition F) (txRadius : F) (zor : ZoR F)
    (s : NodeId) (D : DestinationNodes) : Prop where
  covered : (∃ v, Reaches G.Link s v ∧ Covers rsuPositions txRadius zor v) →
    ∀ v, v ∈ D ↔ Reaches G.Link s v ∧ Covers rsuPositions txRadius zor v
  nearest : (∀ v, Reaches G.Link s v → ¬ Covers rsuPositions txRadius zor v) →
    (∃ v dist, Reaches G.Link s v ∧ Candidate rsuPositions txRadius zor v dist ∧
      dist < Arith.inf) →
    ∃ v dist, D = [v] ∧ Reaches G.Link s v ∧ Candidate rsuPositions txRadius zor v dist
  none : (∀ v, Reaches G.Link s v → ¬ Covers rsuPositions txRadius zor v) →
    (∀ v dist, Reaches G.Link s v → Candidate rsuPositions txRadius zor v dist →
      ¬ dist < Arith.inf) → D = [4294967295]
  self : (∀ v, Reaches G.Link s v → ¬ Covers rsuPositions txRadius zor v) → s ≠ 4294967295 →
    (D = [s] ↔ ∃ dist, Candidate rsuPositions txRadius zor s dist ∧ dist < Arith.inf ∧
      ∀ v dist', Reaches G.Link s v → v ≠ s → Candidate rsuPositions txRadius zor v dist' →
        ¬ dist' < dist)

theorem Bfs.Inv.spec {b : Bfs F} (h : b.Inv G rsuPositions txRadius zor s (fun _ _ => False))
    (hq : b.que = []) {D : DestinationNodes}
    (hD : D = if b.found.dstNodes.isEmpty then [b.found.nearestNode] else b.found.dstNodes) :
    Spec G rsuPositions txRadius zor s D := by
  have hvis := h.visited_iff hq
  have hmem : ∀ v, v ∈ b.found.dstNodes ↔
      Reaches G.Link s v ∧ Covers rsuPositions txRadius zor v := by
    intro v
    rw [h.found, foldl_compute_mem, ← hvis]
    simp [Found.init]
  have hempty : (∀ v, Reaches G.Link s v → ¬ Covers rsuPositions txRadius zor v) →
      D = [b.found.nearestNode] := by
    intro hno
    have : b.found.dstNodes = [] := List.eq_nil_iff_forall_not_mem.mpr fun v hv =>
      hno v ((hmem v).mp hv).1 ((hmem v).mp hv).2
    simp [hD, this]
  have hnear := foldl_compute_nearest rsuPositions txRadius zor b.visited (Found.init F)
  rw [← h.found] at hnear
  refine ⟨?_, ?_, ?_, ?_⟩
  · rintro ⟨v, hv⟩ w
    have hne : b.found.dstNodes ≠ [] := List.ne_nil_of_mem ((hmem v).mpr hv)
    rw [hD, if_neg (by simpa using hne), hmem]
  · rintro hno ⟨v, dist, hv, hc, hlt⟩
    rcases hnear with ⟨hall, _⟩ | ⟨_, hin, dist', hc'⟩
    · exact absurd hlt (hall v ((hvis v).mpr hv) dist hc)
    · exact ⟨_, dist', hempty hno, (hvis _).mp hin, hc'⟩
  · intro hno hall
    rcases hnear with ⟨_, heq⟩ | ⟨⟨v, hv, dist, hc, hlt⟩, _⟩
    · rw [hempty hno, heq]
      rfl
    · exact absurd hlt (hall v dist ((hvis v).mp hv) hc)
  · intro hno hs
    rw [hempty hno, List.singleton_inj]
    obtain ⟨rest, hrest⟩ := h.start
    have hnd := h.nodup
    rw [hrest, List.nodup_cons] at hnd
    have hfound : b.found = rest.foldl (compute rsuPositions txRadius zor)
        (compute rsuPositions txRadius zor (Found.init F) s) := by
      rw [h.found, hrest, List.foldl_cons]
    have htail := foldl_compute_nearest rsuPositions txRadius zor rest
      (compute rsuPositions txRadius zor (Found.init F) s)
    rw [← hfound] at htail
    have hrestiff : ∀ v, v ∈ rest ↔ Reaches G.Link s v ∧ v ≠ s := by
      intro v
      rw [← hvis, hrest, List.mem_cons]
      constructor
      · intro hv
        exact ⟨Or.inr hv, fun heq => hnd.1 (heq ▸ hv)⟩
      · rintro ⟨rfl | hv, hne⟩
        · exact absurd rfl hne
        · exact hv
    rcases compute_nearest rsuPositions txRadius zor (Found.init F) s
      with ⟨dist, hcand, hlt, hnear', hmin⟩ | ⟨hnone, hnear', _⟩
    · rw [hmin, hnear'] at htail
      constructor
      · intro heq
        refine ⟨dist, hcand, hlt, fun v dist' hv hne hc => ?_⟩
        rcases htail with ⟨hall, _⟩ | ⟨_, hin, _⟩
        · exact hall v ((hrestiff v).mpr ⟨hv, hne⟩) dist' hc
        · exact absurd (heq ▸ hin) hnd.1
      · rintro ⟨dist', hcand', _, hall⟩
        obtain rfl := hcand.unique hcand'
        rcases htail with ⟨_, heq⟩ | ⟨⟨v, hv, d, hc, hd⟩, _⟩
        · exact heq
        · obtain ⟨hv, hne⟩ := (hrestiff v).mp hv
          exact absurd hd (hall v d hv hne hc)
    · rw [hnear'] at htail
      constructor
      · intro heq
        rcases htail with ⟨_, heq'⟩ | ⟨_, hin, _⟩
        · exact absurd (heq.symm.trans heq') hs
        · exact absurd (heq ▸ hin) hnd.1
      · rintro ⟨dist, hcand, hlt, _⟩
        exact absurd hlt (hnone dist hcand)

theorem bfs_fuel {b b' : Bfs F} {fuel : ℕ}
    (h : bfs G rsuPositions txRadius zor fuel b = .ok b') {fuel' : ℕ} (hle : fuel ≤ fuel') :
    bfs G rsuPositions txRadius zor fuel' b = .ok b' := by
  induction fuel generalizing b fuel' with
  | zero => cases h
  | succ fuel ih =>
      obtain ⟨fuel', rfl⟩ : ∃ k, fuel' = k + 1 := ⟨fuel' - 1, by omega⟩
      rw [bfs] at h ⊢
      cases hq : b.que with
      | nil => simpa only [hq] using h
      | cons curr rest =>
          simp only [hq] at h ⊢
          split at h
          · exact ih h (by omega)
          · exact ih h (by omega)

/-- Which nodes are visited, and in which order, depends on the graph alone. -/
theorem bfs_congr {rsuPositions' : NodePosition F} {txRadius' : F} {zor' : ZoR F} {fuel : ℕ}
    {b b' c : Bfs F} (hvisited : b'.visited = b.visited) (hque : b'.que = b.que)
    (h : bfs G rsuPositions txRadius zor fuel b = .ok c) :
    ∃ c', bfs G rsuPositions' txRadius' zor' fuel b' = .ok c' ∧ c'.visited = c.visited := by
  induction fuel generalizing b b' with
  | zero => cases h
  | succ fuel ih =>
      have hfold : ∀ (faces : List Face) (b b' : Bfs F), b'.visited = b.visited → b'.que = b.que →
          (faces.foldl (visitFace rsuPositions' txRadius' zor') b').visited =
            (faces.foldl (visitFace rsuPositions txRadius zor) b).visited ∧
          (faces.foldl (visitFace rsuPositions' txRadius' zor') b').que =
            (faces.foldl (visitFace rsuPositions txRadius zor) b).que := by
        intro faces
        induction faces with
        | nil => exact fun _ _ hv hq => ⟨hv, hq⟩
        | cons face faces ihf =>
            intro b b' hv hq
            refine ihf _ _ ?_ ?_ <;> simp only [visitFace, hv] <;> split <;> simp [visit, hv, hq]
      rw [bfs] at h ⊢
      cases hq : b.que with
      | nil =>
          simp only [hq, hque] at h ⊢
          obtain rfl := Except.ok.inj h
          exact ⟨b', rfl, hvisited⟩
      | cons curr rest =>
          simp only [hq, hque] at h ⊢
          cases hfaces : G.lookup curr with
          | none =>
              simp only [hfaces] at h ⊢
              exact ih (b := { b with que := rest }) hvisited rfl h
          | some faces =>
              simp only [hfaces] at h ⊢
              obtain ⟨hv, hq'⟩ := hfold faces { b with que := rest } { b' with que := rest }
                hvisited rfl
              exact ih hv hq' h

end Destinations

open Destinations in
/-- The search returns, and what it returns meets its specification. -/
theorem computeDestinationNodes_spec (G : Graph) (rsuPositions : NodePosition F) (txRadius : F)
    (s : NodeId) (zor : ZoR F) :
    (∃ bound, ∀ fuel, bound ≤ fuel →
      ∃ D, computeDestinationNodes fuel G rsuPositions txRadius s zor = .ok D) ∧
    ∀ fuel D, computeDestinationNodes fuel G rsuPositions txRadius s zor = .ok D →
      Spec G rsuPositions txRadius zor s D := by
  have hinv := start_inv G rsuPositions txRadius zor s
  constructor
  · refine ⟨Bfs.potential G s (visit rsuPositions txRadius zor ⟨[], [], Found.init F⟩ s) + 1,
      fun fuel hfuel => ?_⟩
    obtain ⟨b, hb⟩ := (bfs_spec fuel hinv).1 (by omega)
    simp only [computeDestinationNodes, Fallible.bind_ok hb]
    split <;> exact ⟨_, rfl⟩
  · intro fuel D h
    obtain ⟨b, hb, h⟩ := Fallible.bind_eq_ok.mp h
    obtain ⟨hq, hfinal⟩ := (bfs_spec fuel hinv).2 b hb
    refine hfinal.spec hq ?_
    split at h
    · rename_i hemp
      rw [if_pos hemp]
      exact (Fallible.pure_eq_ok.mp h).symm
    · rename_i hemp
      rw [if_neg hemp]
      exact (Fallible.pure_eq_ok.mp h).symm

open Destinations in
/-- The destinations in terms of a search that looks at no position. -/
theorem computeDestinationNodes_eq {G : Graph} {s : NodeId} {fuel : ℕ} {c : Bfs F}
    (h : bfs G ∅ 0 .neighbor fuel (visit ∅ 0 .neighbor ⟨[], [], Found.init F⟩ s) = .ok c)
    {rsuPositions : NodePosition F} {txRadius : F} {zor : ZoR F} {D : DestinationNodes}
    (hD : (c.visited.foldl (compute rsuPositions txRadius zor) (Found.init F)).dstNodes = D)
    (hne : D ≠ []) : computeDestinationNodes fuel G rsuPositions txRadius s zor = .ok D := by
  obtain ⟨b, hb, hvisited⟩ : ∃ b, bfs G rsuPositions txRadius zor fuel
      (visit rsuPositions txRadius zor ⟨[], [], Found.init F⟩ s) = .ok b ∧
        b.visited = c.visited := by
    refine bfs_congr ?_ ?_ h <;> rfl
  obtain ⟨_, hinv⟩ := (bfs_spec fuel (start_inv G rsuPositions txRadius zor s)).2 b hb
  have hdst : b.found.dstNodes = D := by rw [hinv.found, hvisited, hD]
  simp only [computeDestinationNodes, Fallible.bind_ok hb]
  rw [if_neg (by simpa [hdst] using hne), hdst]
  rfl

/-- The destinations do not depend on the fuel. -/
theorem computeDestinationNodes_returns (G : Graph) (rsuPositions : NodePosition F) (txRadius : F)
    (s : NodeId) (zor : ZoR F) : ∃ D bound,
      (∀ fuel, bound ≤ fuel → computeDestinationNodes fuel G rsuPositions txRadius s zor = .ok D) ∧
      ∀ fuel D', computeDestinationNodes fuel G rsuPositions txRadius s zor = .ok D' → D' = D := by
  have hfuel : ∀ fuel fuel' D, fuel ≤ fuel' →
      computeDestinationNodes fuel G rsuPositions txRadius s zor = .ok D →
      computeDestinationNodes fuel' G rsuPositions txRadius s zor = .ok D := by
    intro fuel fuel' D hle h
    obtain ⟨b, hb, h⟩ := Fallible.bind_eq_ok.mp h
    exact (Fallible.bind_ok (Destinations.bfs_fuel hb hle)).trans h
  obtain ⟨⟨bound, htotal⟩, _⟩ := computeDestinationNodes_spec G rsuPositions txRadius s zor
  obtain ⟨D, hD⟩ := htotal bound le_rfl
  refine ⟨D, bound, fun fuel hle => hfuel bound fuel D hle hD, fun fuel D' h => ?_⟩
  have h1 := hfuel fuel _ D' (le_max_left fuel bound) h
  have h2 := hfuel bound _ D (le_max_right fuel bound) hD
  exact Except.ok.inj (h1.symm.trans h2)

end Cafe
