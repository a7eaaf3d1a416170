import Cafe.MiraSearch
import Mathlib.Data.Bool.AllAny

/-!
# What `mira` returns

The search ends on every graph. From a source whose reachable links stay
inside the graph no lookup is out of range, every reachable destination
other than the source has a first hop on a shortest path, and the result
groups the destinations by these hops.
-/

open WeightedDigraph

namespace Cafe

/-- Every link of a node reachable from `s` leads to a key of the graph. -/
def Graph.ClosedFrom (G : Graph) (s : NodeId) : Prop :=
  ∀ u v c, Reaches G.Link s u → G.Link u v c → v ∈ G

/-- The face ids of one node are pairwise different. -/
def Graph.FaceIdsDistinct (G : Graph) : Prop :=
  ∀ u faces, G.lookup u = some faces → (faces.map Face.faceId).Nodup

theorem Graph.Closed.from {G : Graph} (hG : G.Closed) (s : NodeId) : G.ClosedFrom s :=
  fun _ _ _ _ he => hG.mem he

theorem Graph.ClosedFrom.mem {G : Graph} {s v : NodeId} (hG : G.ClosedFrom s) (hs : s ∈ G)
    (h : Reaches G.Link s v) : v ∈ G :=
  Reaches.induct hs (fun u v c hu _ he => hG u v c hu he) h

/-- The links of a graph can be enumerated. -/
theorem Graph.forall_faces {G : Graph} {P : NodeId → Face → Prop}
    (h : ∀ e ∈ G.entries, ∀ face ∈ e.2, P e.1 face) :
    ∀ u faces, G.lookup u = some faces → ∀ face ∈ faces, P u face :=
  fun u faces hfaces face hmem =>
    h ⟨u, faces⟩ ((List.mem_dlookup_iff G.nodupKeys).mp hfaces) face hmem

theorem Graph.forall_nodes {G : Graph} {P : NodeId → Prop} (h : ∀ e ∈ G.entries, P e.1) :
    ∀ n ∈ G, P n := by
  intro n hn
  rcases List.mem_map.mp (AList.mem_keys.mp hn) with ⟨e, he, rfl⟩
  exact h e he

theorem Graph.forall_links {G : Graph} {P : NodeId → NodeId → ℕ → Prop}
    (h : ∀ e ∈ G.entries, ∀ face ∈ e.2, P e.1 face.remoteNodeId face.linkCost.toNat) :
    ∀ u v c, G.Link u v c → P u v c := by
  rintro u v c ⟨faces, hfaces, face, hmem, rfl, rfl⟩
  exact h ⟨u, faces⟩ ((List.mem_dlookup_iff G.nodupKeys).mp hfaces) face hmem

theorem Graph.faceIdsDistinct {G : Graph}
    (h : ∀ e ∈ G.entries, (e.2.map Face.faceId).Nodup) : G.FaceIdsDistinct :=
  fun u faces hfaces => h ⟨u, faces⟩ ((List.mem_dlookup_iff G.nodupKeys).mp hfaces)

/-- A bound on the cost of simple paths whose links cost at most `m`. -/
theorem Graph.NoOverflow.of_cost {G : Graph} {m : ℕ} (hcost : ∀ u v c, G.Link u v c → c ≤ m)
    (hfit : m * G.keys.length < 4294967295) (n : NodeId) : G.NoOverflow n := by
  have hlen : ∀ vs v k, Walk G.Link n vs v k → k + m ≤ m * vs.length := by
    intro vs v k hw
    induction hw with
    | nil => simp
    | snoc _ he ih =>
        have := hcost _ _ _ he
        rw [List.length_cons, Nat.mul_succ]
        omega
  have hmem : ∀ vs v k, Walk G.Link n vs v k → ∀ x ∈ vs, x = v ∨ x ∈ G := by
    intro vs v k hw
    induction hw with
    | nil => exact fun x hx => Or.inl (List.mem_singleton.mp hx)
    | snoc hw he ih =>
        intro x hx
        rcases List.mem_cons.mp hx with rfl | hx
        · exact Or.inl rfl
        · rcases ih x hx with rfl | hx
          · exact Or.inr he.mem
          · exact Or.inr hx
  -- all nodes of a simple path that goes on are keys
  have hsimple : ∀ vs u v k c, Walk G.Link n vs u k → vs.Nodup → G.Link u v c →
      k + m ≤ m * G.keys.length := by
    intro vs u v k c hw hnd he
    refine (hlen vs u k hw).trans (Nat.mul_le_mul_left m (List.subperm_of_subset hnd ?_).length_le)
    intro x hx
    rcases hmem vs u k hw x hx with rfl | hx
    · exact AList.mem_keys.mp he.mem
    · exact AList.mem_keys.mp hx
  constructor
  · intro vs v k hw hnd
    cases hw with
    | nil => omega
    | snoc hw he =>
        have := hsimple _ _ _ _ _ hw (List.nodup_cons.mp hnd).2 he
        have := hcost _ _ _ he
        omega
  · intro vs u v k c hw hnd he
    have := hsimple vs u v k c hw hnd he
    have := hcost u v c he
    omega

theorem lookup_foldl_insert {K V : Type} [DecidableEq K] (ks : List K) (c : V)
    (m : UnorderedMap K V) (k : K) :
    AList.lookup k (ks.foldl (fun m k => AList.insert k c m) m) =
      if k ∈ ks then some c else m.lookup k := by
  induction ks generalizing m with
  | nil => simp
  | cons x ks ih =>
      rw [List.foldl_cons, ih]
      by_cases hk : k ∈ ks
      · simp [hk]
      · by_cases hx : k = x
        · subst hx
          simp [hk]
        · simp [hk, hx, AList.lookup_insert_ne hx]

namespace Mira

variable {G : Graph} {s : NodeId}

theorem init_distance (v : NodeId) : (Tables.init G s).distance.lookup v =
    if v = s then some 0 else if v ∈ G then some maxCost else none := by
  by_cases hv : v = s
  · subst hv
    simp [Tables.init]
  · simp only [Tables.init, AList.lookup_insert_ne hv, lookup_foldl_insert, hv, if_false]
    simp [AList.mem_keys]

theorem init_parent (v : NodeId) : (Tables.init G s).parent.lookup v =
    if v ∈ G then some undefinedNode else none := by
  simp [Tables.init, lookup_foldl_insert, AList.mem_keys]

theorem init_state : Dijkstra.Init s (Tables.init G s).state where
  source := by simp [Tables.state, init_distance, costValue, maxCost]
  other := by
    intro v hv
    by_cases hG : v ∈ G <;> simp [Tables.state, init_distance, hv, hG, costValue]
  parent := by
    intro v
    by_cases hG : v ∈ G <;> simp [Tables.state, init_parent, hG, nodeValue]
  queued := ⟨(0, s), by simp [Tables.init], rfl⟩
  queue := by
    rintro p ⟨q, hq, rfl⟩
    have : q = (0, s) := by simpa [Tables.init] using hq
    subst this
    rfl

/-! ## The search ends -/

/-- The sum of the tentative costs; every improvement lowers it. -/
def Tables.weight (G : Graph) (s : NodeId) (t : Tables) : ℕ :=
  ∑ v ∈ insert s G.keys.toFinset, ((t.distance.lookup v).getD 0).toNat

/-- A bound on the rounds still to come. -/
def Tables.potential (G : Graph) (s : NodeId) (t : Tables) : ℕ :=
  2 * t.weight G s + t.queue.length

/-- The keys of the tables: those of the graph, and the source. -/
structure Tables.Keys (G : Graph) (s : NodeId) (t : Tables) : Prop where
  distance : ∀ v, v ∈ t.distance ↔ v = s ∨ v ∈ G
  parent : ∀ v ∈ G, v ∈ t.parent

theorem init_keys : (Tables.init G s).Keys G s where
  distance := by
    intro v
    rw [← AList.lookup_isSome, init_distance]
    by_cases hs : v = s <;> by_cases hG : v ∈ G <;> simp [hs, hG]
  parent := by
    intro v hv
    rw [← AList.lookup_isSome, init_parent, if_pos hv]
    rfl

theorem relaxFace_keys {nodeId : NodeId} {nodeCost : Cost} {t t' : Tables} {face : Face}
    (hk : t.Keys G s) (h : relaxFace nodeId nodeCost t face = .ok t') : t'.Keys G s := by
  obtain ⟨remoteCost, hlook, ⟨_, rfl⟩ | ⟨_, rfl⟩⟩ := relaxFace_eq_ok.mp h
  · have hmem : face.remoteNodeId ∈ t.distance := by
      rw [← AList.lookup_isSome, hlook]
      rfl
    refine ⟨fun v => ?_, fun v hv => (AList.mem_insert _).mpr (Or.inr (hk.parent v hv))⟩
    rw [Tables.improve_distance, AList.mem_insert, ← hk.distance]
    constructor
    · rintro (rfl | hv)
      · exact hmem
      · exact hv
    · exact Or.inr
  · exact hk

theorem relaxFace_potential {nodeId : NodeId} {nodeCost : Cost} {t t' : Tables} {face : Face}
    (hk : t.Keys G s) (h : relaxFace nodeId nodeCost t face = .ok t') :
    t'.potential G s ≤ t.potential G s := by
  obtain ⟨remoteCost, hlook, ⟨hlt, rfl⟩ | ⟨_, rfl⟩⟩ := relaxFace_eq_ok.mp h
  · have hmem : face.remoteNodeId ∈ insert s G.keys.toFinset := by
      have := (hk.distance face.remoteNodeId).mp
        (AList.lookup_isSome.mp (by rw [hlook]; rfl))
      simpa [AList.mem_keys] using this
    have hlt' := UInt32.lt_iff_toNat_lt.mp hlt
    have hsum : ∑ v ∈ insert s G.keys.toFinset, ((AList.lookup v
        (t.distance.insert face.remoteNodeId (nodeCost + face.linkCost))).getD 0).toNat <
          t.weight G s := by
      refine Finset.sum_lt_sum ?_ ⟨face.remoteNodeId, hmem, by simpa [hlook] using hlt'⟩
      intro v _
      by_cases hv : v = face.remoteNodeId
      · subst hv
        simpa [hlook] using hlt'.le
      · simp [AList.lookup_insert_ne hv]
    simp only [Tables.potential, Tables.weight, Tables.improve_distance, Tables.improve_queue,
      List.orderedInsert_length] at hsum ⊢
    omega
  · exact le_rfl

/-- The queued nodes are reachable from the source and are keys of the tables. -/
def Tables.Reached (G : Graph) (s : NodeId) (t : Tables) : Prop :=
  ∀ p ∈ t.queue, Reaches G.Link s p.2 ∧ (p.2 = s ∨ p.2 ∈ G)

theorem init_reached : (Tables.init G s).Reached G s := by
  intro p hp
  obtain rfl : p = (0, s) := by simpa [Tables.init] using hp
  exact ⟨Reaches.refl s, Or.inl rfl⟩

theorem relaxFace_reached {nodeId : NodeId} {nodeCost : Cost} {t t' : Tables} {face : Face}
    (hr : t.Reached G s) (hface : Reaches G.Link s face.remoteNodeId)
    (hk : t.Keys G s) (h : relaxFace nodeId nodeCost t face = .ok t') : t'.Reached G s := by
  obtain ⟨remoteCost, hlook, ⟨_, rfl⟩ | ⟨_, rfl⟩⟩ := relaxFace_eq_ok.mp h
  · intro p hp
    rcases (List.mem_orderedInsert _).mp hp with rfl | hp
    · exact ⟨hface, (hk.distance _).mp (AList.lookup_isSome.mp (by rw [hlook]; rfl))⟩
    · exact hr p hp
  · exact hr

theorem relaxFace_error {nodeId : NodeId} {nodeCost : Cost} {t : Tables} {face : Face} {e : Fault}
    (h : relaxFace nodeId nodeCost t face = .error e) :
    e = .outOfRange ∧ face.remoteNodeId ∉ t.distance := by
  rw [relaxFace, Fallible.bind_eq_error] at h
  rcases h with h | ⟨_, _, h⟩
  · by_cases hmem : face.remoteNodeId ∈ t.distance
    · obtain ⟨v, hv, _⟩ := UnorderedMap.atKey_of_mem hmem
      rw [hv] at h
      cases h
    · rw [UnorderedMap.atKey_of_notMem hmem] at h
      exact ⟨(Except.error.inj h).symm, hmem⟩
  · split at h <;> cases h

theorem relaxFace_total (nodeId : NodeId) (nodeCost : Cost) {t : Tables} {face : Face}
    (hk : t.Keys G s) (hface : face.remoteNodeId = s ∨ face.remoteNodeId ∈ G) :
    ∃ t', relaxFace nodeId nodeCost t face = .ok t' := by
  cases h : relaxFace nodeId nodeCost t face with
  | ok t' => exact ⟨t', rfl⟩
  | error e => exact absurd ((hk.distance _).mpr hface) (relaxFace_error h).2

/-- From a source whose reachable links stay inside the graph every round
of the search succeeds. -/
theorem popNode_total (hG : G.ClosedFrom s) (cost : Cost) {nodeId : NodeId} (t : Tables)
    (hk : t.Keys G s) (hr : t.Reached G s) (hreach : Reaches G.Link s nodeId)
    (hnode : nodeId = s ∨ nodeId ∈ G) :
    ∃ t', popNode G cost nodeId t = .ok t' ∧ t'.Keys G s ∧ t'.Reached G s ∧
      t'.potential G s ≤ t.potential G s := by
  obtain ⟨nodeCost, hat, _⟩ := UnorderedMap.atKey_of_mem ((hk.distance nodeId).mpr hnode)
  rw [popNode, Fallible.bind_ok hat]
  split
  · exact ⟨t, rfl, hk, hr, le_rfl⟩
  · cases hfaces : G.lookup nodeId with
    | none => exact ⟨t, rfl, hk, hr, le_rfl⟩
    | some faces =>
        have hround : ∀ face ∈ faces, ∀ t₁ : Tables,
            (t₁.Keys G s ∧ t₁.Reached G s ∧ t₁.potential G s ≤ t.potential G s) →
            ∃ t₂, relaxFace nodeId nodeCost t₁ face = .ok t₂ ∧
              (t₂.Keys G s ∧ t₂.Reached G s ∧ t₂.potential G s ≤ t.potential G s) := by
          rintro face hface t₁ ⟨hk₁, hr₁, hp₁⟩
          have hlink : G.Link nodeId face.remoteNodeId face.linkCost.toNat :=
            ⟨faces, hfaces, face, hface, rfl, rfl⟩
          obtain ⟨t₂, ht₂⟩ := relaxFace_total nodeId nodeCost hk₁
            (Or.inr (hG _ _ _ hreach hlink))
          exact ⟨t₂, ht₂, relaxFace_keys hk₁ ht₂,
            relaxFace_reached hr₁ (hreach.snoc hlink) hk₁ ht₂,
            (relaxFace_potential hk₁ ht₂).trans hp₁⟩
        exact Fallible.foldlM_total _ hround ⟨hk, hr, le_rfl⟩

/-- The search returns, whatever the costs of the links. -/
theorem dijkstra_returns (hG : G.ClosedFrom s) (fuel : ℕ) (t : Tables) (hk : t.Keys G s)
    (hr : t.Reached G s) (hfuel : t.potential G s < fuel) :
    ∃ t', dijkstra G fuel t = .ok t' ∧ t'.Keys G s := by
  induction fuel generalizing t with
  | zero => omega
  | succ fuel ih =>
      cases hq : t.queue with
      | nil => exact ⟨t, by simp [dijkstra, hq], hk⟩
      | cons top rest =>
          obtain ⟨cost, nodeId⟩ := top
          obtain ⟨hreach, hnode⟩ := hr (cost, nodeId) (by simp [hq])
          obtain ⟨t₁, hpop, hk₁, hr₁, hp₁⟩ := popNode_total hG cost { t with queue := rest }
            ⟨hk.distance, hk.parent⟩
            (fun p hp => hr p (by rw [hq]; exact List.mem_cons_of_mem _ hp)) hreach hnode
          have hlt : t₁.potential G s < fuel := by
            simp only [Tables.potential, Tables.weight, hq, List.length_cons] at hfuel hp₁ ⊢
            omega
          obtain ⟨t', ht', hk'⟩ := ih _ hk₁ hr₁ hlt
          exact ⟨t', by simp only [dijkstra, hq]; rw [Fallible.bind_ok hpop, ht'], hk'⟩

/-- What every relaxation keeps, the search keeps, if the queue does not matter. -/
theorem dijkstra_invariant (P : Tables → Prop)
    (hrelax : ∀ nodeId nodeCost face t t', P t → relaxFace nodeId nodeCost t face = .ok t' → P t')
    (hqueue : ∀ t queue, P t → P { t with queue := queue }) {fuel : ℕ} {t t' : Tables} (hP : P t)
    (h : dijkstra G fuel t = .ok t') : P t' := by
  refine (dijkstra_run P (fun t cost nodeId rest t' _ hP hpop => ?_) hP h).1
  exact popNode_invariant P hrelax (hqueue t rest hP) hpop

theorem dijkstra_keys {fuel : ℕ} {t t' : Tables} (hk : t.Keys G s)
    (h : dijkstra G fuel t = .ok t') : t'.Keys G s :=
  dijkstra_invariant (fun t => t.Keys G s) (fun _ _ _ _ _ hk hround => relaxFace_keys hk hround)
    (fun _ _ hk => ⟨hk.distance, hk.parent⟩) hk h

/-! ## The links of the source -/

/-- No neighbour of the source is farther than its link over one of the
faces, and one that is as far hangs below the source. -/
def Tables.Direct (s : NodeId) (faces : List Face) (t : Tables) : Prop :=
  ∀ face ∈ faces, face.remoteNodeId ≠ s → ∃ d, t.distance.lookup face.remoteNodeId = some d ∧
    d ≤ face.linkCost ∧ (d = face.linkCost → t.parent.lookup face.remoteNodeId = some s)

theorem relaxFace_direct {faces : List Face} {nodeId : NodeId} {nodeCost : Cost} {face : Face}
    {t t' : Tables} (hd : t.Direct s faces) (h : relaxFace nodeId nodeCost t face = .ok t') :
    t'.Direct s faces := by
  obtain ⟨remoteCost, hlook, ⟨hlt, rfl⟩ | ⟨_, rfl⟩⟩ := relaxFace_eq_ok.mp h
  · intro f hf hs
    obtain ⟨d, hd, hle, hparent⟩ := hd f hf hs
    by_cases hremote : f.remoteNodeId = face.remoteNodeId
    · rw [hremote] at hd ⊢
      obtain rfl := Option.some.inj (hlook.symm.trans hd)
      have hlt' := lt_of_lt_of_le hlt hle
      exact ⟨_, AList.lookup_insert _, hlt'.le, fun heq => absurd heq hlt'.ne⟩
    · refine ⟨d, ?_, hle, fun heq => ?_⟩
      · rw [Tables.improve_distance, AList.lookup_insert_ne hremote, hd]
      · rw [Tables.improve_parent, AList.lookup_insert_ne hremote, hparent heq]
  · exact hd

/-- Every node that has been reached hangs below the source. -/
def Tables.Star (s : NodeId) (t : Tables) : Prop :=
  ∀ v d, v ≠ s → t.distance.lookup v = some d → d ≠ maxCost → t.parent.lookup v = some s

theorem relaxFace_star {face : Face} {t t' : Tables} (hstar : t.Star s)
    (hcost : face.remoteNodeId ≠ s → face.linkCost ≠ maxCost)
    (h : relaxFace s 0 t face = .ok t') : t'.Star s ∧ t'.Direct s [face] := by
  obtain ⟨remoteCost, hlook, ⟨hlt, rfl⟩ | ⟨hge, rfl⟩⟩ := relaxFace_eq_ok.mp h
  · constructor
    · intro v d hv hd hmax
      by_cases hremote : v = face.remoteNodeId
      · rw [hremote, Tables.improve_parent, AList.lookup_insert]
      · rw [Tables.improve_distance, AList.lookup_insert_ne hremote] at hd
        rw [Tables.improve_parent, AList.lookup_insert_ne hremote]
        exact hstar v d hv hd hmax
    · intro f hf _
      obtain rfl := List.mem_singleton.mp hf
      refine ⟨_, AList.lookup_insert _, ?_, fun _ => AList.lookup_insert _⟩
      rw [UInt32.zero_add]
  · rw [UInt32.zero_add] at hge
    refine ⟨hstar, fun f hf hs => ?_⟩
    obtain rfl := List.mem_singleton.mp hf
    refine ⟨remoteCost, hlook, not_lt.mp hge, ?_⟩
    rintro rfl
    exact hstar _ _ hs hlook (hcost hs)

theorem init_star : (Tables.init G s).Star s := by
  intro v d hv hd hmax
  rw [init_distance, if_neg hv] at hd
  split at hd
  · exact absurd (Option.some.inj hd).symm hmax
  · cases hd

theorem dijkstra_direct {faces : List Face} (hfaces : G.lookup s = some faces)
    (hcost : ∀ face ∈ faces, face.remoteNodeId ≠ s → face.linkCost ≠ maxCost) {fuel : ℕ}
    {t : Tables} (h : dijkstra G fuel (Tables.init G s) = .ok t) : t.Direct s faces := by
  cases fuel with
  | zero => cases h
  | succ fuel =>
      obtain ⟨t₁, hpop, h⟩ := Fallible.bind_eq_ok.mp h
      refine dijkstra_invariant (Tables.Direct s faces)
        (fun _ _ _ _ _ hd hround => relaxFace_direct hd hround) (fun _ _ hd => hd) ?_ h
      obtain ⟨nodeCost, hlook, hcase⟩ := popNode_eq_ok.mp hpop
      obtain rfl : nodeCost = 0 := by
        have hzero : (Tables.init G s).distance.lookup s = some 0 := by
          rw [init_distance, if_pos rfl]
        exact Option.some.inj (hlook.symm.trans hzero)
      rcases hcase with ⟨hlt, _⟩ | ⟨_, hpop⟩
      · exact absurd hlt (lt_irrefl _)
      rw [Graph.facesOf, hfaces, Option.getD_some] at hpop
      have hfinal := Fallible.foldlM_invariant (P := fun rest t => t.Star s ∧
        (∀ face ∈ rest, face ∈ faces) ∧ ∀ face ∈ faces, face ∈ rest ∨ t.Direct s [face]) ?_
        ⟨init_star, fun _ hf => hf, fun _ hf => Or.inl hf⟩ hpop
      · intro face hface hs
        have hdirect := (hfinal.2.2 face hface).resolve_left (by simp)
        exact hdirect face (by simp) hs
      · rintro face rest t t' ⟨hstar, hsub, hdone⟩ hround
        obtain ⟨hstar', hdirect⟩ := relaxFace_star hstar (hcost face (hsub face (by simp))) hround
        refine ⟨hstar', fun f hf => hsub f (List.mem_cons_of_mem _ hf), fun f hf => ?_⟩
        rcases hdone f hf with hmem | hd
        · rcases List.mem_cons.mp hmem with rfl | hmem
          · exact Or.inr hdirect
          · exact Or.inl hmem
        · exact Or.inr (relaxFace_direct hd hround)

/-! ## The first hops -/

/-- `c` is the first node after `s` on a shortest path to `d`; with
positive costs it is the one of the canonical tree. -/
structure IsHop (G : Graph) (s d c : NodeId) : Prop where
  ne_source : c ≠ s
  shortest : ∃ e m, G.Link s c e ∧ IsDist G.Link c d m ∧ IsDist G.Link s d (e + m)
  canonical : Positive G.Link → FirstHop G.Link s d c

/-- The tables at the end of a search. -/
structure Tables.Final (G : Graph) (s : NodeId) (t : Tables) : Prop where
  keys : t.Keys G s
  empty : t.queue = []
  inv : ∃ done, Dijkstra.Inv G.Link s done (fun _ _ _ => False) t.state
  direct : ∀ faces, G.lookup s = some faces → t.Direct s faces

theorem Tables.Final.queue_empty {t : Tables} (h : t.Final G s) : t.state.queue = ∅ := by
  ext p
  simp [Tables.state, h.empty]

theorem Tables.Final.reached_iff {t : Tables} (h : t.Final G s) {v : NodeId} {d : Cost}
    (hd : t.distance.lookup v = some d) : d = maxCost ↔ ¬ Reaches G.Link s v := by
  obtain ⟨done, hinv⟩ := h.inv
  rw [← hinv.dist_none_iff h.queue_empty]
  simp [Tables.state, hd, costValue]

/-- The walk along the parents finds the first node of the branch. -/
theorem firstHop_branch {t : Tables} (hroot : t.state.parent s = none) {vs : List NodeId}
    {v : NodeId} {n : ℕ} (hw : Walk (t.state.Tree G.Link) s vs v n) (hne : v ≠ s) {fuel : ℕ}
    (hfuel : vs.length ≤ fuel) : ∃ c e ws m, firstHop t.parent s fuel v = .ok (some c) ∧
    t.state.Tree G.Link s c e ∧
      Walk (t.state.Tree G.Link) c ws v m ∧ e + m = n := by
  induction hw generalizing fuel with
  | nil => exact absurd rfl hne
  | @snoc vs u v n e hw he ih =>
      obtain ⟨fuel, rfl⟩ : ∃ k, fuel = k + 1 := ⟨fuel - 1, by simp at hfuel; omega⟩
      obtain ⟨p, hlook, hp⟩ := Option.bind_eq_some_iff.mp he.2
      have hpu : p ≠ undefinedNode ∧ p = u := by
        unfold nodeValue at hp
        split at hp
        · cases hp
        · rename_i hundef
          exact ⟨hundef, Option.some.inj hp⟩
      obtain ⟨hundef, rfl⟩ := hpu
      rw [firstHop, Fallible.bind_ok (UnorderedMap.atKey_eq_ok.mpr hlook)]
      by_cases hps : p = s
      · subst hps
        refine ⟨v, e, [v], 0, by simp [pure, Except.pure], he, .nil, ?_⟩
        cases hw with
        | nil => simp
        | snoc _ he' => exact absurd (hroot.symm.trans he'.2) (by simp)
      · have hlen : vs.length ≤ fuel := by simpa using hfuel
        obtain ⟨c, e', ws, m, hc, hsc, hcw, hem⟩ := ih hps hlen
        refine ⟨c, e', v :: ws, m + e, ?_, hsc, hcw.snoc he, by omega⟩
        simp [hundef, hps, hc]

theorem Tables.Final.rootless {t : Tables} (h : t.Final G s) : t.state.parent s = none := by
  obtain ⟨done, hinv⟩ := h.inv
  exact hinv.rootless

/-- A branch of the tree is a path of the canonical tree. -/
theorem Tables.Final.onPath {t : Tables} (h : t.Final G s) (hpos : Positive G.Link)
    {c v : NodeId} {ws : List NodeId} {m : ℕ} (hc : Reaches G.Link s c)
    (hw : Walk (t.state.Tree G.Link) c ws v m) : OnPath G.Link s c v := by
  obtain ⟨done, hinv⟩ := h.inv
  induction hw with
  | nil => exact OnPath.refl s c
  | @snoc ws u v n e hw he ih =>
      have hwG := hw.mono (F := G.Link) fun _ _ _ he => he.1
      obtain ⟨k, hk⟩ := ((hc.trans hwG.reaches).snoc he.1).exists_isDist
      exact OnPath.cons
        (hinv.parent_canonical h.queue_empty hpos ((hinv.dist_iff h.queue_empty).mpr hk) he.2) ih

theorem Tables.Final.isHop {t : Tables} (h : t.Final G s) {d c : NodeId} {ws : List NodeId}
    {e m : ℕ} (hsc : t.state.Tree G.Link s c e) (hcd : Walk (t.state.Tree G.Link) c ws d m)
    (hd : IsDist G.Link s d (e + m)) : IsHop G s d c where
  ne_source := by
    rintro rfl
    exact absurd (h.rootless.symm.trans hsc.2) (by simp)
  shortest := by
    have hwG := hcd.mono (F := G.Link) fun _ _ _ he => he.1
    refine ⟨e, m, hsc.1, ⟨⟨ws, hwG⟩, fun us k hk => ?_⟩, hd⟩
    obtain ⟨xs, hxs⟩ := (Walk.nil.snoc hsc.1).append hk
    have := hd.2 _ _ hxs
    omega
  canonical := by
    intro hpos
    obtain ⟨done, hinv⟩ := h.inv
    have hc : Reaches G.Link s c := (Reaches.refl s).snoc hsc.1
    obtain ⟨k, hk⟩ := hc.exists_isDist
    exact ⟨hinv.parent_canonical h.queue_empty hpos ((hinv.dist_iff h.queue_empty).mpr hk) hsc.2,
      h.onPath hpos hc hcd⟩

/-- What a round over a destination does, given its hop. -/
def NextHops.addHop (ir : NextHops) (hop : Option NodeId) (nodeId : NodeId) : NextHops :=
  match hop with
  | none => ir
  | some cNode => ir.add cNode nodeId

/-- The hop of every key of the graph, as the loop over the destinations
finds it. -/
structure HopTable (G : Graph) (s : NodeId) (fuel : ℕ) (t : Tables)
    (hop : NodeId → Option NodeId) : Prop where
  round : ∀ d ∈ G, ∀ ir, addDestination fuel t s ir d = .ok (NextHops.addHop ir (hop d) d)
  isHop : ∀ d c, hop d = some c → IsHop G s d c
  none_iff : ∀ d ∈ G, hop d = none ↔ d = s ∨ ¬ Reaches G.Link s d
  direct : ∀ d ∈ G, d ≠ s → ∀ e, G.Link s d e → IsDist G.Link s d e → hop d = some d

/-- A node at the end of a shortest link of the source is its own hop. -/
theorem Tables.Final.firstHop_direct {t : Tables} (h : t.Final G s) (hids : undefinedNode ∉ G)
    {d : NodeId} (hds : d ≠ s) {e : ℕ} (hlink : G.Link s d e) (hd : IsDist G.Link s d e)
    (fuel : ℕ) : firstHop t.parent s (fuel + 1) d = .ok (some d) := by
  obtain ⟨faces, hfaces, face, hmem, rfl, rfl⟩ := id hlink
  obtain ⟨done, hinv⟩ := h.inv
  obtain ⟨cost, hlook, _, hparent⟩ := h.direct faces hfaces face hmem hds
  have hcost : cost = face.linkCost := by
    have hdist := (hinv.dist_iff h.queue_empty).mpr hd
    simp only [Tables.state, hlook, Option.bind_some] at hdist
    exact UInt32.toNat_inj.mp (costValue_eq_some.mp hdist).1
  have hs : s ≠ undefinedNode := fun heq => hids (heq ▸ hlink.mem)
  rw [firstHop, Fallible.bind_ok (UnorderedMap.atKey_eq_ok.mpr (hparent hcost))]
  simp [pure, Except.pure]

theorem Tables.Final.destination {t : Tables} (h : t.Final G s) (hG : G.ClosedFrom s) (hs : s ∈ G)
    (hids : undefinedNode ∉ G) {fuel : ℕ} (hfuel : G.keys.length ≤ fuel) {d : NodeId} (hd : d ∈ G) :
    ∃ o : Option NodeId, (∀ ir, addDestination fuel t s ir d = .ok (NextHops.addHop ir o d)) ∧
      (∀ c, o = some c → IsHop G s d c) ∧ (o = none ↔ d = s ∨ ¬ Reaches G.Link s d) ∧
      (d ≠ s → ∀ e, G.Link s d e → IsDist G.Link s d e → o = some d) := by
  obtain ⟨cost, hat, hlook⟩ := UnorderedMap.atKey_of_mem ((h.keys.distance d).mpr (Or.inr hd))
  have hiff := h.reached_iff hlook
  by_cases hmax : cost = maxCost
  · refine ⟨none, fun ir => ?_, by simp, by simp [hiff.mp hmax],
      fun _ _ _ hdist => absurd hdist.reaches (hiff.mp hmax)⟩
    rw [addDestination, Fallible.bind_ok hat, if_pos hmax]
    rfl
  · have hreach : Reaches G.Link s d := by
      by_contra hn
      exact hmax (hiff.mpr hn)
    have hpos_len : 0 < fuel := lt_of_lt_of_le (List.length_pos_of_mem (AList.mem_keys.mp hd)) hfuel
    obtain ⟨fuel', rfl⟩ : ∃ k, fuel = k + 1 := ⟨fuel - 1, by omega⟩
    by_cases hds : d = s
    · subst hds
      refine ⟨none, fun ir => ?_, by simp, by simp, fun hne => absurd rfl hne⟩
      obtain ⟨p, hp, hlookp⟩ := UnorderedMap.atKey_of_mem (h.keys.parent d hd)
      have hundef : p = undefinedNode := by
        by_contra hne
        have := h.rootless
        simp [Tables.state, hlookp, nodeValue, hne] at this
      have hne : undefinedNode ≠ d := fun heq => hids (heq ▸ hd)
      rw [addDestination, Fallible.bind_ok hat, if_neg hmax, firstHop]
      simp only [hp, hundef]
      simp [bind, Except.bind, pure, Except.pure, hne, NextHops.addHop]
    · obtain ⟨done, hinv⟩ := id h.inv
      obtain ⟨n, hn⟩ := hreach.exists_isDist
      obtain ⟨vs, hw, hnd, _⟩ := hinv.branch d n ((hinv.dist_iff h.queue_empty).mpr hn)
      have hlen : vs.length ≤ G.keys.length := by
        refine (List.subperm_of_subset hnd ?_).length_le
        intro x hx
        have hwG := hw.mono (F := G.Link) fun _ _ _ he => he.1
        exact AList.mem_keys.mp (hG.mem hs (hwG.reaches_mem hx))
      obtain ⟨c, e, ws, m, hc, hsc, hcd, rfl⟩ :=
        firstHop_branch hinv.rootless hw hds (hlen.trans hfuel)
      refine ⟨some c, fun ir => ?_, ?_, by simp [hds, hreach], fun _ e hlink hdist => ?_⟩
      · rw [addDestination, Fallible.bind_ok hat, if_neg hmax, Fallible.bind_ok hc]
        rfl
      · intro c' hc'
        obtain rfl := Option.some.inj hc'
        exact h.isHop hsc hcd hn
      · exact Except.ok.inj (hc.symm.trans (h.firstHop_direct hids hds hlink hdist fuel'))

theorem Tables.Final.exists_hopTable {t : Tables} (h : t.Final G s) (hG : G.ClosedFrom s)
    (hs : s ∈ G) (hids : undefinedNode ∉ G) (fuel : ℕ) (hfuel : G.keys.length ≤ fuel) :
    ∃ hop, HopTable G s fuel t hop := by
  classical
  have hex := fun d (hd : d ∈ G) => h.destination hG hs hids hfuel hd
  choose! hop hround hhop hnone hdirect using hex
  refine ⟨fun d => if d ∈ G then hop d else none, ?_, ?_, ?_, ?_⟩
  · intro d hd
    simpa [hd] using hround d hd
  · intro d c hc
    by_cases hd : d ∈ G
    · exact hhop d hd c (by simpa [hd] using hc)
    · simp [hd] at hc
  · intro d hd
    simpa [hd] using hnone d hd
  · intro d hd
    simpa [hd] using hdirect d hd

/-! ## Grouping by next hop -/

theorem mem_addHop {ir : NextHops} {o : Option NodeId} {d c x : NodeId} :
    x ∈ (AList.lookup c (NextHops.addHop ir o d)).getD [] ↔
      x ∈ (ir.lookup c).getD [] ∨ (x = d ∧ o = some c) := by
  cases o with
  | none => simp [NextHops.addHop]
  | some c' =>
      by_cases hc : c = c'
      · subst hc
        simp [NextHops.addHop, NextHops.add, or_comm]
      · have hc' : c' ≠ c := Ne.symm hc
        simp [NextHops.addHop, NextHops.add, AList.lookup_insert_ne hc, hc']

theorem mem_keys_addHop {ir : NextHops} {o : Option NodeId} {d c : NodeId} :
    c ∈ NextHops.addHop ir o d ↔ o = some c ∨ c ∈ ir := by
  cases o with
  | none => simp [NextHops.addHop]
  | some c' => simp [NextHops.addHop, NextHops.add, eq_comm]

/-- The next hops after the loop over the destinations. -/
structure Grouped (D : DestinationNodes) (hop : NodeId → Option NodeId) (ir : NextHops) : Prop where
  mem : ∀ c x, x ∈ (ir.lookup c).getD [] ↔ x ∈ D ∧ hop x = some c
  key : ∀ c, c ∈ ir ↔ ∃ x ∈ D, hop x = some c

theorem HopTable.grouped {fuel : ℕ} {t : Tables} {hop : NodeId → Option NodeId}
    (h : HopTable G s fuel t hop) {D : DestinationNodes} (hD : ∀ d ∈ D, d ∈ G) :
    ∃ ir, D.foldlM (addDestination fuel t s) ∅ = .ok ir ∧ Grouped D hop ir := by
  have hgo : ∀ (D : DestinationNodes) (ir : NextHops), (∀ d ∈ D, d ∈ G) →
      ∃ ir', D.foldlM (addDestination fuel t s) ir = .ok ir' ∧
        (∀ c x, x ∈ (ir'.lookup c).getD [] ↔
          x ∈ (ir.lookup c).getD [] ∨ (x ∈ D ∧ hop x = some c)) ∧
        ∀ c, c ∈ ir' ↔ c ∈ ir ∨ ∃ x ∈ D, hop x = some c := by
    intro D
    induction D with
    | nil =>
        intro ir _
        exact ⟨ir, rfl, by simp, by simp⟩
    | cons d D ih =>
        intro ir hD
        obtain ⟨ir', hfold, hmem, hkey⟩ := ih (NextHops.addHop ir (hop d) d)
          fun x hx => hD x (List.mem_cons_of_mem _ hx)
        refine ⟨ir', ?_, ?_, ?_⟩
        · rw [Fallible.foldlM_cons, Fallible.bind_ok (h.round d (hD d (by simp)) ir), hfold]
        · intro c x
          rw [hmem, mem_addHop, List.mem_cons]
          constructor
          · rintro ((hx | ⟨rfl, hx⟩) | ⟨hx, hc⟩)
            · exact Or.inl hx
            · exact Or.inr ⟨Or.inl rfl, hx⟩
            · exact Or.inr ⟨Or.inr hx, hc⟩
          · rintro (hx | ⟨rfl | hx, hc⟩)
            · exact Or.inl (Or.inl hx)
            · exact Or.inl (Or.inr ⟨rfl, hc⟩)
            · exact Or.inr ⟨hx, hc⟩
        · intro c
          rw [hkey, mem_keys_addHop]
          simp only [List.mem_cons, exists_eq_or_imp]
          tauto
  obtain ⟨ir, hfold, hmem, hkey⟩ := hgo D ∅ hD
  exact ⟨ir, hfold, by simpa using hmem, by simpa using hkey⟩

/-! ## From next hops to faces -/

/-- The face that the scan of the source's faces finds for the next hop `c`. -/
def faceTo (faces : List Face) (c : NodeId) : Option Face :=
  faces.find? fun face => face.remoteNodeId = c

theorem mem_of_faceTo {faces : List Face} {c : NodeId} {face : Face}
    (h : faceTo faces c = some face) : face ∈ faces ∧ face.remoteNodeId = c :=
  ⟨List.mem_of_find?_eq_some h, by simpa using List.find?_some h⟩

/-- The result of `mira` sends the destinations with hop `c` over the first
face to `c`. -/
structure Split (G : Graph) (s : NodeId) (D : DestinationNodes) (hop : NodeId → Option NodeId)
    (result : UnorderedMap FaceId DestinationNodes) : Prop where
  isHop : ∀ d c, hop d = some c → IsHop G s d c
  none_iff : ∀ d ∈ D, hop d = none ↔ d = s ∨ ¬ Reaches G.Link s d
  direct : ∀ d ∈ D, d ≠ s → ∀ e, G.Link s d e → IsDist G.Link s d e → hop d = some d
  face : ∀ f S, result.lookup f = some S → ∃ c faces face, G.lookup s = some faces ∧
    faceTo faces c = some face ∧ face.faceId = f ∧ (∃ x, x ∈ S) ∧
      ∀ x, x ∈ S ↔ x ∈ D ∧ hop x = some c
  served : (∀ faces, G.lookup s = some faces → (faces.map Face.faceId).Nodup) →
    ∀ d ∈ D, ∀ c, hop d = some c → ∃ f S, result.lookup f = some S ∧ d ∈ S

theorem addFace_of_link {faces : List Face} (hfaces : G.lookup s = some faces) {c : NodeId}
    (hc : c ∈ G) {e : ℕ} (hlink : G.Link s c e) : ∃ face, faceTo faces c = some face ∧
      ∀ result S, addFace G s result ⟨c, S⟩ = .ok (result.insert face.faceId S) := by
  obtain ⟨faces', hf, face, hmem, hremote, _⟩ := hlink
  obtain rfl := Option.some.inj (hfaces.symm.trans hf)
  have hsome : (faces.find? fun face => face.remoteNodeId = c).isSome := by
    rw [List.find?_isSome]
    exact ⟨face, hmem, by simpa using hremote⟩
  obtain ⟨face', hfind⟩ := Option.isSome_iff_exists.mp hsome
  refine ⟨face', hfind, ?_⟩
  intro result S
  have hat : G.atKey s = .ok faces := UnorderedMap.atKey_eq_ok.mpr hfaces
  simp only [addFace, hc, if_true]
  rw [Fallible.bind_ok hat]
  simp only [hfind]
  rfl

/-- The face under which a map built by insertions holds a value. -/
theorem foldl_insert_lookup {α K V : Type} [DecidableEq K] (key : α → K) (val : α → V)
    (l : List α) (m : UnorderedMap K V) {k : K} {v : V}
    (h : AList.lookup k (l.foldl (fun m x => AList.insert (key x) (val x) m) m) = some v) :
    (∃ x ∈ l, key x = k ∧ val x = v) ∨ m.lookup k = some v := by
  induction l generalizing m with
  | nil => exact Or.inr h
  | cons x l ih =>
      rcases ih _ h with ⟨y, hy, hk, hv⟩ | hm
      · exact Or.inl ⟨y, List.mem_cons_of_mem _ hy, hk, hv⟩
      · by_cases hkx : k = key x
        · subst hkx
          rw [AList.lookup_insert] at hm
          exact Or.inl ⟨x, by simp, rfl, Option.some.inj hm⟩
        · rw [AList.lookup_insert_ne hkx] at hm
          exact Or.inr hm

theorem foldl_insert_of_mem {α K V : Type} [DecidableEq K] (key : α → K) (val : α → V)
    {l : List α} (hnd : (l.map key).Nodup) (m : UnorderedMap K V) {x : α} (hx : x ∈ l) :
    AList.lookup (key x) (l.foldl (fun m x => AList.insert (key x) (val x) m) m) =
      some (val x) := by
  induction l generalizing m with
  | nil => simp at hx
  | cons y l ih =>
      rw [List.map_cons, List.nodup_cons] at hnd
      rcases List.mem_cons.mp hx with rfl | hx
      · have hkeep : ∀ (l : List α) (m : UnorderedMap K V), key x ∉ l.map key →
            AList.lookup (key x) (l.foldl (fun m x => AList.insert (key x) (val x) m) m) =
              m.lookup (key x) := by
          intro l
          induction l with
          | nil => intro m _; rfl
          | cons z l ih =>
              intro m hz
              rw [List.map_cons, List.mem_cons, not_or] at hz
              rw [List.foldl_cons, ih _ hz.2, AList.lookup_insert_ne hz.1]
        rw [List.foldl_cons, hkeep l _ hnd.1, AList.lookup_insert]
      · exact ih hnd.2 _ hx

theorem HopTable.split {fuel : ℕ} {t : Tables} {hop : NodeId → Option NodeId}
    (h : HopTable G s fuel t hop) (hG : G.ClosedFrom s) {D : DestinationNodes}
    (hD : ∀ d ∈ D, d ∈ G) {ir : NextHops} (hir : Grouped D hop ir) {faces : List Face}
    (hfaces : G.lookup s = some faces) :
    ∃ result, ir.entries.foldlM (addFace G s) ∅ = .ok result ∧ Split G s D hop result := by
  classical
  have hentry : ∀ x ∈ ir.entries, ∃ face, faceTo faces x.1 = some face ∧
      ∀ result, addFace G s result x = .ok (result.insert face.faceId x.2) := by
    rintro ⟨c, S⟩ hx
    have hc : c ∈ ir := AList.mem_keys.mpr (List.mem_map_of_mem (f := Sigma.fst) hx)
    obtain ⟨d, hd, hdc⟩ := (hir.key c).mp hc
    obtain ⟨e, m, hlink, _⟩ := (h.isHop d c hdc).shortest
    obtain ⟨face, hto, hadd⟩ :=
      addFace_of_link hfaces (hG s c e (Reaches.refl s) hlink) hlink
    exact ⟨face, hto, fun result => hadd result S⟩
  choose! faceOf hto hadd using hentry
  have hmem := fun x hx => (mem_of_faceTo (hto x hx)).1
  have hremote := fun x hx => (mem_of_faceTo (hto x hx)).2
  have hfold : ∀ (l : List (Σ _ : NodeId, DestinationNodes))
      (m : UnorderedMap FaceId DestinationNodes), (∀ x ∈ l, x ∈ ir.entries) →
      l.foldlM (addFace G s) m =
        .ok (l.foldl (fun m x => AList.insert (faceOf x).faceId x.2 m) m) := by
    intro l
    induction l with
    | nil => intro m _; rfl
    | cons x l ih =>
        intro m hl
        rw [Fallible.foldlM_cons, Fallible.bind_ok (hadd x (hl x (by simp)) m),
          ih _ fun y hy => hl y (List.mem_cons_of_mem _ hy)]
        rfl
  refine ⟨_, hfold ir.entries ∅ fun _ hx => hx, h.isHop, fun d hd => h.none_iff d (hD d hd),
    fun d hd => h.direct d (hD d hd), ?_, ?_⟩
  · intro f S hS
    rcases foldl_insert_lookup (fun x => (faceOf x).faceId) (fun x => x.2) _ _ hS with
      ⟨⟨c, S'⟩, hx, rfl, rfl⟩ | hS
    · have hlook : ir.lookup c = some S' := (List.mem_dlookup_iff ir.nodupKeys).mpr hx
      have hiff : ∀ x, x ∈ S' ↔ x ∈ D ∧ hop x = some c := by
        intro x
        simpa [hlook] using hir.mem c x
      have hc : c ∈ ir := AList.lookup_isSome.mp (by rw [hlook]; rfl)
      obtain ⟨d, hd, hdc⟩ := (hir.key c).mp hc
      exact ⟨c, faces, faceOf ⟨c, S'⟩, hfaces, hto _ hx, rfl, ⟨d, (hiff d).mpr ⟨hd, hdc⟩⟩, hiff⟩
    · simp at hS
  · intro hdist d hd c hc
    have hmemc : c ∈ ir := (hir.key c).mpr ⟨d, hd, hc⟩
    obtain ⟨S, hS⟩ := Option.isSome_iff_exists.mp (AList.lookup_isSome.mpr hmemc)
    have hx : (⟨c, S⟩ : Σ _ : NodeId, DestinationNodes) ∈ ir.entries :=
      (List.mem_dlookup_iff ir.nodupKeys).mp hS
    have hnd : (ir.entries.map fun x => (faceOf x).faceId).Nodup := by
      have hinj : ∀ x ∈ ir.entries, ∀ y ∈ ir.entries,
          (faceOf x).faceId = (faceOf y).faceId → x = y := by
        intro x hx y hy hxy
        have hface := List.inj_on_of_nodup_map (hdist faces hfaces) (hmem x hx) (hmem y hy) hxy
        have hkey : x.1 = y.1 := by rw [← hremote x hx, ← hremote y hy, hface]
        exact ir.nodupKeys.eq_of_fst_eq hx hy hkey
      exact List.Nodup.map_on hinj ir.nodupKeys.nodup
    refine ⟨(faceOf ⟨c, S⟩).faceId, S,
      foldl_insert_of_mem (fun x => (faceOf x).faceId) (fun x => x.2) hnd ∅ hx, ?_⟩
    have := (hir.mem c d).mpr ⟨hd, hc⟩
    simpa [hS] using this

/-! ## Fuel -/

theorem dijkstra_fuel {t t' : Tables} {fuel : ℕ} (h : dijkstra G fuel t = .ok t') {fuel' : ℕ}
    (hle : fuel ≤ fuel') : dijkstra G fuel' t = .ok t' := by
  induction fuel generalizing t fuel' with
  | zero => cases h
  | succ fuel ih =>
      obtain ⟨fuel', rfl⟩ : ∃ k, fuel' = k + 1 := ⟨fuel' - 1, by omega⟩
      rw [dijkstra] at h ⊢
      cases hq : t.queue with
      | nil => simpa only [hq] using h
      | cons top rest =>
          obtain ⟨cost, nodeId⟩ := top
          simp only [hq] at h ⊢
          obtain ⟨t₁, hpop, hrest⟩ := Fallible.bind_eq_ok.mp h
          rw [Fallible.bind_ok hpop]
          exact ih hrest (by omega)

theorem firstHop_fuel {parent : UnorderedMap NodeId NodeId} {cNode : NodeId} {o : Option NodeId}
    {fuel : ℕ} (h : firstHop parent s fuel cNode = .ok o) {fuel' : ℕ} (hle : fuel ≤ fuel') :
    firstHop parent s fuel' cNode = .ok o := by
  induction fuel generalizing cNode fuel' with
  | zero => cases h
  | succ fuel ih =>
      obtain ⟨fuel', rfl⟩ : ∃ k, fuel' = k + 1 := ⟨fuel' - 1, by omega⟩
      rw [firstHop] at h ⊢
      obtain ⟨pNode, hat, h⟩ := Fallible.bind_eq_ok.mp h
      rw [Fallible.bind_ok hat]
      split at h
      · rename_i hcond
        rw [if_pos hcond]
        exact ih h (by omega)
      · rename_i hcond
        rw [if_neg hcond]
        exact h

theorem addDestination_fuel {t : Tables} {ir ir' : NextHops} {nodeId : NodeId} {fuel : ℕ}
    (h : addDestination fuel t s ir nodeId = .ok ir') {fuel' : ℕ} (hle : fuel ≤ fuel') :
    addDestination fuel' t s ir nodeId = .ok ir' := by
  rw [addDestination] at h ⊢
  obtain ⟨cost, hat, h⟩ := Fallible.bind_eq_ok.mp h
  rw [Fallible.bind_ok hat]
  split at h
  · rename_i hmax
    rw [if_pos hmax]
    exact h
  · rename_i hmax
    rw [if_neg hmax]
    obtain ⟨o, hfirst, h⟩ := Fallible.bind_eq_ok.mp h
    rw [Fallible.bind_ok (firstHop_fuel hfirst hle)]
    exact h

end Mira

/-- A result does not depend on the fuel left over. -/
theorem mira_fuel {G : Graph} {D : DestinationNodes} {s : NodeId}
    {result : UnorderedMap FaceId DestinationNodes} {fuel : ℕ}
    (h : mira fuel G D s = .ok result) {fuel' : ℕ} (hle : fuel ≤ fuel') :
    mira fuel' G D s = .ok result := by
  rw [mira] at h ⊢
  obtain ⟨t, ht, h⟩ := Fallible.bind_eq_ok.mp h
  obtain ⟨ir, hir, h⟩ := Fallible.bind_eq_ok.mp h
  rw [Fallible.bind_ok (Mira.dijkstra_fuel ht hle),
    Fallible.bind_ok (Fallible.foldlM_congr_ok
      (fun _ _ _ hadd => Mira.addDestination_fuel hadd hle) hir), h]

theorem mira_nil {G : Graph} {s : NodeId} {result : UnorderedMap FaceId DestinationNodes} {fuel : ℕ}
    (h : mira fuel G [] s = .ok result) : result = ∅ := by
  obtain ⟨t, _, h⟩ := Fallible.bind_eq_ok.mp h
  exact (Except.ok.inj h).symm

/-- The keys of the result are faces that the graph lists for the source. -/
theorem mira_faces {G : Graph} {D : DestinationNodes} {s : NodeId}
    {result : UnorderedMap FaceId DestinationNodes} {fuel : ℕ}
    (h : mira fuel G D s = .ok result) :
    ∀ f ∈ result, ∃ faces face, G.lookup s = some faces ∧ face ∈ faces ∧ face.faceId = f := by
  obtain ⟨t, _, h⟩ := Fallible.bind_eq_ok.mp h
  obtain ⟨ir, _, h⟩ := Fallible.bind_eq_ok.mp h
  refine Fallible.foldlM_invariant (P := fun _ (m : UnorderedMap FaceId DestinationNodes) =>
    ∀ f ∈ m, ∃ faces face, G.lookup s = some faces ∧ face ∈ faces ∧ face.faceId = f) ?_
    (by simp) h
  intro entry rest m m' hm hadd f hf
  unfold Mira.addFace at hadd
  split at hadd
  · obtain ⟨faces, hat, hadd⟩ := Fallible.bind_eq_ok.mp hadd
    split at hadd
    · obtain rfl := Fallible.pure_eq_ok.mp hadd
      exact hm f hf
    · rename_i face hfind
      obtain rfl := Fallible.pure_eq_ok.mp hadd
      rcases (AList.mem_insert _).mp hf with rfl | hf
      · exact ⟨faces, face, UnorderedMap.atKey_eq_ok.mp hat, List.mem_of_find?_eq_some hfind, rfl⟩
      · exact hm f hf
  · obtain rfl := Fallible.pure_eq_ok.mp hadd
    exact hm f hf

/-- A call that returns was given keys of the graph. -/
theorem mira_destinations {G : Graph} {D : DestinationNodes} {s : NodeId}
    {result : UnorderedMap FaceId DestinationNodes} {fuel : ℕ}
    (h : mira fuel G D s = .ok result) : ∀ d ∈ D, d = s ∨ d ∈ G := by
  obtain ⟨t, ht, h⟩ := Fallible.bind_eq_ok.mp h
  obtain ⟨ir, hir, _⟩ := Fallible.bind_eq_ok.mp h
  intro d hd
  obtain ⟨ir₁, ir₂, hround⟩ := Fallible.foldlM_round hir hd
  obtain ⟨cost, hat, _⟩ := Fallible.bind_eq_ok.mp hround
  rw [← (Mira.dijkstra_keys Mira.init_keys ht).distance, ← AList.lookup_isSome,
    UnorderedMap.atKey_eq_ok.mp hat]
  rfl

/-- A call that returns has found every reachable node in its tables. -/
theorem mira_reaches {G : Graph} {s : NodeId} (hids : Mira.undefinedNode ∉ G)
    (hno : G.NoOverflow s) {D : DestinationNodes} {result : UnorderedMap FaceId DestinationNodes}
    {fuel : ℕ} (h : mira fuel G D s = .ok result) {v : NodeId} (hv : Reaches G.Link s v) :
    v = s ∨ v ∈ G := by
  obtain ⟨t, ht, _⟩ := Fallible.bind_eq_ok.mp h
  obtain ⟨⟨done, hinv⟩, hempty⟩ := Mira.dijkstra_refines hno hids Mira.init_state.inv
    (by simp [Mira.Tables.init]) ht
  have hqueue : t.state.queue = ∅ := by
    ext p
    simp [Mira.Tables.state, hempty]
  rw [← (Mira.dijkstra_keys Mira.init_keys ht).distance, ← AList.lookup_isSome]
  by_contra hnone
  refine (hinv.dist_none_iff hqueue).mp ?_ hv
  have hlook : t.distance.lookup v = none := by simpa using hnone
  simp [Mira.Tables.state, hlook]

/-- A call that returns was not given its source, unless that is a key. -/
theorem mira_source {G : Graph} {s : NodeId} {D : DestinationNodes}
    {result : UnorderedMap FaceId DestinationNodes} {fuel : ℕ}
    (h : mira fuel G D s = .ok result) (hs : s ∈ D) : s ∈ G := by
  obtain ⟨t, ht, h⟩ := Fallible.bind_eq_ok.mp h
  obtain ⟨ir, hir, _⟩ := Fallible.bind_eq_ok.mp h
  have hinv := Mira.dijkstra_invariant (G := G) (fun t => t.distance.lookup s = some 0 ∧
    (∀ v ∈ t.distance, v = s ∨ v ∈ G) ∧ ∀ v ∈ t.parent, v ∈ G) ?_ (fun _ _ hP => hP) ?_ ht
  · obtain ⟨hsource, _, hparent⟩ := hinv
    obtain ⟨ir₁, ir₂, hround⟩ := Fallible.foldlM_round hir hs
    obtain ⟨cost, hat, hround⟩ := Fallible.bind_eq_ok.mp hround
    obtain rfl := Option.some.inj (hsource.symm.trans (UnorderedMap.atKey_eq_ok.mp hat))
    rw [if_neg (by decide)] at hround
    obtain ⟨o, hhop, _⟩ := Fallible.bind_eq_ok.mp hround
    cases fuel with
    | zero => cases hhop
    | succ fuel =>
        obtain ⟨p, hat, _⟩ := Fallible.bind_eq_ok.mp hhop
        exact hparent s (AList.lookup_isSome.mp (by rw [UnorderedMap.atKey_eq_ok.mp hat]; rfl))
  · rintro nodeId nodeCost face t t' ⟨hsource, hkeys, hparent⟩ hround
    obtain ⟨remoteCost, hlook, ⟨hlt, rfl⟩ | ⟨_, rfl⟩⟩ := Mira.relaxFace_eq_ok.mp hround
    · -- the source is never improved
      have hne : face.remoteNodeId ≠ s := by
        intro heq
        rw [heq, hsource] at hlook
        obtain rfl := Option.some.inj hlook
        exact absurd (UInt32.lt_iff_toNat_lt.mp hlt) (Nat.not_lt_zero _)
      have hmem := (hkeys face.remoteNodeId
        (AList.lookup_isSome.mp (by rw [hlook]; rfl))).resolve_left hne
      refine ⟨(AList.lookup_insert_ne hne.symm).trans hsource, fun v hv => ?_, fun v hv => ?_⟩
      · rcases (AList.mem_insert _).mp hv with rfl | hv
        · exact Or.inr hmem
        · exact hkeys v hv
      · rcases (AList.mem_insert _).mp hv with rfl | hv
        · exact hmem
        · exact hparent v hv
    · exact ⟨hsource, hkeys, hparent⟩
  · refine ⟨by rw [Mira.init_distance, if_pos rfl], fun v => (Mira.init_keys.distance v).mp,
      fun v hv => ?_⟩
    rw [← AList.lookup_isSome, Mira.init_parent] at hv
    by_contra hn
    rw [if_neg hn] at hv
    cases hv

/-- What `mira` computes from a source whose reachable links stay inside the
graph and whose costs do not overflow. -/
theorem mira_returns {G : Graph} {s : NodeId} (hG : G.ClosedFrom s) (hs : s ∈ G)
    (hids : Mira.undefinedNode ∉ G) (hno : G.NoOverflow s) {D : DestinationNodes}
    (hD : ∀ d ∈ D, d ∈ G) :
    ∃ bound, ∀ fuel, bound ≤ fuel → ∃ result hop, mira fuel G D s = .ok result ∧
      Mira.Split G s D hop result := by
  refine ⟨(Mira.Tables.init G s).potential G s + 1 + G.keys.length, fun fuel hfuel => ?_⟩
  obtain ⟨t, ht, hkeys⟩ := Mira.dijkstra_returns hG fuel (Mira.Tables.init G s)
    Mira.init_keys Mira.init_reached (by omega)
  obtain ⟨hinv, hempty⟩ := Mira.dijkstra_refines hno hids Mira.init_state.inv
    (by simp [Mira.Tables.init]) ht
  have hdirect : ∀ faces, G.lookup s = some faces → t.Direct s faces := by
    intro faces hfaces
    refine Mira.dijkstra_direct hfaces (fun face hmem hne hmax => ?_) ht
    have hlink : G.Link s face.remoteNodeId face.linkCost.toNat :=
      ⟨faces, hfaces, face, hmem, rfl, rfl⟩
    have hlt := hno.path _ _ _ (Walk.nil.snoc hlink) (by simpa using hne)
    rw [hmax] at hlt
    exact absurd hlt (by decide)
  have hfinal : t.Final G s := ⟨hkeys, hempty, hinv, hdirect⟩
  obtain ⟨hop, htable⟩ := hfinal.exists_hopTable hG hs hids fuel (by omega)
  obtain ⟨ir, hfold, hir⟩ := htable.grouped hD
  obtain ⟨faces, hfaces⟩ := Option.isSome_iff_exists.mp (AList.lookup_isSome.mpr hs)
  obtain ⟨result, hres, hsplit⟩ := htable.split hG hD hir hfaces
  refine ⟨result, hop, ?_, hsplit⟩
  rw [mira, Fallible.bind_ok ht, Fallible.bind_ok hfold, hres]

theorem mira_split {G : Graph} {s : NodeId} (hG : G.ClosedFrom s) (hs : s ∈ G)
    (hids : Mira.undefinedNode ∉ G) (hno : G.NoOverflow s) {D : DestinationNodes}
    (hD : ∀ d ∈ D, d ∈ G) {fuel : ℕ} {result : UnorderedMap FaceId DestinationNodes}
    (h : mira fuel G D s = .ok result) : ∃ hop, Mira.Split G s D hop result := by
  obtain ⟨bound, hbound⟩ := mira_returns hG hs hids hno hD
  obtain ⟨result', hop, hres, hsplit⟩ := hbound _ (le_max_right fuel bound)
  obtain rfl := Except.ok.inj ((mira_fuel h (le_max_left fuel bound)).symm.trans hres)
  exact ⟨hop, hsplit⟩

end Cafe
