import Cafe.Dijkstra
import Cafe.Fallible
import Cafe.Routing

/-!
# The search of `mira` refines Dijkstra's relaxation

The tables of the code are read as a state of the abstract search. As long
as no sum of costs overflows, every round of the code is a step of that
search, whatever the graph; a search that returns has emptied its queue.
-/

open WeightedDigraph

namespace Cafe

instance linearOrderUInt32 : LinearOrder UInt32 where
  le_refl := UInt32.le_refl
  le_trans _ _ _ := UInt32.le_trans
  lt_iff_le_not_ge a b := by
    simp only [UInt32.lt_iff_toNat_lt, UInt32.le_iff_toNat_le]
    omega
  le_antisymm _ _ := UInt32.le_antisymm
  le_total := UInt32.le_total
  toDecidableLE := inferInstance
  toDecidableLT := inferInstance
  toDecidableEq := inferInstance

/-- Some face of `u` leads to `v` at cost `c`. -/
def Graph.Link (G : Graph) (u v : NodeId) (c : ℕ) : Prop :=
  ∃ faces, G.lookup u = some faces ∧ ∃ face ∈ faces, face.remoteNodeId = v ∧
    face.linkCost.toNat = c

/-- The faces of a node, none for a node that is no key. -/
def Graph.facesOf (G : Graph) (u : NodeId) : List Face := (G.lookup u).getD []

theorem Graph.link_iff {G : Graph} {u v : NodeId} {c : ℕ} : G.Link u v c ↔
    ∃ face ∈ G.facesOf u, face.remoteNodeId = v ∧ face.linkCost.toNat = c := by
  rw [Graph.Link, Graph.facesOf]
  cases G.lookup u with
  | none => simp
  | some faces => simp

/-- No cost of a simple path from `s` reaches the largest cost, and one
more link does not wrap it. -/
structure Graph.NoOverflow (G : Graph) (s : NodeId) : Prop where
  path : ∀ vs v n, Walk G.Link s vs v n → vs.Nodup → n < 4294967295
  extend : ∀ vs u v n c, Walk G.Link s vs u n → vs.Nodup → G.Link u v c → n + c < 4294967296

/-- Every link leads to a key of the graph. -/
def Graph.Closed (G : Graph) : Prop :=
  ∀ u faces, G.lookup u = some faces → ∀ face ∈ faces, face.remoteNodeId ∈ G

theorem Graph.Link.mem {G : Graph} {u v : NodeId} {c : ℕ} (h : G.Link u v c) : u ∈ G := by
  obtain ⟨faces, hf, _⟩ := h
  rw [← AList.lookup_isSome, hf]
  rfl

theorem Graph.Closed.mem {G : Graph} (hG : G.Closed) {u v : NodeId} {c : ℕ} (h : G.Link u v c) :
    v ∈ G := by
  obtain ⟨faces, hf, face, hmem, rfl, _⟩ := h
  exact hG u faces hf face hmem

theorem Graph.Closed.reaches_mem {G : Graph} (hG : G.Closed) {s v : NodeId} (hs : s ∈ G)
    (h : Reaches G.Link s v) : v ∈ G :=
  Reaches.induct hs (fun _ _ _ _ _ he => hG.mem he) h

theorem UnorderedMap.atKey_eq_ok {K V : Type} [DecidableEq K] {m : UnorderedMap K V} {k : K}
    {v : V} : m.atKey k = .ok v ↔ m.lookup k = some v := by
  unfold UnorderedMap.atKey
  cases h : m.lookup k <;> simp

theorem UnorderedMap.atKey_of_mem {K V : Type} [DecidableEq K] {m : UnorderedMap K V} {k : K}
    (h : k ∈ m) : ∃ v, m.atKey k = .ok v ∧ m.lookup k = some v := by
  obtain ⟨v, hv⟩ := Option.isSome_iff_exists.mp (AList.lookup_isSome.mpr h)
  exact ⟨v, UnorderedMap.atKey_eq_ok.mpr hv, hv⟩

theorem UnorderedMap.atKey_of_notMem {K V : Type} [DecidableEq K] {m : UnorderedMap K V} {k : K}
    (h : k ∉ m) : m.atKey k = .error .outOfRange := by
  unfold UnorderedMap.atKey
  rw [AList.lookup_eq_none.mpr h]

namespace Mira

/-! ## The queue -/

theorem CostNodePair.le_total (a b : CostNodePair) : CostNodePair.le a b ∨ CostNodePair.le b a := by
  obtain ⟨c, u⟩ := a
  obtain ⟨d, v⟩ := b
  simp only [CostNodePair.le]
  rcases lt_trichotomy c d with h | h | h
  · exact Or.inl (Or.inl h)
  · rcases UInt32.le_total u v with h' | h'
    · exact Or.inl (Or.inr ⟨h, h'⟩)
    · exact Or.inr (Or.inr ⟨h.symm, h'⟩)
  · exact Or.inr (Or.inl h)

theorem CostNodePair.le_trans {a b c : CostNodePair} (hab : CostNodePair.le a b)
    (hbc : CostNodePair.le b c) : CostNodePair.le a c := by
  rcases hab with h1 | ⟨h1, h1'⟩
  · rcases hbc with h2 | ⟨h2, _⟩
    · exact Or.inl (h1.trans h2)
    · exact Or.inl (h2 ▸ h1)
  · rcases hbc with h2 | ⟨h2, h2'⟩
    · exact Or.inl (h1 ▸ h2)
    · exact Or.inr ⟨h1.trans h2, UInt32.le_trans h1' h2'⟩

instance : Std.Total CostNodePair.le := ⟨CostNodePair.le_total⟩

instance : IsTrans CostNodePair CostNodePair.le := ⟨fun _ _ _ => CostNodePair.le_trans⟩

/-- Finite costs are numbers, the largest cost stands for no cost at all. -/
def costValue (d : Cost) : Option ℕ := if d = maxCost then none else some d.toNat

def nodeValue (p : NodeId) : Option NodeId := if p = undefinedNode then none else some p

theorem costValue_eq_some {d : Cost} {n : ℕ} :
    costValue d = some n ↔ d.toNat = n ∧ n < 4294967295 := by
  have hd := d.toNat_lt
  have hmax : maxCost.toNat = 4294967295 := rfl
  have hne : d = maxCost ↔ d.toNat = 4294967295 := by rw [← UInt32.toNat_inj, hmax]
  unfold costValue
  split
  · rename_i h
    have := hne.mp h
    simp only [reduceCtorEq, false_iff, not_and]
    omega
  · rename_i h
    have : d.toNat ≠ 4294967295 := fun heq => h (hne.mpr heq)
    simp only [Option.some.injEq]
    constructor
    · rintro rfl
      exact ⟨rfl, by omega⟩
    · exact fun h => h.1

theorem costValue_eq_none {d : Cost} : costValue d = none ↔ d.toNat = 4294967295 := by
  have hmax : maxCost.toNat = 4294967295 := rfl
  unfold costValue
  rw [← hmax, UInt32.toNat_inj]
  simp

/-- The tables as a state of the abstract search. -/
def Tables.state (t : Tables) : Dijkstra.State NodeId where
  dist v := (t.distance.lookup v).bind costValue
  parent v := (t.parent.lookup v).bind nodeValue
  queue := {p | ∃ q ∈ t.queue, p = (q.1.toNat, q.2)}

theorem Tables.mem_queue {t : Tables} {c : Cost} {v : NodeId} (h : (c, v) ∈ t.queue) :
    (c.toNat, v) ∈ t.state.queue := ⟨(c, v), h, rfl⟩

theorem before_of_le {a b : CostNodePair} (h : CostNodePair.le a b) :
    Dijkstra.Before a.1.toNat a.2 (b.1.toNat, b.2) := by
  rcases h with h | ⟨h, h'⟩
  · exact Or.inl (UInt32.lt_iff_toNat_lt.mp h)
  · exact Or.inr ⟨by rw [h], h'⟩

/-- The pair on top of a sorted queue is handled before all others. -/
theorem Tables.before_of_sorted {t : Tables} {cost : Cost} {nodeId : NodeId}
    {rest : List CostNodePair} (hq : t.queue = (cost, nodeId) :: rest)
    (hs : t.queue.Pairwise CostNodePair.le) :
    ∀ p ∈ t.state.queue, Dijkstra.Before cost.toNat nodeId p := by
  rintro p ⟨q, hqr, rfl⟩
  rw [hq] at hqr hs
  rcases List.mem_cons.mp hqr with rfl | hqr
  · exact Or.inr ⟨rfl, le_rfl⟩
  · exact before_of_le ((List.pairwise_cons.mp hs).1 q hqr)

/-! ## One round -/

/-- The tables after a face to `v` has offered less than was known. -/
def Tables.improve (t : Tables) (nodeId v : NodeId) (cost : Cost) : Tables where
  distance := t.distance.insert v cost
  parent := t.parent.insert v nodeId
  queue := t.queue.orderedInsert CostNodePair.le (cost, v)

@[simp] theorem Tables.improve_distance (t : Tables) (nodeId v : NodeId) (cost : Cost) :
    (t.improve nodeId v cost).distance = t.distance.insert v cost := rfl

@[simp] theorem Tables.improve_parent (t : Tables) (nodeId v : NodeId) (cost : Cost) :
    (t.improve nodeId v cost).parent = t.parent.insert v nodeId := rfl

@[simp] theorem Tables.improve_queue (t : Tables) (nodeId v : NodeId) (cost : Cost) :
    (t.improve nodeId v cost).queue = t.queue.orderedInsert CostNodePair.le (cost, v) := rfl

/-- What a round over one face does to the tables. -/
theorem relaxFace_eq_ok {nodeId : NodeId} {nodeCost : Cost} {t t' : Tables} {face : Face} :
    relaxFace nodeId nodeCost t face = .ok t' ↔
      ∃ remoteCost, t.distance.lookup face.remoteNodeId = some remoteCost ∧
        ((nodeCost + face.linkCost < remoteCost ∧
            t' = t.improve nodeId face.remoteNodeId (nodeCost + face.linkCost)) ∨
          (¬ nodeCost + face.linkCost < remoteCost ∧ t' = t)) := by
  rw [relaxFace, Fallible.bind_eq_ok]
  refine exists_congr fun remoteCost => and_congr UnorderedMap.atKey_eq_ok ?_
  split
  · rename_i hlt
    simp only [hlt, true_and, not_true_eq_false, false_and, or_false]
    exact Fallible.pure_eq_ok.trans eq_comm
  · rename_i hge
    simp only [hge, true_and, not_false_eq_true, false_and, false_or]
    exact Fallible.pure_eq_ok.trans eq_comm

section Round

variable {G : Graph} {s : NodeId} {done : Set NodeId} {todo : NodeId → NodeId → ℕ → Prop}

/-- What handling a pair of the queue does: nothing if it is stale. -/
theorem popNode_eq_ok {cost : Cost} {nodeId : NodeId} {t t' : Tables} :
    popNode G cost nodeId t = .ok t' ↔
      ∃ nodeCost, t.distance.lookup nodeId = some nodeCost ∧
        ((nodeCost < cost ∧ t' = t) ∨ (¬ nodeCost < cost ∧
          (G.facesOf nodeId).foldlM (relaxFace nodeId nodeCost) t = .ok t')) := by
  rw [popNode, Fallible.bind_eq_ok]
  refine exists_congr fun nodeCost => and_congr UnorderedMap.atKey_eq_ok ?_
  split
  · rename_i hstale
    simp only [hstale, true_and, not_true_eq_false, false_and, or_false]
    exact Fallible.pure_eq_ok.trans eq_comm
  · rename_i hfresh
    simp only [hfresh, false_and, not_false_eq_true, true_and, false_or]
    rw [Graph.facesOf]
    cases G.lookup nodeId with
    | none => exact Iff.rfl
    | some faces => exact Iff.rfl

/-- What every relaxation keeps, a round of the search keeps. -/
theorem popNode_invariant (P : Tables → Prop)
    (hrelax : ∀ nodeId nodeCost face t t', P t → relaxFace nodeId nodeCost t face = .ok t' → P t')
    {cost : Cost} {nodeId : NodeId} {t t' : Tables} (hP : P t)
    (h : popNode G cost nodeId t = .ok t') : P t' := by
  obtain ⟨nodeCost, _, ⟨_, rfl⟩ | ⟨_, h⟩⟩ := popNode_eq_ok.mp h
  · exact hP
  · exact Fallible.foldlM_invariant (fun _ t => P t)
      (fun _ _ _ _ hP hround => hrelax _ _ _ _ _ hP hround) hP h

theorem toNat_add_of_lt {a b : Cost} (h : a.toNat + b.toNat < 4294967296) :
    (a + b).toNat = a.toNat + b.toNat := by
  rw [UInt32.toNat_add]
  exact Nat.mod_eq_of_lt h

/-- An improvement of the tables is one of the abstract search. -/
theorem Tables.improve_refines {t : Tables} {k c : ℕ} {u v : NodeId} {d : Cost}
    (hd : costValue d = some (k + c)) (hu : u ≠ undefinedNode)
    (hlt : ∀ m, t.state.dist v = some m → k + c < m) :
    Dijkstra.Improved k u v c t.state (t.improve u v d).state where
  lt := hlt
  dist := by
    funext x
    by_cases hx : x = v
    · subst hx
      simp [Tables.state, Tables.improve, hd]
    · simp [Tables.state, Tables.improve, AList.lookup_insert_ne hx, Function.update_of_ne hx]
  parent := by
    funext x
    by_cases hx : x = v
    · subst hx
      simp [Tables.state, Tables.improve, nodeValue, hu]
    · simp [Tables.state, Tables.improve, AList.lookup_insert_ne hx, Function.update_of_ne hx]
  queue := by
    have hsum : d.toNat = k + c := (costValue_eq_some.mp hd).1
    ext p
    simp only [Tables.state, Tables.improve, List.mem_orderedInsert, Set.mem_ofPred_eq,
      Set.mem_insert_iff]
    constructor
    · rintro ⟨q, rfl | hq, rfl⟩
      · exact Or.inl (by rw [hsum])
      · exact Or.inr ⟨q, hq, rfl⟩
    · rintro (rfl | ⟨q, hq, rfl⟩)
      · exact ⟨_, Or.inl rfl, by rw [hsum]⟩
      · exact ⟨q, Or.inr hq, rfl⟩

/-- Without overflow a round over one face relaxes the link of that face. -/
theorem relaxFace_refines (hno : G.NoOverflow s) (hids : undefinedNode ∉ G) {nodeId : NodeId}
    {nodeCost : Cost} {t t' : Tables} {face : Face}
    (hlink : G.Link nodeId face.remoteNodeId face.linkCost.toNat)
    (hinv : Dijkstra.Inv G.Link s done todo t.state)
    (hlast : Dijkstra.Latest G.Link done t.state nodeCost.toNat nodeId)
    (h : relaxFace nodeId nodeCost t face = .ok t') :
    Dijkstra.Improved nodeCost.toNat nodeId face.remoteNodeId face.linkCost.toNat
        t.state t'.state ∨
      (t' = t ∧ ∃ m, t.state.dist face.remoteNodeId = some m ∧
        m ≤ nodeCost.toNat + face.linkCost.toNat) := by
  obtain ⟨remoteCost, hlook, hcase⟩ := relaxFace_eq_ok.mp h
  obtain ⟨vs, hwalk, hnd, hvs⟩ := hinv.walk hlast.dist
  have hadd := toNat_add_of_lt (hno.extend vs _ _ _ _ hwalk hnd hlink)
  have hdist : t.state.dist face.remoteNodeId = costValue remoteCost := by
    simp [Tables.state, hlook]
  rcases hcase with ⟨hlt, rfl⟩ | ⟨hge, rfl⟩
  · left
    have hlt' := UInt32.lt_iff_toNat_lt.mp hlt
    rw [hadd] at hlt'
    have hval : costValue (nodeCost + face.linkCost) =
        some (nodeCost.toNat + face.linkCost.toNat) := by
      have := remoteCost.toNat_lt
      exact costValue_eq_some.mpr ⟨hadd, by omega⟩
    refine Tables.improve_refines hval (fun heq => hids (heq ▸ hlink.mem)) fun m hm => ?_
    rw [hdist, costValue_eq_some] at hm
    omega
  · right
    refine ⟨rfl, ?_⟩
    rw [UInt32.lt_iff_toNat_lt, hadd] at hge
    cases hval : costValue remoteCost with
    | some m =>
        refine ⟨m, hdist.trans hval, ?_⟩
        have := (costValue_eq_some.mp hval).1
        omega
    | none =>
        -- an unreached node extends the simple path to the node being processed
        have hnone := hdist.trans hval
        have hnotin : face.remoteNodeId ∉ vs := by
          intro hmem
          have hd : face.remoteNodeId ∈ done := by
            by_cases heq : face.remoteNodeId = nodeId
            · exact heq ▸ hlast.mem
            · exact hvs _ hmem heq
          obtain ⟨k, hk, _⟩ := hinv.known _ hd
          rw [hnone] at hk
          cases hk
        have hpath := hno.path _ _ _ (hwalk.snoc hlink) (List.nodup_cons.mpr ⟨hnotin, hnd⟩)
        have hmax := costValue_eq_none.mp hval
        omega

theorem relaxFace_sorted {nodeId : NodeId} {nodeCost : Cost} {t t' : Tables} {face : Face}
    (hs : t.queue.Pairwise CostNodePair.le) (h : relaxFace nodeId nodeCost t face = .ok t') :
    t'.queue.Pairwise CostNodePair.le := by
  obtain ⟨_, _, ⟨_, rfl⟩ | ⟨_, rfl⟩⟩ := relaxFace_eq_ok.mp h
  · exact hs.orderedInsert _ _
  · exact hs

theorem popNode_sorted {cost : Cost} {nodeId : NodeId} {t t' : Tables}
    (hs : t.queue.Pairwise CostNodePair.le) (h : popNode G cost nodeId t = .ok t') :
    t'.queue.Pairwise CostNodePair.le :=
  popNode_invariant (fun t => t.queue.Pairwise CostNodePair.le)
    (fun _ _ _ _ _ hs hround => relaxFace_sorted hs hround) hs h

/-- The links of a node that lead over the given faces. -/
def facesTodo (nodeId : NodeId) (faces : List Face) (x y : NodeId) (e : ℕ) : Prop :=
  x = nodeId ∧ ∃ face ∈ faces, face.remoteNodeId = y ∧ face.linkCost.toNat = e

theorem facesTodo_facesOf {u x y : NodeId} {e : ℕ} :
    facesTodo u (G.facesOf u) x y e ↔ x = u ∧ G.Link x y e := by
  rw [facesTodo]
  refine and_congr_right fun hx => ?_
  rw [hx, Graph.link_iff]

theorem facesTodo_nil {u x y : NodeId} {e : ℕ} : ¬ facesTodo u [] x y e := by
  rintro ⟨_, face, hmem, _⟩
  simp at hmem

theorem facesTodo_tail {u x y : NodeId} {e : ℕ} {face : Face} {rest : List Face}
    (h : facesTodo u (face :: rest) x y e)
    (hne : ¬ (x = u ∧ y = face.remoteNodeId ∧ e = face.linkCost.toNat)) :
    facesTodo u rest x y e := by
  obtain ⟨rfl, f, hf, rfl, rfl⟩ := h
  rcases List.mem_cons.mp hf with rfl | hf
  · exact absurd ⟨rfl, rfl, rfl⟩ hne
  · exact ⟨rfl, f, hf, rfl, rfl⟩

theorem relaxFaces_refines (hno : G.NoOverflow s) (hids : undefinedNode ∉ G) {nodeId : NodeId}
    {nodeCost : Cost} {faces : List Face}
    (hlinks : ∀ face ∈ faces, G.Link nodeId face.remoteNodeId face.linkCost.toNat)
    {t t' : Tables} (hinv : Dijkstra.Inv G.Link s done (facesTodo nodeId faces) t.state)
    (hlast : Dijkstra.Latest G.Link done t.state nodeCost.toNat nodeId)
    (h : faces.foldlM (relaxFace nodeId nodeCost) t = .ok t') :
    Dijkstra.Inv G.Link s done (fun _ _ _ => False) t'.state := by
  have hfinal := Fallible.foldlM_invariant (P := fun rest t =>
    (∀ face ∈ rest, face ∈ faces) ∧
      Dijkstra.Inv G.Link s done (facesTodo nodeId rest) t.state ∧
      Dijkstra.Latest G.Link done t.state nodeCost.toNat nodeId) ?_
    ⟨fun _ hf => hf, hinv, hlast⟩ h
  · exact hfinal.2.1.weaken fun _ _ _ _ htodo => facesTodo_nil htodo
  · rintro face rest t t' ⟨hsub, hinv, hlast⟩ hround
    have hlink := hlinks face (hsub face (by simp))
    have hsub' : ∀ f ∈ rest, f ∈ faces := fun f hf => hsub f (List.mem_cons_of_mem _ hf)
    rcases relaxFace_refines hno hids hlink hinv hlast hround with himp | ⟨rfl, m, hm, hle⟩
    · exact ⟨hsub', (himp.inv hinv hlast hlink).weaken
        fun _ _ _ _ htodo => facesTodo_tail htodo.1 htodo.2, himp.latest hinv hlast⟩
    · exact ⟨hsub', (hinv.keep hlast hm hle).weaken
        fun _ _ _ _ htodo => facesTodo_tail htodo.1 htodo.2, hlast⟩

/-- Handling the pair on top of the heap keeps the invariant of the search. -/
theorem popNode_refines (hno : G.NoOverflow s) (hids : undefinedNode ∉ G) {cost : Cost}
    {nodeId : NodeId} {rest : List CostNodePair} {t t' : Tables}
    (hq : t.queue = (cost, nodeId) :: rest)
    (hinv : Dijkstra.Inv G.Link s done (fun _ _ _ => False) t.state)
    (hs : t.queue.Pairwise CostNodePair.le)
    (h : popNode G cost nodeId { t with queue := rest } = .ok t') :
    ∃ done', Dijkstra.Inv G.Link s done' (fun _ _ _ => False) t'.state := by
  obtain ⟨nodeCost, hlook, hcase⟩ := popNode_eq_ok.mp h
  have hmem : (cost.toNat, nodeId) ∈ t.state.queue := Tables.mem_queue (by simp [hq])
  obtain ⟨k, hk, hkle⟩ := hinv.queue _ hmem
  have hval : costValue nodeCost = some k := by
    simpa [Tables.state, show t.distance.lookup nodeId = some nodeCost from hlook] using hk
  obtain ⟨rfl, _⟩ := costValue_eq_some.mp hval
  have hsub : Tables.state { t with queue := rest } =
      { t.state with queue := (Tables.state { t with queue := rest }).queue } := rfl
  have hqsub : (Tables.state { t with queue := rest }).queue ⊆ t.state.queue := by
    rintro p ⟨q, hqr, rfl⟩
    exact Tables.mem_queue (by rw [hq]; exact List.mem_cons_of_mem _ hqr)
  have hkeep : ∀ p ∈ t.state.queue, p ≠ (cost.toNat, nodeId) →
      p ∈ (Tables.state { t with queue := rest }).queue := by
    rintro p ⟨q, hqr, rfl⟩ hne
    rw [hq] at hqr
    rcases List.mem_cons.mp hqr with rfl | hqr
    · exact absurd rfl hne
    · exact ⟨q, hqr, rfl⟩
  rcases hcase with ⟨hlt, rfl⟩ | ⟨hge, h⟩
  · exact ⟨done, hsub ▸ hinv.skip hk (UInt32.lt_iff_toNat_lt.mp hlt) hqsub hkeep⟩
  · have hcost : nodeCost.toNat = cost.toNat := by
      rw [UInt32.lt_iff_toNat_lt] at hge
      exact le_antisymm hkle (Nat.le_of_not_lt hge)
    have hmin := Tables.before_of_sorted hq hs
    rw [← hcost] at hkeep hmem hmin
    have hset := hinv.settle hk hmin hqsub hkeep
    have hlast := hinv.latest hmem hk (Tables.state { t with queue := rest }).queue
    rw [← hsub] at hset hlast
    exact ⟨_, relaxFaces_refines hno hids
      (fun face hface => Graph.link_iff.mpr ⟨face, hface, rfl, rfl⟩)
      (hset.weaken fun _ _ _ he hx => facesTodo_facesOf.mpr ⟨hx.1, he⟩) hlast h⟩

/-- The rule for the loop of the search: what handling the pair on top of the
heap keeps holds at the end, with an empty queue. -/
theorem dijkstra_run (P : Tables → Prop)
    (hstep : ∀ t cost nodeId rest t', t.queue = (cost, nodeId) :: rest → P t →
      popNode G cost nodeId { t with queue := rest } = .ok t' → P t') {fuel : ℕ} {t t' : Tables}
    (hP : P t) (h : dijkstra G fuel t = .ok t') : P t' ∧ t'.queue = [] := by
  induction fuel generalizing t with
  | zero => cases h
  | succ fuel ih =>
      rw [dijkstra] at h
      cases hq : t.queue with
      | nil =>
          simp only [hq] at h
          obtain rfl := Except.ok.inj h
          exact ⟨hP, hq⟩
      | cons top rest =>
          obtain ⟨cost, nodeId⟩ := top
          simp only [hq] at h
          obtain ⟨t₁, hpop, hrest⟩ := Fallible.bind_eq_ok.mp h
          exact ih (hstep t cost nodeId rest t₁ hq hP hpop) hrest

/-- A search that returns has emptied its queue and kept the invariant. -/
theorem dijkstra_refines (hno : G.NoOverflow s) (hids : undefinedNode ∉ G) {fuel : ℕ}
    {t t' : Tables} {done : Set NodeId}
    (hinv : Dijkstra.Inv G.Link s done (fun _ _ _ => False) t.state)
    (hs : t.queue.Pairwise CostNodePair.le) (h : dijkstra G fuel t = .ok t') :
    (∃ done', Dijkstra.Inv G.Link s done' (fun _ _ _ => False) t'.state) ∧ t'.queue = [] := by
  have hfinal := dijkstra_run (fun t =>
    (∃ done, Dijkstra.Inv G.Link s done (fun _ _ _ => False) t.state) ∧
      t.queue.Pairwise CostNodePair.le) ?_ ⟨⟨done, hinv⟩, hs⟩ h
  · exact ⟨hfinal.1.1, hfinal.2⟩
  · rintro t cost nodeId rest t' hq ⟨⟨done, hinv⟩, hs⟩ hpop
    exact ⟨popNode_refines hno hids hq hinv hs hpop,
      popNode_sorted (List.pairwise_cons.mp (hq ▸ hs)).2 hpop⟩

end Round

end Mira

end Cafe
