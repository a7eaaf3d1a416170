import Cafe.MiraSpec

/-!
# When `mira` ends

The search ends for all costs. The walks along the parents end if no sum
that the search computes wraps: every node then hangs below a node that was
settled before it. The tables are read as numbers here, the largest cost
included, so that nothing is asked of the node ids.
-/

open WeightedDigraph

namespace Cafe

/-- No sum of the distance of a node and the cost of one of its links wraps
to less than the distance of the node at the other end. -/
def Graph.SumsFit (G : Graph) (s : NodeId) : Prop :=
  ∀ u v n c m, IsDist G.Link s u n → n < 4294967295 → G.Link u v c → IsDist G.Link s v m →
    n + c < 4294967296 ∨ m + 4294967296 ≤ n + c

/-- Where no cost overflows, the sums of the search fit. -/
theorem Graph.NoOverflow.sumsFit {G : Graph} {s : NodeId} (h : G.NoOverflow s) : G.SumsFit s := by
  intro u v n c m hu _ he _
  obtain ⟨⟨vs, hw⟩, hleast⟩ := hu
  obtain ⟨ws, k, hws, hnd, hle⟩ := hw.exists_simple
  obtain rfl : k = n := le_antisymm hle (hleast ws k hws)
  exact Or.inl (h.extend ws u v k c hws hnd he)

namespace Mira

variable {G : Graph} {s : NodeId}

def Tables.cost (t : Tables) (v : NodeId) : ℕ := ((t.distance.lookup v).getD maxCost).toNat

/-- The settled nodes, the last one first: each hangs below one that was
settled before it. -/
def Hangs (parent : UnorderedMap NodeId NodeId) : List NodeId → Prop
  | [] => True
  | v :: done => v ∉ done ∧ (∀ p, parent.lookup v = some p → p = undefinedNode ∨ p ∈ done) ∧
      Hangs parent done

/-- The invariant of the search with settled nodes `done`. The links in
`todo` leave the node being processed and are still to be relaxed. -/
structure Settling (G : Graph) (s : NodeId) (done : List NodeId)
    (todo : NodeId → NodeId → ℕ → Prop) (t : Tables) : Prop where
  source : t.cost s = 0
  queue : ∀ p ∈ t.queue, t.cost p.2 ≤ p.1.toNat ∧ p.1.toNat < 4294967295
  queued : ∀ v, t.cost v < 4294967295 → v ∉ done → ∃ p ∈ t.queue, p.2 = v ∧ p.1.toNat = t.cost v
  known : ∀ u ∈ done, t.cost u < 4294967295 ∧ ∀ p ∈ t.queue, t.cost u ≤ p.1.toNat
  relaxed : ∀ u ∈ done, ∀ v c, G.Link u v c → ¬ todo u v c → t.cost v ≤ t.cost u + c
  walk : ∀ v, t.cost v < 4294967295 → ∃ vs, Walk G.Link s vs v (t.cost v)
  parent : ∀ v p, t.parent.lookup v = some p → p = undefinedNode ∨ p ∈ done
  hangs : Hangs t.parent done

theorem Tables.cost_insert (t : Tables) (v x : NodeId) (d : Cost)
    (parent : UnorderedMap NodeId NodeId) (queue : List CostNodePair) :
    Tables.cost ⟨t.distance.insert v d, parent, queue⟩ x =
      if x = v then d.toNat else t.cost x := by
  by_cases hx : x = v
  · subst hx
    simp [Tables.cost]
  · simp [Tables.cost, AList.lookup_insert_ne hx, hx]

theorem Hangs.congr {parent parent' : UnorderedMap NodeId NodeId} {done : List NodeId}
    (h : Hangs parent done) (heq : ∀ v ∈ done, parent'.lookup v = parent.lookup v) :
    Hangs parent' done := by
  induction done with
  | nil => trivial
  | cons v done ih =>
      refine ⟨h.1, fun p hp => h.2.1 p ?_,
        ih h.2.2 fun u hu => heq u (List.mem_cons_of_mem _ hu)⟩
      rw [← heq v (by simp), hp]

/-- The walk along the parents of settled nodes ends. -/
theorem Hangs.firstHop {parent : UnorderedMap NodeId NodeId} {done : List NodeId}
    (h : Hangs parent done) (hkeys : ∀ v ∈ done, v ∈ parent) {fuel : ℕ} {v : NodeId}
    (hv : v ∈ done) (hfuel : done.length ≤ fuel) : ∃ o, firstHop parent s fuel v = .ok o := by
  induction done generalizing v fuel with
  | nil => simp at hv
  | cons u done ih =>
      obtain ⟨fuel, rfl⟩ : ∃ k, fuel = k + 1 := ⟨fuel - 1, by simp at hfuel; omega⟩
      have hlen : done.length ≤ fuel := by simpa using hfuel
      have hkeys' : ∀ x ∈ done, x ∈ parent := fun x hx => hkeys x (List.mem_cons_of_mem _ hx)
      rcases List.mem_cons.mp hv with rfl | hv
      · obtain ⟨p, hat, hlook⟩ := UnorderedMap.atKey_of_mem (hkeys v (by simp))
        rw [Mira.firstHop, Fallible.bind_ok hat]
        split
        · rename_i hcond
          exact ih h.2.2 hkeys' ((h.2.1 p hlook).resolve_left hcond.1) hlen
        · split
          · exact ⟨_, rfl⟩
          · exact ⟨_, rfl⟩
      · obtain ⟨o, ho⟩ := ih h.2.2 hkeys' hv hlen
        exact ⟨o, firstHop_fuel ho (Nat.le_succ fuel)⟩

/-- One step of the walk along the parents. -/
def Climbs (t : Tables) (s : NodeId) (v p : NodeId) : Prop :=
  t.parent.lookup v = some p ∧ p ≠ undefinedNode ∧ p ≠ s

theorem Hangs.climb {t : Tables} {done : List NodeId} (h : Hangs t.parent done) {v p : NodeId}
    (hv : v ∈ done) (hp : Climbs t s v p) : p ∈ done := by
  induction done with
  | nil => simp at hv
  | cons u done ih =>
      apply List.mem_cons_of_mem
      rcases List.mem_cons.mp hv with rfl | hv
      · exact (h.2.1 p hp.1).resolve_left hp.2.1
      · have hup := ih h.2.2 hv
        exact hup

/-- The walks along the parents of settled nodes do not return. -/
theorem Hangs.acyclic {t : Tables} {done : List NodeId} (h : Hangs t.parent done) {v : NodeId}
    (hv : v ∈ done) : ¬ Relation.TransGen (Climbs t s) v v := by
  induction done with
  | nil => simp at hv
  | cons u done ih =>
      rcases List.mem_cons.mp hv with rfl | hv
      · intro hcycle
        have hbelow : ∀ x, Relation.TransGen (Climbs t s) v x → x ∈ done := by
          intro x hx
          induction hx with
          | single hx => exact (h.2.1 _ hx.1).resolve_left hx.2.1
          | tail _ hx ih => exact h.2.2.climb ih hx
        exact h.1 (hbelow v hcycle)
      · exact ih h.2.2 hv

/-! ## The search keeps the invariant -/

theorem init_cost (v : NodeId) : (Tables.init G s).cost v = if v = s then 0 else 4294967295 := by
  unfold Tables.cost
  rw [init_distance]
  by_cases hs : v = s
  · simp [hs]
  · by_cases hG : v ∈ G <;> simp [hs, hG, maxCost]

theorem init_settling : Settling G s [] (fun _ _ _ => False) (Tables.init G s) where
  source := by simp [init_cost]
  queue := by
    intro p hp
    obtain rfl : p = (0, s) := by simpa [Tables.init] using hp
    simp [init_cost]
  queued := by
    intro v hv _
    rw [init_cost] at hv
    split at hv
    · rename_i hs
      exact ⟨(0, s), by simp [Tables.init], hs.symm, by simp [init_cost, hs]⟩
    · omega
  known := by simp
  relaxed := by simp
  walk := by
    intro v hv
    rw [init_cost] at hv
    split at hv
    · rename_i hs
      subst hs
      exact ⟨[v], by rw [init_cost, if_pos rfl]; exact .nil⟩
    · omega
  parent := by
    intro v p hp
    rw [init_parent] at hp
    split at hp
    · exact Or.inl (Option.some.inj hp).symm
    · cases hp
  hangs := trivial

section Step

variable {done : List NodeId} {todo : NodeId → NodeId → ℕ → Prop} {t t' : Tables}

theorem Settling.weaken {todo' : NodeId → NodeId → ℕ → Prop} (h : Settling G s done todo t)
    (hle : ∀ u v c, u ∈ done → G.Link u v c → todo u v c → ¬ todo' u v c →
    t.cost v ≤ t.cost u + c) :
    Settling G s done todo' t where
  source := h.source
  queue := h.queue
  queued := h.queued
  known := h.known
  relaxed := by
    intro u hu v c he hn
    by_cases htodo : todo u v c
    · exact hle u v c hu he htodo hn
    · exact h.relaxed u hu v c he htodo
  walk := h.walk
  parent := h.parent
  hangs := h.hangs

/-- A walk from the source has passed the queue, or all its nodes are settled. -/
theorem Settling.walk_bound (h : Settling G s done (fun _ _ _ => False) t) {vs : List NodeId}
    {v : NodeId} {m : ℕ} (hw : Walk G.Link s vs v m) :
    (v ∈ done ∧ t.cost v ≤ m) ∨ (∃ p ∈ t.queue, p.1.toNat ≤ m) ∨ 4294967295 ≤ m := by
  induction hw with
  | nil =>
      by_cases hs : s ∈ done
      · exact Or.inl ⟨hs, h.source.le⟩
      · obtain ⟨p, hp, _, hcost⟩ := h.queued s (by rw [h.source]; omega) hs
        exact Or.inr (Or.inl ⟨p, hp, by rw [hcost, h.source]⟩)
  | @snoc vs u v m c hw he ih =>
      rcases ih with ⟨hu, hle⟩ | ⟨p, hp, hle⟩ | hmax
      · have hrelaxed := h.relaxed u hu v c he id
        by_cases hv : v ∈ done
        · exact Or.inl ⟨hv, by omega⟩
        · by_cases hlt : t.cost v < 4294967295
          · obtain ⟨p, hp, _, hcost⟩ := h.queued v hlt hv
            exact Or.inr (Or.inl ⟨p, hp, by omega⟩)
          · exact Or.inr (Or.inr (by omega))
      · exact Or.inr (Or.inl ⟨p, hp, by omega⟩)
      · exact Or.inr (Or.inr (by omega))

/-- The node on top of the queue has its distance. -/
theorem Settling.isDist (h : Settling G s done (fun _ _ _ => False) t) {cost : Cost}
    {nodeId : NodeId} (hmem : (cost, nodeId) ∈ t.queue) (hcost : t.cost nodeId = cost.toNat)
    (hmin : ∀ p ∈ t.queue, cost.toNat ≤ p.1.toNat) : IsDist G.Link s nodeId cost.toNat := by
  have hlt : cost.toNat < 4294967295 := (h.queue _ hmem).2
  constructor
  · obtain ⟨vs, hw⟩ := h.walk nodeId (by omega)
    exact ⟨vs, hcost ▸ hw⟩
  · intro vs m hw
    rcases h.walk_bound hw with ⟨_, hle⟩ | ⟨p, hp, hle⟩ | hmax
    · omega
    · exact (hmin p hp).trans hle
    · omega

/-- A sum over a link of the least pair either fits or, having wrapped, stays
above the cost of the node at the other end. -/
theorem Settling.sum_fits (hsum : G.SumsFit s) (h : Settling G s done (fun _ _ _ => False) t)
    {cost : Cost} {nodeId v : NodeId} {c : ℕ} (hmem : (cost, nodeId) ∈ t.queue)
    (hcost : t.cost nodeId = cost.toNat) (hmin : ∀ p ∈ t.queue, cost.toNat ≤ p.1.toNat)
    (hlink : G.Link nodeId v c) (hc : c < 4294967296) :
    cost.toNat + c < 4294967296 ∨ t.cost v + 4294967296 ≤ cost.toNat + c := by
  have hdist := h.isDist hmem hcost hmin
  have hlt : cost.toNat < 4294967295 := (h.queue _ hmem).2
  obtain ⟨m, hm⟩ := (hdist.reaches.snoc hlink).exists_isDist
  rcases hsum _ _ _ _ m hdist hlt hlink hm with hfit | hwrap
  · exact Or.inl hfit
  · right
    -- a sum that wraps is below `cost`, so the remote node is settled
    obtain ⟨vs, hw⟩ := hm.1
    rcases h.walk_bound hw with ⟨_, hle⟩ | ⟨p, hp, hle⟩ | hmax
    · exact (Nat.add_le_add_right hle _).trans hwrap
    · have := hmin p hp
      omega
    · omega

/-- The node being processed: settled, and no settled node is farther away. -/
structure Processing (done : List NodeId) (t : Tables) (u : NodeId) (k : ℕ) : Prop where
  mem : u ∈ done
  cost : t.cost u = k
  max : ∀ x ∈ done, t.cost x ≤ k
  lt : k < 4294967295

/-- What an improvement of `v` to the offer `k + c` from `u` does to the tables. -/
structure Improves (k : ℕ) (u v : NodeId) (c : ℕ) (t t' : Tables) : Prop where
  lt : k + c < t.cost v
  cost : ∀ x, t'.cost x = if x = v then k + c else t.cost x
  parent : ∀ x, t'.parent.lookup x = if x = v then some u else t.parent.lookup x
  queue : ∃ d : Cost, d.toNat = k + c ∧ ∀ p, p ∈ t'.queue ↔ p = (d, v) ∨ p ∈ t.queue

theorem Improves.of_improve {k c : ℕ} {u v : NodeId} {d : Cost} (hd : d.toNat = k + c)
    (hlt : k + c < t.cost v) : Improves k u v c t (t.improve u v d) where
  lt := hlt
  cost x := by rw [Tables.improve, Tables.cost_insert, hd]
  parent x := by
    by_cases hx : x = v
    · rw [if_pos hx, hx, Tables.improve, AList.lookup_insert]
    · rw [if_neg hx, Tables.improve, AList.lookup_insert_ne hx]
  queue := ⟨d, hd, fun _ => List.mem_orderedInsert _⟩

theorem Improves.cost_ne {k c : ℕ} {u v x : NodeId} (hi : Improves k u v c t t') (hx : x ≠ v) :
    t'.cost x = t.cost x := by
  rw [hi.cost, if_neg hx]

theorem Improves.cost_self {k c : ℕ} {u v : NodeId} (hi : Improves k u v c t t') :
    t'.cost v = k + c := by
  rw [hi.cost, if_pos rfl]

theorem Improves.cost_le {k c : ℕ} {u v : NodeId} (hi : Improves k u v c t t') (x : NodeId) :
    t'.cost x ≤ t.cost x := by
  by_cases hx : x = v
  · have := hi.lt
    rw [hx, hi.cost_self]
    omega
  · exact (hi.cost_ne hx).le

/-- A processed node is not improved. -/
theorem Improves.ne_of_mem {u v : NodeId} {k c : ℕ} (hi : Improves k u v c t t')
    (hproc : Processing done t u k) : ∀ x ∈ done, x ≠ v := by
  rintro x hx rfl
  have hlt := hi.lt
  have hmax := hproc.max x hx
  omega

theorem Improves.processing {u v : NodeId} {k c : ℕ} (hi : Improves k u v c t t')
    (hproc : Processing done t u k) : Processing done t' u k where
  mem := hproc.mem
  cost := by rw [hi.cost_ne (hi.ne_of_mem hproc u hproc.mem), hproc.cost]
  max x hx := by
    rw [hi.cost_ne (hi.ne_of_mem hproc x hx)]
    exact hproc.max x hx
  lt := hproc.lt

theorem Improves.settling {u v : NodeId} {k c : ℕ} (hi : Improves k u v c t t')
    (h : Settling G s done todo t) (hproc : Processing done t u k) (hlink : G.Link u v c) :
    Settling G s done (fun x y e => todo x y e ∧ ¬ (x = u ∧ y = v ∧ e = c)) t' := by
  have hlt := hi.lt
  have hne := hi.ne_of_mem hproc
  obtain ⟨d, hd, hqueue⟩ := hi.queue
  have hbound : t.cost v ≤ 4294967295 := by
    have := UInt32.toNat_lt ((t.distance.lookup v).getD maxCost)
    unfold Tables.cost
    omega
  constructor
  · have := hi.cost_le s
    rw [h.source] at this
    omega
  · intro p hp
    rcases (hqueue p).mp hp with rfl | hp
    · simp only [hi.cost_self, hd]
      omega
    · exact ⟨(hi.cost_le _).trans (h.queue p hp).1, (h.queue p hp).2⟩
  · intro x hx hxd
    by_cases hxv : x = v
    · subst hxv
      exact ⟨_, (hqueue _).mpr (Or.inl rfl), rfl, by simp only [hi.cost_self, hd]⟩
    · rw [hi.cost_ne hxv] at hx ⊢
      obtain ⟨p, hp, hrest⟩ := h.queued x hx hxd
      exact ⟨p, (hqueue p).mpr (Or.inr hp), hrest⟩
  · intro x hx
    rw [hi.cost_ne (hne x hx)]
    refine ⟨(h.known x hx).1, fun p hp => ?_⟩
    rcases (hqueue p).mp hp with rfl | hp
    · have := hproc.max x hx
      simp only [hd]
      omega
    · exact (h.known x hx).2 p hp
  · intro x hx y e he hn
    rw [hi.cost_ne (hne x hx)]
    by_cases hthis : x = u ∧ y = v ∧ e = c
    · obtain ⟨rfl, rfl, rfl⟩ := hthis
      rw [hi.cost_self, hproc.cost]
    · exact (hi.cost_le y).trans (h.relaxed x hx y e he fun htodo => hn ⟨htodo, hthis⟩)
  · intro x hx
    by_cases hxv : x = v
    · subst hxv
      obtain ⟨vs, hw⟩ := h.walk u (by rw [hproc.cost]; exact hproc.lt)
      rw [hproc.cost] at hw
      exact ⟨x :: vs, hi.cost_self ▸ hw.snoc hlink⟩
    · rw [hi.cost_ne hxv] at hx ⊢
      exact h.walk x hx
  · intro x p hp
    rw [hi.parent] at hp
    split at hp
    · exact Or.inr (Option.some.inj hp ▸ hproc.mem)
    · exact h.parent x p hp
  · exact h.hangs.congr fun x hx => by rw [hi.parent, if_neg (hne x hx)]

/-- A round over one face, whose sum may wrap if it stays above the cost
of the remote node. -/
theorem relaxFace_settling {nodeId : NodeId} {nodeCost : Cost} {face : Face}
    (h : Settling G s done todo t) (hproc : Processing done t nodeId nodeCost.toNat)
    (hlink : G.Link nodeId face.remoteNodeId face.linkCost.toNat)
    (hfit : nodeCost.toNat + face.linkCost.toNat < 4294967296 ∨
      t.cost face.remoteNodeId + 4294967296 ≤ nodeCost.toNat + face.linkCost.toNat)
    (hround : relaxFace nodeId nodeCost t face = .ok t') :
    Settling G s done (fun x y e => todo x y e ∧
        ¬ (x = nodeId ∧ y = face.remoteNodeId ∧ e = face.linkCost.toNat)) t' ∧
      Processing done t' nodeId nodeCost.toNat ∧ ∀ x, t'.cost x ≤ t.cost x := by
  obtain ⟨remoteCost, hlook, hcase⟩ := relaxFace_eq_ok.mp hround
  have hremote : t.cost face.remoteNodeId = remoteCost.toNat := by simp [Tables.cost, hlook]
  have hsum := UInt32.toNat_add nodeCost face.linkCost
  have hlink' := face.linkCost.toNat_lt
  have hnode := nodeCost.toNat_lt
  rcases hcase with ⟨hlt, rfl⟩ | ⟨hge, rfl⟩
  · rw [UInt32.lt_iff_toNat_lt, ← hremote] at hlt
    have hadd : (nodeCost + face.linkCost).toNat = nodeCost.toNat + face.linkCost.toNat := by
      apply toNat_add_of_lt
      omega
    have hi : Improves nodeCost.toNat nodeId face.remoteNodeId face.linkCost.toNat t
        (t.improve nodeId face.remoteNodeId (nodeCost + face.linkCost)) :=
      Improves.of_improve hadd (hadd ▸ hlt)
    exact ⟨hi.settling h hproc hlink, hi.processing hproc, hi.cost_le⟩
  · rw [UInt32.lt_iff_toNat_lt, ← hremote] at hge
    refine ⟨h.weaken ?_, hproc, fun _ => le_rfl⟩
    rintro u v c _ _ htodo hn
    obtain ⟨rfl, rfl, rfl⟩ : u = nodeId ∧ v = face.remoteNodeId ∧ c = face.linkCost.toNat := by
      by_contra hne
      exact hn ⟨htodo, hne⟩
    rw [hproc.cost]
    omega

theorem relaxFaces_settling {nodeId : NodeId} {nodeCost : Cost} {faces : List Face}
    (hlinks : ∀ face ∈ faces, G.Link nodeId face.remoteNodeId face.linkCost.toNat)
    (h : Settling G s done (facesTodo nodeId faces) t)
    (hproc : Processing done t nodeId nodeCost.toNat)
    (hfit : ∀ face ∈ faces, nodeCost.toNat + face.linkCost.toNat < 4294967296 ∨
      t.cost face.remoteNodeId + 4294967296 ≤ nodeCost.toNat + face.linkCost.toNat)
    (hround : faces.foldlM (relaxFace nodeId nodeCost) t = .ok t') :
    Settling G s done (fun _ _ _ => False) t' := by
  have hfinal := Fallible.foldlM_invariant (P := fun rest t₁ => (∀ face ∈ rest, face ∈ faces) ∧
    Settling G s done (facesTodo nodeId rest) t₁ ∧ Processing done t₁ nodeId nodeCost.toNat ∧
      ∀ x, t₁.cost x ≤ t.cost x) ?_ ⟨fun _ hf => hf, h, hproc, fun _ => le_rfl⟩ hround
  · exact hfinal.2.1.weaken fun _ _ _ _ _ htodo => absurd htodo facesTodo_nil
  · rintro face rest t₁ t₂ ⟨hsub, h, hproc, hle⟩ hround
    have hmem := hsub face (by simp)
    have hfit₁ := (hfit face hmem).imp_right ((Nat.add_le_add_right (hle _) _).trans)
    obtain ⟨h', hproc', hle'⟩ := relaxFace_settling h hproc (hlinks face hmem) hfit₁ hround
    refine ⟨fun f hf => hsub f (List.mem_cons_of_mem _ hf), h'.weaken ?_, hproc',
      fun x => (hle' x).trans (hle x)⟩
    exact fun _ _ _ _ _ htodo hn => absurd (facesTodo_tail htodo.1 htodo.2) hn

section Pop

variable {cost : Cost} {nodeId : NodeId} {rest : List CostNodePair}

/-- Dropping a stale pair keeps the invariant. -/
theorem Settling.skip (h : Settling G s done todo t) (hq : t.queue = (cost, nodeId) :: rest)
    (hstale : t.cost nodeId < cost.toNat) : Settling G s done todo { t with queue := rest } where
  source := h.source
  queue := fun p hp => h.queue p (hq ▸ List.mem_cons_of_mem _ hp)
  queued := by
    intro v hv hd
    obtain ⟨p, hp, rfl, hcost⟩ := h.queued v hv hd
    rw [hq] at hp
    rcases List.mem_cons.mp hp with rfl | hp
    · exact absurd hcost.symm (Nat.ne_of_lt hstale)
    · exact ⟨p, hp, rfl, hcost⟩
  known := fun u hu =>
    ⟨(h.known u hu).1, fun p hp => (h.known u hu).2 p (hq ▸ List.mem_cons_of_mem _ hp)⟩
  relaxed := h.relaxed
  walk := h.walk
  parent := h.parent
  hangs := h.hangs

/-- Settling the node on top of the queue, before any of its links is relaxed. -/
theorem Settling.settle (h : Settling G s done (fun _ _ _ => False) t)
    (hq : t.queue = (cost, nodeId) :: rest) (hcost : t.cost nodeId = cost.toNat)
    (hmin : ∀ p ∈ t.queue, cost.toNat ≤ p.1.toNat) :
    ∃ done', Settling G s done' (fun x y e => x = nodeId ∧ G.Link x y e) { t with queue := rest } ∧
      Processing done' { t with queue := rest } nodeId cost.toNat := by
  have hmem : (cost, nodeId) ∈ t.queue := by simp [hq]
  have hrest : ∀ p ∈ rest, p ∈ t.queue := fun p hp => hq ▸ List.mem_cons_of_mem _ hp
  obtain ⟨done', hmem', hsub, hnode, hhangs⟩ : ∃ done', nodeId ∈ done' ∧ (∀ x ∈ done, x ∈ done') ∧
      (∀ x ∈ done', x = nodeId ∨ x ∈ done) ∧ Hangs t.parent done' := by
    by_cases hold : nodeId ∈ done
    · exact ⟨done, hold, fun _ hx => hx, fun _ hx => Or.inr hx, h.hangs⟩
    · exact ⟨nodeId :: done, by simp, fun _ hx => List.mem_cons_of_mem _ hx,
        fun _ hx => List.mem_cons.mp hx, hold, h.parent nodeId, h.hangs⟩
  have hknown : ∀ x ∈ done', t.cost x < 4294967295 ∧ ∀ p ∈ t.queue, t.cost x ≤ p.1.toNat := by
    intro x hx
    rcases hnode x hx with rfl | hx
    · rw [hcost]
      exact ⟨(h.queue _ hmem).2, hmin⟩
    · exact h.known x hx
  refine ⟨done', ⟨h.source, fun p hp => h.queue p (hrest p hp), ?_,
    fun x hx => ⟨(hknown x hx).1, fun p hp => (hknown x hx).2 p (hrest p hp)⟩, ?_, h.walk, ?_,
    hhangs⟩, hmem', hcost, fun x hx => (hknown x hx).2 _ hmem, (h.queue _ hmem).2⟩
  · intro v hv hd
    obtain ⟨p, hp, rfl, hpcost⟩ := h.queued v hv fun hold => hd (hsub v hold)
    rw [hq] at hp
    rcases List.mem_cons.mp hp with rfl | hp
    · exact absurd hmem' hd
    · exact ⟨p, hp, rfl, hpcost⟩
  · intro u hu v c he hn
    rcases hnode u hu with rfl | hu
    · exact absurd ⟨rfl, he⟩ hn
    · exact h.relaxed u hu v c he id
  · intro v p hp
    exact (h.parent v p hp).imp_right (hsub p)

/-- Handling the pair on top of the heap keeps the invariant. -/
theorem popNode_settling (hsum : G.SumsFit s) (hq : t.queue = (cost, nodeId) :: rest)
    (h : Settling G s done (fun _ _ _ => False) t) (hs : t.queue.Pairwise CostNodePair.le)
    (hround : popNode G cost nodeId { t with queue := rest } = .ok t') :
    ∃ done', Settling G s done' (fun _ _ _ => False) t' := by
  have hmem : (cost, nodeId) ∈ t.queue := by simp [hq]
  have hmin : ∀ p ∈ t.queue, cost.toNat ≤ p.1.toNat := fun p hp =>
    (Tables.before_of_sorted hq hs _ (Tables.mem_queue hp)).le
  obtain ⟨nodeCost, hlook, hcase⟩ := popNode_eq_ok.mp hround
  have hnode : t.cost nodeId = nodeCost.toNat := by
    rw [Tables.cost, show t.distance.lookup nodeId = some nodeCost from hlook, Option.getD_some]
  rcases hcase with ⟨hlt, rfl⟩ | ⟨hge, hround⟩
  · exact ⟨done, h.skip hq (hnode ▸ UInt32.lt_iff_toNat_lt.mp hlt)⟩
  · have hcost : nodeCost.toNat = cost.toNat := by
      have hle := (h.queue _ hmem).1
      rw [UInt32.lt_iff_toNat_lt] at hge
      rw [hnode] at hle
      exact le_antisymm hle (Nat.le_of_not_lt hge)
    have hlinks : ∀ face ∈ G.facesOf nodeId, G.Link nodeId face.remoteNodeId face.linkCost.toNat :=
      fun face hface => Graph.link_iff.mpr ⟨face, hface, rfl, rfl⟩
    obtain ⟨done', h', hproc⟩ := h.settle hq (hnode.trans hcost) hmin
    refine ⟨done', relaxFaces_settling hlinks (h'.weaken ?_) (hcost ▸ hproc) ?_ hround⟩
    · exact fun _ _ _ _ he hx hn => absurd (facesTodo_facesOf.mpr ⟨hx.1, he⟩) hn
    · intro face hface
      exact hcost ▸ h.sum_fits hsum hmem (hnode.trans hcost) hmin (hlinks face hface)
        face.linkCost.toNat_lt

end Pop

/-- A search that returns has emptied its queue and kept the invariant. -/
theorem dijkstra_settling (hsum : G.SumsFit s) {fuel : ℕ}
    (h : Settling G s done (fun _ _ _ => False) t) (hs : t.queue.Pairwise CostNodePair.le)
    (hrun : dijkstra G fuel t = .ok t') :
    (∃ done', Settling G s done' (fun _ _ _ => False) t') ∧ t'.queue = [] := by
  have hfinal := dijkstra_run (fun t =>
    (∃ done, Settling G s done (fun _ _ _ => False) t) ∧ t.queue.Pairwise CostNodePair.le) ?_
    ⟨⟨done, h⟩, hs⟩ hrun
  · exact ⟨hfinal.1.1, hfinal.2⟩
  · rintro t cost nodeId rest t' hq ⟨⟨done, h⟩, hs⟩ hpop
    exact ⟨popNode_settling hsum hq h hs hpop,
      popNode_sorted (List.pairwise_cons.mp (hq ▸ hs)).2 hpop⟩

end Step

/-- The tables at the end of the search let every walk along the parents end. -/
theorem addDestination_total {done : List NodeId} {t : Tables} (hk : t.Keys G s)
    (h : Settling G s done (fun _ _ _ => False) t) (hempty : t.queue = [])
    (hdone : ∀ v ∈ done, v ∈ G) {fuel : ℕ} (hfuel : done.length ≤ fuel) {d : NodeId} (hd : d ∈ G)
    (ir : NextHops) : ∃ ir', addDestination fuel t s ir d = .ok ir' := by
  obtain ⟨cost, hat, hlook⟩ := UnorderedMap.atKey_of_mem ((hk.distance d).mpr (Or.inr hd))
  rw [addDestination, Fallible.bind_ok hat]
  split
  · exact ⟨ir, rfl⟩
  · rename_i hmax
    have hcost : t.cost d < 4294967295 := by
      have hlt := cost.toNat_lt
      have hne : cost.toNat ≠ 4294967295 := fun heq => hmax (UInt32.toNat_inj.mp heq)
      simp only [Tables.cost, hlook, Option.getD_some]
      omega
    have hmem : d ∈ done := by
      by_contra hn
      obtain ⟨p, hp, _⟩ := h.queued d hcost hn
      simp [hempty] at hp
    obtain ⟨o, ho⟩ := h.hangs.firstHop (s := s) (fun v hv => hk.parent v (hdone v hv)) hmem hfuel
    rw [Fallible.bind_ok ho]
    cases o with
    | none => exact ⟨_, rfl⟩
    | some c => exact ⟨_, rfl⟩

theorem addFace_total (hs : s ∈ G) (result : UnorderedMap FaceId DestinationNodes)
    (entry : Σ _ : NodeId, DestinationNodes) :
    ∃ result', addFace G s result entry = .ok result' := by
  obtain ⟨faces, hat, _⟩ := UnorderedMap.atKey_of_mem hs
  unfold addFace
  split
  · rw [Fallible.bind_ok hat]
    split
    · exact ⟨_, rfl⟩
    · exact ⟨_, rfl⟩
  · exact ⟨_, rfl⟩

theorem Settling.mem (hG : G.Closed) (hs : s ∈ G) {done : List NodeId} {t : Tables}
    {todo : NodeId → NodeId → ℕ → Prop} (h : Settling G s done todo t) {v : NodeId}
    (hv : v ∈ done) : v ∈ G := by
  obtain ⟨vs, hw⟩ := h.walk v (h.known v hv).1
  exact hG.reaches_mem hs hw.reaches

/-- The search ends for all costs; if its sums fit it has settled every node
that it has reached. -/
theorem search_settles (hG : G.Closed) (s : NodeId) :
    ∃ t bound, (∀ fuel, bound ≤ fuel → dijkstra G fuel (Tables.init G s) = .ok t) ∧ t.Keys G s ∧
      (G.SumsFit s → t.queue = [] ∧ ∃ done, Settling G s done (fun _ _ _ => False) t) := by
  obtain ⟨t, ht, hkeys⟩ := dijkstra_returns (hG.from s) _ (Tables.init G s) init_keys init_reached
    (Nat.lt_succ_self _)
  refine ⟨t, _, fun fuel hfuel => dijkstra_fuel ht hfuel, hkeys, fun hsum => ?_⟩
  obtain ⟨hdone, hempty⟩ := dijkstra_settling hsum init_settling (by simp [Tables.init]) ht
  exact ⟨hempty, hdone⟩

/-- If the sums of the search fit, the walks along the parents let `mira`
return. -/
theorem returns_of_sumsFit (hG : G.Closed) (hs : s ∈ G) (hsum : G.SumsFit s)
    {D : DestinationNodes} (hD : ∀ d ∈ D, d ∈ G) :
    ∃ bound, ∀ fuel, bound ≤ fuel → ∃ result, mira fuel G D s = .ok result := by
  obtain ⟨t, bound, ht, hkeys, hfit⟩ := search_settles hG s
  obtain ⟨hempty, done, h⟩ := hfit hsum
  refine ⟨max bound done.length, fun fuel hfuel => ?_⟩
  have hround : ∀ d ∈ D, ∀ ir : NextHops, True →
      ∃ ir', addDestination fuel t s ir d = .ok ir' ∧ True := by
    intro d hd ir _
    obtain ⟨ir', hir'⟩ := addDestination_total hkeys h hempty (fun v hv => h.mem hG hs hv)
      ((le_max_right _ _).trans hfuel) (hD d hd) ir
    exact ⟨ir', hir', trivial⟩
  obtain ⟨ir, hir, _⟩ := Fallible.foldlM_total (fun _ => True) hround (b := ∅) trivial
  have hface : ∀ entry ∈ ir.entries, ∀ result : UnorderedMap FaceId DestinationNodes, True →
      ∃ result', addFace G s result entry = .ok result' ∧ True := by
    intro entry _ result _
    obtain ⟨result', hresult'⟩ := addFace_total hs result entry
    exact ⟨result', hresult', trivial⟩
  obtain ⟨result, hresult, _⟩ := Fallible.foldlM_total (fun _ => True) hface (b := ∅) trivial
  refine ⟨result, ?_⟩
  rw [mira, Fallible.bind_ok (ht fuel ((le_max_left _ _).trans hfuel)),
    Fallible.bind_ok hir, hresult]

end Mira

/-- The search ends for all costs. If its sums fit, the parents that it
leaves form no cycle and `mira` returns. -/
theorem mira_terminates {G : Graph} {s : NodeId} (hG : G.Closed) (hs : s ∈ G) :
    ∃ t bound, (∀ fuel, bound ≤ fuel →
        Mira.dijkstra G fuel (Mira.Tables.init G s) = .ok t) ∧
      (G.SumsFit s → (∀ v, ¬ Relation.TransGen (Mira.Climbs t s) v v) ∧
        ∀ D : DestinationNodes, (∀ d ∈ D, d ∈ G) → ∃ bound, ∀ fuel, bound ≤ fuel →
          ∃ result, mira fuel G D s = .ok result) := by
  obtain ⟨t, bound, ht, _, hfit⟩ := Mira.search_settles hG s
  refine ⟨t, bound, ht, fun hsum => ⟨fun v hcycle => ?_,
    fun D hD => Mira.returns_of_sumsFit hG hs hsum hD⟩⟩
  obtain ⟨_, done, h⟩ := hfit hsum
  obtain ⟨p, hp, hrest⟩ := Relation.TransGen.head'_iff.mp hcycle
  have hmem : p ∈ done := (h.parent v p hp.1).resolve_left hp.2.1
  exact h.hangs.acyclic hmem (Relation.TransGen.tail' hrest hp)

namespace Wrap

/-- The sum over the second link wraps to 0, the distance of the source. -/
def back : Graph where
  entries := [⟨0, [⟨257, 1, 5⟩]⟩, ⟨1, [⟨257, 0, 4294967291⟩]⟩]
  nodupKeys := by
    unfold List.NodupKeys
    decide

theorem back_sumsFit : back.SumsFit 0 := by
  have hlink : ∀ u v c, back.Link u v c → (u = 0 ∧ v = 1 ∧ c = 5) ∨
      (u = 1 ∧ v = 0 ∧ c = 4294967291) := Graph.forall_links (by decide)
  intro u v n c m hn _ he hm
  rcases hlink u v c he with ⟨rfl, rfl, rfl⟩ | ⟨rfl, rfl, rfl⟩
  · have := hn.unique (isDist_self 0)
    omega
  · have hle := (isDist_self (0 : NodeId)).le_add
      (⟨_, rfl, _, List.mem_singleton_self _, rfl, rfl⟩ : back.Link 0 1 5) hn
    have := hm.unique (isDist_self 0)
    omega

end Wrap

theorem mira_terminates_back : Wrap.back.Closed ∧ Wrap.back.SumsFit 0 ∧
    ∃ bound, ∀ fuel, bound ≤ fuel → ∃ result, mira fuel Wrap.back [0, 1] 0 = .ok result := by
  have hclosed : Wrap.back.Closed :=
    Graph.forall_faces (P := fun _ face => face.remoteNodeId ∈ Wrap.back) (by decide)
  obtain ⟨t, bound, _, h⟩ := mira_terminates hclosed (s := 0) (by decide)
  exact ⟨hclosed, Wrap.back_sumsFit, (h Wrap.back_sumsFit).2 [0, 1]
    (List.all_iff_forall_prop.mp (by decide))⟩

/-! ## A cost that wraps

A sum can wrap to less than the distance of a node on the way to it, and
the parents of two nodes then form a cycle.
-/

namespace Wrap

def graph : Graph where
  entries := [⟨0, [⟨257, 1, 5⟩]⟩, ⟨1, [⟨257, 2, 4294967286⟩]⟩, ⟨2, [⟨257, 1, 6⟩]⟩]
  nodupKeys := by
    unfold List.NodupKeys
    decide

theorem search : ∃ t, Mira.dijkstra graph 8 (Mira.Tables.init graph 0) = .ok t ∧
    t.parent.lookup 1 = some 2 ∧ t.parent.lookup 2 = some 1 ∧ t.distance.lookup 1 = some 1 :=
  ⟨_, rfl, rfl, rfl, rfl⟩

/-- The walk along the parents goes round the cycle. -/
theorem firstHop_cycles {parent : UnorderedMap NodeId NodeId} (h1 : parent.lookup 1 = some 2)
    (h2 : parent.lookup 2 = some 1) (fuel : ℕ) :
    Mira.firstHop parent 0 fuel 1 = .error .outOfFuel ∧
      Mira.firstHop parent 0 fuel 2 = .error .outOfFuel := by
  have hat1 : parent.atKey 1 = .ok 2 := UnorderedMap.atKey_eq_ok.mpr h1
  have hat2 : parent.atKey 2 = .ok 1 := UnorderedMap.atKey_eq_ok.mpr h2
  induction fuel with
  | zero => exact ⟨rfl, rfl⟩
  | succ fuel ih =>
      constructor
      · rw [Mira.firstHop, Fallible.bind_ok hat1, if_pos (by decide)]
        exact ih.2
      · rw [Mira.firstHop, Fallible.bind_ok hat2, if_pos (by decide)]
        exact ih.1

theorem mira_outOfFuel (fuel : ℕ) : mira fuel graph [1] 0 = .error .outOfFuel := by
  rcases Nat.lt_or_ge fuel 8 with hlt | hge
  · interval_cases fuel <;> rfl
  · obtain ⟨t, ht, h1, h2, hd⟩ := search
    have hround : Mira.addDestination fuel t 0 ∅ 1 = .error .outOfFuel := by
      rw [Mira.addDestination, Fallible.bind_ok (UnorderedMap.atKey_eq_ok.mpr hd),
        if_neg (by decide), Fallible.bind_error (firstHop_cycles h1 h2 fuel).1]
    rw [mira, Fallible.bind_ok (Mira.dijkstra_fuel ht hge)]
    apply Fallible.bind_error
    rw [Fallible.foldlM_cons, Fallible.bind_error hround]

theorem mira_never_returns (fuel : ℕ) (result : UnorderedMap FaceId DestinationNodes) :
    mira fuel graph [1] 0 ≠ .ok result := by
  intro h
  rw [mira_outOfFuel] at h
  cases h

theorem simple_paths : ∀ n ∈ graph, ∀ vs v k, Walk graph.Link n vs v k → vs.Nodup →
    k < 4294967295 := by
  have hlink : ∀ u v c, graph.Link u v c → (u = 0 ∧ v = 1 ∧ c = 5) ∨
      (u = 1 ∧ v = 2 ∧ c = 4294967286) ∨ (u = 2 ∧ v = 1 ∧ c = 6) :=
    Graph.forall_links (by decide)
  intro n _ vs v k hw hnd
  cases hw with
  | nil => decide
  | snoc hw he =>
      have h1 := hlink _ _ _ he
      cases hw with
      | nil => omega
      | snoc hw he' =>
          have h2 := hlink _ _ _ he'
          cases hw with
          | nil =>
              -- of two links only the first and the second make a simple path
              rcases h2 with ⟨rfl, rfl, rfl⟩ | ⟨rfl, rfl, rfl⟩ | ⟨rfl, rfl, rfl⟩ <;>
                rcases h1 with ⟨h, rfl, rfl⟩ | ⟨h, rfl, rfl⟩ | ⟨h, rfl, rfl⟩ <;> simp_all
          | snoc hw he'' =>
              -- three links return to a node
              have h3 := hlink _ _ _ he''
              have hlast := hw.mem_last
              rcases h3 with ⟨rfl, rfl, rfl⟩ | ⟨rfl, rfl, rfl⟩ | ⟨rfl, rfl, rfl⟩ <;>
                rcases h2 with ⟨h, rfl, rfl⟩ | ⟨h, rfl, rfl⟩ | ⟨h, rfl, rfl⟩ <;>
                rcases h1 with ⟨h', rfl, rfl⟩ | ⟨h', rfl, rfl⟩ | ⟨h', rfl, rfl⟩ <;> simp_all

end Wrap

theorem mira_not_terminates : ∃ (G : Graph) (s : NodeId) (D : DestinationNodes),
    G.Closed ∧ s ∈ G ∧ (∀ d ∈ D, d ∈ G) ∧
      (∃ fuel t v, Mira.dijkstra G fuel (Mira.Tables.init G s) = .ok t ∧
        Relation.TransGen (Mira.Climbs t s) v v) ∧
      ∀ fuel, mira fuel G D s = .error .outOfFuel := by
  have hclosed : Wrap.graph.Closed :=
    Graph.forall_faces (P := fun _ face => face.remoteNodeId ∈ Wrap.graph) (by decide)
  refine ⟨Wrap.graph, 0, [1], hclosed, by decide, List.all_iff_forall_prop.mp (by decide), ?_,
    Wrap.mira_outOfFuel⟩
  obtain ⟨t, ht, h1, h2, _⟩ := Wrap.search
  refine ⟨8, t, 1, ht, ?_⟩
  exact (Relation.TransGen.single ⟨h1, by decide, by decide⟩).tail ⟨h2, by decide, by decide⟩

end Cafe
