import Cafe.MiraPartition

/-!
# The order of the links

Two graphs that list the same links in different orders send the same
destinations over the same faces. The searches on both pop the same pairs:
faces of one node to different neighbours may be relaxed in any order, and
after them the queues are equal again, since they are sorted.
-/

namespace Cafe

/-- The same keys with the same faces, both enumerated in another order. -/
structure Graph.Reordered (G G' : Graph) : Prop where
  keys : ∀ u, u ∈ G ↔ u ∈ G'
  faces : ∀ u faces faces', G.lookup u = some faces → G'.lookup u = some faces' →
    faces.Perm faces'

/-- No node has two links to one neighbour. -/
def Graph.LinksDistinct (G : Graph) : Prop :=
  ∀ u faces, G.lookup u = some faces → (faces.map Face.remoteNodeId).Nodup

theorem Graph.linksDistinct {G : Graph}
    (h : ∀ e ∈ G.entries, (e.2.map Face.remoteNodeId).Nodup) : G.LinksDistinct :=
  fun u faces hfaces => h ⟨u, faces⟩ ((List.mem_dlookup_iff G.nodupKeys).mp hfaces)

theorem Graph.LinksDistinct.facesOf {G : Graph} (h : G.LinksDistinct) (u : NodeId) :
    (G.facesOf u).Pairwise fun face face' => face.remoteNodeId ≠ face'.remoteNodeId := by
  rw [Graph.facesOf]
  cases hfaces : G.lookup u with
  | none => exact List.Pairwise.nil
  | some faces => exact List.pairwise_map.mp (h u faces hfaces)

section Reordered

variable {G G' : Graph}

theorem Graph.Reordered.of_entries (hkeys : G.keys.Perm G'.keys)
    (h : ∀ e ∈ G.entries, ∀ e' ∈ G'.entries, e.1 = e'.1 → e.2.Perm e'.2) : G.Reordered G' where
  keys u := by rw [AList.mem_keys, AList.mem_keys, hkeys.mem_iff]
  faces u faces faces' hfaces hfaces' :=
    h ⟨u, faces⟩ ((List.mem_dlookup_iff G.nodupKeys).mp hfaces) ⟨u, faces'⟩
      ((List.mem_dlookup_iff G'.nodupKeys).mp hfaces') rfl

theorem Graph.Reordered.refl (G : Graph) : G.Reordered G where
  keys _ := Iff.rfl
  faces _ _ _ hfaces hfaces' := List.Perm.of_eq (Option.some.inj (hfaces.symm.trans hfaces'))

theorem Graph.Reordered.symm (h : G.Reordered G') : G'.Reordered G where
  keys u := (h.keys u).symm
  faces u faces faces' hfaces hfaces' := (h.faces u faces' faces hfaces' hfaces).symm

theorem Graph.Reordered.lookup (h : G.Reordered G') {u : NodeId} {faces : List Face}
    (hfaces : G.lookup u = some faces) :
    ∃ faces', G'.lookup u = some faces' ∧ faces.Perm faces' := by
  have hu : u ∈ G' := (h.keys u).mp (AList.lookup_isSome.mp (by rw [hfaces]; rfl))
  obtain ⟨faces', hfaces'⟩ := Option.isSome_iff_exists.mp (AList.lookup_isSome.mpr hu)
  exact ⟨faces', hfaces', h.faces u faces faces' hfaces hfaces'⟩

theorem Graph.Reordered.facesOf (h : G.Reordered G') (u : NodeId) :
    (G.facesOf u).Perm (G'.facesOf u) := by
  rw [Graph.facesOf, Graph.facesOf]
  cases hfaces : G.lookup u with
  | some faces =>
      obtain ⟨faces', hfaces', hperm⟩ := h.lookup hfaces
      rwa [hfaces']
  | none =>
      have hu : G'.lookup u = none := by
        rw [AList.lookup_eq_none] at hfaces ⊢
        exact fun hu' => hfaces ((h.keys u).mpr hu')
      rw [hu]

theorem Graph.Reordered.link_eq (h : G.Reordered G') : G.Link = G'.Link := by
  funext u v c
  simp only [Graph.link_iff, (h.facesOf u).mem_iff]

theorem Graph.Reordered.closed (h : G.Reordered G') (hG : G.Closed) : G'.Closed := by
  intro u faces' hfaces' face hface
  obtain ⟨faces, hfaces, hperm⟩ := h.symm.lookup hfaces'
  exact (h.keys _).mp (hG u faces hfaces face (hperm.mem_iff.mp hface))

theorem Graph.Reordered.linksDistinct (h : G.Reordered G') (hlinks : G.LinksDistinct) :
    G'.LinksDistinct := by
  intro u faces' hfaces'
  obtain ⟨faces, hfaces, hperm⟩ := h.symm.lookup hfaces'
  exact (hperm.map _).nodup_iff.mpr (hlinks u faces hfaces)

theorem Graph.Reordered.sumsFit (h : G.Reordered G') {s : NodeId} (hsum : G.SumsFit s) :
    G'.SumsFit s := by
  rw [Graph.SumsFit] at hsum ⊢
  rwa [← h.link_eq]

end Reordered

namespace Mira

/-! ## Searches in lockstep -/

/-- Tables with the same contents. -/
structure Tables.Same (t u : Tables) : Prop where
  distance : ∀ v, t.distance.lookup v = u.distance.lookup v
  parent : ∀ v, t.parent.lookup v = u.parent.lookup v
  queue : t.queue.Perm u.queue

theorem Tables.same_equivalence : Equivalence Tables.Same where
  refl _ := ⟨fun _ => rfl, fun _ => rfl, List.Perm.refl _⟩
  symm h := ⟨fun v => (h.distance v).symm, fun v => (h.parent v).symm, h.queue.symm⟩
  trans h h' := ⟨fun v => (h.distance v).trans (h'.distance v),
    fun v => (h.parent v).trans (h'.parent v), h.queue.trans h'.queue⟩

theorem CostNodePair.le_antisymm {a b : CostNodePair} (hab : CostNodePair.le a b)
    (hba : CostNodePair.le b a) : a = b := by
  rcases hab with hlt | ⟨heq, hle⟩
  · rcases hba with hlt' | ⟨heq', _⟩
    · exact absurd hlt' hlt.asymm
    · exact absurd heq'.symm hlt.ne
  · rcases hba with hlt' | ⟨_, hle'⟩
    · exact absurd heq.symm hlt'.ne
    · exact Prod.ext heq (UInt32.le_antisymm hle hle')

/-- Sorted queues with the same pairs are equal. -/
theorem Tables.Same.queue_eq {t u : Tables} (h : t.Same u)
    (ht : t.queue.Pairwise CostNodePair.le) (hu : u.queue.Pairwise CostNodePair.le) :
    t.queue = u.queue :=
  List.Perm.eq_of_pairwise (fun _ _ _ _ => CostNodePair.le_antisymm) ht hu h.queue

theorem Tables.Same.improve {t u : Tables} (h : t.Same u) (nodeId v : NodeId) (cost : Cost) :
    (t.improve nodeId v cost).Same (u.improve nodeId v cost) where
  distance x := by
    by_cases hx : x = v
    · subst hx
      simp [Tables.improve]
    · simp [Tables.improve, AList.lookup_insert_ne hx, h.distance]
  parent x := by
    by_cases hx : x = v
    · subst hx
      simp [Tables.improve]
    · simp [Tables.improve, AList.lookup_insert_ne hx, h.parent]
  queue := by
    refine (List.perm_orderedInsert _ _ _).trans (.trans ?_ (List.perm_orderedInsert _ _ _).symm)
    exact h.queue.cons _

theorem lookup_insert_comm {V : Type} (m : UnorderedMap NodeId V) {v w : NodeId} (hvw : v ≠ w)
    (a b : V) (x : NodeId) :
    AList.lookup x ((m.insert v a).insert w b) = AList.lookup x ((m.insert w b).insert v a) := by
  by_cases hv : x = v
  · subst hv
    rw [AList.lookup_insert_ne hvw, AList.lookup_insert, AList.lookup_insert]
  · by_cases hw : x = w
    · subst hw
      rw [AList.lookup_insert, AList.lookup_insert_ne hv, AList.lookup_insert]
    · rw [AList.lookup_insert_ne hw, AList.lookup_insert_ne hv, AList.lookup_insert_ne hv,
        AList.lookup_insert_ne hw]

/-- Improvements of different nodes commute. -/
theorem Tables.improve_comm (t : Tables) (nodeId : NodeId) {v w : NodeId} (hvw : v ≠ w)
    (c d : Cost) : ((t.improve nodeId v c).improve nodeId w d).Same
      ((t.improve nodeId w d).improve nodeId v c) where
  distance := lookup_insert_comm t.distance hvw c d
  parent := lookup_insert_comm t.parent hvw nodeId nodeId
  queue := by
    have hinsert : ∀ (p q : CostNodePair) (l : List CostNodePair),
        ((l.orderedInsert CostNodePair.le p).orderedInsert CostNodePair.le q).Perm (q :: p :: l) :=
      fun p q l => (List.perm_orderedInsert _ q _).trans ((List.perm_orderedInsert _ p l).cons q)
    exact (hinsert (c, v) (d, w) _).trans ((List.Perm.swap _ _ _).trans (hinsert _ _ _).symm)

theorem relaxFace_same {nodeId : NodeId} {nodeCost : Cost} {t u t' : Tables} {face : Face}
    (h : t.Same u) (hround : relaxFace nodeId nodeCost t face = .ok t') :
    ∃ u', relaxFace nodeId nodeCost u face = .ok u' ∧ t'.Same u' := by
  obtain ⟨remoteCost, hlook, hcase⟩ := relaxFace_eq_ok.mp hround
  have hlook' := (h.distance _).symm.trans hlook
  rcases hcase with ⟨hlt, rfl⟩ | ⟨hge, rfl⟩
  · exact ⟨_, relaxFace_eq_ok.mpr ⟨remoteCost, hlook', Or.inl ⟨hlt, rfl⟩⟩, h.improve _ _ _⟩
  · exact ⟨_, relaxFace_eq_ok.mpr ⟨remoteCost, hlook', Or.inr ⟨hge, rfl⟩⟩, h⟩

/-- Faces to different neighbours may be relaxed in either order. -/
theorem relaxFace_comm {nodeId : NodeId} {nodeCost : Cost} {t t₁ t₂ : Tables} {face face' : Face}
    (hne : face.remoteNodeId ≠ face'.remoteNodeId)
    (h : relaxFace nodeId nodeCost t face = .ok t₁)
    (h' : relaxFace nodeId nodeCost t₁ face' = .ok t₂) :
    ∃ u₁ u₂, relaxFace nodeId nodeCost t face' = .ok u₁ ∧
      relaxFace nodeId nodeCost u₁ face = .ok u₂ ∧ t₂.Same u₂ := by
  obtain ⟨d, hd, hcase⟩ := relaxFace_eq_ok.mp h
  obtain ⟨d', hd', hcase'⟩ := relaxFace_eq_ok.mp h'
  have hbefore : t.distance.lookup face'.remoteNodeId = some d' := by
    rcases hcase with ⟨_, rfl⟩ | ⟨_, rfl⟩
    · exact (AList.lookup_insert_ne hne.symm).symm.trans hd'
    · exact hd'
  have hafter : ∀ c, (t.improve nodeId face'.remoteNodeId c).distance.lookup face.remoteNodeId =
      some d := fun _ => (AList.lookup_insert_ne hne).trans hd
  rcases hcase' with ⟨hlt', rfl⟩ | ⟨hge', rfl⟩
  · have hfirst : relaxFace nodeId nodeCost t face' =
        .ok (t.improve nodeId face'.remoteNodeId (nodeCost + face'.linkCost)) :=
      relaxFace_eq_ok.mpr ⟨d', hbefore, Or.inl ⟨hlt', rfl⟩⟩
    rcases hcase with ⟨hlt, rfl⟩ | ⟨hge, rfl⟩
    · exact ⟨_, _, hfirst, relaxFace_eq_ok.mpr ⟨d, hafter _, Or.inl ⟨hlt, rfl⟩⟩,
        t.improve_comm nodeId hne _ _⟩
    · exact ⟨_, _, hfirst, relaxFace_eq_ok.mpr ⟨d, hafter _, Or.inr ⟨hge, rfl⟩⟩,
        Tables.same_equivalence.refl _⟩
  · exact ⟨t, t₂, relaxFace_eq_ok.mpr ⟨d', hbefore, Or.inr ⟨hge', rfl⟩⟩, h,
      Tables.same_equivalence.refl _⟩

section Search

variable {G G' : Graph} {s : NodeId}

theorem popNode_same (hGG : G.Reordered G') (hlinks : G.LinksDistinct) {cost : Cost}
    {nodeId : NodeId} {t u t' : Tables} (h : t.Same u)
    (hround : popNode G cost nodeId t = .ok t') :
    ∃ u', popNode G' cost nodeId u = .ok u' ∧ t'.Same u' := by
  obtain ⟨nodeCost, hlook, hcase⟩ := popNode_eq_ok.mp hround
  have hlook' : u.distance.lookup nodeId = some nodeCost := (h.distance nodeId).symm.trans hlook
  rcases hcase with ⟨hstale, rfl⟩ | ⟨hfresh, hround⟩
  · exact ⟨u, popNode_eq_ok.mpr ⟨nodeCost, hlook', Or.inl ⟨hstale, rfl⟩⟩, h⟩
  · obtain ⟨u', hround', hsame⟩ := Fallible.foldlM_perm (f := relaxFace nodeId nodeCost)
      Tables.same_equivalence (C := fun face face' => face.remoteNodeId ≠ face'.remoteNodeId)
      (fun _ _ hne => hne.symm) (fun _ _ _ _ hsame hround => relaxFace_same hsame hround)
      (fun _ _ _ _ _ hne hx hy => relaxFace_comm hne hx hy) (hGG.facesOf nodeId)
      (hlinks.facesOf nodeId) h hround
    exact ⟨u', popNode_eq_ok.mpr ⟨nodeCost, hlook', Or.inr ⟨hfresh, hround'⟩⟩, hsame⟩

/-- The search pops the same pairs whatever the order of the links is. -/
theorem dijkstra_same (hGG : G.Reordered G') (hlinks : G.LinksDistinct) {fuel : ℕ}
    {t u t' : Tables} (h : t.Same u) (ht : t.queue.Pairwise CostNodePair.le)
    (hu : u.queue.Pairwise CostNodePair.le) (hrun : dijkstra G fuel t = .ok t') :
    ∃ u', dijkstra G' fuel u = .ok u' ∧ t'.Same u' := by
  induction fuel generalizing t u with
  | zero => cases hrun
  | succ fuel ih =>
      have hqueue := h.queue_eq ht hu
      rw [dijkstra] at hrun ⊢
      rw [← hqueue]
      cases hq : t.queue with
      | nil =>
          simp only [hq] at hrun
          obtain rfl := Except.ok.inj hrun
          exact ⟨u, rfl, h⟩
      | cons top rest =>
          obtain ⟨cost, nodeId⟩ := top
          simp only [hq] at hrun ⊢
          obtain ⟨t₁, hpop, hrun⟩ := Fallible.bind_eq_ok.mp hrun
          have hsame : Tables.Same { t with queue := rest } { u with queue := rest } :=
            ⟨h.distance, h.parent, List.Perm.refl rest⟩
          obtain ⟨u₁, hpop', hsame₁⟩ := popNode_same hGG hlinks hsame hpop
          rw [Fallible.bind_ok hpop']
          have hrest : rest.Pairwise CostNodePair.le := (List.pairwise_cons.mp (hq ▸ ht)).2
          exact ih hsame₁ (popNode_sorted hrest hpop) (popNode_sorted hrest hpop') hrun

theorem init_same (hGG : G.Reordered G') : (Tables.init G s).Same (Tables.init G' s) where
  distance v := by simp only [init_distance, hGG.keys]
  parent v := by simp only [init_parent, hGG.keys]
  queue := List.Perm.refl _

end Search

/-! ## The next hops -/

/-- The same next hops with the same destinations. -/
structure NextHops.Same (ir ir' : NextHops) : Prop where
  key : ∀ c, c ∈ ir ↔ c ∈ ir'
  mem : ∀ c x, x ∈ (ir.lookup c).getD [] ↔ x ∈ (ir'.lookup c).getD []

theorem NextHops.same_equivalence : Equivalence NextHops.Same where
  refl _ := ⟨fun _ => Iff.rfl, fun _ _ => Iff.rfl⟩
  symm h := ⟨fun c => (h.key c).symm, fun c x => (h.mem c x).symm⟩
  trans h h' := ⟨fun c => (h.key c).trans (h'.key c), fun c x => (h.mem c x).trans (h'.mem c x)⟩

theorem NextHops.Same.addHop {ir ir' : NextHops} (h : ir.Same ir') (hop : Option NodeId)
    (nodeId : NodeId) : (ir.addHop hop nodeId).Same (ir'.addHop hop nodeId) where
  key c := by rw [mem_keys_addHop, mem_keys_addHop, h.key]
  mem c x := by rw [mem_addHop, mem_addHop, h.mem]

theorem NextHops.addHop_comm (ir : NextHops) (o o' : Option NodeId) (d d' : NodeId) :
    ((ir.addHop o d).addHop o' d').Same ((ir.addHop o' d').addHop o d) where
  key c := by
    simp only [mem_keys_addHop]
    exact or_left_comm
  mem c x := by
    simp only [mem_addHop]
    exact or_right_comm

theorem NextHops.Same.lookup {ir ir' : NextHops} (h : ir.Same ir') {c : NodeId}
    {S : DestinationNodes} (hS : ir.lookup c = some S) :
    ∃ S', ir'.lookup c = some S' ∧ S.toFinset = S'.toFinset := by
  have hc : c ∈ ir' := (h.key c).mp (AList.lookup_isSome.mp (by rw [hS]; rfl))
  obtain ⟨S', hS'⟩ := Option.isSome_iff_exists.mp (AList.lookup_isSome.mpr hc)
  refine ⟨S', hS', ?_⟩
  ext x
  have hmem := h.mem c x
  rw [hS, hS', Option.getD_some, Option.getD_some] at hmem
  rw [List.mem_toFinset, List.mem_toFinset, hmem]

theorem atKey_congr {V : Type} {m m' : UnorderedMap NodeId V}
    (h : ∀ v, m.lookup v = m'.lookup v) (v : NodeId) : m.atKey v = m'.atKey v := by
  rw [UnorderedMap.atKey, UnorderedMap.atKey, h]

theorem firstHop_congr {parent parent' : UnorderedMap NodeId NodeId}
    (h : ∀ v, parent.lookup v = parent'.lookup v) (s : NodeId) (fuel : ℕ) (cNode : NodeId) :
    firstHop parent s fuel cNode = firstHop parent' s fuel cNode := by
  induction fuel generalizing cNode with
  | zero => rfl
  | succ fuel ih =>
      rw [firstHop, firstHop, atKey_congr h]
      refine congrArg _ (funext fun pNode => ?_)
      rw [ih]

/-- The loop over the destinations reads the contents of the tables. -/
theorem addDestination_congr {t u : Tables} (h : t.Same u) (fuel : ℕ) (s : NodeId) :
    addDestination fuel t s = addDestination fuel u s := by
  funext ir nodeId
  rw [addDestination, addDestination, atKey_congr h.distance, firstHop_congr h.parent]

/-- The hop that a round finds does not depend on the rounds before. -/
theorem addDestination_ok {fuel : ℕ} {t : Tables} {s nodeId : NodeId} {ir ir' : NextHops}
    (h : addDestination fuel t s ir nodeId = .ok ir') :
    ∃ o, ir' = ir.addHop o nodeId ∧
      ∀ ir₁, addDestination fuel t s ir₁ nodeId = .ok (NextHops.addHop ir₁ o nodeId) := by
  obtain ⟨cost, hat, h⟩ := Fallible.bind_eq_ok.mp h
  split at h
  · rename_i hmax
    refine ⟨none, (Fallible.pure_eq_ok.mp h).symm, fun ir₁ => ?_⟩
    rw [addDestination, Fallible.bind_ok hat, if_pos hmax]
    rfl
  · rename_i hmax
    obtain ⟨o, hfirst, h⟩ := Fallible.bind_eq_ok.mp h
    refine ⟨o, ?_, fun ir₁ => ?_⟩
    · cases o with
      | none => exact (Fallible.pure_eq_ok.mp h).symm
      | some c => exact (Fallible.pure_eq_ok.mp h).symm
    · rw [addDestination, Fallible.bind_ok hat, if_neg hmax, Fallible.bind_ok hfirst]
      cases o with
      | none => rfl
      | some c => rfl

theorem destinations_same {fuel : ℕ} {t u : Tables} {s : NodeId} {D D' : DestinationNodes}
    {ir ir' : NextHops} (h : t.Same u) (hperm : D.Perm D')
    (hfold : D.foldlM (addDestination fuel t s) ∅ = .ok ir)
    (hfold' : D'.foldlM (addDestination fuel u s) ∅ = .ok ir') : ir.Same ir' := by
  have hgo := Fallible.foldlM_perm (f := addDestination fuel t s) NextHops.same_equivalence
    (C := fun _ _ => True) (fun _ _ _ => trivial) ?_ ?_ hperm
    (List.pairwise_of_forall fun _ _ => trivial) (NextHops.same_equivalence.refl ∅) hfold
  · obtain ⟨ir₁, hfold₁, hsame⟩ := hgo
    rw [← addDestination_congr h, hfold₁] at hfold'
    exact Except.ok.inj hfold' ▸ hsame
  · intro ir ir₁ d ir' hsame hround
    obtain ⟨o, rfl, hadd⟩ := addDestination_ok hround
    exact ⟨_, hadd ir₁, hsame.addHop o d⟩
  · intro ir d d' ir₁ ir₂ _ hround hround'
    obtain ⟨o, rfl, hadd⟩ := addDestination_ok hround
    obtain ⟨o', rfl, hadd'⟩ := addDestination_ok hround'
    exact ⟨_, _, hadd' ir, hadd _, ir.addHop_comm o o' d d'⟩

/-! ## The faces -/

/-- The face on which the share of a next hop leaves. -/
def port (G : Graph) (faces : List Face) (c : NodeId) : Option FaceId :=
  if c ∈ G then (faceTo faces c).map Face.faceId else none

theorem faceTo_eq_some_iff {faces : List Face} (hnd : (faces.map Face.remoteNodeId).Nodup)
    {c : NodeId} {face : Face} :
    faceTo faces c = some face ↔ face ∈ faces ∧ face.remoteNodeId = c := by
  constructor
  · exact mem_of_faceTo
  · rintro ⟨hface, rfl⟩
    have hsome : (faceTo faces face.remoteNodeId).isSome := by
      rw [faceTo, List.find?_isSome]
      exact ⟨face, hface, by simp⟩
    obtain ⟨face', hface'⟩ := Option.isSome_iff_exists.mp hsome
    obtain ⟨hmem, hremote⟩ := mem_of_faceTo hface'
    rw [hface', List.inj_on_of_nodup_map hnd hmem hface hremote]

theorem port_perm {G G' : Graph} (hGG : G.Reordered G') {faces faces' : List Face}
    (hperm : faces.Perm faces') (hnd : (faces.map Face.remoteNodeId).Nodup) (c : NodeId) :
    port G faces c = port G' faces' c := by
  have hnd' : (faces'.map Face.remoteNodeId).Nodup := (hperm.map _).nodup_iff.mp hnd
  have hface : faceTo faces c = faceTo faces' c := by
    ext face
    rw [faceTo_eq_some_iff hnd, faceTo_eq_some_iff hnd', hperm.mem_iff]
  simp only [port, hGG.keys, hface]

theorem port_inj {G : Graph} {faces : List Face} (hnd : (faces.map Face.faceId).Nodup)
    {c c' : NodeId} {f : FaceId} (h : port G faces c = some f) (h' : port G faces c' = some f) :
    c = c' := by
  rw [port] at h h'
  split_ifs at h h'
  obtain ⟨face, hto, hf⟩ := Option.map_eq_some_iff.mp h
  obtain ⟨face', hto', hf'⟩ := Option.map_eq_some_iff.mp h'
  obtain ⟨hmem, rfl⟩ := mem_of_faceTo hto
  obtain ⟨hmem', rfl⟩ := mem_of_faceTo hto'
  rw [List.inj_on_of_nodup_map hnd hmem hmem' (hf.trans hf'.symm)]

theorem addFace_eq {G : Graph} {s : NodeId} {faces : List Face} (hfaces : G.lookup s = some faces)
    (result : UnorderedMap FaceId DestinationNodes) (entry : Σ _ : NodeId, DestinationNodes) :
    addFace G s result entry =
      .ok ((port G faces entry.1).elim result fun f => result.insert f entry.2) := by
  rw [addFace, port, faceTo]
  split
  · rw [Fallible.bind_ok (UnorderedMap.atKey_eq_ok.mpr hfaces)]
    cases faces.find? fun face => face.remoteNodeId = entry.1 with
    | none => rfl
    | some face => rfl
  · rfl

/-- What the last loop leaves at a face: the share of a next hop with this
face, or what was there before. -/
theorem lookup_foldlM_addFace {G : Graph} {s : NodeId} {faces : List Face}
    (hfaces : G.lookup s = some faces) {entries : List (Σ _ : NodeId, DestinationNodes)}
    {m result : UnorderedMap FaceId DestinationNodes}
    (h : entries.foldlM (addFace G s) m = .ok result) (f : FaceId) :
    (∃ entry ∈ entries, port G faces entry.1 = some f ∧ result.lookup f = some entry.2) ∨
      ((∀ entry ∈ entries, port G faces entry.1 ≠ some f) ∧ result.lookup f = m.lookup f) := by
  induction entries generalizing m with
  | nil =>
      obtain rfl := Except.ok.inj h
      exact Or.inr ⟨nofun, rfl⟩
  | cons entry entries ih =>
      rw [Fallible.foldlM_cons, Fallible.bind_ok (addFace_eq hfaces m entry)] at h
      rcases ih h with ⟨e, he, hport, hlook⟩ | ⟨hno, hlook⟩
      · exact Or.inl ⟨e, List.mem_cons_of_mem _ he, hport, hlook⟩
      · by_cases hport : port G faces entry.1 = some f
        · rw [hport, Option.elim_some, AList.lookup_insert] at hlook
          exact Or.inl ⟨entry, by simp, hport, hlook⟩
        · refine Or.inr ⟨List.forall_mem_cons.mpr ⟨hport, hno⟩, hlook.trans ?_⟩
          cases hp : port G faces entry.1 with
          | none => rfl
          | some f' =>
              rw [hp] at hport
              exact AList.lookup_insert_ne fun heq => hport (congrArg some heq.symm)

section Shares

variable {G G' : Graph} {s : NodeId} {D D' : DestinationNodes}
  {result result' : UnorderedMap FaceId DestinationNodes}

/-- What one graph sends over a face, the other one does. -/
theorem exists_share (hGG : G.Reordered G') (hlinks : G.LinksDistinct) {faces faces' : List Face}
    (hfaces : G.lookup s = some faces) (hfaces' : G'.lookup s = some faces')
    (hids : (faces.map Face.faceId).Nodup) {ir ir' : NextHops} (hsame : ir.Same ir')
    {entries entries' : List (Σ _ : NodeId, DestinationNodes)} (hentries : entries.Perm ir.entries)
    (hentries' : entries'.Perm ir'.entries)
    (hfold : entries.foldlM (addFace G s) ∅ = .ok result)
    (hfold' : entries'.foldlM (addFace G' s) ∅ = .ok result') {f : FaceId} {S : DestinationNodes}
    (hS : result.lookup f = some S) :
    ∃ S', result'.lookup f = some S' ∧ S.toFinset = S'.toFinset := by
  have hport := port_perm hGG (hGG.faces s faces faces' hfaces hfaces') (hlinks s faces hfaces)
  rcases lookup_foldlM_addFace hfaces hfold f with ⟨⟨c, S₁⟩, hmem, hc, hlook⟩ | ⟨_, hlook⟩
  · obtain rfl : S = S₁ := Option.some.inj (hS.symm.trans hlook)
    have hir : ir.lookup c = some S :=
      (List.mem_dlookup_iff ir.nodupKeys).mpr (hentries.mem_iff.mp hmem)
    obtain ⟨S', hir', hSS⟩ := hsame.lookup hir
    have hmem' : (⟨c, S'⟩ : Σ _ : NodeId, DestinationNodes) ∈ entries' :=
      hentries'.mem_iff.mpr ((List.mem_dlookup_iff ir'.nodupKeys).mp hir')
    rcases lookup_foldlM_addFace hfaces' hfold' f with ⟨⟨c', S₂⟩, hmem₂, hc', hlook'⟩ | ⟨hno, _⟩
    · obtain rfl : c = c' := port_inj hids hc ((hport c').trans hc')
      have hir₂ : ir'.lookup c = some S₂ :=
        (List.mem_dlookup_iff ir'.nodupKeys).mpr (hentries'.mem_iff.mp hmem₂)
      obtain rfl : S' = S₂ := Option.some.inj (hir'.symm.trans hir₂)
      exact ⟨S', hlook', hSS⟩
    · exact absurd ((hport c).symm.trans hc) (hno _ hmem')
  · rw [hS] at hlook
    cases hlook

/-- A call of `mira` that enumerates its table of next hops in some order. -/
def Yields (fuel : ℕ) (G : Graph) (D : DestinationNodes) (s : NodeId)
    (result : UnorderedMap FaceId DestinationNodes) : Prop :=
  ∃ (t : Tables) (ir : NextHops) (entries : List (Σ _ : NodeId, DestinationNodes)),
    dijkstra G fuel (Tables.init G s) = .ok t ∧
      D.foldlM (addDestination fuel t s) ∅ = .ok ir ∧ entries.Perm ir.entries ∧
        entries.foldlM (addFace G s) ∅ = .ok result

/-- The same mapping from faces to sets. -/
def SameShares (result result' : UnorderedMap FaceId DestinationNodes) : Prop :=
  ∀ f, (result.lookup f).map List.toFinset = (result'.lookup f).map List.toFinset

theorem yields_of_mira {fuel : ℕ} (h : mira fuel G D s = .ok result) :
    Yields fuel G D s result := by
  obtain ⟨t, ht, h⟩ := Fallible.bind_eq_ok.mp h
  obtain ⟨ir, hir, h⟩ := Fallible.bind_eq_ok.mp h
  exact ⟨t, ir, ir.entries, ht, hir, List.Perm.refl _, h⟩

theorem Yields.mono {fuel : ℕ} (h : Yields fuel G D s result) {fuel' : ℕ} (hle : fuel ≤ fuel') :
    Yields fuel' G D s result := by
  obtain ⟨t, ir, entries, ht, hir, hentries, hfold⟩ := h
  refine ⟨t, ir, entries, dijkstra_fuel ht hle, ?_, hentries, hfold⟩
  exact Fallible.foldlM_congr_ok (fun _ _ _ hadd => addDestination_fuel hadd hle) hir

/-- Two calls on reordered inputs return the same shares. -/
theorem Yields.same (hs : s ∈ G) (hGG : G.Reordered G') (hlinks : G.LinksDistinct)
    (hids : ∀ faces, G.lookup s = some faces → (faces.map Face.faceId).Nodup)
    (hperm : D.Perm D') {fuel fuel' : ℕ} (h : Yields fuel G D s result)
    (h' : Yields fuel' G' D' s result') : SameShares result result' := by
  obtain ⟨t, ir, entries, ht, hir, hentries, hfold⟩ := h.mono (le_max_left fuel fuel')
  obtain ⟨u, ir', entries', hu, hir', hentries', hfold'⟩ := h'.mono (le_max_right fuel fuel')
  obtain ⟨faces, hfaces⟩ := Option.isSome_iff_exists.mp (AList.lookup_isSome.mpr hs)
  obtain ⟨faces', hfaces', hfacesPerm⟩ := hGG.lookup hfaces
  have hsame : t.Same u := by
    obtain ⟨u', hu', hsame⟩ := dijkstra_same hGG hlinks (init_same hGG)
      (List.pairwise_singleton _ _) (List.pairwise_singleton _ _) ht
    exact Except.ok.inj (hu'.symm.trans hu) ▸ hsame
  have hnext := destinations_same hsame hperm hir hir'
  have hids' : (faces'.map Face.faceId).Nodup :=
    (hfacesPerm.map _).nodup_iff.mp (hids faces hfaces)
  intro f
  cases hS : result.lookup f with
  | some S =>
      obtain ⟨S', hS', hSS⟩ := exists_share hGG hlinks hfaces hfaces' (hids faces hfaces) hnext
        hentries hentries' hfold hfold' hS
      rw [hS', Option.map_some, Option.map_some, hSS]
  | none =>
      cases hS' : result'.lookup f with
      | none => rfl
      | some S' =>
          obtain ⟨S, hSome, _⟩ := exists_share hGG.symm (hGG.linksDistinct hlinks) hfaces'
            hfaces hids' (NextHops.same_equivalence.symm hnext) hentries' hentries hfold' hfold hS'
          rw [hS] at hSome
          cases hSome

end Shares

end Mira

/-- Whatever the order of the links, of the nodes and of the destinations, and
the order in which the next hops are enumerated, each face gets the same
destinations. If no sum of the search wraps, these calls return. -/
theorem mira_order_independent {G G' : Graph} {s : NodeId} (hG : G.Closed) (hs : s ∈ G)
    (hlinks : G.LinksDistinct)
    (hids : ∀ faces, G.lookup s = some faces → (faces.map Face.faceId).Nodup)
    {D D' : DestinationNodes} (hD : ∀ d ∈ D, d ∈ G) (hGG : G.Reordered G') (hperm : D.Perm D') :
    (∀ fuel fuel' result result', Mira.Yields fuel G D s result →
      Mira.Yields fuel' G' D' s result' → Mira.SameShares result result') ∧
    (G.SumsFit s → ∃ bound, ∀ fuel, bound ≤ fuel → ∃ result result',
      mira fuel G D s = .ok result ∧ mira fuel G' D' s = .ok result' ∧
        Mira.SameShares result result') := by
  have hsame : ∀ fuel fuel' result result', Mira.Yields fuel G D s result →
      Mira.Yields fuel' G' D' s result' → Mira.SameShares result result' :=
    fun _ _ _ _ h h' => h.same hs hGG hlinks hids hperm h'
  refine ⟨hsame, fun hsum => ?_⟩
  have hD' : ∀ d ∈ D', d ∈ G' := fun d hd => (hGG.keys d).mp (hD d (hperm.mem_iff.mpr hd))
  obtain ⟨bound, hbound⟩ := Mira.returns_of_sumsFit hG hs hsum hD
  obtain ⟨bound', hbound'⟩ := Mira.returns_of_sumsFit (hGG.closed hG) ((hGG.keys s).mp hs)
    (hGG.sumsFit hsum) hD'
  refine ⟨max bound bound', fun fuel hfuel => ?_⟩
  obtain ⟨result, hresult⟩ := hbound fuel ((le_max_left _ _).trans hfuel)
  obtain ⟨result', hresult'⟩ := hbound' fuel ((le_max_right _ _).trans hfuel)
  exact ⟨result, result', hresult, hresult', hsame _ _ _ _ (Mira.yields_of_mira hresult)
    (Mira.yields_of_mira hresult')⟩

namespace Ties

/-- Two ways of equal cost from 0 to 3, with links that cost nothing. -/
def graph : Graph where
  entries := [⟨0, [⟨257, 1, 1⟩, ⟨258, 2, 1⟩]⟩, ⟨1, [⟨257, 0, 1⟩, ⟨258, 3, 0⟩, ⟨259, 2, 0⟩]⟩,
    ⟨2, [⟨257, 0, 1⟩, ⟨258, 3, 0⟩, ⟨259, 1, 0⟩]⟩, ⟨3, [⟨257, 1, 0⟩, ⟨258, 2, 0⟩]⟩]
  nodupKeys := by
    unfold List.NodupKeys
    decide

def reordered : Graph where
  entries := [⟨3, [⟨258, 2, 0⟩, ⟨257, 1, 0⟩]⟩, ⟨2, [⟨259, 1, 0⟩, ⟨258, 3, 0⟩, ⟨257, 0, 1⟩]⟩,
    ⟨0, [⟨258, 2, 1⟩, ⟨257, 1, 1⟩]⟩, ⟨1, [⟨258, 3, 0⟩, ⟨259, 2, 0⟩, ⟨257, 0, 1⟩]⟩]
  nodupKeys := by
    unfold List.NodupKeys
    decide

theorem noOverflow : graph.NoOverflow 0 :=
  Graph.NoOverflow.of_cost (Graph.forall_links (P := fun _ _ c => c ≤ 1) (by decide))
    (by decide) 0

end Ties

theorem mira_order_independent_ties : ∃ bound, ∀ fuel, bound ≤ fuel → ∃ result result',
    mira fuel Ties.graph [3, 1, 2] 0 = .ok result ∧
      mira fuel Ties.reordered [2, 3, 1] 0 = .ok result' ∧ Mira.SameShares result result' :=
  (mira_order_independent (Graph.forall_faces (P := fun _ face => face.remoteNodeId ∈ Ties.graph)
    (by decide)) (by decide) (Graph.linksDistinct (by decide)) (Graph.faceIdsDistinct (by decide) 0)
    (List.all_iff_forall_prop.mp (by decide)) (Graph.Reordered.of_entries (by decide) (by decide))
    (by decide)).2 Ties.noOverflow.sumsFit

/-- Where two faces of the source share an id, the next hop that is enumerated
last gets the face. -/
theorem not_mira_order_independent : ¬ ∀ (G G' : Graph) (s : NodeId) (D D' : DestinationNodes),
    G.Closed → G.LinksDistinct → G.NoOverflow s → s ∈ G → (∀ d ∈ D, d ∈ G) → G.Reordered G' →
    D.Perm D' → ∀ fuel result result', mira fuel G D s = .ok result →
      mira fuel G' D' s = .ok result' → Mira.SameShares result result' := by
  intro h
  have hsame := h Parallel.shared Parallel.shared 0 [1, 2] [2, 1] Parallel.shared_closed
    (Graph.linksDistinct (by decide)) Parallel.shared_noOverflow (by decide)
    (List.all_iff_forall_prop.mp (by decide)) (Graph.Reordered.refl _) (by decide) 20
    (AList.insert 257 [1] ∅) (AList.insert 257 [2] ∅) rfl rfl 257
  rw [AList.lookup_insert, AList.lookup_insert] at hsame
  exact absurd hsame (by decide)

end Cafe
