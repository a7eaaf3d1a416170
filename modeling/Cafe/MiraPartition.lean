import Cafe.MiraTermination

/-!
# The shares of the faces

`mira` partitions the reachable destinations over the first hops of
shortest paths. The face to a hop is the first one listed, which is on a
shortest path exactly if no later face to the same neighbour is cheaper.
-/

open WeightedDigraph

namespace Cafe

/-- The result of `mira` is a partition of the destinations that `s` can
reach, by faces that start a path of minimum cost. -/
structure Partitions (G : Graph) (s : NodeId) (D : DestinationNodes)
    (result : UnorderedMap FaceId DestinationNodes) : Prop where
  covers : ∀ d ∈ D, d ≠ s → Reaches G.Link s d → ∃ f S, result.lookup f = some S ∧ d ∈ S ∧
    ∀ f' S', result.lookup f' = some S' → d ∈ S' → f' = f
  only : ∀ f S, result.lookup f = some S → ∀ d ∈ S, d ∈ D ∧ d ≠ s ∧ Reaches G.Link s d
  face : ∀ f S, result.lookup f = some S → ∃ faces face, G.lookup s = some faces ∧
    face ∈ faces ∧ face.faceId = f ∧ ∀ d ∈ S, ∃ e m, G.Link s face.remoteNodeId e ∧
      IsDist G.Link face.remoteNodeId d m ∧ IsDist G.Link s d (e + m)

namespace Mira

variable {G : Graph} {s : NodeId} {D : DestinationNodes} {hop : NodeId → Option NodeId}
  {result : UnorderedMap FaceId DestinationNodes}

theorem Split.partitions (h : Split G s D hop result)
    (hdistinct : ∀ faces, G.lookup s = some faces → (faces.map Face.faceId).Nodup) :
    Partitions G s D result where
  covers := by
    intro d hd hds hreach
    obtain ⟨c, hc⟩ : ∃ c, hop d = some c := by
      rw [← Option.ne_none_iff_exists']
      intro hnone
      rcases (h.none_iff d hd).mp hnone with heq | hn
      · exact hds heq
      · exact hn hreach
    obtain ⟨f, S, hlook, hdS⟩ := h.served hdistinct d hd c hc
    refine ⟨f, S, hlook, hdS, fun f' S' hlook' hdS' => ?_⟩
    obtain ⟨c₁, faces, face, hfaces, hto, rfl, _, hmem⟩ := h.face f S hlook
    obtain ⟨c₂, faces', face', hfaces', hto', rfl, _, hmem'⟩ := h.face f' S' hlook'
    obtain rfl := Option.some.inj (hfaces.symm.trans hfaces')
    obtain rfl : c₁ = c₂ :=
      Option.some.inj (((hmem d).mp hdS).2.symm.trans ((hmem' d).mp hdS').2)
    rw [Option.some.inj (hto.symm.trans hto')]
  only := by
    intro f S hlook d hd
    obtain ⟨c, _, _, _, _, _, _, hmem⟩ := h.face f S hlook
    obtain ⟨hdD, hc⟩ := (hmem d).mp hd
    have hn : ¬ (d = s ∨ ¬ Reaches G.Link s d) := by
      intro hor
      rw [(h.none_iff d hdD).mpr hor] at hc
      cases hc
    push Not at hn
    exact ⟨hdD, hn⟩
  face := by
    intro f S hlook
    obtain ⟨c, faces, face, hfaces, hto, hf, _, hmem⟩ := h.face f S hlook
    obtain ⟨hface, rfl⟩ := mem_of_faceTo hto
    exact ⟨faces, face, hfaces, hface, hf, fun d hd => (h.isHop d _ ((hmem d).mp hd).2).shortest⟩

end Mira

/-- `mira` partitions the destinations over the first hops of shortest
paths. -/
theorem mira_partitions {G : Graph} {s : NodeId} (hG : G.Closed) (hs : s ∈ G)
    (hids : Mira.undefinedNode ∉ G) (hno : G.NoOverflow s)
    (hdistinct : ∀ faces, G.lookup s = some faces → (faces.map Face.faceId).Nodup)
    {D : DestinationNodes} (hD : ∀ d ∈ D, d ∈ G) :
    ∃ result bound, (∀ fuel, bound ≤ fuel → mira fuel G D s = .ok result) ∧
      Partitions G s D result := by
  obtain ⟨bound, hbound⟩ := mira_returns (hG.from s) hs hids hno hD
  obtain ⟨result, hop, hres, hsplit⟩ := hbound bound le_rfl
  exact ⟨result, bound, fun fuel hfuel => mira_fuel hres hfuel, hsplit.partitions hdistinct⟩

namespace Parallel

/-- Two links to one neighbour, the dearer one first. -/
def graph : Graph where
  entries := [⟨0, [⟨257, 1, 5⟩, ⟨258, 1, 1⟩]⟩, ⟨1, [⟨257, 0, 1⟩]⟩]
  nodupKeys := by
    unfold List.NodupKeys
    decide

theorem closed : graph.Closed :=
  Graph.forall_faces (P := fun _ face => face.remoteNodeId ∈ graph) (by decide)

theorem noOverflow : graph.NoOverflow 0 :=
  Graph.NoOverflow.of_cost (Graph.forall_links (P := fun _ _ c => c ≤ 5) (by decide))
    (by decide) 0

/-- Two faces of the source share an id. -/
def shared : Graph where
  entries := [⟨0, [⟨257, 1, 1⟩, ⟨257, 2, 1⟩]⟩, ⟨1, [⟨257, 0, 1⟩]⟩, ⟨2, [⟨257, 0, 1⟩]⟩]
  nodupKeys := by
    unfold List.NodupKeys
    decide

theorem shared_closed : shared.Closed :=
  Graph.forall_faces (P := fun _ face => face.remoteNodeId ∈ shared) (by decide)

theorem shared_noOverflow : shared.NoOverflow 0 :=
  Graph.NoOverflow.of_cost (Graph.forall_links (P := fun _ _ c => c ≤ 1) (by decide))
    (by decide) 0

end Parallel

theorem mira_partitions_parallel : ∃ result bound,
    (∀ fuel, bound ≤ fuel → mira fuel Parallel.graph [0, 1] 0 = .ok result) ∧
      Partitions Parallel.graph 0 [0, 1] result :=
  mira_partitions Parallel.closed (by decide) (by decide) Parallel.noOverflow
    (Graph.faceIdsDistinct (by decide) 0) (List.all_iff_forall_prop.mp (by decide))

theorem mira_not_partitions :
    (∃ (G : Graph) (s : NodeId) (D : DestinationNodes), G.Closed ∧ s ∈ G ∧
      Mira.undefinedNode ∉ G ∧ G.NoOverflow s ∧ (∀ d ∈ D, d ∈ G) ∧
      ∃ fuel result, mira fuel G D s = .ok result ∧ ¬ Partitions G s D result) ∧
    ∃ (G : Graph) (s : NodeId) (D : DestinationNodes), G.Closed ∧ s ∈ G ∧
      Mira.undefinedNode ∉ G ∧ G.FaceIdsDistinct ∧
      (∀ vs v n, Walk G.Link s vs v n → vs.Nodup → n < 4294967295) ∧ (∀ d ∈ D, d ∈ G) ∧
      ∀ fuel, mira fuel G D s = .error .outOfFuel := by
  constructor
  · refine ⟨Parallel.shared, 0, [1, 2], Parallel.shared_closed, by decide, by decide,
      Parallel.shared_noOverflow, List.all_iff_forall_prop.mp (by decide), 20,
      AList.insert 257 [1] ∅, rfl, fun h => ?_⟩
    have hlink : Parallel.shared.Link 0 2 1 :=
      ⟨_, rfl, _, List.mem_cons_of_mem _ List.mem_cons_self, rfl, rfl⟩
    obtain ⟨f, S, hlook, hmem, _⟩ :=
      h.covers 2 (by decide) (by decide) ((Reaches.refl 0).snoc hlink)
    by_cases hf : f = 257
    · rw [hf, AList.lookup_insert] at hlook
      obtain rfl := Option.some.inj hlook
      exact absurd hmem (by decide)
    · rw [AList.lookup_insert_ne hf] at hlook
      cases hlook
  · exact ⟨Wrap.graph, 0, [1],
      Graph.forall_faces (P := fun _ face => face.remoteNodeId ∈ Wrap.graph) (by decide),
      by decide, by decide, Graph.faceIdsDistinct (by decide),
      Wrap.simple_paths 0 (by decide), List.all_iff_forall_prop.mp (by decide),
      Wrap.mira_outOfFuel⟩

/-! ## The cost of the chosen face -/

namespace Mira

variable {G : Graph} {s : NodeId} {D : DestinationNodes} {hop : NodeId → Option NodeId}
  {result : UnorderedMap FaceId DestinationNodes}

/-- The link `l` of `s` starts a path of minimum cost to `d`. -/
def Optimal (G : Graph) (s : NodeId) (l : Face) (d : NodeId) : Prop :=
  ∃ m, IsDist G.Link l.remoteNodeId d m ∧ IsDist G.Link s d (l.linkCost.toNat + m)

theorem IsHop.optimal_iff {d : NodeId} {faces : List Face} (hfaces : G.lookup s = some faces)
    {l : Face} (hl : l ∈ faces) (h : IsHop G s d l.remoteNodeId) :
    Optimal G s l d ↔ ∀ e, G.Link s l.remoteNodeId e → l.linkCost.toNat ≤ e := by
  obtain ⟨e, m, hlink, hm, hd⟩ := h.shortest
  have hle : ∀ e', G.Link s l.remoteNodeId e' → e ≤ e' := by
    intro e' hlink'
    obtain ⟨vs, hw⟩ := hm.1
    obtain ⟨us, hus⟩ := (Walk.nil.snoc hlink').append hw
    have := hd.2 _ _ hus
    omega
  constructor
  · rintro ⟨m', hm', hd'⟩
    have hmm := hm.unique hm'
    have hdd := hd.unique hd'
    have heq : l.linkCost.toNat = e := by omega
    exact heq ▸ hle
  · intro hcheap
    have heq : l.linkCost.toNat = e :=
      le_antisymm (hcheap e hlink) (hle _ ⟨faces, hfaces, l, hl, rfl, rfl⟩)
    exact ⟨m, hm, heq ▸ hd⟩

theorem IsHop.isDist {d c : NodeId} (h : IsHop G s d c) :
    ∃ e, G.Link s c e ∧ IsDist G.Link s c e := by
  obtain ⟨e, m, hlink, hm, hd⟩ := h.shortest
  refine ⟨e, hlink, ⟨_, Walk.single hlink⟩, fun vs k hw => ?_⟩
  obtain ⟨us, hus⟩ := hm.1
  obtain ⟨xs, hxs⟩ := hw.append hus
  have := hd.2 _ _ hxs
  omega

theorem Split.link {faces : List Face} (h : Split G s D hop result)
    (hfaces : G.lookup s = some faces) (hnd : (faces.map Face.faceId).Nodup) {f : FaceId}
    {S : DestinationNodes} (hlook : result.lookup f = some S) {l : Face} (hl : l ∈ faces)
    (hf : l.faceId = f) : faceTo faces l.remoteNodeId = some l ∧ (∃ d, d ∈ S) ∧
      ∀ d ∈ S, IsHop G s d l.remoteNodeId := by
  obtain ⟨c, faces', face, hfaces', hto, rfl, hne, hmem⟩ := h.face f S hlook
  obtain rfl := Option.some.inj (hfaces.symm.trans hfaces')
  obtain ⟨hface, rfl⟩ := mem_of_faceTo hto
  obtain rfl := List.inj_on_of_nodup_map hnd hl hface hf
  exact ⟨hto, hne, fun d hd => h.isHop d _ ((hmem d).mp hd).2⟩

end Mira

/-- A face that `mira` chooses starts paths of minimum cost exactly if no
other link to the same neighbour is cheaper. All chosen faces do, whatever
the destinations, exactly if the first link to every neighbour at the end of
a shortest link costs no more than that link. -/
theorem chosen_face_optimal_iff {G : Graph} {s : NodeId} (hG : G.Closed) (hs : s ∈ G)
    (hids : Mira.undefinedNode ∉ G) (hno : G.NoOverflow s) {faces : List Face}
    (hfaces : G.lookup s = some faces) (hnd : (faces.map Face.faceId).Nodup) :
    (∀ D : DestinationNodes, (∀ d ∈ D, d ∈ G) → ∀ fuel result, mira fuel G D s = .ok result →
      ∀ f S, result.lookup f = some S → ∀ l ∈ faces, l.faceId = f →
        ((∀ d ∈ S, Mira.Optimal G s l d) ↔
          ∀ e, G.Link s l.remoteNodeId e → l.linkCost.toNat ≤ e)) ∧
    ((∀ D : DestinationNodes, (∀ d ∈ D, d ∈ G) → ∀ fuel result, mira fuel G D s = .ok result →
      ∀ f S, result.lookup f = some S → ∀ l ∈ faces, l.faceId = f →
        ∀ d ∈ S, Mira.Optimal G s l d) ↔
      ∀ n, n ≠ s → ∀ e, G.Link s n e → IsDist G.Link s n e →
        ∀ l, Mira.faceTo faces n = some l → l.linkCost.toNat = e) := by
  have hentry : ∀ D : DestinationNodes, (∀ d ∈ D, d ∈ G) → ∀ fuel result,
      mira fuel G D s = .ok result → ∀ f S, result.lookup f = some S → ∀ l ∈ faces,
        l.faceId = f → ((∀ d ∈ S, Mira.Optimal G s l d) ↔
          ∀ e, G.Link s l.remoteNodeId e → l.linkCost.toNat ≤ e) := by
    intro D hD fuel result hres f S hlook l hl hf
    obtain ⟨hop, hsplit⟩ := mira_split (hG.from s) hs hids hno hD hres
    obtain ⟨_, ⟨d, hd⟩, hhop⟩ := hsplit.link hfaces hnd hlook hl hf
    constructor
    · intro hopt
      exact ((hhop d hd).optimal_iff hfaces hl).mp (hopt d hd)
    · intro hcheap x hx
      exact ((hhop x hx).optimal_iff hfaces hl).mpr hcheap
  refine ⟨hentry, ?_, ?_⟩
  · intro hopt n hns e hlink hdist l hto
    obtain ⟨bound, hbound⟩ := mira_returns (hG.from s) hs hids hno (D := [n])
      (by simpa using hG.mem hlink)
    obtain ⟨result, hop, hres, hsplit⟩ := hbound bound le_rfl
    have hn := hsplit.direct n (by simp) hns e hlink hdist
    have hdistinct : ∀ faces, G.lookup s = some faces → (faces.map Face.faceId).Nodup := by
      intro faces' hfaces'
      exact Option.some.inj (hfaces.symm.trans hfaces') ▸ hnd
    obtain ⟨f, S, hlook, hnS⟩ := hsplit.served hdistinct n (by simp) n hn
    obtain ⟨c, faces', face, hfaces', hto', hf, _, hmem⟩ := hsplit.face f S hlook
    obtain rfl := Option.some.inj (hfaces.symm.trans hfaces')
    obtain rfl : n = c := Option.some.inj (hn.symm.trans ((hmem n).mp hnS).2)
    obtain rfl := Option.some.inj (hto.symm.trans hto')
    obtain ⟨hl, hremote⟩ := Mira.mem_of_faceTo hto
    obtain ⟨m, hm, hd⟩ := hopt [n] (by simpa using hG.mem hlink) bound result hres f S hlook l hl
      hf n hnS
    rw [hremote] at hm
    have hzero := hm.unique (isDist_self n)
    have := hd.unique hdist
    omega
  · intro hfirst D hD fuel result hres f S hlook l hl hf
    obtain ⟨hop, hsplit⟩ := mira_split (hG.from s) hs hids hno hD hres
    obtain ⟨hto, ⟨d, hd⟩, hhop⟩ := hsplit.link hfaces hnd hlook hl hf
    apply (hentry D hD fuel result hres f S hlook l hl hf).mpr
    intro e hlink
    obtain ⟨e₀, hlink₀, hdist⟩ := (hhop d hd).isDist
    rw [hfirst _ (hhop d hd).ne_source e₀ hlink₀ hdist l hto]
    exact hdist.2 _ _ (Walk.single hlink)

namespace Parallel

/-- Two links to one neighbour, the cheaper one first. -/
def sorted : Graph where
  entries := [⟨0, [⟨258, 1, 1⟩, ⟨257, 1, 5⟩]⟩, ⟨1, [⟨257, 0, 1⟩]⟩]
  nodupKeys := by
    unfold List.NodupKeys
    decide

theorem sorted_closed : sorted.Closed :=
  Graph.forall_faces (P := fun _ face => face.remoteNodeId ∈ sorted) (by decide)

theorem sorted_noOverflow : sorted.NoOverflow 0 :=
  Graph.NoOverflow.of_cost (Graph.forall_links (P := fun _ _ c => c ≤ 5) (by decide))
    (by decide) 0

theorem sorted_first (n : NodeId) (hn : n ≠ 0) (e : ℕ) (hlink : sorted.Link 0 n e)
    (hdist : IsDist sorted.Link 0 n e) (l : Face)
    (hto : Mira.faceTo [⟨258, 1, 1⟩, ⟨257, 1, 5⟩] n = some l) : l.linkCost.toNat = e := by
  obtain ⟨faces, hfaces, face, hmem, rfl, rfl⟩ := hlink
  obtain rfl : [⟨258, 1, 1⟩, ⟨257, 1, 5⟩] = faces := Option.some.inj hfaces
  have hcheap : sorted.Link 0 1 1 := ⟨_, rfl, _, List.mem_cons_self, rfl, rfl⟩
  rcases List.mem_pair.mp hmem with rfl | rfl
  · obtain rfl : (⟨258, 1, 1⟩ : Face) = l := Option.some.inj hto
    rfl
  · have hle := hdist.2 _ _ (Walk.single hcheap)
    exact absurd hle (by decide)

end Parallel

theorem chosen_face_optimal_sorted : ∃ fuel result,
    mira fuel Parallel.sorted [1] 0 = .ok result ∧ result.lookup 258 = some [1] ∧
      Mira.Optimal Parallel.sorted 0 ⟨258, 1, 1⟩ 1 := by
  have hoptimal := (chosen_face_optimal_iff Parallel.sorted_closed (by decide) (by decide)
    Parallel.sorted_noOverflow rfl (by decide)).2.mpr Parallel.sorted_first
  let result : UnorderedMap FaceId DestinationNodes := AList.insert 258 [1] ∅
  have hlookup : result.lookup 258 = some [1] := AList.lookup_insert _
  refine ⟨20, result, rfl, hlookup, ?_⟩
  exact hoptimal [1] (List.all_iff_forall_prop.mp (by decide)) 20 _ rfl 258 [1] hlookup _
    List.mem_cons_self rfl 1 (List.mem_singleton.mpr rfl)

theorem chosen_face_not_optimal : ∃ (G : Graph) (s : NodeId) (D : DestinationNodes)
    (result : UnorderedMap FaceId DestinationNodes) (f : FaceId) (S : DestinationNodes) (l : Face),
    G.Closed ∧ s ∈ G ∧ Mira.undefinedNode ∉ G ∧ G.NoOverflow s ∧ G.FaceIdsDistinct ∧
      (∀ d ∈ D, d ∈ G) ∧ (∃ fuel, mira fuel G D s = .ok result) ∧ result.lookup f = some S ∧
      (∃ faces, G.lookup s = some faces ∧ l ∈ faces) ∧ l.faceId = f ∧
      ∃ d ∈ S, ¬ Mira.Optimal G s l d := by
  refine ⟨Parallel.graph, 0, [1], AList.insert 257 [1] ∅, 257, [1], ⟨257, 1, 5⟩,
    Parallel.closed, by decide, by decide, Parallel.noOverflow, Graph.faceIdsDistinct (by decide),
    List.all_iff_forall_prop.mp (by decide), ⟨20, rfl⟩, AList.lookup_insert _,
    ⟨_, rfl, List.mem_cons_self⟩, rfl, 1, by simp, ?_⟩
  rintro ⟨m, _, hdist⟩
  have hcheap : Parallel.graph.Link 0 1 1 :=
    ⟨_, rfl, _, List.mem_cons_of_mem _ List.mem_cons_self, rfl, rfl⟩
  have hle : 5 + m ≤ 1 := hdist.2 _ _ (Walk.single hcheap)
  omega

end Cafe
