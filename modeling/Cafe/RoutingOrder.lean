import Cafe.BuiltBackbone
import Cafe.MiraOrder

/-!
# The order of the shared tables

What an RSU makes of an alert does not depend on the order in which the shared
graph lists its nodes and links.
-/

open WeightedDigraph

namespace Cafe

open Destinations

variable {F : Type} [Arith F]

/-- The same alert, with the same destinations in another order. -/
structure Data.Alike (data data' : Data F) : Prop where
  rest : { data with destinationNodes := none } = { data' with destinationNodes := none }
  tag : Option.Rel List.Perm data.destinationNodes data'.destinationNodes

/-- What is sent, with the destinations as a set. -/
def Outgoing.shape (out : Outgoing F) : FaceId × Data F × Option (Finset NodeId) :=
  (out.egress, { out.data with destinationNodes := none },
    out.data.destinationNodes.map List.toFinset)

/-- The same outcome up to the order of the transmissions and of their destinations. -/
structure Outcome.Same (o o' : Outcome F) : Prop where
  node : o.node = o'.node
  relevant : o.relevant = o'.relevant
  sent : (o.sent.map Outgoing.shape).Perm (o'.sent.map Outgoing.shape)

/-! ## The destinations -/

section Destinations

variable {G G' : Graph} {rsuPositions rsuPositions' : NodePosition F} {txRadius : F} {zor : ZoR F}
  {s : NodeId}

theorem compute_nodup (b : Found F) (n : NodeId) (h : b.dstNodes.Nodup) :
    (compute rsuPositions txRadius zor b n).dstNodes.Nodup := by
  unfold compute
  split
  · exact h
  · split
    · exact h.insert
    · simp only
      split
      · exact h
      · exact h

theorem nodup_of_computeDestinationNodes {fuel : ℕ} {D : DestinationNodes}
    (h : computeDestinationNodes fuel G rsuPositions txRadius s zor = .ok D) : D.Nodup := by
  obtain ⟨b, hb, h⟩ := Fallible.bind_eq_ok.mp h
  obtain ⟨_, hinv⟩ := (bfs_spec fuel (start_inv G rsuPositions txRadius zor s)).2 b hb
  have hnodup : b.found.dstNodes.Nodup := by
    rw [hinv.found]
    refine List.foldlRecOn b.visited _ (motive := fun b : Found F => b.dstNodes.Nodup)
      List.nodup_nil fun b hb n _ => compute_nodup b n hb
  split at h
  · obtain rfl := Fallible.pure_eq_ok.mp h
    exact List.nodup_singleton _
  · obtain rfl := Fallible.pure_eq_ok.mp h
    exact hnodup

theorem covers_congr (hpos : ∀ n, rsuPositions.lookup n = rsuPositions'.lookup n) (n : NodeId) :
    Covers rsuPositions txRadius zor n ↔ Covers rsuPositions' txRadius zor n := by
  unfold Covers
  rw [hpos]

/-- Where an RSU covers the zone, searches on reordered graphs find the same RSUs. -/
theorem computeDestinationNodes_perm (hGG : G.Reordered G')
    (hpos : ∀ n, rsuPositions.lookup n = rsuPositions'.lookup n)
    (hcov : ∃ v, Reaches G.Link s v ∧ Covers rsuPositions txRadius zor v) {fuel fuel' : ℕ}
    {D D' : DestinationNodes}
    (h : computeDestinationNodes fuel G rsuPositions txRadius s zor = .ok D)
    (h' : computeDestinationNodes fuel' G' rsuPositions' txRadius s zor = .ok D') :
    D.Perm D' := by
  have hspec := (computeDestinationNodes_spec G rsuPositions txRadius s zor).2 fuel D h
  have hspec' := (computeDestinationNodes_spec G' rsuPositions' txRadius s zor).2 fuel' D' h'
  obtain ⟨v, hv, hcv⟩ := hcov
  refine (List.perm_ext_iff_of_nodup (nodup_of_computeDestinationNodes h)
    (nodup_of_computeDestinationNodes h')).mpr fun n => ?_
  rw [hspec.covered ⟨v, hv, hcv⟩,
    hspec'.covered ⟨v, hGG.link_eq ▸ hv, (covers_congr hpos v).mp hcv⟩,
    covers_congr hpos, hGG.link_eq]

end Destinations

/-! ## The transmissions -/

section Sent

variable {infra infra' : Infrastructure F} {data data' : Data F} {node : Node F} {zor : ZoR F}

omit [Arith F] in
theorem Data.Alike.name_eq (h : data.Alike data') : data.name = data'.name :=
  (Data.mk.inj h.rest).1

/-- What is sent depends on the destinations only through the share that it carries. -/
theorem Data.Alike.shape_eq (h : data.Alike data') {tag tag' : Option DestinationNodes}
    (htag : tag.map List.toFinset = tag'.map List.toFinset) (f : FaceId) :
    (node.onOutgoingAlert { data with destinationNodes := tag } f).shape =
      (node.onOutgoingAlert { data' with destinationNodes := tag' } f).shape := by
  obtain ⟨name, size, senderType, senderPos, destinationNodes, uid⟩ := data
  obtain ⟨name', size', senderType', senderPos', destinationNodes', uid'⟩ := data'
  obtain ⟨rfl, rfl, rfl, rfl, _, rfl⟩ := Data.mk.inj h.rest
  simp [Outgoing.shape, Node.onOutgoingAlert, htag]

/-- Results with the same shares list them in some order. -/
theorem sameShares_perm {result result' : UnorderedMap FaceId DestinationNodes}
    (h : Mira.SameShares result result') :
    (result.entries.map fun e => (e.1, e.2.toFinset)).Perm
      (result'.entries.map fun e => (e.1, e.2.toFinset)) := by
  have hnodup : ∀ r : UnorderedMap FaceId DestinationNodes,
      (r.entries.map fun e => (e.1, e.2.toFinset)).Nodup := by
    intro r
    refine List.Nodup.of_map Prod.fst ?_
    rw [List.map_map]
    exact r.nodupKeys
  have hmem : ∀ (r : UnorderedMap FaceId DestinationNodes) (f : FaceId) (T : Finset NodeId),
      (f, T) ∈ r.entries.map (fun e => (e.1, e.2.toFinset)) ↔
        (r.lookup f).map List.toFinset = some T := by
    intro r f T
    rw [List.mem_map, Option.map_eq_some_iff]
    constructor
    · rintro ⟨⟨f', S⟩, hS, heq⟩
      obtain ⟨rfl, rfl⟩ := Prod.mk.inj heq
      exact ⟨S, (List.mem_dlookup_iff r.nodupKeys).mpr hS, rfl⟩
    · rintro ⟨S, hS, rfl⟩
      exact ⟨⟨f, S⟩, (List.mem_dlookup_iff r.nodupKeys).mp hS, rfl⟩
  refine (List.perm_ext_iff_of_nodup (hnodup result) (hnodup result')).mpr fun ⟨f, T⟩ => ?_
  rw [hmem, hmem, h f]

theorem broadcastCase_perm (hdata : data.Alike data') {dst dst' rest rest' : DestinationNodes}
    {sent sent' : List (Outgoing F)} (hdst : dst.Perm dst')
    (h : BroadcastCase data dst node rest sent) (h' : BroadcastCase data' dst' node rest' sent') :
    rest.Perm rest' ∧ (sent.map Outgoing.shape).Perm (sent'.map Outgoing.shape) := by
  cases h with
  | sends hmem hv2i hface =>
      cases h' with
      | sends _ _ _ =>
          refine ⟨hdst.filter _, List.Perm.of_eq ?_⟩
          rw [List.map_singleton, List.map_singleton, hdata.shape_eq rfl]
      | passes hnot => exact absurd ⟨hdst.mem_iff.mp hmem, hv2i⟩ hnot
  | passes hnot =>
      cases h' with
      | sends hmem hv2i _ => exact absurd ⟨hdst.mem_iff.mpr hmem, hv2i⟩ hnot
      | passes _ => exact ⟨hdst, List.Perm.refl _⟩

theorem sharesCase_perm (hdata : data.Alike data')
    (hGG : infra.routingInfo.Reordered infra'.routingInfo)
    (hlinks : infra.routingInfo.LinksDistinct) (hids : infra.routingInfo.FaceIdsDistinct)
    (hn : node.nodeId ∈ infra.routingInfo) {rest rest' : DestinationNodes}
    {wired wired' : List (Outgoing F)} (hrest : rest.Perm rest') {fuel fuel' : ℕ}
    (h : SharesCase fuel infra data rest node wired)
    (h' : SharesCase fuel' infra' data' rest' node wired') :
    (wired.map Outgoing.shape).Perm (wired'.map Outgoing.shape) := by
  cases h with
  | empty hemp =>
      cases h' with
      | empty _ => exact List.Perm.refl _
      | shares _ hne _ _ => exact absurd (List.perm_nil.mp (hemp ▸ hrest.symm)) hne
  | shares entries hne hmira _ =>
      cases h' with
      | empty hemp => exact absurd (List.perm_nil.mp (hemp ▸ hrest)) hne
      | shares entries' _ hmira' _ =>
          have hsame := (Mira.yields_of_mira hmira).same hn hGG hlinks (hids node.nodeId) hrest
            (Mira.yields_of_mira hmira')
          have hperm := (sameShares_perm hsame).map fun e : FaceId × Finset NodeId =>
            (e.1, (node.onOutgoingAlert { data with destinationNodes := none } e.1).data, some e.2)
          rw [List.map_map, List.map_map] at hperm ⊢
          refine (List.Perm.of_eq ?_).trans (hperm.trans (List.Perm.of_eq ?_))
          · exact List.map_congr_left fun e _ => rfl
          · refine List.map_congr_left fun e _ => ?_
            have hshape :
                (node.onOutgoingAlert { data with destinationNodes := some e.2 } e.1).shape =
                  (node.onOutgoingAlert { data' with destinationNodes := some e.2 } e.1).shape :=
              hdata.shape_eq rfl e.1
            exact hshape

theorem rsuCase_same (hdata : data.Alike data')
    (hGG : infra.routingInfo.Reordered infra'.routingInfo)
    (hlinks : infra.routingInfo.LinksDistinct) (hids : infra.routingInfo.FaceIdsDistinct)
    (hn : node.nodeId ∈ infra.routingInfo)
    (hdst : ∀ fuel fuel' D D', destinations fuel infra data zor node = .ok D →
      destinations fuel' infra' data' zor node = .ok D' → D.Perm D') {fuel fuel' : ℕ}
    {o o' : Outcome F} (h : RsuCase fuel infra data zor node o)
    (h' : RsuCase fuel' infra' data' zor node o') : o.Same o' := by
  have hname := hdata.name_eq
  cases h with
  | duplicate hdup =>
      cases h' with
      | duplicate _ => exact ⟨rfl, rfl, List.Perm.refl _⟩
      | new _ _ _ _ hnew => exact absurd (hname ▸ hdup) hnew
  | new dst rest sent wired hnew hD hbroad hwired =>
      cases h' with
      | duplicate hdup => exact absurd (hname ▸ hdup) hnew
      | new dst' rest' sent' wired' _ hD' hbroad' hwired' =>
          obtain ⟨hrest, hsent⟩ := broadcastCase_perm hdata (hdst _ _ _ _ hD hD') hbroad hbroad'
          have hshares := sharesCase_perm hdata hGG hlinks hids hn hrest hwired hwired'
          refine ⟨by rw [hname], rfl, ?_⟩
          rw [List.map_append, List.map_append]
          exact hsent.append hshares

theorem destinations_perm (hdata : data.Alike data')
    (hfound : data.destinationNodes = none → ∀ fuel fuel' D D',
      computeDestinationNodes fuel infra.routingInfo infra.positionInfo node.ctx.txRadius
        node.nodeId zor = .ok D →
      computeDestinationNodes fuel' infra'.routingInfo infra'.positionInfo node.ctx.txRadius
        node.nodeId zor = .ok D' → D.Perm D') {fuel fuel' : ℕ} {D D' : DestinationNodes}
    (h : destinations fuel infra data zor node = .ok D)
    (h' : destinations fuel' infra' data' zor node = .ok D') : D.Perm D' := by
  have htag := hdata.tag
  unfold destinations at h h'
  cases hS : data.destinationNodes with
  | none =>
      cases hS' : data'.destinationNodes with
      | none =>
          rw [hS] at h
          rw [hS'] at h'
          exact hfound hS _ _ _ _ h h'
      | some S' =>
          rw [hS, hS'] at htag
          cases htag
  | some S =>
      cases hS' : data'.destinationNodes with
      | none =>
          rw [hS, hS'] at htag
          cases htag
      | some S' =>
          rw [hS, hS'] at htag
          rw [hS] at h
          rw [hS'] at h'
          obtain rfl := Except.ok.inj h
          obtain rfl := Except.ok.inj h'
          cases htag with
          | some hperm => exact hperm

end Sent

/-! ## The calls return -/

section Returns

variable {infra infra' : Infrastructure F} {data data' : Data F} {node : Node F} {zor : ZoR F}

/-- The node has its V2I face and the faces that the graph lists for it. -/
structure Node.HasFaces (G : Graph) (node : Node F) : Prop where
  v2i : node.ctx.getFaceIdFor .v2i ≠ 0 →
    node.ctx.getFaceIdFor .v2i ∈ node.faceTable.map NfdFace.faceId
  wired : ∀ faces, G.lookup node.nodeId = some faces → ∀ face ∈ faces,
    face.faceId ∈ node.faceTable.map NfdFace.faceId

/-- The search from `n` only meets keys of the graph, and no sum of costs wraps. -/
structure Graph.RoutableFrom (G : Graph) (n : NodeId) : Prop where
  mem : n ∈ G
  closed : G.ClosedFrom n
  ids : Mira.undefinedNode ∉ G
  noOverflow : G.NoOverflow n

theorem Graph.Routable.from {G : Graph} (h : G.Routable) {n : NodeId} (hn : n ∈ G) :
    G.RoutableFrom n :=
  ⟨hn, h.closed.from n, h.ids, h.noOverflow n hn⟩

theorem Graph.Reordered.routableFrom {G G' : Graph} (hGG : G.Reordered G') {n : NodeId}
    (h : G.RoutableFrom n) : G'.RoutableFrom n where
  mem := (hGG.keys n).mp h.mem
  closed := by
    intro u v c hu he
    rw [← hGG.link_eq] at hu he
    exact (hGG.keys v).mp (h.closed u v c hu he)
  ids := fun hmem => h.ids ((hGG.keys _).mpr hmem)
  noOverflow := by
    obtain ⟨hpath, hextend⟩ := h.noOverflow
    rw [hGG.link_eq] at hpath hextend
    exact ⟨hpath, hextend⟩

theorem Node.HasFaces.reordered {G G' : Graph} (hGG : G.Reordered G') (h : node.HasFaces G) :
    node.HasFaces G' where
  v2i := h.v2i
  wired faces' hfaces' face hface := by
    obtain ⟨faces, hfaces, hperm⟩ := hGG.symm.lookup hfaces'
    exact h.wired faces hfaces face (hperm.mem_iff.mp hface)

/-- A node with the faces of the graph handles every alert whose destinations
are keys of it. -/
theorem Node.HasFaces.returns (h : node.HasFaces infra.routingInfo)
    (hG : infra.routingInfo.RoutableFrom node.nodeId) {dst : DestinationNodes}
    (hdst : ∃ bound, ∀ fuel, bound ≤ fuel → destinations fuel infra data zor node = .ok dst)
    (hkeys : ∀ d ∈ dst, d ∈ infra.routingInfo) : ∃ bound, ∀ fuel, bound ≤ fuel →
      ∃ o, alertRsuHandler fuel infra data zor node = .ok o := by
  obtain ⟨b, hdst⟩ := hdst
  obtain ⟨b₁, h₁⟩ := mira_returns hG.closed hG.mem hG.ids hG.noOverflow hkeys
  obtain ⟨b₂, h₂⟩ := mira_returns hG.closed hG.mem hG.ids hG.noOverflow
    fun d (hd : d ∈ dst.filter (· ≠ node.nodeId)) => hkeys d (List.mem_filter.mp hd).1
  refine ⟨max b (max b₁ b₂), fun fuel hfuel => ?_⟩
  have hd := hdst fuel ((le_max_left _ _).trans hfuel)
  refine alertRsuHandler_total ⟨dst, hd⟩ (fun _ => broadcast_total h.v2i) ?_
  intro dst' rest sent hd' hbroad
  obtain rfl := Except.ok.inj (hd.symm.trans hd')
  refine forwardShares_total fun _ => ?_
  have hmira : ∃ entries, mira fuel infra.routingInfo rest node.nodeId = .ok entries := by
    cases hbroad with
    | sends _ _ _ =>
        obtain ⟨entries, _, hres, _⟩ :=
          h₂ fuel (((le_max_right _ _).trans (le_max_right _ _)).trans hfuel)
        exact ⟨entries, hres⟩
    | passes _ =>
        obtain ⟨entries, _, hres, _⟩ :=
          h₁ fuel (((le_max_left _ _).trans (le_max_right _ _)).trans hfuel)
        exact ⟨entries, hres⟩
  obtain ⟨entries, hres⟩ := hmira
  refine ⟨entries, hres, fun entry hentry => ?_⟩
  obtain ⟨faces, face, hfaces, hmem, hface⟩ := mira_faces hres entry.1
    (AList.mem_keys.mpr (List.mem_map_of_mem hentry))
  exact hface ▸ h.wired faces hfaces face hmem

/-- Alike alerts find their destinations in reordered graphs, and get the same. -/
theorem handlers_same (hGG : infra.routingInfo.Reordered infra'.routingInfo)
    (hdata : data.Alike data') (hnode : node.HasFaces infra.routingInfo)
    (hG : infra.routingInfo.RoutableFrom node.nodeId) (hlinks : infra.routingInfo.LinksDistinct)
    (hids : infra.routingInfo.FaceIdsDistinct) {dst dst' : DestinationNodes}
    (hdst : ∃ bound, ∀ fuel, bound ≤ fuel → destinations fuel infra data zor node = .ok dst)
    (hdst' : ∃ bound, ∀ fuel, bound ≤ fuel → destinations fuel infra' data' zor node = .ok dst')
    (hperm : dst.Perm dst') (hkeys : ∀ d ∈ dst, d ∈ infra.routingInfo) :
    (∀ fuel fuel' o o', alertRsuHandler fuel infra data zor node = .ok o →
      alertRsuHandler fuel' infra' data' zor node = .ok o' → o.Same o') ∧
    ∃ bound, ∀ fuel, bound ≤ fuel → ∃ o o', alertRsuHandler fuel infra data zor node = .ok o ∧
      alertRsuHandler fuel infra' data' zor node = .ok o' := by
  constructor
  · intro fuel fuel' o o' ho ho'
    obtain ⟨b, hb⟩ := hdst
    obtain ⟨b', hb'⟩ := hdst'
    refine rsuCase_same hdata hGG hlinks hids hG.mem ?_ (alertRsuHandler_cases ho)
      (alertRsuHandler_cases ho')
    intro k k' D D' hD hD'
    rw [Node.destinations_unique hD (hb b le_rfl), Node.destinations_unique hD' (hb' b' le_rfl)]
    exact hperm
  · obtain ⟨b, hb⟩ := hnode.returns hG hdst hkeys
    obtain ⟨b', hb'⟩ := (hnode.reordered hGG).returns (hGG.routableFrom hG) hdst'
      fun d hd => (hGG.keys d).mp (hkeys d (hperm.mem_iff.mpr hd))
    refine ⟨max b b', fun fuel hfuel => ?_⟩
    obtain ⟨o, ho⟩ := hb fuel ((le_max_left _ _).trans hfuel)
    obtain ⟨o', ho'⟩ := hb' fuel ((le_max_right _ _).trans hfuel)
    exact ⟨o, o', ho, ho'⟩

end Returns

/-- Two RSUs with one node and one alert, whose tables list the same nodes, links
and destinations in other orders, send the same shares on the same faces. If
the alert has no destinations yet, an RSU covers its zone: among several
nearest ones, the order decides. -/
theorem routing_order_independent {infra infra' : Infrastructure F} {data data' : Data F}
    {node : Node F} {zor : ZoR F} (hGG : infra.routingInfo.Reordered infra'.routingInfo)
    (hpos : ∀ n, infra.positionInfo.lookup n = infra'.positionInfo.lookup n)
    (hdata : data.Alike data') (hnode : node.HasFaces infra.routingInfo)
    (hn : node.nodeId ∈ infra.routingInfo) (hG : infra.routingInfo.Routable)
    (hlinks : infra.routingInfo.LinksDistinct)
    (htag : ∀ dst, data.destinationNodes = some dst → ∀ d ∈ dst, d ∈ infra.routingInfo)
    (hcov : data.destinationNodes = none → ∃ v, Reaches infra.routingInfo.Link node.nodeId v ∧
      Covers infra.positionInfo node.ctx.txRadius zor v) :
    (∀ fuel fuel' o o', alertRsuHandler fuel infra data zor node = .ok o →
      alertRsuHandler fuel' infra' data' zor node = .ok o' → o.Same o') ∧
    ∃ bound, ∀ fuel, bound ≤ fuel → ∃ o o', alertRsuHandler fuel infra data zor node = .ok o ∧
      alertRsuHandler fuel infra' data' zor node = .ok o' := by
  obtain ⟨dst, b, hb, hkeys⟩ : ∃ dst b, (∀ fuel, b ≤ fuel →
      destinations fuel infra data zor node = .ok dst) ∧ ∀ d ∈ dst, d ∈ infra.routingInfo := by
    cases hS : data.destinationNodes with
    | some S => exact ⟨S, 0, fun fuel _ => by simp only [destinations, hS], htag S hS⟩
    | none =>
        obtain ⟨D, b, hb, _⟩ := computeDestinationNodes_returns infra.routingInfo
          infra.positionInfo node.ctx.txRadius node.nodeId zor
        refine ⟨D, b, fun fuel hfuel => by simp only [destinations, hS, hb fuel hfuel], ?_⟩
        have hspec := (computeDestinationNodes_spec infra.routingInfo infra.positionInfo
          node.ctx.txRadius node.nodeId zor).2 b D (hb b le_rfl)
        exact fun d hd => (hG.closed.from _).mem hn ((hspec.covered (hcov hS) d).mp hd).1
  obtain ⟨dst', b', hb'⟩ : ∃ dst' b', ∀ fuel, b' ≤ fuel →
      destinations fuel infra' data' zor node = .ok dst' := by
    cases hS : data'.destinationNodes with
    | some S => exact ⟨S, 0, fun fuel _ => by simp only [destinations, hS]⟩
    | none =>
        obtain ⟨D, b, hb, _⟩ := computeDestinationNodes_returns infra'.routingInfo
          infra'.positionInfo node.ctx.txRadius node.nodeId zor
        exact ⟨D, b, fun fuel hfuel => by simp only [destinations, hS, hb fuel hfuel]⟩
  refine handlers_same hGG hdata hnode (hG.from hn) hlinks hG.distinct ⟨b, hb⟩ ⟨b', hb'⟩ ?_ hkeys
  exact destinations_perm hdata (fun hnone _ _ _ _ hD hD' =>
    computeDestinationNodes_perm hGG hpos (hcov hnone) hD hD') (hb b le_rfl) (hb' b' le_rfl)

/-! ## Three RSUs around the zone -/

namespace Wired

/-- Three RSUs, with a wire between any two. -/
def ring : Graph where
  entries := [⟨0, [⟨257, 1, 1⟩, ⟨258, 2, 1⟩]⟩, ⟨1, [⟨257, 0, 1⟩, ⟨258, 2, 1⟩]⟩,
    ⟨2, [⟨257, 0, 1⟩, ⟨258, 1, 1⟩]⟩]
  nodupKeys := by
    unfold List.NodupKeys
    decide

def ringReordered : Graph where
  entries := [⟨2, [⟨258, 1, 1⟩, ⟨257, 0, 1⟩]⟩, ⟨0, [⟨258, 2, 1⟩, ⟨257, 1, 1⟩]⟩,
    ⟨1, [⟨257, 0, 1⟩, ⟨258, 2, 1⟩]⟩]
  nodupKeys := by
    unfold List.NodupKeys
    decide

/-- All of them at the centre of the zone. -/
def positions : NodePosition ℝ where
  entries := [⟨0, ⟨0, 0⟩⟩, ⟨1, ⟨0, 0⟩⟩, ⟨2, ⟨0, 0⟩⟩]
  nodupKeys := by
    unfold List.NodupKeys
    decide

noncomputable def listed : Infrastructure ℝ := ⟨ring, positions⟩

noncomputable def relisted : Infrastructure ℝ := ⟨ringReordered, positions⟩

theorem ring_routable : ring.Routable :=
  Graph.routable_unit (by decide) (by decide) (by decide) (by decide) (by decide)

theorem zone_coveredBy_one : Built.zone.coveredBy ⟨0, 0⟩ 1 := by
  have hdist : Point.distanceFromPoint (⟨0, 0⟩ : Point ℝ) ⟨0, 0⟩ = 0 := by
    rw [Point.distance_axis]
    norm_num
  simp [Built.zone, ZoR.coveredBy, hdist]
  norm_num

end Wired

theorem routing_order_independent_ring : ∃ bound, ∀ fuel, bound ≤ fuel → ∃ o o',
    alertRsuHandler fuel Wired.listed Built.alert Built.zone (Wired.rsu Wired.listed 0) = .ok o ∧
      alertRsuHandler fuel Wired.relisted Built.alert Built.zone (Wired.rsu Wired.listed 0) =
        .ok o' ∧ o.Same o' := by
  have hrsu : (Wired.rsu Wired.listed 0).IsRsu Wired.listed.routingInfo 0 Wired.site :=
    Wired.rsu_isRsu (by decide)
  have hnode : (Wired.rsu Wired.listed 0).HasFaces Wired.listed.routingInfo :=
    ⟨fun _ => hrsu.v2i_mem, fun faces hfaces face hface => (hrsu.faces faces hfaces face hface).1⟩
  have hGG : Wired.listed.routingInfo.Reordered Wired.relisted.routingInfo :=
    Graph.Reordered.of_entries (by decide) (by decide)
  have halike : Built.alert.Alike Built.alert := ⟨rfl, .none⟩
  obtain ⟨hsame, bound, hreturns⟩ := routing_order_independent hGG (fun _ => rfl) halike hnode
    (by decide) Wired.ring_routable (Graph.linksDistinct (by decide)) (fun dst h => by cases h)
    fun _ => ⟨0, Reaches.refl 0, ⟨0, 0⟩, rfl, Wired.zone_coveredBy_one⟩
  refine ⟨bound, fun fuel hfuel => ?_⟩
  obtain ⟨o, o', ho, ho'⟩ := hreturns fuel hfuel
  exact ⟨o, o', ho, ho', hsame fuel fuel o o' ho ho'⟩

end Cafe
