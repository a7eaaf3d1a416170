import Cafe.Deployment

/-!
# Routing on a built deployment

The graph that the installation leaves behind has links to the nodes
without a stack. Routing from an RSU throws if one of these can be reached,
if the RSU is no key of the graph but has to route, or if no RSU with a
position is found.
-/

open WeightedDigraph

namespace Cafe

variable {F : Type} [Arith F]

namespace Topology

abbrev routingInfo (top : Topology F) : Graph := top.install.infra.routingInfo

abbrev positionInfo (top : Topology F) : NodePosition F := top.install.infra.positionInfo

/-! ## The graph -/

theorem active_of_mem (top : Topology F) {n : NodeId} (hn : n ∈ top.routingInfo) :
    ∃ spec, top.active n = some spec ∧ ∃ v, Device.pointToPoint v ∈ spec.devices := by
  cases hspec : top.active n with
  | none => exact absurd (top.absent hspec).links (fun h => AList.lookup_eq_none.mp h hn)
  | some spec =>
      obtain ⟨node, hbuilt⟩ := top.built hspec
      refine ⟨spec, rfl, ?_⟩
      by_contra hno
      exact AList.lookup_eq_none.mp (hbuilt.key.mpr fun v hv => hno ⟨v, hv⟩) hn

theorem mem_of_active (top : Topology F) {n v : NodeId} {spec : NodeSpec F}
    (hspec : top.active n = some spec) (hv : Device.pointToPoint v ∈ spec.devices) :
    n ∈ top.routingInfo := by
  obtain ⟨node, hbuilt⟩ := top.built hspec
  by_contra hn
  exact hbuilt.key.mp (AList.lookup_eq_none.mpr hn) v hv

theorem built_of_lookup (top : Topology F) {n : NodeId} {faces : List Face}
    (hfaces : top.routingInfo.lookup n = some faces) :
    ∃ spec node, top.active n = some spec ∧ top.install.Built n spec node := by
  obtain ⟨spec, hspec, _⟩ := top.active_of_mem (AList.lookup_isSome.mp (by rw [hfaces]; rfl))
  obtain ⟨node, hbuilt⟩ := top.built hspec
  exact ⟨spec, node, hspec, hbuilt⟩

theorem devicesOf_active (top : Topology F) {n : NodeId} {spec : NodeSpec F}
    (hspec : top.active n = some spec) : devicesOf top.nodes n = spec.devices := by
  obtain ⟨hlook, _⟩ := Option.filter_eq_some_iff.mp hspec
  rw [devicesOf, hlook]
  rfl

theorem link_device (top : Topology F) {u v : NodeId} {c : ℕ} (h : top.routingInfo.Link u v c) :
    c = 1 ∧ ∃ spec, top.active u = some spec ∧ Device.pointToPoint v ∈ spec.devices := by
  obtain ⟨faces, hfaces, face, hmem, rfl, rfl⟩ := h
  obtain ⟨spec, node, hspec, hbuilt⟩ := top.built_of_lookup hfaces
  obtain ⟨_, hface, hiff⟩ := hbuilt.faces faces hfaces
  refine ⟨by rw [(hface face hmem).1]; rfl, spec, hspec, ?_⟩
  exact (hiff _).mp (List.mem_map_of_mem hmem)

theorem link_of_device (top : Topology F) {u v : NodeId} {spec : NodeSpec F}
    (hspec : top.active u = some spec) (hv : Device.pointToPoint v ∈ spec.devices) :
    top.routingInfo.Link u v 1 := by
  obtain ⟨node, hbuilt⟩ := top.built hspec
  obtain ⟨faces, hfaces⟩ := Option.isSome_iff_exists.mp
    (AList.lookup_isSome.mpr (top.mem_of_active hspec hv))
  obtain ⟨_, hface, hiff⟩ := hbuilt.faces faces hfaces
  obtain ⟨face, hmem, rfl⟩ := List.mem_map.mp ((hiff v).mpr hv)
  exact ⟨faces, hfaces, face, hmem, rfl, by rw [(hface face hmem).1]; rfl⟩

/-- The far end of a link has the other device of the channel. -/
theorem mem_of_link (top : Topology F) {u v : NodeId} {c : ℕ} (h : top.routingInfo.Link u v c)
    (hv : top.active v ≠ none) : v ∈ top.routingInfo := by
  obtain ⟨_, spec, hspec, hdev⟩ := top.link_device h
  obtain ⟨spec', hspec'⟩ := Option.ne_none_iff_exists'.mp hv
  have hpaired := top.paired u v
  rw [top.devicesOf_active hspec, top.devicesOf_active hspec'] at hpaired
  refine top.mem_of_active hspec' (v := u) (List.count_pos_iff.mp ?_)
  rw [← hpaired]
  exact List.count_pos_iff.mpr hdev

theorem toNat_lt (top : Topology F) {n : NodeId} {spec : NodeSpec F}
    (h : top.active n = some spec) : n.toNat < top.nodes.length :=
  (List.getElem?_eq_some_iff.mp (Option.filter_eq_some_iff.mp h).1).1

theorem undefined_inactive (top : Topology F) : top.active Mira.undefinedNode = none := by
  by_contra hne
  obtain ⟨spec, hspec⟩ := Option.ne_none_iff_exists'.mp hne
  have hlt : 4294967295 < top.nodes.length := top.toNat_lt hspec
  exact absurd (hlt.trans top.fits) (lt_irrefl _)

theorem undefined_notMem (top : Topology F) : Mira.undefinedNode ∉ top.routingInfo := by
  intro hmem
  obtain ⟨spec, hspec, _⟩ := top.active_of_mem hmem
  rw [top.undefined_inactive] at hspec
  cases hspec

theorem keys_length (top : Topology F) : top.routingInfo.keys.length ≤ top.nodes.length := by
  have hnodup : (top.routingInfo.keys.map UInt32.toNat).Nodup :=
    top.routingInfo.keys_nodup.map fun _ _ => UInt32.toNat_inj.mp
  have hsub : top.routingInfo.keys.map UInt32.toNat ⊆ List.range top.nodes.length := by
    intro k hk
    obtain ⟨n, hn, rfl⟩ := List.mem_map.mp hk
    obtain ⟨spec, hspec, _⟩ := top.active_of_mem (AList.mem_keys.mpr hn)
    exact List.mem_range.mpr (top.toNat_lt hspec)
  have hle := (List.subperm_of_subset hnodup hsub).length_le
  rwa [List.length_map, List.length_range] at hle

theorem noOverflow (top : Topology F) (n : NodeId) : top.routingInfo.NoOverflow n := by
  refine Graph.NoOverflow.of_cost (m := 1) (fun u v c h => (top.link_device h).1.le) ?_ n
  have := top.keys_length
  have := top.fits
  omega

theorem faceIdsDistinct (top : Topology F) : top.routingInfo.FaceIdsDistinct := by
  intro n faces hfaces
  obtain ⟨_, _, _, hbuilt⟩ := top.built_of_lookup hfaces
  exact (hbuilt.faces faces hfaces).1

/-- The node was built at `n` and may have handled any alerts since. -/
def IsNode (top : Topology F) (n : NodeId) (node : Node F) : Prop :=
  ∃ node₀, top.install.nodes.lookup n = some node₀ ∧ node.config = node₀.config

/-- The wired faces of a built node are apart from its V2I face. -/
theorem IsNode.wiredApart {top : Topology F} {n : NodeId} {node : Node F}
    (h : top.IsNode n node) : node.WiredApart top.install.infra := by
  obtain ⟨node₀, hnode₀, hconfig⟩ := h
  refine Node.WiredApart.congr ?_ hconfig
  cases hspec : top.active n with
  | none =>
      rw [(top.absent hspec).node] at hnode₀
      cases hnode₀
  | some spec =>
      obtain ⟨node₁, hbuilt⟩ := top.built hspec
      obtain rfl := Option.some.inj (hbuilt.lookup.symm.trans hnode₀)
      intro faces hfaces face hface
      have hid : node₁.nodeId = n := by rw [hbuilt.frame]; rfl
      rw [hid] at hfaces
      exact ((hbuilt.faces faces hfaces).2.1 face hface).2.2

/-! ## The alert on its way -/

/-- An alert enters at `s` without destinations and is handled; a share of it
reaches the far end of the face on which it is sent. -/
inductive Forwarded (top : Topology F) (zor : ZoR F) (s : NodeId) :
    NodeId → Option DestinationNodes → Prop
  | entry : Forwarded top zor s s none
  | share {n : NodeId} {node : Node F} {data : Data F} {fuel : ℕ} {o : Outcome F}
      {out : Outgoing F} {faces : List Face} {face : Face}
      (hn : Forwarded top zor s n data.destinationNodes) (hnode : top.IsNode n node)
      (hrsu : node.ctx.type = .rsu)
      (ho : alertRsuHandler fuel top.install.infra data zor node = .ok o) (hout : out ∈ o.sent)
      (hfaces : top.routingInfo.lookup n = some faces) (hface : face ∈ faces)
      (hegress : face.faceId = out.egress) :
      Forwarded top zor s face.remoteNodeId out.data.destinationNodes

/-- Every RSU that gets the alert handles it, and only RSUs with a position
are destinations. -/
structure RoutesSafely (top : Topology F) (zor : ZoR F) (s : NodeId) (txRadius : F) : Prop where
  returns : ∀ n node (data : Data F), top.Forwarded zor s n data.destinationNodes →
    top.IsNode n node → node.ctx.type = .rsu → ∃ bound, ∀ fuel, bound ≤ fuel →
      ∃ o, alertRsuHandler fuel top.install.infra data zor node = .ok o
  positioned : ∀ fuel D, computeDestinationNodes fuel top.routingInfo top.positionInfo txRadius s
    zor = .ok D → ∀ d ∈ D, d ∈ top.positionInfo

open Destinations in
/-- Some reachable RSU covers the zone or has a finite distance to it. -/
def Found (top : Topology F) (zor : ZoR F) (s : NodeId) (txRadius : F) : Prop :=
  ∃ v, Reaches top.routingInfo.Link s v ∧ (Covers top.positionInfo txRadius zor v ∨
    ∃ dist, Candidate top.positionInfo txRadius zor v dist ∧ dist < Arith.inf)

open Destinations in
/-- The RSU `s` is the only one that covers the zone, or the nearest one. -/
def Alone (top : Topology F) (zor : ZoR F) (s : NodeId) (txRadius : F) : Prop :=
  (Covers top.positionInfo txRadius zor s ∧ ∀ v, Reaches top.routingInfo.Link s v →
      Covers top.positionInfo txRadius zor v → v = s) ∨
    ((∀ v, Reaches top.routingInfo.Link s v → ¬ Covers top.positionInfo txRadius zor v) ∧
      ∃ dist, Candidate top.positionInfo txRadius zor s dist ∧ dist < Arith.inf ∧
        ∀ v dist', Reaches top.routingInfo.Link s v → v ≠ s →
          Candidate top.positionInfo txRadius zor v dist' → ¬ dist' < dist)

end Topology

namespace Destinations

variable {top : Topology F} {zor : ZoR F} {s : NodeId} {txRadius : F} {D : DestinationNodes}

/-- The destinations of a search that finds an RSU. -/
theorem Spec.of_found (h : Spec top.routingInfo top.positionInfo txRadius zor s D)
    (hfound : top.Found zor s txRadius) (hs : s ≠ 4294967295) :
    D ≠ [] ∧ (∀ d ∈ D, Reaches top.routingInfo.Link s d ∧ d ∈ top.positionInfo) ∧
      ((∀ d ∈ D, d = s) ↔ top.Alone zor s txRadius) := by
  have hmem : ∀ v pos, top.positionInfo.lookup v = some pos → v ∈ top.positionInfo :=
    fun v pos hpos => AList.lookup_isSome.mp (by rw [hpos]; rfl)
  by_cases hcov : ∃ v, Reaches top.routingInfo.Link s v ∧ Covers top.positionInfo txRadius zor v
  · have hiff := h.covered hcov
    obtain ⟨v, hv⟩ := hcov
    refine ⟨List.ne_nil_of_mem ((hiff v).mpr hv), fun d hd => ?_, ?_, ?_⟩
    · obtain ⟨hreach, pos, hpos, _⟩ := (hiff d).mp hd
      exact ⟨hreach, hmem d pos hpos⟩
    · intro hall
      have hvs := hall v ((hiff v).mpr hv)
      exact Or.inl ⟨hvs ▸ hv.2, fun w hw hcw => hall w ((hiff w).mpr ⟨hw, hcw⟩)⟩
    · rintro (⟨_, hall⟩ | ⟨hno, _⟩) d hd
      · exact hall d ((hiff d).mp hd).1 ((hiff d).mp hd).2
      · exact absurd hv.2 (hno v hv.1)
  · push Not at hcov
    obtain ⟨v, hv, hor⟩ := hfound
    obtain ⟨dist, hcand, hlt⟩ := hor.resolve_left (hcov v hv)
    obtain ⟨w, dist', rfl, hw, pos, hpos, _⟩ := h.nearest hcov ⟨v, dist, hv, hcand, hlt⟩
    refine ⟨List.cons_ne_nil _ _, fun d hd => ?_, ?_⟩
    · obtain rfl := List.mem_singleton.mp hd
      exact ⟨hw, hmem d pos hpos⟩
    · rw [List.forall_mem_singleton, ← List.singleton_inj, h.self hcov hs]
      constructor
      · exact fun hself => Or.inr ⟨hcov, hself⟩
      · rintro (⟨hcs, _⟩ | ⟨_, hself⟩)
        · exact absurd hcs (hcov s (Reaches.refl s))
        · exact hself

/-- A search that finds no RSU yields an id that no RSU has. -/
theorem Spec.of_not_found (h : Spec top.routingInfo top.positionInfo txRadius zor s D)
    (hfound : ¬ top.Found zor s txRadius) : D = [4294967295] := by
  refine h.none (fun v hv hcov => hfound ⟨v, hv, Or.inl hcov⟩) fun v dist hv hcand hlt => ?_
  exact hfound ⟨v, hv, Or.inr ⟨dist, hcand, hlt⟩⟩

end Destinations

namespace Topology

variable {top : Topology F} {zor : ZoR F} {s n : NodeId} {spec : NodeSpec F} {node : Node F}

/-- What the handlers read of a built node. -/
structure Reads (top : Topology F) (n : NodeId) (spec : NodeSpec F) (node : Node F) : Prop where
  nodeId : node.nodeId = n
  type : node.ctx.type = spec.type
  txRadius : node.ctx.txRadius = spec.txRadius
  v2i : spec.type = .rsu → (node.ctx.getFaceIdFor .v2i ≠ 0 ↔ Device.wifi ∈ spec.devices)
  v2iFace : node.ctx.getFaceIdFor .v2i ≠ 0 →
    node.ctx.getFaceIdFor .v2i ∈ node.faceTable.map NfdFace.faceId
  faces : ∀ faces, top.routingInfo.lookup n = some faces → ∀ face ∈ faces,
    face.faceId ∈ node.faceTable.map NfdFace.faceId ∧ face.faceId ≠ node.ctx.getFaceIdFor .v2i

theorem IsNode.reads (h : top.IsNode n node) (hspec : top.active n = some spec) :
    top.Reads n spec node := by
  obtain ⟨node₀, hnode₀, hconfig⟩ := h
  obtain ⟨node₁, hbuilt⟩ := top.built hspec
  obtain rfl := Option.some.inj (hbuilt.lookup.symm.trans hnode₀)
  have hmap : node.ctx.faceContextMap = node₁.ctx.faceContextMap :=
    congrArg Node.Config.faceContextMap hconfig
  have htable : node.faceTable = node₁.faceTable := congrArg Node.Config.faceTable hconfig
  have hv2i : node.ctx.getFaceIdFor .v2i = node₁.ctx.getFaceIdFor .v2i := by
    unfold Context.getFaceIdFor
    rw [hmap]
  refine ⟨?_, ?_, ?_, hv2i ▸ hbuilt.v2i, hv2i ▸ htable ▸ hbuilt.v2iFace, ?_⟩
  · refine (congrArg Node.Config.nodeId hconfig).trans (?_ : node₁.nodeId = n)
    rw [hbuilt.frame]
    rfl
  · refine (congrArg Node.Config.type hconfig).trans (?_ : node₁.ctx.type = spec.type)
    rw [hbuilt.frame]
    rfl
  · refine (congrArg Node.Config.txRadius hconfig).trans (?_ : node₁.ctx.txRadius = spec.txRadius)
    rw [hbuilt.frame]
    rfl
  · intro faces hfaces face hface
    rw [hv2i, htable]
    exact ((hbuilt.faces faces hfaces).2.1 face hface).2

theorem IsNode.active (h : top.IsNode n node) : ∃ spec, top.active n = some spec := by
  obtain ⟨node₀, hnode₀, _⟩ := h
  refine Option.ne_none_iff_exists'.mp fun hnone => ?_
  rw [(top.absent hnone).node] at hnode₀
  cases hnode₀

theorem active_ne (hspec : top.active n = some spec) : n ≠ 4294967295 := by
  rintro rfl
  have hnone := top.undefined_inactive
  rw [Mira.undefinedNode, hspec] at hnone
  cases hnone

/-- A destination that is sent a share is one of those to be served. -/
theorem mem_of_share (hclosed : top.routingInfo.ClosedFrom n) (hn : n ∈ top.routingInfo)
    {D : DestinationNodes} (hD : ∀ d ∈ D, d ∈ top.routingInfo) {fuel : ℕ}
    {entries : UnorderedMap FaceId DestinationNodes}
    (hmira : mira fuel top.routingInfo D n = .ok entries)
    {entry : Σ _ : FaceId, DestinationNodes} (hentry : entry ∈ entries.entries) :
    ∀ d ∈ entry.2, d ∈ D := by
  obtain ⟨hop, hsplit⟩ := mira_split hclosed hn top.undefined_notMem (top.noOverflow n) hD hmira
  obtain ⟨c, _, _, _, _, _, _, hmem⟩ := hsplit.face entry.1 entry.2
    ((List.mem_dlookup_iff entries.nodupKeys).mpr hentry)
  exact fun d hd => ((hmem d).mp hd).1

/-- An RSU whose reachable nodes all have a stack handles every alert whose
destinations are keys of the graph. -/
theorem IsNode.returns (h : top.IsNode n node) (hspec : top.active n = some spec)
    (hclosed : top.routingInfo.ClosedFrom n) (hn : n ∈ top.routingInfo)
    {data : Data F} {dst : DestinationNodes}
    (hdst : ∃ bound, ∀ fuel, bound ≤ fuel →
      destinations fuel top.install.infra data zor node = .ok dst)
    (hkeys : ∀ d ∈ dst, d ∈ top.routingInfo) : ∃ bound, ∀ fuel, bound ≤ fuel →
      ∃ o, alertRsuHandler fuel top.install.infra data zor node = .ok o := by
  have hreads := h.reads hspec
  obtain ⟨bound, hdst⟩ := hdst
  obtain ⟨b₁, h₁⟩ := mira_returns hclosed hn top.undefined_notMem (top.noOverflow n) hkeys
  obtain ⟨b₂, h₂⟩ := mira_returns hclosed hn top.undefined_notMem (top.noOverflow n)
    fun d (hd : d ∈ dst.filter (· ≠ node.nodeId)) => hkeys d (List.mem_filter.mp hd).1
  refine ⟨max bound (max b₁ b₂), fun fuel hfuel => ?_⟩
  have hd := hdst fuel ((le_max_left _ _).trans hfuel)
  refine alertRsuHandler_total ⟨dst, hd⟩ (fun _ => broadcast_total hreads.v2iFace) ?_
  intro dst' rest sent hd' hbroad
  obtain rfl := Except.ok.inj (hd.symm.trans hd')
  refine forwardShares_total fun _ => ?_
  have hmira : ∃ entries, mira fuel top.routingInfo rest n = .ok entries := by
    cases hbroad with
    | sends _ _ _ =>
        obtain ⟨entries, _, hres, _⟩ :=
          h₂ fuel (((le_max_right _ _).trans (le_max_right _ _)).trans hfuel)
        exact ⟨entries, hres⟩
    | passes _ =>
        obtain ⟨entries, _, hres, _⟩ :=
          h₁ fuel (((le_max_left _ _).trans (le_max_right _ _)).trans hfuel)
        exact ⟨entries, hres⟩
  obtain ⟨entries, hres⟩ := hmira
  refine ⟨entries, by rw [hreads.nodeId]; exact hres, fun entry hentry => ?_⟩
  obtain ⟨faces, face, hfaces, hmem, hface⟩ := mira_faces hres entry.1
    (AList.mem_keys.mpr (List.mem_map_of_mem hentry))
  exact hface ▸ (hreads.faces faces hfaces face hmem).1

/-- What a built RSU sends on the faces of the graph. -/
theorem IsNode.share_cases (h : top.IsNode n node) (hspec : top.active n = some spec)
    {fuel : ℕ} {data : Data F} {o : Outcome F}
    (ho : alertRsuHandler fuel top.install.infra data zor node = .ok o) {out : Outgoing F}
    (hout : out ∈ o.sent) {faces : List Face} (hfaces : top.routingInfo.lookup n = some faces)
    {face : Face} (hface : face ∈ faces) (hegress : face.faceId = out.egress) :
    ∃ dst rest sent entries, destinations fuel top.install.infra data zor node = .ok dst ∧
      BroadcastCase data dst node rest sent ∧ rest ≠ [] ∧
      mira fuel top.routingInfo rest n = .ok entries ∧
      ∃ entry ∈ entries.entries, out.data.destinationNodes = some entry.2 := by
  have hreads := h.reads hspec
  have hne := (hreads.faces faces hfaces face hface).2
  cases alertRsuHandler_cases ho with
  | duplicate _ => cases hout
  | new dst rest sent wired _ hdst hbroad hwired =>
      rcases List.mem_append.mp hout with hsent | hwire
      · cases hbroad with
        | sends _ _ _ =>
            obtain rfl := List.mem_singleton.mp hsent
            exact absurd hegress hne
        | passes _ => cases hsent
      · cases hwired with
        | empty _ => cases hwire
        | shares entries hrest hmira _ =>
            obtain ⟨entry, hentry, rfl⟩ := List.mem_map.mp hwire
            rw [hreads.nodeId] at hmira
            exact ⟨dst, rest, sent, entries, hdst, hbroad, hrest, hmira, entry, hentry, rfl⟩

theorem BroadcastCase.subset {data : Data F} {dst rest : DestinationNodes}
    {sent : List (Outgoing F)} (h : BroadcastCase data dst node rest sent) :
    ∀ d ∈ rest, d ∈ dst := by
  cases h with
  | sends _ _ _ => exact fun d hd => (List.mem_filter.mp hd).1
  | passes _ => exact fun d hd => hd

/-- The search at `s` itself. -/
theorem IsNode.destinations_none (h : top.IsNode s node) (hspec : top.active s = some spec)
    (fuel : ℕ) {data : Data F} (htag : data.destinationNodes = none) :
    destinations fuel top.install.infra data zor node =
      computeDestinationNodes fuel top.routingInfo top.positionInfo spec.txRadius s zor := by
  have hreads := h.reads hspec
  simp only [destinations, htag, hreads.txRadius, hreads.nodeId]

section Linked

variable (hspec : top.active s = some spec) (hfound : top.Found zor s spec.txRadius)
  (hlinked : ∃ v, Device.pointToPoint v ∈ spec.devices)
  (hactive : ∀ v, Reaches top.routingInfo.Link s v → top.active v ≠ none)

include hspec hlinked hactive

theorem closedFrom_of_active : s ∈ top.routingInfo ∧ top.routingInfo.ClosedFrom s := by
  obtain ⟨v, hv⟩ := hlinked
  exact ⟨top.mem_of_active hspec hv, fun u w c hu he => top.mem_of_link he (hactive w (hu.snoc he))⟩

include hfound

/-- The destinations of every copy are keys of the graph. -/
theorem Forwarded.keys {tag : Option DestinationNodes} (h : top.Forwarded zor s n tag) :
    Reaches top.routingInfo.Link s n ∧ (tag = none → n = s) ∧
      ∀ S, tag = some S → ∀ d ∈ S, d ∈ top.routingInfo := by
  obtain ⟨hs, hclosed⟩ := closedFrom_of_active hspec hlinked hactive
  induction h with
  | entry => exact ⟨Reaches.refl s, fun _ => rfl, nofun⟩
  | @share n node data fuel o out faces face _ hnode _ ho hout hfaces hface hegress ih =>
      obtain ⟨hreach, hentry, hkeys⟩ := ih
      obtain ⟨spec', hspec'⟩ := hnode.active
      obtain ⟨dst, rest, sent, entries, hdst, hbroad, _, hmira, entry, hmem, htag⟩ :=
        hnode.share_cases hspec' ho hout hfaces hface hegress
      have hlink : top.routingInfo.Link n face.remoteNodeId face.linkCost.toNat :=
        ⟨faces, hfaces, face, hface, rfl, rfl⟩
      have hdstKeys : ∀ d ∈ dst, d ∈ top.routingInfo := by
        cases hdata : data.destinationNodes with
        | some S =>
            simp only [destinations, hdata] at hdst
            obtain rfl := Except.ok.inj hdst
            exact hkeys S hdata
        | none =>
            obtain rfl := hentry hdata
            rw [hnode.destinations_none hspec _ hdata] at hdst
            have hD := (computeDestinationNodes_spec top.routingInfo top.positionInfo
              spec.txRadius n zor).2 fuel dst hdst
            exact fun d hd => hclosed.mem hs
              ((hD.of_found hfound (active_ne hspec)).2.1 d hd).1
      refine ⟨hreach.snoc hlink, fun hnone => ?_, fun S hS d hd => ?_⟩
      · rw [htag] at hnone
        cases hnone
      · rw [htag] at hS
        obtain rfl := Option.some.inj hS
        have hclosed' : top.routingInfo.ClosedFrom n :=
          fun u w c hu he => hclosed u w c (hreach.trans hu) he
        exact hdstKeys d (BroadcastCase.subset hbroad d (mem_of_share hclosed'
          (hclosed.mem hs hreach) (fun d hd => hdstKeys d (BroadcastCase.subset hbroad d hd))
          hmira hmem d hd))

theorem routesSafely_linked : top.RoutesSafely zor s spec.txRadius where
  returns := by
    intro n node data hfwd hnode _
    obtain ⟨hs, hclosed⟩ := closedFrom_of_active hspec hlinked hactive
    obtain ⟨hreach, hentry, hkeys⟩ := hfwd.keys hspec hfound hlinked hactive
    obtain ⟨spec', hspec'⟩ := hnode.active
    have hclosed' : top.routingInfo.ClosedFrom n :=
      fun u w c hu he => hclosed u w c (hreach.trans hu) he
    cases hdata : data.destinationNodes with
    | some S =>
        refine hnode.returns hspec' hclosed' (hclosed.mem hs hreach) ⟨0, fun fuel _ => ?_⟩
          (hkeys S hdata)
        simp only [destinations, hdata]
    | none =>
        obtain rfl := hentry hdata
        obtain ⟨D, bound, hD, _⟩ := computeDestinationNodes_returns top.routingInfo
          top.positionInfo spec.txRadius n zor
        have hDspec := (computeDestinationNodes_spec top.routingInfo top.positionInfo
          spec.txRadius n zor).2 bound D (hD bound le_rfl)
        refine hnode.returns hspec hclosed hs ⟨bound, fun fuel hfuel => ?_⟩
          fun d hd => hclosed.mem hs ((hDspec.of_found hfound (active_ne hspec)).2.1 d hd).1
        rw [hnode.destinations_none hspec _ hdata]
        exact hD fuel hfuel
  positioned := by
    intro fuel D hD d hd
    have hDspec := (computeDestinationNodes_spec top.routingInfo top.positionInfo
      spec.txRadius s zor).2 fuel D hD
    exact ((hDspec.of_found hfound (active_ne hspec)).2.1 d hd).2

end Linked

section Lonely

variable (hspec : top.active s = some spec) (hr : spec.type = .rsu)
  (hfound : top.Found zor s spec.txRadius) (hwifi : Device.wifi ∈ spec.devices)
  (halone : top.Alone zor s spec.txRadius)

include hspec hr hfound hwifi halone

/-- An RSU that is its only destination has nothing left to route. -/
theorem IsNode.broadcasts (h : top.IsNode s node) {fuel : ℕ} {data : Data F}
    (htag : data.destinationNodes = none) {dst rest : DestinationNodes} {sent : List (Outgoing F)}
    (hdst : destinations fuel top.install.infra data zor node = .ok dst)
    (hbroad : BroadcastCase data dst node rest sent) : rest = [] := by
  have hreads := h.reads hspec
  rw [h.destinations_none hspec _ htag] at hdst
  have hD := (computeDestinationNodes_spec top.routingInfo top.positionInfo
    spec.txRadius s zor).2 fuel dst hdst
  obtain ⟨hne, _, hiff⟩ := hD.of_found hfound (active_ne hspec)
  have hall := hiff.mpr halone
  cases hbroad with
  | sends _ _ _ =>
      refine List.filter_eq_nil_iff.mpr fun d hd => ?_
      simp [hreads.nodeId, hall d hd]
  | passes hnot =>
      obtain ⟨d, hd⟩ := List.exists_mem_of_ne_nil _ hne
      exact absurd ⟨hreads.nodeId ▸ hall d hd ▸ hd, (hreads.v2i hr).mpr hwifi⟩ hnot

theorem Forwarded.lonely {tag : Option DestinationNodes} (h : top.Forwarded zor s n tag) :
    n = s ∧ tag = none := by
  induction h with
  | entry => exact ⟨rfl, rfl⟩
  | share _ hnode _ ho hout hfaces hface hegress ih =>
      obtain ⟨rfl, htag⟩ := ih
      obtain ⟨dst, rest, sent, entries, hdst, hbroad, hrest, _⟩ :=
        hnode.share_cases hspec ho hout hfaces hface hegress
      exact absurd (hnode.broadcasts hspec hr hfound hwifi halone htag hdst hbroad) hrest

theorem routesSafely_lonely : top.RoutesSafely zor s spec.txRadius where
  returns := by
    intro n node data hfwd hnode _
    obtain ⟨rfl, htag⟩ := hfwd.lonely hspec hr hfound hwifi halone
    have hreads := hnode.reads hspec
    obtain ⟨D, bound, hD, _⟩ := computeDestinationNodes_returns top.routingInfo
      top.positionInfo spec.txRadius n zor
    refine ⟨bound, fun fuel hfuel => ?_⟩
    refine alertRsuHandler_total ⟨D, ?_⟩ (fun _ => broadcast_total hreads.v2iFace) ?_
    · rw [hnode.destinations_none hspec _ htag]
      exact hD fuel hfuel
    · intro dst rest sent hdst hbroad
      refine forwardShares_total fun hrest => ?_
      exact absurd (hnode.broadcasts hspec hr hfound hwifi halone htag hdst hbroad) hrest
  positioned := by
    intro fuel D hD d hd
    have hDspec := (computeDestinationNodes_spec top.routingInfo top.positionInfo
      spec.txRadius s zor).2 fuel D hD
    exact ((hDspec.of_found hfound (active_ne hspec)).2.1 d hd).2

end Lonely

/-- Safe routing needs an RSU to be found. -/
theorem RoutesSafely.found {txRadius : F} (h : top.RoutesSafely zor s txRadius) :
    top.Found zor s txRadius := by
  by_contra hno
  obtain ⟨D, bound, hD, _⟩ := computeDestinationNodes_returns top.routingInfo
    top.positionInfo txRadius s zor
  have hDspec := (computeDestinationNodes_spec top.routingInfo top.positionInfo
    txRadius s zor).2 bound D (hD bound le_rfl)
  have hmem := h.positioned bound D (hD bound le_rfl) 4294967295
    (by rw [hDspec.of_not_found hno]; exact List.mem_singleton_self _)
  have hpos : top.positionInfo.lookup 4294967295 = none :=
    (top.absent top.undefined_inactive).position
  exact AList.lookup_eq_none.mp hpos hmem

/-- Safe routing needs the graph to be closed behind an RSU that routes. -/
theorem RoutesSafely.linked (hspec : top.active s = some spec) (hr : spec.type = .rsu)
    (h : top.RoutesSafely zor s spec.txRadius)
    (hroutes : ¬ (Device.wifi ∈ spec.devices ∧ top.Alone zor s spec.txRadius)) :
    (∃ v, Device.pointToPoint v ∈ spec.devices) ∧
      ∀ v, Reaches top.routingInfo.Link s v → top.active v ≠ none := by
  obtain ⟨node, hbuilt⟩ := top.built hspec
  have hnode : top.IsNode s node := ⟨node, hbuilt.lookup, rfl⟩
  have hreads := hnode.reads hspec
  obtain ⟨bound, hreturns⟩ := h.returns s node ⟨[], 0, none, none, none, 0⟩ .entry hnode
    (hreads.type.trans hr)
  obtain ⟨o, ho⟩ := hreturns bound le_rfl
  have hnew : ¬ node.ctx.alertStore.isDuplicate ([] : Name F) := by
    rw [hbuilt.frame]
    exact List.not_mem_nil
  cases alertRsuHandler_cases ho with
  | duplicate hdup => exact absurd hdup hnew
  | new dst rest sent wired _ hdst hbroad hwired =>
      rw [hnode.destinations_none hspec _ rfl] at hdst
      have hD := (computeDestinationNodes_spec top.routingInfo top.positionInfo
        spec.txRadius s zor).2 bound dst hdst
      obtain ⟨hne, hfound, hiff⟩ := hD.of_found h.found (active_ne hspec)
      have hrest : rest ≠ [] := by
        intro hnil
        cases hbroad with
        | sends _ hv2i _ =>
            refine hroutes ⟨(hreads.v2i hr).mp hv2i, hiff.mp fun d hd => ?_⟩
            have hself := List.filter_eq_nil_iff.mp hnil d hd
            rw [hreads.nodeId] at hself
            simpa using hself
        | passes _ => exact hne hnil
      cases hwired with
      | empty hemp => exact absurd hemp hrest
      | shares entries _ hmira _ =>
          rw [hreads.nodeId] at hmira
          have hsource : s ∈ top.routingInfo := by
            obtain ⟨d, hd⟩ := List.exists_mem_of_ne_nil _ hrest
            have hor : d = s ∨ s ∈ top.routingInfo :=
              Reaches.induct (P := fun v => v = s ∨ s ∈ top.routingInfo) (Or.inl rfl)
                (fun u v c _ hu he => hu.elim (fun heq => Or.inr (heq ▸ he.mem)) Or.inr)
                (hfound d (BroadcastCase.subset hbroad d hd)).1
            rcases hor with rfl | hs
            · exact mira_source hmira hd
            · exact hs
          obtain ⟨spec', hspec', hdev⟩ := top.active_of_mem hsource
          obtain rfl := Option.some.inj (hspec.symm.trans hspec')
          refine ⟨hdev, fun v hv => ?_⟩
          rcases mira_reaches top.undefined_notMem (top.noOverflow s) hmira hv with rfl | hmem
          · rw [hspec]
            exact Option.some_ne_none _
          · obtain ⟨spec'', hspec'', _⟩ := top.active_of_mem hmem
            rw [hspec'']
            exact Option.some_ne_none _

end Topology

/-- Routing from an active RSU is safe exactly if an RSU is found and either
the RSU is its only destination and has a V2I face, or it has a link and no
reachable link leads to a node without a stack. -/
theorem routes_safely_iff (top : Topology F) (zor : ZoR F) {s : NodeId} {spec : NodeSpec F}
    (hspec : top.active s = some spec) (hr : spec.type = .rsu) :
    top.RoutesSafely zor s spec.txRadius ↔ top.Found zor s spec.txRadius ∧
      ((Device.wifi ∈ spec.devices ∧ top.Alone zor s spec.txRadius) ∨
        ((∃ v, Device.pointToPoint v ∈ spec.devices) ∧
          ∀ v, Reaches top.routingInfo.Link s v → top.active v ≠ none)) := by
  constructor
  · intro h
    refine ⟨h.found, ?_⟩
    by_cases hlonely : Device.wifi ∈ spec.devices ∧ top.Alone zor s spec.txRadius
    · exact Or.inl hlonely
    · exact Or.inr (h.linked hspec hr hlonely)
  · rintro ⟨hfound, ⟨hwifi, halone⟩ | ⟨hlinked, hactive⟩⟩
    · exact Topology.routesSafely_lonely hspec hr hfound hwifi halone
    · exact Topology.routesSafely_linked hspec hfound hlinked hactive

omit [Arith F] in
/-- Channels can be checked on the nodes that there are. -/
theorem paired_of_lt {nodes : List (NodeSpec F)}
    (hpaired : ∀ i < nodes.length, ∀ j < nodes.length,
      (devicesOf nodes (UInt32.ofNat i)).count (.pointToPoint (UInt32.ofNat j)) =
        (devicesOf nodes (UInt32.ofNat j)).count (.pointToPoint (UInt32.ofNat i)))
    (hends : ∀ spec ∈ nodes, ∀ v, Device.pointToPoint v ∈ spec.devices → v.toNat < nodes.length)
    (a b : NodeId) : (devicesOf nodes a).count (.pointToPoint b) =
      (devicesOf nodes b).count (.pointToPoint a) := by
  have hzero : ∀ a b : NodeId, ¬ b.toNat < nodes.length →
      (devicesOf nodes a).count (.pointToPoint b) = 0 := by
    intro a b hb
    refine List.count_eq_zero_of_not_mem fun hmem => hb ?_
    unfold devicesOf at hmem
    cases ha : nodes[a.toNat]? with
    | none => simp [ha] at hmem
    | some spec => exact hends spec (List.mem_of_getElem? ha) b (by simpa [ha] using hmem)
  have hnil : ∀ a : NodeId, ¬ a.toNat < nodes.length → devicesOf nodes a = [] := by
    intro a ha
    rw [devicesOf, List.getElem?_eq_none (Nat.le_of_not_lt ha)]
    rfl
  by_cases ha : a.toNat < nodes.length
  · by_cases hb : b.toNat < nodes.length
    · simpa using hpaired a.toNat ha b.toNat hb
    · rw [hzero a b hb, hnil b hb, List.count_nil]
  · rw [hnil a ha, hzero b a ha, List.count_nil]

namespace Built

/-- An RSU without radio at the end of a channel to an inactive node. -/
noncomputable def dangling : Topology ℝ where
  nodes := [⟨.rsu, .active, some ⟨0, 0⟩, 50, [.pointToPoint 1]⟩,
    ⟨.rsu, .inactive, some ⟨1000, 0⟩, 50, [.pointToPoint 0]⟩]
  fits := by decide
  paired := by
    refine paired_of_lt (by decide) fun spec hspec v hv => ?_
    rcases List.mem_pair.mp hspec with rfl | rfl
    · obtain rfl : v = 1 := by simpa using hv
      decide
    · obtain rfl : v = 0 := by simpa using hv
      decide

/-- An RSU without links. -/
noncomputable def isolated (devices : List Device) (hdev : ∀ v, Device.pointToPoint v ∉ devices) :
    Topology ℝ where
  nodes := [⟨.rsu, .active, some ⟨0, 0⟩, 50, devices⟩]
  fits := show 1 < 4294967295 by decide
  paired := by
    have hzero : ∀ a b, (devicesOf [⟨.rsu, .active, some (⟨0, 0⟩ : Point ℝ), 50, devices⟩] a).count
        (.pointToPoint b) = 0 := by
      intro a b
      refine List.count_eq_zero_of_not_mem fun hmem => ?_
      unfold devicesOf at hmem
      cases ha : a.toNat with
      | zero => exact hdev b (by simpa [ha] using hmem)
      | succ k => simp [ha] at hmem
    intro a b
    rw [hzero, hzero]

noncomputable def two : Topology ℝ where
  nodes := [⟨.rsu, .active, some ⟨0, 0⟩, 50, [.pointToPoint 1, .wifi]⟩,
    ⟨.rsu, .active, some ⟨1000, 0⟩, 50, [.wifi, .pointToPoint 0]⟩]
  fits := by decide
  paired := by
    refine paired_of_lt (by decide) fun spec hspec v hv => ?_
    rcases List.mem_pair.mp hspec with rfl | rfl
    · obtain rfl : v = 1 := by simpa using hv
      decide
    · obtain rfl : v = 0 := by simpa using hv
      decide

/-- A zone at the first RSU. -/
noncomputable def zone : ZoR ℝ := .circle ⟨0, 0⟩ (10 : ℕ)

theorem zone_covers : zone.coveredBy ⟨0, 0⟩ 50 := by
  have hdist : Point.distanceFromPoint (⟨0, 0⟩ : Point ℝ) ⟨0, 0⟩ = 0 := by
    rw [Point.distance_axis]
    norm_num
  simp [zone, ZoR.coveredBy, hdist]
  norm_num

theorem dangling_found : dangling.Found zone 0 50 :=
  ⟨0, Reaches.refl 0, Or.inl ⟨⟨0, 0⟩, rfl, zone_covers⟩⟩

theorem isolated_active (devices : List Device) (hdev : ∀ v, Device.pointToPoint v ∉ devices)
    (v : NodeId) (hv : (isolated devices hdev).active v ≠ none) : v = 0 := by
  obtain ⟨spec, hspec⟩ := Option.ne_none_iff_exists'.mp hv
  have hlt : v.toNat < 1 := (isolated devices hdev).toNat_lt hspec
  exact UInt32.toNat_inj.mp (Nat.lt_one_iff.mp hlt)

theorem two_found : two.Found zone 0 50 :=
  ⟨0, Reaches.refl 0, Or.inl ⟨⟨0, 0⟩, rfl, zone_covers⟩⟩

theorem two_active (v : NodeId) (hv : Reaches two.routingInfo.Link 0 v) : two.active v ≠ none := by
  have hor : v = 0 ∨ v = 1 := by
    refine Reaches.induct (P := fun v => v = 0 ∨ v = 1) (Or.inl rfl) ?_ hv
    rintro u w c _ (rfl | rfl) he
    · obtain ⟨_, spec, hspec, hdev⟩ := two.link_device he
      obtain rfl := Option.some.inj hspec
      exact Or.inr (by simpa using hdev)
    · obtain ⟨_, spec, hspec, hdev⟩ := two.link_device he
      obtain rfl := Option.some.inj hspec
      exact Or.inl (by simpa using hdev)
  rcases hor with rfl | rfl
  · exact Option.some_ne_none _
  · exact Option.some_ne_none _

end Built

theorem routes_safely_two : Built.two.RoutesSafely Built.zone 0 50 :=
  (routes_safely_iff Built.two Built.zone rfl rfl).mpr
    ⟨Built.two_found, Or.inr ⟨⟨1, List.mem_cons_self⟩, Built.two_active⟩⟩

/-- Three ways to fail: a reachable inactive node, an RSU that is its own
destination and has neither radio nor link, and a zone without components. -/
theorem not_routes_safely :
    (∃ (top : Topology ℝ) (s : NodeId) (spec : NodeSpec ℝ) (zor : ZoR ℝ),
      top.active s = some spec ∧ spec.type = .rsu ∧ zor.IsGeographic ∧
        top.Found zor s spec.txRadius ∧ (∃ v, Device.pointToPoint v ∈ spec.devices) ∧
        ¬ top.RoutesSafely zor s spec.txRadius) ∧
    (∃ (top : Topology ℝ) (s : NodeId) (spec : NodeSpec ℝ) (zor : ZoR ℝ),
      top.active s = some spec ∧ spec.type = .rsu ∧ zor.IsGeographic ∧
        (∀ v, top.active v ≠ none → v = s) ∧ ¬ top.RoutesSafely zor s spec.txRadius) ∧
    ∃ (top : Topology ℝ) (s : NodeId) (spec : NodeSpec ℝ) (zor : ZoR ℝ),
      top.active s = some spec ∧ spec.type = .rsu ∧ zor.IsGeographic ∧
        Device.wifi ∈ spec.devices ∧ ¬ top.RoutesSafely zor s spec.txRadius := by
  refine ⟨⟨Built.dangling, 0, _, Built.zone, rfl, rfl, trivial, Built.dangling_found,
    ⟨1, List.mem_cons_self⟩, fun h => ?_⟩, ⟨Built.isolated [] (by simp), 0, _, Built.zone, rfl, rfl,
    trivial, Built.isolated_active _ _, fun h => ?_⟩, Built.isolated [.wifi] (by simp), 0, _,
    .composite [], rfl, rfl, trivial, List.mem_singleton_self _, fun h => ?_⟩
  · obtain ⟨_, hactive⟩ := h.linked rfl rfl fun hwifi => absurd hwifi.1 (by decide)
    have hspec : Built.dangling.active 0 = some Built.dangling.nodes[0] := rfl
    have hlink := Built.dangling.link_of_device hspec (v := 1) List.mem_cons_self
    exact hactive 1 ((Reaches.refl 0).snoc hlink) rfl
  · obtain ⟨⟨v, hv⟩, _⟩ := h.linked rfl rfl fun hwifi => absurd hwifi.1 (by decide)
    cases hv
  · obtain ⟨v, _, ⟨pos, _, hcov⟩ | ⟨dist, ⟨pos, _, _, rfl⟩, hlt⟩⟩ := h.found
    · cases hcov
    · exact lt_irrefl _ hlt

end Cafe
