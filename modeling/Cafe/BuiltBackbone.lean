import Cafe.AirInterface
import Cafe.MulticastTree
import Cafe.NearestRsu
import Cafe.SafeRouting

/-!
# From built RSUs to the served zone

Where channels join RSUs only and every channel has the stack at both ends,
the nodes, the graph and the medium are those of a wired backbone. An alert
without destinations that one RSU hears is then broadcast once by each RSU that
covers its zone.
-/

open Labelled WeightedDigraph

namespace Cafe

open Destinations

namespace Topology

section Built

variable {F : Type} [Arith F] {top : Topology F} {s n : NodeId} {spec : NodeSpec F}

/-- No node has two radios, the nodes with a channel are RSUs with a radio, and no channel leads
from one to a node without a stack. -/
structure Backbone (top : Topology F) : Prop where
  oneRadio : top.OneRadio
  rsu : ∀ n v spec, top.active n = some spec → Device.pointToPoint v ∈ spec.devices →
    spec.type = .rsu ∧ Device.wifi ∈ spec.devices
  linked : ∀ n v spec, top.active n = some spec → Device.pointToPoint v ∈ spec.devices →
    top.active v ≠ none

def v2iFace (top : Topology F) (n : NodeId) : FaceId :=
  ((top.install.nodes.lookup n).map fun node => node.ctx.getFaceIdFor .v2i).getD 0

def site (top : Topology F) (n : NodeId) : Site F where
  v2i := top.v2iFace n
  txRadius := ((top.active n).map NodeSpec.txRadius).getD 0

/-- The deployment with an alert on its way to `s`. -/
def entered (top : Topology F) (s : NodeId) (ingress : FaceId) (data : Data F) : Net F :=
  { top.start with inFlight := [⟨s, ingress, data, 0⟩] }

/-- The copies `cs` are delivered one by one. -/
abbrev Delivers (top : Topology F) (medium : Medium F) (net : Net F) (cs : List (Copy F))
    (net' : Net F) : Prop :=
  Run (Net.Delivery top.install.infra medium) net cs net'

namespace Backbone

theorem routable (h : top.Backbone) : top.routingInfo.Routable where
  closed := by
    intro n faces hfaces face hface
    have hlink : top.routingInfo.Link n face.remoteNodeId face.linkCost.toNat :=
      ⟨faces, hfaces, face, hface, rfl, rfl⟩
    obtain ⟨_, spec, hspec, hdev⟩ := top.link_device hlink
    exact top.mem_of_link hlink (h.linked n _ spec hspec hdev)
  ids := top.undefined_notMem
  distinct := top.faceIdsDistinct
  noOverflow n _ := top.noOverflow n

theorem site_eq (hspec : top.active n = some spec) {node : Node F}
    (hnode : top.install.nodes.lookup n = some node) :
    top.site n = ⟨node.ctx.getFaceIdFor .v2i, spec.txRadius⟩ := by
  rw [site, v2iFace, hnode, hspec]
  rfl

/-- A node of the graph is built as an RSU that has stored nothing. -/
theorem exists_rsu (h : top.Backbone) (hn : n ∈ top.routingInfo) : ∃ node,
    top.install.nodes.lookup n = some node ∧ node.IsRsu top.routingInfo n (top.site n) ∧
      node.ctx.alertStore = (Context.init F).alertStore := by
  obtain ⟨spec, hspec, v, hv⟩ := top.active_of_mem hn
  obtain ⟨hrsu, hwifi⟩ := h.rsu n v spec hspec hv
  obtain ⟨node, hbuilt⟩ := top.built hspec
  have hnode : top.IsNode n node := ⟨node, hbuilt.lookup, rfl⟩
  have hreads := hnode.reads hspec
  have hsite := site_eq hspec hbuilt.lookup
  have hv2i : node.ctx.getFaceIdFor .v2i ≠ 0 := (hreads.v2i hrsu).mpr hwifi
  refine ⟨node, hbuilt.lookup, ?_, ?_⟩
  · rw [hsite]
    exact ⟨hreads.type.trans hrsu, hreads.nodeId, hreads.txRadius, rfl, hv2i,
      hreads.v2iFace hv2i, hreads.faces⟩
  · rw [hbuilt.frame]
    rfl

theorem wires (h : top.Backbone) {wires : Medium F} (hwires : wires.Wires top.routingInfo)
    {inRange : NodeId → NodeId → Bool} (hfar : top.VehiclesFar inRange) :
    (top.medium wires inRange).Wires top.routingInfo := by
  intro nodes n f
  rw [Topology.medium, h.oneRadio.radio_eq_nil hfar, List.append_nil]
  exact hwires nodes n f

theorem deployed (h : top.Backbone) {wires : Medium F} (hwires : wires.Wires top.routingInfo)
    {inRange : NodeId → NodeId → Bool} (hfar : top.VehiclesFar inRange) {data : Data F}
    {zor : ZoR F} (hz : extractZoR data.name = some zor) (hgeo : zor.IsGeographic)
    (hs : s ∈ top.routingInfo) (ingress : FaceId) :
    Net.Deployed top.install.infra (top.medium wires inRange) top.site data.name zor
      (top.entered s ingress data) where
  wires := h.wires hwires hfar
  zone := hz
  geographic := hgeo
  rsu := by
    intro n hn
    obtain ⟨node, hnode, hrsu, hstore⟩ := h.exists_rsu hn
    refine ⟨node, hnode, hrsu, ?_, ?_⟩
    · rw [hstore]
      exact List.not_mem_nil
    · rw [hstore]
      exact (by decide : 0 < 100)
  copies := by
    intro c hc
    obtain rfl := List.mem_singleton.mp hc
    exact ⟨rfl, hs⟩
  log := rfl

end Backbone

/-- How often the RSU `n` has broadcast the alert. -/
def broadcasts (top : Topology F) (net : Net F) (name : Name F) (n : NodeId) : ℕ :=
  (net.egressesOf n name).count (top.v2iFace n)

/-- What the copies `cs` of an alert that entered at `s` have brought about when `s` looks for
the destinations `D`. -/
structure Spreads (top : Topology F) (medium : Medium F) (s : NodeId) (D : DestinationNodes)
    (name : Name F) (cs : List (Copy F)) (net : Net F) : Prop where
  ends : cs.length ≤ top.nodes.length
  returns : ∀ c ∈ net.inFlight, ∀ t, ∃ net',
    Net.Step top.install.infra medium net (t, .deliver c) net'
  once : (cs.map Copy.dst ++ net.inFlight.map Copy.dst).Nodup
  atMostOnce : ∀ n, top.broadcasts net name n ≤ 1
  destination : ∀ n, top.broadcasts net name n ≠ 0 → n ∈ D
  complete : net.inFlight = [] → ∀ n ∈ D, WeightedDigraph.Reaches top.routingInfo.Link s n →
    top.broadcasts net name n = 1

theorem Backbone.spreads (h : top.Backbone) {wires : Medium F}
    (hwires : wires.Wires top.routingInfo) {inRange : NodeId → NodeId → Bool}
    (hfar : top.VehiclesFar inRange) {data : Data F} {zor : ZoR F}
    (hz : extractZoR data.name = some zor) (hgeo : zor.IsGeographic)
    (htag : data.destinationNodes = none) (hspec : top.active s = some spec)
    (hs : s ∈ top.routingInfo) {fuel : ℕ} {D : DestinationNodes}
    (hD : computeDestinationNodes fuel top.routingInfo top.positionInfo spec.txRadius s zor = .ok D)
    (hkeys : ∀ d ∈ D, d ∈ top.routingInfo) {ingress : FaceId} {cs : List (Copy F)} {net : Net F}
    (hrun : top.Delivers (top.medium wires inRange) (top.entered s ingress data) cs net) :
    top.Spreads (top.medium wires inRange) s D data.name cs net := by
  obtain ⟨dest, hfinds⟩ := Net.exists_finds top.install.infra top.site zor
  have hnet := h.deployed hwires hfar hz hgeo hs ingress
  have hG := h.routable
  have hpos : Positive top.routingInfo.Link := fun u v c hlink => by
    rw [(top.link_device hlink).1]
    exact one_pos
  obtain ⟨node, hnode, _⟩ := h.exists_rsu hs
  have hsite : (top.site s).txRadius = spec.txRadius := by
    rw [Backbone.site_eq hspec hnode]
  obtain rfl : D = dest s := hfinds.unique s fuel D (by rw [hsite]; exact hD)
  have hrun' : Run (fun net c net' => Net.Delivery top.install.infra (top.medium wires inRange)
      net c net' ∧ True) (top.entered s ingress data) cs net :=
    hrun.mono fun _ _ _ hstep => ⟨hstep, trivial⟩
  obtain ⟨st, hst, href⟩ := (hnet.refines dest).run (Q := fun _ _ => True) hG hnet.wires hfinds
    hz hgeo (fun _ _ _ _ _ _ => trivial) hrun'
  -- the entry was sent by no node, so the tree is that of the same token sent by one
  have hinit : (Multicast.State.relay ⟨(top.entered s ingress data).inFlight.map (Net.token dest),
      [], []⟩ : Multicast.State NodeId) = ⟨[⟨s, dest s, true⟩], [], []⟩ := by
    simp [Multicast.State.relay, Multicast.Token.relay, entered, Net.token, htag]
  have hrelay := Multicast.Run.relay (hst.mono fun _ _ _ hstep => hstep.1)
  rw [hinit] at hrelay
  have htree := Multicast.Tree.run hpos (fun x d c hhop => hhop.canonical hpos) hrelay
  have hvisited : st.visited = cs.map Copy.dst := by
    have hdsts := htree.visited
    simpa [Function.comp_def, Net.token] using hdsts
  have htokens : st.relay.tokens.map Multicast.Token.dst = net.inFlight.map Copy.dst := by
    simp [Multicast.State.relay, href.tokens, Function.comp_def, Net.token]
  have hcount : ∀ n, top.broadcasts net data.name n =
      (st.visited.filter fun x => x ∈ dest s).count n := by
    intro n
    have hserved := htree.served
    rw [Multicast.State.relay_served, Multicast.State.relay_visited] at hserved
    rw [← hserved, ← href.served n]
    rfl
  have hnodup := htree.nodup
  rw [htokens, Multicast.State.relay_visited, hvisited] at hnodup
  have hunique : (st.visited.filter fun x => x ∈ dest s).Nodup := by
    rw [hvisited]
    exact (List.nodup_append.mp hnodup).1.filter _
  refine ⟨?_, ?_, hnodup, ?_, ?_, ?_⟩
  · rw [← List.length_map Copy.dst]
    have hsub : cs.map Copy.dst ⊆ top.routingInfo.keys := by
      intro n hn
      obtain ⟨c, hc, rfl⟩ := List.mem_map.mp hn
      have hbelow := htree.below (Net.token dest c).relay
        (Or.inl (List.mem_map_of_mem (List.mem_map_of_mem hc)))
      exact AList.mem_keys.mp (hG.closed.reaches_mem hs hbelow.2.reaches)
    exact (List.subperm_of_subset (List.nodup_append.mp hnodup).1 hsub).length_le.trans
      top.keys_length
  · intro c hc t
    have hbelow := htree.below (Net.token dest c).relay
      (Or.inr (List.mem_map_of_mem (by rw [href.tokens]; exact List.mem_map_of_mem hc)))
    exact href.progress hG hfinds hz hgeo hc (fun d hd => hkeys d (hbelow.2.sub d hd)) _ t
  · intro n
    rw [hcount]
    exact List.nodup_iff_count_le_one.mp hunique n
  · intro n hn
    rw [hcount] at hn
    have hmem := List.count_pos_iff.mp (Nat.pos_of_ne_zero hn)
    simpa using (List.mem_filter.mp hmem).2
  · intro hdone n hn hreach
    have hempty : st.relay.tokens = [] := by
      rw [← List.map_eq_nil_iff (f := Multicast.Token.dst), htokens, hdone, List.map_nil]
    rw [hcount]
    refine List.count_eq_one_of_mem hunique (List.mem_filter.mpr ⟨?_, by simpa using hn⟩)
    exact htree.complete hpos hempty hn hreach

end Built

/-- What an alert for `zor` that entered at `s` has brought about after the deliveries `cs`. -/
structure ServesZone (top : Topology ℝ) (medium : Medium ℝ) (zor : ZoR ℝ) (s : NodeId)
    (txRadius : ℝ) (name : Name ℝ) (cs : List (Copy ℝ)) (net : Net ℝ) : Prop where
  ends : cs.length ≤ top.nodes.length
  returns : ∀ c ∈ net.inFlight, ∀ t, ∃ net',
    Net.Step top.install.infra medium net (t, .deliver c) net'
  once : (cs.map Copy.dst ++ net.inFlight.map Copy.dst).Nodup
  atMostOnce : ∀ n, top.broadcasts net name n ≤ 1
  covered : (∃ v, WeightedDigraph.Reaches top.routingInfo.Link s v ∧
      Covers top.positionInfo txRadius zor v) → ∀ n,
    (top.broadcasts net name n ≠ 0 → WeightedDigraph.Reaches top.routingInfo.Link s n ∧
      Covers top.positionInfo txRadius zor n) ∧
    (net.inFlight = [] → WeightedDigraph.Reaches top.routingInfo.Link s n →
      Covers top.positionInfo txRadius zor n → top.broadcasts net name n = 1)
  nearest : (∀ v, WeightedDigraph.Reaches top.routingInfo.Link s v →
      ¬ Covers top.positionInfo txRadius zor v) →
    ∃ v, IsNearest top.routingInfo top.positionInfo zor s v ∧
      (∀ n, top.broadcasts net name n ≠ 0 → n = v) ∧
      (net.inFlight = [] → top.broadcasts net name v = 1)

/-- The deliveries come to an end. -/
theorem exists_done {top : Topology ℝ} {medium : Medium ℝ} {zor : ZoR ℝ} {s : NodeId}
    {txRadius : ℝ} {name : Name ℝ} {net₀ : Net ℝ}
    (h : ∀ cs net, top.Delivers medium net₀ cs net →
      top.ServesZone medium zor s txRadius name cs net) :
    ∃ cs net, top.Delivers medium net₀ cs net ∧ net.inFlight = [] := by
  refine Run.exists_final top.nodes.length (fun cs net hrun => (h cs net hrun).ends) ?_
  intro cs net hrun hne
  obtain ⟨c, hc⟩ := List.exists_mem_of_ne_nil _ hne
  obtain ⟨net', hstep⟩ := (h cs net hrun).returns c hc 0
  exact ⟨c, net', 0, hstep⟩

theorem Backbone.servesZone {top : Topology ℝ} (h : top.Backbone) {wires : Medium ℝ}
    (hwires : wires.Wires top.routingInfo) {inRange : NodeId → NodeId → Bool}
    (hfar : top.VehiclesFar inRange) {data : Data ℝ} {zor : ZoR ℝ}
    (hz : extractZoR data.name = some zor) (hgeo : zor.IsGeographic)
    (htag : data.destinationNodes = none) {s : NodeId} {spec : NodeSpec ℝ}
    (hspec : top.active s = some spec) (hlinked : ∃ v, Device.pointToPoint v ∈ spec.devices)
    (hfound : top.Found zor s spec.txRadius) {ingress : FaceId} {cs : List (Copy ℝ)} {net : Net ℝ}
    (hrun : top.Delivers (top.medium wires inRange) (top.entered s ingress data) cs net) :
    top.ServesZone (top.medium wires inRange) zor s spec.txRadius data.name cs net := by
  obtain ⟨v, hv⟩ := hlinked
  have hs : s ∈ top.routingInfo := top.mem_of_active hspec hv
  obtain ⟨D, bound, hreturns, _⟩ := computeDestinationNodes_returns top.routingInfo
    top.positionInfo spec.txRadius s zor
  have hD := hreturns bound le_rfl
  have hDspec := (computeDestinationNodes_spec top.routingInfo top.positionInfo spec.txRadius s
    zor).2 bound D hD
  obtain ⟨_, hreaches, _⟩ := hDspec.of_found hfound (Topology.active_ne hspec)
  have hkeys : ∀ d ∈ D, d ∈ top.routingInfo :=
    fun d hd => h.routable.closed.reaches_mem hs (hreaches d hd).1
  have hspreads := h.spreads hwires hfar hz hgeo htag hspec hs hD hkeys hrun
  refine ⟨hspreads.ends, hspreads.returns, hspreads.once, hspreads.atMostOnce, ?_, ?_⟩
  · intro hcov n
    have hiff := hDspec.covered hcov n
    exact ⟨fun hn => hiff.mp (hspreads.destination n hn),
      fun hdone hn hcn => hspreads.complete hdone n (hiff.mpr ⟨hn, hcn⟩) hn⟩
  · intro hno
    obtain ⟨w, hw, hcov | ⟨dist, ⟨pos, hpos, _, rfl⟩, hlt⟩⟩ := hfound
    · exact absurd hcov (hno w hw)
    · obtain ⟨v, rfl, hnear⟩ := exists_isNearest hD hno ⟨w, pos, hw, hpos, hlt⟩
      exact ⟨v, hnear, fun n hn => List.mem_singleton.mp (hspreads.destination n hn),
        fun hdone => hspreads.complete hdone v (List.mem_singleton_self v) hnear.1⟩

end Topology

theorem Wired.medium_wires (G : Graph) : (Wired.medium G).Wires G := by
  intro nodes n f
  simp [medium, Function.comp_def]

namespace Built

noncomputable def alert : Data ℝ := ⟨[.zor zone], 100, none, none, none, 0⟩

/-- The channel between the two, and a radio in range of everything. -/
noncomputable def medium : Medium ℝ :=
  two.medium (Wired.medium two.routingInfo) fun _ _ => true

theorem extractZoR_alert : extractZoR alert.name = some zone := rfl

theorem two_backbone : two.Backbone where
  oneRadio := by
    intro n spec hspec _
    obtain ⟨hlook, _⟩ := Option.filter_eq_some_iff.mp hspec
    rcases List.mem_pair.mp (List.mem_of_getElem? hlook) with rfl | rfl <;> decide
  rsu := by
    intro n v spec hspec _
    obtain ⟨hlook, _⟩ := Option.filter_eq_some_iff.mp hspec
    rcases List.mem_pair.mp (List.mem_of_getElem? hlook) with rfl | rfl
    · exact ⟨rfl, by decide⟩
    · exact ⟨rfl, by decide⟩
  linked := by
    intro n v spec hspec hv
    obtain ⟨hlook, _⟩ := Option.filter_eq_some_iff.mp hspec
    rcases List.mem_pair.mp (List.mem_of_getElem? hlook) with rfl | rfl
    · obtain rfl : v = 1 := by simpa using hv
      exact Option.some_ne_none _
    · obtain rfl : v = 0 := by simpa using hv
      exact Option.some_ne_none _

theorem two_far (inRange : NodeId → NodeId → Bool) : two.VehiclesFar inRange := by
  intro n m spec _ hspec
  have hmem : spec ∈ two.nodes := by
    rcases hspec with hspec | hspec
    · exact List.mem_of_getElem? (Option.filter_eq_some_iff.mp hspec).1
    · exact List.mem_of_getElem? (Option.filter_eq_some_iff.mp hspec).1
  rcases List.mem_pair.mp hmem with rfl | rfl <;> decide

theorem two_reaches : WeightedDigraph.Reaches two.routingInfo.Link 1 0 := by
  have hactive : two.active 1 = some two.nodes[1] := rfl
  exact (WeightedDigraph.Reaches.refl 1).snoc (two.link_of_device hactive (by decide))

theorem zone_not_covered : ¬ Covers two.positionInfo 50 zone 1 := by
  rintro ⟨pos, hpos, hcov⟩
  obtain rfl : (⟨1000, 0⟩ : Point ℝ) = pos := Option.some.inj hpos
  have hdist : Point.distanceFromPoint (⟨1000, 0⟩ : Point ℝ) ⟨0, 0⟩ = 1000 := by
    rw [Point.distance_axis]
    norm_num
  norm_num [zone, ZoR.coveredBy, hdist] at hcov

end Built

end Cafe
