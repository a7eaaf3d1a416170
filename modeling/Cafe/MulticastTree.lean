import Cafe.Backbone
import Cafe.MiraTermination

/-!
# One entry, one tree

An RSU gets an alert with its destinations. The copies that the RSUs forward
run down the canonical tree from the entry, although every RSU computes its
own shares.
-/

open Labelled WeightedDigraph

namespace Cafe

variable {F : Type} [Arith F]

instance wellFoundedLTUInt32 : WellFoundedLT UInt32 := ⟨InvImage.wf UInt32.toNat Nat.lt_wfRel.wf⟩

def Copy.share (c : Copy F) : DestinationNodes := c.data.destinationNodes.getD []

namespace Net

/-- What holds when the copies `cs` of an alert that entered at `s` for the
destinations `D` have been delivered. -/
structure RunsDownTree (infra : Infrastructure F) (medium : Medium F) (sites : NodeId → Site F)
    (name : Name F) (s : NodeId) (D : DestinationNodes) (cs : List (Copy F)) (net : Net F) :
    Prop where
  ends : cs.length ≤ infra.routingInfo.keys.length
  returns : ∀ c ∈ net.inFlight, ∀ t, ∃ net', Step infra medium net (t, .deliver c) net'
  once : (cs.map Copy.dst ++ net.inFlight.map Copy.dst).Nodup
  new : ∀ c ∈ net.inFlight, ∀ node, net.nodes c.dst = some node →
    ¬ node.ctx.alertStore.isDuplicate name
  tree : ∀ c ∈ cs ++ net.inFlight, ∀ d ∈ D, Reaches infra.routingInfo.Link s d →
    (d ∈ c.share ↔ OnPath infra.routingInfo.Link s c.dst d)
  arrives : net.inFlight = [] → ∀ d ∈ D, Reaches infra.routingInfo.Link s d →
    ∃ c, cs.filter (fun c => c.dst = d) = [c] ∧ d ∈ c.share
  broadcasts : net.inFlight = [] → ∀ d ∈ D, Reaches infra.routingInfo.Link s d →
    (net.egressesOf d name).count (sites d).v2i = 1
  others : ∀ n, n ∉ D → (net.egressesOf n name).count (sites n).v2i = 0

/-- An alert enters at `s` with the destinations `D`. -/
structure Enters (s : NodeId) (D : DestinationNodes) (net : Net F) : Prop where
  inFlight : ∃ c, net.inFlight = [c] ∧ c.dst = s ∧ c.data.destinationNodes = some D

section Tree

variable {infra : Infrastructure F} {medium : Medium F} {sites : NodeId → Site F} {name : Name F}
  {zor : ZoR F} {s : NodeId} {D : DestinationNodes} {net₀ net : Net F} {cs : List (Copy F)}
  {dest : NodeId → DestinationNodes} {st : Multicast.State NodeId}

omit [Arith F] in
/-- Every copy of the run carries its share. -/
theorem token_eq_share {c : Copy F} (h : (token dest c).relayed) : (token dest c).share =
    c.share := by
  obtain ⟨S, hS⟩ := Option.isSome_iff_exists.mp h
  simp [token, Copy.share, hS]

theorem runsDownTree (hD : ∀ d ∈ D, d ∈ infra.routingInfo) (hs : s ∈ infra.routingInfo)
    (hpos : Positive infra.routingInfo.Link) (hG : infra.routingInfo.Routable)
    (hfinds : Finds infra sites zor dest) (hz : extractZoR name = some zor)
    (hgeo : zor.IsGeographic) (h : Refines infra.routingInfo sites name dest net st)
    (htree : Multicast.Tree infra.routingInfo.Link s D (cs.map (token dest)) st) :
    RunsDownTree infra medium sites name s D cs net := by
  have hdsts : st.visited ++ st.tokens.map Multicast.Token.dst =
      cs.map Copy.dst ++ net.inFlight.map Copy.dst := by
    simp [htree.visited, h.tokens, Function.comp_def, token]
  have hbelow : ∀ c ∈ cs ++ net.inFlight, (token dest c).share = c.share ∧
      Multicast.Below infra.routingInfo.Link s D (token dest c) := by
    intro c hc
    have hrel : (token dest c).relayed ∧
        Multicast.Below infra.routingInfo.Link s D (token dest c) := by
      refine htree.below _ ?_
      rw [h.tokens]
      exact (List.mem_append.mp hc).imp List.mem_map_of_mem List.mem_map_of_mem
    exact ⟨token_eq_share hrel.1, hrel.2⟩
  have hcount : ∀ n, (net.egressesOf n name).count (sites n).v2i =
      (st.visited.filter fun x => x ∈ D).count n := by
    intro n
    rw [h.served, htree.served]
  have hvisited : st.visited.Nodup := (List.nodup_append.mp htree.nodup).1
  have hempty : net.inFlight = [] → st.tokens = [] := by
    intro hnil
    rw [h.tokens, hnil]
    rfl
  refine ⟨?_, ?_, ?_, ?_, ?_, ?_, ?_, ?_⟩
  · have hlen : st.visited.length = cs.length := by
      rw [htree.visited]
      simp
    rw [← hlen]
    refine (List.subperm_of_subset hvisited fun x hx => ?_).length_le
    rw [htree.visited, List.map_map] at hx
    obtain ⟨c, hc, rfl⟩ := List.mem_map.mp hx
    exact AList.mem_keys.mp (hG.closed.reaches_mem hs
      (hbelow c (List.mem_append_left _ hc)).2.reaches)
  · intro c hc t
    refine h.progress hG hfinds hz hgeo hc (fun d hd => hD d ?_) medium t
    exact (hbelow c (List.mem_append_right _ hc)).2.sub d hd
  · rw [← hdsts]
    exact htree.nodup
  · intro c hc node hnode
    obtain ⟨node', hnode', _, hdup, _⟩ := h.rsu c.dst (h.copies c hc).2
    obtain rfl := Option.some.inj (hnode.symm.trans hnode')
    rw [hdup]
    refine htree.not_visited (t := token dest c) ?_
    rw [h.tokens]
    exact List.mem_map_of_mem hc
  · intro c hc d hd hreach
    obtain ⟨hshare, hb⟩ := hbelow c hc
    rw [← hshare]
    exact hb.mem_iff d hd hreach
  · intro hnil d hd hreach
    have hdv := htree.complete hpos (hempty hnil) hd hreach
    obtain ⟨c, hc, rfl⟩ : ∃ c ∈ cs, c.dst = d := by
      rw [htree.visited, List.map_map] at hdv
      simpa [token] using hdv
    have hkeys : (cs.map Copy.dst).Nodup := by
      have := hvisited
      rwa [htree.visited, List.map_map] at this
    refine ⟨c, Multicast.filter_key_eq hkeys hc, ?_⟩
    obtain ⟨hshare, hb⟩ := hbelow c (List.mem_append_left _ hc)
    rw [← hshare]
    exact (hb.mem_iff c.dst hd hreach).mpr (OnPath.refl s c.dst)
  · intro hnil d hd hreach
    rw [hcount]
    exact List.count_eq_one_of_mem (hvisited.filter _)
      (List.mem_filter.mpr ⟨htree.complete hpos (hempty hnil) hd hreach, by simpa using hd⟩)
  · intro n hn
    rw [hcount]
    exact List.count_eq_zero_of_not_mem fun hmem => hn (by simpa using (List.mem_filter.mp hmem).2)

end Tree

end Net

/-- An alert that enters at one RSU reaches each destination behind it once. -/
theorem multicast_tree {infra : Infrastructure F} {medium : Medium F} {sites : NodeId → Site F}
    {name : Name F} {zor : ZoR F} {s : NodeId} {D : DestinationNodes} {net₀ net : Net F}
    {cs : List (Copy F)} (hG : infra.routingInfo.Routable)
    (hpos : Positive infra.routingInfo.Link)
    (hnet : Net.Deployed infra medium sites name zor net₀) (henters : net₀.Enters s D)
    (hD : ∀ d ∈ D, d ∈ infra.routingInfo)
    (hrun : Run (Net.Delivery infra medium) net₀ cs net) :
    Net.RunsDownTree infra medium sites name s D cs net := by
  obtain ⟨dest, hfinds⟩ := Net.exists_finds infra sites zor
  obtain ⟨c, hflight, rfl, htag⟩ := henters.inFlight
  have hs : c.dst ∈ infra.routingInfo := (hnet.copies c (by simp [hflight])).2
  have hrun' : Run (fun net c net' => Net.Delivery infra medium net c net' ∧ True) net₀ cs net :=
    hrun.mono fun _ _ _ h => ⟨h, trivial⟩
  obtain ⟨st, hst, href⟩ := (hnet.refines dest).run (Q := fun _ _ => True) hG hnet.wires hfinds
    hnet.zone hnet.geographic (fun _ _ _ _ _ _ => trivial) hrun'
  have hinit : net₀.inFlight.map (Net.token dest) = [⟨c.dst, D, true⟩] := by
    simp [hflight, Net.token, htag]
  rw [hinit] at hst
  have htree := Multicast.Tree.run hpos (fun x d c h => h.canonical hpos)
    (hst.mono fun _ _ _ h => h.1)
  exact Net.runsDownTree hD hs hpos hG hfinds hnet.zone hnet.geographic href htree

namespace Wired

def entry (n : NodeId) (D : DestinationNodes) : Copy ℝ :=
  ⟨n, 256, ⟨name, 100, none, none, some D, 0⟩, 0⟩

theorem enters (infra : Infrastructure ℝ) (n : NodeId) (D : DestinationNodes) :
    (state infra [] [entry n D] []).Enters n D := ⟨entry n D, rfl, rfl, rfl⟩

end Wired

theorem multicast_tree_two : ∃ cs net,
    Run (Net.Delivery ⟨Wired.pair, ∅⟩ (Wired.medium Wired.pair))
      (Wired.state ⟨Wired.pair, ∅⟩ [] [Wired.entry 0 [0, 1]] []) cs net ∧ net.inFlight = [] ∧
    Net.RunsDownTree ⟨Wired.pair, ∅⟩ (Wired.medium Wired.pair) (fun _ => Wired.site)
      Wired.name 0 [0, 1] cs net := by
  have hpos : Positive Wired.pair.Link := Graph.forall_links (P := fun _ _ c => 0 < c) (by decide)
  have hnet : Net.Deployed ⟨Wired.pair, ∅⟩ (Wired.medium Wired.pair) (fun _ => Wired.site)
      Wired.name Pair.zone (Wired.state ⟨Wired.pair, ∅⟩ [] [Wired.entry 0 [0, 1]] []) := by
    refine Wired.deployed (by decide) fun c hc => ?_
    obtain rfl := List.mem_singleton.mp hc
    exact ⟨rfl, by decide⟩
  have htree : ∀ cs net, Run (Net.Delivery ⟨Wired.pair, ∅⟩ (Wired.medium Wired.pair))
      (Wired.state ⟨Wired.pair, ∅⟩ [] [Wired.entry 0 [0, 1]] []) cs net →
      Net.RunsDownTree ⟨Wired.pair, ∅⟩ (Wired.medium Wired.pair) (fun _ => Wired.site)
        Wired.name 0 [0, 1] cs net := fun _ _ hrun =>
    multicast_tree Wired.pair_routable hpos hnet (Wired.enters _ 0 [0, 1])
      (List.all_iff_forall_prop.mp (by decide)) hrun
  obtain ⟨cs, net, hrun, hdone⟩ := Run.exists_final (P := fun net : Net ℝ => net.inFlight = []) 2
    (fun cs net hrun => (htree cs net hrun).ends) (by
      intro cs net hrun hne
      obtain ⟨c, hc⟩ := List.exists_mem_of_ne_nil _ hne
      obtain ⟨net', hstep⟩ := (htree cs net hrun).returns c hc 0
      exact ⟨c, net', 0, hstep⟩)
  exact ⟨cs, net, hrun, hdone, htree cs net hrun⟩

namespace Wrap

theorem mira_fails {infra : Infrastructure ℝ} (hinfra : infra.routingInfo = graph) {data : Data ℝ}
    (hD : data.destinationNodes = some [1]) {zor : ZoR ℝ} {node : Node ℝ} (hid : node.nodeId = 0)
    (hnew : ¬ node.ctx.alertStore.isDuplicate data.name) {fuel : ℕ} {o : Outcome ℝ} :
    ¬ RsuCase fuel infra data zor node o := by
  intro h
  cases h with
  | duplicate hdup => exact hnew hdup
  | new dst rest sent wired _ hdst hbroad hwired =>
      obtain rfl : [1] = dst := by
        simp only [destinations, hD] at hdst
        exact Except.ok.inj hdst
      cases hbroad with
      | sends hmem _ _ => simp [hid] at hmem
      | passes _ =>
          cases hwired with
          | empty hemp => cases hemp
          | shares entries _ hmira _ =>
              rw [hinfra, hid] at hmira
              exact mira_never_returns fuel entries hmira

end Wrap

theorem multicast_overflow : ∃ (infra : Infrastructure ℝ) (medium : Medium ℝ)
    (sites : NodeId → Site ℝ) (name : Name ℝ) (zor : ZoR ℝ) (s : NodeId) (D : DestinationNodes)
    (net : Net ℝ) (c : Copy ℝ),
    (infra.routingInfo.Closed ∧ Mira.undefinedNode ∉ infra.routingInfo ∧
      infra.routingInfo.FaceIdsDistinct ∧ Positive infra.routingInfo.Link ∧
      ∀ n ∈ infra.routingInfo, ∀ vs v k, Walk infra.routingInfo.Link n vs v k → vs.Nodup →
        k < 4294967295) ∧
    Net.Deployed infra medium sites name zor net ∧ net.Enters s D ∧
    (∀ d ∈ D, d ∈ infra.routingInfo ∧ Reaches infra.routingInfo.Link s d) ∧
    net.inFlight = [c] ∧ ∀ net', ¬ Net.Delivery infra medium net c net' := by
  have hclosed : Wrap.graph.Closed :=
    Graph.forall_faces (P := fun _ face => face.remoteNodeId ∈ Wrap.graph) (by decide)
  have hdistinct : Wrap.graph.FaceIdsDistinct := Graph.faceIdsDistinct (by decide)
  have hpos : Positive Wrap.graph.Link := Graph.forall_links (P := fun _ _ c => 0 < c) (by decide)
  have hlink : Wrap.graph.Link 0 1 5 := ⟨_, rfl, _, List.mem_singleton_self _, rfl, rfl⟩
  refine ⟨⟨Wrap.graph, ∅⟩, Wired.medium Wrap.graph, fun _ => Wired.site, Wired.name,
    Pair.zone, 0, [1], Wired.state ⟨Wrap.graph, ∅⟩ [] [Wired.entry 0 [1]] [], Wired.entry 0 [1],
    ⟨hclosed, by decide, hdistinct, hpos, Wrap.simple_paths⟩, ?_, Wired.enters _ 0 [1], ?_, rfl, ?_⟩
  · refine Wired.deployed (by decide) fun c hc => ?_
    obtain rfl := List.mem_singleton.mp hc
    exact ⟨rfl, by decide⟩
  · intro d hd
    obtain rfl := List.mem_singleton.mp hd
    exact ⟨by decide, (Reaches.refl 0).snoc hlink⟩
  · rintro net' ⟨t, hstep⟩
    cases hstep with
    | @deliver _ _ _ _ node _ _ hnode hhandles =>
        obtain rfl : Wired.rsu ⟨Wrap.graph, ∅⟩ 0 = node :=
          Option.some.inj ((Wired.state_nodes (by decide) List.not_mem_nil).symm.trans hnode)
        obtain ⟨fuel, hcase⟩ := hhandles.rsuCase rfl rfl trivial
        exact Wrap.mira_fails rfl rfl rfl (Wired.rsu_new _ 0) hcase

end Cafe
