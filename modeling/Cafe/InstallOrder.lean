import Cafe.RoutingOrder

/-!
# The order of the installation

A script installs the stack on its nodes container by container. Each order
leaves the same nodes, links and positions behind, and an RSU treats each
alert the same way.
-/

open WeightedDigraph

namespace Cafe

open Destinations

variable {F : Type} [Arith F]

/-! ## One node -/

/-- The links of a node do not depend on those of the others. -/
theorem doInstall_links {G G' : Graph} {n : NodeId} (spec : NodeSpec F)
    (hlook : G.lookup n = G'.lookup n) :
    (doInstall G n spec).routingInfo.lookup n = (doInstall G' n spec).routingInfo.lookup n := by
  have hfold : ∀ (devices : List Device) (st st' : Stack F), st.node = st'.node →
      st.lastFaceId = st'.lastFaceId → st.routingInfo.lookup n = st'.routingInfo.lookup n →
      (devices.foldl Stack.createAndRegisterFace st).routingInfo.lookup n =
        (devices.foldl Stack.createAndRegisterFace st').routingInfo.lookup n := by
    intro devices
    induction devices with
    | nil => exact fun _ _ _ _ hlook => hlook
    | cons device devices ih =>
        intro st st' hnode hlast hlook
        obtain ⟨node, lastFaceId, G⟩ := st
        obtain ⟨node', lastFaceId', G'⟩ := st'
        obtain rfl : node = node' := hnode
        obtain rfl : lastFaceId = lastFaceId' := hlast
        cases device with
        | other => exact ih _ _ rfl rfl hlook
        | wifi =>
            refine ih _ _ ?_ ?_ ?_
            · simp only [Stack.createAndRegisterFace, Stack.wifiNetDeviceCallback]
              cases node.ctx.type <;> rfl
            · simp only [Stack.createAndRegisterFace, Stack.wifiNetDeviceCallback]
              cases node.ctx.type <;> rfl
            · simpa only [Stack.createAndRegisterFace, Stack.wifi_routingInfo] using hlook
        | pointToPoint remoteNodeId =>
            refine ih _ _ rfl rfl ?_
            simp only [Stack.createAndRegisterFace, Stack.pointToPointNetDeviceCallback,
              Stack.addFace, Stack.setContext, Graph.lookup_pushBack]
            split
            · rename_i heq
              rw [← heq, hlook]
            · exact hlook
  exact hfold spec.devices _ _ rfl rfl hlook

/-- What the tables hold for one node. -/
def Installed.entry (inst : Installed F) (n : NodeId) :
    Option (Node F) × Option (List Face) × Option (Point F) :=
  (inst.nodes.lookup n, inst.infra.routingInfo.lookup n, inst.infra.positionInfo.lookup n)

namespace Topology

variable (top : Topology F)

def ids : List NodeId := (List.range top.nodes.length).map UInt32.ofNat

/-- `StackHelper::Install` for the nodes of a container, in its order. -/
def installIn (order : List NodeId) : Installed F :=
  order.foldl (fun inst n =>
    match top.nodes[n.toNat]? with
    | some spec => inst.install n spec
    | none => inst) ⟨⟨∅, ∅⟩, ∅⟩

/-- What the installation leaves for one node: its stack, links and position. -/
def entry (n : NodeId) : Option (Node F) × Option (List Face) × Option (Point F) :=
  match top.active n with
  | none => (none, none, none)
  | some spec => (some (doInstall ∅ n spec).node, (doInstall ∅ n spec).routingInfo.lookup n,
      if spec.type = .rsu then spec.position else none)

/-- The tables after the nodes of `order`. -/
def Placed (order : List NodeId) (inst : Installed F) : Prop :=
  ∀ n, inst.entry n = if n ∈ order then top.entry n else (none, none, none)

variable {top} {order order' : List NodeId} {inst : Installed F}

theorem Placed.absent (h : top.Placed order inst) {n : NodeId} (hn : n ∉ order) :
    inst.Absent n := by
  have hentry := h n
  rw [if_neg hn] at hentry
  obtain ⟨hnode, hrest⟩ := Prod.mk.inj hentry
  obtain ⟨hlinks, hpos⟩ := Prod.mk.inj hrest
  exact ⟨hnode, hlinks, hpos⟩

/-- One node more. -/
theorem Placed.install (h : top.Placed order inst) {n : NodeId} (hn : n ∉ order)
    {spec : NodeSpec F} (hspec : top.nodes[n.toNat]? = some spec) :
    top.Placed (order ++ [n]) (inst.install n spec) := by
  have habsent := h.absent hn
  intro m
  by_cases hm : m = n
  · subst hm
    rw [if_pos (List.mem_append_right _ (List.mem_singleton_self m)), Topology.entry,
      Topology.active, hspec, Option.filter_some]
    by_cases hstatus : spec.status = .inactive
    · rw [if_neg (by simp [hstatus]), Installed.install, if_pos hstatus]
      simp only [Installed.entry, habsent.node, habsent.links, habsent.position]
    · rw [if_pos (by simp [hstatus]), Installed.install, if_neg hstatus]
      simp only [Installed.entry, AList.lookup_insert]
      have hempty : inst.infra.routingInfo.lookup m = (∅ : Graph).lookup m := habsent.links
      rw [doInstall_node _ ∅, doInstall_links spec hempty]
      refine congrArg _ (congrArg _ ?_)
      cases htype : spec.type with
      | rsu =>
          cases spec.position with
          | none => exact habsent.position
          | some pos => exact AList.lookup_insert _
      | _ => exact habsent.position
  · obtain ⟨hnodes, hlinks, hpos⟩ := Installed.install_ne inst habsent spec hm
    have hmem : m ∈ order ++ [n] ↔ m ∈ order := by simp [hm]
    rw [Installed.entry, hnodes, hlinks, hpos]
    simp only [hmem]
    exact h m

/-- Each node of the container is left as if it were installed alone. -/
theorem placed_installIn (hnodup : order.Nodup) : top.Placed order (top.installIn order) := by
  induction order using List.reverseRecOn with
  | nil => exact fun n => rfl
  | append_singleton order n ih =>
      obtain ⟨hnodup', _, hdisj⟩ := List.nodup_append.mp hnodup
      have hn : n ∉ order := fun hmem => hdisj n hmem n (List.mem_singleton_self n) rfl
      have hplaced := ih hnodup'
      rw [installIn, List.foldl_append, List.foldl_cons, List.foldl_nil, ← installIn]
      cases hspec : top.nodes[n.toNat]? with
      | some spec => exact hplaced.install hn hspec
      | none =>
          intro m
          rw [hplaced m]
          by_cases hm : m = n
          · have hactive : top.active m = none := by
              rw [active, hm, hspec]
              rfl
            rw [if_neg (hm ▸ hn), Topology.entry, hactive, ite_self]
          · simp [hm]

/-- The installation in the order of the ids. -/
theorem installIn_ids (top : Topology F) : top.installIn top.ids = top.install := by
  have hfold : ∀ (post pre : List (NodeSpec F)) (inst : Installed F), pre ++ post = top.nodes →
      ((List.range' pre.length post.length).map UInt32.ofNat).foldl (fun inst n =>
        match top.nodes[n.toNat]? with
        | some spec => inst.install n spec
        | none => inst) inst = (post.zipIdx pre.length).foldl
          (fun inst e => inst.install (UInt32.ofNat e.2) e.1) inst := by
    intro post
    induction post with
    | nil => exact fun _ _ _ => rfl
    | cons spec post ih =>
        intro pre inst hpre
        have hspec : top.nodes[(UInt32.ofNat pre.length).toNat]? = some spec := by
          have hlen := congrArg List.length hpre
          have hfits := top.fits
          rw [List.length_append, List.length_cons] at hlen
          rw [UInt32.toNat_ofNat', Nat.mod_eq_of_lt (by omega), ← hpre,
            List.getElem?_append_right le_rfl]
          simp
        have hnext := ih (pre ++ [spec]) (inst.install (UInt32.ofNat pre.length) spec)
          (by rw [List.append_assoc]; exact hpre)
        rw [List.length_append] at hnext
        rw [List.length_cons, List.range'_succ, List.map_cons, List.foldl_cons, hspec]
        exact hnext
  have hrange : top.ids = (List.range' 0 top.nodes.length).map UInt32.ofNat := by
    rw [ids, List.range_eq_range']
  rw [installIn, hrange]
  exact hfold top.nodes [] ⟨⟨∅, ∅⟩, ∅⟩ rfl

theorem ids_nodup (top : Topology F) : top.ids.Nodup := by
  refine List.Nodup.map_on (fun i hi j hj heq => ?_) List.nodup_range
  have hfits := top.fits
  have hi' := List.mem_range.mp hi
  have hj' := List.mem_range.mp hj
  have hnat := congrArg UInt32.toNat heq
  rw [UInt32.toNat_ofNat', UInt32.toNat_ofNat', Nat.mod_eq_of_lt (by omega),
    Nat.mod_eq_of_lt (by omega)] at hnat
  exact hnat

/-- Whatever the order, the tables hold the same for each node. -/
theorem entry_installIn (horder : order.Perm top.ids) (n : NodeId) :
    (top.installIn order).entry n = top.install.entry n := by
  rw [← top.installIn_ids, placed_installIn (horder.nodup_iff.mpr top.ids_nodup) n,
    placed_installIn top.ids_nodup n]
  simp only [horder.mem_iff]

end Topology

/-! ## The routing -/

section Routing

variable {infra infra' : Infrastructure F} {data : Data F} {node : Node F} {zor : ZoR F}

theorem compute_congr {rsuPositions rsuPositions' : NodePosition F} {txRadius : F}
    (hpos : ∀ n, rsuPositions.lookup n = rsuPositions'.lookup n) :
    compute rsuPositions txRadius zor = compute rsuPositions' txRadius zor := by
  funext b n
  rw [compute, hpos, ← compute]

/-- The search only looks tables up. -/
theorem computeDestinationNodes_congr {G G' : Graph} {rsuPositions rsuPositions' : NodePosition F}
    (hlook : ∀ n, G.lookup n = G'.lookup n)
    (hpos : ∀ n, rsuPositions.lookup n = rsuPositions'.lookup n) (fuel : ℕ) (txRadius : F)
    (s : NodeId) : computeDestinationNodes fuel G rsuPositions txRadius s zor =
      computeDestinationNodes fuel G' rsuPositions' txRadius s zor := by
  have hvisit : visit rsuPositions txRadius zor = visit rsuPositions' txRadius zor := by
    funext b n
    rw [visit, compute_congr hpos, ← visit]
  have hface : visitFace rsuPositions txRadius zor = visitFace rsuPositions' txRadius zor := by
    funext b face
    rw [visitFace, hvisit, ← visitFace]
  have hbfs : ∀ fuel b, bfs G rsuPositions txRadius zor fuel b =
      bfs G' rsuPositions' txRadius zor fuel b := by
    intro fuel
    induction fuel with
    | zero => exact fun _ => rfl
    | succ fuel ih =>
        intro b
        simp only [bfs, hlook, hface, ih]
  simp only [computeDestinationNodes, hvisit, hbfs]

theorem destinations_congr (hlook : ∀ n, infra.routingInfo.lookup n = infra'.routingInfo.lookup n)
    (hpos : ∀ n, infra.positionInfo.lookup n = infra'.positionInfo.lookup n) (fuel : ℕ) :
    destinations fuel infra data zor node = destinations fuel infra' data zor node := by
  unfold destinations
  rw [computeDestinationNodes_congr hlook hpos]

theorem Graph.Reordered.of_lookup {G G' : Graph} (hlook : ∀ n, G.lookup n = G'.lookup n) :
    G.Reordered G' where
  keys n := by rw [← AList.lookup_isSome, ← AList.lookup_isSome, hlook]
  faces n faces faces' hfaces hfaces' :=
    List.Perm.of_eq (Option.some.inj (hfaces.symm.trans ((hlook n).trans hfaces')))

omit [Arith F] in
theorem Data.Alike.refl (data : Data F) : data.Alike data := by
  refine ⟨rfl, ?_⟩
  cases data.destinationNodes with
  | none => exact .none
  | some dst => exact .some (List.Perm.refl dst)

end Routing

namespace Topology

variable {top : Topology F} {n : NodeId} {spec : NodeSpec F} {node : Node F} {zor : ZoR F}

theorem IsNode.hasFaces (h : top.IsNode n node) (hspec : top.active n = some spec) :
    node.HasFaces top.routingInfo where
  v2i := (h.reads hspec).v2iFace
  wired faces hfaces face hface := by
    rw [(h.reads hspec).nodeId] at hfaces
    exact ((h.reads hspec).faces faces hfaces face hface).1

/-- A search that finds an RSU yields keys of the graph. -/
theorem IsNode.exists_destinations (h : top.IsNode n node) (hspec : top.active n = some spec)
    (hn : n ∈ top.routingInfo) (hclosed : top.routingInfo.ClosedFrom n) {data : Data F}
    (htag : ∀ dst, data.destinationNodes = some dst → ∀ d ∈ dst, d ∈ top.routingInfo)
    (hfound : data.destinationNodes = none → top.Found zor n spec.txRadius) :
    ∃ dst bound, (∀ fuel, bound ≤ fuel →
      destinations fuel top.install.infra data zor node = .ok dst) ∧
        ∀ d ∈ dst, d ∈ top.routingInfo := by
  cases hS : data.destinationNodes with
  | some S => exact ⟨S, 0, fun fuel _ => by simp only [destinations, hS], htag S hS⟩
  | none =>
      obtain ⟨D, b, hb, _⟩ := computeDestinationNodes_returns top.routingInfo top.positionInfo
        spec.txRadius n zor
      refine ⟨D, b, fun fuel hfuel => (h.destinations_none hspec fuel hS).trans (hb fuel hfuel), ?_⟩
      have hD := (computeDestinationNodes_spec top.routingInfo top.positionInfo spec.txRadius n
        zor).2 b D (hb b le_rfl)
      intro d hd
      exact hclosed.mem hn ((hD.of_found (hfound hS) (active_ne hspec)).2.1 d hd).1

end Topology

/-- In whatever order the stack is installed on the nodes, each node has the same
stack, links and position. Where no two channels join the same nodes, an RSU
whose reachable nodes all have links does the same with each alert that has its
destinations or finds one: the order of the installation decides at most the
order of what it sends. -/
theorem install_order_independent (top : Topology F) {order : List NodeId}
    (horder : order.Perm top.ids) :
    (∀ n, (top.installIn order).entry n = top.install.entry n) ∧
    ∀ n spec node (data : Data F) zor, top.active n = some spec → top.IsNode n node →
      n ∈ top.routingInfo → top.routingInfo.ClosedFrom n → top.routingInfo.LinksDistinct →
      (∀ dst, data.destinationNodes = some dst → ∀ d ∈ dst, d ∈ top.routingInfo) →
      (data.destinationNodes = none → top.Found zor n spec.txRadius) →
      (∀ fuel fuel' o o', alertRsuHandler fuel top.install.infra data zor node = .ok o →
        alertRsuHandler fuel' (top.installIn order).infra data zor node = .ok o' → o.Same o') ∧
      ∃ bound, ∀ fuel, bound ≤ fuel → ∃ o o',
        alertRsuHandler fuel top.install.infra data zor node = .ok o ∧
          alertRsuHandler fuel (top.installIn order).infra data zor node = .ok o' := by
  have hentry := Topology.entry_installIn horder
  refine ⟨hentry, ?_⟩
  intro n spec node data zor hspec hnode hn hclosed hlinks htag hfound
  have hlook : ∀ m, top.routingInfo.lookup m = (top.installIn order).infra.routingInfo.lookup m :=
    fun m => (congrArg (fun e => e.2.1) (hentry m)).symm
  have hpos : ∀ m, top.positionInfo.lookup m = (top.installIn order).infra.positionInfo.lookup m :=
    fun m => (congrArg (fun e => e.2.2) (hentry m)).symm
  obtain ⟨dst, b, hb, hkeys⟩ := hnode.exists_destinations hspec hn hclosed htag hfound
  have hid := (hnode.reads hspec).nodeId
  refine handlers_same (Graph.Reordered.of_lookup hlook) (Data.Alike.refl data)
    (hnode.hasFaces hspec) ?_ hlinks top.faceIdsDistinct ⟨b, hb⟩ ⟨b, fun fuel hfuel => ?_⟩
    (List.Perm.refl dst) hkeys
  · rw [hid]
    exact ⟨hn, hclosed, top.undefined_notMem, top.noOverflow n⟩
  · rw [← destinations_congr hlook hpos]
    exact hb fuel hfuel

/-- Two RSUs, the second of them first. -/
theorem install_order_independent_two : ∃ node, Built.two.IsNode 0 node ∧
    (∃ bound, ∀ fuel, bound ≤ fuel → ∃ o o',
      alertRsuHandler fuel Built.two.install.infra Built.alert Built.zone node = .ok o ∧
        alertRsuHandler fuel (Built.two.installIn [1, 0]).infra Built.alert Built.zone node =
          .ok o' ∧ o.Same o') := by
  have hspec : Built.two.active 0 = some Built.two.nodes[0] := rfl
  obtain ⟨node, hbuilt⟩ := Built.two.built hspec
  obtain ⟨hn, hclosed⟩ := Topology.closedFrom_of_active hspec ⟨1, List.mem_cons_self⟩
    Built.two_active
  have horder : [1, 0].Perm Built.two.ids := by decide
  obtain ⟨hsame, bound, hreturns⟩ := (install_order_independent Built.two horder).2 0 _ node
    Built.alert Built.zone hspec ⟨node, hbuilt.lookup, rfl⟩ hn hclosed
    (Graph.linksDistinct (by decide)) (fun dst h => by cases h) fun _ => Built.two_found
  refine ⟨node, ⟨node, hbuilt.lookup, rfl⟩, bound, fun fuel hfuel => ?_⟩
  obtain ⟨o, o', ho, ho'⟩ := hreturns fuel hfuel
  exact ⟨o, o', ho, ho', hsame fuel fuel o o' ho ho'⟩

end Cafe
