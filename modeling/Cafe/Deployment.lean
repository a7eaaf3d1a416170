import Cafe.AtMostOnce

/-!
# Built deployments

The helpers install the stack on every node that is not inactive. Each
device of such a node gets its faces; a point-to-point device adds a link
of cost 1 to the graph, and an RSU with a mobility model gets a position.
The far end of a link may belong to a node without a stack.
-/

open WeightedDigraph

namespace Cafe

variable {F : Type} [Arith F]

inductive Device
  | pointToPoint (remoteNodeId : NodeId)
  | wifi
  | other
  deriving DecidableEq, Repr

/-- A node before the stack is installed. -/
structure NodeSpec (F : Type) where
  type : NodeType
  status : NodeStatus
  position : Option (Point F)
  txRadius : F
  devices : List Device

def devicesOf (nodes : List (NodeSpec F)) (n : NodeId) : List Device :=
  ((nodes[n.toNat]?).map NodeSpec.devices).getD []

/-- The nodes by their ids. Each point-to-point channel has a device at both
ends. -/
structure Topology (F : Type) [Arith F] where
  nodes : List (NodeSpec F)
  fits : nodes.length < 4294967295
  paired : ∀ a b, (devicesOf nodes a).count (.pointToPoint b) =
    (devicesOf nodes b).count (.pointToPoint a)

/-- `(*G)[fromNodeId].push_back(face)` -/
def Graph.pushBack (G : Graph) (fromNodeId : NodeId) (face : Face) : Graph :=
  AList.insert fromNodeId ((G.lookup fromNodeId).getD [] ++ [face]) G

/-- A node while its faces are created, and the graph of all nodes. -/
structure Stack (F : Type) [Arith F] where
  node : Node F
  lastFaceId : FaceId
  routingInfo : Graph

namespace Stack

/-- The face table numbers the faces in the order of their creation. -/
def addFace (st : Stack F) : Stack F :=
  { st with
    node := { st.node with faceTable := st.node.faceTable ++ [⟨st.lastFaceId + 1, .nonLocal⟩] }
    lastFaceId := st.lastFaceId + 1 }

/-- `ctx->SetFaceIdContext(face->getId(), context)` for the last face. -/
def setContext (st : Stack F) (context : FaceContext) : Stack F :=
  { st with
    node := { st.node with ctx := st.node.ctx.setFaceIdContext st.lastFaceId context } }

def defaultNetDeviceCallback (st : Stack F) : Stack F := st.addFace

def wifiNetDeviceCallback (st : Stack F) : Stack F :=
  match st.node.ctx.type with
  | .none => st.defaultNetDeviceCallback
  | .backbone => st.defaultNetDeviceCallback
  | .vehicle => ((st.addFace.setContext .v2v).addFace).setContext .v2i
  | .rsu => st.addFace.setContext .v2i

def pointToPointNetDeviceCallback (toNodeId : NodeId) (st : Stack F) : Stack F :=
  let st' := st.addFace.setContext (.p2p st.node.nodeId toNodeId)
  { st' with
    routingInfo := st'.routingInfo.pushBack st.node.nodeId ⟨st'.lastFaceId, toNodeId, 1⟩ }

def createAndRegisterFace (st : Stack F) : Device → Stack F
  | .pointToPoint remoteNodeId => st.pointToPointNetDeviceCallback remoteNodeId
  | .wifi => st.wifiNetDeviceCallback
  | .other => st.defaultNetDeviceCallback

end Stack

/-- A node with its context aggregated. -/
def NodeSpec.start (spec : NodeSpec F) (n : NodeId) : Node F where
  nodeId := n
  mobility := spec.position
  ctx := { Context.init F with type := spec.type, status := spec.status, txRadius := spec.txRadius }
  faceTable := []
  events := []
  nextEvent := 0

def doInstall (routingInfo : Graph) (n : NodeId) (spec : NodeSpec F) : Stack F :=
  spec.devices.foldl Stack.createAndRegisterFace ⟨spec.start n, 255, routingInfo⟩

/-- The graph, the positions and the nodes with a stack. -/
structure Installed (F : Type) [Arith F] where
  infra : Infrastructure F
  nodes : UnorderedMap NodeId (Node F)

/-- `StackHelper::Install` for one node, with `SetupRSU`. -/
def Installed.install (inst : Installed F) (n : NodeId) (spec : NodeSpec F) : Installed F :=
  if spec.status = .inactive then
    inst
  else
    let st := doInstall inst.infra.routingInfo n spec
    { infra :=
        { routingInfo := st.routingInfo
          positionInfo :=
            match spec.type, spec.position with
            | .rsu, some pos => AList.insert n pos inst.infra.positionInfo
            | _, _ => inst.infra.positionInfo }
      nodes := AList.insert n st.node inst.nodes }

/-- `StackHelper::Install` for all nodes. -/
def Topology.install (top : Topology F) : Installed F :=
  top.nodes.zipIdx.foldl (fun inst e => inst.install (UInt32.ofNat e.2) e.1) ⟨⟨∅, ∅⟩, ∅⟩

/-! ## The faces of one node -/

theorem Graph.lookup_pushBack (G : Graph) (n m : NodeId) (face : Face) :
    (G.pushBack n face).lookup m =
      if m = n then some ((G.lookup n).getD [] ++ [face]) else G.lookup m := by
  unfold pushBack
  by_cases hm : m = n
  · rw [if_pos hm, hm, AList.lookup_insert]
  · rw [if_neg hm, AList.lookup_insert_ne hm]

namespace Stack

def links (n : NodeId) (st : Stack F) : List Face := (st.routingInfo.lookup n).getD []

/-- What holds of the node `n` after any of its devices: its faces have ids
of their own, and the V2I face is none of those in the graph. -/
structure Wf (G₀ : Graph) (n : NodeId) (start : Node F) (st : Stack F) : Prop where
  nodeId : start.nodeId = n
  frame : st.node = { start with
    faceTable := st.node.faceTable
    ctx := { start.ctx with faceContextMap := st.node.ctx.faceContextMap } }
  reserved : 255 ≤ st.lastFaceId
  table : ∀ f, f ∈ st.node.faceTable.map NfdFace.faceId ↔ 255 < f ∧ f ≤ st.lastFaceId
  contexts : ∀ e ∈ st.node.ctx.faceContextMap, 255 < e.1 ∧ e.1 ≤ st.lastFaceId
  linkIds : ∀ face ∈ st.links n, 255 < face.faceId ∧ face.faceId ≤ st.lastFaceId
  cost : ∀ face ∈ st.links n, face.linkCost = 1
  nodup : ((st.links n).map Face.faceId).Nodup
  apart : ∀ face ∈ st.links n, ∀ e ∈ st.node.ctx.faceContextMap, e.2 = .v2i → e.1 ≠ face.faceId
  others : ∀ m, m ≠ n → st.routingInfo.lookup m = G₀.lookup m

variable {G₀ : Graph} {n : NodeId} {start : Node F} {st : Stack F}

theorem Wf.addFace (h : st.Wf G₀ n start) : st.addFace.Wf G₀ n start where
  nodeId := h.nodeId
  frame := by
    conv_lhs => rw [Stack.addFace, h.frame]
    rfl
  reserved := Nat.le_succ_of_le h.reserved
  table := by
    intro f
    simp only [Stack.addFace, List.map_append, List.mem_append, h.table f, List.map_cons,
      List.map_nil, List.mem_singleton]
    constructor
    · rintro (⟨hlt, hle⟩ | rfl)
      · exact ⟨hlt, Nat.le_succ_of_le hle⟩
      · exact ⟨Nat.lt_succ_of_le h.reserved, le_rfl⟩
    · rintro ⟨hlt, hle⟩
      exact (Nat.le_succ_iff.mp hle).imp_left fun hle => ⟨hlt, hle⟩
  contexts := fun e he => ⟨(h.contexts e he).1, Nat.le_succ_of_le (h.contexts e he).2⟩
  linkIds := fun face hf => ⟨(h.linkIds face hf).1, Nat.le_succ_of_le (h.linkIds face hf).2⟩
  cost := h.cost
  nodup := h.nodup
  apart := h.apart
  others := h.others

/-- The face just added is none of those in the graph. -/
theorem Wf.addFace_fresh (h : st.Wf G₀ n start) :
    ∀ face ∈ st.addFace.links n, face.faceId ≠ st.addFace.lastFaceId := by
  intro face hf
  exact Nat.ne_of_lt (Nat.lt_succ_of_le (h.linkIds face hf).2)

theorem mem_setContext {context : FaceContext} {e : FaceId × FaceContext}
    (he : e ∈ (st.setContext context).node.ctx.faceContextMap) :
    e ∈ st.node.ctx.faceContextMap ∨ e = (st.lastFaceId, context) := by
  simp only [setContext, Context.setFaceIdContext] at he
  split at he
  · exact Or.inl he
  · exact (List.mem_cons.mp he).symm

theorem Wf.setContext (h : st.Wf G₀ n start) {context : FaceContext} (hlast : 255 < st.lastFaceId)
    (hfresh : context = .v2i → ∀ face ∈ st.links n, face.faceId ≠ st.lastFaceId) :
    (st.setContext context).Wf G₀ n start where
  nodeId := h.nodeId
  frame := by
    conv_lhs => rw [Stack.setContext, h.frame]
    simp only [Stack.setContext, Context.setFaceIdContext]
    split <;> rfl
  reserved := h.reserved
  table := h.table
  contexts := by
    intro e he
    rcases mem_setContext he with he | rfl
    · exact h.contexts e he
    · exact ⟨hlast, le_rfl⟩
  linkIds := h.linkIds
  cost := h.cost
  nodup := h.nodup
  apart := by
    intro face hf e he hv2i
    rcases mem_setContext he with he | rfl
    · exact h.apart face hf e he hv2i
    · exact (hfresh hv2i face hf).symm
  others := h.others

def pushLink (n toNodeId : NodeId) (st : Stack F) : Stack F :=
  { st with routingInfo := st.routingInfo.pushBack n ⟨st.lastFaceId, toNodeId, 1⟩ }

theorem links_pushLink (n toNodeId : NodeId) (st : Stack F) :
    (st.pushLink n toNodeId).links n = st.links n ++ [⟨st.lastFaceId, toNodeId, 1⟩] := by
  simp [links, pushLink, Graph.lookup_pushBack]

theorem Wf.pushLink (h : st.Wf G₀ n start) (toNodeId : NodeId) (hlast : 255 < st.lastFaceId)
    (hfresh : ∀ face ∈ st.links n, face.faceId ≠ st.lastFaceId)
    (hnot : ∀ e ∈ st.node.ctx.faceContextMap, e.2 = .v2i → e.1 ≠ st.lastFaceId) :
    (st.pushLink n toNodeId).Wf G₀ n start := by
  have hlinks := links_pushLink n toNodeId st
  have hmem : ∀ face ∈ (st.pushLink n toNodeId).links n,
      face ∈ st.links n ∨ face = ⟨st.lastFaceId, toNodeId, 1⟩ := by
    intro face hf
    rw [hlinks] at hf
    exact (List.mem_append.mp hf).imp_right List.mem_singleton.mp
  refine ⟨h.nodeId, h.frame, h.reserved, h.table, h.contexts, fun face hf => ?_, fun face hf => ?_,
    ?_, fun face hf => ?_, fun m hm => ?_⟩
  · rcases hmem face hf with hf | rfl
    · exact h.linkIds face hf
    · exact ⟨hlast, le_rfl⟩
  · rcases hmem face hf with hf | rfl
    · exact h.cost face hf
    · rfl
  · rw [hlinks, List.map_append, List.nodup_append]
    refine ⟨h.nodup, List.nodup_singleton _, ?_⟩
    intro f hf f' hf' heq
    obtain ⟨face, hface, rfl⟩ := List.mem_map.mp hf
    obtain rfl := List.mem_singleton.mp hf'
    exact hfresh face hface heq
  · rcases hmem face hf with hf | rfl
    · exact h.apart face hf
    · exact hnot
  · exact (Graph.lookup_pushBack _ _ _ _).trans ((if_neg hm).trans (h.others m hm))

theorem Wf.pointToPoint (h : st.Wf G₀ n start) (toNodeId : NodeId) :
    st.pointToPointNetDeviceCallback toNodeId =
      (st.addFace.setContext (.p2p n toNodeId)).pushLink n toNodeId ∧
    (st.pointToPointNetDeviceCallback toNodeId).Wf G₀ n start := by
  have hid : st.node.nodeId = n := by
    rw [h.frame]
    exact h.nodeId
  have heq : st.pointToPointNetDeviceCallback toNodeId =
      (st.addFace.setContext (.p2p n toNodeId)).pushLink n toNodeId := by
    rw [← hid]
    rfl
  refine ⟨heq, ?_⟩
  rw [heq]
  have hlast : 255 < st.addFace.lastFaceId := Nat.lt_succ_of_le h.reserved
  have hset : (st.addFace.setContext (.p2p n toNodeId)).Wf G₀ n start :=
    h.addFace.setContext hlast (by simp)
  refine hset.pushLink toNodeId hlast h.addFace_fresh ?_
  intro e he hv2i
  rcases mem_setContext he with he | rfl
  · exact Nat.ne_of_lt (Nat.lt_succ_of_le (h.contexts e he).2)
  · cases hv2i

theorem Wf.wifi (h : st.Wf G₀ n start) : st.wifiNetDeviceCallback.Wf G₀ n start := by
  have hlast : ∀ st : Stack F, st.Wf G₀ n start → 255 < st.addFace.lastFaceId :=
    fun st h => Nat.lt_succ_of_le h.reserved
  unfold wifiNetDeviceCallback
  split
  · exact h.addFace
  · exact h.addFace
  · have hv2v : (st.addFace.setContext .v2v).Wf G₀ n start :=
      h.addFace.setContext (hlast st h) (by simp)
    exact hv2v.addFace.setContext (hlast _ hv2v) fun _ => hv2v.addFace_fresh
  · exact h.addFace.setContext (hlast st h) fun _ => h.addFace_fresh

theorem Wf.createAndRegisterFace (h : st.Wf G₀ n start) (device : Device) :
    (st.createAndRegisterFace device).Wf G₀ n start := by
  cases device with
  | pointToPoint remoteNodeId => exact (h.pointToPoint remoteNodeId).2
  | wifi => exact h.wifi
  | other => exact h.addFace

/-- The links and the V2I face come from the devices. -/
structure Seen (n : NodeId) (devices : List Device) (st : Stack F) : Prop where
  remotes : (st.links n).map Face.remoteNodeId = devices.filterMap fun
    | .pointToPoint remoteNodeId => some remoteNodeId
    | _ => none
  key : st.routingInfo.lookup n = none ↔ ∀ v, Device.pointToPoint v ∉ devices
  v2i : st.node.ctx.type = .rsu →
    ((∃ e ∈ st.node.ctx.faceContextMap, e.2 = .v2i) ↔ Device.wifi ∈ devices)

theorem exists_setContext (st : Stack F) (context context' : FaceContext) :
    (∃ e ∈ (st.setContext context).node.ctx.faceContextMap, e.2 = context') →
      context' = context ∨ ∃ e ∈ st.node.ctx.faceContextMap, e.2 = context' := by
  rintro ⟨e, he, rfl⟩
  rcases mem_setContext he with he | rfl
  · exact Or.inr ⟨e, he, rfl⟩
  · exact Or.inl rfl

/-- A face that is new gets its context, unless another face has it. -/
theorem setContext_of_fresh (st : Stack F) (context : FaceContext)
    (hfresh : ∀ e ∈ st.node.ctx.faceContextMap, e.1 ≠ st.lastFaceId) :
    ∃ e ∈ (st.setContext context).node.ctx.faceContextMap, e.2 = context := by
  simp only [setContext, Context.setFaceIdContext]
  split
  · rename_i hany
    obtain ⟨e, he, hor⟩ := List.any_eq_true.mp hany
    exact ⟨e, he, (of_decide_eq_true hor).resolve_left (hfresh e he)⟩
  · exact ⟨_, List.mem_cons_self, rfl⟩

theorem setContext_subset (st : Stack F) (context : FaceContext) :
    st.node.ctx.faceContextMap ⊆ (st.setContext context).node.ctx.faceContextMap := by
  simp only [setContext, Context.setFaceIdContext]
  split
  · exact List.Subset.refl _
  · exact List.subset_cons_self _ _

theorem Wf.type_eq (h : st.Wf G₀ n start) : st.node.ctx.type = start.ctx.type := by
  rw [h.frame]

theorem wifi_routingInfo (st : Stack F) :
    st.wifiNetDeviceCallback.routingInfo = st.routingInfo := by
  unfold wifiNetDeviceCallback
  split <;> rfl

/-- A device that is no end of a channel leaves the graph alone. -/
theorem Seen.of_routingInfo {devices : List Device} (hs : st.Seen n devices) {st' : Stack F}
    {device : Device} (hdevice : ∀ v, device ≠ .pointToPoint v)
    (hinfo : st'.routingInfo = st.routingInfo)
    (hv2i : st'.node.ctx.type = .rsu → ((∃ e ∈ st'.node.ctx.faceContextMap, e.2 = .v2i) ↔
      Device.wifi ∈ devices ++ [device])) : st'.Seen n (devices ++ [device]) where
  remotes := by
    have hnone : [device].filterMap (fun
        | .pointToPoint remoteNodeId => some remoteNodeId
        | _ => none) = [] := by
      cases device with
      | pointToPoint v => exact absurd rfl (hdevice v)
      | wifi => rfl
      | other => rfl
    rw [List.filterMap_append, hnone, List.append_nil, ← hs.remotes, links, links, hinfo]
  key := by
    rw [hinfo, hs.key]
    simp [fun v => (hdevice v).symm]
  v2i := hv2i

theorem Seen.createAndRegisterFace {devices : List Device} (hs : st.Seen n devices)
    (h : st.Wf G₀ n start) (device : Device) :
    (st.createAndRegisterFace device).Seen n (devices ++ [device]) := by
  have htype : (st.createAndRegisterFace device).node.ctx.type = st.node.ctx.type :=
    (h.createAndRegisterFace device).type_eq.trans h.type_eq.symm
  cases device with
  | pointToPoint remoteNodeId =>
      rw [Stack.createAndRegisterFace, (h.pointToPoint remoteNodeId).1] at htype ⊢
      constructor
      · rw [links_pushLink, List.map_append, List.filterMap_append]
        exact congrArg (· ++ [remoteNodeId]) hs.remotes
      · constructor
        · intro hnone
          simp [pushLink, Graph.lookup_pushBack] at hnone
        · intro hno
          exact absurd (by simp) (hno remoteNodeId)
      · intro hr
        rw [List.mem_append, ← hs.v2i (htype.symm.trans hr)]
        constructor
        · intro hex
          rcases exists_setContext _ _ _ hex with heq | hex
          · cases heq
          · exact Or.inl hex
        · rintro (⟨e, he, hv⟩ | hmem)
          · exact ⟨e, setContext_subset _ _ he, hv⟩
          · simp at hmem
  | wifi =>
      refine hs.of_routingInfo nofun (wifi_routingInfo st) fun hr => ?_
      have hrsu : st.node.ctx.type = .rsu := htype.symm.trans hr
      have hset : st.wifiNetDeviceCallback = st.addFace.setContext .v2i := by
        simp only [wifiNetDeviceCallback, hrsu]
      simp only [Stack.createAndRegisterFace, hset, List.mem_append, List.mem_singleton,
        or_true, iff_true]
      exact setContext_of_fresh _ _ fun e he => Nat.ne_of_lt (Nat.lt_succ_of_le (h.contexts e he).2)
  | other =>
      refine hs.of_routingInfo nofun rfl fun hr => ?_
      rw [List.mem_append, ← hs.v2i (htype.symm.trans hr)]
      simp [Stack.createAndRegisterFace, defaultNetDeviceCallback, addFace]

end Stack

theorem doInstall_spec {G₀ : Graph} {n : NodeId} (hn : n ∉ G₀) (spec : NodeSpec F) :
    (doInstall G₀ n spec).Wf G₀ n (spec.start n) ∧ (doInstall G₀ n spec).Seen n spec.devices := by
  have hlook : G₀.lookup n = none := AList.lookup_eq_none.mpr hn
  have hfold : ∀ (pre post : List Device) (st : Stack F), st.Wf G₀ n (spec.start n) →
      st.Seen n pre → (post.foldl Stack.createAndRegisterFace st).Wf G₀ n (spec.start n) ∧
        (post.foldl Stack.createAndRegisterFace st).Seen n (pre ++ post) := by
    intro pre post
    induction post generalizing pre with
    | nil =>
        intro st hwf hseen
        exact ⟨hwf, by rwa [List.append_nil]⟩
    | cons device post ih =>
        intro st hwf hseen
        have hnext := ih (pre ++ [device]) _ (hwf.createAndRegisterFace device)
          (hseen.createAndRegisterFace hwf device)
        rwa [List.append_assoc] at hnext
  refine hfold [] spec.devices ⟨spec.start n, 255, G₀⟩ ?_ ?_
  · constructor <;> simp [Stack.links, hlook, NodeSpec.start, Context.init]
  · constructor <;> simp [Stack.links, hlook, NodeSpec.start, Context.init]

/-! ## All nodes -/

namespace Installed

/-- What the installation leaves behind for the node `n`. -/
structure Built (inst : Installed F) (n : NodeId) (spec : NodeSpec F) (node : Node F) : Prop where
  lookup : inst.nodes.lookup n = some node
  frame : node = { spec.start n with
    faceTable := node.faceTable
    ctx := { (spec.start n).ctx with faceContextMap := node.ctx.faceContextMap } }
  key : inst.infra.routingInfo.lookup n = none ↔ ∀ v, Device.pointToPoint v ∉ spec.devices
  faces : ∀ faces, inst.infra.routingInfo.lookup n = some faces →
    (faces.map Face.faceId).Nodup ∧ (∀ face ∈ faces, face.linkCost = 1 ∧
      face.faceId ∈ node.faceTable.map NfdFace.faceId ∧
      face.faceId ≠ node.ctx.getFaceIdFor .v2i) ∧
    ∀ v, v ∈ faces.map Face.remoteNodeId ↔ Device.pointToPoint v ∈ spec.devices
  v2i : spec.type = .rsu → (node.ctx.getFaceIdFor .v2i ≠ 0 ↔ Device.wifi ∈ spec.devices)
  v2iFace : node.ctx.getFaceIdFor .v2i ≠ 0 →
    node.ctx.getFaceIdFor .v2i ∈ node.faceTable.map NfdFace.faceId
  position : inst.infra.positionInfo.lookup n = if spec.type = .rsu then spec.position else none

/-- Nothing is known of the node `n`. -/
structure Absent (inst : Installed F) (n : NodeId) : Prop where
  node : inst.nodes.lookup n = none
  links : inst.infra.routingInfo.lookup n = none
  position : inst.infra.positionInfo.lookup n = none

theorem getFaceIdFor_v2i (ctx : Context F) :
    (∃ e ∈ ctx.faceContextMap, e.2 = .v2i ∧ ctx.getFaceIdFor .v2i = e.1) ∨
      ((∀ e ∈ ctx.faceContextMap, e.2 ≠ .v2i) ∧ ctx.getFaceIdFor .v2i = 0) := by
  unfold Context.getFaceIdFor
  cases hfind : ctx.faceContextMap.find? fun e => e.2 = .v2i with
  | some e =>
      exact Or.inl ⟨e, List.mem_of_find?_eq_some hfind, by simpa using List.find?_some hfind, rfl⟩
  | none => exact Or.inr ⟨by simpa using List.find?_eq_none.mp hfind, rfl⟩

variable {inst : Installed F} {n : NodeId} {spec : NodeSpec F}

theorem install_self (hn : inst.Absent n) (hactive : spec.status ≠ .inactive) :
    ∃ node, (inst.install n spec).Built n spec node := by
  obtain ⟨hwf, hseen⟩ := doInstall_spec (AList.lookup_eq_none.mp hn.links) spec
  generalize hst : doInstall inst.infra.routingInfo n spec = st at hwf hseen
  have hinstall : inst.install n spec =
      ⟨⟨st.routingInfo, match spec.type, spec.position with
        | .rsu, some pos => AList.insert n pos inst.infra.positionInfo
        | _, _ => inst.infra.positionInfo⟩, AList.insert n st.node inst.nodes⟩ := by
    rw [Installed.install, if_neg hactive, hst]
  have htype : st.node.ctx.type = spec.type := hwf.type_eq
  have hlinks : ∀ faces, st.routingInfo.lookup n = some faces → st.links n = faces := by
    intro faces hf
    rw [Stack.links, hf, Option.getD_some]
  rw [hinstall]
  refine ⟨st.node, AList.lookup_insert _, hwf.frame, hseen.key, ?_, ?_, ?_, ?_⟩
  · intro faces hf
    have heq := hlinks faces hf
    refine ⟨heq ▸ hwf.nodup, fun face hface => ?_, fun v => ?_⟩
    · rw [← heq] at hface
      refine ⟨hwf.cost face hface, (hwf.table _).mpr (hwf.linkIds face hface), ?_⟩
      rcases getFaceIdFor_v2i st.node.ctx with ⟨e, he, hv, hid⟩ | ⟨_, hid⟩
      · rw [hid]
        exact (hwf.apart face hface e he hv).symm
      · rw [hid]
        exact Nat.ne_of_gt (lt_trans (by omega) (hwf.linkIds face hface).1)
    · rw [← heq, hseen.remotes, List.mem_filterMap]
      constructor
      · rintro ⟨device, hmem, hdev⟩
        cases device with
        | pointToPoint w => exact Option.some.inj hdev ▸ hmem
        | wifi => cases hdev
        | other => cases hdev
      · intro hmem
        exact ⟨_, hmem, rfl⟩
  · intro hr
    rw [← hseen.v2i (htype.trans hr)]
    rcases getFaceIdFor_v2i st.node.ctx with ⟨e, he, hv, hid⟩ | ⟨hno, hid⟩
    · rw [hid]
      exact ⟨fun _ => ⟨e, he, hv⟩, fun _ => Nat.ne_of_gt
        (lt_trans (by omega) (hwf.contexts e he).1)⟩
    · exact ⟨fun hne => absurd hid hne, fun ⟨e, he, hv⟩ => absurd hv (hno e he)⟩
  · intro hne
    rcases getFaceIdFor_v2i st.node.ctx with ⟨e, he, _, hid⟩ | ⟨_, hid⟩
    · rw [hid]
      exact (hwf.table _).mpr (hwf.contexts e he)
    · exact absurd hid hne
  · by_cases hr : spec.type = .rsu
    · rw [if_pos hr, hr]
      cases spec.position with
      | none => exact hn.position
      | some pos => exact AList.lookup_insert _
    · rw [if_neg hr]
      split
      · rename_i hr' _
        exact absurd hr' hr
      · exact hn.position

theorem install_ne (inst : Installed F) (hn : inst.Absent n) (spec : NodeSpec F) {m : NodeId}
    (hm : m ≠ n) :
    (inst.install n spec).nodes.lookup m = inst.nodes.lookup m ∧
      (inst.install n spec).infra.routingInfo.lookup m = inst.infra.routingInfo.lookup m ∧
      (inst.install n spec).infra.positionInfo.lookup m = inst.infra.positionInfo.lookup m := by
  unfold Installed.install
  split
  · exact ⟨rfl, rfl, rfl⟩
  · obtain ⟨hwf, _⟩ := doInstall_spec (AList.lookup_eq_none.mp hn.links) spec
    refine ⟨AList.lookup_insert_ne hm, hwf.others m hm, ?_⟩
    simp only
    split
    · exact AList.lookup_insert_ne hm
    · rfl

theorem Built.congr {inst' : Installed F} {node : Node F} (h : inst.Built n spec node)
    (hlook : inst'.nodes.lookup n = inst.nodes.lookup n ∧
      inst'.infra.routingInfo.lookup n = inst.infra.routingInfo.lookup n ∧
      inst'.infra.positionInfo.lookup n = inst.infra.positionInfo.lookup n) :
    inst'.Built n spec node := by
  obtain ⟨hnodes, hlinks, hpos⟩ := hlook
  exact ⟨hnodes.trans h.lookup, h.frame, hlinks ▸ h.key, hlinks ▸ h.faces, h.v2i, h.v2iFace,
    hpos.trans h.position⟩

theorem Absent.congr {inst' : Installed F} (h : inst.Absent n)
    (hlook : inst'.nodes.lookup n = inst.nodes.lookup n ∧
      inst'.infra.routingInfo.lookup n = inst.infra.routingInfo.lookup n ∧
      inst'.infra.positionInfo.lookup n = inst.infra.positionInfo.lookup n) : inst'.Absent n :=
  ⟨hlook.1.trans h.node, hlook.2.1.trans h.links, hlook.2.2.trans h.position⟩

end Installed

namespace Topology

/-- The node `n`, if the stack is installed on it. -/
def active (top : Topology F) (n : NodeId) : Option (NodeSpec F) :=
  (top.nodes[n.toNat]?).filter fun spec => spec.status ≠ .inactive

/-- The installation up to the node of index `k`. -/
structure Upto (top : Topology F) (k : ℕ) (inst : Installed F) : Prop where
  built : ∀ n : NodeId, n.toNat < k → ∀ spec, top.active n = some spec →
    ∃ node, inst.Built n spec node
  absent : ∀ n : NodeId, n.toNat < k → top.active n = none → inst.Absent n
  later : ∀ n : NodeId, k ≤ n.toNat → inst.Absent n

theorem Upto.install {top : Topology F} {k : ℕ} {inst : Installed F} (h : top.Upto k inst)
    {spec : NodeSpec F} (hspec : top.nodes[k]? = some spec) :
    top.Upto (k + 1) (inst.install (UInt32.ofNat k) spec) := by
  have hk : (UInt32.ofNat k).toNat = k := by
    have hlt := (List.getElem?_eq_some_iff.mp hspec).1
    have hfits := top.fits
    rw [UInt32.toNat_ofNat']
    exact Nat.mod_eq_of_lt (by omega)
  have hself := h.later (UInt32.ofNat k) hk.ge
  have hne : ∀ n : NodeId, n.toNat ≠ k → n ≠ UInt32.ofNat k := fun n hn heq => hn (heq ▸ hk)
  have hactive : top.active (UInt32.ofNat k) =
      if spec.status ≠ .inactive then some spec else none := by
    rw [active, hk, hspec, Option.filter_some]
    simp
  have hother : ∀ n : NodeId, n.toNat ≠ k → _ := fun n hn =>
    Installed.install_ne inst hself spec (hne n hn)
  constructor
  · intro n hn spec' hspec'
    rcases Nat.lt_succ_iff_lt_or_eq.mp hn with hlt | heq
    · obtain ⟨node, hnode⟩ := h.built n hlt spec' hspec'
      exact ⟨node, hnode.congr (hother n hlt.ne)⟩
    · obtain rfl : n = UInt32.ofNat k := UInt32.toNat_inj.mp (heq.trans hk.symm)
      rw [hactive] at hspec'
      split at hspec'
      · rename_i hstatus
        obtain rfl := Option.some.inj hspec'
        exact Installed.install_self hself hstatus
      · cases hspec'
  · intro n hn hnone
    rcases Nat.lt_succ_iff_lt_or_eq.mp hn with hlt | heq
    · exact (h.absent n hlt hnone).congr (hother n hlt.ne)
    · obtain rfl : n = UInt32.ofNat k := UInt32.toNat_inj.mp (heq.trans hk.symm)
      rw [hactive] at hnone
      split at hnone
      · cases hnone
      · rename_i hstatus
        rw [Installed.install, if_pos (not_not.mp hstatus)]
        exact hself
  · intro n hn
    exact (h.later n (by omega)).congr (hother n (by omega))

theorem install_upto (top : Topology F) : top.Upto top.nodes.length top.install := by
  have hfold : ∀ (post pre : List (NodeSpec F)) (inst : Installed F), pre ++ post = top.nodes →
      top.Upto pre.length inst → top.Upto top.nodes.length ((post.zipIdx pre.length).foldl
        (fun inst e => inst.install (UInt32.ofNat e.2) e.1) inst) := by
    intro post
    induction post with
    | nil =>
        intro pre inst hpre h
        rw [List.append_nil] at hpre
        exact hpre ▸ h
    | cons spec post ih =>
        intro pre inst hpre h
        have hspec : top.nodes[pre.length]? = some spec := by
          rw [← hpre, List.getElem?_append_right le_rfl]
          simp
        have hnext := ih (pre ++ [spec]) _ (by rw [List.append_assoc]; exact hpre)
          (by rw [List.length_append]; exact h.install hspec)
        rwa [List.length_append] at hnext
  refine hfold top.nodes [] ⟨⟨∅, ∅⟩, ∅⟩ rfl ⟨?_, ?_, ?_⟩
  · intro n hn
    exact absurd hn (Nat.not_lt_zero _)
  · intro n hn
    exact absurd hn (Nat.not_lt_zero _)
  · intro n _
    exact ⟨rfl, rfl, rfl⟩

theorem built (top : Topology F) {n : NodeId} {spec : NodeSpec F}
    (h : top.active n = some spec) : ∃ node, top.install.Built n spec node := by
  obtain ⟨hspec, _⟩ := Option.filter_eq_some_iff.mp h
  exact top.install_upto.built n (List.getElem?_eq_some_iff.mp hspec).1 spec h

theorem absent (top : Topology F) {n : NodeId} (h : top.active n = none) :
    top.install.Absent n := by
  rcases Nat.lt_or_ge n.toNat top.nodes.length with hlt | hge
  · exact top.install_upto.absent n hlt h
  · exact top.install_upto.later n hge

end Topology

end Cafe
