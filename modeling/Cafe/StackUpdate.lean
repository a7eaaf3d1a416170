import Cafe.Deployment

/-!
# Updating an installed stack

An update gives faces to the devices that have none. It looks for a device
among the transports of the face table, but only among those of one class,
and the radio faces of vehicles and RSUs are of another.
-/

namespace Cafe

variable {F : Type} [Arith F]

/-- The transports of a node's faces, with the index of their device. -/
inductive Transport
  | netDevice (device : ℕ)
  | wifiNetDevice (device : ℕ)
  | internal
  deriving DecidableEq, Repr

/-- A node with its L3 protocol; not every node has a context. -/
structure InstalledStack (F : Type) [Arith F] where
  nodeId : NodeId
  ctx : Option (Context F)
  faceTable : List (FaceId × Transport)
  lastFaceId : FaceId
  routingInfo : Graph

namespace InstalledStack

/-- The L3 protocol before any device has its faces. -/
def fresh (nodeId : NodeId) (ctx : Option (Context F)) (internal : List FaceId)
    (routingInfo : Graph) : InstalledStack F :=
  ⟨nodeId, ctx, internal.map fun faceId => (faceId, .internal), 255, routingInfo⟩

def addFace (transport : Transport) (ndn : InstalledStack F) : InstalledStack F :=
  { ndn with
    faceTable := ndn.faceTable ++ [(ndn.lastFaceId + 1, transport)]
    lastFaceId := ndn.lastFaceId + 1 }

def setContext (context : FaceContext) (ndn : InstalledStack F) : InstalledStack F :=
  { ndn with ctx := ndn.ctx.map fun ctx => ctx.setFaceIdContext ndn.lastFaceId context }

def defaultNetDeviceCallback (device : ℕ) (ndn : InstalledStack F) : InstalledStack F :=
  ndn.addFace (.netDevice device)

def wifiNetDeviceCallback (device : ℕ) (ndn : InstalledStack F) : InstalledStack F :=
  match ndn.ctx.map Context.type with
  | none | some .none | some .backbone => ndn.defaultNetDeviceCallback device
  | some .vehicle =>
      ((((ndn.addFace (.wifiNetDevice device)).setContext .v2v).addFace
        (.wifiNetDevice device)).setContext .v2i)
  | some .rsu => (ndn.addFace (.wifiNetDevice device)).setContext .v2i

def pointToPointNetDeviceCallback (device : ℕ) (toNodeId : NodeId) (ndn : InstalledStack F) :
    InstalledStack F :=
  let ndn' := ndn.addFace (.netDevice device)
  match ndn.ctx with
  | none => ndn'
  | some _ =>
      { ndn'.setContext (.p2p ndn.nodeId toNodeId) with
        routingInfo := ndn.routingInfo.pushBack ndn.nodeId ⟨ndn'.lastFaceId, toNodeId, 1⟩ }

def createAndRegisterFace (device : ℕ) (ndn : InstalledStack F) : Device → InstalledStack F
  | .pointToPoint remoteNodeId => ndn.pointToPointNetDeviceCallback device remoteNodeId
  | .wifi => ndn.wifiNetDeviceCallback device
  | .other => ndn.defaultNetDeviceCallback device

/-- The faces of devices, each with its index on the node. -/
def createFaces (ndn : InstalledStack F) (devices : List (Device × ℕ)) : InstalledStack F :=
  devices.foldl (fun ndn e => ndn.createAndRegisterFace e.2 e.1) ndn

def doInstall (ndn : InstalledStack F) (devices : List Device) : InstalledStack F :=
  ndn.createFaces devices.zipIdx

def getFaceByNetDevice (ndn : InstalledStack F) (device : ℕ) : Option FaceId :=
  (ndn.faceTable.find? fun e => e.2 = .netDevice device).map Prod.fst

def updateDevice (ndn : InstalledStack F) (e : Device × ℕ) : InstalledStack F :=
  if ndn.getFaceByNetDevice e.2 = none then ndn.createAndRegisterFace e.2 e.1 else ndn

/-- `StackHelper::Update`; `start` is the node without a stack. -/
def update (start : InstalledStack F) (devices : List Device) :
    Option (InstalledStack F) → InstalledStack F
  | none => start.doInstall devices
  | some ndn => devices.zipIdx.foldl updateDevice ndn

/-! ## Which devices have a face that is found -/

def type (ndn : InstalledStack F) : Option NodeType := ndn.ctx.map Context.type

/-- The wifi devices of the node get transports of the class that is not searched. -/
def HasRadio (type : Option NodeType) : Prop := type = some .vehicle ∨ type = some .rsu

instance (type : Option NodeType) : Decidable (HasRadio type) :=
  inferInstanceAs (Decidable (_ ∨ _))

/-- The transports that a device gets. -/
def transportsFor (type : Option NodeType) (device : ℕ) : Device → List Transport
  | .wifi =>
      if type = some .vehicle then [.wifiNetDevice device, .wifiNetDevice device]
      else if type = some .rsu then [.wifiNetDevice device]
      else [.netDevice device]
  | _ => [.netDevice device]

def HasFace (ndn : InstalledStack F) (device : ℕ) : Prop :=
  .netDevice device ∈ ndn.faceTable.map Prod.snd

variable {ndn : InstalledStack F}

theorem mem_transportsFor {type : Option NodeType} {i j : ℕ} {device : Device} :
    .netDevice j ∈ transportsFor type i device ↔ j = i ∧ ¬ (device = .wifi ∧ HasRadio type) := by
  unfold transportsFor HasRadio
  cases device with
  | wifi => split_ifs <;> simp [*]
  | pointToPoint remoteNodeId => simp
  | other => simp

theorem transportsFor_ne_nil (type : Option NodeType) (i : ℕ) (device : Device) :
    transportsFor type i device ≠ [] := by
  unfold transportsFor
  cases device with
  | wifi => split_ifs <;> simp
  | pointToPoint remoteNodeId => simp
  | other => simp

theorem getFaceByNetDevice_eq_none {device : ℕ} :
    ndn.getFaceByNetDevice device = none ↔ ¬ ndn.HasFace device := by
  rw [getFaceByNetDevice, Option.map_eq_none_iff, List.find?_eq_none, HasFace, List.mem_map]
  push Not
  exact forall₂_congr fun e _ => not_congr decide_eq_true_iff

@[simp] theorem type_addFace (transport : Transport) (ndn : InstalledStack F) :
    (ndn.addFace transport).type = ndn.type := rfl

@[simp] theorem faceTable_addFace (transport : Transport) (ndn : InstalledStack F) :
    (ndn.addFace transport).faceTable.map Prod.snd =
      ndn.faceTable.map Prod.snd ++ [transport] := by
  simp [addFace]

@[simp] theorem type_setContext (context : FaceContext) (ndn : InstalledStack F) :
    (ndn.setContext context).type = ndn.type := by
  simp only [type, setContext, Option.map_map]
  congr 1
  funext ctx
  simp only [Function.comp_apply, Context.setFaceIdContext]
  split <;> rfl

@[simp] theorem faceTable_setContext (context : FaceContext) (ndn : InstalledStack F) :
    (ndn.setContext context).faceTable = ndn.faceTable := rfl

/-- What one device adds to the face table. -/
theorem createAndRegisterFace_spec (i : ℕ) (device : Device) :
    (ndn.createAndRegisterFace i device).type = ndn.type ∧
      (ndn.createAndRegisterFace i device).faceTable.map Prod.snd =
        ndn.faceTable.map Prod.snd ++ transportsFor ndn.type i device := by
  cases device with
  | other => exact ⟨rfl, faceTable_addFace _ _⟩
  | pointToPoint remoteNodeId =>
      simp only [createAndRegisterFace, pointToPointNetDeviceCallback]
      cases ndn.ctx with
      | none => exact ⟨rfl, faceTable_addFace _ _⟩
      | some ctx => exact ⟨type_setContext _ _, faceTable_addFace _ _⟩
  | wifi =>
      have htype : ndn.ctx.map Context.type = ndn.type := rfl
      simp only [createAndRegisterFace, wifiNetDeviceCallback, transportsFor, htype]
      cases htype : ndn.type with
      | none => exact ⟨htype, faceTable_addFace _ _⟩
      | some type => cases type <;> simp [defaultNetDeviceCallback, htype]

/-! ## The loops over the devices -/

theorem hasFace_createAndRegisterFace {i j : ℕ} {device : Device} :
    (ndn.createAndRegisterFace i device).HasFace j ↔
      ndn.HasFace j ∨ (j = i ∧ ¬ (device = .wifi ∧ HasRadio ndn.type)) := by
  unfold HasFace
  rw [(createAndRegisterFace_spec i device).2, List.mem_append, mem_transportsFor]

theorem length_createAndRegisterFace (i : ℕ) (device : Device) :
    ndn.faceTable.length < (ndn.createAndRegisterFace i device).faceTable.length := by
  have hspec : (ndn.createAndRegisterFace i device).faceTable.map Prod.snd =
      ndn.faceTable.map Prod.snd ++ transportsFor ndn.type i device :=
    (createAndRegisterFace_spec i device).2
  have hlength := congrArg List.length hspec
  have hpos := List.length_pos_of_ne_nil (transportsFor_ne_nil ndn.type i device)
  simp only [List.length_map, List.length_append] at hlength
  omega

theorem createFaces_spec (devices : List (Device × ℕ)) (ndn : InstalledStack F) :
    (ndn.createFaces devices).type = ndn.type ∧
      ∀ j, (ndn.createFaces devices).HasFace j ↔ ndn.HasFace j ∨
        ∃ e ∈ devices, j = e.2 ∧ ¬ (e.1 = .wifi ∧ HasRadio ndn.type) := by
  induction devices generalizing ndn with
  | nil => simp [createFaces]
  | cons e devices ih =>
      have hstep : (ndn.createAndRegisterFace e.2 e.1).type = ndn.type :=
        (createAndRegisterFace_spec e.2 e.1).1
      have hrest := ih (ndn.createAndRegisterFace e.2 e.1)
      rw [hstep] at hrest
      refine ⟨hrest.1, fun j => (hrest.2 j).trans ?_⟩
      rw [hasFace_createAndRegisterFace, or_assoc, List.exists_mem_cons_iff]

/-- Devices with a face are passed over. -/
theorem foldl_updateDevice_of_hasFace {devices : List (Device × ℕ)}
    (h : ∀ e ∈ devices, ndn.HasFace e.2) : devices.foldl updateDevice ndn = ndn := by
  induction devices with
  | nil => rfl
  | cons e devices ih =>
      have hface := h e List.mem_cons_self
      have hskip : ndn.updateDevice e = ndn :=
        if_neg fun hnone => getFaceByNetDevice_eq_none.mp hnone hface
      rw [List.foldl_cons, hskip]
      exact ih fun e' he' => h e' (List.mem_cons_of_mem _ he')

/-- Devices without one get theirs. -/
theorem foldl_updateDevice_of_not_hasFace {devices : List (Device × ℕ)}
    (hnodup : (devices.map Prod.snd).Nodup) (h : ∀ e ∈ devices, ¬ ndn.HasFace e.2) :
    devices.foldl updateDevice ndn = ndn.createFaces devices := by
  induction devices generalizing ndn with
  | nil => rfl
  | cons e devices ih =>
      rw [List.map_cons, List.nodup_cons] at hnodup
      have hcreate : ndn.updateDevice e = ndn.createAndRegisterFace e.2 e.1 :=
        if_pos (getFaceByNetDevice_eq_none.mpr (h e List.mem_cons_self))
      rw [List.foldl_cons, hcreate, createFaces, List.foldl_cons]
      refine ih hnodup.2 fun e' he' => ?_
      rw [hasFace_createAndRegisterFace, not_or]
      refine ⟨h e' (List.mem_cons_of_mem _ he'), fun heq => ?_⟩
      exact hnodup.1 (heq.1 ▸ List.mem_map_of_mem he')

/-- The face table grows as soon as one of the devices is not found. -/
theorem length_foldl_updateDevice (devices : List (Device × ℕ)) (ndn : InstalledStack F) :
    ndn.faceTable.length ≤ (devices.foldl updateDevice ndn).faceTable.length ∧
      ∀ e ∈ devices, ¬ ndn.HasFace e.2 →
        ndn.faceTable.length < (devices.foldl updateDevice ndn).faceTable.length := by
  induction devices generalizing ndn with
  | nil => simp
  | cons d devices ih =>
      have hrest := ih (ndn.updateDevice d)
      rw [List.foldl_cons]
      by_cases hface : ndn.HasFace d.2
      · have hskip : ndn.updateDevice d = ndn :=
          if_neg fun hnone => getFaceByNetDevice_eq_none.mp hnone hface
        rw [hskip] at hrest ⊢
        refine ⟨hrest.1, fun e he hnot => ?_⟩
        rcases List.mem_cons.mp he with rfl | he
        · exact absurd hface hnot
        · exact hrest.2 e he hnot
      · have hcreate : ndn.updateDevice d = ndn.createAndRegisterFace d.2 d.1 :=
          if_pos (getFaceByNetDevice_eq_none.mpr hface)
        have hlt : ndn.faceTable.length <
            (ndn.createAndRegisterFace d.2 d.1).faceTable.length :=
          length_createAndRegisterFace d.2 d.1
        rw [← hcreate] at hlt
        exact ⟨(hlt.trans_le hrest.1).le, fun e _ _ => hlt.trans_le hrest.1⟩

/-! ## Updates after an installation -/

theorem hasFace_doInstall {nodeId : NodeId} {ctx : Option (Context F)} {internal : List FaceId}
    {routingInfo : Graph} {devices : List Device} {j : ℕ} :
    ((fresh nodeId ctx internal routingInfo).doInstall devices).HasFace j ↔
      ∃ e ∈ devices.zipIdx, j = e.2 ∧ ¬ (e.1 = .wifi ∧ HasRadio (ctx.map Context.type)) := by
  have hnone : ¬ (fresh nodeId ctx internal routingInfo).HasFace j := by
    simp [HasFace, fresh]
  rw [doInstall, (createFaces_spec _ _).2, or_iff_right hnone]
  rfl

/-- Every device is found after the installation, unless it is a radio. -/
theorem forall_hasFace_doInstall_iff {nodeId : NodeId} {ctx : Option (Context F)}
    {internal : List FaceId} {routingInfo : Graph} {devices : List Device} :
    (∀ e ∈ devices.zipIdx,
        ((fresh nodeId ctx internal routingInfo).doInstall devices).HasFace e.2) ↔
      ¬ (.wifi ∈ devices ∧ HasRadio (ctx.map Context.type)) := by
  constructor
  · rintro h ⟨hwifi, hradio⟩
    rcases List.mem_iff_getElem?.mp hwifi with ⟨i, hi⟩
    have hmem := List.mk_mem_zipIdx_iff_getElem?.mpr hi
    rcases hasFace_doInstall.mp (h _ hmem) with ⟨⟨device, j⟩, he, rfl, hnot⟩
    rw [List.mk_mem_zipIdx_iff_getElem?, hi, Option.some.injEq] at he
    exact hnot ⟨he.symm, hradio⟩
  · intro h e he
    refine hasFace_doInstall.mpr ⟨e, he, rfl, fun hradio => ?_⟩
    exact h ⟨hradio.1 ▸ List.fst_mem_of_mem_zipIdx he, hradio.2⟩

/-- Updates change nothing, and an update gives new devices exactly their
faces, iff no device was installed as a radio. -/
theorem update_idempotent_iff (nodeId : NodeId) (ctx : Option (Context F))
    (internal : List FaceId) (routingInfo : Graph) (devices : List Device) :
    let start := fresh nodeId ctx internal routingInfo
    let ndn := start.update devices none
    ((∀ k, (fun ndn => start.update devices (some ndn))^[k] ndn = ndn) ↔
        ¬ (.wifi ∈ devices ∧ HasRadio (ctx.map Context.type))) ∧
      ((∀ added, start.update (devices ++ added) (some ndn) =
          ndn.createFaces (added.zipIdx devices.length)) ↔
        ¬ (.wifi ∈ devices ∧ HasRadio (ctx.map Context.type))) := by
  intro start ndn
  have hfound : (∀ e ∈ devices.zipIdx, ndn.HasFace e.2) ↔ _ := forall_hasFace_doInstall_iff
  have hfix : devices.zipIdx.foldl updateDevice ndn = ndn ↔
      ∀ e ∈ devices.zipIdx, ndn.HasFace e.2 := by
    constructor
    · intro heq e he
      by_contra hnot
      have hlt := (length_foldl_updateDevice devices.zipIdx ndn).2 e he hnot
      rw [heq] at hlt
      exact lt_irrefl _ hlt
    · exact foldl_updateDevice_of_hasFace
  rw [← hfound, ← hfix]
  constructor
  · exact ⟨fun h => h 1, fun h => Function.iterate_fixed h⟩
  · constructor
    · intro h
      have hnil := h []
      rwa [List.append_nil] at hnil
    · intro h added
      have hsplit : (devices ++ added).zipIdx = devices.zipIdx ++ added.zipIdx devices.length := by
        rw [List.zipIdx_append, Nat.zero_add]
      simp only [update, hsplit, List.foldl_append, h]
      refine foldl_updateDevice_of_not_hasFace ?_ fun e he hface => ?_
      · rw [List.zipIdx_map_snd]
        exact List.nodup_range'
      · rcases hasFace_doInstall.mp hface with ⟨d, hd, heq, -⟩
        have hlt := List.snd_lt_of_mem_zipIdx hd
        have hle := List.le_snd_of_mem_zipIdx he
        omega

/-- A vehicle with one wifi device: an update repeats both of its faces. -/
theorem update_vehicle_repeats :
    let start := fresh 0 (some { Context.init ℝ with type := .vehicle }) [1, 254, 255] ∅
    let ndn := start.update [.wifi] none
    ndn.faceTable.map Prod.fst = [1, 254, 255, 256, 257] ∧
      (start.update [.wifi] (some ndn)).faceTable.map Prod.fst =
        [1, 254, 255, 256, 257, 258, 259] ∧
      start.update [.wifi] (some ndn) ≠ ndn := by
  refine ⟨rfl, rfl, fun heq => ?_⟩
  have hlength := congrArg (fun ndn : InstalledStack ℝ => ndn.lastFaceId) heq
  exact absurd (show (259 : ℕ) = 257 from hlength) (by decide)

/-! ## The installation of a deployment -/

/-- The stack as the deployment has it, without the devices of the faces. -/
structure Represents (ndn : InstalledStack F) (st : Stack F) : Prop where
  nodeId : st.node.nodeId = ndn.nodeId
  ctx : ndn.ctx = some st.node.ctx
  faceTable : st.node.faceTable =
    (ndn.faceTable.filter (·.2 ≠ .internal)).map fun e => ⟨e.1, .nonLocal⟩
  lastFaceId : st.lastFaceId = ndn.lastFaceId
  routingInfo : st.routingInfo = ndn.routingInfo

variable {st : Stack F}

theorem Represents.addFace (h : ndn.Represents st) (transport : Transport)
    (htransport : transport ≠ .internal) : (ndn.addFace transport).Represents st.addFace where
  nodeId := h.nodeId
  ctx := h.ctx
  faceTable := by
    simp [InstalledStack.addFace, Stack.addFace, h.faceTable, h.lastFaceId, htransport]
  lastFaceId := congrArg (· + 1) h.lastFaceId
  routingInfo := h.routingInfo

theorem Represents.setContext (h : ndn.Represents st) (context : FaceContext) :
    (ndn.setContext context).Represents (st.setContext context) where
  nodeId := h.nodeId
  ctx := by
    simp [InstalledStack.setContext, Stack.setContext, h.ctx, h.lastFaceId]
  faceTable := h.faceTable
  lastFaceId := h.lastFaceId
  routingInfo := h.routingInfo

theorem Represents.createAndRegisterFace (h : ndn.Represents st) (i : ℕ) (device : Device) :
    (ndn.createAndRegisterFace i device).Represents (st.createAndRegisterFace device) := by
  have hnet := h.addFace (.netDevice i) nofun
  have hradio := h.addFace (.wifiNetDevice i) nofun
  cases device with
  | other => exact hnet
  | pointToPoint remoteNodeId =>
      have hset := hnet.setContext (.p2p ndn.nodeId remoteNodeId)
      have hid := hset.lastFaceId
      simp only [InstalledStack.createAndRegisterFace, pointToPointNetDeviceCallback, h.ctx,
        Stack.createAndRegisterFace, Stack.pointToPointNetDeviceCallback, h.nodeId]
      refine ⟨hset.nodeId, hset.ctx, hset.faceTable, hid, ?_⟩
      exact congrArg₂ (fun G faceId => Graph.pushBack G ndn.nodeId ⟨faceId, remoteNodeId, 1⟩)
        h.routingInfo hid
  | wifi =>
      simp only [InstalledStack.createAndRegisterFace, wifiNetDeviceCallback, h.ctx,
        Stack.createAndRegisterFace, Stack.wifiNetDeviceCallback, Option.map_some]
      cases st.node.ctx.type with
      | none => exact hnet
      | backbone => exact hnet
      | rsu => exact hradio.setContext .v2i
      | vehicle => exact ((hradio.setContext .v2v).addFace (.wifiNetDevice i) nofun).setContext .v2i

/-- `doInstall` of a deployment, without the classes of the transports. -/
theorem represents_doInstall (routingInfo : Graph) (n : NodeId) (spec : NodeSpec F)
    (internal : List FaceId) :
    ((fresh n (some (spec.start n).ctx) internal routingInfo).doInstall spec.devices).Represents
      (Cafe.doInstall routingInfo n spec) := by
  have hfold : ∀ (devices : List Device) (k : ℕ) (ndn : InstalledStack F) (st : Stack F),
      ndn.Represents st → (ndn.createFaces (devices.zipIdx k)).Represents
        (devices.foldl Stack.createAndRegisterFace st) := by
    intro devices
    induction devices with
    | nil => exact fun _ _ _ h => h
    | cons device devices ih =>
        exact fun k ndn st h => ih (k + 1) _ _ (h.createAndRegisterFace k device)
  refine hfold spec.devices 0 _ _ ⟨rfl, rfl, ?_, rfl, rfl⟩
  simp [fresh, NodeSpec.start, List.filter_map]

end InstalledStack

end Cafe
