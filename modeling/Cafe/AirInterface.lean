import Cafe.Backbone
import Cafe.Deployment
import Cafe.Elements
import Cafe.FaceContexts
import Cafe.Reassembly
import Cafe.Uplink

/-!
# The air interface

All radios share one channel. A vehicle has two faces on its radio, an RSU has
one; the address of a frame, the type of its sender and the filter of a face
decide which faces take the frame. Together with the wires this is the medium
of a built deployment.
-/

open WeightedDigraph

namespace Cafe

open Decoding

/-! ## Frames -/

/-- The value that the enumeration has in the source. -/
def NodeType.toByte : NodeType → UInt8
  | .none => 0
  | .vehicle => 1
  | .rsu => 2
  | .backbone => 3

def NodeType.ofByte (b : UInt8) : Option NodeType :=
  [NodeType.none, .vehicle, .rsu, .backbone].find? fun type => type.toByte = b

@[simp] theorem NodeType.ofByte_toByte (type : NodeType) : ofByte type.toByte = some type := by
  cases type <;> rfl

namespace MulticastGroup

/-- 01:00:5e:00:17:aa -/
def MULTICAST_V2V : Address := 0x01005e0017aa

/-- 01:00:5e:00:17:ac -/
def MULTICAST_V2I : Address := 0x01005e0017ac

end MulticastGroup

/-- A packet on the radio channel. -/
structure RadioFrame where
  destination : Address
  bytes : Bytes

/-- `Block::fromStream`. What follows the block stays in the stream. -/
def Block.fromStream (stream : Bytes) : Except (Decoding.Fault String) Block :=
  match Block.header stream 0 with
  | .error e => .error e
  | .ok ((type, length), offset) =>
      if (sizeOfVarNumber type + sizeOfVarNumber length + length) % 2 ^ 64 > 8800 then
        .error (.rejected "TLV-LENGTH from stream exceeds limit")
      else if stream.length - offset < length then
        .error (.rejected "Not enough bytes from stream to fully parse TLV")
      else
        .ok ⟨type, (stream.drop offset).take length⟩

namespace WifiNetDeviceTransport

/-- The headers of the node type and of the block. -/
def doSend (transport : WifiNetDeviceTransport) (packet : Block) : RadioFrame where
  destination := transport.remoteAddress
  bytes := transport.nodeType.toByte :: packet.wire

/-- A value outside the enumeration is the type of no node. -/
def dropsType (transport : WifiNetDeviceTransport) (senderNodeType : UInt8) : Bool :=
  match NodeType.ofByte senderNodeType with
  | some type => dropPacket transport.filter transport.nodeType type
  | none => transport.filter = .allowSame

/-- `receiveFromNetDevice` with the headers of the frame: the block that is handed to
the link service, if the frame is not dropped. -/
def receiveFrame (transport : WifiNetDeviceTransport) (p : RadioFrame) :
    Except (Decoding.Fault String) (Option Block) :=
  if p.destination ≠ transport.remoteAddress then
    .ok none
  else
    match p.bytes with
    | [] => .error (.overRead 0 1)
    | senderNodeType :: rest =>
        if transport.filter ≠ .allowAll ∧ transport.dropsType senderNodeType then
          .ok none
        else
          (Block.fromStream rest).map some

/-- Whether frames of the sender pass the filters of the receiver. -/
def hears (transport sender : WifiNetDeviceTransport) : Bool :=
  transport.remoteAddress = sender.remoteAddress ∧
    ¬ dropPacket transport.filter transport.nodeType sender.nodeType

end WifiNetDeviceTransport

theorem Block.fromStream_wire {block : Block} (h : block.Fits) (hsize : block.wire.length ≤ 8800)
    (after : Bytes) : Block.fromStream (block.wire ++ after) = .ok block := by
  obtain ⟨offset, hheader, hdrop⟩ := Block.header_wire h after
  have hlength : block.value.length ≤ (block.wire ++ after).length - offset := by
    rw [← List.length_drop, hdrop, List.length_append]
    exact Nat.le_add_right _ _
  have hlimit : (sizeOfVarNumber block.type + sizeOfVarNumber block.value.length +
      block.value.length) % 2 ^ 64 ≤ 8800 := by
    rw [Block.length_wire, sizeOfElement] at hsize
    exact (Nat.mod_le _ _).trans hsize
  rw [Block.fromStream, hheader]
  simp only
  rw [if_neg (not_lt.mpr hlimit), if_neg (not_lt.mpr hlength), hdrop, List.take_left]

/-- What one transport sends, another takes unchanged or not at all. -/
theorem WifiNetDeviceTransport.receiveFrame_doSend (transport sender : WifiNetDeviceTransport)
    {packet : Block} (h : packet.Fits) (hsize : packet.wire.length ≤ 8800) :
    transport.receiveFrame (sender.doSend packet) =
      .ok (if transport.hears sender then some packet else none) := by
  have hstream := Block.fromStream_wire h hsize []
  rw [List.append_nil] at hstream
  have hhears : transport.hears sender = true ↔ transport.remoteAddress = sender.remoteAddress ∧
      ¬ dropPacket transport.filter transport.nodeType sender.nodeType := decide_eq_true_iff
  have hbytes : (sender.doSend packet).bytes = sender.nodeType.toByte :: packet.wire := rfl
  have htype : transport.dropsType sender.nodeType.toByte =
      dropPacket transport.filter transport.nodeType sender.nodeType := by
    rw [dropsType, NodeType.ofByte_toByte]
  unfold receiveFrame
  by_cases haddress : (sender.doSend packet).destination = transport.remoteAddress
  · rw [if_neg (not_not.mpr haddress), hbytes]
    simp only [htype]
    by_cases hdrop : dropPacket transport.filter transport.nodeType sender.nodeType
    · have hfilter : transport.filter ≠ .allowAll := by
        intro hall
        rw [hall] at hdrop
        cases hdrop
      rw [if_pos ⟨hfilter, hdrop⟩, if_neg (fun h => (hhears.mp h).2 hdrop)]
    · rw [if_neg (fun hboth => hdrop hboth.2), if_pos (hhears.mpr ⟨haddress.symm, hdrop⟩), hstream]
      rfl
  · rw [if_pos haddress, if_neg (fun h => haddress (hhears.mp h).1.symm)]

/-- The link service is handed the packets of the frames that pass. -/
theorem WifiNetDeviceTransport.isSome_receiveFromNetDevice
    (transport sender : WifiNetDeviceTransport) (packet : Lp.Packet) :
    (transport.receiveFromNetDevice packet sender.remoteAddress sender.nodeType).isSome =
      transport.hears sender := by
  unfold receiveFromNetDevice hears
  by_cases haddress : sender.remoteAddress = transport.remoteAddress
  · rw [if_neg (not_not.mpr haddress)]
    cases transport.filter <;> by_cases htype : transport.nodeType = sender.nodeType <;>
      simp [haddress, dropPacket, htype]
  · rw [if_pos haddress]
    simp [Ne.symm haddress]

/-! ## The radio faces of a node -/

variable {F : Type} [Arith F]

/-- A node while its faces are created, with the transports of its radio faces. -/
structure Equipment (F : Type) [Arith F] where
  stack : Stack F
  transports : List (FaceId × WifiNetDeviceTransport)

namespace Equipment

/-- The lambda of `WifiNetDeviceCallback`, and the context of the new face. -/
def createFace (remoteAddress : Address) (filter : TransportFilter) (context : FaceContext)
    (eq : Equipment F) : Equipment F where
  stack := eq.stack.addFace.setContext context
  transports := eq.transports ++
    [(eq.stack.lastFaceId + 1, ⟨remoteAddress, filter, eq.stack.node.ctx.type⟩)]

def wifiNetDeviceCallback (eq : Equipment F) : Equipment F :=
  match eq.stack.node.ctx.type with
  | .none => { eq with stack := eq.stack.defaultNetDeviceCallback }
  | .backbone => { eq with stack := eq.stack.defaultNetDeviceCallback }
  | .vehicle =>
      (eq.createFace MulticastGroup.MULTICAST_V2V .allowSame .v2v).createFace
        MulticastGroup.MULTICAST_V2I .allowDifferent .v2i
  | .rsu => eq.createFace MulticastGroup.MULTICAST_V2I .allowDifferent .v2i

def createAndRegisterFace (eq : Equipment F) : Device → Equipment F
  | .wifi => eq.wifiNetDeviceCallback
  | device => { eq with stack := eq.stack.createAndRegisterFace device }

theorem stack_createAndRegisterFace (eq : Equipment F) (device : Device) :
    (eq.createAndRegisterFace device).stack = eq.stack.createAndRegisterFace device := by
  cases device with
  | pointToPoint remoteNodeId => rfl
  | other => rfl
  | wifi =>
      simp only [createAndRegisterFace, wifiNetDeviceCallback, Stack.createAndRegisterFace,
        Stack.wifiNetDeviceCallback, createFace]
      cases eq.stack.node.ctx.type <;> rfl

theorem transports_createAndRegisterFace (eq : Equipment F) {device : Device}
    (h : device ≠ .wifi) : (eq.createAndRegisterFace device).transports = eq.transports := by
  cases device with
  | pointToPoint remoteNodeId => rfl
  | other => rfl
  | wifi => exact absurd rfl h

theorem stack_foldl (eq : Equipment F) (devices : List Device) :
    (devices.foldl createAndRegisterFace eq).stack =
      devices.foldl Stack.createAndRegisterFace eq.stack := by
  induction devices generalizing eq with
  | nil => rfl
  | cons device devices ih =>
      rw [List.foldl_cons, ih, stack_createAndRegisterFace, List.foldl_cons]

theorem transports_foldl (eq : Equipment F) {devices : List Device} (h : .wifi ∉ devices) :
    (devices.foldl createAndRegisterFace eq).transports = eq.transports := by
  induction devices generalizing eq with
  | nil => rfl
  | cons device devices ih =>
      rw [List.mem_cons, not_or] at h
      rw [List.foldl_cons, ih _ h.2, transports_createAndRegisterFace eq (Ne.symm h.1)]

/-- The equipment of a node; the graph that its wires are entered into plays no part. -/
def install (n : NodeId) (spec : NodeSpec F) : Equipment F :=
  spec.devices.foldl createAndRegisterFace ⟨⟨spec.start n, 255, ∅⟩, []⟩

theorem install_stack (n : NodeId) (spec : NodeSpec F) :
    (install n spec).stack = doInstall ∅ n spec := stack_foldl _ _

end Equipment

/-- The faces of a node on its radio, by their names. -/
def Node.radioFaces (node : Node F) : List (FaceId × WifiNetDeviceTransport) :=
  match node.ctx.type with
  | .vehicle =>
      [(node.ctx.getFaceIdFor .v2v, ⟨MulticastGroup.MULTICAST_V2V, .allowSame, .vehicle⟩),
        (node.ctx.getFaceIdFor .v2i, ⟨MulticastGroup.MULTICAST_V2I, .allowDifferent, .vehicle⟩)]
  | .rsu => [(node.ctx.getFaceIdFor .v2i, ⟨MulticastGroup.MULTICAST_V2I, .allowDifferent, .rsu⟩)]
  | _ => []

theorem Context.setFaceIdContext_type (ctx : Context F) (faceId : FaceId)
    (context : FaceContext) : (ctx.setFaceIdContext faceId context).type = ctx.type := by
  unfold Context.setFaceIdContext
  split <;> rfl

/-- A face that is new gets its context if no other face has it. -/
theorem Context.faceContextMap_setFaceIdContext {ctx : Context F} {faceId : FaceId}
    {context : FaceContext} (h : ∀ e ∈ ctx.faceContextMap, e.1 ≠ faceId ∧ e.2 ≠ context) :
    (ctx.setFaceIdContext faceId context).faceContextMap =
      (faceId, context) :: ctx.faceContextMap := by
  have hany : ¬ (ctx.faceContextMap.any fun e => e.1 = faceId ∨ e.2 = context) = true := by
    intro hany
    obtain ⟨e, he, hor⟩ := List.any_eq_true.mp hany
    rcases of_decide_eq_true hor with heq | heq
    · exact (h e he).1 heq
    · exact (h e he).2 heq
  rw [Context.setFaceIdContext, if_neg hany]

namespace Equipment

/-- No radio has been met. -/
structure Silent (n : NodeId) (spec : NodeSpec F) (eq : Equipment F) : Prop where
  wf : eq.stack.Wf ∅ n (spec.start n)
  transports : eq.transports = []
  contexts : ∀ e ∈ eq.stack.node.ctx.faceContextMap, e.2 ≠ .v2v ∧ e.2 ≠ .v2i

theorem Silent.createAndRegisterFace {n : NodeId} {spec : NodeSpec F} {eq : Equipment F}
    (h : eq.Silent n spec) {device : Device} (hdevice : device ≠ .wifi) :
    (eq.createAndRegisterFace device).Silent n spec where
  wf := by
    rw [stack_createAndRegisterFace]
    exact h.wf.createAndRegisterFace device
  transports := (eq.transports_createAndRegisterFace hdevice).trans h.transports
  contexts := by
    rw [stack_createAndRegisterFace]
    cases device with
    | wifi => exact absurd rfl hdevice
    | other => exact h.contexts
    | pointToPoint remoteNodeId =>
        intro e he
        rcases Stack.mem_setContext he with he | rfl
        · exact h.contexts e he
        · exact ⟨nofun, nofun⟩

theorem Silent.foldl {n : NodeId} {spec : NodeSpec F} {eq : Equipment F} (h : eq.Silent n spec)
    {devices : List Device} (hdevices : .wifi ∉ devices) :
    (devices.foldl Equipment.createAndRegisterFace eq).Silent n spec := by
  induction devices generalizing eq with
  | nil => exact h
  | cons device devices ih =>
      rw [List.mem_cons, not_or] at hdevices
      exact ih (h.createAndRegisterFace (Ne.symm hdevices.1)) hdevices.2

/-- A face whose name is free gets it. -/
theorem faceContextMap_createFace {eq : Equipment F} {context : FaceContext}
    (hids : ∀ e ∈ eq.stack.node.ctx.faceContextMap, e.1 ≤ eq.stack.lastFaceId)
    (hfree : ∀ e ∈ eq.stack.node.ctx.faceContextMap, e.2 ≠ context) (remoteAddress : Address)
    (filter : TransportFilter) :
    (eq.createFace remoteAddress filter context).stack.node.ctx.faceContextMap =
      (eq.stack.lastFaceId + 1, context) :: eq.stack.node.ctx.faceContextMap :=
  Context.faceContextMap_setFaceIdContext fun e he =>
    ⟨Nat.ne_of_lt (Nat.lt_succ_of_le (hids e he)), hfree e he⟩

theorem type_createFace (eq : Equipment F) (remoteAddress : Address) (filter : TransportFilter)
    (context : FaceContext) : (eq.createFace remoteAddress filter context).stack.node.ctx.type =
      eq.stack.node.ctx.type := Context.setFaceIdContext_type _ _ _

/-- The first radio gets the faces that bear the names. -/
theorem Silent.wifi {n : NodeId} {spec : NodeSpec F} {eq : Equipment F} (h : eq.Silent n spec) :
    (eq.createAndRegisterFace .wifi).transports =
        (eq.createAndRegisterFace .wifi).stack.node.radioFaces ∧
      (spec.type = .vehicle →
        (eq.createAndRegisterFace .wifi).stack.node.ctx.getFaceIdFor .v2v ≠ 0) ∧
      (spec.type = .vehicle ∨ spec.type = .rsu →
        (eq.createAndRegisterFace .wifi).stack.node.ctx.getFaceIdFor .v2i ≠ 0) := by
  have htype : eq.stack.node.ctx.type = spec.type := h.wf.type_eq
  have hids : ∀ e ∈ eq.stack.node.ctx.faceContextMap, e.1 ≤ eq.stack.lastFaceId :=
    fun e he => (h.wf.contexts e he).2
  have hv2v : ∀ e ∈ eq.stack.node.ctx.faceContextMap, e.2 ≠ .v2v := fun e he => (h.contexts e he).1
  have hv2i : ∀ e ∈ eq.stack.node.ctx.faceContextMap, e.2 ≠ .v2i := fun e he => (h.contexts e he).2
  have hplain : spec.type ≠ .vehicle → spec.type ≠ .rsu →
      eq.createAndRegisterFace .wifi = { eq with stack := eq.stack.defaultNetDeviceCallback } := by
    intro hv hr
    simp only [Equipment.createAndRegisterFace, Equipment.wifiNetDeviceCallback, htype]
    cases hspec : spec.type with
    | vehicle => exact absurd hspec hv
    | rsu => exact absurd hspec hr
    | _ => rfl
  by_cases hv : spec.type = .vehicle
  · rw [hv] at htype
    set eq₁ := eq.createFace MulticastGroup.MULTICAST_V2V .allowSame .v2v
    set eq₂ := eq₁.createFace MulticastGroup.MULTICAST_V2I .allowDifferent .v2i
    have hwifi : eq.createAndRegisterFace .wifi = eq₂ := by
      simp only [Equipment.createAndRegisterFace, Equipment.wifiNetDeviceCallback, htype]
      rfl
    have hmap₁ : eq₁.stack.node.ctx.faceContextMap = _ := faceContextMap_createFace hids hv2v _ _
    have hlast : eq₁.stack.lastFaceId = eq.stack.lastFaceId + 1 := rfl
    have hmap₂ : eq₂.stack.node.ctx.faceContextMap = (eq₁.stack.lastFaceId + 1, .v2i) ::
        eq₁.stack.node.ctx.faceContextMap := by
      refine faceContextMap_createFace ?_ ?_ _ _
      · rw [hmap₁, hlast]
        simpa using fun f c he => Nat.le_succ_of_le (hids (f, c) he)
      · rw [hmap₁]
        simpa using fun f c he => hv2i (f, c) he
    rw [hmap₁] at hmap₂
    have htype₁ : eq₁.stack.node.ctx.type = .vehicle := (type_createFace _ _ _ _).trans htype
    have htype₂ : eq₂.stack.node.ctx.type = .vehicle := (type_createFace _ _ _ _).trans htype₁
    have hid : eq₂.stack.node.ctx.getFaceIdFor .v2v = eq.stack.lastFaceId + 1 := by
      simp [Context.getFaceIdFor, hmap₂]
    have hid' : eq₂.stack.node.ctx.getFaceIdFor .v2i = eq.stack.lastFaceId + 2 := by
      simp [Context.getFaceIdFor, hmap₂, hlast]
    rw [hwifi]
    refine ⟨?_, fun _ => hid ▸ Nat.succ_ne_zero _, fun _ => hid' ▸ Nat.succ_ne_zero _⟩
    rw [Node.radioFaces, htype₂, hid, hid']
    simp [eq₂, eq₁, createFace, Stack.addFace, Stack.setContext, h.transports, htype,
      Context.setFaceIdContext_type]
  by_cases hr : spec.type = .rsu
  · rw [hr] at htype
    set eq' := eq.createFace MulticastGroup.MULTICAST_V2I .allowDifferent .v2i
    have hwifi : eq.createAndRegisterFace .wifi = eq' := by
      simp only [Equipment.createAndRegisterFace, Equipment.wifiNetDeviceCallback, htype]
      rfl
    have hmap : eq'.stack.node.ctx.faceContextMap = _ := faceContextMap_createFace hids hv2i _ _
    have htype' : eq'.stack.node.ctx.type = .rsu := (type_createFace _ _ _ _).trans htype
    have hid : eq'.stack.node.ctx.getFaceIdFor .v2i = eq.stack.lastFaceId + 1 := by
      simp [Context.getFaceIdFor, hmap]
    rw [hwifi]
    refine ⟨?_, fun hv' => absurd hv' hv, fun _ => hid ▸ Nat.succ_ne_zero _⟩
    rw [Node.radioFaces, htype', hid]
    simp [eq', createFace, h.transports, htype]
  · rw [hplain hv hr]
    refine ⟨?_, fun hv' => absurd hv' hv, fun hor => absurd hor (not_or.mpr ⟨hv, hr⟩)⟩
    have htype' : eq.stack.defaultNetDeviceCallback.node.ctx.type = spec.type := htype
    cases hspec : spec.type with
    | vehicle => exact absurd hspec hv
    | rsu => exact absurd hspec hr
    | _ => simp only [h.transports, Node.radioFaces, htype', hspec]

theorem silent_start (n : NodeId) (spec : NodeSpec F) :
    Silent n spec ⟨⟨spec.start n, 255, ∅⟩, []⟩ where
  wf := by constructor <;> simp [Stack.links, NodeSpec.start, Context.init]
  transports := rfl
  contexts := nofun

/-- A node with one radio sends and hears on the faces that its context names. -/
theorem install_transports (n : NodeId) {spec : NodeSpec F} (hone : spec.devices.count .wifi = 1) :
    (install n spec).transports = (doInstall ∅ n spec).node.radioFaces ∧
      (spec.type = .vehicle → (doInstall ∅ n spec).node.ctx.getFaceIdFor .v2v ≠ 0) ∧
      (spec.type = .vehicle ∨ spec.type = .rsu →
        (doInstall ∅ n spec).node.ctx.getFaceIdFor .v2i ≠ 0) := by
  have hmem : Device.wifi ∈ spec.devices := List.count_pos_iff.mp (by omega)
  obtain ⟨pre, post, hdevices, hpre⟩ := List.eq_append_cons_of_mem hmem
  have hpost : Device.wifi ∉ post := by
    rw [hdevices, List.count_append, List.count_cons_self, List.count_eq_zero.mpr hpre] at hone
    exact List.count_eq_zero.mp (by omega)
  have hsilent := (silent_start n spec).foldl hpre
  set eq := pre.foldl Equipment.createAndRegisterFace ⟨⟨spec.start n, 255, ∅⟩, []⟩
  obtain ⟨htransports, hv2v, hv2i⟩ := hsilent.wifi
  set eq' := eq.createAndRegisterFace .wifi
  have htype : eq'.stack.node.ctx.type = spec.type := by
    have hwf := hsilent.wf.createAndRegisterFace .wifi
    rw [← stack_createAndRegisterFace] at hwf
    exact hwf.type_eq
  have hinstall : install n spec = post.foldl Equipment.createAndRegisterFace eq' := by
    rw [install, hdevices, List.foldl_append, List.foldl_cons]
  have hstack : doInstall ∅ n spec = post.foldl Stack.createAndRegisterFace eq'.stack := by
    rw [← install_stack, hinstall, stack_foldl]
  have htype' : (doInstall ∅ n spec).node.ctx.type = spec.type :=
    (doInstall_spec (by simp) spec).1.type_eq
  have hkeep : ∀ context, eq'.stack.node.ctx.getFaceIdFor context ≠ 0 →
      (doInstall ∅ n spec).node.ctx.getFaceIdFor context =
        eq'.stack.node.ctx.getFaceIdFor context := by
    intro context hne
    rw [hstack]
    exact Stack.getFaceIdFor_foldl hne post
  refine ⟨?_, fun hv => (hkeep _ (hv2v hv)).symm ▸ hv2v hv,
    fun hor => (hkeep _ (hv2i hor)).symm ▸ hv2i hor⟩
  rw [hinstall, transports_foldl _ hpost, htransports, Node.radioFaces, Node.radioFaces, htype,
    htype']
  cases hspec : spec.type with
  | vehicle => simp only [hkeep _ (hv2v hspec), hkeep _ (hv2i (Or.inl hspec))]
  | rsu => simp only [hkeep _ (hv2i (Or.inr hspec))]
  | _ => rfl

theorem install_transports_nil (n : NodeId) {spec : NodeSpec F} (hnone : .wifi ∉ spec.devices) :
    (install n spec).transports = [] :=
  transports_foldl _ hnone

end Equipment

/-! ## Which faces hear which -/

/-- The ids that the context names are apart from each other, and none is zero. -/
structure Node.Named (node : Node F) : Prop where
  nodup : (node.ctx.faceContextMap.map Prod.fst).Nodup
  v2v : node.ctx.type = .vehicle → node.ctx.getFaceIdFor .v2v ≠ 0
  v2i : node.ctx.type = .vehicle ∨ node.ctx.type = .rsu → node.ctx.getFaceIdFor .v2i ≠ 0

theorem Stack.FromCalls.nodup {st : Stack F} (h : st.FromCalls) :
    (st.node.ctx.faceContextMap.map Prod.fst).Nodup := by
  obtain ⟨calls, _, hrep⟩ := h
  have hleft := (FaceIdContextMap.ofCalls calls).left_nodup
  rw [hrep, List.map_map] at hleft
  exact hleft

theorem Context.getContextFor_getFaceIdFor {ctx : Context F}
    (hnodup : (ctx.faceContextMap.map Prod.fst).Nodup) {context : FaceContext}
    (h : ctx.getFaceIdFor context ≠ 0) :
    ctx.getContextFor (ctx.getFaceIdFor context) = context := by
  unfold Context.getFaceIdFor at h ⊢
  cases hfind : ctx.faceContextMap.find? fun e => e.2 = context with
  | none => simp [hfind] at h
  | some e =>
      have hname : e.2 = context := by simpa using List.find?_some hfind
      have hfirst := Bimap.find?_of_nodup_map hnodup (List.mem_of_find?_eq_some hfind)
      rw [Option.map_some, Option.getD_some, Context.getContextFor, hfirst, ← hname]
      rfl

namespace Node

variable {node : Node F}

theorem mem_radioFaces {f : FaceId} {t : WifiNetDeviceTransport} :
    (f, t) ∈ node.radioFaces ↔
      (node.ctx.type = .vehicle ∧ f = node.ctx.getFaceIdFor .v2v ∧
        t = ⟨MulticastGroup.MULTICAST_V2V, .allowSame, .vehicle⟩) ∨
      (node.ctx.type = .vehicle ∧ f = node.ctx.getFaceIdFor .v2i ∧
        t = ⟨MulticastGroup.MULTICAST_V2I, .allowDifferent, .vehicle⟩) ∨
      (node.ctx.type = .rsu ∧ f = node.ctx.getFaceIdFor .v2i ∧
        t = ⟨MulticastGroup.MULTICAST_V2I, .allowDifferent, .rsu⟩) := by
  unfold radioFaces
  cases node.ctx.type <;> simp

/-- A face id stands for one transport. -/
theorem Named.find?_radioFaces (h : node.Named) {f : FaceId} {t : WifiNetDeviceTransport} :
    (node.radioFaces.find? fun e => e.1 = f).map Prod.snd = some t ↔ (f, t) ∈ node.radioFaces := by
  constructor
  · intro hfind
    obtain ⟨e, he, rfl⟩ := Option.map_eq_some_iff.mp hfind
    have hid : e.1 = f := by simpa using List.find?_some he
    exact hid ▸ List.mem_of_find?_eq_some he
  · intro hmem
    have hnodup : (node.radioFaces.map Prod.fst).Nodup := by
      unfold radioFaces
      cases htype : node.ctx.type with
      | vehicle =>
          have hne := h.v2v htype
          simp only [List.map_cons, List.map_nil, List.nodup_cons, List.mem_singleton]
          refine ⟨fun heq => ?_, by simp⟩
          cases Context.getFaceIdFor_inj h.nodup heq hne
      | _ => simp
    rw [Bimap.find?_of_nodup_map hnodup hmem]
    rfl

end Node

/-- The faces on which a frame of one node is heard at another: vehicles hear vehicles by V2V,
vehicles and RSUs hear each other by V2I. -/
def Node.HearsOn (receiver : Node F) (g : FaceId) (sender : Node F) (f : FaceId) : Prop :=
  (sender.ctx.type = .vehicle ∧ receiver.ctx.type = .vehicle ∧
    f = sender.ctx.getFaceIdFor .v2v ∧ g = receiver.ctx.getFaceIdFor .v2v) ∨
  (((sender.ctx.type = .vehicle ∧ receiver.ctx.type = .rsu) ∨
      (sender.ctx.type = .rsu ∧ receiver.ctx.type = .vehicle)) ∧
    f = sender.ctx.getFaceIdFor .v2i ∧ g = receiver.ctx.getFaceIdFor .v2i)

theorem Node.HearsOn.exists_hears {receiver sender : Node F} {f g : FaceId}
    (h : receiver.HearsOn g sender f) :
    ∃ t t', (f, t) ∈ sender.radioFaces ∧ (g, t') ∈ receiver.radioFaces ∧ t'.hears t := by
  simp only [Node.mem_radioFaces]
  rcases h with ⟨hn, hm, hf, hg⟩ | ⟨⟨hn, hm⟩ | ⟨hn, hm⟩, hf, hg⟩
  · exact ⟨_, _, Or.inl ⟨hn, hf, rfl⟩, Or.inl ⟨hm, hg, rfl⟩, by decide⟩
  · exact ⟨_, _, Or.inr (Or.inl ⟨hn, hf, rfl⟩), Or.inr (Or.inr ⟨hm, hg, rfl⟩), by decide⟩
  · exact ⟨_, _, Or.inr (Or.inr ⟨hn, hf, rfl⟩), Or.inr (Or.inl ⟨hm, hg, rfl⟩), by decide⟩

theorem Node.hearsOn_of_hears {receiver sender : Node F} {f g : FaceId}
    {t t' : WifiNetDeviceTransport} (hf : (f, t) ∈ sender.radioFaces)
    (hg : (g, t') ∈ receiver.radioFaces) (h : t'.hears t) : receiver.HearsOn g sender f := by
  unfold Node.HearsOn
  rcases Node.mem_radioFaces.mp hf with ⟨hn, hfid, rfl⟩ | ⟨hn, hfid, rfl⟩ | ⟨hn, hfid, rfl⟩ <;>
    rcases Node.mem_radioFaces.mp hg with ⟨hm, hgid, rfl⟩ | ⟨hm, hgid, rfl⟩ | ⟨hm, hgid, rfl⟩ <;>
      simp [WifiNetDeviceTransport.hears, dropPacket, hn, hm, hfid, hgid,
        MulticastGroup.MULTICAST_V2V, MulticastGroup.MULTICAST_V2I] at h ⊢

/-- A frame passes between two faces if their names allow it, and only then. -/
theorem Node.Named.hears_iff {receiver sender : Node F} (hreceiver : receiver.Named)
    (hsender : sender.Named) {f g : FaceId} {t t' : WifiNetDeviceTransport}
    (hf : (f, t) ∈ sender.radioFaces) (hg : (g, t') ∈ receiver.radioFaces) :
    t'.hears t = true ↔ receiver.HearsOn g sender f := by
  refine ⟨Node.hearsOn_of_hears hf hg, fun h => ?_⟩
  obtain ⟨u, u', hf', hg', hhears⟩ := h.exists_hears
  have ht : t = u := Option.some.inj
    ((hsender.find?_radioFaces.mpr hf).symm.trans (hsender.find?_radioFaces.mpr hf'))
  have ht' : t' = u' := Option.some.inj
    ((hreceiver.find?_radioFaces.mpr hg).symm.trans (hreceiver.find?_radioFaces.mpr hg'))
  rwa [ht, ht']

/-! ## The medium of a deployment -/

namespace Topology

variable (top : Topology F)

def transports (n : NodeId) : List (FaceId × WifiNetDeviceTransport) :=
  ((top.active n).map fun spec => (Equipment.install n spec).transports).getD []

/-- Each frame reaches the radios of the other nodes in range, and all faces on them. -/
def radio (inRange : NodeId → NodeId → Bool) : Medium F := fun _ n egress =>
  match ((top.transports n).find? fun e => e.1 = egress).map Prod.snd with
  | none => []
  | some sender =>
      (((List.range top.nodes.length).map UInt32.ofNat).filter fun m => m ≠ n ∧ inRange n m).flatMap
        fun m => ((top.transports m).filter fun e => e.2.hears sender).map fun e => (m, e.1)

/-- There is at most one radio on a node. -/
def OneRadio : Prop :=
  ∀ n spec, top.active n = some spec → Device.wifi ∈ spec.devices → spec.devices.count .wifi = 1

/-- No vehicle is in range of another node. -/
def VehiclesFar (inRange : NodeId → NodeId → Bool) : Prop :=
  ∀ n m spec, inRange n m → top.active n = some spec ∨ top.active m = some spec →
    spec.type ≠ .vehicle

end Topology

/-- The node does not depend on the graph. -/
theorem doInstall_node (G G' : Graph) (n : NodeId) (spec : NodeSpec F) :
    (doInstall G n spec).node = (doInstall G' n spec).node := by
  have hfold : ∀ (devices : List Device) (st st' : Stack F), st.node = st'.node →
      st.lastFaceId = st'.lastFaceId →
      (devices.foldl Stack.createAndRegisterFace st).node =
        (devices.foldl Stack.createAndRegisterFace st').node := by
    intro devices
    induction devices with
    | nil => exact fun st st' hnode _ => hnode
    | cons device devices ih =>
        intro st st' hnode hlast
        obtain ⟨node, lastFaceId, G⟩ := st
        obtain ⟨node', lastFaceId', G'⟩ := st'
        obtain rfl : node = node' := hnode
        obtain rfl : lastFaceId = lastFaceId' := hlast
        refine ih _ _ ?_ ?_
        · cases device with
          | pointToPoint remoteNodeId => rfl
          | other => rfl
          | wifi =>
              simp only [Stack.createAndRegisterFace, Stack.wifiNetDeviceCallback]
              cases node.ctx.type <;> rfl
        · cases device with
          | pointToPoint remoteNodeId => rfl
          | other => rfl
          | wifi =>
              simp only [Stack.createAndRegisterFace, Stack.wifiNetDeviceCallback]
              cases node.ctx.type <;> rfl
  exact hfold spec.devices _ _ rfl rfl

namespace Topology

variable (top : Topology F)

/-- The nodes of a deployment are those that its devices make. -/
theorem lookup_install {n : NodeId} {node : Node F} (h : top.install.nodes.lookup n = some node) :
    ∃ spec, top.active n = some spec ∧ node = (doInstall ∅ n spec).node := by
  suffices hall : ∀ n node, top.install.nodes.lookup n = some node →
      ∃ spec, top.active n = some spec ∧ node = (doInstall ∅ n spec).node from hall n node h
  refine List.foldlRecOn top.nodes.zipIdx _ (motive := fun (inst : Installed F) => ∀ n node,
    inst.nodes.lookup n = some node →
      ∃ spec, top.active n = some spec ∧ node = (doInstall ∅ n spec).node)
    (fun n node hnone => by simp at hnone) ?_
  intro inst ih ⟨spec, k⟩ hmem n node hlook
  have hspec : top.nodes[k]? = some spec := List.mem_zipIdx_iff_getElem?.mp hmem
  have hk : (UInt32.ofNat k).toNat = k := by
    have hlt := (List.getElem?_eq_some_iff.mp hspec).1
    have hfits := top.fits
    rw [UInt32.toNat_ofNat']
    exact Nat.mod_eq_of_lt (by omega)
  unfold Installed.install at hlook
  split at hlook
  · exact ih n node hlook
  · rename_i hactive
    by_cases hn : n = UInt32.ofNat k
    · subst hn
      rw [AList.lookup_insert] at hlook
      refine ⟨spec, ?_, ?_⟩
      · rw [active, hk, hspec, Option.filter_some, if_pos (by simpa using hactive)]
      · rw [← Option.some.inj hlook]
        exact doInstall_node _ _ _ _
    · rw [AList.lookup_insert_ne hn] at hlook
      exact ih n node hlook

theorem install_lookup {n : NodeId} {spec : NodeSpec F} (h : top.active n = some spec) :
    top.install.nodes.lookup n = some (doInstall ∅ n spec).node := by
  obtain ⟨node, hbuilt⟩ := top.built h
  obtain ⟨spec', hactive, rfl⟩ := top.lookup_install hbuilt.lookup
  obtain rfl := Option.some.inj (h.symm.trans hactive)
  exact hbuilt.lookup

theorem type_doInstall (n : NodeId) (spec : NodeSpec F) :
    (doInstall ∅ n spec).node.ctx.type = spec.type :=
  (doInstall_spec (by simp) spec).1.type_eq

variable {top}

/-- With one radio on a node, what its context names is what it has. -/
theorem OneRadio.transports_eq (h : top.OneRadio) {n : NodeId} {spec : NodeSpec F}
    (hactive : top.active n = some spec) (hwifi : Device.wifi ∈ spec.devices) :
    top.transports n = (doInstall ∅ n spec).node.radioFaces ∧
      (doInstall ∅ n spec).node.Named := by
  obtain ⟨heq, hv2v, hv2i⟩ := Equipment.install_transports n (h n spec hactive hwifi)
  have htype := type_doInstall n spec
  refine ⟨by rw [transports, hactive, Option.map_some, Option.getD_some, heq], ?_, ?_, ?_⟩
  · exact (Stack.fromCalls_doInstall ∅ n spec).nodup
  · rw [htype]
    exact hv2v
  · rw [htype]
    exact hv2i

theorem transports_eq_nil {n : NodeId} (h : ∀ spec, top.active n = some spec →
    Device.wifi ∉ spec.devices) : top.transports n = [] := by
  unfold transports
  cases hactive : top.active n with
  | none => rfl
  | some spec => exact Equipment.install_transports_nil n (h spec hactive)

theorem mem_ids {m : NodeId} {spec : NodeSpec F} (h : top.active m = some spec) :
    m ∈ (List.range top.nodes.length).map UInt32.ofNat := by
  obtain ⟨hspec, _⟩ := Option.filter_eq_some_iff.mp h
  exact List.mem_map.mpr ⟨m.toNat, List.mem_range.mpr (List.getElem?_eq_some_iff.mp hspec).1,
    UInt32.ofNat_toNat⟩

def HasRadio (top : Topology F) (n : NodeId) : Prop :=
  ∃ spec, top.active n = some spec ∧ Device.wifi ∈ spec.devices

/-- A frame that one node sends on a face may be heard by another on a face. -/
structure Reaches (top : Topology F) (n : NodeId) (f : FaceId) (m : NodeId) (g : FaceId)
    (sender receiver : Node F) : Prop where
  sends : top.install.nodes.lookup n = some sender
  hears : top.install.nodes.lookup m = some receiver
  radios : top.HasRadio n ∧ top.HasRadio m
  faces : receiver.HearsOn g sender f

theorem exists_of_mem_transports {n : NodeId} {e : FaceId × WifiNetDeviceTransport}
    (h : e ∈ top.transports n) : top.HasRadio n := by
  by_contra hno
  rw [transports_eq_nil fun spec hactive hwifi => hno ⟨spec, hactive, hwifi⟩] at h
  cases h

theorem mem_radio (inRange : NodeId → NodeId → Bool) {nodes : NodeId → Option (Node F)}
    {n m : NodeId} {f g : FaceId} : (m, g) ∈ top.radio inRange nodes n f ↔
      m ∈ (List.range top.nodes.length).map UInt32.ofNat ∧ m ≠ n ∧ inRange n m ∧
      ∃ t t', ((top.transports n).find? fun e => e.1 = f).map Prod.snd = some t ∧
        (g, t') ∈ top.transports m ∧ t'.hears t := by
  unfold radio
  cases hfind : ((top.transports n).find? fun e => e.1 = f).map Prod.snd with
  | none => simp
  | some t =>
      simp only [List.mem_flatMap, List.mem_filter, List.mem_map, decide_eq_true_eq,
        Bool.decide_and, Bool.and_eq_true, Prod.mk.injEq, Prod.exists, Option.some.injEq]
      constructor
      · rintro ⟨m', ⟨hm, hne, hrange⟩, g', t', ⟨hmem, hhears⟩, rfl, rfl⟩
        exact ⟨hm, hne, hrange, t, t', rfl, hmem, hhears⟩
      · rintro ⟨hm, hne, hrange, _, t', rfl, hmem, hhears⟩
        exact ⟨m, ⟨hm, hne, hrange⟩, g, t', ⟨hmem, hhears⟩, rfl, rfl⟩

theorem OneRadio.mem_radio (hone : top.OneRadio) (inRange : NodeId → NodeId → Bool)
    {nodes : NodeId → Option (Node F)} {n m : NodeId} {f g : FaceId} :
    (m, g) ∈ top.radio inRange nodes n f ↔
      m ≠ n ∧ inRange n m ∧ ∃ sender receiver, top.Reaches n f m g sender receiver := by
  rw [Topology.mem_radio]
  constructor
  · rintro ⟨_, hne, hrange, t, t', hfind, hmem, hhears⟩
    obtain ⟨e, he, _⟩ := Option.map_eq_some_iff.mp hfind
    obtain ⟨spec, hactive, hwifi⟩ := exists_of_mem_transports (List.mem_of_find?_eq_some he)
    obtain ⟨spec', hactive', hwifi'⟩ := exists_of_mem_transports hmem
    obtain ⟨heq, hnamed⟩ := hone.transports_eq hactive hwifi
    obtain ⟨heq', hnamed'⟩ := hone.transports_eq hactive' hwifi'
    rw [heq, hnamed.find?_radioFaces] at hfind
    rw [heq'] at hmem
    refine ⟨hne, hrange, _, _, top.install_lookup hactive, top.install_lookup hactive',
      ⟨⟨spec, hactive, hwifi⟩, spec', hactive', hwifi'⟩, Node.hearsOn_of_hears hfind hmem hhears⟩
  · rintro ⟨hne, hrange, sender, receiver, hsends, hhears,
      ⟨⟨spec, hactive, hwifi⟩, spec', hactive', hwifi'⟩, hfaces⟩
    obtain ⟨heq, hnamed⟩ := hone.transports_eq hactive hwifi
    obtain ⟨heq', hnamed'⟩ := hone.transports_eq hactive' hwifi'
    obtain rfl := Option.some.inj (hsends.symm.trans (top.install_lookup hactive))
    obtain rfl := Option.some.inj (hhears.symm.trans (top.install_lookup hactive'))
    obtain ⟨t, t', hf, hg, hpass⟩ := hfaces.exists_hears
    rw [heq, heq']
    exact ⟨mem_ids hactive', hne, hrange, t, t', hnamed.find?_radioFaces.mpr hf, hg, hpass⟩

theorem OneRadio.hears_iff (hone : top.OneRadio) {n m : NodeId} {f g : FaceId}
    {t t' : WifiNetDeviceTransport} (hf : (f, t) ∈ top.transports n)
    (hg : (g, t') ∈ top.transports m) :
    t'.hears t = true ↔ ∃ sender receiver, top.Reaches n f m g sender receiver := by
  obtain ⟨spec, hactive, hwifi⟩ := exists_of_mem_transports hf
  obtain ⟨spec', hactive', hwifi'⟩ := exists_of_mem_transports hg
  obtain ⟨heq, hnamed⟩ := hone.transports_eq hactive hwifi
  obtain ⟨heq', hnamed'⟩ := hone.transports_eq hactive' hwifi'
  rw [heq] at hf
  rw [heq'] at hg
  rw [hnamed'.hears_iff hnamed hf hg]
  constructor
  · intro hhears
    exact ⟨_, _, top.install_lookup hactive, top.install_lookup hactive',
      ⟨⟨spec, hactive, hwifi⟩, spec', hactive', hwifi'⟩, hhears⟩
  · rintro ⟨sender, receiver, hreach⟩
    obtain rfl := Option.some.inj (hreach.sends.symm.trans (top.install_lookup hactive))
    obtain rfl := Option.some.inj (hreach.hears.symm.trans (top.install_lookup hactive'))
    exact hreach.faces

/-- The deployment before anything has happened. -/
def start (top : Topology F) : Net F := ⟨0, top.install.nodes.lookup, [], []⟩

/-- The wires and the radio. -/
def medium (top : Topology F) (wires : Medium F) (inRange : NodeId → NodeId → Bool) : Medium F :=
  fun nodes n f => wires nodes n f ++ top.radio inRange nodes n f

end Topology

/-- In every built deployment with one radio on a node, a packet that a node sends on a face of
its radio comes out of a face of another radio unchanged if the names of the two faces allow
it, and is dropped there otherwise; so it is with the packets of the link services. -/
theorem packet_over_the_air {top : Topology F} (hone : top.OneRadio) {n m : NodeId}
    {f g : FaceId} {t t' : WifiNetDeviceTransport} (hf : (f, t) ∈ top.transports n)
    (hg : (g, t') ∈ top.transports m) {packet : Block} (hfits : packet.Fits)
    (hsize : packet.wire.length ≤ 8800) :
    ((∃ sender receiver, top.Reaches n f m g sender receiver) →
      t'.receiveFrame (t.doSend packet) = .ok (some packet)) ∧
    ((¬ ∃ sender receiver, top.Reaches n f m g sender receiver) →
      t'.receiveFrame (t.doSend packet) = .ok none) ∧
    ∀ lpPacket, (t'.receiveFromNetDevice lpPacket t.remoteAddress t.nodeType).isSome = true ↔
      ∃ sender receiver, top.Reaches n f m g sender receiver := by
  rw [t'.receiveFrame_doSend t hfits hsize, ← hone.hears_iff hf hg]
  refine ⟨fun h => by rw [if_pos h], fun h => by rw [if_neg h], fun lpPacket => ?_⟩
  rw [t'.isSome_receiveFromNetDevice t]

/-- The radio keeps apart what the two multicast groups are for. -/
theorem Topology.OneRadio.filtered {top : Topology F} (hone : top.OneRadio) {wires : Medium F}
    (inRange : NodeId → NodeId → Bool)
    (hwires : ∀ nodes n f m g spec, (m, g) ∈ wires nodes n f → top.active m = some spec →
      spec.type ≠ .vehicle) : Net.Filtered (top.medium wires inRange) top.start := by
  intro nodes n egress m ingress sender receiver hconfig hmem hsender hreceiver hvehicle
  obtain ⟨sender₀, hsender₀, hsame⟩ := hconfig n sender hsender
  obtain ⟨receiver₀, hreceiver₀, hsame'⟩ := hconfig m receiver hreceiver
  have htype' : receiver.ctx.type = receiver₀.ctx.type := congrArg Node.Config.type hsame'
  have hmap : sender.ctx.faceContextMap = sender₀.ctx.faceContextMap :=
    congrArg Node.Config.faceContextMap hsame
  have hmap' : receiver.ctx.faceContextMap = receiver₀.ctx.faceContextMap :=
    congrArg Node.Config.faceContextMap hsame'
  obtain ⟨spec, hactive, rfl⟩ := top.lookup_install hreceiver₀
  have hspec : spec.type = .vehicle := by rw [← Topology.type_doInstall m, ← htype', hvehicle]
  rcases List.mem_append.mp hmem with hmem | hmem
  · exact absurd hspec (hwires nodes n egress m ingress spec hmem hactive)
  · obtain ⟨_, _, sender', receiver', hreach⟩ := (hone.mem_radio inRange).mp hmem
    obtain rfl := Option.some.inj (hreach.sends.symm.trans hsender₀)
    obtain rfl := Option.some.inj (hreach.hears.symm.trans hreceiver₀)
    obtain ⟨⟨spec₁, hactive₁, hwifi₁⟩, spec₂, hactive₂, hwifi₂⟩ := hreach.radios
    have hnamed := (hone.transports_eq hactive₁ hwifi₁).2
    have hnamed' := (hone.transports_eq hactive₂ hwifi₂).2
    obtain rfl := Option.some.inj (hreach.sends.symm.trans (top.install_lookup hactive₁))
    obtain rfl := Option.some.inj (hactive.symm.trans hactive₂)
    have htype := Topology.type_doInstall n spec₁
    have hctx : sender.ctx.type = spec₁.type := (congrArg Node.Config.type hsame).trans htype
    rcases hreach.faces with ⟨hn, hm, hf, hg⟩ | ⟨⟨hn, hm⟩ | ⟨hn, hm⟩, hf, hg⟩
    · refine Or.inl ⟨hctx.trans (htype.symm.trans hn), ?_, ?_⟩
      · rw [hf, Context.getFaceIdFor, Context.getFaceIdFor, hmap]
      · rw [Context.getContextFor, hmap', ← Context.getContextFor, hg,
          Context.getContextFor_getFaceIdFor hnamed'.nodup (hnamed'.v2v hm)]
        intro heq
        cases heq
    · rw [hm] at htype'
      cases hvehicle.symm.trans htype'
    · refine Or.inr ⟨hctx.trans (htype.symm.trans hn), ?_, ?_⟩
      · rw [hf]
        exact hnamed.v2i (Or.inr hn)
      · rw [hf, Context.getFaceIdFor, Context.getFaceIdFor, hmap]

/-- RSUs do not hear each other by radio. -/
theorem Topology.OneRadio.radio_eq_nil {top : Topology F} (hone : top.OneRadio)
    {inRange : NodeId → NodeId → Bool} (hfar : top.VehiclesFar inRange)
    (nodes : NodeId → Option (Node F)) (n : NodeId) (f : FaceId) :
    top.radio inRange nodes n f = [] := by
  refine List.eq_nil_iff_forall_not_mem.mpr fun ⟨m, g⟩ hmem => ?_
  obtain ⟨_, hrange, sender, receiver, hreach⟩ := (hone.mem_radio inRange).mp hmem
  obtain ⟨spec, hactive, rfl⟩ := top.lookup_install hreach.sends
  obtain ⟨spec', hactive', rfl⟩ := top.lookup_install hreach.hears
  have hn := hfar n m spec hrange (Or.inl hactive)
  have hm := hfar n m spec' hrange (Or.inr hactive')
  rw [← Topology.type_doInstall n] at hn
  rw [← Topology.type_doInstall m] at hm
  rcases hreach.faces with ⟨hv, _⟩ | ⟨⟨hv, _⟩ | ⟨_, hv⟩, _⟩
  · exact hn hv
  · exact hn hv
  · exact hm hv

/-- The medium of a built deployment is one that the results about networks ask for: a frame is
heard on the faces in range that its face is meant for and on no others, so vehicles hear
vehicles by V2V and RSUs by V2I only, and while no vehicle is in range, RSUs hear each other
over the wires only. -/
theorem deployment_medium {top : Topology F} (hone : top.OneRadio) {wires : Medium F}
    (inRange : NodeId → NodeId → Bool) :
    (∀ nodes n f m g, (m, g) ∈ top.radio inRange nodes n f ↔
      m ≠ n ∧ inRange n m ∧ ∃ sender receiver, top.Reaches n f m g sender receiver) ∧
    ((∀ nodes n f m g spec, (m, g) ∈ wires nodes n f → top.active m = some spec →
        spec.type ≠ .vehicle) → Net.Filtered (top.medium wires inRange) top.start) ∧
    (top.VehiclesFar inRange → Medium.Wires top.install.infra.routingInfo wires →
      Medium.Wires top.install.infra.routingInfo (top.medium wires inRange)) := by
  refine ⟨fun nodes n f m g => hone.mem_radio inRange, hone.filtered inRange,
    fun hfar hwires nodes n f => ?_⟩
  rw [Topology.medium, hone.radio_eq_nil hfar, List.append_nil]
  exact hwires nodes n f

/-! ## A vehicle near an RSU -/

namespace RoadSide

noncomputable def vehicle : NodeSpec ℝ := ⟨.vehicle, .active, some ⟨0, 0⟩, (50 : ℕ), [.wifi]⟩

noncomputable def rsu : NodeSpec ℝ := ⟨.rsu, .active, some ⟨(30 : ℕ), 0⟩, (50 : ℕ), [.other, .wifi]⟩

noncomputable def top : Topology ℝ where
  nodes := [vehicle, rsu]
  fits := by simp
  paired := by
    intro a b
    have hnone : ∀ c d, (devicesOf [vehicle, rsu] c).count (.pointToPoint d) = 0 := by
      intro c d
      unfold devicesOf
      rcases c.toNat with _ | _ | k <;> simp [vehicle, rsu]
    rw [hnone, hnone]

theorem active {n : NodeId} {spec : NodeSpec ℝ} (h : top.active n = some spec) :
    spec = vehicle ∨ spec = rsu := by
  obtain ⟨hspec, _⟩ := Option.filter_eq_some_iff.mp h
  simpa [top] using List.mem_of_getElem? hspec

theorem top_oneRadio : top.OneRadio := by
  intro n spec hactive _
  rcases active hactive with rfl | rfl <;> simp [vehicle, rsu]

theorem transports_vehicle :
    (257, ⟨MulticastGroup.MULTICAST_V2I, .allowDifferent, .vehicle⟩) ∈ top.transports 0 := by
  have hactive : top.active 0 = some vehicle := by simp [Topology.active, top, vehicle]
  rw [Topology.transports, hactive]
  exact List.mem_cons_of_mem _ List.mem_cons_self

theorem transports_rsu :
    (257, ⟨MulticastGroup.MULTICAST_V2I, .allowDifferent, .rsu⟩) ∈ top.transports 1 := by
  have hactive : top.active 1 = some rsu := by simp [Topology.active, top, rsu]
  rw [Topology.transports, hactive]
  exact List.mem_cons_self

end RoadSide

theorem packet_over_the_air_vehicle :
    (⟨MulticastGroup.MULTICAST_V2I, .allowDifferent, .rsu⟩ : WifiNetDeviceTransport).receiveFrame
      ((⟨MulticastGroup.MULTICAST_V2I, .allowDifferent, .vehicle⟩ :
        WifiNetDeviceTransport).doSend ⟨6, [1, 2, 3]⟩) = .ok (some ⟨6, [1, 2, 3]⟩) := by
  refine (packet_over_the_air RoadSide.top_oneRadio RoadSide.transports_vehicle
    RoadSide.transports_rsu ⟨by decide, by decide, by decide⟩ (by decide)).1 ?_
  exact (RoadSide.top_oneRadio.hears_iff RoadSide.transports_vehicle
    RoadSide.transports_rsu).mp (by decide)

theorem deployment_medium_roadSide :
    Net.Filtered (RoadSide.top.medium (fun _ _ _ => []) fun _ _ => true) RoadSide.top.start :=
  (deployment_medium RoadSide.top_oneRadio _).2.1 fun _ _ _ _ _ _ hmem => by cases hmem

end Cafe
