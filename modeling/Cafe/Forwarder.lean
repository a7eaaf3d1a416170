import Cafe.Context
import Cafe.Destinations

/-!
# Forwarding an alert

The handlers take the node and give it back with the transmissions they
make and their verdict on the relevance of the alert. Positions are kept as
the points that the forwarder converts them to. Every node of the model has
a context; the handlers drop the alerts of a node without one.
-/

namespace Cafe

variable {F : Type} [Arith F]

inductive FaceScope
  | isLocal
  | nonLocal
  deriving DecidableEq, Repr

/-- A face of the forwarder, as opposed to the entry of the routing graph. -/
structure NfdFace where
  faceId : FaceId
  scope : FaceScope
  deriving DecidableEq, Repr

/-- An alert with its tags. The field `uid` is read by no handler; it tells
from which transmission a copy comes. -/
structure Data (F : Type) where
  name : Name F
  size : ℕ
  senderType : Option NodeType
  senderPos : Option (Point F)
  destinationNodes : Option DestinationNodes
  uid : ℕ

/-- A scheduled call of `deferredOutgoingAlert`. -/
structure Deferred (F : Type) where
  id : EventId
  due : ℕ
  data : Data F
  egress : FaceId

structure Node (F : Type) [Arith F] where
  nodeId : NodeId
  mobility : Option (Point F)
  ctx : Context F
  faceTable : List NfdFace
  events : List (Deferred F)
  nextEvent : EventId

structure Outgoing (F : Type) where
  egress : FaceId
  data : Data F

/-- What a handler leaves behind. -/
structure Outcome (F : Type) [Arith F] where
  node : Node F
  sent : List (Outgoing F)
  relevant : Bool

/-- The graph and the positions that all contexts share. -/
structure Infrastructure (F : Type) where
  routingInfo : Graph
  positionInfo : NodePosition F

namespace Node

def drop (node : Node F) : Outcome F := ⟨node, [], false⟩

/-- The face table yields a null pointer for an unknown face, and the caller
dereferences it. -/
def getFace (node : Node F) (faceId : FaceId) : Except Fault NfdFace :=
  match node.faceTable.find? fun face => face.faceId = faceId with
  | some face => .ok face
  | none => .error .nullFace

def insertAlert (node : Node F) (entry : AlertStore.Entry F) : Node F :=
  { node with ctx := { node.ctx with alertStore := node.ctx.alertStore.insertOrUpdate entry } }

/-- `Simulator::Schedule` and `DeferredRegistry::Register` -/
def schedule (node : Node F) (due : ℕ) (data : Data F) (egress : FaceId) : Node F :=
  { node with
    ctx := { node.ctx with registry := node.ctx.registry.register data.name node.nextEvent }
    events := node.events ++ [⟨node.nextEvent, due, data, egress⟩]
    nextEvent := node.nextEvent + 1 }

/-- `DeferredRegistry::Cancel` -/
def cancel (node : Node F) (name : Name F) : Node F :=
  match node.ctx.registry.lookup name with
  | none => node
  | some id =>
      { node with
        ctx := { node.ctx with registry := AList.erase name node.ctx.registry }
        events := node.events.filter fun d => d.id ≠ id }

/-- Set the tags of the sender and transmit. -/
def onOutgoingAlert (node : Node F) (data : Data F) (egress : FaceId) : Outgoing F where
  egress := egress
  data :=
    { data with
      senderType := some node.ctx.type
      senderPos := match node.mobility with
        | some v => some v
        | none => data.senderPos }

/-- The event `d` fires. -/
def deferredOutgoingAlert (node : Node F) (d : Deferred F) : Outcome F :=
  let node' : Node F :=
    { node with ctx := { node.ctx with registry := node.ctx.registry.complete d.data.name } }
  ⟨node', [node'.onOutgoingAlert d.data d.egress], false⟩

/-- Transmit on the face registered under `context`, if there is one. -/
def sendOn (node : Node F) (context : FaceContext) (data : Data F) :
    Except Fault (List (Outgoing F)) := do
  let faceId := node.ctx.getFaceIdFor context
  if faceId ≠ 0 then
    let face ← node.getFace faceId
    return [node.onOutgoingAlert data face.faceId]
  else
    return []

def checkInside (node : Node F) (zor : ZoR F) : Bool :=
  match node.mobility with
  | some v => zor.contains v
  | none => false

end Node

/-- The sender is inside the zone or closer to it than the node. -/
def CloserToZoR (zor : ZoR F) (senderPos nodePos : Point F) : Prop :=
  zor.contains senderPos ∨ zor.distanceToBoundary senderPos < zor.distanceToBoundary nodePos

instance (zor : ZoR F) (senderPos nodePos : Point F) :
    Decidable (CloserToZoR zor senderPos nodePos) := inferInstanceAs (Decidable (_ ∨ _))

/-- The test for cancelling a pending relay when a further copy arrives. -/
def Suppresses (zor : ZoR F) (as : AlertStore F) (name : Name F) (nodePos senderPos : Point F) :
    Prop :=
  if ¬ zor.contains nodePos then
    CloserToZoR zor senderPos nodePos
  else
    match as.get name with
    | some entry => entry.senderPos.distanceFromPoint nodePos <
        entry.senderPos.distanceFromPoint senderPos
    | none => False

instance (zor : ZoR F) (as : AlertStore F) (name : Name F) (nodePos senderPos : Point F) :
    Decidable (Suppresses zor as name nodePos senderPos) := by
  unfold Suppresses
  split
  · infer_instance
  · split <;> infer_instance

/-- The delay of a relay in nanoseconds; it is the longer the nearer the sender. -/
def deferDelay (ctx : Context F) (size : ℕ) (dist : F) : ℕ :=
  let tTx := Arith.lit (size * 8 : ℕ) / ctx.txRate
  let tProp := ctx.txRadius / (Arith.lit 3 * Arith.lit 100000000)
  let tBuffer := Arith.lit (2 / 1000)
  let tMax_in_ms := (tTx + tProp + tBuffer) * Arith.lit 1000
  let delay_in_ms := Arith.lit 2 * tMax_in_ms * stdClamp (1 - dist / ctx.txRadius) 0 1
  Arith.trunc (delay_in_ms * Arith.lit 1000000)

/-- The face of a relay, and the alert as it is to be relayed there. -/
def relayOn (node : Node F) (data : Data F) (ingress : NfdFace) (senderType : NodeType) :
    Option NfdFace × Data F :=
  if node.ctx.getContextFor ingress.faceId ≠ .v2i ∧ senderType ≠ .rsu ∧
      node.ctx.isRsuAvailable then
    let v2i := node.ctx.getFaceIdFor .v2i
    if v2i ≠ 0 then
      (node.faceTable.find? fun face => face.faceId = v2i, { data with destinationNodes := none })
    else
      (none, data)
  else
    let v2v := node.ctx.getFaceIdFor .v2v
    if v2v ≠ 0 then
      (node.faceTable.find? fun face => face.faceId = v2v, data)
    else
      (none, data)

def alertVehicleHandler (now : ℕ) (data : Data F) (ingress : NfdFace) (zor : ZoR F)
    (node : Node F) : Except Fault (Outcome F) :=
  match node.mobility with
  | none => .ok node.drop
  | some nodePos =>
      let senderType := data.senderType.getD .none
      match data.senderPos with
      | none =>
          if ingress.scope ≠ .isLocal then
            .ok node.drop
          else do
            -- the producer of the alert sends immediately
            let sent ← node.sendOn (if node.ctx.isRsuAvailable then .v2i else .v2v) data
            return ⟨node.insertAlert ⟨data.name, .vehicle, nodePos⟩, sent, zor.contains nodePos⟩
      | some senderPos =>
          if node.ctx.alertStore.isDuplicate data.name then
            if node.ctx.registry.isRegistered data.name ∧
                Suppresses zor node.ctx.alertStore data.name nodePos senderPos then
              .ok (node.cancel data.name).drop
            else
              .ok node.drop
          else
            let node' := node.insertAlert ⟨data.name, senderType, senderPos⟩
            -- keep the alert from moving away from the zone
            if ¬ zor.contains nodePos ∧ CloserToZoR zor senderPos nodePos then
              .ok node'.drop
            else
              let delay := deferDelay node'.ctx data.size (nodePos.distanceFromPoint senderPos)
              match relayOn node' data ingress senderType with
              | (some face, data') =>
                  .ok ⟨node'.schedule (now + delay) data' face.faceId, [], zor.contains nodePos⟩
              | (none, _) => .ok ⟨node', [], zor.contains nodePos⟩

/-- The destinations of the alert: those of its tag, else those computed for
its zone. -/
def destinations (fuel : ℕ) (infra : Infrastructure F) (data : Data F) (zor : ZoR F)
    (node : Node F) : Except Fault DestinationNodes :=
  match data.destinationNodes with
  | some dstNodes => .ok dstNodes
  | none =>
      computeDestinationNodes fuel infra.routingInfo infra.positionInfo node.ctx.txRadius
        node.nodeId zor

/-- A destination transmits on its V2I face and takes itself off the list. -/
def broadcast (data : Data F) (dstNodes : DestinationNodes) (node : Node F) :
    Except Fault (DestinationNodes × List (Outgoing F)) := do
  let v2i := node.ctx.getFaceIdFor .v2i
  if node.nodeId ∈ dstNodes ∧ v2i ≠ 0 then
    let face ← node.getFace v2i
    return (dstNodes.filter (· ≠ node.nodeId),
      [node.onOutgoingAlert { data with destinationNodes := none } face.faceId])
  else
    return (dstNodes, [])

/-- Transmit its share on each face that Mira yields. -/
def forwardShares (fuel : ℕ) (infra : Infrastructure F) (data : Data F)
    (dstNodes : DestinationNodes) (node : Node F) : Except Fault (List (Outgoing F)) :=
  if dstNodes.isEmpty then
    .ok []
  else do
    let entries ← mira fuel infra.routingInfo dstNodes node.nodeId
    entries.entries.mapM fun entry => do
      let face ← node.getFace entry.1
      return node.onOutgoingAlert { data with destinationNodes := some entry.2 } face.faceId

def alertRsuHandler (fuel : ℕ) (infra : Infrastructure F) (data : Data F) (zor : ZoR F)
    (node : Node F) : Except Fault (Outcome F) :=
  if node.ctx.alertStore.isDuplicate data.name then
    .ok node.drop
  else do
    let node' := node.insertAlert ⟨data.name, .none, ⟨0, 0⟩⟩
    let dstNodes ← destinations fuel infra data zor node'
    let (rest, sent) ← broadcast data dstNodes node'
    let wired ← forwardShares fuel infra data rest node'
    return ⟨node', sent ++ wired, node'.checkInside zor⟩

/-- The verdict is whether the alert is passed on to the local consumers. -/
def onIncomingAlert (fuel : ℕ) (infra : Infrastructure F) (now : ℕ) (data : Data F)
    (ingress : NfdFace) (node : Node F) : Except Fault (Outcome F) :=
  match extractZoR data.name with
  | none => .ok ⟨node, [], true⟩
  | some .neighbor =>
      if ingress.scope = .nonLocal then
        .ok ⟨node, [], true⟩
      else
        .ok ⟨node, (node.faceTable.filter fun face => face.scope = .nonLocal).map fun face =>
          node.onOutgoingAlert data face.faceId, false⟩
  | some zor =>
      match node.ctx.type with
      | .vehicle => alertVehicleHandler now data ingress zor node
      | .rsu => alertRsuHandler fuel infra data zor node
      | _ => .ok node.drop

/-! ## The events of a node -/

/-- What can happen at a node: a copy arrives, a timer expires, a hello or
its timeout changes the availability of an RSU, the node moves. -/
inductive NodeEvent (F : Type)
  | receive (now : ℕ) (data : Data F) (ingress : NfdFace)
  | expire (id : EventId)
  | hello (available : Bool)
  | move (pos : Point F)

def Node.expire (node : Node F) (id : EventId) : Outcome F :=
  match node.events.find? fun d => d.id = id with
  | none => node.drop
  | some d => ({ node with events := node.events.filter fun d => d.id ≠ id } : Node F)
      |>.deferredOutgoingAlert d

def Node.handle (fuel : ℕ) (infra : Infrastructure F) (node : Node F) :
    NodeEvent F → Except Fault (Outcome F)
  | .receive now data ingress => onIncomingAlert fuel infra now data ingress node
  | .expire id => .ok (node.expire id)
  | .hello available =>
      .ok ({ node with ctx := { node.ctx with isRsuAvailable := available } } : Node F).drop
  | .move pos => .ok ({ node with mobility := node.mobility.map fun _ => pos } : Node F).drop

end Cafe
