import Mathlib.Data.List.AList
import Mathlib.Data.List.Sort
import Mathlib.Tactic

/-!
# Multicast routing between RSUs

`mira` runs Dijkstra from the current node and splits the destinations by
the first hop towards them. The tables are hash maps, the queue is a
binary heap of which only the order of the pops is visible, and costs are
32-bit words whose sums wrap. Every loop takes fuel; a call that has not
returned when the fuel is gone reports `outOfFuel`.
-/

namespace Cafe

abbrev UnorderedMap (K V : Type) := AList fun _ : K => V

abbrev FaceId := ℕ

abbrev NodeId := UInt32

abbrev Cost := UInt32

instance decidableMemNodes (v : NodeId) (nodes : List NodeId) : Decidable (v ∈ nodes) :=
  List.instDecidableMemOfLawfulBEq v nodes

/-- How a call can fail to return normally. -/
inductive Fault
  | outOfRange
  | nullFace
  | outOfFuel
  deriving DecidableEq, Repr

/-- A lookup with `at`, which throws when the key is missing. -/
def UnorderedMap.atKey {K V : Type} [DecidableEq K] (m : UnorderedMap K V) (k : K) :
    Except Fault V :=
  match m.lookup k with
  | some v => .ok v
  | none => .error .outOfRange

structure Face where
  faceId : FaceId
  remoteNodeId : NodeId
  linkCost : Cost
  deriving DecidableEq, Repr, Inhabited

abbrev Graph := UnorderedMap NodeId (List Face)

/-- A hash set of node ids, in the order in which it is enumerated. -/
abbrev DestinationNodes := List NodeId

namespace Mira

/-- `std::numeric_limits<Cost>::max()`, the distance of an unreached node. -/
def maxCost : Cost := 4294967295

/-- `NodeId(-1)`, the parent of a node that has none. -/
def undefinedNode : NodeId := 4294967295

abbrev CostNodePair := Cost × NodeId

/-- The order of `std::pair`, under which the heap keeps its least element
on top. -/
def CostNodePair.le (a b : CostNodePair) : Prop :=
  a.1 < b.1 ∨ (a.1 = b.1 ∧ a.2 ≤ b.2)

instance : DecidableRel CostNodePair.le := fun a b => by
  unfold CostNodePair.le
  infer_instance

/-- The tables of the search and its heap, the top first. -/
structure Tables where
  distance : UnorderedMap NodeId Cost
  parent : UnorderedMap NodeId NodeId
  queue : List CostNodePair

def Tables.init (G : Graph) (sourceId : NodeId) : Tables where
  distance :=
    let distance : UnorderedMap NodeId Cost :=
      G.keys.foldl (fun m nodeId => AList.insert nodeId maxCost m) ∅
    distance.insert sourceId 0
  parent := G.keys.foldl (fun m nodeId => AList.insert nodeId undefinedNode m) ∅
  queue := [(0, sourceId)]

/-- One round of the loop over the faces of the popped node. -/
def relaxFace (nodeId : NodeId) (nodeCost : Cost) (t : Tables) (face : Face) :
    Except Fault Tables := do
  let remoteCost ← t.distance.atKey face.remoteNodeId
  if nodeCost + face.linkCost < remoteCost then
    let remoteCost' := nodeCost + face.linkCost
    return { distance := t.distance.insert face.remoteNodeId remoteCost'
             parent := t.parent.insert face.remoteNodeId nodeId
             queue := t.queue.orderedInsert CostNodePair.le (remoteCost', face.remoteNodeId) }
  else
    return t

/-- One round of the loop of Dijkstra, for the popped pair. -/
def popNode (G : Graph) (cost : Cost) (nodeId : NodeId) (t : Tables) : Except Fault Tables := do
  let nodeCost ← t.distance.atKey nodeId
  if nodeCost < cost then
    return t
  else
    match G.lookup nodeId with
    | none => return t
    | some faces => faces.foldlM (relaxFace nodeId nodeCost) t

def dijkstra (G : Graph) : ℕ → Tables → Except Fault Tables
  | 0, _ => .error .outOfFuel
  | fuel + 1, t =>
      match t.queue with
      | [] => .ok t
      | (cost, nodeId) :: rest => do
          let t' ← popNode G cost nodeId { t with queue := rest }
          dijkstra G fuel t'

/-- The walk along the parents. It yields the child of the source above
`cNode`, or nothing when the walk ends at a node without parent. -/
def firstHop (parent : UnorderedMap NodeId NodeId) (sourceId : NodeId) :
    ℕ → NodeId → Except Fault (Option NodeId)
  | 0, _ => .error .outOfFuel
  | fuel + 1, cNode => do
      let pNode ← parent.atKey cNode
      if pNode ≠ undefinedNode ∧ pNode ≠ sourceId then
        firstHop parent sourceId fuel pNode
      else if pNode = sourceId then
        return some cNode
      else
        return none

abbrev NextHops := UnorderedMap NodeId DestinationNodes

/-- `ir[cNode].insert(nodeId)` -/
def NextHops.add (ir : NextHops) (cNode nodeId : NodeId) : NextHops :=
  AList.insert cNode (((ir.lookup cNode).getD []).insert nodeId) ir

/-- One round of the loop over the destinations. -/
def addDestination (fuel : ℕ) (t : Tables) (sourceId : NodeId) (ir : NextHops)
    (nodeId : NodeId) : Except Fault NextHops := do
  let cost ← t.distance.atKey nodeId
  if cost = maxCost then
    return ir
  else
    match ← firstHop t.parent sourceId fuel nodeId with
    | none => return ir
    | some cNode => return ir.add cNode nodeId

/-- One round of the loop that turns next hops into faces. -/
def addFace (G : Graph) (sourceId : NodeId) (result : UnorderedMap FaceId DestinationNodes)
    (entry : Σ _ : NodeId, DestinationNodes) :
    Except Fault (UnorderedMap FaceId DestinationNodes) := do
  if entry.1 ∈ G then
    let faces ← G.atKey sourceId
    match faces.find? fun face => face.remoteNodeId = entry.1 with
    | none => return result
    | some face => return result.insert face.faceId entry.2
  else
    return result

end Mira

/-- The outgoing faces of `sourceId`, each with the destinations behind it. -/
def mira (fuel : ℕ) (G : Graph) (destinationNodes : DestinationNodes) (sourceId : NodeId) :
    Except Fault (UnorderedMap FaceId DestinationNodes) := do
  let t ← Mira.dijkstra G fuel (Mira.Tables.init G sourceId)
  let ir ← destinationNodes.foldlM (Mira.addDestination fuel t sourceId) ∅
  ir.entries.foldlM (Mira.addFace G sourceId) ∅

end Cafe
