import Cafe.Routing
import Cafe.Zor

/-!
# The context of a node

The alert store keeps its entries most recent first and its names apart;
the registry maps the name of an alert to the simulator event that is to
relay it.
-/

namespace Cafe

inductive NodeType
  | none
  | vehicle
  | rsu
  | backbone
  deriving DecidableEq, Repr

inductive NodeStatus
  | unknown
  | active
  | inactive
  deriving DecidableEq, Repr

/-- The strings that name the faces of a node. -/
inductive FaceContext
  | v2v
  | v2i
  | v2x
  | undefined
  | p2p (fromNodeId toNodeId : NodeId)
  deriving DecidableEq, Repr

abbrev EventId := ℕ

variable {F : Type} [Arith F]

/-! ## The alert store -/

structure AlertStore.Entry (F : Type) where
  name : Name F
  senderType : NodeType
  senderPos : Point F

/-- The list `m_order`; `m_lookup` leads from a name to its element. -/
structure AlertStore (F : Type) where
  maxSize : ℕ
  order : List (AlertStore.Entry F)
  nodup : (order.map AlertStore.Entry.name).Nodup

namespace AlertStore

def names (as : AlertStore F) : List (Name F) := as.order.map Entry.name

def isDuplicate (as : AlertStore F) (name : Name F) : Prop := name ∈ as.names

instance (as : AlertStore F) (name : Name F) : Decidable (as.isDuplicate name) :=
  inferInstanceAs (Decidable (name ∈ as.names))

def get (as : AlertStore F) (name : Name F) : Option (Entry F) :=
  as.order.find? fun entry => entry.name = name

def evictOldest (as : AlertStore F) : AlertStore F where
  maxSize := as.maxSize
  order := as.order.dropLast
  nodup := as.nodup.sublist ((List.dropLast_sublist _).map _)

def pushFront (as : AlertStore F) (entry : Entry F) (h : ¬ as.isDuplicate entry.name) :
    AlertStore F where
  maxSize := as.maxSize
  order := entry :: as.order
  nodup := List.nodup_cons.mpr ⟨h, as.nodup⟩

/-- Move the element of a name to the front. -/
def splice (as : AlertStore F) (name : Name F) : AlertStore F where
  maxSize := as.maxSize
  order := as.order.filter (fun entry => entry.name = name) ++
    as.order.filter (fun entry => ¬ entry.name = name)
  nodup := by
    have hperm := List.filter_append_perm (fun entry : Entry F => decide (entry.name = name))
      as.order
    simp only [decide_not]
    exact ((hperm.map Entry.name).nodup_iff).mpr as.nodup

def insertOrUpdate (as : AlertStore F) (entry : Entry F) : AlertStore F :=
  if h : as.isDuplicate entry.name then
    as.splice entry.name
  else
    let as' := as.pushFront entry h
    if as'.maxSize < as'.order.length then as'.evictOldest else as'

end AlertStore

/-! ## The registry of deferred relays -/

abbrev DeferredRegistry (F : Type) [Arith F] := UnorderedMap (Name F) EventId

namespace DeferredRegistry

def register (r : DeferredRegistry F) (name : Name F) (id : EventId) : DeferredRegistry F :=
  AList.insert name id r

def isRegistered (r : DeferredRegistry F) (name : Name F) : Prop := name ∈ r

instance (r : DeferredRegistry F) (name : Name F) : Decidable (r.isRegistered name) :=
  inferInstanceAs (Decidable (name ∈ r))

def complete (r : DeferredRegistry F) (name : Name F) : DeferredRegistry F := AList.erase name r

end DeferredRegistry

/-! ## The context -/

/-- The object that the forwarder finds on a node. -/
structure Context (F : Type) [Arith F] where
  type : NodeType
  status : NodeStatus
  faceContextMap : List (FaceId × FaceContext)
  alertStore : AlertStore F
  registry : DeferredRegistry F
  isRsuAvailable : Bool
  txRadius : F
  txRate : F

namespace Context

/-- A fresh context. -/
def init (F : Type) [Arith F] : Context F where
  type := .none
  status := .unknown
  faceContextMap := []
  alertStore := ⟨100, [], List.nodup_nil⟩
  registry := ∅
  isRsuAvailable := false
  txRadius := Arith.lit 50
  txRate := Arith.lit 3000000

/-- A bidirectional map refuses a pair of which it knows either half. -/
def setFaceIdContext (ctx : Context F) (faceId : FaceId) (context : FaceContext) : Context F :=
  if ctx.faceContextMap.any fun e => e.1 = faceId ∨ e.2 = context then ctx
  else { ctx with faceContextMap := (faceId, context) :: ctx.faceContextMap }

def getFaceIdFor (ctx : Context F) (context : FaceContext) : FaceId :=
  ((ctx.faceContextMap.find? fun e => e.2 = context).map Prod.fst).getD 0

def getContextFor (ctx : Context F) (faceId : FaceId) : FaceContext :=
  ((ctx.faceContextMap.find? fun e => e.1 = faceId).map Prod.snd).getD .undefined

end Context

end Cafe
