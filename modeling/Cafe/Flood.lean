import Cafe.AtMostOnce
import Cafe.Suppression
import Mathlib.Algebra.Order.Floor.Semifield

/-!
# Flooding the zone

Static vehicles inside the zone flood an alert. A relay is cancelled for the
sake of a farther one, so the flood is complete when the vehicles that transmit
reach all that the cancelled ones reach. On a road this is so when the gaps are
at most half of the range.
-/

open Labelled

namespace Cafe

variable {F : Type} [Arith F]

/-- Vehicles at fixed places, with one range and one rate of transmission. -/
structure Placement (F : Type) where
  ids : List NodeId
  nodup : ids.Nodup
  pos : NodeId → Point F
  v2v : NodeId → FaceId
  txRadius : F
  txRate : F

namespace Placement

def InRange (P : Placement F) (n m : NodeId) : Prop :=
  (P.pos n).distanceFromPoint (P.pos m) ≤ P.txRadius

instance (P : Placement F) (n m : NodeId) : Decidable (P.InRange n m) :=
  inferInstanceAs (Decidable (_ ≤ _))

/-- Exactly the other vehicles in range hear a transmission. -/
def disk (P : Placement F) : Medium F := fun _ n _ =>
  (P.ids.filter fun m => m ≠ n ∧ P.InRange n m).map fun m => (m, P.v2v m)

theorem mem_disk {P : Placement F} {nodes : NodeId → Option (Node F)} {n m : NodeId}
    {egress ingress : FaceId} : (m, ingress) ∈ P.disk nodes n egress ↔
      m ∈ P.ids ∧ m ≠ n ∧ P.InRange n m ∧ ingress = P.v2v m := by
  simp only [disk, List.mem_map, List.mem_filter, decide_eq_true_eq, Prod.mk.injEq]
  constructor
  · rintro ⟨_, ⟨hmem, hne, hrange⟩, rfl, rfl⟩
    exact ⟨hmem, hne, hrange, rfl⟩
  · rintro ⟨hmem, hne, hrange, rfl⟩
    exact ⟨m, ⟨hmem, hne, hrange⟩, rfl, rfl⟩

/-- A vehicle at its place inside the zone, with no RSU available. -/
structure Vehicle (P : Placement F) (zor : ZoR F) (n : NodeId) (node : Node F) : Prop where
  type : node.ctx.type = .vehicle
  mobility : node.mobility = some (P.pos n)
  inside : zor.contains (P.pos n)
  noRsu : node.ctx.isRsuAvailable = false
  v2v : node.ctx.getFaceIdFor .v2v = P.v2v n
  face : P.v2v n ≠ 0 ∧ P.v2v n ∈ node.faceTable.map NfdFace.faceId
  txRadius : node.ctx.txRadius = P.txRadius
  txRate : node.ctx.txRate = P.txRate

/-- The vehicle is one of the transmitters or in the range of one. -/
def Reaches (P : Placement F) (T : Set NodeId) (m : NodeId) : Prop :=
  m ∈ T ∨ ∃ a ∈ T, P.InRange a m

def Hop (P : Placement F) (T : Set NodeId) (a b : NodeId) : Prop :=
  a ∈ T ∧ b ∈ T ∧ P.InRange a b

/-- The transmitters of a flood: each but the first has heard another, and each vehicle in range
that is none of them has heard one of them first and then one that is farther from that. -/
structure Relays (P : Placement F) (T : Set NodeId) : Prop where
  placed : ∀ a ∈ T, a ∈ P.ids
  linked : ∃ o ∈ T, ∀ a ∈ T, Relation.ReflTransGen (P.Hop T) o a
  cancelled : ∀ b ∈ P.ids, b ∉ T → (∃ a ∈ T, P.InRange a b) → ∃ a ∈ T, ∃ c ∈ T,
    P.InRange a b ∧ P.InRange c b ∧
      (P.pos a).distanceFromPoint (P.pos b) < (P.pos a).distanceFromPoint (P.pos c)

/-- No cancelling can hide a vehicle from the transmitters. -/
def Spans (P : Placement F) : Prop :=
  ∀ T : Set NodeId, P.Relays T → ∀ m ∈ P.ids, P.Reaches T m

def Connected (P : Placement F) : Prop :=
  ∀ n ∈ P.ids, ∀ m ∈ P.ids,
    Relation.ReflTransGen (fun a b => b ∈ P.ids ∧ P.InRange a b) n m

end Placement

namespace Node

theorem relayOn_isSome {node : Node F} (data : Data F) (ingress : NfdFace) (senderType : NodeType)
    (hno : node.ctx.isRsuAvailable = false) (hv2v : node.ctx.getFaceIdFor .v2v ≠ 0)
    (hface : node.ctx.getFaceIdFor .v2v ∈ node.faceTable.map NfdFace.faceId) :
    (relayOn node data ingress senderType).1.isSome := by
  obtain ⟨face, hmem, hid⟩ := List.mem_map.mp hface
  simp only [relayOn, hno, Bool.false_eq_true, and_false, if_false, if_pos hv2v]
  exact List.find?_isSome.mpr ⟨face, hmem, by simp [hid]⟩

theorem Sound.stored_of_pending {names : Finset (Name F)} {node : Node F} (h : Sound names node)
    {name : Name F} {d : Deferred F} (hd : node.Pending name d) :
    node.ctx.alertStore.isDuplicate name :=
  h.stored name ((h.coherent.isRegistered_iff name).mpr ⟨d, hd⟩)

theorem Fresh.sound {node : Node F} (h : node.Fresh) {names : Finset (Name F)}
    (hfits : names.card ≤ node.ctx.alertStore.maxSize) : node.Sound names where
  coherent := by
    constructor
    · simp [h.events]
    · simp [h.events]
    · simp [h.events, h.registry]
  room := ⟨fun name hd => absurd hd (h.not_isDuplicate name), hfits⟩
  stored := fun name hreg => by simp [DeferredRegistry.isRegistered, h.registry] at hreg

/-- What an event means for an alert at a vehicle inside its zone. -/
inductive Flood (name : Name F) (node : Node F) (nodePos : Point F) (ev : NodeEvent F)
    (o : Outcome F) : Prop
  | idle (hdup : o.node.ctx.alertStore.isDuplicate name ↔ node.ctx.alertStore.isDuplicate name)
      (halert : ev.alert = some name → node.ctx.alertStore.isDuplicate name)
      (hget : o.node.ctx.alertStore.get name = node.ctx.alertStore.get name)
      (hpend : ∀ d, o.node.Pending name d ↔ node.Pending name d)
      (hsent : ∀ out ∈ o.sent, out.data.name ≠ name)
  | sends (hcause : (∃ now data ingress, ev = .receive now data ingress ∧ data.name = name ∧
        data.senderPos = none) ∨ ∃ d, node.Pending name d)
      (hdup : o.node.ctx.alertStore.isDuplicate name)
      (hpend : ∀ d, o.node.Pending name d → node.Pending name d ∧
        o.node.ctx.alertStore.get name = node.ctx.alertStore.get name)
      (hsent : ∃ out ∈ o.sent, out.data.name = name)
  | defers (now : ℕ) (data : Data F) (ingress : NfdFace) (entry : AlertStore.Entry F)
      (hev : ev = .receive now data ingress) (hname : data.name = name)
      (hpos : data.senderPos = some entry.senderPos)
      (hdup : o.node.ctx.alertStore.isDuplicate name)
      (hget : o.node.ctx.alertStore.get name = some entry)
      (hpend : ∃ d, o.node.Pending name d) (hsent : o.sent = [])
  | cancels (now : ℕ) (data : Data F) (ingress : NfdFace) (senderPos : Point F)
      (entry : AlertStore.Entry F) (hev : ev = .receive now data ingress)
      (hname : data.name = name) (hpos : data.senderPos = some senderPos)
      (hdup : o.node.ctx.alertStore.isDuplicate name)
      (hwas : ∃ d, node.Pending name d) (hget : node.ctx.alertStore.get name = some entry)
      (hdist : entry.senderPos.distanceFromPoint nodePos <
        entry.senderPos.distanceFromPoint senderPos)
      (hpend : ∀ d, ¬ o.node.Pending name d) (hsent : o.sent = [])

theorem Flood.isDuplicate {name : Name F} {node : Node F} {nodePos : Point F} {ev : NodeEvent F}
    {o : Outcome F} (h : Flood name node nodePos ev o) :
    (node.ctx.alertStore.isDuplicate name → o.node.ctx.alertStore.isDuplicate name) ∧
      (ev.alert = some name → o.node.ctx.alertStore.isDuplicate name) := by
  cases h with
  | idle hdup halert _ _ _ => exact ⟨hdup.mpr, fun hname => hdup.mpr (halert hname)⟩
  | sends _ hdup _ _ => exact ⟨fun _ => hdup, fun _ => hdup⟩
  | defers _ _ _ _ _ _ _ hdup _ _ _ => exact ⟨fun _ => hdup, fun _ => hdup⟩
  | cancels _ _ _ _ _ _ _ _ hdup _ _ _ _ _ => exact ⟨fun _ => hdup, fun _ => hdup⟩

/-- The arrival of the alert. -/
theorem vehicleCase_flood {now : ℕ} {data : Data F} {ingress : NfdFace} {zor : ZoR F}
    {node : Node F} {nodePos : Point F} {o : Outcome F}
    (hcase : VehicleCase now data ingress zor node nodePos o) {names : Finset (Name F)}
    (hs : node.Sound names) (hmem : data.name ∈ names) (hin : zor.contains nodePos)
    (hno : node.ctx.isRsuAvailable = false) (hv2v : node.ctx.getFaceIdFor .v2v ≠ 0)
    (hface : node.ctx.getFaceIdFor .v2v ∈ node.faceTable.map NfdFace.faceId)
    (hsender : ingress.scope ≠ .isLocal → data.senderPos ≠ none)
    (horigin : ingress.scope = .isLocal → ¬ node.ctx.alertStore.isDuplicate data.name) :
    Flood data.name node nodePos (.receive now data ingress) o := by
  have hins : ∀ entry : AlertStore.Entry F, entry.name = data.name →
      (node.ctx.alertStore.insertOrUpdate entry).isDuplicate data.name := fun entry hentry =>
    ((hs.room.insertOrUpdate entry (hentry ▸ hmem)).2 data.name).mpr (Or.inl hentry.symm)
  cases hcase with
  | noSender hpos hscope => exact absurd hpos (hsender hscope)
  | origin sent hpos hscope hsent =>
      apply Flood.sends (Or.inl ⟨now, data, ingress, rfl, rfl, hpos⟩) (hins _ rfl)
      · intro d hd
        exact absurd (hs.stored_of_pending hd) (horigin hscope)
      · simp only [hno, Bool.false_eq_true, if_false, sendOn, if_pos hv2v] at hsent
        obtain ⟨face, _, hsent⟩ := Fallible.bind_eq_ok.mp hsent
        rw [← Fallible.pure_eq_ok.mp hsent]
        exact ⟨_, List.mem_singleton_self _, rfl⟩
  | cancelled senderPos hpos hdup hreg hsup =>
      rcases (hs.coherent.isRegistered_iff _).mp hreg with ⟨d, hd⟩
      rw [Suppresses, if_neg (not_not_intro hin)] at hsup
      cases hget : node.ctx.alertStore.get data.name with
      | none => simp [hget] at hsup
      | some entry =>
          rw [hget] at hsup
          apply Flood.cancels now data ingress senderPos entry rfl rfl hpos
            (by simpa using hdup) ⟨d, hd⟩ hget hsup _ rfl
          intro e he
          have hlook := (hs.coherent.lookup data.name d.id).mpr ⟨d, hd.1, hd.2, rfl⟩
          rw [Pending, drop_node, (cancel_of_lookup hlook).2, List.mem_filter] at he
          obtain rfl := hs.coherent.unique he.1.1 hd.1 (he.2.trans hd.2.symm)
          simp at he
  | duplicate _ _ hdup _ =>
      exact .idle Iff.rfl (fun _ => hdup) rfl (fun _ => Iff.rfl) (by simp)
  | closer _ _ _ hout _ => exact absurd hin hout
  | noFace _ _ _ _ hnone =>
      have hsome := relayOn_isSome data ingress (data.senderType.getD .none) hno hv2v hface
      simp [hnone] at hsome
  | deferred senderPos face data' hpos hnew hfar hrelay =>
      let entry : AlertStore.Entry F := ⟨data.name, data.senderType.getD .none, senderPos⟩
      have hget : (node.ctx.alertStore.insertOrUpdate entry).get entry.name = some entry :=
        AlertStore.get_insertOrUpdate_self hnew (hs.room.lt hmem hnew)
      apply Flood.defers now data ingress entry rfl rfl hpos (hins entry rfl) hget _ rfl
      exact ⟨_, List.mem_append_right _ List.mem_cons_self, (relayOn_data hrelay).1⟩

/-- What one event of a vehicle inside the zone means for an alert. -/
theorem Effect.flood {infra : Infrastructure F} {node : Node F} {ev : NodeEvent F} {o : Outcome F}
    (h : Effect infra node ev o) {P : Placement F} {n : NodeId} {zor : ZoR F}
    (hv : P.Vehicle zor n node) {names : Finset (Name F)} (hs : node.Sound names)
    (hev : ∀ name, ev.alert = some name → name ∈ names) {name : Name F}
    (hz : extractZoR name = some zor) (hgeo : zor.IsGeographic)
    (hsender : ∀ now data ingress, ev = .receive now data ingress → data.name = name →
      ingress.scope ≠ .isLocal → data.senderPos ≠ none)
    (horigin : ∀ now data ingress, ev = .receive now data ingress → data.name = name →
      ingress.scope = .isLocal → ¬ node.ctx.alertStore.isDuplicate name) :
    Flood name node (P.pos n) ev o := by
  have hc := h.case_of_vehicle hv.type
  by_cases halert : ev.alert = some name
  · obtain ⟨now, data, ingress, rfl, rfl⟩ := NodeEvent.alert_eq_some halert
    cases hc with
    | geographic hz' _ hm hcase =>
        obtain rfl := Option.some.inj (hz.symm.trans hz')
        obtain rfl := Option.some.inj (hv.mobility.symm.trans hm)
        exact vehicleCase_flood hcase hs (hev _ halert) hv.inside hv.noRsu (hv.v2v ▸ hv.face.1)
          (hv.v2v ▸ hv.face.2) (hsender _ _ _ rfl rfl) (horigin _ _ _ rfl rfl)
    | ignored hno _ =>
        rcases hno with hno | ⟨hm, _⟩
        · exact absurd hgeo (hno zor hz)
        · simp [hv.mobility] at hm
  · by_cases hfire : ∃ d, node.Pending name d ∧ ev = .expire d.id
    · rcases hfire with ⟨d, hd, rfl⟩
      generalize hid : d.id = id at hc
      cases hc with
      | expired hno => exact absurd hid (hno d hd.1)
      | @fired e hmem =>
          obtain rfl := List.inj_on_of_nodup_map hs.coherent.ids hd.1 hmem hid
          apply Flood.sends (Or.inr ⟨d, hd⟩) (hs.stored_of_pending hd)
          · intro e he
            exact ⟨⟨(List.mem_filter.mp he.1).1, he.2⟩, rfl⟩
          · exact ⟨_, List.mem_singleton_self _, hd.2⟩
    · push Not at hfire
      apply Flood.idle _ (fun hname => absurd hname halert) (hc.get_eq hs.room hev halert)
        (hc.pending_iff hs.coherent halert hfire)
      · intro out hout hname
        rcases h.sent out hout (hname ▸ ⟨zor, hz, hgeo⟩) with hsome | ⟨d, hd, hexp, hdname⟩
        · exact halert (hname ▸ hsome)
        · exact hfire d ⟨hd, hdname.trans hname⟩ hexp
      · have hroom := hc.room hs.room hev
        constructor
        · intro hd
          exact (hroom.2.2 name hd).resolve_right halert
        · exact hroom.2.1 name

end Node

theorem Placement.Vehicle.effect {P : Placement F} {zor : ZoR F} {n : NodeId} {node : Node F}
    (h : P.Vehicle zor n node) {infra : Infrastructure F} {ev : NodeEvent F} {o : Outcome F}
    (heff : node.Effect infra ev o) (hstatic : ∀ pos, ev ≠ .move pos) (hno : ev ≠ .hello true) :
    P.Vehicle zor n o.node := by
  have hconfig := heff.config_eq
  have hmap : o.node.ctx.faceContextMap = node.ctx.faceContextMap :=
    congrArg Node.Config.faceContextMap hconfig
  have htable : o.node.faceTable = node.faceTable := congrArg Node.Config.faceTable hconfig
  constructor
  · exact (congrArg Node.Config.type hconfig).trans h.type
  · exact (heff.mobility_of_static hstatic).trans h.mobility
  · exact h.inside
  · exact heff.isRsuAvailable_eq hno h.noRsu
  · rw [← h.v2v, Context.getFaceIdFor, hmap, Context.getFaceIdFor]
  · rw [htable]
    exact h.face
  · exact (congrArg Node.Config.txRadius hconfig).trans h.txRadius
  · exact (congrArg Node.Config.txRate hconfig).trans h.txRate

namespace Net

/-- The alert has been transmitted by a node. -/
def Sent (net : Net F) (n : NodeId) (name : Name F) : Prop :=
  ∃ tx ∈ net.log, tx.sender = n ∧ tx.data.name = name

/-- The alert is in the store of a node. -/
def Received (net : Net F) (n : NodeId) (name : Name F) : Prop :=
  ∃ node, net.nodes n = some node ∧ node.ctx.alertStore.isDuplicate name

section React

variable {medium : Medium F} {net : Net F} {t : ℕ} {n : NodeId} {deferred : Bool} {o : Outcome F}
  {rest : List (Copy F)} {name : Name F}

theorem sent_react {a : NodeId} : (net.react medium t n deferred o rest).Sent a name ↔
    net.Sent a name ∨ (a = n ∧ ∃ out ∈ o.sent, out.data.name = name) := by
  simp only [Sent, react_log, List.mem_append, List.mem_map]
  constructor
  · rintro ⟨tx, htx | ⟨out, hout, rfl⟩, hsender, hname⟩
    · exact Or.inl ⟨tx, htx, hsender, hname⟩
    · exact Or.inr ⟨hsender.symm, out, hout, hname⟩
  · rintro (⟨tx, htx, hsender, hname⟩ | ⟨rfl, out, hout, hname⟩)
    · exact ⟨tx, Or.inl htx, hsender, hname⟩
    · exact ⟨_, Or.inr ⟨out, hout, rfl⟩, rfl, hname⟩

theorem received_react_self (h : o.node.ctx.alertStore.isDuplicate name) :
    (net.react medium t n deferred o rest).Received n name := ⟨o.node, react_nodes_self, h⟩

theorem received_mono {m : NodeId} (hmono : ∀ node, net.nodes n = some node →
      node.ctx.alertStore.isDuplicate name → o.node.ctx.alertStore.isDuplicate name)
    (h : net.Received m name) : (net.react medium t n deferred o rest).Received m name := by
  rcases h with ⟨node, hnode, hdup⟩
  by_cases hm : m = n
  · subst hm
    exact received_react_self (hmono node hnode hdup)
  · exact ⟨node, by rw [react_nodes_of_ne hm]; exact hnode, hdup⟩

end React

/-- Neither a copy nor a relay of the alert is left. -/
def Quiet (net : Net F) (name : Name F) : Prop :=
  (∀ c ∈ net.inFlight, c.data.name ≠ name) ∧
    ∀ n node, net.nodes n = some node → ∀ d, ¬ node.Pending name d

/-- A run in which vehicles at their places flood an alert that one of them
creates. -/
structure Floods (infra : Infrastructure F) (P : Placement F) (names : NodeId → Finset (Name F))
    (name : Name F) (zor : ZoR F) (net₀ : Net F) (ls : List (Label F)) (net : Net F) : Prop where
  operates : Operates infra P.disk names net₀ ls net
  zone : extractZoR name = some zor
  geographic : zor.IsGeographic
  vehicles : ∀ n, n ∈ P.ids ↔ (net₀.nodes n).isSome
  placed : ∀ n node, net₀.nodes n = some node → P.Vehicle zor n node
  noLoss : ∀ l ∈ ls, ∀ c, l.2 ≠ .lose c
  static : ∀ l ∈ ls, ∀ n ev, Label.event l = some (n, ev) → ∀ pos, ev ≠ .move pos
  noRsu : ∀ l ∈ ls, ∀ n ev, Label.event l = some (n, ev) → ev ≠ .hello true
  created : name ∈ injections ls
  quiet : net.Quiet name

/-- The state of the flood. -/
structure Flooding (P : Placement F) (names : NodeId → Finset (Name F)) (name : Name F)
    (zor : ZoR F) (ls : List (Label F)) (net : Net F) : Prop where
  vehicles : ∀ n, n ∈ P.ids ↔ (net.nodes n).isSome
  placed : ∀ n node, net.nodes n = some node → P.Vehicle zor n node
  sound : ∀ n node, net.nodes n = some node → node.Sound (names n)
  inFlight : ∀ c ∈ net.inFlight, c.data.name = name →
    ∃ a, net.Sent a name ∧ c.data.senderPos = some (P.pos a) ∧ P.InRange a c.dst
  heard : ∀ a, net.Sent a name → ∀ m ∈ P.ids, m ≠ a → P.InRange a m →
    net.Received m name ∨ ∃ c ∈ net.inFlight, c.dst = m ∧ c.data.name = name
  first : ∀ n node d, net.nodes n = some node → node.Pending name d → ∃ entry a,
    node.ctx.alertStore.get name = some entry ∧ net.Sent a name ∧
    entry.senderPos = P.pos a ∧ P.InRange a n
  received : ∀ n node, net.nodes n = some node → node.ctx.alertStore.isDuplicate name →
    net.Sent n name ∨ (∃ d, node.Pending name d) ∨ ∃ a c, net.Sent a name ∧ net.Sent c name ∧
      P.InRange a n ∧ P.InRange c n ∧
      (P.pos a).distanceFromPoint (P.pos n) < (P.pos a).distanceFromPoint (P.pos c)
  sender : ∀ a, net.Sent a name → net.Received a name
  linked : (∃ a, net.Sent a name) → ∃ o, net.Sent o name ∧ ∀ a, net.Sent a name →
    Relation.ReflTransGen (P.Hop {a | net.Sent a name}) o a
  created : name ∈ injections ls → ∃ a, net.Sent a name

/-- A copy of the alert gives the place of its transmitter. -/
theorem Flooding.transmitter {P : Placement F} {names : NodeId → Finset (Name F)} {name : Name F}
    {zor : ZoR F} {ls : List (Label F)} {net : Net F} (h : Flooding P names name zor ls net)
    {l : Label F} {n : NodeId} {now : ℕ} {data : Data F} {ingress : NfdFace}
    (hsource : net.Source l n (.receive now data ingress))
    (hname : data.name = name) {senderPos : Point F} (hpos : data.senderPos = some senderPos) :
    ∃ a, net.Sent a name ∧ senderPos = P.pos a ∧ P.InRange a n := by
  rcases hsource with ⟨_, hlocal⟩ | ⟨c, hc, _, rfl, heq⟩
  · rw [hlocal.2.2.1] at hpos
    cases hpos
  · obtain ⟨_, rfl, _⟩ := NodeEvent.receive.inj heq
    rcases h.inFlight c hc hname with ⟨a, ha, hsender, hrange⟩
    exact ⟨a, ha, Option.some.inj (hpos.symm.trans hsender), hrange⟩

section Step

variable {infra : Infrastructure F} {P : Placement F} {names : NodeId → Finset (Name F)}
  {name : Name F} {zor : ZoR F} {net₀ net net' : Net F} {ls : List (Label F)} {l : Label F}

/-- The vehicle that an event of the alert finds in the flood. -/
theorem Flooding.node_flood (h : Flooding P names name zor ls net)
    (hcount : Counted infra names net₀ ls net) (hz : extractZoR name = some zor)
    (hgeo : zor.IsGeographic) (honce : (injections (ls ++ [l])).Nodup) {n : NodeId}
    {ev : NodeEvent F} {node : Node F} {o : Outcome F} (hnode : net.nodes n = some node)
    (heff : node.Effect infra ev o) (hseen : ∀ m, ev.alert = some m → m ∈ names n)
    (hsource : net.Source l n ev) :
    node.Flood name (P.pos n) ev o := by
  apply heff.flood (h.placed n node hnode) (h.sound n node hnode) hseen hz hgeo
  · rintro now data ingress rfl hname hscope
    rcases hsource with ⟨_, hlocal⟩ | ⟨c, hc, _, _, heq⟩
    · exact absurd hlocal.1 hscope
    · obtain ⟨_, rfl, _⟩ := NodeEvent.receive.inj heq
      rcases h.inFlight c hc hname with ⟨a, _, hsender, _⟩
      simp [hsender]
  · rintro now data ingress rfl rfl hscope
    exact hcount.first_injection hnode hsource honce ⟨zor, hz, hgeo⟩ hscope

section React

variable {n : NodeId} {ev : NodeEvent F} {node : Node F} {o : Outcome F} {rest : List (Copy F)}

theorem Flooding.first_react (h : Flooding P names name zor ls net)
    (hnode : net.nodes n = some node) (hflood : node.Flood name (P.pos n) ev o)
    (hsource : net.Source l n ev) :
    ∀ m node' d, (net.react P.disk l.1 n ev.isExpiry o rest).nodes m = some node' →
      node'.Pending name d → ∃ entry a, node'.ctx.alertStore.get name = some entry ∧
        (net.react P.disk l.1 n ev.isExpiry o rest).Sent a name ∧
        entry.senderPos = P.pos a ∧ P.InRange a m := by
  have hold : ∀ m node' d, net.nodes m = some node' → node'.Pending name d → ∃ entry a,
      node'.ctx.alertStore.get name = some entry ∧
      (net.react P.disk l.1 n ev.isExpiry o rest).Sent a name ∧
      entry.senderPos = P.pos a ∧ P.InRange a m := by
    intro m node' d hnode' hd
    rcases h.first m node' d hnode' hd with ⟨entry, a, hget, ha, hfirst⟩
    exact ⟨entry, a, hget, sent_react.mpr (Or.inl ha), hfirst⟩
  intro m node' d hnode' hd
  rcases react_nodes_cases hnode' with ⟨rfl, rfl⟩ | ⟨_, hnode'⟩
  · cases hflood with
    | idle _ _ hget hpend _ =>
        rw [hget]
        exact hold m node d hnode ((hpend d).mp hd)
    | sends _ _ hpend _ =>
        rcases hpend d hd with ⟨hd, hget⟩
        rw [hget]
        exact hold m node d hnode hd
    | defers now data ingress entry hev hname hpos _ hget _ _ =>
        subst hev
        rcases h.transmitter hsource hname hpos with ⟨a, ha, hplace, hrange⟩
        exact ⟨entry, a, hget, sent_react.mpr (Or.inl ha), hplace, hrange⟩
    | cancels _ _ _ _ _ _ _ _ _ _ _ _ hpend _ => exact absurd hd (hpend d)
  · exact hold m node' d hnode' hd

theorem Flooding.received_react (h : Flooding P names name zor ls net)
    (hnode : net.nodes n = some node) (hflood : node.Flood name (P.pos n) ev o)
    (hsource : net.Source l n ev) :
    ∀ m node', (net.react P.disk l.1 n ev.isExpiry o rest).nodes m = some node' →
      node'.ctx.alertStore.isDuplicate name →
      (net.react P.disk l.1 n ev.isExpiry o rest).Sent m name ∨ (∃ d, node'.Pending name d) ∨
        ∃ a c, (net.react P.disk l.1 n ev.isExpiry o rest).Sent a name ∧
          (net.react P.disk l.1 n ev.isExpiry o rest).Sent c name ∧
          P.InRange a m ∧ P.InRange c m ∧
          (P.pos a).distanceFromPoint (P.pos m) < (P.pos a).distanceFromPoint (P.pos c) := by
  intro m node' hnode' hdup
  rcases react_nodes_cases hnode' with ⟨rfl, rfl⟩ | ⟨_, hnode'⟩
  · cases hflood with
    | idle hiff _ _ hpend _ =>
        rcases h.received m node hnode (hiff.mp hdup) with hsent | ⟨d, hd⟩ | ⟨a, c, ha, hc, hfar⟩
        · exact Or.inl (sent_react.mpr (Or.inl hsent))
        · exact Or.inr (Or.inl ⟨d, (hpend d).mpr hd⟩)
        · exact Or.inr (Or.inr ⟨a, c, sent_react.mpr (Or.inl ha), sent_react.mpr (Or.inl hc), hfar⟩)
    | sends _ _ _ hsent => exact Or.inl (sent_react.mpr (Or.inr ⟨rfl, hsent⟩))
    | defers _ _ _ _ _ _ _ _ _ hpend _ => exact Or.inr (Or.inl hpend)
    | cancels now data ingress senderPos entry hev hname hpos _ hwas hget hdist _ _ =>
        subst hev
        rcases hwas with ⟨d, hd⟩
        rcases h.first m node d hnode hd with ⟨entry', a, hget', ha, hplace, hrange⟩
        obtain rfl := Option.some.inj (hget.symm.trans hget')
        rcases h.transmitter hsource hname hpos with ⟨c, hc, rfl, hrange'⟩
        rw [hplace] at hdist
        exact Or.inr (Or.inr ⟨a, c, sent_react.mpr (Or.inl ha), sent_react.mpr (Or.inl hc),
          hrange, hrange', hdist⟩)
  · rcases h.received m node' hnode' hdup with hsent | hpend | ⟨a, c, ha, hc, hfar⟩
    · exact Or.inl (sent_react.mpr (Or.inl hsent))
    · exact Or.inr (Or.inl hpend)
    · exact Or.inr (Or.inr ⟨a, c, sent_react.mpr (Or.inl ha), sent_react.mpr (Or.inl hc), hfar⟩)

theorem created_react (hflood : node.Flood name (P.pos n) ev o)
    (hdup : ev.IsLocal → ev.alert = some name → ¬ node.ctx.alertStore.isDuplicate name)
    (hsource : net.Source l n ev)
    (hmem : Label.injected l = some name) :
    ∃ a, (net.react P.disk l.1 n ev.isExpiry o rest).Sent a name := by
  rcases hsource with ⟨hl, hlocal⟩ | ⟨c, _, hl, _⟩
  · have halert : ev.alert = some name := (Label.injected_occur hl).symm.trans hmem
    cases hflood with
    | idle _ hold _ _ _ => exact absurd (hold halert) (hdup hlocal halert)
    | sends _ _ _ hsent => exact ⟨n, sent_react.mpr (Or.inr ⟨rfl, hsent⟩)⟩
    | defers _ _ _ _ hev _ hpos _ _ _ _ =>
        subst hev
        simp [hlocal.2.2.1] at hpos
    | cancels _ _ _ _ _ hev _ hpos _ _ _ _ _ _ =>
        subst hev
        simp [hlocal.2.2.1] at hpos
  · rw [Label.injected_deliver hl] at hmem
    cases hmem

/-- A copy that this reaction makes comes from the node and stays in range. -/
theorem Flooding.inFlight_react (h : Flooding P names name zor ls net)
    (hnode : net.nodes n = some node) (heff : node.Effect infra ev o)
    (hsub : ∀ c ∈ rest, c ∈ net.inFlight) :
    ∀ c ∈ (net.react P.disk l.1 n ev.isExpiry o rest).inFlight, c.data.name = name →
      ∃ a, (net.react P.disk l.1 n ev.isExpiry o rest).Sent a name ∧
        c.data.senderPos = some (P.pos a) ∧ P.InRange a c.dst := by
  intro c hc hname
  rcases mem_react_inFlight.mp hc with hc | ⟨i, out, hout, hmem, hdata, _⟩
  · rcases h.inFlight c (hsub c hc) hname with ⟨a, ha, hpos⟩
    exact ⟨a, sent_react.mpr (Or.inl ha), hpos⟩
  · have hout := List.mem_of_getElem? hout
    have hsome : node.mobility.isSome := by simp [(h.placed n node hnode).mobility]
    rw [hdata] at hname ⊢
    refine ⟨n, sent_react.mpr (Or.inr ⟨rfl, out, hout, hname⟩), ?_,
      (Placement.mem_disk.mp hmem).2.2.1⟩
    exact (heff.senderPos hsome out hout).trans (h.placed n node hnode).mobility

theorem received_of_flood (hflood : node.Flood name (P.pos n) ev o)
    (hnode : net.nodes n = some node) {m : NodeId} (h : net.Received m name) :
    (net.react P.disk l.1 n ev.isExpiry o rest).Received m name := by
  apply received_mono _ h
  intro node' hnode' hdup
  obtain rfl := Option.some.inj (hnode.symm.trans hnode')
  exact hflood.isDuplicate.1 hdup

/-- The copy that is delivered is heard; the others remain in flight. -/
theorem Flooding.heard_react (h : Flooding P names name zor ls net)
    (hz : extractZoR name = some zor) (hgeo : zor.IsGeographic)
    (hnode : net.nodes n = some node) (hflood : node.Flood name (P.pos n) ev o)
    (hev : Label.event l = some (n, ev))
    (hkeep : ∀ c ∈ net.inFlight, c ∈ rest ∨ l.2 = .deliver c) :
    ∀ a, (net.react P.disk l.1 n ev.isExpiry o rest).Sent a name → ∀ m ∈ P.ids, m ≠ a →
      P.InRange a m → (net.react P.disk l.1 n ev.isExpiry o rest).Received m name ∨
        ∃ c ∈ (net.react P.disk l.1 n ev.isExpiry o rest).inFlight,
          c.dst = m ∧ c.data.name = name := by
  intro a ha m hm hma hrange
  rcases sent_react.mp ha with ha | ⟨rfl, out, hout, hname⟩
  · rcases h.heard a ha m hm hma hrange with hrec | ⟨c, hc, rfl, hname⟩
    · exact Or.inl (received_of_flood hflood hnode hrec)
    · rcases hkeep c hc with hc | hl
      · exact Or.inr ⟨c, mem_react_inFlight.mpr (Or.inl hc), rfl, hname⟩
      · left
        rw [Label.event_deliver hl] at hev
        obtain ⟨rfl, rfl⟩ := Prod.mk.inj (Option.some.inj hev)
        apply received_react_self
        exact hflood.isDuplicate.2 (hname ▸ NodeEvent.alert_receive _ _ (hname ▸ hz) hgeo)
  · right
    rcases List.getElem?_of_mem hout with ⟨i, hi⟩
    exact ⟨⟨m, P.v2v m, { out.data with uid := net.log.length + i }, l.1⟩,
      mem_react_inFlight.mpr (Or.inr ⟨i, out, hi, Placement.mem_disk.mpr
        ⟨hm, hma, hrange, rfl⟩, rfl, rfl⟩), rfl, hname⟩

theorem Flooding.sender_react (h : Flooding P names name zor ls net)
    (hnode : net.nodes n = some node) (hflood : node.Flood name (P.pos n) ev o) :
    ∀ a, (net.react P.disk l.1 n ev.isExpiry o rest).Sent a name →
      (net.react P.disk l.1 n ev.isExpiry o rest).Received a name := by
  intro a ha
  rcases sent_react.mp ha with ha | ⟨rfl, out, hout, hname⟩
  · exact received_of_flood hflood hnode (h.sender a ha)
  · apply received_react_self
    cases hflood with
    | idle _ _ _ _ hsent => exact absurd hname (hsent out hout)
    | sends _ hdup _ _ => exact hdup
    | defers _ _ _ _ _ _ _ hdup _ _ _ => exact hdup
    | cancels _ _ _ _ _ _ _ _ hdup _ _ _ _ _ => exact hdup

/-- Before the alert is created nobody has sent it. -/
theorem Flooding.not_sent (h : Flooding P names name zor ls net)
    (hcount : Counted infra names net₀ ls net) (honce : (injections (ls ++ [l])).Nodup)
    (hinj : Label.injected l = some name) (a : NodeId) : ¬ net.Sent a name := by
  intro ha
  obtain ⟨node, hnode, hdup⟩ := h.sender a ha
  have hmem := hcount.stored a node hnode name hdup
  rw [injections_append, List.nodup_append] at honce
  exact honce.2.2 _ hmem _ (by simp [injections, hinj]) rfl

/-- A vehicle that sends has created the alert or heard a transmitter. -/
theorem Flooding.cause (h : Flooding P names name zor ls net)
    (hcount : Counted infra names net₀ ls net) (hz : extractZoR name = some zor)
    (hgeo : zor.IsGeographic) (honce : (injections (ls ++ [l])).Nodup)
    (hnode : net.nodes n = some node) (hflood : node.Flood name (P.pos n) ev o)
    (hsource : net.Source l n ev) (hsent : ∃ out ∈ o.sent, out.data.name = name) :
    (∀ a, ¬ net.Sent a name) ∨ ∃ a, net.Sent a name ∧ P.InRange a n := by
  obtain ⟨out, hout, hname⟩ := hsent
  cases hflood with
  | idle _ _ _ _ hno => exact absurd hname (hno out hout)
  | sends hcause _ _ _ =>
      rcases hcause with ⟨now, data, ingress, rfl, hdata, hpos⟩ | ⟨d, hd⟩
      · rcases hsource with ⟨hl, _⟩ | ⟨c, hc, _, _, heq⟩
        · left
          refine h.not_sent hcount honce ?_
          rw [Label.injected_occur hl, ← hdata]
          exact NodeEvent.alert_receive now ingress (hdata ▸ hz) hgeo
        · obtain ⟨_, rfl, _⟩ := NodeEvent.receive.inj heq
          obtain ⟨a, _, hsender, _⟩ := h.inFlight c hc hdata
          rw [hpos] at hsender
          cases hsender
      · obtain ⟨_, a, _, ha, _, hrange⟩ := h.first n node d hnode hd
        exact Or.inr ⟨a, ha, hrange⟩
  | defers _ _ _ _ _ _ _ _ _ _ hnil =>
      rw [hnil] at hout
      cases hout
  | cancels _ _ _ _ _ _ _ _ _ _ _ _ _ hnil =>
      rw [hnil] at hout
      cases hout

theorem Flooding.linked_react (h : Flooding P names name zor ls net)
    (hcount : Counted infra names net₀ ls net) (hz : extractZoR name = some zor)
    (hgeo : zor.IsGeographic) (honce : (injections (ls ++ [l])).Nodup)
    (hnode : net.nodes n = some node) (hflood : node.Flood name (P.pos n) ev o)
    (hsource : net.Source l n ev)
    (hsome : ∃ a, (net.react P.disk l.1 n ev.isExpiry o rest).Sent a name) :
    ∃ r, (net.react P.disk l.1 n ev.isExpiry o rest).Sent r name ∧
      ∀ a, (net.react P.disk l.1 n ev.isExpiry o rest).Sent a name → Relation.ReflTransGen
        (P.Hop {a | (net.react P.disk l.1 n ev.isExpiry o rest).Sent a name}) r a := by
  set T : Set NodeId := {a | (net.react P.disk l.1 n ev.isExpiry o rest).Sent a name}
  have hold : ∀ {a}, net.Sent a name → a ∈ T := fun ha => sent_react.mpr (Or.inl ha)
  have hgrow : ∀ {r a}, Relation.ReflTransGen (P.Hop {a | net.Sent a name}) r a →
      Relation.ReflTransGen (P.Hop T) r a := fun hpath =>
    hpath.lift id fun _ _ hab => ⟨hold hab.1, hold hab.2.1, hab.2.2⟩
  by_cases hnew : ∃ out ∈ o.sent, out.data.name = name
  · have hn : n ∈ T := sent_react.mpr (Or.inr ⟨rfl, hnew⟩)
    rcases h.cause hcount hz hgeo honce hnode hflood hsource hnew with hno | ⟨a, ha, hrange⟩
    · refine ⟨n, hn, fun b hb => ?_⟩
      rcases sent_react.mp hb with hb | ⟨rfl, _⟩
      · exact absurd hb (hno b)
      · exact .refl
    · obtain ⟨r, hr, hpath⟩ := h.linked ⟨a, ha⟩
      refine ⟨r, hold hr, fun b hb => ?_⟩
      rcases sent_react.mp hb with hb | ⟨rfl, _⟩
      · exact hgrow (hpath b hb)
      · exact (hgrow (hpath a ha)).tail ⟨hold ha, hn, hrange⟩
  · have hsame : ∀ {a}, a ∈ T → net.Sent a name := fun ha =>
      (sent_react.mp ha).resolve_right fun hout => hnew hout.2
    obtain ⟨a, ha⟩ := hsome
    obtain ⟨r, hr, hpath⟩ := h.linked ⟨a, hsame ha⟩
    exact ⟨r, hold hr, fun b hb => hgrow (hpath b (hsame hb))⟩

end React

/-- Without losses the medium alone keeps what is in flight. -/
theorem Flooding.medium (h : Flooding P names name zor ls net) (hev : Label.event l = none)
    (hloss : ∀ c, l.2 ≠ .lose c) (hnodes : net'.nodes = net.nodes) (hlog : net'.log = net.log)
    (hsub : ∀ c ∈ net'.inFlight, c ∈ net.inFlight)
    (hkeep : ∀ c ∈ net.inFlight, c ∈ net'.inFlight ∨ l.2 = .lose c) :
    Flooding P names name zor (ls ++ [l]) net' := by
  have hsent : ∀ a, net'.Sent a name ↔ net.Sent a name := by simp [Sent, hlog]
  have hrec : ∀ a, net'.Received a name ↔ net.Received a name := by simp [Received, hnodes]
  constructor
  · rw [hnodes]
    exact h.vehicles
  · rw [hnodes]
    exact h.placed
  · rw [hnodes]
    exact h.sound
  · simp only [hsent]
    exact fun c hc => h.inFlight c (hsub c hc)
  · simp only [hsent, hrec]
    intro a ha m hm hma hrange
    rcases h.heard a ha m hm hma hrange with hrec | ⟨c, hc, hdst, hname⟩
    · exact Or.inl hrec
    · exact Or.inr ⟨c, (hkeep c hc).resolve_right (hloss c), hdst, hname⟩
  · simp only [hnodes, hsent]
    exact h.first
  · simp only [hnodes, hsent]
    exact h.received
  · simp only [hsent, hrec]
    exact h.sender
  · simp only [hsent]
    exact h.linked
  · simp only [hsent]
    intro hmem
    rw [mem_injections_snoc, Label.injected_eq_none hev] at hmem
    exact h.created (hmem.resolve_right nofun)

theorem Flooding.step (h : Flooding P names name zor ls net)
    (hcount : Counted infra names net₀ ls net) (hz : extractZoR name = some zor)
    (hgeo : zor.IsGeographic) (hstep : Step infra P.disk net l net')
    (hloss : ∀ c, l.2 ≠ .lose c)
    (hstatic : ∀ n ev, Label.event l = some (n, ev) → ∀ pos, ev ≠ .move pos)
    (hnoRsu : ∀ n ev, Label.event l = some (n, ev) → ev ≠ .hello true)
    (hseen : ∀ n ev m, Label.event l = some (n, ev) → ev.alert = some m → m ∈ names n)
    (honce : (injections (ls ++ [l])).Nodup) : Flooding P names name zor (ls ++ [l]) net' := by
  cases hstep.change with
  | medium hev hnodes hlog hsub hkeep => exact h.medium hev hloss hnodes hlog hsub hkeep
  | node n ev node o rest hev hnode hhandles hsource hsub hkeep hnet =>
      have heff := hhandles.effect
      have hflood := h.node_flood hcount hz hgeo honce hnode heff
          (fun m => hseen n ev m hev) hsource
      have hplaced := (h.placed n node hnode).effect heff (hstatic n ev hev) (hnoRsu n ev hev)
      subst hnet
      constructor
      · intro m
        by_cases hm : m = n
        · subst hm
          simp [h.vehicles m, hnode]
        · rw [react_nodes_of_ne hm]
          exact h.vehicles m
      · intro m node' hnode'
        rcases react_nodes_cases hnode' with ⟨rfl, rfl⟩ | ⟨_, hnode'⟩
        · exact hplaced
        · exact h.placed m node' hnode'
      · intro m node' hnode'
        rcases react_nodes_cases hnode' with ⟨rfl, rfl⟩ | ⟨_, hnode'⟩
        · exact (heff.case_of_vehicle (h.placed m node hnode).type).sound (h.sound m node hnode)
            fun x => hseen m ev x hev
        · exact h.sound m node' hnode'
      · exact h.inFlight_react hnode heff hsub
      · exact h.heard_react hz hgeo hnode hflood hev hkeep
      · exact h.first_react hnode hflood hsource
      · exact h.received_react hnode hflood hsource
      · exact h.sender_react hnode hflood
      · exact h.linked_react hcount hz hgeo honce hnode hflood hsource
      · intro hmem
        rcases mem_injections_snoc.mp hmem with hmem | hmem
        · rcases h.created hmem with ⟨a, ha⟩
          exact ⟨a, sent_react.mpr (Or.inl ha)⟩
        · apply created_react hflood _ hsource hmem
          intro hlocal halert
          obtain ⟨now, data, ingress, rfl, rfl⟩ := NodeEvent.alert_eq_some halert
          exact hcount.first_injection hnode hsource honce ⟨zor, hz, hgeo⟩ hlocal.1

end Step

section Quiet

variable {P : Placement F} {names : NodeId → Finset (Name F)} {name : Name F} {zor : ZoR F}
  {ls : List (Label F)} {net : Net F}

theorem Flooding.mem_ids (h : Flooding P names name zor ls net) {a : NodeId}
    (ha : net.Received a name) : a ∈ P.ids := by
  obtain ⟨node, hnode, _⟩ := ha
  exact (h.vehicles a).mpr (by simp [hnode])

/-- What a vehicle has that did not send the alert on. -/
theorem Flooding.silent (h : Flooding P names name zor ls net) (hquiet : net.Quiet name)
    {b : NodeId} (hb : net.Received b name) (hno : ¬ net.Sent b name) :
    ∃ a c, net.Sent a name ∧ net.Sent c name ∧ P.InRange a b ∧ P.InRange c b ∧
      (P.pos a).distanceFromPoint (P.pos b) < (P.pos a).distanceFromPoint (P.pos c) := by
  obtain ⟨node, hnode, hdup⟩ := hb
  rcases h.received b node hnode hdup with hsent | ⟨d, hd⟩ | hcancelled
  · exact absurd hsent hno
  · exact absurd hd (hquiet.2 b node hnode d)
  · exact hcancelled

/-- In the end the alert is where the transmitters reach. -/
theorem Flooding.received_iff (h : Flooding P names name zor ls net) (hquiet : net.Quiet name)
    {m : NodeId} (hm : m ∈ P.ids) :
    net.Received m name ↔ P.Reaches {a | net.Sent a name} m := by
  constructor
  · intro hrec
    by_cases hsent : net.Sent m name
    · exact Or.inl hsent
    · obtain ⟨a, _, ha, _, hrange, _⟩ := h.silent hquiet hrec hsent
      exact Or.inr ⟨a, ha, hrange⟩
  · rintro (hsent | ⟨a, ha, hrange⟩)
    · exact h.sender m hsent
    · by_cases hma : m = a
      · exact hma ▸ h.sender a ha
      · rcases h.heard a ha m hm hma hrange with hrec | ⟨c, hc, _, hname⟩
        · exact hrec
        · exact absurd hname (hquiet.1 c hc)

theorem Flooding.relays (h : Flooding P names name zor ls net) (hquiet : net.Quiet name)
    (hcreated : name ∈ injections ls) : P.Relays {a | net.Sent a name} where
  placed := fun a ha => h.mem_ids (h.sender a ha)
  linked := h.linked (h.created hcreated)
  cancelled := by
    rintro b hb hno ⟨a, ha, hrange⟩
    have hrec := (h.received_iff hquiet hb).mpr (Or.inr ⟨a, ha, hrange⟩)
    obtain ⟨a, c, ha, hc, hfar⟩ := h.silent hquiet hrec hno
    exact ⟨a, ha, c, hc, hfar⟩

/-- Along the links of a connected placement the alert stops only where a relay was cancelled. -/
theorem Flooding.complete (h : Flooding P names name zor ls net) (hquiet : net.Quiet name)
    (hcreated : name ∈ injections ls) (hconn : P.Connected)
    (hcover : ∀ b ∈ P.ids, net.Received b name → ¬ net.Sent b name →
      ∀ m ∈ P.ids, P.InRange b m → P.Reaches {a | net.Sent a name} m) :
    ∀ n ∈ P.ids, net.Received n name := by
  have hstep : ∀ b, net.Received b name → ∀ m ∈ P.ids, P.InRange b m → net.Received m name := by
    intro b hb m hm hrange
    rw [h.received_iff hquiet hm]
    by_cases hsent : net.Sent b name
    · exact Or.inr ⟨b, hsent, hrange⟩
    · exact hcover b (h.mem_ids hb) hb hsent m hm hrange
  obtain ⟨a, ha⟩ := h.created hcreated
  have hreca := h.sender a ha
  intro n hn
  have hpath := hconn a (h.mem_ids hreca) n hn
  clear hn
  induction hpath with
  | refl => exact hreca
  | tail _ hlink ih => exact hstep _ ih _ hlink.1 hlink.2

end Quiet

theorem Floods.flooding_nil {infra : Infrastructure F} {P : Placement F}
    {names : NodeId → Finset (Name F)} {name : Name F} {zor : ZoR F} {net₀ net : Net F}
    {ls : List (Label F)} (h : Floods infra P names name zor net₀ ls net) :
    Flooding P names name zor [] net₀ := by
  have hlog : ∀ a, ¬ net₀.Sent a name := by simp [Sent, h.operates.log]
  have hfresh := h.operates.fresh
  constructor
  · exact h.vehicles
  · exact h.placed
  · exact fun n node hnode => (hfresh n node hnode).sound (h.operates.fits n node hnode)
  · simp [h.operates.inFlight]
  · exact fun a ha => absurd ha (hlog a)
  · intro n node d hnode hd
    simp [Node.Pending, (hfresh n node hnode).events] at hd
  · exact fun n node hnode hd => absurd hd ((hfresh n node hnode).not_isDuplicate name)
  · exact fun a ha => absurd ha (hlog a)
  · rintro ⟨a, ha⟩
    exact absurd ha (hlog a)
  · simp [injections]

theorem Floods.flooding {infra : Infrastructure F} {P : Placement F}
    {names : NodeId → Finset (Name F)} {name : Name F} {zor : ZoR F} {net₀ net : Net F}
    {ls : List (Label F)} (h : Floods infra P names name zor net₀ ls net) :
    Flooding P names name zor ls net := by
  apply h.operates.run.invariant (Flooding P names name zor) h.flooding_nil
  intro ms t l v rest heq hrun ht hstep
  have hl : l ∈ ls := by simp [heq]
  have hcount := (h.operates.of_prefix heq hrun).counted
  have hnext := h.operates.of_prefix (heq.trans (List.append_cons ms l rest)) (hrun.snoc hstep)
  exact ht.step hcount h.zone h.geographic hstep (h.noLoss l hl) (h.static l hl) (h.noRsu l hl)
    (h.operates.seen l hl) hnext.once

end Net

/-- A flood reaches every vehicle of a connected placement iff each vehicle in the range of a
cancelled one is a transmitter or in the range of one; so it does where no cancelling can hide a
vehicle. -/
theorem flood_complete {infra : Infrastructure F} {P : Placement F}
    {names : NodeId → Finset (Name F)} {name : Name F} {zor : ZoR F} {net₀ net : Net F}
    {ls : List (Net.Label F)} (h : Net.Floods infra P names name zor net₀ ls net)
    (hconn : P.Connected) :
    ((∀ n ∈ P.ids, net.Received n name) ↔
      ∀ b ∈ P.ids, net.Received b name → ¬ net.Sent b name →
        ∀ m ∈ P.ids, P.InRange b m → P.Reaches {a | net.Sent a name} m) ∧
    (P.Spans → ∀ n ∈ P.ids, net.Received n name) := by
  have hflood := h.flooding
  refine ⟨⟨?_, hflood.complete h.quiet h.created hconn⟩, ?_⟩
  · intro hall b _ _ _ m hm _
    exact (hflood.received_iff h.quiet hm).mp (hall m hm)
  · intro hspans n hn
    rw [hflood.received_iff h.quiet hn]
    exact hspans _ (hflood.relays h.quiet h.created) n hn

/-! ## Roads -/

namespace Placement

/-- Vehicles on a line, with gaps of at most half of the range. -/
structure Road (P : Placement ℝ) (x : NodeId → ℝ) : Prop where
  dist : ∀ a b, (P.pos a).distanceFromPoint (P.pos b) = |x a - x b|
  radius : 0 ≤ P.txRadius
  gaps : ∀ a ∈ P.ids, ∀ b ∈ P.ids, x a < x b →
    ∃ c ∈ P.ids, x a < x c ∧ x c ≤ x b ∧ x c - x a ≤ P.txRadius / 2

section Road

variable {P : Placement ℝ} {x : NodeId → ℝ}

theorem exists_last (x : NodeId → ℝ) {p : NodeId → Prop} (h : ∃ n ∈ P.ids, p n) :
    ∃ n ∈ P.ids, p n ∧ ∀ m ∈ P.ids, p m → x m ≤ x n := by
  have hfinite : {n | n ∈ P.ids ∧ p n}.Finite := P.ids.finite_toSet.subset fun _ hn => hn.1
  obtain ⟨n, ⟨hn, hp⟩, hmax⟩ := Set.exists_max_image _ x hfinite h
  exact ⟨n, hn, hp, fun m hm hpm => hmax m ⟨hm, hpm⟩⟩

/-- The gaps are the same from the other end. -/
theorem Road.reverse (h : P.Road x) : P.Road fun n => -x n where
  dist := by
    intro a b
    rw [h.dist, neg_sub_neg, abs_sub_comm]
  radius := h.radius
  gaps := by
    intro a ha b hb hlt
    obtain ⟨c, hc, hca, hlast⟩ := exists_last (p := fun n => x n < x a) x
      ⟨b, hb, neg_lt_neg_iff.mp hlt⟩
    obtain ⟨d, hd, hcd, hda, hgap⟩ := h.gaps c hc a ha hca
    have hbc := hlast b hb (neg_lt_neg_iff.mp hlt)
    rcases hda.lt_or_eq with hda | hda
    · exact absurd (hlast d hd hda) (not_le.mpr hcd)
    · exact ⟨c, hc, neg_lt_neg hca, neg_le_neg hbc, by linarith⟩

theorem Road.inRange_iff (h : P.Road x) {a b : NodeId} :
    P.InRange a b ↔ |x a - x b| ≤ P.txRadius := by
  rw [InRange, h.dist]

/-- Two transmitters that reach one side of a gap and not the other are too close to each other
for one of them to silence the vehicle at the gap. -/
theorem close_of_gap {r a b c d : ℝ} (hbc : b < c) (hgap : c - b ≤ r / 2) (hab : |a - b| ≤ r)
    (hdb : |d - b| ≤ r) (hac : r < |a - c|) (hdc : r < |d - c|) : |a - d| < |a - b| := by
  have hbehind : ∀ {y : ℝ}, |y - b| ≤ r → r < |y - c| → r / 2 < b - y ∧ b - y ≤ r := by
    intro y hyb hyc
    have hy := abs_le.mp hyb
    rcases lt_abs.mp hyc with hyc | hyc
    · linarith
    · exact ⟨by linarith, by linarith⟩
  obtain ⟨ha, ha'⟩ := hbehind hab hac
  obtain ⟨hd, hd'⟩ := hbehind hdb hdc
  have hlt : |a - d| < r / 2 := abs_lt.mpr ⟨by linarith, by linarith⟩
  have hle : b - a ≤ |a - b| := by
    rw [abs_sub_comm]
    exact le_abs_self _
  linarith

/-- What lies ahead of a transmitter is reached. -/
theorem Road.reaches_ahead (h : P.Road x) {T : Set NodeId} (hT : P.Relays T) {o m : NodeId}
    (ho : o ∈ T) (hm : m ∈ P.ids) (hlt : x o < x m) : P.Reaches T m := by
  by_contra hno
  -- `b` is the last vehicle before `m` that is reached, and `c` is beyond the gap after it
  obtain ⟨b, hb, ⟨hreach, hbm⟩, hlast⟩ := exists_last (p := fun n => P.Reaches T n ∧ x n < x m) x
    ⟨o, hT.placed o ho, Or.inl ho, hlt⟩
  obtain ⟨c, hc, hbc, hcm, hgap⟩ := h.gaps b hb m hm hbm
  have hhidden : ∀ a ∈ T, P.txRadius < |x a - x c| := by
    intro a ha
    by_contra hle
    have hrange : P.InRange a c := h.inRange_iff.mpr (not_lt.mp hle)
    rcases hcm.lt_or_eq with hcm | hcm
    · exact absurd (hlast c hc ⟨Or.inr ⟨a, ha, hrange⟩, hcm⟩) (not_le.mpr hbc)
    · rw [h.inRange_iff, hcm, ← h.inRange_iff] at hrange
      exact hno (Or.inr ⟨a, ha, hrange⟩)
  by_cases hbT : b ∈ T
  · have hlong := hhidden b hbT
    rw [abs_sub_comm, abs_of_pos (sub_pos.mpr hbc)] at hlong
    linarith [h.radius]
  · obtain ⟨a, ha, d, hd, hab, hdb, hfar⟩ :=
      hT.cancelled b hb hbT (hreach.resolve_left hbT)
    rw [h.dist, h.dist] at hfar
    have hclose := close_of_gap hbc hgap (h.inRange_iff.mp hab) (h.inRange_iff.mp hdb)
      (hhidden a ha) (hhidden d hd)
    exact absurd hfar hclose.not_gt

theorem Road.spans (h : P.Road x) : P.Spans := by
  intro T hT m hm
  obtain ⟨o, ho, _⟩ := hT.linked
  rcases lt_trichotomy (x o) (x m) with hlt | heq | hgt
  · exact h.reaches_ahead hT ho hm hlt
  · refine Or.inr ⟨o, ho, h.inRange_iff.mpr ?_⟩
    rw [heq, sub_self, abs_zero]
    exact h.radius
  · exact h.reverse.reaches_ahead hT ho hm (neg_lt_neg hgt)

end Road

end Placement

/-! ## A flood that misses a vehicle

The vehicle at -5 hears the creator at 0 first. It gives up its relay for that
of the vehicle at 10, and the vehicle at -52, if there is one, hears neither of
them. -/

namespace Row

noncomputable def place (n : NodeId) : Point ℝ :=
  if n = 0 then ⟨0, 0⟩ else if n = 1 then ⟨-(5 : ℕ), 0⟩ else if n = 2 then ⟨(10 : ℕ), 0⟩
  else ⟨-(52 : ℕ), 0⟩

noncomputable def placementOf (far : Bool) : Placement ℝ where
  ids := if far then [0, 1, 2, 3] else [0, 1, 2]
  nodup := by cases far <;> decide
  pos := place
  v2v := fun _ => 1
  txRadius := Arith.lit 50
  txRate := Arith.lit 3000000

noncomputable abbrev placement : Placement ℝ := placementOf true

section Run

variable {far : Bool}

theorem ids_eq : (placementOf far).ids = if far then [0, 1, 2, 3] else [0, 1, 2] := rfl

theorem mem_ids {n : NodeId} (h : n ∈ (placementOf far).ids) : n = 0 ∨ n = 1 ∨ n = 2 ∨ n = 3 := by
  cases far with
  | false =>
      rw [ids_eq] at h
      simp only [Bool.false_eq_true, if_false, List.mem_cons, List.not_mem_nil, or_false] at h
      exact h.imp_right fun h => h.imp_right Or.inl
  | true =>
      rw [ids_eq] at h
      simpa using h

theorem near_mem_ids (far : Bool) {n : NodeId} (h : n = 0 ∨ n = 1 ∨ n = 2) :
    n ∈ (placementOf far).ids := by
  cases far <;> rcases h with rfl | rfl | rfl <;> decide

def zone : ZoR ℝ := .circle ⟨0, 0⟩ (100 : ℕ)

def alert : Data ℝ := ⟨[.zor zone], 375, none, none, none, 0⟩

theorem disk_zero (nodes : NodeId → Option (Node ℝ)) (egress : FaceId) :
    (placementOf far).disk nodes 0 egress = [(1, 1), (2, 1)] := by
  have h1 : (placementOf far).InRange 0 1 := by
    simp [Placement.InRange, placementOf, place, Point.distance_axis, Arith.lit]; norm_num
  have h2 : (placementOf far).InRange 0 2 := by
    simp [Placement.InRange, placementOf, place, Point.distance_axis, Arith.lit]; norm_num
  have h3 : ¬ (placementOf far).InRange 0 3 := by
    simp [Placement.InRange, placementOf, place, Point.distance_axis, Arith.lit]; norm_num
  rw [Placement.disk, ids_eq]
  cases far <;> simp [h1, h2, h3] <;> exact ⟨rfl, rfl⟩

theorem delay_near (ctx : Context ℝ) (h : ctx.txRadius = Arith.lit 50)
    (h' : ctx.txRate = Arith.lit 3000000) : deferDelay ctx 375 5 = 5400300 := by
  simp only [deferDelay, h, h', Arith.lit, Arith.trunc, stdClamp]
  norm_num

theorem delay_far (ctx : Context ℝ) (h : ctx.txRadius = Arith.lit 50)
    (h' : ctx.txRate = Arith.lit 3000000) : deferDelay ctx 375 10 = 4800266 := by
  simp only [deferDelay, h, h', Arith.lit, Arith.trunc, stdClamp]
  norm_num

theorem disk_two (nodes : NodeId → Option (Node ℝ)) (egress : FaceId) :
    (placementOf far).disk nodes 2 egress = [(0, 1), (1, 1)] := by
  have h0 : (placementOf far).InRange 2 0 := by
    simp [Placement.InRange, placementOf, place, Point.distance_axis, Arith.lit]; norm_num
  have h1 : (placementOf far).InRange 2 1 := by
    simp [Placement.InRange, placementOf, place, Point.distance_axis, Arith.lit]; norm_num
  have h3 : ¬ (placementOf far).InRange 2 3 := by
    simp [Placement.InRange, placementOf, place, Point.distance_axis, Arith.lit]; norm_num
  rw [Placement.disk, ids_eq]
  cases far <;> simp [h0, h1, h3] <;> exact ⟨rfl, rfl⟩

/-- The network with its vehicles in a given state. -/
noncomputable def stateOf (far : Bool) (v : NodeId → Node ℝ) (now : ℕ)
    (inFlight : List (Copy ℝ)) (log : List (Transmission ℝ)) : Net ℝ where
  now := now
  nodes n := if n ∈ (placementOf far).ids then some (v n) else none
  inFlight := inFlight
  log := log

noncomputable abbrev state := stateOf true

theorem state_react {medium : Medium ℝ} (hmedium : ∀ nodes nodes', medium nodes = medium nodes')
    (v : NodeId → Node ℝ) {now t : ℕ} {inFlight rest : List (Copy ℝ)}
    {log : List (Transmission ℝ)} {n : NodeId} {deferred : Bool} {o : Outcome ℝ}
    (hn : n ∈ (placementOf far).ids) :
    (stateOf far v now inFlight log).react medium t n deferred o rest =
      stateOf far (Function.update v n o.node) t
        (rest ++ Net.copies medium (fun _ => none) t n log.length o.sent)
        (log ++ o.sent.map fun out => ⟨n, out.egress, out.data, deferred⟩) := by
  have hnodes : Function.update (stateOf far v now inFlight log).nodes n (some o.node) =
      (stateOf far (Function.update v n o.node) t inFlight log).nodes := by
    funext m
    by_cases hm : m = n
    · subst hm
      simp [stateOf, hn]
    · simp [stateOf, hm]
  simp only [Net.react, hnodes, Net.copies]
  rw [hmedium _ fun _ => none]
  rfl

noncomputable def start (n : NodeId) : Node ℝ := Pair.vehicle n (place n)

def heard : Data ℝ := { alert with senderType := some .vehicle, senderPos := some ⟨0, 0⟩ }

def relayed : Data ℝ :=
  { alert with senderType := some .vehicle, senderPos := some ⟨(10 : ℕ), 0⟩, uid := 1 }

theorem zone_contains (n : NodeId) : zone.contains (place n) := by
  simp only [zone, ZoR.contains, place, decide_eq_true_eq]
  split_ifs <;> rw [Point.distance_axis] <;> norm_num [abs_le]

noncomputable def created : Node ℝ := (start 0).insertAlert ⟨alert.name, .vehicle, ⟨0, 0⟩⟩

noncomputable def deferred (n : NodeId) (due : ℕ) : Node ℝ :=
  ((start n).insertAlert ⟨alert.name, .vehicle, ⟨0, 0⟩⟩).schedule due heard 1

theorem handles_heard (n : NodeId) (hn : n = 1 ∨ n = 2) : (start n).Handles ⟨∅, ∅⟩
    (.receive 1 heard ⟨1, .nonLocal⟩)
    ⟨deferred n (if n = 2 then 4800267 else 5400301), [], zone.contains (place n)⟩ := by
  have hz : extractZoR heard.name = some zone := rfl
  have hnew : ¬ (start n).ctx.alertStore.isDuplicate heard.name := by
    simp [start, Pair.vehicle, Context.init, AlertStore.isDuplicate, AlertStore.names]
  have hdist : 1 + deferDelay (start n).ctx 375 ((place n).distanceFromPoint ⟨0, 0⟩) =
      if n = 2 then 4800267 else 5400301 := by
    rcases hn with rfl | rfl
    · simp [place, Point.distance_axis, delay_near, start, Pair.vehicle, Context.init]
    · simp [place, Point.distance_axis, delay_far, start, Pair.vehicle, Context.init]
  rw [← hdist]
  apply Node.handles_case rfl hz trivial rfl (by simp [heard])
  exact .deferred ⟨0, 0⟩ ⟨1, .nonLocal⟩ heard rfl hnew (fun h => h.1 (zone_contains n)) rfl

noncomputable def fired : Node ℝ :=
  { deferred 2 4800267 with
    ctx := { (deferred 2 4800267).ctx with
      registry := (deferred 2 4800267).ctx.registry.complete alert.name }
    events := [] }

theorem handles_created : (start 0).Handles ⟨∅, ∅⟩ (.receive 0 alert ⟨2, .isLocal⟩)
    ⟨created, [⟨1, { heard with uid := 0 }⟩], zone.contains (place 0)⟩ := by
  have hz : extractZoR alert.name = some zone := rfl
  have hsend : (start 0).sendOn .v2v alert = .ok [(start 0).onOutgoingAlert alert 1] := rfl
  have hout : (start 0).onOutgoingAlert alert 1 = ⟨1, { heard with uid := 0 }⟩ := by
    simp [Node.onOutgoingAlert, start, Pair.vehicle, heard, alert, place]
  have hplace : place 0 = ⟨0, 0⟩ := by simp [place]
  have hhandles : (start 0).Handles ⟨∅, ∅⟩ (.receive 0 alert ⟨2, .isLocal⟩)
      ⟨(start 0).insertAlert ⟨alert.name, .vehicle, place 0⟩,
        [(start 0).onOutgoingAlert alert 1], zone.contains (place 0)⟩ :=
    Node.handles_origin rfl hz trivial rfl rfl rfl hsend
  rw [hout, hplace] at hhandles
  rw [hplace]
  exact hhandles

theorem handles_fired : (deferred 2 4800267).Handles ⟨∅, ∅⟩ (.expire 0)
    ⟨fired, [⟨1, { relayed with uid := 0 }⟩], false⟩ := by
  refine ⟨0, ?_⟩
  have hplace : place 2 = ⟨10, 0⟩ := by simp [place]
  simp only [Node.handle, Node.expire]
  simp [Node.deferredOutgoingAlert, fired, Node.onOutgoingAlert, deferred, start, Pair.vehicle,
    hplace, relayed, heard, alert, Node.schedule, Node.insertAlert]

theorem handles_duplicate : created.Handles ⟨∅, ∅⟩ (.receive 4800268 relayed ⟨1, .nonLocal⟩)
    created.drop := by
  have hz : extractZoR relayed.name = some zone := rfl
  have hdup : created.ctx.alertStore.isDuplicate relayed.name := by
    simp [created, AlertStore.isDuplicate, start, Pair.vehicle, Context.init, relayed,
      AlertStore.insertOrUpdate, AlertStore.names, AlertStore.pushFront, alert]
  apply Node.handles_case rfl hz trivial rfl (by simp [relayed])
  apply VehicleCase.duplicate ⟨10, 0⟩ rfl hdup
  rintro ⟨hreg, _⟩
  simp [created, DeferredRegistry.isRegistered, start, Pair.vehicle, Context.init] at hreg

theorem handles_cancelled : (deferred 1 5400301).Handles ⟨∅, ∅⟩
    (.receive 4800268 relayed ⟨1, .nonLocal⟩)
    ((deferred 1 5400301).cancel alert.name).drop := by
  have hz : extractZoR relayed.name = some zone := rfl
  have hstore : (deferred 1 5400301).ctx.alertStore.order = [⟨alert.name, .vehicle, ⟨0, 0⟩⟩] := by
    simp [deferred, start, Pair.vehicle, Context.init, AlertStore.insertOrUpdate,
      AlertStore.pushFront, AlertStore.isDuplicate, AlertStore.names]
  have hdup : (deferred 1 5400301).ctx.alertStore.isDuplicate relayed.name := by
    simp [AlertStore.isDuplicate, AlertStore.names, hstore, relayed]
  have hget : (deferred 1 5400301).ctx.alertStore.get relayed.name =
      some ⟨alert.name, .vehicle, ⟨0, 0⟩⟩ := by
    simp [AlertStore.get, hstore, relayed]
  apply Node.handles_case rfl hz trivial rfl (by simp [relayed])
  apply VehicleCase.cancelled ⟨10, 0⟩ rfl hdup
  · exact (AList.mem_insert _).mpr (Or.inl rfl)
  · rw [Suppresses, if_neg (not_not_intro (zone_contains 1)), hget]
    have hplace : place 1 = ⟨-5, 0⟩ := by simp [place]
    change Point.distanceFromPoint ⟨0, 0⟩ (place 1) < Point.distanceFromPoint ⟨0, 0⟩ ⟨10, 0⟩
    rw [hplace, Point.distance_axis, Point.distance_axis]
    norm_num

/-- The vehicles after the steps of the run. -/
noncomputable def v₁ : NodeId → Node ℝ := Function.update start 0 created
noncomputable def v₂ : NodeId → Node ℝ := Function.update v₁ 1 (deferred 1 5400301)
noncomputable def v₃ : NodeId → Node ℝ := Function.update v₂ 2 (deferred 2 4800267)
noncomputable def v₄ : NodeId → Node ℝ := Function.update v₃ 2 fired
noncomputable def v₅ : NodeId → Node ℝ := Function.update v₄ 0 created
noncomputable def v₆ : NodeId → Node ℝ := Function.update v₅ 1
    ((deferred 1 5400301).cancel alert.name)

def tx₁ : Transmission ℝ := ⟨0, 1, { heard with uid := 0 }, false⟩
def tx₂ : Transmission ℝ := ⟨2, 1, { relayed with uid := 0 }, true⟩

def labels : List (Net.Label ℝ) :=
  [(0, .occur 0 (.receive 0 alert ⟨2, .isLocal⟩)), (1, .deliver ⟨1, 1, heard, 0⟩),
    (1, .deliver ⟨2, 1, heard, 0⟩), (4800267, .occur 2 (.expire 0)),
    (4800268, .deliver ⟨0, 1, relayed, 4800267⟩), (4800268, .deliver ⟨1, 1, relayed, 4800267⟩)]

theorem timers {v : NodeId → Node ℝ} {now t : ℕ} {inFlight : List (Copy ℝ)}
    {log : List (Transmission ℝ)} (h : ∀ n ∈ (placementOf far).ids, ∀ d ∈ (v n).events, t ≤ d.due) :
    ∀ n node, (stateOf far v now inFlight log).nodes n = some node →
      ∀ d ∈ node.events, t ≤ d.due := by
  intro n node hnode
  simp only [stateOf] at hnode
  split at hnode
  · rename_i hn
    obtain rfl := Option.some.inj hnode
    exact h n hn
  · cases hnode

theorem step_occur (v : NodeId → Node ℝ) (now t : ℕ) (log : List (Transmission ℝ)) (n : NodeId)
    {ev : NodeEvent ℝ} {node : Node ℝ} {sent : List (Outgoing ℝ)} {relevant : Bool}
    {copies : List (Copy ℝ)} (hn : n ∈ (placementOf far).ids) (hlocal : ev.IsLocal)
    (hhandles : (v n).Handles ⟨∅, ∅⟩ ev ⟨node, sent, relevant⟩) (hnow : now ≤ t)
    (hcopies : Net.copies (placementOf far).disk (fun _ => none) t n log.length sent = copies)
    (htimers : ∀ m ∈ (placementOf far).ids, ∀ d ∈ (v m).events, t ≤ d.due)
    (hexpiry : ∀ d ∈ (v n).events, ev = .expire d.id → t = d.due)
    (hclock : ∀ now data ingress, ev = .receive now data ingress → now = t) :
    Net.TimedStep ⟨∅, ∅⟩ (placementOf far).disk 1 (stateOf far v now [] log) (t, .occur n ev)
      (stateOf far (Function.update v n node) t copies
        (log ++ sent.map fun out => ⟨n, out.egress, out.data, ev.isExpiry⟩)) := by
  have hnode : (stateOf far v now [] log).nodes n = some (v n) := if_pos hn
  have hstep : Net.Step _ (placementOf far).disk _ (t, _) _ := .occur hlocal hnode hhandles
  rw [state_react (fun _ _ => rfl) v hn, hcopies] at hstep
  refine ⟨hstep, hnow, by simp [stateOf], timers htimers, by simp, ?_, ?_⟩
  · intro m node d heq hnode' hd
    obtain ⟨rfl, rfl⟩ := Net.Action.occur.inj heq
    obtain rfl := Option.some.inj (hnode.symm.trans hnode')
    exact hexpiry d hd rfl
  · intro m now' data ingress heq
    exact hclock now' data ingress (Net.Action.occur.inj heq).2

theorem step_deliver (v : NodeId → Node ℝ) (now : ℕ) {t : ℕ} (c : Copy ℝ) (rest : List (Copy ℝ))
    (log : List (Transmission ℝ)) {node : Node ℝ} {relevant : Bool}
    (hn : c.dst ∈ (placementOf far).ids)
    (hhandles : (v c.dst).Handles ⟨∅, ∅⟩ (.receive t c.data ⟨c.ingress, .nonLocal⟩)
      ⟨node, [], relevant⟩)
    (hnow : now ≤ t) (ht : t = c.sentAt + 1) (hcopies : ∀ c ∈ rest, t ≤ c.sentAt + 1)
    (htimers : ∀ m ∈ (placementOf far).ids, ∀ d ∈ (v m).events, t ≤ d.due) :
    Net.TimedStep ⟨∅, ∅⟩ (placementOf far).disk 1 (stateOf far v now (c :: rest) log)
      (t, .deliver c)
      (stateOf far (Function.update v c.dst node) t rest log) := by
  have hnode : (stateOf far v now (c :: rest) log).nodes c.dst = some (v c.dst) := if_pos hn
  have hstep : Net.Step _ (placementOf far).disk _ (t, _) _ :=
    .deliver (List.nil_append (c :: rest)).symm hnode hhandles
  rw [state_react (fun _ _ => rfl) v hn] at hstep
  simp only [Net.copies, List.zipIdx_nil, List.flatMap_nil, List.append_nil, List.nil_append,
    List.map_nil] at hstep
  refine ⟨hstep, hnow, ?_, timers htimers, ?_, by simp, by simp⟩
  · intro x hx
    rcases List.mem_cons.mp hx with rfl | hx
    · exact ht.le
    · exact hcopies x hx
  · intro x hx
    obtain rfl := Net.Action.deliver.inj hx
    exact ht

theorem copies_created (nodes : NodeId → Option (Node ℝ)) (t : ℕ) :
    Net.copies (placementOf far).disk nodes t 0 0 [⟨1, { heard with uid := 0 }⟩] =
      [⟨1, 1, heard, t⟩, ⟨2, 1, heard, t⟩] := by
  simp [Net.copies, disk_zero, heard, alert]

theorem copies_fired (nodes : NodeId → Option (Node ℝ)) (t : ℕ) :
    Net.copies (placementOf far).disk nodes t 2 1 [⟨1, { relayed with uid := 0 }⟩] =
      [⟨0, 1, relayed, t⟩, ⟨1, 1, relayed, t⟩] := by
  simp [Net.copies, disk_two, relayed]

theorem deferred_events (n : NodeId) (due : ℕ) : (deferred n due).events =
    [⟨0, due, heard, 1⟩] := rfl

theorem runs : Run (Net.TimedStep ⟨∅, ∅⟩ (placementOf far).disk 1)
    (stateOf far start 0 [] []) labels (stateOf far v₆ 4800268 [] [tx₁, tx₂]) := by
  have hstart : ∀ n, (start n).events = [] := fun _ => rfl
  have hcreated : created.events = [] := rfl
  have hfired : fired.events = [] := rfl
  have s₁ : Net.TimedStep ⟨∅, ∅⟩ (placementOf far).disk 1 (stateOf far start 0 [] [])
      (0, .occur 0 (.receive 0 alert ⟨2, .isLocal⟩))
      (stateOf far v₁ 0 [⟨1, 1, heard, 0⟩, ⟨2, 1, heard, 0⟩] [tx₁]) := by
    have hlocal : (NodeEvent.receive 0 alert ⟨2, .isLocal⟩).IsLocal := ⟨rfl, rfl, rfl, rfl⟩
    exact step_occur start 0 0 [] 0 (near_mem_ids far (by decide)) hlocal handles_created le_rfl
      (copies_created _ 0) (fun _ _ => by simp [hstart]) (by simp) (by simp)
  have s₂ := step_deliver v₁ 0 ⟨1, 1, heard, 0⟩ [⟨2, 1, heard, 0⟩] [tx₁]
    (near_mem_ids far (by decide)) (handles_heard 1 (Or.inl rfl)) (by simp) rfl (by simp)
    (fun m hm => by
      rcases mem_ids hm with rfl | rfl | rfl | rfl <;> simp [v₁, hstart, hcreated])
  have s₃ := step_deliver v₂ 1 ⟨2, 1, heard, 0⟩ [] [tx₁]
    (near_mem_ids far (by decide)) (handles_heard 2 (Or.inr rfl)) (by simp) rfl (by simp)
    (fun m hm => by
      rcases mem_ids hm with rfl | rfl | rfl | rfl <;>
        simp [v₂, v₁, hstart, hcreated, deferred_events])
  have s₄ : Net.TimedStep ⟨∅, ∅⟩ (placementOf far).disk 1 (stateOf far v₃ 1 [] [tx₁])
      (4800267, .occur 2 (.expire 0))
      (stateOf far v₄ 4800267 [⟨0, 1, relayed, 4800267⟩, ⟨1, 1, relayed, 4800267⟩] [tx₁, tx₂]) := by
    have hlocal : (NodeEvent.expire 0 : NodeEvent ℝ).IsLocal := trivial
    exact step_occur v₃ 1 4800267 [tx₁] 2 (near_mem_ids far (by decide)) hlocal handles_fired
      (by norm_num) (copies_fired _ _)
      (fun m hm => by
        rcases mem_ids hm with rfl | rfl | rfl | rfl <;>
          simp [v₃, v₂, v₁, hstart, hcreated, deferred_events])
      (by simp [v₃, deferred_events]) (by simp)
  have s₅ := step_deliver v₄ 4800267 ⟨0, 1, relayed, 4800267⟩ [⟨1, 1, relayed, 4800267⟩]
    [tx₁, tx₂] (near_mem_ids far (by decide)) handles_duplicate (by simp) rfl (by simp)
    (fun m hm => by
      rcases mem_ids hm with rfl | rfl | rfl | rfl <;>
        simp [v₄, v₃, v₂, v₁, hstart, hcreated, hfired, deferred_events])
  have s₆ := step_deliver v₅ 4800268 ⟨1, 1, relayed, 4800267⟩ [] [tx₁, tx₂]
    (near_mem_ids far (by decide)) handles_cancelled (by simp) rfl (by simp)
    (fun m hm => by
      rcases mem_ids hm with rfl | rfl | rfl | rfl <;>
        simp [v₅, v₄, v₃, v₂, v₁, hstart, hcreated, hfired, deferred_events])
  exact (((((Run.nil.snoc s₁).snoc s₂).snoc s₃).snoc s₄).snoc s₅).snoc s₆

theorem state_nodes {v : NodeId → Node ℝ} {now : ℕ} {inFlight : List (Copy ℝ)}
    {log : List (Transmission ℝ)} {n : NodeId} {node : Node ℝ}
    (h : (stateOf far v now inFlight log).nodes n = some node) :
    n ∈ (placementOf far).ids ∧ node = v n := by
  simp only [stateOf] at h
  split at h
  · rename_i hn
    exact ⟨hn, (Option.some.inj h).symm⟩
  · cases h

theorem events_end (n : NodeId) (hn : n ∈ (placementOf far).ids) : (v₆ n).events = [] := by
  have hcancel : ((deferred 1 5400301).cancel alert.name).events = [] := by
    have hlook : (deferred 1 5400301).ctx.registry.lookup alert.name = some 0 :=
      AList.lookup_insert _
    rw [(Node.cancel_of_lookup hlook).2, deferred_events]
    rfl
  rcases mem_ids hn with rfl | rfl | rfl | rfl
  · rfl
  · exact hcancel
  · rfl
  · rfl

theorem start_fresh (n : NodeId) : (start n).Fresh := ⟨rfl, rfl, rfl⟩

theorem floods : Net.Floods ⟨∅, ∅⟩ (placementOf far) (fun _ => {alert.name}) alert.name zone
    (stateOf far start 0 [] []) labels (stateOf far v₆ 4800268 [] [tx₁, tx₂]) where
  operates := by
    constructor
    · intro n node hnode
      rw [(state_nodes hnode).2]
      exact start_fresh n
    · rfl
    · rfl
    · intro n node hnode hr
      rw [(state_nodes hnode).2] at hr
      cases hr
    · intro n node hnode
      rw [(state_nodes hnode).2]
      exact Finset.card_singleton alert.name |>.trans_le
        (by norm_num [start, Pair.vehicle, Context.init])
    · intro l hl n ev name hev halert
      simp only [labels, List.mem_cons, List.not_mem_nil, or_false] at hl
      rcases hl with rfl | rfl | rfl | rfl | rfl | rfl <;>
        obtain ⟨rfl, rfl⟩ := Prod.mk.inj (Option.some.inj hev) <;> cases halert <;>
        exact Finset.mem_singleton_self _
    · exact List.nodup_singleton alert.name
    · exact runs.mono fun _ _ _ h => h.1
  zone := rfl
  geographic := trivial
  vehicles := by
    intro n
    by_cases hn : n ∈ (placementOf far).ids <;> simp [stateOf, hn]
  placed := by
    intro n node hnode
    rw [(state_nodes hnode).2]
    exact ⟨rfl, rfl, zone_contains n, rfl, rfl, ⟨one_ne_zero, List.mem_singleton_self _⟩, rfl, rfl⟩
  noLoss := by simp [labels]
  static := by
    intro l hl n ev hev pos
    simp only [labels, List.mem_cons, List.not_mem_nil, or_false] at hl
    rcases hl with rfl | rfl | rfl | rfl | rfl | rfl <;> cases hev <;> simp
  noRsu := by
    intro l hl n ev hev
    simp only [labels, List.mem_cons, List.not_mem_nil, or_false] at hl
    rcases hl with rfl | rfl | rfl | rfl | rfl | rfl <;> cases hev <;> simp
  created := List.mem_singleton_self alert.name
  quiet := by
    refine ⟨by simp [stateOf], fun n node hnode d hd => ?_⟩
    obtain ⟨hn, rfl⟩ := state_nodes hnode
    simp [Node.Pending, events_end n hn] at hd

theorem connected : (placementOf far).Connected := by
  have hub : ∀ n, (placementOf far).InRange n 1 ∧ (placementOf far).InRange 1 n := by
    intro n
    have hplace : place 1 = ⟨-5, 0⟩ := by simp [place]
    simp only [Placement.InRange, placementOf, hplace, Arith.lit]
    unfold place
    constructor <;> split_ifs <;> rw [Point.distance_axis] <;> norm_num [abs_le]
  intro n _ m hm
  apply Relation.ReflTransGen.tail (Relation.ReflTransGen.single
    ⟨near_mem_ids far (by decide), (hub n).1⟩)
  exact ⟨hm, (hub m).2⟩

end Run

/-- The three near vehicles are on a road with gaps of at most half of the range. -/
theorem road : (placementOf false).Road fun n => (place n).x where
  dist := by
    intro a b
    simp only [placementOf, place]
    split_ifs <;> rw [Point.distance_axis]
  radius := by norm_num [placementOf, Arith.lit]
  gaps := by
    intro a ha b hb hlt
    refine ⟨b, hb, hlt, le_rfl, ?_⟩
    have hplace : ∀ n ∈ (placementOf false).ids, -5 ≤ (place n).x ∧ (place n).x ≤ 10 := by
      intro n hn
      simp only [ids_eq, Bool.false_eq_true, if_false, List.mem_cons, List.not_mem_nil,
        or_false] at hn
      rcases hn with rfl | rfl | rfl <;> simp [place] <;> norm_num
    have hradius : (placementOf false).txRadius = 50 := by norm_num [placementOf, Arith.lit]
    rw [hradius]
    linarith [(hplace a ha).1, (hplace b hb).2]

end Row

theorem flood_complete_near : ∃ net₀ ls net,
    Net.Floods ⟨∅, ∅⟩ (Row.placementOf false) (fun _ => {Row.alert.name}) Row.alert.name Row.zone
      net₀ ls net ∧
    (∀ n ∈ (Row.placementOf false).ids, net.Received n Row.alert.name) ∧
    ¬ net.Sent 1 Row.alert.name :=
  ⟨_, _, _, Row.floods, (flood_complete Row.floods Row.connected).2 Row.road.spans, by
    simp [Net.Sent, Row.stateOf, Row.tx₁, Row.tx₂]⟩

/-- In a connected placement a flood may miss a vehicle, though each copy
arrives within a nanosecond. -/
theorem flood_incomplete : ¬ ∀ (infra : Infrastructure ℝ) (P : Placement ℝ)
    (names : NodeId → Finset (Name ℝ)) (name : Name ℝ) (zor : ZoR ℝ) (net₀ net : Net ℝ)
    (ls : List (Net.Label ℝ)), Net.Floods infra P names name zor net₀ ls net →
      Run (Net.TimedStep infra P.disk 1) net₀ ls net → P.Connected →
        ∀ n ∈ P.ids, net.Received n name := by
  intro hall
  have hmem : 3 ∈ Row.placement.ids := by decide
  obtain ⟨node, hnode, hdup⟩ :=
    hall _ _ _ _ _ _ _ _ Row.floods Row.runs Row.connected 3 hmem
  rw [(Row.state_nodes hnode).2] at hdup
  exact (Row.start_fresh 3).not_isDuplicate _ hdup

end Cafe
