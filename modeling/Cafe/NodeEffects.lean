import Cafe.Delivery
import Cafe.MiraSpec
import Cafe.Network

/-!
# What an event does to a node of any type

Vehicles and RSUs are handled by their own handlers; nodes of the other
types drop every alert. The lemmas here bound what one event transmits,
stores and schedules.
-/

open Labelled

namespace Cafe

variable {F : Type} [Arith F]

/-- The alerts that are forwarded by their zone. -/
def Name.IsGeographic (name : Name F) : Prop :=
  ∃ zor, extractZoR name = some zor ∧ zor.IsGeographic

omit [Arith F] in
theorem NodeEvent.alert_geographic {ev : NodeEvent F} {name : Name F} (h : ev.alert = some name) :
    name.IsGeographic := by
  obtain ⟨now, data, ingress, rfl, rfl⟩ := NodeEvent.alert_eq_some h
  simp only [NodeEvent.alert] at h
  split at h
  · cases h
  · cases h
  · rename_i zor hno hz
    refine ⟨zor, hz, ?_⟩
    cases zor with
    | neighbor => exact absurd rfl hno
    | _ => trivial

/-- What no event changes. -/
structure Node.Config (F : Type) where
  nodeId : NodeId
  type : NodeType
  faceContextMap : List (FaceId × FaceContext)
  faceTable : List NfdFace
  maxSize : ℕ
  txRadius : F
  txRate : F

namespace Node

def config (node : Node F) : Config F where
  nodeId := node.nodeId
  type := node.ctx.type
  faceContextMap := node.ctx.faceContextMap
  faceTable := node.faceTable
  maxSize := node.ctx.alertStore.maxSize
  txRadius := node.ctx.txRadius
  txRate := node.ctx.txRate

/-- A node that has handled no alert yet. -/
structure Fresh (node : Node F) : Prop where
  order : node.ctx.alertStore.order = []
  registry : node.ctx.registry = ∅
  events : node.events = []

theorem Fresh.not_isDuplicate {node : Node F} (h : node.Fresh) (name : Name F) :
    ¬ node.ctx.alertStore.isDuplicate name := by
  simp [AlertStore.isDuplicate, AlertStore.names, h.order]

@[simp] theorem insertAlert_config (node : Node F) (entry : AlertStore.Entry F) :
    (node.insertAlert entry).config = node.config := by
  simp [config, insertAlert, AlertStore.insertOrUpdate_maxSize]

@[simp] theorem schedule_config (node : Node F) (due : ℕ) (data : Data F) (egress : FaceId) :
    (node.schedule due data egress).config = node.config := rfl

@[simp] theorem cancel_config (node : Node F) (name : Name F) :
    (node.cancel name).config = node.config := by unfold cancel; split <;> rfl

@[simp] theorem cancel_isRsuAvailable (node : Node F) (name : Name F) :
    (node.cancel name).ctx.isRsuAvailable = node.ctx.isRsuAvailable := by
  unfold cancel; split <;> rfl

@[simp] theorem drop_node (node : Node F) : node.drop.node = node := rfl

@[simp] theorem drop_sent (node : Node F) : node.drop.sent = [] := rfl

/-- What an event does to a node. -/
inductive Effect (infra : Infrastructure F) (node : Node F) : NodeEvent F → Outcome F → Prop
  | vehicle {ev : NodeEvent F} {o : Outcome F} (hv : ev.alert ≠ none → node.ctx.type = .vehicle)
      (hc : Case infra node ev o) : Effect infra node ev o
  | rsu {fuel now : ℕ} {data : Data F} {ingress : NfdFace} {zor : ZoR F} {o : Outcome F}
      (hr : node.ctx.type = .rsu) (hz : extractZoR data.name = some zor) (hgeo : zor.IsGeographic)
      (hc : RsuCase fuel infra data zor node o) : Effect infra node (.receive now data ingress) o
  | dropped {ev : NodeEvent F} (hv : node.ctx.type ≠ .vehicle) (hr : node.ctx.type ≠ .rsu) :
      Effect infra node ev node.drop

theorem Handles.effect {infra : Infrastructure F} {node : Node F} {ev : NodeEvent F}
    {o : Outcome F} (h : node.Handles infra ev o) : Effect infra node ev o := by
  obtain ⟨fuel, h⟩ := h
  by_cases hv : node.ctx.type = .vehicle
  · exact .vehicle (fun _ => hv) (handle_cases hv h)
  · cases ev with
    | receive now data ingress =>
        simp only [handle, onIncomingAlert] at h
        split at h
        · rename_i hz
          obtain rfl := Except.ok.inj h
          exact .vehicle (by simp [NodeEvent.alert, hz])
            (.ignored (Or.inl (by simp [hz])) (by simp))
        · rename_i hz
          have hno : ∀ zor, extractZoR data.name = some zor → ¬ zor.IsGeographic := by
            intro zor hz'
            obtain rfl := Option.some.inj (hz.symm.trans hz')
            exact id
          split at h
          · obtain rfl := Except.ok.inj h
            exact .vehicle (by simp [NodeEvent.alert, hz]) (.ignored (Or.inl hno) (by simp))
          · obtain rfl := Except.ok.inj h
            refine .vehicle (by simp [NodeEvent.alert, hz]) (.ignored (Or.inl hno) ?_)
            intro out hout
            obtain ⟨face, _, rfl⟩ := List.mem_map.mp hout
            exact ⟨_, rfl⟩
        · rename_i zor hno hz
          have hgeo : zor.IsGeographic := by
            cases zor with
            | neighbor => exact absurd rfl hno
            | _ => trivial
          split at h
          · rename_i hv'
            exact absurd hv' hv
          · rename_i hr
            exact .rsu hr hz hgeo (alertRsuHandler_cases h)
          · rename_i hr
            obtain rfl := Except.ok.inj h
            exact .dropped hv hr
    | _ => exact .vehicle (by simp [NodeEvent.alert]) (handle_cases_internal (by simp) h)

/-- The producer of an alert transmits it at once. -/
theorem handles_origin {infra : Infrastructure F} {node : Node F} {now : ℕ} {data : Data F}
    {ingress : NfdFace} {zor : ZoR F} {nodePos : Point F} {sent : List (Outgoing F)}
    (hv : node.ctx.type = .vehicle) (hz : extractZoR data.name = some zor)
    (hgeo : zor.IsGeographic) (hm : node.mobility = some nodePos) (hpos : data.senderPos = none)
    (hscope : ingress.scope = .isLocal)
    (hsent : node.sendOn (if node.ctx.isRsuAvailable then .v2i else .v2v) data = .ok sent) :
    node.Handles infra (.receive now data ingress)
      ⟨node.insertAlert ⟨data.name, .vehicle, nodePos⟩, sent, zor.contains nodePos⟩ :=
  ⟨0, (onIncomingAlert_vehicle hz hgeo hv).trans (alertVehicleHandler_origin hm hpos hscope hsent)⟩

/-- A copy with a sender position is handled as its case says. -/
theorem handles_case {infra : Infrastructure F} {node : Node F} {now : ℕ} {data : Data F}
    {ingress : NfdFace} {zor : ZoR F} {nodePos : Point F} {o : Outcome F}
    (hv : node.ctx.type = .vehicle) (hz : extractZoR data.name = some zor)
    (hgeo : zor.IsGeographic) (hm : node.mobility = some nodePos) (hsome : data.senderPos ≠ none)
    (hc : VehicleCase now data ingress zor node nodePos o) :
    node.Handles infra (.receive now data ingress) o :=
  (step_of_case hv hz hgeo hm hsome hc).1

theorem broadcastCase_data {data : Data F} {dstNodes rest : DestinationNodes} {node : Node F}
    {sent : List (Outgoing F)} (h : BroadcastCase data dstNodes node rest sent) :
    ∀ out ∈ sent, out.data.name = data.name ∧ out.data.size = data.size := by
  cases h with
  | sends _ _ _ =>
      intro out hout
      rw [List.mem_singleton.mp hout]
      exact ⟨rfl, rfl⟩
  | passes _ => exact nofun

theorem sharesCase_data {fuel : ℕ} {infra : Infrastructure F} {data : Data F}
    {dstNodes : DestinationNodes} {node : Node F} {sent : List (Outgoing F)}
    (h : SharesCase fuel infra data dstNodes node sent) :
    ∀ out ∈ sent, out.data.name = data.name ∧ out.data.size = data.size := by
  cases h with
  | empty _ => exact nofun
  | shares entries _ _ _ =>
      intro out hout
      obtain ⟨entry, _, rfl⟩ := List.mem_map.mp hout
      exact ⟨rfl, rfl⟩

section Effect

variable {infra : Infrastructure F} {node : Node F} {ev : NodeEvent F} {o : Outcome F}

theorem Effect.case_of_vehicle (h : Effect infra node ev o) (hv : node.ctx.type = .vehicle) :
    Case infra node ev o := by
  cases h with
  | vehicle _ hc => exact hc
  | rsu hr _ _ _ => simp [hv] at hr
  | dropped hno _ => exact absurd hv hno

theorem Effect.config_eq (h : Effect infra node ev o) : o.node.config = node.config := by
  cases h with
  | vehicle _ hc =>
      cases hc with
      | geographic _ _ _ hcase => cases hcase <;> simp
      | _ => rfl
  | rsu _ _ _ hc =>
      cases hc with
      | duplicate _ => rfl
      | new dstNodes rest sent wired _ _ _ _ => exact node.insertAlert_config _
  | dropped _ _ => rfl

theorem Effect.store (h : Effect infra node ev o) :
    o.node.ctx.alertStore = node.ctx.alertStore ∨ ∃ entry, ev.alert = some entry.name ∧
      o.node.ctx.alertStore = node.ctx.alertStore.insertOrUpdate entry := by
  cases h with
  | vehicle _ hc => exact hc.store
  | rsu _ hz hgeo hc =>
      cases hc with
      | duplicate _ => exact Or.inl rfl
      | new dstNodes rest sent wired _ _ _ _ =>
          exact Or.inr ⟨_, NodeEvent.alert_receive _ _ hz hgeo, rfl⟩
  | dropped _ _ => exact Or.inl rfl

theorem Effect.room (h : Effect infra node ev o) {names : Finset (Name F)}
    (hroom : node.ctx.alertStore.Room names) (hev : ∀ name, ev.alert = some name → name ∈ names) :
    o.node.ctx.alertStore.Room names ∧
      (∀ name, node.ctx.alertStore.isDuplicate name → o.node.ctx.alertStore.isDuplicate name) ∧
      ∀ name, o.node.ctx.alertStore.isDuplicate name →
        node.ctx.alertStore.isDuplicate name ∨ ev.alert = some name :=
  hroom.of_store h.store hev

/-- A relay is scheduled for a copy with a sender position that is not nearer
to the zone than a vehicle outside it. -/
theorem Effect.scheduled (h : Effect infra node ev o) : ∀ d ∈ o.node.events, d ∈ node.events ∨
    ∃ now data ingress zor nodePos senderPos, ev = .receive now data ingress ∧
      extractZoR data.name = some zor ∧ zor.IsGeographic ∧ node.mobility = some nodePos ∧
      data.senderPos = some senderPos ∧
      ¬ (¬ zor.contains nodePos ∧ CloserToZoR zor senderPos nodePos) ∧
      d.data.name = data.name ∧ d.data.uid = data.uid := by
  intro d hd
  cases h with
  | vehicle _ hc =>
      cases hc with
      | geographic hz hgeo hm hcase =>
          cases hcase with
          | cancelled _ _ _ hreg _ =>
              obtain ⟨id, hid⟩ := Option.isSome_iff_exists.mp (AList.lookup_isSome.mpr hreg)
              rw [drop_node, (cancel_of_lookup hid).2] at hd
              exact Or.inl (List.mem_filter.mp hd).1
          | deferred senderPos _ _ hpos _ hfar hface =>
              rw [schedule_events, List.mem_append, List.mem_singleton] at hd
              rcases hd with hd | rfl
              · exact Or.inl hd
              · have hdata := relayOn_data hface
                exact Or.inr ⟨_, _, _, _, _, senderPos, rfl, hz, hgeo, hm, hpos, hfar, hdata.1,
                  hdata.2.2⟩
          | _ => exact Or.inl hd
      | fired _ => exact Or.inl (List.mem_filter.mp hd).1
      | _ => exact Or.inl hd
  | rsu _ _ _ hc => cases hc <;> exact Or.inl hd
  | dropped _ _ => exact Or.inl hd

theorem Effect.events (h : Effect infra node ev o) :
    ∀ d ∈ o.node.events, d ∈ node.events ∨ ev.alert = some d.data.name := by
  intro d hd
  rcases h.scheduled d hd with
    hd | ⟨now, data, ingress, zor, _, _, rfl, hz, hgeo, _, _, _, hname, _⟩
  · exact Or.inl hd
  · exact Or.inr (by rw [hname, NodeEvent.alert_receive _ _ hz hgeo])

/-- An alert is transmitted upon its arrival or upon the expiry of its
relay. -/
theorem Effect.sent (h : Effect infra node ev o) :
    ∀ out ∈ o.sent, out.data.name.IsGeographic → ev.alert = some out.data.name ∨
      ∃ d ∈ node.events, ev = .expire d.id ∧ d.data.name = out.data.name := by
  intro out hout hgeo
  cases h with
  | vehicle _ hc =>
      cases hc with
      | geographic hz hgeo' _ hcase =>
          cases hcase with
          | origin sent _ _ hsent =>
              rcases sendOn_ok hsent with rfl | rfl
              · cases hout
              · obtain rfl := List.mem_singleton.mp hout
                exact Or.inl (NodeEvent.alert_receive _ _ hz hgeo')
          | _ => cases hout
      | ignored hno hsent =>
          obtain ⟨zor, hz, hgeo⟩ := hgeo
          rcases hno with hno | ⟨_, rfl, _⟩
          · obtain ⟨egress, rfl⟩ := hsent out hout
            exact absurd hgeo (hno zor hz)
          · cases hout
      | @fired d hmem =>
          obtain rfl := List.mem_singleton.mp hout
          exact Or.inr ⟨d, hmem, rfl, rfl⟩
      | _ => cases hout
  | rsu _ hz hgeo' hc =>
      refine Or.inl ((NodeEvent.alert_receive _ _ hz hgeo').trans (congrArg some ?_))
      cases hc with
      | duplicate _ => cases hout
      | new dstNodes rest sent wired _ _ hbroad hwired =>
          rcases List.mem_append.mp hout with hout | hout
          · cases hbroad with
            | sends _ _ _ =>
                obtain rfl := List.mem_singleton.mp hout
                rfl
            | passes _ => cases hout
          · cases hwired with
            | empty _ => cases hout
            | shares entries _ _ _ =>
                obtain ⟨entry, _, rfl⟩ := List.mem_map.mp hout
                rfl
  | dropped _ _ => cases hout

/-- What a node transmits is the alert that arrives or a relay that was pending. -/
theorem Effect.sent_of (h : Effect infra node ev o) : ∀ out ∈ o.sent,
    (∃ now data ingress, ev = .receive now data ingress ∧ out.data.name = data.name ∧
        out.data.size = data.size) ∨
      ∃ d ∈ node.events, ev = .expire d.id ∧ out.data.name = d.data.name ∧
        out.data.size = d.data.size := by
  intro out hout
  cases h with
  | vehicle _ hc =>
      cases hc with
      | geographic _ _ _ hcase =>
          cases hcase with
          | origin sent _ _ hsent =>
              rcases sendOn_ok hsent with rfl | rfl
              · cases hout
              · rw [List.mem_singleton.mp hout]
                exact Or.inl ⟨_, _, _, rfl, rfl, rfl⟩
          | _ => cases hout
      | ignored _ hsent =>
          obtain ⟨egress, rfl⟩ := hsent out hout
          exact Or.inl ⟨_, _, _, rfl, rfl, rfl⟩
      | @fired d hmem =>
          rw [List.mem_singleton.mp hout]
          exact Or.inr ⟨d, hmem, rfl, rfl, rfl⟩
      | _ => cases hout
  | rsu _ _ _ hc =>
      cases hc with
      | duplicate _ => cases hout
      | new dstNodes rest sent wired _ _ hbroad hwired =>
          rcases List.mem_append.mp hout with hout | hout
          · exact Or.inl ⟨_, _, _, rfl, broadcastCase_data hbroad out hout⟩
          · exact Or.inl ⟨_, _, _, rfl, sharesCase_data hwired out hout⟩
  | dropped _ _ => cases hout

/-- Every transmission is tagged by its sender. -/
theorem Effect.tagged (h : Effect infra node ev o) : ∀ out ∈ o.sent,
    ∃ (node' : Node F) (data : Data F) (egress : FaceId), node'.ctx.type = node.ctx.type ∧
      node'.mobility = node.mobility ∧ out = node'.onOutgoingAlert data egress := by
  intro out hout
  cases h with
  | vehicle _ hc =>
      cases hc with
      | geographic _ _ _ hcase =>
          cases hcase with
          | origin sent _ _ hsent =>
              rcases sendOn_ok hsent with rfl | rfl
              · cases hout
              · exact ⟨node, _, _, rfl, rfl, List.mem_singleton.mp hout⟩
          | _ => cases hout
      | ignored _ hsent =>
          obtain ⟨egress, rfl⟩ := hsent out hout
          exact ⟨node, _, _, rfl, rfl, rfl⟩
      | fired _ => exact ⟨_, _, _, rfl, rfl, List.mem_singleton.mp hout⟩
      | _ => cases hout
  | rsu _ _ _ hc =>
      cases hc with
      | duplicate _ => cases hout
      | new dstNodes rest sent wired _ _ hbroad hwired =>
          rcases List.mem_append.mp hout with hout | hout
          · cases hbroad with
            | sends _ _ _ => exact ⟨node, _, _, rfl, rfl, List.mem_singleton.mp hout⟩
            | passes _ => cases hout
          · cases hwired with
            | empty _ => cases hout
            | shares entries _ _ _ =>
                obtain ⟨entry, _, rfl⟩ := List.mem_map.mp hout
                exact ⟨node, _, _, rfl, rfl, rfl⟩
  | dropped _ _ => cases hout

/-- Every transmission carries the position of its sender. -/
theorem Effect.senderPos (h : Effect infra node ev o) (hm : node.mobility.isSome) :
    ∀ out ∈ o.sent, out.data.senderPos = node.mobility := by
  intro out hout
  obtain ⟨node', data, egress, _, hmob, rfl⟩ := h.tagged out hout
  obtain ⟨pos, hpos⟩ := Option.isSome_iff_exists.mp hm
  simp [onOutgoingAlert, hmob, hpos]

theorem Effect.senderType (h : Effect infra node ev o) :
    ∀ out ∈ o.sent, out.data.senderType = some node.ctx.type := by
  intro out hout
  obtain ⟨node', data, egress, htype, _, rfl⟩ := h.tagged out hout
  exact congrArg some htype

/-- What an expiry transmits was pending. -/
theorem Effect.expiry (h : Effect infra node ev o) (hexp : ev.isExpiry) :
    ∀ out ∈ o.sent, ∃ d ∈ node.events, out.data.name = d.data.name ∧ out.data.uid = d.data.uid := by
  intro out hout
  cases h with
  | vehicle _ hc =>
      cases hc with
      | @fired d hmem =>
          rw [List.mem_singleton.mp hout]
          exact ⟨d, hmem, rfl, rfl⟩
      | expired _ => cases hout
      | _ => cases hexp
  | rsu _ _ _ _ => cases hexp
  | dropped _ _ => cases hout

theorem Effect.mobility_of_static (h : Effect infra node ev o) (hstatic : ∀ pos, ev ≠ .move pos) :
    o.node.mobility = node.mobility := by
  cases h with
  | vehicle _ hc => exact hc.mobility_of_static hstatic
  | rsu _ _ _ hc => cases hc <;> rfl
  | dropped _ _ => rfl

theorem Effect.isRsuAvailable_eq (h : Effect infra node ev o) (hno : ev ≠ .hello true)
    (hfalse : node.ctx.isRsuAvailable = false) : o.node.ctx.isRsuAvailable = false := by
  cases h with
  | vehicle _ hc =>
      cases hc with
      | geographic _ _ _ hcase =>
          cases hcase with
          | cancelled _ _ _ _ _ => exact (node.cancel_isRsuAvailable _).trans hfalse
          | _ => exact hfalse
      | hello available => simpa using hno
      | _ => exact hfalse
  | rsu _ _ _ hc => cases hc <;> exact hfalse
  | dropped _ _ => exact hfalse

end Effect

end Node

/-! ## Two vehicles

One vehicle creates an alert and the other relays it. -/

namespace Pair

def zone : ZoR ℝ := .circle ⟨0, 0⟩ (10 : ℕ)

def alert : Data ℝ := ⟨[.zor zone], 100, none, none, none, 0⟩

noncomputable def vehicle (nodeId : NodeId) (pos : Point ℝ) : Node ℝ where
  nodeId := nodeId
  mobility := some pos
  ctx := { Context.init ℝ with type := .vehicle, faceContextMap := [(1, .v2v)] }
  faceTable := [⟨1, .nonLocal⟩]
  events := []
  nextEvent := 0

noncomputable def net (p q : Point ℝ) : Net ℝ where
  now := 0
  nodes n := if n = 0 then some (vehicle 0 p) else if n = 1 then some (vehicle 1 q) else none
  inFlight := []
  log := []

/-- Each hears the other. -/
def medium : Medium ℝ := fun _ n _ => ([0, 1].filter fun m => m ≠ n).map fun m => (m, 1)

theorem zone_contains : zone.contains ⟨1, 0⟩ := by
  simp [zone, ZoR.contains, Point.distanceFromPoint, Arith.hypot]

theorem net_nodes {p q : Point ℝ} {n : NodeId} {node : Node ℝ} (h : (net p q).nodes n = some node) :
    (n = 0 ∧ node = vehicle 0 p) ∨ (n = 1 ∧ node = vehicle 1 q) := by
  simp only [net] at h
  split at h
  · rename_i hn
    exact Or.inl ⟨hn, (Option.some.inj h).symm⟩
  · split at h
    · rename_i hn
      exact Or.inr ⟨hn, (Option.some.inj h).symm⟩
    · cases h

theorem net_fresh {p q : Point ℝ} {n : NodeId} {node : Node ℝ} (h : (net p q).nodes n = some node) :
    node.Fresh ∧ node.ctx.type = .vehicle ∧ node.ctx.alertStore.maxSize = 100 ∧
      node.mobility.isSome := by
  rcases net_nodes h with ⟨_, rfl⟩ | ⟨_, rfl⟩ <;> exact ⟨⟨rfl, rfl, rfl⟩, rfl, rfl, rfl⟩

/-- Creation, delivery, relay. -/
def labels (c : Copy ℝ) : List (Net.Label ℝ) :=
  [(0, .occur 0 (.receive 0 alert ⟨2, .isLocal⟩)), (1, .deliver c), (2, .occur 1 (.expire 0))]

theorem runs {p q : Point ℝ} (hfar : ¬ (¬ zone.contains q ∧ CloserToZoR zone p q)) :
    ∃ c net', Run (Net.Step ⟨∅, ∅⟩ medium) (net p q) (labels c) net' ∧
      c.data.name = alert.name ∧ net'.log =
        [⟨0, 1, { alert with senderType := some .vehicle, senderPos := some p }, false⟩,
          ⟨1, 1, { alert with senderType := some .vehicle, senderPos := some q }, true⟩] ∧
      net'.nodes 0 = some ((vehicle 0 p).insertAlert ⟨alert.name, .vehicle, p⟩) ∧
      net'.inFlight = [⟨0, 1,
        { alert with senderType := some .vehicle, senderPos := some q, uid := 1 }, 2⟩] ∧
      ∀ n node, net'.nodes n = some node → node.events = [] := by
  have hz : extractZoR alert.name = some zone := rfl
  have hsend : (vehicle 0 p).sendOn .v2v alert = .ok [(vehicle 0 p).onOutgoingAlert alert 1] := rfl
  let o₁ : Outcome ℝ := ⟨(vehicle 0 p).insertAlert ⟨alert.name, .vehicle, p⟩,
    [(vehicle 0 p).onOutgoingAlert alert 1], zone.contains p⟩
  have h₁ : (vehicle 0 p).Handles ⟨∅, ∅⟩ (.receive 0 alert ⟨2, .isLocal⟩) o₁ :=
    Node.handles_origin rfl hz trivial rfl rfl rfl hsend
  have s₁ : Net.Step ⟨∅, ∅⟩ medium (net p q) (0, .occur 0 (.receive 0 alert ⟨2, .isLocal⟩))
      ((net p q).react medium 0 0 false o₁ []) := .occur ⟨rfl, rfl, rfl, rfl⟩ rfl h₁
  let c : Copy ℝ := ⟨1, 1, ((vehicle 0 p).onOutgoingAlert alert 1).data, 0⟩
  have hnew : ¬ (vehicle 1 q).ctx.alertStore.isDuplicate c.data.name := by
    simp [vehicle, Context.init, AlertStore.isDuplicate, AlertStore.names]
  let o₂ : Outcome ℝ := ⟨((vehicle 1 q).insertAlert ⟨alert.name, .vehicle, p⟩).schedule
    (1 + deferDelay (vehicle 1 q).ctx 100 (q.distanceFromPoint p)) c.data 1, [], zone.contains q⟩
  have h₂ : (vehicle 1 q).Handles ⟨∅, ∅⟩ (.receive 1 c.data ⟨1, .nonLocal⟩) o₂ := by
    have hz' : extractZoR c.data.name = some zone := hz
    apply Node.handles_case rfl hz' trivial rfl (by simp [c, Node.onOutgoingAlert, vehicle])
    exact .deferred p ⟨1, .nonLocal⟩ c.data rfl hnew hfar rfl
  have s₂ : Net.Step ⟨∅, ∅⟩ medium ((net p q).react medium 0 0 false o₁ []) (1, .deliver c)
      (((net p q).react medium 0 0 false o₁ []).react medium 1 1 false o₂ ([] ++ [])) :=
    .deliver (List.nil_append [c]).symm rfl h₂
  have s₃ : Net.Step ⟨∅, ∅⟩ medium (((net p q).react medium 0 0 false o₁ []).react medium 1 1
      false o₂ ([] ++ [])) (2, .occur 1 (.expire 0)) _ := .occur trivial rfl ⟨0, rfl⟩
  refine ⟨c, _, ((Run.nil.snoc s₁).snoc s₂).snoc s₃, rfl, rfl, rfl, rfl, ?_⟩
  intro n node hnode
  rcases Net.react_nodes_cases hnode with ⟨_, rfl⟩ | ⟨_, hnode⟩
  · rfl
  · rcases Net.react_nodes_cases hnode with ⟨hn, _⟩ | ⟨_, hnode⟩
    · contradiction
    · rcases Net.react_nodes_cases hnode with ⟨_, rfl⟩ | ⟨_, hnode⟩
      · rfl
      · exact (net_fresh hnode).1.events

end Pair

end Cafe
