import Cafe.NodeEffects

/-!
# At most one transmission of an alert

The store admits an alert once. A vehicle then either transmits it or
schedules one relay, which transmits it or is cancelled; an RSU transmits
it once on each of its faces.
-/

open Labelled

namespace Cafe

variable {F : Type} [Arith F]

namespace AlertStore

def count (as : AlertStore F) (name : Name F) : ℕ := if as.isDuplicate name then 1 else 0

@[simp] theorem count_of_isDuplicate {as : AlertStore F} {name : Name F}
    (h : as.isDuplicate name) : as.count name = 1 := if_pos h

@[simp] theorem count_of_not_isDuplicate {as : AlertStore F} {name : Name F}
    (h : ¬ as.isDuplicate name) : as.count name = 0 := if_neg h

theorem count_le_count {as as' : AlertStore F} {name : Name F}
    (h : as.isDuplicate name → as'.isDuplicate name) : as.count name ≤ as'.count name := by
  by_cases hdup : as.isDuplicate name
  · simp [hdup, h hdup]
  · simp [hdup]

end AlertStore

/-- The faces on which the alert is transmitted. -/
def Outcome.egressesOf (o : Outcome F) (name : Name F) : List FaceId :=
  (o.sent.filter fun out => out.data.name = name).map Outgoing.egress

namespace Node

/-- The pending relays of an alert. -/
def pendingOf (node : Node F) (name : Name F) : List (Deferred F) :=
  node.events.filter fun d => d.data.name = name

theorem pendingOf_fired {events : List (Deferred F)} {d : Deferred F} (hmem : d ∈ events) :
    (((events.filter fun e => e.id ≠ d.id).filter fun e => e.data.name = d.data.name)).length <
      (events.filter fun e => e.data.name = d.data.name).length := by
  rw [List.filter_filter]
  simp only [Bool.and_comm]
  rw [← List.filter_filter, List.length_filter_lt_length_iff_exists]
  exact ⟨d, List.mem_filter.mpr ⟨hmem, by simp⟩, by simp⟩

/-- The face of the broadcast is none of the faces of the graph. -/
def WiredApart (infra : Infrastructure F) (node : Node F) : Prop :=
  ∀ faces, infra.routingInfo.lookup node.nodeId = some faces →
    ∀ face ∈ faces, face.faceId ≠ node.ctx.getFaceIdFor .v2i

theorem WiredApart.congr {infra : Infrastructure F} {node node' : Node F}
    (h : node.WiredApart infra) (hconfig : node'.config = node.config) :
    node'.WiredApart infra := by
  have hid : node'.nodeId = node.nodeId := congrArg Config.nodeId hconfig
  have hmap : node'.ctx.faceContextMap = node.ctx.faceContextMap :=
    congrArg Config.faceContextMap hconfig
  unfold WiredApart Context.getFaceIdFor at *
  rwa [hid, hmap]

/-- The faces on which a node has transmitted the alert so far. -/
inductive Transmitted (node : Node F) (name : Name F) (egresses : List FaceId) : Prop
  | vehicle (hv : node.ctx.type = .vehicle)
      (hle : egresses.length + (node.pendingOf name).length ≤ node.ctx.alertStore.count name)
  | rsu (hr : node.ctx.type = .rsu) (hev : node.events = []) (hnodup : egresses.Nodup)
      (hsub : egresses ⊆ node.faceTable.map NfdFace.faceId)
      (hnew : ¬ node.ctx.alertStore.isDuplicate name → egresses = [])
  | other (hv : node.ctx.type ≠ .vehicle) (hr : node.ctx.type ≠ .rsu) (hev : node.events = [])
      (hnil : egresses = [])

/-- An RSU transmits an alert once on each face at most. -/
theorem rsuCase_egresses {fuel : ℕ} {infra : Infrastructure F} {data : Data F} {zor : ZoR F}
    {node : Node F} {o : Outcome F} (h : RsuCase fuel infra data zor node o)
    (hapart : node.WiredApart infra) :
    (o.sent.map Outgoing.egress).Nodup ∧
      o.sent.map Outgoing.egress ⊆ node.faceTable.map NfdFace.faceId := by
  cases h with
  | duplicate _ => simp
  | new dstNodes rest sent wired hnew hdst hbroad hwired =>
      have hsent : (sent.map Outgoing.egress).Nodup ∧
          ∀ e ∈ sent.map Outgoing.egress, e = node.ctx.getFaceIdFor .v2i ∧
            e ∈ node.faceTable.map NfdFace.faceId := by
        cases hbroad with
        | sends _ _ hface => exact ⟨by simp, by simpa [onOutgoingAlert] using hface⟩
        | passes _ => simp
      have hwire : (wired.map Outgoing.egress).Nodup ∧
          ∀ e ∈ wired.map Outgoing.egress, e ≠ node.ctx.getFaceIdFor .v2i ∧
            e ∈ node.faceTable.map NfdFace.faceId := by
        cases hwired with
        | empty _ => simp
        | shares entries _ hmira hfaces =>
            have hkeys : ((entries.entries.map fun entry => node.onOutgoingAlert
                { data with destinationNodes := some entry.2 } entry.1).map Outgoing.egress) =
                  entries.keys := by
              simp [onOutgoingAlert, AList.keys, List.keys]
            rw [hkeys]
            refine ⟨entries.keys_nodup, fun e he => ?_⟩
            obtain ⟨faces, face, hlook, hmem, rfl⟩ := mira_faces hmira e he
            obtain ⟨entry, hentry, heq⟩ := List.mem_map.mp he
            exact ⟨hapart faces hlook face hmem, heq ▸ hfaces entry hentry⟩
      rw [List.map_append]
      refine ⟨List.nodup_append.mpr ⟨hsent.1, hwire.1, ?_⟩, ?_⟩
      · rintro e he e' he' rfl
        exact (hwire.2 e he').1 (hsent.2 e he).1
      · intro e he
        rcases List.mem_append.mp he with he | he
        · exact (hsent.2 e he).2
        · exact (hwire.2 e he).2

theorem Effect.egressesOf_eq_nil {infra : Infrastructure F} {node : Node F} {ev : NodeEvent F}
    {o : Outcome F} (h : Effect infra node ev o) {name : Name F} (hgeo : name.IsGeographic)
    (halert : ev.alert ≠ some name)
    (hexp : ∀ d ∈ node.events, ev = .expire d.id → d.data.name ≠ name) :
    o.egressesOf name = [] := by
  simp only [Outcome.egressesOf, List.map_eq_nil_iff, List.filter_eq_nil_iff, decide_eq_true_eq]
  rintro out hout rfl
  rcases h.sent out hout hgeo with hsome | ⟨d, hd, hev, hname⟩
  · exact halert hsome
  · exact hexp d hd hev hname

/-- A copy at a vehicle adds a transmission or a pending relay only if its
alert enters the store. -/
theorem vehicleCase_count {now : ℕ} {data : Data F} {ingress : NfdFace} {zor : ZoR F}
    {node : Node F} {nodePos : Point F} {o : Outcome F}
    (hcase : VehicleCase now data ingress zor node nodePos o) {names : Finset (Name F)}
    (hroom : node.ctx.alertStore.Room names) (hmem : data.name ∈ names)
    (horigin : ingress.scope = .isLocal → ¬ node.ctx.alertStore.isDuplicate data.name) :
    (o.egressesOf data.name).length + (o.node.pendingOf data.name).length +
        node.ctx.alertStore.count data.name ≤
      (node.pendingOf data.name).length + o.node.ctx.alertStore.count data.name := by
  have hins : ∀ senderType senderPos, (node.ctx.alertStore.insertOrUpdate
      ⟨data.name, senderType, senderPos⟩).isDuplicate data.name := fun senderType senderPos =>
    ((hroom.insertOrUpdate ⟨data.name, senderType, senderPos⟩ hmem).2 _).mpr (Or.inl rfl)
  cases hcase with
  | noSender _ _ => simp [Outcome.egressesOf]
  | origin sent hpos hscope hsent =>
      have hlen : (Outcome.egressesOf ⟨node.insertAlert ⟨data.name, .vehicle, nodePos⟩, sent,
          zor.contains nodePos⟩ data.name).length ≤ 1 := by
        rcases sendOn_ok hsent with rfl | rfl
        · simp [Outcome.egressesOf]
        · simpa [Outcome.egressesOf] using List.length_filter_le _ [_]
      simp only [insertAlert_alertStore, AlertStore.count_of_isDuplicate (hins _ _),
        AlertStore.count_of_not_isDuplicate (horigin hscope), pendingOf, insertAlert_events]
      omega
  | cancelled senderPos hpos hdup hreg hsup =>
      obtain ⟨id, hid⟩ := Option.isSome_iff_exists.mp (AList.lookup_isSome.mpr hreg)
      have hle : ((node.cancel data.name).pendingOf data.name).length ≤
          (node.pendingOf data.name).length := by
        rw [pendingOf, (cancel_of_lookup hid).2]
        exact (List.filter_sublist.filter _).length_le
      simpa [Outcome.egressesOf] using hle
  | duplicate _ _ _ _ => simp [Outcome.egressesOf]
  | closer _ _ hnew _ _ =>
      simp [Outcome.egressesOf, hins, hnew, pendingOf]
  | noFace _ _ hnew _ _ =>
      simp [Outcome.egressesOf, hins, hnew, pendingOf]
  | deferred _ _ _ _ hnew _ hface =>
      simp [Outcome.egressesOf, hins, hnew, pendingOf, (relayOn_data hface).1]

theorem Effect.pendingOf_le {infra : Infrastructure F} {node : Node F} {ev : NodeEvent F}
    {o : Outcome F} (h : Effect infra node ev o) {name : Name F} (halert : ev.alert ≠ some name) :
    (o.node.pendingOf name).length ≤ (node.pendingOf name).length := by
  cases h with
  | vehicle _ hc =>
      cases hc with
      | @geographic now data ingress zor nodePos _ hz hgeo _ hcase =>
          have hne : data.name ≠ name := by
            rintro rfl
            exact halert (NodeEvent.alert_receive _ _ hz hgeo)
          cases hcase with
          | cancelled _ _ _ hreg _ =>
              obtain ⟨id, hid⟩ := Option.isSome_iff_exists.mp (AList.lookup_isSome.mpr hreg)
              rw [drop_node, pendingOf, (cancel_of_lookup hid).2]
              exact (List.filter_sublist.filter _).length_le
          | deferred _ _ _ _ _ _ hface =>
              simp only [pendingOf, schedule_events, insertAlert_events, List.filter_append]
              simp [(relayOn_data hface).1, hne]
          | _ => exact le_rfl
      | fired _ => exact (List.filter_sublist.filter _).length_le
      | _ => exact le_rfl
  | rsu _ _ _ hc => cases hc <;> exact le_rfl
  | dropped _ _ => exact le_rfl

/-- Apart from its arrival, an alert is transmitted when a pending relay goes. -/
theorem Effect.count_of_ne {infra : Infrastructure F} {node : Node F} {ev : NodeEvent F}
    {o : Outcome F} (h : Effect infra node ev o) {name : Name F} (hgeo : name.IsGeographic)
    (halert : ev.alert ≠ some name) :
    (o.egressesOf name).length + (o.node.pendingOf name).length ≤
      (node.pendingOf name).length := by
  have hle := h.pendingOf_le halert
  by_cases hexp : ∃ d ∈ node.events, ev = .expire d.id
  · obtain ⟨d, hd, rfl⟩ := hexp
    cases h with
    | vehicle _ hc =>
        generalize hid : d.id = id at hc
        cases hc with
        | expired hno => exact absurd hid (hno d hd)
        | @fired e hmem =>
            by_cases hname : e.data.name = name
            · subst hname
              have := pendingOf_fired hmem
              simp [Outcome.egressesOf, deferredOutgoingAlert, onOutgoingAlert, pendingOf] at this ⊢
              omega
            · simpa [Outcome.egressesOf, deferredOutgoingAlert, onOutgoingAlert, hname] using hle
    | dropped _ _ => simp [Outcome.egressesOf]
  · push Not at hexp
    rw [h.egressesOf_eq_nil hgeo halert fun d hd hev => absurd hev (hexp d hd)]
    simpa using hle

/-- Only vehicles defer relays. -/
theorem Effect.events_nil {infra : Infrastructure F} {node : Node F} {ev : NodeEvent F}
    {o : Outcome F} (h : Effect infra node ev o) (hv : node.ctx.type ≠ .vehicle)
    (hnil : node.events = []) : o.node.events = [] := by
  cases h with
  | vehicle hv' hc =>
      refine List.eq_nil_iff_forall_not_mem.mpr fun d hd => ?_
      rcases Effect.events (.vehicle hv' hc) d hd with hd | halert
      · simp [hnil] at hd
      · exact hv (hv' (by simp [halert]))
  | rsu _ _ _ hc => cases hc <;> exact hnil
  | dropped _ _ => exact hnil

/-- What a vehicle transmits was a pending relay or is a new alert. -/
theorem Effect.vehicle_count {infra : Infrastructure F} {node : Node F} {ev : NodeEvent F}
    {o : Outcome F} {name : Name F} (h : Effect infra node ev o) (hgeo : name.IsGeographic)
    (hv : node.ctx.type = .vehicle) {names : Finset (Name F)}
    (hroom : node.ctx.alertStore.Room names) (hev : ∀ name, ev.alert = some name → name ∈ names)
    (horigin : ∀ now data ingress, ev = .receive now data ingress → ingress.scope = .isLocal →
      data.name = name → ¬ node.ctx.alertStore.isDuplicate name) :
    (o.egressesOf name).length + (o.node.pendingOf name).length +
        node.ctx.alertStore.count name ≤
      (node.pendingOf name).length + o.node.ctx.alertStore.count name := by
  obtain ⟨_, hmono, _⟩ := h.room hroom hev
  have hdup := AlertStore.count_le_count (hmono name)
  by_cases halert : ev.alert = some name
  · obtain ⟨now, data, ingress, rfl, rfl⟩ := NodeEvent.alert_eq_some halert
    cases h with
    | vehicle _ hc =>
        cases hc with
        | geographic hz _ _ hcase =>
            exact vehicleCase_count hcase hroom (hev _ halert)
              fun hscope => horigin _ _ _ rfl hscope rfl
        | ignored hno hsent =>
            rcases hno with hno | ⟨_, rfl, _⟩
            · obtain ⟨zor, hz, hgeo⟩ := hgeo
              exact absurd hgeo (hno zor hz)
            · simp [Outcome.egressesOf]
    | rsu hr _ _ _ => simp [hv] at hr
    | dropped hv' _ => exact absurd hv hv'
  · have := h.count_of_ne hgeo halert
    omega

/-- An RSU transmits an alert once on each face at most, and only one that it
has not stored before. -/
theorem Effect.rsu_egresses {infra : Infrastructure F} {node : Node F} {ev : NodeEvent F}
    {o : Outcome F} {name : Name F} (h : Effect infra node ev o) (hgeo : name.IsGeographic)
    (hr : node.ctx.type = .rsu) (hevents : node.events = []) (hapart : node.WiredApart infra)
    {names : Finset (Name F)} (hroom : node.ctx.alertStore.Room names)
    (hev : ∀ name, ev.alert = some name → name ∈ names) :
    o.egressesOf name = [] ∨ ((o.egressesOf name).Nodup ∧
      o.egressesOf name ⊆ node.faceTable.map NfdFace.faceId ∧
        ¬ node.ctx.alertStore.isDuplicate name ∧ o.node.ctx.alertStore.isDuplicate name) := by
  have hv : node.ctx.type ≠ .vehicle := by simp [hr]
  by_cases halert : ev.alert = some name
  · cases h with
    | vehicle hv' _ => exact absurd (hv' (by simp [halert])) hv
    | @rsu fuel now data ingress zor _ _ hz hgeo' hc =>
        obtain rfl : data.name = name :=
          Option.some.inj ((NodeEvent.alert_receive _ _ hz hgeo').symm.trans halert)
        have hsent := rsuCase_egresses hc hapart
        cases hc with
        | duplicate _ => exact Or.inl rfl
        | new dstNodes rest sent wired hnew hdst hbroad hwired =>
            have hsublist : (Outcome.egressesOf ⟨node.insertAlert ⟨data.name, .none, ⟨0, 0⟩⟩,
                sent ++ wired, node.checkInside zor⟩ data.name).Sublist
                  ((sent ++ wired).map Outgoing.egress) := List.filter_sublist.map _
            have hstored := ((hroom.insertOrUpdate ⟨data.name, .none, ⟨0, 0⟩⟩
              (hev _ halert)).2 data.name).mpr (Or.inl rfl)
            exact Or.inr ⟨hsent.1.sublist hsublist, fun e he => hsent.2 (hsublist.subset he),
              hnew, hstored⟩
    | dropped _ hr' => exact absurd hr hr'
  · exact Or.inl (h.egressesOf_eq_nil hgeo halert (by simp [hevents]))

/-- One event keeps the bound on the transmissions of an alert. -/
theorem Transmitted.effect {infra : Infrastructure F} {node : Node F} {ev : NodeEvent F}
    {o : Outcome F} {name : Name F} {egresses : List FaceId}
    (ht : Transmitted node name egresses) (h : Effect infra node ev o) (hgeo : name.IsGeographic)
    (hapart : node.ctx.type = .rsu → node.WiredApart infra) {names : Finset (Name F)}
    (hroom : node.ctx.alertStore.Room names) (hev : ∀ name, ev.alert = some name → name ∈ names)
    (horigin : ∀ now data ingress, ev = .receive now data ingress → ingress.scope = .isLocal →
      data.name = name → ¬ node.ctx.alertStore.isDuplicate name) :
    Transmitted o.node name (egresses ++ o.egressesOf name) := by
  obtain ⟨_, hmono, _⟩ := h.room hroom hev
  have htype : o.node.ctx.type = node.ctx.type := congrArg Config.type h.config_eq
  cases ht with
  | vehicle hv hle =>
      have hcount := h.vehicle_count hgeo hv hroom hev horigin
      refine .vehicle (htype.trans hv) ?_
      rw [List.length_append]
      omega
  | rsu hr hevents hnodup hsub hnew =>
      have htable : o.node.faceTable = node.faceTable := congrArg Config.faceTable h.config_eq
      have hevents' := h.events_nil (by simp [hr]) hevents
      rcases h.rsu_egresses hgeo hr hevents (hapart hr) hroom hev with
        hnil | ⟨hnodup', hsub', hfresh, hstored⟩
      · rw [hnil, List.append_nil]
        exact .rsu (htype.trans hr) hevents' hnodup (htable ▸ hsub)
          fun hnot => hnew fun hdup => hnot (hmono name hdup)
      · rw [hnew hfresh, List.nil_append]
        exact .rsu (htype.trans hr) hevents' hnodup' (htable ▸ hsub')
          fun hnot => absurd hstored hnot
  | other hv hr hevents hnil =>
      have hsent : o.egressesOf name = [] := by
        cases h with
        | vehicle hv' hc =>
            refine (Effect.vehicle hv' hc).egressesOf_eq_nil hgeo (fun halert => ?_)
              (by simp [hevents])
            exact hv (hv' (by simp [halert]))
        | rsu hr' _ _ _ => exact absurd hr' hr
        | dropped _ _ => rfl
      refine .other (htype ▸ hv) (htype ▸ hr) (h.events_nil hv hevents) ?_
      rw [hnil, hsent]
      rfl

end Node

namespace Net

/-- The alert that a local application injects. -/
def Label.injected : Label F → Option (Name F)
  | (_, .occur _ ev) => ev.alert
  | _ => none

def injections (ls : List (Label F)) : List (Name F) := ls.filterMap Label.injected

omit [Arith F] in
theorem Label.injected_occur {l : Label F} {n : NodeId} {ev : NodeEvent F}
    (h : l.2 = .occur n ev) : Label.injected l = ev.alert := by
  rw [show l = (l.1, .occur n ev) from Prod.ext rfl h]
  rfl

omit [Arith F] in
theorem Label.injected_deliver {l : Label F} {c : Copy F} (h : l.2 = .deliver c) :
    Label.injected l = none := by
  rw [show l = (l.1, .deliver c) from Prod.ext rfl h]
  rfl

omit [Arith F] in
theorem Label.injected_eq_none {l : Label F} (h : Label.event l = none) :
    Label.injected l = none := by
  rcases l with ⟨t, _ | _ | _ | _⟩
  · rfl
  · rfl
  · rfl
  · cases h

omit [Arith F] in
theorem injections_append (ls ms : List (Label F)) :
    injections (ls ++ ms) = injections ls ++ injections ms := List.filterMap_append

omit [Arith F] in
theorem mem_injections_snoc {ls : List (Label F)} {l : Label F} {name : Name F} :
    name ∈ injections (ls ++ [l]) ↔ name ∈ injections ls ∨ Label.injected l = some name := by
  rw [injections_append, List.mem_append]
  simp [injections]

/-- The faces on which a node has transmitted the alert. -/
def egressesOf (net : Net F) (n : NodeId) (name : Name F) : List FaceId :=
  (net.log.filter fun tx => tx.sender = n ∧ tx.data.name = name).map Transmission.egress

theorem egressesOf_react_self {medium : Medium F} {net : Net F} {t : ℕ} {n : NodeId}
    {deferred : Bool} {o : Outcome F} {rest : List (Copy F)} (name : Name F) :
    (net.react medium t n deferred o rest).egressesOf n name =
      net.egressesOf n name ++ o.egressesOf name := by
  simp [egressesOf, Outcome.egressesOf, List.filter_map, Function.comp_def]

theorem egressesOf_react_of_ne {medium : Medium F} {net : Net F} {t : ℕ} {n m : NodeId}
    {deferred : Bool} {o : Outcome F} {rest : List (Copy F)} (h : m ≠ n) (name : Name F) :
    (net.react medium t n deferred o rest).egressesOf m name = net.egressesOf m name := by
  simp [egressesOf, List.filter_map, Function.comp_def, h.symm]

/-- A network of fresh nodes and a run of it in which every node sees no more
alerts than its store holds and every alert is injected once. -/
structure Operates (infra : Infrastructure F) (medium : Medium F)
    (names : NodeId → Finset (Name F)) (net₀ : Net F) (ls : List (Label F)) (net : Net F) :
    Prop where
  fresh : ∀ n node, net₀.nodes n = some node → node.Fresh
  inFlight : net₀.inFlight = []
  log : net₀.log = []
  apart : ∀ n node, net₀.nodes n = some node → node.ctx.type = .rsu → node.WiredApart infra
  fits : ∀ n node, net₀.nodes n = some node → (names n).card ≤ node.ctx.alertStore.maxSize
  seen : ∀ l ∈ ls, ∀ n ev name, Label.event l = some (n, ev) → ev.alert = some name →
    name ∈ names n
  once : (injections ls).Nodup
  run : Run (Step infra medium) net₀ ls net

/-- The nodes of a network in such a run. -/
structure Counted (infra : Infrastructure F) (names : NodeId → Finset (Name F)) (net₀ : Net F)
    (ls : List (Label F)) (net : Net F) : Prop where
  config : ∀ n, (net.nodes n).map Node.config = (net₀.nodes n).map Node.config
  room : ∀ n node, net.nodes n = some node → node.ctx.alertStore.Room (names n)
  inFlight : ∀ c ∈ net.inFlight, c.data.name.IsGeographic → c.data.name ∈ injections ls
  stored : ∀ n node, net.nodes n = some node → ∀ name, node.ctx.alertStore.isDuplicate name →
    name ∈ injections ls
  pending : ∀ n node, net.nodes n = some node → ∀ d ∈ node.events, d.data.name ∈ injections ls
  senders : ∀ tx ∈ net.log, (net.nodes tx.sender).isSome
  transmitted : ∀ n node, net.nodes n = some node → ∀ name : Name F, name.IsGeographic →
    node.Transmitted name (net.egressesOf n name)

theorem Counted.initial {infra : Infrastructure F} {names : NodeId → Finset (Name F)}
    {net₀ net : Net F} {ls : List (Label F)} (h : Counted infra names net₀ ls net) {n : NodeId}
    {node : Node F} (hnode : net.nodes n = some node) :
    ∃ node₀, net₀.nodes n = some node₀ ∧ node.config = node₀.config := by
  have hc := h.config n
  rw [hnode] at hc
  obtain ⟨node₀, hnode₀, heq⟩ := Option.map_eq_some_iff.mp hc.symm
  exact ⟨node₀, hnode₀, heq.symm⟩

theorem Counted.apart {infra : Infrastructure F} {names : NodeId → Finset (Name F)}
    {net₀ net : Net F} {ls : List (Label F)} (h : Counted infra names net₀ ls net)
    (hapart : ∀ n node, net₀.nodes n = some node → node.ctx.type = .rsu → node.WiredApart infra)
    {n : NodeId} {node : Node F} (hnode : net.nodes n = some node)
    (hr : node.ctx.type = .rsu) : node.WiredApart infra := by
  obtain ⟨node₀, hnode₀, heq⟩ := h.initial hnode
  have htype : node.ctx.type = node₀.ctx.type := congrArg Node.Config.type heq
  exact (hapart n node₀ hnode₀ (htype.symm.trans hr)).congr heq

theorem Operates.counted_nil {infra : Infrastructure F} {medium : Medium F}
    {names : NodeId → Finset (Name F)} {net₀ net : Net F} {ls : List (Label F)}
    (h : Operates infra medium names net₀ ls net) : Counted infra names net₀ [] net₀ where
  config := fun _ => rfl
  room := fun n node hnode =>
    ⟨fun name hd => absurd hd ((h.fresh n node hnode).not_isDuplicate name), h.fits n node hnode⟩
  inFlight := by simp [h.inFlight]
  stored := fun n node hnode name hd => absurd hd ((h.fresh n node hnode).not_isDuplicate name)
  pending := fun n node hnode d hd => by simp [(h.fresh n node hnode).events] at hd
  senders := by simp [h.log]
  transmitted := by
    intro n node hnode name hgeo
    have hnil : net₀.egressesOf n name = [] := by simp [egressesOf, h.log]
    have hev := (h.fresh n node hnode).events
    rw [hnil]
    by_cases hv : node.ctx.type = .vehicle
    · exact .vehicle hv (by simp [Node.pendingOf, hev])
    · by_cases hr : node.ctx.type = .rsu
      · exact .rsu hr hev (by simp) (by simp) fun _ => rfl
      · exact .other hv hr hev rfl

/-- Only an injection comes in on a local face, and it is the first one. -/
theorem Counted.first_injection {infra : Infrastructure F} {names : NodeId → Finset (Name F)}
    {net₀ net : Net F} {ls : List (Label F)} {l : Label F}
    (h : Counted infra names net₀ ls net) {n : NodeId} {node : Node F}
    (hnode : net.nodes n = some node) {now : ℕ} {data : Data F} {ingress : NfdFace}
    (hsource : net.Source l n (.receive now data ingress))
    (honce : (injections (ls ++ [l])).Nodup) (hgeo : data.name.IsGeographic)
    (hlocal : ingress.scope = .isLocal) : ¬ node.ctx.alertStore.isDuplicate data.name := by
  intro hdup
  rcases hsource with ⟨hl, _⟩ | ⟨c, _, _, _, heq⟩
  · have hinj : Label.injected l = some data.name := by
      obtain ⟨zor, hz, hzgeo⟩ := hgeo
      rw [Label.injected_occur hl]
      exact NodeEvent.alert_receive now ingress hz hzgeo
    have hmem := h.stored n node hnode _ hdup
    rw [injections_append, List.nodup_append] at honce
    exact honce.2.2 _ hmem _ (by simp [injections, hinj]) rfl
  · obtain ⟨_, _, rfl⟩ := NodeEvent.receive.inj heq
    cases hlocal

/-- What arrives at a node has been injected, now or before. -/
theorem Counted.alert_injected {infra : Infrastructure F} {names : NodeId → Finset (Name F)}
    {net₀ net : Net F} {ls : List (Label F)} {l : Label F} (h : Counted infra names net₀ ls net)
    {n : NodeId} {ev : NodeEvent F} (hsource : net.Source l n ev) {name : Name F}
    (hname : ev.alert = some name) : name ∈ injections (ls ++ [l]) := by
  rcases hsource with ⟨hl, _⟩ | ⟨c, hc, _, _, rfl⟩
  · exact mem_injections_snoc.mpr (Or.inr ((Label.injected_occur hl).trans hname))
  · obtain ⟨_, _, _, heq, rfl⟩ := NodeEvent.alert_eq_some hname
    obtain ⟨_, rfl, _⟩ := NodeEvent.receive.inj heq
    exact mem_injections_snoc.mpr (Or.inl (h.inFlight c hc (NodeEvent.alert_geographic hname)))

/-- The medium alone changes no node and transmits nothing. -/
theorem Counted.medium {infra : Infrastructure F} {names : NodeId → Finset (Name F)}
    {net₀ net net' : Net F} {ls : List (Label F)} {l : Label F}
    (h : Counted infra names net₀ ls net) (hnodes : net'.nodes = net.nodes)
    (hlog : net'.log = net.log) (hsub : ∀ c ∈ net'.inFlight, c ∈ net.inFlight) :
    Counted infra names net₀ (ls ++ [l]) net' where
  config := by
    rw [hnodes]
    exact h.config
  room := by
    rw [hnodes]
    exact h.room
  inFlight := fun c hc hgeo => mem_injections_snoc.mpr (Or.inl (h.inFlight c (hsub c hc) hgeo))
  stored := by
    rw [hnodes]
    intro n node hnode name hd
    exact mem_injections_snoc.mpr (Or.inl (h.stored n node hnode name hd))
  pending := by
    rw [hnodes]
    intro n node hnode d hd
    exact mem_injections_snoc.mpr (Or.inl (h.pending n node hnode d hd))
  senders := by
    rw [hnodes, hlog]
    exact h.senders
  transmitted := by
    rw [hnodes]
    unfold egressesOf
    rw [hlog]
    exact h.transmitted

theorem Counted.step {infra : Infrastructure F} {medium : Medium F}
    {names : NodeId → Finset (Name F)} {net₀ net net' : Net F} {ls : List (Label F)} {l : Label F}
    (h : Counted infra names net₀ ls net) (hstep : Step infra medium net l net')
    (hapart : ∀ n node, net₀.nodes n = some node → node.ctx.type = .rsu → node.WiredApart infra)
    (hseen : ∀ n ev name, Label.event l = some (n, ev) → ev.alert = some name → name ∈ names n)
    (honce : (injections (ls ++ [l])).Nodup) : Counted infra names net₀ (ls ++ [l]) net' := by
  have hmono : ∀ name ∈ injections ls, name ∈ injections (ls ++ [l]) := by
    intro name hname
    exact mem_injections_snoc.mpr (Or.inl hname)
  cases hstep.change with
  | medium _ hnodes hlog hsub _ => exact h.medium hnodes hlog hsub
  | node n ev node o rest hev hnode hhandles hsource hsub _ hnet =>
      have heff := hhandles.effect
      have hroom := heff.room (h.room n node hnode) fun name => hseen n ev name hev
      have halert : ∀ name, ev.alert = some name → name ∈ injections (ls ++ [l]) :=
        fun _ => h.alert_injected hsource
      have hsent : ∀ out ∈ o.sent, out.data.name.IsGeographic →
          out.data.name ∈ injections (ls ++ [l]) := by
        intro out hout hgeo
        rcases heff.sent out hout hgeo with hsome | ⟨d, hd, _, hname⟩
        · exact halert _ hsome
        · exact hname ▸ hmono _ (h.pending n node hnode d hd)
      subst hnet
      refine ⟨?_, ?_, ?_, ?_, ?_, ?_, ?_⟩
      · intro m
        by_cases hm : m = n
        · subst hm
          rw [react_nodes_self, ← h.config, hnode]
          exact congrArg some heff.config_eq
        · rw [react_nodes_of_ne hm]
          exact h.config m
      · intro m node' hnode'
        rcases react_nodes_cases hnode' with ⟨rfl, rfl⟩ | ⟨_, hnode'⟩
        · exact hroom.1
        · exact h.room m node' hnode'
      · intro c hc hgeo
        rcases mem_react_inFlight.mp hc with hc | ⟨i, out, hout, _, hdata, _⟩
        · exact hmono _ (h.inFlight c (hsub c hc) hgeo)
        · rw [hdata] at hgeo ⊢
          exact hsent out (List.mem_of_getElem? hout) hgeo
      · intro m node' hnode' name hd
        rcases react_nodes_cases hnode' with ⟨rfl, rfl⟩ | ⟨_, hnode'⟩
        · rcases hroom.2.2 name hd with hd | hname
          · exact hmono _ (h.stored m node hnode name hd)
          · exact halert name hname
        · exact hmono _ (h.stored m node' hnode' name hd)
      · intro m node' hnode' d hd
        rcases react_nodes_cases hnode' with ⟨rfl, rfl⟩ | ⟨_, hnode'⟩
        · rcases heff.events d hd with hd | hname
          · exact hmono _ (h.pending m node hnode d hd)
          · exact halert _ hname
        · exact hmono _ (h.pending m node' hnode' d hd)
      · intro tx htx
        by_cases hm : tx.sender = n
        · rw [hm, react_nodes_self]
          rfl
        · rw [react_nodes_of_ne hm]
          rcases List.mem_append.mp htx with htx | htx
          · exact h.senders tx htx
          · obtain ⟨out, _, rfl⟩ := List.mem_map.mp htx
            exact absurd rfl hm
      · intro m node' hnode' name hgeo
        rcases react_nodes_cases hnode' with ⟨rfl, rfl⟩ | ⟨hm, hnode'⟩
        · rw [egressesOf_react_self]
          refine (h.transmitted m node hnode name hgeo).effect heff hgeo (h.apart hapart hnode)
            (h.room m node hnode) (fun name => hseen m ev name hev) ?_
          rintro now data ingress rfl hlocal rfl
          exact h.first_injection hnode hsource honce hgeo hlocal
        · rw [egressesOf_react_of_ne hm]
          exact h.transmitted m node' hnode' name hgeo

theorem Operates.of_prefix {infra : Infrastructure F} {medium : Medium F}
    {names : NodeId → Finset (Name F)} {net₀ net mid : Net F} {ls pre post : List (Label F)}
    (h : Operates infra medium names net₀ ls net) (heq : ls = pre ++ post)
    (hrun : Run (Step infra medium) net₀ pre mid) : Operates infra medium names net₀ pre mid where
  fresh := h.fresh
  inFlight := h.inFlight
  log := h.log
  apart := h.apart
  fits := h.fits
  seen := fun l hl => h.seen l (by simp [heq, hl])
  once := by
    have honce := h.once
    rw [heq, injections_append] at honce
    exact (List.nodup_append.mp honce).1
  run := hrun

theorem Operates.counted {infra : Infrastructure F} {medium : Medium F}
    {names : NodeId → Finset (Name F)} {net₀ net : Net F} {ls : List (Label F)}
    (h : Operates infra medium names net₀ ls net) : Counted infra names net₀ ls net := by
  apply h.run.invariant (Counted infra names net₀) h.counted_nil
  intro ms t l v rest heq hrun ht hstep
  have hpre := h.of_prefix (heq.trans (List.append_cons ms l rest)) (hrun.snoc hstep)
  exact ht.step hstep h.apart (hpre.seen l (by simp)) hpre.once

theorem length_eq_sum_filter {α ι : Type} [DecidableEq ι] (f : α → ι) (ids : Finset ι) :
    ∀ l : List α, (∀ x ∈ l, f x ∈ ids) →
      l.length = ∑ i ∈ ids, (l.filter fun x => f x = i).length
  | [], _ => by simp
  | x :: l, h => by
      have ih := length_eq_sum_filter f ids l fun y hy => h y (List.mem_cons_of_mem x hy)
      have hx : ∑ i ∈ ids, (if f x = i then 1 else 0) = 1 := by
        rw [Finset.sum_ite_eq, if_pos (h x List.mem_cons_self)]
      rw [List.length_cons, ih, ← hx, ← Finset.sum_add_distrib]
      refine Finset.sum_congr rfl fun i _ => ?_
      by_cases hi : f x = i <;> simp [hi]

/-- The number of faces of a node. -/
def faceCount (net : Net F) (n : NodeId) : ℕ :=
  ((net.nodes n).map fun node => node.faceTable.length).getD 0

def typeOf (net : Net F) (n : NodeId) : Option NodeType :=
  (net.nodes n).map fun node => node.ctx.type

theorem Counted.final {infra : Infrastructure F} {names : NodeId → Finset (Name F)}
    {net₀ net : Net F} {ls : List (Label F)} (h : Counted infra names net₀ ls net) {n : NodeId}
    {node₀ : Node F} (hnode₀ : net₀.nodes n = some node₀) :
    ∃ node, net.nodes n = some node ∧ node.config = node₀.config := by
  have hc := h.config n
  rw [hnode₀] at hc
  exact Option.map_eq_some_iff.mp hc

section Counted

variable {infra : Infrastructure F} {names : NodeId → Finset (Name F)} {net₀ net : Net F}
  {ls : List (Label F)} {name : Name F} {n : NodeId}

theorem Counted.vehicle (h : Counted infra names net₀ ls net) (hgeo : name.IsGeographic)
    (hv : net₀.typeOf n = some .vehicle) : (net.egressesOf n name).length ≤ 1 := by
  obtain ⟨node₀, hnode₀, htype⟩ := Option.map_eq_some_iff.mp hv
  obtain ⟨node, hnode, heq⟩ := h.final hnode₀
  have htype' : node.ctx.type = .vehicle := (congrArg Node.Config.type heq).trans htype
  cases h.transmitted n node hnode name hgeo with
  | vehicle _ hle =>
      have : node.ctx.alertStore.count name ≤ 1 := by
        unfold AlertStore.count
        split <;> decide
      omega
  | rsu hr _ _ _ _ => simp [htype'] at hr
  | other hv' _ _ _ => exact absurd htype' hv'

theorem Counted.rsu (h : Counted infra names net₀ ls net) (hgeo : name.IsGeographic)
    {node₀ : Node F} (hnode₀ : net₀.nodes n = some node₀) (hr : node₀.ctx.type = .rsu) :
    (net.egressesOf n name).Nodup ∧
      net.egressesOf n name ⊆ node₀.faceTable.map NfdFace.faceId := by
  obtain ⟨node, hnode, heq⟩ := h.final hnode₀
  have htype : node.ctx.type = .rsu := (congrArg Node.Config.type heq).trans hr
  have htable : node.faceTable = node₀.faceTable := congrArg Node.Config.faceTable heq
  cases h.transmitted n node hnode name hgeo with
  | vehicle hv _ => simp [htype] at hv
  | rsu _ _ hnodup hsub _ => exact ⟨hnodup, htable ▸ hsub⟩
  | other _ hr' _ _ => exact absurd htype hr'

theorem Counted.length_le (h : Counted infra names net₀ ls net) (hgeo : name.IsGeographic)
    (n : NodeId) : (net.egressesOf n name).length ≤
      (if net₀.typeOf n = some .vehicle then 1 else 0) +
        if net₀.typeOf n = some .rsu then net₀.faceCount n else 0 := by
  by_cases hv : net₀.typeOf n = some .vehicle
  · rw [if_pos hv]
    exact (h.vehicle hgeo hv).trans (Nat.le_add_right _ _)
  · by_cases hr : net₀.typeOf n = some .rsu
    · rw [if_pos hr]
      obtain ⟨node₀, hnode₀, htype⟩ := Option.map_eq_some_iff.mp hr
      obtain ⟨hnodup, hsub⟩ := h.rsu hgeo hnode₀ htype
      have hle := (List.subperm_of_subset hnodup hsub).length_le
      simp only [faceCount, hnode₀, Option.map_some, Option.getD_some]
      rw [List.length_map] at hle
      omega
    · have hnil : net.egressesOf n name = [] := by
        by_contra hne
        obtain ⟨e, he⟩ := List.exists_mem_of_ne_nil _ hne
        obtain ⟨tx, htx, _⟩ := List.mem_map.mp he
        obtain ⟨hmem, hsender⟩ := List.mem_filter.mp htx
        obtain rfl : tx.sender = n := (by simpa using hsender : _ ∧ _).1
        obtain ⟨node, hnode⟩ := Option.isSome_iff_exists.mp (h.senders tx hmem)
        obtain ⟨node₀, hnode₀, heq⟩ := h.initial hnode
        have htype : net₀.typeOf tx.sender = some node.ctx.type := by
          rw [typeOf, hnode₀]
          exact congrArg some (congrArg Node.Config.type heq).symm
        cases h.transmitted _ node hnode name hgeo with
        | vehicle hv' _ => exact hv (htype.trans (congrArg some hv'))
        | rsu hr' _ _ _ _ => exact hr (htype.trans (congrArg some hr'))
        | other _ _ _ hnil => simp [hnil] at he
      simp [hnil]

end Counted

end Net

/-- A vehicle transmits an alert at most once, an RSU at most once on each of
its faces, and all of them together no more often than there are vehicles and
faces of RSUs. -/
theorem transmits_at_most_once {infra : Infrastructure F} {medium : Medium F}
    {names : NodeId → Finset (Name F)} {net₀ net : Net F} {ls : List (Net.Label F)}
    (h : Net.Operates infra medium names net₀ ls net) {name : Name F} (hgeo : name.IsGeographic) :
    (∀ n, net₀.typeOf n = some .vehicle → (net.egressesOf n name).length ≤ 1) ∧
      (∀ n node, net₀.nodes n = some node → node.ctx.type = .rsu →
        (net.egressesOf n name).Nodup ∧
          net.egressesOf n name ⊆ node.faceTable.map NfdFace.faceId) ∧
      ∀ ids : Finset NodeId, (∀ n, (net₀.nodes n).isSome → n ∈ ids) →
        (net.log.filter fun tx => tx.data.name = name).length ≤
          (ids.filter fun n => net₀.typeOf n = some .vehicle).card +
            ∑ n ∈ ids.filter fun n => net₀.typeOf n = some .rsu, net₀.faceCount n := by
  have hc := h.counted
  refine ⟨fun n => hc.vehicle hgeo, fun n node => hc.rsu hgeo, fun ids hids => ?_⟩
  have hsenders : ∀ tx ∈ net.log.filter (fun tx => tx.data.name = name), tx.sender ∈ ids := by
    intro tx htx
    obtain ⟨node, hnode⟩ := Option.isSome_iff_exists.mp (hc.senders tx (List.mem_filter.mp htx).1)
    obtain ⟨node₀, hnode₀, _⟩ := hc.initial hnode
    exact hids _ (by simp [hnode₀])
  rw [Net.length_eq_sum_filter Transmission.sender ids _ hsenders, Finset.card_filter,
    Finset.sum_filter, ← Finset.sum_add_distrib]
  refine Finset.sum_le_sum fun n _ => ?_
  rw [List.filter_filter]
  simpa [Net.egressesOf, Bool.and_comm] using hc.length_le hgeo n

theorem Pair.operates {p q : Point ℝ} {ls : List (Net.Label ℝ)} {net : Net ℝ}
    (hrun : Run (Net.Step ⟨∅, ∅⟩ medium) (Pair.net p q) ls net)
    (honce : Net.injections ls = [alert.name])
    (hname : ∀ l ∈ ls, ∀ c, l.2 = .deliver c → c.data.name = alert.name) :
    Net.Operates ⟨∅, ∅⟩ medium (fun _ => {alert.name}) (Pair.net p q) ls net := by
  refine ⟨fun n node hn => (net_fresh hn).1, rfl, rfl, ?_, ?_, ?_, by simp [honce], hrun⟩
  · intro n node hn hr
    simp [(net_fresh hn).2.1] at hr
  · intro n node hn
    simp [(net_fresh hn).2.2.1]
  · rintro ⟨t, a⟩ hl n ev name hev halert
    apply Finset.mem_singleton.mpr
    cases a with
    | deliver c =>
        obtain ⟨rfl, rfl⟩ := Prod.mk.inj (Option.some.inj hev)
        obtain ⟨_, _, _, heq, rfl⟩ := NodeEvent.alert_eq_some halert
        obtain ⟨_, rfl, _⟩ := NodeEvent.receive.inj heq
        exact hname _ hl c rfl
    | occur m ev' =>
        obtain ⟨rfl, rfl⟩ := Prod.mk.inj (Option.some.inj hev)
        have hmem : name ∈ Net.injections ls := List.mem_filterMap.mpr ⟨_, hl, halert⟩
        simpa [honce] using hmem
    | lose _ => cases hev
    | duplicate _ => cases hev

theorem transmits_at_most_once_two : ∃ names net₀ ls net',
    Net.Operates ⟨∅, ∅⟩ Pair.medium names net₀ ls net' ∧ net'.log.length = 2 ∧
    (∀ n, net₀.typeOf n = some .vehicle → (net'.egressesOf n Pair.alert.name).length ≤ 1) := by
  rcases Pair.runs (p := ⟨0, 0⟩) (q := ⟨1, 0⟩) fun h => h.1 Pair.zone_contains with
    ⟨c, net', hrun, hname, hlog, _⟩
  have h := Pair.operates hrun rfl (by simp [Pair.labels, hname])
  exact ⟨_, _, _, net', h, by simp [hlog], (transmits_at_most_once h ⟨Pair.zone, rfl, trivial⟩).1⟩

end Cafe
