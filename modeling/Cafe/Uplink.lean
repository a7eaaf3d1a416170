import Cafe.Flood
import Cafe.Geocast
import Cafe.HandOff

/-!
# Relays to an RSU amid the flood

One registration serves both faces of a vehicle, so a copy of the flood may
cancel a relay that was meant for an RSU. As long as nobody has transmitted
the alert towards an RSU or from one, all copies at vehicles come from
vehicles without an RSU.
-/

open Labelled

namespace Cafe

variable {F : Type} [Arith F]

namespace Node

section Effect

variable {infra : Infrastructure F} {node : Node F} {ev : NodeEvent F} {o : Outcome F}

theorem Effect.sound (h : Effect infra node ev o) {names : Finset (Name F)}
    (hs : node.Sound names) (hev : ∀ name, ev.alert = some name → name ∈ names) :
    o.node.Sound names := by
  cases h with
  | vehicle _ hc => exact hc.sound hs hev
  | dropped _ _ => exact hs
  | @rsu fuel now data ingress zor o hr hz hgeo hc =>
      have hroom := (Effect.rsu hr hz hgeo hc).room hs.room hev
      cases hc with
      | duplicate _ => exact hs
      | new _ _ _ _ _ _ _ _ =>
          exact ⟨hs.coherent.congr rfl rfl rfl, hroom.1, fun name hreg =>
            hroom.2.1 name (hs.stored name hreg)⟩

/-- No event but a hello changes the availability of an RSU. -/
theorem Effect.isRsuAvailable_of_noHello (h : Effect infra node ev o)
    (hno : ∀ available, ev ≠ .hello available) :
    o.node.ctx.isRsuAvailable = node.ctx.isRsuAvailable := by
  cases h with
  | vehicle _ hc => exact hc.isRsuAvailable_eq hno
  | rsu _ _ _ hc => cases hc <;> rfl
  | dropped _ _ => rfl

end Effect

/-- The vehicle transmits on its V2V face while it has no RSU. -/
def FloodsOn (node : Node F) (egress : FaceId) : Prop :=
  node.ctx.type = .vehicle ∧ node.ctx.isRsuAvailable = false ∧
    egress = node.ctx.getFaceIdFor .v2v

/-- What stays as it is: the configuration, the place and the availability. -/
structure Same (node₀ node : Node F) : Prop where
  config : node.config = node₀.config
  mobility : node.mobility = node₀.mobility
  isRsuAvailable : node.ctx.isRsuAvailable = node₀.ctx.isRsuAvailable

theorem Same.type {node₀ node : Node F} (h : Same node₀ node) :
    node.ctx.type = node₀.ctx.type := congrArg Config.type h.config

theorem Same.faceContextMap {node₀ node : Node F} (h : Same node₀ node) :
    node.ctx.faceContextMap = node₀.ctx.faceContextMap := congrArg Config.faceContextMap h.config

theorem Same.effect {node₀ node : Node F} (h : Same node₀ node) {infra : Infrastructure F}
    {ev : NodeEvent F} {o : Outcome F} (heff : Effect infra node ev o)
    (hstatic : ∀ pos, ev ≠ .move pos) (hno : ∀ available, ev ≠ .hello available) :
    Same node₀ o.node where
  config := heff.config_eq.trans h.config
  mobility := (heff.mobility_of_static hstatic).trans h.mobility
  isRsuAvailable := (heff.isRsuAvailable_of_noHello hno).trans h.isRsuAvailable

theorem Same.floodsOn {node₀ node : Node F} (h : Same node₀ node) (egress : FaceId) :
    node.FloodsOn egress ↔ node₀.FloodsOn egress := by
  unfold FloodsOn Context.getFaceIdFor
  rw [h.type, h.faceContextMap, h.isRsuAvailable]

/-- A relay away from the V2I face, for a copy that came neither from an RSU
nor by V2I. -/
theorem relayOn_not_v2i {node : Node F} {data data' : Data F} {ingress face : NfdFace}
    {senderType : NodeType} (h : relayOn node data ingress senderType = (some face, data'))
    (hcontext : node.ctx.getContextFor ingress.faceId ≠ .v2i) (hsender : senderType ≠ .rsu)
    (hv2i : ¬ node.IsV2i face.faceId) : node.ctx.isRsuAvailable = false := by
  cases hno : node.ctx.isRsuAvailable with
  | false => rfl
  | true =>
      refine absurd ?_ hv2i
      unfold relayOn at h
      rw [if_pos ⟨hcontext, hsender, hno⟩] at h
      simp only at h
      split at h
      · rename_i hne
        have hid : face.faceId = node.ctx.getFaceIdFor .v2i := by
          simpa using List.find?_some (Prod.mk.inj h).1
        exact ⟨hid ▸ hne, hid⟩
      · cases h

/-- The producer of an alert sends it by V2V only when it has no RSU. -/
theorem sendOn_v2v {node : Node F} (hnodup : (node.ctx.faceContextMap.map Prod.fst).Nodup)
    {data : Data F} {sent : List (Outgoing F)} {out : Outgoing F}
    (hsent : node.sendOn (if node.ctx.isRsuAvailable then .v2i else .v2v) data = .ok sent)
    (hout : out ∈ sent) (hegress : out.egress = node.ctx.getFaceIdFor .v2v) :
    node.ctx.isRsuAvailable = false := by
  cases hno : node.ctx.isRsuAvailable with
  | false => rfl
  | true =>
      simp only [hno, if_true] at hsent
      have hne : node.ctx.getFaceIdFor .v2i ≠ 0 := by
        intro hzero
        simp only [sendOn, hzero, ne_eq, not_true_eq_false, if_false] at hsent
        rw [← Fallible.pure_eq_ok.mp hsent] at hout
        cases hout
      rcases sendOn_ok hsent with rfl | rfl
      · cases hout
      · obtain rfl := List.mem_singleton.mp hout
        have hsame := Context.getFaceIdFor_inj hnodup hegress hne
        cases hsame

/-- How a pending relay comes to its end. -/
theorem Case.ends {infra : Infrastructure F} {node : Node F} {ev : NodeEvent F} {o : Outcome F}
    (hc : Case infra node ev o) (h : node.Coherent) {d : Deferred F} (hd : d ∈ node.events)
    (hgone : d ∉ o.node.events) :
    (∃ out ∈ o.sent, out.egress = d.egress ∧ out.data.name = d.data.name) ∨
      ∃ now data ingress zor nodePos senderPos, ev = .receive now data ingress ∧
        data.name = d.data.name ∧ extractZoR data.name = some zor ∧
        node.mobility = some nodePos ∧ data.senderPos = some senderPos ∧
        Suppresses zor node.ctx.alertStore data.name nodePos senderPos := by
  cases hc with
  | geographic hz hgeo hm hcase =>
      cases hcase with
      | cancelled senderPos hpos _ hreg hsup =>
          obtain ⟨id, hid⟩ := Option.isSome_iff_exists.mp (AList.lookup_isSome.mpr hreg)
          obtain ⟨e, he, hename, rfl⟩ := (h.lookup _ _).mp hid
          rw [drop_node, (cancel_of_lookup hid).2, List.mem_filter, not_and] at hgone
          have hde : d = e :=
            List.inj_on_of_nodup_map h.ids hd he (by simpa using hgone hd)
          exact Or.inr ⟨_, _, _, _, _, senderPos, rfl, hde ▸ hename.symm, hz, hm, hpos, hsup⟩
      | deferred _ _ _ _ _ _ _ =>
          rw [schedule_events, List.mem_append] at hgone
          exact absurd (Or.inl hd) hgone
      | _ => exact absurd hd hgone
  | @fired e he =>
      refine Or.inl ⟨_, List.mem_singleton.mpr rfl, ?_⟩
      have hde : d = e := by
        refine List.inj_on_of_nodup_map h.ids hd he ?_
        by_contra hne
        exact hgone (List.mem_filter.mpr ⟨hd, by simpa using hne⟩)
      rw [hde]
      exact ⟨rfl, rfl⟩
  | _ => exact absurd hd hgone

/-- How a relay comes to be pending. -/
theorem Case.pending_new {infra : Infrastructure F} {node : Node F} {ev : NodeEvent F}
    {o : Outcome F} (hc : Case infra node ev o) {d : Deferred F} (hd : d ∈ o.node.events) :
    d ∈ node.events ∨ ∃ now data ingress face data', ev = .receive now data ingress ∧
      data.senderPos ≠ none ∧ d.data.name = data.name ∧ d.egress = face.faceId ∧
      relayOn node data ingress (data.senderType.getD .none) = (some face, data') := by
  cases hc with
  | geographic _ _ _ hcase =>
      cases hcase with
      | cancelled _ _ _ hreg _ =>
          obtain ⟨id, hid⟩ := Option.isSome_iff_exists.mp (AList.lookup_isSome.mpr hreg)
          rw [drop_node, (cancel_of_lookup hid).2] at hd
          exact Or.inl (List.mem_filter.mp hd).1
      | deferred _ face data' hpos _ _ hface =>
          rw [schedule_events, List.mem_append, List.mem_singleton] at hd
          rcases hd with hd | rfl
          · exact Or.inl hd
          · exact Or.inr ⟨_, _, _, face, data', rfl, by simp [hpos], (relayOn_data hface).1, rfl,
              hface⟩
      | _ => exact Or.inl hd
  | fired _ => exact Or.inl (List.mem_filter.mp hd).1
  | _ => exact Or.inl hd

/-- A vehicle sends an alert by V2V only when it has no RSU, as long as this
holds of its pending relays. -/
theorem Case.sent_v2v {infra : Infrastructure F} {node : Node F} {ev : NodeEvent F}
    {o : Outcome F} (hc : Case infra node ev o)
    (hnodup : (node.ctx.faceContextMap.map Prod.fst).Nodup) {out : Outgoing F} (hout : out ∈ o.sent)
    (hgeo : out.data.name.IsGeographic) (hegress : out.egress = node.ctx.getFaceIdFor .v2v)
    (hpend : ∀ d, node.Pending out.data.name d → ¬ node.IsV2i d.egress →
      node.ctx.isRsuAvailable = false) : node.ctx.isRsuAvailable = false := by
  cases hc with
  | geographic _ _ _ hcase =>
      cases hcase with
      | origin sent _ _ hsent => exact sendOn_v2v hnodup hsent hout hegress
      | _ => cases hout
  | ignored hno hsent =>
      obtain ⟨zor, hz, hzgeo⟩ := hgeo
      rcases hno with hno | ⟨_, rfl, _⟩
      · obtain ⟨egress, rfl⟩ := hsent out hout
        exact absurd hzgeo (hno zor hz)
      · cases hout
  | @fired d hmem =>
      obtain rfl := List.mem_singleton.mp hout
      refine hpend d ⟨hmem, rfl⟩ ?_
      rintro ⟨hne, hid⟩
      have hsame := Context.getFaceIdFor_inj hnodup (hegress.symm.trans hid) (hegress ▸ hne)
      cases hsame
  | _ => cases hout

end Node

namespace Net

/-- The filters of the two multicast groups: a vehicle hears vehicles by V2V,
and RSUs by V2I. -/
def Filtered (medium : Medium F) (net₀ : Net F) : Prop :=
  ∀ nodes n egress m ingress sender receiver,
    (∀ k node, nodes k = some node → ∃ node₀, net₀.nodes k = some node₀ ∧
      node.config = node₀.config) →
    (m, ingress) ∈ medium nodes n egress → nodes n = some sender → nodes m = some receiver →
      receiver.ctx.type = .vehicle →
        (sender.ctx.type = .vehicle ∧ egress = sender.ctx.getFaceIdFor .v2v ∧
          receiver.ctx.getContextFor ingress ≠ .v2i) ∨
        (sender.ctx.type = .rsu ∧ sender.IsV2i egress)

/-- A run of a network of fresh nodes that stand still, with the availability
of RSUs fixed, no loss and no eviction. -/
structure Steady (infra : Infrastructure F) (medium : Medium F) (names : NodeId → Finset (Name F))
    (net₀ : Net F) (ls : List (Label F)) (net : Net F) : Prop where
  still : StandsStill infra medium net₀ ls net
  noHello : ∀ l ∈ ls, ∀ n ev, Label.event l = some (n, ev) → ∀ b, ev ≠ .hello b
  noLoss : ∀ l ∈ ls, ∀ c, l.2 ≠ .lose c
  fits : ∀ n node, net₀.nodes n = some node → (names n).card ≤ node.ctx.alertStore.maxSize
  seen : ∀ l ∈ ls, ∀ n ev name, Label.event l = some (n, ev) → ev.alert = some name →
    name ∈ names n
  faces : ∀ n node, net₀.nodes n = some node → (node.ctx.faceContextMap.map Prod.fst).Nodup
  filtered : Filtered medium net₀

/-- The alert has been transmitted on the V2I face of a node. -/
def SentV2i (net₀ net : Net F) (name : Name F) : Prop :=
  ∃ tx ∈ net.log, tx.data.name = name ∧
    ∃ sender, net₀.nodes tx.sender = some sender ∧ sender.IsV2i tx.egress

/-- The copy comes from a vehicle without an RSU, by V2V. -/
def FromFlood (net₀ net : Net F) (c : Copy F) : Prop :=
  ∃ tx sender, net.log[c.data.uid]? = some tx ∧ net₀.nodes tx.sender = some sender ∧
    sender.FloodsOn tx.egress ∧ c.data.senderPos = sender.mobility

/-- The nodes in the course of such a run. -/
def KeepsStill (names : NodeId → Finset (Name F)) (net₀ net : Net F) : Prop :=
  ∀ n node, net.nodes n = some node → node.Sound (names n) ∧
    ∃ node₀, net₀.nodes n = some node₀ ∧ Node.Same node₀ node

/-- What holds as long as the alert has not been transmitted by V2I. -/
structure Unserved (net₀ net : Net F) (name : Name F) : Prop where
  copies : ∀ c ∈ net.inFlight, c.data.name = name → ∀ receiver, net.nodes c.dst = some receiver →
    receiver.ctx.type = .vehicle → net₀.FromFlood net c ∧ c.data.senderType = some .vehicle ∧
      receiver.ctx.getContextFor c.ingress ≠ .v2i
  pending : ∀ n node, net.nodes n = some node → node.ctx.type = .vehicle →
    ∀ d, node.Pending name d → ¬ node.IsV2i d.egress → node.ctx.isRsuAvailable = false

theorem Step.log_eq {infra : Infrastructure F} {medium : Medium F} {net net' : Net F} {l : Label F}
    (h : Step infra medium net l net') : ∃ more, net'.log = net.log ++ more := by
  cases h.change with
  | medium _ _ hlog _ _ => exact ⟨[], by simp [hlog]⟩
  | node n ev node o rest _ _ _ _ _ _ hnet =>
      rw [hnet]
      exact ⟨_, react_log⟩

theorem SentV2i.of_run {infra : Infrastructure F} {medium : Medium F} {net₀ net net' : Net F}
    {ls : List (Label F)} {name : Name F} (h : SentV2i net₀ net name)
    (hrun : Run (Step infra medium) net ls net') : SentV2i net₀ net' name := by
  refine hrun.invariant (fun _ n => SentV2i net₀ n name) h ?_
  rintro _ t l v _ _ _ ⟨tx, htx, htxs⟩ hstep
  obtain ⟨more, hlog⟩ := hstep.log_eq
  exact ⟨tx, hlog ▸ List.mem_append_left _ htx, htxs⟩

section Step

variable {infra : Infrastructure F} {medium : Medium F} {names : NodeId → Finset (Name F)}
  {net₀ net net' : Net F} {l : Label F} {name : Name F}

theorem KeepsStill.step (h : KeepsStill names net₀ net) (hstep : Step infra medium net l net')
    (hstatic : ∀ n ev, Label.event l = some (n, ev) → ∀ pos, ev ≠ .move pos)
    (hno : ∀ n ev, Label.event l = some (n, ev) → ∀ b, ev ≠ .hello b)
    (hseen : ∀ n ev name, Label.event l = some (n, ev) → ev.alert = some name → name ∈ names n) :
    KeepsStill names net₀ net' := by
  cases hstep.change with
  | medium _ hnodes _ _ _ =>
      unfold KeepsStill
      rw [hnodes]
      exact h
  | node n ev node o rest hev hnode hhandles _ _ _ hnet =>
      subst hnet
      intro m node' hnode'
      rcases react_nodes_cases hnode' with ⟨rfl, rfl⟩ | ⟨_, hnode'⟩
      · obtain ⟨hs, node₀, hnode₀, hsame⟩ := h m node hnode
        have heff := hhandles.effect
        exact ⟨heff.sound hs fun name => hseen m ev name hev, node₀, hnode₀,
          hsame.effect heff (hstatic m ev hev) (hno m ev hev)⟩
      · exact h m node' hnode'

/-- A copy that a reaction sends to a vehicle. -/
theorem Unserved.new_copy (h : Unserved net₀ net name) (hkept : KeepsStill names net₀ net)
    (hpos : ∀ n node, net₀.nodes n = some node → node.mobility.isSome)
    (hfaces : ∀ n node, net₀.nodes n = some node → (node.ctx.faceContextMap.map Prod.fst).Nodup)
    (hfilter : Filtered medium net₀) (hgeo : name.IsGeographic) {t : ℕ} {n : NodeId}
    {ev : NodeEvent F} {node : Node F} {o : Outcome F} {rest : List (Copy F)}
    (hnode : net.nodes n = some node) (heff : node.Effect infra ev o)
    (hstatic : ∀ pos, ev ≠ .move pos) (hno : ∀ b, ev ≠ .hello b) {deferred : Bool}
    (hserved : ¬ SentV2i net₀ (net.react medium t n deferred o rest) name) {c : Copy F} {i : ℕ}
    {out : Outgoing F} (hout : o.sent[i]? = some out)
    (hheard : (c.dst, c.ingress) ∈
      medium (Function.update net.nodes n (some o.node)) n out.egress)
    (hdata : c.data = { out.data with uid := net.log.length + i }) (hname : c.data.name = name)
    {receiver : Node F}
    (hreceiver : (net.react medium t n deferred o rest).nodes c.dst = some receiver)
    (hv : receiver.ctx.type = .vehicle) :
    net₀.FromFlood (net.react medium t n deferred o rest) c ∧
      c.data.senderType = some .vehicle ∧ receiver.ctx.getContextFor c.ingress ≠ .v2i := by
  obtain ⟨_, node₀, hnode₀, hsame⟩ := hkept n node hnode
  have hsame' := hsame.effect heff hstatic hno
  have hmem := List.mem_of_getElem? hout
  have houtname : out.data.name = name := by
    rw [← hname, hdata]
  let tx : Transmission F := ⟨n, out.egress, out.data, deferred⟩
  have htx : (net.react medium t n deferred o rest).log[c.data.uid]? = some tx := by
    rw [hdata, react_log, List.getElem?_append_right (Nat.le_add_right _ _)]
    simp [hout, tx]
  have hconfig : ∀ k node', Function.update net.nodes n (some o.node) k = some node' →
      ∃ node₀, net₀.nodes k = some node₀ ∧ node'.config = node₀.config := by
    intro k node' hk
    by_cases hkn : k = n
    · subst hkn
      rw [Function.update_self] at hk
      obtain rfl := Option.some.inj hk
      exact ⟨node₀, hnode₀, hsame'.config⟩
    · rw [Function.update_of_ne hkn] at hk
      obtain ⟨_, node₁, hnode₁, hsame₁⟩ := hkept k node' hk
      exact ⟨node₁, hnode₁, hsame₁.config⟩
  rcases hfilter _ n out.egress c.dst c.ingress o.node receiver hconfig hheard (by simp)
    hreceiver hv with
    ⟨hsender, hegress, hcontext⟩ | ⟨_, hv2i⟩
  · have hnv : node.ctx.type = .vehicle :=
      (congrArg Node.Config.type heff.config_eq).symm.trans hsender
    have hmap : node.ctx.faceContextMap = node₀.ctx.faceContextMap := hsame.faceContextMap
    have hegress' : out.egress = node.ctx.getFaceIdFor .v2v := by
      have hmap' : o.node.ctx.faceContextMap = node.ctx.faceContextMap :=
        congrArg Node.Config.faceContextMap heff.config_eq
      rw [hegress]
      unfold Context.getFaceIdFor
      rw [hmap']
    have hnone := (heff.case_of_vehicle hnv).sent_v2v (hmap ▸ hfaces n node₀ hnode₀) hmem
      (houtname ▸ hgeo) hegress' (houtname ▸ h.pending n node hnode hnv)
    have hsome : node.mobility.isSome := hsame.mobility ▸ hpos n node₀ hnode₀
    refine ⟨⟨tx, node₀, htx, hnode₀, (hsame.floodsOn _).mp ⟨hnv, hnone, hegress'⟩, ?_⟩, ?_,
      hcontext⟩
    · rw [hdata]
      exact (heff.senderPos hsome out hmem).trans hsame.mobility
    · rw [hdata, ← hnv]
      exact heff.senderType out hmem
  · refine absurd ⟨tx, ?_, houtname, node₀, hnode₀, ?_⟩ hserved
    · exact List.mem_of_getElem? htx
    · exact (Node.isV2i_congr hsame'.config _).mp hv2i

theorem Unserved.step (h : Unserved net₀ net name) (hkept : KeepsStill names net₀ net)
    (hpos : ∀ n node, net₀.nodes n = some node → node.mobility.isSome)
    (hfaces : ∀ n node, net₀.nodes n = some node → (node.ctx.faceContextMap.map Prod.fst).Nodup)
    (hfilter : Filtered medium net₀) (hgeo : name.IsGeographic)
    (hstep : Step infra medium net l net')
    (hstatic : ∀ n ev, Label.event l = some (n, ev) → ∀ pos, ev ≠ .move pos)
    (hno : ∀ n ev, Label.event l = some (n, ev) → ∀ b, ev ≠ .hello b)
    (hserved : ¬ SentV2i net₀ net' name) : Unserved net₀ net' name := by
  cases hstep.change with
  | medium _ hnodes hlog hsub _ =>
      constructor
      · unfold FromFlood
        rw [hnodes, hlog]
        exact fun c hc => h.copies c (hsub c hc)
      · rw [hnodes]
        exact h.pending
  | node n ev node o rest hev hnode hhandles hsource hsub _ hnet =>
      subst hnet
      have heff := hhandles.effect
      have hmap : o.node.ctx.faceContextMap = node.ctx.faceContextMap :=
        congrArg Node.Config.faceContextMap heff.config_eq
      have htype : o.node.ctx.type = node.ctx.type := congrArg Node.Config.type heff.config_eq
      constructor
      · intro c hc hname receiver hreceiver hv
        rcases mem_react_inFlight.mp hc with hc | ⟨i, out, hout, hheard, hdata, _⟩
        · have hold : ∃ old, net.nodes c.dst = some old ∧ old.ctx.type = receiver.ctx.type ∧
              old.ctx.faceContextMap = receiver.ctx.faceContextMap := by
            rcases react_nodes_cases hreceiver with ⟨hdst, rfl⟩ | ⟨_, hreceiver⟩
            · exact ⟨node, hdst ▸ hnode, htype.symm, hmap.symm⟩
            · exact ⟨receiver, hreceiver, rfl, rfl⟩
          obtain ⟨old, hold, htype', hmap'⟩ := hold
          obtain ⟨⟨tx, sender, htx, hsender⟩, hst, hcontext⟩ :=
            h.copies c (hsub c hc) hname old hold (htype'.trans hv)
          refine ⟨⟨tx, sender, ?_, hsender⟩, hst, ?_⟩
          · rw [react_log, List.getElem?_append_left (List.getElem?_eq_some_iff.mp htx).1]
            exact htx
          · unfold Context.getContextFor at hcontext ⊢
            rw [← hmap']
            exact hcontext
        · exact h.new_copy hkept hpos hfaces hfilter hgeo hnode heff (hstatic n ev hev)
            (hno n ev hev) hserved hout hheard hdata hname hreceiver hv
      · intro m node' hnode' hv d hd hv2i
        rcases react_nodes_cases hnode' with ⟨rfl, rfl⟩ | ⟨_, hnode'⟩
        · rw [heff.isRsuAvailable_of_noHello (hno m ev hev)]
          rw [Node.isV2i_congr heff.config_eq] at hv2i
          have hnv := htype.symm.trans hv
          rcases (heff.case_of_vehicle hnv).pending_new hd.1 with hold |
            ⟨now, data, ingress, face, data', rfl, hsome, hdname, hface, hrelay⟩
          · exact h.pending m node hnode hnv d ⟨hold, hd.2⟩ hv2i
          · rcases hsource with ⟨_, hlocal⟩ | ⟨c, hc, _, rfl, heq⟩
            · exact absurd hlocal.2.2.1 hsome
            · obtain ⟨_, rfl, rfl⟩ := NodeEvent.receive.inj heq
              obtain ⟨_, hst, hcontext⟩ :=
                h.copies c hc (hdname.symm.trans hd.2) node hnode hnv
              refine Node.relayOn_not_v2i hrelay hcontext ?_ (hface ▸ hv2i)
              rw [hst]
              simp
        · exact h.pending m node' hnode' hv d hd hv2i

end Step

theorem Steady.kept {infra : Infrastructure F} {medium : Medium F}
    {names : NodeId → Finset (Name F)} {net₀ net : Net F} {ls : List (Label F)}
    (h : Steady infra medium names net₀ ls net) {pre post : List (Label F)} {mid : Net F}
    (heq : ls = pre ++ post) (hpre : Run (Step infra medium) net₀ pre mid) :
    KeepsStill names net₀ mid := by
  refine hpre.invariant (fun _ n => KeepsStill names net₀ n) ?_ ?_
  · intro n node hnode
    exact ⟨(h.still.fresh n node hnode).sound (h.fits n node hnode), node, hnode, rfl, rfl, rfl⟩
  · intro ms t l v rest hms _ ht hstep
    have hl : l ∈ ls := by simp [heq, hms]
    exact ht.step hstep (h.still.static l hl) (h.noHello l hl) (h.seen l hl)

theorem Steady.unserved {infra : Infrastructure F} {medium : Medium F}
    {names : NodeId → Finset (Name F)} {net₀ net : Net F} {ls : List (Label F)}
    (h : Steady infra medium names net₀ ls net) {name : Name F} (hgeo : name.IsGeographic)
    {pre post : List (Label F)} {mid : Net F} (heq : ls = pre ++ post)
    (hpre : Run (Step infra medium) net₀ pre mid) :
    ¬ SentV2i net₀ mid name → Unserved net₀ mid name := by
  refine hpre.invariant (fun _ n => ¬ SentV2i net₀ n name → Unserved net₀ n name) ?_ ?_
  · intro _
    constructor
    · simp [h.still.inFlight]
    · intro n node hnode _ d hd
      have hmem := hd.1
      simp [(h.still.fresh n node hnode).events] at hmem
  · intro ms t l v rest hms hrun ht hstep hserved
    have hl : l ∈ ls := by simp [heq, hms]
    have hsplit : ls = ms ++ l :: (rest ++ post) := by simp [heq, hms]
    have hkept := h.kept hsplit hrun
    have hbefore : ¬ SentV2i net₀ t name := fun hsent =>
      hserved (hsent.of_run (Run.single_iff.mpr hstep))
    exact (ht hbefore).step hkept h.still.positioned h.faces h.filtered hgeo hstep
      (h.still.static l hl) (h.noHello l hl) hserved

/-- The relay `d` of the alert waits at vehicle `n` for the V2I face. -/
def AwaitsV2i (net : Net F) (name : Name F) (n : NodeId) (d : Deferred F) : Prop :=
  ∃ node, net.nodes n = some node ∧ node.ctx.type = .vehicle ∧ node.Pending name d ∧
    node.IsV2i d.egress

/-- In the run from `mid` to `net` a copy arrives that a vehicle without an
RSU sent by V2V, and cancels the relay `d` of vehicle `n`: it comes from
nearer to the zone, or, to a vehicle inside, from farther away from the first
sender. -/
def CancelledByFlood (infra : Infrastructure F) (medium : Medium F) (net₀ mid net : Net F)
    (name : Name F) (zor : ZoR F) (post : List (Label F)) (n : NodeId) (d : Deferred F) : Prop :=
  ∃ more t c rest before after node nodePos senderPos,
    post = more ++ (t, .deliver c) :: rest ∧ Run (Step infra medium) mid more before ∧
    Step infra medium before (t, .deliver c) after ∧ Run (Step infra medium) after rest net ∧
    before.AwaitsV2i name n d ∧ ¬ after.AwaitsV2i name n d ∧ c ∈ before.inFlight ∧ c.dst = n ∧
    c.data.name = name ∧ net₀.FromFlood before c ∧ before.nodes n = some node ∧
    node.mobility = some nodePos ∧ c.data.senderPos = some senderPos ∧
    Suppresses zor node.ctx.alertStore name nodePos senderPos

/-- The step at which a relay for the V2I face comes to its end. -/
theorem Steady.ends {infra : Infrastructure F} {medium : Medium F}
    {names : NodeId → Finset (Name F)} {net₀ net : Net F} {ls : List (Label F)}
    (h : Steady infra medium names net₀ ls net) {name : Name F} {zor : ZoR F}
    (hz : extractZoR name = some zor) (hgeo : zor.IsGeographic) {pre post : List (Label F)}
    {l : Label F} {mid mid' : Net F} (heq : ls = pre ++ l :: post)
    (hpre : Run (Step infra medium) net₀ pre mid) (hstep : Step infra medium mid l mid')
    {n : NodeId} {d : Deferred F} (hawaits : mid.AwaitsV2i name n d)
    (hgone : ¬ mid'.AwaitsV2i name n d) :
    SentV2i net₀ mid' name ∨ ∃ c node nodePos senderPos, l.2 = .deliver c ∧ c ∈ mid.inFlight ∧
      c.dst = n ∧ c.data.name = name ∧ net₀.FromFlood mid c ∧ mid.nodes n = some node ∧
      node.mobility = some nodePos ∧ c.data.senderPos = some senderPos ∧
      Suppresses zor node.ctx.alertStore name nodePos senderPos := by
  by_cases hserved : SentV2i net₀ mid' name
  · exact Or.inl hserved
  obtain ⟨node, hnode, hv, hd, hv2i⟩ := hawaits
  have hkept := h.kept heq hpre
  cases hstep.change with
  | medium _ hnodes _ _ _ => exact absurd ⟨node, hnodes ▸ hnode, hv, hd, hv2i⟩ hgone
  | node m ev node₁ o rest hev hnode₁ hhandles hsource _ _ hnet =>
      subst hnet
      by_cases hm : n = m
      · subst hm
        obtain rfl := Option.some.inj (hnode.symm.trans hnode₁)
        have heff := hhandles.effect
        obtain ⟨hs, node₀, hnode₀, hsame⟩ := hkept n node hnode
        have hout : d ∉ o.node.events := by
          intro hd'
          exact hgone ⟨o.node, react_nodes_self,
            (congrArg Node.Config.type heff.config_eq).trans hv, ⟨hd', hd.2⟩,
            (Node.isV2i_congr heff.config_eq _).mpr hv2i⟩
        rcases (heff.case_of_vehicle hv).ends hs.coherent hd.1 hout with
          ⟨out, hout, hegress, hname⟩ |
            ⟨now, data, ingress, zor', p, q, rfl, hname, hz', hm, hpos, hsup⟩
        · refine absurd ⟨⟨n, out.egress, out.data, ev.isExpiry⟩, ?_, hname.trans hd.2, node₀,
            hnode₀, ?_⟩ hserved
          · rw [react_log]
            exact List.mem_append_right _ (List.mem_map_of_mem hout)
          · exact (Node.isV2i_congr hsame.config _).mp (hegress ▸ hv2i)
        · rcases hsource with ⟨_, hlocal⟩ | ⟨c, hc, hl, hdst, hreceive⟩
          · rw [hlocal.2.2.1] at hpos
            cases hpos
          · obtain ⟨_, rfl, _⟩ := NodeEvent.receive.inj hreceive
            have hcname := hname.trans hd.2
            have hunserved := h.unserved ⟨zor, hz, hgeo⟩ heq hpre fun hsent =>
              hserved (hsent.of_run (Run.single_iff.mpr hstep))
            obtain ⟨hflood, _⟩ := hunserved.copies c hc hcname node (hdst ▸ hnode) hv
            rw [hcname] at hz' hsup
            obtain rfl := Option.some.inj (hz.symm.trans hz')
            exact Or.inr ⟨c, node, p, q, hl, hc, hdst.symm, hcname, hflood, hnode, hm, hpos, hsup⟩
      · exact absurd ⟨node, (react_nodes_of_ne hm).trans hnode, hv, hd, hv2i⟩ hgone

end Net

/-- A relay that waits at a vehicle for the V2I face is lost to the flood
only: in a terminal state the alert has been transmitted by V2I, or the relay
was cancelled by a copy that a vehicle without an RSU sent by V2V. -/
theorem uplink_served_or_flooded {infra : Infrastructure F} {medium : Medium F}
    {names : NodeId → Finset (Name F)} {net₀ mid net : Net F} {pre post : List (Net.Label F)}
    {name : Name F} {zor : ZoR F} (h : Net.Steady infra medium names net₀ (pre ++ post) net)
    (hz : extractZoR name = some zor) (hgeo : zor.IsGeographic) (hquiet : net.Quiet name)
    (hpre : Run (Net.Step infra medium) net₀ pre mid)
    (hpost : Run (Net.Step infra medium) mid post net) {n : NodeId} {d : Deferred F}
    (hawaits : mid.AwaitsV2i name n d) :
    Net.SentV2i net₀ net name ∨
      Net.CancelledByFlood infra medium net₀ mid net name zor post n d := by
  have hend : ¬ net.AwaitsV2i name n d := by
    rintro ⟨node, hnode, _, hd, _⟩
    exact hquiet.2 n node hnode d hd
  rcases hpost.exists_exit (fun t => t.AwaitsV2i name n d) hawaits hend with
    ⟨more, l, rest, before, after, rfl, hmore, hstep, hbefore, hafter, hrest⟩
  have hreach := Run.append_iff.mpr ⟨mid, hpre, hmore⟩
  have hsplit : pre ++ (more ++ l :: rest) = pre ++ more ++ l :: rest := by simp
  rcases h.ends hz hgeo hsplit hreach hstep hbefore hafter with
    hsent | ⟨c, node, p, q, hl, hc, hdst, hname, hflood, hnode, hm, hpos, hsup⟩
  · exact Or.inl (hsent.of_run hrest)
  · obtain ⟨t, a⟩ := l
    obtain rfl : a = .deliver c := hl
    exact Or.inr ⟨more, t, c, rest, before, after, node, p, q, rfl, hmore, hstep, hrest, hbefore,
      hafter, hc, hdst, hname, hflood, hnode, hm, hpos, hsup⟩

/-! ## A flood that outruns the uplink

The vehicles at -5 and at 10 hear the alert of the vehicle at 0. Only the
first has an RSU; its relay is cancelled by that of the second. -/

namespace Outrun

/-- The vehicles hear each other by V2V; the vehicle at -5 and the RSU hear
each other by V2I. -/
def medium : Medium ℝ := fun _ n egress =>
  if n = 3 then if egress = 1 then [(1, 2)] else []
  else if egress = 1 then ([0, 1, 2].filter fun m => m ≠ n).map fun m => (m, 1)
  else if n = 1 then [(3, 1)] else []

noncomputable def start (n : NodeId) : Node ℝ :=
  { Row.start n with
    ctx :=
      { Context.init ℝ with
        type := if n = 3 then .rsu else .vehicle
        faceContextMap := if n = 3 then [(1, .v2i)] else [(2, .v2i), (1, .v2v)]
        isRsuAvailable := n = 1 }
    faceTable := [⟨1, .nonLocal⟩, ⟨2, .nonLocal⟩] }

noncomputable def created : Node ℝ := (start 0).insertAlert ⟨Row.alert.name, .vehicle, ⟨0, 0⟩⟩

noncomputable def deferred (n : NodeId) (egress : FaceId) : Node ℝ :=
  ((start n).insertAlert ⟨Row.alert.name, .vehicle, ⟨0, 0⟩⟩).schedule
    (1 + deferDelay (start n).ctx 375 ((Row.place n).distanceFromPoint ⟨0, 0⟩)) Row.heard egress

noncomputable def fired : Node ℝ :=
  { deferred 2 1 with
    ctx := { (deferred 2 1).ctx with
      registry := (deferred 2 1).ctx.registry.complete Row.alert.name }
    events := [] }

theorem handles_created : (start 0).Handles ⟨∅, ∅⟩ (.receive 0 Row.alert ⟨3, .isLocal⟩)
    ⟨created, [⟨1, { Row.heard with uid := 0 }⟩], Row.zone.contains (Row.place 0)⟩ := by
  have hz : extractZoR Row.alert.name = some Row.zone := rfl
  have hplace : Row.place 0 = ⟨0, 0⟩ := by simp [Row.place]
  have hsend : (start 0).sendOn .v2v Row.alert = .ok [(start 0).onOutgoingAlert Row.alert 1] := rfl
  have hout : (start 0).onOutgoingAlert Row.alert 1 = ⟨1, { Row.heard with uid := 0 }⟩ := by
    simp [Node.onOutgoingAlert, start, Row.start, Pair.vehicle, Row.heard, Row.alert, Row.place]
  rw [hout] at hsend
  have h : (start 0).Handles ⟨∅, ∅⟩ (.receive 0 Row.alert ⟨3, .isLocal⟩) _ :=
    Node.handles_origin rfl hz trivial rfl rfl rfl hsend
  rw [hplace] at h ⊢
  exact h

theorem handles_heard (n : NodeId) (egress : FaceId)
    (h : (n = 1 ∧ egress = 2) ∨ (n = 2 ∧ egress = 1)) :
    (start n).Handles ⟨∅, ∅⟩ (.receive 1 Row.heard ⟨1, .nonLocal⟩)
      ⟨deferred n egress, [], Row.zone.contains (Row.place n)⟩ := by
  have hz : extractZoR Row.heard.name = some Row.zone := rfl
  have hnew : ¬ (start n).ctx.alertStore.isDuplicate Row.heard.name := by
    simp [start, Context.init, AlertStore.isDuplicate, AlertStore.names]
  have hv : (start n).ctx.type = .vehicle := by
    rcases h with ⟨rfl, rfl⟩ | ⟨rfl, rfl⟩ <;> rfl
  apply Node.handles_case hv hz trivial rfl (by simp [Row.heard])
  refine .deferred ⟨0, 0⟩ ⟨egress, .nonLocal⟩ Row.heard rfl hnew
    (fun h => h.1 (Row.zone_contains n)) ?_
  rcases h with ⟨rfl, rfl⟩ | ⟨rfl, rfl⟩ <;> rfl

theorem handles_fired : (deferred 2 1).Handles ⟨∅, ∅⟩ (.expire 0)
    ⟨fired, [⟨1, { Row.relayed with uid := 0 }⟩], false⟩ := by
  have hplace : Row.place 2 = ⟨10, 0⟩ := by simp [Row.place]
  refine ⟨0, ?_⟩
  simp only [Node.handle, Node.expire]
  simp [Node.deferredOutgoingAlert, fired, Node.onOutgoingAlert, deferred, start, Row.start,
    Pair.vehicle, hplace, Row.relayed, Row.heard, Row.alert, Node.schedule, Node.insertAlert]

theorem handles_duplicate : created.Handles ⟨∅, ∅⟩ (.receive 3 Row.relayed ⟨1, .nonLocal⟩)
    created.drop := by
  have hz : extractZoR Row.relayed.name = some Row.zone := rfl
  have hdup : created.ctx.alertStore.isDuplicate Row.relayed.name := by
    simp [created, AlertStore.isDuplicate, start, Context.init, Row.relayed,
      AlertStore.insertOrUpdate, AlertStore.names, AlertStore.pushFront, Row.alert]
  apply Node.handles_case rfl hz trivial rfl (by simp [Row.relayed])
  apply VehicleCase.duplicate ⟨10, 0⟩ rfl hdup
  rintro ⟨hreg, _⟩
  simp [created, DeferredRegistry.isRegistered, start, Context.init] at hreg

theorem handles_cancelled : (deferred 1 2).Handles ⟨∅, ∅⟩ (.receive 3 Row.relayed ⟨1, .nonLocal⟩)
    ((deferred 1 2).cancel Row.alert.name).drop := by
  have hz : extractZoR Row.relayed.name = some Row.zone := rfl
  have hstore : (deferred 1 2).ctx.alertStore.order = [⟨Row.alert.name, .vehicle, ⟨0, 0⟩⟩] := by
    simp [deferred, start, Context.init, AlertStore.insertOrUpdate, AlertStore.pushFront,
      AlertStore.isDuplicate, AlertStore.names]
  have hdup : (deferred 1 2).ctx.alertStore.isDuplicate Row.relayed.name := by
    simp [AlertStore.isDuplicate, AlertStore.names, hstore, Row.relayed]
  have hget : (deferred 1 2).ctx.alertStore.get Row.relayed.name =
      some ⟨Row.alert.name, .vehicle, ⟨0, 0⟩⟩ := by
    simp [AlertStore.get, hstore, Row.relayed]
  apply Node.handles_case rfl hz trivial rfl (by simp [Row.relayed])
  apply VehicleCase.cancelled ⟨10, 0⟩ rfl hdup
  · exact (AList.mem_insert _).mpr (Or.inl rfl)
  · have hplace : Row.place 1 = ⟨-5, 0⟩ := by simp [Row.place]
    rw [Suppresses, if_neg (not_not_intro (Row.zone_contains 1)), hget]
    change Point.distanceFromPoint ⟨0, 0⟩ (Row.place 1) < Point.distanceFromPoint ⟨0, 0⟩ ⟨10, 0⟩
    rw [hplace, Point.distance_axis, Point.distance_axis]
    norm_num

/-- The nodes after the steps of the run. -/
noncomputable def v₁ : NodeId → Node ℝ := Function.update start 0 created
noncomputable def v₂ : NodeId → Node ℝ := Function.update v₁ 1 (deferred 1 2)
noncomputable def v₃ : NodeId → Node ℝ := Function.update v₂ 2 (deferred 2 1)
noncomputable def v₄ : NodeId → Node ℝ := Function.update v₃ 2 fired
noncomputable def v₅ : NodeId → Node ℝ := Function.update v₄ 0 created
noncomputable def v₆ : NodeId → Node ℝ :=
  Function.update v₅ 1 ((deferred 1 2).cancel Row.alert.name)

/-- The two relays are scheduled. -/
def before : List (Net.Label ℝ) :=
  [(0, .occur 0 (.receive 0 Row.alert ⟨3, .isLocal⟩)), (1, .deliver ⟨1, 1, Row.heard, 0⟩),
    (1, .deliver ⟨2, 1, Row.heard, 0⟩)]

/-- The second relay is made and cancels the first. -/
def after : List (Net.Label ℝ) :=
  [(2, .occur 2 (.expire 0)), (3, .deliver ⟨0, 1, Row.relayed, 2⟩),
    (3, .deliver ⟨1, 1, Row.relayed, 2⟩)]

theorem step_occur (v : NodeId → Node ℝ) (now t : ℕ) (log : List (Transmission ℝ)) (n : NodeId)
    {ev : NodeEvent ℝ} {node : Node ℝ} {sent : List (Outgoing ℝ)} {relevant : Bool}
    {copies : List (Copy ℝ)} (hn : n ∈ Row.placement.ids) (hlocal : ev.IsLocal)
    (hhandles : (v n).Handles ⟨∅, ∅⟩ ev ⟨node, sent, relevant⟩)
    (hcopies : Net.copies medium (fun _ => none) t n log.length sent = copies) :
    Net.Step ⟨∅, ∅⟩ medium (Row.state v now [] log) (t, .occur n ev)
      (Row.state (Function.update v n node) t copies
        (log ++ sent.map fun out => ⟨n, out.egress, out.data, ev.isExpiry⟩)) := by
  have hnode : (Row.state v now [] log).nodes n = some (v n) := if_pos hn
  have hstep : Net.Step _ medium _ (t, _) _ := .occur hlocal hnode hhandles
  rw [Row.state_react (fun _ _ => rfl) v hn, hcopies] at hstep
  exact hstep

theorem step_deliver (v : NodeId → Node ℝ) (now : ℕ) {t : ℕ} (c : Copy ℝ) (rest : List (Copy ℝ))
    (log : List (Transmission ℝ)) {node : Node ℝ} {relevant : Bool}
    (hn : c.dst ∈ Row.placement.ids)
    (hhandles : (v c.dst).Handles ⟨∅, ∅⟩ (.receive t c.data ⟨c.ingress, .nonLocal⟩)
      ⟨node, [], relevant⟩) :
    Net.Step ⟨∅, ∅⟩ medium (Row.state v now (c :: rest) log) (t, .deliver c)
      (Row.state (Function.update v c.dst node) t rest log) := by
  have hnode : (Row.state v now (c :: rest) log).nodes c.dst = some (v c.dst) := if_pos hn
  have hstep : Net.Step _ medium _ (t, _) _ :=
    .deliver (List.nil_append (c :: rest)).symm hnode hhandles
  rw [Row.state_react (fun _ _ => rfl) v hn] at hstep
  simpa [Net.copies] using hstep

theorem runs_before : Run (Net.Step ⟨∅, ∅⟩ medium) (Row.state start 0 [] []) before
    (Row.state v₃ 1 [] [Row.tx₁]) := by
  have hlocal : (NodeEvent.receive 0 Row.alert ⟨3, .isLocal⟩).IsLocal := ⟨rfl, rfl, rfl, rfl⟩
  have s₁ := step_occur start 0 0 [] 0 (by decide) hlocal handles_created rfl
  have s₂ := step_deliver v₁ 0 ⟨1, 1, Row.heard, 0⟩ [⟨2, 1, Row.heard, 0⟩] [Row.tx₁] (by decide)
    (handles_heard 1 2 (Or.inl ⟨rfl, rfl⟩))
  have s₃ := step_deliver v₂ 1 ⟨2, 1, Row.heard, 0⟩ [] [Row.tx₁] (by decide)
    (handles_heard 2 1 (Or.inr ⟨rfl, rfl⟩))
  exact ((Run.nil.snoc s₁).snoc s₂).snoc s₃

theorem runs_after : Run (Net.Step ⟨∅, ∅⟩ medium) (Row.state v₃ 1 [] [Row.tx₁]) after
    (Row.state v₆ 3 [] [Row.tx₁, Row.tx₂]) := by
  have hlocal : (NodeEvent.expire 0 : NodeEvent ℝ).IsLocal := trivial
  have s₄ := step_occur v₃ 1 2 [Row.tx₁] 2 (by decide) hlocal handles_fired rfl
  have s₅ := step_deliver v₄ 2 ⟨0, 1, Row.relayed, 2⟩ [⟨1, 1, Row.relayed, 2⟩] [Row.tx₁, Row.tx₂]
    (by decide) handles_duplicate
  have s₆ := step_deliver v₅ 3 ⟨1, 1, Row.relayed, 2⟩ [] [Row.tx₁, Row.tx₂] (by decide)
    handles_cancelled
  exact ((Run.nil.snoc s₄).snoc s₅).snoc s₆

theorem run : Run (Net.Step ⟨∅, ∅⟩ medium) (Row.state start 0 [] []) (before ++ after)
    (Row.state v₆ 3 [] [Row.tx₁, Row.tx₂]) :=
  Run.append_iff.mpr ⟨_, runs_before, runs_after⟩

theorem events_end (n : NodeId) (hn : n ∈ Row.placement.ids) : (v₆ n).events = [] := by
  have hcancel : ((deferred 1 2).cancel Row.alert.name).events = [] := by
    have hlook : (deferred 1 2).ctx.registry.lookup Row.alert.name = some 0 :=
      AList.lookup_insert _
    rw [(Node.cancel_of_lookup hlook).2]
    rfl
  rcases Row.mem_ids hn with rfl | rfl | rfl | rfl
  · rfl
  · exact hcancel
  · rfl
  · rfl

theorem quiet : (Row.state v₆ 3 [] [Row.tx₁, Row.tx₂]).Quiet Row.alert.name := by
  refine ⟨by simp [Row.stateOf], fun n node hnode d hd => ?_⟩
  obtain ⟨hn, rfl⟩ := Row.state_nodes hnode
  simp [Node.Pending, events_end n hn] at hd

theorem steady : Net.Steady ⟨∅, ∅⟩ medium (fun _ => {Row.alert.name}) (Row.state start 0 [] [])
    (before ++ after) (Row.state v₆ 3 [] [Row.tx₁, Row.tx₂]) where
  still := by
    refine ⟨?_, rfl, rfl, ?_, ?_, run⟩
    · intro n node hnode
      rw [(Row.state_nodes hnode).2]
      exact ⟨rfl, rfl, rfl⟩
    · intro n node hnode
      rw [(Row.state_nodes hnode).2]
      rfl
    · intro l hl n ev hev pos
      simp only [before, after, List.cons_append, List.nil_append, List.mem_cons,
        List.not_mem_nil, or_false] at hl
      rcases hl with rfl | rfl | rfl | rfl | rfl | rfl <;> cases hev <;> simp
  noHello := by
    intro l hl n ev hev b
    simp only [before, after, List.cons_append, List.nil_append, List.mem_cons,
      List.not_mem_nil, or_false] at hl
    rcases hl with rfl | rfl | rfl | rfl | rfl | rfl <;> cases hev <;> simp
  noLoss := by simp [before, after]
  fits := by
    intro n node hnode
    rw [(Row.state_nodes hnode).2]
    exact (Finset.card_singleton Row.alert.name).trans_le (by norm_num [start, Context.init])
  seen := by
    intro l hl n ev name hev halert
    simp only [before, after, List.cons_append, List.nil_append, List.mem_cons,
      List.not_mem_nil, or_false] at hl
    rcases hl with rfl | rfl | rfl | rfl | rfl | rfl <;>
      obtain ⟨rfl, rfl⟩ := Prod.mk.inj (Option.some.inj hev) <;> cases halert <;>
      exact Finset.mem_singleton_self _
  faces := by
    intro n node hnode
    rw [(Row.state_nodes hnode).2]
    by_cases hn : n = 3 <;> simp [start, hn]
  filtered := by
    intro nodes n egress m ingress sender receiver hconfig hheard hsender hreceiver hv
    obtain ⟨_, hnode, hsame⟩ := hconfig n sender hsender
    obtain ⟨_, hnode', hsame'⟩ := hconfig m receiver hreceiver
    obtain ⟨hn, rfl⟩ := Row.state_nodes hnode
    obtain ⟨hm, rfl⟩ := Row.state_nodes hnode'
    have htype : sender.ctx.type = (start n).ctx.type := congrArg Node.Config.type hsame
    have hmap : sender.ctx.faceContextMap = (start n).ctx.faceContextMap :=
      congrArg Node.Config.faceContextMap hsame
    have hmap' : receiver.ctx.faceContextMap = (start m).ctx.faceContextMap :=
      congrArg Node.Config.faceContextMap hsame'
    have hm3 : m ≠ 3 := by
      rintro rfl
      have htype' : receiver.ctx.type = (start 3).ctx.type := congrArg Node.Config.type hsame'
      rw [hv] at htype'
      cases htype'
    unfold medium at hheard
    split at hheard
    · rename_i h3
      split at hheard
      · rename_i hegress
        subst h3
        refine Or.inr ⟨htype, hegress ▸ one_ne_zero, ?_⟩
        rw [hegress, Context.getFaceIdFor, hmap]
        rfl
      · cases hheard
    · rename_i h3
      split at hheard
      · rename_i hegress
        obtain ⟨k, hk, heq⟩ := List.mem_map.mp hheard
        obtain ⟨rfl, rfl⟩ := Prod.mk.inj heq
        refine Or.inl ⟨?_, ?_, ?_⟩
        · rw [htype]
          simp [start, h3]
        · rw [hegress, Context.getFaceIdFor, hmap]
          simp [start, h3]
        · rw [Context.getContextFor, hmap']
          simp [start, hm3]
      · split at hheard
        · simp [hm3] at hheard
        · cases hheard

theorem awaits : (Row.state v₃ 1 [] [Row.tx₁]).AwaitsV2i Row.alert.name 1
    ⟨0, 1 + deferDelay (start 1).ctx 375 ((Row.place 1).distanceFromPoint ⟨0, 0⟩), Row.heard,
      2⟩ := by
  have hv : v₃ 1 = deferred 1 2 := rfl
  refine ⟨deferred 1 2, ?_, rfl, ⟨List.mem_singleton.mpr rfl, rfl⟩, two_ne_zero, rfl⟩
  have hmem : (1 : NodeId) ∈ Row.placement.ids := by decide
  simp only [Row.stateOf, if_pos hmem, hv]

theorem not_sentV2i : ¬ (Row.state start 0 [] []).SentV2i
    (Row.state v₆ 3 [] [Row.tx₁, Row.tx₂]) Row.alert.name := by
  rintro ⟨tx, htx, _, sender, hsender, hv2i⟩
  obtain ⟨_, rfl⟩ := Row.state_nodes hsender
  have hlog : tx = Row.tx₁ ∨ tx = Row.tx₂ := by simpa [Row.stateOf] using htx
  rcases hlog with rfl | rfl
  · have hface : (1 : FaceId) = 2 := hv2i.2
    cases hface
  · have hface : (1 : FaceId) = 2 := hv2i.2
    cases hface

theorem extractZoR_alert : extractZoR Row.alert.name = some Row.zone := rfl

end Outrun

theorem uplink_served_or_flooded_outrun : ∃ net₀ mid net d,
    Net.Steady ⟨∅, ∅⟩ Outrun.medium (fun _ => {Row.alert.name}) net₀
      (Outrun.before ++ Outrun.after) net ∧ net.Quiet Row.alert.name ∧
      mid.AwaitsV2i Row.alert.name 1 d ∧ (Net.SentV2i net₀ net Row.alert.name ∨
        Net.CancelledByFlood ⟨∅, ∅⟩ Outrun.medium net₀ mid net Row.alert.name Row.zone
          Outrun.after 1 d) :=
  ⟨_, _, _, _, Outrun.steady, Outrun.quiet, Outrun.awaits,
    uplink_served_or_flooded Outrun.steady Outrun.extractZoR_alert trivial Outrun.quiet
      Outrun.runs_before Outrun.runs_after Outrun.awaits⟩

/-- A relay that waits for the V2I face may come to its end with no
transmission by V2I. -/
theorem uplink_lost : ¬ ∀ (infra : Infrastructure ℝ) (medium : Medium ℝ)
    (names : NodeId → Finset (Name ℝ)) (net₀ mid net : Net ℝ) (pre post : List (Net.Label ℝ))
    (name : Name ℝ) (zor : ZoR ℝ) (n : NodeId) (d : Deferred ℝ),
      Net.Steady infra medium names net₀ (pre ++ post) net → extractZoR name = some zor →
        zor.IsGeographic → net.Quiet name → Run (Net.Step infra medium) net₀ pre mid →
          Run (Net.Step infra medium) mid post net → mid.AwaitsV2i name n d →
            Net.SentV2i net₀ net name := by
  intro hall
  exact Outrun.not_sentV2i (hall _ _ _ _ _ _ _ _ _ _ 1 _ Outrun.steady
    Outrun.extractZoR_alert trivial Outrun.quiet Outrun.runs_before Outrun.runs_after
    Outrun.awaits)

end Cafe
