import Cafe.Coverage
import Cafe.Flood

/-!
# Contention for the relay of an alert

Vehicles inside the zone that hear a first copy at the same instant contend for
its relay. The delay orders them by their distances to the sender, and the test
for a further copy compares the same distances, so the relays of the vehicles of
least delay cancel all others.
-/

open Labelled

namespace Cafe

/-! ## The delay -/

/-- The bound `tMax` of the delay in milliseconds. -/
def tMaxInMs {F : Type} [Arith F] (ctx : Context F) (size : ℕ) : F :=
  (Arith.lit (size * 8 : ℕ) / ctx.txRate + ctx.txRadius / (Arith.lit 3 * Arith.lit 100000000) +
    Arith.lit (2 / 1000)) * Arith.lit 1000

section Delay

variable {ctx : Context ℝ} {size : ℕ}

theorem deferDelay_eq (ctx : Context ℝ) (size : ℕ) (dist : ℝ) : deferDelay ctx size dist =
    ⌊2 * tMaxInMs ctx size * stdClamp (1 - dist / ctx.txRadius) 0 1 * 1000000⌋₊ := by
  have hlit : (Arith.lit 2 : ℝ) = 2 ∧ (Arith.lit 1000000 : ℝ) = 1000000 := by
    constructor <;> norm_num [Arith.lit]
  rw [← hlit.1, ← hlit.2]
  rfl

theorem stdClamp_eq (v : ℝ) : stdClamp v 0 1 = max 0 (min v 1) := by
  unfold stdClamp
  split_ifs with hlo hhi
  · rw [max_eq_left ((min_le_left v 1).trans hlo.le)]
  · rw [min_eq_right hhi.le, max_eq_right zero_le_one]
  · rw [min_eq_left (not_lt.mp hhi), max_eq_right (not_lt.mp hlo)]

theorem tMaxInMs_nonneg (hradius : 0 < ctx.txRadius) (hrate : 0 < ctx.txRate) :
    0 ≤ tMaxInMs ctx size := by
  simp only [tMaxInMs, Arith.lit]
  positivity

/-- A vehicle that is farther from the sender relays no later. -/
theorem deferDelay_antitone (hradius : 0 < ctx.txRadius) : Antitone (deferDelay ctx size) := by
  intro near far hle
  have hclamp : stdClamp (1 - far / ctx.txRadius) 0 1 ≤ stdClamp (1 - near / ctx.txRadius) 0 1 := by
    rw [stdClamp_eq, stdClamp_eq]
    apply max_le_max_left
    apply min_le_min_right
    have hratio : near / ctx.txRadius ≤ far / ctx.txRadius :=
      div_le_div_of_nonneg_right hle hradius.le
    linarith
  rw [deferDelay_eq, deferDelay_eq]
  rcases le_or_gt 0 (tMaxInMs ctx size) with hmax | hmax
  · apply Nat.floor_le_floor
    gcongr
  · have hnonpos : 2 * tMaxInMs ctx size * stdClamp (1 - far / ctx.txRadius) 0 1 * 1000000 ≤ 0 := by
      have hfar := (Point.clamp_nearest (1 - far / ctx.txRadius)).1
      nlinarith
    rw [Nat.floor_of_nonpos hnonpos]
    exact Nat.zero_le _

/-- No delay exceeds twice the bound. -/
theorem deferDelay_le (dist : ℝ) (hmax : 0 ≤ tMaxInMs ctx size) :
    (deferDelay ctx size dist : ℝ) ≤ 2 * (tMaxInMs ctx size * 1000000) := by
  obtain ⟨hlo, hhi, -⟩ := Point.clamp_nearest (1 - dist / ctx.txRadius)
  have hfloor : (deferDelay ctx size dist : ℝ) ≤
      2 * tMaxInMs ctx size * stdClamp (1 - dist / ctx.txRadius) 0 1 * 1000000 := by
    rw [deferDelay_eq]
    apply Nat.floor_le
    positivity
  calc (deferDelay ctx size dist : ℝ)
      ≤ 2 * tMaxInMs ctx size * stdClamp (1 - dist / ctx.txRadius) 0 1 * 1000000 := hfloor
    _ ≤ 2 * tMaxInMs ctx size * 1 * 1000000 := by gcongr
    _ = 2 * (tMaxInMs ctx size * 1000000) := by ring

end Delay

variable {F : Type} [Arith F]

/-- The context that the delay of a vehicle at its place depends on. -/
def Placement.context (P : Placement F) : Context F :=
  { Context.init F with txRadius := P.txRadius, txRate := P.txRate }

/-- The delay of the relay of an alert that is heard from `senderPos`. -/
def Placement.delay (P : Placement F) (size : ℕ) (senderPos : Point F) (n : NodeId) : ℕ :=
  deferDelay P.context size ((P.pos n).distanceFromPoint senderPos)

theorem Placement.Vehicle.delay_eq {P : Placement F} {zor : ZoR F} {n : NodeId} {node : Node F}
    (h : P.Vehicle zor n node) (size : ℕ) (senderPos : Point F) :
    deferDelay node.ctx size ((P.pos n).distanceFromPoint senderPos) =
      P.delay size senderPos n := by
  unfold Placement.delay deferDelay Placement.context
  rw [h.txRadius, h.txRate]

/-! ## One vehicle -/

namespace Node

/-- A vehicle that has stored the alert as heard from `firstPos`. -/
structure Contender (P : Placement F) (zor : ZoR F) (names : Finset (Name F)) (name : Name F)
    (firstPos : Point F) (n : NodeId) (node : Node F) : Prop where
  placed : P.Vehicle zor n node
  sound : node.Sound names
  stored : node.ctx.alertStore.isDuplicate name
  entry : ∃ entry, node.ctx.alertStore.get name = some entry ∧ entry.senderPos = firstPos

/-- What an event means for the relay of the alert at a contender. -/
inductive Turn (name : Name F) (firstPos nodePos : Point F) (node : Node F) (ev : NodeEvent F)
    (o : Outcome F) : Prop
  | waits (hpend : ∀ d, o.node.Pending name d ↔ node.Pending name d)
      (hsent : ∀ out ∈ o.sent, out.data.name ≠ name)
      (hkeep : ∀ now data ingress senderPos, ev = .receive now data ingress → data.name = name →
        data.senderPos = some senderPos → (∃ d, node.Pending name d) →
        ¬ firstPos.distanceFromPoint nodePos < firstPos.distanceFromPoint senderPos)
  | fires (d : Deferred F) (hd : node.Pending name d) (hev : ev = .expire d.id)
      (hnone : ∀ e, ¬ o.node.Pending name e)
      (hsent : ∃ out, o.sent = [out] ∧ out.egress = d.egress ∧ out.data.name = name ∧
        out.data.senderPos = some nodePos)
  | cancels (now : ℕ) (data : Data F) (ingress : NfdFace) (senderPos : Point F)
      (hev : ev = .receive now data ingress) (hname : data.name = name)
      (hpos : data.senderPos = some senderPos) (hwas : ∃ d, node.Pending name d)
      (hnone : ∀ e, ¬ o.node.Pending name e) (hsent : o.sent = [])

theorem relayOn_face {node : Node F} {data data' : Data F} {ingress face : NfdFace}
    {senderType : NodeType} (hno : node.ctx.isRsuAvailable = false)
    (h : relayOn node data ingress senderType = (some face, data')) :
    face.faceId = node.ctx.getFaceIdFor .v2v := by
  simp only [relayOn, hno, Bool.false_eq_true, and_false, if_false] at h
  split at h
  · simpa using List.find?_some (Prod.mk.inj h).1
  · cases (Prod.mk.inj h).1

theorem Case.sent_of_duplicate {infra : Infrastructure F} {node : Node F} {now : ℕ} {data : Data F}
    {ingress : NfdFace} {o : Outcome F} (hc : Case infra node (.receive now data ingress) o)
    {zor : ZoR F} (hz : extractZoR data.name = some zor) (hgeo : zor.IsGeographic)
    (hm : node.mobility ≠ none) (hpos : data.senderPos ≠ none)
    (hdup : node.ctx.alertStore.isDuplicate data.name) : o.sent = [] := by
  cases hc with
  | geographic _ _ _ hcase =>
      cases hcase with
      | noSender hnone _ => exact absurd hnone hpos
      | origin _ hnone _ _ => exact absurd hnone hpos
      | cancelled _ _ _ _ _ => rfl
      | duplicate _ _ _ _ => rfl
      | closer _ _ hnew _ _ => exact absurd hdup hnew
      | noFace _ _ hnew _ _ => exact absurd hdup hnew
      | deferred _ _ _ _ hnew _ _ => exact absurd hdup hnew
  | ignored hno _ =>
      rcases hno with hno | ⟨hnone, _⟩
      · exact absurd hgeo (hno zor hz)
      · exact absurd hnone hm

/-- A cancelled relay is pending no longer. -/
theorem Coherent.cancel_not_pending {node : Node F} (h : node.Coherent) {name : Name F}
    (hreg : node.ctx.registry.isRegistered name) (e : Deferred F) :
    ¬ (node.cancel name).Pending name e := by
  obtain ⟨d, hd⟩ := (h.isRegistered_iff name).mp hreg
  have hlook := (h.lookup name d.id).mpr ⟨d, hd.1, hd.2, rfl⟩
  rintro ⟨he, hname⟩
  rw [(cancel_of_lookup hlook).2, List.mem_filter] at he
  obtain rfl := h.unique he.1 hd.1 (hname.trans hd.2.symm)
  simp at he

section Turn

variable {infra : Infrastructure F} {P : Placement F} {zor : ZoR F} {names : Finset (Name F)}
  {name : Name F} {firstPos : Point F} {n : NodeId} {node : Node F} {ev : NodeEvent F}
  {o : Outcome F}

/-- A further copy is judged by its distance to the first sender. -/
theorem Contender.suppresses_iff (h : Contender P zor names name firstPos n node)
    (senderPos : Point F) :
    Suppresses zor node.ctx.alertStore name (P.pos n) senderPos ↔
      firstPos.distanceFromPoint (P.pos n) < firstPos.distanceFromPoint senderPos := by
  obtain ⟨entry, hget, rfl⟩ := h.entry
  rw [Cafe.suppresses_iff hget, SuppressionPredicate, if_neg (not_not_intro h.placed.inside)]

/-- A contender keeps its relay, transmits it when it is due or cancels it. -/
theorem Contender.turn (h : Contender P zor names name firstPos n node)
    (heff : Effect infra node ev o) (hz : extractZoR name = some zor) (hgeo : zor.IsGeographic)
    (hsender : ∀ now data ingress, ev = .receive now data ingress → data.name = name →
      data.senderPos ≠ none) : Turn name firstPos (P.pos n) node ev o := by
  have hc := heff.case_of_vehicle h.placed.type
  have hcoh := h.sound.coherent
  by_cases halert : ev.alert = some name
  · obtain ⟨now, data, ingress, rfl, rfl⟩ := NodeEvent.alert_eq_some halert
    obtain ⟨senderPos, hpos⟩ := Option.ne_none_iff_exists'.mp (hsender _ _ _ rfl rfl)
    have hsent := hc.sent_of_duplicate hz hgeo (by simp [h.placed.mobility]) (by simp [hpos])
      h.stored
    rcases hc.duplicate_copy hz hgeo h.placed.mobility hpos h.stored with
      ⟨hreg, -, hnode⟩ | ⟨hkeep, hnode⟩
    · apply Turn.cancels now data ingress senderPos rfl rfl hpos
        ((hcoh.isRegistered_iff _).mp hreg) _ hsent
      rw [hnode]
      exact hcoh.cancel_not_pending hreg
    · apply Turn.waits
      · intro d
        rw [hnode]
      · simp [hsent]
      · intro now' data' ingress' senderPos' hev _ hpos' hwas hdist
        obtain ⟨-, rfl, -⟩ := NodeEvent.receive.inj hev
        obtain rfl := Option.some.inj (hpos.symm.trans hpos')
        exact hkeep ⟨(hcoh.isRegistered_iff _).mpr hwas, (h.suppresses_iff _).mpr hdist⟩
  · have hnot : ∀ now data ingress, ev = .receive now data ingress → data.name ≠ name := by
      rintro now data ingress rfl rfl
      exact halert (NodeEvent.alert_receive _ _ hz hgeo)
    by_cases hfire : ∃ d, node.Pending name d ∧ ev = .expire d.id
    · obtain ⟨d, hd, rfl⟩ := hfire
      generalize hid : d.id = id at hc
      cases hc with
      | expired hno => exact absurd hid (hno d hd.1)
      | @fired e hmem =>
          obtain rfl := List.inj_on_of_nodup_map hcoh.ids hd.1 hmem hid
          apply Turn.fires d hd rfl
          · rintro e ⟨he, hname⟩
            rw [deferredOutgoingAlert, List.mem_filter] at he
            obtain rfl := hcoh.unique he.1 hd.1 (hname.trans hd.2.symm)
            simp at he
          · refine ⟨_, rfl, rfl, hd.2, ?_⟩
            simp [onOutgoingAlert, h.placed.mobility]
    · push Not at hfire
      apply Turn.waits (hc.pending_iff hcoh halert hfire)
      · intro out hout hname
        rcases heff.sent out hout (hname ▸ ⟨zor, hz, hgeo⟩) with hsome | ⟨d, hd, hexp, hdname⟩
        · exact halert (hname ▸ hsome)
        · exact hfire d ⟨hd, hdname.trans hname⟩ hexp
      · intro now data ingress _ hev hname
        exact absurd hname (hnot now data ingress hev)

/-- A contender stays one. -/
theorem Contender.effect (h : Contender P zor names name firstPos n node)
    (heff : Effect infra node ev o) (hz : extractZoR name = some zor) (hgeo : zor.IsGeographic)
    (hev : ∀ name, ev.alert = some name → name ∈ names)
    (hsender : ∀ now data ingress, ev = .receive now data ingress → data.name = name →
      data.senderPos ≠ none)
    (hstatic : ∀ pos, ev ≠ .move pos) (hno : ev ≠ .hello true) :
    Contender P zor names name firstPos n o.node := by
  have hc := heff.case_of_vehicle h.placed.type
  refine ⟨h.placed.effect heff hstatic hno, hc.sound h.sound hev,
    (hc.room h.sound.room hev).2.1 name h.stored, ?_⟩
  by_cases halert : ev.alert = some name
  · obtain ⟨now, data, ingress, rfl, rfl⟩ := NodeEvent.alert_eq_some halert
    obtain ⟨senderPos, hpos⟩ := Option.ne_none_iff_exists'.mp (hsender _ _ _ rfl rfl)
    rcases hc.duplicate_copy hz hgeo h.placed.mobility hpos h.stored with
      ⟨-, -, hnode⟩ | ⟨-, hnode⟩
    · rw [hnode, cancel_alertStore]
      exact h.entry
    · rw [hnode]
      exact h.entry
  · rw [hc.get_eq h.sound.room hev halert]
    exact h.entry

/-- The first copy of the alert makes a vehicle a contender with one pending
relay, on its V2V face. -/
theorem contender_of_first {now : ℕ} {data : Data F} {ingress : NfdFace}
    (hv : P.Vehicle zor n node) (hs : node.Sound names) (hmem : data.name ∈ names)
    (hnew : ¬ node.ctx.alertStore.isDuplicate data.name) (hz : extractZoR data.name = some zor)
    (hgeo : zor.IsGeographic) (hpos : data.senderPos = some firstPos)
    (heff : Effect infra node (.receive now data ingress) o) :
    Contender P zor names data.name firstPos n o.node ∧ (∃ d, o.node.Pending data.name d) ∧
      ∀ d, o.node.Pending data.name d →
        d.due = now + P.delay data.size firstPos n ∧ d.egress = P.v2v n := by
  have hev : ∀ name, (NodeEvent.receive now data ingress).alert = some name → name ∈ names := by
    intro name hname
    rw [NodeEvent.alert_receive _ _ hz hgeo] at hname
    obtain rfl := Option.some.inj hname
    exact hmem
  have hc := heff.case_of_vehicle hv.type
  have hplaced := hv.effect heff (by simp) (by simp)
  have hsound := hc.sound hs hev
  have hnone : ∀ d ∈ node.events, d.data.name ≠ data.name := by
    intro d hd hname
    exact hnew (hs.stored_of_pending ⟨hd, hname⟩)
  cases hc with
  | @geographic _ _ _ zor' nodePos _ hz' _ hm hcase =>
      obtain rfl := Option.some.inj (hz.symm.trans hz')
      obtain rfl := Option.some.inj (hv.mobility.symm.trans hm)
      cases hcase with
      | noSender hno _ => simp [hno] at hpos
      | origin _ hno _ _ => simp [hno] at hpos
      | cancelled _ _ hdup _ _ => exact absurd hdup hnew
      | duplicate _ _ hdup _ => exact absurd hdup hnew
      | closer _ _ _ hout _ => exact absurd hv.inside hout
      | noFace _ _ _ _ hno =>
          have hsome := relayOn_isSome data ingress (data.senderType.getD .none) hv.noRsu
            (hv.v2v ▸ hv.face.1) (hv.v2v ▸ hv.face.2)
          simp [hno] at hsome
      | deferred senderPos face data' hpos' _ _ hrelay =>
          obtain rfl := Option.some.inj (hpos.symm.trans hpos')
          let entry : AlertStore.Entry F := ⟨data.name, data.senderType.getD .none, firstPos⟩
          have hroom := hs.room.lt hmem hnew
          have hdup : (node.ctx.alertStore.insertOrUpdate entry).isDuplicate entry.name :=
            AlertStore.isDuplicate_insertOrUpdate hnew hroom
          have hget : (node.ctx.alertStore.insertOrUpdate entry).get entry.name = some entry :=
            AlertStore.get_insertOrUpdate_self hnew hroom
          refine ⟨⟨hplaced, hsound, hdup, entry, hget, rfl⟩, ?_, ?_⟩
          · exact ⟨_, List.mem_append_right _ List.mem_cons_self, (relayOn_data hrelay).1⟩
          · rintro d ⟨hd, hname⟩
            rcases List.mem_append.mp hd with hd | hd
            · exact absurd hname (hnone d hd)
            · rw [List.mem_singleton.mp hd, hv.delay_eq, relayOn_face hv.noRsu hrelay, hv.v2v]
              exact ⟨rfl, rfl⟩
  | ignored hno =>
      rcases hno with hno | ⟨hno, _⟩
      · exact absurd hgeo (hno zor hz)
      · simp [hv.mobility] at hno

end Turn

end Node

/-! ## The contention -/

namespace Net

/-- A relay of the alert is pending at the node. -/
def Waits (net : Net F) (name : Name F) (n : NodeId) : Prop :=
  ∃ node d, net.nodes n = some node ∧ node.Pending name d

/-- What the clock demands of the relays of an alert: a timer expires when it is
due, the earliest first, and copies are handled after the timers that expire when
they are sent and before the later ones. -/
structure Orderly (name : Name F) (net : Net F) (l : Label F) : Prop where
  copies : ∀ c, l.2 = .deliver c → c.data.name = name → ∀ n node d, net.nodes n = some node →
    node.Pending name d → c.sentAt < d.due
  timers : ∀ n node d, l.2 = .occur n (.expire d.id) → net.nodes n = some node →
    node.Pending name d → l.1 = d.due ∧
      (∀ c ∈ net.inFlight, c.data.name = name → d.due ≤ c.sentAt) ∧
      ∀ m node' e, net.nodes m = some node' → node'.Pending name e → d.due ≤ e.due

/-- The vehicles of a placement hear each other on their V2V faces, and all have
just handled the same first copy of an alert, at the time `now`. In the run that
follows they stay where they are, meet no RSU and drive no alert out of a store. -/
structure Contends (infra : Infrastructure F) (medium : Medium F) (P : Placement F)
    (names : NodeId → Finset (Name F)) (zor : ZoR F) (now : ℕ) (data : Data F)
    (firstPos : Point F) (net₀ : Net F) (ls : List (Label F)) (net : Net F) : Prop where
  run : Run (Step infra medium) net₀ ls net
  zone : extractZoR data.name = some zor
  geographic : zor.IsGeographic
  sender : data.senderPos = some firstPos
  vehicles : ∀ n, n ∈ P.ids ↔ (net₀.nodes n).isSome
  first : ∀ n node, net₀.nodes n = some node → ∃ before ingress o, P.Vehicle zor n before ∧
    before.Sound (names n) ∧ ¬ before.ctx.alertStore.isDuplicate data.name ∧
    before.Handles infra (.receive now data ⟨ingress, .nonLocal⟩) o ∧ node = o.node
  hears : ∀ nodes, ∀ n ∈ P.ids, ∀ m ∈ P.ids, m ≠ n → ∃ ingress,
    (m, ingress) ∈ medium nodes n (P.v2v n)
  silent : (∀ c ∈ net₀.inFlight, c.data.name ≠ data.name) ∧
    ∀ n ∈ P.ids, ¬ net₀.Sent n data.name
  room : ∀ n ∈ P.ids, data.name ∈ names n
  noEviction : ∀ l ∈ ls, ∀ n ev name, Label.event l = some (n, ev) → ev.alert = some name →
    name ∈ names n
  noOrigin : ∀ l ∈ ls, ∀ n now' data' ingress, l.2 = .occur n (.receive now' data' ingress) →
    data'.name ≠ data.name
  noLoss : ∀ l ∈ ls, ∀ c, l.2 = .lose c → c.data.name ≠ data.name
  static : ∀ l ∈ ls, ∀ n ev, Label.event l = some (n, ev) → ∀ pos, ev ≠ .move pos
  noRsu : ∀ l ∈ ls, ∀ n ev, Label.event l = some (n, ev) → ev ≠ .hello true
  orderly : ∀ pre l post t, ls = pre ++ l :: post → Run (Step infra medium) net₀ pre t →
    Orderly data.name t l

end Net

/-- The vehicle has the least delay. -/
def Placement.Least (P : Placement F) (size : ℕ) (firstPos : Point F) (n : NodeId) : Prop :=
  ∀ m ∈ P.ids, P.delay size firstPos n ≤ P.delay size firstPos m

theorem Placement.exists_least (P : Placement F) (size : ℕ) (firstPos : Point F) {n : NodeId}
    (h : n ∈ P.ids) : ∃ m ∈ P.ids, P.Least size firstPos m := by
  have hmem : n ∈ P.ids.toFinset := List.mem_toFinset.mpr h
  obtain ⟨m, hm, hle⟩ := P.ids.toFinset.exists_min_image (P.delay size firstPos) ⟨n, hmem⟩
  refine ⟨m, List.mem_toFinset.mp hm, ?_⟩
  intro k hk
  exact hle k (List.mem_toFinset.mpr hk)

namespace Net

/-- The state of the contention. Only vehicles of least delay transmit, each of
them still waits or has transmitted, and once one has, a copy is on its way to
every other vehicle that waits. -/
structure Race (P : Placement F) (names : NodeId → Finset (Name F)) (zor : ZoR F) (now : ℕ)
    (data : Data F) (firstPos : Point F) (net : Net F) : Prop where
  vehicles : ∀ n, n ∈ P.ids ↔ (net.nodes n).isSome
  contender : ∀ n node, net.nodes n = some node →
    node.Contender P zor (names n) data.name firstPos n
  due : ∀ n node d, net.nodes n = some node → node.Pending data.name d →
    d.due = now + P.delay data.size firstPos n ∧ d.egress = P.v2v n
  copies : ∀ c ∈ net.inFlight, c.data.name = data.name → ∃ m ∈ P.ids,
    P.Least data.size firstPos m ∧ c.data.senderPos = some (P.pos m) ∧
      c.sentAt = now + P.delay data.size firstPos m
  sent : ∀ n ∈ P.ids, net.Sent n data.name → P.Least data.size firstPos n
  least : ∀ n ∈ P.ids, P.Least data.size firstPos n → net.Waits data.name n ∨ net.Sent n data.name
  others : (∃ m ∈ P.ids, net.Sent m data.name) → ∀ n ∈ P.ids, ¬ P.Least data.size firstPos n →
    net.Waits data.name n → ∃ c ∈ net.inFlight, c.dst = n ∧ c.data.name = data.name

section React

variable {medium : Medium F} {net : Net F} {t : ℕ} {n : NodeId} {deferred : Bool} {o : Outcome F}
  {rest : List (Copy F)} {name : Name F}

theorem waits_react_self : (net.react medium t n deferred o rest).Waits name n ↔
    ∃ d, o.node.Pending name d := by
  constructor
  · rintro ⟨node, d, hnode, hd⟩
    rw [react_nodes_self] at hnode
    obtain rfl := Option.some.inj hnode
    exact ⟨d, hd⟩
  · rintro ⟨d, hd⟩
    exact ⟨o.node, d, react_nodes_self, hd⟩

theorem waits_react_of_ne {m : NodeId} (h : m ≠ n) :
    (net.react medium t n deferred o rest).Waits name m ↔ net.Waits name m := by
  simp only [Waits, react_nodes_of_ne h]

end React

theorem Contends.race_nil {infra : Infrastructure F} {medium : Medium F} {P : Placement F}
    {names : NodeId → Finset (Name F)} {zor : ZoR F} {now : ℕ} {data : Data F} {firstPos : Point F}
    {net₀ net : Net F} {ls : List (Label F)}
    (h : Contends infra medium P names zor now data firstPos net₀ ls net) :
    Race P names zor now data firstPos net₀ ∧ ∀ n ∈ P.ids, net₀.Waits data.name n := by
  have hfirst : ∀ n node, net₀.nodes n = some node →
      node.Contender P zor (names n) data.name firstPos n ∧ (∃ d, node.Pending data.name d) ∧
        ∀ d, node.Pending data.name d →
          d.due = now + P.delay data.size firstPos n ∧ d.egress = P.v2v n := by
    intro n node hnode
    have hn : n ∈ P.ids := by
      rw [h.vehicles, hnode]
      rfl
    obtain ⟨before, ingress, o, hv, hs, hnew, hhandles, rfl⟩ := h.first n node hnode
    exact Node.contender_of_first hv hs (h.room n hn) hnew h.zone h.geographic h.sender
      hhandles.effect
  have hwaits : ∀ n ∈ P.ids, net₀.Waits data.name n := by
    intro n hn
    obtain ⟨node, hnode⟩ := Option.isSome_iff_exists.mp ((h.vehicles n).mp hn)
    obtain ⟨d, hd⟩ := (hfirst n node hnode).2.1
    exact ⟨node, d, hnode, hd⟩
  refine ⟨⟨h.vehicles, ?_, ?_, ?_, ?_, ?_, ?_⟩, hwaits⟩
  · intro n node hnode
    exact (hfirst n node hnode).1
  · intro n node d hnode hd
    exact (hfirst n node hnode).2.2 d hd
  · intro c hc hname
    exact absurd hname (h.silent.1 c hc)
  · intro n hn hsent
    exact absurd hsent (h.silent.2 n hn)
  · intro n hn _
    exact .inl (hwaits n hn)
  · rintro ⟨m, hm, hsent⟩
    exact absurd hsent (h.silent.2 m hm)

section Step

variable {infra : Infrastructure F} {medium : Medium F} {P : Placement F}
  {names : NodeId → Finset (Name F)} {zor : ZoR F} {now : ℕ} {data : Data F} {firstPos : Point F}
  {net : Net F} {l : Label F} {n : NodeId} {node : Node F} {ev : NodeEvent F} {o : Outcome F}
  {rest : List (Copy F)}

theorem Race.mem_ids (h : Race P names zor now data firstPos net)
    (hnode : net.nodes n = some node) :
    n ∈ P.ids := by
  rw [h.vehicles, hnode]
  rfl

/-- The node that handles an event stays a contender, and the others stay as
they are. -/
theorem Race.of_react (h : Race P names zor now data firstPos net)
    (hnode : net.nodes n = some node)
    (hcont : o.node.Contender P zor (names n) data.name firstPos n)
    (hpend : ∀ d, o.node.Pending data.name d → node.Pending data.name d)
    (hcopies : ∀ c ∈ (net.react medium l.1 n ev.isExpiry o rest).inFlight,
      c.data.name = data.name → ∃ m ∈ P.ids, P.Least data.size firstPos m ∧
        c.data.senderPos = some (P.pos m) ∧ c.sentAt = now + P.delay data.size firstPos m)
    (hsent : ∀ m ∈ P.ids, (net.react medium l.1 n ev.isExpiry o rest).Sent m data.name →
      P.Least data.size firstPos m)
    (hleast : P.Least data.size firstPos n →
      (net.react medium l.1 n ev.isExpiry o rest).Waits data.name n ∨
        (net.react medium l.1 n ev.isExpiry o rest).Sent n data.name)
    (hothers : (∃ m ∈ P.ids, (net.react medium l.1 n ev.isExpiry o rest).Sent m data.name) →
      ∀ m ∈ P.ids, ¬ P.Least data.size firstPos m →
        (net.react medium l.1 n ev.isExpiry o rest).Waits data.name m →
          ∃ c ∈ (net.react medium l.1 n ev.isExpiry o rest).inFlight,
            c.dst = m ∧ c.data.name = data.name) :
    Race P names zor now data firstPos (net.react medium l.1 n ev.isExpiry o rest) := by
  refine ⟨?_, ?_, ?_, hcopies, hsent, ?_, hothers⟩
  · intro m
    rw [h.vehicles]
    by_cases hm : m = n
    · rw [hm, react_nodes_self, hnode]
      rfl
    · rw [react_nodes_of_ne hm]
  · intro m node' hnode'
    rcases react_nodes_cases hnode' with ⟨rfl, rfl⟩ | ⟨_, hnode'⟩
    · exact hcont
    · exact h.contender m node' hnode'
  · intro m node' d hnode' hd
    rcases react_nodes_cases hnode' with ⟨rfl, rfl⟩ | ⟨_, hnode'⟩
    · exact h.due m node d hnode (hpend d hd)
    · exact h.due m node' d hnode' hd
  · intro m hm hmin
    by_cases hmn : m = n
    · subst hmn
      exact hleast hmin
    · rw [waits_react_of_ne hmn, sent_react]
      rcases h.least m hm hmin with hwaits | hsent'
      · exact .inl hwaits
      · exact .inr (.inl hsent')

omit [Arith F] in
theorem event_deliver {c : Copy F} (hl : l.2 = .deliver c) (hev : Label.event l = some (n, ev)) :
    n = c.dst ∧ ev = .receive l.1 c.data ⟨c.ingress, .nonLocal⟩ := by
  rcases l with ⟨t, a⟩
  obtain rfl : a = .deliver c := hl
  obtain ⟨rfl, rfl⟩ := Prod.mk.inj (Option.some.inj hev)
  exact ⟨rfl, rfl⟩

/-- A reaction that does not transmit the alert adds no copy of it. -/
theorem inFlight_of_silent {name : Name F} (hsilent : ∀ out ∈ o.sent, out.data.name ≠ name)
    {c : Copy F} (hc : c ∈ (net.react medium l.1 n ev.isExpiry o rest).inFlight)
    (hname : c.data.name = name) : c ∈ rest := by
  rcases mem_react_inFlight.mp hc with hc | ⟨i, out, hout, _, hdata, _⟩
  · exact hc
  · rw [hdata] at hname
    exact absurd hname (hsilent out (List.mem_of_getElem? hout))

theorem sent_of_silent {name : Name F} (hsilent : ∀ out ∈ o.sent, out.data.name ≠ name)
    (m : NodeId) : (net.react medium l.1 n ev.isExpiry o rest).Sent m name ↔ net.Sent m name := by
  rw [sent_react]
  constructor
  · rintro (h | ⟨_, out, hout, hname⟩)
    · exact h
    · exact absurd hname (hsilent out hout)
  · exact .inl

/-- A copy that reaches a vehicle of more than the least delay suppresses its
relay. -/
theorem Race.suppressed (h : Race P names zor now data firstPos net)
    (hmono : ∀ m k, P.delay data.size firstPos m < P.delay data.size firstPos k →
      firstPos.distanceFromPoint (P.pos k) < firstPos.distanceFromPoint (P.pos m))
    {c : Copy F} (hc : c ∈ net.inFlight) (hname : c.data.name = data.name)
    (hnot : ¬ P.Least data.size firstPos n) {senderPos : Point F}
    (hpos : c.data.senderPos = some senderPos) :
    firstPos.distanceFromPoint (P.pos n) < firstPos.distanceFromPoint senderPos := by
  obtain ⟨m, _, hmin, hsender, _⟩ := h.copies c hc hname
  obtain rfl := Option.some.inj (hpos.symm.trans hsender)
  apply hmono
  by_contra hle
  exact hnot fun k hk => (not_lt.mp hle).trans (hmin k hk)

theorem Race.waits (h : Race P names zor now data firstPos net)
    (hmono : ∀ m k, P.delay data.size firstPos m < P.delay data.size firstPos k →
      firstPos.distanceFromPoint (P.pos k) < firstPos.distanceFromPoint (P.pos m))
    (hnode : net.nodes n = some node)
    (hcont : o.node.Contender P zor (names n) data.name firstPos n)
    (hev : Label.event l = some (n, ev)) (hsub : ∀ c ∈ rest, c ∈ net.inFlight)
    (hleft : ∀ c ∈ net.inFlight, c ∈ rest ∨ l.2 = .deliver c)
    (hpend : ∀ d, o.node.Pending data.name d ↔ node.Pending data.name d)
    (hsilent : ∀ out ∈ o.sent, out.data.name ≠ data.name)
    (hkeep : ∀ now' data' ingress senderPos, ev = .receive now' data' ingress →
      data'.name = data.name → data'.senderPos = some senderPos →
        (∃ d, node.Pending data.name d) →
          ¬ firstPos.distanceFromPoint (P.pos n) < firstPos.distanceFromPoint senderPos) :
    Race P names zor now data firstPos (net.react medium l.1 n ev.isExpiry o rest) := by
  have hsent : ∀ m, (net.react medium l.1 n ev.isExpiry o rest).Sent m data.name ↔
      net.Sent m data.name := sent_of_silent hsilent
  have hwaits : ∀ m, (net.react medium l.1 n ev.isExpiry o rest).Waits data.name m ↔
      net.Waits data.name m := by
    intro m
    by_cases hm : m = n
    · subst hm
      rw [waits_react_self]
      constructor
      · rintro ⟨d, hd⟩
        exact ⟨node, d, hnode, (hpend d).mp hd⟩
      · rintro ⟨node', d, hnode', hd⟩
        obtain rfl := Option.some.inj (hnode.symm.trans hnode')
        exact ⟨d, (hpend d).mpr hd⟩
    · exact waits_react_of_ne hm
  apply h.of_react hnode hcont fun d hd => (hpend d).mp hd
  · intro c hc hname
    exact h.copies c (hsub c (inFlight_of_silent hsilent hc hname)) hname
  · intro m hm hm'
    exact h.sent m hm ((hsent m).mp hm')
  · intro hmin
    rw [hwaits, hsent]
    exact h.least n (h.mem_ids hnode) hmin
  · rintro ⟨m, hm, hm'⟩ k hk hnot hwait
    rw [hwaits] at hwait
    obtain ⟨c, hc, rfl, hname⟩ := h.others ⟨m, hm, (hsent m).mp hm'⟩ k hk hnot hwait
    rcases hleft c hc with hrest | hl
    · exact ⟨c, mem_react_inFlight.mpr (.inl hrest), rfl, hname⟩
    · obtain ⟨rfl, rfl⟩ := event_deliver hl hev
      obtain ⟨w, _, _, hpos, _⟩ := h.copies c hc hname
      obtain ⟨node', d, hnode', hd⟩ := hwait
      obtain rfl := Option.some.inj (hnode.symm.trans hnode')
      exact absurd (h.suppressed hmono hc hname hnot hpos)
        (hkeep _ _ _ _ rfl hname hpos ⟨d, hd⟩)

/-- The relay that expires is one of least delay, and every other vehicle that
waits gets a copy. -/
theorem Race.fires (h : Race P names zor now data firstPos net)
    (hhears : ∀ nodes, ∀ n ∈ P.ids, ∀ m ∈ P.ids, m ≠ n → ∃ ingress,
      (m, ingress) ∈ medium nodes n (P.v2v n))
    (hord : Orderly data.name net l) (hnode : net.nodes n = some node)
    (hcont : o.node.Contender P zor (names n) data.name firstPos n) {d : Deferred F}
    (hd : node.Pending data.name d) (hl : l.2 = .occur n (.expire d.id))
    (hsub : ∀ c ∈ rest, c ∈ net.inFlight) (hnone : ∀ e, ¬ o.node.Pending data.name e)
    {out : Outgoing F} (hout : o.sent = [out]) (hegress : out.egress = d.egress)
    (hname : out.data.name = data.name) (hpos : out.data.senderPos = some (P.pos n)) :
    Race P names zor now data firstPos (net.react medium l.1 n ev.isExpiry o rest) := by
  obtain ⟨htime, hcopies, hfirst⟩ := hord.timers n node d hl hnode hd
  obtain ⟨hdue, hface⟩ := h.due n node d hnode hd
  have hn := h.mem_ids hnode
  have hwait : net.Waits data.name n := ⟨node, d, hnode, hd⟩
  have hmin : P.Least data.size firstPos n := by
    by_contra hnot
    obtain ⟨w, hw, hwmin⟩ := P.exists_least data.size firstPos hn
    rcases h.least w hw hwmin with ⟨node', e, hnode', he⟩ | hsent
    · have hle := hfirst w node' e hnode' he
      rw [hdue, (h.due w node' e hnode' he).1] at hle
      exact hnot fun k hk => (Nat.le_of_add_le_add_left hle).trans (hwmin k hk)
    · obtain ⟨c, hc, _, hcname⟩ := h.others ⟨w, hw, hsent⟩ n hn hnot hwait
      obtain ⟨m, _, hmmin, _, hsentAt⟩ := h.copies c hc hcname
      have hle := hcopies c hc hcname
      rw [hdue, hsentAt] at hle
      exact hnot fun k hk => (Nat.le_of_add_le_add_left hle).trans (hmmin k hk)
  have hsent : (net.react medium l.1 n ev.isExpiry o rest).Sent n data.name := by
    rw [sent_react, hout]
    exact .inr ⟨rfl, out, List.mem_singleton_self out, hname⟩
  apply h.of_react hnode hcont fun e he => absurd he (hnone e)
  · intro c hc hcname
    rcases mem_react_inFlight.mp hc with hc | ⟨i, out', hout', _, hdata, ht⟩
    · exact h.copies c (hsub c hc) hcname
    · rw [hout] at hout'
      obtain rfl := List.mem_singleton.mp (List.mem_of_getElem? hout')
      refine ⟨n, hn, hmin, ?_, ?_⟩
      · rw [hdata]
        exact hpos
      · rw [ht, htime, hdue]
  · intro m hm hm'
    rcases sent_react.mp hm' with hm' | ⟨rfl, _⟩
    · exact h.sent m hm hm'
    · exact hmin
  · intro _
    exact .inr hsent
  · rintro _ m hm hnot _
    have hne : m ≠ n := by
      rintro rfl
      exact hnot hmin
    obtain ⟨ingress, hheard⟩ := hhears (Function.update net.nodes n (some o.node)) n hn m hm hne
    refine ⟨⟨m, ingress, { out.data with uid := net.log.length + 0 }, l.1⟩, ?_, rfl, hname⟩
    refine mem_react_inFlight.mpr (.inr ⟨0, out, ?_, ?_, rfl, rfl⟩)
    · rw [hout]
      rfl
    · rw [hegress, hface]
      exact hheard

/-- A relay that is cancelled is not one of least delay. -/
theorem Race.cancels (h : Race P names zor now data firstPos net)
    (hord : Orderly data.name net l) (hnode : net.nodes n = some node)
    (hcont : o.node.Contender P zor (names n) data.name firstPos n) {c : Copy F}
    (hc : c ∈ net.inFlight) (hl : l.2 = .deliver c) (hdst : c.dst = n)
    (hname : c.data.name = data.name) (hsub : ∀ c ∈ rest, c ∈ net.inFlight)
    (hleft : ∀ c ∈ net.inFlight, c ∈ rest ∨ l.2 = .deliver c)
    (hwas : ∃ d, node.Pending data.name d) (hnone : ∀ e, ¬ o.node.Pending data.name e)
    (hsent : o.sent = []) :
    Race P names zor now data firstPos (net.react medium l.1 n ev.isExpiry o rest) := by
  have hsilent : ∀ out ∈ o.sent, out.data.name ≠ data.name := by simp [hsent]
  have hsame : ∀ m, (net.react medium l.1 n ev.isExpiry o rest).Sent m data.name ↔
      net.Sent m data.name := sent_of_silent hsilent
  have hnot : ¬ P.Least data.size firstPos n := by
    intro hmin
    obtain ⟨d, hd⟩ := hwas
    obtain ⟨m, hm, _, _, hsentAt⟩ := h.copies c hc hname
    have hlt := hord.copies c hl hname n node d hnode hd
    rw [hsentAt, (h.due n node d hnode hd).1] at hlt
    exact absurd (hmin m hm) (Nat.not_le_of_lt (Nat.lt_of_add_lt_add_left hlt))
  apply h.of_react hnode hcont fun e he => absurd he (hnone e)
  · intro x hx hxname
    exact h.copies x (hsub x (inFlight_of_silent hsilent hx hxname)) hxname
  · intro m hm hm'
    exact h.sent m hm ((hsame m).mp hm')
  · intro hmin
    exact absurd hmin hnot
  · rintro ⟨m, hm, hm'⟩ k hk hknot hwait
    have hne : k ≠ n := by
      rintro rfl
      obtain ⟨e, he⟩ := waits_react_self.mp hwait
      exact hnone e he
    rw [waits_react_of_ne hne] at hwait
    obtain ⟨x, hx, rfl, hxname⟩ := h.others ⟨m, hm, (hsame m).mp hm'⟩ k hk hknot hwait
    rcases hleft x hx with hrest | hx'
    · exact ⟨x, mem_react_inFlight.mpr (.inl hrest), rfl, hxname⟩
    · obtain rfl := Action.deliver.inj (hl.symm.trans hx')
      exact absurd hdst hne

end Step

section Run

variable {infra : Infrastructure F} {medium : Medium F} {P : Placement F}
  {names : NodeId → Finset (Name F)} {zor : ZoR F} {now : ℕ} {data : Data F} {firstPos : Point F}
  {net₀ net final net' : Net F} {ls : List (Label F)} {l : Label F}

/-- What a step means at the vehicle that handles it. -/
theorem Race.turn (hc : Contends infra medium P names zor now data firstPos net₀ ls final)
    (h : Race P names zor now data firstPos net) (hl : l ∈ ls) {n : NodeId} {ev : NodeEvent F}
    {node : Node F} {o : Outcome F} (hev : Label.event l = some (n, ev))
    (hnode : net.nodes n = some node) (hhandles : node.Handles infra ev o)
    (hsource : net.Source l n ev) :
    node.Turn data.name firstPos (P.pos n) ev o ∧
      o.node.Contender P zor (names n) data.name firstPos n := by
  have hcont := h.contender n node hnode
  have hsender : ∀ now data' ingress, ev = .receive now data' ingress → data'.name = data.name →
      data'.senderPos ≠ none := by
    rintro now' data' ingress rfl hname
    rcases hsource with ⟨hocc, _⟩ | ⟨c, hflight, _, _, heq⟩
    · exact absurd hname (hc.noOrigin l hl n now' data' ingress hocc)
    · obtain ⟨_, rfl, _⟩ := NodeEvent.receive.inj heq
      obtain ⟨m, _, _, hpos, _⟩ := h.copies c hflight hname
      simp [hpos]
  refine ⟨hcont.turn hhandles.effect hc.zone hc.geographic hsender,
    hcont.effect hhandles.effect hc.zone hc.geographic ?_ hsender ?_ ?_⟩
  · intro name hname
    exact hc.noEviction l hl n ev name hev hname
  · exact hc.static l hl n ev hev
  · exact hc.noRsu l hl n ev hev

theorem Race.step (hc : Contends infra medium P names zor now data firstPos net₀ ls final)
    (hmono : ∀ m k, P.delay data.size firstPos m < P.delay data.size firstPos k →
      firstPos.distanceFromPoint (P.pos k) < firstPos.distanceFromPoint (P.pos m))
    (h : Race P names zor now data firstPos net) (hl : l ∈ ls) (hord : Orderly data.name net l)
    (hstep : Step infra medium net l net') : Race P names zor now data firstPos net' := by
  cases hstep.change with
  | medium hev hnodes hlog hsub hkeep =>
      have hsent : ∀ m, net'.Sent m data.name ↔ net.Sent m data.name := by
        intro m
        rw [Sent, Sent, hlog]
      have hwaits : ∀ m, net'.Waits data.name m ↔ net.Waits data.name m := by
        intro m
        rw [Waits, Waits, hnodes]
      constructor
      · rw [hnodes]
        exact h.vehicles
      · rw [hnodes]
        exact h.contender
      · rw [hnodes]
        exact h.due
      · intro c hflight
        exact h.copies c (hsub c hflight)
      · intro n hn hn'
        exact h.sent n hn ((hsent n).mp hn')
      · intro n hn hmin
        rw [hwaits, hsent]
        exact h.least n hn hmin
      · rintro ⟨m, hm, hm'⟩ n hn hnot hwait
        obtain ⟨c, hflight, hdst, hname⟩ :=
          h.others ⟨m, hm, (hsent m).mp hm'⟩ n hn hnot ((hwaits n).mp hwait)
        rcases hkeep c hflight with hflight | hlose
        · exact ⟨c, hflight, hdst, hname⟩
        · exact absurd hname (hc.noLoss l hl c hlose)
  | node n ev node o rest hev hnode hhandles hsource hsub hkeep hnet =>
      rw [hnet]
      obtain ⟨hturn, hcont⟩ := h.turn hc hl hev hnode hhandles hsource
      cases hturn with
      | waits hpend hsent hsame =>
          exact h.waits hmono hnode hcont hev hsub hkeep hpend hsent hsame
      | fires d hd hexp hnone hsent =>
          obtain ⟨out, hout, hegress, hname, hpos⟩ := hsent
          have hocc : l.2 = .occur n (.expire d.id) := by
            rcases hsource with ⟨hocc, _⟩ | ⟨c, _, _, _, heq⟩
            · rw [hocc, hexp]
            · cases hexp.symm.trans heq
          exact h.fires hc.hears hord hnode hcont hd hocc hsub hnone hout hegress hname hpos
      | cancels now' data' ingress senderPos hrecv hname hpos hwas hnone hsent =>
          subst hrecv
          rcases hsource with ⟨hocc, _⟩ | ⟨c, hflight, hdel, hdst, heq⟩
          · exact absurd hname (hc.noOrigin l hl n now' data' ingress hocc)
          · obtain ⟨_, rfl, _⟩ := NodeEvent.receive.inj heq
            exact h.cancels hord hnode hcont hflight hdel hdst.symm hname hsub hkeep hwas hnone
              hsent

theorem Contends.race (hc : Contends infra medium P names zor now data firstPos net₀ ls final)
    (hmono : ∀ m k, P.delay data.size firstPos m < P.delay data.size firstPos k →
      firstPos.distanceFromPoint (P.pos k) < firstPos.distanceFromPoint (P.pos m))
    {pre post : List (Label F)} (hls : ls = pre ++ post)
    (hrun : Run (Step infra medium) net₀ pre net) :
    Race P names zor now data firstPos net := by
  apply hrun.invariant fun _ t => Race P names zor now data firstPos t
  · exact hc.race_nil.1
  · intro ms t l v rest heq hpre ht hstep
    have hsplit : ls = ms ++ l :: (rest ++ post) := by simp [hls, heq]
    have hl : l ∈ ls := by simp [hsplit]
    exact ht.step hc hmono hl (hc.orderly _ _ _ _ hsplit hpre) hstep

theorem Sent.step {name : Name F} {n : NodeId} (h : net.Sent n name)
    (hstep : Step infra medium net l net') : net'.Sent n name := by
  cases hstep.change with
  | medium _ _ hlog _ _ =>
      rw [Sent, hlog]
      exact h
  | node _ _ _ _ _ _ _ _ _ _ _ hnet =>
      rw [hnet]
      exact sent_react.mpr (.inl h)

theorem Sent.run {name : Name F} {n : NodeId} (h : net.Sent n name)
    (hrun : Run (Step infra medium) net ls net') : net'.Sent n name := by
  apply hrun.invariant fun _ t => t.Sent n name
  · exact h
  · intro _ _ _ _ _ _ _ ht hstep
    exact ht.step hstep

/-- In this step a copy of the alert makes the node give up its relay. -/
def GivesUp (name : Name F) (n : NodeId) (net : Net F) (l : Label F) (net' : Net F) : Prop :=
  net.Waits name n ∧ ¬ net'.Waits name n ∧ ∃ c, l.2 = .deliver c ∧ c.dst = n ∧ c.data.name = name

/-- A vehicle that waits no longer has transmitted or gives up. -/
theorem Race.exit (hc : Contends infra medium P names zor now data firstPos net₀ ls final)
    (h : Race P names zor now data firstPos net) (hl : l ∈ ls)
    (hstep : Step infra medium net l net') {n : NodeId} (hwait : net.Waits data.name n)
    (hnot : ¬ net'.Waits data.name n) :
    net'.Sent n data.name ∨ GivesUp data.name n net l net' := by
  cases hstep.change with
  | medium _ hnodes _ _ _ =>
      rw [Waits, hnodes] at hnot
      exact absurd hwait hnot
  | node m ev node o rest hev hnode hhandles hsource _ _ hnet =>
      by_cases hmn : n = m
      · subst hmn
        obtain ⟨node', d, hnode', hd⟩ := hwait
        obtain rfl := Option.some.inj (hnode.symm.trans hnode')
        obtain ⟨hturn, -⟩ := h.turn hc hl hev hnode hhandles hsource
        cases hturn with
        | waits hpend _ _ =>
            rw [hnet, waits_react_self] at hnot
            exact absurd ⟨d, (hpend d).mpr hd⟩ hnot
        | fires e _ _ _ hsent =>
            obtain ⟨out, hout, _, hname, _⟩ := hsent
            refine .inl ?_
            rw [hnet, sent_react, hout]
            exact .inr ⟨rfl, out, List.mem_singleton_self out, hname⟩
        | cancels now' data' ingress _ hrecv hname _ _ _ _ =>
            refine .inr ⟨⟨node, d, hnode, hd⟩, hnot, ?_⟩
            subst hrecv
            rcases hsource with ⟨hocc, _⟩ | ⟨c, _, hdel, hdst, heq⟩
            · exact absurd hname (hc.noOrigin l hl n now' data' ingress hocc)
            · obtain ⟨_, rfl, _⟩ := NodeEvent.receive.inj heq
              exact ⟨c, hdel, hdst.symm, hname⟩
      · rw [hnet, waits_react_of_ne hmn] at hnot
        exact absurd hwait hnot

end Run

end Net

theorem Placement.delay_antitone {P : Placement ℝ} (hradius : 0 < P.txRadius) {size : ℕ}
    {firstPos : Point ℝ} {n m : NodeId}
    (hle : (P.pos n).distanceFromPoint firstPos ≤ (P.pos m).distanceFromPoint firstPos) :
    P.delay size firstPos m ≤ P.delay size firstPos n :=
  deferDelay_antitone hradius hle

theorem Placement.farther_of_delay {P : Placement ℝ} (hradius : 0 < P.txRadius) {size : ℕ}
    {firstPos : Point ℝ} (m k : NodeId)
    (hlt : P.delay size firstPos m < P.delay size firstPos k) :
    firstPos.distanceFromPoint (P.pos k) < firstPos.distanceFromPoint (P.pos m) := by
  by_contra hle
  rw [not_lt, Point.distanceFromPoint_comm firstPos, Point.distanceFromPoint_comm firstPos] at hle
  exact absurd (P.delay_antitone hradius hle) (Nat.not_le_of_lt hlt)

/-- When no relay is left, the vehicles that have transmitted are those of least
delay, and every other vehicle has given up for a copy. The delay falls with the
distance to the first sender and is at most twice its bound, so no vehicle that
has given up is farther from the first sender than one that has transmitted. -/
theorem contention (infra : Infrastructure ℝ) (medium : Medium ℝ) (P : Placement ℝ)
    (names : NodeId → Finset (Name ℝ)) (zor : ZoR ℝ) (now : ℕ) (data : Data ℝ)
    (firstPos : Point ℝ) (net₀ net : Net ℝ) (ls : List (Net.Label ℝ)) (hradius : 0 < P.txRadius)
    (h : Net.Contends infra medium P names zor now data firstPos net₀ ls net)
    (hdone : ∀ n, ¬ net.Waits data.name n) :
    (∀ n ∈ P.ids, net.Sent n data.name ↔
      ∀ m ∈ P.ids, P.delay data.size firstPos n ≤ P.delay data.size firstPos m) ∧
    (∀ n ∈ P.ids, ¬ net.Sent n data.name → ∃ pre l post t t', ls = pre ++ l :: post ∧
      Run (Net.Step infra medium) net₀ pre t ∧ Net.Step infra medium t l t' ∧
        Net.GivesUp data.name n t l t') ∧
    (∀ n m, (P.pos n).distanceFromPoint firstPos ≤ (P.pos m).distanceFromPoint firstPos →
      P.delay data.size firstPos m ≤ P.delay data.size firstPos n) ∧
    (0 < P.txRate → ∀ n, (P.delay data.size firstPos n : ℝ) ∈
      Set.Icc 0 (2 * (tMaxInMs P.context data.size * 1000000))) ∧
    ∀ n ∈ P.ids, ∀ m ∈ P.ids, net.Sent n data.name → ¬ net.Sent m data.name →
      (P.pos m).distanceFromPoint firstPos ≤ (P.pos n).distanceFromPoint firstPos := by
  have hmono : ∀ m k, P.delay data.size firstPos m < P.delay data.size firstPos k →
      firstPos.distanceFromPoint (P.pos k) < firstPos.distanceFromPoint (P.pos m) :=
    P.farther_of_delay hradius
  have hrace := h.race hmono (List.append_nil ls).symm h.run
  have hsent : ∀ n ∈ P.ids, net.Sent n data.name ↔ P.Least data.size firstPos n := by
    intro n hn
    constructor
    · exact hrace.sent n hn
    · intro hmin
      exact (hrace.least n hn hmin).resolve_left (hdone n)
  refine ⟨hsent, ?_, ?_, ?_, ?_⟩
  · intro n hn hnot
    obtain ⟨pre, l, post, t, t', hls, hpre, hstep, hwait, hno, hrest⟩ :=
      h.run.exists_exit (fun net => net.Waits data.name n) (h.race_nil.2 n hn) (hdone n)
    have hl : l ∈ ls := by simp [hls]
    refine ⟨pre, l, post, t, t', hls, hpre, hstep, ?_⟩
    rcases (h.race hmono hls hpre).exit h hl hstep hwait hno with hsent' | hgives
    · exact absurd (hsent'.run hrest) hnot
    · exact hgives
  · intro n m hle
    exact P.delay_antitone hradius hle
  · intro hrate n
    exact ⟨Nat.cast_nonneg _, deferDelay_le _ (tMaxInMs_nonneg hradius hrate)⟩
  · intro n hn m hm hn' hm'
    have hlt : P.delay data.size firstPos n < P.delay data.size firstPos m := by
      by_contra hle
      exact hm' ((hsent m hm).mpr fun k hk =>
        (not_lt.mp hle).trans ((hsent n hn).mp hn' k hk))
    have hfar := hmono n m hlt
    rw [Point.distanceFromPoint_comm firstPos, Point.distanceFromPoint_comm firstPos] at hfar
    exact hfar.le

/-! ## Two contenders

The vehicles at -5 and at 10 have heard the creator at 0. The relay of the
farther one comes first and cancels the other. -/

namespace Contest

open Row (place heard relayed deferred fired)

noncomputable def placement : Placement ℝ where
  ids := [1, 2]
  nodup := by decide
  pos := place
  v2v := fun _ => 1
  txRadius := Arith.lit 50
  txRate := Arith.lit 3000000

theorem delay_one : placement.delay 375 ⟨0, 0⟩ 1 = 5400300 := by
  have hdist : (place 1).distanceFromPoint ⟨0, 0⟩ = 5 := by
    simp [place, Point.distance_axis]
  change deferDelay placement.context 375 ((place 1).distanceFromPoint ⟨0, 0⟩) = 5400300
  rw [hdist]
  exact Row.delay_near _ rfl rfl

theorem delay_two : placement.delay 375 ⟨0, 0⟩ 2 = 4800266 := by
  have hdist : (place 2).distanceFromPoint ⟨0, 0⟩ = 10 := by
    simp [place, Point.distance_axis]
  change deferDelay placement.context 375 ((place 2).distanceFromPoint ⟨0, 0⟩) = 4800266
  rw [hdist]
  exact Row.delay_far _ rfl rfl

/-- Each of the two hears the other. -/
def medium : Medium ℝ := fun _ n _ => ([1, 2].filter fun m => m ≠ n).map fun m => (m, 1)

noncomputable def state (one two : Node ℝ) (now : ℕ) (inFlight : List (Copy ℝ))
    (log : List (Transmission ℝ)) : Net ℝ where
  now := now
  nodes n := if n = 1 then some one else if n = 2 then some two else none
  inFlight := inFlight
  log := log

theorem state_nodes {one two node : Node ℝ} {now : ℕ} {inFlight : List (Copy ℝ)}
    {log : List (Transmission ℝ)} {n : NodeId}
    (h : (state one two now inFlight log).nodes n = some node) :
    n = 1 ∧ node = one ∨ n = 2 ∧ node = two := by
  simp only [state] at h
  split at h
  · rename_i hn
    exact .inl ⟨hn, (Option.some.inj h).symm⟩
  · split at h
    · rename_i hn
      exact .inr ⟨hn, (Option.some.inj h).symm⟩
    · cases h

noncomputable def one : Node ℝ := deferred 1 5400301
noncomputable def two : Node ℝ := deferred 2 4800267
noncomputable def cancelled : Node ℝ := one.cancel heard.name

noncomputable def net₀ : Net ℝ := state one two 1 [] [Row.tx₁]
noncomputable def net₁ : Net ℝ :=
  state one fired 4800267 [⟨1, 1, relayed, 4800267⟩] [Row.tx₁, Row.tx₂]
noncomputable def net₂ : Net ℝ := state cancelled fired 4800268 [] [Row.tx₁, Row.tx₂]

def labels : List (Net.Label ℝ) :=
  [(4800267, .occur 2 (.expire 0)), (4800268, .deliver ⟨1, 1, relayed, 4800267⟩)]

theorem react_one (a b : Node ℝ) (now t : ℕ) (inFlight rest : List (Copy ℝ))
    (log : List (Transmission ℝ)) (deferred : Bool) (o : Outcome ℝ) :
    (state a b now inFlight log).react medium t 1 deferred o rest =
      state o.node b t (rest ++ Net.copies medium (fun _ => none) t 1 log.length o.sent)
        (log ++ o.sent.map fun out => ⟨1, out.egress, out.data, deferred⟩) := by
  have hnodes : Function.update (state a b now inFlight log).nodes 1 (some o.node) =
      (state o.node b t inFlight log).nodes := by
    funext m
    by_cases hm : m = 1
    · simp [state, hm]
    · simp [state, hm]
  simp only [Net.react, hnodes]
  rfl

theorem react_two (a b : Node ℝ) (now t : ℕ) (inFlight rest : List (Copy ℝ))
    (log : List (Transmission ℝ)) (deferred : Bool) (o : Outcome ℝ) :
    (state a b now inFlight log).react medium t 2 deferred o rest =
      state a o.node t (rest ++ Net.copies medium (fun _ => none) t 2 log.length o.sent)
        (log ++ o.sent.map fun out => ⟨2, out.egress, out.data, deferred⟩) := by
  have hnodes : Function.update (state a b now inFlight log).nodes 2 (some o.node) =
      (state a o.node t inFlight log).nodes := by
    funext m
    by_cases hm : m = 2
    · simp [state, hm]
    · simp [state, hm]
  simp only [Net.react, hnodes]
  rfl

theorem step_fired : Net.Step ⟨∅, ∅⟩ medium net₀ (4800267, .occur 2 (.expire 0)) net₁ := by
  have hlocal : (NodeEvent.expire 0 : NodeEvent ℝ).IsLocal := trivial
  have hnode : net₀.nodes 2 = some two := rfl
  have hcopies : Net.copies medium (fun _ => none) 4800267 2 1
      [⟨1, { relayed with uid := 0 }⟩] = [⟨1, 1, relayed, 4800267⟩] := rfl
  have hstep : Net.Step ⟨∅, ∅⟩ medium net₀ (4800267, .occur 2 (.expire 0)) _ :=
    .occur hlocal hnode Row.handles_fired
  rw [net₀, react_two] at hstep
  rw [net₀, net₁, ← hcopies]
  exact hstep

theorem step_delivered : Net.Step ⟨∅, ∅⟩ medium net₁
    (4800268, .deliver ⟨1, 1, relayed, 4800267⟩) net₂ := by
  have hnode : net₁.nodes 1 = some one := rfl
  have hflight : net₁.inFlight = [] ++ ⟨1, 1, relayed, 4800267⟩ :: [] := rfl
  have hstep : Net.Step ⟨∅, ∅⟩ medium net₁ (4800268, .deliver ⟨1, 1, relayed, 4800267⟩) _ :=
    .deliver hflight hnode Row.handles_cancelled
  rw [net₁, react_one] at hstep
  rw [net₁, net₂]
  exact hstep

theorem events_cancelled : cancelled.events = [] := by
  have hlook : one.ctx.registry.lookup heard.name = some 0 := AList.lookup_insert _
  rw [cancelled, (Node.cancel_of_lookup hlook).2]
  rfl

theorem first (n : NodeId) (hn : n = 1 ∨ n = 2) : ∃ before ingress o,
    placement.Vehicle Row.zone n before ∧ before.Sound {heard.name} ∧
      ¬ before.ctx.alertStore.isDuplicate heard.name ∧
      before.Handles ⟨∅, ∅⟩ (.receive 1 heard ⟨ingress, .nonLocal⟩) o ∧
      deferred n (if n = 2 then 4800267 else 5400301) = o.node := by
  have hfits : ({heard.name} : Finset (Name ℝ)).card ≤
      (Row.start n).ctx.alertStore.maxSize :=
    Finset.card_singleton heard.name |>.trans_le
      (by norm_num [Row.start, Pair.vehicle, Context.init])
  refine ⟨Row.start n, 1, _, ?_, (Row.start_fresh n).sound hfits,
    (Row.start_fresh n).not_isDuplicate _, Row.handles_heard n hn, rfl⟩
  exact ⟨rfl, rfl, Row.zone_contains n, rfl, rfl, ⟨one_ne_zero, List.mem_singleton_self _⟩,
    rfl, rfl⟩

/-- The first step has one outcome. -/
theorem nodes_fired {t : Net ℝ}
    (h : Net.Step ⟨∅, ∅⟩ medium net₀ (4800267, .occur 2 (.expire 0)) t) :
    t.nodes = net₁.nodes := by
  cases h with
  | occur hlocal hnode hhandles =>
      obtain rfl := Option.some.inj hnode
      obtain ⟨_, hhandles⟩ := hhandles
      obtain ⟨_, hfired⟩ := Row.handles_fired
      have ho := Except.ok.inj (Eq.trans (Eq.symm hhandles) hfired)
      subst ho
      rw [net₀, react_two]
      rfl

theorem orderly {pre post : List (Net.Label ℝ)} {l : Net.Label ℝ} {t : Net ℝ}
    (hls : labels = pre ++ l :: post) (hrun : Run (Net.Step ⟨∅, ∅⟩ medium) net₀ pre t) :
    Net.Orderly heard.name t l := by
  rcases pre with _ | ⟨a, _ | ⟨b, pre⟩⟩
  · obtain rfl := Run.nil_iff.mp hrun
    obtain rfl := (List.cons.inj hls).1
    refine ⟨by simp, ?_⟩
    intro n node d hocc hnode hd
    obtain ⟨rfl, -⟩ := Net.Action.occur.inj hocc
    rcases state_nodes hnode with ⟨h, _⟩ | ⟨_, rfl⟩
    · exact absurd h (by decide)
    · obtain rfl := List.mem_singleton.mp hd.1
      refine ⟨rfl, by simp [net₀, state], ?_⟩
      intro m node' e hnode' he
      rcases state_nodes hnode' with ⟨_, rfl⟩ | ⟨_, rfl⟩
      · obtain rfl := List.mem_singleton.mp he.1
        norm_num
      · obtain rfl := List.mem_singleton.mp he.1
        exact le_rfl
  · obtain ⟨ha, hls'⟩ := List.cons.inj hls
    obtain rfl := (List.cons.inj hls').1
    rw [← ha] at hrun
    have hnodes := nodes_fired (Run.single_iff.mp hrun)
    refine ⟨?_, by simp⟩
    intro c hc _ n node d hnode hd
    obtain rfl := Net.Action.deliver.inj hc
    rw [hnodes] at hnode
    rcases state_nodes hnode with ⟨_, rfl⟩ | ⟨_, rfl⟩
    · obtain rfl := List.mem_singleton.mp hd.1
      norm_num
    · cases hd.1
  · have hlen := congrArg List.length hls
    simp [labels] at hlen

theorem contends : Net.Contends ⟨∅, ∅⟩ medium placement (fun _ => {heard.name}) Row.zone 1 heard
    ⟨0, 0⟩ net₀ labels net₂ where
  run := (Run.nil.snoc step_fired).snoc step_delivered
  zone := rfl
  geographic := trivial
  sender := rfl
  vehicles n := by
    by_cases h1 : n = 1
    · simp [placement, net₀, state, h1]
    · by_cases h2 : n = 2 <;> simp [placement, net₀, state, h1, h2]
  first n node hnode := by
    rcases state_nodes hnode with ⟨rfl, rfl⟩ | ⟨rfl, rfl⟩
    · exact first 1 (.inl rfl)
    · exact first 2 (.inr rfl)
  hears nodes n hn m hm hne := by
    refine ⟨1, ?_⟩
    have hin : m ∈ [1, 2].filter fun k => k ≠ n := List.mem_filter.mpr ⟨hm, by simpa using hne⟩
    exact List.mem_map.mpr ⟨m, hin, rfl⟩
  silent := by
    constructor
    · simp [net₀, state]
    · rintro n hn ⟨tx, htx, rfl, _⟩
      obtain rfl := List.mem_singleton.mp htx
      exact absurd hn (by decide)
  room _ _ := Finset.mem_singleton_self _
  noEviction l hl n ev name hev halert := by
    simp only [labels, List.mem_cons, List.not_mem_nil, or_false] at hl
    rcases hl with rfl | rfl
    · obtain ⟨rfl, rfl⟩ := Prod.mk.inj (Option.some.inj hev)
      cases halert
    · obtain ⟨rfl, rfl⟩ := Prod.mk.inj (Option.some.inj hev)
      cases halert
      exact Finset.mem_singleton_self _
  noOrigin l hl n now' data' ingress hocc := by
    simp only [labels, List.mem_cons, List.not_mem_nil, or_false] at hl
    rcases hl with rfl | rfl <;> cases hocc
  noLoss l hl c hlose := by
    simp only [labels, List.mem_cons, List.not_mem_nil, or_false] at hl
    rcases hl with rfl | rfl <;> cases hlose
  static l hl n ev hev pos := by
    simp only [labels, List.mem_cons, List.not_mem_nil, or_false] at hl
    rcases hl with rfl | rfl <;> cases hev <;> simp
  noRsu l hl n ev hev := by
    simp only [labels, List.mem_cons, List.not_mem_nil, or_false] at hl
    rcases hl with rfl | rfl <;> cases hev <;> simp
  orderly _ _ _ _ hls hrun := orderly hls hrun

end Contest

/-- The farther of two vehicles transmits, the nearer one gives up. -/
theorem contention_two : ∃ net : Net ℝ,
    Run (Net.Step ⟨∅, ∅⟩ Contest.medium) Contest.net₀ Contest.labels net ∧
      net.Sent 2 Row.heard.name ∧ ¬ net.Sent 1 Row.heard.name := by
  have hdone : ∀ n, ¬ Contest.net₂.Waits Row.heard.name n := by
    rintro n ⟨node, d, hnode, hd, _⟩
    rcases Contest.state_nodes hnode with ⟨_, rfl⟩ | ⟨_, rfl⟩
    · simp [Contest.events_cancelled] at hd
    · cases hd
  have hradius : 0 < Contest.placement.txRadius := by
    simp [Contest.placement, Arith.lit]
  have hsent := (contention _ _ _ _ _ _ _ _ _ _ _ hradius Contest.contends hdone).1
  have hone : Contest.placement.delay Row.heard.size ⟨0, 0⟩ 1 = 5400300 := Contest.delay_one
  have htwo : Contest.placement.delay Row.heard.size ⟨0, 0⟩ 2 = 4800266 := Contest.delay_two
  refine ⟨Contest.net₂, Contest.contends.run, ?_, ?_⟩
  · rw [hsent 2 (by decide)]
    intro m hm
    rcases List.mem_pair.mp hm with rfl | rfl
    · rw [hone, htwo]
      norm_num
    · exact le_rfl
  · rw [hsent 1 (by decide)]
    intro hle
    have hle := hle 2 (by decide)
    rw [hone, htwo] at hle
    norm_num at hle

end Cafe
