import Cafe.NodeEffects

/-!
# Containment of the geocast

A vehicle outside the zone relays only what it heard from a sender outside
and no closer. The tags of a copy tell the position of its transmitter, so
this passes on along every chain of relays.
-/

open Labelled

namespace Cafe

variable {F : Type} [Arith F]

namespace Net

def position (net : Net F) (n : NodeId) : Option (Point F) :=
  (net.nodes n).bind Node.mobility

/-- A network of fresh nodes that stand still, and a run of it. -/
structure StandsStill (infra : Infrastructure F) (medium : Medium F) (net₀ : Net F)
    (ls : List (Label F)) (net : Net F) : Prop where
  fresh : ∀ n node, net₀.nodes n = some node → node.Fresh
  inFlight : net₀.inFlight = []
  log : net₀.log = []
  positioned : ∀ n node, net₀.nodes n = some node → node.mobility.isSome
  static : ∀ l ∈ ls, ∀ n ev, Label.event l = some (n, ev) → ∀ pos, ev ≠ .move pos
  run : Run (Step infra medium) net₀ ls net

/-- A vehicle has heard the transmission of place `uid` in a copy that did not
keep it from relaying: its transmitter is not closer to the zone than the
vehicle, if that is outside. -/
def HeardFrom (net₀ : Net F) (ls : List (Label F)) (log : List (Transmission F)) (n : NodeId)
    (name : Name F) (uid : ℕ) : Prop :=
  ∃ (t : ℕ) (c : Copy F) (tx : Transmission F) (nodePos senderPos : Point F) (zor : ZoR F),
    (t, .deliver c) ∈ ls ∧ c.dst = n ∧ c.data.name = name ∧ c.data.uid = uid ∧
    c.data.senderPos = some senderPos ∧ log[uid]? = some tx ∧ tx.data.name = name ∧
    net₀.position tx.sender = some senderPos ∧ net₀.position n = some nodePos ∧
    extractZoR name = some zor ∧ ¬ (¬ zor.contains nodePos ∧ CloserToZoR zor senderPos nodePos)

theorem HeardFrom.mono {net₀ : Net F} {ls : List (Label F)} {log : List (Transmission F)}
    {n : NodeId} {name : Name F} {uid : ℕ} (h : HeardFrom net₀ ls log n name uid)
    (ls' : List (Label F)) (log' : List (Transmission F)) :
    HeardFrom net₀ (ls ++ ls') (log ++ log') n name uid := by
  rcases h with ⟨t, c, tx, p, q, zor, hl, hdst, hname, huid, hpos, htx, h⟩
  refine ⟨t, c, tx, p, q, zor, List.mem_append_left _ hl, hdst, hname, huid, hpos, ?_, h⟩
  rw [List.getElem?_append_left (List.getElem?_eq_some_iff.mp htx).1]
  exact htx

/-- What copies, pending relays and relays made so far tell about their
senders. -/
structure Traced (net₀ : Net F) (ls : List (Label F)) (net : Net F) : Prop where
  nodes : ∀ n node, net.nodes n = some node → node.mobility.isSome ∧
    net₀.position n = node.mobility
  inFlight : ∀ c ∈ net.inFlight, ∃ tx : Transmission F, net.log[c.data.uid]? = some tx ∧
    tx.data.name = c.data.name ∧ net₀.position tx.sender = c.data.senderPos
  pending : ∀ n node, net.nodes n = some node → ∀ d ∈ node.events,
    HeardFrom net₀ ls net.log n d.data.name d.data.uid
  relayed : ∀ tx ∈ net.log, tx.deferred →
    HeardFrom net₀ ls net.log tx.sender tx.data.name tx.data.uid

theorem StandsStill.traced_nil {infra : Infrastructure F} {medium : Medium F} {net₀ net : Net F}
    {ls : List (Label F)} (h : StandsStill infra medium net₀ ls net) : Traced net₀ [] net₀ where
  nodes := fun n node hnode => ⟨h.positioned n node hnode, by simp [position, hnode]⟩
  inFlight := by simp [h.inFlight]
  pending := fun n node hnode d hd => by simp [(h.fresh n node hnode).events] at hd
  relayed := by simp [h.log]

/-- The copy for which a vehicle schedules a relay. -/
theorem Traced.heard {net₀ net : Net F} {ls : List (Label F)}
    {l : Label F} (h : Traced net₀ ls net) {n : NodeId} {ev : NodeEvent F} {node : Node F}
    (hnode : net.nodes n = some node)
    (hsource : net.Source l n ev) {d : Deferred F}
    (hnew : ∃ now data ingress zor nodePos senderPos, ev = .receive now data ingress ∧
      extractZoR data.name = some zor ∧ zor.IsGeographic ∧ node.mobility = some nodePos ∧
      data.senderPos = some senderPos ∧
      ¬ (¬ zor.contains nodePos ∧ CloserToZoR zor senderPos nodePos) ∧
      d.data.name = data.name ∧ d.data.uid = data.uid) :
    HeardFrom net₀ (ls ++ [l]) net.log n d.data.name d.data.uid := by
  rcases hnew with ⟨now, data, ingress, zor, p, q, rfl, hz, _, hm, hpos, hfar, hname, huid⟩
  rcases hsource with ⟨_, hlocal⟩ | ⟨c, hc, hl, rfl, heq⟩
  · rw [hlocal.2.2.1] at hpos
    cases hpos
  · obtain ⟨_, rfl, _⟩ := NodeEvent.receive.inj heq
    rcases h.inFlight c hc with ⟨tx, htx, htxname, hsender⟩
    refine ⟨l.1, c, tx, p, q, zor, ?_, rfl, hname.symm, huid.symm, hpos, huid ▸ htx,
      htxname.trans hname.symm, hsender.trans hpos, ?_, hname ▸ hz, hfar⟩
    · rw [← hl]
      exact List.mem_append_right ls List.mem_cons_self
    · exact (h.nodes c.dst node hnode).2.trans hm

theorem Traced.step {infra : Infrastructure F} {medium : Medium F} {net₀ net net' : Net F}
    {ls : List (Label F)} {l : Label F} (h : Traced net₀ ls net)
    (hstep : Step infra medium net l net')
    (hstatic : ∀ n ev, Label.event l = some (n, ev) → ∀ pos, ev ≠ .move pos) :
    Traced net₀ (ls ++ [l]) net' := by
  cases hstep.change with
  | medium hev hnodes hlog hsub _ =>
      have hmono : ∀ {n name uid}, HeardFrom net₀ ls net.log n name uid →
          HeardFrom net₀ (ls ++ [l]) net.log n name uid := by
        intro n name uid hheard
        simpa using hheard.mono [l] []
      constructor
      · rw [hnodes]
        exact h.nodes
      · rw [hlog]
        exact fun c hc => h.inFlight c (hsub c hc)
      · rw [hnodes, hlog]
        exact fun n node hnode d hd => hmono (h.pending n node hnode d hd)
      · rw [hlog]
        exact fun tx htx hdef => hmono (h.relayed tx htx hdef)
  | node n ev node o rest hev hnode hhandles hsource hsub _ hnet =>
      have heff := hhandles.effect
      obtain ⟨hsome, hposn⟩ := h.nodes n node hnode
      subst hnet
      constructor
      · intro m node' hnode'
        rcases react_nodes_cases hnode' with ⟨rfl, rfl⟩ | ⟨_, hnode'⟩
        · rw [heff.mobility_of_static (hstatic m ev hev)]
          exact ⟨hsome, hposn⟩
        · exact h.nodes m node' hnode'
      · intro c hc
        rcases react_inFlight_log hc with hc | ⟨out, hout, tx, htx, rfl, hdata⟩
        · rcases h.inFlight c (hsub c hc) with ⟨tx, htx, hname, hpos⟩
          refine ⟨tx, ?_, hname, hpos⟩
          rw [react_log, List.getElem?_append_left (List.getElem?_eq_some_iff.mp htx).1]
          exact htx
        · refine ⟨_, htx, by rw [hdata], ?_⟩
          rw [hdata]
          exact hposn.trans (heff.senderPos hsome out hout).symm
      · intro m node' hnode' d hd
        rcases react_nodes_cases hnode' with ⟨rfl, rfl⟩ | ⟨_, hnode'⟩
        · rcases heff.scheduled d hd with hd | hnew
          · exact (h.pending m node hnode d hd).mono [l] _
          · have hheard := h.heard hnode hsource hnew
            simpa using hheard.mono []
              (o.sent.map fun out => ⟨m, out.egress, out.data, ev.isExpiry⟩)
        · exact (h.pending m node' hnode' d hd).mono [l] _
      · intro tx htx hdef
        rcases List.mem_append.mp htx with htx | htx
        · exact (h.relayed tx htx hdef).mono [l] _
        · rcases List.mem_map.mp htx with ⟨out, hout, rfl⟩
          rcases heff.expiry hdef out hout with ⟨d, hd, hname, huid⟩
          simp only
          rw [hname, huid]
          exact (h.pending n node hnode d hd).mono [l] _

theorem StandsStill.traced {infra : Infrastructure F} {medium : Medium F} {net₀ net : Net F}
    {ls : List (Label F)} (h : StandsStill infra medium net₀ ls net) : Traced net₀ ls net := by
  apply h.run.invariant (Traced net₀) h.traced_nil
  intro ms t l v rest heq _ ht hstep
  exact ht.step hstep (h.static l (by simp [heq]))

/-- The transmission of place `j` in the log is a relay of that of place `i`. -/
def Relays (net : Net F) (name : Name F) (i j : ℕ) : Prop :=
  ∃ tx : Transmission F, net.log[j]? = some tx ∧ tx.deferred ∧ tx.data.name = name ∧
    tx.data.uid = i

end Net

section Containment

variable {infra : Infrastructure ℝ} {medium : Medium ℝ} {net₀ net : Net ℝ}
  {ls : List (Net.Label ℝ)} {name : Name ℝ} {zor : ZoR ℝ}

/-- The copy that made a vehicle outside the zone relay came from outside. -/
theorem relay_outside (h : Net.StandsStill infra medium net₀ ls net)
    (hz : extractZoR name = some zor) {tx : Transmission ℝ} (htx : tx ∈ net.log)
    (hdef : tx.deferred) (hname : tx.data.name = name) {nodePos : Point ℝ}
    (hpos : net₀.position tx.sender = some nodePos) (hout : ¬ zor.contains nodePos) :
    ∃ (t : ℕ) (c : Copy ℝ) (tx' : Transmission ℝ) (senderPos : Point ℝ),
      (t, .deliver c) ∈ ls ∧ c.dst = tx.sender ∧ c.data.name = name ∧
      c.data.uid = tx.data.uid ∧ c.data.senderPos = some senderPos ∧
      net.log[tx.data.uid]? = some tx' ∧ tx'.data.name = name ∧
      net₀.position tx'.sender = some senderPos ∧ ¬ zor.contains senderPos ∧
      zor.distanceToBoundary nodePos ≤ zor.distanceToBoundary senderPos := by
  rcases h.traced.relayed tx htx hdef with ⟨t, c, tx', p, q, zor', hl, hdst, hcname, huid, hsp,
    htx', htxname, hsender, hnode, hz', hfar⟩
  obtain rfl := Option.some.inj (hpos.symm.trans hnode)
  subst hname
  obtain rfl := Option.some.inj (hz.symm.trans hz')
  have hnot : ¬ CloserToZoR zor q nodePos := fun hcloser => hfar ⟨hout, hcloser⟩
  rw [CloserToZoR, not_or, not_lt] at hnot
  exact ⟨t, c, tx', q, hl, hdst, hcname, huid, hsp, htx', htxname, hsender, hnot⟩

/-- A chain of relays that ends outside the zone has come no farther from it. -/
theorem chain_outside (h : Net.StandsStill infra medium net₀ ls net)
    (hz : extractZoR name = some zor) {i j : ℕ}
    (hchain : Relation.ReflTransGen (net.Relays name) i j) {first last : Transmission ℝ}
    (hfirst : net.log[i]? = some first) (hlast : net.log[j]? = some last) {p q : Point ℝ}
    (hp : net₀.position first.sender = some p) (hq : net₀.position last.sender = some q)
    (hout : ¬ zor.contains q) :
    ¬ zor.contains p ∧ zor.distanceToBoundary q ≤ zor.distanceToBoundary p := by
  induction hchain generalizing last q with
  | refl =>
      obtain rfl := Option.some.inj (hfirst.symm.trans hlast)
      obtain rfl := Option.some.inj (hp.symm.trans hq)
      exact ⟨hout, le_rfl⟩
  | @tail k j hchain hrelay ih =>
      rcases hrelay with ⟨tx, htx, hdef, hname, rfl⟩
      obtain rfl := Option.some.inj (htx.symm.trans hlast)
      rcases relay_outside h hz (List.mem_of_getElem? htx) hdef hname hq hout with
        ⟨t, c, tx', q', _, _, _, _, _, htx', _, hsender, hout', hle⟩
      rcases ih htx' hsender hout' with ⟨hp', hle'⟩
      exact ⟨hp', hle.trans hle'⟩

/-- Every relay made outside the zone answers a transmission from outside that
was no closer; hence the distance does not grow along a chain of relays until
it enters the zone, and what is transmitted inside is never relayed outside. -/
theorem geocast_contained (h : Net.StandsStill infra medium net₀ ls net)
    (hz : extractZoR name = some zor) :
    (∀ tx ∈ net.log, tx.deferred → tx.data.name = name → ∀ nodePos,
      net₀.position tx.sender = some nodePos → ¬ zor.contains nodePos →
        ∃ (t : ℕ) (c : Copy ℝ) (tx' : Transmission ℝ) (senderPos : Point ℝ),
          (t, .deliver c) ∈ ls ∧ c.dst = tx.sender ∧ c.data.name = name ∧
          c.data.uid = tx.data.uid ∧ c.data.senderPos = some senderPos ∧
          net.log[tx.data.uid]? = some tx' ∧ tx'.data.name = name ∧
          net₀.position tx'.sender = some senderPos ∧ ¬ zor.contains senderPos ∧
          zor.distanceToBoundary nodePos ≤ zor.distanceToBoundary senderPos) ∧
    ∀ (i j : ℕ) (first last : Transmission ℝ) (p q : Point ℝ),
      Relation.ReflTransGen (net.Relays name) i j → net.log[i]? = some first →
      net.log[j]? = some last → net₀.position first.sender = some p →
      net₀.position last.sender = some q →
        (¬ zor.contains q → zor.distanceToBoundary q ≤ zor.distanceToBoundary p) ∧
          (zor.contains p → zor.contains q) := by
  constructor
  · intro tx htx hdef hname nodePos hpos hout
    exact relay_outside h hz htx hdef hname hpos hout
  · intro i j first last p q hchain hfirst hlast hp hq
    have houtside := chain_outside h hz hchain hfirst hlast hp hq
    constructor
    · exact fun hout => (houtside hout).2
    · intro hin
      by_contra hout
      exact (houtside hout).1 hin

end Containment

/-- A vehicle 20 off the zone relays for one that is 30 off. -/
theorem geocast_contained_two : ∃ net₀ ls net, Net.StandsStill ⟨∅, ∅⟩ Pair.medium net₀ ls net ∧
    net.Relays Pair.alert.name 0 1 ∧ ¬ Pair.zone.contains ⟨30, 0⟩ ∧
    Pair.zone.distanceToBoundary ⟨30, 0⟩ ≤ Pair.zone.distanceToBoundary ⟨40, 0⟩ := by
  have hp : ¬ Pair.zone.contains ⟨40, 0⟩ := by
    simp [Pair.zone, ZoR.contains, Point.distance_axis]
    norm_num
  have hq : ¬ Pair.zone.contains ⟨30, 0⟩ := by
    simp [Pair.zone, ZoR.contains, Point.distance_axis]
    norm_num
  have hfar : ¬ CloserToZoR Pair.zone ⟨40, 0⟩ ⟨30, 0⟩ := by
    rw [CloserToZoR, not_or]
    refine ⟨hp, ?_⟩
    simp [Pair.zone, ZoR.distanceToBoundary, Point.distance_axis]
    norm_num
  rcases Pair.runs fun h => hfar h.2 with ⟨c, net, hrun, _, hlog, _⟩
  have h : Net.StandsStill ⟨∅, ∅⟩ Pair.medium (Pair.net ⟨40, 0⟩ ⟨30, 0⟩) (Pair.labels c) net := by
    refine ⟨fun n node hn => (Pair.net_fresh hn).1, rfl, rfl,
      fun n node hn => (Pair.net_fresh hn).2.2.2, ?_, hrun⟩
    intro l hl n ev hev pos
    simp only [Pair.labels, List.mem_cons, List.not_mem_nil, or_false] at hl
    rcases hl with rfl | rfl | rfl <;>
      simp [Net.Label.event] at hev <;> simp [← hev.2]
  have hrelay : net.Relays Pair.alert.name 0 1 := by
    rw [Net.Relays, hlog]
    exact ⟨_, rfl, rfl, rfl, rfl⟩
  refine ⟨_, _, net, h, hrelay, hq, ?_⟩
  exact ((geocast_contained h rfl).2 0 1 _ _ _ _ (.single hrelay) (by rw [hlog]; rfl)
    (by rw [hlog]; rfl) rfl rfl).1 hq

end Cafe
