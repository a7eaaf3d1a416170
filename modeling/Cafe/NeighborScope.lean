import Cafe.AlertStoreLru
import Cafe.NodeEffects

/-!
# Alerts for the next hop

An alert without a geographic zone passes no forwarding decision. If its zone is
the neighbourhood, the node of the application that creates it transmits it
on all its faces, and the nodes that hear it only pass it to their consumers.
-/

open Labelled

namespace Cafe

variable {F : Type} [Arith F]

instance : DecidablePred (ZoR.IsGeographic (F := F)) := fun zor =>
  match zor with
  | .neighbor => isFalse id
  | .circle .. => isTrue trivial
  | .polygon .. => isTrue trivial
  | .composite .. => isTrue trivial

omit [Arith F] in
theorem Name.isGeographic_iff {name : Name F} :
    name.IsGeographic ↔ ((extractZoR name).any fun zor => zor.IsGeographic) = true := by
  unfold Name.IsGeographic
  cases extractZoR name with
  | none => simp
  | some zor => simp

instance : DecidablePred (Name.IsGeographic (F := F)) := fun _ =>
  decidable_of_iff _ Name.isGeographic_iff.symm

/-! ## One node -/

/-- The transmissions that an event demands of a node for the alerts of the
next hop. -/
def NodeEvent.neighborSent (faceTable : List NfdFace) : NodeEvent F → List (FaceId × Name F)
  | .receive _ data ingress =>
      if extractZoR data.name = some .neighbor ∧ ingress.scope = .isLocal then
        (faceTable.filter fun face => face.scope = .nonLocal).map fun face =>
          (face.faceId, data.name)
      else
        []
  | _ => []

/-- The transmissions of alerts without a geographic zone. -/
def Outcome.neighborSent (o : Outcome F) : List (FaceId × Name F) :=
  (o.sent.filter fun out => ¬ out.data.name.IsGeographic).map fun out =>
    (out.egress, out.data.name)

theorem Outcome.neighborSent_eq_nil {o : Outcome F}
    (h : ∀ out ∈ o.sent, out.data.name.IsGeographic) : o.neighborSent = [] := by
  rw [neighborSent, List.map_eq_nil_iff, List.filter_eq_nil_iff]
  intro out hout
  simpa using h out hout

namespace Node

/-- A node whose pending relays all have a geographic zone transmits alerts of
the next hop only for its own applications. -/
theorem Handles.neighborSent {infra : Infrastructure F} {node : Node F} {ev : NodeEvent F}
    {o : Outcome F} (h : node.Handles infra ev o)
    (hpending : ∀ d ∈ node.events, d.data.name.IsGeographic) :
    o.neighborSent = ev.neighborSent node.faceTable := by
  have heff := h.effect
  by_cases hgeo : ∀ now data ingress, ev = .receive now data ingress → data.name.IsGeographic
  · have hnil : o.neighborSent = [] := by
      apply Outcome.neighborSent_eq_nil
      intro out hout
      rcases heff.sent_of out hout with ⟨now, data, ingress, hev, hname, _⟩ | ⟨d, hd, _, hname, _⟩
      · exact hname ▸ hgeo now data ingress hev
      · exact hname ▸ hpending d hd
    rw [hnil]
    cases ev with
    | receive now data ingress =>
        obtain ⟨zor, hz, hzor⟩ := hgeo now data ingress rfl
        have hne : ¬ (extractZoR data.name = some .neighbor ∧ ingress.scope = .isLocal) := by
          rintro ⟨hn, _⟩
          obtain rfl := Option.some.inj (hz.symm.trans hn)
          exact hzor
        rw [NodeEvent.neighborSent, if_neg hne]
    | _ => rfl
  · push Not at hgeo
    obtain ⟨now, data, ingress, rfl, hno⟩ := hgeo
    obtain ⟨fuel, h⟩ := h
    simp only [handle, onIncomingAlert] at h
    split at h
    · rename_i hz
      obtain rfl := Except.ok.inj h
      simp [Outcome.neighborSent, NodeEvent.neighborSent, hz]
    · rename_i hz
      split at h
      · rename_i hscope
        obtain rfl := Except.ok.inj h
        simp [Outcome.neighborSent, NodeEvent.neighborSent, hscope]
      · rename_i hscope
        obtain rfl := Except.ok.inj h
        have hlocal : ingress.scope = .isLocal := by
          cases hs : ingress.scope with
          | isLocal => rfl
          | nonLocal => exact absurd hs hscope
        simp [Outcome.neighborSent, NodeEvent.neighborSent, hz, hlocal, List.filter_map,
          Function.comp_def, onOutgoingAlert, hno]
    · rename_i zor hne hz
      refine absurd ⟨zor, hz, ?_⟩ hno
      cases zor with
      | neighbor => exact absurd rfl hne
      | _ => trivial

end Node

/-! ## The network -/

namespace Net

/-- The transmissions of alerts of the next hop that the labels demand of the
nodes of a network. -/
def Label.neighborSent (net₀ : Net F) (l : Label F) : List (NodeId × FaceId × Name F) :=
  match Label.event l with
  | none => []
  | some (n, ev) =>
      (ev.neighborSent (((net₀.nodes n).map Node.faceTable).getD [])).map fun e => (n, e)

/-- The transmissions of alerts without a geographic zone. -/
def neighborLog (net : Net F) : List (NodeId × FaceId × Name F) :=
  (net.log.filter fun tx => ¬ tx.data.name.IsGeographic).map fun tx =>
    (tx.sender, tx.egress, tx.data.name)

/-- Alerts without a geographic zone leave no trace in the nodes, and are
transmitted for the applications that create them only. -/
structure OneHop (net₀ : Net F) (ls : List (Label F)) (net : Net F) : Prop where
  config : ∀ n, (net.nodes n).map Node.config = (net₀.nodes n).map Node.config
  stored : ∀ n node, net.nodes n = some node → ∀ name, node.ctx.alertStore.isDuplicate name →
    name.IsGeographic
  pending : ∀ n node, net.nodes n = some node → ∀ d ∈ node.events, d.data.name.IsGeographic
  inFlight : ∀ c ∈ net.inFlight, ∃ tx : Transmission F, net.log[c.data.uid]? = some tx ∧
    tx.data.name = c.data.name
  log : net.neighborLog = ls.flatMap (Label.neighborSent net₀)

theorem Label.neighborSent_eq_nil {net₀ : Net F} {l : Label F} (h : Label.event l = none) :
    Label.neighborSent net₀ l = [] := by
  rw [neighborSent, h]

theorem Label.neighborSent_event {net₀ : Net F} {l : Label F} {n : NodeId} {ev : NodeEvent F}
    {node : Node F} (h : Label.event l = some (n, ev))
    (hnode : (net₀.nodes n).map Node.config = some node.config) :
    Label.neighborSent net₀ l = (ev.neighborSent node.faceTable).map fun e => (n, e) := by
  obtain ⟨node₀, hnode₀, hconfig⟩ := Option.map_eq_some_iff.mp hnode
  have htable : node₀.faceTable = node.faceTable := congrArg Node.Config.faceTable hconfig
  rw [neighborSent, h]
  simp only [hnode₀, Option.map_some, Option.getD_some, htable]

theorem neighborLog_react {medium : Medium F} {net : Net F} {t : ℕ} {n : NodeId} {deferred : Bool}
    {o : Outcome F} {rest : List (Copy F)} :
    (net.react medium t n deferred o rest).neighborLog =
      net.neighborLog ++ o.neighborSent.map fun e => (n, e) := by
  simp only [neighborLog, Outcome.neighborSent, react_log, List.filter_append, List.filter_map,
    List.map_append, List.map_map, Function.comp_def]

theorem OneHop.init {net₀ : Net F} (hfresh : ∀ n node, net₀.nodes n = some node → node.Fresh)
    (hflight : net₀.inFlight = []) (hlog : net₀.log = []) : OneHop net₀ [] net₀ where
  config _ := rfl
  stored n node hnode name hd := absurd hd ((hfresh n node hnode).not_isDuplicate name)
  pending n node hnode d hd := by simp [(hfresh n node hnode).events] at hd
  inFlight := by simp [hflight]
  log := by simp [neighborLog, hlog]

theorem OneHop.step {infra : Infrastructure F} {medium : Medium F} {net₀ net net' : Net F}
    {ls : List (Label F)} {l : Label F} (h : OneHop net₀ ls net)
    (hstep : Step infra medium net l net') : OneHop net₀ (ls ++ [l]) net' := by
  cases hstep.change with
  | medium hev hnodes hlog hsub _ =>
      constructor
      · rw [hnodes]
        exact h.config
      · rw [hnodes]
        exact h.stored
      · rw [hnodes]
        exact h.pending
      · rw [hlog]
        exact fun c hc => h.inFlight c (hsub c hc)
      · rw [List.flatMap_append, List.flatMap_singleton, Label.neighborSent_eq_nil hev,
          List.append_nil, ← h.log, neighborLog, neighborLog, hlog]
  | node n ev node o rest hev hnode hhandles _ hsub _ hnet =>
      have heff := hhandles.effect
      subst hnet
      constructor
      · intro m
        by_cases hm : m = n
        · subst hm
          rw [react_nodes_self, ← h.config, hnode]
          exact congrArg some heff.config_eq
        · rw [react_nodes_of_ne hm]
          exact h.config m
      · intro m node' hnode' name hd
        rcases react_nodes_cases hnode' with ⟨rfl, rfl⟩ | ⟨_, hnode'⟩
        · rcases heff.store with hsame | ⟨entry, halert, hins⟩
          · exact h.stored m node hnode name (hsame ▸ hd)
          · rw [hins] at hd
            obtain ⟨e, he, rfl⟩ := List.mem_map.mp hd
            rcases AlertStore.mem_insertOrUpdate he with he | ⟨rfl, _⟩
            · exact h.stored m node hnode _ (List.mem_map.mpr ⟨e, he, rfl⟩)
            · exact NodeEvent.alert_geographic halert
        · exact h.stored m node' hnode' name hd
      · intro m node' hnode' d hd
        rcases react_nodes_cases hnode' with ⟨rfl, rfl⟩ | ⟨_, hnode'⟩
        · rcases heff.events d hd with hd | halert
          · exact h.pending m node hnode d hd
          · exact NodeEvent.alert_geographic halert
        · exact h.pending m node' hnode' d hd
      · intro c hc
        rcases react_inFlight_log hc with hc | ⟨out, _, tx, htx, rfl, hdata⟩
        · obtain ⟨tx, htx, hname⟩ := h.inFlight c (hsub c hc)
          refine ⟨tx, ?_, hname⟩
          rw [react_log]
          exact (List.getElem?_append_left (List.getElem?_eq_some_iff.mp htx).1).trans htx
        · refine ⟨_, htx, ?_⟩
          rw [hdata]
      · have hsent := hhandles.neighborSent (h.pending n node hnode)
        rw [List.flatMap_append, List.flatMap_singleton, ← h.log, neighborLog_react, hsent]
        congr 1
        refine (Label.neighborSent_event hev ?_).symm
        rw [← h.config, hnode]
        rfl

theorem OneHop.of_run {infra : Infrastructure F} {medium : Medium F} {net₀ net : Net F}
    {ls : List (Label F)} (hfresh : ∀ n node, net₀.nodes n = some node → node.Fresh)
    (hflight : net₀.inFlight = []) (hlog : net₀.log = [])
    (hrun : Run (Step infra medium) net₀ ls net) : OneHop net₀ ls net := by
  apply hrun.invariant (OneHop net₀) (.init hfresh hflight hlog)
  intro ms t l v rest _ _ ht hstep
  exact ht.step hstep

/-- A transmission for the next hop is demanded of the node by an application of its own. -/
theorem Label.mem_neighborSent {net₀ : Net F} {l : Label F} {n : NodeId} {egress : FaceId}
    {name : Name F} (h : (n, egress, name) ∈ Label.neighborSent net₀ l) :
    ∃ now data ingress, l.2 = .occur n (.receive now data ingress) ∧ ingress.scope = .isLocal ∧
      data.name = name ∧ extractZoR name = some .neighbor := by
  unfold neighborSent at h
  split at h
  · cases h
  · rename_i m ev hev
    obtain ⟨⟨egress', name'⟩, hmem, heq⟩ := List.mem_map.mp h
    obtain ⟨rfl, rfl, rfl⟩ : m = n ∧ egress' = egress ∧ name' = name := by simpa using heq
    cases ev with
    | receive now data ingress =>
        by_cases hcond : extractZoR data.name = some .neighbor ∧ ingress.scope = .isLocal
        · rw [NodeEvent.neighborSent, if_pos hcond] at hmem
          obtain ⟨face, _, hface⟩ := List.mem_map.mp hmem
          obtain ⟨_, rfl⟩ : face.faceId = egress' ∧ data.name = name' := by simpa using hface
          rcases l with ⟨t, c | c | c | ⟨k, ev⟩⟩
          · obtain ⟨_, heq⟩ := Prod.mk.inj (Option.some.inj hev)
            obtain ⟨_, _, rfl⟩ := NodeEvent.receive.inj heq
            exact absurd hcond.2 (by simp)
          · cases hev
          · cases hev
          · obtain ⟨rfl, rfl⟩ := Prod.mk.inj (Option.some.inj hev)
            exact ⟨now, data, ingress, rfl, hcond.2, rfl, hcond.1⟩
        · simp [NodeEvent.neighborSent, hcond] at hmem
    | _ => cases hmem

theorem mem_neighborLog {net : Net F} {tx : Transmission F} (htx : tx ∈ net.log)
    (hno : ¬ tx.data.name.IsGeographic) :
    (tx.sender, tx.egress, tx.data.name) ∈ net.neighborLog :=
  List.mem_map.mpr ⟨tx, List.mem_filter.mpr ⟨htx, by simpa using hno⟩, rfl⟩

end Net

/-- In every run, the transmissions of alerts without a geographic zone are those that
the applications ask for by creating alerts of the next hop, one on each face of
their node. No node stores or defers such an alert, and every copy of it in flight was
transmitted by the node of its creator. -/
theorem next_hop_only {infra : Infrastructure F} {medium : Medium F} {net₀ net : Net F}
    {ls : List (Net.Label F)} (hfresh : ∀ n node, net₀.nodes n = some node → node.Fresh)
    (hflight : net₀.inFlight = []) (hlog : net₀.log = [])
    (hrun : Run (Net.Step infra medium) net₀ ls net) :
    net.neighborLog = ls.flatMap (Net.Label.neighborSent net₀) ∧
      (∀ n node, net.nodes n = some node →
        (∀ name, node.ctx.alertStore.isDuplicate name → name.IsGeographic) ∧
          ∀ d ∈ node.events, d.data.name.IsGeographic) ∧
      ∀ c ∈ net.inFlight, ¬ c.data.name.IsGeographic →
        ∃ tx, net.log[c.data.uid]? = some tx ∧ tx.data.name = c.data.name ∧
          ∃ l ∈ ls, ∃ now data ingress, l.2 = .occur tx.sender (.receive now data ingress) ∧
            ingress.scope = .isLocal ∧ data.name = c.data.name := by
  have h := Net.OneHop.of_run hfresh hflight hlog hrun
  refine ⟨h.log, fun n node hnode => ⟨h.stored n node hnode, h.pending n node hnode⟩, ?_⟩
  intro c hc hno
  obtain ⟨tx, htx, hname⟩ := h.inFlight c hc
  have hmem := Net.mem_neighborLog (List.mem_of_getElem? htx) (hname ▸ hno)
  rw [h.log] at hmem
  obtain ⟨l, hl, hsent⟩ := List.mem_flatMap.mp hmem
  obtain ⟨now, data, ingress, hocc, hlocal, hdata, _⟩ := Net.Label.mem_neighborSent hsent
  exact ⟨tx, htx, hname, l, hl, now, data, ingress, hocc, hlocal, hdata.trans hname⟩

namespace Pair

def hello : Data ℝ := ⟨[.zor .neighbor], 100, none, none, none, 0⟩

theorem hello_not_geographic : ¬ hello.name.IsGeographic := by
  rintro ⟨zor, hz, hgeo⟩
  obtain rfl := Option.some.inj hz
  exact hgeo

theorem hello_runs : ∃ c net', Run (Net.Step ⟨∅, ∅⟩ medium) (net ⟨0, 0⟩ ⟨1, 0⟩)
    [(0, .occur 0 (.receive 0 hello ⟨2, .isLocal⟩)), (1, .duplicate c), (2, .deliver c)] net' ∧
      c ∈ net'.inFlight ∧ c.data.name = hello.name := by
  let c : Copy ℝ := ⟨1, 1, ((vehicle 0 ⟨0, 0⟩).onOutgoingAlert hello 1).data, 0⟩
  let mid := (net ⟨0, 0⟩ ⟨1, 0⟩).react medium 0 0 false
    ⟨vehicle 0 ⟨0, 0⟩, [(vehicle 0 ⟨0, 0⟩).onOutgoingAlert hello 1], false⟩ []
  have s₁ : Net.Step ⟨∅, ∅⟩ medium (net ⟨0, 0⟩ ⟨1, 0⟩)
      (0, .occur 0 (.receive 0 hello ⟨2, .isLocal⟩)) mid :=
    .occur ⟨rfl, rfl, rfl, rfl⟩ rfl ⟨0, rfl⟩
  have s₂ : Net.Step ⟨∅, ∅⟩ medium mid (1, .duplicate c)
      { mid with now := 1, inFlight := [c, c] } := .duplicate (List.mem_singleton.mpr rfl)
  have s₃ : Net.Step ⟨∅, ∅⟩ medium { mid with now := 1, inFlight := [c, c] } (2, .deliver c)
      _ := .deliver (List.nil_append [c, c]).symm rfl ⟨0, rfl⟩
  exact ⟨c, _, ((Run.nil.snoc s₁).snoc s₂).snoc s₃, by simp [Net.react, Net.copies], rfl⟩

end Pair

theorem next_hop_only_hello : ∃ ls net, ∃ c ∈ net.inFlight,
    ¬ c.data.name.IsGeographic ∧ Run (Net.Step ⟨∅, ∅⟩ Pair.medium) (Pair.net ⟨0, 0⟩ ⟨1, 0⟩) ls net ∧
      net.neighborLog = ls.flatMap (Net.Label.neighborSent (Pair.net ⟨0, 0⟩ ⟨1, 0⟩)) := by
  obtain ⟨c, net, hrun, hc, hname⟩ := Pair.hello_runs
  exact ⟨_, net, c, hc, hname ▸ Pair.hello_not_geographic, hrun,
    (next_hop_only (fun n node hnode => (Pair.net_fresh hnode).1) rfl rfl hrun).1⟩

end Cafe
