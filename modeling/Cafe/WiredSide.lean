import Cafe.MiraPartition
import Cafe.MultiEntry

/-!
# Destinations stay on the wires

Only an RSU attaches destinations, and only to what it sends on a face of
the graph. The far end of such a face is an RSU again, so neither a relay
that waits at a vehicle nor a transmission by radio ever carries them.
-/

open Labelled WeightedDigraph

namespace Cafe

variable {F : Type} [Arith F]

def Graph.HasFace (G : Graph) (n : NodeId) (f : FaceId) : Prop :=
  f ∈ ((G.lookup n).getD []).map Face.faceId

instance (G : Graph) (n : NodeId) (f : FaceId) : Decidable (G.HasFace n f) :=
  inferInstanceAs (Decidable (_ ∈ _))

theorem Graph.hasFace_of_lookup {G : Graph} {n : NodeId} {faces : List Face} {face : Face}
    (hfaces : G.lookup n = some faces) (hface : face ∈ faces) : G.HasFace n face.faceId := by
  unfold HasFace
  rw [hfaces]
  exact List.mem_map_of_mem hface

theorem Graph.Closed.remotes_mem {G : Graph} (hG : G.Closed) {n m : NodeId} {f : FaceId}
    (h : m ∈ G.remotes n f) : m ∈ G := by
  obtain ⟨faces, hfaces, face, hface, _, rfl⟩ := Graph.mem_remotes.mp h
  exact hG.mem ⟨faces, hfaces, face, hface, rfl, rfl⟩

/-- The partition holds of every call that returns. -/
theorem partitions_of_mira {G : Graph} {s : NodeId} (hG : G.Closed)
    (hids : Mira.undefinedNode ∉ G) (hno : ∀ n ∈ G, G.NoOverflow n) (hdistinct : G.FaceIdsDistinct)
    {D : DestinationNodes} {fuel : ℕ} {result : UnorderedMap FaceId DestinationNodes}
    (h : mira fuel G D s = .ok result) : Partitions G s D result := by
  by_cases hs : s ∈ G
  · have hD : ∀ d ∈ D, d ∈ G := by
      intro d hd
      rcases mira_destinations h d hd with rfl | hmem
      · exact hs
      · exact hmem
    obtain ⟨hop, hsplit⟩ := mira_split (hG.from s) hs hids (hno s hs) hD h
    exact hsplit.partitions (hdistinct s)
  · -- a node without a face gets no share and reaches nobody
    have hnone : G.lookup s = none := AList.lookup_eq_none.mpr hs
    have hempty : ∀ f S, result.lookup f = some S → False := by
      intro f S hlook
      obtain ⟨faces, _, hfaces, _⟩ := mira_faces h f (AList.lookup_isSome.mp (by rw [hlook]; rfl))
      rw [hnone] at hfaces
      cases hfaces
    refine ⟨?_, fun f S hlook => (hempty f S hlook).elim, fun f S hlook => (hempty f S hlook).elim⟩
    intro d _ hds hreach
    refine absurd (Reaches.induct (P := fun v => v = s) rfl ?_ hreach) hds
    rintro u v c _ rfl ⟨faces, hfaces, _⟩
    rw [hnone] at hfaces
    cases hfaces

theorem partitions_empty (G : Graph) (s : NodeId) : Partitions G s [] ∅ := by
  constructor <;> simp

namespace Node

/-- The faces for the radio are none of those in the graph. -/
def RadioApart (G : Graph) (node : Node F) : Prop :=
  ∀ context, context = .v2v ∨ context = .v2i → node.ctx.getFaceIdFor context ≠ 0 →
    ¬ G.HasFace node.nodeId (node.ctx.getFaceIdFor context)

theorem RadioApart.congr {G : Graph} {node node' : Node F} (h : node.RadioApart G)
    (hconfig : node'.config = node.config) : node'.RadioApart G := by
  have hid : node'.nodeId = node.nodeId := congrArg Config.nodeId hconfig
  have hmap : node'.ctx.faceContextMap = node.ctx.faceContextMap :=
    congrArg Config.faceContextMap hconfig
  unfold RadioApart Context.getFaceIdFor at *
  rwa [hid, hmap]

/-- What an RSU sends over its wires for a new alert: on each face the share
that `mira` yields for it. With a V2I face the shares partition the other
destinations. -/
def SendsShares (infra : Infrastructure F) (node : Node F) (data : Data F) (zor : ZoR F)
    (o : Outcome F) : Prop :=
  ∃ fuel dst rest entries, destinations fuel infra data zor node = .ok dst ∧
    ((rest = [] ∧ entries = ∅) ∨ mira fuel infra.routingInfo rest node.nodeId = .ok entries) ∧
    o.sent.filter (fun out => infra.routingInfo.HasFace node.nodeId out.egress) =
      entries.entries.map (fun entry =>
        node.onOutgoingAlert { data with destinationNodes := some entry.2 } entry.1) ∧
    (node.ctx.getFaceIdFor .v2i ≠ 0 → rest = dst.filter (· ≠ node.nodeId) ∧
      Partitions infra.routingInfo node.nodeId rest entries)

end Node

/-! ## The tag object

The handler keeps one tag object, which it attaches to the alert, takes off
and overwrites between its transmissions. Each transmission encodes what the
object holds at that moment, if it is attached.
-/

structure TagObject where
  nodes : DestinationNodes
  attached : Bool

namespace TagObject

def encoded (tag : TagObject) : Option DestinationNodes :=
  if tag.attached then some tag.nodes else none

variable (data : Data F) (node : Node F)

def send (tag : TagObject) (egress : FaceId) : Outgoing F :=
  node.onOutgoingAlert { data with destinationNodes := tag.encoded } egress

def fetch (fuel : ℕ) (infra : Infrastructure F) (zor : ZoR F) : Except Fault TagObject :=
  match data.destinationNodes with
  | some dstNodes => .ok ⟨dstNodes, true⟩
  | none => do
      let dstNodes ← computeDestinationNodes fuel infra.routingInfo infra.positionInfo
        node.ctx.txRadius node.nodeId zor
      return ⟨dstNodes, false⟩

def broadcast (tag : TagObject) : Except Fault (TagObject × List (Outgoing F)) := do
  let v2i := node.ctx.getFaceIdFor .v2i
  if node.nodeId ∈ tag.nodes ∧ v2i ≠ 0 then
    let face ← node.getFace v2i
    let out := send data node ⟨tag.nodes, false⟩ face.faceId
    return (⟨tag.nodes.filter (· ≠ node.nodeId), false⟩, [out])
  else
    return (tag, [])

def sendShares : List (Σ _ : FaceId, DestinationNodes) → TagObject →
    Except Fault (TagObject × List (Outgoing F))
  | [], tag => return (tag, [])
  | entry :: entries, _ => do
      let tag : TagObject := ⟨entry.2, true⟩
      let face ← node.getFace entry.1
      let out := send data node tag face.faceId
      let (tag, sent) ← sendShares entries tag
      return (tag, out :: sent)

def forward (fuel : ℕ) (infra : Infrastructure F) (tag : TagObject) :
    Except Fault (TagObject × List (Outgoing F)) :=
  if tag.nodes.isEmpty then
    .ok (tag, [])
  else do
    let entries ← mira fuel infra.routingInfo tag.nodes node.nodeId
    sendShares data node entries.entries tag

/-- The handler of an RSU with the tag object. -/
def alertRsuHandler (fuel : ℕ) (infra : Infrastructure F) (zor : ZoR F) :
    Except Fault (Outcome F) :=
  if node.ctx.alertStore.isDuplicate data.name then
    .ok node.drop
  else do
    let node' := node.insertAlert ⟨data.name, .none, ⟨0, 0⟩⟩
    let tag ← fetch data node' fuel infra zor
    let (tag, sent) ← broadcast data node' tag
    let (_, wired) ← forward data node' fuel infra tag
    return ⟨node', sent ++ wired, node'.checkInside zor⟩

variable {data : Data F} {node : Node F}

theorem fetch_nodes (fuel : ℕ) (infra : Infrastructure F) (zor : ZoR F) :
    (fetch data node fuel infra zor).map TagObject.nodes =
      destinations fuel infra data zor node := by
  unfold fetch destinations
  cases data.destinationNodes with
  | some dstNodes => rfl
  | none =>
      cases computeDestinationNodes fuel infra.routingInfo infra.positionInfo node.ctx.txRadius
        node.nodeId zor <;> rfl

theorem broadcast_eq (tag : TagObject) :
    (broadcast data node tag).map (fun p => (p.1.nodes, p.2)) =
      Cafe.broadcast data tag.nodes node := by
  simp only [broadcast, Cafe.broadcast]
  split
  · cases node.getFace (node.ctx.getFaceIdFor .v2i) <;> rfl
  · rfl

theorem sendShares_eq (entries : List (Σ _ : FaceId, DestinationNodes)) (tag : TagObject) :
    (sendShares data node entries tag).map Prod.snd = entries.mapM fun entry => do
      let face ← node.getFace entry.1
      return node.onOutgoingAlert { data with destinationNodes := some entry.2 } face.faceId := by
  induction entries generalizing tag with
  | nil => rfl
  | cons entry entries ih =>
      rw [Fallible.mapM_cons, ← ih ⟨entry.2, true⟩, sendShares]
      cases node.getFace entry.1 with
      | error e => rfl
      | ok face => cases sendShares data node entries ⟨entry.2, true⟩ <;> rfl

theorem forward_eq (data : Data F) (node : Node F) (fuel : ℕ) (infra : Infrastructure F)
    (tag : TagObject) :
    (forward data node fuel infra tag).map Prod.snd =
      forwardShares fuel infra data tag.nodes node := by
  unfold forward forwardShares
  split
  · rfl
  · cases mira fuel infra.routingInfo tag.nodes node.nodeId with
    | error e => rfl
    | ok entries => exact sendShares_eq entries.entries tag

/-- Overwriting one object makes the transmissions that a fresh tag for each
of them would make. -/
theorem alertRsuHandler_eq (fuel : ℕ) (infra : Infrastructure F) (zor : ZoR F) :
    alertRsuHandler data node fuel infra zor = Cafe.alertRsuHandler fuel infra data zor node := by
  unfold alertRsuHandler Cafe.alertRsuHandler
  split
  · rfl
  · dsimp only
    rw [← fetch_nodes]
    cases fetch data (node.insertAlert ⟨data.name, .none, ⟨0, 0⟩⟩) fuel infra zor with
    | error e => rfl
    | ok tag =>
        change _ = (Cafe.broadcast data tag.nodes _ >>= _)
        rw [← broadcast_eq]
        cases hb : broadcast data (node.insertAlert ⟨data.name, .none, ⟨0, 0⟩⟩) tag with
        | error e => simp only [bind, Except.bind, hb, Except.map]
        | ok p =>
            rcases p with ⟨tag', sent⟩
            have hf := forward_eq data (node.insertAlert ⟨data.name, .none, ⟨0, 0⟩⟩) fuel infra tag'
            simp only [bind, Except.bind, hb, Except.map, ← hf]
            cases forward data (node.insertAlert ⟨data.name, .none, ⟨0, 0⟩⟩) fuel infra tag' <;> rfl

end TagObject

/-! ## What one event sends and keeps -/

section Effect

variable {infra : Infrastructure F} {node : Node F} {ev : NodeEvent F} {o : Outcome F}

/-- The event brings destinations only to an RSU, and only with an alert that
is forwarded by its zone. -/
def NodeEvent.TaggedAt (node : Node F) (ev : NodeEvent F) : Prop :=
  ∀ now data ingress, ev = .receive now data ingress → data.destinationNodes ≠ none →
    node.ctx.type = .rsu ∧ data.name.IsGeographic

theorem SharesCase.wired {fuel : ℕ} {data : Data F} {rest : DestinationNodes}
    {wired : List (Outgoing F)} (h : SharesCase fuel infra data rest node wired) :
    ∃ entries, ((rest = [] ∧ entries = ∅) ∨
        mira fuel infra.routingInfo rest node.nodeId = .ok entries) ∧
      wired = entries.entries.map (fun entry =>
        node.onOutgoingAlert { data with destinationNodes := some entry.2 } entry.1) ∧
      ∀ out ∈ wired, infra.routingInfo.HasFace node.nodeId out.egress := by
  cases h with
  | empty hemp => exact ⟨∅, Or.inl ⟨hemp, rfl⟩, rfl, by simp⟩
  | shares entries _ hmira _ =>
      refine ⟨entries, Or.inr hmira, rfl, ?_⟩
      intro out hout
      obtain ⟨entry, hentry, rfl⟩ := List.mem_map.mp hout
      obtain ⟨faces, face, hfaces, hface, heq⟩ := mira_faces hmira entry.1
        (AList.mem_keys.mpr (List.mem_map_of_mem hentry))
      change infra.routingInfo.HasFace node.nodeId entry.1
      rw [← heq]
      exact Graph.hasFace_of_lookup hfaces hface

theorem RsuCase.untagged {fuel : ℕ} {data : Data F} {zor : ZoR F}
    (h : RsuCase fuel infra data zor node o) : ∀ out ∈ o.sent,
      out.data.destinationNodes = none ∨
        (infra.routingInfo.HasFace node.nodeId out.egress ∧ out.data.name = data.name) := by
  cases h with
  | duplicate _ => simp
  | new dst rest sent wired _ _ hbroad hwired =>
      intro out hout
      rcases List.mem_append.mp hout with hout | hout
      · cases hbroad with
        | sends _ _ _ =>
            rw [List.mem_singleton.mp hout]
            exact Or.inl rfl
        | passes _ => simp at hout
      · obtain ⟨entries, _, rfl, hfaces⟩ := hwired.wired
        have hface := hfaces out hout
        obtain ⟨entry, _, rfl⟩ := List.mem_map.mp hout
        exact Or.inr ⟨hface, rfl⟩

theorem relayOn_untagged {data data' : Data F} {ingress : NfdFace} {senderType : NodeType}
    {face : Option NfdFace} (h : relayOn node data ingress senderType = (face, data'))
    (htag : data.destinationNodes = none) : data'.destinationNodes = none := by
  unfold relayOn at h
  split at h <;> simp only at h <;> split at h <;> cases h
  · rfl
  all_goals exact htag

/-- Destinations leave a node over a wire only, and none are kept. -/
theorem Node.Effect.untagged (h : node.Effect infra ev o) (hev : ev.TaggedAt node)
    (hevents : ∀ d ∈ node.events, d.data.destinationNodes = none) :
    (∀ d ∈ o.node.events, d.data.destinationNodes = none) ∧
      ∀ out ∈ o.sent, out.data.destinationNodes = none ∨
        (infra.routingInfo.HasFace node.nodeId out.egress ∧ out.data.name.IsGeographic) := by
  cases h with
  | @rsu _ _ data _ zor _ _ hz hgeo hc =>
      refine ⟨by cases hc <;> exact hevents, ?_⟩
      intro out hout
      rcases hc.untagged out hout with hnone | ⟨hface, hname⟩
      · exact Or.inl hnone
      · exact Or.inr ⟨hface, zor, hname.symm ▸ hz, hgeo⟩
  | dropped _ _ => exact ⟨hevents, by simp⟩
  | vehicle hv hc =>
      cases hc with
      | @geographic now data ingress zor nodePos _ hz hgeo _ hcase =>
          have htag : data.destinationNodes = none := by
            by_contra hne
            have hrsu := (hev now data ingress rfl hne).1
            rw [hv (by simp [NodeEvent.alert_receive now ingress hz hgeo])] at hrsu
            cases hrsu
          cases hcase with
          | origin sent _ _ hsent =>
              refine ⟨hevents, ?_⟩
              intro out hout
              rcases sendOn_ok hsent with rfl | rfl
              · simp at hout
              · rw [List.mem_singleton.mp hout]
                exact Or.inl htag
          | cancelled _ _ _ hreg _ =>
              obtain ⟨id, hid⟩ := Option.isSome_iff_exists.mp (AList.lookup_isSome.mpr hreg)
              refine ⟨?_, by simp⟩
              intro d hd
              rw [drop_node, (cancel_of_lookup hid).2] at hd
              exact hevents d (List.mem_filter.mp hd).1
          | deferred _ face data' _ _ _ hface =>
              refine ⟨?_, by simp⟩
              intro d hd
              rw [schedule_events, List.mem_append, List.mem_singleton] at hd
              rcases hd with hd | rfl
              · exact hevents d hd
              · exact relayOn_untagged hface htag
          | _ => exact ⟨hevents, by simp⟩
      | @ignored now data ingress sent _ hno hsent =>
          refine ⟨hevents, ?_⟩
          intro out hout
          obtain ⟨egress, rfl⟩ := hsent out hout
          left
          by_contra hne
          obtain ⟨zor, hz, hgeo⟩ := (hev now data ingress rfl hne).2
          rcases hno with hno | ⟨_, rfl, _⟩
          · exact hno zor hz hgeo
          · simp at hout
      | fired hmem =>
          refine ⟨fun d hd => hevents d (List.mem_filter.mp hd).1, ?_⟩
          intro out hout
          rw [List.mem_singleton.mp hout]
          exact Or.inl (hevents _ hmem)
      | _ => exact ⟨hevents, by simp⟩

theorem BroadcastCase.rest_eq {data : Data F} {dst rest : DestinationNodes}
    {sent : List (Outgoing F)} (h : BroadcastCase data dst node rest sent)
    (hv2i : node.ctx.getFaceIdFor .v2i ≠ 0) : rest = dst.filter (· ≠ node.nodeId) := by
  cases h with
  | sends _ _ _ => rfl
  | passes hnot =>
      symm
      apply List.filter_eq_self.mpr
      intro d hd
      have hne : d ≠ node.nodeId := by
        rintro rfl
        exact hnot ⟨hd, hv2i⟩
      simpa using hne

theorem RsuCase.sendsShares {fuel : ℕ} {data : Data F} {zor : ZoR F}
    (h : RsuCase fuel infra data zor node o) (hG : infra.routingInfo.Routable)
    (hapart : node.RadioApart infra.routingInfo)
    (hnew : ¬ node.ctx.alertStore.isDuplicate data.name) : node.SendsShares infra data zor o := by
  cases h with
  | duplicate hdup => exact absurd hdup hnew
  | new dst rest sent wired _ hdst hbroad hwired =>
      obtain ⟨entries, hentries, hwire, hfaces⟩ := hwired.wired
      refine ⟨fuel, dst, rest, entries, hdst, hentries, ?_, ?_⟩
      · have hsent : sent.filter
            (fun out => infra.routingInfo.HasFace node.nodeId out.egress) = [] := by
          apply List.filter_eq_nil_iff.mpr
          intro out hout
          cases hbroad with
          | sends _ hv2i _ =>
              rw [List.mem_singleton.mp hout]
              exact fun hface => hapart .v2i (Or.inr rfl) hv2i (of_decide_eq_true hface)
          | passes _ => simp at hout
        have hkept : wired.filter
            (fun out => infra.routingInfo.HasFace node.nodeId out.egress) = wired :=
          List.filter_eq_self.mpr fun out hout => by simpa using hfaces out hout
        rw [List.filter_append, hsent, hkept, hwire, List.nil_append]
      · intro hv2i
        refine ⟨hbroad.rest_eq hv2i, ?_⟩
        rcases hentries with ⟨rfl, rfl⟩ | hmira
        · exact partitions_empty _ _
        · exact partitions_of_mira hG.closed hG.ids hG.noOverflow hG.distinct hmira

end Effect

/-! ## Runs of the network -/

namespace Net

/-- Applications may attach the tags of a sender, but no destinations. -/
inductive OpenStep (infra : Infrastructure F) (medium : Medium F) (net : Net F) :
    Label F → Net F → Prop
  | step {l : Label F} {net' : Net F} (h : Step infra medium net l net') :
      OpenStep infra medium net l net'
  | publish {t now : ℕ} {n : NodeId} {data : Data F} {ingress : NfdFace} {node : Node F}
      {o : Outcome F} (hscope : ingress.scope = .isLocal) (htag : data.destinationNodes = none)
      (hnode : net.nodes n = some node)
      (hhandles : node.Handles infra (.receive now data ingress) o) :
      OpenStep infra medium net (t, .occur n (.receive now data ingress))
        (net.react medium t n false o net.inFlight)

/-- The faces for the radio are apart from the wires, a wire is heard at its
far end, and the run starts with no packet and no timer. -/
structure Cabled (infra : Infrastructure F) (medium : Medium F) (net₀ : Net F) : Prop where
  nodeId : ∀ n node, net₀.nodes n = some node → node.nodeId = n
  apart : ∀ n node, net₀.nodes n = some node → node.RadioApart infra.routingInfo
  wires : ∀ nodes n f, infra.routingInfo.HasFace n f → ∀ r ∈ medium nodes n f,
    r.1 ∈ infra.routingInfo.remotes n f
  inFlight : net₀.inFlight = []
  log : net₀.log = []
  events : ∀ n node, net₀.nodes n = some node → node.events = []

/-- The nodes with a wire are RSUs. -/
def WiresRsus (infra : Infrastructure F) (net₀ : Net F) : Prop :=
  ∀ n ∈ infra.routingInfo, ∀ node, net₀.nodes n = some node → node.ctx.type = .rsu

/-- Destinations are found on copies to RSUs and on wires only. -/
structure Untagged (infra : Infrastructure F) (net₀ net : Net F) : Prop where
  config : ∀ n node, net.nodes n = some node →
    ∃ node₀, net₀.nodes n = some node₀ ∧ node.config = node₀.config
  events : ∀ n node, net.nodes n = some node → ∀ d ∈ node.events, d.data.destinationNodes = none
  inFlight : ∀ c ∈ net.inFlight, c.data.destinationNodes ≠ none →
    c.dst ∈ infra.routingInfo ∧ c.data.name.IsGeographic
  log : ∀ tx ∈ net.log, tx.data.destinationNodes = none ∨
    infra.routingInfo.HasFace tx.sender tx.egress

section Run

variable {infra : Infrastructure F} {medium : Medium F} {net₀ net net' : Net F} {l : Label F}

theorem Cabled.untagged_nil (h : net₀.Cabled infra medium) : net₀.Untagged infra net₀ where
  config n node hnode := ⟨node, hnode, rfl⟩
  events n node hnode d hd := by simp [h.events n node hnode] at hd
  inFlight c hc := by simp [h.inFlight] at hc
  log tx htx := by simp [h.log] at htx

theorem Untagged.nodeId (hinv : net₀.Untagged infra net) (h : net₀.Cabled infra medium)
    {n : NodeId} {node : Node F} (hnode : net.nodes n = some node) : node.nodeId = n := by
  obtain ⟨node₀, hnode₀, hconfig⟩ := hinv.config n node hnode
  exact (congrArg Node.Config.nodeId hconfig).trans (h.nodeId n node₀ hnode₀)

theorem Untagged.apart (hinv : net₀.Untagged infra net) (h : net₀.Cabled infra medium)
    {n : NodeId} {node : Node F} (hnode : net.nodes n = some node) :
    node.RadioApart infra.routingInfo := by
  obtain ⟨node₀, hnode₀, hconfig⟩ := hinv.config n node hnode
  exact (h.apart n node₀ hnode₀).congr hconfig

/-- A node that handles an event keeps the invariant of the network. -/
theorem Untagged.react (hinv : net₀.Untagged infra net) (h : net₀.Cabled infra medium)
    (hclosed : infra.routingInfo.Closed) {t : ℕ} {n : NodeId} {deferred : Bool} {ev : NodeEvent F}
    {node : Node F} {o : Outcome F} {rest : List (Copy F)} (hnode : net.nodes n = some node)
    (hhandles : node.Handles infra ev o) (hev : ev.TaggedAt node)
    (hsub : ∀ c ∈ rest, c ∈ net.inFlight) :
    net₀.Untagged infra (net.react medium t n deferred o rest) := by
  have heffect := hhandles.effect
  have huntagged := heffect.untagged hev (hinv.events n node hnode)
  have hid := hinv.nodeId h hnode
  refine ⟨?_, ?_, ?_, ?_⟩
  · intro m node' hnode'
    rcases react_nodes_cases hnode' with ⟨rfl, rfl⟩ | ⟨_, hold⟩
    · obtain ⟨node₀, hnode₀, hconfig⟩ := hinv.config m node hnode
      exact ⟨node₀, hnode₀, heffect.config_eq.trans hconfig⟩
    · exact hinv.config m node' hold
  · intro m node' hnode'
    rcases react_nodes_cases hnode' with ⟨rfl, rfl⟩ | ⟨_, hold⟩
    · exact huntagged.1
    · exact hinv.events m node' hold
  · intro c hc htag
    rcases mem_react_inFlight.mp hc with hc | ⟨i, out, hout, hmem, hdata, _⟩
    · exact hinv.inFlight c (hsub c hc) htag
    · rw [hdata] at htag ⊢
      obtain ⟨hface, hgeo⟩ := (huntagged.2 out (List.mem_of_getElem? hout)).resolve_left htag
      rw [hid] at hface
      exact ⟨hclosed.remotes_mem (h.wires _ _ _ hface _ hmem), hgeo⟩
  · intro tx htx
    rw [react_log] at htx
    rcases List.mem_append.mp htx with htx | htx
    · exact hinv.log tx htx
    · obtain ⟨out, hout, rfl⟩ := List.mem_map.mp htx
      rcases huntagged.2 out hout with hnone | ⟨hface, _⟩
      · exact Or.inl hnone
      · rw [hid] at hface
        exact Or.inr hface

theorem Untagged.step (hinv : net₀.Untagged infra net) (h : net₀.Cabled infra medium)
    (hrsus : net₀.WiresRsus infra) (hclosed : infra.routingInfo.Closed)
    (hstep : OpenStep infra medium net l net') :
    net₀.Untagged infra net' := by
  cases hstep with
  | publish hscope htag hnode hhandles =>
      apply hinv.react h hclosed hnode hhandles _ fun _ hc => hc
      rintro _ _ _ ⟨⟩ hne
      exact absurd htag hne
  | step hstep =>
      cases hstep.change with
      | medium _ hnodes hlog hsub _ =>
          refine ⟨fun n node hnode => ?_, fun n node hnode => ?_, fun c hc => ?_, ?_⟩
          · exact hinv.config n node (hnodes ▸ hnode)
          · exact hinv.events n node (hnodes ▸ hnode)
          · exact hinv.inFlight c (hsub c hc)
          · rw [hlog]
            exact hinv.log
      | node n ev node o rest _ hnode hhandles hsource hsub _ hnet =>
          rw [hnet]
          apply hinv.react h hclosed hnode hhandles _ hsub
          rintro now data ingress rfl hne
          rcases hsource with ⟨_, hlocal⟩ | ⟨c, hc, _, rfl, hev⟩
          · exact absurd hlocal.2.2.2 hne
          · cases hev
            obtain ⟨hmem, hgeo⟩ := hinv.inFlight c hc hne
            obtain ⟨node₀, hnode₀, hconfig⟩ := hinv.config c.dst node hnode
            have htype : node.ctx.type = node₀.ctx.type := congrArg Node.Config.type hconfig
            exact ⟨htype.trans (hrsus c.dst hmem node₀ hnode₀), hgeo⟩

theorem Cabled.untagged (h : net₀.Cabled infra medium) (hrsus : net₀.WiresRsus infra)
    (hclosed : infra.routingInfo.Closed) {ls : List (Label F)}
    (hrun : Run (OpenStep infra medium) net₀ ls net) : net₀.Untagged infra net :=
  hrun.invariant (fun _ net => net₀.Untagged infra net) h.untagged_nil
    fun _ _ _ _ _ _ _ hinv hstep => hinv.step h hrsus hclosed hstep

end Run

end Net

/-- No packet on a V2V or V2I face carries destinations. On its wires an RSU
sends a new alert with the shares that `mira` assigns to them. -/
theorem tags_stay_wired {infra : Infrastructure F} {medium : Medium F} {net₀ net : Net F}
    {ls : List (Net.Label F)} (h : net₀.Cabled infra medium) (hrsus : net₀.WiresRsus infra)
    (hG : infra.routingInfo.Routable) (hrun : Run (Net.OpenStep infra medium) net₀ ls net) :
    (∀ tx ∈ net.log, ∀ node, net.nodes tx.sender = some node → ∀ context,
      context = .v2v ∨ context = .v2i → tx.egress = node.ctx.getFaceIdFor context →
        tx.egress ≠ 0 → tx.data.destinationNodes = none) ∧
    ∀ n node, net.nodes n = some node → node.ctx.type = .rsu → ∀ t data ingress zor o,
      extractZoR data.name = some zor → zor.IsGeographic →
        node.Handles infra (.receive t data ingress) o →
          (node.ctx.alertStore.isDuplicate data.name → o.sent = []) ∧
          (¬ node.ctx.alertStore.isDuplicate data.name → node.SendsShares infra data zor o) := by
  have hinv := h.untagged hrsus hG.closed hrun
  constructor
  · intro tx htx node hnode context hcontext hegress hne
    rcases hinv.log tx htx with hnone | hface
    · exact hnone
    · have hapart := hinv.apart h hnode context hcontext (hegress ▸ hne)
      rw [hinv.nodeId h hnode, ← hegress] at hapart
      exact absurd hface hapart
  · intro n node hnode hr t data ingress zor o hz hgeo hhandles
    obtain ⟨fuel, hcase⟩ := hhandles.rsuCase hr hz hgeo
    constructor
    · intro hdup
      cases hcase with
      | duplicate _ => rfl
      | new _ _ _ _ hnew _ _ _ => exact absurd hdup hnew
    · exact hcase.sendsShares hG (hinv.apart h hnode)

/-! ## Three networks -/

namespace Tagged

/-- An application on an RSU creates the alert. -/
def alert : Data ℝ := ⟨Wired.name, 100, none, none, none, 0⟩

def ingress : NfdFace := ⟨300, .isLocal⟩

/-- The RSU has an alert of its own and sends its shares. -/
theorem creates {infra : Infrastructure ℝ} {n : NodeId}
    (hfaces : ∀ e ∈ infra.routingInfo.entries, ∀ face ∈ e.2, face.faceId ≠ 256) {fuel : ℕ}
    {dst : DestinationNodes} {entries : UnorderedMap FaceId DestinationNodes}
    (hdst : computeDestinationNodes fuel infra.routingInfo infra.positionInfo 1 n
    Pair.zone = .ok dst)
    (hmira : mira fuel infra.routingInfo (dst.filter (· ≠ n)) n = .ok entries) :
    ∃ o, (Wired.rsu infra n).Handles infra (.receive 0 alert ingress) o ∧
      o.sent = (Wired.rsu infra n).relays alert dst entries :=  by
  have hz : extractZoR alert.name = some Pair.zone := rfl
  obtain ⟨o, ho, hsent, _⟩ := (Wired.rsu_isRsu hfaces).handles_new 0 ingress hz trivial
    (Wired.rsu_new infra n) hdst hmira
  exact ⟨o, ho, hsent⟩

/-- A network of RSUs before any alert. -/
noncomputable def quiet (infra : Infrastructure ℝ) : Net ℝ := Wired.state infra [] [] []

theorem quiet_nodes {infra : Infrastructure ℝ} {n : NodeId} {node : Node ℝ}
    (h : (quiet infra).nodes n = some node) : n ∈ infra.routingInfo ∧ node = Wired.rsu infra n := by
  simp only [quiet, Wired.state, List.not_mem_nil, if_false] at h
  split at h
  · rename_i hn
    exact ⟨hn, (Option.some.inj h).symm⟩
  · cases h

theorem medium_remotes {G : Graph} {n : NodeId} {f : FaceId} {r : NodeId × FaceId}
    (hr : r ∈ (Wired.medium G) (fun _ => none) n f) : r.1 ∈ G.remotes n f := by
  obtain ⟨m, hm, rfl⟩ := List.mem_map.mp hr
  exact hm

theorem notMem_faces {G : Graph} (hfaces : ∀ e ∈ G.entries, ∀ face ∈ e.2, face.faceId ≠ 256)
    (n : NodeId) : ¬ G.HasFace n 256 := by
  unfold Graph.HasFace
  cases hlook : G.lookup n with
  | none => simp
  | some faces =>
      intro hmem
      obtain ⟨face, hface, heq⟩ := List.mem_map.mp hmem
      exact Graph.forall_faces (P := fun _ face => face.faceId ≠ 256) hfaces n faces hlook
        face hface
        heq

theorem rsu_apart {infra : Infrastructure ℝ} {n : NodeId}
    (hfaces : ∀ e ∈ infra.routingInfo.entries, ∀ face ∈ e.2, face.faceId ≠ 256) :
    (Wired.rsu infra n).RadioApart infra.routingInfo := by
  rintro context (rfl | rfl) hne
  · exact absurd rfl hne
  · exact notMem_faces hfaces n

theorem quiet_cabled {infra : Infrastructure ℝ}
    (hfaces : ∀ e ∈ infra.routingInfo.entries, ∀ face ∈ e.2, face.faceId ≠ 256) :
    (quiet infra).Cabled infra (Wired.medium infra.routingInfo) where
  nodeId n node hnode := by rw [(quiet_nodes hnode).2]; rfl
  apart n node hnode := by
    rw [(quiet_nodes hnode).2]
    exact rsu_apart hfaces
  wires _ _ _ _ _ hr := medium_remotes hr
  inFlight := rfl
  log := rfl
  events n node hnode := by rw [(quiet_nodes hnode).2]; rfl

theorem quiet_rsus (infra : Infrastructure ℝ) : (quiet infra).WiresRsus infra := by
  intro n _ node hnode
  rw [(quiet_nodes hnode).2]
  rfl

/-- Two RSUs whose only link is as dear as infinity. -/
def dear : Graph where
  entries := [⟨0, [⟨257, 1, 4294967295⟩]⟩, ⟨1, [⟨257, 0, 4294967295⟩]⟩]
  nodupKeys := by
    unfold List.NodupKeys
    decide

def dearInfra : Infrastructure ℝ := ⟨dear, Twin.positions⟩

theorem finds_dear : computeDestinationNodes 16 dear Twin.positions 1 0 Pair.zone = .ok [1, 0] := by
  have hvisits : Destinations.bfs dear (∅ : NodePosition ℝ) 0 .neighbor 16
      (Destinations.visit ∅ 0 .neighbor ⟨[], [], Destinations.Found.init ℝ⟩ 0) =
        .ok ⟨[0, 1], [], Destinations.Found.init ℝ⟩ := rfl
  refine computeDestinationNodes_eq hvisits ?_ (by simp)
  simp only [List.foldl_cons, List.foldl_nil]
  rw [Wired.compute_near _ rfl, Wired.compute_near _ rfl]
  rfl

/-- A vehicle between two RSUs, wired to both. -/
def line : Graph where
  entries := [⟨0, [⟨257, 1, 1⟩]⟩, ⟨1, [⟨257, 0, 1⟩, ⟨258, 2, 1⟩]⟩, ⟨2, [⟨257, 1, 1⟩]⟩]
  nodupKeys := by
    unfold List.NodupKeys
    decide

def linePositions : NodePosition ℝ where
  entries := [⟨0, ⟨(100 : ℕ), 0⟩⟩, ⟨2, ⟨0, 0⟩⟩]
  nodupKeys := by
    unfold List.NodupKeys
    decide

def lineInfra : Infrastructure ℝ := ⟨line, linePositions⟩

theorem finds_line : computeDestinationNodes 24 line linePositions 1 0 Pair.zone = .ok [2] := by
  have hvisits : Destinations.bfs line (∅ : NodePosition ℝ) 0 .neighbor 24
      (Destinations.visit ∅ 0 .neighbor ⟨[], [], Destinations.Found.init ℝ⟩ 0) =
        .ok ⟨[0, 1, 2], [], Destinations.Found.init ℝ⟩ := rfl
  have hskip : ∀ b, Destinations.compute linePositions 1 Pair.zone b 1 = b := fun _ => rfl
  refine computeDestinationNodes_eq hvisits ?_ (by simp)
  simp only [List.foldl_cons, List.foldl_nil]
  rw [Wired.compute_near _ rfl, hskip, Wired.compute_far _ rfl]
  rfl

noncomputable def vehicle : Node ℝ where
  nodeId := 1
  mobility := some ⟨1, 0⟩
  ctx := { Context.init ℝ with type := .vehicle, faceContextMap := [(1, .v2v)] }
  faceTable := [⟨1, .nonLocal⟩, ⟨257, .nonLocal⟩, ⟨258, .nonLocal⟩]
  events := []
  nextEvent := 0

noncomputable def lineNet : Net ℝ :=
  { quiet lineInfra with nodes := Function.update (quiet lineInfra).nodes 1 (some vehicle) }

theorem line_faces : ∀ e ∈ lineInfra.routingInfo.entries, ∀ face ∈ e.2, face.faceId ≠ 256 := by
  decide

theorem lineNet_nodes {n : NodeId} {node : Node ℝ} (h : lineNet.nodes n = some node) :
    (n = 1 ∧ node = vehicle) ∨ node = Wired.rsu lineInfra n := by
  by_cases hn : n = 1
  · subst hn
    simp only [lineNet, Function.update_self] at h
    exact Or.inl ⟨rfl, (Option.some.inj h).symm⟩
  · simp only [lineNet, ne_eq, hn, not_false_eq_true, Function.update_of_ne] at h
    exact Or.inr (quiet_nodes h).2

theorem lineNet_cabled : lineNet.Cabled lineInfra (Wired.medium line) where
  nodeId n node hnode := by
    rcases lineNet_nodes hnode with ⟨rfl, rfl⟩ | rfl <;> rfl
  apart n node hnode := by
    rcases lineNet_nodes hnode with ⟨rfl, rfl⟩ | rfl
    · rintro context (rfl | rfl) hne
      · decide
      · exact absurd rfl hne
    · exact rsu_apart line_faces
  wires _ _ _ _ _ hr := medium_remotes hr
  inFlight := rfl
  log := rfl
  events n node hnode := by
    rcases lineNet_nodes hnode with ⟨rfl, rfl⟩ | rfl <;> rfl

/-- The share of RSU 2 passes the vehicle, which relays it by radio. -/
theorem line_relays : ∃ ls net, Run (Net.Step lineInfra (Wired.medium line)) lineNet ls net ∧
    ∃ tx ∈ net.log, ∃ node, net.nodes tx.sender = some node ∧
      tx.egress = node.ctx.getFaceIdFor .v2v ∧ tx.egress ≠ 0 ∧ tx.data.destinationNodes ≠ none := by
  have hmira : mira 24 line ([2] : DestinationNodes) 0 =
      .ok (Wired.shares [⟨257, [2]⟩] (by decide)) := rfl
  obtain ⟨o₁, h₁, hsent⟩ := creates line_faces (n := 0) finds_line hmira
  have s₁ : Net.Step lineInfra (Wired.medium line) lineNet (0, .occur 0 (.receive 0 alert ingress))
      (lineNet.react (Wired.medium line) 0 0 false o₁ []) := .occur ⟨rfl, rfl, rfl, rfl⟩ rfl h₁
  let c : Copy ℝ := Wired.share linePositions 0 1 [2] 0
  have hflight : (lineNet.react (Wired.medium line) 0 0 false o₁ []).inFlight = [c] := by
    simp only [Net.react, hsent]
    rfl
  have hnew : ¬ vehicle.ctx.alertStore.isDuplicate c.data.name := by
    simp [vehicle, Context.init, AlertStore.isDuplicate, AlertStore.names]
  let o₂ : Outcome ℝ := ⟨(vehicle.insertAlert ⟨Wired.name, .rsu, ⟨100, 0⟩⟩).schedule
    (1 + deferDelay vehicle.ctx 100 (Point.distanceFromPoint ⟨1, 0⟩ ⟨100, 0⟩)) c.data 1, [],
    Pair.zone.contains ⟨1, 0⟩⟩
  have h₂ : vehicle.Handles lineInfra (.receive 1 c.data ⟨257, .nonLocal⟩) o₂ := by
    have hz : extractZoR c.data.name = some Pair.zone := rfl
    have hpos : c.data.senderPos = some ⟨100, 0⟩ := rfl
    apply Node.handles_case rfl hz trivial rfl (by simp [hpos])
    exact .deferred ⟨100, 0⟩ ⟨1, .nonLocal⟩ c.data rfl hnew (fun h => h.1 Pair.zone_contains) rfl
  have s₂ : Net.Step lineInfra (Wired.medium line)
      (lineNet.react (Wired.medium line) 0 0 false o₁ []) (1, .deliver c)
      ((lineNet.react (Wired.medium line) 0 0 false o₁ []).react (Wired.medium line) 1 1 false o₂
        ([] ++ [])) := .deliver hflight rfl h₂
  have s₃ : Net.Step lineInfra (Wired.medium line)
      ((lineNet.react (Wired.medium line) 0 0 false o₁ []).react (Wired.medium line) 1 1 false o₂
        ([] ++ [])) (2, .occur 1 (.expire 0)) _ := .occur trivial rfl ⟨0, rfl⟩
  refine ⟨_, _, ((Run.nil.snoc s₁).snoc s₂).snoc s₃, ⟨1, 1, (vehicle.onOutgoingAlert c.data 1).data,
    true⟩, ?_, o₂.node.expire 0 |>.node, rfl, rfl, by decide, ?_⟩
  · rw [Net.react_log]
    exact List.mem_append_right _ (List.mem_singleton.mpr rfl)
  · exact fun h => by cases h

/-- A share is missing where `mira` finds no way to a node within reach. -/
theorem loses (infra : Infrastructure ℝ) {fuel : ℕ}
    (hfaces : ∀ e ∈ infra.routingInfo.entries, ∀ face ∈ e.2, face.faceId ≠ 256)
    (hdst : computeDestinationNodes fuel infra.routingInfo infra.positionInfo 1 0 Pair.zone =
      .ok [1, 0])
    (hmira : mira fuel infra.routingInfo [1] 0 = .ok ∅)
    (hreach : Reaches infra.routingInfo.Link 0 1) :
    ∃ o, (Wired.rsu infra 0).Handles infra (.receive 0 alert ingress) o ∧
      ¬ (Wired.rsu infra 0).SendsShares infra alert Pair.zone o := by
  obtain ⟨o, ho, hsent⟩ := creates hfaces hdst hmira
  refine ⟨o, ho, ?_⟩
  rintro ⟨fuel', dst, rest, entries, hdst', _, hfilter, hshares⟩
  have hv2i : (Wired.rsu infra 0).ctx.getFaceIdFor .v2i ≠ 0 := show (256 : FaceId) ≠ 0 by decide
  obtain ⟨hrest, hpart⟩ := hshares hv2i
  have hcomputed : destinations fuel infra alert Pair.zone (Wired.rsu infra 0) = .ok [1, 0] := hdst
  obtain rfl := Node.destinations_unique hdst' hcomputed
  have hrelays : o.sent.filter (fun out => infra.routingInfo.HasFace 0 out.egress) = [] := by
    rw [hsent]
    have hbroadcast : (Wired.rsu infra 0).relays alert [1, 0] ∅ =
        [(Wired.rsu infra 0).onOutgoingAlert alert 256] := rfl
    rw [hbroadcast]
    apply List.filter_eq_nil_iff.mpr
    intro out hout
    rw [List.mem_singleton.mp hout]
    exact fun hface => notMem_faces hfaces 0 (of_decide_eq_true hface)
  have hentries : entries.entries = [] := by
    change o.sent.filter (fun out => infra.routingInfo.HasFace 0 out.egress) = _ at hfilter
    rw [hrelays] at hfilter
    exact List.map_eq_nil_iff.mp hfilter.symm
  have hmem : (1 : NodeId) ∈ [1, 0].filter (· ≠ (0 : NodeId)) := by decide
  have hne : (1 : NodeId) ≠ 0 := by decide
  obtain ⟨f, S, hlook, _⟩ := hpart.covers 1 (hrest.symm ▸ hmem) hne hreach
  have hkey : f ∈ entries.keys := AList.mem_keys.mp (AList.lookup_isSome.mp (by rw [hlook]; rfl))
  rw [AList.keys, hentries] at hkey
  cases hkey

/-- The way leads over the id that stands for no node. -/
def hidden : Graph where
  entries := [⟨0, [⟨257, 4294967295, 1⟩]⟩, ⟨4294967295, [⟨257, 0, 1⟩, ⟨258, 1, 1⟩]⟩,
    ⟨1, [⟨257, 4294967295, 1⟩]⟩]
  nodupKeys := by
    unfold List.NodupKeys
    decide

def hiddenInfra : Infrastructure ℝ := ⟨hidden, Twin.positions⟩

theorem finds_hidden :
    computeDestinationNodes 24 hidden Twin.positions 1 0 Pair.zone = .ok [1, 0] := by
  have hvisits : Destinations.bfs hidden (∅ : NodePosition ℝ) 0 .neighbor 24
      (Destinations.visit ∅ 0 .neighbor ⟨[], [], Destinations.Found.init ℝ⟩ 0) =
        .ok ⟨[0, 4294967295, 1], [], Destinations.Found.init ℝ⟩ := rfl
  have hskip : ∀ b, Destinations.compute Twin.positions 1 Pair.zone b 4294967295 = b :=
    fun _ => rfl
  refine computeDestinationNodes_eq hvisits ?_ (by simp)
  simp only [List.foldl_cons, List.foldl_nil]
  rw [Wired.compute_near _ rfl, hskip, Wired.compute_near _ rfl]
  rfl

theorem dear_reaches : Reaches dear.Link 0 1 :=
  (Reaches.refl 0).snoc (c := 4294967295) ⟨_, rfl, _, List.mem_cons_self, rfl, rfl⟩

theorem hidden_reaches : Reaches hidden.Link 0 1 :=
  ((Reaches.refl 0).snoc (c := 1) ⟨_, rfl, _, List.mem_cons_self, rfl, rfl⟩).snoc (c := 1)
    ⟨_, rfl, _, List.mem_cons_of_mem _ List.mem_cons_self, rfl, rfl⟩

theorem hidden_noOverflow (n : NodeId) : hidden.NoOverflow n :=
  Graph.NoOverflow.of_cost (Graph.forall_links (P := fun _ _ c => c ≤ 1) (by decide))
    (by decide) n

end Tagged

/-- An RSU broadcasts its alert and sends a share to its neighbour. -/
theorem tags_stay_wired_two : ∃ l net,
    Run (Net.OpenStep Twin.infra (Wired.medium Wired.pair)) (Tagged.quiet Twin.infra) [l] net ∧
      net.log.map (fun tx => (tx.egress, tx.data.destinationNodes)) =
        [(256, none), (257, some [1])] ∧
      ∀ tx ∈ net.log, ∀ node, net.nodes tx.sender = some node → ∀ context,
        context = .v2v ∨ context = .v2i → tx.egress = node.ctx.getFaceIdFor context →
          tx.egress ≠ 0 → tx.data.destinationNodes = none := by
  have hfaces : ∀ e ∈ Twin.infra.routingInfo.entries, ∀ face ∈ e.2, face.faceId ≠ 256 := by decide
  have hmira : mira 16 Twin.infra.routingInfo ([1] : DestinationNodes) 0 =
      .ok (Wired.shares [⟨257, [1]⟩] (by decide)) := rfl
  obtain ⟨o, ho, hsent⟩ := Tagged.creates (n := 0) hfaces Twin.finds_zero hmira
  have hstep : Net.OpenStep Twin.infra (Wired.medium Wired.pair) (Tagged.quiet Twin.infra)
      (0, .occur 0 (.receive 0 Tagged.alert Tagged.ingress)) _ := .publish rfl rfl rfl ho
  have hrun := Run.nil.snoc hstep
  refine ⟨_, _, hrun, ?_, (tags_stay_wired (Tagged.quiet_cabled hfaces)
    (Tagged.quiet_rsus Twin.infra) Wired.pair_routable hrun).1⟩
  rw [Net.react_log, hsent]
  rfl

theorem tags_not_wired :
    (∃ (infra infra' : Infrastructure ℝ), Mira.undefinedNode ∉ infra.routingInfo ∧
      (∀ n, infra'.routingInfo.NoOverflow n) ∧ ∀ i ∈ [infra, infra'],
        i.routingInfo.Closed ∧ i.routingInfo.FaceIdsDistinct ∧
        ∃ (medium : Medium ℝ) (net₀ : Net ℝ), net₀.Cabled i medium ∧ net₀.WiresRsus i ∧
          ∃ n node data ingress o, net₀.nodes n = some node ∧
            node.ctx.getFaceIdFor .v2i ≠ 0 ∧ ingress.scope = .isLocal ∧
            data.destinationNodes = none ∧ ¬ node.ctx.alertStore.isDuplicate data.name ∧
            node.Handles i (.receive 0 data ingress) o ∧ ¬ node.SendsShares i data Pair.zone o) ∧
    ∃ (infra : Infrastructure ℝ) (medium : Medium ℝ) (net₀ : Net ℝ), net₀.Cabled infra medium ∧
      infra.routingInfo.Routable ∧
      (∀ n node, net₀.nodes n = some node → node.ctx.type = .vehicle ∨ node.ctx.type = .rsu) ∧
      ∃ ls net, Run (Net.Step infra medium) net₀ ls net ∧
        ∃ tx ∈ net.log, ∃ node, net.nodes tx.sender = some node ∧
          tx.egress = node.ctx.getFaceIdFor .v2v ∧ tx.egress ≠ 0 ∧
          tx.data.destinationNodes ≠ none := by
  constructor
  · refine ⟨Tagged.dearInfra, Tagged.hiddenInfra, by decide, Tagged.hidden_noOverflow, ?_⟩
    intro i hi
    rcases List.mem_pair.mp hi with rfl | rfl
    · obtain ⟨o, ho, hnot⟩ := Tagged.loses Tagged.dearInfra (by decide)
        Tagged.finds_dear rfl Tagged.dear_reaches
      exact ⟨Graph.forall_faces (P := fun _ face => face.remoteNodeId ∈ Tagged.dear) (by decide),
        Graph.faceIdsDistinct (by decide), Wired.medium Tagged.dear, Tagged.quiet Tagged.dearInfra,
        Tagged.quiet_cabled (by decide), Tagged.quiet_rsus _, 0, _, Tagged.alert, Tagged.ingress,
        o, rfl, by decide, rfl, rfl, Wired.rsu_new _ 0, ho, hnot⟩
    · obtain ⟨o, ho, hnot⟩ := Tagged.loses Tagged.hiddenInfra (by decide)
        Tagged.finds_hidden rfl Tagged.hidden_reaches
      exact ⟨Graph.forall_faces (P := fun _ face => face.remoteNodeId ∈ Tagged.hidden) (by decide),
        Graph.faceIdsDistinct (by decide), Wired.medium Tagged.hidden,
        Tagged.quiet Tagged.hiddenInfra, Tagged.quiet_cabled (by decide), Tagged.quiet_rsus _, 0, _,
        Tagged.alert, Tagged.ingress, o, rfl, by decide, rfl, rfl, Wired.rsu_new _ 0, ho, hnot⟩
  · refine ⟨Tagged.lineInfra, Wired.medium Tagged.line, Tagged.lineNet, Tagged.lineNet_cabled,
      Graph.routable_unit (by decide) (by decide) (by decide) (by decide) (by decide), ?_,
      Tagged.line_relays⟩
    intro n node hnode
    rcases Tagged.lineNet_nodes hnode with ⟨_, rfl⟩ | rfl
    · exact Or.inl rfl
    · exact Or.inr rfl

end Cafe
