import Cafe.AtMostOnce
import Cafe.Multicast

/-!
# The wired backbone

Every node of the graph is an RSU, and a face of the graph leads over a wire
to its remote node. The deliveries of one alert among the RSUs are steps of
a multicast: the tokens are the copies, and the hops are those of `mira`.
-/

open Labelled WeightedDigraph

namespace Cafe

variable {F : Type} [Arith F]

/-- The remote nodes of the face `f` of `n`. -/
def Graph.remotes (G : Graph) (n : NodeId) (f : FaceId) : List NodeId :=
  (((G.lookup n).getD []).filter fun face => face.faceId = f).map Face.remoteNodeId

/-- Each face of the graph is heard at its remote node, and RSUs hear nothing
else. -/
def Medium.Wires (G : Graph) (medium : Medium F) : Prop :=
  ∀ nodes n f, (medium nodes n f).map Prod.fst = G.remotes n f

/-- The V2I face of an RSU and the range of its radio. -/
structure Site (F : Type) where
  v2i : FaceId
  txRadius : F

/-- The node is the RSU at `n`, with a V2I face and the faces of the graph. -/
structure Node.IsRsu (G : Graph) (n : NodeId) (site : Site F) (node : Node F) : Prop where
  type : node.ctx.type = .rsu
  nodeId : node.nodeId = n
  txRadius : node.ctx.txRadius = site.txRadius
  v2i : node.ctx.getFaceIdFor .v2i = site.v2i
  v2i_ne : site.v2i ≠ 0
  v2i_mem : site.v2i ∈ node.faceTable.map NfdFace.faceId
  faces : ∀ faces, G.lookup n = some faces → ∀ face ∈ faces,
    face.faceId ∈ node.faceTable.map NfdFace.faceId ∧ face.faceId ≠ site.v2i

/-- What the routing of the alerts relies on. -/
structure Graph.Routable (G : Graph) : Prop where
  closed : G.Closed
  ids : Mira.undefinedNode ∉ G
  distinct : G.FaceIdsDistinct
  noOverflow : ∀ n ∈ G, G.NoOverflow n

/-- A graph of unit costs is routable if its entries are in order. -/
theorem Graph.routable_unit {G : Graph}
    (hclosed : ∀ e ∈ G.entries, ∀ face ∈ e.2, face.remoteNodeId ∈ G)
    (hids : Mira.undefinedNode ∉ G) (hdistinct : ∀ e ∈ G.entries, (e.2.map Face.faceId).Nodup)
    (hcost : ∀ e ∈ G.entries, ∀ face ∈ e.2, face.linkCost.toNat ≤ 1)
    (hfit : G.keys.length < 4294967295) : G.Routable := by
  have hclosed' : G.Closed := Graph.forall_faces (P := fun _ face => face.remoteNodeId ∈ G) hclosed
  exact ⟨hclosed', hids, Graph.faceIdsDistinct hdistinct, fun n _ => Graph.NoOverflow.of_cost
    (Graph.forall_links (P := fun _ _ c => c ≤ 1) hcost) (by omega) n⟩

theorem Graph.mem_remotes {G : Graph} {n : NodeId} {f : FaceId} {c : NodeId} :
    c ∈ G.remotes n f ↔ ∃ faces, G.lookup n = some faces ∧ ∃ face ∈ faces, face.faceId = f ∧
      face.remoteNodeId = c := by
  unfold remotes
  cases G.lookup n with
  | none => simp
  | some faces => simp [and_assoc]

theorem Graph.remotes_faceTo {G : Graph} (hdist : G.FaceIdsDistinct) {n c : NodeId}
    {faces : List Face} (hfaces : G.lookup n = some faces) {face : Face}
    (hto : Mira.faceTo faces c = some face) : G.remotes n face.faceId = [c] := by
  obtain ⟨hmem, rfl⟩ := Mira.mem_of_faceTo hto
  unfold remotes
  rw [hfaces, Option.getD_some, Multicast.filter_key_eq (hdist n faces hfaces) hmem]
  rfl

namespace Node

variable {G : Graph} {n : NodeId} {site : Site F} {node node' : Node F}

theorem IsRsu.congr (h : node.IsRsu G n site) (hconfig : node'.config = node.config) :
    node'.IsRsu G n site := by
  have hmap : node'.ctx.faceContextMap = node.ctx.faceContextMap :=
    congrArg Config.faceContextMap hconfig
  have htable : node'.faceTable = node.faceTable := congrArg Config.faceTable hconfig
  refine ⟨(congrArg Config.type hconfig).trans h.type,
    (congrArg Config.nodeId hconfig).trans h.nodeId,
    (congrArg Config.txRadius hconfig).trans h.txRadius, ?_, h.v2i_ne, htable ▸ h.v2i_mem,
    fun faces hf face hm => htable ▸ h.faces faces hf face hm⟩
  rw [← h.v2i]
  unfold Context.getFaceIdFor
  rw [hmap]

theorem Handles.rsuCase {infra : Infrastructure F} {t : ℕ} {data : Data F} {ingress : NfdFace}
    {zor : ZoR F} {o : Outcome F} (h : node.Handles infra (.receive t data ingress) o)
    (hr : node.ctx.type = .rsu) (hz : extractZoR data.name = some zor) (hgeo : zor.IsGeographic) :
    ∃ fuel, RsuCase fuel infra data zor node o := by
  have halert := NodeEvent.alert_receive t ingress hz hgeo
  generalize hev : NodeEvent.receive t data ingress = ev at h halert
  cases h.effect with
  | vehicle hv _ =>
      rw [hr] at hv
      exact absurd (hv (by simp [halert])) (by decide)
  | @rsu fuel _ _ _ zor' _ _ hz' _ hcase =>
      cases hev
      obtain rfl := Option.some.inj (hz.symm.trans hz')
      exact ⟨fuel, hcase⟩
  | dropped _ hr' => exact absurd hr hr'

/-- What an RSU transmits for a new alert with the destinations `dst`. -/
def relays (node : Node F) (data : Data F) (dst : DestinationNodes)
    (entries : UnorderedMap FaceId DestinationNodes) : List (Outgoing F) :=
  (if node.nodeId ∈ dst then
    [node.onOutgoingAlert { data with destinationNodes := none } (node.ctx.getFaceIdFor .v2i)]
  else []) ++
    entries.entries.map fun entry =>
      node.onOutgoingAlert { data with destinationNodes := some entry.2 } entry.1

/-- The broadcast takes an RSU off its own list of destinations. -/
theorem IsRsu.broadcast (hrsu : node.IsRsu G n site) {data : Data F} {dst rest : DestinationNodes}
    {sent : List (Outgoing F)} (h : BroadcastCase data dst node rest sent) :
    rest = dst.filter (· ≠ n) ∧ sent = if node.nodeId ∈ dst then
      [node.onOutgoingAlert { data with destinationNodes := none } (node.ctx.getFaceIdFor .v2i)]
      else [] := by
  have hid : node.nodeId = n := hrsu.nodeId
  cases h with
  | sends hmem _ _ =>
      rw [if_pos hmem, hid]
      exact ⟨rfl, rfl⟩
  | passes hnot =>
      have hnmem : n ∉ dst := by
        intro hmem
        exact hnot ⟨hid.symm ▸ hmem, hrsu.v2i.symm ▸ hrsu.v2i_ne⟩
      rw [if_neg (by rwa [hid])]
      refine ⟨(List.filter_eq_self.mpr fun d hmem => ?_).symm, rfl⟩
      simpa using fun heq : d = n => hnmem (heq ▸ hmem)

/-- A new alert is broadcast by a destination and sent on by what `mira` yields. -/
theorem IsRsu.sent (hrsu : node.IsRsu G n site) {fuel : ℕ} {infra : Infrastructure F}
    (hinfra : infra.routingInfo = G) {data : Data F} {zor : ZoR F} {o : Outcome F}
    (hnew : ¬ node.ctx.alertStore.isDuplicate data.name) (h : RsuCase fuel infra data zor node o) :
    ∃ dst entries, destinations fuel infra data zor node = .ok dst ∧
      ((dst.filter (· ≠ n) = [] ∧ entries = ∅) ∨ mira fuel G (dst.filter (· ≠ n)) n = .ok entries) ∧
      o.sent = node.relays data dst entries ∧ o.node =
        node.insertAlert ⟨data.name, .none, ⟨0, 0⟩⟩ := by
  cases h with
  | duplicate hdup => exact absurd hdup hnew
  | new dst rest sent wired _ hd hbroad hwired =>
      obtain ⟨rfl, rfl⟩ := hrsu.broadcast hbroad
      cases hwired with
      | empty hemp => exact ⟨dst, ∅, hd, Or.inl ⟨hemp, rfl⟩, by simp [Node.relays], rfl⟩
      | shares entries _ hmira _ =>
          rw [hinfra, hrsu.nodeId] at hmira
          exact ⟨dst, entries, hd, Or.inr hmira, rfl, rfl⟩

/-- A new alert is split among the wires. -/
theorem IsRsu.split (hG : G.Routable) (hn : n ∈ G) {fuel : ℕ} {dst : DestinationNodes}
    {entries : UnorderedMap FaceId DestinationNodes}
    (h : (dst.filter (· ≠ n) = [] ∧ entries = ∅) ∨
      mira fuel G (dst.filter (· ≠ n)) n = .ok entries) :
    ∃ hop, Mira.Split G n (dst.filter (· ≠ n)) hop entries := by
  rcases h with ⟨hemp, rfl⟩ | hmira
  · rw [hemp]
    refine ⟨fun _ => none, by simp, by simp, by simp, fun f S hS => ?_, by simp⟩
    simp at hS
  · refine mira_split (hG.closed.from n) hn hG.ids (hG.noOverflow n hn) (fun d hmem => ?_) hmira
    rcases mira_destinations hmira d hmem with heq | hd
    · exact heq ▸ hn
    · exact hd

theorem destinations_unique {infra : Infrastructure F} {data : Data F} {zor : ZoR F}
    {fuel fuel' : ℕ}
    {D D' : DestinationNodes} (h : destinations fuel infra data zor node = .ok D)
    (h' : destinations fuel' infra data zor node = .ok D') : D = D' := by
  cases htag : data.destinationNodes with
  | some dst =>
      simp only [destinations, htag] at h h'
      exact Except.ok.inj (h.symm.trans h')
  | none =>
    simp only [destinations, htag] at h h'
    obtain ⟨D₀, _, _, hunique⟩ := computeDestinationNodes_returns infra.routingInfo
      infra.positionInfo node.ctx.txRadius node.nodeId zor
    rw [hunique fuel D h, hunique fuel' D' h']

/-- An RSU handles every alert for which `mira` returns. -/
theorem IsRsu.handles {infra : Infrastructure F} (hrsu : node.IsRsu infra.routingInfo n site)
    (t : ℕ) {data : Data F} (ingress : NfdFace) {zor : ZoR F}
    (hz : extractZoR data.name = some zor) (hgeo : zor.IsGeographic) {fuel : ℕ}
    {dst : DestinationNodes} {entries : UnorderedMap FaceId DestinationNodes}
    (hdst : destinations fuel infra data zor node = .ok dst)
    (hmira : mira fuel infra.routingInfo (dst.filter (· ≠ n)) n = .ok entries) :
    ∃ o, node.Handles infra (.receive t data ingress) o := by
  obtain ⟨o, ho⟩ : ∃ o, alertRsuHandler fuel infra data zor node = .ok o := by
    refine alertRsuHandler_total ⟨dst, hdst⟩ (fun dst' => ?_) ?_
    · refine broadcast_total fun _ => ?_
      rw [hrsu.v2i]
      exact hrsu.v2i_mem
    · intro dst' rest sent hd hbroad
      obtain rfl := Except.ok.inj (hd.symm.trans hdst)
      obtain ⟨rfl, _⟩ := hrsu.broadcast hbroad
      refine forwardShares_total fun _ => ⟨entries, by rw [hrsu.nodeId]; exact hmira, ?_⟩
      intro entry hentry
      obtain ⟨faces, face, hlook, hmem, hface⟩ := mira_faces hmira entry.1
        (AList.mem_keys.mpr (List.mem_map_of_mem hentry))
      exact hface ▸ (hrsu.faces faces hlook face hmem).1
  refine ⟨o, fuel, ?_⟩
  cases zor with
  | neighbor => exact hgeo.elim
  | _ => simp only [handle, onIncomingAlert, hz, hrsu.type, ho]

/-- An RSU handles every alert whose destinations are keys of the graph. -/
theorem IsRsu.handles_routable {infra : Infrastructure F}
    (hrsu : node.IsRsu infra.routingInfo n site) (hG : infra.routingInfo.Routable)
    (hn : n ∈ infra.routingInfo) (t : ℕ) (data : Data F) (ingress : NfdFace) {zor : ZoR F}
    (hz : extractZoR data.name = some zor) (hgeo : zor.IsGeographic) {dst : DestinationNodes}
    (hdst : ∀ d ∈ dst, d ∈ infra.routingInfo)
    (hfinds : ∃ bound, ∀ fuel, bound ≤ fuel → destinations fuel infra data zor node = .ok dst) :
    ∃ o, node.Handles infra (.receive t data ingress) o := by
  obtain ⟨bound, hfinds⟩ := hfinds
  obtain ⟨bound', hmira⟩ := mira_returns (hG.closed.from n) hn hG.ids (hG.noOverflow n hn)
    fun d (hd : d ∈ dst.filter (· ≠ n)) => hdst d (List.mem_filter.mp hd).1
  obtain ⟨entries, _, hentries, _⟩ := hmira (max bound bound') (le_max_right _ _)
  exact hrsu.handles t ingress hz hgeo (hfinds _ (le_max_left _ _)) hentries

/-- The handling of a new alert, given what `mira` computes. -/
theorem IsRsu.handles_new {infra : Infrastructure F} (hrsu : node.IsRsu infra.routingInfo n site)
    (t : ℕ) {data : Data F} (ingress : NfdFace) {zor : ZoR F}
    (hz : extractZoR data.name = some zor) (hgeo : zor.IsGeographic)
    (hnew : ¬ node.ctx.alertStore.isDuplicate data.name) {fuel : ℕ} {dst : DestinationNodes}
    {entries : UnorderedMap FaceId DestinationNodes}
    (hdst : destinations fuel infra data zor node = .ok dst)
    (hmira : mira fuel infra.routingInfo (dst.filter (· ≠ n)) n = .ok entries) :
    ∃ o, node.Handles infra (.receive t data ingress) o ∧ o.sent = node.relays data dst entries ∧
      o.node = node.insertAlert ⟨data.name, .none, ⟨0, 0⟩⟩ := by
  obtain ⟨o, ho⟩ := hrsu.handles t ingress hz hgeo hdst hmira
  obtain ⟨fuel', hcase⟩ := ho.rsuCase hrsu.type hz hgeo
  obtain ⟨dst', entries', hd, hm, hsent, hnode⟩ := hrsu.sent rfl hnew hcase
  obtain rfl := destinations_unique hd hdst
  refine ⟨o, ho, ?_, hnode⟩
  rw [hsent]
  congr 1
  rcases hm with ⟨hemp, rfl⟩ | hm
  · rw [hemp] at hmira
    exact (mira_nil hmira).symm
  · have h1 := mira_fuel hm (le_max_left fuel' fuel)
    have h2 := mira_fuel hmira (le_max_right fuel' fuel)
    exact Except.ok.inj (h1.symm.trans h2)

end Node

namespace Net

/-- The token that a copy stands for. An RSU that gets the alert without
destinations finds `dest` of its node. -/
def token (dest : NodeId → DestinationNodes) (c : Copy F) : Multicast.Token NodeId where
  dst := c.dst
  share := c.data.destinationNodes.getD (dest c.dst)
  relayed := c.data.destinationNodes.isSome

@[simp] theorem copies_nil {medium : Medium F} {nodes : NodeId → Option (Node F)} {t : ℕ}
    {n : NodeId} {k : ℕ} : copies medium nodes t n k [] = [] := rfl

theorem copies_map_dst {medium : Medium F} {nodes : NodeId → Option (Node F)} {t : ℕ} {n : NodeId}
    {k : ℕ} {sent : List (Outgoing F)} : (copies medium nodes t n k sent).map Copy.dst =
      sent.flatMap fun out => (medium nodes n out.egress).map Prod.fst := by
  unfold copies
  induction sent generalizing k with
  | nil => rfl
  | cons out sent ih =>
      rw [List.zipIdx_cons, List.flatMap_cons, List.map_append, ih, List.flatMap_cons]
      simp [Function.comp_def]

section Shares

variable {G : Graph} {medium : Medium F} {nodes : NodeId → Option (Node F)} {node : Node F}
  {t k : ℕ} {n : NodeId} {site : Site F} {data : Data F} {dst : DestinationNodes}
  {hop : NodeId → Option NodeId} {entries : UnorderedMap FaceId DestinationNodes}

/-- No copy comes from the V2I face. -/
theorem remotes_v2i (hrsu : node.IsRsu G n site) : G.remotes n site.v2i = [] := by
  refine List.eq_nil_iff_forall_not_mem.mpr fun c hc => ?_
  obtain ⟨faces, hfaces, face, hmem, hid, _⟩ := Graph.mem_remotes.mp hc
  exact (hrsu.faces faces hfaces face hmem).2 hid

/-- Each share goes to the hop of its destinations. -/
theorem remotes_entry (hG : G.Routable) (hsplit : Mira.Split G n dst hop entries)
    {entry : Σ _ : FaceId, DestinationNodes} (hentry : entry ∈ entries.entries) :
    ∃ c, G.remotes n entry.1 = [c] ∧ (∃ x, x ∈ entry.2) ∧
      (∀ x, x ∈ entry.2 ↔ x ∈ dst ∧ hop x = some c) ∧
      c ∈ G := by
  obtain ⟨f, S⟩ := entry
  have hlook : entries.lookup f = some S := (List.mem_dlookup_iff entries.nodupKeys).mpr hentry
  obtain ⟨c, faces, face, hfaces, hto, rfl, hne, hiff⟩ := hsplit.face f S hlook
  refine ⟨c, Graph.remotes_faceTo hG.distinct hfaces hto, hne, hiff, ?_⟩
  obtain ⟨hmem, rfl⟩ := Mira.mem_of_faceTo hto
  exact hG.closed n faces hfaces face hmem

/-- The copies of the transmissions of an RSU carry the shares. -/
theorem mem_copies_relays (hwires : medium.Wires G) (hG : G.Routable) (hrsu : node.IsRsu G n site)
    (hsplit : Mira.Split G n (dst.filter (· ≠ n)) hop entries) {c : Copy F}
    (hc : c ∈ copies medium nodes t n k (node.relays data dst entries)) :
    ∃ entry ∈ entries.entries, c.data.destinationNodes = some entry.2 ∧ c.data.name = data.name ∧
      G.remotes n entry.1 = [c.dst] := by
  obtain ⟨i, out, hout, hmem, hdata, _⟩ := mem_copies.mp hc
  have hdst : c.dst ∈ G.remotes n out.egress := by
    rw [← hwires nodes]
    exact List.mem_map_of_mem (f := Prod.fst) hmem
  rcases List.mem_append.mp (List.mem_of_getElem? hout) with hb | hw
  · have hegress : out.egress = site.v2i := by
      split at hb
      · rw [List.mem_singleton.mp hb]
        exact hrsu.v2i
      · cases hb
    rw [hegress, remotes_v2i hrsu] at hdst
    cases hdst
  · obtain ⟨entry, hentry, rfl⟩ := List.mem_map.mp hw
    obtain ⟨x, hx, _⟩ := remotes_entry hG hsplit hentry
    refine ⟨entry, hentry, by rw [hdata]; rfl, by rw [hdata]; rfl, ?_⟩
    have hcx : c.dst ∈ [x] := hx ▸ hdst
    rw [List.mem_singleton.mp hcx, hx]

theorem copies_relays_of_entry (hwires : medium.Wires G) {c : NodeId}
    {entry : Σ _ : FaceId, DestinationNodes} (hentry : entry ∈ entries.entries)
    (hremote : G.remotes n entry.1 = [c]) :
    ∃ copy ∈ copies medium nodes t n k (node.relays data dst entries),
      copy.data.destinationNodes = some entry.2 ∧ copy.dst = c := by
  have hout : node.onOutgoingAlert { data with destinationNodes := some entry.2 } entry.1 ∈
      node.relays data dst entries :=
    List.mem_append_right _ (List.mem_map.mpr ⟨entry, hentry, rfl⟩)
  obtain ⟨i, hi⟩ := List.getElem?_of_mem hout
  have hmem : c ∈ (medium nodes n entry.1).map Prod.fst := by
    rw [hwires, hremote]
    exact List.mem_singleton_self c
  obtain ⟨⟨c', ingress⟩, hhears, rfl⟩ := List.mem_map.mp hmem
  exact ⟨⟨c', ingress, _, t⟩, mem_copies.mpr ⟨i, _, hi, hhears, rfl, rfl⟩, rfl, rfl⟩

theorem copies_relays_nodup (hwires : medium.Wires G) (hG : G.Routable)
    (hrsu : node.IsRsu G n site) (hsplit : Mira.Split G n (dst.filter (· ≠ n)) hop entries) :
    ((copies medium nodes t n k (node.relays data dst entries)).map Copy.dst).Nodup := by
  have hbroad : (if node.nodeId ∈ dst then [node.onOutgoingAlert
      { data with destinationNodes := none } (node.ctx.getFaceIdFor .v2i)] else []).flatMap
        (fun out => G.remotes n out.egress) = [] := by
    split
    · simpa [Node.onOutgoingAlert, hrsu.v2i] using remotes_v2i hrsu
    · rfl
  rw [copies_map_dst]
  simp only [hwires nodes]
  rw [Node.relays, List.flatMap_append, hbroad, List.nil_append, List.flatMap_map,
    List.nodup_flatMap]
  constructor
  · intro entry hentry
    obtain ⟨c, hc, _⟩ := remotes_entry hG hsplit hentry
    simp [Node.onOutgoingAlert, hc]
  · -- two shares with one hop go over one face
    have hkeys : entries.entries.Pairwise fun e e' => e.1 ≠ e'.1 :=
      List.pairwise_map.mp entries.nodupKeys
    refine hkeys.imp_of_mem fun {e e'} he he' hne => ?_
    obtain ⟨c, faces, face, hfaces, hto, hid, _⟩ :=
      hsplit.face e.1 e.2 ((List.mem_dlookup_iff entries.nodupKeys).mpr he)
    obtain ⟨c', faces', face', hfaces', hto', hid', _⟩ :=
      hsplit.face e'.1 e'.2 ((List.mem_dlookup_iff entries.nodupKeys).mpr he')
    obtain rfl := Option.some.inj (hfaces.symm.trans hfaces')
    have hcc : c ≠ c' := by
      rintro rfl
      obtain rfl := Option.some.inj (hto.symm.trans hto')
      exact hne (hid.symm.trans hid')
    have h1 := Graph.remotes_faceTo hG.distinct hfaces hto
    have h2 := Graph.remotes_faceTo hG.distinct hfaces hto'
    rw [hid] at h1
    rw [hid'] at h2
    simpa [Function.onFun, Node.onOutgoingAlert, h1, h2] using hcc.symm

theorem multicast_split (hwires : medium.Wires G) (hG : G.Routable) (hrsu : node.IsRsu G n site)
    (hsplit : Mira.Split G n (dst.filter (· ≠ n)) hop entries) (dest : NodeId → DestinationNodes) :
    Multicast.Split G.Link (Mira.IsHop G) n dst
      ((copies medium nodes t n k (node.relays data dst entries)).map (token dest)) where
  nodup := by
    rw [List.map_map]
    exact copies_relays_nodup hwires hG hrsu hsplit
  relayed := by
    intro u hu
    obtain ⟨c, hc, rfl⟩ := List.mem_map.mp hu
    obtain ⟨entry, _, htag, _⟩ := mem_copies_relays hwires hG hrsu hsplit hc
    simp [token, htag]
  nonempty := by
    intro u hu
    obtain ⟨c, hc, rfl⟩ := List.mem_map.mp hu
    obtain ⟨entry, hentry, htag, _⟩ := mem_copies_relays hwires hG hrsu hsplit hc
    obtain ⟨_, _, ⟨x, hx⟩, _⟩ := remotes_entry hG hsplit hentry
    exact ⟨x, by simpa [token, htag] using hx⟩
  mem := by
    intro u hu d hd
    obtain ⟨c, hc, rfl⟩ := List.mem_map.mp hu
    obtain ⟨entry, hentry, htag, _, hremote⟩ := mem_copies_relays hwires hG hrsu hsplit hc
    obtain ⟨c', hc', _, hiff, _⟩ := remotes_entry hG hsplit hentry
    obtain rfl : c' = c.dst := List.singleton_inj.mp (hc'.symm.trans hremote)
    obtain ⟨hmem, hhop⟩ := (hiff d).mp (by simpa [token, htag] using hd)
    exact ⟨(List.mem_filter.mp hmem).1, by simpa using (List.mem_filter.mp hmem).2,
      hsplit.isHop d _ hhop⟩
  covers := by
    intro d hd hne hreach
    have hmem : d ∈ dst.filter (· ≠ n) := List.mem_filter.mpr ⟨hd, by simpa using hne⟩
    obtain ⟨c, hhop⟩ : ∃ c, hop d = some c := by
      refine Option.ne_none_iff_exists'.mp fun hnone => ?_
      rcases (hsplit.none_iff d hmem).mp hnone with heq | hno
      · exact hne heq
      · exact hno hreach
    obtain ⟨f, S, hlook, hdS⟩ := hsplit.served (hG.distinct _) d hmem c hhop
    have hentry := (List.mem_dlookup_iff entries.nodupKeys).mp hlook
    obtain ⟨x, hremote, _⟩ := remotes_entry hG hsplit hentry
    obtain ⟨copy, hcopy, htag, _⟩ : ∃ copy ∈ copies medium nodes t n k
        (node.relays data dst entries),
        copy.data.destinationNodes = some S ∧ copy.dst = x :=
      copies_relays_of_entry hwires hentry hremote
    exact ⟨token dest copy, List.mem_map_of_mem hcopy, by simpa [token, htag] using hdS⟩

/-- The share of a new alert is broadcast once if the RSU is in it. -/
theorem egressesOf_relays (hrsu : node.IsRsu G n site) (hG : G.Routable)
    (hsplit : Mira.Split G n (dst.filter (· ≠ n)) hop entries) {o : Outcome F}
    (hsent : o.sent = node.relays data dst entries) :
    (o.egressesOf data.name).count site.v2i = if n ∈ dst then 1 else 0 := by
  have hname : ∀ out ∈ node.relays data dst entries, out.data.name = data.name := by
    intro out hout
    rcases List.mem_append.mp hout with hb | hw
    · split at hb
      · rw [List.mem_singleton.mp hb]
        rfl
      · cases hb
    · obtain ⟨entry, _, rfl⟩ := List.mem_map.mp hw
      rfl
  have hwired : ∀ entry ∈ entries.entries, entry.1 ≠ site.v2i := by
    intro entry hentry heq
    obtain ⟨c, hremote, _⟩ := remotes_entry hG hsplit hentry
    rw [heq, remotes_v2i hrsu] at hremote
    cases hremote
  have hzero : (entries.entries.map fun entry => entry.1).count site.v2i = 0 := by
    refine List.count_eq_zero_of_not_mem fun hmem => ?_
    obtain ⟨entry, hentry, heq⟩ := List.mem_map.mp hmem
    exact hwired entry hentry heq
  unfold Outcome.egressesOf
  rw [hsent, List.filter_eq_self.mpr fun out hout => by simpa using hname out hout, Node.relays,
    List.map_append, List.count_append, List.map_map, hrsu.nodeId, hrsu.v2i]
  split
  · simpa [Node.onOutgoingAlert, Function.comp_def] using hzero
  · simpa [Node.onOutgoingAlert, Function.comp_def] using hzero

end Shares

/-! ## The multicast behind the deliveries -/

/-- The destinations that each RSU computes for the zone by itself. -/
structure Finds (infra : Infrastructure F) (sites : NodeId → Site F) (zor : ZoR F)
    (dest : NodeId → DestinationNodes) : Prop where
  returns : ∀ n, ∃ bound, ∀ fuel, bound ≤ fuel → computeDestinationNodes fuel infra.routingInfo
    infra.positionInfo (sites n).txRadius n zor = .ok (dest n)
  unique : ∀ n fuel D, computeDestinationNodes fuel infra.routingInfo infra.positionInfo
    (sites n).txRadius n zor = .ok D → D = dest n

theorem exists_finds (infra : Infrastructure F) (sites : NodeId → Site F) (zor : ZoR F) :
    ∃ dest, Finds infra sites zor dest := by
  have hex := fun n => computeDestinationNodes_returns infra.routingInfo infra.positionInfo
    (sites n).txRadius n zor
  choose dest bound hdest using hex
  exact ⟨dest, fun n => ⟨bound n, (hdest n).1⟩, fun n => (hdest n).2⟩

/-- The network carries out the multicast `st` of the alert `name`. -/
structure Refines (G : Graph) (sites : NodeId → Site F) (name : Name F)
    (dest : NodeId → DestinationNodes) (net : Net F) (st : Multicast.State NodeId) : Prop where
  tokens : st.tokens = net.inFlight.map (token dest)
  copies : ∀ c ∈ net.inFlight, c.data.name = name ∧ c.dst ∈ G
  rsu : ∀ n ∈ G, ∃ node, net.nodes n = some node ∧ node.IsRsu G n (sites n) ∧
    (node.ctx.alertStore.isDuplicate name ↔ n ∈ st.visited) ∧
    (n ∉ st.visited → node.ctx.alertStore.order.length < node.ctx.alertStore.maxSize)
  served : ∀ n, (net.egressesOf n name).count (sites n).v2i = st.served.count n

section Deliver

variable {infra : Infrastructure F} {medium : Medium F} {sites : NodeId → Site F} {name : Name F}
  {zor : ZoR F} {dest : NodeId → DestinationNodes} {net net' : Net F}
  {st : Multicast.State NodeId} {t : ℕ} {c : Copy F}

theorem token_share (hfinds : Finds infra sites zor dest) {node : Node F}
    (hrsu : node.IsRsu infra.routingInfo c.dst (sites c.dst)) {fuel : ℕ} {dst : DestinationNodes}
    (h : destinations fuel infra c.data zor node = .ok dst) : (token dest c).share = dst := by
  unfold destinations at h
  unfold token
  split at h
  · rename_i htag
    simpa [htag] using Except.ok.inj h
  · rename_i htag
    rw [hrsu.nodeId, hrsu.txRadius] at h
    simpa [htag] using (hfinds.unique _ _ _ h).symm

theorem Refines.drop (h : Refines infra.routingInfo sites name dest net st)
    {pre post : List (Copy F)}
    {node : Node F} (hflight : net.inFlight = pre ++ c :: post)
    (hnode : net.nodes c.dst = some node) :
    Refines infra.routingInfo sites name dest
      (net.react medium t c.dst false node.drop (pre ++ post))
      ⟨pre.map (token dest) ++ post.map (token dest), st.visited, st.served⟩ where
  tokens := by simp [react]
  copies := by
    intro x hx
    refine h.copies x ?_
    rw [hflight]
    rcases List.mem_append.mp (by simpa [react] using hx : x ∈ pre ++ post) with hx | hx <;>
      simp [hx]
  rsu := by
    intro n hn
    obtain ⟨node', hnode', hrest⟩ := h.rsu n hn
    by_cases heq : n = c.dst
    · subst heq
      obtain rfl := Option.some.inj (hnode.symm.trans hnode')
      exact ⟨node, by simp, hrest⟩
    · exact ⟨node', by rw [react_nodes_of_ne heq]; exact hnode', hrest⟩
  served := by
    intro n
    by_cases heq : n = c.dst
    · subst heq
      rw [egressesOf_react_self]
      simpa [Outcome.egressesOf] using h.served c.dst
    · rw [egressesOf_react_of_ne heq]
      exact h.served n

theorem Refines.visit (h : Refines infra.routingInfo sites name dest net st)
    (hG : infra.routingInfo.Routable) (hwires : medium.Wires infra.routingInfo)
    {pre post : List (Copy F)} {node : Node F} (hflight : net.inFlight = pre ++ c :: post)
    (hrsu : node.IsRsu infra.routingInfo c.dst (sites c.dst)) (hname : c.data.name = name)
    (hnew : ¬ node.ctx.alertStore.isDuplicate c.data.name)
    (hroom : node.ctx.alertStore.order.length < node.ctx.alertStore.maxSize)
    {hop : NodeId → Option NodeId} {entries : UnorderedMap FaceId DestinationNodes}
    (hsplit : Mira.Split infra.routingInfo c.dst ((token dest c).share.filter (· ≠ c.dst)) hop
      entries) {o : Outcome F}
    (hsent : o.sent = node.relays c.data (token dest c).share entries)
    (honode : o.node = node.insertAlert ⟨c.data.name, .none, ⟨0, 0⟩⟩) :
    Refines infra.routingInfo sites name dest (net.react medium t c.dst false o (pre ++ post))
      ⟨pre.map (token dest) ++ post.map (token dest) ++
          (Net.copies medium (Function.update net.nodes c.dst (some o.node)) t c.dst net.log.length
            o.sent).map (token dest), st.visited ++ [c.dst],
        if c.dst ∈ (token dest c).share then st.served ++ [c.dst] else st.served⟩ where
  tokens := by simp [react]
  copies := by
    intro x hx
    rcases List.mem_append.mp hx with hx | hx
    · refine h.copies x ?_
      rw [hflight]
      rcases List.mem_append.mp hx with hx | hx <;> simp [hx]
    · rw [hsent] at hx
      obtain ⟨entry, hentry, _, hdata, hremote⟩ := mem_copies_relays hwires hG hrsu hsplit hx
      obtain ⟨x', hx', _, _, hmem⟩ := remotes_entry hG hsplit hentry
      obtain rfl : x' = x.dst := List.singleton_inj.mp (hx'.symm.trans hremote)
      exact ⟨hdata.trans hname, hmem⟩
  rsu := by
    intro n hn
    obtain ⟨node', hnode', hrsu', hdup', hroom'⟩ := h.rsu n hn
    by_cases heq : n = c.dst
    · subst heq
      refine ⟨o.node, by simp, hrsu.congr (by rw [honode]; simp), ?_, by simp⟩
      have hstored : o.node.ctx.alertStore.isDuplicate c.data.name := by
        rw [honode]
        exact AlertStore.isDuplicate_insertOrUpdate hnew hroom
      simp [← hname, hstored]
    · refine ⟨node', by rw [react_nodes_of_ne heq]; exact hnode', hrsu', ?_, ?_⟩
      · simp [hdup', heq]
      · intro hn'
        exact hroom' fun hmem => hn' (List.mem_append_left _ hmem)
  served := by
    intro n
    by_cases heq : n = c.dst
    · subst heq
      rw [egressesOf_react_self, List.count_append, h.served, ← hname,
        egressesOf_relays hrsu hG hsplit hsent]
      split <;> simp [List.count_append]
    · rw [egressesOf_react_of_ne heq, h.served]
      split <;> simp [List.count_append, Ne.symm heq]

/-- A delivery of a copy visits its RSU or drops the token there. -/
theorem Refines.deliver (h : Refines infra.routingInfo sites name dest net st)
    (hG : infra.routingInfo.Routable) (hwires : medium.Wires infra.routingInfo)
    (hfinds : Finds infra sites zor dest) (hz : extractZoR name = some zor)
    (hgeo : zor.IsGeographic)
    (hstep : Step infra medium net (t, .deliver c) net') :
    ∃ st', Multicast.Step infra.routingInfo.Link (Mira.IsHop infra.routingInfo) st (token dest c)
      st' ∧ Refines infra.routingInfo sites name dest net' st' := by
  cases hstep with
  | @deliver _ _ pre post node o hflight hnode hhandles =>
      obtain ⟨hname, hdst⟩ := h.copies c (by simp [hflight])
      obtain ⟨node', hnode', hrsu, hdup, hroom⟩ := h.rsu c.dst hdst
      obtain rfl := Option.some.inj (hnode.symm.trans hnode')
      have htokens : st.tokens = pre.map (token dest) ++ token dest c :: post.map (token dest) := by
        rw [h.tokens, hflight, List.map_append, List.map_cons]
      obtain ⟨fuel, hcase⟩ := hhandles.rsuCase hrsu.type (hname.symm ▸ hz) hgeo
      by_cases hvisited : c.dst ∈ st.visited
      · have hdupd : node.ctx.alertStore.isDuplicate c.data.name := hname ▸ hdup.mpr hvisited
        cases hcase with
        | new _ _ _ _ hnew _ _ _ => exact absurd hdupd hnew
        | duplicate _ => exact ⟨_, .drop htokens hvisited, h.drop hflight hnode⟩
      · have hnew : ¬ node.ctx.alertStore.isDuplicate c.data.name := by
          rw [hname, hdup]
          exact hvisited
        obtain ⟨dst, entries, hdsteq, hmira, hsent, honode⟩ := hrsu.sent rfl hnew hcase
        obtain ⟨hop, hsplit⟩ := Node.IsRsu.split hG hdst hmira
        obtain rfl := token_share hfinds hrsu hdsteq
        refine ⟨_, .visit htokens hvisited ?_, h.visit hG hwires hflight hrsu hname hnew
          (hroom hvisited) hsplit hsent honode⟩
        rw [hsent]
        exact multicast_split hwires hG hrsu hsplit dest

/-- A copy whose destinations are keys of the graph can be delivered. -/
theorem Refines.progress (h : Refines infra.routingInfo sites name dest net st)
    (hG : infra.routingInfo.Routable) (hfinds : Finds infra sites zor dest)
    (hz : extractZoR name = some zor) (hgeo : zor.IsGeographic) (hc : c ∈ net.inFlight)
    (hshare : ∀ d ∈ (token dest c).share, d ∈ infra.routingInfo) (medium : Medium F) (t : ℕ) :
    ∃ net', Step infra medium net (t, .deliver c) net' := by
  obtain ⟨hname, hdst⟩ := h.copies c hc
  obtain ⟨node, hnode, hrsu, _⟩ := h.rsu c.dst hdst
  obtain ⟨o, ho⟩ : ∃ o, node.Handles infra (.receive t c.data ⟨c.ingress, .nonLocal⟩) o := by
    refine hrsu.handles_routable hG hdst t c.data _ (hname.symm ▸ hz) hgeo hshare ?_
    unfold destinations token
    cases c.data.destinationNodes with
    | some dst => exact ⟨0, fun _ _ => rfl⟩
    | none =>
        simp only [hrsu.nodeId, hrsu.txRadius]
        exact hfinds.returns c.dst
  obtain ⟨pre, post, hflight⟩ := List.append_of_mem hc
  exact ⟨_, .deliver hflight hnode ho⟩

/-- A copy in flight is delivered. -/
def Delivery (infra : Infrastructure F) (medium : Medium F) (net : Net F) (c : Copy F)
    (net' : Net F) : Prop :=
  ∃ t, Step infra medium net (t, .deliver c) net'

/-- A run of deliveries is a run of the multicast. What holds of the network
before each delivery may be carried over. -/
theorem Refines.run {P : Net F → Copy F → Prop}
    {Q : Multicast.State NodeId → Multicast.Token NodeId → Prop}
    (hG : infra.routingInfo.Routable) (hwires : medium.Wires infra.routingInfo)
    (hfinds : Finds infra sites zor dest) (hz : extractZoR name = some zor)
    (hgeo : zor.IsGeographic)
    (hPQ : ∀ net st c, Refines infra.routingInfo sites name dest net st → c ∈ net.inFlight →
      P net c → Q st (token dest c))
    (h : Refines infra.routingInfo sites name dest net st) {cs : List (Copy F)}
    (hrun : Run (fun net c net' => Delivery infra medium net c net' ∧ P net c) net cs net') :
    ∃ st', Run (fun st t st' => Multicast.Step infra.routingInfo.Link
        (Mira.IsHop infra.routingInfo) st t st' ∧ Q st t) st (cs.map (token dest)) st' ∧
      Refines infra.routingInfo sites name dest net' st' := by
  induction hrun with
  | nil => exact ⟨st, .nil, h⟩
  | @snoc cs net₁ net₂ c _ hlast ih =>
      obtain ⟨st₁, hrun₁, h₁⟩ := ih
      obtain ⟨⟨t, hstep⟩, hP⟩ := hlast
      have hmem : c ∈ net₁.inFlight := by
        cases hstep with
        | deliver hflight _ _ => simp [hflight]
      obtain ⟨st₂, hstep₂, h₂⟩ := h₁.deliver hG hwires hfinds hz hgeo hstep
      refine ⟨st₂, ?_, h₂⟩
      rw [List.map_append, List.map_singleton]
      exact hrun₁.snoc ⟨hstep₂, hPQ net₁ st₁ c h₁ hmem hP⟩

end Deliver

/-- The backbone at the start: no RSU has the alert, and each has room for it. -/
structure Deployed (infra : Infrastructure F) (medium : Medium F) (sites : NodeId → Site F)
    (name : Name F) (zor : ZoR F) (net : Net F) : Prop where
  wires : medium.Wires infra.routingInfo
  zone : extractZoR name = some zor
  geographic : zor.IsGeographic
  rsu : ∀ n ∈ infra.routingInfo, ∃ node, net.nodes n = some node ∧
    node.IsRsu infra.routingInfo n (sites n) ∧ ¬ node.ctx.alertStore.isDuplicate name ∧
    node.ctx.alertStore.order.length < node.ctx.alertStore.maxSize
  copies : ∀ c ∈ net.inFlight, c.data.name = name ∧ c.dst ∈ infra.routingInfo
  log : net.log = []

theorem Deployed.refines {infra : Infrastructure F} {medium : Medium F} {sites : NodeId → Site F}
    {name : Name F} {zor : ZoR F} {net : Net F} (h : Deployed infra medium sites name zor net)
    (dest : NodeId → DestinationNodes) : Refines infra.routingInfo sites name dest net
      ⟨net.inFlight.map (token dest), [], []⟩ where
  tokens := rfl
  copies := h.copies
  rsu := by
    intro n hn
    obtain ⟨node, hnode, hrsu, hnew, hroom⟩ := h.rsu n hn
    exact ⟨node, hnode, hrsu, by simp [hnew], fun _ => hroom⟩
  served := by
    intro n
    simp [egressesOf, h.log]

end Net

/-! ## RSUs on a graph

Every key of the graph is an RSU, and its V2I face is face 256.
-/

namespace Wired

def site : Site ℝ := ⟨256, 1⟩

noncomputable def rsu (infra : Infrastructure ℝ) (n : NodeId) : Node ℝ where
  nodeId := n
  mobility := infra.positionInfo.lookup n
  ctx := { Context.init ℝ with type := .rsu, faceContextMap := [(256, .v2i)], txRadius := 1 }
  faceTable := ⟨256, .nonLocal⟩ ::
    ((infra.routingInfo.lookup n).getD []).map fun face => ⟨face.faceId, .nonLocal⟩
  events := []
  nextEvent := 0

def medium (G : Graph) : Medium ℝ := fun _ n f => (G.remotes n f).map fun m => (m, 257)

def name : Name ℝ := [.zor Pair.zone]

noncomputable def stored (infra : Infrastructure ℝ) (n : NodeId) : Node ℝ :=
  (rsu infra n).insertAlert ⟨name, .none, ⟨0, 0⟩⟩

/-- The network in which the RSUs `visited` have the alert. -/
noncomputable def state (infra : Infrastructure ℝ) (visited : List NodeId)
    (inFlight : List (Copy ℝ)) (log : List (Transmission ℝ)) : Net ℝ where
  now := 0
  nodes n :=
    if n ∈ infra.routingInfo then some (if n ∈ visited then stored infra n else rsu infra n)
    else none
  inFlight := inFlight
  log := log

section State

variable {infra : Infrastructure ℝ} {visited : List NodeId} {inFlight : List (Copy ℝ)}
  {log : List (Transmission ℝ)} {n : NodeId}

theorem state_nodes (hn : n ∈ infra.routingInfo) (hnew : n ∉ visited) :
    (state infra visited inFlight log).nodes n = some (rsu infra n) := by
  simp [state, hn, hnew]

theorem state_nodes_visited (hn : n ∈ infra.routingInfo) (hold : n ∈ visited) :
    (state infra visited inFlight log).nodes n = some (stored infra n) := by
  simp [state, hn, hold]

theorem rsu_new (infra : Infrastructure ℝ) (n : NodeId) :
    ¬ (rsu infra n).ctx.alertStore.isDuplicate name := by
  simp [rsu, Context.init, AlertStore.isDuplicate, AlertStore.names]

theorem rsu_isRsu (hfaces : ∀ e ∈ infra.routingInfo.entries, ∀ face ∈ e.2, face.faceId ≠ 256) :
    (rsu infra n).IsRsu infra.routingInfo n site := by
  refine ⟨rfl, rfl, rfl, rfl, by decide, by simp [rsu, site], fun faces hlook face hmem => ?_⟩
  have hne : face.faceId ≠ 256 :=
    Graph.forall_faces (P := fun _ face => face.faceId ≠ 256) hfaces n faces hlook face hmem
  refine ⟨?_, hne⟩
  simp only [rsu, hlook, Option.getD_some, List.map_cons, List.map_map, List.mem_cons]
  exact Or.inr (List.mem_map.mpr ⟨face, hmem, rfl⟩)

theorem deployed (hfaces : ∀ e ∈ infra.routingInfo.entries, ∀ face ∈ e.2, face.faceId ≠ 256)
    (hcopies : ∀ c ∈ inFlight, c.data.name = name ∧ c.dst ∈ infra.routingInfo) :
    Net.Deployed infra (medium infra.routingInfo) (fun _ => site) name Pair.zone
      (state infra [] inFlight []) where
  wires := by
    intro _ n f
    simp [medium, Function.comp_def]
  zone := rfl
  geographic := trivial
  rsu := fun n hn => ⟨rsu infra n, state_nodes hn List.not_mem_nil, rsu_isRsu hfaces,
    rsu_new infra n, by simp [rsu, Context.init]⟩
  copies := hcopies
  log := rfl

/-- The copies that an RSU sends for the alert `data`. -/
noncomputable def sent (infra : Infrastructure ℝ) (n : NodeId) (k : ℕ) (data : Data ℝ)
    (dst : DestinationNodes) (entries : UnorderedMap FaceId DestinationNodes) : List (Copy ℝ) :=
  Net.copies (medium infra.routingInfo) (fun _ => none) 0 n k
    ((rsu infra n).relays data dst entries)

theorem state_react {o : Outcome ℝ} {rest : List (Copy ℝ)} (hn : n ∈ infra.routingInfo)
    (hnode : o.node = stored infra n) :
    (state infra visited inFlight log).react (medium infra.routingInfo) 0 n false o rest =
      state infra (n :: visited)
        (rest ++ Net.copies (medium infra.routingInfo) (fun _ => none) 0 n log.length o.sent)
        (log ++ o.sent.map fun out => ⟨n, out.egress, out.data, false⟩) := by
  have hnodes : Function.update (state infra visited inFlight log).nodes n (some o.node) =
      (state infra (n :: visited) inFlight log).nodes := by
    funext m
    by_cases hm : m = n
    · subst hm
      simp [state, hn, hnode]
    · simp [state, hm]
  simp only [Net.react, hnodes]
  rfl

/-- The transmissions that an RSU logs for the alert `data`. -/
noncomputable def logged (infra : Infrastructure ℝ) (n : NodeId) (data : Data ℝ)
    (dst : DestinationNodes) (entries : UnorderedMap FaceId DestinationNodes) :
    List (Transmission ℝ) :=
  ((rsu infra n).relays data dst entries).map fun out => ⟨n, out.egress, out.data, false⟩

/-- An RSU without the alert takes the copy and sends its shares. -/
theorem visit (hfaces : ∀ e ∈ infra.routingInfo.entries, ∀ face ∈ e.2, face.faceId ≠ 256)
    (pre post : List (Copy ℝ)) {c : Copy ℝ} (hflight : inFlight = pre ++ c :: post)
    (hc : c.dst ∈ infra.routingInfo) (hnew : c.dst ∉ visited) (hname : c.data.name = name)
    {fuel : ℕ} {dst : DestinationNodes} {entries : UnorderedMap FaceId DestinationNodes}
    (hdst : destinations fuel infra c.data Pair.zone (rsu infra c.dst) = .ok dst)
    (hmira : mira fuel infra.routingInfo (dst.filter (· ≠ c.dst)) c.dst = .ok entries)
    {after : List (Copy ℝ)}
    (hafter : pre ++ post ++ sent infra c.dst log.length c.data dst entries = after) :
    Net.Delivery infra (medium infra.routingInfo) (state infra visited inFlight log) c
      (state infra (c.dst :: visited) after (log ++ logged infra c.dst c.data dst entries)) := by
  subst hafter
  obtain ⟨o, ho, hsent, hnode⟩ := (rsu_isRsu hfaces).handles_new 0 ⟨c.ingress, .nonLocal⟩
    (by rw [hname]; rfl) (show Pair.zone.IsGeographic from trivial)
    (by rw [hname]; exact rsu_new infra c.dst) hdst hmira
  have hstored : o.node = stored infra c.dst := by rw [hnode, hname]; rfl
  have hstep : Net.Step infra (medium infra.routingInfo) (state infra visited inFlight log)
      (0, .deliver c) _ := .deliver hflight (state_nodes hc hnew) ho
  rw [state_react hc hstored, hsent] at hstep
  exact ⟨0, hstep⟩

/-- An RSU that has the alert drops a further copy. -/
theorem drop (pre post : List (Copy ℝ)) {c : Copy ℝ} (hflight : inFlight = pre ++ c :: post)
    (hc : c.dst ∈ infra.routingInfo) (hold : c.dst ∈ visited) (hname : c.data.name = name) :
    Net.Delivery infra (medium infra.routingInfo) (state infra visited inFlight log) c
      (state infra (c.dst :: visited) (pre ++ post) log) := by
  have hdup : (stored infra c.dst).ctx.alertStore.isDuplicate c.data.name := by
    rw [hname]
    exact AlertStore.isDuplicate_insertOrUpdate (rsu_new infra c.dst) (by simp [rsu, Context.init])
  have hhandles : (stored infra c.dst).Handles infra (.receive 0 c.data ⟨c.ingress, .nonLocal⟩)
      (stored infra c.dst).drop := by
    have hz : extractZoR c.data.name = some Pair.zone := by rw [hname]; rfl
    refine ⟨0, ?_⟩
    simp only [Node.handle, onIncomingAlert, hz, Pair.zone]
    exact if_pos hdup
  have hstep : Net.Step infra (medium infra.routingInfo) (state infra visited inFlight log)
      (0, .deliver c) _ := .deliver hflight (state_nodes_visited hc hold) hhandles
  rw [state_react hc rfl] at hstep
  exact ⟨0, by simpa using hstep⟩

end State

/-- Two RSUs and a wire. -/
def pair : Graph where
  entries := [⟨0, [⟨257, 1, 1⟩]⟩, ⟨1, [⟨257, 0, 1⟩]⟩]
  nodupKeys := by
    unfold List.NodupKeys
    decide

theorem pair_routable : pair.Routable :=
  Graph.routable_unit (by decide) (by decide) (by decide) (by decide) (by decide)

end Wired

end Cafe
