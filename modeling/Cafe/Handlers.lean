import Cafe.Forwarder

/-!
# What the handlers do

One inversion lemma for each handler lists its outcomes, with the tests
that lead to them. Invariants of nodes and of networks are derived from
these lists and never unfold a handler.
-/

namespace Cafe

variable {F : Type} [Arith F]

/-! ## The alert store -/

namespace AlertStore

theorem insertOrUpdate_maxSize (as : AlertStore F) (entry : Entry F) :
    (as.insertOrUpdate entry).maxSize = as.maxSize := by
  unfold insertOrUpdate
  split
  · rfl
  · simp only
    split <;> rfl

/-- A new entry that fits goes to the front. -/
theorem insertOrUpdate_order {as : AlertStore F} {entry : Entry F}
    (hnew : ¬ as.isDuplicate entry.name) (hroom : as.order.length < as.maxSize) :
    (as.insertOrUpdate entry).order = entry :: as.order := by
  unfold insertOrUpdate
  rw [dif_neg hnew]
  have hle : ¬ (as.pushFront entry hnew).maxSize < (as.pushFront entry hnew).order.length := by
    simp only [pushFront, List.length_cons]
    omega
  rw [if_neg hle]
  rfl

theorem isDuplicate_insertOrUpdate {as : AlertStore F} {entry : Entry F}
    (hnew : ¬ as.isDuplicate entry.name) (hroom : as.order.length < as.maxSize) :
    (as.insertOrUpdate entry).isDuplicate entry.name := by
  simp [isDuplicate, names, insertOrUpdate_order hnew hroom]

/-- A new entry for which there is no room drives out the oldest one. -/
theorem insertOrUpdate_order_full {as : AlertStore F} {entry : Entry F}
    (hnew : ¬ as.isDuplicate entry.name) (hfull : as.maxSize ≤ as.order.length) :
    (as.insertOrUpdate entry).order = (entry :: as.order).dropLast := by
  unfold insertOrUpdate
  rw [dif_neg hnew]
  have hlt : (as.pushFront entry hnew).maxSize < (as.pushFront entry hnew).order.length := by
    simp only [pushFront, List.length_cons]
    omega
  rw [if_pos hlt]
  rfl

theorem get_insertOrUpdate_self {as : AlertStore F} {entry : Entry F}
    (hnew : ¬ as.isDuplicate entry.name) (hroom : as.order.length < as.maxSize) :
    (as.insertOrUpdate entry).get entry.name = some entry := by
  simp [get, insertOrUpdate_order hnew hroom]

theorem get_insertOrUpdate_of_ne {as : AlertStore F} {entry : Entry F} {name : Name F}
    (hroom : ¬ as.isDuplicate entry.name → as.order.length < as.maxSize)
    (hne : entry.name ≠ name) : (as.insertOrUpdate entry).get name = as.get name := by
  by_cases hdup : as.isDuplicate entry.name
  · have hfirst : (as.order.filter fun e => e.name = entry.name).find? (fun e => e.name = name) =
        none := by
      refine List.find?_eq_none.mpr fun e he heq => hne ?_
      have h1 : e.name = entry.name := by simpa using (List.mem_filter.mp he).2
      exact h1.symm.trans (by simpa using heq)
    unfold insertOrUpdate
    rw [dif_pos hdup]
    simp only [get, splice, List.find?_append, hfirst, Option.none_or, List.find?_filter]
    congr 1
    funext e
    by_cases he : e.name = name
    · simp [he, hne.symm]
    · simp [he]
  · simp [get, insertOrUpdate_order hdup (hroom hdup), hne]

/-- The names of the store come from `names`, and all of these fit. -/
structure Room (names : Finset (Name F)) (as : AlertStore F) : Prop where
  subset : ∀ name, as.isDuplicate name → name ∈ names
  fits : names.card ≤ as.maxSize

/-- As long as all names fit, nothing is evicted. -/
theorem Room.lt {names : Finset (Name F)} {as : AlertStore F} (h : Room names as) {name : Name F}
    (hmem : name ∈ names) (hnew : ¬ as.isDuplicate name) : as.order.length < as.maxSize := by
  have hsub : insert name as.names.toFinset ⊆ names := by
    intro x hx
    rcases Finset.mem_insert.mp hx with rfl | hx
    · exact hmem
    · exact h.subset x (List.mem_toFinset.mp hx)
  have hlen : as.names.toFinset.card = as.order.length := by
    rw [List.toFinset_card_of_nodup (l := as.names) as.nodup]
    exact List.length_map _
  have hcard := Finset.card_le_card hsub
  rw [Finset.card_insert_of_notMem (fun hx => hnew (List.mem_toFinset.mp hx)), hlen] at hcard
  exact lt_of_lt_of_le hcard h.fits

theorem Room.insertOrUpdate {names : Finset (Name F)} {as : AlertStore F} (h : Room names as)
    (entry : Entry F) (hmem : entry.name ∈ names) :
    Room names (as.insertOrUpdate entry) ∧ ∀ name, (as.insertOrUpdate entry).isDuplicate name ↔
      name = entry.name ∨ as.isDuplicate name := by
  have hiff : ∀ name, (as.insertOrUpdate entry).isDuplicate name ↔
      name = entry.name ∨ as.isDuplicate name := by
    intro name
    by_cases hdup : as.isDuplicate entry.name
    · have hperm : (as.insertOrUpdate entry).names.Perm as.names := by
        unfold AlertStore.insertOrUpdate
        rw [dif_pos hdup]
        have := List.filter_append_perm (fun e : Entry F => decide (e.name = entry.name)) as.order
        simpa [AlertStore.names, splice] using this.map Entry.name
      rw [isDuplicate, hperm.mem_iff]
      constructor
      · exact Or.inr
      · rintro (rfl | h)
        · exact hdup
        · exact h
    · rw [isDuplicate, AlertStore.names, insertOrUpdate_order hdup (h.lt hmem hdup)]
      simp [isDuplicate, AlertStore.names]
  refine ⟨⟨fun name hname => ?_, ?_⟩, hiff⟩
  · rcases (hiff name).mp hname with rfl | hname
    · exact hmem
    · exact h.subset name hname
  · rw [insertOrUpdate_maxSize]
    exact h.fits

/-- An event that inserts at most the arriving alert adds at most its name. -/
theorem Room.of_store {names : Finset (Name F)} {as as' : AlertStore F} {alert : Option (Name F)}
    (h : Room names as) (hstore : as' = as ∨ ∃ entry, alert = some entry.name ∧
      as' = as.insertOrUpdate entry) (halert : ∀ name, alert = some name → name ∈ names) :
    Room names as' ∧ (∀ name, as.isDuplicate name → as'.isDuplicate name) ∧
      ∀ name, as'.isDuplicate name → as.isDuplicate name ∨ alert = some name := by
  rcases hstore with rfl | ⟨entry, hentry, rfl⟩
  · exact ⟨h, fun _ hd => hd, fun _ hd => Or.inl hd⟩
  · obtain ⟨hroom, hiff⟩ := h.insertOrUpdate entry (halert _ hentry)
    refine ⟨hroom, fun name hd => (hiff name).mpr (Or.inr hd), fun name hd => ?_⟩
    rcases (hiff name).mp hd with rfl | hd
    · exact Or.inr hentry
    · exact Or.inl hd

end AlertStore

/-! ## Small facts about nodes -/

namespace Node

@[simp] theorem insertAlert_nodeId (node : Node F) (entry : AlertStore.Entry F) :
    (node.insertAlert entry).nodeId = node.nodeId := rfl

@[simp] theorem insertAlert_mobility (node : Node F) (entry : AlertStore.Entry F) :
    (node.insertAlert entry).mobility = node.mobility := rfl

@[simp] theorem insertAlert_events (node : Node F) (entry : AlertStore.Entry F) :
    (node.insertAlert entry).events = node.events := rfl

@[simp] theorem insertAlert_registry (node : Node F) (entry : AlertStore.Entry F) :
    (node.insertAlert entry).ctx.registry = node.ctx.registry := rfl

@[simp] theorem insertAlert_alertStore (node : Node F) (entry : AlertStore.Entry F) :
    (node.insertAlert entry).ctx.alertStore = node.ctx.alertStore.insertOrUpdate entry := rfl

@[simp] theorem schedule_alertStore (node : Node F) (due : ℕ) (data : Data F) (egress : FaceId) :
    (node.schedule due data egress).ctx.alertStore = node.ctx.alertStore := rfl

@[simp] theorem schedule_events (node : Node F) (due : ℕ) (data : Data F) (egress : FaceId) :
    (node.schedule due data egress).events =
      node.events ++ [⟨node.nextEvent, due, data, egress⟩] := rfl

@[simp] theorem cancel_nodeId (node : Node F) (name : Name F) :
    (node.cancel name).nodeId = node.nodeId := by unfold cancel; split <;> rfl

@[simp] theorem cancel_mobility (node : Node F) (name : Name F) :
    (node.cancel name).mobility = node.mobility := by unfold cancel; split <;> rfl

@[simp] theorem cancel_type (node : Node F) (name : Name F) :
    (node.cancel name).ctx.type = node.ctx.type := by unfold cancel; split <;> rfl

@[simp] theorem cancel_alertStore (node : Node F) (name : Name F) :
    (node.cancel name).ctx.alertStore = node.ctx.alertStore := by unfold cancel; split <;> rfl

@[simp] theorem cancel_nextEvent (node : Node F) (name : Name F) :
    (node.cancel name).nextEvent = node.nextEvent := by unfold cancel; split <;> rfl

theorem cancel_of_lookup {node : Node F} {name : Name F} {id : EventId}
    (h : node.ctx.registry.lookup name = some id) :
    (node.cancel name).ctx.registry = AList.erase name node.ctx.registry ∧
      (node.cancel name).events = node.events.filter fun d => d.id ≠ id := by
  simp [cancel, h]

theorem getFace_ok {node : Node F} {faceId : FaceId} {face : NfdFace}
    (h : node.getFace faceId = .ok face) : face ∈ node.faceTable ∧ face.faceId = faceId := by
  unfold getFace at h
  split at h
  · rename_i face' hfind
    obtain rfl := Except.ok.inj h
    exact ⟨List.mem_of_find?_eq_some hfind, by simpa using List.find?_some hfind⟩
  · cases h

theorem getFace_of_mem {node : Node F} {faceId : FaceId}
    (h : faceId ∈ node.faceTable.map NfdFace.faceId) :
    ∃ face, node.getFace faceId = .ok face ∧ face.faceId = faceId := by
  obtain ⟨face, hmem, rfl⟩ := List.mem_map.mp h
  have hsome : (node.faceTable.find? fun f => f.faceId = face.faceId).isSome :=
    List.find?_isSome.mpr ⟨face, hmem, by simp⟩
  obtain ⟨face', hfind⟩ := Option.isSome_iff_exists.mp hsome
  refine ⟨face', by simp [getFace, hfind], by simpa using List.find?_some hfind⟩

theorem sendOn_ok {node : Node F} {context : FaceContext} {data : Data F}
    {sent : List (Outgoing F)} (h : node.sendOn context data = .ok sent) :
    sent = [] ∨ sent = [node.onOutgoingAlert data (node.ctx.getFaceIdFor context)] := by
  rw [sendOn] at h
  split at h
  · obtain ⟨face, hface, h⟩ := Fallible.bind_eq_ok.mp h
    rw [← (getFace_ok hface).2]
    exact Or.inr (Fallible.pure_eq_ok.mp h).symm
  · exact Or.inl (Fallible.pure_eq_ok.mp h).symm

end Node

/-- A relay keeps the alert and its sender; only the destinations may go. -/
theorem relayOn_data {node : Node F} {data data' : Data F} {ingress : NfdFace}
    {senderType : NodeType} {face : Option NfdFace}
    (h : relayOn node data ingress senderType = (face, data')) :
    data'.name = data.name ∧ data'.senderPos = data.senderPos ∧ data'.uid = data.uid := by
  unfold relayOn at h
  split at h <;> simp only at h <;> split at h <;> cases h <;> exact ⟨rfl, rfl, rfl⟩

theorem relayOn_size {node : Node F} {data data' : Data F} {ingress : NfdFace}
    {senderType : NodeType} {face : Option NfdFace}
    (h : relayOn node data ingress senderType = (face, data')) : data'.size = data.size := by
  unfold relayOn at h
  split at h <;> simp only at h <;> split at h <;> cases h <;> rfl

/-! ## The vehicle -/

/-- The outcomes of the handler of a vehicle at `nodePos`. -/
inductive VehicleCase (now : ℕ) (data : Data F) (ingress : NfdFace) (zor : ZoR F) (node : Node F)
    (nodePos : Point F) : Outcome F → Prop
  | noSender (hpos : data.senderPos = none) (hscope : ingress.scope ≠ .isLocal) :
      VehicleCase now data ingress zor node nodePos node.drop
  | origin (sent : List (Outgoing F)) (hpos : data.senderPos = none)
      (hscope : ingress.scope = .isLocal)
      (hsent : node.sendOn (if node.ctx.isRsuAvailable then .v2i else .v2v) data = .ok sent) :
      VehicleCase now data ingress zor node nodePos
        ⟨node.insertAlert ⟨data.name, .vehicle, nodePos⟩, sent, zor.contains nodePos⟩
  | cancelled (senderPos : Point F) (hpos : data.senderPos = some senderPos)
      (hdup : node.ctx.alertStore.isDuplicate data.name)
      (hreg : node.ctx.registry.isRegistered data.name)
      (hsup : Suppresses zor node.ctx.alertStore data.name nodePos senderPos) :
      VehicleCase now data ingress zor node nodePos (node.cancel data.name).drop
  | duplicate (senderPos : Point F) (hpos : data.senderPos = some senderPos)
      (hdup : node.ctx.alertStore.isDuplicate data.name)
      (hkeep : ¬ (node.ctx.registry.isRegistered data.name ∧
        Suppresses zor node.ctx.alertStore data.name nodePos senderPos)) :
      VehicleCase now data ingress zor node nodePos node.drop
  | closer (senderPos : Point F) (hpos : data.senderPos = some senderPos)
      (hnew : ¬ node.ctx.alertStore.isDuplicate data.name)
      (hout : ¬ zor.contains nodePos) (hcloser : CloserToZoR zor senderPos nodePos) :
      VehicleCase now data ingress zor node nodePos
        (node.insertAlert ⟨data.name, data.senderType.getD .none, senderPos⟩).drop
  | noFace (senderPos : Point F) (hpos : data.senderPos = some senderPos)
      (hnew : ¬ node.ctx.alertStore.isDuplicate data.name)
      (hfar : ¬ (¬ zor.contains nodePos ∧ CloserToZoR zor senderPos nodePos))
      (hface : (relayOn node data ingress (data.senderType.getD .none)).1 = none) :
      VehicleCase now data ingress zor node nodePos
        ⟨node.insertAlert ⟨data.name, data.senderType.getD .none, senderPos⟩, [],
          zor.contains nodePos⟩
  | deferred (senderPos : Point F) (face : NfdFace) (data' : Data F)
      (hpos : data.senderPos = some senderPos)
      (hnew : ¬ node.ctx.alertStore.isDuplicate data.name)
      (hfar : ¬ (¬ zor.contains nodePos ∧ CloserToZoR zor senderPos nodePos))
      (hface : relayOn node data ingress (data.senderType.getD .none) = (some face, data')) :
      VehicleCase now data ingress zor node nodePos
        ⟨(node.insertAlert ⟨data.name, data.senderType.getD .none, senderPos⟩).schedule
            (now + deferDelay node.ctx data.size (nodePos.distanceFromPoint senderPos)) data'
            face.faceId, [], zor.contains nodePos⟩

theorem relayOn_insertAlert (node : Node F) (entry : AlertStore.Entry F) (data : Data F)
    (ingress : NfdFace) (senderType : NodeType) :
    relayOn (node.insertAlert entry) data ingress senderType =
      relayOn node data ingress senderType := rfl

theorem alertVehicleHandler_cases {now : ℕ} {data : Data F} {ingress : NfdFace} {zor : ZoR F}
    {node : Node F} {nodePos : Point F} {o : Outcome F} (hm : node.mobility = some nodePos)
    (h : alertVehicleHandler now data ingress zor node = .ok o) :
    VehicleCase now data ingress zor node nodePos o := by
  simp only [alertVehicleHandler, hm] at h
  cases hpos : data.senderPos with
  | none =>
      simp only [hpos] at h
      split at h
      · rename_i hscope
        obtain rfl := Except.ok.inj h
        exact .noSender hpos hscope
      · rename_i hscope
        obtain ⟨sent, hsent, h⟩ := Fallible.bind_eq_ok.mp h
        obtain rfl := Fallible.pure_eq_ok.mp h
        exact .origin sent hpos (by simpa using hscope) hsent
  | some senderPos =>
      simp only [hpos, relayOn_insertAlert] at h
      split at h
      · rename_i hdup
        split at h
        · rename_i hsup
          obtain rfl := Except.ok.inj h
          exact .cancelled senderPos hpos hdup hsup.1 hsup.2
        · rename_i hkeep
          obtain rfl := Except.ok.inj h
          exact .duplicate senderPos hpos hdup hkeep
      · rename_i hnew
        split at h
        · rename_i hcloser
          obtain rfl := Except.ok.inj h
          exact .closer senderPos hpos hnew hcloser.1 hcloser.2
        · rename_i hfar
          split at h
          · rename_i face data' hface
            obtain rfl := Except.ok.inj h
            exact .deferred senderPos face data' hpos hnew hfar hface
          · rename_i data' hface
            obtain rfl := Except.ok.inj h
            exact .noFace senderPos hpos hnew hfar (by rw [hface])

/-- For a copy with a sender position the case decides the outcome. -/
theorem VehicleCase.handler_eq {now : ℕ} {data : Data F} {ingress : NfdFace} {zor : ZoR F}
    {node : Node F} {nodePos : Point F} {o : Outcome F} (hm : node.mobility = some nodePos)
    (hsome : data.senderPos ≠ none) (h : VehicleCase now data ingress zor node nodePos o) :
    alertVehicleHandler now data ingress zor node = .ok o := by
  unfold alertVehicleHandler
  cases h with
  | noSender hpos _ => exact absurd hpos hsome
  | origin _ hpos _ _ => exact absurd hpos hsome
  | cancelled sp hpos hdup hreg hsup =>
      simp only [hm, hpos, if_pos hdup, hreg, hsup, and_self, if_true]
  | duplicate sp hpos hdup hkeep => simp only [hm, hpos, if_pos hdup, if_neg hkeep]
  | closer sp hpos hnew hout hcloser =>
      simp only [hm, hpos, if_neg hnew]
      rw [if_pos ⟨hout, hcloser⟩]
  | noFace sp hpos hnew hfar hface =>
      simp only [hm, hpos, if_neg hnew, if_neg hfar, relayOn_insertAlert]
      rw [show relayOn node data ingress (data.senderType.getD .none) = (none, _) from
        Prod.ext hface rfl]
  | deferred sp face data' hpos hnew hfar hface =>
      simp only [hm, hpos, if_neg hnew, if_neg hfar, relayOn_insertAlert, hface]
      rfl

theorem alertVehicleHandler_origin {now : ℕ} {data : Data F} {ingress : NfdFace} {zor : ZoR F}
    {node : Node F} {nodePos : Point F} {sent : List (Outgoing F)}
    (hm : node.mobility = some nodePos) (hpos : data.senderPos = none)
    (hscope : ingress.scope = .isLocal)
    (hsent : node.sendOn (if node.ctx.isRsuAvailable then .v2i else .v2v) data = .ok sent) :
    alertVehicleHandler now data ingress zor node = .ok
      ⟨node.insertAlert ⟨data.name, .vehicle, nodePos⟩, sent, zor.contains nodePos⟩ := by
  unfold alertVehicleHandler
  simp only [hm, hpos, hscope, ne_eq, not_true_eq_false, if_false]
  exact Fallible.bind_ok hsent

/-- A copy with a sender position is handled whatever the state of the node. -/
theorem alertVehicleHandler_total (now : ℕ) (data : Data F) (ingress : NfdFace) (zor : ZoR F)
    (node : Node F) (hpos : data.senderPos ≠ none) :
    ∃ o, alertVehicleHandler now data ingress zor node = .ok o := by
  unfold alertVehicleHandler
  cases node.mobility with
  | none => exact ⟨_, rfl⟩
  | some nodePos =>
      cases hp : data.senderPos with
      | none => exact absurd hp hpos
      | some senderPos =>
          simp only
          split
          · split <;> exact ⟨_, rfl⟩
          · split
            · exact ⟨_, rfl⟩
            · split <;> exact ⟨_, rfl⟩

/-! ## The RSU -/

/-- The part of an RSU in the broadcast: the destinations left over and the
transmission it makes itself. -/
inductive BroadcastCase (data : Data F) (dstNodes : DestinationNodes) (node : Node F) :
    DestinationNodes → List (Outgoing F) → Prop
  | sends (hmem : node.nodeId ∈ dstNodes) (hv2i : node.ctx.getFaceIdFor .v2i ≠ 0)
      (hface : node.ctx.getFaceIdFor .v2i ∈ node.faceTable.map NfdFace.faceId) :
      BroadcastCase data dstNodes node (dstNodes.filter (· ≠ node.nodeId))
        [node.onOutgoingAlert { data with destinationNodes := none }
          (node.ctx.getFaceIdFor .v2i)]
  | passes (hnot : ¬ (node.nodeId ∈ dstNodes ∧ node.ctx.getFaceIdFor .v2i ≠ 0)) :
      BroadcastCase data dstNodes node dstNodes []

theorem broadcast_cases {data : Data F} {dstNodes rest : DestinationNodes} {node : Node F}
    {sent : List (Outgoing F)} (h : broadcast data dstNodes node = .ok (rest, sent)) :
    BroadcastCase data dstNodes node rest sent := by
  simp only [broadcast] at h
  split at h
  · rename_i hcond
    obtain ⟨face, hface, h⟩ := Fallible.bind_eq_ok.mp h
    obtain ⟨rfl, rfl⟩ := Prod.mk.inj (Fallible.pure_eq_ok.mp h)
    obtain ⟨hmem, hid⟩ := Node.getFace_ok hface
    rw [hid]
    exact .sends hcond.1 hcond.2 (hid ▸ List.mem_map_of_mem hmem)
  · rename_i hcond
    obtain ⟨rfl, rfl⟩ := Prod.mk.inj (Fallible.pure_eq_ok.mp h)
    exact .passes hcond

theorem broadcast_total {data : Data F} {dstNodes : DestinationNodes} {node : Node F}
    (hv2i : node.ctx.getFaceIdFor .v2i ≠ 0 →
      node.ctx.getFaceIdFor .v2i ∈ node.faceTable.map NfdFace.faceId) :
    ∃ rest sent, broadcast data dstNodes node = .ok (rest, sent) := by
  simp only [broadcast]
  split
  · rename_i hcond
    obtain ⟨face, hface, _⟩ := Node.getFace_of_mem (hv2i hcond.2)
    exact ⟨_, _, by rw [Fallible.bind_ok hface]; rfl⟩
  · exact ⟨_, _, rfl⟩

/-- The transmissions of the shares. -/
inductive SharesCase (fuel : ℕ) (infra : Infrastructure F) (data : Data F)
    (dstNodes : DestinationNodes) (node : Node F) : List (Outgoing F) → Prop
  | empty (hemp : dstNodes = []) : SharesCase fuel infra data dstNodes node []
  | shares (entries : UnorderedMap FaceId DestinationNodes) (hne : dstNodes ≠ [])
      (hmira : mira fuel infra.routingInfo dstNodes node.nodeId = .ok entries)
      (hfaces : ∀ entry ∈ entries.entries, entry.1 ∈ node.faceTable.map NfdFace.faceId) :
      SharesCase fuel infra data dstNodes node (entries.entries.map fun entry =>
        node.onOutgoingAlert { data with destinationNodes := some entry.2 } entry.1)

theorem forwardShares_cases {fuel : ℕ} {infra : Infrastructure F} {data : Data F}
    {dstNodes : DestinationNodes} {node : Node F} {sent : List (Outgoing F)}
    (h : forwardShares fuel infra data dstNodes node = .ok sent) :
    SharesCase fuel infra data dstNodes node sent := by
  unfold forwardShares at h
  split at h
  · rename_i hemp
    obtain rfl := Except.ok.inj h
    exact .empty (by simpa using hemp)
  · rename_i hne
    obtain ⟨entries, hmira, h⟩ := Fallible.bind_eq_ok.mp h
    have hmap := Fallible.mapM_eq_map (g := fun entry =>
      node.onOutgoingAlert { data with destinationNodes := some entry.2 } entry.1) ?_ h
    · rw [hmap]
      refine .shares entries (by simpa using hne) hmira fun entry hentry => ?_
      obtain ⟨_, hround⟩ := Fallible.mapM_round h hentry
      obtain ⟨face, hface, _⟩ := Fallible.bind_eq_ok.mp hround
      obtain ⟨hmem, hid⟩ := Node.getFace_ok hface
      exact hid ▸ List.mem_map_of_mem hmem
    · intro entry out hout
      obtain ⟨face, hface, hout⟩ := Fallible.bind_eq_ok.mp hout
      rw [← Fallible.pure_eq_ok.mp hout, (Node.getFace_ok hface).2]

theorem forwardShares_total {fuel : ℕ} {infra : Infrastructure F} {data : Data F}
    {dstNodes : DestinationNodes} {node : Node F}
    (h : dstNodes ≠ [] → ∃ entries, mira fuel infra.routingInfo dstNodes node.nodeId = .ok entries ∧
      ∀ entry ∈ entries.entries, entry.1 ∈ node.faceTable.map NfdFace.faceId) :
    ∃ sent, forwardShares fuel infra data dstNodes node = .ok sent := by
  unfold forwardShares
  split
  · exact ⟨_, rfl⟩
  · rename_i hne
    obtain ⟨entries, hmira, hfaces⟩ := h (by simpa using hne)
    rw [Fallible.bind_ok hmira]
    refine Fallible.mapM_total fun entry hentry => ?_
    obtain ⟨face, hface, _⟩ := Node.getFace_of_mem (hfaces entry hentry)
    exact ⟨_, by rw [Fallible.bind_ok hface]; rfl⟩

/-- The outcomes of the handler of an RSU. -/
inductive RsuCase (fuel : ℕ) (infra : Infrastructure F) (data : Data F) (zor : ZoR F)
    (node : Node F) : Outcome F → Prop
  | duplicate (hdup : node.ctx.alertStore.isDuplicate data.name) :
      RsuCase fuel infra data zor node node.drop
  | new (dstNodes rest : DestinationNodes) (sent wired : List (Outgoing F))
      (hnew : ¬ node.ctx.alertStore.isDuplicate data.name)
      (hdst : destinations fuel infra data zor node = .ok dstNodes)
      (hbroad : BroadcastCase data dstNodes node rest sent)
      (hwired : SharesCase fuel infra data rest node wired) :
      RsuCase fuel infra data zor node ⟨node.insertAlert ⟨data.name, .none, ⟨0, 0⟩⟩,
        sent ++ wired, node.checkInside zor⟩

theorem alertRsuHandler_cases {fuel : ℕ} {infra : Infrastructure F} {data : Data F} {zor : ZoR F}
    {node : Node F} {o : Outcome F} (h : alertRsuHandler fuel infra data zor node = .ok o) :
    RsuCase fuel infra data zor node o := by
  unfold alertRsuHandler at h
  split at h
  · rename_i hdup
    obtain rfl := Except.ok.inj h
    exact .duplicate hdup
  · rename_i hnew
    obtain ⟨dstNodes, hdst, h⟩ := Fallible.bind_eq_ok.mp h
    obtain ⟨⟨rest, sent⟩, hbroad, h⟩ := Fallible.bind_eq_ok.mp h
    obtain ⟨wired, hwired, h⟩ := Fallible.bind_eq_ok.mp h
    obtain rfl := Fallible.pure_eq_ok.mp h
    exact .new dstNodes rest sent wired hnew hdst (broadcast_cases hbroad)
      (forwardShares_cases hwired)

theorem alertRsuHandler_total {fuel : ℕ} {infra : Infrastructure F} {data : Data F} {zor : ZoR F}
    {node : Node F} (hdst : ∃ dstNodes, destinations fuel infra data zor node = .ok dstNodes)
    (hbroad : ∀ dstNodes, ∃ rest sent, broadcast data dstNodes node = .ok (rest, sent))
    (hwired : ∀ dstNodes rest sent, destinations fuel infra data zor node = .ok dstNodes →
      BroadcastCase data dstNodes node rest sent →
        ∃ wired, forwardShares fuel infra data rest node = .ok wired) :
    ∃ o, alertRsuHandler fuel infra data zor node = .ok o := by
  unfold alertRsuHandler
  split
  · exact ⟨_, rfl⟩
  · obtain ⟨dstNodes, hd⟩ := hdst
    obtain ⟨rest, sent, hb⟩ := hbroad dstNodes
    obtain ⟨wired, hw⟩ := hwired dstNodes rest sent hd (broadcast_cases hb)
    refine ⟨⟨node.insertAlert ⟨data.name, .none, ⟨0, 0⟩⟩, sent ++ wired, node.checkInside zor⟩, ?_⟩
    exact (Fallible.bind_ok hd).trans ((Fallible.bind_ok hb).trans (Fallible.bind_ok hw))

end Cafe
