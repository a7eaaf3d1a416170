import Cafe.Handlers
import Cafe.Runs

/-!
# A vehicle on its own

Runs of one vehicle under any sequence of events. The registry and the
pending events of the simulator stay in step as long as no alert is
scheduled again while an earlier relay of it is pending.
-/

open Labelled

namespace Cafe

variable {F : Type} [Arith F]

theorem onIncomingAlert_vehicle {fuel : ℕ} {infra : Infrastructure F} {now : ℕ} {data : Data F}
    {ingress : NfdFace} {node : Node F} {zor : ZoR F} (hz : extractZoR data.name = some zor)
    (hgeo : zor.IsGeographic) (hv : node.ctx.type = .vehicle) :
    onIncomingAlert fuel infra now data ingress node =
      alertVehicleHandler now data ingress zor node := by
  unfold onIncomingAlert
  cases zor with
  | neighbor => exact hgeo.elim
  | _ => simp only [hz, hv]

namespace Node

/-- An event and the outcome of its handling. -/
abbrev Label (F : Type) [Arith F] := NodeEvent F × Outcome F

/-- The node handles an event. -/
def Step (infra : Infrastructure F) (node : Node F) (l : Label F) (node' : Node F) : Prop :=
  (∃ fuel, node.handle fuel infra l.1 = .ok l.2) ∧ node' = l.2.node

theorem Step.unique {infra : Infrastructure F} {node node' node'' : Node F} {l : Label F}
    (h : Step infra node l node') (h' : Step infra node l node'') : node' = node'' :=
  h.2.trans h'.2.symm

/-- What one event does to a vehicle. -/
inductive Case (infra : Infrastructure F) (node : Node F) : NodeEvent F → Outcome F → Prop
  | geographic {now : ℕ} {data : Data F} {ingress : NfdFace} {zor : ZoR F} {nodePos : Point F}
      {o : Outcome F} (hz : extractZoR data.name = some zor) (hgeo : zor.IsGeographic)
      (hm : node.mobility = some nodePos)
      (hcase : VehicleCase now data ingress zor node nodePos o) :
      Case infra node (.receive now data ingress) o
  | ignored {now : ℕ} {data : Data F} {ingress : NfdFace} {sent : List (Outgoing F)}
      {relevant : Bool}
      (hno : (∀ zor, extractZoR data.name = some zor → ¬ zor.IsGeographic) ∨
        (node.mobility = none ∧ sent = [] ∧ relevant = false))
      (hsent : ∀ out ∈ sent, ∃ egress, out = node.onOutgoingAlert data egress) :
      Case infra node (.receive now data ingress) ⟨node, sent, relevant⟩
  | expired {id : EventId} (hno : ∀ d ∈ node.events, d.id ≠ id) :
      Case infra node (.expire id) node.drop
  | fired {d : Deferred F} (hmem : d ∈ node.events) :
      Case infra node (.expire d.id)
        (({ node with events := node.events.filter fun e => e.id ≠ d.id } : Node F)
          |>.deferredOutgoingAlert d)
  | hello (available : Bool) :
      Case infra node (.hello available)
        ({ node with ctx := { node.ctx with isRsuAvailable := available } } : Node F).drop
  | move (pos : Point F) :
      Case infra node (.move pos)
        ({ node with mobility := node.mobility.map fun _ => pos } : Node F).drop

/-- An event that brings no copy is handled alike on all nodes. -/
theorem handle_cases_internal {fuel : ℕ} {infra : Infrastructure F} {node : Node F}
    {ev : NodeEvent F} {o : Outcome F} (hev : ∀ now data ingress, ev ≠ .receive now data ingress)
    (h : node.handle fuel infra ev = .ok o) : Case infra node ev o := by
  cases ev with
  | receive now data ingress => exact absurd rfl (hev now data ingress)
  | expire id =>
      simp only [handle, Except.ok.injEq] at h
      subst h
      unfold expire
      split
      · rename_i hfind
        refine .expired fun d hd heq => ?_
        have := List.find?_eq_none.mp hfind d hd
        simp [heq] at this
      · rename_i d hfind
        obtain rfl : d.id = id := by simpa using List.find?_some hfind
        exact .fired (List.mem_of_find?_eq_some hfind)
  | hello available =>
      simp only [handle, Except.ok.injEq] at h
      subst h
      exact .hello available
  | move pos =>
      simp only [handle, Except.ok.injEq] at h
      subst h
      exact .move pos

theorem handle_cases {fuel : ℕ} {infra : Infrastructure F} {node : Node F} {ev : NodeEvent F}
    {o : Outcome F} (hv : node.ctx.type = .vehicle) (h : node.handle fuel infra ev = .ok o) :
    Case infra node ev o := by
  cases ev with
  | receive now data ingress =>
      simp only [handle] at h
      cases hz : extractZoR data.name with
      | none =>
          simp only [onIncomingAlert, hz] at h
          obtain rfl := Except.ok.inj h
          exact .ignored (Or.inl (by simp [hz])) (by simp)
      | some zor =>
          by_cases hgeo : zor.IsGeographic
          · rw [onIncomingAlert_vehicle hz hgeo hv] at h
            cases hm : node.mobility with
            | some nodePos => exact .geographic hz hgeo hm (alertVehicleHandler_cases hm h)
            | none =>
                simp only [alertVehicleHandler, hm] at h
                obtain rfl := Except.ok.inj h
                exact .ignored (Or.inr ⟨hm, rfl, rfl⟩) (by simp)
          · have hno : ∀ z, extractZoR data.name = some z → ¬ z.IsGeographic := by
              intro z hz'
              obtain rfl := Option.some.inj (hz.symm.trans hz')
              exact hgeo
            cases zor with
            | neighbor =>
                simp only [onIncomingAlert, hz] at h
                split at h
                · obtain rfl := Except.ok.inj h
                  exact .ignored (Or.inl hno) (by simp)
                · obtain rfl := Except.ok.inj h
                  refine .ignored (Or.inl hno) fun out hout => ?_
                  obtain ⟨face, _, rfl⟩ := List.mem_map.mp hout
                  exact ⟨_, rfl⟩
            | _ => exact absurd trivial hgeo
  | _ => exact handle_cases_internal (by simp) h

theorem Case.type_eq {infra : Infrastructure F} {node : Node F} {ev : NodeEvent F} {o : Outcome F}
    (h : Case infra node ev o) : o.node.ctx.type = node.ctx.type := by
  cases h with
  | geographic _ _ _ hcase =>
      cases hcase with
      | cancelled _ _ _ _ _ => exact node.cancel_type _
      | _ => rfl
  | _ => rfl

/-! ## The registry and the pending events -/

/-- The registry and the pending events tell the same: a name is registered
iff one event is pending for it, and then under the id of that event. -/
structure Coincide (node : Node F) : Prop where
  registered : ∀ name, node.ctx.registry.isRegistered name ↔
    ∃ d, node.events.filter (fun d => d.data.name = name) = [d]
  eventId : ∀ name id, node.ctx.registry.lookup name = some id →
    ∃ d ∈ node.events, d.data.name = name ∧ d.id = id
  single : ∀ name, (node.events.filter fun d => d.data.name = name).length ≤ 1

/-- The invariant behind it: event ids are fresh and the registry lists the
pending events by name. -/
structure Coherent (node : Node F) : Prop where
  bound : ∀ d ∈ node.events, d.id < node.nextEvent
  ids : (node.events.map Deferred.id).Nodup
  lookup : ∀ name id, node.ctx.registry.lookup name = some id ↔
    ∃ d ∈ node.events, d.data.name = name ∧ d.id = id

theorem Coherent.init {node : Node F} (hreg : node.ctx.registry = ∅) (hev : node.events = []) :
    node.Coherent := by
  refine ⟨by simp [hev], by simp [hev], ?_⟩
  simp [hreg, hev]

theorem Coherent.unique {node : Node F} (h : node.Coherent) {d e : Deferred F}
    (hd : d ∈ node.events) (he : e ∈ node.events) (hname : d.data.name = e.data.name) : d = e := by
  have h1 := (h.lookup e.data.name d.id).mpr ⟨d, hd, hname, rfl⟩
  have h2 := (h.lookup e.data.name e.id).mpr ⟨e, he, rfl, rfl⟩
  exact List.inj_on_of_nodup_map h.ids hd he (Option.some.inj (h1.symm.trans h2))

theorem Coherent.filter_eq {node : Node F} (h : node.Coherent) {d : Deferred F}
    (hd : d ∈ node.events) :
    (node.events.filter fun e => e.data.name = d.data.name) = [d] := by
  have hnd : (node.events.filter fun e => e.data.name = d.data.name).Nodup :=
    (List.Nodup.of_map _ h.ids).filter _
  have hall : ∀ e ∈ node.events.filter (fun e => e.data.name = d.data.name), e = d := by
    intro e he
    have := List.mem_filter.mp he
    exact h.unique this.1 hd (by simpa using this.2)
  have hmem : d ∈ node.events.filter fun e => e.data.name = d.data.name :=
    List.mem_filter.mpr ⟨hd, by simp⟩
  exact List.perm_singleton.mp (List.perm_ext_iff_of_nodup hnd (by simp) |>.mpr fun e =>
    ⟨fun he => by simp [hall e he], fun he => by rwa [List.mem_singleton.mp he]⟩)

theorem Coherent.coincide {node : Node F} (h : node.Coherent) : node.Coincide where
  registered := by
    intro name
    constructor
    · intro hreg
      obtain ⟨id, hid⟩ := Option.isSome_iff_exists.mp (AList.lookup_isSome.mpr hreg)
      obtain ⟨d, hd, rfl, _⟩ := (h.lookup name id).mp hid
      exact ⟨d, h.filter_eq hd⟩
    · rintro ⟨d, hd⟩
      have hmem : d ∈ node.events.filter fun e => e.data.name = name := by simp [hd]
      obtain ⟨hd, hname⟩ := List.mem_filter.mp hmem
      exact AList.lookup_isSome.mp (by
        rw [(h.lookup name d.id).mpr ⟨d, hd, by simpa using hname, rfl⟩]
        rfl)
  eventId := fun name id hid => (h.lookup name id).mp hid
  single := by
    intro name
    cases hf : node.events.filter fun d => d.data.name = name with
    | nil => simp
    | cons d rest =>
        have hmem : d ∈ node.events.filter fun e => e.data.name = name := by simp [hf]
        obtain ⟨hd, hname⟩ := List.mem_filter.mp hmem
        obtain rfl : d.data.name = name := by simpa using hname
        rw [← hf, h.filter_eq hd]
        simp

/-- The event schedules an alert of which the registry still holds a relay:
the store has evicted it, and the copy passes all tests for a relay. -/
def Reschedules (node : Node F) : NodeEvent F → Prop
  | .receive _ data ingress =>
      node.ctx.registry.isRegistered data.name ∧ ¬ node.ctx.alertStore.isDuplicate data.name ∧
        ∃ zor nodePos senderPos, extractZoR data.name = some zor ∧ zor.IsGeographic ∧
          node.mobility = some nodePos ∧ data.senderPos = some senderPos ∧
          ¬ (¬ zor.contains nodePos ∧ CloserToZoR zor senderPos nodePos) ∧
          (relayOn node data ingress (data.senderType.getD .none)).1.isSome
  | _ => False

theorem Coherent.schedule {node : Node F} (h : node.Coherent) {due : ℕ} {data : Data F}
    {egress : FaceId} (hfree : ¬ node.ctx.registry.isRegistered data.name) :
    (node.schedule due data egress).Coherent where
  bound := by
    intro d hd
    rw [schedule_events, List.mem_append, List.mem_singleton] at hd
    rcases hd with hd | rfl
    · exact (h.bound d hd).trans (Nat.lt_succ_self _)
    · exact Nat.lt_succ_self _
  ids := by
    rw [schedule_events, List.map_append, List.nodup_append]
    refine ⟨h.ids, by simp, ?_⟩
    rintro x hx y hy rfl
    obtain ⟨d, hd, rfl⟩ := List.mem_map.mp hx
    have := h.bound d hd
    exact (Nat.ne_of_lt this) (by simpa using hy)
  lookup := by
    intro name id
    have hreg : (node.schedule due data egress).ctx.registry =
        AList.insert data.name node.nextEvent node.ctx.registry := rfl
    rw [hreg, schedule_events]
    simp only [List.mem_append, List.mem_singleton]
    by_cases hname : name = data.name
    · subst hname
      rw [AList.lookup_insert]
      constructor
      · rintro heq
        exact ⟨_, Or.inr rfl, rfl, Option.some.inj heq⟩
      · rintro ⟨d, hd | rfl, hd', rfl⟩
        · refine absurd (AList.lookup_isSome.mp ?_) hfree
          rw [(h.lookup data.name d.id).mpr ⟨d, hd, hd', rfl⟩]
          rfl
        · rfl
    · rw [AList.lookup_insert_ne hname, h.lookup]
      constructor
      · rintro ⟨d, hd, hd'⟩
        exact ⟨d, Or.inl hd, hd'⟩
      · rintro ⟨d, hd | rfl, hd', rfl⟩
        · exact ⟨d, hd, hd', rfl⟩
        · exact absurd hd'.symm hname

/-- Taking the pending event of a name away together with its registration. -/
theorem Coherent.erase {node : Node F} (h : node.Coherent) {d : Deferred F}
    (hd : d ∈ node.events) {node' : Node F}
    (hreg : node'.ctx.registry = AList.erase d.data.name node.ctx.registry)
    (hev : node'.events = node.events.filter fun e => e.id ≠ d.id)
    (hnext : node'.nextEvent = node.nextEvent) : node'.Coherent where
  bound := by
    intro e he
    rw [hev] at he
    rw [hnext]
    exact h.bound e (List.mem_filter.mp he).1
  ids := by
    rw [hev]
    exact h.ids.sublist (List.filter_sublist.map _)
  lookup := by
    intro name id
    rw [hreg, hev]
    by_cases hname : name = d.data.name
    · subst hname
      rw [AList.lookup_erase]
      simp only [reduceCtorEq, false_iff]
      rintro ⟨e, he, hename, rfl⟩
      obtain ⟨he, hne⟩ := List.mem_filter.mp he
      obtain rfl := h.unique he hd hename
      simp at hne
    · rw [AList.lookup_erase_ne hname, h.lookup]
      constructor
      · rintro ⟨e, he, rfl, rfl⟩
        refine ⟨e, List.mem_filter.mpr ⟨he, ?_⟩, rfl, rfl⟩
        simp only [ne_eq, decide_not, Bool.not_eq_eq_eq_not, Bool.not_true,
          decide_eq_false_iff_not]
        intro hid
        exact hname (by rw [List.inj_on_of_nodup_map h.ids he hd hid])
      · rintro ⟨e, he, rfl, rfl⟩
        exact ⟨e, (List.mem_filter.mp he).1, rfl, rfl⟩

theorem Coherent.congr {node node' : Node F} (h : node.Coherent)
    (hreg : node'.ctx.registry = node.ctx.registry) (hev : node'.events = node.events)
    (hnext : node'.nextEvent = node.nextEvent) : node'.Coherent where
  bound := by
    rw [hev, hnext]
    exact h.bound
  ids := by
    rw [hev]
    exact h.ids
  lookup := by
    rw [hreg, hev]
    exact h.lookup

/-- An event that schedules no alert twice keeps the invariant. -/
theorem Case.coherent {infra : Infrastructure F} {node : Node F} {ev : NodeEvent F} {o : Outcome F}
    (hc : Case infra node ev o) (h : node.Coherent) (hno : ¬ node.Reschedules ev) :
    o.node.Coherent := by
  cases hc with
  | @geographic now data ingress zor nodePos o hz hgeo hm hcase =>
      cases hcase with
      | cancelled senderPos hpos hdup hreg hsup =>
          obtain ⟨id, hid⟩ := Option.isSome_iff_exists.mp (AList.lookup_isSome.mpr hreg)
          obtain ⟨d, hd, hname, rfl⟩ := (h.lookup _ _).mp hid
          obtain ⟨hr, he⟩ := cancel_of_lookup hid
          exact h.erase hd (hname ▸ hr) he (node.cancel_nextEvent _)
      | deferred senderPos face data' hpos hnew hfar hface =>
          have hins :
              (node.insertAlert ⟨data.name, data.senderType.getD .none, senderPos⟩).Coherent :=
            h.congr rfl rfl rfl
          refine hins.schedule ?_
          rw [(relayOn_data hface).1]
          intro hreg
          exact hno ⟨hreg, hnew, zor, nodePos, senderPos, hz, hgeo, hm, hpos, hfar, by
            rw [hface]
            rfl⟩
      | _ => exact h.congr rfl rfl rfl
  | fired hmem => exact h.erase hmem rfl rfl rfl
  | _ => exact h.congr rfl rfl rfl

/-- An event that schedules an alert twice leaves two pending events. -/
theorem Case.not_coincide {infra : Infrastructure F} {node : Node F} {ev : NodeEvent F}
    {o : Outcome F} (hc : Case infra node ev o) (h : node.Coincide) (hres : node.Reschedules ev) :
    ¬ o.node.Coincide := by
  cases hc with
  | @geographic now data ingress zor nodePos o hz hgeo hm hcase =>
      obtain ⟨hreg, hnew, zor', nodePos', senderPos', hz', hgeo', hm', hpos', hfar', hface'⟩ := hres
      obtain rfl := Option.some.inj (hz.symm.trans hz')
      obtain rfl := Option.some.inj (hm.symm.trans hm')
      cases hcase with
      | noSender hpos _ => simp [hpos] at hpos'
      | origin _ hpos _ _ => simp [hpos] at hpos'
      | cancelled _ _ hdup _ _ => exact absurd hdup hnew
      | duplicate _ _ hdup _ => exact absurd hdup hnew
      | closer senderPos hpos _ hout hcloser =>
          obtain rfl := Option.some.inj (hpos.symm.trans hpos')
          exact absurd ⟨hout, hcloser⟩ hfar'
      | noFace _ _ _ _ hface => simp [hface] at hface'
      | deferred senderPos face data' hpos _ hfar hface =>
          intro hco
          obtain ⟨d, hd⟩ := (h.registered data.name).mp hreg
          have hlen := hco.single data.name
          rw [schedule_events, insertAlert_events, List.filter_append, hd] at hlen
          simp [(relayOn_data hface).1] at hlen
  | ignored hno =>
      obtain ⟨_, _, zor, nodePos, _, hz, hgeo, hm, _⟩ := hres
      rcases hno with hno | hno
      · exact absurd hgeo (hno zor hz)
      · simp [hno.1] at hm
  | _ => exact hres.elim

theorem Case.of_step {infra : Infrastructure F} {node node' : Node F} {l : Label F}
    (hv : node.ctx.type = .vehicle) (h : Step infra node l node') :
    Case infra node l.1 l.2 ∧ node' = l.2.node := by
  obtain ⟨⟨fuel, hf⟩, rfl⟩ := h
  exact ⟨handle_cases hv hf, rfl⟩

/-- A copy with a sender position is handled as its case says. -/
theorem step_of_case {infra : Infrastructure F} {node : Node F} {now : ℕ} {data : Data F}
    {ingress : NfdFace} {zor : ZoR F} {nodePos : Point F} {o : Outcome F}
    (hv : node.ctx.type = .vehicle) (hz : extractZoR data.name = some zor)
    (hgeo : zor.IsGeographic) (hm : node.mobility = some nodePos) (hsome : data.senderPos ≠ none)
    (hc : VehicleCase now data ingress zor node nodePos o) :
    Step infra node (.receive now data ingress, o) o.node :=
  ⟨⟨0, (onIncomingAlert_vehicle hz hgeo hv).trans (hc.handler_eq hm hsome)⟩, rfl⟩

theorem Run.type_eq {infra : Infrastructure F} {node node' : Node F} {ls : List (Label F)}
    (hv : node.ctx.type = .vehicle) (h : Run (Step infra) node ls node') :
    node'.ctx.type = .vehicle := by
  refine h.invariant (fun _ n => n.ctx.type = .vehicle) hv ?_
  intro ms t l v rest _ _ ht hstep
  obtain ⟨hc, rfl⟩ := Case.of_step ht hstep
  exact hc.type_eq.trans ht

theorem Run.coherent {infra : Infrastructure F} {node node' : Node F} {ls : List (Label F)}
    (hv : node.ctx.type = .vehicle) (h0 : node.Coherent) (h : Run (Step infra) node ls node')
    (hno : ∀ pre l post mid, ls = pre ++ l :: post → Run (Step infra) node pre mid →
      ¬ mid.Reschedules l.1) : node'.Coherent := by
  refine h.invariant (fun _ n => n.Coherent) h0 ?_
  intro ms t l v rest heq hrun ht hstep
  obtain ⟨hc, rfl⟩ := Case.of_step (Run.type_eq hv hrun) hstep
  exact hc.coherent ht (hno ms l rest t heq hrun)

end Node

/-- Over the runs of a vehicle that starts with no pending relay: registry
and pending events coincide in every state reached iff no step schedules an
alert of which the registry still holds a relay. -/
theorem registry_coincides_iff {infra : Infrastructure F} {node node' : Node F}
    {ls : List (Node.Label F)} (hv : node.ctx.type = .vehicle) (hreg : node.ctx.registry = ∅)
    (hev : node.events = []) (hrun : Run (Node.Step infra) node ls node') :
    (∀ pre post mid, ls = pre ++ post → Run (Node.Step infra) node pre mid → mid.Coincide) ↔
      ∀ pre l post mid, ls = pre ++ l :: post → Run (Node.Step infra) node pre mid →
        ¬ mid.Reschedules l.1 := by
  have h0 : node.Coherent := .init hreg hev
  constructor
  · intro hall pre l post mid heq hpre hres
    subst heq
    obtain ⟨mid', hpre', hrest⟩ := Run.append_iff.mp hrun
    obtain rfl := hpre.unique (fun _ _ _ _ => Node.Step.unique) hpre'
    obtain ⟨next, hstep, _⟩ := Run.cons_iff.mp hrest
    obtain ⟨hc, rfl⟩ := Node.Case.of_step (Node.Run.type_eq hv hpre) hstep
    exact hc.not_coincide (hall pre (l :: post) mid rfl hpre) hres
      (hall (pre ++ [l]) post _ (by simp) (hpre.snoc hstep))
  · intro hno pre post mid heq hpre
    subst heq
    refine (Node.Run.coherent hv h0 hpre ?_).coincide
    intro pre' l post' mid' heq' hpre'
    exact hno pre' l (post' ++ post) mid' (by simp [heq']) hpre'

/-! ## A relay that outlives its entry in the store

A vehicle whose store holds one entry hears two alerts from inside their
zone; the second evicts the first, a further copy of which is scheduled a
second time. -/

namespace Evicted

/-- The zone of the alerts, around the vehicle. -/
def zone : ZoR ℝ := .circle ⟨0, 0⟩ 10

def alert (b : UInt8) : Data ℝ where
  name := [.generic [b], .zor zone]
  size := 100
  senderType := some .vehicle
  senderPos := some ⟨1, 0⟩
  destinationNodes := none
  uid := 0

def copy (b : UInt8) : NodeEvent ℝ := .receive 0 (alert b) ⟨1, .nonLocal⟩

theorem name_notMem {b c : UInt8} (h : b ≠ c) : (alert b).name ∉ [(alert c).name] := by
  simpa [alert] using h

noncomputable def start : Node ℝ where
  nodeId := 0
  mobility := some ⟨0, 0⟩
  ctx :=
    { Context.init ℝ with
      type := .vehicle
      faceContextMap := [(1, .v2v)]
      alertStore := ⟨1, [], List.nodup_nil⟩ }
  faceTable := [⟨1, .nonLocal⟩]
  events := []
  nextEvent := 0

theorem zone_contains : zone.contains ⟨0, 0⟩ := by
  simp [zone, ZoR.contains, Point.distanceFromPoint, Arith.hypot]

/-- The vehicle with the names in its store, at most one. -/
structure Holds (names : List (Name ℝ)) (node : Node ℝ) : Prop where
  type : node.ctx.type = .vehicle
  faceContextMap : node.ctx.faceContextMap = [(1, .v2v)]
  isRsuAvailable : node.ctx.isRsuAvailable = false
  faceTable : node.faceTable = [⟨1, .nonLocal⟩]
  mobility : node.mobility = some ⟨0, 0⟩
  maxSize : node.ctx.alertStore.maxSize = 1
  names_eq : node.ctx.alertStore.names = names
  length_le : names.length ≤ 1

theorem start_coherent : start.Coherent :=
  .init rfl rfl

theorem start_holds : Holds [] start := ⟨rfl, rfl, rfl, rfl, rfl, rfl, rfl, by simp⟩

/-- A copy of another alert takes the place in the store and is scheduled. -/
theorem step_alert (infra : Infrastructure ℝ) {names : List (Name ℝ)} {b : UInt8}
    (hnot : (alert b).name ∉ names) {node : Node ℝ} (h : Holds names node) :
    ∃ due o, Node.Step infra node (copy b, o) o.node ∧
      Holds [(alert b).name] o.node ∧
        o.node.events = node.events ++ [⟨node.nextEvent, due, alert b, 1⟩] := by
  have hnew : ¬ node.ctx.alertStore.isDuplicate (alert b).name := by
    rw [AlertStore.isDuplicate, h.names_eq]
    exact hnot
  have hc : VehicleCase 0 (alert b) ⟨1, .nonLocal⟩ zone node ⟨0, 0⟩ _ :=
    .deferred ⟨1, 0⟩ ⟨1, .nonLocal⟩ (alert b) rfl hnew (fun h => h.1 zone_contains)
      (by simp [relayOn, h.faceContextMap, h.isRsuAvailable, h.faceTable, Context.getFaceIdFor])
  refine ⟨_, _, Node.step_of_case h.type rfl trivial h.mobility (by simp [alert]) hc,
    ⟨h.type, h.faceContextMap, h.isRsuAvailable, h.faceTable, h.mobility, ?_, ?_, by simp⟩, rfl⟩
  · exact (AlertStore.insertOrUpdate_maxSize _ _).trans h.maxSize
  · have hlen : node.ctx.alertStore.order.length = names.length := by
      rw [← h.names_eq]
      exact (List.length_map _).symm
    let entry : AlertStore.Entry ℝ := ⟨(alert b).name, .vehicle, ⟨1, 0⟩⟩
    have horder : (node.ctx.alertStore.insertOrUpdate entry).order = [entry] := by
      rcases hord : node.ctx.alertStore.order with _ | ⟨e, _ | ⟨e', rest⟩⟩
      · rw [AlertStore.insertOrUpdate_order hnew (by simp [hord, h.maxSize]), hord]
      · rw [AlertStore.insertOrUpdate_order_full hnew (by simp [hord, h.maxSize]), hord]
        rfl
      · have := h.length_le
        simp [← hlen, hord] at this
    exact congrArg (List.map AlertStore.Entry.name) horder

/-- A copy of the alert that is in the store is a duplicate. -/
theorem step_again (infra : Infrastructure ℝ) {b : UInt8} {node : Node ℝ}
    (h : Holds [(alert b).name] node) : ∃ o, Node.Step infra node (copy b, o) o.node := by
  have hdup : node.ctx.alertStore.isDuplicate (alert b).name := by
    rw [AlertStore.isDuplicate, h.names_eq]
    exact List.mem_singleton_self _
  by_cases hcancel : node.ctx.registry.isRegistered (alert b).name ∧
      Suppresses zone node.ctx.alertStore (alert b).name ⟨0, 0⟩ ⟨1, 0⟩
  · have hc : VehicleCase 0 (alert b) ⟨1, .nonLocal⟩ zone node ⟨0, 0⟩ _ :=
      .cancelled ⟨1, 0⟩ rfl hdup hcancel.1 hcancel.2
    exact ⟨_, Node.step_of_case h.type rfl trivial h.mobility (by simp [alert]) hc⟩
  · have hc : VehicleCase 0 (alert b) ⟨1, .nonLocal⟩ zone node ⟨0, 0⟩ _ :=
      .duplicate ⟨1, 0⟩ rfl hdup hcancel
    exact ⟨_, Node.step_of_case h.type rfl trivial h.mobility (by simp [alert]) hc⟩

end Evicted

/-- The alert that has evicted the other one is heard again. The relay of the other one stays
registered. -/
theorem registry_coincides_iff_again : ∃ o₁ o₂ o₃, Run (Node.Step ⟨∅, ∅⟩) Evicted.start
    [(Evicted.copy 97, o₁), (Evicted.copy 98, o₂), (Evicted.copy 98, o₃)] o₃.node ∧
    (Evicted.alert 97).name ∉ o₂.node.ctx.alertStore.names ∧
    ∀ pre post mid, [(Evicted.copy 97, o₁), (Evicted.copy 98, o₂), (Evicted.copy 98, o₃)] =
      pre ++ post → Run (Node.Step ⟨∅, ∅⟩) Evicted.start pre mid → mid.Coincide := by
  obtain ⟨_, o₁, h₁, hold₁, hev₁⟩ := Evicted.step_alert ⟨∅, ∅⟩ (b := 97) (by simp)
    Evicted.start_holds
  obtain ⟨_, o₂, h₂, hold₂, -⟩ := Evicted.step_alert ⟨∅, ∅⟩ (b := 98)
    (Evicted.name_notMem (by decide)) hold₁
  obtain ⟨o₃, h₃⟩ := Evicted.step_again ⟨∅, ∅⟩ (b := 98) hold₂
  have hrun : Run (Node.Step ⟨∅, ∅⟩) Evicted.start
      [(Evicted.copy 97, o₁), (Evicted.copy 98, o₂), (Evicted.copy 98, o₃)] o₃.node :=
    ((Run.nil.snoc h₁).snoc h₂).snoc h₃
  refine ⟨o₁, o₂, o₃, hrun, ?_, (registry_coincides_iff rfl rfl rfl hrun).mpr ?_⟩
  · rw [hold₂.names_eq]
    exact Evicted.name_notMem (by decide)
  have hcoherent : o₁.node.Coherent :=
    (Node.Case.of_step rfl h₁).1.coherent Evicted.start_coherent fun h => nomatch h.1
  intro pre l post mid heq hpre hres
  rcases pre with _ | ⟨l₁, _ | ⟨l₂, _ | ⟨l₃, pre⟩⟩⟩
  all_goals simp only [List.nil_append, List.cons_append, List.cons.injEq] at heq
  · obtain rfl := Run.nil_iff.mp hpre
    obtain ⟨rfl, -⟩ := heq
    exact nomatch hres.1
  · obtain ⟨rfl, rfl, -⟩ := heq
    obtain rfl := hpre.unique (fun _ _ _ _ => Node.Step.unique) (Run.single_iff.mpr h₁)
    -- only the other alert is pending
    obtain ⟨id, hid⟩ := Option.isSome_iff_exists.mp (AList.lookup_isSome.mpr hres.1)
    obtain ⟨d, hd, hname, -⟩ := (hcoherent.lookup _ _).mp hid
    rw [hev₁] at hd
    obtain rfl := List.mem_singleton.mp hd
    exact Evicted.name_notMem (by decide : (97 : UInt8) ≠ 98) (List.mem_singleton.mpr hname)
  · obtain ⟨rfl, rfl, rfl, -⟩ := heq
    obtain rfl := hpre.unique (fun _ _ _ _ => Node.Step.unique) ((Run.nil.snoc h₁).snoc h₂)
    refine hres.2.1 ?_
    rw [AlertStore.isDuplicate, hold₂.names_eq]
    exact List.mem_singleton_self _
  · exact absurd heq.2.2.2 (by simp)

/-- Registry and pending events do not coincide in every reachable state. -/
theorem registry_not_coincides : ¬ ∀ (infra : Infrastructure ℝ) (node node' : Node ℝ)
    (ls : List (Node.Label ℝ)), node.ctx.type = .vehicle → node.ctx.registry = ∅ →
      node.events = [] → Run (Node.Step infra) node ls node' → node'.Coincide := by
  intro hall
  obtain ⟨_, o₁, h₁, hold₁, hev₁⟩ := Evicted.step_alert ⟨∅, ∅⟩ (b := 97) (by simp)
    Evicted.start_holds
  obtain ⟨_, o₂, h₂, hold₂, hev₂⟩ := Evicted.step_alert (b := 98) ⟨∅, ∅⟩
    (Evicted.name_notMem (by decide)) hold₁
  obtain ⟨_, o₃, h₃, _, hev₃⟩ := Evicted.step_alert (b := 97) ⟨∅, ∅⟩
    (Evicted.name_notMem (by decide)) hold₂
  have hrun := ((Run.nil.snoc h₁).snoc h₂).snoc h₃
  have hsingle := (hall _ _ _ _ rfl rfl rfl hrun).single (Evicted.alert 97).name
  rw [hev₃, hev₂, hev₁] at hsingle
  simp [Evicted.start] at hsingle

end Cafe
