import Cafe.AlertStoreLru
import Cafe.AtMostOnce

/-!
# Alerts that come back after an eviction

A node handles an alert that its store has forgotten as a new one. How often
this happens is bounded by the number of other alerts that the node hears.
-/

open Labelled

namespace Cafe

variable {F : Type} [Arith F]

namespace AlertStore

/-- The store was given the alert `admissions` times, in the midst of `others`
arrivals of other alerts. -/
structure Readmits (as : AlertStore F) (name : Name F) (admissions others : ℕ) : Prop where
  fits : as.order.length ≤ as.maxSize
  retained : LruList.Retained as.maxSize as.names name admissions others

namespace Readmits

variable {as : AlertStore F} {name : Name F} {admissions others : ℕ}

theorem mono (h : as.Readmits name admissions others) {admissions' others' : ℕ}
    (hadm : admissions' ≤ admissions) (hoth : others ≤ others') :
    as.Readmits name admissions' others' := ⟨h.fits, h.retained.mono hadm hoth⟩

theorem fits_insertOrUpdate (h : as.Readmits name admissions others) (entry : Entry F) :
    (as.insertOrUpdate entry).order.length ≤ (as.insertOrUpdate entry).maxSize := by
  have := h.fits
  rw [length_insertOrUpdate, insertOrUpdate_maxSize]
  split <;> omega

theorem of_ne (h : as.Readmits name admissions others) {entry : Entry F}
    (hne : entry.name ≠ name) :
    (as.insertOrUpdate entry).Readmits name admissions (others + 1) := by
  refine ⟨h.fits_insertOrUpdate entry, ?_⟩
  rw [insertOrUpdate_maxSize, names_insertOrUpdate h.fits]
  exact h.retained.touch_of_ne hne

theorem afterInsert {entry : Entry F} (h : as.Readmits entry.name admissions others)
    (hnew : ¬ as.isDuplicate entry.name) :
    (as.insertOrUpdate entry).Readmits entry.name (admissions + 1) others := by
  refine ⟨h.fits_insertOrUpdate entry, ?_⟩
  rw [insertOrUpdate_maxSize, names_insertOrUpdate h.fits]
  exact h.retained.touch_self hnew

end Readmits

end AlertStore

namespace Node

theorem Fresh.readmits {node : Node F} (h : node.Fresh) (name : Name F) :
    node.ctx.alertStore.Readmits name 0 0 := by
  refine ⟨by simp [h.order], ?_⟩
  rw [show node.ctx.alertStore.names = [] by simp [AlertStore.names, h.order]]
  exact .nil _ _

/-- What a copy of an alert adds to its transmissions and pending relays, the store admits. -/
inductive Admission (node : Node F) (name : Name F) (o : Outcome F) : Prop
  | none (hstore : o.node.ctx.alertStore = node.ctx.alertStore)
      (hsent : o.egressesOf name = [])
      (hle : (o.node.pendingOf name).length ≤ (node.pendingOf name).length)
  | admits (entry : AlertStore.Entry F) (hname : entry.name = name)
      (hnew : ¬ node.ctx.alertStore.isDuplicate name)
      (hstore : o.node.ctx.alertStore = node.ctx.alertStore.insertOrUpdate entry)
      (hle : (o.egressesOf name).length + (o.node.pendingOf name).length ≤
        (node.pendingOf name).length + 1)

theorem vehicleCase_admission {now : ℕ} {data : Data F} {ingress : NfdFace} {zor : ZoR F}
    {node : Node F} {nodePos : Point F} {o : Outcome F}
    (hcase : VehicleCase now data ingress zor node nodePos o)
    (horigin : ingress.scope = .isLocal → ¬ node.ctx.alertStore.isDuplicate data.name) :
    node.Admission data.name o := by
  cases hcase with
  | noSender _ _ => exact .none rfl rfl le_rfl
  | origin sent hpos hscope hsent =>
      refine .admits _ rfl (horigin hscope) rfl ?_
      have hlen : (Outcome.egressesOf ⟨node.insertAlert ⟨data.name, .vehicle, nodePos⟩, sent,
          zor.contains nodePos⟩ data.name).length ≤ 1 := by
        rcases sendOn_ok hsent with rfl | rfl
        · simp [Outcome.egressesOf]
        · simpa [Outcome.egressesOf] using List.length_filter_le _ [_]
      simp only [pendingOf, insertAlert_events]
      omega
  | cancelled senderPos hpos hdup hreg hsup =>
      obtain ⟨id, hid⟩ := Option.isSome_iff_exists.mp (AList.lookup_isSome.mpr hreg)
      refine .none (node.cancel_alertStore _) rfl ?_
      rw [drop_node, pendingOf, (cancel_of_lookup hid).2]
      exact (List.filter_sublist.filter _).length_le
  | duplicate _ _ _ _ => exact .none rfl rfl le_rfl
  | closer _ _ hnew _ _ => exact .admits _ rfl hnew rfl (by simp [Outcome.egressesOf, pendingOf])
  | noFace _ _ hnew _ _ => exact .admits _ rfl hnew rfl (by simp [Outcome.egressesOf, pendingOf])
  | deferred _ _ _ _ hnew _ hface =>
      refine .admits _ rfl hnew rfl ?_
      simp [Outcome.egressesOf, pendingOf, (relayOn_data hface).1]

/-- The transmissions of an alert by a node that has heard `others` other alerts. -/
inductive Relays (node : Node F) (name : Name F) (egresses : List FaceId) (others : ℕ) : Prop
  | vehicle (hv : node.ctx.type = .vehicle)
      (h : node.ctx.alertStore.Readmits name (egresses.length + (node.pendingOf name).length)
        others)
  | rsu (hr : node.ctx.type = .rsu) (hev : node.events = [])
      (h : ∀ e, node.ctx.alertStore.Readmits name (egresses.count e) others)
  | other (hv : node.ctx.type ≠ .vehicle) (hr : node.ctx.type ≠ .rsu) (hev : node.events = [])
      (hnil : egresses = [])

theorem Fresh.relays {node : Node F} (h : node.Fresh) (name : Name F) : node.Relays name [] 0 := by
  by_cases hv : node.ctx.type = .vehicle
  · exact .vehicle hv (by simpa [pendingOf, h.events] using h.readmits name)
  · by_cases hr : node.ctx.type = .rsu
    · exact .rsu hr h.events fun e => h.readmits name
    · exact .other hv hr h.events rfl

/-- An event that does not bring the alert counts as another one if it brings any. -/
theorem Effect.readmits_of_ne {infra : Infrastructure F} {node : Node F} {ev : NodeEvent F}
    {o : Outcome F} {name : Name F} {admissions others : ℕ} (h : Effect infra node ev o)
    (halert : ev.alert ≠ some name)
    (hr : node.ctx.alertStore.Readmits name admissions others) :
    o.node.ctx.alertStore.Readmits name admissions
      (others + if ev.alert.isSome then 1 else 0) := by
  rcases h.store with hsame | ⟨entry, hentry, hins⟩
  · rw [hsame]
    exact hr.mono le_rfl (Nat.le_add_right _ _)
  · rw [hins, hentry]
    exact hr.of_ne fun heq => halert (hentry.trans (congrArg some heq))

/-- What an RSU transmits for an alert is admitted, and goes out once on each face. -/
theorem Effect.rsu_admission {infra : Infrastructure F} {node : Node F} {ev : NodeEvent F}
    {o : Outcome F} {name : Name F} (h : Effect infra node ev o) (hr : node.ctx.type = .rsu)
    (hapart : node.WiredApart infra) (halert : ev.alert = some name) :
    (o.egressesOf name = [] ∧ o.node.ctx.alertStore = node.ctx.alertStore) ∨
      ((o.egressesOf name).Nodup ∧ ¬ node.ctx.alertStore.isDuplicate name ∧
        ∃ entry : AlertStore.Entry F, entry.name = name ∧
          o.node.ctx.alertStore = node.ctx.alertStore.insertOrUpdate entry) := by
  cases h with
  | vehicle hv _ => simp [hv (by simp [halert])] at hr
  | @rsu fuel now data ingress zor _ _ hz hgeo hc =>
      obtain rfl : data.name = name :=
        Option.some.inj ((NodeEvent.alert_receive _ _ hz hgeo).symm.trans halert)
      have hsent := (rsuCase_egresses hc hapart).1
      cases hc with
      | duplicate _ => exact Or.inl ⟨rfl, rfl⟩
      | new dstNodes rest sent wired hnew _ _ _ =>
          exact Or.inr ⟨hsent.sublist (List.filter_sublist.map _), hnew, _, rfl, rfl⟩
  | dropped _ hr' => exact absurd hr hr'

/-- One event keeps the bound on the transmissions. -/
theorem Relays.effect {infra : Infrastructure F} {node : Node F} {ev : NodeEvent F}
    {o : Outcome F} {name : Name F} {egresses : List FaceId} {others : ℕ}
    (ht : Relays node name egresses others) (h : Effect infra node ev o) (hgeo : name.IsGeographic)
    (hapart : node.ctx.type = .rsu → node.WiredApart infra)
    (horigin : ∀ now data ingress, ev = .receive now data ingress → ingress.scope = .isLocal →
      data.name = name → ¬ node.ctx.alertStore.isDuplicate name) :
    Relays o.node name (egresses ++ o.egressesOf name)
      (others + if ev.alert.any (· ≠ name) then 1 else 0) := by
  have htype : o.node.ctx.type = node.ctx.type := congrArg Config.type h.config_eq
  by_cases halert : ev.alert = some name
  · have hsame : (ev.alert.any (· ≠ name)) = false := by simp [halert]
    rw [hsame, if_neg Bool.false_ne_true, Nat.add_zero]
    cases ht with
    | vehicle hv hadm =>
        refine .vehicle (htype.trans hv) ?_
        rw [List.length_append]
        obtain ⟨now, data, ingress, rfl, rfl⟩ := NodeEvent.alert_eq_some halert
        cases h.case_of_vehicle hv with
        | geographic hz _ _ hcase =>
            rcases vehicleCase_admission hcase fun hl => horigin _ _ _ rfl hl rfl with
              ⟨hstore, hsent, hle⟩ | ⟨entry, hname, hnew, hstore, hle⟩
            · rw [hstore, hsent]
              exact hadm.mono (Nat.add_le_add_left hle _) le_rfl
            · rw [hstore, ← hname]
              rw [← hname] at hadm hnew hle
              exact (hadm.afterInsert hnew).mono (by omega) le_rfl
        | ignored hno hsent =>
            rcases hno with hno | ⟨_, rfl, _⟩
            · obtain ⟨zor, hz, hgeo⟩ := hgeo
              exact absurd hgeo (hno zor hz)
            · simpa [Outcome.egressesOf] using hadm
    | rsu hr hevents hadm =>
        refine .rsu (htype.trans hr) (h.events_nil (by simp [hr]) hevents) fun e => ?_
        rw [List.count_append]
        rcases h.rsu_admission hr (hapart hr) halert with
          ⟨hnil, hstore⟩ | ⟨hnodup, hnew, entry, rfl, hstore⟩
        · rw [hnil, hstore]
          exact hadm e
        · rw [hstore]
          exact ((hadm e).afterInsert hnew).mono
            (Nat.add_le_add_left (List.nodup_iff_count.mp hnodup e) _) le_rfl
    | other hv hr hevents hnil =>
        refine .other (htype ▸ hv) (htype ▸ hr) (h.events_nil hv hevents) ?_
        cases h with
        | vehicle hv' _ => exact absurd (hv' (by simp [halert])) hv
        | rsu hr' _ _ _ => exact absurd hr' hr
        | dropped _ _ => simp [hnil, Outcome.egressesOf]
  · have hany : (ev.alert.any (· ≠ name)) = ev.alert.isSome := by
      cases hev : ev.alert with
      | none => rfl
      | some other =>
          have : other ≠ name := fun heq => halert (hev.trans (congrArg some heq))
          simpa using this
    rw [hany]
    cases ht with
    | vehicle hv hadm =>
        have hle := h.count_of_ne hgeo halert
        refine .vehicle (htype.trans hv) (h.readmits_of_ne halert (hadm.mono ?_ le_rfl))
        rw [List.length_append]
        omega
    | rsu hr hevents hadm =>
        refine .rsu (htype.trans hr) (h.events_nil (by simp [hr]) hevents) fun e => ?_
        rw [h.egressesOf_eq_nil hgeo halert (by simp [hevents]), List.append_nil]
        exact h.readmits_of_ne halert (hadm e)
    | other hv hr hevents hnil =>
        refine .other (htype ▸ hv) (htype ▸ hr) (h.events_nil hv hevents) ?_
        rw [h.egressesOf_eq_nil hgeo halert (by simp [hevents]), hnil]
        rfl

end Node

namespace Net

/-- The number of steps that bring to a node an alert other than this one. -/
def othersAt (n : NodeId) (name : Name F) (ls : List (Label F)) : ℕ :=
  ls.countP fun l => (Label.event l).any fun e => e.1 = n ∧ e.2.alert.any (· ≠ name)

/-- A run in which every alert is injected once. The stores are of any size. -/
structure Injects (infra : Infrastructure F) (medium : Medium F) (net₀ : Net F)
    (ls : List (Label F)) (net : Net F) : Prop where
  fresh : ∀ n node, net₀.nodes n = some node → node.Fresh
  inFlight : net₀.inFlight = []
  log : net₀.log = []
  once : (injections ls).Nodup
  run : Run (Step infra medium) net₀ ls net

/-- No alert is anywhere before it is injected. -/
structure Emerged (net₀ : Net F) (ls : List (Label F)) (net : Net F) : Prop where
  config : ∀ n, (net.nodes n).map Node.config = (net₀.nodes n).map Node.config
  inFlight : ∀ c ∈ net.inFlight, c.data.name.IsGeographic → c.data.name ∈ injections ls
  stored : ∀ n node, net.nodes n = some node → ∀ name, node.ctx.alertStore.isDuplicate name →
    name ∈ injections ls
  pending : ∀ n node, net.nodes n = some node → ∀ d ∈ node.events, d.data.name ∈ injections ls

theorem Emerged.step {infra : Infrastructure F} {medium : Medium F} {net₀ net net' : Net F}
    {ls : List (Label F)} {l : Label F} (h : Emerged net₀ ls net)
    (hstep : Step infra medium net l net') : Emerged net₀ (ls ++ [l]) net' := by
  have hmono : ∀ name, name ∈ injections ls → name ∈ injections (ls ++ [l]) :=
    fun name hname => mem_injections_snoc.mpr (Or.inl hname)
  cases hstep.change with
  | medium hev hnodes hlog hsub _ =>
      constructor
      · rw [hnodes]
        exact h.config
      · exact fun c hc hgeo => hmono _ (h.inFlight c (hsub c hc) hgeo)
      · rw [hnodes]
        exact fun n node hnode name hd => hmono _ (h.stored n node hnode name hd)
      · rw [hnodes]
        exact fun n node hnode d hd => hmono _ (h.pending n node hnode d hd)
  | node n ev node o rest hev hnode hhandles hsource hsub _ hnet =>
      have heff := hhandles.effect
      have halert : ∀ name, ev.alert = some name → name ∈ injections (ls ++ [l]) := by
        intro name hname
        rcases hsource with ⟨hl, _⟩ | ⟨c, hc, _, _, rfl⟩
        · exact mem_injections_snoc.mpr (Or.inr ((Label.injected_occur hl).trans hname))
        · obtain ⟨_, _, _, heq, rfl⟩ := NodeEvent.alert_eq_some hname
          obtain ⟨_, rfl, _⟩ := NodeEvent.receive.inj heq
          exact hmono _ (h.inFlight c hc (NodeEvent.alert_geographic hname))
      subst hnet
      constructor
      · intro m
        by_cases hm : m = n
        · subst hm
          rw [react_nodes_self, ← h.config, hnode]
          exact congrArg some heff.config_eq
        · rw [react_nodes_of_ne hm]
          exact h.config m
      · intro c hc hgeo
        rcases react_inFlight_log hc with hc | ⟨out, hout, _, _, _, hdata⟩
        · exact hmono _ (h.inFlight c (hsub c hc) hgeo)
        · rw [hdata] at hgeo ⊢
          rcases heff.sent out hout hgeo with hname | ⟨d, hd, _, hname⟩
          · exact halert _ hname
          · exact hname ▸ hmono _ (h.pending n node hnode d hd)
      · intro m node' hnode' name hd
        rcases react_nodes_cases hnode' with ⟨rfl, rfl⟩ | ⟨_, hnode'⟩
        · rcases heff.store with hsame | ⟨entry, hentry, hins⟩
          · exact hmono _ (h.stored m node hnode name (hsame ▸ hd))
          · rw [hins] at hd
            obtain ⟨e, he, rfl⟩ := List.mem_map.mp hd
            rcases AlertStore.mem_insertOrUpdate he with he | ⟨rfl, _⟩
            · exact hmono _ (h.stored m node hnode _ (List.mem_map.mpr ⟨e, he, rfl⟩))
            · exact halert _ hentry
        · exact hmono _ (h.stored m node' hnode' name hd)
      · intro m node' hnode' d hd
        rcases react_nodes_cases hnode' with ⟨rfl, rfl⟩ | ⟨_, hnode'⟩
        · rcases heff.events d hd with hd | hname
          · exact hmono _ (h.pending m node hnode d hd)
          · exact halert _ hname
        · exact hmono _ (h.pending m node' hnode' d hd)

theorem Emerged.first_injection {net₀ net : Net F} {ls : List (Label F)} {l : Label F}
    (h : Emerged net₀ ls net) {n : NodeId} {node : Node F} (hnode : net.nodes n = some node)
    {now : ℕ} {data : Data F} {ingress : NfdFace}
    (hsource : net.Source l n (.receive now data ingress))
    (honce : (injections (ls ++ [l])).Nodup) (hgeo : data.name.IsGeographic)
    (hlocal : ingress.scope = .isLocal) : ¬ node.ctx.alertStore.isDuplicate data.name := by
  intro hdup
  rcases hsource with ⟨hl, _⟩ | ⟨c, _, _, _, heq⟩
  · have hinj : Label.injected l = some data.name := by
      obtain ⟨zor, hz, hzgeo⟩ := hgeo
      rw [Label.injected_occur hl]
      exact NodeEvent.alert_receive now ingress hz hzgeo
    have hmem := h.stored n node hnode _ hdup
    rw [injections_append, List.nodup_append] at honce
    exact honce.2.2 _ hmem _ (by simp [injections, hinj]) rfl
  · obtain ⟨_, _, rfl⟩ := NodeEvent.receive.inj heq
    cases hlocal

theorem Injects.of_prefix {infra : Infrastructure F} {medium : Medium F} {net₀ net mid : Net F}
    {ls pre post : List (Label F)} (h : Injects infra medium net₀ ls net) (heq : ls = pre ++ post)
    (hrun : Run (Step infra medium) net₀ pre mid) : Injects infra medium net₀ pre mid where
  fresh := h.fresh
  inFlight := h.inFlight
  log := h.log
  once := by
    have honce := h.once
    rw [heq, injections_append] at honce
    exact (List.nodup_append.mp honce).1
  run := hrun

theorem Injects.emerged {infra : Infrastructure F} {medium : Medium F} {net₀ net : Net F}
    {ls : List (Label F)} (h : Injects infra medium net₀ ls net) : Emerged net₀ ls net := by
  apply h.run.invariant (Emerged net₀)
  · exact ⟨fun _ => rfl, by simp [h.inFlight],
      fun n node hnode name hd => absurd hd ((h.fresh n node hnode).not_isDuplicate name),
      fun n node hnode d hd => by simp [(h.fresh n node hnode).events] at hd⟩
  · intro ms t l v rest _ _ ht hstep
    exact ht.step hstep

/-- The nodes keep the bound on their transmissions of an alert. -/
def Relayed (name : Name F) (ls : List (Label F)) (net : Net F) : Prop :=
  ∀ n node, net.nodes n = some node → node.Relays name (net.egressesOf n name) (othersAt n name ls)

theorem othersAt_snoc (n : NodeId) (name : Name F) (ls : List (Label F)) (l : Label F) :
    othersAt n name (ls ++ [l]) = othersAt n name ls +
      if (Label.event l).any fun e => e.1 = n ∧ e.2.alert.any (· ≠ name) then 1 else 0 := by
  rw [othersAt, othersAt, List.countP_append, List.countP_singleton]

theorem Relayed.step {infra : Infrastructure F} {medium : Medium F} {net₀ net net' : Net F}
    {name : Name F} {ls : List (Label F)} {l : Label F} (h : Relayed name ls net)
    (hemerged : Emerged net₀ ls net) (hgeo : name.IsGeographic)
    (hapart : ∀ n node, net₀.nodes n = some node → node.ctx.type = .rsu → node.WiredApart infra)
    (honce : (injections (ls ++ [l])).Nodup) (hstep : Step infra medium net l net') :
    Relayed name (ls ++ [l]) net' := by
  cases hstep.change with
  | medium hev hnodes hlog hsub _ =>
      intro n node hnode
      rw [hnodes] at hnode
      rw [othersAt_snoc, hev, egressesOf, hlog]
      exact h n node hnode
  | node n ev node o rest hev hnode hhandles hsource hsub _ hnet =>
      subst hnet
      intro m node' hnode'
      rw [othersAt_snoc, hev]
      rcases react_nodes_cases hnode' with ⟨rfl, rfl⟩ | ⟨hm, hnode'⟩
      · have hwired : node.ctx.type = .rsu → node.WiredApart infra := by
          intro hr
          have hconfig := hemerged.config m
          rw [hnode] at hconfig
          obtain ⟨node₀, hnode₀, heq⟩ := Option.map_eq_some_iff.mp hconfig.symm
          have htype : node₀.ctx.type = node.ctx.type := congrArg Node.Config.type heq
          exact (hapart m node₀ hnode₀ (htype.trans hr)).congr heq.symm
        have hkeep := (h m node hnode).effect hhandles.effect hgeo hwired (by
          rintro now data ingress rfl hlocal rfl
          exact hemerged.first_injection hnode hsource honce hgeo hlocal)
        rw [egressesOf_react_self]
        simpa using hkeep
      · rw [egressesOf_react_of_ne hm]
        simpa [Ne.symm hm] using h m node' hnode'

theorem Injects.relayed {infra : Infrastructure F} {medium : Medium F} {net₀ net : Net F}
    {ls : List (Label F)} (h : Injects infra medium net₀ ls net) {name : Name F}
    (hgeo : name.IsGeographic)
    (hapart : ∀ n node, net₀.nodes n = some node → node.ctx.type = .rsu → node.WiredApart infra) :
    Relayed name ls net := by
  apply h.run.invariant (Relayed name)
  · intro n node hnode
    rw [egressesOf, h.log]
    exact (h.fresh n node hnode).relays name
  · intro ms t l v rest heq hrun ht hstep
    have hpre := h.of_prefix heq hrun
    have honce := (h.of_prefix (heq.trans (List.append_cons ms l rest)) (hrun.snoc hstep)).once
    exact ht.step hpre.emerged hgeo hapart honce hstep

end Net

/-- With stores of any size, a vehicle transmits an alert once, and once more for
every `maxSize` other alerts that reach it. For an RSU this holds on each of its faces. -/
theorem transmits_once_per_eviction {infra : Infrastructure F} {medium : Medium F}
    {net₀ net : Net F} {ls : List (Net.Label F)} (h : Net.Injects infra medium net₀ ls net)
    (hapart : ∀ n node, net₀.nodes n = some node → node.ctx.type = .rsu → node.WiredApart infra)
    {name : Name F} (hgeo : name.IsGeographic) {n : NodeId} {node₀ : Node F}
    (hnode₀ : net₀.nodes n = some node₀) (hsize : 0 < node₀.ctx.alertStore.maxSize) :
    (node₀.ctx.type = .vehicle → (net.egressesOf n name).length ≤
      Net.othersAt n name ls / node₀.ctx.alertStore.maxSize + 1) ∧
    (node₀.ctx.type = .rsu → ∀ e, (net.egressesOf n name).count e ≤
      Net.othersAt n name ls / node₀.ctx.alertStore.maxSize + 1) := by
  have hconfig := h.emerged.config n
  rw [hnode₀] at hconfig
  obtain ⟨node, hnode, heq⟩ := Option.map_eq_some_iff.mp hconfig
  have htype : node.ctx.type = node₀.ctx.type := congrArg Node.Config.type heq
  have hmax : node.ctx.alertStore.maxSize = node₀.ctx.alertStore.maxSize :=
    congrArg Node.Config.maxSize heq
  have hbound : ∀ {uses : ℕ}, node.ctx.alertStore.Readmits name uses (Net.othersAt n name ls) →
      uses ≤ Net.othersAt n name ls / node₀.ctx.alertStore.maxSize + 1 := by
    intro uses hread
    have hle := hread.retained.admissions_le
    rw [hmax] at hle
    rw [← Nat.add_div_right _ hsize, Nat.le_div_iff_mul_le hsize]
    exact hle
  cases h.relayed hgeo hapart n node hnode with
  | vehicle hv hadm =>
      refine ⟨fun _ => hbound (hadm.mono (Nat.le_add_right _ _) le_rfl), fun hr => ?_⟩
      simp [htype.symm.trans hv] at hr
  | rsu hr _ hadm =>
      refine ⟨fun hv => ?_, fun _ e => hbound (hadm e)⟩
      simp [htype.symm.trans hr] at hv
  | other hv hr _ _ =>
      exact ⟨fun hv' => absurd (htype.trans hv') hv, fun hr' => absurd (htype.trans hr') hr⟩

/-! ## A store for one alert

A vehicle hears an alert twice. In between it creates one itself, for which its store
forgets the first. -/

namespace Forgotten

noncomputable def vehicle : Node ℝ :=
  { Pair.vehicle 1 ⟨1, 0⟩ with
    ctx := { (Pair.vehicle 1 ⟨1, 0⟩).ctx with alertStore := Evicted.start.ctx.alertStore } }

noncomputable def net : Net ℝ where
  now := 0
  nodes n := if n = 0 then some (Pair.vehicle 0 ⟨0, 0⟩) else if n = 1 then some vehicle else none
  inFlight := []
  log := []

theorem net_nodes {n : NodeId} {node : Node ℝ} (h : net.nodes n = some node) :
    node = Pair.vehicle 0 ⟨0, 0⟩ ∨ node = vehicle := by
  simp only [net] at h
  split at h
  · exact Or.inl (Option.some.inj h).symm
  · split at h
    · exact Or.inr (Option.some.inj h).symm
    · cases h

/-- The alert of the vehicle. -/
def other : Data ℝ := ⟨[.generic [98], .zor Pair.zone], 100, none, none, none, 0⟩

/-- The first alert as it is heard. -/
def heard : Data ℝ := { Pair.alert with senderType := some .vehicle, senderPos := some ⟨0, 0⟩ }

def copy : Copy ℝ := ⟨1, 1, heard, 0⟩

def labels : List (Net.Label ℝ) :=
  [(0, .occur 0 (.receive 0 Pair.alert ⟨2, .isLocal⟩)), (0, .duplicate copy), (1, .deliver copy),
    (2, .occur 1 (.receive 2 other ⟨2, .isLocal⟩)), (3, .occur 1 (.expire 0)), (4, .deliver copy),
    (5, .occur 1 (.expire 1))]

/-- The alert is scheduled. -/
noncomputable def scheduled (node : Node ℝ) (now : ℕ) : Node ℝ :=
  (node.insertAlert ⟨Pair.alert.name, .vehicle, ⟨0, 0⟩⟩).schedule
    (now + deferDelay node.ctx 100 (Point.distanceFromPoint ⟨1, 0⟩ ⟨0, 0⟩)) heard 1

theorem handles_heard {node : Node ℝ} {now : ℕ} (hv : node.ctx.type = .vehicle)
    (hm : node.mobility = some ⟨1, 0⟩)
    (hnew : ¬ node.ctx.alertStore.isDuplicate Pair.alert.name)
    (hrelay : relayOn node heard ⟨1, .nonLocal⟩ .vehicle = (some ⟨1, .nonLocal⟩, heard)) :
    node.Handles ⟨∅, ∅⟩ (.receive now heard ⟨1, .nonLocal⟩)
      ⟨scheduled node now, [], Pair.zone.contains ⟨1, 0⟩⟩ := by
  have hz : extractZoR heard.name = some Pair.zone := rfl
  apply Node.handles_case hv hz trivial hm (by simp [heard])
  exact .deferred ⟨0, 0⟩ ⟨1, .nonLocal⟩ heard rfl hnew (fun h => h.1 Pair.zone_contains) hrelay

/-- The vehicle after its own alert. -/
noncomputable def busy : Node ℝ :=
  (scheduled vehicle 1).insertAlert ⟨other.name, .vehicle, ⟨1, 0⟩⟩

theorem busy_names : busy.ctx.alertStore.names = [other.name] := by
  have hfirst : (scheduled vehicle 1).ctx.alertStore.order =
      [⟨Pair.alert.name, .vehicle, ⟨0, 0⟩⟩] :=
    AlertStore.insertOrUpdate_order (List.not_mem_nil : Pair.alert.name ∉ ([] : List (Name ℝ)))
      Nat.one_pos
  have hnew : ¬ (scheduled vehicle 1).ctx.alertStore.isDuplicate other.name := by
    rw [AlertStore.isDuplicate, AlertStore.names, hfirst]
    simp [other, Pair.alert]
  have hsecond : busy.ctx.alertStore.order =
      (⟨other.name, .vehicle, ⟨1, 0⟩⟩ :: (scheduled vehicle 1).ctx.alertStore.order).dropLast :=
    AlertStore.insertOrUpdate_order_full hnew (by rw [hfirst]; exact le_rfl)
  rw [AlertStore.names, hsecond, hfirst]
  rfl

/-- After its first relay. -/
noncomputable def relayed : Node ℝ :=
  { busy with
    ctx := { busy.ctx with registry := busy.ctx.registry.complete Pair.alert.name }
    events := [] }

noncomputable def creates (node : Node ℝ) (data : Data ℝ) (pos : Point ℝ) : Outcome ℝ :=
  ⟨node.insertAlert ⟨data.name, .vehicle, pos⟩, [node.onOutgoingAlert data 1],
    Pair.zone.contains pos⟩

noncomputable def net₁ : Net ℝ :=
  net.react Pair.medium 0 0 false (creates (Pair.vehicle 0 ⟨0, 0⟩) Pair.alert ⟨0, 0⟩) []

noncomputable def net₂ : Net ℝ := { net₁ with now := 0, inFlight := net₁.inFlight ++ [copy] }

noncomputable def net₃ : Net ℝ :=
  net₂.react Pair.medium 1 1 false ⟨scheduled vehicle 1, [], Pair.zone.contains ⟨1, 0⟩⟩
    ([] ++ [copy])

noncomputable def net₄ : Net ℝ :=
  net₃.react Pair.medium 2 1 false (creates (scheduled vehicle 1) other ⟨1, 0⟩) net₃.inFlight

noncomputable def net₅ : Net ℝ :=
  net₄.react Pair.medium 3 1 true ⟨relayed, [busy.onOutgoingAlert heard 1], false⟩ net₄.inFlight

noncomputable def net₆ : Net ℝ :=
  net₅.react Pair.medium 4 1 false ⟨scheduled relayed 4, [], Pair.zone.contains ⟨1, 0⟩⟩
    ([] ++ net₅.inFlight.tail)

theorem run : ∃ net', Run (Net.Step ⟨∅, ∅⟩ Pair.medium) net labels net' ∧
    net'.log.map (fun tx => (tx.sender, tx.data.name)) =
      [(0, Pair.alert.name), (1, other.name), (1, Pair.alert.name), (1, Pair.alert.name)] := by
  have hz : extractZoR Pair.alert.name = some Pair.zone := rfl
  have hz' : extractZoR other.name = some Pair.zone := rfl
  have s₁ : Net.Step ⟨∅, ∅⟩ Pair.medium net (0, .occur 0 (.receive 0 Pair.alert ⟨2, .isLocal⟩))
      net₁ := .occur ⟨rfl, rfl, rfl, rfl⟩ rfl (Node.handles_origin rfl hz trivial rfl rfl rfl rfl)
  have s₂ : Net.Step ⟨∅, ∅⟩ Pair.medium net₁ (0, .duplicate copy) net₂ :=
    .duplicate (List.mem_singleton_self copy)
  have s₃ : Net.Step ⟨∅, ∅⟩ Pair.medium net₂ (1, .deliver copy) net₃ :=
    .deliver (List.nil_append [copy, copy]).symm rfl
      (handles_heard rfl rfl List.not_mem_nil rfl)
  have s₄ : Net.Step ⟨∅, ∅⟩ Pair.medium net₃ (2, .occur 1 (.receive 2 other ⟨2, .isLocal⟩))
      net₄ := .occur ⟨rfl, rfl, rfl, rfl⟩ rfl (Node.handles_origin rfl hz' trivial rfl rfl rfl rfl)
  have s₅ : Net.Step ⟨∅, ∅⟩ Pair.medium net₄ (3, .occur 1 (.expire 0)) net₅ :=
    .occur trivial rfl ⟨0, rfl⟩
  have hnew : ¬ relayed.ctx.alertStore.isDuplicate Pair.alert.name := by
    rw [AlertStore.isDuplicate]
    change Pair.alert.name ∉ busy.ctx.alertStore.names
    rw [busy_names]
    simp [other, Pair.alert]
  have s₆ : Net.Step ⟨∅, ∅⟩ Pair.medium net₅ (4, .deliver copy) net₆ :=
    .deliver (List.nil_append (copy :: _)).symm rfl (handles_heard rfl rfl hnew rfl)
  have s₇ : Net.Step ⟨∅, ∅⟩ Pair.medium net₆ (5, .occur 1 (.expire 1)) _ :=
    .occur trivial rfl ⟨0, rfl⟩
  exact ⟨_, ((((((Run.nil.snoc s₁).snoc s₂).snoc s₃).snoc s₄).snoc s₅).snoc s₆).snoc s₇, rfl⟩

end Forgotten

/-- The vehicle relays the alert twice, which is the most for one other alert. -/
theorem transmits_once_per_eviction_forgotten : ∃ net,
    Net.Injects ⟨∅, ∅⟩ Pair.medium Forgotten.net Forgotten.labels net ∧
    (net.egressesOf 1 Pair.alert.name).length = 2 ∧
    Net.othersAt 1 Pair.alert.name Forgotten.labels = 1 ∧
    (net.egressesOf 1 Pair.alert.name).length ≤
      Net.othersAt 1 Pair.alert.name Forgotten.labels / 1 + 1 := by
  obtain ⟨net, hrun, hlog⟩ := Forgotten.run
  have hfresh : ∀ n node, Forgotten.net.nodes n = some node →
      node.Fresh ∧ node.ctx.type = .vehicle := by
    intro n node hnode
    rcases Forgotten.net_nodes hnode with rfl | rfl <;> exact ⟨⟨rfl, rfl, rfl⟩, rfl⟩
  have hne : Forgotten.other.name ≠ Pair.alert.name := by simp [Forgotten.other, Pair.alert]
  have honce : Net.injections Forgotten.labels = [Pair.alert.name, Forgotten.other.name] := rfl
  have h : Net.Injects ⟨∅, ∅⟩ Pair.medium Forgotten.net Forgotten.labels net :=
    ⟨fun n node hnode => (hfresh n node hnode).1, rfl, rfl, by simp [honce, hne.symm], hrun⟩
  have hapart : ∀ n node, Forgotten.net.nodes n = some node → node.ctx.type = .rsu →
      node.WiredApart ⟨∅, ∅⟩ := by
    intro n node hnode hr
    simp [(hfresh n node hnode).2] at hr
  refine ⟨net, h, ?_, ?_, ?_⟩
  · have hcount : (net.log.map fun tx => (tx.sender, tx.data.name)).countP
        (fun e => e.1 = 1 ∧ e.2 = Pair.alert.name) = 2 := by
      rw [hlog]
      simp [hne]
    rw [List.countP_map, List.countP_eq_length_filter] at hcount
    exact (List.length_map _).trans hcount
  · have hheard : ∀ t, (NodeEvent.receive t Forgotten.heard ⟨1, .nonLocal⟩).alert =
        some Pair.alert.name := fun _ => rfl
    have hother : (NodeEvent.receive 2 Forgotten.other ⟨2, .isLocal⟩).alert =
        some Forgotten.other.name := rfl
    have hexpire : ∀ id, (NodeEvent.expire id : NodeEvent ℝ).alert = none := fun _ => rfl
    simp [Net.othersAt, Forgotten.labels, Net.Label.event, Forgotten.copy, hheard, hother, hexpire,
      hne]
  · exact (transmits_once_per_eviction h hapart ⟨Pair.zone, rfl, trivial⟩ (n := 1) rfl
      (by decide)).1 rfl

end Cafe
