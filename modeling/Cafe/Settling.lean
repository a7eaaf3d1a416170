import Cafe.Flood
import Cafe.Readmission

/-!
# How long an alert lives

A copy in flight arrives after the latency of the medium, and a relay is deferred for
at most the delay at distance zero. Each of these periods brings the alert to a node
that has not stored it yet, or ends its life.
-/

open Labelled

namespace Cafe

theorem eq_of_nodup_filterMap {α β : Type*} {f : α → Option β} {x y : α} {b : β} :
    ∀ {l : List α}, (l.filterMap f).Nodup → x ∈ l → y ∈ l → f x = some b → f y = some b → x = y
  | a :: l, hnodup, hx, hy, hfx, hfy => by
      have htail : (l.filterMap f).Nodup :=
        hnodup.sublist ((List.sublist_cons_self a l).filterMap f)
      have hhead : f a = some b → ∀ z ∈ l, f z ≠ some b := by
        intro hfa z hz hfz
        rw [List.filterMap_cons_some hfa] at hnodup
        exact (List.nodup_cons.mp hnodup).1 (List.mem_filterMap.mpr ⟨z, hz, hfz⟩)
      rcases List.mem_cons.mp hx with rfl | hxl
      · rcases List.mem_cons.mp hy with rfl | hyl
        · rfl
        · exact absurd hfy (hhead hfx y hyl)
      · rcases List.mem_cons.mp hy with rfl | hyl
        · exact absurd hfx (hhead hfy x hxl)
        · exact eq_of_nodup_filterMap htail hxl hyl hfx hfy

/-- No relay is deferred for longer than one that was heard at distance zero. -/
theorem deferDelay_le_zero (ctx : Context ℝ) (size : ℕ) (dist : ℝ) :
    deferDelay ctx size dist ≤ deferDelay ctx size 0 := by
  have hclamp : stdClamp (1 - dist / ctx.txRadius) 0 1 ≤ 1 := by
    unfold stdClamp
    split
    · exact zero_le_one
    · split
      · exact le_rfl
      · linarith
  have hpos : 0 ≤ stdClamp (1 - dist / ctx.txRadius) 0 1 := by
    unfold stdClamp
    split
    · exact le_rfl
    · split
      · exact zero_le_one
      · linarith
  have hzero : stdClamp (1 - 0 / ctx.txRadius) 0 1 = 1 := by
    simp [stdClamp]
  unfold deferDelay
  simp only [Arith.trunc, Arith.lit, hzero]
  generalize hA : ((2 : ℚ) : ℝ) * _ = A
  rcases le_total 0 A with hA | hA
  · refine Nat.floor_le_floor ?_
    have : A * stdClamp (1 - dist / ctx.txRadius) 0 1 ≤ A * 1 := by gcongr
    push_cast
    linarith
  · have hneg : A * stdClamp (1 - dist / ctx.txRadius) 0 1 ≤ 0 :=
      mul_nonpos_of_nonpos_of_nonneg hA hpos
    rw [Nat.floor_of_nonpos]
    · exact Nat.zero_le _
    · push_cast
      linarith

namespace Node

variable {F : Type} [Arith F]

/-- A relay is deferred for an alert that enters the store. -/
theorem Effect.deferred {infra : Infrastructure F} {node : Node F} {ev : NodeEvent F}
    {o : Outcome F} (h : Effect infra node ev o) : ∀ d ∈ o.node.events, d ∈ node.events ∨
      ∃ now data ingress dist, ev = .receive now data ingress ∧ data.senderPos ≠ none ∧
        ev.alert = some data.name ∧ d.data.name = data.name ∧ d.data.size = data.size ∧
        d.due = now + deferDelay node.ctx data.size dist ∧
        ¬ node.ctx.alertStore.isDuplicate data.name ∧ ∃ entry : AlertStore.Entry F,
          entry.name = data.name ∧
            o.node.ctx.alertStore = node.ctx.alertStore.insertOrUpdate entry := by
  intro d hd
  cases h with
  | vehicle _ hc =>
      cases hc with
      | geographic hz hgeo _ hcase =>
          cases hcase with
          | cancelled _ _ _ hreg _ =>
              obtain ⟨id, hid⟩ := Option.isSome_iff_exists.mp (AList.lookup_isSome.mpr hreg)
              rw [drop_node, (cancel_of_lookup hid).2] at hd
              exact Or.inl (List.mem_filter.mp hd).1
          | deferred senderPos _ _ hpos hnew _ hface =>
              rw [schedule_events, List.mem_append, List.mem_singleton] at hd
              rcases hd with hd | rfl
              · exact Or.inl hd
              · exact Or.inr ⟨_, _, _, _, rfl, by simp [hpos], NodeEvent.alert_receive _ _ hz hgeo,
                  (relayOn_data hface).1, relayOn_size hface, rfl, hnew, _, rfl, rfl⟩
          | _ => exact Or.inl hd
      | fired _ => exact Or.inl (List.mem_filter.mp hd).1
      | _ => exact Or.inl hd
  | rsu _ _ _ hc => cases hc <;> exact Or.inl hd
  | dropped _ _ => exact Or.inl hd

/-- What a node transmits upon the arrival of an alert enters the store. -/
theorem Effect.sent_admitted {infra : Infrastructure F} {node : Node F} {ev : NodeEvent F}
    {o : Outcome F} {name : Name F} (h : Effect infra node ev o) (halert : ev.alert = some name)
    (horigin : ∀ now data ingress, ev = .receive now data ingress → ingress.scope = .isLocal →
      data.name = name → ¬ node.ctx.alertStore.isDuplicate name) {out : Outgoing F}
    (hout : out ∈ o.sent) (hname : out.data.name = name) :
    ¬ node.ctx.alertStore.isDuplicate name ∧ ∃ entry : AlertStore.Entry F, entry.name = name ∧
      o.node.ctx.alertStore = node.ctx.alertStore.insertOrUpdate entry := by
  have hmem : out.egress ∈ o.egressesOf name :=
    List.mem_map.mpr ⟨out, List.mem_filter.mpr ⟨hout, by simpa using hname⟩, rfl⟩
  obtain ⟨now, data, ingress, rfl, rfl⟩ := NodeEvent.alert_eq_some halert
  cases h with
  | vehicle _ hc =>
      cases hc with
      | geographic hz _ _ hcase =>
          rcases vehicleCase_admission hcase fun hl => horigin _ _ _ rfl hl rfl with
            ⟨_, hsent, _⟩ | ⟨entry, hentry, hnew, hstore, _⟩
          · simp [hsent] at hmem
          · exact ⟨hnew, entry, hentry, hstore⟩
      | ignored hno hsent =>
          obtain ⟨zor, hz, hgeo⟩ := NodeEvent.alert_geographic halert
          rcases hno with hno | ⟨_, rfl, _⟩
          · exact absurd hgeo (hno zor hz)
          · cases hout
  | rsu _ _ _ hc =>
      cases hc with
      | duplicate _ => cases hout
      | new dstNodes rest sent wired hnew _ _ _ => exact ⟨hnew, _, rfl, rfl⟩
  | dropped _ _ => cases hout

end Node

namespace Net

variable {F : Type} [Arith F]

/-- The nodes that have stored an alert. -/
def holders (net : Net F) (ids : Finset NodeId) (name : Name F) : Finset NodeId :=
  ids.filter fun n => (net.nodes n).any fun node => node.ctx.alertStore.isDuplicate name

theorem mem_holders {net : Net F} {ids : Finset NodeId} {name : Name F} {n : NodeId} :
    n ∈ net.holders ids name ↔
      n ∈ ids ∧ ∃ node, net.nodes n = some node ∧ node.ctx.alertStore.isDuplicate name := by
  rw [holders, Finset.mem_filter, Option.any_eq_true]
  simp only [decide_eq_true_eq]

/-- Nothing is late. The life of an alert ends within the periods of its holders. -/
structure Windowed (latency period t₀ : ℕ) (ids : Finset NodeId) (data : Data F) (net : Net F) :
    Prop where
  copies : ∀ c ∈ net.inFlight, net.now ≤ c.sentAt + latency
  timers : ∀ n node, net.nodes n = some node → ∀ d ∈ node.events, net.now ≤ d.due
  copyWindow : ∀ c ∈ net.inFlight, c.data.name = data.name → c.data.size = data.size ∧
    c.sentAt + period ≤ t₀ + (net.holders ids data.name).card * period
  timerWindow : ∀ n node, net.nodes n = some node → ∀ d ∈ node.events, d.data.name = data.name →
    d.data.size = data.size ∧ d.due + period ≤ t₀ + (net.holders ids data.name).card * period

/-- An alert that enters the store of a node makes it a holder. -/
theorem holders_react {medium : Medium F} {net : Net F} {t : ℕ} {n : NodeId} {deferred : Bool}
    {o : Outcome F} {rest : List (Copy F)} {node : Node F} (hnode : net.nodes n = some node)
    {ids : Finset NodeId} {name : Name F}
    (hmono : node.ctx.alertStore.isDuplicate name → o.node.ctx.alertStore.isDuplicate name) :
    net.holders ids name ⊆ (net.react medium t n deferred o rest).holders ids name := by
  intro m hm
  obtain ⟨hids, node', hnode', hdup⟩ := mem_holders.mp hm
  by_cases hmn : m = n
  · subst hmn
    obtain rfl := Option.some.inj (hnode.symm.trans hnode')
    exact mem_holders.mpr ⟨hids, o.node, react_nodes_self, hmono hdup⟩
  · exact mem_holders.mpr ⟨hids, node', (react_nodes_of_ne hmn).trans hnode', hdup⟩

theorem card_holders_react {medium : Medium F} {net : Net F} {t : ℕ} {n : NodeId} {deferred : Bool}
    {o : Outcome F} {rest : List (Copy F)} {node : Node F} (hnode : net.nodes n = some node)
    {ids : Finset NodeId} (hids : n ∈ ids) {name : Name F}
    (hnew : ¬ node.ctx.alertStore.isDuplicate name)
    (hstored : o.node.ctx.alertStore.isDuplicate name) :
    (net.holders ids name).card + 1 ≤
      ((net.react medium t n deferred o rest).holders ids name).card := by
  have hsub : net.holders ids name ⊆ (net.react medium t n deferred o rest).holders ids name :=
    holders_react hnode fun hd => absurd hd hnew
  refine Finset.card_lt_card ⟨hsub, fun hback => hnew ?_⟩
  have hmem : n ∈ (net.react medium t n deferred o rest).holders ids name :=
    mem_holders.mpr ⟨hids, o.node, react_nodes_self, hstored⟩
  obtain ⟨_, node', hnode', hdup⟩ := mem_holders.mp (hback hmem)
  obtain rfl := Option.some.inj (hnode.symm.trans hnode')
  exact hdup

theorem Step.now_eq {infra : Infrastructure F} {medium : Medium F} {net net' : Net F} {l : Label F}
    (h : Step infra medium net l net') : net'.now = l.1 := by
  cases h <;> rfl

theorem Step.deliver_mem {infra : Infrastructure F} {medium : Medium F} {net net' : Net F}
    {l : Label F} (h : Step infra medium net l net') {c : Copy F} (hl : l.2 = .deliver c) :
    c ∈ net.inFlight := by
  cases h with
  | deliver hflight _ _ =>
      obtain rfl := Action.deliver.inj hl
      simp [hflight]
  | _ => cases hl

/-- The instant at which an event brings an alert to a node. -/
theorem Punctual.receive_now {latency : ℕ} {net : Net F} {l : Label F} (h : Punctual latency net l)
    {n : NodeId} {now : ℕ} {data : Data F} {ingress : NfdFace}
    (hsource : net.Source l n (.receive now data ingress)) : now = l.1 := by
  rcases hsource with ⟨hl, _⟩ | ⟨c, _, _, _, heq⟩
  · exact h.clock n now data ingress hl
  · exact (NodeEvent.receive.inj heq).1

/-- When an alert arrives at a node, it was injected or a holder transmitted it. -/
theorem Windowed.arrival {latency period t₀ : ℕ} {ids : Finset NodeId} {data : Data F}
    {net : Net F} {l : Label F} (h : Windowed latency period t₀ ids data net)
    (hpunctual : Punctual latency net l) (hlatency : latency ≤ period)
    (hinj : ∀ n now d ingress, l.2 = .occur n (.receive now d ingress) → d.name = data.name →
      l.1 = t₀ ∧ d.size = data.size) {n : NodeId} {now : ℕ} {d : Data F} {ingress : NfdFace}
    (hsource : net.Source l n (.receive now d ingress)) (hname : d.name = data.name) :
    d.size = data.size ∧ l.1 ≤ t₀ + (net.holders ids data.name).card * period ∧
      (d.senderPos ≠ none →
        l.1 + period ≤ t₀ + (net.holders ids data.name).card * period + latency) := by
  rcases hsource with ⟨hl, hlocal⟩ | ⟨c, hc, hl, _, heq⟩
  · obtain ⟨ht, hsize⟩ := hinj n now d ingress hl hname
    exact ⟨hsize, by omega, fun hpos => absurd hlocal.2.2.1 hpos⟩
  · obtain ⟨_, rfl, _⟩ := NodeEvent.receive.inj heq
    obtain ⟨hsize, hsent⟩ := h.copyWindow c hc hname
    have ht := hpunctual.delivery c hl
    exact ⟨hsize, by omega, fun _ => by omega⟩

theorem Windowed.step {infra : Infrastructure F} {medium : Medium F}
    {names : NodeId → Finset (Name F)} {net₀ net net' : Net F} {ls : List (Label F)} {l : Label F}
    {latency delay t₀ : ℕ} {ids : Finset NodeId} {data : Data F}
    (h : Windowed latency (latency + delay) t₀ ids data net)
    (hcounted : Counted infra names net₀ ls net) (hgeo : data.name.IsGeographic)
    (hseen : ∀ n ev name, Label.event l = some (n, ev) → ev.alert = some name → name ∈ names n)
    (honce : (injections (ls ++ [l])).Nodup)
    (hinj : ∀ n now d ingress, l.2 = .occur n (.receive now d ingress) → d.name = data.name →
      l.1 = t₀ ∧ d.size = data.size)
    (hids : ∀ n, (net₀.nodes n).isSome → n ∈ ids)
    (hdelay : ∀ n node dist, net.nodes n = some node →
      deferDelay node.ctx data.size dist ≤ delay)
    (hstep : TimedStep infra medium latency net l net') :
    Windowed latency (latency + delay) t₀ ids data net' := by
  obtain ⟨hstep, hpunctual⟩ := hstep
  have hnow := hstep.now_eq
  cases hstep.change with
  | medium hev hnodes hlog hsub _ =>
      have hholders : net'.holders ids data.name = net.holders ids data.name := by
        rw [holders, holders, hnodes]
      constructor
      · exact fun c hc => hnow ▸ hpunctual.copies c (hsub c hc)
      · rw [hnodes, hnow]
        exact hpunctual.timers
      · rw [hholders]
        exact fun c hc => h.copyWindow c (hsub c hc)
      · rw [hnodes, hholders]
        exact h.timerWindow
  | node n ev node o rest hev hnode hhandles hsource hsub _ hnet =>
      have heff := hhandles.effect
      have hmem : n ∈ ids := by
        obtain ⟨node₀, hnode₀, _⟩ := hcounted.initial hnode
        exact hids n (by simp [hnode₀])
      obtain ⟨_, hmono, _⟩ := heff.room (hcounted.room n node hnode)
        fun name hname => hseen n ev name hev hname
      have hgrow : (net.holders ids data.name).card * (latency + delay) ≤
          (net'.holders ids data.name).card * (latency + delay) := by
        refine Nat.mul_le_mul_right _ (Finset.card_le_card ?_)
        rw [hnet]
        exact holders_react hnode (hmono data.name)
      have hadmit : ev.alert = some data.name → ¬ node.ctx.alertStore.isDuplicate data.name →
          (∃ entry : AlertStore.Entry F, entry.name = data.name ∧
            o.node.ctx.alertStore = node.ctx.alertStore.insertOrUpdate entry) →
          (net.holders ids data.name).card * (latency + delay) + (latency + delay) ≤
            (net'.holders ids data.name).card * (latency + delay) := by
        rintro halert hnew ⟨entry, hentry, hins⟩
        rw [← Nat.succ_mul, hnet]
        refine Nat.mul_le_mul_right _ (card_holders_react hnode hmem hnew ?_)
        have hroom := (hcounted.room n node hnode).insertOrUpdate entry
          (hentry ▸ hseen n ev _ hev halert)
        rw [hins]
        exact (hroom.2 _).mpr (Or.inl hentry.symm)
      have hcopy : ∀ c ∈ net'.inFlight, c ∈ net.inFlight ∨ ∃ out ∈ o.sent, c.sentAt = l.1 ∧
          c.data.name = out.data.name ∧ c.data.size = out.data.size := by
        intro c hc
        rw [hnet] at hc
        rcases mem_react_inFlight.mp hc with hc | ⟨i, out, hout, _, hdata, ht⟩
        · exact Or.inl (hsub c hc)
        · exact Or.inr ⟨out, List.mem_of_getElem? hout, ht, by rw [hdata], by rw [hdata]⟩
      have hnode' : ∀ m node', net'.nodes m = some node' → ∀ d ∈ node'.events,
          (∃ node, net.nodes m = some node ∧ d ∈ node.events) ∨ (m = n ∧ d ∈ o.node.events) := by
        intro m node' hm d hd
        rw [hnet] at hm
        rcases react_nodes_cases hm with ⟨rfl, rfl⟩ | ⟨_, hm⟩
        · exact Or.inr ⟨rfl, hd⟩
        · exact Or.inl ⟨node', hm, hd⟩
      have harrival : ∀ {now d ingress}, ev = .receive now d ingress → d.name = data.name →
          now = l.1 ∧ d.size = data.size ∧
            l.1 ≤ t₀ + (net.holders ids data.name).card * (latency + delay) ∧
            (d.senderPos ≠ none → l.1 + (latency + delay) ≤
              t₀ + (net.holders ids data.name).card * (latency + delay) + latency) := by
        rintro now d ingress rfl hname
        exact ⟨hpunctual.receive_now hsource,
          h.arrival hpunctual (Nat.le_add_right _ _) hinj hsource hname⟩
      constructor
      · intro c hc
        rcases hcopy c hc with hc | ⟨out, _, ht, _, _⟩
        · exact hnow ▸ hpunctual.copies c hc
        · omega
      · intro m node' hm d hd
        rcases hnode' m node' hm d hd with ⟨node, hm, hd⟩ | ⟨rfl, hd⟩
        · exact hnow ▸ hpunctual.timers m node hm d hd
        · rcases heff.deferred d hd with hd | ⟨now, d', ingress, dist, rfl, _, _, _, _, hdue, _⟩
          · exact hnow ▸ hpunctual.timers m node hnode d hd
          · have := hpunctual.receive_now hsource
            omega
      · intro c hc hname
        rcases hcopy c hc with hc | ⟨out, hout, ht, hname', hsize'⟩
        · obtain ⟨hsize, hsent⟩ := h.copyWindow c hc hname
          exact ⟨hsize, by omega⟩
        · rw [hname'] at hname
          rcases heff.sent_of out hout with
            ⟨now, d, ingress, hev', hd, hsize⟩ | ⟨d, hd, rfl, hdname, hsize⟩
          · obtain ⟨_, hsize'', hle, _⟩ := harrival hev' (hd.symm.trans hname)
            have halert : ev.alert = some data.name := by
              obtain ⟨zor, hz, hzor⟩ := hgeo
              rw [← hname, hd] at hz
              rw [hev', NodeEvent.alert_receive now ingress hz hzor, ← hd, hname]
            obtain ⟨hnew, hstore⟩ := heff.sent_admitted halert (by
              rintro now d ingress rfl hlocal hdn
              exact hdn ▸ hcounted.first_injection hnode hsource honce (hdn ▸ hgeo) hlocal)
              hout hname
            have := hadmit halert hnew hstore
            exact ⟨by rw [hsize', hsize, hsize''], by omega⟩
          · obtain ⟨hdsize, hdue⟩ := h.timerWindow n node hnode d hd (hdname.symm.trans hname)
            have hfire : l.1 = d.due := by
              rcases hsource with ⟨hl, _⟩ | ⟨c, _, _, _, heq⟩
              · exact hpunctual.expiry n node d hl hnode hd
              · cases heq
            exact ⟨by rw [hsize', hsize, hdsize], by omega⟩
      · intro m node' hm d hd hname
        rcases hnode' m node' hm d hd with ⟨node, hm, hd⟩ | ⟨rfl, hd⟩
        · obtain ⟨hsize, hdue⟩ := h.timerWindow m node hm d hd hname
          exact ⟨hsize, by omega⟩
        · rcases heff.deferred d hd with
            hd | ⟨now, d', ingress, dist, hev', hpos, halert, hdname, hdsize, hdue, hnew, hstore⟩
          · obtain ⟨hsize, hdue⟩ := h.timerWindow m node hnode d hd hname
            exact ⟨hsize, by omega⟩
          · have hname' : d'.name = data.name := hdname.symm.trans hname
            obtain ⟨hnow', hsize, _, hle⟩ := harrival hev' hname'
            have := hadmit (hname' ▸ halert) (hname' ▸ hnew) (hname' ▸ hstore)
            have := hdelay m node dist hnode
            have := hle hpos
            rw [hsize] at hdue
            exact ⟨hdsize.trans hsize, by omega⟩

/-- A copy of the alert is in flight or a relay of it is pending. -/
def Alive (net : Net F) (name : Name F) : Prop :=
  (∃ c ∈ net.inFlight, c.data.name = name) ∨
    ∃ n node, net.nodes n = some node ∧ ∃ d ∈ node.events, d.data.name = name

theorem Windowed.now_le {latency delay t₀ : ℕ} {ids : Finset NodeId} {data : Data F} {net : Net F}
    (h : Windowed latency (latency + delay) t₀ ids data net) (halive : net.Alive data.name) :
    net.now ≤ t₀ + (net.holders ids data.name).card * (latency + delay) := by
  rcases halive with ⟨c, hc, hname⟩ | ⟨n, node, hnode, d, hd, hname⟩
  · have := h.copies c hc
    have := (h.copyWindow c hc hname).2
    omega
  · have := h.timers n node hnode d hd
    have := (h.timerWindow n node hnode d hd hname).2
    omega

theorem Operates.windowed {infra : Infrastructure F} {medium : Medium F}
    {names : NodeId → Finset (Name F)} {net₀ net : Net F} {ls : List (Label F)}
    (h : Operates infra medium names net₀ ls net) {latency delay t₀ : ℕ} {ids : Finset NodeId}
    {data : Data F} (hrun : Run (TimedStep infra medium latency) net₀ ls net)
    (hgeo : data.name.IsGeographic)
    (hinj : ∀ l ∈ ls, ∀ n now d ingress, l.2 = .occur n (.receive now d ingress) →
      d.name = data.name → l.1 = t₀ ∧ d.size = data.size)
    (hids : ∀ n, (net₀.nodes n).isSome → n ∈ ids)
    (hdelay : ∀ n node dist, net₀.nodes n = some node →
      deferDelay node.ctx data.size dist ≤ delay) :
    Windowed latency (latency + delay) t₀ ids data net := by
  refine hrun.invariant (fun _ => Windowed latency (latency + delay) t₀ ids data) ?_ ?_
  · have hevents := fun n node hnode => (h.fresh n node hnode).events
    constructor
    · simp [h.inFlight]
    · intro n node hnode d hd
      simp [hevents n node hnode] at hd
    · simp [h.inFlight]
    · intro n node hnode d hd
      simp [hevents n node hnode] at hd
  · intro ms t l v rest heq hrun ht hstep
    have hl : l ∈ ls := by simp [heq]
    have hbefore := h.of_prefix heq (hrun.mono fun _ _ _ hs => hs.1)
    have hafter := h.of_prefix (heq.trans (List.append_cons ms l rest))
      ((hrun.snoc hstep).mono fun _ _ _ hs => hs.1)
    refine ht.step hbefore.counted hgeo (h.seen l hl) hafter.once (hinj l hl) hids ?_ hstep
    intro n node dist hnode
    obtain ⟨node₀, hnode₀, hconfig⟩ := hbefore.counted.initial hnode
    have hradius : node.ctx.txRadius = node₀.ctx.txRadius := congrArg Node.Config.txRadius hconfig
    have hrate : node.ctx.txRate = node₀.ctx.txRate := congrArg Node.Config.txRate hconfig
    have hle := hdelay n node₀ dist hnode₀
    unfold deferDelay at hle ⊢
    rwa [hradius, hrate]

end Net

/-- Where copies arrive after the latency and timers fire when they are due, an alert
that `k` nodes have stored is on its way or pending for at most `k` times the latency
and the longest deferral. -/
theorem settles {infra : Infrastructure ℝ} {medium : Medium ℝ} {names : NodeId → Finset (Name ℝ)}
    {net₀ net : Net ℝ} {ls : List (Net.Label ℝ)} {latency delay t₀ : ℕ} {src : NodeId}
    {data : Data ℝ} {ingress : NfdFace} {ids : Finset NodeId}
    (h : Net.Operates infra medium names net₀ ls net)
    (hrun : Run (Net.TimedStep infra medium latency) net₀ ls net)
    (hcreated : (t₀, .occur src (.receive t₀ data ingress)) ∈ ls)
    (hgeo : data.name.IsGeographic) (hids : ∀ n, (net₀.nodes n).isSome → n ∈ ids)
    (hdelay : ∀ n node, net₀.nodes n = some node → deferDelay node.ctx data.size 0 ≤ delay)
    (halive : net.Alive data.name) :
    net.now ≤ t₀ + (net.holders ids data.name).card * (latency + delay) := by
  have hsame : ∀ l ∈ ls, ∀ n now d ingress, l.2 = .occur n (.receive now d ingress) →
      d.name = data.name → l.1 = t₀ ∧ d.size = data.size := by
    intro l hl n now d ingress' hocc hname
    obtain ⟨zor, hz, hzor⟩ := hgeo
    have hinj : Net.Label.injected l = some data.name := by
      rw [Net.Label.injected_occur hocc, ← hname]
      exact NodeEvent.alert_receive now ingress' (hname ▸ hz) hzor
    obtain rfl := eq_of_nodup_filterMap h.once hl hcreated hinj
      (NodeEvent.alert_receive t₀ ingress hz hzor)
    obtain ⟨_, heq⟩ := Net.Action.occur.inj hocc
    obtain ⟨_, rfl, _⟩ := NodeEvent.receive.inj heq
    exact ⟨rfl, rfl⟩
  exact (h.windowed hrun hgeo hsame hids fun n node dist hnode =>
    (deferDelay_le_zero node.ctx data.size dist).trans (hdelay n node hnode)).now_le halive

theorem settles_row : ∃ names net₀ ls net,
    Net.Operates ⟨∅, ∅⟩ Row.placement.disk names net₀ ls net ∧ net.Alive Row.alert.name ∧
      net.now ≤ 0 + (net.holders Row.placement.ids.toFinset Row.alert.name).card *
        (1 + deferDelay (Row.start 0).ctx 375 0) := by
  have hsplit : Run (Net.TimedStep ⟨∅, ∅⟩ Row.placement.disk 1) (Row.state Row.start 0 [] [])
      (Row.labels.take 5 ++ [(4800268, .deliver ⟨1, 1, Row.relayed, 4800267⟩)]) _ := Row.runs
  obtain ⟨net, hrun, hstep⟩ := Run.snoc_iff.mp hsplit
  have h := Row.floods.operates.of_prefix rfl (hrun.mono fun _ _ _ hs => hs.1)
  have halive : net.Alive Row.alert.name := Or.inl ⟨_, hstep.1.deliver_mem rfl, rfl⟩
  have hids : ∀ n, ((Row.state Row.start 0 [] []).nodes n).isSome →
      n ∈ Row.placement.ids.toFinset := by
    intro n hn
    obtain ⟨node, hnode⟩ := Option.isSome_iff_exists.mp hn
    exact List.mem_toFinset.mpr (Row.state_nodes hnode).1
  have hdelay : ∀ n node, (Row.state Row.start 0 [] []).nodes n = some node →
      deferDelay node.ctx Row.alert.size 0 ≤ deferDelay (Row.start 0).ctx 375 0 := by
    intro n node hnode
    rw [(Row.state_nodes hnode).2]
    exact le_rfl
  exact ⟨_, _, _, net, h, halive, settles h hrun (List.mem_cons_self) ⟨Row.zone, rfl, trivial⟩ hids
    hdelay halive⟩

end Cafe
