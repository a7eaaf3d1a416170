import Cafe.Delivery

/-!
# When a deferred relay is transmitted

Without evictions every registered alert is in the store, so no alert is
scheduled twice and the pending relay of an alert is seen by the copies of
that alert only.
-/

open Labelled

namespace Cafe

variable {F : Type} [Arith F]

namespace Node

/-- Registry, pending events and store in a run without evictions. -/
structure Sound (names : Finset (Name F)) (node : Node F) : Prop where
  coherent : node.Coherent
  room : node.ctx.alertStore.Room names
  stored : ∀ name, node.ctx.registry.isRegistered name → node.ctx.alertStore.isDuplicate name

theorem Sound.not_reschedules {names : Finset (Name F)} {node : Node F} (h : Sound names node)
    (ev : NodeEvent F) : ¬ node.Reschedules ev := by
  intro hres
  cases ev with
  | receive now data ingress => exact hres.2.1 (h.stored _ hres.1)
  | _ => exact hres

theorem Case.registered {infra : Infrastructure F} {node : Node F} {ev : NodeEvent F}
    {o : Outcome F} (hc : Case infra node ev o) {name : Name F}
    (hreg : o.node.ctx.registry.isRegistered name) :
    node.ctx.registry.isRegistered name ∨ ∃ entry, entry.name = name ∧ ev.alert = some name ∧
      o.node.ctx.alertStore = node.ctx.alertStore.insertOrUpdate entry := by
  cases hc with
  | @geographic now data ingress zor nodePos o hz hgeo hm hcase =>
      cases hcase with
      | cancelled _ _ _ hreg' _ =>
          obtain ⟨id, hid⟩ := Option.isSome_iff_exists.mp (AList.lookup_isSome.mpr hreg')
          simp only [drop, (cancel_of_lookup hid).1, DeferredRegistry.isRegistered,
            AList.mem_erase] at hreg
          exact Or.inl hreg.2
      | deferred senderPos face data' _ _ _ hface =>
          rcases (AList.mem_insert _).mp hreg with rfl | hreg
          · rw [(relayOn_data hface).1]
            exact Or.inr ⟨_, rfl, NodeEvent.alert_receive _ _ hz hgeo, rfl⟩
          · exact Or.inl hreg
      | _ => exact Or.inl hreg
  | fired hmem => exact Or.inl ((AList.mem_erase.mp hreg).2)
  | _ => exact Or.inl hreg

theorem Case.sound {infra : Infrastructure F} {node : Node F} {ev : NodeEvent F} {o : Outcome F}
    (hc : Case infra node ev o) {names : Finset (Name F)} (h : Sound names node)
    (hev : ∀ name, ev.alert = some name → name ∈ names) : Sound names o.node := by
  obtain ⟨hroom, hmono, _⟩ := hc.room h.room hev
  refine ⟨hc.coherent h.coherent (h.not_reschedules ev), hroom, fun name hreg => ?_⟩
  rcases hc.registered hreg with hreg | ⟨entry, hname, halert, hstore⟩
  · exact hmono name (h.stored name hreg)
  · rw [hstore]
    exact ((h.room.insertOrUpdate entry (hname ▸ hev _ halert)).2 name).mpr (Or.inl hname.symm)

theorem Run.sound {infra : Infrastructure F} {node node' : Node F} {ls : List (Label F)}
    (hv : node.ctx.type = .vehicle) {names : Finset (Name F)} (h : Sound names node)
    (hall : ∀ l ∈ ls, ∀ name, l.1.alert = some name → name ∈ names)
    (hrun : Run (Step infra) node ls node') : Sound names node' := by
  refine hrun.invariant (fun _ n => Sound names n) h ?_
  intro ms t l v rest heq hpre ht hstep
  obtain ⟨hc, rfl⟩ := Case.of_step (Run.type_eq hv hpre) hstep
  exact hc.sound ht fun name hname => hall l (by simp [heq]) name hname

/-- `d` is the pending relay of the alert. -/
def Pending (node : Node F) (name : Name F) (d : Deferred F) : Prop :=
  d ∈ node.events ∧ d.data.name = name

theorem Coherent.isRegistered_iff {node : Node F} (h : node.Coherent) (name : Name F) :
    node.ctx.registry.isRegistered name ↔ ∃ d, node.Pending name d := by
  constructor
  · intro hreg
    obtain ⟨id, hid⟩ := Option.isSome_iff_exists.mp (AList.lookup_isSome.mpr hreg)
    obtain ⟨d, hd, hname, _⟩ := (h.lookup name id).mp hid
    exact ⟨d, hd, hname⟩
  · rintro ⟨d, hd, hname⟩
    exact AList.lookup_isSome.mp (by rw [(h.lookup name d.id).mpr ⟨d, hd, hname, rfl⟩]; rfl)

theorem Coherent.lookup_eq {node node' : Node F} (h : node.Coherent) (h' : node'.Coherent)
    {name : Name F} (hiff : ∀ d, node'.Pending name d ↔ node.Pending name d) :
    node'.ctx.registry.lookup name = node.ctx.registry.lookup name := by
  refine Option.ext fun id => ?_
  rw [h'.lookup, h.lookup]
  constructor
  · rintro ⟨d, hd, hname, hid⟩
    exact ⟨d, ((hiff d).mp ⟨hd, hname⟩).1, hname, hid⟩
  · rintro ⟨d, hd, hname, hid⟩
    exact ⟨d, ((hiff d).mpr ⟨hd, hname⟩).1, hname, hid⟩

/-- Events that are not about an alert leave its pending relay alone. -/
theorem Case.pending_iff {infra : Infrastructure F} {node : Node F} {ev : NodeEvent F}
    {o : Outcome F} (hc : Case infra node ev o) (h : node.Coherent) {name : Name F}
    (halert : ev.alert ≠ some name) (hexp : ∀ d, node.Pending name d → ev ≠ .expire d.id)
    (d : Deferred F) : o.node.Pending name d ↔ node.Pending name d := by
  cases hc with
  | @geographic now data ingress zor nodePos o hz hgeo hm hcase =>
      have hne : data.name ≠ name := by
        rintro rfl
        exact halert (NodeEvent.alert_receive _ _ hz hgeo)
      cases hcase with
      | cancelled _ _ _ hreg _ =>
          obtain ⟨id, hid⟩ := Option.isSome_iff_exists.mp (AList.lookup_isSome.mpr hreg)
          obtain ⟨e, he, hename, rfl⟩ := (h.lookup _ _).mp hid
          simp only [Pending, drop, (cancel_of_lookup hid).2, List.mem_filter]
          constructor
          · exact fun hd => ⟨hd.1.1, hd.2⟩
          · rintro ⟨hd, hdname⟩
            refine ⟨⟨hd, ?_⟩, hdname⟩
            simp only [ne_eq, decide_not, Bool.not_eq_eq_eq_not, Bool.not_true,
              decide_eq_false_iff_not]
            intro hid'
            obtain rfl := List.inj_on_of_nodup_map h.ids hd he hid'
            exact hne (hename.symm.trans hdname)
      | deferred senderPos face data' _ _ _ hface =>
          simp only [Pending, schedule_events, insertAlert_events, List.mem_append,
            List.mem_singleton]
          constructor
          · rintro ⟨hd | rfl, hdname⟩
            · exact ⟨hd, hdname⟩
            · exact absurd ((relayOn_data hface).1.symm.trans hdname) hne
          · exact fun hd => ⟨Or.inl hd.1, hd.2⟩
      | _ => exact Iff.rfl
  | @fired e hmem =>
      simp only [Pending, deferredOutgoingAlert, List.mem_filter]
      constructor
      · exact fun hd => ⟨hd.1.1, hd.2⟩
      · rintro ⟨hd, hdname⟩
        refine ⟨⟨hd, ?_⟩, hdname⟩
        simp only [ne_eq, decide_not, Bool.not_eq_eq_eq_not, Bool.not_true,
          decide_eq_false_iff_not]
        intro hid'
        exact hexp d ⟨hd, hdname⟩ (by rw [hid'])
  | _ => exact Iff.rfl

/-- A further copy cancels the pending relay or leaves the vehicle as it is. -/
theorem Case.duplicate_copy {infra : Infrastructure F} {node : Node F} {now : ℕ} {data : Data F}
    {ingress : NfdFace} {o : Outcome F} {zor : ZoR F} {nodePos senderPos : Point F}
    (hc : Case infra node (.receive now data ingress) o) (hz : extractZoR data.name = some zor)
    (hgeo : zor.IsGeographic) (hm : node.mobility = some nodePos)
    (hpos : data.senderPos = some senderPos)
    (hdup : node.ctx.alertStore.isDuplicate data.name) :
    (node.ctx.registry.isRegistered data.name ∧
        Suppresses zor node.ctx.alertStore data.name nodePos senderPos ∧
        o.node = node.cancel data.name) ∨
      (¬ (node.ctx.registry.isRegistered data.name ∧
        Suppresses zor node.ctx.alertStore data.name nodePos senderPos) ∧ o.node = node) := by
  cases hc with
  | @geographic _ _ _ zor' nodePos' _ hz' hgeo' hm' hcase =>
      obtain rfl := Option.some.inj (hz.symm.trans hz')
      obtain rfl := Option.some.inj (hm.symm.trans hm')
      cases hcase with
      | noSender hnone _ => simp [hnone] at hpos
      | origin _ hnone _ _ => simp [hnone] at hpos
      | cancelled sp hpos' _ hreg hsup =>
          obtain rfl := Option.some.inj (hpos.symm.trans hpos')
          exact Or.inl ⟨hreg, hsup, rfl⟩
      | duplicate sp hpos' _ hkeep =>
          obtain rfl := Option.some.inj (hpos.symm.trans hpos')
          exact Or.inr ⟨hkeep, rfl⟩
      | closer _ _ hnew _ _ => exact absurd hdup hnew
      | noFace _ _ hnew _ _ => exact absurd hdup hnew
      | deferred _ _ _ _ hnew _ _ => exact absurd hdup hnew
  | ignored hno =>
      rcases hno with hno | hno
      · exact absurd hgeo (hno zor hz)
      · simp [hno.1] at hm

/-- The entry of an alert stays as it was first written. -/
theorem Case.get_eq {infra : Infrastructure F} {node : Node F} {ev : NodeEvent F} {o : Outcome F}
    (hc : Case infra node ev o) {names : Finset (Name F)} (h : node.ctx.alertStore.Room names)
    (hev : ∀ name, ev.alert = some name → name ∈ names) {name : Name F}
    (halert : ev.alert ≠ some name) :
    o.node.ctx.alertStore.get name = node.ctx.alertStore.get name := by
  rcases hc.store with heq | ⟨entry, hentry, heq⟩
  · rw [heq]
  · rw [heq]
    refine AlertStore.get_insertOrUpdate_of_ne (fun hnew => h.lt (hev _ hentry) hnew) ?_
    rintro rfl
    exact halert hentry

end Node

/-- The test on a further copy: outside the zone its sender is inside or
strictly closer; inside, the first sender is strictly nearer to the vehicle
than to the sender of the copy. -/
def SuppressionPredicate (zor : ZoR F) (nodePos firstPos senderPos : Point F) : Prop :=
  if ¬ zor.contains nodePos then
    zor.contains senderPos ∨ zor.distanceToBoundary senderPos < zor.distanceToBoundary nodePos
  else
    firstPos.distanceFromPoint nodePos < firstPos.distanceFromPoint senderPos

theorem suppresses_iff {zor : ZoR F} {as : AlertStore F} {name : Name F}
    {nodePos senderPos : Point F} {entry : AlertStore.Entry F} (h : as.get name = some entry) :
    Suppresses zor as name nodePos senderPos ↔
      SuppressionPredicate zor nodePos entry.senderPos senderPos := by
  unfold Suppresses SuppressionPredicate CloserToZoR
  rw [h]

namespace Node

/-- The copies of an alert that satisfy the suppression predicate. -/
def Suppressing (name : Name F) (zor : ZoR F) (nodePos firstPos : Point F) (l : Label F) : Prop :=
  ∃ now data ingress senderPos, l.1 = .receive now data ingress ∧ data.name = name ∧
    data.senderPos = some senderPos ∧ SuppressionPredicate zor nodePos firstPos senderPos

/-- A static vehicle without evictions defers the relay `d` of an alert upon
its first copy; `between` follows, without the expiry of the relay. -/
structure Deferral (infra : Infrastructure F) (names : Finset (Name F)) (name : Name F)
    (zor : ZoR F) (nodePos firstPos : Point F) (init : Node F) (before : List (Label F))
    (first : Label F) (d : Deferred F) (between : List (Label F)) (node' : Node F) : Prop where
  type : init.ctx.type = .vehicle
  registry : init.ctx.registry = ∅
  events : init.events = []
  mobility : init.mobility = some nodePos
  zone : extractZoR name = some zor
  geographic : zor.IsGeographic
  noEviction : NoEviction names init (before ++ first :: between)
  static : ∀ l ∈ before ++ first :: between, ∀ pos, l.1 ≠ .move pos
  senderPos : ∀ l ∈ between, ∀ now data ingress, l.1 = .receive now data ingress →
    data.name = name → data.senderPos ≠ none
  firstCopy : ∃ now data ingress, first.1 = .receive now data ingress ∧ data.name = name ∧
    data.senderPos = some firstPos
  defers : ∃ node₀, Run (Step infra) init before node₀ ∧
    ¬ node₀.ctx.alertStore.isDuplicate name ∧ Step infra node₀ first first.2.node ∧
    first.2.node.events = node₀.events ++ [d]
  running : ∀ l ∈ between, l.1 ≠ .expire d.id
  run : Run (Step infra) first.2.node between node'

/-- The vehicle after the first copy: the relay is pending until a copy
suppresses it. -/
structure Waiting (names : Finset (Name F)) (name : Name F) (zor : ZoR F)
    (nodePos firstPos : Point F) (d : Deferred F) (ls : List (Label F)) (node : Node F) :
    Prop where
  type : node.ctx.type = .vehicle
  mobility : node.mobility = some nodePos
  sound : Sound names node
  stored : node.ctx.alertStore.isDuplicate name
  entry : ∃ entry, node.ctx.alertStore.get name = some entry ∧ entry.senderPos = firstPos
  relay : d.data.name = name
  fresh : d.id < node.nextEvent
  pending : ((∀ l ∈ ls, ¬ Suppressing name zor nodePos firstPos l) ∧ node.Pending name d) ∨
    ((∃ l ∈ ls, Suppressing name zor nodePos firstPos l) ∧ (∀ e, ¬ node.Pending name e) ∧
      ∀ e ∈ node.events, e.id ≠ d.id)

theorem Case.mem_events {infra : Infrastructure F} {node : Node F} {ev : NodeEvent F}
    {o : Outcome F} (hc : Case infra node ev o) :
    node.nextEvent ≤ o.node.nextEvent ∧
      ∀ e ∈ o.node.events, e ∈ node.events ∨ e.id = node.nextEvent := by
  cases hc with
  | geographic _ _ _ hcase =>
      cases hcase with
      | cancelled _ _ _ hreg _ =>
          obtain ⟨id, hid⟩ := Option.isSome_iff_exists.mp (AList.lookup_isSome.mpr hreg)
          refine ⟨(node.cancel_nextEvent _).ge, fun e he => Or.inl ?_⟩
          simp only [drop, (cancel_of_lookup hid).2] at he
          exact (List.mem_filter.mp he).1
      | deferred _ _ _ _ _ _ _ =>
          refine ⟨Nat.le_succ _, fun e he => ?_⟩
          rw [schedule_events, List.mem_append, List.mem_singleton] at he
          rcases he with he | rfl
          · exact Or.inl he
          · exact Or.inr rfl
      | _ => exact ⟨le_rfl, fun e he => Or.inl he⟩
  | fired hmem => exact ⟨le_rfl, fun e he => Or.inl (List.mem_filter.mp he).1⟩
  | _ => exact ⟨le_rfl, fun e he => Or.inl he⟩

/-- A copy that adds an event adds the relay of its alert. -/
theorem Case.deferred_copy {infra : Infrastructure F} {node : Node F} {now : ℕ} {data : Data F}
    {ingress : NfdFace} {o : Outcome F} {d : Deferred F}
    (hc : Case infra node (.receive now data ingress) o)
    (hev : o.node.events = node.events ++ [d]) :
    d.data.name = data.name ∧ d.id < o.node.nextEvent := by
  have hne : o.node.events ≠ node.events := by
    rw [hev]
    simp
  cases hc with
  | geographic _ _ _ hcase =>
      cases hcase with
      | cancelled _ _ _ hreg _ =>
          obtain ⟨id, hid⟩ := Option.isSome_iff_exists.mp (AList.lookup_isSome.mpr hreg)
          have hlen := congrArg List.length hev
          simp only [drop, (cancel_of_lookup hid).2, List.length_append,
            List.length_singleton] at hlen
          have := List.length_filter_le (fun d => decide (d.id ≠ id)) node.events
          omega
      | deferred _ _ _ _ _ _ hface =>
          rw [schedule_events, insertAlert_events] at hev
          obtain rfl := List.singleton_inj.mp (List.append_cancel_left hev)
          exact ⟨(relayOn_data hface).1, Nat.lt_succ_self _⟩
      | _ => exact absurd rfl hne
  | ignored _ => exact absurd rfl hne

theorem Suppressing.alert {name : Name F} {zor : ZoR F} {nodePos firstPos : Point F} {l : Label F}
    (h : Suppressing name zor nodePos firstPos l) (hz : extractZoR name = some zor)
    (hgeo : zor.IsGeographic) : l.1.alert = some name := by
  obtain ⟨now, data, ingress, senderPos, hev, rfl, _⟩ := h
  rw [hev]
  exact NodeEvent.alert_receive _ _ hz hgeo

theorem Suppressing.iff_of_receive {name : Name F} {zor : ZoR F}
    {nodePos firstPos senderPos : Point F}
    {l : Label F} {now : ℕ} {data : Data F} {ingress : NfdFace}
    (hev : l.1 = .receive now data ingress) (hname : data.name = name)
    (hpos : data.senderPos = some senderPos) :
    Suppressing name zor nodePos firstPos l ↔
      SuppressionPredicate zor nodePos firstPos senderPos := by
  constructor
  · rintro ⟨now', data', ingress', senderPos', hev', _, hpos', hp⟩
    obtain ⟨-, rfl, -⟩ := NodeEvent.receive.inj (hev.symm.trans hev')
    obtain rfl := Option.some.inj (hpos.symm.trans hpos')
    exact hp
  · exact fun hp => ⟨now, data, ingress, senderPos, hev, hname, hpos, hp⟩

/-- A copy of the alert while its relay may be pending. -/
theorem Waiting.copy {infra : Infrastructure F} {names : Finset (Name F)} {zor : ZoR F}
    {nodePos firstPos senderPos : Point F} {d : Deferred F} {ls : List (Label F)} {node : Node F}
    {l : Label F} {now : ℕ} {data : Data F} {ingress : NfdFace}
    (h : Waiting names data.name zor nodePos firstPos d ls node) (hc : Case infra node l.1 l.2)
    (hev : l.1 = .receive now data ingress) (hz : extractZoR data.name = some zor)
    (hgeo : zor.IsGeographic) (hpos : data.senderPos = some senderPos) :
    ((∀ l' ∈ ls ++ [l], ¬ Suppressing data.name zor nodePos firstPos l') ∧
        l.2.node.Pending data.name d) ∨
      ((∃ l' ∈ ls ++ [l], Suppressing data.name zor nodePos firstPos l') ∧
        (∀ e, ¬ l.2.node.Pending data.name e) ∧ ∀ e ∈ l.2.node.events, e.id ≠ d.id) := by
  obtain ⟨entry, hget, hentry⟩ := h.entry
  have hiff : Suppressing data.name zor nodePos firstPos l ↔
      SuppressionPredicate zor nodePos firstPos senderPos :=
    Suppressing.iff_of_receive hev rfl hpos
  rw [hev] at hc
  have hsup : Suppresses zor node.ctx.alertStore data.name nodePos senderPos ↔
      SuppressionPredicate zor nodePos entry.senderPos senderPos := suppresses_iff hget
  rw [hentry] at hsup
  have hregiff := h.sound.coherent.isRegistered_iff data.name
  rcases hc.duplicate_copy hz hgeo h.mobility hpos h.stored with
    ⟨hreg, hs, heq⟩ | ⟨hkeep, heq⟩
  · right
    rcases h.pending with ⟨_, hd, hname⟩ | ⟨_, hnone, _⟩
    · have hid := (h.sound.coherent.lookup _ _).mpr ⟨d, hd, hname, rfl⟩
      have hevents := (cancel_of_lookup hid).2
      rw [heq]
      refine ⟨⟨l, by simp, hiff.mpr (hsup.mp hs)⟩, ?_, ?_⟩
      · rintro e ⟨he, hename⟩
        rw [hevents] at he
        obtain ⟨he, hne⟩ := List.mem_filter.mp he
        obtain rfl := h.sound.coherent.unique he hd (hename.trans hname.symm)
        simp at hne
      · intro e he
        rw [hevents] at he
        simpa using (List.mem_filter.mp he).2
    · obtain ⟨e, he⟩ := hregiff.mp hreg
      exact absurd he (hnone e)
  · rw [heq]
    rcases h.pending with ⟨hall, hd⟩ | ⟨⟨l', hl', hs⟩, hrest⟩
    · left
      refine ⟨fun l' hl' => ?_, hd⟩
      rcases List.mem_append.mp hl' with hl' | hl'
      · exact hall l' hl'
      · rw [List.mem_singleton.mp hl', hiff, ← hsup]
        exact fun hs => hkeep ⟨hregiff.mpr ⟨d, hd⟩, hs⟩
    · exact Or.inr ⟨⟨l', by simp [hl'], hs⟩, hrest⟩

/-- Any other event while the relay may be pending. -/
theorem Waiting.other {infra : Infrastructure F} {names : Finset (Name F)} {name : Name F}
    {zor : ZoR F} {nodePos firstPos : Point F} {d : Deferred F} {ls : List (Label F)}
    {node : Node F} {l : Label F} (h : Waiting names name zor nodePos firstPos d ls node)
    (hc : Case infra node l.1 l.2) (hz : extractZoR name = some zor) (hgeo : zor.IsGeographic)
    (halert : l.1.alert ≠ some name) (hrun : l.1 ≠ .expire d.id) :
    ((∀ l' ∈ ls ++ [l], ¬ Suppressing name zor nodePos firstPos l') ∧ l.2.node.Pending name d) ∨
      ((∃ l' ∈ ls ++ [l], Suppressing name zor nodePos firstPos l') ∧
        (∀ e, ¬ l.2.node.Pending name e) ∧ ∀ e ∈ l.2.node.events, e.id ≠ d.id) := by
  have hnot : ¬ Suppressing name zor nodePos firstPos l := fun hs => halert (hs.alert hz hgeo)
  rcases h.pending with ⟨hall, hd⟩ | ⟨⟨l', hl', hs⟩, hnone, hid⟩
  · left
    have hexp : ∀ e, node.Pending name e → l.1 ≠ .expire e.id := by
      intro e he
      rw [h.sound.coherent.unique he.1 hd.1 (he.2.trans hd.2.symm)]
      exact hrun
    refine ⟨fun l' hl' => ?_, (hc.pending_iff h.sound.coherent halert hexp d).mpr hd⟩
    rcases List.mem_append.mp hl' with hl' | hl'
    · exact hall l' hl'
    · exact List.mem_singleton.mp hl' ▸ hnot
  · right
    refine ⟨⟨l', by simp [hl'], hs⟩, fun e he => ?_, fun e he => ?_⟩
    · exact hnone e ((hc.pending_iff h.sound.coherent halert
        (fun e he => absurd he (hnone e)) e).mp he)
    · rcases hc.mem_events.2 e he with he | he
      · exact hid e he
      · rw [he]
        exact (Nat.ne_of_lt h.fresh).symm

theorem Deferral.init_sound {infra : Infrastructure F} {names : Finset (Name F)} {name : Name F}
    {zor : ZoR F} {nodePos firstPos : Point F} {init node' : Node F}
    {before between : List (Label F)}
    {first : Label F} {d : Deferred F}
    (h : Deferral infra names name zor nodePos firstPos init before first d between node') :
    Sound names init := by
  refine ⟨⟨by simp [h.events], by simp [h.events], by simp [h.registry, h.events]⟩,
    h.noEviction.room, fun m hm => ?_⟩
  rw [h.registry] at hm
  exact absurd hm (AList.notMem_empty _)

theorem Run.mobility_of_static {infra : Infrastructure F} {node node' : Node F}
    {ls : List (Label F)} (hv : node.ctx.type = .vehicle)
    (hstatic : ∀ l ∈ ls, ∀ pos, l.1 ≠ .move pos) (h : Run (Step infra) node ls node') :
    node'.mobility = node.mobility := by
  refine h.invariant (fun _ n => n.mobility = node.mobility) rfl ?_
  intro ms t l v rest heq hrun ht hstep
  obtain ⟨hc, rfl⟩ := Case.of_step (Run.type_eq hv hrun) hstep
  exact (hc.mobility_of_static (hstatic l (by simp [heq]))).trans ht

theorem Deferral.waiting {infra : Infrastructure F} {names : Finset (Name F)} {name : Name F}
    {zor : ZoR F} {nodePos firstPos : Point F} {init node' : Node F}
    {before between : List (Label F)}
    {first : Label F} {d : Deferred F}
    (h : Deferral infra names name zor nodePos firstPos init before first d between node')
    {pre post : List (Label F)} {mid : Node F} (heq : between = pre ++ post)
    (hpre : Run (Step infra) first.2.node pre mid) :
    Waiting names name zor nodePos firstPos d pre mid := by
  obtain ⟨node₀, hbefore, hnew, hstep, hevents⟩ := h.defers
  obtain ⟨now, data, ingress, hev, rfl, hpos⟩ := h.firstCopy
  have hv₀ := Run.type_eq h.type hbefore
  have hm₀ := (Run.mobility_of_static h.type (fun l hl => h.static l (by simp [hl])) hbefore).trans
    h.mobility
  have hsound₀ := Run.sound h.type h.init_sound
    (fun l hl => h.noEviction.alerts l (by simp [hl])) hbefore
  have hc := (Case.of_step hv₀ hstep).1
  have hsound := hc.sound hsound₀ (h.noEviction.alerts first (by simp))
  rw [hev] at hc
  have hstart : Waiting names data.name zor nodePos firstPos d [] first.2.node := by
    obtain ⟨hname, hfresh⟩ := hc.deferred_copy hevents
    obtain ⟨_, entry, hentry, hsp, hstore⟩ := hc.first_copy h.zone h.geographic
      (by rw [hm₀]; rfl) (by rw [hpos]; simp) hnew
    have halert : first.1.alert = some data.name := by
      rw [hev]
      exact NodeEvent.alert_receive _ _ h.zone h.geographic
    have hmem := h.noEviction.alerts first (by simp) _ halert
    have hiff := (hsound₀.room.insertOrUpdate entry (hentry ▸ hmem)).2
    refine ⟨hc.type_eq.trans hv₀, hc.mobility_eq.trans hm₀, hsound, ?_, ⟨entry, ?_, ?_⟩, hname,
      hfresh, Or.inl ⟨by simp, ?_, hname⟩⟩
    · rw [hstore]
      exact (hiff _).mpr (Or.inl hentry.symm)
    · rw [hstore, ← hentry]
      exact AlertStore.get_insertOrUpdate_self (hentry ▸ hnew) (hsound₀.room.lt hmem hnew)
    · exact (Option.some.inj (hpos.symm.trans hsp)).symm
    · rw [hevents]
      simp
  refine hpre.invariant (Waiting names data.name zor nodePos firstPos d) hstart ?_
  intro ms t l v rest hpre' _ ht hstep'
  have hl : l ∈ between := by simp [heq, hpre']
  obtain ⟨hc', rfl⟩ := Case.of_step ht.type hstep'
  have halerts := h.noEviction.alerts l (by simp [hl])
  obtain ⟨_, hmono, _⟩ := hc'.room ht.sound.room halerts
  obtain ⟨entry, hget, hentry⟩ := ht.entry
  refine ⟨hc'.type_eq.trans ht.type,
    (hc'.mobility_of_static (h.static l (by simp [hl]))).trans ht.mobility,
    hc'.sound ht.sound halerts, hmono _ ht.stored, ⟨entry, ?_, hentry⟩,
    ht.relay, lt_of_lt_of_le ht.fresh hc'.mem_events.1, ?_⟩
  · by_cases halert : l.1.alert = some data.name
    · obtain ⟨now', data', ingress', hev', hname'⟩ := NodeEvent.alert_eq_some halert
      have hsome := h.senderPos l hl now' data' ingress' hev' hname'
      obtain ⟨senderPos, hsp⟩ := Option.ne_none_iff_exists'.mp hsome
      rw [hev'] at hc'
      rcases hc'.duplicate_copy (by rw [hname']; exact h.zone) h.geographic ht.mobility hsp
        (by rw [hname']; exact ht.stored) with ⟨_, _, heq'⟩ | ⟨_, heq'⟩
      · rw [heq', cancel_alertStore]
        exact hget
      · rw [heq']
        exact hget
    · rw [hc'.get_eq ht.sound.room halerts halert]
      exact hget
  · by_cases halert : l.1.alert = some data.name
    · obtain ⟨now', data', ingress', hev', hname'⟩ := NodeEvent.alert_eq_some halert
      obtain ⟨senderPos, hsp⟩ := Option.ne_none_iff_exists'.mp
        (h.senderPos l hl now' data' ingress' hev' hname')
      rw [← hname'] at ht ⊢
      exact ht.copy hc' hev' (by rw [hname']; exact h.zone) h.geographic hsp
    · exact ht.other hc' h.zone h.geographic halert (h.running l hl)

theorem Coherent.expire_pending {node : Node F} (h : node.Coherent) {d : Deferred F}
    (hd : d ∈ node.events) : (node.expire d.id).sent = [node.onOutgoingAlert d.data d.egress] ∧
      Case (F := F) ⟨∅, ∅⟩ node (.expire d.id) (node.expire d.id) ∧
      ∀ e ∈ (node.expire d.id).node.events, e ∈ node.events ∧ e.id ≠ d.id := by
  have hsome : (node.events.find? fun e => e.id = d.id).isSome :=
    List.find?_isSome.mpr ⟨d, hd, by simp⟩
  obtain ⟨d', hfind⟩ := Option.isSome_iff_exists.mp hsome
  obtain rfl : d' = d := List.inj_on_of_nodup_map h.ids (List.mem_of_find?_eq_some hfind) hd
    (by simpa using List.find?_some hfind)
  have hexp : node.expire d'.id =
      (({ node with events := node.events.filter fun e => e.id ≠ d'.id } : Node F)
        |>.deferredOutgoingAlert d') := by
    simp only [expire, hfind]
  rw [hexp]
  refine ⟨rfl, .fired hd, fun e he => ?_⟩
  have := List.mem_filter.mp he
  exact ⟨this.1, by simpa using this.2⟩

theorem expire_of_not_pending {node : Node F} {id : EventId} (h : ∀ e ∈ node.events, e.id ≠ id) :
    node.expire id = node.drop := by
  have hnone : node.events.find? (fun e => decide (e.id = id)) = none :=
    List.find?_eq_none.mpr fun e he => by simpa using h e he
  simp only [expire, hnone]

/-- The alert is in the store and no relay of it is pending. -/
structure Settled (names : Finset (Name F)) (name : Name F) (node : Node F) : Prop where
  type : node.ctx.type = .vehicle
  mobility : node.mobility.isSome
  sound : Sound names node
  stored : node.ctx.alertStore.isDuplicate name
  free : ¬ node.ctx.registry.isRegistered name

/-- Once no relay is pending, a copy changes nothing. -/
theorem Settled.copy {infra : Infrastructure F} {names : Finset (Name F)} {name : Name F}
    {zor : ZoR F} {node : Node F} {l : Label F} (h : Settled names name node)
    (hz : extractZoR name = some zor) (hgeo : zor.IsGeographic) (hc : Case infra node l.1 l.2)
    (halert : l.1.alert = some name)
    (hpos : ∀ now data ingress, l.1 = .receive now data ingress → data.name = name →
      data.senderPos ≠ none) : l.2.node = node := by
  obtain ⟨now, data, ingress, hev, rfl⟩ := NodeEvent.alert_eq_some halert
  obtain ⟨senderPos, hsp⟩ := Option.ne_none_iff_exists'.mp (hpos now data ingress hev rfl)
  obtain ⟨nodePos, hm⟩ := Option.isSome_iff_exists.mp h.mobility
  rw [hev] at hc
  rcases hc.duplicate_copy hz hgeo hm hsp h.stored with ⟨hreg, _, _⟩ | ⟨_, heq⟩
  · exact absurd hreg h.free
  · exact heq

/-- The vehicle after the relay has fired or been cancelled. -/
theorem Waiting.settled {names : Finset (Name F)} {name : Name F} {zor : ZoR F}
    {nodePos firstPos : Point F} {d : Deferred F} {ls : List (Label F)} {node settled : Node F}
    (h : Waiting names name zor nodePos firstPos d ls node)
    (hset : settled = (node.expire d.id).node ∨
      (settled = node ∧ ∃ l ∈ ls, Suppressing name zor nodePos firstPos l)) :
    Settled names name settled := by
  have hm : node.mobility.isSome := by
    rw [h.mobility]
    rfl
  have hcancelled : (∀ e, ¬ node.Pending name e) → Settled names name node := fun hnone =>
    ⟨h.type, hm, h.sound, h.stored, fun hreg => by
      obtain ⟨e, he⟩ := (h.sound.coherent.isRegistered_iff name).mp hreg
      exact hnone e he⟩
  rcases h.pending with ⟨hall, hd, _⟩ | ⟨_, hnone, hid⟩
  · rcases hset with rfl | ⟨_, l, hl, hs⟩
    · obtain ⟨_, hc, hev⟩ := h.sound.coherent.expire_pending hd
      have hsound := hc.sound h.sound (by simp [NodeEvent.alert])
      refine ⟨hc.type_eq.trans h.type, hc.mobility_isSome hm, hsound, ?_, fun hreg => ?_⟩
      · rcases hc.store with heq | ⟨_, halert, _⟩
        · rw [heq]
          exact h.stored
        · cases halert
      · obtain ⟨e, he, hname⟩ := (hsound.coherent.isRegistered_iff name).mp hreg
        obtain ⟨he, hne⟩ := hev e he
        obtain rfl := h.sound.coherent.unique he hd (hname.trans h.relay.symm)
        exact hne rfl
    · exact absurd hs (hall l hl)
  · rcases hset with rfl | ⟨rfl, _⟩
    · rw [expire_of_not_pending hid]
      exact hcancelled hnone
    · exact hcancelled hnone

theorem Settled.run {infra : Infrastructure F} {names : Finset (Name F)} {name : Name F}
    {zor : ZoR F} {node node' : Node F} {ls : List (Label F)} (h : Settled names name node)
    (hz : extractZoR name = some zor) (hgeo : zor.IsGeographic)
    (hpos : ∀ l ∈ ls, ∀ now data ingress, l.1 = .receive now data ingress → data.name = name →
      data.senderPos ≠ none)
    (hall : ∀ l ∈ ls, ∀ m, l.1.alert = some m → m ∈ names)
    (hrun : Run (Step infra) node ls node') : Settled names name node' := by
  refine hrun.invariant (fun _ n => Settled names name n) h ?_
  intro ms t l v rest heq _ ht hstep
  obtain ⟨hc, rfl⟩ := Case.of_step ht.type hstep
  have hl : l ∈ ls := by simp [heq]
  by_cases halert : l.1.alert = some name
  · rw [ht.copy hz hgeo hc halert (hpos l hl)]
    exact ht
  · obtain ⟨_, hmono, _⟩ := hc.room ht.sound.room (hall l hl)
    refine ⟨hc.type_eq.trans ht.type, hc.mobility_isSome ht.mobility, hc.sound ht.sound (hall l hl),
      hmono _ ht.stored, fun hreg => ?_⟩
    rcases hc.registered hreg with hreg | ⟨_, _, halert', _⟩
    · exact ht.free hreg
    · exact halert halert'

end Node

/-- A deferred relay is transmitted at its expiry iff no copy met the
suppression predicate. Copies of other alerts leave it alone, and once it
has fired or been cancelled the copies of its alert change nothing. -/
theorem suppression_exact {infra : Infrastructure F} {names : Finset (Name F)} {name : Name F}
    {zor : ZoR F} {nodePos firstPos : Point F} {init node' : Node F}
    {before between : List (Node.Label F)} {first : Node.Label F} {d : Deferred F}
    (h : Node.Deferral infra names name zor nodePos firstPos init before first d between node') :
    ((node'.expire d.id).sent = [node'.onOutgoingAlert d.data d.egress] ↔
        ∀ l ∈ between, ¬ Node.Suppressing name zor nodePos firstPos l) ∧
      ((∃ l ∈ between, Node.Suppressing name zor nodePos firstPos l) →
        (node'.expire d.id).sent = []) ∧
      (∀ pre l post mid, between = pre ++ l :: post →
        Run (Node.Step infra) first.2.node pre mid → l.1.alert ≠ some name →
        l.2.node.ctx.registry.lookup name = mid.ctx.registry.lookup name ∧
          (d ∈ l.2.node.events ↔ d ∈ mid.events)) ∧
      ∀ settled later pre l post mid, (settled = (node'.expire d.id).node ∨
          (settled = node' ∧ ∃ l ∈ between, Node.Suppressing name zor nodePos firstPos l)) →
        later = pre ++ l :: post → (∀ l ∈ later, ∀ m, l.1.alert = some m → m ∈ names) →
        (∀ l ∈ later, ∀ now data ingress, l.1 = .receive now data ingress → data.name = name →
          data.senderPos ≠ none) →
        Run (Node.Step infra) settled pre mid → Node.Step infra mid l l.2.node →
        l.1.alert = some name →
        l.2.node.ctx.registry = mid.ctx.registry ∧ l.2.node.events = mid.events := by
  have hwait := h.waiting (List.append_nil between).symm h.run
  have hsent : ((∀ l ∈ between, ¬ Node.Suppressing name zor nodePos firstPos l) ∧
        (node'.expire d.id).sent = [node'.onOutgoingAlert d.data d.egress]) ∨
      ((∃ l ∈ between, Node.Suppressing name zor nodePos firstPos l) ∧
        (node'.expire d.id).sent = []) := by
    rcases hwait.pending with ⟨hall, hd⟩ | ⟨hex, _, hid⟩
    · exact Or.inl ⟨hall, (hwait.sound.coherent.expire_pending hd.1).1⟩
    · exact Or.inr ⟨hex, by rw [Node.expire_of_not_pending hid]; rfl⟩
  refine ⟨⟨fun heq => ?_, fun hall => ?_⟩, fun hex => ?_, ?_, ?_⟩
  · rcases hsent with ⟨hall, _⟩ | ⟨_, hnil⟩
    · exact hall
    · simp [hnil] at heq
  · rcases hsent with ⟨_, heq⟩ | ⟨⟨l, hl, hs⟩, _⟩
    · exact heq
    · exact absurd hs (hall l hl)
  · rcases hsent with ⟨hall, _⟩ | ⟨_, hnil⟩
    · obtain ⟨l, hl, hs⟩ := hex
      exact absurd hs (hall l hl)
    · exact hnil
  · intro pre l post mid heq hpre halert
    have hmid := h.waiting heq hpre
    have hrun := h.run
    rw [heq, Run.append_iff] at hrun
    obtain ⟨mid', hpre', hrest⟩ := hrun
    obtain rfl := hpre.unique (fun _ _ _ _ => Node.Step.unique) hpre'
    obtain ⟨next, hstep, _⟩ := Run.cons_iff.mp hrest
    obtain ⟨hc, rfl⟩ := Node.Case.of_step hmid.type hstep
    have hl : l ∈ between := by simp [heq]
    have hexp : ∀ e, mid.Pending name e → l.1 ≠ .expire e.id := by
      intro e he
      rcases hmid.pending with ⟨_, hd⟩ | ⟨_, hnone, _⟩
      · rw [hmid.sound.coherent.unique he.1 hd.1 (he.2.trans hd.2.symm)]
        exact h.running l hl
      · exact absurd he (hnone e)
    have hiff := hc.pending_iff hmid.sound.coherent halert hexp
    have hsound := hc.sound hmid.sound (h.noEviction.alerts l (by simp [hl]))
    refine ⟨hmid.sound.coherent.lookup_eq hsound.coherent hiff, ?_⟩
    have hd := hiff d
    simp only [Node.Pending, hmid.relay, and_true] at hd
    exact hd
  · intro settled later pre l post mid hset heq hall hpos hpre hstep halert
    have hmid := (hwait.settled hset).run h.zone h.geographic
      (fun l hl => hpos l (by simp [heq, hl])) (fun l hl => hall l (by simp [heq, hl])) hpre
    rw [hmid.copy h.zone h.geographic (Node.Case.of_step hmid.type hstep).1 halert
      (hpos l (by simp [heq]))]
    exact ⟨rfl, rfl⟩

theorem suppression_exact_one : ∃ first d between node',
    Node.Deferral ⟨∅, ∅⟩ {(Evicted.alert 97).name} (Evicted.alert 97).name Evicted.zone ⟨0, 0⟩
      ⟨1, 0⟩ Evicted.start [] first d between node' ∧ between.length = 1 ∧
    ((node'.expire d.id).sent = [node'.onOutgoingAlert d.data d.egress] ↔
      ∀ l ∈ between, ¬ Node.Suppressing (Evicted.alert 97).name Evicted.zone ⟨0, 0⟩ ⟨1, 0⟩ l) := by
  obtain ⟨due, o₁, h₁, hold, hev⟩ := Evicted.step_alert ⟨∅, ∅⟩ (b := 97) (by simp)
    Evicted.start_holds
  let copy : Data ℝ := { Evicted.alert 97 with senderPos := some ⟨9, 0⟩ }
  obtain ⟨o₂, ho₂⟩ := alertVehicleHandler_total 1 copy ⟨1, .nonLocal⟩ Evicted.zone o₁.node
    (by simp [copy])
  have hz : extractZoR (Evicted.alert 97).name = some Evicted.zone := rfl
  have hzcopy : extractZoR copy.name = some Evicted.zone := hz
  have h₂ : Node.Step ⟨∅, ∅⟩ o₁.node (.receive 1 copy ⟨1, .nonLocal⟩, o₂) o₂.node :=
    ⟨⟨0, (onIncomingAlert_vehicle hzcopy trivial hold.type).trans ho₂⟩, rfl⟩
  have halert : ∀ (now : ℕ) (data : Data ℝ), data.name = (Evicted.alert 97).name →
      (NodeEvent.receive now data ⟨1, .nonLocal⟩).alert = some (Evicted.alert 97).name := by
    intro now data hname
    have hzone : extractZoR data.name = some Evicted.zone := hname ▸ hz
    exact (NodeEvent.alert_receive _ _ hzone trivial).trans (congrArg some hname)
  have h : Node.Deferral ⟨∅, ∅⟩ {(Evicted.alert 97).name} (Evicted.alert 97).name Evicted.zone
      ⟨0, 0⟩ ⟨1, 0⟩ Evicted.start [] (.receive 0 (Evicted.alert 97) ⟨1, .nonLocal⟩, o₁)
      ⟨0, due, Evicted.alert 97, 1⟩ [(.receive 1 copy ⟨1, .nonLocal⟩, o₂)] o₂.node := by
    refine ⟨rfl, rfl, rfl, rfl, rfl, trivial, ⟨⟨?_, ?_⟩, ?_⟩, ?_, ?_, ⟨0, _, _, rfl, rfl, rfl⟩,
      ⟨Evicted.start, .nil, ?_, h₁, hev⟩, ?_, Run.single_iff.mpr h₂⟩
    · simp [Evicted.start, AlertStore.isDuplicate, AlertStore.names]
    · simp [Evicted.start]
    · intro l hl name hname
      simp only [List.nil_append, List.mem_cons, List.not_mem_nil, or_false] at hl
      rcases hl with rfl | rfl
      · rw [halert 0 _ rfl] at hname
        simp [Option.some.inj hname]
      · rw [halert 1 copy rfl] at hname
        simp [Option.some.inj hname]
    · intro l hl pos hmove
      simp only [List.nil_append, List.mem_cons, List.not_mem_nil, or_false] at hl
      rcases hl with rfl | rfl <;> cases hmove
    · intro l hl now data ingress heq _
      obtain rfl := List.mem_singleton.mp hl
      cases heq
      simp [copy]
    · simp [Evicted.start, AlertStore.isDuplicate, AlertStore.names]
    · intro l hl heq
      obtain rfl := List.mem_singleton.mp hl
      cases heq
  exact ⟨_, _, _, _, h, rfl, (suppression_exact h).1⟩

end Cafe
