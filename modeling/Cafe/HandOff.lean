import Cafe.NodeEffects

/-!
# The hand-off of alerts to RSUs

A vehicle chooses the face of a relay when it schedules the relay, and uses
the face when the timer expires. In between a hello timeout may declare the
RSU unavailable.
-/

open Labelled

namespace Cafe

variable {F : Type} [Arith F]

/-- No face id stands for two contexts. -/
theorem Context.getFaceIdFor_inj {ctx : Context F}
    (hnodup : (ctx.faceContextMap.map Prod.fst).Nodup)
    {c c' : FaceContext} (h : ctx.getFaceIdFor c = ctx.getFaceIdFor c')
    (hne : ctx.getFaceIdFor c ≠ 0) : c = c' := by
  have hmem : ∀ c, ctx.getFaceIdFor c ≠ 0 → (ctx.getFaceIdFor c, c) ∈ ctx.faceContextMap := by
    intro c hc
    unfold getFaceIdFor at hc ⊢
    cases hfind : ctx.faceContextMap.find? fun e => e.2 = c with
    | none => simp [hfind] at hc
    | some e =>
        have hsnd : e.2 = c := by simpa using List.find?_some hfind
        have hin := List.mem_of_find?_eq_some hfind
        rw [← hsnd]
        exact hin
  have h1 := hmem c hne
  have h2 := hmem c' (h ▸ hne)
  rw [← h] at h2
  exact congrArg Prod.snd (List.inj_on_of_nodup_map hnodup h1 h2 rfl)

namespace Node

/-- The face of the vehicle towards the RSUs. -/
def IsV2i (node : Node F) (faceId : FaceId) : Prop :=
  faceId ≠ 0 ∧ faceId = node.ctx.getFaceIdFor .v2i

/-- An application of the node itself publishes an alert for the neighbours,
and the V2I face is among those that it is sent on. -/
def Announces (node : Node F) : NodeEvent F → Prop
  | .receive _ data ingress =>
      extractZoR data.name = some .neighbor ∧ ingress.scope ≠ .nonLocal ∧
        ∃ face ∈ node.faceTable, face.scope = .nonLocal ∧ node.IsV2i face.faceId
  | _ => False

theorem isV2i_congr {node node' : Node F} (hconfig : node'.config = node.config)
    (faceId : FaceId) : node'.IsV2i faceId ↔ node.IsV2i faceId := by
  have hmap : node'.ctx.faceContextMap = node.ctx.faceContextMap :=
    congrArg Config.faceContextMap hconfig
  unfold IsV2i Context.getFaceIdFor
  rw [hmap]

/-- The face of a relay is the V2I face only if an RSU is available. -/
theorem relayOn_v2i {node : Node F} (hnodup : (node.ctx.faceContextMap.map Prod.fst).Nodup)
    {data data' : Data F} {ingress face : NfdFace} {senderType : NodeType}
    (h : relayOn node data ingress senderType = (some face, data'))
    (hv2i : node.IsV2i face.faceId) :
    node.ctx.isRsuAvailable = true := by
  unfold relayOn at h
  split at h
  · rename_i hcond
    exact hcond.2.2
  · simp only at h
    split at h
    · rename_i hv2v
      have hfind := (Prod.mk.inj h).1
      have hid : face.faceId = node.ctx.getFaceIdFor .v2v := by simpa using List.find?_some hfind
      have hsame := Context.getFaceIdFor_inj hnodup (hid.symm.trans hv2i.2) hv2v
      cases hsame
    · cases h

section Case

variable {infra : Infrastructure F} {node : Node F} {ev : NodeEvent F} {o : Outcome F}

theorem Case.isRsuAvailable_eq (hc : Case infra node ev o) (hev : ∀ b, ev ≠ .hello b) :
    o.node.ctx.isRsuAvailable = node.ctx.isRsuAvailable := by
  cases hc with
  | geographic _ _ _ hcase =>
      cases hcase with
      | cancelled _ _ _ _ _ => exact node.cancel_isRsuAvailable _
      | _ => rfl
  | hello available => exact absurd rfl (hev available)
  | _ => rfl

/-- A relay for the V2I face is scheduled only while an RSU is available. -/
theorem Case.pending_v2i (hc : Case infra node ev o)
    (hnodup : (node.ctx.faceContextMap.map Prod.fst).Nodup) {d : Deferred F}
    (hd : d ∈ o.node.events) (hv2i : node.IsV2i d.egress) :
    d ∈ node.events ∨ node.ctx.isRsuAvailable = true := by
  cases hc with
  | geographic _ _ _ hcase =>
      cases hcase with
      | cancelled _ _ _ hreg _ =>
          obtain ⟨id, hid⟩ := Option.isSome_iff_exists.mp (AList.lookup_isSome.mpr hreg)
          rw [drop_node, (cancel_of_lookup hid).2] at hd
          exact Or.inl (List.mem_filter.mp hd).1
      | deferred _ _ _ _ _ _ hface =>
          rw [schedule_events, List.mem_append, List.mem_singleton] at hd
          rcases hd with hd | rfl
          · exact Or.inl hd
          · exact Or.inr (relayOn_v2i hnodup hface hv2i)
      | _ => exact Or.inl hd
  | fired _ => exact Or.inl (List.mem_filter.mp hd).1
  | _ => exact Or.inl hd

end Case

/-- A transmission on the V2I face without an RSU is a relay that fires or an
alert for the neighbours. -/
theorem Step.stale {infra : Infrastructure F} {node node' : Node F} {l : Label F}
    (hv : node.ctx.type = .vehicle) (hnodup : (node.ctx.faceContextMap.map Prod.fst).Nodup)
    (h : Step infra node l node') (hno : node.ctx.isRsuAvailable = false) {out : Outgoing F}
    (hout : out ∈ l.2.sent) (hv2i : node.IsV2i out.egress) :
    node.Announces l.1 ∨ ∃ id d, l.1 = .expire id ∧
      node.events.find? (fun d => d.id = id) = some d ∧ d.egress = out.egress := by
  obtain ⟨⟨fuel, hf⟩, rfl⟩ := h
  obtain ⟨ev, o⟩ := l
  cases ev with
  | receive now data ingress =>
      refine Or.inl ?_
      cases handle_cases hv hf with
      | geographic _ _ _ hcase =>
          cases hcase with
          | origin sent _ _ hsent =>
              simp only [hno, Bool.false_eq_true, if_false] at hsent
              rcases sendOn_ok hsent with rfl | rfl
              · cases hout
              · obtain rfl := List.mem_singleton.mp hout
                have hsame := Context.getFaceIdFor_inj hnodup hv2i.2 hv2i.1
                cases hsame
          | _ => cases hout
      | ignored hcond _ =>
          simp only [handle, onIncomingAlert] at hf
          split at hf
          · cases Except.ok.inj hf
            cases hout
          · rename_i hz
            split at hf
            · cases Except.ok.inj hf
              cases hout
            · rename_i hscope
              cases Except.ok.inj hf
              obtain ⟨face, hface, rfl⟩ := List.mem_map.mp hout
              obtain ⟨hface, hnl⟩ := List.mem_filter.mp hface
              exact ⟨hz, hscope, face, hface, by simpa using hnl, hv2i⟩
          · rename_i zor hnn hz
            rcases hcond with hcond | ⟨_, rfl, _⟩
            · cases zor with
              | neighbor => exact absurd rfl hnn
              | _ => exact absurd trivial (hcond _ hz)
            · cases hout
  | expire id =>
      refine Or.inr ?_
      simp only [handle, Except.ok.injEq] at hf
      subst hf
      unfold expire at hout
      cases hfind : node.events.find? fun d => d.id = id with
      | none =>
          simp only [hfind] at hout
          cases hout
      | some d =>
          simp only [hfind] at hout
          obtain rfl := List.mem_singleton.mp hout
          exact ⟨id, d, rfl, hfind, rfl⟩
  | hello available =>
      cases Except.ok.inj hf
      cases hout
  | move pos =>
      cases Except.ok.inj hf
      cases hout

/-! ## Runs of a vehicle -/

/-- Every transmission of the run on the V2I face finds an RSU available. -/
def HandsOffFresh (infra : Infrastructure F) (node : Node F) (ls : List (Label F)) : Prop :=
  ∀ pre l post mid, ls = pre ++ l :: post → Run (Step infra) node pre mid →
    ∀ out ∈ l.2.sent, mid.IsV2i out.egress → mid.ctx.isRsuAvailable = true

/-- A relay that is pending for the V2I face when a hello timeout strikes
fires before the next hello. -/
def Outlives (infra : Infrastructure F) (node : Node F) (ls : List (Label F)) : Prop :=
  ∃ pre timeout mid id o post before after d,
    ls = (pre ++ (.hello false, timeout) :: mid) ++ (.expire id, o) :: post ∧
      (∀ l ∈ mid, l.1 ≠ .hello true) ∧ Run (Step infra) node pre before ∧
      Run (Step infra) node (pre ++ (.hello false, timeout) :: mid) after ∧ d ∈ before.events ∧
      after.events.find? (fun d => d.id = id) = some d ∧ before.IsV2i d.egress

theorem Run.config_eq {infra : Infrastructure F} {node node' : Node F} {ls : List (Label F)}
    (h : Run (Step infra) node ls node') : node'.config = node.config := by
  refine h.invariant (fun _ n => n.config = node.config) rfl ?_
  intro ms t l v rest _ _ ht hstep
  obtain ⟨hstep, rfl⟩ := hstep
  exact (Handles.effect hstep).config_eq.trans ht

/-- Between two hellos the flag stays down. -/
theorem Run.unavailable {infra : Infrastructure F} {node node' : Node F} {ls : List (Label F)}
    (hv : node.ctx.type = .vehicle) (hno : node.ctx.isRsuAvailable = false)
    (h : Run (Step infra) node ls node') (hls : ∀ l ∈ ls, l.1 ≠ .hello true) :
    node'.ctx.isRsuAvailable = false := by
  refine h.invariant (fun _ n => n.ctx.isRsuAvailable = false) hno ?_
  intro ms t l v rest heq hrun ht hstep
  obtain ⟨hc, rfl⟩ := Case.of_step (Run.type_eq hv hrun) hstep
  by_cases hhello : ∃ b, l.1 = .hello b
  · obtain ⟨b, hb⟩ := hhello
    cases b with
    | true => exact absurd hb (hls l (by simp [heq]))
    | false =>
        obtain ⟨⟨fuel, hf⟩, _⟩ := hstep
        rw [hb] at hf
        rw [← Except.ok.inj hf]
        rfl
  · rw [hc.isRsuAvailable_eq fun b hb => hhello ⟨b, hb⟩]
    exact ht

/-- While no RSU is available, each relay pending for the V2I face was
already pending at the last hello timeout. -/
theorem Run.pending_v2i {infra : Infrastructure F} {node node' : Node F} {ls : List (Label F)}
    (hv : node.ctx.type = .vehicle) (hnodup : (node.ctx.faceContextMap.map Prod.fst).Nodup)
    (hev : node.events = []) (h : Run (Step infra) node ls node') :
    ∀ d ∈ node'.events, node.IsV2i d.egress → node'.ctx.isRsuAvailable = true ∨
      ∃ pre timeout mid before, ls = pre ++ (.hello false, timeout) :: mid ∧
        (∀ l ∈ mid, l.1 ≠ .hello true) ∧ Run (Step infra) node pre before ∧ d ∈ before.events := by
  refine h.invariant (fun ms n => ∀ d ∈ n.events, node.IsV2i d.egress →
    n.ctx.isRsuAvailable = true ∨ ∃ pre timeout mid before,
      ms = pre ++ (.hello false, timeout) :: mid ∧ (∀ l ∈ mid, l.1 ≠ .hello true) ∧
        Run (Step infra) node pre before ∧ d ∈ before.events) (by simp [hev]) ?_
  intro ms t l v rest _ hrun ht hstep d hd hv2i
  obtain ⟨hc, rfl⟩ := Case.of_step (Run.type_eq hv hrun) hstep
  have hconfig := Run.config_eq hrun
  have hmap : t.ctx.faceContextMap = node.ctx.faceContextMap :=
    congrArg Config.faceContextMap hconfig
  by_cases hhello : ∃ b, l.1 = .hello b
  · obtain ⟨b, hb⟩ := hhello
    obtain ⟨⟨fuel, hf⟩, _⟩ := hstep
    obtain ⟨ev, o⟩ := l
    simp only at hb hf hd ⊢
    subst hb
    obtain rfl := Except.ok.inj hf
    cases b with
    | true => exact Or.inl rfl
    | false => exact Or.inr ⟨ms, _, [], t, rfl, by simp, hrun, hd⟩
  · have hsame := hc.isRsuAvailable_eq fun b hb => hhello ⟨b, hb⟩
    rw [hsame]
    have hold := hc.pending_v2i (hmap ▸ hnodup) hd ((isV2i_congr hconfig _).mpr hv2i)
    rcases hold with hold | hold
    · rcases ht d hold hv2i with ht | ⟨pre, timeout, mid, before, rfl, hmid, hpre, hbefore⟩
      · exact Or.inl ht
      · refine Or.inr ⟨pre, timeout, mid ++ [l], before, by simp, ?_, hpre, hbefore⟩
        intro l' hl'
        rcases List.mem_append.mp hl' with hl' | hl'
        · exact hmid l' hl'
        · rw [List.mem_singleton.mp hl']
          exact fun hb => hhello ⟨true, hb⟩
    · exact Or.inl hold

/-- A relay that outlives the RSU is sent to nobody. -/
theorem Outlives.not_fresh {infra : Infrastructure F} {node : Node F} {ls : List (Label F)}
    (hv : node.ctx.type = .vehicle) (hrun : ∃ node', Run (Step infra) node ls node')
    (h : Outlives infra node ls) : ¬ HandsOffFresh infra node ls := by
  intro hfresh
  obtain ⟨pre, timeout, mid, id, o, post, before, after, d, rfl, hmid, hpre, hafter, _, hfind,
    hv2i⟩ := h
  obtain ⟨node', hrun⟩ := hrun
  have hsplit := Run.append_iff.mp hafter
  obtain ⟨t, ht, hrest⟩ := hsplit
  obtain rfl := hpre.unique (fun _ _ _ _ => Step.unique) ht
  obtain ⟨s, hs, hrest⟩ := Run.cons_iff.mp hrest
  have hdown : s.ctx.isRsuAvailable = false := by
    obtain ⟨⟨fuel, hf⟩, rfl⟩ := hs
    rw [← Except.ok.inj hf]
    rfl
  have hvs : s.ctx.type = .vehicle := Run.type_eq hv (hpre.snoc hs)
  have hno := Run.unavailable hvs hdown hrest hmid
  obtain ⟨t', ht', hfire⟩ := Run.append_iff.mp hrun
  obtain rfl := hafter.unique (fun _ _ _ _ => Step.unique) ht'
  obtain ⟨u, ⟨⟨fuel, hf⟩, _⟩, _⟩ := Run.cons_iff.mp hfire
  simp only [handle, expire, hfind, Except.ok.injEq] at hf
  have hout : after.IsV2i d.egress := by
    rw [isV2i_congr (Run.config_eq hafter), ← isV2i_congr (Run.config_eq hpre)]
    exact hv2i
  have hyes := hfresh _ _ _ after rfl hafter (after.onOutgoingAlert d.data d.egress)
    (by rw [← hf]; exact List.mem_singleton.mpr rfl) hout
  rw [hno] at hyes
  cases hyes

/-- An alert for the neighbours is sent on all faces at once. -/
theorem Announces.sent {infra : Infrastructure F} {node node' : Node F} {l : Label F}
    (h : node.Announces l.1) (hstep : Step infra node l node') :
    ∃ out ∈ l.2.sent, node.IsV2i out.egress := by
  obtain ⟨⟨fuel, hf⟩, _⟩ := hstep
  obtain ⟨ev, o⟩ := l
  cases ev with
  | receive now data ingress =>
      obtain ⟨hz, hscope, face, hface, hnl, hv2i⟩ := h
      simp only [handle, onIncomingAlert, hz, if_neg hscope, Except.ok.injEq] at hf
      refine ⟨node.onOutgoingAlert data face.faceId, ?_, hv2i⟩
      rw [← hf]
      exact List.mem_map.mpr ⟨face, List.mem_filter.mpr ⟨hface, by simpa using hnl⟩, rfl⟩
  | _ => exact h.elim

end Node

/-- Over the runs of a vehicle that starts with no pending relay: every
transmission on the V2I face finds an RSU available iff no relay pending for
that face at a hello timeout fires before the next hello, and no alert for
the neighbours is published while no RSU is available. -/
theorem hands_off_fresh_iff {infra : Infrastructure F} {node node' : Node F}
    {ls : List (Node.Label F)} (hv : node.ctx.type = .vehicle)
    (hnodup : (node.ctx.faceContextMap.map Prod.fst).Nodup) (hev : node.events = [])
    (hrun : Run (Node.Step infra) node ls node') :
    Node.HandsOffFresh infra node ls ↔ ¬ Node.Outlives infra node ls ∧
      ∀ pre l post mid, ls = pre ++ l :: post → Run (Node.Step infra) node pre mid →
        mid.Announces l.1 → mid.ctx.isRsuAvailable = true := by
  constructor
  · intro hfresh
    refine ⟨fun hout => hout.not_fresh hv ⟨node', hrun⟩ hfresh, ?_⟩
    intro pre l post mid heq hpre hann
    subst heq
    obtain ⟨mid', hpre', hrest⟩ := Run.append_iff.mp hrun
    obtain rfl := hpre.unique (fun _ _ _ _ => Node.Step.unique) hpre'
    obtain ⟨next, hstep, _⟩ := Run.cons_iff.mp hrest
    obtain ⟨out, hout, hv2i⟩ := hann.sent hstep
    exact hfresh pre l post mid rfl hpre out hout hv2i
  · rintro ⟨hlives, hann⟩ pre l post mid heq hpre out hout hv2i
    cases hno : mid.ctx.isRsuAvailable with
    | true => rfl
    | false =>
        have heq' := heq
        subst heq'
        obtain ⟨mid', hpre', hrest⟩ := Run.append_iff.mp hrun
        obtain rfl := hpre.unique (fun _ _ _ _ => Node.Step.unique) hpre'
        obtain ⟨next, hstep, _⟩ := Run.cons_iff.mp hrest
        have hconfig := Node.Run.config_eq hpre
        have hmap : mid.ctx.faceContextMap = node.ctx.faceContextMap :=
          congrArg Node.Config.faceContextMap hconfig
        rcases Node.Step.stale (Node.Run.type_eq hv hpre) (hmap ▸ hnodup) hstep hno hout hv2i with
          hst | ⟨id, d, hl, hfind, hegress⟩
        · exact absurd (hann pre l post mid rfl hpre hst) (by simp [hno])
        · have hnode : node.IsV2i d.egress := by
            rw [hegress]
            exact (Node.isV2i_congr hconfig _).mp hv2i
          rcases Node.Run.pending_v2i hv hnodup hev hpre d (List.mem_of_find?_eq_some hfind) hnode
            with hyes | ⟨pre', timeout, mid', before, rfl, hmid, hpre', hbefore⟩
          · simp [hno] at hyes
          · refine absurd ⟨pre', timeout, mid', id, l.2, post, before, mid, d, ?_, hmid, hpre',
              hpre, hbefore, hfind, (Node.isV2i_congr (Node.Run.config_eq hpre') _).mpr
                hnode⟩ hlives
            rw [← hl]

/-! ## A relay that outlives the RSU

The vehicle hears a hello and then an alert; the relay is scheduled for the
V2I face. -/

namespace HandOff

noncomputable def start : Node ℝ :=
  { Evicted.start with
    ctx := { Context.init ℝ with type := .vehicle, faceContextMap := [(2, .v2i), (1, .v2v)] }
    faceTable := [⟨1, .nonLocal⟩, ⟨2, .nonLocal⟩] }

/-- With the flag set to `available`. -/
noncomputable def told (available : Bool) (node : Node ℝ) : Node ℝ :=
  { node with ctx := { node.ctx with isRsuAvailable := available } }

noncomputable def heard : Node ℝ :=
  ((told true start).insertAlert ⟨(Evicted.alert 97).name, .vehicle, ⟨1, 0⟩⟩).schedule
    (0 + deferDelay start.ctx 100 (Point.distanceFromPoint (⟨0, 0⟩ : Point ℝ) ⟨1, 0⟩))
    (Evicted.alert 97) 2

noncomputable def hello (available : Bool) (node : Node ℝ) : Node.Label ℝ :=
  (.hello available, (told available node).drop)

noncomputable def hears : Node.Label ℝ :=
  (.receive 0 (Evicted.alert 97) ⟨1, .nonLocal⟩, ⟨heard, [], Evicted.zone.contains ⟨0, 0⟩⟩)

noncomputable def fires (node : Node ℝ) : Node.Label ℝ := (.expire 0, node.expire 0)

theorem step_hello (infra : Infrastructure ℝ) (available : Bool) (node : Node ℝ) :
    Node.Step infra node (hello available node) (told available node) := ⟨⟨0, rfl⟩, rfl⟩

theorem step_fires (infra : Infrastructure ℝ) (node : Node ℝ) :
    Node.Step infra node (fires node) (node.expire 0).node := ⟨⟨0, rfl⟩, rfl⟩

theorem step_hears (infra : Infrastructure ℝ) :
    Node.Step infra (told true start) hears heard := by
  have hc : VehicleCase 0 (Evicted.alert 97) ⟨1, .nonLocal⟩ Evicted.zone (told true start) ⟨0, 0⟩
      ⟨heard, [], Evicted.zone.contains ⟨0, 0⟩⟩ := by
    refine .deferred ⟨1, 0⟩ ⟨2, .nonLocal⟩ (Evicted.alert 97) rfl ?_
      (fun h => h.1 Evicted.zone_contains) rfl
    simp [told, start, Context.init, AlertStore.isDuplicate, AlertStore.names]
  exact Node.step_of_case rfl rfl trivial rfl (by simp [Evicted.alert]) hc

end HandOff

theorem hands_off_fresh_iff_one : ∃ ls node', Run (Node.Step ⟨∅, ∅⟩) HandOff.start ls node' ∧
    ls.length = 3 ∧ (Node.HandsOffFresh ⟨∅, ∅⟩ HandOff.start ls ↔
      ¬ Node.Outlives ⟨∅, ∅⟩ HandOff.start ls ∧
        ∀ pre l post mid, ls = pre ++ l :: post →
          Run (Node.Step ⟨∅, ∅⟩) HandOff.start pre mid →
            mid.Announces l.1 → mid.ctx.isRsuAvailable = true) := by
  have hrun := ((Run.nil.snoc (HandOff.step_hello ⟨∅, ∅⟩ true HandOff.start)).snoc
    (HandOff.step_hears ⟨∅, ∅⟩)).snoc (HandOff.step_fires ⟨∅, ∅⟩ HandOff.heard)
  exact ⟨_, _, hrun, rfl,
    hands_off_fresh_iff rfl (by simp [HandOff.start]) rfl hrun⟩

/-- A relay deferred while an RSU was available may be handed to nobody. -/
theorem not_hands_off_fresh : ¬ ∀ (infra : Infrastructure ℝ) (node node' : Node ℝ)
    (ls : List (Node.Label ℝ)), node.ctx.type = .vehicle →
      (node.ctx.faceContextMap.map Prod.fst).Nodup → node.events = [] →
        Run (Node.Step infra) node ls node' → Node.HandsOffFresh infra node ls := by
  intro hall
  have hpre := ((Run.nil.snoc (HandOff.step_hello ⟨∅, ∅⟩ true HandOff.start)).snoc
    (HandOff.step_hears ⟨∅, ∅⟩)).snoc (HandOff.step_hello ⟨∅, ∅⟩ false HandOff.heard)
  have hrun := hpre.snoc (HandOff.step_fires ⟨∅, ∅⟩ _)
  have hyes := hall _ _ _ _ rfl (by simp [HandOff.start]) rfl hrun _ _ [] _ rfl hpre
    _ (List.mem_singleton.mpr rfl) ⟨by decide, rfl⟩
  cases hyes

end Cafe
