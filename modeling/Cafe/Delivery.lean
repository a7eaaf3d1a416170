import Cafe.VehicleNode

/-!
# Delivery to the local consumers

The store of a vehicle over a run, and the verdicts on the copies of one
alert: the first copy decides, every further one is a duplicate.
-/

open Labelled

namespace Cafe

variable {F : Type} [Arith F]

/-- The geographic alert of which a copy arrives. -/
def NodeEvent.alert : NodeEvent F → Option (Name F)
  | .receive _ data _ =>
      match extractZoR data.name with
      | none => none
      | some .neighbor => none
      | some _ => some data.name
  | _ => none

omit [Arith F] in
theorem NodeEvent.alert_receive (now : ℕ) {data : Data F} (ingress : NfdFace) {zor : ZoR F}
    (hz : extractZoR data.name = some zor) (hgeo : zor.IsGeographic) :
    (NodeEvent.receive now data ingress).alert = some data.name := by
  cases zor with
  | neighbor => exact hgeo.elim
  | _ => simp only [NodeEvent.alert, hz]

omit [Arith F] in
theorem NodeEvent.alert_eq_some {ev : NodeEvent F} {name : Name F} (h : ev.alert = some name) :
    ∃ now data ingress, ev = .receive now data ingress ∧ data.name = name := by
  cases ev with
  | receive now data ingress =>
      refine ⟨now, data, ingress, rfl, ?_⟩
      simp only [NodeEvent.alert] at h
      split at h
      · cases h
      · cases h
      · exact Option.some.inj h
  | _ => cases h

namespace Node

/-- The steps of a run that handle a copy of the alert. -/
def copies (name : Name F) (ls : List (Label F)) : List (Label F) :=
  ls.filter fun l => l.1.alert = some name

/-- Whether the vehicle is inside the zone when it handles the first of these
copies. -/
def insideAtFirst (zor : ZoR F) : List (Label F) → Bool
  | [] => false
  | first :: _ => first.2.node.checkInside zor

/-- Nothing is evicted in the run: the alerts in the store and those that
arrive fit into the store. -/
structure NoEviction (names : Finset (Name F)) (node : Node F) (ls : List (Label F)) : Prop where
  room : node.ctx.alertStore.Room names
  alerts : ∀ l ∈ ls, ∀ name, l.1.alert = some name → name ∈ names

/-- The store changes by the insertion of the arriving alert only. -/
theorem Case.store {infra : Infrastructure F} {node : Node F} {ev : NodeEvent F} {o : Outcome F}
    (hc : Case infra node ev o) : o.node.ctx.alertStore = node.ctx.alertStore ∨
      ∃ entry, ev.alert = some entry.name ∧
        o.node.ctx.alertStore = node.ctx.alertStore.insertOrUpdate entry := by
  cases hc with
  | @geographic now data ingress zor nodePos o hz hgeo hm hcase =>
      have halert := NodeEvent.alert_receive now ingress hz hgeo
      cases hcase with
      | noSender _ _ => exact Or.inl rfl
      | cancelled _ _ _ _ _ => exact Or.inl (node.cancel_alertStore _)
      | duplicate _ _ _ _ => exact Or.inl rfl
      | origin _ _ _ _ => exact Or.inr ⟨_, halert, rfl⟩
      | closer _ _ _ _ _ => exact Or.inr ⟨_, halert, rfl⟩
      | noFace _ _ _ _ _ => exact Or.inr ⟨_, halert, rfl⟩
      | deferred _ _ _ _ _ _ _ => exact Or.inr ⟨_, halert, rfl⟩
  | _ => exact Or.inl rfl

theorem Case.room {infra : Infrastructure F} {node : Node F} {ev : NodeEvent F} {o : Outcome F}
    (hc : Case infra node ev o) {names : Finset (Name F)} (h : node.ctx.alertStore.Room names)
    (hev : ∀ name, ev.alert = some name → name ∈ names) :
    o.node.ctx.alertStore.Room names ∧
      (∀ name, node.ctx.alertStore.isDuplicate name → o.node.ctx.alertStore.isDuplicate name) ∧
      ∀ name, o.node.ctx.alertStore.isDuplicate name →
        node.ctx.alertStore.isDuplicate name ∨ ev.alert = some name :=
  h.of_store hc.store hev

theorem Run.room {infra : Infrastructure F} {node node' : Node F} {ls : List (Label F)}
    (hv : node.ctx.type = .vehicle) {names : Finset (Name F)} (hno : NoEviction names node ls)
    (h : Run (Step infra) node ls node') : node'.ctx.alertStore.Room names := by
  refine h.invariant (fun _ n => n.ctx.alertStore.Room names) hno.room ?_
  intro ms t l v rest heq hrun ht hstep
  obtain ⟨hc, rfl⟩ := Case.of_step (Run.type_eq hv hrun) hstep
  exact (hc.room ht fun name hname => hno.alerts l (by simp [heq]) name hname).1

theorem Case.mobility_isSome {infra : Infrastructure F} {node : Node F} {ev : NodeEvent F}
    {o : Outcome F} (hc : Case infra node ev o) (h : node.mobility.isSome) :
    o.node.mobility.isSome := by
  cases hc with
  | geographic _ _ _ hcase =>
      cases hcase with
      | cancelled _ _ _ _ _ => simpa [drop] using h
      | _ => exact h
  | move pos => simpa [drop] using h
  | _ => exact h

theorem Case.mobility_of_static {infra : Infrastructure F} {node : Node F} {ev : NodeEvent F}
    {o : Outcome F} (hc : Case infra node ev o) (hstatic : ∀ pos, ev ≠ .move pos) :
    o.node.mobility = node.mobility := by
  cases hc with
  | geographic _ _ _ hcase =>
      cases hcase with
      | cancelled _ _ _ _ _ => exact node.cancel_mobility _
      | _ => rfl
  | move pos => exact absurd rfl (hstatic pos)
  | _ => rfl

theorem Case.mobility_eq {infra : Infrastructure F} {node : Node F} {now : ℕ} {data : Data F}
    {ingress : NfdFace} {o : Outcome F} (hc : Case infra node (.receive now data ingress) o) :
    o.node.mobility = node.mobility := by
  cases hc with
  | geographic _ _ _ hcase =>
      cases hcase with
      | cancelled _ _ _ _ _ => exact node.cancel_mobility _
      | _ => rfl
  | ignored _ => rfl

/-- The first copy of an alert is relevant iff the vehicle is inside the
zone, and it enters the store. -/
theorem Case.first_copy {infra : Infrastructure F} {node : Node F} {now : ℕ} {data : Data F}
    {ingress : NfdFace} {o : Outcome F} {zor : ZoR F}
    (hc : Case infra node (.receive now data ingress) o) (hz : extractZoR data.name = some zor)
    (hgeo : zor.IsGeographic) (hm : node.mobility.isSome) (hpos : data.senderPos ≠ none)
    (hnew : ¬ node.ctx.alertStore.isDuplicate data.name) :
    o.relevant = o.node.checkInside zor ∧ ∃ entry, entry.name = data.name ∧
      data.senderPos = some entry.senderPos ∧
      o.node.ctx.alertStore = node.ctx.alertStore.insertOrUpdate entry := by
  cases hc with
  | @geographic _ _ _ zor' nodePos _ hz' hgeo' hm' hcase =>
      obtain rfl := Option.some.inj (hz.symm.trans hz')
      cases hcase with
      | noSender hnone _ => exact absurd hnone hpos
      | origin _ hnone _ _ => exact absurd hnone hpos
      | cancelled _ _ hdup _ _ => exact absurd hdup hnew
      | duplicate _ _ hdup _ => exact absurd hdup hnew
      | closer senderPos hsp _ hout _ =>
          refine ⟨?_, _, rfl, hsp, rfl⟩
          simp [drop, checkInside, hm', hout]
      | noFace senderPos hsp _ _ _ =>
          refine ⟨?_, _, rfl, hsp, rfl⟩
          simp [checkInside, hm']
      | deferred senderPos face data' hsp _ _ _ =>
          refine ⟨?_, _, rfl, hsp, rfl⟩
          simp [checkInside, schedule, hm']
  | ignored hno =>
      rcases hno with hno | hno
      · exact absurd hgeo (hno zor hz)
      · simp [hno.1] at hm

theorem Case.further_copy {infra : Infrastructure F} {node : Node F} {now : ℕ} {data : Data F}
    {ingress : NfdFace} {o : Outcome F} {zor : ZoR F}
    (hc : Case infra node (.receive now data ingress) o) (hz : extractZoR data.name = some zor)
    (hgeo : zor.IsGeographic) (hm : node.mobility.isSome) (hpos : data.senderPos ≠ none)
    (hdup : node.ctx.alertStore.isDuplicate data.name) : o.relevant = false := by
  cases hc with
  | @geographic _ _ _ zor' nodePos _ hz' hgeo' hm' hcase =>
      cases hcase with
      | noSender hnone _ => exact absurd hnone hpos
      | origin _ hnone _ _ => exact absurd hnone hpos
      | cancelled _ _ _ _ _ => rfl
      | duplicate _ _ _ _ => rfl
      | closer _ _ hnew _ _ => exact absurd hdup hnew
      | noFace _ _ hnew _ _ => exact absurd hdup hnew
      | deferred _ _ _ _ hnew _ _ => exact absurd hdup hnew
  | ignored hno =>
      rcases hno with hno | hno
      · exact absurd hgeo (hno zor hz)
      · simp [hno.1] at hm

/-- What the copies of an alert met so far say about the store and about the
verdicts. -/
inductive Verdicts (name : Name F) (zor : ZoR F) (node : Node F) : List (Label F) → Prop
  | none (hnew : ¬ node.ctx.alertStore.isDuplicate name) : Verdicts name zor node []
  | some (first : Label F) (further : List (Label F))
      (hdup : node.ctx.alertStore.isDuplicate name)
      (hfirst : first.2.relevant = first.2.node.checkInside zor)
      (hfurther : ∀ l ∈ further, l.2.relevant = false) : Verdicts name zor node (first :: further)

/-- A run of a vehicle, with the assumptions on the copies of one alert. -/
structure Hears (infra : Infrastructure F) (name : Name F) (zor : ZoR F) (node node' : Node F)
    (ls : List (Label F)) : Prop where
  type : node.ctx.type = .vehicle
  mobility : node.mobility.isSome
  zone : extractZoR name = some zor
  geographic : zor.IsGeographic
  new : ¬ node.ctx.alertStore.isDuplicate name
  noEviction : ∃ names, NoEviction names node ls
  senderPos : ∀ l ∈ ls, ∀ now data ingress, l.1 = .receive now data ingress → data.name = name →
    data.senderPos ≠ none
  run : Run (Step infra) node ls node'

theorem Hears.verdicts {infra : Infrastructure F} {name : Name F} {zor : ZoR F}
    {node node' : Node F} {ls : List (Label F)} (h : Hears infra name zor node node' ls) :
    Verdicts name zor node' (copies name ls) := by
  obtain ⟨names, hno⟩ := h.noEviction
  have hinv :=
    h.run.invariant (fun ms n => n.mobility.isSome ∧ Verdicts name zor n (copies name ms))
    ⟨h.mobility, .none h.new⟩ ?_
  · exact hinv.2
  rintro ms t l v rest heq hrun ⟨hm, hver⟩ hstep
  have hl : l ∈ ls := by simp [heq]
  have hroom : t.ctx.alertStore.Room names := by
    refine Run.room h.type ⟨hno.room, fun l' hl' => hno.alerts l' ?_⟩ hrun
    simp [heq, hl']
  obtain ⟨hc, rfl⟩ := Case.of_step (Run.type_eq h.type hrun) hstep
  obtain ⟨_, hmono, hback⟩ := hc.room hroom fun n hn => hno.alerts l hl n hn
  refine ⟨hc.mobility_isSome hm, ?_⟩
  by_cases halert : l.1.alert = some name
  · have hcopies : copies name (ms ++ [l]) = copies name ms ++ [l] := by
      simp [copies, List.filter_append, halert]
    rw [hcopies]
    obtain ⟨now, data, ingress, hev, rfl⟩ := NodeEvent.alert_eq_some halert
    have hpos := h.senderPos l hl now data ingress hev rfl
    rw [hev] at hc
    generalize hcs : copies data.name ms = cs at hver ⊢
    cases hver with
    | none hnew =>
        obtain ⟨hrel, entry, hname, _, hstore⟩ := hc.first_copy h.zone h.geographic hm hpos hnew
        refine .some l [] ?_ hrel (by simp)
        rw [hstore]
        exact ((hroom.insertOrUpdate entry
          (hname ▸ hno.alerts l hl _ halert)).2 _).mpr (Or.inl hname.symm)
    | some first further hdup hfirst hfurther =>
        refine .some first (further ++ [l]) (hmono _ hdup) hfirst ?_
        intro l' hl'
        rcases List.mem_append.mp hl' with hl' | hl'
        · exact hfurther l' hl'
        · rw [List.mem_singleton.mp hl']
          exact hc.further_copy h.zone h.geographic hm hpos hdup
  · have hcopies : copies name (ms ++ [l]) = copies name ms := by
      simp [copies, List.filter_append, halert]
    rw [hcopies]
    generalize copies name ms = cs at hver ⊢
    cases hver with
    | none hnew =>
        exact .none fun hd => (hback name hd).elim hnew halert
    | some first further hdup hfirst hfurther =>
        exact .some first further (hmono _ hdup) hfirst hfurther

end Node

/-- The alert is passed on once if the vehicle is inside the zone when it
handles the first copy, and never otherwise. -/
theorem delivered_by_first_copy {infra : Infrastructure F} {name : Name F} {zor : ZoR F}
    {node node' : Node F} {ls : List (Node.Label F)}
    (h : Node.Hears infra name zor node node' ls) :
    ((Node.copies name ls).countP fun l => l.2.relevant) =
      if Node.insideAtFirst zor (Node.copies name ls) then 1 else 0 := by
  have hver := h.verdicts
  generalize Node.copies name ls = cs at hver ⊢
  cases hver with
  | none _ => rfl
  | some first further _ hfirst hfurther =>
      have hzero : further.countP (fun l => l.2.relevant) = 0 :=
        List.countP_eq_zero.mpr fun l hl => by simp [hfurther l hl]
      rw [List.countP_cons, hzero, hfirst, Nat.zero_add, Node.insideAtFirst]

/-! ## A vehicle that enters the zone after the first copy -/

namespace Entering

noncomputable def start : Node ℝ :=
  { Evicted.start with
    mobility := some ⟨(20 : ℕ), 0⟩
    ctx := { Evicted.start.ctx with alertStore := (Context.init ℝ).alertStore } }

def alert : Data ℝ := { Evicted.alert 97 with senderPos := some ⟨40, 0⟩ }

def copy : NodeEvent ℝ := .receive 0 alert ⟨1, .nonLocal⟩

theorem start_outside : start.checkInside Evicted.zone = false := by
  have h : ¬ √((20 : ℝ) ^ 2) ≤ 10 := by
    rw [Real.sqrt_sq (by norm_num)]
    norm_num
  simpa [start, Node.checkInside, Evicted.zone, ZoR.contains, Point.distanceFromPoint,
    Arith.hypot] using h

/-- A copy, the move into the zone, and a second copy. -/
theorem run : ∃ o₁ o₂ o₃ node', Node.Hears ⟨∅, ∅⟩ alert.name Evicted.zone start node'
      [(copy, o₁), (.move ⟨0, 0⟩, o₂), (copy, o₃)] ∧
    o₁.node.checkInside Evicted.zone = false ∧ o₃.node.checkInside Evicted.zone = true := by
  have hreceive : ∀ node : Node ℝ, node.ctx.type = .vehicle →
      ∃ o, Node.Step ⟨∅, ∅⟩ node (copy, o) o.node := by
    intro node hv
    obtain ⟨o, ho⟩ := alertVehicleHandler_total 0 alert ⟨1, .nonLocal⟩ Evicted.zone node
      (by simp [alert])
    have hz : extractZoR alert.name = some Evicted.zone := rfl
    exact ⟨o, ⟨0, (onIncomingAlert_vehicle hz trivial hv).trans ho⟩, rfl⟩
  obtain ⟨o₁, h₁⟩ := hreceive start rfl
  have hv₀ : start.ctx.type = .vehicle := rfl
  have hc₁ := (Node.Case.of_step hv₀ h₁).1
  have hm₁ : o₁.node.mobility = start.mobility := hc₁.mobility_eq
  have hv₁ : o₁.node.ctx.type = .vehicle := hc₁.type_eq
  let moved : Node ℝ := { o₁.node with mobility := o₁.node.mobility.map fun _ => ⟨0, 0⟩ }
  have h₂ : Node.Step ⟨∅, ∅⟩ o₁.node (.move ⟨0, 0⟩, moved.drop) moved := ⟨⟨0, rfl⟩, rfl⟩
  obtain ⟨o₃, h₃⟩ := hreceive moved hv₁
  have hv₂ : moved.ctx.type = .vehicle := hv₁
  have hc₃ := (Node.Case.of_step hv₂ h₃).1
  have hm₃ : o₃.node.mobility = some ⟨0, 0⟩ := by
    rw [hc₃.mobility_eq]
    simp [moved, hm₁, start]
  have hrun := ((Run.nil.snoc h₁).snoc h₂).snoc h₃
  refine ⟨o₁, moved.drop, o₃, o₃.node,
    ⟨rfl, rfl, rfl, trivial, ?_, ⟨{alert.name}, ?_, ?_⟩, ?_, hrun⟩, ?_, ?_⟩
  · simp [start, Context.init, AlertStore.isDuplicate, AlertStore.names]
  · exact ⟨by simp [start, Context.init, AlertStore.isDuplicate, AlertStore.names],
      by simp [start, Context.init]⟩
  · intro l hl name hname
    have hcopy : copy.alert = some alert.name := NodeEvent.alert_receive _ _ rfl trivial
    have hmove : (NodeEvent.move ⟨0, 0⟩ : NodeEvent ℝ).alert = none := rfl
    simp only [List.mem_cons, List.not_mem_nil, or_false] at hl
    rcases hl with rfl | rfl | rfl
    · rw [hcopy] at hname
      simp [Option.some.inj hname]
    · rw [hmove] at hname
      cases hname
    · rw [hcopy] at hname
      simp [Option.some.inj hname]
  · intro l hl now data ingress hev _
    simp only [List.mem_cons, List.not_mem_nil, or_false] at hl
    rcases hl with rfl | rfl | rfl
    · cases hev
      simp [alert]
    · cases hev
    · cases hev
      simp [alert]
  · rw [Node.checkInside, hm₁]
    exact start_outside
  · rw [Node.checkInside, hm₃]
    exact Evicted.zone_contains

end Entering

theorem delivered_by_first_copy_entering : ∃ ls node',
    Node.Hears ⟨∅, ∅⟩ Entering.alert.name Evicted.zone Entering.start node' ls ∧ ls.length = 3 ∧
    ((Node.copies Entering.alert.name ls).countP fun l => l.2.relevant) =
      if Node.insideAtFirst Evicted.zone (Node.copies Entering.alert.name ls) then 1 else 0 := by
  obtain ⟨o₁, o₂, o₃, node', h, _⟩ := Entering.run
  exact ⟨_, node', h, rfl, delivered_by_first_copy h⟩

/-- The vehicle is inside the zone when it handles the second copy, yet no
copy is passed on. -/
theorem not_delivered_on_entering : ¬ ∀ (infra : Infrastructure ℝ) (name : Name ℝ) (zor : ZoR ℝ)
    (node node' : Node ℝ) (ls : List (Node.Label ℝ)), Node.Hears infra name zor node node' ls →
      (∃ l ∈ Node.copies name ls, l.2.node.checkInside zor = true) →
        ((Node.copies name ls).countP fun l => l.2.relevant) = 1 := by
  intro hall
  obtain ⟨o₁, o₂, o₃, node', h, hout, hin⟩ := Entering.run
  have hcopy : Entering.copy.alert = some Entering.alert.name :=
    NodeEvent.alert_receive _ _ rfl trivial
  have hcopies : Node.copies Entering.alert.name
      [(Entering.copy, o₁), (.move ⟨0, 0⟩, o₂), (Entering.copy, o₃)] =
      [(Entering.copy, o₁), (Entering.copy, o₃)] := by
    have hmove : (NodeEvent.move ⟨0, 0⟩ : NodeEvent ℝ).alert = none := rfl
    simp [Node.copies, hcopy, hmove]
  have hver := h.verdicts
  have hone := hall _ _ _ _ _ _ h ⟨(Entering.copy, o₃), by rw [hcopies]; simp, hin⟩
  rw [hcopies] at hver hone
  cases hver with
  | some _ _ _ hfirst hfurther =>
      have h3 := hfurther _ (List.mem_singleton.mpr rfl)
      simp only at hfirst h3
      simp [hfirst, hout, h3] at hone

end Cafe
