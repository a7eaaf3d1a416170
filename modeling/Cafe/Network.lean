import Cafe.Handlers
import Cafe.Runs

/-!
# A network of vehicles and RSUs

The medium says which faces hear a transmission. Copies stay in flight
until they are delivered, in any order; the medium may lose and duplicate
them. A log records every transmission. The `uid` of a copy is the place of
its transmission in the log, so the `uid` of a logged alert tells which
transmission it passes on.
-/

open Labelled

namespace Cafe

variable {F : Type} [Arith F]

/-- A copy of an alert on its way to a face of a node. -/
structure Copy (F : Type) where
  dst : NodeId
  ingress : FaceId
  data : Data F
  sentAt : ℕ

structure Transmission (F : Type) where
  sender : NodeId
  egress : FaceId
  data : Data F
  deferred : Bool

structure Net (F : Type) [Arith F] where
  now : ℕ
  nodes : NodeId → Option (Node F)
  inFlight : List (Copy F)
  log : List (Transmission F)

/-- The faces that hear a node transmit on one of its faces. -/
abbrev Medium (F : Type) [Arith F] :=
  (NodeId → Option (Node F)) → NodeId → FaceId → List (NodeId × FaceId)

namespace NodeEvent

/-- The event comes from within the node: a timer, a hello, a move, or a local
application that creates an alert. -/
def IsLocal : NodeEvent F → Prop
  | .receive _ data ingress => ingress.scope = .isLocal ∧ data.senderType = none ∧
      data.senderPos = none ∧ data.destinationNodes = none
  | _ => True

def isExpiry : NodeEvent F → Bool
  | .expire _ => true
  | _ => false

end NodeEvent

/-- The node handles the event with this outcome. -/
def Node.Handles (infra : Infrastructure F) (node : Node F) (ev : NodeEvent F) (o : Outcome F) :
    Prop :=
  ∃ fuel, node.handle fuel infra ev = .ok o

namespace Net

inductive Action (F : Type)
  | deliver (c : Copy F)
  | lose (c : Copy F)
  | duplicate (c : Copy F)
  | occur (n : NodeId) (ev : NodeEvent F)

/-- The copies of the transmissions `sent` of a node, the first of which is
logged at place `k`. -/
def copies (medium : Medium F) (nodes : NodeId → Option (Node F)) (t : ℕ) (n : NodeId) (k : ℕ)
    (sent : List (Outgoing F)) : List (Copy F) :=
  (sent.zipIdx k).flatMap fun out => (medium nodes n out.1.egress).map fun r =>
    ⟨r.1, r.2, { out.1.data with uid := out.2 }, t⟩

/-- The network after node `n` has handled an event. -/
def react (medium : Medium F) (net : Net F) (t : ℕ) (n : NodeId) (deferred : Bool) (o : Outcome F)
    (inFlight : List (Copy F)) : Net F :=
  let nodes := Function.update net.nodes n (some o.node)
  { now := t
    nodes := nodes
    inFlight := inFlight ++ copies medium nodes t n net.log.length o.sent
    log := net.log ++ o.sent.map fun out => ⟨n, out.egress, out.data, deferred⟩ }

abbrev Label (F : Type) := ℕ × Action F

inductive Step (infra : Infrastructure F) (medium : Medium F) (net : Net F) :
    Label F → Net F → Prop
  | deliver {t : ℕ} {c : Copy F} {pre post : List (Copy F)} {node : Node F} {o : Outcome F}
      (hflight : net.inFlight = pre ++ c :: post) (hnode : net.nodes c.dst = some node)
      (hhandles : node.Handles infra (.receive t c.data ⟨c.ingress, .nonLocal⟩) o) :
      Step infra medium net (t, .deliver c) (net.react medium t c.dst false o (pre ++ post))
  | lose {t : ℕ} {c : Copy F} {pre post : List (Copy F)}
      (hflight : net.inFlight = pre ++ c :: post) :
      Step infra medium net (t, .lose c) { net with now := t, inFlight := pre ++ post }
  | duplicate {t : ℕ} {c : Copy F} (hflight : c ∈ net.inFlight) :
      Step infra medium net (t, .duplicate c)
        { net with now := t, inFlight := net.inFlight ++ [c] }
  | occur {t : ℕ} {n : NodeId} {ev : NodeEvent F} {node : Node F} {o : Outcome F}
      (hlocal : ev.IsLocal) (hnode : net.nodes n = some node)
      (hhandles : node.Handles infra ev o) :
      Step infra medium net (t, .occur n ev)
        (net.react medium t n ev.isExpiry o net.inFlight)

/-- What a clock demands of a step: copies arrive after the latency, timers fire
when they are due, and nothing is late. -/
structure Punctual (latency : ℕ) (net : Net F) (l : Label F) : Prop where
  forward : net.now ≤ l.1
  copies : ∀ c ∈ net.inFlight, l.1 ≤ c.sentAt + latency
  timers : ∀ n node, net.nodes n = some node → ∀ d ∈ node.events, l.1 ≤ d.due
  delivery : ∀ c, l.2 = .deliver c → l.1 = c.sentAt + latency
  expiry : ∀ n node d, l.2 = .occur n (.expire d.id) → net.nodes n = some node →
    d ∈ node.events → l.1 = d.due
  clock : ∀ n now data ingress, l.2 = .occur n (.receive now data ingress) → now = l.1

def TimedStep (infra : Infrastructure F) (medium : Medium F) (latency : ℕ) (net : Net F)
    (l : Label F) (net' : Net F) : Prop :=
  Step infra medium net l net' ∧ Punctual latency net l

/-- The event that an action brings to a node. -/
def Label.event : Label F → Option (NodeId × NodeEvent F)
  | (t, .deliver c) => some (c.dst, .receive t c.data ⟨c.ingress, .nonLocal⟩)
  | (_, .occur n ev) => some (n, ev)
  | (_, .lose _) => none
  | (_, .duplicate _) => none

omit [Arith F] in
theorem Label.event_deliver {l : Label F} {c : Copy F} (h : l.2 = .deliver c) :
    Label.event l = some (c.dst, .receive l.1 c.data ⟨c.ingress, .nonLocal⟩) := by
  rw [show l = (l.1, .deliver c) from Prod.ext rfl h]
  rfl

/-- An event comes from within the node or with a copy in flight. -/
def Source (net : Net F) (l : Label F) (n : NodeId) (ev : NodeEvent F) : Prop :=
  (l.2 = .occur n ev ∧ ev.IsLocal) ∨ ∃ c ∈ net.inFlight, l.2 = .deliver c ∧ n = c.dst ∧
    ev = .receive l.1 c.data ⟨c.ingress, .nonLocal⟩

/-- A step is taken by the medium alone or by one node, which handles an event
of its own or a copy from the medium. -/
inductive Change (infra : Infrastructure F) (medium : Medium F) (net : Net F) (l : Label F)
    (net' : Net F) : Prop
  | medium (hev : Label.event l = none) (hnodes : net'.nodes = net.nodes)
      (hlog : net'.log = net.log) (hsub : ∀ c ∈ net'.inFlight, c ∈ net.inFlight)
      (hkeep : ∀ c ∈ net.inFlight, c ∈ net'.inFlight ∨ l.2 = .lose c)
  | node (n : NodeId) (ev : NodeEvent F) (node : Node F) (o : Outcome F) (rest : List (Copy F))
      (hev : Label.event l = some (n, ev)) (hnode : net.nodes n = some node)
      (hhandles : node.Handles infra ev o)
      (hsource : net.Source l n ev)
      (hsub : ∀ c ∈ rest, c ∈ net.inFlight)
      (hkeep : ∀ c ∈ net.inFlight, c ∈ rest ∨ l.2 = .deliver c)
      (hnet : net' = net.react medium l.1 n ev.isExpiry o rest)

theorem Step.change {infra : Infrastructure F} {medium : Medium F} {net net' : Net F} {l : Label F}
    (h : Step infra medium net l net') : Change infra medium net l net' := by
  have htaken : ∀ {c : Copy F} {pre post : List (Copy F)}, net.inFlight = pre ++ c :: post →
      ∀ x, x ∈ net.inFlight ↔ x ∈ pre ++ post ∨ x = c := by
    intro c pre post hflight x
    simp only [hflight, List.mem_append, List.mem_cons]
    tauto
  cases h with
  | @deliver t c pre post node o hflight hnode hhandles =>
      have hmem : c ∈ net.inFlight := (htaken hflight c).mpr (Or.inr rfl)
      refine .node _ _ _ _ (pre ++ post) rfl hnode hhandles (Or.inr ⟨c, hmem, rfl, rfl, rfl⟩)
        (fun x hx => (htaken hflight x).mpr (Or.inl hx)) ?_ rfl
      intro x hx
      rcases (htaken hflight x).mp hx with hx | rfl
      · exact Or.inl hx
      · exact Or.inr rfl
  | @lose t c pre post hflight =>
      refine .medium rfl rfl rfl (fun x hx => (htaken hflight x).mpr (Or.inl hx)) ?_
      intro x hx
      rcases (htaken hflight x).mp hx with hx | rfl
      · exact Or.inl hx
      · exact Or.inr rfl
  | duplicate hflight =>
      refine .medium rfl rfl rfl ?_ fun x hx => Or.inl (List.mem_append_left _ hx)
      intro x hx
      rcases List.mem_append.mp hx with hx | hx
      · exact hx
      · obtain rfl := List.mem_singleton.mp hx
        exact hflight
  | occur hlocal hnode hhandles =>
      exact .node _ _ _ _ _ rfl hnode hhandles (Or.inl ⟨rfl, hlocal⟩) (fun _ hc => hc)
        (fun _ hc => Or.inl hc) rfl

/-! ## What a reaction changes -/

section React

variable {medium : Medium F} {net : Net F} {t : ℕ} {n : NodeId} {deferred : Bool} {o : Outcome F}
  {inFlight : List (Copy F)}

@[simp] theorem react_nodes_self :
    (net.react medium t n deferred o inFlight).nodes n = some o.node := by
  simp [react]

theorem react_nodes_of_ne {m : NodeId} (h : m ≠ n) :
    (net.react medium t n deferred o inFlight).nodes m = net.nodes m := by
  simp [react, h]

theorem react_nodes_cases {m : NodeId} {node : Node F}
    (h : (net.react medium t n deferred o inFlight).nodes m = some node) :
    (m = n ∧ node = o.node) ∨ (m ≠ n ∧ net.nodes m = some node) := by
  by_cases hm : m = n
  · subst hm
    rw [react_nodes_self] at h
    exact Or.inl ⟨rfl, (Option.some.inj h).symm⟩
  · rw [react_nodes_of_ne hm] at h
    exact Or.inr ⟨hm, h⟩

@[simp] theorem react_log : (net.react medium t n deferred o inFlight).log =
    net.log ++ o.sent.map fun out => ⟨n, out.egress, out.data, deferred⟩ := rfl

theorem mem_copies {nodes : NodeId → Option (Node F)} {k : ℕ} {sent : List (Outgoing F)}
    {c : Copy F} : c ∈ copies medium nodes t n k sent ↔
      ∃ (i : ℕ) (out : Outgoing F), sent[i]? = some out ∧
        (c.dst, c.ingress) ∈ medium nodes n out.egress ∧
        c.data = { out.data with uid := k + i } ∧ c.sentAt = t := by
  simp only [copies, List.mem_flatMap, List.mem_map, Prod.exists,
    List.mk_mem_zipIdx_iff_le_and_getElem?_sub]
  constructor
  · rintro ⟨out, j, ⟨hle, hout⟩, dst, ingress, hmem, rfl⟩
    exact ⟨j - k, out, hout, hmem, by simp [Nat.add_sub_cancel' hle], rfl⟩
  · rintro ⟨i, out, hout, hmem, hdata, ht⟩
    refine ⟨out, k + i, ⟨Nat.le_add_right _ _, by simpa using hout⟩, c.dst, c.ingress, hmem, ?_⟩
    rw [← hdata, ← ht]

theorem mem_react_inFlight {c : Copy F} :
    c ∈ (net.react medium t n deferred o inFlight).inFlight ↔ c ∈ inFlight ∨
      ∃ (i : ℕ) (out : Outgoing F), o.sent[i]? = some out ∧
        (c.dst, c.ingress) ∈ medium (Function.update net.nodes n (some o.node)) n out.egress ∧
        c.data = { out.data with uid := net.log.length + i } ∧ c.sentAt = t := by
  simp only [react, List.mem_append, mem_copies]

/-- Where a copy comes from: it was in flight before, or a logged transmission
of this reaction made it. -/
theorem react_inFlight_log {c : Copy F}
    (h : c ∈ (net.react medium t n deferred o inFlight).inFlight) : c ∈ inFlight ∨
      ∃ out ∈ o.sent, ∃ tx : Transmission F,
        (net.react medium t n deferred o inFlight).log[c.data.uid]? = some tx ∧
        tx = ⟨n, out.egress, out.data, deferred⟩ ∧
        c.data = { out.data with uid := c.data.uid } := by
  rcases mem_react_inFlight.mp h with h | ⟨i, out, hout, _, hdata, _⟩
  · exact Or.inl h
  · refine Or.inr ⟨out, List.mem_of_getElem? hout, _, ?_, rfl, by rw [hdata]⟩
    rw [hdata, react_log, List.getElem?_append_right (Nat.le_add_right _ _)]
    simp [hout]

end React

end Net

end Cafe
