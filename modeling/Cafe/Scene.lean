import Cafe.Context
import Cafe.OrderedMap

/-!
# The vehicles of a scene

A scene creates its RSUs first and then one vehicle for each id of the
mobility trace. A trace id is also the position in the container of the vehicles
that the mobility helper reads, while the loop that installs the producers adds
the number of RSUs to it.
-/

namespace Cafe

/-- `uint32_t` -/
abbrev Uint32 := Fin (2 ^ 32)

/-- A line of the trace as `sscanf` finds it: the first position of a node, a
scheduled movement, one whose node has no number, or anything else. -/
inductive TraceLine (F : Type)
  | position (nodeId : Uint32)
  | scheduled (time : F) (nodeId : Uint32)
  | unnumbered (time : F)
  | other

/-- What `ParseMobilityTrace` keeps while it reads. -/
structure MobilityTrace (F : Type) where
  time : Option F
  firstSeen : OrderedMap Uint32 F
  lastSeen : OrderedMap Uint32 F

namespace MobilityTrace

variable {F : Type}

def empty : MobilityTrace F := ⟨none, .empty, .empty⟩

def readLine (t : MobilityTrace F) : TraceLine F → MobilityTrace F
  | .scheduled time nodeId =>
      { time := some time
        firstSeen :=
          if (t.firstSeen.find? nodeId).isNone then t.firstSeen.insert nodeId time
          else t.firstSeen
        lastSeen := t.lastSeen.insert nodeId time }
  | .unnumbered time => { t with time := some time }
  | .position _ => t
  | .other => t

end MobilityTrace

/-- The nodes of a container by their positions in the list of all nodes. -/
abbrev NodeContainer := List ℕ

/-- The command line, the trace file and the random numbers of a scene. -/
structure Scene (F : Type) where
  numRsu : Uint32
  startTime : F
  stopTime : F
  traceFile : List (TraceLine F)
  rand : ℕ → F

/-- A producer with its attributes. -/
structure Producer (F : Type) where
  traceId : Uint32
  index : Uint32
  node : ℕ
  startTime : F
  stopTime : F

/-- The installation loop: how many random numbers are drawn, the producers and
the index, if any, at which the container is read past its end. -/
structure Installation (F : Type) where
  draws : ℕ
  producers : List (Producer F)
  pastEnd : Option Uint32

/-- `NodeContainer::Create`, when so many nodes exist. -/
def NodeContainer.create (numNodes n : ℕ) : NodeContainer := List.range' numNodes n

def setupContext (container : NodeContainer) (type : NodeType)
    (context : ℕ → Option NodeType) : ℕ → Option NodeType :=
  fun node => if node ∈ container then some type else context node

namespace MobilityTrace

variable {F : Type}

/-- The ids of the scheduled movements. -/
theorem mem_keys_lastSeen (lines : List (TraceLine F)) {t : MobilityTrace F} {id : Uint32} :
    id ∈ (lines.foldl readLine t).lastSeen.keys ↔
      id ∈ t.lastSeen.keys ∨ ∃ time, TraceLine.scheduled time id ∈ lines := by
  induction lines generalizing t with
  | nil => simp
  | cons line lines ih =>
      rw [List.foldl_cons, ih]
      cases line with
      | scheduled time nodeId =>
          rw [readLine, OrderedMap.mem_keys_insert]
          simp only [List.mem_cons, TraceLine.scheduled.injEq, exists_or]
          constructor
          · rintro ((rfl | h) | h)
            · exact Or.inr (Or.inl ⟨time, rfl, rfl⟩)
            · exact Or.inl h
            · exact Or.inr (Or.inr h)
          · rintro (h | ⟨_, _, rfl⟩ | h)
            · exact Or.inl (Or.inr h)
            · exact Or.inl (Or.inl rfl)
            · exact Or.inr h
      | _ => simp [readLine]

end MobilityTrace

namespace Scene

variable {F : Type} [Arith F] (s : Scene F)

def parseMobilityTrace : MobilityTrace F := s.traceFile.foldl MobilityTrace.readLine .empty

def nodeLifetime : OrderedMap Uint32 (F × F) :=
  s.parseMobilityTrace.lastSeen.map fun nodeId stopTime =>
    ((s.parseMobilityTrace.firstSeen.find? nodeId).getD 0, stopTime)

def numVehicles : Uint32 := Fin.ofNat _ s.nodeLifetime.size

def duration : Option F := s.parseMobilityTrace.time

def rsuNodes : NodeContainer := NodeContainer.create 0 s.numRsu.val

def vehicleNodes : NodeContainer :=
  NodeContainer.create s.rsuNodes.length s.numVehicles.val

def context : ℕ → Option NodeType :=
  setupContext s.vehicleNodes .vehicle (setupContext s.rsuNodes .rsu fun _ => none)

/-- The node whose mobility model `Ns2MobilityHelper` moves by a trace id. -/
def mobilityObject (traceId : Uint32) : Option ℕ := s.vehicleNodes[traceId.val]?

/-- The time for the start of a producer, with a buffer. -/
def inTime (first : F) (draws : ℕ) : F := first + Arith.lit 30 + s.rand draws

/-- Before the saturation or after the simulation. -/
def Skips (inTime : F) : Prop := inTime ≤ s.startTime ∨ s.stopTime ≤ inTime

instance (inTime : F) : Decidable (s.Skips inTime) := inferInstanceAs (Decidable (_ ∨ _))

/-- The index that the loop reads. -/
def index (nodeId : Uint32) : Uint32 := nodeId + s.numRsu

/-- Nothing is known of the loop once it has read past the end. -/
def installNext (st : Installation F) (it : Uint32 × F × F) : Installation F :=
  if st.pastEnd.isSome then st
  else
    let inTime := s.inTime it.2.1 st.draws
    let next := { st with draws := st.draws + 1 }
    if s.Skips inTime then next
    else
      match s.vehicleNodes[(s.index it.1).val]? with
      | none => { next with pastEnd := some (s.index it.1) }
      | some node =>
          if s.context node = some .vehicle then
            { next with
              producers := next.producers ++ [⟨it.1, s.index it.1, node, inTime, it.2.2⟩] }
          else next

def install : Installation F := s.nodeLifetime.entries.foldl s.installNext ⟨0, [], none⟩

/-- The producer of an entry and the number of the round, on the node with the
index that the loop reads. -/
def producer (x : (Uint32 × F × F) × ℕ) : Producer F :=
  ⟨x.1.1, s.index x.1.1, s.rsuNodes.length + (s.index x.1.1).val, s.inTime x.1.2.1 x.2, x.1.2.2⟩

section Loop

variable {s}

theorem vehicleNodes_getElem? {i node : ℕ} :
    s.vehicleNodes[i]? = some node ↔ i < s.numVehicles.val ∧ node = s.rsuNodes.length + i := by
  rw [vehicleNodes, NodeContainer.create, List.getElem?_eq_some_iff]
  simp [eq_comm]

@[simp] theorem length_vehicleNodes : s.vehicleNodes.length = s.numVehicles.val :=
  List.length_range'

theorem context_vehicleNodes {i node : ℕ} (h : s.vehicleNodes[i]? = some node) :
    s.context node = some .vehicle := if_pos (List.mem_of_getElem? h)

theorem install_of_pastEnd (es : List (Uint32 × F × F)) {st : Installation F}
    (h : st.pastEnd.isSome) : es.foldl s.installNext st = st := by
  induction es with
  | nil => rfl
  | cons e es ih =>
      have hnext : s.installNext st e = st := if_pos h
      rw [List.foldl_cons, hnext]
      exact ih

/-- What one round of the loop does. -/
theorem installNext_cases {st : Installation F} (h : st.pastEnd = none) (it : Uint32 × F × F) :
    (s.Skips (s.inTime it.2.1 st.draws) ∧
      s.installNext st it = { st with draws := st.draws + 1 }) ∨
    (¬ s.Skips (s.inTime it.2.1 st.draws) ∧ s.numVehicles.val ≤ (s.index it.1).val ∧
      (s.installNext st it).pastEnd.isSome) ∨
    (¬ s.Skips (s.inTime it.2.1 st.draws) ∧ (s.index it.1).val < s.numVehicles.val ∧
      s.installNext st it = { st with
        draws := st.draws + 1
        producers := st.producers ++ [s.producer (it, st.draws)] }) := by
  have hgo : ¬ st.pastEnd.isSome = true := by simp [h]
  unfold installNext
  rw [if_neg hgo]
  by_cases hskip : s.Skips (s.inTime it.2.1 st.draws)
  · exact Or.inl ⟨hskip, if_pos hskip⟩
  · right
    simp only [if_neg hskip]
    cases hget : s.vehicleNodes[(s.index it.1).val]? with
    | none =>
        refine Or.inl ⟨hskip, ?_, rfl⟩
        by_contra hlt
        have hsome := vehicleNodes_getElem?.mpr ⟨not_le.mp hlt, rfl⟩
        rw [hget] at hsome
        cases hsome
    | some node =>
        obtain ⟨hlt, rfl⟩ := vehicleNodes_getElem?.mp hget
        exact Or.inr ⟨hskip, hlt, if_pos (context_vehicleNodes hget)⟩

/-- A run of the loop over some entries of the map. -/
theorem install_spec (es : List (Uint32 × F × F)) (st : Installation F) (h : st.pastEnd = none) :
    ((es.foldl s.installNext st).pastEnd = none ↔
      ∀ x ∈ es.zipIdx st.draws, ¬ s.Skips (s.inTime x.1.2.1 x.2) →
        (s.index x.1.1).val < s.numVehicles.val) ∧
    ((es.foldl s.installNext st).pastEnd = none →
      ∀ p, p ∈ (es.foldl s.installNext st).producers ↔ p ∈ st.producers ∨
        ∃ x ∈ es.zipIdx st.draws, ¬ s.Skips (s.inTime x.1.2.1 x.2) ∧ p = s.producer x) := by
  induction es generalizing st with
  | nil => simp [h]
  | cons e es ih =>
      rw [List.foldl_cons, List.zipIdx_cons, List.forall_mem_cons]
      simp only [List.exists_mem_cons_iff]
      rcases installNext_cases h e with ⟨hskip, hnext⟩ | ⟨hskip, hle, hpast⟩ | ⟨hskip, hlt, hnext⟩
      · have hrest := ih { st with draws := st.draws + 1 } h
        rw [hnext]
        simpa [hskip] using hrest
      · have hno : ¬ (s.installNext st e).pastEnd = none := by
          intro hnone
          simp [hnone] at hpast
        rw [install_of_pastEnd es hpast]
        refine ⟨⟨fun hnone => absurd hnone hno, fun hall => ?_⟩, fun hnone => absurd hnone hno⟩
        exact absurd (hall.1 hskip) (not_lt.mpr hle)
      · rw [hnext]
        generalize hst' : ({ st with
          draws := st.draws + 1
          producers := st.producers ++ [s.producer (e, st.draws)] } : Installation F) = st'
        have hrest := ih st' (by rw [← hst']; exact h)
        have hdraws : st'.draws = st.draws + 1 := by rw [← hst']
        have hproducers : st'.producers = st.producers ++ [s.producer (e, st.draws)] := by
          rw [← hst']
        rw [hdraws, hproducers] at hrest
        refine ⟨hrest.1.trans ?_, fun hnone p => (hrest.2 hnone p).trans ?_⟩
        · exact ⟨fun hall => ⟨fun _ => hlt, hall⟩, fun hall => hall.2⟩
        · simp only [List.mem_append, List.mem_singleton, or_assoc]
          exact or_congr_right (or_congr_left ⟨fun hp => ⟨hskip, hp⟩, fun hp => hp.2⟩)

end Loop

/-! ## Producers on their own vehicles -/

/-- The times between the first and the last movement of a trace id. -/
def OnTheRoad (traceId : Uint32) (t : F) : Prop :=
  ∃ first last, s.nodeLifetime.find? traceId = some (first, last) ∧ first ≤ t ∧ t ≤ last

end Scene

/-- An application runs from its start until its stop. It is not stopped at the
time zero, nor by a stop that comes before the start. -/
def Producer.Runs {F : Type} [Arith F] (p : Producer F) (t : F) : Prop :=
  p.startTime ≤ t ∧ (p.stopTime ≠ 0 → p.startTime ≤ p.stopTime → t ≤ p.stopTime)

namespace Scene

/-- The container is read below its end only, and each producer runs on the
vehicle of the trace id whose lifetime it has, while that is on the road. -/
structure ProducersPlaced {F : Type} [Arith F] (s : Scene F) : Prop where
  within : s.install.pastEnd = none
  placed : ∀ p ∈ s.install.producers, p.index.val < s.vehicleNodes.length ∧
    s.mobilityObject p.traceId = some p.node ∧ ∀ t, p.Runs t → s.OnTheRoad p.traceId t

section Placed

variable {s : Scene ℝ}

theorem mobilityObject_eq_iff {x : (Uint32 × ℝ × ℝ) × ℕ}
    (hlt : (s.index x.1.1).val < s.numVehicles.val) :
    s.mobilityObject x.1.1 = some (s.producer x).node ↔ s.numRsu = 0 := by
  have hnode : (s.producer x).node = s.rsuNodes.length + (s.index x.1.1).val := rfl
  rw [mobilityObject, vehicleNodes_getElem?, hnode]
  constructor
  · rintro ⟨_, heq⟩
    have hindex : s.index x.1.1 = x.1.1 := Fin.ext (Nat.add_left_cancel heq)
    exact add_left_cancel (a := x.1.1) (by rw [add_zero]; exact hindex)
  · intro hzero
    have hindex : s.index x.1.1 = x.1.1 := by rw [index, hzero, add_zero]
    rw [hindex] at hlt ⊢
    exact ⟨hlt, rfl⟩

theorem runs_onTheRoad_iff (hrand : ∀ i, 0 ≤ s.rand i) {x : (Uint32 × ℝ × ℝ) × ℕ}
    (hx : x.1 ∈ s.nodeLifetime.entries) :
    (∀ t, (s.producer x).Runs t → s.OnTheRoad x.1.1 t) ↔
      x.1.2.2 ≠ 0 ∧ s.inTime x.1.2.1 x.2 ≤ x.1.2.2 := by
  have hfind : s.nodeLifetime.find? x.1.1 = some (x.1.2.1, x.1.2.2) :=
    OrderedMap.find?_eq_some.mpr hx
  have hbuffer : x.1.2.1 ≤ s.inTime x.1.2.1 x.2 := by
    have hlit : (Arith.lit 30 : ℝ) = 30 := by norm_num [Arith.lit]
    have := hrand x.2
    rw [inTime, hlit]
    linarith
  constructor
  · intro h
    by_contra hno
    have hruns : (s.producer x).Runs (max (s.inTime x.1.2.1 x.2) (x.1.2.2 + 1)) := by
      refine ⟨le_max_left _ _, fun hne hle => ?_⟩
      exact absurd ⟨hne, hle⟩ hno
    obtain ⟨first, last, hfind', _, hlast⟩ := h _ hruns
    rw [hfind] at hfind'
    obtain ⟨rfl, rfl⟩ := Prod.mk.inj (Option.some.inj hfind')
    have := (le_max_right (s.inTime x.1.2.1 x.2) (x.1.2.2 + 1)).trans hlast
    linarith
  · rintro ⟨hne, hle⟩ t ⟨hstart, hstop⟩
    exact ⟨_, _, hfind, hbuffer.trans hstart, hstop hne hle⟩

end Placed

/-- The ids of the scheduled movements are `0`, ..., `n - 1`. -/
def Numbered {F : Type} (s : Scene F) (n : ℕ) : Prop :=
  ∀ id : Uint32, (∃ time, TraceLine.scheduled time id ∈ s.traceFile) ↔ id.val < n

theorem Numbered.numVehicles {F : Type} [Arith F] {s : Scene F} {n : ℕ} (h : s.Numbered n)
    (hn : n < 2 ^ 32) : s.numVehicles.val = n := by
  have hmem : ∀ id, id ∈ s.nodeLifetime.keys ↔ id.val < n := by
    intro id
    rw [nodeLifetime, OrderedMap.keys_map, parseMobilityTrace, MobilityTrace.mem_keys_lastSeen,
      ← h id]
    exact or_iff_right (List.not_mem_nil)
  have hperm : (s.nodeLifetime.keys.map Fin.val).Perm (List.range n) := by
    refine (List.perm_ext_iff_of_nodup
      (s.nodeLifetime.nodup_keys.map Fin.val_injective) List.nodup_range).mpr ?_
    intro i
    rw [List.mem_map, List.mem_range]
    constructor
    · rintro ⟨id, hid, rfl⟩
      exact (hmem id).mp hid
    · intro hi
      exact ⟨⟨i, hi.trans hn⟩, (hmem _).mpr hi, rfl⟩
  have hsize : s.nodeLifetime.size = n := by
    have hlength := hperm.length_eq
    rwa [List.length_map, List.length_range, OrderedMap.keys, List.length_map] at hlength
  rw [Scene.numVehicles, hsize]
  exact Nat.mod_eq_of_lt hn

end Scene

/-- The producers are on their own vehicles iff for every start within the window
there is no RSU, the id is below the number of vehicles, as it is when the ids are
numbered, and the vehicle leaves after the start. -/
theorem producers_placed_iff {s : Scene ℝ} (hrand : ∀ i, 0 ≤ s.rand i) :
    s.ProducersPlaced ↔ ∀ x ∈ s.nodeLifetime.entries.zipIdx,
      ¬ s.Skips (s.inTime x.1.2.1 x.2) →
        s.numRsu = 0 ∧ x.1.1.val < s.numVehicles.val ∧ x.1.2.2 ≠ 0 ∧
          s.inTime x.1.2.1 x.2 ≤ x.1.2.2 := by
  have hspec := Scene.install_spec (s := s) s.nodeLifetime.entries ⟨0, [], none⟩ rfl
  have hindex : s.numRsu = 0 → ∀ id, s.index id = id := by
    intro hzero id
    rw [Scene.index, hzero, add_zero]
  constructor
  · rintro ⟨hwithin, hplaced⟩ x hx hskip
    have hlt := hspec.1.mp hwithin x hx hskip
    have hproducer := (hspec.2 hwithin (s.producer x)).mpr (Or.inr ⟨x, hx, hskip, rfl⟩)
    obtain ⟨_, hmoves, hruns⟩ := hplaced _ hproducer
    have hzero := (Scene.mobilityObject_eq_iff hlt).mp hmoves
    rw [hindex hzero] at hlt
    exact ⟨hzero, hlt,
      (Scene.runs_onTheRoad_iff hrand (List.fst_mem_of_mem_zipIdx hx)).mp hruns⟩
  · intro h
    have hwithin : s.install.pastEnd = none := by
      refine hspec.1.mpr fun x hx hskip => ?_
      obtain ⟨hzero, hlt, _⟩ := h x hx hskip
      rwa [hindex hzero]
    refine ⟨hwithin, fun p hp => ?_⟩
    rcases (hspec.2 hwithin p).mp hp with hp | ⟨x, hx, hskip, rfl⟩
    · cases hp
    · obtain ⟨hzero, hlt, hroad⟩ := h x hx hskip
      rw [← hindex hzero x.1.1] at hlt
      refine ⟨?_, (Scene.mobilityObject_eq_iff hlt).mpr hzero,
        (Scene.runs_onTheRoad_iff hrand (List.fst_mem_of_mem_zipIdx hx)).mpr hroad⟩
      rwa [Scene.length_vehicleNodes]

/-! ## Two vehicles

Both enter after a minute and leave after two hundred seconds. -/

namespace TwoVehicles

noncomputable def scene (numRsu : Uint32) : Scene ℝ where
  numRsu := numRsu
  startTime := 60
  stopTime := 120
  traceFile := [.position 0, .scheduled 60 0, .position 1, .scheduled 60 1, .scheduled 200 0,
    .scheduled 200 1]
  rand _ := 0

theorem entries (numRsu : Uint32) :
    (scene numRsu).nodeLifetime.entries = [(0, 60, 200), (1, 60, 200)] := rfl

theorem numbered (numRsu : Uint32) : (scene numRsu).Numbered 2 := by
  intro id
  simp only [scene, List.mem_cons, reduceCtorEq, TraceLine.scheduled.injEq, false_or,
    List.not_mem_nil, or_false]
  constructor
  · rintro ⟨time, ⟨_, rfl⟩ | ⟨_, rfl⟩ | ⟨_, rfl⟩ | ⟨_, rfl⟩⟩
    all_goals decide
  · intro hlt
    have hid : id = 0 ∨ id = 1 := by
      rcases Nat.lt_succ_iff_lt_or_eq.mp hlt with hlt | heq
      · exact Or.inl (Fin.ext (Nat.lt_one_iff.mp hlt))
      · exact Or.inr (Fin.ext heq)
    rcases hid with rfl | rfl
    · exact ⟨60, Or.inl ⟨rfl, rfl⟩⟩
    · exact ⟨60, Or.inr (Or.inl ⟨rfl, rfl⟩)⟩

theorem inTime (numRsu : Uint32) (i : ℕ) : (scene numRsu).inTime 60 i = 90 := by
  norm_num [scene, Scene.inTime, Arith.lit]

theorem not_skips (numRsu : Uint32) : ¬ (scene numRsu).Skips 90 := by
  norm_num [scene, Scene.Skips]

end TwoVehicles

/-- Without RSUs. -/
theorem producers_placed_iff_two : (TwoVehicles.scene 0).ProducersPlaced := by
  refine (producers_placed_iff fun _ => le_rfl).mpr ?_
  intro x hx _
  have hin : ∀ i, (TwoVehicles.scene 0).inTime 60 i ≤ 200 := by
    intro i
    rw [TwoVehicles.inTime]
    norm_num
  have hvehicles := (TwoVehicles.numbered 0).numVehicles (by decide)
  simp only [TwoVehicles.entries, List.zipIdx_cons, List.zipIdx_nil, List.mem_cons,
    List.not_mem_nil, or_false] at hx
  rcases hx with rfl | rfl
  · exact ⟨rfl, by rw [hvehicles]; decide, by norm_num, hin _⟩
  · exact ⟨rfl, by rw [hvehicles]; decide, by norm_num, hin _⟩

/-- Behind one RSU the first producer is on the second vehicle, and the index of
the second is past the end. -/
theorem not_producers_placed : ¬ ∀ (s : Scene ℝ) (n : ℕ), s.Numbered n → (∀ i, 0 ≤ s.rand i) →
    s.ProducersPlaced := by
  intro h
  have hplaced := h (TwoVehicles.scene 1) 2 (TwoVehicles.numbered 1) fun _ => le_rfl
  have hlt := (Scene.install_spec _ ⟨0, [], none⟩ rfl).1.mp hplaced.within
    ((1, 60, 200), 1) (by simp [TwoVehicles.entries])
    (by rw [TwoVehicles.inTime]; exact TwoVehicles.not_skips 1)
  exact absurd hlt (by decide)

end Cafe
