import Cafe.Deployment
import Cafe.ProducerNames
import Cafe.Recency

/-!
# The hello service

Every active RSU says hello at a fixed interval, the RSUs of odd id a phase
later than those of even id. A vehicle takes an RSU for gone when it has heard
no hello for an interval and ten milliseconds. Times are in nanoseconds.
-/

open Labelled EventQueue

namespace Cafe

/-- The phase shift is in degrees. -/
structure StackHelper where
  startTime : ℕ
  enableHello : Bool
  helloInterval : ℕ
  phaseShift : ℕ
  phaseShift_lt : phaseShift < 360

namespace StackHelper

def init : StackHelper := ⟨1000000000, false, 400000000, 180, by decide⟩

def setPhaseShift (helper : StackHelper) (phase : ℕ) : StackHelper :=
  { helper with phaseShift := phase % 360, phaseShift_lt := Nat.mod_lt phase (by decide) }

/-- `std::round`, of a quotient in whole milliseconds -/
def phaseTime (helper : StackHelper) : ℕ :=
  (2 * (helper.helloInterval / 1000000 * helper.phaseShift) + 360) / 720

def startTimeOf (helper : StackHelper) (nodeId : ℕ) : ℕ :=
  helper.startTime + if nodeId % 2 = 0 then 0 else 1000000 * helper.phaseTime

def utf8 (s : String) : List UInt8 := s.toUTF8.toList

/-- The application that `SetupRSU` installs. -/
def helloProducer {F X : Type} (wireSize : ℕ → ℕ) (helper : StackHelper) (nodeId : ℕ) :
    HelloProducer F X where
  mPrefix := ["alert", "hello", "rsu", toString nodeId].map fun s => .generic (utf8 s)
  interval := helper.helloInterval
  jitter := none
  wireSize := wireSize

/-- `SetupVehicle` sets the lifetime of the Interest. -/
def lifeTime (helper : StackHelper) : ℕ := helper.helloInterval + 10000000

variable {F : Type}

/-- The nodes on which `Install` calls `SetupRSU`. -/
def helloNodes (helper : StackHelper) (nodes : List (NodeSpec F)) : List ℕ :=
  if helper.enableHello then
    (nodes.zipIdx.filter fun e => e.1.status ≠ .inactive ∧ e.1.type = .rsu).map Prod.snd
  else []

/-- The simulator will start each application. -/
def scheduleStart (helper : StackHelper) (q : Queue ProducerCall) (nodeId : ℕ) :
    Queue ProducerCall :=
  q.schedule (helper.startTimeOf nodeId) (.startApplication nodeId)

def install (helper : StackHelper) (nodes : List (NodeSpec F)) : Fleet (Data F) where
  queue := (helper.helloNodes nodes).foldl helper.scheduleStart ⟨0, 0, []⟩
  apps _ := ⟨0, none⟩
  sent := []

def producers {X : Type} (wireSize : ℕ → ℕ) (helper : StackHelper) (nodeId : ℕ) :
    AlertProducer (Data F) X := (helper.helloProducer wireSize nodeId).producer

end StackHelper

/-! ## What is installed -/

namespace StackHelper

variable (helper : StackHelper)

/-- Nothing is stopped, and each start has its time. -/
def Expected (e : Event ProducerCall) : Prop :=
  (∀ n, e.action ≠ .stopApplication n) ∧
    ∀ n, e.action = .startApplication n → e.due = helper.startTimeOf n

/-- A queue of starts, before the clock runs. -/
structure Starts (l : List ℕ) (q : Queue ProducerCall) : Prop where
  sound : q.Sound
  now : q.now = 0
  mem : ∀ e, e ∈ q.events → ∃ n, e.action = .startApplication n ∧ e.due = helper.startTimeOf n
  all : ∀ n ∈ l, ∃ e ∈ q.events, e.action = .startApplication n
  count : ∀ n, (q.pending (ProducerCall.isStart n)).length = l.count n

theorem Starts.snoc {l : List ℕ} {q : Queue ProducerCall} (h : helper.Starts l q) (n : ℕ) :
    helper.Starts (l ++ [n]) (helper.scheduleStart q n) where
  sound := h.sound.schedule _ _
  now := h.now
  mem := by
    intro e he
    rcases List.mem_append.mp he with he | he
    · exact h.mem e he
    · obtain rfl := List.mem_singleton.mp he
      exact ⟨n, rfl, by simp [h.now]⟩
  all := by
    intro m hm
    rcases List.mem_append.mp hm with hm | hm
    · obtain ⟨e, he, hcall⟩ := h.all m hm
      exact ⟨e, List.mem_append_left _ he, hcall⟩
    · obtain rfl := List.mem_singleton.mp hm
      exact ⟨_, List.mem_append_right _ (List.mem_singleton_self _), rfl⟩
  count := by
    intro m
    rw [scheduleStart, Queue.pending_schedule, List.length_append, h.count m, List.count_append]
    congr 1
    by_cases hm : m = n <;> simp [ProducerCall.isStart, hm, eq_comm (a := n)]

theorem starts_foldl (l : List ℕ) :
    helper.Starts l (l.foldl helper.scheduleStart ⟨0, 0, []⟩) := by
  induction l using List.reverseRecOn with
  | nil => exact ⟨⟨List.nodup_nil, nofun, nofun⟩, rfl, nofun, nofun, fun _ => rfl⟩
  | append_singleton l n ih =>
      rw [List.foldl_append]
      exact ih.snoc helper n

variable {F : Type} (nodes : List (NodeSpec F))

theorem nodup_helloNodes : (helper.helloNodes nodes).Nodup := by
  unfold helloNodes
  split
  · refine List.Nodup.sublist (List.filter_sublist.map _) ?_
    rw [List.zipIdx_map_snd]
    exact List.nodup_range'
  · exact List.nodup_nil

theorem install_installed : (helper.install nodes).Installed := by
  have hstarts := helper.starts_foldl (helper.helloNodes nodes)
  refine ⟨hstarts.sound, fun n => ?_, fun n => ?_, fun _ => rfl, rfl⟩
  · refine List.filter_eq_nil_iff.mpr fun e he => ?_
    obtain ⟨m, hcall, _⟩ := hstarts.mem e he
    simp [hcall, ProducerCall.isSend]
  · rw [show (helper.install nodes).queue = _ from rfl, install, hstarts.count n]
    exact List.nodup_iff_count_le_one.mp (helper.nodup_helloNodes nodes) n

end StackHelper

/-! ## What an RSU says -/

namespace Fleet

variable {D X : Type}

/-- A call schedules only sends, -/
theorem mem_events_react {producers : ℕ → AlertProducer D X} {fl : Fleet D} {x : X}
    {call : ProducerCall} {e : Event ProducerCall}
    (he : e ∈ (fl.react producers x call).queue.events) :
    e ∈ fl.queue.events ∨ ∃ i, e.action = .sendAlert i := by
  have hschedule : ∀ {q : Queue ProducerCall} {delay i : ℕ},
      e ∈ (q.schedule delay (.sendAlert i)).events →
      e ∈ q.events ∨ ∃ i, e.action = .sendAlert i := by
    intro q delay i hmem
    rcases List.mem_append.mp hmem with hmem | hmem
    · exact Or.inl hmem
    · exact Or.inr ⟨i, by rw [List.mem_singleton.mp hmem]⟩
  cases call with
  | startApplication i => exact hschedule he
  | stopApplication i => exact Or.inl (List.mem_filter.mp he).1
  | sendAlert i =>
      simp only [react, sendAlert] at he
      have hqueue := queue_sends (producers i) fl i x
      cases hrearm : (producers i).rearm x with
      | none =>
          rw [hrearm, hqueue] at he
          exact Or.inl he
      | some delay =>
          rw [hrearm, hqueue] at he
          exact hschedule he

/-- and cancels no start. -/
theorem Tidy.starts_react {fl : Fleet D} (h : fl.Tidy) (producers : ℕ → AlertProducer D X)
    (x : X) (call : ProducerCall) (n : ℕ) :
    (fl.react producers x call).queue.pending (ProducerCall.isStart n) =
      fl.queue.pending (ProducerCall.isStart n) := by
  have hschedule : ∀ (q : Queue ProducerCall) (delay i : ℕ),
      (q.schedule delay (.sendAlert i)).pending (ProducerCall.isStart n) =
        q.pending (ProducerCall.isStart n) := by
    intro q delay i
    simp [Queue.pending_schedule, ProducerCall.isStart]
  cases call with
  | startApplication i => exact hschedule _ _ _
  | stopApplication i =>
      refine Queue.pending_cancel_of_ne fun e he hid => ?_
      rw [(h.handle i).action e he hid]
      rfl
  | sendAlert i =>
      simp only [Fleet.react, Fleet.sendAlert]
      have hqueue := queue_sends (producers i) fl i x
      cases (producers i).rearm x with
      | none => exact congrArg (Queue.pending (ProducerCall.isStart n)) hqueue
      | some delay =>
          refine (hschedule _ delay i).trans ?_
          exact congrArg (Queue.pending (ProducerCall.isStart n)) hqueue

end Fleet

namespace StackHelper

variable (helper : StackHelper) {F X : Type} (nodes : List (NodeSpec F))

/-- Every RSU is started, or will be. -/
structure Serves (ls : List (Fleet.Label X)) (fl : Fleet (Data F)) : Prop where
  tidy : fl.Tidy
  expected : ∀ e ∈ fl.queue.events, helper.Expected e
  started : ∀ n t, Fleet.startedAt n ls = some t → t = helper.startTimeOf n
  unstopped : ∀ n, ¬ Fleet.Stopped n ls
  starts : ∀ n ∈ helper.helloNodes nodes, (Fleet.startedAt n ls).isSome ∨
    ∃ e ∈ fl.queue.pending (ProducerCall.isStart n), e.action = .startApplication n

variable {helper nodes}

theorem Serves.step {producers : ℕ → AlertProducer (Data F) X} {ls : List (Fleet.Label X)}
    {fl : Fleet (Data F)} (h : helper.Serves nodes ls fl) {e : Event ProducerCall}
    (he : fl.queue.IsDue e) (x : X) : helper.Serves nodes (ls ++ [(e.due, e.action, x)])
      ({ fl with queue := fl.queue.take e }.react producers x e.action) where
  tidy := (h.tidy.take he).react producers x e.action
  expected := by
    intro e' he'
    rcases Fleet.mem_events_react he' with he' | ⟨i, hcall⟩
    · exact h.expected e' (List.mem_filter.mp he').1
    · exact ⟨by simp [hcall], by simp [hcall]⟩
  started := by
    intro n t ht
    rw [Fleet.startedAt_snoc] at ht
    cases hstart : Fleet.startedAt n ls with
    | some u =>
        rw [hstart] at ht
        exact h.started n t (hstart.trans ht)
    | none =>
        rw [hstart, Option.none_or] at ht
        split at ht
        · rename_i hcall
          exact Option.some.inj ht ▸ (h.expected e he.1).2 n hcall
        · cases ht
  unstopped := by
    intro n hstop
    rcases Fleet.stopped_snoc hstop with hstop | hcall
    · exact h.unstopped n hstop
    · exact (h.expected e he.1).1 n hcall
  starts := by
    intro n hn
    rw [Fleet.startedAt_snoc, Option.isSome_or, (h.tidy.take he).starts_react]
    rcases h.starts n hn with hstart | ⟨e', he', hcall⟩
    · exact Or.inl (by simp [hstart])
    by_cases hid : e'.id = e.id
    · obtain rfl := h.tidy.sound.eq_of_id (Queue.mem_pending.mp he').1 he.1 hid
      exact Or.inl (by simp [hcall])
    · refine Or.inr ⟨e', Queue.mem_pending.mpr ⟨List.mem_filter.mpr ⟨?_, ?_⟩, ?_⟩, hcall⟩
      · exact (Queue.mem_pending.mp he').1
      · simpa using hid
      · exact (Queue.mem_pending.mp he').2

theorem serves_install :
    helper.Serves nodes ([] : List (Fleet.Label X)) (helper.install nodes) := by
  have hstarts := helper.starts_foldl (helper.helloNodes nodes)
  refine ⟨(helper.install_installed nodes).tidy, ?_, nofun, ?_, ?_⟩
  · intro e he
    obtain ⟨n, hcall, hdue⟩ := hstarts.mem e he
    refine ⟨by simp [hcall], fun m hm => ?_⟩
    rw [hcall] at hm
    exact ProducerCall.startApplication.inj hm ▸ hdue
  · intro n hstop
    cases hstop.started
  · intro n hn
    obtain ⟨e, he, hcall⟩ := hstarts.all n hn
    exact Or.inr ⟨e, Queue.mem_pending.mpr ⟨he, by simp [hcall, ProducerCall.isStart]⟩, hcall⟩

section Run

variable {wireSize : ℕ → ℕ} {next : Queue ProducerCall → Event ProducerCall → Prop}
  (hnext : ∀ q e, next q e → q.IsDue e) {fl : Fleet (Data F)} {ls : List (Fleet.Label X)}
  (hrun : Run (Fleet.Step (helper.producers wireSize) next) (helper.install nodes) ls fl)

include hnext hrun

theorem serves_run : helper.Serves nodes ls fl := by
  refine hrun.invariant (fun ls fl => helper.Serves nodes ls fl) serves_install ?_
  rintro ms fl l fl' rest - - hserves ⟨he⟩
  exact hserves.step (hnext _ _ he) _

/-- What an RSU has said, and when the clock may pass its next hello. -/
theorem sentBy_eq {n : ℕ} (hn : n ∈ helper.helloNodes nodes) :
    ∃ m, (fl.sentBy n).map Prod.fst = (List.range m).map (fun k =>
        helper.startTimeOf n + k * helper.helloInterval) ∧
      ∃ e ∈ fl.queue.events, e.due = helper.startTimeOf n + m * helper.helloInterval := by
  have hserves := serves_run hnext hrun
  have hcourse := fun (t : ℕ) (xs : List X) =>
    (helper.producers (F := F) wireSize n).course_interval t (fun _ => rfl) xs
  cases ((helper.install_installed nodes).run hnext hrun).2 n with
  | waiting hstart hsamples hpend happ hsent =>
      rcases hserves.starts n hn with hstarted | ⟨e, he, hcall⟩
      · simp [hstart] at hstarted
      · have he := (Queue.mem_pending.mp he).1
        refine ⟨0, by rw [hsent]; rfl, e, he, ?_⟩
        rw [Nat.zero_mul, Nat.add_zero, (hserves.expected e he).2 n hcall]
  | running t id t' hstart hstarts hstop hsent hseq hnext' hpend hid =>
      obtain rfl := hserves.started n t hstart
      obtain ⟨htime, hsends⟩ := hcourse (helper.startTimeOf n) (Fleet.samplesOf n ls)
      refine ⟨(Fleet.samplesOf n ls).length, ?_, ⟨id, t', .sendAlert n⟩, ?_, ?_⟩
      · rw [hsent, hsends (fun _ => rfl)]
      · have hmem : ⟨id, t', .sendAlert n⟩ ∈ fl.queue.pending (ProducerCall.isSend n) := by
          rw [hpend]
          exact List.mem_singleton_self _
        exact (Queue.mem_pending.mp hmem).1
      · exact Option.some.inj (hnext'.symm.trans htime)
  | ended t hstart hstarts hsent hend hpend =>
      rcases hend with hend | hstop
      · cases hend.symm.trans (hcourse t (Fleet.samplesOf n ls)).1
      · exact absurd hstop (hserves.unstopped n)

/-- The hellos of an RSU are sent at the times of its phase, -/
theorem time_of_mem_sentBy {n : ℕ} (hn : n ∈ helper.helloNodes nodes) {s : ℕ × Data F}
    (hs : s ∈ fl.sentBy n) : ∃ k, s.1 = helper.startTimeOf n + k * helper.helloInterval := by
  obtain ⟨m, htimes, _⟩ := sentBy_eq hnext hrun hn
  have hmem := List.mem_map_of_mem (f := Prod.fst) hs
  rw [htimes] at hmem
  obtain ⟨k, _, hk⟩ := List.mem_map.mp hmem
  exact ⟨k, hk.symm⟩

/-- and none is missing that the clock has passed. -/
theorem exists_sentBy {n : ℕ} (hn : n ∈ helper.helloNodes nodes) {k : ℕ}
    (hpassed : ∀ e ∈ fl.queue.events,
      helper.startTimeOf n + k * helper.helloInterval < e.due) :
    ∃ s ∈ fl.sentBy n, s.1 = helper.startTimeOf n + k * helper.helloInterval := by
  obtain ⟨m, htimes, e, he, hdue⟩ := sentBy_eq hnext hrun hn
  have hk : k < m := by
    have hlt := hpassed e he
    rw [hdue] at hlt
    exact lt_of_mul_lt_mul_right (Nat.lt_of_add_lt_add_left hlt) (Nat.zero_le _)
  have hmem : helper.startTimeOf n + k * helper.helloInterval ∈ (fl.sentBy n).map Prod.fst := by
    rw [htimes]
    exact List.mem_map.mpr ⟨k, List.mem_range.mpr hk, rfl⟩
  exact List.mem_map.mp hmem

end Run

/-- How far the phases of even and odd RSUs are apart. -/
def phaseGap (helper : StackHelper) : ℕ :=
  min (1000000 * helper.phaseTime) (helper.helloInterval - 1000000 * helper.phaseTime)

theorem phaseTime_le (helper : StackHelper) :
    1000000 * helper.phaseTime ≤ helper.helloInterval := by
  have hround : helper.phaseTime ≤ helper.helloInterval / 1000000 := by
    have hle := Nat.mul_le_mul_left (helper.helloInterval / 1000000)
      (Nat.le_sub_one_of_lt helper.phaseShift_lt)
    unfold phaseTime
    omega
  omega

/-- Two grids of one width, shifted against each other. -/
theorem phases_apart {width shift : ℕ} (h : shift ≤ width) (k m : ℕ) :
    k * width + min shift (width - shift) ≤ shift + m * width ∨
      shift + m * width + min shift (width - shift) ≤ k * width := by
  have hmin := min_le_left shift (width - shift)
  have hmin' := min_le_right shift (width - shift)
  rcases Nat.lt_or_ge m k with hlt | hge
  · have hmul := Nat.mul_le_mul_right width (Nat.succ_le_of_lt hlt)
    rw [Nat.succ_mul] at hmul
    exact Or.inr (by omega)
  · have hmul := Nat.mul_le_mul_right width hge
    exact Or.inl (by omega)

end StackHelper

example : 2 * StackHelper.init.phaseGap = StackHelper.init.helloInterval := by decide

/-! ## What a vehicle makes of it -/

section Vehicle

variable {F : Type} [Arith F]

/-- Every hello that is sent in the window is handed to the vehicle within the delay. -/
def Hears (said : List (ℕ × Data F)) (heard : List (Station.Label (Data F)))
    (since til delay : ℕ) : Prop :=
  ∀ s ∈ said, since ≤ s.1 → s.1 ≤ til → ∃ a data nonce,
    (a, .run (.onData data) nonce) ∈ heard ∧ data.name = s.2.name ∧ s.1 ≤ a ∧ a ≤ s.1 + delay

theorem Station.recent_run {D : Type} {face : FaceId} {lifeTime : ℕ}
    {external : Occurrence D → Prop} (hext : ¬ external .onTimeout)
    {st₀ st : Station (HelloConsumer.State F) D} (hidle : st₀.Idle)
    (hflag : st₀.state.ctx.isRsuAvailable = false) {t₀ nonce : ℕ}
    {ls : List (Station.Label D)}
    (hrun : Run (Station.Step (helloConsumer F D face lifeTime) external Queue.IsDue) st₀
      ((t₀, .start nonce) :: ls) st) :
    Station.Recent lifeTime ((t₀, .start nonce) :: ls) st := by
  obtain ⟨st₁, hstart, hrest⟩ := Run.cons_iff.mp hrun
  refine hrest.invariant (fun ms s => Station.Recent lifeTime ((t₀, .start nonce) :: ms) s)
    (Station.Recent.start hidle hflag hstart) ?_
  intro ms s l s' rest _ _ hs hstep
  exact hs.step hext hstep

/-- A vehicle to whose application each hello of some RSU has been handed for an interval, at
most ten milliseconds after it was sent, takes an RSU for available for as long as this lasts,
whatever else happens at the vehicle. -/
theorem available_in_reach {helper : StackHelper} {nodes : List (NodeSpec F)} {X : Type}
    {wireSize : ℕ → ℕ} {next : Queue ProducerCall → Event ProducerCall → Prop}
    (hnext : ∀ q e, next q e → q.IsDue e) (hinterval : 0 < helper.helloInterval)
    {fl : Fleet (Data F)} {ls : List (Fleet.Label X)}
    (hrun : Run (Fleet.Step (helper.producers wireSize) next) (helper.install nodes) ls fl)
    {face : FaceId} {external : Occurrence (Data F) → Prop} (hext : ¬ external .onTimeout)
    {st₀ st : Station (HelloConsumer.State F) (Data F)} (hidle : st₀.Idle)
    (hflag : st₀.state.ctx.isRsuAvailable = false) {t₀ nonce : ℕ}
    {heard : List (Station.Label (Data F))}
    (hvehicle : Run (Station.Step (helloConsumer F (Data F) face helper.lifeTime) external
      Queue.IsDue) st₀ ((t₀, .start nonce) :: heard) st)
    {t delay : ℕ} (hdelay : delay ≤ 10000000) (hnow : st.queue.now ≤ t)
    (hpassed : ∀ e ∈ fl.queue.events, t < e.due + delay)
    {n : ℕ} (hn : n ∈ helper.helloNodes nodes) {since til : ℕ}
    (hears : Hears (fl.sentBy n) heard since til delay)
    (hsince : max (helper.startTimeOf n) (since + helper.helloInterval) + delay ≤ t)
    (htil : t ≤ til + delay) : st.state.ctx.isRsuAvailable = true := by
  -- the last hello that has had its time to arrive
  set k := (t - delay - helper.startTimeOf n) / helper.helloInterval
  have hk : k * helper.helloInterval ≤ t - delay - helper.startTimeOf n := Nat.div_mul_le_self _ _
  have hk' : t - delay - helper.startTimeOf n <
      k * helper.helloInterval + helper.helloInterval := Nat.lt_div_mul_add hinterval
  obtain ⟨s, hs, htime⟩ := StackHelper.exists_sentBy hnext hrun hn (k := k) fun e he => by
    have := hpassed e he
    omega
  obtain ⟨a, data, nonce', hmem, _, hsent, harrive⟩ := hears s hs (by omega) (by omega)
  have hrecent := Station.recent_run hext hidle hflag hvehicle
  by_contra hdown
  have hold := hrecent.down (Bool.eq_false_of_not_eq_true hdown) a
    ⟨data, nonce', List.mem_cons_of_mem _ hmem⟩
  unfold StackHelper.lifeTime at hold
  omega

end Vehicle

/-! ## Three RSUs and a vehicle

The RSUs start after ten, fifteen and ten milliseconds. The vehicle is near the
first, whose hellos take ten nanoseconds. -/

namespace HelloRow

def helper : StackHelper :=
  { StackHelper.init.setPhaseShift 540 with
    startTime := 10000000, enableHello := true, helloInterval := 10000000 }

noncomputable def rsu : NodeSpec ℝ := ⟨.rsu, .active, some ⟨0, 0⟩, (50 : ℕ), [.wifi]⟩

noncomputable def nodes : List (NodeSpec ℝ) := [rsu, rsu, rsu]

theorem helloNodes : helper.helloNodes nodes = [0, 1, 2] := by
  simp [StackHelper.helloNodes, helper, nodes, rsu]

theorem start : helper.install nodes = ⟨⟨0, 3, [⟨0, 10000000, .startApplication 0⟩,
    ⟨1, 15000000, .startApplication 1⟩, ⟨2, 10000000, .startApplication 2⟩]⟩,
      fun _ => ⟨0, none⟩, []⟩ := by
  rw [StackHelper.install, helloNodes]
  rfl

def hello (seq : ℕ) : Data ℝ := newAlert (alertName
  [.generic (StackHelper.utf8 "alert"), .generic (StackHelper.utf8 "hello"),
    .generic (StackHelper.utf8 "rsu"), .generic (StackHelper.utf8 "0")] seq none) 226

theorem run : ∃ fl, Run (Fleet.Step (X := ℕ) (helper.producers fun _ => 226) Queue.IsFirst)
    (helper.install nodes) [(10000000, .startApplication 0, 0), (10000000, .startApplication 2, 0),
      (10000000, .sendAlert 0, 0), (10000000, .sendAlert 2, 0), (15000000, .startApplication 1, 0),
      (15000000, .sendAlert 1, 0), (20000000, .sendAlert 0, 0), (20000000, .sendAlert 2, 0)] fl ∧
    fl.queue.events = [⟨8, 25000000, .sendAlert 1⟩, ⟨9, 30000000, .sendAlert 0⟩,
      ⟨10, 30000000, .sendAlert 2⟩] ∧
    fl.sentBy 0 = [(10000000, hello 0), (20000000, hello 1)] := by
  rw [start]
  exact ⟨_, ((((((((Run.nil.snoc (.run (e := ⟨0, 10000000, .startApplication 0⟩) (by decide))).snoc
    (.run (e := ⟨2, 10000000, .startApplication 2⟩) (by decide))).snoc
    (.run (e := ⟨3, 10000000, .sendAlert 0⟩) (by decide))).snoc
    (.run (e := ⟨4, 10000000, .sendAlert 2⟩) (by decide))).snoc
    (.run (e := ⟨1, 15000000, .startApplication 1⟩) (by decide))).snoc
    (.run (e := ⟨7, 15000000, .sendAlert 1⟩) (by decide))).snoc
    (.run (e := ⟨5, 20000000, .sendAlert 0⟩) (by decide))).snoc
    (.run (e := ⟨6, 20000000, .sendAlert 2⟩) (by decide))), rfl, rfl⟩

noncomputable def app : AlertConsumer (HelloConsumer.State ℝ) (Data ℝ) :=
  helloConsumer ℝ (Data ℝ) 300 helper.lifeTime

/-- The vehicle has started, and two hellos are on their way to its application. -/
noncomputable def told : Station (HelloConsumer.State ℝ) (Data ℝ) :=
  { OneHello.idle.startApplication app 7 with
    queue := ((OneHello.idle.startApplication app 7).queue.schedule 10000010
      (.onData (hello 0))).schedule 20000010 (.onData (hello 1)) }

theorem told_events : told.queue.events = [⟨0, 20000000, .onTimeout⟩,
    ⟨1, 10000010, .onData (hello 0)⟩, ⟨2, 20000010, .onData (hello 1)⟩] := rfl

noncomputable def heardOne : Station (HelloConsumer.State ℝ) (Data ℝ) :=
  { told with queue := told.queue.take ⟨1, 10000010, .onData (hello 0)⟩ }.react app 8
    (.onData (hello 0))

theorem heardOne_events : heardOne.queue.events =
    [⟨2, 20000010, .onData (hello 1)⟩, ⟨3, 30000010, .onTimeout⟩] := rfl

noncomputable def heardTwo : Station (HelloConsumer.State ℝ) (Data ℝ) :=
  { heardOne with queue := heardOne.queue.take ⟨2, 20000010, .onData (hello 1)⟩ }.react app 9
    (.onData (hello 1))

theorem heardTwo_events : heardTwo.queue.events = [⟨4, 40000010, .onTimeout⟩] := rfl

def heard : List (Station.Label (Data ℝ)) :=
  [(0, .announce 10000010 (.onData (hello 0))), (0, .announce 20000010 (.onData (hello 1))),
    (10000010, .run (.onData (hello 0)) 8), (20000010, .run (.onData (hello 1)) 9)]

theorem hears : Run (Station.Step app (fun occ => ∃ data, occ = .onData data) Queue.IsDue)
    OneHello.idle ((0, .start 7) :: heard) heardTwo := by
  have hfirst : told.queue.IsDue ⟨1, 10000010, .onData (hello 0)⟩ := by
    refine ⟨by simp [told_events], ?_⟩
    intro e he
    rw [told_events] at he
    simp only [List.mem_cons, List.not_mem_nil, or_false] at he
    rcases he with rfl | rfl | rfl <;> norm_num
  have hsecond : heardOne.queue.IsDue ⟨2, 20000010, .onData (hello 1)⟩ := by
    refine ⟨by simp [heardOne_events], ?_⟩
    intro e he
    rw [heardOne_events] at he
    rcases List.mem_pair.mp he with rfl | rfl <;> norm_num
  exact ((((Run.nil.snoc (.start rfl)).snoc (.announce ⟨_, rfl⟩)).snoc
    (.announce ⟨_, rfl⟩)).snoc (.run hfirst)).snoc (.run hsecond)

end HelloRow

/-- The vehicle takes an RSU for available four milliseconds after the second hello. -/
theorem available_in_reach_row : ∃ heard st,
    Run (Station.Step HelloRow.app (fun occ => ∃ data, occ = .onData data) Queue.IsDue)
      OneHello.idle ((0, .start 7) :: heard) st ∧ st.queue.now ≤ 24000000 ∧
    (∀ e ∈ st.queue.events, 24000000 < e.due) ∧ st.state.ctx.isRsuAvailable = true := by
  obtain ⟨fl, hrun, hevents, hsent⟩ := HelloRow.run
  have hnow : HelloRow.heardTwo.queue.now ≤ 24000000 := by decide
  refine ⟨_, _, HelloRow.hears, hnow, by simp [HelloRow.heardTwo_events], ?_⟩
  have hpassed : ∀ e ∈ fl.queue.events, 24000000 < e.due + 10 := by
    rw [hevents]
    simp
  have hears : Hears (fl.sentBy 0) HelloRow.heard 0 24000000 10 := by
    rw [hsent]
    intro s hs _ _
    rcases List.mem_pair.mp hs with rfl | rfl
    · exact ⟨10000010, HelloRow.hello 0, 8, by simp [HelloRow.heard], rfl, by decide, by decide⟩
    · exact ⟨20000010, HelloRow.hello 1, 9, by simp [HelloRow.heard], rfl, by decide, by decide⟩
  exact available_in_reach (fun _ _ h => h.1) (by decide) hrun (by simp) OneHello.idle_idle rfl
    HelloRow.hears (t := 24000000) (by norm_num) hnow hpassed (n := 0)
    (by simp [HelloRow.helloNodes]) hears (by decide) (by decide)

end Cafe
