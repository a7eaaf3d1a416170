import Cafe.DataPacket
import Cafe.Producer

/-!
# The names of alerts

An alert is named by the prefix of its producer, a sequence number and a zone.
A network tells alerts apart by their names alone.
-/

open Labelled EventQueue

namespace Cafe

variable {F X : Type}

/-- `appendSequenceNumber` and `appendZoR`; an application without a zone
addresses the next hop. -/
def alertName (mPrefix : Name F) (seq : ℕ) (zor : Option (ZoR F)) : Name F :=
  mPrefix ++ [.generic (AlertAttributes.fromSequenceNumber seq).value, .zor (zor.getD .neighbor)]

/-- The alert, untagged. -/
def newAlert (name : Name F) (size : ℕ) : Data F := ⟨name, size, none, none, none, 0⟩

structure RandomAlertProducer (F X : Type) where
  mPrefix : Name F
  interval : ℕ
  threshold : X
  zor : Option (ZoR F)
  /-- the size of the encoded alert -/
  wireSize : ℕ → ℕ

/-- An interval of zero makes one attempt and no more. -/
def RandomAlertProducer.producer [LT X] [DecidableLT X] (app : RandomAlertProducer F X) :
    AlertProducer (Data F) X where
  alertSupplier seq := newAlert (alertName app.mPrefix seq app.zor) (app.wireSize seq)
  sends x := x < app.threshold
  rearm _ := if app.interval = 0 then none else some app.interval

structure HelloProducer (F X : Type) where
  mPrefix : Name F
  interval : ℕ
  /-- where it is enabled, the jitter that a sample stands for -/
  jitter : Option (X → ℤ)
  wireSize : ℕ → ℕ

/-- The event is scheduled after the interval and the jitter, which the simulator
refuses if it is negative. -/
def HelloProducer.producer (app : HelloProducer F X) : AlertProducer (Data F) X where
  alertSupplier seq := newAlert (alertName app.mPrefix seq none) (app.wireSize seq)
  sends _ := true
  rearm x := some (app.interval + app.jitter.elim 0 fun sample => sample x).toNat

inductive ProducerApp (F X : Type)
  | random (app : RandomAlertProducer F X)
  | hello (app : HelloProducer F X)

namespace ProducerApp

def producer [LT X] [DecidableLT X] : ProducerApp F X → AlertProducer (Data F) X
  | random app => app.producer
  | hello app => app.producer

def mPrefix : ProducerApp F X → Name F
  | random app => app.mPrefix
  | hello app => app.mPrefix

def zor : ProducerApp F X → Option (ZoR F)
  | random app => app.zor
  | hello _ => none

theorem name_alertSupplier [LT X] [DecidableLT X] (app : ProducerApp F X) (seq : ℕ) :
    (app.producer.alertSupplier seq).name = alertName app.mPrefix seq app.zor := by
  cases app <;> rfl

end ProducerApp

/-! ## Names and numbers -/

theorem fromSequenceNumber_inj {n m : ℕ} (hn : n < 2 ^ 64) (hm : m < 2 ^ 64)
    (h : (AlertAttributes.fromSequenceNumber n).value =
      (AlertAttributes.fromSequenceNumber m).value) : n = m := by
  have hblock : AlertAttributes.fromSequenceNumber n = AlertAttributes.fromSequenceNumber m :=
    congrArg (Block.mk 58) h
  have hread := readNonNegativeInteger_make 58 hn
  rw [show makeNonNegativeIntegerBlock 58 n = _ from hblock] at hread
  exact (Except.ok.inj (hread.symm.trans (readNonNegativeInteger_make 58 hm)))

theorem alertName_inj {pre pre' : Name F} {n m : ℕ} {zor zor' : Option (ZoR F)} (hn : n < 2 ^ 64)
    (hm : m < 2 ^ 64) (h : alertName pre n zor = alertName pre' m zor') :
    pre = pre' ∧ n = m := by
  obtain ⟨hpre, htail⟩ := List.append_inj' h rfl
  have hvalue := Component.generic.inj (List.cons.inj htail).1
  exact ⟨hpre, fromSequenceNumber_inj hn hm hvalue⟩

namespace AlertProducer

variable {D : Type} (p : AlertProducer D X) (t : ℕ)

/-- The numbers of a course are consecutive, on 32 bits. -/
theorem course_numbers (xs : List X) :
    (p.course t xs).sent.map Prod.snd =
      (List.range (p.course t xs).sent.length).map (fun k => p.alertSupplier (k % 2 ^ 32)) ∧
    (p.course t xs).seq = (p.course t xs).sent.length % 2 ^ 32 ∧
    (p.course t xs).sent.length ≤ xs.length := by
  induction xs using List.reverseRecOn with
  | nil => simp [course]
  | append_singleton xs x ih =>
      obtain ⟨hsent, hseq, hlen⟩ := ih
      cases hnext : (p.course t xs).next with
      | none =>
          rw [course_snoc, advance, hnext, List.length_append]
          exact ⟨hsent, hseq, hlen.trans (Nat.le_add_right _ _)⟩
      | some t' =>
          rw [course_snoc_of_next p hnext]
          by_cases hx : p.sends x
          · simp only [if_pos hx, List.map_append, List.length_append, List.length_cons,
              List.length_nil, zero_add,
              List.map_cons, List.map_nil, List.range_succ]
            refine ⟨by rw [hsent, hseq], ?_, Nat.add_le_add_right hlen 1⟩
            rw [hseq, nextSeq, Nat.mod_add_mod]
          · simp only [if_neg hx, List.append_nil, List.length_append]
            exact ⟨hsent, hseq, hlen.trans (Nat.le_add_right _ _)⟩

/-- With a fixed interval an application is called at fixed times. -/
theorem course_interval {interval : ℕ} (h : ∀ x, p.rearm x = some interval) (xs : List X) :
    (p.course t xs).next = some (t + xs.length * interval) ∧
    ((∀ x, p.sends x = true) → (p.course t xs).sent.map Prod.fst =
      (List.range xs.length).map fun k => t + k * interval) := by
  induction xs using List.reverseRecOn with
  | nil => exact ⟨by simp [course], fun _ => rfl⟩
  | append_singleton xs x ih =>
      obtain ⟨hnext, hsent⟩ := ih
      rw [course_snoc_of_next p hnext, h]
      simp only [Option.map_some, List.length_append, List.length_cons, List.length_nil, zero_add]
      refine ⟨by rw [Nat.succ_mul, ← add_assoc], fun hall => ?_⟩
      rw [if_pos (hall x), List.map_append, hsent hall, List.range_succ, List.map_append]
      rfl

end AlertProducer

/-- A list has no repetition if its parts have none and equal images lie in one part. -/
theorem nodup_map_of_parts {α β ι : Type} [DecidableEq ι] {f : α → β} (part : α → ι) :
    ∀ {l : List α}, (∀ a ∈ l, ∀ b ∈ l, f a = f b → part a = part b) →
      (∀ i, ((l.filter fun a => part a = i).map f).Nodup) → (l.map f).Nodup
  | [], _, _ => List.nodup_nil
  | a :: l, happart, hparts => by
      have hhead := hparts (part a)
      rw [List.filter_cons_of_pos (by simp), List.map_cons, List.nodup_cons] at hhead
      rw [List.map_cons, List.nodup_cons]
      have hrest : ∀ b ∈ l, ∀ c ∈ l, f b = f c → part b = part c :=
        fun b hb c hc => happart b (List.mem_cons_of_mem a hb) c (List.mem_cons_of_mem a hc)
      refine ⟨?_, nodup_map_of_parts part hrest ?_⟩
      · intro hmem
        obtain ⟨b, hb, hf⟩ := List.mem_map.mp hmem
        refine hhead.1 (List.mem_map.mpr ⟨b, List.mem_filter.mpr ⟨hb, ?_⟩, hf⟩)
        simpa using happart b (by simp [hb]) a (by simp) hf
      · intro i
        exact (hparts i).sublist (((List.sublist_cons_self a l).filter _).map f)

section Labels

variable {D β : Type} (label : D → β)

/-- What one application sends is told apart by labels that tell its numbers apart, until
its counter wraps. -/
theorem AlertProducer.nodup_course {p : AlertProducer D X}
    (hinj : ∀ n m, n < 2 ^ 32 → m < 2 ^ 32 →
      label (p.alertSupplier n) = label (p.alertSupplier m) → n = m) (t : ℕ) (xs : List X) :
    ((p.course t xs).sent.map fun s => label s.2).Nodup ↔ (p.course t xs).sent.length ≤ 2 ^ 32 := by
  have hlabels := congrArg (List.map label) (p.course_numbers t xs).1
  simp only [List.map_map, Function.comp_def] at hlabels
  rw [hlabels]
  constructor
  · intro hnodup
    by_contra hlong
    have heq := List.inj_on_of_nodup_map hnodup (List.mem_range.mpr (by omega : 0 < _))
      (List.mem_range.mpr (not_le.mp hlong)) (by norm_num)
    norm_num at heq
  · intro hlen
    refine List.Nodup.map_on ?_ List.nodup_range
    intro k hk m hm heq
    have hk := (List.mem_range.mp hk).trans_le hlen
    have hm := (List.mem_range.mp hm).trans_le hlen
    rw [Nat.mod_eq_of_lt hk, Nat.mod_eq_of_lt hm] at heq
    exact hinj k m hk hm heq

/-- The same of several applications, if their labels tell them apart too. -/
theorem Fleet.nodup_labels {producers : ℕ → AlertProducer D X}
    (hinj : ∀ i j n m, n < 2 ^ 32 → m < 2 ^ 32 →
      label ((producers i).alertSupplier n) = label ((producers j).alertSupplier m) → i = j ∧ n = m)
    {next : Queue ProducerCall → Event ProducerCall → Prop} (hnext : ∀ q e, next q e → q.IsDue e)
    {fl₀ fl : Fleet D} (hinit : fl₀.Installed) {ls : List (Fleet.Label X)}
    (hrun : Run (Fleet.Step producers next) fl₀ ls fl) :
    (fl.sent.map fun s => label s.data).Nodup ↔ ∀ i, (fl.sentBy i).length ≤ 2 ^ 32 := by
  have hpart : ∀ i, ((fl.sent.filter fun s => s.app = i).map fun s => label s.data).Nodup ↔
      (fl.sentBy i).length ≤ 2 ^ 32 := by
    intro i
    obtain ⟨t, xs, hsent⟩ := hinit.sentBy hnext hrun i
    have hnodup := AlertProducer.nodup_course label
      (fun n m hn hm heq => (hinj i i n m hn hm heq).2) t xs
    rw [← hsent] at hnodup
    rw [← hnodup, Fleet.sentBy, List.map_map]
    rfl
  have hsupplied : ∀ s ∈ fl.sent, ∃ n < 2 ^ 32, s.data = (producers s.app).alertSupplier n := by
    intro s hs
    obtain ⟨t, xs, hsent⟩ := hinit.sentBy hnext hrun s.app
    have hmem : (s.time, s.data) ∈ fl.sentBy s.app :=
      List.mem_map.mpr ⟨s, List.mem_filter.mpr ⟨hs, by simp⟩, rfl⟩
    rw [hsent] at hmem
    have hdata := List.mem_map_of_mem (f := Prod.snd) hmem
    rw [((producers s.app).course_numbers t xs).1] at hdata
    obtain ⟨k, _, hk⟩ := List.mem_map.mp hdata
    exact ⟨k % 2 ^ 32, Nat.mod_lt _ (by norm_num), hk.symm⟩
  constructor
  · intro hnodup i
    exact (hpart i).mp (hnodup.sublist (List.filter_sublist.map _))
  · intro hcount
    refine nodup_map_of_parts Sent.app ?_ fun i => (hpart i).mpr (hcount i)
    intro s hs s' hs' heq
    obtain ⟨n, hn, hdata⟩ := hsupplied s hs
    obtain ⟨m, hm, hdata'⟩ := hsupplied s' hs'
    rw [hdata, hdata'] at heq
    exact (hinj _ _ n m hn hm heq).1

end Labels

/-- The names that applications with different prefixes give are distinct. -/
theorem Fleet.nodup_names [LT X] [DecidableLT X] {apps : ℕ → ProducerApp F X}
    {next : Queue ProducerCall → Event ProducerCall → Prop} (hnext : ∀ q e, next q e → q.IsDue e)
    {fl₀ fl : Fleet (Data F)} (hinit : fl₀.Installed) {ls : List (Fleet.Label X)}
    (hrun : Run (Fleet.Step (fun i => (apps i).producer) next) fl₀ ls fl)
    (hprefixes : ∀ i j, (apps i).mPrefix = (apps j).mPrefix → i = j) :
    (fl.sent.map fun s => s.data.name).Nodup ↔ ∀ i, (fl.sentBy i).length ≤ 2 ^ 32 := by
  refine Fleet.nodup_labels Data.name (fun i j n m hn hm heq => ?_) hnext hinit hrun
  rw [ProducerApp.name_alertSupplier, ProducerApp.name_alertSupplier] at heq
  obtain ⟨hpre, hnum⟩ :=
    alertName_inj (hn.trans (by norm_num)) (hm.trans (by norm_num)) heq
  exact ⟨hprefixes i j hpre, hnum⟩

/-! ## What the network is given -/

theorem filterMap_sublist_filterMap {α β : Type} {f g : α → Option β}
    (h : ∀ a b, f a = some b → g a = some b) :
    ∀ l : List α, (l.filterMap f).Sublist (l.filterMap g)
  | [] => .slnil
  | a :: l => by
      have ih := filterMap_sublist_filterMap h l
      cases hf : f a with
      | some b =>
          rw [List.filterMap_cons_some hf, List.filterMap_cons_some (h a b hf)]
          exact ih.cons_cons b
      | none =>
          rw [List.filterMap_cons_none hf]
          cases hg : g a with
          | none => rwa [List.filterMap_cons_none hg]
          | some b =>
              rw [List.filterMap_cons_some hg]
              exact ih.cons b

namespace Net

/-- The name that a local application gives to what it creates. -/
def Label.created : Label F → Option (Name F)
  | (_, .occur _ (.receive _ data _)) => some data.name
  | _ => none

theorem Label.created_of_injected {l : Label F} {name : Name F}
    (h : Label.injected l = some name) : l.created = some name := by
  obtain ⟨t, c | c | c | ⟨n, ev⟩⟩ := l
  · cases h
  · cases h
  · cases h
  · obtain ⟨now, data, ingress, rfl, rfl⟩ := NodeEvent.alert_eq_some h
    rfl

end Net

/-- Where no two applications share a prefix, no name is given twice as long as none of them
sends more than `2 ^ 32` alerts, and only so long. A network that is handed these alerts has
each of them injected once. -/
theorem no_name_twice [LT X] [DecidableLT X] {apps : ℕ → ProducerApp F X}
    {next : Queue ProducerCall → Event ProducerCall → Prop} (hnext : ∀ q e, next q e → q.IsDue e)
    {fl₀ fl : Fleet (Data F)} (hinit : fl₀.Installed) {ls : List (Fleet.Label X)}
    (hrun : Run (Fleet.Step (fun i => (apps i).producer) next) fl₀ ls fl)
    (hprefixes : ∀ i j, (apps i).mPrefix = (apps j).mPrefix → i = j) :
    ((fl.sent.map fun s => s.data.name).Nodup ↔ ∀ i, (fl.sentBy i).length ≤ 2 ^ 32) ∧
    ((∀ i, (fl.sentBy i).length ≤ 2 ^ 32) → ∀ events : List (Net.Label F),
      (events.filterMap Net.Label.created).Sublist (fl.sent.map fun s => s.data.name) →
        (Net.injections events).Nodup) := by
  have hnodup := Fleet.nodup_names hnext hinit hrun hprefixes
  refine ⟨hnodup, fun hcount events hevents => ?_⟩
  refine (hnodup.mpr hcount).sublist (List.Sublist.trans ?_ hevents)
  exact filterMap_sublist_filterMap (fun _ _ => Net.Label.created_of_injected) events

namespace TwoProducers

/-- An RSU says hello and a vehicle has one alert for its neighbours. -/
def apps (i : ℕ) : ProducerApp ℝ ℕ :=
  if i = 0 then .hello ⟨[], 10, none, fun _ => 100⟩
  else .random ⟨List.replicate i (.generic [97]), 0, 5, none, fun _ => 375⟩

theorem apps_mPrefix (i : ℕ) : (apps i).mPrefix = List.replicate i (.generic [97]) := by
  unfold apps
  split
  · rename_i h
    rw [h]
    rfl
  · rfl

theorem run_apps : ∃ fl, Run (Fleet.Step (fun i => (apps i).producer) Queue.IsFirst)
    (installed (Data ℝ)) labels fl ∧ fl.sent.length = 3 := by
  refine ⟨_, ((((((Run.nil.snoc (.run (e := ⟨0, 0, .startApplication 0⟩) ?_)).snoc
    (.run (e := ⟨3, 0, .sendAlert 0⟩) ?_)).snoc (.run (e := ⟨1, 5, .startApplication 1⟩) ?_)).snoc
    (.run (e := ⟨5, 5, .sendAlert 1⟩) ?_)).snoc (.run (e := ⟨4, 10, .sendAlert 0⟩) ?_)).snoc
    (.run (e := ⟨2, 15, .stopApplication 0⟩) ?_)), ?_⟩
  all_goals decide

end TwoProducers

theorem no_name_twice_two : ∃ fl, Run (Fleet.Step (fun i => (TwoProducers.apps i).producer)
    Queue.IsFirst) (TwoProducers.installed (Data ℝ)) TwoProducers.labels fl ∧
    (fl.sent.map fun s => s.data.name).Nodup := by
  obtain ⟨fl, hrun, hthree⟩ := TwoProducers.run_apps
  have hprefixes : ∀ i j, (TwoProducers.apps i).mPrefix = (TwoProducers.apps j).mPrefix →
      i = j := by
    intro i j h
    simpa [TwoProducers.apps_mPrefix] using congrArg List.length h
  have hcount : ∀ i, (fl.sentBy i).length ≤ 2 ^ 32 := by
    intro i
    have hle := List.length_filter_le (fun s : Sent (Data ℝ) => s.app = i) fl.sent
    rw [Fleet.sentBy, List.length_map]
    omega
  exact ⟨fl, hrun, (no_name_twice (fun _ _ h => h.1)
    (TwoProducers.installed_installed (Data ℝ)) hrun hprefixes).1.mpr hcount⟩

end Cafe
