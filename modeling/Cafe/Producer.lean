import Cafe.AtMostOnce
import Cafe.Elements
import Cafe.EventQueue

/-!
# Producers of alerts

An application that produces alerts is called by the simulator: when it starts,
when it is to send, when it stops. Each call that sends schedules the next
one. The applications of all nodes share the queue of the simulator.
-/

open Labelled EventQueue

namespace Cafe

/-- The methods that the kinds of producers differ in. A call draws a random
sample. -/
structure AlertProducer (D X : Type) where
  alertSupplier : ℕ → D
  sends : X → Bool
  /-- the delay until the next call -/
  rearm : X → Option ℕ

/-- `m_seq++` on 32 bits -/
def nextSeq (seq : ℕ) : ℕ := (seq + 1) % 2 ^ 32

inductive ProducerCall
  | startApplication (i : ℕ)
  | sendAlert (i : ℕ)
  | stopApplication (i : ℕ)
  deriving DecidableEq

namespace ProducerCall

/-- The application that is called. -/
def app : ProducerCall → ℕ
  | .startApplication i => i
  | .sendAlert i => i
  | .stopApplication i => i

def isSend (i : ℕ) : ProducerCall → Bool
  | .sendAlert j => i = j
  | _ => false

def isStart (i : ℕ) : ProducerCall → Bool
  | .startApplication j => i = j
  | _ => false

end ProducerCall

structure ProducerState where
  seq : ℕ
  sendEvent : Option ℕ

/-- What an application hands to the forwarder. -/
structure Sent (D : Type) where
  time : ℕ
  app : ℕ
  data : D

structure Fleet (D : Type) where
  queue : Queue ProducerCall
  apps : ℕ → ProducerState
  sent : List (Sent D)

namespace Fleet

variable {D X : Type}

def startApplication (fl : Fleet D) (i : ℕ) : Fleet D :=
  { fl with
    queue := fl.queue.schedule 0 (.sendAlert i)
    apps := Function.update fl.apps i { fl.apps i with sendEvent := some fl.queue.nextId } }

def stopApplication (fl : Fleet D) (i : ℕ) : Fleet D :=
  { fl with queue := fl.queue.cancel (fl.apps i).sendEvent }

def doSend (p : AlertProducer D X) (fl : Fleet D) (i : ℕ) : Fleet D :=
  { fl with
    apps := Function.update fl.apps i { fl.apps i with seq := nextSeq (fl.apps i).seq }
    sent := fl.sent ++ [⟨fl.queue.now, i, p.alertSupplier (fl.apps i).seq⟩] }

def sendAlert (p : AlertProducer D X) (fl : Fleet D) (i : ℕ) (x : X) : Fleet D :=
  let fl := if p.sends x then fl.doSend p i else fl
  match p.rearm x with
  | some delay =>
      { fl with
        queue := fl.queue.schedule delay (.sendAlert i)
        apps := Function.update fl.apps i { fl.apps i with sendEvent := some fl.queue.nextId } }
  | none => fl

def react (producers : ℕ → AlertProducer D X) (fl : Fleet D) (x : X) : ProducerCall → Fleet D
  | .startApplication i => fl.startApplication i
  | .sendAlert i => fl.sendAlert (producers i) i x
  | .stopApplication i => fl.stopApplication i

abbrev Label (X : Type) := ℕ × ProducerCall × X

/-- The simulator takes an event that is `next`. -/
inductive Step (producers : ℕ → AlertProducer D X)
    (next : Queue ProducerCall → Event ProducerCall → Prop) (fl : Fleet D) :
    Label X → Fleet D → Prop
  | run {e : Event ProducerCall} {x : X} (hnext : next fl.queue e) :
      Step producers next fl (e.due, e.action, x)
        ({ fl with queue := fl.queue.take e }.react producers x e.action)

/-- The applications are installed: the simulator will start each once at most. -/
structure Installed (fl : Fleet D) : Prop where
  sound : fl.queue.Sound
  sends : ∀ i, fl.queue.pending (ProducerCall.isSend i) = []
  starts : ∀ i, (fl.queue.pending (ProducerCall.isStart i)).length ≤ 1
  apps : ∀ i, fl.apps i = ⟨0, none⟩
  sent : fl.sent = []

end Fleet

/-! ## One producer by itself -/

/-- What a producer has sent, with the times, and when it is called next. -/
structure Course (D : Type) where
  sent : List (ℕ × D)
  seq : ℕ
  next : Option ℕ

namespace AlertProducer

variable {D X : Type}

def advance (p : AlertProducer D X) (c : Course D) (x : X) : Course D :=
  match c.next with
  | none => c
  | some t =>
      { sent := c.sent ++ if p.sends x then [(t, p.alertSupplier c.seq)] else []
        seq := if p.sends x then nextSeq c.seq else c.seq
        next := (p.rearm x).map fun delay => t + delay }

/-- The course of a producer that starts at time `t` and draws these samples. -/
def course (p : AlertProducer D X) (t : ℕ) (xs : List X) : Course D :=
  xs.foldl p.advance ⟨[], 0, some t⟩

theorem course_snoc (p : AlertProducer D X) (t : ℕ) (xs : List X) (x : X) :
    p.course t (xs ++ [x]) = p.advance (p.course t xs) x := List.foldl_append

theorem course_snoc_of_next (p : AlertProducer D X) {t t' : ℕ} {xs : List X}
    (h : (p.course t xs).next = some t') (x : X) : p.course t (xs ++ [x]) =
      { sent := (p.course t xs).sent ++
          if p.sends x then [(t', p.alertSupplier (p.course t xs).seq)] else []
        seq := if p.sends x then nextSeq (p.course t xs).seq else (p.course t xs).seq
        next := (p.rearm x).map fun delay => t' + delay } := by
  rw [course_snoc, advance, h]

end AlertProducer

/-! ## The applications on one queue -/

namespace Fleet

variable {D X : Type}

/-- The samples that an application has drawn. -/
def samplesOf (i : ℕ) (ls : List (Label X)) : List X :=
  ls.filterMap fun l => if l.2.1 = .sendAlert i then some l.2.2 else none

def startedAt (i : ℕ) (ls : List (Label X)) : Option ℕ :=
  (ls.find? fun l => l.2.1 = .startApplication i).map Prod.fst

/-- The application was stopped after its start. -/
def Stopped (i : ℕ) (ls : List (Label X)) : Prop :=
  ∃ pre l post, ls = pre ++ l :: post ∧ l.2.1 = .stopApplication i ∧ (startedAt i pre).isSome

def sentBy (fl : Fleet D) (i : ℕ) : List (ℕ × D) :=
  (fl.sent.filter fun s => s.app = i).map fun s => (s.time, s.data)

theorem samplesOf_snoc (i : ℕ) (ls : List (Label X)) (l : Label X) :
    samplesOf i (ls ++ [l]) = samplesOf i ls ++ if l.2.1 = .sendAlert i then [l.2.2] else [] := by
  rw [samplesOf, List.filterMap_append]
  congr 1
  by_cases h : l.2.1 = .sendAlert i <;> simp [h]

theorem startedAt_snoc (i : ℕ) (ls : List (Label X)) (l : Label X) :
    startedAt i (ls ++ [l]) = (startedAt i ls).or
      (if l.2.1 = .startApplication i then some l.1 else none) := by
  rw [startedAt, List.find?_append, Option.map_or]
  by_cases h : l.2.1 = .startApplication i <;> simp [startedAt, h]

theorem Stopped.append {i : ℕ} {ls : List (Label X)} (h : Stopped i ls) (ms : List (Label X)) :
    Stopped i (ls ++ ms) := by
  obtain ⟨pre, l', post, rfl, hcall, hstart⟩ := h
  exact ⟨pre, l', post ++ ms, by simp, hcall, hstart⟩

theorem stopped_snoc {i : ℕ} {ls : List (Label X)} {l : Label X} (h : Stopped i (ls ++ [l])) :
    Stopped i ls ∨ l.2.1 = .stopApplication i := by
  obtain ⟨pre, l', post, heq, hcall, hstart⟩ := h
  rcases List.eq_nil_or_concat' post with rfl | ⟨post, m, rfl⟩
  · obtain ⟨_, rfl⟩ := List.append_inj' heq rfl |>.imp_right List.singleton_inj.mp
    exact Or.inr hcall
  · rw [← List.cons_append, ← List.append_assoc] at heq
    exact Or.inl ⟨pre, l', post, (List.append_inj' heq rfl).1, hcall, hstart⟩

theorem Stopped.started {i : ℕ} {ls : List (Label X)} (h : Stopped i ls) :
    (startedAt i ls).isSome := by
  obtain ⟨pre, l, post, rfl, _, hstart⟩ := h
  rw [startedAt, List.find?_append, Option.map_or, Option.isSome_or]
  exact Bool.or_eq_true_iff.mpr (Or.inl hstart)

/-- The kept ids are those of the events they were kept for. -/
structure Tidy (fl : Fleet D) : Prop where
  sound : fl.queue.Sound
  handle : ∀ i, fl.queue.Handle (fl.apps i).sendEvent (.sendAlert i)
  starts : ∀ i, (fl.queue.pending (ProducerCall.isStart i)).length ≤ 1

theorem Tidy.take {fl : Fleet D} (h : fl.Tidy) {e : Event ProducerCall} (he : fl.queue.IsDue e) :
    ({ fl with queue := fl.queue.take e } : Fleet D).Tidy where
  sound := h.sound.take he
  handle i := (h.handle i).take e
  starts i := by
    refine le_trans ?_ (h.starts i)
    have hfilter : (fl.queue.take e).pending (ProducerCall.isStart i) =
        (fl.queue.pending (ProducerCall.isStart i)).filter fun e' => e'.id ≠ e.id := by
      simp only [Queue.pending, Queue.take, List.filter_filter, Bool.and_comm]
    exact hfilter ▸ List.length_filter_le _ _

/-- Scheduling a call and keeping its id. -/
theorem Tidy.rearm {fl : Fleet D} (h : fl.Tidy) (i delay seq : ℕ) :
    ({ fl with
        queue := fl.queue.schedule delay (.sendAlert i)
        apps := Function.update fl.apps i ⟨seq, some fl.queue.nextId⟩ } : Fleet D).Tidy where
  sound := h.sound.schedule _ _
  handle j := by
    by_cases hj : j = i
    · subst hj
      simpa using h.sound.handle_schedule delay (.sendAlert j)
    · simpa [hj] using (h.handle j).schedule delay (.sendAlert i)
  starts j := by
    rw [Queue.pending_schedule]
    simpa [ProducerCall.isStart] using h.starts j

theorem Tidy.doSend {fl : Fleet D} (h : fl.Tidy) (p : AlertProducer D X) (i : ℕ) :
    (fl.doSend p i).Tidy where
  sound := h.sound
  handle j := by
    by_cases hj : j = i
    · subst hj
      simpa [Fleet.doSend] using h.handle j
    · simpa [Fleet.doSend, hj] using h.handle j
  starts := h.starts

theorem Tidy.stopApplication {fl : Fleet D} (h : fl.Tidy) (i : ℕ) :
    (fl.stopApplication i).Tidy where
  sound := h.sound.cancel _
  handle j := (h.handle j).cancel _
  starts j := by
    refine le_trans ?_ (h.starts j)
    exact Queue.pending_cancel _ _ ▸ List.length_filter_le _ _

theorem Tidy.react {fl : Fleet D} (h : fl.Tidy) (producers : ℕ → AlertProducer D X) (x : X)
    (call : ProducerCall) : (fl.react producers x call).Tidy := by
  cases call with
  | startApplication i => exact h.rearm i 0 _
  | stopApplication i => exact h.stopApplication i
  | sendAlert i =>
      have hsend : (if (producers i).sends x then fl.doSend (producers i) i else fl).Tidy := by
        split
        · exact h.doSend _ i
        · exact h
      simp only [Fleet.react, Fleet.sendAlert]
      cases (producers i).rearm x with
      | none => exact hsend
      | some delay => exact hsend.rearm i delay _

/-- Two fleets are the same for an application. -/
structure SameFor (i : ℕ) (fl fl' : Fleet D) : Prop where
  sends : fl'.queue.pending (ProducerCall.isSend i) = fl.queue.pending (ProducerCall.isSend i)
  starts : fl'.queue.pending (ProducerCall.isStart i) = fl.queue.pending (ProducerCall.isStart i)
  apps : fl'.apps i = fl.apps i
  sent : fl'.sentBy i = fl.sentBy i

theorem SameFor.trans {i : ℕ} {fl fl' fl'' : Fleet D} (h : SameFor i fl fl')
    (h' : SameFor i fl' fl'') : SameFor i fl fl'' :=
  ⟨h'.sends.trans h.sends, h'.starts.trans h.starts, h'.apps.trans h.apps, h'.sent.trans h.sent⟩

theorem sentBy_doSend (p : AlertProducer D X) (fl : Fleet D) (i j : ℕ) :
    (fl.doSend p i).sentBy j = fl.sentBy j ++
      if i = j then [(fl.queue.now, p.alertSupplier (fl.apps i).seq)] else [] := by
  unfold sentBy doSend
  rw [List.filter_append, List.map_append]
  congr 1
  by_cases h : i = j <;> simp [h]

theorem sameFor_rearm {fl : Fleet D} {i j : ℕ} (h : j ≠ i) (delay seq : ℕ) :
    SameFor i fl { fl with
      queue := fl.queue.schedule delay (.sendAlert j)
      apps := Function.update fl.apps j ⟨seq, some fl.queue.nextId⟩ } where
  sends := by simp [Queue.pending_schedule, ProducerCall.isSend, h.symm]
  starts := by simp [Queue.pending_schedule, ProducerCall.isStart]
  apps := by simp [h.symm]
  sent := rfl

/-- A call changes nothing for the other applications. -/
theorem Tidy.sameFor_react {fl : Fleet D} (h : fl.Tidy) (producers : ℕ → AlertProducer D X)
    (x : X) {call : ProducerCall} {i : ℕ} (hcall : call.app ≠ i) :
    SameFor i fl (fl.react producers x call) := by
  cases call with
  | startApplication j => exact sameFor_rearm hcall 0 _
  | stopApplication j =>
      have hji : j ≠ i := hcall
      have hother : ∀ (p : ProducerCall → Bool), p (.sendAlert j) = false →
          (fl.queue.cancel (fl.apps j).sendEvent).pending p = fl.queue.pending p := by
        intro p hp
        refine Queue.pending_cancel_of_ne fun e he hid => ?_
        rw [(h.handle j).action e he hid]
        exact hp
      exact ⟨hother _ (by simpa [ProducerCall.isSend] using hji.symm), hother _ rfl, rfl, rfl⟩
  | sendAlert j =>
      have hji : j ≠ i := hcall
      have hsend : SameFor i fl
          (if (producers j).sends x then fl.doSend (producers j) j else fl) := by
        split
        · refine ⟨rfl, rfl, Function.update_of_ne hji.symm _ _, ?_⟩
          rw [sentBy_doSend, if_neg hji, List.append_nil]
        · exact ⟨rfl, rfl, rfl, rfl⟩
      simp only [Fleet.react, Fleet.sendAlert]
      cases (producers j).rearm x with
      | none => exact hsend
      | some delay => exact hsend.trans (sameFor_rearm hji delay _)

/-- Taking an event changes nothing for the applications that it is not for. -/
theorem Tidy.sameFor_take {fl : Fleet D} (h : fl.Tidy) {e : Event ProducerCall}
    (he : e ∈ fl.queue.events) {i : ℕ} (hsend : ProducerCall.isSend i e.action = false)
    (hstart : ProducerCall.isStart i e.action = false) :
    SameFor i fl { fl with queue := fl.queue.take e } :=
  ⟨Queue.pending_take_of_ne h.sound he hsend, Queue.pending_take_of_ne h.sound he hstart, rfl, rfl⟩

/-- Where an application is in its course. -/
inductive Phase (p : AlertProducer D X) (i : ℕ) (ls : List (Label X)) (fl : Fleet D) : Prop
  | waiting (hstart : startedAt i ls = none) (hsamples : samplesOf i ls = [])
      (hpend : fl.queue.pending (ProducerCall.isSend i) = []) (happ : fl.apps i = ⟨0, none⟩)
      (hsent : fl.sentBy i = [])
  | running (t id t' : ℕ) (hstart : startedAt i ls = some t)
      (hstarts : fl.queue.pending (ProducerCall.isStart i) = []) (hstop : ¬ Stopped i ls)
      (hsent : fl.sentBy i = (p.course t (samplesOf i ls)).sent)
      (hseq : (fl.apps i).seq = (p.course t (samplesOf i ls)).seq)
      (hnext : (p.course t (samplesOf i ls)).next = some t')
      (hpend : fl.queue.pending (ProducerCall.isSend i) = [⟨id, t', .sendAlert i⟩])
      (hid : (fl.apps i).sendEvent = some id)
  | ended (t : ℕ) (hstart : startedAt i ls = some t)
      (hstarts : fl.queue.pending (ProducerCall.isStart i) = [])
      (hsent : fl.sentBy i = (p.course t (samplesOf i ls)).sent)
      (hend : (p.course t (samplesOf i ls)).next = none ∨ Stopped i ls)
      (hpend : fl.queue.pending (ProducerCall.isSend i) = [])

theorem Phase.congr {p : AlertProducer D X} {i : ℕ} {ls : List (Label X)} {fl fl' : Fleet D}
    (h : Phase p i ls fl) (hsame : SameFor i fl fl') {l : Label X} (hl : l.2.1.app ≠ i) :
    Phase p i (ls ++ [l]) fl' := by
  have hsamples : samplesOf i (ls ++ [l]) = samplesOf i ls := by
    have hne : l.2.1 ≠ .sendAlert i := fun heq => hl (by rw [heq]; rfl)
    rw [samplesOf_snoc, if_neg hne, List.append_nil]
  have hstarted : startedAt i (ls ++ [l]) = startedAt i ls := by
    have hne : l.2.1 ≠ .startApplication i := fun heq => hl (by rw [heq]; rfl)
    rw [startedAt_snoc, if_neg hne, Option.or_none]
  have hstopped : ¬ Stopped i ls → ¬ Stopped i (ls ++ [l]) := by
    intro hno hstop
    rcases stopped_snoc hstop with hstop | heq
    · exact hno hstop
    · exact hl (by rw [heq]; rfl)
  cases h with
  | waiting hstart hnone hpend happ hsent =>
      exact .waiting (hstarted.trans hstart) (hsamples.trans hnone) (hsame.sends.trans hpend)
        (hsame.apps.trans happ) (hsame.sent.trans hsent)
  | running t id t' hstart hstarts hstop hsent hseq hnext hpend hid =>
      refine .running t id t' (hstarted.trans hstart) (hsame.starts.trans hstarts)
        (hstopped hstop) ?_ ?_ ?_ (hsame.sends.trans hpend) (hsame.apps.symm ▸ hid)
      · rw [hsamples, hsame.sent, hsent]
      · rw [hsamples, hsame.apps, hseq]
      · rw [hsamples, hnext]
  | ended t hstart hstarts hsent hend hpend =>
      refine .ended t (hstarted.trans hstart) (hsame.starts.trans hstarts) ?_ ?_
        (hsame.sends.trans hpend)
      · rw [hsamples, hsame.sent, hsent]
      · rw [hsamples]
        exact hend.imp_right fun hstop => hstop.append [l]

/-- A pending start is the only one, and the application waits for it. -/
theorem Phase.start {p : AlertProducer D X} {producers : ℕ → AlertProducer D X} {i : ℕ}
    {ls : List (Label X)} {fl : Fleet D} (h : Phase p i ls fl) (htidy : fl.Tidy)
    {e : Event ProducerCall} (he : e ∈ fl.queue.events) (hcall : e.action = .startApplication i)
    (x : X) : Phase p i (ls ++ [(e.due, e.action, x)])
      ({ fl with queue := fl.queue.take e }.react producers x e.action) := by
  have hmem : e ∈ fl.queue.pending (ProducerCall.isStart i) :=
    Queue.mem_pending.mpr ⟨he, by simp [hcall, ProducerCall.isStart]⟩
  have hone : fl.queue.pending (ProducerCall.isStart i) = [e] := by
    obtain ⟨e', heq⟩ := List.length_eq_one_iff.mp
      (le_antisymm (htidy.starts i) (List.length_pos_of_mem hmem))
    rw [heq] at hmem ⊢
    rw [List.mem_singleton.mp hmem]
  cases h with
  | waiting hstart hsamples hpend happ hsent =>
      have hnosend : (fl.queue.take e).pending (ProducerCall.isSend i) = [] :=
        (Queue.pending_take_of_ne htidy.sound he (by simp [hcall, ProducerCall.isSend])).trans hpend
      have hsamples' : samplesOf i (ls ++ [(e.due, e.action, x)]) = [] := by
        rw [samplesOf_snoc, hsamples, if_neg (by simp [hcall])]
        rfl
      rw [hcall] at hsamples' ⊢
      refine .running e.due fl.queue.nextId e.due ?_ ?_ ?_ ?_ ?_ ?_ ?_ ?_
      · rw [startedAt_snoc, hstart, if_pos rfl]
        rfl
      · have hnone := Queue.pending_take_single hone
        simp only [Fleet.react, Fleet.startApplication, Queue.pending_schedule, hnone]
        rfl
      · intro hstop
        rcases stopped_snoc hstop with hstop | heq
        · simpa [hstart] using hstop.started
        · cases heq
      · rw [hsamples']
        exact hsent
      · rw [hsamples']
        simp [Fleet.react, Fleet.startApplication, happ, AlertProducer.course]
      · rw [hsamples']
        rfl
      · simp only [Fleet.react, Fleet.startApplication, Queue.pending_schedule, hnosend]
        simp [ProducerCall.isSend, Queue.take]
      · simp [Fleet.react, Fleet.startApplication, Queue.take]
  | running t id t' _ hstarts _ _ _ _ _ _ => simp [hone] at hstarts
  | ended t _ hstarts _ _ _ => simp [hone] at hstarts

section Sends

variable (p : AlertProducer D X) (fl : Fleet D) (i : ℕ) (x : X)

theorem queue_sends : (if p.sends x then fl.doSend p i else fl).queue = fl.queue := by
  split <;> rfl

theorem sentBy_sends : (if p.sends x then fl.doSend p i else fl).sentBy i = fl.sentBy i ++
    if p.sends x then [(fl.queue.now, p.alertSupplier (fl.apps i).seq)] else [] := by
  split
  · rw [sentBy_doSend, if_pos rfl]
  · rw [List.append_nil]

theorem seq_sends : ((if p.sends x then fl.doSend p i else fl).apps i).seq =
    if p.sends x then nextSeq (fl.apps i).seq else (fl.apps i).seq := by
  split
  · simp [doSend]
  · rfl

end Sends

/-- A pending send is the one that the course waits for. -/
theorem Phase.send {producers : ℕ → AlertProducer D X} {i : ℕ} {ls : List (Label X)}
    {fl : Fleet D} (h : Phase (producers i) i ls fl) {e : Event ProducerCall}
    (he : e ∈ fl.queue.events) (hcall : e.action = .sendAlert i) (x : X) :
    Phase (producers i) i (ls ++ [(e.due, e.action, x)])
      ({ fl with queue := fl.queue.take e }.react producers x e.action) := by
  have hmem : e ∈ fl.queue.pending (ProducerCall.isSend i) :=
    Queue.mem_pending.mpr ⟨he, by simp [hcall, ProducerCall.isSend]⟩
  cases h with
  | waiting _ _ hpend _ _ => simp [hpend] at hmem
  | ended _ _ _ _ _ hpend => simp [hpend] at hmem
  | running t id t' hstart hstarts hstop hsent hseq hnext hpend hid =>
      have heq : e = ⟨id, t', .sendAlert i⟩ := List.mem_singleton.mp (hpend ▸ hmem)
      have hdue : e.due = t' := by rw [heq]
      have htaken : (fl.queue.take e).pending (ProducerCall.isSend i) = [] :=
        Queue.pending_take_single (heq ▸ hpend)
      have hstarts' : (fl.queue.take e).pending (ProducerCall.isStart i) = [] := by
        refine List.eq_nil_iff_forall_not_mem.mpr fun e' he' => ?_
        simpa [hstarts] using Queue.mem_pending_of_take he'
      rw [hcall]
      have hsamples : samplesOf i (ls ++ [(e.due, .sendAlert i, x)]) = samplesOf i ls ++ [x] := by
        rw [samplesOf_snoc, if_pos rfl]
      have hstarted : startedAt i (ls ++ [(e.due, .sendAlert i, x)]) = some t := by
        rw [startedAt_snoc, hstart]
        rfl
      have hstopped : ¬ Stopped i (ls ++ [(e.due, .sendAlert i, x)]) := by
        intro hno
        rcases stopped_snoc hno with hno | hno
        · exact hstop hno
        · cases hno
      have hadvance := (producers i).course_snoc_of_next hnext x
      set taken : Fleet D := { fl with queue := fl.queue.take e }
      have hqueue := queue_sends (producers i) taken i x
      have hsent' := sentBy_sends (producers i) taken i x
      have hseq' := seq_sends (producers i) taken i x
      have hnow : taken.queue.now = t' := hdue
      have happs : taken.apps i = fl.apps i := rfl
      have hsent₀ : taken.sentBy i = fl.sentBy i := rfl
      rw [hsent₀, happs, hnow, hsent, hseq] at hsent'
      rw [happs, hseq] at hseq'
      simp only [react, sendAlert]
      generalize (if (producers i).sends x then taken.doSend (producers i) i else taken) = fl' at *
      cases hrearm : (producers i).rearm x with
      | none =>
          refine .ended t hstarted ?_ ?_ (Or.inl ?_) ?_
          · rw [hqueue]
            exact hstarts'
          · rw [hsamples, hadvance]
            exact hsent'
          · rw [hsamples, hadvance, hrearm]
            rfl
          · rw [hqueue]
            exact htaken
      | some delay =>
          refine .running t fl'.queue.nextId (t' + delay) hstarted ?_ hstopped ?_ ?_ ?_ ?_ ?_
          · rw [Queue.pending_schedule, hqueue]
            simpa [ProducerCall.isStart] using hstarts'
          · rw [hsamples, hadvance]
            exact hsent'
          · rw [hsamples, hadvance]
            simpa using hseq'
          · rw [hsamples, hadvance, hrearm]
            rfl
          · rw [Queue.pending_schedule, hqueue, hnow]
            simpa [ProducerCall.isSend] using htaken
          · simp

/-- What is cancelled is the pending send. -/
theorem Phase.stop {p : AlertProducer D X} {producers : ℕ → AlertProducer D X} {i : ℕ}
    {ls : List (Label X)} {fl : Fleet D} (h : Phase p i ls fl) (htidy : fl.Tidy)
    {e : Event ProducerCall} (he : e ∈ fl.queue.events) (hcall : e.action = .stopApplication i)
    (x : X) : Phase p i (ls ++ [(e.due, e.action, x)])
      ({ fl with queue := fl.queue.take e }.react producers x e.action) := by
  have hsends : (fl.queue.take e).pending (ProducerCall.isSend i) =
      fl.queue.pending (ProducerCall.isSend i) :=
    Queue.pending_take_of_ne htidy.sound he (by simp [hcall, ProducerCall.isSend])
  have hstarts : (fl.queue.take e).pending (ProducerCall.isStart i) =
      fl.queue.pending (ProducerCall.isStart i) :=
    Queue.pending_take_of_ne htidy.sound he (by simp [hcall, ProducerCall.isStart])
  rw [hcall]
  have hsamples : samplesOf i (ls ++ [(e.due, .stopApplication i, x)]) = samplesOf i ls := by
    rw [samplesOf_snoc, if_neg (by simp), List.append_nil]
  have hstarted : startedAt i (ls ++ [(e.due, .stopApplication i, x)]) = startedAt i ls := by
    rw [startedAt_snoc, if_neg (by simp), Option.or_none]
  have hnil : ∀ {kind : ProducerCall → Bool}, fl.queue.pending kind = [] →
      (fl.queue.take e).pending kind = fl.queue.pending kind →
      ((fl.queue.take e).cancel (fl.apps i).sendEvent).pending kind = [] := by
    intro kind hnone htake
    rw [Queue.pending_cancel, htake, hnone]
    rfl
  cases h with
  | waiting hstart hnone hpend happ hsent =>
      exact .waiting (hstarted.trans hstart) (hsamples.trans hnone) (hnil hpend hsends) happ hsent
  | ended t hstart hnone hsent hend hpend =>
      refine .ended t (hstarted.trans hstart) (hnil hnone hstarts) ?_ ?_ (hnil hpend hsends)
      · rw [hsamples]
        exact hsent
      · rw [hsamples]
        exact hend.imp_right fun hstop => hstop.append _
  | running t id t' hstart hnone hstop hsent hseq hnext hpend hid =>
      refine .ended t (hstarted.trans hstart) (hnil hnone hstarts) ?_ (Or.inr ?_) ?_
      · rw [hsamples]
        exact hsent
      · exact ⟨ls, _, [], rfl, rfl, by simp [hstart]⟩
      · simp only [react, stopApplication]
        rw [Queue.pending_cancel, hsends, hpend, hid]
        simp

theorem Phase.step {producers : ℕ → AlertProducer D X} {i : ℕ} {ls : List (Label X)}
    {fl : Fleet D} (h : Phase (producers i) i ls fl) (htidy : fl.Tidy) {e : Event ProducerCall}
    (he : fl.queue.IsDue e) (x : X) : Phase (producers i) i (ls ++ [(e.due, e.action, x)])
      ({ fl with queue := fl.queue.take e }.react producers x e.action) := by
  by_cases hcall : e.action.app = i
  · cases haction : e.action with
    | startApplication j =>
        obtain rfl : j = i := by rw [haction] at hcall; exact hcall
        exact haction ▸ h.start htidy he.1 haction x
    | sendAlert j =>
        obtain rfl : j = i := by rw [haction] at hcall; exact hcall
        exact haction ▸ h.send he.1 haction x
    | stopApplication j =>
        obtain rfl : j = i := by rw [haction] at hcall; exact hcall
        exact haction ▸ h.stop htidy he.1 haction x
  · refine h.congr ?_ hcall
    refine (htidy.sameFor_take he.1 ?_ ?_).trans ((htidy.take he).sameFor_react producers x hcall)
    · cases haction : e.action with
      | sendAlert j =>
          rw [haction] at hcall
          exact decide_eq_false (Ne.symm hcall)
      | _ => rfl
    · cases haction : e.action with
      | startApplication j =>
          rw [haction] at hcall
          exact decide_eq_false (Ne.symm hcall)
      | _ => rfl

theorem Installed.tidy {fl : Fleet D} (h : fl.Installed) : fl.Tidy where
  sound := h.sound
  handle i := by
    rw [h.apps i]
    exact Queue.Handle.none _ _
  starts := h.starts

theorem Installed.phase {fl : Fleet D} (h : fl.Installed) (p : AlertProducer D X) (i : ℕ) :
    Phase p i ([] : List (Label X)) fl :=
  .waiting rfl rfl (h.sends i) (h.apps i) (by simp [sentBy, h.sent])

section Run

variable {producers : ℕ → AlertProducer D X}
  {next : Queue ProducerCall → Event ProducerCall → Prop} (hnext : ∀ q e, next q e → q.IsDue e)
  {fl₀ fl : Fleet D} {ls : List (Label X)} (hinit : fl₀.Installed)
  (hrun : Run (Step producers next) fl₀ ls fl)

include hnext hinit hrun

theorem Installed.run : fl.Tidy ∧ ∀ i, Phase (producers i) i ls fl := by
  refine hrun.invariant (fun ls fl => fl.Tidy ∧ ∀ i, Phase (producers i) i ls fl)
    ⟨hinit.tidy, fun i => hinit.phase (producers i) i⟩ ?_
  rintro ms fl l fl' rest - - ⟨htidy, hphase⟩ ⟨he⟩
  have hdue := hnext _ _ he
  exact ⟨(htidy.take hdue).react producers _ _, fun i => (hphase i).step htidy hdue _⟩

theorem Installed.sentBy (i : ℕ) : ∃ t xs, fl.sentBy i = ((producers i).course t xs).sent := by
  cases (hinit.run hnext hrun).2 i with
  | waiting _ _ _ _ hsent => exact ⟨0, [], hsent⟩
  | running t _ _ _ _ _ hsent _ _ _ _ => exact ⟨t, _, hsent⟩
  | ended t _ _ hsent _ _ => exact ⟨t, _, hsent⟩

/-- An application that was stopped is called no more. -/
theorem Installed.silent (i : ℕ) : ∀ pre post, ls = pre ++ post → Stopped i pre →
    samplesOf i ls = samplesOf i pre := by
  refine (hrun.invariant (fun ls fl => (fl.Tidy ∧ ∀ i, Phase (producers i) i ls fl) ∧
    ∀ pre post, ls = pre ++ post → Stopped i pre → samplesOf i ls = samplesOf i pre)
    ⟨⟨hinit.tidy, fun i => hinit.phase (producers i) i⟩, ?_⟩ ?_).2
  · intro pre post heq _
    rw [(List.append_eq_nil_iff.mp heq.symm).1]
  rintro ms fl l fl' rest - - ⟨⟨htidy, hphase⟩, ih⟩ ⟨he⟩
  rename_i e x
  have hdue := hnext _ _ he
  refine ⟨⟨(htidy.take hdue).react producers _ _, fun i => (hphase i).step htidy hdue _⟩, ?_⟩
  intro pre post heq hstop
  rcases List.eq_nil_or_concat' post with rfl | ⟨post, m, rfl⟩
  · rw [heq, List.append_nil]
  · rw [← List.append_assoc] at heq
    obtain ⟨rfl, hm⟩ := List.append_inj' heq rfl
    obtain rfl := List.singleton_inj.mp hm
    have hstopped : Stopped i (pre ++ post) := hstop.append post
    have hpend : fl.queue.pending (ProducerCall.isSend i) = [] := by
      cases hphase i with
      | waiting hstart _ _ _ _ => simpa [hstart] using hstopped.started
      | running _ _ _ _ _ hno _ _ _ _ _ => exact absurd hstopped hno
      | ended _ _ _ _ _ hpend => exact hpend
    have hne : e.action ≠ .sendAlert i := by
      intro hcall
      have hmem : e ∈ fl.queue.pending (ProducerCall.isSend i) :=
        Queue.mem_pending.mpr ⟨hdue.1, by simp [hcall, ProducerCall.isSend]⟩
      simp [hpend] at hmem
    rw [samplesOf_snoc, if_neg hne, List.append_nil]
    exact ih pre post rfl hstop

end Run

end Fleet

/-- The producers of a scenario share one queue, and each sends what it would send alone:
nothing before its start, then what its own samples tell, at the times of its own course,
until it is stopped, and nothing after that. No send of its course is left out. -/
theorem each_producer_alone {D X : Type} {producers : ℕ → AlertProducer D X}
    {next : Queue ProducerCall → Event ProducerCall → Prop} (hnext : ∀ q e, next q e → q.IsDue e)
    {fl₀ fl : Fleet D} (hinit : fl₀.Installed) {ls : List (Fleet.Label X)}
    (hrun : Run (Fleet.Step producers next) fl₀ ls fl) (i : ℕ) :
    (Fleet.startedAt i ls = none → fl.sentBy i = []) ∧
    ∀ t, Fleet.startedAt i ls = some t →
      fl.sentBy i = ((producers i).course t (Fleet.samplesOf i ls)).sent ∧
      (¬ Fleet.Stopped i ls → ∀ t',
        ((producers i).course t (Fleet.samplesOf i ls)).next = some t' → fl.queue.now ≤ t') ∧
      ∀ pre post, ls = pre ++ post → Fleet.Stopped i pre →
        Fleet.samplesOf i ls = Fleet.samplesOf i pre := by
  obtain ⟨htidy, hphase⟩ := hinit.run hnext hrun
  cases hphase i with
  | waiting hstart hsamples hpend happ hsent =>
      exact ⟨fun _ => hsent, fun t ht => by cases hstart.symm.trans ht⟩
  | running t id t' hstart hstarts hstop hsent hseq hnext' hpend hid =>
      refine ⟨fun hnone => (by cases hstart.symm.trans hnone), fun u hu => ?_⟩
      obtain rfl := Option.some.inj (hstart.symm.trans hu)
      refine ⟨hsent, fun _ v hv => ?_, hinit.silent hnext hrun i⟩
      obtain rfl := Option.some.inj (hnext'.symm.trans hv)
      have hmem : ⟨id, t', .sendAlert i⟩ ∈ fl.queue.pending (ProducerCall.isSend i) := by
        rw [hpend]
        exact List.mem_singleton_self _
      exact htidy.sound.due _ (Queue.mem_pending.mp hmem).1
  | ended t hstart hstarts hsent hend hpend =>
      refine ⟨fun hnone => (by cases hstart.symm.trans hnone), fun u hu => ?_⟩
      obtain rfl := Option.some.inj (hstart.symm.trans hu)
      refine ⟨hsent, fun hno v hv => ?_, hinit.silent hnext hrun i⟩
      rcases hend with hend | hstop
      · cases hend.symm.trans hv
      · exact absurd hstop hno

/-! ## Two producers

The second starts while the first is running, which is stopped before its third
alert. -/

namespace TwoProducers

def producers (i : ℕ) : AlertProducer ℕ ℕ where
  alertSupplier seq := 100 * i + seq
  sends x := x < 5
  rearm _ := if i = 0 then some 10 else none

def queue : Queue ProducerCall where
  now := 0
  nextId := 3
  events := [⟨0, 0, .startApplication 0⟩, ⟨1, 5, .startApplication 1⟩,
    ⟨2, 15, .stopApplication 0⟩]

theorem queue_sound : queue.Sound := ⟨by decide, by decide, by decide⟩

def installed (D : Type) : Fleet D where
  queue := queue
  apps _ := ⟨0, none⟩
  sent := []

theorem installed_installed (D : Type) : (installed D).Installed where
  sound := queue_sound
  sends _ := rfl
  starts i := by
    simp only [installed, queue, Queue.pending, ProducerCall.isStart]
    by_cases h0 : i = 0
    · subst h0
      decide
    · by_cases h1 : i = 1
      · subst h1
        decide
      · simp [h0, h1]
  apps _ := rfl
  sent := rfl

def labels : List (Fleet.Label ℕ) := [(0, .startApplication 0, 0), (0, .sendAlert 0, 3),
  (5, .startApplication 1, 0), (5, .sendAlert 1, 3), (10, .sendAlert 0, 1),
  (15, .stopApplication 0, 0)]

theorem run : ∃ fl, Run (Fleet.Step producers Queue.IsFirst) (installed ℕ) labels fl := by
  refine ⟨_, ((((((Run.nil.snoc (.run (e := ⟨0, 0, .startApplication 0⟩) ?_)).snoc
    (.run (e := ⟨3, 0, .sendAlert 0⟩) ?_)).snoc (.run (e := ⟨1, 5, .startApplication 1⟩) ?_)).snoc
    (.run (e := ⟨5, 5, .sendAlert 1⟩) ?_)).snoc (.run (e := ⟨4, 10, .sendAlert 0⟩) ?_)).snoc
    (.run (e := ⟨2, 15, .stopApplication 0⟩) ?_))⟩
  all_goals decide

end TwoProducers

theorem each_producer_alone_two : ∃ fl, Run (Fleet.Step TwoProducers.producers Queue.IsFirst)
    (TwoProducers.installed ℕ) TwoProducers.labels fl ∧ fl.sentBy 0 = [(0, 0), (10, 1)] ∧
    fl.sentBy 1 = [(5, 100)] ∧ fl.sentBy 2 = [] := by
  obtain ⟨fl, hrun⟩ := TwoProducers.run
  have halone := each_producer_alone (fun _ _ h => h.1) (TwoProducers.installed_installed ℕ) hrun
  exact ⟨fl, hrun, ((halone 0).2 0 rfl).1, ((halone 1).2 5 rfl).1, (halone 2).1 rfl⟩

end Cafe
