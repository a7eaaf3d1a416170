import Cafe.Subscription

/-!
# A consumer that is stopped

Stopping an application closes its face, and the record of the face in the PIT
goes with it. The timer of the application and the alerts already scheduled
for it stay, and each of them expresses the Interest again.
-/

open Labelled EventQueue

namespace Cafe

variable {σ D : Type}

namespace Occurrence

/-- The events that call the application. -/
def isOwn (occ : Occurrence D) : Bool := occ.isData || occ.isTimeout

end Occurrence

namespace Station

/-- The pipeline of an alert up to the sending. -/
def satisfyEntry (st : Station σ D) : Station σ D :=
  match st.pitEntry with
  | none => st
  | some entry =>
      (st.setExpiryTimer { entry with isSatisfied := true } 0).deleteInRecords
        (entry.satisfyInterest st.queue.now)

theorem onIncomingData_cases (face : FaceId) (st : Station σ D) (data : D) (ingress : FaceId) :
    st.onIncomingData face data ingress = st.satisfyEntry ∨
      st.onIncomingData face data ingress = st.satisfyEntry.doSendData data := by
  unfold onIncomingData satisfyEntry
  cases st.pitEntry with
  | none => exact Or.inl rfl
  | some entry =>
      simp only
      split
      · exact Or.inr rfl
      · exact Or.inl rfl

@[simp] theorem satisfyEntry_queue (st : Station σ D) : st.satisfyEntry.queue = st.queue := by
  unfold satisfyEntry
  split <;> rfl

@[simp] theorem satisfyEntry_eventId (st : Station σ D) :
    st.satisfyEntry.eventId = st.eventId := by
  unfold satisfyEntry
  split <;> rfl

theorem Tidy.satisfyEntry {st : Station σ D} (h : st.Tidy) : st.satisfyEntry.Tidy := by
  constructor
  · rw [satisfyEntry_queue]
    exact h.sound
  · rw [satisfyEntry_queue, satisfyEntry_eventId]
    exact h.timer

@[simp] theorem satisfyEntry_state (st : Station σ D) : st.satisfyEntry.state = st.state := by
  unfold satisfyEntry
  split <;> rfl

end Station

/-- The application with its face, which has an id while it is in the table of
faces. The Interests it has sent are listed with their times and nonces. -/
structure AppStation (σ D : Type) extends Station σ D where
  active : Bool
  inFaceTable : Bool
  transmittedInterests : List (ℕ × ℕ)

namespace AppStation

section App

variable (app : AlertConsumer σ D)

def registerInterest (st : AppStation σ D) (nonce : ℕ) : AppStation σ D :=
  { st with
    toStation := st.toStation.registerInterest app nonce
    transmittedInterests := st.transmittedInterests ++ [(st.queue.now, nonce)] }

def startApplication (st : AppStation σ D) (nonce : ℕ) : AppStation σ D :=
  { st with active := true, inFaceTable := true }.registerInterest app nonce

/-- The events that wait for the application are not cancelled. -/
def stopApplication (st : AppStation σ D) : AppStation σ D :=
  if st.active then
    { st with
      toStation := st.toStation.deleteInRecords [app.face]
      active := false
      inFaceTable := false }
  else st

/-- Nothing is sent to a face without an id. -/
def onIncomingData (st : AppStation σ D) (data : D) (ingress : FaceId) : AppStation σ D :=
  if st.inFaceTable then
    { st with toStation := st.toStation.onIncomingData app.face data ingress }
  else
    { st with toStation := st.toStation.satisfyEntry }

def onData (st : AppStation σ D) (data : D) (nonce : ℕ) : AppStation σ D :=
  { st with state := app.doReceive st.queue.now data st.state }.registerInterest app nonce

def onTimeout (st : AppStation σ D) (nonce : ℕ) : AppStation σ D :=
  let result := app.handleTimeout st.queue.now st.state
  let st := { st with state := result.2 }
  if result.1 then st.registerInterest app nonce else st

def react (st : AppStation σ D) (nonce : ℕ) : Occurrence D → AppStation σ D
  | .arrive data ingress => st.onIncomingData app data ingress
  | .express face lifetime =>
      { st with toStation := st.toStation.onIncomingInterest face nonce lifetime }
  | .onInterestFinalize => { st with toStation := st.toStation.onInterestFinalize }
  | .onData data => st.onData app data nonce
  | .onTimeout => st.onTimeout app nonce

end App

inductive Action (D : Type)
  | start (nonce : ℕ)
  | stop
  | pass
  | announce (delay : ℕ) (occ : Occurrence D)
  | run (occ : Occurrence D) (nonce : ℕ)

def Action.IsStart : Action D → Prop
  | .start _ => True
  | _ => False

abbrev Label (D : Type) := ℕ × Action D

/-- The steps of a station, the stopping of its application and the time between
two events. -/
inductive Step (app : AlertConsumer σ D) (external : Occurrence D → Prop)
    (next : Queue (Occurrence D) → Event (Occurrence D) → Prop) (st : AppStation σ D) :
    Label D → AppStation σ D → Prop
  | start {nonce : ℕ} (hstart : st.eventId = none) :
      Step app external next st (st.queue.now, .start nonce) (st.startApplication app nonce)
  | stop : Step app external next st (st.queue.now, .stop) (st.stopApplication app)
  | pass {t : ℕ} (hnow : st.queue.now ≤ t) (hdue : ∀ e ∈ st.queue.events, t ≤ e.due) :
      Step app external next st (t, .pass) { st with queue := { st.queue with now := t } }
  | announce {delay : ℕ} {occ : Occurrence D} (hext : external occ) :
      Step app external next st (st.queue.now, .announce delay occ)
        { st with queue := st.queue.schedule delay occ }
  | run {e : Event (Occurrence D)} {nonce : ℕ} (hnext : next st.queue e) :
      Step app external next st (e.due, .run e.action nonce)
        ({ st with queue := st.queue.take e }.react app nonce e.action)

/-- Only the timer that the application keeps is pending, and its face is in
the table while it is active. -/
structure OneTimer (st : AppStation σ D) : Prop extends Station.Tidy st.toStation where
  timers : ∀ e ∈ st.queue.pending Occurrence.isTimeout, some e.id = st.eventId
  face : st.active = st.inFaceTable

/-- The events that make the application express its Interest again. -/
def Reexpresses (app : AlertConsumer σ D) (st : AppStation σ D) (e : Event (Occurrence D)) :
    Prop :=
  match e.action with
  | .onData _ => True
  | .onTimeout => (app.handleTimeout e.due st.state).1 = true
  | _ => False

/-- What a step does to the Interests sent and to the events that call the
application. -/
inductive Effect (app : AlertConsumer σ D) (st : AppStation σ D) (l : Label D)
    (st' : AppStation σ D) : Prop
  | expresses (sent : ℕ × ℕ)
      (hcause : l.2.IsStart ∨ ∃ e, st.queue.IsDue e ∧ l.1 = e.due ∧ st.Reexpresses app e)
      (hsent : st'.transmittedInterests = st.transmittedInterests ++ [sent])
  | keeps (hstart : ¬ l.2.IsStart) (hsent : st'.transmittedInterests = st.transmittedInterests)
      (hstate : st'.state = st.state)
      (hown : st'.queue.pending Occurrence.isOwn = st.queue.pending Occurrence.isOwn)
  | delivers (e : Event (Occurrence D)) (hface : st.inFaceTable = true) (hstart : ¬ l.2.IsStart)
      (hsent : st'.transmittedInterests = st.transmittedInterests)
      (hstate : st'.state = st.state)
      (hown : st'.queue.pending Occurrence.isOwn = st.queue.pending Occurrence.isOwn ++ [e])
  | givesUp (e : Event (Occurrence D)) (hdue : st.queue.IsDue e) (haction : e.action = .onTimeout)
      (hno : (app.handleTimeout e.due st.state).1 = false) (hstart : ¬ l.2.IsStart)
      (hsent : st'.transmittedInterests = st.transmittedInterests)
      (hown : st'.queue.pending Occurrence.isOwn = (st.queue.take e).pending Occurrence.isOwn)

section Run

variable {app : AlertConsumer σ D} {external : Occurrence D → Prop}

@[simp] theorem stopApplication_queue (app : AlertConsumer σ D) (st : AppStation σ D) :
    (st.stopApplication app).queue = st.queue := by
  unfold stopApplication
  split <;> rfl

@[simp] theorem stopApplication_state (app : AlertConsumer σ D) (st : AppStation σ D) :
    (st.stopApplication app).state = st.state := by
  unfold stopApplication
  split <;> rfl

@[simp] theorem stopApplication_transmittedInterests (app : AlertConsumer σ D)
    (st : AppStation σ D) :
    (st.stopApplication app).transmittedInterests = st.transmittedInterests := by
  unfold stopApplication
  split <;> rfl

theorem OneTimer.stopApplication {st : AppStation σ D} (h : st.OneTimer)
    (app : AlertConsumer σ D) :
    (st.stopApplication app).OneTimer ∧ (st.stopApplication app).inFaceTable = false := by
  unfold AppStation.stopApplication
  split
  · exact ⟨⟨⟨h.sound, h.timer⟩, h.timers, rfl⟩, rfl⟩
  · rename_i hactive
    exact ⟨h, by rw [← h.face]; simpa using hactive⟩

theorem OneTimer.registerInterest {st : AppStation σ D} (h : st.OneTimer) (nonce : ℕ) :
    (st.registerInterest app nonce).OneTimer := by
  refine ⟨h.toTidy.registerInterest nonce, ?_, h.face⟩
  obtain ⟨id, hpending, hid⟩ := Station.timer_registerInterest app h.timers nonce
  intro e he
  simp only [AppStation.registerInterest] at he ⊢
  rw [hpending, List.mem_singleton] at he
  rw [he, hid]

/-- The events of the forwarder leave the timer alone. -/
theorem OneTimer.of_pending {st st' : AppStation σ D} (h : st.OneTimer)
    (htidy : st'.toStation.Tidy)
    (hpending : ∀ e ∈ st'.queue.pending Occurrence.isTimeout,
      e ∈ st.queue.pending Occurrence.isTimeout)
    (hid : st'.eventId = st.eventId) (hactive : st'.active = st.active)
    (hface : st'.inFaceTable = st.inFaceTable) : st'.OneTimer where
  toTidy := htidy
  timers := by
    intro e he
    rw [hid]
    exact h.timers e (hpending e he)
  face := by rw [hactive, hface, h.face]

theorem OneTimer.take {st : AppStation σ D} (h : st.OneTimer) {e : Event (Occurrence D)}
    (he : st.queue.IsDue e) : OneTimer { st with queue := st.queue.take e } :=
  h.of_pending (h.toTidy.take he) (fun _ => Queue.mem_pending_of_take) rfl rfl rfl

theorem OneTimer.onIncomingData {st : AppStation σ D} (h : st.OneTimer) (data : D)
    (ingress : FaceId) : (st.onIncomingData app data ingress).OneTimer := by
  unfold AppStation.onIncomingData
  split
  · refine h.of_pending (h.toTidy.onIncomingData _ _ _) ?_ (Station.onIncomingData_eventId _ _ _ _)
      rfl rfl
    intro e he
    rwa [Station.pending_onIncomingData (fun _ => rfl)] at he
  · refine h.of_pending h.toTidy.satisfyEntry ?_ (Station.satisfyEntry_eventId _) rfl rfl
    intro e he
    rwa [Station.satisfyEntry_queue] at he

theorem OneTimer.react {st : AppStation σ D} (h : st.OneTimer) (nonce : ℕ) (occ : Occurrence D) :
    (st.react app nonce occ).OneTimer := by
  have hstate : ∀ s : σ, OneTimer { st with state := s } := fun s =>
    h.of_pending (h.toTidy.setState s) (fun _ he => he) rfl rfl rfl
  cases occ with
  | arrive data ingress => exact h.onIncomingData data ingress
  | express face lifetime =>
      refine h.of_pending (h.toTidy.onIncomingInterest _ _ _) ?_
        (Station.onIncomingInterest_eventId _ _ _ _) rfl rfl
      intro e he
      simp only [AppStation.react] at he
      rwa [Station.onIncomingInterest_queue] at he
  | onInterestFinalize =>
      have htidy : Station.Tidy (st.toStation.react app nonce .onInterestFinalize) :=
        h.toTidy.react nonce .onInterestFinalize
      exact h.of_pending htidy (fun _ he => he) rfl rfl rfl
  | onData data => exact (hstate _).registerInterest nonce
  | onTimeout =>
      simp only [AppStation.react, AppStation.onTimeout]
      split
      · exact (hstate _).registerInterest nonce
      · exact hstate _

theorem OneTimer.step (hext : ∀ occ, external occ → occ.FromOutside app.face)
    {st st' : AppStation σ D} {l : Label D} (h : st.OneTimer)
    (hstep : Step app external Queue.IsDue st l st') : st'.OneTimer := by
  cases hstep with
  | start _ =>
      have hopen : OneTimer { st with active := true, inFaceTable := true } :=
        ⟨h.toTidy, h.timers, rfl⟩
      exact hopen.registerInterest _
  | stop => exact (h.stopApplication app).1
  | @pass t _ hdue =>
      have htidy : Station.Tidy { st.toStation with queue := { st.queue with now := t } } :=
        ⟨⟨h.sound.ids, h.sound.bound, hdue⟩, ⟨h.timer.bound, h.timer.action⟩⟩
      exact h.of_pending htidy (fun _ he => he) rfl rfl rfl
  | @announce delay occ hocc =>
      have htidy : Station.Tidy { st.toStation with queue := st.queue.schedule delay occ } :=
        ⟨h.sound.schedule _ _, h.timer.schedule _ _⟩
      refine h.of_pending htidy ?_ rfl rfl rfl
      intro e he
      rw [Queue.pending_schedule] at he
      have hkind : Occurrence.isTimeout occ = false := by
        have := hext occ hocc
        cases occ with
        | onTimeout => exact this.elim
        | _ => rfl
      simpa [hkind] using he
  | run hnext => exact (h.take hnext).react _ _

/-! ## The effect of a step -/

theorem effect_onIncomingData (app : AlertConsumer σ D) (st : AppStation σ D) (data : D)
    (ingress : FaceId) :
    (st.onIncomingData app data ingress).transmittedInterests = st.transmittedInterests ∧
      (st.onIncomingData app data ingress).state = st.state ∧
      ((st.onIncomingData app data ingress).queue.pending Occurrence.isOwn =
          st.queue.pending Occurrence.isOwn ∨
        st.inFaceTable = true ∧ ∃ e,
          (st.onIncomingData app data ingress).queue.pending Occurrence.isOwn =
            st.queue.pending Occurrence.isOwn ++ [e]) := by
  unfold AppStation.onIncomingData
  split
  · rename_i hface
    refine ⟨rfl, Station.onIncomingData_state _ _ _ _, ?_⟩
    rcases Station.onIncomingData_cases app.face st.toStation data ingress with heq | heq
    · left
      simp only [heq, Station.satisfyEntry_queue]
    · right
      refine ⟨hface, ⟨st.satisfyEntry.queue.nextId, st.satisfyEntry.queue.now + 0, .onData data⟩,
        ?_⟩
      simp only [heq, Station.doSendData, Queue.pending_schedule, Station.satisfyEntry_queue]
      rfl
  · exact ⟨rfl, Station.satisfyEntry_state _,
      Or.inl (congrArg (Queue.pending _) (Station.satisfyEntry_queue _))⟩

/-- The effect of an event, by what it calls. -/
theorem OneTimer.effect_react {st : AppStation σ D} (h : st.OneTimer) {e : Event (Occurrence D)}
    (hdue : st.queue.IsDue e) (nonce : ℕ) : Effect app st (e.due, .run e.action nonce)
      ({ st with queue := st.queue.take e }.react app nonce e.action) := by
  have htake := h.take hdue
  have hkept : Occurrence.isOwn e.action = false →
      (st.queue.take e).pending Occurrence.isOwn = st.queue.pending Occurrence.isOwn :=
    Queue.pending_take_of_ne h.sound hdue.1
  rcases e with ⟨id, due, occ⟩
  cases occ with
  | arrive data ingress =>
      obtain ⟨hsent, hstate, hown⟩ := effect_onIncomingData app
        { st with queue := st.queue.take ⟨id, due, .arrive data ingress⟩ } data ingress
      rcases hown with hown | ⟨hface, e, hown⟩
      · exact .keeps (fun hs => hs) hsent hstate (hown.trans (hkept rfl))
      · refine .delivers e hface (fun hs => hs) hsent hstate ?_
        exact hown.trans (congrArg (· ++ [e]) (hkept rfl))
  | express face lifetime =>
      refine .keeps (fun hs => hs) rfl (Station.onIncomingInterest_state _ _ _ _) ?_
      simp only [AppStation.react, Station.onIncomingInterest_queue]
      exact hkept rfl
  | onInterestFinalize => exact .keeps (fun hs => hs) rfl rfl (hkept rfl)
  | onData data => exact .expresses _ (Or.inr ⟨_, hdue, rfl, trivial⟩) rfl
  | onTimeout =>
      cases hagain : (app.handleTimeout due st.state).1 with
      | true =>
          refine .expresses (due, nonce) (Or.inr ⟨_, hdue, rfl, hagain⟩) ?_
          simp only [AppStation.react, AppStation.onTimeout, Queue.take, hagain, if_true]
          rfl
      | false =>
          refine .givesUp _ hdue rfl hagain (fun hs => hs) ?_ ?_
          · simp [AppStation.react, AppStation.onTimeout, Queue.take, hagain]
          · simp [AppStation.react, AppStation.onTimeout, Queue.take, hagain]

theorem Step.effect (hext : ∀ occ, external occ → occ.FromOutside app.face)
    {st st' : AppStation σ D} {l : Label D} (h : st.OneTimer)
    (hstep : Step app external Queue.IsDue st l st') : Effect app st l st' := by
  cases hstep with
  | start _ => exact .expresses _ (Or.inl trivial) rfl
  | stop =>
      refine .keeps id (stopApplication_transmittedInterests app st)
        (stopApplication_state app st) ?_
      rw [stopApplication_queue]
  | pass _ _ => exact .keeps id rfl rfl rfl
  | @announce delay occ hocc =>
      refine .keeps id rfl rfl ?_
      have hkind : Occurrence.isOwn occ = false := by
        have := hext occ hocc
        cases occ with
        | arrive _ _ => rfl
        | express _ _ => rfl
        | onInterestFinalize => rfl
        | _ => exact this.elim
      simp [Queue.pending_schedule, hkind]
  | run hdue => exact h.effect_react hdue _

theorem Step.inFaceTable {st st' : AppStation σ D} {l : Label D}
    (hstep : Step app external Queue.IsDue st l st') (hl : ¬ l.2.IsStart)
    (hface : st.inFaceTable = false) : st'.inFaceTable = false := by
  cases hstep with
  | start _ => exact absurd trivial hl
  | stop =>
      unfold stopApplication
      split
      · rfl
      · exact hface
  | pass _ _ => exact hface
  | announce _ => exact hface
  | @run e nonce _ =>
      rcases e with ⟨id, due, occ⟩
      cases occ with
      | arrive data ingress =>
          simp only [AppStation.react, AppStation.onIncomingData, hface]
          rfl
      | onTimeout =>
          simp only [AppStation.react, AppStation.onTimeout]
          split <;> exact hface
      | _ => exact hface

theorem OneTimer.run (hext : ∀ occ, external occ → occ.FromOutside app.face)
    {st st' : AppStation σ D} {ls : List (Label D)} (h : st.OneTimer)
    (hrun : Run (Step app external Queue.IsDue) st ls st') : st'.OneTimer := by
  refine hrun.invariant (fun _ s => s.OneTimer) h ?_
  intro ms t l v rest _ _ ht hstep
  exact ht.step hext hstep

theorem OneTimer.transmittedInterests_prefix
    (hext : ∀ occ, external occ → occ.FromOutside app.face) {st st' : AppStation σ D}
    {ls : List (Label D)} (h : st.OneTimer)
    (hrun : Run (Step app external Queue.IsDue) st ls st') :
    st.transmittedInterests <+: st'.transmittedInterests := by
  refine hrun.invariant (fun _ s => st.transmittedInterests <+: s.transmittedInterests)
    List.prefix_rfl ?_
  intro ms t l v rest _ hms ht hstep
  cases hstep.effect hext (h.run hext hms) with
  | expresses sent _ hsent =>
      rw [hsent]
      exact ht.trans (List.prefix_append _ _)
  | keeps _ hsent _ _ => rwa [hsent]
  | delivers _ _ _ hsent _ _ => rwa [hsent]
  | givesUp _ _ _ _ _ hsent _ => rwa [hsent]

/-- An Interest sent in a step of a run is in the list at its end. -/
theorem OneTimer.sent_ne (hext : ∀ occ, external occ → occ.FromOutside app.face)
    {st t t' st' : AppStation σ D} {pre post : List (Label D)} {sent : ℕ × ℕ} (h : st.OneTimer)
    (hpre : Run (Step app external Queue.IsDue) st pre t) (ht' : t'.OneTimer)
    (hsent : t'.transmittedInterests = t.transmittedInterests ++ [sent])
    (hpost : Run (Step app external Queue.IsDue) t' post st') :
    st'.transmittedInterests ≠ st.transmittedInterests := by
  have hbefore := (h.transmittedInterests_prefix hext hpre).length_le
  have hafter := (ht'.transmittedInterests_prefix hext hpost).length_le
  intro heq
  rw [heq, hsent, List.length_append, List.length_singleton] at hafter
  omega

theorem pending_isTimeout (q : Queue (Occurrence D)) :
    q.pending Occurrence.isTimeout =
      (q.pending Occurrence.isOwn).filter fun e => e.action.isTimeout := by
  simp only [Queue.pending, List.filter_filter]
  refine List.filter_congr fun e _ => ?_
  simp only [Occurrence.isOwn]
  cases e.action.isTimeout <;> simp

theorem Reexpresses.isOwn {st : AppStation σ D} {e : Event (Occurrence D)}
    (h : st.Reexpresses app e) : e.action.isOwn = true := by
  rcases e with ⟨id, due, occ⟩
  cases occ with
  | onData _ => rfl
  | onTimeout => rfl
  | _ => exact h.elim

/-- Only the answer to a timeout depends on the state. -/
theorem Reexpresses.congr {st st' : AppStation σ D} {e : Event (Occurrence D)}
    (h : st.Reexpresses app e) (hstate : e.action.isTimeout = true → st'.state = st.state) :
    st'.Reexpresses app e := by
  rcases e with ⟨id, due, occ⟩
  cases occ with
  | onData _ => trivial
  | onTimeout =>
      simp only [Reexpresses] at h ⊢
      rwa [hstate rfl]
  | _ => exact h.elim

/-- Taking the timer leaves none. -/
theorem OneTimer.pending_take {st : AppStation σ D} (h : st.OneTimer) {e : Event (Occurrence D)}
    (hdue : st.queue.IsDue e) (haction : e.action = .onTimeout) :
    (st.queue.take e).pending Occurrence.isTimeout = [] := by
  refine List.eq_nil_iff_forall_not_mem.mpr fun e' he' => ?_
  have hid := h.timers e (Queue.mem_pending.mpr ⟨hdue.1, by rw [haction]; rfl⟩)
  have hid' := h.timers e' (Queue.mem_pending_of_take he')
  have hne := (List.mem_filter.mp (Queue.mem_pending.mp he').1).2
  rw [← hid] at hid'
  simp [Option.some.inj hid'] at hne

/-- The events that could express the Interest were pending at the stop. -/
theorem OneTimer.silent (hext : ∀ occ, external occ → occ.FromOutside app.face)
    {st st' : AppStation σ D} {ls : List (Label D)} (h : st.OneTimer)
    (hface : st.inFaceTable = false) (hrun : Run (Step app external Queue.IsDue) st ls st')
    {limit : ℕ} (hlimit : ∀ l ∈ ls, l.1 ≤ limit) (hstart : ∀ l ∈ ls, ¬ l.2.IsStart)
    (hquiet : ∀ e ∈ st.queue.events, e.due ≤ limit → ¬ st.Reexpresses app e) :
    st'.transmittedInterests = st.transmittedInterests := by
  have hinv := hrun.invariant (fun _ s => s.inFaceTable = false ∧
      s.transmittedInterests = st.transmittedInterests ∧
      (∀ e ∈ s.queue.pending Occurrence.isOwn, e ∈ st.queue.events) ∧
      ((∃ e ∈ s.queue.pending Occurrence.isOwn, e.action.isTimeout = true) → s.state = st.state))
    ⟨hface, rfl, fun e he => (Queue.mem_pending.mp he).1, fun _ => rfl⟩ ?_
  · exact hinv.2.1
  rintro ms t l v rest heq hms ⟨hclosed, htsent, htown, htstate⟩ hstep
  have hl : l ∈ ls := by simp [heq]
  have ht := h.run hext hms
  have hvface := hstep.inFaceTable (hstart l hl) hclosed
  cases hstep.effect hext ht with
  | expresses sent hcause hsent =>
      rcases hcause with hcause | ⟨e, hdue, htime, hre⟩
      · exact absurd hcause (hstart l hl)
      · have hown : e ∈ t.queue.pending Occurrence.isOwn :=
          Queue.mem_pending.mpr ⟨hdue.1, hre.isOwn⟩
        have hre' : st.Reexpresses app e :=
          hre.congr fun htimeout => (htstate ⟨e, hown, htimeout⟩).symm
        exact absurd hre' (hquiet e (htown e hown) (htime ▸ hlimit l hl))
  | keeps _ hsent hstate hown =>
      rw [hown, hstate]
      exact ⟨hvface, hsent.trans htsent, htown, htstate⟩
  | delivers _ hopen _ _ _ _ =>
      rw [hclosed] at hopen
      cases hopen
  | givesUp e hdue haction _ _ hsent hown =>
      rw [hown]
      refine ⟨hvface, hsent.trans htsent,
        fun e' he' => htown e' (Queue.mem_pending_of_take he'), ?_⟩
      rintro ⟨e', he', htimeout⟩
      have hmem : e' ∈ (t.queue.take e).pending Occurrence.isTimeout := by
        rw [pending_isTimeout]
        exact List.mem_filter.mpr ⟨he', htimeout⟩
      rw [ht.pending_take hdue haction] at hmem
      cases hmem

/-- An event that expresses the Interest stays pending until an Interest is
expressed. -/
theorem OneTimer.speaks (hext : ∀ occ, external occ → occ.FromOutside app.face)
    {st st' : AppStation σ D} {ls : List (Label D)} (h : st.OneTimer)
    (hrun : Run (Step app external Queue.IsDue) st ls st') {e : Event (Occurrence D)}
    (he : e ∈ st.queue.events) (hre : st.Reexpresses app e) (hgone : e ∉ st'.queue.events) :
    st'.transmittedInterests ≠ st.transmittedInterests := by
  have hexit := hrun.exists_exit (fun s => e ∈ s.queue.pending Occurrence.isOwn ∧
      (e.action.isTimeout = true → s.state = st.state))
    ⟨Queue.mem_pending.mpr ⟨he, hre.isOwn⟩, fun _ => rfl⟩
    fun hlast => hgone (Queue.mem_pending.mp hlast.1).1
  obtain ⟨pre, l, post, t, t', rfl, hpre, hstep, ⟨hmem, hstate⟩, hlost, hpost⟩ := hexit
  have ht := h.run hext hpre
  cases hstep.effect hext ht with
  | expresses sent _ hsent => exact h.sent_ne hext hpre (ht.step hext hstep) hsent hpost
  | keeps _ _ hkept hown =>
      rw [hown, hkept] at hlost
      exact absurd ⟨hmem, hstate⟩ hlost
  | delivers _ _ _ _ hkept hown =>
      rw [hown, hkept] at hlost
      exact absurd ⟨List.mem_append_left _ hmem, hstate⟩ hlost
  | givesUp e' hdue haction hno _ _ hown =>
      have hmem' := Queue.mem_pending.mp hmem
      by_cases htimeout : e.action.isTimeout = true
      · have hid := ht.timers e (Queue.mem_pending.mpr ⟨hmem'.1, htimeout⟩)
        have hid' := ht.timers e' (Queue.mem_pending.mpr ⟨hdue.1, by rw [haction]; rfl⟩)
        obtain rfl := ht.sound.eq_of_id hmem'.1 hdue.1 (Option.some.inj (hid.trans hid'.symm))
        have hagain := hre.congr hstate
        simp only [Reexpresses, haction, hno] at hagain
        cases hagain
      · have hne : e.id ≠ e'.id := by
          intro hid
          obtain rfl := ht.sound.eq_of_id hmem'.1 hdue.1 hid
          rw [haction] at htimeout
          exact htimeout rfl
        have hkept : e ∈ (t.queue.take e').pending Occurrence.isOwn :=
          Queue.mem_pending.mpr ⟨List.mem_filter.mpr ⟨hmem'.1, by simpa using hne⟩, hmem'.2⟩
        rw [← hown] at hkept
        exact absurd ⟨hkept, fun h' => absurd h' htimeout⟩ hlost

end Run

end AppStation

/-- When all events up to a time have taken place after a call of
`StopApplication`: no Interest has been sent since the call iff the application
does not start after it and no event that was pending at the call and due by
then expresses the Interest. -/
theorem silent_after_stop_iff {app : AlertConsumer σ D} {external : Occurrence D → Prop}
    (hext : ∀ occ, external occ → occ.FromOutside app.face) {st₀ st st' : AppStation σ D}
    (hinit : st₀.OneTimer) {ls ls' : List (AppStation.Label D)}
    (hrun : Run (AppStation.Step app external Queue.IsDue) st₀ ls st)
    (hrun' : Run (AppStation.Step app external Queue.IsDue) (st.stopApplication app) ls' st')
    {limit : ℕ} (hlimit : ∀ l ∈ ls', l.1 ≤ limit)
    (hdone : ∀ e ∈ st'.queue.events, limit < e.due) :
    st'.transmittedInterests = st.transmittedInterests ↔
      (∀ l ∈ ls', ¬ l.2.IsStart) ∧
        ∀ e ∈ st.queue.events, e.due ≤ limit → ¬ st.Reexpresses app e := by
  have hst := hinit.run hext hrun
  obtain ⟨hstop, hface⟩ := hst.stopApplication app
  rw [← AppStation.stopApplication_transmittedInterests app st]
  constructor
  · intro hsilent
    constructor
    · intro l hl hstart
      obtain ⟨pre, post, rfl⟩ := List.append_of_mem hl
      obtain ⟨t, hpre, hrest⟩ := Run.append_iff.mp hrun'
      obtain ⟨t', hstep, hpost⟩ := Run.cons_iff.mp hrest
      have ht := hstop.run hext hpre
      cases hstep.effect hext ht with
      | expresses sent _ hsent =>
          exact hstop.sent_ne hext hpre (ht.step hext hstep) hsent hpost hsilent
      | keeps hno _ _ _ => exact hno hstart
      | delivers _ _ hno _ _ _ => exact hno hstart
      | givesUp _ _ _ _ hno _ _ => exact hno hstart
    · intro e he hdue hre
      refine hstop.speaks hext hrun' ?_
        (hre.congr fun _ => AppStation.stopApplication_state app st) ?_ hsilent
      · rwa [AppStation.stopApplication_queue]
      · intro hmem
        exact absurd hdue (hdone e hmem).not_ge
  · rintro ⟨hstart, hquiet⟩
    refine hstop.silent hext hface hrun' hlimit hstart ?_
    intro e he hdue hre
    rw [AppStation.stopApplication_queue] at he
    exact hquiet e he hdue (hre.congr fun _ => (AppStation.stopApplication_state app st).symm)

/-! ## Stopping after ten seconds

The Interest lives for a minute. -/

namespace Stopped

def idle : AppStation Unit ℕ := ⟨Alerted.idle, false, false, []⟩

theorem idle_oneTimer : idle.OneTimer where
  toTidy := Alerted.idle_ready.toTidy
  timers := nofun
  face := rfl

/-- An alert is on its way at the stop and arrives five seconds later. -/
theorem one : ∃ st st',
    Run (AppStation.Step Alerted.app Alerted.external Queue.IsDue) idle
      [(0, .start 1), (0, .announce 15000000000 (.arrive 1 7)), (10000000000, .pass)] st ∧
    Run (AppStation.Step Alerted.app Alerted.external Queue.IsDue)
      (st.stopApplication Alerted.app) [(15000000000, .run (.arrive 1 7) 0)] st' ∧
    ∀ e ∈ st'.queue.events, 20000000000 < e.due := by
  refine ⟨_, _, ((Run.nil.snoc (.start rfl)).snoc (.announce (Or.inr ⟨1, rfl⟩))).snoc
    (.pass (t := 10000000000) ?_ ?_), Run.nil.snoc (.run (e := ⟨1, 15000000000, .arrive 1 7⟩)
    ?_), ?_⟩
  all_goals decide

/-- The timer goes off fifty seconds after the stop. -/
theorem two : ∃ st st',
    Run (AppStation.Step Alerted.app Alerted.external Queue.IsFirst) idle
      [(0, .start 1), (10000000000, .pass)] st ∧
    Run (AppStation.Step Alerted.app Alerted.external Queue.IsFirst)
      (st.stopApplication Alerted.app) [(60000000000, .run .onTimeout 2)] st' ∧
    st.transmittedInterests = [(0, 1)] ∧
    st'.transmittedInterests = [(0, 1), (60000000000, 2)] := by
  refine ⟨_, _, (Run.nil.snoc (.start rfl)).snoc (.pass (t := 10000000000) ?_ ?_),
    Run.nil.snoc (.run (e := ⟨0, 60000000000, .onTimeout⟩) ?_), ?_, ?_⟩
  all_goals decide

end Stopped

theorem silent_after_stop_iff_one : ∃ st st',
    Run (AppStation.Step Alerted.app Alerted.external Queue.IsDue) Stopped.idle
      [(0, .start 1), (0, .announce 15000000000 (.arrive 1 7)), (10000000000, .pass)] st ∧
    Run (AppStation.Step Alerted.app Alerted.external Queue.IsDue)
      (st.stopApplication Alerted.app) [(15000000000, .run (.arrive 1 7) 0)] st' ∧
    (st'.transmittedInterests = st.transmittedInterests ↔
      (∀ l ∈ [(15000000000, AppStation.Action.run (Occurrence.arrive 1 7) 0)], ¬ l.2.IsStart) ∧
        ∀ e ∈ st.queue.events, e.due ≤ 20000000000 → ¬ st.Reexpresses Alerted.app e) := by
  obtain ⟨st, st', hrun, hrun', hdone⟩ := Stopped.one
  exact ⟨st, st', hrun, hrun', silent_after_stop_iff Alerted.external_fromOutside
    Stopped.idle_oneTimer hrun hrun' (by decide) hdone⟩

/-- The timer is not cancelled when the application stops. -/
theorem not_silent_after_stop : ¬ ∀ (app : AlertConsumer Unit ℕ) (external : Occurrence ℕ → Prop),
    0 < app.lifeTime → (∀ occ, external occ → occ.FromOutside app.face) →
    ∀ st₀ : AppStation Unit ℕ, st₀.OneTimer → ∀ ls st ls' st',
    (∀ l ∈ ls ++ ls', l.2 ≠ AppStation.Action.stop) →
    Run (AppStation.Step app external Queue.IsFirst) st₀ ls st →
    Run (AppStation.Step app external Queue.IsFirst) (st.stopApplication app) ls' st' →
    st'.transmittedInterests = st.transmittedInterests := by
  intro h
  obtain ⟨st, st', hrun, hrun', hbefore, hafter⟩ := Stopped.two
  have heq := h Alerted.app Alerted.external (by decide) Alerted.external_fromOutside Stopped.idle
    Stopped.idle_oneTimer _ st _ st' (by simp) hrun hrun'
  rw [hbefore, hafter] at heq
  cases heq

end Cafe
