import Cafe.Context
import Cafe.EventQueue
import Cafe.Runs

/-!
# A consumer of alerts

An application that consumes alerts expresses an Interest when it starts,
after each alert and after each timeout. The forwarder never sends these
Interests on; it keeps them in an entry of its PIT and deletes the record of
a face as soon as it has sent an alert there. Times are in nanoseconds, the
lifetimes of Interests in milliseconds.
-/

open Labelled EventQueue

namespace Cafe

/-- A millisecond. -/
def millisecond : ℕ := 1000000

namespace Pit

/-- An upper limit of ten days on the lifetime of a record. -/
def maxLifetime : ℕ := 10 * 24 * 60 * 60 * 1000

structure InRecord where
  lastNonce : ℕ
  expiry : ℕ

/-- One record for each face that has expressed the Interest, and the time for which the timer
of the entry is set. -/
structure Entry where
  inRecords : UnorderedMap FaceId InRecord
  isSatisfied : Bool
  expiryTimer : Option ℕ

namespace Entry

def empty : Entry := ⟨∅, false, none⟩

/-- The faces on which applications express Interests are point to point: a
nonce that comes again from the same face is no loop. -/
def HasDuplicateNonce (entry : Entry) (face : FaceId) (nonce : ℕ) : Prop :=
  (∃ e ∈ entry.inRecords.entries, e.1 ≠ face ∧ e.2.lastNonce = nonce) ∧
    ¬ ∃ e ∈ entry.inRecords.entries, e.1 = face ∧ e.2.lastNonce = nonce

instance (entry : Entry) (face : FaceId) (nonce : ℕ) :
    Decidable (entry.HasDuplicateNonce face nonce) := inferInstanceAs (Decidable (_ ∧ _))

def insertOrUpdateInRecord (entry : Entry) (face : FaceId) (now nonce lifetime : ℕ) : Entry :=
  { entry with
    inRecords := AList.insert face ⟨nonce, now + min lifetime maxLifetime * millisecond⟩
      entry.inRecords }

def deleteInRecord (entry : Entry) (face : FaceId) : Entry :=
  { entry with inRecords := AList.erase face entry.inRecords }

def lastExpiry (entry : Entry) : ℕ :=
  (entry.inRecords.entries.map fun e => e.2.expiry).foldr max 0

/-- The faces whose records have not expired. -/
def satisfyInterest (entry : Entry) (now : ℕ) : List FaceId :=
  (entry.inRecords.entries.filter fun e => now < e.2.expiry).map Sigma.fst

end Entry

end Pit

/-! ## The node as its consumer sees it -/

/-- What the simulator has in store: an alert reaches the forwarder, another
application expresses the Interest, the timer of the entry calls back, and the
events that forwarder and application schedule themselves. -/
inductive Occurrence (D : Type)
  | arrive (data : D) (ingress : FaceId)
  | express (face : FaceId) (lifetime : ℕ)
  | onInterestFinalize
  | onData (data : D)
  | onTimeout
  deriving DecidableEq

def Occurrence.isTimeout {D : Type} : Occurrence D → Bool
  | .onTimeout => true
  | _ => false

/-- The attributes of the application and the methods that a subclass
overrides. -/
structure AlertConsumer (σ D : Type) where
  face : FaceId
  lifeTime : ℕ
  doReceive : ℕ → D → σ → σ
  handleTimeout : ℕ → σ → Bool × σ

/-- The forwarder's entry for the Interest, the application and the events
they wait for. -/
structure Station (σ D : Type) where
  queue : Queue (Occurrence D)
  pitEntry : Option Pit.Entry
  eventId : Option ℕ
  state : σ

namespace Station

variable {σ D : Type}

/-! ### The forwarder -/

/-- One scheduler serves the timers of all nodes. It calls back late where another node's timer
was first, and then also if the timer has been cancelled or set anew, so the time of the call is
left to what is announced from outside. -/
def setExpiryTimer (st : Station σ D) (entry : Pit.Entry) (duration : ℕ) : Station σ D :=
  { st with pitEntry := some { entry with
      expiryTimer := some (st.queue.now + duration * millisecond) } }

/-- An Interest for alerts is kept and not forwarded. -/
def onIncomingInterest (st : Station σ D) (face : FaceId) (nonce lifetime : ℕ) : Station σ D :=
  let entry := st.pitEntry.getD .empty
  if entry.HasDuplicateNonce face nonce then
    { st with pitEntry := some entry }
  else
    let entry := entry.insertOrUpdateInRecord face st.queue.now nonce lifetime
    st.setExpiryTimer entry ((entry.lastExpiry - st.queue.now) / millisecond)

def onInterestFinalize (st : Station σ D) : Station σ D := { st with pitEntry := none }

/-- `AppLinkService::doSendData` -/
def doSendData (st : Station σ D) (data : D) : Station σ D :=
  { st with queue := st.queue.schedule 0 (.onData data) }

def deleteInRecords (st : Station σ D) (faces : List FaceId) : Station σ D :=
  { st with pitEntry := st.pitEntry.map fun entry => faces.foldl Pit.Entry.deleteInRecord entry }

/-- The pipeline of an alert that `OnIncomingAlert` finds relevant. -/
def onIncomingData (face : FaceId) (st : Station σ D) (data : D) (ingress : FaceId) :
    Station σ D :=
  match st.pitEntry with
  | none => st
  | some entry =>
      let satisfied := entry.satisfyInterest st.queue.now
      let st := (st.setExpiryTimer { entry with isSatisfied := true } 0).deleteInRecords satisfied
      if face ∈ satisfied ∧ face ≠ ingress then st.doSendData data else st

/-! ### The application -/

section App

variable (app : AlertConsumer σ D)

def registerInterest (st : Station σ D) (nonce : ℕ) : Station σ D :=
  let st := st.onIncomingInterest app.face nonce (app.lifeTime / millisecond)
  let queue := st.queue.cancel st.eventId
  { st with
    queue := queue.schedule app.lifeTime .onTimeout
    eventId := some queue.nextId }

def startApplication (st : Station σ D) (nonce : ℕ) : Station σ D := st.registerInterest app nonce

def onData (st : Station σ D) (data : D) (nonce : ℕ) : Station σ D :=
  { st with state := app.doReceive st.queue.now data st.state }.registerInterest app nonce

def onTimeout (st : Station σ D) (nonce : ℕ) : Station σ D :=
  let result := app.handleTimeout st.queue.now st.state
  let st := { st with state := result.2 }
  if result.1 then st.registerInterest app nonce else st

def react (st : Station σ D) (nonce : ℕ) : Occurrence D → Station σ D
  | .arrive data ingress => st.onIncomingData app.face data ingress
  | .express face lifetime => st.onIncomingInterest face nonce lifetime
  | .onInterestFinalize => st.onInterestFinalize
  | .onData data => st.onData app data nonce
  | .onTimeout => st.onTimeout app nonce

end App

inductive Action (D : Type)
  | start (nonce : ℕ)
  | announce (delay : ℕ) (occ : Occurrence D)
  | run (occ : Occurrence D) (nonce : ℕ)

abbrev Label (D : Type) := ℕ × Action D

/-- The application starts, something from outside is scheduled, or an event
that is `next` takes place. An Interest brings a nonce. -/
inductive Step (app : AlertConsumer σ D) (external : Occurrence D → Prop)
    (next : Queue (Occurrence D) → Event (Occurrence D) → Prop) (st : Station σ D) :
    Label D → Station σ D → Prop
  | start {nonce : ℕ} (hstart : st.eventId = none) :
      Step app external next st (st.queue.now, .start nonce) (st.startApplication app nonce)
  | announce {delay : ℕ} {occ : Occurrence D} (hext : external occ) :
      Step app external next st (st.queue.now, .announce delay occ)
        { st with queue := st.queue.schedule delay occ }
  | run {e : Event (Occurrence D)} {nonce : ℕ} (hnext : next st.queue e) :
      Step app external next st (e.due, .run e.action nonce)
        ({ st with queue := st.queue.take e }.react app nonce e.action)

/-! ## What the forwarder schedules -/

@[simp] theorem onIncomingInterest_queue (st : Station σ D) (face : FaceId)
    (nonce lifetime : ℕ) : (st.onIncomingInterest face nonce lifetime).queue = st.queue := by
  simp only [onIncomingInterest]
  split <;> rfl

/-- At most the alert for the application. -/
theorem onIncomingData_queue (face : FaceId) (st : Station σ D) (data : D) (ingress : FaceId) :
    (st.onIncomingData face data ingress).queue = st.queue ∨
      (st.onIncomingData face data ingress).queue = st.queue.schedule 0 (.onData data) := by
  unfold onIncomingData
  cases st.pitEntry with
  | none => exact Or.inl rfl
  | some entry =>
      simp only
      split
      · exact Or.inr rfl
      · exact Or.inl rfl

/-! ## The handle of the timer -/

/-- The kept id is that of the timer it was kept for. -/
structure Tidy (st : Station σ D) : Prop where
  sound : st.queue.Sound
  timer : st.queue.Handle st.eventId .onTimeout

section App

variable {app : AlertConsumer σ D}

@[simp] theorem onIncomingInterest_eventId (st : Station σ D) (face : FaceId)
    (nonce lifetime : ℕ) :
    (st.onIncomingInterest face nonce lifetime).eventId = st.eventId := by
  simp only [onIncomingInterest]
  split <;> rfl

@[simp] theorem onIncomingData_eventId (st : Station σ D) (face : FaceId) (data : D)
    (ingress : FaceId) : (st.onIncomingData face data ingress).eventId = st.eventId := by
  unfold onIncomingData
  split
  · rfl
  · simp only
    split <;> rfl

theorem Tidy.onIncomingInterest {st : Station σ D} (h : st.Tidy) (face : FaceId)
    (nonce lifetime : ℕ) : (st.onIncomingInterest face nonce lifetime).Tidy := by
  constructor
  · rw [onIncomingInterest_queue]
    exact h.sound
  · rw [onIncomingInterest_queue, onIncomingInterest_eventId]
    exact h.timer

theorem Tidy.onIncomingData {st : Station σ D} (h : st.Tidy) (face : FaceId) (data : D)
    (ingress : FaceId) : (st.onIncomingData face data ingress).Tidy := by
  rcases onIncomingData_queue face st data ingress with hqueue | hqueue
  · constructor
    · rw [hqueue]
      exact h.sound
    · rw [hqueue, onIncomingData_eventId]
      exact h.timer
  · constructor
    · rw [hqueue]
      exact h.sound.schedule _ _
    · rw [hqueue, onIncomingData_eventId]
      exact h.timer.schedule _ _

theorem Tidy.registerInterest {st : Station σ D} (h : st.Tidy) (nonce : ℕ) :
    (st.registerInterest app nonce).Tidy := by
  have h' := h.onIncomingInterest app.face nonce (app.lifeTime / millisecond)
  exact ⟨(h'.sound.cancel _).schedule _ _, (h'.sound.cancel _).handle_schedule _ _⟩

theorem Tidy.setState {st : Station σ D} (h : st.Tidy) (state : σ) :
    Tidy { st with state := state } := ⟨h.sound, h.timer⟩

theorem Tidy.react {st : Station σ D} (h : st.Tidy) (nonce : ℕ) (occ : Occurrence D) :
    (st.react app nonce occ).Tidy := by
  cases occ with
  | arrive data ingress => exact h.onIncomingData _ _ _
  | express face lifetime => exact h.onIncomingInterest _ _ _
  | onInterestFinalize => exact ⟨h.sound, h.timer⟩
  | onData data => exact (h.setState _).registerInterest nonce
  | onTimeout =>
      simp only [Station.react, Station.onTimeout]
      split
      · exact (h.setState _).registerInterest nonce
      · exact h.setState _

theorem Tidy.take {st : Station σ D} (h : st.Tidy) {e : Event (Occurrence D)}
    (he : st.queue.IsDue e) : Tidy { st with queue := st.queue.take e } :=
  ⟨h.sound.take he, h.timer.take e⟩

theorem Tidy.step {external : Occurrence D → Prop} {st st' : Station σ D} {l : Label D}
    (h : st.Tidy) (hstep : Step app external Queue.IsDue st l st') : st'.Tidy := by
  cases hstep with
  | start _ => exact h.registerInterest _
  | announce _ => exact ⟨h.sound.schedule _ _, h.timer.schedule _ _⟩
  | run hnext => exact (h.take hnext).react _ _

end App

/-! ## The events of a kind that a function schedules -/

section Pending

variable {p : Occurrence D → Bool}

theorem pending_onIncomingData (hp : ∀ data, p (.onData data) = false) (face : FaceId)
    (st : Station σ D) (data : D) (ingress : FaceId) :
    (st.onIncomingData face data ingress).queue.pending p = st.queue.pending p := by
  rcases onIncomingData_queue face st data ingress with hqueue | hqueue
  · rw [hqueue]
  · simp [hqueue, Queue.pending_schedule, hp]

theorem Tidy.pending_registerInterest {app : AlertConsumer σ D} {st : Station σ D} (h : st.Tidy)
    (hp : p .onTimeout = false) (nonce : ℕ) :
    (st.registerInterest app nonce).queue.pending p = st.queue.pending p := by
  have h' := h.onIncomingInterest app.face nonce (app.lifeTime / millisecond)
  simp only [Station.registerInterest, Queue.pending_schedule, hp, Bool.false_eq_true, if_false,
    List.append_nil]
  rw [Queue.pending_cancel_of_ne, onIncomingInterest_queue]
  intro e he hid
  rw [h'.timer.action e he hid]
  exact hp

end Pending

/-! ## The timer of the application -/

@[simp] theorem onIncomingInterest_state (st : Station σ D) (face : FaceId) (nonce lifetime : ℕ) :
    (st.onIncomingInterest face nonce lifetime).state = st.state := by
  simp only [onIncomingInterest]
  split <;> rfl

@[simp] theorem onIncomingData_now (st : Station σ D) (face : FaceId) (data : D)
    (ingress : FaceId) : (st.onIncomingData face data ingress).queue.now = st.queue.now := by
  unfold onIncomingData
  split
  · rfl
  · simp only
    split <;> rfl

@[simp] theorem onIncomingData_state (st : Station σ D) (face : FaceId) (data : D)
    (ingress : FaceId) : (st.onIncomingData face data ingress).state = st.state := by
  unfold onIncomingData
  split
  · rfl
  · simp only
    split <;> rfl

@[simp] theorem registerInterest_now (app : AlertConsumer σ D) (st : Station σ D) (nonce : ℕ) :
    (st.registerInterest app nonce).queue.now = st.queue.now := by
  simp [registerInterest, Queue.schedule, Queue.cancel]

@[simp] theorem registerInterest_state (app : AlertConsumer σ D) (st : Station σ D) (nonce : ℕ) :
    (st.registerInterest app nonce).state = st.state :=
  onIncomingInterest_state _ _ _ _

/-- Expressing the Interest leaves one timer, however many there were. -/
theorem timer_registerInterest (app : AlertConsumer σ D) {st : Station σ D}
    (hall : ∀ e ∈ st.queue.pending Occurrence.isTimeout, some e.id = st.eventId) (nonce : ℕ) :
    ∃ id, (st.registerInterest app nonce).queue.pending Occurrence.isTimeout =
        [⟨id, st.queue.now + app.lifeTime, .onTimeout⟩] ∧
      (st.registerInterest app nonce).eventId = some id := by
  refine ⟨_, ?_, rfl⟩
  have hnone : (st.queue.cancel st.eventId).pending Occurrence.isTimeout = [] := by
    rw [Queue.pending_cancel]
    refine List.filter_eq_nil_iff.mpr ?_
    intro e he
    simpa using hall e he
  simp only [Station.registerInterest, Queue.pending_schedule, onIncomingInterest_eventId,
    onIncomingInterest_queue, hnone]
  simp [Occurrence.isTimeout, Queue.cancel]

end Station

end Cafe
