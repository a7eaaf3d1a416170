import Cafe.Consumer
import Cafe.Forwarder

/-!
# Availability of an RSU is recency of its hellos

The consumer of hellos sets the flag of its node upon each hello and clears
it upon each timeout. Both rearm one timer, so the flag tells whether the
last hello is younger than the lifetime of the Interest.
-/

open Labelled EventQueue

namespace Cafe

variable {F : Type} [Arith F] {D : Type}

structure HelloConsumer.State (F : Type) [Arith F] where
  lastReceived : ℕ
  ctx : Context F

/-- The methods that a consumer of hellos overrides. -/
def helloConsumer (F D : Type) [Arith F] (face : FaceId) (lifeTime : ℕ) :
    AlertConsumer (HelloConsumer.State F) D where
  face := face
  lifeTime := lifeTime
  doReceive now _ state :=
    { lastReceived := now
      ctx := { state.ctx with isRsuAvailable := true } }
  handleTimeout _ state := (true, { state with ctx := { state.ctx with isRsuAvailable := false } })

namespace Station

variable {σ : Type}

/-- The application has not started, and its timer is not set. -/
structure Idle (st : Station σ D) : Prop extends Tidy st where
  stopped : st.eventId = none
  timers : st.queue.pending Occurrence.isTimeout = []

/-- The steps that end with setting the timer. -/
def Label.Rearms : Label D → Prop
  | (_, .start _) => True
  | (_, .run (.onData _) _) => True
  | (_, .run .onTimeout _) => True
  | _ => False

/-- The timer was last set at time `t`. -/
def LastRearm (ls : List (Label D)) (t : ℕ) : Prop :=
  ∃ pre l post, ls = pre ++ l :: post ∧ l.Rearms ∧ l.1 = t ∧ ∀ m ∈ post, ¬ m.Rearms

/-- A message was handed to `OnData` at time `t`. -/
def DeliveredAt (ls : List (Label D)) (t : ℕ) : Prop :=
  ∃ data nonce, (t, .run (.onData data) nonce) ∈ ls

theorem LastRearm.snoc {ls : List (Label D)} {l : Label D} (hl : l.Rearms) :
    LastRearm (ls ++ [l]) l.1 := ⟨ls, l, [], rfl, hl, rfl, by simp⟩

theorem LastRearm.snoc_of_not {ls : List (Label D)} {t : ℕ} (h : LastRearm ls t) {l : Label D}
    (hl : ¬ l.Rearms) : LastRearm (ls ++ [l]) t := by
  obtain ⟨pre, m, post, rfl, hm, ht, hpost⟩ := h
  refine ⟨pre, m, post ++ [l], by simp, hm, ht, ?_⟩
  intro m' hm'
  rcases List.mem_append.mp hm' with hm' | hm'
  · exact hpost m' hm'
  · rw [List.mem_singleton.mp hm']
    exact hl

theorem deliveredAt_snoc {ls : List (Label D)} {l : Label D} {t : ℕ} :
    DeliveredAt (ls ++ [l]) t ↔
      DeliveredAt ls t ∨ ∃ data nonce, l = (t, .run (.onData data) nonce) := by
  unfold DeliveredAt
  constructor
  · rintro ⟨data, nonce, hmem⟩
    rcases List.mem_append.mp hmem with hmem | hmem
    · exact Or.inl ⟨data, nonce, hmem⟩
    · exact Or.inr ⟨data, nonce, (List.mem_singleton.mp hmem).symm⟩
  · rintro (⟨data, nonce, hmem⟩ | ⟨data, nonce, rfl⟩)
    · exact ⟨data, nonce, List.mem_append_left _ hmem⟩
    · exact ⟨data, nonce, List.mem_append_right _ (List.mem_singleton.mpr rfl)⟩

/-- Exactly one timer is pending, due a lifetime after it was last set. The
flag is set iff that was upon a hello; else every hello is a lifetime old. -/
structure Recent (lifeTime : ℕ) (ls : List (Label D)) (st : Station (HelloConsumer.State F) D) :
    Prop where
  tidy : st.Tidy
  armed : ∃ id t, st.queue.pending Occurrence.isTimeout = [⟨id, t + lifeTime, .onTimeout⟩] ∧
    st.eventId = some id ∧ LastRearm ls t ∧ t ≤ st.queue.now ∧
    (∀ t₀, DeliveredAt ls t₀ → t₀ ≤ t) ∧
    (st.state.ctx.isRsuAvailable = true → DeliveredAt ls t)
  down : st.state.ctx.isRsuAvailable = false →
    ∀ t₀, DeliveredAt ls t₀ → t₀ + lifeTime ≤ st.queue.now

section Hello

variable {face : FaceId} {lifeTime : ℕ}

/-- Setting the timer anew. -/
theorem Recent.rearm (ls : List (Label D)) (st : Station (HelloConsumer.State F) D) {l : Label D}
    {nonce : ℕ} (htidy : st.Tidy)
    (hall : ∀ e ∈ st.queue.pending Occurrence.isTimeout, some e.id = st.eventId)
    (hl : l.Rearms) (hnow : l.1 = st.queue.now)
    (hpast : ∀ t₀, DeliveredAt (ls ++ [l]) t₀ → t₀ ≤ st.queue.now)
    (hup : st.state.ctx.isRsuAvailable = true → DeliveredAt (ls ++ [l]) st.queue.now)
    (hdown : st.state.ctx.isRsuAvailable = false →
      ∀ t₀, DeliveredAt (ls ++ [l]) t₀ → t₀ + lifeTime ≤ st.queue.now) :
    Recent lifeTime (ls ++ [l])
      (st.registerInterest (helloConsumer F D face lifeTime) nonce) := by
  refine ⟨htidy.registerInterest nonce, ?_, ?_⟩
  · obtain ⟨id, hpend, hid⟩ :=
      timer_registerInterest (helloConsumer F D face lifeTime) hall nonce
    refine ⟨id, st.queue.now, hpend, hid, hnow ▸ LastRearm.snoc hl, ?_, hpast, ?_⟩
    · rw [registerInterest_now]
    · rw [registerInterest_state]
      exact hup
  · rw [registerInterest_state, registerInterest_now]
    exact hdown

/-- A step that leaves timer and flag alone. -/
theorem Recent.keep {ls : List (Label D)} {st st' : Station (HelloConsumer.State F) D}
    (h : Recent lifeTime ls st) {l : Label D} (htidy : st'.Tidy)
    (hpend : st'.queue.pending Occurrence.isTimeout = st.queue.pending Occurrence.isTimeout)
    (hid : st'.eventId = st.eventId) (hstate : st'.state = st.state)
    (hnow : st.queue.now ≤ st'.queue.now) (hl : ¬ l.Rearms) : Recent lifeTime (ls ++ [l]) st' := by
  have hdelivered : ∀ t₀, DeliveredAt (ls ++ [l]) t₀ → DeliveredAt ls t₀ := by
    intro t₀ ht₀
    rcases deliveredAt_snoc.mp ht₀ with ht₀ | ⟨data, nonce, rfl⟩
    · exact ht₀
    · exact absurd trivial hl
  obtain ⟨id, t, hpend', hid', hlast, hle, hpast, hup⟩ := h.armed
  refine ⟨htidy, ⟨id, t, hpend.trans hpend', hid.trans hid', hlast.snoc_of_not hl,
    hle.trans hnow, fun t₀ ht₀ => hpast t₀ (hdelivered t₀ ht₀), ?_⟩, ?_⟩
  · rw [hstate]
    exact fun hflag => deliveredAt_snoc.mpr (Or.inl (hup hflag))
  · rw [hstate]
    exact fun hflag t₀ ht₀ => (h.down hflag t₀ (hdelivered t₀ ht₀)).trans hnow

theorem Recent.step {external : Occurrence D → Prop} (hext : ¬ external .onTimeout)
    {ls : List (Label D)} {st st' : Station (HelloConsumer.State F) D} {l : Label D}
    (h : Recent lifeTime ls st)
    (hstep : Step (helloConsumer F D face lifeTime) external Queue.IsDue st l st') :
    Recent lifeTime (ls ++ [l]) st' := by
  obtain ⟨id, t, hpend, hid, _, hle, hpast, _⟩ := h.armed
  have htidy' := h.tidy.step hstep
  cases hstep with
  | start hstart => simp [hid] at hstart
  | @announce delay occ hocc =>
      have hkind : occ.isTimeout = false := by
        cases occ with
        | onTimeout => exact absurd hocc hext
        | _ => rfl
      refine h.keep htidy' ?_ rfl rfl le_rfl (fun hl => hl)
      simp [Queue.pending_schedule, hkind]
  | @run e nonce hdue =>
      have hnow : st.queue.now ≤ e.due := h.tidy.sound.now_le hdue
      have htake := h.tidy.take hdue
      have htimer : e.action.isTimeout = false →
          (st.queue.take e).pending Occurrence.isTimeout =
            st.queue.pending Occurrence.isTimeout :=
        Queue.pending_take_of_ne h.tidy.sound hdue.1
      rcases e with ⟨eid, due, occ⟩
      cases occ with
      | arrive data ingress =>
          refine h.keep htidy' ?_ (onIncomingData_eventId _ _ _ _) (onIncomingData_state _ _ _ _)
            ?_ (fun hl => hl)
          · exact (pending_onIncomingData (fun _ => rfl) _ _ _ _).trans (htimer rfl)
          · rw [react, onIncomingData_now]
            exact hnow
      | express face' lifetime =>
          refine h.keep htidy' ?_ (onIncomingInterest_eventId _ _ _ _)
            (onIncomingInterest_state _ _ _ _) ?_ (fun hl => hl)
          · rw [react, onIncomingInterest_queue]
            exact htimer rfl
          · rw [react, onIncomingInterest_queue]
            exact hnow
      | onInterestFinalize => exact h.keep htidy' (htimer rfl) rfl rfl hnow (fun hl => hl)
      | onData data =>
          have hall : ∀ e' ∈ (st.queue.take ⟨eid, due, .onData data⟩).pending Occurrence.isTimeout,
              some e'.id = st.eventId := by
            rw [htimer rfl, hpend, hid]
            simp
          refine Recent.rearm ls { st with
            queue := st.queue.take ⟨eid, due, .onData data⟩
            state := (helloConsumer F D face lifeTime).doReceive due data st.state }
            (htake.setState _) hall trivial rfl ?_ ?_ ?_
          · intro t₀ ht₀
            rcases deliveredAt_snoc.mp ht₀ with ht₀ | ⟨_, _, heq⟩
            · exact ((hpast t₀ ht₀).trans hle).trans hnow
            · rw [← (Prod.mk.inj heq).1]
              exact le_rfl
          · intro _
            exact deliveredAt_snoc.mpr (Or.inr ⟨data, nonce, rfl⟩)
          · intro hflag
            cases hflag
      | onTimeout =>
          have hmem : (⟨eid, due, .onTimeout⟩ : Event (Occurrence D)) ∈
              st.queue.pending Occurrence.isTimeout := Queue.mem_pending.mpr ⟨hdue.1, rfl⟩
          have heq := hmem
          rw [hpend, List.mem_singleton] at heq
          have hdueeq : due = t + lifeTime := congrArg Event.due heq
          have hempty : (st.queue.take ⟨eid, due, .onTimeout⟩).pending
              Occurrence.isTimeout = [] := by
            apply Queue.pending_take_single
            rw [hpend, heq]
          have hold : ∀ t₀, DeliveredAt (ls ++ [(due, .run .onTimeout nonce)]) t₀ →
              DeliveredAt ls t₀ := by
            intro t₀ ht₀
            rcases deliveredAt_snoc.mp ht₀ with ht₀ | ⟨_, _, heq⟩
            · exact ht₀
            · cases heq
          refine Recent.rearm ls { st with
            queue := st.queue.take ⟨eid, due, .onTimeout⟩
            state := ((helloConsumer F D face lifeTime).handleTimeout due st.state).2 }
            (htake.setState _) ?_ trivial rfl ?_ ?_ ?_
          · intro e' he'
            change e' ∈ (st.queue.take ⟨eid, due, .onTimeout⟩).pending Occurrence.isTimeout at he'
            rw [hempty] at he'
            cases he'
          · intro t₀ ht₀
            exact ((hpast t₀ (hold t₀ ht₀)).trans hle).trans hnow
          · intro hflag
            cases hflag
          · intro _ t₀ ht₀
            change t₀ + lifeTime ≤ due
            rw [hdueeq]
            exact Nat.add_le_add_right (hpast t₀ (hold t₀ ht₀)) _

/-- The start of the application. -/
theorem Recent.start {external : Occurrence D → Prop} {st st' : Station (HelloConsumer.State F) D}
    (hidle : st.Idle) (hflag : st.state.ctx.isRsuAvailable = false) {t nonce : ℕ}
    (hstep : Step (helloConsumer F D face lifeTime) external Queue.IsDue st (t, .start nonce) st') :
    Recent lifeTime [(t, .start nonce)] st' := by
  cases hstep with
  | start _ =>
      have hnone : ∀ t₀, ¬ DeliveredAt ([] ++ [((st.queue.now, .start nonce) : Label D)]) t₀ := by
        rintro t₀ ⟨data, nonce', hmem⟩
        cases List.mem_singleton.mp hmem
      refine Recent.rearm [] st hidle.toTidy ?_ trivial rfl (fun t₀ ht₀ => absurd ht₀ (hnone t₀))
        ?_ fun _ t₀ ht₀ => absurd ht₀ (hnone t₀)
      · rw [hidle.timers]
        simp
      · rw [hflag]
        nofun

end Hello

end Station

/-- In every run of a consumer of hellos, whatever comes from outside and in
whatever order simultaneous events run: the flag is set at time `t` iff a
hello younger than the lifetime has been delivered, and one timer is pending,
due a lifetime after the latest delivery or timeout, or the start. -/
theorem availability_is_recency {face : FaceId} {lifeTime : ℕ} {external : Occurrence D → Prop}
    (hext : ¬ external .onTimeout) {st₀ st : Station (HelloConsumer.State F) D}
    (hidle : st₀.Idle) (hflag : st₀.state.ctx.isRsuAvailable = false) {t₀ nonce : ℕ}
    {ls : List (Station.Label D)}
    (hrun : Run (Station.Step (helloConsumer F D face lifeTime) external Queue.IsDue) st₀
      ((t₀, .start nonce) :: ls) st) :
    (∀ t, st.queue.now ≤ t → (∀ e ∈ st.queue.events, t < e.due) →
      (st.state.ctx.isRsuAvailable = true ↔
        ∃ t₁, Station.DeliveredAt ls t₁ ∧ t₁ ≤ t ∧ t - t₁ < lifeTime)) ∧
    ∃ id t, st.queue.pending Occurrence.isTimeout = [⟨id, t + lifeTime, .onTimeout⟩] ∧
      Station.LastRearm ((t₀, .start nonce) :: ls) t := by
  obtain ⟨st₁, hstart, hrest⟩ := Run.cons_iff.mp hrun
  have hrecent : Station.Recent lifeTime ((t₀, .start nonce) :: ls) st := by
    refine hrest.invariant (fun ms s => Station.Recent lifeTime ((t₀, .start nonce) :: ms) s)
      (Station.Recent.start hidle hflag hstart) ?_
    intro ms s l s' rest _ _ hs hstep
    exact hs.step hext hstep
  obtain ⟨id, t, hpend, _, hlast, hle, hpast, hup⟩ := hrecent.armed
  have hdelivered : ∀ t₁, Station.DeliveredAt ((t₀, .start nonce) :: ls) t₁ ↔
      Station.DeliveredAt ls t₁ := by
    intro t₁
    simp [Station.DeliveredAt]
  refine ⟨?_, id, t, hpend, hlast⟩
  intro t' hnow hdue
  have htimer : t' < t + lifeTime := by
    have hmem : (⟨id, t + lifeTime, .onTimeout⟩ : Event (Occurrence D)) ∈
        st.queue.pending Occurrence.isTimeout := by
      rw [hpend]
      exact List.mem_singleton.mpr rfl
    exact hdue _ (Queue.mem_pending.mp hmem).1
  constructor
  · intro hset
    refine ⟨t, (hdelivered t).mp (hup hset), hle.trans hnow, ?_⟩
    omega
  · rintro ⟨t₁, ht₁, hle₁, hlt⟩
    cases hset : st.state.ctx.isRsuAvailable with
    | true => rfl
    | false =>
        have hold := hrecent.down hset t₁ ((hdelivered t₁).mpr ht₁)
        omega

/-! ## A vehicle that hears one hello

The Interest lives for five milliseconds; the hello comes ten nanoseconds
after the start. -/

namespace OneHello

def hello : Data ℝ := ⟨[.zor .neighbor], 1024, some .rsu, some ⟨0, 0⟩, none, 0⟩

noncomputable def idle : Station (HelloConsumer.State ℝ) (Data ℝ) where
  queue := ⟨0, 0, []⟩
  pitEntry := none
  eventId := none
  state := ⟨0, Context.init ℝ⟩

theorem idle_idle : idle.Idle where
  sound := ⟨List.nodup_nil, nofun, nofun⟩
  timer := .none _ _
  stopped := rfl
  timers := rfl

noncomputable def app : AlertConsumer (HelloConsumer.State ℝ) (Data ℝ) :=
  helloConsumer ℝ (Data ℝ) 300 5000000

noncomputable def told : Station (HelloConsumer.State ℝ) (Data ℝ) :=
  { idle.startApplication app 7 with
    queue := (idle.startApplication app 7).queue.schedule 10 (.onData hello) }

theorem told_events : told.queue.events =
    [⟨0, 5000000, .onTimeout⟩, ⟨1, 10, .onData hello⟩] := rfl

theorem run : ∃ st, Run (Station.Step app (fun occ => occ = .onData hello) Queue.IsDue) idle
    [(0, .start 7), (0, .announce 10 (.onData hello)), (10, .run (.onData hello) 8)] st := by
  have hdue : told.queue.IsDue ⟨1, 10, .onData hello⟩ := by
    refine ⟨by simp [told_events], ?_⟩
    intro e he
    rw [told_events] at he
    simp only [List.mem_cons, List.not_mem_nil, or_false] at he
    rcases he with rfl | rfl <;> norm_num
  exact ⟨_, ((Run.nil.snoc (.start rfl)).snoc (.announce rfl)).snoc (.run hdue)⟩

end OneHello

theorem availability_is_recency_hello : ∃ ls st,
    Run (Station.Step OneHello.app (fun occ => occ = .onData OneHello.hello) Queue.IsDue)
      OneHello.idle ((0, .start 7) :: ls) st ∧ Station.DeliveredAt ls 10 ∧
    (∀ t, st.queue.now ≤ t → (∀ e ∈ st.queue.events, t < e.due) →
      (st.state.ctx.isRsuAvailable = true ↔
        ∃ t₁, Station.DeliveredAt ls t₁ ∧ t₁ ≤ t ∧ t - t₁ < 5000000)) ∧
    ∃ id t, st.queue.pending Occurrence.isTimeout = [⟨id, t + 5000000, .onTimeout⟩] ∧
      Station.LastRearm ((0, .start 7) :: ls) t := by
  obtain ⟨st, hrun⟩ := OneHello.run
  refine ⟨_, st, hrun, ⟨OneHello.hello, 8, by simp⟩, ?_⟩
  exact availability_is_recency (by simp) OneHello.idle_idle rfl hrun

end Cafe
