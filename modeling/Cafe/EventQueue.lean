import Mathlib.Tactic

/-!
# A queue of timed events

The events of a simulator wait in the order in which they were scheduled,
each with an id of its own. The clock jumps to the event that is taken, and
no event is taken before one that is due earlier.
-/

namespace EventQueue

variable {α : Type*}

structure Event (α : Type*) where
  id : ℕ
  due : ℕ
  action : α
  deriving DecidableEq

structure Queue (α : Type*) where
  now : ℕ
  nextId : ℕ
  events : List (Event α)

namespace Queue

/-- The id of the new event is the `nextId` of the queue. -/
def schedule (q : Queue α) (delay : ℕ) (a : α) : Queue α :=
  { q with
    nextId := q.nextId + 1
    events := q.events ++ [⟨q.nextId, q.now + delay, a⟩] }

/-- Cancelling an event that is no longer pending does nothing. -/
def cancel (q : Queue α) (id : Option ℕ) : Queue α :=
  { q with events := q.events.filter fun e => some e.id ≠ id }

def take (q : Queue α) (e : Event α) : Queue α :=
  { q with
    now := e.due
    events := q.events.filter fun e' => e'.id ≠ e.id }

/-- No event is due before `e`. -/
def IsDue (q : Queue α) (e : Event α) : Prop :=
  e ∈ q.events ∧ ∀ e' ∈ q.events, e.due ≤ e'.due

/-- Of the events due first, `e` was scheduled first. -/
def IsFirst (q : Queue α) (e : Event α) : Prop :=
  q.IsDue e ∧ ∀ e' ∈ q.events, e'.due = e.due → e.id ≤ e'.id

instance [DecidableEq α] (q : Queue α) (e : Event α) : Decidable (q.IsDue e) :=
  inferInstanceAs (Decidable (_ ∧ _))

instance [DecidableEq α] (q : Queue α) (e : Event α) : Decidable (q.IsFirst e) :=
  inferInstanceAs (Decidable (_ ∧ _))

/-- Ids are unique and fresh, and no event is overdue. -/
structure Sound (q : Queue α) : Prop where
  ids : (q.events.map Event.id).Nodup
  bound : ∀ e ∈ q.events, e.id < q.nextId
  due : ∀ e ∈ q.events, q.now ≤ e.due

theorem Sound.eq_of_id {q : Queue α} (h : q.Sound) {e e' : Event α} (he : e ∈ q.events)
    (he' : e' ∈ q.events) (hid : e.id = e'.id) : e = e' :=
  List.inj_on_of_nodup_map h.ids he he' hid

theorem Sound.schedule {q : Queue α} (h : q.Sound) (delay : ℕ) (a : α) :
    (q.schedule delay a).Sound where
  ids := by
    simp only [Queue.schedule, List.map_append, List.map_cons, List.map_nil]
    rw [List.nodup_append]
    refine ⟨h.ids, List.nodup_singleton _, ?_⟩
    intro i hi j hj
    obtain ⟨e, he, rfl⟩ := List.mem_map.mp hi
    rw [List.mem_singleton.mp hj]
    exact (h.bound e he).ne
  bound := by
    intro e he
    rcases List.mem_append.mp he with he | he
    · exact (h.bound e he).trans (Nat.lt_succ_self _)
    · rw [List.mem_singleton.mp he]
      exact Nat.lt_succ_self _
  due := by
    intro e he
    rcases List.mem_append.mp he with he | he
    · exact h.due e he
    · rw [List.mem_singleton.mp he]
      exact Nat.le_add_right _ _

theorem Sound.cancel {q : Queue α} (h : q.Sound) (id : Option ℕ) : (q.cancel id).Sound where
  ids := h.ids.sublist (List.filter_sublist.map _)
  bound := fun e he => h.bound e (List.mem_filter.mp he).1
  due := fun e he => h.due e (List.mem_filter.mp he).1

theorem Sound.take {q : Queue α} (h : q.Sound) {e : Event α} (he : q.IsDue e) :
    (q.take e).Sound where
  ids := h.ids.sublist (List.filter_sublist.map _)
  bound := fun e' he' => h.bound e' (List.mem_filter.mp he').1
  due := fun e' he' => he.2 e' (List.mem_filter.mp he').1

theorem Sound.now_le {q : Queue α} (h : q.Sound) {e : Event α} (he : q.IsDue e) :
    q.now ≤ (q.take e).now := h.due e he.1

/-- An id that was kept to cancel an event with action `a`: it is the id of no
other event. -/
structure Handle (q : Queue α) (id : Option ℕ) (a : α) : Prop where
  bound : ∀ i, id = some i → i < q.nextId
  action : ∀ e ∈ q.events, some e.id = id → e.action = a

theorem Handle.none (q : Queue α) (a : α) : q.Handle none a := ⟨nofun, nofun⟩

theorem Handle.schedule {q : Queue α} {id : Option ℕ} {a : α} (h : q.Handle id a) (delay : ℕ)
    (b : α) : (q.schedule delay b).Handle id a where
  bound := fun i hi => (h.bound i hi).trans (Nat.lt_succ_self _)
  action := by
    intro e he hid
    rcases List.mem_append.mp he with he | he
    · exact h.action e he hid
    · obtain rfl := List.mem_singleton.mp he
      exact absurd (h.bound _ hid.symm) (lt_irrefl _)

theorem Handle.cancel {q : Queue α} {id : Option ℕ} {a : α} (h : q.Handle id a)
    (id' : Option ℕ) : (q.cancel id').Handle id a where
  bound := h.bound
  action := fun e he => h.action e (List.mem_filter.mp he).1

theorem Handle.take {q : Queue α} {id : Option ℕ} {a : α} (h : q.Handle id a) (e : Event α) :
    (q.take e).Handle id a where
  bound := h.bound
  action := fun e' he' => h.action e' (List.mem_filter.mp he').1

/-- The id of the event just scheduled. -/
theorem Sound.handle_schedule {q : Queue α} (h : q.Sound) (delay : ℕ) (a : α) :
    (q.schedule delay a).Handle (some q.nextId) a where
  bound := fun i hi => Option.some.inj hi ▸ Nat.lt_succ_self _
  action := by
    intro e he hid
    rcases List.mem_append.mp he with he | he
    · exact absurd (h.bound e he) (by rw [Option.some.inj hid]; exact lt_irrefl _)
    · rw [List.mem_singleton.mp he]

/-- All pending events are of a kind. -/
def All (P : α → Prop) (q : Queue α) : Prop := ∀ e ∈ q.events, P e.action

theorem All.schedule {P : α → Prop} {q : Queue α} (h : q.All P) (delay : ℕ) {a : α} (ha : P a) :
    (q.schedule delay a).All P := by
  intro e he
  rcases List.mem_append.mp he with he | he
  · exact h e he
  · rw [List.mem_singleton.mp he]
    exact ha

theorem All.cancel {P : α → Prop} {q : Queue α} (h : q.All P) (id : Option ℕ) :
    (q.cancel id).All P := fun e he => h e (List.mem_filter.mp he).1

theorem All.take {P : α → Prop} {q : Queue α} (h : q.All P) (e : Event α) : (q.take e).All P :=
  fun e' he' => h e' (List.mem_filter.mp he').1

/-! ## The pending events of a kind -/

section Pending

variable (p : α → Bool)

def pending (q : Queue α) : List (Event α) := q.events.filter fun e => p e.action

variable {p}

theorem mem_pending {q : Queue α} {e : Event α} :
    e ∈ q.pending p ↔ e ∈ q.events ∧ p e.action = true := List.mem_filter

theorem mem_pending_of_take {q : Queue α} {e e' : Event α} (h : e' ∈ (q.take e).pending p) :
    e' ∈ q.pending p := by
  rcases mem_pending.mp h with ⟨hmem, hp⟩
  exact mem_pending.mpr ⟨(List.mem_filter.mp hmem).1, hp⟩

theorem pending_schedule (q : Queue α) (delay : ℕ) (a : α) :
    (q.schedule delay a).pending p =
      q.pending p ++ if p a then [⟨q.nextId, q.now + delay, a⟩] else [] := by
  by_cases ha : p a <;> simp [pending, schedule, ha]

theorem pending_cancel (q : Queue α) (id : Option ℕ) :
    (q.cancel id).pending p = (q.pending p).filter fun e => some e.id ≠ id := by
  simp only [pending, cancel, List.filter_filter, Bool.and_comm]

/-- Cancelling an event leaves the events of another kind alone. -/
theorem pending_cancel_of_ne {q : Queue α} {id : Option ℕ}
    (h : ∀ e ∈ q.events, some e.id = id → p e.action = false) :
    (q.cancel id).pending p = q.pending p := by
  rw [pending_cancel]
  refine List.filter_eq_self.mpr ?_
  intro e he
  obtain ⟨he, hp⟩ := mem_pending.mp he
  by_contra hid
  have hno := h e he (by simpa using hid)
  rw [hp] at hno
  cases hno

theorem pending_take_of_ne {q : Queue α} (hq : q.Sound) {e : Event α} (he : e ∈ q.events)
    (hp : p e.action = false) : (q.take e).pending p = q.pending p := by
  have hcancel : (q.take e).pending p = (q.cancel (some e.id)).pending p := by
    simp [pending, take, cancel]
  rw [hcancel]
  refine pending_cancel_of_ne ?_
  intro e' he' hid
  rw [hq.eq_of_id he' he (Option.some.inj hid)]
  exact hp

theorem pending_take_perm {q : Queue α} (hq : q.Sound) {e : Event α} (he : e ∈ q.events)
    (hp : p e.action = true) : (q.pending p).Perm (e :: (q.take e).pending p) := by
  have hnd : (q.pending p).Nodup := (List.Nodup.of_map _ hq.ids).filter _
  have hnd' : (e :: (q.take e).pending p).Nodup := by
    refine List.nodup_cons.mpr ⟨?_, ?_⟩
    · simp [pending, take]
    · exact ((List.Nodup.of_map _ hq.ids).filter _).filter _
  refine (List.perm_ext_iff_of_nodup hnd hnd').mpr ?_
  intro e'
  rw [List.mem_cons, mem_pending, mem_pending]
  constructor
  · rintro ⟨he', hp'⟩
    by_cases hid : e'.id = e.id
    · exact Or.inl (hq.eq_of_id he' he hid)
    · exact Or.inr ⟨List.mem_filter.mpr ⟨he', by simpa using hid⟩, hp'⟩
  · rintro (rfl | ⟨he', hp'⟩)
    · exact ⟨he, hp⟩
    · exact ⟨(List.mem_filter.mp he').1, hp'⟩

/-- The only event of a kind is taken. -/
theorem pending_take_single {q : Queue α} {e : Event α} (h : q.pending p = [e]) :
    (q.take e).pending p = [] := by
  have hfilter : (q.take e).pending p = (q.pending p).filter fun e' => e'.id ≠ e.id := by
    simp only [pending, take, List.filter_filter, Bool.and_comm]
  rw [hfilter, h]
  simp

end Pending

end Queue

end EventQueue
