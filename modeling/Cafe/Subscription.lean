import Cafe.Consumer
import Cafe.Forwarder

/-!
# Alerts that reach their consumer

The record of the consumer in the PIT goes with the first alert, and comes
back when the application has handled it. What the forwarder processes in
between, or after the record has expired, is lost to the application.
-/

open Labelled EventQueue

namespace Cafe

variable {σ D : Type}

/-- The class whose methods other consumers override. -/
def alertConsumer (D : Type) (face : FaceId) (lifeTime : ℕ) : AlertConsumer Unit D where
  face := face
  lifeTime := lifeTime
  doReceive _ _ state := state
  handleTimeout _ state := (true, state)

namespace Pit.Entry

theorem mem_satisfyInterest {entry : Entry} {now : ℕ} {face : FaceId} :
    face ∈ entry.satisfyInterest now ↔
      ∃ r, entry.inRecords.lookup face = some r ∧ now < r.expiry := by
  unfold satisfyInterest
  rw [List.mem_map]
  constructor
  · rintro ⟨⟨f, r⟩, hmem, rfl⟩
    obtain ⟨hmem, hlt⟩ := List.mem_filter.mp hmem
    exact ⟨r, AList.mem_lookup_iff.mpr hmem, by simpa using hlt⟩
  · rintro ⟨r, hlook, hlt⟩
    exact ⟨⟨face, r⟩, List.mem_filter.mpr ⟨AList.mem_lookup_iff.mp hlook, by simpa using hlt⟩, rfl⟩

theorem lookup_foldl_deleteInRecord (faces : List FaceId) (entry : Entry) (face : FaceId)
    {r : InRecord} (h : (faces.foldl deleteInRecord entry).inRecords.lookup face = some r) :
    entry.inRecords.lookup face = some r ∧ face ∉ faces := by
  induction faces generalizing entry with
  | nil => exact ⟨h, by simp⟩
  | cons f faces ih =>
      obtain ⟨hlook, hnot⟩ := ih (entry.deleteInRecord f) h
      have hne : face ≠ f := by
        rintro rfl
        simp [deleteInRecord, AList.lookup_erase] at hlook
      rw [deleteInRecord, AList.lookup_erase_ne hne] at hlook
      exact ⟨hlook, by simp [hne, hnot]⟩

end Pit.Entry

namespace Occurrence

/-- Others than the consumer send alerts and express the Interest. -/
def Foreign (face : FaceId) : Occurrence D → Prop
  | .arrive _ ingress => ingress ≠ face
  | .express face' _ => face' ≠ face
  | _ => True

/-- What comes from outside of the forwarder and the consumer, the calls of the scheduler that all
nodes share included. -/
def FromOutside (face : FaceId) : Occurrence D → Prop
  | .arrive _ ingress => ingress ≠ face
  | .express face' _ => face' ≠ face
  | .onInterestFinalize => True
  | _ => False

theorem FromOutside.foreign {face : FaceId} {occ : Occurrence D} (h : occ.FromOutside face) :
    occ.Foreign face := by
  cases occ with
  | arrive _ _ => exact h
  | express _ _ => exact h
  | onInterestFinalize => trivial
  | _ => exact h.elim

def data? : Occurrence D → Option D
  | .onData data => some data
  | _ => none

def isData (occ : Occurrence D) : Bool := occ.data?.isSome

end Occurrence

namespace Station

/-- The alerts that wait to be handed to the application. -/
def waiting (st : Station σ D) : List D :=
  (st.queue.pending Occurrence.isData).filterMap fun e => e.action.data?

/-! ## What a run tells -/

/-- The alerts that reach the forwarder. -/
def arrived (ls : List (Label D)) : List D :=
  ls.filterMap fun l => match l.2 with
    | .run (.arrive data _) _ => some data
    | _ => none

/-- The alerts that are handed to `OnData`. -/
def handed (ls : List (Label D)) : List D :=
  ls.filterMap fun l => match l.2 with
    | .run (.onData data) _ => some data
    | _ => none

/-- The nonces of the Interests. -/
def nonces (ls : List (Label D)) : List ℕ :=
  ls.filterMap fun l => match l.2 with
    | .start nonce => some nonce
    | .run (.express _ _) nonce => some nonce
    | .run (.onData _) nonce => some nonce
    | .run .onTimeout nonce => some nonce
    | _ => none

/-- How long a record lives. -/
def held (lifeTime : ℕ) : ℕ := min (lifeTime / millisecond) Pit.maxLifetime * millisecond

def openStep (since : Option ℕ) : Label D → Option ℕ
  | (t, .start _) => some t
  | (t, .run (.onData _) _) => some t
  | (t, .run .onTimeout _) => some t
  | (_, .run (.arrive _ _) _) => none
  | (_, .run .onInterestFinalize _) => none
  | _ => since

/-- When the application last expressed its Interest, if the forwarder has
processed no alert since then and not finalised the entry. -/
def openSince (ls : List (Label D)) : Option ℕ := ls.foldl openStep none

/-- At time `t` the application is subscribed. -/
def Subscribed (lifeTime : ℕ) (ls : List (Label D)) (t : ℕ) : Prop :=
  ∃ since, openSince ls = some since ∧ t < since + held lifeTime

instance (lifeTime : ℕ) (ls : List (Label D)) (t : ℕ) : Decidable (Subscribed lifeTime ls t) :=
  match h : openSince ls with
  | none => isFalse (by simp [Subscribed, h])
  | some since => decidable_of_iff (t < since + held lifeTime) (by simp [Subscribed, h])

@[simp] theorem openSince_snoc (ls : List (Label D)) (l : Label D) :
    openSince (ls ++ [l]) = openStep (openSince ls) l := List.foldl_concat ..

@[simp] theorem arrived_append (ls ms : List (Label D)) :
    arrived (ls ++ ms) = arrived ls ++ arrived ms := List.filterMap_append

@[simp] theorem handed_append (ls ms : List (Label D)) :
    handed (ls ++ ms) = handed ls ++ handed ms := List.filterMap_append

@[simp] theorem nonces_append (ls ms : List (Label D)) :
    nonces (ls ++ ms) = nonces ls ++ nonces ms := List.filterMap_append

theorem mem_nonces_snoc {used : List ℕ} {ls : List (Label D)} {l : Label D} {n : ℕ} :
    n ∈ used ++ nonces (ls ++ [l]) ↔ n ∈ used ++ nonces ls ∨ n ∈ nonces [l] := by
  rw [nonces_append, ← List.append_assoc, List.mem_append]

/-- The nonce of a step is none of those before. -/
theorem ne_of_nodup_nonces {used : List ℕ} {ls : List (Label D)} {l : Label D} {n nonce : ℕ}
    (hnodup : (used ++ nonces (ls ++ [l])).Nodup) (hl : nonces [l] = [nonce])
    (hmem : n ∈ used ++ nonces ls) : n ≠ nonce := by
  rw [nonces_append, hl, ← List.append_assoc, List.nodup_append] at hnodup
  exact hnodup.2.2 _ hmem _ (List.mem_singleton.mpr rfl)

/-- An application that goes on expresses its Interest at every timeout. -/
theorem react_onTimeout {app : AlertConsumer σ D}
    (hagain : ∀ now state, (app.handleTimeout now state).1 = true) (st : Station σ D)
    (nonce : ℕ) : st.react app nonce .onTimeout = Station.registerInterest app
      { st with state := (app.handleTimeout st.queue.now st.state).2 } nonce :=
  if_pos (hagain st.queue.now st.state)

/-! ## The record of a face -/

/-- The record that the forwarder keeps for a face. -/
def record (st : Station σ D) (face : FaceId) : Option Pit.InRecord :=
  st.pitEntry.bind fun entry => entry.inRecords.lookup face

/-- A new nonce renews the record of its face, and no other. -/
theorem record_onIncomingInterest {st : Station σ D} {face : FaceId} {nonce lifetime : ℕ}
    (hnew : ∀ face' r, st.record face' = some r → r.lastNonce ≠ nonce) (face' : FaceId) :
    (st.onIncomingInterest face nonce lifetime).record face' =
      if face' = face then
        some ⟨nonce, st.queue.now + min lifetime Pit.maxLifetime * millisecond⟩
      else st.record face' := by
  have hold : ∀ f r, (st.pitEntry.getD .empty).inRecords.lookup f = some r →
      st.record f = some r := by
    intro f r hlook
    unfold record
    cases hpit : st.pitEntry with
    | none => simp [hpit, Pit.Entry.empty] at hlook
    | some entry => simpa [hpit] using hlook
  have hno : ¬ (st.pitEntry.getD .empty).HasDuplicateNonce face nonce := by
    rintro ⟨⟨⟨f, r⟩, hmem, _, hnonce⟩, _⟩
    exact hnew f r (hold f r (AList.mem_lookup_iff.mpr hmem)) hnonce
  simp only [onIncomingInterest, if_neg hno, setExpiryTimer, record, Option.bind_some,
    Pit.Entry.insertOrUpdateInRecord]
  split
  · rename_i heq
    rw [heq, AList.lookup_insert]
  · rename_i hne
    rw [AList.lookup_insert_ne hne]
    cases hpit : st.pitEntry with
    | none => simp [Pit.Entry.empty]
    | some entry => simp

theorem record_registerInterest (app : AlertConsumer σ D) {st : Station σ D} {nonce : ℕ}
    (hnew : ∀ face' r, st.record face' = some r → r.lastNonce ≠ nonce) (face' : FaceId) :
    (st.registerInterest app nonce).record face' =
      if face' = app.face then some ⟨nonce, st.queue.now + held app.lifeTime⟩
      else st.record face' := record_onIncomingInterest hnew face'

/-- What an alert leaves of the records. -/
theorem record_onIncomingData {st : Station σ D} {face : FaceId} {data : D} {ingress face' : FaceId}
    {r : Pit.InRecord} (h : (st.onIncomingData face data ingress).record face' = some r) :
    st.record face' = some r ∧ r.expiry ≤ st.queue.now := by
  unfold onIncomingData at h
  cases hpit : st.pitEntry with
  | none =>
      simp only [hpit] at h
      simp [record, hpit] at h
  | some entry =>
      have hrecord : (((st.setExpiryTimer { entry with isSatisfied := true } 0).deleteInRecords
          (entry.satisfyInterest st.queue.now)).record face') = some r := by
        simp only [hpit] at h
        split at h
        · exact h
        · exact h
      obtain ⟨hlook, hnot⟩ := Pit.Entry.lookup_foldl_deleteInRecord _ _ _ hrecord
      have hold : entry.inRecords.lookup face' = some r := hlook
      refine ⟨by simpa [record, hpit] using hold, ?_⟩
      by_contra hlt
      exact hnot (Pit.Entry.mem_satisfyInterest.mpr ⟨r, hold, by omega⟩)

/-- An alert goes to the application if its record has not expired. -/
theorem waiting_of_record {st : Station σ D} {face : FaceId} (data : D)
    {ingress : FaceId} (hne : ingress ≠ face) {r : Pit.InRecord}
    (hrecord : st.record face = some r) (hlt : st.queue.now < r.expiry) :
    (st.onIncomingData face data ingress).waiting = st.waiting ++ [data] := by
  unfold Station.onIncomingData
  cases hpit : st.pitEntry with
  | none => simp [record, hpit] at hrecord
  | some entry =>
      have hlook : entry.inRecords.lookup face = some r := by simpa [record, hpit] using hrecord
      have hmem : face ∈ entry.satisfyInterest st.queue.now :=
        Pit.Entry.mem_satisfyInterest.mpr ⟨r, hlook, hlt⟩
      simp only [if_pos (show face ∈ entry.satisfyInterest st.queue.now ∧ face ≠ ingress from
        ⟨hmem, hne.symm⟩)]
      simp only [waiting, doSendData, deleteInRecords, setExpiryTimer, Queue.pending_schedule]
      simp [Occurrence.isData, Occurrence.data?]

theorem waiting_of_no_record {st : Station σ D} {face : FaceId} (data : D)
    {ingress : FaceId} (hno : ∀ r, st.record face = some r → r.expiry ≤ st.queue.now) :
    (st.onIncomingData face data ingress).waiting = st.waiting := by
  unfold Station.onIncomingData
  cases hpit : st.pitEntry with
  | none => rfl
  | some entry =>
      have hnot : ¬ (face ∈ entry.satisfyInterest st.queue.now ∧ face ≠ ingress) := by
        rintro ⟨hmem, _⟩
        obtain ⟨r, hlook, hlt⟩ := Pit.Entry.mem_satisfyInterest.mp hmem
        have hle := hno r (by simpa [record, hpit] using hlook)
        omega
      simp only [if_neg hnot]
      rfl

theorem waiting_onIncomingInterest (st : Station σ D) (face : FaceId) (nonce lifetime : ℕ) :
    (st.onIncomingInterest face nonce lifetime).waiting = st.waiting := by
  unfold waiting
  rw [onIncomingInterest_queue]

theorem Tidy.waiting_registerInterest {app : AlertConsumer σ D} {st : Station σ D} (h : st.Tidy)
    (nonce : ℕ) : (st.registerInterest app nonce).waiting = st.waiting := by
  unfold waiting
  rw [h.pending_registerInterest rfl]

/-! ## Who sends alerts -/

section All

variable {P : Occurrence D → Prop}

theorem all_registerInterest (htimeout : P .onTimeout) (app : AlertConsumer σ D)
    {st : Station σ D} (h : st.queue.All P) (nonce : ℕ) :
    (st.registerInterest app nonce).queue.All P := by
  have h' : (st.onIncomingInterest app.face nonce (app.lifeTime / millisecond)).queue.All P := by
    rw [onIncomingInterest_queue]
    exact h
  exact (h'.cancel _).schedule _ htimeout

theorem all_onIncomingData (hdata : ∀ data, P (.onData data)) {st : Station σ D}
    (h : st.queue.All P) (face : FaceId) (data : D) (ingress : FaceId) :
    (st.onIncomingData face data ingress).queue.All P := by
  rcases onIncomingData_queue face st data ingress with hqueue | hqueue
  · rw [hqueue]
    exact h
  · rw [hqueue]
    exact h.schedule _ (hdata data)

end All

/-- All of this holds of the node in the course of a run. -/
structure Tracks (app : AlertConsumer σ D) (used : List ℕ) (ls : List (Label D))
    (st : Station σ D) : Prop where
  tidy : st.Tidy
  foreign : st.queue.All (Occurrence.Foreign app.face)
  seen : ∀ face r, st.record face = some r → r.lastNonce ∈ used ++ nonces ls
  current : ∀ since, openSince ls = some since →
    ∃ r, st.record app.face = some r ∧ r.expiry = since + held app.lifeTime
  lapsed : openSince ls = none → ∀ r, st.record app.face = some r → r.expiry ≤ st.queue.now

section Run

variable {app : AlertConsumer σ D} {used : List ℕ}

/-- The application expresses its Interest. -/
theorem Tracks.register (st : Station σ D) {ls : List (Label D)} {l : Label D} {nonce : ℕ}
    (htidy : st.Tidy) (hforeign : st.queue.All (Occurrence.Foreign app.face))
    (hnonces : ∀ face r, st.record face = some r → r.lastNonce ∈ used ++ nonces ls)
    (hnodup : (used ++ nonces (ls ++ [l])).Nodup) (hl : nonces [l] = [nonce])
    (hopen : openStep (openSince ls) l = some st.queue.now) :
    Tracks app used (ls ++ [l]) (st.registerInterest app nonce) := by
  have hnew : ∀ face' r, st.record face' = some r → r.lastNonce ≠ nonce := by
    intro face' r hr
    exact ne_of_nodup_nonces hnodup hl (hnonces face' r hr)
  have hrecord := record_registerInterest app hnew
  refine ⟨htidy.registerInterest nonce, all_registerInterest trivial app hforeign nonce,
    ?_, ?_, ?_⟩
  · intro face r hr
    rw [hrecord] at hr
    rw [mem_nonces_snoc, hl]
    split at hr
    · obtain rfl := Option.some.inj hr
      exact Or.inr (List.mem_singleton.mpr rfl)
    · exact Or.inl (hnonces face r hr)
  · intro since hsince
    rw [openSince_snoc, hopen] at hsince
    obtain rfl := Option.some.inj hsince
    exact ⟨_, (hrecord app.face).trans (if_pos rfl), rfl⟩
  · intro hnone
    rw [openSince_snoc, hopen] at hnone
    cases hnone

/-- A step that does not touch the records. -/
theorem Tracks.keep {ls : List (Label D)} {st st' : Station σ D} (h : Tracks app used ls st)
    {l : Label D} (htidy : st'.Tidy) (hforeign : st'.queue.All (Occurrence.Foreign app.face))
    (hrecord : st'.record = st.record) (hnow : st.queue.now ≤ st'.queue.now)
    (hl : openStep (openSince ls) l = openSince ls) : Tracks app used (ls ++ [l]) st' := by
  refine ⟨htidy, hforeign, ?_, ?_, ?_⟩
  · intro face r hr
    rw [hrecord] at hr
    exact mem_nonces_snoc.mpr (Or.inl (h.seen face r hr))
  · rw [openSince_snoc, hl, hrecord]
    exact h.current
  · rw [openSince_snoc, hl, hrecord]
    exact fun hnone r hr => (h.lapsed hnone r hr).trans hnow

theorem Tracks.step {external : Occurrence D → Prop}
    (hext : ∀ occ, external occ → occ.FromOutside app.face)
    (hagain : ∀ now state, (app.handleTimeout now state).1 = true) {ls : List (Label D)}
    {st st' : Station σ D} {l : Label D} (h : Tracks app used ls st)
    (hstep : Step app external Queue.IsDue st l st')
    (hnodup : (used ++ nonces (ls ++ [l])).Nodup) : Tracks app used (ls ++ [l]) st' := by
  have htidy' := h.tidy.step hstep
  cases hstep with
  | start _ => exact Tracks.register st h.tidy h.foreign h.seen hnodup rfl rfl
  | announce hocc =>
      exact h.keep htidy' (h.foreign.schedule _ (hext _ hocc).foreign) rfl le_rfl rfl
  | @run e nonce hdue =>
      have hnow : st.queue.now ≤ e.due := h.tidy.sound.now_le hdue
      have htake := h.tidy.take hdue
      have hforeign := h.foreign.take e
      have hforeign' := h.foreign e hdue.1
      rcases e with ⟨eid, due, occ⟩
      cases occ with
      | arrive data ingress =>
          have hsub : ∀ face r, ((({ st with
              queue := st.queue.take ⟨eid, due, .arrive data ingress⟩ } :
              Station σ D).react app nonce (.arrive data ingress)).record face) = some r →
              st.record face = some r ∧ r.expiry ≤ due := fun face r hr => record_onIncomingData hr
          refine ⟨htidy', all_onIncomingData (fun _ => trivial) hforeign _ _ _, ?_, ?_, ?_⟩
          · intro face r hr
            exact mem_nonces_snoc.mpr (Or.inl (h.seen face r (hsub face r hr).1))
          · intro since hsince
            rw [openSince_snoc] at hsince
            cases hsince
          · intro _ r hr
            rw [react, onIncomingData_now]
            exact (hsub _ r hr).2
      | express face lifetime =>
          have hne : app.face ≠ face := Ne.symm hforeign'
          have hnew : ∀ face' r, st.record face' = some r → r.lastNonce ≠ nonce := by
            intro face' r hr
            exact ne_of_nodup_nonces hnodup rfl (h.seen face' r hr)
          let taken : Station σ D :=
            { st with queue := st.queue.take ⟨eid, due, .express face lifetime⟩ }
          have hrecord : ∀ face', (taken.react app nonce (.express face lifetime)).record face' =
              if face' = face then
                some ⟨nonce, due + min lifetime Pit.maxLifetime * millisecond⟩
              else st.record face' := record_onIncomingInterest (show ∀ face' r,
                taken.record face' = some r → r.lastNonce ≠ nonce from hnew)
          refine ⟨htidy', by rwa [react, onIncomingInterest_queue], ?_, ?_, ?_⟩
          · intro face' r hr
            rw [hrecord] at hr
            rw [mem_nonces_snoc]
            split at hr
            · obtain rfl := Option.some.inj hr
              exact Or.inr (List.mem_singleton.mpr rfl)
            · exact Or.inl (h.seen face' r hr)
          · rw [openSince_snoc, hrecord, if_neg hne]
            exact h.current
          · rw [openSince_snoc, hrecord, if_neg hne, react, onIncomingInterest_queue]
            exact fun hnone r hr => (h.lapsed hnone r hr).trans hnow
      | onInterestFinalize =>
          refine ⟨htidy', hforeign, ?_, ?_, ?_⟩
          · intro face r hr
            cases hr
          · intro since hsince
            rw [openSince_snoc] at hsince
            cases hsince
          · intro _ r hr
            cases hr
      | onData data =>
          exact Tracks.register { st with
            queue := st.queue.take ⟨eid, due, .onData data⟩
            state := app.doReceive due data st.state }
            (htake.setState _) hforeign h.seen hnodup rfl rfl
      | onTimeout =>
          rw [react_onTimeout hagain]
          exact Tracks.register { st with
            queue := st.queue.take ⟨eid, due, .onTimeout⟩
            state := (app.handleTimeout due st.state).2 }
            (htake.setState _) hforeign h.seen hnodup rfl rfl

/-! ## Which alerts are handed over -/

/-- Every alert finds the application subscribed when the forwarder processes
it. -/
def AllSubscribed (lifeTime : ℕ) (ls : List (Label D)) : Prop :=
  ∀ pre t data ingress nonce post, ls = pre ++ (t, .run (.arrive data ingress) nonce) :: post →
    Subscribed lifeTime pre t

theorem allSubscribed_snoc {lifeTime : ℕ} {ls : List (Label D)} {l : Label D} :
    AllSubscribed lifeTime (ls ++ [l]) ↔ AllSubscribed lifeTime ls ∧
      ∀ data ingress nonce, l.2 = .run (.arrive data ingress) nonce →
        Subscribed lifeTime ls l.1 := by
  constructor
  · intro h
    refine ⟨?_, ?_⟩
    · rintro pre t data ingress nonce post rfl
      exact h pre t data ingress nonce (post ++ [l]) (by simp)
    · rintro data ingress nonce hl
      exact h ls l.1 data ingress nonce [] (by rw [← hl])
  · rintro ⟨h, hlast⟩ pre t data ingress nonce post heq
    rcases List.eq_nil_or_concat post with rfl | ⟨post, m, rfl⟩
    · obtain ⟨rfl, hl⟩ := List.append_inj' heq rfl
      obtain rfl := List.singleton_inj.mp hl
      exact hlast data ingress nonce rfl
    · have heq' : ls ++ [l] = (pre ++ (t, .run (.arrive data ingress) nonce) :: post) ++ [m] := by
        simpa using heq
      obtain ⟨rfl, _⟩ := List.append_inj' heq' rfl
      exact h pre t data ingress nonce post rfl

/-- The alerts handed over or waiting are some of those that have arrived,
and all of these iff all of these found the application subscribed. -/
def Accounts (lifeTime : ℕ) (ls : List (Label D)) (st : Station σ D) : Prop :=
  ∃ accepted : List D, accepted.Sublist (arrived ls) ∧
    (handed ls ++ st.waiting).Perm accepted ∧
    (accepted.length = (arrived ls).length ↔ AllSubscribed lifeTime ls)

/-- A step that brings no alert in and hands none over. -/
theorem Accounts.keep {lifeTime : ℕ} {ls : List (Label D)} {st st' : Station σ D} {l : Label D}
    (h : Accounts lifeTime ls st) (harrived : arrived [l] = [])
    (hhanded : (handed [l] ++ st'.waiting).Perm st.waiting) :
    Accounts lifeTime (ls ++ [l]) st' := by
  obtain ⟨accepted, hsub, hperm, hiff⟩ := h
  have hno : ∀ data ingress nonce, l.2 ≠ .run (.arrive data ingress) nonce := by
    intro data ingress nonce hl
    simp [arrived, hl] at harrived
  refine ⟨accepted, ?_, ?_, ?_⟩
  · rw [arrived_append, harrived, List.append_nil]
    exact hsub
  · rw [handed_append, List.append_assoc]
    exact (hhanded.append_left _).trans hperm
  · rw [arrived_append, harrived, List.append_nil, hiff, allSubscribed_snoc]
    exact ⟨fun hall => ⟨hall, fun data ingress nonce hl => absurd hl (hno data ingress nonce)⟩,
      fun hall => hall.1⟩

theorem Accounts.arrive {lifeTime : ℕ} {ls : List (Label D)} {st st' : Station σ D}
    (h : Accounts lifeTime ls st) {t : ℕ} {data : D} {ingress : FaceId} {nonce : ℕ}
    (hyes : Subscribed lifeTime ls t → st'.waiting = st.waiting ++ [data])
    (hno : ¬ Subscribed lifeTime ls t → st'.waiting = st.waiting) :
    Accounts lifeTime (ls ++ [(t, .run (.arrive data ingress) nonce)]) st' := by
  obtain ⟨accepted, hsub, hperm, hiff⟩ := h
  have harrived : arrived [((t, .run (.arrive data ingress) nonce) : Label D)] = [data] := rfl
  have hhanded : handed [((t, .run (.arrive data ingress) nonce) : Label D)] = [] := rfl
  have hall : AllSubscribed lifeTime (ls ++ [(t, .run (.arrive data ingress) nonce)]) ↔
      AllSubscribed lifeTime ls ∧ Subscribed lifeTime ls t := by
    rw [allSubscribed_snoc]
    constructor
    · exact fun h => ⟨h.1, h.2 data ingress nonce rfl⟩
    · exact fun h => ⟨h.1, fun _ _ _ _ => h.2⟩
  unfold Accounts
  rw [arrived_append, handed_append, harrived, hhanded, List.append_nil]
  by_cases hs : Subscribed lifeTime ls t
  · refine ⟨accepted ++ [data], hsub.append_right _, ?_, ?_⟩
    · rw [hyes hs, ← List.append_assoc]
      exact hperm.append_right _
    · simp [hall, hs, hiff]
  · refine ⟨accepted, hsub.trans (List.sublist_append_left _ _), ?_, ?_⟩
    · rw [hno hs]
      exact hperm
    · have hle := hsub.length_le
      simp only [hall, hs, and_false, iff_false, List.length_append, List.length_singleton]
      omega

theorem Accounts.step {external : Occurrence D → Prop}
    (hext : ∀ occ, external occ → occ.FromOutside app.face)
    (hagain : ∀ now state, (app.handleTimeout now state).1 = true) {ls : List (Label D)}
    {st st' : Station σ D} {l : Label D} (h : Accounts app.lifeTime ls st)
    (ht : Tracks app used ls st) (hstep : Step app external Queue.IsDue st l st') :
    Accounts app.lifeTime (ls ++ [l]) st' := by
  cases hstep with
  | @start nonce _ =>
      exact h.keep rfl (List.Perm.of_eq (ht.tidy.waiting_registerInterest nonce))
  | @announce delay occ hocc =>
      have hkind : occ.isData = false := by
        have hout := hext occ hocc
        cases occ with
        | onData _ => exact hout.elim
        | _ => rfl
      refine h.keep rfl (List.Perm.of_eq ?_)
      simp only [waiting, Queue.pending_schedule, hkind]
      simp [handed]
  | @run e nonce hdue =>
      have hsound := ht.tidy.sound
      have htake := ht.tidy.take hdue
      have hforeign := ht.foreign e hdue.1
      have hnow := hsound.now_le hdue
      have hwaiting : e.action.isData = false →
          ({ st with queue := st.queue.take e } : Station σ D).waiting = st.waiting := by
        intro hkind
        unfold waiting
        rw [Queue.pending_take_of_ne hsound hdue.1 hkind]
      rcases e with ⟨eid, due, occ⟩
      cases occ with
      | arrive data ingress =>
          have hwaiting := hwaiting rfl
          refine h.arrive ?_ ?_
          · rintro ⟨since, hsince, hlt⟩
            obtain ⟨r, hr, hexpiry⟩ := ht.current since hsince
            rw [← hwaiting]
            exact waiting_of_record data hforeign hr (hexpiry ▸ hlt)
          · intro hnot
            rw [← hwaiting]
            refine waiting_of_no_record data ?_
            intro r hr
            cases hsince : openSince ls with
            | none => exact (ht.lapsed hsince r hr).trans hnow
            | some since =>
                obtain ⟨r', hr', hexpiry⟩ := ht.current since hsince
                obtain rfl : r' = r := Option.some.inj (hr'.symm.trans hr)
                rw [hexpiry]
                exact not_lt.mp fun hlt => hnot ⟨since, hsince, hlt⟩
      | express face lifetime =>
          refine h.keep rfl (List.Perm.of_eq ?_)
          rw [← hwaiting rfl]
          exact waiting_onIncomingInterest _ face nonce lifetime
      | onInterestFinalize => exact h.keep rfl (List.Perm.of_eq (hwaiting rfl))
      | onData data =>
          refine h.keep rfl ?_
          have hperm := Queue.pending_take_perm (p := Occurrence.isData) hsound hdue.1 rfl
          have hregister : (Station.onData app { st with
              queue := st.queue.take ⟨eid, due, .onData data⟩ } data nonce).waiting =
              ({ st with queue := st.queue.take ⟨eid, due, .onData data⟩ } : Station σ D).waiting :=
            (htake.setState (app.doReceive due data st.state)).waiting_registerInterest nonce
          rw [react, hregister]
          exact (hperm.filterMap fun e => e.action.data?).symm
      | onTimeout =>
          refine h.keep rfl (List.Perm.of_eq ?_)
          rw [react_onTimeout hagain]
          exact ((htake.setState (app.handleTimeout due st.state).2).waiting_registerInterest
            nonce).trans (hwaiting rfl)

/-- An application that has not started; other applications may have
expressed its Interest, with nonces from `used`. -/
structure Ready (app : AlertConsumer σ D) (used : List ℕ) (st : Station σ D) : Prop
    extends Tidy st where
  foreign : st.queue.All (Occurrence.Foreign app.face)
  unlisted : st.record app.face = none
  seen : ∀ face r, st.record face = some r → r.lastNonce ∈ used
  empty : st.waiting = []

theorem Ready.tracks {st : Station σ D} (h : Ready app used st) : Tracks app used [] st := by
  refine ⟨h.toTidy, h.foreign, ?_, nofun, ?_⟩
  · intro face r hr
    exact List.mem_append_left _ (h.seen face r hr)
  · intro _ r hr
    rw [h.unlisted] at hr
    cases hr

theorem Ready.accounts {st : Station σ D} (h : Ready app used st) :
    Accounts app.lifeTime [] st := by
  refine ⟨[], List.Sublist.slnil, ?_, ?_⟩
  · rw [h.empty]
    exact List.Perm.nil
  · refine iff_of_true rfl ?_
    intro pre t data ingress nonce post heq
    simp at heq

theorem Ready.run {external : Occurrence D → Prop}
    (hext : ∀ occ, external occ → occ.FromOutside app.face)
    (hagain : ∀ now state, (app.handleTimeout now state).1 = true) {st₀ st : Station σ D}
    (h : Ready app used st₀) {ls : List (Label D)}
    (hrun : Run (Step app external Queue.IsDue) st₀ ls st) (hnodup : (used ++ nonces ls).Nodup) :
    Tracks app used ls st ∧ Accounts app.lifeTime ls st := by
  refine hrun.invariant (fun ms s => Tracks app used ms s ∧ Accounts app.lifeTime ms s)
    ⟨h.tracks, h.accounts⟩ ?_
  rintro ms s l s' rest rfl _ ⟨ht, ha⟩ hstep
  refine ⟨ht.step hext hagain hstep ?_, ha.step hext hagain ht hstep⟩
  refine hnodup.sublist (List.Sublist.append_left ?_ _)
  rw [List.append_cons ms l rest, nonces_append _ rest]
  exact List.sublist_append_left _ _

theorem Step.mono {external : Occurrence D → Prop}
    {next next' : Queue (Occurrence D) → Event (Occurrence D) → Prop}
    (hnext : ∀ q e, next q e → next' q e) {st st' : Station σ D} {l : Label D}
    (h : Step app external next st l st') : Step app external next' st l st' := by
  cases h with
  | start hstart => exact .start hstart
  | announce hext => exact .announce hext
  | run hdue => exact .run (hnext _ _ hdue)

end Run

end Station

/-- When all alerts handed to the application have been handled: each alert
that has reached the forwarder since the start has been handed over exactly
once iff each of them found the application subscribed. -/
theorem handed_over_iff {app : AlertConsumer σ D} {used : List ℕ} {external : Occurrence D → Prop}
    {next : Queue (Occurrence D) → Event (Occurrence D) → Prop}
    (hext : ∀ occ, external occ → occ.FromOutside app.face)
    (hnext : ∀ q e, next q e → q.IsDue e)
    (hagain : ∀ now state, (app.handleTimeout now state).1 = true) {st₀ st : Station σ D}
    (hready : st₀.Ready app used) {t₀ nonce : ℕ} {ls : List (Station.Label D)}
    (hrun : Run (Station.Step app external next) st₀ ((t₀, .start nonce) :: ls) st)
    (hnodup : (used ++ Station.nonces ((t₀, .start nonce) :: ls)).Nodup)
    (hdone : st.waiting = []) :
    (Station.handed ls).Perm (Station.arrived ls) ↔
      Station.AllSubscribed app.lifeTime ((t₀, .start nonce) :: ls) := by
  have hrun' := hrun.mono fun _ _ _ hstep => hstep.mono hnext
  obtain ⟨accepted, hsub, hperm, hiff⟩ := (hready.run hext hagain hrun' hnodup).2
  rw [hdone, List.append_nil] at hperm
  rw [← hiff]
  constructor
  · intro h
    exact (hperm.symm.trans h).length_eq
  · intro hlen
    rw [hsub.eq_of_length hlen] at hperm
    exact hperm

/-! ## Two alerts

The Interest lives for a minute. The alerts reach the forwarder after ten and after twenty
nanoseconds, or both after ten. -/

namespace Alerted

def app : AlertConsumer Unit ℕ := alertConsumer ℕ 300 60000000000

def external (occ : Occurrence ℕ) : Prop :=
  occ = .onInterestFinalize ∨ ∃ data, occ = .arrive data 7

def idle : Station Unit ℕ := ⟨⟨0, 0, []⟩, none, none, ()⟩

theorem external_fromOutside (occ : Occurrence ℕ) (h : external occ) :
    occ.FromOutside app.face := by
  rcases h with rfl | ⟨data, rfl⟩
  · trivial
  · exact (by decide : (7 : FaceId) ≠ 300)

theorem idle_ready : idle.Ready app [] where
  sound := ⟨List.nodup_nil, nofun, nofun⟩
  timer := .none _ _
  foreign := nofun
  unlisted := rfl
  seen := nofun
  empty := rfl

/-- The entry is finalised before the application has either alert. -/
theorem apart : ∃ st, Run (Station.Step app external Queue.IsFirst) idle
    [(0, .start 1), (0, .announce 10 (.arrive 1 7)), (0, .announce 10 .onInterestFinalize),
      (10, .run (.arrive 1 7) 0), (10, .run .onInterestFinalize 0), (10, .run (.onData 1) 2),
      (10, .announce 10 (.arrive 2 7)), (10, .announce 10 .onInterestFinalize),
      (20, .run (.arrive 2 7) 0), (20, .run .onInterestFinalize 0), (20, .run (.onData 2) 3)] st ∧
    st.waiting = [] := by
  refine ⟨_, ((((((((((Run.nil.snoc (.start rfl)).snoc (.announce (Or.inr ⟨1, rfl⟩))).snoc
    (.announce (Or.inl rfl))).snoc (.run (e := ⟨1, 10, .arrive 1 7⟩) ?_)).snoc
    (.run (e := ⟨2, 10, .onInterestFinalize⟩) ?_)).snoc (.run (e := ⟨3, 10, .onData 1⟩) ?_)).snoc
    (.announce (Or.inr ⟨2, rfl⟩))).snoc (.announce (Or.inl rfl))).snoc
    (.run (e := ⟨5, 20, .arrive 2 7⟩) ?_)).snoc (.run (e := ⟨6, 20, .onInterestFinalize⟩) ?_)).snoc
    (.run (e := ⟨7, 20, .onData 2⟩) ?_), ?_⟩
  all_goals decide

theorem together : ∃ st, Run (Station.Step app external Queue.IsFirst) idle
    [(0, .start 1), (0, .announce 10 (.arrive 1 7)), (0, .announce 10 (.arrive 2 7)),
      (10, .run (.arrive 1 7) 0), (10, .run (.arrive 2 7) 0), (10, .run (.onData 1) 2)] st ∧
    st.waiting = [] := by
  refine ⟨_, (((((Run.nil.snoc (.start rfl)).snoc (.announce (Or.inr ⟨1, rfl⟩))).snoc
    (.announce (Or.inr ⟨2, rfl⟩))).snoc (.run (e := ⟨1, 10, .arrive 1 7⟩) ?_)).snoc
    (.run (e := ⟨2, 10, .arrive 2 7⟩) ?_)).snoc (.run (e := ⟨3, 10, .onData 1⟩) ?_), ?_⟩
  all_goals decide

end Alerted

theorem handed_over_iff_apart : ∃ ls st,
    Run (Station.Step Alerted.app Alerted.external Queue.IsFirst) Alerted.idle
      ((0, .start 1) :: ls) st ∧
    Station.handed ls = [1, 2] ∧
    Station.AllSubscribed Alerted.app.lifeTime ((0, .start 1) :: ls) := by
  obtain ⟨st, hrun, hdone⟩ := Alerted.apart
  have hiff := handed_over_iff Alerted.external_fromOutside (fun _ _ h => h.1) (fun _ _ => rfl)
    Alerted.idle_ready hrun (by decide) hdone
  exact ⟨_, st, hrun, rfl, hiff.mp (by decide)⟩

/-- Two alerts at one instant: the second comes before the application has
handled the first. -/
theorem not_handed_over : ¬ ∀ (app : AlertConsumer Unit ℕ) (external : Occurrence ℕ → Prop),
    0 < app.lifeTime → (∀ now state, (app.handleTimeout now state).1 = true) →
    (∀ occ, external occ → occ.FromOutside app.face) → ∀ st₀ : Station Unit ℕ,
    st₀.Ready app [] → ∀ t₀ nonce ls st,
    Run (Station.Step app external Queue.IsFirst) st₀ ((t₀, .start nonce) :: ls) st →
    (Station.nonces ((t₀, .start nonce) :: ls)).Nodup → st.waiting = [] →
    (Station.handed ls).Perm (Station.arrived ls) := by
  intro h
  obtain ⟨st, hrun, hdone⟩ := Alerted.together
  have hperm := h Alerted.app Alerted.external (by decide) (fun _ _ => rfl)
    Alerted.external_fromOutside Alerted.idle Alerted.idle_ready 0 1 _ st hrun (by decide) hdone
  exact absurd hperm.length_eq (by decide)

end Cafe
