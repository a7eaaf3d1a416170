import Cafe.GreedyPattern
import Cafe.Routing

/-!
# Reading the log of a simulation

Each line is classified by the first of four patterns that it matches. A line
of a producer begins the record of its alert anew, and the lines of consumers
add to the record which nodes have received the alert and after what delay.
-/

open GreedyPattern

namespace Cafe

/-- The tables of the Unicode database. -/
structure Unicode where
  digit : Char → Option ℕ
  space : Char → Bool
  word : Char → Bool

def Unicode.isDigit (u : Unicode) (c : Char) : Bool := (u.digit c).isSome

namespace AlertLog

inductive Group
  | time
  | node
  | name
  | vc
  | level
  | face
  deriving DecidableEq

inductive PyError
  | valueError
  | indexError
  | statisticsError
  deriving DecidableEq

/-! ## The patterns -/

section Patterns

variable (u : Unicode)

/-- The time and the node at which all patterns begin. -/
def stamp : List (Piece Group) :=
  List.flatten [
    text "+", [.group .time [.plus fun c => u.isDigit c || c == '.']], text "s",
    [.item (.plus u.space)], [.group .node [.plus u.isDigit]], [.item (.plus u.space)]]

def nonSpace : Item := .plus fun c => !u.space c

def anything : Item := .star fun c => c != '\n'

def alertName : Piece Group := .group .name (literal "/alert/emergency" ++ [nonSpace u])

def producerRe : List (Piece Group) :=
  List.flatten [
    stamp u, text "ndn.RandomAlertProducer", [.item anything], text "Send alert=",
    [.group .name [nonSpace u]], [.item (.plus u.space)], text "vehCount=",
    [.group .vc [.plus u.isDigit]]]

def consumerRe : List (Piece Group) :=
  List.flatten [
    stamp u, text "ndn.AlertConsumer", [.item anything], text "Received alert:",
    [.item (.plus u.space)], [.group .name [nonSpace u]]]

def dupDropRe : List (Piece Group) :=
  List.flatten [
    stamp u, text "caf.Forwarder:AlertVehicleHandler():", [.item (.plus u.space)],
    text "[DEBUG]", [.item (.plus u.space)], text "in=(", [.item (.plus u.isDigit)], text ",",
    [.item (.plus u.isDigit)], text ")", [.item (.plus u.space)], text "alert=", [alertName u],
    [.item (.plus u.space)], text "decision=drop because duplicate alert"]

def incomingAlertRe : List (Piece Group) :=
  List.flatten [
    stamp u, text "caf.Forwarder:OnIncomingAlert():", [.item (.plus u.space)], text "[",
    [.group .level [.plus u.word]], text "]", [.item (.plus u.space)], text "in=",
    [.group .face [.plus u.isDigit]], [.item (.plus u.space)], text "alert=", [alertName u]]

end Patterns

/-! ## The lines -/

abbrev AlertName := List Char

abbrev Node := List Char

inductive Entry (K : Type)
  | sent (name : AlertName) (time : K) (vehCount : ℕ)
  | received (name : AlertName) (node : Node) (time : K)
  | incomingAlert
  | duplicateDrop
  | other
  deriving DecidableEq

/-- The alert whose record an entry changes. -/
def Entry.name? {K : Type} : Entry K → Option AlertName
  | .sent name _ _ => some name
  | .received name _ _ => some name
  | _ => none

section Classify

variable (u : Unicode)

def value (ds : List Char) : ℕ := ds.foldl (fun n c => 10 * n + (u.digit c).getD 0) 0

def int (ds : List Char) : Option ℕ :=
  if ds ≠ [] ∧ ds.all u.isDigit then some (value u ds) else none

/-- Of the texts that the patterns pass on: digits with at most one point. -/
def float {K : Type} [Field K] (s : List Char) : Option K :=
  let whole := s.takeWhile (· ≠ '.')
  let frac := (s.dropWhile (· ≠ '.')).drop 1
  (int u (whole ++ frac)).map fun n => (n : K) / ((10 ^ frac.length : ℕ) : K)

/-- A name is mentioned where a producer sends the alert or a consumer receives
it. -/
def mentioned (line : List Char) : Option AlertName :=
  match search (producerRe u) line with
  | some m => some (group m .name)
  | none => (search (consumerRe u) line).map fun m => group m .name

def classify {K : Type} [Field K] (line : List Char) : Except PyError (Entry K) :=
  match search (producerRe u) line with
  | some m =>
      match float u (group m .time), int u (group m .vc) with
      | some time, some vehCount => .ok (.sent (group m .name) time vehCount)
      | _, _ => .error .valueError
  | none =>
      match search (consumerRe u) line with
      | some m =>
          match float u (group m .time) with
          | some time => .ok (.received (group m .name) (group m .node) time)
          | none => .error .valueError
      | none =>
          if (search (incomingAlertRe u) line).isSome then .ok .incomingAlert
          else if (search (dupDropRe u) line).isSome then .ok .duplicateDrop
          else .ok .other

end Classify

/-! ## The records -/

structure AlertData (K : Type) where
  startTime : K
  vehCount : ℕ
  receivers : Finset Node
  satisfiedReceivers : Finset Node
  delays : List K

structure Tally (K : Type) where
  alertData : UnorderedMap AlertName (AlertData K)
  duplicateDrops : ℕ
  incomingAlerts : ℕ

section Read

variable {K : Type} [Field K] [LinearOrder K]

def requiredDelayInMs : ℕ := 10

/-- Only the first reception by a node counts. -/
def AlertData.receive (data : AlertData K) (node : Node) (currTime : K) : AlertData K :=
  if node ∈ data.receivers then data
  else
    let delay := currTime - data.startTime
    let delayInMs := delay * (1000 : ℕ)
    { data with
      receivers := insert node data.receivers
      satisfiedReceivers :=
        if delayInMs ≤ requiredDelayInMs then insert node data.satisfiedReceivers
        else data.satisfiedReceivers
      delays := data.delays ++ [delay] }

def Tally.empty : Tally K := ⟨∅, 0, 0⟩

def Tally.read (st : Tally K) : Entry K → Tally K
  | .sent name time vehCount =>
      { st with alertData := AList.insert name ⟨time, vehCount, ∅, ∅, []⟩ st.alertData }
  | .received name node time =>
      match st.alertData.lookup name with
      | none => st
      | some data =>
          { st with alertData := AList.insert name (data.receive node time) st.alertData }
  | .incomingAlert => { st with incomingAlerts := st.incomingAlerts + 1 }
  | .duplicateDrop => { st with duplicateDrops := st.duplicateDrops + 1 }
  | .other => st

def readLog (u : Unicode) (log : List (List Char)) : Except PyError (Tally K) :=
  log.foldlM (fun st line => (classify u line).map st.read) .empty

end Read

/-! ## Lines that raise -/

section Readable

variable {u : Unicode} {K : Type} [Field K]

/-- The match from which a line of a producer or a consumer is read. -/
def matched (u : Unicode) (line : List Char) : Option (List (Group × List Char)) :=
  match search (producerRe u) line with
  | some m => some m
  | none => search (consumerRe u) line

theorem int_isSome {ds : List Char} (h : ds ≠ []) (hd : ∀ c ∈ ds, u.isDigit c = true) :
    int u ds = some (value u ds) := if_pos ⟨h, List.all_eq_true.mpr hd⟩

theorem int_vc {line : List Char} {m : List (Group × List Char)}
    (h : search (producerRe u) line = some m) :
    int u (group m .vc) = some (value u (group m .vc)) := by
  have hvc := group_of_search h (g := .vc) (p := u.isDigit) rfl
  exact int_isSome hvc.1 hvc.2

/-- The time of the line, if it is read, is a number. -/
def Readable (u : Unicode) (K : Type) [Field K] (line : List Char) : Prop :=
  ∀ m, matched u line = some m → (float (K := K) u (group m .time)).isSome

/-- Only the conversion of a time can raise. -/
theorem classify_cases (line : List Char) :
    (Readable u K line ∧ ∃ e : Entry K, classify u line = .ok e ∧ e.name? = mentioned u line) ∨
      (¬ Readable u K line ∧
        (classify u line : Except PyError (Entry K)) = .error .valueError) := by
  unfold classify mentioned Readable matched
  cases hp : search (producerRe u) line with
  | some m =>
      simp only [int_vc hp, Option.some.injEq, forall_eq']
      cases htime : float (K := K) u (group m .time) with
      | some time => exact Or.inl ⟨rfl, _, rfl, rfl⟩
      | none => exact Or.inr ⟨by simp, rfl⟩
  | none =>
      cases hc : search (consumerRe u) line with
      | some m =>
          simp only [Option.some.injEq, forall_eq']
          cases htime : float (K := K) u (group m .time) with
          | some time => exact Or.inl ⟨rfl, _, rfl, rfl⟩
          | none => exact Or.inr ⟨by simp, rfl⟩
      | none =>
          refine Or.inl ⟨nofun, ?_⟩
          simp only
          split_ifs
          · exact ⟨_, rfl, rfl⟩
          · exact ⟨_, rfl, rfl⟩
          · exact ⟨_, rfl, rfl⟩

theorem mentioned_of_classify {line : List Char} {e : Entry K} (h : classify u line = .ok e) :
    mentioned u line = e.name? := by
  rcases classify_cases (K := K) line with ⟨_, e', he', hname⟩ | ⟨_, herror⟩
  · obtain rfl := Except.ok.inj (he'.symm.trans h)
    exact hname.symm
  · rw [herror] at h
    cases h

/-- The entries of the lines that can be read. -/
def entries (u : Unicode) (K : Type) [Field K] (log : List (List Char)) : List (Entry K) :=
  log.filterMap fun line => (classify u line).toOption

theorem entries_cons {line : List Char} {e : Entry K} (he : classify u line = .ok e)
    (log : List (List Char)) : entries u K (line :: log) = e :: entries u K log :=
  List.filterMap_cons_some (by rw [he]; rfl)

theorem entries_of_classify {log : List (List Char)} {es : List (Entry K)}
    (h : List.Forall₂ (fun line e => classify u line = .ok e) log es) : entries u K log = es := by
  induction h with
  | nil => rfl
  | cons he _ ih => rw [entries_cons he, ih]

theorem entries_filter (log : List (List Char)) (name : AlertName)
    (h : ∀ line ∈ log, Readable u K line) :
    (entries u K log).filter (fun e => e.name? = some name) =
      entries u K (log.filter fun line => mentioned u line = some name) := by
  induction log with
  | nil => rfl
  | cons line log ih =>
      obtain ⟨hline, hlog⟩ := List.forall_mem_cons.mp h
      rcases classify_cases (K := K) line with ⟨_, e, he, hname⟩ | ⟨hno, _⟩
      · rw [entries_cons he, List.filter_cons, List.filter_cons, hname]
        by_cases hmention : mentioned u line = some name
        · simp only [hmention, decide_true, if_true]
          rw [entries_cons he, ih hlog]
        · simp only [hmention, decide_false, Bool.false_eq_true, if_false]
          exact ih hlog
      · exact absurd hline hno

end Readable

section ReadLog

variable {u : Unicode} {K : Type} [Field K] [LinearOrder K]

theorem foldlM_read (log : List (List Char)) (st : Tally K) :
    ((∀ line ∈ log, Readable u K line) ∧
      log.foldlM (fun st line => (classify u line).map st.read) st =
        .ok ((entries u K log).foldl Tally.read st)) ∨
    ((¬ ∀ line ∈ log, Readable u K line) ∧
      log.foldlM (fun st line => (classify u line).map st.read) st = .error .valueError) := by
  induction log generalizing st with
  | nil => exact Or.inl ⟨nofun, rfl⟩
  | cons line log ih =>
      rw [List.foldlM_cons, List.forall_mem_cons]
      rcases classify_cases (K := K) line with ⟨hline, e, he, _⟩ | ⟨hline, he⟩
      · rw [he, entries_cons he]
        rcases ih (st.read e) with ⟨hlog, heq⟩ | ⟨hlog, heq⟩
        · exact Or.inl ⟨⟨hline, hlog⟩, heq⟩
        · exact Or.inr ⟨fun h => hlog h.2, heq⟩
      · rw [he]
        exact Or.inr ⟨fun h => hline h.1, rfl⟩

theorem readLog_eq {log : List (List Char)} (h : ∀ line ∈ log, Readable u K line) :
    readLog u log = .ok ((entries u K log).foldl Tally.read .empty) := by
  rcases foldlM_read (K := K) log .empty with ⟨_, heq⟩ | ⟨hno, _⟩
  · exact heq
  · exact absurd h hno

theorem readLog_error {log : List (List Char)} (h : ¬ ∀ line ∈ log, Readable u K line) :
    (readLog u log : Except PyError (Tally K)) = .error .valueError := by
  rcases foldlM_read (K := K) log .empty with ⟨hall, _⟩ | ⟨_, heq⟩
  · exact absurd hall h
  · exact heq

theorem readLog_of_classify {log : List (List Char)} {es : List (Entry K)}
    (h : List.Forall₂ (fun line e => classify u line = .ok e) log es) :
    readLog u log = .ok (es.foldl Tally.read .empty) := by
  unfold readLog
  generalize Tally.empty = st
  induction h generalizing st with
  | nil => rfl
  | cons he _ ih =>
      rw [List.foldlM_cons, he]
      exact ih _

end ReadLog

/-! ## What a log says of one alert -/

/-- The last line of an alert's producer and all receptions after it. -/
structure Sending (K : Type) where
  startTime : K
  vehCount : ℕ
  receptions : List (Node × K)

namespace Sending

variable {K : Type}

def next : Option (Sending K) → Entry K → Option (Sending K)
  | _, .sent _ time vehCount => some ⟨time, vehCount, []⟩
  | o, .received _ node time =>
      o.map fun s => { s with receptions := s.receptions ++ [(node, time)] }
  | o, _ => o

/-- The nodes in the order of their first receptions. -/
def order (s : Sending K) : List Node := (s.receptions.map Prod.fst).eraseDups

theorem mem_order {s : Sending K} {node : Node} :
    node ∈ s.order ↔ ∃ r ∈ s.receptions, r.1 = node := by
  rw [order, List.mem_eraseDups, List.mem_map]

theorem nodup_eraseDups (l : List Node) : l.eraseDups.Nodup := by
  induction hn : l.length using Nat.strong_induction_on generalizing l with
  | _ n ih =>
      cases l with
      | nil => simp
      | cons a l =>
          rw [List.eraseDups_cons, List.nodup_cons]
          refine ⟨?_, ih _ ?_ _ rfl⟩
          · rw [List.mem_eraseDups, List.mem_filter]
            simp
          · rw [← hn]
            exact Nat.lt_succ_of_le (List.length_filter_le _ _)

theorem nodup_order (s : Sending K) : s.order.Nodup := nodup_eraseDups _

theorem order_add (s : Sending K) (node : Node) (time : K) :
    order { s with receptions := s.receptions ++ [(node, time)] } =
      if node ∈ s.order then s.order else s.order ++ [node] := by
  unfold order
  rw [List.map_append, List.eraseDups_append]
  split_ifs with hmem
  · rw [List.mem_eraseDups] at hmem
    simp [List.removeAll, hmem]
  · rw [List.mem_eraseDups] at hmem
    simp [List.removeAll, hmem, List.eraseDups_cons]

variable [Field K]

/-- The delay of the first reception by a node. -/
def delay (s : Sending K) (node : Node) : K := (s.receptions.lookup node).getD 0 - s.startTime

/-- A later reception changes nothing for the nodes that received before. -/
theorem delay_add (s : Sending K) {node node' : Node} (time : K) (h : node' ∈ s.order) :
    delay { s with receptions := s.receptions ++ [(node, time)] } node' = s.delay node' := by
  unfold delay
  obtain ⟨r, hr, hnode⟩ := mem_order.mp h
  have hsome : (s.receptions.lookup node').isSome :=
    List.lookup_isSome_iff.mpr ⟨r, hr, by simp [hnode]⟩
  obtain ⟨t, ht⟩ := Option.isSome_iff_exists.mp hsome
  simp only [List.lookup_append, ht, Option.some_or]

theorem delay_new (s : Sending K) {node : Node} (time : K) (h : node ∉ s.order) :
    delay { s with receptions := s.receptions ++ [(node, time)] } node = time - s.startTime := by
  unfold delay
  have hnone : s.receptions.lookup node = none := by
    rw [List.lookup_eq_none_iff]
    intro r hr
    simp only [bne_iff_ne, ne_eq]
    rintro rfl
    exact h (mem_order.mpr ⟨r, hr, rfl⟩)
  simp [List.lookup_append, hnone]

variable [LinearOrder K]

/-- The record of an alert. -/
def data (s : Sending K) : AlertData K where
  startTime := s.startTime
  vehCount := s.vehCount
  receivers := s.order.toFinset
  satisfiedReceivers :=
    s.order.toFinset.filter fun node => s.delay node * (1000 : ℕ) ≤ requiredDelayInMs
  delays := s.order.map s.delay

theorem data_receive (s : Sending K) (node : Node) (time : K) :
    data { s with receptions := s.receptions ++ [(node, time)] } = s.data.receive node time := by
  by_cases hmem : node ∈ s.order
  · have horder : order { s with receptions := s.receptions ++ [(node, time)] } = s.order := by
      rw [order_add, if_pos hmem]
    have hreceive : s.data.receive node time = s.data := by
      rw [AlertData.receive, if_pos]
      exact List.mem_toFinset.mpr hmem
    rw [hreceive]
    simp only [data, horder, AlertData.mk.injEq, true_and]
    refine ⟨Finset.filter_congr fun node' h => ?_, List.map_congr_left fun node' h => ?_⟩
    · rw [delay_add s time (List.mem_toFinset.mp h)]
    · exact delay_add s time h
  · have horder : order { s with receptions := s.receptions ++ [(node, time)] } =
        s.order ++ [node] := by
      rw [order_add, if_neg hmem]
    have hinsert : (s.order ++ [node]).toFinset = insert node s.order.toFinset := by
      rw [List.toFinset_append, Finset.union_comm]
      rfl
    have hno : node ∉ s.data.receivers := fun h => hmem (List.mem_toFinset.mp h)
    rw [AlertData.receive, if_neg hno]
    simp only [data, horder, hinsert, AlertData.mk.injEq, true_and]
    refine ⟨?_, ?_⟩
    · rw [Finset.filter_insert, delay_new s time hmem]
      have hold : s.order.toFinset.filter (fun node' =>
          delay { s with receptions := s.receptions ++ [(node, time)] } node' * (1000 : ℕ) ≤
            requiredDelayInMs) =
          s.order.toFinset.filter fun node' => s.delay node' * (1000 : ℕ) ≤ requiredDelayInMs := by
        refine Finset.filter_congr fun node' h => ?_
        rw [delay_add s time (List.mem_toFinset.mp h)]
      rw [hold]
      rfl
    · rw [List.map_append, List.map_singleton, delay_new s time hmem]
      exact congrArg (· ++ _) (List.map_congr_left fun node' h => delay_add s time h)

@[simp] theorem data_nil (startTime : K) (vehCount : ℕ) :
    data ⟨startTime, vehCount, []⟩ = ⟨startTime, vehCount, ∅, ∅, []⟩ := by
  simp [data, order]

end Sending

section Tally

variable {K : Type}

def lastSending (es : List (Entry K)) (name : AlertName) : Option (Sending K) :=
  (es.filter fun e => e.name? = some name).foldl Sending.next none

theorem lastSending_append (es : List (Entry K)) (e : Entry K) (name : AlertName) :
    lastSending (es ++ [e]) name =
      if e.name? = some name then Sending.next (lastSending es name) e
      else lastSending es name := by
  unfold lastSending
  rw [List.filter_append]
  split_ifs with hname
  · simp [hname]
  · simp [hname]

variable [Field K] [LinearOrder K]

/-- What an entry does to the record of one alert. -/
theorem lookup_read {st : Tally K} {name : AlertName} {o : Option (Sending K)}
    (h : st.alertData.lookup name = o.map Sending.data) (e : Entry K) :
    (st.read e).alertData.lookup name =
      (if e.name? = some name then Sending.next o e else o).map Sending.data := by
  cases e with
  | sent name' time vehCount =>
      by_cases hname : name' = name
      · subst hname
        simp [Tally.read, Entry.name?, Sending.next, AList.lookup_insert]
      · simp only [Tally.read, Entry.name?, Option.some.injEq, hname, if_false]
        rw [AList.lookup_insert_ne (Ne.symm hname), h]
  | received name' node time =>
      by_cases hname : name' = name
      · subst hname
        cases o with
        | none =>
            have hnone : st.alertData.lookup name' = none := h
            simp only [Tally.read, hnone, Entry.name?, if_true]
            rfl
        | some s =>
            have hsome : st.alertData.lookup name' = some s.data := h
            simp only [Tally.read, hsome, Entry.name?, if_true, Sending.next, Option.map_some]
            rw [AList.lookup_insert, Sending.data_receive]
      · simp only [Tally.read, Entry.name?, Option.some.injEq, hname, if_false]
        split
        · exact h
        · rw [AList.lookup_insert_ne (Ne.symm hname), h]
  | _ => simpa [Tally.read, Entry.name?] using h

/-- The record of an alert is the one of its last sending. -/
theorem lookup_alertData (es : List (Entry K)) (name : AlertName) :
    (es.foldl Tally.read .empty).alertData.lookup name =
      (lastSending es name).map Sending.data := by
  induction es using List.reverseRecOn with
  | nil => rfl
  | append_singleton es e ih =>
      rw [List.foldl_append, lastSending_append]
      exact lookup_read ih e

def Entry.isIncomingAlert : Entry K → Bool
  | .incomingAlert => true
  | _ => false

def Entry.isDuplicateDrop : Entry K → Bool
  | .duplicateDrop => true
  | _ => false

theorem counts_foldl (es : List (Entry K)) :
    (es.foldl Tally.read .empty).incomingAlerts = es.countP Entry.isIncomingAlert ∧
      (es.foldl Tally.read .empty).duplicateDrops = es.countP Entry.isDuplicateDrop := by
  induction es using List.reverseRecOn with
  | nil => exact ⟨rfl, rfl⟩
  | append_singleton es e ih =>
      rw [List.foldl_append, List.countP_append, List.countP_append, ← ih.1, ← ih.2]
      cases e with
      | received name node time =>
          simp only [List.foldl_cons, List.foldl_nil, Tally.read]
          split <;> exact ⟨rfl, rfl⟩
      | _ => exact ⟨rfl, rfl⟩

end Tally

end AlertLog

end Cafe
