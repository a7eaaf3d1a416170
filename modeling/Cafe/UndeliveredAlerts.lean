import Cafe.AlertMetrics

/-!
# Alerts that nobody receives

Lines of producers of new alerts are added to a log, and no consumer receives
these alerts. They count as failures and not in the ratios, but in the mean of
the delays they count as received at once.
-/

namespace Cafe

namespace AlertLog

/-- Elements with a property are put into a list, anywhere. -/
inductive Adds {α : Type} (p : α → Prop) : List α → List α → Prop
  | nil : Adds p [] []
  | keep (a : α) {l l' : List α} : Adds p l l' → Adds p (a :: l) (a :: l')
  | add {a : α} {l l' : List α} (ha : p a) : Adds p l l' → Adds p l (a :: l')

section Adds

variable {α : Type} {p : α → Prop} {l l' : List α}

theorem Adds.filter_eq (h : Adds p l l') {q : α → Bool} (hq : ∀ a, p a → q a = false) :
    l'.filter q = l.filter q := by
  induction h with
  | nil => rfl
  | keep a _ ih => simp only [List.filter_cons, ih]
  | add ha _ ih => rw [List.filter_cons, hq _ ha, ← ih]; rfl

theorem Adds.mem_or (h : Adds p l l') {a : α} (ha : a ∈ l') : a ∈ l ∨ p a := by
  induction h with
  | nil => exact Or.inl ha
  | keep b _ ih =>
      rcases List.mem_cons.mp ha with rfl | ha
      · exact Or.inl List.mem_cons_self
      · exact (ih ha).imp_left (List.mem_cons_of_mem _)
  | add hb _ ih =>
      rcases List.mem_cons.mp ha with rfl | ha
      · exact Or.inr hb
      · exact ih ha

theorem Adds.eq_or (h : Adds p l l') : l' = l ∨ ∃ a ∈ l', p a := by
  induction h with
  | nil => exact Or.inl rfl
  | keep a _ ih =>
      rcases ih with rfl | ⟨b, hb, hp⟩
      · exact Or.inl rfl
      · exact Or.inr ⟨b, List.mem_cons_of_mem _ hb, hp⟩
  | add ha _ _ => exact Or.inr ⟨_, List.mem_cons_self, ha⟩

theorem Adds.filterMap {β : Type} (h : Adds p l l') {q : β → Prop} {f : α → Option β}
    (hf : ∀ a, p a → ∀ b, f a = some b → q b) : Adds q (l.filterMap f) (l'.filterMap f) := by
  induction h with
  | nil => exact .nil
  | keep a _ ih =>
      cases ha : f a with
      | none => simpa [List.filterMap_cons, ha] using ih
      | some b => simpa [List.filterMap_cons, ha] using ih.keep b
  | @add a _ _ hp _ ih =>
      cases ha : f a with
      | none => simpa [List.filterMap_cons, ha] using ih
      | some b => simpa [List.filterMap_cons, ha] using ih.add (hf a hp b ha)

end Adds

section Fresh

variable {K : Type}

/-- A producer sends an alert of which the entries say nothing. -/
def SendsFresh (es : List (Entry K)) (e : Entry K) : Prop :=
  ∃ name time vehCount, e = .sent name time vehCount ∧ ∀ e' ∈ es, e'.name? ≠ some name

def Mentions (es : List (Entry K)) (name : AlertName) : Prop := ∃ e ∈ es, e.name? = some name

theorem lastSending_of_not_mentions {es : List (Entry K)} {name : AlertName}
    (h : ¬ Mentions es name) : lastSending es name = none := by
  have hnil : es.filter (fun e => e.name? = some name) = [] := by
    refine List.filter_eq_nil_iff.mpr fun e he => ?_
    simpa using fun hname => h ⟨e, he, hname⟩
  rw [lastSending, hnil]
  rfl

theorem lastSending_of_mentions {es es' : List (Entry K)} (h : Adds (SendsFresh es) es es')
    {name : AlertName} (hname : Mentions es name) : lastSending es' name = lastSending es name := by
  rw [lastSending, lastSending, h.filter_eq]
  rintro e ⟨name', time, vehCount, rfl, hfresh⟩
  obtain ⟨e', he', hmention⟩ := hname
  refine decide_eq_false ?_
  rintro heq
  obtain rfl := Option.some.inj heq
  exact hfresh e' he' hmention

/-- Nobody receives the alerts that are added. -/
theorem receptions_of_fresh {es es' : List (Entry K)} (h : Adds (SendsFresh es) es es')
    {name : AlertName} (hname : ¬ Mentions es name) {s : Sending K}
    (hs : lastSending es' name = some s) : s.receptions = [] := by
  have hsent : ∀ e ∈ es'.filter fun e => e.name? = some name,
      ∃ name' time vehCount, e = .sent name' time vehCount := by
    intro e he
    obtain ⟨he', hmention⟩ := List.mem_filter.mp he
    rcases h.mem_or he' with hold | ⟨name', time, vehCount, rfl, _⟩
    · exact absurd ⟨e, hold, of_decide_eq_true hmention⟩ hname
    · exact ⟨name', time, vehCount, rfl⟩
  have hall : ∀ (l : List (Entry K)) (o : Option (Sending K)),
      (∀ e ∈ l, ∃ name' time vehCount, e = .sent name' time vehCount) →
      (∀ s, o = some s → s.receptions = []) →
      ∀ s, l.foldl Sending.next o = some s → s.receptions = [] := by
    intro l
    induction l with
    | nil => exact fun o _ ho => ho
    | cons e l ih =>
        intro o hl _
        obtain ⟨⟨name', time, vehCount, rfl⟩, hrest⟩ := List.forall_mem_cons.mp hl
        refine ih _ hrest ?_
        rintro s ⟨⟩
        rfl
  exact hall _ none hsent nofun s hs

end Fresh

section Records

variable {K : Type} [Field K] [LinearOrder K] {es es' : List (Entry K)}

def records (es : List (Entry K)) : Tally K := es.foldl Tally.read .empty

theorem mem_records {e : Σ _ : AlertName, AlertData K} :
    e ∈ (records es).alertData.entries ↔ (lastSending es e.1).map Sending.data = some e.2 := by
  rw [← lookup_alertData, ← records]
  exact AList.mem_lookup_iff.symm

theorem mem_keys_records {name : AlertName} :
    name ∈ (records es).alertData.keys ↔ (lastSending es name).isSome := by
  rw [← AList.mem_keys, ← AList.lookup_isSome, records, lookup_alertData, Option.isSome_map]

theorem mentions_of_mem_keys {name : AlertName} (h : name ∈ (records es).alertData.keys) :
    Mentions es name := by
  by_contra hno
  rw [mem_keys_records, lastSending_of_not_mentions hno] at h
  cases h

/-- The records of the added alerts. -/
def added (es es' : List (Entry K)) : List (Σ _ : AlertName, AlertData K) :=
  (records es').alertData.entries.filter fun e => e.1 ∉ (records es).alertData.keys

theorem records_perm (h : Adds (SendsFresh es) es es') :
    (records es').alertData.entries.Perm
      ((records es).alertData.entries ++ added es es') := by
  have hsplit := List.filter_append_perm
    (fun e : Σ _ : AlertName, AlertData K => decide (e.1 ∈ (records es).alertData.keys))
    (records es').alertData.entries
  have hold : ((records es').alertData.entries.filter
      fun e => decide (e.1 ∈ (records es).alertData.keys)).Perm
      (records es).alertData.entries := by
    refine (List.perm_ext_iff_of_nodup ?_ ?_).mpr fun e => ?_
    · exact ((AList.nodupKeys _).nodup).filter _
    · exact (AList.nodupKeys _).nodup
    · rw [List.mem_filter, mem_records, mem_records, decide_eq_true_iff]
      constructor
      · rintro ⟨he, hkey⟩
        rwa [lastSending_of_mentions h (mentions_of_mem_keys hkey)] at he
      · intro he
        have hkey : e.1 ∈ (records es).alertData.keys := by
          rw [mem_keys_records]
          obtain ⟨s, hs, _⟩ := Option.map_eq_some_iff.mp he
          rw [hs]
          rfl
        refine ⟨?_, hkey⟩
        rwa [lastSending_of_mentions h (mentions_of_mem_keys hkey)]
  refine hsplit.symm.trans (hold.append ?_)
  refine List.Perm.of_eq (List.filter_congr fun e _ => ?_)
  simp

theorem added_empty (h : Adds (SendsFresh es) es es') {e : Σ _ : AlertName, AlertData K}
    (he : e ∈ added es es') : ¬ e.2.IsDelivered ∧ e.2.avgDelay = 0 := by
  obtain ⟨hmem, hkey⟩ := List.mem_filter.mp he
  rw [decide_eq_true_iff, mem_keys_records] at hkey
  obtain ⟨s, hs, hdata⟩ := Option.map_eq_some_iff.mp (mem_records.mp hmem)
  have hno : ¬ Mentions es e.1 := by
    intro hmention
    rw [lastSending_of_mentions h hmention] at hs
    exact hkey (by rw [hs]; rfl)
  have hnil := receptions_of_fresh h hno hs
  obtain ⟨startTime, vehCount, receptions⟩ := s
  obtain rfl : receptions = [] := hnil
  rw [← hdata, Sending.data_nil]
  exact ⟨by simp [AlertData.IsDelivered], by simp [AlertData.avgDelay]⟩

omit [Field K] [LinearOrder K] in
theorem isSome_lastSending {name : AlertName} {time : K} {vehCount : ℕ}
    (h : .sent name time vehCount ∈ es) : (lastSending es name).isSome := by
  induction es using List.reverseRecOn with
  | nil => cases h
  | append_singleton es e ih =>
      rw [lastSending_append]
      rcases List.mem_append.mp h with h | h
      · obtain ⟨s, hs⟩ := Option.isSome_iff_exists.mp (ih h)
        rw [hs]
        split
        · cases e <;> rfl
        · rfl
      · obtain rfl := List.mem_singleton.mp h
        simp [Entry.name?, Sending.next]

theorem added_ne_nil {e : Entry K} (he : e ∈ es') (hfresh : SendsFresh es e) :
    added es es' ≠ [] := by
  obtain ⟨name, time, vehCount, rfl, hnew⟩ := hfresh
  obtain ⟨s, hs⟩ := Option.isSome_iff_exists.mp (isSome_lastSending he)
  have hmem : (⟨name, s.data⟩ : Σ _ : AlertName, AlertData K) ∈ added es es' := by
    refine List.mem_filter.mpr ⟨mem_records.mpr (by rw [hs]; rfl), ?_⟩
    refine decide_eq_true fun hkey => ?_
    obtain ⟨e', he', hmention⟩ := mentions_of_mem_keys hkey
    exact hnew e' he' hmention
  exact List.ne_nil_of_mem hmem

/-! ## The delays in a log -/

def Sending.averageDelay (s : Sending K) : K :=
  (s.order.map s.delay).sum / s.order.length * (1000 : ℕ)

theorem avgDelay_data (s : Sending K) : s.data.avgDelay = s.averageDelay := by
  unfold AlertData.avgDelay Sending.averageDelay
  split_ifs with hnil
  · have horder : s.order = [] := List.map_eq_nil_iff.mp hnil
    simp [horder]
  · simp [Sending.data]

/-- The average delays of all alerts of a log, of its last sendings, together. -/
def totalDelay (es : List (Entry K)) : K :=
  ∑ name ∈ (es.filterMap Entry.name?).toFinset, (lastSending es name).elim 0 Sending.averageDelay

theorem sum_delays (es : List (Entry K)) : (records es).delays.sum = totalDelay es := by
  have hdelays : (records es).delays = (records es).alertData.keys.map fun name =>
      (lastSending es name).elim 0 Sending.averageDelay := by
    unfold Tally.delays AList.keys List.keys
    rw [List.map_map]
    refine List.map_congr_left fun e he => ?_
    obtain ⟨s, hs, hdata⟩ := Option.map_eq_some_iff.mp (mem_records.mp he)
    simp only [Function.comp_apply, hs, Option.elim_some, ← hdata, avgDelay_data]
  rw [hdelays, ← List.sum_toFinset _ (AList.keys_nodup _), totalDelay]
  refine Finset.sum_subset ?_ ?_
  · intro name hname
    obtain ⟨e, he, hmention⟩ := mentions_of_mem_keys (List.mem_toFinset.mp hname)
    exact List.mem_toFinset.mpr (List.mem_filterMap.mpr ⟨e, he, hmention⟩)
  · intro name _ hname
    rw [List.mem_toFinset, mem_keys_records] at hname
    rw [Option.not_isSome_iff_eq_none.mp hname]
    rfl

theorem pdrs_perm (h : Adds (SendsFresh es) es es') :
    (records es').pdrs.Perm (records es).pdrs ∧ (records es').psrs.Perm (records es).psrs := by
  have hadded : (added es es').filter (fun e => e.2.IsDelivered) = [] := by
    refine List.filter_eq_nil_iff.mpr fun e he => ?_
    simpa using (added_empty h he).1
  have hperm := (records_perm h).filter fun e => decide e.2.IsDelivered
  rw [List.filter_append, hadded, List.append_nil] at hperm
  exact ⟨hperm.map _, hperm.map _⟩

theorem delays_sum_length (h : Adds (SendsFresh es) es es') :
    (records es').delays.sum = (records es).delays.sum ∧
      (records es').delays.length = (records es).delays.length + (added es es').length := by
  have hperm : (records es').delays.Perm ((records es).delays ++
      (added es es').map fun e => e.2.avgDelay) := by
    have hmap := (records_perm h).map fun e => e.2.avgDelay
    rwa [List.map_append] at hmap
  refine ⟨?_, ?_⟩
  · have hzero : ((added es es').map fun e => e.2.avgDelay).sum = 0 := by
      refine List.sum_eq_zero fun x hx => ?_
      obtain ⟨e, he, rfl⟩ := List.mem_map.mp hx
      exact (added_empty h he).2
    rw [hperm.sum_eq, List.sum_append, hzero, add_zero]
  · rw [hperm.length_eq, List.length_append, List.length_map]

/-- With more alerts the mean of the delays stays the same only if it is zero. -/
theorem delayMean_eq_iff [IsStrictOrderedRing K] (h : Adds (SendsFresh es) es es')
    (hpos : 0 < (records es).delays.length) :
    (records es').delays.sum / (records es').delays.length =
        (records es).delays.sum / (records es).delays.length ↔
      added es es' = [] ∨ totalDelay es = 0 := by
  obtain ⟨hsum, hlength⟩ := delays_sum_length h
  have hold : ((records es).delays.length : K) ≠ 0 := Nat.cast_ne_zero.mpr hpos.ne'
  have hnew : ((records es').delays.length : K) ≠ 0 := Nat.cast_ne_zero.mpr (by omega)
  rw [div_eq_div_iff hnew hold, hsum, sum_delays, hlength, Nat.cast_add, mul_add, left_eq_add,
    mul_eq_zero, Nat.cast_eq_zero, List.length_eq_zero_iff, or_comm]

theorem counts_added (h : Adds (SendsFresh es) es es') :
    (records es').incomingAlerts = (records es).incomingAlerts ∧
      (records es').duplicateDrops = (records es).duplicateDrops := by
  have hcount : ∀ q : Entry K → Bool, (∀ name time vehCount, q (.sent name time vehCount) = false) →
      es'.countP q = es.countP q := by
    intro q hq
    rw [List.countP_eq_length_filter, List.countP_eq_length_filter, h.filter_eq]
    rintro e ⟨name, time, vehCount, rfl, _⟩
    exact hq name time vehCount
  unfold records
  rw [(counts_foldl es').1, (counts_foldl es).1, (counts_foldl es').2, (counts_foldl es).2]
  exact ⟨hcount _ fun _ _ _ => rfl, hcount _ fun _ _ _ => rfl⟩

end Records

section Lines

variable {u : Unicode} {K : Type} [Field K]

/-- The line of a producer that sends an alert which no line of the log
mentions. -/
def SendsFreshLine (u : Unicode) (log : List (List Char)) (line : List Char) : Prop :=
  ∃ m, GreedyPattern.search (producerRe u) line = some m ∧
    ∀ line' ∈ log, mentioned u line' ≠ some (GreedyPattern.group m .name)

theorem classify_of_search {line : List Char} {m : List (Group × List Char)}
    (hm : GreedyPattern.search (producerRe u) line = some m) {e : Entry K}
    (he : classify u line = .ok e) :
    ∃ time vehCount, e = .sent (GreedyPattern.group m .name) time vehCount := by
  unfold classify at he
  simp only [hm, int_vc hm] at he
  cases htime : float (K := K) u (GreedyPattern.group m .time) with
  | some time =>
      rw [htime] at he
      exact ⟨time, _, (Except.ok.inj he).symm⟩
  | none =>
      rw [htime] at he
      cases he

theorem sendsFresh_of_line {log : List (List Char)} (hlog : ∀ line ∈ log, Readable u K line)
    {line : List Char} (h : SendsFreshLine u log line) {e : Entry K}
    (he : classify u line = .ok e) : SendsFresh (entries u K log) e := by
  obtain ⟨m, hm, hfresh⟩ := h
  obtain ⟨time, vehCount, rfl⟩ := classify_of_search hm he
  refine ⟨_, time, vehCount, rfl, fun e' he' hname => ?_⟩
  obtain ⟨line', hline', hclass⟩ := List.mem_filterMap.mp he'
  rcases classify_cases (K := K) line' with ⟨_, e'', he'', hmention⟩ | ⟨hno, _⟩
  · rw [he''] at hclass
    obtain rfl := Option.some.inj hclass
    exact hfresh line' hline' (hmention ▸ hname)
  · exact absurd (hlog line' hline') hno

theorem search_of_classify {line : List Char} {name : AlertName} {time : K} {vehCount : ℕ}
    (h : classify u line = .ok (.sent name time vehCount)) :
    ∃ m, GreedyPattern.search (producerRe u) line = some m ∧
      GreedyPattern.group m .name = name := by
  cases hp : GreedyPattern.search (producerRe u) line with
  | some m =>
      obtain ⟨time', vehCount', heq⟩ := classify_of_search hp h
      injection heq with hname
      exact ⟨m, rfl, hname.symm⟩
  | none =>
      unfold classify at h
      rw [hp] at h
      simp only at h
      split at h
      · split at h <;> cases h
      · split_ifs at h <;> cases h

theorem sendsFreshLine_of_classify {log : List (List Char)} {es : List (Entry K)}
    (hes : List.Forall₂ (fun line e => classify u line = .ok e) log es) {line : List Char}
    {name : AlertName} {time : K} {vehCount : ℕ}
    (hline : classify u line = .ok (.sent name time vehCount))
    (hfresh : ∀ e ∈ es, e.name? ≠ some name) : SendsFreshLine u log line := by
  obtain ⟨m, hm, rfl⟩ := search_of_classify hline
  refine ⟨m, hm, ?_⟩
  clear hline
  induction hes with
  | nil => exact nofun
  | cons he _ ih =>
      rw [List.forall_mem_cons] at hfresh ⊢
      exact ⟨mentioned_of_classify he ▸ hfresh.1, ih hfresh.2⟩

theorem adds_entries {log log' : List (List Char)} (hlog : ∀ line ∈ log, Readable u K line)
    (h : Adds (SendsFreshLine u log) log log') :
    Adds (SendsFresh (entries u K log)) (entries u K log) (entries u K log') := by
  refine h.filterMap fun line hline e he => ?_
  refine sendsFresh_of_line hlog hline ?_
  cases hclass : (classify u line : Except PyError (Entry K)) with
  | ok e' =>
      rw [hclass] at he
      exact congrArg Except.ok (Option.some.inj he)
  | error x =>
      rw [hclass] at he
      cases he

variable [LinearOrder K] {num : Numerics K} {logFilePath : List Char}

/-- Each added line that can be read adds the record of an alert. -/
theorem eq_of_added_eq_nil {log log' : List (List Char)} (hlog : ∀ line ∈ log, Readable u K line)
    (hlog' : ∀ line ∈ log', Readable u K line) (h : Adds (SendsFreshLine u log) log log')
    (hnil : added (entries u K log) (entries u K log') = []) : log' = log := by
  rcases h.eq_or with heq | ⟨line, hline, hfresh⟩
  · exact heq
  rcases classify_cases (K := K) line with ⟨_, e, he, _⟩ | ⟨hno, _⟩
  · have hmem : e ∈ entries u K log' :=
      List.mem_filterMap.mpr ⟨line, hline, by rw [he]; rfl⟩
    exact absurd hnil (added_ne_nil hmem (sendsFresh_of_line hlog hfresh he))
  · exact absurd (hlog' line hline) hno

theorem readable_of_analyze {log : List (List Char)} {r : Report K}
    (h : analyzeNs3Logs u num logFilePath log = .ok r) : ∀ line ∈ log, Readable u K line := by
  by_contra hno
  rw [analyzeNs3Logs, readLog_error hno] at h
  cases h

theorem analyze_eq {log : List (List Char)} (h : ∀ line ∈ log, Readable u K line) :
    analyzeNs3Logs u num logFilePath log =
      summarize num logFilePath (records (entries u K log)) := by
  rw [analyzeNs3Logs, readLog_eq h]
  rfl

end Lines

end AlertLog

open AlertLog

/-- Where a log has at least two delivered alerts and lines of producers of new
alerts are added: the means and the rate of duplicates stay the same iff the
times of the added lines are numbers, and no line is added or the average delays
of the alerts add up to zero. -/
theorem means_unchanged_iff {K : Type} [Field K] [LinearOrder K] [IsStrictOrderedRing K]
    {u : Unicode} {num : Numerics K} {logFilePath : List Char} {log log' : List (List Char)}
    {r : Report K} (hr : analyzeNs3Logs u num logFilePath log = .ok r)
    (hadds : Adds (SendsFreshLine u log) log log') :
    (∃ r', analyzeNs3Logs u num logFilePath log' = .ok r' ∧ r'.pdrMean = r.pdrMean ∧
      r'.psrMean = r.psrMean ∧ r'.delayMean = r.delayMean ∧
      r'.duplicateRate = r.duplicateRate) ↔
    (∀ line ∈ log', Readable u K line) ∧
      (log' = log ∨ totalDelay (entries u K log) = 0) := by
  have hlog := readable_of_analyze hr
  have hentries := adds_entries (K := K) hlog hadds
  rw [analyze_eq hlog, summarize_eq_ok_iff] at hr
  obtain ⟨htwo, names, hnames, rfl⟩ := hr
  obtain ⟨hpdrs, hpsrs⟩ := pdrs_perm hentries
  have hle := Tally.length_pdrs_le (records (entries u K log))
  have hmean := delayMean_eq_iff hentries (by omega)
  constructor
  · rintro ⟨r', hr', _, _, hdelay, _⟩
    have hlog' := readable_of_analyze hr'
    rw [analyze_eq hlog', summarize_eq_ok_iff] at hr'
    obtain ⟨_, names', _, rfl⟩ := hr'
    exact ⟨hlog', (hmean.mp hdelay).imp_left (eq_of_added_eq_nil hlog hlog' hadds)⟩
  · rintro ⟨hlog', hcond⟩
    obtain ⟨hincoming, hdup⟩ := counts_added hentries
    refine ⟨(records (entries u K log')).report num names, ?_, ?_, ?_, ?_, ?_⟩
    · rw [analyze_eq hlog', summarize_eq_ok_iff]
      exact ⟨hpdrs.length_eq ▸ htwo, names, hnames, rfl⟩
    · simp only [Tally.report, hpdrs.sum_eq, hpdrs.length_eq]
    · simp only [Tally.report, hpsrs.sum_eq, hpsrs.length_eq]
    · rcases hcond with rfl | hzero
      · rfl
      · exact hmean.mpr (Or.inr hzero)
    · simp only [Tally.report, hincoming, hdup]

/-! ## A third alert

It is sent after the two others and received by nobody. -/

namespace TwoAlerts

def sentC : List Char := sent "3.000" "/c"

/-- Both alerts are received as they are sent. -/
def atOnce : List (List Char) :=
  [sent "1.000" "/a", received "1.000" "/a", sent "2.000" "/b", received "2.000" "/b"]

theorem classify_third :
    classify ascii sentC = .ok (.sent "/c".toList (3 : ℚ) 2) ∧
      classify ascii (received "1.000" "/a") = .ok (.received "/a".toList "8".toList (1 : ℚ)) ∧
      classify ascii (received "2.000" "/b") = .ok (.received "/b".toList "8".toList (2 : ℚ)) := by
  decide +kernel

def atOnceEntries : List (Entry ℚ) :=
  [.sent "/a".toList 1 2, .received "/a".toList "8".toList 1, .sent "/b".toList 2 2,
    .received "/b".toList "8".toList 2]

theorem classify_atOnce :
    List.Forall₂ (fun line e => classify ascii line = .ok e) atOnce atOnceEntries :=
  .cons classify_sent.1 (.cons classify_third.2.1
    (.cons classify_sent.2 (.cons classify_third.2.2 .nil)))

theorem classify_atOnce_sentC :
    List.Forall₂ (fun line e => classify ascii line = .ok e) (atOnce ++ [sentC])
      (atOnceEntries ++ [.sent "/c".toList 3 2]) :=
  List.rel_append classify_atOnce (.cons classify_third.1 .nil)

theorem classify_log_sentC :
    List.Forall₂ (fun line e => classify ascii line = .ok e) (log ++ [sentC])
      (logEntries ++ [.sent "/c".toList 3 2]) :=
  List.rel_append classify_log (.cons classify_third.1 .nil)

theorem adds_log : Adds (SendsFreshLine ascii log) log (log ++ [sentC]) := by
  have hfresh : SendsFreshLine ascii log sentC :=
    sendsFreshLine_of_classify classify_log classify_third.1 (by decide +kernel)
  exact .keep _ (.keep _ (.keep _ (.keep _ (.add hfresh .nil))))

theorem adds_atOnce : Adds (SendsFreshLine ascii atOnce) atOnce (atOnce ++ [sentC]) := by
  have hfresh : SendsFreshLine ascii atOnce sentC :=
    sendsFreshLine_of_classify classify_atOnce classify_third.1 (by decide +kernel)
  exact .keep _ (.keep _ (.keep _ (.keep _ (.add hfresh .nil))))

theorem exists_report {lines : List (List Char)} {es : List (Entry ℚ)}
    (hes : List.Forall₂ (fun line e => classify ascii line = .ok e) lines es) (q : Report ℚ → Bool)
    (h : (summarize numerics logFilePath (es.foldl Tally.read .empty)).toOption.any q) :
    ∃ r, analyzeNs3Logs ascii numerics logFilePath lines = .ok r ∧ q r = true := by
  rw [analyzeNs3Logs, readLog_of_classify hes]
  cases hr : summarize numerics logFilePath (es.foldl Tally.read .empty) with
  | ok r =>
      rw [hr] at h
      exact ⟨r, hr, h⟩
  | error e =>
      rw [hr] at h
      cases h

end TwoAlerts

/-- The third alert leaves the means of the other two as they are. -/
theorem means_unchanged_iff_atOnce : ∃ r r' : Report ℚ,
    analyzeNs3Logs TwoAlerts.ascii TwoAlerts.numerics TwoAlerts.logFilePath TwoAlerts.atOnce =
      .ok r ∧
    analyzeNs3Logs TwoAlerts.ascii TwoAlerts.numerics TwoAlerts.logFilePath
      (TwoAlerts.atOnce ++ [TwoAlerts.sentC]) = .ok r' ∧
    r'.pdrMean = r.pdrMean ∧ r'.psrMean = r.psrMean ∧ r'.delayMean = r.delayMean ∧
      r'.duplicateRate = r.duplicateRate := by
  obtain ⟨r, hr, _⟩ := TwoAlerts.exists_report TwoAlerts.classify_atOnce (fun _ => true)
    (by decide +kernel)
  obtain ⟨_, hr', _⟩ := TwoAlerts.exists_report TwoAlerts.classify_atOnce_sentC (fun _ => true)
    (by decide +kernel)
  have hzero : totalDelay (entries TwoAlerts.ascii ℚ TwoAlerts.atOnce) = 0 := by
    rw [entries_of_classify TwoAlerts.classify_atOnce]
    decide +kernel
  obtain ⟨r', hsame⟩ := (means_unchanged_iff hr TwoAlerts.adds_atOnce).mpr
    ⟨readable_of_analyze hr', Or.inr hzero⟩
  exact ⟨r, r', hr, hsame⟩

/-- The mean of the delays falls from four milliseconds to eight thirds. -/
theorem not_means_unchanged : ¬ ∀ (u : Unicode) (num : Numerics ℚ) (logFilePath : List Char)
    (log log' : List (List Char)) (r : Report ℚ),
    analyzeNs3Logs u num logFilePath log = .ok r → Adds (SendsFreshLine u log) log log' →
    ∃ r', analyzeNs3Logs u num logFilePath log' = .ok r' ∧ r'.pdrMean = r.pdrMean ∧
      r'.psrMean = r.psrMean ∧ r'.delayMean = r.delayMean ∧
      r'.duplicateRate = r.duplicateRate := by
  intro h
  obtain ⟨r, hr, hmean⟩ := TwoAlerts.exists_report TwoAlerts.classify_log (fun r => r.delayMean = 4)
    (by decide +kernel)
  obtain ⟨r', hr', _, _, hsame, _⟩ := h _ _ _ _ _ r hr TwoAlerts.adds_log
  obtain ⟨r'', hr'', hmean'⟩ := TwoAlerts.exists_report TwoAlerts.classify_log_sentC
    (fun r => r.delayMean = 8 / 3) (by decide +kernel)
  obtain rfl := Except.ok.inj (hr'.symm.trans hr'')
  rw [of_decide_eq_true hmean, of_decide_eq_true hmean'] at hsame
  norm_num at hsame

end Cafe
