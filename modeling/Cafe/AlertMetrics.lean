import Cafe.AlertLog

/-!
# Metrics of a log

From the records of the alerts the table takes the means of the delivery and
the satisfaction ratio over the delivered alerts, the mean of the average
delays over all alerts, and the rates of failures and duplicates. The
arithmetic is that of an ordered field.
-/

namespace Cafe

namespace AlertLog

/-- The functions of `math` and `scipy.stats` that the margin of error needs. -/
structure Numerics (K : Type) where
  sqrt : K → K
  ppf : K → ℕ → K

structure Totals (K : Type) where
  failedPackets : ℕ
  globalPdr : List K
  globalPsr : List K
  globalDelay : List K

structure Report (K : Type) where
  scenario : List Char
  mode : List Char
  pdrMean : K
  pdrMoe : K
  psrMean : K
  psrMoe : K
  delayMean : K
  delayMoe : K
  duplicateRate : K
  failureRate : K

section Analysis

variable {K : Type} [Field K]

def mean (data : List K) : Except PyError K :=
  match data with
  | [] => .error .statisticsError
  | _ :: _ => .ok (data.sum / data.length)

/-- The sample standard deviation. -/
def stdev (num : Numerics K) (data : List K) : Except PyError K :=
  if data.length < 2 then .error .statisticsError
  else
    let m := data.sum / data.length
    .ok (num.sqrt ((data.map fun x => (x - m) * (x - m)).sum / ((data.length - 1 : ℕ) : K)))

def computeMoe (num : Numerics K) (data : List K) : Except PyError K := do
  let n := data.length
  let _ ← mean data
  let stdev ← stdev num data
  let sem := stdev / num.sqrt n
  let confidence : K := (95 : ℕ) / (100 : ℕ)
  return num.ppf ((1 + confidence) / (2 : ℕ)) (n - 1) * sem

def percentage (part whole : ℕ) : K := if 0 < whole then (part : K) / whole * (100 : ℕ) else 0

/-- The average delay in milliseconds, zero where nothing was received. -/
def AlertData.avgDelay (data : AlertData K) : K :=
  if data.delays = [] then 0 else data.delays.sum / data.delays.length * (1000 : ℕ)

def scenarioAndMode (logFilePath : List Char) : Except PyError (List Char × List Char) :=
  match (logFilePath.splitOn '/')[1]? with
  | none => .error .indexError
  | some file =>
      match file.splitOn '-' with
      | [scenario, mode] => .ok (scenario, (mode.splitOn '.').headD [])
      | _ => .error .valueError

variable [LinearOrder K]

def ratio (count vehCount : ℕ) : K := min (percentage count vehCount) (100 : ℕ)

def AlertData.pdr (data : AlertData K) : K := ratio data.receivers.card data.vehCount

def AlertData.psr (data : AlertData K) : K := ratio data.satisfiedReceivers.card data.vehCount

def Totals.empty : Totals K := ⟨0, [], [], []⟩

def Totals.add (t : Totals K) (data : AlertData K) : Totals K :=
  let t :=
    if data.receivers.card = 0 then { t with failedPackets := t.failedPackets + 1 }
    else { t with globalPdr := t.globalPdr ++ [data.pdr], globalPsr := t.globalPsr ++ [data.psr] }
  { t with globalDelay := t.globalDelay ++ [data.avgDelay] }

/-- What is reported of the records. -/
def summarize (num : Numerics K) (logFilePath : List Char) (st : Tally K) :
    Except PyError (Report K) := do
  let totalPackets := st.alertData.entries.length
  let totals := st.alertData.entries.foldl (fun t e => Totals.add t e.2) .empty
  let pdrMean ← mean totals.globalPdr
  let pdrMoe ← computeMoe num totals.globalPdr
  let psrMean ← mean totals.globalPsr
  let psrMoe ← computeMoe num totals.globalPsr
  let delayMean ← mean totals.globalDelay
  let delayMoe ← computeMoe num totals.globalDelay
  let names ← scenarioAndMode logFilePath
  return {
    scenario := names.1
    mode := names.2
    pdrMean := pdrMean
    pdrMoe := pdrMoe
    psrMean := psrMean
    psrMoe := psrMoe
    delayMean := delayMean
    delayMoe := delayMoe
    duplicateRate := percentage st.duplicateDrops st.incomingAlerts
    failureRate := percentage totals.failedPackets totalPackets }

def analyzeNs3Logs (u : Unicode) (num : Numerics K) (logFilePath : List Char)
    (log : List (List Char)) : Except PyError (Report K) :=
  readLog u log >>= summarize num logFilePath

end Analysis

/-! ## The order of the records -/

section Order

variable {K : Type} [Field K]

theorem mean_perm {l l' : List K} (h : l.Perm l') : mean l = mean l' := by
  cases l with
  | nil => rw [h.nil_eq]
  | cons x l =>
      cases l' with
      | nil => exact absurd h.eq_nil (List.cons_ne_nil _ _)
      | cons y l' => simp only [mean, h.sum_eq, h.length_eq]

theorem stdev_perm (num : Numerics K) {l l' : List K} (h : l.Perm l') :
    stdev num l = stdev num l' := by
  unfold stdev
  rw [h.length_eq]
  simp only [h.sum_eq]
  rw [(h.map _).sum_eq]

theorem computeMoe_perm (num : Numerics K) {l l' : List K} (h : l.Perm l') :
    computeMoe num l = computeMoe num l' := by
  unfold computeMoe
  rw [mean_perm h, stdev_perm num h, h.length_eq]

variable [LinearOrder K]

def AlertData.IsDelivered (data : AlertData K) : Prop := data.receivers.card ≠ 0

instance (data : AlertData K) : Decidable data.IsDelivered := inferInstanceAs (Decidable (¬ _))

theorem totals_foldl (es : List (Σ _ : AlertName, AlertData K)) (t : Totals K) :
    es.foldl (fun t e => Totals.add t e.2) t =
      ⟨t.failedPackets + es.countP (fun e => ¬ e.2.IsDelivered),
        t.globalPdr ++ (es.filter fun e => e.2.IsDelivered).map fun e => e.2.pdr,
        t.globalPsr ++ (es.filter fun e => e.2.IsDelivered).map fun e => e.2.psr,
        t.globalDelay ++ es.map fun e => e.2.avgDelay⟩ := by
  induction es generalizing t with
  | nil => simp
  | cons e es ih =>
      rw [List.foldl_cons, ih]
      by_cases hcard : e.2.receivers.card = 0
      · have hno : ¬ e.2.IsDelivered := not_not.mpr hcard
        simp [Totals.add, hcard, hno, Nat.add_assoc, Nat.add_comm]
      · have hyes : e.2.IsDelivered := hcard
        simp [Totals.add, hcard, hyes]

/-- The report depends on the records, not on their order. -/
theorem summarize_congr (num : Numerics K) (logFilePath : List Char) {st st' : Tally K}
    (h : st.alertData.entries.Perm st'.alertData.entries)
    (hincoming : st.incomingAlerts = st'.incomingAlerts)
    (hdup : st.duplicateDrops = st'.duplicateDrops) :
    summarize num logFilePath st = summarize num logFilePath st' := by
  have hfilter := h.filter fun e => decide e.2.IsDelivered
  unfold summarize
  simp only [totals_foldl, Totals.empty, List.nil_append, Nat.zero_add, hincoming, hdup,
    h.length_eq, h.countP_eq]
  rw [mean_perm (hfilter.map _), computeMoe_perm num (hfilter.map _), mean_perm (hfilter.map _),
    computeMoe_perm num (hfilter.map _), mean_perm (h.map _), computeMoe_perm num (h.map _)]

end Order

/-! ## The report in closed form -/

section Report

variable {K : Type} [Field K]

/-- The margin of error of at least two numbers. -/
def moe (num : Numerics K) (l : List K) : K :=
  num.ppf ((1 + (95 : ℕ) / (100 : ℕ)) / (2 : ℕ)) (l.length - 1) *
    (num.sqrt ((l.map fun x => (x - l.sum / l.length) * (x - l.sum / l.length)).sum /
      ((l.length - 1 : ℕ) : K)) / num.sqrt l.length)

theorem mean_eq {l : List K} (h : 2 ≤ l.length) : mean l = .ok (l.sum / l.length) := by
  cases l with
  | nil => exact absurd h (by simp)
  | cons x l => rfl

theorem computeMoe_eq (num : Numerics K) {l : List K} (h : 2 ≤ l.length) :
    computeMoe num l = .ok (moe num l) := by
  unfold computeMoe
  rw [mean_eq h, stdev, if_neg (not_lt.mpr h)]
  rfl

theorem computeMoe_error (num : Numerics K) {l : List K} (h : ¬ 2 ≤ l.length) :
    computeMoe num l = .error .statisticsError := by
  unfold computeMoe
  cases l with
  | nil => rfl
  | cons x l =>
      rw [stdev, if_pos (not_le.mp h)]
      rfl

variable [LinearOrder K]

def Tally.pdrs (st : Tally K) : List K :=
  (st.alertData.entries.filter fun e => e.2.IsDelivered).map fun e => e.2.pdr

def Tally.psrs (st : Tally K) : List K :=
  (st.alertData.entries.filter fun e => e.2.IsDelivered).map fun e => e.2.psr

def Tally.delays (st : Tally K) : List K := st.alertData.entries.map fun e => e.2.avgDelay

theorem Tally.length_psrs (st : Tally K) : st.psrs.length = st.pdrs.length := by
  simp [Tally.psrs, Tally.pdrs]

theorem Tally.length_pdrs_le (st : Tally K) : st.pdrs.length ≤ st.delays.length := by
  simp only [Tally.pdrs, Tally.delays, List.length_map]
  exact List.length_filter_le _ _

def Tally.report (num : Numerics K) (st : Tally K) (names : List Char × List Char) : Report K where
  scenario := names.1
  mode := names.2
  pdrMean := st.pdrs.sum / st.pdrs.length
  pdrMoe := moe num st.pdrs
  psrMean := st.psrs.sum / st.psrs.length
  psrMoe := moe num st.psrs
  delayMean := st.delays.sum / st.delays.length
  delayMoe := moe num st.delays
  duplicateRate := percentage st.duplicateDrops st.incomingAlerts
  failureRate := percentage (st.alertData.entries.countP fun e => ¬ e.2.IsDelivered)
    st.alertData.entries.length

/-- Two delivered alerts are enough, and necessary, for the statistics. -/
theorem summarize_eq_ok_iff (num : Numerics K) (logFilePath : List Char) (st : Tally K)
    (r : Report K) : summarize num logFilePath st = .ok r ↔
      2 ≤ st.pdrs.length ∧ ∃ names, scenarioAndMode logFilePath = .ok names ∧
        r = st.report num names := by
  unfold summarize
  simp only [totals_foldl, Totals.empty, List.nil_append, Nat.zero_add]
  rw [← Tally.pdrs, ← Tally.psrs, ← Tally.delays]
  by_cases h : 2 ≤ st.pdrs.length
  · have hpsrs : 2 ≤ st.psrs.length := by rwa [st.length_psrs]
    have hdelays := h.trans st.length_pdrs_le
    rw [mean_eq h, computeMoe_eq num h, mean_eq hpsrs, computeMoe_eq num hpsrs, mean_eq hdelays,
      computeMoe_eq num hdelays]
    cases hnames : scenarioAndMode logFilePath with
    | error e => simp [bind, Except.bind]
    | ok names =>
        constructor
        · intro heq
          exact ⟨h, names, rfl, (Except.ok.inj heq).symm⟩
        · rintro ⟨_, names', heq, rfl⟩
          obtain rfl := Except.ok.inj heq
          rfl
  · refine iff_of_false ?_ fun hr => h hr.1
    rw [computeMoe_error num h]
    intro heq
    cases hmean : mean st.pdrs with
    | error e =>
        rw [hmean] at heq
        cases heq
    | ok m =>
        rw [hmean] at heq
        cases heq

end Report

/-! ## Alerts that are interleaved otherwise -/

section Interleaving

variable {K : Type} [Field K] [LinearOrder K]

/-- The records depend on the entries of each alert alone. -/
theorem alertData_perm {es es' : List (Entry K)}
    (h : ∀ name, lastSending es name = lastSending es' name) :
    (es.foldl Tally.read .empty).alertData.entries.Perm
      (es'.foldl Tally.read .empty).alertData.entries := by
  refine List.lookup_ext (AList.nodupKeys _) (AList.nodupKeys _) fun name data => ?_
  have hlook : (es.foldl Tally.read .empty).alertData.lookup name =
      (es'.foldl Tally.read .empty).alertData.lookup name := by
    rw [lookup_alertData, lookup_alertData, h name]
  exact iff_of_eq (congrArg (data ∈ ·) hlook)

variable {u : Unicode}

theorem analyze_perm (num : Numerics K) (logFilePath : List Char) {log log' : List (List Char)}
    (hperm : log.Perm log')
    (h : ∀ name, log.filter (fun line => mentioned u line = some name) =
      log'.filter fun line => mentioned u line = some name) :
    analyzeNs3Logs u num logFilePath log = analyzeNs3Logs u num logFilePath log' := by
  unfold analyzeNs3Logs
  by_cases hall : ∀ line ∈ log, Readable u K line
  · have hall' : ∀ line ∈ log', Readable u K line := fun line hline =>
      hall line (hperm.mem_iff.mpr hline)
    have hentries : (entries u K log).Perm (entries u K log') := hperm.filterMap _
    have hlast : ∀ name, lastSending (entries u K log) name =
        lastSending (entries u K log') name := by
      intro name
      rw [lastSending, lastSending, entries_filter log name hall, entries_filter log' name hall',
        h name]
    rw [readLog_eq hall, readLog_eq hall']
    refine summarize_congr num logFilePath (alertData_perm hlast) ?_ ?_
    · rw [(counts_foldl _).1, (counts_foldl _).1, hentries.countP_eq]
    · rw [(counts_foldl _).2, (counts_foldl _).2, hentries.countP_eq]
  · have hno : ¬ ∀ line ∈ log', Readable u K line := fun hall' =>
      hall fun line hline => hall' line (hperm.mem_iff.mp hline)
    rw [readLog_error hall, readLog_error hno]

end Interleaving

section Bounds

variable {K : Type} [Field K] [LinearOrder K] [IsStrictOrderedRing K]

theorem percentage_nonneg (part whole : ℕ) : 0 ≤ (percentage part whole : K) := by
  unfold percentage
  split
  · positivity
  · exact le_rfl

theorem percentage_mono {part part' : ℕ} (h : part ≤ part') (whole : ℕ) :
    (percentage part whole : K) ≤ percentage part' whole := by
  unfold percentage
  split
  · have hcast : (part : K) ≤ part' := by exact_mod_cast h
    gcongr
  · exact le_rfl

theorem ratio_nonneg (count vehCount : ℕ) : 0 ≤ (ratio count vehCount : K) :=
  le_min (percentage_nonneg _ _) (Nat.cast_nonneg _)

theorem ratio_mono {count count' : ℕ} (h : count ≤ count') (vehCount : ℕ) :
    (ratio count vehCount : K) ≤ ratio count' vehCount :=
  min_le_min_right _ (percentage_mono h vehCount)

theorem Sending.data_bounds (s : Sending K) :
    s.data.satisfiedReceivers ⊆ s.data.receivers ∧
      s.data.delays.length = s.data.receivers.card ∧
      0 ≤ s.data.psr ∧ s.data.psr ≤ s.data.pdr ∧ s.data.pdr ≤ 100 := by
  have hsub : s.data.satisfiedReceivers ⊆ s.data.receivers := Finset.filter_subset _ _
  refine ⟨hsub, ?_, ratio_nonneg _ _, ratio_mono (Finset.card_le_card hsub) _, ?_⟩
  · simp only [data, List.length_map]
    exact (List.toFinset_card_of_nodup s.nodup_order).symm
  · exact (min_le_right _ _).trans (by norm_num)

end Bounds

end AlertLog

open AlertLog

/-- Only the order of the lines that mention the same alert matters to the
report, and every record keeps its bounds. -/
theorem metrics_of_interleaving {K : Type} [Field K] [LinearOrder K] [IsStrictOrderedRing K]
    (u : Unicode) (num : Numerics K) (logFilePath : List Char) :
    (∀ log log' : List (List Char), log.Perm log' →
      (∀ name, log.filter (fun line => mentioned u line = some name) =
        log'.filter fun line => mentioned u line = some name) →
      analyzeNs3Logs u num logFilePath log = analyzeNs3Logs u num logFilePath log') ∧
    ∀ (log : List (List Char)) (st : Tally K), readLog u log = .ok st →
      ∀ name data, st.alertData.lookup name = some data →
        data.satisfiedReceivers ⊆ data.receivers ∧ data.delays.length = data.receivers.card ∧
          0 ≤ data.psr ∧ data.psr ≤ data.pdr ∧ data.pdr ≤ 100 := by
  refine ⟨fun log log' hperm h => analyze_perm num logFilePath hperm h, ?_⟩
  intro log st hread name data hlook
  by_cases hall : ∀ line ∈ log, Readable u K line
  · rw [readLog_eq hall] at hread
    obtain rfl := Except.ok.inj hread
    rw [lookup_alertData] at hlook
    obtain ⟨s, _, rfl⟩ := Option.map_eq_some_iff.mp hlook
    exact s.data_bounds
  · rw [readLog_error hall] at hread
    cases hread

/-! ## Two alerts

Each is received four milliseconds after it was sent. -/

namespace TwoAlerts

def ascii : Unicode where
  digit c := if c.isDigit then some (c.toNat - '0'.toNat) else none
  space c := c.isWhitespace
  word c := c.isAlphanum || c == '_'

/-- The quantile is that of one degree of freedom. -/
def numerics : Numerics ℚ := ⟨Rat.sqrt, fun _ _ => 12706 / 1000⟩

def logFilePath : List Char := "log/v2v-low.log".toList

def sent (time name : String) : List Char :=
  "+".toList ++ time.toList ++
    "s 7 ndn.RandomAlertProducer:AlertSupplier(): [LOGIC] Send alert=".toList ++ name.toList ++
    " vehCount=2 rsuCount=9\n".toList

def received (time name : String) : List Char :=
  "+".toList ++ time.toList ++
    "s 8 ndn.AlertConsumer:doReceive(): [INFO ] Received alert: ".toList ++ name.toList ++
    "\n".toList

def log : List (List Char) :=
  [sent "1.000" "/a", sent "2.000" "/b", received "1.004" "/a", received "2.004" "/b"]

def log' : List (List Char) :=
  [sent "2.000" "/b", received "2.004" "/b", sent "1.000" "/a", received "1.004" "/a"]

def logEntries : List (Entry ℚ) :=
  [.sent "/a".toList 1 2, .sent "/b".toList 2 2,
    .received "/a".toList "8".toList (1004 / 1000),
    .received "/b".toList "8".toList (2004 / 1000)]

theorem classify_sent :
    classify ascii (sent "1.000" "/a") = .ok (.sent "/a".toList (1 : ℚ) 2) ∧
      classify ascii (sent "2.000" "/b") = .ok (.sent "/b".toList (2 : ℚ) 2) := by
  decide +kernel

theorem classify_received :
    classify ascii (received "1.004" "/a") =
        .ok (.received "/a".toList "8".toList (1004 / 1000 : ℚ)) ∧
      classify ascii (received "2.004" "/b") =
        .ok (.received "/b".toList "8".toList (2004 / 1000 : ℚ)) := by
  decide +kernel

theorem classify_log : List.Forall₂ (fun line e => classify ascii line = .ok e) log logEntries :=
  .cons classify_sent.1 (.cons classify_sent.2
    (.cons classify_received.1 (.cons classify_received.2 .nil)))

theorem same_order (name : AlertName) : log.filter (fun line => mentioned ascii line = some name) =
    log'.filter fun line => mentioned ascii line = some name := by
  have hsentA := mentioned_of_classify classify_sent.1
  have hsentB := mentioned_of_classify classify_sent.2
  have hreceivedA := mentioned_of_classify classify_received.1
  have hreceivedB := mentioned_of_classify classify_received.2
  unfold log log'
  simp only [List.filter_cons, List.filter_nil, hsentA, hsentB, hreceivedA, hreceivedB,
    Entry.name?, Option.some.injEq]
  by_cases ha : "/a".toList = name
  · have hb : ¬ "/b".toList = name := by
      rw [← ha]
      decide
    simp only [ha, hb, decide_true, decide_false, if_true, Bool.false_eq_true, if_false]
  · simp only [ha, decide_false, Bool.false_eq_true, if_false]

theorem isSome_lookup :
    ((logEntries.foldl Tally.read .empty).alertData.lookup "/a".toList).isSome := by
  decide +kernel

end TwoAlerts

theorem metrics_of_interleaving_two :
    analyzeNs3Logs TwoAlerts.ascii TwoAlerts.numerics TwoAlerts.logFilePath TwoAlerts.log =
        analyzeNs3Logs TwoAlerts.ascii TwoAlerts.numerics TwoAlerts.logFilePath TwoAlerts.log' ∧
      ∃ (st : Tally ℚ) (data : AlertData ℚ), readLog TwoAlerts.ascii TwoAlerts.log = .ok st ∧
        st.alertData.lookup "/a".toList = some data ∧
        data.satisfiedReceivers ⊆ data.receivers ∧ data.delays.length = data.receivers.card ∧
          0 ≤ data.psr ∧ data.psr ≤ data.pdr ∧ data.pdr ≤ 100 := by
  obtain ⟨hsame, hbounds⟩ := metrics_of_interleaving TwoAlerts.ascii TwoAlerts.numerics
    TwoAlerts.logFilePath
  have hst := readLog_of_classify TwoAlerts.classify_log
  obtain ⟨data, hdata⟩ := Option.isSome_iff_exists.mp TwoAlerts.isSome_lookup
  exact ⟨hsame _ _ (by decide +kernel) TwoAlerts.same_order, _, data, hst, hdata,
    hbounds _ _ hst _ data hdata⟩

end Cafe
