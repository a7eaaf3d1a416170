import Cafe.ProducerNames
import Cafe.Uri

/-!
# The names in a log

A log shows names in their own form, in which most zones are hidden. What is
left tells the alerts of a simulation apart.
-/

open Decoding Labelled EventQueue

namespace Cafe

namespace WireName

open Uri

/-! ## Texts and components -/

theorem texts_inj : ∀ {texts texts' : List Bytes}, (∀ t ∈ texts, slash ∉ t) →
    (∀ t ∈ texts', slash ∉ t) →
    (texts.flatMap fun t => slash :: t) = (texts'.flatMap fun t => slash :: t) → texts = texts'
  | [], [], _, _, _ => rfl
  | [], _ :: _, _, _, h => by simp at h
  | _ :: _, [], _, _, h => by simp at h
  | t :: texts, t' :: texts', ht, ht', h => by
      have hsplit : ∀ (u : Bytes) (us : List Bytes), slash ∉ u →
          (u ++ us.flatMap fun t => slash :: t).takeWhile (· ≠ slash) = u := by
        intro u us hu
        cases us with
        | nil =>
            rw [List.flatMap_nil, List.append_nil]
            exact List.takeWhile_eq_self_iff.mpr fun c hc =>
              decide_eq_true fun heq => hu (heq ▸ hc)
        | cons v us => exact (takeWhile_separated hu _).1
      rw [List.flatMap_cons, List.flatMap_cons, List.cons_append, List.cons_append] at h
      have htail := (List.cons.inj h).2
      obtain rfl : t = t' := by
        rw [← hsplit t texts (ht t List.mem_cons_self), htail,
          hsplit t' texts' (ht' t' List.mem_cons_self)]
      rw [texts_inj (fun u hu => ht u (List.mem_cons_of_mem t hu))
        (fun u hu => ht' u (List.mem_cons_of_mem t hu)) (List.append_cancel_left htail)]

/-- Equal texts come from components with equal texts. -/
theorem map_componentToUri_eq {wantAltEnv : Option Bool} {format : UriFormat}
    {name name' : List Block} (hne : name ≠ []) (hne' : name' ≠ [])
    (h : toUri wantAltEnv format name = toUri wantAltEnv format name') :
    name.map (componentToUri (wantAltUri wantAltEnv format)) =
      name'.map (componentToUri (wantAltUri wantAltEnv format)) := by
  refine texts_inj (fun t ht => ?_) (fun t ht => ?_) ?_
  · obtain ⟨c, _, rfl⟩ := List.mem_map.mp ht
    exact slash_notMem_componentToUri _ c
  · obtain ⟨c, _, rfl⟩ := List.mem_map.mp ht
    exact slash_notMem_componentToUri _ c
  · rw [toUri, toUri, if_neg hne, if_neg hne'] at h
    rw [List.flatMap_map, List.flatMap_map]
    exact h

/-- Components that are read back from any text of theirs. -/
def Legible (name : List Block) : Prop :=
  ∀ comp ∈ name, comp.ensureValid = .ok () ∧ ReadsBack comp

theorem Legible.inj {name name' : List Block} (h : Legible name) (h' : Legible name')
    {wantAlt : Bool}
    (heq : name.map (componentToUri wantAlt) = name'.map (componentToUri wantAlt)) :
    name = name' := by
  have hread : ∀ {l : List Block}, Legible l →
      (l.map (componentToUri wantAlt)).mapM fromEscapedString = .ok l := fun hl =>
    (mapM_eq_ok_self _).mpr fun comp hmem =>
      (fromEscapedString_componentToUri (hl comp hmem).1 wantAlt).mpr fun _ => (hl comp hmem).2
  exact Except.ok.inj ((hread h).symm.trans (heq ▸ hread h'))

theorem legible_fromSequenceNumber {seq : ℕ} (h : seq < 2 ^ 64) :
    Legible [AlertAttributes.fromSequenceNumber seq] := by
  intro comp hmem
  obtain rfl := List.mem_singleton.mp hmem
  refine ⟨by simp [AlertAttributes.fromSequenceNumber, makeNonNegativeIntegerBlock,
    Block.ensureValid], fun _ => ?_⟩
  have hsize : isNumber (AlertAttributes.fromSequenceNumber seq) = true := by
    rw [isNumber, AlertAttributes.fromSequenceNumber, makeNonNegativeIntegerBlock, length_bigEndian]
    exact decide_eq_true (sizeOfNonNegativeInteger_mem seq)
  rw [if_pos hsize, AlertAttributes.fromSequenceNumber, makeNonNegativeIntegerBlock,
    ofBigEndian_bigEndian, Nat.mod_eq_of_lt (lt_pow_sizeOfNonNegativeInteger h)]
  rfl

/-- Whatever the zones, the text of an alert tells its prefix and its number. -/
theorem toUri_alert_inj {front front' : List Block} (h : Legible front) (h' : Legible front')
    {seq seq' : ℕ} (hseq : seq < 2 ^ 64) (hseq' : seq' < 2 ^ 64) {zor zor' : Block}
    {wantAltEnv : Option Bool} {format : UriFormat}
    (htext : toUri wantAltEnv format (front ++ [AlertAttributes.fromSequenceNumber seq, zor]) =
      toUri wantAltEnv format (front' ++ [AlertAttributes.fromSequenceNumber seq', zor'])) :
    front = front' ∧ seq = seq' := by
  have hmap := map_componentToUri_eq (by simp) (by simp) htext
  rw [List.map_append, List.map_append] at hmap
  obtain ⟨hfront, hrest⟩ := List.append_inj' hmap rfl
  refine ⟨h.inj h' hfront, ?_⟩
  have hnumber := (legible_fromSequenceNumber hseq).inj (legible_fromSequenceNumber hseq')
    (congrArg (fun t => [t]) (List.cons.inj hrest).1)
  exact fromSequenceNumber_inj hseq hseq' (congrArg Block.value (List.singleton_inj.mp hnumber))

end WireName

/-- The name of what an application supplies. -/
theorem AlertAttributes.name_alertSupplier {app : AlertAttributes} {seq : ℕ} {data : DataPacket}
    (h : app.alertSupplier seq = .ok data) :
    ∃ zor, data.name = app.mPrefix ++ [fromSequenceNumber seq, zor] := by
  obtain ⟨zor, _, h⟩ := Fallible.bind_eq_ok.mp h
  split at h
  · cases h
  · obtain rfl := Fallible.pure_eq_ok.mp h
    exact ⟨zor, rfl⟩

/-- The text of a supplied name tells the prefix and the number. -/
theorem AlertAttributes.logged_inj {app app' : AlertAttributes} {n m : ℕ} {data data' : DataPacket}
    (h : app.alertSupplier n = .ok data) (h' : app'.alertSupplier m = .ok data')
    (hlegible : WireName.Legible app.mPrefix) (hlegible' : WireName.Legible app'.mPrefix)
    (hn : n < 2 ^ 32) (hm : m < 2 ^ 32) {wantAltEnv : Option Bool} {format : Uri.UriFormat}
    (heq : WireName.toUri wantAltEnv format data.name =
      WireName.toUri wantAltEnv format data'.name) : app.mPrefix = app'.mPrefix ∧ n = m := by
  obtain ⟨zor, hname⟩ := name_alertSupplier h
  obtain ⟨zor', hname'⟩ := name_alertSupplier h'
  rw [hname, hname'] at heq
  exact WireName.toUri_alert_inj hlegible hlegible' (hn.trans (by norm_num))
    (hm.trans (by norm_num)) heq

/-- In a log each alert has a text of its own, as long as no application sends more than
`2 ^ 32` of them and their prefixes are different and legible, even where the zones are
hidden. -/
theorem logged_names_apart {X : Type} {apps : ℕ → AlertAttributes}
    {producers : ℕ → AlertProducer DataPacket X}
    (hsupply : ∀ i seq, (apps i).alertSupplier seq = .ok ((producers i).alertSupplier seq))
    {next : Queue ProducerCall → Event ProducerCall → Prop} (hnext : ∀ q e, next q e → q.IsDue e)
    {fl₀ fl : Fleet DataPacket} (hinit : fl₀.Installed) {ls : List (Fleet.Label X)}
    (hrun : Run (Fleet.Step producers next) fl₀ ls fl)
    (hprefixes : ∀ i j, (apps i).mPrefix = (apps j).mPrefix → i = j)
    (hlegible : ∀ i, WireName.Legible (apps i).mPrefix) (wantAltEnv : Option Bool)
    (format : Uri.UriFormat) :
    (fl.sent.map fun s => WireName.toUri wantAltEnv format s.data.name).Nodup ↔
      ∀ i, (fl.sentBy i).length ≤ 2 ^ 32 := by
  refine Fleet.nodup_labels (fun data => WireName.toUri wantAltEnv format data.name)
    (fun i j n m hn hm heq => ?_) hnext hinit hrun
  obtain ⟨hfront, hnumber⟩ := AlertAttributes.logged_inj (hsupply i n) (hsupply j m)
    (hlegible i) (hlegible j) hn hm heq
  exact ⟨hprefixes i j hfront, hnumber⟩

namespace TwoProducers

/-- A vehicle whose alerts are for a crossing. -/
def vehicle (i : ℕ) : AlertAttributes where
  mPrefix := [⟨8, Uri.ascii "alert"⟩, ⟨8, Uri.ascii "veh"⟩, ⟨8, Uri.decimal i⟩]
  keyLocator := []
  signature := 0
  freshness := 1000
  virtualPayloadSize := 0
  zor := some ZoR.crossing

def vehicleProducers (i : ℕ) : AlertProducer DataPacket ℕ where
  alertSupplier seq :=
    { DataPacket.init ((vehicle i).mPrefix ++
        [AlertAttributes.fromSequenceNumber seq, ⟨59, ZoR.crossing.serialize⟩]) with
      metaInfo := { MetaInfo.init with freshnessPeriod := 1000 }
      content := some ⟨21, []⟩ }
  sends x := x < 5
  rearm _ := if i = 0 then some 10 else none

theorem vehicle_mPrefix_inj (i j : ℕ) (h : (vehicle i).mPrefix = (vehicle j).mPrefix) : i = j :=
  Uri.decimal_inj (by simpa [vehicle] using h)

theorem vehicle_legible (i : ℕ) : WireName.Legible (vehicle i).mPrefix := by
  intro comp hmem
  have htype : 8 ∉ Uri.numberTypes := by decide
  simp only [vehicle, List.mem_cons, List.not_mem_nil, or_false] at hmem
  rcases hmem with rfl | rfl | rfl <;> exact ⟨rfl, fun h => absurd h htype⟩

theorem run_vehicles : ∃ fl, Run (Fleet.Step vehicleProducers Queue.IsFirst)
    (installed DataPacket) labels fl ∧ fl.sent.length = 3 := by
  refine ⟨_, ((((((Run.nil.snoc (.run (e := ⟨0, 0, .startApplication 0⟩) ?_)).snoc
    (.run (e := ⟨3, 0, .sendAlert 0⟩) ?_)).snoc (.run (e := ⟨1, 5, .startApplication 1⟩) ?_)).snoc
    (.run (e := ⟨5, 5, .sendAlert 1⟩) ?_)).snoc (.run (e := ⟨4, 10, .sendAlert 0⟩) ?_)).snoc
    (.run (e := ⟨2, 15, .stopApplication 0⟩) ?_)), ?_⟩
  all_goals decide

end TwoProducers

theorem logged_names_apart_two : ∃ fl, Run (Fleet.Step TwoProducers.vehicleProducers Queue.IsFirst)
    (TwoProducers.installed DataPacket) TwoProducers.labels fl ∧
    (fl.sent.map fun s => WireName.toUri none .envOrAlternate s.data.name).Nodup := by
  obtain ⟨fl, hrun, hthree⟩ := TwoProducers.run_vehicles
  have hsupply : ∀ i seq, (TwoProducers.vehicle i).alertSupplier seq =
      .ok ((TwoProducers.vehicleProducers i).alertSupplier seq) := fun _ _ => rfl
  have hcount : ∀ i, (fl.sentBy i).length ≤ 2 ^ 32 := by
    intro i
    have hle := List.length_filter_le (fun s : Sent DataPacket => s.app = i) fl.sent
    rw [Fleet.sentBy, List.length_map]
    omega
  exact ⟨fl, hrun, (logged_names_apart hsupply (fun _ _ h => h.1)
    (TwoProducers.installed_installed DataPacket) hrun TwoProducers.vehicle_mPrefix_inj
    TwoProducers.vehicle_legible none .envOrAlternate).mpr hcount⟩

end Cafe
