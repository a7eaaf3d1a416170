import Cafe.AlertLog

/-!
# The lines of a log

What producers, consumers and forwarders write to the log of a simulation. Each
line is a time, a node, a function and a message, and reading the log gives back
what the lines say.
-/

open GreedyPattern

namespace Cafe

/-- What the tables say of the characters in a log. -/
structure Unicode.Ascii (u : Unicode) : Prop where
  digit : ∀ c : Char, c.isDigit = true → u.digit c = some (c.toNat - '0'.toNat)
  notDigit : ∀ c : Char, c.toNat < 128 → c.isDigit = false → u.digit c = none
  blank : u.space ' ' = true
  newline : u.space '\n' = true
  visible : ∀ c : Char, 33 ≤ c.toNat → c.toNat < 127 → u.space c = false
  word : ∀ c : Char, c.isUpper = true → u.word c = true

theorem Unicode.Ascii.isDigit {u : Unicode} (hu : u.Ascii) {c : Char} (h : c.isDigit = true) :
    u.isDigit c = true := by
  rw [Unicode.isDigit, hu.digit c h]
  rfl

theorem Unicode.Ascii.not_isDigit {u : Unicode} (hu : u.Ascii) {c : Char} (h : c.toNat < 128)
    (hc : c.isDigit = false) : u.isDigit c = false := by
  rw [Unicode.isDigit, hu.notDigit c h hc]
  rfl

namespace LogLines

open AlertLog

/-- Printing characters. -/
def Visible (w : List Char) : Prop := ∀ c ∈ w, 33 ≤ c.toNat ∧ c.toNat < 127

instance (w : List Char) : Decidable (Visible w) :=
  List.decidableBAll (fun c : Char => 33 ≤ c.toNat ∧ c.toNat < 127) w

/-- Words, each after a blank. -/
def spaced (words : List (List Char)) : List Char := words.flatMap fun w => ' ' :: w

def words (s : String) : List (List Char) := s.toList.splitOn ' '

def decimal (n : ℕ) : List Char := Nat.toDigits 10 n

/-- Nanoseconds in seconds, to nine places. -/
def seconds (ns : ℕ) : List Char :=
  decimal (ns / 1000000000) ++ '.' :: (decimal (ns % 1000000000)).leftpad 9 '0'

/-! ## What is logged -/

inductive Handler
  | onIncomingAlert
  | alertVehicleHandler
  | alertRsuHandler
  deriving DecidableEq

inductive Decision
  | noContext
  | noZoR
  | noMobility
  | noSenderPosition
  | toRsu
  | toVehicles
  | cancelledCloser
  | cancelledFarther
  | duplicate
  | senderCloser
  | toRsuDeferred (delay : List Char)
  | toVehiclesDeferred (delay : List Char)
  deriving DecidableEq

inductive Message
  | conditionFailed
  /-- an application without a zone counts nobody -/
  | send (name : AlertName) (counts : Option (ℕ × ℕ))
  | startApplication
  | received (name : AlertName)
  | interestTimeout (mPrefix : AlertName)
  | incoming (face : ℕ) (name : AlertName)
  | outgoing (face : ℕ) (name : AlertName)
  | decided (handler : Handler) (face endpoint : ℕ) (name : AlertName) (decision : Decision)
  deriving DecidableEq

structure LogLine where
  /-- in nanoseconds -/
  time : ℕ
  node : ℕ
  message : Message
  deriving DecidableEq

namespace Decision

/-- Where a timer is cancelled, a blank is written after the sign of equality. -/
def cancels : Decision → Bool
  | cancelledCloser => true
  | cancelledFarther => true
  | _ => false

def words : Decision → List (List Char)
  | noContext => LogLines.words "decision=drop since either node or ctx is nullptr"
  | noZoR => LogLines.words "decision=drop since zor is nullptr"
  | noMobility => LogLines.words "decision=drop since mobility is nullptr"
  | noSenderPosition => LogLines.words "decision=drop since sender position is unavailable"
  | toRsu => LogLines.words "decision=forward to Rsu"
  | toVehicles => LogLines.words "decision=forward to vehicles"
  | cancelledCloser => LogLines.words "timer cancelled because sender closer to ZoR"
  | cancelledFarther => LogLines.words "timer cancelled because sender farther then node"
  | duplicate => LogLines.words "decision=drop because duplicate alert"
  | senderCloser => LogLines.words "decision=drop since sender is closer"
  | toRsuDeferred delay =>
      LogLines.words "decision=forward to Rsu deferred until" ++ [delay ++ "ms".toList]
  | toVehiclesDeferred delay =>
      LogLines.words "decision=forward to vehicles deferred until" ++ [delay ++ "ms".toList]

end Decision

namespace Message

def function : Message → String
  | conditionFailed => "ndn.RandomAlertProducer:SendAlert():"
  | send _ _ => "ndn.RandomAlertProducer:AlertSupplier():"
  | startApplication => "ndn.AlertConsumer:StartApplication():"
  | received _ => "ndn.AlertConsumer:doReceive():"
  | interestTimeout _ => "ndn.AlertConsumer:handleTimeout():"
  | incoming _ _ => "caf.Forwarder:OnIncomingAlert():"
  | outgoing _ _ => "caf.Forwarder:OnOutgoingAlert():"
  | decided .onIncomingAlert _ _ _ _ => "caf.Forwarder:OnIncomingAlert():"
  | decided .alertVehicleHandler _ _ _ _ => "caf.Forwarder:AlertVehicleHandler():"
  | decided .alertRsuHandler _ _ _ _ => "caf.Forwarder:AlertRsuHandler():"

/-- A face and an endpoint. -/
def ingress (face endpoint : ℕ) : List Char :=
  '(' :: decimal face ++ ',' :: decimal endpoint ++ [')']

def words : Message → List (List Char)
  | conditionFailed => LogLines.words "[LOGIC] Don't send alert; condition failed"
  | send name none => LogLines.words "[LOGIC] Send" ++ ["alert=".toList ++ name]
  | send name (some (vehCount, rsuCount)) =>
      LogLines.words "[LOGIC] Send" ++
        ["alert=".toList ++ name, "vehCount=".toList ++ decimal vehCount,
          "rsuCount=".toList ++ decimal rsuCount]
  | startApplication => LogLines.words "[DEBUG] StartApplication()"
  | received name => LogLines.words "[INFO ] Received alert:" ++ [name]
  | interestTimeout mPrefix => LogLines.words "[DEBUG] Interest timeout:" ++ [mPrefix]
  | incoming face name =>
      LogLines.words "[DEBUG]" ++ ["in=".toList ++ decimal face, "alert=".toList ++ name]
  | outgoing face name =>
      LogLines.words "[DEBUG]" ++ ["out=".toList ++ decimal face, "alert=".toList ++ name]
  | decided _ face endpoint name decision =>
      LogLines.words "[DEBUG]" ++
        (if decision.cancels then ["in=".toList, ingress face endpoint]
          else ["in=".toList ++ ingress face endpoint]) ++
        ["alert=".toList ++ name] ++ decision.words

end Message

namespace LogLine

def text (line : LogLine) : List Char :=
  ('+' :: seconds line.time ++ ['s']) ++
    spaced (decimal line.node :: line.message.function.toList :: line.message.words) ++ ['\n']

end LogLine

/-- The alerts whose reception the analysis counts. -/
def isEmergency (name : AlertName) : Bool :=
  "/alert/emergency".toList.isPrefixOf name && decide (16 < name.length)

/-- What a line says that the analysis wants to know. -/
def LogLine.entry {K : Type} [Field K] (line : LogLine) : Entry K :=
  let time : K := (line.time : K) / ((10 ^ 9 : ℕ) : K)
  match line.message with
  | .send name (some (vehCount, _)) => .sent name time vehCount
  | .received name => .received name (decimal line.node) time
  | .incoming _ name => if isEmergency name then .incomingAlert else .other
  | .decided .alertVehicleHandler _ _ name .duplicate =>
      if isEmergency name then .duplicateDrop else .other
  | _ => .other

/-- Names begin with a slash. -/
def IsName (name : AlertName) : Prop := name.head? = some '/' ∧ Visible name

/-- The characters in which a floating-point number is printed. -/
def IsNumber (delay : List Char) : Prop := ∀ c ∈ delay, c ∈ "0123456789.+-einfa".toList

def Decision.Valid : Decision → Prop
  | .toRsuDeferred delay => IsNumber delay
  | .toVehiclesDeferred delay => IsNumber delay
  | _ => True

def Message.Valid : Message → Prop
  | .conditionFailed => True
  | .send name _ => IsName name
  | .startApplication => True
  | .received name => IsName name
  | .interestTimeout mPrefix => IsName mPrefix
  | .incoming _ name => IsName name
  | .outgoing _ name => IsName name
  | .decided _ _ _ name decision => IsName name ∧ decision.Valid

example : (⟨63455687860, 106, .send "/alert/emergency/veh/106/seq=0/zor=[MASKED]".toList
    (some (79, 9))⟩ : LogLine).text =
    ("+63.455687860s 106 ndn.RandomAlertProducer:AlertSupplier(): [LOGIC] Send " ++
      "alert=/alert/emergency/veh/106/seq=0/zor=[MASKED] vehCount=79 rsuCount=9\n").toList := by
  decide +kernel

theorem words_debug : words "[DEBUG]" = ["[DEBUG]".toList] := rfl

theorem words_duplicate : words "decision=drop because duplicate alert" =
    ["decision=drop".toList, "because".toList, "duplicate".toList, "alert".toList] := rfl

/-! ## Numbers -/

section Numbers

variable {u : Unicode}

theorem isDigit_of_mem_decimal {n : ℕ} {c : Char} (h : c ∈ decimal n) : c.isDigit = true :=
  Nat.isDigit_of_mem_toDigits (by decide) (by decide) h

theorem decimal_ne_nil (n : ℕ) : decimal n ≠ [] := Nat.toDigits_ne_nil

theorem visible_of_isDigit {c : Char} (h : c.isDigit = true) : 33 ≤ c.toNat ∧ c.toNat < 127 := by
  simp only [Char.isDigit, Bool.and_eq_true, decide_eq_true_eq, ge_iff_le,
    UInt32.le_iff_toNat_le] at h
  change 48 ≤ c.toNat ∧ c.toNat ≤ 57 at h
  omega

theorem visible_decimal (n : ℕ) : Visible (decimal n) := fun _ hc =>
  visible_of_isDigit (isDigit_of_mem_decimal hc)

theorem isDigit_of_mem_leftpad {n : ℕ} {c : Char} (h : c ∈ (decimal n).leftpad 9 '0') :
    c.isDigit = true := by
  rw [List.leftpad, List.mem_append] at h
  rcases h with h | h
  · rw [List.eq_of_mem_replicate h]
    decide
  · exact isDigit_of_mem_decimal h

theorem foldl_value (k : ℕ) (ds : List Char) :
    ds.foldl (fun n c => 10 * n + (u.digit c).getD 0) k = k * 10 ^ ds.length + value u ds := by
  induction ds generalizing k with
  | nil => simp [value]
  | cons d ds ih =>
      rw [value, List.foldl_cons, List.foldl_cons, ih, ih, List.length_cons, pow_succ]
      ring

theorem value_append (ds es : List Char) :
    value u (ds ++ es) = value u ds * 10 ^ es.length + value u es := by
  rw [value, List.foldl_append, foldl_value]
  rfl

theorem value_eq_ofDigitChars (hu : u.Ascii) {ds : List Char} (h : ∀ c ∈ ds, c.isDigit = true) :
    value u ds = Nat.ofDigitChars 10 ds 0 := by
  rw [value, Nat.ofDigitChars]
  refine List.foldl_ext _ _ _ fun n c hc => ?_
  rw [hu.digit c (h c hc)]
  rfl

theorem value_decimal (hu : u.Ascii) (n : ℕ) : value u (decimal n) = n := by
  rw [value_eq_ofDigitChars hu fun _ hc => isDigit_of_mem_decimal hc, decimal,
    Nat.ofDigitChars_ten_toDigits]

theorem value_leftpad (hu : u.Ascii) (n : ℕ) : value u ((decimal n).leftpad 9 '0') = n := by
  have hzeros : ∀ k, value u (List.replicate k '0') = 0 := by
    intro k
    induction k with
    | zero => rfl
    | succ k ih =>
        rw [List.replicate_succ, value, List.foldl_cons, hu.digit '0' (by decide)]
        exact ih
  rw [List.leftpad, value_append, hzeros, value_decimal hu, zero_mul, zero_add]

theorem int_decimal (hu : u.Ascii) (n : ℕ) : int u (decimal n) = some n := by
  rw [int_isSome (decimal_ne_nil n) fun c hc => hu.isDigit (isDigit_of_mem_decimal hc),
    value_decimal hu]

/-- The time of a line is read exactly. -/
theorem float_seconds (hu : u.Ascii) (K : Type) [Field K] (ns : ℕ) :
    float u (seconds ns) = some ((ns : K) / ((10 ^ 9 : ℕ) : K)) := by
  have hpoint : ∀ c ∈ decimal (ns / 1000000000), decide (c ≠ '.') = true := by
    intro c hc
    refine decide_eq_true fun heq => ?_
    exact absurd (isDigit_of_mem_decimal hc) (by rw [heq]; decide)
  have hwhole : (seconds ns).takeWhile (· ≠ '.') = decimal (ns / 1000000000) := by
    rw [seconds, List.takeWhile_append_of_pos hpoint, List.takeWhile_cons_of_neg (by decide),
      List.append_nil]
  have hfrac : (seconds ns).dropWhile (· ≠ '.') =
      '.' :: (decimal (ns % 1000000000)).leftpad 9 '0' := by
    rw [seconds, List.dropWhile_append_of_pos hpoint, List.dropWhile_cons_of_neg (by decide)]
  have hlen : ((decimal (ns % 1000000000)).leftpad 9 '0').length = 9 := by
    have hle : (decimal (ns % 1000000000)).length ≤ 9 :=
      Nat.toDigits_length 10 _ 9 (by norm_num) (Nat.mod_lt _ (by norm_num))
    rw [List.length_leftpad]
    exact max_eq_left hle
  have hdigits : ∀ c ∈ decimal (ns / 1000000000) ++ (decimal (ns % 1000000000)).leftpad 9 '0',
      u.isDigit c = true := by
    intro c hc
    rcases List.mem_append.mp hc with hc | hc
    · exact hu.isDigit (isDigit_of_mem_decimal hc)
    · exact hu.isDigit (isDigit_of_mem_leftpad hc)
  have hvalue : value u (decimal (ns / 1000000000) ++ (decimal (ns % 1000000000)).leftpad 9 '0') =
      ns := by
    rw [value_append, value_decimal hu, value_leftpad hu, hlen]
    exact Nat.div_add_mod' ns 1000000000
  simp only [float, hwhole, hfrac, List.drop_succ_cons, List.drop_zero, hlen]
  rw [int_isSome (by simp [decimal_ne_nil]) hdigits, hvalue]
  rfl

end Numbers

/-! ## Words -/

section Words

variable {u : Unicode}

theorem Visible.append {v w : List Char} (hv : Visible v) (hw : Visible w) : Visible (v ++ w) :=
  List.forall_mem_append.mpr ⟨hv, hw⟩

theorem Visible.space (hu : u.Ascii) {w : List Char} (h : Visible w) {c : Char} (hc : c ∈ w) :
    u.space c = false := hu.visible c (h c hc).1 (h c hc).2

/-- A space lies behind a word. -/
theorem Visible.skip (hu : u.Ascii) {w front s t : List Char} {c : Char} (hw : Visible w)
    (hc : u.space c = true) (h : w ++ s = front ++ c :: t) :
    ∃ as, front = w ++ as ∧ s = as ++ c :: t := by
  rcases List.append_eq_append_iff.mp h with ⟨as, hfront, hs⟩ | ⟨bs, hfront, hs⟩
  · exact ⟨as, hfront, hs⟩
  · cases bs with
    | nil => exact ⟨[], by rw [hfront, List.append_nil, List.append_nil], hs.symm⟩
    | cons d bs =>
        obtain ⟨rfl, _⟩ := List.cons.inj hs
        have hmem : c ∈ w := by simp [hfront]
        rw [hw.space hu hmem] at hc
        cases hc

/-- A text without spaces that stands before a space is part of the first word. -/
theorem Visible.prefix_of_space (hu : u.Ascii) {w l s t : List Char} {c : Char} (hl : Visible l)
    (hc : u.space c = true) (h : w ++ c :: s = l ++ t) :
    ∃ more, w = l ++ more ∧ t = more ++ c :: s := by
  rcases List.append_eq_append_iff.mp h with ⟨as, hl', ht⟩ | ⟨bs, hw, ht⟩
  · cases as with
    | nil => exact ⟨[], by rw [hl', List.append_nil, List.append_nil], ht.symm⟩
    | cons d as =>
        obtain ⟨rfl, _⟩ := List.cons.inj ht
        rw [hl.space hu (c := c) (by simp [hl'])] at hc
        cases hc
  · exact ⟨bs, hw, ht⟩

theorem spaced_cons (w : List Char) (ws : List (List Char)) :
    spaced (w :: ws) ++ ['\n'] = ' ' :: (w ++ (spaced ws ++ ['\n'])) := by
  simp [spaced]

theorem spaced_eq_cons (hu : u.Ascii) (ws : List (List Char)) :
    ∃ c s, spaced ws ++ ['\n'] = c :: s ∧ u.space c = true ∧ u.isDigit c = false := by
  cases ws with
  | nil => exact ⟨'\n', [], rfl, hu.newline, hu.not_isDigit (by decide) (by decide)⟩
  | cons w ws => exact ⟨' ', _, spaced_cons w ws, hu.blank, hu.not_isDigit (by decide) (by decide)⟩

/-- What follows a space in a line begins a word. -/
theorem word_of_space (hu : u.Ascii) {l : List Char} (hl : Visible l) (hne : l ≠ []) {c : Char}
    (hc : u.space c = true) {rest w front : List Char} {ws : List (List Char)} (hw : Visible w)
    (hws : ∀ v ∈ ws, Visible v)
    (h : w ++ (spaced ws ++ ['\n']) = front ++ c :: (l ++ rest)) :
    ∃ before more after, ws = before ++ (l ++ more) :: after ∧
      rest = more ++ (spaced after ++ ['\n']) := by
  induction ws generalizing w front with
  | nil =>
      obtain ⟨as, _, hrest⟩ := hw.skip hu hc h
      have hlen := congrArg List.length hrest
      have hpos := List.length_pos_iff.mpr hne
      simp only [spaced, List.flatMap_nil, List.nil_append, List.length_append, List.length_cons,
        List.length_nil] at hlen
      omega
  | cons v ws ih =>
      obtain ⟨hv, hws⟩ := List.forall_mem_cons.mp hws
      rw [spaced_cons] at h
      obtain ⟨as, _, has⟩ := hw.skip hu hc h
      cases as with
      | cons d as =>
          obtain ⟨before, more, after, rfl, hrest⟩ := ih hv hws (List.cons.inj has).2
          exact ⟨v :: before, more, after, rfl, hrest⟩
      | nil =>
          obtain ⟨d, s, hspaced, hd, _⟩ := spaced_eq_cons hu ws
          have hword := (List.cons.inj has).2
          rw [hspaced] at hword
          obtain ⟨more, rfl, hrest⟩ := hl.prefix_of_space hu hd hword
          exact ⟨[], more, ws, rfl, by rw [hspaced, hrest]⟩

/-- Two words that occur one after the other only once. -/
theorem eq_nil_of_once (hu : u.Ascii) {w l v x t : List Char} {ws : List (List Char)}
    (hw : Visible w) (hws : ∀ y ∈ (l ++ v) :: ws, Visible y) (hne : l ≠ [])
    (honce : ∀ more, l ++ more ∉ ws)
    (h : w ++ (spaced ((l ++ v) :: ws) ++ ['\n']) = x ++ (w ++ ' ' :: (l ++ t))) : x = [] := by
  have hl : Visible l := fun c hc => hws _ List.mem_cons_self c (List.mem_append_left v hc)
  rw [← List.append_assoc x] at h
  obtain ⟨before, more, after, hwords, ht⟩ := word_of_space hu hl hne hu.blank hw hws h
  cases before with
  | nil =>
      obtain ⟨hword, rfl⟩ := List.cons.inj hwords
      obtain rfl := List.append_cancel_left hword
      rw [ht, spaced_cons, List.append_assoc x, List.append_assoc l] at h
      exact List.self_eq_append_left.mp h
  | cons y before =>
      obtain ⟨_, rfl⟩ := List.cons.inj hwords
      exact absurd (List.mem_append_right before List.mem_cons_self) (honce more)

/-- No word begins with a text. -/
def Without (l : String) (ws : List (List Char)) : Prop := ∀ w ∈ ws, l.toList.isPrefixOf w = false

instance (l : String) (ws : List (List Char)) : Decidable (Without l ws) :=
  inferInstanceAs (Decidable (∀ w ∈ ws, l.toList.isPrefixOf w = false))

theorem append_ne {l w : List Char} (h : l.isPrefixOf w = false) (more : List Char) :
    l ++ more ≠ w := by
  rintro rfl
  rw [List.isPrefixOf_iff_prefix.mpr (List.prefix_append _ _)] at h
  cases h

theorem Without.notMem {l : String} {ws : List (List Char)} (h : Without l ws) (more : List Char) :
    l.toList ++ more ∉ ws := fun hmem => append_ne (h _ hmem) more rfl

theorem without_append {l : String} {ws ws' : List (List Char)} :
    Without l (ws ++ ws') ↔ Without l ws ∧ Without l ws' := List.forall_mem_append

theorem without_cons {l : String} {w : List Char} {ws : List (List Char)} :
    Without l (w :: ws) ↔ l.toList.isPrefixOf w = false ∧ Without l ws := List.forall_mem_cons

theorem without_nil (l : String) : Without l [] := nofun

theorem isPrefixOf_number {l : String} {delay : List Char} (h : IsNumber delay)
    (hl : l.toList.any fun c => decide (c ∉ "0123456789.+-einfams".toList)) :
    l.toList.isPrefixOf (delay ++ "ms".toList) = false := by
  obtain ⟨c, hc, hno⟩ := List.any_eq_true.mp hl
  refine Bool.eq_false_iff.mpr fun htrue => of_decide_eq_true hno ?_
  have hmem := (List.isPrefixOf_iff_prefix.mp htrue).subset hc
  have hsub : "0123456789.+-einfa".toList ⊆ "0123456789.+-einfams".toList := by decide
  have hms : "ms".toList ⊆ "0123456789.+-einfams".toList := by decide
  rcases List.mem_append.mp hmem with hmem | hmem
  · exact hsub (h c hmem)
  · exact hms hmem

theorem without_deferred {l text : String} {delay : List Char} (h : IsNumber delay)
    (htext : Without l (words text))
    (hl : l.toList.any fun c => decide (c ∉ "0123456789.+-einfams".toList)) :
    Without l (words text ++ [delay ++ "ms".toList]) :=
  without_append.mpr ⟨htext, without_cons.mpr ⟨isPrefixOf_number h hl, without_nil l⟩⟩

/-- The texts that no decision begins a word with. -/
def foreign : List String := ["ndn.", "caf.", "alert=", "in="]

theorem Decision.without_foreign {d : Decision} (h : d.Valid) :
    ∀ l ∈ foreign, Without l d.words := by
  have hclosed : ∀ l ∈ foreign,
      Without l (LogLines.words "decision=forward to Rsu deferred until") ∧
      Without l (LogLines.words "decision=forward to vehicles deferred until") ∧
      l.toList.any fun c => decide (c ∉ "0123456789.+-einfams".toList) := by decide
  cases d with
  | toRsuDeferred delay =>
      exact fun l hl => without_deferred h (hclosed l hl).1 (hclosed l hl).2.2
  | toVehiclesDeferred delay =>
      exact fun l hl => without_deferred h (hclosed l hl).2.1 (hclosed l hl).2.2
  | _ => decide

theorem Decision.without_duplicate {d : Decision} (h : d.Valid) (hd : d ≠ .duplicate) :
    Without "duplicate" d.words := by
  cases d with
  | duplicate => exact absurd rfl hd
  | toRsuDeferred delay => exact without_deferred h (by decide) (by decide)
  | toVehiclesDeferred delay => exact without_deferred h (by decide) (by decide)
  | _ => decide

theorem Decision.visible_words {d : Decision} (h : d.Valid) : ∀ w ∈ d.words, Visible w := by
  have hnumber : Visible "0123456789.+-einfa".toList := by decide
  have hdeferred : ∀ {text : String} {delay : List Char}, IsNumber delay →
      (∀ w ∈ LogLines.words text, Visible w) →
        ∀ w ∈ LogLines.words text ++ [delay ++ "ms".toList], Visible w := by
    intro text delay hdelay htext w hw
    rcases List.mem_append.mp hw with hw | hw
    · exact htext w hw
    · obtain rfl := List.mem_singleton.mp hw
      exact Visible.append (fun c hc => hnumber c (hdelay c hc)) (by decide)
  cases d with
  | toRsuDeferred delay => exact hdeferred h (by decide)
  | toVehiclesDeferred delay => exact hdeferred h (by decide)
  | _ => decide

theorem IsName.exists_eq {name : AlertName} (h : IsName name) : ∃ rest, name = '/' :: rest := by
  obtain ⟨hhead, _⟩ := h
  cases name with
  | nil => cases hhead
  | cons c rest =>
      obtain rfl := Option.some.inj hhead
      exact ⟨rest, rfl⟩

theorem visible_ingress (face endpoint : ℕ) : Visible (Message.ingress face endpoint) :=
  Visible.append (Visible.append (List.forall_mem_cons.mpr ⟨by decide, visible_decimal face⟩)
    (List.forall_mem_cons.mpr ⟨by decide, visible_decimal endpoint⟩)) (by decide)

namespace Message

variable {m : Message}

/-- No word of a message looks like a function. -/
theorem without_component (h : m.Valid) {l : String} (hl : l = "ndn." ∨ l = "caf.") :
    Without l m.words := by
  cases m with
  | conditionFailed => rcases hl with rfl | rfl <;> decide
  | startApplication => rcases hl with rfl | rfl <;> decide
  | send name counts =>
      cases counts with
      | none =>
          rcases hl with rfl | rfl <;>
            exact without_append.mpr ⟨by decide, without_cons.mpr ⟨rfl, without_nil _⟩⟩
      | some counts =>
          rcases hl with rfl | rfl <;>
            exact without_append.mpr ⟨by decide, without_cons.mpr ⟨rfl, without_cons.mpr
              ⟨rfl, without_cons.mpr ⟨rfl, without_nil _⟩⟩⟩⟩
  | received name =>
      obtain ⟨rest, rfl⟩ := IsName.exists_eq h
      rcases hl with rfl | rfl <;>
        exact without_append.mpr ⟨by decide, without_cons.mpr ⟨rfl, without_nil _⟩⟩
  | interestTimeout mPrefix =>
      obtain ⟨rest, rfl⟩ := IsName.exists_eq h
      rcases hl with rfl | rfl <;>
        exact without_append.mpr ⟨by decide, without_cons.mpr ⟨rfl, without_nil _⟩⟩
  | incoming face name =>
      rcases hl with rfl | rfl <;>
        exact without_append.mpr ⟨by decide, without_cons.mpr ⟨rfl, without_cons.mpr
          ⟨rfl, without_nil _⟩⟩⟩
  | outgoing face name =>
      rcases hl with rfl | rfl <;>
        exact without_append.mpr ⟨by decide, without_cons.mpr ⟨rfl, without_cons.mpr
          ⟨rfl, without_nil _⟩⟩⟩
  | decided handler face endpoint name decision =>
      have hforeign : l ∈ foreign := by rcases hl with rfl | rfl <;> decide
      refine without_append.mpr ⟨without_append.mpr ⟨without_append.mpr ⟨?_, ?_⟩,
        without_cons.mpr ⟨?_, without_nil l⟩⟩, Decision.without_foreign h.2 l hforeign⟩
      · rcases hl with rfl | rfl <;> decide
      · split
        · rcases hl with rfl | rfl <;>
            exact without_cons.mpr ⟨rfl, without_cons.mpr ⟨rfl, without_nil _⟩⟩
        · rcases hl with rfl | rfl <;> exact without_cons.mpr ⟨rfl, without_nil _⟩
      · rcases hl with rfl | rfl <;> rfl

theorem visible_words (h : m.Valid) : ∀ w ∈ m.words, Visible w := by
  have hlabel : ∀ l : String, Visible l.toList → ∀ {v : List Char}, Visible v →
      Visible (l.toList ++ v) := fun _ hl _ hv => hl.append hv
  cases m with
  | conditionFailed => decide
  | startApplication => decide
  | send name counts =>
      have hname := hlabel "alert=" (by decide) h.2
      cases counts with
      | none => exact List.forall_mem_append.mpr ⟨by decide, List.forall_mem_singleton.mpr hname⟩
      | some counts =>
          exact List.forall_mem_append.mpr ⟨by decide, List.forall_mem_cons.mpr ⟨hname,
            List.forall_mem_cons.mpr ⟨hlabel "vehCount=" (by decide) (visible_decimal _),
              List.forall_mem_singleton.mpr (hlabel "rsuCount=" (by decide) (visible_decimal _))⟩⟩⟩
  | received name =>
      exact List.forall_mem_append.mpr ⟨by decide, List.forall_mem_singleton.mpr h.2⟩
  | interestTimeout mPrefix =>
      exact List.forall_mem_append.mpr ⟨by decide, List.forall_mem_singleton.mpr h.2⟩
  | incoming face name =>
      exact List.forall_mem_append.mpr ⟨by decide, List.forall_mem_cons.mpr
        ⟨hlabel "in=" (by decide) (visible_decimal face),
          List.forall_mem_singleton.mpr (hlabel "alert=" (by decide) h.2)⟩⟩
  | outgoing face name =>
      exact List.forall_mem_append.mpr ⟨by decide, List.forall_mem_cons.mpr
        ⟨hlabel "out=" (by decide) (visible_decimal face),
          List.forall_mem_singleton.mpr (hlabel "alert=" (by decide) h.2)⟩⟩
  | decided handler face endpoint name decision =>
      have hingress := visible_ingress face endpoint
      refine List.forall_mem_append.mpr ⟨List.forall_mem_append.mpr ⟨List.forall_mem_append.mpr
        ⟨by decide, ?_⟩, List.forall_mem_singleton.mpr (hlabel "alert=" (by decide) h.1.2)⟩,
          Decision.visible_words h.2⟩
      split
      · exact List.forall_mem_cons.mpr ⟨by decide, List.forall_mem_singleton.mpr hingress⟩
      · exact List.forall_mem_singleton.mpr (hlabel "in=" (by decide) hingress)

/-- The functions that log. -/
def functions : List String :=
  ["ndn.RandomAlertProducer:SendAlert():", "ndn.RandomAlertProducer:AlertSupplier():",
    "ndn.AlertConsumer:StartApplication():", "ndn.AlertConsumer:doReceive():",
    "ndn.AlertConsumer:handleTimeout():", "caf.Forwarder:OnIncomingAlert():",
    "caf.Forwarder:OnOutgoingAlert():", "caf.Forwarder:AlertVehicleHandler():",
    "caf.Forwarder:AlertRsuHandler():"]

theorem function_mem (m : Message) : m.function ∈ functions := by
  cases m with
  | decided handler face endpoint name decision => cases handler <;> simp [function, functions]
  | _ => simp [function, functions]

theorem visible_function (m : Message) : Visible m.function.toList :=
  (by decide : ∀ s ∈ functions, Visible s.toList) _ m.function_mem

theorem function_ne_nil (m : Message) : m.function.toList ≠ [] :=
  (by decide : ∀ s ∈ functions, s.toList ≠ []) _ m.function_mem

end Message

end Words

end LogLines

end Cafe
