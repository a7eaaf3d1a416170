import Cafe.AlertMetrics
import Cafe.LogLines
import Cafe.LoggedNames

/-!
# Reading lines back

The patterns find in each line what it says, and no more. A table of a log is
therefore one of the events that were logged.
-/

open GreedyPattern Labelled EventQueue

namespace Cafe

namespace LogLines

open AlertLog

/-! ## The beginning of a line -/

section Stamp

variable {u : Unicode}

/-- What a line says after its function. -/
def Message.rest (m : Message) (more : List Char) : List Char := more ++ (spaced m.words ++ ['\n'])

theorem visible_seconds (ns : ℕ) : Visible (seconds ns) :=
  (visible_decimal _).append (List.forall_mem_cons.mpr
    ⟨by decide, fun _ hc => visible_of_isDigit (isDigit_of_mem_leftpad hc)⟩)

theorem visible_stamp (ns : ℕ) : Visible ('+' :: seconds ns ++ ['s']) :=
  Visible.append (List.forall_mem_cons.mpr ⟨by decide, visible_seconds ns⟩) (by decide)

theorem LogLine.text_eq (line : LogLine) : line.text =
    ('+' :: seconds line.time ++ ['s']) ++
      (spaced (decimal line.node :: line.message.function.toList :: line.message.words) ++
        ['\n']) := by
  rw [text, List.append_assoc]

theorem stamp_append (ps : List (Piece AlertLog.Group)) : stamp u ++ ps =
    GreedyPattern.text "+" ++ (.group .time [.plus fun c => u.isDigit c || c == '.'] ::
      (GreedyPattern.text "s" ++ (.item (.plus u.space) :: .group .node [.plus u.isDigit] ::
        .item (.plus u.space) :: ps))) := by
  simp only [stamp, List.flatten_cons, List.flatten_nil, List.append_assoc, List.append_nil,
    List.cons_append, List.nil_append]

/-- A match of the stamp and a function ends at a word that begins with the function. -/
theorem of_matches_stamp {function : String} {ps : List (Piece Group)} {s : List Char}
    (h : Matches (stamp u ++ (GreedyPattern.text function ++ ps)) s) :
    ∃ front c rest, s = front ++ c :: (function.toList ++ rest) ∧ u.space c = true ∧
      Matches ps rest := by
  rw [stamp_append] at h
  obtain ⟨s₁, rfl, h₁⟩ := matches_text.mp h
  obtain ⟨time, s₂, rfl, _, _, h₂⟩ := matches_group.mp h₁
  obtain ⟨s₃, rfl, h₃⟩ := matches_text.mp h₂
  obtain ⟨blank, s₄, rfl, _, _, h₄⟩ := matches_plus.mp h₃
  obtain ⟨node, s₅, rfl, _, _, h₅⟩ := matches_group.mp h₄
  obtain ⟨front, c, rest, rfl, hc, hrest⟩ := of_matches_plus_text h₅
  refine ⟨"+".toList ++ (time ++ ("s".toList ++ (blank ++ (node ++ front)))), c, rest, ?_, hc,
    hrest⟩
  simp only [List.append_assoc]

/-- The components that are logged. -/
def IsComponent (l : List Char) : Prop :=
  ∃ more, l = "ndn.".toList ++ more ∨ l = "caf.".toList ++ more

theorem IsComponent.notMem_words {m : Message} (h : m.Valid) {l : List Char} (hl : IsComponent l)
    (more : List Char) : l ++ more ∉ m.words := by
  obtain ⟨l', rfl | rfl⟩ := hl
  · rw [List.append_assoc]
    exact (Message.without_component h (Or.inl rfl)).notMem (l' ++ more)
  · rw [List.append_assoc]
    exact (Message.without_component h (Or.inr rfl)).notMem (l' ++ more)

theorem IsComponent.ne_decimal {l : List Char} (hl : IsComponent l) (more : List Char) (n : ℕ) :
    l ++ more ≠ decimal n := by
  intro heq
  have hhead : ∀ c, (decimal n).head? = some c → c.isDigit = true := fun c hc =>
    isDigit_of_mem_decimal (List.mem_of_mem_head? hc)
  rw [← heq] at hhead
  obtain ⟨l', rfl | rfl⟩ := hl
  · exact absurd (hhead 'n' rfl) (by decide)
  · exact absurd (hhead 'c' rfl) (by decide)

/-- A line is found only by the patterns of its function. -/
theorem search_eq_none_of_function (hu : u.Ascii) {line : LogLine} (hvalid : line.message.Valid)
    {function : String} (hvisible : Visible function.toList)
    (hcomponent : IsComponent function.toList) {ps : List (Piece Group)}
    (h : ∀ more, line.message.function.toList = function.toList ++ more →
      ¬ Matches ps (line.message.rest more)) :
    search (stamp u ++ (GreedyPattern.text function ++ ps)) line.text = none := by
  have hne : function.toList ≠ [] := by
    intro hnil
    obtain ⟨l, hl | hl⟩ := hcomponent
    · rw [hnil] at hl
      cases hl
    · rw [hnil] at hl
      cases hl
  refine search_eq_none fun x t heq hmatch => ?_
  obtain ⟨front, c, rest, rfl, hc, hrest⟩ := of_matches_stamp hmatch
  rw [LogLine.text_eq, ← List.append_assoc x] at heq
  obtain ⟨before, more, after, hwords, rfl⟩ := word_of_space hu hvisible hne hc
    (visible_stamp line.time) (List.forall_mem_cons.mpr ⟨visible_decimal line.node,
      List.forall_mem_cons.mpr ⟨line.message.visible_function,
        line.message.visible_words hvalid⟩⟩) heq
  match before, hwords with
  | [], hwords => exact hcomponent.ne_decimal more line.node (List.cons.inj hwords).1.symm
  | [_], hwords =>
      obtain ⟨hfunction, hafter⟩ := List.cons.inj (List.cons.inj hwords).2
      exact h more hfunction (by rw [Message.rest, hafter]; exact hrest)
  | _ :: _ :: before, hwords =>
      have hafter := (List.cons.inj (List.cons.inj hwords).2).2
      refine hcomponent.notMem_words hvalid more ?_
      rw [hafter]
      exact List.mem_append_right before List.mem_cons_self

/-- The patterns of its function read the time and the node of a line. -/
theorem first_stamp (hu : u.Ascii) {line : LogLine} {function : String} {more : List Char}
    (hfunction : line.message.function.toList = function.toList ++ more) {ps : List (Piece Group)}
    {m : List (Group × List Char)} (h : First ps (line.message.rest more) m) :
    First (stamp u ++ (GreedyPattern.text function ++ ps)) line.text
      ((.time, seconds line.time) :: (.node, decimal line.node) :: m) := by
  have htext : line.text = "+".toList ++ (seconds line.time ++ ("s".toList ++ ([' '] ++
      (decimal line.node ++ ([' '] ++ (function.toList ++ line.message.rest more)))))) := by
    rw [LogLine.text_eq, hfunction]
    simp [spaced, Message.rest]
  have htime : ∀ c ∈ seconds line.time, (u.isDigit c || c == '.') = true := by
    intro c hc
    rcases List.mem_append.mp hc with hc | hc
    · rw [hu.isDigit (isDigit_of_mem_decimal hc), Bool.true_or]
    · rcases List.mem_cons.mp hc with rfl | hc
      · rw [beq_self_eq_true, Bool.or_true]
      · rw [hu.isDigit (isDigit_of_mem_leftpad hc), Bool.true_or]
  have hletter : (u.isDigit 's' || 's' == '.') = false := by
    rw [hu.not_isDigit (by decide) (by decide)]
    rfl
  have hblank : u.isDigit ' ' = false := hu.not_isDigit (by decide) (by decide)
  have hspace : ∀ c ∈ [' '], u.space c = true := List.forall_mem_singleton.mpr hu.blank
  rw [htext, stamp_append]
  refine .text "+" (.group AlertLog.Group.time (by simp [seconds]) htime ?_ (.text "s" ?_))
  · rintro c hc
    obtain rfl := Option.some.inj hc
    exact hletter
  refine .plus (List.cons_ne_nil _ _) hspace ?_ (.group AlertLog.Group.node (decimal_ne_nil _)
    (fun c hc => hu.isDigit (isDigit_of_mem_decimal hc)) ?_ (.plus (List.cons_ne_nil _ _) hspace ?_
      (.text function h)))
  · intro c hc
    rw [List.head?_append_of_ne_nil _ (decimal_ne_nil _)] at hc
    exact (visible_decimal _).space hu (List.mem_of_mem_head? hc)
  · intro c hc
    obtain rfl := Option.some.inj hc
    exact hblank
  · intro c hc
    rw [Message.rest, ← List.append_assoc, ← hfunction] at hc
    rw [List.head?_append_of_ne_nil _ line.message.function_ne_nil] at hc
    exact line.message.visible_function.space hu (List.mem_of_mem_head? hc)

/-- A pattern finds a line if the line is of its function and the rest matches. -/
theorem isSome_search_iff (hu : u.Ascii) {line : LogLine} (hvalid : line.message.Valid)
    {function : String} (hvisible : Visible function.toList)
    (hcomponent : IsComponent function.toList) {ps : List (Piece Group)} :
    (search (stamp u ++ (GreedyPattern.text function ++ ps)) line.text).isSome = true ↔
      ∃ more, line.message.function.toList = function.toList ++ more ∧
        Matches ps (line.message.rest more) := by
  constructor
  · intro h
    by_contra hno
    rw [search_eq_none_of_function hu hvalid hvisible hcomponent
      fun more hfunction hmatch => hno ⟨more, hfunction, hmatch⟩] at h
    cases h
  · rintro ⟨more, hfunction, hmatch⟩
    obtain ⟨m, hm⟩ := hmatch.first
    rw [First.search (first_stamp hu hfunction hm)]
    rfl

end Stamp

/-! ## Producers and consumers -/

section Applications

variable {u : Unicode} {line : LogLine} {name : AlertName}

theorem producerRe_eq (u : Unicode) : producerRe u =
    stamp u ++ (GreedyPattern.text "ndn.RandomAlertProducer" ++ (.item anything ::
      (GreedyPattern.text "Send alert=" ++ (.group .name [nonSpace u] :: .item (.plus u.space) ::
        (GreedyPattern.text "vehCount=" ++ [.group .vc [.plus u.isDigit]]))))) := by
  simp [producerRe]

theorem consumerRe_eq (u : Unicode) : consumerRe u =
    stamp u ++ (GreedyPattern.text "ndn.AlertConsumer" ++ (.item anything ::
      (GreedyPattern.text "Received alert:" ++ (.item (.plus u.space) ::
        [.group .name [nonSpace u]])))) := by
  simp [consumerRe]

theorem Message.visible_more {m : Message} {function : String} {more : List Char}
    (h : m.function.toList = function.toList ++ more) : Visible more := by
  intro c hc
  refine m.visible_function c ?_
  rw [h]
  exact List.mem_append_right _ hc

/-- What follows a space in a message begins one of its words. -/
theorem Message.word_of_space (hu : u.Ascii) {m : Message} (h : m.Valid) {function l : String}
    {more front rest : List Char} {c : Char} (hl : Visible l.toList) (hne : l.toList ≠ [])
    (hc : u.space c = true) (hfunction : m.function.toList = function.toList ++ more)
    (heq : m.rest more = front ++ c :: (l.toList ++ rest)) :
    ∃ before v after, m.words = before ++ (l.toList ++ v) :: after ∧
      rest = v ++ (spaced after ++ ['\n']) :=
  LogLines.word_of_space hu hl hne hc (visible_more hfunction) (m.visible_words h) heq

theorem isComponent_ndn {l : List Char} (h : l.take 4 = "ndn.".toList) : IsComponent l :=
  ⟨l.drop 4, Or.inl (by rw [← h, List.take_append_drop])⟩

theorem isComponent_caf {l : List Char} (h : l.take 4 = "caf.".toList) : IsComponent l :=
  ⟨l.drop 4, Or.inr (by rw [← h, List.take_append_drop])⟩

theorem Message.without_counts {m : Message} {more : List Char}
    (hfunction : m.function.toList = "ndn.RandomAlertProducer".toList ++ more)
    (h : ∀ name counts, m ≠ .send name (some counts)) : Without "vehCount=" m.words := by
  cases m with
  | conditionFailed => decide
  | send name counts =>
      cases counts with
      | none => exact without_append.mpr ⟨by decide, without_cons.mpr ⟨rfl, without_nil _⟩⟩
      | some counts => exact absurd rfl (h name counts)
  | decided handler face endpoint name decision =>
      cases handler <;>
        exact absurd hfunction.symm (append_ne (by simp only [function]; decide) more)
  | _ => exact absurd hfunction.symm (append_ne (by simp only [function]; decide) more)

theorem Message.without_alert {m : Message} {more : List Char}
    (hfunction : m.function.toList = "ndn.AlertConsumer".toList ++ more)
    (hvalid : m.Valid) (h : ∀ name, m ≠ .received name) : Without "alert:" m.words := by
  cases m with
  | startApplication => decide
  | received name => exact absurd rfl (h name)
  | interestTimeout mPrefix =>
      obtain ⟨rest, rfl⟩ := IsName.exists_eq hvalid
      exact without_append.mpr ⟨by decide, without_cons.mpr ⟨rfl, without_nil _⟩⟩
  | decided handler face endpoint name decision =>
      cases handler <;>
        exact absurd hfunction.symm (append_ne (by simp only [function]; decide) more)
  | _ => exact absurd hfunction.symm (append_ne (by simp only [function]; decide) more)

/-- Only a line with counts is found to be one of a producer. -/
theorem search_producer_eq_none (hu : u.Ascii) (hvalid : line.message.Valid)
    (h : ∀ name counts, line.message ≠ .send name (some counts)) :
    search (producerRe u) line.text = none := by
  rw [producerRe_eq]
  refine search_eq_none_of_function hu hvalid (by decide) (isComponent_ndn (by decide))
    fun more hfunction hmatch => ?_
  obtain ⟨run, s₁, heq, _, h₁⟩ := matches_star.mp hmatch
  obtain ⟨s₂, rfl, h₂⟩ := matches_text.mp h₁
  obtain ⟨name, s₃, rfl, _, _, h₃⟩ := matches_group.mp h₂
  obtain ⟨front, c, rest, rfl, hc, _⟩ := of_matches_plus_text h₃
  simp only [← List.append_assoc] at heq
  obtain ⟨before, v, after, hwords, _⟩ :=
    Message.word_of_space (l := "vehCount=") hu hvalid (by decide) (by decide) hc hfunction heq
  refine (Message.without_counts hfunction h).notMem v ?_
  rw [hwords]
  exact List.mem_append_right before List.mem_cons_self

/-- Only a line about a reception is found to be one of a consumer. -/
theorem search_consumer_eq_none (hu : u.Ascii) (hvalid : line.message.Valid)
    (h : ∀ name, line.message ≠ .received name) : search (consumerRe u) line.text = none := by
  rw [consumerRe_eq]
  refine search_eq_none_of_function hu hvalid (by decide) (isComponent_ndn (by decide))
    fun more hfunction hmatch => ?_
  obtain ⟨run, s₁, heq, _, h₁⟩ := matches_star.mp hmatch
  obtain ⟨s₂, rfl, _⟩ := matches_text.mp h₁
  have hsplit : run ++ ("Received alert:".toList ++ s₂) =
      (run ++ "Received".toList) ++ ' ' :: ("alert:".toList ++ s₂) := by
    rw [List.append_assoc]
    rfl
  rw [hsplit] at heq
  obtain ⟨before, v, after, hwords, _⟩ :=
    Message.word_of_space (l := "alert:") hu hvalid (by decide) (by decide) hu.blank hfunction heq
  refine (Message.without_alert hfunction hvalid h).notMem v ?_
  rw [hwords]
  exact List.mem_append_right before List.mem_cons_self

theorem IsName.ne_nil (h : IsName name) : name ≠ [] := by
  obtain ⟨rest, rfl⟩ := h.exists_eq
  exact List.cons_ne_nil _ _

theorem IsName.nonSpace (hu : u.Ascii) (h : IsName name) : ∀ c ∈ name, (!u.space c) = true := by
  intro c hc
  rw [h.2.space hu hc]
  rfl

theorem search_consumer (hu : u.Ascii) (hname : IsName name)
    (hline : line.message = .received name) :
    search (consumerRe u) line.text = some [(.time, seconds line.time),
      (.node, decimal line.node), (.name, name)] := by
  have hfunction : line.message.function.toList =
      "ndn.AlertConsumer".toList ++ ":doReceive():".toList := by
    simp only [hline, Message.function]
    decide
  have hrest : line.message.rest ":doReceive():".toList = ":doReceive(): [INFO ] ".toList ++
      ("Received".toList ++ (spaced ["alert:".toList ++ [], name] ++ ['\n'])) := by
    rw [hline]
    rfl
  obtain ⟨start, hstart⟩ := hname.exists_eq
  rw [consumerRe_eq]
  refine First.search (first_stamp hu hfunction ?_)
  rw [hrest]
  refine First.star (List.all_eq_true.mp (by decide)) (fun x t heq hx => ?_) ?_
  · by_contra hmatch
    obtain ⟨t, rfl, _⟩ := matches_text.mp hmatch
    have hother : Without "alert:" [name] := by
      rw [hstart]
      exact without_cons.mpr ⟨rfl, without_nil _⟩
    exact hx (eq_nil_of_once hu (l := "alert:".toList) (v := []) (by decide)
      (List.forall_mem_cons.mpr ⟨by decide, List.forall_mem_singleton.mpr hname.2⟩) (by decide)
        hother.notMem heq)
  · have hwords : "Received".toList ++ (spaced ["alert:".toList ++ [], name] ++ ['\n']) =
        "Received alert:".toList ++ ([' '] ++ (name ++ ['\n'])) := by
      simp [spaced]
    rw [hwords]
    refine .text "Received alert:" (.plus (List.cons_ne_nil _ _)
      (List.forall_mem_singleton.mpr hu.blank) ?_ (.group AlertLog.Group.name hname.ne_nil
        (hname.nonSpace hu) ?_ (.nil _)))
    · intro c hc
      rw [List.head?_append_of_ne_nil _ hname.ne_nil] at hc
      exact hname.2.space hu (List.mem_of_mem_head? hc)
    · rintro c hc
      obtain rfl := Option.some.inj hc
      rw [hu.newline]
      rfl

theorem search_producer (hu : u.Ascii) {vehCount rsuCount : ℕ} (hname : IsName name)
    (hline : line.message = .send name (some (vehCount, rsuCount))) :
    search (producerRe u) line.text = some [(.time, seconds line.time),
      (.node, decimal line.node), (.name, name), (.vc, decimal vehCount)] := by
  have hfunction : line.message.function.toList =
      "ndn.RandomAlertProducer".toList ++ ":AlertSupplier():".toList := by
    simp only [hline, Message.function]
    decide
  have hvisible := Message.visible_words (m := .send name (some (vehCount, rsuCount))) hname
  have hrest : line.message.rest ":AlertSupplier():".toList = ":AlertSupplier(): [LOGIC] ".toList ++
      ("Send".toList ++ (spaced ["alert=".toList ++ name, "vehCount=".toList ++ decimal vehCount,
        "rsuCount=".toList ++ decimal rsuCount] ++ ['\n'])) := by
    rw [hline]
    rfl
  have hblank : ∀ {s : List Char}, ∀ c ∈ (' ' :: s).head?, (!u.space c) = false := by
    intro s c hc
    obtain rfl := Option.some.inj hc
    rw [hu.blank]
    rfl
  rw [producerRe_eq]
  refine First.search (first_stamp hu hfunction ?_)
  rw [hrest]
  refine First.star (List.all_eq_true.mp (by decide)) (fun x t heq hx => ?_) ?_
  · by_contra hmatch
    obtain ⟨t, rfl, _⟩ := matches_text.mp hmatch
    exact hx (eq_nil_of_once hu (l := "alert=".toList) (by decide) (fun y hy => hvisible y
      (List.mem_append_right _ hy)) (by decide)
        (without_cons.mpr ⟨rfl, without_cons.mpr ⟨rfl, without_nil _⟩⟩).notMem heq)
  · have hwords : "Send".toList ++ (spaced ["alert=".toList ++ name,
        "vehCount=".toList ++ decimal vehCount, "rsuCount=".toList ++ decimal rsuCount] ++ ['\n']) =
        "Send alert=".toList ++ (name ++ ([' '] ++ ("vehCount=".toList ++ (decimal vehCount ++
          ' ' :: ("rsuCount=".toList ++ (decimal rsuCount ++ ['\n'])))))) := by
      simp [spaced]
    rw [hwords]
    refine .text "Send alert=" (.group AlertLog.Group.name hname.ne_nil (hname.nonSpace hu) hblank
      (.plus (List.cons_ne_nil _ _) (List.forall_mem_singleton.mpr hu.blank) ?_
        (.text "vehCount=" (.group AlertLog.Group.vc (decimal_ne_nil _)
          (fun c hc => hu.isDigit (isDigit_of_mem_decimal hc)) ?_ (.nil _)))))
    · rintro c hc
      obtain rfl := Option.some.inj hc
      exact hu.visible 'v' (by decide) (by decide)
    · rintro c hc
      obtain rfl := Option.some.inj hc
      exact hu.not_isDigit (by decide) (by decide)

end Applications

/-! ## Forwarders -/

section Forwarders

variable {u : Unicode} {line : LogLine} {m : Message} {name : AlertName}

/-- What is searched for after the function of an incoming alert. -/
def incomingTail (u : Unicode) : List (Piece AlertLog.Group) :=
  .item (.plus u.space) :: (GreedyPattern.text "[" ++ (.group .level [.plus u.word] ::
    (GreedyPattern.text "]" ++ (.item (.plus u.space) :: (GreedyPattern.text "in=" ++
      (.group .face [.plus u.isDigit] :: .item (.plus u.space) :: (GreedyPattern.text "alert=" ++
        [AlertLog.alertName u])))))))

/-- What is searched for after the function of a handler. -/
def dupDropTail (u : Unicode) : List (Piece AlertLog.Group) :=
  .item (.plus u.space) :: (GreedyPattern.text "[DEBUG]" ++ (.item (.plus u.space) ::
    (GreedyPattern.text "in=(" ++ (.item (.plus u.isDigit) :: (GreedyPattern.text "," ++
      (.item (.plus u.isDigit) :: (GreedyPattern.text ")" ++ (.item (.plus u.space) ::
        (GreedyPattern.text "alert=" ++ (AlertLog.alertName u :: .item (.plus u.space) ::
          (GreedyPattern.text "decision=drop because duplicate alert" ++ [])))))))))))

theorem incomingAlertRe_eq (u : Unicode) : incomingAlertRe u =
    stamp u ++ (GreedyPattern.text "caf.Forwarder:OnIncomingAlert():" ++ incomingTail u) := by
  simp [incomingAlertRe, incomingTail]

theorem dupDropRe_eq (u : Unicode) : dupDropRe u =
    stamp u ++ (GreedyPattern.text "caf.Forwarder:AlertVehicleHandler():" ++ dupDropTail u) := by
  simp [dupDropRe, dupDropTail]

theorem isEmergency_iff : isEmergency name = true ↔
    ∃ run, run ≠ [] ∧ name = "/alert/emergency".toList ++ run := by
  rw [isEmergency, Bool.and_eq_true, decide_eq_true_eq, List.isPrefixOf_iff_prefix]
  have hlen : "/alert/emergency".toList.length = 16 := by decide
  constructor
  · rintro ⟨⟨run, rfl⟩, hlong⟩
    refine ⟨run, fun hnil => ?_, rfl⟩
    rw [hnil, List.append_nil, hlen] at hlong
    exact absurd hlong (lt_irrefl 16)
  · rintro ⟨run, hne, rfl⟩
    refine ⟨List.prefix_append _ _, ?_⟩
    rw [List.length_append, hlen]
    exact Nat.lt_add_of_pos_right (List.length_pos_iff.mpr hne)

/-- The name of an alert is read up to its end. -/
theorem emergency_of_matches (hu : u.Ascii) {c : Char} {s : List Char} (hc : u.space c = true)
    {ps : List (Piece AlertLog.Group)} (h : Matches (AlertLog.alertName u :: ps) (name ++ c :: s)) :
    isEmergency name = true := by
  obtain ⟨run, t, heq, hne, hrun, _⟩ := matches_group_literal.mp h
  obtain ⟨more, rfl, hmore⟩ :=
    Visible.prefix_of_space (l := "/alert/emergency".toList) hu (by decide) hc heq
  refine isEmergency_iff.mpr ⟨more, ?_, rfl⟩
  rintro rfl
  cases run with
  | nil => exact hne rfl
  | cons d run =>
      obtain ⟨rfl, _⟩ := List.cons.inj hmore
      have hd := hrun d List.mem_cons_self
      rw [hc] at hd
      cases hd

theorem alert_of_mem_incoming {face : ℕ} {v : List Char}
    (h : "alert=".toList ++ v ∈ (Message.incoming face name).words) : v = name := by
  rcases List.mem_append.mp h with h | h
  · exact absurd h (Without.notMem (by decide) v)
  · rcases List.mem_cons.mp h with h | h
    · exact absurd h (append_ne rfl v)
    · exact List.append_cancel_left (List.mem_singleton.mp h)

/-- The words of a decision up to what was decided. -/
theorem mem_words_decided {handler : Handler} {face endpoint : ℕ} {decision : Decision}
    {w : List Char} (h : w ∈ (Message.decided handler face endpoint name decision).words) :
    w = "[DEBUG]".toList ∨ w = "in=".toList ∨ w = Message.ingress face endpoint ∨
      w = "in=".toList ++ Message.ingress face endpoint ∨ w = "alert=".toList ++ name ∨
      w ∈ decision.words := by
  rcases List.mem_append.mp h with h | h
  · rcases List.mem_append.mp h with h | h
    · rcases List.mem_append.mp h with h | h
      · exact Or.inl (List.mem_singleton.mp h)
      · split at h
        · rcases List.mem_cons.mp h with h | h
          · exact Or.inr (Or.inl h)
          · exact Or.inr (Or.inr (Or.inl (List.mem_singleton.mp h)))
        · exact Or.inr (Or.inr (Or.inr (Or.inl (List.mem_singleton.mp h))))
    · exact Or.inr (Or.inr (Or.inr (Or.inr (Or.inl (List.mem_singleton.mp h)))))
  · exact Or.inr (Or.inr (Or.inr (Or.inr (Or.inr h))))

theorem alert_of_mem_decided {handler : Handler} {face endpoint : ℕ} {decision : Decision}
    (hvalid : decision.Valid) {v : List Char}
    (h : "alert=".toList ++ v ∈ (Message.decided handler face endpoint name decision).words) :
    v = name := by
  rcases mem_words_decided h with h | h | h | h | h | h
  · exact absurd h (append_ne rfl v)
  · exact absurd h (append_ne rfl v)
  · exact absurd h (append_ne rfl v)
  · exact absurd h (append_ne rfl v)
  · exact List.append_cancel_left h
  · exact absurd h ((Decision.without_foreign hvalid "alert=" (by decide)).notMem v)

theorem ingress_of_mem_decided {handler : Handler} {face endpoint : ℕ} {decision : Decision}
    (hvalid : decision.Valid) {v : List Char}
    (h : "in=".toList ++ v ∈ (Message.decided handler face endpoint name decision).words) :
    v = [] ∨ v = Message.ingress face endpoint := by
  rcases mem_words_decided h with h | h | h | h | h | h
  · exact absurd h (append_ne rfl v)
  · exact Or.inl (List.append_right_eq_self.mp h)
  · exact absurd h (append_ne rfl v)
  · exact Or.inr (List.append_cancel_left h)
  · exact absurd h (append_ne rfl v)
  · exact absurd h ((Decision.without_foreign hvalid "in=" (by decide)).notMem v)

theorem duplicate_of_mem_decided {handler : Handler} {face endpoint : ℕ} {decision : Decision}
    (hvalid : decision.Valid) {v : List Char}
    (h : "duplicate".toList ++ v ∈ (Message.decided handler face endpoint name decision).words) :
    decision = .duplicate := by
  by_contra hno
  rcases mem_words_decided h with h | h | h | h | h | h
  · exact absurd h (append_ne rfl v)
  · exact absurd h (append_ne rfl v)
  · exact absurd h (append_ne rfl v)
  · exact absurd h (append_ne rfl v)
  · exact absurd h (append_ne rfl v)
  · exact absurd h ((Decision.without_duplicate hvalid hno).notMem v)

/-- A match of a name finds the name of the message. -/
theorem emergency_of_word (hu : u.Ascii) (hvalid : m.Valid) {function : String}
    {more front rest : List Char} {c : Char}
    (hfunction : m.function.toList = function.toList ++ more)
    (heq : m.rest more = front ++ c :: ("alert=".toList ++ rest)) (hc : u.space c = true)
    (hword : ∀ v, "alert=".toList ++ v ∈ m.words → v = name) {ps : List (Piece AlertLog.Group)}
    (h : Matches (AlertLog.alertName u :: ps) rest) : isEmergency name = true := by
  obtain ⟨before, v, after, hwords, rfl⟩ :=
    Message.word_of_space (l := "alert=") hu hvalid (by decide) (by decide) hc hfunction heq
  obtain rfl : v = name := hword v (by
    rw [hwords]
    exact List.mem_append_right before List.mem_cons_self)
  obtain ⟨d, s, hspaced, hd, _⟩ := spaced_eq_cons hu after
  rw [hspaced] at h
  exact emergency_of_matches hu hd h

theorem incoming_of_matches (hu : u.Ascii) (hvalid : m.Valid) {more : List Char}
    (hfunction : m.function.toList = "caf.Forwarder:OnIncomingAlert():".toList ++ more)
    (h : Matches (incomingTail u) (m.rest more)) :
    ∃ face name, m = .incoming face name ∧ isEmergency name = true := by
  obtain ⟨blank, s₁, heq, _, _, h₁⟩ := matches_plus.mp h
  obtain ⟨s₂, rfl, h₂⟩ := matches_text.mp h₁
  obtain ⟨level, s₃, rfl, _, _, h₃⟩ := matches_group.mp h₂
  obtain ⟨s₄, rfl, h₄⟩ := matches_text.mp h₃
  obtain ⟨front, c, s₅, rfl, hc, h₅⟩ := of_matches_plus_text h₄
  obtain ⟨faceId, s₆, rfl, hface, hdigits, h₆⟩ := matches_group.mp h₅
  obtain ⟨front', c', s₇, rfl, hc', h₇⟩ := of_matches_plus_text h₆
  cases m with
  | incoming face name =>
      have halert : (Message.incoming face name).rest more = (blank ++ ("[".toList ++ (level ++
          ("]".toList ++ (front ++ c :: ("in=".toList ++ (faceId ++ front'))))))) ++
            c' :: ("alert=".toList ++ s₇) := by
        rw [heq]
        simp
      exact ⟨face, name, rfl, emergency_of_word hu hvalid hfunction halert hc'
        (fun _ => alert_of_mem_incoming) h₇⟩
  | decided handler face endpoint name decision =>
      exfalso
      have hin : (Message.decided handler face endpoint name decision).rest more =
          (blank ++ ("[".toList ++ (level ++ ("]".toList ++ front)))) ++ c :: ("in=".toList ++
            (faceId ++ (front' ++ c' :: ("alert=".toList ++ s₇)))) := by
        rw [heq]
        simp
      obtain ⟨before, v, after, hwords, hrest⟩ :=
        Message.word_of_space (l := "in=") hu hvalid (by decide) (by decide) hc hfunction hin
      have hv : v = [] ∨ v = Message.ingress face endpoint :=
        ingress_of_mem_decided hvalid.2 (by
          rw [hwords]
          exact List.mem_append_right before List.mem_cons_self)
      obtain ⟨d, s, hspaced, _, hd⟩ := spaced_eq_cons hu after
      obtain ⟨e, faceId, rfl⟩ := List.exists_cons_of_ne_nil hface
      have he := hdigits e List.mem_cons_self
      rcases hv with rfl | rfl
      · rw [hspaced] at hrest
        obtain ⟨rfl, _⟩ := List.cons.inj hrest
        rw [hd] at he
        cases he
      · obtain ⟨rfl, _⟩ := List.cons.inj hrest
        rw [hu.not_isDigit (by decide) (by decide)] at he
        cases he
  | _ => exact absurd hfunction.symm (append_ne (by simp only [Message.function]; decide) more)

theorem emergency_nonSpace (hu : u.Ascii) (hname : IsName name) (h : isEmergency name = true) :
    ∃ run, name = "/alert/emergency".toList ++ run ∧ run ≠ [] ∧
      ∀ c ∈ run, (!u.space c) = true := by
  obtain ⟨run, hne, rfl⟩ := isEmergency_iff.mp h
  exact ⟨run, rfl, hne, fun c hc => hname.nonSpace hu c (List.mem_append_right _ hc)⟩

theorem matches_incomingTail (hu : u.Ascii) (hname : IsName name) (h : isEmergency name = true)
    (face : ℕ) : Matches (incomingTail u) ((Message.incoming face name).rest []) := by
  obtain ⟨run, rfl, hne, hrun⟩ := emergency_nonSpace hu hname h
  have hrest : (Message.incoming face ("/alert/emergency".toList ++ run)).rest [] =
      [' '] ++ ("[".toList ++ ("DEBUG".toList ++ ("]".toList ++ ([' '] ++ ("in=".toList ++
        (decimal face ++ ([' '] ++ ("alert=".toList ++ ("/alert/emergency".toList ++
          (run ++ ['\n'])))))))))) := by
    simp [Message.rest, Message.words, spaced, words_debug]
  rw [hrest]
  have hblank : ∀ c ∈ [' '], u.space c = true := List.forall_mem_singleton.mpr hu.blank
  have hupper : "DEBUG".toList.all Char.isUpper = true := by decide
  have hlevel : ∀ c ∈ "DEBUG".toList, u.word c = true := fun c hc =>
    hu.word c (List.all_eq_true.mp hupper c hc)
  have hdigits : ∀ c ∈ decimal face, u.isDigit c = true := fun c hc =>
    hu.isDigit (isDigit_of_mem_decimal hc)
  exact matches_plus.mpr ⟨_, _, rfl, List.cons_ne_nil _ _, hblank, matches_text.mpr ⟨_, rfl,
    matches_group.mpr ⟨_, _, rfl, by decide, hlevel, matches_text.mpr ⟨_, rfl,
      matches_plus.mpr ⟨_, _, rfl, List.cons_ne_nil _ _, hblank, matches_text.mpr ⟨_, rfl,
        matches_group.mpr ⟨_, _, rfl, decimal_ne_nil face, hdigits, matches_plus.mpr ⟨_, _, rfl,
          List.cons_ne_nil _ _, hblank, matches_text.mpr ⟨_, rfl,
            matches_group_literal.mpr ⟨_, _, rfl, hne, hrun, .nil _⟩⟩⟩⟩⟩⟩⟩⟩⟩⟩

/-- A line counts as an incoming alert if it is about one and the alert is an emergency. -/
theorem isSome_search_incoming (hu : u.Ascii) (hvalid : line.message.Valid) :
    (search (incomingAlertRe u) line.text).isSome = true ↔
      ∃ face name, line.message = .incoming face name ∧ isEmergency name = true := by
  rw [incomingAlertRe_eq, isSome_search_iff hu hvalid (by decide) (isComponent_caf (by decide))]
  constructor
  · rintro ⟨more, hfunction, hmatch⟩
    exact incoming_of_matches hu hvalid hfunction hmatch
  · rintro ⟨face, name, hline, hname⟩
    rw [hline] at hvalid ⊢
    exact ⟨[], by simp only [Message.function]; decide, matches_incomingTail hu hvalid hname face⟩

theorem duplicate_of_matches (hu : u.Ascii) (hvalid : m.Valid) {more : List Char}
    (hfunction : m.function.toList = "caf.Forwarder:AlertVehicleHandler():".toList ++ more)
    (h : Matches (dupDropTail u) (m.rest more)) :
    ∃ face endpoint name, m = .decided .alertVehicleHandler face endpoint name .duplicate ∧
      isEmergency name = true := by
  obtain ⟨blank, s₁, heq, _, _, h₁⟩ := matches_plus.mp h
  obtain ⟨s₂, rfl, h₂⟩ := matches_text.mp h₁
  obtain ⟨blank', s₃, rfl, _, _, h₃⟩ := matches_plus.mp h₂
  obtain ⟨s₄, rfl, h₄⟩ := matches_text.mp h₃
  obtain ⟨faceId, s₅, rfl, _, _, h₅⟩ := matches_plus.mp h₄
  obtain ⟨s₆, rfl, h₆⟩ := matches_text.mp h₅
  obtain ⟨endpointId, s₇, rfl, _, _, h₇⟩ := matches_plus.mp h₆
  obtain ⟨s₈, rfl, h₈⟩ := matches_text.mp h₇
  obtain ⟨front, c, s₉, rfl, hc, h₉⟩ := of_matches_plus_text h₈
  have halert : m.rest more = (blank ++ ("[DEBUG]".toList ++ (blank' ++ ("in=(".toList ++
      (faceId ++ (",".toList ++ (endpointId ++ (")".toList ++ front)))))))) ++
        c :: ("alert=".toList ++ s₉) := by
    rw [heq]
    simp only [List.append_assoc]
  cases m with
  | decided handler face endpoint name decision =>
      have hemergency := emergency_of_word hu hvalid hfunction halert hc
        (fun _ => alert_of_mem_decided hvalid.2) h₉
      obtain ⟨run, t, rfl, _, _, hlast⟩ := matches_group_literal.mp h₉
      obtain ⟨front', c', s, rfl, _, _⟩ := of_matches_plus_text hlast
      have hduplicate : (Message.decided handler face endpoint name decision).rest more =
          (blank ++ ("[DEBUG]".toList ++ (blank' ++ ("in=(".toList ++ (faceId ++ (",".toList ++
            (endpointId ++ (")".toList ++ (front ++ c :: ("alert=".toList ++
              ("/alert/emergency".toList ++ (run ++ (front' ++ c' ::
                "decision=drop because".toList))))))))))))) ++
                  ' ' :: ("duplicate".toList ++ (" alert".toList ++ s)) := by
        rw [heq]
        simp
      obtain ⟨before, v, after, hwords, _⟩ := Message.word_of_space (l := "duplicate") hu hvalid
        (by decide) (by decide) hu.blank hfunction hduplicate
      have hdecision : decision = .duplicate := duplicate_of_mem_decided hvalid.2 (by
        rw [hwords]
        exact List.mem_append_right before List.mem_cons_self)
      subst hdecision
      cases handler with
      | alertVehicleHandler => exact ⟨face, endpoint, name, rfl, hemergency⟩
      | _ => exact absurd hfunction.symm (append_ne (by simp only [Message.function]; decide) more)
  | _ => exact absurd hfunction.symm (append_ne (by simp only [Message.function]; decide) more)

theorem matches_dupDropTail (hu : u.Ascii) (hname : IsName name) (h : isEmergency name = true)
    (handler : Handler) (face endpoint : ℕ) : Matches (dupDropTail u)
      ((Message.decided handler face endpoint name .duplicate).rest []) := by
  obtain ⟨run, rfl, hne, hrun⟩ := emergency_nonSpace hu hname h
  have hrest : (Message.decided handler face endpoint ("/alert/emergency".toList ++ run)
      .duplicate).rest [] = [' '] ++ ("[DEBUG]".toList ++ ([' '] ++ ("in=(".toList ++
        (decimal face ++ (",".toList ++ (decimal endpoint ++ (")".toList ++ ([' '] ++
          ("alert=".toList ++ ("/alert/emergency".toList ++ (run ++ ([' '] ++
            ("decision=drop because duplicate alert".toList ++ ['\n']))))))))))))) := by
    simp [Message.rest, Message.words, spaced, words_debug, Message.ingress, Decision.cancels,
      Decision.words, words_duplicate]
  rw [hrest]
  have hblank : ∀ c ∈ [' '], u.space c = true := List.forall_mem_singleton.mpr hu.blank
  have hdigits : ∀ n, ∀ c ∈ decimal n, u.isDigit c = true :=
    fun n c hc => hu.isDigit (isDigit_of_mem_decimal hc)
  exact matches_plus.mpr ⟨_, _, rfl, List.cons_ne_nil _ _, hblank, matches_text.mpr ⟨_, rfl,
    matches_plus.mpr ⟨_, _, rfl, List.cons_ne_nil _ _, hblank, matches_text.mpr ⟨_, rfl,
      matches_plus.mpr ⟨_, _, rfl, decimal_ne_nil face, hdigits face, matches_text.mpr ⟨_, rfl,
        matches_plus.mpr ⟨_, _, rfl, decimal_ne_nil endpoint, hdigits endpoint,
          matches_text.mpr ⟨_, rfl, matches_plus.mpr ⟨_, _, rfl, List.cons_ne_nil _ _, hblank,
            matches_text.mpr ⟨_, rfl, matches_group_literal.mpr ⟨_, _, rfl, hne, hrun,
              matches_plus.mpr ⟨_, _, rfl, List.cons_ne_nil _ _, hblank,
                matches_text.mpr ⟨_, rfl, .nil _⟩⟩⟩⟩⟩⟩⟩⟩⟩⟩⟩⟩⟩

/-- A line counts as a duplicate if a vehicle has dropped an emergency as one. -/
theorem isSome_search_dupDrop (hu : u.Ascii) (hvalid : line.message.Valid) :
    (search (dupDropRe u) line.text).isSome = true ↔ ∃ face endpoint name,
      line.message = .decided .alertVehicleHandler face endpoint name .duplicate ∧
        isEmergency name = true := by
  rw [dupDropRe_eq, isSome_search_iff hu hvalid (by decide) (isComponent_caf (by decide))]
  constructor
  · rintro ⟨more, hfunction, hmatch⟩
    exact duplicate_of_matches hu hvalid hfunction hmatch
  · rintro ⟨face, endpoint, name, hline, hname⟩
    rw [hline] at hvalid ⊢
    exact ⟨[], by simp only [Message.function]; decide,
      matches_dupDropTail hu hvalid.1 hname .alertVehicleHandler face endpoint⟩

end Forwarders

/-! ## The log -/

section Log

variable {u : Unicode} {K : Type} [Field K] {line : LogLine}

theorem classify_producer {text : List Char} {m : List (AlertLog.Group × List Char)}
    (hsearch : search (producerRe u) text = some m) {time : K} {vehCount : ℕ}
    (htime : float u (GreedyPattern.group m .time) = some time)
    (hcount : int u (GreedyPattern.group m .vc) = some vehCount) :
    classify u text = .ok (.sent (GreedyPattern.group m .name) time vehCount) := by
  unfold classify
  rw [hsearch]
  simp only [htime, hcount]

theorem classify_consumer {text : List Char} {m : List (AlertLog.Group × List Char)}
    (hproducer : search (producerRe u) text = none) (hsearch : search (consumerRe u) text = some m)
    {time : K} (htime : float u (GreedyPattern.group m .time) = some time) :
    classify u text =
      .ok (.received (GreedyPattern.group m .name) (GreedyPattern.group m .node) time) := by
  unfold classify
  rw [hproducer, hsearch]
  simp only [htime]

/-- A line is read as what it says. -/
theorem classify_text (hu : u.Ascii) (hvalid : line.message.Valid) :
    classify u line.text = .ok (line.entry : Entry K) := by
  have hfloat := float_seconds hu K line.time
  by_cases hsend : ∃ name counts, line.message = .send name (some counts)
  · obtain ⟨name, ⟨vehCount, rsuCount⟩, hline⟩ := hsend
    have hname : IsName name := by
      rw [hline] at hvalid
      exact hvalid
    rw [classify_producer (search_producer hu hname hline) hfloat (int_decimal hu vehCount),
      LogLine.entry, hline]
    rfl
  have hproducer : search (producerRe u) line.text = none :=
    search_producer_eq_none hu hvalid fun name counts hline => hsend ⟨name, counts, hline⟩
  by_cases hreceived : ∃ name, line.message = .received name
  · obtain ⟨name, hline⟩ := hreceived
    have hname : IsName name := by
      rw [hline] at hvalid
      exact hvalid
    rw [classify_consumer hproducer (search_consumer hu hname hline) hfloat, LogLine.entry, hline]
    rfl
  unfold classify
  rw [hproducer, search_consumer_eq_none hu hvalid fun name hline => hreceived ⟨name, hline⟩]
  have hin := isSome_search_incoming hu hvalid
  have hdup := isSome_search_dupDrop hu hvalid
  simp only
  split_ifs with h h'
  · obtain ⟨face, name, hline, hname⟩ := hin.mp h
    rw [LogLine.entry, hline]
    simp only [hname, if_true]
  · obtain ⟨face, endpoint, name, hline, hname⟩ := hdup.mp h'
    rw [LogLine.entry, hline]
    simp only [hname, if_true]
  · unfold LogLine.entry
    simp only
    split
    · rename_i name vehCount rsuCount hline
      exact absurd ⟨name, (vehCount, rsuCount), hline⟩ hsend
    · rename_i name hline
      exact absurd ⟨name, hline⟩ hreceived
    · rename_i face name hline
      rw [if_neg fun hname => h (hin.mpr ⟨face, name, hline, hname⟩)]
    · rename_i face endpoint name hline
      rw [if_neg fun hname => h' (hdup.mpr ⟨face, endpoint, name, hline, hname⟩)]
    · rfl

/-- An emergency is on its way in. -/
def LogLine.isIncoming (line : LogLine) : Bool :=
  match line.message with
  | .incoming _ name => isEmergency name
  | _ => false

/-- A vehicle drops an emergency that it has seen before. -/
def LogLine.isDuplicate (line : LogLine) : Bool :=
  match line.message with
  | .decided .alertVehicleHandler _ _ name .duplicate => isEmergency name
  | _ => false

/-- The alert of a line with counts. -/
def LogLine.sentName? (line : LogLine) : Option AlertName :=
  match line.message with
  | .send name (some _) => some name
  | _ => none

theorem isIncomingAlert_entry (line : LogLine) :
    (line.entry : Entry K).isIncomingAlert = line.isIncoming := by
  unfold LogLine.entry LogLine.isIncoming
  cases line.message with
  | send name counts => cases counts <;> rfl
  | incoming face name =>
      simp only
      split_ifs with hname
      · exact hname.symm
      · exact (Bool.eq_false_iff.mpr hname).symm
  | decided handler face endpoint name decision =>
      cases handler <;> cases decision <;> try rfl
      simp only
      split_ifs <;> rfl
  | _ => rfl

theorem isDuplicateDrop_entry (line : LogLine) :
    (line.entry : Entry K).isDuplicateDrop = line.isDuplicate := by
  unfold LogLine.entry LogLine.isDuplicate
  cases line.message with
  | send name counts => cases counts <;> rfl
  | incoming face name =>
      simp only
      split_ifs <;> rfl
  | decided handler face endpoint name decision =>
      cases handler <;> cases decision <;> try rfl
      simp only
      split_ifs with hname
      · exact hname.symm
      · exact (Bool.eq_false_iff.mpr hname).symm
  | _ => rfl

/-- The alert whose record an entry begins. -/
def sentName? : Entry K → Option AlertName
  | .sent name _ _ => some name
  | _ => none

theorem sentName?_entry (line : LogLine) :
    sentName? (line.entry : Entry K) = line.sentName? := by
  unfold LogLine.entry LogLine.sentName?
  cases line.message with
  | send name counts => cases counts <;> rfl
  | incoming face name =>
      simp only
      split_ifs <;> rfl
  | decided handler face endpoint name decision =>
      cases handler <;> cases decision <;> try rfl
      simp only
      split_ifs <;> rfl
  | _ => rfl

variable [LinearOrder K]

theorem mem_alertData (es : List (Entry K)) (name : AlertName) :
    name ∈ (es.foldl Tally.read .empty).alertData ↔ name ∈ es.filterMap sentName? := by
  induction es using List.reverseRecOn with
  | nil => simp [Tally.empty]
  | append_singleton es e ih =>
      rw [List.foldl_append, List.filterMap_append, List.mem_append, ← ih]
      generalize es.foldl Tally.read .empty = st
      cases e with
      | sent name' time vehCount =>
          simp [Tally.read, AList.mem_insert, sentName?, or_comm]
      | received name' node time =>
          simp only [List.foldl_cons, List.foldl_nil, Tally.read]
          cases hlookup : st.alertData.lookup name' with
          | none => simp [sentName?]
          | some data =>
              have hmem : name' ∈ st.alertData := AList.lookup_isSome.mp (by rw [hlookup]; rfl)
              have hnone : [Entry.received name' node time].filterMap sentName? = [] := rfl
              rw [AList.mem_insert, hnone]
              simp only [List.not_mem_nil, or_false]
              exact ⟨fun h => h.elim (fun h => h ▸ hmem) id, Or.inr⟩
      | _ => simp [Tally.read, sentName?]

/-- There is a record for each sending exactly if no name is sent twice. -/
theorem length_keys (es : List (Entry K)) :
    (es.foldl Tally.read .empty).alertData.keys.length = (es.filterMap sentName?).length ↔
      (es.filterMap sentName?).Nodup := by
  have hperm : (es.foldl Tally.read .empty).alertData.keys.Perm (es.filterMap sentName?).dedup :=
    (List.perm_ext_iff_of_nodup (AList.keys_nodup _) (List.nodup_dedup _)).mpr fun name => by
      rw [List.mem_dedup, ← mem_alertData]
      rfl
  rw [hperm.length_eq]
  constructor
  · intro hlen
    rw [← (List.dedup_sublist _).eq_of_length hlen]
    exact List.nodup_dedup _
  · intro hnodup
    rw [hnodup.dedup]

theorem readLog_text {u : Unicode} (hu : u.Ascii) {lines : List LogLine}
    (hvalid : ∀ line ∈ lines, line.message.Valid) :
    readLog u (lines.map LogLine.text) =
      .ok ((lines.map (LogLine.entry (K := K))).foldl Tally.read .empty) := by
  refine readLog_of_classify ?_
  rw [List.forall₂_map_left_iff, List.forall₂_map_right_iff, List.forall₂_same]
  exact fun line hmem => classify_text hu (hvalid line hmem)

end Log

/-! ## Names in a log -/

/-- `operator<<`. -/
def logged (wantAltEnv : Option Bool) (name : List Block) : AlertName :=
  (WireName.toUri wantAltEnv .envOrAlternate name).map Char.ofUInt8

theorem ofUInt8_injective : Function.Injective Char.ofUInt8 := by
  intro c d h
  exact UInt8.toNat_inj.mp (congrArg Char.toNat h)

theorem visible_ofUInt8 {c : UInt8} (h : Uri.InText c) :
    33 ≤ (Char.ofUInt8 c).toNat ∧ (Char.ofUInt8 c).toNat < 127 := by
  have hall : ∀ n < 256, (Uri.isUnreserved (UInt8.ofNat n) = true ∨
      UInt8.ofNat n ∈ [Uri.percent, Uri.equals, '['.toUInt8, ']'.toUInt8]) → 33 ≤ n ∧ n < 127 := by
    decide +kernel
  refine hall c.toNat c.toNat_lt ?_
  rw [UInt8.ofNat_toNat]
  rcases h with (h | rfl) | h
  · exact Or.inl h
  · exact Or.inr List.mem_cons_self
  · exact Or.inr (List.mem_cons_of_mem _ h)

theorem isName_logged (wantAltEnv : Option Bool) (name : List Block) :
    IsName (logged wantAltEnv name) := by
  have hslash : 33 ≤ (Char.ofUInt8 Uri.slash).toNat ∧ (Char.ofUInt8 Uri.slash).toNat < 127 := by
    decide
  rw [logged, WireName.toUri]
  split_ifs with hnil
  · exact ⟨rfl, List.forall_mem_singleton.mpr hslash⟩
  · obtain ⟨comp, name, rfl⟩ := List.exists_cons_of_ne_nil hnil
    refine ⟨rfl, fun c hc => ?_⟩
    obtain ⟨d, hd, rfl⟩ := List.mem_map.mp hc
    obtain ⟨comp', _, hd⟩ := List.mem_flatMap.mp hd
    rcases List.mem_cons.mp hd with rfl | hd
    · exact hslash
    · exact visible_ofUInt8 (Uri.inText_componentToUri hd)

end LogLines

open AlertLog LogLines

/-- Reading a log gives back what its lines say: the record of each alert is the one of its
last sending, and each incoming emergency and each duplicate is counted once. -/
theorem log_reads_back {u : Unicode} (hu : u.Ascii) (K : Type) [Field K] [LinearOrder K]
    {lines : List LogLine} (hvalid : ∀ line ∈ lines, line.message.Valid) :
    ∃ st : Tally K, readLog u (lines.map LogLine.text) = .ok st ∧
      (∀ name, st.alertData.lookup name =
        (lastSending (lines.map LogLine.entry) name).map Sending.data) ∧
      st.incomingAlerts = lines.countP LogLine.isIncoming ∧
      st.duplicateDrops = lines.countP LogLine.isDuplicate := by
  refine ⟨_, readLog_text hu hvalid, lookup_alertData _, ?_, ?_⟩
  · rw [(counts_foldl _).1, List.countP_map]
    exact List.countP_congr fun line _ => by rw [Function.comp_apply, isIncomingAlert_entry]
  · rw [(counts_foldl _).2, List.countP_map]
    exact List.countP_congr fun line _ => by rw [Function.comp_apply, isDuplicateDrop_entry]

namespace TwoAlerts

theorem ascii_ascii : ascii.Ascii where
  digit c hc := if_pos hc
  notDigit c _ hc := if_neg (by rw [hc]; exact Bool.false_ne_true)
  blank := rfl
  newline := rfl
  visible c hlow _ := by
    have hne : ∀ d : Char, d.toNat < 33 → c ≠ d := by
      rintro d hd rfl
      omega
    simp [ascii, Char.isWhitespace, hne]
  word c hc := by
    change (((c.isUpper || c.isLower) || c.isDigit) || c == '_') = true
    rw [hc]
    rfl

def name : AlertName := "/alert/emergency/veh/106/seq=0/zor=[MASKED]".toList

/-- A vehicle receives the alert of another and hears it again. -/
def lines : List LogLine :=
  [⟨63455687860, 106, .send name (some (79, 9))⟩,
    ⟨63457687860, 62, .incoming 257 name⟩,
    ⟨63457687860, 62, .received name⟩,
    ⟨63458000000, 62, .incoming 257 name⟩,
    ⟨63458000000, 62, .decided .alertVehicleHandler 257 0 name .duplicate⟩]

theorem isName_name : IsName name := ⟨by decide, by decide⟩

theorem lines_valid : ∀ line ∈ lines, line.message.Valid := by
  have h := isName_name
  intro line hmem
  simp only [lines, List.mem_cons, List.not_mem_nil, or_false] at hmem
  rcases hmem with rfl | rfl | rfl | rfl | rfl
  · exact h
  · exact h
  · exact h
  · exact h
  · exact ⟨h, trivial⟩

end TwoAlerts

theorem log_reads_back_two : ∃ st : Tally ℚ,
    readLog TwoAlerts.ascii (TwoAlerts.lines.map LogLine.text) = .ok st ∧
      (st.alertData.lookup TwoAlerts.name).map AlertData.vehCount = some 79 ∧
      st.incomingAlerts = 2 ∧ st.duplicateDrops = 1 := by
  obtain ⟨st, hread, hrecord, hincoming, hduplicate⟩ :=
    log_reads_back TwoAlerts.ascii_ascii ℚ TwoAlerts.lines_valid
  refine ⟨st, hread, ?_, ?_, ?_⟩
  · rw [hrecord, Option.map_map]
    decide +kernel
  · rw [hincoming]
    decide
  · rw [hduplicate]
    decide

namespace TwoProducers

/-- A log with nothing but the sendings of a run. -/
def log (fl : Fleet DataPacket) : List LogLine :=
  fl.sent.map fun s => ⟨s.time, s.app, .send (logged none s.data.name) (some (1, 0))⟩

theorem log_valid (fl : Fleet DataPacket) : ∀ line ∈ log fl, line.message.Valid :=
  List.forall_mem_map.mpr fun s _ => isName_logged none s.data.name

theorem log_sent (fl : Fleet DataPacket) : (log fl).filterMap LogLine.sentName? =
    fl.sent.map fun s => logged none s.data.name := by
  rw [log, List.filterMap_map, ← List.filterMap_eq_map]
  rfl

end TwoProducers

end Cafe
