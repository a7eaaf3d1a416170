import Cafe.Elements

/-!
# The fields of an LP packet

An LP packet is a block whose elements are its fields. A field is inserted
behind those that sort before it, and the decoder demands the same order.
-/

namespace Cafe

open Decoding

namespace Lp

inductive FieldLocation
  | header
  | fragment
  deriving DecidableEq, Repr

def getLocationSortOrder : FieldLocation → ℕ
  | .header => 1
  | .fragment => 2

structure FieldDecl where
  location : FieldLocation
  tlvType : ℕ
  isRepeatable : Bool
  deriving DecidableEq, Repr

def FragmentField : FieldDecl := ⟨.fragment, 80, false⟩
def SequenceField : FieldDecl := ⟨.header, 81, false⟩
def FragIndexField : FieldDecl := ⟨.header, 82, false⟩
def FragCountField : FieldDecl := ⟨.header, 83, false⟩
def HopCountTagField : FieldDecl := ⟨.header, 84, false⟩
def GeoTagField : FieldDecl := ⟨.header, 85, false⟩
def PitTokenField : FieldDecl := ⟨.header, 98, false⟩
def NackField : FieldDecl := ⟨.header, 800, false⟩
def IncomingFaceIdField : FieldDecl := ⟨.header, 812, false⟩
def NextHopFaceIdField : FieldDecl := ⟨.header, 816, false⟩
def CachePolicyField : FieldDecl := ⟨.header, 820, false⟩
def CongestionMarkField : FieldDecl := ⟨.header, 832, false⟩
def AckField : FieldDecl := ⟨.header, 836, true⟩
def TxSequenceField : FieldDecl := ⟨.header, 840, false⟩
def NonDiscoveryField : FieldDecl := ⟨.header, 844, false⟩
def PrefixAnnouncementField : FieldDecl := ⟨.header, 848, false⟩
def SenderTypeField : FieldDecl := ⟨.header, 1070, false⟩
def SenderPositionField : FieldDecl := ⟨.header, 1071, false⟩
def DestinationNodesField : FieldDecl := ⟨.header, 1072, false⟩

def FieldSet : List FieldDecl :=
  [FragmentField, SequenceField, FragIndexField, FragCountField, PitTokenField, NackField,
    NextHopFaceIdField, IncomingFaceIdField, CachePolicyField, CongestionMarkField, AckField,
    TxSequenceField, NonDiscoveryField, PrefixAnnouncementField, HopCountTagField, GeoTagField,
    SenderTypeField, SenderPositionField, DestinationNodesField]

structure FieldInfo where
  tlvType : ℕ
  isRecognized : Bool
  canIgnore : Bool
  isRepeatable : Bool
  locationSortOrder : ℕ
  deriving DecidableEq, Repr

def FieldInfo.ofType (tlvType : ℕ) : FieldInfo :=
  match FieldSet.find? (·.tlvType = tlvType) with
  | some field => ⟨tlvType, true, false, field.isRepeatable, getLocationSortOrder field.location⟩
  | none =>
      ⟨tlvType, false, 800 ≤ tlvType ∧ tlvType ≤ 959 ∧ tlvType &&& 3 = 0, false,
        getLocationSortOrder .header⟩

def compareFieldSortOrder (first second : FieldInfo) : Prop :=
  first.locationSortOrder < second.locationSortOrder ∨
    first.locationSortOrder = second.locationSortOrder ∧ first.tlvType < second.tlvType

instance (first second : FieldInfo) : Decidable (compareFieldSortOrder first second) :=
  inferInstanceAs (Decidable (_ ∨ _))

/-- An LP packet by its fields. -/
structure WirePacket where
  elements : List Block
  deriving DecidableEq

namespace WirePacket

def empty : WirePacket := ⟨[]⟩

def comparePos (first : ℕ) (second : Block) : Prop :=
  compareFieldSortOrder (FieldInfo.ofType first) (FieldInfo.ofType second.type)

instance (first : ℕ) (second : Block) : Decidable (comparePos first second) :=
  inferInstanceAs (Decidable (compareFieldSortOrder _ _))

def find? (pkt : WirePacket) (field : FieldDecl) : Option Block :=
  pkt.elements.find? fun element => element.type = field.tlvType

def has (pkt : WirePacket) (field : FieldDecl) : Bool := (pkt.find? field).isSome

/-- `std::upper_bound` and the insertion: the new element stands before the
first one that it precedes. -/
def insert (element : Block) : List Block → List Block
  | [] => [element]
  | e :: es =>
      if comparePos element.type e then element :: e :: es else e :: insert element es

/-- `value` is what `FIELD::encode` puts behind the type and the length. -/
def add (pkt : WirePacket) (field : FieldDecl) (value : Bytes) :
    Except (Decoding.Fault String) WirePacket :=
  if field.isRepeatable = false ∧ pkt.has field = true then
    .error (.rejected "lp::Packet::add: field cannot be repeated")
  else
    .ok ⟨insert ⟨field.tlvType, value⟩ pkt.elements⟩

/-- A packet with nothing but a fragment is sent as the network packet. -/
def wireEncode (pkt : WirePacket) : Except (Decoding.Fault String) Block :=
  match pkt.elements with
  | [element] =>
      if element.type = FragmentField.tlvType then
        match element.parse with
        | .error e => .error e
        | .ok [] => .error (.overRead 0 0)
        | .ok (first :: _) => .ok first
      else
        .ok ⟨100, element.wire⟩
  | elements => .ok ⟨100, elements.flatMap Block.wire⟩

/-- The checks of one field, with the field before it. -/
def checkField (prev : Option FieldInfo) (element : Block) :
    Except (Decoding.Fault String) FieldInfo :=
  let info := FieldInfo.ofType element.type
  if info.isRecognized = false ∧ info.canIgnore = false then
    .error (.rejected ("unrecognized field " ++ toString element.type ++ " cannot be ignored"))
  else
    match prev with
    | none => .ok info
    | some prev =>
        if info.tlvType = prev.tlvType ∧ info.isRepeatable = false then
          .error (.rejected ("non-repeatable field " ++ toString element.type ++
            " cannot be repeated"))
        else if info.tlvType ≠ prev.tlvType ∧ ¬ compareFieldSortOrder prev info then
          .error (.rejected "fields are not in correct sort order")
        else
          .ok info

def checkFields : Option FieldInfo → List Block → Except (Decoding.Fault String) Unit
  | _, [] => .ok ()
  | prev, element :: elements =>
      match checkField prev element with
      | .error e => .error e
      | .ok info => checkFields (some info) elements

def wireDecode (wire : Block) : Except (Decoding.Fault String) WirePacket :=
  if wire.type = 5 ∨ wire.type = 6 then
    empty.add FragmentField wire.wire
  else if wire.type ≠ 100 then
    .error (.rejected ("Expecting LpPacket element, but TLV has type " ++ toString wire.type))
  else
    match wire.parse with
    | .error e => .error e
    | .ok elements =>
        match checkFields none elements with
        | .error e => .error e
        | .ok () => .ok ⟨elements⟩

/-! ## The order of the fields -/

theorem tlvType_ofType (tlvType : ℕ) : (FieldInfo.ofType tlvType).tlvType = tlvType := by
  unfold FieldInfo.ofType
  split <;> rfl

/-- What the decoder demands of a field and one before it. -/
def Follows (first second : Block) : Prop :=
  comparePos first.type second ∨
    first.type = second.type ∧ (FieldInfo.ofType second.type).isRepeatable = true

theorem comparePos_iff {first : ℕ} {second : Block} : comparePos first second ↔
    (FieldInfo.ofType first).locationSortOrder < (FieldInfo.ofType second.type).locationSortOrder ∨
      (FieldInfo.ofType first).locationSortOrder =
        (FieldInfo.ofType second.type).locationSortOrder ∧ first < second.type := by
  unfold comparePos compareFieldSortOrder
  rw [tlvType_ofType, tlvType_ofType]

theorem Follows.trans {a b c : Block} (hab : Follows a b) (hbc : Follows b c) : Follows a c := by
  rcases hab with hab | ⟨hab, -⟩
  · rcases hbc with hbc | ⟨hbc, -⟩
    · left
      rw [comparePos_iff] at hab hbc ⊢
      omega
    · rw [comparePos_iff, hbc] at hab
      exact Or.inl (comparePos_iff.mpr hab)
  · unfold Follows comparePos at hbc ⊢
    rwa [hab]

/-- An element that a new one neither precedes nor repeats may stand before it. -/
theorem follows_of_not_comparePos {a b : Block} (h : ¬ comparePos b.type a)
    (hrepeat : a.type = b.type → (FieldInfo.ofType b.type).isRepeatable = true) : Follows a b := by
  by_cases htype : a.type = b.type
  · exact Or.inr ⟨htype, hrepeat htype⟩
  · left
    rw [comparePos_iff] at h ⊢
    omega

theorem insert_perm (element : Block) (elements : List Block) :
    (insert element elements).Perm (element :: elements) := by
  induction elements with
  | nil => exact .refl _
  | cons d elements ih =>
      unfold insert
      split
      · exact .refl _
      · exact (ih.cons d).trans (.swap element d elements)

theorem mem_insert {element e : Block} {elements : List Block} :
    e ∈ insert element elements ↔ e = element ∨ e ∈ elements := by
  rw [(insert_perm element elements).mem_iff, List.mem_cons]

theorem insert_pairwise {element : Block} {elements : List Block}
    (h : elements.Pairwise Follows) (hrepeat : ∀ e ∈ elements, e.type = element.type →
      (FieldInfo.ofType element.type).isRepeatable = true) :
    (insert element elements).Pairwise Follows := by
  induction elements with
  | nil => exact List.pairwise_singleton _ _
  | cons d elements ih =>
      rcases List.pairwise_cons.mp h with ⟨hd, helements⟩
      unfold insert
      split
      · rename_i hlt
        refine List.pairwise_cons.mpr ⟨fun e he => ?_, h⟩
        rcases List.mem_cons.mp he with rfl | he
        · exact Or.inl hlt
        · exact Follows.trans (Or.inl hlt) (hd e he)
      · rename_i hlt
        have hrest := ih helements fun e he => hrepeat e (List.mem_cons_of_mem _ he)
        refine List.pairwise_cons.mpr ⟨fun e he => ?_, hrest⟩
        rcases mem_insert.mp he with rfl | he
        · exact follows_of_not_comparePos hlt (hrepeat d List.mem_cons_self)
        · exact hd e he

/-- An insertion does not hide other fields. -/
theorem find?_insert (element : Block) (elements : List Block) (tlvType : ℕ)
    (hnew : element.type = tlvType → ∀ e ∈ elements, e.type ≠ tlvType) :
    (insert element elements).find? (fun e => e.type = tlvType) =
      if element.type = tlvType then some element
      else elements.find? fun e => e.type = tlvType := by
  induction elements with
  | nil =>
      rw [insert, List.find?_cons]
      by_cases htype : element.type = tlvType <;> simp [htype]
  | cons d elements ih =>
      have hrest := ih fun htype e he => hnew htype e (List.mem_cons_of_mem _ he)
      unfold insert
      split
      · rw [List.find?_cons]
        by_cases htype : element.type = tlvType <;> simp [htype]
      · rw [List.find?_cons, hrest, List.find?_cons]
        by_cases htype : element.type = tlvType
        · simp [htype, hnew htype d List.mem_cons_self]
        · simp [htype]

/-! ## Packets that are sent -/

/-- What holds of every packet that is built or decoded. -/
structure WellFormed (pkt : WirePacket) : Prop where
  ordered : pkt.elements.Pairwise Follows
  accepted : ∀ e ∈ pkt.elements, (FieldInfo.ofType e.type).isRecognized = true ∨
    (FieldInfo.ofType e.type).canIgnore = true
  fits : ∀ e ∈ pkt.elements, e.Fits

theorem wellFormed_empty : WellFormed empty := ⟨List.Pairwise.nil, nofun, nofun⟩

theorem ofType_of_mem {field : FieldDecl} (hfield : field ∈ FieldSet) :
    FieldInfo.ofType field.tlvType =
      ⟨field.tlvType, true, false, field.isRepeatable, getLocationSortOrder field.location⟩ := by
  have hall : ∀ field ∈ FieldSet, FieldInfo.ofType field.tlvType =
      ⟨field.tlvType, true, false, field.isRepeatable, getLocationSortOrder field.location⟩ := by
    decide
  exact hall field hfield

theorem has_eq_false {pkt : WirePacket} {field : FieldDecl} :
    pkt.has field = false ↔ ∀ e ∈ pkt.elements, e.type ≠ field.tlvType := by
  rw [has, find?, Option.isSome_eq_false_iff, Option.isNone_iff_eq_none, List.find?_eq_none]
  exact forall₂_congr fun e _ => not_congr decide_eq_true_iff

/-- A field that is not there can be added, and is then found beside the others. -/
theorem add_spec {pkt : WirePacket} (h : pkt.WellFormed) {field : FieldDecl}
    (hfield : field ∈ FieldSet) (hnew : pkt.has field = false) {value : Bytes}
    (hvalue : value.length < 2 ^ 64) :
    ∃ pkt', pkt.add field value = .ok pkt' ∧ pkt'.WellFormed ∧
      pkt'.elements.Perm (⟨field.tlvType, value⟩ :: pkt.elements) ∧ ∀ other : FieldDecl,
        pkt'.find? other = if field.tlvType = other.tlvType then some ⟨field.tlvType, value⟩
          else pkt.find? other := by
  have hnone := has_eq_false.mp hnew
  have hinfo := ofType_of_mem hfield
  have hbound : ∀ field ∈ FieldSet, field.tlvType ≠ 0 ∧ field.tlvType ≤ 4294967295 := by decide
  refine ⟨⟨insert ⟨field.tlvType, value⟩ pkt.elements⟩, if_neg (by simp [hnew]), ?_,
    insert_perm _ _, ?_⟩
  · constructor
    · exact insert_pairwise h.ordered fun e he htype => absurd htype (hnone e he)
    · intro e he
      rcases mem_insert.mp he with rfl | he
      · exact Or.inl (by rw [hinfo])
      · exact h.accepted e he
    · intro e he
      rcases mem_insert.mp he with rfl | he
      · exact ⟨(hbound field hfield).1, (hbound field hfield).2, hvalue⟩
      · exact h.fits e he
  · intro other
    exact find?_insert _ _ _ fun htype e he => htype ▸ hnone e he

theorem follows_iff (first second : Block) : Follows first second ↔
    ¬ (second.type = first.type ∧ (FieldInfo.ofType second.type).isRepeatable = false) ∧
      ¬ (second.type ≠ first.type ∧ ¬ comparePos first.type second) := by
  unfold Follows
  by_cases htype : first.type = second.type
  · have hirrefl : ¬ comparePos first.type second := by
      rw [comparePos_iff, htype]
      omega
    rw [htype] at hirrefl
    simp [htype, hirrefl]
  · simp [htype, Ne.symm htype]

theorem checkField_eq_ok {prev : Option Block} {element : Block} {info : FieldInfo} :
    checkField (prev.map fun e => FieldInfo.ofType e.type) element = .ok info ↔
      info = FieldInfo.ofType element.type ∧
        ((FieldInfo.ofType element.type).isRecognized = true ∨
          (FieldInfo.ofType element.type).canIgnore = true) ∧
        ∀ e, prev = some e → Follows e element := by
  unfold checkField
  by_cases hknown : (FieldInfo.ofType element.type).isRecognized = false ∧
      (FieldInfo.ofType element.type).canIgnore = false
  · rw [if_pos hknown, hknown.1, hknown.2]
    simp
  · have haccept : (FieldInfo.ofType element.type).isRecognized = true ∨
        (FieldInfo.ofType element.type).canIgnore = true := by
      rw [not_and_or, Bool.not_eq_false, Bool.not_eq_false] at hknown
      exact hknown
    rw [if_neg hknown, and_iff_right haccept]
    cases prev with
    | none => simp [eq_comm]
    | some e =>
        have hprev : (∀ d, some e = some d → Follows d element) ↔ Follows e element := by simp
        rw [hprev, follows_iff]
        change (if _ then _ else if _ then _ else _) = _ ↔ _
        rw [tlvType_ofType, tlvType_ofType]
        split_ifs with h1 h2
        · exact iff_of_false nofun fun h => h.2.1 h1
        · exact iff_of_false nofun fun h => h.2.2 h2
        · rw [Except.ok.injEq, eq_comm]
          exact (and_iff_left ⟨h1, h2⟩).symm

/-- The decoder accepts exactly the fields in order. -/
theorem checkFields_eq_ok (prev : Option Block) (elements : List Block) :
    checkFields (prev.map fun e => FieldInfo.ofType e.type) elements = .ok () ↔
      (prev.toList ++ elements).IsChain Follows ∧
        ∀ e ∈ elements, (FieldInfo.ofType e.type).isRecognized = true ∨
          (FieldInfo.ofType e.type).canIgnore = true := by
  induction elements generalizing prev with
  | nil => cases prev <;> simp [checkFields]
  | cons element elements ih =>
      have hchain : (prev.toList ++ element :: elements).IsChain Follows ↔
          (∀ e, prev = some e → Follows e element) ∧ (element :: elements).IsChain Follows := by
        cases prev <;> simp
      rw [checkFields, hchain, List.forall_mem_cons]
      cases hcheck : checkField (prev.map fun e => FieldInfo.ofType e.type) element with
      | error e =>
          refine iff_of_false nofun fun h => ?_
          have hok := checkField_eq_ok.mpr ⟨rfl, h.2.1, h.1.1⟩
          rw [hcheck] at hok
          cases hok
      | ok info =>
          rcases checkField_eq_ok.mp hcheck with ⟨rfl, haccept, hprev⟩
          rw [and_iff_right hprev, and_iff_right haccept]
          exact ih (some element)

instance : IsTrans Block Follows := ⟨fun _ _ _ => Follows.trans⟩

/-- A packet with a header is decoded from what it is encoded to. -/
theorem wireDecode_wireEncode {pkt : WirePacket} (h : pkt.WellFormed)
    (hheader : ∃ e ∈ pkt.elements, e.type ≠ FragmentField.tlvType) :
    ∃ wire, pkt.wireEncode = .ok wire ∧ wire = ⟨100, pkt.elements.flatMap Block.wire⟩ ∧
      wireDecode wire = .ok pkt := by
  refine ⟨⟨100, pkt.elements.flatMap Block.wire⟩, ?_, rfl, ?_⟩
  · rcases hheader with ⟨e, he, htype⟩
    unfold wireEncode
    split
    · rename_i element helements
      rw [helements, List.mem_singleton] at he
      rw [helements, if_neg (he ▸ htype), List.flatMap_singleton]
    · rfl
  · have hcheck := (checkFields_eq_ok none pkt.elements).mpr
      ⟨List.isChain_iff_pairwise.mpr h.ordered, h.accepted⟩
    rw [Option.map_none] at hcheck
    unfold wireDecode
    rw [if_neg (by simp), if_neg (by simp), Block.parse_wires h.fits]
    simp only [hcheck]

/-- What is accepted is well formed. -/
theorem wellFormed_of_wireDecode {wire : Block} {pkt : WirePacket}
    (hwire : wire.wire.length < 2 ^ 64) (h : wireDecode wire = .ok pkt) : pkt.WellFormed := by
  unfold wireDecode at h
  split at h
  · rcases add_spec wellFormed_empty (by decide : FragmentField ∈ FieldSet) rfl hwire with
      ⟨pkt', hadd, hpkt', -⟩
    rw [hadd] at h
    exact Except.ok.inj h ▸ hpkt'
  split at h
  · cases h
  split at h
  · cases h
  rename_i elements hparse
  split at h
  · cases h
  rename_i hcheck
  obtain rfl := Except.ok.inj h
  rcases (checkFields_eq_ok none elements).mp hcheck with ⟨hchain, haccept⟩
  exact ⟨List.isChain_iff_pairwise.mp hchain, haccept, Block.fits_of_parseElements hparse⟩

end WirePacket

end Lp

end Cafe
