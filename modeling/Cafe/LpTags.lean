import Cafe.DestinationTag
import Cafe.LpFields

/-!
# The tags of a Data on a link

The link service of a sender turns the tags of a Data into fields of an LP
packet, and the link service of a receiver turns these into tags again. Both
have the options of the stack helper: no local fields, no self-learning and
no geo tags.
-/

namespace Cafe

open Decoding

namespace Lp

/-- The encoding of a Data; nothing here looks into it. The bound is that of
the size of a buffer. -/
structure DataWire where
  block : Block
  isData : block.type = 6
  length_lt : block.value.length < 9223372036854775808

structure PitToken where
  bytes : Bytes
  length_pos : 0 < bytes.length
  length_le : bytes.length ≤ 32

/-- The three doubles by their bits. -/
structure SenderPositionTag where
  x : UInt64
  y : UInt64
  z : UInt64
  deriving DecidableEq

/-- A Data with its tags. -/
structure TaggedData where
  wire : DataWire
  congestionMark : Option UInt64
  pitToken : Option PitToken
  hopCount : Option UInt64
  cachePolicy : Option ℕ
  senderType : Option UInt8
  senderPosition : Option SenderPositionTag
  destinationNodes : Option DestinationNodesTag

namespace SenderPositionTag

def wireEncodeTo (tag : SenderPositionTag) : Block :=
  ⟨1071, [makeDoubleBlock 1071 tag.x, makeDoubleBlock 1071 tag.y,
    makeDoubleBlock 1071 tag.z].flatMap Block.wire⟩

def wireDecode (wire : Block) : Except (Decoding.Fault String) SenderPositionTag :=
  if wire.type ≠ 1071 then
    .error (.rejected "expecting SenderPositionTag block")
  else
    match wire.parse with
    | .error e => .error e
    | .ok (x :: y :: z :: _) =>
        if x.type = 1071 ∧ y.type = 1071 ∧ z.type = 1071 then do
          pure ⟨← readDouble x, ← readDouble y, ← readDouble z⟩
        else
          .error (.rejected "Unexpected input while decoding SenderPositionTag")
    | .ok _ => .error (.rejected "Unexpected input while decoding SenderPositionTag")

end SenderPositionTag

namespace CachePolicy

/-- The policy that a block announces; only `NO_CACHE` is known. -/
def wireDecode (wire : Block) : Except (Decoding.Fault String) ℕ :=
  match wire.parse with
  | .error e => .error e
  | .ok [] => .error (.rejected "Empty CachePolicy")
  | .ok (element :: _) =>
      if element.type = 821 then
        match readNonNegativeInteger element with
        | .error e => .error e
        | .ok policy =>
            if policy > 2147483647 then
              .error (.rejected "Value in TLV element of type 821 is too large")
            else if policy = 1 then .ok policy
            else .error (.rejected "Unknown CachePolicyType")
      else
        .error (.rejected ("Expecting CachePolicyType element, but TLV has type " ++
          toString element.type))

end CachePolicy

namespace DestinationNodesTag

/-- A new tag decodes the block. -/
def ofBlock (wire : Block) : Except (Decoding.Fault String) DestinationNodesTag :=
  match (ofNodes .empty).wireDecode wire with
  | (.ok (), tag) => .ok tag
  | (.error e, _) => .error e

end DestinationNodesTag

/-! ## The link service of the sender -/

/-- The value of a number's field. -/
def integerValue (n : ℕ) : Bytes := bigEndian (sizeOfNonNegativeInteger n) n

def optionalField (field : FieldDecl) (value : Option Bytes) : List (FieldDecl × Bytes) :=
  (value.map (Prod.mk field)).toList

/-- The fields of a Data's tags, in the order of the calls of `add`. Without a
hop count the field counts 0, and a count is narrowed to 16 bits. -/
def TaggedData.lpFields (data : TaggedData) : List (FieldDecl × Bytes) :=
  optionalField CongestionMarkField
      (data.congestionMark.map fun mark => integerValue mark.toNat) ++
    optionalField PitTokenField (data.pitToken.map fun token => token.bytes) ++
    optionalField HopCountTagField
      (some (integerValue (data.hopCount.getD 0).toUInt16.toNat)) ++
    optionalField SenderTypeField (data.senderType.map fun type => integerValue type.toNat) ++
    optionalField SenderPositionField
      (data.senderPosition.map fun tag => tag.wireEncodeTo.value) ++
    optionalField DestinationNodesField
      (data.destinationNodes.map fun tag => tag.wireEncodeTo.value)

def encodeLpFields (data : TaggedData) (lpPacket : WirePacket) :
    Except (Decoding.Fault String) WirePacket :=
  data.lpFields.foldlM (fun pkt field => pkt.add field.1 field.2) lpPacket

/-- The packet that `doSendData` passes on. -/
def doSendData (data : TaggedData) : Except (Decoding.Fault String) WirePacket := do
  let lpPacket ← WirePacket.wireDecode data.wire.block
  encodeLpFields data lpPacket

/-! ## The link service of the receiver -/

/-- `get` of a field, if the packet has it. -/
def WirePacket.get? {α : Type} (pkt : WirePacket) (field : FieldDecl)
    (decode : Block → Except (Decoding.Fault String) α) :
    Except (Decoding.Fault String) (Option α) :=
  match pkt.find? field with
  | none => .ok none
  | some block => (decode block).map some

/-- A Data that is dropped is not received. -/
def decodeData (netPkt : DataWire) (firstPkt : WirePacket) :
    Except (Decoding.Fault String) (Option TaggedData) := do
  let hopCount ← firstPkt.get? HopCountTagField readNonNegativeInteger
  if firstPkt.has NackField then pure none
  else if firstPkt.has NextHopFaceIdField then pure none
  else do
    let cachePolicy ← firstPkt.get? CachePolicyField CachePolicy.wireDecode
    let congestionMark ← firstPkt.get? CongestionMarkField readNonNegativeInteger
    if firstPkt.has NonDiscoveryField then pure none
    else do
      let senderType ← firstPkt.get? SenderTypeField readNonNegativeInteger
      let senderPosition ← firstPkt.get? SenderPositionField SenderPositionTag.wireDecode
      let destinationNodes ← firstPkt.get? DestinationNodesField DestinationNodesTag.ofBlock
      pure (some {
        wire := netPkt
        congestionMark := congestionMark.map UInt64.ofNat
        pitToken := none
        hopCount := hopCount.map fun n => UInt64.ofNat ((UInt16.ofNat n).toNat + 1)
        cachePolicy := cachePolicy
        senderType := senderType.map UInt8.ofNat
        senderPosition := senderPosition
        destinationNodes := destinationNodes })

/-! ## The fields of a Data -/

/-- The fields that a Data can get. -/
def sentFields : List FieldDecl :=
  [CongestionMarkField, PitTokenField, HopCountTagField, SenderTypeField, SenderPositionField,
    DestinationNodesField]

theorem optionalField_sublist (field : FieldDecl) (value : Option Bytes) :
    ((optionalField field value).map Prod.fst).Sublist [field] := by
  cases value with
  | none => exact List.nil_sublist _
  | some value => exact List.Sublist.refl _

theorem lpFields_sublist (data : TaggedData) :
    (data.lpFields.map Prod.fst).Sublist sentFields := by
  unfold TaggedData.lpFields
  simp only [List.map_append]
  have hpair := fun field value => optionalField_sublist field value
  exact (((((hpair _ _).append (hpair _ _)).append (hpair _ _)).append (hpair _ _)).append
    (hpair _ _)).append (hpair _ _)

theorem find?_optionalField (field : FieldDecl) (value : Option Bytes) (tlvType : ℕ) :
    ((optionalField field value).find? fun e => e.1.tlvType = tlvType).map
        (fun e => (⟨e.1.tlvType, e.2⟩ : Block)) =
      if tlvType = field.tlvType then value.map (Block.mk field.tlvType) else none := by
  cases value with
  | none => simp [optionalField]
  | some value =>
      by_cases h : field.tlvType = tlvType
      · simp [optionalField, h]
      · simp [optionalField, h, Ne.symm h]

theorem length_integerValue_le (n : ℕ) : (integerValue n).length ≤ 8 := by
  rw [integerValue, length_bigEndian]
  exact sizeOfNonNegativeInteger_le n

theorem length_senderPosition (tag : SenderPositionTag) : tag.wireEncodeTo.value.length = 36 := by
  have hdouble : ∀ x, (makeDoubleBlock 1071 x).value.length = 8 := fun x => length_bigEndian 8 _
  rw [SenderPositionTag.wireEncodeTo, Block.length_flatMap_wire]
  simp only [List.map_cons, List.map_nil, hdouble]
  rfl

theorem forall_optionalField {α : Type} (field : FieldDecl) (tag : Option α) {encode : α → Bytes}
    {bound : ℕ} (h : ∀ a, (encode a).length ≤ bound) :
    ∀ e ∈ optionalField field (tag.map encode), e.2.length ≤ bound := by
  intro e he
  cases tag with
  | none => cases he
  | some a =>
      rw [List.mem_singleton.mp he]
      exact h a

/-- The value of each field is short. -/
theorem length_lpFields (data : TaggedData) : ∀ e ∈ data.lpFields, e.2.length ≤ 34359738368 := by
  have hinteger : ∀ n, (integerValue n).length ≤ 34359738368 :=
    fun n => (length_integerValue_le n).trans (by decide)
  unfold TaggedData.lpFields
  simp only [List.forall_mem_append]
  refine ⟨⟨⟨⟨⟨?_, ?_⟩, ?_⟩, ?_⟩, ?_⟩, ?_⟩
  · exact forall_optionalField _ _ fun mark => hinteger mark.toNat
  · exact forall_optionalField _ _ fun token => token.length_le.trans (by decide)
  · exact forall_optionalField _ (some (data.hopCount.getD 0)) fun n => hinteger n.toUInt16.toNat
  · exact forall_optionalField _ _ fun type => hinteger type.toNat
  · refine forall_optionalField _ _ fun tag => ?_
    rw [length_senderPosition]
    decide
  · refine forall_optionalField _ _ fun tag => (tag.length_wireEncodeTo_le).trans ?_
    have hle := tag.nodes.length_le
    omega

/-- Fields that are not there are added one after the other. -/
theorem foldlM_add_spec {fields : List (FieldDecl × Bytes)} {pkt : WirePacket}
    (h : pkt.WellFormed) (hfields : ∀ e ∈ fields, e.1 ∈ FieldSet)
    (hnodup : (fields.map fun e => e.1.tlvType).Nodup)
    (hnew : ∀ e ∈ fields, pkt.has e.1 = false) (hlength : ∀ e ∈ fields, e.2.length < 2 ^ 64) :
    ∃ pkt', fields.foldlM (fun pkt field => pkt.add field.1 field.2) pkt = .ok pkt' ∧
      pkt'.WellFormed ∧
      pkt'.elements.Perm (pkt.elements ++ fields.map fun e => ⟨e.1.tlvType, e.2⟩) ∧
      ∀ other : FieldDecl, pkt'.find? other =
        ((fields.find? fun e => e.1.tlvType = other.tlvType).map fun e =>
          ⟨e.1.tlvType, e.2⟩).or (pkt.find? other) := by
  induction fields generalizing pkt with
  | nil => exact ⟨pkt, rfl, h, by simp, by simp⟩
  | cons e fields ih =>
      rw [List.map_cons, List.nodup_cons] at hnodup
      rw [List.forall_mem_cons] at hfields hnew hlength
      rcases WirePacket.add_spec h hfields.1 hnew.1 hlength.1 with ⟨pkt₁, hadd, h₁, hperm, hfind⟩
      have hrest : ∀ d ∈ fields, pkt₁.has d.1 = false := by
        intro d hd
        have hne : e.1.tlvType ≠ d.1.tlvType := by
          intro heq
          exact hnodup.1 (heq ▸ List.mem_map_of_mem (f := fun e => e.1.tlvType) hd)
        rw [WirePacket.has, hfind, if_neg hne]
        exact hnew.2 d hd
      rcases ih h₁ hfields.2 hnodup.2 hrest hlength.2 with ⟨pkt', hfold, h', hperm', hfind'⟩
      refine ⟨pkt', ?_, h', ?_, fun other => ?_⟩
      · rw [List.foldlM_cons, hadd]
        exact hfold
      · refine hperm'.trans ((hperm.append_right _).trans ?_)
        rw [List.map_cons, List.cons_append]
        exact List.perm_middle.symm
      · rw [hfind' other, hfind other, List.find?_cons]
        by_cases htype : e.1.tlvType = other.tlvType
        · have hnone : fields.find? (fun e => e.1.tlvType = other.tlvType) = none := by
            rw [List.find?_eq_none]
            intro d hd heq
            rw [decide_eq_true_iff, ← htype] at heq
            exact hnodup.1 (heq ▸ List.mem_map_of_mem (f := fun e => e.1.tlvType) hd)
          simp [htype, hnone]
        · simp [htype]

/-- The field of a type that the packet of a Data has, if there is one. -/
def TaggedData.field (data : TaggedData) (tlvType : ℕ) : Option Block :=
  if tlvType = 80 then some ⟨80, data.wire.block.wire⟩
  else if tlvType = 832 then
    data.congestionMark.map fun mark => ⟨832, integerValue mark.toNat⟩
  else if tlvType = 98 then data.pitToken.map fun token => ⟨98, token.bytes⟩
  else if tlvType = 84 then some ⟨84, integerValue (data.hopCount.getD 0).toUInt16.toNat⟩
  else if tlvType = 1070 then data.senderType.map fun type => ⟨1070, integerValue type.toNat⟩
  else if tlvType = 1071 then
    data.senderPosition.map fun tag => ⟨1071, tag.wireEncodeTo.value⟩
  else if tlvType = 1072 then
    data.destinationNodes.map fun tag => ⟨1072, tag.wireEncodeTo.value⟩
  else none

theorem find?_lpFields (data : TaggedData) {tlvType : ℕ} (hfragment : tlvType ≠ 80) :
    ((data.lpFields.find? fun e => e.1.tlvType = tlvType).map fun e =>
      (⟨e.1.tlvType, e.2⟩ : Block)) = data.field tlvType := by
  simp only [TaggedData.lpFields, List.find?_append, Option.map_or, find?_optionalField,
    CongestionMarkField, PitTokenField, HopCountTagField, SenderTypeField, SenderPositionField,
    DestinationNodesField, Option.map_map, TaggedData.field]
  split_ifs <;> simp_all [Function.comp_def]

/-- The network packet alone is the only field of its packet. -/
theorem wireDecode_dataWire (wire : DataWire) :
    ∃ pkt, WirePacket.wireDecode wire.block = .ok pkt ∧ pkt.WellFormed ∧
      pkt.elements.Perm [⟨80, wire.block.wire⟩] ∧ ∀ field : FieldDecl,
        pkt.find? field = if 80 = field.tlvType then some ⟨80, wire.block.wire⟩ else none := by
  have hwire : wire.block.wire.length < 2 ^ 64 := by
    have hlength := wire.length_lt
    have htype := sizeOfVarNumber_le wire.block.type
    have hvar := sizeOfVarNumber_le wire.block.value.length
    rw [Block.length_wire, sizeOfElement]
    omega
  rcases WirePacket.add_spec WirePacket.wellFormed_empty (by decide : FragmentField ∈ FieldSet)
    rfl hwire with ⟨pkt, hadd, hpkt⟩
  refine ⟨pkt, ?_, hpkt⟩
  rw [WirePacket.wireDecode, if_pos (Or.inr wire.isData)]
  exact hadd

/-- The network packet and its fields make a packet that is well formed. -/
theorem doSendData_spec (data : TaggedData) :
    ∃ lpPacket, doSendData data = .ok lpPacket ∧ lpPacket.WellFormed ∧
      lpPacket.elements.Perm (⟨80, data.wire.block.wire⟩ ::
        data.lpFields.map fun e => ⟨e.1.tlvType, e.2⟩) ∧
      ∀ field : FieldDecl, lpPacket.find? field = data.field field.tlvType := by
  rcases wireDecode_dataWire data.wire with ⟨pkt, hdecode, hpkt, hperm, hfind⟩
  have hsub := lpFields_sublist data
  have hmem : ∀ e ∈ data.lpFields, e.1 ∈ sentFields :=
    fun e he => hsub.subset (List.mem_map_of_mem he)
  have hset : ∀ field ∈ sentFields,
      field ∈ FieldSet ∧ field.tlvType ≠ 80 := by decide
  have hnodup : (data.lpFields.map fun e => e.1.tlvType).Nodup := by
    have htypes := (hsub.map FieldDecl.tlvType).nodup (by decide)
    rwa [List.map_map] at htypes
  have hnew : ∀ e ∈ data.lpFields, pkt.has e.1 = false := by
    intro e he
    have hne := (hset e.1 (hmem e he)).2
    rw [WirePacket.has, hfind, if_neg (Ne.symm hne)]
    rfl
  have hlength : ∀ e ∈ data.lpFields, e.2.length < 2 ^ 64 :=
    fun e he => (length_lpFields data e he).trans_lt (by decide)
  rcases foldlM_add_spec hpkt (fun e he => (hset e.1 (hmem e he)).1) hnodup hnew hlength with
    ⟨lpPacket, hfold, hwell, hperm', hfind'⟩
  refine ⟨lpPacket, ?_, hwell, ?_, fun field => ?_⟩
  · unfold doSendData
    rw [hdecode]
    exact hfold
  · exact hperm'.trans (hperm.append_right _)
  · rw [hfind' field, hfind field]
    by_cases htype : field.tlvType = 80
    · have hnone : data.lpFields.find? (fun e => e.1.tlvType = field.tlvType) = none := by
        rw [List.find?_eq_none]
        intro e he heq
        exact (hset e.1 (hmem e he)).2 ((of_decide_eq_true heq).trans htype)
      rw [hnone, TaggedData.field, if_pos htype, if_pos htype.symm]
      rfl
    · rw [find?_lpFields data htype, if_neg (Ne.symm htype)]
      exact Option.or_none

/-! ## The round trip -/

theorem SenderPositionTag.wireDecode_wireEncodeTo (tag : SenderPositionTag) :
    SenderPositionTag.wireDecode tag.wireEncodeTo = .ok tag := by
  have hfits : ∀ block ∈ [makeDoubleBlock 1071 tag.x, makeDoubleBlock 1071 tag.y,
      makeDoubleBlock 1071 tag.z], block.Fits := by
    simp [makeDoubleBlock_fits]
  have hparse : tag.wireEncodeTo.parse = .ok [makeDoubleBlock 1071 tag.x,
      makeDoubleBlock 1071 tag.y, makeDoubleBlock 1071 tag.z] := Block.parse_wires hfits 1071
  have htype : tag.wireEncodeTo.type = 1071 := rfl
  unfold SenderPositionTag.wireDecode
  rw [if_neg (not_not.mpr htype), hparse]
  simp only
  rw [if_pos ⟨rfl, rfl, rfl⟩, readDouble_make, readDouble_make, readDouble_make]
  rfl

theorem DestinationNodesTag.ofBlock_wireEncodeTo (tag : DestinationNodesTag) :
    ∃ tag', DestinationNodesTag.ofBlock tag.wireEncodeTo = .ok tag' ∧ tag'.get = tag.get := by
  have hrun := wireDecode_of_numbers tag.numbers_wireEncodeTo (ofNodes .empty)
  have hdecode := tag.decode_wireEncodeTo
  rw [decode_of_numbers tag.numbers_wireEncodeTo, Option.some.injEq] at hdecode
  unfold DestinationNodesTag.ofBlock
  rcases hstep : (ofNodes .empty).wireDecode tag.wireEncodeTo with ⟨r, tag'⟩
  rw [hstep] at hrun
  obtain rfl := hrun.1
  exact ⟨tag', rfl, hrun.2.2.trans hdecode⟩

/-- A field is decoded from what its tag was encoded to. -/
theorem get?_of_find? {α β : Type} {pkt : WirePacket} {field : FieldDecl} {tag : Option α}
    {encode : α → Bytes} {decode : Block → Except (Decoding.Fault String) β} (result : α → β)
    (hfind : pkt.find? field = tag.map fun a => ⟨field.tlvType, encode a⟩)
    (hdecode : ∀ a, decode ⟨field.tlvType, encode a⟩ = .ok (result a)) :
    pkt.get? field decode = .ok (tag.map result) := by
  unfold WirePacket.get?
  rw [hfind]
  cases tag with
  | none => rfl
  | some a =>
      simp only [Option.map_some]
      rw [hdecode]
      rfl

theorem readNonNegativeInteger_integerValue (type : ℕ) {n : ℕ} (h : n < 2 ^ 64) :
    readNonNegativeInteger ⟨type, integerValue n⟩ = .ok n :=
  readNonNegativeInteger_make type h

theorem sizeOfElement_le (type length : ℕ) : sizeOfElement type length ≤ 18 + length := by
  have htype := sizeOfVarNumber_le type
  have hvar := sizeOfVarNumber_le length
  rw [sizeOfElement]
  omega

/-- The fields of the tags take little room. -/
theorem length_wires_lpFields (data : TaggedData) :
    ((data.lpFields.map fun e => (⟨e.1.tlvType, e.2⟩ : Block)).flatMap Block.wire).length ≤
      6 * 34359738386 := by
  have hsize : ∀ n ∈ (data.lpFields.map fun e => (⟨e.1.tlvType, e.2⟩ : Block)).map
      fun block => sizeOfElement block.type block.value.length, n ≤ 34359738386 := by
    intro n hn
    rw [List.map_map] at hn
    rcases List.mem_map.mp hn with ⟨e, he, rfl⟩
    have hlength := length_lpFields data e he
    have hle := sizeOfElement_le e.1.tlvType e.2.length
    exact hle.trans (by omega)
  have hcount := (lpFields_sublist data).length_le
  have hsum := List.sum_le_card_nsmul _ _ hsize
  rw [List.length_map, List.length_map, smul_eq_mul, ← Block.length_flatMap_wire] at hsum
  rw [List.length_map] at hcount
  exact hsum.trans (Nat.mul_le_mul_right _ hcount)

/-- The packet of a Data goes over a link as one block. -/
theorem ofSpan_lpPacket (data : TaggedData) {lpPacket : WirePacket}
    (hperm : lpPacket.elements.Perm (⟨80, data.wire.block.wire⟩ ::
      data.lpFields.map fun e => ⟨e.1.tlvType, e.2⟩)) :
    Block.ofSpan (Block.wire ⟨100, lpPacket.elements.flatMap Block.wire⟩) =
      .ok ⟨100, lpPacket.elements.flatMap Block.wire⟩ := by
  have hlt : (lpPacket.elements.flatMap Block.wire).length < 2 ^ 64 := by
    have hfields := length_wires_lpFields data
    have hwire := sizeOfElement_le data.wire.block.type data.wire.block.value.length
    have hfragment := sizeOfElement_le 80 data.wire.block.wire.length
    have hlength := data.wire.length_lt
    rw [(hperm.flatMap_right Block.wire).length_eq, List.flatMap_cons, List.length_append,
      Block.length_wire]
    rw [← Block.length_wire] at hwire
    simp only at hfragment ⊢
    omega
  exact Block.ofSpan_wire (show (100 : ℕ) ≠ 0 by decide) (show (100 : ℕ) ≤ 4294967295 by decide) hlt

/-- The set of the destinations arrives, its order may be another. -/
theorem get?_destinationNodes {data : TaggedData} {lpPacket : WirePacket}
    (hfind : ∀ field : FieldDecl, lpPacket.find? field = data.field field.tlvType) :
    ∃ nodes, lpPacket.get? DestinationNodesField DestinationNodesTag.ofBlock = .ok nodes ∧
      nodes.map DestinationNodesTag.get = data.destinationNodes.map DestinationNodesTag.get := by
  rw [WirePacket.get?, hfind DestinationNodesField]
  change ∃ nodes, (match data.destinationNodes.map fun tag =>
    (⟨1072, tag.wireEncodeTo.value⟩ : Block) with
    | none => Except.ok none
    | some block => (DestinationNodesTag.ofBlock block).map some) = Except.ok nodes ∧ _
  cases data.destinationNodes with
  | none => exact ⟨none, rfl, rfl⟩
  | some tag =>
      rcases tag.ofBlock_wireEncodeTo with ⟨tag', hblock, hget⟩
      exact ⟨some tag', congrArg (Except.map some) hblock, congrArg some hget⟩

theorem decodeData_of_find? {data : TaggedData} {lpPacket : WirePacket}
    (hfind : ∀ field : FieldDecl, lpPacket.find? field = data.field field.tlvType) :
    ∃ data', decodeData data.wire lpPacket = .ok (some data') ∧ data'.wire = data.wire ∧
      data'.senderType = data.senderType ∧ data'.senderPosition = data.senderPosition ∧
      data'.destinationNodes.map DestinationNodesTag.get =
        data.destinationNodes.map DestinationNodesTag.get ∧
      data'.congestionMark = data.congestionMark := by
  have hnack : lpPacket.has NackField = false := congrArg Option.isSome (hfind NackField)
  have hnext : lpPacket.has NextHopFaceIdField = false :=
    congrArg Option.isSome (hfind NextHopFaceIdField)
  have hdiscovery : lpPacket.has NonDiscoveryField = false :=
    congrArg Option.isSome (hfind NonDiscoveryField)
  have hpolicy : lpPacket.get? CachePolicyField CachePolicy.wireDecode = .ok none := by
    rw [WirePacket.get?, hfind CachePolicyField]
    rfl
  have hinteger : ∀ (type n : ℕ), n < 18446744073709551616 →
      readNonNegativeInteger ⟨type, integerValue n⟩ = .ok n :=
    fun type n h => readNonNegativeInteger_integerValue type h
  have hhop : lpPacket.get? HopCountTagField readNonNegativeInteger =
      .ok (some (data.hopCount.getD 0).toUInt16.toNat) := by
    rw [WirePacket.get?, hfind HopCountTagField]
    change (readNonNegativeInteger ⟨84, _⟩).map some = _
    rw [hinteger 84 _ ((UInt16.toNat_lt _).trans (by decide))]
    rfl
  have hmark : lpPacket.get? CongestionMarkField readNonNegativeInteger =
      .ok (data.congestionMark.map UInt64.toNat) :=
    get?_of_find? UInt64.toNat (hfind CongestionMarkField) fun mark => hinteger 832 _ mark.toNat_lt
  have htype : lpPacket.get? SenderTypeField readNonNegativeInteger =
      .ok (data.senderType.map UInt8.toNat) :=
    get?_of_find? UInt8.toNat (hfind SenderTypeField)
      fun type => hinteger 1070 _ (type.toNat_lt.trans (by decide))
  have hposition : lpPacket.get? SenderPositionField SenderPositionTag.wireDecode =
      .ok (data.senderPosition.map id) :=
    get?_of_find? id (hfind SenderPositionField) SenderPositionTag.wireDecode_wireEncodeTo
  rcases get?_destinationNodes hfind with ⟨nodes, hnodes, hget⟩
  unfold decodeData
  rw [hhop, hpolicy, hmark, htype, hposition, hnodes, hnack, hnext, hdiscovery]
  refine ⟨_, rfl, rfl, ?_, Option.map_id', hget, ?_⟩
  · simp [Function.comp_def]
  · simp [Function.comp_def]

/-- The tags of a Data arrive as they were, on any link service with the
options of the stack helper. -/
theorem decodeData_doSendData (data : TaggedData) :
    ∃ lpPacket wire data', doSendData data = .ok lpPacket ∧ lpPacket.wireEncode = .ok wire ∧
      Block.ofSpan wire.wire = .ok wire ∧ WirePacket.wireDecode wire = .ok lpPacket ∧
      (lpPacket.find? FragmentField).map (fun fragment => Block.ofSpan fragment.value) =
        some (.ok data.wire.block) ∧
      decodeData data.wire lpPacket = .ok (some data') ∧ data'.wire = data.wire ∧
      data'.senderType = data.senderType ∧ data'.senderPosition = data.senderPosition ∧
      data'.destinationNodes.map DestinationNodesTag.get =
        data.destinationNodes.map DestinationNodesTag.get ∧
      data'.congestionMark = data.congestionMark := by
  rcases doSendData_spec data with ⟨lpPacket, hsend, hwell, hperm, hfind⟩
  have hheader : ∃ e ∈ lpPacket.elements, e.type ≠ FragmentField.tlvType :=
    ⟨_, List.mem_of_find?_eq_some (hfind HopCountTagField), (by decide : 84 ≠ 80)⟩
  rcases WirePacket.wireDecode_wireEncode hwell hheader with ⟨wire, hencode, rfl, hdecode⟩
  rcases decodeData_of_find? hfind with ⟨data', hdata, hsame⟩
  have hfragment : (lpPacket.find? FragmentField).map
      (fun fragment => Block.ofSpan fragment.value) = some (.ok data.wire.block) := by
    rw [hfind FragmentField]
    refine congrArg some (Block.ofSpan_wire ?_ ?_ ?_)
    · rw [data.wire.isData]
      decide
    · rw [data.wire.isData]
      decide
    · exact data.wire.length_lt.trans (by decide)
  exact ⟨lpPacket, _, data', hsend, hencode, ofSpan_lpPacket data hperm, hdecode, hfragment,
    hdata, hsame⟩

end Lp

end Cafe
