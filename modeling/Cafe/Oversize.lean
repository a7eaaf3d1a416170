import Cafe.LpTags

/-!
# Tags that are too large for a link

The headers of an alert stand in its first fragment, all of them. An alert
whose tags leave no room there for a byte of the network packet is not sent.
-/

namespace Cafe

open Decoding

namespace Lp

/-- The packet of a Data for the fragmenter. -/
def TaggedData.lpPacket (data : TaggedData) : Packet where
  fragment := some data.wire.block.wire
  sequence := none
  fragIndex := none
  fragCount := none
  congestionMark := data.congestionMark.map UInt64.toNat
  fields := ({ data with congestionMark := none } : TaggedData).lpFields.map fun e =>
    ⟨e.1.tlvType, e.2⟩

/-- The size of the fields of the tags. -/
def Packet.tagSize (pkt : Packet) : ℕ :=
  (pkt.congestionMark.elim 0 fun n => sizeOfElement 832 (sizeOfNonNegativeInteger n)) +
    (pkt.fields.map fun field => sizeOfElement field.type field.value.length).sum

def Packet.payload (pkt : Packet) : ℕ := (pkt.fragment.getD []).length

end Lp

open Lp

/-- The fragmenter takes a packet with headers, as it is or in fragments. -/
def LpFragmenter.HasRoom (mtu headerSize netPktSize : ℕ) : Prop :=
  MAX_SINGLE_FRAG_OVERHEAD + sizeOfElement 100 (headerSize + sizeOfElement 80 netPktSize) ≤ mtu ∨
    MAX_FRAG_OVERHEAD + headerSize + 1 ≤ mtu ∧
      1 + (netPktSize - min netPktSize (mtu - headerSize - MAX_FRAG_OVERHEAD)) /
          (mtu - MAX_FRAG_OVERHEAD) +
        (if (netPktSize - min netPktSize (mtu - headerSize - MAX_FRAG_OVERHEAD)) %
          (mtu - MAX_FRAG_OVERHEAD) ≠ 0 then 1 else 0) ≤ nMaxFragments

/-- All fragments of the packet are sent, whichever are marked for congestion. -/
def GenericLinkService.Transmits (service : GenericLinkService) (pkt : Packet) : Prop :=
  (service.sendNetPacket pkt).2 ≠ [] ∧
    ∀ frag ∈ (service.sendNetPacket pkt).2, ∀ marked, (service.sendLpPacket marked frag).isSome

/-! ## The sizes of packets -/

namespace Lp

theorem sizeOfElement_integer_le {type : ℕ} (htype : type < 253) (n : ℕ) :
    sizeOfElement type (sizeOfNonNegativeInteger n) ≤ 10 := by
  have hle := sizeOfNonNegativeInteger_le n
  have hvar : sizeOfVarNumber (sizeOfNonNegativeInteger n) = 1 := if_pos (by omega)
  have hone : sizeOfVarNumber type = 1 := if_pos htype
  rw [sizeOfElement, hvar, hone]
  omega

theorem headerSize_le (pkt : Packet) : pkt.headerSize ≤ 30 + pkt.tagSize := by
  have hsequence : (if pkt.sequence.isSome then sizeOfElement 81 8 else 0) ≤ 10 := by
    split_ifs <;> decide
  have hindex : (pkt.fragIndex.elim 0 fun n => sizeOfElement 82 (sizeOfNonNegativeInteger n)) ≤
      10 := by
    cases pkt.fragIndex with
    | none => exact Nat.zero_le _
    | some n => exact sizeOfElement_integer_le (by decide) n
  have hcount : (pkt.fragCount.elim 0 fun n => sizeOfElement 83 (sizeOfNonNegativeInteger n)) ≤
      10 := by
    cases pkt.fragCount with
    | none => exact Nat.zero_le _
    | some n => exact sizeOfElement_integer_le (by decide) n
  unfold Packet.headerSize Packet.tagSize
  omega

theorem sizeOfElement_le_ten {type : ℕ} (htype : type < 253) (length : ℕ) :
    sizeOfElement type length ≤ 10 + length := by
  have hone : sizeOfVarNumber type = 1 := if_pos htype
  have hvar := sizeOfVarNumber_le length
  rw [sizeOfElement, hone]
  omega

theorem wireSize_le (pkt : Packet) : pkt.wireSize ≤ 20 + pkt.headerSize + pkt.payload := by
  have hfragment : (pkt.fragment.elim 0 fun bytes => sizeOfElement 80 bytes.length) ≤
      10 + pkt.payload := by
    unfold Packet.payload
    cases pkt.fragment with
    | none => exact Nat.zero_le _
    | some bytes => exact sizeOfElement_le_ten (by decide) _
  unfold Packet.wireSize
  split_ifs
  · unfold Packet.payload
    omega
  · refine (sizeOfElement_le_ten (by decide) _).trans ?_
    omega

theorem le_wireSize (pkt : Packet) : pkt.headerSize + pkt.payload ≤ pkt.wireSize := by
  have hfragment : pkt.payload ≤
      pkt.fragment.elim 0 fun bytes => sizeOfElement 80 bytes.length := by
    unfold Packet.payload
    cases pkt.fragment with
    | none => exact Nat.zero_le _
    | some bytes => exact Nat.le_add_left _ _
  unfold Packet.wireSize
  split_ifs with hbare
  · unfold Packet.payload
    omega
  · unfold sizeOfElement at hfragment ⊢
    omega

/-- A congestion mark takes five bytes at most. -/
theorem tagSize_markCongestion (marked : Bool) (pkt : Packet) :
    (GenericLinkService.markCongestion marked pkt).tagSize ≤ 5 + pkt.tagSize := by
  unfold GenericLinkService.markCongestion
  split
  · have hmark : sizeOfElement 832 (sizeOfNonNegativeInteger 1) = 5 := by decide
    simp only [Packet.tagSize, Option.elim_some, hmark]
    omega
  · exact Nat.le_add_left _ _

theorem payload_markCongestion (marked : Bool) (pkt : Packet) :
    (GenericLinkService.markCongestion marked pkt).payload = pkt.payload := by
  unfold GenericLinkService.markCongestion
  split <;> rfl

theorem headerSize_eq_tagSize {pkt : Packet} (hsequence : pkt.sequence = none)
    (hindex : pkt.fragIndex = none) (hcount : pkt.fragCount = none) :
    pkt.headerSize = pkt.tagSize := by
  simp [Packet.headerSize, Packet.tagSize, hsequence, hindex, hcount]

end Lp

namespace LpFragmenter

/-- The fragments behind the first one. -/
theorem payload_populate_le {fragCount payloadSize fragIndex n : ℕ} {bytes : Bytes} :
    ∀ frag ∈ populate fragCount payloadSize fragIndex payloadSize bytes
      (List.replicate n Packet.empty), frag.tagSize + frag.payload ≤ payloadSize := by
  induction n generalizing fragIndex bytes with
  | zero => exact nofun
  | succ n ih =>
      intro frag hfrag
      rw [List.replicate_succ, populate] at hfrag
      split at hfrag
      · rw [← List.replicate_succ] at hfrag
        rw [List.eq_of_mem_replicate hfrag]
        exact Nat.zero_le _
      · rcases List.mem_cons.mp hfrag with rfl | hfrag
        · have htag : Packet.tagSize { Packet.empty with
              fragIndex := some fragIndex
              fragCount := some fragCount
              fragment := some (bytes.take payloadSize) } = 0 := rfl
          rw [htag, Nat.zero_add]
          exact List.length_take_le _ _
        · exact ih frag hfrag

/-- Each fragment leaves room for its own headers. -/
theorem tagSize_fragmentPacket_le {packet : Packet} {bytes : Bytes}
    (hbytes : packet.fragment = some bytes) (hne : bytes ≠ [])
    (hheader : packet.headerSize = packet.tagSize) {mtu : ℕ} {frags : List Packet}
    (h : fragmentPacket packet mtu = some frags) (hlong : frags ≠ [packet]) :
    ∀ frag ∈ frags, MAX_FRAG_OVERHEAD + frag.tagSize + frag.payload ≤ mtu := by
  unfold fragmentPacket at h
  split at h
  · exact absurd (Option.some.inj h).symm hlong
  simp only [Option.ite_none_left_eq_some] at h
  rcases h with ⟨hroom, -, h⟩
  obtain rfl := Option.some.inj h
  intro frag hfrag
  rw [hbytes, Option.getD_some, populate, if_neg hne] at hfrag
  rw [hheader] at hroom hfrag
  rcases List.mem_cons.mp hfrag with rfl | hfrag
  · have hpayload : (bytes.take (min bytes.length
        (mtu - packet.tagSize - MAX_FRAG_OVERHEAD))).length ≤
          mtu - packet.tagSize - MAX_FRAG_OVERHEAD :=
      (List.length_take_le _ _).trans (min_le_right _ _)
    change MAX_FRAG_OVERHEAD + packet.tagSize + (bytes.take _).length ≤ mtu
    omega
  · have hpayload := payload_populate_le frag hfrag
    omega

/-- Only a packet that is not fragmented stays as it is. -/
theorem fits_of_fragmentPacket {packet : Packet} {bytes : Bytes}
    (hbytes : packet.fragment = some bytes) (hne : bytes ≠ []) (hindex : packet.fragIndex = none)
    {mtu : ℕ} (h : fragmentPacket packet mtu = some [packet]) :
    MAX_SINGLE_FRAG_OVERHEAD + packet.wireSize ≤ mtu := by
  unfold fragmentPacket at h
  split at h
  · assumption
  simp only [Option.ite_none_left_eq_some] at h
  have hfrags := Option.some.inj h.2.2
  rw [hbytes, Option.getD_some, populate, if_neg hne] at hfrags
  have hhead := congrArg Packet.fragIndex (List.cons.inj hfrags).1
  rw [hindex] at hhead
  cases hhead

theorem fragmentPacket_ne_nil {packet : Packet} {mtu : ℕ} {frags : List Packet}
    (h : fragmentPacket packet mtu = some frags) : frags ≠ [] := by
  unfold fragmentPacket at h
  split at h
  · rw [← Option.some.inj h]
    exact List.cons_ne_nil _ _
  · simp only [Option.ite_none_left_eq_some] at h
    rw [← Option.some.inj h.2.2, ← List.length_pos_iff, length_populate]
    exact Nat.succ_pos _

end LpFragmenter

namespace GenericLinkService

variable {service : GenericLinkService}

theorem sendLpPacket_isSome_iff {marked : Bool} {pkt : Packet} :
    (service.sendLpPacket marked pkt).isSome ↔
      (markCongestion marked pkt).wireSize ≤ service.mtu := by
  unfold sendLpPacket
  simp only
  split
  · rename_i hlarge
    exact iff_of_false nofun (not_le.mpr hlarge)
  · rename_i hfits
    exact iff_of_true rfl (not_lt.mp hfits)

theorem exists_of_mem_assignSequences {frags : List Packet} {lastSeqNo : UInt64} {frag : Packet}
    (h : frag ∈ (assignSequences lastSeqNo frags).2) :
    ∃ frag' ∈ frags, frag.tagSize = frag'.tagSize ∧ frag.payload = frag'.payload := by
  induction frags generalizing lastSeqNo with
  | nil => cases h
  | cons first frags ih =>
      rcases List.mem_cons.mp h with rfl | h
      · exact ⟨first, List.mem_cons_self, rfl, rfl⟩
      · rcases ih h with ⟨frag', hmem, hsame⟩
        exact ⟨frag', List.mem_cons_of_mem _ hmem, hsame⟩

/-- There is always room for a congestion mark. -/
theorem sendLpPacket_of_fragment {frag : Packet} (hroom : CONGESTION_MARK_SIZE ≤ service.mtu)
    (h : LpFragmenter.MAX_FRAG_OVERHEAD + frag.tagSize + frag.payload ≤
      service.mtu - CONGESTION_MARK_SIZE) (marked : Bool) :
    (service.sendLpPacket marked frag).isSome := by
  have hsize := wireSize_le (markCongestion marked frag)
  have hheader := headerSize_le (markCongestion marked frag)
  have htag := tagSize_markCongestion marked frag
  have hpayload := payload_markCongestion marked frag
  have hoverhead : LpFragmenter.MAX_FRAG_OVERHEAD = 50 := rfl
  have hmark : CONGESTION_MARK_SIZE = 12 := rfl
  rw [sendLpPacket_isSome_iff]
  omega

theorem sendLpPacket_of_single {pkt : Packet} (hsequence : pkt.sequence = none)
    (hindex : pkt.fragIndex = none) (hcount : pkt.fragCount = none)
    (h : LpFragmenter.MAX_SINGLE_FRAG_OVERHEAD + pkt.wireSize ≤ service.mtu) (marked : Bool) :
    (service.sendLpPacket marked pkt).isSome := by
  have hsize := wireSize_le (markCongestion marked pkt)
  have hheader : (markCongestion marked pkt).headerSize = (markCongestion marked pkt).tagSize := by
    apply headerSize_eq_tagSize <;> unfold markCongestion <;> split <;> assumption
  have htag := tagSize_markCongestion marked pkt
  have hpayload := payload_markCongestion marked pkt
  have hle := le_wireSize pkt
  rw [headerSize_eq_tagSize hsequence hindex hcount] at hle
  have hoverhead : LpFragmenter.MAX_SINGLE_FRAG_OVERHEAD = 30 := rfl
  rw [sendLpPacket_isSome_iff]
  omega

theorem sendNetPacket_eq_nil {pkt : Packet} (h : ¬ (CONGESTION_MARK_SIZE ≤ service.mtu ∧
    (LpFragmenter.fragmentPacket pkt (service.mtu - CONGESTION_MARK_SIZE)).isSome)) :
    (service.sendNetPacket pkt).2 = [] := by
  have hnil : service.fragments pkt = [] := by
    unfold fragments
    split
    · rfl
    · rename_i hroom
      rw [and_iff_right (not_lt.mp hroom), Option.not_isSome_iff_eq_none] at h
      rw [h]
      rfl
  simp [sendNetPacket, hnil]

/-- What the fragmenter accepts is sent, whole. -/
theorem transmits_iff {pkt : Packet} (hsequence : pkt.sequence = none)
    (hindex : pkt.fragIndex = none) (hcount : pkt.fragCount = none) {bytes : Bytes}
    (hbytes : pkt.fragment = some bytes) (hne : bytes ≠ []) :
    service.Transmits pkt ↔ CONGESTION_MARK_SIZE ≤ service.mtu ∧
      (LpFragmenter.fragmentPacket pkt (service.mtu - CONGESTION_MARK_SIZE)).isSome := by
  have hheader := headerSize_eq_tagSize hsequence hindex hcount
  by_cases haccept : CONGESTION_MARK_SIZE ≤ service.mtu ∧
      (LpFragmenter.fragmentPacket pkt (service.mtu - CONGESTION_MARK_SIZE)).isSome
  · refine iff_of_true ?_ haccept
    rcases haccept with ⟨hmtu, hsome⟩
    rcases Option.isSome_iff_exists.mp hsome with ⟨frags, hfrags⟩
    have hsend : service.fragments pkt = frags := by
      simp [fragments, not_lt.mpr hmtu, hfrags]
    have hnonempty := LpFragmenter.fragmentPacket_ne_nil hfrags
    unfold Transmits sendNetPacket
    rw [hsend]
    by_cases hsingle : frags = [pkt]
    · subst hsingle
      have hfits := LpFragmenter.fits_of_fragmentPacket hbytes hne hindex hfrags
      refine ⟨hnonempty, fun frag hfrag => ?_⟩
      rw [List.mem_singleton.mp hfrag]
      exact sendLpPacket_of_single hsequence hindex hcount (hfits.trans (Nat.sub_le _ _))
    · have hload := LpFragmenter.tagSize_fragmentPacket_le hbytes hne hheader hfrags hsingle
      dsimp only
      split
      · refine ⟨?_, fun frag hfrag => ?_⟩
        · rw [← List.length_pos_iff,
            ← (alike_assignSequences frags service.lastSeqNo).length_eq]
          exact List.length_pos_iff.mpr hnonempty
        · rcases exists_of_mem_assignSequences hfrag with ⟨frag', hmem, htag, hpayload⟩
          have hle := hload frag' hmem
          rw [← htag, ← hpayload] at hle
          exact sendLpPacket_of_fragment hmtu hle
      · exact ⟨hnonempty, fun frag hfrag => sendLpPacket_of_fragment hmtu (hload frag hfrag)⟩
  · exact iff_of_false (fun h => h.1 (sendNetPacket_eq_nil haccept)) haccept

end GenericLinkService

namespace LpFragmenter

theorem fragmentPacket_isSome_iff {packet : Packet} {bytes : Bytes}
    (hbytes : packet.fragment = some bytes) (hheader : packet.headerSize ≠ 0) (mtu : ℕ) :
    (fragmentPacket packet mtu).isSome ↔ HasRoom mtu packet.headerSize bytes.length := by
  have hsize : packet.wireSize =
      sizeOfElement 100 (packet.headerSize + sizeOfElement 80 bytes.length) := by
    rw [Packet.wireSize, if_neg fun h => hheader h.1, hbytes]
    rfl
  unfold fragmentPacket HasRoom
  rw [hsize, hbytes, Option.getD_some]
  split
  · rename_i hfits
    exact iff_of_true rfl (Or.inl hfits)
  · rename_i hlarge
    have hnone : ∀ {p : Prop} [Decidable p] {frags : Option (List Packet)},
        (if p then none else frags).isSome ↔ ¬ p ∧ frags.isSome := by
      intro p _ frags
      by_cases hp : p <;> simp [hp]
    rw [or_iff_right hlarge, hnone, hnone, Option.isSome_some, eq_self, and_true, not_lt,
      not_lt]

end LpFragmenter

/-! ## Alerts with and without destinations -/

namespace Lp

/-- The sizes of the fields of a Data but for the destinations. -/
def TaggedData.headerSize (data : TaggedData) : ℕ :=
  ({ data with destinationNodes := none } : TaggedData).lpPacket.headerSize

def DestinationNodesTag.size (tag : DestinationNodesTag) : ℕ :=
  sizeOfElement 1072
    (tag.nodes.order.map fun nodeId => 4 + sizeOfNonNegativeInteger nodeId.toNat).sum

theorem lpFields_destinationNodes (data : TaggedData) : data.lpFields =
    ({ data with destinationNodes := none } : TaggedData).lpFields ++
      optionalField DestinationNodesField
        (data.destinationNodes.map fun tag => tag.wireEncodeTo.value) := by
  simp [TaggedData.lpFields, optionalField]

theorem headerSize_lpPacket (data : TaggedData) : data.lpPacket.headerSize =
    data.headerSize + data.destinationNodes.elim 0 DestinationNodesTag.size := by
  have htag : (({ data with congestionMark := none } : TaggedData).lpFields.map fun e =>
      sizeOfElement e.1.tlvType e.2.length).sum =
        (({ data with congestionMark := none, destinationNodes := none } :
          TaggedData).lpFields.map fun e => sizeOfElement e.1.tlvType e.2.length).sum +
        data.destinationNodes.elim 0 DestinationNodesTag.size := by
    rw [lpFields_destinationNodes, List.map_append, List.sum_append]
    cases data.destinationNodes with
    | none => rfl
    | some tag =>
        simp only [optionalField, Option.map_some, Option.toList_some, List.map_cons,
          List.map_nil, List.sum_singleton, Option.elim_some, DestinationNodesTag.size,
          ← DestinationNodesTag.length_wireEncodeTo]
        rfl
  unfold TaggedData.headerSize
  rw [headerSize_eq_tagSize rfl rfl rfl, headerSize_eq_tagSize rfl rfl rfl]
  simp only [Packet.tagSize, TaggedData.lpPacket, List.map_map, Function.comp_def]
  omega

theorem headerSize_ne_zero (data : TaggedData) : data.lpPacket.headerSize ≠ 0 := by
  rw [headerSize_eq_tagSize rfl rfl rfl]
  simp only [Packet.tagSize, TaggedData.lpPacket, TaggedData.lpFields, optionalField,
    List.map_append, List.sum_append, Option.map_some, Option.toList_some, List.map_cons,
    List.map_nil, List.sum_singleton, HopCountTagField]
  have hhop : 0 < sizeOfElement 84 (integerValue (data.hopCount.getD 0).toUInt16.toNat).length := by
    unfold sizeOfElement sizeOfVarNumber
    simp
  omega

theorem headerSize_eq_lpFields (data : TaggedData) : data.lpPacket.headerSize =
    (data.lpFields.map fun e => sizeOfElement e.1.tlvType e.2.length).sum := by
  have hsplit : data.lpFields = optionalField CongestionMarkField
      (data.congestionMark.map fun mark => integerValue mark.toNat) ++
        ({ data with congestionMark := none } : TaggedData).lpFields := by
    simp [TaggedData.lpFields, optionalField]
  rw [headerSize_eq_tagSize rfl rfl rfl, hsplit, List.map_append, List.sum_append]
  simp only [Packet.tagSize, TaggedData.lpPacket, List.map_map, Function.comp_def]
  congr 1
  cases data.congestionMark with
  | none => rfl
  | some mark =>
      simp [optionalField, integerValue, CongestionMarkField]

/-- The packet has the size of the block that the fields are encoded to. -/
theorem wireSize_lpPacket {data : TaggedData} {lpPacket : WirePacket} {wire : Block}
    (hsend : doSendData data = .ok lpPacket) (hencode : lpPacket.wireEncode = .ok wire) :
    data.lpPacket.wireSize = wire.wire.length := by
  rcases doSendData_spec data with ⟨lpPacket', hsend', hwell, hperm, hfind⟩
  obtain rfl : lpPacket' = lpPacket := Except.ok.inj (hsend'.symm.trans hsend)
  have hheader : ∃ e ∈ lpPacket'.elements, e.type ≠ FragmentField.tlvType :=
    ⟨_, List.mem_of_find?_eq_some (hfind HopCountTagField), (by decide : 84 ≠ 80)⟩
  rcases WirePacket.wireDecode_wireEncode hwell hheader with ⟨wire', hencode', rfl, -⟩
  obtain rfl := Except.ok.inj (hencode'.symm.trans hencode)
  rw [Packet.wireSize, if_neg fun h => headerSize_ne_zero data h.1, Block.length_wire,
    (hperm.flatMap_right Block.wire).length_eq, List.flatMap_cons, List.length_append,
    Block.length_wire, Block.length_flatMap_wire, headerSize_eq_lpFields, List.map_map,
    Nat.add_comm]
  rfl

/-- There is room for headers of the size in the first fragment. -/
def TaggedData.HasRoom (data : TaggedData) (service : GenericLinkService) (size : ℕ) : Prop :=
  GenericLinkService.CONGESTION_MARK_SIZE ≤ service.mtu ∧
    LpFragmenter.HasRoom (service.mtu - GenericLinkService.CONGESTION_MARK_SIZE) size
      data.wire.block.wire.length

/-- An alert is sent iff its headers leave room in the first fragment, and
otherwise none of it is. -/
theorem transmits_lpPacket_iff (service : GenericLinkService) (data : TaggedData) :
    (service.Transmits data.lpPacket ↔ data.HasRoom service
      (data.headerSize + data.destinationNodes.elim 0 DestinationNodesTag.size)) ∧
      (service.Transmits data.lpPacket ∨ (service.sendNetPacket data.lpPacket).2 = []) := by
  have hiff : service.Transmits data.lpPacket ↔ _ :=
    GenericLinkService.transmits_iff rfl rfl rfl rfl data.wire.block.wire_ne_nil
  refine ⟨?_, ?_⟩
  · rw [hiff, LpFragmenter.fragmentPacket_isSome_iff rfl (headerSize_ne_zero data),
      headerSize_lpPacket]
    rfl
  · rw [hiff]
    exact or_iff_not_imp_left.mpr GenericLinkService.sendNetPacket_eq_nil

def TaggedData.untagged (data : TaggedData) : TaggedData := { data with destinationNodes := none }

def TaggedData.tagged (data : TaggedData) (tag : DestinationNodesTag) : TaggedData :=
  { data with destinationNodes := some tag }

/-- With a tag for destinations an alert is sent iff there is room for its
headers and the tag, without one iff there is room for its headers. Otherwise
nothing of it is sent. -/
theorem transmits_destinationNodes_iff (service : GenericLinkService) (data : TaggedData)
    (tag : DestinationNodesTag) :
    (service.Transmits data.untagged.lpPacket ↔ data.HasRoom service data.headerSize) ∧
      (service.Transmits (data.tagged tag).lpPacket ↔
        data.HasRoom service (data.headerSize + tag.size)) ∧
      (service.Transmits data.untagged.lpPacket ∨
        (service.sendNetPacket data.untagged.lpPacket).2 = []) ∧
      (service.Transmits (data.tagged tag).lpPacket ∨
        (service.sendNetPacket (data.tagged tag).lpPacket).2 = []) :=
  have hplain := transmits_lpPacket_iff service data.untagged
  have htagged := transmits_lpPacket_iff service (data.tagged tag)
  ⟨hplain.1, htagged.1, hplain.2, htagged.2⟩

theorem nodup_map_ofNat_range {n : ℕ} (h : n ≤ 4294967296) :
    ((List.range n).map UInt32.ofNat).Nodup := by
  refine List.Nodup.map_on (fun k hk m hm heq => ?_) List.nodup_range
  have htoNat := congrArg UInt32.toNat heq
  rw [List.mem_range] at hk hm
  rwa [UInt32.toNat_ofNat', UInt32.toNat_ofNat', Nat.mod_eq_of_lt (hk.trans_le h),
    Nat.mod_eq_of_lt (hm.trans_le h)] at htoNat

/-- The ids from 0 on. -/
def firstNodes (n : ℕ) (h : n ≤ 4294967296) : NodeSet :=
  ⟨(List.range n).map UInt32.ofNat, nodup_map_ofNat_range h⟩

/-- A Data without tags. -/
def TaggedData.ofWire (wire : DataWire) : TaggedData where
  wire := wire
  congestionMark := none
  pitToken := none
  hopCount := none
  cachePolicy := none
  senderType := none
  senderPosition := none
  destinationNodes := none

/-- An alert without content goes over a link with an MTU of 1500, but not with
300 destinations. -/
theorem not_transmits_manyNodes :
    let wire : DataWire := ⟨⟨6, [7, 3, 8, 1, 97, 20, 0, 21, 0, 22, 3, 27, 1, 0, 23, 0]⟩, rfl,
      by decide⟩
    let tag : DestinationNodesTag := .ofNodes (firstNodes 300 (by decide))
    (GenericLinkService.init 1500).Transmits (TaggedData.ofWire wire).lpPacket ∧
      ((GenericLinkService.init 1500).sendNetPacket
        ((TaggedData.ofWire wire).tagged tag).lpPacket).2 = [] := by
  intro wire tag
  constructor
  · refine (transmits_lpPacket_iff _ _).1.mpr ⟨by decide, Or.inl ?_⟩
    decide
  · have hsend := transmits_lpPacket_iff (GenericLinkService.init 1500)
      ((TaggedData.ofWire wire).tagged tag)
    refine hsend.2.resolve_left fun h => ?_
    rcases hsend.1.mp h with ⟨-, hroom⟩
    have hsize : 1500 ≤ tag.size := by
      have hsum := List.card_nsmul_le_sum (tag.nodes.order.map fun nodeId =>
        4 + sizeOfNonNegativeInteger nodeId.toNat) 5 (by
          intro n hn
          rcases List.mem_map.mp hn with ⟨nodeId, -, rfl⟩
          exact Nat.add_le_add_left (sizeOfNonNegativeInteger_pos _) 4)
      have hlength : tag.nodes.order.length = 300 := by
        simp [tag, DestinationNodesTag.ofNodes, firstNodes]
      rw [List.length_map, hlength] at hsum
      exact hsum.trans (Nat.le_add_left _ _)
    have hmtu : (GenericLinkService.init 1500).mtu = 1500 := rfl
    have hmark : GenericLinkService.CONGESTION_MARK_SIZE = 12 := rfl
    have hsome : ((TaggedData.ofWire wire).tagged tag).destinationNodes.elim 0
        DestinationNodesTag.size = tag.size := rfl
    rw [hmtu, hmark, hsome] at hroom
    rcases hroom with hroom | ⟨hroom, -⟩
    · unfold sizeOfElement at hroom
      omega
    · omega

end Lp

end Cafe
