import Cafe.Tlv

/-!
# Fragments of a network packet

A link service puts a network packet into an LP packet with the headers of
its tags. If this is too large for the link, the fragmenter spreads the
network packet over several LP packets. The first one keeps the headers, and
consecutive sequence numbers tell where each belongs.
-/

namespace Cafe

open Decoding

def sizeOfVarNumber (n : ℕ) : ℕ :=
  if n < 253 then 1 else if n ≤ 65535 then 3 else if n ≤ 4294967295 then 5 else 9

def sizeOfNonNegativeInteger (n : ℕ) : ℕ :=
  if n ≤ 255 then 1 else if n ≤ 65535 then 2 else if n ≤ 4294967295 then 4 else 8

def sizeOfElement (type length : ℕ) : ℕ := sizeOfVarNumber type + sizeOfVarNumber length + length

/-- The bytes of a block. -/
def Block.wire (block : Block) : Bytes :=
  prependVarNumber block.type (prependVarNumber block.value.length block.value)

/-- The constructor of a block from a buffer that it may leave in part. -/
def Block.ofSpan (buf : Bytes) : Except (Decoding.Fault String) Block :=
  match Block.header buf 0 with
  | .error e => .error e
  | .ok ((type, length), offset) =>
      if length > buf.length - offset then
        .error (.rejected "Not enough bytes in the buffer to fully parse TLV")
      else
        .ok ⟨type, (buf.drop offset).take length⟩

theorem Block.wire_ne_nil (block : Block) : block.wire ≠ [] := by
  unfold Block.wire prependVarNumber
  split_ifs
  all_goals exact List.cons_ne_nil _ _

theorem Block.ofSpan_wire {block : Block} (h0 : block.type ≠ 0) (htype : block.type ≤ 4294967295)
    (hlength : block.value.length < 2 ^ 64) : Block.ofSpan block.wire = .ok block := by
  rcases block with ⟨type, value⟩
  have hrun := (Block.header_reads h0 htype value.length).at_start (List.prefix_append _ value)
  have hrest : (prependVarNumber type [] ++ prependVarNumber value.length [] ++ value).length -
      (prependVarNumber type [] ++ prependVarNumber value.length []).length = value.length := by
    rw [List.length_append]
    omega
  unfold Block.wire
  rw [prependVarNumber_append type, prependVarNumber_append value.length, ← List.append_assoc]
  unfold Block.ofSpan
  rw [hrun]
  change (if _ then _ else _) = _
  rw [hrest, Nat.mod_eq_of_lt hlength, if_neg (lt_irrefl _), List.drop_left, List.take_length]

namespace Lp

/-- The fields of an LP packet. Those that link services neither set nor read
on their own are kept as blocks. -/
structure Packet where
  fragment : Option Bytes
  sequence : Option UInt64
  fragIndex : Option ℕ
  fragCount : Option ℕ
  congestionMark : Option ℕ
  fields : List Block
  deriving DecidableEq

namespace Packet

def empty : Packet := ⟨none, none, none, none, none, []⟩

/-- The sizes of all elements but the fragment. -/
def headerSize (pkt : Packet) : ℕ :=
  (if pkt.sequence.isSome then sizeOfElement 81 8 else 0) +
    (pkt.fragIndex.elim 0 fun n => sizeOfElement 82 (sizeOfNonNegativeInteger n)) +
    (pkt.fragCount.elim 0 fun n => sizeOfElement 83 (sizeOfNonNegativeInteger n)) +
    (pkt.congestionMark.elim 0 fun n => sizeOfElement 832 (sizeOfNonNegativeInteger n)) +
    (pkt.fields.map fun field => sizeOfElement field.type field.value.length).sum

/-- Without headers the bare network packet is sent. -/
def wireSize (pkt : Packet) : ℕ :=
  if pkt.headerSize = 0 ∧ pkt.fragment.isSome then
    (pkt.fragment.getD []).length
  else
    sizeOfElement 100
      (pkt.headerSize + pkt.fragment.elim 0 fun bytes => sizeOfElement 80 bytes.length)

/-- The headers for the receiver of the network packet. The link service may
have added a congestion mark. -/
structure SameHeader (pkt frag : Packet) : Prop where
  fields : frag.fields = pkt.fields
  mark : frag.congestionMark = pkt.congestionMark ∨ frag.congestionMark = some 1

end Packet

end Lp

/-! ## The fragmenter -/

namespace LpFragmenter

open Lp

def MAX_SINGLE_FRAG_OVERHEAD : ℕ := 1 + 9 + (1 + 1 + 8) + (1 + 9)

def MAX_FRAG_OVERHEAD : ℕ := 1 + 9 + (1 + 1 + 8) + (1 + 1 + 8) + (1 + 1 + 8) + (1 + 9)

def nMaxFragments : ℕ := 400

/-- The loop that populates the fragments, as long as there are bytes. -/
def populate (fragCount payloadSize : ℕ) : ℕ → ℕ → Bytes → List Packet → List Packet
  | _, _, _, [] => []
  | fragIndex, size, bytes, frag :: frags =>
      if bytes = [] then frag :: frags
      else
        { frag with
          fragIndex := some fragIndex
          fragCount := some fragCount
          fragment := some (bytes.take size) } ::
          populate fragCount payloadSize (fragIndex + 1) payloadSize (bytes.drop size) frags

def fragmentPacket (packet : Packet) (mtu : ℕ) : Option (List Packet) :=
  if MAX_SINGLE_FRAG_OVERHEAD + packet.wireSize ≤ mtu then
    some [packet]
  else
    let netPkt := packet.fragment.getD []
    let firstHeaderSize := packet.headerSize
    if MAX_FRAG_OVERHEAD + firstHeaderSize + 1 > mtu then
      none
    else
      let firstPayloadSize := min netPkt.length (mtu - firstHeaderSize - MAX_FRAG_OVERHEAD)
      let payloadSize := mtu - MAX_FRAG_OVERHEAD
      let rest := netPkt.length - firstPayloadSize
      let fragCount := 1 + rest / payloadSize + if rest % payloadSize ≠ 0 then 1 else 0
      if fragCount > nMaxFragments then
        none
      else
        some (populate fragCount payloadSize 0 firstPayloadSize netPkt
          (packet :: List.replicate (fragCount - 1) .empty))

end LpFragmenter

/-! ## The sending side of a link service -/

/-- A link service with the effective MTU of its face; it fragments and marks
congestion, and does not retransmit. -/
structure GenericLinkService where
  mtu : ℕ
  lastSeqNo : UInt64
  deriving DecidableEq

namespace GenericLinkService

open Lp

/-- The room for a congestion mark. -/
def CONGESTION_MARK_SIZE : ℕ := sizeOfVarNumber 832 + sizeOfVarNumber 8 + 8

def init (mtu : ℕ) : GenericLinkService := ⟨mtu, -2⟩

def assignSequences (lastSeqNo : UInt64) : List Packet → UInt64 × List Packet
  | [] => (lastSeqNo, [])
  | pkt :: pkts =>
      let rest := assignSequences (lastSeqNo + 1) pkts
      (rest.1, { pkt with sequence := some (lastSeqNo + 1) } :: rest.2)

/-- There are no fragments if the link is too small for them. -/
def fragments (service : GenericLinkService) (pkt : Packet) : List Packet :=
  if service.mtu < CONGESTION_MARK_SIZE then []
  else (LpFragmenter.fragmentPacket pkt (service.mtu - CONGESTION_MARK_SIZE)).getD []

def sendNetPacket (service : GenericLinkService) (pkt : Packet) :
    GenericLinkService × List Packet :=
  let frags := service.fragments pkt
  if frags.length > 1 then
    let numbered := assignSequences service.lastSeqNo frags
    ({ service with lastSeqNo := numbered.1 }, numbered.2)
  else
    (service, frags)

def markCongestion (marked : Bool) (pkt : Packet) : Packet :=
  if marked then { pkt with congestionMark := some 1 } else pkt

/-- A fragment that is too large with its mark is not sent. -/
def sendLpPacket (service : GenericLinkService) (marked : Bool) (pkt : Packet) : Option Packet :=
  let pkt := markCongestion marked pkt
  if pkt.wireSize > service.mtu then none else some pkt

end GenericLinkService

/-! ## What fragments carry -/

namespace Lp

/-- The fragments `frags` are numbered and together carry the network packet
of `pkt`, the first one also its headers. -/
structure Carries (pkt : Packet) (frags : List Packet) : Prop where
  index : ∀ (j : ℕ) (frag : Packet), frags[j]? = some frag → frag.fragIndex.getD 0 = j
  count : ∀ frag ∈ frags, frag.fragCount.getD 1 = frags.length
  isSome : ∀ frag ∈ frags, frag.fragment.isSome
  whole : (frags.map fun frag => frag.fragment.getD []).flatten = pkt.fragment.getD []
  header : ∀ frag, frags.head? = some frag → pkt.SameHeader frag

theorem Carries.single {pkt : Packet} (hindex : pkt.fragIndex = none)
    (hcount : pkt.fragCount = none) (hfragment : pkt.fragment.isSome) : Carries pkt [pkt] := by
  refine ⟨?_, ?_, ?_, ?_, ?_⟩
  · intro j frag hj
    rcases List.getElem?_eq_some_iff.mp hj with ⟨hlt, rfl⟩
    obtain rfl : j = 0 := by simpa using hlt
    rw [List.getElem_singleton, hindex, Option.getD_none]
  · intro frag hfrag
    rw [List.mem_singleton.mp hfrag, hcount]
    rfl
  · intro frag hfrag
    rw [List.mem_singleton.mp hfrag]
    exact hfragment
  · simp
  · intro frag hfrag
    rw [Option.some.inj hfrag]
    exact ⟨rfl, Or.inl rfl⟩

/-- A fragment as the fragmenter makes it, and as it is sent. -/
structure Alike (frag frag' : Packet) : Prop extends frag.SameHeader frag' where
  fragIndex : frag'.fragIndex = frag.fragIndex
  fragCount : frag'.fragCount = frag.fragCount
  fragment : frag'.fragment = frag.fragment

theorem map_fragment_of_alike {frags frags' : List Packet} (h : List.Forall₂ Alike frags frags') :
    frags'.map (fun frag => frag.fragment.getD []) =
      frags.map fun frag => frag.fragment.getD [] := by
  induction h with
  | nil => rfl
  | cons hsame _ ih => rw [List.map_cons, List.map_cons, hsame.fragment, ih]

theorem Carries.alike {pkt : Packet} {frags frags' : List Packet} (h : Carries pkt frags)
    (halike : List.Forall₂ Alike frags frags') : Carries pkt frags' := by
  have hlength := halike.length_eq
  have hback : ∀ (j : ℕ) (frag' : Packet), frags'[j]? = some frag' →
      ∃ frag, frags[j]? = some frag ∧ Alike frag frag' := by
    intro j frag' hj
    rcases List.getElem?_eq_some_iff.mp hj with ⟨hlt, rfl⟩
    exact ⟨frags[j], List.getElem?_eq_getElem _, halike.get (hlength ▸ hlt) hlt⟩
  refine ⟨?_, ?_, ?_, ?_, ?_⟩
  · intro j frag' hj
    rcases hback j frag' hj with ⟨frag, hfrag, hsame⟩
    rw [hsame.fragIndex]
    exact h.index j frag hfrag
  · intro frag' hmem
    rcases List.getElem?_of_mem hmem with ⟨j, hj⟩
    rcases hback j frag' hj with ⟨frag, hfrag, hsame⟩
    rw [hsame.fragCount, ← hlength]
    exact h.count frag (List.mem_of_getElem? hfrag)
  · intro frag' hmem
    rcases List.getElem?_of_mem hmem with ⟨j, hj⟩
    rcases hback j frag' hj with ⟨frag, hfrag, hsame⟩
    rw [hsame.fragment]
    exact h.isSome frag (List.mem_of_getElem? hfrag)
  · rw [← h.whole]
    exact congrArg List.flatten (map_fragment_of_alike halike)
  · intro frag' hhead
    rw [List.head?_eq_getElem?] at hhead
    rcases hback 0 frag' hhead with ⟨frag, hfrag, hsame⟩
    have hfirst := h.header frag (by rw [List.head?_eq_getElem?, hfrag])
    refine ⟨hsame.fields.trans hfirst.fields, ?_⟩
    rcases hsame.mark with hmark | hmark
    · rw [hmark]
      exact hfirst.mark
    · exact Or.inr hmark

end Lp

namespace LpFragmenter

open Lp

/-- `n` pieces, the first of at most `size` and the others of at most
`payloadSize` bytes, are the right number for `length` bytes. -/
def Fills (payloadSize : ℕ) : ℕ → ℕ → ℕ → Prop
  | 0, _, length => length = 0
  | n + 1, size, length => 0 < length ∧ Fills payloadSize n payloadSize (length - size)

theorem fills_div {payloadSize : ℕ} (h : 0 < payloadSize) (length : ℕ) :
    Fills payloadSize (length / payloadSize + if length % payloadSize ≠ 0 then 1 else 0)
      payloadSize length := by
  induction length using Nat.strong_induction_on with
  | _ length ih =>
      rcases Nat.lt_or_ge length payloadSize with hlt | hge
      · rw [Nat.div_eq_of_lt hlt, Nat.mod_eq_of_lt hlt]
        rcases Nat.eq_zero_or_pos length with rfl | hpos
        · rfl
        · rw [if_pos hpos.ne']
          exact ⟨hpos, Nat.sub_eq_zero_of_le hlt.le⟩
      · have hrest := ih (length - payloadSize) (by omega)
        rw [Nat.div_eq_sub_div h hge, Nat.mod_eq_sub_mod hge, Nat.add_right_comm]
        exact ⟨by omega, hrest⟩

section Populate

variable {fragCount payloadSize : ℕ}

theorem length_populate (frags : List Packet) (fragIndex size : ℕ) (bytes : Bytes) :
    (populate fragCount payloadSize fragIndex size bytes frags).length = frags.length := by
  induction frags generalizing fragIndex size bytes with
  | nil => rfl
  | cons frag frags ih =>
      unfold populate
      split
      · rfl
      · rw [List.length_cons, ih, List.length_cons]

/-- The loop ends with the last fragment. -/
theorem populate_index {frags : List Packet} {fragIndex size : ℕ} {bytes : Bytes}
    (h : Fills payloadSize frags.length size bytes.length) {j : ℕ} {frag : Packet}
    (hj : (populate fragCount payloadSize fragIndex size bytes frags)[j]? = some frag) :
    frag.fragIndex = some (fragIndex + j) ∧ frag.fragCount = some fragCount ∧
      frag.fragment.isSome := by
  induction frags generalizing fragIndex size bytes j with
  | nil => simp [populate] at hj
  | cons first frags ih =>
      rcases h with ⟨hpos, hrest⟩
      have hne : bytes ≠ [] := List.length_pos_iff.mp hpos
      rw [populate, if_neg hne] at hj
      cases j with
      | zero =>
          obtain rfl := Option.some.inj hj
          exact ⟨rfl, rfl, rfl⟩
      | succ j =>
          rw [List.getElem?_cons_succ] at hj
          rw [← List.length_drop] at hrest
          have hnext := ih hrest hj
          rw [Nat.add_right_comm] at hnext
          exact hnext

theorem populate_whole {frags : List Packet} {fragIndex size : ℕ} {bytes : Bytes}
    (h : Fills payloadSize frags.length size bytes.length) :
    ((populate fragCount payloadSize fragIndex size bytes frags).map
      fun frag => frag.fragment.getD []).flatten = bytes := by
  induction frags generalizing fragIndex size bytes with
  | nil => exact (List.length_eq_zero_iff.mp h).symm
  | cons first frags ih =>
      rcases h with ⟨hpos, hrest⟩
      have hne : bytes ≠ [] := List.length_pos_iff.mp hpos
      rw [← List.length_drop] at hrest
      rw [populate, if_neg hne, List.map_cons, List.flatten_cons, ih hrest]
      exact List.take_append_drop size bytes

theorem populate_head {frag : Packet} {frags : List Packet} {fragIndex size : ℕ} {bytes : Bytes} :
    ∀ first, (populate fragCount payloadSize fragIndex size bytes (frag :: frags)).head? =
      some first → frag.SameHeader first := by
  intro first hfirst
  unfold populate at hfirst
  split at hfirst
  · rw [← Option.some.inj hfirst]
    exact ⟨rfl, Or.inl rfl⟩
  · rw [← Option.some.inj hfirst]
    exact ⟨rfl, Or.inl rfl⟩

end Populate

theorem populate_carries {packet : Packet} {bytes : Bytes} (hbytes : packet.fragment = some bytes)
    {payloadSize size n : ℕ} (h : Fills payloadSize (n + 1) size bytes.length) :
    Carries packet (populate (n + 1) payloadSize 0 size bytes
      (packet :: List.replicate n .empty)) := by
  have hlength : (packet :: List.replicate n Packet.empty).length = n + 1 := by simp
  rw [← hlength] at h
  refine ⟨?_, ?_, ?_, ?_, populate_head⟩
  · intro j frag hj
    rw [(populate_index h hj).1, Option.getD_some, Nat.zero_add]
  · intro frag hfrag
    rcases List.getElem?_of_mem hfrag with ⟨j, hj⟩
    rw [(populate_index h hj).2.1, Option.getD_some, length_populate, hlength]
  · intro frag hfrag
    rcases List.getElem?_of_mem hfrag with ⟨j, hj⟩
    exact (populate_index h hj).2.2
  · rw [populate_whole h, hbytes, Option.getD_some]

theorem fragmentPacket_carries {packet : Packet} (hindex : packet.fragIndex = none)
    (hcount : packet.fragCount = none) {bytes : Bytes} (hbytes : packet.fragment = some bytes)
    (hne : bytes ≠ []) {mtu : ℕ} {frags : List Packet}
    (h : fragmentPacket packet mtu = some frags) : Carries packet frags := by
  unfold fragmentPacket at h
  split at h
  · obtain rfl := Option.some.inj h
    exact .single hindex hcount (by rw [hbytes]; rfl)
  · simp only [Option.ite_none_left_eq_some] at h
    rcases h with ⟨hroom, _, h⟩
    obtain rfl := Option.some.inj h
    rw [hbytes, Option.getD_some, Nat.add_assoc 1, Nat.add_comm 1, Nat.add_sub_cancel]
    refine populate_carries hbytes ⟨List.length_pos_iff.mpr hne, ?_⟩
    exact fills_div (by omega) _

theorem length_fragmentPacket_le {packet : Packet} {mtu : ℕ} {frags : List Packet}
    (h : fragmentPacket packet mtu = some frags) : frags.length ≤ nMaxFragments := by
  unfold fragmentPacket at h
  split at h
  · rw [← Option.some.inj h]
    exact (by decide : 1 ≤ nMaxFragments)
  · simp only [Option.ite_none_left_eq_some] at h
    rcases h with ⟨_, hfew, h⟩
    rw [← Option.some.inj h, length_populate, List.length_cons, List.length_replicate,
      Nat.sub_add_cancel (Nat.le_add_right_of_le (Nat.le_add_right 1 _))]
    exact not_lt.mp hfew

end LpFragmenter

namespace GenericLinkService

open Lp

theorem alike_assignSequences (frags : List Packet) (lastSeqNo : UInt64) :
    List.Forall₂ Alike frags (assignSequences lastSeqNo frags).2 := by
  induction frags generalizing lastSeqNo with
  | nil => exact .nil
  | cons frag frags ih => exact .cons ⟨⟨rfl, Or.inl rfl⟩, rfl, rfl, rfl⟩ (ih (lastSeqNo + 1))

theorem sequence_assignSequences {frags : List Packet} {lastSeqNo : UInt64} {j : ℕ} {frag : Packet}
    (h : (assignSequences lastSeqNo frags).2[j]? = some frag) :
    frag.sequence = some (lastSeqNo + 1 + UInt64.ofNat j) := by
  induction frags generalizing lastSeqNo j with
  | nil => simp [assignSequences] at h
  | cons first frags ih =>
      cases j with
      | zero =>
          obtain rfl := Option.some.inj h
          simp
      | succ j =>
          rw [assignSequences, List.getElem?_cons_succ] at h
          rw [ih h, UInt64.ofNat_add, UInt64.add_assoc (lastSeqNo + 1) 1, UInt64.add_comm 1]
          rfl

/-- What a network packet is sent as: nothing, or fragments that carry it, with
consecutive sequence numbers if there are several. -/
theorem sendNetPacket_carries (service : GenericLinkService) {pkt : Packet}
    (hindex : pkt.fragIndex = none) (hcount : pkt.fragCount = none) {bytes : Bytes}
    (hbytes : pkt.fragment = some bytes) (hne : bytes ≠ []) :
    (service.sendNetPacket pkt).2 = [] ∨ Carries pkt (service.sendNetPacket pkt).2 := by
  have hfrags : service.fragments pkt = [] ∨ Carries pkt (service.fragments pkt) := by
    unfold fragments
    split
    · exact Or.inl rfl
    · cases hpacket : LpFragmenter.fragmentPacket pkt (service.mtu - CONGESTION_MARK_SIZE) with
      | none => exact Or.inl rfl
      | some frags =>
          exact Or.inr (LpFragmenter.fragmentPacket_carries hindex hcount hbytes hne hpacket)
  unfold sendNetPacket
  dsimp only
  split
  · rename_i hlong
    rcases hfrags with hnil | hcarries
    · simp [hnil] at hlong
    · exact Or.inr (hcarries.alike (alike_assignSequences _ service.lastSeqNo))
  · exact hfrags

theorem length_sendNetPacket_le (service : GenericLinkService) (pkt : Packet) :
    (service.sendNetPacket pkt).2.length ≤ LpFragmenter.nMaxFragments := by
  have hfrags : (service.fragments pkt).length ≤ LpFragmenter.nMaxFragments := by
    unfold fragments
    split
    · exact Nat.zero_le _
    · cases hpacket : LpFragmenter.fragmentPacket pkt (service.mtu - CONGESTION_MARK_SIZE) with
      | none => exact Nat.zero_le _
      | some frags => exact LpFragmenter.length_fragmentPacket_le hpacket
  unfold sendNetPacket
  dsimp only
  split
  · rw [← (alike_assignSequences _ service.lastSeqNo).length_eq]
    exact hfrags
  · exact hfrags

theorem sequence_sendNetPacket {service : GenericLinkService} {pkt : Packet}
    (hlength : 1 < (service.sendNetPacket pkt).2.length) {j : ℕ} {frag : Packet}
    (h : (service.sendNetPacket pkt).2[j]? = some frag) :
    frag.sequence = some (service.lastSeqNo + 1 + UInt64.ofNat j) := by
  by_cases hlong : (service.fragments pkt).length > 1
  · rw [sendNetPacket, if_pos hlong] at h
    exact sequence_assignSequences h
  · rw [sendNetPacket, if_neg hlong] at hlength
    exact absurd hlength hlong

theorem alike_sendLpPacket {service : GenericLinkService} {marked : Bool} {pkt frame : Packet}
    (h : service.sendLpPacket marked pkt = some frame) :
    Alike pkt frame ∧ frame.sequence = pkt.sequence := by
  unfold sendLpPacket at h
  simp only [Option.ite_none_left_eq_some] at h
  rcases h with ⟨_, h⟩
  rw [← Option.some.inj h]
  unfold markCongestion
  split
  · exact ⟨⟨⟨rfl, Or.inr rfl⟩, rfl, rfl, rfl⟩, rfl⟩
  · exact ⟨⟨⟨rfl, Or.inl rfl⟩, rfl, rfl, rfl⟩, rfl⟩

end GenericLinkService

end Cafe
