import Cafe.Context
import Cafe.LinkService
import Cafe.Runs

/-!
# Reassembly on a wireless face

All senders of a multicast group reach one face of the receiver, and the
transport gives the fragments of all of them the same endpoint. The sequence
numbers of all senders start alike, so the fragments of different senders can
meet in one partial packet.
-/

open Labelled Decoding

namespace Cafe

open Lp

/-! ## The reassembler -/

abbrev EndpointId := ℕ

structure PartialPacket where
  fragments : List Packet
  fragCount : ℕ
  nReceivedFragments : ℕ

def PartialPacket.add (pp : PartialPacket) (fragIndex : ℕ) (packet : Packet) : PartialPacket :=
  { pp with
    fragments := pp.fragments.set fragIndex packet
    nReceivedFragments := pp.nReceivedFragments + 1 }

/-- The endpoint and the sequence of the first fragment. -/
abbrev LpReassembler.Key := EndpointId × UInt64

structure LpReassembler where
  partialPackets : LpReassembler.Key → Option PartialPacket

namespace LpReassembler

def empty : LpReassembler := ⟨fun _ => none⟩

def insert (r : LpReassembler) (key : Key) (pp : PartialPacket) : LpReassembler :=
  ⟨Function.update r.partialPackets key (some pp)⟩

def erase (r : LpReassembler) (key : Key) : LpReassembler :=
  ⟨Function.update r.partialPackets key none⟩

def doReassembly (pp : PartialPacket) : Except (Decoding.Fault String) Block :=
  Block.ofSpan (pp.fragments.map fun frag => frag.fragment.getD []).flatten

/-- The partial packet of a key, a new one if there is none. -/
def partialPacket (r : LpReassembler) (key : Key) (fragCount : ℕ) : PartialPacket :=
  (r.partialPackets key).getD ⟨List.replicate fragCount .empty, fragCount, 0⟩

/-- A reassembled block is returned with the first fragment. -/
def receiveFragment (r : LpReassembler) (remoteEndpoint : EndpointId) (packet : Packet) :
    LpReassembler × Option (Block × Packet) :=
  let fragIndex := packet.fragIndex.getD 0
  let fragCount := packet.fragCount.getD 1
  if fragIndex ≥ fragCount then (r, none)
  else if fragCount > LpFragmenter.nMaxFragments then (r, none)
  else if fragIndex = 0 ∧ fragCount = 1 then
    (r, (Block.ofSpan (packet.fragment.getD [])).toOption.map fun netPkt => (netPkt, packet))
  else
    match packet.sequence with
    | none => (r, none)
    | some sequence =>
        let key := (remoteEndpoint, sequence - UInt64.ofNat fragIndex)
        let pp := r.partialPacket key fragCount
        if fragCount ≠ pp.fragCount then (r, none)
        else if (pp.fragments.getD fragIndex .empty).sequence.isSome then (r, none)
        else
          let pp := pp.add fragIndex packet
          if pp.nReceivedFragments = pp.fragCount then
            match doReassembly pp with
            -- the exception passes before the partial packet is erased
            | .error _ => (r.insert key pp, none)
            | .ok reassembled => (r.erase key, some (reassembled, pp.fragments.getD 0 .empty))
          else
            (r.insert key pp, none)

def timeoutPartialPacket (r : LpReassembler) (key : Key) : LpReassembler := r.erase key

end LpReassembler

/-! ## The receiving side of a link service -/

namespace GenericLinkService

def doReceivePacket (r : LpReassembler) (packet : Packet) (endpoint : EndpointId) :
    LpReassembler × Option (Block × Packet) :=
  if packet.fragment.isNone then (r, none) else r.receiveFragment endpoint packet

/-- Interests and Data go up to the forwarder, if `decodes` can make sense of
them and of the headers of the first fragment. -/
def decodeNetPacket (decodes : Block → Packet → Bool) (netPkt : Block) (firstPkt : Packet) :
    Option (Block × Packet) :=
  if (netPkt.type = 5 ∨ netPkt.type = 6) ∧ decodes netPkt firstPkt = true then
    some (netPkt, firstPkt)
  else
    none

end GenericLinkService

/-! ## The transport -/

abbrev Address := ℕ

inductive TransportFilter
  | allowAll
  | allowSame
  | allowDifferent
  deriving DecidableEq

def dropPacket : TransportFilter → NodeType → NodeType → Bool
  | .allowSame, n1, n2 => n1 ≠ n2
  | .allowDifferent, n1, n2 => n1 = n2
  | .allowAll, _, _ => false

structure WifiNetDeviceTransport where
  remoteAddress : Address
  filter : TransportFilter
  nodeType : NodeType

/-- A frame is received with the default endpoint, whatever its sender. -/
def WifiNetDeviceTransport.receiveFromNetDevice (transport : WifiNetDeviceTransport)
    (packet : Packet) (toAddress : Address) (senderNodeType : NodeType) :
    Option (Packet × EndpointId) :=
  if toAddress ≠ transport.remoteAddress then none
  else if transport.filter ≠ .allowAll ∧
      dropPacket transport.filter transport.nodeType senderNodeType = true then none
  else some (packet, 0)

/-! ## Senders and a receiver -/

/-- An Interest or a Data with the headers of its tags. -/
structure NetPacket where
  block : Block
  congestionMark : Option ℕ
  fields : List Block
  isNet : block.type = 5 ∨ block.type = 6
  fits : block.value.length < 2 ^ 64
  deriving DecidableEq

def NetPacket.lpPacket (pkt : NetPacket) : Packet where
  fragment := some pkt.block.wire
  sequence := none
  fragIndex := none
  fragCount := none
  congestionMark := pkt.congestionMark
  fields := pkt.fields

/-- What became of a network packet that a link service was given: the frames
it sent, in place of each fragment, from the sequence number `first` on. -/
structure LpTransmission (S : Type) where
  sender : S
  packet : NetPacket
  first : UInt64
  frames : List (Option Packet)
  deriving DecidableEq

structure Channel (S : Type) where
  services : S → GenericLinkService
  sent : List (LpTransmission S)
  reassembler : LpReassembler
  delivered : List (Block × Packet)

namespace Channel

variable {S : Type}

def init (mtu : S → ℕ) : Channel S where
  services s := .init (mtu s)
  sent := []
  reassembler := .empty
  delivered := []

inductive Label (S : Type)
  | send (sender : S) (packet : NetPacket) (marks : ℕ → Bool)
  | receive (tx : LpTransmission S) (j : ℕ)
  | timeout (key : LpReassembler.Key)

variable [DecidableEq S]

/-- The link service of a sender takes a network packet; `marks` tells which
frames are marked for congestion. -/
def send (ch : Channel S) (sender : S) (packet : NetPacket) (marks : ℕ → Bool) : Channel S :=
  let service := ch.services sender
  let result := service.sendNetPacket packet.lpPacket
  { ch with
    services := Function.update ch.services sender result.1
    sent := ch.sent ++ [{
      sender := sender
      packet := packet
      first := service.lastSeqNo + 1
      frames := result.2.mapIdx fun j frag => service.sendLpPacket (marks j) frag }] }

omit [DecidableEq S] in
def receive (decodes : Block → Packet → Bool) (ch : Channel S) (packet : Packet)
    (endpoint : EndpointId) : Channel S :=
  let result := GenericLinkService.doReceivePacket ch.reassembler packet endpoint
  { ch with
    reassembler := result.1
    delivered := ch.delivered ++ (result.2.bind fun (netPkt, firstPkt) =>
      GenericLinkService.decodeNetPacket decodes netPkt firstPkt).toList }

/-- A frame may be received at any time after it was sent, or never. -/
inductive Step (stations : S → WifiNetDeviceTransport) (transport : WifiNetDeviceTransport)
    (decodes : Block → Packet → Bool) (ch : Channel S) : Label S → Channel S → Prop
  | send (sender : S) (packet : NetPacket) (marks : ℕ → Bool) :
      Step stations transport decodes ch (.send sender packet marks)
        (ch.send sender packet marks)
  | receive {tx : LpTransmission S} {j : ℕ} {frame packet : Packet} {endpoint : EndpointId}
      (htx : tx ∈ ch.sent) (hframe : tx.frames[j]? = some (some frame))
      (hheard : transport.receiveFromNetDevice frame (stations tx.sender).remoteAddress
        (stations tx.sender).nodeType = some (packet, endpoint)) :
      Step stations transport decodes ch (.receive tx j) (ch.receive decodes packet endpoint)
  | timeout (key : LpReassembler.Key) :
      Step stations transport decodes ch (.timeout key)
        { ch with reassembler := ch.reassembler.timeoutPartialPacket key }

/-! ## What the receiver is assembling -/

/-- The transmission whose fragments are being assembled under a message
identifier, and the indices of those that have come. -/
abbrev Assembly (S : Type) := UInt64 → Option (LpTransmission S × Finset ℕ)

def assembleStep (assembly : Assembly S) : Label S → Assembly S
  | .send _ _ _ => assembly
  | .receive tx j =>
      if tx.frames.length ≤ 1 then assembly
      else
        match assembly tx.first with
        | none => Function.update assembly tx.first (some (tx, {j}))
        | some (tx', js) =>
            if tx'.frames.length ≠ tx.frames.length ∨ j ∈ js then assembly
            else if (insert j js).card = tx.frames.length then
              Function.update assembly tx.first none
            else Function.update assembly tx.first (some (tx', insert j js))
  | .timeout key => if key.1 = 0 then Function.update assembly key.2 none else assembly

def assembling (ls : List (Label S)) : Assembly S := ls.foldl assembleStep fun _ => none

/-- A fragment does not join the fragments of another transmission. -/
def Joins (assembly : Assembly S) (tx : LpTransmission S) (j : ℕ) : Prop :=
  1 < tx.frames.length → ∀ tx' js, assembly tx.first = some (tx', js) →
    tx'.frames.length = tx.frames.length → j ∉ js → tx' = tx

/-- No fragment ever joins the fragments of another transmission. -/
def Unmixed (ls : List (Label S)) : Prop :=
  ∀ pre tx j post, ls = pre ++ .receive tx j :: post → Joins (assembling pre) tx j

omit [DecidableEq S] in
@[simp] theorem assembling_snoc (ls : List (Label S)) (l : Label S) :
    assembling (ls ++ [l]) = assembleStep (assembling ls) l := List.foldl_concat ..

end Channel

/-! ## What was sent -/

namespace LpTransmission

variable {S : Type}

/-- What is delivered is the network packet with its headers. -/
structure Delivers (tx : LpTransmission S) (d : Block × Packet) : Prop where
  block : d.1 = tx.packet.block
  header : tx.packet.lpPacket.SameHeader d.2

structure Sound (tx : LpTransmission S) : Prop where
  few : tx.frames.length ≤ LpFragmenter.nMaxFragments
  carries : ∀ frags, frags ≠ [] → tx.frames = frags.map some → Carries tx.packet.lpPacket frags
  index : ∀ (j : ℕ) frame, tx.frames[j]? = some (some frame) → frame.fragIndex.getD 0 = j
  count : ∀ (j : ℕ) frame, tx.frames[j]? = some (some frame) →
    frame.fragCount.getD 1 = tx.frames.length
  isSome : ∀ (j : ℕ) frame, tx.frames[j]? = some (some frame) → frame.fragment.isSome
  sequence : 1 < tx.frames.length → ∀ (j : ℕ) frame, tx.frames[j]? = some (some frame) →
    frame.sequence = some (tx.first + UInt64.ofNat j)

/-- The partial packet holds the frames of `tx` at the indices `js`, and no
others. -/
structure Holds (tx : LpTransmission S) (js : Finset ℕ) (pp : PartialPacket) : Prop where
  count : pp.fragCount = tx.frames.length
  length : pp.fragments.length = tx.frames.length
  received : pp.nReceivedFragments = js.card
  bound : ∀ j ∈ js, j < tx.frames.length
  present : ∀ j ∈ js, tx.frames[j]? = some pp.fragments[j]?
  absent : ∀ j, j ∉ js → pp.fragments.getD j .empty = .empty

theorem ofSpan_wire (packet : NetPacket) : Block.ofSpan packet.block.wire = .ok packet.block := by
  refine Block.ofSpan_wire ?_ ?_ packet.fits
  · rcases packet.isNet with h | h <;> omega
  · rcases packet.isNet with h | h <;> omega

/-- A transmission of one frame is received at once. -/
theorem Sound.receive_single {tx : LpTransmission S} (h : tx.Sound) (hlength : tx.frames.length = 1)
    {j : ℕ} {frame : Packet} (hframe : tx.frames[j]? = some (some frame)) (r : LpReassembler)
    (endpoint : EndpointId) :
    GenericLinkService.doReceivePacket r frame endpoint = (r, some (tx.packet.block, frame)) ∧
      tx.Delivers (tx.packet.block, frame) := by
  have hlt : j < 1 := hlength ▸ (List.getElem?_eq_some_iff.mp hframe).1
  obtain rfl : j = 0 := Nat.lt_one_iff.mp hlt
  have hframes : tx.frames = [frame].map some := by
    rcases List.length_eq_one_iff.mp hlength with ⟨f, hf⟩
    rw [hf] at hframe ⊢
    rw [Option.some.inj hframe]
    rfl
  have hcarries := h.carries [frame] (List.cons_ne_nil _ _) hframes
  have hwhole : frame.fragment.getD [] = tx.packet.block.wire := by
    simpa [NetPacket.lpPacket] using hcarries.whole
  have hsome : frame.fragment.isNone = false := by
    simpa using h.isSome 0 frame hframe
  refine ⟨?_, rfl, hcarries.header frame rfl⟩
  simp [GenericLinkService.doReceivePacket, hsome, LpReassembler.receiveFragment,
    h.index 0 frame hframe, h.count 0 frame hframe, hlength, hwhole, ofSpan_wire,
    LpFragmenter.nMaxFragments, Except.toOption]

/-- How the reassembler takes a fragment of a transmission of several. -/
theorem Sound.receive_fragment {tx : LpTransmission S} (h : tx.Sound)
    (hlength : 1 < tx.frames.length) {j : ℕ} {frame : Packet}
    (hframe : tx.frames[j]? = some (some frame)) (r : LpReassembler) (endpoint : EndpointId)
    {pp : PartialPacket} (hpp : r.partialPacket (endpoint, tx.first) tx.frames.length = pp) :
    GenericLinkService.doReceivePacket r frame endpoint =
      if tx.frames.length ≠ pp.fragCount then (r, none)
      else if (pp.fragments.getD j .empty).sequence.isSome then (r, none)
      else if (pp.add j frame).nReceivedFragments = (pp.add j frame).fragCount then
        match LpReassembler.doReassembly (pp.add j frame) with
        | .error _ => (r.insert (endpoint, tx.first) (pp.add j frame), none)
        | .ok reassembled => (r.erase (endpoint, tx.first),
            some (reassembled, (pp.add j frame).fragments.getD 0 .empty))
      else
        (r.insert (endpoint, tx.first) (pp.add j frame), none) := by
  have hlt : j < tx.frames.length := (List.getElem?_eq_some_iff.mp hframe).1
  have hsome : frame.fragment.isNone = false := by
    simpa using h.isSome j frame hframe
  have hkey : tx.first + UInt64.ofNat j - UInt64.ofNat j = tx.first := UInt64.add_sub_cancel _ _
  rw [GenericLinkService.doReceivePacket, hsome, LpReassembler.receiveFragment]
  simp only [h.index j frame hframe, h.count j frame hframe, h.sequence hlength j frame hframe,
    hkey, hpp]
  rw [if_neg (by simp), if_neg (not_le.mpr hlt), if_neg (not_lt.mpr h.few), if_neg (by omega)]

theorem Holds.new (tx : LpTransmission S) :
    tx.Holds ∅ ⟨List.replicate tx.frames.length .empty, tx.frames.length, 0⟩ where
  count := rfl
  length := List.length_replicate
  received := rfl
  bound := by simp
  present := by simp
  absent := by
    intro j _
    rw [List.getD_eq_getElem?_getD, List.getElem?_replicate]
    split <;> rfl

theorem Holds.insert {tx : LpTransmission S} {js : Finset ℕ} {pp : PartialPacket}
    (h : tx.Holds js pp) {j : ℕ} (hj : j ∉ js) {frame : Packet}
    (hframe : tx.frames[j]? = some (some frame)) :
    tx.Holds (insert j js) (pp.add j frame) where
  count := h.count
  length := by rw [PartialPacket.add, List.length_set, h.length]
  received := by rw [Finset.card_insert_of_notMem hj, PartialPacket.add, h.received]
  bound := by
    intro i hi
    rcases Finset.mem_insert.mp hi with rfl | hi
    · exact (List.getElem?_eq_some_iff.mp hframe).1
    · exact h.bound i hi
  present := by
    intro i hi
    by_cases hij : j = i
    · subst hij
      have hlt : j < pp.fragments.length := h.length ▸ (List.getElem?_eq_some_iff.mp hframe).1
      rw [hframe, PartialPacket.add, List.getElem?_set_self hlt]
    · rw [PartialPacket.add, List.getElem?_set_ne hij]
      exact h.present i ((Finset.mem_insert.mp hi).resolve_left (Ne.symm hij))
  absent := by
    intro i hi
    rw [Finset.mem_insert, not_or] at hi
    rw [PartialPacket.add, List.getD_eq_getElem?_getD, List.getElem?_set_ne (Ne.symm hi.1),
      ← List.getD_eq_getElem?_getD]
    exact h.absent i hi.2

/-- When all indices have come, the partial packet holds all frames. -/
theorem Holds.whole {tx : LpTransmission S} {js : Finset ℕ} {pp : PartialPacket}
    (h : tx.Holds js pp) (hcard : js.card = tx.frames.length) : tx.frames =
    pp.fragments.map some := by
  have hall : js = Finset.range tx.frames.length := by
    refine Finset.eq_of_subset_of_card_le ?_ ?_
    · exact fun j hj => Finset.mem_range.mpr (h.bound j hj)
    · rw [Finset.card_range, hcard]
  refine List.ext_getElem? ?_
  intro j
  rw [List.getElem?_map]
  rcases Nat.lt_or_ge j tx.frames.length with hlt | hge
  · rw [h.present j (by rw [hall]; exact Finset.mem_range.mpr hlt)]
    rw [List.getElem?_eq_getElem (by rw [h.length]; exact hlt)]
    rfl
  · rw [List.getElem?_eq_none hge, List.getElem?_eq_none (by rw [h.length]; exact hge)]
    rfl

end LpTransmission

namespace Channel

variable {S : Type}

theorem unmixed_nil : Unmixed ([] : List (Label S)) := by
  intro pre tx j post h
  simp at h

theorem Unmixed.snoc {ls : List (Label S)} (h : Unmixed ls) {l : Label S}
    (hl : ∀ tx j, l = .receive tx j → Joins (assembling ls) tx j) : Unmixed (ls ++ [l]) := by
  intro pre tx j post heq
  rcases List.eq_nil_or_concat post with rfl | ⟨post, m, rfl⟩
  · rcases List.append_inj' heq rfl with ⟨rfl, hlast⟩
    exact hl tx j (List.singleton_inj.mp hlast)
  · rw [List.concat_eq_append, ← List.cons_append, ← List.append_assoc] at heq
    rcases List.append_inj' heq rfl with ⟨rfl, _⟩
    exact h pre tx j post rfl

theorem joins_of_none {assembly : Assembly S} {tx : LpTransmission S} {j : ℕ}
    (h : assembly tx.first = none) : Joins assembly tx j := by
  intro _ tx' js hsome
  rw [h] at hsome
  cases hsome

theorem joins_of_self {assembly : Assembly S} {tx : LpTransmission S} {j : ℕ} {js : Finset ℕ}
    (h : assembly tx.first = some (tx, js)) : Joins assembly tx j := by
  intro _ tx' js' hsome _ _
  rw [h] at hsome
  exact (congrArg Prod.fst (Option.some.inj hsome)).symm

theorem sound_transmission (service : GenericLinkService) (sender : S) (packet : NetPacket)
    (marks : ℕ → Bool) : LpTransmission.Sound {
      sender := sender
      packet := packet
      first := service.lastSeqNo + 1
      frames := (service.sendNetPacket packet.lpPacket).2.mapIdx fun j frag =>
        service.sendLpPacket (marks j) frag } := by
  have hcarries : (service.sendNetPacket packet.lpPacket).2 = [] ∨
      Carries packet.lpPacket (service.sendNetPacket packet.lpPacket).2 :=
    service.sendNetPacket_carries rfl rfl rfl packet.block.wire_ne_nil
  have hback : ∀ (j : ℕ) frame, ((service.sendNetPacket packet.lpPacket).2.mapIdx fun j frag =>
      service.sendLpPacket (marks j) frag)[j]? = some (some frame) →
      ∃ frag, (service.sendNetPacket packet.lpPacket).2[j]? = some frag ∧ Alike frag frame ∧
        frame.sequence = frag.sequence := by
    intro j frame hj
    rw [List.getElem?_mapIdx] at hj
    rcases Option.map_eq_some_iff.mp hj with ⟨frag, hfrag, hsend⟩
    exact ⟨frag, hfrag, GenericLinkService.alike_sendLpPacket hsend⟩
  have hsome : ∀ (j : ℕ) frag, (service.sendNetPacket packet.lpPacket).2[j]? = some frag →
      Carries packet.lpPacket (service.sendNetPacket packet.lpPacket).2 := by
    intro j frag hj
    refine hcarries.resolve_left ?_
    intro hnil
    simp [hnil] at hj
  refine ⟨?_, ?_, ?_, ?_, ?_, ?_⟩
  · rw [List.length_mapIdx]
    exact service.length_sendNetPacket_le packet.lpPacket
  · intro frags hne hframes
    have hlength := congrArg List.length hframes
    rw [List.length_mapIdx, List.length_map] at hlength
    have hall := hcarries.resolve_left (by
      intro hnil
      rw [hnil] at hlength
      exact hne (List.length_eq_zero_iff.mp hlength.symm))
    refine hall.alike (List.forall₂_iff_get.mpr ⟨hlength, ?_⟩)
    intro j hj hj'
    have hframe := congrArg (fun l => l[j]?) hframes
    simp only [List.getElem?_map, List.getElem?_eq_getElem hj', Option.map_some] at hframe
    rcases hback j _ hframe with ⟨frag, hfrag, halike, _⟩
    rw [List.getElem?_eq_getElem hj] at hfrag
    rw [List.get_eq_getElem, List.get_eq_getElem, Option.some.inj hfrag]
    exact halike
  · intro j frame hj
    rcases hback j frame hj with ⟨frag, hfrag, halike, _⟩
    rw [halike.fragIndex]
    exact (hsome j frag hfrag).index j frag hfrag
  · intro j frame hj
    rcases hback j frame hj with ⟨frag, hfrag, halike, _⟩
    rw [halike.fragCount, List.length_mapIdx]
    exact (hsome j frag hfrag).count frag (List.mem_of_getElem? hfrag)
  · intro j frame hj
    rcases hback j frame hj with ⟨frag, hfrag, halike, _⟩
    rw [halike.fragment]
    exact (hsome j frag hfrag).isSome frag (List.mem_of_getElem? hfrag)
  · intro hlength j frame hj
    rcases hback j frame hj with ⟨frag, hfrag, _, hsequence⟩
    rw [List.length_mapIdx] at hlength
    rw [hsequence]
    exact GenericLinkService.sequence_sendNetPacket hlength hfrag

/-- What is assembled under an identifier, and the partial packet kept for it. -/
def Agree (sent : List (LpTransmission S)) :
    Option (LpTransmission S × Finset ℕ) → Option PartialPacket → Prop
  | none, none => True
  | some (tx, js), some pp => tx ∈ sent ∧ tx.Holds js pp
  | _, _ => False

/-- All of this holds in the course of a run in which no fragment joins those
of another transmission. -/
structure Tracks (ch : Channel S) (assembly : Assembly S) : Prop where
  sound : ∀ tx ∈ ch.sent, tx.Sound
  agree : ∀ key, Agree ch.sent (assembly key) (ch.reassembler.partialPackets (0, key))
  delivered : ∀ d ∈ ch.delivered, ∃ tx ∈ ch.sent, tx.Delivers d

theorem agree_update {sent : List (LpTransmission S)} {assembly : Assembly S} {r : LpReassembler}
    (h : ∀ key, Agree sent (assembly key) (r.partialPackets (0, key))) (key : UInt64)
    {v : Option (LpTransmission S × Finset ℕ)} {w : Option PartialPacket} (hvw : Agree sent v w)
    (k : UInt64) : Agree sent (Function.update assembly key v k)
      (Function.update r.partialPackets (0, key) w (0, k)) := by
  by_cases hk : k = key
  · subst hk
    rw [Function.update_self, Function.update_self]
    exact hvw
  · rw [Function.update_of_ne hk, Function.update_of_ne (by simpa using hk)]
    exact h k

/-- What a reception does to the channel follows from what the link service
returns. -/
theorem Tracks.of_result {decodes : Block → Packet → Bool} {ch : Channel S}
    {assembly assembly' : Assembly S} (h : Tracks ch assembly) {packet : Packet}
    {endpoint : EndpointId} {r : LpReassembler} {out : Option (Block × Packet)}
    (hresult : GenericLinkService.doReceivePacket ch.reassembler packet endpoint = (r, out))
    (hagree : ∀ key, Agree ch.sent (assembly' key) (r.partialPackets (0, key)))
    (hout : ∀ d, out = some d → ∃ tx ∈ ch.sent, tx.Delivers d) :
    Tracks (ch.receive decodes packet endpoint) assembly' := by
  refine ⟨h.sound, ?_, ?_⟩
  · intro key
    rw [receive, hresult]
    exact hagree key
  · intro d hd
    rw [receive, hresult] at hd
    rcases List.mem_append.mp hd with hd | hd
    · exact h.delivered d hd
    · rw [Option.mem_toList, Option.bind_eq_some_iff] at hd
      rcases hd with ⟨⟨netPkt, firstPkt⟩, hsome, hdecode⟩
      unfold GenericLinkService.decodeNetPacket at hdecode
      rw [Option.ite_none_right_eq_some] at hdecode
      rw [← Option.some.inj hdecode.2]
      exact hout _ hsome

theorem Agree.mono {sent sent' : List (LpTransmission S)} (hsub : sent ⊆ sent')
    {v : Option (LpTransmission S × Finset ℕ)} {w : Option PartialPacket} (h : Agree sent v w) :
    Agree sent' v w := by
  rcases v with _ | ⟨tx, js⟩
  · cases w with
    | none => trivial
    | some pp => exact h.elim
  · cases w with
    | none => exact h.elim
    | some pp => exact ⟨hsub h.1, h.2⟩

theorem Tracks.timeout {ch : Channel S} {assembly : Assembly S} (h : Tracks ch assembly)
    (key : LpReassembler.Key) :
    Tracks { ch with reassembler := ch.reassembler.timeoutPartialPacket key }
      (assembleStep assembly (.timeout key)) := by
  refine ⟨h.sound, ?_, h.delivered⟩
  rcases key with ⟨endpoint, key⟩
  by_cases hendpoint : endpoint = 0
  · subst hendpoint
    exact agree_update h.agree key (v := none) (w := none) trivial
  · intro k
    rw [assembleStep, if_neg hendpoint]
    have hne : ((0, k) : LpReassembler.Key) ≠ (endpoint, key) := by
      intro heq
      exact hendpoint (congrArg Prod.fst heq).symm
    have hkeep : (ch.reassembler.timeoutPartialPacket (endpoint, key)).partialPackets (0, k) =
        ch.reassembler.partialPackets (0, k) := by
      change Function.update ch.reassembler.partialPackets _ none _ = _
      exact Function.update_of_ne hne _ _
    rw [hkeep]
    exact h.agree k

/-- A frame joins the others of its own transmission. -/
theorem Tracks.join {decodes : Block → Packet → Bool} {ch : Channel S} {assembly : Assembly S}
    (h : Tracks ch assembly) {tx : LpTransmission S} (htx : tx ∈ ch.sent)
    (hlong : 1 < tx.frames.length) {j : ℕ} {frame : Packet}
    (hframe : tx.frames[j]? = some (some frame)) {js : Finset ℕ} (hj : j ∉ js)
    {pp : PartialPacket}
    (hpp : ch.reassembler.partialPacket (0, tx.first) tx.frames.length = pp)
    (hholds : tx.Holds js pp) :
    Tracks (ch.receive decodes frame 0)
      (if (insert j js).card = tx.frames.length then Function.update assembly tx.first none
        else Function.update assembly tx.first (some (tx, insert j js))) := by
  have hsound := h.sound tx htx
  have hresult := hsound.receive_fragment hlong hframe ch.reassembler 0 hpp
  have hnew := hholds.insert hj hframe
  have hfree : ¬ (pp.fragments.getD j .empty).sequence.isSome := by
    rw [hholds.absent j hj]
    exact Bool.false_ne_true
  rw [if_neg (not_not.mpr hholds.count.symm), if_neg hfree, hnew.received, hnew.count] at hresult
  by_cases hcard : (insert j js).card = tx.frames.length
  · rw [if_pos hcard] at hresult ⊢
    have hne : (pp.add j frame).fragments ≠ [] := by
      apply List.length_pos_iff.mp
      rw [hnew.length]
      omega
    have hcarries := hsound.carries _ hne (hnew.whole hcard)
    have hblock : LpReassembler.doReassembly (pp.add j frame) = .ok tx.packet.block := by
      rw [LpReassembler.doReassembly, hcarries.whole]
      exact LpTransmission.ofSpan_wire tx.packet
    have hhead : (pp.add j frame).fragments.head? =
        some ((pp.add j frame).fragments.getD 0 .empty) := by
      rw [List.head?_eq_getElem?, List.getD_eq_getElem?_getD,
        List.getElem?_eq_getElem (List.length_pos_iff.mpr hne)]
      rfl
    rw [hblock] at hresult
    refine h.of_result hresult (agree_update h.agree tx.first (v := none) (w := none) trivial) ?_
    intro d hd
    rw [← Option.some.inj hd]
    exact ⟨tx, htx, rfl, hcarries.header _ hhead⟩
  · rw [if_neg hcard] at hresult ⊢
    exact h.of_result hresult (agree_update h.agree tx.first ⟨htx, hnew⟩) nofun

/-- The reception of a frame that does not join those of another
transmission. -/
theorem Tracks.receive {decodes : Block → Packet → Bool} {ch : Channel S} {assembly : Assembly S}
    (h : Tracks ch assembly) {tx : LpTransmission S} (htx : tx ∈ ch.sent) {j : ℕ} {frame : Packet}
    (hframe : tx.frames[j]? = some (some frame)) (hjoins : Joins assembly tx j) :
    Tracks (ch.receive decodes frame 0) (assembleStep assembly (.receive tx j)) := by
  have hsound := h.sound tx htx
  have hlt : j < tx.frames.length := (List.getElem?_eq_some_iff.mp hframe).1
  rcases Nat.lt_or_ge 1 tx.frames.length with hlong | hshort
  · have hagree := h.agree tx.first
    rw [assembleStep, if_neg (by omega)]
    cases hassembly : assembly tx.first with
    | none =>
        rw [hassembly] at hagree
        have hnone : ch.reassembler.partialPackets (0, tx.first) = none := by
          cases hpart : ch.reassembler.partialPackets (0, tx.first) with
          | none => rfl
          | some pp =>
              rw [hpart] at hagree
              exact hagree.elim
        have hpp : ch.reassembler.partialPacket (0, tx.first) tx.frames.length =
            ⟨List.replicate tx.frames.length .empty, tx.frames.length, 0⟩ := by
          rw [LpReassembler.partialPacket, hnone]
          rfl
        have hjoin : Tracks (ch.receive decodes frame 0) (if (insert j (∅ : Finset ℕ)).card =
            tx.frames.length then Function.update assembly tx.first none
            else Function.update assembly tx.first (some (tx, insert j ∅))) :=
          h.join htx hlong hframe (Finset.notMem_empty j) hpp (.new tx)
        rw [insert_empty_eq, Finset.card_singleton, if_neg (by omega)] at hjoin
        exact hjoin
    | some p =>
        rcases p with ⟨tx', js⟩
        rw [hassembly] at hagree
        cases hpart : ch.reassembler.partialPackets (0, tx.first) with
        | none =>
            rw [hpart] at hagree
            exact hagree.elim
        | some pp =>
            rw [hpart] at hagree
            rcases hagree with ⟨htx', hholds⟩
            have hpp : ch.reassembler.partialPacket (0, tx.first) tx.frames.length = pp := by
              rw [LpReassembler.partialPacket, hpart]
              rfl
            have hresult := hsound.receive_fragment hlong hframe ch.reassembler 0 hpp
            by_cases hlength : tx'.frames.length = tx.frames.length
            · by_cases hj : j ∈ js
              · have hfilled : (pp.fragments.getD j .empty).sequence.isSome := by
                  have hget := List.getElem?_eq_getElem
                    (show j < pp.fragments.length by rw [hholds.length]; omega)
                  have hpresent := hholds.present j hj
                  rw [hget] at hpresent
                  rw [List.getD_eq_getElem?_getD, hget, Option.getD_some,
                    (h.sound tx' htx').sequence (by omega) j _ hpresent]
                  rfl
                rw [if_neg (by simp [hholds.count, hlength]), if_pos hfilled] at hresult
                simp only [hj, or_true, if_true]
                exact h.of_result hresult h.agree nofun
              · obtain rfl := hjoins hlong tx' js hassembly hlength hj
                simp only [hj, or_false, ne_eq, not_true_eq_false, if_false]
                exact h.join htx hlong hframe hj hpp hholds
            · rw [if_pos (by rw [hholds.count]; exact Ne.symm hlength)] at hresult
              simp only [ne_eq, hlength, not_false_eq_true, true_or, if_true]
              exact h.of_result hresult h.agree nofun
  · have hsingle := hsound.receive_single (by omega) hframe ch.reassembler 0
    rw [assembleStep, if_pos hshort]
    refine h.of_result hsingle.1 h.agree ?_
    intro d hd
    rw [← Option.some.inj hd]
    exact ⟨tx, htx, hsingle.2⟩

variable [DecidableEq S]

theorem Tracks.send {ch : Channel S} {assembly : Assembly S} (h : Tracks ch assembly) (sender : S)
    (packet : NetPacket) (marks : ℕ → Bool) : Tracks (ch.send sender packet marks) assembly := by
  have hsub : ch.sent ⊆ (ch.send sender packet marks).sent := List.subset_append_left _ _
  refine ⟨?_, ?_, ?_⟩
  · intro tx htx
    rcases List.mem_append.mp htx with htx | htx
    · exact h.sound tx htx
    · rw [List.mem_singleton.mp htx]
      exact sound_transmission (ch.services sender) sender packet marks
  · intro key
    exact (h.agree key).mono hsub
  · intro d hd
    rcases h.delivered d hd with ⟨tx, htx, hdelivers⟩
    exact ⟨tx, hsub htx, hdelivers⟩

theorem Tracks.step {stations : S → WifiNetDeviceTransport} {transport : WifiNetDeviceTransport}
    {decodes : Block → Packet → Bool} {ch ch' : Channel S} {assembly : Assembly S} {l : Label S}
    (h : Tracks ch assembly) (hjoins : ∀ tx j, l = .receive tx j → Joins assembly tx j)
    (hstep : Step stations transport decodes ch l ch') : Tracks ch' (assembleStep assembly l) := by
  cases hstep with
  | send sender packet marks => exact h.send sender packet marks
  | timeout key => exact h.timeout key
  | @receive tx j frame packet endpoint htx hframe hheard =>
      unfold WifiNetDeviceTransport.receiveFromNetDevice at hheard
      rw [Option.ite_none_left_eq_some, Option.ite_none_left_eq_some] at hheard
      obtain ⟨rfl, rfl⟩ := Prod.mk.inj (Option.some.inj hheard.2.2)
      exact h.receive htx hframe (hjoins tx j rfl)

theorem Tracks.run {stations : S → WifiNetDeviceTransport} {transport : WifiNetDeviceTransport}
    {decodes : Block → Packet → Bool} {mtu : S → ℕ} {ls : List (Label S)} {ch : Channel S}
    (hrun : Run (Step stations transport decodes) (init mtu) ls ch) (hunmixed : Unmixed ls) :
    Tracks ch (assembling ls) := by
  refine hrun.invariant (fun ms c => Tracks c (assembling ms)) ?_ ?_
  · exact ⟨nofun, fun _ => trivial, nofun⟩
  · rintro ms c l c' rest hls _ hc hstep
    rw [assembling_snoc]
    refine hc.step ?_ hstep
    rintro tx j rfl
    exact hunmixed ms tx j rest hls

/-- What was sent was given to the link service of its sender. -/
theorem sent_of_run {stations : S → WifiNetDeviceTransport} {transport : WifiNetDeviceTransport}
    {decodes : Block → Packet → Bool} {mtu : S → ℕ} {ls : List (Label S)} {ch : Channel S}
    (hrun : Run (Step stations transport decodes) (init mtu) ls ch) :
    ∀ tx ∈ ch.sent, ∃ marks, .send tx.sender tx.packet marks ∈ ls := by
  refine hrun.invariant
    (fun ms c => ∀ tx ∈ c.sent, ∃ marks, .send tx.sender tx.packet marks ∈ ms) nofun ?_
  intro ms c l c' _ _ _ hc hstep tx htx
  have hold : tx ∈ c.sent → ∃ marks, .send tx.sender tx.packet marks ∈ ms ++ [l] := by
    intro hmem
    rcases hc tx hmem with ⟨marks, hmarks⟩
    exact ⟨marks, List.mem_append_left _ hmarks⟩
  cases hstep with
  | receive _ _ _ => exact hold htx
  | timeout _ => exact hold htx
  | send sender packet marks =>
      rcases List.mem_append.mp htx with hmem | hmem
      · exact hold hmem
      · rw [List.mem_singleton.mp hmem]
        exact ⟨marks, List.mem_append_right _ (List.mem_singleton.mpr rfl)⟩

end Channel

/-- As long as no fragment joins those of another transmission, every network
packet that is delivered was sent, with its headers, by one sender. -/
theorem delivered_of_one_sender {S : Type} [DecidableEq S] {stations : S → WifiNetDeviceTransport}
    {transport : WifiNetDeviceTransport} {decodes : Block → Packet → Bool} {mtu : S → ℕ}
    {ls : List (Channel.Label S)} {ch : Channel S}
    (hrun : Run (Channel.Step stations transport decodes) (.init mtu) ls ch)
    (hunmixed : Channel.Unmixed ls) :
    ∀ d ∈ ch.delivered, ∃ sender packet marks, .send sender packet marks ∈ ls ∧
      d.1 = packet.block ∧ packet.lpPacket.SameHeader d.2 := by
  intro d hd
  rcases (Channel.Tracks.run hrun hunmixed).delivered d hd with ⟨tx, htx, hdelivers⟩
  rcases Channel.sent_of_run hrun tx htx with ⟨marks, hmarks⟩
  exact ⟨tx.sender, tx.packet, marks, hmarks, hdelivers.block, hdelivers.header⟩

/-! ## Two vehicles

Each sends a Data of 27 octets, with a content of ten octets, on a link whose
MTU is 75. -/

namespace TwoVehicles

def data (name content : UInt8) : NetPacket where
  block := ⟨6, [7, 3, 8, 1, name, 21, 10] ++ List.replicate 10 content ++
    [22, 3, 27, 1, 255, 23, 1, 0]⟩
  congestionMark := none
  fields := [⟨84, [0]⟩]
  isNet := Or.inr rfl
  fits := by simp

def transport : WifiNetDeviceTransport := ⟨1, .allowSame, .vehicle⟩

abbrev first : NetPacket := data 97 1

abbrev second : NetPacket := data 98 2

def tx (sender : Bool) (packet : NetPacket) : LpTransmission Bool where
  sender := sender
  packet := packet
  first := -1
  frames := ((GenericLinkService.init 75).sendNetPacket packet.lpPacket).2.map
    ((GenericLinkService.init 75).sendLpPacket false)

def frame (tx : LpTransmission Bool) (j : ℕ) : Packet := (tx.frames.getD j none).getD .empty

abbrev Step := Channel.Step (S := Bool) (fun _ => transport) transport fun _ _ => true

theorem step_receive {ch : Channel Bool} (tx : LpTransmission Bool) (j : ℕ) (htx : tx ∈ ch.sent)
    (hframe : tx.frames[j]? = some (some (frame tx j))) :
    Step ch (.receive tx j) (ch.receive (fun _ _ => true) (frame tx j) 0) :=
  .receive htx hframe rfl

theorem mixed : ∃ ch, Run Step (.init fun _ => 75)
    [.send true first fun _ => false, .send false second fun _ => false,
      .receive (tx true first) 0, .receive (tx false second) 1,
      .receive (tx true first) 2] ch ∧
    ch.delivered.map Prod.fst = [⟨6, [7, 3, 8, 1, 97, 21, 10, 1] ++ List.replicate 9 2 ++
      [22, 3, 27, 1, 255, 23, 1, 0]⟩] := by
  refine ⟨_, ((((Run.nil.snoc (.send _ _ _)).snoc (.send _ _ _)).snoc
    (step_receive _ _ ?_ ?_)).snoc (step_receive _ _ ?_ ?_)).snoc (step_receive _ _ ?_ ?_), ?_⟩
  · decide
  · decide
  · decide
  · decide
  · decide
  · decide
  · decide

/-- The fragments of the first come out of order, and then one of the second. -/
def apart : List (Channel.Label Bool) :=
  [.send true first fun _ => false, .send false second fun _ => false,
    .receive (tx true first) 0, .receive (tx true first) 2, .receive (tx true first) 1,
    .receive (tx false second) 0]

theorem run_apart : ∃ ch, Run Step (.init fun _ => 75) apart ch ∧
    ch.delivered.map Prod.fst = [first.block] := by
  refine ⟨_, (((((Run.nil.snoc (.send _ _ _)).snoc (.send _ _ _)).snoc
    (step_receive _ _ ?_ ?_)).snoc (step_receive _ _ ?_ ?_)).snoc
    (step_receive _ _ ?_ ?_)).snoc (step_receive _ _ ?_ ?_), ?_⟩
  all_goals decide

theorem unmixed_apart : Channel.Unmixed apart := by
  refine (((((Channel.unmixed_nil.snoc ?_).snoc ?_).snoc ?_).snoc ?_).snoc ?_).snoc ?_
  · rintro tx j ⟨⟩
  · rintro tx j ⟨⟩
  · rintro tx j ⟨⟩
    exact Channel.joins_of_none rfl
  · rintro tx j ⟨⟩
    exact Channel.joins_of_self rfl
  · rintro tx j ⟨⟩
    exact Channel.joins_of_self rfl
  · rintro tx j ⟨⟩
    exact Channel.joins_of_none rfl

end TwoVehicles

theorem delivered_of_one_sender_apart : ∃ ch,
    Run TwoVehicles.Step (.init fun _ => 75) TwoVehicles.apart ch ∧
      ch.delivered.map Prod.fst = [TwoVehicles.first.block] ∧
      ∀ d ∈ ch.delivered, ∃ sender packet marks, .send sender packet marks ∈ TwoVehicles.apart ∧
        d.1 = packet.block ∧ packet.lpPacket.SameHeader d.2 := by
  obtain ⟨ch, hrun, hdelivered⟩ := TwoVehicles.run_apart
  exact ⟨ch, hrun, hdelivered, delivered_of_one_sender hrun TwoVehicles.unmixed_apart⟩

/-- The middle fragment of the second vehicle takes the place of that of the
first. -/
theorem not_delivered_of_one_sender : ¬ ∀ (stations : Bool → WifiNetDeviceTransport)
    (transport : WifiNetDeviceTransport) (decodes : Block → Packet → Bool) (mtu : Bool → ℕ)
    (ls : List (Channel.Label Bool)) (ch : Channel Bool),
    Run (Channel.Step stations transport decodes) (.init mtu) ls ch →
    ∀ d ∈ ch.delivered, ∃ sender packet marks, .send sender packet marks ∈ ls ∧
      d.1 = packet.block ∧ packet.lpPacket.SameHeader d.2 := by
  intro h
  obtain ⟨ch, hrun, hdelivered⟩ := TwoVehicles.mixed
  have hmem : (⟨6, [7, 3, 8, 1, 97, 21, 10, 1] ++ List.replicate 9 2 ++
      [22, 3, 27, 1, 255, 23, 1, 0]⟩ : Block) ∈ ch.delivered.map Prod.fst := by
    rw [hdelivered]
    exact List.mem_singleton.mpr rfl
  obtain ⟨d, hd, hblock⟩ := List.mem_map.mp hmem
  obtain ⟨sender, packet, marks, hsend, heq, _⟩ := h _ _ _ _ _ ch hrun d hd
  have hpacket : packet = TwoVehicles.first ∨ packet = TwoVehicles.second := by
    simp only [List.mem_cons, Channel.Label.send.injEq, reduceCtorEq, or_false,
      List.not_mem_nil] at hsend
    exact hsend.imp (fun h => h.2.1) (fun h => h.2.1)
  rw [heq] at hblock
  rcases hpacket with rfl | rfl
  · exact absurd hblock (by decide)
  · exact absurd hblock (by decide)

end Cafe
