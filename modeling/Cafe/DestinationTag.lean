import Cafe.Elements

/-!
# The tag of the destination nodes

The tag encodes its ids in the order in which the set happens to be iterated.
It keeps the block that it encoded or decoded last, and no other operation
takes notice of that block.
-/

namespace Cafe

open Decoding

namespace Lp

/-- An unordered set of node ids, in the order in which it is iterated. -/
structure NodeSet where
  order : List UInt32
  nodup : order.Nodup

namespace NodeSet

def toFinset (nodes : NodeSet) : Finset UInt32 := nodes.order.toFinset

def empty : NodeSet := ⟨[], List.nodup_nil⟩

def emplace (nodes : NodeSet) (nodeId : UInt32) : NodeSet :=
  ⟨nodes.order.insert nodeId, nodes.nodup.insert⟩

def erase (nodes : NodeSet) (nodeId : UInt32) : NodeSet :=
  ⟨nodes.order.erase nodeId, nodes.nodup.erase nodeId⟩

@[simp] theorem toFinset_empty : empty.toFinset = ∅ := rfl

@[simp] theorem toFinset_emplace (nodes : NodeSet) (nodeId : UInt32) :
    (nodes.emplace nodeId).toFinset = insert nodeId nodes.toFinset := by
  ext n
  simp [toFinset, emplace]

@[simp] theorem toFinset_erase (nodes : NodeSet) (nodeId : UInt32) :
    (nodes.erase nodeId).toFinset = nodes.toFinset.erase nodeId := by
  ext n
  simp [toFinset, erase, nodes.nodup.mem_erase_iff]

/-- There are no more ids than values of their type. -/
theorem length_le (nodes : NodeSet) : nodes.order.length ≤ 2 ^ 32 := by
  have hnodup : (nodes.order.map UInt32.toNat).Nodup :=
    nodes.nodup.map fun _ _ h => UInt32.toNat_inj.mp h
  have hsubset : nodes.order.map UInt32.toNat ⊆ List.range (2 ^ 32) := by
    intro n hn
    rcases List.mem_map.mp hn with ⟨nodeId, -, rfl⟩
    exact List.mem_range.mpr nodeId.toNat_lt
  have hlength := (hnodup.subperm hsubset).length_le
  rwa [List.length_map, List.length_range] at hlength

end NodeSet

structure DestinationNodesTag where
  nodes : NodeSet
  wire : Option Block

namespace DestinationNodesTag

/-- A tag for the ids of a set. -/
def ofNodes (nodes : NodeSet) : DestinationNodesTag := ⟨nodes, none⟩

def get (tag : DestinationNodesTag) : Finset UInt32 := tag.nodes.toFinset

def set (nodes : NodeSet) (tag : DestinationNodesTag) : DestinationNodesTag :=
  { tag with nodes := nodes }

def add (nodeId : UInt32) (tag : DestinationNodesTag) : DestinationNodesTag :=
  { tag with nodes := tag.nodes.emplace nodeId }

def remove (nodeId : UInt32) (tag : DestinationNodesTag) : DestinationNodesTag :=
  { tag with nodes := tag.nodes.erase nodeId }

def clear (tag : DestinationNodesTag) : DestinationNodesTag := { tag with nodes := .empty }

def nodeBlock (nodeId : UInt32) : Block := makeNonNegativeIntegerBlock 1072 nodeId.toNat

/-- The block that the template `wireEncode(encoder)` prepends; the last id of
the iteration comes first. -/
def wireEncodeTo (tag : DestinationNodesTag) : Block :=
  ⟨1072, (tag.nodes.order.reverse.map nodeBlock).flatMap Block.wire⟩

def wireEncode (tag : DestinationNodesTag) : Block × DestinationNodesTag :=
  match tag.wire with
  | some wire => (wire, tag)
  | none => (tag.wireEncodeTo, { tag with wire := some tag.wireEncodeTo })

/-- The loop over the elements; an id is narrowed to 32 bits. -/
def decodeElements : List Block → DestinationNodesTag →
    Except (Decoding.Fault String) Unit × DestinationNodesTag
  | [], tag => (.ok (), tag)
  | block :: blocks, tag =>
      if block.type ≠ 1072 then
        (.error (.rejected "Unexpected input while decoding DestinationNodesTag"), tag)
      else
        match readNonNegativeInteger block with
        | .error e => (.error e, tag)
        | .ok nodeId => decodeElements blocks (tag.add (UInt32.ofNat nodeId))

/-- What a call leaves behind when it throws is part of its result. -/
def wireDecode (wire : Block) (tag : DestinationNodesTag) :
    Except (Decoding.Fault String) Unit × DestinationNodesTag :=
  if wire.type ≠ 1072 then
    (.error (.rejected "expecting DestinationNodesTag block"), tag)
  else
    let tag := { tag with wire := some wire }
    match wire.parse with
    | .error e => (.error e, tag)
    | .ok elements => decodeElements elements tag.clear

/-- The set that a new tag holds after it has decoded a block. -/
def decode (wire : Block) : Option (Finset UInt32) :=
  match (ofNodes .empty).wireDecode wire with
  | (.ok (), tag) => some tag.get
  | (.error _, _) => none

/-! ## What is decoded -/

/-- The element carries the number. -/
def Holds (element : Block) (n : ℕ) : Prop :=
  element.type = 1072 ∧ readNonNegativeInteger element = .ok n

/-- The numbers on the wire, in their order. -/
def Numbers (wire : Block) (ns : List ℕ) : Prop :=
  wire.type = 1072 ∧ ∃ elements, wire.parse = .ok elements ∧ List.Forall₂ Holds elements ns

variable {tag : DestinationNodesTag}

theorem decodeElements_eq {elements : List Block} {ns : List ℕ}
    (h : List.Forall₂ Holds elements ns) (tag : DestinationNodesTag) :
    (decodeElements elements tag).1 = .ok () ∧
      (decodeElements elements tag).2.wire = tag.wire ∧
      (decodeElements elements tag).2.get = tag.get ∪ (ns.map UInt32.ofNat).toFinset := by
  induction h generalizing tag with
  | nil => simp [decodeElements]
  | @cons element n elements ns hn _ ih =>
      have hrest := ih (tag.add (UInt32.ofNat n))
      rw [decodeElements, if_neg (not_not.mpr hn.1), hn.2]
      refine ⟨hrest.1, hrest.2.1, hrest.2.2.trans ?_⟩
      ext m
      simp [add, get]

theorem holds_of_decodeElements {elements : List Block} (tag : DestinationNodesTag)
    (h : (decodeElements elements tag).1 = .ok ()) :
    ∃ ns, List.Forall₂ Holds elements ns := by
  induction elements generalizing tag with
  | nil => exact ⟨[], .nil⟩
  | cons element elements ih =>
      unfold decodeElements at h
      split at h
      · cases h
      rename_i htype
      split at h
      · cases h
      rename_i n hn
      rcases ih _ h with ⟨ns, hns⟩
      exact ⟨n :: ns, .cons ⟨not_not.mp htype, hn⟩ hns⟩

/-- A block of numbers is decoded to those, whatever the tag was before. -/
theorem wireDecode_of_numbers {wire : Block} {ns : List ℕ} (h : Numbers wire ns)
    (tag : DestinationNodesTag) :
    (wireDecode wire tag).1 = .ok () ∧ (wireDecode wire tag).2.wire = some wire ∧
      (wireDecode wire tag).2.get = (ns.map UInt32.ofNat).toFinset := by
  rcases h with ⟨htype, elements, hparse, hns⟩
  have helements := decodeElements_eq hns { tag with wire := some wire }.clear
  unfold wireDecode
  rw [if_neg (not_not.mpr htype)]
  simp only [hparse]
  refine ⟨helements.1, helements.2.1, helements.2.2.trans ?_⟩
  exact Finset.empty_union _

/-- Other blocks are refused. -/
theorem numbers_of_wireDecode {wire : Block} (tag : DestinationNodesTag)
    (h : (wireDecode wire tag).1 = .ok ()) : ∃ ns, Numbers wire ns := by
  unfold wireDecode at h
  split at h
  · cases h
  rename_i htype
  simp only at h
  split at h
  · cases h
  rename_i elements hparse
  rcases holds_of_decodeElements _ h with ⟨ns, hns⟩
  exact ⟨ns, not_not.mp htype, elements, hparse, hns⟩

theorem decode_of_numbers {wire : Block} {ns : List ℕ} (h : Numbers wire ns) :
    decode wire = some (ns.map UInt32.ofNat).toFinset := by
  have hdecode := wireDecode_of_numbers h (ofNodes .empty)
  unfold decode
  rcases hrun : (ofNodes .empty).wireDecode wire with ⟨r, tag⟩
  rw [hrun] at hdecode
  obtain rfl := hdecode.1
  exact congrArg some hdecode.2.2

theorem decode_isSome_iff {wire : Block} (tag : DestinationNodesTag) :
    (decode wire).isSome ↔ (wireDecode wire tag).1 = .ok () := by
  constructor
  · intro h
    have hok : ((ofNodes .empty).wireDecode wire).1 = .ok () := by
      unfold decode at h
      split at h
      · rename_i hrun
        rw [hrun]
      · cases h
    rcases numbers_of_wireDecode _ hok with ⟨ns, hns⟩
    exact (wireDecode_of_numbers hns tag).1
  · intro h
    rcases numbers_of_wireDecode _ h with ⟨ns, hns⟩
    rw [decode_of_numbers hns]
    rfl

theorem numbers_wireEncodeTo (tag : DestinationNodesTag) :
    Numbers tag.wireEncodeTo (tag.nodes.order.reverse.map UInt32.toNat) := by
  refine ⟨rfl, tag.nodes.order.reverse.map nodeBlock, Block.parse_wires ?_ 1072, ?_⟩
  · intro element he
    rcases List.mem_map.mp he with ⟨nodeId, -, rfl⟩
    exact makeNonNegativeIntegerBlock_fits (by decide) (by decide) _
  · rw [List.forall₂_map_left_iff, List.forall₂_map_right_iff, List.forall₂_same]
    intro nodeId _
    have hlt := nodeId.toNat_lt
    exact ⟨rfl, readNonNegativeInteger_make 1072 (by omega)⟩

/-- What the template writes is decoded to the ids of the tag. -/
theorem decode_wireEncodeTo (tag : DestinationNodesTag) :
    decode tag.wireEncodeTo = some tag.get := by
  rw [decode_of_numbers (numbers_wireEncodeTo tag), List.map_map]
  congr 1
  ext n
  simp [get, NodeSet.toFinset]

theorem length_wireEncodeTo (tag : DestinationNodesTag) : tag.wireEncodeTo.value.length =
    (tag.nodes.order.map fun nodeId => 4 + sizeOfNonNegativeInteger nodeId.toNat).sum := by
  have hsize : ∀ nodeId, sizeOfElement (nodeBlock nodeId).type (nodeBlock nodeId).value.length =
      4 + sizeOfNonNegativeInteger nodeId.toNat := by
    intro nodeId
    have hlength : (nodeBlock nodeId).value.length = sizeOfNonNegativeInteger nodeId.toNat :=
      length_bigEndian _ _
    have hle := sizeOfNonNegativeInteger_le nodeId.toNat
    have hvar : sizeOfVarNumber (sizeOfNonNegativeInteger nodeId.toNat) = 1 := if_pos (by omega)
    rw [sizeOfElement, hlength, hvar]
    rfl
  rw [wireEncodeTo, Block.length_flatMap_wire, List.map_map, List.map_reverse, List.sum_reverse]
  exact congrArg List.sum (List.map_congr_left fun nodeId _ => hsize nodeId)

/-- Eight bytes are enough for a node. -/
theorem length_wireEncodeTo_le (tag : DestinationNodesTag) :
    tag.wireEncodeTo.value.length ≤ tag.nodes.order.length * 8 := by
  have hsize : ∀ n ∈ tag.nodes.order.map fun nodeId =>
      4 + sizeOfNonNegativeInteger nodeId.toNat, n ≤ 8 := by
    intro n hn
    rcases List.mem_map.mp hn with ⟨nodeId, -, rfl⟩
    have hlt := nodeId.toNat_lt
    unfold sizeOfNonNegativeInteger
    split_ifs <;> omega
  have hsum := List.sum_le_card_nsmul _ 8 hsize
  rwa [List.length_map, smul_eq_mul, ← length_wireEncodeTo] at hsum

/-! ## Sequences of calls -/

/-- The calls on a tag; `rehash` stands for a new order of the iteration. -/
inductive Op
  | set (nodes : NodeSet)
  | add (nodeId : UInt32)
  | remove (nodeId : UInt32)
  | clear
  | wireDecode (wire : Block)
  | wireEncode
  | rehash (nodes : NodeSet)

def step (tag : DestinationNodesTag) : Op → DestinationNodesTag
  | .set nodes => tag.set nodes
  | .add nodeId => tag.add nodeId
  | .remove nodeId => tag.remove nodeId
  | .clear => tag.clear
  | .wireDecode wire => (tag.wireDecode wire).2
  | .wireEncode => tag.wireEncode.2
  | .rehash nodes => if nodes.toFinset = tag.get then tag.set nodes else tag

/-- The constructors: without ids, with those of a set, or from a block. -/
inductive Constructed : DestinationNodesTag → Prop
  | ofNodes (nodes : NodeSet) : Constructed (ofNodes nodes)
  | ofBlock (wire : Block) (h : ((ofNodes .empty).wireDecode wire).1 = .ok ()) :
      Constructed ((ofNodes .empty).wireDecode wire).2

/-- The cached encoder returns a block with the ids that the tag has, as the
template does. -/
def Agrees (tag : DestinationNodesTag) : Prop :=
  decode tag.wireEncode.1 = some tag.get ∧ decode tag.wireEncode.1 = decode tag.wireEncodeTo

/-- The ids at the time when the kept block was made; `broken` if it is one
that was refused. -/
inductive Image
  | none
  | of (nodes : Finset UInt32)
  | broken

/-- The block is made by the first `wireEncode` or the last `wireDecode` that
gets past its test of the type. -/
def Image.next (tag : DestinationNodesTag) : Image → Op → Image
  | image, .wireDecode wire =>
      if wire.type ≠ 1072 then image
      else
        match tag.wireDecode wire with
        | (.ok (), tag') => .of tag'.get
        | (.error _, _) => .broken
  | .none, .wireEncode => .of tag.get
  | image, _ => image

/-- No call has changed the ids since the block was made. -/
def Image.IsCurrent (tag : DestinationNodesTag) : Image → Prop
  | .none => True
  | .of nodes => nodes = tag.get
  | .broken => False

/-- At each call of `wireEncode` the property holds of the tag and of the image. -/
def EachEncode (P : DestinationNodesTag → Image → Prop) :
    DestinationNodesTag → Image → List Op → Prop
  | _, _, [] => True
  | tag, image, op :: ops =>
      (op = .wireEncode → P tag image) ∧
        EachEncode P (tag.step op) (image.next tag op) ops

/-- What the image says of the block that the tag keeps. -/
def Image.Of (tag : DestinationNodesTag) : Image → Prop
  | .none => tag.wire = Option.none
  | .of nodes => ∃ wire, tag.wire = some wire ∧ decode wire = some nodes
  | .broken => ∃ wire, tag.wire = some wire ∧ decode wire = Option.none

theorem wireEncode_of_wire {wire : Block} (h : tag.wire = some wire) :
    tag.wireEncode = (wire, tag) := by
  simp only [wireEncode, h]

theorem wireEncode_of_none (h : tag.wire = none) :
    tag.wireEncode = (tag.wireEncodeTo, { tag with wire := some tag.wireEncodeTo }) := by
  simp only [wireEncode, h]

/-- A block that is past the test of the type is kept in any case. -/
theorem wire_decodeElements (elements : List Block) (tag : DestinationNodesTag) :
    (decodeElements elements tag).2.wire = tag.wire := by
  induction elements generalizing tag with
  | nil => rfl
  | cons element elements ih =>
      unfold decodeElements
      split
      · rfl
      · split
        · rfl
        · exact ih _

theorem wire_wireDecode {wire : Block} (htype : wire.type = 1072) (tag : DestinationNodesTag) :
    (tag.wireDecode wire).2.wire = some wire := by
  unfold DestinationNodesTag.wireDecode
  rw [if_neg (not_not.mpr htype)]
  simp only
  split
  · rfl
  · exact wire_decodeElements _ _

theorem Image.next_wireDecode (image : Image) (tag : DestinationNodesTag) (wire : Block) :
    image.next tag (.wireDecode wire) =
      if wire.type ≠ 1072 then image
      else
        match tag.wireDecode wire with
        | (.ok (), tag') => .of tag'.get
        | (.error _, _) => .broken := by
  cases image <;> rfl

theorem Image.Of.wireDecode {image : Image} (h : image.Of tag) (wire : Block) :
    (image.next tag (.wireDecode wire)).Of (tag.step (.wireDecode wire)) := by
  rw [Image.next_wireDecode, step]
  by_cases htype : wire.type = 1072
  · rw [if_neg (not_not.mpr htype)]
    have hwire := wire_wireDecode htype tag
    have hsome : (decode wire).isSome ↔ (tag.wireDecode wire).1 = .ok () := decode_isSome_iff tag
    rcases hrun : tag.wireDecode wire with ⟨r, tag'⟩
    rw [hrun] at hwire hsome
    cases r with
    | ok u =>
        rcases numbers_of_wireDecode tag (by rw [hrun]) with ⟨ns, hns⟩
        have hget := (wireDecode_of_numbers hns tag).2.2
        rw [hrun] at hget
        exact ⟨wire, hwire, (decode_of_numbers hns).trans (congrArg some hget.symm)⟩
    | error e =>
        refine ⟨wire, hwire, ?_⟩
        rw [← Option.not_isSome_iff_eq_none, hsome]
        exact nofun
  · rw [if_pos htype, DestinationNodesTag.wireDecode, if_pos htype]
    exact h

theorem Image.Of.wireEncode {image : Image} (h : image.Of tag) :
    (image.next tag .wireEncode).Of (tag.step .wireEncode) := by
  cases image with
  | none =>
      refine ⟨tag.wireEncodeTo, ?_, decode_wireEncodeTo tag⟩
      rw [step, wireEncode_of_none h]
  | of nodes =>
      rcases h with ⟨wire, hwire, hdecode⟩
      rw [step, wireEncode_of_wire hwire]
      exact ⟨wire, hwire, hdecode⟩
  | broken =>
      rcases h with ⟨wire, hwire, hdecode⟩
      rw [step, wireEncode_of_wire hwire]
      exact ⟨wire, hwire, hdecode⟩

/-- The other calls keep the block. -/
theorem Image.Of.next {image : Image} (h : image.Of tag) (op : Op) :
    (image.next tag op).Of (tag.step op) := by
  have hkeep : ∀ tag' : DestinationNodesTag, tag'.wire = tag.wire → image.Of tag' := by
    intro tag' hwire
    cases image <;> simpa only [Image.Of, hwire] using h
  cases op with
  | set nodes => cases image <;> exact hkeep _ rfl
  | add nodeId => cases image <;> exact hkeep _ rfl
  | remove nodeId => cases image <;> exact hkeep _ rfl
  | clear => cases image <;> exact hkeep _ rfl
  | rehash nodes =>
      have hwire : (tag.step (.rehash nodes)).wire = tag.wire := by
        simp only [step]
        split <;> rfl
      cases image <;> exact hkeep _ hwire
  | wireEncode => exact h.wireEncode
  | wireDecode wire => exact h.wireDecode wire

/-- The property at a call, from what the image says. -/
theorem agrees_iff {image : Image} (h : image.Of tag) : tag.Agrees ↔ image.IsCurrent tag := by
  unfold Agrees
  rw [decode_wireEncodeTo, and_self_iff]
  cases image with
  | none =>
      rw [wireEncode_of_none h]
      exact iff_of_true (decode_wireEncodeTo tag) trivial
  | of nodes =>
      rcases h with ⟨wire, hwire, hdecode⟩
      rw [wireEncode_of_wire hwire, hdecode, Option.some.injEq]
      rfl
  | broken =>
      rcases h with ⟨wire, hwire, hdecode⟩
      rw [wireEncode_of_wire hwire, hdecode]
      exact iff_of_false nofun id

/-- The image at the construction. -/
def Image.start (tag : DestinationNodesTag) : Image :=
  match tag.wire with
  | Option.none => .none
  | some _ => .of tag.get

theorem Constructed.image (h : Constructed tag) : (Image.start tag).Of tag := by
  cases h with
  | ofNodes nodes => rfl
  | ofBlock wire h =>
      rcases numbers_of_wireDecode _ h with ⟨ns, hns⟩
      have hdecode := wireDecode_of_numbers hns (DestinationNodesTag.ofNodes .empty)
      unfold Image.start
      rw [hdecode.2.1]
      exact ⟨wire, hdecode.2.1, (decode_of_numbers hns).trans (congrArg some hdecode.2.2.symm)⟩

theorem eachEncode_iff {image : Image} (h : image.Of tag) (ops : List Op) :
    EachEncode (fun tag _ => tag.Agrees) tag image ops ↔
      EachEncode (fun tag image => image.IsCurrent tag) tag image ops := by
  induction ops generalizing tag image with
  | nil => exact Iff.rfl
  | cons op ops ih => exact and_congr (imp_congr_right fun _ => agrees_iff h) (ih (h.next op))

/-- The encoders agree at every call iff no call changes the ids after the
kept block was made; a block is decoded to its numbers iff they have 32 bits. -/
theorem wireEncode_agrees_iff (htag : Constructed tag) (ops : List Op) :
    (EachEncode (fun tag _ => tag.Agrees) tag (Image.start tag) ops ↔
      EachEncode (fun tag image => image.IsCurrent tag) tag (Image.start tag) ops) ∧
    ∀ (wire : Block) (tag : DestinationNodesTag), (tag.wireDecode wire).1 = .ok () →
      ∃ ns, Numbers wire ns ∧ ((tag.wireDecode wire).2.get.image UInt32.toNat = ns.toFinset ↔
        ∀ n ∈ ns, n < 4294967296) := by
  refine ⟨eachEncode_iff htag.image ops, fun wire tag hok => ?_⟩
  rcases numbers_of_wireDecode tag hok with ⟨ns, hns⟩
  refine ⟨ns, hns, ?_⟩
  rw [(wireDecode_of_numbers hns tag).2.2, Finset.ext_iff]
  simp only [Finset.mem_image, List.mem_toFinset, List.mem_map, exists_exists_and_eq_and,
    UInt32.toNat_ofNat']
  constructor
  · intro h n hn
    rcases (h n).mpr hn with ⟨m, -, rfl⟩
    exact Nat.mod_lt _ (by decide)
  · intro h n
    constructor
    · rintro ⟨m, hm, rfl⟩
      rwa [Nat.mod_eq_of_lt (h m hm)]
    · exact fun hn => ⟨n, hn, Nat.mod_eq_of_lt (h n hn)⟩

/-- A tag for the node 1 that is encoded, without the node 2 in between. -/
theorem wireEncode_agrees_iff_remove :
    let tag := ofNodes ⟨[1], List.nodup_singleton 1⟩
    EachEncode (fun tag _ => tag.Agrees) tag (Image.start tag)
        [.wireEncode, .remove 2, .wireEncode] ∧
      ∃ ns, Numbers tag.wireEncodeTo ns ∧
        ((tag.wireDecode tag.wireEncodeTo).2.get.image UInt32.toNat = ns.toFinset ↔
          ∀ n ∈ ns, n < 4294967296) := by
  intro tag
  have hok := (wireDecode_of_numbers (numbers_wireEncodeTo tag) tag).1
  obtain ⟨hagrees, hdecode⟩ :=
    wireEncode_agrees_iff (Constructed.ofNodes _) [.wireEncode, .remove 2, .wireEncode]
  refine ⟨hagrees.mpr ?_, hdecode tag.wireEncodeTo tag hok⟩
  refine ⟨fun _ => trivial, nofun, fun _ => ?_, trivial⟩
  change ({1} : Finset UInt32) = (({1} : List UInt32).erase 2).toFinset
  decide

/-- A tag for the node 1 that is encoded, loses the node and is encoded again,
and a number that does not fit. -/
theorem wireEncode_stale :
    let tag := ofNodes ⟨[1], List.nodup_singleton 1⟩
    ¬ EachEncode (fun tag _ => tag.Agrees) tag (Image.start tag)
        [.wireEncode, .remove 1, .wireEncode] ∧
      decode ⟨1072, [makeNonNegativeIntegerBlock 1072 4294967301].flatMap Block.wire⟩ =
        some {5} := by
  intro tag
  constructor
  · rw [eachEncode_iff (Constructed.ofNodes _).image]
    intro h
    have hcurrent : ({1} : Finset UInt32) = ∅ := h.2.2.1 rfl
    exact absurd hcurrent (by decide)
  · have hfits := makeNonNegativeIntegerBlock_fits (by decide : 1072 ≠ 0) (by decide) 4294967301
    have hnumbers : Numbers ⟨1072, [makeNonNegativeIntegerBlock 1072 4294967301].flatMap Block.wire⟩
        [4294967301] :=
      ⟨rfl, _, Block.parse_wires (by simpa using hfits) 1072,
        .cons ⟨rfl, readNonNegativeInteger_make 1072 (by decide)⟩ .nil⟩
    rw [decode_of_numbers hnumbers]
    decide

end DestinationNodesTag

end Lp

end Cafe
