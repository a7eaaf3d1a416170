import Cafe.Elements
import Cafe.Fallible
import Cafe.ZorRoundTrip

/-!
# Data packets

An alert travels as a Data packet: a block that holds a name, optional
descriptions, the content and a signature, each a block of its own. The decoder
demands their order and passes over elements that it may ignore.
-/

namespace Cafe

open Decoding

/-- Blocks of these types must not be passed over. -/
def isCriticalType (type : ℕ) : Bool := type ≤ 31 || type % 2 = 1

def expecting {α : Type} (expectedType : String) (actualType : ℕ) :
    Except (Decoding.Fault String) α :=
  .error (.rejected ("Expecting " ++ expectedType ++ " element, but TLV has type " ++
    toString actualType))

/-- `max` is the greatest value of the type read. -/
def readNonNegativeIntegerAs (max : ℕ) (block : Block) : Except (Decoding.Fault String) ℕ := do
  let value ← readNonNegativeInteger block
  if value > max then
    .error (.rejected ("Value in TLV element of type " ++ toString block.type ++ " is too large"))
  else
    pure value

def Block.blockFromValue (block : Block) : Except (Decoding.Fault String) Block :=
  if block.value = [] then
    .error (.rejected "Cannot construct block from empty TLV-VALUE")
  else
    Block.ofBuffer block.value

/-- The block with these elements. -/
def Block.ofElements (type : ℕ) (elements : List Block) : Block :=
  ⟨type, elements.flatMap Block.wire⟩

/-! ## Names -/

namespace WireName

def wireEncode (components : List Block) : Block := .ofElements 7 components

def wireDecode (wire : Block) : Except (Decoding.Fault String) (List Block) :=
  if wire.type ≠ 7 then expecting "Name" wire.type else wire.parse

/-- The zone that the forwarder reads from a name. -/
def extractZoR (components : List Block) :
    Except (Decoding.Fault String) (Option (ZoR RawFloat)) :=
  match components.reverse.find? Block.isZoR with
  | some c => c.toZoR
  | none => .ok none

end WireName

/-! ## Descriptions -/

structure MetaInfo where
  type : ℕ
  /-- in milliseconds -/
  freshnessPeriod : ℤ
  finalBlockId : Option Block
  appMetaInfo : List Block
  deriving DecidableEq

namespace MetaInfo

def init : MetaInfo := ⟨0, 0, none, []⟩

/-- A value that is not the default. -/
def typeField (info : MetaInfo) : Option ℕ := if info.type ≠ 0 then some info.type else none

def freshnessField (info : MetaInfo) : Option ℕ :=
  if info.freshnessPeriod ≠ 0 then some (info.freshnessPeriod % 2 ^ 64).toNat else none

def elements (info : MetaInfo) : List Block :=
  info.typeField.toList.map (makeNonNegativeIntegerBlock 24) ++
    (info.freshnessField.toList.map (makeNonNegativeIntegerBlock 25) ++
      (info.finalBlockId.toList.map (fun c => Block.ofElements 26 [c]) ++ info.appMetaInfo))

def wireEncode (info : MetaInfo) : Block := .ofElements 20 info.elements

/-- An optional element: it is decoded if it is the next one. -/
def optional {α : Type} (type : ℕ) (decode : Block → Except (Decoding.Fault String) α)
    (elements : List Block) : Except (Decoding.Fault String) (Option α × List Block) :=
  match elements with
  | [] => .ok (none, [])
  | e :: es => if e.type = type then (decode e).map fun a => (some a, es) else .ok (none, e :: es)

def decodeFinalBlockId (e : Block) : Except (Decoding.Fault String) Block := do
  let c ← e.blockFromValue
  c.ensureValid
  pure c

def wireDecode (wire : Block) : Except (Decoding.Fault String) MetaInfo := do
  let elements ← wire.parse
  let (type, elements) ← optional 24 (readNonNegativeIntegerAs 4294967295) elements
  let (freshness, elements) ← optional 25 readNonNegativeInteger elements
  let (finalBlockId, elements) ← optional 26 decodeFinalBlockId elements
  pure
    { type := type.getD 0
      freshnessPeriod := Int.bmod (freshness.getD 0) (2 ^ 64)
      finalBlockId := finalBlockId
      appMetaInfo := elements }

end MetaInfo

/-! ## Signatures -/

inductive KeyLocator
  | empty
  | name (components : List Block)
  | digest (block : Block)
  | unsupported (type : ℕ)
  deriving DecidableEq

namespace KeyLocator

def wireEncode : KeyLocator → Except (Decoding.Fault String) Block
  | empty => .ok (.ofElements 28 [])
  | name components => .ok (.ofElements 28 [WireName.wireEncode components])
  | digest block => .ok (.ofElements 28 [block])
  | unsupported type => .error (.rejected ("Unsupported KeyLocator type " ++ toString type))

def wireDecode (wire : Block) : Except (Decoding.Fault String) KeyLocator :=
  if wire.type ≠ 28 then
    expecting "KeyLocator" wire.type
  else do
    match ← wire.parse with
    | [] => pure empty
    | e :: _ =>
        if e.type = 7 then
          let components ← WireName.wireDecode e
          pure (name components)
        else if e.type = 29 then
          pure (digest e)
        else
          pure (unsupported e.type)

end KeyLocator

/-- There is no type until one is set. -/
structure SignatureInfo where
  type : Option ℕ
  keyLocator : Option KeyLocator
  otherTlvs : List Block
  deriving DecidableEq

namespace SignatureInfo

def init : SignatureInfo := ⟨none, none, []⟩

def wireEncode (info : SignatureInfo) : Except (Decoding.Fault String) Block :=
  match info.type with
  | none => .error (.rejected "Cannot encode invalid SignatureInfo")
  | some type => do
      let keyLocator ← info.keyLocator.toList.mapM KeyLocator.wireEncode
      pure (.ofElements 22
        (makeNonNegativeIntegerBlock 27 type :: (keyLocator ++ info.otherTlvs)))

/-- `last` is the last element in the order of the critical ones. -/
def decodeElements : ℕ → List Block → SignatureInfo →
    Except (Decoding.Fault String) SignatureInfo
  | _, [], info => .ok info
  | last, e :: es, info =>
      if e.type = 27 then
        if last > 0 then
          .error (.rejected "SignatureType element is repeated or out-of-order")
        else do
          let type ← readNonNegativeIntegerAs 65535 e
          decodeElements 1 es { info with type := some type }
      else if e.type = 28 then
        if last > 1 then
          .error (.rejected "KeyLocator element is repeated or out-of-order")
        else do
          let keyLocator ← KeyLocator.wireDecode e
          decodeElements 2 es { info with keyLocator := some keyLocator }
      else if e.type = 38 ∧ e.value.length < 1 then
        .error (.rejected "SignatureNonce element cannot be empty")
      else if e.type ≠ 38 ∧ e.type ≠ 253 ∧ isCriticalType e.type then
        .error (.rejected ("Unrecognized element of critical type " ++ toString e.type))
      else
        decodeElements last es { info with otherTlvs := info.otherTlvs ++ [e] }

def wireDecode (wire : Block) : Except (Decoding.Fault String) SignatureInfo := do
  let elements ← wire.parse
  if wire.type ≠ 22 then
    expecting "SignatureInfo" wire.type
  else
    let info ← decodeElements 0 elements init
    if info.type = none then
      .error (.rejected "Missing SignatureType in SignatureInfo")
    else
      pure info

end SignatureInfo

/-! ## The packet -/

structure DataPacket where
  name : List Block
  metaInfo : MetaInfo
  content : Option Block
  signatureInfo : SignatureInfo
  signatureValue : Option Block
  deriving DecidableEq

namespace DataPacket

def init (name : List Block) : DataPacket := ⟨name, .init, none, .init, none⟩

def wireEncode (data : DataPacket) : Except (Decoding.Fault String) Block :=
  if data.signatureInfo.type = none then
    .error (.rejected "Requested wire format, but Data has not been signed")
  else do
    let signatureInfo ← data.signatureInfo.wireEncode
    pure (.ofElements 6 (WireName.wireEncode data.name :: data.metaInfo.wireEncode ::
      (data.content.toList ++ [signatureInfo, data.signatureValue.getD ⟨0, []⟩])))

/-- `last` is the last recognised element, in the order of the specification. -/
def decodeElements : ℕ → List Block → DataPacket → Except (Decoding.Fault String) DataPacket
  | _, [], data => .ok data
  | last, e :: es, data =>
      if e.type = 20 then
        if last ≥ 2 then
          .error (.rejected "MetaInfo element is out of order")
        else do
          let metaInfo ← MetaInfo.wireDecode e
          decodeElements 2 es { data with metaInfo := metaInfo }
      else if e.type = 21 then
        if last ≥ 3 then
          .error (.rejected "Content element is out of order")
        else
          decodeElements 3 es { data with content := some e }
      else if e.type = 22 then
        if last ≥ 4 then
          .error (.rejected "SignatureInfo element is out of order")
        else do
          let signatureInfo ← SignatureInfo.wireDecode e
          decodeElements 4 es { data with signatureInfo := signatureInfo }
      else if e.type = 23 then
        if last ≥ 5 then
          .error (.rejected "SignatureValue element is out of order")
        else
          decodeElements 5 es { data with signatureValue := some e }
      else if isCriticalType e.type then
        .error (.rejected ("Unrecognized element of critical type " ++ toString e.type))
      else
        decodeElements last es data

def wireDecode (wire : Block) : Except (Decoding.Fault String) DataPacket :=
  if wire.type ≠ 6 then
    expecting "Data" wire.type
  else do
    match ← wire.parse with
    | [] => .error (.rejected "Name element is missing or out of order")
    | first :: elements =>
        if first.type ≠ 7 then
          .error (.rejected "Name element is missing or out of order")
        else
          let name ← WireName.wireDecode first
          let data ← decodeElements 1 elements (init name)
          if data.signatureInfo.type = none then
            .error (.rejected "SignatureInfo element is missing")
          else if data.signatureValue = none then
            .error (.rejected "SignatureValue element is missing")
          else
            pure data

end DataPacket

/-! ## Blocks of elements -/

namespace Block

@[simp] theorem ofElements_type (type : ℕ) (elements : List Block) :
    (Block.ofElements type elements).type = type := rfl

/-- The types that a block may have on the wire. -/
def Typed (block : Block) : Prop := block.type ≠ 0 ∧ block.type ≤ 4294967295

theorem typed_of_ensureValid {c : Block} (h : c.ensureValid = .ok ()) : c.Typed := by
  unfold ensureValid at h
  split at h
  · cases h
  · exact ⟨by omega, by omega⟩

theorem length_le_ofElements {type : ℕ} {elements : List Block} {e : Block} (he : e ∈ elements) :
    e.value.length ≤ (Block.ofElements type elements).value.length := by
  have hmem := List.single_le_sum (l := (elements.map fun e => e.wire.length)) (by simp) _
    (List.mem_map.mpr ⟨e, he, rfl⟩)
  have hwire : e.value.length ≤ e.wire.length := by
    rw [length_wire, sizeOfElement]
    exact Nat.le_add_left _ _
  rw [ofElements, List.length_flatMap]
  exact hwire.trans hmem

theorem parse_ofElements {type : ℕ} {elements : List Block} (htyped : ∀ e ∈ elements, e.Typed)
    (hsize : (Block.ofElements type elements).value.length < 2 ^ 64) :
    (Block.ofElements type elements).parse = .ok elements :=
  parse_wires (fun e he => ⟨(htyped e he).1, (htyped e he).2,
    (length_le_ofElements he).trans_lt hsize⟩) type

end Block

@[simp] theorem makeNonNegativeIntegerBlock_type (type n : ℕ) :
    (makeNonNegativeIntegerBlock type n).type = type := rfl

theorem makeNonNegativeIntegerBlock_typed {type : ℕ} (h0 : type ≠ 0) (htype : type ≤ 4294967295)
    (n : ℕ) : (makeNonNegativeIntegerBlock type n).Typed := ⟨h0, htype⟩

theorem readNonNegativeIntegerAs_make (type : ℕ) {max n : ℕ} (hmax : max < 2 ^ 64) (h : n ≤ max) :
    readNonNegativeIntegerAs max (makeNonNegativeIntegerBlock type n) = .ok n := by
  unfold readNonNegativeIntegerAs
  rw [Fallible.bind_ok (readNonNegativeInteger_make type (h.trans_lt hmax)), if_neg h.not_gt]
  rfl

theorem WireName.wireDecode_wireEncode {components : List Block}
    (htyped : ∀ c ∈ components, c.Typed)
    (hsize : (WireName.wireEncode components).value.length < 2 ^ 64) :
    WireName.wireDecode (WireName.wireEncode components) = .ok components := by
  rw [wireDecode, if_neg (by simp [wireEncode, Block.ofElements])]
  exact Block.parse_ofElements htyped hsize

/-! ## What is encoded is decoded -/

namespace MetaInfo

structure WellFormed (info : MetaInfo) : Prop where
  type : info.type ≤ 4294967295
  fresh : 0 ≤ info.freshnessPeriod
  fresh_lt : info.freshnessPeriod < 2 ^ 63
  finalBlockId : ∀ c ∈ info.finalBlockId, c.ensureValid = .ok ()
  appMetaInfo : ∀ e ∈ info.appMetaInfo, 128 ≤ e.type ∧ e.type ≤ 252

theorem optional_toList {α : Type} {type : ℕ} {decode : Block → Except (Decoding.Fault String) α}
    {encode : α → Block} {x : Option α} {es : List Block}
    (hx : ∀ a ∈ x, (encode a).type = type ∧ decode (encode a) = .ok a)
    (hes : ∀ e ∈ es, e.type ≠ type) :
    optional type decode (x.toList.map encode ++ es) = .ok (x, es) := by
  cases x with
  | none =>
      cases es with
      | nil => rfl
      | cons e es =>
          change (if _ then _ else _) = _
          rw [if_neg (hes e List.mem_cons_self)]
  | some a =>
      obtain ⟨htype, hdecode⟩ := hx a rfl
      change (if _ then _ else _) = _
      rw [if_pos htype, hdecode]
      rfl

theorem type_of_mem_finalBlockId {info : MetaInfo} {e : Block}
    (he : e ∈ info.finalBlockId.toList.map fun c => Block.ofElements 26 [c]) : e.type = 26 := by
  obtain ⟨c, _, rfl⟩ := List.mem_map.mp he
  rfl

/-- What stands behind the freshness period. -/
theorem WellFormed.rest {info : MetaInfo} (h : info.WellFormed) {e : Block}
    (he : e ∈ (info.finalBlockId.toList.map fun c => Block.ofElements 26 [c]) ++
      info.appMetaInfo) : e.type = 26 ∨ 128 ≤ e.type ∧ e.type ≤ 252 := by
  rcases List.mem_append.mp he with he | he
  · exact Or.inl (type_of_mem_finalBlockId he)
  · exact Or.inr (h.appMetaInfo e he)

theorem type_of_mem_numbers {type : ℕ} {x : Option ℕ} {e : Block}
    (he : e ∈ x.toList.map (makeNonNegativeIntegerBlock type)) : e.type = type := by
  obtain ⟨n, _, rfl⟩ := List.mem_map.mp he
  rfl

theorem WellFormed.typed {info : MetaInfo} (h : info.WellFormed) : ∀ e ∈ info.elements,
    e.Typed := by
  intro e he
  rcases List.mem_append.mp he with he | he
  · rw [Block.Typed, type_of_mem_numbers he]
    decide
  · rcases List.mem_append.mp he with he | he
    · rw [Block.Typed, type_of_mem_numbers he]
      decide
    · have := h.rest he
      exact ⟨by omega, by omega⟩

theorem bmod_fresh {n : ℤ} (h0 : 0 ≤ n) (h : n < 2 ^ 63) :
    Int.bmod ((n % 2 ^ 64).toNat : ℕ) (2 ^ 64) = n := by
  have hmod : n % 2 ^ 64 = n := Int.emod_eq_of_lt h0 (by omega)
  rw [hmod, Int.toNat_of_nonneg h0]
  exact Int.bmod_eq_of_le (by omega) (by omega)

theorem decodeFinalBlockId_ofElements {c : Block} (hc : c.ensureValid = .ok ())
    (hsize : c.value.length < 2 ^ 64) : decodeFinalBlockId (Block.ofElements 26 [c]) = .ok c := by
  have hvalue : (Block.ofElements 26 [c]).value = c.wire := by simp [Block.ofElements]
  have htyped := Block.typed_of_ensureValid hc
  have hbuffer : (Block.ofElements 26 [c]).blockFromValue = .ok c := by
    rw [Block.blockFromValue, hvalue, if_neg c.wire_ne_nil, Block.wire,
      Block.ofBuffer_encode htyped.1 htyped.2, if_pos hsize]
  unfold decodeFinalBlockId
  rw [Fallible.bind_ok hbuffer, Fallible.bind_ok hc]
  rfl

theorem WellFormed.wireDecode {info : MetaInfo} (h : info.WellFormed)
    (hsize : info.wireEncode.value.length < 2 ^ 64) :
    MetaInfo.wireDecode info.wireEncode = .ok info := by
  have hparse : info.wireEncode.parse = .ok info.elements := Block.parse_ofElements h.typed hsize
  have hfinal : optional 26 decodeFinalBlockId
      ((info.finalBlockId.toList.map fun c => Block.ofElements 26 [c]) ++ info.appMetaInfo) =
        .ok (info.finalBlockId, info.appMetaInfo) := by
    refine optional_toList (fun c hc => ⟨rfl, ?_⟩) fun e he => ?_
    · refine decodeFinalBlockId_ofElements (h.finalBlockId c hc) (lt_of_le_of_lt ?_ hsize)
      have hmem : Block.ofElements 26 [c] ∈ info.elements := by
        simp [elements, Option.mem_def.mp hc]
      exact (Block.length_le_ofElements (List.mem_singleton_self c)).trans
        (Block.length_le_ofElements hmem)
    · have := h.appMetaInfo e he
      omega
  have hfresh : optional 25 readNonNegativeInteger
      (info.freshnessField.toList.map (makeNonNegativeIntegerBlock 25) ++
        (info.finalBlockId.toList.map (fun c => Block.ofElements 26 [c]) ++ info.appMetaInfo)) =
          .ok (info.freshnessField, info.finalBlockId.toList.map
            (fun c => Block.ofElements 26 [c]) ++ info.appMetaInfo) := by
    refine optional_toList (fun n hn => ⟨rfl, readNonNegativeInteger_make 25 ?_⟩) fun e he => ?_
    · have hmod := Int.emod_lt_of_pos info.freshnessPeriod (by norm_num : (0 : ℤ) < 2 ^ 64)
      have hn' : (info.freshnessPeriod % 2 ^ 64).toNat = n := by
        rw [Option.mem_def, freshnessField] at hn
        split at hn
        · exact Option.some.inj hn
        · cases hn
      omega
    · have := h.rest he
      omega
  have htype : optional 24 (readNonNegativeIntegerAs 4294967295) info.elements =
      .ok (info.typeField, info.freshnessField.toList.map (makeNonNegativeIntegerBlock 25) ++
        (info.finalBlockId.toList.map (fun c => Block.ofElements 26 [c]) ++
          info.appMetaInfo)) := by
    refine optional_toList (fun n hn => ⟨rfl, readNonNegativeIntegerAs_make 24 (by norm_num) ?_⟩)
      fun e he => ?_
    · rw [Option.mem_def, typeField] at hn
      split at hn
      · exact Option.some.inj hn ▸ h.type
      · cases hn
    · rcases List.mem_append.mp he with he | he
      · rw [type_of_mem_numbers he]
        decide
      · have := h.rest he
        omega
  unfold MetaInfo.wireDecode
  rw [Fallible.bind_ok hparse, Fallible.bind_ok htype]
  dsimp only
  rw [Fallible.bind_ok hfresh]
  dsimp only
  rw [Fallible.bind_ok hfinal]
  have h0 : info.typeField.getD 0 = info.type := by
    unfold typeField
    split <;> simp_all
  have h1 : Int.bmod ((info.freshnessField.getD 0 : ℕ) : ℤ) (2 ^ 64) = info.freshnessPeriod := by
    unfold freshnessField
    split
    · exact bmod_fresh h.fresh h.fresh_lt
    · rename_i hzero
      simp [not_not.mp hzero]
  simp only [h0, h1]
  rfl

end MetaInfo

namespace KeyLocator

def WellFormed : KeyLocator → Prop
  | empty => True
  | name components => ∀ c ∈ components, c.Typed
  | digest block => block.type = 29
  | unsupported _ => False

theorem WellFormed.wireDecode {keyLocator : KeyLocator} (h : keyLocator.WellFormed) :
    ∃ wire, keyLocator.wireEncode = .ok wire ∧ wire.type = 28 ∧
      (wire.value.length < 2 ^ 64 → KeyLocator.wireDecode wire = .ok keyLocator) := by
  cases keyLocator with
  | empty => exact ⟨_, rfl, rfl, fun _ => rfl⟩
  | name components =>
      refine ⟨_, rfl, rfl, fun hsize => ?_⟩
      have hmem := List.mem_singleton_self (WireName.wireEncode components)
      have htype : (WireName.wireEncode components).type = 7 := rfl
      have hparse := Block.parse_ofElements (fun e he => by
        rw [List.mem_singleton.mp he, Block.Typed, htype]
        decide) hsize
      have hname := WireName.wireDecode_wireEncode h
        ((Block.length_le_ofElements hmem).trans_lt hsize)
      rw [KeyLocator.wireDecode, if_neg (by simp), Fallible.bind_ok hparse]
      dsimp only
      rw [if_pos htype, Fallible.bind_ok hname]
      rfl
  | digest block =>
      have htype : block.type = 29 := h
      refine ⟨_, rfl, rfl, fun hsize => ?_⟩
      have hparse := Block.parse_ofElements (fun e he => by
        rw [List.mem_singleton.mp he, Block.Typed, htype]
        decide) hsize
      rw [KeyLocator.wireDecode, if_neg (by simp), Fallible.bind_ok hparse]
      dsimp only
      rw [if_neg (by omega), if_pos htype]
      rfl
  | unsupported type => exact h.elim

end KeyLocator

namespace SignatureInfo

/-- The elements that are kept without being understood. -/
def Kept (e : Block) : Prop :=
  e.type = 38 ∧ e.value ≠ [] ∨ e.type = 253 ∨ e.Typed ∧ e.type ≠ 38 ∧ isCriticalType e.type = false

structure WellFormed (info : SignatureInfo) : Prop where
  type : ∃ type, info.type = some type ∧ type ≤ 65535
  keyLocator : ∀ keyLocator ∈ info.keyLocator, keyLocator.WellFormed
  otherTlvs : ∀ e ∈ info.otherTlvs, Kept e

theorem Kept.typed {e : Block} (h : Kept e) : e.Typed := by
  rcases h with ⟨htype, _⟩ | htype | ⟨htyped, _⟩
  · rw [Block.Typed, htype]
    decide
  · rw [Block.Typed, htype]
    decide
  · exact htyped

theorem Kept.decodeElements {last : ℕ} {e : Block} (h : Kept e) (es : List Block)
    (info : SignatureInfo) : decodeElements last (e :: es) info =
      decodeElements last es { info with otherTlvs := info.otherTlvs ++ [e] } := by
  have hne : e.type ≠ 27 ∧ e.type ≠ 28 ∧ ¬ (e.type = 38 ∧ e.value.length < 1) ∧
      ¬ (e.type ≠ 38 ∧ e.type ≠ 253 ∧ isCriticalType e.type) := by
    rcases h with ⟨htype, hvalue⟩ | htype | ⟨_, hnonce, hcritical⟩
    · have hpos := List.length_pos_of_ne_nil hvalue
      exact ⟨by omega, by omega, by omega, by simp [htype]⟩
    · exact ⟨by omega, by omega, by omega, by simp [htype]⟩
    · have hsmall : ¬ e.type ≤ 31 := by
        intro hle
        simp [isCriticalType, hle] at hcritical
      exact ⟨by omega, by omega, by omega, by simp [hcritical]⟩
  obtain ⟨h27, h28, hnonce, hcritical⟩ := hne
  rw [SignatureInfo.decodeElements, if_neg h27, if_neg h28, if_neg hnonce, if_neg hcritical]

theorem decodeElements_kept {last : ℕ} : ∀ {es : List Block}, (∀ e ∈ es, Kept e) →
    ∀ info : SignatureInfo, decodeElements last es info =
      .ok { info with otherTlvs := info.otherTlvs ++ es } := by
  intro es
  induction es with
  | nil =>
      intro _ info
      simp [decodeElements]
  | cons e es ih =>
      intro h info
      rw [(h e List.mem_cons_self).decodeElements,
        ih fun e' he' => h e' (List.mem_cons_of_mem _ he')]
      simp

theorem WellFormed.wireDecode {info : SignatureInfo} (h : info.WellFormed) :
    ∃ wire, info.wireEncode = .ok wire ∧ wire.type = 22 ∧
      (wire.value.length < 2 ^ 64 → SignatureInfo.wireDecode wire = .ok info) := by
  obtain ⟨type, htype, hle⟩ := h.type
  have hnumber := readNonNegativeIntegerAs_make 27 (by norm_num : 65535 < 2 ^ 64) hle
  rcases info with ⟨_, keyLocator, otherTlvs⟩
  obtain rfl : _ = some type := htype
  have htyped : (makeNonNegativeIntegerBlock 27 type).Typed :=
    makeNonNegativeIntegerBlock_typed (by decide) (by decide) type
  cases keyLocator with
  | none =>
      refine ⟨.ofElements 22 (makeNonNegativeIntegerBlock 27 type :: otherTlvs), rfl, rfl,
        fun hsize => ?_⟩
      have hparse := Block.parse_ofElements (fun e he => by
        rcases List.mem_cons.mp he with rfl | he
        · exact htyped
        · exact (h.otherTlvs e he).typed) hsize
      have helements : decodeElements 0 (makeNonNegativeIntegerBlock 27 type :: otherTlvs) init =
          .ok ⟨some type, none, otherTlvs⟩ := by
        rw [decodeElements, if_pos (by simp), if_neg (lt_irrefl 0), Fallible.bind_ok hnumber,
          decodeElements_kept h.otherTlvs]
        rfl
      unfold SignatureInfo.wireDecode
      rw [Fallible.bind_ok hparse, if_neg (by simp),
        Fallible.bind_ok helements]
      rfl
  | some keyLocator =>
      obtain ⟨locator, hencode, hlocator, hdecode⟩ := (h.keyLocator keyLocator rfl).wireDecode
      refine ⟨.ofElements 22 (makeNonNegativeIntegerBlock 27 type :: locator :: otherTlvs), ?_, rfl,
        fun hsize => ?_⟩
      · have hmap : [keyLocator].mapM KeyLocator.wireEncode = .ok [locator] := by
          simp [hencode, bind, Except.bind, pure, Except.pure]
        exact (Fallible.bind_ok hmap).trans rfl
      · have hparse := Block.parse_ofElements (fun e he => by
          rcases List.mem_cons.mp he with rfl | he
          · exact htyped
          · rcases List.mem_cons.mp he with rfl | he
            · rw [Block.Typed, hlocator]
              decide
            · exact (h.otherTlvs e he).typed) hsize
        have hdecoded := hdecode ((Block.length_le_ofElements
          (List.mem_cons_of_mem _ List.mem_cons_self)).trans_lt hsize)
        have helements : decodeElements 0
            (makeNonNegativeIntegerBlock 27 type :: locator :: otherTlvs) init =
              .ok ⟨some type, some keyLocator, otherTlvs⟩ := by
          rw [decodeElements, if_pos (by simp), if_neg (lt_irrefl 0), Fallible.bind_ok hnumber,
            decodeElements, if_neg (by omega), if_pos hlocator, if_neg (lt_irrefl 1),
            Fallible.bind_ok hdecoded, decodeElements_kept h.otherTlvs]
          rfl
        unfold SignatureInfo.wireDecode
        rw [Fallible.bind_ok hparse, if_neg (by simp),
          Fallible.bind_ok helements]
        rfl

end SignatureInfo

namespace DataPacket

structure WellFormed (data : DataPacket) : Prop where
  name : ∀ c ∈ data.name, c.Typed
  metaInfo : data.metaInfo.WellFormed
  content : ∀ c ∈ data.content, c.type = 21
  signatureInfo : data.signatureInfo.WellFormed
  signatureValue : ∃ value, data.signatureValue = some value ∧ value.type = 23

/-- The elements that follow the name. -/
theorem decodeElements_encoded {data : DataPacket} {signature value : Block}
    (hmeta : MetaInfo.wireDecode data.metaInfo.wireEncode = .ok data.metaInfo)
    (hcontent : ∀ c ∈ data.content, c.type = 21) (htype : signature.type = 22)
    (hsignature : SignatureInfo.wireDecode signature = .ok data.signatureInfo)
    (hvalue : value.type = 23) (hsome : data.signatureValue = some value) :
    decodeElements 1 (data.metaInfo.wireEncode :: (data.content.toList ++ [signature, value]))
      (init data.name) = .ok data := by
  have hend : ∀ {last : ℕ} (d : DataPacket), last < 4 →
      decodeElements last [signature, value] d = .ok
        { d with signatureInfo := data.signatureInfo, signatureValue := some value } := by
    intro last d hlast
    rw [decodeElements, if_neg (by omega), if_neg (by omega), if_pos htype, if_neg (by omega),
      Fallible.bind_ok hsignature, decodeElements, if_neg (by omega), if_neg (by omega),
      if_neg (by omega), if_pos hvalue, if_neg (by omega)]
    rfl
  have h20 : data.metaInfo.wireEncode.type = 20 := rfl
  rw [decodeElements, if_pos h20, if_neg (by decide), Fallible.bind_ok hmeta]
  rcases data with ⟨name, metaInfo, content, signatureInfo, signatureValue⟩
  obtain rfl : signatureValue = some value := hsome
  cases content with
  | none => exact hend _ (by decide)
  | some content =>
      change decodeElements 2 (content :: [signature, value]) _ = _
      have h21 := hcontent content rfl
      rw [decodeElements, if_neg (by omega), if_pos h21, if_neg (by decide), hend _ (by decide)]
      rfl

theorem WellFormed.wireDecode {data : DataPacket} (h : data.WellFormed) :
    ∃ wire, data.wireEncode = .ok wire ∧ wire.type = 6 ∧
      (wire.value.length < 2 ^ 64 → DataPacket.wireDecode wire = .ok data) := by
  obtain ⟨type, htype, _⟩ := h.signatureInfo.type
  obtain ⟨signature, hencode, hsignature, hdecode⟩ := h.signatureInfo.wireDecode
  obtain ⟨value, hsome, hvalue⟩ := h.signatureValue
  have hunsigned : ¬ data.signatureInfo.type = none := by simp [htype]
  let elements := WireName.wireEncode data.name :: data.metaInfo.wireEncode ::
    (data.content.toList ++ [signature, value])
  have hwire : data.wireEncode = .ok (.ofElements 6 elements) := by
    rw [wireEncode, if_neg hunsigned, Fallible.bind_ok hencode, hsome]
    rfl
  refine ⟨_, hwire, rfl, fun hsize => ?_⟩
  have hshort : ∀ e ∈ elements, e.value.length < 2 ^ 64 := fun e he =>
    (Block.length_le_ofElements he).trans_lt hsize
  have htyped : ∀ e ∈ elements, e.Typed := by
    intro e he
    simp only [elements, List.mem_cons, List.mem_append, Option.mem_toList, List.not_mem_nil,
      or_false] at he
    rcases he with rfl | rfl | he | rfl | rfl
    · exact ⟨by simp [WireName.wireEncode], by simp [WireName.wireEncode]⟩
    · exact ⟨by simp [MetaInfo.wireEncode], by simp [MetaInfo.wireEncode]⟩
    · have := h.content e he
      exact ⟨by omega, by omega⟩
    · exact ⟨by omega, by omega⟩
    · exact ⟨by omega, by omega⟩
  have hparse := Block.parse_ofElements htyped hsize
  have hname := WireName.wireDecode_wireEncode h.name (hshort _ (by simp [elements]))
  have hrest := decodeElements_encoded (h.metaInfo.wireDecode (hshort _ (by simp [elements])))
    h.content hsignature (hdecode (hshort _ (by simp [elements]))) hvalue hsome
  rw [DataPacket.wireDecode, if_neg (by simp), Fallible.bind_ok hparse]
  dsimp only [elements]
  rw [if_neg (by simp [WireName.wireEncode]), Fallible.bind_ok hname, Fallible.bind_ok hrest,
    if_neg hunsigned, if_neg (by simp [hsome])]
  rfl

/-- Every packet that can be sent is decoded to the same name, descriptions, content
and signature, whatever optional elements it has. -/
theorem decodes_encoded {data : DataPacket} (h : data.WellFormed) :
    ∃ wire, data.wireEncode = .ok wire ∧ (wire.value.length < 2 ^ 64 →
      Block.ofBuffer wire.wire = .ok wire ∧ DataPacket.wireDecode wire = .ok data) := by
  obtain ⟨wire, hwire, htype, hdecode⟩ := h.wireDecode
  refine ⟨wire, hwire, fun hsize => ⟨?_, hdecode hsize⟩⟩
  rw [Block.wire, Block.ofBuffer_encode (by omega) (by omega), if_pos hsize]

/-- A packet with all optional elements. -/
def full : DataPacket where
  name := [⟨8, [97]⟩]
  metaInfo := ⟨1, 10, some ⟨8, [122]⟩, [⟨128, []⟩]⟩
  content := some ⟨21, [1, 2]⟩
  signatureInfo := ⟨some 3, some (.name [⟨8, [107]⟩]), [⟨38, [9]⟩, ⟨253, []⟩]⟩
  signatureValue := some ⟨23, [5]⟩

theorem decodes_encoded_full : ∃ wire, full.wireEncode = .ok wire ∧
    (wire.value.length < 2 ^ 64 → Block.ofBuffer wire.wire = .ok wire ∧
      DataPacket.wireDecode wire = .ok full) := by
  refine decodes_encoded ⟨?_, ⟨by decide, by decide, by decide, ?_, ?_⟩, ?_,
    ⟨⟨3, rfl, by decide⟩, ?_, ?_⟩, ⟨_, rfl, rfl⟩⟩
  · simp [full, Block.Typed]
  · simp [full, Block.ensureValid]
  · simp [full]
  · simp [full]
  · simp [full, KeyLocator.WellFormed, Block.Typed]
  · simp [full, SignatureInfo.Kept]

end DataPacket

/-! ## Alerts on the wire -/

/-- The attributes of an application that produces alerts. A hello has no zone
but the next hop. -/
structure AlertAttributes where
  mPrefix : List Block
  keyLocator : List Block
  signature : ℕ
  /-- in milliseconds -/
  freshness : ℤ
  virtualPayloadSize : ℕ
  zor : Option (ZoR RawFloat)

namespace AlertAttributes

def fromSequenceNumber (seqNo : ℕ) : Block := makeNonNegativeIntegerBlock 58 seqNo

/-- `Data::setFreshnessPeriod` refuses a negative period. -/
def alertSupplier (app : AlertAttributes) (seq : ℕ) :
    Except (Decoding.Fault String) DataPacket := do
  let zor ← Block.fromZoR (app.zor.getD .neighbor)
  if app.freshness < 0 then
    .error (.rejected "FreshnessPeriod must be >= 0")
  else
    pure
      { DataPacket.init (app.mPrefix ++ [fromSequenceNumber seq, zor]) with
        metaInfo := { MetaInfo.init with freshnessPeriod := app.freshness }
        content := some ⟨21, List.replicate app.virtualPayloadSize 0⟩ }

/-- The fake signature is a number. -/
def doSend (app : AlertAttributes) (seq : ℕ) : Except (Decoding.Fault String) Block := do
  let data ← app.alertSupplier seq
  DataPacket.wireEncode
    { data with
      signatureInfo :=
        { SignatureInfo.init with
          type := some 255
          keyLocator := if app.keyLocator = [] then none else some (.name app.keyLocator) }
      signatureValue := some ⟨23, prependVarNumber app.signature []⟩ }

structure Valid (app : AlertAttributes) : Prop where
  mPrefix : ∀ c ∈ app.mPrefix, c.Typed
  keyLocator : ∀ c ∈ app.keyLocator, c.Typed
  freshness : app.freshness < 2 ^ 63
  zor : (app.zor.getD .neighbor).WithinLimits

theorem extractZoR_append {components : List Block} {zor : ZoR RawFloat}
    (hzor : zor.WithinLimits) : WireName.extractZoR (components ++ [⟨59, zor.serialize⟩]) =
      .ok (some zor) := by
  have hdecode := ZoR.deserialize_append hzor []
  rw [List.append_nil] at hdecode
  unfold WireName.extractZoR
  rw [List.reverse_append]
  exact hdecode

/-- The packet that is encoded. -/
def packet (app : AlertAttributes) (seq : ℕ) (zor : ZoR RawFloat) : DataPacket where
  name := app.mPrefix ++ [fromSequenceNumber seq, ⟨59, zor.serialize⟩]
  metaInfo := ⟨0, app.freshness, none, []⟩
  content := some ⟨21, List.replicate app.virtualPayloadSize 0⟩
  signatureInfo :=
    ⟨some 255, if app.keyLocator = [] then none else some (.name app.keyLocator), []⟩
  signatureValue := some ⟨23, prependVarNumber app.signature []⟩

theorem packet_name (app : AlertAttributes) (seq : ℕ) (zor : ZoR RawFloat) :
    (app.packet seq zor).name = app.mPrefix ++ [fromSequenceNumber seq] ++ [⟨59, zor.serialize⟩] :=
  List.append_cons _ _ _

theorem doSend_eq_ok {app : AlertAttributes} {seq : ℕ} {wire : Block}
    (h : app.doSend seq = .ok wire) : 0 ≤ app.freshness ∧
      (app.packet seq (app.zor.getD .neighbor)).wireEncode = .ok wire := by
  obtain ⟨data, hsupply, hencode⟩ := Fallible.bind_eq_ok.mp h
  obtain ⟨zor, hzor, hsupply⟩ := Fallible.bind_eq_ok.mp hsupply
  rw [Block.fromZoR_eq] at hzor
  split at hzor
  · obtain rfl := Except.ok.inj hzor
    split at hsupply
    · cases hsupply
    · rename_i hfresh
      obtain rfl := Fallible.pure_eq_ok.mp hsupply
      exact ⟨not_lt.mp hfresh, hencode⟩
  · cases hzor

theorem Valid.packet {app : AlertAttributes} (h : app.Valid) (hfresh : 0 ≤ app.freshness)
    (seq : ℕ) : (app.packet seq (app.zor.getD .neighbor)).WellFormed where
  name := by
    intro c hc
    rcases List.mem_append.mp hc with hc | hc
    · exact h.mPrefix c hc
    · rcases List.mem_cons.mp hc with rfl | hc
      · exact makeNonNegativeIntegerBlock_typed (by decide) (by decide) seq
      · rw [List.mem_singleton.mp hc]
        exact ⟨by simp, by simp⟩
  metaInfo := ⟨Nat.zero_le _, hfresh, h.freshness, nofun, nofun⟩
  content := fun c hc => by rw [← Option.some.inj hc]
  signatureInfo := by
    refine ⟨⟨255, rfl, by decide⟩, ?_, nofun⟩
    intro keyLocator hlocator
    simp only [AlertAttributes.packet] at hlocator
    split at hlocator
    · cases hlocator
    · obtain rfl := Option.some.inj hlocator
      exact h.keyLocator
  signatureValue := ⟨_, rfl, rfl⟩

/-- What a receiver decodes from the alert. -/
theorem Valid.wireDecode_doSend {app : AlertAttributes} (h : app.Valid) {seq : ℕ} {wire : Block}
    (hwire : app.doSend seq = .ok wire) (hsize : wire.value.length < 2 ^ 64) :
    DataPacket.wireDecode wire = .ok (app.packet seq (app.zor.getD .neighbor)) := by
  obtain ⟨hfresh, hencode⟩ := doSend_eq_ok hwire
  obtain ⟨wire', hwire', _, hdecode⟩ := (h.packet hfresh seq).wireDecode
  obtain rfl := Except.ok.inj (hencode.symm.trans hwire')
  exact hdecode hsize

end AlertAttributes

/-- A receiver of the bytes of an alert decodes its name, its sequence number and the
zone of its producer. Two alerts have the same bytes only if they have the same
prefix, number and zone. -/
theorem alert_on_the_wire {app : AlertAttributes} (h : app.Valid) {seq : ℕ} {wire : Block}
    (hseq : seq < 2 ^ 64) (hwire : app.doSend seq = .ok wire)
    (hsize : wire.value.length < 2 ^ 64) :
    (∃ data, ((Block.ofBuffer wire.wire).bind DataPacket.wireDecode) = .ok data ∧
      WireName.extractZoR data.name = .ok (some (app.zor.getD .neighbor)) ∧
      ∃ number, data.name.dropLast = app.mPrefix ++ [number] ∧
        readNonNegativeInteger number = .ok seq) ∧
    ∀ (app' : AlertAttributes) (seq' : ℕ), app'.Valid → seq' < 2 ^ 64 →
      app'.doSend seq' = .ok wire → app'.mPrefix = app.mPrefix ∧ seq' = seq ∧
        app'.zor.getD .neighbor = app.zor.getD .neighbor := by
  have hdecode := h.wireDecode_doSend hwire hsize
  have hbuffer : Block.ofBuffer wire.wire = .ok wire := by
    obtain ⟨hfresh, hencode⟩ := AlertAttributes.doSend_eq_ok hwire
    obtain ⟨wire', hwire', htype, _⟩ := (h.packet hfresh seq).wireDecode
    obtain rfl := Except.ok.inj (hencode.symm.trans hwire')
    rw [Block.wire, Block.ofBuffer_encode (by omega) (by omega), if_pos hsize]
  refine ⟨⟨app.packet seq (app.zor.getD .neighbor), ?_, ?_,
    AlertAttributes.fromSequenceNumber seq, ?_,
    readNonNegativeInteger_make 58 hseq⟩, ?_⟩
  · rw [hbuffer]
    exact hdecode
  · rw [AlertAttributes.packet_name]
    exact AlertAttributes.extractZoR_append h.zor
  · rw [AlertAttributes.packet_name, List.dropLast_concat]
  · intro app' seq' h' hseq' hwire'
    have hname := congrArg DataPacket.name
      (Except.ok.inj ((h'.wireDecode_doSend hwire' hsize).symm.trans hdecode))
    rw [AlertAttributes.packet_name, AlertAttributes.packet_name] at hname
    obtain ⟨hfirst, hzor⟩ := List.append_inj' hname rfl
    obtain ⟨hfront, hnumber⟩ := List.append_inj' hfirst rfl
    refine ⟨hfront, ?_, ?_⟩
    · have hread := congrArg readNonNegativeInteger (List.singleton_inj.mp hnumber)
      simp only [AlertAttributes.fromSequenceNumber] at hread
      rw [readNonNegativeInteger_make 58 hseq', readNonNegativeInteger_make 58 hseq] at hread
      exact Except.ok.inj hread
    · have hbytes := congrArg (fun c : Block => ZoR.deserialize (c.value ++ []))
        (List.singleton_inj.mp hzor)
      simp only at hbytes
      rw [ZoR.deserialize_append h'.zor, ZoR.deserialize_append h.zor] at hbytes
      exact Option.some.inj (Except.ok.inj hbytes)

namespace AlertAttributes

/-- An alert for a crossing, from the vehicle with id 7. -/
def emergency : AlertAttributes where
  mPrefix := [⟨8, [97, 108, 101, 114, 116]⟩, ⟨8, [55]⟩]
  keyLocator := []
  signature := 0
  freshness := 1000
  virtualPayloadSize := 3
  zor := some ZoR.crossing

end AlertAttributes

theorem alert_on_the_wire_emergency : ∃ wire, AlertAttributes.emergency.doSend 300 = .ok wire ∧
    ∃ data, ((Block.ofBuffer wire.wire).bind DataPacket.wireDecode) = .ok data ∧
      WireName.extractZoR data.name = .ok (some ZoR.crossing) := by
  have h : AlertAttributes.emergency.Valid := by
    refine ⟨?_, nofun, by decide, ?_⟩
    · intro c hc
      simp only [AlertAttributes.emergency, List.mem_cons, List.not_mem_nil, or_false] at hc
      rcases hc with rfl | rfl <;> exact ⟨by decide, by decide⟩
    · simp [AlertAttributes.emergency, ZoR.crossing, ZoR.WithinLimits, ZoR.AllWithinLimits]
  obtain ⟨wire, hwire, hsize⟩ : ∃ wire, AlertAttributes.emergency.doSend 300 = .ok wire ∧
      wire.value.length < 2 ^ 64 := ⟨_, rfl, by decide +kernel⟩
  obtain ⟨⟨data, hdecode, hzor, _⟩, _⟩ := alert_on_the_wire h (by norm_num) hwire hsize
  exact ⟨wire, hwire, data, hdecode, hzor⟩

end Cafe
