import Cafe.Tlv
import Cafe.Zor

/-!
# The codec of zones

A zone is written as its tag and its fields, a composite as its tag, a count
and its components one after the other. The decoders read the same fields at
a moving offset. None of them compares the offset with the buffer.
-/

namespace Cafe

open Decoding

/-- A `float` as the four bytes that are copied. -/
structure RawFloat where
  b0 : UInt8
  b1 : UInt8
  b2 : UInt8
  b3 : UInt8
  deriving DecidableEq

instance : Plain RawFloat where
  sizeof := 4
  bytes f := [f.b0, f.b1, f.b2, f.b3]
  ofBytes
    | [b0, b1, b2, b3] => ⟨b0, b1, b2, b3⟩
    | _ => ⟨0, 0, 0, 0⟩
  length_bytes _ := rfl
  ofBytes_bytes _ := rfl
  bytes_ofBytes bs h := by
    match bs, h with
    | [b0, b1, b2, b3], _ => rfl

inductive ZoRType
  | neighbor
  | circle
  | polygon
  | composite
  deriving DecidableEq

namespace ZoRType

def tag : ZoRType → UInt8
  | neighbor => 0b00000001
  | circle => 0b00000010
  | polygon => 0b00000100
  | composite => 0b00001000

/-- The cases of the `switch` over a tag. -/
def ofTag (tag : UInt8) : Option ZoRType :=
  if tag = 0b00000001 then some neighbor
  else if tag = 0b00000010 then some circle
  else if tag = 0b00000100 then some polygon
  else if tag = 0b00001000 then some composite
  else none

@[simp] theorem ofTag_tag (t : ZoRType) : ofTag t.tag = some t := by
  cases t <;> rfl

theorem ofTag_eq_some {tag : UInt8} {t : ZoRType} (h : ofTag tag = some t) : tag = t.tag := by
  unfold ofTag at h
  split_ifs at h <;> cases h <;> assumption

end ZoRType

def Point.size : ℕ := 2 * Plain.sizeof RawFloat

namespace ZoR

def getType {F : Type} : ZoR F → ZoRType
  | neighbor => .neighbor
  | circle .. => .circle
  | polygon .. => .polygon
  | composite .. => .composite

mutual

def size : ZoR RawFloat → ℕ
  | neighbor => Plain.sizeof UInt8
  | circle .. => Point.size + Plain.sizeof RawFloat + Plain.sizeof UInt8
  | polygon vertices => vertices.length * Point.size + Plain.sizeof UInt8 + Plain.sizeof UInt8
  | composite components => sizeAll components + Plain.sizeof UInt8 + Plain.sizeof UInt8

def sizeAll : List (ZoR RawFloat) → ℕ
  | [] => 0
  | z :: zs => z.size + sizeAll zs

end

mutual

def serializeTo : ZoR RawFloat → Bytes → Bytes
  | neighbor, buf => write buf ZoRType.neighbor.tag
  | circle center radius, buf =>
      let buf := write buf ZoRType.circle.tag
      let buf := write buf center.x
      let buf := write buf center.y
      write buf radius
  | polygon vertices, buf =>
      let buf := write buf ZoRType.polygon.tag
      let buf := write buf (UInt8.ofNat vertices.length)
      vertices.foldl (fun buf v => write (write buf v.x) v.y) buf
  | composite components, buf =>
      let buf := write buf ZoRType.composite.tag
      let buf := write buf (UInt8.ofNat components.length)
      serializeAllTo components buf

def serializeAllTo : List (ZoR RawFloat) → Bytes → Bytes
  | [], buf => buf
  | z :: zs, buf => serializeAllTo zs (z.serializeTo buf)

end

def serialize (z : ZoR RawFloat) : Bytes := z.serializeTo []

end ZoR

def NeighborZoR.deserialize : Decoder String (ZoR RawFloat) := pure .neighbor

def CircleZoR.deserialize : Decoder String (ZoR RawFloat) := do
  let x ← read RawFloat
  let y ← read RawFloat
  let r ← read RawFloat
  pure (.circle ⟨x, y⟩ r)

def PolygonZoR.vertex : Decoder String (Point RawFloat) := do
  let x ← read RawFloat
  let y ← read RawFloat
  pure ⟨x, y⟩

def PolygonZoR.deserialize : Decoder String (ZoR RawFloat) := do
  let n ← read UInt8
  let verts ← Decoder.loop PolygonZoR.vertex n.toNat
  pure (.polygon verts)

namespace CompositeZoR

def unknownText (tag : UInt8) : String := "Unknown ZoRType=" ++ toString tag.toNat

/-- One round of the loop, given the decoder of a composite. -/
def componentWith (composite : Decoder String (ZoR RawFloat)) : Decoder String (ZoR RawFloat) := do
  let tag ← read UInt8
  match ZoRType.ofTag tag with
  | some .neighbor => NeighborZoR.deserialize
  | some .circle => CircleZoR.deserialize
  | some .polygon => PolygonZoR.deserialize
  | some .composite => composite
  | none => Decoder.reject (unknownText tag)

/-- The decoder of composites nested at most `depth` deep. -/
def deserializeWith : ℕ → Decoder String (ZoR RawFloat)
  | 0 => Decoder.exhausted
  | depth + 1 => do
      let count ← read UInt8
      let components ← Decoder.loop (componentWith (deserializeWith depth)) count.toNat
      pure (.composite components)

/-- Each level of nesting reads a byte, so the length of the buffer bounds
the depth. -/
def deserialize : Decoder String (ZoR RawFloat) := fun buf offset =>
  deserializeWith (buf.length + 1) buf offset

def component : Decoder String (ZoR RawFloat) := componentWith deserialize

end CompositeZoR

namespace ZoR

/-- The decoder of a whole buffer, with the offset that it leaves behind. The
null pointer is `none`. -/
def deserializeAt : Decoder String (Option (ZoR RawFloat)) := do
  let tag ← read UInt8
  match ZoRType.ofTag tag with
  | some .neighbor => some <$> NeighborZoR.deserialize
  | some .circle => some <$> CircleZoR.deserialize
  | some .polygon => some <$> PolygonZoR.deserialize
  | some .composite => some <$> CompositeZoR.deserialize
  | none => pure none

def deserialize (buf : Bytes) : Except (Decoding.Fault String) (Option (ZoR RawFloat)) :=
  (deserializeAt buf 0).map Prod.fst

end ZoR

/-! ## Components of a name -/

namespace Block

def ensureValid (c : Block) : Except (Decoding.Fault String) Unit :=
  if c.type < 1 ∨ c.type > 65535 then
    .error (.rejected ("TLV-TYPE " ++ toString c.type ++ " is not a valid NameComponent"))
  else if c.type = 1 ∧ c.value.length ≠ 32 then
    .error (.rejected "ImplicitSha256DigestComponent TLV-LENGTH must be 32")
  else if c.type = 2 ∧ c.value.length ≠ 32 then
    .error (.rejected "ParametersSha256DigestComponent TLV-LENGTH must be 32")
  else
    .ok ()

def zorNameComponent : ℕ := 59

def isZoR (c : Block) : Bool := c.type = zorNameComponent

/-- `Component::toZoR` -/
def toZoR (c : Block) : Except (Decoding.Fault String) (Option (ZoR RawFloat)) :=
  if ¬c.isZoR then
    .error (.rejected "Not a ZoR component")
  else
    ZoR.deserialize c.value

/-- `Component::fromZoR` -/
def fromZoR (z : ZoR RawFloat) : Except (Decoding.Fault String) Block := do
  let buf := z.serialize
  let encoder := prependVarNumber zorNameComponent (prependVarNumber buf.length buf)
  let c ← Block.ofBuffer encoder
  c.ensureValid
  pure c

end Block

mutual

def ZoR.map {F G : Type} (f : F → G) : ZoR F → ZoR G
  | .neighbor => .neighbor
  | .circle center radius => .circle ⟨f center.x, f center.y⟩ (f radius)
  | .polygon vertices => .polygon (vertices.map fun v => ⟨f v.x, f v.y⟩)
  | .composite components => .composite (ZoR.mapAll f components)

def ZoR.mapAll {F G : Type} (f : F → G) : List (ZoR F) → List (ZoR G)
  | [] => []
  | z :: zs => z.map f :: ZoR.mapAll f zs

end

/-- The component that a node works with, given the value of each float. -/
def Component.ofBlock {F : Type} (value : RawFloat → F) (c : Block) :
    Except (Decoding.Fault String) (Component F) :=
  if c.isZoR then do
    match ← c.toZoR with
    | some z => pure (.zor (z.map value))
    | none => pure (.unknownZor c.value)
  else
    pure (.generic c.value)

end Cafe
