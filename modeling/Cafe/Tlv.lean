import Cafe.Decoding

/-!
# Type-length-value blocks

The number encoding of a block and the constructor that parses one from a
buffer. A number of 253 or more is announced by a marker octet and stands in
2, 4 or 8 octets, the most significant first.
-/

namespace Cafe

open Decoding

def bigEndian : ℕ → ℕ → Bytes
  | 0, _ => []
  | width + 1, n => UInt8.ofNat (n / 256 ^ width) :: bigEndian width n

def ofBigEndian (bs : Bytes) : ℕ := bs.foldl (fun n b => n * 256 + b.toNat) 0

@[simp] theorem length_bigEndian (width n : ℕ) : (bigEndian width n).length = width := by
  induction width with
  | zero => rfl
  | succ width ih => rw [bigEndian, List.length_cons, ih]

theorem foldl_bigEndian (width n acc : ℕ) :
    (bigEndian width n).foldl (fun n b => n * 256 + b.toNat) acc =
      acc * 256 ^ width + n % 256 ^ width := by
  induction width generalizing acc with
  | zero => simp [bigEndian, Nat.mod_one]
  | succ width ih =>
      have hoctet : (UInt8.ofNat (n / 256 ^ width)).toNat = n / 256 ^ width % 256 :=
        UInt8.toNat_ofNat'
      have hsplit : n % 256 ^ (width + 1) =
          n % 256 ^ width + 256 ^ width * (n / 256 ^ width % 256) := by
        rw [Nat.pow_succ, Nat.mod_mul]
      rw [bigEndian, List.foldl_cons, ih, hoctet, hsplit, Nat.pow_succ]
      ring

theorem ofBigEndian_bigEndian (width n : ℕ) :
    ofBigEndian (bigEndian width n) = n % 256 ^ width := by
  rw [ofBigEndian, foldl_bigEndian, Nat.zero_mul, Nat.zero_add]

/-- `Encoder::prependVarNumber` -/
def prependVarNumber (varNumber : ℕ) (buf : Bytes) : Bytes :=
  if varNumber < 253 then
    UInt8.ofNat varNumber :: buf
  else if varNumber ≤ 65535 then
    253 :: (bigEndian 2 varNumber ++ buf)
  else if varNumber ≤ 4294967295 then
    254 :: (bigEndian 4 varNumber ++ buf)
  else
    255 :: (bigEndian 8 varNumber ++ buf)

def readNumber (size : ℕ) : Decoder String ℕ := fun buf offset =>
  if offset + size ≤ buf.length then
    .ok (ofBigEndian ((buf.drop offset).take size), offset + size)
  else
    .error (.rejected "Insufficient data during TLV parsing")

def readVarNumber : Decoder String ℕ := fun buf offset =>
  if offset = buf.length then
    .error (.rejected "Empty buffer during TLV parsing")
  else
    (do
      let firstOctet ← read UInt8
      if firstOctet.toNat < 253 then
        pure firstOctet.toNat
      else
        readNumber (if firstOctet = 253 then 2 else if firstOctet = 254 then 4 else 8) :
      Decoder String ℕ) buf offset

def readType : Decoder String ℕ := do
  let type ← readVarNumber
  if type = 0 ∨ type > 4294967295 then
    Decoder.reject ("Illegal TLV-TYPE " ++ toString type)
  else
    pure type

structure Block where
  type : ℕ
  value : Bytes
  deriving DecidableEq

/-- The type and the length that stand before the value. -/
def Block.header : Decoder String (ℕ × ℕ) := do
  let type ← readType
  let length ← readVarNumber
  pure (type, length)

/-- The constructor of a block from a buffer that it has to fill. -/
def Block.ofBuffer (buf : Bytes) : Except (Decoding.Fault String) Block :=
  match Block.header buf 0 with
  | .error e => .error e
  | .ok ((type, length), offset) =>
      if length ≠ buf.length - offset then
        .error (.rejected "TLV-LENGTH does not match buffer size")
      else
        .ok ⟨type, buf.drop offset⟩

theorem readNumber_reads (width n : ℕ) :
    Reads (readNumber width) (bigEndian width n) (n % 256 ^ width) := by
  intro before after
  have htake : ((before ++ bigEndian width n ++ after).drop before.length).take width =
      bigEndian width n := by
    rw [List.append_assoc, List.drop_left, List.take_left' (length_bigEndian width n)]
  have hfit : before.length + width ≤ (before ++ bigEndian width n ++ after).length := by
    simp only [List.length_append, length_bigEndian]
    omega
  rw [readNumber, if_pos hfit, htake, ofBigEndian_bigEndian, length_bigEndian]

/-- A number that starts with an octet is read by what follows that octet. -/
theorem readVarNumber_octet {octet : UInt8} {bs : Bytes} {n : ℕ}
    (h : Reads (if octet.toNat < 253 then (pure octet.toNat : Decoder String ℕ)
      else readNumber (if octet = 253 then 2 else if octet = 254 then 4 else 8)) bs n) :
    Reads readVarNumber (octet :: bs) n := by
  intro before after
  have hne : before.length ≠ (before ++ (octet :: bs) ++ after).length := by
    simp only [List.length_append, List.length_cons]
    omega
  rw [readVarNumber, if_neg hne]
  exact Reads.bind (Reads.read octet) h before after

/-- A number is read back modulo the width of the widest field. -/
theorem readVarNumber_reads (n : ℕ) :
    Reads readVarNumber (prependVarNumber n []) (n % 2 ^ 64) := by
  unfold prependVarNumber
  split_ifs with h1 h2 h3
  · have hn : (UInt8.ofNat n).toNat = n := by
      rw [UInt8.toNat_ofNat', Nat.mod_eq_of_lt]
      omega
    rw [Nat.mod_eq_of_lt (by omega : n < 2 ^ 64)]
    apply readVarNumber_octet
    rw [hn, if_pos h1]
    exact Reads.pure n
  · have hnum := readNumber_reads 2 n
    rw [Nat.mod_eq_of_lt (by omega : n < 256 ^ 2)] at hnum
    rw [Nat.mod_eq_of_lt (by omega : n < 2 ^ 64), List.append_nil]
    exact readVarNumber_octet hnum
  · have hnum := readNumber_reads 4 n
    rw [Nat.mod_eq_of_lt (by omega : n < 256 ^ 4)] at hnum
    rw [Nat.mod_eq_of_lt (by omega : n < 2 ^ 64), List.append_nil]
    exact readVarNumber_octet hnum
  · rw [List.append_nil]
    exact readVarNumber_octet (readNumber_reads 8 n)

theorem prependVarNumber_append (n : ℕ) (buf : Bytes) :
    prependVarNumber n buf = prependVarNumber n [] ++ buf := by
  unfold prependVarNumber
  split_ifs <;> simp

theorem readType_reads {n : ℕ} (h0 : n ≠ 0) (h : n ≤ 4294967295) :
    Reads readType (prependVarNumber n []) n := by
  have hnum := readVarNumber_reads n
  rw [Nat.mod_eq_of_lt (by omega : n < 2 ^ 64)] at hnum
  have hrest : Reads (if n = 0 ∨ n > 4294967295 then
      Decoder.reject ("Illegal TLV-TYPE " ++ toString n) else (pure n : Decoder String ℕ))
        [] n := by
    rw [if_neg (by omega)]
    exact Reads.pure n
  have hbind := Reads.bind (f := fun n : ℕ => if n = 0 ∨ n > 4294967295 then
    Decoder.reject ("Illegal TLV-TYPE " ++ toString n) else (pure n : Decoder String ℕ)) hnum hrest
  rwa [List.append_nil] at hbind

theorem Block.header_reads {type : ℕ} (h0 : type ≠ 0) (htype : type ≤ 4294967295) (length : ℕ) :
    Reads Block.header (prependVarNumber type [] ++ prependVarNumber length [])
      (type, length % 2 ^ 64) :=
  Reads.bind (f := fun ty => readVarNumber >>= fun n => pure (ty, n)) (readType_reads h0 htype)
    (Reads.map (readVarNumber_reads length))

/-- A block whose type, length and value are written one before the other is
parsed back, unless its length is too large for the widest field. -/
theorem Block.ofBuffer_encode {type : ℕ} (h0 : type ≠ 0) (htype : type ≤ 4294967295)
    (value : Bytes) :
    Block.ofBuffer (prependVarNumber type (prependVarNumber value.length value)) =
      if value.length < 2 ^ 64 then .ok ⟨type, value⟩
      else .error (.rejected "TLV-LENGTH does not match buffer size") := by
  have hrun := (Block.header_reads h0 htype value.length).at_start (List.prefix_append _ value)
  have hrest : (prependVarNumber type [] ++ prependVarNumber value.length [] ++ value).length -
      (prependVarNumber type [] ++ prependVarNumber value.length []).length = value.length := by
    rw [List.length_append]
    omega
  rw [prependVarNumber_append type, prependVarNumber_append value.length, ← List.append_assoc]
  unfold Block.ofBuffer
  rw [hrun]
  change (if _ then _ else _) = _
  rw [hrest, List.drop_left]
  by_cases hfit : value.length < 2 ^ 64
  · rw [if_neg (by rw [Nat.mod_eq_of_lt hfit]; simp), if_pos hfit]
  · have hlt : value.length % 2 ^ 64 < 2 ^ 64 := Nat.mod_lt _ (by omega)
    rw [if_pos (by omega), if_neg hfit]

end Cafe
