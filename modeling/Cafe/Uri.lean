import Mathlib.Data.List.TakeWhile
import Cafe.DataPacket

/-!
# Names as text

The text of a name has a slash before each component. The canonical form of a
component is its type and its value in percent coding; some types have a form
of their own.
-/

open Decoding

namespace Cafe

namespace Uri

def ascii (s : String) : Bytes := s.toList.map Char.toUInt8

def slash : UInt8 := '/'.toUInt8

def equals : UInt8 := '='.toUInt8

def percent : UInt8 := '%'.toUInt8

def period : UInt8 := '.'.toUInt8

/-! ## Numerals -/

/-- `std::to_string` -/
def decimal (n : ℕ) : Bytes := (Nat.toDigits 10 n).map Char.toUInt8

def isSpace (c : UInt8) : Bool := c = ' '.toUInt8 || (9 ≤ c && c ≤ 13)

def isDigit (c : UInt8) : Bool := '0'.toUInt8 ≤ c && c ≤ '9'.toUInt8

def digitsValue (ds : Bytes) : ℕ := ds.foldl (fun n c => 10 * n + (c.toNat - 48)) 0

/-- Blanks, a sign and digits: whether the number is negative, and its size. What
follows the digits is not read. -/
def scan (text : Bytes) : Option (Bool × ℕ) :=
  let rest := text.dropWhile isSpace
  let negative := rest.head? = some '-'.toUInt8
  let unsigned := if negative ∨ rest.head? = some '+'.toUInt8 then rest.drop 1 else rest
  let digits := unsigned.takeWhile isDigit
  if digits = [] then none else some (negative, digitsValue digits)

/-- `std::strtoul` -/
def strtoul (text : Bytes) : ℕ :=
  match scan text with
  | none => 0
  | some (negative, n) =>
      if n ≥ 2 ^ 64 then 2 ^ 64 - 1 else if negative then (2 ^ 64 - n) % 2 ^ 64 else n

inductive StoullError
  | invalidArgument
  | outOfRange
  deriving DecidableEq, Repr

/-- `std::stoull` -/
def stoull (text : Bytes) : Except StoullError ℕ :=
  match scan text with
  | none => .error .invalidArgument
  | some (negative, n) =>
      if n ≥ 2 ^ 64 then .error .outOfRange
      else .ok (if negative then (2 ^ 64 - n) % 2 ^ 64 else n)

/-! ## Percent coding -/

def toHexChar (n : ℕ) (wantUpperCase : Bool) : UInt8 :=
  (ascii (if wantUpperCase then "0123456789ABCDEF" else "0123456789abcdef")).getD (n % 16) 0

def fromHexChar (c : UInt8) : Option ℕ :=
  if '0'.toUInt8 ≤ c ∧ c ≤ '9'.toUInt8 then some (c.toNat - 48)
  else if 'A'.toUInt8 ≤ c ∧ c ≤ 'F'.toUInt8 then some (c.toNat - 65 + 10)
  else if 'a'.toUInt8 ≤ c ∧ c ≤ 'f'.toUInt8 then some (c.toNat - 97 + 10)
  else none

def isUnreserved (c : UInt8) : Bool :=
  ('a'.toUInt8 ≤ c && c ≤ 'z'.toUInt8) || ('A'.toUInt8 ≤ c && c ≤ 'Z'.toUInt8) ||
    ('0'.toUInt8 ≤ c && c ≤ '9'.toUInt8) || c = '-'.toUInt8 || c = '.'.toUInt8 ||
      c = '_'.toUInt8 || c = '~'.toUInt8

def escapeChar (c : UInt8) : Bytes :=
  if isUnreserved c then [c]
  else [percent, toHexChar (c.toNat / 16) true, toHexChar (c.toNat % 16) true]

def escape (str : Bytes) : Bytes := str.flatMap escapeChar

/-- Digits that are none stay as they are, and so does a percent sign that stands
at the end. -/
def unescape : Bytes → Bytes
  | c :: d :: e :: rest =>
      if c = percent then
        match fromHexChar d, fromHexChar e with
        | some hi, some lo => UInt8.ofNat (16 * hi + lo) :: unescape rest
        | _, _ => c :: d :: e :: unescape rest
      else c :: unescape (d :: e :: rest)
  | str => str

def printHex (buffer : Bytes) : Bytes :=
  buffer.flatMap fun b => [toHexChar (b.toNat / 16) false, toHexChar (b.toNat % 16) false]

def fromHex : Bytes → Option Bytes
  | [] => some []
  | [_] => none
  | d :: e :: rest =>
      match fromHexChar d, fromHexChar e, fromHex rest with
      | some hi, some lo, some buffer => some (UInt8.ofNat (16 * hi + lo) :: buffer)
      | _, _, _ => none

/-! ## Components -/

inductive UriFormat
  | canonical
  | alternate
  | envOrCanonical
  | envOrAlternate
  deriving DecidableEq, Repr

/-- The environment may choose where the format leaves it open. -/
def wantAltUri (wantAltEnv : Option Bool) : UriFormat → Bool
  | .envOrCanonical => wantAltEnv.getD false
  | .envOrAlternate => wantAltEnv.getD true
  | .alternate => true
  | .canonical => false

/-- The rules of a component type. -/
inductive ComponentType
  | base
  | generic
  | sha256 (type : ℕ) (typeName uriPrefix : String)
  | decimal (type : ℕ) (typeName uriPrefix : String)
  deriving DecidableEq, Repr

def componentTypes : List (ℕ × ComponentType) :=
  [(1, .sha256 1 "ImplicitSha256DigestComponent" "sha256digest"),
    (2, .sha256 2 "ParametersSha256DigestComponent" "params-sha256"),
    (8, .generic),
    (32, .base),
    (50, .decimal 50 "SegmentNameComponent" "seg"),
    (52, .decimal 52 "ByteOffsetNameComponent" "off"),
    (54, .decimal 54 "VersionNameComponent" "v"),
    (56, .decimal 56 "TimestampNameComponent" "t"),
    (58, .decimal 58 "SequenceNumNameComponent" "seq"),
    (59, .decimal 59 "ZorNameComponent" "zor")]

def componentType (type : ℕ) : ComponentType := (componentTypes.lookup type).getD .base

namespace ComponentType

def getAltUriPrefix : ComponentType → Option String
  | sha256 _ _ uriPrefix => some uriPrefix
  | decimal _ _ uriPrefix => some uriPrefix
  | _ => none

end ComponentType

def findByUriPrefix (typePrefix : Bytes) : Option ComponentType :=
  (componentTypes.map Prod.snd).find? fun ct => ct.getAltUriPrefix.map ascii = some typePrefix

/-- A text of periods is set apart from the names of directories. -/
def writeUriEscapedValue (value : Bytes) : Bytes :=
  (if value.all (· = period) then ascii "..." else []) ++ escape value

def isNumber (comp : Block) : Bool := comp.value.length ∈ [1, 2, 4, 8]

namespace ComponentType

/-- `<type-number>=<escaped-value>` -/
def writePlainUri (comp : Block) : Bytes :=
  Uri.decimal comp.type ++ equals :: writeUriEscapedValue comp.value

def writeUri : ComponentType → Block → Bytes
  | base, comp => writePlainUri comp
  | generic, comp => writeUriEscapedValue comp.value
  | sha256 _ _ uriPrefix, comp => ascii uriPrefix ++ equals :: printHex comp.value
  | decimal _ _ uriPrefix, comp =>
      if isNumber comp then ascii uriPrefix ++ equals :: Uri.decimal (ofBigEndian comp.value)
      else if comp.isZoR then ascii uriPrefix ++ equals :: ascii "[MASKED]"
      else writePlainUri comp

end ComponentType

/-- The constructor of a component. -/
def makeComponent (type : ℕ) (value : Bytes) : Except (Decoding.Fault String) Block := do
  Block.ensureValid ⟨type, value⟩
  pure ⟨type, value⟩

namespace ComponentType

/-- Only types with a form of their own are asked to read it. -/
def parseAltUriValue : ComponentType → Bytes → Except (Decoding.Fault String) Block
  | sha256 type typeName _, input =>
      match fromHex input with
      | none => .error (.rejected ("Cannot convert to " ++ typeName ++ " (invalid hex encoding)"))
      | some value => makeComponent type value
  | decimal type typeName _, input =>
      match stoull input with
      | .error .invalidArgument =>
          .error (.rejected ("Cannot convert to " ++ typeName ++ " (invalid format)"))
      | .error .outOfRange =>
          .error (.rejected ("Cannot convert to " ++ typeName ++ " (out of range)"))
      | .ok n =>
          if Uri.decimal n ≠ input then
            .error (.rejected ("Cannot convert to " ++ typeName ++ " (invalid format)"))
          else pure (makeNonNegativeIntegerBlock type n)
  | _, _ => .error (.rejected "unreachable")

end ComponentType

def componentToUri (wantAlt : Bool) (comp : Block) : Bytes :=
  if wantAlt then (componentType comp.type).writeUri comp else ComponentType.base.writeUri comp

def parseUriEscapedValue (type : ℕ) (input : Bytes) : Except (Decoding.Fault String) Block :=
  let value := unescape input
  if value.all (· = period) then
    if value.length < 3 then
      .error (.rejected "Illegal URI (name component cannot be . or ..)")
    else makeComponent type (value.take (value.length - 3))
  else makeComponent type value

def latin1 (text : Bytes) : String := String.ofList (text.map fun c => Char.ofNat c.toNat)

/-- The part of `fromEscapedString` behind an equals sign. -/
def fromTypedString (typePrefix value : Bytes) : Except (Decoding.Fault String) Block :=
  let type := strtoul typePrefix
  if 1 ≤ type ∧ type ≤ 65535 ∧ decimal type = typePrefix then parseUriEscapedValue type value
  else
    match findByUriPrefix typePrefix with
    | none => .error (.rejected
        ("Unknown TLV-TYPE '" ++ latin1 typePrefix ++ "' in NameComponent URI"))
    | some ct => ct.parseAltUriValue value

def fromEscapedString (input : Bytes) : Except (Decoding.Fault String) Block :=
  if equals ∉ input then parseUriEscapedValue 8 input
  else
    fromTypedString (input.takeWhile (· ≠ equals)) ((input.dropWhile (· ≠ equals)).drop 1)

end Uri

/-! ## Names -/

namespace WireName

open Uri

def toUri (wantAltEnv : Option Bool) (format : UriFormat) (name : List Block) : Bytes :=
  if name = [] then [slash]
  else name.flatMap fun comp => slash :: componentToUri (wantAltUri wantAltEnv format) comp

/-- The protocol is what stands before a colon that comes before any slash. -/
def withoutProtocol (uri : Bytes) : Bytes :=
  let before := uri.takeWhile (· ≠ ':'.toUInt8)
  if ':'.toUInt8 ∈ uri ∧ slash ∉ before then uri.drop (before.length + 1) else uri

/-- After the leading slash, or after the authority that two slashes announce. -/
def path (uri : Bytes) : Bytes :=
  match uri with
  | c :: d :: rest =>
      if c = slash then
        if d = slash then (rest.dropWhile (· ≠ slash)).drop 1 else d :: rest
      else uri
  | [c] => if c = slash then [] else uri
  | [] => []

/-- The loop over the components; each takes one unit of fuel. -/
def parseComponents : ℕ → Bytes → Except (Decoding.Fault String) (List Block)
  | 0, uri => if uri = [] then .ok [] else .error .outOfFuel
  | fuel + 1, uri =>
      if uri = [] then .ok []
      else do
        let comp ← fromEscapedString (uri.takeWhile (· ≠ slash))
        let rest ← parseComponents fuel ((uri.dropWhile (· ≠ slash)).drop 1)
        pure (comp :: rest)

def ofUri (uri : Bytes) : Except (Decoding.Fault String) (List Block) :=
  parseComponents uri.length (path (withoutProtocol uri))

end WireName

namespace Uri

/-! ## What is read back -/

theorem toNat_toUInt8 {c : Char} (h : c.isDigit = true) : c.toUInt8.toNat = c.toNat := by
  have hle : c.toNat ≤ 57 := by
    simp only [Char.isDigit, Bool.and_eq_true, decide_eq_true_eq] at h
    exact h.2
  rw [Char.toUInt8, UInt32.toNat_toUInt8]
  exact Nat.mod_eq_of_lt (hle.trans_lt (by decide))

theorem isDigit_of_mem_decimal {n : ℕ} {c : UInt8} (h : c ∈ decimal n) : isDigit c = true := by
  obtain ⟨d, hd, rfl⟩ := List.mem_map.mp h
  have hdigit := Nat.isDigit_of_mem_toDigits (by decide) (by decide) hd
  have hnat := toNat_toUInt8 hdigit
  simp only [Char.isDigit, Bool.and_eq_true, decide_eq_true_eq] at hdigit
  simp only [isDigit, Bool.and_eq_true, decide_eq_true_eq, UInt8.le_iff_toNat_le, hnat]
  exact hdigit

theorem decimal_ne_nil (n : ℕ) : decimal n ≠ [] := by
  simp [decimal, Nat.toDigits_ne_nil]

theorem digitsValue_decimal (n : ℕ) : digitsValue (decimal n) = n := by
  have hfold : ∀ (cs : List Char) (k : ℕ), (∀ c ∈ cs, c.isDigit = true) →
      (cs.map Char.toUInt8).foldl (fun n c => 10 * n + (c.toNat - 48)) k =
        Nat.ofDigitChars 10 cs k := by
    intro cs
    induction cs with
    | nil => exact fun _ _ => rfl
    | cons c cs ih =>
        intro k hcs
        rw [List.map_cons, List.foldl_cons, ih _ fun d hd => hcs d (List.mem_cons_of_mem c hd),
          Nat.ofDigitChars_cons, toNat_toUInt8 (hcs c List.mem_cons_self)]
        rfl
  rw [digitsValue, decimal, hfold _ _ fun c hc => Nat.isDigit_of_mem_toDigits (by decide)
    (by decide) hc, Nat.ofDigitChars_ten_toDigits]

theorem decimal_inj {n m : ℕ} (h : decimal n = decimal m) : n = m := by
  rw [← digitsValue_decimal n, h, digitsValue_decimal]

theorem scan_decimal (n : ℕ) : scan (decimal n) = some (false, n) := by
  have hdigits : ∀ c ∈ decimal n, isDigit c = true := fun c hc => isDigit_of_mem_decimal hc
  have hvalue := digitsValue_decimal n
  have hne := decimal_ne_nil n
  generalize decimal n = ds at hdigits hvalue hne
  cases ds with
  | nil => exact absurd rfl hne
  | cons c cs =>
      have hc := hdigits c List.mem_cons_self
      have htake : (c :: cs).takeWhile isDigit = c :: cs :=
        List.takeWhile_eq_self_iff.mpr hdigits
      have hspace : isSpace c = false := by
        simp only [isDigit, isSpace, Bool.and_eq_true, decide_eq_true_eq, UInt8.le_iff_toNat_le,
          Bool.or_eq_false_iff, decide_eq_false_iff_not, Bool.and_eq_false_iff] at hc ⊢
        refine ⟨fun heq => ?_, Or.inr ?_⟩
        · subst heq
          exact absurd hc.1 (by decide)
        · exact fun hle => absurd (hc.1.trans hle) (by decide)
      have hsign : c ≠ '-'.toUInt8 ∧ c ≠ '+'.toUInt8 :=
        ⟨fun heq => absurd (heq ▸ hc) (by decide), fun heq => absurd (heq ▸ hc) (by decide)⟩
      simp [scan, hspace, hsign.1, hsign.2, htake, hvalue]

theorem strtoul_decimal {n : ℕ} (h : n < 2 ^ 64) : strtoul (decimal n) = n := by
  rw [strtoul, scan_decimal]
  exact if_neg (Nat.not_le.mpr h)

theorem stoull_decimal {n : ℕ} (h : n < 2 ^ 64) : stoull (decimal n) = .ok n := by
  rw [stoull, scan_decimal]
  exact if_neg (Nat.not_le.mpr h)

theorem fromHexChar_toHexChar {n : ℕ} (h : n < 16) (wantUpperCase : Bool) :
    fromHexChar (toHexChar n wantUpperCase) = some n := by
  interval_cases n <;> cases wantUpperCase <;> decide

theorem isUnreserved_toHexChar (n : ℕ) : isUnreserved (toHexChar n true) = true := by
  have hlt : n % 16 < 16 := Nat.mod_lt _ (by decide)
  have hmod : toHexChar n true = toHexChar (n % 16) true := by
    rw [toHexChar, toHexChar, Nat.mod_mod]
  rw [hmod]
  generalize n % 16 = m at hlt
  interval_cases m <;> decide

theorem ofNat_halves (b : UInt8) : UInt8.ofNat (16 * (b.toNat / 16) + b.toNat % 16) = b := by
  rw [Nat.div_add_mod, UInt8.ofNat_toNat]

theorem halves_lt (b : UInt8) : b.toNat / 16 < 16 ∧ b.toNat % 16 < 16 := by
  have hlt := b.toNat_lt
  omega

theorem unescape_cons {c : UInt8} (h : c ≠ percent) (rest : Bytes) :
    unescape (c :: rest) = c :: unescape rest := by
  match rest with
  | [] => rfl
  | [_] => rfl
  | _ :: _ :: _ => rw [unescape, if_neg h]

theorem unescape_escape (str : Bytes) : unescape (escape str) = str := by
  induction str with
  | nil => rfl
  | cons c str ih =>
      rw [escape, List.flatMap_cons, ← escape]
      unfold escapeChar
      split
      · rename_i hc
        have hne : c ≠ percent := fun heq => absurd (heq ▸ hc) (by decide)
        rw [List.singleton_append, unescape_cons hne, ih]
      · rw [List.cons_append, List.cons_append, List.singleton_append, unescape, if_pos rfl,
          fromHexChar_toHexChar (halves_lt c).1, fromHexChar_toHexChar (halves_lt c).2]
        simp only [ih, ofNat_halves]

theorem fromHex_printHex (buffer : Bytes) : fromHex (printHex buffer) = some buffer := by
  induction buffer with
  | nil => rfl
  | cons b buffer ih =>
      rw [printHex, List.flatMap_cons, ← printHex, List.cons_append, List.singleton_append, fromHex,
        fromHexChar_toHexChar (halves_lt b).1, fromHexChar_toHexChar (halves_lt b).2, ih]
      simp only [ofNat_halves]

theorem takeWhile_separated {sep : UInt8} {front : Bytes} (h : sep ∉ front) (rest : Bytes) :
    (front ++ sep :: rest).takeWhile (· ≠ sep) = front ∧
      ((front ++ sep :: rest).dropWhile (· ≠ sep)).drop 1 = rest := by
  have hfront : ∀ c ∈ front, decide (c ≠ sep) = true :=
    fun c hc => decide_eq_true fun heq => h (heq ▸ hc)
  constructor
  · rw [List.takeWhile_append_of_pos hfront, List.takeWhile_cons_of_neg (by simp), List.append_nil]
  · rw [List.dropWhile_append_of_pos hfront, List.dropWhile_cons_of_neg (by simp), List.drop_one,
      List.tail_cons]

/-! ## The characters of a text -/

/-- The characters of a value in percent coding. -/
def Plain (c : UInt8) : Prop := isUnreserved c = true ∨ c = percent

theorem Plain.ne {c d : UInt8} (h : Plain c) (hd : isUnreserved d = false ∧ d ≠ percent) :
    c ≠ d := by
  rintro rfl
  rcases h with h | h
  · exact absurd h (by simp [hd.1])
  · exact hd.2 h

theorem escape_append (front rest : Bytes) : escape (front ++ rest) = escape front ++ escape rest :=
  List.flatMap_append

theorem plain_escape {str : Bytes} {c : UInt8} (h : c ∈ escape str) : Plain c := by
  obtain ⟨d, _, hc⟩ := List.mem_flatMap.mp h
  unfold escapeChar at hc
  split at hc
  · rename_i hd
    exact Or.inl (List.mem_singleton.mp hc ▸ hd)
  · simp only [List.mem_cons, List.not_mem_nil, or_false] at hc
    rcases hc with rfl | rfl | rfl
    · exact Or.inr rfl
    · exact Or.inl (isUnreserved_toHexChar _)
    · exact Or.inl (isUnreserved_toHexChar _)

/-- The periods that are put in front. -/
def guardPeriods (value : Bytes) : Bytes := if value.all (· = period) then ascii "..." else []

theorem writeUriEscapedValue_eq (value : Bytes) :
    writeUriEscapedValue value = escape (guardPeriods value ++ value) := by
  rw [writeUriEscapedValue, ← guardPeriods, escape_append]
  congr 1
  unfold guardPeriods
  split
  · decide
  · rfl

theorem plain_writeUriEscapedValue {value : Bytes} {c : UInt8}
    (h : c ∈ writeUriEscapedValue value) : Plain c :=
  plain_escape (writeUriEscapedValue_eq value ▸ h)

/-- What is written for a value is read as that value. -/
theorem parse_writeUriEscapedValue (type : ℕ) (value : Bytes) :
    parseUriEscapedValue type (writeUriEscapedValue value) = makeComponent type value := by
  rw [parseUriEscapedValue, writeUriEscapedValue_eq, unescape_escape]
  unfold guardPeriods
  by_cases hall : value.all (· = period)
  · have hguard : (ascii "..." ++ value).all (· = period) := by
      rw [List.all_append, hall]
      decide
    have hlen : (ascii "..." ++ value).length = value.length + 3 := by
      rw [List.length_append, show (ascii "...").length = 3 by decide, Nat.add_comm]
    have htake : (ascii "..." ++ value).take value.length = value := by
      have hperiods : ∀ l : Bytes, l.all (· = period) → l = List.replicate l.length period :=
        fun l hl => List.eq_replicate_iff.mpr ⟨rfl, by simpa using hl⟩
      rw [hperiods _ hguard, List.take_replicate, hlen, Nat.min_eq_left (Nat.le_add_right _ 3),
        ← hperiods _ hall]
    rw [if_pos hall, if_pos hguard, hlen, if_neg (Nat.not_lt.mpr (Nat.le_add_left 3 _)),
      Nat.add_sub_cancel, htake]
  · rw [if_neg hall, List.nil_append, if_neg hall]

theorem makeComponent_valid {comp : Block} (h : comp.ensureValid = .ok ()) :
    makeComponent comp.type comp.value = .ok comp := by
  unfold makeComponent
  rw [show Block.ensureValid ⟨comp.type, comp.value⟩ = .ok () from h]
  rfl

theorem type_of_valid {comp : Block} (h : comp.ensureValid = .ok ()) :
    1 ≤ comp.type ∧ comp.type ≤ 65535 := by
  unfold Block.ensureValid at h
  split at h
  · cases h
  · rename_i htype
    exact ⟨by omega, by omega⟩

theorem equals_notMem_decimal (n : ℕ) : equals ∉ decimal n := fun h =>
  absurd (isDigit_of_mem_decimal h) (by decide)

theorem fromEscapedString_typed {typePrefix : Bytes} (h : equals ∉ typePrefix) (value : Bytes) :
    fromEscapedString (typePrefix ++ equals :: value) = fromTypedString typePrefix value := by
  obtain ⟨htake, hdrop⟩ := takeWhile_separated h value
  rw [fromEscapedString, if_neg (by simp), htake, hdrop]

/-- The canonical form is read back. -/
theorem fromEscapedString_writePlainUri {comp : Block} (h : comp.ensureValid = .ok ()) :
    fromEscapedString (ComponentType.writePlainUri comp) = .ok comp := by
  obtain ⟨hpos, hle⟩ := type_of_valid h
  have htype : strtoul (decimal comp.type) = comp.type := strtoul_decimal (by omega)
  rw [ComponentType.writePlainUri, fromEscapedString_typed (equals_notMem_decimal comp.type),
    fromTypedString, htype, if_pos ⟨hpos, hle, rfl⟩, parse_writeUriEscapedValue,
    makeComponent_valid h]

/-! ## The forms of the types -/

/-- Each prefix starts with a letter and belongs to one type. -/
theorem altUri_spec : ∀ e ∈ componentTypes, ∀ uriPrefix ∈ e.2.getAltUriPrefix,
    strtoul (ascii uriPrefix) = 0 ∧ findByUriPrefix (ascii uriPrefix) = some e.2 ∧
      ∀ c ∈ ascii uriPrefix, isUnreserved c = true := by
  have hall : ∀ e ∈ componentTypes, ∀ uriPrefix ∈ e.2.getAltUriPrefix,
      strtoul (ascii uriPrefix) = 0 ∧ findByUriPrefix (ascii uriPrefix) = some e.2 ∧
        (ascii uriPrefix).all isUnreserved = true := by
    decide
  intro e he uriPrefix halt
  obtain ⟨hzero, hfind, hclean⟩ := hall e he uriPrefix halt
  exact ⟨hzero, hfind, List.all_eq_true.mp hclean⟩

theorem isUnreserved_equals : isUnreserved equals = false ∧ equals ≠ percent := by decide

theorem fromEscapedString_alt {type : ℕ} {ct : ComponentType} (hct : (type, ct) ∈ componentTypes)
    {uriPrefix : String} (halt : ct.getAltUriPrefix = some uriPrefix) (value : Bytes) :
    fromEscapedString (ascii uriPrefix ++ equals :: value) = ct.parseAltUriValue value := by
  obtain ⟨hzero, hfind, hclean⟩ := altUri_spec (type, ct) hct uriPrefix halt
  have hnot : equals ∉ ascii uriPrefix := fun hmem =>
    absurd (hclean equals hmem) (by simp [isUnreserved_equals.1])
  rw [fromEscapedString_typed hnot, fromTypedString, hzero, if_neg (by simp), hfind]

/-- The types whose components are numbers. -/
def numberTypes : List ℕ := [50, 52, 54, 56, 58, 59]

/-- A component of such a type is a number of the least size, or is written in the
canonical form. -/
def ReadsBack (comp : Block) : Prop :=
  comp.type ∈ numberTypes →
    if isNumber comp then comp = makeNonNegativeIntegerBlock comp.type (ofBigEndian comp.value)
    else comp.isZoR = false

/-- The rules of a type. -/
theorem componentType_cases (type : ℕ) :
    (componentType type = .base ∧ type ∉ numberTypes) ∨
    (componentType type = .generic ∧ type = 8) ∨
    (∃ typeName uriPrefix, componentType type = .sha256 type typeName uriPrefix ∧
      (type, ComponentType.sha256 type typeName uriPrefix) ∈ componentTypes ∧
      type ∉ numberTypes) ∨
    ∃ typeName uriPrefix, componentType type = .decimal type typeName uriPrefix ∧
      (type, ComponentType.decimal type typeName uriPrefix) ∈ componentTypes ∧
      type ∈ numberTypes := by
  by_cases hmem : type ∈ componentTypes.map Prod.fst
  · simp only [componentTypes, List.map_cons, List.map_nil, List.mem_cons, List.not_mem_nil,
      or_false] at hmem
    rcases hmem with rfl | rfl | rfl | rfl | rfl | rfl | rfl | rfl | rfl | rfl
    · exact Or.inr (Or.inr (Or.inl ⟨_, _, rfl, by decide, by decide⟩))
    · exact Or.inr (Or.inr (Or.inl ⟨_, _, rfl, by decide, by decide⟩))
    · exact Or.inr (Or.inl ⟨rfl, rfl⟩)
    · exact Or.inl ⟨rfl, by decide⟩
    all_goals exact Or.inr (Or.inr (Or.inr ⟨_, _, rfl, by decide, by decide⟩))
  · have hnone : componentTypes.lookup type = none := by
      rw [List.lookup_eq_none_iff]
      intro e he
      simpa using fun heq : type = e.1 => hmem (heq ▸ List.mem_map_of_mem he)
    refine Or.inl ⟨by rw [componentType, hnone, Option.getD_none], fun hnum => hmem ?_⟩
    have hall : ∀ t ∈ numberTypes, t ∈ componentTypes.map Prod.fst := by decide
    exact hall type hnum

theorem equals_notMem_writeUriEscapedValue (value : Bytes) :
    equals ∉ writeUriEscapedValue value := fun h =>
  (plain_writeUriEscapedValue h).ne isUnreserved_equals rfl

theorem masked_refused : stoull (ascii "[MASKED]") = .error .invalidArgument := by decide

/-- A component is read back from its own form if the form does not hide it. -/
theorem fromEscapedString_writeUri {comp : Block} (h : comp.ensureValid = .ok ()) :
    fromEscapedString ((componentType comp.type).writeUri comp) = .ok comp ↔ ReadsBack comp := by
  have hmake := makeComponent_valid h
  rcases componentType_cases comp.type with ⟨hct, hnum⟩ | ⟨hct, htype⟩ |
    ⟨typeName, uriPrefix, hct, hmem, hnum⟩ | ⟨typeName, uriPrefix, hct, hmem, hnum⟩
  · rw [hct]
    exact iff_of_true (fromEscapedString_writePlainUri h) fun hmem => absurd hmem hnum
  · rw [hct]
    refine iff_of_true ?_ fun hmem => absurd (htype ▸ hmem) (by decide)
    rw [ComponentType.writeUri, fromEscapedString, if_pos (equals_notMem_writeUriEscapedValue _),
      parse_writeUriEscapedValue, ← htype, hmake]
  · rw [hct]
    refine iff_of_true ?_ fun hmem => absurd hmem hnum
    rw [ComponentType.writeUri, fromEscapedString_alt hmem rfl, ComponentType.parseAltUriValue,
      fromHex_printHex]
    exact hmake
  · rw [hct, ComponentType.writeUri]
    by_cases hnumber : isNumber comp
    · rw [if_pos hnumber, fromEscapedString_alt hmem rfl, ComponentType.parseAltUriValue]
      have hlt : ofBigEndian comp.value < 2 ^ 64 := by
        refine (ofBigEndian_lt comp.value).trans_le ?_
        have hlen : comp.value.length ≤ 8 := by
          have hsize := of_decide_eq_true hnumber
          simp only [List.mem_cons, List.not_mem_nil, or_false] at hsize
          omega
        exact (Nat.pow_le_pow_right (by decide) hlen).trans (by decide)
      rw [stoull_decimal hlt]
      simp only [ne_eq, not_true_eq_false, if_false]
      rw [ReadsBack]
      constructor
      · exact fun heq _ => by rw [if_pos hnumber, Except.ok.inj heq]
      · intro hread
        have heq := hread hnum
        rw [if_pos hnumber] at heq
        rw [← heq]
        rfl
    · rw [if_neg hnumber]
      by_cases hzor : comp.isZoR
      · rw [if_pos hzor, fromEscapedString_alt hmem rfl, ComponentType.parseAltUriValue,
          masked_refused]
        refine iff_of_false (by simp) fun hread => ?_
        have hfalse := hread hnum
        rw [if_neg hnumber, hzor] at hfalse
        cases hfalse
      · rw [if_neg hzor]
        refine iff_of_true (fromEscapedString_writePlainUri h) fun _ => ?_
        rw [if_neg hnumber]
        exact Bool.eq_false_iff.mpr hzor

theorem fromEscapedString_componentToUri {comp : Block} (h : comp.ensureValid = .ok ())
    (wantAlt : Bool) : fromEscapedString (componentToUri wantAlt comp) = .ok comp ↔
      (wantAlt = true → ReadsBack comp) := by
  cases wantAlt with
  | true => simpa [componentToUri] using fromEscapedString_writeUri h
  | false => exact iff_of_true (fromEscapedString_writePlainUri h) (by simp)

/-! ## The texts of components -/

/-- The characters of a component. -/
def InText (c : UInt8) : Prop := Plain c ∨ c ∈ [equals, '['.toUInt8, ']'.toUInt8]

theorem InText.ne {c d : UInt8} (h : InText c) (hd : isUnreserved d = false)
    (hnot : d ∉ [percent, equals, '['.toUInt8, ']'.toUInt8]) : c ≠ d := by
  rintro rfl
  rcases h with (h | rfl) | h
  · exact absurd h (by simp [hd])
  · exact hnot List.mem_cons_self
  · exact hnot (List.mem_cons_of_mem _ h)

theorem isUnreserved_of_mem_decimal {n : ℕ} {c : UInt8} (h : c ∈ decimal n) :
    isUnreserved c = true := by
  have hdigit := isDigit_of_mem_decimal h
  unfold isDigit at hdigit
  simp [isUnreserved, hdigit]

theorem isUnreserved_of_mem_printHex {buffer : Bytes} {c : UInt8} (h : c ∈ printHex buffer) :
    isUnreserved c = true := by
  have hhex : ∀ n < 16, isUnreserved (toHexChar n false) = true := by decide
  obtain ⟨b, _, hc⟩ := List.mem_flatMap.mp h
  simp only [List.mem_cons, List.not_mem_nil, or_false] at hc
  rcases hc with rfl | rfl
  · exact hhex _ (halves_lt b).1
  · exact hhex _ (halves_lt b).2

theorem inText_writePlainUri {comp : Block} {c : UInt8}
    (h : c ∈ ComponentType.writePlainUri comp) : InText c := by
  rcases List.mem_append.mp h with h | h
  · exact Or.inl (Or.inl (isUnreserved_of_mem_decimal h))
  · rcases List.mem_cons.mp h with rfl | h
    · exact Or.inr List.mem_cons_self
    · exact Or.inl (plain_writeUriEscapedValue h)

theorem inText_alt {type : ℕ} {ct : ComponentType} (hct : (type, ct) ∈ componentTypes)
    {uriPrefix : String} (halt : ct.getAltUriPrefix = some uriPrefix) {value : Bytes}
    (hvalue : ∀ c ∈ value, InText c) {c : UInt8} (h : c ∈ ascii uriPrefix ++ equals :: value) :
    InText c := by
  rcases List.mem_append.mp h with h | h
  · exact Or.inl (Or.inl ((altUri_spec (type, ct) hct uriPrefix halt).2.2 c h))
  · rcases List.mem_cons.mp h with rfl | h
    · exact Or.inr List.mem_cons_self
    · exact hvalue c h

theorem inText_masked : ∀ c ∈ ascii "[MASKED]", InText c := by
  have hall : (ascii "[MASKED]").all (fun c =>
      isUnreserved c || decide (c ∈ [equals, '['.toUInt8, ']'.toUInt8])) = true := by decide
  intro c hc
  have htext := List.all_eq_true.mp hall c hc
  rw [Bool.or_eq_true, decide_eq_true_eq] at htext
  exact htext.imp_left Or.inl

theorem inText_componentToUri {wantAlt : Bool} {comp : Block} {c : UInt8}
    (h : c ∈ componentToUri wantAlt comp) : InText c := by
  cases wantAlt with
  | false => exact inText_writePlainUri h
  | true =>
      rw [componentToUri, if_pos rfl] at h
      rcases componentType_cases comp.type with ⟨hct, _⟩ | ⟨hct, _⟩ |
        ⟨typeName, uriPrefix, hct, hmem, _⟩ | ⟨typeName, uriPrefix, hct, hmem, _⟩
      · rw [hct] at h
        exact inText_writePlainUri h
      · rw [hct] at h
        exact Or.inl (plain_writeUriEscapedValue h)
      · rw [hct, ComponentType.writeUri] at h
        exact inText_alt hmem rfl (fun d hd => Or.inl (Or.inl (isUnreserved_of_mem_printHex hd))) h
      · rw [hct, ComponentType.writeUri] at h
        split at h
        · exact inText_alt hmem rfl (fun d hd => Or.inl (Or.inl (isUnreserved_of_mem_decimal hd))) h
        · split at h
          · exact inText_alt hmem rfl inText_masked h
          · exact inText_writePlainUri h

theorem writeUriEscapedValue_ne_nil (value : Bytes) : writeUriEscapedValue value ≠ [] := by
  cases value with
  | nil => decide
  | cons c value =>
      intro h
      have hescape := (List.append_eq_nil_iff.mp h).2
      rw [escape, List.flatMap_cons, List.append_eq_nil_iff] at hescape
      have hc := hescape.1
      unfold escapeChar at hc
      split at hc <;> cases hc

theorem componentToUri_ne_nil (wantAlt : Bool) (comp : Block) :
    componentToUri wantAlt comp ≠ [] := by
  have hplain : ComponentType.writePlainUri comp ≠ [] := by simp [ComponentType.writePlainUri]
  cases wantAlt with
  | false => exact hplain
  | true =>
      rw [componentToUri, if_pos rfl]
      cases componentType comp.type with
      | base => exact hplain
      | generic => exact writeUriEscapedValue_ne_nil comp.value
      | sha256 _ _ _ => simp [ComponentType.writeUri]
      | decimal _ _ _ =>
          rw [ComponentType.writeUri]
          split
          · simp
          · split
            · simp
            · exact hplain

theorem slash_notMem_componentToUri (wantAlt : Bool) (comp : Block) :
    slash ∉ componentToUri wantAlt comp := fun h =>
  (inText_componentToUri h).ne (by decide) (by decide) rfl

end Uri

/-! ## The texts of names -/

namespace WireName

open Uri

theorem parseComponents_flatMap (texts : List Bytes) (htexts : ∀ t ∈ texts, t ≠ [] ∧ slash ∉ t)
    {fuel : ℕ} (hfuel : texts.length ≤ fuel) :
    parseComponents fuel ((texts.flatMap fun t => slash :: t).drop 1) =
      texts.mapM fromEscapedString := by
  induction texts generalizing fuel with
  | nil => cases fuel <;> rfl
  | cons t texts ih =>
      obtain ⟨fuel, rfl⟩ := Nat.exists_eq_add_of_le' (Nat.lt_of_lt_of_le (Nat.succ_pos _) hfuel)
      obtain ⟨hne, hslash⟩ := htexts t List.mem_cons_self
      have hsplit : (t ++ texts.flatMap fun t => slash :: t).takeWhile (· ≠ slash) = t ∧
          ((t ++ texts.flatMap fun t => slash :: t).dropWhile (· ≠ slash)).drop 1 =
            (texts.flatMap fun t => slash :: t).drop 1 := by
        cases texts with
        | nil =>
            have hall : ∀ c ∈ t, decide (c ≠ slash) = true :=
              fun c hc => decide_eq_true fun heq => hslash (heq ▸ hc)
            rw [List.flatMap_nil, List.append_nil, List.takeWhile_eq_self_iff.mpr hall,
              List.dropWhile_eq_nil_iff.mpr hall]
            exact ⟨rfl, rfl⟩
        | cons u texts => exact takeWhile_separated hslash _
      have hnext := ih (fun u hu => htexts u (List.mem_cons_of_mem t hu))
        (Nat.le_of_succ_le_succ hfuel)
      rw [List.flatMap_cons, List.cons_append, List.drop_one, List.tail_cons, parseComponents,
        if_neg (by simp [hne]), hsplit.1, hsplit.2, hnext, List.mapM_cons]

theorem mapM_eq_ok_self {write : Block → Bytes}
    {read : Bytes → Except (Decoding.Fault String) Block} (name : List Block) :
    (name.map write).mapM read = .ok name ↔ ∀ comp ∈ name, read (write comp) = .ok comp := by
  induction name with
  | nil => exact iff_of_true rfl (by simp)
  | cons comp name ih =>
      rw [List.map_cons, List.mapM_cons, List.forall_mem_cons, ← ih]
      constructor
      · intro h
        obtain ⟨c, hc, h⟩ := Fallible.bind_eq_ok.mp h
        obtain ⟨rest, hrest, h⟩ := Fallible.bind_eq_ok.mp h
        obtain ⟨rfl, rfl⟩ := List.cons.inj (Fallible.pure_eq_ok.mp h)
        exact ⟨hc, hrest⟩
      · rintro ⟨hc, hrest⟩
        rw [Fallible.bind_ok hc, Fallible.bind_ok hrest]
        rfl

theorem inText_toUri {wantAltEnv : Option Bool} {format : UriFormat} {name : List Block} {c : UInt8}
    (h : c ∈ toUri wantAltEnv format name) : c = slash ∨ InText c := by
  unfold toUri at h
  split at h
  · exact Or.inl (List.mem_singleton.mp h)
  · obtain ⟨comp, _, hc⟩ := List.mem_flatMap.mp h
    rcases List.mem_cons.mp hc with rfl | hc
    · exact Or.inl rfl
    · exact Or.inr (inText_componentToUri hc)

/-- A name is read from its text component by component. -/
theorem ofUri_toUri (wantAltEnv : Option Bool) (format : UriFormat) (name : List Block) :
    ofUri (toUri wantAltEnv format name) =
      (name.map (componentToUri (wantAltUri wantAltEnv format))).mapM fromEscapedString := by
  generalize hwant : wantAltUri wantAltEnv format = wantAlt
  have hcolon : ':'.toUInt8 ∉ toUri wantAltEnv format name := by
    intro h
    rcases inText_toUri h with h | h
    · exact absurd h (by decide)
    · exact h.ne (by decide) (by decide) rfl
  rw [ofUri, withoutProtocol, if_neg fun h => hcolon h.1]
  cases name with
  | nil => rfl
  | cons comp name =>
      have htext : toUri wantAltEnv format (comp :: name) =
          ((comp :: name).map (componentToUri wantAlt)).flatMap fun t => slash :: t := by
        rw [toUri, if_neg (List.cons_ne_nil _ _), List.flatMap_map, hwant]
      rw [htext]
      have hpath :
          path (((comp :: name).map (componentToUri wantAlt)).flatMap fun t => slash :: t) =
            (((comp :: name).map (componentToUri wantAlt)).flatMap fun t => slash :: t).drop 1 := by
        have hslash := slash_notMem_componentToUri wantAlt comp
        cases hcomp : componentToUri wantAlt comp with
        | nil => exact absurd hcomp (componentToUri_ne_nil wantAlt comp)
        | cons c t =>
            have hc : c ≠ slash := fun heq => hslash (by rw [hcomp, heq]; exact List.mem_cons_self)
            rw [List.map_cons, hcomp, List.flatMap_cons, List.cons_append, List.cons_append, path]
            simp [hc]
      rw [hpath]
      refine parseComponents_flatMap _ (fun t ht => ?_) ?_
      · obtain ⟨c, _, rfl⟩ := List.mem_map.mp ht
        exact ⟨componentToUri_ne_nil wantAlt c, slash_notMem_componentToUri wantAlt c⟩
      · rw [List.length_flatMap]
        refine le_trans (le_of_eq ?_) (List.length_le_sum_of_one_le _ ?_)
        · simp only [List.length_map]
        · intro k hk
          obtain ⟨t, _, rfl⟩ := List.mem_map.mp hk
          exact Nat.le_add_left 1 _

end WireName

/-- A name is read back from its canonical text. From the other form it is read back
if each number in it is of the least size and no zone is hidden, and only then. -/
theorem name_reads_back {name : List Block} (hvalid : ∀ comp ∈ name, comp.ensureValid = .ok ())
    (wantAltEnv : Option Bool) (format : Uri.UriFormat) :
    WireName.ofUri (WireName.toUri wantAltEnv format name) = .ok name ↔
      (Uri.wantAltUri wantAltEnv format = true → ∀ comp ∈ name, Uri.ReadsBack comp) := by
  rw [WireName.ofUri_toUri, WireName.mapM_eq_ok_self]
  constructor
  · intro h hwant comp hmem
    exact (Uri.fromEscapedString_componentToUri (hvalid comp hmem) _).mp (h comp hmem) hwant
  · intro h comp hmem
    exact (Uri.fromEscapedString_componentToUri (hvalid comp hmem) _).mpr fun hwant =>
      h hwant comp hmem

namespace WireName

open Uri

/-- The alert number 0 of the vehicle 67, for a circle. -/
def logged : List Block :=
  [⟨8, ascii "alert"⟩, ⟨8, ascii "emergency"⟩, ⟨8, ascii "veh"⟩, ⟨8, ascii "67"⟩, ⟨58, [0]⟩,
    ⟨59, [2, 0, 0, 0, 0, 0, 0, 0, 0, 0, 0, 32, 65]⟩]

example : toUri none .envOrAlternate logged =
    ascii "/alert/emergency/veh/67/seq=0/zor=[MASKED]" := by decide

end WireName

theorem name_reads_back_logged :
    WireName.ofUri (WireName.toUri none .canonical WireName.logged) = .ok WireName.logged ∧
      WireName.ofUri (WireName.toUri none .envOrAlternate WireName.logged) ≠ .ok WireName.logged ∧
      WireName.ofUri (WireName.toUri none .alternate (WireName.logged.take 5)) =
        .ok (WireName.logged.take 5) := by
  have hvalid : ∀ comp ∈ WireName.logged, comp.ensureValid = .ok () := by
    intro comp hmem
    simp only [WireName.logged, List.mem_cons, List.not_mem_nil, or_false] at hmem
    rcases hmem with rfl | rfl | rfl | rfl | rfl | rfl <;> rfl
  refine ⟨(name_reads_back hvalid none .canonical).mpr (by simp [Uri.wantAltUri]), fun h => ?_,
    (name_reads_back (fun comp hmem => hvalid comp (List.mem_of_mem_take hmem)) none
      .alternate).mpr fun _ comp hmem => ?_⟩
  · have hread := (name_reads_back hvalid none .envOrAlternate).mp h rfl _
      (List.getLast_mem (by simp [WireName.logged]))
    exact absurd (hread (by decide)) (by decide)
  · simp only [WireName.logged, List.take_succ_cons, List.take_zero, List.mem_cons,
      List.not_mem_nil, or_false] at hmem
    rcases hmem with rfl | rfl | rfl | rfl | rfl <;> exact fun _ => by decide

end Cafe
