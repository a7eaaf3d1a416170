import Cafe.LinkService

/-!
# Blocks inside blocks

The value of a block is a sequence of blocks again. Those of the numbers are
as short as the number allows.
-/

namespace Cafe

open Decoding

namespace Block

/-- A block whose type and length fit the fields that announce them. -/
structure Fits (block : Block) : Prop where
  type_ne : block.type ≠ 0
  type_le : block.type ≤ 4294967295
  length_lt : block.value.length < 2 ^ 64

/-- The loop of `Block::parse`; each element takes one unit of fuel. -/
def parseElements : ℕ → Bytes → Except (Decoding.Fault String) (List Block)
  | 0, buf => if buf = [] then .ok [] else .error .outOfFuel
  | fuel + 1, buf =>
      if buf = [] then .ok []
      else
        match Block.header buf 0 with
        | .error e => .error e
        | .ok ((type, length), offset) =>
            if length > buf.length - offset then
              .error (.rejected ("TLV-LENGTH of sub-element of type " ++ toString type ++
                " exceeds TLV-VALUE boundary of parent block"))
            else
              (parseElements fuel ((buf.drop offset).drop length)).map fun elements =>
                ⟨type, (buf.drop offset).take length⟩ :: elements

/-- The elements of a block that was not parsed before. -/
def parse (block : Block) : Except (Decoding.Fault String) (List Block) :=
  parseElements block.value.length block.value

end Block

def makeNonNegativeIntegerBlock (type value : ℕ) : Block :=
  ⟨type, bigEndian (sizeOfNonNegativeInteger value) value⟩

def readNonNegativeInteger (block : Block) : Except (Decoding.Fault String) ℕ :=
  if block.value.length ∈ [1, 2, 4, 8] then
    .ok (ofBigEndian block.value)
  else
    .error (.rejected ("Invalid length " ++ toString block.value.length ++
      " for NonNegativeInteger"))

/-- A double is the pattern of its bits. -/
def makeDoubleBlock (type : ℕ) (value : UInt64) : Block := ⟨type, bigEndian 8 value.toNat⟩

def readDouble (block : Block) : Except (Decoding.Fault String) UInt64 :=
  if block.value.length = 8 then
    .ok (UInt64.ofNat (ofBigEndian block.value))
  else
    .error (.rejected "Invalid length for double (must be 8)")

/-! ## Numbers -/

theorem sizeOfNonNegativeInteger_mem (n : ℕ) : sizeOfNonNegativeInteger n ∈ [1, 2, 4, 8] := by
  unfold sizeOfNonNegativeInteger
  split_ifs <;> simp

theorem sizeOfNonNegativeInteger_le (n : ℕ) : sizeOfNonNegativeInteger n ≤ 8 := by
  unfold sizeOfNonNegativeInteger
  split_ifs <;> decide

theorem sizeOfNonNegativeInteger_pos (n : ℕ) : 0 < sizeOfNonNegativeInteger n := by
  unfold sizeOfNonNegativeInteger
  split_ifs <;> decide

theorem lt_pow_sizeOfNonNegativeInteger {n : ℕ} (h : n < 2 ^ 64) :
    n < 256 ^ sizeOfNonNegativeInteger n := by
  unfold sizeOfNonNegativeInteger
  split_ifs with h1 h2 h3
  · exact Nat.lt_succ_of_le h1
  · exact Nat.lt_succ_of_le h2
  · exact Nat.lt_succ_of_le h3
  · exact h

theorem readNonNegativeInteger_make (type : ℕ) {n : ℕ} (h : n < 2 ^ 64) :
    readNonNegativeInteger (makeNonNegativeIntegerBlock type n) = .ok n := by
  unfold readNonNegativeInteger makeNonNegativeIntegerBlock
  rw [length_bigEndian, if_pos (sizeOfNonNegativeInteger_mem n), ofBigEndian_bigEndian,
    Nat.mod_eq_of_lt (lt_pow_sizeOfNonNegativeInteger h)]

theorem readDouble_make (type : ℕ) (x : UInt64) : readDouble (makeDoubleBlock type x) = .ok x := by
  unfold readDouble makeDoubleBlock
  have hlt : x.toNat < 256 ^ 8 := x.toNat_lt
  rw [length_bigEndian, if_pos rfl, ofBigEndian_bigEndian, Nat.mod_eq_of_lt hlt,
    UInt64.ofNat_toNat]

theorem makeNonNegativeIntegerBlock_fits {type : ℕ} (h0 : type ≠ 0) (htype : type ≤ 4294967295)
    (n : ℕ) : (makeNonNegativeIntegerBlock type n).Fits := by
  refine ⟨h0, htype, ?_⟩
  rw [makeNonNegativeIntegerBlock, length_bigEndian]
  have hle := sizeOfNonNegativeInteger_le n
  omega

theorem makeDoubleBlock_fits {type : ℕ} (h0 : type ≠ 0) (htype : type ≤ 4294967295)
    (x : UInt64) : (makeDoubleBlock type x).Fits := by
  refine ⟨h0, htype, ?_⟩
  rw [makeDoubleBlock, length_bigEndian]
  decide

/-! ## Sequences of blocks -/

theorem length_prependVarNumber (n : ℕ) (buf : Bytes) :
    (prependVarNumber n buf).length = sizeOfVarNumber n + buf.length := by
  unfold prependVarNumber sizeOfVarNumber
  split_ifs <;> simp <;> omega

theorem sizeOfVarNumber_le (n : ℕ) : sizeOfVarNumber n ≤ 9 := by
  unfold sizeOfVarNumber
  split_ifs <;> decide

namespace Block

theorem length_wire (block : Block) :
    block.wire.length = sizeOfElement block.type block.value.length := by
  rw [Block.wire, length_prependVarNumber, length_prependVarNumber, sizeOfElement, Nat.add_assoc]

/-- The header of a block that other bytes follow. -/
theorem header_wire {block : Block} (h : block.Fits) (after : Bytes) :
    ∃ offset, Block.header (block.wire ++ after) 0 =
        .ok ((block.type, block.value.length), offset) ∧
      (block.wire ++ after).drop offset = block.value ++ after := by
  have hreads := Block.header_reads h.type_ne h.type_le block.value.length
  rw [Nat.mod_eq_of_lt h.length_lt] at hreads
  have hwire : block.wire ++ after = prependVarNumber block.type [] ++
      prependVarNumber block.value.length [] ++ (block.value ++ after) := by
    rw [Block.wire, prependVarNumber_append block.type, prependVarNumber_append block.value.length]
    simp only [List.append_assoc]
  rw [hwire]
  exact ⟨_, hreads.at_start (List.prefix_append _ _), List.drop_left⟩

theorem parseElements_wires {blocks : List Block} (h : ∀ block ∈ blocks, block.Fits) {fuel : ℕ}
    (hfuel : blocks.length ≤ fuel) :
    parseElements fuel (blocks.flatMap Block.wire) = .ok blocks := by
  induction blocks generalizing fuel with
  | nil => cases fuel <;> rfl
  | cons block blocks ih =>
      rcases fuel with _ | fuel
      · simp at hfuel
      have hne : block.wire ++ blocks.flatMap Block.wire ≠ [] := by
        simp [block.wire_ne_nil]
      have hrest := ih (fun b hb => h b (List.mem_cons_of_mem _ hb)) (Nat.le_of_succ_le_succ hfuel)
      rcases header_wire (h block List.mem_cons_self) (blocks.flatMap Block.wire) with
        ⟨offset, hheader, hdrop⟩
      have hlength : ¬ block.value.length >
          (block.wire ++ blocks.flatMap Block.wire).length - offset := by
        rw [← List.length_drop, hdrop, List.length_append]
        omega
      rw [List.flatMap_cons, parseElements, if_neg hne, hheader]
      simp only
      rw [if_neg hlength, hdrop, List.drop_left, hrest, List.take_left]
      rfl

theorem length_le_flatMap_wire (blocks : List Block) :
    blocks.length ≤ (blocks.flatMap Block.wire).length := by
  induction blocks with
  | nil => exact le_rfl
  | cons block blocks ih =>
      have hpos := List.length_pos_of_ne_nil block.wire_ne_nil
      rw [List.flatMap_cons, List.length_append, List.length_cons]
      omega

theorem length_flatMap_wire (blocks : List Block) : (blocks.flatMap Block.wire).length =
    (blocks.map fun block => sizeOfElement block.type block.value.length).sum := by
  rw [List.length_flatMap]
  simp only [length_wire]

/-- A sequence of blocks is parsed back. -/
theorem parse_wires {blocks : List Block} (h : ∀ block ∈ blocks, block.Fits) (type : ℕ) :
    Block.parse ⟨type, blocks.flatMap Block.wire⟩ = .ok blocks :=
  parseElements_wires h (length_le_flatMap_wire blocks)

/-! ## What the parser accepts -/

end Block

theorem ofBigEndian_lt (bs : Bytes) : ofBigEndian bs < 256 ^ bs.length := by
  induction bs using List.reverseRecOn with
  | nil => exact Nat.one_pos
  | append_singleton bs b ih =>
      have hsplit : ofBigEndian (bs ++ [b]) = ofBigEndian bs * 256 + b.toNat := by
        simp [ofBigEndian, List.foldl_append]
      have hb := b.toNat_lt
      rw [hsplit, List.length_append, List.length_singleton, Nat.pow_succ]
      omega

theorem readNumber_ok {size : ℕ} (hsize : size ≤ 8) {buf : Bytes} {offset offset' n : ℕ}
    (h : readNumber size buf offset = .ok (n, offset')) : offset ≤ offset' ∧ n < 2 ^ 64 := by
  unfold readNumber at h
  split at h
  · obtain ⟨rfl, rfl⟩ := Prod.mk.inj (Except.ok.inj h)
    refine ⟨by omega, (ofBigEndian_lt _).trans_le ?_⟩
    calc 256 ^ ((buf.drop offset).take size).length ≤ 256 ^ 8 :=
          Nat.pow_le_pow_right (by decide) ((List.length_take_le _ _).trans hsize)
      _ = 2 ^ 64 := by decide
  · cases h

/-- A number moves the offset on, and fits the widest field. -/
theorem readVarNumber_ok {buf : Bytes} {offset offset' n : ℕ}
    (h : readVarNumber buf offset = .ok (n, offset')) : offset < offset' ∧ n < 2 ^ 64 := by
  unfold readVarNumber at h
  split at h
  · cases h
  rcases Decoder.bind_eq_ok.mp h with ⟨octet, mid, hread, hrest⟩
  have hmid : mid = offset + 1 := by
    unfold Decoding.read at hread
    split at hread
    · exact (Prod.mk.inj (Except.ok.inj hread)).2.symm
    · cases hread
  split at hrest
  · rename_i hsmall
    obtain ⟨rfl, rfl⟩ := Prod.mk.inj (Except.ok.inj hrest)
    omega
  · have hnumber := readNumber_ok (by split_ifs <;> decide) hrest
    omega

theorem readNumber_ne_outOfFuel (size : ℕ) (buf : Bytes) (offset : ℕ) :
    readNumber size buf offset ≠ .error .outOfFuel := by
  unfold readNumber
  split <;> simp

theorem readVarNumber_ne_outOfFuel (buf : Bytes) (offset : ℕ) :
    readVarNumber buf offset ≠ .error .outOfFuel := by
  unfold readVarNumber
  split
  · simp
  · intro h
    rcases Decoder.bind_eq_error.mp h with hread | ⟨octet, mid, hread, hrest⟩
    · unfold Decoding.read at hread
      split at hread <;> cases hread
    · split at hrest
      · cases hrest
      · exact readNumber_ne_outOfFuel _ _ _ hrest

namespace Block

theorem header_ok {buf : Bytes} {offset type length : ℕ}
    (h : Block.header buf 0 = .ok ((type, length), offset)) :
    0 < offset ∧ type ≠ 0 ∧ type ≤ 4294967295 ∧ length < 2 ^ 64 := by
  rcases Decoder.bind_eq_ok.mp h with ⟨type', mid, htype, hrest⟩
  rcases Decoder.bind_eq_ok.mp hrest with ⟨length', stop, hlength, hpure⟩
  simp only [pure, Except.ok.injEq, Prod.mk.injEq] at hpure
  obtain ⟨⟨rfl, rfl⟩, rfl⟩ := hpure
  rcases Decoder.bind_eq_ok.mp htype with ⟨n, mid', hn, hcheck⟩
  split at hcheck
  · cases hcheck
  · rename_i hlegal
    obtain ⟨rfl, rfl⟩ := Prod.mk.inj (Except.ok.inj hcheck)
    have hstart := readVarNumber_ok hn
    have hstop := readVarNumber_ok hlength
    omega

theorem header_ne_outOfFuel (buf : Bytes) : Block.header buf 0 ≠ .error .outOfFuel := by
  intro h
  rcases Decoder.bind_eq_error.mp h with htype | ⟨type, mid, -, hrest⟩
  · rcases Decoder.bind_eq_error.mp htype with hn | ⟨n, mid, -, hcheck⟩
    · exact readVarNumber_ne_outOfFuel _ _ hn
    · split at hcheck <;> cases hcheck
  · rcases Decoder.bind_eq_error.mp hrest with hn | ⟨n, stop, -, hpure⟩
    · exact readVarNumber_ne_outOfFuel _ _ hn
    · cases hpure

/-- The elements of a block fit. -/
theorem fits_of_parseElements {fuel : ℕ} {buf : Bytes} {elements : List Block}
    (h : parseElements fuel buf = .ok elements) : ∀ element ∈ elements, element.Fits := by
  induction fuel generalizing buf elements with
  | zero =>
      unfold parseElements at h
      split at h
      · rw [← Except.ok.inj h]
        exact nofun
      · cases h
  | succ fuel ih =>
      unfold parseElements at h
      split at h
      · rw [← Except.ok.inj h]
        exact nofun
      split at h
      · cases h
      rename_i type length offset hheader
      split at h
      · cases h
      cases hrest : parseElements fuel ((buf.drop offset).drop length) with
      | error e => rw [hrest] at h; cases h
      | ok rest =>
          rw [hrest] at h
          rw [← Except.ok.inj h]
          rcases header_ok hheader with ⟨-, h0, htype, hlength⟩
          intro element he
          rcases List.mem_cons.mp he with rfl | he
          · exact ⟨h0, htype, (List.length_take_le _ _).trans_lt hlength⟩
          · exact ih hrest element he

/-- The fuel of `parse` is enough. -/
theorem parseElements_ne_outOfFuel {fuel : ℕ} {buf : Bytes} (h : buf.length ≤ fuel) :
    parseElements fuel buf ≠ .error .outOfFuel := by
  induction fuel generalizing buf with
  | zero =>
      rw [List.length_eq_zero_iff.mp (Nat.le_zero.mp h)]
      exact nofun
  | succ fuel ih =>
      unfold parseElements
      split
      · exact nofun
      rename_i hne
      split
      · rename_i e hheader
        rintro ⟨⟩
        exact header_ne_outOfFuel _ hheader
      · rename_i type length offset hheader
        split
        · exact nofun
        · have hpos := List.length_pos_of_ne_nil hne
          have hoffset := (header_ok hheader).1
          have hfuel : ((buf.drop offset).drop length).length ≤ fuel := by
            simp only [List.length_drop]
            omega
          have hrest := ih hfuel
          cases hparse : parseElements fuel ((buf.drop offset).drop length) with
          | error e =>
              rintro ⟨⟩
              exact hrest hparse
          | ok rest => exact nofun

end Block

end Cafe
