import Cafe.ZorRoundTrip

/-!
# Reads inside the buffer

The decoders compare no offset with the length of the buffer, so a run stays
inside exactly when the bytes settle it before they end: they start with a
whole zone, or with components up to a tag that no zone has.
-/

namespace Cafe

open Decoding

/-! ## What the decoders can have read -/

/-- The bytes that a decoder returns as a zone, after a tag that has been
read. -/
def ZoR.Follows (tag : UInt8) (z : ZoR RawFloat) (bs : Bytes) : Prop :=
  z.WithinLimits ∧ tag :: bs = z.serialize

/-- A run of components that ends at an unknown tag, however deep it
stands. -/
inductive Unknown : String → Bytes → Prop
  | tag {tag : UInt8} : ZoRType.ofTag tag = none → Unknown (CompositeZoR.unknownText tag) [tag]
  | component {e : String} {bs : Bytes} {count : UInt8} {zs : List (ZoR RawFloat)} :
      zs.length < count.toNat → (∀ z ∈ zs, z.WithinLimits) → Unknown e bs →
      Unknown e (ZoRType.composite.tag :: count :: (zs.flatMap ZoR.serialize ++ bs))

/-- The bytes that a decoder refuses, after a tag that has been read. -/
def Unknown.Follows (tag : UInt8) (e : String) (bs : Bytes) : Prop := Unknown e (tag :: bs)

section

variable {n : ℕ} {Q : String → Bytes → Prop}

theorem NeighborZoR.explains : Explains n NeighborZoR.deserialize
    (ZoR.Follows ZoRType.neighbor.tag) Q :=
  Explains.pure _ ⟨trivial, rfl⟩

theorem CircleZoR.explains : Explains n CircleZoR.deserialize
    (ZoR.Follows ZoRType.circle.tag) Q := by
  have h := Explains.bind (n := n) (ε := String) (Explains.read (T := RawFloat)) fun x bs _ =>
    Explains.bind (Explains.read (T := RawFloat)) fun y cs _ =>
      Explains.map (g := fun r => ZoR.circle ⟨x, y⟩ r) (Explains.read (T := RawFloat))
  apply h.mono le_rfl
  · rintro z bs ⟨x, _, _, rfl, ⟨y, _, _, rfl, ⟨r, rfl, rfl⟩, rfl⟩, rfl⟩
    exact ⟨trivial, rfl⟩
  · rintro e bs (hf | ⟨_, _, _, _, hf | ⟨_, _, _, _, hf, _⟩, _⟩) <;> exact hf.elim

theorem PolygonZoR.vertex_explains :
    Explains n PolygonZoR.vertex (fun v bs => True ∧ bs = ZoR.vertexBytes v)
      (fun _ _ => False) := by
  have h := Explains.bind (n := n) (ε := String) (Explains.read (T := RawFloat)) fun x bs _ =>
    Explains.map (g := fun y => (⟨x, y⟩ : Point RawFloat)) (Explains.read (T := RawFloat))
  apply h.mono le_rfl
  · rintro v bs ⟨x, _, _, rfl, ⟨y, rfl, rfl⟩, rfl⟩
    exact ⟨trivial, rfl⟩
  · rintro e bs (hf | ⟨_, _, _, _, hf, _⟩) <;> exact hf.elim

theorem PolygonZoR.explains : Explains n PolygonZoR.deserialize
    (ZoR.Follows ZoRType.polygon.tag) Q := by
  have h := Explains.bind (n := n) (ε := String) (Explains.read (T := UInt8)) fun k bs _ =>
    Explains.map (g := ZoR.polygon) (Explains.loop PolygonZoR.vertex_explains k.toNat)
  apply h.mono le_rfl
  · rintro z bs ⟨k, _, _, rfl, ⟨vs, ⟨hlen, _, rfl⟩, rfl⟩, rfl⟩
    have hk : vs.length ≤ 255 := by
      have := k.toNat_lt
      omega
    refine ⟨hk, ?_⟩
    rw [ZoR.serialize_polygon, hlen, UInt8.ofNat_toNat]
    rfl
  · rintro e bs (hf | ⟨_, _, _, _, ⟨_, _, _, _, hf, _⟩, _⟩) <;> exact hf.elim

end

namespace CompositeZoR

/-- A round of the loop, given what the decoder of composites does. -/
theorem componentWith_explains {n : ℕ} {d : Decoder String (ZoR RawFloat)}
    (hd : Explains n d (ZoR.Follows ZoRType.composite.tag)
      (Unknown.Follows ZoRType.composite.tag)) :
    Explains n (componentWith d) (fun z bs => z.WithinLimits ∧ bs = z.serialize) Unknown := by
  unfold componentWith
  apply Explains.mono
    (Explains.bind (R := ZoR.Follows) (S := Unknown.Follows) Explains.read ?_) le_rfl
  · rintro z bs ⟨tag, _, cs, rfl, ⟨hz, hcs⟩, rfl⟩
    exact ⟨hz, hcs⟩
  · rintro e bs (hf | ⟨tag, _, cs, rfl, hcs, rfl⟩)
    · exact hf.elim
    · exact hcs
  · intro tag bs _
    cases hof : ZoRType.ofTag tag with
    | none => exact Explains.reject (Unknown.tag hof)
    | some t =>
        rw [ZoRType.ofTag_eq_some hof]
        cases t with
        | neighbor => exact NeighborZoR.explains
        | circle => exact CircleZoR.explains
        | polygon => exact PolygonZoR.explains
        | composite => exact hd.mono (Nat.sub_le n _) (fun _ _ h => h) (fun _ _ h => h)

theorem deserializeWith_explains (depth : ℕ) :
    Explains depth (deserializeWith depth) (ZoR.Follows ZoRType.composite.tag)
      (Unknown.Follows ZoRType.composite.tag) := by
  induction depth with
  | zero => exact Explains.exhausted
  | succ depth ih =>
      have hloop := fun count : UInt8 => Explains.map (g := ZoR.composite)
        (Explains.loop (componentWith_explains ih) count.toNat)
      have h := Explains.bind (n := depth + 1) (Explains.read (T := UInt8))
        (f := fun count => Decoder.loop (componentWith (deserializeWith depth)) count.toNat >>=
          fun components => pure (ZoR.composite components)) fun count bs hbs => by
        subst hbs
        exact hloop count
      apply h.mono le_rfl
      · rintro z bs ⟨count, _, _, rfl, ⟨zs, ⟨hlen, hzs, rfl⟩, rfl⟩, rfl⟩
        refine ⟨⟨?_, ZoR.allWithinLimits_iff.mpr hzs⟩, ?_⟩
        · have hlt := count.toNat_lt
          omega
        · rw [ZoR.serialize_composite, hlen, UInt8.ofNat_toNat]
          rfl
      · rintro e bs (hf | ⟨count, _, _, rfl, ⟨zs, cs, hlt, hzs, hcs, rfl⟩, rfl⟩)
        · exact hf.elim
        · exact Unknown.component hlt hzs hcs

/-- The decoder of composites has fuel wherever it starts. -/
theorem deserialize_explains {n : ℕ} :
    Explains n deserialize (ZoR.Follows ZoRType.composite.tag)
      (Unknown.Follows ZoRType.composite.tag) where
  ok hle hrun := (deserializeWith_explains _).ok hle hrun
  rejected hle hrun := (deserializeWith_explains _).rejected hle hrun
  fuel hle _ := (deserializeWith_explains _).fuel hle (by omega)

theorem componentWith_extends {buf : Bytes} {d d' : Decoder String (ZoR RawFloat)}
    (h : Extends buf d d') : Extends buf (componentWith d) (componentWith d') := by
  apply Extends.bind (Extends.refl _)
  intro tag
  cases ZoRType.ofTag tag with
  | none => exact Extends.refl _
  | some t =>
      cases t with
      | composite => exact h
      | _ => exact Extends.refl _

theorem deserializeWith_extends (buf : Bytes) (depth : ℕ) :
    Extends buf (deserializeWith depth) (deserializeWith (depth + 1)) := by
  induction depth with
  | zero => exact fun _ h => absurd rfl h
  | succ depth ih =>
      apply Extends.bind (Extends.refl _)
      intro count
      exact Extends.bind (Extends.loop (componentWith_extends ih) _) fun _ => Extends.refl _

/-- The decoder of a composite calls itself for the composites inside. -/
theorem deserialize_eq {buf : Bytes} {offset : ℕ} (hle : offset ≤ buf.length) :
    deserialize buf offset = (do
      let count ← read UInt8
      let components ← Decoder.loop component count.toNat
      pure (.composite components) : Decoder String (ZoR RawFloat)) buf offset := by
  have hfuel := (deserialize_explains (n := buf.length + 1)).fuel hle (by omega)
  have hinner : Extends buf (deserializeWith buf.length) deserialize :=
    deserializeWith_extends buf buf.length
  have hext : Extends buf (deserializeWith (buf.length + 1)) (do
      let count ← read UInt8
      let components ← Decoder.loop component count.toNat
      pure (.composite components)) := by
    apply Extends.bind (Extends.refl _)
    intro count
    exact Extends.bind (Extends.loop (componentWith_extends hinner) _) fun _ => Extends.refl _
  exact (hext offset hfuel).symm

theorem rejects_succ {e : String} {bs : Bytes} {count : UInt8} {zs : List (ZoR RawFloat)}
    {depth : ℕ} (hlt : zs.length < count.toNat) (hzs : ∀ z ∈ zs, z.WithinLimits)
    (hdepth : (zs.flatMap ZoR.serialize).length ≤ depth)
    (h : Rejects (componentWith (deserializeWith depth)) bs e) :
    Rejects (deserializeWith (depth + 1)) (count :: (zs.flatMap ZoR.serialize ++ bs)) e := by
  apply Rejects.octet_bind
  apply Rejects.bind_left
  apply Rejects.loop _ h hlt
  intro z hz
  have hle := ZoR.length_serialize_le_flatMap hz
  exact componentWith_reads_of_depth z (hzs z hz) depth (by omega)

/-- An unknown tag is refused however deep it stands. -/
theorem componentWith_rejects {e : String} {bs : Bytes} (h : Unknown e bs) :
    ∀ depth, bs.length ≤ depth → Rejects (componentWith (deserializeWith depth)) bs e := by
  induction h with
  | @tag tag hof =>
      intro depth _
      apply Rejects.octet_bind
      rw [hof]
      exact Rejects.reject _
  | @component e bs count zs hlt hzs _ ih =>
      intro depth hdepth
      rw [List.length_cons, List.length_cons, List.length_append] at hdepth
      cases depth with
      | zero => omega
      | succ depth =>
          apply Rejects.octet_bind
          exact rejects_succ hlt hzs (by omega) (ih depth (by omega))

theorem rejects {e : String} {bs : Bytes} {count : UInt8} {zs : List (ZoR RawFloat)}
    (hlt : zs.length < count.toNat) (hzs : ∀ z ∈ zs, z.WithinLimits) (h : Unknown e bs) :
    Rejects deserialize (count :: (zs.flatMap ZoR.serialize ++ bs)) e := by
  intro before after
  apply rejects_succ hlt hzs
  · simp only [List.length_append, List.length_cons]
    omega
  · apply componentWith_rejects h
    simp only [List.length_append, List.length_cons]
    omega

end CompositeZoR

namespace ZoR

/-- The bytes found by a run that returns: those of the zone, or a tag that
no zone has. -/
def Returned (o : Option (ZoR RawFloat)) (bs : Bytes) : Prop :=
  match o with
  | some z => z.WithinLimits ∧ bs = z.serialize
  | none => ∃ e, Unknown e bs

theorem deserializeAt_explains {n : ℕ} : Explains n deserializeAt Returned Unknown := by
  have hsome : ∀ {tag : UInt8} {d : Decoder String (ZoR RawFloat)} {m : ℕ},
      Explains m d (ZoR.Follows tag) (Unknown.Follows tag) →
      Explains m (some <$> d) (fun o bs => Returned o (tag :: bs)) (Unknown.Follows tag) := by
    intro tag d m hd
    apply (Explains.map (g := some) hd).mono le_rfl
    · rintro o bs ⟨z, hz, rfl⟩
      exact hz
    · exact fun _ _ h => h
  unfold deserializeAt
  apply Explains.mono (Explains.bind (R := fun tag o bs => Returned o (tag :: bs))
    (S := Unknown.Follows) Explains.read ?_) le_rfl
  · rintro o bs ⟨tag, _, cs, rfl, hcs, rfl⟩
    exact hcs
  · rintro e bs (hf | ⟨tag, _, cs, rfl, hcs, rfl⟩)
    · exact hf.elim
    · exact hcs
  · intro tag bs _
    cases hof : ZoRType.ofTag tag with
    | none => exact Explains.pure none ⟨_, Unknown.tag hof⟩
    | some t =>
        rw [ZoRType.ofTag_eq_some hof]
        cases t with
        | neighbor => exact hsome NeighborZoR.explains
        | circle => exact hsome CircleZoR.explains
        | polygon => exact hsome PolygonZoR.explains
        | composite => exact hsome CompositeZoR.deserialize_explains

/-! ## The exact condition -/

/-- The buffer starts with a whole zone, or with an unknown tag that is
reached before any read leaves it. -/
def Settled (buf : Bytes) : Prop :=
  (∃ z : ZoR RawFloat, z.WithinLimits ∧ z.serialize <+: buf) ∨
    ∃ e bs, Unknown e bs ∧ bs <+: buf

/-- No read leaves the buffer, and bytes that start with no whole zone are
refused. -/
def StaysInside (buf : Bytes) : Prop :=
  (∀ offset width, deserialize buf ≠ .error (.overRead offset width)) ∧
    ((¬∃ z : ZoR RawFloat, z.WithinLimits ∧ z.serialize <+: buf) →
      deserialize buf = .ok none ∨ ∃ e, deserialize buf = .error (.rejected e))

theorem deserialize_of_ok {buf : Bytes} {o : Option (ZoR RawFloat)} {offset : ℕ}
    (h : deserializeAt buf 0 = .ok (o, offset)) : deserialize buf = .ok o := by
  rw [deserialize, h]
  rfl

theorem deserialize_of_error {buf : Bytes} {e : Decoding.Fault String}
    (h : deserializeAt buf 0 = .error e) : deserialize buf = .error e := by
  rw [deserialize, h]
  rfl

theorem deserialize_unknown {e : String} {bs buf : Bytes} (h : Unknown e bs)
    (hpre : bs <+: buf) :
    deserialize buf = .ok none ∨ deserialize buf = .error (.rejected e) := by
  cases h with
  | @tag tag hof =>
      left
      have hreads : Reads deserializeAt [tag] none := by
        apply Reads.octet_bind
        rw [hof]
        exact Reads.pure none
      exact deserialize_of_ok (hreads.at_start hpre)
  | @component _ bs count zs hlt hzs hunknown =>
      right
      have hrejects : Rejects deserializeAt
          (ZoRType.composite.tag :: count :: (zs.flatMap serialize ++ bs)) e := by
        apply Rejects.octet_bind
        exact Rejects.bind_left (CompositeZoR.rejects hlt hzs hunknown)
      exact deserialize_of_error (hrejects.at_start hpre)

theorem deserialize_whole {z : ZoR RawFloat} {buf : Bytes} (hz : z.WithinLimits)
    (hpre : z.serialize <+: buf) : deserialize buf = .ok (some z) := by
  obtain ⟨suffix, rfl⟩ := hpre
  exact deserialize_append hz suffix

/-- The ways in which a run ends, with the bytes it has found. -/
theorem deserialize_cases (buf : Bytes) :
    (∃ offset width, deserialize buf = .error (.overRead offset width)) ∨ Settled buf := by
  have hexplains := deserializeAt_explains (n := buf.length + 1)
  cases hrun : deserializeAt buf 0 with
  | ok r =>
      rcases r with ⟨o, offset⟩
      obtain ⟨bs, hbs, hdrop, -, -⟩ := hexplains.ok (Nat.zero_le _) hrun
      have hpre : bs <+: buf := ⟨_, hdrop.symm⟩
      cases o with
      | some z => exact Or.inr (Or.inl ⟨z, hbs.1, hbs.2 ▸ hpre⟩)
      | none =>
          obtain ⟨e, hunknown⟩ := hbs
          exact Or.inr (Or.inr ⟨e, bs, hunknown, hpre⟩)
  | error f =>
      cases f with
      | overRead offset width => exact Or.inl ⟨offset, width, deserialize_of_error hrun⟩
      | rejected e =>
          obtain ⟨bs, hbs, hpre⟩ := hexplains.rejected (Nat.zero_le _) hrun
          exact Or.inr (Or.inr ⟨e, bs, hbs, hpre⟩)
      | outOfFuel => exact absurd hrun (hexplains.fuel (Nat.zero_le _) (by omega))

/-- The decoder stays inside its buffer exactly on the bytes that settle the
run before they end. -/
theorem stays_inside_iff (buf : Bytes) : StaysInside buf ↔ Settled buf := by
  constructor
  · intro h
    rcases deserialize_cases buf with ⟨offset, width, hover⟩ | hsettled
    · exact absurd hover (h.1 offset width)
    · exact hsettled
  · rintro (⟨z, hz, hpre⟩ | ⟨e, bs, hunknown, hpre⟩)
    · have hrun := deserialize_whole hz hpre
      constructor
      · simp [hrun]
      · exact fun hno => absurd ⟨z, hz, hpre⟩ hno
    · rcases deserialize_unknown hunknown hpre with hrun | hrun
      · exact ⟨by simp [hrun], fun _ => Or.inl hrun⟩
      · exact ⟨by simp [hrun], fun _ => Or.inr ⟨e, hrun⟩⟩

/-- A disc whose center is cut off after two bytes is read past its end. -/
theorem not_stays_inside : ¬∀ buf : Bytes, StaysInside buf := by
  intro h
  apply (h [ZoRType.circle.tag, 0x00, 0x00]).1 1 4
  rfl

end ZoR

end Cafe
