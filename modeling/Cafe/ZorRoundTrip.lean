import Cafe.ZorCodec

/-!
# What is written is read back

The bytes of a zone are a function of the zone alone, and every decoder
turns them back wherever they stand in a buffer. The bytes also bound the
depth of nesting, so the decoder of composites never runs out of it.
-/

namespace Cafe

open Decoding

namespace ZoR

mutual

/-- No polygon and no composite has more elements than a byte can count. -/
def WithinLimits {F : Type} : ZoR F → Prop
  | polygon vertices => vertices.length ≤ 255
  | composite components => components.length ≤ 255 ∧ AllWithinLimits components
  | _ => True

def AllWithinLimits {F : Type} : List (ZoR F) → Prop
  | [] => True
  | z :: zs => z.WithinLimits ∧ AllWithinLimits zs

end

theorem allWithinLimits_iff {F : Type} {zs : List (ZoR F)} :
    AllWithinLimits zs ↔ ∀ z ∈ zs, z.WithinLimits := by
  induction zs with
  | nil => simp [AllWithinLimits]
  | cons z zs ih => simp [AllWithinLimits, ih]

mutual

/-- Induction over a zone, with the hypothesis for each component. -/
theorem nested_induction {F : Type} {P : ZoR F → Prop} (hneighbor : P neighbor)
    (hcircle : ∀ center radius, P (circle center radius))
    (hpolygon : ∀ vertices, P (polygon vertices))
    (hcomposite : ∀ components, (∀ z ∈ components, P z) → P (composite components)) :
    ∀ z, P z
  | neighbor => hneighbor
  | circle center radius => hcircle center radius
  | polygon vertices => hpolygon vertices
  | composite components => hcomposite components
      (nested_induction_list hneighbor hcircle hpolygon hcomposite components)

theorem nested_induction_list {F : Type} {P : ZoR F → Prop} (hneighbor : P neighbor)
    (hcircle : ∀ center radius, P (circle center radius))
    (hpolygon : ∀ vertices, P (polygon vertices))
    (hcomposite : ∀ components, (∀ z ∈ components, P z) → P (composite components)) :
    ∀ (zs : List (ZoR F)), ∀ z ∈ zs, P z
  | [], _, hz => nomatch hz
  | z :: zs, w, hw => by
      rcases List.mem_cons.mp hw with h | h
      · rw [h]
        exact nested_induction hneighbor hcircle hpolygon hcomposite z
      · exact nested_induction_list hneighbor hcircle hpolygon hcomposite zs w h

end

/-! ## The bytes -/

def vertexBytes (v : Point RawFloat) : Bytes := Plain.bytes v.x ++ Plain.bytes v.y

theorem foldl_write_vertices (vertices : List (Point RawFloat)) (buf : Bytes) :
    vertices.foldl (fun buf v => write (write buf v.x) v.y) buf =
      buf ++ vertices.flatMap vertexBytes := by
  induction vertices generalizing buf with
  | nil => simp
  | cons v vs ih =>
      rw [List.foldl_cons, ih, List.flatMap_cons, vertexBytes]
      simp only [write, List.append_assoc]

theorem serializeAllTo_of_forall {zs : List (ZoR RawFloat)}
    (h : ∀ z ∈ zs, ∀ buf, z.serializeTo buf = buf ++ z.serialize) (buf : Bytes) :
    serializeAllTo zs buf = buf ++ zs.flatMap serialize := by
  induction zs generalizing buf with
  | nil => simp [serializeAllTo]
  | cons z zs ih =>
      rw [serializeAllTo, h z List.mem_cons_self, ih fun w hw => h w (List.mem_cons_of_mem _ hw),
        List.flatMap_cons, List.append_assoc]

/-- A zone is appended to what the buffer holds. -/
theorem serializeTo_eq (z : ZoR RawFloat) : ∀ buf, z.serializeTo buf = buf ++ z.serialize := by
  induction z using nested_induction with
  | hneighbor => simp [serialize, serializeTo, write]
  | hcircle center radius => simp [serialize, serializeTo, write]
  | hpolygon vertices =>
      intro buf
      simp only [serialize, serializeTo, foldl_write_vertices]
      simp [write]
  | hcomposite components ih =>
      intro buf
      simp only [serialize, serializeTo, serializeAllTo_of_forall ih]
      simp [write]

theorem serialize_neighbor : (neighbor : ZoR RawFloat).serialize = [ZoRType.neighbor.tag] := rfl

theorem serialize_circle (center : Point RawFloat) (radius : RawFloat) :
    (circle center radius).serialize = ZoRType.circle.tag ::
      (Plain.bytes center.x ++ (Plain.bytes center.y ++ Plain.bytes radius)) := rfl

theorem serialize_polygon (vertices : List (Point RawFloat)) :
    (polygon vertices).serialize = ZoRType.polygon.tag ::
      UInt8.ofNat vertices.length :: vertices.flatMap vertexBytes := by
  simp only [serialize, serializeTo, foldl_write_vertices]
  rfl

theorem serialize_composite (components : List (ZoR RawFloat)) :
    (composite components).serialize = ZoRType.composite.tag ::
      UInt8.ofNat components.length :: components.flatMap serialize := by
  simp only [serialize, serializeTo, serializeAllTo_of_forall fun z _ => serializeTo_eq z]
  rfl

theorem length_flatMap_vertexBytes (vertices : List (Point RawFloat)) :
    (vertices.flatMap vertexBytes).length = vertices.length * Point.size := by
  induction vertices with
  | nil => simp
  | cons v vs ih =>
      rw [List.flatMap_cons, List.length_append, ih, List.length_cons, Nat.succ_mul, Nat.add_comm]
      rfl

theorem sizeAll_eq {zs : List (ZoR RawFloat)} (h : ∀ z ∈ zs, z.serialize.length = z.size) :
    (zs.flatMap serialize).length = sizeAll zs := by
  induction zs with
  | nil => rfl
  | cons z zs ih =>
      rw [List.flatMap_cons, List.length_append, h z List.mem_cons_self,
        ih fun w hw => h w (List.mem_cons_of_mem _ hw), sizeAll]

theorem length_serialize (z : ZoR RawFloat) : z.serialize.length = z.size := by
  induction z using nested_induction with
  | hneighbor => rfl
  | hcircle center radius => rfl
  | hpolygon vertices =>
      rw [serialize_polygon, List.length_cons, List.length_cons, length_flatMap_vertexBytes, size]
      rfl
  | hcomposite components ih =>
      rw [serialize_composite, List.length_cons, List.length_cons, sizeAll_eq ih, size]
      rfl

theorem length_serialize_le_flatMap {z : ZoR RawFloat} {zs : List (ZoR RawFloat)} (h : z ∈ zs) :
    z.serialize.length ≤ (zs.flatMap serialize).length := by
  obtain ⟨l, r, rfl⟩ := List.append_of_mem h
  simp only [List.flatMap_append, List.flatMap_cons, List.length_append]
  omega

/-- What follows the tag of a zone. -/
def body (z : ZoR RawFloat) : Bytes := z.serialize.tail

theorem serialize_eq_cons (z : ZoR RawFloat) : z.serialize = z.getType.tag :: z.body := by
  cases z with
  | neighbor => rfl
  | circle center radius => rfl
  | polygon vertices => rw [body, serialize_polygon]; rfl
  | composite components => rw [body, serialize_composite]; rfl

end ZoR

/-! ## Reading a body back -/

theorem count_toNat {n : ℕ} (h : n ≤ 255) : (UInt8.ofNat n).toNat = n := by
  rw [UInt8.toNat_ofNat', Nat.mod_eq_of_lt]
  omega

theorem NeighborZoR.reads : Reads NeighborZoR.deserialize (ZoR.body .neighbor) .neighbor :=
  Reads.pure _

theorem CircleZoR.reads (center : Point RawFloat) (radius : RawFloat) :
    Reads CircleZoR.deserialize (ZoR.body (.circle center radius)) (.circle center radius) := by
  rw [ZoR.body, ZoR.serialize_circle, List.tail_cons]
  apply Reads.bind (Reads.read center.x)
  apply Reads.bind (Reads.read center.y)
  exact Reads.map (Reads.read radius)

theorem PolygonZoR.vertex_reads (v : Point RawFloat) :
    Reads PolygonZoR.vertex (ZoR.vertexBytes v) v :=
  Reads.bind (Reads.read v.x) (Reads.map (Reads.read v.y))

theorem PolygonZoR.reads {vertices : List (Point RawFloat)} (h : vertices.length ≤ 255) :
    Reads PolygonZoR.deserialize (ZoR.body (.polygon vertices)) (.polygon vertices) := by
  have hloop := Reads.loop fun v (_ : v ∈ vertices) => PolygonZoR.vertex_reads v
  rw [← count_toNat h] at hloop
  rw [ZoR.body, ZoR.serialize_polygon]
  exact Reads.bind (Reads.read _) (Reads.map hloop)

namespace CompositeZoR

theorem reads_succ {components : List (ZoR RawFloat)} {depth : ℕ}
    (hlen : components.length ≤ 255)
    (h : ∀ z ∈ components, Reads (componentWith (deserializeWith depth)) z.serialize z) :
    Reads (deserializeWith (depth + 1)) (ZoR.body (.composite components))
      (.composite components) := by
  have hloop := Reads.loop h
  rw [← count_toNat hlen] at hloop
  rw [ZoR.body, ZoR.serialize_composite]
  exact Reads.bind (Reads.read _) (Reads.map hloop)

/-- A round of the loop reads the bytes of any zone whose composites the
given decoder reads. -/
theorem componentWith_reads {d : Decoder String (ZoR RawFloat)} {z : ZoR RawFloat}
    (hz : z.WithinLimits)
    (hd : ∀ components, z = .composite components → Reads d z.body z) :
    Reads (componentWith d) z.serialize z := by
  rw [ZoR.serialize_eq_cons]
  apply Reads.octet_bind
  rw [ZoRType.ofTag_tag]
  cases z with
  | neighbor => exact NeighborZoR.reads
  | circle center radius => exact CircleZoR.reads center radius
  | polygon vertices => exact PolygonZoR.reads hz
  | composite components => exact hd components rfl

theorem componentWith_reads_of_depth (z : ZoR RawFloat) (hz : z.WithinLimits) :
    ∀ depth, z.serialize.length ≤ depth →
      Reads (componentWith (deserializeWith depth)) z.serialize z := by
  induction z using ZoR.nested_induction with
  | hneighbor => exact fun _ _ => componentWith_reads hz nofun
  | hcircle center radius => exact fun _ _ => componentWith_reads hz nofun
  | hpolygon vertices => exact fun _ _ => componentWith_reads hz nofun
  | hcomposite components ih =>
      intro depth hdepth
      rw [ZoR.serialize_composite, List.length_cons, List.length_cons] at hdepth
      have hlimits := ZoR.allWithinLimits_iff.mp hz.2
      cases depth with
      | zero => omega
      | succ depth =>
          apply componentWith_reads hz
          intro _ _
          apply reads_succ hz.1
          intro w hw
          have hle := ZoR.length_serialize_le_flatMap hw
          exact ih w hw (hlimits w hw) depth (by omega)

/-- The body of a composite is read wherever it stands. -/
theorem reads {components : List (ZoR RawFloat)}
    (hz : (ZoR.composite components).WithinLimits) :
    Reads deserialize (ZoR.body (.composite components)) (.composite components) := by
  intro before after
  have hlimits := ZoR.allWithinLimits_iff.mp hz.2
  apply reads_succ hz.1
  intro w hw
  apply componentWith_reads_of_depth w (hlimits w hw)
  have hle := ZoR.length_serialize_le_flatMap hw
  rw [ZoR.body, ZoR.serialize_composite]
  simp only [List.tail_cons, List.length_append, List.length_cons]
  omega

theorem component_reads {z : ZoR RawFloat} (hz : z.WithinLimits) :
    Reads component z.serialize z := by
  apply componentWith_reads hz
  rintro components rfl
  exact reads hz

end CompositeZoR

namespace ZoR

theorem deserializeAt_reads {z : ZoR RawFloat} (hz : z.WithinLimits) :
    Reads deserializeAt z.serialize (some z) := by
  rw [serialize_eq_cons]
  apply Reads.octet_bind
  rw [ZoRType.ofTag_tag]
  cases z with
  | neighbor => exact Reads.map NeighborZoR.reads
  | circle center radius => exact Reads.map (CircleZoR.reads center radius)
  | polygon vertices => exact Reads.map (PolygonZoR.reads hz)
  | composite components => exact Reads.map (CompositeZoR.reads hz)

end ZoR

/-! ## Components of a name -/

theorem Block.ofBuffer_zor (z : ZoR RawFloat) :
    Block.ofBuffer (prependVarNumber Block.zorNameComponent
      (prependVarNumber z.serialize.length z.serialize)) =
      if z.serialize.length < 2 ^ 64 then .ok ⟨Block.zorNameComponent, z.serialize⟩
      else .error (.rejected "TLV-LENGTH does not match buffer size") :=
  Block.ofBuffer_encode (by decide) (by decide) z.serialize

theorem Block.fromZoR_eq (z : ZoR RawFloat) :
    Block.fromZoR z = if z.serialize.length < 2 ^ 64 then
      .ok ⟨Block.zorNameComponent, z.serialize⟩
      else .error (.rejected "TLV-LENGTH does not match buffer size") := by
  unfold Block.fromZoR
  dsimp only
  rw [Block.ofBuffer_zor]
  split <;> rfl

/-- A node sees of a component what the codec makes of its bytes. -/
theorem Component.ofBlock_eq_ok {F : Type} {value : RawFloat → F} {c : Block} {comp : Component F}
    (h : Component.ofBlock value c = .ok comp) :
    comp.isZoR = c.isZoR ∧
      ∀ o, c.toZoR = .ok o → comp.toZoR = o.map (ZoR.map value) := by
  unfold Component.ofBlock at h
  split at h
  · rename_i hzor
    cases hrun : c.toZoR with
    | error e => simp [hrun, bind, Except.bind] at h
    | ok o =>
        cases o with
        | none =>
            simp only [hrun, bind, Except.bind, pure, Except.pure, Except.ok.injEq] at h
            subst h
            simp [Component.isZoR, Component.toZoR, hzor]
        | some z =>
            simp only [hrun, bind, Except.bind, pure, Except.pure, Except.ok.injEq] at h
            subst h
            simp [Component.isZoR, Component.toZoR, hzor]
  · rename_i hzor
    simp only [pure, Except.pure, Except.ok.injEq] at h
    subst h
    simp [Component.isZoR, Block.toZoR, hzor]

namespace ZoR

theorem deserialize_append {z : ZoR RawFloat} (hz : z.WithinLimits) (suffix : Bytes) :
    deserialize (z.serialize ++ suffix) = .ok (some z) := by
  have hrun := (deserializeAt_reads hz).at_start (List.prefix_append _ suffix)
  rw [deserialize, hrun]
  rfl

/-- Decoding undoes encoding and stops where the encoding ends, whether the
bytes are a buffer's first ones, those of a component further inside or the
value of a name component. No encoding continues another one. -/
theorem round_trip (z : ZoR RawFloat) (hz : z.WithinLimits) :
    (∀ suffix, deserialize (z.serialize ++ suffix) = .ok (some z) ∧
      deserializeAt (z.serialize ++ suffix) 0 = .ok (some z, z.size)) ∧
    z.serialize.length = z.size ∧
    (∀ before suffix, CompositeZoR.component (before ++ z.serialize ++ suffix) before.length =
      .ok (z, before.length + z.size)) ∧
    (z.size < 2 ^ 64 → ∃ c, Block.fromZoR z = .ok c) ∧
    (∀ c, Block.fromZoR z = .ok c → c.toZoR = .ok (some z)) ∧
    ∀ w : ZoR RawFloat, w.WithinLimits → z.serialize <+: w.serialize → z = w := by
  have hsize := length_serialize z
  refine ⟨fun suffix => ⟨deserialize_append hz suffix, ?_⟩, hsize, ?_, ?_, ?_, ?_⟩
  · rw [(deserializeAt_reads hz).at_start (List.prefix_append _ suffix), hsize]
  · intro before suffix
    rw [CompositeZoR.component_reads hz before suffix, hsize]
  · intro hfit
    rw [Block.fromZoR_eq, if_pos (by rwa [hsize])]
    exact ⟨_, rfl⟩
  · intro c hc
    rw [Block.fromZoR_eq] at hc
    split at hc
    · rcases hc with ⟨⟩
      have hrun := deserialize_append hz []
      rwa [List.append_nil] at hrun
    · exact nomatch hc
  · intro w hw hprefix
    have hfree := (deserializeAt_reads hz).prefix_free (deserializeAt_reads hw) hprefix
    exact Option.some.inj hfree.1

/-- A disc of radius 50 about the origin and the two arms of a crossing, with
the bytes of its floats. -/
def crossing : ZoR RawFloat :=
  let zero : RawFloat := ⟨0x00, 0x00, 0x00, 0x00⟩
  let near : RawFloat := ⟨0x00, 0x00, 0xA0, 0x40⟩
  let near' : RawFloat := ⟨0x00, 0x00, 0xA0, 0xC0⟩
  let far : RawFloat := ⟨0x00, 0x00, 0x48, 0x43⟩
  let far' : RawFloat := ⟨0x00, 0x00, 0x48, 0xC3⟩
  composite [
    circle ⟨zero, zero⟩ ⟨0x00, 0x00, 0x48, 0x42⟩,
    composite [
      polygon [⟨far, near⟩, ⟨far, near'⟩, ⟨far', near'⟩, ⟨far', near⟩],
      polygon [⟨near, far⟩, ⟨near, far'⟩, ⟨near', far'⟩, ⟨near', far⟩]]]

theorem crossing_round_trip :
    crossing.size = 85 ∧ deserialize (crossing.serialize ++ [8]) = .ok (some crossing) ∧
      ∃ c, Block.fromZoR crossing = .ok c ∧ c.toZoR = .ok (some crossing) := by
  have hlimits : crossing.WithinLimits := by
    simp [crossing, WithinLimits, AllWithinLimits]
  have hsize : crossing.size = 85 := by decide
  have h := round_trip crossing hlimits
  obtain ⟨c, hc⟩ := h.2.2.2.1 (by rw [hsize]; decide)
  exact ⟨hsize, (h.1 [8]).1, c, hc, h.2.2.2.2.1 c hc⟩

end ZoR

end Cafe
