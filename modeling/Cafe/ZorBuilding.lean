import Cafe.Runs
import Cafe.ZorBounds

/-!
# Zones that are decoded and zones that are built

The bytes behind a decoded zone are those that it is written as. A zone that
a program builds call by call is read back as it was built as long as its
counts fit a byte. The constructor of composites that takes a vector tests the
vector that it has emptied, and drops the error that it would make.
-/

open Labelled

namespace Cafe

open Decoding

namespace ZoR

/-! ## Decoded zones -/

/-- A run that returns a zone has consumed the bytes of the zone. -/
theorem consumed_eq {buf : Bytes} {z : ZoR RawFloat} {k : ℕ}
    (h : deserializeAt buf 0 = .ok (some z, k)) :
    z.WithinLimits ∧ z.serialize = buf.take k ∧ k ≤ buf.length := by
  obtain ⟨bs, ⟨hz, rfl⟩, hdrop, hk, hle⟩ :=
    (deserializeAt_explains (n := buf.length + 1)).ok (Nat.zero_le _) h
  rw [List.drop_zero] at hdrop
  rw [Nat.zero_add] at hk
  refine ⟨hz, ?_, hle⟩
  rw [hdrop, hk, List.take_left]

/-- Writing a decoded zone gives back the bytes that it was read from. So no two
buffers that are read to their ends give the same zone, and a name component
that is read to its end is made again from its zone. -/
theorem reencodes (buf : Bytes) (z : ZoR RawFloat) (k : ℕ)
    (h : deserializeAt buf 0 = .ok (some z, k)) :
    z.serialize = buf.take k ∧ k = z.size ∧ deserialize z.serialize = .ok (some z) ∧
      (∀ buf', k = buf.length → deserializeAt buf' 0 = .ok (some z, buf'.length) → buf' = buf) ∧
      ∀ c : Block, c.isZoR → c.value = buf → k = buf.length → buf.length < 2 ^ 64 →
        Block.fromZoR z = .ok c := by
  obtain ⟨hz, hbytes, hle⟩ := consumed_eq h
  have hlen : k = z.size := by
    rw [← length_serialize, hbytes, List.length_take, Nat.min_eq_left hle]
  refine ⟨hbytes, hlen, ?_, ?_, ?_⟩
  · have hread := deserialize_append hz []
    rwa [List.append_nil] at hread
  · intro buf' hall h'
    obtain ⟨_, hbytes', _⟩ := consumed_eq h'
    rw [List.take_length] at hbytes'
    rw [← hbytes', hbytes, hall, List.take_length]
  · intro c hc hvalue hall hfit
    have hwhole : z.serialize = buf := by rw [hbytes, hall, List.take_length]
    rcases c with ⟨type, value⟩
    obtain rfl : type = Block.zorNameComponent := by simpa [Block.isZoR] using hc
    rw [Block.fromZoR_eq, hwhole, if_pos hfit, ← hvalue]

theorem reencodes_crossing : crossing.serialize = (crossing.serialize ++ [8]).take 85 ∧
    ∃ c : Block, c.isZoR ∧ c.value = crossing.serialize ∧ Block.fromZoR crossing = .ok c := by
  have hlimits : crossing.WithinLimits := by
    simp [crossing, WithinLimits, AllWithinLimits]
  have hread := (deserializeAt_reads hlimits).at_start (List.prefix_append _ [8])
  have hwhole := (deserializeAt_reads hlimits).at_start (List.prefix_refl _)
  have hlen : crossing.serialize.length = 85 := rfl
  constructor
  · have h := (reencodes _ crossing _ hread).1
    rwa [hlen] at h
  · refine ⟨⟨59, crossing.serialize⟩, rfl, rfl, ?_⟩
    exact (reencodes _ crossing _ hwhole).2.2.2.2 _ rfl rfl rfl (by rw [hlen]; norm_num)

/-- A zone is read back as it was written iff its counts fit a byte. -/
theorem reads_back_iff (z : ZoR RawFloat) :
    deserialize z.serialize = .ok (some z) ↔ z.WithinLimits := by
  constructor
  · intro h
    cases hrun : deserializeAt z.serialize 0 with
    | error e =>
        rw [deserialize_of_error hrun] at h
        cases h
    | ok r =>
        rcases r with ⟨o, k⟩
        rw [deserialize_of_ok hrun] at h
        obtain rfl := Except.ok.inj h
        exact (consumed_eq hrun).1
  · intro h
    have hread := deserialize_append h []
    rwa [List.append_nil] at hread

end ZoR

/-! ## The calls that build zones -/

/-- `PolygonZoR::PolygonZoR`. Both constructors have this body, as the rvalue
reference is copied too. -/
def PolygonZoR.construct {F : Type} (v : List (Point F)) : Except String (ZoR F) :=
  let vertices := v
  if 255 < vertices.length then
    .error "PolygonZoR: vertices.size() exceeds size limit."
  else
    .ok (.polygon vertices)

namespace CompositeZoR

/-- `CompositeZoR::CompositeZoR` of a vector. The member takes the elements of
the parameter, whose name the test uses, and the error is made but not thrown. -/
def construct {F : Type} (components : List (ZoR F)) : ZoR F :=
  let (member, components) := (components, ([] : List (ZoR F)))
  let _error : Option String :=
    if 255 < components.length then
      some "CompositeZoR: components.size() exceeds size limit."
    else
      none
  .composite member

def append {F : Type} (components : List (ZoR F)) (zor : ZoR F) : Bool × List (ZoR F) :=
  if 255 < components.length + 1 then (false, components) else (true, components ++ [zor])

/-- `append` on the composite at the end of a path of components. -/
def appendAt {F : Type} : List ℕ → ZoR F → ZoR F → Option (Bool × ZoR F)
  | [], .composite components, zor =>
      let (done, components) := append components zor
      some (done, .composite components)
  | i :: path, .composite components, zor =>
      match components[i]? with
      | some z => (appendAt path z zor).map fun r => (r.1, .composite (components.set i r.2))
      | none => none
  | _, _, _ => none

/-- The composite at the end of a path. -/
def componentsAt {F : Type} : List ℕ → ZoR F → Option (List (ZoR F))
  | [], .composite components => some components
  | i :: path, .composite components => (components[i]?).bind (componentsAt path)
  | _, _ => none

end CompositeZoR

/-- The variables of a program that hold a unique pointer to a zone, and the
zones; a null pointer has none. -/
abbrev Pointers (F : Type) := ℕ → Option (ZoR F)

namespace Pointers

variable {F : Type}

/-- Move the zones of some variables into a vector. -/
def takeAll : List ℕ → Pointers F → Option (List (ZoR F) × Pointers F)
  | [], s => some ([], s)
  | v :: vs, s => do
      let z ← s v
      let (zs, s') ← takeAll vs (Function.update s v none)
      return (z :: zs, s')

end Pointers

/-- What is left behind by the implicit move constructors. -/
def ZoR.movedFrom {F : Type} : ZoR F → ZoR F
  | polygon _ => polygon []
  | composite _ => composite []
  | z => z

/-- The calls that make zones or change them. The first argument is the
variable that gets the new zone. -/
inductive Building (F : Type)
  | neighbor (out : ℕ)
  | circle (out : ℕ) (center : Point F) (radius : F)
  | polygonCopy (out : ℕ) (vertices : List (Point F))
  | polygonMove (out : ℕ) (vertices : List (Point F))
  | composite (out : ℕ)
  | compositeOf (out : ℕ) (components : List ℕ)
  | copy (out source : ℕ)
  | move (out source : ℕ)
  | append (target : ℕ) (path : List ℕ) (zor : ℕ)

namespace Building

inductive Fault
  /-- A variable holds no zone of the kind that the call needs. -/
  | misuse
  | fatal (text : String)

variable {F : Type}

def polygon (s : Pointers F) (out : ℕ) (vertices : List (Point F)) :
    Except Fault (Bool × Pointers F) :=
  match PolygonZoR.construct vertices with
  | .error text => .error (.fatal text)
  | .ok z => .ok (true, Function.update s out (some z))

/-- A call with its result, which is `true` for a constructor. The appended zone
is lost also when it is refused. The constructor for copies of composites is
deleted. -/
def run (s : Pointers F) : Building F → Except Fault (Bool × Pointers F)
  | neighbor out => .ok (true, Function.update s out (some .neighbor))
  | circle out center radius => .ok (true, Function.update s out (some (.circle center radius)))
  | polygonCopy out vertices => polygon s out vertices
  | polygonMove out vertices => polygon s out vertices
  | composite out => .ok (true, Function.update s out (some (.composite [])))
  | compositeOf out components =>
      match s.takeAll components with
      | some (zs, s') => .ok (true, Function.update s' out (some (CompositeZoR.construct zs)))
      | none => .error .misuse
  | copy out source =>
      match s source with
      | some (.composite _) => .error .misuse
      | some z => .ok (true, Function.update s out (some z))
      | none => .error .misuse
  | move out source =>
      match s source with
      | some z =>
          .ok (true, Function.update (Function.update s source (some z.movedFrom)) out (some z))
      | none => .error .misuse
  | append target path zor =>
      match s zor with
      | some z =>
          let s' := Function.update s zor none
          match (s' target).bind fun t => CompositeZoR.appendAt path t z with
          | some (done, t) => .ok (done, Function.update s' target (some t))
          | none => .error .misuse
      | none => .error .misuse

/-- The call returns. -/
def Step (s : Pointers F) (c : Building F) (s' : Pointers F) : Prop :=
  ∃ done, c.run s = .ok (done, s')

/-- The vector constructor gets more components than a byte counts. -/
def Oversized : Building F → Prop
  | compositeOf _ components => 255 < components.length
  | _ => False

/-- The call would make a polygon or a composite with too many elements. -/
def Exceeds (s : Pointers F) : Building F → Prop
  | polygonCopy _ vertices => 255 < vertices.length
  | polygonMove _ vertices => 255 < vertices.length
  | compositeOf _ components => 255 < components.length ∧ (s.takeAll components).isSome
  | append target path zor => (s zor).isSome ∧ ∃ t components,
      Function.update s zor none target = some t ∧
        CompositeZoR.componentsAt path t = some components ∧ 255 < components.length + 1
  | _ => False

/-- An error ends the program, or `append` is `false` and changes no zone. -/
def Refused (s : Pointers F) (c : Building F) : Prop :=
  (∃ text, c.run s = .error (.fatal text)) ∨
    ∃ target path zor, c = append target path zor ∧
      c.run s = .ok (false, Function.update s zor none)

end Building

/-- Every zone has counts that fit a byte, and is read back as it is. -/
def Pointers.Fit (s : Pointers RawFloat) : Prop :=
  ∀ v z, s v = some z → z.WithinLimits ∧ ZoR.deserialize z.serialize = .ok (some z)

theorem Pointers.fit_iff {s : Pointers RawFloat} :
    s.Fit ↔ ∀ v z, s v = some z → z.WithinLimits := by
  constructor
  · intro h v z hv
    exact (h v z hv).1
  · intro h v z hv
    exact ⟨h v z hv, (ZoR.reads_back_iff z).mpr (h v z hv)⟩

/-! ## What a call keeps -/

theorem PolygonZoR.construct_eq {F : Type} (v : List (Point F)) :
    construct v = if v.length ≤ 255 then .ok (.polygon v)
      else .error "PolygonZoR: vertices.size() exceeds size limit." := by
  by_cases h : v.length ≤ 255
  · simp [construct, h]
  · simp [construct, h, Nat.lt_of_not_le h]

namespace CompositeZoR

variable {F : Type}

theorem withinLimits_iff {zs : List (ZoR F)} :
    (ZoR.composite zs).WithinLimits ↔ zs.length ≤ 255 ∧ ∀ z ∈ zs, z.WithinLimits := by
  rw [ZoR.WithinLimits, ZoR.allWithinLimits_iff]

theorem append_withinLimits {zs : List (ZoR F)} {zor : ZoR F}
    (hzs : (ZoR.composite zs).WithinLimits) (hzor : zor.WithinLimits) :
    (ZoR.composite (append zs zor).2).WithinLimits := by
  by_cases h : 255 < zs.length + 1
  · simpa [append, h] using hzs
  · rw [append, if_neg h, withinLimits_iff]
    constructor
    · simp only [List.length_append, List.length_singleton]
      omega
    · intro z hz
      rcases List.mem_append.mp hz with hz | hz
      · exact (withinLimits_iff.mp hzs).2 z hz
      · rwa [List.mem_singleton.mp hz]

theorem appendAt_withinLimits {path : List ℕ} {zor : ZoR F} (hzor : zor.WithinLimits) :
    ∀ {z z' : ZoR F} {done : Bool}, appendAt path z zor = some (done, z') → z.WithinLimits →
      z'.WithinLimits := by
  induction path with
  | nil =>
      intro z z' done h hz
      cases z with
      | composite zs =>
          obtain ⟨-, rfl⟩ := Prod.mk.inj (Option.some.inj h)
          exact append_withinLimits hz hzor
      | _ => simp [appendAt] at h
  | cons i path ih =>
      intro z z' done h hz
      cases z with
      | composite zs =>
          rw [appendAt] at h
          cases hi : zs[i]? with
          | none => simp [hi] at h
          | some w =>
              obtain ⟨⟨done', w'⟩, hat, heq⟩ := Option.map_eq_some_iff.mp (by rw [hi] at h; exact h)
              obtain ⟨-, rfl⟩ := Prod.mk.inj heq
              have hparts := withinLimits_iff.mp hz
              have hw' := ih hat (hparts.2 w (List.mem_of_getElem? hi))
              rw [withinLimits_iff, List.length_set]
              refine ⟨hparts.1, ?_⟩
              intro y hy
              rcases List.mem_or_eq_of_mem_set hy with hy | rfl
              · exact hparts.2 y hy
              · exact hw'
      | _ => simp [appendAt] at h

/-- A full composite stays as it is, at any depth. -/
theorem appendAt_refused {path : List ℕ} {zor : ZoR F} :
    ∀ {z : ZoR F} {zs : List (ZoR F)}, componentsAt path z = some zs → 255 < zs.length + 1 →
      appendAt path z zor = some (false, z) := by
  induction path with
  | nil =>
      intro z zs h hfull
      cases z with
      | composite ws =>
          obtain rfl := Option.some.inj h
          simp [appendAt, append, hfull]
      | _ => simp [componentsAt] at h
  | cons i path ih =>
      intro z zs h hfull
      cases z with
      | composite ws =>
          obtain ⟨w, hi, hw⟩ := Option.bind_eq_some_iff.mp h
          rw [appendAt, hi]
          obtain ⟨hlt, rfl⟩ := List.getElem?_eq_some_iff.mp hi
          simp [ih hw hfull]
      | _ => simp [componentsAt] at h

end CompositeZoR

namespace Pointers

variable {F : Type}

/-- The zones that are taken are those of the variables, and the others stay. -/
theorem takeAll_spec {vs : List ℕ} : ∀ {s s' : Pointers F} {zs : List (ZoR F)},
    s.takeAll vs = some (zs, s') → zs.length = vs.length ∧ (∀ z ∈ zs, ∃ v, s v = some z) ∧
      ∀ v z, s' v = some z → s v = some z := by
  induction vs with
  | nil =>
      intro s s' zs h
      obtain ⟨rfl, rfl⟩ := Prod.mk.inj (Option.some.inj h)
      simp
  | cons v vs ih =>
      intro s s' zs h
      obtain ⟨z, hz, h⟩ := Option.bind_eq_some_iff.mp h
      obtain ⟨⟨ws, t⟩, hws, h⟩ := Option.bind_eq_some_iff.mp h
      obtain ⟨rfl, rfl⟩ := Prod.mk.inj (Option.some.inj h)
      obtain ⟨hlen, htaken, hstay⟩ := ih hws
      have hback : ∀ w y, Function.update s v none w = some y → s w = some y := by
        intro w y hy
        by_cases hwv : w = v
        · simp [hwv] at hy
        · rwa [Function.update_of_ne hwv] at hy
      refine ⟨by simp [hlen], ?_, ?_⟩
      · intro y hy
        rcases List.mem_cons.mp hy with rfl | hy
        · exact ⟨v, hz⟩
        · obtain ⟨w, hw⟩ := htaken y hy
          exact ⟨w, hback w y hw⟩
      · intro w y hw
        exact hback w y (hstay w y hw)

/-- Distinct variables that hold zones give them all. -/
theorem takeAll_of_nodup {f : ℕ → ZoR F} {vs : List ℕ} : ∀ {s : Pointers F}, vs.Nodup →
    (∀ v ∈ vs, s v = some (f v)) → ∃ s', s.takeAll vs = some (vs.map f, s') := by
  induction vs with
  | nil =>
      intro s _ _
      exact ⟨s, rfl⟩
  | cons v vs ih =>
      intro s hnodup hs
      obtain ⟨hv, hnodup⟩ := List.nodup_cons.mp hnodup
      have hrest : ∀ w ∈ vs, Function.update s v none w = some (f w) := by
        intro w hw
        have hne : w ≠ v := ne_of_mem_of_not_mem hw hv
        rw [Function.update_of_ne hne]
        exact hs w (List.mem_cons_of_mem _ hw)
      obtain ⟨s', hs'⟩ := ih hnodup hrest
      exact ⟨s', by simp [takeAll, hs v List.mem_cons_self, hs']⟩

theorem limits_update {s : Pointers F} {out : ℕ} {o : Option (ZoR F)}
    (hs : ∀ v z, s v = some z → z.WithinLimits) (ho : ∀ z, o = some z → z.WithinLimits) :
    ∀ v z, Function.update s out o v = some z → z.WithinLimits := by
  intro v z hv
  by_cases h : v = out
  · rw [h, Function.update_self] at hv
    exact ho z hv
  · rw [Function.update_of_ne h] at hv
    exact hs v z hv

end Pointers

theorem ZoR.movedFrom_withinLimits {F : Type} (z : ZoR F) : z.movedFrom.WithinLimits := by
  cases z <;> simp [movedFrom, WithinLimits, AllWithinLimits]

namespace Building

variable {F : Type}

theorem polygon_ok {s s' : Pointers F} {out : ℕ} {vertices : List (Point F)} {done : Bool}
    (h : polygon s out vertices = .ok (done, s')) :
    vertices.length ≤ 255 ∧ s' = Function.update s out (some (.polygon vertices)) := by
  rw [polygon, PolygonZoR.construct_eq] at h
  by_cases hle : vertices.length ≤ 255
  · rw [if_pos hle] at h
    obtain ⟨-, rfl⟩ := Prod.mk.inj (Except.ok.inj h)
    exact ⟨hle, rfl⟩
  · rw [if_neg hle] at h
    cases h

theorem polygon_refused {s : Pointers F} {out : ℕ} {vertices : List (Point F)}
    (h : 255 < vertices.length) :
    polygon s out vertices = .error (.fatal "PolygonZoR: vertices.size() exceeds size limit.") := by
  rw [polygon, PolygonZoR.construct_eq, if_neg (Nat.not_le_of_lt h)]

theorem compositeOf_step {s s' : Pointers F} {out : ℕ} {components : List ℕ}
    (h : Step s (compositeOf out components) s') : ∃ zs t, s.takeAll components = some (zs, t) ∧
      s' = Function.update t out (some (.composite zs)) := by
  obtain ⟨done, h⟩ := h
  cases hall : s.takeAll components with
  | none => simp [run, hall] at h
  | some r =>
      rcases r with ⟨zs, t⟩
      rw [run, hall] at h
      obtain ⟨-, rfl⟩ := Prod.mk.inj (Except.ok.inj h)
      exact ⟨zs, t, rfl, rfl⟩

theorem append_step {s s' : Pointers F} {target zor : ℕ} {path : List ℕ}
    (h : Step s (append target path zor) s') : ∃ z t t' done, s zor = some z ∧
      Function.update s zor none target = some t ∧
      CompositeZoR.appendAt path t z = some (done, t') ∧
      s' = Function.update (Function.update s zor none) target (some t') := by
  obtain ⟨done, h⟩ := h
  cases hz : s zor with
  | none => simp [run, hz] at h
  | some z =>
      simp only [run, hz] at h
      cases hat : (Function.update s zor none target).bind fun t =>
          CompositeZoR.appendAt path t z with
      | none => simp [hat] at h
      | some r =>
          rcases r with ⟨done', t'⟩
          rw [hat] at h
          obtain ⟨-, rfl⟩ := Prod.mk.inj (Except.ok.inj h)
          obtain ⟨t, ht, happ⟩ := Option.bind_eq_some_iff.mp hat
          exact ⟨z, t, t', done', rfl, ht, happ, rfl⟩

theorem copy_step {s s' : Pointers F} {out source : ℕ} (h : Step s (copy out source) s') :
    ∃ z, s source = some z ∧ s' = Function.update s out (some z) := by
  obtain ⟨done, h⟩ := h
  cases hz : s source with
  | none => simp [run, hz] at h
  | some z =>
      cases z <;> simp only [run, hz, Except.ok.injEq, Prod.mk.injEq, reduceCtorEq] at h <;>
        exact ⟨_, rfl, h.2.symm⟩

theorem move_step {s s' : Pointers F} {out source : ℕ} (h : Step s (move out source) s') :
    ∃ z, s source = some z ∧
      s' = Function.update (Function.update s source (some z.movedFrom)) out (some z) := by
  obtain ⟨done, h⟩ := h
  cases hz : s source with
  | none => simp [run, hz] at h
  | some z =>
      rw [run, hz] at h
      exact ⟨z, rfl, (Prod.mk.inj (Except.ok.inj h)).2.symm⟩

/-- Every call but the vector constructor keeps the counts within a byte, and so
does that one up to the limit. -/
theorem Step.limits {s s' : Pointers F} {c : Building F} (h : Step s c s') (hc : ¬ c.Oversized)
    (hs : ∀ v z, s v = some z → z.WithinLimits) : ∀ v z, s' v = some z → z.WithinLimits := by
  cases c with
  | neighbor out =>
      obtain ⟨_, h⟩ := h
      rw [← (Prod.mk.inj (Except.ok.inj h)).2]
      apply Pointers.limits_update hs
      simp [ZoR.WithinLimits]
  | circle out center radius =>
      obtain ⟨_, h⟩ := h
      rw [← (Prod.mk.inj (Except.ok.inj h)).2]
      apply Pointers.limits_update hs
      simp [ZoR.WithinLimits]
  | polygonCopy out vertices =>
      obtain ⟨_, h⟩ := h
      obtain ⟨hle, rfl⟩ := polygon_ok h
      apply Pointers.limits_update hs
      simpa [ZoR.WithinLimits] using hle
  | polygonMove out vertices =>
      obtain ⟨_, h⟩ := h
      obtain ⟨hle, rfl⟩ := polygon_ok h
      apply Pointers.limits_update hs
      simpa [ZoR.WithinLimits] using hle
  | composite out =>
      obtain ⟨_, h⟩ := h
      rw [← (Prod.mk.inj (Except.ok.inj h)).2]
      apply Pointers.limits_update hs
      simp [ZoR.WithinLimits, ZoR.AllWithinLimits]
  | compositeOf out components =>
      obtain ⟨zs, t, hall, rfl⟩ := compositeOf_step h
      obtain ⟨hlen, htaken, hstay⟩ := Pointers.takeAll_spec hall
      apply Pointers.limits_update fun v z hv => hs v z (hstay v z hv)
      intro z hz
      obtain rfl := Option.some.inj hz
      rw [CompositeZoR.withinLimits_iff, hlen]
      refine ⟨Nat.le_of_not_lt hc, ?_⟩
      intro y hy
      obtain ⟨v, hv⟩ := htaken y hy
      exact hs v y hv
  | copy out source =>
      obtain ⟨z, hz, rfl⟩ := copy_step h
      apply Pointers.limits_update hs
      intro y hy
      obtain rfl := Option.some.inj hy
      exact hs source z hz
  | move out source =>
      obtain ⟨z, hz, rfl⟩ := move_step h
      apply Pointers.limits_update
      · apply Pointers.limits_update hs
        intro y hy
        obtain rfl := Option.some.inj hy
        exact z.movedFrom_withinLimits
      · intro y hy
        obtain rfl := Option.some.inj hy
        exact hs source z hz
  | append target path zor =>
      obtain ⟨z, t, t', done, hz, ht, happ, rfl⟩ := append_step h
      have hleft : ∀ v y, Function.update s zor none v = some y → y.WithinLimits := by
        apply Pointers.limits_update hs
        simp
      apply Pointers.limits_update hleft
      intro y hy
      obtain rfl := Option.some.inj hy
      exact CompositeZoR.appendAt_withinLimits (hs zor z hz) happ (hleft target t ht)

/-- An oversized composite is made. -/
theorem Step.oversized {s s' : Pointers F} {c : Building F} (h : Step s c s') (hc : c.Oversized) :
    ∃ v z, s' v = some z ∧ ¬ z.WithinLimits := by
  cases c with
  | compositeOf out components =>
      obtain ⟨zs, t, hall, rfl⟩ := compositeOf_step h
      refine ⟨out, .composite zs, Function.update_self .., ?_⟩
      intro hlim
      have hle := (CompositeZoR.withinLimits_iff.mp hlim).1
      rw [(Pointers.takeAll_spec hall).1] at hle
      exact Nat.not_le_of_lt hc hle
  | _ => exact absurd hc id

/-- Every other call that asks for too much is refused. -/
theorem refused_iff {s : Pointers F} {c : Building F} (h : c.Exceeds s) :
    c.Refused s ↔ ¬ c.Oversized := by
  cases c with
  | polygonCopy out vertices => exact iff_of_true (.inl ⟨_, polygon_refused h⟩) id
  | polygonMove out vertices => exact iff_of_true (.inl ⟨_, polygon_refused h⟩) id
  | compositeOf out components =>
      obtain ⟨hlen, hall⟩ := h
      obtain ⟨⟨zs, t⟩, hall⟩ := Option.isSome_iff_exists.mp hall
      apply iff_of_false
      · rintro (⟨text, h⟩ | ⟨_, _, _, h, _⟩)
        · simp [run, hall] at h
        · cases h
      · exact not_not.mpr hlen
  | append target path zor =>
      obtain ⟨hsome, t, components, ht, hat, hfull⟩ := h
      obtain ⟨z, hz⟩ := Option.isSome_iff_exists.mp hsome
      refine iff_of_true (.inr ⟨target, path, zor, rfl, ?_⟩) id
      have happ : CompositeZoR.appendAt path t z = some (false, t) :=
        CompositeZoR.appendAt_refused hat hfull
      simp only [run, hz, ht, Option.bind_some, happ]
      rw [← ht, Function.update_eq_self]
  | _ => exact absurd h id

/-! ## Programs -/

theorem fit_of_run {cs : List (Building RawFloat)} {s : Pointers RawFloat}
    (h : Run Step (fun _ => none) cs s) (hcs : ∀ c ∈ cs, ¬ c.Oversized) : s.Fit := by
  rw [Pointers.fit_iff]
  apply h.invariant fun _ t => ∀ v z, t v = some z → z.WithinLimits
  · intro v z hv
    cases hv
  · intro ms t c u rest hcs' _ ht hstep
    apply hstep.limits (hcs c _) ht
    rw [hcs']
    exact List.mem_append_right _ List.mem_cons_self

/-- The zones of a program fit all along iff it never gives the vector
constructor more than 255 components. No other call can do it. -/
theorem fit_all_along_iff (cs : List (Building RawFloat)) (s : Pointers RawFloat)
    (h : Run Step (fun _ => none) cs s) :
    ((∀ pre post t, cs = pre ++ post → Run Step (fun _ => none) pre t → t.Fit) ↔
        ∀ c ∈ cs, ¬ c.Oversized) ∧
      ∀ c : Building RawFloat, c.Exceeds s → (c.Refused s ↔ ¬ c.Oversized) := by
  refine ⟨⟨?_, ?_⟩, fun c hc => refused_iff hc⟩
  · intro hfit c hc hover
    obtain ⟨pre, post, rfl⟩ := List.append_of_mem hc
    obtain ⟨t, hpre, hrest⟩ := Run.append_iff.mp h
    obtain ⟨u, hstep, -⟩ := Run.cons_iff.mp hrest
    obtain ⟨v, z, hv, hz⟩ := hstep.oversized hover
    exact hz (hfit (pre ++ [c]) post u (by simp) (hpre.snoc hstep) v z hv).1
  · intro hcs pre post t heq hpre
    apply fit_of_run hpre
    intro c hc
    apply hcs
    rw [heq]
    exact List.mem_append_left _ hc

/-- A composite is made from a triangle and then gets its next-hop component. -/
def triangleCalls : List (Building RawFloat) :=
  let zero : RawFloat := ⟨0, 0, 0, 0⟩
  let one : RawFloat := ⟨0, 0, 128, 63⟩
  [polygonMove 0 [⟨zero, zero⟩, ⟨one, zero⟩, ⟨zero, one⟩], compositeOf 1 [0], neighbor 2,
    append 1 [] 2]

theorem fit_all_along_triangle :
    ∃ s, Run Step (fun _ => none) triangleCalls s ∧ (s 1).isSome ∧ s.Fit := by
  have hrun : ∃ s, Run Step (fun _ => none) triangleCalls s ∧ (s 1).isSome :=
    ⟨_, Run.cons_iff.mpr ⟨_, ⟨true, rfl⟩, Run.cons_iff.mpr ⟨_, ⟨true, rfl⟩,
      Run.cons_iff.mpr ⟨_, ⟨true, rfl⟩, Run.single_iff.mpr ⟨true, rfl⟩⟩⟩⟩, rfl⟩
  obtain ⟨s, hrun, hsome⟩ := hrun
  refine ⟨s, hrun, hsome, ?_⟩
  apply (fit_all_along_iff _ s hrun).1.mpr _ _ [] s (List.append_nil _).symm hrun
  simp [triangleCalls, Oversized]

/-- Calls that make a next-hop zone for each of the first variables. -/
theorem run_neighbors {F : Type} (n : ℕ) : ∃ s : Pointers F,
    Run Step (fun _ => none) ((List.range n).map neighbor) s ∧ ∀ v < n, s v = some .neighbor := by
  induction n with
  | zero => exact ⟨_, .nil, fun v hv => absurd hv (Nat.not_lt_zero v)⟩
  | succ n ih =>
      obtain ⟨s, hrun, hs⟩ := ih
      refine ⟨Function.update s n (some .neighbor), ?_, ?_⟩
      · rw [List.range_succ, List.map_append]
        exact hrun.snoc ⟨true, rfl⟩
      · intro v hv
        by_cases h : v = n
        · rw [h, Function.update_self]
        · rw [Function.update_of_ne h]
          exact hs v (by omega)

/-- 256 components are written with the count 0 and read back as none. -/
theorem not_fit_all_along : ∃ s, Run Step (fun _ => none)
    ((List.range 256).map neighbor ++ [compositeOf 256 (List.range 256)]) s ∧
      ∃ z, s 256 = some z ∧ ¬ z.WithinLimits ∧
        ZoR.deserialize z.serialize = .ok (some (.composite [])) := by
  obtain ⟨s, hrun, hs⟩ := run_neighbors (F := RawFloat) 256
  have hrange : ∀ v ∈ List.range 256, s v = some .neighbor := by
    intro v hv
    exact hs v (List.mem_range.mp hv)
  obtain ⟨t, hall⟩ := Pointers.takeAll_of_nodup List.nodup_range hrange
  have hstep : Step s (compositeOf 256 (List.range 256)) (Function.update t 256
      (some (.composite ((List.range 256).map fun _ => .neighbor)))) :=
    ⟨true, by rw [run, hall]; rfl⟩
  refine ⟨_, hrun.snoc hstep, _, Function.update_self .., ?_, ?_⟩
  · rw [CompositeZoR.withinLimits_iff, List.length_map, List.length_range]
    omega
  · have hempty : (ZoR.composite [] : ZoR RawFloat).WithinLimits := by
      simp [ZoR.WithinLimits, ZoR.AllWithinLimits]
    rw [ZoR.serialize_composite, List.length_map, List.length_range]
    exact ZoR.deserialize_append hempty _

end Building

end Cafe
