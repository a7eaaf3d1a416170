import Cafe.Bimap
import Cafe.Deployment

/-!
# The names of the faces

The map between the faces and the names of their uses keeps what came first:
a face that is created later under a name in use is not found by that name.
-/

namespace Cafe

abbrev FaceIdContextMap := Bimap FaceId String

namespace FaceIdContextMap

def setFaceIdContext (m : FaceIdContextMap) (faceId : FaceId) (context : String) :
    FaceIdContextMap := m.insert faceId context

def getFaceIdFor (m : FaceIdContextMap) (context : String) : FaceId :=
  (m.findRight context).getD 0

def getContextFor (m : FaceIdContextMap) (faceId : FaceId) : String :=
  (m.findLeft faceId).getD "UNDEFINED"

/-- The map after calls of `setFaceIdContext`. -/
def ofCalls (calls : List (FaceId × String)) : FaceIdContextMap :=
  calls.foldl (fun m call => m.setFaceIdContext call.1 call.2) Bimap.empty

/-- Some face is recorded under the name. -/
def IsRecorded (m : FaceIdContextMap) (context : String) : Prop :=
  context ∈ m.pairs.map Prod.snd

/-- A name leads to a face iff the face leads to the name. -/
def IsInverse (m : FaceIdContextMap) : Prop :=
  ∀ faceId context, faceId ≠ 0 → (m.getFaceIdFor context = faceId ↔
    m.getContextFor faceId = context ∧ m.IsRecorded context)

/-- No face is recorded with another name than that of the call, and no name
with another face. -/
def Admits (m : FaceIdContextMap) (faceId : FaceId) (context : String) : Prop :=
  ∀ e ∈ m.pairs, e.1 = faceId ↔ e.2 = context

/-- The pair was set, and it is what both searches return. -/
def Holds (m : FaceIdContextMap) (faceId : FaceId) (context : String) : Prop :=
  m.getFaceIdFor context = faceId ∧ m.getContextFor faceId = context

variable {m : FaceIdContextMap} {faceId : FaceId} {context : String}

theorem getFaceIdFor_eq_iff (h0 : faceId ≠ 0) :
    m.getFaceIdFor context = faceId ↔ (faceId, context) ∈ m.pairs := by
  rw [← Bimap.findRight_eq_some, getFaceIdFor]
  cases m.findRight context with
  | none => simpa using h0.symm
  | some f => simp

theorem getContextFor_of_mem (h : (faceId, context) ∈ m.pairs) :
    m.getContextFor faceId = context := by
  rw [getContextFor, Bimap.findLeft_eq_some.mpr h, Option.getD_some]

theorem holds_iff (h0 : faceId ≠ 0) : m.Holds faceId context ↔ (faceId, context) ∈ m.pairs := by
  unfold Holds
  rw [getFaceIdFor_eq_iff h0]
  exact and_iff_left_of_imp getContextFor_of_mem

/-- A face that is not recorded has the name of the ones that are not. -/
theorem isInverse_iff : m.IsInverse ↔ ¬ m.IsRecorded "UNDEFINED" := by
  constructor
  · intro h hrec
    obtain ⟨faceId, hfresh⟩ := (insert 0 (m.pairs.map Prod.fst).toFinset).exists_notMem
    rw [Finset.mem_insert, List.mem_toFinset, not_or] at hfresh
    have hnone : m.findLeft faceId = none := by
      rw [Option.eq_none_iff_forall_ne_some]
      exact fun c hc => hfresh.2 (List.mem_map_of_mem (Bimap.findLeft_eq_some.mp hc))
    have hname : m.getContextFor faceId = "UNDEFINED" := by
      rw [getContextFor, hnone, Option.getD_none]
    have hmem := (getFaceIdFor_eq_iff hfresh.1).mp ((h _ _ hfresh.1).mpr ⟨hname, hrec⟩)
    exact hfresh.2 (List.mem_map_of_mem hmem)
  · intro h faceId context h0
    rw [getFaceIdFor_eq_iff h0]
    constructor
    · exact fun hmem => ⟨getContextFor_of_mem hmem, List.mem_map_of_mem hmem⟩
    · rintro ⟨hname, hrec⟩
      rw [getContextFor] at hname
      rw [← Bimap.findLeft_eq_some]
      cases hfind : m.findLeft faceId with
      | none =>
          rw [hfind, Option.getD_none] at hname
          exact absurd (hname ▸ hrec) h
      | some c =>
          rw [hfind, Option.getD_some] at hname
          rw [hname]

/-! ## Sequences of calls -/

theorem ofCalls_eq (calls : List (FaceId × String)) : ofCalls calls = Bimap.ofInserts calls := rfl

/-- The pair that was set last is what is found iff no older pair has one of
its sides. -/
theorem holds_ofCalls_snoc (h0 : faceId ≠ 0) (pre : List (FaceId × String)) :
    (ofCalls (pre ++ [(faceId, context)])).Holds faceId context ↔
      (ofCalls pre).Admits faceId context := by
  rw [holds_iff h0, ofCalls_eq, Bimap.ofInserts_snoc]
  exact Bimap.mem_insert_self

/-- The searches are inverse to each other at all times, and each call is in
effect when it returns. -/
def RecordsLast (calls : List (FaceId × String)) : Prop :=
  (∀ pre post, calls = pre ++ post → (ofCalls pre).IsInverse) ∧
    ∀ pre call post, calls = pre ++ call :: post → (ofCalls (pre ++ [call])).Holds call.1 call.2

theorem recordsLast_iff {calls : List (FaceId × String)} (h0 : ∀ call ∈ calls, call.1 ≠ 0) :
    RecordsLast calls ↔ Bimap.Consistent calls ∧ ∀ call ∈ calls, call.2 ≠ "UNDEFINED" := by
  have hlast : (∀ pre call post, calls = pre ++ call :: post →
      (ofCalls (pre ++ [call])).Holds call.1 call.2) ↔ Bimap.Consistent calls := by
    rw [← Bimap.forall_compatible_iff]
    refine forall_congr' fun pre => forall_congr' fun call => forall_congr' fun post =>
      imp_congr_right fun hcalls => ?_
    exact holds_ofCalls_snoc (h0 call (by simp [hcalls])) pre
  unfold RecordsLast
  rw [hlast, and_comm]
  refine and_congr_right fun hcons => ?_
  simp only [isInverse_iff]
  constructor
  · intro h call hcall hname
    rcases List.append_of_mem hcall with ⟨pre, post, rfl⟩
    apply h (pre ++ [call]) post (by simp)
    have hmem := (holds_iff (h0 _ hcall)).mp (hlast.mpr hcons pre call post rfl)
    exact hname ▸ List.mem_map_of_mem hmem
  · rintro h pre post rfl hrec
    rcases List.mem_map.mp hrec with ⟨e, he, hname⟩
    exact h e (List.mem_append_left _ (Bimap.mem_of_mem_ofInserts he)) hname

/-- A call is in effect when it returns iff neither of its sides is recorded
with another one; all of them are, and the searches are always inverse to each
other, iff no two of the calls share exactly one side and none of them gives a
face the name of the faces without one. -/
theorem setFaceIdContext_last_iff {calls : List (FaceId × String)}
    (h0 : ∀ call ∈ calls, call.1 ≠ 0) :
    (RecordsLast calls ↔ Bimap.Consistent calls ∧ ∀ call ∈ calls, call.2 ≠ "UNDEFINED") ∧
      ((ofCalls calls).IsInverse ↔ ¬ (ofCalls calls).IsRecorded "UNDEFINED") ∧
      ∀ pre faceId context, calls = pre ++ [(faceId, context)] →
        ((ofCalls calls).Holds faceId context ↔ (ofCalls pre).Admits faceId context) := by
  refine ⟨recordsLast_iff h0, isInverse_iff, ?_⟩
  rintro pre faceId context rfl
  exact holds_ofCalls_snoc (h0 (faceId, context) (by simp)) pre

theorem setFaceIdContext_last_iff_two_devices :
    (∀ call ∈ [(256, "V2V"), (257, "V2I")], call.1 ≠ 0) ∧
      RecordsLast [(256, "V2V"), (257, "V2I")] := by
  have h0 : ∀ call ∈ [(256, "V2V"), (257, "V2I")], call.1 ≠ 0 := by simp
  refine ⟨h0, (setFaceIdContext_last_iff h0).1.mpr ⟨?_, by simp⟩⟩
  simp [Bimap.Consistent]

/-- The calls for two wifi devices of a vehicle: the later V2V face is not the
one that is found. -/
theorem setFaceIdContext_stale :
    (ofCalls [(256, "V2V"), (257, "V2I"), (258, "V2V"), (259, "V2I")]).getFaceIdFor "V2V" = 256 ∧
      (ofCalls [(256, "V2V"), (257, "V2I"), (258, "V2V"), (259, "V2I")]).getFaceIdFor "V2I" = 257 ∧
      (ofCalls [(256, "V2V"), (257, "V2I"), (258, "V2V")]).getContextFor 258 = "UNDEFINED" ∧
      ¬ ∀ calls : List (FaceId × String), (∀ call ∈ calls, call.1 ≠ 0) → RecordsLast calls := by
  refine ⟨by decide, by decide, by decide, fun h => ?_⟩
  have hlast := (h [(256, "V2V"), (258, "V2V")] (by simp)).2 [(256, "V2V")] (258, "V2V") [] rfl
  exact absurd hlast.1 (by decide)

end FaceIdContextMap

/-! ## The strings of a node's faces -/

def FaceContext.name : FaceContext → String
  | .v2v => "V2V"
  | .v2i => "V2I"
  | .v2x => "V2X"
  | .undefined => "UNDEFINED"
  | .p2p fromNodeId toNodeId =>
      "P2P(" ++ (fromNodeId.toNat.repr ++ ("," ++ (toNodeId.toNat.repr ++ ")")))

theorem notMem_repr {c : Char} (hc : c.isDigit = false) (n : ℕ) : c ∉ n.repr.toList := by
  intro hmem
  rw [Nat.toList_repr] at hmem
  have hdigit := Nat.isDigit_of_mem_toDigits (by decide) (by decide) hmem
  rw [hc] at hdigit
  contradiction

theorem repr_toList_inj {m n : ℕ} (h : m.repr.toList = n.repr.toList) : m = n := by
  rw [Nat.toList_repr, Nat.toList_repr] at h
  rw [← Nat.ofDigitChars_ten_toDigits (n := m), h, Nat.ofDigitChars_ten_toDigits]

theorem FaceContext.name_injective : Function.Injective FaceContext.name := by
  intro x y h
  have hlist := congrArg String.toList h
  cases x <;> cases y <;> first | rfl | (simp [FaceContext.name] at hlist; done) | skip
  -- two point-to-point faces: the commas and the brackets stand at the same places
  case p2p.p2p a b c d =>
    simp only [FaceContext.name, String.toList_append] at hlist
    have hcomma := List.append_cancel_left hlist
    have hrest : ',' ∉ b.toNat.repr.toList ++ ")".toList := by
      rw [List.mem_append, not_or]
      exact ⟨notMem_repr rfl _, by decide⟩
    rw [show (",".toList) = [','] from rfl, List.singleton_append, List.singleton_append,
      List.append_cons_inj_of_notMem (notMem_repr rfl _) hrest] at hcomma
    have ha := repr_toList_inj hcomma.1
    have hb := repr_toList_inj (List.append_cancel_right hcomma.2.2)
    rw [UInt32.toNat_inj.mp ha, UInt32.toNat_inj.mp hb]

/-! ## The map of a node -/

namespace Context

variable {F : Type} [Arith F] {ctx : Context F} {m : FaceIdContextMap}

/-- The context's pairs are those of the map, under the strings of their names. -/
def Represents (ctx : Context F) (m : FaceIdContextMap) : Prop :=
  m.pairs = ctx.faceContextMap.map (Prod.map id FaceContext.name)

theorem represents_init : (Context.init F).Represents Bimap.empty := rfl

theorem mem_map_name {l : List (FaceId × FaceContext)} {context : FaceContext} :
    context.name ∈ (l.map (Prod.map id FaceContext.name)).map Prod.snd ↔
      ∃ e ∈ l, e.2 = context := by
  simp [FaceContext.name_injective.eq_iff]

theorem Represents.setFaceIdContext (h : ctx.Represents m) (faceId : FaceId)
    (context : FaceContext) :
    (ctx.setFaceIdContext faceId context).Represents (m.setFaceIdContext faceId context.name) := by
  have hleft : faceId ∈ m.pairs.map Prod.fst ↔ ∃ e ∈ ctx.faceContextMap, e.1 = faceId := by
    rw [h]
    simp
  have hright : context.name ∈ m.pairs.map Prod.snd ↔ ∃ e ∈ ctx.faceContextMap, e.2 = context := by
    rw [h]
    exact mem_map_name
  have hany : (ctx.faceContextMap.any fun e => e.1 = faceId ∨ e.2 = context) = true ↔
      faceId ∈ m.pairs.map Prod.fst ∨ context.name ∈ m.pairs.map Prod.snd := by
    rw [hleft, hright, List.any_eq_true, ← exists_or]
    refine exists_congr fun e => ?_
    rw [decide_eq_true_iff, and_or_left]
  unfold Context.setFaceIdContext FaceIdContextMap.setFaceIdContext Bimap.insert Represents
  by_cases hmem : faceId ∈ m.pairs.map Prod.fst ∨ context.name ∈ m.pairs.map Prod.snd
  · rw [dif_pos hmem, if_pos (hany.mpr hmem)]
    exact h
  · rw [dif_neg hmem, if_neg (hany.not.mpr hmem)]
    exact congrArg (List.cons (faceId, context.name)) h

theorem Represents.getFaceIdFor (h : ctx.Represents m) (context : FaceContext) :
    ctx.getFaceIdFor context = m.getFaceIdFor context.name := by
  unfold Context.getFaceIdFor FaceIdContextMap.getFaceIdFor Bimap.findRight
  rw [h, List.find?_map, Option.map_map]
  simp only [Function.comp_def, Prod.map, id, FaceContext.name_injective.eq_iff]

theorem Represents.getContextFor (h : ctx.Represents m) (faceId : FaceId) :
    (ctx.getContextFor faceId).name = m.getContextFor faceId := by
  unfold Context.getContextFor FaceIdContextMap.getContextFor Bimap.findLeft
  rw [h, List.find?_map, Option.map_map]
  simp only [Function.comp_def, Prod.map, id]
  cases ctx.faceContextMap.find? fun e => decide (e.1 = faceId) <;> rfl

/-- A name that leads to a face leads to it for good. -/
theorem getFaceIdFor_setFaceIdContext {context : FaceContext} (h : ctx.getFaceIdFor context ≠ 0)
    (faceId : FaceId) (context' : FaceContext) :
    (ctx.setFaceIdContext faceId context').getFaceIdFor context = ctx.getFaceIdFor context := by
  unfold Context.setFaceIdContext
  split
  · rfl
  · rename_i hnew
    have hne : context' ≠ context := by
      rintro rfl
      apply h
      rw [Context.getFaceIdFor, List.find?_eq_none.mpr, Option.map_none, Option.getD_none]
      intro e he hname
      exact hnew (List.any_eq_true.mpr ⟨e, he, decide_eq_true (Or.inr (of_decide_eq_true hname))⟩)
    unfold Context.getFaceIdFor
    rw [List.find?_cons_of_neg (by simpa using hne)]

end Context

namespace Stack

variable {F : Type} [Arith F] {st : Stack F} {context : FaceContext}

theorem getFaceIdFor_createAndRegisterFace (h : st.node.ctx.getFaceIdFor context ≠ 0)
    (device : Device) : (st.createAndRegisterFace device).node.ctx.getFaceIdFor context =
      st.node.ctx.getFaceIdFor context := by
  cases device with
  | other => rfl
  | pointToPoint remoteNodeId => exact Context.getFaceIdFor_setFaceIdContext h _ _
  | wifi =>
      simp only [createAndRegisterFace, wifiNetDeviceCallback]
      cases st.node.ctx.type with
      | none => rfl
      | backbone => rfl
      | rsu => exact Context.getFaceIdFor_setFaceIdContext h _ _
      | vehicle =>
          have hv2v := Context.getFaceIdFor_setFaceIdContext h st.addFace.lastFaceId .v2v
          exact (Context.getFaceIdFor_setFaceIdContext (hv2v.symm ▸ h) _ _).trans hv2v

/-- The devices that follow take no name from the face that had it first. -/
theorem getFaceIdFor_foldl (h : st.node.ctx.getFaceIdFor context ≠ 0) (devices : List Device) :
    (devices.foldl createAndRegisterFace st).node.ctx.getFaceIdFor context =
      st.node.ctx.getFaceIdFor context := by
  induction devices generalizing st with
  | nil => rfl
  | cons device devices ih =>
      have hstep := getFaceIdFor_createAndRegisterFace h device
      rw [List.foldl_cons, ih (hstep.symm ▸ h), hstep]

/-- The names come from calls for faces that were created. -/
def FromCalls (st : Stack F) : Prop :=
  ∃ calls : List (FaceId × String), (∀ call ∈ calls, call.1 ≠ 0) ∧
    st.node.ctx.Represents (FaceIdContextMap.ofCalls calls)

theorem FromCalls.setContext (h : st.FromCalls) (context : FaceContext) :
    (st.addFace.setContext context).FromCalls := by
  rcases h with ⟨calls, h0, hrep⟩
  refine ⟨calls ++ [(st.addFace.lastFaceId, context.name)], ?_, ?_⟩
  · intro call hcall
    rcases List.mem_append.mp hcall with hcall | hcall
    · exact h0 call hcall
    · rw [List.mem_singleton.mp hcall]
      exact Nat.succ_ne_zero _
  · rw [FaceIdContextMap.ofCalls_eq, Bimap.ofInserts_snoc]
    exact hrep.setFaceIdContext st.addFace.lastFaceId context

theorem FromCalls.createAndRegisterFace (h : st.FromCalls) (device : Device) :
    (st.createAndRegisterFace device).FromCalls := by
  cases device with
  | other => exact h
  | pointToPoint remoteNodeId => exact h.setContext _
  | wifi =>
      simp only [Stack.createAndRegisterFace, wifiNetDeviceCallback]
      cases st.node.ctx.type with
      | none => exact h
      | backbone => exact h
      | rsu => exact h.setContext _
      | vehicle => exact (h.setContext .v2v).setContext .v2i

theorem fromCalls_doInstall (routingInfo : Graph) (n : NodeId) (spec : NodeSpec F) :
    (doInstall routingInfo n spec).FromCalls :=
  List.foldlRecOn spec.devices Stack.createAndRegisterFace
    ⟨[], by simp, Context.represents_init (F := F)⟩
    fun _ h device _ => h.createAndRegisterFace device

end Stack

end Cafe
