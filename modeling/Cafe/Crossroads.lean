import Cafe.BuiltBackbone
import Cafe.RsuPlacement

/-!
# The crossroads scene

RSUs stand at the middle spacing on two roads that cross, one of them at the
crossing. Channels join the RSUs of each arm in a row and the first of each
arm to the RSU at the crossing, unless that one is under maintenance.
-/

open Labelled WeightedDigraph

namespace Cafe

open Destinations

/-! ## Channels between nodes -/

/-- `PointToPointHelper::Install` -/
def installChannel (devices : ℕ → List Device) (c : ℕ × ℕ) : ℕ → List Device :=
  let devices' := Function.update devices c.1
    (devices c.1 ++ [.pointToPoint (UInt32.ofNat c.2)])
  Function.update devices' c.2 (devices' c.2 ++ [.pointToPoint (UInt32.ofNat c.1)])

/-- `SetupWifiNetDevice` -/
def setupWifiNetDevice (status : ℕ → NodeStatus) (devices : ℕ → List Device) (n : ℕ) :
    List Device :=
  if status n = .active then devices n ++ [.wifi] else devices n

theorem installChannel_eq (devices : ℕ → List Device) (c : ℕ × ℕ) (n : ℕ) :
    installChannel devices c n = devices n ++
      ((if n = c.1 then [.pointToPoint (UInt32.ofNat c.2)] else []) ++
        if n = c.2 then [.pointToPoint (UInt32.ofNat c.1)] else []) := by
  unfold installChannel
  simp only [Function.update_apply]
  by_cases h₁ : n = c.1
  · by_cases h₂ : n = c.2
    · simp [← h₁, ← h₂]
    · rw [if_neg h₂, if_pos h₁, if_pos h₁, if_neg h₂, List.append_nil, h₁]
  · by_cases h₂ : n = c.2
    · have hne : c.2 ≠ c.1 := h₂ ▸ h₁
      rw [if_pos h₂, if_neg hne, if_neg h₁, if_pos h₂, List.nil_append, h₂]
    · rw [if_neg h₂, if_neg h₁, if_neg h₁, if_neg h₂, List.append_nil, List.append_nil]

/-- The nodes that a list of channels joins. -/
def Joined (channels : List (ℕ × ℕ)) (a b : ℕ) : Prop := (a, b) ∈ channels ∨ (b, a) ∈ channels

theorem Joined.symm {channels : List (ℕ × ℕ)} {a b : ℕ} (h : Joined channels a b) :
    Joined channels b a := Or.symm h

theorem mem_foldl_installChannel {channels : List (ℕ × ℕ)} {n : ℕ} {v : NodeId} :
    Device.pointToPoint v ∈ channels.foldl installChannel (fun _ => []) n ↔
      ∃ b, Joined channels n b ∧ v = UInt32.ofNat b := by
  induction channels using List.reverseRecOn with
  | nil => simp [Joined]
  | append_singleton channels c ih =>
      rw [List.foldl_append, List.foldl_cons, List.foldl_nil, installChannel_eq, List.mem_append,
        List.mem_append, ih]
      obtain ⟨c₁, c₂⟩ := c
      constructor
      · rintro (⟨b, hb, rfl⟩ | h | h)
        · exact ⟨b, hb.imp (List.mem_append_left _) (List.mem_append_left _), rfl⟩
        · split at h
          · rename_i heq
            exact ⟨c₂, Or.inl (by simp [heq]), by simpa using h⟩
          · cases h
        · split at h
          · rename_i heq
            exact ⟨c₁, Or.inr (by simp [heq]), by simpa using h⟩
          · cases h
      · rintro ⟨b, hb, rfl⟩
        simp only [Joined, List.mem_append, List.mem_singleton, Prod.mk.injEq] at hb
        rcases hb with (hb | ⟨rfl, rfl⟩) | (hb | ⟨rfl, rfl⟩)
        · exact Or.inl ⟨b, Or.inl hb, rfl⟩
        · exact Or.inr (Or.inl (by simp))
        · exact Or.inl ⟨b, Or.inr hb, rfl⟩
        · exact Or.inr (Or.inr (by simp))

theorem wifi_notMem_foldl_installChannel (channels : List (ℕ × ℕ)) (n : ℕ) :
    Device.wifi ∉ channels.foldl installChannel (fun _ => []) n := by
  induction channels using List.reverseRecOn with
  | nil => simp
  | append_singleton channels c ih =>
      rw [List.foldl_append, List.foldl_cons, List.foldl_nil, installChannel_eq]
      simp only [List.mem_append, not_or]
      refine ⟨ih, ?_, ?_⟩ <;> split <;> simp

theorem ofNat_eq_iff {a b : ℕ} (ha : a < 4294967296) (hb : b < 4294967296) :
    UInt32.ofNat a = UInt32.ofNat b ↔ a = b := by
  rw [← UInt32.toNat_inj, UInt32.toNat_ofNat_of_lt' ha, UInt32.toNat_ofNat_of_lt' hb]

/-- Each channel leaves a device at both ends. -/
theorem count_foldl_installChannel {channels : List (ℕ × ℕ)} {a b : ℕ} (ha : a < 4294967296)
    (hb : b < 4294967296) (hends : ∀ c ∈ channels, c.1 < 4294967296 ∧ c.2 < 4294967296) :
    (channels.foldl installChannel (fun _ => []) a).count (.pointToPoint (UInt32.ofNat b)) =
      (channels.foldl installChannel (fun _ => []) b).count (.pointToPoint (UInt32.ofNat a)) := by
  induction channels using List.reverseRecOn with
  | nil => rfl
  | append_singleton channels c ih =>
      obtain ⟨c₁, c₂⟩ := c
      obtain ⟨h₁, h₂⟩ := hends (c₁, c₂) (by simp)
      have hone : ∀ {x y u v : ℕ}, y < 4294967296 → v < 4294967296 →
          (if x = u then [Device.pointToPoint (UInt32.ofNat v)] else []).count
            (.pointToPoint (UInt32.ofNat y)) = if x = u ∧ y = v then 1 else 0 := by
        intro x y u v hy hv
        by_cases hx : x = u
        · by_cases hyv : y = v
          · rw [if_pos hx, if_pos ⟨hx, hyv⟩, hyv, List.count_singleton_self]
          · rw [if_pos hx, if_neg fun h => hyv h.2]
            refine List.count_eq_zero_of_not_mem fun hmem => hyv ?_
            exact (ofNat_eq_iff hy hv).mp (Device.pointToPoint.inj (List.mem_singleton.mp hmem))
        · rw [if_neg hx, if_neg fun h => hx h.1, List.count_nil]
      simp only [List.foldl_append, List.foldl_cons, List.foldl_nil, installChannel_eq,
        List.count_append, hone hb h₂, hone hb h₁, hone ha h₂, hone ha h₁]
      rw [ih fun c hc => hends c (List.mem_append_left _ hc)]
      have hswap : ∀ p q : Prop, [Decidable p] → [Decidable q] →
          (if p ∧ q then 1 else 0 : ℕ) = if q ∧ p then 1 else 0 := fun p q _ _ => by
        simp only [and_comm]
      rw [hswap (a = c₁), hswap (a = c₂)]
      omega

/-! ## The scene -/

def Crossroads.h {F : Type} [Arith F] [Sqrt F] (r w : F) : Option F :=
  Sqrt.sqrt (Arith.lit 4 * r * r - w * w)

/-- The constants and options of `main`, and where the vehicles start. The constants are such that
the spacing is a number. -/
structure Crossroads (F : Type) [Arith F] [Sqrt F] where
  txRadius : F
  roadWidth : F
  number : (Crossroads.h txRadius roadWidth).isSome
  maxRange : F
  disableRsu : Bool
  vehicles : List (Point F)

namespace Crossroads

section Scene

variable {F : Type} [Arith F] [Sqrt F] (x : Crossroads F)

def dx : F := (h x.txRadius x.roadWidth).get x.number

def maxLayer : ℕ := Arith.trunc (x.maxRange / x.dx)

def rsuPositions : List (Point F) :=
  ⟨0, 0⟩ :: ((List.range' 1 x.maxLayer).map (fun i => ⟨Arith.lit i * x.dx, 0⟩) ++
    (List.range' 1 x.maxLayer).map (fun i => ⟨Arith.lit (-i) * x.dx, 0⟩) ++
    (List.range' 1 x.maxLayer).map (fun i => ⟨0, Arith.lit i * x.dx⟩) ++
    (List.range' 1 x.maxLayer).map fun i => ⟨0, Arith.lit (-i) * x.dx⟩)

def numRsu : ℕ := x.rsuPositions.length

/-- The pairs of RSUs for which `p2p.Install` is called, in order. -/
def channels : List (ℕ × ℕ) :=
  (List.range 4).flatMap fun i =>
    let k := 1 + i * x.maxLayer
    (if x.disableRsu then [] else [(0, k)]) ++
      (List.range (x.maxLayer - 1)).map fun j => (k + j, k + j + 1)

def status (n : ℕ) : NodeStatus := if x.disableRsu ∧ n = 0 then .inactive else .active

def devices : ℕ → List Device :=
  setupWifiNetDevice x.status (x.channels.foldl installChannel fun _ => [])

/-- The node `n` when the stack is installed; the transmission radius is the default one. -/
def node (n : ℕ) : NodeSpec F where
  type := if n < x.numRsu then .rsu else .vehicle
  status := x.status n
  position := (x.rsuPositions ++ x.vehicles)[n]?
  txRadius := Arith.lit 50
  devices := x.devices n

def nodes : List (NodeSpec F) := (List.range (x.numRsu + x.vehicles.length)).map x.node

/-- Every arm has an RSU to which the crossing can be joined, and node ids do not wrap. -/
structure Fits : Prop where
  layer : 1 ≤ x.maxLayer
  ids : x.numRsu + x.vehicles.length < 4294967295

theorem numRsu_eq : x.numRsu = 1 + 4 * x.maxLayer := by
  simp only [numRsu, rsuPositions, List.length_cons, List.length_append, List.length_map,
    List.length_range']
  omega

/-- The RSU at the crossing is joined to the first of each arm, the others to the next one. -/
theorem mem_channels {a b : ℕ} : (a, b) ∈ x.channels ↔
    (x.disableRsu = false ∧ a = 0 ∧ ∃ i < 4, b = 1 + i * x.maxLayer) ∨
      ∃ i < 4, ∃ j, j + 1 < x.maxLayer ∧ a = 1 + i * x.maxLayer + j ∧ b = a + 1 := by
  simp only [channels, List.mem_flatMap, List.mem_append, List.mem_map, List.mem_range,
    Prod.mk.injEq]
  constructor
  · rintro ⟨i, hi, hcentre | ⟨j, hj, rfl, rfl⟩⟩
    · split at hcentre
      · cases hcentre
      · rename_i hdis
        obtain ⟨rfl, rfl⟩ := Prod.mk.inj (List.mem_singleton.mp hcentre)
        exact Or.inl ⟨by simpa using hdis, rfl, i, hi, rfl⟩
    · exact Or.inr ⟨i, hi, j, by omega, rfl, rfl⟩
  · rintro (⟨hdis, rfl, i, hi, rfl⟩ | ⟨i, hi, j, hj, rfl, rfl⟩)
    · exact ⟨i, hi, Or.inl (by simp [hdis])⟩
    · exact ⟨i, hi, Or.inr ⟨j, by omega, rfl, rfl⟩⟩

variable {x}

/-- Channels join RSUs. -/
theorem Fits.lt_of_mem (hx : x.Fits) {c : ℕ × ℕ} (hc : c ∈ x.channels) :
    c.1 < x.numRsu ∧ c.2 < x.numRsu := by
  have hlayer := hx.layer
  rw [numRsu_eq]
  rcases x.mem_channels.mp hc with ⟨_, h₁, i, hi, h₂⟩ | ⟨i, hi, j, hj, h₁, h₂⟩
  · have hle : i * x.maxLayer ≤ 3 * x.maxLayer := Nat.mul_le_mul_right _ (by omega)
    omega
  · have hle : i * x.maxLayer ≤ 3 * x.maxLayer := Nat.mul_le_mul_right _ (by omega)
    omega

theorem Fits.lt_of_joined (hx : x.Fits) {a b : ℕ} (h : Joined x.channels a b) :
    a < x.numRsu ∧ b < x.numRsu := by
  rcases h with h | h
  · exact hx.lt_of_mem h
  · exact (hx.lt_of_mem h).symm

theorem getElem?_nodes {n : ℕ} {spec : NodeSpec F} :
    x.nodes[n]? = some spec ↔ n < x.numRsu + x.vehicles.length ∧ spec = x.node n := by
  rw [nodes, List.getElem?_map]
  rcases Nat.lt_or_ge n (x.numRsu + x.vehicles.length) with hlt | hge
  · rw [List.getElem?_range hlt]
    simp [hlt, eq_comm]
  · rw [List.getElem?_eq_none (by simpa using hge)]
    simp [not_lt.mpr hge]

theorem mem_devices {n : ℕ} {v : NodeId} : Device.pointToPoint v ∈ x.devices n ↔
    ∃ b, Joined x.channels n b ∧ v = UInt32.ofNat b := by
  rw [← mem_foldl_installChannel, devices, setupWifiNetDevice]
  split <;> simp

theorem count_wifi {n : ℕ} (hactive : x.status n = .active) : (x.devices n).count .wifi = 1 := by
  rw [devices, setupWifiNetDevice, if_pos hactive, List.count_append,
    List.count_eq_zero_of_not_mem (wifi_notMem_foldl_installChannel _ _), List.count_singleton_self]

theorem count_devices {n : ℕ} (v : NodeId) : (x.devices n).count (.pointToPoint v) =
    (x.channels.foldl installChannel (fun _ => []) n).count (.pointToPoint v) := by
  rw [devices, setupWifiNetDevice]
  split
  · have hnone : [Device.wifi].count (.pointToPoint v) = 0 :=
      List.count_eq_zero_of_not_mem (by simp)
    rw [List.count_append, hnone, add_zero]
  · rfl

theorem devicesOf_nodes {n : ℕ} (hn : n < x.nodes.length) (hfits : x.nodes.length < 4294967296) :
    devicesOf x.nodes (UInt32.ofNat n) = x.devices n := by
  have hlt : n < x.numRsu + x.vehicles.length := by simpa [nodes] using hn
  rw [devicesOf, UInt32.toNat_ofNat_of_lt' (hn.trans hfits), getElem?_nodes.mpr ⟨hlt, rfl⟩]
  rfl

/-- The scene as it is built. -/
def topology (hx : x.Fits) : Topology F where
  nodes := x.nodes
  fits := by simpa [nodes] using hx.ids
  paired := by
    have hlength : x.nodes.length = x.numRsu + x.vehicles.length := by simp [nodes]
    have hids := hx.ids
    refine paired_of_lt ?_ ?_
    · intro i hi j hj
      rw [devicesOf_nodes hi (by omega), devicesOf_nodes hj (by omega), count_devices,
        count_devices]
      refine count_foldl_installChannel (by omega) (by omega) fun c hc => ?_
      have hends := hx.lt_of_mem hc
      omega
    · intro spec hspec v hv
      obtain ⟨n, hn⟩ := List.mem_iff_getElem?.mp hspec
      obtain ⟨_, rfl⟩ := getElem?_nodes.mp hn
      obtain ⟨b, hb, rfl⟩ := mem_devices.mp hv
      have hlt := (hx.lt_of_joined hb).2
      rw [UInt32.toNat_ofNat_of_lt' (by change b < 4294967296; omega)]
      omega

theorem active_iff (hx : x.Fits) {n : NodeId} {spec : NodeSpec F} :
    (x.topology hx).active n = some spec ↔
      (n.toNat < x.numRsu + x.vehicles.length ∧ ¬ (x.disableRsu ∧ n.toNat = 0)) ∧
        spec = x.node n.toNat := by
  have hstatus : (x.node n.toNat).status ≠ .inactive ↔ ¬ (x.disableRsu ∧ n.toNat = 0) := by
    change (if x.disableRsu ∧ n.toNat = 0 then NodeStatus.inactive else .active) ≠ .inactive ↔ _
    split <;> simp_all
  rw [Topology.active, Option.filter_eq_some_iff]
  change x.nodes[n.toNat]? = some spec ∧ _ ↔ _
  rw [getElem?_nodes, decide_eq_true_eq]
  constructor
  · rintro ⟨⟨hlt, rfl⟩, hne⟩
    exact ⟨⟨hlt, hstatus.mp hne⟩, rfl⟩
  · rintro ⟨⟨hlt, hne⟩, rfl⟩
    exact ⟨⟨hlt, rfl⟩, hstatus.mpr hne⟩

/-- The RSU at the crossing has no channel while it is under maintenance. -/
theorem pos_of_joined {a b : ℕ} (h : Joined x.channels a b) (hdis : x.disableRsu) : 0 < a := by
  rcases h with h | h
  · rcases x.mem_channels.mp h with ⟨hen, _⟩ | ⟨i, _, j, _, rfl, _⟩
    · exact absurd (hdis.symm.trans hen) (by decide)
    · omega
  · rcases x.mem_channels.mp h with ⟨hen, _⟩ | ⟨i, _, j, _, _, rfl⟩
    · exact absurd (hdis.symm.trans hen) (by decide)
    · omega

theorem active_of_joined (hx : x.Fits) {a b : ℕ} (h : Joined x.channels a b) :
    (x.topology hx).active (UInt32.ofNat a) = some (x.node a) := by
  have hlt := (hx.lt_of_joined h).1
  have hids := hx.ids
  have hid : (UInt32.ofNat a).toNat = a :=
    UInt32.toNat_ofNat_of_lt' (by change a < 4294967296; omega)
  rw [active_iff, hid]
  refine ⟨⟨by omega, fun hzero => ?_⟩, rfl⟩
  have := pos_of_joined h hzero.1
  omega

/-- The links of the graph are the channels. -/
theorem link_iff (hx : x.Fits) {u v : NodeId} {c : ℕ} :
    (x.topology hx).routingInfo.Link u v c ↔ c = 1 ∧ Joined x.channels u.toNat v.toNat := by
  have hids := hx.ids
  constructor
  · intro h
    obtain ⟨rfl, spec, hspec, hdev⟩ := (x.topology hx).link_device h
    obtain ⟨_, rfl⟩ := (active_iff hx).mp hspec
    obtain ⟨b, hb, rfl⟩ := mem_devices.mp hdev
    have hlt := (hx.lt_of_joined hb).2
    rw [UInt32.toNat_ofNat_of_lt' (by change b < 4294967296; omega)]
    exact ⟨rfl, hb⟩
  · rintro ⟨rfl, h⟩
    have hspec := active_of_joined hx h
    rw [UInt32.ofNat_toNat] at hspec
    exact (x.topology hx).link_of_device hspec
      (mem_devices.mpr ⟨v.toNat, h, UInt32.ofNat_toNat.symm⟩)

/-! ### What the channels connect -/

/-- The arm of an RSU that is not at the crossing. -/
def arm (x : Crossroads F) (n : ℕ) : ℕ := (n - 1) / x.maxLayer

/-- Two RSUs that have the crossing, or else their arm, in common. -/
structure Together (x : Crossroads F) (a b : ℕ) : Prop where
  left : a < x.numRsu
  right : b < x.numRsu
  arm : x.disableRsu → 0 < a ∧ 0 < b ∧ x.arm a = x.arm b

theorem arm_eq {i j : ℕ} (hj : j < x.maxLayer) : x.arm (1 + i * x.maxLayer + j) = i := by
  have hsub : 1 + i * x.maxLayer + j - 1 = j + i * x.maxLayer := by omega
  rw [arm, hsub, Nat.add_mul_div_right _ _ (by omega), Nat.div_eq_of_lt hj, zero_add]

theorem exists_arm (hx : x.Fits) {n : ℕ} (hpos : 0 < n) (hn : n < x.numRsu) :
    ∃ j < x.maxLayer, x.arm n < 4 ∧ n = 1 + x.arm n * x.maxLayer + j := by
  have hlayer := hx.layer
  have hdivision := Nat.div_add_mod (n - 1) x.maxLayer
  have hmod := Nat.mod_lt (n - 1) (show x.maxLayer > 0 by omega)
  rw [numRsu_eq] at hn
  refine ⟨(n - 1) % x.maxLayer, hmod, ?_, ?_⟩
  · exact (Nat.div_lt_iff_lt_mul (by omega)).mpr (by omega)
  · rw [arm, mul_comm]
    omega

theorem Fits.together_of_joined (hx : x.Fits) {a b : ℕ} (h : Joined x.channels a b) :
    x.Together a b := by
  obtain ⟨ha, hb⟩ := hx.lt_of_joined h
  refine ⟨ha, hb, fun hdis => ⟨pos_of_joined h hdis, pos_of_joined h.symm hdis, ?_⟩⟩
  have hnext : ∀ {a b : ℕ}, (a, b) ∈ x.channels → x.arm a = x.arm b := by
    intro a b hc
    rcases x.mem_channels.mp hc with ⟨hen, _⟩ | ⟨i, _, j, hj, rfl, rfl⟩
    · exact absurd (hdis.symm.trans hen) (by decide)
    · rw [arm_eq (by omega), add_assoc _ j, arm_eq hj]
  exact h.elim hnext fun hc => (hnext hc).symm

theorem Together.trans {a b c : ℕ} (h : x.Together a b) (h' : x.Together b c) :
    x.Together a c where
  left := h.left
  right := h'.right
  arm hdis := by
    obtain ⟨ha, _, hab⟩ := h.arm hdis
    obtain ⟨_, hc, hbc⟩ := h'.arm hdis
    exact ⟨ha, hc, hab.trans hbc⟩

section Paths

variable (hx : x.Fits)

include hx

theorem link_of_joined {a b : ℕ} (h : Joined x.channels a b) :
    (x.topology hx).routingInfo.Link (UInt32.ofNat a) (UInt32.ofNat b) 1 := by
  obtain ⟨ha, hb⟩ := hx.lt_of_joined h
  have hids := hx.ids
  rw [link_iff, UInt32.toNat_ofNat_of_lt' (by change a < 4294967296; omega),
    UInt32.toNat_ofNat_of_lt' (by change b < 4294967296; omega)]
  exact ⟨rfl, h⟩

theorem reaches_symm {u v : NodeId} (h : Reaches (x.topology hx).routingInfo.Link u v) :
    Reaches (x.topology hx).routingInfo.Link v u := by
  refine h.symm fun u w c hlink => ⟨1, ?_⟩
  exact (link_iff hx).mpr ⟨rfl, ((link_iff hx).mp hlink).2.symm⟩

/-- The first RSU of an arm reaches the others. -/
theorem reaches_along {i j : ℕ} (hi : i < 4) (hj : j < x.maxLayer) :
    Reaches (x.topology hx).routingInfo.Link (UInt32.ofNat (1 + i * x.maxLayer))
      (UInt32.ofNat (1 + i * x.maxLayer + j)) := by
  induction j with
  | zero => exact Reaches.refl _
  | succ j ih =>
      have hchannel : (1 + i * x.maxLayer + j, 1 + i * x.maxLayer + j + 1) ∈ x.channels :=
        x.mem_channels.mpr (Or.inr ⟨i, hi, j, hj, rfl, rfl⟩)
      exact (ih (by omega)).snoc (link_of_joined hx (Or.inl hchannel))

theorem reaches_centre (hen : x.disableRsu = false) {n : ℕ} (hn : n < x.numRsu) :
    Reaches (x.topology hx).routingInfo.Link (UInt32.ofNat 0) (UInt32.ofNat n) := by
  rcases Nat.eq_zero_or_pos n with rfl | hpos
  · exact Reaches.refl _
  · obtain ⟨j, hj, harm, heq⟩ := exists_arm hx hpos hn
    have hchannel : (0, 1 + x.arm n * x.maxLayer) ∈ x.channels :=
      x.mem_channels.mpr (Or.inl ⟨hen, rfl, _, harm, rfl⟩)
    have hfirst := (Reaches.refl _).snoc (link_of_joined hx (Or.inl hchannel))
    rw [heq]
    exact hfirst.trans (reaches_along hx harm hj)

theorem reaches_of_together {a b : ℕ} (h : x.Together a b) :
    Reaches (x.topology hx).routingInfo.Link (UInt32.ofNat a) (UInt32.ofNat b) := by
  cases hdis : x.disableRsu with
  | false =>
      exact (reaches_symm hx (reaches_centre hx hdis h.left)).trans (reaches_centre hx hdis h.right)
  | true =>
      obtain ⟨ha, hb, harm⟩ := h.arm hdis
      obtain ⟨j, hj, hlt, heq⟩ := exists_arm hx ha h.left
      obtain ⟨j', hj', _, heq'⟩ := exists_arm hx hb h.right
      rw [← harm] at heq'
      rw [heq, heq']
      exact (reaches_symm hx (reaches_along hx hlt hj)).trans (reaches_along hx hlt hj')

/-- The backbone connects what has the crossing or an arm in common. -/
theorem reaches_iff {u v : NodeId} : Reaches (x.topology hx).routingInfo.Link u v ↔
    v = u ∨ x.Together u.toNat v.toNat := by
  constructor
  · intro h
    refine h.induct (P := fun v => v = u ∨ x.Together u.toNat v.toNat) (Or.inl rfl) ?_
    rintro v w c _ hv hlink
    have hjoined := hx.together_of_joined ((link_iff hx).mp hlink).2
    rcases hv with rfl | hv
    · exact Or.inr hjoined
    · exact Or.inr (hv.trans hjoined)
  · rintro (rfl | h)
    · exact Reaches.refl v
    · have hreach := reaches_of_together hx h
      rwa [UInt32.ofNat_toNat, UInt32.ofNat_toNat] at hreach

end Paths

end Scene

/-! ### What is in reach of the RSUs -/

section Reach

variable {x : Crossroads ℝ}

theorem isSome_h_iff {r w : ℝ} : (Crossroads.h r w).isSome ↔ w * w ≤ 4 * r * r := by
  constructor
  · intro hsome
    refine le_of_not_gt fun hneg => ?_
    have hlit : (Arith.lit 4 : ℝ) = 4 := by simp [Arith.lit]
    rw [Crossroads.h, hlit, sqrt_eq_none (sub_neg.mpr hneg)] at hsome
    cases hsome
  · intro hroot
    rw [Crossroads.h, PlacementStrategy.sqrt_middle hroot, Option.isSome_some]

theorem dx_eq (x : Crossroads ℝ) : x.dx = 2 * reach x.txRadius (x.roadWidth / 2) :=
  Option.some.inj ((Option.some_get x.number).trans
    (PlacementStrategy.sqrt_middle (isSome_h_iff.mp x.number)))

theorem dx_pos (hw : 0 ≤ x.roadWidth) (hr : x.roadWidth < 2 * x.txRadius) : 0 < x.dx := by
  rw [dx_eq, reach]
  have hpos : 0 < x.txRadius ^ 2 - (x.roadWidth / 2) ^ 2 := by nlinarith
  have hroot := Real.sqrt_pos.mpr hpos
  linarith

/-- The point lies on one of the roads, at the distance `t` along it from the crossing. -/
def OnRoad (x : Crossroads ℝ) (p : Point ℝ) (t : ℝ) : Prop :=
  (|p.y| ≤ x.roadWidth / 2 ∧ |p.x| = t) ∨ (|p.x| ≤ x.roadWidth / 2 ∧ |p.y| = t)

/-- The point is in reach of an active RSU. -/
def InReach (x : Crossroads ℝ) (hx : x.Fits) (p : Point ℝ) : Prop :=
  ∃ n spec pos, (x.topology hx).active n = some spec ∧ spec.type = .rsu ∧
    spec.position = some pos ∧ pos.distanceFromPoint p ≤ x.txRadius

theorem distance_swap (a b c d : ℝ) : Point.distanceFromPoint ⟨a, b⟩ ⟨c, d⟩ =
    Point.distanceFromPoint ⟨b, a⟩ ⟨d, c⟩ := by
  change √((a - c) ^ 2 + (b - d) ^ 2) = √((b - d) ^ 2 + (a - c) ^ 2)
  rw [add_comm]

/-- An RSU in the middle of a road reaches half the spacing along it. -/
theorem distance_le (hr : x.roadWidth < 2 * x.txRadius) {a t y : ℝ}
    (hy : |y| ≤ x.roadWidth / 2) (ht : |t - a| ≤ x.dx / 2) :
    Point.distanceFromPoint ⟨a, 0⟩ ⟨t, y⟩ ≤ x.txRadius := by
  have hside : |y - 0| ≤ x.txRadius := by
    rw [sub_zero]
    linarith
  refine (distance_le_iff (p := ⟨t, y⟩) (q := ⟨a, 0⟩) hside).mpr (ht.trans ?_)
  rw [dx_eq, mul_div_cancel_left₀ _ two_ne_zero]
  refine reach_le (sq_le_sq' ?_ ?_)
  · change -(x.roadWidth / 2) ≤ y - 0
    linarith [neg_abs_le y]
  · change y - 0 ≤ x.roadWidth / 2
    linarith [le_abs_self y]

/-- The nearest multiple of the spacing. -/
theorem exists_multiple (hd : 0 < x.dx) {t : ℝ} (ht : 0 ≤ t)
    (hlt : t < (x.maxLayer + 1 / 2) * x.dx) :
    ∃ k : ℕ, k ≤ x.maxLayer ∧ |t - k * x.dx| ≤ x.dx / 2 ∧ (x.dx / 2 ≤ t → 1 ≤ k) := by
  have hnonneg : 0 ≤ t / x.dx + 1 / 2 := by positivity
  have hlow := Nat.floor_le hnonneg
  have hhigh := Nat.lt_floor_add_one (t / x.dx + 1 / 2)
  refine ⟨⌊t / x.dx + 1 / 2⌋₊, ?_, ?_, ?_⟩
  · rw [← Nat.lt_succ_iff, Nat.floor_lt hnonneg]
    have hdiv := (div_lt_iff₀ hd).mpr hlt
    push_cast
    linarith
  · have hmul : t / x.dx * x.dx = t := div_mul_cancel₀ t hd.ne'
    generalize (⌊t / x.dx + 1 / 2⌋₊ : ℝ) = k at hlow hhigh
    rw [abs_le]
    constructor <;> nlinarith
  · intro hhalf
    rw [Nat.one_le_floor_iff]
    have hdiv : 1 / 2 ≤ t / x.dx := by
      rw [le_div_iff₀ hd]
      linarith
    linarith

/-- The RSU `k` of an arm. -/
def IsArm (x : Crossroads ℝ) (k : ℕ) (q : Point ℝ) : Prop :=
  (q = ⟨k * x.dx, 0⟩ ∨ q = ⟨-(k * x.dx), 0⟩) ∨ q = ⟨0, k * x.dx⟩ ∨ q = ⟨0, -(k * x.dx)⟩

theorem mem_tail_rsuPositions {q : Point ℝ} : q ∈ x.rsuPositions.tail ↔
    ∃ k, 1 ≤ k ∧ k ≤ x.maxLayer ∧ x.IsArm k q := by
  have hlit : ∀ k : ℕ, (Arith.lit k : ℝ) = k ∧ (Arith.lit (-k) : ℝ) = -k := by
    intro k
    constructor <;> simp [Arith.lit]
  have hrange : ∀ k, k ∈ List.range' 1 x.maxLayer ↔ 1 ≤ k ∧ k ≤ x.maxLayer := by
    intro k
    rw [List.mem_range'_1]
    omega
  simp only [rsuPositions, List.tail_cons, List.mem_append, List.mem_map, hrange, (hlit _).1,
    (hlit _).2, neg_mul, IsArm]
  constructor
  · rintro (((⟨k, ⟨h₁, h₂⟩, rfl⟩ | ⟨k, ⟨h₁, h₂⟩, rfl⟩) | ⟨k, ⟨h₁, h₂⟩, rfl⟩) | ⟨k, ⟨h₁, h₂⟩, rfl⟩)
    · exact ⟨k, h₁, h₂, Or.inl (Or.inl rfl)⟩
    · exact ⟨k, h₁, h₂, Or.inl (Or.inr rfl)⟩
    · exact ⟨k, h₁, h₂, Or.inr (Or.inl rfl)⟩
    · exact ⟨k, h₁, h₂, Or.inr (Or.inr rfl)⟩
  · rintro ⟨k, h₁, h₂, (rfl | rfl) | rfl | rfl⟩
    · exact Or.inl (Or.inl (Or.inl ⟨k, ⟨h₁, h₂⟩, rfl⟩))
    · exact Or.inl (Or.inl (Or.inr ⟨k, ⟨h₁, h₂⟩, rfl⟩))
    · exact Or.inl (Or.inr ⟨k, ⟨h₁, h₂⟩, rfl⟩)
    · exact Or.inr ⟨k, ⟨h₁, h₂⟩, rfl⟩

/-- Where the active RSUs stand. -/
theorem inReach_iff (hx : x.Fits) {p : Point ℝ} : x.InReach hx p ↔
    (x.disableRsu = false ∧ Point.distanceFromPoint ⟨0, 0⟩ p ≤ x.txRadius) ∨
      ∃ k q, 1 ≤ k ∧ k ≤ x.maxLayer ∧ x.IsArm k q ∧ q.distanceFromPoint p ≤ x.txRadius := by
  have hids := hx.ids
  constructor
  · rintro ⟨n, spec, pos, hspec, htype, hpos, hnear⟩
    obtain ⟨⟨_, hactive⟩, rfl⟩ := (active_iff hx).mp hspec
    have hn : n.toNat < x.numRsu := by
      by_contra hge
      rw [node, if_neg hge] at htype
      cases htype
    have hlook : x.rsuPositions[n.toNat]? = some pos := by
      rwa [node, List.getElem?_append_left hn] at hpos
    cases hzero : n.toNat with
    | zero =>
        rw [hzero] at hlook hactive
        obtain rfl : (⟨0, 0⟩ : Point ℝ) = pos := Option.some.inj hlook
        exact Or.inl ⟨by simpa using hactive, hnear⟩
    | succ m =>
        rw [hzero] at hlook
        have hmem : pos ∈ x.rsuPositions.tail := by
          refine List.mem_of_getElem? (i := m) ?_
          rwa [List.getElem?_tail]
        obtain ⟨k, h₁, h₂, harm⟩ := mem_tail_rsuPositions.mp hmem
        exact Or.inr ⟨k, pos, h₁, h₂, harm, hnear⟩
  · have hplace : ∀ n q, x.rsuPositions[n]? = some q → ¬ (x.disableRsu ∧ n = 0) →
        q.distanceFromPoint p ≤ x.txRadius → x.InReach hx p := by
      intro n q hlook hactive hnear
      have hn : n < x.numRsu := (List.getElem?_eq_some_iff.mp hlook).1
      have hid : (UInt32.ofNat n).toNat = n :=
        UInt32.toNat_ofNat_of_lt' (by change n < 4294967296; omega)
      refine ⟨UInt32.ofNat n, x.node n, q, (active_iff hx).mpr ⟨?_, by rw [hid]⟩, ?_, ?_, hnear⟩
      · rw [hid]
        exact ⟨by omega, hactive⟩
      · rw [node, if_pos hn]
      · rw [node, List.getElem?_append_left hn, hlook]
    rintro (⟨hen, hnear⟩ | ⟨k, q, h₁, h₂, harm, hnear⟩)
    · exact hplace 0 _ rfl (by simp [hen]) hnear
    · obtain ⟨m, hm⟩ := List.mem_iff_getElem?.mp (mem_tail_rsuPositions.mpr ⟨k, h₁, h₂, harm⟩)
      rw [List.getElem?_tail] at hm
      exact hplace (m + 1) q hm (by simp) hnear

/-- Along an arm every point is in reach of an RSU half a spacing off. -/
theorem inReach_of_onRoad (hx : x.Fits) (hw : 0 ≤ x.roadWidth)
    (hr : x.roadWidth < 2 * x.txRadius) {p : Point ℝ} {t : ℝ} (hroad : x.OnRoad p t)
    (hlt : t < (x.maxLayer + 1 / 2) * x.dx) (hdis : x.disableRsu → x.dx / 2 ≤ t) :
    x.InReach hx p := by
  have ht : 0 ≤ t := by
    rcases hroad with ⟨_, rfl⟩ | ⟨_, rfl⟩
    · exact abs_nonneg _
    · exact abs_nonneg _
  obtain ⟨k, hk, hnear, hone⟩ := exists_multiple (dx_pos hw hr) ht hlt
  have hsign : ∀ c : ℝ, |c| = t → |c - k * x.dx| ≤ x.dx / 2 ∨ |c - -(k * x.dx)| ≤ x.dx / 2 := by
    rintro c rfl
    rcases abs_choice c with habs | habs
    · exact Or.inl (by rwa [habs] at hnear)
    · refine Or.inr ?_
      have hneg : c - -(k * x.dx) = -(-c - k * x.dx) := by ring
      rwa [hneg, abs_neg, ← habs]
  have harm : ∀ q, x.IsArm k q → q.distanceFromPoint p ≤ x.txRadius → x.InReach hx p := by
    intro q hq hle
    rcases Nat.eq_zero_or_pos k with rfl | hpos
    · have hen : x.disableRsu = false := by
        by_contra hne
        exact absurd (hone (hdis (by simpa using hne))) (by omega)
      obtain rfl : q = ⟨0, 0⟩ := by simpa [IsArm] using hq
      exact (inReach_iff hx).mpr (Or.inl ⟨hen, hle⟩)
    · exact (inReach_iff hx).mpr (Or.inr ⟨k, q, hpos, hk, hq, hle⟩)
  rcases hroad with ⟨hy, habs⟩ | ⟨hy, habs⟩
  · rcases hsign p.x habs with hle | hle
    · exact harm _ (Or.inl (Or.inl rfl)) (distance_le hr hy hle)
    · exact harm _ (Or.inl (Or.inr rfl)) (distance_le hr hy hle)
  · rcases hsign p.y habs with hle | hle
    · refine harm _ (Or.inr (Or.inl rfl)) ?_
      exact (distance_swap _ _ p.x p.y).trans_le (distance_le hr hy hle)
    · refine harm _ (Or.inr (Or.inr rfl)) ?_
      exact (distance_swap _ _ p.x p.y).trans_le (distance_le hr hy hle)

/-- Without the RSU at the crossing the crossing is out of reach. -/
theorem not_inReach_centre (hx : x.Fits) (hdis : x.disableRsu) (hw : 0 ≤ x.roadWidth)
    (hr : x.roadWidth ≤ x.txRadius) (hpos : 0 < x.txRadius) : ¬ x.InReach hx ⟨0, 0⟩ := by
  have hfar : x.txRadius < x.dx := by
    have hsq := sq_reach (r := x.txRadius) (a := x.roadWidth / 2) (by
      rw [abs_of_nonneg (by linarith)]
      linarith)
    rw [dx_eq]
    nlinarith [reach_nonneg x.txRadius (x.roadWidth / 2)]
  rw [inReach_iff]
  rintro (⟨hen, _⟩ | ⟨k, q, hk, _, harm, hle⟩)
  · exact absurd (hdis.symm.trans hen) (by decide)
  · have hmul : x.dx ≤ k * x.dx :=
      le_mul_of_one_le_left (hpos.trans hfar).le (Nat.one_le_cast.mpr hk)
    have hdist : q.distanceFromPoint ⟨0, 0⟩ = k * x.dx := by
      have habs : |k * x.dx| = k * x.dx := abs_of_nonneg ((hpos.trans hfar).le.trans hmul)
      rcases harm with (rfl | rfl) | rfl | rfl
      · rw [Point.distance_axis, sub_zero, habs]
      · rw [Point.distance_axis, sub_zero, abs_neg, habs]
      · rw [distance_swap, Point.distance_axis, sub_zero, habs]
      · rw [distance_swap, Point.distance_axis, sub_zero, abs_neg, habs]
    linarith

end Reach

end Crossroads

/-- In the built scene the active RSUs have both roads in reach, out to half a spacing beyond the
last of them and so to at least half a spacing less than the range. Without the RSU at the crossing
this is so from half a spacing on, and the crossing itself is out of reach. -/
theorem crossroads_in_reach {x : Crossroads ℝ} (hx : x.Fits) (hw : 0 ≤ x.roadWidth)
    (hr : x.roadWidth ≤ x.txRadius) (hpos : 0 < x.txRadius) :
    (∀ p t, x.OnRoad p t → t < (x.maxLayer + 1 / 2) * x.dx → (x.disableRsu → x.dx / 2 ≤ t) →
      x.InReach hx p) ∧
    x.maxRange - x.dx / 2 < (x.maxLayer + 1 / 2) * x.dx ∧
    (x.disableRsu → ¬ x.InReach hx ⟨0, 0⟩) := by
  have hr' : x.roadWidth < 2 * x.txRadius := by linarith
  have hdx := Crossroads.dx_pos hw hr'
  refine ⟨fun p t => Crossroads.inReach_of_onRoad hx hw hr', ?_,
    fun hdis => Crossroads.not_inReach_centre hx hdis hw hr hpos⟩
  have hlast : x.maxRange < (x.maxLayer + 1) * x.dx :=
    (div_lt_iff₀ hdx).mp (Nat.lt_floor_add_one (x.maxRange / x.dx))
  linarith

/-! ## A scene under maintenance -/

namespace Maintenance

/-- The constants of the script. A vehicle waits at the crossing. -/
noncomputable def scene : Crossroads ℝ where
  txRadius := (50 : ℕ)
  roadWidth := (21 : ℕ)
  number := Crossroads.isSome_h_iff.mpr (by norm_num)
  maxRange := (400 : ℕ)
  disableRsu := true
  vehicles := [⟨0, 0⟩]

theorem dx_bounds : 97 < scene.dx ∧ scene.dx < 98 := by
  have hsq := sq_reach (r := 50) (a := 21 / 2) (by norm_num [abs_of_pos])
  have hdx : scene.dx = 2 * reach 50 (21 / 2) := by
    rw [Crossroads.dx_eq]
    norm_num [scene]
  have hreach := reach_nonneg 50 (21 / 2)
  rw [hdx]
  constructor <;> nlinarith only [hsq, hreach]

theorem maxLayer : scene.maxLayer = 4 := by
  obtain ⟨hlow, hhigh⟩ := dx_bounds
  change ⌊((400 : ℕ) : ℝ) / scene.dx⌋₊ = 4
  rw [Nat.floor_eq_iff (by positivity), le_div_iff₀ (by linarith), div_lt_iff₀ (by linarith)]
  norm_num
  constructor <;> linarith

theorem numRsu : scene.numRsu = 17 := by
  rw [Crossroads.numRsu_eq, maxLayer]

theorem fits : scene.Fits where
  layer := by
    rw [maxLayer]
    decide
  ids := by
    rw [numRsu]
    decide

end Maintenance

/-- The farthest corner between two RSUs is in reach of both, the crossing of none. -/
theorem crossroads_in_reach_maintenance :
    Maintenance.scene.InReach Maintenance.fits ⟨147, 21 / 2⟩ ∧
      ¬ Maintenance.scene.InReach Maintenance.fits ⟨0, 0⟩ := by
  have hwidth : Maintenance.scene.roadWidth = 21 := Nat.cast_ofNat
  have hradius : Maintenance.scene.txRadius = 50 := Nat.cast_ofNat
  obtain ⟨hlow, hhigh⟩ := Maintenance.dx_bounds
  obtain ⟨hroads, _, hcentre⟩ := crossroads_in_reach Maintenance.fits (by rw [hwidth]; norm_num)
    (by rw [hwidth, hradius]; norm_num) (by rw [hradius]; norm_num)
  refine ⟨hroads ⟨147, 21 / 2⟩ 147 (Or.inl ⟨?_, ?_⟩) ?_ ?_, hcentre rfl⟩
  · rw [hwidth]
    norm_num [abs_of_pos]
  · norm_num [abs_of_pos]
  · rw [Maintenance.maxLayer]
    push_cast
    linarith
  · intro _
    linarith

/-! ## An alert at the crossroads -/

namespace Crossroads

section Backbone

variable {F : Type} [Arith F] [Sqrt F] {x : Crossroads F}

/-- An active RSU is known where it stands. -/
theorem lookup_position (hx : x.Fits) {n : NodeId} (hn : n.toNat < x.numRsu)
    (hactive : ¬ (x.disableRsu ∧ n.toNat = 0)) :
    (x.topology hx).positionInfo.lookup n = x.rsuPositions[n.toNat]? := by
  have hspec : (x.topology hx).active n = some (x.node n.toNat) :=
    (active_iff hx).mpr ⟨⟨by omega, hactive⟩, rfl⟩
  have htype : (x.node n.toNat).type = .rsu := if_pos hn
  obtain ⟨_, hbuilt⟩ := (x.topology hx).built hspec
  refine hbuilt.position.trans ?_
  rw [if_pos htype, node, List.getElem?_append_left hn]

theorem backbone (hx : x.Fits) : (x.topology hx).Backbone where
  oneRadio := by
    intro n spec hspec _
    obtain ⟨⟨_, hactive⟩, rfl⟩ := (active_iff hx).mp hspec
    exact count_wifi (if_neg hactive)
  rsu := by
    intro n v spec hspec hv
    obtain ⟨⟨_, hactive⟩, rfl⟩ := (active_iff hx).mp hspec
    obtain ⟨b, hb, _⟩ := mem_devices.mp hv
    refine ⟨if_pos (hx.lt_of_joined hb).1, List.count_pos_iff.mp ?_⟩
    exact (count_wifi (if_neg hactive)).symm ▸ one_pos
  linked := by
    intro n v spec hspec hv
    obtain ⟨_, rfl⟩ := (active_iff hx).mp hspec
    obtain ⟨b, hb, rfl⟩ := mem_devices.mp hv
    rw [active_of_joined hx hb.symm]
    exact Option.some_ne_none _

/-- Every active RSU has a channel if an arm without the crossing has two. -/
theorem exists_joined (hx : x.Fits) (hlayers : x.disableRsu → 2 ≤ x.maxLayer) {n : ℕ}
    (hn : n < x.numRsu) (hactive : ¬ (x.disableRsu ∧ n = 0)) : ∃ b, Joined x.channels n b := by
  have hlayer := hx.layer
  rcases Nat.eq_zero_or_pos n with rfl | hpos
  · have hen : x.disableRsu = false := by simpa using hactive
    exact ⟨1 + 0 * x.maxLayer, Or.inl (x.mem_channels.mpr (Or.inl ⟨hen, rfl, 0, by omega, rfl⟩))⟩
  · obtain ⟨j, hj, harm, heq⟩ := exists_arm hx hpos hn
    rw [heq]
    by_cases hlast : j + 1 < x.maxLayer
    · exact ⟨_, Or.inl (x.mem_channels.mpr (Or.inr ⟨_, harm, j, hlast, rfl, rfl⟩))⟩
    · cases j with
      | zero =>
          have hen : x.disableRsu = false := by
            by_contra hne
            have := hlayers (by simpa using hne)
            omega
          exact ⟨0, Or.inr (x.mem_channels.mpr (Or.inl ⟨hen, rfl, _, harm, rfl⟩))⟩
      | succ j =>
          exact ⟨_, Or.inr (x.mem_channels.mpr (Or.inr ⟨_, harm, j, hj, rfl, rfl⟩))⟩

/-- What the crossing or an arm joins to an active RSU. -/
theorem reaches_iff_together (hx : x.Fits) {s : NodeId} (hs : s.toNat < x.numRsu)
    (hactive : ¬ (x.disableRsu ∧ s.toNat = 0)) (n : NodeId) :
    Reaches (x.topology hx).routingInfo.Link s n ↔ x.Together s.toNat n.toNat := by
  have hself : x.Together s.toNat s.toNat :=
    ⟨hs, hs, fun hdis => ⟨Nat.pos_of_ne_zero fun hzero => hactive ⟨hdis, hzero⟩,
      Nat.pos_of_ne_zero fun hzero => hactive ⟨hdis, hzero⟩, rfl⟩⟩
  rw [reaches_iff hx]
  constructor
  · rintro (rfl | h)
    · exact hself
    · exact h
  · exact Or.inr

end Backbone

end Crossroads

namespace Maintenance

/-- A zone near the inner RSU of the first arm. -/
noncomputable def zone : ZoR ℝ := .circle ⟨(100 : ℕ), 0⟩ (10 : ℕ)

noncomputable def alert : Data ℝ := ⟨[.zor zone], 100, none, none, none, 0⟩

theorem extractZoR_alert : extractZoR alert.name = some zone := rfl

theorem first : scene.rsuPositions[1]? = some ⟨scene.dx, 0⟩ := by
  rw [Crossroads.rsuPositions, maxLayer]
  simp [Arith.lit]

theorem covers : Covers (scene.topology fits).positionInfo (scene.node 2).txRadius zone 1 := by
  have hlit : (Arith.lit 50 : ℝ) = 50 := by simp [Arith.lit]
  obtain ⟨hlow, hhigh⟩ := dx_bounds
  refine ⟨⟨scene.dx, 0⟩, ?_, ?_⟩
  · rw [Crossroads.lookup_position fits (by rw [numRsu]; decide) (by decide)]
    exact first
  · simp only [zone, ZoR.coveredBy, Crossroads.node, hlit, Point.distance_axis, decide_eq_true_eq]
    rw [abs_le]
    push_cast
    constructor <;> linarith

/-- The radios of the RSUs are in range of each other. -/
def inRange (n m : NodeId) : Bool := n.toNat < 17 ∧ m.toNat < 17

theorem far : (scene.topology fits).VehiclesFar inRange := by
  intro n m spec hrange hspec
  obtain ⟨hn, hm⟩ := of_decide_eq_true hrange
  have htype : ∀ k : NodeId, k.toNat < 17 → (scene.node k.toNat).type = .rsu :=
    fun k hk => if_pos (numRsu ▸ hk)
  rcases hspec with hspec | hspec
  · rw [((Crossroads.active_iff fits).mp hspec).2, htype n hn]
    decide
  · rw [((Crossroads.active_iff fits).mp hspec).2, htype m hm]
    decide

end Maintenance

end Cafe
