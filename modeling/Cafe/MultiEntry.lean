import Cafe.MulticastTree

/-!
# Several entries

Several RSUs hear a vehicle and get the alert without destinations. Each
computes its own shares, and a relay that gets two copies keeps the share of
the first one only. The covered RSUs are all served as long as no wired copy
is dropped before the covered RSUs in its share have broadcast the alert.
-/

open Labelled WeightedDigraph

namespace Cafe

variable {F : Type} [Arith F]

namespace Net

/-- A copy with destinations that arrives at an RSU with the alert, and is
dropped there, names no covered RSU that has not broadcast the alert. -/
def Kept (infra : Infrastructure F) (sites : NodeId → Site F) (name : Name F) (zor : ZoR F)
    (net : Net F) (c : Copy F) : Prop :=
  c.data.destinationNodes.isSome → (∃ node, net.nodes c.dst = some node ∧
    node.ctx.alertStore.isDuplicate name) →
  ∀ d ∈ c.share, Destinations.Covers infra.positionInfo (sites d).txRadius zor d →
    0 < (net.egressesOf d name).count (sites d).v2i

/-- A copy is delivered, and no share is lost with it. -/
def KeptDelivery (infra : Infrastructure F) (medium : Medium F) (sites : NodeId → Site F)
    (name : Name F) (zor : ZoR F) (net : Net F) (c : Copy F) (net' : Net F) : Prop :=
  Delivery infra medium net c net' ∧ Kept infra sites name zor net c

theorem Refines.kept {infra : Infrastructure F} {sites : NodeId → Site F} {name : Name F}
    {zor : ZoR F} {dest : NodeId → DestinationNodes} {net : Net F}
    {st : Multicast.State NodeId} {c : Copy F}
    (h : Refines infra.routingInfo sites name dest net st) (hc : c ∈ net.inFlight)
    (hkept : Kept infra sites name zor net c) :
    (token dest c).relayed → (token dest c).dst ∈ st.visited → ∀ d ∈ (token dest c).share,
      Destinations.Covers infra.positionInfo (sites d).txRadius zor d → d ∈ st.served := by
  intro htag hvisited d hd hcovers
  obtain ⟨node, hnode, _, hdup, _⟩ := h.rsu c.dst (h.copies c hc).2
  rw [token_eq_share htag] at hd
  have hpos := hkept htag ⟨node, hnode, hdup.mpr hvisited⟩ d hd hcovers
  rw [h.served] at hpos
  exact List.count_pos_iff.mp hpos

/-- An entry computes all covered RSUs that it reaches. -/
theorem Finds.covers {infra : Infrastructure F} {sites : NodeId → Site F} {zor : ZoR F}
    {dest : NodeId → DestinationNodes} (h : Finds infra sites zor dest) {n d : NodeId}
    (hreach : Reaches infra.routingInfo.Link n d)
    (hcovers : Destinations.Covers infra.positionInfo (sites n).txRadius zor d) : d ∈ dest n := by
  obtain ⟨bound, hbound⟩ := h.returns n
  have hspec := (computeDestinationNodes_spec infra.routingInfo infra.positionInfo
    (sites n).txRadius n zor).2 bound (dest n) (hbound bound le_rfl)
  exact (hspec.covered ⟨d, hreach, hcovers⟩ d).mpr ⟨hreach, hcovers⟩

end Net

theorem Mira.IsHop.reaches {G : Graph} {s d c : NodeId} (h : Mira.IsHop G s d c) :
    Reaches G.Link s c ∧ Reaches G.Link c d := by
  obtain ⟨e, m, hlink, hdist, _⟩ := h.shortest
  exact ⟨(Reaches.refl s).snoc hlink, hdist.reaches⟩

/-- If no share is lost, every covered RSU behind an entry has broadcast the
alert when all copies have been delivered. -/
theorem multi_entry_complete {infra : Infrastructure F} {medium : Medium F}
    {sites : NodeId → Site F} {txRadius : F} {name : Name F} {zor : ZoR F} {net₀ net : Net F}
    {cs : List (Copy F)} (hG : infra.routingInfo.Routable)
    (hnet : Net.Deployed infra medium sites name zor net₀)
    (hradius : ∀ n, (sites n).txRadius = txRadius)
    (hentries : ∀ c ∈ net₀.inFlight, c.data.destinationNodes = none)
    (hrun : Run (Net.KeptDelivery infra medium sites name zor) net₀ cs net)
    (hdone : net.inFlight = [])
    {d : NodeId} (hcovers : Destinations.Covers infra.positionInfo txRadius zor d)
    (hreach : ∃ c ∈ net₀.inFlight, Reaches infra.routingInfo.Link c.dst d) :
    0 < (net.egressesOf d name).count (sites d).v2i := by
  obtain ⟨dest, hfinds⟩ := Net.exists_finds infra sites zor
  obtain ⟨st, hst, href⟩ := (hnet.refines dest).run (Q := fun st t => t.relayed →
      t.dst ∈ st.visited → ∀ d ∈ t.share,
        Destinations.Covers infra.positionInfo txRadius zor d → d ∈ st.served)
    hG hnet.wires hfinds hnet.zone hnet.geographic
      (fun _ _ _ h hc hkept hrelayed hvisited d hd hcovers =>
      h.kept hc hkept hrelayed hvisited d hd (by rwa [hradius])) hrun
  have hinit : Multicast.Entries infra.routingInfo.Link
      ((net₀.inFlight.map (Net.token dest)).map Multicast.Token.dst)
      (Destinations.Covers infra.positionInfo txRadius zor)
      ⟨net₀.inFlight.map (Net.token dest), [], []⟩ := by
    apply Multicast.Entries.initial
    · intro t ht
      obtain ⟨c, hc, rfl⟩ := List.mem_map.mp ht
      simp [Net.token, hentries c hc]
    · intro t ht d hcovers hreach
      obtain ⟨c, hc, rfl⟩ := List.mem_map.mp ht
      simp only [Net.token, hentries c hc, Option.getD_none]
      exact hfinds.covers hreach (by rwa [hradius])
  have hfinal := Multicast.Entries.run (fun _ _ _ h => h.reaches) hinit hst
  have htokens : st.tokens = [] := by
    rw [href.tokens, hdone]
    rfl
  obtain ⟨c, hc, hcd⟩ := hreach
  have hserved : d ∈ st.served := hfinal.complete htokens hcovers
    ⟨c.dst, by simpa [Net.token] using ⟨c, hc, rfl⟩, hcd⟩
  rw [href.served]
  exact List.count_pos_iff.mpr hserved

namespace Wired

/-- The copy of a vehicle's transmission that an entry hears. -/
noncomputable def heard (n : NodeId) : Copy ℝ :=
  ⟨n, 256, ⟨name, 100, some .vehicle, some ⟨100, 0⟩, none, 0⟩, 0⟩

/-- The copy with the share `S`, sent by `m` to `n`. -/
def share (positions : NodePosition ℝ) (m n : NodeId) (S : DestinationNodes) (uid : ℕ) : Copy ℝ :=
  ⟨n, 257, ⟨name, 100, some .rsu, positions.lookup m, some S, uid⟩, 0⟩

def shares (entries : List (Σ _ : FaceId, DestinationNodes)) (h : (entries.map Sigma.fst).Nodup) :
    UnorderedMap FaceId DestinationNodes := ⟨entries, h⟩

theorem near : Pair.zone.coveredBy ⟨0, 0⟩ 1 = true := by
  simp [Pair.zone, ZoR.coveredBy, Point.distance_axis]
  norm_num

theorem far : Pair.zone.coveredBy ⟨100, 0⟩ 1 = false := by
  simp [Pair.zone, ZoR.coveredBy, Point.distance_axis]
  norm_num

section Search

open Destinations

variable {positions : NodePosition ℝ}

theorem compute_near (b : Found ℝ) {n : NodeId} (hn : positions.lookup n = some ⟨0, 0⟩) :
    (compute positions 1 Pair.zone b n).dstNodes = b.dstNodes.insert n := by
  simp [compute, hn, near]

theorem compute_far (b : Found ℝ) {n : NodeId} (hn : positions.lookup n = some ⟨100, 0⟩) :
    (compute positions 1 Pair.zone b n).dstNodes = b.dstNodes := by
  simp only [compute, hn, far, Bool.false_eq_true, if_false]
  split <;> rfl

end Search

end Wired

/-! ## Two entries that lose nothing -/

namespace Twin

def positions : NodePosition ℝ where
  entries := [⟨0, ⟨0, 0⟩⟩, ⟨1, ⟨0, 0⟩⟩]
  nodupKeys := by
    unfold List.NodupKeys
    decide

def infra : Infrastructure ℝ := ⟨Wired.pair, positions⟩

def share (m n : NodeId) (S : DestinationNodes) (uid : ℕ) : Copy ℝ :=
  Wired.share positions m n S uid

section Search

open Destinations

theorem finds_zero : computeDestinationNodes 16 Wired.pair positions 1 0 Pair.zone =
    .ok [1, 0] := by
  have hvisits : bfs Wired.pair (∅ : NodePosition ℝ) 0 .neighbor 16
      (visit ∅ 0 .neighbor ⟨[], [], Found.init ℝ⟩ 0) = .ok ⟨[0, 1], [], Found.init ℝ⟩ := rfl
  refine computeDestinationNodes_eq hvisits ?_ (by simp)
  simp only [List.foldl_cons, List.foldl_nil]
  rw [Wired.compute_near _ rfl, Wired.compute_near _ rfl]
  rfl

theorem finds_one : computeDestinationNodes 16 Wired.pair positions 1 1 Pair.zone = .ok [0, 1] := by
  have hvisits : bfs Wired.pair (∅ : NodePosition ℝ) 0 .neighbor 16
      (visit ∅ 0 .neighbor ⟨[], [], Found.init ℝ⟩ 1) = .ok ⟨[1, 0], [], Found.init ℝ⟩ := rfl
  refine computeDestinationNodes_eq hvisits ?_ (by simp)
  simp only [List.foldl_cons, List.foldl_nil]
  rw [Wired.compute_near _ rfl, Wired.compute_near _ rfl]
  rfl

end Search

noncomputable def log₁ :=
  Wired.logged infra 0 (Wired.heard 0).data [1, 0] (Wired.shares [⟨257, [1]⟩] (by decide))

noncomputable def log₂ := log₁ ++
  Wired.logged infra 1 (Wired.heard 1).data [0, 1] (Wired.shares [⟨257, [0]⟩] (by decide))

theorem has_broadcast {visited : List NodeId} {inFlight : List (Copy ℝ)} {n : NodeId}
    (hn : n = 0 ∨ n = 1) :
    0 < ((Wired.state infra visited inFlight log₂).egressesOf n Wired.name).count 256 := by
  have hmem : ∃ tx ∈ log₂, tx.sender = n ∧ tx.data.name = Wired.name ∧ tx.egress = 256 := by
    rcases hn with rfl | rfl
    · exact ⟨_, List.mem_append_left _ List.mem_cons_self, rfl, rfl, rfl⟩
    · exact ⟨_, List.mem_append_right _ List.mem_cons_self, rfl, rfl, rfl⟩
  obtain ⟨tx, htx, hsender, hname, hegress⟩ := hmem
  refine List.count_pos_iff.mpr (List.mem_map.mpr ⟨tx, List.mem_filter.mpr ⟨htx, ?_⟩, hegress⟩)
  simp [hsender, hname]

theorem run : Run (Net.KeptDelivery infra (Wired.medium Wired.pair) (fun _ => Wired.site)
      Wired.name Pair.zone) (Wired.state infra [] [Wired.heard 0, Wired.heard 1] [])
    [Wired.heard 0, Wired.heard 1, share 0 1 [1] 1, share 1 0 [0] 3]
    (Wired.state infra [0, 1, 1, 0] [] log₂) := by
  have hfaces : ∀ e ∈ infra.routingInfo.entries, ∀ face ∈ e.2, face.faceId ≠ 256 := by decide
  have hentry : ∀ (n : NodeId) (net : Net ℝ), Net.Kept infra (fun _ => Wired.site) Wired.name
      Pair.zone net (Wired.heard n) := fun _ _ htag => by cases htag
  have hkept : ∀ (m n : NodeId) (uid : ℕ) (visited : List NodeId) (inFlight : List (Copy ℝ)),
      n = 0 ∨ n = 1 → Net.Kept infra (fun _ => Wired.site) Wired.name Pair.zone
        (Wired.state infra visited inFlight log₂) (share m n [n] uid) := by
    intro m n uid visited inFlight hn _ _ d hd _
    obtain rfl := List.mem_singleton.mp hd
    exact has_broadcast hn
  have d0 : destinations 16 infra (Wired.heard 0).data Pair.zone (Wired.rsu infra 0) = .ok [1, 0] :=
    finds_zero
  have d1 : destinations 16 infra (Wired.heard 1).data Pair.zone (Wired.rsu infra 1) = .ok [0, 1] :=
    finds_one
  have m0 : mira 16 Wired.pair [1] 0 = .ok (Wired.shares [⟨257, [1]⟩] (by decide)) := rfl
  have m1 : mira 16 Wired.pair [0] 1 = .ok (Wired.shares [⟨257, [0]⟩] (by decide)) := rfl
  have s1 : Net.Delivery infra (Wired.medium Wired.pair)
      (Wired.state infra [] [Wired.heard 0, Wired.heard 1] []) (Wired.heard 0)
      (Wired.state infra [0] [Wired.heard 1, share 0 1 [1] 1] log₁) :=
    Wired.visit (c := Wired.heard 0) hfaces [] [Wired.heard 1] rfl (by decide) (by decide) rfl d0 m0
      rfl
  have s2 : Net.Delivery infra (Wired.medium Wired.pair)
      (Wired.state infra [0] [Wired.heard 1, share 0 1 [1] 1] log₁) (Wired.heard 1)
      (Wired.state infra [1, 0] [share 0 1 [1] 1, share 1 0 [0] 3] log₂) :=
    Wired.visit (c := Wired.heard 1) hfaces [] [share 0 1 [1] 1] rfl (by decide) (by decide) rfl d1
      m1 rfl
  have s3 : Net.Delivery infra (Wired.medium Wired.pair)
      (Wired.state infra [1, 0] [share 0 1 [1] 1, share 1 0 [0] 3] log₂) (share 0 1 [1] 1)
      (Wired.state infra [1, 1, 0] [share 1 0 [0] 3] log₂) :=
    Wired.drop (c := share 0 1 [1] 1) [] [share 1 0 [0] 3] rfl (by decide) (by decide) rfl
  have s4 : Net.Delivery infra (Wired.medium Wired.pair)
      (Wired.state infra [1, 1, 0] [share 1 0 [0] 3] log₂) (share 1 0 [0] 3)
      (Wired.state infra [0, 1, 1, 0] [] log₂) :=
    Wired.drop (c := share 1 0 [0] 3) [] [] rfl (by decide) (by decide) rfl
  exact (((Run.nil.snoc ⟨s1, hentry 0 _⟩).snoc ⟨s2, hentry 1 _⟩).snoc
    ⟨s3, hkept 0 1 1 _ _ (Or.inr rfl)⟩).snoc ⟨s4, hkept 1 0 3 _ _ (Or.inl rfl)⟩

end Twin

theorem multi_entry_complete_two :
    0 < ((Wired.state Twin.infra [0, 1, 1, 0] [] Twin.log₂).egressesOf 1 Wired.name).count 256 := by
  have hnet : Net.Deployed Twin.infra (Wired.medium Wired.pair) (fun _ => Wired.site) Wired.name
      Pair.zone (Wired.state Twin.infra [] [Wired.heard 0, Wired.heard 1] []) := by
    refine Wired.deployed (by decide) fun c hc => ?_
    rcases List.mem_cons.mp hc with rfl | hc
    · exact ⟨rfl, by decide⟩
    · obtain rfl := List.mem_singleton.mp hc
      exact ⟨rfl, by decide⟩
  refine multi_entry_complete (d := 1) Wired.pair_routable hnet (fun _ => rfl) ?_ Twin.run rfl
    ⟨⟨0, 0⟩, rfl, Wired.near⟩
      ⟨Wired.heard 1, List.mem_cons_of_mem _ (List.mem_singleton_self _), Reaches.refl 1⟩
  intro c hc
  rcases List.mem_cons.mp hc with rfl | hc
  · rfl
  · obtain rfl := List.mem_singleton.mp hc
    rfl

/-! ## Two entries that lose an RSU

The RSUs 2, 3 and 4 cover the zone. Entry 0 leaves 4 to the share of 3, and
entry 1 leaves it to the share of 2. Each of the two has the alert already
when that share arrives.
-/

namespace Fork

def graph : Graph where
  entries := [⟨0, [⟨257, 3, 1⟩, ⟨258, 5, 1⟩]⟩, ⟨1, [⟨257, 2, 1⟩, ⟨258, 3, 1⟩]⟩,
    ⟨2, [⟨257, 4, 1⟩, ⟨258, 1, 1⟩, ⟨259, 5, 1⟩]⟩, ⟨3, [⟨257, 0, 1⟩, ⟨258, 4, 1⟩, ⟨259, 1, 1⟩]⟩,
    ⟨4, [⟨257, 3, 1⟩, ⟨258, 2, 1⟩]⟩, ⟨5, [⟨257, 0, 1⟩, ⟨258, 2, 1⟩]⟩]
  nodupKeys := by
    unfold List.NodupKeys
    decide

def positions : NodePosition ℝ where
  entries := [⟨0, ⟨100, 0⟩⟩, ⟨1, ⟨100, 0⟩⟩, ⟨2, ⟨0, 0⟩⟩, ⟨3, ⟨0, 0⟩⟩, ⟨4, ⟨0, 0⟩⟩, ⟨5, ⟨100, 0⟩⟩]
  nodupKeys := by
    unfold List.NodupKeys
    decide

section Search

open Destinations

theorem visits_zero : bfs graph (∅ : NodePosition ℝ) 0 .neighbor 24
    (visit ∅ 0 .neighbor ⟨[], [], Found.init ℝ⟩ 0) =
      .ok ⟨[0, 3, 5, 4, 1, 2], [], Found.init ℝ⟩ := rfl

theorem visits_one : bfs graph (∅ : NodePosition ℝ) 0 .neighbor 24
    (visit ∅ 0 .neighbor ⟨[], [], Found.init ℝ⟩ 1) =
      .ok ⟨[1, 2, 3, 4, 5, 0], [], Found.init ℝ⟩ := rfl

theorem finds_zero : computeDestinationNodes 24 graph positions 1 0 Pair.zone = .ok [2, 4, 3] := by
  refine computeDestinationNodes_eq visits_zero ?_ (by simp)
  simp only [List.foldl_cons, List.foldl_nil]
  rw [Wired.compute_near _ rfl, Wired.compute_far _ rfl, Wired.compute_near _ rfl,
    Wired.compute_far _ rfl,
    Wired.compute_near _ rfl, Wired.compute_far _ rfl]
  rfl

theorem finds_one : computeDestinationNodes 24 graph positions 1 1 Pair.zone = .ok [4, 3, 2] := by
  refine computeDestinationNodes_eq visits_one ?_ (by simp)
  simp only [List.foldl_cons, List.foldl_nil]
  rw [Wired.compute_far _ rfl, Wired.compute_far _ rfl, Wired.compute_near _ rfl,
    Wired.compute_near _ rfl,
    Wired.compute_near _ rfl, Wired.compute_far _ rfl]
  rfl

end Search

def infra : Infrastructure ℝ := ⟨graph, positions⟩

/-- The copy with the share `S`, sent by `m` to `n`. -/
def share (m n : NodeId) (S : DestinationNodes) (uid : ℕ) : Copy ℝ :=
  Wired.share positions m n S uid

theorem faces_ne : ∀ e ∈ infra.routingInfo.entries, ∀ face ∈ e.2, face.faceId ≠ 256 := by
  decide

noncomputable def log₁ := Wired.logged infra 0 (Wired.heard 0).data [2, 4, 3]
  (Wired.shares [⟨258, [2]⟩, ⟨257, [3, 4]⟩] (by decide))

noncomputable def log₂ := log₁ ++ Wired.logged infra 1 (Wired.heard 1).data [4, 3, 2]
  (Wired.shares [⟨258, [3]⟩, ⟨257, [2, 4]⟩] (by decide))

noncomputable def log₃ := log₂ ++ Wired.logged infra 3 (share 1 3 [3] 2).data [3]
  (Wired.shares [] (by decide))

noncomputable def log₄ := log₃ ++ Wired.logged infra 5 (share 0 5 [2] 0).data [2]
  (Wired.shares [⟨258, [2]⟩] (by decide))

noncomputable def log₅ := log₄ ++ Wired.logged infra 2 (share 5 2 [2] 5).data [2]
  (Wired.shares [] (by decide))

theorem run : Run (Net.Delivery infra (Wired.medium graph))
    (Wired.state infra [] [Wired.heard 0, Wired.heard 1] [])
    [Wired.heard 0, Wired.heard 1, share 1 3 [3] 2, share 0 5 [2] 0, share 5 2 [2] 5,
    share 0 3 [3, 4] 1,
      share 1 2 [2, 4] 3] (Wired.state infra [2, 3, 2, 5, 3, 1, 0] [] log₅) := by
  have d0 : destinations 24 infra (Wired.heard 0).data Pair.zone (Wired.rsu infra 0) =
      .ok [2, 4, 3] :=
    finds_zero
  have d1 : destinations 24 infra (Wired.heard 1).data Pair.zone (Wired.rsu infra 1) =
      .ok [4, 3, 2] :=
    finds_one
  have m0 : mira 24 graph [2, 4, 3] 0 =
      .ok (Wired.shares [⟨258, [2]⟩, ⟨257, [3, 4]⟩] (by decide)) := rfl
  have m1 : mira 24 graph [4, 3, 2] 1 =
      .ok (Wired.shares [⟨258, [3]⟩, ⟨257, [2, 4]⟩] (by decide)) := rfl
  have m2 : mira 24 graph [] 2 = .ok (Wired.shares [] (by decide)) := rfl
  have m3 : mira 24 graph [] 3 = .ok (Wired.shares [] (by decide)) := rfl
  have m5 : mira 24 graph [2] 5 = .ok (Wired.shares [⟨258, [2]⟩] (by decide)) := rfl
  have s1 : Net.Delivery infra (Wired.medium graph)
      (Wired.state infra [] [Wired.heard 0, Wired.heard 1] [])
      (Wired.heard 0)
        (Wired.state infra [0] [Wired.heard 1, share 0 5 [2] 0, share 0 3 [3, 4] 1] log₁) :=
    Wired.visit (c := Wired.heard 0) faces_ne [] [Wired.heard 1] rfl (by decide)
      (by decide) rfl d0 m0 rfl
  have s2 : Net.Delivery infra (Wired.medium graph)
      (Wired.state infra [0] [Wired.heard 1, share 0 5 [2] 0, share 0 3 [3, 4] 1] log₁)
        (Wired.heard 1)
      (Wired.state infra [1, 0]
        [share 0 5 [2] 0, share 0 3 [3, 4] 1, share 1 3 [3] 2, share 1 2 [2, 4] 3] log₂) :=
    Wired.visit (c := Wired.heard 1) faces_ne [] [share 0 5 [2] 0, share 0 3 [3, 4] 1] rfl
      (by decide)
      (by decide) rfl d1 m1 rfl
  have s3 : Net.Delivery infra (Wired.medium graph) (Wired.state infra [1, 0]
        [share 0 5 [2] 0, share 0 3 [3, 4] 1, share 1 3 [3] 2, share 1 2 [2, 4] 3] log₂)
      (share 1 3 [3] 2) (Wired.state infra [3, 1, 0]
        [share 0 5 [2] 0, share 0 3 [3, 4] 1, share 1 2 [2, 4] 3] log₃) :=
    Wired.visit (c := share 1 3 [3] 2) faces_ne [share 0 5 [2] 0, share 0 3 [3, 4] 1]
      [share 1 2 [2, 4] 3] rfl (by decide) (by decide) rfl rfl m3 rfl
  have s4 : Net.Delivery infra (Wired.medium graph) (Wired.state infra [3, 1, 0]
        [share 0 5 [2] 0, share 0 3 [3, 4] 1, share 1 2 [2, 4] 3] log₃) (share 0 5 [2] 0)
      (Wired.state infra [5, 3, 1, 0]
        [share 0 3 [3, 4] 1, share 1 2 [2, 4] 3, share 5 2 [2] 5] log₄) :=
    Wired.visit (c := share 0 5 [2] 0) faces_ne [] [share 0 3 [3, 4] 1, share 1 2 [2, 4] 3] rfl
      (by decide) (by decide) rfl rfl m5 rfl
  have s5 : Net.Delivery infra (Wired.medium graph) (Wired.state infra [5, 3, 1, 0]
        [share 0 3 [3, 4] 1, share 1 2 [2, 4] 3, share 5 2 [2] 5] log₄) (share 5 2 [2] 5)
      (Wired.state infra [2, 5, 3, 1, 0] [share 0 3 [3, 4] 1, share 1 2 [2, 4] 3] log₅) :=
    Wired.visit (c := share 5 2 [2] 5) faces_ne [share 0 3 [3, 4] 1, share 1 2 [2, 4] 3] [] rfl
      (by decide) (by decide) rfl rfl m2 rfl
  have s6 : Net.Delivery infra (Wired.medium graph) (Wired.state infra [2, 5, 3, 1, 0]
        [share 0 3 [3, 4] 1, share 1 2 [2, 4] 3] log₅) (share 0 3 [3, 4] 1)
      (Wired.state infra [3, 2, 5, 3, 1, 0] [share 1 2 [2, 4] 3] log₅) :=
    Wired.drop (c := share 0 3 [3, 4] 1) [] [share 1 2 [2, 4] 3] rfl (by decide) (by decide) rfl
  have s7 : Net.Delivery infra (Wired.medium graph) (Wired.state infra [3, 2, 5, 3, 1, 0]
        [share 1 2 [2, 4] 3] log₅) (share 1 2 [2, 4] 3)
      (Wired.state infra [2, 3, 2, 5, 3, 1, 0] [] log₅) :=
    Wired.drop (c := share 1 2 [2, 4] 3) [] [] rfl (by decide) (by decide) rfl
  exact ((((((Run.nil.snoc s1).snoc s2).snoc s3).snoc s4).snoc s5).snoc s6).snoc s7

theorem silent :
    (Wired.state infra [2, 3, 2, 5, 3, 1, 0] [] log₅).egressesOf 4 Wired.name = [] := by
  simp only [Net.egressesOf, Wired.state, List.map_eq_nil_iff, List.filter_eq_nil_iff]
  intro tx htx
  simp only [log₅, log₄, log₃, log₂, log₁, Wired.logged, List.mem_append, List.mem_map] at htx
  have hsender : tx.sender ≠ 4 := by
    rcases htx with (((⟨_, _, rfl⟩ | ⟨_, _, rfl⟩) | ⟨_, _, rfl⟩) | ⟨_, _, rfl⟩) | ⟨_, _, rfl⟩ <;>
      simp
  simp [hsender]

end Fork

theorem multi_entry_incomplete : ∃ (infra : Infrastructure ℝ) (medium : Medium ℝ)
    (sites : NodeId → Site ℝ) (name : Name ℝ) (zor : ZoR ℝ) (net₀ net : Net ℝ)
    (cs : List (Copy ℝ)) (d : NodeId),
    infra.routingInfo.Routable ∧
    (∀ u v c, infra.routingInfo.Link u v c → infra.routingInfo.Link v u c) ∧
    (∀ n ∈ infra.routingInfo, n ∈ infra.positionInfo) ∧
    Net.Deployed infra medium sites name zor net₀ ∧ (∀ n, (sites n).txRadius = 1) ∧
    (∀ c ∈ net₀.inFlight, c.data.destinationNodes = none) ∧
    Run (Net.Delivery infra medium) net₀ cs net ∧ net.inFlight = [] ∧
    Destinations.Covers infra.positionInfo 1 zor d ∧
    (∃ c ∈ net₀.inFlight, Reaches infra.routingInfo.Link c.dst d) ∧
    net.egressesOf d name = [] := by
  have hlink : ∀ u v, (∃ e ∈ Fork.graph.entries, e.1 = u ∧ ∃ face ∈ e.2, face.remoteNodeId = v ∧
      face.linkCost = 1) → Fork.graph.Link u v 1 := by
    rintro u v ⟨⟨_, faces⟩, he, rfl, face, hmem, hremote, hcost⟩
    exact ⟨faces, (List.mem_dlookup_iff Fork.graph.nodupKeys).mpr he, face, hmem, hremote,
      by rw [hcost]; rfl⟩
  have hsymm : ∀ u v c, Fork.graph.Link u v c → Fork.graph.Link v u c := by
    have hall : ∀ u v c, Fork.graph.Link u v c → c = 1 ∧ ∃ e ∈ Fork.graph.entries, e.1 = v ∧
        ∃ face ∈ e.2, face.remoteNodeId = u ∧ face.linkCost = 1 := Graph.forall_links (by decide)
    intro u v c h
    obtain ⟨rfl, hback⟩ := hall u v c h
    exact hlink v u hback
  refine ⟨Fork.infra, Wired.medium Fork.graph, fun _ => Wired.site, Wired.name, Pair.zone,
    Wired.state Fork.infra [] [Wired.heard 0, Wired.heard 1] [], _, _, 4,
    Graph.routable_unit (by decide) (by decide) (by decide) (by decide) (by decide), hsymm,
    Graph.forall_nodes (by decide), ?_, fun _ => rfl, ?_, Fork.run, rfl, ?_, ?_, Fork.silent⟩
  · refine Wired.deployed Fork.faces_ne fun c hc => ?_
    rcases List.mem_cons.mp hc with rfl | hc
    · exact ⟨rfl, by decide⟩
    · obtain rfl := List.mem_singleton.mp hc
      exact ⟨rfl, by decide⟩
  · intro c hc
    rcases List.mem_cons.mp hc with rfl | hc
    · rfl
    · obtain rfl := List.mem_singleton.mp hc
      rfl
  · exact ⟨⟨0, 0⟩, rfl, Wired.near⟩
  · refine ⟨Wired.heard 0, List.mem_cons_self, ?_⟩
    exact ((Reaches.refl 0).snoc (hlink 0 3 (by decide))).snoc (hlink 3 4 (by decide))

end Cafe
