import Mathlib.Logic.Relation
import Mathlib.Order.Basic
import Mathlib.Data.Nat.Find
import Mathlib.Tactic

/-!
# Weighted digraphs, distances and the canonical shortest-path tree

A digraph is a relation `E u v c`: some link leads from `u` to `v` at cost
`c`. Parallel links and loops are allowed. The canonical parent of a node
is its tight predecessor of least distance, ties broken by the order on
the nodes. The tree from a root, cut below one of its nodes, is again the
canonical tree from that node.
-/

namespace WeightedDigraph

variable {V : Type*} {E : V → V → ℕ → Prop}

/-- A walk from `s`, its vertices listed latest first. -/
inductive Walk (E : V → V → ℕ → Prop) (s : V) : List V → V → ℕ → Prop
  | nil : Walk E s [s] s 0
  | snoc {vs : List V} {u v : V} {n c : ℕ} :
      Walk E s vs u n → E u v c → Walk E s (v :: vs) v (n + c)

/-- Some walk leads from `s` to `v`. -/
def Reaches (E : V → V → ℕ → Prop) (s v : V) : Prop :=
  ∃ vs n, Walk E s vs v n

/-- The least cost of a walk from `s` to `v` is `n`. -/
def IsDist (E : V → V → ℕ → Prop) (s v : V) (n : ℕ) : Prop :=
  (∃ vs, Walk E s vs v n) ∧ ∀ vs m, Walk E s vs v m → n ≤ m

/-- Every link has a positive cost. -/
def Positive (E : V → V → ℕ → Prop) : Prop :=
  ∀ u v c, E u v c → 0 < c

theorem Walk.mem_last {s v : V} {vs : List V} {n : ℕ} (h : Walk E s vs v n) : v ∈ vs := by
  cases h <;> simp

theorem Walk.reaches {s v : V} {vs : List V} {n : ℕ} (h : Walk E s vs v n) : Reaches E s v :=
  ⟨vs, n, h⟩

/-- Every vertex of a walk is reachable from its start. -/
theorem Walk.reaches_mem {s v x : V} {vs : List V} {n : ℕ} (h : Walk E s vs v n) (hx : x ∈ vs) :
    Reaches E s x := by
  induction h with
  | nil =>
      obtain rfl := List.mem_singleton.mp hx
      exact ⟨[x], 0, .nil⟩
  | snoc hw he ih =>
      rcases List.mem_cons.mp hx with rfl | hx
      · exact (hw.snoc he).reaches
      · exact ih hx

theorem Walk.single {s v : V} {c : ℕ} (he : E s v c) : Walk E s [v, s] v c := by
  have hw := Walk.nil.snoc he
  rwa [Nat.zero_add] at hw

theorem Reaches.refl (s : V) : Reaches E s s := ⟨[s], 0, .nil⟩

theorem Reaches.snoc {s u v : V} {c : ℕ} (h : Reaches E s u) (he : E u v c) : Reaches E s v := by
  obtain ⟨vs, n, hw⟩ := h
  exact ⟨v :: vs, n + c, hw.snoc he⟩

theorem Walk.append {s u v : V} {vs ws : List V} {n m : ℕ} (h : Walk E s vs u n)
    (hw : Walk E u ws v m) : ∃ xs, Walk E s xs v (n + m) := by
  induction hw with
  | nil => exact ⟨vs, h⟩
  | @snoc ws x y k c _ he ih =>
      obtain ⟨xs, hx⟩ := ih
      exact ⟨y :: xs, by simpa [Nat.add_assoc] using hx.snoc he⟩

/-- A walk leads to each of its vertices at no greater cost. -/
theorem Walk.exists_suffix {s v x : V} {vs : List V} {n : ℕ} (h : Walk E s vs v n) (hx : x ∈ vs) :
    ∃ ws m, Walk E s ws x m ∧ ws.Sublist vs ∧ m ≤ n := by
  induction h with
  | nil =>
      obtain rfl := List.mem_singleton.mp hx
      exact ⟨[x], 0, .nil, List.Sublist.refl _, le_rfl⟩
  | @snoc vs u v n c hw he ih =>
      rcases List.mem_cons.mp hx with rfl | hx
      · exact ⟨x :: vs, n + c, hw.snoc he, List.Sublist.refl _, le_rfl⟩
      · obtain ⟨ws, m, hws, hsub, hle⟩ := ih hx
        exact ⟨ws, m, hws, hsub.cons v, by omega⟩

/-- Cycles can be cut out of a walk. -/
theorem Walk.exists_simple {s v : V} {vs : List V} {n : ℕ} (h : Walk E s vs v n) :
    ∃ ws m, Walk E s ws v m ∧ ws.Nodup ∧ m ≤ n := by
  classical
  induction h with
  | nil => exact ⟨[s], 0, .nil, List.nodup_singleton s, le_rfl⟩
  | @snoc vs u v n c _ he ih =>
      obtain ⟨ws, m, hws, hnd, hle⟩ := ih
      by_cases hv : v ∈ ws
      · obtain ⟨xs, k, hxs, hsub, hk⟩ := hws.exists_suffix hv
        exact ⟨xs, k, hxs, hnd.sublist hsub, by omega⟩
      · exact ⟨v :: ws, m + c, hws.snoc he, List.nodup_cons.mpr ⟨hv, hnd⟩, by omega⟩

theorem Reaches.trans {s u v : V} (h : Reaches E s u) (hv : Reaches E u v) : Reaches E s v := by
  obtain ⟨vs, n, hw⟩ := h
  obtain ⟨ws, m, hw'⟩ := hv
  obtain ⟨xs, hx⟩ := hw.append hw'
  exact hx.reaches

/-- What holds at the start and follows every link holds wherever a walk
leads. -/
theorem Reaches.induct {s : V} {P : V → Prop} (h0 : P s)
    (hstep : ∀ u v c, Reaches E s u → P u → E u v c → P v) {v : V} (h : Reaches E s v) : P v := by
  obtain ⟨vs, n, hw⟩ := h
  induction hw with
  | nil => exact h0
  | snoc hw he ih => exact hstep _ _ _ hw.reaches ih he

theorem Reaches.symm {s v : V} (hsymm : ∀ u w c, E u w c → ∃ c', E w u c')
    (h : Reaches E s v) : Reaches E v s := by
  refine Reaches.induct (P := fun v => Reaches E v s) (Reaches.refl s) ?_ h
  intro u w c _ hu he
  obtain ⟨c', he'⟩ := hsymm u w c he
  exact ((Reaches.refl w).snoc he').trans hu

theorem IsDist.unique {s v : V} {n m : ℕ} (hn : IsDist E s v n) (hm : IsDist E s v m) : n = m := by
  obtain ⟨⟨vs, hvs⟩, hle⟩ := hn
  obtain ⟨⟨ws, hws⟩, hle'⟩ := hm
  exact le_antisymm (hle ws m hws) (hle' vs n hvs)

theorem IsDist.reaches {s v : V} {n : ℕ} (h : IsDist E s v n) : Reaches E s v := by
  obtain ⟨⟨vs, hvs⟩, _⟩ := h
  exact hvs.reaches

theorem Reaches.exists_isDist {s v : V} (h : Reaches E s v) : ∃ n, IsDist E s v n := by
  classical
  have hex : ∃ n vs, Walk E s vs v n := by
    obtain ⟨vs, n, hw⟩ := h
    exact ⟨n, vs, hw⟩
  refine ⟨Nat.find hex, Nat.find_spec hex, ?_⟩
  intro vs m hw
  exact Nat.find_min' hex ⟨vs, hw⟩

theorem isDist_self (s : V) : IsDist E s s 0 := ⟨⟨[s], .nil⟩, fun _ _ _ => Nat.zero_le _⟩

/-- One more link never beats the distance. -/
theorem IsDist.le_add {s u v : V} {n m c : ℕ} (hu : IsDist E s u n) (he : E u v c)
    (hv : IsDist E s v m) : m ≤ n + c := by
  obtain ⟨⟨vs, hvs⟩, _⟩ := hu
  exact hv.2 _ _ (hvs.snoc he)

theorem IsDist.le_trans {s u v : V} {n m k : ℕ} (hu : IsDist E s u n) (huv : IsDist E u v m)
    (hv : IsDist E s v k) : k ≤ n + m := by
  obtain ⟨⟨vs, hvs⟩, _⟩ := hu
  obtain ⟨⟨ws, hws⟩, _⟩ := huv
  obtain ⟨xs, hxs⟩ := hvs.append hws
  exact hv.2 _ _ hxs

/-! ## The canonical tree -/

section Canonical

variable [LinearOrder V]

/-- `q`, at distance `k`, ends a shortest walk to `v` before its last link. -/
def Tight (E : V → V → ℕ → Prop) (s v q : V) (k : ℕ) : Prop :=
  IsDist E s q k ∧ ∃ c, E q v c ∧ IsDist E s v (k + c)

/-- The tight predecessor that comes first by distance and then by node. -/
def Parent (E : V → V → ℕ → Prop) (s v p : V) : Prop :=
  ∃ n, Tight E s v p n ∧ ∀ q k, Tight E s v q k → n < k ∨ (n = k ∧ p ≤ q)

/-- `a` lies on the canonical path from `s` to `v`. -/
def OnPath (E : V → V → ℕ → Prop) (s a v : V) : Prop :=
  Relation.ReflTransGen (Parent E s) v a

/-- `c` is the first node after `s` on the canonical path to `v`. -/
def FirstHop (E : V → V → ℕ → Prop) (s v c : V) : Prop :=
  Parent E s c s ∧ OnPath E s c v

theorem Parent.unique {s v p q : V} (hp : Parent E s v p) (hq : Parent E s v q) : p = q := by
  obtain ⟨n, htp, hlp⟩ := hp
  obtain ⟨m, htq, hlq⟩ := hq
  have h1 := hlp q m htq
  have h2 := hlq p n htp
  rcases h1 with h1 | ⟨rfl, h1⟩
  · omega
  · rcases h2 with h2 | ⟨-, h2⟩
    · omega
    · exact le_antisymm h1 h2

theorem Parent.dist_lt (hpos : Positive E) {s v p : V} {n m : ℕ} (h : Parent E s v p)
    (hn : IsDist E s p n) (hm : IsDist E s v m) : n < m := by
  obtain ⟨k, ⟨hk, c, he, hd⟩, _⟩ := h
  have hc := hpos p v c he
  have hnk := hn.unique hk
  have hmk := hm.unique hd
  omega

theorem Parent.reaches {s v p : V} (h : Parent E s v p) : Reaches E s v := by
  obtain ⟨_, ⟨_, _, _, hd⟩, _⟩ := h
  exact hd.reaches

/-- The root of the tree has no parent. -/
theorem not_parent_root (hpos : Positive E) (s p : V) : ¬ Parent E s s p := by
  intro h
  obtain ⟨k, ⟨hk, _⟩, _⟩ := id h
  have := h.dist_lt hpos hk (isDist_self s)
  omega

theorem OnPath.refl (s v : V) : OnPath E s v v := Relation.ReflTransGen.refl

theorem OnPath.trans {s a b v : V} (hab : OnPath E s a b) (hbv : OnPath E s b v) :
    OnPath E s a v := Relation.ReflTransGen.trans hbv hab

theorem OnPath.cons {s a v p : V} (hp : Parent E s v p) (h : OnPath E s a p) : OnPath E s a v :=
  Relation.ReflTransGen.head hp h

/-- A node on the path is the end of the path or lies on the parent's path. -/
theorem OnPath.parent {s a v : V} (h : OnPath E s a v) (hne : v ≠ a) :
    ∃ p, Parent E s v p ∧ OnPath E s a p := by
  rcases Relation.ReflTransGen.cases_head h with heq | ⟨p, hp, hpa⟩
  · exact absurd heq hne
  · exact ⟨p, hp, hpa⟩

/-- Distances add up through every node of the canonical path. -/
theorem OnPath.dist_add {s a v : V} (ha : Reaches E s a) (h : OnPath E s a v) :
    ∃ n m, IsDist E s a n ∧ IsDist E a v m ∧ IsDist E s v (n + m) := by
  induction h using Relation.ReflTransGen.head_induction_on with
  | refl =>
      obtain ⟨n, hn⟩ := ha.exists_isDist
      exact ⟨n, 0, hn, isDist_self a, hn⟩
  | @head v p hp _ ih =>
      obtain ⟨n, m, hn, hm, hnm⟩ := ih
      obtain ⟨k, ⟨hk, c, he, hd⟩, _⟩ := hp
      have hkn := hk.unique hnm
      subst hkn
      refine ⟨n, m + c, hn, ⟨?_, ?_⟩, by simpa [Nat.add_assoc] using hd⟩
      · obtain ⟨⟨vs, hvs⟩, _⟩ := hm
        exact ⟨_, hvs.snoc he⟩
      · intro vs k hw
        obtain ⟨⟨us, hus⟩, _⟩ := hn
        obtain ⟨xs, hxs⟩ := hus.append hw
        have hle := hd.2 _ _ hxs
        omega

theorem OnPath.reaches {s a v : V} (ha : Reaches E s a) (h : OnPath E s a v) : Reaches E a v := by
  obtain ⟨_, _, _, hm, _⟩ := h.dist_add ha
  exact hm.reaches

theorem OnPath.dist_le {s a v : V} {n m : ℕ} (h : OnPath E s a v) (hn : IsDist E s a n)
    (hm : IsDist E s v m) : n ≤ m := by
  obtain ⟨n', m', hn', _, hd⟩ := h.dist_add hn.reaches
  have h1 := hn.unique hn'
  have h2 := hm.unique hd
  omega

/-- A child of `a` is not above `a`. -/
theorem Parent.not_onPath (hpos : Positive E) {s a c : V} (hp : Parent E s c a) :
    ¬ OnPath E s c a := by
  intro h
  obtain ⟨n, ⟨hn, _, _, hd⟩, _⟩ := id hp
  have hlt := hp.dist_lt hpos hn hd
  have hle := h.dist_le hd hn
  omega

/-- The canonical parent from `s` is the canonical parent from any node
above it: the tree below a node is the tree of that node. -/
theorem Parent.from_above {s a v p : V} (ha : Reaches E s a) (h : OnPath E s a p)
    (hp : Parent E s v p) : Parent E a v p := by
  obtain ⟨n, m, hn, hm, hnm⟩ := h.dist_add ha
  obtain ⟨n', m', hn', hm', hnm'⟩ := (OnPath.cons hp h).dist_add ha
  obtain rfl := hn.unique hn'
  obtain ⟨k, ⟨hk, c, he, hd⟩, hleast⟩ := hp
  obtain rfl := hk.unique hnm
  have hm'c : m' = m + c := by
    have := hd.unique hnm'
    omega
  subst hm'c
  refine ⟨m, ⟨hm, c, he, hm'⟩, ?_⟩
  rintro q k ⟨hk, e, hqe, hqd⟩
  have hke : k + e = m + c := hqd.unique hm'
  -- a predecessor tight from `a` is tight from `s`, its distance shifted by that of `a`
  obtain ⟨j, hj⟩ := (ha.trans hk.reaches).exists_isDist
  have hj1 : j ≤ n + k := hn.le_trans hk hj
  have hj2 := hj.le_add hqe hd
  have hjk : j = n + k := by omega
  subst hjk
  have hsum : n + k + e = n + m + c := by omega
  rcases hleast q (n + k) ⟨hj, e, hqe, by rw [hsum]; exact hd⟩ with hlt | ⟨heq, hle⟩
  · exact Or.inl (by omega)
  · exact Or.inr ⟨by omega, hle⟩

theorem Parent.to_above (hpos : Positive E) {s a v q : V} (ha : Reaches E s a)
    (h : OnPath E s a v) (hq : Parent E a v q) : Parent E s v q ∧ OnPath E s a q := by
  have hne : v ≠ a := by
    rintro rfl
    exact not_parent_root hpos _ _ hq
  obtain ⟨p, hp, hpa⟩ := h.parent hne
  obtain rfl := (hp.from_above ha hpa).unique hq
  exact ⟨hp, hpa⟩

theorem OnPath.from_above {s a c v : V} (ha : Reaches E s a) (hac : OnPath E s a c)
    (hcv : OnPath E s c v) : OnPath E a c v := by
  induction hcv using Relation.ReflTransGen.head_induction_on with
  | refl => exact OnPath.refl a c
  | @head v p hp hpc ih => exact OnPath.cons (hp.from_above ha (hac.trans hpc)) ih

theorem OnPath.to_above (hpos : Positive E) {s a c v : V} (ha : Reaches E s a)
    (hav : OnPath E s a v) (hcv : OnPath E a c v) : OnPath E s c v ∧ OnPath E s a c := by
  induction hcv using Relation.ReflTransGen.head_induction_on with
  | refl => exact ⟨OnPath.refl s c, hav⟩
  | @head v p hp _ ih =>
      obtain ⟨hp', hap⟩ := hp.to_above hpos ha hav
      exact ⟨OnPath.cons hp' (ih hap).1, (ih hap).2⟩

/-- The first hop from a node of the tree is its child towards the target. -/
theorem firstHop_iff (hpos : Positive E) {s a d c : V} (ha : Reaches E s a)
    (had : OnPath E s a d) :
    FirstHop E a d c ↔ Parent E s c a ∧ OnPath E s c d := by
  constructor
  · rintro ⟨hp, hcd⟩
    obtain ⟨hcd', hac⟩ := OnPath.to_above hpos ha had hcd
    exact ⟨(hp.to_above hpos ha hac).1, hcd'⟩
  · rintro ⟨hp, hcd⟩
    have hac : OnPath E s a c := OnPath.cons hp (OnPath.refl s a)
    exact ⟨hp.from_above ha (OnPath.refl s a), OnPath.from_above ha hac hcd⟩

/-- Two nodes above `v` are comparable. -/
theorem OnPath.comparable {s a b v : V} (ha : OnPath E s a v) (hb : OnPath E s b v) :
    OnPath E s a b ∨ OnPath E s b a := by
  induction ha using Relation.ReflTransGen.head_induction_on with
  | refl => exact Or.inr hb
  | @head v p hp hpa ih =>
      by_cases hvb : v = b
      · subst hvb
        exact Or.inl (OnPath.cons hp hpa)
      · obtain ⟨q, hq, hqb⟩ := hb.parent hvb
        obtain rfl := hp.unique hq
        exact ih hqb

theorem FirstHop.unique (hpos : Positive E) {s d c c' : V} (h : FirstHop E s d c)
    (h' : FirstHop E s d c') : c = c' := by
  obtain ⟨hp, hc⟩ := h
  obtain ⟨hp', hc'⟩ := h'
  by_contra hne
  rcases hc.comparable hc' with hcc | hcc
  · obtain ⟨p, hpp, hpc⟩ := hcc.parent (Ne.symm hne)
    obtain rfl := hpp.unique hp'
    exact hp.not_onPath hpos hpc
  · obtain ⟨p, hpp, hpc⟩ := hcc.parent hne
    obtain rfl := hpp.unique hp
    exact hp'.not_onPath hpos hpc

/-! ### Every reachable node is in the tree -/

omit [LinearOrder V] in
/-- A shortest walk that leaves the root ends with a tight link. -/
theorem IsDist.exists_tight {s v : V} {n : ℕ} (h : IsDist E s v n) (hne : v ≠ s) :
    ∃ q k, Tight E s v q k := by
  obtain ⟨⟨vs, hw⟩, hleast⟩ := id h
  cases hw with
  | nil => exact absurd rfl hne
  | @snoc ws u _ k c hws he =>
      refine ⟨u, k, ⟨⟨ws, hws⟩, fun us m hus => ?_⟩, c, he, h⟩
      have := hleast _ _ (hus.snoc he)
      omega

theorem Reaches.exists_parent [WellFoundedLT V] {s v : V} (h : Reaches E s v) (hne : v ≠ s) :
    ∃ p, Parent E s v p := by
  classical
  obtain ⟨n, hn⟩ := h.exists_isDist
  obtain ⟨q, k, htight⟩ := hn.exists_tight hne
  have hex : ∃ k q, Tight E s v q k := ⟨k, q, htight⟩
  obtain ⟨p, hp, hmin⟩ := wellFounded_lt.has_min {q | Tight E s v q (Nat.find hex)}
    (Nat.find_spec hex)
  refine ⟨p, Nat.find hex, hp, fun q' k' hq' => ?_⟩
  rcases lt_or_eq_of_le (Nat.find_min' hex ⟨q', hq'⟩) with hlt | heq
  · exact Or.inl hlt
  · exact Or.inr ⟨heq, not_lt.mp (hmin q' (by rw [heq]; exact hq'))⟩

/-- The canonical path from the root reaches every reachable node. -/
theorem Reaches.onPath [WellFoundedLT V] (hpos : Positive E) {s v : V} (h : Reaches E s v) :
    OnPath E s s v := by
  obtain ⟨n, hn⟩ := h.exists_isDist
  induction n using Nat.strong_induction_on generalizing v with
  | _ n ih =>
      by_cases hvs : v = s
      · subst hvs
        exact OnPath.refl v v
      · obtain ⟨p, hp⟩ := h.exists_parent hvs
        obtain ⟨k, ⟨hk, _⟩, _⟩ := id hp
        exact OnPath.cons hp (ih k (hp.dist_lt hpos hk hn) hk.reaches hk)

end Canonical

end WeightedDigraph
