import Cafe.Digraph

/-!
# Dijkstra's relaxation with a lazy queue

The search keeps tentative distances, parents and a queue of candidate
pairs in which a node may occur several times. The invariant names the
settled nodes. It holds for nonnegative costs; two of its clauses speak of
positive costs, where the queue also respects the order on the nodes and
the parents left at the end are the canonical ones.
-/

namespace WeightedDigraph

variable {V : Type*}

theorem Walk.mono {E F : V → V → ℕ → Prop} (hEF : ∀ u v c, E u v c → F u v c) {s v : V}
    {vs : List V} {n : ℕ} (h : Walk E s vs v n) : Walk F s vs v n := by
  induction h with
  | nil => exact .nil
  | snoc _ he ih => exact ih.snoc (hEF _ _ _ he)

namespace Dijkstra

/-- Tentative distances, parents and the queue, seen as sets and functions. -/
structure State (V : Type*) where
  dist : V → Option ℕ
  parent : V → Option V
  queue : Set (ℕ × V)

variable {E : V → V → ℕ → Prop} {s : V}

/-- The links along which the search hangs its nodes. -/
def State.Tree (st : State V) (E : V → V → ℕ → Prop) (u v : V) (c : ℕ) : Prop :=
  E u v c ∧ st.parent v = some u

/-- Only the source is known, and it is queued. -/
structure Init (s : V) (st : State V) : Prop where
  source : st.dist s = some 0
  other : ∀ v, v ≠ s → st.dist v = none
  parent : ∀ v, st.parent v = none
  queued : (0, s) ∈ st.queue
  queue : ∀ p ∈ st.queue, p = (0, s)

/-- The order of the queue: by cost, then by node. -/
def Before [LinearOrder V] (k : ℕ) (u : V) (p : ℕ × V) : Prop :=
  k < p.1 ∨ (k = p.1 ∧ u ≤ p.2)

theorem Before.le [LinearOrder V] {k : ℕ} {u : V} {p : ℕ × V} (h : Before k u p) : k ≤ p.1 := by
  rcases h with h | ⟨h, _⟩ <;> omega

/-- The invariant of the search with settled nodes `done`. The links in
`todo` leave the node being processed and are still to be relaxed. -/
structure Inv [LinearOrder V] (E : V → V → ℕ → Prop) (s : V) (done : Set V)
    (todo : V → V → ℕ → Prop) (st : State V) : Prop where
  source : st.dist s = some 0
  rootless : st.parent s = none
  queue : ∀ p ∈ st.queue, ∃ k, st.dist p.2 = some k ∧ k ≤ p.1
  queued : ∀ v k, st.dist v = some k → v ∉ done → (k, v) ∈ st.queue
  known : ∀ u ∈ done, ∃ k, st.dist u = some k ∧ ∀ p ∈ st.queue, k ≤ p.1
  relaxed : ∀ u ∈ done, ∀ v c k, E u v c → ¬ todo u v c → st.dist u = some k →
    ∃ m, st.dist v = some m ∧ m ≤ k + c
  branch : ∀ v k, st.dist v = some k → ∃ vs, Walk (st.Tree E) s vs v k ∧ vs.Nodup ∧
    ∀ x ∈ vs, x ≠ v → x ∈ done
  lex : Positive E → ∀ u ∈ done, ∀ k, st.dist u = some k → ∀ p ∈ st.queue, Before k u p
  canon : Positive E → ∀ v p k m, st.parent v = some p → st.dist p = some k →
    st.dist v = some m → ∀ u ∈ done, ∀ j c, E u v c → ¬ todo u v c → st.dist u = some j →
      j + c = m → Before k p (j, u)

section

variable [LinearOrder V] {done : Set V} {todo : V → V → ℕ → Prop} {st : State V}

theorem Inv.walk (h : Inv E s done todo st) {v : V} {k : ℕ} (hv : st.dist v = some k) :
    ∃ vs, Walk E s vs v k ∧ vs.Nodup ∧ ∀ x ∈ vs, x ≠ v → x ∈ done := by
  obtain ⟨vs, hw, hn, hd⟩ := h.branch v k hv
  exact ⟨vs, hw.mono fun _ _ _ he => he.1, hn, hd⟩

theorem Init.inv (h : Init s st) : Inv E s ∅ (fun _ _ _ => False) st where
  source := h.source
  rootless := h.parent s
  queue := by
    rintro p hp
    obtain rfl := h.queue p hp
    exact ⟨0, h.source, le_rfl⟩
  queued := by
    intro v k hv _
    by_cases hvs : v = s
    · subst hvs
      obtain rfl : 0 = k := Option.some.inj (h.source.symm.trans hv)
      exact h.queued
    · rw [h.other v hvs] at hv
      cases hv
  known := by simp
  relaxed := by simp
  branch := by
    intro v k hv
    by_cases hvs : v = s
    · subst hvs
      obtain rfl : 0 = k := Option.some.inj (h.source.symm.trans hv)
      exact ⟨[v], .nil, by simp, by simp⟩
    · rw [h.other v hvs] at hv
      cases hv
  lex := by simp
  canon := by simp

/-- Dropping a stale pair keeps the invariant. -/
theorem Inv.skip (h : Inv E s done todo st) {k n : ℕ} {u : V} (hu : st.dist u = some n)
    (hk : n < k) {q : Set (ℕ × V)} (hsub : q ⊆ st.queue)
    (hkeep : ∀ p ∈ st.queue, p ≠ (k, u) → p ∈ q) :
    Inv E s done todo { st with queue := q } where
  source := h.source
  rootless := h.rootless
  queue := fun p hp => h.queue p (hsub hp)
  queued := by
    intro v m hv hd
    refine hkeep _ (h.queued v m hv hd) ?_
    intro heq
    obtain ⟨rfl, rfl⟩ := Prod.mk.inj heq
    have := Option.some.inj (hu.symm.trans hv)
    omega
  known := by
    intro v hv
    obtain ⟨m, hm, hle⟩ := h.known v hv
    exact ⟨m, hm, fun p hp => hle p (hsub hp)⟩
  relaxed := h.relaxed
  branch := h.branch
  lex := fun hpos v hv m hm p hp => h.lex hpos v hv m hm p (hsub hp)
  canon := h.canon

/-- The parent of a known node is settled. -/
theorem Inv.parent_done (h : Inv E s done todo st) {v p : V} {m : ℕ} (hv : st.dist v = some m)
    (hp : st.parent v = some p) : p ∈ done := by
  obtain ⟨vs, hw, hnd, hvs⟩ := h.branch v m hv
  cases hw with
  | nil =>
      rw [h.rootless] at hp
      cases hp
  | @snoc vs u _ _ _ hw he =>
      obtain rfl := Option.some.inj (hp.symm.trans he.2)
      have hne : p ≠ v := by
        rintro rfl
        exact (List.nodup_cons.mp hnd).1 hw.mem_last
      exact hvs p (List.mem_cons_of_mem _ hw.mem_last) hne

/-- Settling the first pair of the queue, before any of its links is
relaxed. -/
theorem Inv.settle (h : Inv E s done (fun _ _ _ => False) st) {k : ℕ} {u : V}
    (hu : st.dist u = some k) (hmin : ∀ p ∈ st.queue, Before k u p)
    {q : Set (ℕ × V)} (hsub : q ⊆ st.queue) (hkeep : ∀ p ∈ st.queue, p ≠ (k, u) → p ∈ q) :
    Inv E s (insert u done) (fun x y c => x = u ∧ E x y c) { st with queue := q } where
  source := h.source
  rootless := h.rootless
  queue := fun p hp => h.queue p (hsub hp)
  queued := by
    intro v m hv hd
    rw [Set.mem_insert_iff, not_or] at hd
    refine hkeep _ (h.queued v m hv hd.2) ?_
    intro heq
    exact hd.1 (Prod.mk.inj heq).2
  known := by
    intro v hv
    rcases Set.mem_insert_iff.mp hv with rfl | hv
    · exact ⟨k, hu, fun p hp => (hmin p (hsub hp)).le⟩
    · obtain ⟨m, hm, hle⟩ := h.known v hv
      exact ⟨m, hm, fun p hp => hle p (hsub hp)⟩
  relaxed := by
    intro v hv w c m he hn hm
    rcases Set.mem_insert_iff.mp hv with rfl | hv
    · exact absurd ⟨rfl, he⟩ hn
    · exact h.relaxed v hv w c m he id hm
  branch := by
    intro v m hv
    obtain ⟨vs, hw, hnd, hd⟩ := h.branch v m hv
    exact ⟨vs, hw, hnd, fun x hx hne => Set.mem_insert_of_mem _ (hd x hx hne)⟩
  lex := by
    intro hpos v hv m hm p hp
    rcases Set.mem_insert_iff.mp hv with rfl | hv
    · obtain rfl := Option.some.inj (hu.symm.trans hm)
      exact hmin p (hsub hp)
    · exact h.lex hpos v hv m hm p (hsub hp)
  canon := by
    intro hpos v p j m hp hj hm w hw i c he hn hi heq
    rcases Set.mem_insert_iff.mp hw with rfl | hw
    · exact absurd ⟨rfl, he⟩ hn
    · exact h.canon hpos v p j m hp hj hm w hw i c he id hi heq

end

/-- The node being processed: settled, and no settled node comes after it. -/
structure Latest [LinearOrder V] (E : V → V → ℕ → Prop) (done : Set V) (st : State V) (k : ℕ)
    (u : V) : Prop where
  mem : u ∈ done
  dist : st.dist u = some k
  max : ∀ x ∈ done, ∀ m, st.dist x = some m → m ≤ k
  lex : Positive E → ∀ x ∈ done, ∀ m, st.dist x = some m → Before m x (k, u)

/-- What relaxing a link to `v` with the offer `k + c` from `u` does. -/
structure Improved [DecidableEq V] (k : ℕ) (u v : V) (c : ℕ) (st st' : State V) : Prop where
  lt : ∀ m, st.dist v = some m → k + c < m
  dist : st'.dist = Function.update st.dist v (some (k + c))
  parent : st'.parent = Function.update st.parent v (some u)
  queue : st'.queue = insert (k + c, v) st.queue

section

variable [LinearOrder V] {done : Set V} {todo : V → V → ℕ → Prop} {st st' : State V}
  {k c : ℕ} {u v : V}

theorem Inv.latest (h : Inv E s done todo st) (hq : (k, u) ∈ st.queue) (hu : st.dist u = some k)
    (q : Set (ℕ × V)) : Latest E (insert u done) { st with queue := q } k u where
  mem := Set.mem_insert _ _
  dist := hu
  max := by
    intro x hx m hm
    rcases Set.mem_insert_iff.mp hx with rfl | hx
    · exact (Option.some.inj (hm.symm.trans hu)).le
    · obtain ⟨j, hj, hle⟩ := h.known x hx
      obtain rfl := Option.some.inj (hj.symm.trans hm)
      exact hle _ hq
  lex := by
    intro hpos x hx m hm
    rcases Set.mem_insert_iff.mp hx with rfl | hx
    · exact Or.inr ⟨Option.some.inj (hm.symm.trans hu), le_rfl⟩
    · exact h.lex hpos x hx m hm _ hq

/-- A node that is improved is not settled yet. -/
theorem Improved.not_done (hi : Improved k u v c st st') (h : Inv E s done todo st)
    (hl : Latest E done st k u) : v ∉ done := by
  intro hv
  obtain ⟨m, hm, _⟩ := h.known v hv
  have h1 := hl.max v hv m hm
  have h2 := hi.lt m hm
  omega

theorem Improved.ne_source (hi : Improved k u v c st st') (h : Inv E s done todo st) : s ≠ v := by
  rintro rfl
  have := hi.lt 0 h.source
  omega

theorem Improved.dist_self (hi : Improved k u v c st st') : st'.dist v = some (k + c) := by
  simp [hi.dist]

theorem Improved.parent_self (hi : Improved k u v c st st') : st'.parent v = some u := by
  simp [hi.parent]

theorem Improved.dist_ne (hi : Improved k u v c st st') {x : V} (hx : x ≠ v) :
    st'.dist x = st.dist x := by
  simp [hi.dist, Function.update_of_ne hx]

theorem Improved.parent_ne (hi : Improved k u v c st st') {x : V} (hx : x ≠ v) :
    st'.parent x = st.parent x := by
  simp [hi.parent, Function.update_of_ne hx]

theorem Improved.dist_done (hi : Improved k u v c st st') (hv : v ∉ done) {x : V}
    (hx : x ∈ done) : st'.dist x = st.dist x :=
  hi.dist_ne fun heq => hv (heq ▸ hx)

/-- A walk along the tree that avoids the improved node stays one. -/
theorem Improved.walk (hi : Improved k u v c st st') {vs : List V} {w : V} {n : ℕ}
    (hw : Walk (st.Tree E) s vs w n) (hvs : v ∉ vs) : Walk (st'.Tree E) s vs w n := by
  induction hw with
  | nil => exact .nil
  | @snoc vs x y n e _ hxy ih =>
      rw [List.mem_cons, not_or] at hvs
      refine (ih hvs.2).snoc ⟨hxy.1, ?_⟩
      rw [hi.parent_ne (Ne.symm hvs.1)]
      exact hxy.2

theorem Improved.branch (hi : Improved k u v c st st') (h : Inv E s done todo st)
    (hl : Latest E done st k u) (he : E u v c) {w : V} {m : ℕ} (hw : st'.dist w = some m) :
    ∃ vs, Walk (st'.Tree E) s vs w m ∧ vs.Nodup ∧ ∀ x ∈ vs, x ≠ w → x ∈ done := by
  have hvd := hi.not_done h hl
  by_cases hwv : w = v
  · subst hwv
    obtain rfl := Option.some.inj (hi.dist_self.symm.trans hw)
    obtain ⟨vs, hwalk, hnd, hvs⟩ := h.branch u k hl.dist
    have hall : ∀ x ∈ vs, x ∈ done := by
      intro x hx
      by_cases hxu : x = u
      · exact hxu ▸ hl.mem
      · exact hvs x hx hxu
    have hnotin : w ∉ vs := fun hmem => hvd (hall w hmem)
    refine ⟨w :: vs, (hi.walk hwalk hnotin).snoc ⟨he, hi.parent_self⟩,
      List.nodup_cons.mpr ⟨hnotin, hnd⟩, ?_⟩
    intro x hx hne
    exact hall x ((List.mem_cons.mp hx).resolve_left hne)
  · rw [hi.dist_ne hwv] at hw
    obtain ⟨vs, hwalk, hnd, hvs⟩ := h.branch w m hw
    exact ⟨vs, hi.walk hwalk fun hmem => hvd (hvs v hmem (Ne.symm hwv)), hnd, hvs⟩

theorem Improved.canon (hi : Improved k u v c st st') (h : Inv E s done todo st)
    (hl : Latest E done st k u) (hpos : Positive E) {w p : V} {j m : ℕ}
    (hp : st'.parent w = some p) (hj : st'.dist p = some j) (hm : st'.dist w = some m) {x : V}
    (hx : x ∈ done) {i e : ℕ} (hxw : E x w e) (hn : todo x w e → x = u ∧ w = v ∧ e = c)
    (hxi : st'.dist x = some i) (heq : i + e = m) : Before j p (i, x) := by
  have hvd := hi.not_done h hl
  rw [hi.dist_done hvd hx] at hxi
  by_cases hwv : w = v
  · subst hwv
    obtain rfl := Option.some.inj (hi.parent_self.symm.trans hp)
    obtain rfl := Option.some.inj (hi.dist_self.symm.trans hm)
    rw [hi.dist_done hvd hl.mem, hl.dist] at hj
    obtain rfl := Option.some.inj hj
    by_cases hcur : todo x w e
    · obtain ⟨rfl, _, rfl⟩ := hn hcur
      exact Or.inr ⟨Option.some.inj (hl.dist.symm.trans hxi), le_rfl⟩
    · -- any other settled predecessor would have offered this distance before
      obtain ⟨l, hl', hle⟩ := h.relaxed x hx w e i hxw hcur hxi
      have := hi.lt l hl'
      omega
  · rw [hi.parent_ne hwv] at hp
    rw [hi.dist_ne hwv] at hm
    have hpd := h.parent_done hm hp
    rw [hi.dist_done hvd hpd] at hj
    exact h.canon hpos w p j m hp hj hm x hx i e hxw (fun ht => hwv (hn ht).2.1) hxi heq

/-- Relaxing a link that improves its end takes the link off the list of
those still to do. -/
theorem Improved.inv (hi : Improved k u v c st st') (h : Inv E s done todo st)
    (hl : Latest E done st k u) (he : E u v c) :
    Inv E s done (fun x y e => todo x y e ∧ ¬ (x = u ∧ y = v ∧ e = c)) st' := by
  have hvd := hi.not_done h hl
  have hcases : ∀ {x y e}, ¬ (todo x y e ∧ ¬ (x = u ∧ y = v ∧ e = c)) →
      todo x y e → x = u ∧ y = v ∧ e = c := by
    intro x y e hn ht
    by_contra hc
    exact hn ⟨ht, hc⟩
  refine ⟨?_, ?_, ?_, ?_, ?_, ?_, fun _ _ hw => hi.branch h hl he hw, ?_, ?_⟩
  · rw [hi.dist_ne (hi.ne_source h)]
    exact h.source
  · rw [hi.parent_ne (hi.ne_source h)]
    exact h.rootless
  · intro p hp
    rw [hi.queue] at hp
    rcases Set.mem_insert_iff.mp hp with rfl | hp
    · exact ⟨k + c, hi.dist_self, le_rfl⟩
    · obtain ⟨m, hm, hle⟩ := h.queue p hp
      by_cases hpv : p.2 = v
      · have := hi.lt m (hpv ▸ hm)
        exact ⟨k + c, hpv ▸ hi.dist_self, by omega⟩
      · exact ⟨m, by rw [hi.dist_ne hpv]; exact hm, hle⟩
  · intro w m hw hwd
    rw [hi.queue]
    by_cases hwv : w = v
    · subst hwv
      obtain rfl := Option.some.inj (hi.dist_self.symm.trans hw)
      exact Set.mem_insert _ _
    · rw [hi.dist_ne hwv] at hw
      exact Set.mem_insert_of_mem _ (h.queued w m hw hwd)
  · intro x hx
    obtain ⟨m, hm, hle⟩ := h.known x hx
    refine ⟨m, by rw [hi.dist_done hvd hx]; exact hm, ?_⟩
    intro p hp
    rw [hi.queue] at hp
    rcases Set.mem_insert_iff.mp hp with rfl | hp
    · exact le_trans (hl.max x hx m hm) (Nat.le_add_right k c)
    · exact hle p hp
  · intro x hx w e m hxw hn hm
    rw [hi.dist_done hvd hx] at hm
    by_cases hcur : todo x w e
    · obtain ⟨rfl, rfl, rfl⟩ := hcases hn hcur
      obtain rfl := Option.some.inj (hl.dist.symm.trans hm)
      exact ⟨k + e, hi.dist_self, le_rfl⟩
    · obtain ⟨j, hj, hle⟩ := h.relaxed x hx w e m hxw hcur hm
      by_cases hwv : w = v
      · subst hwv
        have := hi.lt j hj
        exact ⟨k + c, hi.dist_self, by omega⟩
      · exact ⟨j, by rw [hi.dist_ne hwv]; exact hj, hle⟩
  · intro hpos x hx m hm p hp
    rw [hi.dist_done hvd hx] at hm
    rw [hi.queue] at hp
    rcases Set.mem_insert_iff.mp hp with rfl | hp
    · have h1 := hl.max x hx m hm
      have h2 := hpos u v c he
      exact Or.inl (show m < k + c by omega)
    · exact h.lex hpos x hx m hm p hp
  · intro hpos w p j m hp hj hm x hx i e hxw hn hxi heq
    exact hi.canon h hl hpos hp hj hm hx hxw (hcases hn) hxi heq

/-- A link that offers no less than is known may be left alone. -/
theorem Inv.keep (h : Inv E s done todo st) (hl : Latest E done st k u) {m : ℕ}
    (hv : st.dist v = some m) (hle : m ≤ k + c) :
    Inv E s done (fun x y e => todo x y e ∧ ¬ (x = u ∧ y = v ∧ e = c)) st := by
  refine ⟨h.source, h.rootless, h.queue, h.queued, h.known, ?_, h.branch, h.lex, ?_⟩
  · intro x hx w e j hxw hn hj
    by_cases hcur : x = u ∧ w = v ∧ e = c
    · obtain ⟨rfl, rfl, rfl⟩ := hcur
      obtain rfl := Option.some.inj (hl.dist.symm.trans hj)
      exact ⟨m, hv, hle⟩
    · exact h.relaxed x hx w e j hxw (fun ht => hn ⟨ht, hcur⟩) hj
  · intro hpos w p j i hp hj hi x hx l e hxw hn hxl heq
    by_cases hcur : x = u ∧ w = v ∧ e = c
    · -- the parent was settled no later than the node being processed
      obtain ⟨rfl, rfl, rfl⟩ := hcur
      obtain rfl := Option.some.inj (hl.dist.symm.trans hxl)
      exact hl.lex hpos p (h.parent_done hi hp) j hj
    · exact h.canon hpos w p j i hp hj hi x hx l e hxw (fun ht => hn ⟨ht, hcur⟩) hxl heq

theorem Improved.latest (hi : Improved k u v c st st') (h : Inv E s done todo st)
    (hl : Latest E done st k u) : Latest E done st' k u where
  mem := hl.mem
  dist := by
    rw [hi.dist_done (hi.not_done h hl) hl.mem]
    exact hl.dist
  max := by
    intro x hx m hm
    rw [hi.dist_done (hi.not_done h hl) hx] at hm
    exact hl.max x hx m hm
  lex := by
    intro hpos x hx m hm
    rw [hi.dist_done (hi.not_done h hl) hx] at hm
    exact hl.lex hpos x hx m hm

/-- Links may be put back on the list of those still to do. -/
theorem Inv.weaken {todo' : V → V → ℕ → Prop} (h : Inv E s done todo st)
    (hsub : ∀ x y e, E x y e → todo x y e → todo' x y e) : Inv E s done todo' st where
  source := h.source
  rootless := h.rootless
  queue := h.queue
  queued := h.queued
  known := h.known
  relaxed := fun x hx w e j hxw hn => h.relaxed x hx w e j hxw fun ht => hn (hsub x w e hxw ht)
  branch := h.branch
  lex := h.lex
  canon := fun hpos w p j m hp hj hm x hx i e hxw hn =>
    h.canon hpos w p j m hp hj hm x hx i e hxw fun ht => hn (hsub x w e hxw ht)

/-! ## The end of the search -/

section Finished

variable (h : Inv E s done (fun _ _ _ => False) st) (hq : st.queue = ∅)
include h hq

theorem Inv.mem_done {v : V} {n : ℕ} (hv : st.dist v = some n) : v ∈ done := by
  by_contra hd
  have := h.queued v n hv hd
  rw [hq] at this
  exact this

theorem Inv.le_walk {v : V} {vs : List V} {n : ℕ} (hw : Walk E s vs v n) :
    ∃ m, st.dist v = some m ∧ m ≤ n := by
  induction hw with
  | nil => exact ⟨0, h.source, le_rfl⟩
  | @snoc vs u v n c _ he ih =>
      obtain ⟨m, hm, hle⟩ := ih
      obtain ⟨j, hj, hjle⟩ := h.relaxed u (h.mem_done hq hm) v c m he id hm
      exact ⟨j, hj, by omega⟩

/-- The distances left at the end are the distances of the digraph. -/
theorem Inv.dist_iff {v : V} {n : ℕ} : st.dist v = some n ↔ IsDist E s v n := by
  have hsound : ∀ {m}, st.dist v = some m → IsDist E s v m := by
    intro m hm
    obtain ⟨vs, hw, _⟩ := h.walk hm
    refine ⟨⟨vs, hw⟩, fun ws k hk => ?_⟩
    obtain ⟨j, hj, hle⟩ := h.le_walk hq hk
    obtain rfl := Option.some.inj (hm.symm.trans hj)
    exact hle
  constructor
  · exact hsound
  · intro hd
    obtain ⟨⟨vs, hw⟩, _⟩ := id hd
    obtain ⟨m, hm, _⟩ := h.le_walk hq hw
    rw [hm, (hsound hm).unique hd]

theorem Inv.dist_none_iff {v : V} : st.dist v = none ↔ ¬ Reaches E s v := by
  constructor
  · intro hn hr
    obtain ⟨n, hd⟩ := hr.exists_isDist
    rw [(h.dist_iff hq).mpr hd] at hn
    cases hn
  · intro hr
    cases hv : st.dist v with
    | none => rfl
    | some n => exact absurd ((h.dist_iff hq).mp hv).reaches hr

/-- With positive costs the parents left at the end are the canonical ones. -/
theorem Inv.parent_canonical (hpos : Positive E) {v p : V} {n : ℕ} (hv : st.dist v = some n)
    (hp : st.parent v = some p) : Parent E s v p := by
  obtain ⟨vs, hw, _, _⟩ := h.branch v n hv
  cases hw with
  | nil =>
      rw [h.rootless] at hp
      cases hp
  | @snoc vs u _ k c hw he =>
      obtain rfl := Option.some.inj (hp.symm.trans he.2)
      have hwE := hw.mono (F := E) fun _ _ _ he => he.1
      obtain ⟨j, hj, hle⟩ := h.le_walk hq hwE
      have hjd := (h.dist_iff hq).mp hj
      have hvd := (h.dist_iff hq).mp hv
      have hkj : k + c = j + c := by
        have := hjd.le_add he.1 hvd
        omega
      refine ⟨j, ⟨hjd, c, he.1, by rw [← hkj]; exact hvd⟩, ?_⟩
      rintro q i ⟨hqd, e, hqe, hqv⟩
      have hqi := (h.dist_iff hq).mpr hqd
      have hie : i + e = k + c := hqv.unique hvd
      exact h.canon hpos v p j (k + c) hp hj hv q (h.mem_done hq hqi) i e hqe id hqi hie

end Finished

end

end Dijkstra

end WeightedDigraph
