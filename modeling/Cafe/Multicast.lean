import Cafe.Digraph
import Cafe.Runs

/-!
# Multicast by splitting

A token carries the targets that lie behind a node. A node that gets its
first token serves itself, if it is among the targets, and splits the other
targets among its neighbours. A node drops every later token.
-/

open Labelled WeightedDigraph

namespace Multicast

structure Token (V : Type*) where
  dst : V
  share : List V
  /-- A node has sent the token. -/
  relayed : Bool

structure State (V : Type*) where
  tokens : List (Token V)
  visited : List V
  served : List V

variable {V : Type*} {E : V → V → ℕ → Prop} {hop : V → V → V → Prop}

/-- The tokens that `x` sends for the targets other than itself. The hop of
a target is the neighbour that its token goes to. -/
structure Split (E : V → V → ℕ → Prop) (hop : V → V → V → Prop) (x : V) (targets : List V)
    (sent : List (Token V)) : Prop where
  nodup : (sent.map Token.dst).Nodup
  relayed : ∀ t ∈ sent, t.relayed
  nonempty : ∀ t ∈ sent, ∃ d, d ∈ t.share
  mem : ∀ t ∈ sent, ∀ d ∈ t.share, d ∈ targets ∧ d ≠ x ∧ hop x d t.dst
  covers : ∀ d ∈ targets, d ≠ x → Reaches E x d → ∃ t ∈ sent, d ∈ t.share

inductive Step [DecidableEq V] (E : V → V → ℕ → Prop) (hop : V → V → V → Prop) (st : State V) :
    Token V → State V → Prop
  | visit {t : Token V} {pre post sent : List (Token V)} (htokens : st.tokens = pre ++ t :: post)
      (hnew : t.dst ∉ st.visited) (hsplit : Split E hop t.dst t.share sent) :
      Step E hop st t ⟨pre ++ post ++ sent, st.visited ++ [t.dst],
        if t.dst ∈ t.share then st.served ++ [t.dst] else st.served⟩
  | drop {t : Token V} {pre post : List (Token V)} (htokens : st.tokens = pre ++ t :: post)
      (hold : t.dst ∈ st.visited) :
      Step E hop st t ⟨pre ++ post, st.visited, st.served⟩

/-- Where keys are unique, filtering by the key of an element leaves it alone. -/
theorem filter_key_eq {α : Type*} [DecidableEq V] {key : α → V} {l : List α}
    (h : (l.map key).Nodup) {x : α} (hx : x ∈ l) : l.filter (fun y => key y = key x) = [x] := by
  obtain ⟨pre, post, rfl⟩ := List.append_of_mem hx
  simp only [List.map_append, List.map_cons] at h
  obtain ⟨_, hpost, hpre⟩ := List.nodup_append.mp h
  have hpre' : pre.filter (fun y => decide (key y = key x)) = [] := by
    refine List.filter_eq_nil_iff.mpr fun y hy heq => ?_
    exact hpre _ (List.mem_map_of_mem hy) (key x) (by simp) (by simpa using heq)
  have hpost' : post.filter (fun y => decide (key y = key x)) = [] := by
    refine List.filter_eq_nil_iff.mpr fun y hy heq => ?_
    exact (List.nodup_cons.mp hpost).1 (List.mem_map.mpr ⟨y, hy, by simpa using heq⟩)
  simp [hpre', hpost']

theorem State.mem_tokens {st : State V} {t : Token V} {pre post : List (Token V)}
    (h : st.tokens = pre ++ t :: post) (u : Token V) :
    u ∈ st.tokens ↔ u = t ∨ u ∈ pre ++ post := by
  rw [h, List.mem_append, List.mem_cons, List.mem_append]
  tauto

/-! ## One token at the root

With canonical hops the tokens run down the canonical tree.
-/

section Tree

variable [LinearOrder V]

/-- The token of `x` carries the targets whose canonical path leads through `x`. -/
structure Below (E : V → V → ℕ → Prop) (s : V) (D : List V) (t : Token V) : Prop where
  reaches : Reaches E s t.dst
  sub : ∀ d ∈ t.share, d ∈ D
  mem_iff : ∀ d ∈ D, Reaches E s d → (d ∈ t.share ↔ OnPath E s t.dst d)

/-- The invariant of the runs from one token at `s` with the targets `D`. -/
structure Tree (E : V → V → ℕ → Prop) (s : V) (D : List V) (ls : List (Token V)) (st : State V) :
    Prop where
  visited : st.visited = ls.map Token.dst
  nodup : (st.visited ++ st.tokens.map Token.dst).Nodup
  below : ∀ t, t ∈ ls ∨ t ∈ st.tokens → t.relayed ∧ Below E s D t
  root : s ∈ st.visited ++ st.tokens.map Token.dst
  parent : ∀ x ∈ st.visited ++ st.tokens.map Token.dst, x = s ∨ ∃ a ∈ st.visited, Parent E s x a
  closed : ∀ a ∈ st.visited, ∀ x, Parent E s x a → (∃ d ∈ D, OnPath E s x d) →
    x ∈ st.visited ++ st.tokens.map Token.dst
  served : st.served = st.visited.filter fun x => x ∈ D

theorem Tree.initial [WellFoundedLT V] (hpos : Positive E) (s : V) (D : List V) :
    Tree E s D [] ⟨[⟨s, D, true⟩], [], []⟩ where
  visited := rfl
  nodup := by simp
  below := by
    intro t ht
    obtain rfl : t = ⟨s, D, true⟩ := by simpa using ht
    exact ⟨rfl, Reaches.refl s, fun _ hd => hd, fun d hd hreach => ⟨fun _ => hreach.onPath hpos,
      fun _ => hd⟩⟩
  root := by simp
  parent := by simp
  closed := by simp
  served := rfl

variable {s : V} {D : List V} {ls : List (Token V)} {st st' : State V} {t : Token V}

/-- A token in flight is the first one for its node. -/
theorem Tree.not_visited (h : Tree E s D ls st) (ht : t ∈ st.tokens) : t.dst ∉ st.visited := by
  intro hmem
  exact (List.nodup_append.mp h.nodup).2.2 _ hmem _ (List.mem_map_of_mem ht) rfl

/-- A child of a visited node with targets below it gets a token. -/
theorem Split.exists_child (hpos : Positive E) (hhop : ∀ x d c, hop x d c → FirstHop E x d c)
    {sent : List (Token V)} (ht : Below E s D t) (hsplit : Split E hop t.dst t.share sent)
    {c d : V} (hp : Parent E s c t.dst) (hD : d ∈ D) (hon : OnPath E s c d) :
    ∃ w ∈ sent, w.dst = c ∧ d ∈ w.share := by
  have hreach : Reaches E s d := hp.reaches.trans (hon.reaches hp.reaches)
  have hont : OnPath E s t.dst d := OnPath.trans (OnPath.cons hp (OnPath.refl s t.dst)) hon
  have hne : d ≠ t.dst := by
    rintro rfl
    exact hp.not_onPath hpos hon
  obtain ⟨w, hw, hdw⟩ := hsplit.covers d ((ht.mem_iff d hD hreach).mpr hont) hne
    (hont.reaches ht.reaches)
  have hfirst := hhop _ _ _ (hsplit.mem w hw d hdw).2.2
  exact ⟨w, hw, hfirst.unique hpos ((firstHop_iff hpos ht.reaches hont).mpr ⟨hp, hon⟩), hdw⟩

/-- The tokens that a visited node sends go to its children. -/
theorem Split.canonical (hpos : Positive E) (hhop : ∀ x d c, hop x d c → FirstHop E x d c)
    {sent : List (Token V)} (ht : Below E s D t) (hsplit : Split E hop t.dst t.share sent)
    {u : Token V} (hu : u ∈ sent) : Parent E s u.dst t.dst ∧ Below E s D u := by
  have hdown : ∀ d ∈ u.share, d ∈ D ∧ Parent E s u.dst t.dst ∧ OnPath E s u.dst d := by
    intro d hd
    obtain ⟨hdt, _, hh⟩ := hsplit.mem u hu d hd
    have hfirst := hhop _ _ _ hh
    have hD := ht.sub d hdt
    have hreach : Reaches E s d := ht.reaches.trans
      (hfirst.1.reaches.trans (hfirst.2.reaches hfirst.1.reaches))
    exact ⟨hD, (firstHop_iff hpos ht.reaches ((ht.mem_iff d hD hreach).mp hdt)).mp hfirst⟩
  obtain ⟨d₀, hd₀⟩ := hsplit.nonempty u hu
  have hparent := (hdown d₀ hd₀).2.1
  refine ⟨hparent, hparent.reaches, fun d hd => (hdown d hd).1, fun d hD _ => ?_⟩
  constructor
  · intro hd
    exact (hdown d hd).2.2
  · intro hon
    obtain ⟨w, hw, hdst, hdw⟩ := Split.exists_child hpos hhop ht hsplit hparent hD hon
    rwa [← List.inj_on_of_nodup_map hsplit.nodup hw hu hdst]

theorem Tree.step (hpos : Positive E) (hhop : ∀ x d c, hop x d c → FirstHop E x d c)
    (h : Tree E s D ls st) (hstep : Step E hop st t st') : Tree E s D (ls ++ [t]) st' := by
  cases hstep with
  | drop htokens hold => exact absurd hold (h.not_visited (by simp [htokens]))
  | @visit pre post sent htokens hnew hsplit =>
      have hmem : t ∈ st.tokens := by simp [htokens]
      have ht : Below E s D t := (h.below t (Or.inr hmem)).2
      have hperm : (st.visited ++ st.tokens.map Token.dst).Perm
          ((st.visited ++ [t.dst]) ++ (pre ++ post).map Token.dst) := by
        rw [htokens, List.append_assoc]
        apply List.Perm.append_left
        simp
      have hold : ∀ x, x ∈ st.visited ++ st.tokens.map Token.dst ↔
          x ∈ (st.visited ++ [t.dst]) ++ (pre ++ post).map Token.dst := fun x => hperm.mem_iff
      have hmap : (st.visited ++ [t.dst]) ++ (pre ++ post ++ sent).map Token.dst =
          (st.visited ++ [t.dst]) ++ (pre ++ post).map Token.dst ++ sent.map Token.dst := by
        rw [List.append_assoc (st.visited ++ [t.dst]), ← List.map_append]
      have hkeep : ∀ x, x ∈ st.visited ++ st.tokens.map Token.dst →
          x ∈ (st.visited ++ [t.dst]) ++ (pre ++ post ++ sent).map Token.dst := by
        intro x hx
        rw [hmap]
        exact List.mem_append_left _ ((hold x).mp hx)
      have hsent := fun u hu => Split.canonical hpos hhop ht hsplit (u := u) hu
      -- the node is visited for the first time, so none of its children is known
      have hfresh : ∀ u ∈ sent, u.dst ∉ (st.visited ++ [t.dst]) ++ (pre ++ post).map Token.dst := by
        intro u hu hx
        rcases h.parent u.dst ((hold _).mpr hx) with heq | ⟨a, ha, hpa⟩
        · exact not_parent_root hpos s t.dst (heq ▸ (hsent u hu).1)
        · exact hnew (hpa.unique (hsent u hu).1 ▸ ha)
      refine ⟨?_, ?_, ?_, hkeep s h.root, ?_, ?_, ?_⟩
      · simp [h.visited]
      · rw [hmap]
        refine List.nodup_append.mpr ⟨hperm.nodup_iff.mp h.nodup, hsplit.nodup, ?_⟩
        rintro x hx _ hy rfl
        obtain ⟨u, hu, rfl⟩ := List.mem_map.mp hy
        exact hfresh u hu hx
      · intro u hu
        simp only [List.mem_append, List.mem_singleton] at hu
        rcases hu with (hu | rfl) | (hu | hu) | hu
        · exact h.below u (Or.inl hu)
        · exact h.below u (Or.inr hmem)
        · exact h.below u (Or.inr (by simp [htokens, hu]))
        · exact h.below u (Or.inr (by simp [htokens, hu]))
        · exact ⟨hsplit.relayed u hu, (hsent u hu).2⟩
      · intro x hx
        rw [hmap] at hx
        rcases List.mem_append.mp hx with hx | hx
        · rcases h.parent x ((hold x).mpr hx) with rfl | ⟨a, ha, hpa⟩
          · exact Or.inl rfl
          · exact Or.inr ⟨a, List.mem_append_left _ ha, hpa⟩
        · obtain ⟨u, hu, rfl⟩ := List.mem_map.mp hx
          exact Or.inr ⟨t.dst, by simp, (hsent u hu).1⟩
      · intro a ha x hpx hbelow
        rcases List.mem_append.mp ha with ha | ha
        · exact hkeep x (h.closed a ha x hpx hbelow)
        · obtain rfl := List.mem_singleton.mp ha
          obtain ⟨d, hD, hon⟩ := hbelow
          obtain ⟨w, hw, rfl, _⟩ := Split.exists_child hpos hhop ht hsplit hpx hD hon
          simp only [List.mem_append, List.map_append]
          exact Or.inr (Or.inr (List.mem_map_of_mem hw))
      · have hiff : t.dst ∈ t.share ↔ t.dst ∈ D :=
          ⟨ht.sub _, fun hD => (ht.mem_iff _ hD ht.reaches).mpr (OnPath.refl s _)⟩
        by_cases hD : t.dst ∈ D
        · simp [hiff, hD, h.served]
        · simp [hiff, hD, h.served]

theorem Tree.run [WellFoundedLT V] (hpos : Positive E)
    (hhop : ∀ x d c, hop x d c → FirstHop E x d c)
    (hrun : Run (Step E hop) ⟨[⟨s, D, true⟩], [], []⟩ ls st) : Tree E s D ls st :=
  hrun.invariant (Tree E s D) (Tree.initial hpos s D)
    fun _ _ _ _ _ _ _ h hstep => h.step hpos hhop hstep

/-- When no token is left every target behind the root has been visited. -/
theorem Tree.complete [WellFoundedLT V] (hpos : Positive E) (h : Tree E s D ls st)
    (hdone : st.tokens = []) {d : V} (hD : d ∈ D) (hreach : Reaches E s d) : d ∈ st.visited := by
  have hgo : ∀ x, OnPath E s s x → OnPath E s x d → x ∈ st.visited := by
    intro x hx
    induction hx using Relation.ReflTransGen.head_induction_on with
    | refl =>
        intro _
        simpa [hdone] using h.root
    | @head x p hp _ ih =>
        intro hon
        have hpv : p ∈ st.visited := ih (OnPath.trans (OnPath.cons hp (OnPath.refl s p)) hon)
        simpa [hdone] using h.closed p hpv x hp ⟨d, hD, hon⟩
  exact hgo d (hreach.onPath hpos) (OnPath.refl s d)

end Tree

/-! ## Several entries

Each entry starts with a token for all targets that it reaches. As long as
no sent token is dropped before its targets are served, every target is
served.
-/

section Entries

/-- The target `d` has been served or will be: a sent token carries it, or no
node of its component has been visited and an entry will be. -/
inductive Awaited (E : V → V → ℕ → Prop) (d : V) (st : State V) : Prop
  | served (hd : d ∈ st.served)
  | carried (t : Token V) (ht : t ∈ st.tokens) (hrelayed : t.relayed) (hd : d ∈ t.share)
      (hreach : Reaches E t.dst d)
  | entry (t : Token V) (ht : t ∈ st.tokens) (hentry : t.relayed = false)
      (hreach : Reaches E t.dst d) (hno : ∀ a ∈ st.visited, ¬ Reaches E a d)

/-- The invariant of the runs from the entries. -/
structure Entries (E : V → V → ℕ → Prop) (entries : List V) (targets : V → Prop) (st : State V) :
    Prop where
  entry : ∀ t ∈ st.tokens, t.relayed = false → ∀ d, targets d → Reaches E t.dst d → d ∈ t.share
  origin : ∀ t ∈ st.tokens, t.relayed → ∃ a ∈ st.visited, Reaches E a t.dst
  awaited : ∀ d, targets d → (∃ e ∈ entries, Reaches E e d) → Awaited E d st

variable {entries : List V} {targets : V → Prop} {st st' : State V} {t : Token V}

theorem Entries.initial {tokens : List (Token V)} (hentry : ∀ t ∈ tokens, t.relayed = false)
    (hshare : ∀ t ∈ tokens, ∀ d, targets d → Reaches E t.dst d → d ∈ t.share) :
    Entries E (tokens.map Token.dst) targets ⟨tokens, [], []⟩ where
  entry := fun t ht _ => hshare t ht
  origin := by
    intro t ht hrelayed
    simp [hentry t ht] at hrelayed
  awaited := by
    rintro d _ ⟨e, he, hreach⟩
    obtain ⟨t, ht, rfl⟩ := List.mem_map.mp he
    exact .entry t ht (hentry t ht) hreach (by simp)

/-- A visit serves the targets of its token or sends them on. -/
theorem Step.awaited_visit [DecidableEq V] (hhop : ∀ x d c, hop x d c → Reaches E c d)
    {sent : List (Token V)} (hsplit : Split E hop t.dst t.share sent) (pre post : List (Token V))
    (visited served : List V) {d : V} (hd : d ∈ t.share) (hreach : Reaches E t.dst d) :
    Awaited E d ⟨pre ++ post ++ sent, visited,
      if t.dst ∈ t.share then served ++ [t.dst] else served⟩ := by
  by_cases heq : d = t.dst
  · subst heq
    exact .served (by simp [hd])
  · obtain ⟨w, hw, hdw⟩ := hsplit.covers d hd heq hreach
    exact .carried w (by simp [hw]) (hsplit.relayed w hw) hdw
      (hhop _ _ _ (hsplit.mem w hw d hdw).2.2)

theorem Entries.step [DecidableEq V]
    (hhop : ∀ x d c, hop x d c → Reaches E x c ∧ Reaches E c d)
    (h : Entries E entries targets st) (hstep : Step E hop st t st')
    (hkept : t.relayed → t.dst ∈ st.visited → ∀ d ∈ t.share, targets d → d ∈ st.served) :
    Entries E entries targets st' := by
  cases hstep with
  | @drop pre post htokens hold =>
      have hsub := fun u hu => (State.mem_tokens htokens u).mpr (Or.inr hu)
      have hrest := fun u hu => (State.mem_tokens htokens u).mp hu
      refine ⟨fun u hu => h.entry u (hsub u hu), fun u hu => h.origin u (hsub u hu), ?_⟩
      intro d htarget hreach
      cases h.awaited d htarget hreach with
      | served hd => exact .served hd
      | carried u hu hrelayed hd hr =>
          rcases hrest u hu with rfl | hu
          · exact .served (hkept hrelayed hold d hd htarget)
          · exact .carried u hu hrelayed hd hr
      | entry u hu hnot hr hno =>
          rcases hrest u hu with rfl | hu
          · exact absurd hr (hno _ hold)
          · exact .entry u hu hnot hr hno
  | @visit pre post sent htokens hnew hsplit =>
      have hmem : t ∈ st.tokens := by simp [htokens]
      have hsub := fun u hu => (State.mem_tokens htokens u).mpr (Or.inr hu)
      have hrest := fun u hu => (State.mem_tokens htokens u).mp hu
      refine ⟨?_, ?_, ?_⟩
      · intro u hu hentry
        rcases List.mem_append.mp hu with hu | hu
        · exact h.entry u (hsub u hu) hentry
        · simp [hsplit.relayed u hu] at hentry
      · intro u hu hrelayed
        rcases List.mem_append.mp hu with hu | hu
        · obtain ⟨a, ha, hr⟩ := h.origin u (hsub u hu) hrelayed
          exact ⟨a, List.mem_append_left _ ha, hr⟩
        · obtain ⟨d, hd⟩ := hsplit.nonempty u hu
          exact ⟨t.dst, by simp, (hhop _ _ _ (hsplit.mem u hu d hd).2.2).1⟩
      · intro d htarget hreach
        have hvisit : d ∈ t.share → Reaches E t.dst d → _ :=
          Step.awaited_visit (fun x d c hh => (hhop x d c hh).2) hsplit pre post
            (st.visited ++ [t.dst]) st.served
        cases h.awaited d htarget hreach with
        | served hd =>
            apply Awaited.served
            split
            · exact List.mem_append_left _ hd
            · exact hd
        | carried u hu hrelayed hd hr =>
            rcases hrest u hu with rfl | hu
            · exact hvisit hd hr
            · exact .carried u (List.mem_append_left _ hu) hrelayed hd hr
        | entry u hu hnot hr hno =>
            by_cases hcomp : Reaches E t.dst d
            · have hentry : t.relayed = false := by
                by_contra hne
                obtain ⟨a, ha, hra⟩ := h.origin t hmem (by simpa using hne)
                exact hno a ha (hra.trans hcomp)
              exact hvisit (h.entry t hmem hentry d htarget hcomp) hcomp
            · rcases hrest u hu with rfl | hu
              · exact absurd hr hcomp
              · refine .entry u (List.mem_append_left _ hu) hnot hr fun a ha => ?_
                rcases List.mem_append.mp ha with ha | ha
                · exact hno a ha
                · rwa [List.mem_singleton.mp ha]

theorem Entries.run [DecidableEq V] (hhop : ∀ x d c, hop x d c → Reaches E x c ∧ Reaches E c d)
    {st₀ : State V} {ls : List (Token V)} (h₀ : Entries E entries targets st₀)
    (hrun : Run (fun st t st' => Step E hop st t st' ∧ (t.relayed → t.dst ∈ st.visited →
      ∀ d ∈ t.share, targets d → d ∈ st.served)) st₀ ls st) :
    Entries E entries targets st :=
  hrun.invariant (fun _ st => Entries E entries targets st) h₀
    fun _ _ _ _ _ _ _ h hstep => h.step hhop hstep.1 hstep.2

theorem Entries.complete (h : Entries E entries targets st) (hdone : st.tokens = []) {d : V}
    (htarget : targets d) (hreach : ∃ e ∈ entries, Reaches E e d) : d ∈ st.served := by
  cases h.awaited d htarget hreach with
  | served hd => exact hd
  | carried t ht _ _ _ => simp [hdone] at ht
  | entry t ht _ _ _ => simp [hdone] at ht

end Entries

/-! ## One token that no node has sent

Whether a node has sent a token changes nothing in the steps, so such an entry
runs down the tree as well.
-/

section Relay

def Token.relay (t : Token V) : Token V := { t with relayed := true }

def State.relay (st : State V) : State V := { st with tokens := st.tokens.map Token.relay }

@[simp] theorem Token.relay_dst (t : Token V) : t.relay.dst = t.dst := rfl

@[simp] theorem Token.relay_share (t : Token V) : t.relay.share = t.share := rfl

@[simp] theorem State.relay_visited (st : State V) : st.relay.visited = st.visited := rfl

@[simp] theorem State.relay_served (st : State V) : st.relay.served = st.served := rfl

/-- The tokens that a node sends are not changed. -/
theorem Split.map_relay {x : V} {targets : List V} {sent : List (Token V)}
    (h : Split E hop x targets sent) : sent.map Token.relay = sent := by
  refine (List.map_congr_left fun t ht => ?_).trans (List.map_id sent)
  obtain ⟨dst, share, relayed⟩ := t
  obtain rfl : relayed = true := h.relayed _ ht
  rfl

variable [DecidableEq V] {st st' : State V} {t : Token V}

theorem Step.relay (h : Step E hop st t st') : Step E hop st.relay t.relay st'.relay := by
  cases h with
  | @visit pre post sent htokens hnew hsplit =>
      have hstep : Step E hop st.relay t.relay
          ⟨pre.map Token.relay ++ post.map Token.relay ++ sent, st.visited ++ [t.dst],
            if t.dst ∈ t.share then st.served ++ [t.dst] else st.served⟩ :=
        .visit (by simp [State.relay, htokens]) hnew hsplit
      simpa [State.relay, hsplit.map_relay] using hstep
  | @drop pre post htokens hold =>
      have hstep : Step E hop st.relay t.relay
          ⟨pre.map Token.relay ++ post.map Token.relay, st.visited, st.served⟩ :=
        .drop (by simp [State.relay, htokens]) hold
      rwa [← List.map_append] at hstep

theorem Run.relay {ls : List (Token V)} (h : Run (Step E hop) st ls st') :
    Run (Step E hop) st.relay (ls.map Token.relay) st'.relay := by
  induction h with
  | nil => exact .nil
  | snoc _ hlast ih =>
      rw [List.map_append]
      exact ih.snoc hlast.relay

end Relay

end Multicast
