import Mathlib.Tactic

/-!
# Greedy patterns

Regular expressions without alternatives: classes of characters, repeated or
not, and labelled groups. A search finds the leftmost match, and a repetition
prefers to take as much as it can.
-/

namespace GreedyPattern

variable {G : Type*} [DecidableEq G]

inductive Item
  | char (p : Char → Bool)
  | star (p : Char → Bool)
  | plus (p : Char → Bool)

inductive Piece (G : Type*)
  | item (i : Item)
  | group (g : G) (items : List Item)

def literal (s : String) : List Item := s.toList.map fun c => .char fun d => d = c

def text (s : String) : List (Piece G) := (literal s).map .item

/-- What a repetition takes and what it leaves, in the order in which the
possibilities are tried. -/
def greedy (p : Char → Bool) : List Char → List (List Char × List Char)
  | [] => [([], [])]
  | c :: s =>
      if p c then (greedy p s).map (fun x => (c :: x.1, x.2)) ++ [([], c :: s)]
      else [([], c :: s)]

def Item.splits : Item → List Char → List (List Char × List Char)
  | .char _, [] => []
  | .char p, c :: s => if p c then [([c], s)] else []
  | .star p, s => greedy p s
  | .plus _, [] => []
  | .plus p, c :: s => if p c then (greedy p s).map fun x => (c :: x.1, x.2) else []

def splits : List Item → List Char → List (List Char × List Char)
  | [], s => [([], s)]
  | i :: is, s => (i.splits s).flatMap fun x => (splits is x.2).map fun y => (x.1 ++ y.1, y.2)

/-- The texts of the groups, for each way to match at the start. -/
def captures : List (Piece G) → List Char → List (List (G × List Char))
  | [], _ => [[]]
  | .item i :: ps, s => (i.splits s).flatMap fun x => captures ps x.2
  | .group g is :: ps, s =>
      (splits is s).flatMap fun x => (captures ps x.2).map fun m => (g, x.1) :: m

def search (ps : List (Piece G)) : List Char → Option (List (G × List Char))
  | [] => (captures ps []).head?
  | c :: s =>
      match (captures ps (c :: s)).head? with
      | some m => some m
      | none => search ps s

/-- The text of a group that takes part in every match. -/
def group (m : List (G × List Char)) (g : G) : List Char := (m.lookup g).getD []

/-- The items of the first group with a label. -/
def itemsOf (g : G) : List (Piece G) → List Item
  | [] => []
  | .item _ :: ps => itemsOf g ps
  | .group g' is :: ps => if g = g' then is else itemsOf g ps

theorem all_of_mem_greedy {p : Char → Bool} {s : List Char} {x : List Char × List Char}
    (h : x ∈ greedy p s) : ∀ c ∈ x.1, p c = true := by
  induction s generalizing x with
  | nil =>
      rw [greedy, List.mem_singleton] at h
      simp [h]
  | cons c s ih =>
      unfold greedy at h
      split_ifs at h with hc
      · rcases List.mem_append.mp h with h | h
        · obtain ⟨y, hy, rfl⟩ := List.mem_map.mp h
          exact List.forall_mem_cons.mpr ⟨hc, ih hy⟩
        · simp [List.mem_singleton.mp h]
      · simp [List.mem_singleton.mp h]

theorem of_mem_splits_plus {p : Char → Bool} {s : List Char} {x : List Char × List Char}
    (h : x ∈ splits [.plus p] s) : x.1 ≠ [] ∧ ∀ c ∈ x.1, p c = true := by
  simp only [splits, List.map_cons, List.map_nil, List.append_nil, List.mem_flatMap,
    List.mem_singleton] at h
  obtain ⟨y, hy, rfl⟩ := h
  cases s with
  | nil => simp [Item.splits] at hy
  | cons c s =>
      simp only [Item.splits] at hy
      split_ifs at hy with hc
      · obtain ⟨z, hz, rfl⟩ := List.mem_map.mp hy
        exact ⟨List.cons_ne_nil _ _, List.forall_mem_cons.mpr ⟨hc, all_of_mem_greedy hz⟩⟩
      · cases hy

theorem group_of_mem_captures {ps : List (Piece G)} {s : List Char} {m : List (G × List Char)}
    (h : m ∈ captures ps s) {g : G} (hg : itemsOf g ps ≠ []) :
    ∃ s' r, (group m g, r) ∈ splits (itemsOf g ps) s' := by
  induction ps generalizing s m with
  | nil => exact absurd rfl hg
  | cons piece ps ih =>
      cases piece with
      | item i =>
          obtain ⟨x, _, hm⟩ := List.mem_flatMap.mp h
          exact ih hm hg
      | group g' is =>
          obtain ⟨x, hx, hm⟩ := List.mem_flatMap.mp h
          obtain ⟨m', hm', rfl⟩ := List.mem_map.mp hm
          by_cases heq : g = g'
          · subst heq
            refine ⟨s, x.2, ?_⟩
            simpa [itemsOf, group] using hx
          · have hrest : itemsOf g (.group g' is :: ps) = itemsOf g ps := if_neg heq
            rw [hrest] at hg ⊢
            obtain ⟨s', r, hmem⟩ := ih hm' hg
            refine ⟨s', r, ?_⟩
            have hgroup : group ((g', x.1) :: m') g = group m' g := by
              have hne : (g == g') = false := by simpa using heq
              simp only [group, List.lookup_cons, hne]
            rwa [hgroup]

omit [DecidableEq G] in
theorem mem_captures_of_search {ps : List (Piece G)} {s : List Char} {m : List (G × List Char)}
    (h : search ps s = some m) : ∃ s', m ∈ captures ps s' := by
  induction s with
  | nil => exact ⟨[], List.mem_of_mem_head? h⟩
  | cons c s ih =>
      unfold search at h
      split at h
      · rename_i m' hm
        rw [← Option.some.inj h]
        exact ⟨_, List.mem_of_mem_head? hm⟩
      · exact ih h

/-- The text of a group of a single repetition. -/
theorem group_of_search {ps : List (Piece G)} {s : List Char} {m : List (G × List Char)}
    (h : search ps s = some m) {g : G} {p : Char → Bool} (hg : itemsOf g ps = [.plus p]) :
    group m g ≠ [] ∧ ∀ c ∈ group m g, p c = true := by
  obtain ⟨s', hm⟩ := mem_captures_of_search h
  obtain ⟨t, r, hmem⟩ := group_of_mem_captures hm (g := g) (by simp [hg])
  rw [hg] at hmem
  exact of_mem_splits_plus hmem

/-! ## The first match -/

section First

omit [DecidableEq G]

variable {ps : List (Piece G)} {s run : List Char} {m : List (G × List Char)} {p : Char → Bool}

theorem mem_greedy {x : List Char × List Char} :
    x ∈ greedy p s ↔ s = x.1 ++ x.2 ∧ ∀ c ∈ x.1, p c = true := by
  induction s generalizing x with
  | nil =>
      rw [greedy, List.mem_singleton]
      constructor
      · rintro rfl
        exact ⟨rfl, nofun⟩
      · rintro ⟨heq, _⟩
        obtain ⟨h1, h2⟩ := List.append_eq_nil_iff.mp heq.symm
        exact Prod.ext h1 h2
  | cons c s ih =>
      obtain ⟨front, rest⟩ := x
      unfold greedy
      constructor
      · intro h
        split_ifs at h with hc
        · rcases List.mem_append.mp h with h | h
          · obtain ⟨y, hy, heq⟩ := List.mem_map.mp h
            obtain ⟨rfl, rfl⟩ := Prod.mk.inj heq
            obtain ⟨rfl, hall⟩ := ih.mp hy
            exact ⟨rfl, List.forall_mem_cons.mpr ⟨hc, hall⟩⟩
          · obtain ⟨rfl, rfl⟩ := Prod.mk.inj (List.mem_singleton.mp h)
            exact ⟨rfl, nofun⟩
        · obtain ⟨rfl, rfl⟩ := Prod.mk.inj (List.mem_singleton.mp h)
          exact ⟨rfl, nofun⟩
      · rintro ⟨heq, hall⟩
        cases front with
        | nil =>
            obtain rfl : c :: s = rest := heq
            split_ifs <;> simp
        | cons d front =>
            obtain ⟨rfl, rfl⟩ := List.cons.inj heq
            obtain ⟨hc, hrest⟩ := List.forall_mem_cons.mp hall
            rw [if_pos hc]
            refine List.mem_append_left _ (List.mem_map.mpr ⟨(front, rest), ?_, rfl⟩)
            exact ih.mpr ⟨rfl, hrest⟩

/-- A repetition takes all that it can at first. -/
theorem greedy_append (hrun : ∀ c ∈ run, p c = true) (hs : ∀ c ∈ s.head?, p c = false) :
    ∃ more, greedy p (run ++ s) = (run, s) :: more := by
  induction run with
  | nil =>
      cases s with
      | nil => exact ⟨[], rfl⟩
      | cons c s => exact ⟨[], if_neg (by simp [hs c rfl])⟩
  | cons c run ih =>
      obtain ⟨more, hmore⟩ := ih fun d hd => hrun d (List.mem_cons_of_mem c hd)
      rw [List.cons_append, greedy, if_pos (hrun c List.mem_cons_self), hmore, List.map_cons]
      exact ⟨_, rfl⟩

theorem splits_plus_append (hne : run ≠ []) (hrun : ∀ c ∈ run, p c = true)
    (hs : ∀ c ∈ s.head?, p c = false) :
    ∃ more, (Item.plus p).splits (run ++ s) = (run, s) :: more := by
  cases run with
  | nil => exact absurd rfl hne
  | cons c run =>
      obtain ⟨more, hmore⟩ := greedy_append (fun d hd => hrun d (List.mem_cons_of_mem c hd)) hs
      rw [List.cons_append, Item.splits, if_pos (hrun c List.mem_cons_self), hmore, List.map_cons]
      exact ⟨_, rfl⟩

theorem head?_flatMap {α β : Type*} {f : α → List β} {a : α} {l : List α} {b : β}
    (h : (f a).head? = some b) : ((a :: l).flatMap f).head? = some b := by
  rw [List.flatMap_cons, List.head?_append, h, Option.some_or]

/-- The match that a search at the start of the text finds first. -/
def First (ps : List (Piece G)) (s : List Char) (m : List (G × List Char)) : Prop :=
  (captures ps s).head? = some m

theorem First.search (h : First ps s m) : search ps s = some m := by
  unfold First at h
  cases s with
  | nil => exact h
  | cons c s => rw [GreedyPattern.search, h]

theorem First.nil (s : List Char) : First ([] : List (Piece G)) s [] := rfl

theorem captures_chars (cs : List Char) (ps : List (Piece G)) (s : List Char) :
    captures (cs.map (fun c => Piece.item (.char fun d => d = c)) ++ ps) (cs ++ s) =
      captures ps s := by
  induction cs with
  | nil => rfl
  | cons c cs ih => simp [captures, Item.splits, ih]

theorem captures_text (l : String) (ps : List (Piece G)) (s : List Char) :
    captures (text l ++ ps) (l.toList ++ s) = captures ps s := by
  rw [text, literal, List.map_map]
  exact captures_chars l.toList ps s

theorem First.text (l : String) (h : First ps s m) : First (text l ++ ps) (l.toList ++ s) m := by
  rw [First, captures_text]
  exact h

theorem First.plus (hne : run ≠ []) (hrun : ∀ c ∈ run, p c = true)
    (hs : ∀ c ∈ s.head?, p c = false) (h : First ps s m) :
    First (.item (.plus p) :: ps) (run ++ s) m := by
  obtain ⟨more, hmore⟩ := splits_plus_append hne hrun hs
  rw [First, captures, hmore]
  exact head?_flatMap h

theorem First.group (g : G) (hne : run ≠ []) (hrun : ∀ c ∈ run, p c = true)
    (hs : ∀ c ∈ s.head?, p c = false) (h : First ps s m) :
    First (.group g [.plus p] :: ps) (run ++ s) ((g, run) :: m) := by
  obtain ⟨more, hmore⟩ := splits_plus_append hne hrun hs
  have hsplits : splits [.plus p] (run ++ s) =
      (run, s) :: more.flatMap fun x => (splits [] x.2).map fun y => (x.1 ++ y.1, y.2) := by
    rw [splits, hmore]
    simp [splits]
  rw [First, captures, hsplits]
  refine head?_flatMap ?_
  rw [List.head?_map, h]
  rfl

/-- A repetition of what may be anything gives back until the rest matches, which it does
last at `b`. -/
theorem First.star {a b : List Char} (ha : ∀ c ∈ a, p c = true)
    (hb : ∀ x t, b = x ++ t → x ≠ [] → captures ps t = []) (h : First ps b m) :
    First (.item (.star p) :: ps) (a ++ b) m := by
  have hlater : ∀ (front : List Char) {l : List (List Char × List Char)},
      (∀ x ∈ l, ∃ y, b = front ++ y ++ x.2 ∧ front ++ y ≠ []) →
        l.flatMap (fun x => captures ps x.2) = [] := by
    intro front l hl
    refine List.flatMap_eq_nil_iff.mpr fun x hx => ?_
    obtain ⟨y, heq, hne⟩ := hl x hx
    exact hb _ _ heq hne
  have hstart : ((greedy p b).flatMap fun x => captures ps x.2).head? = some m := by
    cases b with
    | nil => exact head?_flatMap h
    | cons c b =>
        unfold greedy
        split_ifs with hc
        · rw [List.flatMap_append, hlater [c] fun x hx => ?_, List.nil_append]
          · exact head?_flatMap h
          · obtain ⟨y, hy, rfl⟩ := List.mem_map.mp hx
            exact ⟨y.1, by rw [List.singleton_append, List.cons_append, ← (mem_greedy.mp hy).1],
              by simp⟩
        · exact head?_flatMap h
  unfold First captures
  change ((greedy p (a ++ b)).flatMap fun x => captures ps x.2).head? = some m
  induction a with
  | nil => exact hstart
  | cons c a ih =>
      have hnext := ih fun d hd => ha d (List.mem_cons_of_mem c hd)
      rw [List.cons_append, greedy, if_pos (ha c List.mem_cons_self), List.flatMap_append,
        List.flatMap_map, List.head?_append, hnext, Option.some_or]

/-! ## Whether there is a match -/

/-- Some search at the start of the text succeeds. -/
def Matches (ps : List (Piece G)) (s : List Char) : Prop := captures ps s ≠ []

theorem search_eq_none (h : ∀ x t, s = x ++ t → ¬ Matches ps t) : search ps s = none := by
  induction s with
  | nil =>
      have hnil : captures ps [] = [] := not_not.mp (h [] [] rfl)
      rw [search, hnil]
      rfl
  | cons c s ih =>
      have hnil : captures ps (c :: s) = [] := not_not.mp (h [] (c :: s) rfl)
      rw [search, hnil]
      exact ih fun x t heq => h (c :: x) t (by rw [heq, List.cons_append])

theorem Matches.first (h : Matches ps s) : ∃ m, First ps s m :=
  Option.isSome_iff_exists.mp (List.isSome_head?.mpr h)

theorem Matches.nil (s : List Char) : Matches ([] : List (Piece G)) s := List.cons_ne_nil _ _

theorem matches_text {l : String} : Matches (text l ++ ps) s ↔
    ∃ t, s = l.toList ++ t ∧ Matches ps t := by
  have hchars : ∀ (cs : List Char) {s : List Char},
      captures (cs.map (fun c => Piece.item (.char fun d => d = c)) ++ ps) s ≠ [] →
        ∃ t, s = cs ++ t ∧ captures ps t ≠ [] := by
    intro cs
    induction cs with
    | nil => exact fun h => ⟨_, rfl, h⟩
    | cons c cs ih =>
        intro s h
        cases s with
        | nil => simp [captures, Item.splits] at h
        | cons d s =>
            rw [List.map_cons, List.cons_append, captures, Item.splits] at h
            split_ifs at h with hd
            · obtain rfl : d = c := of_decide_eq_true hd
              rw [List.flatMap_cons, List.flatMap_nil, List.append_nil] at h
              obtain ⟨t, rfl, ht⟩ := ih h
              exact ⟨t, rfl, ht⟩
            · simp at h
  constructor
  · intro h
    unfold Matches text literal at h
    rw [List.map_map] at h
    exact hchars l.toList h
  · rintro ⟨t, rfl, ht⟩
    unfold Matches
    rw [captures_text]
    exact ht

theorem mem_splits_plus {x : List Char × List Char} : x ∈ (Item.plus p).splits s ↔
    s = x.1 ++ x.2 ∧ x.1 ≠ [] ∧ ∀ c ∈ x.1, p c = true := by
  obtain ⟨front, rest⟩ := x
  cases s with
  | nil =>
      refine iff_of_false (by simp [Item.splits]) fun ⟨heq, hne, _⟩ => ?_
      exact hne (List.append_eq_nil_iff.mp heq.symm).1
  | cons c s =>
      rw [Item.splits]
      constructor
      · intro h
        split_ifs at h with hc
        · obtain ⟨y, hy, heq⟩ := List.mem_map.mp h
          obtain ⟨rfl, rfl⟩ := Prod.mk.inj heq
          obtain ⟨rfl, hall⟩ := mem_greedy.mp hy
          exact ⟨rfl, List.cons_ne_nil _ _, List.forall_mem_cons.mpr ⟨hc, hall⟩⟩
        · cases h
      · rintro ⟨heq, hne, hall⟩
        cases front with
        | nil => exact absurd rfl hne
        | cons d front =>
            obtain ⟨rfl, rfl⟩ := List.cons.inj heq
            obtain ⟨hc, hrest⟩ := List.forall_mem_cons.mp hall
            rw [if_pos hc]
            exact List.mem_map.mpr ⟨(front, rest), mem_greedy.mpr ⟨rfl, hrest⟩, rfl⟩

theorem matches_plus : Matches (.item (.plus p) :: ps) s ↔
    ∃ run t, s = run ++ t ∧ run ≠ [] ∧ (∀ c ∈ run, p c = true) ∧ Matches ps t := by
  rw [Matches, captures, ne_eq, List.flatMap_eq_nil_iff, not_forall]
  constructor
  · rintro ⟨x, hx⟩
    obtain ⟨hmem, hne⟩ := Classical.not_imp.mp hx
    obtain ⟨heq, hrun, hall⟩ := mem_splits_plus.mp hmem
    exact ⟨x.1, x.2, heq, hrun, hall, hne⟩
  · rintro ⟨run, t, heq, hrun, hall, hne⟩
    exact ⟨(run, t), Classical.not_imp.mpr ⟨mem_splits_plus.mpr ⟨heq, hrun, hall⟩, hne⟩⟩

theorem matches_group {g : G} : Matches (.group g [.plus p] :: ps) s ↔
    ∃ run t, s = run ++ t ∧ run ≠ [] ∧ (∀ c ∈ run, p c = true) ∧ Matches ps t := by
  have hsplits : splits [.plus p] s = (Item.plus p).splits s := by simp [splits]
  rw [← matches_plus, Matches, Matches, captures, captures, hsplits, ne_eq, ne_eq,
    List.flatMap_eq_nil_iff, List.flatMap_eq_nil_iff]
  simp only [List.map_eq_nil_iff]

theorem mem_splits_single {x : List Char × List Char} :
    x ∈ splits [.plus p] s ↔ s = x.1 ++ x.2 ∧ x.1 ≠ [] ∧ ∀ c ∈ x.1, p c = true := by
  rw [← mem_splits_plus]
  simp [splits]

theorem matches_star : Matches (.item (.star p) :: ps) s ↔
    ∃ run t, s = run ++ t ∧ (∀ c ∈ run, p c = true) ∧ Matches ps t := by
  rw [Matches, captures, ne_eq, List.flatMap_eq_nil_iff, not_forall]
  constructor
  · rintro ⟨x, hx⟩
    obtain ⟨hmem, hne⟩ := Classical.not_imp.mp hx
    obtain ⟨heq, hall⟩ := mem_greedy.mp hmem
    exact ⟨x.1, x.2, heq, hall, hne⟩
  · rintro ⟨run, t, heq, hall, hne⟩
    exact ⟨(run, t), Classical.not_imp.mpr ⟨mem_greedy.mpr ⟨heq, hall⟩, hne⟩⟩

/-- A repetition ends right before what follows it. -/
theorem of_matches_plus_text {l : String} (h : Matches (.item (.plus p) :: (text l ++ ps)) s) :
    ∃ front c rest, s = front ++ c :: (l.toList ++ rest) ∧ p c = true ∧ Matches ps rest := by
  obtain ⟨run, t, rfl, hne, hrun, ht⟩ := matches_plus.mp h
  obtain ⟨rest, rfl, hrest⟩ := matches_text.mp ht
  refine ⟨run.dropLast, run.getLast hne, rest, ?_, hrun _ (List.getLast_mem hne), hrest⟩
  rw [List.append_cons, List.dropLast_append_getLast]

theorem mem_splits_chars {cs : List Char} {items : List Item} {x : List Char × List Char} :
    x ∈ splits (cs.map (fun c => Item.char fun d => d = c) ++ items) s ↔
      ∃ t, s = cs ++ t ∧ ∃ y ∈ splits items t, x = (cs ++ y.1, y.2) := by
  induction cs generalizing s x with
  | nil => simp
  | cons c cs ih =>
      cases s with
      | nil => simp [splits, Item.splits]
      | cons d s =>
          by_cases hd : d = c
          · subst hd
            simp only [List.map_cons, List.cons_append, splits, Item.splits, decide_true, if_true,
              List.flatMap_cons, List.flatMap_nil, List.append_nil, List.mem_map, ih,
              List.cons.injEq, true_and]
            constructor
            · rintro ⟨_, ⟨t, rfl, y, hy, rfl⟩, rfl⟩
              exact ⟨t, rfl, y, hy, rfl⟩
            · rintro ⟨t, rfl, y, hy, rfl⟩
              exact ⟨_, ⟨t, rfl, y, hy, rfl⟩, rfl⟩
          · simp [splits, Item.splits, hd]

theorem matches_group_literal {g : G} {l : String} :
    Matches (.group g (literal l ++ [.plus p]) :: ps) s ↔
      ∃ run t, s = l.toList ++ (run ++ t) ∧ run ≠ [] ∧ (∀ c ∈ run, p c = true) ∧ Matches ps t := by
  rw [Matches, captures, ne_eq, List.flatMap_eq_nil_iff, not_forall]
  simp only [List.map_eq_nil_iff, literal, Classical.not_imp, mem_splits_chars]
  constructor
  · rintro ⟨x, ⟨t, rfl, y, hy, rfl⟩, hne⟩
    obtain ⟨rfl, hrun, hall⟩ := mem_splits_single.mp hy
    exact ⟨y.1, y.2, rfl, hrun, hall, hne⟩
  · rintro ⟨run, t, rfl, hrun, hall, hne⟩
    exact ⟨(l.toList ++ run, t), ⟨run ++ t, rfl, (run, t),
      mem_splits_single.mpr ⟨rfl, hrun, hall⟩, rfl⟩, hne⟩

end First

end GreedyPattern
