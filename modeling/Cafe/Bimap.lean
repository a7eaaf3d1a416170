import Mathlib.Data.List.Nodup
import Mathlib.Tactic

/-!
# Maps in both directions

A map that can be searched by either side of its pairs. An insertion adds a
pair only if neither of its sides is present.
-/

variable {A B C : Type*}

namespace Bimap

theorem find?_of_nodup_map [DecidableEq B] {f : A → B} {l : List A} {x : A}
    (hf : (l.map f).Nodup) (hx : x ∈ l) : l.find? (fun y => f y = f x) = some x := by
  induction l with
  | nil => simp at hx
  | cons y l ih =>
      rw [List.map_cons, List.nodup_cons] at hf
      rcases List.mem_cons.mp hx with rfl | hx
      · simp
      · have hne : f y ≠ f x := by
          intro heq
          exact hf.1 (heq ▸ List.mem_map_of_mem hx)
        rw [List.find?_cons_of_neg (by simpa using hne), ih hf.2 hx]

end Bimap

/-- Pairs of which no two share a side. -/
structure Bimap (A B : Type*) where
  pairs : List (A × B)
  left_nodup : (pairs.map Prod.fst).Nodup
  right_nodup : (pairs.map Prod.snd).Nodup

namespace Bimap

theorem left_inj {m : Bimap A B} {e e' : A × B} (he : e ∈ m.pairs) (he' : e' ∈ m.pairs)
    (h : e.1 = e'.1) : e = e' :=
  List.inj_on_of_nodup_map m.left_nodup he he' h

theorem right_inj {m : Bimap A B} {e e' : A × B} (he : e ∈ m.pairs) (he' : e' ∈ m.pairs)
    (h : e.2 = e'.2) : e = e' :=
  List.inj_on_of_nodup_map m.right_nodup he he' h

variable [DecidableEq A] [DecidableEq B]

def empty : Bimap A B := ⟨[], List.nodup_nil, List.nodup_nil⟩

def findLeft (m : Bimap A B) (a : A) : Option B :=
  (m.pairs.find? fun e => e.1 = a).map Prod.snd

def findRight (m : Bimap A B) (b : B) : Option A :=
  (m.pairs.find? fun e => e.2 = b).map Prod.fst

def insert (m : Bimap A B) (a : A) (b : B) : Bimap A B :=
  if h : a ∈ m.pairs.map Prod.fst ∨ b ∈ m.pairs.map Prod.snd then m
  else
    { pairs := (a, b) :: m.pairs
      left_nodup := List.nodup_cons.mpr ⟨fun ha => h (Or.inl ha), m.left_nodup⟩
      right_nodup := List.nodup_cons.mpr ⟨fun hb => h (Or.inr hb), m.right_nodup⟩ }

/-- No pair of the map shares exactly one side with this one. -/
def Compatible (m : Bimap A B) (a : A) (b : B) : Prop :=
  ∀ e ∈ m.pairs, e.1 = a ↔ e.2 = b

variable {m : Bimap A B} {a : A} {b : B}

omit [DecidableEq B] in
theorem findLeft_eq_some : m.findLeft a = some b ↔ (a, b) ∈ m.pairs := by
  unfold findLeft
  rw [Option.map_eq_some_iff]
  constructor
  · rintro ⟨e, he, rfl⟩
    obtain rfl : e.1 = a := by simpa using List.find?_some he
    exact List.mem_of_find?_eq_some he
  · exact fun h => ⟨_, find?_of_nodup_map m.left_nodup h, rfl⟩

omit [DecidableEq A] in
theorem findRight_eq_some : m.findRight b = some a ↔ (a, b) ∈ m.pairs := by
  unfold findRight
  rw [Option.map_eq_some_iff]
  constructor
  · rintro ⟨e, he, rfl⟩
    obtain rfl : e.2 = b := by simpa using List.find?_some he
    exact List.mem_of_find?_eq_some he
  · exact fun h => ⟨_, find?_of_nodup_map m.right_nodup h, rfl⟩

theorem mem_insert {e : A × B} : e ∈ (m.insert a b).pairs ↔
    e ∈ m.pairs ∨ (e = (a, b) ∧ a ∉ m.pairs.map Prod.fst ∧ b ∉ m.pairs.map Prod.snd) := by
  unfold insert
  split
  · rename_i h
    simp only [iff_self_or]
    rintro ⟨-, ha, hb⟩
    exact absurd h (not_or.mpr ⟨ha, hb⟩)
  · rename_i h
    rw [List.mem_cons, or_comm]
    exact or_congr_right ⟨fun he => ⟨he, not_or.mp h⟩, And.left⟩

/-- The pair that is inserted is in the map afterwards iff it is compatible. -/
theorem mem_insert_self : (a, b) ∈ (m.insert a b).pairs ↔ m.Compatible a b := by
  rw [mem_insert]
  constructor
  · rintro (hmem | ⟨-, ha, hb⟩) e he
    · exact ⟨fun h => congrArg Prod.snd (left_inj he hmem h),
        fun h => congrArg Prod.fst (right_inj he hmem h)⟩
    · exact iff_of_false (fun h => ha (h ▸ List.mem_map_of_mem he))
        (fun h => hb (h ▸ List.mem_map_of_mem he))
  · intro h
    by_cases ha : a ∈ m.pairs.map Prod.fst
    · rcases List.mem_map.mp ha with ⟨e, he, rfl⟩
      obtain rfl := (h e he).mp rfl
      exact Or.inl he
    · refine Or.inr ⟨rfl, ha, fun hb => ?_⟩
      rcases List.mem_map.mp hb with ⟨e, he, rfl⟩
      exact ha ((h e he).mpr rfl ▸ List.mem_map_of_mem he)

/-! ## Sequences of insertions -/

/-- The map after insertions into the empty one. -/
def ofInserts (es : List (A × B)) : Bimap A B :=
  es.foldl (fun m e => m.insert e.1 e.2) empty

theorem ofInserts_snoc (es : List (A × B)) (e : A × B) :
    ofInserts (es ++ [e]) = (ofInserts es).insert e.1 e.2 := List.foldl_concat ..

theorem mem_of_mem_ofInserts {es : List (A × B)} {e : A × B} (h : e ∈ (ofInserts es).pairs) :
    e ∈ es := by
  induction es using List.reverseRecOn with
  | nil => cases h
  | append_singleton es d ih =>
      rw [ofInserts_snoc] at h
      rcases mem_insert.mp h with h | ⟨rfl, -⟩
      · exact List.mem_append_left _ (ih h)
      · exact List.mem_append_right _ (List.mem_singleton_self _)

theorem mem_insert_of_mem {e : A × B} (h : e ∈ m.pairs) : e ∈ (m.insert a b).pairs :=
  mem_insert.mpr (Or.inl h)

/-- No two of the pairs share exactly one side. -/
def Consistent (es : List (A × B)) : Prop := ∀ d ∈ es, ∀ e ∈ es, d.1 = e.1 ↔ d.2 = e.2

/-- Every insertion takes effect iff the pairs are consistent. -/
theorem forall_compatible_iff {es : List (A × B)} :
    (∀ pre e post, es = pre ++ e :: post → (ofInserts pre).Compatible e.1 e.2) ↔
      Consistent es := by
  constructor
  · intro h
    -- the map ends up with all of the pairs
    have hall : ∀ pre post, es = pre ++ post → ∀ e ∈ pre, e ∈ (ofInserts pre).pairs := by
      intro pre
      induction pre using List.reverseRecOn with
      | nil => simp
      | append_singleton pre d ih =>
          intro post hes e he
          rw [List.append_assoc] at hes
          rw [ofInserts_snoc]
          rcases List.mem_append.mp he with he | he
          · exact mem_insert_of_mem (ih _ hes e he)
          · rw [List.mem_singleton.mp he]
            exact mem_insert_self.mpr (h pre d post hes)
    have hes := hall es [] (List.append_nil es).symm
    intro d hd e he
    exact ⟨fun heq => congrArg Prod.snd (left_inj (hes d hd) (hes e he) heq),
      fun heq => congrArg Prod.fst (right_inj (hes d hd) (hes e he) heq)⟩
  · rintro h pre e post rfl d hd
    exact h d (List.mem_append_left _ (mem_of_mem_ofInserts hd)) e (by simp)

end Bimap
