import Mathlib.Tactic

/-!
# Maps that keep their keys in order

The entries of a map are listed by increasing keys, and no key occurs twice.
-/

structure OrderedMap (K V : Type*) [LinearOrder K] where
  entries : List (K × V)
  sorted : entries.Pairwise fun e e' => e.1 < e'.1

namespace OrderedMap

variable {K V W : Type*} [LinearOrder K]

def empty : OrderedMap K V := ⟨[], List.Pairwise.nil⟩

/-- An entry with the key is replaced. -/
def insertEntry (k : K) (v : V) : List (K × V) → List (K × V)
  | [] => [(k, v)]
  | e :: es =>
      if k < e.1 then (k, v) :: e :: es
      else if k = e.1 then (k, v) :: es
      else e :: insertEntry k v es

theorem mem_insertEntry {k : K} {v : V} {es : List (K × V)}
    (hs : es.Pairwise fun e e' => e.1 < e'.1) {e : K × V} :
    e ∈ insertEntry k v es ↔ e = (k, v) ∨ (e ∈ es ∧ e.1 ≠ k) := by
  induction es with
  | nil => simp [insertEntry]
  | cons f es ih =>
      obtain ⟨hf, hes⟩ := List.pairwise_cons.mp hs
      unfold insertEntry
      split_ifs with hlt heq
      · have hne : ∀ g ∈ f :: es, g.1 ≠ k := by
          intro g hg
          rcases List.mem_cons.mp hg with rfl | hg
          · exact hlt.ne'
          · exact (hlt.trans (hf g hg)).ne'
        rw [List.mem_cons]
        exact or_congr_right ⟨fun h => ⟨h, hne e h⟩, fun h => h.1⟩
      · subst heq
        rw [List.mem_cons, List.mem_cons]
        constructor
        · rintro (rfl | h)
          · exact Or.inl rfl
          · exact Or.inr ⟨Or.inr h, (hf e h).ne'⟩
        · rintro (rfl | ⟨rfl | h, hne⟩)
          · exact Or.inl rfl
          · exact absurd rfl hne
          · exact Or.inr h
      · rw [List.mem_cons, List.mem_cons, ih hes]
        constructor
        · rintro (rfl | rfl | ⟨h, hne⟩)
          · exact Or.inr ⟨Or.inl rfl, Ne.symm heq⟩
          · exact Or.inl rfl
          · exact Or.inr ⟨Or.inr h, hne⟩
        · rintro (rfl | ⟨rfl | h, hne⟩)
          · exact Or.inr (Or.inl rfl)
          · exact Or.inl rfl
          · exact Or.inr (Or.inr ⟨h, hne⟩)

theorem sorted_insertEntry (k : K) (v : V) {es : List (K × V)}
    (hs : es.Pairwise fun e e' => e.1 < e'.1) :
    (insertEntry k v es).Pairwise fun e e' => e.1 < e'.1 := by
  induction es with
  | nil => exact List.pairwise_singleton _ _
  | cons f es ih =>
      obtain ⟨hf, hes⟩ := List.pairwise_cons.mp hs
      unfold insertEntry
      split_ifs with hlt heq
      · refine List.pairwise_cons.mpr ⟨?_, hs⟩
        intro g hg
        rcases List.mem_cons.mp hg with rfl | hg
        · exact hlt
        · exact hlt.trans (hf g hg)
      · subst heq
        exact List.pairwise_cons.mpr ⟨hf, hes⟩
      · refine List.pairwise_cons.mpr ⟨?_, ih hes⟩
        intro g hg
        rcases (mem_insertEntry hes).mp hg with rfl | ⟨hg, _⟩
        · exact lt_of_le_of_ne (not_lt.mp hlt) (Ne.symm heq)
        · exact hf g hg

def insert (m : OrderedMap K V) (k : K) (v : V) : OrderedMap K V :=
  ⟨insertEntry k v m.entries, sorted_insertEntry k v m.sorted⟩

def find? (m : OrderedMap K V) (k : K) : Option V :=
  (m.entries.find? fun e => e.1 = k).map Prod.snd

def keys (m : OrderedMap K V) : List K := m.entries.map Prod.fst

def size (m : OrderedMap K V) : ℕ := m.entries.length

theorem nodup_keys (m : OrderedMap K V) : m.keys.Nodup :=
  List.pairwise_map.mpr (m.sorted.imp fun h => h.ne)

theorem find?_eq_some {m : OrderedMap K V} {k : K} {v : V} :
    m.find? k = some v ↔ (k, v) ∈ m.entries := by
  unfold find?
  rw [Option.map_eq_some_iff]
  constructor
  · rintro ⟨⟨k', v'⟩, hfind, rfl⟩
    have hk := List.find?_some hfind
    simp only [decide_eq_true_eq] at hk
    subst hk
    exact List.mem_of_find?_eq_some hfind
  · intro hmem
    cases hfind : m.entries.find? fun e => e.1 = k with
    | none => simpa using List.find?_eq_none.mp hfind (k, v) hmem
    | some e =>
        have hk := List.find?_some hfind
        simp only [decide_eq_true_eq] at hk
        have he := List.inj_on_of_nodup_map m.nodup_keys (List.mem_of_find?_eq_some hfind) hmem hk
        exact ⟨e, rfl, by rw [he]⟩

theorem mem_keys_insert {m : OrderedMap K V} {k k' : K} {v : V} :
    k' ∈ (m.insert k v).keys ↔ k' = k ∨ k' ∈ m.keys := by
  unfold keys
  simp only [List.mem_map, insert, mem_insertEntry m.sorted]
  constructor
  · rintro ⟨e, rfl | ⟨he, _⟩, rfl⟩
    · exact Or.inl rfl
    · exact Or.inr ⟨e, he, rfl⟩
  · rintro (rfl | ⟨e, he, rfl⟩)
    · exact ⟨(k', v), Or.inl rfl, rfl⟩
    · by_cases hk : e.1 = k
      · exact ⟨(k, v), Or.inl rfl, hk.symm⟩
      · exact ⟨e, Or.inr ⟨he, hk⟩, rfl⟩

theorem sorted_map (m : OrderedMap K V) (f : K → V → W) :
    (m.entries.map fun e => (e.1, f e.1 e.2)).Pairwise fun e e' => e.1 < e'.1 :=
  List.pairwise_map.mpr m.sorted

def map (m : OrderedMap K V) (f : K → V → W) : OrderedMap K W :=
  ⟨m.entries.map fun e => (e.1, f e.1 e.2), m.sorted_map f⟩

@[simp] theorem keys_map (m : OrderedMap K V) (f : K → V → W) : (m.map f).keys = m.keys := by
  simp [keys, map, Function.comp_def]

end OrderedMap
