import Cafe.Bimap
import Cafe.Handlers
import Cafe.LruList

/-!
# The alert store as a linked list with a lookup table

The table leads from a name to a list node by an iterator, which may be stale.
It never is, so the store does what the list of its entries does alone, and
holds the most recent names.
-/

namespace Cafe

variable {F : Type} [Arith F]

/-- The identity of a list node. An iterator is that of the node it points to. -/
abbrev Iterator := ℕ

/-- An iterator is used after its node has been erased. -/
inductive Dangling
  | iterator

/-- The members of the class `AlertStore`, and the identity of the next node. -/
structure LinkedStore (F : Type) where
  maxSize : ℕ
  order : List (Iterator × AlertStore.Entry F)
  lookup : UnorderedMap (Name F) Iterator
  fresh : Iterator

namespace LinkedStore

open AlertStore (Entry)

def empty (maxSize : ℕ) : LinkedStore F where
  maxSize := maxSize
  order := []
  lookup := ∅
  fresh := 0

/-- The number of stored alerts, `m_lookup.size()`. -/
def size (s : LinkedStore F) : ℕ := s.lookup.keys.length

def names (s : LinkedStore F) : List (Name F) := s.order.map fun node => node.2.name

def deref (s : LinkedStore F) (it : Iterator) : Except Dangling (Entry F) :=
  match s.order.find? fun node => node.1 = it with
  | some node => .ok node.2
  | none => .error .iterator

def isDuplicate (s : LinkedStore F) (name : Name F) : Bool := (s.lookup.lookup name).isSome

def get (s : LinkedStore F) (name : Name F) : Except Dangling (Option (Entry F)) :=
  match s.lookup.lookup name with
  | some it => (s.deref it).map some
  | none => .ok none

/-- `m_order.splice(m_order.begin(), m_order, it)` -/
def splice (s : LinkedStore F) (it : Iterator) : Except Dangling (LinkedStore F) :=
  match s.order.find? fun node => node.1 = it with
  | some node => .ok { s with order := node :: s.order.filter fun node => node.1 ≠ it }
  | none => .error .iterator

def pushFront (s : LinkedStore F) (entry : Entry F) : LinkedStore F where
  maxSize := s.maxSize
  order := (s.fresh, entry) :: s.order
  lookup := s.lookup.insert entry.name s.fresh
  fresh := s.fresh + 1

def evictOldest (s : LinkedStore F) : LinkedStore F :=
  match s.order.getLast? with
  | some oldest =>
      { s with order := s.order.dropLast, lookup := s.lookup.erase oldest.2.name }
  | none => s

def insertOrUpdate (s : LinkedStore F) (entry : Entry F) :
    Except Dangling (Bool × LinkedStore F) :=
  match s.lookup.lookup entry.name with
  | some it => (s.splice it).map fun s' => (false, s')
  | none =>
      let s' := s.pushFront entry
      .ok (true, if s'.maxSize < s'.size then s'.evictOldest else s')

def setMaxSize (s : LinkedStore F) (maxSize : ℕ) : LinkedStore F := { s with maxSize := maxSize }

end LinkedStore

namespace AlertStore

/-- The calls of the class. -/
inductive Call (F : Type)
  | insertOrUpdate (entry : Entry F)
  | isDuplicate (name : Name F)
  | get (name : Name F)
  | setMaxSize (maxSize : ℕ)

inductive Answer (F : Type)
  | inserted (b : Bool)
  | duplicate (b : Bool)
  | entry (e : Option (Entry F))
  | done

def setMaxSize (as : AlertStore F) (maxSize : ℕ) : AlertStore F := { as with maxSize := maxSize }

/-- An empty store, as in a fresh context but of any size. -/
def ofSize (maxSize : ℕ) : AlertStore F := (Context.init F).alertStore.setMaxSize maxSize

@[simp] theorem ofSize_maxSize (n : ℕ) : (ofSize n : AlertStore F).maxSize = n := rfl

@[simp] theorem ofSize_order (n : ℕ) : (ofSize n : AlertStore F).order = [] := rfl

/-- The store after a call, on the list of entries alone. -/
def after (as : AlertStore F) : Call F → AlertStore F
  | .insertOrUpdate entry => as.insertOrUpdate entry
  | .setMaxSize maxSize => as.setMaxSize maxSize
  | _ => as

def answer (as : AlertStore F) : Call F → Answer F
  | .insertOrUpdate entry => .inserted (decide ¬ as.isDuplicate entry.name)
  | .isDuplicate name => .duplicate (decide (as.isDuplicate name))
  | .get name => .entry (as.get name)
  | .setMaxSize _ => .done

/-- Every call but the one that sets the size. -/
def Call.KeepsSize : Call F → Prop
  | setMaxSize _ => False
  | _ => True

end AlertStore

namespace LinkedStore

open AlertStore (Entry Call Answer)

def call (s : LinkedStore F) : Call F → Except Dangling (Answer F × LinkedStore F)
  | .insertOrUpdate entry => (s.insertOrUpdate entry).map fun r => (.inserted r.1, r.2)
  | .isDuplicate name => .ok (.duplicate (s.isDuplicate name), s)
  | .get name => (s.get name).map fun e => (.entry e, s)
  | .setMaxSize maxSize => .ok (.done, s.setMaxSize maxSize)

/-- The calls of a list one after the other, with the store after them. -/
def run (s : LinkedStore F) : List (Call F) → Except Dangling (LinkedStore F)
  | [] => .ok s
  | c :: cs => do
      let (_, s') ← s.call c
      s'.run cs

/-! ## The table and the list -/

/-- The table and the list are in bijection: every entry of the table points to
the node with its name, every node is pointed to, and no name and no node occurs
twice. -/
structure Linked (s : LinkedStore F) : Prop where
  nodes : (s.order.map Prod.fst).Nodup
  nodup : s.names.Nodup
  points : ∀ name it, s.lookup.lookup name = some it ↔
    ∃ entry, (it, entry) ∈ s.order ∧ entry.name = name
  older : ∀ node ∈ s.order, node.1 < s.fresh

/-- The linked store holds the entries of a list. -/
structure Represents (s : LinkedStore F) (as : AlertStore F) : Prop where
  linked : s.Linked
  maxSize_eq : s.maxSize = as.maxSize
  order_eq : s.order.map Prod.snd = as.order

end LinkedStore

section Lists

variable {A B C : Type*} [DecidableEq B] [DecidableEq C] {f : A → B} {g : A → C}
    {l : List A} {x : A}

theorem filter_of_nodup_map (hf : (l.map f).Nodup) (hx : x ∈ l) :
    l.filter (fun y => f y = f x) = [x] := by
  induction l with
  | nil => simp at hx
  | cons y l ih =>
      rw [List.map_cons, List.nodup_cons] at hf
      rcases List.mem_cons.mp hx with rfl | hx
      · rw [List.filter_cons_of_pos (by simp), List.filter_eq_nil_iff.mpr]
        intro z hz heq
        have heq : f z = f x := by simpa using heq
        exact hf.1 (heq ▸ List.mem_map_of_mem hz)
      · have hne : f y ≠ f x := by
          intro heq
          exact hf.1 (heq ▸ List.mem_map_of_mem hx)
        rw [List.filter_cons_of_neg (by simpa using hne), ih hf.2 hx]

/-- Two keys that both tell the elements apart remove the same one. -/
theorem filter_ne_congr (hf : (l.map f).Nodup) (hg : (l.map g).Nodup) (hx : x ∈ l) :
    l.filter (fun y => f y ≠ f x) = l.filter fun y => g y ≠ g x := by
  apply List.filter_congr
  intro y hy
  have h : f y = f x ↔ g y = g x := by
    constructor
    · intro h
      rw [List.inj_on_of_nodup_map hf hy hx h]
    · intro h
      rw [List.inj_on_of_nodup_map hg hy hx h]
  simp [h]

end Lists

namespace LinkedStore

open AlertStore (Entry Call Answer)

variable {s s' : LinkedStore F} {as : AlertStore F}

theorem Represents.names_eq (h : s.Represents as) : s.names = as.names := by
  rw [AlertStore.names, ← h.order_eq, List.map_map]
  rfl

theorem Represents.length_eq (h : s.Represents as) : s.order.length = as.order.length := by
  rw [← h.order_eq, List.length_map]

theorem Linked.mem_keys (h : s.Linked) (name : Name F) : name ∈ s.lookup.keys ↔ name ∈ s.names := by
  rw [← AList.mem_keys, ← AList.lookup_isSome, Option.isSome_iff_exists]
  constructor
  · rintro ⟨it, hit⟩
    obtain ⟨entry, hmem, rfl⟩ := (h.points name it).mp hit
    exact List.mem_map_of_mem (f := fun node : Iterator × Entry F => node.2.name) hmem
  · intro hname
    obtain ⟨⟨it, entry⟩, hmem, rfl⟩ := List.mem_map.mp hname
    exact ⟨it, (h.points _ it).mpr ⟨entry, hmem, rfl⟩⟩

/-- The table has as many entries as the list. -/
theorem Linked.size_eq (h : s.Linked) : s.size = s.order.length := by
  have hperm : List.Perm s.lookup.keys s.names :=
    (List.perm_ext_iff_of_nodup s.lookup.keys_nodup h.nodup).mpr h.mem_keys
  rw [size, hperm.length_eq, names, List.length_map]

theorem Represents.isDuplicate_eq (h : s.Represents as) (name : Name F) :
    s.isDuplicate name = decide (as.isDuplicate name) := by
  rw [Bool.eq_iff_iff, isDuplicate, AList.lookup_isSome, AList.mem_keys, h.linked.mem_keys,
    h.names_eq, decide_eq_true_iff]
  rfl

theorem Linked.deref_eq (h : s.Linked) {it : Iterator} {entry : Entry F}
    (hmem : (it, entry) ∈ s.order) : s.deref it = .ok entry := by
  have hfind := Bimap.find?_of_nodup_map h.nodes hmem
  rw [deref, hfind]

theorem Represents.get_eq (h : s.Represents as) (name : Name F) :
    s.get name = .ok (as.get name) := by
  cases hit : s.lookup.lookup name with
  | none =>
      have hnew : as.get name = none := by
        rw [AlertStore.get, List.find?_eq_none]
        intro entry hentry heq
        have hname : name ∈ as.names := List.mem_map.mpr ⟨entry, hentry, by simpa using heq⟩
        rw [← h.names_eq, ← h.linked.mem_keys, ← AList.mem_keys, ← AList.lookup_isSome,
          hit] at hname
        cases hname
      rw [get, hit, hnew]
  | some it =>
      obtain ⟨entry, hmem, rfl⟩ := (h.linked.points name it).mp hit
      have hin : entry ∈ as.order := by
        rw [← h.order_eq]
        exact List.mem_map_of_mem (f := Prod.snd) hmem
      simp only [get, hit, h.linked.deref_eq hmem, AlertStore.get,
        Bimap.find?_of_nodup_map as.nodup hin, Except.map]

theorem Linked.splice_eq (h : s.Linked) {it : Iterator} {entry : Entry F}
    (hmem : (it, entry) ∈ s.order) : s.splice it =
      .ok { s with order := (it, entry) :: s.order.filter fun node => node.1 ≠ it } := by
  have hfind := Bimap.find?_of_nodup_map h.nodes hmem
  rw [splice, hfind]

/-- An iterator of the table is valid, and its node moves to the front. -/
theorem Represents.splice (h : s.Represents as) {name : Name F} {it : Iterator}
    (hit : s.lookup.lookup name = some it) :
    ∃ s', s.splice it = .ok s' ∧ s'.Represents (as.splice name) := by
  obtain ⟨entry, hmem, rfl⟩ := (h.linked.points name it).mp hit
  have hperm : List.Perm ((it, entry) :: s.order.filter fun node => node.1 ≠ it) s.order := by
    have hsplit := List.filter_append_perm (fun node : Iterator × Entry F => decide (node.1 = it))
      s.order
    rw [filter_of_nodup_map h.linked.nodes hmem] at hsplit
    simpa using hsplit
  refine ⟨_, h.linked.splice_eq hmem, ⟨?_, ?_, ?_, ?_⟩, h.maxSize_eq, ?_⟩
  · exact ((hperm.map Prod.fst).nodup_iff).mpr h.linked.nodes
  · have hnodup : (s.order.map fun node => node.2.name).Nodup := h.linked.nodup
    exact ((hperm.map fun node => node.2.name).nodup_iff).mpr hnodup
  · intro name' it'
    simp only [hperm.mem_iff]
    exact h.linked.points name' it'
  · intro node hnode
    exact h.linked.older node (hperm.mem_iff.mp hnode)
  · have hin : entry ∈ as.order := by
      rw [← h.order_eq]
      exact List.mem_map_of_mem (f := Prod.snd) hmem
    have hsame : s.order.filter (fun node => node.1 ≠ it) =
        s.order.filter fun node => node.2.name ≠ entry.name :=
      filter_ne_congr h.linked.nodes h.linked.nodup hmem
    simp only [AlertStore.splice, filter_of_nodup_map as.nodup hin, List.singleton_append]
    rw [hsame, ← h.order_eq, List.filter_map, List.map_cons]
    congr 1

theorem Represents.pushFront (h : s.Represents as) {entry : Entry F}
    (hnew : ¬ as.isDuplicate entry.name) :
    (s.pushFront entry).Represents (as.pushFront entry hnew) := by
  have hname : entry.name ∉ s.names := by
    rw [h.names_eq]
    exact hnew
  refine ⟨⟨?_, ?_, ?_, ?_⟩, h.maxSize_eq, ?_⟩
  · rw [LinkedStore.pushFront, List.map_cons, List.nodup_cons]
    refine ⟨?_, h.linked.nodes⟩
    intro hfresh
    obtain ⟨node, hnode, heq⟩ := List.mem_map.mp hfresh
    exact absurd (h.linked.older node hnode) (heq ▸ lt_irrefl _)
  · exact List.nodup_cons.mpr ⟨hname, h.linked.nodup⟩
  · intro name it
    simp only [LinkedStore.pushFront, List.mem_cons, Prod.mk.injEq]
    by_cases heq : name = entry.name
    · rw [heq, AList.lookup_insert]
      constructor
      · intro hit
        exact ⟨entry, .inl ⟨(Option.some.inj hit).symm, rfl⟩, rfl⟩
      · rintro ⟨other, ⟨rfl, rfl⟩ | hmem, hother⟩
        · rfl
        · rw [← hother] at hname
          exact absurd
            (List.mem_map_of_mem (f := fun node : Iterator × Entry F => node.2.name) hmem)
            hname
    · rw [AList.lookup_insert_ne heq, h.linked.points]
      constructor
      · rintro ⟨other, hmem, hother⟩
        exact ⟨other, .inr hmem, hother⟩
      · rintro ⟨other, ⟨rfl, rfl⟩ | hmem, hother⟩
        · exact absurd hother.symm heq
        · exact ⟨other, hmem, hother⟩
  · intro node hnode
    rcases List.mem_cons.mp hnode with rfl | hnode
    · exact Nat.lt_succ_self _
    · exact Nat.lt_succ_of_lt (h.linked.older node hnode)
  · rw [LinkedStore.pushFront, List.map_cons, h.order_eq]
    rfl

/-- The node at the back is erased with its entry in the table. -/
theorem Represents.evictOldest (h : s.Represents as) :
    s.evictOldest.Represents as.evictOldest := by
  have hlast : as.evictOldest.order = (s.order.map Prod.snd).dropLast := by
    rw [h.order_eq]
    rfl
  rcases List.eq_nil_or_concat' s.order with hnil | ⟨rest, ⟨it, oldest⟩, horder⟩
  · have hevict : s.evictOldest = s := by
      rw [LinkedStore.evictOldest, hnil, List.getLast?_nil]
    rw [hevict]
    refine ⟨h.linked, h.maxSize_eq, ?_⟩
    rw [hlast, hnil]
    rfl
  · have hnodes := h.linked.nodes
    have hnodup := h.linked.nodup
    rw [horder, List.map_append] at hnodes
    rw [names, horder, List.map_append] at hnodup
    have hother : ∀ node ∈ rest, node.2.name ≠ oldest.name := by
      intro node hnode heq
      exact (List.disjoint_of_nodup_append hnodup)
        (List.mem_map_of_mem (f := fun node : Iterator × Entry F => node.2.name) hnode)
        (by simp [heq])
    have hevict : s.evictOldest =
        { s with order := rest, lookup := s.lookup.erase oldest.name } := by
      simp [LinkedStore.evictOldest, horder]
    rw [hevict]
    refine ⟨⟨hnodes.of_append_left, hnodup.of_append_left, ?_, ?_⟩, h.maxSize_eq, ?_⟩
    · intro name it'
      by_cases heq : name = oldest.name
      · rw [heq, AList.lookup_erase]
        constructor
        · intro hnone
          cases hnone
        · rintro ⟨entry, hmem, hentry⟩
          exact absurd hentry (hother _ hmem)
      · simp only [AList.lookup_erase_ne heq, h.linked.points, horder, List.mem_append,
          List.mem_singleton, Prod.mk.injEq]
        constructor
        · rintro ⟨entry, hmem | ⟨rfl, rfl⟩, hentry⟩
          · exact ⟨entry, hmem, hentry⟩
          · exact absurd hentry.symm heq
        · rintro ⟨entry, hmem, hentry⟩
          exact ⟨entry, .inl hmem, hentry⟩
    · intro node hnode
      apply h.linked.older node
      rw [horder]
      exact List.mem_append_left _ hnode
    · rw [hlast, horder, List.map_append, List.map_singleton, List.dropLast_concat]

/-- The linked store does what the list of entries does. -/
theorem Represents.insertOrUpdate (h : s.Represents as) (entry : Entry F) :
    ∃ s', s.insertOrUpdate entry = .ok (decide ¬ as.isDuplicate entry.name, s') ∧
      s'.Represents (as.insertOrUpdate entry) := by
  have hdup := h.isDuplicate_eq entry.name
  cases hit : s.lookup.lookup entry.name with
  | some it =>
      have hdup : as.isDuplicate entry.name := by simpa [isDuplicate, hit] using hdup
      obtain ⟨s', hs', hrep⟩ := h.splice hit
      refine ⟨s', ?_, ?_⟩
      · simp only [LinkedStore.insertOrUpdate, hit, hs', Except.map, hdup, not_true_eq_false,
          decide_false]
      · rw [AlertStore.insertOrUpdate, dif_pos hdup]
        exact hrep
  | none =>
      have hnew : ¬ as.isDuplicate entry.name := by simpa [isDuplicate, hit] using hdup
      have hpush := h.pushFront hnew
      have hsize : (s.pushFront entry).size = (as.pushFront entry hnew).order.length := by
        rw [hpush.linked.size_eq, hpush.length_eq]
      refine ⟨if (s.pushFront entry).maxSize < (s.pushFront entry).size then
        (s.pushFront entry).evictOldest else s.pushFront entry, ?_, ?_⟩
      · simp only [LinkedStore.insertOrUpdate, hit, hnew, not_false_eq_true, decide_true]
      · rw [AlertStore.insertOrUpdate, dif_neg hnew, hsize, hpush.maxSize_eq]
        by_cases hfull : (as.pushFront entry hnew).maxSize < (as.pushFront entry hnew).order.length
        · simp only [if_pos hfull]
          exact hpush.evictOldest
        · simp only [if_neg hfull]
          exact hpush

theorem Represents.setMaxSize (h : s.Represents as) (maxSize : ℕ) :
    (s.setMaxSize maxSize).Represents (as.setMaxSize maxSize) :=
  ⟨⟨h.linked.nodes, h.linked.nodup, h.linked.points, h.linked.older⟩, rfl, h.order_eq⟩

theorem Represents.call (h : s.Represents as) (c : Call F) :
    ∃ s', s.call c = .ok (as.answer c, s') ∧ s'.Represents (as.after c) := by
  cases c with
  | insertOrUpdate entry =>
      obtain ⟨s', hs', hrep⟩ := h.insertOrUpdate entry
      exact ⟨s', by rw [LinkedStore.call, hs']; rfl, hrep⟩
  | isDuplicate name => exact ⟨s, by rw [LinkedStore.call, h.isDuplicate_eq]; rfl, h⟩
  | get name => exact ⟨s, by rw [LinkedStore.call, h.get_eq]; rfl, h⟩
  | setMaxSize maxSize => exact ⟨_, rfl, h.setMaxSize maxSize⟩

/-- No call ever uses a stale iterator. -/
theorem Represents.run (h : s.Represents as) (cs : List (Call F)) :
    ∃ s', s.run cs = .ok s' ∧ s'.Represents (cs.foldl AlertStore.after as) := by
  induction cs generalizing s as with
  | nil => exact ⟨s, rfl, h⟩
  | cons c cs ih =>
      obtain ⟨t, ht, hrep⟩ := h.call c
      obtain ⟨s', hs', hrep'⟩ := ih hrep
      refine ⟨s', ?_, hrep'⟩
      rw [LinkedStore.run, ht]
      exact hs'

end LinkedStore

namespace AlertStore

open LruList

/-! ## The names that are stored -/

/-- The name that a call uses. -/
def Call.uses : Call F → Option (Name F)
  | insertOrUpdate entry => some entry.name
  | _ => none

/-- The distinct names that were inserted or updated last, at most `n` of them. -/
def mostRecent (n : ℕ) (cs : List (Call F)) : List (Name F) :=
  (recent (cs.filterMap Call.uses).reverse).take n

theorem mostRecent_insert (n : ℕ) (cs : List (Call F)) (entry : Entry F) :
    mostRecent n (cs ++ [.insertOrUpdate entry]) = touch n (mostRecent n cs) entry.name := by
  simp [mostRecent, touch_take_recent, Call.uses]

theorem mostRecent_of_uses_none (n : ℕ) (cs : List (Call F)) {c : Call F} (hc : c.uses = none) :
    mostRecent n (cs ++ [c]) = mostRecent n cs := by
  simp [mostRecent, hc]

/-- The entry is the argument of a call that stored it, and its name has been
stored ever since. -/
def Created (n : ℕ) (cs : List (Call F)) (entry : Entry F) : Prop :=
  ∃ pre post, cs = pre ++ .insertOrUpdate entry :: post ∧ entry.name ∉ mostRecent n pre ∧
    ∀ mid rest, post = mid ++ rest → entry.name ∈ mostRecent n (pre ++ .insertOrUpdate entry :: mid)

theorem Created.snoc {n : ℕ} {cs : List (Call F)} {entry : Entry F} (h : Created n cs entry)
    {c : Call F} (hstored : entry.name ∈ mostRecent n (cs ++ [c])) :
    Created n (cs ++ [c]) entry := by
  obtain ⟨pre, post, rfl, hnew, hkept⟩ := h
  refine ⟨pre, post ++ [c], by simp, hnew, ?_⟩
  intro mid rest heq
  rcases List.eq_nil_or_concat' rest with rfl | ⟨rest, d, rfl⟩
  · rw [List.append_nil] at heq
    rw [← heq]
    simpa using hstored
  · rw [← List.append_assoc] at heq
    exact hkept mid rest (List.append_inj' heq rfl).1

variable {as : AlertStore F} {entry : Entry F}

/-- A store that is not overfull uses a name as a recency list does. -/
theorem names_insertOrUpdate (hsize : as.order.length ≤ as.maxSize) :
    (as.insertOrUpdate entry).names = touch as.maxSize as.names entry.name := by
  by_cases hdup : as.isDuplicate entry.name
  · obtain ⟨old, hold, hname⟩ := List.mem_map.mp hdup
    have hfirst := filter_of_nodup_map as.nodup hold
    rw [hname] at hfirst
    have hmem : entry.name ∈ as.names := hdup
    rw [touch, if_pos hmem, insertOrUpdate, dif_pos hdup]
    simp only [names, splice, hfirst, List.filter_map, List.singleton_append]
    rw [List.map_cons, hname]
    congr 1
  · have hmem : entry.name ∉ as.names := hdup
    rw [touch, if_neg hmem]
    rcases hsize.lt_or_eq with hroom | hfull
    · rw [names, insertOrUpdate_order hdup hroom, List.map_cons, List.take_of_length_le]
      · rfl
      · simpa [names] using hroom
    · rw [names, insertOrUpdate_order_full hdup hfull.ge, List.map_dropLast, List.map_cons,
        List.dropLast_eq_take, List.length_cons, List.length_map, hfull, Nat.add_sub_cancel]
      rfl

theorem mem_insertOrUpdate {other : Entry F} (h : other ∈ (as.insertOrUpdate entry).order) :
    other ∈ as.order ∨ other = entry ∧ ¬ as.isDuplicate entry.name := by
  by_cases hdup : as.isDuplicate entry.name
  · rw [insertOrUpdate, dif_pos hdup] at h
    rcases List.mem_append.mp h with h | h
    · exact .inl (List.mem_filter.mp h).1
    · exact .inl (List.mem_filter.mp h).1
  · have hfront : other ∈ entry :: as.order := by
      rcases lt_or_ge as.order.length as.maxSize with hroom | hfull
      · rwa [insertOrUpdate_order hdup hroom] at h
      · rw [insertOrUpdate_order_full hdup hfull] at h
        exact List.mem_of_mem_dropLast h
    rcases List.mem_cons.mp hfront with rfl | hold
    · exact .inr ⟨rfl, hdup⟩
    · exact .inl hold

/-- What calls that keep the size have stored. -/
theorem foldl_after (n : ℕ) (cs : List (Call F)) (hcs : ∀ c ∈ cs, c.KeepsSize) :
    (cs.foldl after (ofSize n)).maxSize = n ∧
      (cs.foldl after (ofSize n)).names = mostRecent n cs ∧
      ∀ entry ∈ (cs.foldl after (ofSize n)).order, Created n cs entry := by
  induction cs using List.reverseRecOn with
  | nil => simp [names, mostRecent, recent]
  | append_singleton cs c ih =>
      obtain ⟨hmax, hnames, hcreated⟩ := ih fun c hc => hcs c (List.mem_append_left _ hc)
      have hstored : ∀ entry ∈ (cs.foldl after (ofSize n)).order, entry.name ∈ mostRecent n cs := by
        intro entry hentry
        rw [← hnames]
        exact List.mem_map_of_mem hentry
      have hsize : (cs.foldl after (ofSize n)).order.length ≤ n := by
        have hlen : (cs.foldl after (ofSize n)).names.length ≤ n := by
          rw [hnames]
          exact List.length_take_le _ _
        rwa [names, List.length_map] at hlen
      rw [List.foldl_append, List.foldl_cons, List.foldl_nil]
      have hquery : ∀ (huses : c.uses = none), mostRecent n (cs ++ [c]) = mostRecent n cs ∧
          ∀ entry ∈ (cs.foldl after (ofSize n)).order, Created n (cs ++ [c]) entry := by
        intro huses
        have hsame := mostRecent_of_uses_none n cs huses
        refine ⟨hsame, ?_⟩
        intro entry hentry
        apply (hcreated entry hentry).snoc
        rw [hsame]
        exact hstored entry hentry
      cases c with
      | isDuplicate name => exact ⟨hmax, hnames.trans (hquery rfl).1.symm, (hquery rfl).2⟩
      | get name => exact ⟨hmax, hnames.trans (hquery rfl).1.symm, (hquery rfl).2⟩
      | setMaxSize maxSize => exact absurd (hcs (.setMaxSize maxSize) (by simp)) id
      | insertOrUpdate entry =>
          have hnames' : ((cs.foldl after (ofSize n)).after (.insertOrUpdate entry)).names =
              mostRecent n (cs ++ [.insertOrUpdate entry]) := by
            rw [mostRecent_insert, ← hnames, after,
              names_insertOrUpdate (hsize.trans hmax.ge), hmax]
          refine ⟨(insertOrUpdate_maxSize _ _).trans hmax, hnames', ?_⟩
          intro other hother
          have hin : other.name ∈ mostRecent n (cs ++ [.insertOrUpdate entry]) := by
            rw [← hnames']
            exact List.mem_map_of_mem hother
          rcases mem_insertOrUpdate hother with hold | ⟨rfl, hnew⟩
          · exact (hcreated other hold).snoc hin
          · refine ⟨cs, [], rfl, ?_, ?_⟩
            · rw [← hnames]
              exact hnew
            · intro mid rest hnil
              obtain ⟨rfl, rfl⟩ := List.append_eq_nil_iff.mp hnil.symm
              exact hin

end AlertStore

namespace LinkedStore

open AlertStore (Entry Call Answer mostRecent Created ofSize)

theorem empty_represents (maxSize : ℕ) :
    (empty maxSize : LinkedStore F).Represents (ofSize maxSize) := by
  refine ⟨⟨List.nodup_nil, List.nodup_nil, ?_, ?_⟩, rfl, rfl⟩
  · intro name it
    simp [empty]
  · intro node hnode
    cases hnode

/-- The store is a map of the least recently used kind: after any calls that
leave its size alone, its names are the most recently used ones, its list and
its table agree, and each call answers accordingly. -/
theorem is_lru_map (n : ℕ) (cs : List (Call F)) (hcs : ∀ c ∈ cs, c.KeepsSize) :
    ∃ s, (empty n).run cs = .ok s ∧ s.Linked ∧ s.order.length = s.size ∧ s.size ≤ n ∧
      s.names = mostRecent n cs ∧ (∀ node ∈ s.order, Created n cs node.2) ∧
      (∀ name, s.call (.isDuplicate name) =
        .ok (.duplicate (decide (name ∈ mostRecent n cs)), s)) ∧
      (∀ name, ∃ e, s.call (.get name) = .ok (.entry e, s) ∧
        (e.isSome ↔ name ∈ mostRecent n cs) ∧
        ∀ entry, e = some entry → entry.name = name ∧ Created n cs entry) ∧
      ∀ entry, ∃ s', s.call (.insertOrUpdate entry) =
        .ok (.inserted (decide (entry.name ∉ mostRecent n cs)), s') := by
  obtain ⟨s, hs, hrep⟩ := (empty_represents n).run cs
  obtain ⟨-, hnames, hcreated⟩ := AlertStore.foldl_after n cs hcs
  have hdup : ∀ name, (cs.foldl AlertStore.after (ofSize n)).isDuplicate name ↔
      name ∈ mostRecent n cs := by
    intro name
    rw [← hnames]
    rfl
  refine ⟨s, hs, hrep.linked, hrep.linked.size_eq.symm, ?_, hrep.names_eq.trans hnames, ?_,
    ?_, ?_, ?_⟩
  · have hlen : (mostRecent n cs).length ≤ n := List.length_take_le _ _
    rwa [← hnames, ← hrep.names_eq, names, List.length_map, ← hrep.linked.size_eq] at hlen
  · intro node hnode
    apply hcreated
    rw [← hrep.order_eq]
    exact List.mem_map_of_mem hnode
  · intro name
    rw [call, hrep.isDuplicate_eq]
    simp only [hdup]
  · intro name
    refine ⟨_, by rw [call, hrep.get_eq]; rfl, ?_, ?_⟩
    · rw [← hdup]
      simp [AlertStore.get, AlertStore.isDuplicate, AlertStore.names]
    · intro entry hget
      have hmem := List.mem_of_find?_eq_some hget
      exact ⟨by simpa using List.find?_some hget, hcreated entry hmem⟩
  · intro entry
    obtain ⟨s', hs', -⟩ := hrep.call (.insertOrUpdate entry)
    refine ⟨s', ?_⟩
    rw [hs', AlertStore.answer]
    simp only [hdup]

/-- The alerts that the examples store. -/
def alert (b : UInt8) : Entry ℝ where
  name := [.generic [b]]
  senderType := .vehicle
  senderPos := ⟨0, 0⟩

theorem alert_name {b c : UInt8} : (alert b).name = (alert c).name ↔ b = c := by
  simp [alert]

theorem is_lru_map_three : ∃ s : LinkedStore ℝ, (empty 2).run [.insertOrUpdate (alert 1),
    .insertOrUpdate (alert 2), .insertOrUpdate (alert 1), .insertOrUpdate (alert 3)] = .ok s ∧
      s.Linked ∧ s.names = [(alert 3).name, (alert 1).name] := by
  obtain ⟨s, hs, hlinked, -, -, hnames, -⟩ := is_lru_map 2 [.insertOrUpdate (alert 1),
    .insertOrUpdate (alert 2), .insertOrUpdate (alert 1), .insertOrUpdate (alert 3)]
    (by simp [Call.KeepsSize])
  refine ⟨s, hs, hlinked, ?_⟩
  rw [hnames]
  simp [mostRecent, LruList.recent, Call.uses, alert_name]

end LinkedStore

namespace AlertStore

/-! ## The bound when it is set anew -/

variable {as : AlertStore F}

/-- An insertion adds an entry only while there is room. -/
theorem length_insertOrUpdate (entry : Entry F) : (as.insertOrUpdate entry).order.length =
    if ¬ as.isDuplicate entry.name ∧ as.order.length < as.maxSize then as.order.length + 1
    else as.order.length := by
  by_cases hdup : as.isDuplicate entry.name
  · have hperm := List.filter_append_perm (fun e : Entry F => decide (e.name = entry.name)) as.order
    rw [if_neg fun h => h.1 hdup, insertOrUpdate, dif_pos hdup, ← hperm.length_eq]
    simp [splice]
  · rcases lt_or_ge as.order.length as.maxSize with hroom | hfull
    · rw [if_pos ⟨hdup, hroom⟩, insertOrUpdate_order hdup hroom, List.length_cons]
    · rw [if_neg fun h => Nat.not_lt_of_le hfull h.2, insertOrUpdate_order_full hdup hfull,
        List.length_dropLast, List.length_cons, Nat.add_sub_cancel]

theorem length_le_after (c : Call F) : as.order.length ≤ (as.after c).order.length := by
  cases c with
  | insertOrUpdate entry =>
      rw [after, length_insertOrUpdate]
      split <;> omega
  | _ => exact le_refl _

theorem length_le_foldl (cs : List (Call F)) :
    as.order.length ≤ (cs.foldl after as).order.length := by
  induction cs generalizing as with
  | nil => exact le_refl _
  | cons c cs ih => exact (length_le_after c).trans ih

theorem Call.KeepsSize.maxSize_after {c : Call F} (h : c.KeepsSize) :
    (as.after c).maxSize = as.maxSize := by
  cases c with
  | insertOrUpdate entry => exact insertOrUpdate_maxSize as entry
  | setMaxSize maxSize => exact absurd h id
  | _ => rfl

theorem maxSize_foldl {cs : List (Call F)} (hcs : ∀ c ∈ cs, c.KeepsSize) :
    (cs.foldl after as).maxSize = as.maxSize := by
  induction cs generalizing as with
  | nil => rfl
  | cons c cs ih =>
      rw [List.foldl_cons, ih fun d hd => hcs d (List.mem_cons_of_mem _ hd),
        (hcs c List.mem_cons_self).maxSize_after]

theorem Call.KeepsSize.length_after_le {c : Call F} (h : c.KeepsSize)
    (hsize : as.order.length ≤ as.maxSize) : (as.after c).order.length ≤ as.maxSize := by
  cases c with
  | insertOrUpdate entry =>
      rw [after, length_insertOrUpdate]
      split <;> omega
  | setMaxSize maxSize => exact absurd h id
  | _ => exact hsize

/-- A store is overfull only since its bound was set to less than it held. -/
theorem overfull_cases (n : ℕ) (cs : List (Call F)) :
    (cs.foldl after (ofSize n)).order.length ≤ (cs.foldl after (ofSize n)).maxSize ∨
      ∃ pre m mid, cs = pre ++ .setMaxSize m :: mid ∧ (∀ c ∈ mid, c.KeepsSize) ∧
        m < (pre.foldl after (ofSize n)).order.length := by
  induction cs using List.reverseRecOn with
  | nil => exact .inl (Nat.zero_le _)
  | append_singleton cs c ih =>
      rw [List.foldl_append, List.foldl_cons, List.foldl_nil]
      by_cases hc : c.KeepsSize
      · rcases ih with hle | ⟨pre, m, mid, rfl, hmid, hlt⟩
        · rw [hc.maxSize_after]
          exact .inl (hc.length_after_le hle)
        · refine .inr ⟨pre, m, mid ++ [c], by simp, ?_, hlt⟩
          intro d hd
          rcases List.mem_append.mp hd with hd | hd
          · exact hmid d hd
          · rwa [List.mem_singleton.mp hd]
      · cases c with
        | setMaxSize m =>
            rcases le_or_gt (cs.foldl after (ofSize n)).order.length m with hle | hlt
            · exact .inl hle
            · exact .inr ⟨cs, m, [], rfl, by simp, hlt⟩
        | _ => exact absurd trivial hc

end AlertStore

namespace LinkedStore

open AlertStore (Entry Call ofSize)

theorem run_eq {n : ℕ} {cs : List (Call F)} {s : LinkedStore F} (h : (empty n).run cs = .ok s) :
    s.Represents (cs.foldl AlertStore.after (ofSize n)) := by
  obtain ⟨t, ht, hrep⟩ := (empty_represents n).run cs
  rw [h] at ht
  obtain rfl := Except.ok.inj ht
  exact hrep

theorem Represents.size_eq {s : LinkedStore F} {as : AlertStore F} (h : s.Represents as) :
    s.size = as.order.length := by
  rw [h.linked.size_eq, h.length_eq]

theorem Represents.of_insertOrUpdate {s s' : LinkedStore F} {as : AlertStore F} {entry : Entry F}
    {b : Bool} (h : s.Represents as) (hins : s.insertOrUpdate entry = .ok (b, s')) :
    b = decide (¬ as.isDuplicate entry.name) ∧ s'.Represents (as.insertOrUpdate entry) := by
  obtain ⟨t, ht, hrep⟩ := h.insertOrUpdate entry
  rw [hins] at ht
  obtain ⟨rfl, rfl⟩ := Prod.mk.inj (Except.ok.inj ht)
  exact ⟨rfl, hrep⟩

/-- Every insertion leaves the store within its bound iff no name is inserted
anew while the bound in force is one that was less than the number of alerts
stored when it was set. -/
theorem within_bound_iff (n : ℕ) (cs : List (Call F)) :
    (∀ pre entry post s s', cs = pre ++ .insertOrUpdate entry :: post →
        (empty n).run pre = .ok s → s.insertOrUpdate entry = .ok (true, s') →
        s'.size ≤ s'.maxSize) ↔
      ∀ pre m mid entry post s t,
        cs = pre ++ .setMaxSize m :: (mid ++ .insertOrUpdate entry :: post) →
        (∀ c ∈ mid, c.KeepsSize) → (empty n).run pre = .ok s → m < s.size →
        (empty n).run (pre ++ .setMaxSize m :: mid) = .ok t → t.isDuplicate entry.name := by
  constructor
  · intro h pre m mid entry post s t hcs hmid hs hlt ht
    by_contra hdup
    have hreps := run_eq hs
    have hrept := run_eq ht
    obtain ⟨t', ht', hrep'⟩ := hrept.insertOrUpdate entry
    rw [hrept.isDuplicate_eq, decide_eq_true_iff] at hdup
    rw [decide_eq_true hdup] at ht'
    have hbound := h (pre ++ .setMaxSize m :: mid) entry post t t' (by simp [hcs]) ht ht'
    rw [hrep'.size_eq, hrep'.maxSize_eq, AlertStore.insertOrUpdate_maxSize] at hbound
    have hforce :
        ((pre ++ .setMaxSize m :: mid).foldl AlertStore.after (ofSize n)).maxSize = m := by
      rw [List.foldl_append, List.foldl_cons, AlertStore.maxSize_foldl hmid]
      rfl
    have hmono : (pre.foldl AlertStore.after (ofSize n)).order.length ≤
        (((pre ++ .setMaxSize m :: mid).foldl AlertStore.after (ofSize n)).insertOrUpdate
          entry).order.length := by
      rw [List.foldl_append]
      exact (AlertStore.length_le_foldl _).trans
        (AlertStore.length_le_after (.insertOrUpdate entry))
    rw [hreps.size_eq] at hlt
    omega
  · intro h pre entry post s s' hcs hs hins
    have hrep := run_eq hs
    obtain ⟨hnew, hrep'⟩ := hrep.of_insertOrUpdate hins
    rw [hrep'.size_eq, hrep'.maxSize_eq, AlertStore.insertOrUpdate_maxSize]
    rcases AlertStore.overfull_cases n pre with hle | ⟨pre', m, mid, rfl, hmid, hlt⟩
    · exact Call.KeepsSize.length_after_le (c := .insertOrUpdate entry) trivial hle
    · obtain ⟨r, hr, hrepr⟩ := (empty_represents n).run pre'
      rw [← hrepr.size_eq] at hlt
      have hdup := h pre' m mid entry post r s (by simp [hcs]) hmid hr hlt hs
      rw [hrep.isDuplicate_eq, decide_eq_true_iff] at hdup
      exact absurd hdup (of_decide_eq_true hnew.symm)

theorem two_stored :
    (((ofSize 2).insertOrUpdate (alert 1)).insertOrUpdate (alert 2)).order =
      [alert 2, alert 1] := by
  have hone : ((ofSize 2).insertOrUpdate (alert 1)).order = [alert 1] :=
    AlertStore.insertOrUpdate_order (by simp [AlertStore.isDuplicate, AlertStore.names]) (by simp)
  rw [AlertStore.insertOrUpdate_order, hone]
  · simp [AlertStore.isDuplicate, AlertStore.names, hone, alert_name]
  · rw [hone, AlertStore.insertOrUpdate_maxSize]
    exact Nat.one_lt_two

/-- Two alerts are stored, the bound is set to one, and a third alert drives out
only one of them. -/
theorem not_within_bound : ∃ s s' : LinkedStore ℝ, (empty 2).run [.insertOrUpdate (alert 1),
    .insertOrUpdate (alert 2), .setMaxSize 1] = .ok s ∧
      s.insertOrUpdate (alert 3) = .ok (true, s') ∧ s'.maxSize = 1 ∧ s'.size = 2 := by
  obtain ⟨s, hs, hrep⟩ := (empty_represents 2).run [.insertOrUpdate (alert 1),
    .insertOrUpdate (alert 2), .setMaxSize 1]
  obtain ⟨s', hs', hrep'⟩ := hrep.insertOrUpdate (alert 3)
  have horder := two_stored
  have hnew : ¬ ((((ofSize 2).insertOrUpdate (alert 1)).insertOrUpdate (alert 2)).setMaxSize
      1).isDuplicate (alert 3).name := by
    simp [AlertStore.isDuplicate, AlertStore.names, AlertStore.setMaxSize, horder, alert_name]
  refine ⟨s, s', hs, ?_, ?_, ?_⟩
  · rw [hs']
    simp only [List.foldl_cons, List.foldl_nil, AlertStore.after, hnew, not_false_eq_true,
      decide_true]
  · rw [hrep'.maxSize_eq, AlertStore.insertOrUpdate_maxSize]
    rfl
  · rw [hrep'.size_eq, AlertStore.length_insertOrUpdate]
    simp [AlertStore.after, AlertStore.setMaxSize, horder]

end LinkedStore

end Cafe
