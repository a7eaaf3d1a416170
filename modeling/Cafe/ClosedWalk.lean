import Mathlib.Data.List.Rotate
import Mathlib.Data.Bool.Basic
import Mathlib.Tactic

/-!
# Parities along closed walks

A list of vertices is read as a closed walk. The parity of a property of
edges counts, modulo two, the edges of the walk that have it. It depends on
neither the start of the walk nor, for a symmetric property, its direction.
-/

namespace ClosedWalk

variable {V W : Type*}

/-- The edges from `a` along a list of vertices. -/
def steps (a : V) : List V → List (V × V)
  | [] => []
  | b :: rest => (a, b) :: steps b rest

/-- The edges of a closed walk. -/
def edges : List V → List (V × V)
  | [] => []
  | a :: rest => steps a (rest ++ [a])

/-! ## The edges -/

theorem steps_append (a b : V) (l m : List V) :
    steps a (l ++ b :: m) = steps a (l ++ [b]) ++ steps b m := by
  induction l generalizing a with
  | nil => rfl
  | cons c l ih => simp only [List.cons_append, steps, ih]

theorem steps_concat_reverse (a b : V) (l : List V) :
    steps b (l.reverse ++ [a]) = ((steps a (l ++ [b])).map Prod.swap).reverse := by
  induction l generalizing a with
  | nil => rfl
  | cons c l ih =>
      rw [List.reverse_cons, List.append_assoc, List.singleton_append, steps_append, ih]
      simp only [List.cons_append, steps, List.map_cons, List.reverse_cons, Prod.swap_prod_mk]

theorem edges_append_perm (l m : List V) : (edges (l ++ m)).Perm (edges (m ++ l)) := by
  cases l with
  | nil => rw [List.nil_append, List.append_nil]
  | cons a l =>
      cases m with
      | nil => rw [List.nil_append, List.append_nil]
      | cons b m =>
          have hl : edges (a :: l ++ b :: m) = steps a (l ++ [b]) ++ steps b (m ++ [a]) := by
            rw [← steps_append]
            simp [edges]
          have hm : edges (b :: m ++ a :: l) = steps b (m ++ [a]) ++ steps a (l ++ [b]) := by
            rw [← steps_append]
            simp [edges]
          rw [hl, hm]
          exact List.perm_append_comm

/-- The edges do not depend on where the walk starts. -/
theorem edges_rotate_perm (l : List V) (n : ℕ) : (edges (l.rotate n)).Perm (edges l) := by
  rw [List.rotate_eq_drop_append_take_mod]
  have h := edges_append_perm (l.drop (n % l.length)) (l.take (n % l.length))
  rwa [List.take_append_drop] at h

/-- The walk backwards has the same edges backwards. -/
theorem edges_reverse_perm (l : List V) :
    (edges l.reverse).Perm ((edges l).map Prod.swap) := by
  cases l with
  | nil => exact List.Perm.refl _
  | cons a l =>
      have hback : edges (a :: l.reverse) = ((edges (a :: l)).map Prod.swap).reverse :=
        steps_concat_reverse a a l
      rw [List.reverse_cons]
      apply (edges_append_perm l.reverse [a]).trans
      rw [List.singleton_append, hback]
      exact List.reverse_perm _

theorem edges_map (f : V → W) (l : List V) : edges (l.map f) = (edges l).map (Prod.map f f) := by
  have hsteps : ∀ a m, steps (f a) (m.map f) = (steps a m).map (Prod.map f f) := by
    intro a m
    induction m generalizing a with
    | nil => rfl
    | cons b m ih => simp only [List.map_cons, steps, ih, Prod.map_apply]
  cases l with
  | nil => rfl
  | cons a l =>
      have h := hsteps a (l ++ [a])
      rwa [List.map_append] at h

theorem mem_of_mem_steps {a : V} {l : List V} {e : V × V} (h : e ∈ steps a l) :
    e.1 ∈ a :: l ∧ e.2 ∈ l := by
  induction l generalizing a with
  | nil => cases h
  | cons b l ih =>
      rcases List.mem_cons.mp h with rfl | h
      · exact ⟨List.mem_cons_self, List.mem_cons_self⟩
      · exact ⟨List.mem_cons_of_mem _ (ih h).1, List.mem_cons_of_mem _ (ih h).2⟩

theorem mem_of_mem_edges {l : List V} {e : V × V} (h : e ∈ edges l) : e.1 ∈ l ∧ e.2 ∈ l := by
  cases l with
  | nil => cases h
  | cons a l =>
      have hmem := mem_of_mem_steps h
      simp only [List.mem_cons, List.mem_append, List.not_mem_nil, or_false] at hmem ⊢
      tauto

/-! ## Parities -/

/-- The number of edges with the property `f`, modulo two. -/
def parity (f : V → V → Bool) (es : List (V × V)) : Bool :=
  es.foldr (fun e b => f e.1 e.2 ^^ b) false

variable {f g : V → V → Bool} {es : List (V × V)}

@[simp] theorem parity_nil : parity f [] = false := rfl

@[simp] theorem parity_cons (e : V × V) (es : List (V × V)) :
    parity f (e :: es) = (f e.1 e.2 ^^ parity f es) := rfl

@[simp] theorem parity_append (es es' : List (V × V)) :
    parity f (es ++ es') = (parity f es ^^ parity f es') := by
  induction es with
  | nil => simp
  | cons e es ih => rw [List.cons_append, parity_cons, parity_cons, ih, Bool.xor_assoc]

theorem parity_perm {es es' : List (V × V)} (h : es.Perm es') : parity f es = parity f es' := by
  induction h with
  | nil => rfl
  | cons e _ ih => rw [parity_cons, parity_cons, ih]
  | swap e e' es => rw [parity_cons, parity_cons, parity_cons, parity_cons, Bool.xor_left_comm]
  | trans _ _ ih ih' => rw [ih, ih']

theorem parity_congr (h : ∀ e ∈ es, f e.1 e.2 = g e.1 e.2) : parity f es = parity g es := by
  induction es with
  | nil => rfl
  | cons e es ih =>
      rw [parity_cons, parity_cons, h e List.mem_cons_self,
        ih fun e' he' => h e' (List.mem_cons_of_mem _ he')]

theorem parity_xor (f g : V → V → Bool) (es : List (V × V)) :
    parity (fun a b => f a b ^^ g a b) es = (parity f es ^^ parity g es) := by
  induction es with
  | nil => rfl
  | cons e es ih =>
      rw [parity_cons, parity_cons, parity_cons, ih, Bool.xor_assoc, Bool.xor_assoc,
        Bool.xor_left_comm (g e.1 e.2)]

theorem parity_map_swap (h : ∀ a b, f a b = f b a) (es : List (V × V)) :
    parity f (es.map Prod.swap) = parity f es := by
  induction es with
  | nil => rfl
  | cons e es ih =>
      rw [List.map_cons, parity_cons, parity_cons, ih, Prod.fst_swap, Prod.snd_swap, h]

theorem parity_map (f : W → W → Bool) (k : V → W) (es : List (V × V)) :
    parity f (es.map (Prod.map k k)) = parity (fun a b => f (k a) (k b)) es := by
  induction es with
  | nil => rfl
  | cons e es ih => rw [List.map_cons, parity_cons, parity_cons, ih, Prod.map_fst, Prod.map_snd]

/-- An odd parity has an edge with the property. -/
theorem exists_of_parity (h : parity f es = true) : ∃ e ∈ es, f e.1 e.2 = true := by
  induction es with
  | nil => cases h
  | cons e es ih =>
      rw [parity_cons] at h
      by_cases he : f e.1 e.2 = true
      · exact ⟨e, List.mem_cons_self, he⟩
      · rw [Bool.not_eq_true] at he
        rw [he, Bool.false_xor] at h
        rcases ih h with ⟨e', he', hf⟩
        exact ⟨e', List.mem_cons_of_mem _ he', hf⟩

/-- A closed walk changes a property of vertices an even number of times. -/
theorem parity_edges_change (k : V → Bool) (l : List V) :
    parity (fun a b => k a ^^ k b) (edges l) = false := by
  have hsteps : ∀ (m : List V) (a b : V),
      parity (fun a b => k a ^^ k b) (steps a (m ++ [b])) = (k a ^^ k b) := by
    intro m
    induction m with
    | nil => simp [steps]
    | cons c m ih =>
        intro a b
        rw [List.cons_append, steps, parity_cons, ih, Bool.xor_assoc, ← Bool.xor_assoc (k c),
          Bool.xor_self, Bool.false_xor]
  cases l with
  | nil => rfl
  | cons a l => rw [edges, hsteps, Bool.xor_self]

theorem parity_edges_rotate (l : List V) (n : ℕ) :
    parity f (edges (l.rotate n)) = parity f (edges l) :=
  parity_perm (edges_rotate_perm l n)

theorem parity_edges_reverse (h : ∀ a b, f a b = f b a) (l : List V) :
    parity f (edges l.reverse) = parity f (edges l) := by
  rw [parity_perm (edges_reverse_perm l), parity_map_swap h]

/-- A chord from the first vertex to that at place `n` cuts a walk in two. -/
theorem parity_edges_chord (h : ∀ a b, f a b = f b a) (hloop : ∀ a, f a a = false) (l : List V)
    (n : ℕ) : parity f (edges l) =
      (parity f (edges (l.take (n + 1))) ^^ parity f (edges (l.drop n ++ l.take 1))) := by
  rcases l with _ | ⟨a, l⟩
  · simp [edges]
  · rw [List.take_succ_cons, List.take_succ_cons, List.take_zero]
    cases n with
    | zero =>
        have hsecond : edges (a :: l ++ [a]) = edges (a :: l) ++ [(a, a)] := by
          simp only [List.cons_append, edges]
          rw [List.append_assoc, List.singleton_append, steps_append]
          rfl
        rw [List.take_zero, List.drop_zero, hsecond, parity_append]
        simp [edges, steps, hloop]
    | succ n =>
        rw [List.drop_succ_cons]
        rcases hrest : l.drop n with _ | ⟨b, rest⟩
        · have hle : l.length ≤ n := List.drop_eq_nil_iff.mp hrest
          rw [List.take_of_length_le (Nat.le_succ_of_le hle)]
          simp [edges, steps, hloop]
        · have hl : l = l.take n ++ b :: rest := by rw [← hrest, List.take_append_drop]
          have hfirst : l.take (n + 1) = l.take n ++ [b] := by
            rw [List.take_add, hrest]
            rfl
          have hwhole : edges (a :: l) = steps a (l.take n ++ [b]) ++ steps b (rest ++ [a]) := by
            rw [← steps_append, edges]
            nth_rewrite 1 [hl]
            simp
          have hnear : edges (a :: (l.take n ++ [b])) = steps a (l.take n ++ [b]) ++ [(b, a)] := by
            rw [edges, List.append_assoc, List.singleton_append, steps_append]
            rfl
          have hfar : edges (b :: rest ++ [a]) = steps b (rest ++ [a]) ++ [(a, b)] := by
            rw [List.cons_append, edges, List.append_assoc, List.singleton_append, steps_append]
            rfl
          rw [hfirst, hwhole, hnear, hfar]
          simp only [parity_append, parity_cons, parity_nil, Bool.xor_false, h b a]
          rw [Bool.xor_assoc, Bool.xor_left_comm (f a b), Bool.xor_self, Bool.xor_false]

/-! ## Cuts along chords -/

/-- The closed walks into which chords cut a closed walk. A part may start at
any of its vertices. -/
inductive Cuts (l : List V) : List (List V) → Prop
  | whole : Cuts l [l]
  | rotate {pre post : List (List V)} {m : List V} (n : ℕ) (h : Cuts l (pre ++ m :: post)) :
      Cuts l (pre ++ m.rotate n :: post)
  | chord {pre post : List (List V)} {m : List V} (n : ℕ) (h : Cuts l (pre ++ m :: post)) :
      Cuts l (pre ++ m.take (n + 1) :: (m.drop n ++ m.take 1) :: post)

/-- The parity along the whole counts the parts of odd parity. -/
theorem Cuts.parity_iff {l : List V} {parts : List (List V)} (h : Cuts l parts)
    (hsymm : ∀ a b, f a b = f b a) (hloop : ∀ a, f a a = false) :
    parity f (edges l) = true ↔ Odd (parts.countP fun m => parity f (edges m)) := by
  induction h with
  | whole => cases hp : parity f (edges l) <;> simp [hp]
  | @rotate pre post m n _ ih =>
      rw [ih]
      simp only [List.countP_append, List.countP_cons, parity_edges_rotate]
  | @chord pre post m n _ ih =>
      rw [ih]
      simp only [List.countP_append, List.countP_cons]
      rw [parity_edges_chord hsymm hloop m n]
      cases parity f (edges (m.take (n + 1))) <;>
        cases parity f (edges (m.drop n ++ m.take 1)) <;> simp [Nat.odd_iff]
      omega

end ClosedWalk
