import Cafe.ClosedWalk
import Mathlib.Analysis.Convex.Topology
import Mathlib.Topology.Order.Basic

/-!
# The even-odd rule

A point is inside a polygon when an odd number of edges cross the ray to its
right. An edge belongs to the horizontal lines from its lower end, which
counts, up to its upper end, which does not.
-/

open ClosedWalk Filter Topology

namespace EvenOdd

variable {K : Type*}

section Order

variable [LinearOrder K]

def above (p v : K × K) : Bool := decide (p.2 < v.2)

theorem straddle_iff {p a b : K × K} : (above p a ^^ above p b) = true ↔
    (a.2 ≤ p.2 ∧ p.2 < b.2) ∨ (b.2 ≤ p.2 ∧ p.2 < a.2) := by
  by_cases ha : p.2 < a.2 <;> by_cases hb : p.2 < b.2 <;>
    simp [above, ha, hb, not_lt.mp, not_le.mpr]

theorem ne_of_straddle {p a b : K × K} (h : (above p a ^^ above p b) = true) : a.2 ≠ b.2 := by
  intro heq
  simp [above, heq] at h

end Order

variable [Field K]

/-- Where the line through `a` and `b` has height `y`. -/
def meet (a b : K × K) (y : K) : K := (a.1 - b.1) * (y - b.2) / (a.2 - b.2) + b.1

theorem meet_comm {a b : K × K} (h : a.2 ≠ b.2) (y : K) : meet a b y = meet b a y := by
  have hab : a.2 - b.2 ≠ 0 := sub_ne_zero.mpr h
  have hba : b.2 - a.2 ≠ 0 := sub_ne_zero.mpr h.symm
  unfold meet
  field_simp
  ring

variable [LinearOrder K]

/-- The edge from `a` to `b` crosses the ray to the right of `p`. -/
def crosses (p a b : K × K) : Bool := (above p a ^^ above p b) && decide (p.1 < meet a b p.2)

def inside (l : List (K × K)) (p : K × K) : Bool := parity (crosses p) (edges l)

theorem crosses_comm (p a b : K × K) : crosses p a b = crosses p b a := by
  unfold crosses
  rw [Bool.xor_comm]
  cases h : (above p b ^^ above p a)
  · rfl
  · rw [meet_comm (ne_of_straddle h)]

theorem crosses_self (p a : K × K) : crosses p a a = false := by
  rw [crosses, Bool.xor_self, Bool.false_and]

theorem inside_of_length_lt {l : List (K × K)} (h : l.length < 3) (p : K × K) :
    inside l p = false := by
  rcases l with _ | ⟨a, _ | ⟨b, _ | ⟨c, l⟩⟩⟩
  · rfl
  · simp [inside, edges, steps, crosses_self]
  · simp [inside, edges, steps, crosses_comm p b a]
  · simp only [List.length_cons] at h
    omega

variable [IsStrictOrderedRing K]

/-- An edge that straddles the height of a point meets it. -/
theorem meet_mem_segment {p a b : K × K} (h : (above p a ^^ above p b) = true) :
    (meet a b p.2, p.2) ∈ segment K a b := by
  have hne : a.2 - b.2 ≠ 0 := sub_ne_zero.mpr (ne_of_straddle h)
  have hbetween : 0 ≤ (p.2 - b.2) / (a.2 - b.2) ∧ (p.2 - b.2) / (a.2 - b.2) ≤ 1 := by
    rcases straddle_iff.mp h with ⟨hle, hlt⟩ | ⟨hle, hlt⟩
    · have hneg : a.2 - b.2 < 0 := sub_neg.mpr (hle.trans_lt hlt)
      constructor
      · exact div_nonneg_of_nonpos (sub_nonpos.mpr hlt.le) hneg.le
      · exact (div_le_one_of_neg hneg).mpr (sub_le_sub_right hle _)
    · have hpos : 0 < a.2 - b.2 := sub_pos.mpr (hle.trans_lt hlt)
      constructor
      · exact div_nonneg (sub_nonneg.mpr hle) hpos.le
      · exact (div_le_one hpos).mpr (sub_le_sub_right hlt.le _)
  refine ⟨(p.2 - b.2) / (a.2 - b.2), 1 - (p.2 - b.2) / (a.2 - b.2), hbetween.1,
    sub_nonneg.mpr hbetween.2, by ring, ?_⟩
  ext
  · simp only [meet, Prod.fst_add, Prod.smul_fst, smul_eq_mul]
    ring
  · simp only [Prod.snd_add, Prod.smul_snd, smul_eq_mul]
    field_simp
    ring

/-- The walk crosses the horizontal line through a point it goes around on
both sides of the point, so the point lies in the hull. -/
theorem mem_convexHull_of_inside {l : List (K × K)} {p : K × K} (h : inside l p = true) :
    p ∈ convexHull K {v | v ∈ l} := by
  have hsplit : crosses p = fun a b => (above p a ^^ above p b) ^^
      ((above p a ^^ above p b) && !decide (p.1 < meet a b p.2)) := by
    funext a b
    rw [crosses]
    cases (above p a ^^ above p b) <;> simp
  have hleft : parity (fun a b => (above p a ^^ above p b) && !decide (p.1 < meet a b p.2))
      (edges l) = true := by
    have hsum := h
    rw [inside, hsplit, parity_xor, parity_edges_change, Bool.false_xor] at hsum
    exact hsum
  have hhull : ∀ e ∈ edges l, (above p e.1 ^^ above p e.2) = true →
      (meet e.1 e.2 p.2, p.2) ∈ convexHull K {v | v ∈ l} := by
    intro e he hstraddle
    have hmem := mem_of_mem_edges he
    exact (convex_convexHull K _).segment_subset (subset_convexHull K {v | v ∈ l} hmem.1)
      (subset_convexHull K {v | v ∈ l} hmem.2) (meet_mem_segment hstraddle)
  rcases exists_of_parity h with ⟨e, he, hcross⟩
  rcases exists_of_parity hleft with ⟨e', he', hcross'⟩
  rw [crosses, Bool.and_eq_true, decide_eq_true_eq] at hcross
  rw [Bool.and_eq_true, Bool.not_eq_true', decide_eq_false_iff_not, not_lt] at hcross'
  have hright := hhull e he hcross.1
  have hleft' := hhull e' he' hcross'.1
  apply (convex_convexHull K _).segment_subset hleft' hright
  have hconv : p.1 ∈ segment K (meet e'.1 e'.2 p.2) (meet e.1 e.2 p.2) := by
    rw [segment_eq_Icc (hcross'.2.trans hcross.2.le)]
    exact ⟨hcross'.2, hcross.2.le⟩
  rcases hconv with ⟨α, β, hα, hβ, hsum, heq⟩
  refine ⟨α, β, hα, hβ, hsum, Prod.ext heq ?_⟩
  simp only [Prod.snd_add, Prod.smul_snd, ← add_smul, hsum, one_smul]

/-! ## Away from the edges -/

section Real

theorem eventually_decide_lt {X : Type*} [TopologicalSpace X] {f g : X → ℝ} {x : X}
    (hf : ContinuousAt f x) (hg : ContinuousAt g x) (hne : f x ≠ g x) :
    ∀ᶠ y in 𝓝 x, decide (f y < g y) = decide (f x < g x) := by
  rcases lt_or_gt_of_ne hne with hlt | hgt
  · filter_upwards [hf.eventually_lt hg hlt] with y hy
    rw [decide_eq_true hy, decide_eq_true hlt]
  · filter_upwards [hg.eventually_lt hf hgt] with y hy
    rw [decide_eq_false hy.not_gt, decide_eq_false hgt.not_gt]

variable {p a b : ℝ × ℝ}

/-- A vertex at the height of `p` and to its right, above `q`. It changes sides
when the ray moves from `p` to `q`. -/
noncomputable def passed (p q v : ℝ × ℝ) : Bool :=
  decide (v.2 = p.2) && (above q v && decide (p.1 < v.1))

theorem eventually_above (h : a.2 ≠ p.2) :
    ∀ᶠ q in 𝓝 p, above q a = above p a ∧ passed p q a = false := by
  filter_upwards [eventually_decide_lt (f := Prod.snd) (g := fun _ => a.2) continuousAt_snd
    continuousAt_const h.symm] with q hq
  refine ⟨hq, ?_⟩
  rw [passed, decide_eq_false h, Bool.false_and]

theorem eventually_meet (h : p.1 ≠ meet a b p.2) :
    ∀ᶠ q in 𝓝 p, decide (q.1 < meet a b q.2) = decide (p.1 < meet a b p.2) := by
  apply eventually_decide_lt continuousAt_fst _ h
  unfold meet
  fun_prop

/-- A vertex at the height of `p` on an edge that leaves this height. -/
theorem eventually_crosses_of_level (ha : a.2 = p.2) (hb : b.2 ≠ p.2) (hne : p.1 ≠ a.1) :
    ∀ᶠ q in 𝓝 p, crosses q a b = (crosses p a b ^^ (passed p q a ^^ passed p q b)) := by
  have hab : a.2 - b.2 ≠ 0 := sub_ne_zero.mpr fun heq => hb (heq.symm.trans ha)
  have hmeet : meet a b p.2 = a.1 := by
    rw [meet, ← ha]
    field_simp
    ring
  filter_upwards [eventually_above hb, eventually_meet (a := a) (b := b) (hmeet ▸ hne)]
    with q hq hside
  rw [crosses, crosses, passed, hq.1, hq.2, hside, hmeet, decide_eq_true ha,
    show above p a = false by simp [above, ha]]
  cases above q a <;> cases above p b <;> cases decide (p.1 < a.1) <;> rfl

theorem mem_segment_of_level (ha : a.2 = p.2) (hb : b.2 = p.2) (h : p.1 ∈ segment ℝ a.1 b.1) :
    p ∈ segment ℝ a b := by
  rcases h with ⟨α, β, hα, hβ, hsum, heq⟩
  refine ⟨α, β, hα, hβ, hsum, Prod.ext heq ?_⟩
  simp only [Prod.snd_add, Prod.smul_snd, ha, hb, ← add_smul, hsum, one_smul]

/-- Near a point off an edge the test of the edge changes only with the sides
of its two ends. -/
theorem eventually_crosses (h : p ∉ segment ℝ a b) :
    ∀ᶠ q in 𝓝 p, crosses q a b = (crosses p a b ^^ (passed p q a ^^ passed p q b)) := by
  by_cases ha : a.2 = p.2
  · by_cases hb : b.2 = p.2
    · have hside : decide (p.1 < a.1) = decide (p.1 < b.1) := by
        apply decide_eq_decide.mpr
        by_contra hno
        apply h (mem_segment_of_level ha hb _)
        rw [segment_eq_uIcc, Set.mem_uIcc]
        rcases lt_or_ge p.1 a.1 with hlt | hge
        · exact Or.inr ⟨not_lt.mp fun hlt' => hno (iff_of_true hlt hlt'), hlt.le⟩
        · refine Or.inl ⟨hge, le_of_not_gt fun hgt => ?_⟩
          exact hno (iff_of_false hge.not_gt hgt.not_gt)
      refine Eventually.of_forall fun q => ?_
      have hab : ∀ r : ℝ × ℝ, above r a = above r b := fun r => by rw [above, above, ha, hb]
      rw [crosses, crosses, passed, passed, hab q, hab p, hside, ha, hb]
      simp
    · apply eventually_crosses_of_level ha hb
      intro heq
      apply h
      rw [show p = a from Prod.ext heq ha.symm]
      exact left_mem_segment ℝ a b
  · by_cases hb : b.2 = p.2
    · have hne : p.1 ≠ b.1 := by
        intro heq
        apply h
        rw [show p = b from Prod.ext heq hb.symm]
        exact right_mem_segment ℝ a b
      filter_upwards [eventually_crosses_of_level hb ha hne] with q hq
      rw [crosses_comm q, crosses_comm p, hq, Bool.xor_comm (passed p q b)]
    · cases hstraddle : (above p a ^^ above p b)
      · filter_upwards [eventually_above ha, eventually_above hb] with q hqa hqb
        simp [crosses, hqa.1, hqb.1, hqa.2, hqb.2, hstraddle]
      · have hne : p.1 ≠ meet a b p.2 := by
          intro heq
          apply h
          rw [show p = (meet a b p.2, p.2) from Prod.ext heq rfl]
          exact meet_mem_segment hstraddle
        filter_upwards [eventually_above ha, eventually_above hb, eventually_meet hne]
          with q hqa hqb hside
        simp [crosses, hqa.1, hqb.1, hqa.2, hqb.2, hside]

/-- Off the edges the rule is locally constant: what single edges gain and lose
where the ray passes over vertices cancels along the closed walk. -/
theorem eventually_inside {l : List (ℝ × ℝ)} (h : ∀ e ∈ edges l, p ∉ segment ℝ e.1 e.2) :
    ∀ᶠ q in 𝓝 p, inside l q = inside l p := by
  have hall : ∀ᶠ q in 𝓝 p, ∀ e ∈ {e | e ∈ edges l}, crosses q e.1 e.2 =
      (crosses p e.1 e.2 ^^ (passed p q e.1 ^^ passed p q e.2)) :=
    (eventually_all_finite (List.finite_toSet _)).mpr fun e he => eventually_crosses (h e he)
  filter_upwards [hall] with q hq
  have hsum := parity_congr
    (g := fun a b => crosses p a b ^^ (passed p q a ^^ passed p q b)) hq
  rw [inside, hsum, parity_xor, parity_edges_change, Bool.xor_false, inside]

/-- Two points on either side of the rule have an edge between them. -/
theorem exists_edge_of_inside_ne {l : List (ℝ × ℝ)} {q : ℝ × ℝ} (h : inside l p ≠ inside l q) :
    ∃ z ∈ segment ℝ p q, ∃ e ∈ edges l, z ∈ segment ℝ e.1 e.2 := by
  by_contra hno
  push Not at hno
  apply h
  have hcont : ContinuousOn (inside l) (segment ℝ p q) := by
    intro z hz
    have hconst := eventually_inside fun e he => hno z hz e he
    exact (continuousAt_const.congr (hconst.mono fun _ h => h.symm)).continuousWithinAt
  exact (convex_segment p q).isPreconnected.constant hcont (left_mem_segment ℝ p q)
    (right_mem_segment ℝ p q)

end Real

end EvenOdd
