import Mathlib.Tactic

/-!
# Runs of a labelled transition system

A run is a finite sequence of steps; its labels are listed in the order of
the steps.
-/

namespace Labelled

variable {S L : Type*} {step : S → L → S → Prop}

inductive Run (step : S → L → S → Prop) (s : S) : List L → S → Prop
  | nil : Run step s [] s
  | snoc {ls : List L} {t u : S} {l : L} : Run step s ls t → step t l u → Run step s (ls ++ [l]) u

theorem Run.nil_iff {s t : S} : Run step s [] t ↔ t = s := by
  constructor
  · intro h
    generalize hls : ([] : List L) = ls at h
    cases h with
    | nil => rfl
    | snoc _ _ => simp at hls
  · rintro rfl
    exact .nil

theorem Run.snoc_iff {s u : S} {ls : List L} {l : L} :
    Run step s (ls ++ [l]) u ↔ ∃ t, Run step s ls t ∧ step t l u := by
  constructor
  · intro h
    generalize hms : ls ++ [l] = ms at h
    cases h with
    | nil => simp at hms
    | snoc hrun hstep =>
        obtain ⟨rfl, hl⟩ := List.append_inj' hms rfl
        obtain rfl := List.singleton_inj.mp hl
        exact ⟨_, hrun, hstep⟩
  · rintro ⟨t, hrun, hstep⟩
    exact hrun.snoc hstep

theorem Run.append_iff {s u : S} {ls ms : List L} :
    Run step s (ls ++ ms) u ↔ ∃ t, Run step s ls t ∧ Run step t ms u := by
  induction ms using List.reverseRecOn generalizing u with
  | nil => simp [Run.nil_iff]
  | append_singleton ms m ih =>
      rw [← List.append_assoc, Run.snoc_iff]
      constructor
      · rintro ⟨t, hrun, hstep⟩
        obtain ⟨r, hr, ht⟩ := ih.mp hrun
        exact ⟨r, hr, ht.snoc hstep⟩
      · rintro ⟨r, hr, hrun⟩
        obtain ⟨t, ht, hstep⟩ := Run.snoc_iff.mp hrun
        exact ⟨t, ih.mpr ⟨r, hr, ht⟩, hstep⟩

theorem Run.single_iff {s u : S} {l : L} : Run step s [l] u ↔ step s l u := by
  rw [← List.nil_append [l], Run.snoc_iff]
  simp [Run.nil_iff]

theorem Run.cons_iff {s u : S} {ls : List L} {l : L} :
    Run step s (l :: ls) u ↔ ∃ t, step s l t ∧ Run step t ls u := by
  rw [← List.singleton_append, Run.append_iff]
  simp only [Run.single_iff]

/-- What holds at the start and is kept by every step of the run holds at
its end. The invariant may speak of the labels seen so far. -/
theorem Run.invariant {s u : S} {ls : List L} (P : List L → S → Prop) (h : Run step s ls u)
    (hinit : P [] s)
    (hstep : ∀ ms t l v rest, ls = ms ++ l :: rest → Run step s ms t → P ms t → step t l v →
      P (ms ++ [l]) v) : P ls u := by
  induction h with
  | nil => exact hinit
  | @snoc ls t u l hrun hlast ih =>
      refine hstep ls t l u [] (by simp) hrun (ih ?_) hlast
      intro ms t' l' v rest heq
      exact hstep ms t' l' v (rest ++ [l]) (by simp [heq])

/-- What holds at the start of a run and not at its end is lost in a step of it. -/
theorem Run.exists_exit {s u : S} {ls : List L} (P : S → Prop) (h : Run step s ls u) (hs : P s)
    (hu : ¬ P u) : ∃ pre l post t t', ls = pre ++ l :: post ∧ Run step s pre t ∧ step t l t' ∧
      P t ∧ ¬ P t' ∧ Run step t' post u := by
  induction h with
  | nil => exact absurd hs hu
  | @snoc ls t u l hrun hlast ih =>
      by_cases ht : P t
      · exact ⟨ls, l, [], t, u, rfl, hrun, hlast, ht, hu, .nil⟩
      · rcases ih ht with ⟨pre, m, post, r, r', rfl, hpre, hstep, hr, hr', hrest⟩
        exact ⟨pre, m, post ++ [l], r, r', by simp, hpre, hstep, hr, hr', hrest.snoc hlast⟩

theorem Run.mono {step' : S → L → S → Prop} (hsub : ∀ s l t, step s l t → step' s l t) {s u : S}
    {ls : List L} (h : Run step s ls u) : Run step' s ls u := by
  induction h with
  | nil => exact .nil
  | snoc _ hlast ih => exact ih.snoc (hsub _ _ _ hlast)

/-- Where runs are bounded and go on until `P` holds, some run ends in `P`. -/
theorem Run.exists_final {s : S} {P : S → Prop} (bound : ℕ)
    (hbound : ∀ ls t, Run step s ls t → ls.length ≤ bound)
    (hnext : ∀ ls t, Run step s ls t → ¬ P t → ∃ l u, step t l u) : ∃ ls t, Run step s ls t ∧
    P t := by
  by_contra hnone
  have hgrow : ∀ n, ∃ ls t, Run step s ls t ∧ ls.length = n := by
    intro n
    induction n with
    | zero => exact ⟨[], s, .nil, rfl⟩
    | succ n ih =>
        obtain ⟨ls, t, hrun, rfl⟩ := ih
        obtain ⟨l, u, hstep⟩ := hnext ls t hrun fun hP => hnone ⟨ls, t, hrun, hP⟩
        exact ⟨ls ++ [l], u, hrun.snoc hstep, by simp⟩
  obtain ⟨ls, t, hrun, hlen⟩ := hgrow (bound + 1)
  have := hbound ls t hrun
  omega

/-- In a deterministic system the labels fix the state reached. -/
theorem Run.unique (hdet : ∀ s l t t', step s l t → step s l t' → t = t') {s t t' : S}
    {ls : List L} (h : Run step s ls t) (h' : Run step s ls t') : t = t' := by
  induction h generalizing t' with
  | nil => exact (Run.nil_iff.mp h').symm
  | snoc _ hlast ih =>
      obtain ⟨r, hr, hlast'⟩ := Run.snoc_iff.mp h'
      obtain rfl := ih hr
      exact hdet _ _ _ _ hlast hlast'

end Labelled
