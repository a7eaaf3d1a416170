import Mathlib.Tactic

/-!
# Computations that may fail

Rules for sequencing and for folds in `Except`: inversion of a successful
bind, the invariant rule of a fold, its totality, and the independence of
a result from the fuel left over.
-/

namespace Fallible

variable {ε α β γ : Type}

theorem bind_eq_ok {x : Except ε α} {f : α → Except ε β} {b : β} :
    x >>= f = .ok b ↔ ∃ a, x = .ok a ∧ f a = .ok b := by
  cases x with
  | error e => simp [bind, Except.bind]
  | ok a => simp [bind, Except.bind]

theorem bind_ok {x : Except ε α} {f : α → Except ε β} {a : α} (h : x = .ok a) :
    x >>= f = f a := by
  subst h
  rfl

theorem bind_error {x : Except ε α} {f : α → Except ε β} {e : ε} (h : x = .error e) :
    x >>= f = .error e := by
  subst h
  rfl

theorem bind_eq_error {x : Except ε α} {f : α → Except ε β} {e : ε} :
    x >>= f = .error e ↔ x = .error e ∨ ∃ a, x = .ok a ∧ f a = .error e := by
  cases x with
  | error e' => simp [bind, Except.bind]
  | ok a => simp [bind, Except.bind]

theorem pure_eq_ok {a b : α} : (pure a : Except ε α) = .ok b ↔ a = b := by
  simp [pure, Except.pure]

theorem foldlM_cons (f : β → α → Except ε β) (b : β) (x : α) (xs : List α) :
    (x :: xs).foldlM f b = f b x >>= fun b' => xs.foldlM f b' := rfl

/-- The invariant rule of a fold that succeeds. The invariant may speak of
the elements still to come. -/
theorem foldlM_invariant {f : β → α → Except ε β} (P : List α → β → Prop)
    (hstep : ∀ x xs b b', P (x :: xs) b → f b x = .ok b' → P xs b') {xs : List α} {b b' : β}
    (h0 : P xs b) (h : xs.foldlM f b = .ok b') : P [] b' := by
  induction xs generalizing b with
  | nil =>
      obtain rfl : b = b' := Except.ok.inj h
      exact h0
  | cons x xs ih =>
      rw [foldlM_cons, bind_eq_ok] at h
      obtain ⟨c, hc, hrest⟩ := h
      exact ih (hstep x xs b c h0 hc) hrest

/-- A fold whose every round succeeds and keeps an invariant succeeds. -/
theorem foldlM_total {f : β → α → Except ε β} (P : β → Prop) {xs : List α}
    (hstep : ∀ x ∈ xs, ∀ b, P b → ∃ b', f b x = .ok b' ∧ P b') {b : β} (h0 : P b) :
    ∃ b', xs.foldlM f b = .ok b' ∧ P b' := by
  induction xs generalizing b with
  | nil => exact ⟨b, rfl, h0⟩
  | cons x xs ih =>
      obtain ⟨c, hc, hPc⟩ := hstep x (by simp) b h0
      obtain ⟨b', hb', hP⟩ := ih (fun y hy => hstep y (List.mem_cons_of_mem _ hy)) hPc
      exact ⟨b', by rw [foldlM_cons, bind_ok hc, hb'], hP⟩

/-- Every round of a successful fold has succeeded. -/
theorem foldlM_round {f : β → α → Except ε β} {xs : List α} {b b' : β}
    (h : xs.foldlM f b = .ok b') {x : α} (hx : x ∈ xs) : ∃ c c', f c x = .ok c' := by
  induction xs generalizing b with
  | nil => simp at hx
  | cons y ys ih =>
      rw [foldlM_cons, bind_eq_ok] at h
      obtain ⟨c, hc, hrest⟩ := h
      rcases List.mem_cons.mp hx with rfl | hx
      · exact ⟨b, c, hc⟩
      · exact ih hrest hx

/-- Two folds whose rounds agree whenever the first ones succeed agree when
the first one succeeds. -/
theorem foldlM_congr_ok {f g : β → α → Except ε β}
    (hfg : ∀ b x b', f b x = .ok b' → g b x = .ok b') {xs : List α} {b b' : β}
    (h : xs.foldlM f b = .ok b') : xs.foldlM g b = .ok b' := by
  induction xs generalizing b with
  | nil => exact h
  | cons x xs ih =>
      rw [foldlM_cons, bind_eq_ok] at h
      obtain ⟨c, hc, hrest⟩ := h
      rw [foldlM_cons, bind_ok (hfg b x c hc)]
      exact ih hrest

/-- Two folds over related elements stay related. -/
theorem foldlM_rel {δ : Type} {f : β → α → Except ε β} {g : γ → δ → Except ε γ} {R : β → γ → Prop}
    {Q : α → δ → Prop}
    (hstep : ∀ b c x y b', R b c → Q x y → f b x = .ok b' → ∃ c', g c y = .ok c' ∧ R b' c')
    {xs : List α} {ys : List δ} (hxs : List.Forall₂ Q xs ys) {b b' : β} {c : γ} (h0 : R b c)
    (h : xs.foldlM f b = .ok b') : ∃ c', ys.foldlM g c = .ok c' ∧ R b' c' := by
  induction hxs generalizing b c with
  | nil =>
      obtain rfl : b = b' := Except.ok.inj h
      exact ⟨c, rfl, h0⟩
  | cons hxy _ ih =>
      rw [foldlM_cons, bind_eq_ok] at h
      obtain ⟨b₁, hb₁, hrest⟩ := h
      obtain ⟨c₁, hc₁, hR⟩ := hstep _ _ _ _ _ h0 hxy hb₁
      rw [foldlM_cons, bind_ok hc₁]
      exact ih hR hrest

/-- A fold whose rounds commute up to an equivalence does not depend on the
order of its elements. The elements that commute are related by `C`. -/
theorem foldlM_perm {f : β → α → Except ε β} {R : β → β → Prop} (hR : Equivalence R)
    {C : α → α → Prop} (hsymm : ∀ x y, C x y → C y x)
    (hstep : ∀ b c x b', R b c → f b x = .ok b' → ∃ c', f c x = .ok c' ∧ R b' c')
    (hcomm : ∀ b x y c d, C x y → f b x = .ok c → f c y = .ok d →
      ∃ c' d', f b y = .ok c' ∧ f c' x = .ok d' ∧ R d d')
    {xs ys : List α} (hperm : xs.Perm ys) (hC : xs.Pairwise C) {b b' c : β} (h0 : R b c)
    (h : xs.foldlM f b = .ok b') : ∃ c', ys.foldlM f c = .ok c' ∧ R b' c' := by
  induction hperm generalizing b b' c with
  | nil =>
      obtain rfl : b = b' := Except.ok.inj h
      exact ⟨c, rfl, h0⟩
  | cons x _ ih =>
      obtain ⟨b₁, hb₁, hrest⟩ := bind_eq_ok.mp h
      obtain ⟨c₁, hc₁, hbc⟩ := hstep b c x b₁ h0 hb₁
      rw [foldlM_cons, bind_ok hc₁]
      exact ih (List.pairwise_cons.mp hC).2 hbc hrest
  | swap x y l =>
      obtain ⟨b₁, hb₁, h⟩ := bind_eq_ok.mp h
      obtain ⟨b₂, hb₂, hrest⟩ := bind_eq_ok.mp h
      have hyx : C y x := (List.pairwise_cons.mp hC).1 x (by simp)
      obtain ⟨d₁, d₂, hd₁, hd₂, hbd⟩ := hcomm b y x b₁ b₂ hyx hb₁ hb₂
      obtain ⟨c₁, hc₁, hdc₁⟩ := hstep b c x d₁ h0 hd₁
      obtain ⟨c₂, hc₂, hdc₂⟩ := hstep d₁ c₁ y d₂ hdc₁ hd₂
      rw [foldlM_cons, bind_ok hc₁, foldlM_cons, bind_ok hc₂]
      refine foldlM_rel (Q := fun x y => x = y) ?_ (List.forall₂_eq_eq_eq ▸ rfl)
        (hR.trans hbd hdc₂) hrest
      rintro b c x _ b' hbc rfl hx
      exact hstep b c x b' hbc hx
  | trans hxy _ ih₁ ih₂ =>
      obtain ⟨c₁, hc₁, hbc⟩ := ih₁ hC h0 h
      have hC' := (hxy.pairwise_iff fun {x y} hxy => hsymm x y hxy).mp hC
      obtain ⟨c₂, hc₂, hcc⟩ := ih₂ hC' (hR.refl c) hc₁
      exact ⟨c₂, hc₂, hR.trans hbc hcc⟩

theorem mapM_cons (f : α → Except ε β) (x : α) (xs : List α) :
    (x :: xs).mapM f = f x >>= fun y => xs.mapM f >>= fun ys => pure (y :: ys) :=
  List.mapM_cons

/-- A traversal whose rounds can only succeed in one way maps. -/
theorem mapM_eq_map {f : α → Except ε β} {g : α → β} {xs : List α} {ys : List β}
    (hfg : ∀ x y, f x = .ok y → y = g x) (h : xs.mapM f = .ok ys) : ys = xs.map g := by
  induction xs generalizing ys with
  | nil =>
      rw [List.mapM_nil, pure_eq_ok] at h
      exact h.symm
  | cons x xs ih =>
      rw [mapM_cons, bind_eq_ok] at h
      obtain ⟨y, hy, h⟩ := h
      obtain ⟨ys', hys, h⟩ := bind_eq_ok.mp h
      rw [← pure_eq_ok.mp h, hfg x y hy, ih hys, List.map_cons]

/-- Every round of a successful traversal has succeeded. -/
theorem mapM_round {f : α → Except ε β} {xs : List α} {ys : List β} (h : xs.mapM f = .ok ys)
    {x : α} (hx : x ∈ xs) : ∃ y, f x = .ok y := by
  induction xs generalizing ys with
  | nil => simp at hx
  | cons z zs ih =>
      rw [mapM_cons, bind_eq_ok] at h
      obtain ⟨y, hy, h⟩ := h
      obtain ⟨ys', hys, _⟩ := bind_eq_ok.mp h
      rcases List.mem_cons.mp hx with rfl | hx
      · exact ⟨y, hy⟩
      · exact ih hys hx

theorem mapM_total {f : α → Except ε β} {xs : List α} (h : ∀ x ∈ xs, ∃ y, f x = .ok y) :
    ∃ ys, xs.mapM f = .ok ys := by
  induction xs with
  | nil => exact ⟨[], rfl⟩
  | cons x xs ih =>
      obtain ⟨y, hy⟩ := h x (by simp)
      obtain ⟨ys, hys⟩ := ih fun z hz => h z (List.mem_cons_of_mem _ hz)
      exact ⟨y :: ys, by rw [mapM_cons, bind_ok hy, bind_ok hys]; rfl⟩

end Fallible
