import Mathlib.Tactic

/-!
# Recency lists

A cache of the least recently used kind holds the first few of the distinct
keys of its history, most recent first.
-/

namespace LruList

variable {K : Type*} [DecidableEq K]

/-- The distinct keys of a history, which begins with the last use. -/
def recent : List K → List K
  | [] => []
  | k :: uses => k :: (recent uses).filter (· ≠ k)

/-- A hit moves the key to the front, a miss drops what is too much at the back. -/
def touch (n : ℕ) (cache : List K) (k : K) : List K :=
  if k ∈ cache then k :: cache.filter (· ≠ k) else (k :: cache).take n

theorem nodup_recent (uses : List K) : (recent uses).Nodup := by
  induction uses with
  | nil => exact List.nodup_nil
  | cons k uses ih =>
      rw [recent, List.nodup_cons]
      refine ⟨?_, ih.filter _⟩
      simp

theorem filter_ne_of_notMem {l : List K} {k : K} (h : k ∉ l) : l.filter (· ≠ k) = l := by
  rw [List.filter_eq_self]
  intro j hj
  simpa using ne_of_mem_of_not_mem hj h

/-- A key beyond the first `m` is removed without a trace in them. -/
theorem take_filter_of_notMem {l : List K} {k : K} : ∀ {m : ℕ}, k ∉ l.take m →
    (l.filter (· ≠ k)).take m = l.take m := by
  induction l with
  | nil => simp
  | cons j l ih =>
      intro m h
      cases m with
      | zero => rfl
      | succ m =>
          rw [List.take_succ_cons, List.mem_cons, not_or] at h
          rw [List.filter_cons_of_pos (by simpa using Ne.symm h.1), List.take_succ_cons,
            List.take_succ_cons, ih h.2]

/-- A key among the first `m + 1` leaves its place to the others of them. -/
theorem take_filter_of_mem {l : List K} (hl : l.Nodup) {k : K} : ∀ {m : ℕ}, k ∈ l.take (m + 1) →
    (l.filter (· ≠ k)).take m = (l.take (m + 1)).filter (· ≠ k) := by
  induction l with
  | nil => simp
  | cons j l ih =>
      intro m h
      obtain ⟨hj, hl⟩ := List.nodup_cons.mp hl
      rw [List.take_succ_cons] at h ⊢
      rcases List.mem_cons.mp h with rfl | h
      · have hk : k ∉ l.take m := fun hmem => hj (List.mem_of_mem_take hmem)
        rw [List.filter_cons_of_neg (by simp), List.filter_cons_of_neg (by simp),
          filter_ne_of_notMem hj, filter_ne_of_notMem hk]
      · have hne : j ≠ k := by
          rintro rfl
          exact hj (List.mem_of_mem_take h)
        cases m with
        | zero => simp at h
        | succ m =>
            rw [List.filter_cons_of_pos (by simpa using hne),
              List.filter_cons_of_pos (by simpa using hne), List.take_succ_cons, ih hl h]

/-- A use turns the `n` most recent keys into the `n` most recent ones with it. -/
theorem touch_take_recent (n : ℕ) (uses : List K) (k : K) :
    touch n ((recent uses).take n) k = (recent (k :: uses)).take n := by
  by_cases h : k ∈ (recent uses).take n
  · rw [touch, if_pos h]
    cases n with
    | zero => simp at h
    | succ n => rw [recent, List.take_succ_cons, take_filter_of_mem (nodup_recent uses) h]
  · rw [touch, if_neg h]
    cases n with
    | zero => rfl
    | succ n =>
        have hfirst : k ∉ (recent uses).take n :=
          fun hmem => h ((List.take_sublist_take_left (Nat.le_succ n)).subset hmem)
        rw [recent, List.take_succ_cons, List.take_succ_cons, take_filter_of_notMem hfirst,
          List.take_take, Nat.min_eq_left (Nat.le_succ n)]

/-! ## How long a key stays -/

/-- A key is admitted when the cache lacks it. A cache of `n` keys forgets it only
after `n` uses of others. -/
structure Retained (n : ℕ) (cache : List K) (k : K) (admissions others : ℕ) : Prop where
  kept : k ∈ cache → admissions * n + cache.idxOf k ≤ others + n
  forgotten : k ∉ cache → admissions * n ≤ others

theorem idxOf_filter_le {p : K → Bool} {k : K} : ∀ {l : List K}, k ∈ l.filter p →
    (l.filter p).idxOf k ≤ l.idxOf k := by
  intro l
  induction l with
  | nil => simp
  | cons j l ih =>
      intro hk
      by_cases hj : p j
      · rw [List.filter_cons_of_pos hj] at hk ⊢
        by_cases hjk : j = k
        · simp [hjk]
        · have hk' : k ∈ l.filter p := by simpa [Ne.symm hjk] using hk
          simpa [List.idxOf_cons, hjk] using ih hk'
      · rw [List.filter_cons_of_neg hj] at hk ⊢
        have hne : j ≠ k := by
          rintro rfl
          exact hj (List.mem_filter.mp hk).2
        rw [List.idxOf_cons_ne _ hne]
        exact (ih hk).trans (Nat.le_succ _)

namespace Retained

variable {n : ℕ} {cache : List K} {k : K} {admissions others : ℕ}

theorem nil (n : ℕ) (k : K) : Retained n [] k 0 0 := ⟨by simp, by simp⟩

theorem mono (h : Retained n cache k admissions others) {admissions' others' : ℕ}
    (hadm : admissions' ≤ admissions) (hoth : others ≤ others') :
    Retained n cache k admissions' others' := by
  have hmul : admissions' * n ≤ admissions * n := Nat.mul_le_mul_right n hadm
  exact ⟨fun hk => by have := h.kept hk; omega, fun hk => by have := h.forgotten hk; omega⟩

/-- A use of another key moves the key back by one place at most. -/
theorem touch_of_ne (h : Retained n cache k admissions others) {j : K} (hne : j ≠ k) :
    Retained n (touch n cache j) k admissions (others + 1) := by
  by_cases hj : j ∈ cache
  · rw [touch, if_pos hj]
    constructor
    · intro hk
      have hfilter : k ∈ cache.filter (· ≠ j) := by simpa [Ne.symm hne] using hk
      have hle := idxOf_filter_le hfilter
      have hkept := h.kept (List.mem_filter.mp hfilter).1
      rw [List.idxOf_cons_ne _ hne]
      omega
    · intro hk
      have hk' : k ∉ cache := by simpa [Ne.symm hne] using hk
      exact (h.forgotten hk').trans (Nat.le_succ _)
  · rw [touch, if_neg hj]
    by_cases hmem : k ∈ cache
    · have hkept := h.kept hmem
      have hidx : (j :: cache).idxOf k = cache.idxOf k + 1 := List.idxOf_cons_ne _ hne
      constructor
      · intro hk
        have hidx := (List.take_prefix n (j :: cache)).idxOf_eq_of_mem hk
        omega
      · intro hk
        have hlt : n ≤ (j :: cache).idxOf k := by
          by_contra hlt
          refine hk ?_
          rw [List.mem_take_iff_idxOf_lt (List.mem_cons_of_mem _ hmem)]
          omega
        omega
    · have hk : k ∉ (j :: cache).take n := by
        intro hk
        rcases List.mem_cons.mp (List.mem_of_mem_take hk) with rfl | hk
        · exact hne rfl
        · exact hmem hk
      exact ⟨fun hk' => absurd hk' hk, fun _ => (h.forgotten hmem).trans (Nat.le_succ _)⟩

/-- An admission puts the key to the front. -/
theorem touch_self (h : Retained n cache k admissions others) (hk : k ∉ cache) :
    Retained n (touch n cache k) k (admissions + 1) others := by
  have hle := h.forgotten hk
  rw [touch, if_neg hk]
  cases n with
  | zero => simpa using ⟨by simp, by simp⟩
  | succ n =>
      refine ⟨fun _ => ?_, fun hno => absurd ?_ hno⟩
      · rw [List.take_succ_cons, List.idxOf_cons_self, Nat.succ_mul]
        omega
      · rw [List.take_succ_cons]
        exact List.mem_cons_self

/-- The cache has admitted the key once for every `n` uses of others, and once more. -/
theorem admissions_le (h : Retained n cache k admissions others) :
    admissions * n ≤ others + n := by
  by_cases hk : k ∈ cache
  · exact (Nat.le_add_right _ _).trans (h.kept hk)
  · exact (h.forgotten hk).trans (Nat.le_add_right _ _)

end Retained

end LruList
