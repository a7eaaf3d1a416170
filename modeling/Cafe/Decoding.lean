import Mathlib.Tactic

/-!
# Decoders with an offset

A decoder reads a fixed buffer at a moving offset. `Reads d bs a` says that
`d` turns the bytes `bs` into `a` wherever they stand, and `Rejects d bs e`
that it refuses them. `Explains` is the converse: it bounds what a run that
succeeds or refuses can have found in its buffer.
-/

namespace Decoding

abbrev Bytes := List UInt8

/-- Why a decoder stops early: a read that leaves the buffer, an error of
its own, or no fuel. -/
inductive Fault (ε : Type)
  | overRead (offset width : ℕ)
  | rejected (e : ε)
  | outOfFuel
  deriving DecidableEq

def Decoder (ε α : Type) := Bytes → ℕ → Except (Fault ε) (α × ℕ)

variable {ε α β : Type}

namespace Decoder

instance : Monad (Decoder ε) where
  pure a := fun _ offset => .ok (a, offset)
  bind d f := fun buf offset =>
    match d buf offset with
    | .ok (a, offset') => f a buf offset'
    | .error e => .error e

def reject (e : ε) : Decoder ε α := fun _ _ => .error (.rejected e)

def exhausted : Decoder ε α := fun _ _ => .error .outOfFuel

def loop (d : Decoder ε α) : ℕ → Decoder ε (List α)
  | 0 => pure []
  | n + 1 => do
      let a ← d
      let as ← loop d n
      pure (a :: as)

theorem bind_ok {d : Decoder ε α} {f : α → Decoder ε β} {buf : Bytes} {offset offset' : ℕ} {a : α}
    (h : d buf offset = .ok (a, offset')) : (d >>= f) buf offset = f a buf offset' := by
  change (match d buf offset with
    | .ok (a, offset') => f a buf offset'
    | .error e => .error e) = _
  rw [h]

theorem bind_error {d : Decoder ε α} {f : α → Decoder ε β} {buf : Bytes} {offset : ℕ}
    {e : Fault ε} (h : d buf offset = .error e) : (d >>= f) buf offset = .error e := by
  change (match d buf offset with
    | .ok (a, offset') => f a buf offset'
    | .error e => .error e) = _
  rw [h]

theorem bind_eq_ok {d : Decoder ε α} {f : α → Decoder ε β} {buf : Bytes} {offset : ℕ}
    {r : β × ℕ} : (d >>= f) buf offset = .ok r ↔
      ∃ a offset', d buf offset = .ok (a, offset') ∧ f a buf offset' = .ok r := by
  cases h : d buf offset with
  | error e => simp [bind_error h]
  | ok p =>
      rcases p with ⟨a, mid⟩
      simp [bind_ok h]

theorem bind_eq_error {d : Decoder ε α} {f : α → Decoder ε β} {buf : Bytes} {offset : ℕ}
    {e : Fault ε} : (d >>= f) buf offset = .error e ↔ d buf offset = .error e ∨
      ∃ a offset', d buf offset = .ok (a, offset') ∧ f a buf offset' = .error e := by
  cases h : d buf offset with
  | error e' => simp [bind_error h]
  | ok p =>
      rcases p with ⟨a, mid⟩
      simp [bind_ok h]

end Decoder

/-- A type whose values are copied byte by byte. -/
class Plain (T : Type) where
  sizeof : ℕ
  bytes : T → Bytes
  ofBytes : Bytes → T
  length_bytes (t : T) : (bytes t).length = sizeof
  ofBytes_bytes (t : T) : ofBytes (bytes t) = t
  bytes_ofBytes (bs : Bytes) : bs.length = sizeof → bytes (ofBytes bs) = bs

instance : Plain UInt8 where
  sizeof := 1
  bytes b := [b]
  ofBytes bs := bs.headD 0
  length_bytes _ := rfl
  ofBytes_bytes _ := rfl
  bytes_ofBytes bs h := by
    obtain ⟨b, rfl⟩ := List.length_eq_one_iff.mp h
    rfl

def write {T : Type} [Plain T] (buf : Bytes) (value : T) : Bytes := buf ++ Plain.bytes value

/-- The copy itself does not look at the end of the buffer. The decoder
stops where the copy would leave it. -/
def read (T : Type) [Plain T] : Decoder ε T := fun buf offset =>
  if offset + Plain.sizeof T ≤ buf.length then
    .ok (Plain.ofBytes ((buf.drop offset).take (Plain.sizeof T)), offset + Plain.sizeof T)
  else
    .error (.overRead offset (Plain.sizeof T))

/-! ## What a decoder accepts -/

def Reads (d : Decoder ε α) (bs : Bytes) (a : α) : Prop :=
  ∀ before after, d (before ++ bs ++ after) before.length = .ok (a, before.length + bs.length)

def Rejects (d : Decoder ε α) (bs : Bytes) (e : ε) : Prop :=
  ∀ before after, d (before ++ bs ++ after) before.length = .error (.rejected e)

namespace Reads

theorem pure (a : α) : Reads (Pure.pure a : Decoder ε α) [] a := fun _ _ => rfl

theorem bind {d : Decoder ε α} {f : α → Decoder ε β} {bs cs : Bytes} {a : α} {b : β}
    (hd : Reads d bs a) (hf : Reads (f a) cs b) : Reads (d >>= f) (bs ++ cs) b := by
  intro before after
  have h1 := hd before (cs ++ after)
  have h2 := hf (before ++ bs) after
  simp only [List.append_assoc, List.length_append] at h1 h2 ⊢
  rw [Decoder.bind_ok h1, h2, Nat.add_assoc]

theorem map {d : Decoder ε α} {g : α → β} {bs : Bytes} {a : α} (hd : Reads d bs a) :
    Reads (d >>= fun x => Pure.pure (g x)) bs (g a) := by
  have h := bind (f := fun x => (Pure.pure (g x) : Decoder ε β)) hd (Reads.pure (g a))
  rwa [List.append_nil] at h

theorem read {T : Type} [Plain T] (t : T) : Reads (ε := ε) (read T) (Plain.bytes t) t := by
  intro before after
  have hlen : (Plain.bytes t).length = Plain.sizeof T := Plain.length_bytes t
  have htake : ((before ++ Plain.bytes t ++ after).drop before.length).take (Plain.sizeof T) =
      Plain.bytes t := by
    rw [List.append_assoc, List.drop_left, List.take_left' hlen]
  have hfit : before.length + Plain.sizeof T ≤ (before ++ Plain.bytes t ++ after).length := by
    simp only [List.length_append]
    omega
  rw [Decoding.read, if_pos hfit, htake, Plain.ofBytes_bytes, hlen]

theorem loop {d : Decoder ε α} {enc : α → Bytes} {as : List α}
    (h : ∀ a ∈ as, Reads d (enc a) a) : Reads (Decoder.loop d as.length) (as.flatMap enc) as := by
  induction as with
  | nil => exact Reads.pure []
  | cons a as ih =>
      have hrest := ih fun b hb => h b (List.mem_cons_of_mem _ hb)
      exact bind (h a List.mem_cons_self) (map hrest)

/-- Bytes that a decoder reads are no proper prefix of others it reads. -/
theorem prefix_free {d : Decoder ε α} {bs cs : Bytes} {a b : α} (ha : Reads d bs a)
    (hb : Reads d cs b) (h : bs <+: cs) : a = b ∧ bs = cs := by
  obtain ⟨after, rfl⟩ := h
  have h1 := ha [] after
  have h2 := hb [] []
  simp only [List.append_nil, List.nil_append] at h1 h2
  rw [h1] at h2
  simp only [Except.ok.injEq, Prod.mk.injEq, List.length_nil, List.length_append] at h2
  have hnil : after = [] := List.length_eq_zero_iff.mp (by omega)
  exact ⟨h2.1, by rw [hnil, List.append_nil]⟩

theorem at_start {d : Decoder ε α} {bs buf : Bytes} {a : α} (h : Reads d bs a)
    (hp : bs <+: buf) : d buf 0 = .ok (a, bs.length) := by
  obtain ⟨after, rfl⟩ := hp
  have h1 := h [] after
  simpa using h1

/-- An octet is read, and what follows depends on it. -/
theorem octet_bind {octet : UInt8} {f : UInt8 → Decoder ε β} {bs : Bytes} {b : β}
    (h : Reads (f octet) bs b) : Reads (Decoding.read UInt8 >>= f) (octet :: bs) b :=
  bind (read octet) h

end Reads

namespace Rejects

theorem reject (e : ε) : Rejects (Decoder.reject e : Decoder ε α) [] e := fun _ _ => rfl

theorem bind_left {d : Decoder ε α} {f : α → Decoder ε β} {bs : Bytes} {e : ε}
    (hd : Rejects d bs e) : Rejects (d >>= f) bs e :=
  fun before after => Decoder.bind_error (hd before after)

theorem bind {d : Decoder ε α} {f : α → Decoder ε β} {bs cs : Bytes} {a : α} {e : ε}
    (hd : Reads d bs a) (hf : Rejects (f a) cs e) : Rejects (d >>= f) (bs ++ cs) e := by
  intro before after
  have h1 := hd before (cs ++ after)
  have h2 := hf (before ++ bs) after
  simp only [List.append_assoc, List.length_append] at h1 h2 ⊢
  rw [Decoder.bind_ok h1, h2]

/-- A loop is refused in the round after those that succeed. -/
theorem loop {d : Decoder ε α} {enc : α → Bytes} {as : List α} {cs : Bytes} {e : ε} {n : ℕ}
    (h : ∀ a ∈ as, Reads d (enc a) a) (hcs : Rejects d cs e) (hn : as.length < n) :
    Rejects (Decoder.loop d n) (as.flatMap enc ++ cs) e := by
  induction as generalizing n with
  | nil =>
      cases n with
      | zero => simp at hn
      | succ n => exact bind_left hcs
  | cons a as ih =>
      cases n with
      | zero => simp at hn
      | succ n =>
          have hrest : Rejects (Decoder.loop d n) (as.flatMap enc ++ cs) e :=
            ih (fun b hb => h b (List.mem_cons_of_mem _ hb)) (by simpa using hn)
          rw [List.flatMap_cons, List.append_assoc]
          exact bind (h a List.mem_cons_self) (bind_left hrest)

theorem at_start {d : Decoder ε α} {bs buf : Bytes} {e : ε} (h : Rejects d bs e)
    (hp : bs <+: buf) : d buf 0 = .error (.rejected e) := by
  obtain ⟨after, rfl⟩ := hp
  have h1 := h [] after
  simpa using h1

theorem octet_bind {octet : UInt8} {f : UInt8 → Decoder ε β} {bs : Bytes} {e : ε}
    (h : Rejects (f octet) bs e) : Rejects (Decoding.read UInt8 >>= f) (octet :: bs) e :=
  bind (Reads.read octet) h

end Rejects

/-! ## What a run can have found -/

/-- A run that succeeds has consumed bytes that `P` relates to its result, a
run that refuses stands before bytes that `Q` relates to its error, and fuel
is left wherever fewer than `n` bytes remain. -/
structure Explains (n : ℕ) (d : Decoder ε α) (P : α → Bytes → Prop) (Q : ε → Bytes → Prop) :
    Prop where
  ok : ∀ {buf offset a offset'}, offset ≤ buf.length → d buf offset = .ok (a, offset') →
    ∃ bs, P a bs ∧ buf.drop offset = bs ++ buf.drop offset' ∧ offset' = offset + bs.length ∧
      offset' ≤ buf.length
  rejected : ∀ {buf offset e}, offset ≤ buf.length → d buf offset = .error (.rejected e) →
    ∃ bs, Q e bs ∧ bs <+: buf.drop offset
  fuel : ∀ {buf offset}, offset ≤ buf.length → buf.length - offset < n →
    d buf offset ≠ .error .outOfFuel

namespace Explains

variable {n : ℕ} {P : α → Bytes → Prop} {Q : ε → Bytes → Prop}

theorem mono {m : ℕ} {d : Decoder ε α} {P' : α → Bytes → Prop} {Q' : ε → Bytes → Prop}
    (h : Explains n d P Q) (hm : m ≤ n) (hP : ∀ a bs, P a bs → P' a bs)
    (hQ : ∀ e bs, Q e bs → Q' e bs) : Explains m d P' Q' where
  ok hle hrun := by
    obtain ⟨bs, hbs, hrest⟩ := h.ok hle hrun
    exact ⟨bs, hP _ _ hbs, hrest⟩
  rejected hle hrun := by
    obtain ⟨bs, hbs, hrest⟩ := h.rejected hle hrun
    exact ⟨bs, hQ _ _ hbs, hrest⟩
  fuel hle hlt := h.fuel hle (by omega)

theorem pure (a : α) (hP : P a []) : Explains n (Pure.pure a : Decoder ε α) P Q where
  ok hle hrun := by
    simp only [Pure.pure, Except.ok.injEq, Prod.mk.injEq] at hrun
    obtain ⟨rfl, rfl⟩ := hrun
    exact ⟨[], hP, rfl, rfl, hle⟩
  rejected _ hrun := nomatch hrun
  fuel _ _ := nofun

theorem reject {e : ε} (hQ : Q e []) : Explains n (Decoder.reject e : Decoder ε α) P Q where
  ok _ hrun := nomatch hrun
  rejected _ hrun := by
    simp only [Decoder.reject, Except.error.injEq, Fault.rejected.injEq] at hrun
    subst hrun
    exact ⟨[], hQ, List.nil_prefix⟩
  fuel _ _ := nofun

theorem exhausted : Explains 0 (Decoder.exhausted : Decoder ε α) P Q where
  ok _ hrun := nomatch hrun
  rejected _ hrun := nomatch hrun
  fuel _ hlt := absurd hlt (Nat.not_lt_zero _)

theorem read {T : Type} [Plain T] :
    Explains n (read T : Decoder ε T) (fun t bs => bs = Plain.bytes t) (fun _ _ => False) where
  ok {buf offset t offset'} _ hrun := by
    unfold Decoding.read at hrun
    split at hrun
    · rename_i hfit
      simp only [Except.ok.injEq, Prod.mk.injEq] at hrun
      obtain ⟨rfl, rfl⟩ := hrun
      have hlen : ((buf.drop offset).take (Plain.sizeof T)).length = Plain.sizeof T := by
        rw [List.length_take, List.length_drop]
        omega
      have hbytes := Plain.bytes_ofBytes (T := T) _ hlen
      refine ⟨_, rfl, ?_, ?_, hfit⟩
      · rw [hbytes, ← List.drop_drop, List.take_append_drop]
      · rw [hbytes, hlen]
    · exact nomatch hrun
  rejected _ hrun := by
    unfold Decoding.read at hrun
    split at hrun <;> simp at hrun
  fuel _ _ := by
    unfold Decoding.read
    split <;> simp

theorem bind {d : Decoder ε α} {f : α → Decoder ε β} {R : α → β → Bytes → Prop}
    {S : α → ε → Bytes → Prop} (hd : Explains n d P Q)
    (hf : ∀ a bs, P a bs → Explains (n - bs.length) (f a) (R a) (S a)) :
    Explains n (d >>= f) (fun b bs => ∃ a bs1 bs2, P a bs1 ∧ R a b bs2 ∧ bs = bs1 ++ bs2)
      (fun e bs => Q e bs ∨ ∃ a bs1 bs2, P a bs1 ∧ S a e bs2 ∧ bs = bs1 ++ bs2) where
  ok hle hrun := by
    obtain ⟨a, mid, h1, h2⟩ := Decoder.bind_eq_ok.mp hrun
    obtain ⟨bs1, hP, hbs1, hmid, hmle⟩ := hd.ok hle h1
    obtain ⟨bs2, hP', hbs2, hend, hele⟩ := (hf a bs1 hP).ok hmle h2
    refine ⟨bs1 ++ bs2, ⟨a, bs1, bs2, hP, hP', rfl⟩, ?_, ?_, hele⟩
    · rw [hbs1, hbs2, List.append_assoc]
    · rw [hend, hmid, List.length_append, Nat.add_assoc]
  rejected hle hrun := by
    rcases Decoder.bind_eq_error.mp hrun with h1 | ⟨a, mid, h1, h2⟩
    · obtain ⟨bs, hQ, hbs⟩ := hd.rejected hle h1
      exact ⟨bs, Or.inl hQ, hbs⟩
    · obtain ⟨bs1, hP, hbs1, hmid, hmle⟩ := hd.ok hle h1
      obtain ⟨bs2, hQ', hbs2⟩ := (hf a bs1 hP).rejected hmle h2
      refine ⟨bs1 ++ bs2, Or.inr ⟨a, bs1, bs2, hP, hQ', rfl⟩, ?_⟩
      rw [hbs1]
      exact (List.prefix_append_right_inj bs1).mpr hbs2
  fuel {buf offset} hle hlt hrun := by
    rcases Decoder.bind_eq_error.mp hrun with h1 | ⟨a, mid, h1, h2⟩
    · exact hd.fuel hle hlt h1
    · obtain ⟨bs1, hP, hbs1, hmid, hmle⟩ := hd.ok hle h1
      apply (hf a bs1 hP).fuel hmle _ h2
      omega

theorem map {d : Decoder ε α} {g : α → β} (hd : Explains n d P Q) :
    Explains n (d >>= fun x => Pure.pure (g x)) (fun b bs => ∃ a, P a bs ∧ b = g a) Q := by
  have h := bind (f := fun x => (Pure.pure (g x) : Decoder ε β))
    (R := fun a b bs => b = g a ∧ bs = []) (S := fun _ _ _ => False) hd
    fun a bs _ => Explains.pure (g a) ⟨rfl, rfl⟩
  apply h.mono le_rfl
  · rintro b bs ⟨a, bs1, bs2, hP, ⟨rfl, rfl⟩, rfl⟩
    exact ⟨a, by rwa [List.append_nil], rfl⟩
  · rintro e bs (hQ | ⟨_, _, _, _, h, _⟩)
    · exact hQ
    · exact h.elim

/-- The rounds of a loop, each explained by the same relations. -/
theorem loop {d : Decoder ε α} {enc : α → Bytes} {ok : α → Prop}
    (hd : Explains n d (fun a bs => ok a ∧ bs = enc a) Q) (k : ℕ) :
    Explains n (Decoder.loop d k)
      (fun as bs => as.length = k ∧ (∀ a ∈ as, ok a) ∧ bs = as.flatMap enc)
      (fun e bs => ∃ (as : List α) (cs : Bytes), as.length < k ∧ (∀ a ∈ as, ok a) ∧ Q e cs ∧
        bs = as.flatMap enc ++ cs) := by
  induction k with
  | zero => exact Explains.pure [] ⟨rfl, by simp, rfl⟩
  | succ k ih =>
      have h := bind (f := fun a => Decoder.loop d k >>= fun as => Pure.pure (a :: as)) hd
        fun a bs _ => (map (g := fun as => a :: as) ih).mono (Nat.sub_le n bs.length)
          (fun _ _ h => h) (fun _ _ h => h)
      apply h.mono le_rfl
      · rintro as bs ⟨a, bs1, bs2, ⟨ha, rfl⟩, ⟨as', ⟨hlen, hok, rfl⟩, rfl⟩, rfl⟩
        refine ⟨by rw [List.length_cons, hlen], ?_, by rw [List.flatMap_cons]⟩
        exact List.forall_mem_cons.mpr ⟨ha, hok⟩
      · rintro e bs (hQ | ⟨a, bs1, bs2, ⟨ha, rfl⟩, ⟨as, cs, hlen, hok, hQ, rfl⟩, rfl⟩)
        · exact ⟨[], bs, by simp, by simp, hQ, rfl⟩
        · refine ⟨a :: as, cs, by simpa using hlen, ?_, hQ, ?_⟩
          · exact List.forall_mem_cons.mpr ⟨ha, hok⟩
          · rw [List.flatMap_cons, List.append_assoc]

end Explains

/-! ## Fuel -/

/-- The second decoder agrees with the first one wherever that has fuel. -/
def Extends (buf : Bytes) (d d' : Decoder ε α) : Prop :=
  ∀ offset, d buf offset ≠ .error .outOfFuel → d' buf offset = d buf offset

namespace Extends

variable {buf : Bytes}

theorem refl (d : Decoder ε α) : Extends buf d d := fun _ _ => rfl

theorem bind {d d' : Decoder ε α} {f f' : α → Decoder ε β} (hd : Extends buf d d')
    (hf : ∀ a, Extends buf (f a) (f' a)) : Extends buf (d >>= f) (d' >>= f') := by
  intro offset hfuel
  cases h : d buf offset with
  | error e =>
      rw [Decoder.bind_error h] at hfuel ⊢
      have h' : d' buf offset = .error e := by
        rw [hd offset fun hout => hfuel ?_, h]
        rw [h] at hout
        cases hout
        rfl
      rw [Decoder.bind_error h']
  | ok p =>
      rcases p with ⟨a, mid⟩
      rw [Decoder.bind_ok h] at hfuel ⊢
      have h' : d' buf offset = .ok (a, mid) := by rw [hd offset (by simp [h]), h]
      rw [Decoder.bind_ok h', hf a mid hfuel]

theorem loop {d d' : Decoder ε α} (hd : Extends buf d d') (n : ℕ) :
    Extends buf (Decoder.loop d n) (Decoder.loop d' n) := by
  induction n with
  | zero => exact refl _
  | succ n ih => exact bind hd fun _ => bind ih fun _ => refl _

end Extends

end Decoding
