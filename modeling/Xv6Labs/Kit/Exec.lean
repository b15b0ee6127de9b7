import Mathlib.Control.Lawful

/-! Runs of state-passing code that may fail: how a run that returns splits into the runs of its
parts, when two runs agree, and what a loop adds up to. -/
namespace Kit

variable {σ ε α β : Type} {m : StateT σ (Except ε) α} {s s' : σ}

theorem toOption_eq_some {x : Except ε α} {a : α} (h : x.toOption = some a) : x = .ok a := by
  cases x with
  | ok b =>
    cases h
    rfl
  | error e => cases h

/-- A run whose value is known has returned. -/
theorem ok_of_fst {x : Except ε (α × σ)} {a : α} (h : x.toOption.map Prod.fst = some a) :
    ∃ s, x = .ok (a, s) := by
  obtain ⟨p, hp, rfl⟩ := Option.map_eq_some_iff.mp h
  exact ⟨p.2, toOption_eq_some hp⟩

/-- A sequence that returns has returned from its first part. -/
theorem bind_ok {f : α → StateT σ (Except ε) β} {b : β} (h : (m >>= f) s = .ok (b, s')) :
    ∃ a s1, m s = .ok (a, s1) ∧ f a s1 = .ok (b, s') := by
  change Except.bind (m s) (fun p => f p.1 p.2) = .ok (b, s') at h
  cases hm : m s with
  | error e => simp [hm, Except.bind] at h
  | ok p => exact ⟨p.1, p.2, rfl, by simpa [hm, Except.bind] using h⟩

theorem bind_of_ok {f : α → StateT σ (Except ε) β} {a : α} (h : m s = .ok (a, s')) :
    (m >>= f) s = f a s' := by
  change Except.bind (m s) (fun p => f p.1 p.2) = _
  rw [h]
  rfl

theorem bind_of_error {f : α → StateT σ (Except ε) β} {e : ε} (h : m s = .error e) :
    (m >>= f) s = .error e := by
  change Except.bind (m s) (fun p => f p.1 p.2) = _
  rw [h]
  rfl

theorem pure_ok {a b : α} (h : (pure a : StateT σ (Except ε) α) s = .ok (b, s')) :
    b = a ∧ s' = s := by
  change Except.ok (a, s) = .ok (b, s') at h
  cases h
  exact ⟨rfl, rfl⟩

/-- Two runs agree: both fail alike, or both return, with values related by `R` and states
related by `S`. -/
def Agree (S : σ → σ → Prop) (R : α → β → Prop) :
    Except ε (α × σ) → Except ε (β × σ) → Prop
  | .error e, .error e' => e = e'
  | .ok (a, s), .ok (b, t) => R a b ∧ S s t
  | _, _ => False

section Agree
variable {S : σ → σ → Prop} {R : α → β → Prop} {t t' : σ} {γ δ : Type} {Q : γ → δ → Prop}

theorem Agree.refl (x : Except ε (α × σ)) : Agree Eq Eq x x := by
  cases x with
  | error e => exact Eq.refl e
  | ok p => exact ⟨rfl, rfl⟩

theorem Agree.bind {m : StateT σ (Except ε) α} {m' : StateT σ (Except ε) β}
    {f : α → StateT σ (Except ε) γ} {f' : β → StateT σ (Except ε) δ}
    (h : Agree S R (m s) (m' t))
    (hf : ∀ a b s' t', m s = .ok (a, s') → m' t = .ok (b, t') → R a b → S s' t' →
      Agree S Q (f a s') (f' b t')) :
    Agree S Q ((m >>= f) s) ((m' >>= f') t) := by
  cases hm : m s with
  | error e =>
    cases hm' : m' t with
    | error e' =>
      rw [bind_of_error hm, bind_of_error hm']
      rw [hm, hm'] at h
      exact h
    | ok p =>
      rw [hm, hm'] at h
      exact h.elim
  | ok p =>
    cases hm' : m' t with
    | error e' =>
      rw [hm, hm'] at h
      exact h.elim
    | ok q =>
      rw [hm, hm'] at h
      rw [bind_of_ok hm, bind_of_ok hm']
      exact hf _ _ _ _ hm hm' h.1 h.2

/-- A run agrees with itself followed by a function of its value. -/
theorem Agree.bind_pure {f : α → β} (hf : ∀ a, R a (f a)) :
    Agree Eq R (m s) ((m >>= fun a => pure (f a)) s) := by
  cases hm : m s with
  | error e =>
    rw [bind_of_error hm]
    exact Eq.refl e
  | ok p =>
    rw [bind_of_ok hm]
    exact ⟨hf p.1, rfl⟩

/-- A run that returns has a partner that returns. -/
theorem Agree.of_ok {x : Except ε (β × σ)} {a : α} {s' : σ}
    (h : Agree S R (.ok (a, s') : Except ε (α × σ)) x) :
    ∃ b t', x = .ok (b, t') ∧ R a b ∧ S s' t' := by
  cases x with
  | error e => exact h.elim
  | ok p => exact ⟨p.1, p.2, rfl, h⟩

end Agree

/-! Loops over `0 .. n-1` whose turns may fail. -/

section Loop
variable {α ε : Type*} {P : Nat → α → Prop} {f : α → Nat → Except ε α} {a : α}

theorem foldlM_range_succ (n : Nat) : (List.range (n+1)).foldlM f a =
    ((List.range n).foldlM f a).bind fun b => f b n := by
  rw [List.range_succ, List.foldlM_append]
  cases (List.range n).foldlM f a with
  | error e => rfl
  | ok b => exact bind_pure (f b n)

/-- All turns succeed, and each adds its part. -/
theorem foldlM_range (n : Nat) (h0 : P 0 a)
    (hstep : ∀ k < n, ∀ a, P k a → ∃ a', f a k = .ok a' ∧ P (k+1) a') :
    ∃ a', (List.range n).foldlM f a = .ok a' ∧ P n a' := by
  induction n with
  | zero => exact ⟨a, rfl, h0⟩
  | succ n ih =>
    obtain ⟨b, hb, hPb⟩ := ih fun k hk => hstep k (by omega)
    obtain ⟨c, hc, hPc⟩ := hstep n (by omega) b hPb
    refine ⟨c, ?_, hPc⟩
    rw [foldlM_range_succ, hb]
    exact hc

end Loop

end Kit
