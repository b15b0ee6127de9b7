import Xv6Labs.Kit.Exec

/-! Client programs of an interface. A program calls operations and goes on with the values they
return. Two implementations of the interface are compared operation by operation; what holds of
every operation then holds of every program. -/
namespace Kit

inductive Prog (Op : Type) (Ret : Op → Type) (α : Type) where
  | ret (a : α)
  | call (op : Op) (next : Ret op → Prog Op Ret α)

variable {Op : Type} {Ret : Op → Type} {α σ τ ε Ω : Type}

namespace Prog

/-- The program on an implementation of the operations. -/
def run (exec : (op : Op) → StateT σ (Except ε) (Ret op)) :
    Prog Op Ret α → StateT σ (Except ε) α
  | ret a => pure a
  | call op next => exec op >>= fun r => (next r).run exec

end Prog

/-- The outcome `x` is matched by the runs `y`, one for each resolution `o` of the choices that
the second implementation leaves open: a failure by the same failure, and a result by the same
result in a related state, whatever the choices after it are. -/
def Simulates (R : σ → τ → Prop) (choose : Ω → τ → τ) (x : Except ε (α × σ))
    (y : Ω → Except ε (α × τ)) : Prop :=
  match x with
  | .error e => ∃ o, y o = .error e
  | .ok (a, s) => ∃ t, R s t ∧ ∀ o, ∃ o', y o' = .ok (a, choose o t)

variable {R : σ → τ → Prop} {choose : Ω → τ → τ} {s : σ} {t : τ}
  {exec : (op : Op) → StateT σ (Except ε) (Ret op)}
  {exec' : (op : Op) → StateT τ (Except ε) (Ret op)}

/-- Both fail alike, or both return the same in related states. -/
def Matches (R : σ → τ → Prop) : Except ε (α × σ) → Except ε (α × τ) → Prop
  | .error e, .error e' => e = e'
  | .ok (a, s), .ok (b, t) => a = b ∧ R s t
  | _, _ => False

/-- An operation that leaves no choice open. -/
theorem Simulates.of_matches [Inhabited Ω] {x : Except ε (α × σ)} {y : Except ε (α × τ)}
    {f : Ω → Except ε (α × τ)} (hf : ∀ o, f o = y.map fun r => (r.1, choose o r.2))
    (h : Matches R x y) : Simulates R choose x f := by
  cases x with
  | error e =>
    cases y with
    | error e' =>
      refine ⟨default, (hf default).trans ?_⟩
      rw [show e = e' from h]
      rfl
    | ok q => exact h.elim
  | ok p =>
    cases y with
    | error e' => exact h.elim
    | ok q =>
      obtain ⟨hval, hR⟩ : p.1 = q.1 ∧ R p.2 q.2 := h
      refine ⟨q.2, hR, fun o => ⟨o, (hf o).trans ?_⟩⟩
      rw [hval]
      rfl

/-- If every operation is simulated, every program is. -/
theorem Prog.simulates (hop : ∀ op s t, R s t →
      Simulates R choose (exec op s) fun o => exec' op (choose o t))
    (p : Prog Op Ret α) (hst : R s t) :
    Simulates R choose (p.run exec s) fun o => p.run exec' (choose o t) := by
  induction p generalizing s t with
  | ret a => exact ⟨t, hst, fun o => ⟨o, rfl⟩⟩
  | call op next ih =>
    have hone := hop op s t hst
    cases hx : exec op s with
    | error e =>
      rw [hx] at hone
      obtain ⟨o, ho⟩ := hone
      rw [Prog.run, bind_of_error hx]
      exact ⟨o, bind_of_error ho⟩
    | ok q =>
      obtain ⟨r, s₁⟩ := q
      rw [hx] at hone
      obtain ⟨t₁, hR, hch⟩ := hone
      have hrest := ih r hR
      rw [Prog.run, bind_of_ok hx]
      cases hy : (next r).run exec s₁ with
      | error e =>
        rw [hy] at hrest
        obtain ⟨o, ho⟩ := hrest
        obtain ⟨o', ho'⟩ := hch o
        exact ⟨o', (bind_of_ok ho').trans ho⟩
      | ok q' =>
        obtain ⟨a, s₂⟩ := q'
        rw [hy] at hrest
        obtain ⟨t₂, hR₂, hch₂⟩ := hrest
        refine ⟨t₂, hR₂, fun o => ?_⟩
        obtain ⟨o₁, ho₁⟩ := hch₂ o
        obtain ⟨o₀, ho₀⟩ := hch o₁
        exact ⟨o₀, (bind_of_ok ho₀).trans ho₁⟩

end Kit
