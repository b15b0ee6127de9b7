import Mathlib.Logic.Relation

/-! Finite runs of a labelled transition system, with the label history kept.
Invariants may speak about the history as well as about the state reached. -/
namespace Kit
variable {σ ι : Type*}

/-- `Run step s tr t`: the labels `tr`, in this order, lead from `s` to `t`. -/
inductive Run (step : σ → ι → σ → Prop) (s : σ) : List ι → σ → Prop
  | nil : Run step s [] s
  | snoc {tr : List ι} {t u : σ} {a : ι} :
      Run step s tr t → step t a u → Run step s (tr ++ [a]) u

/-- The steps that meet a condition on the state before them and the label. -/
def Guarded (step : σ → ι → σ → Prop) (ok : σ → ι → Prop) (s : σ) (a : ι) (t : σ) : Prop :=
  step s a t ∧ ok s a

namespace Run
variable {step : σ → ι → σ → Prop} {s t u : σ} {tr tr' : List ι} {a : ι}

theorem single (h : step s a t) : Run step s [a] t := nil.snoc h

theorem append (h : Run step s tr t) (h' : Run step t tr' u) :
    Run step s (tr ++ tr') u := by
  induction h' with
  | nil => simpa using h
  | snoc _ hs ih => simpa only [← List.append_assoc] using ih.snoc hs

theorem of_foldlM {f : σ → ι → Option σ} (hf : ∀ s a t, f s a = some t → step s a t)
    (h : tr.foldlM f s = some t) : Run step s tr t := by
  induction tr generalizing s with
  | nil =>
    cases h
    exact nil
  | cons a tr ih =>
    rw [List.foldlM_cons] at h
    obtain ⟨u, hu, h⟩ := Option.bind_eq_some_iff.mp h
    exact (single (hf s a u hu)).append (ih h)

/-- The history rule: what holds of the empty history and survives every step
holds of every run. -/
theorem history {P : List ι → σ → Prop} (h0 : P [] s)
    (hs : ∀ tr t a u, Run step s tr t → P tr t → step t a u → P (tr ++ [a]) u)
    (h : Run step s tr t) : P tr t := by
  induction h with
  | nil => exact h0
  | snoc hr hstep ih => exact hs _ _ _ _ hr ih hstep

theorem invariant {P : σ → Prop} (h0 : P s)
    (hs : ∀ t a u, P t → step t a u → P u) (h : Run step s tr t) : P t :=
  history (P := fun _ t => P t) h0 (fun _ t a u _ hp hstep => hs t a u hp hstep) h

theorem mono {step' : σ → ι → σ → Prop} (hs : ∀ t a u, step t a u → step' t a u)
    (h : Run step s tr t) : Run step' s tr t := by
  induction h with
  | nil => exact nil
  | snoc _ hstep ih => exact ih.snoc (hs _ _ _ hstep)

theorem guard {ok : σ → ι → Prop} (h : Run step s tr t) (hok : ∀ a ∈ tr, ∀ s, ok s a) :
    Run (Guarded step ok) s tr t := by
  induction h with
  | nil => exact nil
  | snoc _ hs ih =>
    refine (ih fun a ha => hok a (List.mem_append_left _ ha)).snoc ⟨hs, ?_⟩
    exact hok _ (List.mem_append_right _ (List.mem_singleton_self _)) _

/-- The guard rule with the history: along runs whose steps all meet the condition `ok` the
property `Q` holds, and the next step keeps it exactly if that step meets the condition too. The
invariant `I` is what the guarded steps keep. -/
theorem guarded_history_iff {I Q : List ι → σ → Prop} {ok : σ → ι → Prop} (h0 : I [] s)
    (hI : ∀ tr t a u, I tr t → step t a u → ok t a → I (tr ++ [a]) u)
    (hQ : ∀ tr t, I tr t → Q tr t)
    (hbad : ∀ tr t a u, I tr t → step t a u → ¬ ok t a → ¬ Q (tr ++ [a]) u)
    (h : Run (Guarded step ok) s tr t) :
    Q tr t ∧ ∀ a u, step t a u → (Q (tr ++ [a]) u ↔ ok t a) := by
  have ht : I tr t := h.history h0 fun tr v a w _ hv hs => hI tr v a w hv hs.1 hs.2
  refine ⟨hQ tr t ht, ?_⟩
  intro a u hs
  constructor
  · intro hu
    exact Classical.byContradiction fun hno => hbad tr t a u ht hs hno hu
  · intro hok
    exact hQ (tr ++ [a]) u (hI tr t a u ht hs hok)

/-- The guard rule for a property of the state alone. -/
theorem guarded_iff {I Q : σ → Prop} {ok : σ → ι → Prop} (h0 : I s)
    (hI : ∀ t a u, I t → step t a u → ok t a → I u) (hQ : ∀ t, I t → Q t)
    (hbad : ∀ t a u, I t → step t a u → ¬ ok t a → ¬ Q u) (h : Run (Guarded step ok) s tr t) :
    Q t ∧ ∀ a u, step t a u → (Q u ↔ ok t a) :=
  guarded_history_iff (I := fun _ t => I t) (Q := fun _ t => Q t) h0
    (fun _ t a u => hI t a u) (fun _ t => hQ t) (fun _ t a u => hbad t a u) h

/-- The guard rule for a property that a bad step breaks only later on: a step meets the
condition exactly if the property survives it and every guarded run after it. -/
theorem guarded_later_iff {I Q : List ι → σ → Prop} {ok : σ → ι → Prop} (h0 : I [] s)
    (hI : ∀ tr t a u, I tr t → step t a u → ok t a → I (tr ++ [a]) u)
    (hQ : ∀ tr t, I tr t → Q tr t)
    (hbad : ∀ tr t a u, I tr t → step t a u → ¬ ok t a →
      ∃ tr' v, Run (Guarded step ok) u tr' v ∧ ¬ Q (tr ++ [a] ++ tr') v)
    (h : Run (Guarded step ok) s tr t) :
    Q tr t ∧ ∀ a u, step t a u →
      (ok t a ↔ ∀ tr' v, Run (Guarded step ok) u tr' v → Q (tr ++ [a] ++ tr') v) := by
  have hrun {tr t} (hr : Run (Guarded step ok) s tr t) : I tr t :=
    hr.history h0 fun tr v a w _ hv hs => hI tr v a w hv hs.1 hs.2
  refine ⟨hQ tr t (hrun h), ?_⟩
  intro a u hs
  constructor
  · intro hok tr' v hr
    exact hQ _ v (hrun ((h.snoc ⟨hs, hok⟩).append hr))
  · intro hall
    refine Classical.byContradiction fun hno => ?_
    obtain ⟨tr', v, hr, hq⟩ := hbad tr t a u (hrun h) hs hno
    exact hq (hall tr' v hr)

end Run
end Kit
