import Mathlib.Logic.Function.Basic
import Mathlib.Logic.Relation

/-! Threads with the locks that they hold and the parents that they have. A table of locks says
who holds each lock, a thread's place in its code says which lock it holds, and the two agree as
threads take and drop locks. Holders that are no threads of this view may hand a lock over. -/
namespace Kit
variable {L T H : Type*}

/-- The lock table names thread `t`, as `e t`, exactly at the lock that `t` holds. -/
def LocksAgree (e : T → H) (lock : L → Option H) (holds : T → Option L) : Prop :=
  ∀ t l, lock l = some (e t) ↔ holds t = some l

namespace LocksAgree
variable {e : T → H} {lock : L → Option H} {holds : T → Option L} {t : T} {l : L} {x : Option H}

theorem exclusive (he : e.Injective) (h : LocksAgree e lock holds) {u : T} (ht : holds t = some l)
    (hu : holds u = some l) : t = u := by
  have htl := (h t l).mpr ht
  have hul := (h u l).mpr hu
  exact he (Option.some.inj (htl.symm.trans hul))

theorem free (h : LocksAgree e lock holds) (hl : lock l = none) (u : T) : holds u ≠ some l := by
  intro hu
  rw [(h u l).mpr hu] at hl
  cases hl

theorem same [DecidableEq T] (h : LocksAgree e lock holds) {y : Option L} (ht : holds t = y) :
    LocksAgree e lock (Function.update holds t y) := by
  rw [← ht, Function.update_eq_self]
  exact h

/-- A thread takes a lock that no thread holds. -/
theorem take [DecidableEq L] [DecidableEq T] (he : e.Injective) (h : LocksAgree e lock holds)
    (ht : holds t = none) (hl : ∀ u, lock l ≠ some (e u)) :
    LocksAgree e (Function.update lock l (some (e t))) (Function.update holds t (some l)) := by
  intro u m
  by_cases hu : u = t
  · subst hu
    rw [Function.update_self]
    by_cases hm : m = l
    · subst hm
      simp
    · rw [Function.update_of_ne hm, h u m, ht]
      simp [Ne.symm hm]
  · rw [Function.update_of_ne hu]
    by_cases hm : m = l
    · subst hm
      rw [Function.update_self, ← h u m]
      refine ⟨?_, fun hum => absurd hum (hl u)⟩
      intro heq
      exact absurd (he (Option.some.inj heq)).symm hu
    · rw [Function.update_of_ne hm]
      exact h u m

/-- A thread drops its lock, or hands it to a holder that is no thread. -/
theorem drop [DecidableEq L] [DecidableEq T] (he : e.Injective) (h : LocksAgree e lock holds)
    (ht : holds t = some l) (hx : ∀ u, x ≠ some (e u)) :
    LocksAgree e (Function.update lock l x) (Function.update holds t none) := by
  intro u m
  by_cases hm : m = l
  · subst hm
    rw [Function.update_self]
    refine ⟨fun hxu => absurd hxu (hx u), ?_⟩
    intro hu
    by_cases hut : u = t
    · subst hut
      rw [Function.update_self] at hu
      cases hu
    · rw [Function.update_of_ne hut] at hu
      exact absurd (h.exclusive he hu ht) hut
  · rw [Function.update_of_ne hm]
    by_cases hut : u = t
    · subst hut
      rw [Function.update_self, h u m, ht]
      simp [Ne.symm hm]
    · rw [Function.update_of_ne hut]
      exact h u m

/-- A lock passes between holders that are no threads. -/
theorem outside [DecidableEq L] (h : LocksAgree e lock holds) (hl : ∀ u, lock l ≠ some (e u))
    (hx : ∀ u, x ≠ some (e u)) : LocksAgree e (Function.update lock l x) holds := by
  intro u m
  by_cases hm : m = l
  · subst hm
    rw [Function.update_self, ← h u m]
    exact ⟨fun hxu => absurd hxu (hx u), fun hlu => absurd hlu (hl u)⟩
  · rw [Function.update_of_ne hm]
    exact h u m

end LocksAgree

/-! Parent maps: a point has at most one parent, and the points in use lead up to one root. -/

section
variable {α : Type*}

/-- From `a` the parents lead up to `b`. -/
def Leads (up : α → Option α) : α → α → Prop := Relation.ReflTransGen fun a b => up a = some b

namespace Leads
variable {up up' : α → Option α} {root a : α}

/-- A point still leads to the root if every link on its way is kept or goes to the root. `K` holds
of the points on the way. -/
theorem keep {K : α → Prop} (h : Leads up a root) (ha : K a) (hK : ∀ x y, up x = some y → K y)
    (hup : ∀ x y, K x → up x = some y → up' x = some y ∨ up' x = some root) :
    Leads up' a root := by
  induction h using Relation.ReflTransGen.head_induction_on with
  | refl => exact .refl
  | head hxy _ ih =>
    cases hup _ _ ha hxy with
    | inl hkept => exact .head hkept (ih (hK _ _ hxy))
    | inr hroot => exact .single hroot

/-- What leads to a root without a parent is on no cycle. -/
theorem acyclic (h : Leads up a root) (hroot : up root = none) :
    ¬ Relation.TransGen (fun a b => up a = some b) a a := by
  induction h using Relation.ReflTransGen.head_induction_on with
  | refl =>
    intro hc
    obtain ⟨b, hb, -⟩ := Relation.TransGen.head'_iff.mp hc
    rw [hroot] at hb
    cases hb
  | @head x y hxy _ ih =>
    intro hc
    obtain ⟨b, hb, hbx⟩ := Relation.TransGen.head'_iff.mp hc
    cases hxy.symm.trans hb
    exact ih (.tail' hbx hxy)

end Leads
end
end Kit
