import Mathlib.Logic.Function.Basic
import Mathlib.Data.Nat.ModEq

/-! Arrays of slots and what they stand for: a circular buffer is the queue of its live entries, a
table of keys with values is a map. -/
namespace Kit.Ring
variable {α : Type*}

/-- The `count` entries from `head` on, in the order they will be taken. -/
def contents (cap : Nat) (buf : Nat → α) (head count : Nat) : List α :=
  (List.range count).map fun k => buf ((head+k)%cap)

@[simp] theorem contents_length (cap : Nat) (buf : Nat → α) (head count : Nat) :
    (contents cap buf head count).length = count := by simp [contents]

theorem index_ne {cap k count : Nat} (head : Nat) (hk : k < count) (hc : count < cap) :
    (head+k)%cap ≠ (head+count)%cap := by
  intro h
  have hmod : k % cap = count % cap := Nat.ModEq.add_left_cancel' head h
  rw [Nat.mod_eq_of_lt (by omega), Nat.mod_eq_of_lt hc] at hmod
  omega

/-- Storing at the tail appends. -/
theorem contents_push {cap count : Nat} (buf : Nat → α) (head : Nat) (v : α) (hc : count < cap) :
    contents cap (Function.update buf ((head+count)%cap) v) head (count+1) =
      contents cap buf head count ++ [v] := by
  have hold : (List.range count).map
      (fun k => Function.update buf ((head+count)%cap) v ((head+k)%cap)) =
      contents cap buf head count := by
    apply List.map_congr_left
    intro k hk
    exact Function.update_of_ne (index_ne head (List.mem_range.mp hk) hc) _ _
  simp only [contents, List.range_succ, List.map_append, List.map_cons, List.map_nil] at hold ⊢
  rw [hold]
  simp

/-- Advancing the head takes the first entry. -/
theorem contents_pop {cap head : Nat} (buf : Nat → α) (count : Nat) (hh : head < cap) :
    contents cap buf head (count+1) = buf head :: contents cap buf ((head+1)%cap) count := by
  have hnext (k : Nat) : (head+(k+1))%cap = ((head+1)%cap+k)%cap := by
    rw [Nat.mod_add_mod]
    congr 1
    omega
  rw [contents, contents, List.range_succ_eq_map, List.map_cons, List.map_map]
  congr 1
  · rw [Nat.add_zero, Nat.mod_eq_of_lt hh]
  · apply List.map_congr_left
    intro k _
    exact congrArg buf (hnext k)

end Kit.Ring

/-! A slot of a table is empty or holds a key with its value, and a key stands in one slot at
most. -/
namespace Kit
variable {κ ν : Type*} {t : Nat → Option (κ × ν)} {m : κ → Option ν} {i : Nat} {k : κ} {v : ν}

/-- The slots `t` hold the map `m`. -/
structure Stores (t : Nat → Option (κ × ν)) (m : κ → Option ν) : Prop where
  once : ∀ {i j k v w}, t i = some (k, v) → t j = some (k, w) → i = j
  maps : ∀ k v, m k = some v ↔ ∃ i, t i = some (k, v)

namespace Stores

theorem eq_none_iff (h : Stores t m) : m k = none ↔ ∀ i v, t i ≠ some (k, v) := by
  rw [Option.eq_none_iff_forall_ne_some]
  constructor
  · intro hm i v hi
    exact hm v ((h.maps k v).mpr ⟨i, hi⟩)
  · intro ht v hv
    obtain ⟨i, hi⟩ := (h.maps k v).mp hv
    exact ht i v hi

variable [DecidableEq κ]

/-- A new key goes into any slot that is empty. -/
theorem insert (h : Stores t m) (hi : t i = none) (hk : m k = none) (v : ν) :
    Stores (Function.update t i (some (k, v))) (Function.update m k (some v)) := by
  have hnew : ∀ {j k' w}, Function.update t i (some (k, v)) j = some (k', w) ↔
      (j = i ∧ k' = k ∧ w = v) ∨ (t j = some (k', w) ∧ k' ≠ k) := by
    intro j k' w
    by_cases he : j = i
    · rw [he, Function.update_self, hi]
      simp [eq_comm]
    · rw [Function.update_of_ne he]
      refine ⟨fun hj => .inr ⟨hj, ?_⟩, fun hj => (hj.resolve_left fun h => he h.1).1⟩
      rintro rfl
      exact h.eq_none_iff.mp hk j w hj
  constructor
  · intro j j' k' w w' hj hj'
    rcases hnew.mp hj with ⟨rfl, rfl, -⟩ | ⟨ht, hne⟩
    · rcases hnew.mp hj' with ⟨rfl, -⟩ | ⟨-, hne⟩
      · rfl
      · exact absurd rfl hne
    · rcases hnew.mp hj' with ⟨-, he, -⟩ | ⟨ht', -⟩
      · exact absurd he hne
      · exact h.once ht ht'
  · intro k' w
    simp only [hnew]
    by_cases he : k' = k
    · rw [he, Function.update_self]
      simp [eq_comm]
    · rw [Function.update_of_ne he, h.maps]
      simp [he]

/-- A key goes with its slot. -/
theorem erase (h : Stores t m) (hi : t i = some (k, v)) :
    Stores (Function.update t i none) (Function.update m k none) := by
  have hold : ∀ {j k' w}, Function.update t i none j = some (k', w) ↔
      t j = some (k', w) ∧ k' ≠ k := by
    intro j k' w
    by_cases he : j = i
    · rw [he, Function.update_self, hi]
      constructor
      · intro hj
        cases hj
      · rintro ⟨hj, hne⟩
        cases hj
        exact absurd rfl hne
    · rw [Function.update_of_ne he]
      refine ⟨fun hj => ⟨hj, ?_⟩, fun hj => hj.1⟩
      rintro rfl
      exact he (h.once hj hi)
  constructor
  · intro j j' k' w w' hj hj'
    exact h.once (hold.mp hj).1 (hold.mp hj').1
  · intro k' w
    simp only [hold]
    by_cases he : k' = k
    · rw [he, Function.update_self]
      simp
    · rw [Function.update_of_ne he, h.maps]
      simp [he]

end Stores

end Kit
