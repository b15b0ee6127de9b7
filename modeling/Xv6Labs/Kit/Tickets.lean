import Mathlib.Algebra.BigOperators.Group.List.Basic
import Mathlib.Algebra.GroupWithZero.Nat
import Mathlib.Algebra.BigOperators.Ring.Finset
import Mathlib.Data.Int.CardIntervalMod

/-! Lotteries: who owns a ticket, and how often it is drawn. A ticket line: entry `i` of a list of
weights owns the half-open interval of tickets that starts at the sum of the earlier weights. -/
namespace Kit.Tickets

/-- The entry that owns ticket `w`, found by scanning from the left. -/
def owner : List Nat → Nat → Option Nat
  | [], _ => none
  | t :: ts, w => if w < t then some 0 else (owner ts (w-t)).map (· + 1)

theorem owner_eq_some (ts : List Nat) (w i : Nat) :
    owner ts w = some i ↔ (ts.take i).sum ≤ w ∧ w < (ts.take (i+1)).sum := by
  induction ts generalizing w i with
  | nil => simp [owner]
  | cons t ts ih =>
    by_cases hw : w < t
    · cases i with
      | zero => simp [owner, hw]
      | succ i =>
        simp only [owner, hw, if_true, List.take_succ_cons, List.sum_cons]
        constructor
        · intro h; simp at h
        · intro h; omega
    · cases i with
      | zero => simp [owner, hw]
      | succ i =>
        simp only [owner, hw, if_false, Option.map_eq_some_iff, Nat.add_right_cancel_iff,
          exists_eq_right, ih, List.take_succ_cons, List.sum_cons]
        omega

theorem owner_eq_none (ts : List Nat) (w : Nat) : owner ts w = none ↔ ts.sum ≤ w := by
  induction ts generalizing w with
  | nil => simp [owner]
  | cons t ts ih =>
    by_cases hw : w < t
    · simp only [owner, hw, if_true, List.sum_cons]
      constructor
      · intro h; simp at h
      · intro h; omega
    · simp only [owner, hw, if_false, Option.map_eq_none_iff, ih, List.sum_cons]
      omega

end Kit.Tickets

/-! Shares of a wheel: values below `N` that come up equally often, taken modulo `T`. Each
residue gets `N/T` values or one more, so a set of residues gets its share up to one value each. -/
namespace Kit.Share
open Finset

variable {f : ℕ → ℕ} {M N T c w : ℕ} {W : Finset ℕ}

/-- In `M` draws every value below `N` comes up `c` times, and no other value does. -/
structure Even (f : ℕ → ℕ) (M N c : ℕ) : Prop where
  lt : ∀ k < M, f k < N
  card : ∀ r < N, #{k ∈ range M | f k = r} = c

theorem card_residue (hT : 0 < T) (hw : w < T) :
    #{r ∈ range N | r % T = w} = N/T + if w < N % T then 1 else 0 := by
  have hcount := Nat.count_modEq_card N hT w
  rw [Nat.mod_eq_of_lt hw, Nat.count_eq_card_filter_range] at hcount
  rw [← hcount]
  congr 1
  ext r
  simp only [mem_filter, Nat.ModEq, Nat.mod_eq_of_lt hw]

theorem Even.card_residue (h : Even f M N c) (hT : 0 < T) (hw : w < T) :
    #{k ∈ range M | f k % T = w} = (N/T + if w < N % T then 1 else 0)*c := by
  have hmaps : ∀ k ∈ ({k ∈ range M | f k % T = w} : Finset ℕ), f k ∈ {r ∈ range N | r % T = w} := by
    intro k hk
    rw [mem_filter, mem_range] at hk ⊢
    exact ⟨h.lt k hk.1, hk.2⟩
  rw [card_eq_sum_card_fiberwise hmaps, ← Share.card_residue hT hw]
  refine sum_const_nat fun r hr => ?_
  rw [mem_filter, mem_range] at hr
  rw [← h.card r hr.1, filter_filter]
  congr 1
  ext k
  simp only [mem_filter]
  constructor
  · exact fun hk => ⟨hk.1, hk.2.2⟩
  · exact fun hk => ⟨hk.1, by rw [hk.2]; exact hr.2, hk.2⟩

/-- A set of residues gets `N/T` values for each member, and one more for those below `N % T`. -/
theorem Even.card_mem (h : Even f M N c) (hT : 0 < T) (hW : W ⊆ range T) :
    #{k ∈ range M | f k % T ∈ W} = (#W*(N/T) + #{w ∈ W | w < N % T})*c := by
  have hmaps : ∀ k ∈ ({k ∈ range M | f k % T ∈ W} : Finset ℕ), f k % T ∈ W :=
    fun k hk => (mem_filter.mp hk).2
  have hone : ∀ w ∈ W, #{k ∈ ({k ∈ range M | f k % T ∈ W} : Finset ℕ) | f k % T = w} =
      (N/T + if w < N % T then 1 else 0)*c := by
    intro w hw
    rw [← h.card_residue hT (mem_range.mp (hW hw)), filter_filter]
    congr 1
    ext k
    simp only [mem_filter]
    constructor
    · exact fun hk => ⟨hk.1, hk.2.2⟩
    · exact fun hk => ⟨hk.1, by rw [hk.2]; exact hw, hk.2⟩
  have hquot : ∑ _w ∈ W, N/T = #W*(N/T) := sum_const_nat fun _ _ => rfl
  rw [card_eq_sum_card_fiberwise hmaps, sum_congr rfl hone, ← sum_mul, sum_add_distrib, hquot,
    card_filter]

/-- The share of a set of residues in the draws is its share of the residues, up to one value for
each of them. -/
theorem Even.share (h : Even f M N c) (hT : 0 < T) (hW : W ⊆ range T) (hM : M = N*c) :
    #W*M ≤ #{k ∈ range M | f k % T ∈ W}*T + #W*T*c ∧
      #{k ∈ range M | f k % T ∈ W}*T ≤ #W*M + #W*T*c := by
  have hex : #{w ∈ W | w < N % T} ≤ #W := card_filter_le _ _
  have hdiv := Nat.div_add_mod N T
  have hmod := Nat.mod_lt N hT
  rw [h.card_mem hT hW, hM]
  generalize #{w ∈ W | w < N % T} = x at hex
  generalize N/T = q at hdiv
  generalize N % T = r at hdiv hmod
  constructor
  · calc #W*(N*c) = #W*(T*q + r)*c := by rw [hdiv]; ring
      _ ≤ #W*(T*q + T)*c := by gcongr
      _ ≤ (#W*q + x)*c*T + #W*T*c := by nlinarith [Nat.zero_le (x*c*T)]
  · calc (#W*q + x)*c*T ≤ (#W*q + #W)*c*T := by gcongr
      _ = #W*(T*q)*c + #W*T*c := by ring
      _ ≤ #W*(N*c) + #W*T*c := by
        have : T*q ≤ N := by omega
        have := Nat.mul_le_mul_right c (Nat.mul_le_mul_left #W this)
        rw [← mul_assoc #W N c]
        omega

end Kit.Share
