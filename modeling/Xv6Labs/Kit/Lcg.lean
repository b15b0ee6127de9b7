import Mathlib.Data.ZMod.Basic
import Mathlib.Dynamics.PeriodicPts.Lemmas
import Mathlib.NumberTheory.Multiplicity
import Mathlib.RingTheory.Int.Basic

/-! Linear congruential generators modulo a power of two: with an odd increment and a
multiplier that is one modulo four every state lies on the same cycle. -/
namespace Kit.Lcg
open Finset Function

/-- One step of the generator. -/
def next {R : Type*} [CommRing R] (a c x : R) : R := a * x + c

/-- Every step adds the next power of the multiplier times the first difference. -/
theorem next_iterate {R : Type*} [CommRing R] (a c x : R) (n : ℕ) :
    (next a c)^[n] x = x + (∑ i ∈ range n, a ^ i) * ((a - 1) * x + c) := by
  induction n with
  | zero => simp
  | succ n ih =>
    rw [iterate_succ_apply', ih, geom_sum_succ, next]
    ring

/-- A geometric sum with ratio one modulo four has the powers of two of its length. -/
theorem two_pow_dvd_geom_sum {a : ℤ} (ha : 4 ∣ a - 1) (w n : ℕ) :
    (2 : ℤ) ^ w ∣ ∑ i ∈ range n, a ^ i ↔ 2 ^ w ∣ n := by
  have hn : (2 : ℤ) ^ w ∣ n ↔ 2 ^ w ∣ n := by
    rw [← Int.natCast_dvd_natCast]
    push_cast
    rfl
  rw [← hn]
  by_cases h1 : a = 1
  · simp [h1]
  · have hodd : ¬ (2 : ℤ) ∣ a := by omega
    have hlift := Int.two_pow_sub_pow' n ha hodd
    rw [one_pow, ← mul_geom_sum, emultiplicity_mul Int.prime_two] at hlift
    have hfin : FiniteMultiplicity (2 : ℤ) (a - 1) :=
      Int.finiteMultiplicity_iff.mpr ⟨by decide, by omega⟩
    have hcancel : emultiplicity 2 (∑ i ∈ range n, a ^ i) = emultiplicity 2 (n : ℤ) :=
      ENat.add_right_injective_of_ne_top (finiteMultiplicity_iff_emultiplicity_ne_top.mp hfin) hlift
    rw [pow_dvd_iff_le_emultiplicity, pow_dvd_iff_le_emultiplicity, hcancel]

section Cycle
variable {w : ℕ} {a c : ℤ} (ha : 4 ∣ a - 1) (hc : Odd c) (x : ZMod (2 ^ w))
include ha hc

/-- The times at which the generator is back at its start are the multiples of `2 ^ w`. -/
theorem isPeriodicPt_iff (n : ℕ) :
    IsPeriodicPt (next (a : ZMod (2 ^ w)) c) n x ↔ 2 ^ w ∣ n := by
  obtain ⟨y, rfl⟩ := ZMod.intCast_surjective x
  have heven : Even (a - 1) := even_iff_two_dvd.mpr (dvd_trans (by decide) ha)
  have hodd : Odd ((a - 1) * y + c) := (heven.mul_right y).add_odd hc
  have hcop : IsCoprime ((2 : ℤ) ^ w) ((a - 1) * y + c) :=
    (Int.isCoprime_two_left.mpr hodd).pow_left
  have hcast : (∑ i ∈ range n, (a : ZMod (2 ^ w)) ^ i) * ((a - 1) * y + c) =
      ((∑ i ∈ range n, a ^ i) * ((a - 1) * y + c) : ℤ) := by
    push_cast
    rfl
  rw [IsPeriodicPt, IsFixedPt, next_iterate, add_eq_left, hcast,
    ZMod.intCast_zmod_eq_zero_iff_dvd, ← two_pow_dvd_geom_sum ha]
  push_cast
  constructor
  · exact hcop.dvd_of_dvd_mul_right
  · exact fun h => h.mul_right _

theorem minimalPeriod_next : minimalPeriod (next (a : ZMod (2 ^ w)) c) x = 2 ^ w := by
  apply Nat.dvd_antisymm
  · exact ((isPeriodicPt_iff ha hc x _).mpr dvd_rfl).minimalPeriod_dvd
  · exact (isPeriodicPt_iff ha hc x _).mp (isPeriodicPt_minimalPeriod _ _)

end Cycle

section Orbit
variable {α : Type*} [Fintype α] {f : α → α} {x : α}

theorem injOn_iterate (h : minimalPeriod f x = Fintype.card α) :
    Set.InjOn (fun n => f^[n] x) (range (Fintype.card α)) := by
  rw [coe_range, ← h]
  exact iterate_injOn_Iio_minimalPeriod

/-- A cycle with as many states as there are passes through all of them. -/
theorem image_iterate [DecidableEq α] (h : minimalPeriod f x = Fintype.card α) :
    (range (Fintype.card α)).image (fun n => f^[n] x) = univ := by
  apply eq_univ_of_card
  rw [card_image_of_injOn (injOn_iterate h), card_range]

theorem visits_once (h : minimalPeriod f x = Fintype.card α) (y : α) :
    ∃! n, n < Fintype.card α ∧ f^[n] x = y := by
  classical
  have hy : y ∈ (range (Fintype.card α)).image (fun n => f^[n] x) := by
    rw [image_iterate h]
    exact mem_univ y
  obtain ⟨n, hn, hny⟩ := mem_image.mp hy
  refine ⟨n, ⟨mem_range.mp hn, hny⟩, ?_⟩
  intro m hm
  exact injOn_iterate h (mem_coe.mpr (mem_range.mpr hm.1)) hn (hm.2.trans hny.symm)

/-- Over one cycle a property of the state comes up once for each state that has it. -/
theorem card_visits (h : minimalPeriod f x = Fintype.card α) (p : α → Prop) [DecidablePred p] :
    #{n ∈ range (Fintype.card α) | p (f^[n] x)} = #{y : α | p y} := by
  classical
  have hinj := injOn_iterate h
  rw [← image_iterate h, filter_image, card_image_of_injOn]
  exact hinj.mono (coe_subset.mpr (filter_subset _ _))

end Orbit

/-- Residues may be counted by their representatives. -/
theorem card_val (m : ℕ) [NeZero m] (p : ℕ → Prop) [DecidablePred p] :
    #{y : ZMod m | p y.val} = #{n ∈ range m | p n} := by
  refine card_nbij' ZMod.val (fun n => (n : ZMod m)) ?_ ?_ ?_ ?_
  · intro y hy
    have hp : p y.val := (mem_filter.mp (mem_coe.mp hy)).2
    exact mem_coe.mpr (mem_filter.mpr ⟨mem_range.mpr y.val_lt, hp⟩)
  · intro n hn
    obtain ⟨hlt, hp⟩ := mem_filter.mp (mem_coe.mp hn)
    have hval : (n : ZMod m).val = n := ZMod.val_cast_of_lt (mem_range.mp hlt)
    exact mem_coe.mpr (mem_filter.mpr ⟨mem_univ _, hval.symm ▸ hp⟩)
  · exact fun y _ => ZMod.natCast_zmod_val y
  · intro n hn
    have hlt := (mem_filter.mp (mem_coe.mp hn)).1
    exact ZMod.val_cast_of_lt (mem_range.mp hlt)

/-- Each value of the upper `b` bits is that of `2 ^ e` numbers below `2 ^ (b + e)`. -/
theorem card_high_bits {b e r : ℕ} (hr : r < 2 ^ b) :
    #{n ∈ range (2 ^ (b + e)) | n / 2 ^ e = r} = 2 ^ e := by
  have hpos : 0 < 2 ^ e := Nat.two_pow_pos e
  have hset : {n ∈ range (2 ^ (b + e)) | n / 2 ^ e = r} = Ico (r * 2 ^ e) ((r + 1) * 2 ^ e) := by
    have htop : (r + 1) * 2 ^ e ≤ 2 ^ (b + e) := by
      rw [pow_add]
      exact Nat.mul_le_mul_right _ hr
    ext n
    rw [mem_filter, mem_range, mem_Ico, Nat.div_eq_iff hpos]
    rw [Nat.add_mul, one_mul] at htop ⊢
    omega
  rw [hset, Nat.card_Ico, Nat.add_mul, one_mul, Nat.add_sub_cancel_left]

end Kit.Lcg
