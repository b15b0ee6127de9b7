import Mathlib.Data.Int.ModEq
import Mathlib.Data.Nat.Digits.Lemmas

/-! Two's complement views of mathematical integers, and the decimal digits of numbers. -/
namespace Kit

/-- The value an `int` of 32 bits holds after the exact result `x` is stored. -/
def int32 (x : Int) : Int := Int.bmod x (2^32)

/-- The conversion to `unsigned int`. -/
def uint32 (x : Int) : Nat := (x % 2^32).toNat

/-- The value an `unsigned int` holds after the exact result `x` is stored. -/
def u32 (x : Nat) : Nat := x % 2^32

/-- The largest `int`. -/
def intMax : Int := 2^31-1

theorem int32_of_range {x : Int} (h0 : 0 ≤ x) (h1 : x ≤ intMax) : int32 x = x := by
  unfold int32 intMax at *
  rw [Int.bmod_eq_of_le] <;> omega

theorem int32_le_intMax (x : Int) : int32 x ≤ intMax := by
  have h := Int.bmod_lt (x := x) (m := 2^32) (by decide)
  unfold int32 intMax
  omega

theorem uint32_of_range {x : Int} (h0 : 0 ≤ x) (h1 : x ≤ intMax) : (uint32 x : Int) = x := by
  unfold uint32 intMax at *
  omega

theorem u32_of_lt {x : Nat} (h : x < 2^32) : u32 x = x := Nat.mod_eq_of_lt h

end Kit

/-! Decimal digits as a loop of divisions finds them, least significant first and at least
one of them, and the value they have when they are read the other way round. -/
namespace Kit.Decimal

/-- The digits of `n`; zero has one digit. -/
def digits (n : ℕ) : List ℕ := n % 10 :: Nat.digits 10 (n / 10)

theorem digits_of_pos {n : ℕ} (h : 0 < n) : digits n = Nat.digits 10 n :=
  (Nat.digits_def' (by decide) h).symm

theorem digits_of_lt {n : ℕ} (h : n / 10 = 0) : digits n = [n % 10] := by
  simp [digits, h]

theorem digits_of_le {n : ℕ} (h : n / 10 ≠ 0) : digits n = n % 10 :: digits (n / 10) := by
  rw [digits_of_pos (Nat.pos_of_ne_zero h)]
  rfl

theorem digits_lt_ten {n d : ℕ} (h : d ∈ digits n) : d < 10 := by
  cases List.mem_cons.mp h with
  | inl hd => omega
  | inr hd => exact Nat.digits_lt_base (by decide) hd

theorem length_digits_le {n k : ℕ} : (digits n).length ≤ k + 1 ↔ n < 10 ^ (k + 1) := by
  rw [digits, List.length_cons, Nat.add_le_add_iff_right, Nat.digits_length_le_iff (by decide),
    pow_succ, Nat.div_lt_iff_lt_mul (by decide)]

/-- Only zero has a leading zero. -/
theorem getLast_digits {n : ℕ} (h : n ≠ 0) : (digits n).getLast? ≠ some 0 := by
  have hne : Nat.digits 10 n ≠ [] := Nat.digits_ne_nil_iff_ne_zero.mpr h
  rw [digits_of_pos (Nat.pos_of_ne_zero h), List.getLast?_eq_getLast_of_ne_nil hne]
  intro h0
  exact Nat.getLast_digit_ne_zero 10 h (Option.some.inj h0)

/-- Read from the most significant digit on, each one after ten times what came before. -/
theorem foldl_digits (n : ℕ) : (digits n).reverse.foldl (fun m d => m * 10 + d) 0 = n := by
  have hval : Nat.ofDigits 10 (digits n) = n := by
    rw [digits, Nat.ofDigits_cons, Nat.ofDigits_digits]
    exact Nat.mod_add_div n 10
  rw [List.foldl_reverse]
  rw [Nat.ofDigits_eq_foldr] at hval
  simpa only [Nat.cast_id, Nat.add_comm, Nat.mul_comm] using hval

end Kit.Decimal
