import Xv6Labs.Kit.Lcg
import Xv6Labs.Sched.Lottery

/-! The random generator of Task 2.2: the states that `rand32` runs through from a seed and
the ticket numbers it draws from them, over one period. -/
namespace Xv6Labs.Lottery
open Finset Function Kit

/-- The `randstate` that a call of `rand32` leaves. -/
def nextState (randstate : UInt64) : UInt64 := (rand32 randstate).1

/-- What `rand32` returns after `k` earlier calls. -/
def draw (seed : UInt64) (k : Nat) : Nat := (rand32 (nextState^[k] seed)).2

/-- The generator as arithmetic modulo `2 ^ 64`. -/
def residue (randstate : UInt64) : ZMod (2 ^ 64) := (randstate.toNat : ZMod (2 ^ 64))

@[simp] theorem val_residue (s : UInt64) : (residue s).val = s.toNat :=
  ZMod.val_cast_of_lt s.toNat_lt

theorem residue_inj {s t : UInt64} : residue s = residue t ↔ s = t := by
  constructor
  · intro h
    have hval : s.toNat = t.toNat := by rw [← val_residue s, h, val_residue]
    exact UInt64.toNat_inj.mp hval
  · exact congrArg residue

/-- The factor in the update of `rand32`. -/
def multiplier : UInt64 := 6364136223846793005

theorem multiplier_mod_four : 4 ∣ (multiplier.toNat : ℤ) - 1 := by decide +kernel

/-- The update of `rand32`, on residues. -/
def step : ZMod (2 ^ 64) → ZMod (2 ^ 64) :=
  Lcg.next ((multiplier.toNat : ℤ) : ZMod (2 ^ 64)) ((1 : ℤ) : ZMod (2 ^ 64))

theorem residue_mul_add (s t u : UInt64) :
    residue (s * t + u) = residue t * residue s + residue u := by
  have hmod (n : ℕ) : ((n % 2 ^ 64 : ℕ) : ZMod (2 ^ 64)) = n := ZMod.natCast_mod n (2 ^ 64)
  rw [residue, UInt64.toNat_add, UInt64.toNat_mul, hmod, Nat.cast_add, hmod, Nat.cast_mul, mul_comm]
  rfl

theorem residue_semiconj : Semiconj residue nextState step := by
  intro s
  have hone : residue 1 = ((1 : ℤ) : ZMod (2 ^ 64)) := by
    rw [residue, UInt64.toNat_one, Nat.cast_one, Int.cast_one]
  have hmul : residue multiplier = ((multiplier.toNat : ℤ) : ZMod (2 ^ 64)) :=
    (Int.cast_natCast _).symm
  have hnext : nextState s = s * multiplier + 1 := rfl
  rw [hnext, residue_mul_add, hone, hmul]
  rfl

theorem residue_iterate (s : UInt64) (n : ℕ) : residue (nextState^[n] s) = step^[n] (residue s) :=
  residue_semiconj.iterate_right n s

theorem minimalPeriod_step (x : ZMod (2 ^ 64)) :
    minimalPeriod step x = Fintype.card (ZMod (2 ^ 64)) := by
  rw [ZMod.card]
  exact Lcg.minimalPeriod_next multiplier_mod_four odd_one x

/-- From every seed, every state comes up once in `2 ^ 64` calls. -/
theorem visits_every_state (seed s : UInt64) : ∃! k, k < 2 ^ 64 ∧ nextState^[k] seed = s := by
  have h := Lcg.visits_once (minimalPeriod_step (residue seed)) (residue s)
  simpa only [ZMod.card, ← residue_iterate, residue_inj] using h

theorem returns_iff (seed : UInt64) (n : ℕ) : nextState^[n] seed = seed ↔ 2 ^ 64 ∣ n := by
  rw [← residue_inj, residue_iterate]
  exact Lcg.isPeriodicPt_iff multiplier_mod_four odd_one (residue seed) n

/-- A draw is the upper 31 bits of the state that the call leaves. -/
theorem draw_eq (seed : UInt64) (k : ℕ) :
    draw seed k = (step^[k] (residue (nextState seed))).val / 2 ^ 33 := by
  have hout (s : UInt64) : (rand32 s).2 = (nextState s).toNat / 2 ^ 33 := by
    rw [← Nat.shiftRight_eq_div_pow]
    exact UInt64.toNat_shiftRight _ _
  rw [draw, hout, ← iterate_succ_apply' nextState, iterate_succ_apply, ← residue_iterate,
    val_residue]

theorem card_draw_eq (seed : UInt64) (r : Fin (2 ^ 31)) :
    #{k ∈ range (2 ^ 64) | draw seed k = r} = 2 ^ 33 := by
  have hcycle := Lcg.card_visits (minimalPeriod_step (residue (nextState seed)))
    (fun y => y.val / 2 ^ 33 = r)
  rw [ZMod.card, Lcg.card_val (2 ^ 64) (fun n => n / 2 ^ 33 = r)] at hcycle
  simp only [draw_eq]
  exact hcycle.trans (Lcg.card_high_bits r.isLt)

/-! Turns of the scheduler. The table may change in any way from one turn to the next. -/

/-- The `randstate` after a turn of `scheduler` on each of these tables. -/
def turns : List (List Proc) → UInt64 → UInt64
  | [], randstate => randstate
  | procs :: tables, randstate => turns tables (scheduler procs randstate).2.2

def hasRunnable (procs : List Proc) : Bool := procs.any (fun p => p.state = .runnable)

theorem firstPass_found (procs : List Proc) (found : Bool) (total : Int) :
    (firstPass procs found total).1 = (found || hasRunnable procs) := by
  induction procs generalizing found total with
  | nil => simp [firstPass, hasRunnable]
  | cons p ps ih =>
    by_cases hp : p.state = .runnable
    · rw [firstPass, if_pos hp, ih]
      simp [hasRunnable, hp]
    · rw [firstPass, if_neg hp, ih]
      simp [hasRunnable, hp]

/-- A turn draws once if there is a runnable process, and not at all otherwise. -/
theorem scheduler_randstate (procs : List Proc) (randstate : UInt64) :
    (scheduler procs randstate).2.2 =
      if hasRunnable procs then nextState randstate else randstate := by
  have hfound := firstPass_found procs false 0
  rw [Bool.false_or] at hfound
  rw [scheduler]
  cases h : hasRunnable procs with
  | false => simp [hfound, h]
  | true =>
    simp only [hfound, h, Bool.true_eq_false, if_false, if_true]
    split <;> rfl

theorem turns_eq (tables : List (List Proc)) (seed : UInt64) :
    turns tables seed = nextState^[tables.countP hasRunnable] seed := by
  induction tables generalizing seed with
  | nil => rfl
  | cons procs tables ih =>
    rw [turns, ih, scheduler_randstate, List.countP_cons]
    by_cases h : hasRunnable procs
    · rw [if_pos h, if_pos h, iterate_succ_apply]
    · rw [if_neg h, if_neg h, Nat.add_zero]

/-- From every seed the generator passes through all states once before it repeats, each
value of `rand32` comes up equally often over that period, and the scheduler is back at a
generator state only after a multiple of `2 ^ 64` turns with a runnable process. -/
theorem rand32_full_period (seed : UInt64) :
    (∀ s, ∃! k, k < 2 ^ 64 ∧ nextState^[k] seed = s) ∧
      (∀ n, nextState^[n] seed = seed ↔ 2 ^ 64 ∣ n) ∧
      (∀ r : Fin (2 ^ 31), #{k ∈ range (2 ^ 64) | draw seed k = r} = 2 ^ 33) ∧
      ∀ tables, turns tables seed = seed ↔ 2 ^ 64 ∣ tables.countP hasRunnable := by
  refine ⟨visits_every_state seed, returns_iff seed, card_draw_eq seed, ?_⟩
  intro tables
  rw [turns_eq, returns_iff]

end Xv6Labs.Lottery
