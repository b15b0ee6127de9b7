import Mathlib.Order.Interval.Finset.Nat
import Xv6Labs.Kit.Numbers
import Xv6Labs.Kit.Tickets
import Xv6Labs.Sched.Proc

/-! Lottery scheduling of Task 2.2: the two passes of `scheduler` over the
process table, in the machine arithmetic of the C code. -/
namespace Xv6Labs.Lottery
open Kit Kit.Tickets

/-- The fields of `struct proc` that the scheduler reads. -/
structure Proc where
  state : ProcState
  tickets : Int
  deriving DecidableEq, Repr

/-- `int t = (p->tickets < 1) ? 1 : p->tickets`. -/
def Proc.t (p : Proc) : Int := if p.tickets < 1 then 1 else p.tickets

theorem Proc.one_le_t (p : Proc) : 1 ≤ p.t := by
  unfold Proc.t
  split <;> omega

/-- The update of `randstate` and the 31 bits that `rand32` returns. -/
def rand32 (randstate : UInt64) : UInt64 × Nat :=
  let randstate := randstate * 6364136223846793005 + 1
  (randstate, (randstate >>> 33).toNat)

/-- The first pass: `found` and the `int` `total`. -/
def firstPass : List Proc → Bool → Int → Bool × Int
  | [], found, total => (found, total)
  | p :: ps, found, total =>
    if p.state = .runnable then firstPass ps true (int32 (total + p.t))
    else firstPass ps found total

/-- The second pass from table index `i` on: the index that is dispatched, if any.
The addition `prefix + t` and the subtraction of one are both `int` operations. -/
def secondPass (winner : Nat) : List Proc → Int → Nat → Option Nat
  | [], _, _ => none
  | p :: ps, pre, i =>
    if p.state = .runnable then
      if winner < uint32 (int32 (int32 (pre + p.t) - 1)) then some i
      else secondPass winner ps (int32 (pre + p.t)) (i+1)
    else secondPass winner ps pre (i+1)

/-- One turn of the `for(;;)` loop: the process switched to, the table with that
process RUNNING, and the generator state. Without a runnable process there is no
draw and the CPU waits. -/
def scheduler (procs : List Proc) (randstate : UInt64) :
    Option Nat × List Proc × UInt64 :=
  let (found, total) := firstPass procs false 0
  if found = false then (none, procs, randstate)
  else
    let (randstate, r) := rand32 randstate
    let winner := r % uint32 total
    match secondPass winner procs 0 0 with
    | some i => (some i, procs.modify i (fun p => { p with state := .running }), randstate)
    | none => (none, procs, randstate)

/-! The specification side: ticket intervals over the runnable processes. -/

/-- `prefix(i)`: the sum of `t` over the runnable processes before index `i`. -/
def prefixSum (procs : List Proc) (i : Nat) : Int :=
  (((procs.take i).filter (fun p => p.state = .runnable)).map Proc.t).sum

def total (procs : List Proc) : Int := prefixSum procs procs.length

def Runnable (procs : List Proc) (i : Nat) : Prop :=
  ∃ p, procs[i]? = some p ∧ p.state = .runnable

/-- Index `i` is runnable and its interval contains the ticket `winner`. -/
def Owns (procs : List Proc) (winner i : Nat) : Prop :=
  ∃ p, procs[i]? = some p ∧ p.state = .runnable ∧
    prefixSum procs i ≤ winner ∧ winner < prefixSum procs i + p.t

/-- The ticket is the last one of a runnable process. -/
def LastTicket (procs : List Proc) (winner : Nat) : Prop :=
  ∃ i p, procs[i]? = some p ∧ p.state = .runnable ∧ prefixSum procs i + p.t = winner + 1

/-- The weight of a table entry on the ticket line; an entry that is not runnable has none. -/
def weight (p : Proc) : Nat := if p.state = .runnable then p.t.toNat else 0

def weights (procs : List Proc) : List Nat := procs.map weight

theorem weight_pos_iff (p : Proc) : 0 < weight p ↔ p.state = .runnable := by
  have := p.one_le_t
  unfold weight
  split
  · simp_all
    omega
  · simp_all

theorem prefixSum_eq (procs : List Proc) (i : Nat) :
    prefixSum procs i = ((weights procs).take i).sum := by
  induction procs generalizing i with
  | nil => simp [prefixSum, weights]
  | cons p ps ih =>
    cases i with
    | zero => simp [prefixSum]
    | succ i =>
      have hp := p.one_le_t
      have hi := ih i
      simp only [prefixSum, weights] at hi
      by_cases hr : p.state = .runnable
      · simp only [prefixSum, weights, weight, hr, List.take_succ_cons, List.filter_cons,
          decide_true, if_true, List.map_cons, List.sum_cons, hi, Nat.cast_add]
        omega
      · simp only [prefixSum, weights, weight, hr, List.take_succ_cons, List.filter_cons,
          decide_false, if_false, Bool.false_eq_true, List.map_cons, List.sum_cons, hi, zero_add]

theorem total_eq (procs : List Proc) : total procs = (weights procs).sum := by
  rw [total, prefixSum_eq, List.take_of_length_le (by simp [weights])]

theorem take_succ_sum {procs : List Proc} {i : Nat} {p : Proc} (h : procs[i]? = some p) :
    ((weights procs).take (i+1)).sum = ((weights procs).take i).sum + weight p := by
  have hw : (weights procs)[i]? = some (weight p) := by simp [weights, h]
  rw [List.take_add_one, hw]
  simp

theorem take_sum_le (procs : List Proc) (i : Nat) :
    ((weights procs).take i).sum ≤ (weights procs).sum := by
  have h := congrArg List.sum (List.take_append_drop i (weights procs))
  rw [List.sum_append] at h
  omega

/-- To own a ticket by the sum of what lies before the slot is to own it on the ticket line. -/
theorem owns_iff (procs : List Proc) (w i : Nat) :
    Owns procs w i ↔ owner (weights procs) w = some i := by
  rw [owner_eq_some]
  constructor
  · rintro ⟨p, hp, hr, h0, h1⟩
    have ht := p.one_le_t
    rw [take_succ_sum hp]
    rw [prefixSum_eq] at h0 h1
    simp only [weight, hr, if_true]
    omega
  · rintro ⟨h0, h1⟩
    cases hp : procs[i]? with
    | none =>
      have hlen : procs.length ≤ i := List.getElem?_eq_none_iff.mp hp
      rw [List.take_of_length_le (by simp [weights]; omega)] at h0 h1
      omega
    | some p =>
      have ht := p.one_le_t
      rw [take_succ_sum hp] at h1
      have hr : p.state = .runnable := (weight_pos_iff p).mp (by omega)
      refine ⟨p, hp, hr, ?_, ?_⟩ <;> rw [prefixSum_eq]
      · omega
      · simp only [weight, hr, if_true] at h1
        omega

/-- What the second pass computes: the owner of the ticket after the one drawn.
The induction is on the table; the invariant is that no earlier interval reached
past `winner`. -/
theorem secondPass_from (winner : Nat) (procs : List Proc) (pre : Int) (i : Nat)
    (h0 : 0 ≤ pre) (hw : pre ≤ winner + 1) (hmax : pre + (weights procs).sum ≤ intMax) :
    secondPass winner procs pre i =
      (owner (weights procs) (winner + 1 - pre).toNat).map (· + i) := by
  induction procs generalizing pre i with
  | nil => simp [secondPass, weights, owner]
  | cons p ps ih =>
    have ht := p.one_le_t
    have hcons : (weights (p :: ps)).sum = weight p + (weights ps).sum := by simp [weights]
    rw [hcons] at hmax
    by_cases hr : p.state = .runnable
    · have hwt : (weight p : Int) = p.t := by simp only [weight, hr, if_true]; omega
      have h1 : int32 (pre + p.t) = pre + p.t := int32_of_range (by omega) (by omega)
      have h2 : int32 (pre + p.t - 1) = pre + p.t - 1 := int32_of_range (by omega) (by omega)
      have h3 := uint32_of_range (x := pre + p.t - 1) (by omega) (by omega)
      simp only [secondPass, hr, if_true, h1, h2, weights, List.map_cons, owner]
      by_cases hlt : winner < uint32 (pre + p.t - 1)
      · have hlt' : (winner + 1 - pre).toNat < weight p := by omega
        simp [hlt, hlt']
      · have hlt' : ¬ (winner + 1 - pre).toNat < weight p := by omega
        have hsub : (winner + 1 - pre).toNat - weight p = (winner + 1 - (pre + p.t)).toNat := by
          omega
        rw [if_neg hlt, if_neg hlt', hsub, ih (pre + p.t) (i+1) (by omega) (by omega) (by omega)]
        simp [weights, Function.comp_def, Nat.add_comm, Nat.add_left_comm]
    · have hwt : weight p = 0 := by simp [weight, hr]
      simp only [secondPass, hr, if_false, weights, List.map_cons, owner, hwt, Nat.not_lt_zero,
        Nat.sub_zero]
      rw [ih pre (i+1) h0 hw (by omega)]
      simp [weights, Function.comp_def, Nat.add_comm, Nat.add_left_comm]

theorem secondPass_eq (winner : Nat) (procs : List Proc) (hmax : total procs ≤ intMax) :
    secondPass winner procs 0 0 = owner (weights procs) (winner+1) := by
  rw [total_eq] at hmax
  rw [secondPass_from winner procs 0 0 (by omega) (by omega) (by omega)]
  have h : ((winner : Int) + 1 - 0).toNat = winner + 1 := by omega
  rw [h]
  simp

/-- Without wrap-around the first pass finds the runnable processes and their total. -/
theorem firstPass_from (procs : List Proc) (found : Bool) (acc : Int)
    (h0 : 0 ≤ acc) (hmax : acc + (weights procs).sum ≤ intMax) :
    firstPass procs found acc =
      (found || procs.any (fun p => p.state = .runnable), acc + (weights procs).sum) := by
  induction procs generalizing found acc with
  | nil => simp [firstPass, weights]
  | cons p ps ih =>
    have ht := p.one_le_t
    have hcons : (weights (p :: ps)).sum = weight p + (weights ps).sum := by simp [weights]
    rw [hcons] at hmax ⊢
    by_cases hr : p.state = .runnable
    · have hwt : (weight p : Int) = p.t := by simp only [weight, hr, if_true]; omega
      have h1 : int32 (acc + p.t) = acc + p.t := int32_of_range (by omega) (by omega)
      rw [firstPass, if_pos hr, h1, ih true (acc + p.t) (by omega) (by omega)]
      simp [hr, hwt, add_assoc]
    · have hwt : weight p = 0 := by simp [weight, hr]
      rw [firstPass, if_neg hr, ih found acc h0 (by omega)]
      simp [hr, hwt]

theorem firstPass_eq (procs : List Proc) (hmax : total procs ≤ intMax) :
    firstPass procs false 0 = (procs.any (fun p => p.state = .runnable), total procs) := by
  rw [total_eq] at hmax ⊢
  rw [firstPass_from procs false 0 (by omega) (by omega)]
  simp

/-- The pass dispatches one process, and it is the one whose interval has the ticket. -/
def SelectsOwner (procs : List Proc) (winner : Nat) : Prop :=
  ∃ i, secondPass winner procs 0 0 = some i ∧ ∀ j, Owns procs winner j ↔ j = i

theorem lastTicket_iff (procs : List Proc) (w i : Nat)
    (h : owner (weights procs) w = some i) :
    LastTicket procs w ↔ ((weights procs).take (i+1)).sum = w+1 := by
  constructor
  · rintro ⟨j, p, hp, hr, hlast⟩
    have ht := p.one_le_t
    have hj : Owns procs w j := ⟨p, hp, hr, by omega, by omega⟩
    have hij : j = i := by
      rw [owns_iff, h] at hj
      exact (Option.some.inj hj).symm
    subst hij
    rw [prefixSum_eq] at hlast
    rw [take_succ_sum hp]
    simp only [weight, hr, if_true]
    omega
  · intro hlast
    obtain ⟨p, hp, hr, h0, h1⟩ := (owns_iff procs w i).mpr h
    have ht := p.one_le_t
    refine ⟨i, p, hp, hr, ?_⟩
    rw [take_succ_sum hp] at hlast
    simp only [weight, hr, if_true] at hlast
    rw [prefixSum_eq]
    omega

/-- The scan dispatches the owner of the drawn ticket unless that ticket is the last of
its owner's interval: there the strict comparison with `prefix + t - 1` moves on. -/
theorem selectsOwner_iff (procs : List Proc) (hmax : total procs ≤ intMax) (w : Nat)
    (hw : (w : Int) < total procs) :
    SelectsOwner procs w ↔ ¬ LastTicket procs w := by
  rw [total_eq] at hw
  cases ho : owner (weights procs) w with
  | none =>
    rw [owner_eq_none] at ho
    omega
  | some i =>
    have hi := (owner_eq_some (weights procs) w i).mp ho
    rw [lastTicket_iff procs w i ho]
    constructor
    · rintro ⟨j, hj, hown⟩ hlast
      have hji : i = j := (hown i).mp ((owns_iff procs w i).mpr ho)
      subst hji
      rw [secondPass_eq w procs hmax, owner_eq_some] at hj
      omega
    · intro hlast
      refine ⟨i, ?_, fun j => ?_⟩
      · rw [secondPass_eq w procs hmax, owner_eq_some]
        omega
      · rw [owns_iff, ho]
        exact ⟨fun h => (Option.some.inj h).symm, fun h => by rw [h]⟩

/-- A runnable process is first in the table exactly when it owns ticket zero. -/
theorem exists_earlier_iff (procs : List Proc) (i : Nat) :
    (∃ j < i, Runnable procs j) ↔ 0 < ((weights procs).take i).sum := by
  induction procs generalizing i with
  | nil => simp [Runnable, weights]
  | cons p ps ih =>
    cases i with
    | zero => simp
    | succ i =>
      have hw := weight_pos_iff p
      have hsum : ((weights (p :: ps)).take (i+1)).sum = weight p + ((weights ps).take i).sum := by
        simp [weights]
      rw [hsum]
      constructor
      · rintro ⟨j, hj, q, hq, hr⟩
        cases j with
        | zero =>
          simp only [List.getElem?_cons_zero, Option.some.injEq] at hq
          subst hq
          have := hw.mpr hr
          omega
        | succ j =>
          have := (ih i).mp ⟨j, by omega, q, by simpa using hq, hr⟩
          omega
      · intro h
        by_cases hr : p.state = .runnable
        · exact ⟨0, by omega, p, by simp, hr⟩
        · have hz : ¬ 0 < weight p := fun hp => hr (hw.mp hp)
          obtain ⟨j, hj, q, hq, hqr⟩ := (ih i).mpr (by omega)
          exact ⟨j+1, by omega, q, by simpa using hq, hqr⟩

/-- The number of draws that dispatch the process at index `i`. -/
def draws (procs : List Proc) (i : Nat) : Nat :=
  ((Finset.range (total procs).toNat).filter (fun w => secondPass w procs 0 0 = some i)).card

/-- Every process but the first runnable one is chosen by exactly its tickets. -/
theorem draws_eq_iff (procs : List Proc) (hmax : total procs ≤ intMax) (i : Nat) (p : Proc)
    (hp : procs[i]? = some p) (hr : p.state = .runnable) :
    (draws procs i : Int) = p.t ↔ ∃ j < i, Runnable procs j := by
  have ht := p.one_le_t
  have hle := take_sum_le procs (i+1)
  have htot : (total procs).toNat = (weights procs).sum := by
    rw [total_eq, Int.toNat_natCast]
  have hset : (Finset.range (total procs).toNat).filter
      (fun w => secondPass w procs 0 0 = some i) =
      Finset.Ico (((weights procs).take i).sum - 1) (((weights procs).take (i+1)).sum - 1) := by
    ext w
    rw [take_succ_sum hp] at hle ⊢
    simp only [weight, hr, if_true] at hle ⊢
    simp only [Finset.mem_filter, Finset.mem_range, Finset.mem_Ico, htot,
      secondPass_eq w procs hmax, owner_eq_some, take_succ_sum hp, weight, hr, if_true]
    omega
  rw [exists_earlier_iff, draws, hset, Nat.card_Ico, take_succ_sum hp]
  simp only [weight, hr, if_true]
  omega

/-- The only draw that leaves the CPU idle is the last one. -/
theorem secondPass_idle_iff (procs : List Proc) (hmax : total procs ≤ intMax) (w : Nat)
    (hw : (w : Int) < total procs) :
    secondPass w procs 0 0 = none ↔ (w : Int) + 1 = total procs := by
  rw [secondPass_eq w procs hmax, owner_eq_none]
  rw [total_eq] at hw ⊢
  omega

/-- Exactness of the lottery, draw by draw and for the whole table. -/
theorem lottery_selection_exact_iff (procs : List Proc) (hmax : total procs ≤ intMax) :
    (firstPass procs false 0).2 = total procs ∧
    (∀ w : Nat, (w : Int) < total procs → (SelectsOwner procs w ↔ ¬ LastTicket procs w)) ∧
    (∀ i p, procs[i]? = some p → p.state = .runnable →
      ((draws procs i : Int) = p.t ↔ ∃ j < i, Runnable procs j)) ∧
    (∀ w : Nat, (w : Int) < total procs →
      (secondPass w procs 0 0 = none ↔ (w : Int) + 1 = total procs)) := by
  refine ⟨?_, ?_, ?_, ?_⟩
  · rw [firstPass_eq procs hmax]
  · intro w hw
    exact selectsOwner_iff procs hmax w hw
  · intro i p hp hr
    exact draws_eq_iff procs hmax i p hp hr
  · intro w hw
    exact secondPass_idle_iff procs hmax w hw

/-- Two runnable processes around a sleeping one: the middle ticket of the first is
served, its last ticket is not. -/
theorem lottery_selection_exact_iff_table :
    let procs : List Proc := [⟨.runnable, 3⟩, ⟨.sleeping, 5⟩, ⟨.runnable, 2⟩]
    (SelectsOwner procs 1 ↔ ¬ LastTicket procs 1) ∧ (SelectsOwner procs 2 ↔ ¬ LastTicket procs 2) :=
  have h := (lottery_selection_exact_iff [⟨.runnable, 3⟩, ⟨.sleeping, 5⟩, ⟨.runnable, 2⟩]
    (by decide)).2.1
  ⟨h 1 (by decide), h 2 (by decide)⟩

/-- A lone runnable process with one ticket is never dispatched by its only draw. -/
theorem lone_ticket_not_selected :
    total [⟨.runnable, 1⟩] = 1 ∧ ¬ SelectsOwner [⟨.runnable, 1⟩] 0 := by
  refine ⟨by decide, ?_⟩
  rintro ⟨i, hi, -⟩
  have hidle : secondPass 0 [⟨.runnable, 1⟩] 0 0 = none := by decide
  rw [hidle] at hi
  cases hi

end Xv6Labs.Lottery
