import Xv6Labs.Kit.Tickets
import Xv6Labs.Sched.Rand
import Xv6Labs.Sched.TicketTotal

/-! The lottery over a whole period of `rand32`: how often each process is dispatched by
`scheduler` when the processes stay ready, turn after turn. -/
namespace Xv6Labs.Lottery
open Finset Function Kit

/-- What turn `k` dispatches, when every turn finds the table `procs` again. -/
def turn (procs : List Proc) (seed : UInt64) (k : Nat) : Option Nat :=
  (scheduler procs (turns (List.replicate k procs) seed)).1

/-- The turns of one period that dispatch the process at index `i`. -/
def dispatches (procs : List Proc) (seed : UInt64) (i : Nat) : Nat :=
  #{k ∈ range (2^64) | turn procs seed k = some i}

/-- The turns of one period in which the CPU stays idle. -/
def idleTurns (procs : List Proc) (seed : UInt64) : Nat :=
  #{k ∈ range (2^64) | turn procs seed k = none}

variable {procs : List Proc} {seed : UInt64} {i k : Nat} {p : Proc}

theorem draw_lt (seed : UInt64) (k : Nat) : draw seed k < 2^31 := by
  rw [draw_eq]
  have := ZMod.val_lt (step^[k] (residue (nextState seed)))
  omega

/-- Every value of `rand32` comes up equally often over a period. -/
theorem even_draw (seed : UInt64) : Share.Even (draw seed) (2^64) (2^31) (2^33) :=
  ⟨fun k _ => draw_lt seed k, fun r hr => card_draw_eq seed ⟨r, hr⟩⟩

theorem exists_of_hasRunnable (hrun : hasRunnable procs) : ∃ q ∈ procs, q.state = .runnable := by
  obtain ⟨q, hq, hr⟩ := List.any_eq_true.mp hrun
  exact ⟨q, hq, by simpa using hr⟩

/-- A turn dispatches by the ticket that `rand32` draws. -/
theorem turn_eq (hmax : total procs ≤ intMax) (hrun : hasRunnable procs) :
    turn procs seed k = secondPass (draw seed k % (total procs).toNat) procs 0 0 := by
  have hpos := total_pos (exists_of_hasRunnable hrun)
  have hcount : (List.replicate k procs).countP hasRunnable = k := by
    rw [List.countP_replicate, if_pos hrun]
  have hu : uint32 (total procs) = (total procs).toNat := by
    have := uint32_of_range (x := total procs) (by omega) (by omega)
    omega
  unfold turn scheduler
  rw [turns_eq, hcount, firstPass_eq procs hmax]
  simp only [show (procs.any fun p => p.state = .runnable) = true from hrun, Bool.true_eq_false,
    if_false, hu, draw]
  split
  · next h => rw [h]
  · next h => rw [h]

/-- The tickets that dispatch the process at index `i`. -/
def winning (procs : List Proc) (i : Nat) : Finset Nat :=
  {w ∈ range (total procs).toNat | secondPass w procs 0 0 = some i}

theorem card_winning : #(winning procs i) = draws procs i := rfl

theorem dispatches_eq (hmax : total procs ≤ intMax) (hrun : hasRunnable procs) :
    dispatches procs seed i =
      #{k ∈ range (2^64) | draw seed k % (total procs).toNat ∈ winning procs i} := by
  have hpos := total_pos (exists_of_hasRunnable hrun)
  refine congrArg card (filter_congr fun k _ => ?_)
  have hlt : draw seed k % (total procs).toNat < (total procs).toNat := Nat.mod_lt _ (by omega)
  rw [turn_eq hmax hrun, winning, mem_filter, mem_range]
  exact ⟨fun h => ⟨hlt, h⟩, fun h => h.2⟩

theorem idleTurns_eq (hmax : total procs ≤ intMax) (hrun : hasRunnable procs) :
    idleTurns procs seed =
      #{k ∈ range (2^64) |
        draw seed k % (total procs).toNat ∈ ({(total procs).toNat - 1} : Finset Nat)} := by
  have hpos := total_pos (exists_of_hasRunnable hrun)
  refine congrArg card (filter_congr fun k _ => ?_)
  have hlt : draw seed k % (total procs).toNat < (total procs).toNat := Nat.mod_lt _ (by omega)
  rw [turn_eq hmax hrun, secondPass_idle_iff procs hmax _ (by omega), mem_singleton]
  omega

/-- The winning tickets of a process are those of its interval, moved down by one. -/
theorem winning_eq (hmax : total procs ≤ intMax) (hp : procs[i]? = some p)
    (hr : p.state = .runnable) : winning procs i =
      Ico (((weights procs).take i).sum - 1) (((weights procs).take i).sum + p.t.toNat - 1) := by
  have ht := p.one_le_t
  have hle := take_sum_le procs (i+1)
  have htot : (total procs).toNat = (weights procs).sum := by
    rw [total_eq, Int.toNat_natCast]
  ext w
  rw [take_succ_sum hp] at hle
  simp only [weight, hr, if_true] at hle
  simp only [winning, mem_filter, mem_range, mem_Ico, htot, secondPass_eq w procs hmax,
    Tickets.owner_eq_some, take_succ_sum hp, weight, hr, if_true]
  omega

/-- All tickets of a process win, or all but one for the first runnable process of the table. -/
theorem draws_eq (hmax : total procs ≤ intMax) (hp : procs[i]? = some p)
    (hr : p.state = .runnable) : (draws procs i : Int) = p.t ∧ (∃ j < i, Runnable procs j) ∨
      (draws procs i : Int) + 1 = p.t ∧ ¬ ∃ j < i, Runnable procs j := by
  have ht := p.one_le_t
  rw [← card_winning, winning_eq hmax hp hr, Nat.card_Ico, exists_earlier_iff]
  omega

/-- Proportional shares over a period of `2 ^ 64` turns with the same runnable processes: a
process with `n` winning tickets out of `T` is dispatched in `n / T` of the turns, up to `2 ^ 33`
turns for each of its tickets. The winning tickets are its own, but for one that the first
runnable process of the table loses to the idle loop; alone with that ticket it is never
dispatched at all. -/
theorem lottery_shares (hmax : total procs ≤ intMax) (hrun : hasRunnable procs) (seed : UInt64) :
    (∀ i p, procs[i]? = some p → p.state = .runnable →
      ((draws procs i : Int) = p.t ∧ (∃ j < i, Runnable procs j) ∨
        (draws procs i : Int) + 1 = p.t ∧ ¬ ∃ j < i, Runnable procs j) ∧
      draws procs i * 2^64 ≤ dispatches procs seed i * (total procs).toNat +
        draws procs i * (total procs).toNat * 2^33 ∧
      dispatches procs seed i * (total procs).toNat ≤ draws procs i * 2^64 +
        draws procs i * (total procs).toNat * 2^33 ∧
      (dispatches procs seed i = 0 ↔ p.t = 1 ∧ ¬ ∃ j < i, Runnable procs j)) ∧
    2^64 ≤ idleTurns procs seed * (total procs).toNat + (total procs).toNat * 2^33 ∧
    idleTurns procs seed * (total procs).toNat ≤ 2^64 + (total procs).toNat * 2^33 := by
  have hpos := total_pos (exists_of_hasRunnable hrun)
  have hT : 0 < (total procs).toNat := by omega
  have heven := even_draw seed
  refine ⟨?_, ?_⟩
  · intro i p hp hr
    have hW : winning procs i ⊆ range (total procs).toNat := filter_subset _ _
    obtain ⟨hlow, hhigh⟩ := heven.share hT hW (by norm_num)
    rw [← dispatches_eq hmax hrun, card_winning] at hlow hhigh
    have hdraws := draws_eq hmax hp hr
    refine ⟨hdraws, hlow, hhigh, ?_⟩
    have hex : #{w ∈ winning procs i | w < 2^31 % (total procs).toNat} ≤ draws procs i :=
      card_filter_le _ _
    have hcount := heven.card_mem hT hW
    rw [← dispatches_eq hmax hrun, card_winning] at hcount
    have hmaxT : (total procs).toNat ≤ 2^31 := by
      unfold intMax at hmax
      omega
    have hzero : dispatches procs seed i = 0 ↔ draws procs i = 0 := by
      rw [hcount]
      constructor
      · intro h0
        by_contra hne
        have hprod := Nat.mul_pos (Nat.pos_of_ne_zero hne) (Nat.div_pos hmaxT hT)
        omega
      · intro h0
        rw [h0] at hex ⊢
        omega
    have ht := p.one_le_t
    rw [hzero]
    cases hdraws with
    | inl h =>
      exact ⟨fun h0 => by omega, fun h0 => absurd h.2 h0.2⟩
    | inr h => exact ⟨fun h0 => ⟨by omega, h.2⟩, fun h0 => by omega⟩
  · have hW : ({(total procs).toNat - 1} : Finset Nat) ⊆ range (total procs).toNat := by
      rw [singleton_subset_iff, mem_range]
      omega
    obtain ⟨hlow, hhigh⟩ := heven.share hT hW (by norm_num)
    rw [← idleTurns_eq hmax hrun, card_singleton, one_mul, one_mul] at hlow hhigh
    exact ⟨hlow, hhigh⟩

/-- Alone with two tickets the process at index 1 has half of the turns. -/
theorem lottery_shares_two :
    1 * 2^64 ≤ dispatches [⟨.sleeping, 5⟩, ⟨.runnable, 2⟩] 0 1 * 2 + 1 * 2 * 2^33 := by
  have hd : draws [⟨.sleeping, 5⟩, ⟨.runnable, 2⟩] 1 = 1 := by decide
  have hT : (total [⟨.sleeping, 5⟩, ⟨.runnable, 2⟩]).toNat = 2 := by decide
  have hlow := ((@lottery_shares [⟨.sleeping, 5⟩, ⟨.runnable, 2⟩] (by decide) (by decide) 0).1 1
    ⟨.runnable, 2⟩ rfl rfl).2.1
  rw [hd, hT] at hlow
  exact hlow

end Xv6Labs.Lottery
