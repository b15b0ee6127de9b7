import Xv6Labs.Kit.Run
import Xv6Labs.Sched.Lottery

/-! Where the tickets of Task 2.2 come from: `allocproc`, `fork` and `settickets` over whole
runs of the process table, and when the `int` sums of `scheduler` are the sums of the tickets. -/
namespace Xv6Labs.Lottery
open Kit

def nproc : Nat := 64

def setState (procs : List Proc) (i : Nat) (st : ProcState) : List Proc :=
  procs.modify i fun p => { p with state := st }

def setTickets (procs : List Proc) (i : Nat) (n : Int) : List Proc :=
  procs.modify i fun p => { p with tickets := n }

/-- `allocproc`; `mem` says whether the trapframe and the page table could be allocated. If
not, `freeproc` makes the slot UNUSED again and leaves `tickets` alone. -/
def allocproc (procs : List Proc) (mem : Bool) : Option Nat × List Proc :=
  match procs.findIdx? fun p => p.state = .unused with
  | none => (none, procs)
  | some i =>
    let procs := setTickets (setState procs i .used) i 10
    if mem then (some i, procs) else (none, setState procs i .unused)

/-- `fork` up to the first release of `np->lock`, by a process with `tickets`; `copy` says
whether `uvmcopy` succeeds. -/
def fork (procs : List Proc) (tickets : Int) (mem copy : Bool) : List Proc :=
  match allocproc procs mem with
  | (none, procs) => procs
  | (some np, procs) =>
    let procs := setTickets procs np tickets
    if copy then procs else setState procs np .unused

/-- `sys_settickets` of the process in slot `p`, with the argument register `a0`. -/
def sysSettickets (procs : List Proc) (p : Nat) (a0 : UInt64) : Int × List Proc :=
  let n := int32 a0.toNat
  if n < 1 then (-1, procs) else (0, setTickets procs p n)

def userinit (procs : List Proc) : List Proc :=
  match allocproc procs true with
  | (none, procs) => procs
  | (some p, procs) => setState procs p .runnable

/-- The table in static memory, after `userinit`. -/
def boot : List Proc := userinit (List.replicate nproc ⟨.unused, 0⟩)

/-- The changes of `p->state` outside `allocproc`: the end of `fork`, `scheduler`, `yield`,
`sleep`, `wakeup` or `kill`, `exit`, and the `freeproc` of `wait`. -/
inductive Turn : ProcState → ProcState → Prop
  | start : Turn .used .runnable
  | dispatch : Turn .runnable .running
  | yield : Turn .running .runnable
  | sleep : Turn .running .sleeping
  | wake : Turn .sleeping .runnable
  | exit : Turn .running .zombie
  | free : Turn .zombie .unused

/-- One step of the process in slot `p`, or of the kernel on it. -/
inductive Step (procs : List Proc) (p : Nat) : List Proc → Prop
  | fork (r : Proc) (mem copy : Bool) (hp : procs[p]? = some r) (hr : r.state = .running) :
      Step procs p (fork procs r.tickets mem copy)
  | settickets (r : Proc) (a0 : UInt64) (hp : procs[p]? = some r) (hr : r.state = .running) :
      Step procs p (sysSettickets procs p a0).2
  | turn (r : Proc) (st : ProcState) (hp : procs[p]? = some r) (ht : Turn r.state st) :
      Step procs p (setState procs p st)

/-- A slot in use has been issued between one and `INT_MAX` tickets. -/
def Proc.Issued (p : Proc) : Prop := p.state ≠ .unused → 1 ≤ p.tickets ∧ p.tickets ≤ intMax

def Issued (procs : List Proc) : Prop := ∀ (i : Nat) (p : Proc), procs[i]? = some p → p.Issued

theorem issued_modify {procs : List Proc} {i : Nat} {f : Proc → Proc} (h : Issued procs)
    (hf : ∀ p, procs[i]? = some p → (f p).Issued) : Issued (procs.modify i f) := by
  intro j q hq
  rw [List.getElem?_modify] at hq
  by_cases hij : i = j
  · subst hij
    cases hp : procs[i]? with
    | none => simp [hp] at hq
    | some p =>
      simp only [hp, if_true, Option.map_eq_map, Option.map_some, Option.some.injEq] at hq
      subst hq
      exact hf p hp
  · simp only [hij, if_false, Option.map_eq_map, Option.map_id'] at hq
    exact h j q hq

theorem issued_setState {procs : List Proc} {i : Nat} {st : ProcState} (h : Issued procs)
    (hst : st = .unused ∨ ∀ p, procs[i]? = some p → p.state ≠ .unused) :
    Issued (setState procs i st) := by
  refine issued_modify h ?_
  intro p hp hne
  cases hst with
  | inl hu => exact absurd hu hne
  | inr hu => exact h i p hp (hu p hp)

theorem issued_setTickets {procs : List Proc} {i : Nat} {n : Int} (h : Issued procs)
    (h0 : 1 ≤ n) (h1 : n ≤ intMax) : Issued (setTickets procs i n) :=
  issued_modify h fun _ _ _ => ⟨h0, h1⟩

theorem setTickets_setState (procs : List Proc) (i : Nat) (n : Int) (st : ProcState) :
    setTickets (setState procs i st) i n = procs.modify i fun _ => ⟨st, n⟩ := by
  unfold setTickets setState
  rw [List.modify_modify_eq]
  rfl

theorem issued_allocproc {procs : List Proc} (h : Issued procs) (mem : Bool) :
    Issued (allocproc procs mem).2 := by
  unfold allocproc
  split
  · exact h
  · next i _ =>
    have hi : Issued (setTickets (setState procs i .used) i 10) := by
      rw [setTickets_setState]
      exact issued_modify h fun _ _ _ => by simp [intMax]
    split
    · exact hi
    · exact issued_setState hi (.inl rfl)

theorem allocproc_used {procs procs' : List Proc} {mem : Bool} {i : Nat} {p : Proc}
    (h : allocproc procs mem = (some i, procs')) (hp : procs'[i]? = some p) :
    p.state = .used := by
  unfold allocproc at h
  split at h
  · cases h
  · split at h
    · cases h
      rw [setTickets_setState, List.getElem?_modify_eq] at hp
      cases hq : procs[i]? with
      | none => simp [hq] at hp
      | some q =>
        rw [hq] at hp
        cases hp
        rfl
    · cases h

theorem issued_fork {procs : List Proc} (h : Issued procs) {tickets : Int} (h0 : 1 ≤ tickets)
    (h1 : tickets ≤ intMax) (mem copy : Bool) : Issued (fork procs tickets mem copy) := by
  have ha := issued_allocproc h mem
  unfold fork
  split
  · next hal =>
    rw [hal] at ha
    exact ha
  · next np _ hal =>
    rw [hal] at ha
    have ht := issued_setTickets (i := np) ha h0 h1
    split
    · exact ht
    · exact issued_setState ht (.inl rfl)

theorem issued_settickets {procs : List Proc} (h : Issued procs) (p : Nat) (a0 : UInt64) :
    Issued (sysSettickets procs p a0).2 := by
  unfold sysSettickets
  generalize hn : int32 a0.toNat = n
  have hmax := int32_le_intMax a0.toNat
  rw [hn] at hmax
  by_cases h1 : n < 1
  · simpa [h1] using h
  · simpa [h1] using issued_setTickets h (by omega) hmax

theorem issued_boot : Issued boot := by
  have h0 : Issued (List.replicate nproc ⟨.unused, 0⟩) := by
    intro i p hp
    have hp' := List.eq_of_mem_replicate (List.mem_of_getElem? hp)
    subst hp'
    exact fun hne => absurd rfl hne
  have ha := issued_allocproc h0 true
  unfold boot userinit
  split
  · next hal =>
    rw [hal] at ha
    exact ha
  · next hal =>
    rw [hal] at ha
    refine issued_setState ha (.inr ?_)
    intro q hq
    simp [allocproc_used hal hq]

theorem issued_step {procs procs' : List Proc} {p : Nat} (h : Issued procs)
    (hs : Step procs p procs') : Issued procs' := by
  cases hs with
  | fork r mem copy hp hr =>
    have ht := h p r hp (by simp [hr])
    exact issued_fork h ht.1 ht.2 mem copy
  | settickets r a0 hp hr => exact issued_settickets h p a0
  | turn r st hp ht =>
    refine issued_setState h ?_
    by_cases hu : st = .unused
    · exact .inl hu
    · right
      intro q hq hun
      rw [hp] at hq
      cases hq
      rw [hun] at ht
      cases ht

theorem issued_run {procs : List Proc} {tr : List Nat} (h : Run Step boot tr procs) :
    Issued procs :=
  h.invariant issued_boot fun _ _ _ hi hs => issued_step hi hs

/-! The sums of `scheduler`. -/

/-- The tickets of the RUNNABLE processes, as numbers. -/
def ticketSum (procs : List Proc) : Int :=
  ((procs.filter fun p => p.state = .runnable).map Proc.tickets).sum

/-- Neither `prefix + t` nor `prefix + t - 1` wraps at a process that the second pass visits. -/
def PrefixExact (winner : Nat) : List Proc → Int → Prop
  | [], _ => True
  | p :: ps, pre =>
    if p.state = .runnable then
      int32 (pre + p.t) = pre + p.t ∧ int32 (int32 (pre + p.t) - 1) = pre + p.t - 1 ∧
        (¬ winner < uint32 (int32 (int32 (pre + p.t) - 1)) →
          PrefixExact winner ps (int32 (pre + p.t)))
    else PrefixExact winner ps pre

/-- `total` is the sum of the tickets and positive, the divisor of the draw is not zero, and
whatever is drawn the second pass adds without wrapping. -/
structure TotalExact (procs : List Proc) : Prop where
  total : (firstPass procs false 0).2 = ticketSum procs
  pos : 0 < (firstPass procs false 0).2
  divisor : uint32 (firstPass procs false 0).2 ≠ 0
  sums : ∀ winner, PrefixExact winner procs 0

/-- The tickets of `procs` with any choice of RUNNABLE processes among its slots in use. -/
structure Marks (procs marked : List Proc) : Prop where
  tickets : marked.map Proc.tickets = procs.map Proc.tickets
  used : ∀ (i : Nat) (p q : Proc), procs[i]? = some p → marked[i]? = some q →
    q.state = .runnable → p.state ≠ .unused

theorem Marks.refl (procs : List Proc) : Marks procs procs where
  tickets := rfl
  used := by
    intro i p q hp hq hr
    rw [hp] at hq
    cases hq
    simp [hr]

theorem Marks.one_le {procs marked : List Proc} (hm : Marks procs marked) (h : Issued procs)
    {q : Proc} (hq : q ∈ marked) (hr : q.state = .runnable) : 1 ≤ q.tickets := by
  obtain ⟨i, hi⟩ := List.mem_iff_getElem?.mp hq
  have ht := congrArg (fun ts : List Int => ts[i]?) hm.tickets
  simp only [List.getElem?_map, hi, Option.map_some] at ht
  obtain ⟨p, hp, hpt⟩ := Option.map_eq_some_iff.mp ht.symm
  rw [← hpt]
  exact (h i p hp (hm.used i p q hp hi hr)).1

/-- The clamp `t < 1 ? 1 : t` never acts. -/
theorem total_eq_ticketSum {procs : List Proc}
    (h : ∀ p ∈ procs, p.state = .runnable → 1 ≤ p.tickets) : total procs = ticketSum procs := by
  have ht : ∀ p ∈ procs.filter (fun p => p.state = .runnable), p.t = p.tickets := by
    intro p hp
    simp only [List.mem_filter, decide_eq_true_eq] at hp
    have := h p hp.1 hp.2
    unfold Proc.t
    rw [if_neg (by omega)]
  rw [total, prefixSum, List.take_length, ticketSum, List.map_congr_left ht]

theorem prefixExact_from (winner : Nat) (procs : List Proc) (pre : Int) (h0 : 0 ≤ pre)
    (hmax : pre + (weights procs).sum ≤ intMax) : PrefixExact winner procs pre := by
  induction procs generalizing pre with
  | nil => trivial
  | cons p ps ih =>
    have ht := p.one_le_t
    have hcons : (weights (p :: ps)).sum = weight p + (weights ps).sum := by simp [weights]
    rw [hcons] at hmax
    by_cases hr : p.state = .runnable
    · have hwt : (weight p : Int) = p.t := by simp only [weight, hr, if_true]; omega
      have h1 : int32 (pre + p.t) = pre + p.t := int32_of_range (by omega) (by omega)
      have h2 : int32 (pre + p.t - 1) = pre + p.t - 1 := int32_of_range (by omega) (by omega)
      simp only [PrefixExact, hr, if_true, h1, h2, true_and]
      intro _
      exact ih (pre + p.t) (by omega) (by omega)
    · simp only [PrefixExact, hr, if_false]
      exact ih pre h0 (by omega)

theorem total_pos {procs : List Proc} (h : ∃ p ∈ procs, p.state = .runnable) :
    0 < total procs := by
  obtain ⟨p, hp, hr⟩ := h
  obtain ⟨i, hi⟩ := List.mem_iff_getElem?.mp hp
  have hlt : i < procs.length := (List.getElem?_eq_some_iff.mp hi).1
  have hsum := (exists_earlier_iff procs procs.length).mp ⟨i, hlt, p, hi, hr⟩
  rw [total, prefixSum_eq]
  omega

theorem firstPass_le_intMax (procs : List Proc) (found : Bool) (acc : Int) (h : acc ≤ intMax) :
    (firstPass procs found acc).2 ≤ intMax := by
  induction procs generalizing found acc with
  | nil => exact h
  | cons p ps ih =>
    unfold firstPass
    split
    · exact ih true _ (int32_le_intMax _)
    · exact ih found acc h

/-- For tickets that a run issues and any RUNNABLE processes, the total is exact and positive
and no prefix wraps if and only if the tickets of these processes add up to an `int`. -/
theorem ticket_total_exact_iff {tr : List Nat} {procs marked : List Proc}
    (h : Run Step boot tr procs) (hm : Marks procs marked)
    (hr : ∃ p ∈ marked, p.state = .runnable) :
    TotalExact marked ↔ ticketSum marked ≤ intMax := by
  have htot := total_eq_ticketSum fun p hp hr => hm.one_le (issued_run h) hp hr
  constructor
  · intro he
    rw [← he.total]
    exact firstPass_le_intMax marked false 0 (by decide)
  · intro hle
    rw [← htot] at hle
    have hfirst : (firstPass marked false 0).2 = total marked := by
      rw [firstPass_eq marked hle]
    have hpos := total_pos hr
    have hu := uint32_of_range (by omega) hle
    refine ⟨?_, ?_, ?_, ?_⟩
    · rw [hfirst, htot]
    · rw [hfirst]
      exact hpos
    · rw [hfirst]
      omega
    · intro winner
      rw [total_eq] at hle
      exact prefixExact_from winner marked 0 (by omega) (by omega)

/-- A table whose first slots are in use. -/
def table (ps : List Proc) : List Proc := ps ++ List.replicate (nproc - ps.length) ⟨.unused, 0⟩

/-- Two processes with tickets of their own. -/
def pair : List Proc := table [⟨.runnable, 5⟩, ⟨.runnable, 7⟩]

/-- The first process sets its tickets and forks; it and its child yield, the child with other
tickets. -/
theorem ticket_total_exact_iff_pair :
    Run Step boot [0, 0, 0, 1, 0, 1, 1, 1] pair ∧ TotalExact pair ∧ ticketSum pair = 12 := by
  have hset : (sysSettickets (table [⟨.running, 10⟩]) 0 5).2 = table [⟨.running, 5⟩] := by decide
  have hset' : (sysSettickets (table [⟨.runnable, 5⟩, ⟨.running, 5⟩]) 1 7).2 =
      table [⟨.runnable, 5⟩, ⟨.running, 7⟩] := by decide
  have hparent : Run Step boot [0, 0] (table [⟨.running, 5⟩]) := by
    rw [← hset]
    exact (Run.single (.turn ⟨.runnable, 10⟩ .running rfl .dispatch)).snoc
      (.settickets ⟨.running, 10⟩ 5 rfl rfl)
  have hchild : Run Step (table [⟨.running, 5⟩]) [0, 1, 0, 1]
      (table [⟨.runnable, 5⟩, ⟨.running, 5⟩]) :=
    (((Run.single (.fork ⟨.running, 5⟩ true true rfl rfl)).snoc
      (.turn ⟨.used, 5⟩ .runnable rfl .start)).snoc
      (.turn ⟨.running, 5⟩ .runnable rfl .yield)).snoc
      (.turn ⟨.runnable, 5⟩ .running rfl .dispatch)
  have htickets : Run Step (table [⟨.runnable, 5⟩, ⟨.running, 5⟩]) [1]
      (table [⟨.runnable, 5⟩, ⟨.running, 7⟩]) := by
    rw [← hset']
    exact Run.single (.settickets ⟨.running, 5⟩ 7 rfl rfl)
  have hr : Run Step boot [0, 0, 0, 1, 0, 1, 1, 1] pair :=
    ((hparent.append hchild).append htickets).snoc (.turn ⟨.running, 7⟩ .runnable rfl .yield)
  have hsum : ticketSum pair = 12 := by decide +kernel
  have hiff := ticket_total_exact_iff hr (Marks.refl pair) ⟨⟨.runnable, 5⟩, List.mem_cons_self .., rfl⟩
  exact ⟨hr, hiff.mpr (by rw [hsum]; decide), hsum⟩

/-- Four processes with a quarter of `2^32` tickets each. -/
def crowd : List Proc := table (List.replicate 4 ⟨.runnable, 2^30⟩)

/-- The first process sets its tickets, forks three times and yields: then all four are
RUNNABLE, the total is zero, and the draw divides by it. -/
theorem four_forks_total_zero :
    Run Step boot [0, 0, 0, 1, 0, 2, 0, 3, 0] crowd ∧ (firstPass crowd false 0).2 = 0 ∧
      ¬ TotalExact crowd := by
  have hset : (sysSettickets (table [⟨.running, 10⟩]) 0 1073741824).2 =
      table [⟨.running, 2^30⟩] := by decide
  have hrun : Run Step boot [0, 0] (table [⟨.running, 2^30⟩]) := by
    rw [← hset]
    exact (Run.single (.turn ⟨.runnable, 10⟩ .running rfl .dispatch)).snoc
      (.settickets ⟨.running, 10⟩ 1073741824 rfl rfl)
  have hforks : Run Step (table [⟨.running, 2^30⟩]) [0, 1, 0, 2, 0, 3, 0] _ :=
    ((((((Run.single (.fork ⟨.running, 2^30⟩ true true rfl rfl)).snoc
      (.turn ⟨.used, 2^30⟩ .runnable rfl .start)).snoc
      (.fork ⟨.running, 2^30⟩ true true rfl rfl)).snoc
      (.turn ⟨.used, 2^30⟩ .runnable rfl .start)).snoc
      (.fork ⟨.running, 2^30⟩ true true rfl rfl)).snoc
      (.turn ⟨.used, 2^30⟩ .runnable rfl .start)).snoc
      (.turn ⟨.running, 2^30⟩ .runnable rfl .yield)
  have hz : (firstPass crowd false 0).2 = 0 := by decide
  refine ⟨hrun.append hforks, hz, fun he => ?_⟩
  have hpos := he.pos
  rw [hz] at hpos
  cases hpos

end Xv6Labs.Lottery
