import Xv6Labs.Kit.Numbers
import Xv6Labs.Kit.Run
import Xv6Labs.Sched.Proc
import Mathlib.Data.List.FinRange
import Mathlib.Data.Fin.VecNotation
import Mathlib.Algebra.BigOperators.Group.List.Basic

/-! Weighted round robin of Task 2.1 on one CPU: `scheduler` interleaved with the
timer branches of `usertrap` and `kerneltrap` and with the calls of the running
process that touch the scheduling fields. -/
namespace Xv6Labs.Wrr
open Kit
variable {n : Nat}

/-- The scheduling fields of `struct proc`. -/
structure Proc where
  state : ProcState
  priority : Int
  ticks : Int
  deriving DecidableEq, Repr

/-- One CPU and a process table of `n` entries. `scan` is the entry the scheduler
loop examines next. The last four fields only record what happened. -/
structure Sys (n : Nat) where
  procs : Fin n → Proc
  cur : Option (Fin n)
  scan : Nat
  found : Bool
  /-- completed passes over the table -/
  pass : Nat
  /-- the processes switched to, in order -/
  dispatched : List (Fin n)
  /-- timer interrupts charged since the last dispatch -/
  charge : Nat
  /-- each finished turn on the CPU with the timer interrupts charged in it -/
  quanta : List (Fin n × Nat)

def Sys.setProc (s : Sys n) (i : Fin n) (p : Proc) : Sys n :=
  { s with procs := Function.update s.procs i p }

@[simp] theorem setProc_self (s : Sys n) (i : Fin n) (p : Proc) :
    (s.setProc i p).procs i = p := by simp [Sys.setProc]

theorem setProc_of_ne (s : Sys n) (i j : Fin n) (p : Proc) (h : j ≠ i) :
    (s.setProc i p).procs j = s.procs j := by simp [Sys.setProc, h]

/-- Back in `scheduler` after `swtch`: `c->proc = 0; found = 1`. -/
def Sys.backToScheduler (s : Sys n) (i : Fin n) : Sys n :=
  { s with cur := none, found := true, charge := 0, quanta := s.quanta ++ [(i, s.charge)] }

/-- `sched` of the running process `i`, which has already left RUNNING. -/
def Sys.sched (s : Sys n) (i : Fin n) (st : ProcState) : Sys n :=
  (s.setProc i { s.procs i with state := st }).backToScheduler i

def Sys.yield (s : Sys n) (i : Fin n) : Sys n := s.sched i .runnable

/-- The switch to process `i`: `p->ticks = p->priority; p->state = RUNNING; c->proc = p`. -/
def Sys.dispatch (s : Sys n) (i : Fin n) : Sys n :=
  { s with
    procs := Function.update s.procs i
      { s.procs i with ticks := (s.procs i).priority, state := .running }
    cur := some i
    scan := s.scan + 1
    dispatched := s.dispatched ++ [i]
    charge := 0 }

/-- One turn of the scheduler's inner loop, or the end of a pass. -/
def Sys.schedule (s : Sys n) : Sys n :=
  if h : s.scan < n then
    if (s.procs ⟨s.scan, h⟩).state = .runnable then s.dispatch ⟨s.scan, h⟩
    else { s with scan := s.scan + 1 }
  else { s with scan := 0, found := false, pass := s.pass + 1 }

/-- The timer branch that `usertrap` and `kerneltrap` share, for the process `i`. -/
def Sys.timerBranch (s : Sys n) (i : Fin n) : Sys n :=
  let s := { s with charge := s.charge + 1 }
  let p := s.procs i
  if p.state = .running then
    let ticks := int32 (p.ticks + 1)
    if p.priority ≤ ticks then (s.setProc i { p with ticks := 0 }).yield i
    else s.setProc i { p with ticks := ticks }
  else s.yield i

/-- A timer interrupt out of user mode; there is always a current process. -/
def Sys.usertrap (s : Sys n) : Option (Sys n) := s.cur.map s.timerBranch

/-- A timer interrupt out of kernel mode; without a process nothing happens. -/
def Sys.kerneltrap (s : Sys n) : Option (Sys n) :=
  match s.cur with
  | some i => some (s.timerBranch i)
  | none => some s

/-- `sys_setpriority` of the running process. -/
def Sys.setpriority (maxPriority : Int) (s : Sys n) (i : Fin n) (k : Int) : Sys n :=
  if k < 1 ∨ maxPriority < k then s
  else s.setProc i { s.procs i with priority := k, ticks := 0 }

/-- `fork` into a free entry: the child inherits the priority and starts at zero ticks. -/
def Sys.fork (s : Sys n) (i child : Fin n) : Sys n :=
  s.setProc child { state := .runnable, priority := (s.procs i).priority, ticks := 0 }

/-- `freeproc` of a child that `wait` has found; it leaves `priority` and `ticks` as they are. -/
def Sys.freeproc (s : Sys n) (child : Fin n) : Sys n :=
  s.setProc child { s.procs child with state := .unused }

inductive Event (n : Nat) where
  | schedule
  | usertrap
  | kerneltrap
  | setpriority (k : Int)
  | sleep
  | exit
  | wakeup (i : Fin n)
  | fork (child : Fin n)
  | wait (child : Fin n)

/-- One step; `none` when the event cannot happen in this state. -/
def Sys.step (maxPriority : Int) (s : Sys n) : Event n → Option (Sys n)
  | .schedule => if s.cur = none then some s.schedule else none
  | .usertrap => s.usertrap
  | .kerneltrap => s.kerneltrap
  | .setpriority k => s.cur.map fun i => s.setpriority maxPriority i k
  | .sleep => s.cur.map fun i => s.sched i .sleeping
  | .exit => s.cur.map fun i => s.sched i .zombie
  | .wakeup i =>
    if (s.procs i).state = .sleeping then
      some (s.setProc i { s.procs i with state := .runnable })
    else none
  | .fork child =>
    if (s.procs child).state = .unused then s.cur.map fun i => s.fork i child else none
  | .wait child =>
    if (s.procs child).state = .zombie then s.cur.map fun _ => s.freeproc child else none

/-- The events of a system whose processes are all CPU-bound. -/
def Event.CpuBound : Event n → Prop
  | .schedule | .usertrap | .kerneltrap => True
  | _ => False

def CpuStep (maxPriority : Int) (s : Sys n) (e : Event n) (t : Sys n) : Prop :=
  e.CpuBound ∧ s.step maxPriority e = some t

/-- The scheduler has just started over a table whose runnable entries have a priority
that `sys_setpriority` accepts; no other entry will become runnable. -/
structure Start (maxPriority : Int) (s : Sys n) : Prop where
  cur : s.cur = none
  scan : s.scan = 0
  pass : s.pass = 0
  dispatched : s.dispatched = []
  charge : s.charge = 0
  quanta : s.quanta = []
  idle : ∀ i, (s.procs i).state ≠ .running
  some_runnable : ∃ i, (s.procs i).state = .runnable
  priority : ∀ i, (s.procs i).state = .runnable →
    1 ≤ (s.procs i).priority ∧ (s.procs i).priority ≤ maxPriority

/-- The runnable entries in table order. -/
def Sys.ready (s : Sys n) : List (Fin n) :=
  (List.finRange n).filter fun i => (s.procs i).state = .runnable

/-- Timer interrupts process `i` has received in its finished turns. -/
def Sys.received (s : Sys n) (i : Fin n) : Nat :=
  ((s.quanta.filter fun q => q.1 = i).map Prod.snd).sum

/-- The scheduler stands between two passes. -/
def Sys.Boundary (s : Sys n) : Prop := s.cur = none ∧ s.scan = 0

/-- Weighted round robin from `s₀`, over every run of CPU-bound processes: each turn
takes as many timer interrupts as the weight, turns come in table order, and over
consecutive full passes every process receives its weight per pass. -/
structure WeightedRoundRobin (maxPriority : Int) (s₀ : Sys n) : Prop where
  finished : ∀ tr s, Run (CpuStep maxPriority) s₀ tr s →
    ∀ q ∈ s.quanta, (q.2 : Int) = (s₀.procs q.1).priority
  inProgress : ∀ tr s, Run (CpuStep maxPriority) s₀ tr s →
    ∀ i, s.cur = some i → (s.charge : Int) < (s₀.procs i).priority
  order : ∀ tr s, Run (CpuStep maxPriority) s₀ tr s →
    s.dispatched = (List.replicate s.pass s₀.ready).flatten ++
      s₀.ready.filter fun i => i.val < s.scan
  share : ∀ tr s tr' s', Run (CpuStep maxPriority) s₀ tr s →
    Run (CpuStep maxPriority) s tr' s' → s.Boundary → s'.Boundary →
    ∀ i, (s₀.procs i).state = .runnable → ∀ k, s'.pass = s.pass + k →
      (s'.received i : Int) = s.received i + k * (s₀.procs i).priority

/-! Order of the dispatches. -/

theorem filter_lt_succ (l : List (Fin n)) (hl : l.Pairwise (· < ·)) (k : Nat) :
    l.filter (fun i => i.val < k+1) =
      l.filter (fun i => i.val < k) ++ l.filter (fun i => i.val = k) := by
  induction l with
  | nil => rfl
  | cons a l ih =>
    obtain ⟨hhead, htail⟩ := List.pairwise_cons.mp hl
    have hrest (h : k ≤ a.val) : l.filter (fun i => i.val < k) = [] ∧
        l.filter (fun i => i.val = k) = [] ∧ l.filter (fun i => i.val < k+1) = [] := by
      simp only [List.filter_eq_nil_iff, decide_eq_true_eq]
      refine ⟨?_, ?_, ?_⟩ <;> intro b hb <;> have := Fin.lt_def.mp (hhead b hb) <;> omega
    by_cases h : a.val < k
    · have h1 : a.val < k+1 := by omega
      have h2 : ¬ a.val = k := by omega
      simp only [List.filter_cons, h, h1, h2, decide_true, decide_false, if_true, ih htail,
        List.cons_append, Bool.false_eq_true, if_false]
    · obtain ⟨e1, e2, e3⟩ := hrest (by omega)
      by_cases h2 : a.val = k
      · subst h2
        have h1 : a.val < a.val+1 := by omega
        simp only [List.filter_cons, h, h1, decide_true, decide_false, if_true, e1, e2, e3,
          List.nil_append, Bool.false_eq_true, if_false]
      · have h1 : ¬ a.val < k+1 := by omega
        simp only [List.filter_cons, h, h1, h2, decide_false, e1, e2, e3, List.nil_append,
          Bool.false_eq_true, if_false]

theorem ready_sorted (s : Sys n) : s.ready.Pairwise (· < ·) :=
  (List.pairwise_lt_finRange n).filter _

theorem mem_ready (s : Sys n) (i : Fin n) : i ∈ s.ready ↔ (s.procs i).state = .runnable := by
  simp [Sys.ready]

theorem ready_nodup (s : Sys n) : s.ready.Nodup :=
  (ready_sorted s).imp fun h => ne_of_lt h

/-- The entry the scheduler stands at, if it is one of the ready ones. -/
theorem ready_at (s : Sys n) (i : Fin n) :
    s.ready.filter (fun j => j.val = i.val) =
      if (s.procs i).state = .runnable then [i] else [] := by
  have hset : s.ready.filter (fun j => j.val = i.val) = s.ready.filter (fun j => j = i) := by
    refine List.filter_congr fun j _ => ?_
    simp [Fin.ext_iff]
  rw [hset, List.filter_eq]
  split
  · next h =>
    rw [List.count_eq_one_of_mem (ready_nodup s) ((mem_ready s i).mpr h)]
    rfl
  · next h =>
    rw [List.count_eq_zero_of_not_mem (fun hm => h ((mem_ready s i).mp hm))]
    rfl

/-- The dispatches of `pass` full passes and of the entries below `scan`. -/
def turns (s₀ : Sys n) (pass scan : Nat) : List (Fin n) :=
  (List.replicate pass s₀.ready).flatten ++ s₀.ready.filter fun i => i.val < scan

theorem turns_scan (s₀ : Sys n) (pass : Nat) (i : Fin n) :
    turns s₀ pass (i.val+1) = turns s₀ pass i.val ++
      if (s₀.procs i).state = .runnable then [i] else [] := by
  rw [turns, filter_lt_succ _ (ready_sorted s₀), ready_at, ← List.append_assoc]
  rfl

theorem turns_pass (s₀ : Sys n) (pass scan : Nat) (h : n ≤ scan) :
    turns s₀ (pass+1) 0 = turns s₀ pass scan := by
  have hall : s₀.ready.filter (fun i => i.val < scan) = s₀.ready := by
    refine List.filter_eq_self.mpr fun i _ => ?_
    have := i.isLt
    simp
    omega
  have hnone : s₀.ready.filter (fun i => i.val < 0) = [] := by simp
  rw [turns, turns, hall, hnone, List.replicate_add]
  simp

theorem count_turns (s₀ : Sys n) (pass : Nat) (i : Fin n)
    (h : (s₀.procs i).state = .runnable) : (turns s₀ pass 0).count i = pass := by
  have hone := List.count_eq_one_of_mem (ready_nodup s₀) ((mem_ready s₀ i).mpr h)
  simp [turns, List.count_flatten, hone]

/-! Every turn is one timer interrupt long when all weights are one. -/

/-- What CPU-bound runs keep when every weight is one. -/
structure UnitInv (s₀ s : Sys n) : Prop where
  priority : ∀ i, (s₀.procs i).state = .runnable → (s.procs i).priority = 1
  runnable : ∀ i, (s.procs i).state = .runnable ↔
    (s₀.procs i).state = .runnable ∧ s.cur ≠ some i
  running : ∀ i, s.cur = some i → (s.procs i).state = .running ∧
    (s₀.procs i).state = .runnable ∧ (s.procs i).ticks = 1 ∧ s.charge = 0
  unit : ∀ q ∈ s.quanta, q.2 = 1
  finished : s.quanta.map Prod.fst ++ s.cur.toList = s.dispatched
  order : s.dispatched = turns s₀ s.pass s.scan

theorem unitInv_start {maxPriority : Int} {s₀ : Sys n} (h : Start maxPriority s₀)
    (hone : ∀ i, (s₀.procs i).state = .runnable → (s₀.procs i).priority = 1) :
    UnitInv s₀ s₀ where
  priority := hone
  runnable := by simp [h.cur]
  running := by simp [h.cur]
  unit := by simp [h.quanta]
  finished := by simp [h.quanta, h.cur, h.dispatched]
  order := by simp [h.dispatched, h.pass, h.scan, turns]

theorem unitInv_dispatch {s₀ s : Sys n} (h : UnitInv s₀ s) (hcur : s.cur = none) {i : Fin n}
    (hscan : i.val = s.scan) (hr : (s.procs i).state = .runnable) : UnitInv s₀ (s.dispatch i) := by
  have hr0 : (s₀.procs i).state = .runnable := ((h.runnable i).mp hr).1
  have hpr := h.priority i hr0
  have hfin := h.finished
  simp only [hcur, Option.toList_none, List.append_nil] at hfin
  refine ⟨?_, ?_, ?_, h.unit, ?_, ?_⟩
  · intro j hj
    by_cases he : j = i
    · subst he; simpa [Sys.dispatch] using hpr
    · simpa [Sys.dispatch, he] using h.priority j hj
  · intro j
    by_cases he : j = i
    · subst he; simp [Sys.dispatch]
    · have := h.runnable j
      simp only [hcur] at this
      simp [Sys.dispatch, he, this, Ne.symm he]
  · intro j hj
    have he : i = j := by simpa [Sys.dispatch] using hj
    subst he
    simp [Sys.dispatch, hpr, hr0]
  · simp [Sys.dispatch, hfin]
  · have hturn := turns_scan s₀ s.pass i
    simp only [hr0, if_true, hscan] at hturn
    simp only [Sys.dispatch]
    rw [hturn, h.order]

theorem unitInv_schedule {s₀ s : Sys n} (h : UnitInv s₀ s) (hcur : s.cur = none) :
    UnitInv s₀ s.schedule := by
  unfold Sys.schedule
  split
  · next hlt =>
    split
    · next hr => exact unitInv_dispatch h hcur rfl hr
    · next hr =>
      have hr0 : ¬ (s₀.procs ⟨s.scan, hlt⟩).state = .runnable := fun h0 =>
        hr ((h.runnable _).mpr ⟨h0, by simp [hcur]⟩)
      have hturn := turns_scan s₀ s.pass ⟨s.scan, hlt⟩
      simp only [hr0, if_false, List.append_nil] at hturn
      refine ⟨h.priority, h.runnable, h.running, h.unit, h.finished, ?_⟩
      exact h.order.trans hturn.symm
  · next hlt =>
    refine ⟨h.priority, h.runnable, h.running, h.unit, h.finished, ?_⟩
    exact h.order.trans (turns_pass s₀ s.pass s.scan (by omega)).symm

/-- With weight one the first timer interrupt already ends the turn. -/
theorem unitInv_timer {s₀ s : Sys n} (h : UnitInv s₀ s) {i : Fin n} (hcur : s.cur = some i) :
    UnitInv s₀ (s.timerBranch i) := by
  obtain ⟨hst, hr0, htk, hch⟩ := h.running i hcur
  have hpr := h.priority i hr0
  have htick : (s.procs i).priority ≤ int32 ((s.procs i).ticks + 1) := by
    rw [hpr, htk]
    decide
  have hfin := h.finished
  simp only [hcur, Option.toList_some] at hfin
  simp only [Sys.timerBranch, hst, if_true, htick]
  refine ⟨?_, ?_, ?_, ?_, ?_, ?_⟩
  · intro j hj
    by_cases he : j = i
    · subst he
      simp [Sys.yield, Sys.sched, Sys.backToScheduler, Sys.setProc, hpr]
    · simpa [Sys.yield, Sys.sched, Sys.backToScheduler, Sys.setProc, he] using h.priority j hj
  · intro j
    by_cases he : j = i
    · subst he
      simp [Sys.yield, Sys.sched, Sys.backToScheduler, Sys.setProc, hr0]
    · have := h.runnable j
      simp only [hcur] at this
      simp [Sys.yield, Sys.sched, Sys.backToScheduler, Sys.setProc, he, this, Ne.symm he]
  · intro j hj
    simp [Sys.yield, Sys.sched, Sys.backToScheduler] at hj
  · intro q hq
    simp only [Sys.yield, Sys.sched, Sys.backToScheduler, Sys.setProc, List.mem_append,
      List.mem_singleton] at hq
    rcases hq with hq | hq
    · exact h.unit q hq
    · subst hq; simp [hch]
  · simp [Sys.yield, Sys.sched, Sys.backToScheduler, Sys.setProc, hfin]
  · exact h.order

theorem unitInv_step {maxPriority : Int} {s₀ s t : Sys n} {e : Event n} (h : UnitInv s₀ s)
    (hs : CpuStep maxPriority s e t) : UnitInv s₀ t := by
  obtain ⟨he, hs⟩ := hs
  cases e with
  | schedule =>
    simp only [Sys.step] at hs
    split at hs
    · next hcur =>
      cases hs
      exact unitInv_schedule h hcur
    · cases hs
  | usertrap =>
    simp only [Sys.step, Sys.usertrap, Option.map_eq_some_iff] at hs
    obtain ⟨i, hcur, rfl⟩ := hs
    exact unitInv_timer h hcur
  | kerneltrap =>
    simp only [Sys.step, Sys.kerneltrap] at hs
    split at hs
    · next i hcur =>
      cases hs
      exact unitInv_timer h hcur
    · cases hs
      exact h
  | setpriority k => exact he.elim
  | sleep => exact he.elim
  | exit => exact he.elim
  | wakeup i => exact he.elim
  | fork child => exact he.elim
  | wait child => exact he.elim

theorem received_of_unit (s : Sys n) (h : ∀ q ∈ s.quanta, q.2 = 1) (i : Fin n) :
    s.received i = (s.quanta.map Prod.fst).count i := by
  unfold Sys.received
  generalize s.quanta = l at h
  induction l with
  | nil => rfl
  | cons q l ih =>
    have hq := h q (by simp)
    have hl := ih fun q' h' => h q' (by simp [h'])
    by_cases he : q.1 = i
    · simp [he, hq, hl, Nat.add_comm]
    · simp [he, hl]

theorem received_boundary {s₀ s : Sys n} (h : UnitInv s₀ s) (hb : s.Boundary) (i : Fin n)
    (hi : (s₀.procs i).state = .runnable) : s.received i = s.pass := by
  have hfin := h.finished
  simp only [hb.1, Option.toList_none, List.append_nil] at hfin
  rw [received_of_unit s h.unit, hfin, h.order, hb.2, count_turns s₀ s.pass i hi]

theorem weightedRoundRobin_of_unit {maxPriority : Int} {s₀ : Sys n} (h : Start maxPriority s₀)
    (hone : ∀ i, (s₀.procs i).state = .runnable → (s₀.procs i).priority = 1) :
    WeightedRoundRobin maxPriority s₀ := by
  have hinv : ∀ {tr s}, Run (CpuStep maxPriority) s₀ tr s → UnitInv s₀ s := fun hr =>
    hr.invariant (unitInv_start h hone) fun _ _ _ hi hs => unitInv_step hi hs
  refine ⟨?_, ?_, ?_, ?_⟩
  · intro tr s hr q hq
    have hi := hinv hr
    have hmem : q.1 ∈ s.dispatched := by
      rw [← hi.finished]
      exact List.mem_append_left _ (List.mem_map_of_mem hq)
    have hq0 : (s₀.procs q.1).state = .runnable := by
      rw [hi.order, turns, List.mem_append] at hmem
      rcases hmem with hmem | hmem
      · obtain ⟨l, hl, hm⟩ := List.mem_flatten.mp hmem
        rw [List.eq_of_mem_replicate hl] at hm
        exact (mem_ready s₀ q.1).mp hm
      · exact (mem_ready s₀ q.1).mp (List.mem_filter.mp hmem).1
    rw [hi.unit q hq, hone q.1 hq0]
    rfl
  · intro tr s hr i hcur
    obtain ⟨-, hr0, -, hch⟩ := (hinv hr).running i hcur
    rw [hch, hone i hr0]
    decide
  · intro tr s hr
    exact (hinv hr).order
  · intro tr s tr' s' hr hr' hb hb' i hi k hk
    have h1 := received_boundary (hinv hr) hb i hi
    have h2 := received_boundary (hinv (hr.append hr')) hb' i hi
    rw [h1, h2, hk, hone i hi]
    push_cast
    omega

/-! A larger weight is not honoured: the dispatch already fills the tick counter. -/

/-- One timer interrupt ends every turn whose weight leaves room for the increment. -/
theorem timer_after_dispatch (s : Sys n) (i : Fin n)
    (hlo : 1 ≤ (s.procs i).priority) (hhi : (s.procs i).priority < intMax) :
    (s.dispatch i).timerBranch i =
      { s with
        procs := Function.update s.procs i { s.procs i with ticks := 0, state := .runnable }
        cur := none
        scan := s.scan + 1
        found := true
        dispatched := s.dispatched ++ [i]
        charge := 0
        quanta := s.quanta ++ [(i, 1)] } := by
  have htick : int32 ((s.procs i).priority + 1) = (s.procs i).priority + 1 :=
    int32_of_range (by omega) (by omega)
  simp [Sys.timerBranch, Sys.dispatch, htick, Sys.yield, Sys.sched, Sys.setProc,
    Sys.backToScheduler]

/-- The scheduler comes past entry `k` when every weight below `k` is one. -/
theorem reach_scan {maxPriority : Int} {s₀ : Sys n} (h : Start maxPriority s₀) (k : Nat)
    (hk : k ≤ n) (hone : ∀ i : Fin n, i.val < k → (s₀.procs i).state = .runnable →
      (s₀.procs i).priority = 1) :
    ∃ tr s, Run (CpuStep maxPriority) s₀ tr s ∧ s.cur = none ∧ s.scan = k ∧
      ∀ i : Fin n, k ≤ i.val → s.procs i = s₀.procs i := by
  induction k with
  | zero => exact ⟨[], s₀, .nil, h.cur, h.scan, fun _ _ => rfl⟩
  | succ k ih =>
    obtain ⟨tr, s, hr, hcur, hscan, hsame⟩ := ih (by omega) fun i hi => hone i (by omega)
    have hlt : s.scan < n := by omega
    have hk' : s.procs ⟨s.scan, hlt⟩ = s₀.procs ⟨s.scan, hlt⟩ := hsame _ (by simp [hscan])
    have hrest : ∀ i : Fin n, k+1 ≤ i.val → i ≠ ⟨s.scan, hlt⟩ := by
      intro i hi he
      have : i.val = s.scan := by rw [he]
      omega
    by_cases hrun : (s.procs ⟨s.scan, hlt⟩).state = .runnable
    · have hw : (s.procs ⟨s.scan, hlt⟩).priority = 1 := by
        rw [hk'] at hrun ⊢
        exact hone _ (by simp [hscan]) hrun
      have hstep1 : CpuStep maxPriority s .schedule (s.dispatch ⟨s.scan, hlt⟩) := by
        refine ⟨trivial, ?_⟩
        simp [Sys.step, hcur, Sys.schedule, hlt, hrun]
      have hstep2 : CpuStep maxPriority (s.dispatch ⟨s.scan, hlt⟩) .usertrap
          ((s.dispatch ⟨s.scan, hlt⟩).timerBranch ⟨s.scan, hlt⟩) := ⟨trivial, rfl⟩
      refine ⟨_, _, (hr.snoc hstep1).snoc hstep2, ?_⟩
      rw [timer_after_dispatch s _ (by omega) (by rw [hw]; decide)]
      refine ⟨rfl, by simp [hscan], fun i hi => ?_⟩
      simpa [hrest i hi] using hsame i (by omega)
    · have hstep : CpuStep maxPriority s .schedule { s with scan := s.scan + 1 } := by
        refine ⟨trivial, ?_⟩
        simp [Sys.step, hcur, Sys.schedule, hlt, hrun]
      exact ⟨_, _, hr.snoc hstep, hcur, by simp [hscan], fun i hi => hsame i (by omega)⟩

/-- At the largest `int` the increment wraps, and the turn goes on and on. -/
theorem ticks_at_intMax (maxPriority : Int) (s : Sys n) (i : Fin n)
    (hw : (s.procs i).priority = intMax) (k : Nat) (hk : k < 2147483648) :
    ∃ tr t, Run (CpuStep maxPriority) (s.dispatch i) tr t ∧ t.cur = some i ∧ t.charge = k+1 ∧
      t.procs i = ⟨.running, intMax, -2147483648 + k⟩ := by
  induction k with
  | zero =>
    have hwrap : int32 (intMax + 1) = -2147483648 := by decide
    have hno : ¬ intMax ≤ -2147483648 := by decide
    have hstep : CpuStep maxPriority (s.dispatch i) .usertrap ((s.dispatch i).timerBranch i) :=
      ⟨trivial, rfl⟩
    refine ⟨_, _, .single hstep, ?_⟩
    simp [Sys.timerBranch, Sys.dispatch, hw, hwrap, hno, Sys.setProc]
  | succ k ih =>
    obtain ⟨tr, t, hr, hcur, hch, hp⟩ := ih (by omega)
    have hadd : int32 (-2147483648 + k + 1) = -2147483648 + (k+1 : Nat) := by
      unfold int32
      rw [Int.bmod_eq_of_le] <;> push_cast <;> omega
    have hno : ¬ intMax ≤ -2147483648 + ((k+1 : Nat) : Int) := by
      unfold intMax
      push_cast
      omega
    have hstep : CpuStep maxPriority t .usertrap (t.timerBranch i) :=
      ⟨trivial, by simp [Sys.step, Sys.usertrap, hcur]⟩
    refine ⟨_, _, hr.snoc hstep, ?_⟩
    have hbr : t.timerBranch i = { t with
        charge := t.charge + 1
        procs := Function.update t.procs i ⟨.running, intMax, -2147483648 + (k+1 : Nat)⟩ } := by
      simp only [Sys.timerBranch, hp, if_true, hadd, hno, if_false, Sys.setProc]
    rw [hbr]
    exact ⟨hcur, by simp [hch], by simp⟩

theorem unit_of_weightedRoundRobin {maxPriority : Int} (hmax : maxPriority ≤ intMax)
    {s₀ : Sys n} (h : Start maxPriority s₀) (hwrr : WeightedRoundRobin maxPriority s₀) :
    ∀ i, (s₀.procs i).state = .runnable → (s₀.procs i).priority = 1 := by
  intro i
  -- strong induction: the entries before `i` have weight one, so the scan gets to `i`
  induction hv : i.val using Nat.strong_induction_on generalizing i with
  | _ k ih =>
    intro hi
    obtain ⟨hlo, hhi⟩ := h.priority i hi
    obtain ⟨tr, s, hr, hcur, hscan, hsame⟩ := reach_scan h i.val (by omega)
      fun j hj hjr => ih j.val (by omega) j rfl hjr
    have hp := hsame i le_rfl
    have hlt : s.scan < n := by omega
    have he : (⟨s.scan, hlt⟩ : Fin n) = i := by ext; exact hscan
    have hdisp : CpuStep maxPriority s .schedule (s.dispatch i) := by
      refine ⟨trivial, ?_⟩
      simp [Sys.step, hcur, Sys.schedule, hlt, he, hp, hi]
    rcases lt_or_eq_of_le (le_trans hhi hmax) with hw | hw
    · have htick : CpuStep maxPriority (s.dispatch i) .usertrap ((s.dispatch i).timerBranch i) :=
        ⟨trivial, rfl⟩
      have hq := hwrr.finished _ _ ((hr.snoc hdisp).snoc htick) (i, 1)
      rw [timer_after_dispatch s i (by rw [hp]; exact hlo) (by rw [hp]; exact hw)] at hq
      have := hq (by simp)
      simpa using this.symm
    · obtain ⟨tr', t, hr', hcur', hch, -⟩ := ticks_at_intMax maxPriority s i
        (by rw [hp]; exact hw) 2147483646 (by decide)
      have hprog := hwrr.inProgress _ _ ((hr.snoc hdisp).append hr') i hcur'
      rw [hch, hw] at hprog
      exact absurd hprog (by decide)

/-- Weighted round robin is delivered exactly when no process asks for more than one
tick, because `scheduler` starts every turn with `ticks` already at `priority`. -/
theorem weightedRoundRobin_iff_unit (maxPriority : Int) (hmax : maxPriority ≤ intMax)
    (s₀ : Sys n) (h : Start maxPriority s₀) :
    WeightedRoundRobin maxPriority s₀ ↔
      ∀ i, (s₀.procs i).state = .runnable → (s₀.procs i).priority = 1 :=
  ⟨unit_of_weightedRoundRobin hmax h, weightedRoundRobin_of_unit h⟩

/-- A table of two ready processes around a sleeping one. -/
def threeProcs (w₀ w₂ : Int) : Sys 3 where
  procs := ![⟨.runnable, w₀, 0⟩, ⟨.sleeping, 5, 0⟩, ⟨.runnable, w₂, 0⟩]
  cur := none
  scan := 0
  found := false
  pass := 0
  dispatched := []
  charge := 0
  quanta := []

theorem threeProcs_start (w₀ w₂ : Int) (h₀ : 1 ≤ w₀ ∧ w₀ ≤ 1000) (h₂ : 1 ≤ w₂ ∧ w₂ ≤ 1000) :
    Start 1000 (threeProcs w₀ w₂) where
  cur := rfl
  scan := rfl
  pass := rfl
  dispatched := rfl
  charge := rfl
  quanta := rfl
  idle := by simp [threeProcs, Fin.forall_fin_succ]
  some_runnable := ⟨0, rfl⟩
  priority := by simp [threeProcs, Fin.forall_fin_succ, h₀, h₂]

/-- Weights 1 and 1 are honoured, weights 2 and 3 are not. -/
theorem weightedRoundRobin_iff_unit_threeProcs :
    WeightedRoundRobin 1000 (threeProcs 1 1) ∧ ¬ WeightedRoundRobin 1000 (threeProcs 2 3) := by
  constructor
  · rw [weightedRoundRobin_iff_unit 1000 (by decide) _ (threeProcs_start 1 1 (by decide) (by decide))]
    simp [threeProcs, Fin.forall_fin_succ]
  · rw [weightedRoundRobin_iff_unit 1000 (by decide) _ (threeProcs_start 2 3 (by decide) (by decide))]
    simp [threeProcs, Fin.forall_fin_succ]

/-- A process of weight two is put back after a single timer interrupt. -/
theorem weight_two_gets_one_tick :
    Start 1000 (threeProcs 2 3) ∧ ¬ WeightedRoundRobin 1000 (threeProcs 2 3) := by
  refine ⟨threeProcs_start 2 3 (by decide) (by decide), fun hwrr => ?_⟩
  have hdisp : CpuStep 1000 (threeProcs 2 3) .schedule ((threeProcs 2 3).dispatch 0) :=
    ⟨trivial, rfl⟩
  have htick : CpuStep 1000 ((threeProcs 2 3).dispatch 0) .usertrap
      (((threeProcs 2 3).dispatch 0).timerBranch 0) := ⟨trivial, rfl⟩
  have hq := hwrr.finished _ _ ((Run.single hdisp).snoc htick) (0, 1) (by decide)
  exact absurd hq (by decide)

end Xv6Labs.Wrr
