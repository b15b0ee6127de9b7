import Mathlib.Algebra.BigOperators.Group.Finset.Piecewise
import Mathlib.Data.Multiset.MapFold
import Xv6Labs.Life.Family

/-! Exit statuses: `kexit` leaves one in the process table and `kwait` takes it out. None is lost
or made up, and while the pids last each is taken once, by the parent or by the first process. -/
namespace Xv6Labs.Life
open Kit
open Wait (Doze Scan Holder)

abbrev Label := Nat × Option Event

/-- The statuses that an event adds, as pairs of pid and status. -/
def Event.exits : Event → Multiset (Int × Int)
  | .exited pid status => {(pid, status)}
  | _ => 0

/-- The statuses that an event takes. -/
def Event.reaps : Event → Multiset (Int × Int)
  | .reaped _ pid status => {(pid, status)}
  | _ => 0

def exits (tr : List Label) : Multiset (Int × Int) := (tr.map fun l => l.2.elim 0 Event.exits).sum
def reaps (tr : List Label) : Multiset (Int × Int) := (tr.map fun l => l.2.elim 0 Event.reaps).sum

/-- The status that a process has left. -/
def Proc.status (r : Proc) : Multiset (Int × Int) :=
  if r.state = .zombie then {(r.pid, r.xstate)} else 0

/-- The statuses in a table of `n` processes. -/
def State.statuses (n : Nat) (s : State) : Multiset (Int × Int) :=
  ∑ i ∈ Finset.range n, (s.proc i).status

section
variable {n : Nat} {s t : State} {p q i j : Nat} {c : Pc} {ins : Instr} {ev : Option Event}
  {r r' : Proc} {l : Label} {tr : List Label}

theorem exits_snoc (tr : List Label) (l : Label) :
    exits (tr ++ [l]) = exits tr + l.2.elim 0 Event.exits := by
  simp [exits]

theorem reaps_snoc (tr : List Label) (l : Label) :
    reaps (tr ++ [l]) = reaps tr + l.2.elim 0 Event.reaps := by
  simp [reaps]

theorem status_of_ne (h : r.state ≠ .zombie) : r.status = 0 := if_neg h
theorem status_of_zombie (h : r.state = .zombie) : r.status = {(r.pid, r.xstate)} := if_pos h

theorem Tame.status (h : Tame r r') : r'.status = r.status := by
  unfold Proc.status
  simp only [h.zombie, h.pid, h.xstate]

/-- What one record gains, the table gains. -/
theorem statuses_update (hi : i < n) (hp : t.proc = Function.update s.proc i r) :
    t.statuses n + (s.proc i).status = s.statuses n + r.status := by
  have hmem : i ∈ Finset.range n := Finset.mem_range.mpr hi
  have hcomp : (fun j => (t.proc j).status) =
      Function.update (fun j => (s.proc j).status) i r.status := by
    rw [hp]
    exact Function.comp_update Proc.status s.proc i r
  unfold State.statuses
  rw [hcomp, Finset.sum_update_of_mem hmem,
    Finset.sum_eq_add_sum_sdiff_singleton_of_mem hmem fun j => (s.proc j).status]
  ac_rfl

theorem statuses_congr (hp : ∀ i, (t.proc i).status = (s.proc i).status) :
    t.statuses n = s.statuses n := Finset.sum_congr rfl fun i _ => hp i

/-- A record that is written without an exit or a reaping leaves the status alone. -/
theorem status_code (h : Places n s) (hc : Code n s p (s.pc p) ins ev)
    (hw : ins.written = some (i, r)) :
    r.status = (s.proc i).status ∧ ev.elim 0 Event.exits = 0 ∧ ev.elim 0 Event.reaps = 0 ∨
      (i < n ∧ (s.proc i).status = 0 ∧ r.status = ev.elim 0 Event.exits ∧
        ev.elim 0 Event.reaps = 0) ∨
      (i < n ∧ r.status = 0 ∧ (s.proc i).status = ev.elim 0 Event.reaps ∧
        ev.elim 0 Event.exits = 0) := by
  have hstate := (h.each p).state
  have hmaking := h.making p
  generalize s.pc p = c at hc hstate hmaking
  cases hc with
  | exitZombie status =>
    cases hw
    refine .inr (.inl ⟨(h.each p).lt (by rw [hstate]; nofun), status_of_ne ?_, rfl, rfl⟩)
    rw [show (s.proc p).state = .running from hstate]
    exact nofun
  | waitReap i hz =>
    cases hw
    exact .inr (.inr ⟨(h.each i).lt (by rw [hz]; nofun), rfl, status_of_zombie hz, rfl⟩)
  | allocFound i hi =>
    cases hw
    refine .inl ⟨?_, rfl, rfl⟩
    rw [status_of_ne (r := s.proc i) (by rw [hi]; nofun)]
    rfl
  | forkFail i | forkReady i =>
    cases hw
    refine .inl ⟨?_, rfl, rfl⟩
    rw [status_of_ne (r := s.proc i) (by rw [(hmaking i rfl).state]; nofun)]
    rfl
  | wakeTest c i ret =>
    cases hw
    exact .inl ⟨(woken_wake _ c).tame.status, rfl, rfl⟩
  | killHit pid i =>
    cases hw
    exact .inl ⟨(woken_kill _).tame.status, rfl, rfl⟩
  | sleepState =>
    cases hw
    refine .inl ⟨?_, rfl, rfl⟩
    rw [status_of_ne (r := s.proc p) (by rw [hstate]; nofun)]
    rfl
  | forkParent | reparentChild | sleepChan | sleepTidy =>
    cases hw
    exact .inl ⟨rfl, rfl, rfl⟩
  | _ => cases hw

/-- Only the events of an exit and of a reaping come with a store. -/
theorem quiet_code (hc : Code n s p c ins ev) (hw : ins.written = none) :
    ev.elim 0 Event.exits = 0 ∧ ev.elim 0 Event.reaps = 0 := by
  cases hc with
  | exitZombie | waitReap => cases hw
  | _ => exact ⟨rfl, rfl⟩

theorem statuses_step (h : Places n s) (hs : Step n s l t) :
    t.statuses n + l.2.elim 0 Event.reaps = s.statuses n + l.2.elim 0 Event.exits := by
  cases hs with
  | @code p ins ev hc hr =>
    dsimp only
    cases hw : ins.written with
    | none =>
      obtain ⟨he, hrp⟩ := quiet_code hc hw
      rw [he, hrp, statuses_congr (s := s) (fun i => by rw [proc_exec_of_none hw])]
    | some x =>
      obtain ⟨i, r⟩ := x
      have hup := proc_exec_of_some (s := s) (p := p) hw
      obtain ⟨hst, he, hrp⟩ | ⟨hi, h0, hst, hrp⟩ | ⟨hi, h0, hst, he⟩ := status_code h hc hw
      · rw [he, hrp]
        congr 1
        refine statuses_congr fun j => ?_
        rw [hup]
        by_cases hj : j = i
        · subst hj
          rw [Function.update_self, hst]
        · rw [Function.update_of_ne hj]
      · have := statuses_update (n := n) (t := s.exec p ins) hi hup
        rw [h0, hst] at this
        rw [hrp, ← this]
      · have := statuses_update (n := n) (t := s.exec p ins) hi hup
        rw [h0, hst] at this
        rw [he, ← this]
  | pick | drop => rfl
  | @run p hpick hstate hpc =>
    refine congrArg (· + 0) (statuses_congr fun i => ?_)
    by_cases hi : i = p
    · subst hi
      rw [resume_proc, status_of_ne (r := s.proc i) (by rw [hstate]; nofun)]
      rfl
    · rw [show (s.resume p).proc i = s.proc i from Function.update_of_ne hi _ _]
  | @other p r hpc hfree hr =>
    refine congrArg (· + 0) (statuses_congr fun i => ?_)
    by_cases hi : i = p
    · subst hi
      rw [show (s.setProc i r).proc i = r from Function.update_self ..,
        status_of_ne hr.after.ne_zombie, status_of_ne hr.before.ne_zombie]
    · rw [show (s.setProc p r).proc i = s.proc i from Function.update_of_ne hi _ _]

theorem statuses_boot : State.boot.statuses n = 0 := by
  refine Finset.sum_eq_zero fun i _ => status_of_ne ?_
  by_cases hi : i = initproc <;> simp [State.boot, hi, Proc.freed]

theorem statuses_run (hn : 0 < n) (hr : Run (Step n) .boot tr s) :
    exits tr = reaps tr + s.statuses n := by
  refine hr.history (P := fun tr s => exits tr = reaps tr + s.statuses n) ?_ ?_
  · rw [statuses_boot]
    rfl
  · intro tr s l t hr ih hs
    have hstep := statuses_step (life_run hn hr).1 hs
    calc
      exits (tr ++ [l]) = reaps tr + (s.statuses n + l.2.elim 0 Event.exits) := by
        rw [exits_snoc, ih, add_assoc]
      _ = reaps tr + (t.statuses n + l.2.elim 0 Event.reaps) := by rw [hstep]
      _ = reaps (tr ++ [l]) + t.statuses n := by
        rw [reaps_snoc]
        ac_rfl

end

/-! The pids. -/

def Event.allocs : Event → Nat
  | .allocated _ => 1
  | _ => 0

/-- How many pids were handed out. -/
def allocs (tr : List Label) : Nat := (tr.map fun l => l.2.elim 0 Event.allocs).sum

structure Pids (tr : List Label) (s : State) : Prop where
  next : s.nextpid = 2 + allocs tr
  first : (s.proc initproc).pid = 1
  range : ∀ i, (s.proc i).state ≠ .unused → 0 < (s.proc i).pid ∧ (s.proc i).pid < s.nextpid
  distinct : ∀ i j, (s.proc i).state ≠ .unused → (s.proc j).state ≠ .unused →
    (s.proc i).pid = (s.proc j).pid → i = j
  /-- A pid that has exited is that of nobody but the zombie. -/
  gone : ∀ x ∈ exits tr, x.1 < s.nextpid ∧
    ∀ i, (s.proc i).state ≠ .unused → (s.proc i).pid = x.1 → (s.proc i).state = .zombie
  once : ((exits tr).map Prod.fst).Nodup

section
variable {n : Nat} {s t : State} {p q i j : Nat} {c : Pc} {ins : Instr} {ev : Option Event}
  {r r' : Proc} {l : Label} {tr : List Label}

theorem allocs_snoc (tr : List Label) (l : Label) :
    allocs (tr ++ [l]) = allocs tr + l.2.elim 0 Event.allocs := by
  simp [allocs]

theorem Tame.unused (h : Tame r r') (hr : r'.state ≠ .unused) : r.state ≠ .unused := by
  cases h.state with
  | inl heq => rwa [← heq]
  | inr halive => exact halive.1.ne_unused

/-- Whoever is in the table was there with the same pid, or has just got its slot. -/
theorem pid_before (h : Places n s) (hs : Step n s l t) (hi : (t.proc i).state ≠ .unused) :
    ((s.proc i).state ≠ .unused ∧ (t.proc i).pid = (s.proc i).pid) ∨ Taken s t l.1 i := by
  obtain heq | hch | htaken := step_change (h.each l.1) hs i
  · rw [heq] at hi ⊢
    exact .inl ⟨hi, rfl⟩
  · left
    generalize t.proc i = r at *
    cases hch with
    | wake hl hw => exact ⟨hw.tame.unused hi, hw.pid⟩
    | self he ht => exact ⟨ht.unused hi, ht.pid⟩
    | undo hpc hr | reap hpc hz hr =>
      rw [hr] at hi
      exact absurd rfl hi
    | adopt hpc hr | hand _ hpc _ hr =>
      rw [hr] at hi ⊢
      exact ⟨hi, rfl⟩
    | start hpc hr =>
      rw [hr, (h.making l.1 i (by rw [hpc]; rfl)).state]
      exact ⟨nofun, rfl⟩
    | die status hpc hq hr =>
      have hstate := (h.each l.1).state
      rw [hpc] at hstate
      rw [hr, hq, show (s.proc l.1).state = .running from hstate]
      exact ⟨nofun, rfl⟩
  · exact .inr htaken

theorem pid_kept (h : Places n s) (hs : Step n s l t) (hi : (s.proc i).state ≠ .unused)
    (hi' : (t.proc i).state ≠ .unused) : (t.proc i).pid = (s.proc i).pid := by
  obtain ⟨-, hpid⟩ | htaken := pid_before h hs hi'
  · exact hpid
  · exact absurd htaken.unused hi

theorem zombie_kept (h : Places n s) (hs : Step n s l t) (hz : (s.proc i).state = .zombie)
    (hi : (t.proc i).state ≠ .unused) : (t.proc i).state = .zombie := by
  have hkin := kin_step h hs i
  generalize t.proc i = r at *
  cases hkin with
  | same hp hzom => exact hzom.mpr hz
  | adopt hpc hr | hand _ hpc _ hr => rwa [hr]
  | reap hpc hz hr =>
    rw [hr] at hi
    exact absurd rfl hi
  | die status hpc hj hr => rw [hr]

theorem Taken.pc_maker (h : Taken s t p q) : t.pc p = .forkUsed q := by
  rw [h.exec]
  exact pc_exec_self ..

/-- A step hands out a pid exactly when it takes a slot. -/
theorem nextpid_step (hs : Step n s l t) :
    (l.2.elim 0 Event.allocs = 0 ∧ t.nextpid = s.nextpid ∧ ∀ i, ¬ Taken s t l.1 i) ∨
      (l.2.elim 0 Event.allocs = 1 ∧ t.nextpid = int32 (s.nextpid + 1)) := by
  have hstay (hpc : t.pc l.1 = s.pc l.1) (i : Nat) : ¬ Taken s t l.1 i := by
    intro ht
    have hmaker := ht.pc_maker
    rw [hpc, ht.pc] at hmaker
    cases hmaker
  cases hs with
  | @code p ins ev hc hr =>
    have hnext : ∀ i, Taken s (s.exec p ins) p i → ins.next = .forkUsed i := by
      intro i ht
      rw [← pc_exec_self s p ins]
      exact ht.pc_maker
    generalize s.pc p = c at hc
    clear hstay
    cases hc with
    | allocFound i hi => exact .inr ⟨rfl, rfl⟩
    | wakeEnd c i ret =>
      refine .inl ⟨rfl, rfl, ?_⟩
      intro j ht
      cases ret <;> cases hnext j ht
    | _ => exact .inl ⟨rfl, rfl, fun j ht => nomatch hnext j ht⟩
  | pick | drop | other => exact .inl ⟨rfl, rfl, hstay rfl⟩
  | run =>
    refine .inl ⟨rfl, rfl, ?_⟩
    intro i ht
    have hmaker := ht.pc_maker
    rw [resume_pc] at hmaker
    cases hmaker

/-- A step adds no status, or that of the process that takes it and becomes a zombie. -/
theorem exits_step (h : Places n s) (hs : Step n s l t) :
    l.2.elim 0 Event.exits = 0 ∨ ∃ status, l.2.elim 0 Event.exits = {((s.proc l.1).pid, status)} ∧
      (s.proc l.1).state = .running ∧ (t.proc l.1).state = .zombie := by
  cases hs with
  | @code p ins ev hc hr =>
    have hstate := (h.each p).state
    generalize s.pc p = c at hc hstate
    cases hc with
    | exitZombie status =>
      refine .inr ⟨status, rfl, hstate, ?_⟩
      rw [proc_exec_of_some rfl, Function.update_self]
    | _ => exact .inl rfl
  | pick | drop | other | run => exact .inl rfl

section Pids
variable (hp : Pids tr s)
include hp

theorem Pids.next_step (hs : Step n s l t) (hk : (2 + allocs (tr ++ [l]) : Int) ≤ intMax) :
    t.nextpid = 2 + allocs (tr ++ [l]) ∧ s.nextpid ≤ t.nextpid ∧
      ∀ i, Taken s t l.1 i → s.nextpid < t.nextpid := by
  rw [allocs_snoc] at hk ⊢
  obtain ⟨h0, hsame, hno⟩ | ⟨h1, hnext⟩ := nextpid_step hs
  · rw [h0, hsame, hp.next]
    exact ⟨rfl, le_refl _, fun i ht => absurd ht (hno i)⟩
  · rw [h1] at hk ⊢
    rw [hp.next, int32_of_range (by omega) (by push_cast at hk ⊢; omega)] at hnext
    rw [hnext, hp.next]
    push_cast
    exact ⟨by omega, by omega, fun _ _ => by omega⟩

/-- The pid of a new process is above all others. -/
theorem Pids.fresh (ht : Taken s t p i) (hj : (s.proc j).state ≠ .unused) :
    (s.proc j).pid < (t.proc i).pid := by
  rw [ht.proc]
  exact (hp.range j hj).2

theorem Pids.range_step (h : Places n s) (hs : Step n s l t)
    (hk : (2 + allocs (tr ++ [l]) : Int) ≤ intMax) (i : Nat) (hi : (t.proc i).state ≠ .unused) :
    0 < (t.proc i).pid ∧ (t.proc i).pid < t.nextpid := by
  obtain ⟨-, hmono, hlt⟩ := hp.next_step hs hk
  obtain ⟨hold, hpid⟩ | htaken := pid_before h hs hi
  · have hrange := hp.range i hold
    rw [hpid]
    omega
  · have hnext := hp.next
    have hlt := hlt i htaken
    rw [htaken.proc]
    dsimp only
    omega

theorem Pids.distinct_step (h : Places n s) (hs : Step n s l t) (i j : Nat)
    (hi : (t.proc i).state ≠ .unused) (hj : (t.proc j).state ≠ .unused)
    (hij : (t.proc i).pid = (t.proc j).pid) : i = j := by
  obtain ⟨hi', hpi⟩ | hti := pid_before h hs hi <;> obtain ⟨hj', hpj⟩ | htj := pid_before h hs hj
  · exact hp.distinct i j hi' hj' (by rw [← hpi, ← hpj, hij])
  · have hlt := hp.fresh htj hi'
    omega
  · have hlt := hp.fresh hti hj'
    omega
  · have hpc := hti.pc
    rw [htj.pc] at hpc
    cases hpc
    rfl

theorem Pids.gone_step (h : Places n s) (hs : Step n s l t)
    (hk : (2 + allocs (tr ++ [l]) : Int) ≤ intMax) (x : Int × Int) (hx : x ∈ exits (tr ++ [l])) :
    x.1 < t.nextpid ∧
      ∀ i, (t.proc i).state ≠ .unused → (t.proc i).pid = x.1 → (t.proc i).state = .zombie := by
  obtain ⟨-, hmono, -⟩ := hp.next_step hs hk
  rw [exits_snoc, Multiset.mem_add] at hx
  cases hx with
  | inl hold =>
    obtain ⟨hlt, hgone⟩ := hp.gone x hold
    refine ⟨by omega, ?_⟩
    intro i hi hpid
    obtain ⟨hi', hpi⟩ | htaken := pid_before h hs hi
    · exact zombie_kept h hs (hgone i hi' (by rw [← hpi, hpid])) hi
    · rw [htaken.proc] at hpid
      dsimp only at hpid
      omega
  | inr hnew =>
    obtain h0 | ⟨status, hex, hrun, hz⟩ := exits_step h hs
    · rw [h0] at hnew
      cases hnew
    · rw [hex, Multiset.mem_singleton] at hnew
      subst hnew
      have hused : (s.proc l.1).state ≠ .unused := by rw [hrun]; nofun
      have hrange := hp.range l.1 hused
      refine ⟨by dsimp only; omega, ?_⟩
      intro i hi hpid
      have hpl := pid_kept h hs hused (by rw [hz]; nofun)
      rw [hp.distinct_step h hs i l.1 hi (by rw [hz]; nofun) (hpid.trans hpl.symm)]
      exact hz

theorem Pids.once_step (h : Places n s) (hs : Step n s l t) :
    ((exits (tr ++ [l])).map Prod.fst).Nodup := by
  rw [exits_snoc, Multiset.map_add]
  obtain h0 | ⟨status, hex, hrun, -⟩ := exits_step h hs
  · rw [h0, Multiset.map_zero, add_zero]
    exact hp.once
  · rw [hex, Multiset.map_singleton, add_comm, Multiset.singleton_add, Multiset.nodup_cons]
    refine ⟨?_, hp.once⟩
    intro hmem
    obtain ⟨x, hx, hpid⟩ := Multiset.mem_map.mp hmem
    have hz := (hp.gone x hx).2 l.1 (by rw [hrun]; nofun) hpid.symm
    rw [hrun] at hz
    cases hz

theorem pids_step (h : Places n s) (hf : Family n s) (hs : Step n s l t)
    (hk : (2 + allocs (tr ++ [l]) : Int) ≤ intMax) : Pids (tr ++ [l]) t where
  next := (hp.next_step hs hk).1
  first := by
    rw [pid_kept h hs hf.first.1.ne_unused (first_step hf h hs).1.ne_unused, hp.first]
  range := hp.range_step h hs hk
  distinct := hp.distinct_step h hs
  gone := hp.gone_step h hs hk
  once := hp.once_step h hs

end Pids

theorem boot_unused (h : (State.boot.proc i).state ≠ .unused) : i = initproc := by
  by_contra hi
  simp [State.boot, hi, Proc.freed] at h

theorem pids_boot : Pids [] .boot where
  next := rfl
  first := rfl
  range i hi := by
    rw [boot_unused hi]
    decide
  distinct i j hi hj _ := by rw [boot_unused hi, boot_unused hj]
  gone x hx := by cases hx
  once := Multiset.nodup_zero

theorem pids_run (hn : 0 < n) (hr : Run (Step n) .boot tr s) (hk : (2 + allocs tr : Int) ≤ intMax) :
    Pids tr s := by
  refine hr.history (P := fun tr s => (2 + allocs tr : Int) ≤ intMax → Pids tr s)
    (fun _ => pids_boot) ?_ hk
  intro tr s l t hr ih hs hk
  obtain ⟨h, hf⟩ := life_run hn hr
  have hle : allocs tr ≤ allocs (tr ++ [l]) := by
    rw [allocs_snoc]
    exact Nat.le_add_right _ _
  exact pids_step (ih (by omega)) h hf hs hk

end

/-! Who collects a status. -/

def Saw (tr : List Label) (ev : Event) : Prop := ∃ p, (p, some ev) ∈ tr

/-- `kexit` gives children away from here on, with `wait_lock` held. -/
def Pc.handing : Pc → Bool
  | .reparent .. | .wakeup .. | .exitWoke _ | .exitLocked _ => true
  | _ => false

/-- The process with pid `x` has exited, or is about to and still holds `wait_lock`. -/
def Leaving (tr : List Label) (s : State) (x : Int) : Prop :=
  (∃ status, Saw tr (.exited x status)) ∨ ∃ p, (s.pc p).handing = true ∧ (s.proc p).pid = x

/-- A parent has forked its child, or is the first process and the one who did is leaving. -/
def Forks (tr : List Label) (s : State) : Prop :=
  ∀ i q, (s.proc i).parent = some q → ∃ x, Saw tr (.forked x (s.proc i).pid) ∧
    (x = (s.proc q).pid ∨ q = initproc ∧ Leaving tr s x)

section
variable {n : Nat} {s t : State} {p q i j : Nat} {c : Pc} {ins : Instr} {ev : Option Event}
  {r r' : Proc} {l : Label} {tr : List Label} {e : Event} {x : Int}

theorem Saw.snoc (h : Saw tr e) (l : Label) : Saw (tr ++ [l]) e :=
  h.imp fun _ hp => List.mem_append_left _ hp

theorem saw_last (tr : List Label) (hl : l.2 = some e) : Saw (tr ++ [l]) e :=
  ⟨l.1, by rw [← hl]; simp⟩

theorem handing_running (h : Local n s p) (hp : (s.pc p).handing = true) :
    (s.proc p).state = .running := by
  have hstate := h.state
  generalize s.pc p = c at *
  cases c with
  | reparent | wakeup | exitWoke | exitLocked => exact hstate
  | _ => cases hp

theorem handing_code (hc : Code n s p c ins ev) (hh : c.handing = true) :
    ins.next.handing = true ∨ ∃ status, ev = some (.exited (s.proc p).pid status) := by
  cases hc with
  | exitZombie status => exact .inr ⟨status, rfl⟩
  | wakeEnd c i ret => cases ret <;> exact .inl rfl
  | reparentEnd | reparentSkip | reparentChild | exitLock | wakeSelf | wakeLock | wakeTest
  | wakeNext => exact .inl rfl
  | _ => cases hh

theorem leaving_step (h : Places n s) (hs : Step n s l t) (hx : Leaving tr s x) :
    Leaving (tr ++ [l]) t x := by
  obtain ⟨status, hsaw⟩ | ⟨p, hh, hpid⟩ := hx
  · exact .inl ⟨status, hsaw.snoc l⟩
  · have hrun := handing_running (h.each p) hh
    have hkeep (ht : (t.pc p).handing = true) : Leaving (tr ++ [l]) t x := by
      have hrun' := handing_running (local_step h hs p) ht
      refine .inr ⟨p, ht, ?_⟩
      rw [pid_kept h hs (by rw [hrun]; nofun) (by rw [hrun']; nofun), hpid]
    by_cases hp : p = l.1
    · subst hp
      cases hs with
      | @code p ins ev hc hr =>
        obtain hnext | ⟨status, hev⟩ := handing_code hc hh
        · exact hkeep (by rw [pc_exec_self]; exact hnext)
        · refine .inl ⟨status, saw_last tr ?_⟩
          rw [← hpid]
          exact hev
      | pick | drop | other => exact hkeep hh
      | @run p _ _ hoff =>
        rw [show s.pc p = _ from hoff] at hh
        cases hh
    · cases pc_other hs hp with
      | inl hsame => exact hkeep (by rw [hsame]; exact hh)
      | inr htaken =>
        have hun := htaken.unused
        rw [hrun] at hun
        cases hun

/-- Where a parent comes from, with the event or the place that goes with it. -/
theorem parent_code (hc : Code n s p (s.pc p) ins ev)
    (hq : ((s.exec p ins).proc i).parent = some q) :
    (s.proc i).parent = some q ∨
      (q = p ∧ s.pc p = .forkWait i ∧ ev = some (.forked (s.proc p).pid (s.proc i).pid)) ∨
      (q = initproc ∧ (s.proc i).parent = some p ∧ (s.pc p).exiting = true ∧
        ins.next.handing = true) := by
  cases hw : ins.written with
  | none =>
    rw [proc_exec_of_none hw] at hq
    exact .inl hq
  | some x =>
    obtain ⟨j, r⟩ := x
    rw [proc_exec_of_some hw] at hq
    by_cases hi : i = j
    · subst hi
      rw [Function.update_self] at hq
      generalize s.pc p = c at hc ⊢
      cases hc with
      | forkParent =>
        cases hw
        exact .inr (.inl ⟨(Option.some.inj hq).symm, rfl, rfl⟩)
      | reparentChild status i hi hpar =>
        cases hw
        exact .inr (.inr ⟨(Option.some.inj hq).symm, hpar, rfl, rfl⟩)
      | forkFail | waitReap =>
        cases hw
        cases hq
      | wakeTest c i ret =>
        cases hw
        exact .inl ((woken_wake _ c).parent ▸ hq)
      | killHit | allocFound | forkReady | exitZombie | sleepChan | sleepState | sleepTidy =>
        cases hw
        exact .inl hq
      | _ => cases hw
    · rw [Function.update_of_ne hi] at hq
      exact .inl hq

theorem parent_event (hs : Step n s l t) (hq : (t.proc i).parent = some q) :
    (s.proc i).parent = some q ∨
      (q = l.1 ∧ s.pc l.1 = .forkWait i ∧
        l.2 = some (.forked (s.proc l.1).pid (s.proc i).pid)) ∨
      (q = initproc ∧ (s.proc i).parent = some l.1 ∧ (s.pc l.1).exiting = true ∧
        (t.pc l.1).handing = true) := by
  cases hs with
  | @code p ins ev hc hr =>
    rw [pc_exec_self]
    exact parent_code hc hq
  | pick | drop => exact .inl hq
  | @run p =>
    by_cases hi : i = p
    · subst hi
      rw [resume_proc] at hq
      exact .inl hq
    · rw [show (s.resume p).proc i = s.proc i from Function.update_of_ne hi _ _] at hq
      exact .inl hq
  | @other p r hpc hfree hr =>
    by_cases hi : i = p
    · subst hi
      rw [show (s.setProc i r).proc i = r from Function.update_self .., hr.parent] at hq
      exact .inl hq
    · rw [show (s.setProc p r).proc i = s.proc i from Function.update_of_ne hi _ _] at hq
      exact .inl hq

theorem forks_step (h : Places n s) (hf : Family n s) (hk : Forks tr s) (hs : Step n s l t) :
    Forks (tr ++ [l]) t := by
  intro i q hq
  have ht := places_step h hs
  have hft := family_step h hf hs
  have hpid (hi : (s.proc i).state ≠ .unused) : (t.proc i).pid = (s.proc i).pid := by
    refine pid_kept h hs hi ?_
    intro hu
    rw [ht.unused i hu] at hq
    cases hq
  have hold {p} (hp : (s.proc i).parent = some p) : (s.proc i).state ≠ .unused := by
    intro hu
    rw [h.unused i hu] at hp
    cases hp
  obtain hpar | ⟨rfl, hpc, hev⟩ | ⟨rfl, hpar, hex, hh⟩ := parent_event hs hq
  · obtain ⟨x, hsaw, hx⟩ := hk i q hpar
    refine ⟨x, ?_, ?_⟩
    · rw [hpid (hold hpar)]
      exact hsaw.snoc l
    · cases hx with
      | inl heq =>
        rw [pid_kept h hs (hf.alive i q hpar).ne_unused (hft.alive i q hq).ne_unused]
        exact .inl heq
      | inr hleave => exact .inr ⟨hleave.1, leaving_step h hs hleave.2⟩
  · have hm : (s.pc l.1).making = some i := by rw [hpc]; rfl
    refine ⟨_, saw_last tr (hev.trans ?_), .inl rfl⟩
    rw [hpid (by rw [(h.making l.1 i hm).state]; nofun),
      pid_kept h hs (by rw [h.maker_running hm]; nofun) (hft.alive i l.1 hq).ne_unused]
  · obtain ⟨x, hsaw, hx⟩ := hk i l.1 hpar
    refine ⟨x, ?_, .inr ⟨rfl, .inr ⟨l.1, hh, ?_⟩⟩⟩
    · rw [hpid (hold hpar)]
      exact hsaw.snoc l
    · have hrun := handing_running (ht.each l.1) hh
      rw [pid_kept h hs (hf.alive i l.1 hpar).ne_unused (by rw [hrun]; nofun)]
      obtain heq | ⟨hinit, -⟩ := hx
      · exact heq.symm
      · exact absurd hinit (hf.exiting_ne hex)

theorem forks_run (hn : 0 < n) (hr : Run (Step n) .boot tr s) : Forks tr s := by
  refine hr.history (P := Forks) ?_ ?_
  · intro i q hq
    by_cases hi : i = initproc <;> simp [State.boot, hi, Proc.freed] at hq
  · intro tr s l t hr ih hs
    obtain ⟨h, hf⟩ := life_run hn hr
    exact forks_step h hf ih hs

/-- The first process forks, its child exits with 7, and the first process is about to collect
that. -/
theorem fork_and_exit : ∃ tr s t, Run (Step 2) .boot tr s ∧ allocs tr = 1 ∧
    exits tr = {(2, 7)} ∧ Step 2 s (0, some (.reaped 1 2 7)) t := by
  have h1 := (init_runs 2).snoc (a := (0, none)) (.code (.fork (by decide) rfl) trivial)
  have h2 := h1.snoc (a := (0, none)) (.code (.allocLock 0 (by decide)) rfl)
  have h3 := h2.snoc (a := (0, none)) (.code (.allocBusy 0 nofun) trivial)
  have h4 := h3.snoc (a := (0, none)) (.code (.allocNext 0) trivial)
  have h5 := h4.snoc (a := (0, none)) (.code (.allocLock 1 (by decide)) rfl)
  have h6 := h5.snoc (a := (0, some _)) (.code (.allocFound 1 rfl) trivial)
  have h7 := h6.snoc (a := (0, none)) (.code (.forkCopy 1) trivial)
  have h8 := h7.snoc (a := (0, none)) (.code (.forkWait 1) rfl)
  have h9 := h8.snoc (a := (0, some _)) (.code (.forkParent 1) trivial)
  have h10 := h9.snoc (a := (0, none)) (.code (.forkOpen 1) trivial)
  have h11 := h10.snoc (a := (0, none)) (.code (.forkLock 1) rfl)
  have h12 := h11.snoc (a := (0, none)) (.code (.forkReady 1) trivial)
  have h13 := h12.snoc (a := (0, none)) (.code (.forkDone 1) trivial)
  have h14 := h13.snoc (a := (1, none)) (.other (r := ⟨.running, none, false, 0, 2, some 0⟩) rfl rfl
    ⟨.inr (.inl rfl), .inr (.inr rfl), rfl, rfl, rfl, rfl, nofun⟩)
  have h15 := h14.snoc (a := (1, none)) (.code (.exit 7 (by decide) rfl (by decide)) trivial)
  have h16 := h15.snoc (a := (1, none)) (.code (.exitWait 7) rfl)
  have h17 := h16.snoc (a := (1, none)) (.code (.reparentSkip 7 0 (by decide) nofun) trivial)
  have h18 := h17.snoc (a := (1, none)) (.code (.reparentSkip 7 1 (by decide) nofun) trivial)
  have h19 := h18.snoc (a := (1, none)) (.code (.reparentEnd 7 2 (by decide)) trivial)
  have h20 := h19.snoc (a := (1, none))
    (.code (.wakeLock (some 0) 0 (.exit 7) (by decide) (by decide)) rfl)
  have h21 := h20.snoc (a := (1, none)) (.code (.wakeTest (some 0) 0 (.exit 7)) trivial)
  have h22 := h21.snoc (a := (1, none)) (.code (.wakeNext (some 0) 0 (.exit 7)) trivial)
  have h23 := h22.snoc (a := (1, none)) (.code (.wakeSelf (some 0) 1 (.exit 7) rfl) trivial)
  have h24 := h23.snoc (a := (1, none)) (.code (.wakeEnd (some 0) 2 (.exit 7) (by decide)) trivial)
  have h25 := h24.snoc (a := (1, none)) (.code (.exitLock 7) rfl)
  have h26 := h25.snoc (a := (1, some _)) (.code (.exitZombie 7) trivial)
  have h27 := h26.snoc (a := (1, none)) (.code .exitOpen trivial)
  have h28 := h27.snoc (a := (1, none)) (.code .exitSched trivial)
  have h29 := h28.snoc (a := (1, none)) (.drop (.inr rfl) nofun)
  have h30 := h29.snoc (a := (0, none)) (.code (.wait (by decide) rfl) trivial)
  have h31 := h30.snoc (a := (0, none)) (.code .waitLock rfl)
  have h32 := h31.snoc (a := (0, none)) (.code (.waitSkip 0 false (by decide) nofun) trivial)
  have h33 := h32.snoc (a := (0, none)) (.code (.waitChild 1 false (by decide) rfl) rfl)
  have hc (s : State) (hz : (s.proc 1).state = .zombie) (h0 : (s.proc 0).pid = 1)
      (h1 : (s.proc 1).pid = 2) (hx : (s.proc 1).xstate = 7) :
      Code 2 s 0 (.waitChild 1) (.store 1 .freed (.waitLeave 1)) (some (.reaped 1 2 7)) := by
    rw [← h0, ← h1, ← hx]
    exact .waitReap 1 hz
  exact ⟨_, _, _, h33, rfl, rfl, .code (hc _ rfl rfl rfl rfl) trivial⟩

/-- Exit statuses in any order of steps: every status that `kexit` leaves is taken by a `kwait` or
still lies in the table, as often as it was left, and whoever takes it has forked the child, or is
the first process after the one who forked it has exited. -/
theorem statuses_exact (hn : 0 < n) (hr : Run (Step n) .boot tr s) :
    exits tr = reaps tr + s.statuses n ∧
    ∀ p a b status t, Step n s (p, some (.reaped a b status)) t →
      Saw tr (.forked a b) ∨ p = initproc ∧ ∃ x st, Saw tr (.forked x b) ∧ Saw tr (.exited x st) := by
  refine ⟨statuses_run hn hr, ?_⟩
  intro p a b status t hs
  obtain ⟨h, hf⟩ := life_run hn hr
  cases hs with
  | @code p ins ev hc hready =>
    generalize hpc : s.pc p = c at hc
    cases hc with
    | waitReap i hz =>
      obtain ⟨x, hsaw, hx⟩ := forks_run hn hr i p (hf.child p i hpc)
      obtain rfl | ⟨hinit, hleave⟩ := hx
      · exact .inl hsaw
      · obtain ⟨st, hexit⟩ | ⟨q, hh, -⟩ := hleave
        · exact .inr ⟨hinit, x, st, hsaw, hexit⟩
        · -- Whoever is still at it holds `wait_lock`, which the collector has.
          exfalso
          have hq : (s.pc q).waitLock = true := by
            generalize s.pc q = c at hh
            cases c with
            | reparent | wakeup | exitWoke | exitLocked => rfl
            | _ => cases hh
          have hheld := (h.wait q).mpr hq
          rw [(h.wait p).mpr (by rw [hpc]; rfl)] at hheld
          cases hheld
          rw [hpc] at hh
          cases hh

theorem statuses_exact_child : ∃ tr s t, Run (Step 2) .boot tr s ∧
    Step 2 s (0, some (.reaped 1 2 7)) t ∧ (Saw tr (.forked 1 2) ∨ (0 = initproc ∧
      ∃ x st, Saw tr (.forked x 2) ∧ Saw tr (.exited x st))) := by
  obtain ⟨tr, s, t, hr, -, -, hs⟩ := fork_and_exit
  exact ⟨tr, s, t, hr, hs, (statuses_exact (by decide) hr).2 0 1 2 7 t hs⟩

/-- While the pids last, no two processes have the same one, and none exits or is collected
twice. -/
theorem exits_once (hn : 0 < n) (hr : Run (Step n) .boot tr s) (hk : (2 + allocs tr : Int) ≤ intMax) :
    ((exits tr).map Prod.fst).Nodup ∧ ((reaps tr).map Prod.fst).Nodup ∧
    ∀ i j, (s.proc i).state ≠ .unused → (s.proc j).state ≠ .unused →
      (s.proc i).pid = (s.proc j).pid → i = j := by
  have hp := pids_run hn hr hk
  refine ⟨hp.once, ?_, hp.distinct⟩
  refine Multiset.nodup_of_le ?_ hp.once
  rw [statuses_run hn hr, Multiset.map_add]
  exact Multiset.le_add_right _ _

theorem exits_once_child : ∃ tr s, Run (Step 2) .boot tr s ∧ exits tr = {(2, 7)} ∧
    ((exits tr).map Prod.fst).Nodup := by
  obtain ⟨tr, s, t, hr, hk, hex, -⟩ := fork_and_exit
  exact ⟨tr, s, hr, hex, (exits_once (by decide) hr (by rw [hk]; decide)).1⟩

end

end Xv6Labs.Life
