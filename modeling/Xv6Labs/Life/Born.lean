import Xv6Labs.Life.Family

/-! `kkill(0)`. A free slot has pid 0, so `kkill(0)` finds it and marks it killed, and `allocproc`
does not clear the mark. -/
namespace Xv6Labs.Life
open Kit
open Wait (Doze Scan Holder)

/-- The free slots are as `freeproc` leaves them, as far as `kkill` looks at them. -/
def State.Unmarked (s : State) : Prop :=
  ∀ i, (s.proc i).state = .unused → (s.proc i).pid = 0 ∧ (s.proc i).killed = false

/-- The step is not one of `kkill(0)` at a slot. -/
def NotKillZero (s : State) (l : Nat × Option Event) : Prop := ∀ i, s.pc l.1 ≠ .kkill 0 i .taken

section
variable {n : Nat} {s t : State} {p i : Nat} {ins : Instr} {ev : Option Event} {r : Proc}
  {l : Nat × Option Event} {tr : List (Nat × Option Event)}

/-- What a line of the code writes over a free slot, or leaves free. -/
theorem unmarked_code (h : s.Unmarked) (hc : Code n s p (s.pc p) ins ev)
    (hok : ∀ i, s.pc p ≠ .kkill 0 i .taken) (hw : ins.written = some (i, r))
    (hr : r.state = .unused) : r.pid = 0 ∧ r.killed = false := by
  generalize hpc : s.pc p = c at hc
  cases hc with
  | forkFail | waitReap =>
    cases hw
    exact ⟨rfl, rfl⟩
  | forkParent | reparentChild | sleepChan | sleepTidy =>
    cases hw
    exact h _ hr
  | wakeTest c j ret =>
    cases hw
    unfold Proc.wake at hr ⊢
    split at hr
    · cases hr
    · next hno =>
      rw [if_neg hno]
      exact h i hr
  | killHit pid j hpid =>
    cases hw
    have hstate : (s.proc i).state = .unused := by
      unfold Proc.kill at hr
      dsimp only at hr
      split at hr
      · cases hr
      · exact hr
    -- A free slot has pid 0, and that is not what is looked for.
    have hzero := (h i hstate).1
    rw [hpid] at hzero
    rw [hzero] at hpc
    exact absurd hpc (hok i)
  | allocFound | forkReady | exitZombie | sleepState =>
    cases hw
    cases hr
  | _ => cases hw

theorem unmarked_update (h : s.Unmarked) (ht : t.proc = Function.update s.proc p r)
    (hr : r.state = .unused → r.pid = 0 ∧ r.killed = false) : t.Unmarked := by
  intro i hi
  rw [ht] at hi ⊢
  by_cases he : i = p
  · rw [he, Function.update_self] at hi ⊢
    exact hr hi
  · rw [Function.update_of_ne he] at hi ⊢
    exact h i hi

theorem unmarked_step (h : s.Unmarked) (hs : Step n s l t) (hok : NotKillZero s l) :
    t.Unmarked := by
  cases hs with
  | @code p ins ev hc hr =>
    cases hw : ins.written with
    | none =>
      unfold State.Unmarked
      rw [proc_exec_of_none hw]
      exact h
    | some x =>
      exact unmarked_update h (proc_exec_of_some hw) fun hi => unmarked_code h hc hok hw hi
  | pick | drop => exact h
  | run => exact unmarked_update h rfl nofun
  | other hpc hfree hr => exact unmarked_update h rfl fun hi => absurd hi hr.after.ne_unused

theorem unmarked_boot : State.boot.Unmarked := by
  intro i hi
  by_cases he : i = initproc
  · rw [he] at hi
    cases hi
  · rw [State.boot]
    dsimp only
    rw [if_neg he]
    exact ⟨rfl, rfl⟩

/-- The record that `allocproc` takes keeps its mark. -/
theorem allocated_code {pid : Int} (hc : Code n s p (s.pc p) ins (some (.allocated pid))) :
    ∃ i, (s.proc i).state = .unused ∧
      (s.exec p ins).proc i = { s.proc i with pid := pid, state := .used } := by
  generalize s.pc p = c at hc
  cases hc with
  | allocFound i hi => exact ⟨i, hi, Function.update_self ..⟩

/-- As long as nobody calls `kkill(0)` no process is born killed, and one call of it is enough for
one to be: a process that nobody has named is then marked before it has run. -/
theorem born_killed (hn : 2 ≤ n) :
    (∀ tr s, Run (Guarded (Step n) NotKillZero) .boot tr s →
      ∀ {p pid t}, Step n s (p, some (.allocated pid)) t →
        ∃ i, (t.proc i).pid = pid ∧ (t.proc i).state = .used ∧ (t.proc i).killed = false) ∧
    ∃ tr s t pid, Run (Step n) .boot tr s ∧ Step n s (0, some (.allocated pid)) t ∧
      s.nextpid = 2 ∧ (t.proc 1).pid = pid ∧ (t.proc 1).state = .used ∧
      (t.proc 1).killed = true := by
  constructor
  · intro tr s hr p pid t hs
    have h : s.Unmarked := hr.invariant unmarked_boot fun _ _ _ h hs => unmarked_step h hs.1 hs.2
    cases hs with
    | @code p ins ev hc hready =>
      obtain ⟨i, hi, heq⟩ := allocated_code hc
      refine ⟨i, ?_⟩
      rw [heq]
      exact ⟨rfl, rfl, (h i hi).2⟩
  · have h1 := (init_runs n).snoc (a := (0, none)) (.code (.kkill 0 (by omega) rfl) trivial)
    have h2 := h1.snoc (a := (0, none)) (.code (.killLock 0 0 (by omega)) rfl)
    have h3 := h2.snoc (a := (0, none)) (.code (.killMiss 0 0 (by decide)) trivial)
    have h4 := h3.snoc (a := (0, none)) (.code (.killNext 0 0) trivial)
    have h5 := h4.snoc (a := (0, none)) (.code (.killLock 0 1 (by omega)) rfl)
    have h6 := h5.snoc (a := (0, none)) (.code (.killHit 0 1 rfl) trivial)
    have h7 := h6.snoc (a := (0, none)) (.code (.killDone 1) trivial)
    have h8 := h7.snoc (a := (0, none)) (.code (.fork (by omega) rfl) trivial)
    have h9 := h8.snoc (a := (0, none)) (.code (.allocLock 0 (by omega)) rfl)
    have h10 := h9.snoc (a := (0, none)) (.code (.allocBusy 0 nofun) trivial)
    have h11 := h10.snoc (a := (0, none)) (.code (.allocNext 0) trivial)
    have h12 := h11.snoc (a := (0, none)) (.code (.allocLock 1 (by omega)) rfl)
    exact ⟨_, _, _, _, h12, .code (.allocFound 1 rfl) trivial, rfl, rfl, rfl, rfl⟩

/-- The child of a process that has not called `kkill`, and one after `kkill(0)`. -/
theorem born_killed_child :
    (∃ tr s t, Run (Guarded (Step 2) NotKillZero) .boot tr s ∧
      Step 2 s (0, some (.allocated 2)) t ∧ ∃ i, (t.proc i).pid = 2 ∧ (t.proc i).killed = false) ∧
    ∃ tr s t pid, Run (Step 2) .boot tr s ∧ Step 2 s (0, some (.allocated pid)) t ∧
      (t.proc 1).killed = true := by
  obtain ⟨hclean, tr, s, t, pid, hr, hs, -, -, -, hk⟩ := born_killed (le_refl 2)
  refine ⟨?_, tr, s, t, pid, hr, hs, hk⟩
  have h1 : Run (Guarded (Step 2) NotKillZero) .boot [(0, none)]
      (State.boot.setProc 0 { State.boot.proc 0 with state := .running }) :=
    Run.single ⟨.other rfl rfl ⟨.inr (.inl rfl), .inr (.inr rfl), rfl, rfl, rfl, rfl, nofun⟩, nofun⟩
  have h2 := h1.snoc (a := (0, none)) ⟨.code (.fork (by decide) rfl) trivial, nofun⟩
  have h3 := h2.snoc (a := (0, none)) ⟨.code (.allocLock 0 (by decide)) rfl, nofun⟩
  have h4 := h3.snoc (a := (0, none)) ⟨.code (.allocBusy 0 nofun) trivial, nofun⟩
  have h5 := h4.snoc (a := (0, none)) ⟨.code (.allocNext 0) trivial, nofun⟩
  have h6 := h5.snoc (a := (0, none)) ⟨.code (.allocLock 1 (by decide)) rfl, nofun⟩
  obtain ⟨u, hu, hpc, hfree, hnext⟩ : ∃ u, Run (Guarded (Step 2) NotKillZero) .boot _ u ∧
      u.pc 0 = .fork 1 .taken ∧ (u.proc 1).state = .unused ∧ u.nextpid = 2 :=
    ⟨_, h6, rfl, rfl, rfl⟩
  have hcode := Code.allocFound (n := 2) (p := 0) 1 hfree
  rw [← hpc, hnext] at hcode
  have hlast := Step.code hcode trivial
  obtain ⟨i, hpid, -, hkilled⟩ := hclean _ _ hu hlast
  exact ⟨_, _, _, hu, hlast, i, hpid, hkilled⟩

end

end Xv6Labs.Life
