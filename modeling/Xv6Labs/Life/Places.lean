import Xv6Labs.Life.Table

/-! What a place in the code of `kernel/proc.c` says about the locks and about the record of the
process that is there. -/
namespace Xv6Labs.Life
open Kit
open Wait (Doze Scan Holder)

/-- The places with `wait_lock` held. -/
def Pc.waitLock : Pc → Bool
  | .forkWait _ | .forkParent _ | .reparent .. | .wakeup .. | .exitWoke _ | .exitLocked _ => true
  | .exitZombie | .waitScan .. | .waitChild _ | .waitNext _ | .waitLeave _ | .waitKilled => true
  | .waitDone | .sleep .called | .sleep .locked => true
  | _ => false

/-- The `p->lock` that process `p` holds. -/
def Pc.procLock (p : Nat) : Pc → Option Nat
  | .fork i .taken | .fork i .tested | .forkUsed i | .forkFreed i | .forkLock i => some i
  | .forkReady i | .wakeup _ i .taken _ | .wakeup _ i .tested _ => some i
  | .exitLocked _ | .exitZombie | .exitOpen | .waitKilled => some p
  | .waitChild i | .waitNext i | .waitLeave i => some i
  | .sleep .locked | .sleep .unlocked | .sleep .chanSet | .sleep .stateSet | .sleep .resumed
  | .sleep .tidied => some p
  | .kkill _ i .taken | .kkill _ i .tested | .killed i => some i
  | _ => none

def Pc.chan (p : Nat) : Pc → Option Nat
  | .sleep .chanSet | .sleep .stateSet | .sleep .off | .sleep .resumed => some p
  | _ => none

def Pc.StateOk : Pc → ProcState → Prop
  | .out, st => st ≠ .zombie
  | .dead, st => st = .zombie ∨ st = .unused
  | .exitZombie, st | .exitOpen, st => st = .zombie
  | .sleep .stateSet, st => st = .sleeping
  | .sleep .off, st => st = .sleeping ∨ st = .runnable
  | _, st => st = .running

/-- The slot of a child that is not ready yet. -/
def Pc.making : Pc → Option Nat
  | .forkUsed i | .forkCopied i | .forkWait i | .forkParent i | .forkOpen i | .forkLock i => some i
  | _ => none

/-- The child under way has its parent. -/
def Pc.adopted : Pc → Bool
  | .forkParent _ | .forkOpen _ | .forkLock _ => true
  | _ => false

def Instr.next : Instr → Pc
  | .goto c | .acquireWait c | .releaseWait c | .acquire _ c | .release _ c | .store _ _ c
  | .spawn _ _ c | .sched c => c

/-- The order of the locks: a process waits for `wait_lock` only with no lock held, for a
`p->lock` only with no other `p->lock` held, and goes to the scheduler with its own `p->lock`
alone. -/
def Instr.LocksOk (p : Nat) (c : Pc) : Instr → Prop
  | .goto c' | .store _ _ c' | .spawn _ _ c' =>
    c'.waitLock = c.waitLock ∧ c'.procLock p = c.procLock p
  | .acquireWait c' =>
    c.waitLock = false ∧ c'.waitLock = true ∧ c.procLock p = none ∧ c'.procLock p = none
  | .releaseWait c' => c.waitLock = true ∧ c'.waitLock = false ∧ c'.procLock p = c.procLock p
  | .acquire i c' => c'.waitLock = c.waitLock ∧ c.procLock p = none ∧ c'.procLock p = some i
  | .release i c' => c'.waitLock = c.waitLock ∧ c.procLock p = some i ∧ c'.procLock p = none
  | .sched c' =>
    c.waitLock = false ∧ c'.waitLock = false ∧ c.procLock p = some p ∧ c'.procLock p = none

section
variable {n : Nat} {s t : State} {p q i : Nat} {c : Pc} {ins : Instr} {ev : Option Event}
  {r : Proc}

theorem ret_locks (ret : Ret) : ret.pc.waitLock = true ∧ ret.pc.procLock p = none := by
  cases ret with
  | reparent status i => exact ⟨rfl, rfl⟩
  | exit status => exact ⟨rfl, rfl⟩

theorem code_locks (h : Code n s p c ins ev) : ins.LocksOk p c := by
  cases h with
  | wakeEnd c i ret hi => exact ret_locks ret
  | forkWait | exitWait | waitLock | sleepAgain | exitSched | sleepSched =>
    exact ⟨rfl, rfl, rfl, rfl⟩
  | allocLock | allocNext | forkReturn | forkCopy | forkOpen | forkLock | forkDone | exitLock
  | exitOpen | wakeLock | wakeNext | waitChild | waitNext | waitLeave | waitKilled | waitGone
  | waitSleep | waitDone | sleepLock | sleepUnlock | sleepOpen | killLock | killNext | killDone =>
    exact ⟨rfl, rfl, rfl⟩
  | _ => exact ⟨rfl, rfl⟩

/-! The state after an instruction. -/

theorem pc_exec_self (s : State) (p : Nat) (ins : Instr) : (s.exec p ins).pc p = ins.next := by
  cases ins <;> exact Function.update_self ..

/-- The process that an instruction starts anew. -/
def Instr.spawned : Instr → Option Nat
  | .spawn i _ _ => some i
  | _ => none

theorem pc_exec_of_ne (hq : q ≠ p) (hs : ins.spawned ≠ some q) :
    (s.exec p ins).pc q = s.pc q := by
  cases ins with
  | spawn i r c =>
    have hi : q ≠ i := fun he => hs (by rw [he]; rfl)
    exact (Function.update_of_ne hq _ _).trans (Function.update_of_ne hi _ _)
  | _ => exact Function.update_of_ne hq _ _

theorem pc_exec_spawned (hq : q ≠ p) (hs : ins.spawned = some q) : (s.exec p ins).pc q = .out := by
  cases ins with
  | spawn i r c =>
    cases hs
    exact (Function.update_of_ne hq _ _).trans (Function.update_self ..)
  | _ => cases hs

theorem resume_pc (s : State) (p : Nat) : (s.resume p).pc p = .sleep .resumed :=
  Function.update_self ..

theorem resume_pc_of_ne (hq : q ≠ p) : (s.resume p).pc q = s.pc q := Function.update_of_ne hq _ _

theorem resume_proc (s : State) (p : Nat) :
    (s.resume p).proc p = { s.proc p with state := .running } := Function.update_self ..

/-- The record that an instruction writes. -/
def Instr.written : Instr → Option (Nat × Proc)
  | .store i r _ | .spawn i r _ => some (i, r)
  | _ => none

theorem proc_exec_of_none (h : ins.written = none) : (s.exec p ins).proc = s.proc := by
  cases ins with
  | store | spawn => cases h
  | _ => rfl

theorem proc_exec_of_some (h : ins.written = some (i, r)) :
    (s.exec p ins).proc = Function.update s.proc i r := by
  cases ins with
  | store | spawn =>
    cases h
    rfl
  | _ => cases h

end

/-- What holds of a process by itself. -/
structure Local (n : Nat) (s : State) (q : Nat) : Prop where
  lt : (s.proc q).state ≠ .unused → q < n
  chan : (s.proc q).chan = (s.pc q).chan q
  state : (s.pc q).StateOk (s.proc q).state
  slot : ∀ i, s.pc q = .fork i .taken → i < n

/-- Process `p` is at work on the slot `i` of a new child. -/
structure Making (s : State) (p i : Nat) : Prop where
  state : (s.proc i).state = .used
  pc : s.pc i = .out
  parent : (s.proc i).parent = if (s.pc p).adopted then some p else none

structure Places (n : Nat) (s : State) : Prop where
  wait : ∀ q, s.wlock = some q ↔ (s.pc q).waitLock = true
  lock : LocksAgree Holder.proc s.plock fun q => (s.pc q).procLock q
  each : ∀ q, Local n s q
  making : ∀ p i, (s.pc p).making = some i → Making s p i
  maker : ∀ p q i, (s.pc p).making = some i → (s.pc q).making = some i → p = q
  unused : ∀ i, (s.proc i).state = .unused → (s.proc i).parent = none

section
variable {n : Nat} {s t : State} {p q i : Nat} {c : Pc} {ins : Instr} {ev : Option Event}
  {r : Proc}

/-- A slot that is not in use is one where nobody has been, or where a process has ended. -/
theorem stateOk_unused (h : c.StateOk .unused) : c = .out ∨ c = .dead := by
  cases c with
  | out => exact .inl rfl
  | dead => exact .inr rfl
  | sleep d => cases d <;> simp [Pc.StateOk] at h
  | _ => cases h

theorem stateOk_zombie (h : c.StateOk .zombie) : c = .exitZombie ∨ c = .exitOpen ∨ c = .dead := by
  cases c with
  | out => exact absurd rfl h
  | exitZombie => exact .inl rfl
  | exitOpen => exact .inr (.inl rfl)
  | dead => exact .inr (.inr rfl)
  | sleep d => cases d <;> simp [Pc.StateOk] at h
  | _ => cases h

/-- Nobody is at work in a slot that is not in use. -/
theorem Local.unused_rest (h : Local n s q) (hu : (s.proc q).state = .unused) :
    (s.pc q).waitLock = false ∧ (s.pc q).procLock q = none ∧ (s.proc q).chan = none := by
  have hstate := h.state
  rw [hu] at hstate
  rw [h.chan]
  cases stateOk_unused hstate with
  | inl hout =>
    rw [hout]
    exact ⟨rfl, rfl, rfl⟩
  | inr hdead =>
    rw [hdead]
    exact ⟨rfl, rfl, rfl⟩

/-- Only a slot that is not in use is taken. -/
theorem spawned_unused (hc : Code n s p c ins ev) (hs : ins.spawned = some q) :
    (s.proc q).state = .unused := by
  cases hc with
  | allocFound i hi =>
    cases hs
    exact hi
  | _ => cases hs

theorem Alive.ne_unused {st : ProcState} (h : Alive st) : st ≠ .unused := by
  rintro rfl
  revert h
  decide

theorem Alive.ne_used {st : ProcState} (h : Alive st) : st ≠ .used := by
  rintro rfl
  revert h
  decide

theorem Alive.ne_zombie {st : ProcState} (h : Alive st) : st ≠ .zombie := by
  rintro rfl
  revert h
  decide

/-! The locks. -/

theorem wait_code (h : Places n s) (hc : Code n s p (s.pc p) ins ev) (hr : s.Ready ins) (q : Nat) :
    (s.exec p ins).wlock = some q ↔ ((s.exec p ins).pc q).waitLock = true := by
  have hl := code_locks hc
  by_cases hq : q = p
  · subst hq
    rw [pc_exec_self]
    have hold := h.wait q
    cases ins with
    | acquireWait c =>
      rw [show (Instr.acquireWait c).next.waitLock = true from hl.2.1]
      exact ⟨fun _ => rfl, fun _ => rfl⟩
    | releaseWait c =>
      rw [show (Instr.releaseWait c).next.waitLock = false from hl.2.1]
      simp [State.exec, State.setWlock, State.setPc]
    | sched c =>
      rw [hl.1] at hold
      rw [show (Instr.sched c).next.waitLock = false from hl.2.1]
      exact hold
    | _ =>
      rw [← hl.1] at hold
      exact hold
  · by_cases hs : ins.spawned = some q
    · have hrest := (h.each q).unused_rest (spawned_unused hc hs)
      rw [pc_exec_spawned hq hs]
      cases ins with
      | spawn i r c =>
        refine ⟨?_, nofun⟩
        intro hw
        have := (h.wait q).mp hw
        rw [hrest.1] at this
        cases this
      | _ => cases hs
    · rw [pc_exec_of_ne hq hs, ← h.wait q]
      cases ins with
      | acquireWait c =>
        have hfree : s.wlock = none := hr
        rw [hfree]
        exact ⟨fun he => absurd (Option.some.inj he).symm hq, nofun⟩
      | releaseWait c =>
        have hheld : s.wlock = some p := (h.wait p).mpr hl.1
        rw [hheld]
        exact ⟨nofun, fun he => absurd (Option.some.inj he).symm hq⟩
      | _ => exact Iff.rfl

theorem procLock_exec (h : Places n s) (hc : Code n s p (s.pc p) ins ev) :
    (fun q => ((s.exec p ins).pc q).procLock q) =
      Function.update (fun q => (s.pc q).procLock q) p (ins.next.procLock p) := by
  ext1 q
  by_cases hq : q = p
  · subst hq
    rw [pc_exec_self, Function.update_self]
  · rw [Function.update_of_ne hq]
    by_cases hs : ins.spawned = some q
    · rw [pc_exec_spawned hq hs, ((h.each q).unused_rest (spawned_unused hc hs)).2.1]
      rfl
    · rw [pc_exec_of_ne hq hs]

theorem holder_inj : Function.Injective Holder.proc := fun _ _ he => Holder.proc.inj he

theorem lock_code (h : Places n s) (hc : Code n s p (s.pc p) ins ev) (hr : s.Ready ins) :
    LocksAgree Holder.proc (s.exec p ins).plock fun q => ((s.exec p ins).pc q).procLock q := by
  rw [procLock_exec h hc]
  have hl := code_locks hc
  cases ins with
  | acquire i c =>
    rw [show (Instr.acquire i c).next.procLock p = some i from hl.2.2]
    refine h.lock.take holder_inj hl.2.1 ?_
    intro u
    rw [show s.plock i = none from hr]
    simp
  | release i c =>
    rw [show (Instr.release i c).next.procLock p = none from hl.2.2]
    exact h.lock.drop holder_inj hl.2.1 (by simp)
  | sched c =>
    rw [show (Instr.sched c).next.procLock p = none from hl.2.2.2]
    exact h.lock.drop holder_inj hl.2.2.1 (by simp)
  | goto c | store i r c | spawn i r c => exact h.lock.same hl.2.symm
  | acquireWait c => exact h.lock.same (hl.2.2.1.trans hl.2.2.2.symm)
  | releaseWait c => exact h.lock.same hl.2.2.symm

theorem wait_step {l : Nat × Option Event} (h : Places n s) (hs : Step n s l t) (q : Nat) :
    t.wlock = some q ↔ (t.pc q).waitLock = true := by
  cases hs with
  | code hc hr => exact wait_code h hc hr q
  | pick | drop | other => exact h.wait q
  | @run p hpick hstate hpc =>
    by_cases hq : q = p
    · subst hq
      rw [resume_pc]
      have hold := h.wait q
      rw [hpc] at hold
      exact hold
    · rw [resume_pc_of_ne hq]
      exact h.wait q

theorem lock_step {l : Nat × Option Event} (h : Places n s) (hs : Step n s l t) :
    LocksAgree Holder.proc t.plock fun q => (t.pc q).procLock q := by
  cases hs with
  | code hc hr => exact lock_code h hc hr
  | pick hfree => exact h.lock.outside (by simp [hfree]) (by simp)
  | drop hheld =>
    refine h.lock.outside ?_ (by simp)
    intro u
    cases hheld with
    | inl hpick => simp [hpick]
    | inr hback => simp [hback]
  | other => exact h.lock
  | @run p hpick hstate hpc =>
    have hholds : (fun q => ((s.resume p).pc q).procLock q) =
        Function.update (fun q => (s.pc q).procLock q) p (some p) := by
      ext1 q
      by_cases hq : q = p
      · subst hq
        rw [resume_pc, Function.update_self]
        rfl
      · rw [resume_pc_of_ne hq, Function.update_of_ne hq]
    rw [hholds]
    refine h.lock.take holder_inj (by rw [hpc]; rfl) ?_
    intro u
    rw [hpick]
    simp

/-! The records. -/

/-- What a process may find changed in its own record: it was marked killed or made runnable. -/
structure Woken (r r' : Proc) : Prop where
  chan : r'.chan = r.chan
  xstate : r'.xstate = r.xstate
  pid : r'.pid = r.pid
  parent : r'.parent = r.parent
  state : r'.state = r.state ∨ r.state = .sleeping ∧ r'.state = .runnable

theorem woken_wake (r : Proc) (c : Option Nat) : Woken r (r.wake c) := by
  unfold Proc.wake
  split
  · next hr => exact ⟨rfl, rfl, rfl, rfl, .inr ⟨hr.1, rfl⟩⟩
  · exact ⟨rfl, rfl, rfl, rfl, .inl rfl⟩

theorem woken_kill (r : Proc) : Woken r r.kill := by
  refine ⟨rfl, rfl, rfl, rfl, ?_⟩
  unfold Proc.kill
  by_cases hr : r.state = .sleeping
  · exact .inr ⟨hr, if_pos hr⟩
  · exact .inl (if_neg hr)

/-- A change that leaves the family and the life of a process alone. -/
structure Tame (r r' : Proc) : Prop where
  xstate : r'.xstate = r.xstate
  pid : r'.pid = r.pid
  parent : r'.parent = r.parent
  state : r'.state = r.state ∨ Alive r.state ∧ Alive r'.state

theorem Woken.tame {r r' : Proc} (h : Woken r r') : Tame r r' := by
  refine ⟨h.xstate, h.pid, h.parent, ?_⟩
  cases h.state with
  | inl heq => exact .inl heq
  | inr hwoke =>
    rw [hwoke.1, hwoke.2]
    exact .inr (by decide)

/-- Everything that a step of process `p` can do to the record of process `q`, but for taking its
slot. -/
inductive Change (s : State) (p q : Nat) (r : Proc) : Prop
  | wake (hl : (s.pc p).procLock p = some q) (hr : Woken (s.proc q) r)
  | self (hq : q = p) (hr : Tame (s.proc q) r)
  | undo (hpc : s.pc p = .forkUsed q) (hr : r = .freed)
  | adopt (hpc : s.pc p = .forkWait q) (hr : r = { s.proc q with parent := some p })
  | start (hpc : s.pc p = .forkLock q) (hr : r = { s.proc q with state := .runnable })
  | hand (status : Int) (hpc : s.pc p = .reparent status q) (hpar : (s.proc q).parent = some p)
      (hr : r = { s.proc q with parent := some initproc })
  | reap (hpc : s.pc p = .waitChild q) (hz : (s.proc q).state = .zombie) (hr : r = .freed)
  | die (status : Int) (hpc : s.pc p = .exitLocked status) (hq : q = p)
      (hr : r = { s.proc q with xstate := status, state := .zombie })

/-- Process `p` takes the slot `q`. -/
structure Taken (s t : State) (p q : Nat) : Prop where
  ne : q ≠ p
  pc : s.pc p = .fork q .taken
  unused : (s.proc q).state = .unused
  exec : t = s.exec p
    (.spawn q { s.proc q with pid := s.nextpid, state := .used } (.forkUsed q))

theorem Taken.proc (h : Taken s t p q) :
    t.proc q = { s.proc q with pid := s.nextpid, state := .used } := by
  rw [h.exec]
  exact Function.update_self ..

theorem Taken.pc_out (h : Taken s t p q) : t.pc q = .out := by
  rw [h.exec]
  exact pc_exec_spawned h.ne rfl

theorem code_change (h : Local n s p) (hc : Code n s p (s.pc p) ins ev)
    (hw : ins.written = some (q, r)) : Change s p q r ∨ Taken s (s.exec p ins) p q := by
  have hstate := h.state
  generalize hpc : s.pc p = c at hc hstate
  cases hc with
  | allocFound i hi =>
    cases hw
    refine .inr ⟨?_, hpc, hi, rfl⟩
    intro hq
    rw [hq, show (s.proc p).state = .running from hstate] at hi
    cases hi
  | forkFail i =>
    cases hw
    exact .inl (.undo hpc rfl)
  | forkParent i =>
    cases hw
    exact .inl (.adopt hpc rfl)
  | forkReady i =>
    cases hw
    exact .inl (.start hpc rfl)
  | reparentChild status i hi hpar =>
    cases hw
    exact .inl (.hand status hpc hpar rfl)
  | exitZombie status =>
    cases hw
    exact .inl (.die status hpc rfl rfl)
  | wakeTest c i ret =>
    cases hw
    exact .inl (.wake (by rw [hpc]; rfl) (woken_wake _ c))
  | killHit pid i hpid =>
    cases hw
    exact .inl (.wake (by rw [hpc]; rfl) (woken_kill _))
  | waitReap i hz =>
    cases hw
    exact .inl (.reap hpc hz rfl)
  | sleepChan | sleepTidy =>
    cases hw
    exact .inl (.self rfl ⟨rfl, rfl, rfl, .inl rfl⟩)
  | sleepState =>
    cases hw
    exact .inl (.self rfl ⟨rfl, rfl, rfl, .inr ⟨.inr (.inr hstate), .inl rfl⟩⟩)
  | _ => cases hw

/-- A record is unchanged, or changed in one of the ways above. -/
theorem step_change {l : Nat × Option Event} (h : Local n s l.1) (hs : Step n s l t) (q : Nat) :
    t.proc q = s.proc q ∨ Change s l.1 q (t.proc q) ∨ Taken s t l.1 q := by
  cases hs with
  | @code p ins ev hc hr =>
    cases hw : ins.written with
    | none =>
      rw [proc_exec_of_none hw]
      exact .inl rfl
    | some x =>
      obtain ⟨i, r⟩ := x
      by_cases hq : q = i
      · subst hq
        rw [proc_exec_of_some hw, Function.update_self]
        exact .inr (code_change h hc hw)
      · rw [proc_exec_of_some hw]
        exact .inl (Function.update_of_ne hq _ _)
  | pick | drop => exact .inl rfl
  | @run p hpick hstate hpc =>
    by_cases hq : q = p
    · subst hq
      refine .inr (.inl (.self rfl ?_))
      rw [resume_proc]
      exact ⟨rfl, rfl, rfl, .inr ⟨.inr (.inl hstate), .inr (.inr rfl)⟩⟩
    · exact .inl (Function.update_of_ne hq _ _)
  | @other p r hpc hfree hr =>
    by_cases hq : q = p
    · subst hq
      have hself : (s.setProc q r).proc q = r := Function.update_self ..
      rw [hself]
      exact .inr (.inl (.self rfl
        ⟨hr.xstate, hr.pid, hr.parent, .inr ⟨hr.before, hr.after⟩⟩))
    · exact .inl (Function.update_of_ne hq _ _)

/-! Each process for itself. -/

theorem stateOk_woken {r r' : Proc} (hc : c.StateOk r.state) (hw : Woken r r')
    (hno : c.procLock q ≠ some q) : c.StateOk r'.state := by
  cases hw.state with
  | inl heq =>
    rw [heq]
    exact hc
  | inr hwoke =>
    rw [hwoke.1] at hc
    rw [hwoke.2]
    cases c with
    | out => exact nofun
    | dead => cases hc <;> contradiction
    | sleep d =>
      cases d with
      | stateSet => exact absurd rfl hno
      | off => exact .inr rfl
      | _ => cases hc
    | _ => cases hc

/-- Whoever holds the lock of `q` finds `q` without it. -/
theorem Places.not_holding (h : Places n s) (hq : q ≠ p) (hp : (s.pc p).procLock p = some q) :
    (s.pc q).procLock q ≠ some q := by
  intro hown
  exact hq (h.lock.exclusive holder_inj hown hp)

/-- A zombie whose lock another process holds has left the processor. -/
theorem Places.dead_of_zombie (h : Places n s) (hq : q ≠ p) (hp : (s.pc p).procLock p = some q)
    (hz : (s.proc q).state = .zombie) : s.pc q = .dead := by
  have hno := h.not_holding hq hp
  have hstate := (h.each q).state
  rw [hz] at hstate
  obtain hpc | hpc | hpc := stateOk_zombie hstate
  · exact absurd (by rw [hpc]; rfl) hno
  · exact absurd (by rw [hpc]; rfl) hno
  · exact hpc

/-- A place inside the calls and before the end of `kexit` belongs to a live process. -/
theorem alive_of_place (h : Local n s q) (hout : s.pc q ≠ .out) (hz : s.pc q ≠ .exitZombie)
    (ho : s.pc q ≠ .exitOpen) (hd : s.pc q ≠ .dead) : Alive (s.proc q).state := by
  have hstate := h.state
  generalize s.pc q = c at *
  cases c with
  | out => exact absurd rfl hout
  | exitZombie => exact absurd rfl hz
  | exitOpen => exact absurd rfl ho
  | dead => exact absurd rfl hd
  | sleep d =>
    cases d with
    | stateSet => exact .inl hstate
    | off => exact hstate.imp id .inl
    | _ => exact .inr (.inr hstate)
  | _ => exact .inr (.inr hstate)

/-- A process whose record another one changes keeps in step with it. -/
theorem local_change (h : Places n s) (hq : q ≠ p) (hr : Change s p q r) :
    (r.state ≠ .unused → q < n) ∧ r.chan = (s.pc q).chan q ∧ (s.pc q).StateOk r.state := by
  obtain ⟨hlt, hchan, hstate, -⟩ := h.each q
  cases hr with
  | wake hl hw =>
    refine ⟨?_, by rw [hw.chan, hchan], stateOk_woken hstate hw (h.not_holding hq hl)⟩
    intro hne
    apply hlt
    cases hw.state with
    | inl heq => rwa [← heq]
    | inr hwoke => simp [hwoke.1]
  | self he => exact absurd he hq
  | undo hpc hr =>
    have hm := h.making p q (by rw [hpc]; rfl)
    rw [hr, hm.pc]
    exact ⟨fun hne => absurd rfl hne, rfl, nofun⟩
  | start hpc hr =>
    have hm := h.making p q (by rw [hpc]; rfl)
    rw [hm.pc] at hchan
    rw [hr, hm.pc]
    exact ⟨fun _ => hlt (by rw [hm.state]; nofun), hchan, nofun⟩
  | adopt hpc hr =>
    rw [hr]
    exact ⟨hlt, hchan, hstate⟩
  | hand status hpc hpar hr =>
    rw [hr]
    exact ⟨hlt, hchan, hstate⟩
  | reap hpc hz hr =>
    rw [hr, h.dead_of_zombie hq (by rw [hpc]; rfl) hz]
    exact ⟨fun hne => absurd rfl hne, rfl, .inr rfl⟩
  | die status hpc he => exact absurd he hq

/-- Other processes stay where they are, but for a slot that is taken. -/
theorem pc_other {l : Nat × Option Event} (hs : Step n s l t) (hq : q ≠ l.1) :
    t.pc q = s.pc q ∨ Taken s t l.1 q := by
  cases hs with
  | @code p ins ev hc hr =>
    by_cases hsp : ins.spawned = some q
    · right
      generalize hpc : s.pc p = c at hc
      cases hc with
      | allocFound i hi =>
        cases hsp
        exact ⟨hq, hpc, hi, rfl⟩
      | _ => cases hsp
    · exact .inl (pc_exec_of_ne hq hsp)
  | pick | drop | other => exact .inl rfl
  | run => exact .inl (Function.update_of_ne hq _ _)

theorem Taken.local_new (h : Places n s) (ht : Taken s t p q) : Local n t q := by
  have hrest := (h.each q).unused_rest ht.unused
  refine ⟨?_, ?_, ?_, ?_⟩
  · intro _
    exact (h.each p).slot q ht.pc
  · rw [ht.proc, ht.pc_out]
    exact hrest.2.2
  · rw [ht.proc, ht.pc_out]
    exact nofun
  · intro i hi
    rw [ht.pc_out] at hi
    cases hi

theorem local_other {l : Nat × Option Event} (h : Places n s) (hs : Step n s l t) (hq : q ≠ l.1) :
    Local n t q := by
  obtain hsame | hnew := pc_other hs hq
  · obtain heq | hch | hnew := step_change (h.each l.1) hs q
    · obtain ⟨hlt, hchan, hstate, hslot⟩ := h.each q
      exact ⟨by rwa [heq], by rwa [heq, hsame], by rwa [heq, hsame], by rwa [hsame]⟩
    · obtain ⟨hlt, hchan, hstate⟩ := local_change h hq hch
      exact ⟨hlt, by rwa [hsame], by rwa [hsame], by rw [hsame]; exact (h.each q).slot⟩
    · exact hnew.local_new h
  · exact hnew.local_new h

theorem local_mk (hlt : p < n) (hchan : ((s.exec p ins).proc p).chan = ins.next.chan p)
    (hstate : ins.next.StateOk ((s.exec p ins).proc p).state)
    (hslot : ∀ i, ins.next = .fork i .taken → i < n) : Local n (s.exec p ins) p := by
  refine ⟨fun _ => hlt, ?_, ?_, ?_⟩
  · rw [pc_exec_self]
    exact hchan
  · rw [pc_exec_self]
    exact hstate
  · rw [pc_exec_self]
    exact hslot

section Self
variable (h : Places n s)
include h

/-- A process that stores to a record keeps its own state and channel, if the record is another
one or keeps them. -/
theorem local_store {c' : Pc} (hrun : (s.proc p).state = .running) (hchan : (s.proc p).chan = none)
    (hr : i = p → r.chan = (s.proc p).chan ∧ r.state = (s.proc p).state)
    (hc : c'.chan p = none) (hok : c'.StateOk .running) (hslot : ∀ j, c' ≠ .fork j .taken) :
    Local n (s.exec p (.store i r c')) p := by
  have hsame : ((s.exec p (.store i r c')).proc p).chan = (s.proc p).chan ∧
      ((s.exec p (.store i r c')).proc p).state = (s.proc p).state := by
    rw [proc_exec_of_some rfl]
    by_cases hi : i = p
    · subst hi
      rw [Function.update_self]
      exact hr rfl
    · rw [Function.update_of_ne (Ne.symm hi)]
      exact ⟨rfl, rfl⟩
  refine local_mk ((h.each p).lt (by rw [hrun]; nofun)) ?_ ?_ fun j hj => absurd hj (hslot j)
  · rw [hsame.1, hchan]
    exact hc.symm
  · rw [hsame.2, hrun]
    exact hok

/-- A record that is woken while its process runs keeps its state. -/
theorem local_woken {c' : Pc} (hrun : (s.proc p).state = .running) (hchan : (s.proc p).chan = none)
    (hw : Woken (s.proc i) r) (hc : c'.chan p = none) (hok : c'.StateOk .running)
    (hslot : ∀ j, c' ≠ .fork j .taken) : Local n (s.exec p (.store i r c')) p := by
  refine local_store h hrun hchan ?_ hc hok hslot
  intro hi
  subst hi
  refine ⟨hw.chan, ?_⟩
  cases hw.state with
  | inl heq => exact heq
  | inr hwoke =>
    rw [hrun] at hwoke
    cases hwoke.1

theorem local_self_code (hc : Code n s p (s.pc p) ins ev) : Local n (s.exec p ins) p := by
  obtain ⟨hlt, hchan, hstate, -⟩ := h.each p
  have hmaking := h.making p
  generalize s.pc p = c at hc hchan hstate hmaking
  cases hc with
  | fork hp hrun | exit _ hp hrun | wait hp hrun | kkill _ hp hrun =>
    exact local_mk hp hchan hrun nofun
  | allocLock i hi =>
    refine local_mk (hlt (by rw [hstate]; nofun)) hchan hstate ?_
    intro j hj
    cases hj
    exact hi
  | allocFound i hi =>
    have hne : p ≠ i := by
      intro he
      rw [← he, show (s.proc p).state = .running from hstate] at hi
      cases hi
    have hsame : ((s.exec p (.spawn i { s.proc i with pid := s.nextpid, state := .used }
        (.forkUsed i))).proc p) = s.proc p := Function.update_of_ne hne _ _
    exact local_mk (hlt (by rw [hstate]; nofun)) (by rw [hsame]; exact hchan)
      (by rw [hsame]; exact hstate) nofun
  | forkFail i | forkReady i =>
    have hused := (hmaking i rfl).state
    refine local_store h hstate hchan ?_ rfl rfl nofun
    intro hi
    rw [hi, show (s.proc p).state = .running from hstate] at hused
    cases hused
  | forkParent i | reparentChild status i =>
    refine local_store h hstate hchan ?_ rfl rfl nofun
    intro hi
    subst hi
    exact ⟨rfl, rfl⟩
  | waitReap i hz =>
    refine local_store h hstate hchan ?_ rfl rfl nofun
    intro hi
    rw [hi, show (s.proc p).state = .running from hstate] at hz
    cases hz
  | wakeTest c i ret => exact local_woken h hstate hchan (woken_wake _ c) rfl rfl nofun
  | killHit pid i => exact local_woken h hstate hchan (woken_kill _) rfl rfl nofun
  | wakeEnd c i ret =>
    have hp := hlt (by rw [hstate]; nofun)
    cases ret with
    | reparent status j => exact local_mk hp hchan hstate nofun
    | exit status => exact local_mk hp hchan hstate nofun
  | exitZombie status =>
    have hself : ((s.exec p (.store p { s.proc p with xstate := status, state := .zombie }
        .exitZombie)).proc p) = { s.proc p with xstate := status, state := .zombie } :=
      Function.update_self ..
    exact local_mk (hlt (by rw [hstate]; nofun)) (by rw [hself]; exact hchan)
      (by rw [hself]; rfl) nofun
  | sleepChan =>
    have hself : ((s.exec p (.store p { s.proc p with chan := some p }
        (.sleep .chanSet))).proc p) = { s.proc p with chan := some p } := Function.update_self ..
    exact local_mk (hlt (by rw [hstate]; nofun)) (by rw [hself]; rfl)
      (by rw [hself]; exact hstate) nofun
  | sleepState =>
    have hself : ((s.exec p (.store p { s.proc p with state := .sleeping }
        (.sleep .stateSet))).proc p) = { s.proc p with state := .sleeping } :=
      Function.update_self ..
    exact local_mk (hlt (by rw [hstate]; nofun)) (by rw [hself]; exact hchan)
      (by rw [hself]; rfl) nofun
  | sleepTidy =>
    have hself : ((s.exec p (.store p { s.proc p with chan := none }
        (.sleep .tidied))).proc p) = { s.proc p with chan := none } := Function.update_self ..
    exact local_mk (hlt (by rw [hstate]; nofun)) (by rw [hself]; rfl)
      (by rw [hself]; exact hstate) nofun
  | sleepSched => exact local_mk (hlt (by rw [hstate]; nofun)) hchan (.inl hstate) nofun
  | exitOpen => exact local_mk (hlt (by rw [hstate]; nofun)) hchan hstate nofun
  | exitSched => exact local_mk (hlt (by rw [hstate]; nofun)) hchan (.inl hstate) nofun
  | allocEnd | forkReturn | forkDone | waitDone | killEnd | killDone =>
    have hout : Pc.out.StateOk (s.proc p).state := by
      rw [hstate]
      exact nofun
    exact local_mk (hlt (by rw [hstate]; nofun)) hchan hout nofun
  | _ => exact local_mk (hlt (by rw [hstate]; nofun)) hchan hstate nofun

end Self

theorem local_step {l : Nat × Option Event} (h : Places n s) (hs : Step n s l t) (q : Nat) :
    Local n t q := by
  by_cases hq : q = l.1
  · subst hq
    obtain ⟨hlt, hchan, hstate, hslot⟩ := h.each l.1
    cases hs with
    | code hc hr => exact local_self_code h hc
    | pick | drop => exact ⟨hlt, hchan, hstate, hslot⟩
    | @run p hpick hrun hpc =>
      have hold : (s.proc p).chan = (s.pc p).chan p := hchan
      rw [hpc] at hold
      refine ⟨fun _ => hlt (by rw [hrun]; nofun), ?_, ?_, ?_⟩
      · rw [resume_pc, resume_proc]
        exact hold
      · rw [resume_pc, resume_proc]
        rfl
      · rw [resume_pc]
        exact nofun
    | @other p r hpc hfree hr =>
      have hproc : (s.setProc p r).proc p = r := Function.update_self ..
      have hsame : (s.setProc p r).pc p = .out := hpc
      have hold : (s.proc p).chan = (s.pc p).chan p := hchan
      rw [hpc] at hold
      refine ⟨fun _ => hlt hr.before.ne_unused, ?_, ?_, ?_⟩
      · rw [hproc, hsame, hr.chan, hold]
      · rw [hproc, hsame]
        exact hr.after.ne_zombie
      · rw [hsame]
        exact nofun
  · exact local_other h hs hq

/-! New children. -/

/-- A maker is a running process, so it is no slot under way itself. -/
theorem Places.maker_running (h : Places n s) (hm : (s.pc p).making = some i) :
    (s.proc p).state = .running := by
  have hstate := (h.each p).state
  generalize s.pc p = c at *
  cases c with
  | sleep d => cases hm
  | forkUsed | forkCopied | forkWait | forkParent | forkOpen | forkLock => exact hstate
  | _ => cases hm

/-- What others do to a slot under way: no more than mark it killed. -/
theorem Making.change (h : Places n s) (hm : (s.pc q).making = some i) (hq : q ≠ p)
    (hr : Change s p i r) : r.state = .used ∧ r.parent = (s.proc i).parent := by
  have hmk := h.making q i hm
  have hother : (s.pc p).making ≠ some i := fun hp => hq (h.maker q p i hm hp)
  cases hr with
  | wake hl hw =>
    refine ⟨?_, hw.parent⟩
    cases hw.state with
    | inl heq => rw [heq, hmk.state]
    | inr hwoke =>
      rw [hmk.state] at hwoke
      cases hwoke.1
  | self he ht =>
    refine ⟨?_, ht.parent⟩
    cases ht.state with
    | inl heq => rw [heq, hmk.state]
    | inr halive => exact absurd hmk.state halive.1.ne_used
  | undo hpc hr | adopt hpc hr | start hpc hr => exact absurd (by rw [hpc]; rfl) hother
  | hand status hpc hpar hr =>
    have hparent := hmk.parent
    rw [hpar] at hparent
    split at hparent
    · exact absurd (Option.some.inj hparent).symm hq
    · cases hparent
  | reap hpc hz =>
    rw [hmk.state] at hz
    cases hz
  | die status hpc he =>
    have hout := hmk.pc
    rw [he, hpc] at hout
    cases hout

/-- A slot under way stays so while another process takes a step. -/
theorem making_other {l : Nat × Option Event} (h : Places n s) (hs : Step n s l t) (hq : q ≠ l.1)
    (hm : (s.pc q).making = some i) (hpc : t.pc q = s.pc q) : Making t q i := by
  have hmk := h.making q i hm
  have hi : i ≠ l.1 ∨ t.pc i = s.pc i := by
    by_cases hi : i = l.1
    · right
      -- The slot itself takes no step: its state is not that of a process that runs.
      subst hi
      have hused := hmk.state
      have hout := hmk.pc
      cases hs with
      | @code p ins ev hc hr =>
        have hused : (s.proc p).state = .used := hused
        have hout : s.pc p = .out := hout
        rw [hout] at hc
        cases hc with
        | fork _ hrun | exit _ _ hrun | wait _ hrun | kkill _ _ hrun =>
          rw [hused] at hrun
          cases hrun
      | pick | drop | other => rfl
      | @run p hpick hrun hpc' =>
        have hused : (s.proc p).state = .used := hused
        rw [hused] at hrun
        cases hrun
    · exact .inl hi
  have hpci : t.pc i = .out := by
    cases hi with
    | inl hne =>
      cases pc_other hs hne with
      | inl hsame => rw [hsame, hmk.pc]
      | inr htaken => exact htaken.pc_out
    | inr hsame => rw [hsame, hmk.pc]
  obtain heq | hch | htaken := step_change (h.each l.1) hs i
  · exact ⟨by rw [heq, hmk.state], hpci, by rw [heq, hpc, hmk.parent]⟩
  · have hkeep := Making.change h hm hq hch
    exact ⟨hkeep.1, hpci, by rw [hkeep.2, hpc, hmk.parent]⟩
  · have hun := htaken.unused
    rw [hmk.state] at hun
    cases hun

/-- A maker goes on with its slot. -/
theorem making_goes_on (h : Places n s) (hm : (s.pc p).making = some i) (hw : ins.written = none)
    (hsp : ins.spawned = none) (ha : ins.next.adopted = (s.pc p).adopted) :
    Making (s.exec p ins) p i := by
  have hmk := h.making p i hm
  have hne : i ≠ p := by
    intro he
    have hused := hmk.state
    rw [he, h.maker_running hm] at hused
    cases hused
  refine ⟨?_, ?_, ?_⟩
  · rw [proc_exec_of_none hw, hmk.state]
  · rw [pc_exec_of_ne hne (by rw [hsp]; nofun), hmk.pc]
  · rw [proc_exec_of_none hw, pc_exec_self, ha, hmk.parent]

theorem making_self_code (h : Places n s) (hc : Code n s p (s.pc p) ins ev)
    (hm : ins.next.making = some i) : Making (s.exec p ins) p i := by
  have hgo : ∀ {ins : Instr}, (s.pc p).making = some i → ins.written = none → ins.spawned = none →
      ins.next.adopted = (s.pc p).adopted → Making (s.exec p ins) p i := making_goes_on h
  have hstate := (h.each p).state
  generalize hpc : s.pc p = c at hc hgo hstate
  cases hc with
  | allocFound j hj =>
    cases hm
    have hne : i ≠ p := by
      intro he
      rw [he, show (s.proc p).state = .running from hstate] at hj
      cases hj
    have ht : Taken s _ p i := ⟨hne, hpc, hj, rfl⟩
    refine ⟨by rw [ht.proc], ht.pc_out, ?_⟩
    rw [ht.proc, pc_exec_self]
    exact h.unused i hj
  | forkParent j =>
    cases hm
    have hmk := h.making p i (by rw [hpc]; rfl)
    have hne : i ≠ p := by
      intro he
      have hused := hmk.state
      rw [he, show (s.proc p).state = .running from hstate] at hused
      cases hused
    have hself : ((s.exec p (.store i { s.proc i with parent := some p }
        (.forkParent i))).proc i) = { s.proc i with parent := some p } := Function.update_self ..
    refine ⟨by rw [hself]; exact hmk.state, ?_, ?_⟩
    · rw [pc_exec_of_ne hne (by simp [Instr.spawned]), hmk.pc]
    · rw [hself, pc_exec_self]
      rfl
  | forkCopy j | forkWait j | forkOpen j | forkLock j =>
    cases hm
    exact hgo rfl rfl rfl rfl
  | wakeEnd c j ret => cases ret <;> cases hm
  | _ => cases hm

theorem making_step {l : Nat × Option Event} (h : Places n s) (hs : Step n s l t) (q i : Nat)
    (hm : (t.pc q).making = some i) : Making t q i := by
  by_cases hq : q = l.1
  · subst hq
    cases hs with
    | @code p ins ev hc hr =>
      rw [pc_exec_self] at hm
      exact making_self_code h hc hm
    | pick | drop =>
      have hmk := h.making _ i hm
      exact ⟨hmk.state, hmk.pc, hmk.parent⟩
    | @run p hpick hrun hpc =>
      rw [resume_pc] at hm
      cases hm
    | @other p r hpc hfree hr =>
      have hsame : (s.setProc p r).pc p = .out := hpc
      rw [hsame] at hm
      cases hm
  · cases pc_other hs hq with
    | inl hsame =>
      rw [hsame] at hm
      exact making_other h hs hq hm hsame
    | inr htaken =>
      rw [htaken.pc_out] at hm
      cases hm

/-- A step by which a process starts on a slot takes the slot. -/
theorem making_new (hc : Code n s p (s.pc p) ins ev)
    (hm : ins.next.making = some i) : (s.pc p).making = some i ∨ (s.proc i).state = .unused := by
  generalize s.pc p = c at hc
  cases hc with
  | allocFound j hj =>
    cases hm
    exact .inr hj
  | forkParent j | forkCopy j | forkWait j | forkOpen j | forkLock j =>
    cases hm
    exact .inl rfl
  | wakeEnd c j ret => cases ret <;> cases hm
  | _ => cases hm

theorem making_before {l : Nat × Option Event} (hs : Step n s l t) {q : Nat}
    (hm : (t.pc q).making = some i) :
    (s.pc q).making = some i ∨ q = l.1 ∧ (s.proc i).state = .unused := by
  by_cases hq : q = l.1
  · subst hq
    cases hs with
    | @code p ins ev hc hr =>
      rw [pc_exec_self] at hm
      exact (making_new hc hm).imp id fun hu => ⟨rfl, hu⟩
    | pick | drop | other => exact .inl hm
    | @run p hpick hrun hpc =>
      rw [resume_pc] at hm
      cases hm
  · cases pc_other hs hq with
    | inl hsame =>
      rw [hsame] at hm
      exact .inl hm
    | inr htaken =>
      rw [htaken.pc_out] at hm
      cases hm

theorem maker_step {l : Nat × Option Event} (h : Places n s) (hs : Step n s l t) (p q i : Nat)
    (hp : (t.pc p).making = some i) (hq : (t.pc q).making = some i) : p = q := by
  have hused : ∀ {x}, (s.pc x).making = some i → (s.proc i).state ≠ .unused := by
    intro x hx
    rw [(h.making x i hx).state]
    exact nofun
  obtain hp' | ⟨hpl, hpu⟩ := making_before hs hp <;>
    obtain hq' | ⟨hql, hqu⟩ := making_before hs hq
  · exact h.maker p q i hp' hq'
  · exact absurd hqu (hused hp')
  · exact absurd hpu (hused hq')
  · rw [hpl, hql]

theorem unused_step {l : Nat × Option Event} (h : Places n s) (hs : Step n s l t) (i : Nat)
    (hu : (t.proc i).state = .unused) : (t.proc i).parent = none := by
  obtain heq | hch | htaken := step_change (h.each l.1) hs i
  · rw [heq] at hu ⊢
    exact h.unused i hu
  · generalize t.proc i = r at *
    cases hch with
    | wake hl hw =>
      rw [hw.parent]
      cases hw.state with
      | inl heq => exact h.unused i (by rw [← heq, hu])
      | inr hwoke =>
        rw [hwoke.2] at hu
        cases hu
    | self he ht =>
      rw [ht.parent]
      cases ht.state with
      | inl heq => exact h.unused i (by rw [← heq, hu])
      | inr halive => exact absurd hu halive.2.ne_unused
    | undo hpc hr | reap hpc hz hr =>
      rw [hr]
      rfl
    | adopt hpc hr =>
      have hused := (h.making l.1 i (by rw [hpc]; rfl)).state
      rw [hr] at hu
      rw [show (s.proc i).state = .unused from hu] at hused
      cases hused
    | start hpc hr =>
      rw [hr] at hu
      cases hu
    | hand status hpc hpar hr =>
      rw [hr] at hu
      rw [h.unused i hu] at hpar
      cases hpar
    | die status hpc he hr =>
      rw [hr] at hu
      cases hu
  · rw [htaken.proc] at hu
    cases hu

theorem places_step {l : Nat × Option Event} (h : Places n s) (hs : Step n s l t) : Places n t :=
  ⟨wait_step h hs, lock_step h hs, local_step h hs, making_step h hs, maker_step h hs,
    unused_step h hs⟩

theorem places_boot (hn : 0 < n) : Places n .boot where
  wait q := by simp [State.boot, Pc.waitLock]
  lock p l := by simp [State.boot, Pc.procLock]
  each q := by
    by_cases hq : q = initproc
    · refine ⟨fun _ => hq ▸ hn, ?_, ?_, nofun⟩
      · simp [State.boot, hq, Pc.chan]
      · simp [State.boot, hq, Pc.StateOk]
    · refine ⟨?_, ?_, ?_, nofun⟩
      · simp [State.boot, hq, Proc.freed]
      · simp [State.boot, hq, Pc.chan, Proc.freed]
      · simp [State.boot, hq, Pc.StateOk, Proc.freed]
  making p i hm := by cases hm
  maker p q i hm := by cases hm
  unused i hu := by
    by_cases hi : i = initproc
    · simp [State.boot, hi] at hu
    · simp [State.boot, hi, Proc.freed]

end

end Xv6Labs.Life
