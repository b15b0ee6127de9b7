import Xv6Labs.Life.Family

/-! The locks of the process table: no lock operation of `kfork`, `kexit`, `kwait` and `kkill` hits
one of the panics in `acquire`, `release` and `sched`, and every lock that is held can be given up
in a bounded number of steps. -/
namespace Xv6Labs.Life
open Kit
open Wait (Doze Scan Holder)

/-- What `acquire`, `release` and `sched` test before they panic. -/
def Instr.NoPanic (s : State) (p : Nat) : Instr → Prop
  | .acquireWait _ => s.wlock ≠ some p
  | .acquire i _ => s.plock i ≠ some (.proc p)
  | .releaseWait _ => s.wlock = some p
  | .release i _ => s.plock i = some (.proc p)
  | .sched _ => s.plock p = some (.proc p) ∧ s.wlock ≠ some p ∧
      (∀ i, s.plock i = some (.proc p) → i = p) ∧ (s.proc p).state ≠ .running
  | _ => True

/-- The most steps before a process gives up its `p->lock`. -/
def Pc.hold : Pc → Nat
  | .sleep .locked => 4
  | .fork _ .taken | .exitLocked _ | .sleep .unlocked => 3
  | .forkUsed _ | .forkLock _ | .wakeup _ _ .taken _ | .exitZombie | .waitChild _ | .sleep .chanSet
  | .sleep .resumed | .kkill _ _ .taken => 2
  | _ => 1

/-- The most steps of a `wakeup` that is at process `i`. -/
def Scan.rest (n i : Nat) : Scan → Nat
  | .next => 3 * (n - i) + 1
  | .taken => 3 * (n - (i+1)) + 3
  | .tested => 3 * (n - (i+1)) + 2

/-- The most steps of `reparent` and what follows, from process `i` on. -/
def reparentRest (n i : Nat) : Nat := (n - i) * (3 * n + 2) + (3 * n + 5)

def Ret.rest (n : Nat) : Ret → Nat
  | .reparent _ i => reparentRest n i
  | .exit _ => 3

/-- The most steps before a process gives up `wait_lock`. -/
def Pc.rest (n : Nat) : Pc → Nat
  | .reparent _ i => reparentRest n i
  | .wakeup _ i k ret => Scan.rest n i k + ret.rest n
  | .exitWoke _ | .waitKilled => 3
  | .forkWait _ | .exitLocked _ | .waitLeave _ | .sleep .called => 2
  | .waitScan i _ => 3 * (n - i) + 4
  | .waitChild i => 3 * (n - (i+1)) + 6
  | .waitNext i => 3 * (n - (i+1)) + 5
  | _ => 1

/-- The `p->lock` that process `p` takes next, if it takes one. -/
def Pc.asks (n p : Nat) : Pc → Nat
  | .fork i _ | .forkOpen i | .wakeup _ i _ _ | .kkill _ i _ => i
  | .waitScan i _ => if n ≤ i then p else i
  | _ => p

section
variable {n : Nat} {s t : State} {p q i : Nat} {c : Pc} {ins : Instr} {ev : Option Event}
  {l : Nat × Option Event}

theorem sched_not_running (h : Local n s p) {c' : Pc} (hc : Code n s p (s.pc p) (.sched c') ev) :
    (s.proc p).state ≠ .running := by
  have hstate := h.state
  generalize s.pc p = c at hc hstate
  cases hc with
  | exitSched | sleepSched =>
    rw [hstate]
    exact nofun

theorem no_panic (h : Places n s) (hc : Code n s p (s.pc p) ins ev) : ins.NoPanic s p := by
  have hl := code_locks hc
  have hw := h.wait p
  have hp := h.lock p
  cases ins with
  | goto | store | spawn => trivial
  | acquireWait c' =>
    rw [hl.1] at hw
    intro hheld
    cases hw.mp hheld
  | releaseWait c' => exact hw.mpr hl.1
  | acquire i c' =>
    intro hheld
    have hown : (s.pc p).procLock p = some i := (hp i).mp hheld
    rw [hl.2.1] at hown
    cases hown
  | release i c' => exact (hp i).mpr hl.2.1
  | sched c' =>
    rw [hl.1] at hw
    refine ⟨(hp p).mpr hl.2.2.1, ?_, ?_, sched_not_running (h.each p) hc⟩
    · intro hheld
      cases hw.mp hheld
    intro i hheld
    have hown : (s.pc p).procLock p = some i := (hp i).mp hheld
    rw [hl.2.2.1] at hown
    exact (Option.some.inj hown).symm

/-! Whoever holds a lock has a next line to go to. -/

theorem code_exists (h : c.waitLock = true ∨ c.procLock p ≠ none) :
    ∃ ins ev, Code n s p c ins ev := by
  cases c with
  | fork i k =>
    cases k with
    | next => simp [Pc.waitLock, Pc.procLock] at h
    | taken =>
      by_cases hu : (s.proc i).state = .unused
      · exact ⟨_, _, .allocFound i hu⟩
      · exact ⟨_, _, .allocBusy i hu⟩
    | tested => exact ⟨_, _, .allocNext i⟩
  | forkUsed i => exact ⟨_, _, .forkCopy i⟩
  | forkFreed i => exact ⟨_, _, .forkReturn i⟩
  | forkWait i => exact ⟨_, _, .forkParent i⟩
  | forkParent i => exact ⟨_, _, .forkOpen i⟩
  | forkLock i => exact ⟨_, _, .forkReady i⟩
  | forkReady i => exact ⟨_, _, .forkDone i⟩
  | reparent status i =>
    by_cases hi : n ≤ i
    · exact ⟨_, _, .reparentEnd status i hi⟩
    · by_cases hpar : (s.proc i).parent = some p
      · exact ⟨_, _, .reparentChild status i (by omega) hpar⟩
      · exact ⟨_, _, .reparentSkip status i (by omega) hpar⟩
  | wakeup c i k ret =>
    cases k with
    | next =>
      by_cases hi : n ≤ i
      · exact ⟨_, _, .wakeEnd c i ret hi⟩
      · by_cases hp : i = p
        · exact ⟨_, _, .wakeSelf c i ret hp⟩
        · exact ⟨_, _, .wakeLock c i ret (by omega) hp⟩
    | taken => exact ⟨_, _, .wakeTest c i ret⟩
    | tested => exact ⟨_, _, .wakeNext c i ret⟩
  | exitWoke status => exact ⟨_, _, .exitLock status⟩
  | exitLocked status => exact ⟨_, _, .exitZombie status⟩
  | exitZombie => exact ⟨_, _, .exitOpen⟩
  | exitOpen => exact ⟨_, _, .exitSched⟩
  | waitScan i k =>
    by_cases hi : n ≤ i
    · cases k with
      | false => exact ⟨_, _, .waitAlone i hi⟩
      | true => exact ⟨_, _, .waitKilled i hi⟩
    · by_cases hpar : (s.proc i).parent = some p
      · exact ⟨_, _, .waitChild i k (by omega) hpar⟩
      · exact ⟨_, _, .waitSkip i k (by omega) hpar⟩
  | waitChild i =>
    by_cases hz : (s.proc i).state = .zombie
    · exact ⟨_, _, .waitReap i hz⟩
    · exact ⟨_, _, .waitAlive i hz⟩
  | waitNext i => exact ⟨_, _, .waitNext i⟩
  | waitLeave i => exact ⟨_, _, .waitLeave i⟩
  | waitKilled =>
    cases hk : (s.proc p).killed with
    | true => exact ⟨_, _, .waitGone hk⟩
    | false => exact ⟨_, _, .waitSleep hk⟩
  | waitDone => exact ⟨_, _, .waitDone⟩
  | sleep d =>
    cases d with
    | called => exact ⟨_, _, .sleepLock⟩
    | locked => exact ⟨_, _, .sleepUnlock⟩
    | unlocked => exact ⟨_, _, .sleepChan⟩
    | chanSet => exact ⟨_, _, .sleepState⟩
    | stateSet => exact ⟨_, _, .sleepSched⟩
    | resumed => exact ⟨_, _, .sleepTidy⟩
    | tidied => exact ⟨_, _, .sleepOpen⟩
    | off | again => simp [Pc.waitLock, Pc.procLock] at h
  | kkill pid i k =>
    cases k with
    | next => simp [Pc.waitLock, Pc.procLock] at h
    | taken =>
      by_cases hpid : (s.proc i).pid = pid
      · exact ⟨_, _, .killHit pid i hpid⟩
      · exact ⟨_, _, .killMiss pid i hpid⟩
    | tested => exact ⟨_, _, .killNext pid i⟩
  | killed i => exact ⟨_, _, .killDone i⟩
  | out | forkCopied | forkOpen | exit | dead | wait => simp [Pc.waitLock, Pc.procLock] at h

theorem hold_code (hc : Code n s p c ins ev) (hl : c.procLock p ≠ none) :
    ins.next.procLock p = none ∨ ins.next.hold < c.hold := by
  cases hc <;> simp_all [Pc.procLock, Instr.next, Pc.hold]

theorem reparentRest_succ (hi : i < n) :
    reparentRest n i = reparentRest n (i+1) + (3 * n + 2) := by
  have hsub : n - i = n - (i+1) + 1 := by omega
  unfold reparentRest
  rw [hsub, Nat.succ_mul]
  omega

theorem rest_code (hp : p < n) (hc : Code n s p c ins ev) (hl : c.waitLock = true) :
    ins.next.waitLock = false ∨ ins.next.rest n < c.rest n := by
  cases hc with
  | reparentEnd status i hi =>
    right
    simp only [Instr.next, Pc.rest, Scan.rest, Ret.rest, reparentRest]
    omega
  | reparentSkip status i hi =>
    right
    simp only [Instr.next, Pc.rest, reparentRest_succ hi]
    omega
  | reparentChild status i hi =>
    right
    simp only [Instr.next, Pc.rest, Scan.rest, Ret.rest, reparentRest_succ hi]
    omega
  | wakeEnd c i ret hi =>
    right
    cases ret <;> simp only [Instr.next, Ret.pc, Pc.rest, Scan.rest, Ret.rest] <;> omega
  | wakeSelf c i ret hi | wakeLock c i ret hi =>
    right
    simp only [Instr.next, Pc.rest, Scan.rest]
    omega
  | wakeTest | wakeNext =>
    right
    simp only [Instr.next, Pc.rest, Scan.rest]
    omega
  | waitSkip i k hi | waitChild i k hi | waitKilled i hi | waitAlone i hi =>
    right
    simp only [Instr.next, Pc.rest]
    omega
  | waitAlive | waitNext | waitReap | waitCopyout =>
    right
    simp only [Instr.next, Pc.rest]
    omega
  | exitLock | exitZombie | forkParent | waitLeave | waitGone | waitSleep | sleepLock =>
    exact .inr (by simp [Instr.next, Pc.rest])
  | forkOpen | exitOpen | waitDone | sleepUnlock => exact .inl rfl
  | _ => cases hl

/-! A `p->lock` is given up by steps of its holder alone. -/

/-- Others stay at a place with `wait_lock` held. -/
theorem pc_waiting (h : Places n s) (hs : Step n s l t) (hp : p ≠ l.1)
    (hw : (s.pc p).waitLock = true) : t.pc p = s.pc p := by
  cases pc_other hs hp with
  | inl hsame => exact hsame
  | inr htaken =>
    have hrest := (h.each p).unused_rest htaken.unused
    rw [hw] at hrest
    cases hrest.1

/-- Who can give up the lock of process `i`: the process that has it, or the scheduler that works
for process `i`. -/
def State.holder (s : State) (i : Nat) : Nat :=
  match s.plock i with
  | some (.proc q) => q
  | _ => i

/-- The lock of process `i` is free after at most `k` steps of `q`, and if process `p` has
`wait_lock` it stays where it is. -/
def FreedIn (n : Nat) (s : State) (p i q k : Nat) : Prop :=
  ∃ tr t, Run (Step n) s tr t ∧ Places n t ∧ t.plock i = none ∧ tr.length ≤ k ∧
    (∀ l ∈ tr, l.1 = q) ∧ ((s.pc p).waitLock = true → t.pc p = s.pc p)

theorem FreedIn.step {k : Nat} (hs : Step n s (q, ev) t)
    (hp : (s.pc p).waitLock = true → t.pc p = s.pc p) (ht : FreedIn n t p i q k) :
    FreedIn n s p i q (k+1) := by
  obtain ⟨tr, u, hr, hu, hfree, hlen, hall, hpc⟩ := ht
  refine ⟨(q, ev) :: tr, u, ?_, hu, hfree, by simpa using hlen, ?_, ?_⟩
  · simpa using (Run.single hs).append hr
  · intro l hl
    cases List.mem_cons.mp hl with
    | inl he => rw [he]
    | inr hmem => exact hall l hmem
  · intro hw
    have hsame := hp hw
    rw [hpc (by rw [hsame]; exact hw), hsame]

theorem freed_now (h : Places n s) (hfree : s.plock i = none) (p q k : Nat) :
    FreedIn n s p i q k := ⟨[], s, .nil, h, hfree, Nat.zero_le k, nofun, fun _ => rfl⟩

theorem ready_of_procLock (hc : Code n s p c ins ev) (hl : c.procLock p ≠ none) : s.Ready ins := by
  have hlocks := code_locks hc
  cases ins with
  | acquireWait => exact absurd hlocks.2.2.1 hl
  | acquire => exact absurd hlocks.2.1 hl
  | _ => trivial

/-- A process with a `p->lock` keeps it, releases it, or hands its own to the scheduler. -/
theorem procLock_code (hc : Code n s q (s.pc q) ins ev) (hl : (s.pc q).procLock q = some i) :
    ins.next.procLock q = some i ∨ (s.exec q ins).plock i = none ∨
      i = q ∧ (s.exec q ins).plock i = some .back := by
  have hlocks := code_locks hc
  cases ins with
  | goto | store | spawn => exact .inl (hlocks.2.trans hl)
  | releaseWait => exact .inl (hlocks.2.2.trans hl)
  | acquireWait => cases hl.symm.trans hlocks.2.2.1
  | acquire => cases hl.symm.trans hlocks.2.1
  | release j c' =>
    cases hl.symm.trans hlocks.2.1
    exact .inr (.inl (Function.update_self ..))
  | sched c' =>
    cases hl.symm.trans hlocks.2.2.1
    exact .inr (.inr ⟨rfl, Function.update_self ..⟩)

/-- Nobody takes `wait_lock` with a `p->lock` held. -/
theorem unlocked_code (hc : Code n s p c ins ev) (hl : c.procLock p ≠ none)
    (hw : c.waitLock = false) : ins.next.waitLock = false := by
  have hlocks := code_locks hc
  cases ins with
  | acquireWait => exact absurd hlocks.2.2.1 hl
  | releaseWait | sched => exact hlocks.2.1
  | _ => exact hlocks.1.trans hw

theorem hold_pos (c : Pc) : 0 < c.hold := by
  unfold Pc.hold
  split <;> decide

theorem hold_le (c : Pc) : c.hold ≤ 4 := by
  unfold Pc.hold
  split <;> decide

theorem freed_by_drop (h : Places n s) (hheld : s.plock i = some .pick ∨ s.plock i = some .back)
    (hrun : s.plock i = some .pick → ¬ ((s.proc i).state = .runnable ∧ s.pc i = .sleep .off))
    (p k : Nat) : FreedIn n s p i i (k+1) := by
  have hs : Step n s (i, none) (s.setPlock i none) := .drop hheld hrun
  exact .step hs (fun _ => rfl) (freed_now (places_step h hs) (Function.update_self ..) p i k)

/-- The steps of the holder, by induction on how many there are left. -/
theorem freed_by_holder {k : Nat} (h : Places n s) (hl : (s.pc q).procLock q = some i)
    (hk : (s.pc q).hold ≤ k) (hp : (s.pc p).waitLock = true → p ≠ q) :
    FreedIn n s p i q (k+1) := by
  induction k generalizing s with
  | zero => exact absurd hk (Nat.not_le.mpr (hold_pos _))
  | succ k ih =>
    have hsome : (s.pc q).procLock q ≠ none := by rw [hl]; nofun
    obtain ⟨ins, ev, hc⟩ := code_exists (n := n) (s := s) (.inr hsome)
    have hs : Step n s (q, ev) (s.exec q ins) := .code hc (ready_of_procLock hc hsome)
    have ht := places_step h hs
    refine FreedIn.step hs (fun hw => pc_waiting h hs (hp hw) hw) ?_
    obtain hkeep | hfree | ⟨rfl, hback⟩ := procLock_code hc hl
    · have hlt := (hold_code hc hsome).resolve_left (by rw [hkeep]; nofun)
      refine ih ht (by rw [pc_exec_self]; exact hkeep) (by rw [pc_exec_self]; omega) ?_
      rintro hw rfl
      rw [pc_exec_self] at hw
      have hwp : (s.pc p).waitLock = false := by
        rw [← Bool.not_eq_true]
        exact fun hwp => hp hwp rfl
      rw [unlocked_code hc hsome hwp] at hw
      cases hw
    · exact freed_now ht hfree p q _
    · exact freed_by_drop ht (.inr hback) (by rw [hback]; nofun) p k

/-- Any `p->lock` that `p` does not hold itself can be freed in six steps of its holder. -/
theorem freed (h : Places n s) (hp : (s.pc p).procLock p = some i → (s.pc p).waitLock = false) :
    FreedIn n s p i (s.holder i) 6 := by
  unfold State.holder
  cases hl : s.plock i with
  | none => exact freed_now h hl p i 6
  | some x =>
    cases x with
    | proc q =>
      have hq := (h.lock q i).mp hl
      refine freed_by_holder h hq ((hold_le _).trans (by decide)) ?_
      rintro hw rfl
      rw [hp hq] at hw
      cases hw
    | back => exact freed_by_drop h (.inr hl) (by rw [hl]; nofun) p 5
    | pick =>
      by_cases hrun : (s.proc i).state = .runnable ∧ s.pc i = .sleep .off
      · -- The process goes on in `sleep` and lets go of its lock there.
        have hs : Step n s (i, none) (s.resume i) := .run hl hrun.1 hrun.2
        have hoff (hw : (s.pc p).waitLock = true) : p ≠ i := by
          rintro rfl
          rw [hrun.2] at hw
          cases hw
        refine .step hs (fun hw => resume_pc_of_ne (hoff hw)) ?_
        refine freed_by_holder (q := i) (places_step h hs) (by rw [resume_pc]; rfl)
          (hold_le _) ?_
        rintro hw rfl
        rw [resume_pc] at hw
        cases hw
      · exact freed_by_drop h (.inl hl) (fun _ => hrun) p 5

/-! `wait_lock` is given up by its holder, with the `p->lock`s it asks for freed on the way. -/

theorem asks_code {c' : Pc} (hc : Code n s p c (.acquire i c') ev) : i = c.asks n p := by
  cases hc with
  | waitChild i k hi => exact (if_neg (Nat.not_le.mpr hi)).symm
  | waitKilled i hi => exact (if_pos hi).symm
  | _ => rfl

theorem rest_pos (n : Nat) (c : Pc) : 0 < c.rest n := by
  cases c with
  | wakeup c i k ret =>
    cases k <;> simp only [Pc.rest, Scan.rest] <;> omega
  | sleep d => cases d <;> exact Nat.succ_pos _
  | _ => exact Nat.succ_pos _

/-- After the lock that it asks for is freed, the holder of `wait_lock` can take its step. -/
theorem wait_ready (h : Places n s) (hw : (s.pc p).waitLock = true) :
    ∃ tr t ins ev, Run (Step n) s tr t ∧ Places n t ∧ tr.length ≤ 6 ∧ t.pc p = s.pc p ∧
      Code n t p (t.pc p) ins ev ∧ t.Ready ins := by
  cases hl : (s.pc p).procLock p with
  | some i =>
    have hsome : (s.pc p).procLock p ≠ none := by rw [hl]; nofun
    obtain ⟨ins, ev, hc⟩ := code_exists (n := n) (s := s) (p := p) (.inl hw)
    exact ⟨[], s, ins, ev, .nil, h, Nat.zero_le _, rfl, hc, ready_of_procLock hc hsome⟩
  | none =>
    obtain ⟨tr, t, hr, ht, hfree, hlen, -, hpc⟩ :=
      freed (p := p) (i := (s.pc p).asks n p) h (by rw [hl]; nofun)
    have hsame := hpc hw
    obtain ⟨ins, ev, hc⟩ := code_exists (n := n) (s := t) (c := t.pc p) (p := p)
      (.inl (by rw [hsame]; exact hw))
    refine ⟨tr, t, ins, ev, hr, ht, hlen, hsame, hc, ?_⟩
    cases ins with
    | acquire i c' =>
      rw [← hsame, ← asks_code hc] at hfree
      exact hfree
    | acquireWait c' =>
      have hlocks := (code_locks hc).1
      rw [hsame, hw] at hlocks
      cases hlocks
    | _ => trivial

theorem wait_freed {k : Nat} (h : Places n s) (hw : (s.pc p).waitLock = true)
    (hk : (s.pc p).rest n ≤ k) :
    ∃ tr t, Run (Step n) s tr t ∧ t.wlock = none ∧ tr.length ≤ 7 * k := by
  induction k generalizing s with
  | zero => exact absurd hk (Nat.not_le.mpr (rest_pos _ _))
  | succ k ih =>
    obtain ⟨tr, t, ins, ev, hr, ht, hlen, hsame, hc, hready⟩ := wait_ready h hw
    have hs : Step n t (p, ev) (t.exec p ins) := .code hc hready
    have hlt : p < n := by
      refine (h.each p).lt ?_
      intro hu
      have hrest := (h.each p).unused_rest hu
      rw [hw] at hrest
      cases hrest.1
    rw [← hsame] at hw hk
    cases hnext : ins.next.waitLock with
    | true =>
      have hless := (rest_code hlt hc hw).resolve_left (by rw [hnext]; nofun)
      obtain ⟨tr', u, hr', hu, hlen'⟩ := ih (places_step ht hs)
        (by rw [pc_exec_self]; exact hnext) (by rw [pc_exec_self]; omega)
      refine ⟨tr ++ [(p, ev)] ++ tr', u, (hr.snoc hs).append hr', hu, ?_⟩
      simp only [List.length_append, List.length_singleton]
      omega
    | false =>
      refine ⟨tr ++ [(p, ev)], t.exec p ins, hr.snoc hs, ?_, ?_⟩
      · have hlocks := code_locks hc
        cases ins with
        | releaseWait => rfl
        | acquireWait => cases hnext.symm.trans hlocks.2.1
        | sched => cases hw.symm.trans hlocks.1
        | _ => cases hnext.symm.trans (hlocks.1.trans hw)
      · simp only [List.length_append, List.length_singleton]
        omega

theorem reparentRest_le (n i : Nat) : reparentRest n i ≤ n * (3 * n + 2) + (3 * n + 5) :=
  Nat.add_le_add_right (Nat.mul_le_mul_right _ (Nat.sub_le n i)) _

theorem rest_le (n : Nat) (c : Pc) : c.rest n ≤ n * (3 * n + 2) + (6 * n + 8) := by
  cases c with
  | reparent status i =>
    have := reparentRest_le n i
    simp only [Pc.rest]
    omega
  | wakeup c i k ret =>
    have hret : ret.rest n ≤ n * (3 * n + 2) + (3 * n + 5) := by
      cases ret with
      | reparent status i => exact reparentRest_le n i
      | exit status =>
        simp only [Ret.rest]
        omega
    cases k <;> simp only [Pc.rest, Scan.rest] <;> omega
  | sleep d => cases d <;> simp only [Pc.rest] <;> omega
  | _ => simp only [Pc.rest]; omega

variable {tr : List (Nat × Option Event)}

/-- In every state that `kfork`, `kexit`, `kwait` and `kkill` can reach, the next lock operation of
a process hits none of the panics of `acquire`, `release` and `sched`. -/
theorem locks_no_panic (hn : 0 < n) (hr : Run (Step n) .boot tr s)
    (hc : Code n s p (s.pc p) ins ev) : ins.NoPanic s p := no_panic (life_run hn hr).1 hc

/-- The first process may take `wait_lock` in `kwait`. -/
theorem locks_no_panic_wait : ∃ tr s, Run (Step 2) .boot tr s ∧ s.wlock ≠ some 0 := by
  have hr := (init_runs 2).snoc (a := (0, none)) (.code (.wait (by decide) rfl) trivial)
  exact ⟨_, _, hr, locks_no_panic (by decide) hr (p := 0) .waitLock⟩

/-- No deadlock: in every state that can be reached, each `p->lock` can be freed in six steps of its
holder and `wait_lock` in a number of steps that depends on the size of the table only. -/
theorem locks_freed (hn : 0 < n) (hr : Run (Step n) .boot tr s) :
    (∀ i, ∃ tr' t, Run (Step n) s tr' t ∧ t.plock i = none ∧ tr'.length ≤ 6 ∧
      ∀ l ∈ tr', l.1 = s.holder i) ∧
    ∃ tr' t, Run (Step n) s tr' t ∧ t.wlock = none ∧
      tr'.length ≤ 7 * (n * (3 * n + 2) + (6 * n + 8)) := by
  have h := (life_run hn hr).1
  constructor
  · intro i
    -- Slot `n` is outside of the table, and nobody is at work there.
    have hout : (s.proc n).state = .unused := by
      by_contra hu
      exact absurd ((h.each n).lt hu) (Nat.lt_irrefl n)
    have hnone := ((h.each n).unused_rest hout).2.1
    obtain ⟨tr', t, hr', -, hfree, hlen, hall, -⟩ :=
      freed (p := n) (i := i) h (by rw [hnone]; nofun)
    exact ⟨tr', t, hr', hfree, hlen, hall⟩
  · cases hw : s.wlock with
    | none => exact ⟨[], s, .nil, hw, Nat.zero_le _⟩
    | some p => exact wait_freed h ((h.wait p).mp hw) (rest_le n _)

/-- A parent sleeps in `kwait`; its lock is with the scheduler and can be freed. -/
theorem locks_freed_sleeper : ∃ tr s, Run (Step 2) .boot tr s ∧ s.plock 0 = some .back ∧
    ∃ tr' t, Run (Step 2) s tr' t ∧ t.plock 0 = none ∧ tr'.length ≤ 6 ∧
      ∀ l ∈ tr', l.1 = s.holder 0 := by
  obtain ⟨tr, s, hr, hback, -⟩ := fork_and_wait
  exact ⟨tr, s, hr, hback, (locks_freed (by decide) hr).1 0⟩

end

end Xv6Labs.Life
