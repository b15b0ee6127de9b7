import Xv6Labs.Ipc.Wait

/-! `kkill` against the wait loops of the mailbox calls. `kkill` makes a sleeper runnable once; the
`while` of `mbox_send` and `mbox_recv` then looks at the mailbox only, not at `p->killed`. -/
namespace Xv6Labs.Wait
open Kit Mbox

/-- No process with `killed` set is between the test that sends it to sleep and the moment when
somebody makes it runnable. -/
def State.NoneBound (s : State) : Prop :=
  ∀ p b op d, (s.proc p).killed = true → s.pc p = .sleep b op d → ¬ d.Bound (s.proc p).state

/-- Process `p` holds the lock of a mailbox and is at a test that makes it wait. -/
def State.MustWait (s : State) (p : Nat) : Prop :=
  ∃ b op, (s.pc p = .check b op ∧ (s.box b).used = true ∨ s.pc p = .loop b op) ∧
    op.Waits (s.box b)

/-- What a process may do: it does not make a test that makes it wait with `killed` set, and
`kkill` does not find a process that has made its test and has not taken its `p->lock` in
`sleep`. -/
def Heeds (s : State) (p : Nat) (t : State) : Prop :=
  t.pc p ≠ s.pc p →
    (s.MustWait p → (s.proc p).killed = false) ∧
    ∀ pid i, s.pc p = .kkill pid i .taken → (s.proc i).pid = pid →
      ∀ b op, s.pc i ≠ .sleep b op .called

section
variable {n : Nat} {s t : State} {p q b : Nat} {op : Op}

theorem sendLoop_waits {m : Mailbox} (msg : Int) (h : (Op.send msg).Waits m) :
    m.sendLoop msg = .sleep := if_pos h

theorem recvLoop_waits {m : Mailbox} (h : Op.recv.Waits m) : m.recvLoop = .sleep := if_pos h

theorem again_waits {m : Mailbox} (h : op.Waits m) : op.again m = .sleep := by
  cases op with
  | send msg => simp only [Op.again, sendLoop_waits msg h, Outcome.ofSend]
  | recv => simp only [Op.again, recvLoop_waits h, Outcome.ofRecv]
  | close => cases h

theorem first_waits {m : Mailbox} (hu : m.used = true) (h : op.Waits m) : op.first m = .sleep := by
  cases op with
  | send msg =>
    have hclosed : m.closed = false := h.2
    simp [Op.first, Mailbox.mboxSend, hu, hclosed, sendLoop_waits msg h, Outcome.ofSend]
  | recv => simp [Op.first, Mailbox.mboxRecv, hu, recvLoop_waits h, Outcome.ofRecv]
  | close => cases h

theorem first_sleep_used {m : Mailbox} (h : op.first m = .sleep) : m.used = true := by
  cases op with
  | send msg =>
    have h := ofSend_sleep h
    unfold Mailbox.mboxSend at h
    split at h
    · cases h
    · next hu => simpa using fun hf => hu (.inl hf)
  | recv =>
    have h := ofRecv_sleep h
    unfold Mailbox.mboxRecv at h
    split at h
    · cases h
    · next hu => simpa using hu
  | close =>
    simp only [Op.first] at h
    split at h <;> cases h

/-- The test sends the process to sleep exactly if the mailbox makes it wait. -/
theorem outcome_sleep_iff : (∃ b op, s.outcome p = some (b, op, .sleep)) ↔ s.MustWait p := by
  constructor
  · rintro ⟨b, op, ho⟩
    refine ⟨b, op, ?_, outcome_sleep ho⟩
    cases outcome_cases ho with
    | inl hc => exact .inl ⟨hc.1, first_sleep_used hc.2⟩
    | inr hl => exact .inr hl.1
  · rintro ⟨b, op, hc | hl, hw⟩
    · refine ⟨b, op, ?_⟩
      simp only [State.outcome, hc.1, first_waits hc.2 hw]
    · refine ⟨b, op, ?_⟩
      simp only [State.outcome, hl, again_waits hw]

/-- `killed` of another process is set by the body of `kkill` only. -/
theorem killed_other (hs : Step n s p t) (hq : q ≠ p) (hk : (t.proc q).killed = true) :
    (s.proc q).killed = true ∨
      s.pc p = .kkill (s.proc q).pid q .taken ∧ t.pc p = .killed q ∧
        t.proc q = (s.proc q).kill := by
  cases hs with
  | killHit pid i hpc hpid =>
    by_cases hi : q = i
    · subst hi
      subst hpid
      exact .inr ⟨hpc, setPc_pc_self .., Function.update_self ..⟩
    · left
      have hsame : (s.setProc i (s.proc i).kill).proc q = s.proc q := Function.update_of_ne hi _ _
      change ((s.setProc i (s.proc i).kill).proc q).killed = true at hk
      rwa [hsame] at hk
  | wakeTest b i hpc =>
    left
    by_cases hi : q = i
    · subst hi
      change ((s.setProc q ((s.proc q).wake b)).proc q).killed = true at hk
      unfold Proc.wake at hk
      split at hk <;> simpa [State.setProc] using hk
    · have hsame : (s.setProc i ((s.proc i).wake b)).proc q = s.proc q :=
        Function.update_of_ne hi _ _
      change ((s.setProc i ((s.proc i).wake b)).proc q).killed = true at hk
      rwa [hsame] at hk
  | setChan | setState | clearChan | run | other =>
    left
    simpa [State.setProc, State.setPc, State.setPlock, hq] using hk
  | _ => exact .inl hk

/-- A process on its way to sleep keeps `killed`; it was on this way before the step or has just
made its test. -/
theorem bound_self (hs : Step n s p t) {d : Doze} (hk : (t.proc p).killed = true)
    (hpc : t.pc p = .sleep b op d) (hb : d.Bound (t.proc p).state) :
    (s.proc p).killed = true ∧
      ((∃ d', s.pc p = .sleep b op d' ∧ d'.Bound (s.proc p).state) ∨
        s.outcome p = some (b, op, .sleep) ∧ t.pc p ≠ s.pc p) := by
  cases hs with
  | pick | drop => exact ⟨hk, .inl ⟨d, hpc, hb⟩⟩
  | other r hout =>
    change s.pc p = _ at hpc
    rw [hout] at hpc
    cases hpc
  | wait b' op' ho =>
    rw [setPc_pc_self] at hpc
    cases hpc
    refine ⟨hk, .inr ⟨ho, ?_⟩⟩
    rw [setPc_pc_self]
    cases outcome_cases ho with
    | inl hc => simp [hc.1]
    | inr hl => simp [hl.1]
  | sleepLock b' op' hold | sleepUnlock b' op' hold | sched b' op' hold =>
    rw [setPc_pc_self] at hpc
    cases hpc
    exact ⟨hk, .inl ⟨_, hold, trivial⟩⟩
  | setChan b' op' hold | setState b' op' hold =>
    rw [setPc_pc_self] at hpc
    cases hpc
    refine ⟨?_, .inl ⟨_, hold, trivial⟩⟩
    simpa [State.setProc, State.setPc] using hk
  | run | clearChan | sleepDone =>
    rw [setPc_pc_self] at hpc
    cases hpc
    cases hb
  | _ =>
    rw [setPc_pc_self] at hpc
    cases hpc

theorem noneBound_step (h : Inv n s) (hn : s.NoneBound) (hs : Step n s p t)
    (hheed : Heeds s p t) : t.NoneBound := by
  intro q b op d hk hpc hb
  by_cases hq : q = p
  · subst hq
    obtain ⟨hks, hbefore⟩ := bound_self hs hk hpc hb
    cases hbefore with
    | inl hway =>
      obtain ⟨d', hold, hbound⟩ := hway
      exact hn q b op d' hks hold hbound
    | inr htest =>
      have hfalse := (hheed htest.2).1 (outcome_sleep_iff.mp ⟨b, op, htest.1⟩)
      rw [hks] at hfalse
      cases hfalse
  · rw [pc_other hs hq] at hpc
    cases killed_other hs hq hk with
    | inl hks =>
      refine hn q b op d hks hpc ?_
      cases proc_other hs hq with
      | inl hsame => exact hsame ▸ hb
      | inr hwoke => exact bound_woken hwoke.2 hb
    | inr hkill =>
      obtain ⟨hp, hp', hproc⟩ := hkill
      have hmove : t.pc p ≠ s.pc p := by simp [hp, hp']
      have hcalled := (hheed hmove).2 _ q hp rfl b op
      have hlock := h.not_dozing hq (by rw [hp]; rfl)
      rw [hpc] at hlock hcalled
      rw [hproc] at hb
      cases d with
      | called => exact hcalled rfl
      | off =>
        -- the body of kkill has just made it runnable
        simp only [Doze.Bound, Proc.kill] at hb
        split at hb
        · cases hb
        · next hne => exact hne hb
      | again => exact hb
      | locked | unlocked | chanSet | stateSet | resumed | tidied => exact hlock rfl

/-- A process at a test that makes it wait has one way to go on. -/
theorem step_wait (hs : Step n s p t) (ho : s.outcome p = some (b, op, .sleep))
    (hmove : t.pc p ≠ s.pc p) : t = s.setPc p (.sleep b op .called) := by
  cases hs with
  | wait b' op' ho' =>
    rw [ho] at ho'
    cases ho'
    rfl
  | change b' op' m ho' | fail b' op' ho' =>
    rw [ho] at ho'
    cases ho'
  | pick | drop | other => exact absurd rfl hmove
  | call b' op' _ _ hpc | acquire b' op' hpc | release b' hpc | sleepLock b' op' hpc
  | sleepUnlock b' op' hpc | setChan b' op' hpc | setState b' op' hpc | sched b' op' hpc
  | clearChan b' op' hpc | sleepDone b' op' hpc | reacquire b' op' hpc | run b' op' _ _ hpc
  | wakeEnd b' i hpc | wakeSelf b' i hpc | wakeLock b' i hpc | wakeTest b' i hpc
  | wakeUnlock b' i hpc | kill pid _ hpc | killEnd pid i hpc | killLock pid i hpc
  | killHit pid i hpc | killMiss pid i hpc | killUnlock pid i hpc | killDone i hpc =>
    simp [State.outcome, hpc] at ho

/-- So has a process that is about to compare the pid in `kkill` and will find it equal. -/
theorem step_kill {i : Nat} {pid : Int} (hs : Step n s p t) (hp : s.pc p = .kkill pid i .taken)
    (hpid : (s.proc i).pid = pid) (hmove : t.pc p ≠ s.pc p) :
    t = (s.setProc i (s.proc i).kill).setPc p (.killed i) := by
  cases hs with
  | killHit pid' j hpc =>
    rw [hp] at hpc
    cases hpc
    rfl
  | killMiss pid' j hpc hne =>
    rw [hp] at hpc
    cases hpc
    exact absurd hpid hne
  | wait b' op' ho | change b' op' m ho | fail b' op' ho => simp [State.outcome, hp] at ho
  | pick | drop | other => exact absurd rfl hmove
  | call b' op' _ _ hpc | acquire b' op' hpc | release b' hpc | sleepLock b' op' hpc
  | sleepUnlock b' op' hpc | setChan b' op' hpc | setState b' op' hpc | sched b' op' hpc
  | clearChan b' op' hpc | sleepDone b' op' hpc | reacquire b' op' hpc | run b' op' _ _ hpc
  | wakeEnd b' i hpc | wakeSelf b' i hpc | wakeLock b' i hpc | wakeTest b' i hpc
  | wakeUnlock b' i hpc | kill pid _ hpc | killEnd pid i hpc | killLock pid i hpc
  | killUnlock pid i hpc | killDone i hpc =>
    rw [hp] at hpc
    cases hpc

theorem heeds_of_noneBound (hs : Step n s p t) (hn : t.NoneBound) : Heeds s p t := by
  intro hmove
  refine ⟨?_, ?_⟩
  · intro hwait
    obtain ⟨b, op, ho⟩ := outcome_sleep_iff.mpr hwait
    have ht := step_wait hs ho hmove
    subst ht
    cases hk : (s.proc p).killed with
    | false => rfl
    | true => exact absurd trivial (hn p b op .called hk (setPc_pc_self ..))
  · intro pid i hpc hpid b op hcalled
    have ht := step_kill hs hpc hpid hmove
    subst ht
    have hip : i ≠ p := by
      intro he
      rw [he, hpc] at hcalled
      cases hcalled
    refine hn i b op .called ?_ ?_ trivial
    · simp [State.setProc, State.setPc, Proc.kill]
    · simpa [State.setPc, State.setProc, hip] using hcalled

/-- The step puts process `p` into SLEEPING, from the wait loop of the call `op`. -/
def EntersSleep (s t : State) (p b : Nat) (op : Op) : Prop :=
  (s.proc p).state ≠ .sleeping ∧ t.SleepsIn p b op

theorem woken_awake {r r' : Proc} (hw : Woken r r') (h : r.state ≠ .sleeping) :
    r'.state ≠ .sleeping := by
  cases hw.2 with
  | inl heq =>
    rw [heq]
    exact h
  | inr hwoke => exact absurd hwoke.1 h

/-- A process enters SLEEPING by the store in `sleep`. -/
theorem entersSleep_step (hs : Step n s p t) (he : EntersSleep s t q b op) :
    s.pc q = .sleep b op .chanSet := by
  obtain ⟨hawake, hsleep, -, d, hpc⟩ := he
  by_cases hq : q = p
  · subst hq
    cases hs with
    | setState b' op' hold =>
      rw [setPc_pc_self] at hpc
      cases hpc
      exact hold
    | setChan | clearChan =>
      refine absurd ?_ hawake
      simpa [State.setProc, State.setPc] using hsleep
    | run => simp [State.setProc, State.setPc] at hsleep
    | other r hout =>
      change s.pc q = _ at hpc
      rw [hout] at hpc
      cases hpc
    | wakeTest b' i => exact absurd hsleep (woken_awake (woken_setProc (woken_wake _ b') q) hawake)
    | killHit pid i => exact absurd hsleep (woken_awake (woken_setProc (woken_kill _) q) hawake)
    | _ => exact absurd hsleep hawake
  · cases proc_other hs hq with
    | inl hsame =>
      rw [hsame] at hsleep
      exact absurd hsleep hawake
    | inr hwoke => exact absurd hsleep (woken_awake hwoke.2 hawake)

/-- In every run in which processes heed `killed`, no process that has it set is asleep on a
mailbox, and none enters SLEEPING there by the next step, whatever that is. The next step leaves
no such process on its way to SLEEPING exactly if it heeds `killed`. -/
theorem killed_never_sleeps_iff {s₀ : State} {tr : List Nat} (h : s₀.Quiet)
    (hr : Run (fun s p t => Step n s p t ∧ Heeds s p t) s₀ tr s) :
    (∀ p b op, (s.proc p).killed = true → ¬ s.SleepsIn p b op) ∧
    ∀ q t, Step n s q t →
      (∀ p b op, (s.proc p).killed = true → ¬ EntersSleep s t p b op) ∧
      (t.NoneBound ↔ Heeds s q t) := by
  have hinv : Inv n s ∧ s.NoneBound := by
    refine hr.invariant (P := fun s => Inv n s ∧ s.NoneBound) ⟨inv_quiet h, ?_⟩ ?_
    · intro p b op d _ hpc
      rw [h.out p] at hpc
      cases hpc
    · intro u q v hu hs
      exact ⟨inv_step hu.1 hs.1, noneBound_step hu.1 hu.2 hs.1 hs.2⟩
  obtain ⟨hi, hn⟩ := hinv
  refine ⟨?_, ?_⟩
  · intro p b op hk hsl
    obtain ⟨d, hpc, hb⟩ := bound_of_sleepsIn (hi.each p) hsl
    exact hn p b op d hk hpc hb
  · intro q t hs
    refine ⟨?_, fun ht => heeds_of_noneBound hs ht, fun hh => noneBound_step hi hn hs hh⟩
    intro p b op hk he
    exact hn p b op .chanSet hk (entersSleep_step hs he) trivial

end

/-- Two processes run, with pids 1 and 2; the mailboxes are open and empty. -/
def pair : State := { allRunning with proc := fun i => ⟨.running, none, false, i + 1⟩ }

theorem pair_quiet : pair.Quiet := ⟨fun _ => rfl, fun _ => rfl, fun _ => rfl, fun _ => rfl⟩

theorem heeds_of_alive {s t : State} {p : Nat} (hk : (s.proc p).killed = false)
    (hp : ∀ pid i, s.pc p ≠ .kkill pid i .taken) : Heeds s p t :=
  fun _ => ⟨fun _ => hk, fun pid i hpc => absurd hpc (hp pid i)⟩

/-- What a process does that is not at its test and not in `kkill`. -/
theorem heeds_of_past {s t : State} {p : Nat} (ho : ∀ b op, s.outcome p ≠ some (b, op, .sleep))
    (hp : ∀ pid i, s.pc p ≠ .kkill pid i .taken) : Heeds s p t := by
  intro _
  refine ⟨?_, fun pid i hpc => absurd hpc (hp pid i)⟩
  intro hw
  obtain ⟨b, op, hsleep⟩ := outcome_sleep_iff.mpr hw
  exact absurd hsleep (ho b op)

theorem heeds_of_kill {s t : State} {p i : Nat} {pid : Int} (hpc : s.pc p = .kkill pid i .taken)
    (hi : ∀ b op, s.pc i ≠ .sleep b op .called) : Heeds s p t := by
  intro _
  refine ⟨?_, ?_⟩
  · intro hw
    obtain ⟨b, op, hsleep⟩ := outcome_sleep_iff.mpr hw
    simp [State.outcome, hpc] at hsleep
  · intro pid' i' hpc' _
    rw [hpc] at hpc'
    cases hpc'
    exact hi

/-- Process 0 sleeps in `mbox_recv`, process 1 kills it and then sends a message: process 0 finds
the mailbox filled and leaves the call. -/
theorem killed_never_sleeps_iff_message :
    ∃ tr s, Run (fun s p t => Step 2 s p t ∧ Heeds s p t) pair tr s ∧ (s.proc 0).killed = true ∧
      s.pc 0 = .out ∧ (s.box 0).count = 0 ∧ ¬ s.SleepsIn 0 0 .recv := by
  have h1 : Run (fun s p t => Step 2 s p t ∧ Heeds s p t) pair [0] _ :=
    Run.single ⟨.call 0 .recv (by decide) (by decide) rfl rfl, heeds_of_alive rfl nofun⟩
  have h2 := h1.snoc (a := 0) ⟨.acquire 0 .recv rfl rfl, heeds_of_alive rfl nofun⟩
  have h3 := h2.snoc (a := 0) ⟨.wait 0 .recv rfl, heeds_of_alive rfl nofun⟩
  have h4 := h3.snoc (a := 0) ⟨.sleepLock 0 .recv rfl rfl, heeds_of_alive rfl nofun⟩
  have h5 := h4.snoc (a := 0) ⟨.sleepUnlock 0 .recv rfl, heeds_of_alive rfl nofun⟩
  have h6 := h5.snoc (a := 0) ⟨.setChan 0 .recv rfl, heeds_of_alive rfl nofun⟩
  have h7 := h6.snoc (a := 0) ⟨.setState 0 .recv rfl, heeds_of_alive rfl nofun⟩
  have h8 := h7.snoc (a := 0) ⟨.sched 0 .recv rfl, heeds_of_alive rfl nofun⟩
  have h9 := h8.snoc (a := 0) ⟨.drop (.inr rfl), heeds_of_alive rfl nofun⟩
  -- kkill
  have h10 := h9.snoc (a := 1) ⟨.kill 1 (by decide) rfl rfl, heeds_of_alive rfl nofun⟩
  have h11 := h10.snoc (a := 1) ⟨.killLock 1 0 rfl (by decide) rfl, heeds_of_alive rfl nofun⟩
  have h12 := h11.snoc (a := 1) ⟨.killHit 1 0 rfl rfl, heeds_of_kill rfl nofun⟩
  have h13 := h12.snoc (a := 1) ⟨.killDone 0 rfl, heeds_of_alive rfl nofun⟩
  -- mbox_send
  have h14 := h13.snoc (a := 1)
    ⟨.call 0 (.send 7) (by decide) (by decide) rfl rfl, heeds_of_alive rfl nofun⟩
  have h15 := h14.snoc (a := 1) ⟨.acquire 0 (.send 7) rfl rfl, heeds_of_alive rfl nofun⟩
  have h16 := h15.snoc (a := 1) ⟨.change 0 (.send 7) _ rfl, heeds_of_alive rfl nofun⟩
  have h17 := h16.snoc (a := 1)
    ⟨.wakeLock 0 0 rfl (by decide) (by decide) rfl, heeds_of_alive rfl nofun⟩
  have h18 := h17.snoc (a := 1) ⟨.wakeTest 0 0 rfl, heeds_of_alive rfl nofun⟩
  have h19 := h18.snoc (a := 1) ⟨.wakeUnlock 0 0 rfl, heeds_of_alive rfl nofun⟩
  have h20 := h19.snoc (a := 1) ⟨.wakeSelf 0 1 rfl rfl, heeds_of_alive rfl nofun⟩
  have h21 := h20.snoc (a := 1) ⟨.wakeEnd 0 2 rfl (by decide), heeds_of_alive rfl nofun⟩
  have h22 := h21.snoc (a := 1) ⟨.release 0 rfl, heeds_of_alive rfl nofun⟩
  -- back in mbox_recv
  have h23 := h22.snoc (a := 0) ⟨.pick rfl, heeds_of_past nofun nofun⟩
  have h24 := h23.snoc (a := 0) ⟨.run 0 .recv rfl rfl rfl, heeds_of_past nofun nofun⟩
  have h25 := h24.snoc (a := 0) ⟨.clearChan 0 .recv rfl, heeds_of_past nofun nofun⟩
  have h26 := h25.snoc (a := 0) ⟨.sleepDone 0 .recv rfl, heeds_of_past nofun nofun⟩
  have h27 := h26.snoc (a := 0) ⟨.reacquire 0 .recv rfl rfl, heeds_of_past nofun nofun⟩
  have h28 := h27.snoc (a := 0) ⟨.change 0 .recv _ rfl, heeds_of_past nofun nofun⟩
  have h29 := h28.snoc (a := 0) ⟨.wakeSelf 0 0 rfl rfl, heeds_of_past nofun nofun⟩
  have h30 := h29.snoc (a := 0)
    ⟨.wakeLock 0 1 rfl (by decide) (by decide) rfl, heeds_of_past nofun nofun⟩
  have h31 := h30.snoc (a := 0) ⟨.wakeTest 0 1 rfl, heeds_of_past nofun nofun⟩
  have h32 := h31.snoc (a := 0) ⟨.wakeUnlock 0 1 rfl, heeds_of_past nofun nofun⟩
  have h33 := h32.snoc (a := 0) ⟨.wakeEnd 0 2 rfl (by decide), heeds_of_past nofun nofun⟩
  have hr := h33.snoc (a := 0) ⟨.release 0 rfl, heeds_of_past nofun nofun⟩
  exact ⟨_, _, hr, rfl, rfl, rfl, (killed_never_sleeps_iff pair_quiet hr).1 0 0 .recv rfl⟩

/-- Process 0 sleeps in `mbox_recv`, process 1 kills it, and process 0 finds the mailbox still
empty and enters SLEEPING again. -/
theorem killed_receiver_sleeps_again : ∃ tr s t, Run (Step 2) pair tr s ∧
    (s.proc 0).killed = true ∧ Step 2 s 0 t ∧ EntersSleep s t 0 0 .recv := by
  have h1 : Run (Step 2) pair [0] _ :=
    Run.single (.call 0 .recv (by decide) (by decide) rfl rfl)
  have h2 := h1.snoc (a := 0) (.acquire 0 .recv rfl rfl)
  have h3 := h2.snoc (a := 0) (.wait 0 .recv rfl)
  have h4 := h3.snoc (a := 0) (.sleepLock 0 .recv rfl rfl)
  have h5 := h4.snoc (a := 0) (.sleepUnlock 0 .recv rfl)
  have h6 := h5.snoc (a := 0) (.setChan 0 .recv rfl)
  have h7 := h6.snoc (a := 0) (.setState 0 .recv rfl)
  have h8 := h7.snoc (a := 0) (.sched 0 .recv rfl)
  have h9 := h8.snoc (a := 0) (.drop (.inr rfl))
  have h10 := h9.snoc (a := 1) (.kill 1 (by decide) rfl rfl)
  have h11 := h10.snoc (a := 1) (.killLock 1 0 rfl (by decide) rfl)
  have h12 := h11.snoc (a := 1) (.killHit 1 0 rfl rfl)
  have h13 := h12.snoc (a := 1) (.killDone 0 rfl)
  have h14 := h13.snoc (a := 0) (.pick rfl)
  have h15 := h14.snoc (a := 0) (.run 0 .recv rfl rfl rfl)
  have h16 := h15.snoc (a := 0) (.clearChan 0 .recv rfl)
  have h17 := h16.snoc (a := 0) (.sleepDone 0 .recv rfl)
  have h18 := h17.snoc (a := 0) (.reacquire 0 .recv rfl rfl)
  have h19 := h18.snoc (a := 0) (.wait 0 .recv rfl)
  have h20 := h19.snoc (a := 0) (.sleepLock 0 .recv rfl rfl)
  have h21 := h20.snoc (a := 0) (.sleepUnlock 0 .recv rfl)
  have hr := h21.snoc (a := 0) (.setChan 0 .recv rfl)
  refine ⟨_, _, _, hr, rfl, .setState 0 .recv rfl, ?_, rfl, rfl, .stateSet, rfl⟩
  exact fun hsl => nomatch hsl

end Xv6Labs.Wait
