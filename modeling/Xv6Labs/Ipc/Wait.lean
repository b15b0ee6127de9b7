import Xv6Labs.Kit.Threads
import Xv6Labs.Sched.Proc
import Xv6Labs.Ipc.Mbox

/-! `sleep`, `wakeup` and `kkill` (`kernel/proc.c`) under the mailbox calls, one lock operation
or one store at a time; the tests and stores that a call makes on its mailbox, with the lock of the
mailbox held, are one step. A process that is interrupted or waits for a lock just takes no step. -/
namespace Xv6Labs.Wait
open Kit Mbox

inductive Op where
  | send (msg : Int)
  | recv
  | close

/-- How the code goes on from the tests of a call: into `sleep`, to `wakeup` after a change of
the mailbox, or to the release of the lock. -/
inductive Outcome where
  | sleep
  | change (b : Mailbox)
  | fail

def Outcome.ofSend : Section Bool → Outcome
  | .sleep => .sleep
  | .ret true b => .change b
  | .ret false _ => .fail

def Outcome.ofRecv : Section (Option Int) → Outcome
  | .sleep => .sleep
  | .ret (some _) b => .change b
  | .ret none _ => .fail

/-- A call from its `acquire` on. -/
def Op.first (b : Mailbox) : Op → Outcome
  | .send msg => .ofSend (b.mboxSend msg)
  | .recv => .ofRecv b.mboxRecv
  | .close => if b.used = false then .fail else .change { b with closed := true }

/-- A call from its `while` on, after `sleep` has returned. -/
def Op.again (b : Mailbox) : Op → Outcome
  | .send msg => .ofSend (b.sendLoop msg)
  | .recv => .ofRecv b.recvLoop
  | .close => .fail

/-- What the `while` of the call waits for to end. -/
def Op.Waits (b : Mailbox) : Op → Prop
  | .send _ => b.count = mboxCap ∧ b.closed = false
  | .recv => b.count = 0 ∧ b.closed = false
  | .close => False

/-- Where a process is: outside the calls, before and after the `acquire` of the mailbox lock,
back at the `while`, in `sleep`, in `wakeup` at process `i`, before the last `release`, in
`kkill` at process `i`, and there after a match. -/
inductive Pc where
  | out
  | enter (b : Nat) (op : Op)
  | check (b : Nat) (op : Op)
  | loop (b : Nat) (op : Op)
  | sleep (b : Nat) (op : Op) (d : Doze)
  | wakeup (b i : Nat) (k : Scan)
  | leave (b : Nat)
  | kkill (pid : Int) (i : Nat) (k : Scan)
  | killed (i : Nat)

structure State where
  box : Nat → Mailbox
  lock : Nat → Option Nat
  plock : Nat → Option Holder
  proc : Nat → Proc
  pc : Nat → Pc

namespace State

def setBox (s : State) (b : Nat) (m : Mailbox) : State := { s with box := Function.update s.box b m }
def setLock (s : State) (b : Nat) (h : Option Nat) : State :=
  { s with lock := Function.update s.lock b h }
def setPlock (s : State) (p : Nat) (h : Option Holder) : State :=
  { s with plock := Function.update s.plock p h }
def setProc (s : State) (p : Nat) (r : Proc) : State := { s with proc := Function.update s.proc p r }
def setPc (s : State) (p : Nat) (c : Pc) : State := { s with pc := Function.update s.pc p c }

end State

/-- The tests that process `p` is about to make with the mailbox lock held. -/
def State.outcome (s : State) (p : Nat) : Option (Nat × Op × Outcome) :=
  match s.pc p with
  | .check b op => some (b, op, op.first (s.box b))
  | .loop b op => some (b, op, op.again (s.box b))
  | _ => none

/-- The steps of process `p` of `n`, and of the schedulers on it. What happens to a process
outside the mailbox calls is left open (`other`), but it does not sleep on a mailbox. -/
inductive Step (n : Nat) (s : State) (p : Nat) : State → Prop
  | call (b op) (hp : p < n) (hb : b < maxMbox) (hpc : s.pc p = .out)
      (hrun : (s.proc p).state = .running) : Step n s p (s.setPc p (.enter b op))
  | acquire (b op) (hpc : s.pc p = .enter b op) (hfree : s.lock b = none) :
      Step n s p ((s.setLock b (some p)).setPc p (.check b op))
  | wait (b op) (ho : s.outcome p = some (b, op, .sleep)) :
      Step n s p (s.setPc p (.sleep b op .called))
  | change (b op m) (ho : s.outcome p = some (b, op, .change m)) :
      Step n s p ((s.setBox b m).setPc p (.wakeup b 0 .next))
  | fail (b op) (ho : s.outcome p = some (b, op, .fail)) : Step n s p (s.setPc p (.leave b))
  | release (b) (hpc : s.pc p = .leave b) : Step n s p ((s.setLock b none).setPc p .out)
  -- sleep
  | sleepLock (b op) (hpc : s.pc p = .sleep b op .called) (hfree : s.plock p = none) :
      Step n s p ((s.setPlock p (some (.proc p))).setPc p (.sleep b op .locked))
  | sleepUnlock (b op) (hpc : s.pc p = .sleep b op .locked) :
      Step n s p ((s.setLock b none).setPc p (.sleep b op .unlocked))
  | setChan (b op) (hpc : s.pc p = .sleep b op .unlocked) :
      Step n s p ((s.setProc p { s.proc p with chan := some b }).setPc p (.sleep b op .chanSet))
  | setState (b op) (hpc : s.pc p = .sleep b op .chanSet) :
      Step n s p ((s.setProc p { s.proc p with state := .sleeping }).setPc p
        (.sleep b op .stateSet))
  | sched (b op) (hpc : s.pc p = .sleep b op .stateSet) :
      Step n s p ((s.setPlock p (some .back)).setPc p (.sleep b op .off))
  | clearChan (b op) (hpc : s.pc p = .sleep b op .resumed) :
      Step n s p ((s.setProc p { s.proc p with chan := none }).setPc p (.sleep b op .tidied))
  | sleepDone (b op) (hpc : s.pc p = .sleep b op .tidied) :
      Step n s p ((s.setPlock p none).setPc p (.sleep b op .again))
  | reacquire (b op) (hpc : s.pc p = .sleep b op .again) (hfree : s.lock b = none) :
      Step n s p ((s.setLock b (some p)).setPc p (.loop b op))
  -- scheduler
  | pick (hfree : s.plock p = none) : Step n s p (s.setPlock p (some .pick))
  | run (b op) (hpick : s.plock p = some .pick) (hstate : (s.proc p).state = .runnable)
      (hpc : s.pc p = .sleep b op .off) :
      Step n s p (((s.setPlock p (some (.proc p))).setProc p
        { s.proc p with state := .running }).setPc p (.sleep b op .resumed))
  | drop (hheld : s.plock p = some .pick ∨ s.plock p = some .back) : Step n s p (s.setPlock p none)
  -- wakeup
  | wakeEnd (b i) (hpc : s.pc p = .wakeup b i .next) (hi : n ≤ i) : Step n s p (s.setPc p (.leave b))
  | wakeSelf (b i) (hpc : s.pc p = .wakeup b i .next) (hi : i = p) :
      Step n s p (s.setPc p (.wakeup b (i+1) .next))
  | wakeLock (b i) (hpc : s.pc p = .wakeup b i .next) (hi : i < n) (hne : i ≠ p)
      (hfree : s.plock i = none) :
      Step n s p ((s.setPlock i (some (.proc p))).setPc p (.wakeup b i .taken))
  | wakeTest (b i) (hpc : s.pc p = .wakeup b i .taken) :
      Step n s p ((s.setProc i ((s.proc i).wake b)).setPc p (.wakeup b i .tested))
  | wakeUnlock (b i) (hpc : s.pc p = .wakeup b i .tested) :
      Step n s p ((s.setPlock i none).setPc p (.wakeup b (i+1) .next))
  -- kkill
  | kill (pid) (hp : p < n) (hpc : s.pc p = .out) (hrun : (s.proc p).state = .running) :
      Step n s p (s.setPc p (.kkill pid 0 .next))
  | killEnd (pid i) (hpc : s.pc p = .kkill pid i .next) (hi : n ≤ i) : Step n s p (s.setPc p .out)
  | killLock (pid i) (hpc : s.pc p = .kkill pid i .next) (hi : i < n) (hfree : s.plock i = none) :
      Step n s p ((s.setPlock i (some (.proc p))).setPc p (.kkill pid i .taken))
  | killHit (pid i) (hpc : s.pc p = .kkill pid i .taken) (hpid : (s.proc i).pid = pid) :
      Step n s p ((s.setProc i (s.proc i).kill).setPc p (.killed i))
  | killMiss (pid i) (hpc : s.pc p = .kkill pid i .taken) (hpid : (s.proc i).pid ≠ pid) :
      Step n s p (s.setPc p (.kkill pid i .tested))
  | killUnlock (pid i) (hpc : s.pc p = .kkill pid i .tested) :
      Step n s p ((s.setPlock i none).setPc p (.kkill pid (i+1) .next))
  | killDone (i) (hpc : s.pc p = .killed i) : Step n s p ((s.setPlock i none).setPc p .out)
  -- the rest of the kernel
  | other (r) (hpc : s.pc p = .out) (hfree : s.plock p = none) (hr : r.chan = none) :
      Step n s p (s.setProc p r)

/-- Nobody is in a mailbox call, and no lock is held. The mailboxes and the processes are any. -/
structure State.Quiet (s : State) : Prop where
  out : ∀ p, s.pc p = .out
  lock : ∀ b, s.lock b = none
  plock : ∀ p, s.plock p = none
  chan : ∀ p, (s.proc p).chan = none

/-! What a place in the code says about the locks and about the process. -/

def Pc.boxLock : Pc → Option Nat
  | .check b _ | .loop b _ | .sleep b _ .called | .sleep b _ .locked => some b
  | .wakeup b _ _ | .leave b => some b
  | _ => none

def Pc.procLock (p : Nat) : Pc → Option Nat
  | .sleep _ _ .locked | .sleep _ _ .unlocked | .sleep _ _ .chanSet | .sleep _ _ .stateSet
  | .sleep _ _ .resumed | .sleep _ _ .tidied => some p
  | .wakeup _ i .taken | .wakeup _ i .tested => some i
  | .kkill _ i .taken | .kkill _ i .tested | .killed i => some i
  | _ => none

def Pc.chan : Pc → Option Nat
  | .sleep b _ .chanSet | .sleep b _ .stateSet | .sleep b _ .off | .sleep b _ .resumed => some b
  | _ => none

def Pc.StateOk : Pc → ProcState → Prop
  | .out, _ => True
  | .sleep _ _ .stateSet, st => st = .sleeping
  | .sleep _ _ .off, st => st = .sleeping ∨ st = .runnable
  | _, st => st = .running

/-- From the call of `sleep` until somebody makes the process runnable. -/
def Doze.Bound : Doze → ProcState → Prop
  | .off, st => st = .sleeping
  | .called, _ | .locked, _ | .unlocked, _ | .chanSet, _ | .stateSet, _ => True
  | _, _ => False

/-- A scan that is at process `i` has process `q` still ahead. -/
def Scan.Ahead : Scan → Nat → Nat → Prop
  | .tested, i, q => i < q
  | _, i, q => i ≤ q

/-- Process `q` has to sleep in `op`, or the holder of the mailbox lock will still wake it. -/
def State.Covered (s : State) (q b : Nat) (op : Op) : Prop :=
  op.Waits (s.box b) ∨ ∃ r i k, s.pc r = .wakeup b i k ∧ k.Ahead i q

structure Local (n : Nat) (s : State) (q : Nat) : Prop where
  lt : s.pc q ≠ .out → q < n
  chan : (s.proc q).chan = (s.pc q).chan
  state : (s.pc q).StateOk (s.proc q).state

structure Inv (n : Nat) (s : State) : Prop where
  box : LocksAgree id s.lock fun q => (s.pc q).boxLock
  proc : LocksAgree Holder.proc s.plock fun q => (s.pc q).procLock q
  each : ∀ q, Local n s q
  covered : ∀ q b op d, s.pc q = .sleep b op d → d.Bound (s.proc q).state → s.Covered q b op

section
variable {n : Nat} {s t : State} {p q b : Nat} {op : Op} {c : Pc} {o : Outcome}

theorem outcome_cases (h : s.outcome p = some (b, op, o)) :
    s.pc p = .check b op ∧ op.first (s.box b) = o ∨
      s.pc p = .loop b op ∧ op.again (s.box b) = o := by
  unfold State.outcome at h
  split at h
  · next hpc =>
    cases h
    exact .inl ⟨hpc, rfl⟩
  · next hpc =>
    cases h
    exact .inr ⟨hpc, rfl⟩
  · cases h

theorem sendLoop_sleep {m : Mailbox} {msg : Int} (h : m.sendLoop msg = .sleep) :
    m.count = mboxCap ∧ m.closed = false := by
  unfold Mailbox.sendLoop at h
  split at h
  · next hc => exact hc
  · split at h <;> cases h

theorem recvLoop_sleep {m : Mailbox} (h : m.recvLoop = .sleep) :
    m.count = 0 ∧ m.closed = false := by
  unfold Mailbox.recvLoop at h
  split at h
  · next hc => exact hc
  · split at h <;> cases h

theorem ofSend_sleep {r : Section Bool} (h : Outcome.ofSend r = .sleep) : r = .sleep := by
  cases r with
  | sleep => rfl
  | ret a b => cases a <;> cases h

theorem ofRecv_sleep {r : Section (Option Int)} (h : Outcome.ofRecv r = .sleep) : r = .sleep := by
  cases r with
  | sleep => rfl
  | ret a b => cases a <;> cases h

theorem again_sleep {m : Mailbox} (h : op.again m = .sleep) : op.Waits m := by
  cases op with
  | send msg => exact sendLoop_sleep (ofSend_sleep h)
  | recv => exact recvLoop_sleep (ofRecv_sleep h)
  | close => cases h

theorem first_sleep {m : Mailbox} (h : op.first m = .sleep) : op.Waits m := by
  cases op with
  | send msg =>
    have h := ofSend_sleep h
    unfold Mailbox.mboxSend at h
    split at h
    · cases h
    · exact sendLoop_sleep h
  | recv =>
    have h := ofRecv_sleep h
    unfold Mailbox.mboxRecv at h
    split at h
    · cases h
    · exact recvLoop_sleep h
  | close =>
    simp only [Op.first] at h
    split at h <;> cases h

/-- A call enters `sleep` only if it has to. -/
theorem outcome_sleep (h : s.outcome p = some (b, op, .sleep)) : op.Waits (s.box b) := by
  cases outcome_cases h with
  | inl hc => exact first_sleep hc.2
  | inr hl => exact again_sleep hl.2

theorem outcome_boxLock (h : s.outcome p = some (b, op, o)) : (s.pc p).boxLock = some b := by
  cases outcome_cases h with
  | inl hc =>
    rw [hc.1]
    rfl
  | inr hl =>
    rw [hl.1]
    rfl

theorem outcome_procLock (h : s.outcome p = some (b, op, o)) : (s.pc p).procLock p = none := by
  cases outcome_cases h with
  | inl hc =>
    rw [hc.1]
    rfl
  | inr hl =>
    rw [hl.1]
    rfl

theorem outcome_not_wakeup {b' i : Nat} {k : Scan} (h : s.outcome p = some (b, op, o)) :
    s.pc p ≠ .wakeup b' i k := by
  cases outcome_cases h with
  | inl hc => simp [hc.1]
  | inr hl => simp [hl.1]

/-! The locks. -/

theorem boxLock_setPc (s : State) (p : Nat) (c : Pc) : (fun q => ((s.setPc p c).pc q).boxLock) =
    Function.update (fun q => (s.pc q).boxLock) p c.boxLock := by
  ext1 q
  by_cases hq : q = p
  · subst hq
    simp [State.setPc]
  · simp [State.setPc, hq]

theorem procLock_setPc (s : State) (p : Nat) (c : Pc) :
    (fun q => ((s.setPc p c).pc q).procLock q) =
      Function.update (fun q => (s.pc q).procLock q) p (c.procLock p) := by
  ext1 q
  by_cases hq : q = p
  · subst hq
    simp [State.setPc]
  · simp [State.setPc, hq]

section
variable {u : State} (h : Inv n s) (hl : u.lock = s.lock) (hpl : u.plock = s.plock)
  (hu : u.pc = s.pc)
include h hu

include hl in
theorem box_same (hc : (s.pc p).boxLock = c.boxLock) :
    LocksAgree id (u.setPc p c).lock fun q => ((u.setPc p c).pc q).boxLock := by
  rw [boxLock_setPc, hu]
  change LocksAgree id u.lock _
  rw [hl]
  exact h.box.same hc

theorem box_take (hl : u.lock = Function.update s.lock b (some p))
    (hfree : s.lock b = none) (hp : (s.pc p).boxLock = none) (hc : c.boxLock = some b) :
    LocksAgree id (u.setPc p c).lock fun q => ((u.setPc p c).pc q).boxLock := by
  rw [boxLock_setPc, hu, hc]
  change LocksAgree id u.lock _
  rw [hl]
  refine h.box.take Function.injective_id hp ?_
  intro r
  rw [hfree]
  simp

theorem box_drop (hl : u.lock = Function.update s.lock b none)
    (hp : (s.pc p).boxLock = some b) (hc : c.boxLock = none) :
    LocksAgree id (u.setPc p c).lock fun q => ((u.setPc p c).pc q).boxLock := by
  rw [boxLock_setPc, hu, hc]
  change LocksAgree id u.lock _
  rw [hl]
  exact h.box.drop Function.injective_id hp (by simp)

include hpl in
theorem proc_same (hc : (s.pc p).procLock p = c.procLock p) :
    LocksAgree Holder.proc (u.setPc p c).plock fun q => ((u.setPc p c).pc q).procLock q := by
  rw [procLock_setPc, hu]
  change LocksAgree Holder.proc u.plock _
  rw [hpl]
  exact h.proc.same hc

theorem proc_take {i : Nat} (hl : u.plock = Function.update s.plock i (some (.proc p)))
    (hfree : s.plock i = none ∨ s.plock i = some .pick) (hp : (s.pc p).procLock p = none)
    (hc : c.procLock p = some i) :
    LocksAgree Holder.proc (u.setPc p c).plock fun q => ((u.setPc p c).pc q).procLock q := by
  rw [procLock_setPc, hu, hc]
  change LocksAgree Holder.proc u.plock _
  rw [hl]
  refine h.proc.take (fun _ _ he => Holder.proc.inj he) hp ?_
  intro r
  cases hfree with
  | inl hnone =>
    rw [hnone]
    simp
  | inr hpick =>
    rw [hpick]
    simp

theorem proc_drop {i : Nat} {x : Option Holder} (hx : x = none ∨ x = some .back)
    (hl : u.plock = Function.update s.plock i x) (hp : (s.pc p).procLock p = some i)
    (hc : c.procLock p = none) :
    LocksAgree Holder.proc (u.setPc p c).plock fun q => ((u.setPc p c).pc q).procLock q := by
  rw [procLock_setPc, hu, hc]
  change LocksAgree Holder.proc u.plock _
  rw [hl]
  refine h.proc.drop (fun _ _ he => Holder.proc.inj he) hp ?_
  intro r
  cases hx with
  | inl hnone =>
    rw [hnone]
    simp
  | inr hback =>
    rw [hback]
    simp

end

theorem box_step (h : Inv n s) (hs : Step n s p t) :
    LocksAgree id t.lock fun q => (t.pc q).boxLock := by
  cases hs with
  | pick | drop | other => exact h.box
  | acquire b op hpc hfree | reacquire b op hpc hfree =>
    exact box_take h rfl rfl hfree (by rw [hpc]; rfl) rfl
  | release b hpc | sleepUnlock b op hpc => exact box_drop h rfl rfl (by rw [hpc]; rfl) rfl
  | wait b op ho | change b op m ho | fail b op ho => exact box_same h rfl rfl (outcome_boxLock ho)
  | call b op hp hb hpc | sleepLock b op hpc | setChan b op hpc | setState b op hpc
  | sched b op hpc | clearChan b op hpc | sleepDone b op hpc | run b op _ _ hpc | wakeEnd b i hpc
  | wakeSelf b i hpc | wakeLock b i hpc | wakeTest b i hpc | wakeUnlock b i hpc | kill pid hp hpc
  | killEnd pid i hpc | killLock pid i hpc | killHit pid i hpc | killMiss pid i hpc
  | killUnlock pid i hpc | killDone i hpc => exact box_same h rfl rfl (by rw [hpc]; rfl)

theorem proc_step (h : Inv n s) (hs : Step n s p t) :
    LocksAgree Holder.proc t.plock fun q => (t.pc q).procLock q := by
  cases hs with
  | pick hfree =>
    exact h.proc.outside (by simp [hfree]) (by simp)
  | drop hheld =>
    refine h.proc.outside ?_ (by simp)
    intro r
    cases hheld with
    | inl hpick => simp [hpick]
    | inr hback => simp [hback]
  | other => exact h.proc
  | wait b op ho | change b op m ho | fail b op ho => exact proc_same h rfl rfl (outcome_procLock ho)
  | sleepLock b op hpc hfree => exact proc_take h rfl rfl (.inl hfree) (by rw [hpc]; rfl) rfl
  | run b op hpick _ hpc => exact proc_take h rfl rfl (.inr hpick) (by rw [hpc]; rfl) rfl
  | wakeLock b i hpc _ _ hfree | killLock b i hpc _ hfree =>
    exact proc_take h rfl rfl (.inl hfree) (by rw [hpc]; rfl) rfl
  | sched b op hpc => exact proc_drop h rfl (.inr rfl) rfl (by rw [hpc]; rfl) rfl
  | sleepDone b op hpc | wakeUnlock b i hpc | killUnlock pid i hpc | killDone i hpc =>
    exact proc_drop h rfl (.inl rfl) rfl (by rw [hpc]; rfl) rfl
  | call b op hp hb hpc | acquire b op hpc | release b hpc | sleepUnlock b op hpc
  | setChan b op hpc | setState b op hpc | clearChan b op hpc | reacquire b op hpc
  | wakeEnd b i hpc | wakeSelf b i hpc | wakeTest b i hpc | kill pid hp hpc | killEnd pid i hpc
  | killHit pid i hpc | killMiss pid i hpc => exact proc_same h rfl rfl (by rw [hpc]; rfl)

/-! Each process for itself. -/

/-- What a process may find changed in its own record: it was made runnable. -/
def Woken (r r' : Proc) : Prop :=
  r'.chan = r.chan ∧ (r'.state = r.state ∨ r.state = .sleeping ∧ r'.state = .runnable)

theorem woken_wake (r : Proc) (b : Nat) : Woken r (r.wake b) := by
  unfold Proc.wake
  split
  · next hr => exact ⟨rfl, .inr ⟨hr.1, rfl⟩⟩
  · exact ⟨rfl, .inl rfl⟩

theorem woken_kill (r : Proc) : Woken r r.kill := by
  refine ⟨rfl, ?_⟩
  unfold Proc.kill
  by_cases hr : r.state = .sleeping
  · exact .inr ⟨hr, if_pos hr⟩
  · exact .inl (if_neg hr)

theorem woken_setProc {i : Nat} {r : Proc} (h : Woken (s.proc i) r) (q : Nat) :
    Woken (s.proc q) ((s.setProc i r).proc q) := by
  by_cases hq : q = i
  · subst hq
    simpa [State.setProc] using h
  · have hsame : (s.setProc i r).proc q = s.proc q := Function.update_of_ne hq _ _
    rw [hsame]
    exact ⟨rfl, .inl rfl⟩

theorem setPc_pc_self (s : State) (p : Nat) (c : Pc) : (s.setPc p c).pc p = c :=
  Function.update_self ..

theorem pc_other (hs : Step n s p t) (hq : q ≠ p) : t.pc q = s.pc q := by
  cases hs with
  | pick | drop | other => rfl
  | _ => exact Function.update_of_ne hq _ _

/-- The record of another process changes under its lock only. -/
theorem proc_other (hs : Step n s p t) (hq : q ≠ p) :
    t.proc q = s.proc q ∨ (s.pc p).procLock p = some q ∧ Woken (s.proc q) (t.proc q) := by
  cases hs with
  | wakeTest b i hpc =>
    by_cases hi : q = i
    · subst hi
      refine .inr ⟨by rw [hpc]; rfl, woken_setProc (woken_wake _ b) q⟩
    · exact .inl (Function.update_of_ne hi _ _)
  | killHit pid i hpc =>
    by_cases hi : q = i
    · subst hi
      refine .inr ⟨by rw [hpc]; rfl, woken_setProc (woken_kill _) q⟩
    · exact .inl (Function.update_of_ne hi _ _)
  | setChan | setState | clearChan | run | other => exact .inl (Function.update_of_ne hq _ _)
  | _ => exact .inl rfl

/-- Whoever holds `q`'s lock finds it before `sleep`, or switched off. -/
theorem Inv.not_dozing (h : Inv n s) (hq : q ≠ p) (hp : (s.pc p).procLock p = some q) :
    (s.pc q).procLock q ≠ some q := by
  intro hown
  exact hq (h.proc.exclusive (fun _ _ he => Holder.proc.inj he) hown hp)

theorem stateOk_woken {r r' : Proc} (hc : c.StateOk r.state) (hw : Woken r r')
    (hno : c.procLock q ≠ some q) : c.StateOk r'.state := by
  cases hw.2 with
  | inl heq =>
    rw [heq]
    exact hc
  | inr hwoke =>
    rw [hwoke.1] at hc
    rw [hwoke.2]
    cases c with
    | out => trivial
    | sleep b op d =>
      cases d with
      | stateSet => exact absurd rfl hno
      | off => exact .inr rfl
      | _ => cases hc
    | _ => cases hc

theorem local_other (h : Inv n s) (hs : Step n s p t) (hq : q ≠ p) : Local n t q := by
  obtain ⟨hlt, hchan, hstate⟩ := h.each q
  have hpc := pc_other hs hq
  cases proc_other hs hq with
  | inl hsame => exact ⟨by rwa [hpc], by rwa [hpc, hsame], by rwa [hpc, hsame]⟩
  | inr hwoke =>
    refine ⟨by rwa [hpc], by rw [hpc, hwoke.2.1, hchan], ?_⟩
    rw [hpc]
    exact stateOk_woken hstate hwoke.2 (h.not_dozing hq hwoke.1)

theorem local_mk {u : State} (hlt : c ≠ .out → p < n) (hchan : (u.proc p).chan = c.chan)
    (hstate : c.StateOk (u.proc p).state) : Local n (u.setPc p c) p := by
  refine ⟨?_, ?_, ?_⟩
  · rw [setPc_pc_self]
    exact hlt
  · rw [setPc_pc_self]
    exact hchan
  · rw [setPc_pc_self]
    exact hstate

/-- The tests under the mailbox lock are made by a running process. -/
theorem outcome_local (h : Local n s p) (ho : s.outcome p = some (b, op, o)) :
    p < n ∧ (s.proc p).chan = none ∧ (s.proc p).state = .running := by
  obtain ⟨hlt, hchan, hstate⟩ := h
  cases outcome_cases ho with
  | inl hc =>
    rw [hc.1] at hlt hchan hstate
    exact ⟨hlt (by simp), hchan, hstate⟩
  | inr hl =>
    rw [hl.1] at hlt hchan hstate
    exact ⟨hlt (by simp), hchan, hstate⟩

/-- Woken or not, a process that runs keeps its record in step. -/
theorem local_woken {u : State} (h : Local n s p) (hw : Woken (s.proc p) (u.proc p))
    (hout : s.pc p ≠ .out) (hrun : (s.proc p).state = .running) (hchan : (s.pc p).chan = c.chan)
    (hok : c.StateOk .running) : Local n (u.setPc p c) p := by
  refine local_mk (fun _ => h.lt hout) ?_ ?_
  · rw [hw.1, h.chan, hchan]
  · cases hw.2 with
    | inl heq =>
      rw [heq, hrun]
      exact hok
    | inr hwoke =>
      rw [hrun] at hwoke
      cases hwoke.1

theorem local_self (h : Inv n s) (hs : Step n s p t) : Local n t p := by
  have hloc := h.each p
  have hlt := hloc.lt
  have hchan := hloc.chan
  have hstate := hloc.state
  cases hs with
  | pick | drop => exact ⟨hlt, hchan, hstate⟩
  | other r hpc hfree hr =>
    have hself : (s.setProc p r).proc p = r := Function.update_self ..
    refine ⟨hlt, ?_, ?_⟩
    · rw [hself, hr]
      change none = (s.pc p).chan
      rw [hpc]
      rfl
    · change (s.pc p).StateOk _
      rw [hpc]
      trivial
  | call b op hp _ hpc hrun | kill pid hp hpc hrun =>
    rw [hpc] at hchan
    exact local_mk (fun _ => hp) hchan hrun
  | wait b op ho | change b op m ho | fail b op ho =>
    obtain ⟨hp, hnone, hrun⟩ := outcome_local hloc ho
    exact local_mk (fun _ => hp) hnone hrun
  | release b hpc | killEnd pid i hpc | killDone i hpc =>
    rw [hpc] at hchan
    exact local_mk (fun hne => absurd rfl hne) hchan trivial
  | setChan b op hpc =>
    rw [hpc] at hlt hstate
    exact local_mk (fun _ => hlt (by simp)) (by simp [State.setProc, Pc.chan])
      (by simpa [State.setProc, Pc.StateOk] using hstate)
  | setState b op hpc =>
    rw [hpc] at hlt hchan
    exact local_mk (fun _ => hlt (by simp)) (by simpa [State.setProc, Pc.chan] using hchan)
      (by simp [State.setProc, Pc.StateOk])
  | sched b op hpc =>
    rw [hpc] at hlt hchan hstate
    exact local_mk (fun _ => hlt (by simp)) hchan (.inl hstate)
  | run b op hpick hrun hpc =>
    rw [hpc] at hlt hchan
    exact local_mk (fun _ => hlt (by simp)) (by simpa [State.setProc, Pc.chan] using hchan)
      (by simp [State.setProc, Pc.StateOk])
  | clearChan b op hpc =>
    rw [hpc] at hlt hstate
    exact local_mk (fun _ => hlt (by simp)) (by simp [State.setProc, Pc.chan])
      (by simpa [State.setProc, Pc.StateOk] using hstate)
  | wakeTest b i hpc =>
    rw [hpc] at hstate
    exact local_woken hloc (woken_setProc (woken_wake _ b) p) (by simp [hpc]) hstate
      (by rw [hpc]; rfl) rfl
  | killHit pid i hpc =>
    rw [hpc] at hstate
    exact local_woken hloc (woken_setProc (woken_kill _) p) (by simp [hpc]) hstate
      (by rw [hpc]; rfl) rfl
  | acquire b op hpc | sleepLock b op hpc | sleepUnlock b op hpc | sleepDone b op hpc
  | reacquire b op hpc | wakeEnd b i hpc | wakeSelf b i hpc | wakeLock b i hpc | wakeUnlock b i hpc
  | killLock pid i hpc | killMiss pid i hpc | killUnlock pid i hpc =>
    rw [hpc] at hlt hchan hstate
    exact local_mk (fun _ => hlt (by simp)) hchan hstate

theorem local_step (h : Inv n s) (hs : Step n s p t) (q : Nat) : Local n t q := by
  by_cases hq : q = p
  · rw [hq]
    exact local_self h hs
  · exact local_other h hs hq

/-! The sleepers of a mailbox. -/

theorem bound_woken {d : Doze} {r r' : Proc} (hw : Woken r r') (hb : d.Bound r'.state) :
    d.Bound r.state := by
  cases d with
  | off =>
    cases hw.2 with
    | inl heq => exact heq ▸ hb
    | inr hwoke => exact hwoke.1
  | _ => exact hb

/-- A process on its way to sleep was covered before the step: it has just seen that it must
sleep, or it was on its way already. -/
theorem covered_before (h : Inv n s) (hs : Step n s p t) {d : Doze} (hpc : t.pc q = .sleep b op d)
    (hb : d.Bound (t.proc q).state) : s.Covered q b op := by
  by_cases hq : q = p
  · subst hq
    have hmove : ∀ d', s.pc q = .sleep b op d' → d'.Bound (s.proc q).state → s.Covered q b op :=
      h.covered q b op
    cases hs with
    | pick | drop => exact hmove d hpc hb
    | other r hout =>
      change s.pc q = _ at hpc
      rw [hout] at hpc
      cases hpc
    | wait b' op' ho =>
      rw [setPc_pc_self] at hpc
      cases hpc
      exact .inl (outcome_sleep ho)
    | sleepLock b' op' hold | sleepUnlock b' op' hold | setChan b' op' hold | setState b' op' hold =>
      rw [setPc_pc_self] at hpc
      cases hpc
      exact hmove _ hold trivial
    | sched b' op' hold =>
      rw [setPc_pc_self] at hpc
      cases hpc
      exact hmove _ hold trivial
    | run | clearChan | sleepDone =>
      rw [setPc_pc_self] at hpc
      cases hpc
      cases hb
    | _ =>
      rw [setPc_pc_self] at hpc
      cases hpc
  · rw [pc_other hs hq] at hpc
    refine h.covered q b op d hpc ?_
    cases proc_other hs hq with
    | inl hsame => exact hsame ▸ hb
    | inr hwoke => exact bound_woken hwoke.2 hb

/-- A step keeps a process covered if it leaves the mailbox alone and a scan has moved on to a
place that still has the process ahead. -/
theorem covered_of (h : s.Covered q b op) (hs : Step n s p t) (hbox : t.box b = s.box b)
    (hscan : ∀ i k, s.pc p = .wakeup b i k → k.Ahead i q →
      ∃ i' k', t.pc p = .wakeup b i' k' ∧ k'.Ahead i' q) : t.Covered q b op := by
  cases h with
  | inl hwaits =>
    left
    rwa [hbox]
  | inr hex =>
    obtain ⟨r, i, k, hr, ha⟩ := hex
    right
    by_cases hrp : r = p
    · subst hrp
      obtain ⟨i', k', hr', ha'⟩ := hscan i k hr ha
      exact ⟨r, i', k', hr', ha'⟩
    · exact ⟨r, i, k, by rw [pc_other hs hrp, hr], ha⟩

/-- The process that a scan has just tested is not asleep on the mailbox any more. -/
theorem tested_not_bound (h : Inv n s) {d : Doze} (hp : s.pc p = .wakeup b q .taken)
    (hq : s.pc q = .sleep b op d) : ¬ d.Bound ((s.proc q).wake b).state := by
  intro hb
  have hne : q ≠ p := by
    intro he
    rw [he, hp] at hq
    cases hq
  have hno := h.not_dozing hne (by rw [hp]; rfl)
  rw [hq] at hno
  cases d with
  | locked | unlocked | chanSet | stateSet => exact hno rfl
  | called =>
    -- Both would hold the mailbox lock.
    have := h.box.exclusive Function.injective_id (t := q) (u := p) (l := b)
      (by rw [hq]; rfl) (by rw [hp]; rfl)
    exact hne this
  | off =>
    have hchan := (h.each q).chan
    rw [hq] at hchan
    have hsl : (s.proc q).state = .sleeping := bound_woken (d := .off) (woken_wake _ b) hb
    have hcond : (s.proc q).state = .sleeping ∧ (s.proc q).chan = some b := ⟨hsl, hchan⟩
    rw [Proc.wake, if_pos hcond] at hb
    cases hb
  | resumed | tidied | again => exact hb

theorem covered_step (h : Inv n s) (hs : Step n s p t) {d : Doze} (hpc : t.pc q = .sleep b op d)
    (hb : d.Bound (t.proc q).state) : t.Covered q b op := by
  have hbefore := covered_before h hs hpc hb
  have hlt : q < n := (local_step h hs q).lt (by simp [hpc])
  have hof := covered_of hbefore hs
  cases hs with
  | change b' op' m ho =>
    by_cases hbb : b = b'
    · subst hbb
      exact .inr ⟨p, 0, .next, setPc_pc_self .., Nat.zero_le q⟩
    · refine hof (Function.update_of_ne hbb _ _) ?_
      intro i k hp
      exact absurd hp (outcome_not_wakeup ho)
  | wait b' op' ho | fail b' op' ho =>
    refine hof rfl ?_
    intro i k hp
    exact absurd hp (outcome_not_wakeup ho)
  | wakeEnd b' i hp hi =>
    -- A scan that has ended has nobody ahead.
    refine hof rfl ?_
    intro j k hj ha
    rw [hp] at hj
    cases hj
    have : i ≤ q := ha
    omega
  | wakeSelf b' i hp hi =>
    refine hof rfl ?_
    intro j k hj ha
    rw [hp] at hj
    cases hj
    have hne : q ≠ p := by
      intro he
      rw [he, setPc_pc_self] at hpc
      cases hpc
    have : i ≤ q := ha
    have hahead : i + 1 ≤ q := by omega
    exact ⟨i + 1, .next, setPc_pc_self .., hahead⟩
  | wakeLock b' i hp =>
    refine hof rfl ?_
    intro j k hj ha
    rw [hp] at hj
    cases hj
    exact ⟨i, .taken, setPc_pc_self .., ha⟩
  | wakeTest b' i hp =>
    refine hof rfl ?_
    intro j k hj ha
    rw [hp] at hj
    cases hj
    have hle : i ≤ q := ha
    have hne : i ≠ q := by
      intro he
      subst he
      have hip : i ≠ p := by
        intro he
        rw [he, setPc_pc_self] at hpc
        cases hpc
      have hold : s.pc i = .sleep b op d := (Function.update_of_ne hip _ _).symm.trans hpc
      have hproc : (s.setProc i ((s.proc i).wake b)).proc i = (s.proc i).wake b :=
        Function.update_self ..
      change d.Bound ((s.setProc i ((s.proc i).wake b)).proc i).state at hb
      rw [hproc] at hb
      exact tested_not_bound h hp hold hb
    exact ⟨i, .tested, setPc_pc_self .., lt_of_le_of_ne hle hne⟩
  | wakeUnlock b' i hp =>
    refine hof rfl ?_
    intro j k hj ha
    rw [hp] at hj
    cases hj
    exact ⟨i + 1, .next, setPc_pc_self .., ha⟩
  | pick | drop => exact hof rfl (fun i k hp ha => ⟨i, k, hp, ha⟩)
  | call b' op' _ _ hp | acquire b' op' hp | release b' hp | sleepLock b' op' hp
  | sleepUnlock b' op' hp | setChan b' op' hp | setState b' op' hp | sched b' op' hp
  | clearChan b' op' hp | sleepDone b' op' hp | reacquire b' op' hp | run b' op' _ _ hp
  | kill pid _ hp | killEnd pid i hp | killLock pid i hp | killHit pid i hp | killMiss pid i hp
  | killUnlock pid i hp | killDone i hp | other r hp =>
    refine hof rfl ?_
    intro j k hj
    rw [hp] at hj
    cases hj

theorem inv_step (h : Inv n s) (hs : Step n s p t) : Inv n t :=
  ⟨box_step h hs, proc_step h hs, local_step h hs, fun _ _ _ _ hpc hb => covered_step h hs hpc hb⟩

theorem inv_quiet (h : s.Quiet) : Inv n s where
  box := by
    intro p b
    simp [h.lock b, h.out p, Pc.boxLock]
  proc := by
    intro p i
    simp [h.plock i, h.out p, Pc.procLock]
  each := by
    intro q
    refine ⟨fun hne => absurd (h.out q) hne, ?_, ?_⟩
    · rw [h.chan q, h.out q]
      rfl
    · rw [h.out q]
      trivial
  covered := by
    intro q b op d hpc
    rw [h.out q] at hpc
    cases hpc

theorem inv_run {tr : List Nat} (h : s.Quiet) (hr : Run (Step n) s tr t) : Inv n t :=
  hr.invariant (inv_quiet h) fun _ _ _ hi hs => inv_step hi hs

/-- Process `q` is `SLEEPING` on mailbox `b`, inside the call `op` on it. -/
def State.SleepsIn (s : State) (q b : Nat) (op : Op) : Prop :=
  (s.proc q).state = .sleeping ∧ (s.proc q).chan = some b ∧ ∃ d, s.pc q = .sleep b op d

/-- A process asleep in a mailbox call is bound. -/
theorem bound_of_sleepsIn (h : Local n s q) (hq : s.SleepsIn q b op) :
    ∃ d, s.pc q = .sleep b op d ∧ d.Bound (s.proc q).state := by
  obtain ⟨hsl, -, d, hpc⟩ := hq
  refine ⟨d, hpc, ?_⟩
  have hstate := h.state
  rw [hpc, hsl] at hstate
  cases d with
  | off => exact hsl
  | resumed | tidied | again => cases hstate
  | _ => trivial

theorem Inv.waits_of_sleepsIn (h : Inv n s) (hfree : s.lock b = none) (hq : s.SleepsIn q b op) :
    op.Waits (s.box b) := by
  obtain ⟨d, hpc, hb⟩ := bound_of_sleepsIn (h.each q) hq
  cases h.covered q b op d hpc hb with
  | inl hw => exact hw
  | inr hscan =>
    obtain ⟨r, i, k, hr, -⟩ := hscan
    exact absurd (by rw [hr]; rfl) (h.box.free hfree r)

/-- No mailbox wake-up is lost: while the lock of a mailbox is free, whoever sleeps on it has to,
and senders and receivers do not sleep on it together. -/
theorem no_lost_wakeup {s₀ : State} {tr : List Nat} (h : s₀.Quiet) (hr : Run (Step n) s₀ tr s)
    (hfree : s.lock b = none) :
    (∀ q, s.SleepsIn q b .recv → (s.box b).count = 0 ∧ (s.box b).closed = false) ∧
    (∀ q msg, s.SleepsIn q b (.send msg) →
      (s.box b).count = mboxCap ∧ (s.box b).closed = false) ∧
    ∀ q q' msg, ¬ (s.SleepsIn q b .recv ∧ s.SleepsIn q' b (.send msg)) := by
  have hi := inv_run h hr
  refine ⟨fun q hq => hi.waits_of_sleepsIn hfree hq,
    fun q msg hq => hi.waits_of_sleepsIn hfree hq, ?_⟩
  intro q q' msg hboth
  have hempty : (s.box b).count = 0 ∧ _ := hi.waits_of_sleepsIn hfree hboth.1
  have hfull : (s.box b).count = mboxCap ∧ _ := hi.waits_of_sleepsIn hfree hboth.2
  rw [hempty.1] at hfull
  cases hfull.1

end

/-- Everybody runs, and every mailbox is open and empty. -/
def allRunning : State where
  box := fun _ => { Mailbox.init with used := true }
  lock := fun _ => none
  plock := fun _ => none
  proc := fun _ => ⟨.running, none, false, 0⟩
  pc := fun _ => .out

theorem allRunning_quiet : allRunning.Quiet :=
  ⟨fun _ => rfl, fun _ => rfl, fun _ => rfl, fun _ => rfl⟩

/-- Process 0 goes to sleep in `mbox_recv`, as it has to. -/
theorem no_lost_wakeup_receiver : ∃ tr s, Run (Step 2) allRunning tr s ∧ s.lock 0 = none ∧
    s.SleepsIn 0 0 .recv ∧ (s.box 0).count = 0 := by
  have h1 : Run (Step 2) allRunning [0] _ :=
    Run.single (.call 0 .recv (by decide) (by decide) rfl rfl)
  have h2 := h1.snoc (a := 0) (.acquire 0 .recv rfl rfl)
  have h3 := h2.snoc (a := 0) (.wait 0 .recv rfl)
  have h4 := h3.snoc (a := 0) (.sleepLock 0 .recv rfl rfl)
  have h5 := h4.snoc (a := 0) (.sleepUnlock 0 .recv rfl)
  have h6 := h5.snoc (a := 0) (.setChan 0 .recv rfl)
  have h7 := h6.snoc (a := 0) (.setState 0 .recv rfl)
  have hr := h7.snoc (a := 0) (.sched 0 .recv rfl)
  refine ⟨_, _, hr, rfl, ⟨rfl, rfl, .off, rfl⟩, ?_⟩
  exact ((no_lost_wakeup allRunning_quiet hr rfl).1 0 ⟨rfl, rfl, .off, rfl⟩).1

/-! The steps of `Mbox` are the sections between two lock operations here: a process is in a
mailbox call there while it is in `sleep` or back at the `while` here. -/

def Op.call (b : Nat) : Op → Option Call
  | .send msg => some (.send b msg)
  | .recv => some (.recv b)
  | .close => none

def Pc.call : Pc → Option Call
  | .loop b op | .sleep b op _ => op.call b
  | _ => none

def State.abs (s : State) : Mbox.State := ⟨s.box, fun p => (s.pc p).call⟩

/-- The state after the tests of a call under the mailbox lock. -/
def State.after (s : State) (p b : Nat) (op : Op) : Outcome → State
  | .sleep => s.setPc p (.sleep b op .called)
  | .change m => (s.setBox b m).setPc p (.wakeup b 0 .next)
  | .fail => s.setPc p (.leave b)

section
variable {n : Nat} {s t : State} {p b : Nat} {op : Op} {c : Pc} {o : Outcome}

theorem abs_setPc (s : State) (p : Nat) (c : Pc) : (s.setPc p c).abs = s.abs.setCall p c.call := by
  simp only [State.abs, State.setPc, Mbox.State.setCall, Mbox.State.mk.injEq, true_and]
  ext1 q
  by_cases hq : q = p
  · subst hq
    simp
  · simp [hq]

theorem setCall_self (m : Mbox.State) (p : Nat) : m.setCall p (m.call p) = m := by
  simp [Mbox.State.setCall]

theorem setBox_self (m : Mbox.State) (b : Nat) : m.setBox b (m.box b) = m := by
  simp [Mbox.State.setBox]

/-- A step inside the same call is no step of `Mbox`. -/
theorem abs_move {u : State} (hu : u.abs = s.abs) (hc : (s.pc p).call = c.call) :
    (u.setPc p c).abs = s.abs := by
  rw [abs_setPc, hu, ← hc]
  exact setCall_self s.abs p

theorem abs_endSend (s : State) (p b : Nat) (msg : Int) {r : Section Bool}
    (hr : ∀ m, r = .ret false m → m = s.box b) :
    (s.abs.endSend p b msg r).2 = (s.after p b (.send msg) (.ofSend r)).abs := by
  cases r with
  | sleep =>
    simp only [Outcome.ofSend, State.after, abs_setPc]
    rfl
  | ret a m =>
    cases a with
    | true =>
      simp only [Outcome.ofSend, State.after, abs_setPc]
      rfl
    | false =>
      have hm : m = s.abs.box b := hr m rfl
      simp only [Mbox.State.endSend, Outcome.ofSend, State.after, abs_setPc]
      rw [hm, setBox_self]
      rfl

theorem abs_endRecv (s : State) (p b : Nat) {r : Section (Option Int)}
    (hr : ∀ m, r = .ret none m → m = s.box b) :
    (s.abs.endRecv p b r).2 = (s.after p b .recv (.ofRecv r)).abs := by
  cases r with
  | sleep =>
    simp only [Outcome.ofRecv, State.after, abs_setPc]
    rfl
  | ret a m =>
    cases a with
    | some v =>
      simp only [Outcome.ofRecv, State.after, abs_setPc]
      rfl
    | none =>
      have hm : m = s.abs.box b := hr m rfl
      simp only [Mbox.State.endRecv, Outcome.ofRecv, State.after, abs_setPc]
      rw [hm, setBox_self]
      rfl

theorem mboxSend_ret_false {m m' : Mailbox} {msg : Int} (h : m.mboxSend msg = .ret false m') :
    m' = m := by
  unfold Mailbox.mboxSend at h
  split at h
  · cases h
    rfl
  · exact sendLoop_ret_false h

theorem mboxRecv_ret_none {m m' : Mailbox} (h : m.mboxRecv = .ret none m') : m' = m := by
  unfold Mailbox.mboxRecv at h
  split at h
  · cases h
    rfl
  · exact (recvLoop_ret_none h).1

theorem mbox_step {m m' : Mbox.State} {a : Action} {r : Obs × Mbox.State} (h : m.exec a = some r)
    (hr : r.2 = m') : ∃ o, Mbox.Step m o m' := by
  subst hr
  exact ⟨r.1, a, h⟩

/-- The tests of a call and the change after them are one step of `Mbox`. -/
theorem first_step (hb : b < maxMbox) (hpc : s.pc p = .check b op) :
    ∃ o, Mbox.Step s.abs o (s.after p b op (op.first (s.box b))).abs := by
  have hcall : s.abs.call p = none := by
    change (s.pc p).call = none
    rw [hpc]
    rfl
  have hid : ¬ ((b : Int) < 0 ∨ (maxMbox : Int) ≤ b) := by omega
  cases op with
  | send msg =>
    have hexec : s.abs.exec (.send p b msg) =
        some (s.abs.endSend p b msg ((s.box b).mboxSend msg)) := by
      rw [Mbox.State.exec, if_pos hcall, if_neg hid, Int.toNat_natCast]
      rfl
    exact mbox_step hexec (abs_endSend s p b msg fun _ hm => mboxSend_ret_false hm)
  | recv =>
    have hexec : s.abs.exec (.recv p b) = some (s.abs.endRecv p b (s.box b).mboxRecv) := by
      rw [Mbox.State.exec, if_pos hcall, if_neg hid, Int.toNat_natCast]
      rfl
    exact mbox_step hexec (abs_endRecv s p b fun _ hm => mboxRecv_ret_none hm)
  | close =>
    have hnone : ∀ m : Mbox.State, m.call p = none → m = m.setCall p none := by
      intro m hm
      rw [← hm]
      exact (setCall_self m p).symm
    refine mbox_step (a := .close b) rfl ?_
    rw [Mbox.State.mboxClose, if_neg hid, Int.toNat_natCast]
    by_cases hu : (s.box b).used = false
    · have hfail : Op.close.first (s.box b) = .fail := if_pos hu
      have hua : (s.abs.box b).used = false := hu
      rw [hfail, State.after, abs_setPc, if_pos hua]
      exact hnone s.abs hcall
    · have hchange : Op.close.first (s.box b) = .change { s.box b with closed := true } :=
        if_neg hu
      have hua : ¬ (s.abs.box b).used = false := hu
      rw [hchange, State.after, abs_setPc, if_neg hua]
      exact hnone (s.abs.setBox b _) hcall

theorem again_step (hpc : s.pc p = .loop b op) :
    (s.after p b op (op.again (s.box b))).abs = s.abs ∨
      ∃ o, Mbox.Step s.abs o (s.after p b op (op.again (s.box b))).abs := by
  have hcall : s.abs.call p = op.call b := by
    change (s.pc p).call = _
    rw [hpc]
    rfl
  cases op with
  | send msg =>
    have hexec : s.abs.exec (.resume p) =
        some (s.abs.endSend p b msg ((s.box b).sendLoop msg)) := by
      simp only [Mbox.State.exec, hcall, Op.call]
      rfl
    exact .inr (mbox_step hexec (abs_endSend s p b msg fun _ hm => sendLoop_ret_false hm))
  | recv =>
    have hexec : s.abs.exec (.resume p) = some (s.abs.endRecv p b (s.box b).recvLoop) := by
      simp only [Mbox.State.exec, hcall, Op.call]
      rfl
    exact .inr (mbox_step hexec (abs_endRecv s p b fun _ hm => (recvLoop_ret_none hm).1))
  | close => exact .inl (abs_move rfl hcall)

/-- The calls under way are on mailboxes of the table. -/
def State.Named (s : State) : Prop :=
  ∀ q b op, s.pc q = .enter b op ∨ s.pc q = .check b op → b < maxMbox

theorem named_step (h : s.Named) (hs : Step n s p t) : t.Named := by
  intro q b op hq
  by_cases hqp : q = p
  · subst hqp
    cases hs with
    | pick | drop | other => exact h q b op hq
    | call b' op' _ hb =>
      simp only [setPc_pc_self] at hq
      cases hq with
      | inl he =>
        cases he
        exact hb
      | inr he => cases he
    | acquire b' op' hpc =>
      simp only [setPc_pc_self] at hq
      cases hq with
      | inl he => cases he
      | inr he =>
        cases he
        exact h q b op (.inl hpc)
    | _ =>
      simp only [setPc_pc_self] at hq
      cases hq with
      | inl he => cases he
      | inr he => cases he
  · rw [pc_other hs hqp] at hq
    exact h q b op hq

theorem outcome_abs (h : s.Named) (ho : s.outcome p = some (b, op, o)) :
    (s.after p b op o).abs = s.abs ∨ ∃ x, Mbox.Step s.abs x (s.after p b op o).abs := by
  cases outcome_cases ho with
  | inl hc =>
    rw [← hc.2]
    exact .inr (first_step (h p b op (.inr hc.1)) hc.1)
  | inr hl =>
    rw [← hl.2]
    exact again_step hl.1

/-- Every step is one step of `Mbox` or none. -/
theorem step_abs (h : s.Named) (hs : Step n s p t) :
    t.abs = s.abs ∨ ∃ o, Mbox.Step s.abs o t.abs := by
  cases hs with
  | wait b op ho | change b op m ho | fail b op ho => exact outcome_abs h ho
  | pick | drop | other => exact .inl rfl
  | call b op _ _ hpc | acquire b op hpc | release b hpc | sleepLock b op hpc
  | sleepUnlock b op hpc | setChan b op hpc | setState b op hpc | sched b op hpc
  | clearChan b op hpc | sleepDone b op hpc | reacquire b op hpc | run b op _ _ hpc
  | wakeEnd b i hpc | wakeSelf b i hpc | wakeLock b i hpc | wakeTest b i hpc | wakeUnlock b i hpc
  | kill pid _ hpc | killEnd pid i hpc | killLock pid i hpc | killHit pid i hpc
  | killMiss pid i hpc | killUnlock pid i hpc | killDone i hpc =>
    exact .inl (abs_move rfl (by rw [hpc]; rfl))

/-- Every interleaving of the lock operations is a run of `Mbox`, and so the messages are delivered
as they are there, in the order in which they were sent. -/
theorem run_abs {s₀ : State} {tr : List Nat} {past : List Mbox.Obs} (h : s₀.Quiet)
    (hd : Delivered past s₀.abs) (hr : Run (Step n) s₀ tr s) :
    ∃ tr', Run Mbox.Step s₀.abs tr' s.abs ∧ Delivered (past ++ tr') s.abs := by
  have hnamed : s₀.Named := by
    intro q b op hq
    rw [h.out q] at hq
    cases hq with
    | inl he => cases he
    | inr he => cases he
  have hboth : s.Named ∧ ∃ tr', Run Mbox.Step s₀.abs tr' s.abs ∧ Delivered (past ++ tr') s.abs := by
    refine hr.invariant (P := fun u => u.Named ∧
      ∃ tr', Run Mbox.Step s₀.abs tr' u.abs ∧ Delivered (past ++ tr') u.abs)
      ⟨hnamed, [], .nil, by rwa [List.append_nil]⟩ ?_
    intro u q v hu hs
    obtain ⟨hun, tr', hrun, hdel⟩ := hu
    refine ⟨named_step hun hs, ?_⟩
    cases step_abs hun hs with
    | inl hsame =>
      rw [hsame]
      exact ⟨tr', hrun, hdel⟩
    | inr hstep =>
      obtain ⟨o, ho⟩ := hstep
      refine ⟨tr' ++ [o], hrun.snoc ho, ?_⟩
      rw [← List.append_assoc]
      exact delivered_step hdel ho
  exact hboth.2

end

end Xv6Labs.Wait
