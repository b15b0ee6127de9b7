import Xv6Labs.Kit.Numbers
import Xv6Labs.Ipc.Wait

/-! The life of a process in `kernel/proc.c`: `kfork`, `kexit`, `kwait` and `kkill`, with
`allocproc`, `freeproc`, `reparent`, `sleep` and `wakeup` under them, one lock operation or one
store at a time. A process that is interrupted or waits for a lock just takes no step. -/
namespace Xv6Labs.Life
open Kit
open Wait (Doze Scan Holder)

/-- `userinit` takes the first slot of the empty table. -/
abbrev initproc : Nat := 0

/-- `struct proc`; `chan` is `none` for all that is not a process. -/
structure Proc where
  state : ProcState
  chan : Option Nat
  killed : Bool
  xstate : Int
  pid : Int
  parent : Option Nat

/-- What `freeproc` leaves. -/
def Proc.freed : Proc := ⟨.unused, none, false, 0, 0, none⟩

/-- The body of `wakeup` for one process. -/
def Proc.wake (r : Proc) (c : Option Nat) : Proc :=
  if r.state = .sleeping ∧ c ≠ none ∧ r.chan = c then { r with state := .runnable } else r

/-- The body of `kkill` for the process with the pid. -/
def Proc.kill (r : Proc) : Proc :=
  { r with killed := true, state := if r.state = .sleeping then .runnable else r.state }

/-- Where `kexit` calls `wakeup`: in `reparent`, before child `i`, and for its own parent. -/
inductive Ret where
  | reparent (status : Int) (i : Nat)
  | exit (status : Int)

/-- Where a process is. The places of a call are named after what was done last. -/
inductive Pc where
  | out
  -- kfork; `allocproc` is at process `i`
  | fork (i : Nat) (k : Scan)
  | forkUsed (i : Nat)           -- p->state = USED
  | forkFreed (i : Nat)          -- freeproc(np)
  | forkCopied (i : Nat)         -- release(&np->lock)
  | forkWait (i : Nat)           -- acquire(&wait_lock)
  | forkParent (i : Nat)         -- np->parent = p
  | forkOpen (i : Nat)           -- release(&wait_lock)
  | forkLock (i : Nat)           -- acquire(&np->lock)
  | forkReady (i : Nat)          -- np->state = RUNNABLE
  -- kexit
  | exit (status : Int)
  | reparent (status : Int) (i : Nat)
  | wakeup (c : Option Nat) (i : Nat) (k : Scan) (ret : Ret)
  | exitWoke (status : Int)      -- wakeup(p->parent)
  | exitLocked (status : Int)    -- acquire(&p->lock)
  | exitZombie                   -- p->state = ZOMBIE
  | exitOpen                     -- release(&wait_lock)
  | dead                         -- sched()
  -- kwait
  | wait
  | waitScan (i : Nat) (havekids : Bool)
  | waitChild (i : Nat)          -- acquire(&pp->lock)
  | waitNext (i : Nat)           -- pp->state is not ZOMBIE
  | waitLeave (i : Nat)          -- freeproc(pp), or copyout has failed
  | waitKilled                   -- acquire(&p->lock) in killed(p)
  | waitDone
  | sleep (d : Doze)
  -- kkill
  | kkill (pid : Int) (i : Nat) (k : Scan)
  | killed (i : Nat)

def Ret.pc : Ret → Pc
  | .reparent status i => .reparent status i
  | .exit status => .exitWoke status

/-- What a step may do to the locks and to the process table, and where the process is then.
`spawn` is a store by which the process starts anew at `forkret`. -/
inductive Instr where
  | goto (c : Pc)
  | acquireWait (c : Pc)
  | releaseWait (c : Pc)
  | acquire (i : Nat) (c : Pc)
  | release (i : Nat) (c : Pc)
  | store (i : Nat) (r : Proc) (c : Pc)
  | spawn (i : Nat) (r : Proc) (c : Pc)
  | sched (c : Pc)

structure State where
  proc : Nat → Proc
  plock : Nat → Option Holder
  wlock : Option Nat
  nextpid : Int
  pc : Nat → Pc

namespace State

def setPlock (s : State) (p : Nat) (h : Option Holder) : State :=
  { s with plock := Function.update s.plock p h }
def setWlock (s : State) (h : Option Nat) : State := { s with wlock := h }
def setProc (s : State) (p : Nat) (r : Proc) : State := { s with proc := Function.update s.proc p r }
def setPc (s : State) (p : Nat) (c : Pc) : State := { s with pc := Function.update s.pc p c }

/-- `allocpid` has taken a number. -/
def tookPid (s : State) : State := { s with nextpid := int32 (s.nextpid + 1) }

def exec (s : State) (p : Nat) : Instr → State
  | .goto c => s.setPc p c
  | .acquireWait c => (s.setWlock (some p)).setPc p c
  | .releaseWait c => (s.setWlock none).setPc p c
  | .acquire i c => (s.setPlock i (some (.proc p))).setPc p c
  | .release i c => (s.setPlock i none).setPc p c
  | .store i r c => (s.setProc i r).setPc p c
  | .spawn i r c => ((s.tookPid.setProc i r).setPc i .out).setPc p c
  | .sched c => (s.setPlock p (some .back)).setPc p c

/-- The scheduler switches to process `p`, which goes on in `sleep`. -/
def resume (s : State) (p : Nat) : State :=
  ((s.setPlock p (some (.proc p))).setProc p { s.proc p with state := .running }).setPc p
    (.sleep .resumed)

/-- A lock is free when it is taken. -/
def Ready (s : State) : Instr → Prop
  | .acquireWait _ => s.wlock = none
  | .acquire i _ => s.plock i = none
  | _ => True

end State

/-- What the calls do that others can tell: pids are handed out, a child gets its parent, a process
becomes a zombie, a parent takes the status of a child, a parent has no children. -/
inductive Event where
  | allocated (pid : Int)
  | forked (parent child : Int)
  | exited (pid status : Int)
  | reaped (parent pid status : Int)
  | alone (parent : Nat)
  deriving DecidableEq

/-- The code of process `p` of `n`, line by line. `uvmcopy` and the allocations of `allocproc` may
fail, and so may the `copyout` of `kwait`. -/
inductive Code (n : Nat) (s : State) (p : Nat) : Pc → Instr → Option Event → Prop
  -- a running process calls
  | fork (hp : p < n) (hrun : (s.proc p).state = .running) :
      Code n s p .out (.goto (.fork 0 .next)) none
  | exit (status) (hp : p < n) (hrun : (s.proc p).state = .running) (hinit : p ≠ initproc) :
      Code n s p .out (.goto (.exit status)) none
  | wait (hp : p < n) (hrun : (s.proc p).state = .running) : Code n s p .out (.goto .wait) none
  | kkill (pid) (hp : p < n) (hrun : (s.proc p).state = .running) :
      Code n s p .out (.goto (.kkill pid 0 .next)) none
  -- allocproc
  | allocEnd (i) (hi : n ≤ i) : Code n s p (.fork i .next) (.goto .out) none
  | allocLock (i) (hi : i < n) : Code n s p (.fork i .next) (.acquire i (.fork i .taken)) none
  | allocBusy (i) (hi : (s.proc i).state ≠ .unused) :
      Code n s p (.fork i .taken) (.goto (.fork i .tested)) none
  | allocNext (i) : Code n s p (.fork i .tested) (.release i (.fork (i+1) .next)) none
  | allocFound (i) (hi : (s.proc i).state = .unused) :
      Code n s p (.fork i .taken)
        (.spawn i { s.proc i with pid := s.nextpid, state := .used } (.forkUsed i))
        (some (.allocated s.nextpid))
  -- kfork
  | forkFail (i) : Code n s p (.forkUsed i) (.store i .freed (.forkFreed i)) none
  | forkReturn (i) : Code n s p (.forkFreed i) (.release i .out) none
  | forkCopy (i) : Code n s p (.forkUsed i) (.release i (.forkCopied i)) none
  | forkWait (i) : Code n s p (.forkCopied i) (.acquireWait (.forkWait i)) none
  | forkParent (i) :
      Code n s p (.forkWait i) (.store i { s.proc i with parent := some p } (.forkParent i))
        (some (.forked (s.proc p).pid (s.proc i).pid))
  | forkOpen (i) : Code n s p (.forkParent i) (.releaseWait (.forkOpen i)) none
  | forkLock (i) : Code n s p (.forkOpen i) (.acquire i (.forkLock i)) none
  | forkReady (i) :
      Code n s p (.forkLock i) (.store i { s.proc i with state := .runnable } (.forkReady i)) none
  | forkDone (i) : Code n s p (.forkReady i) (.release i .out) none
  -- kexit
  | exitWait (status) : Code n s p (.exit status) (.acquireWait (.reparent status 0)) none
  | reparentEnd (status i) (hi : n ≤ i) :
      Code n s p (.reparent status i) (.goto (.wakeup (s.proc p).parent 0 .next (.exit status))) none
  | reparentSkip (status i) (hi : i < n) (hpar : (s.proc i).parent ≠ some p) :
      Code n s p (.reparent status i) (.goto (.reparent status (i+1))) none
  | reparentChild (status i) (hi : i < n) (hpar : (s.proc i).parent = some p) :
      Code n s p (.reparent status i)
        (.store i { s.proc i with parent := some initproc }
          (.wakeup (some initproc) 0 .next (.reparent status (i+1)))) none
  | exitLock (status) : Code n s p (.exitWoke status) (.acquire p (.exitLocked status)) none
  | exitZombie (status) :
      Code n s p (.exitLocked status)
        (.store p { s.proc p with xstate := status, state := .zombie } .exitZombie)
        (some (.exited (s.proc p).pid status))
  | exitOpen : Code n s p .exitZombie (.releaseWait .exitOpen) none
  | exitSched : Code n s p .exitOpen (.sched .dead) none
  -- wakeup
  | wakeEnd (c i ret) (hi : n ≤ i) : Code n s p (.wakeup c i .next ret) (.goto ret.pc) none
  | wakeSelf (c i ret) (hi : i = p) :
      Code n s p (.wakeup c i .next ret) (.goto (.wakeup c (i+1) .next ret)) none
  | wakeLock (c i ret) (hi : i < n) (hne : i ≠ p) :
      Code n s p (.wakeup c i .next ret) (.acquire i (.wakeup c i .taken ret)) none
  | wakeTest (c i ret) :
      Code n s p (.wakeup c i .taken ret) (.store i ((s.proc i).wake c) (.wakeup c i .tested ret))
        none
  | wakeNext (c i ret) :
      Code n s p (.wakeup c i .tested ret) (.release i (.wakeup c (i+1) .next ret)) none
  -- kwait
  | waitLock : Code n s p .wait (.acquireWait (.waitScan 0 false)) none
  | waitSkip (i k) (hi : i < n) (hpar : (s.proc i).parent ≠ some p) :
      Code n s p (.waitScan i k) (.goto (.waitScan (i+1) k)) none
  | waitChild (i k) (hi : i < n) (hpar : (s.proc i).parent = some p) :
      Code n s p (.waitScan i k) (.acquire i (.waitChild i)) none
  | waitAlive (i) (hz : (s.proc i).state ≠ .zombie) :
      Code n s p (.waitChild i) (.goto (.waitNext i)) none
  | waitNext (i) : Code n s p (.waitNext i) (.release i (.waitScan (i+1) true)) none
  | waitReap (i) (hz : (s.proc i).state = .zombie) :
      Code n s p (.waitChild i) (.store i .freed (.waitLeave i))
        (some (.reaped (s.proc p).pid (s.proc i).pid (s.proc i).xstate))
  | waitCopyout (i) (hz : (s.proc i).state = .zombie) :
      Code n s p (.waitChild i) (.goto (.waitLeave i)) none
  | waitLeave (i) : Code n s p (.waitLeave i) (.release i .waitDone) none
  | waitAlone (i) (hi : n ≤ i) :
      Code n s p (.waitScan i false) (.goto .waitDone) (some (.alone p))
  | waitKilled (i) (hi : n ≤ i) : Code n s p (.waitScan i true) (.acquire p .waitKilled) none
  | waitGone (hk : (s.proc p).killed = true) : Code n s p .waitKilled (.release p .waitDone) none
  | waitSleep (hk : (s.proc p).killed = false) :
      Code n s p .waitKilled (.release p (.sleep .called)) none
  | waitDone : Code n s p .waitDone (.releaseWait .out) none
  -- sleep(p, &wait_lock)
  | sleepLock : Code n s p (.sleep .called) (.acquire p (.sleep .locked)) none
  | sleepUnlock : Code n s p (.sleep .locked) (.releaseWait (.sleep .unlocked)) none
  | sleepChan :
      Code n s p (.sleep .unlocked) (.store p { s.proc p with chan := some p } (.sleep .chanSet)) none
  | sleepState :
      Code n s p (.sleep .chanSet) (.store p { s.proc p with state := .sleeping } (.sleep .stateSet))
        none
  | sleepSched : Code n s p (.sleep .stateSet) (.sched (.sleep .off)) none
  | sleepTidy :
      Code n s p (.sleep .resumed) (.store p { s.proc p with chan := none } (.sleep .tidied)) none
  | sleepOpen : Code n s p (.sleep .tidied) (.release p (.sleep .again)) none
  | sleepAgain : Code n s p (.sleep .again) (.acquireWait (.waitScan 0 false)) none
  -- kkill
  | killEnd (pid i) (hi : n ≤ i) : Code n s p (.kkill pid i .next) (.goto .out) none
  | killLock (pid i) (hi : i < n) :
      Code n s p (.kkill pid i .next) (.acquire i (.kkill pid i .taken)) none
  | killHit (pid i) (hpid : (s.proc i).pid = pid) :
      Code n s p (.kkill pid i .taken) (.store i (s.proc i).kill (.killed i)) none
  | killMiss (pid i) (hpid : (s.proc i).pid ≠ pid) :
      Code n s p (.kkill pid i .taken) (.goto (.kkill pid i .tested)) none
  | killNext (pid i) : Code n s p (.kkill pid i .tested) (.release i (.kkill pid (i+1) .next)) none
  | killDone (i) : Code n s p (.killed i) (.release i .out) none

/-- A process that is neither new nor gone. -/
def Alive (st : ProcState) : Prop := st = .sleeping ∨ st = .runnable ∨ st = .running

instance (st : ProcState) : Decidable (Alive st) := inferInstanceAs (Decidable (_ ∨ _ ∨ _))

/-- What the rest of the kernel does to a live process outside these calls: it yields, is run,
sleeps on something that is not a process and is woken, and may be marked killed. -/
structure Elsewhere (r r' : Proc) : Prop where
  before : Alive r.state
  after : Alive r'.state
  chan : r'.chan = r.chan
  xstate : r'.xstate = r.xstate
  pid : r'.pid = r.pid
  parent : r'.parent = r.parent
  killed : r.killed = true → r'.killed = true

/-- The steps of process `p` of `n`, and of the schedulers on it. A scheduler that finds a process
ready in `sleep` runs it; one that is ready elsewhere runs by the step `other`. -/
inductive Step (n : Nat) (s : State) : Nat × Option Event → State → Prop
  | code {p ins ev} (hc : Code n s p (s.pc p) ins ev) (hr : s.Ready ins) :
      Step n s (p, ev) (s.exec p ins)
  | pick {p} (hfree : s.plock p = none) : Step n s (p, none) (s.setPlock p (some .pick))
  | run {p} (hpick : s.plock p = some .pick) (hstate : (s.proc p).state = .runnable)
      (hpc : s.pc p = .sleep .off) : Step n s (p, none) (s.resume p)
  | drop {p} (hheld : s.plock p = some .pick ∨ s.plock p = some .back)
      (hrun : s.plock p = some .pick → ¬ ((s.proc p).state = .runnable ∧ s.pc p = .sleep .off)) :
      Step n s (p, none) (s.setPlock p none)
  | other {p r} (hpc : s.pc p = .out) (hfree : s.plock p = none) (hr : Elsewhere (s.proc p) r) :
      Step n s (p, none) (s.setProc p r)

/-- After `userinit`: the first process is ready, and the table is empty otherwise. -/
def State.boot : State where
  proc := fun p => if p = initproc then ⟨.runnable, none, false, 0, 1, none⟩ else .freed
  plock := fun _ => none
  wlock := none
  nextpid := 2
  pc := fun _ => .out

end Xv6Labs.Life
