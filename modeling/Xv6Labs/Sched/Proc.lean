import Mathlib.Logic.Function.Basic

/-! What the models of `kernel/proc.c` share: the process states, the places inside `sleep` and the
loops over the process table, and what `wakeup` and `kkill` do to a process. -/
namespace Xv6Labs

inductive ProcState where
  | unused | used | sleeping | runnable | running | zombie
  deriving DecidableEq, Repr

namespace Wait

/-- The places inside `sleep`, each named after what was done last. -/
inductive Doze where
  | called
  | locked      -- acquire(&p->lock)
  | unlocked    -- release(lk)
  | chanSet     -- p->chan = chan
  | stateSet    -- p->state = SLEEPING
  | off         -- sched()
  | resumed     -- back from sched()
  | tidied      -- p->chan = 0
  | again       -- release(&p->lock)

/-- The places inside a round of a loop over the process table. -/
inductive Scan where
  | next
  | taken       -- acquire(&p->lock)
  | tested

/-- Who holds a `p->lock`: a process, a scheduler that looks at `p`, or the scheduler that `p`
has just switched to. -/
inductive Holder where
  | proc (p : Nat)
  | pick
  | back

/-- `struct proc`; `chan` is `none` for all that is not a mailbox. -/
structure Proc where
  state : ProcState
  chan : Option Nat
  killed : Bool
  pid : Int

/-- The body of `wakeup` for one process. -/
def Proc.wake (r : Proc) (b : Nat) : Proc :=
  if r.state = .sleeping ∧ r.chan = some b then { r with state := .runnable } else r

/-- The body of `kkill` for the process with the pid. -/
def Proc.kill (r : Proc) : Proc :=
  { r with killed := true, state := if r.state = .sleeping then .runnable else r.state }

end Wait

end Xv6Labs
