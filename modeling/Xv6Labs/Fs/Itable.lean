import Mathlib.Data.Multiset.AddSub
import Mathlib.Data.Finset.Basic
import Xv6Labs.Fs.Disk

/-! The inode table of `kernel/fs.c` in Task 5.1 with many processes at work: `ialloc`, `iget`,
`idup`, `ilock`, `iunlock` and `iput`, one lock operation or one access at a time. The fields
`ref` and `inum` are used under `itable.lock`, the others under the sleep-lock of the inode, with
the one exception that `iput` looks at them before it takes that lock. -/
namespace Xv6Labs.Itable
open Fs (Dinode)

/-- `struct inode`, with the copy of the on-disk inode. -/
structure Slot where
  inum : Nat
  ref : Nat
  valid : Bool
  copy : Dinode

/-- Why `iget` is called: a directory has an entry for the inode that its `nlink` counts, it is the
`.` of the directory that the process has locked, or `ialloc` has just marked it. -/
inductive Why where
  | named
  | dot
  | fresh
  deriving DecidableEq

inductive Panic where
  | noInodes                      -- "iget: no inodes"
  | ilock                         -- "ilock"
  | noType                        -- "ilock: no type"
  | iunlock                       -- "iunlock"

/-- Where a process is. The places of a call are named after what was done last. -/
inductive Pc where
  | out
  | iget (inum : Nat) (w : Why)
  | igetScan (inum : Nat) (w : Why) (i : Nat) (empty : Option Nat)
  | idup (i : Nat)
  | idupLock (i : Nat)            -- acquire(&itable.lock)
  | tableDone                     -- the last access under itable.lock
  | ilock (i : Nat)
  | ilockRef (i : Nat)            -- ip->ref is not below 1
  | ilockTaken (i : Nat)          -- acquiresleep(&ip->lock)
  | ilockRead (i : Nat)           -- the fields are read from the disk
  | ilockValid (i : Nat)          -- ip->valid = 1
  | iunlock (i : Nat)
  | iput (i : Nat)
  | iputTest (i : Nat)            -- acquire(&itable.lock)
  | iputLast (i : Nat)            -- no links and no other references
  | iputTaken (i : Nat)           -- acquiresleep(&ip->lock)
  | iputOpen (i : Nat)            -- release(&itable.lock)
  | iputEmpty (i : Nat)           -- itrunc, before its iupdate
  | iputTrunc (i : Nat)           -- itrunc(ip)
  | iputType (i : Nat)            -- ip->type = 0
  | iputUpdate (i : Nat)          -- iupdate(ip)
  | iputValid (i : Nat)           -- ip->valid = 0
  | iputAway (i : Nat)            -- releasesleep(&ip->lock)
  | iputDrop (i : Nat) (freed : Bool) -- before ip->ref--
  | ialloc (type : Int16) (inum : Nat)
  | changed (i : Nat)             -- the caller has changed ip->xxx
  | panic (x : Panic)

/-- `ptr i` are the pointers to entry `i`, each with the processes that use it: a pointer on a
kernel stack has one user, that of an open file has all that share the file. `names` are the
links of an inode that its `nlink` counts and lookups may meet: its entries in directories (that of
`sys_link` from its `nlink++` on, before the entry is written), among them the `..` of each
directory that has a link itself. -/
structure State where
  slot : Nat → Slot
  disk : Nat → Dinode
  tlock : Option Nat
  slock : Nat → Option Nat
  ptr : Nat → Multiset (Finset Nat)
  names : Nat → Nat
  pc : Nat → Pc

/-- What a step may do, and where the process is then. -/
inductive Eff where
  | goto (c : Pc)
  | lock (c : Pc)
  | unlock (c : Pc)
  | take (i : Nat) (c : Pc)
  | leave (i : Nat) (c : Pc)
  | add (i : Nat) (c : Pc)
  | fill (i inum : Nat) (c : Pc)
  | del (i : Nat) (c : Pc)
  | put (i : Nat) (valid : Bool) (copy : Dinode) (c : Pc)
  | write (inum : Nat) (d : Dinode) (c : Pc)
  | name (inum k : Nat)
  | share (i : Nat) (U V : Finset Nat)

namespace State
variable (s : State)

def setSlot (i : Nat) (x : Slot) : State := { s with slot := Function.update s.slot i x }
def setPtr (i : Nat) (m : Multiset (Finset Nat)) : State := { s with ptr := Function.update s.ptr i m }
def setPc (p : Nat) (c : Pc) : State := { s with pc := Function.update s.pc p c }

def exec (p : Nat) : Eff → State
  | .goto c => s.setPc p c
  | .lock c => { s with tlock := some p }.setPc p c
  | .unlock c => { s with tlock := none }.setPc p c
  | .take i c => { s with slock := Function.update s.slock i (some p) }.setPc p c
  | .leave i c => { s with slock := Function.update s.slock i none }.setPc p c
  | .add i c =>
    ((s.setSlot i { s.slot i with ref := (s.slot i).ref + 1 }).setPtr i ({p} ::ₘ s.ptr i)).setPc p c
  | .fill i inum c =>
    ((s.setSlot i { s.slot i with inum := inum, ref := 1, valid := false }).setPtr i {{p}}).setPc p c
  | .del i c =>
    ((s.setSlot i { s.slot i with ref := (s.slot i).ref - 1 }).setPtr i
      ((s.ptr i).erase {p})).setPc p c
  | .put i valid copy c => (s.setSlot i { s.slot i with valid := valid, copy := copy }).setPc p c
  | .write inum d c => { s with disk := Function.update s.disk inum d }.setPc p c
  | .name inum k => { s with names := Function.update s.names inum k }
  | .share i U V => s.setPtr i (V ::ₘ (s.ptr i).erase U)

/-- A lock is free when it is taken. -/
def Ready : Eff → Prop
  | .lock _ => s.tlock = none
  | .take i _ => s.slock i = none
  | _ => True

/-- Process `p` has the use of a pointer to entry `i`. -/
def Uses (p i : Nat) : Prop := ∃ U ∈ s.ptr i, p ∈ U

/-- A lookup by a counted link is on its way to the inode. -/
def Looked (inum : Nat) : Prop :=
  ∃ q, s.pc q = .iget inum .named ∨ ∃ i e, s.pc q = .igetScan inum .named i e

end State

/-- What `itrunc` leaves in the inode. -/
def trunc (d : Dinode) : Dinode := { d with size := 0, addrs := fun _ => 0 }

/-- The code of process `p` over a table of `n` entries and a disk of `ninodes` inodes. The callers
keep to the rules that `kernel/fs.c` states: they use a pointer only while they have it, change an
inode only with its lock held, and do not unlock it before the `iupdate`. A lookup holds the
directory's lock, so that the entry it has found stays there until `iget` is done: what is removed
meanwhile is another link. The `..` of a directory that has been removed is no link: nothing keeps
the inode it names. -/
inductive Code (n ninodes : Nat) (s : State) (p : Nat) : Pc → Eff → Prop
  -- the callers
  | callIget (inum) (h : 0 < s.names inum) : Code n ninodes s p .out (.goto (.iget inum .named))
  | callDot (i) (h : s.slock i = some p) :
      Code n ninodes s p .out (.goto (.iget (s.slot i).inum .dot))
  | callIdup (i) (h : s.Uses p i) : Code n ninodes s p .out (.goto (.idup i))
  | callIlock (i) (h : s.Uses p i) (hno : s.slock i ≠ some p) :
      Code n ninodes s p .out (.goto (.ilock i))
  | callIunlock (i) (h : s.slock i = some p) : Code n ninodes s p .out (.goto (.iunlock i))
  | callIput (i) (h : {p} ∈ s.ptr i) (hno : s.slock i ≠ some p) :
      Code n ninodes s p .out (.goto (.iput i))
  | callIalloc (type) (h : type ≠ 0) : Code n ninodes s p .out (.goto (.ialloc type 1))
  | change (i d) (h : s.slock i = some p) (ht : d.type = (s.slot i).copy.type)
      (hn : (s.names (s.slot i).inum : Int) ≤ d.nlink.toInt) :
      Code n ninodes s p .out (.put i (s.slot i).valid d (.changed i))
  | update (i) : Code n ninodes s p (.changed i) (.write (s.slot i).inum (s.slot i).copy .out)
  | link (i) (h : s.slock i = some p)
      (hn : (s.names (s.slot i).inum + 1 : Int) ≤ (s.slot i).copy.nlink.toInt) :
      Code n ninodes s p .out (.name (s.slot i).inum (s.names (s.slot i).inum + 1))
  | unlink (inum) (h : s.Looked inum → 1 < s.names inum) :
      Code n ninodes s p .out (.name inum (s.names inum - 1))
  -- open files are shared by `kfork` and closed
  | share (i U q) (hU : U ∈ s.ptr i) (hp : p ∈ U) :
      Code n ninodes s p .out (.share i U (insert q U))
  | close (i U) (hU : U ∈ s.ptr i) (hp : p ∈ U) (hmore : U ≠ {p}) (hno : s.slock i ≠ some p) :
      Code n ninodes s p .out (.share i U (U.erase p))
  -- iget
  | igetLock (inum w) : Code n ninodes s p (.iget inum w) (.lock (.igetScan inum w 0 none))
  | igetHit (inum w i e) (hi : i < n) (hr : 0 < (s.slot i).ref) (hm : (s.slot i).inum = inum) :
      Code n ninodes s p (.igetScan inum w i e) (.add i .tableDone)
  | igetEmpty (inum w i) (hi : i < n) (hr : (s.slot i).ref = 0) :
      Code n ninodes s p (.igetScan inum w i none) (.goto (.igetScan inum w (i+1) (some i)))
  | igetNext (inum w i e) (hi : i < n) (hm : ¬ (0 < (s.slot i).ref ∧ (s.slot i).inum = inum))
      (he : e = none → (s.slot i).ref ≠ 0) :
      Code n ninodes s p (.igetScan inum w i e) (.goto (.igetScan inum w (i+1) e))
  | igetFull (inum w i) (hi : n ≤ i) :
      Code n ninodes s p (.igetScan inum w i none) (.goto (.panic .noInodes))
  | igetRecycle (inum w i j) (hi : n ≤ i) :
      Code n ninodes s p (.igetScan inum w i (some j)) (.fill j inum .tableDone)
  | tableDone : Code n ninodes s p .tableDone (.unlock .out)
  -- idup
  | idupLock (i) : Code n ninodes s p (.idup i) (.lock (.idupLock i))
  | idupRef (i) : Code n ninodes s p (.idupLock i) (.add i .tableDone)
  -- ilock
  | ilockPanic (i) (hr : (s.slot i).ref < 1) :
      Code n ninodes s p (.ilock i) (.goto (.panic .ilock))
  | ilockRef (i) (hr : ¬ (s.slot i).ref < 1) : Code n ninodes s p (.ilock i) (.goto (.ilockRef i))
  | ilockTake (i) : Code n ninodes s p (.ilockRef i) (.take i (.ilockTaken i))
  | ilockHave (i) (hv : (s.slot i).valid = true) : Code n ninodes s p (.ilockTaken i) (.goto .out)
  | ilockRead (i) (hv : (s.slot i).valid = false) :
      Code n ninodes s p (.ilockTaken i) (.put i false (s.disk (s.slot i).inum) (.ilockRead i))
  | ilockValid (i) :
      Code n ninodes s p (.ilockRead i) (.put i true (s.slot i).copy (.ilockValid i))
  | ilockNoType (i) (ht : (s.slot i).copy.type = 0) :
      Code n ninodes s p (.ilockValid i) (.goto (.panic .noType))
  | ilockDone (i) (ht : (s.slot i).copy.type ≠ 0) : Code n ninodes s p (.ilockValid i) (.goto .out)
  -- iunlock
  | iunlockPanic (i) (h : s.slock i ≠ some p ∨ (s.slot i).ref < 1) :
      Code n ninodes s p (.iunlock i) (.goto (.panic .iunlock))
  | iunlock (i) (h : ¬ (s.slock i ≠ some p ∨ (s.slot i).ref < 1)) :
      Code n ninodes s p (.iunlock i) (.leave i .out)
  -- iput
  | iputLock (i) : Code n ninodes s p (.iput i) (.lock (.iputTest i))
  | iputLast (i) (h : (s.slot i).ref = 1 ∧ (s.slot i).valid = true ∧ (s.slot i).copy.nlink = 0) :
      Code n ninodes s p (.iputTest i) (.goto (.iputLast i))
  | iputMore (i) (h : ¬ ((s.slot i).ref = 1 ∧ (s.slot i).valid = true ∧ (s.slot i).copy.nlink = 0)) :
      Code n ninodes s p (.iputTest i) (.goto (.iputDrop i false))
  | iputTake (i) : Code n ninodes s p (.iputLast i) (.take i (.iputTaken i))
  | iputOpen (i) : Code n ninodes s p (.iputTaken i) (.unlock (.iputOpen i))
  | iputEmpty (i) :
      Code n ninodes s p (.iputOpen i) (.put i (s.slot i).valid (trunc (s.slot i).copy) (.iputEmpty i))
  | iputTrunc (i) :
      Code n ninodes s p (.iputEmpty i) (.write (s.slot i).inum (s.slot i).copy (.iputTrunc i))
  | iputType (i) :
      Code n ninodes s p (.iputTrunc i)
        (.put i (s.slot i).valid { (s.slot i).copy with type := 0 } (.iputType i))
  | iputUpdate (i) :
      Code n ninodes s p (.iputType i) (.write (s.slot i).inum (s.slot i).copy (.iputUpdate i))
  | iputValid (i) :
      Code n ninodes s p (.iputUpdate i) (.put i false (s.slot i).copy (.iputValid i))
  | iputAway (i) : Code n ninodes s p (.iputValid i) (.leave i (.iputAway i))
  | iputAgain (i) : Code n ninodes s p (.iputAway i) (.lock (.iputDrop i true))
  | iputDrop (i b) : Code n ninodes s p (.iputDrop i b) (.del i .tableDone)
  -- ialloc
  | iallocNext (type inum) (hi : inum < ninodes) (ht : (s.disk inum).type ≠ 0) :
      Code n ninodes s p (.ialloc type inum) (.goto (.ialloc type (inum+1)))
  | iallocFound (type inum) (hi : inum < ninodes) (ht : (s.disk inum).type = 0) :
      Code n ninodes s p (.ialloc type inum) (.write inum (.fresh type) (.iget inum .fresh))
  | iallocNone (type inum) (hi : ninodes ≤ inum) :
      Code n ninodes s p (.ialloc type inum) (.goto .out)

inductive Step (n ninodes : Nat) (s : State) : Nat → State → Prop
  | mk {p e} (hc : Code n ninodes s p (s.pc p) e) (hr : s.Ready e) : Step n ninodes s p (s.exec p e)

/-- After `iinit` nothing is in the table; a link is to an inode that is allocated and counts it. -/
structure State.Init (s : State) : Prop where
  ref : ∀ i, (s.slot i).ref = 0
  ptr : ∀ i, s.ptr i = 0
  tlock : s.tlock = none
  slock : ∀ i, s.slock i = none
  names : ∀ inum, (s.names inum : Int) ≤ (s.disk inum).nlink.toInt
  type : ∀ inum, 0 < s.names inum → (s.disk inum).type ≠ 0
  pc : ∀ p, s.pc p = .out

end Xv6Labs.Itable
