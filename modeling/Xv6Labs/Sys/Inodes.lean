import Mathlib.Logic.Function.Basic
import Xv6Labs.Fs.Content

/-! The file system as `kernel/sysfile.c` of Task 5.2 sees it: inodes with byte arrays, the
reference counts of the inode table, the inode locks, open files and descriptors. A
`struct inode *` is its inode number. The functions of `kernel/fs.c` stand here with their
effect on arrays and counts; `balloc` may fail at any point. -/
namespace Xv6Labs.Sys
open Fs

abbrev tDir : Int16 := 1
abbrev tFile : Int16 := 2
abbrev tDevice : Int16 := 3
abbrev tSymlink : Int16 := 4

abbrev rootino : Nat := 1
abbrev nofile : Nat := 16
abbrev nfile : Nat := 100
abbrev ndev : Nat := 10

abbrev oWronly : UInt32 := 0x001
abbrev oRdwr : UInt32 := 0x002
abbrev oCreate : UInt32 := 0x200
abbrev oTrunc : UInt32 := 0x400
abbrev oNofollow : UInt32 := 0x800

/-- An inode with its content. -/
structure Node where
  type : Int16
  major : Int16
  minor : Int16
  nlink : Int16
  data : List UInt8
  deriving DecidableEq

inductive FdType where
  | none
  | inode
  | device
  deriving DecidableEq

structure File where
  type : FdType
  ref : Nat
  readable : Bool
  writable : Bool
  ip : Nat
  off : Nat
  major : Int16
  deriving DecidableEq

structure Proc where
  cwd : Nat
  ofile : Nat → Option Nat

/-- `inuse` is the number of entries of the inode table with a reference, and `valid` is the
flag of an entry in use. `room k` is the number of blocks that the `k`-th `writei` from now on
can add to a file before the disk is full. `ops` counts the transactions that are open. -/
@[ext] structure State where
  ninodes : Nat
  node : Nat → Node
  ref : Nat → Nat
  valid : Nat → Bool
  inuse : Nat
  locked : Nat → Bool
  room : Nat → Nat
  ops : Nat
  ftable : Nat → File
  proc : Nat → Proc
  cur : Nat

abbrev K := StateT State (Except String)

namespace State
variable (s : State)

def setNode (i : Nat) (n : Node) : State := { s with node := Function.update s.node i n }
def setValid (i : Nat) (b : Bool) : State := { s with valid := Function.update s.valid i b }
def setLocked (i : Nat) (b : Bool) : State := { s with locked := Function.update s.locked i b }
def setRef (i n : Nat) : State := { s with ref := Function.update s.ref i n }

/-- One more reference to the inode `i`; a new entry of the table is not valid. -/
def hold (i : Nat) : State :=
  if s.ref i = 0 then { (s.setRef i 1).setValid i false with inuse := s.inuse + 1 }
  else s.setRef i (s.ref i + 1)

/-- One reference less; the entry becomes empty with the last one. -/
def drop (i : Nat) : State :=
  if s.ref i = 1 then { (s.setRef i 0).setValid i false with inuse := s.inuse - 1 }
  else s.setRef i (s.ref i - 1)

end State

/-- `m` under a condition. -/
def onlyIf (c : Prop) [Decidable c] (m : K Unit) : K Unit := if c then m else pure ()

def beginOp : K Unit := fun s => .ok ((), { s with ops := s.ops + 1 })
def endOp : K Unit := fun s => .ok ((), { s with ops := s.ops - 1 })

/-- The fields of a locked inode. -/
def inode (i : Nat) : K Node := fun s => .ok (s.node i, s)

/-- Changes to the fields of a locked inode, with `iupdate`. -/
def iupdate (i : Nat) (f : Node → Node) : K Unit := fun s => .ok ((), s.setNode i (f (s.node i)))

def iget (i : Nat) : K Unit := fun s =>
  if s.ref i = 0 ∧ ninode ≤ s.inuse then .error "iget: no inodes" else .ok ((), s.hold i)

def idup (i : Nat) : K Unit := fun s => .ok ((), s.hold i)

/-- A second `ilock` by the same process never returns. -/
def ilock (i : Nat) : K Unit := fun s =>
  if s.ref i < 1 then .error "ilock"
  else if s.locked i then .error "acquiresleep"
  else if s.valid i then .ok ((), s.setLocked i true)
  else if (s.node i).type = 0 then .error "ilock: no type"
  else .ok ((), (s.setLocked i true).setValid i true)

def iunlock (i : Nat) : K Unit := fun s =>
  if s.locked i = false ∨ s.ref i < 1 then .error "iunlock" else .ok ((), s.setLocked i false)

def Node.trunc (n : Node) : Node := { n with data := [] }

/-- What `iput` leaves of an inode that it frees. -/
def Node.freed (n : Node) : Node := { n.trunc with type := 0 }

def itrunc (i : Nat) : K Unit := iupdate i Node.trunc

def iput (i : Nat) : K Unit := fun s =>
  if s.ref i = 1 ∧ s.valid i ∧ (s.node i).nlink = 0 then
    .ok ((), (s.setNode i (s.node i).freed).drop i)
  else .ok ((), s.drop i)

def iunlockput (i : Nat) : K Unit := do
  iunlock i
  iput i

/-- What `ialloc` leaves on the disk. -/
def Node.fresh (type : Int16) : Node := ⟨type, 0, 0, 0, []⟩

/-- The free inode `ialloc` finds, from number 1 on. -/
def State.freeInum (s : State) : Option Nat :=
  ((List.range (s.ninodes - 1)).map (· + 1)).find? fun i => (s.node i).type = 0

def ialloc (type : Int16) : K (Option Nat) := fun s =>
  match s.freeInum with
  | none => .ok (none, s)
  | some i => (iget i (s.setNode i (.fresh type))).map fun r => (some i, r.2)

def readi (i off n : Nat) : K (List UInt8) := fun s =>
  let l := (s.node i).data
  .ok (if off ≤ l.length ∧ off+n < 2^32 then (l.drop off).take n else [], s)

/-- The number of blocks of a file of `size` bytes. -/
def blocks (size : Nat) : Nat := (size + bsize - 1)/bsize

/-- The bytes that `writei` can store from `off` on, where `room` blocks are left. -/
def fits (size room off : Nat) : Nat := (blocks size + room)*bsize - off

def Node.write (x : Node) (off : Nat) (bs : List UInt8) : Node :=
  { x with data := overwrite x.data off bs }

/-- `writei` from kernel memory: it stops at the first block that `bmap` cannot give. -/
def writei (i : Nat) (src : List UInt8) (off : Nat) : K Int := fun s =>
  let nd := s.node i
  if off > nd.data.length ∨ 2^32 ≤ off + src.length then .ok (-1, s)
  else if off + src.length > maxfile*bsize then .ok (-1, s)
  else
    let tot := min src.length (fits nd.data.length (s.room 0) off)
    .ok (tot, { s.setNode i (nd.write off (src.take tot)) with room := fun k => s.room (k+1) })

/-! Open files: `filealloc` and `fileclose` of upstream's `file.c`. -/

def State.setFile (s : State) (f : Nat) (x : File) : State :=
  { s with ftable := Function.update s.ftable f x }

def filealloc : K (Option Nat) := fun s =>
  match (List.range nfile).find? fun f => (s.ftable f).ref = 0 with
  | none => .ok (none, s)
  | some f => .ok (some f, s.setFile f { s.ftable f with ref := 1 })

def file (f : Nat) : K File := fun s => .ok (s.ftable f, s)
def setFile (f : Nat) (x : File) : K Unit := fun s => .ok ((), s.setFile f x)

def fileclose (f : Nat) : K Unit := do
  let ff ← file f
  if 1 < ff.ref then setFile f { ff with ref := ff.ref - 1 }
  else
    setFile f { ff with ref := 0, type := .none }
    onlyIf (ff.type ≠ .none) do
      beginOp
      iput ff.ip
      endOp

def State.myproc (s : State) : Proc := s.proc s.cur

def Proc.setOfile (p : Proc) (fd : Nat) (f : Option Nat) : Proc :=
  { p with ofile := Function.update p.ofile fd f }

def State.setOfile (s : State) (fd : Nat) (f : Option Nat) : State :=
  { s with proc := Function.update s.proc s.cur (s.myproc.setOfile fd f) }

def fdalloc (f : Nat) : K (Option Nat) := fun s =>
  match (List.range nofile).find? fun fd => (s.myproc.ofile fd).isNone with
  | none => .ok (none, s)
  | some fd => .ok (some fd, s.setOfile fd (some f))

end Xv6Labs.Sys
