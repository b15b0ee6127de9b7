import Xv6Labs.Sys.Dir

/-! The name-space calls of `kernel/sysfile.c` in Task 5.2. An argument string that `argstr`
refuses is `none`. -/
namespace Xv6Labs.Sys

abbrev maxpath : Nat := 128
abbrev dot : Str := [46]
abbrev dotdot : Str := [46, 46]

/-- A string that `argstr` accepts. -/
structure Arg where
  str : Str
  noNul : 0 ∉ str
  short : str.length < maxpath

def isdirempty (dp : Nat) : K Bool := do
  let nd ← inode dp
  let r ← scan dp "isdirempty: readi" (fun de => de.inum ≠ 0) (nd.data.length + 1)
    (2*direntSize)
  pure r.2.isNone

/-- The `fail` exit of `create`. -/
def createFail (dp ip : Nat) : K (Option Nat) := do
  iupdate ip fun n => { n with nlink := 0 }
  iunlockput ip
  iunlockput dp
  pure none

/-- The entries `.` and `..` of a new directory. -/
def makeDots (dp ip : Nat) (type : Int16) : K Int :=
  if type = tDir then do
    if (← dirlink ip dot ip) < 0 then pure (-1) else dirlink ip dotdot dp
  else pure 0

/-- `create` once the name is known to be free and `ip` has been allocated. -/
def createNew (dp ip : Nat) (name : Str) (type major minor : Int16) : K (Option Nat) := do
  ilock ip
  iupdate ip fun n => { n with major := major, minor := minor, nlink := 1 }
  if (← makeDots dp ip type) < 0 then createFail dp ip
  else if (← dirlink dp name ip) < 0 then createFail dp ip
  else
    onlyIf (type = tDir) (iupdate dp fun n => { n with nlink := n.nlink + 1 })
    iunlockput dp
    pure (some ip)

def create (path : Str) (type major minor : Int16) : K (Option Nat) := do
  match ← nameiparent path with
  | none => pure none
  | some (dp, name) =>
    ilock dp
    match ← dirlookup dp name with
    | some (ip, _) =>
      iunlockput dp
      ilock ip
      let nd ← inode ip
      if type = tSymlink ∨ type = tFile ∧ (nd.type = tFile ∨ nd.type = tDevice) then
        pure (some ip)
      else
        iunlockput ip
        pure none
    | none =>
      match ← ialloc type with
      | none =>
        iunlockput dp
        pure none
      | some ip => createNew dp ip name type major minor

/-- The `bad` exit of `sys_link`. -/
def linkBad (ip : Nat) : K Int := do
  ilock ip
  iupdate ip fun n => { n with nlink := n.nlink - 1 }
  iunlockput ip
  endOp
  pure (-1)

/-- `sys_link`; there is one device. -/
def sysLink (old new : Option Arg) : K Int := do
  match old, new with
  | some old, some new =>
    beginOp
    match ← namei old.str with
    | none =>
      endOp
      pure (-1)
    | some ip =>
      ilock ip
      let nd ← inode ip
      if nd.type = tDir then
        iunlockput ip
        endOp
        pure (-1)
      else
        iupdate ip fun n => { n with nlink := n.nlink + 1 }
        iunlock ip
        match ← nameiparent new.str with
        | none => linkBad ip
        | some (dp, name) =>
          ilock dp
          if (← dirlink dp name ip) < 0 then
            iunlockput dp
            linkBad ip
          else
            iunlockput dp
            iput ip
            endOp
            pure 0
  | _, _ => pure (-1)

/-- A directory that is not empty. -/
def dirfull (ip : Nat) (type : Int16) : K Bool :=
  if type = tDir then do
    let empty ← isdirempty ip
    pure (!empty)
  else pure false

/-- The `bad` exit of `sys_unlink`. -/
def unlinkBad (dp : Nat) : K Int := do
  iunlockput dp
  endOp
  pure (-1)

/-- `sys_unlink` once the entry of `ip` at `off` of `dp` may go. -/
def unlinkEntry (dp ip off : Nat) (isDir : Bool) : K Int := do
  let n ← writei dp (List.replicate direntSize 0) off
  if n ≠ direntSize then throw "unlink: writei"
  else
    onlyIf isDir (iupdate dp fun n => { n with nlink := n.nlink - 1 })
    iunlockput dp
    iupdate ip fun n => { n with nlink := n.nlink - 1 }
    iunlockput ip
    endOp
    pure 0

def sysUnlink (path : Option Arg) : K Int := do
  match path with
  | none => pure (-1)
  | some path =>
    beginOp
    match ← nameiparent path.str with
    | none =>
      endOp
      pure (-1)
    | some (dp, name) =>
      ilock dp
      if namecmp name dot = 0 ∨ namecmp name dotdot = 0 then unlinkBad dp
      else
        match ← dirlookup dp name with
        | none => unlinkBad dp
        | some (ip, off) =>
          ilock ip
          let nd ← inode ip
          if nd.nlink < 1 then throw "unlink: nlink < 1"
          else
            if ← dirfull ip nd.type then
              iunlockput ip
              unlinkBad dp
            else unlinkEntry dp ip off (nd.type = tDir)

/-- What is stored for a target: the string and its NUL. -/
def Arg.stored (a : Arg) : List UInt8 := a.str ++ [0]

/-- `sys_symlink` once `create` has returned the locked inode. -/
def storeTarget (ip : Nat) (target : Arg) : K Int := do
  let n ← writei ip target.stored 0
  if n ≠ target.stored.length then
    iupdate ip fun n => { n with nlink := 0 }
    iunlockput ip
    endOp
    pure (-1)
  else
    iunlockput ip
    endOp
    pure 0

def sysSymlink (target path : Option Arg) : K Int := do
  match target, path with
  | some target, some path =>
    beginOp
    match ← create path.str tSymlink 0 0 with
    | none =>
      endOp
      pure (-1)
    | some ip => storeTarget ip target
  | _, _ => pure (-1)

/-- The string in a buffer. -/
def cstr (buf : List UInt8) : Str := buf.takeWhile (· ≠ 0)

/-- The loop of `sys_open` that follows links, with the inode and the count where it stops.
`buf` is the array `path`; the first argument is what `count` lacks of 10. -/
def follow : Nat → Nat → List UInt8 → Nat → K (Option (Nat × Nat))
  | 0, count, _, ip => pure (some (ip, count))
  | fuel+1, count, buf, ip => do
    let nd ← inode ip
    if nd.type = tSymlink then
      let len := 0
      let b ← readi ip 0 (len+1)
      if b.length ≠ len+1 then
        iunlockput ip
        pure none
      else
        iunlockput ip
        let buf := b ++ buf.drop (len+1)
        match ← namei (cstr buf) with
        | none => pure none
        | some ip =>
          ilock ip
          follow fuel (count+1) buf ip
    else pure (some (ip, count))

/-- The inode to open, for the locked inode `ip` that `path` names. -/
def openLink (path : Arg) (omode : UInt32) (ip : Nat) (type : Int16) : K (Option (Nat × Nat)) :=
  if type = tSymlink ∧ omode &&& oNofollow = 0 then follow 10 0 path.stored ip
  else pure (some (ip, 0))

/-- The checks on the locked inode to open. -/
def openCheck (omode : UInt32) : Option (Nat × Nat) → K (Option Nat)
  | none => pure none
  | some (ip, count) =>
    if 10 ≤ count then do
      iunlockput ip
      pure none
    else do
      let nd ← inode ip
      if nd.type = tDir ∧ omode ≠ 0 then
        iunlockput ip
        pure none
      else pure (some ip)

/-- The half of `sys_open` that finds the inode and locks it. -/
def openInode (path : Arg) (omode : UInt32) : K (Option Nat) := do
  if omode &&& oCreate ≠ 0 then create path.str tFile 0 0
  else
    match ← namei path.str with
    | none => pure none
    | some ip =>
      ilock ip
      let nd ← inode ip
      let r ← openLink path omode ip nd.type
      openCheck omode r

def openFail (ip : Nat) : K Int := do
  iunlockput ip
  endOp
  pure (-1)

/-- The fields that `sys_open` fills in. -/
def File.opened (x : File) (nd : Node) (ip : Nat) (omode : UInt32) : File where
  type := if nd.type = tDevice then .device else .inode
  ref := x.ref
  readable := omode &&& oWronly = 0
  writable := omode &&& oWronly ≠ 0 ∨ omode &&& oRdwr ≠ 0
  ip := ip
  off := if nd.type = tDevice then x.off else 0
  major := if nd.type = tDevice then nd.major else x.major

/-- The half of `sys_open` that makes the open file. -/
def openFile (ip : Nat) (omode : UInt32) : K Int := do
  let nd ← inode ip
  if nd.type = tDevice ∧ (nd.major < 0 ∨ (ndev : Int) ≤ nd.major.toInt) then openFail ip
  else
    match ← filealloc with
    | none => openFail ip
    | some f =>
      match ← fdalloc f with
      | none =>
        fileclose f
        openFail ip
      | some fd =>
        let x ← file f
        setFile f (x.opened nd ip omode)
        onlyIf (omode &&& oTrunc ≠ 0 ∧ nd.type = tFile) (itrunc ip)
        iunlock ip
        endOp
        pure fd

def sysOpen (path : Option Arg) (omode : UInt32) : K Int := do
  match path with
  | none => pure (-1)
  | some path =>
    beginOp
    match ← openInode path omode with
    | none =>
      endOp
      pure (-1)
    | some ip => openFile ip omode

/-- `sys_mkdir` and `sys_mknod`: `create` a name and leave it. -/
def makeNode (path : Option Arg) (type major minor : Int16) : K Int := do
  beginOp
  match path with
  | none =>
    endOp
    pure (-1)
  | some path =>
    match ← create path.str type major minor with
    | none =>
      endOp
      pure (-1)
    | some ip =>
      iunlockput ip
      endOp
      pure 0

def sysMkdir (path : Option Arg) : K Int := makeNode path tDir 0 0

def sysMknod (path : Option Arg) (major minor : Int32) : K Int :=
  makeNode path tDevice major.toInt16 minor.toInt16

end Xv6Labs.Sys
