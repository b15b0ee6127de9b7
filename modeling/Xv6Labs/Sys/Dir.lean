import Xv6Labs.Sys.Inodes

/-! Directories and paths, from the end of `kernel/fs.c`. -/
namespace Xv6Labs.Sys

abbrev dirsiz : Nat := 14
abbrev slash : UInt8 := 47

/-- A string of the kernel, without its final NUL. -/
abbrev Str := List UInt8

/-- `struct dirent`. -/
structure Dirent where
  inum : Nat
  name : List UInt8
  deriving DecidableEq

abbrev direntSize : Nat := 16

def Dirent.ofBytes (b : List UInt8) : Dirent :=
  ⟨(b.getD 0 0).toNat + 256*(b.getD 1 0).toNat, b.drop 2⟩

/-- `strncpy(de.name, name, DIRSIZ)`. -/
def strncpy (name : Str) : List UInt8 := (name ++ List.replicate dirsiz 0).take dirsiz

/-- The entry `(name, inum)`; the inode number is stored in 16 bits. -/
def Dirent.bytes (inum : Nat) (name : Str) : List UInt8 :=
  UInt8.ofNat inum :: UInt8.ofNat (inum/256) :: strncpy name

/-- `strncmp`, where a string ends with its list. -/
def strncmp : List UInt8 → List UInt8 → Nat → Int
  | _, _, 0 => 0
  | p, q, n+1 =>
    if p.headD 0 ≠ 0 ∧ p.headD 0 = q.headD 0 then strncmp p.tail q.tail n
    else (p.headD 0).toNat - (q.headD 0).toNat

def namecmp (s t : List UInt8) : Int := strncmp s t dirsiz

/-- The loop over the entries of `dp` that stops at the first one with `p`, and its offset at
the end. -/
def scan (dp : Nat) (msg : String) (p : Dirent → Bool) : Nat → Nat → K (Nat × Option Dirent)
  | 0, off => pure (off, none)
  | fuel+1, off => do
    let nd ← inode dp
    if off < nd.data.length then
      let b ← readi dp off direntSize
      if b.length ≠ direntSize then throw msg
      else if p (.ofBytes b) then pure (off, some (.ofBytes b))
      else scan dp msg p fuel (off + direntSize)
    else pure (off, none)

/-- The inode number of the entry, with a reference, and the offset of the entry. -/
def dirlookup (dp : Nat) (name : Str) : K (Option (Nat × Nat)) := do
  let nd ← inode dp
  if nd.type ≠ tDir then throw "dirlookup not DIR"
  else
    let r ← scan dp "dirlookup read" (fun de => de.inum ≠ 0 ∧ namecmp name de.name = 0)
      (nd.data.length + 1) 0
    match r.2 with
    | none => pure none
    | some de =>
      iget de.inum
      pure (some (de.inum, r.1))

def dirlink (dp : Nat) (name : Str) (inum : Nat) : K Int := do
  match ← dirlookup dp name with
  | some (ip, _) =>
    iput ip
    pure (-1)
  | none =>
    let nd ← inode dp
    let r ← scan dp "dirlink read" (fun de => de.inum = 0) (nd.data.length + 1) 0
    let n ← writei dp (Dirent.bytes inum name) r.1
    if n ≠ direntSize then pure (-1) else pure 0

/-! Paths. -/

/-- The next element of a path, cut to `DIRSIZ`, and what follows it. -/
def skipelem (path : Str) : Option (Str × Str) :=
  let s := path.dropWhile (· = slash)
  if s = [] then none
  else some ((s.takeWhile (· ≠ slash)).take dirsiz,
    (s.dropWhile (· ≠ slash)).dropWhile (· = slash))

/-- What `skipelem` gives call by call. -/
def elems : Nat → Str → List Str
  | 0, _ => []
  | fuel+1, path =>
    match skipelem path with
    | none => []
    | some (name, rest) => name :: elems fuel rest

def elements (path : Str) : List Str := elems path.length path

/-- The loop of `namex` over the elements of the path; the last element is the one after which
`*path` is NUL. -/
def namexLoop (parent : Bool) (ip : Nat) : List Str → K (Option (Nat × Str))
  | [] =>
    if parent then do
      iput ip
      pure none
    else pure (some (ip, []))
  | name :: rest => do
    ilock ip
    let nd ← inode ip
    if nd.type ≠ tDir then
      iunlockput ip
      pure none
    else if parent ∧ rest = [] then
      iunlock ip
      pure (some (ip, name))
    else
      match ← dirlookup ip name with
      | none =>
        iunlockput ip
        pure none
      | some (next, _) =>
        iunlockput ip
        namexLoop parent next rest

/-- Where a path starts, with a reference. -/
def startInode (path : Str) : K Nat := do
  let s ← get
  if path.head? = some slash then
    iget rootino
    pure rootino
  else
    idup s.myproc.cwd
    pure s.myproc.cwd

def namex (path : Str) (parent : Bool) : K (Option (Nat × Str)) := do
  let ip ← startInode path
  namexLoop parent ip (elements path)

def namei (path : Str) : K (Option Nat) := do
  let r ← namex path false
  pure (r.map Prod.fst)

def nameiparent (path : Str) : K (Option (Nat × Str)) := namex path true

end Xv6Labs.Sys
