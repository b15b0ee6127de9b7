import Mathlib.Data.List.FinRange
import Xv6Labs.Kit.Exec
import Xv6Labs.Kit.Numbers
import Xv6Labs.Fs.Bitmap

/-! The inode layer of `kernel/fs.c` in Task 5.1: the block map, reading and writing, and the
table of inodes in memory. A call that panics gives the message; the inode copy `d` stands
for the fields of `struct inode` that live on the disk, changed in memory until `iupdate`. -/
namespace Xv6Labs.Fs
open Kit Bytes

abbrev ninode : Nat := 50

instance : NeZero ninode := ⟨by decide⟩

/-- `struct inode`, with the copy of the on-disk inode. -/
structure Inode where
  inum : Nat
  ref : Nat
  valid : Bool
  copy : Dinode

section Content
variable (sb : Superblock)

/-- `addrs[i]`, allocated if it is zero; the address is 0 when the disk is full. -/
def allocAddr (v : Vol) (d : Dinode) (i : Nat) : Nat × Dinode × Vol :=
  if d.addr i = 0 then
    match balloc sb v with
    | (0, v) => (0, d, v)
    | (addr, v) => (addr, d.setAddr i addr, v)
  else (d.addr i, d, v)

/-- Entry `j` of the index block `a`, allocated if it is zero. -/
def allocPtr (v : Vol) (a j : Nat) : Nat × Vol :=
  if v.ptr a j = 0 then
    match balloc sb v with
    | (0, v) => (0, v)
    | (addr, v) => (addr, v.setPtr a j addr)
  else (v.ptr a j, v)

def bmap (v : Vol) (d : Dinode) (bn : Nat) : Except String (Nat × Dinode × Vol) :=
  if bn < ndirect then .ok (allocAddr sb v d bn)
  else if bn - ndirect < nindirect then
    match allocAddr sb v d ndirect with
    | (0, d, v) => .ok (0, d, v)
    | (addr, d, v) =>
      match allocPtr sb v addr (bn - ndirect) with
      | (addr, v) => .ok (addr, d, v)
  else if bn - ndirect - nindirect < ndoublyIndirect then
    match allocAddr sb v d (ndirect+1) with
    | (0, d, v) => .ok (0, d, v)
    | (outer, d, v) =>
      match allocPtr sb v outer ((bn - ndirect - nindirect)/nindirect) with
      | (0, v) => .ok (0, d, v)
      | (inner, v) =>
        match allocPtr sb v inner ((bn - ndirect - nindirect)%nindirect) with
        | (addr, v) => .ok (addr, d, v)
  else .error "bmap: out of range"

def freePtr (v : Vol) (b : Nat) : Except String Vol :=
  if b = 0 then .ok v else bfree sb v b

/-- The loop that frees what an index block points to. -/
def freeTable (v : Vol) (a : Nat) : Except String Vol :=
  (List.range nindirect).foldlM (fun v j => freePtr sb v (v.ptr a j)) v

/-- The loop over the outer block of the doubly indirect blocks. -/
def freeOuter (v : Vol) (a : Nat) : Except String Vol :=
  (List.range nindirect).foldlM (fun v j =>
    if v.ptr a j = 0 then .ok v
    else (freeTable sb v (v.ptr a j)).bind fun v => bfree sb v (v.ptr a j)) v

def freeDirect (v : Vol) (d : Dinode) : Except String (Dinode × Vol) :=
  (List.range ndirect).foldlM (fun (dv : Dinode × Vol) i =>
    if dv.1.addr i = 0 then .ok dv
    else (bfree sb dv.2 (dv.1.addr i)).map fun v => (dv.1.setAddr i 0, v)) (d, v)

/-- An index block and what the loop `free` releases through it. -/
def freeIndex (free : Vol → Nat → Except String Vol) (v : Vol) (d : Dinode) (i : Nat) :
    Except String (Dinode × Vol) :=
  if d.addr i = 0 then .ok (d, v)
  else do
    let v ← free v (d.addr i)
    let v ← bfree sb v (d.addr i)
    return (d.setAddr i 0, v)

def itrunc (v : Vol) (inum : Nat) (d : Dinode) : Except String (Dinode × Vol) := do
  let (d, v) ← freeDirect sb v d
  let (d, v) ← freeIndex sb (freeTable sb) v d ndirect
  let (d, v) ← freeIndex sb (freeOuter sb) v d (ndirect+1)
  let d := { d with size := 0 }
  return (d, iupdate sb v inum d)

/-- `m = min(n - tot, BSIZE - off%BSIZE)`. -/
def chunk (off n tot : Nat) : Nat := min (n - tot) (bsize - off%bsize)

/-- The loop of `readi`; `fault` tells which calls of `either_copyout` fail, and `out` is what
has been copied out. -/
def readLoop (fault : Nat → Nat → Bool) (n : Nat) : Nat → Vol → Dinode → Nat → Nat →
    List UInt8 → Except String (Int × List UInt8 × Dinode × Vol)
  | 0, v, d, _, tot, out => .ok (tot, out, d, v)
  | fuel+1, v, d, off, tot, out =>
    if tot < n then
      match bmap sb v d (off/bsize) with
      | .error e => .error e
      | .ok (addr, d, v) =>
        if addr = 0 then .ok (tot, out, d, v)
        else if fault tot (chunk off n tot) then .ok (-1, out, d, v)
        else readLoop fault n fuel v d (u32 (off + chunk off n tot)) (u32 (tot + chunk off n tot))
          (out ++ (List.range (chunk off n tot)).map fun k => v.disk addr (off%bsize + k))
    else .ok (tot, out, d, v)

/-- `readi`: the value it returns, the bytes it copies out, and what is left behind. -/
def readi (v : Vol) (d : Dinode) (fault : Nat → Nat → Bool) (off n : Nat) :
    Except String (Int × List UInt8 × Dinode × Vol) :=
  if off > d.size.toNat ∨ u32 (off+n) < off then .ok (0, [], d, v)
  else
    let n := if u32 (off+n) > d.size.toNat then d.size.toNat - off else n
    readLoop sb fault n n v d off 0 []

/-- `m` bytes of the source, from `tot` on, in the buffer of block `b`. -/
def Vol.copyin (v : Vol) (b o m : Nat) (src : Buf) (tot : Nat) : Vol :=
  { v with disk := Function.update v.disk b (blit (v.disk b) o m fun i => src (tot+i)) }

def Vol.logWrite (v : Vol) (b : Nat) : Vol := { v with logged := v.logged ++ [b] }

/-- The loop of `writei`, with `tot` and `off` where it stops. `fault tot m` is the number of
bytes that `either_copyin` moves before it fails, if it does. -/
def writeLoop (src : Buf) (fault : Nat → Nat → Option Nat) (n : Nat) : Nat → Vol → Dinode →
    Nat → Nat → Except String (Nat × Nat × Dinode × Vol)
  | 0, v, d, off, tot => .ok (tot, off, d, v)
  | fuel+1, v, d, off, tot =>
    if tot < n then
      match bmap sb v d (off/bsize) with
      | .error e => .error e
      | .ok (addr, d, v) =>
        if addr = 0 then .ok (tot, off, d, v)
        else
          match fault tot (chunk off n tot) with
          | some k => .ok (tot, off, d,
              v.copyin addr (off%bsize) (min k (chunk off n tot)) src tot)
          | none => writeLoop src fault n fuel
              ((v.copyin addr (off%bsize) (chunk off n tot) src tot).logWrite addr) d
              (u32 (off + chunk off n tot)) (u32 (tot + chunk off n tot))
    else .ok (tot, off, d, v)

def writei (v : Vol) (inum : Nat) (d : Dinode) (src : Buf) (fault : Nat → Nat → Option Nat)
    (off n : Nat) : Except String (Int × Dinode × Vol) :=
  if off > d.size.toNat ∨ u32 (off+n) < off then .ok (-1, d, v)
  else if u32 (off+n) > maxfile*bsize then .ok (-1, d, v)
  else do
    let (tot, off, d, v) ← writeLoop sb src fault n n v d off 0
    let d := if off > d.size.toNat then { d with size := UInt32.ofNat off } else d
    return (tot, d, iupdate sb v inum d)

end Content

/-! The inode table. -/

structure FS where
  vol : Vol
  inode : Fin ninode → Inode

namespace FS
variable (sb : Superblock) (fs : FS)

def set (i : Fin ninode) (ip : Inode) : FS := { fs with inode := Function.update fs.inode i ip }

def iget (inum : Nat) : Except String (Fin ninode × FS) :=
  match (List.finRange ninode).find? fun i => (fs.inode i).ref > 0 ∧ (fs.inode i).inum = inum with
  | some i => .ok (i, fs.set i { fs.inode i with ref := (fs.inode i).ref + 1 })
  | none =>
    match (List.finRange ninode).find? fun i => (fs.inode i).ref = 0 with
    | none => .error "iget: no inodes"
    | some i => .ok (i, fs.set i { fs.inode i with inum := inum, ref := 1, valid := false })

def idup (i : Fin ninode) : FS := fs.set i { fs.inode i with ref := (fs.inode i).ref + 1 }

/-- The free inode `ialloc` finds, from number 1 on. -/
def freeInum : Option Nat :=
  ((List.range (sb.ninodes - 1)).map (· + 1)).find? fun inum =>
    (fs.vol.dinode sb inum).type = 0

def ialloc (type : Int16) : Except String (Option (Fin ninode) × FS) :=
  match fs.freeInum sb with
  | none => .ok (none, fs)
  | some inum =>
    let data := fs.vol.disk (sb.iblock inum)
    let v := fs.vol.write (sb.iblock inum) (Dinode.clear data (64*(inum % ipb)) type)
    (iget { fs with vol := v } inum).map fun r => (some r.1, r.2)

def ilock (i : Fin ninode) : Except String FS :=
  if (fs.inode i).ref < 1 then .error "ilock"
  else if (fs.inode i).valid then .ok fs
  else
    let d := fs.vol.dinode sb (fs.inode i).inum
    if d.type = 0 then .error "ilock: no type"
    else .ok (fs.set i { fs.inode i with valid := true, copy := d })

def iput (i : Fin ninode) : Except String FS :=
  let ip := fs.inode i
  if ip.ref = 1 ∧ ip.valid ∧ ip.copy.nlink = 0 then do
    let (d, v) ← itrunc sb fs.vol ip.inum ip.copy
    let d := { d with type := 0 }
    let v := iupdate sb v ip.inum d
    return { fs with vol := v }.set i { ip with ref := 0, valid := false, copy := d }
  else return fs.set i { ip with ref := ip.ref - 1 }

/-- The callers' own changes of the link count and the device numbers, with `iupdate`. -/
def setLink (i : Fin ninode) (major minor nlink : Int16) : FS :=
  let ip := fs.inode i
  let d := { ip.copy with major := major, minor := minor, nlink := nlink }
  { fs with vol := iupdate sb fs.vol ip.inum d }.set i { ip with copy := d }

end FS

inductive Act where
  | ialloc (type : Int16)
  | iget (inum : Nat)
  | idup (i : Fin ninode)
  | ilock (i : Fin ninode)
  | iput (i : Fin ninode)
  | setLink (i : Fin ninode) (major minor nlink : Int16)
  | itrunc (i : Fin ninode)
  | readi (i : Fin ninode) (fault : Nat → Nat → Bool) (off n : Nat)
  | writei (i : Fin ninode) (src : Buf) (fault : Nat → Nat → Option Nat) (off n : Nat)

/-- The caller holds a reference. -/
def FS.Held (fs : FS) (i : Fin ninode) : Prop := 0 < (fs.inode i).ref

/-- The caller holds a reference and has locked the inode. -/
def FS.Locked (fs : FS) (i : Fin ninode) : Prop := fs.Held i ∧ (fs.inode i).valid

inductive Step (sb : Superblock) : FS → Act → FS → Prop
  | ialloc {fs fs' : FS} {type : Int16} {r : Option (Fin ninode)} :
      fs.ialloc sb type = .ok (r, fs') → Step sb fs (.ialloc type) fs'
  | iget {fs fs' : FS} {inum : Nat} {i : Fin ninode} : inum < sb.ninodes →
      fs.iget inum = .ok (i, fs') → Step sb fs (.iget inum) fs'
  | idup {fs : FS} {i : Fin ninode} : fs.Held i → Step sb fs (.idup i) (fs.idup i)
  | ilock {fs fs' : FS} {i : Fin ninode} : fs.ilock sb i = .ok fs' → Step sb fs (.ilock i) fs'
  | iput {fs fs' : FS} {i : Fin ninode} : fs.Held i → fs.iput sb i = .ok fs' →
      Step sb fs (.iput i) fs'
  | setLink {fs : FS} {i : Fin ninode} {major minor nlink : Int16} : fs.Locked i →
      Step sb fs (.setLink i major minor nlink) (fs.setLink sb i major minor nlink)
  | itrunc {fs : FS} {i : Fin ninode} {d : Dinode} {v : Vol} : fs.Locked i →
      itrunc sb fs.vol (fs.inode i).inum (fs.inode i).copy = .ok (d, v) →
      Step sb fs (.itrunc i) ({ fs with vol := v }.set i { fs.inode i with copy := d })
  | readi {fs : FS} {i : Fin ninode} {fault : Nat → Nat → Bool} {off n : Nat} {r : Int}
      {out : List UInt8} {d : Dinode} {v : Vol} : fs.Locked i → off < 2^32 → n < 2^32 →
      readi sb fs.vol (fs.inode i).copy fault off n = .ok (r, out, d, v) →
      Step sb fs (.readi i fault off n) ({ fs with vol := v }.set i { fs.inode i with copy := d })
  | writei {fs : FS} {i : Fin ninode} {src : Buf} {fault : Nat → Nat → Option Nat} {off n : Nat}
      {r : Int} {d : Dinode} {v : Vol} : fs.Locked i → off < 2^32 → n < 2^32 →
      writei sb fs.vol (fs.inode i).inum (fs.inode i).copy src fault off n = .ok (r, d, v) →
      Step sb fs (.writei i src fault off n)
        ({ fs with vol := v }.set i { fs.inode i with copy := d })

/-! The steps are computed. -/

instance (fs : FS) (i : Fin ninode) : Decidable (fs.Held i) :=
  inferInstanceAs (Decidable (0 < (fs.inode i).ref))

instance (fs : FS) (i : Fin ninode) : Decidable (fs.Locked i) :=
  inferInstanceAs (Decidable (fs.Held i ∧ (fs.inode i).valid))

/-- The step of an action, if it has one. -/
def FS.perform (sb : Superblock) (fs : FS) : Act → Option FS
  | .ialloc type => (fs.ialloc sb type).toOption.map Prod.snd
  | .iget inum => if inum < sb.ninodes then (fs.iget inum).toOption.map Prod.snd else none
  | .idup i => if fs.Held i then some (fs.idup i) else none
  | .ilock i => (fs.ilock sb i).toOption
  | .iput i => if fs.Held i then (fs.iput sb i).toOption else none
  | .setLink i major minor nlink =>
    if fs.Locked i then some (fs.setLink sb i major minor nlink) else none
  | .itrunc i =>
    if fs.Locked i then
      (itrunc sb fs.vol (fs.inode i).inum (fs.inode i).copy).toOption.map fun r =>
        { fs with vol := r.2 }.set i { fs.inode i with copy := r.1 }
    else none
  | .readi i fault off n =>
    if fs.Locked i ∧ off < 2^32 ∧ n < 2^32 then
      (readi sb fs.vol (fs.inode i).copy fault off n).toOption.map fun r =>
        { fs with vol := r.2.2.2 }.set i { fs.inode i with copy := r.2.2.1 }
    else none
  | .writei i src fault off n =>
    if fs.Locked i ∧ off < 2^32 ∧ n < 2^32 then
      (writei sb fs.vol (fs.inode i).inum (fs.inode i).copy src fault off n).toOption.map fun r =>
        { fs with vol := r.2.2 }.set i { fs.inode i with copy := r.2.1 }
    else none

/-- What is computed is a step. -/
theorem step_of_perform (sb : Superblock) (fs : FS) (a : Act) (fs' : FS)
    (h : fs.perform sb a = some fs') : Step sb fs a fs' := by
  cases a with
  | ialloc type =>
    obtain ⟨r, hr, rfl⟩ := Option.map_eq_some_iff.mp h
    exact .ialloc (toOption_eq_some hr)
  | iget inum =>
    obtain ⟨hi, h⟩ := Option.ite_none_right_eq_some.mp h
    obtain ⟨r, hr, rfl⟩ := Option.map_eq_some_iff.mp h
    exact .iget hi (toOption_eq_some hr)
  | idup i =>
    obtain ⟨hi, h⟩ := Option.ite_none_right_eq_some.mp h
    cases h
    exact .idup hi
  | ilock i => exact .ilock (toOption_eq_some h)
  | iput i =>
    obtain ⟨hi, h⟩ := Option.ite_none_right_eq_some.mp h
    exact .iput hi (toOption_eq_some h)
  | setLink i major minor nlink =>
    obtain ⟨hi, h⟩ := Option.ite_none_right_eq_some.mp h
    cases h
    exact .setLink hi
  | itrunc i =>
    obtain ⟨hi, h⟩ := Option.ite_none_right_eq_some.mp h
    obtain ⟨r, hr, rfl⟩ := Option.map_eq_some_iff.mp h
    exact .itrunc hi (toOption_eq_some hr)
  | readi i fault off n =>
    obtain ⟨⟨hi, hoff, hn⟩, h⟩ := Option.ite_none_right_eq_some.mp h
    obtain ⟨r, hr, rfl⟩ := Option.map_eq_some_iff.mp h
    exact .readi hi hoff hn (toOption_eq_some hr)
  | writei i src fault off n =>
    obtain ⟨⟨hi, hoff, hn⟩, h⟩ := Option.ite_none_right_eq_some.mp h
    obtain ⟨r, hr, rfl⟩ := Option.map_eq_some_iff.mp h
    exact .writei hi hoff hn (toOption_eq_some hr)

/-! What `ilock` loads after an `iupdate`. -/

/-- The volume after `iupdate(ip)`, with the table of inodes as it is. -/
def FS.updated (sb : Superblock) (fs : FS) (ip : Inode) : FS :=
  { fs with vol := iupdate sb fs.vol ip.inum ip.copy }

section Load
variable (sb : Superblock) (fs : FS) {ip : Inode} {e : Fin ninode}

/-- An entry that is not valid gets the values of `ip`, if it is for the same inode. -/
theorem ilock_iupdate_self (ht : ip.copy.type ≠ 0) (hn : (fs.inode e).inum = ip.inum)
    (hr : 1 ≤ (fs.inode e).ref) (hv : (fs.inode e).valid = false) :
    (fs.updated sb ip).ilock sb e =
      .ok ((fs.updated sb ip).set e { fs.inode e with valid := true, copy := ip.copy }) := by
  have hload : (fs.updated sb ip).vol.dinode sb (fs.inode e).inum = ip.copy := by
    rw [hn]
    exact dinode_iupdate.trans (if_pos rfl)
  have hnode : (fs.updated sb ip).inode e = fs.inode e := rfl
  have hlt : ¬ (fs.inode e).ref < 1 := by omega
  rw [FS.ilock, hnode, if_neg hlt, hv, hload]
  simp [ht]

theorem dinode_iupdate_other {inum : Nat} (hn : inum ≠ ip.inum) :
    (fs.updated sb ip).vol.dinode sb inum = fs.vol.dinode sb inum :=
  dinode_iupdate.trans (if_neg hn)

/-- Whatever the entry of another inode is, `ilock` leaves the same table of inodes. -/
theorem ilock_iupdate_other (hn : (fs.inode e).inum ≠ ip.inum) :
    ((fs.updated sb ip).ilock sb e).map FS.inode = (fs.ilock sb e).map FS.inode := by
  have hnode : (fs.updated sb ip).inode = fs.inode := rfl
  rw [FS.ilock, FS.ilock, hnode, dinode_iupdate_other sb fs hn]
  split
  · rfl
  · split
    · rfl
    · dsimp only
      split <;> rfl

/-- `IBLOCK` in `uint` arithmetic tells the inode blocks apart, wherever they start. -/
theorem u32_iblock_inj {i j : Nat} (hi : i < 2^32) (hj : j < 2^32)
    (h : u32 (sb.iblock i) = u32 (sb.iblock j)) : sb.iblock i = sb.iblock j := by
  unfold u32 Superblock.iblock at *
  simp only [ipb] at *
  omega

end Load

/-- The inode format round-trips: after `iupdate(ip)` an `ilock` of an entry for the same inode
that is not valid loads every field of `ip`, and for every other inode number the value on the
disk, and with it what `ilock` does, is as before. -/
theorem inode_format_roundtrip (sb : Superblock) (fs : FS) (ip : Inode) (ht : ip.copy.type ≠ 0) :
    (∀ e, (fs.inode e).inum = ip.inum → 1 ≤ (fs.inode e).ref → (fs.inode e).valid = false →
      ∃ fs', (fs.updated sb ip).ilock sb e = .ok fs' ∧ (fs'.inode e).valid = true ∧
        (fs'.inode e).inum = ip.inum ∧ (fs'.inode e).copy = ip.copy) ∧
    (∀ inum ≠ ip.inum, (fs.updated sb ip).vol.dinode sb inum = fs.vol.dinode sb inum) ∧
    (∀ e, (fs.inode e).inum ≠ ip.inum →
      ((fs.updated sb ip).ilock sb e).map FS.inode = (fs.ilock sb e).map FS.inode) ∧
    ∀ i j : UInt32, u32 (sb.iblock i.toNat) = u32 (sb.iblock j.toNat) →
      sb.iblock i.toNat = sb.iblock j.toNat := by
  refine ⟨?_, fun inum hn => dinode_iupdate_other sb fs hn,
    fun e hn => ilock_iupdate_other sb fs hn,
    fun i j h => u32_iblock_inj sb i.toNat_lt j.toNat_lt h⟩
  intro e hn hr hv
  refine ⟨_, ilock_iupdate_self sb fs ht hn hr hv, ?_⟩
  simp [FS.set, hn]

/-- A disk of `FSSIZE` blocks with 200 inodes. -/
def labSb : Superblock where
  size := 200000
  nblocks := 199929
  ninodes := 200
  nlog := 31
  logstart := 2
  inodestart := 33
  bmapstart := 46

/-- Inode 17, with a size and the last of its addresses set; inode 18 is in the same block. -/
def inode17 : Inode := ⟨17, 1, false, ⟨2, 1, -1, 3, 4294967295, fun i => if i = 12 then 77 else 0⟩⟩

def table17 : FS := ⟨⟨fun _ _ => 0, []⟩, fun _ => { inode17 with copy := Dinode.fresh 0 }⟩

theorem inode_format_roundtrip_seventeen :
    inode17.copy.type ≠ 0 ∧
      (∃ fs', (table17.updated labSb inode17).ilock labSb 0 = .ok fs' ∧
        (fs'.inode 0).copy = inode17.copy) ∧
      (table17.updated labSb inode17).vol.dinode labSb 18 = table17.vol.dinode labSb 18 := by
  have ht : inode17.copy.type ≠ 0 := by decide
  have h := inode_format_roundtrip labSb table17 inode17 ht
  obtain ⟨fs', heq, -, -, hcopy⟩ := h.1 0 rfl (Nat.le_refl 1) rfl
  exact ⟨ht, ⟨fs', heq, hcopy⟩, h.2.1 18 (by decide)⟩

end Xv6Labs.Fs
