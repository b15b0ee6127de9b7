import Xv6Labs.Kit.Bytes

/-! The disk of Task 5.1: `kernel/fs.h` and the block and inode formats of `kernel/fs.c`.
A volume holds what `bread` returns; `logged` is the sequence of blocks given to
`log_write`. -/
namespace Xv6Labs.Fs
open Kit Bytes

abbrev bsize : Nat := 1024
abbrev ndirect : Nat := 11
abbrev nindirect : Nat := 256
abbrev ndoublyIndirect : Nat := 65536
abbrev maxfile : Nat := 65803
abbrev ipb : Nat := 16
abbrev bpb : Nat := 8192

structure Superblock where
  size : Nat
  nblocks : Nat
  ninodes : Nat
  nlog : Nat
  logstart : Nat
  inodestart : Nat
  bmapstart : Nat

namespace Superblock
variable (sb : Superblock)

def iblock (i : Nat) : Nat := i/ipb + sb.inodestart
def bblock (b : Nat) : Nat := b/bpb + sb.bmapstart

/-- The first data block: `mkfs` puts the `nblocks` data blocks at the end. -/
def datastart : Nat := sb.size - sb.nblocks

/-- `[ boot block | super block | log | inode blocks | free bit map | data blocks ]`, on a
disk that the `int` loop of `balloc` can count through. -/
structure Layout : Prop where
  log : 2 ≤ sb.logstart
  inodes : sb.logstart + sb.nlog ≤ sb.inodestart
  bitmap : sb.inodestart + sb.ninodes/ipb < sb.bmapstart
  data : sb.bmapstart + sb.size/bpb < sb.datastart
  size : sb.size + bpb ≤ 2^31

end Superblock

structure Vol where
  disk : Nat → Buf
  logged : List Nat

/-- Give the buffer of block `b` new contents and pass it to `log_write`. -/
def Vol.write (v : Vol) (b : Nat) (data : Buf) : Vol :=
  ⟨Function.update v.disk b data, v.logged ++ [b]⟩

def Vol.bzero (v : Vol) (b : Nat) : Vol := v.write b fun _ => 0

/-- `a[j]` of an index block. -/
def Vol.ptr (v : Vol) (a j : Nat) : Nat := get32 (v.disk a) (4*j)

def Vol.setPtr (v : Vol) (a j addr : Nat) : Vol := v.write a (put32 (v.disk a) (4*j) addr)

section Bitmap
variable (sb : Superblock) (v : Vol)

/-- The inner loop of `balloc`, over the bitmap block of the blocks from `b` on. -/
def scanBlock (b : Nat) : Option Nat :=
  (List.range (min bpb (sb.size - b))).find? fun bi => !testBit (v.disk (sb.bblock b)) bi

def balloc : Nat × Vol :=
  match (List.range ((sb.size + bpb - 1)/bpb)).findSome? fun k =>
      (scanBlock sb v (k*bpb)).map fun bi => (k*bpb, bi) with
  | some (b, bi) =>
    (b + bi, (v.write (sb.bblock b) (setBit (v.disk (sb.bblock b)) bi)).bzero (b + bi))
  | none => (0, v)

def bfree (b : Nat) : Except String Vol :=
  if testBit (v.disk (sb.bblock b)) (b % bpb) then
    .ok (v.write (sb.bblock b) (clearBit (v.disk (sb.bblock b)) (b % bpb)))
  else .error "freeing free block"

/-- Block `b` is marked in use. -/
def Vol.bit (b : Nat) : Bool := testBit (v.disk (sb.bblock b)) (b % bpb)

end Bitmap

/-! On-disk inodes. -/

structure Dinode where
  type : Int16
  major : Int16
  minor : Int16
  nlink : Int16
  size : UInt32
  addrs : Fin (ndirect+2) → UInt32

namespace Dinode

@[ext] theorem ext' {d e : Dinode} (ht : d.type = e.type) (hma : d.major = e.major)
    (hmi : d.minor = e.minor) (hn : d.nlink = e.nlink) (hs : d.size = e.size)
    (ha : ∀ i, d.addrs i = e.addrs i) : d = e := by
  cases d
  cases e
  simp_all [funext_iff]

/-- `addrs[i]`, as a number. -/
def addr (d : Dinode) (i : Nat) : Nat := if h : i < ndirect+2 then (d.addrs ⟨i, h⟩).toNat else 0

def setAddr (d : Dinode) (i a : Nat) : Dinode :=
  { d with addrs := fun j => if j.val = i then UInt32.ofNat a else d.addrs j }

/-- The bytes of `addrs`. -/
def addrBytes (d : Dinode) : Buf := fun k =>
  UInt8.ofNat (d.addr (k/4) / 256^(k%4))

/-- The inode at the offset `o` of an inode block. -/
def load (b : Buf) (o : Nat) : Dinode where
  type := (UInt16.ofNat (get16 b o)).toInt16
  major := (UInt16.ofNat (get16 b (o+2))).toInt16
  minor := (UInt16.ofNat (get16 b (o+4))).toInt16
  nlink := (UInt16.ofNat (get16 b (o+6))).toInt16
  size := UInt32.ofNat (get32 b (o+8))
  addrs := fun i => UInt32.ofNat (get32 b (o+12+4*i))

/-- The stores of `iupdate`, field by field. -/
def store (b : Buf) (o : Nat) (d : Dinode) : Buf :=
  let b := put16 b o d.type.toUInt16.toNat
  let b := put16 b (o+2) d.major.toUInt16.toNat
  let b := put16 b (o+4) d.minor.toUInt16.toNat
  let b := put16 b (o+6) d.nlink.toUInt16.toNat
  let b := put32 b (o+8) d.size.toNat
  blit b (o+12) 52 d.addrBytes

/-- The stores of `ialloc`: `memset`, then the type. -/
def clear (b : Buf) (o : Nat) (type : Int16) : Buf :=
  put16 (blit b o 64 fun _ => 0) o type.toUInt16.toNat

/-- What `ialloc` leaves on the disk. -/
def fresh (type : Int16) : Dinode := ⟨type, 0, 0, 0, 0, fun _ => 0⟩

variable {b : Buf} {d : Dinode} {o o' i j a : Nat} {type : Int16}

theorem addr_lt : d.addr i < 2^32 := by
  unfold addr
  split
  · exact UInt32.toNat_lt _
  · decide

theorem addr_setAddr (ha : a < 2^32) (hi : i < ndirect+2) :
    (d.setAddr i a).addr j = if j = i then a else d.addr j := by
  unfold addr setAddr
  by_cases hj : j = i
  · subst hj
    simp [hi, UInt32.toNat_ofNat_of_lt' ha]
  · simp [hj]

theorem get32_addrBytes (i : Nat) : get32 d.addrBytes (4*i) = d.addr i :=
  get32_ofWords (f := d.addr) addr_lt

theorem toInt16_get16 (x : Int16) (h : o = o') :
    (UInt16.ofNat (get16 (put16 b o x.toUInt16.toNat) o')).toInt16 = x := by
  subst h
  have hlt := x.toUInt16.toNat_lt
  rw [get16_put16_self, Nat.mod_eq_of_lt hlt, UInt16.ofNat_toNat, Int16.toInt16_toUInt16]

theorem load_store_self : load (store b o d) o = d := by
  unfold load store
  ext i
  · simp only [get16_blit_ne (show o+2 ≤ o+12 ∨ o+12+52 ≤ o by omega)]
    rw [get16_put32_ne (by omega), get16_put16_ne (by omega), get16_put16_ne (by omega),
      get16_put16_ne (by omega), toInt16_get16 _ rfl]
  · simp only [get16_blit_ne (show o+2+2 ≤ o+12 ∨ o+12+52 ≤ o+2 by omega)]
    rw [get16_put32_ne (by omega), get16_put16_ne (by omega), get16_put16_ne (by omega),
      toInt16_get16 _ rfl]
  · simp only [get16_blit_ne (show o+4+2 ≤ o+12 ∨ o+12+52 ≤ o+4 by omega)]
    rw [get16_put32_ne (by omega), get16_put16_ne (by omega), toInt16_get16 _ rfl]
  · simp only [get16_blit_ne (show o+6+2 ≤ o+12 ∨ o+12+52 ≤ o+6 by omega)]
    rw [get16_put32_ne (by omega), toInt16_get16 _ rfl]
  · simp only [get32_blit_ne (show o+8+4 ≤ o+12 ∨ o+12+52 ≤ o+8 by omega)]
    rw [get32_put32_self (UInt32.toNat_lt _), UInt32.ofNat_toNat]
  · have hi := i.isLt
    simp only
    rw [get32_blit_self (by simp only [ndirect] at hi; omega), get32_addrBytes]
    simp [addr]

theorem load_congr {c : Buf} (h : ∀ k, o ≤ k → k < o+64 → b k = c k) : load b o = load c o := by
  unfold load
  ext i
  · simp only [get16_congr (h o (by omega) (by omega)) (h (o+1) (by omega) (by omega))]
  · simp only [get16_congr (h (o+2) (by omega) (by omega)) (h (o+2+1) (by omega) (by omega))]
  · simp only [get16_congr (h (o+4) (by omega) (by omega)) (h (o+4+1) (by omega) (by omega))]
  · simp only [get16_congr (h (o+6) (by omega) (by omega)) (h (o+6+1) (by omega) (by omega))]
  · have heq : get32 b (o+8) = get32 c (o+8) :=
      get32_congr fun k _ _ => h k (by omega) (by omega)
    simp only [heq]
  · have hi : i.val < 13 := i.isLt
    have heq : get32 b (o+12+4*i) = get32 c (o+12+4*i) :=
      get32_congr fun k _ _ => h k (by omega) (by omega)
    simp only [heq]

theorem store_of_ne {k : Nat} (h : k < o ∨ o+64 ≤ k) : store b o d k = b k := by
  unfold store
  rw [blit_of_ne (by omega), put32_of_ne (by omega), put16_of_ne (by omega) (by omega),
    put16_of_ne (by omega) (by omega), put16_of_ne (by omega) (by omega),
    put16_of_ne (by omega) (by omega)]

theorem clear_of_ne {k : Nat} (h : k < o ∨ o+64 ≤ k) : clear b o type k = b k := by
  unfold clear
  rw [put16_of_ne (by omega) (by omega), blit_of_ne (by omega)]

theorem load_clear_self : load (clear b o type) o = fresh type := by
  have hzero16 : ∀ k, 2 ≤ k → k+2 ≤ 64 → get16 (clear b o type) (o+k) = 0 := by
    intro k h0 h1
    unfold clear
    rw [get16_put16_ne (by omega), get16_blit_self h1]
    rfl
  have hzero32 : ∀ k, 2 ≤ k → k+4 ≤ 64 → get32 (clear b o type) (o+k) = 0 := by
    intro k h0 h1
    unfold get32
    rw [hzero16 k h0 (by omega), Nat.add_assoc, hzero16 (k+2) (by omega) (by omega)]
  unfold load fresh
  ext i
  · exact toInt16_get16 type rfl
  · simp only; rw [hzero16 2 (by omega) (by omega)]; rfl
  · simp only; rw [hzero16 4 (by omega) (by omega)]; rfl
  · simp only; rw [hzero16 6 (by omega) (by omega)]; rfl
  · simp only; rw [hzero32 8 (by omega) (by omega)]; rfl
  · have hi : i.val < 13 := i.isLt
    simp only
    rw [Nat.add_assoc, hzero32 (12+4*i) (by omega) (by omega)]
    rfl

end Dinode

end Xv6Labs.Fs
