import Mathlib.Data.List.Basic
import Xv6Labs.Fs.Disk

/-! What `balloc`, `bfree` and the writes of inodes and index blocks change, told in terms of
the bits, the pointers and the inodes of a volume. -/
namespace Xv6Labs.Fs
open Kit Bytes

/-- A block that files may hold. -/
def Superblock.IsData (sb : Superblock) (b : Nat) : Prop := sb.datastart ≤ b ∧ b < sb.size

/-- A block that is no bitmap block. -/
def Superblock.OffBitmap (sb : Superblock) (b : Nat) : Prop := b < sb.bmapstart ∨ sb.datastart ≤ b

/-- The inode `inum` as it is on the disk. -/
def Vol.dinode (sb : Superblock) (v : Vol) (inum : Nat) : Dinode :=
  Dinode.load (v.disk (sb.iblock inum)) (64*(inum % ipb))

def iupdate (sb : Superblock) (v : Vol) (inum : Nat) (d : Dinode) : Vol :=
  v.write (sb.iblock inum) (Dinode.store (v.disk (sb.iblock inum)) (64*(inum % ipb)) d)

/-- The volume after `balloc` has taken block `b`. -/
def Vol.take (sb : Superblock) (v : Vol) (b : Nat) : Vol :=
  (v.write (sb.bblock b) (setBit (v.disk (sb.bblock b)) (b % bpb))).bzero b

/-- The volume after `bfree` has returned block `b`. -/
def Vol.release (sb : Superblock) (v : Vol) (b : Nat) : Vol :=
  v.write (sb.bblock b) (clearBit (v.disk (sb.bblock b)) (b % bpb))

variable {sb : Superblock} {v : Vol} {b x y i j a inum : Nat} {d : Dinode}

theorem disk_write (data : Buf) : (v.write b data).disk x = if x = b then data else v.disk x := by
  unfold Vol.write
  by_cases hx : x = b
  · subst hx; simp
  · simp [hx]

theorem disk_write_ne {data : Buf} (h : x ≠ b) : (v.write b data).disk x = v.disk x := by
  rw [disk_write, if_neg h]

theorem Superblock.bblock_ge (sb : Superblock) (b : Nat) : sb.bmapstart ≤ sb.bblock b := by
  unfold Superblock.bblock
  exact Nat.le_add_left _ _

namespace Superblock.Layout
variable (hL : sb.Layout)
include hL

theorem bblock_lt (hb : b < sb.size) : sb.bblock b < sb.datastart := by
  have h := hL.data
  have hdiv : b/bpb ≤ sb.size/bpb := Nat.div_le_div_right (by omega)
  unfold Superblock.bblock
  omega

theorem bblock_ne (hb : b < sb.size) (hx : sb.OffBitmap x) : sb.bblock b ≠ x := by
  have h1 := sb.bblock_ge b
  have h2 := hL.bblock_lt hb
  unfold Superblock.OffBitmap at hx
  omega

theorem iblock_lt (hi : i < sb.ninodes) : sb.iblock i < sb.bmapstart := by
  have h := hL.bitmap
  have hdiv : i/ipb ≤ sb.ninodes/ipb := Nat.div_le_div_right (by omega)
  unfold Superblock.iblock
  omega

theorem iblock_off (hi : i < sb.ninodes) : sb.OffBitmap (sb.iblock i) := .inl (hL.iblock_lt hi)

theorem bmapstart_lt : sb.bmapstart < sb.datastart :=
  lt_of_le_of_lt (Nat.le_add_right _ _) hL.data

theorem datastart_pos : 0 < sb.datastart := by
  have h := hL.bmapstart_lt
  omega

theorem data_ne_iblock (hx : sb.datastart ≤ x) (hi : i < sb.ninodes) : x ≠ sb.iblock i := by
  have h1 := hL.iblock_lt hi
  have h2 := hL.bmapstart_lt
  omega

end Superblock.Layout

theorem Superblock.IsData.off (h : sb.IsData b) : sb.OffBitmap b := .inr h.1

theorem Superblock.IsData.ne_zero (h : sb.IsData b) (hL : sb.Layout) : b ≠ 0 :=
  Nat.ne_of_gt (lt_of_lt_of_le hL.datastart_pos h.1)

/-! The bitmap. -/

theorem bit_congr {v' : Vol} (hL : sb.Layout) (hx : x < sb.size)
    (h : ∀ y, sb.bmapstart ≤ y → y < sb.datastart → v'.disk y = v.disk y) :
    v'.bit sb x = v.bit sb x := by
  unfold Vol.bit
  rw [h _ (sb.bblock_ge x) (hL.bblock_lt hx)]

theorem bit_write_off {data : Buf} (hL : sb.Layout) (hx : x < sb.size) (hb : sb.OffBitmap b) :
    (v.write b data).bit sb x = v.bit sb x := by
  unfold Vol.bit
  rw [disk_write_ne (hL.bblock_ne hx hb)]

theorem block_eq (h : sb.bblock x = sb.bblock y) (hmod : x % bpb = y % bpb) : x = y := by
  unfold Superblock.bblock at h
  simp only [bpb] at h hmod
  omega

theorem take_disk (h : x ≠ b) (hoff : sb.OffBitmap x) (hL : sb.Layout) (hb : b < sb.size) :
    (v.take sb b).disk x = v.disk x := by
  unfold Vol.take Vol.bzero
  rw [disk_write_ne h, disk_write_ne (Ne.symm (hL.bblock_ne hb hoff))]

theorem take_disk_self : (v.take sb b).disk b = fun _ => 0 := by
  unfold Vol.take Vol.bzero
  rw [disk_write, if_pos rfl]

/-- Zeroing the block leaves the bitmap block of `x` alone. -/
theorem take_bit_of_ne (h : sb.bblock x ≠ b) :
    (v.take sb b).bit sb x = (decide (x = b) || v.bit sb x) := by
  unfold Vol.take Vol.bzero Vol.bit
  rw [disk_write_ne h, disk_write]
  by_cases hblk : sb.bblock x = sb.bblock b
  · rw [if_pos hblk, testBit_setBit, hblk]
    congr 1
    exact decide_eq_decide.mpr ⟨fun hmod => block_eq hblk hmod, fun hxb => by rw [hxb]⟩
  · have hne : x ≠ b := fun hxb => hblk (by rw [hxb])
    simp [hblk, hne]

theorem take_bit (hL : sb.Layout) (hb : sb.IsData b) (hx : x < sb.size) :
    (v.take sb b).bit sb x = (decide (x = b) || v.bit sb x) :=
  take_bit_of_ne (hL.bblock_ne hx hb.off)

theorem release_disk (hoff : sb.OffBitmap x) (hL : sb.Layout) (hb : b < sb.size) :
    (v.release sb b).disk x = v.disk x := by
  unfold Vol.release
  rw [disk_write_ne (Ne.symm (hL.bblock_ne hb hoff))]

theorem release_bit : (v.release sb b).bit sb x = (!decide (x = b) && v.bit sb x) := by
  unfold Vol.release Vol.bit
  rw [disk_write]
  by_cases hblk : sb.bblock x = sb.bblock b
  · rw [if_pos hblk, testBit_clearBit, hblk]
    congr 2
    exact decide_eq_decide.mpr ⟨fun hmod => block_eq hblk hmod, fun hxb => by rw [hxb]⟩
  · have hne : x ≠ b := fun hxb => hblk (by rw [hxb])
    simp [hblk, hne]

theorem bfree_eq (h : v.bit sb b) : bfree sb v b = .ok (v.release sb b) := by
  unfold Vol.bit at h
  simp [bfree, h, Vol.release]

/-- No block is left. -/
def Vol.Full (sb : Superblock) (v : Vol) : Prop := ∀ b < sb.size, v.bit sb b

/-- A bit of the bitmap block of the blocks from `k*BPB` on. -/
theorem testBit_block {k bi : Nat} (h : bi < bpb) :
    testBit (v.disk (sb.bblock (k*bpb))) bi = v.bit sb (k*bpb + bi) := by
  have hblk : sb.bblock (k*bpb + bi) = sb.bblock (k*bpb) := by
    unfold Superblock.bblock
    simp only [bpb] at h ⊢
    omega
  have hmod : (k*bpb + bi) % bpb = bi := by
    simp only [bpb] at h ⊢
    omega
  unfold Vol.bit
  rw [hblk, hmod]

theorem scanBlock_some {k bi : Nat} (h : scanBlock sb v (k*bpb) = some bi) :
    bi < bpb ∧ k*bpb + bi < sb.size ∧ ¬ v.bit sb (k*bpb + bi) ∧
      ∀ j < bi, v.bit sb (k*bpb + j) := by
  unfold scanBlock at h
  rw [List.find?_range_eq_some] at h
  obtain ⟨hbit, hmem, hbefore⟩ := h
  have hmem := List.mem_range.mp hmem
  have hlt : bi < bpb := by omega
  rw [testBit_block hlt] at hbit
  refine ⟨hlt, by omega, by simpa using hbit, ?_⟩
  intro j hj
  have hset := hbefore j hj
  rw [testBit_block (by omega)] at hset
  simpa using hset

theorem scanBlock_none {k : Nat} (h : scanBlock sb v (k*bpb) = none) (hx : x < sb.size)
    (hk : x/bpb = k) : v.bit sb x := by
  have hmod : x = k*bpb + x % bpb := by
    have := Nat.div_add_mod x bpb
    rw [hk, Nat.mul_comm] at this
    exact this.symm
  have hlt : x % bpb < bpb := Nat.mod_lt _ (by decide)
  have hmem : x % bpb ∈ List.range (min bpb (sb.size - k*bpb)) := List.mem_range.mpr (by omega)
  have hbit := List.find?_eq_none.mp h _ hmem
  have hblk : sb.bblock x = sb.bblock (k*bpb) := by
    unfold Superblock.bblock
    rw [hk, Nat.mul_div_cancel _ (by decide)]
  unfold Vol.bit
  rw [hblk]
  simpa using hbit

/-- The bitmap blocks that are scanned before block `k` of them are those below it. -/
theorem mem_before {n k k' : Nat} {l₁ l₂ : List Nat} (h : List.range n = l₁ ++ k :: l₂)
    (hk : k' < k) : k' ∈ l₁ := by
  have hord : (l₁ ++ k :: l₂).Pairwise (· < ·) := h ▸ List.pairwise_lt_range
  have hkn : k ∈ List.range n := by
    rw [h]
    exact List.mem_append_right _ (List.mem_cons_self ..)
  have hmem : k' ∈ l₁ ++ k :: l₂ := by
    rw [← h, List.mem_range]
    exact lt_trans hk (List.mem_range.mp hkn)
  have hafter := (List.pairwise_append.mp hord).2.1
  rw [List.pairwise_cons] at hafter
  simp only [List.mem_append, List.mem_cons] at hmem
  rcases hmem with h1 | rfl | h3
  · exact h1
  · exact absurd hk (Nat.lt_irrefl _)
  · exact absurd (hafter.1 k' h3) (Nat.lt_asymm hk)

/-- `balloc` takes the lowest free block or reports that there is none. -/
theorem balloc_spec (sb : Superblock) (v : Vol) :
    (balloc sb v = (0, v) ∧ v.Full sb) ∨
    ∃ b, b < sb.size ∧ ¬ v.bit sb b ∧ (∀ c < b, v.bit sb c) ∧ balloc sb v = (b, v.take sb b) := by
  unfold balloc
  cases hfind : (List.range ((sb.size + bpb - 1)/bpb)).findSome? fun k =>
      (scanBlock sb v (k*bpb)).map fun bi => (k*bpb, bi) with
  | none =>
    refine .inl ⟨rfl, ?_⟩
    intro x hx
    have hk : x/bpb ∈ List.range ((sb.size + bpb - 1)/bpb) := by
      rw [List.mem_range]
      simp only [bpb]
      omega
    have hnone := List.findSome?_eq_none_iff.mp hfind _ hk
    exact scanBlock_none (by simpa using hnone) hx rfl
  | some r =>
    obtain ⟨c, bi⟩ := r
    obtain ⟨l₁, k, l₂, hl, hk, hbefore⟩ := List.findSome?_eq_some_iff.mp hfind
    obtain ⟨bi', hscan, hpair⟩ := Option.map_eq_some_iff.mp hk
    obtain ⟨rfl, rfl⟩ := Prod.mk.inj hpair
    obtain ⟨hlt, hsize, hbit, hset⟩ := scanBlock_some hscan
    have hblk : sb.bblock (k*bpb + bi') = sb.bblock (k*bpb) := by
      unfold Superblock.bblock
      simp only [bpb] at hlt ⊢
      omega
    have hmod : (k*bpb + bi') % bpb = bi' := by
      simp only [bpb] at hlt ⊢
      omega
    refine .inr ⟨k*bpb + bi', hsize, hbit, ?_, ?_⟩
    · intro c hc
      by_cases hck : c/bpb < k
      · have hnone := hbefore _ (mem_before hl hck)
        exact scanBlock_none (by simpa using hnone) (by omega) rfl
      · have hin : c = k*bpb + (c - k*bpb) ∧ c - k*bpb < bi' := by
          simp only [bpb] at *
          omega
        rw [hin.1]
        exact hset _ hin.2
    · unfold Vol.take
      rw [hblk, hmod]

/-! Index blocks and inodes. -/

theorem ptr_setPtr (ha : a < 2^32) : (v.setPtr b i a).ptr x j =
    if x = b ∧ j = i then a else v.ptr x j := by
  unfold Vol.setPtr Vol.ptr
  rw [disk_write]
  by_cases hx : x = b
  · subst hx
    rw [if_pos rfl]
    by_cases hj : j = i
    · subst hj
      rw [get32_put32_self ha]
      simp
    · rw [get32_put32_ne (by omega)]
      simp [hj]
  · simp [hx]

theorem dinode_congr {v' : Vol} (h : v'.disk (sb.iblock inum) = v.disk (sb.iblock inum)) :
    v'.dinode sb inum = v.dinode sb inum := by
  unfold Vol.dinode
  rw [h]

/-- Rewriting the 64 bytes of one inode changes that inode and no other. -/
theorem dinode_write_slot {data : Buf} (hne : i ≠ inum)
    (h : ∀ k, k < 64*(inum % ipb) ∨ 64*(inum % ipb) + 64 ≤ k → data k = v.disk (sb.iblock inum) k) :
    (v.write (sb.iblock inum) data).dinode sb i = v.dinode sb i := by
  unfold Vol.dinode
  rw [disk_write]
  split
  · next hblk =>
    rw [hblk]
    apply Dinode.load_congr
    intro k hk hk'
    apply h
    unfold Superblock.iblock at hblk
    simp only [ipb] at hblk hk hk' ⊢
    omega
  · rfl

theorem dinode_iupdate : (iupdate sb v inum d).dinode sb i =
    if i = inum then d else v.dinode sb i := by
  unfold iupdate
  by_cases hi : i = inum
  · subst hi
    rw [if_pos rfl]
    unfold Vol.dinode
    rw [disk_write, if_pos rfl, Dinode.load_store_self]
  · rw [if_neg hi]
    exact dinode_write_slot hi fun k hk => Dinode.store_of_ne hk

end Xv6Labs.Fs
