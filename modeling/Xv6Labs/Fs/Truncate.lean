import Mathlib.Data.Set.Card
import Xv6Labs.Fs.Reach

/-! Truncation in a block forest: what it frees and leaves alone, and how many blocks it passes to
`log_write`. -/
namespace Xv6Labs.Fs
open Kit Bytes

variable {sb : Superblock} {v v' w : Vol} {din : Nat → Dinode} {inum b n : Nat} {d : Dinode}

theorem treeBlocks_isData (hF : Forest sb v din) (hi : inum < sb.ninodes)
    (ht : (din inum).type ≠ 0) (hb : b ∈ treeBlocks v (din inum)) : sb.IsData b := by
  obtain ⟨h0, s, hs, rfl⟩ := hb
  exact hF.isData (x := (inum, s)) ⟨⟨hi, ht, hs⟩, h0⟩

theorem bit_iupdate (hL : sb.Layout) (hi : inum < sb.ninodes) :
    (iupdate sb v inum d).bit sb b = v.bit sb b := by
  have h1 := hL.iblock_lt hi
  have h2 := sb.bblock_ge b
  unfold iupdate Vol.bit
  rw [disk_write_ne (by omega)]

theorem byteAt_same (hF : Forest sb v din) (hlow : v'.disk 0 = v.disk 0)
    (hdisk : ∀ c, sb.datastart ≤ c → v'.disk c = v.disk c) {i o : Nat} (hi : i < sb.ninodes)
    (ht : (din i).type ≠ 0) (ho : o < maxfile*bsize) :
    byteAt v' (din i) o = byteAt v (din i) o := by
  unfold byteAt
  rw [lookup_same hF hdisk hi ht (fun _ => rfl) (block_lt ho)]
  by_cases h0 : lookup v (din i) (o/bsize) = 0
  · rw [h0, hlow]
  · rw [hdisk _ (lookup_isData hF hi ht (block_lt ho) h0).1]

/-! A disk of the size that `param.h` gives, laid out as `mkfs` does, with one file: its first `n`
blocks lie in `n` different bitmap blocks. -/

abbrev fssize : Nat := 200000

def wideSb : Superblock where
  size := fssize
  nblocks := 199930
  ninodes := 200
  nlog := 30
  logstart := 2
  inodestart := 32
  bmapstart := 45

def wideBlock (i : Nat) : Nat := bpb*(i+1)

/-- No file yet, and the 70 metadata blocks marked in use. -/
def wideVol : Nat → Vol
  | 0 => ⟨fun b k => if b = 45 then if k < 8 then 255 else if k = 8 then 63 else 0 else 0, []⟩
  | n+1 => (wideVol n).take wideSb (wideBlock n)

def wideInode (n : Nat) : Dinode where
  type := 2
  major := 0
  minor := 0
  nlink := 1
  size := UInt32.ofNat (n*bsize)
  addrs := fun i => if i.val < n then UInt32.ofNat (wideBlock i) else 0

def wideFile (n : Nat) : Vol := iupdate wideSb (wideVol n) 2 (wideInode n)

/-- The block numbers at the places of the file. -/
def wideVal : Place → Nat
  | (_, .addr i) => wideBlock i
  | _ => 0

theorem wideSb_layout : wideSb.Layout := by constructor <;> decide

theorem wideBlock_isData (hn : n ≤ ndirect) : wideSb.IsData (wideBlock n) := by
  simp only [Superblock.IsData, Superblock.datastart, wideSb, wideBlock, bpb, ndirect, fssize] at *
  omega

theorem wideVol_zero_free (hb : wideSb.IsData b) : ¬ (wideVol 0).bit wideSb b := by
  have hge : 70 ≤ b := hb.1
  by_cases hlt : b < 72
  · have hcases : b = 70 ∨ b = 71 := by omega
    cases hcases with
    | inl h => rw [h]; decide
    | inr h => rw [h]; decide
  · have hbyte : (wideVol 0).disk (wideSb.bblock b) (b % bpb / 8) = 0 := by
      simp only [wideVol, Superblock.bblock, wideSb, bpb]
      split
      · rw [if_neg (by omega), if_neg (by omega)]
      · rfl
    unfold Vol.bit testBit
    rw [hbyte]
    simp

theorem directPlaces_zero : directPlaces inum 0 = ∅ := by
  ext x
  simp [directPlaces]

theorem wideVol_owns (hn : n ≤ ndirect) :
    Owns wideSb (wideVol n) wideVal (directPlaces 2 n) := by
  induction n with
  | zero =>
    have hused : used wideSb (wideVol 0) = ∅ :=
      Set.eq_empty_of_forall_notMem fun b hb => wideVol_zero_free hb.1 hb.2
    refine ⟨by decide, ?_⟩
    rw [hused, directPlaces_zero]
    exact Set.bijOn_empty _
  | succ n ih =>
    have ih := ih (by omega)
    have hdata := wideBlock_isData (n := n) (by omega)
    rw [directPlaces_succ]
    refine ih.take wideSb_layout hdata.2 ?_ rfl fun _ _ => rfl
    intro hbit
    obtain ⟨x, hx, hval⟩ := ih.bij.surjOn ⟨hdata, hbit⟩
    obtain ⟨i, hi, rfl⟩ := hx
    simp only [wideVal, wideBlock, bpb] at hval
    omega

theorem wideVol_low {c : Nat} (hn : n ≤ ndirect) (hc : c < wideSb.bmapstart) :
    (wideVol n).disk c = fun _ => 0 := by
  induction n with
  | zero =>
    have hne : c ≠ 45 := Nat.ne_of_lt hc
    simp [wideVol, hne]
  | succ n ih =>
    have hdata := wideBlock_isData (n := n) (by omega)
    rw [wideVol, take_disk (low_ne_data wideSb_layout hc hdata) (.inl hc) wideSb_layout hdata.2]
    exact ih (by omega)

theorem wideFile_inode : (wideFile n).dinode wideSb 2 = wideInode n := by
  unfold wideFile
  rw [dinode_iupdate, if_pos rfl]

theorem wideFile_unused (hn : n ≤ ndirect) {i : Nat} (hi : i < 200) (hne : i ≠ 2) :
    ((wideFile n).dinode wideSb i).type = 0 := by
  unfold wideFile
  rw [dinode_iupdate, if_neg hne]
  unfold Vol.dinode
  rw [wideVol_low hn (wideSb_layout.iblock_lt hi)]
  rfl

theorem wideInode_addr (hn : n ≤ ndirect) (i : Nat) :
    (wideInode n).addr i = if i < n then wideBlock i else 0 := by
  by_cases hi : i < n
  · have hr : i < ndirect+2 := by omega
    have hlt : wideBlock i < 2^32 := by
      simp only [wideBlock, bpb, ndirect] at *
      omega
    simp [Dinode.addr, wideInode, hr, hi, UInt32.toNat_ofNat_of_lt' hlt]
  · simp [Dinode.addr, wideInode, hi]

/-- Only direct entries of the file are in use. -/
theorem wideInode_val (hn : n ≤ ndirect) {s : Slot} (h : s.val v (wideInode n) ≠ 0) :
    ∃ i < n, s = .addr i := by
  have haddr := wideInode_addr hn
  have h11 : (wideInode n).addr ndirect = 0 := by rw [haddr, if_neg (by omega)]
  have h12 : (wideInode n).addr (ndirect+1) = 0 := by rw [haddr, if_neg (by omega)]
  cases s with
  | addr i =>
    by_cases hi : i < n
    · exact ⟨i, hi, rfl⟩
    · exact absurd ((haddr i).trans (if_neg hi)) h
  | ind j => exact absurd (if_pos h11) h
  | out j => exact absurd (if_pos h12) h
  | inn j k => exact absurd (if_pos h12) h

theorem wideFile_valAt (hn : n ≤ ndirect) {x : Place} (hx : x ∈ directPlaces 2 n) :
    valAt (wideFile n) ((wideFile n).dinode wideSb) x = wideVal x := by
  obtain ⟨i, hi, rfl⟩ := hx
  change ((wideFile n).dinode wideSb 2).addr i = wideBlock i
  rw [wideFile_inode, wideInode_addr hn, if_pos hi]

theorem wideFile_type : ((wideFile n).dinode wideSb 2).type ≠ 0 := by
  rw [wideFile_inode]
  exact show (2 : Int16) ≠ 0 by decide

theorem wideFile_held (hn : n ≤ ndirect) :
    held wideSb (wideFile n) ((wideFile n).dinode wideSb) = directPlaces 2 n := by
  ext x
  constructor
  · intro hx
    obtain ⟨i, s⟩ := x
    by_cases hi : i = 2
    · subst hi
      have hv : s.val (wideFile n) ((wideFile n).dinode wideSb 2) ≠ 0 := hx.2
      rw [wideFile_inode] at hv
      obtain ⟨j, hj, rfl⟩ := wideInode_val hn hv
      exact ⟨j, hj, rfl⟩
    · exact absurd (wideFile_unused hn hx.1.1 hi) hx.1.2.1
  · intro hx
    have hv := wideFile_valAt hn hx
    obtain ⟨i, hi, rfl⟩ := hx
    have hr : i < ndirect+2 := by omega
    refine ⟨⟨show 2 < 200 by decide, wideFile_type, hr⟩, ?_⟩
    rw [hv]
    exact Nat.mul_ne_zero (by decide) (Nat.succ_ne_zero i)

theorem wideFile_forest (hn : n ≤ ndirect) :
    Forest wideSb (wideFile n) ((wideFile n).dinode wideSb) := by
  unfold Forest
  rw [wideFile_held hn]
  refine ((wideVol_owns hn).congr_val fun x hx => (wideFile_valAt hn hx).symm).congr_bit ?_
  intro c _
  exact bit_iupdate wideSb_layout (by decide)

/-- The blocks of the file. -/
theorem wideFile_treeBlocks (hn : n ≤ ndirect) :
    treeBlocks (wideFile n) (wideInode n) = {b | ∃ i < n, b = wideBlock i} := by
  ext b
  constructor
  · intro hb
    obtain ⟨h0, s, _, rfl⟩ := hb
    obtain ⟨i, hi, rfl⟩ := wideInode_val hn h0
    exact ⟨i, hi, (wideInode_addr hn i).trans (if_pos hi)⟩
  · intro hb
    obtain ⟨i, hi, rfl⟩ := hb
    have hr : i < ndirect+2 := by omega
    exact ⟨Nat.mul_ne_zero (by decide) (Nat.succ_ne_zero i), .addr i, hr,
      (wideInode_addr hn i).trans (if_pos hi)⟩

/-- `itrunc` frees the tree of its inode, every block once and nothing else, empties the inode in
memory and on the disk, and leaves the other inodes, their block maps and their bytes alone. -/
theorem itrunc_frees_exactly (hL : sb.Layout) (hF : Forest sb v din) (hi : inum < sb.ninodes)
    (ht : (din inum).type ≠ 0) :
    ∃ d' v' bs w, itrunc sb v inum (din inum) = .ok (d', v') ∧
      (Frees sb v bs w ∧ v' = iupdate sb w inum d') ∧ bs.Nodup ∧
      (∀ b, b ∈ bs ↔ b ∈ treeBlocks v (din inum)) ∧
      {b | v.bit sb b ∧ ¬ v'.bit sb b} = treeBlocks v (din inum) ∧
      (∀ b, v'.bit sb b → v.bit sb b) ∧
      ((∀ i, d'.addrs i = 0) ∧ d'.size = 0) ∧ v'.dinode sb inum = d' ∧
      ∀ i < sb.ninodes, i ≠ inum → v'.dinode sb i = v.dinode sb i ∧
        ((din i).type ≠ 0 →
          (∀ s : Slot, s.InRange → s.val v' (din i) = s.val v (din i)) ∧
          ∀ o < maxfile*bsize, byteAt v' (din i) o = byteAt v (din i) o) := by
  obtain ⟨w, heq, hfree, hfrees⟩ := itrunc_spec hL hF hi ht
  have hbit : ∀ b, (iupdate sb w inum (din inum).emptied).bit sb b ↔
      v.bit sb b ∧ b ∉ freedBlocks v (din inum) := by
    intro b
    rw [bit_iupdate hL hi]
    exact hfrees.bit
  have hdisk : ∀ c, sb.datastart ≤ c →
      (iupdate sb w inum (din inum).emptied).disk c = v.disk c := by
    intro c hc
    rw [← hfree.disk c (.inr hc)]
    exact disk_write_ne (hL.data_ne_iblock hc hi)
  have hlow : (iupdate sb w inum (din inum).emptied).disk 0 = v.disk 0 := by
    have hpos : 0 < sb.iblock inum := by
      have h1 := hL.log
      have h2 := hL.inodes
      have h3 : sb.inodestart ≤ sb.iblock inum := Nat.le_add_left _ _
      omega
    rw [← hfree.disk 0 (.inl (lt_trans hpos (hL.iblock_lt hi)))]
    exact disk_write_ne (Nat.ne_of_lt hpos)
  refine ⟨_, _, _, w, heq, ⟨hfrees, rfl⟩, hfrees.nodup, fun b => mem_freedBlocks, ?_, ?_,
    ⟨fun _ => rfl, rfl⟩, ?_, ?_⟩
  · ext b
    constructor
    · intro hb
      by_contra hmem
      exact hb.2 ((hbit b).mpr ⟨hb.1, fun hfreed => hmem (mem_freedBlocks.mp hfreed)⟩)
    · intro hmem
      have hfreed := mem_freedBlocks.mpr hmem
      exact ⟨hfrees.bit_of_mem hfreed, fun hb => ((hbit b).mp hb).2 hfreed⟩
  · intro b hb
    exact ((hbit b).mp hb).1
  · rw [dinode_iupdate, if_pos rfl]
  · intro i hlt hne
    refine ⟨?_, ?_⟩
    · rw [dinode_iupdate, if_neg hne]
      exact dinode_congr (hfree.disk _ (hL.iblock_off hlt))
    · intro hti
      refine ⟨?_, ?_⟩
      · intro s hs
        exact val_same hF hdisk hlt hti (fun _ => rfl) hs
      · intro o ho
        exact byteAt_same hF hlow hdisk hlt hti ho

theorem itrunc_frees_exactly_wide :
    ∃ d' v', itrunc wideSb (wideFile 11) 2 (wideInode 11) = .ok (d', v') ∧
      {b | (wideFile 11).bit wideSb b ∧ ¬ v'.bit wideSb b} = {b | ∃ i < 11, b = wideBlock i} := by
  obtain ⟨d', v', _, _, heq, _, _, _, hbits, _⟩ := itrunc_frees_exactly wideSb_layout
    (wideFile_forest le_rfl) (by decide) wideFile_type
  rw [wideFile_inode] at heq hbits
  exact ⟨d', v', heq, hbits.trans (wideFile_treeBlocks le_rfl)⟩

/-! The transaction of a truncation. -/

/-- `param.h`: "max # of blocks any FS op writes". -/
abbrev maxopblocks : Nat := 10

/-- The blocks that `itrunc` passes to `log_write`, in order. -/
def truncLog (sb : Superblock) (v : Vol) (inum : Nat) (d : Dinode) : List Nat :=
  match itrunc sb v inum d with
  | .ok (_, v') => v'.logged.drop v.logged.length
  | .error _ => []

theorem truncLog_eq (hL : sb.Layout) (hF : Forest sb v din) (hi : inum < sb.ninodes)
    (ht : (din inum).type ≠ 0) : truncLog sb v inum (din inum) =
      (freedBlocks v (din inum)).map sb.bblock ++ [sb.iblock inum] := by
  obtain ⟨w, heq, -, hfrees⟩ := itrunc_spec hL hF hi ht
  have hlog : (iupdate sb w inum (din inum).emptied).logged =
      v.logged ++ ((freedBlocks v (din inum)).map sb.bblock ++ [sb.iblock inum]) := by
    rw [← List.append_assoc, ← hfrees.logged]
    rfl
  unfold truncLog
  rw [heq]
  simp only [hlog, List.drop_left]

/-- One block for each bitmap block that the tree reaches, and the block of the inode. -/
theorem card_truncLog (hL : sb.Layout) (hF : Forest sb v din) (hi : inum < sb.ninodes)
    (ht : (din inum).type ≠ 0) : (truncLog sb v inum (din inum)).toFinset.card =
      (Set.image (· / bpb) (treeBlocks v (din inum))).ncard + 1 := by
  have hnot : sb.iblock inum ∉ ((freedBlocks v (din inum)).map sb.bblock).toFinset := by
    intro hmem
    obtain ⟨b, _, hb⟩ := List.mem_map.mp (List.mem_toFinset.mp hmem)
    have h1 := hL.iblock_lt hi
    have h2 := sb.bblock_ge b
    omega
  have hset : Set.image (· / bpb) (treeBlocks v (din inum)) =
      ((freedBlocks v (din inum)).toFinset.image (· / bpb) : Finset Nat) := by
    ext k
    simp [mem_freedBlocks]
  have hinj : Function.Injective (· + sb.bmapstart) := fun _ _ h => Nat.add_right_cancel h
  have himage : ((freedBlocks v (din inum)).map sb.bblock).toFinset =
      ((freedBlocks v (din inum)).toFinset.image (· / bpb)).image (· + sb.bmapstart) := by
    ext k
    simp [Superblock.bblock]
  rw [truncLog_eq hL hF hi ht, hset, Set.ncard_coe_finset, List.toFinset_append,
    List.toFinset_cons, List.toFinset_nil, insert_empty_eq, Finset.union_comm, ← Finset.insert_eq,
    Finset.card_insert_of_notMem hnot, himage, Finset.card_image_of_injective _ hinj]

/-- A truncation keeps to the bound of one operation exactly when the blocks of the file have
their bits in fewer than `maxopblocks` bitmap blocks. -/
theorem truncation_fits_iff (hL : sb.Layout) (hF : Forest sb v din) (hi : inum < sb.ninodes)
    (ht : (din inum).type ≠ 0) :
    (truncLog sb v inum (din inum)).toFinset.card ≤ maxopblocks ↔
      (Set.image (· / bpb) (treeBlocks v (din inum))).ncard < maxopblocks := by
  rw [card_truncLog hL hF hi ht]
  exact Nat.succ_le_iff

theorem wideFile_bitmaps (hn : n ≤ ndirect) :
    (Set.image (· / bpb) (treeBlocks (wideFile n) (wideInode n))).ncard = n := by
  have hset : Set.image (· / bpb) (treeBlocks (wideFile n) (wideInode n)) =
      ((Finset.range n).image (· + 1) : Finset Nat) := by
    rw [wideFile_treeBlocks hn]
    ext k
    constructor
    · intro hk
      obtain ⟨_, ⟨i, hi, rfl⟩, rfl⟩ := hk
      simp [wideBlock, hi]
    · intro hk
      obtain ⟨i, hi, rfl⟩ := Finset.mem_image.mp (Finset.mem_coe.mp hk)
      exact ⟨wideBlock i, ⟨i, Finset.mem_range.mp hi, rfl⟩, by simp [wideBlock]⟩
  rw [hset, Set.ncard_coe_finset, Finset.card_image_of_injective _ (add_left_injective 1),
    Finset.card_range]

theorem truncation_fits_iff_nine :
    (truncLog wideSb (wideFile 9) 2 (wideInode 9)).toFinset.card ≤ maxopblocks := by
  have hfits := truncation_fits_iff wideSb_layout (wideFile_forest (n := 9) (by decide))
    (show 2 < wideSb.ninodes by decide) wideFile_type
  rw [wideFile_inode] at hfits
  exact hfits.mpr (by rw [wideFile_bitmaps (by decide)]; decide)

/-- Ten blocks in ten bitmap blocks make eleven blocks for the log. -/
theorem truncation_of_ten_overflows :
    wideSb.Layout ∧ wideSb.size ≤ fssize ∧
      Forest wideSb (wideFile 10) ((wideFile 10).dinode wideSb) ∧
      2 < wideSb.ninodes ∧ (wideFile 10).dinode wideSb 2 = wideInode 10 ∧
      (wideInode 10).type ≠ 0 ∧
      (truncLog wideSb (wideFile 10) 2 (wideInode 10)).toFinset.card = 11 ∧
      ¬ (truncLog wideSb (wideFile 10) 2 (wideInode 10)).toFinset.card ≤ maxopblocks := by
  have hcard := card_truncLog wideSb_layout (wideFile_forest (n := 10) (by decide))
    (show 2 < wideSb.ninodes by decide) wideFile_type
  rw [wideFile_inode, wideFile_bitmaps (by decide)] at hcard
  refine ⟨wideSb_layout, le_rfl, wideFile_forest (by decide), by decide, wideFile_inode,
    by decide, hcard, ?_⟩
  rw [hcard]
  decide

/-- On a disk of at most nine bitmap blocks every truncation fits. -/
theorem truncation_fits_small (hL : sb.Layout) (hF : Forest sb v din) (hi : inum < sb.ninodes)
    (ht : (din inum).type ≠ 0) (hsize : sb.size ≤ 9*bpb) :
    (truncLog sb v inum (din inum)).toFinset.card ≤ maxopblocks := by
  have hsub : Set.image (· / bpb) (treeBlocks v (din inum)) ⊆ (Finset.range 9 : Finset Nat) := by
    intro k hk
    obtain ⟨b, hb, rfl⟩ := hk
    have hlt := (treeBlocks_isData hF hi ht hb).2
    refine Finset.mem_coe.mpr (Finset.mem_range.mpr (Nat.div_lt_of_lt_mul ?_))
    omega
  have hle := Set.ncard_le_ncard hsub (Finset.finite_toSet _)
  rw [Set.ncard_coe_finset, Finset.card_range] at hle
  rw [card_truncLog hL hF hi ht]
  exact Nat.succ_le_succ hle

end Xv6Labs.Fs
