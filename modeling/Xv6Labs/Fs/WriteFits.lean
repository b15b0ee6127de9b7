import Xv6Labs.Fs.WriteLog

/-! How many blocks a write passes to `log_write`, against the bound of one operation. -/
namespace Xv6Labs.Fs
open Kit Bytes

variable {sb : Superblock} {v v0 : Vol} {din : Nat → Dinode} {d d0 : Dinode}
  {inum n off : Nat} {fs ws : List Slot}

/-- The blocks that `writei` passes to `log_write`, in order. -/
def writeLog (sb : Superblock) (v : Vol) (inum : Nat) (d : Dinode) (src : Buf)
    (fault : Nat → Nat → Option Nat) (off n : Nat) : List Nat :=
  match writei sb v inum d src fault off n with
  | .ok (_, _, v') => v'.logged.drop v.logged.length
  | .error _ => []

/-- The blocks logged once the places `fs` are filled, the data at `ws` is written and the inode
is updated. -/
def logSize (sb : Superblock) (v : Vol) (fs ws : List Slot) : Nat :=
  (touched fs ws).card + (bitmaps sb v fs.length).card + 1

theorem logSize_mono {fs' ws' : List Slot} (hf : fs <+: fs') (hw : ws <+: ws') :
    logSize sb v fs ws ≤ logSize sb v fs' ws' := by
  have h1 := Finset.card_le_card (touched_mono hf.subset hw.subset)
  have h2 : (bitmaps sb v fs.length).card ≤ (bitmaps sb v fs'.length).card :=
    Finset.card_le_card (bitmaps_mono hf.length_le)
  unfold logSize
  omega

section
variable (h : Logs sb din inum v0 d0 fs ws v d) (hL : sb.Layout) (hi : inum < sb.ninodes)
  (ht : d0.type ≠ 0)
include h hi ht

theorem Logs.mem_held {s : Slot} (hs : s ∈ touched fs ws) :
    (inum, s) ∈ Fs.held sb v (Function.update din inum d) :=
  held_update hi (h.type ▸ ht) (h.held hs).1 (h.held hs).2

/-- Distinct places hold distinct blocks. -/
theorem Logs.card_touched :
    ((touched fs ws).image fun s => s.val v d).card = (touched fs ws).card := by
  apply Finset.card_image_of_injOn
  intro s hs t ht' heq
  have hpair := h.forest.inj (h.mem_held hi ht hs) (h.mem_held hi ht ht') (by
    rw [valAt_update, valAt_update]
    exact heq)
  exact (Prod.mk.inj hpair).2

/-- A data block is neither a bitmap block nor the block of an inode. -/
theorem Logs.touched_ge {s : Slot} (hs : s ∈ touched fs ws) : sb.datastart ≤ s.val v d := by
  have hdata := h.forest.isData (h.mem_held hi ht hs)
  rw [valAt_update] at hdata
  exact hdata.1

include hL in
/-- The inode block, the bitmap blocks and the data blocks are apart. -/
theorem Logs.card : ∃ l, v.logged = v0.logged ++ l ∧
    (l ++ [sb.iblock inum]).toFinset.card = logSize sb v0 fs ws := by
  obtain ⟨l, hl, hmem⟩ := h.logged
  refine ⟨l, hl, ?_⟩
  have htake : (v0.free sb).take fs.length = fs.map (·.val v d) := by
    rw [h.free, List.take_left' (by simp)]
  have hset : l.toFinset = (bitmaps sb v0 fs.length).image (· + sb.bmapstart) ∪
      (touched fs ws).image fun s => s.val v d := by
    ext c
    rw [List.mem_toFinset, hmem, Finset.mem_union, bitmaps, htake]
    simp [Superblock.bblock, eq_comm]
  have hdisjoint : Disjoint ((bitmaps sb v0 fs.length).image (· + sb.bmapstart))
      ((touched fs ws).image fun s => s.val v d) := by
    rw [Finset.disjoint_left]
    intro c hc hc'
    obtain ⟨s, hs, rfl⟩ := Finset.mem_image.mp hc'
    obtain ⟨k, hk, heq⟩ := Finset.mem_image.mp hc
    obtain ⟨b, hb, rfl⟩ := List.mem_map.mp (List.mem_toFinset.mp hk)
    have h1 := hL.bblock_lt (mem_free.mp (List.mem_of_mem_take hb)).1
    have h2 := h.touched_ge hi ht hs
    rw [← heq] at h2
    exact absurd h1 (Nat.not_lt.mpr h2)
  have hnot : sb.iblock inum ∉ l.toFinset := by
    have hlow := hL.iblock_lt hi
    rw [hset, Finset.mem_union, not_or]
    refine ⟨?_, ?_⟩
    · intro hc
      obtain ⟨k, -, heq⟩ := Finset.mem_image.mp hc
      omega
    · intro hc
      obtain ⟨s, hs, heq⟩ := Finset.mem_image.mp hc
      have h1 := h.touched_ge hi ht hs
      have h2 := hL.bmapstart_lt
      omega
  have hinj : Function.Injective (· + sb.bmapstart) := fun _ _ h => Nat.add_right_cancel h
  rw [List.toFinset_append, List.toFinset_cons, List.toFinset_nil, insert_empty_eq,
    Finset.union_comm, ← Finset.insert_eq, Finset.card_insert_of_notMem hnot, hset,
    Finset.card_union_of_disjoint hdisjoint, Finset.card_image_of_injective _ hinj,
    h.card_touched hi ht, logSize, Nat.add_comm (bitmaps sb v0 fs.length).card]

end

section
variable (src : Buf) (fault : Nat → Nat → Option Nat)

/-- A write that is turned down logs nothing. -/
theorem writeLog_reject (hoff : off < 2^32) (hn : n < 2^32)
    (h : d.size.toNat < off ∨ maxfile*bsize < off+n) :
    writeLog sb v inum d src fault off n = [] := by
  unfold writeLog
  rw [writei_reject hoff hn (by omega)]
  simp

/-- What a write logs: all that it can fill and reach, or less of it if a copy fails. -/
theorem card_writeLog (hL : sb.Layout) (hF : Forest sb v din) (hi : inum < sb.ninodes)
    (ht : (din inum).type ≠ 0) (hoff : off ≤ (din inum).size.toNat)
    (hend : off+n ≤ maxfile*bsize) :
    ∃ fs ws, (writeLog sb v inum (din inum) src fault off n).toFinset.card = logSize sb v fs ws ∧
      fs <+: filled sb v (din inum) off n ∧
      ws <+: (reached sb v (din inum) off n).map leafSlot ∧
      ((∀ t m, fault t m = none) →
        fs = filled sb v (din inum) off n ∧ ws = (reached sb v (din inum) off n).map leafSlot) := by
  have hsmall : maxfile*bsize < 2^32 := by decide
  have hself : Forest sb v (Function.update din inum (din inum)) := by
    rw [Function.update_eq_self]
    exact hF
  have hspan : span off n = ([] : List Nat) ++ span off (n - 0) := rfl
  obtain ⟨t, o, d', v', heq, fs, ws, hlogs, hfs, hws, hall⟩ :=
    writeLoop_logs src fault hL hi ht (show n < 2^32 by omega) n (Logs.refl hself)
      hspan (Nat.zero_le n) (Nat.le_refl _) hend
  obtain ⟨l, hl, hcard⟩ := hlogs.card hL hi ht
  refine ⟨fs, ws, ?_, hfs, hws, hall⟩
  unfold writeLog writei
  rw [u32_of_lt (by omega), if_neg (by omega), if_neg (by omega), heq]
  simp only [bind, Except.bind, pure, Except.pure]
  change ((v'.logged ++ [sb.iblock inum]).drop v.logged.length).toFinset.card = _
  rw [hl, List.append_assoc, List.drop_left]
  exact hcard

theorem card_writeLog_le (hL : sb.Layout) (hF : Forest sb v din) (hi : inum < sb.ninodes)
    (ht : (din inum).type ≠ 0) (hoff : off < 2^32) (hn : n < 2^32) :
    (writeLog sb v inum (din inum) src fault off n).toFinset.card ≤
      logSize sb v (filled sb v (din inum) off n)
        ((reached sb v (din inum) off n).map leafSlot) := by
  by_cases hreject : (din inum).size.toNat < off ∨ maxfile*bsize < off+n
  · rw [writeLog_reject _ _ hoff hn hreject]
    exact Nat.zero_le _
  · have hle : off ≤ (din inum).size.toNat := by omega
    have hend : off+n ≤ maxfile*bsize := by omega
    obtain ⟨fs, ws, hcard, hfs, hws, -⟩ := card_writeLog src fault hL hF hi ht hle hend
    rw [hcard]
    exact logSize_mono hfs hws

end

/-- A write keeps to the bound of one operation exactly when it is turned down, or the file data it
reaches, the blocks it fills, the index blocks that get an entry and the bitmap blocks of what
first fit hands out are fewer than `maxopblocks` together. -/
theorem write_step_fits_iff (hL : sb.Layout) (hF : Forest sb v din) (hi : inum < sb.ninodes)
    (ht : (din inum).type ≠ 0) (hoff : off < 2^32) (hn : n < 2^32) :
    (∀ src fault, (writeLog sb v inum (din inum) src fault off n).toFinset.card ≤ maxopblocks) ↔
      ((din inum).size.toNat < off ∨ maxfile*bsize < off+n) ∨
        (touched (filled sb v (din inum) off n)
            ((reached sb v (din inum) off n).map leafSlot)).card +
          (bitmaps sb v (filled sb v (din inum) off n).length).card < maxopblocks := by
  constructor
  · intro hfits
    by_cases hreject : (din inum).size.toNat < off ∨ maxfile*bsize < off+n
    · exact .inl hreject
    · have hle : off ≤ (din inum).size.toNat := by omega
      have hend : off+n ≤ maxfile*bsize := by omega
      have hfit := hfits (fun _ => 0) fun _ _ => none
      obtain ⟨fs, ws, hcard, -, -, hall⟩ :=
        card_writeLog (fun _ => 0) (fun _ _ => none) hL hF hi ht hle hend
      obtain ⟨rfl, rfl⟩ := hall fun _ _ => rfl
      rw [hcard, logSize] at hfit
      exact .inr (Nat.lt_of_succ_le hfit)
  · rintro (hreject | hfit) src fault
    · rw [writeLog_reject _ _ hoff hn hreject]
      decide
    · refine (card_writeLog_le src fault hL hF hi ht hoff hn).trans ?_
      rw [logSize]
      exact Nat.succ_le_of_lt hfit

/-- A write that goes on behind the index block takes two new blocks. -/
theorem write_step_fits_iff_new_blocks :
    (∀ src fault, (writeLog smallSb (after twoFiles).vol 2 ((after twoFiles).vol.dinode smallSb 2)
      src fault (11*bsize + 1) (2*bsize)).toFinset.card ≤ maxopblocks) ∧
    (filled smallSb (after twoFiles).vol ((after twoFiles).vol.dinode smallSb 2) (11*bsize + 1)
      (2*bsize)).length = 2 := by
  have hr : Run (Step smallSb) (FS.boot smallVol) twoFiles (after twoFiles) :=
    run_after (by decide +kernel)
  have hfits := write_step_fits_iff smallImage.layout (inv_run smallImage hr).vol.forest
    (show 2 < smallSb.ninodes by decide) (by decide +kernel) (show 11*bsize + 1 < 2^32 by decide)
    (show 2*bsize < 2^32 by decide)
  exact ⟨hfits.mpr (.inr (by decide +kernel)), by decide +kernel⟩

/-! What the chunk of a write leaves room for: its blocks lie on the ways to four blocks of the file,
so bits in two bitmap blocks still fit. -/

theorem leafSlot_mem_way (bn : Nat) : leafSlot bn ∈ way bn := by
  unfold leafSlot way
  split
  · exact List.mem_singleton_self _
  · split <;> simp

theorem up_mem_way {bn k : Nat} {s p : Slot} (hs : s ∈ way bn) (hup : s.up = some (p, k)) :
    p ∈ way bn := by
  unfold way at hs ⊢
  by_cases h1 : bn < ndirect
  · rw [if_pos h1, List.mem_singleton] at hs
    rw [hs] at hup
    cases hup
  · rw [if_neg h1] at hs ⊢
    by_cases h2 : bn - ndirect < nindirect
    · rw [if_pos h2] at hs ⊢
      rcases List.mem_pair.mp hs with rfl | rfl <;> cases hup
      exact List.mem_cons_self ..
    · rw [if_neg h2] at hs ⊢
      simp only [List.mem_cons, List.not_mem_nil, or_false] at hs
      rcases hs with rfl | rfl | rfl <;> cases hup
      · exact List.mem_cons_self ..
      · exact List.mem_cons_of_mem _ (List.mem_cons_self ..)

theorem touched_subset : touched (filled sb v d off n) ((reached sb v d off n).map leafSlot) ⊆
    ((span off n).flatMap way).toFinset := by
  have hfilled : ∀ s ∈ filled sb v d off n, ∃ bn ∈ span off n, s ∈ way bn := by
    intro s hs
    exact List.mem_flatMap.mp (mem_missing.mp (List.mem_of_mem_take hs)).1
  intro s hs
  rw [List.mem_toFinset, List.mem_flatMap]
  rw [mem_touched] at hs
  rcases hs with hw | hf | ⟨t, ht, k, hup⟩
  · obtain ⟨bn, hbn, rfl⟩ := List.mem_map.mp hw
    exact ⟨bn, List.takeWhile_subset _ hbn, leafSlot_mem_way bn⟩
  · exact hfilled s hf
  · obtain ⟨bn, hbn, hway⟩ := hfilled t ht
    exact ⟨bn, hbn, up_mem_way hway hup⟩

/-- The index blocks on the ways to four blocks from `q` on. -/
def indexes (q : Nat) : Finset Slot :=
  if q < ndirect + nindirect then {.addr ndirect, .addr (ndirect+1), .out 0}
  else {.addr (ndirect+1), .out ((q - ndirect - nindirect)/nindirect),
    .out ((q - ndirect - nindirect)/nindirect + 1)}

theorem card_indexes (q : Nat) : (indexes q).card ≤ 3 := by
  unfold indexes
  split
  · exact Finset.card_le_three
  · exact Finset.card_le_three

theorem way_subset {q bn : Nat} (h0 : q ≤ bn) (h1 : bn < q+4) {s : Slot} (hs : s ∈ way bn) :
    s = leafSlot bn ∨ s ∈ indexes q := by
  unfold way at hs
  unfold leafSlot indexes
  simp only [ndirect, nindirect] at *
  by_cases h2 : bn < 11
  · rw [if_pos h2] at hs ⊢
    exact .inl (List.mem_singleton.mp hs)
  · rw [if_neg h2] at hs ⊢
    by_cases h3 : bn - 11 < 256
    · rw [if_pos h3] at hs ⊢
      rw [if_pos (by omega)]
      rcases List.mem_pair.mp hs with rfl | rfl
      · simp
      · exact .inl rfl
    · rw [if_neg h3] at hs ⊢
      simp only [List.mem_cons, List.not_mem_nil, or_false] at hs
      by_cases h4 : q < 267
      · have hout : (bn - 11 - 256)/256 = 0 := by omega
        rw [if_pos h4]
        rcases hs with rfl | rfl | rfl
        · simp
        · simp [hout]
        · exact .inl rfl
      · have hout : (bn - 11 - 256)/256 = (q - 11 - 256)/256 ∨
            (bn - 11 - 256)/256 = (q - 11 - 256)/256 + 1 := by omega
        rw [if_neg h4]
        rcases hs with rfl | rfl | rfl
        · simp
        · rcases hout with hout | hout <;> simp [hout]
        · exact .inl rfl

theorem card_touched_le (hn : n ≤ 3*bsize) :
    (touched (filled sb v d off n) ((reached sb v d off n).map leafSlot)).card ≤ 7 := by
  have hsub : ((span off n).flatMap way).toFinset ⊆
      ((List.range' (off/bsize) 4).map leafSlot).toFinset ∪ indexes (off/bsize) := by
    intro s hs
    rw [List.mem_toFinset, List.mem_flatMap] at hs
    obtain ⟨bn, hbn, hway⟩ := hs
    have hlt : off/bsize ≤ bn ∧ bn < off/bsize + 4 := by
      unfold span at hbn
      split at hbn
      · exact absurd hbn List.not_mem_nil
      · rw [List.mem_range'_1] at hbn
        simp only [bsize] at *
        omega
    rw [Finset.mem_union, List.mem_toFinset, List.mem_map]
    rcases way_subset hlt.1 hlt.2 hway with rfl | hindex
    · exact .inl ⟨bn, List.mem_range'_1.mpr hlt, rfl⟩
    · exact .inr hindex
  have hleaf : ((List.range' (off/bsize) 4).map leafSlot).toFinset.card ≤ 4 := by
    refine (List.toFinset_card_le _).trans ?_
    simp
  have hunion := Finset.card_union_le ((List.range' (off/bsize) 4).map leafSlot).toFinset
    (indexes (off/bsize))
  have hindex := card_indexes (off/bsize)
  refine (Finset.card_le_card (touched_subset.trans hsub)).trans ?_
  exact hunion.trans (Nat.add_le_add hleaf hindex)

/-- On a disk of at most two bitmap blocks every write of the chunk size fits. -/
theorem write_fits_small (src : Buf) (fault : Nat → Nat → Option Nat) (hL : sb.Layout)
    (hF : Forest sb v din) (hi : inum < sb.ninodes) (ht : (din inum).type ≠ 0)
    (hoff : off < 2^32) (hn : n ≤ (maxopblocks-1-1-2)/2*bsize) (hsize : sb.size ≤ 2*bpb) :
    (writeLog sb v inum (din inum) src fault off n).toFinset.card ≤ maxopblocks := by
  have hn' : n ≤ 3*bsize := hn
  have hbitmaps : ∀ k, (bitmaps sb v k).card ≤ 2 := by
    intro k
    have hsub : bitmaps sb v k ⊆ Finset.range 2 := by
      intro x hx
      obtain ⟨b, hb, rfl⟩ := List.mem_map.mp (List.mem_toFinset.mp hx)
      have hlt := (mem_free.mp (List.mem_of_mem_take hb)).1
      rw [Finset.mem_range]
      exact Nat.div_lt_of_lt_mul (by omega)
    have hle := Finset.card_le_card hsub
    rwa [Finset.card_range] at hle
  have htouched : (touched (filled sb v (din inum) off n)
      ((reached sb v (din inum) off n).map leafSlot)).card ≤ 7 := card_touched_le hn'
  have hn32 : n < 2^32 := lt_of_le_of_lt hn' (by decide)
  refine (card_writeLog_le src fault hL hF hi ht hoff hn32).trans ?_
  exact Nat.add_le_add_right (Nat.add_le_add htouched (hbitmaps _)) 1

/-- Small disks: in every reachable state each chunk that `filewrite` hands to `writei` fits the
log of an operation if the bitmap takes up to two blocks, and each truncation if it takes up to
nine. -/
theorem small_disk_ops_fit {fs : FS} {tr : List Act} (hI : Image sb v)
    (hr : Run (Step sb) (FS.boot v) tr fs) (hi : inum < sb.ninodes)
    (ht : (fs.vol.dinode sb inum).type ≠ 0) :
    (sb.size ≤ 2*bpb → ∀ src fault off n, off < 2^32 → n ≤ (maxopblocks-1-1-2)/2*bsize →
      (writeLog sb fs.vol inum (fs.vol.dinode sb inum) src fault off n).toFinset.card ≤
        maxopblocks) ∧
    (sb.size ≤ 9*bpb →
      (truncLog sb fs.vol inum (fs.vol.dinode sb inum)).toFinset.card ≤ maxopblocks) := by
  have hF := (inv_run hI hr).vol.forest
  constructor
  · intro hsize src fault off n hoff hn
    exact write_fits_small src fault hI.layout hF hi ht hoff hn hsize
  · exact truncation_fits_small hI.layout hF hi ht

theorem small_disk_ops_fit_two_files :
    Run (Step smallSb) (FS.boot smallVol) twoFiles (after twoFiles) ∧
    (writeLog smallSb (after twoFiles).vol 2 ((after twoFiles).vol.dinode smallSb 2) counting
      kernelSrc 11000 (3*bsize)).toFinset.card ≤ maxopblocks ∧
    (truncLog smallSb (after twoFiles).vol 2
      ((after twoFiles).vol.dinode smallSb 2)).toFinset.card ≤ maxopblocks := by
  have hr : Run (Step smallSb) (FS.boot smallVol) twoFiles (after twoFiles) :=
    run_after (by decide +kernel)
  obtain ⟨hwrite, htrunc⟩ :=
    small_disk_ops_fit smallImage hr (show 2 < smallSb.ninodes by decide) (by decide +kernel)
  exact ⟨hr, hwrite (by decide) _ _ _ _ (by decide) (by decide), htrunc (by decide)⟩

/-! A disk on which a write of three blocks does not fit: one file fills the first two bitmap blocks
but for one block in each, and ends before the last entry of an inner index block. -/

section

/-- The blocks marked in use: the metadata, and those of the file. -/
def packedBit (b : Nat) : Bool := b < 70 || (71 ≤ b && b ≤ 16530 && b != 8192)

/-- The blocks of the file in order, around the free block 8192. -/
def packedBlock (r : Nat) : Nat := if r < 8121 then 71 + r else 72 + r

/-- The block number at each place of the file: all of `addrs` and of the single indirect block, 63
inner blocks, and all entries of these but the last. -/
def packedVal : Slot → Nat
  | .addr i => packedBlock i
  | .ind j => packedBlock (13+j)
  | .out j => if j < 63 then packedBlock (269+j) else 0
  | .inn j k => if 256*j + k < 16127 then packedBlock (332 + (256*j + k)) else 0

/-- The place of the `r`-th block of the file. -/
def packedSlot (r : Nat) : Slot :=
  if r < 13 then .addr r
  else if r < 269 then .ind (r-13)
  else if r < 332 then .out (r-269)
  else .inn ((r-332)/256) ((r-332)%256)

/-- One byte in the last block. -/
def packedSize : Nat := 16393*bsize + 1

def packedInode : Dinode where
  type := 2
  major := 0
  minor := 0
  nlink := 1
  size := UInt32.ofNat packedSize
  addrs := fun i => UInt32.ofNat (packedVal (.addr i))

def packedDisk (b : Nat) : Buf :=
  if 45 ≤ b ∧ b < 70 then ofBits fun i => packedBit (bpb*(b-45) + i)
  else if b = 82 then ofWords fun j => packedVal (.ind j)
  else if b = 83 then ofWords fun j => packedVal (.out j)
  else if 340 ≤ b ∧ b < 403 then ofWords fun k => packedVal (.inn (b-340) k)
  else fun _ => 0

def packedFile : Vol := iupdate wideSb ⟨packedDisk, []⟩ 2 packedInode

variable {b i j k : Nat} {s : Slot}

theorem packedFile_disk (hb : wideSb.bmapstart ≤ b) : packedFile.disk b = packedDisk b := by
  have hlt := wideSb_layout.iblock_lt (show 2 < wideSb.ninodes by decide)
  exact disk_write_ne (by omega)

theorem packedFile_bit (hb : b < fssize) : packedFile.bit wideSb b = packedBit b := by
  have hblock : wideSb.bblock b = b/bpb + 45 := rfl
  unfold Vol.bit
  rw [packedFile_disk (wideSb.bblock_ge b), hblock, packedDisk, if_pos, testBit_ofBits,
    Nat.add_sub_cancel, Nat.div_add_mod]
  simp only [bpb, fssize] at *
  omega

/-- The block numbers of the file are those marked in use from 71 on. -/
theorem packedVal_spec (hs : s.InRange) (h0 : packedVal s ≠ 0) :
    packedBit (packedVal s) ∧ 70 < packedVal s ∧ packedVal s < 16531 := by
  have hblock : ∀ r < 16459, packedBit (packedBlock r) ∧ 70 < packedBlock r ∧
      packedBlock r < 16531 := by
    intro r hr
    unfold packedBlock packedBit
    simp only [Bool.or_eq_true, Bool.and_eq_true, decide_eq_true_eq, bne_iff_ne]
    split <;> omega
  cases s with
  | addr i =>
    have hi : i < ndirect+2 := hs
    exact hblock i (by simp only [ndirect] at hi; omega)
  | ind j =>
    have hj : j < nindirect := hs
    exact hblock (13+j) (by simp only [nindirect] at hj; omega)
  | out j =>
    by_cases hj : j < 63
    · simp only [packedVal, if_pos hj]
      exact hblock _ (by omega)
    · exact absurd (if_neg hj) h0
  | inn j k =>
    by_cases hj : 256*j + k < 16127
    · simp only [packedVal, if_pos hj]
      exact hblock _ (by omega)
    · exact absurd (if_neg hj) h0

theorem packedVal_lt (hs : s.InRange) : packedVal s < 2^32 := by
  by_cases h0 : packedVal s = 0
  · rw [h0]
    decide
  · have hlt := (packedVal_spec hs h0).2.2
    omega

theorem packedInode_addr (hi : i < ndirect+2) : packedInode.addr i = packedVal (.addr i) := by
  simp only [Dinode.addr, packedInode, hi, dif_pos]
  exact UInt32.toNat_ofNat_of_lt' (packedVal_lt hi)

/-- The index blocks hold what the tree says. -/
theorem packed_ptr {p : Slot} (hs : s.InRange) (hup : s.up = some (p, k)) :
    (if packedVal p = 0 then 0 else packedFile.ptr (packedVal p) k) = packedVal s := by
  have hlt := packedVal_lt hs
  unfold Vol.ptr
  cases s with
  | addr i => cases hup
  | ind j =>
    cases hup
    change get32 (packedFile.disk 82) _ = _
    rw [packedFile_disk (by decide)]
    exact get32_ofWords (f := fun j => packedVal (.ind j)) hlt
  | out j =>
    cases hup
    change get32 (packedFile.disk 83) _ = _
    rw [packedFile_disk (by decide)]
    exact get32_ofWords (f := fun j => packedVal (.out j)) hlt
  | inn j k' =>
    cases hup
    by_cases hj : j < 63
    · have hout : packedVal (.out j) = 340+j := by
        simp only [packedVal, if_pos hj, packedBlock]
        rw [if_pos (by omega)]
        omega
      have hdisk : packedFile.disk (340+j) = ofWords fun k => packedVal (.inn j k) := by
        rw [packedFile_disk (show 45 ≤ 340+j by omega), packedDisk, if_neg (by omega),
          if_neg (by omega), if_neg (by omega), if_pos (by omega), Nat.add_sub_cancel_left]
      rw [hout, if_neg (by omega), hdisk]
      exact get32_ofWords (f := fun k => packedVal (.inn j k)) hlt
    · have hout : packedVal (.out j) = 0 := if_neg hj
      rw [if_pos hout]
      exact (if_neg (by omega)).symm

theorem packed_val (hs : s.InRange) : s.val packedFile packedInode = packedVal s := by
  induction s using Slot.up_induction with
  | root i => exact packedInode_addr hs
  | step s p k hup ih => rw [Slot.val_up hup, ih (hs.up hup).1, packed_ptr hs hup]

theorem packedBlock_inj {r r' : Nat} (h : packedBlock r = packedBlock r') : r = r' := by
  unfold packedBlock at h
  split at h <;> split at h <;> omega

theorem packedVal_rank (hs : s.InRange) (h0 : packedVal s ≠ 0) :
    ∃ r < 16459, packedVal s = packedBlock r ∧ packedSlot r = s := by
  unfold packedSlot
  cases s with
  | addr i =>
    have hi : i < 13 := hs
    exact ⟨i, by omega, rfl, if_pos hi⟩
  | ind j =>
    have hj : j < 256 := hs
    refine ⟨13+j, by omega, rfl, ?_⟩
    rw [if_neg (by omega), if_pos (by omega), Nat.add_sub_cancel_left]
  | out j =>
    have hj : j < 63 := by
      by_contra hj
      exact h0 (if_neg hj)
    refine ⟨269+j, by omega, if_pos hj, ?_⟩
    rw [if_neg (by omega), if_neg (by omega), if_pos (by omega), Nat.add_sub_cancel_left]
  | inn j k =>
    have hjk : 256*j + k < 16127 := by
      by_contra hjk
      exact h0 (if_neg hjk)
    have hk : k < 256 := hs.2
    refine ⟨332 + (256*j + k), by omega, if_pos hjk, ?_⟩
    have hdiv : (256*j + k)/256 = j := by omega
    have hmod : (256*j + k)%256 = k := by omega
    rw [if_neg (by omega), if_neg (by omega), if_neg (by omega), Nat.add_sub_cancel_left, hdiv, hmod]

theorem packedSlot_val {r : Nat} (hr : r < 16459) :
    (packedSlot r).InRange ∧ packedVal (packedSlot r) = packedBlock r := by
  unfold packedSlot
  by_cases h1 : r < 13
  · rw [if_pos h1]
    exact ⟨h1, rfl⟩
  · rw [if_neg h1]
    by_cases h2 : r < 269
    · have hr13 : 13 + (r-13) = r := by omega
      rw [if_pos h2]
      refine ⟨show r-13 < 256 by omega, ?_⟩
      rw [packedVal, hr13]
    · rw [if_neg h2]
      by_cases h3 : r < 332
      · have hr269 : 269 + (r-269) = r := by omega
        rw [if_pos h3]
        refine ⟨show r-269 < 256 by omega, ?_⟩
        rw [packedVal, if_pos (by omega), hr269]
      · have hsplit : 256*((r-332)/256) + (r-332)%256 = r-332 := Nat.div_add_mod _ _
        have hr332 : 332 + (r-332) = r := by omega
        rw [if_neg h3]
        refine ⟨show (r-332)/256 < 256 ∧ (r-332)%256 < 256 by omega, ?_⟩
        rw [packedVal, hsplit, if_pos (by omega), hr332]

theorem packedFile_inode : packedFile.dinode wideSb 2 = packedInode := by
  unfold packedFile
  rw [dinode_iupdate, if_pos rfl]

theorem packedFile_unused (hi : i < 200) (hne : i ≠ 2) :
    (packedFile.dinode wideSb i).type = 0 := by
  have hlt : i/16 + 32 < 45 := by omega
  have hdisk : packedDisk (wideSb.iblock i) = fun _ => 0 := by
    change packedDisk (i/16 + 32) = _
    rw [packedDisk, if_neg (by omega), if_neg (by omega), if_neg (by omega), if_neg (by omega)]
  unfold packedFile
  rw [dinode_iupdate, if_neg hne]
  change (Dinode.load (packedDisk (wideSb.iblock i)) _).type = 0
  rw [hdisk]
  rfl

theorem packedFile_held : held wideSb packedFile (packedFile.dinode wideSb) =
    {x | x.1 = 2 ∧ x.2.InRange ∧ packedVal x.2 ≠ 0} := by
  ext ⟨i, s⟩
  constructor
  · intro hx
    by_cases hi : i = 2
    · subst hi
      have hv := hx.2
      unfold valAt at hv
      rw [packedFile_inode, packed_val hx.1.2.2] at hv
      exact ⟨rfl, hx.1.2.2, hv⟩
    · exact absurd (packedFile_unused hx.1.1 hi) hx.1.2.1
  · rintro ⟨rfl, hs, h0⟩
    refine ⟨⟨show 2 < 200 by decide, ?_, hs⟩, ?_⟩
    · rw [packedFile_inode]
      decide
    · unfold valAt
      rw [packedFile_inode, packed_val hs]
      exact h0

theorem packedFile_forest : Forest wideSb packedFile (packedFile.dinode wideSb) := by
  have hval : ∀ s : Slot, s.InRange →
      valAt packedFile (packedFile.dinode wideSb) (2, s) = packedVal s := by
    intro s hs
    unfold valAt
    rw [packedFile_inode, packed_val hs]
  have hdata : ∀ b, wideSb.IsData b ↔ 70 ≤ b ∧ b < 200000 := fun b => Iff.rfl
  unfold Forest
  rw [packedFile_held]
  refine ⟨?_, ?_, ?_, ?_⟩
  · intro b hb
    have hb70 : b < 70 := hb
    rw [packedFile_bit (by simp only [fssize]; omega)]
    simp [packedBit, hb70]
  · rintro ⟨i, s⟩ ⟨rfl, hs, h0⟩
    obtain ⟨hbit, hlow, hhigh⟩ : packedBit (packedVal s) ∧ 70 < packedVal s ∧
        packedVal s < 16531 := packedVal_spec hs h0
    rw [hval s hs]
    refine ⟨(hdata _).mpr (by omega), ?_⟩
    rw [packedFile_bit (by simp only [fssize]; omega)]
    exact hbit
  · rintro ⟨i, s⟩ ⟨rfl, hs, h0⟩ ⟨i', t⟩ ⟨rfl, ht, h0'⟩ heq
    rw [hval s hs, hval t ht] at heq
    obtain ⟨r, -, hr, rfl⟩ := packedVal_rank hs h0
    obtain ⟨r', -, hr', rfl⟩ := packedVal_rank ht h0'
    rw [packedBlock_inj (hr.symm.trans (heq.trans hr'))]
  · rintro b ⟨hb, hbit⟩
    have hrange := (hdata b).mp hb
    rw [packedFile_bit hb.2] at hbit
    simp only [packedBit, Bool.or_eq_true, Bool.and_eq_true, decide_eq_true_eq,
      bne_iff_ne] at hbit
    obtain ⟨r, hr, rfl⟩ : ∃ r < 16459, packedBlock r = b := by
      unfold packedBlock
      by_cases hlow : b < 8192
      · exact ⟨b-71, by omega, by rw [if_pos (by omega)]; omega⟩
      · exact ⟨b-72, by omega, by rw [if_neg (by omega)]; omega⟩
    obtain ⟨hs, hv⟩ := packedSlot_val hr
    refine ⟨(2, packedSlot r), ⟨rfl, hs, ?_⟩, ?_⟩
    · rw [hv]
      omega
    · rw [hval _ hs, hv]

/-! The write of three blocks at the end of the file. -/

/-- The next free block after those in use from `s` on. -/
theorem packed_next {s n b : Nat} (hs : s ≤ b) (hb : b < s+n) (hn : s+n ≤ fssize)
    (hfree : packedBit b = false) (hused : ∀ c, s ≤ c → c < b → packedBit c) :
    (List.range' s n).filter (fun c => !packedFile.bit wideSb c) =
      b :: (List.range' (b+1) (s+n - (b+1))).filter fun c => !packedFile.bit wideSb c := by
  apply filter_range_first hs hb
  · rw [packedFile_bit (by omega), hfree]
    rfl
  · intro c hc hcb
    rw [packedFile_bit (by omega), hused c hc hcb]
    simp

theorem packedFile_free :
    ∃ bs, packedFile.free wideSb = 70 :: 8192 :: 16531 :: 16532 :: bs := by
  have hsize : wideSb.size = 200000 := rfl
  have hused : ∀ c, packedBit c ↔ c < 70 ∨ (71 ≤ c ∧ c ≤ 16530) ∧ c ≠ 8192 := by
    intro c
    simp [packedBit]
  rw [free_eq, hsize, packed_next (b := 70) (by omega) (by omega) (by decide) (by decide),
    packed_next (b := 8192) (by omega) (by omega) (by decide) (by decide),
    packed_next (b := 16531) (by omega) (by omega) (by decide) (by decide),
    packed_next (b := 16532) (by omega) (by omega) (by decide) (by decide)]
  · exact ⟨_, rfl⟩
  all_goals
    intro c _ _
    rw [hused]
    omega

theorem packed_missing :
    missing packedFile packedInode ((span packedSize (3*bsize)).flatMap way) =
      [.inn 62 255, .out 63, .inn 63 0, .inn 63 1] := by
  have hspan : (span packedSize (3*bsize)).flatMap way =
      [.addr 12, .out 62, .inn 62 254, .addr 12, .out 62, .inn 62 255, .addr 12, .out 63,
        .inn 63 0, .addr 12, .out 63, .inn 63 1] := by decide
  have hval : ∀ s ∈ (span packedSize (3*bsize)).flatMap way,
      s.val packedFile packedInode = packedVal s := by
    intro s hs
    obtain ⟨bn, hbn, hway⟩ := List.mem_flatMap.mp hs
    have hlt : ∀ bn ∈ span packedSize (3*bsize), bn < maxfile := by decide
    exact packed_val (way_inRange (hlt bn hbn) hway)
  unfold missing
  rw [List.foldl_ext _ (fun got s => if packedVal s = 0 ∧ s ∉ got then got ++ [s] else got) _
    fun got s hs => by rw [hval s hs], hspan]
  decide

/-- A write of three blocks from the end of the file on reaches four blocks of it, needs a new inner
index block, and takes free blocks with their bits in three bitmap blocks: eleven blocks for the
log. -/
theorem write_of_three_blocks_overflows :
    wideSb.Layout ∧ wideSb.size ≤ fssize ∧
      Forest wideSb packedFile (packedFile.dinode wideSb) ∧
      2 < wideSb.ninodes ∧ packedFile.dinode wideSb 2 = packedInode ∧ packedInode.type ≠ 0 ∧
      3*bsize ≤ (maxopblocks-1-1-2)/2*bsize ∧
      (writeLog wideSb packedFile 2 packedInode (fun _ => 7) (fun _ _ => none) packedSize
        (3*bsize)).toFinset.card = 11 ∧
      ¬ (writeLog wideSb packedFile 2 packedInode (fun _ => 7) (fun _ _ => none) packedSize
        (3*bsize)).toFinset.card ≤ maxopblocks := by
  obtain ⟨bs, hfree⟩ := packedFile_free
  obtain ⟨hfilled, hreached⟩ := filled_all
    (show (missing packedFile packedInode ((span packedSize (3*bsize)).flatMap way)).length ≤
      (packedFile.free wideSb).length by rw [packed_missing, hfree]; exact Nat.le_add_left 4 _)
  have htype : (packedFile.dinode wideSb 2).type ≠ 0 := by
    rw [packedFile_inode]
    decide
  obtain ⟨fs, ws, hcard, -, -, hall⟩ :=
    card_writeLog (fun _ => 7) (fun _ _ => none) wideSb_layout packedFile_forest
      (show 2 < wideSb.ninodes by decide) htype
      (show packedSize ≤ (packedFile.dinode wideSb 2).size.toNat by
        rw [packedFile_inode]
        decide)
      (show packedSize + 3*bsize ≤ maxfile*bsize by decide)
  obtain ⟨hfs, hws⟩ := hall fun _ _ => rfl
  have htake : (packedFile.free wideSb).take 4 = [70, 8192, 16531, 16532] := by
    rw [hfree]
    rfl
  have hbitmaps : (bitmaps wideSb packedFile 4).card = 3 := by
    rw [bitmaps, htake]
    decide
  have htouched : (touched [.inn 62 255, .out 63, .inn 63 0, .inn 63 1]
      ((span packedSize (3*bsize)).map leafSlot)).card = 7 := by
    decide
  rw [hfs, hws, packedFile_inode, hfilled, hreached, packed_missing, logSize, htouched] at hcard
  have heleven := hcard.trans (congrArg (7 + · + 1) hbitmaps)
  refine ⟨wideSb_layout, le_rfl, packedFile_forest, by decide, packedFile_inode, by decide,
    by decide, heleven, ?_⟩
  rw [heleven]
  decide

end

end Xv6Labs.Fs
