import Xv6Labs.Fs.Refine

/-! Where a write that the full disk cuts short stops: at the start of a block past the last one
of the file. -/
namespace Xv6Labs.Fs
open Kit Bytes

variable {sb : Superblock} {v v' : Vol} {din : Nat → Dinode} {inum : Nat} {d d' : Dinode}

/-- The loop stops early at a block that `bmap` could not give, and there only after whole
blocks. -/
theorem writeLoop_stop (hL : sb.Layout) (hi : inum < sb.ninodes) {src : Buf} {n : Nat}
    (hn : n < 2^32) (fuel : Nat) {off tot off' tot' : Nat}
    (hF : Forest sb v (Function.update din inum d)) (ht : d.type ≠ 0) (htot : tot ≤ n)
    (hfuel : n - tot ≤ fuel) (hend : off + (n - tot) ≤ maxfile*bsize)
    (heq : writeLoop sb src kernelSrc n fuel v d off tot = .ok (tot', off', d', v'))
    (hlt' : tot' < n) :
    lookup v' d' (off'/bsize) = 0 ∧ off' + tot = off + tot' ∧ (tot' = tot ∨ off' % bsize = 0) := by
  induction fuel generalizing v d off tot with
  | zero =>
    cases heq
    omega
  | succ fuel ih =>
    unfold writeLoop at heq
    by_cases hlt : tot < n
    · have hoff : off < maxfile*bsize := by omega
      obtain ⟨addr, d1, v1, hbm, hg, haddr, -, -⟩ := bmap_spec hL hF hi ht (block_lt hoff)
      have hw1 := hg.wrote hi ht
      have ht1 : d1.type ≠ 0 := by rw [hg.fields.1]; exact ht
      rw [if_pos hlt, hbm] at heq
      simp only [kernelSrc] at heq
      by_cases ha : addr = 0
      · rw [if_pos ha] at heq
        cases heq
        exact ⟨haddr ▸ ha, rfl, .inl rfl⟩
      · rw [if_neg ha] at heq
        have h0 : lookup v1 d1 (off/bsize) ≠ 0 := haddr ▸ ha
        have hblock := chunk_block off n tot
        have hpos := chunk_pos off hlt
        have hle := chunk_le off n tot
        have hdisk : ((v1.copyin addr (off%bsize) (chunk off n tot) src tot).logWrite addr).disk =
            (v1.copyin (lookup v1 d1 (off/bsize)) (off%bsize) (chunk off n tot) src tot).disk := by
          rw [haddr]; rfl
        obtain ⟨hw2, -, -⟩ := wrote_chunk hL hw1.forest hi ht1 hoff hblock h0 hdisk
        have hsmall : maxfile*bsize < 2^32 := by decide
        rw [u32_of_lt (by omega), u32_of_lt (by omega)] at heq
        obtain ⟨hl, hsum, hor⟩ := ih hw2.forest ht1 (by omega) (by omega) (by omega) heq
        refine ⟨hl, by omega, .inr ?_⟩
        cases hor with
        | inl hone =>
          -- the turn before was not the last, so it went to the end of its block
          have hwhole : chunk off n tot = bsize - off%bsize := by
            unfold chunk at *
            omega
          simp only [bsize] at *
          omega
        | inr hal => exact hal
    · rw [if_neg hlt] at heq
      cases heq
      omega

/-- The fields of the inode that a write leaves alone, and where it stops if it is cut short. -/
theorem writei_short (hL : sb.Layout) (h : VolOk sb v) (hi : inum < sb.ninodes)
    (ht : (v.dinode sb inum).type ≠ 0) {src : Buf} {off n k : Nat}
    (hoff : off ≤ (v.dinode sb inum).size.toNat) (hend : off+n ≤ maxfile*bsize)
    (heq : writei sb v inum (v.dinode sb inum) src kernelSrc off n = .ok ((k : Int), d', v')) :
    (d'.type = (v.dinode sb inum).type ∧ d'.major = (v.dinode sb inum).major ∧
      d'.minor = (v.dinode sb inum).minor ∧ d'.nlink = (v.dinode sb inum).nlink) ∧
    (k < n → ∃ b, off + k = b*bsize ∧ (v.dinode sb inum).size.toNat ≤ b*bsize) := by
  have hsmall : maxfile*bsize < 2^32 := by decide
  obtain ⟨k₁, d₁, w, hloop, hk, hw, -⟩ := @writeLoop_spec sb v (v.dinode sb) inum
    (v.dinode sb inum) hL hi src kernelSrc n (by omega) n off 0 h.forest_update ht
    (Nat.zero_le n) (Nat.le_refl _) hend
  obtain ⟨f1, f2, f3, f4, -⟩ := hw.fields
  unfold writei at heq
  rw [u32_of_lt (by omega), if_neg (by omega), if_neg (by omega), hloop] at heq
  have hres : ∃ d₂ : Dinode, (d₂ = d₁ ∨ ∃ sz, d₂ = { d₁ with size := sz }) ∧ d' = d₂ ∧ k = k₁ := by
    simp only [bind, Except.bind, pure, Except.pure, Nat.zero_add] at heq
    split at heq
    · cases heq
      exact ⟨_, .inr ⟨_, rfl⟩, rfl, rfl⟩
    · cases heq
      exact ⟨_, .inl rfl, rfl, rfl⟩
  obtain ⟨d₂, hd₂, rfl, rfl⟩ := hres
  refine ⟨?_, ?_⟩
  · cases hd₂ with
    | inl hd => rw [hd]; exact ⟨f1, f2, f3, f4⟩
    | inr hd =>
      obtain ⟨sz, rfl⟩ := hd
      exact ⟨f1, f2, f3, f4⟩
  · intro hkn
    obtain ⟨hl, -, hal⟩ := writeLoop_stop hL hi (by omega) n h.forest_update ht (Nat.zero_le n)
      (Nat.le_refl _) hend hloop (by omega)
    have hzero : lookup v (v.dinode sb inum) ((off+k)/bsize) = 0 := by
      by_contra h0
      rw [hw.keep _ (block_lt (by omega)) h0] at hl
      exact h0 hl
    have hpast : ¬ (off+k)/bsize*bsize < (v.dinode sb inum).size.toNat := fun hlt =>
      (h.files inum hi ht).noHoles _ hlt hzero
    refine ⟨(off+k)/bsize, ?_, by omega⟩
    simp only [bsize] at *
    omega

end Xv6Labs.Fs
