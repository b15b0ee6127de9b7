import Xv6Labs.Fs.Itrunc

/-! File contents: what `readi` and `writei` do to the bytes of one inode and to all others. -/
namespace Xv6Labs.Fs
open Kit Bytes

variable {sb : Superblock} {v v' v'' : Vol} {din : Nat → Dinode} {inum : Nat}
  {d d' d'' : Dinode} {P Q : Nat → Prop}

/-- The byte of the file at the offset `o`. -/
def byteAt (v : Vol) (d : Dinode) (o : Nat) : UInt8 := v.disk (lookup v d (o/bsize)) (o%bsize)

/-- Every block below the size is there, and the size is one that the block map can reach. -/
structure FileOk (v : Vol) (d : Dinode) : Prop where
  size : d.size.toNat ≤ maxfile*bsize
  noHoles : ∀ bn, bn*bsize < d.size.toNat → lookup v d bn ≠ 0

/-- From the copy `d` of inode `inum` on `v` to `d'` on `v'`, the mapped blocks stay where they
are, bytes of the file change only at offsets in `P`, and the other files keep theirs. -/
structure Wrote (sb : Superblock) (din : Nat → Dinode) (inum : Nat) (P : Nat → Prop)
    (v : Vol) (d : Dinode) (v' : Vol) (d' : Dinode) : Prop where
  forest : Forest sb v' (Function.update din inum d')
  fields : d'.type = d.type ∧ d'.major = d.major ∧ d'.minor = d.minor ∧ d'.nlink = d.nlink ∧
    d'.size = d.size
  low : ∀ c < sb.bmapstart, v'.disk c = v.disk c
  keep : ∀ bn < maxfile, lookup v d bn ≠ 0 → lookup v' d' bn = lookup v d bn
  bytes : ∀ o < maxfile*bsize, lookup v d (o/bsize) ≠ 0 → ¬ P o → byteAt v' d' o = byteAt v d o
  others : ∀ i ≠ inum, i < sb.ninodes → (din i).type ≠ 0 → ∀ bn < maxfile,
    lookup v' (din i) bn = lookup v (din i) bn ∧
    (lookup v (din i) bn ≠ 0 → v'.disk (lookup v (din i) bn) = v.disk (lookup v (din i) bn))

theorem block_lt {o : Nat} (ho : o < maxfile*bsize) : o/bsize < maxfile :=
  Nat.div_lt_of_lt_mul (by rw [Nat.mul_comm]; exact ho)

namespace Wrote

theorem mono (h : Wrote sb din inum P v d v' d') (hPQ : ∀ o, P o → Q o) :
    Wrote sb din inum Q v d v' d' :=
  { h with bytes := fun o ho h0 hQ => h.bytes o ho h0 fun hP => hQ (hPQ o hP) }

theorem trans (h : Wrote sb din inum P v d v' d') (h' : Wrote sb din inum P v' d' v'' d'') :
    Wrote sb din inum P v d v'' d'' := by
  obtain ⟨f1, f2, f3, f4, f5⟩ := h.fields
  obtain ⟨g1, g2, g3, g4, g5⟩ := h'.fields
  refine ⟨h'.forest, ⟨g1.trans f1, g2.trans f2, g3.trans f3, g4.trans f4, g5.trans f5⟩,
    fun c hc => (h'.low c hc).trans (h.low c hc), ?_, ?_, ?_⟩
  · intro bn hbn h0
    have hk := h.keep bn hbn h0
    exact (h'.keep bn hbn (hk ▸ h0)).trans hk
  · intro o ho h0 hP
    have hbn : o/bsize < maxfile := block_lt ho
    have hk := h.keep _ hbn h0
    exact (h'.bytes o ho (hk ▸ h0) hP).trans (h.bytes o ho h0 hP)
  · intro i hi hlt ht bn hbn
    obtain ⟨hl, hd⟩ := h.others i hi hlt ht bn hbn
    obtain ⟨hl', hd'⟩ := h'.others i hi hlt ht bn hbn
    refine ⟨hl'.trans hl, fun h0 => ?_⟩
    rw [hl] at hd'
    exact (hd' h0).trans (hd h0)

end Wrote

/-- What `bmap` adds leaves all contents alone. -/
theorem Grows.wrote {bn : Nat} (h : Grows sb din inum (onWay bn) v d v' d')
    (hi : inum < sb.ninodes) (ht : d.type ≠ 0) : Wrote sb din inum (fun _ => False) v d v' d' := by
  have hself : ∀ bn' < maxfile, Place.Exists sb (Function.update din inum d) (inum, leafSlot bn') :=
    fun bn' hbn' => exists_update hi ht (leafSlot_inRange hbn')
  have hval : ∀ bn', valAt v (Function.update din inum d) (inum, leafSlot bn') = lookup v d bn' :=
    fun _ => valAt_update
  have hval' : ∀ bn', valAt v' (Function.update din inum d') (inum, leafSlot bn') =
      lookup v' d' bn' := fun _ => valAt_update
  have hkeep : ∀ bn' < maxfile, lookup v d bn' ≠ 0 → lookup v' d' bn' = lookup v d bn' := by
    intro bn' hbn' h0
    rw [← hval, ← hval']
    exact h.keep _ (hself bn' hbn') (by rw [hval]; exact h0)
  refine ⟨h.forest, h.fields, h.low, hkeep, ?_, ?_⟩
  · intro o ho h0 _
    have hbn : o/bsize < maxfile := block_lt ho
    have hleaf := h.leaf _ (hself _ hbn) (leafSlot_isLeaf _) (by rw [hval]; exact h0)
    rw [hval] at hleaf
    unfold byteAt
    rw [hkeep _ hbn h0, hleaf]
  · intro i hne hlt ht' bn' hbn'
    have hex : Place.Exists sb (Function.update din inum d) (i, leafSlot bn') :=
      ⟨hlt, by simpa [hne] using ht', leafSlot_inRange hbn'⟩
    have hv : valAt v (Function.update din inum d) (i, leafSlot bn') = lookup v (din i) bn' := by
      simp [valAt, lookup, hne]
    have hv' : valAt v' (Function.update din inum d') (i, leafSlot bn') = lookup v' (din i) bn' := by
      simp [valAt, lookup, hne]
    refine ⟨?_, ?_⟩
    · rw [← hv, ← hv']
      exact h.same _ hex (.inl hne)
    · intro h0
      have hleaf := h.leaf _ hex (leafSlot_isLeaf _) (by rw [hv]; exact h0)
      rwa [hv] at hleaf

/-- New contents for the data block of index `bn`. -/
theorem wrote_leaf (hL : sb.Layout) (hF : Forest sb v (Function.update din inum d))
    (hi : inum < sb.ninodes) (ht : d.type ≠ 0) {bn : Nat} (hbn : bn < maxfile)
    (h0 : lookup v d bn ≠ 0) (hdisk : ∀ c, c ≠ lookup v d bn → v'.disk c = v.disk c)
    (hP : ∀ k < bsize, ¬ P (bn*bsize + k) → v'.disk (lookup v d bn) k = v.disk (lookup v d bn) k) :
    Wrote sb din inum P v d v' d ∧ lookup v' d bn = lookup v d bn := by
  have hself : (inum, leafSlot bn) ∈ held sb v (Function.update din inum d) :=
    held_update hi ht (leafSlot_inRange hbn) h0
  have hval : valAt v (Function.update din inum d) (inum, leafSlot bn) = lookup v d bn :=
    valAt_update
  have hdata : sb.IsData (lookup v d bn) := hval ▸ hF.isData hself
  have hne : ∀ x ∈ held sb v (Function.update din inum d), x ≠ (inum, leafSlot bn) →
      valAt v (Function.update din inum d) x ≠ lookup v d bn := by
    intro x hx hxe heq
    exact hxe (hF.inj hx hself (heq.trans hval.symm))
  obtain ⟨hsame, -, hforest⟩ := hF.writeLeaf hL hself (leafSlot_isLeaf bn)
    (fun c hc => hdisk c (hval ▸ hc))
  have hlook : ∀ bn' < maxfile, lookup v' d bn' = lookup v d bn' := by
    intro bn' hbn'
    have heq := hsame (inum, leafSlot bn') (exists_update hi ht (leafSlot_inRange hbn'))
    rwa [valAt_update, valAt_update] at heq
  refine ⟨⟨hforest, ⟨rfl, rfl, rfl, rfl, rfl⟩, ?_, fun bn' hbn' _ => hlook bn' hbn', ?_, ?_⟩,
    hlook bn hbn⟩
  · intro c hc
    refine hdisk c ?_
    exact low_ne_data hL hc hdata
  · intro o ho h0' hPo
    have hob : o/bsize < maxfile := block_lt ho
    unfold byteAt
    rw [hlook _ hob]
    by_cases heq : o/bsize = bn
    · rw [heq]
      apply hP _ (Nat.mod_lt _ (by decide))
      rw [← heq, Nat.mul_comm, Nat.div_add_mod]
      exact hPo
    · rw [hdisk]
      have hx : (inum, leafSlot (o/bsize)) ∈ held sb v (Function.update din inum d) :=
        held_update hi ht (leafSlot_inRange hob) h0'
      have hother := hne _ hx (fun he => heq (leafSlot_inj (Prod.mk.inj he).2))
      rwa [valAt_update] at hother
  · intro i hie hlt ht' bn' hbn'
    have hex : Place.Exists sb (Function.update din inum d) (i, leafSlot bn') :=
      ⟨hlt, by simpa [hie] using ht', leafSlot_inRange hbn'⟩
    have hv := hsame _ hex
    refine ⟨by simpa [valAt, lookup, hie] using hv, fun h0' => hdisk _ ?_⟩
    have hx : (i, leafSlot bn') ∈ held sb v (Function.update din inum d) :=
      ⟨hex, by simpa [valAt, lookup, hie] using h0'⟩
    have := hne _ hx (fun he => hie (Prod.mk.inj he).1)
    simpa [valAt, lookup, hie] using this

/-! The loops. -/

theorem chunk_pos (off : Nat) {n tot : Nat} (h : tot < n) : 0 < chunk off n tot := by
  have hmod : off%bsize < bsize := Nat.mod_lt _ (by decide)
  unfold chunk
  omega

theorem chunk_le (off n tot : Nat) : chunk off n tot ≤ n - tot := Nat.min_le_left _ _

theorem chunk_block (off n tot : Nat) : off%bsize + chunk off n tot ≤ bsize := by
  have hmod : off%bsize < bsize := Nat.mod_lt _ (by decide)
  unfold chunk
  omega

/-- Bytes of one block: the offsets `off .. off+m` lie in the block of `off`. -/
theorem same_block {off m o : Nat} (hm : off%bsize + m ≤ bsize) (h0 : off ≤ o) (h1 : o < off+m) :
    o/bsize = off/bsize ∧ o%bsize = off%bsize + (o - off) := by
  simp only [bsize] at *
  omega

theorem disk_copyin_ne {a o m tot c : Nat} {src : Buf} (h : c ≠ a) :
    (v.copyin a o m src tot).disk c = v.disk c := by
  simp [Vol.copyin, h]

theorem disk_copyin_self {a o m tot : Nat} {src : Buf} :
    (v.copyin a o m src tot).disk a = blit (v.disk a) o m fun i => src (tot+i) := by
  simp [Vol.copyin]

/-- One chunk of `writei`, copied in whole or in part. -/
theorem wrote_chunk (hL : sb.Layout) (hF : Forest sb v (Function.update din inum d))
    (hi : inum < sb.ninodes) (ht : d.type ≠ 0) {off m tot : Nat} {src : Buf}
    (hoff : off < maxfile*bsize) (hm : off%bsize + m ≤ bsize) (h0 : lookup v d (off/bsize) ≠ 0)
    (hdisk : v'.disk = (v.copyin (lookup v d (off/bsize)) (off%bsize) m src tot).disk) :
    Wrote sb din inum (fun o => off ≤ o ∧ o < off+m) v d v' d ∧
      lookup v' d (off/bsize) = lookup v d (off/bsize) ∧
      ∀ o, off ≤ o → o < off+m → byteAt v' d o = src (tot + (o - off)) := by
  have hbn : off/bsize < maxfile := block_lt hoff
  have hsplit : off/bsize*bsize + off%bsize = off := by
    rw [Nat.mul_comm]; exact Nat.div_add_mod off bsize
  have hw : Wrote sb din inum (fun o => off ≤ o ∧ o < off+m) v d v' d ∧
      lookup v' d (off/bsize) = lookup v d (off/bsize) := by
    apply wrote_leaf hL hF hi ht hbn h0
    · intro c hc
      rw [hdisk, disk_copyin_ne hc]
    · intro k hk hP
      rw [hdisk, disk_copyin_self, blit_of_ne]
      omega
  refine ⟨hw.1, hw.2, ?_⟩
  intro o ho ho'
  obtain ⟨hdiv, hmod⟩ := same_block hm ho ho'
  unfold byteAt
  rw [hdiv, hw.2, hdisk, disk_copyin_self, blit_of_mem (by omega) (by omega), hmod]
  congr 2
  omega

/-- The bytes of a turn, and those of the turns after it, which leave them alone. -/
theorem bytes_of_turns {src : Buf} {off m k tot : Nat} (hPQ : ∀ o, P o → off+m ≤ o)
    (hw : Wrote sb din inum P v d v' d') (hend : off+m ≤ maxfile*bsize)
    (hthis : ∀ o, off ≤ o → o < off+m →
      lookup v d (o/bsize) ≠ 0 ∧ byteAt v d o = src (tot + (o - off)))
    (hlater : ∀ o, off+m ≤ o → o < off+m+k →
      lookup v' d' (o/bsize) ≠ 0 ∧ byteAt v' d' o = src (tot+m + (o - (off+m)))) :
    ∀ o, off ≤ o → o < off+(m+k) →
      lookup v' d' (o/bsize) ≠ 0 ∧ byteAt v' d' o = src (tot + (o - off)) := by
  intro o ho ho'
  by_cases hom : o < off+m
  · obtain ⟨hl, hb⟩ := hthis o ho hom
    have hob : o < maxfile*bsize := by omega
    have hout : ¬ P o := fun hP => absurd (hPQ o hP) (by omega)
    exact ⟨by rw [hw.keep _ (block_lt hob) hl]; exact hl, by rw [hw.bytes o hob hl hout, hb]⟩
  · obtain ⟨hl, hb⟩ := hlater o (by omega) (by omega)
    refine ⟨hl, ?_⟩
    rw [hb]
    congr 1
    omega

/-- The loop of `writei` from any of its turns: it ends with `tot'` bytes done, all bytes from
`off` to its end are those of the source, and it stops early only on a full disk or a failed
copy. -/
theorem writeLoop_spec (hL : sb.Layout) (hi : inum < sb.ninodes) {src : Buf}
    {fault : Nat → Nat → Option Nat} {n : Nat} (hn : n < 2^32) (fuel : Nat) {off tot : Nat}
    (hF : Forest sb v (Function.update din inum d)) (ht : d.type ≠ 0) (htot : tot ≤ n)
    (hfuel : n - tot ≤ fuel) (hend : off + (n - tot) ≤ maxfile*bsize) :
    ∃ k d' v', writeLoop sb src fault n fuel v d off tot = .ok (tot+k, off+k, d', v') ∧
      tot+k ≤ n ∧
      Wrote sb din inum (fun o => off ≤ o ∧ (o < off+k ∨ ∃ t m, (fault t m).isSome)) v d v' d' ∧
      (∀ o, off ≤ o → o < off+k →
        lookup v' d' (o/bsize) ≠ 0 ∧ byteAt v' d' o = src (tot + (o - off))) ∧
      (tot+k < n → v'.Full sb ∨ ∃ t m, (fault t m).isSome) := by
  induction fuel generalizing v d off tot with
  | zero =>
    refine ⟨0, d, v, rfl, by omega, (Grows.refl (X := onWay 0) hF).wrote hi ht |>.mono (by simp),
      by omega, by omega⟩
  | succ fuel ih =>
    unfold writeLoop
    by_cases hlt : tot < n
    · have hoff : off < maxfile*bsize := by omega
      have hbn : off/bsize < maxfile := block_lt hoff
      obtain ⟨addr, d1, v1, heq, hg, haddr, hfull, -⟩ := bmap_spec hL hF hi ht hbn
      have hw1 := hg.wrote hi ht
      have ht1 : d1.type ≠ 0 := by rw [hg.fields.1]; exact ht
      rw [if_pos hlt, heq]
      simp only
      by_cases ha : addr = 0
      · rw [if_pos ha]
        refine ⟨0, d1, v1, rfl, by omega, hw1.mono (by simp), by omega, fun _ => .inl (hfull ha)⟩
      · rw [if_neg ha]
        have h0 : lookup v1 d1 (off/bsize) ≠ 0 := haddr ▸ ha
        have hblock := chunk_block off n tot
        have hpos := chunk_pos off hlt
        have hle := chunk_le off n tot
        generalize chunk off n tot = m at hblock hpos hle
        cases hfault : fault tot m with
        | some k =>
          have hsome : ∃ t m, (fault t m).isSome := ⟨tot, m, by rw [hfault]; rfl⟩
          have hdisk : (v1.copyin addr (off%bsize) (min k m) src tot).disk =
              (v1.copyin (lookup v1 d1 (off/bsize)) (off%bsize) (min k m) src tot).disk := by
            rw [haddr]
          obtain ⟨hw2, -, -⟩ := wrote_chunk hL hw1.forest hi ht1 hoff (by omega) h0 hdisk
          refine ⟨0, d1, _, rfl, by omega, (hw1.mono (by simp)).trans (hw2.mono ?_), by omega,
            fun _ => .inr hsome⟩
          intro o ho
          exact ⟨ho.1, .inr hsome⟩
        | none =>
          simp only
          have hdisk : ((v1.copyin addr (off%bsize) m src tot).logWrite addr).disk =
              (v1.copyin (lookup v1 d1 (off/bsize)) (off%bsize) m src tot).disk := by
            rw [haddr]; rfl
          obtain ⟨hw2, hl2, hb2⟩ := wrote_chunk hL hw1.forest hi ht1 hoff hblock h0 hdisk
          generalize (v1.copyin addr (off%bsize) m src tot).logWrite addr = v2 at hw2 hl2 hb2
          have hsmall : maxfile*bsize < 2^32 := by decide
          rw [u32_of_lt (show off+m < 2^32 by omega), u32_of_lt (show tot+m < 2^32 by omega)]
          obtain ⟨k, d', v', heq', hk, hw3, hb3, hshort⟩ := ih hw2.forest ht1
            (show tot+m ≤ n by omega) (by omega)
            (show off+m + (n - (tot+m)) ≤ maxfile*bsize by omega)
          have hthis : ∀ o, off ≤ o → o < off+m →
              lookup v2 d1 (o/bsize) ≠ 0 ∧ byteAt v2 d1 o = src (tot + (o - off)) := by
            intro o ho hom
            refine ⟨?_, hb2 o ho hom⟩
            rw [(same_block hblock ho hom).1, hl2]
            exact h0
          refine ⟨m+k, d', v', ?_, by omega, ?_, ?_, ?_⟩
          · rw [heq', Nat.add_assoc, Nat.add_assoc]
          · refine ((hw1.mono (by simp)).trans (hw2.mono ?_)).trans (hw3.mono ?_)
            · intro o ho
              exact ⟨ho.1, .inl (by omega)⟩
            · intro o ho
              exact ⟨by omega, ho.2.imp (fun h => by omega) id⟩
          · exact bytes_of_turns (fun o ho => ho.1) hw3 (by omega) hthis hb3
          · intro hkn
            exact hshort (by omega)
    · rw [if_neg hlt]
      refine ⟨0, d, v, rfl, by omega, (Grows.refl (X := onWay 0) hF).wrote hi ht |>.mono (by simp),
        by omega, by omega⟩

/-- The loop of `readi` over mapped blocks changes nothing, and delivers the bytes of the file
unless a copy fails. -/
theorem readLoop_spec (hL : sb.Layout) (hi : inum < sb.ninodes) {fault : Nat → Nat → Bool} {n : Nat}
    (hn : n < 2^32) (hF : Forest sb v (Function.update din inum d)) (ht : d.type ≠ 0) (fuel : Nat)
    {off tot : Nat} {out : List UInt8} (htot : tot ≤ n) (hfuel : n - tot ≤ fuel)
    (hend : off + (n - tot) ≤ maxfile*bsize)
    (hmap : ∀ o, off ≤ o → o < off + (n - tot) → lookup v d (o/bsize) ≠ 0) :
    ∃ r out', readLoop sb fault n fuel v d off tot out = .ok (r, out', d, v) ∧
      ((∀ t m, fault t m = false) → r = n ∧
        out' = out ++ (List.range (n - tot)).map fun k => byteAt v d (off+k)) := by
  have hdone : ∀ out : List UInt8, n - tot = 0 → (tot : Int) = n ∧
      out = out ++ (List.range (n - tot)).map fun k => byteAt v d (off+k) := by
    intro out h0
    rw [h0]
    exact ⟨by omega, by simp⟩
  induction fuel generalizing off tot out with
  | zero => exact ⟨tot, out, rfl, fun _ => hdone out (by omega)⟩
  | succ fuel ih =>
    unfold readLoop
    by_cases hlt : tot < n
    · have hoff : off < maxfile*bsize := by omega
      have hbn : off/bsize < maxfile := block_lt hoff
      have h0 : lookup v d (off/bsize) ≠ 0 := hmap off (Nat.le_refl _) (by omega)
      obtain ⟨addr, d1, v1, heq, -, haddr, -, hid⟩ := bmap_spec hL hF hi ht hbn
      obtain ⟨rfl, rfl⟩ := hid h0
      rw [if_pos hlt, heq]
      simp only
      rw [if_neg (haddr ▸ h0)]
      have hblock := chunk_block off n tot
      have hpos := chunk_pos off hlt
      have hle := chunk_le off n tot
      generalize chunk off n tot = m at hblock hpos hle
      by_cases hf : fault tot m
      · rw [if_pos hf]
        exact ⟨-1, out, rfl, fun hno => by rw [hno] at hf; cases hf⟩
      · rw [if_neg hf]
        have hsmall : maxfile*bsize < 2^32 := by decide
        rw [u32_of_lt (show off+m < 2^32 by omega), u32_of_lt (show tot+m < 2^32 by omega)]
        obtain ⟨r, out', heq', hres⟩ := ih (show tot+m ≤ n by omega) (by omega)
          (show off+m + (n - (tot+m)) ≤ maxfile*bsize by omega)
          (fun o ho ho' => hmap o (by omega) (by omega))
          (by intro out h0; rw [h0]; exact ⟨by omega, by simp⟩)
        refine ⟨r, out', heq', fun hno => ?_⟩
        obtain ⟨hr, hout⟩ := hres hno
        refine ⟨hr, ?_⟩
        have hsplit : n - tot = m + (n - (tot+m)) := by omega
        rw [hout, hsplit, List.range_add, List.map_append, List.map_map, List.append_assoc]
        congr 2
        · apply List.map_congr_left
          intro k hk
          have hkm := List.mem_range.mp hk
          obtain ⟨hdiv, hmod⟩ := same_block hblock (show off ≤ off+k by omega) (by omega)
          unfold byteAt
          rw [hdiv, hmod, haddr]
          congr 1
          omega
        · apply List.map_congr_left
          intro k _
          simp only [Function.comp_apply]
          congr 1
          omega
    · rw [if_neg hlt]
      exact ⟨tot, out, rfl, fun _ => hdone out (by omega)⟩

/-! `readi` and `writei`. -/

/-- The bytes of a file. -/
def content (v : Vol) (d : Dinode) : List UInt8 := (List.range d.size.toNat).map (byteAt v d)

theorem slice_content (off n : Nat) : ((content v d).drop off).take n =
    (List.range (min n (d.size.toNat - off))).map fun k => byteAt v d (off+k) := by
  apply List.ext_getElem
  · simp [content]
  · intro k h1 h2
    simp [content]

theorem wraps_iff {off n : Nat} (hoff : off < 2^32) (hn : n < 2^32) :
    u32 (off+n) < off ↔ 2^32 ≤ off+n := by
  unfold u32
  omega

theorem readi_spec (hL : sb.Layout) (hi : inum < sb.ninodes)
    (hF : Forest sb v (Function.update din inum d)) (ht : d.type ≠ 0) (hok : FileOk v d)
    {fault : Nat → Nat → Bool} {off n : Nat} (hoff : off < 2^32) (hn : n < 2^32) :
    ∃ r out, readi sb v d fault off n = .ok (r, out, d, v) ∧
      ((∀ t m, fault t m = false) →
        out = (if off ≤ d.size.toNat ∧ off+n < 2^32 then ((content v d).drop off).take n else []) ∧
        r = out.length) := by
  unfold readi
  by_cases hguard : off > d.size.toNat ∨ u32 (off+n) < off
  · rw [if_pos hguard]
    refine ⟨0, [], rfl, fun _ => ?_⟩
    rw [wraps_iff hoff hn] at hguard
    rw [if_neg (by omega)]
    exact ⟨rfl, rfl⟩
  · rw [if_neg hguard]
    rw [wraps_iff hoff hn] at hguard
    have hle : off ≤ d.size.toNat := by omega
    have hnw : off+n < 2^32 := by omega
    rw [u32_of_lt hnw]
    simp only
    generalize hlen : (if off+n > d.size.toNat then d.size.toNat - off else n) = len
    have hlen' : len = min n (d.size.toNat - off) := by
      rw [← hlen]
      split <;> omega
    have hsize := hok.size
    have hmap : ∀ o, off ≤ o → o < off + (len - 0) → lookup v d (o/bsize) ≠ 0 := by
      intro o ho ho'
      have hdiv := Nat.div_mul_le_self o bsize
      exact hok.noHoles _ (by omega)
    obtain ⟨r, out, heq, hres⟩ := readLoop_spec hL hi (show len < 2^32 by omega) hF ht len
      (Nat.zero_le _) (by omega) (by omega) hmap
    refine ⟨r, out, heq, fun hno => ?_⟩
    obtain ⟨hr, hout⟩ := hres hno
    have hbytes : out = ((content v d).drop off).take n := by
      rw [hout, List.nil_append, Nat.sub_zero, hlen', slice_content]
    rw [if_pos ⟨hle, hnw⟩]
    refine ⟨hbytes, ?_⟩
    rw [hr, hout]
    simp

def Dinode.resize (d : Dinode) (s : Nat) : Dinode := { d with size := UInt32.ofNat s }

@[simp] theorem lookup_resize (s bn : Nat) : lookup v (d.resize s) bn = lookup v d bn := rfl

@[simp] theorem byteAt_resize (s o : Nat) : byteAt v (d.resize s) o = byteAt v d o := rfl

theorem resize_self (d : Dinode) : d.resize d.size.toNat = d := by
  simp [Dinode.resize]

theorem writei_reject {src : Buf} {fault : Nat → Nat → Option Nat} {off n : Nat}
    (hoff : off < 2^32) (hn : n < 2^32)
    (h : d.size.toNat < off ∨ 2^32 ≤ off+n ∨ maxfile*bsize < off+n) :
    writei sb v inum d src fault off n = .ok (-1, d, v) := by
  unfold writei
  by_cases hguard : off > d.size.toNat ∨ u32 (off+n) < off
  · rw [if_pos hguard]
  · rw [if_neg hguard, if_pos]
    rw [wraps_iff hoff hn] at hguard
    rw [u32_of_lt (by omega)]
    omega

theorem writei_spec (hL : sb.Layout) (hi : inum < sb.ninodes)
    (hF : Forest sb v (Function.update din inum d)) (ht : d.type ≠ 0)
    {src : Buf} {fault : Nat → Nat → Option Nat} {off n : Nat} (hoff : off ≤ d.size.toNat)
    (hend : off+n ≤ maxfile*bsize) :
    ∃ (k : Nat) (d1 : Dinode) (w : Vol), writei sb v inum d src fault off n = .ok ((k : Int),
        d1.resize (max d.size.toNat (off+k)),
        iupdate sb w inum (d1.resize (max d.size.toNat (off+k)))) ∧ k ≤ n ∧
      Wrote sb din inum (fun o => off ≤ o ∧ (o < off+k ∨ ∃ t m, (fault t m).isSome)) v d w d1 ∧
      (∀ o, off ≤ o → o < off+k → lookup w d1 (o/bsize) ≠ 0 ∧ byteAt w d1 o = src (o - off)) ∧
      (k < n → w.Full sb ∨ ∃ t m, (fault t m).isSome) := by
  have hsmall : maxfile*bsize < 2^32 := by decide
  have hloop := @writeLoop_spec sb v din inum d hL hi src fault n (by omega) n off 0 hF ht
    (Nat.zero_le n) (Nat.le_refl _) hend
  obtain ⟨k, d1, w, heq, hk, hw, hb, hshort⟩ := hloop
  have hsize : d1.size = d.size := hw.fields.2.2.2.2
  refine ⟨k, d1, w, ?_, by omega, hw, ?_, fun hkn => hshort (by omega)⟩
  · have hnew : (if off+k > d1.size.toNat then { d1 with size := UInt32.ofNat (off+k) } else d1) =
        d1.resize (max d.size.toNat (off+k)) := by
      rw [hsize]
      split
      · rw [Nat.max_eq_right (by omega)]; rfl
      · rw [Nat.max_eq_left (by omega), ← hsize, resize_self]
    unfold writei
    rw [u32_of_lt (by omega), if_neg (by omega), if_neg (by omega), heq]
    simp only [bind, Except.bind, pure, Except.pure, Nat.zero_add, hnew]
  · intro o ho ho'
    have := hb o ho ho'
    rwa [Nat.zero_add] at this

theorem size_resize {s : Nat} (hs : s < 2^32) : (d.resize s).size.toNat = s := by
  simp only [Dinode.resize]
  exact UInt32.toNat_ofNat_of_lt' hs

/-- Files stay without holes. -/
theorem Wrote.fileOk {off k : Nat} (h : Wrote sb din inum P v d v' d') (hok : FileOk v d)
    (hoff : off ≤ d.size.toNat) (hend : off+k ≤ maxfile*bsize)
    (hb : ∀ o, off ≤ o → o < off+k → lookup v' d' (o/bsize) ≠ 0) :
    FileOk v' (d'.resize (max d.size.toNat (off+k))) := by
  have hsmall : maxfile*bsize < 2^32 := by decide
  have hsize := hok.size
  have hs := size_resize (d := d') (s := max d.size.toNat (off+k)) (by omega)
  refine ⟨by rw [hs]; omega, ?_⟩
  intro bn hbn
  rw [hs] at hbn
  rw [lookup_resize]
  by_cases hlt : bn*bsize < d.size.toNat
  · have hbm : bn < maxfile := by
      simp only [maxfile, bsize] at hlt hsize ⊢
      omega
    rw [h.keep bn hbm (hok.noHoles bn hlt)]
    exact hok.noHoles bn hlt
  · have hge : off ≤ bn*bsize := le_trans hoff (Nat.le_of_not_lt hlt)
    have hlt' : bn*bsize < off+k := (lt_max_iff.mp hbn).resolve_left hlt
    have := hb (bn*bsize) hge hlt'
    rwa [Nat.mul_div_cancel _ (by decide)] at this

/-- The array operation behind `writei`. -/
def overwrite (l : List UInt8) (off : Nat) (bs : List UInt8) : List UInt8 :=
  l.take off ++ bs ++ l.drop (off + bs.length)

theorem content_length : (content v d).length = d.size.toNat := by simp [content]

/-- The bytes written are an array update. -/
theorem Wrote.content {off k : Nat} {src : Buf}
    (h : Wrote sb din inum (fun o => off ≤ o ∧ o < off+k) v d v' d') (hok : FileOk v d)
    (hoff : off ≤ d.size.toNat) (hend : off+k ≤ maxfile*bsize)
    (hb : ∀ o, off ≤ o → o < off+k → byteAt v' d' o = src (o - off)) :
    content v' (d'.resize (max d.size.toNat (off+k))) =
      overwrite (content v d) off ((List.range k).map src) := by
  have hsmall : maxfile*bsize < 2^32 := by decide
  have hsize := hok.size
  have hs := size_resize (d := d') (s := max d.size.toNat (off+k)) (by omega)
  have hsame : ∀ o < d.size.toNat, o < off ∨ off+k ≤ o → byteAt v' d' o = byteAt v d o := by
    intro o ho hor
    refine h.bytes o (by omega) (hok.noHoles _ ?_) (by omega)
    exact lt_of_le_of_lt (Nat.div_mul_le_self o bsize) ho
  apply List.ext_getElem
  · rw [content_length, hs]
    simp [overwrite, content_length]
    omega
  · intro o h1 h2
    rw [content_length, hs] at h1
    have hlhs : (Fs.content v' (d'.resize (max d.size.toNat (off+k))))[o] = byteAt v' d' o := by
      simp [Fs.content]
    rw [hlhs]
    have hmin : min off d.size.toNat = off := Nat.min_eq_left hoff
    simp only [overwrite, List.getElem_append, List.length_append, List.length_take,
      List.length_map, List.length_range, content_length, hmin]
    by_cases ho : o < off
    · rw [dif_pos (by omega), dif_pos ho, hsame o (by omega) (.inl ho)]
      simp [Fs.content]
    · by_cases ho' : o < off+k
      · rw [dif_pos ho', dif_neg ho, hb o (by omega) ho']
        simp
      · rw [dif_neg ho', hsame o (by omega) (.inr (by omega))]
        simp only [Fs.content, List.getElem_drop, List.getElem_map, List.getElem_range]
        congr 1
        omega

end Xv6Labs.Fs
