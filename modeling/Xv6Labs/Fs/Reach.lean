import Xv6Labs.Kit.Run
import Xv6Labs.Fs.Content

/-! The states of the inode layer that runs from a well-formed image can reach. -/
namespace Xv6Labs.Fs
open Kit Bytes

variable {sb : Superblock} {v v' w : Vol} {din din' : Nat → Dinode} {inum : Nat}
  {d d' d1 : Dinode}

/-! What volumes keep under writes of inodes. -/

theorem Forest.of_held (hF : Forest sb v din) (hbit : ∀ c < sb.size, v'.bit sb c = v.bit sb c)
    (hheld : held sb v' din' = held sb v din)
    (hval : ∀ x ∈ held sb v din, valAt v' din' x = valAt v din x) : Forest sb v' din' := by
  unfold Forest
  rw [hheld]
  exact (Owns.congr_val hF fun x hx => (hval x hx).symm).congr_bit hbit

/-- Values are the same where the data blocks and `addrs` are. -/
theorem val_same (hF : Forest sb v din) (hdisk : ∀ c, sb.datastart ≤ c → v'.disk c = v.disk c)
    {i : Nat} (hi : i < sb.ninodes) (ht : (din i).type ≠ 0) (haddr : ∀ j, d.addr j = (din i).addr j)
    {s : Slot} (hs : s.InRange) : s.val v' d = s.val v (din i) := by
  have hptr : ∀ p ∈ held sb v din, p.1 = i → ¬ p.2.IsLeaf → ∀ k < nindirect,
      v'.ptr (valAt v din p) k = v.ptr (valAt v din p) k := by
    intro p hp _ _ k _
    unfold Vol.ptr
    rw [hdisk _ (hF.isData hp).1]
  exact val_frame haddr hptr hi ht s hs

theorem lookup_same (hF : Forest sb v din) (hdisk : ∀ c, sb.datastart ≤ c → v'.disk c = v.disk c)
    {i bn : Nat} (hi : i < sb.ninodes) (ht : (din i).type ≠ 0)
    (haddr : ∀ j, d.addr j = (din i).addr j) (hbn : bn < maxfile) :
    lookup v' d bn = lookup v (din i) bn :=
  val_same hF hdisk hi ht haddr (leafSlot_inRange hbn)

theorem lookup_isData (hF : Forest sb v din) {i bn : Nat} (hi : i < sb.ninodes)
    (ht : (din i).type ≠ 0) (hbn : bn < maxfile) (h0 : lookup v (din i) bn ≠ 0) :
    sb.IsData (lookup v (din i) bn) :=
  hF.isData (x := (i, leafSlot bn)) ⟨⟨hi, ht, leafSlot_inRange hbn⟩, h0⟩

theorem FileOk.bn_lt (h : FileOk v d) {bn : Nat} (hbn : bn*bsize < d.size.toNat) : bn < maxfile := by
  have hsize := h.size
  simp only [maxfile, bsize] at hbn hsize ⊢
  omega

theorem FileOk.congr (h : FileOk v d) (hsize : d'.size = d.size)
    (hlook : ∀ bn < maxfile, lookup v' d' bn = lookup v d bn) : FileOk v' d' := by
  refine ⟨hsize ▸ h.size, ?_⟩
  intro bn hbn
  rw [hsize] at hbn
  rw [hlook bn (h.bn_lt hbn)]
  exact h.noHoles bn hbn

theorem content_congr (hok : FileOk v d) (hsize : d'.size = d.size)
    (hlook : ∀ bn < maxfile, lookup v d bn ≠ 0 →
      lookup v' d' bn = lookup v d bn ∧ v'.disk (lookup v d bn) = v.disk (lookup v d bn)) :
    content v' d' = content v d := by
  unfold content
  rw [hsize]
  apply List.map_congr_left
  intro o ho
  have ho := List.mem_range.mp ho
  have h0 := hok.noHoles (o/bsize) (lt_of_le_of_lt (Nat.div_mul_le_self o bsize) ho)
  obtain ⟨hl, hd⟩ := hlook _ (block_lt (lt_of_lt_of_le ho hok.size)) h0
  unfold byteAt
  rw [hl, hd]

/-- A volume between two calls: the block forest, and files without holes. -/
structure VolOk (sb : Superblock) (v : Vol) : Prop where
  forest : Forest sb v (v.dinode sb)
  files : ∀ i < sb.ninodes, (v.dinode sb i).type ≠ 0 → FileOk v (v.dinode sb i)

/-- A call on inode `inum` took the volume `v` to `v'`: the other inodes and their contents are
untouched. -/
structure Touched (sb : Superblock) (inum : Nat) (v v' : Vol) : Prop where
  ok : VolOk sb v'
  dinode : ∀ i < sb.ninodes, i ≠ inum → v'.dinode sb i = v.dinode sb i
  content : ∀ i < sb.ninodes, i ≠ inum → (v.dinode sb i).type ≠ 0 →
    content v' (v.dinode sb i) = content v (v.dinode sb i)

theorem Touched.refl (h : VolOk sb v) : Touched sb inum v v :=
  ⟨h, fun _ _ _ => rfl, fun _ _ _ _ => rfl⟩

/-- Writing to an inode block leaves the bitmap and the data alone. -/
theorem inode_write_frame (hL : sb.Layout) (hi : inum < sb.ninodes) (data : Buf) :
    (∀ c < sb.size, (v.write (sb.iblock inum) data).bit sb c = v.bit sb c) ∧
    (∀ c, sb.datastart ≤ c → (v.write (sb.iblock inum) data).disk c = v.disk c) :=
  ⟨fun _ hc => bit_write_off hL hc (hL.iblock_off hi),
    fun _ hc => disk_write_ne (hL.data_ne_iblock hc hi)⟩

/-- `iupdate` at the end of a call: the copy in memory, with the blocks it had reached, becomes
the inode on the disk. -/
theorem forest_iupdate (hL : sb.Layout) (hi : inum < sb.ninodes)
    (hF : Forest sb w (Function.update din inum d1))
    (hdin : ∀ i < sb.ninodes, i ≠ inum → w.dinode sb i = din i)
    (haddr : ∀ j, d.addr j = d1.addr j) (htype : d.type = d1.type) :
    Forest sb (iupdate sb w inum d) ((iupdate sb w inum d).dinode sb) := by
  obtain ⟨hbit, hdisk⟩ := inode_write_frame (v := w) hL hi
    (Dinode.store (w.disk (sb.iblock inum)) (64*(inum % ipb)) d)
  have hnew : ∀ i < sb.ninodes, (iupdate sb w inum d).dinode sb i = Function.update din inum d i := by
    intro i hlt
    rw [dinode_iupdate]
    by_cases hie : i = inum
    · subst hie; simp
    · simp [hie, hdin i hlt hie]
  have htypes : ∀ i < sb.ninodes, ((iupdate sb w inum d).dinode sb i).type =
      (Function.update din inum d1 i).type := by
    intro i hlt
    rw [hnew i hlt]
    by_cases hie : i = inum
    · subst hie; simpa using htype
    · simp [hie]
  have hval : ∀ x, Place.Exists sb (Function.update din inum d1) x →
      valAt (iupdate sb w inum d) ((iupdate sb w inum d).dinode sb) x =
        valAt w (Function.update din inum d1) x := by
    intro x hx
    refine val_same hF hdisk hx.1 hx.2.1 ?_ hx.2.2
    intro j
    rw [hnew x.1 hx.1]
    by_cases hie : x.1 = inum
    · rw [hie]; simpa using haddr j
    · simp [hie]
  have hex : ∀ x, Place.Exists sb ((iupdate sb w inum d).dinode sb) x ↔
      Place.Exists sb (Function.update din inum d1) x := by
    intro x
    unfold Place.Exists
    constructor
    · intro hx; exact ⟨hx.1, htypes x.1 hx.1 ▸ hx.2.1, hx.2.2⟩
    · intro hx; exact ⟨hx.1, (htypes x.1 hx.1).symm ▸ hx.2.1, hx.2.2⟩
  refine hF.of_held hbit ?_ fun x hx => hval x hx.1
  ext x
  constructor
  · intro hx
    have hx' := (hex x).mp hx.1
    exact ⟨hx', hval x hx' ▸ hx.2⟩
  · intro hx
    exact ⟨(hex x).mpr hx.1, by rw [hval x hx.1]; exact hx.2⟩

theorem VolOk.forest_update (h : VolOk sb v) :
    Forest sb v (Function.update (v.dinode sb) inum (v.dinode sb inum)) := by
  rw [Function.update_eq_self]
  exact h.forest

theorem Wrote.dinode_same {P : Nat → Prop} (hL : sb.Layout)
    (h : Wrote sb din inum P v d w d1) {i : Nat} (hi : i < sb.ninodes) :
    w.dinode sb i = v.dinode sb i :=
  dinode_congr (h.low _ (hL.iblock_lt hi))

/-- The blocks of the inode that was written, on a volume with the same data blocks. -/
theorem Wrote.self_same {d2 : Dinode} {P : Nat → Prop} {bn : Nat}
    (hw : Wrote sb din inum P v d w d1) (hdisk : ∀ c, sb.datastart ≤ c → v'.disk c = w.disk c)
    (hi : inum < sb.ninodes) (ht : d1.type ≠ 0) (haddr : ∀ j, d2.addr j = d1.addr j)
    (hbn : bn < maxfile) : lookup v' d2 bn = lookup w d1 bn ∧
      (lookup w d1 bn ≠ 0 → v'.disk (lookup w d1 bn) = w.disk (lookup w d1 bn)) := by
  have ht' : (Function.update din inum d1 inum).type ≠ 0 := by
    rw [Function.update_self]
    exact ht
  have hsame := lookup_same hw.forest hdisk (d := d2) hi ht' (by simpa using haddr) hbn
  have hdata := lookup_isData hw.forest hi ht' hbn
  rw [Function.update_self] at hsame hdata
  exact ⟨hsame, fun h0 => hdisk _ (hdata h0).1⟩

/-- The blocks of the other inodes. -/
theorem Wrote.others_same {P : Nat → Prop} {i bn : Nat} (hw : Wrote sb din inum P v d w d1)
    (hF : Forest sb v din) (hdisk : ∀ c, sb.datastart ≤ c → v'.disk c = w.disk c)
    (hie : i ≠ inum) (hlt : i < sb.ninodes) (hti : (din i).type ≠ 0) (hbn : bn < maxfile) :
    lookup v' (din i) bn = lookup v (din i) bn ∧
      (lookup v (din i) bn ≠ 0 →
        v'.disk (lookup v (din i) bn) = v.disk (lookup v (din i) bn)) := by
  obtain ⟨hl, hd⟩ := hw.others i hie hlt hti bn hbn
  have hsame := lookup_same hw.forest hdisk (d := din i) hlt (by simpa [hie] using hti)
    (by simp [hie]) hbn
  rw [Function.update_of_ne hie] at hsame
  refine ⟨hsame.trans hl, fun h0 => ?_⟩
  rw [← hd h0]
  exact hdisk _ (lookup_isData hF hlt hti hbn h0).1

/-- `writei`, on a volume in order and the inode as it is on the disk. -/
theorem writei_call (hL : sb.Layout) (h : VolOk sb v) (hi : inum < sb.ninodes)
    (ht : (v.dinode sb inum).type ≠ 0) (src : Buf) (fault : Nat → Nat → Option Nat) {off n : Nat}
    (hoff : off ≤ (v.dinode sb inum).size.toNat) (hend : off+n ≤ maxfile*bsize) :
    ∃ (k : Nat) (d' : Dinode) (v' : Vol),
      writei sb v inum (v.dinode sb inum) src fault off n = .ok ((k : Int), d', v') ∧ k ≤ n ∧
      Touched sb inum v v' ∧ v'.dinode sb inum = d' ∧ d'.type = (v.dinode sb inum).type ∧
      (k < n → v'.Full sb ∨ ∃ t m, (fault t m).isSome) ∧
      ((∀ t m, fault t m = none) →
        d'.size.toNat = max (v.dinode sb inum).size.toNat (off+k) ∧
        content v' d' = overwrite (content v (v.dinode sb inum)) off ((List.range k).map src)) := by
  have hok := h.files inum hi ht
  obtain ⟨k, d1, w, heq, hk, hw, hb, hshort⟩ := writei_spec (n := n) hL hi h.forest_update ht hoff hend
  have hdin : ∀ i < sb.ninodes, w.dinode sb i = v.dinode sb i := fun i hlt => hw.dinode_same hL hlt
  have ht1 : d1.type ≠ 0 := by rw [hw.fields.1]; exact ht
  have hF := forest_iupdate (d := d1.resize (max (v.dinode sb inum).size.toNat (off+k))) hL hi
    hw.forest (fun i hlt _ => hdin i hlt) (fun _ => rfl) rfl
  have hfile := hw.fileOk hok hoff (k := k) (by omega) fun o ho ho' => (hb o ho ho').1
  obtain ⟨hbit, hdisk⟩ := inode_write_frame (v := w) hL hi
    (Dinode.store (w.disk (sb.iblock inum)) (64*(inum % ipb))
      (d1.resize (max (v.dinode sb inum).size.toNat (off+k))))
  generalize hd2 : d1.resize (max (v.dinode sb inum).size.toNat (off+k)) = d2 at *
  have hd2t : d2.type ≠ 0 := by rw [← hd2]; exact ht1
  have hd2a : ∀ j, d2.addr j = d1.addr j := by intro j; rw [← hd2]; rfl
  have hdin' : ∀ i < sb.ninodes, i ≠ inum →
      (iupdate sb w inum d2).dinode sb i = v.dinode sb i := by
    intro i hlt hie
    rw [dinode_iupdate, if_neg hie, hdin i hlt]
  have hself : (iupdate sb w inum d2).dinode sb inum = d2 := by rw [dinode_iupdate, if_pos rfl]
  -- the blocks of the inode, and those of the others, on the final volume
  have hlook : ∀ bn < maxfile, lookup (iupdate sb w inum d2) d2 bn = lookup w d1 bn ∧
      (lookup w d1 bn ≠ 0 →
        (iupdate sb w inum d2).disk (lookup w d1 bn) = w.disk (lookup w d1 bn)) :=
    fun bn hbn => hw.self_same hdisk hi ht1 hd2a hbn
  have hother : ∀ i < sb.ninodes, i ≠ inum → (v.dinode sb i).type ≠ 0 → ∀ bn < maxfile,
      lookup (iupdate sb w inum d2) (v.dinode sb i) bn = lookup v (v.dinode sb i) bn ∧
      (lookup v (v.dinode sb i) bn ≠ 0 → (iupdate sb w inum d2).disk (lookup v (v.dinode sb i) bn) =
        v.disk (lookup v (v.dinode sb i) bn)) :=
    fun i hlt hie hti bn hbn => hw.others_same h.forest hdisk hie hlt hti hbn
  have hfile2 : FileOk (iupdate sb w inum d2) d2 := by
    have hresize : ∀ bn < maxfile, lookup (iupdate sb w inum d2) d2 bn = lookup w d2 bn := by
      intro bn hbn
      rw [(hlook bn hbn).1, ← hd2, lookup_resize]
    exact hfile.congr rfl hresize
  refine ⟨k, d2, iupdate sb w inum d2, heq, hk, ⟨⟨hF, ?_⟩, hdin', ?_⟩, hself, ?_, ?_, ?_⟩
  · intro i hlt hti
    by_cases hie : i = inum
    · rw [hie, hself]
      exact hfile2
    · rw [hdin' i hlt hie] at hti ⊢
      exact (h.files i hlt hti).congr rfl fun bn hbn => (hother i hlt hie hti bn hbn).1
  · intro i hlt hie hti
    exact content_congr (h.files i hlt hti) rfl fun bn hbn h0 =>
      ⟨(hother i hlt hie hti bn hbn).1, (hother i hlt hie hti bn hbn).2 h0⟩
  · rw [← hd2]
    exact hw.fields.1
  · intro hkn
    refine (hshort hkn).imp (fun hfull c hc => ?_) id
    exact (hbit c hc).trans (hfull c hc)
  · intro hno
    have hnone : ∀ o, (off ≤ o ∧ (o < off+k ∨ ∃ t m, (fault t m).isSome)) → off ≤ o ∧ o < off+k := by
      intro o ho
      refine ⟨ho.1, ho.2.resolve_right ?_⟩
      intro hex
      obtain ⟨t, m, hs⟩ := hex
      rw [hno] at hs
      cases hs
    have hcont := (hw.mono hnone).content hok hoff (by omega) (fun o ho ho' => (hb o ho ho').2)
    have hsmall : maxfile*bsize < 2^32 := by decide
    have hsz := hok.size
    rw [hd2] at hcont
    refine ⟨by rw [← hd2, size_resize (by omega)], ?_⟩
    rw [← hcont]
    refine content_congr hfile rfl fun bn hbn h0 => ?_
    have hl2 : lookup w d2 bn = lookup w d1 bn := by rw [← hd2, lookup_resize]
    refine ⟨(hlook bn hbn).1.trans hl2.symm, ?_⟩
    rw [hl2] at h0 ⊢
    exact (hlook bn hbn).2 h0

/-- An inode emptied by `itrunc`, with the type it gets from the caller. -/
theorem touched_emptied (h : VolOk sb v)
    (hfree : Freeing sb v (v.dinode sb) (allPlaces inum) w) (hw : ∀ c, sb.datastart ≤ c →
      v'.disk c = w.disk c) (hbit : ∀ c < sb.size, v'.bit sb c = w.bit sb c)
    (hdin : ∀ i < sb.ninodes, i ≠ inum → v'.dinode sb i = v.dinode sb i)
    (haddr : ∀ j, (v'.dinode sb inum).addr j = 0) (hsize : (v'.dinode sb inum).size = 0) :
    Touched sb inum v v' := by
  have hdisk : ∀ c, sb.datastart ≤ c → v'.disk c = v.disk c := by
    intro c hc
    rw [hw c hc, hfree.disk c (.inr hc)]
  have hF' : Forest sb v' (v'.dinode sb) := hfree.forest h.forest hbit hw haddr hdin
  have hlook : ∀ i < sb.ninodes, i ≠ inum → (v.dinode sb i).type ≠ 0 → ∀ bn < maxfile,
      lookup v' (v.dinode sb i) bn = lookup v (v.dinode sb i) bn :=
    fun i hlt _ hti bn hbn => lookup_same h.forest hdisk hlt hti (fun _ => rfl) hbn
  refine ⟨⟨hF', ?_⟩, hdin, ?_⟩
  · intro i hlt hti
    by_cases hie : i = inum
    · rw [hie]
      refine ⟨by rw [hsize]; exact Nat.zero_le _, ?_⟩
      intro bn hbn
      rw [hsize] at hbn
      exact absurd hbn (Nat.not_lt_zero _)
    · rw [hdin i hlt hie] at hti ⊢
      exact (h.files i hlt hti).congr rfl (hlook i hlt hie hti)
  · intro i hlt hie hti
    refine content_congr (h.files i hlt hti) rfl fun bn hbn h0 => ⟨hlook i hlt hie hti bn hbn, ?_⟩
    exact hdisk _ (lookup_isData h.forest hlt hti hbn h0).1

theorem touched_itrunc (hL : sb.Layout) (h : VolOk sb v) (hi : inum < sb.ninodes)
    (ht : (v.dinode sb inum).type ≠ 0) :
    ∃ v', itrunc sb v inum (v.dinode sb inum) = .ok ((v.dinode sb inum).emptied, v') ∧
      Touched sb inum v v' ∧ v'.dinode sb inum = (v.dinode sb inum).emptied ∧
      Touched sb inum v (iupdate sb v' inum { (v.dinode sb inum).emptied with type := 0 }) := by
  obtain ⟨w, heq, hfree, -⟩ := itrunc_spec hL h.forest hi ht
  have hdin : ∀ i < sb.ninodes, w.dinode sb i = v.dinode sb i :=
    fun i hlt => dinode_congr (hfree.disk _ (hL.iblock_off hlt))
  have hself : ∀ u d, (iupdate sb u inum d).dinode sb inum = d :=
    fun u d => by rw [dinode_iupdate, if_pos rfl]
  have hother : ∀ i < sb.ninodes, i ≠ inum → ∀ u d,
      (iupdate sb u inum d).dinode sb i = u.dinode sb i :=
    fun i _ hie u d => by rw [dinode_iupdate, if_neg hie]
  obtain ⟨hbit, hdisk⟩ := inode_write_frame (v := w) hL hi
    (Dinode.store (w.disk (sb.iblock inum)) (64*(inum % ipb)) (v.dinode sb inum).emptied)
  obtain ⟨hbit', hdisk'⟩ := inode_write_frame
    (v := iupdate sb w inum (v.dinode sb inum).emptied) hL hi
    (Dinode.store ((iupdate sb w inum (v.dinode sb inum).emptied).disk (sb.iblock inum))
      (64*(inum % ipb)) { (v.dinode sb inum).emptied with type := 0 })
  refine ⟨_, heq, ?_, hself _ _, ?_⟩
  · refine touched_emptied h hfree hdisk hbit ?_ ?_ ?_
    · intro i hlt hie
      rw [hother i hlt hie, hdin i hlt]
    · intro j
      rw [hself]
      exact addr_emptied _ _
    · rw [hself]; rfl
  · refine touched_emptied h hfree (fun c hc => (hdisk' c hc).trans (hdisk c hc))
      (fun c hc => (hbit' c hc).trans (hbit c hc)) ?_ ?_ ?_
    · intro i hlt hie
      rw [hother i hlt hie, hother i hlt hie, hdin i hlt]
    · intro j
      rw [hself]
      exact addr_emptied (v.dinode sb inum) j
    · rw [hself]; rfl

/-- New link count or device numbers. -/
theorem touched_fields (hL : sb.Layout) (h : VolOk sb v) (hi : inum < sb.ninodes)
    (haddr : ∀ j, d.addr j = (v.dinode sb inum).addr j) (htype : d.type = (v.dinode sb inum).type)
    (hsize : d.size = (v.dinode sb inum).size) :
    Touched sb inum v (iupdate sb v inum d) ∧ (iupdate sb v inum d).dinode sb inum = d := by
  have hself : (iupdate sb v inum d).dinode sb inum = d := by rw [dinode_iupdate, if_pos rfl]
  have hdin : ∀ i < sb.ninodes, i ≠ inum → (iupdate sb v inum d).dinode sb i = v.dinode sb i :=
    fun i _ hie => by rw [dinode_iupdate, if_neg hie]
  obtain ⟨-, hdisk⟩ := inode_write_frame (v := v) hL hi
    (Dinode.store (v.disk (sb.iblock inum)) (64*(inum % ipb)) d)
  have hlook : ∀ i < sb.ninodes, (v.dinode sb i).type ≠ 0 → ∀ bn < maxfile,
      lookup (iupdate sb v inum d) (v.dinode sb i) bn = lookup v (v.dinode sb i) bn :=
    fun i hlt hti bn hbn => lookup_same h.forest hdisk hlt hti (fun _ => rfl) hbn
  refine ⟨⟨⟨forest_iupdate hL hi h.forest_update (fun _ _ _ => rfl) haddr htype, ?_⟩, hdin, ?_⟩, hself⟩
  · intro i hlt hti
    by_cases hie : i = inum
    · subst hie
      rw [hself] at hti ⊢
      rw [htype] at hti
      refine (h.files i hi hti).congr hsize fun bn hbn => ?_
      exact lookup_same h.forest hdisk hi hti haddr hbn
    · rw [hdin i hlt hie] at hti ⊢
      exact (h.files i hlt hti).congr rfl (hlook i hlt hti)
  · intro i hlt _ hti
    refine content_congr (h.files i hlt hti) rfl fun bn hbn h0 => ⟨hlook i hlt hti bn hbn, ?_⟩
    exact hdisk _ (lookup_isData h.forest hlt hti hbn h0).1

/-- A free inode taken by `ialloc` starts without blocks. -/
theorem touched_ialloc (hL : sb.Layout) (h : VolOk sb v) (hi : inum < sb.ninodes)
    (hfree : (v.dinode sb inum).type = 0) (type : Int16) :
    Touched sb inum v (v.write (sb.iblock inum)
      (Dinode.clear (v.disk (sb.iblock inum)) (64*(inum % ipb)) type)) ∧
    (v.write (sb.iblock inum)
      (Dinode.clear (v.disk (sb.iblock inum)) (64*(inum % ipb)) type)).dinode sb inum =
        Dinode.fresh type := by
  obtain ⟨hbit, hdisk⟩ := inode_write_frame (v := v) hL hi
    (Dinode.clear (v.disk (sb.iblock inum)) (64*(inum % ipb)) type)
  have hself : (v.write (sb.iblock inum)
      (Dinode.clear (v.disk (sb.iblock inum)) (64*(inum % ipb)) type)).dinode sb inum =
        Dinode.fresh type := by
    unfold Vol.dinode
    rw [disk_write, if_pos rfl, Dinode.load_clear_self]
  have hdin : ∀ i, i ≠ inum → (v.write (sb.iblock inum)
      (Dinode.clear (v.disk (sb.iblock inum)) (64*(inum % ipb)) type)).dinode sb i =
        v.dinode sb i :=
    fun i hie => dinode_write_slot hie fun k hk => Dinode.clear_of_ne hk
  generalize v.write (sb.iblock inum)
    (Dinode.clear (v.disk (sb.iblock inum)) (64*(inum % ipb)) type) = v' at *
  have hzero : ∀ j, (v'.dinode sb inum).addr j = 0 := by
    intro j
    rw [hself]
    unfold Dinode.addr Dinode.fresh
    split <;> rfl
  have hval : ∀ x : Place, x.1 ≠ inum → Place.Exists sb (v.dinode sb) x →
      valAt v' (v'.dinode sb) x = valAt v (v.dinode sb) x := by
    intro x hne hx
    exact val_same h.forest hdisk hx.1 hx.2.1 (fun j => by rw [hdin x.1 hne]) hx.2.2
  have hheld : held sb v' (v'.dinode sb) = held sb v (v.dinode sb) := by
    ext x
    by_cases hne : x.1 = inum
    · constructor
      · intro hx
        refine absurd ?_ hx.2
        unfold valAt
        rw [hne]
        exact val_of_zero hzero x.2
      · intro hx
        refine absurd ?_ hx.1.2.1
        rw [hne]
        exact hfree
    · have hex : Place.Exists sb (v'.dinode sb) x ↔ Place.Exists sb (v.dinode sb) x := by
        unfold Place.Exists; rw [hdin x.1 hne]
      constructor
      · intro hx
        have hx' := hex.mp hx.1
        exact ⟨hx', hval x hne hx' ▸ hx.2⟩
      · intro hx
        exact ⟨hex.mpr hx.1, by rw [hval x hne hx.1]; exact hx.2⟩
  have hlook : ∀ i < sb.ninodes, (v.dinode sb i).type ≠ 0 → ∀ bn < maxfile,
      lookup v' (v.dinode sb i) bn = lookup v (v.dinode sb i) bn :=
    fun i hlt hti bn hbn => lookup_same h.forest hdisk hlt hti (fun _ => rfl) hbn
  refine ⟨⟨⟨h.forest.of_held hbit hheld ?_, ?_⟩, fun i _ hie => hdin i hie, ?_⟩, hself⟩
  · intro x hx
    refine hval x ?_ hx.1
    intro hne
    exact hx.1.2.1 (hne ▸ hfree)
  · intro i hlt hti
    by_cases hie : i = inum
    · rw [hie, hself]
      exact ⟨Nat.zero_le _, fun bn hbn => absurd hbn (Nat.not_lt_zero _)⟩
    · rw [hdin i hie] at hti ⊢
      exact (h.files i hlt hti).congr rfl (hlook i hlt hti)
  · intro i hlt _ hti
    refine content_congr (h.files i hlt hti) rfl fun bn hbn h0 => ⟨hlook i hlt hti bn hbn, ?_⟩
    exact hdisk _ (lookup_isData h.forest hlt hti hbn h0).1

/-! The table of inodes in memory. -/

/-- What holds between two calls: the volume is in order, and every inode that is referenced and
valid in memory is the one on the disk. -/
structure FsInv (sb : Superblock) (fs : FS) : Prop where
  vol : VolOk sb fs.vol
  inum : ∀ e, fs.Held e → (fs.inode e).inum < sb.ninodes
  copy : ∀ e, fs.Locked e → (fs.inode e).copy = fs.vol.dinode sb (fs.inode e).inum ∧
    (fs.inode e).copy.type ≠ 0
  unique : ∀ e e', fs.Held e → fs.Held e' → (fs.inode e).inum = (fs.inode e').inum → e = e'

variable {fs fs' : FS} {e : Fin ninode}

@[simp] theorem inode_set (ip : Inode) (i : Fin ninode) :
    (fs.set e ip).inode i = if i = e then ip else fs.inode i := by
  unfold FS.set
  by_cases hi : i = e
  · subst hi; simp
  · simp [hi]

/-- A call on the inode of one entry, with the new entry it leaves. -/
theorem FsInv.touch (h : FsInv sb fs) (he : fs.Held e)
    (hv : Touched sb (fs.inode e).inum fs.vol v') {ip : Inode} (hinum : ip.inum = (fs.inode e).inum)
    (hcopy : 0 < ip.ref → ip.valid → ip.copy = v'.dinode sb ip.inum ∧ ip.copy.type ≠ 0) :
    FsInv sb ({ fs with vol := v' }.set e ip) := by
  have hheld : ∀ i, ({ fs with vol := v' }.set e ip).Held i → fs.Held i := by
    intro i hi
    unfold FS.Held at *
    rw [inode_set] at hi
    split at hi
    · next hie => rw [hie]; exact he
    · exact hi
  have hnum : ∀ i, (({ fs with vol := v' }.set e ip).inode i).inum = (fs.inode i).inum := by
    intro i
    rw [inode_set]
    split
    · next hie => rw [hie]; exact hinum
    · rfl
  constructor
  · exact hv.ok
  · intro i hi
    rw [hnum]
    exact h.inum i (hheld i hi)
  · intro i hi
    rw [hnum]
    by_cases hie : i = e
    · subst hie
      have hi' := hi
      unfold FS.Locked FS.Held at hi'
      simp only [inode_set, if_true] at hi' ⊢
      rw [← hinum]
      exact hcopy hi'.1 hi'.2
    · have hi' : fs.Locked i := by
        have hl := hi
        unfold FS.Locked FS.Held at hl
        simp only [inode_set, if_neg hie] at hl
        exact hl
      have hne : (fs.inode i).inum ≠ (fs.inode e).inum := fun heq => hie (h.unique i e hi'.1 he heq)
      have hdin := hv.dinode _ (h.inum i hi'.1) hne
      simp only [inode_set, if_neg hie]
      exact ⟨(h.copy i hi').1.trans hdin.symm, (h.copy i hi').2⟩
  · intro i j hi hj hij
    rw [hnum, hnum] at hij
    exact h.unique i j (hheld i hi) (hheld j hj) hij

theorem FsInv.iget (h : FsInv sb fs) {inum : Nat} (hn : inum < sb.ninodes)
    (heq : fs.iget inum = .ok (e, fs')) : FsInv sb fs' := by
  unfold FS.iget at heq
  split at heq
  · next i hfind =>
    have hi := List.find?_some hfind
    have hboth : fs.Held i ∧ (fs.inode i).inum = inum := by simpa [FS.Held] using hi
    cases heq
    refine h.touch hboth.1 (Touched.refl h.vol) rfl fun _ hval => ?_
    exact h.copy e ⟨hboth.1, hval⟩
  · next hfind =>
    split at heq
    · cases heq
    · next i hempty =>
      have hi0 : (fs.inode i).ref = 0 := by simpa using List.find?_some hempty
      have hnone : ∀ j, fs.Held j → (fs.inode j).inum ≠ inum := by
        intro j hj
        have := List.find?_eq_none.mp hfind j (List.mem_finRange j)
        unfold FS.Held at hj
        simpa [hj] using this
      cases heq
      have hheld : ∀ j, j ≠ e → (fs.set e { fs.inode e with inum := inum, ref := 1, valid := false }
          ).Held j → fs.Held j := by
        intro j hje hj
        unfold FS.Held at *
        rwa [inode_set, if_neg hje] at hj
      constructor
      · exact h.vol
      · intro j hj
        rw [inode_set]
        split
        · exact hn
        · next hje => exact h.inum j (hheld j hje hj)
      · intro j hj
        by_cases hje : j = e
        · subst hje
          have := hj.2
          rw [inode_set, if_pos rfl] at this
          cases this
        · have hvalid := hj.2
          rw [inode_set, if_neg hje] at hvalid
          have hj' : fs.Locked j := ⟨hheld j hje hj.1, hvalid⟩
          rw [inode_set, if_neg hje]
          exact h.copy j hj'
      · intro j k hj hk hjk
        simp only [inode_set] at hjk
        by_cases hje : j = e
        · by_cases hke : k = e
          · rw [hje, hke]
          · rw [if_pos hje, if_neg hke] at hjk
            exact absurd hjk.symm (hnone k (hheld k hke hk))
        · by_cases hke : k = e
          · rw [if_neg hje, if_pos hke] at hjk
            exact absurd hjk (hnone j (hheld j hje hj))
          · rw [if_neg hje, if_neg hke] at hjk
            exact h.unique j k (hheld j hje hj) (hheld k hke hk) hjk

theorem FsInv.ialloc (hL : sb.Layout) (h : FsInv sb fs) {type : Int16} {r : Option (Fin ninode)}
    (heq : fs.ialloc sb type = .ok (r, fs')) : FsInv sb fs' := by
  unfold FS.ialloc at heq
  split at heq
  · cases heq
    exact h
  · next inum hfind =>
    have hfree : (fs.vol.dinode sb inum).type = 0 := by simpa using List.find?_some hfind
    have hlt : inum < sb.ninodes := by
      obtain ⟨k, hk, rfl⟩ := List.mem_map.mp (List.mem_of_find?_eq_some hfind)
      have := List.mem_range.mp hk
      omega
    obtain ⟨hv, -⟩ := touched_ialloc hL h.vol hlt hfree type
    have hmid : ∀ v', Touched sb inum fs.vol v' → FsInv sb { fs with vol := v' } := by
      intro v' hv
      refine ⟨hv.ok, h.inum, ?_, h.unique⟩
      intro i hi
      obtain ⟨hc, ht⟩ := h.copy i hi
      have hne : (fs.inode i).inum ≠ inum := by
        intro heq
        rw [hc, heq] at ht
        exact ht hfree
      exact ⟨hc.trans (hv.dinode _ (h.inum i hi.1) hne).symm, ht⟩
    have hinv := hmid _ hv
    simp only at heq
    generalize fs.vol.write (sb.iblock inum)
      (Dinode.clear (fs.vol.disk (sb.iblock inum)) (64*(inum % ipb)) type) = v' at heq hinv
    cases hget : FS.iget { fs with vol := v' } inum with
    | error m => rw [hget] at heq; cases heq
    | ok p =>
      rw [hget] at heq
      cases heq
      exact hinv.iget hlt hget

theorem FsInv.readi_eq (hL : sb.Layout) (h : FsInv sb fs) (he : fs.Locked e)
    (fault : Nat → Nat → Bool) {off n : Nat} (hoff : off < 2^32) (hn : n < 2^32) :
    ∃ r out, readi sb fs.vol (fs.inode e).copy fault off n =
        .ok (r, out, (fs.inode e).copy, fs.vol) ∧
      ((∀ t m, fault t m = false) →
        out = (if off ≤ (fs.inode e).copy.size.toNat ∧ off+n < 2^32 then
          ((content fs.vol (fs.inode e).copy).drop off).take n else []) ∧ r = out.length) := by
  obtain ⟨hc, ht⟩ := h.copy e he
  have hi := h.inum e he.1
  have ht' : (fs.vol.dinode sb (fs.inode e).inum).type ≠ 0 := hc ▸ ht
  rw [hc]
  exact readi_spec hL hi h.vol.forest_update ht' (h.vol.files _ hi ht') hoff hn

theorem fs_eta (fs : FS) (e : Fin ninode) : { fs with vol := fs.vol }.set e (fs.inode e) = fs := by
  unfold FS.set
  simp

theorem FsInv.ilock (h : FsInv sb fs) (heq : fs.ilock sb e = .ok fs') : FsInv sb fs' := by
  unfold FS.ilock at heq
  split at heq
  · cases heq
  · next href =>
    have he : fs.Held e := by unfold FS.Held; omega
    split at heq
    · cases heq; exact h
    · simp only at heq
      split at heq
      · cases heq
      · next ht =>
        cases heq
        exact h.touch he (Touched.refl h.vol) rfl fun _ _ => ⟨rfl, ht⟩

theorem FsInv.iput (hL : sb.Layout) (h : FsInv sb fs) (he : fs.Held e)
    (heq : fs.iput sb e = .ok fs') : FsInv sb fs' := by
  unfold FS.iput at heq
  simp only at heq
  split at heq
  · next hlast =>
    have hl : fs.Locked e := ⟨he, hlast.2.1⟩
    obtain ⟨hc, ht⟩ := h.copy e hl
    have ht' : (fs.vol.dinode sb (fs.inode e).inum).type ≠ 0 := hc ▸ ht
    obtain ⟨v', htr, -, -, htouch⟩ := touched_itrunc hL h.vol (h.inum e he) ht'
    rw [hc, htr] at heq
    cases heq
    exact h.touch he htouch rfl fun h0 => absurd h0 (Nat.lt_irrefl 0)
  · cases heq
    refine h.touch he (Touched.refl h.vol) rfl fun _ hval => ?_
    exact h.copy e ⟨he, hval⟩

theorem FsInv.setLink (hL : sb.Layout) (h : FsInv sb fs) (hl : fs.Locked e)
    (major minor nlink : Int16) : FsInv sb (fs.setLink sb e major minor nlink) := by
  obtain ⟨hc, ht⟩ := h.copy e hl
  have hv := touched_fields
    (d := { (fs.inode e).copy with major := major, minor := minor, nlink := nlink }) hL h.vol
    (h.inum e hl.1) (fun j => by rw [← hc]; rfl) (by rw [← hc]) (by rw [← hc])
  exact h.touch hl.1 hv.1 rfl fun _ _ => ⟨hv.2.symm, ht⟩

theorem FsInv.itrunc (hL : sb.Layout) (h : FsInv sb fs) (hl : fs.Locked e)
    (heq : Fs.itrunc sb fs.vol (fs.inode e).inum (fs.inode e).copy = .ok (d, v)) :
    FsInv sb ({ fs with vol := v }.set e { fs.inode e with copy := d }) := by
  obtain ⟨hc, ht⟩ := h.copy e hl
  have ht' : (fs.vol.dinode sb (fs.inode e).inum).type ≠ 0 := hc ▸ ht
  obtain ⟨v', htr, htouch, hself, -⟩ := touched_itrunc hL h.vol (h.inum e hl.1) ht'
  rw [hc, htr] at heq
  cases heq
  exact h.touch hl.1 htouch rfl fun _ _ => ⟨hself.symm, ht'⟩

theorem FsInv.writei (hL : sb.Layout) (h : FsInv sb fs) (hl : fs.Locked e) {src : Buf}
    {fault : Nat → Nat → Option Nat} {off n : Nat} (hoff : off < 2^32) (hn : n < 2^32) {r : Int}
    (heq : Fs.writei sb fs.vol (fs.inode e).inum (fs.inode e).copy src fault off n = .ok (r, d, v)) :
    FsInv sb ({ fs with vol := v }.set e { fs.inode e with copy := d }) := by
  obtain ⟨hc, ht⟩ := h.copy e hl
  have ht' : (fs.vol.dinode sb (fs.inode e).inum).type ≠ 0 := hc ▸ ht
  by_cases hrej : (fs.inode e).copy.size.toNat < off ∨ 2^32 ≤ off+n ∨ maxfile*bsize < off+n
  · rw [writei_reject hoff hn hrej] at heq
    cases heq
    rw [fs_eta]
    exact h
  · have hoff' : off ≤ (fs.vol.dinode sb (fs.inode e).inum).size.toNat := by rw [← hc]; omega
    obtain ⟨k, d', v', heq', -, htouch, hself, htype, -⟩ := writei_call hL h.vol
      (h.inum e hl.1) ht' src fault hoff' (show off+n ≤ maxfile*bsize by omega)
    rw [hc, heq'] at heq
    cases heq
    exact h.touch hl.1 htouch rfl fun _ _ => ⟨hself.symm, htype ▸ ht'⟩

theorem inv_step {a : Act} (hL : sb.Layout) (h : FsInv sb fs) (hs : Step sb fs a fs') :
    FsInv sb fs' := by
  cases hs with
  | ialloc heq => exact h.ialloc hL heq
  | iget hn heq => exact h.iget hn heq
  | idup he => exact h.touch he (Touched.refl h.vol) rfl fun _ hval => h.copy _ ⟨he, hval⟩
  | ilock heq => exact h.ilock heq
  | iput he heq => exact h.iput hL he heq
  | setLink hl => exact h.setLink hL hl _ _ _
  | itrunc hl heq => exact h.itrunc hL hl heq
  | @readi e fault off n r out d v hl hoff hn heq =>
    obtain ⟨r', out', heq', -⟩ := h.readi_eq hL hl fault hoff hn
    rw [heq'] at heq
    cases heq
    rw [fs_eta]
    exact h
  | writei hl hoff hn heq => exact h.writei hL hl hoff hn heq

/-! Runs. -/

/-- An image as `mkfs` builds it: laid out in regions, the metadata marked in use, every data
block in use held by one place of one inode, and files without holes. -/
structure Image (sb : Superblock) (v : Vol) : Prop where
  layout : sb.Layout
  vol : VolOk sb v

/-- A volume with no inode in memory. -/
def FS.boot (v : Vol) : FS := ⟨v, fun _ => ⟨0, 0, false, Dinode.fresh 0⟩⟩

theorem inv_boot (hI : Image sb v) : FsInv sb (FS.boot v) := by
  have hnone : ∀ e, ¬ (FS.boot v).Held e := fun _ => Nat.lt_irrefl 0
  exact ⟨hI.vol, fun e he => absurd he (hnone e), fun e he => absurd he.1 (hnone e),
    fun e _ he => absurd he (hnone e)⟩

theorem inv_run (hI : Image sb v) {tr : List Act} (hr : Run (Step sb) (FS.boot v) tr fs) :
    FsInv sb fs :=
  hr.invariant (inv_boot hI) fun _ _ _ h hs => inv_step hI.layout h hs

/-- The block forest, in every reachable state: the blocks held by the allocated inodes are data
blocks marked in use, no block is held at two places, and no data block is marked in use without
being held. -/
theorem block_forest (hI : Image sb v) {tr : List Act} (hr : Run (Step sb) (FS.boot v) tr fs) :
    (∀ x ∈ held sb fs.vol (fs.vol.dinode sb),
      sb.IsData (valAt fs.vol (fs.vol.dinode sb) x) ∧
      fs.vol.bit sb (valAt fs.vol (fs.vol.dinode sb) x)) ∧
    (∀ x ∈ held sb fs.vol (fs.vol.dinode sb), ∀ y ∈ held sb fs.vol (fs.vol.dinode sb),
      valAt fs.vol (fs.vol.dinode sb) x = valAt fs.vol (fs.vol.dinode sb) y → x = y) ∧
    (∀ b, sb.IsData b → fs.vol.bit sb b →
      ∃ x ∈ held sb fs.vol (fs.vol.dinode sb), valAt fs.vol (fs.vol.dinode sb) x = b) := by
  have hF := (inv_run hI hr).vol.forest
  refine ⟨fun x hx => ⟨hF.isData hx, hF.bit hx⟩, fun x hx y hy => hF.inj hx hy, ?_⟩
  intro b hb hbit
  exact hF.bij.surjOn ⟨hb, hbit⟩

/-- A disk of twenty blocks, the last sixteen for data, with eight inodes. -/
def smallSb : Superblock where
  size := 20
  nblocks := 16
  ninodes := 8
  nlog := 0
  logstart := 2
  inodestart := 2
  bmapstart := 3

/-- No file, and the four metadata blocks marked in use. -/
def smallVol : Vol where
  disk := fun b i => if b = 3 ∧ i = 0 then 15 else 0
  logged := []

theorem smallImage : Image smallSb smallVol := by
  have hfree : ∀ i < 8, (smallVol.dinode smallSb i).type = 0 := by decide
  have hheld : held smallSb smallVol (smallVol.dinode smallSb) = ∅ := by
    ext x
    refine ⟨fun hx => absurd (hfree x.1 hx.1.1) hx.1.2.1, fun hx => absurd hx (Set.notMem_empty x)⟩
  have hused : used smallSb smallVol = ∅ := by
    ext b
    refine ⟨fun hb => ?_, fun hb => absurd hb (Set.notMem_empty b)⟩
    have hclear : ∀ b < 20, 4 ≤ b → smallVol.bit smallSb b = false := by decide
    have hbit := hb.2
    rw [hclear b hb.1.2 hb.1.1] at hbit
    cases hbit
  refine ⟨by constructor <;> decide, ⟨⟨by decide, ?_⟩, ?_⟩⟩
  · rw [hheld, hused]
    exact Set.bijOn_empty _
  · intro i hi ht
    exact absurd (hfree i hi) ht

/-- Kernel memory: no copy fails. -/
def kernelSrc : Nat → Nat → Option Nat := fun _ _ => none
def kernelDst : Nat → Nat → Bool := fun _ _ => false

/-- The bytes 0, 1, 2 and so on. -/
def counting : Buf := fun i => UInt8.ofNat i

/-- One file is written and truncated; another one gets its block back, and one block more than
there are direct ones. -/
def twoFiles : List Act :=
  [.ialloc 2, .ilock 0, .ialloc 2, .ilock 1, .writei 0 counting kernelSrc 0 5, .itrunc 0,
    .writei 1 counting kernelSrc 0 (11*bsize + 1)]

/-- The state after the actions. -/
def after (tr : List Act) : FS :=
  (tr.foldlM (FS.perform smallSb) (FS.boot smallVol)).getD (FS.boot smallVol)

theorem run_after {tr : List Act}
    (h : (tr.foldlM (FS.perform smallSb) (FS.boot smallVol)).isSome) :
    Run (Step smallSb) (FS.boot smallVol) tr (after tr) := by
  obtain ⟨fs, hfs⟩ := Option.isSome_iff_exists.mp h
  have hafter : after tr = fs := by rw [after, hfs, Option.getD_some]
  rw [hafter]
  exact Run.of_foldlM (step_of_perform smallSb) hfs

/-- The block behind the index block of the second file, and the block that was the first one's. -/
theorem block_forest_two_files :
    Run (Step smallSb) (FS.boot smallVol) twoFiles (after twoFiles) ∧
    smallSb.IsData (valAt (after twoFiles).vol ((after twoFiles).vol.dinode smallSb) (2, .ind 0)) ∧
    (∀ y ∈ held smallSb (after twoFiles).vol ((after twoFiles).vol.dinode smallSb),
      valAt (after twoFiles).vol ((after twoFiles).vol.dinode smallSb) (2, .ind 0) =
        valAt (after twoFiles).vol ((after twoFiles).vol.dinode smallSb) y → (2, .ind 0) = y) ∧
    ∃ x ∈ held smallSb (after twoFiles).vol ((after twoFiles).vol.dinode smallSb),
      valAt (after twoFiles).vol ((after twoFiles).vol.dinode smallSb) x = 4 := by
  have hr : Run (Step smallSb) (FS.boot smallVol) twoFiles (after twoFiles) :=
    run_after (by decide +kernel)
  obtain ⟨hdata, honce, hall⟩ := block_forest smallImage hr
  have hheld : (2, Slot.ind 0) ∈
      held smallSb (after twoFiles).vol ((after twoFiles).vol.dinode smallSb) := by
    refine ⟨⟨by decide, by decide +kernel, Nat.zero_lt_succ _⟩, ?_⟩
    decide +kernel
  refine ⟨hr, (hdata _ hheld).1, honce _ hheld, hall 4 ⟨by decide, by decide⟩ ?_⟩
  decide +kernel

end Xv6Labs.Fs
