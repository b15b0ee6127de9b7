import Xv6Labs.Fs.Reach

/-! The file layer as a map from inodes to byte arrays: in every reachable state `writei` is an
array update cut short by a full disk, and `readi` is a slice that changes nothing. -/
namespace Xv6Labs.Fs
open Kit Bytes

variable {sb : Superblock} {v : Vol} {fs fs' : FS} {e : Fin ninode}

/-- The ranges that `writei` refuses on a file of `size` bytes. -/
def Refused (size off n : Nat) : Prop := size < off ∨ 2^32 ≤ off+n ∨ maxfile*bsize < off+n

/-- Files have no holes, reading leaves the volume and the inode alone, and a valid inode in
memory is the one on the disk. -/
theorem no_holes (hI : Image sb v) {tr : List Act} (hr : Run (Step sb) (FS.boot v) tr fs) :
    (∀ inum < sb.ninodes, (fs.vol.dinode sb inum).type ≠ 0 → ∀ bn,
      bn*bsize < (fs.vol.dinode sb inum).size.toNat → lookup fs.vol (fs.vol.dinode sb inum) bn ≠ 0) ∧
    (∀ e, fs.Locked e → ∀ fault off n, off < 2^32 → n < 2^32 →
      ∃ r out, readi sb fs.vol (fs.inode e).copy fault off n =
          .ok (r, out, (fs.inode e).copy, fs.vol) ∧
        (fault = kernelDst → off ≤ (fs.inode e).copy.size.toNat → off+n < 2^32 →
          r = min n ((fs.inode e).copy.size.toNat - off))) ∧
    (∀ e, fs.Locked e → (fs.inode e).copy = fs.vol.dinode sb (fs.inode e).inum) := by
  have h := inv_run hI hr
  refine ⟨fun inum hi ht => (h.vol.files inum hi ht).noHoles, ?_, fun e he => (h.copy e he).1⟩
  intro e he fault off n hoff hn
  obtain ⟨r, out, heq, hres⟩ := h.readi_eq hI.layout he fault hoff hn
  refine ⟨r, out, heq, ?_⟩
  intro hk hle hnw
  obtain ⟨hout, hlen⟩ := hres (by rw [hk]; intro _ _; rfl)
  rw [if_pos ⟨hle, hnw⟩] at hout
  rw [hlen, hout, List.length_take, List.length_drop, content_length]

def readBack : List Act := twoFiles ++ [.readi 1 kernelDst 11000 500]

theorem no_holes_read_back :
    Run (Step smallSb) (FS.boot smallVol) readBack (after readBack) ∧
    lookup (after readBack).vol ((after readBack).vol.dinode smallSb 2) 11 ≠ 0 ∧
    (∃ out, readi smallSb (after readBack).vol ((after readBack).inode 1).copy kernelDst 11000 500 =
      .ok (265, out, ((after readBack).inode 1).copy, (after readBack).vol)) ∧
    ((after readBack).inode 1).copy = (after readBack).vol.dinode smallSb 2 := by
  have hr : Run (Step smallSb) (FS.boot smallVol) readBack (after readBack) :=
    run_after (by decide +kernel)
  have hl : (after readBack).Locked 1 := by decide +kernel
  have hsize : ((after readBack).inode 1).copy.size.toNat = 11265 := by decide +kernel
  obtain ⟨hholes, hread, hcopy⟩ := no_holes smallImage hr
  have hdinode : ((after readBack).inode 1).copy = (after readBack).vol.dinode smallSb 2 :=
    hcopy 1 hl
  refine ⟨hr, hholes 2 (by decide) (by decide +kernel) 11 ?_, ?_, hdinode⟩
  · rw [← hdinode, hsize]
    decide
  · obtain ⟨r, out, heq, hres⟩ := hread 1 hl kernelDst 11000 500 (by decide) (by decide)
    have hr : r = (265 : Nat) := by
      rw [hres rfl (by rw [hsize]; decide) (by decide), hsize]
      rfl
    rw [hr] at heq
    exact ⟨out, heq⟩

/-- `writei` on a locked inode, with what it does to the table and the disk. -/
def FS.write (sb : Superblock) (fs : FS) (e : Fin ninode) (src : Buf) (off n : Nat) :
    Except String (Int × FS) :=
  (writei sb fs.vol (fs.inode e).inum (fs.inode e).copy src kernelSrc off n).map fun r =>
    (r.1, { fs with vol := r.2.2 }.set e { fs.inode e with copy := r.2.1 })

def FS.bytes (fs : FS) (e : Fin ninode) : List UInt8 := content fs.vol (fs.inode e).copy

structure WriteReq where
  src : Buf
  off : Nat
  n : Nat

/-- A sequence of requests, with the values `writei` returns. -/
def FS.writeAll (sb : Superblock) (e : Fin ninode) : FS → List WriteReq →
    Except String (List Int × FS)
  | fs, [] => .ok ([], fs)
  | fs, w :: ws =>
    match fs.write sb e w.src w.off w.n with
    | .error m => .error m
    | .ok (r, fs) => (fs.writeAll sb e ws).map fun rs => (r :: rs.1, rs.2)

/-- What the requests do to a plain byte array, given the returned values: a refused request
does nothing, and one that returned `r` stores its first `r` bytes. -/
def applyWrites (l : List UInt8) (ws : List WriteReq) (rs : List Int) : List UInt8 :=
  (ws.zip rs).foldl (fun l wr => if wr.2 < 0 then l
    else overwrite l wr.1.off ((List.range wr.2.toNat).map wr.1.src)) l

/-- What one write keeps and does, from any state in order. -/
theorem write_refines (hL : sb.Layout) (h : FsInv sb fs) (he : fs.Locked e) (src : Buf) {off n : Nat}
    (hoff : off < 2^32) (hn : n < 2^32) :
    ∃ r fs', fs.write sb e src off n = .ok (r, fs') ∧ FsInv sb fs' ∧ fs'.Locked e ∧
      (fs'.inode e).inum = (fs.inode e).inum ∧
      (Refused (fs.bytes e).length off n → r = -1 ∧ fs' = fs) ∧
      (¬ Refused (fs.bytes e).length off n → ∃ k : Nat, r = k ∧ k ≤ n ∧
        (k < n → fs'.vol.Full sb) ∧
        (fs'.bytes e).length = max (fs.bytes e).length (off+k) ∧
        fs'.bytes e = overwrite (fs.bytes e) off ((List.range k).map src)) ∧
      (∀ i < sb.ninodes, i ≠ (fs.inode e).inum → (fs.vol.dinode sb i).type ≠ 0 →
        fs'.vol.dinode sb i = fs.vol.dinode sb i ∧
        content fs'.vol (fs'.vol.dinode sb i) = content fs.vol (fs.vol.dinode sb i)) := by
  obtain ⟨hc, ht⟩ := h.copy e he
  have hi := h.inum e he.1
  have ht' : (fs.vol.dinode sb (fs.inode e).inum).type ≠ 0 := hc ▸ ht
  have hlen : (fs.bytes e).length = (fs.inode e).copy.size.toNat := content_length
  unfold FS.write
  by_cases hrej : Refused (fs.bytes e).length off n
  · have heq : writei sb fs.vol (fs.inode e).inum (fs.inode e).copy src kernelSrc off n =
        .ok (-1, (fs.inode e).copy, fs.vol) := writei_reject hoff hn (hlen ▸ hrej)
    rw [heq]
    refine ⟨-1, fs, ?_, h, he, rfl, fun _ => ⟨rfl, rfl⟩, fun hnot => absurd hrej hnot,
      fun i _ _ _ => ⟨rfl, rfl⟩⟩
    simp only [Except.map]
    rw [fs_eta]
  · have hrej' := hrej
    unfold Refused at hrej'
    have hoff' : off ≤ (fs.vol.dinode sb (fs.inode e).inum).size.toNat := by rw [← hc]; omega
    obtain ⟨k, d', v', heq, hk, htouch, hself, htype, hshort, hcont⟩ := writei_call hL h.vol hi ht'
      src kernelSrc hoff' (show off+n ≤ maxfile*bsize by omega)
    obtain ⟨hsize, hbytes⟩ := hcont fun _ _ => rfl
    have hinv : FsInv sb ({ fs with vol := v' }.set e { fs.inode e with copy := d' }) :=
      h.touch he.1 htouch rfl fun _ _ => ⟨hself.symm, htype ▸ ht'⟩
    have hnew : ({ fs with vol := v' }.set e { fs.inode e with copy := d' }).bytes e =
        content v' d' := by simp [FS.bytes, FS.set]
    refine ⟨k, _, by rw [hc, heq]; rfl, hinv, ?_, by simp, fun hr => absurd hr hrej,
      fun _ => ⟨k, rfl, hk, ?_, ?_, ?_⟩, ?_⟩
    · unfold FS.Locked FS.Held
      simp only [inode_set, if_true]
      exact he
    · intro hkn
      refine (hshort hkn).resolve_right ?_
      intro hex
      obtain ⟨t, m, hs⟩ := hex
      cases hs
    · rw [hnew, content_length, hsize, hlen, hc]
    · rw [hnew, hbytes, ← hc]
      rfl
    · intro i hlt hne hti
      have hdin := htouch.dinode i hlt hne
      refine ⟨hdin, ?_⟩
      have : ({ fs with vol := v' }.set e { fs.inode e with copy := d' }).vol = v' := rfl
      rw [this, hdin]
      exact htouch.content i hlt hne hti

theorem writeAll_refines (hL : sb.Layout) (e : Fin ninode) (ws : List WriteReq)
    (hws : ∀ w ∈ ws, w.off < 2^32 ∧ w.n < 2^32) (h : FsInv sb fs) (he : fs.Locked e) :
    ∃ rs fs', fs.writeAll sb e ws = .ok (rs, fs') ∧ FsInv sb fs' ∧ fs'.Locked e ∧
      rs.length = ws.length ∧ fs'.bytes e = applyWrites (fs.bytes e) ws rs := by
  induction ws generalizing fs with
  | nil => exact ⟨[], fs, rfl, h, he, rfl, rfl⟩
  | cons w ws ih =>
    obtain ⟨hoff, hn⟩ := hws w (List.mem_cons_self ..)
    obtain ⟨r, fs1, heq, h1, he1, -, hrej, hacc, -⟩ := write_refines hL h he w.src hoff hn
    obtain ⟨rs, fs', heq', h', he', hlen, hbytes⟩ :=
      ih (fun w' hw' => hws w' (List.mem_cons_of_mem _ hw')) h1 he1
    refine ⟨r :: rs, fs', ?_, h', he', by simp [hlen], ?_⟩
    · unfold FS.writeAll
      rw [heq]
      simp only [heq', Except.map]
    · have hone : fs1.bytes e = if r < 0 then fs.bytes e
          else overwrite (fs.bytes e) w.off ((List.range r.toNat).map w.src) := by
        by_cases hR : Refused (fs.bytes e).length w.off w.n
        · obtain ⟨rfl, rfl⟩ := hrej hR
          simp
        · obtain ⟨k, rfl, -, -, -, hk⟩ := hacc hR
          rw [hk, if_neg (by omega), Int.toNat_natCast]
      rw [hbytes, hone]
      rfl

/-- The file layer refines a map from inodes to byte arrays: for every reachable state and every
locked inode, a write from kernel memory is refused without effect or is an update of its array
by a prefix of the source, whole unless the disk is full, and leaves the other arrays alone; a
read into kernel memory is a slice; and a sequence of writes followed by a read agrees with a
plain array. -/
theorem file_refines_array (hI : Image sb v) {tr : List Act}
    (hr : Run (Step sb) (FS.boot v) tr fs) (he : fs.Locked e) :
    (fs.bytes e).length ≤ maxfile*bsize ∧
    (∀ src off n, off < 2^32 → n < 2^32 → ∃ r fs', fs.write sb e src off n = .ok (r, fs') ∧
      (Refused (fs.bytes e).length off n → r = -1 ∧ fs' = fs) ∧
      (¬ Refused (fs.bytes e).length off n → ∃ k : Nat, r = k ∧ k ≤ n ∧
        (k < n → fs'.vol.Full sb) ∧
        (fs'.bytes e).length = max (fs.bytes e).length (off+k) ∧
        fs'.bytes e = overwrite (fs.bytes e) off ((List.range k).map src)) ∧
      (∀ i < sb.ninodes, i ≠ (fs.inode e).inum → (fs.vol.dinode sb i).type ≠ 0 →
        fs'.vol.dinode sb i = fs.vol.dinode sb i ∧
        content fs'.vol (fs'.vol.dinode sb i) = content fs.vol (fs.vol.dinode sb i))) ∧
    (∀ off n, off < 2^32 → n < 2^32 → ∃ out,
      readi sb fs.vol (fs.inode e).copy kernelDst off n =
        .ok ((out.length : Int), out, (fs.inode e).copy, fs.vol) ∧
      out = if off ≤ (fs.bytes e).length ∧ off+n < 2^32 then ((fs.bytes e).drop off).take n
        else []) ∧
    (∀ ws : List WriteReq, (∀ w ∈ ws, w.off < 2^32 ∧ w.n < 2^32) →
      ∃ rs fs', fs.writeAll sb e ws = .ok (rs, fs') ∧ rs.length = ws.length ∧
        ∀ off n, off < 2^32 → n < 2^32 →
          readi sb fs'.vol (fs'.inode e).copy kernelDst off n =
            .ok (let l := applyWrites (fs.bytes e) ws rs
              let out := if off ≤ l.length ∧ off+n < 2^32 then (l.drop off).take n else []
              ((out.length : Int), out, (fs'.inode e).copy, fs'.vol))) := by
  have h := inv_run hI hr
  have hread : ∀ {fs : FS}, FsInv sb fs → fs.Locked e → ∀ off n, off < 2^32 → n < 2^32 → ∃ out,
      readi sb fs.vol (fs.inode e).copy kernelDst off n =
        .ok ((out.length : Int), out, (fs.inode e).copy, fs.vol) ∧
      out = if off ≤ (fs.bytes e).length ∧ off+n < 2^32 then ((fs.bytes e).drop off).take n
        else [] := by
    intro fs h he off n hoff hn
    obtain ⟨r, out, heq, hres⟩ := h.readi_eq hI.layout he kernelDst hoff hn
    obtain ⟨hout, rfl⟩ := hres fun _ _ => rfl
    refine ⟨out, heq, ?_⟩
    unfold FS.bytes
    rw [content_length]
    exact hout
  refine ⟨?_, ?_, hread h he, ?_⟩
  · obtain ⟨hc, ht⟩ := h.copy e he
    unfold FS.bytes
    rw [content_length, hc]
    exact (h.vol.files _ (h.inum e he.1) (hc ▸ ht)).size
  · intro src off n hoff hn
    obtain ⟨r, fs', heq, -, -, -, hrej, hacc, hother⟩ := write_refines hI.layout h he src hoff hn
    exact ⟨r, fs', heq, hrej, hacc, hother⟩
  · intro ws hws
    obtain ⟨rs, fs', heq, h', he', hlen, hbytes⟩ := writeAll_refines hI.layout e ws hws h he
    refine ⟨rs, fs', heq, hlen, fun off n hoff hn => ?_⟩
    obtain ⟨out, hout, hslice⟩ := hread h' he' off n hoff hn
    rw [hout, hslice, hbytes]

def twoBlocks : List Act := [.ialloc 2, .ilock 0, .writei 0 counting kernelSrc 0 1030]
def abcd : WriteReq := ⟨fun i => UInt8.ofNat (97+i), 1022, 4⟩

theorem file_refines_array_two_blocks :
    Run (Step smallSb) (FS.boot smallVol) twoBlocks (after twoBlocks) ∧
    (∃ fs', (after twoBlocks).write smallSb 0 abcd.src 1031 4 = .ok (-1, fs') ∧
      fs' = after twoBlocks) ∧
    ∃ fs', (after twoBlocks).writeAll smallSb 0 [abcd] = .ok ([4], fs') ∧
      readi smallSb fs'.vol (fs'.inode 0).copy kernelDst 1021 6 =
        .ok (6, [253, 97, 98, 99, 100, 2], (fs'.inode 0).copy, fs'.vol) := by
  have hr : Run (Step smallSb) (FS.boot smallVol) twoBlocks (after twoBlocks) :=
    run_after (by decide +kernel)
  have hlen : ((after twoBlocks).bytes 0).length = 1030 := by decide +kernel
  obtain ⟨-, hwrite, -, hall⟩ :=
    file_refines_array (e := 0) smallImage hr (by decide +kernel)
  refine ⟨hr, ?_, ?_⟩
  · obtain ⟨r, fs', heq, hrej, -⟩ := hwrite abcd.src 1031 4 (by decide) (by decide)
    obtain ⟨rfl, hsame⟩ := hrej (.inl (by rw [hlen]; decide))
    exact ⟨fs', heq, hsame⟩
  · obtain ⟨rs, fs', heq, -, hread⟩ := hall [abcd] (by
      intro w hw
      rw [List.mem_singleton.mp hw]
      decide)
    have hrs : ((after twoBlocks).writeAll smallSb 0 [abcd]).toOption.map Prod.fst = some [4] := by
      decide +kernel
    rw [heq] at hrs
    have hrs : rs = [4] := Option.some.inj hrs
    subst hrs
    refine ⟨fs', heq, ?_⟩
    rw [hread 1021 6 (by decide) (by decide)]
    have hout : ((applyWrites ((after twoBlocks).bytes 0) [abcd] [4]).drop 1021).take 6 =
        [253, 97, 98, 99, 100, 2] := by decide +kernel
    have hfits : 1021 ≤ (applyWrites ((after twoBlocks).bytes 0) [abcd] [4]).length := by
      decide +kernel
    dsimp only
    rw [if_pos ⟨hfits, by decide⟩, hout]
    rfl

end Xv6Labs.Fs
