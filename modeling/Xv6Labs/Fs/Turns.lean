import Xv6Labs.Fs.Reach

/-! The turns of the loops in `readi` and `writei`: with which index each of them calls `bmap`,
and how far it gets. The loops are told again here with their turns on record. -/
namespace Xv6Labs.Fs
open Kit Bytes

/-- One turn: the argument of `bmap`, the counters before the turn, and `m`. -/
structure Turn where
  bn : Nat
  off : Nat
  tot : Nat
  m : Nat

def turnAt (off n tot : Nat) : Turn := ⟨off/bsize, off, tot, chunk off n tot⟩

section Traces
variable (sb : Superblock)

/-- The loop of `readi` with its turns. -/
def readTrace (fault : Nat → Nat → Bool) (n : Nat) : Nat → Vol → Dinode → Nat → Nat →
    List UInt8 → Except String (Int × List UInt8 × Dinode × Vol) × List Turn
  | 0, v, d, _, tot, out => (.ok (tot, out, d, v), [])
  | fuel+1, v, d, off, tot, out =>
    if tot < n then
      match bmap sb v d (off/bsize) with
      | .error e => (.error e, [turnAt off n tot])
      | .ok (addr, d, v) =>
        if addr = 0 then (.ok (tot, out, d, v), [turnAt off n tot])
        else if fault tot (chunk off n tot) then (.ok (-1, out, d, v), [turnAt off n tot])
        else
          let r := readTrace fault n fuel v d (u32 (off + chunk off n tot))
            (u32 (tot + chunk off n tot))
            (out ++ (List.range (chunk off n tot)).map fun k => v.disk addr (off%bsize + k))
          (r.1, turnAt off n tot :: r.2)
    else (.ok (tot, out, d, v), [])

/-- The loop of `writei` with its turns. -/
def writeTrace (src : Buf) (fault : Nat → Nat → Option Nat) (n : Nat) : Nat → Vol → Dinode →
    Nat → Nat → Except String (Nat × Nat × Dinode × Vol) × List Turn
  | 0, v, d, off, tot => (.ok (tot, off, d, v), [])
  | fuel+1, v, d, off, tot =>
    if tot < n then
      match bmap sb v d (off/bsize) with
      | .error e => (.error e, [turnAt off n tot])
      | .ok (addr, d, v) =>
        if addr = 0 then (.ok (tot, off, d, v), [turnAt off n tot])
        else
          match fault tot (chunk off n tot) with
          | some k => (.ok (tot, off, d,
              v.copyin addr (off%bsize) (min k (chunk off n tot)) src tot), [turnAt off n tot])
          | none =>
            let r := writeTrace src fault n fuel
              ((v.copyin addr (off%bsize) (chunk off n tot) src tot).logWrite addr) d
              (u32 (off + chunk off n tot)) (u32 (tot + chunk off n tot))
            (r.1, turnAt off n tot :: r.2)
    else (.ok (tot, off, d, v), [])

/-- `readi` with its turns, the loop allowed that many more of them. -/
def readiTrace (extra : Nat) (v : Vol) (d : Dinode) (fault : Nat → Nat → Bool) (off n : Nat) :
    Except String (Int × List UInt8 × Dinode × Vol) × List Turn :=
  if off > d.size.toNat ∨ u32 (off+n) < off then (.ok (0, [], d, v), [])
  else
    let n := if u32 (off+n) > d.size.toNat then d.size.toNat - off else n
    readTrace sb fault n (n+extra) v d off 0 []

def writeiTrace (extra : Nat) (v : Vol) (inum : Nat) (d : Dinode) (src : Buf)
    (fault : Nat → Nat → Option Nat) (off n : Nat) :
    Except String (Int × Dinode × Vol) × List Turn :=
  if off > d.size.toNat ∨ u32 (off+n) < off then (.ok (-1, d, v), [])
  else if u32 (off+n) > maxfile*bsize then (.ok (-1, d, v), [])
  else
    let r := writeTrace sb src fault n (n+extra) v d off 0
    (r.1.map fun (tot, off, d, v) =>
      let d := if off > d.size.toNat then { d with size := UInt32.ofNat off } else d
      ((tot : Int), d, iupdate sb v inum d), r.2)

end Traces

variable {sb : Superblock} {v : Vol} {d : Dinode} {off n tot : Nat} {out : List UInt8}

/-! Without the record they are the loops of the code. -/

theorem readTrace_fst {fault : Nat → Nat → Bool} (fuel : Nat) :
    (readTrace sb fault n fuel v d off tot out).1 =
      readLoop sb fault n fuel v d off tot out := by
  induction fuel generalizing v d off tot out with
  | zero => rfl
  | succ fuel ih =>
    rw [readTrace, readLoop]
    by_cases hlt : tot < n
    · rw [if_pos hlt, if_pos hlt]
      cases bmap sb v d (off/bsize) with
      | error e => rfl
      | ok r =>
        dsimp only
        rw [apply_ite Prod.fst, apply_ite Prod.fst, ih]
    · rw [if_neg hlt, if_neg hlt]

theorem writeTrace_fst {src : Buf} {fault : Nat → Nat → Option Nat} (fuel : Nat) :
    (writeTrace sb src fault n fuel v d off tot).1 = writeLoop sb src fault n fuel v d off tot := by
  induction fuel generalizing v d off tot with
  | zero => rfl
  | succ fuel ih =>
    rw [writeTrace, writeLoop]
    by_cases hlt : tot < n
    · rw [if_pos hlt, if_pos hlt]
      cases bmap sb v d (off/bsize) with
      | error e => rfl
      | ok r =>
        dsimp only
        rw [apply_ite Prod.fst]
        cases fault tot (chunk off n tot) with
        | some k => rfl
        | none => rw [← ih]
    · rw [if_neg hlt, if_neg hlt]

theorem readiTrace_fst {fault : Nat → Nat → Bool} :
    (readiTrace sb 0 v d fault off n).1 = readi sb v d fault off n := by
  rw [readiTrace, readi, apply_ite Prod.fst]
  dsimp only
  rw [readTrace_fst, Nat.add_zero]

theorem writeiTrace_fst {inum : Nat} {src : Buf} {fault : Nat → Nat → Option Nat} :
    (writeiTrace sb 0 v inum d src fault off n).1 = writei sb v inum d src fault off n := by
  rw [writeiTrace, writei, apply_ite Prod.fst, apply_ite Prod.fst]
  dsimp only
  rw [writeTrace_fst, Nat.add_zero]
  cases writeLoop sb src fault n n v d off 0 <;> rfl

/-! What a turn does. -/

/-- The turns of a loop that stands at `off` and `tot`: each begins where the one before ended,
calls `bmap` inside the map, goes at least one byte on and at most to the end of its block, and
neither counter passes what 32 bits hold or what was asked for. -/
def Proceeds (n : Nat) : Nat → Nat → List Turn → Prop
  | _, _, [] => True
  | off, tot, t :: ts => t.off = off ∧ t.tot = tot ∧ t.bn = off/bsize ∧ t.bn < maxfile ∧
      0 < t.m ∧ off%bsize + t.m ≤ bsize ∧ off + t.m < 2^32 ∧ tot + t.m < 2^32 ∧ tot + t.m ≤ n ∧
      Proceeds n (off + t.m) (tot + t.m) ts

theorem Proceeds.mono {n' : Nat} {ts : List Turn} (h : Proceeds n off tot ts) (hn : n ≤ n') :
    Proceeds n' off tot ts := by
  induction ts generalizing off tot with
  | nil => trivial
  | cons t ts ih =>
    obtain ⟨h1, h2, h3, h4, h5, h6, h7, h8, h9, hrest⟩ := h
    exact ⟨h1, h2, h3, h4, h5, h6, h7, h8, Nat.le_trans h9 hn, ih hrest⟩

/-- The panic of `bmap` is for indices that the map does not have. -/
theorem bmap_ok (sb : Superblock) (v : Vol) (d : Dinode) {bn : Nat} (h : bn < maxfile) :
    ∃ addr d' v', bmap sb v d bn = .ok (addr, d', v') := by
  rw [bmap]
  split
  · exact ⟨_, _, _, rfl⟩
  · split
    · split <;> exact ⟨_, _, _, rfl⟩
    · split
      · split
        · exact ⟨_, _, _, rfl⟩
        · split <;> exact ⟨_, _, _, rfl⟩
      · simp only [maxfile, ndirect, nindirect, ndoublyIndirect] at *
        omega

section Loop
variable (hn : n < 2^32) (hlt : tot < n) (hend : off + (n - tot) ≤ maxfile*bsize)
include hn hlt hend

/-- The bound checked before the loop is a bound for every turn. -/
theorem proceeds_turn {ts : List Turn}
    (hts : Proceeds n (off + chunk off n tot) (tot + chunk off n tot) ts) :
    Proceeds n off tot (turnAt off n tot :: ts) := by
  have hsmall : maxfile*bsize < 2^32 := by decide
  have hpos := chunk_pos off hlt
  have hle := chunk_le off n tot
  have hbn : off/bsize < maxfile := block_lt (by omega)
  exact ⟨rfl, rfl, rfl, hbn, hpos, chunk_block off n tot, (by omega : off + chunk off n tot < 2^32),
    (by omega : tot + chunk off n tot < 2^32), (by omega : tot + chunk off n tot ≤ n), hts⟩

/-- The counters after a turn, which the machine computes exactly, meet the bound again. -/
theorem next_turn : u32 (off + chunk off n tot) = off + chunk off n tot ∧
    u32 (tot + chunk off n tot) = tot + chunk off n tot ∧ tot + chunk off n tot ≤ n ∧
    n - (tot + chunk off n tot) < n - tot ∧
    off + chunk off n tot + (n - (tot + chunk off n tot)) ≤ maxfile*bsize := by
  have hsmall : maxfile*bsize < 2^32 := by decide
  have hpos := chunk_pos off hlt
  have hle := chunk_le off n tot
  refine ⟨u32_of_lt (by omega), u32_of_lt (by omega), ?_, ?_, ?_⟩ <;> omega

end Loop

theorem readTrace_done {fault : Nat → Nat → Bool} (h : ¬ tot < n) (fuel : Nat) :
    readTrace sb fault n fuel v d off tot out = (.ok (tot, out, d, v), []) := by
  cases fuel with
  | zero => rfl
  | succ fuel => rw [readTrace, if_neg h]

theorem writeTrace_done {src : Buf} {fault : Nat → Nat → Option Nat} (h : ¬ tot < n) (fuel : Nat) :
    writeTrace sb src fault n fuel v d off tot = (.ok (tot, off, d, v), []) := by
  cases fuel with
  | zero => rfl
  | succ fuel => rw [writeTrace, if_neg h]

/-- The loop of `readi` from any of its turns: it ends by itself, without a panic, with `-1` for
a failed copy or with `tot ≤ n`. -/
theorem readTrace_spec {fault : Nat → Nat → Bool} (hn : n < 2^32) (fuel : Nat) (htot : tot ≤ n)
    (hfuel : n - tot ≤ fuel) (hend : off + (n - tot) ≤ maxfile*bsize) :
    ∃ r out' d' v' ts, (∀ extra, readTrace sb fault n (fuel+extra) v d off tot out =
        (.ok (r, out', d', v'), ts)) ∧ Proceeds n off tot ts ∧
      (r = -1 ∧ (∃ t m, fault t m) ∨ 0 ≤ r ∧ r ≤ n) := by
  induction fuel generalizing v d off tot out with
  | zero =>
    refine ⟨_, _, _, _, [], fun extra => readTrace_done (by omega) _, trivial, .inr ?_⟩
    omega
  | succ fuel ih =>
    by_cases hlt : tot < n
    · have hbn : off/bsize < maxfile := block_lt (by omega)
      obtain ⟨addr, d1, v1, heq⟩ := bmap_ok sb v d hbn
      have hone : Proceeds n off tot [turnAt off n tot] := proceeds_turn hn hlt hend trivial
      have hstep (extra : Nat) : fuel + 1 + extra = fuel + extra + 1 := by omega
      simp only [hstep, readTrace, if_pos hlt, heq]
      by_cases ha : addr = 0
      · simp only [if_pos ha]
        exact ⟨_, _, _, _, _, fun _ => rfl, hone, .inr (by omega)⟩
      · simp only [if_neg ha]
        by_cases hf : fault tot (chunk off n tot)
        · simp only [if_pos hf]
          exact ⟨_, _, _, _, _, fun _ => rfl, hone, .inl ⟨rfl, _, _, hf⟩⟩
        · simp only [if_neg hf]
          obtain ⟨hoff', htot', hle, hless, hend'⟩ := next_turn hn hlt hend
          rw [hoff', htot']
          obtain ⟨r, out', d', v', ts, hrun, hts, hr⟩ := ih hle (by omega) hend'
          refine ⟨r, out', d', v', turnAt off n tot :: ts, fun extra => ?_,
            proceeds_turn hn hlt hend hts, hr⟩
          rw [hrun extra]
    · refine ⟨_, _, _, _, [], fun extra => readTrace_done hlt _, trivial, .inr ?_⟩
      omega

theorem writeTrace_spec {src : Buf} {fault : Nat → Nat → Option Nat} (hn : n < 2^32) (fuel : Nat)
    (htot : tot ≤ n) (hfuel : n - tot ≤ fuel) (hend : off + (n - tot) ≤ maxfile*bsize) :
    ∃ tot' off' d' v' ts, (∀ extra, writeTrace sb src fault n (fuel+extra) v d off tot =
        (.ok (tot', off', d', v'), ts)) ∧ Proceeds n off tot ts ∧ tot' ≤ n := by
  induction fuel generalizing v d off tot with
  | zero =>
    exact ⟨_, _, _, _, [], fun extra => writeTrace_done (by omega) _, trivial, htot⟩
  | succ fuel ih =>
    by_cases hlt : tot < n
    · have hbn : off/bsize < maxfile := block_lt (by omega)
      obtain ⟨addr, d1, v1, heq⟩ := bmap_ok sb v d hbn
      have hone : Proceeds n off tot [turnAt off n tot] := proceeds_turn hn hlt hend trivial
      have hstep (extra : Nat) : fuel + 1 + extra = fuel + extra + 1 := by omega
      simp only [hstep, writeTrace, if_pos hlt, heq]
      by_cases ha : addr = 0
      · simp only [if_pos ha]
        exact ⟨_, _, _, _, _, fun _ => rfl, hone, htot⟩
      · simp only [if_neg ha]
        cases hf : fault tot (chunk off n tot) with
        | some k => exact ⟨_, _, _, _, _, fun _ => rfl, hone, htot⟩
        | none =>
          obtain ⟨hoff', htot', hle, hless, hend'⟩ := next_turn hn hlt hend
          simp only [hoff', htot']
          obtain ⟨t', off', d', v', ts, hrun, hts, ht'⟩ := ih hle (by omega) hend'
          refine ⟨t', off', d', v', turnAt off n tot :: ts, fun extra => ?_,
            proceeds_turn hn hlt hend hts, ht'⟩
          rw [hrun extra]
    · exact ⟨_, _, _, _, [], fun extra => writeTrace_done hlt _, trivial, htot⟩

/-! The calls. -/

/-- `readi` never asks for a block past the size of the file. -/
theorem readiTrace_spec (sb : Superblock) (v : Vol) (fault : Nat → Nat → Bool)
    (hsize : d.size.toNat ≤ maxfile*bsize) (hoff : off < 2^32) (hn : n < 2^32) :
    ∃ r out d' v' ts, (∀ extra, readiTrace sb extra v d fault off n =
        (.ok (r, out, d', v'), ts)) ∧ Proceeds n off 0 ts ∧
      (r = -1 ∧ (∃ t m, fault t m) ∨ 0 ≤ r ∧ r ≤ n) := by
  by_cases hguard : off > d.size.toNat ∨ u32 (off+n) < off
  · simp only [readiTrace, if_pos hguard]
    exact ⟨_, _, _, _, [], fun _ => rfl, trivial, .inr (by omega)⟩
  · simp only [readiTrace, if_neg hguard]
    rw [wraps_iff hoff hn] at hguard
    rw [u32_of_lt (show off+n < 2^32 by omega)]
    generalize hlen : (if off+n > d.size.toNat then d.size.toNat - off else n) = len
    have hle : len ≤ n ∧ off + len ≤ d.size.toNat := by
      rw [← hlen]
      split <;> omega
    obtain ⟨r, out, d', v', ts, hrun, hts, hr⟩ := @readTrace_spec sb v d off len 0 [] fault
      (by omega) len (Nat.zero_le _) (Nat.le_refl _) (by omega)
    refine ⟨r, out, d', v', ts, hrun, hts.mono hle.1, hr.imp id fun h => ⟨h.1, ?_⟩⟩
    omega

/-- `writei` refuses what would reach past the last block of the map. -/
theorem writeiTrace_spec (sb : Superblock) (v : Vol) (inum : Nat) (d : Dinode) (src : Buf)
    (fault : Nat → Nat → Option Nat) (hoff : off < 2^32) (hn : n < 2^32) :
    ∃ r d' v' ts, (∀ extra, writeiTrace sb extra v inum d src fault off n =
        (.ok (r, d', v'), ts)) ∧ Proceeds n off 0 ts ∧ (r = -1 ∧ ts = [] ∨ 0 ≤ r ∧ r ≤ n) := by
  by_cases hguard : off > d.size.toNat ∨ u32 (off+n) < off
  · simp only [writeiTrace, if_pos hguard]
    exact ⟨_, _, _, [], fun _ => rfl, trivial, .inl ⟨rfl, rfl⟩⟩
  · simp only [writeiTrace, if_neg hguard]
    by_cases hbig : u32 (off+n) > maxfile*bsize
    · simp only [if_pos hbig]
      exact ⟨_, _, _, [], fun _ => rfl, trivial, .inl ⟨rfl, rfl⟩⟩
    · simp only [if_neg hbig]
      rw [wraps_iff hoff hn] at hguard
      rw [u32_of_lt (show off+n < 2^32 by omega)] at hbig
      obtain ⟨tot, off', d', v', ts, hrun, hts, htot⟩ := @writeTrace_spec sb v d off n 0 src fault
        hn n (Nat.zero_le _) (Nat.le_refl _) (by omega)
      simp only [hrun]
      exact ⟨_, _, _, ts, fun _ => rfl, hts, .inr (by omega)⟩

/-- The panic of `bmap` is out of reach: in every state of every run from an image in order no
file is longer than the map, and every `readi` and every `writei` on an inode in use, whatever
its arguments, stays in the map with each of its turns and returns. -/
theorem bmap_panic_unreachable (hI : Image sb v) {tr : List Act} {fs : FS}
    (hr : Run (Step sb) (FS.boot v) tr fs) :
    (∀ i < sb.ninodes, (fs.vol.dinode sb i).type ≠ 0 →
      (fs.vol.dinode sb i).size.toNat ≤ maxfile*bsize) ∧
    ∀ e, fs.Locked e → (fs.inode e).copy.size.toNat ≤ maxfile*bsize ∧ ∀ off n : UInt32,
      (∀ fault, ∃ r out d' v' ts,
        readi sb fs.vol (fs.inode e).copy fault off.toNat n.toNat = .ok (r, out, d', v') ∧
        (∀ extra, readiTrace sb extra fs.vol (fs.inode e).copy fault off.toNat n.toNat =
          (.ok (r, out, d', v'), ts)) ∧ Proceeds n.toNat off.toNat 0 ts ∧
        (r = -1 ∧ (∃ t m, fault t m) ∨ 0 ≤ r ∧ r ≤ n.toNat)) ∧
      ∀ src fault, ∃ r d' v' ts,
        writei sb fs.vol (fs.inode e).inum (fs.inode e).copy src fault off.toNat n.toNat =
          .ok (r, d', v') ∧
        (∀ extra, writeiTrace sb extra fs.vol (fs.inode e).inum (fs.inode e).copy src fault
          off.toNat n.toNat = (.ok (r, d', v'), ts)) ∧ Proceeds n.toNat off.toNat 0 ts ∧
        (r = -1 ∧ ts = [] ∨ 0 ≤ r ∧ r ≤ n.toNat) := by
  have h := inv_run hI hr
  have hfiles : ∀ i < sb.ninodes, (fs.vol.dinode sb i).type ≠ 0 →
      (fs.vol.dinode sb i).size.toNat ≤ maxfile*bsize := fun i hi ht => (h.vol.files i hi ht).size
  refine ⟨hfiles, ?_⟩
  intro e he
  obtain ⟨hc, ht⟩ := h.copy e he
  have hsize : (fs.inode e).copy.size.toNat ≤ maxfile*bsize := by
    rw [hc] at ht ⊢
    exact hfiles _ (h.inum e he.1) ht
  refine ⟨hsize, fun off n => ⟨?_, ?_⟩⟩
  · intro fault
    obtain ⟨r, out, d', v', ts, hrun, hts, hres⟩ :=
      readiTrace_spec sb fs.vol fault hsize off.toNat_lt n.toNat_lt
    refine ⟨r, out, d', v', ts, ?_, hrun, hts, hres⟩
    rw [← readiTrace_fst, hrun 0]
  · intro src fault
    obtain ⟨r, d', v', ts, hrun, hts, hres⟩ := writeiTrace_spec sb fs.vol (fs.inode e).inum
      (fs.inode e).copy src fault off.toNat_lt n.toNat_lt
    refine ⟨r, d', v', ts, ?_, hrun, hts, hres⟩
    rw [← writeiTrace_fst, hrun 0]

/-- A read and a write of many turns, and a read and a write whose arguments add up to more than 32
bits hold. -/
theorem bmap_panic_unreachable_two_files :
    Run (Step smallSb) (FS.boot smallVol) twoFiles (after twoFiles) ∧ (after twoFiles).Locked 1 ∧
    (∃ out d' v', readi smallSb (after twoFiles).vol ((after twoFiles).inode 1).copy kernelDst 100
      11000 = .ok (11000, out, d', v')) ∧
    (∃ d' v', writei smallSb (after twoFiles).vol ((after twoFiles).inode 1).inum
      ((after twoFiles).inode 1).copy counting kernelSrc 11000 2000 = .ok (2000, d', v')) ∧
    (∃ r out d' v', readi smallSb (after twoFiles).vol ((after twoFiles).inode 1).copy kernelDst
      4294967295 4294967295 = .ok (r, out, d', v')) ∧
    ∃ r d' v', writei smallSb (after twoFiles).vol ((after twoFiles).inode 1).inum
      ((after twoFiles).inode 1).copy counting kernelSrc 4294967295 4294967295 = .ok (r, d', v') := by
  have hr : Run (Step smallSb) (FS.boot smallVol) twoFiles (after twoFiles) :=
    run_after (by decide +kernel)
  have hlock : (after twoFiles).Locked 1 := by decide +kernel
  have hl := ((bmap_panic_unreachable smallImage hr).2 1 hlock).2
  refine ⟨hr, hlock, ?_, ?_, ?_, ?_⟩
  · obtain ⟨r, out, d', v', -, hread, -⟩ := (hl 100 11000).1 kernelDst
    have hres : (readi smallSb (after twoFiles).vol ((after twoFiles).inode 1).copy kernelDst 100
        11000).toOption.map Prod.fst = some 11000 := by decide +kernel
    have hread : readi smallSb (after twoFiles).vol ((after twoFiles).inode 1).copy kernelDst 100
      11000 = .ok (r, out, d', v') := hread
    rw [hread] at hres
    cases hres
    exact ⟨out, d', v', hread⟩
  · obtain ⟨r, d', v', -, hwrite, -⟩ := (hl 11000 2000).2 counting kernelSrc
    have hres : (writei smallSb (after twoFiles).vol ((after twoFiles).inode 1).inum
        ((after twoFiles).inode 1).copy counting kernelSrc 11000 2000).toOption.map Prod.fst =
        some 2000 := by decide +kernel
    have hwrite : writei smallSb (after twoFiles).vol ((after twoFiles).inode 1).inum
        ((after twoFiles).inode 1).copy counting kernelSrc 11000 2000 = .ok (r, d', v') := hwrite
    rw [hwrite] at hres
    cases hres
    exact ⟨d', v', hwrite⟩
  · obtain ⟨r, out, d', v', -, hread, -⟩ := (hl 4294967295 4294967295).1 kernelDst
    exact ⟨r, out, d', v', hread⟩
  · obtain ⟨r, d', v', -, hwrite, -⟩ := (hl 4294967295 4294967295).2 counting kernelSrc
    exact ⟨r, d', v', hwrite⟩

end Xv6Labs.Fs
