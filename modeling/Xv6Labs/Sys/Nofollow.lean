import Xv6Labs.Sys.Symlink

/-! `O_NOFOLLOW` for a path that names no link: two runs of `sys_open` that differ in the flag. -/
namespace Xv6Labs.Sys
open Kit Fs

section
variable {s s0 t t1 t2 : State} {nd : Nat → Node} {n ip : Nat} {path : Arg} {omode : UInt32}

/-- The flag shows in no other bit. -/
theorem nofollow_and {mask : UInt32} (h : oNofollow &&& mask = 0) :
    (omode ||| oNofollow) &&& mask = omode &&& mask := by
  apply UInt32.toBitVec_inj.mp
  have hb := congrArg UInt32.toBitVec h
  rw [UInt32.toBitVec_and] at hb
  rw [UInt32.toBitVec_and, UInt32.toBitVec_or, UInt32.toBitVec_and, BitVec.and_or_distrib_right, hb]
  exact BitVec.or_zero

theorem nofollow_ne_zero : omode ||| oNofollow ≠ 0 := by
  intro h
  have hb := congrArg UInt32.toBitVec h
  rw [UInt32.toBitVec_or] at hb
  exact absurd (BitVec.or_eq_zero_iff.mp hb).2 (by decide)

theorem openFile_nofollow : openFile ip (omode ||| oNofollow) = openFile ip omode := by
  have hfill : ∀ (x : File) (d : Node),
      x.opened d ip (omode ||| oNofollow) = x.opened d ip omode := by
    intro x d
    unfold File.opened
    rw [nofollow_and (by decide), nofollow_and (by decide)]
  have htrunc : ∀ d : Node,
      onlyIf ((omode ||| oNofollow) &&& oTrunc ≠ 0 ∧ d.type = tFile) (itrunc ip) =
        onlyIf (omode &&& oTrunc ≠ 0 ∧ d.type = tFile) (itrunc ip) := by
    intro d
    have hbit : (omode ||| oNofollow) &&& oTrunc = omode &&& oTrunc := nofollow_and (by decide)
    unfold onlyIf
    rw [hbit]
  unfold openFile
  simp only [hfill, htrunc]

/-- The inode to open, where the path names `ip` and this is no link. -/
theorem openInode_plain {omode : UInt32} (hcr : omode &&& oCreate = 0)
    (hx : namei path.str t = .ok (some ip, t1)) (hl : ilock ip t1 = .ok ((), t2))
    (hat : At s0 nd [ip] [ip] n t2) (hplain : (nd ip).type ≠ tSymlink) :
    openInode path omode t =
      if (nd ip).type = tDir ∧ omode ≠ 0 then (do iunlockput ip; pure none : K _) t2
      else .ok (some ip, t2) := by
  unfold openInode
  rw [if_neg (not_not.mpr hcr), bind_of_ok hx]
  dsimp only
  rw [bind_of_ok hl, hat.inode]
  unfold openLink
  rw [if_neg fun hc => hplain hc.1]
  change openCheck omode (some (ip, 0)) t2 = _
  simp only [openCheck]
  rw [if_neg (by decide : ¬ 10 ≤ 0), hat.inode]
  split
  · rfl
  · rfl

/-- The two runs find the same inode, unless the mode was `O_RDONLY` and the path names a
directory. -/
theorem openInode_nofollow (h : Coherent s)
    (hplain : ∀ i, Names s path.str i → (s.node i).type ≠ tSymlink)
    (hdir : omode = 0 → ∀ d, Names s path.str d → (s.node d).type ≠ tDir) :
    openInode path (omode ||| oNofollow) s.begun = openInode path omode s.begun := by
  have hbit : (omode ||| oNofollow) &&& oCreate = omode &&& oCreate := nofollow_and (by decide)
  have hat : At s.begun s.node [] [] 0 s.begun := h.idle.beginOp (u := ()) rfl
  by_cases hcr : omode &&& oCreate = 0
  · cases hx : namei path.str s.begun with
    | error e =>
      unfold openInode
      rw [hbit, if_neg (not_not.mpr hcr), if_neg (not_not.mpr hcr), bind_of_error hx,
        bind_of_error hx]
    | ok p =>
      obtain ⟨x, t1⟩ := p
      cases x with
      | none =>
        unfold openInode
        rw [hbit, if_neg (not_not.mpr hcr), if_neg (not_not.mpr hcr), bind_of_ok hx, bind_of_ok hx]
      | some ip =>
        have hn : Names s path.str ip := ⟨t1, hx⟩
        obtain ⟨-, ht1⟩ := hat.namei h.quiet hx
        cases hl : ilock ip t1 with
        | error e =>
          unfold openInode
          rw [hbit, if_neg (not_not.mpr hcr), if_neg (not_not.mpr hcr), bind_of_ok hx,
            bind_of_ok hx]
          dsimp only
          rw [bind_of_error hl, bind_of_error hl]
        | ok q =>
          obtain ⟨_, t2⟩ := q
          obtain ⟨ht2, -⟩ := ht1.ilock hl
          rw [openInode_plain (hbit.trans hcr) hx hl ht2 (hplain ip hn),
            openInode_plain hcr hx hl ht2 (hplain ip hn)]
          by_cases hd : (s.node ip).type = tDir
          · rw [if_pos ⟨hd, nofollow_ne_zero⟩, if_pos ⟨hd, fun hz => hdir hz ip hn hd⟩]
          · rw [if_neg fun hc => hd hc.1, if_neg fun hc => hd hc.1]
  · unfold openInode
    rw [hbit, if_pos hcr, if_pos hcr]

/-- A directory is opened with `O_RDONLY` and no flag, and given up else. -/
theorem sysOpen_dir (h : Coherent s) {d : Nat} (hn : Names s path.str d)
    (hd : (s.node d).type = tDir) :
    ∃ t, At s.begun s.node [d] [d] 0 t ∧
      sysOpen (some path) 0 s = openFile d 0 t ∧
      sysOpen (some path) oNofollow s = openFail d t := by
  have hat : At s.begun s.node [] [] 0 s.begun := h.idle.beginOp (u := ()) rfl
  obtain ⟨t1, hx⟩ := hn
  obtain ⟨-, ht1⟩ := hat.namei h.quiet hx
  obtain ⟨t2, hl⟩ := ht1.ilock_ok (by rw [hd]; exact tDir_ne_zero)
  obtain ⟨ht2, -⟩ := ht1.ilock hl
  have hplain : (s.node d).type ≠ tSymlink := by
    rw [hd]
    decide
  have hb : beginOp s = .ok ((), s.begun) := rfl
  have hkept : openInode path 0 s.begun = .ok (some d, t2) := by
    rw [openInode_plain (by decide) hx hl ht2 hplain, if_neg fun hc => hc.2 rfl]
  obtain ⟨t3, hput⟩ := ht2.iunlockput_ok
  have hgiven : openInode path oNofollow s.begun = .ok (none, t3) := by
    rw [openInode_plain (by decide) hx hl ht2 hplain, if_pos ⟨hd, by decide⟩, bind_of_ok hput]
    rfl
  refine ⟨t2, ht2, ?_, ?_⟩
  · dsimp only [sysOpen]
    rw [bind_of_ok hb, bind_of_ok hkept]
  · dsimp only [sysOpen]
    rw [bind_of_ok hb, bind_of_ok hgiven]
    unfold openFail
    rw [bind_of_ok hput]

/-- Without a free file or descriptor an open gives up its inode and leaves no file behind. -/
theorem At.openFile_full (h : At s.begun nd [ip] [ip] n t)
    (hfiles : ∀ f, (s.ftable f).ref = 0 → (s.ftable f).type = .none)
    (hdev : (nd ip).type ≠ tDevice)
    (hfull : (∀ f < nfile, (s.ftable f).ref ≠ 0) ∨ ∀ fd < nofile, s.myproc.ofile fd ≠ none) :
    Sys.openFile ip omode t = Sys.openFail ip t := by
  have hft : t.ftable = s.ftable := h.ftable
  have hpr : t.proc = s.proc := h.proc
  have hcur : t.cur = s.cur := h.cur
  unfold Sys.openFile
  rw [h.inode, if_neg fun hc => hdev hc.1]
  obtain ⟨halloc, -⟩ | ⟨f, hfn, hf0, halloc⟩ := filealloc_cases t
  · rw [bind_of_ok halloc]
  · rw [bind_of_ok halloc]
    rw [hft] at hf0
    have hmy : (t.setFile f { t.ftable f with ref := 1 }).myproc = s.myproc := by
      change t.proc t.cur = s.proc s.cur
      rw [hpr, hcur]
    have hno : ∀ fd < nofile, s.myproc.ofile fd ≠ none :=
      hfull.resolve_left fun hno => hno f hfn hf0
    have hclose : fileclose f (t.setFile f { t.ftable f with ref := 1 }) = .ok ((), t) :=
      fileclose_allocated (by rw [hft]; exact hf0) (by rw [hft]; exact hfiles f hf0)
    dsimp only
    obtain ⟨hfd, -⟩ | ⟨fd, hfdn, hfd0, -⟩ :=
      fdalloc_cases f (t.setFile f { t.ftable f with ref := 1 })
    · rw [bind_of_ok hfd]
      dsimp only
      rw [bind_of_ok hclose]
    · rw [hmy] at hfd0
      exact absurd hfd0 (hno fd hfdn)

/-- For a path that names no link the flag changes nothing, except that a directory can no longer
be opened with `O_RDONLY`. -/
theorem nofollow_same_iff (h : Coherent s)
    (hplain : ∀ i, Names s path.str i → (s.node i).type ≠ tSymlink) :
    sysOpen (some path) (omode ||| oNofollow) s = sysOpen (some path) omode s ↔
      ¬ (omode = 0 ∧ (∃ d, Names s path.str d ∧ (s.node d).type = tDir) ∧
        (∃ f < nfile, (s.ftable f).ref = 0) ∧ ∃ fd < nofile, s.myproc.ofile fd = none) := by
  by_cases hdir : omode = 0 ∧ ∃ d, Names s path.str d ∧ (s.node d).type = tDir
  · obtain ⟨rfl, d, hn, hd⟩ := hdir
    obtain ⟨t, hat, hopen, hgive⟩ := sysOpen_dir h hn hd
    have hdev : (s.node d).type ≠ tDevice := by
      rw [hd]
      decide
    have hd0 : (s.node d).type ≠ 0 := by
      rw [hd]
      exact tDir_ne_zero
    rw [UInt32.zero_or, hopen, hgive]
    constructor
    · rintro heq ⟨-, -, ⟨f, hf, hf0⟩, fd, hfd, hfd0⟩
      -- The first run gives up the directory, so the second has found no file or descriptor.
      obtain ⟨t1, hput⟩ := hat.iunlockput_ok
      have hfail : openFile d 0 t = .ok (-1, { t1 with ops := t1.ops - 1 }) := by
        rw [← heq]
        unfold openFail
        rw [bind_of_ok hput]
        rfl
      cases hat.openFile h.quiet hd0 h.files hfail with
      | inl hno =>
        rcases hno.2.1 with hbad | hnofile | hnofd
        · exact hdev hbad.1
        · exact hnofile f hf hf0
        · exact hnofd fd hfd hfd0
      | inr hyes =>
        obtain ⟨f, fd, hfd, -⟩ := hyes
        omega
    · intro hno
      refine (hat.openFile_full h.files hdev ?_).symm
      by_contra hfree
      push Not at hfree
      exact hno ⟨rfl, ⟨d, hn, hd⟩, hfree.1, hfree.2⟩
  · constructor
    · rintro - ⟨hz, hd, -⟩
      exact hdir ⟨hz, hd⟩
    · intro _
      have hsame : openInode path (omode ||| oNofollow) s.begun = openInode path omode s.begun :=
        openInode_nofollow h hplain fun hz d hn hd => hdir ⟨hz, d, hn, hd⟩
      have hb : beginOp s = .ok ((), s.begun) := rfl
      dsimp only [sysOpen]
      rw [bind_of_ok hb, bind_of_ok hb]
      cases hx : openInode path omode s.begun with
      | error e =>
        rw [hx] at hsame
        rw [bind_of_error hx, bind_of_error hsame]
      | ok p =>
        rw [hx] at hsame
        rw [bind_of_ok hx, bind_of_ok hsame]
        cases p.1 with
        | none => rfl
        | some ip =>
          dsimp only
          rw [openFile_nofollow]

end

/-- A file that was created, and is open still. -/
def madeA : State := (Call.open (some nameA) (oCreate ||| oRdwr)).after (newFs.sched 0)

theorem nofollow_same_file :
    sysOpen (some nameA) (oRdwr ||| oNofollow) madeA = sysOpen (some nameA) oRdwr madeA ∧
    ∃ s', sysOpen (some nameA) oRdwr madeA = .ok (1, s') := by
  have hcall : CallStep newFs (0, .open (some nameA) (oCreate ||| oRdwr)) madeA :=
    ⟨0, Call.exec_eq (by decide +kernel)⟩
  have hs : Sound madeA := (sound_step_iff newFs_sound hcall).mpr trivial
  have hname : Names madeA nameA.str 2 := ok_of_fst (by decide +kernel)
  refine ⟨(nofollow_same_iff hs.coherent ?_).mpr ?_, ok_of_fst (by decide +kernel)⟩
  · intro i hi
    rw [hi.unique hname]
    decide +kernel
  · rintro ⟨hz, -⟩
    exact absurd hz (by decide)

/-- `open("/.", O_RDONLY)` opens the root, and fails with `O_NOFOLLOW`. -/
theorem nofollow_refuses_root : Coherent newFs ∧ Names newFs rootDot.str rootino ∧
    (newFs.node rootino).type = tDir ∧
    (sysOpen (some rootDot) 0 newFs).map Prod.fst = .ok 0 ∧
    (sysOpen (some rootDot) (0 ||| oNofollow) newFs).map Prod.fst = .ok (-1) :=
  ⟨newFs_sound.coherent, ⟨_, rfl⟩, rfl, rfl, rfl⟩

end Xv6Labs.Sys
