import Xv6Labs.Sys.Calls

/-! What `sys_open` leaves behind: one reference, one open file and one descriptor, or nothing. -/
namespace Xv6Labs.Sys
open Kit Fs

section
variable {s0 s s' : State} {nd : Nat → Node} {hs ls : List Nat} {n ip dp i N : Nat}
  {ref : Nat → Nat} {r : Int}

/-- The loop over links trades the locked link for the locked inode it ends at. -/
theorem At.follow {fuel count : Nat} {buf : List UInt8} (h : At s0 nd [ip] [ip] n s)
    (hq : Quiet s0.ref nd) (hip : (nd ip).type ≠ 0) {x : Option (Nat × Nat)}
    (hr : follow fuel count buf ip s = .ok (x, s')) :
    (x = none ∧ At s0 nd [] [] n s') ∨
    ∃ ip' count', x = some (ip', count') ∧ (nd ip').type ≠ 0 ∧
      ((nd ip').type = tSymlink → count + fuel ≤ count') ∧ At s0 nd [ip'] [ip'] n s' := by
  induction fuel generalizing count buf ip s with
  | zero =>
    obtain ⟨rfl, rfl⟩ := pure_ok hr
    exact .inr ⟨ip, count, rfl, hip, fun _ => le_rfl, h⟩
  | succ fuel ih =>
    unfold Sys.follow at hr
    rw [h.inode] at hr
    split at hr
    · obtain ⟨b, s1, h1, hr⟩ := bind_ok hr
      have hs1 : s1 = s := by
        unfold readi at h1
        cases h1
        rfl
      rw [hs1] at hr
      split at hr
      · obtain ⟨_, s2, h2, hr⟩ := bind_ok hr
        obtain ⟨rfl, rfl⟩ := pure_ok hr
        exact .inl ⟨rfl, h.iunlockput List.not_mem_nil (hq.held hip) h2⟩
      · obtain ⟨_, s2, h2, hr⟩ := bind_ok hr
        have h := h.iunlockput List.not_mem_nil (hq.held hip) h2
        obtain ⟨y, s3, h3, hr⟩ := bind_ok hr
        obtain ⟨-, h⟩ := h.namei hq h3
        cases y with
        | none =>
          obtain ⟨rfl, rfl⟩ := pure_ok hr
          exact .inl ⟨rfl, h⟩
        | some ip1 =>
          dsimp only at hr
          obtain ⟨_, s4, h4, hr⟩ := bind_ok hr
          obtain ⟨h, -, hip1⟩ := h.ilock h4
          cases ih h hip1 hr with
          | inl hnone => exact .inl hnone
          | inr hsome =>
            obtain ⟨ip', count', hx, ht, hle, h⟩ := hsome
            refine .inr ⟨ip', count', hx, ht, fun hl => ?_, h⟩
            have := hle hl
            omega
    · rename_i hl
      obtain ⟨rfl, rfl⟩ := pure_ok hr
      exact .inr ⟨ip, count, rfl, hip, fun he => absurd he hl, h⟩

/-- What the lookup half of `sys_open` leaves: nothing, or a locked inode in use that is a link
only where links are not followed. -/
def Locks (s0 : State) (nd : Nat → Node) (n : Nat) (omode : UInt32) (x : Option Nat)
    (s : State) : Prop :=
  (x = none ∧ At s0 nd [] [] n s) ∨
  ∃ ip, x = some ip ∧ (nd ip).type ≠ 0 ∧ ((nd ip).type = tSymlink → omode &&& oNofollow ≠ 0) ∧
    At s0 nd [ip] [ip] n s

/-- The same before the check on the number of links. -/
def Follows (s0 : State) (nd : Nat → Node) (n : Nat) (omode : UInt32) (z : Option (Nat × Nat))
    (s : State) : Prop :=
  (z = none ∧ At s0 nd [] [] n s) ∨
  ∃ ip count, z = some (ip, count) ∧ (nd ip).type ≠ 0 ∧
    ((nd ip).type = tSymlink → omode &&& oNofollow ≠ 0 ∨ 10 ≤ count) ∧ At s0 nd [ip] [ip] n s

theorem At.openCheck {omode : UInt32} {z : Option (Nat × Nat)} (hq : Quiet s0.ref nd)
    (h : Follows s0 nd n omode z s) {x : Option Nat}
    (hr : openCheck omode z s = .ok (x, s')) : Locks s0 nd n omode x s' := by
  cases h with
  | inl hnone =>
    obtain ⟨rfl, hat⟩ := hnone
    obtain ⟨rfl, rfl⟩ := pure_ok hr
    exact .inl ⟨rfl, hat⟩
  | inr hsome =>
    obtain ⟨ip, count, rfl, hip, hlink, hat⟩ := hsome
    simp only [Sys.openCheck] at hr
    split at hr
    · obtain ⟨_, s1, h1, hr⟩ := bind_ok hr
      obtain ⟨rfl, rfl⟩ := pure_ok hr
      exact .inl ⟨rfl, hat.iunlockput List.not_mem_nil (hq.held hip) h1⟩
    · rename_i hcount
      rw [hat.inode] at hr
      split at hr
      · obtain ⟨_, s1, h1, hr⟩ := bind_ok hr
        obtain ⟨rfl, rfl⟩ := pure_ok hr
        exact .inl ⟨rfl, hat.iunlockput List.not_mem_nil (hq.held hip) h1⟩
      · obtain ⟨rfl, rfl⟩ := pure_ok hr
        exact .inr ⟨ip, rfl, hip, fun hl => (hlink hl).resolve_right hcount, hat⟩

theorem At.openLink {path : Arg} {omode : UInt32} (h : At s0 nd [ip] [ip] n s)
    (hq : Quiet s0.ref nd) (hip : (nd ip).type ≠ 0) {z : Option (Nat × Nat)}
    (hr : openLink path omode ip (nd ip).type s = .ok (z, s')) : Follows s0 nd n omode z s' := by
  unfold Sys.openLink at hr
  split at hr
  · cases h.follow hq hip hr with
    | inl hnone => exact .inl hnone
    | inr hsome =>
      obtain ⟨ip', count', rfl, ht, hl, hat⟩ := hsome
      refine .inr ⟨ip', count', rfl, ht, fun he => .inr ?_, hat⟩
      have := hl he
      omega
  · rename_i hno
    obtain ⟨rfl, rfl⟩ := pure_ok hr
    exact .inr ⟨ip, 0, rfl, hip, fun he => .inl fun hz => hno ⟨he, hz⟩, h⟩

theorem At.openLookup {path : Arg} {omode : UInt32} (h : At s0 nd [] [] n s)
    (hq : Quiet s0.ref nd) (hcr : ¬ omode &&& oCreate ≠ 0) {x : Option Nat}
    (hr : openInode path omode s = .ok (x, s')) : Locks s0 nd n omode x s' := by
  unfold Sys.openInode at hr
  rw [if_neg hcr] at hr
  obtain ⟨y, s1, h1, hr⟩ := bind_ok hr
  obtain ⟨-, hat⟩ := h.namei hq h1
  cases y with
  | none =>
    obtain ⟨rfl, rfl⟩ := pure_ok hr
    exact .inl ⟨rfl, hat⟩
  | some ip =>
    dsimp only at hr
    obtain ⟨_, s2, h2, hr⟩ := bind_ok hr
    obtain ⟨hat, -, hip⟩ := hat.ilock h2
    rw [hat.inode] at hr
    obtain ⟨z, s3, h3, hr⟩ := bind_ok hr
    exact At.openCheck hq (hat.openLink hq hip h3) hr

/-- The inodes when `sys_open` has found the inode `ip`: as they were, or with `ip` made for the
path. -/
def Found (s : State) (path : Arg) (ip : Nat) (nd : Nat → Node) : Prop :=
  nd = s.node ∨ ∃ dp name k, Missing s.begun s.node path.str dp name ∧ (s.node ip).type = 0 ∧
    0 < ip ∧ ip < s.ninodes ∧ Vacant (s.node dp).data k ∧
    nd = created s.node dp k ip name tFile 0 0

/-- The inode to open is found and locked, or everything is given back. -/
theorem Coherent.openInode {path : Arg} {omode : UInt32} (h : Coherent s)
    (hat : At s.begun s.node [] [] 0 s0) {x : Option Nat}
    (hr : openInode path omode s0 = .ok (x, s')) :
    ∃ n nd, (x = none ∧ Undone s.node nd ∧ At s.begun nd [] [] n s') ∨
      ∃ ip, Found s path ip nd ∧ Quiet s.ref nd ∧ x = some ip ∧ (nd ip).type ≠ 0 ∧
        ((nd ip).type = tSymlink → omode &&& oNofollow ≠ 0) ∧ At s.begun nd [ip] [ip] n s' := by
  by_cases hcr : omode &&& oCreate ≠ 0
  · unfold Sys.openInode at hr
    rw [if_pos hcr] at hr
    have hne : tFile ≠ 0 := by decide
    cases h.create hat hne (by decide) hr with
    | inl hfail =>
      obtain ⟨rfl, n, nd, hu, -, hat⟩ := hfail
      exact ⟨n, nd, .inl ⟨rfl, hu, hat⟩⟩
    | inr hc =>
      cases hc with
      | inl hold =>
        obtain ⟨ip, rfl, -, hip, -, hkind, hat⟩ := hold
        -- With `T_FILE` only files and devices are accepted.
        have hleaf : (s.node ip).type ≠ tSymlink := by
          intro he
          rw [he] at hkind
          exact absurd hkind (by unfold Accepts; decide)
        exact ⟨0, s.node, .inr ⟨ip, .inl rfl, h.quiet, rfl, hip, fun he => absurd he hleaf, hat⟩⟩
      | inr hnew =>
        obtain ⟨ip, dp, name, k, rfl, hm, hip, h0, hi, hv, -, hat⟩ := hnew
        have hdp0 : (s.node dp).type ≠ 0 := by
          rw [hm.dir]
          exact tDir_ne_zero
        have hself : created s.node dp k ip name tFile 0 0 ip = newNode dp ip tFile 0 0 :=
          created_self (hm.ne hip)
        have hq : Quiet s.ref (created s.node dp k ip name tFile 0 0) :=
          h.quiet.created hdp0 (hm.ne hip) fun he => absurd he (by decide)
        refine ⟨1, _, .inr ⟨ip, .inr ⟨dp, name, k, hm, hip, h0, hi, hv, rfl⟩, hq, rfl, ?_, ?_, hat⟩⟩
        · rw [hself]
          exact hne
        · rw [hself]
          exact fun he => absurd he (by decide : tFile ≠ tSymlink)
  · cases hat.openLookup h.quiet hcr hr with
    | inl hnone =>
      obtain ⟨rfl, hat⟩ := hnone
      exact ⟨0, s.node, .inl ⟨rfl, .refl _, hat⟩⟩
    | inr hsome =>
      obtain ⟨ip, rfl, hip, hl, hat⟩ := hsome
      exact ⟨0, s.node, .inr ⟨ip, .inl rfl, h.quiet, rfl, hip, hl, hat⟩⟩

theorem Sound.found {path : Arg} (h : Sound s) (hf : Found s path ip nd) :
    Shape s.ninodes s.ref nd := by
  rcases hf with rfl | ⟨dp, name, k, hm, hip, h0, hi, hv, rfl⟩
  · exact h.shape
  · exact (h.created hm hip h0 hi hv (by decide) 0 0).1

/-- The same call beside other open files and descriptors. -/
theorem At.withFiles (h : At s0 nd hs ls n s) (ft : Nat → File) (pr : Nat → Proc) :
    At { s0 with ftable := ft, proc := pr } nd hs ls n { s with ftable := ft, proc := pr } :=
  ⟨h.ninodes, h.node, h.ref, h.inuse, h.valid, h.locked, h.lockValid, h.room, h.ops, rfl, rfl,
    h.cur⟩

theorem At.openFail (h : At s0.begun nd [ip] [ip] n s) (hq : Quiet s0.ref nd)
    (hip : (nd ip).type ≠ 0) (hr : openFail ip s = .ok (r, s')) :
    r = -1 ∧ At s0 nd [] [] n s' := by
  unfold Sys.openFail at hr
  obtain ⟨_, s1, h1, hr⟩ := bind_ok hr
  obtain ⟨_, s2, h2, hr⟩ := bind_ok hr
  obtain ⟨rfl, rfl⟩ := pure_ok hr
  exact ⟨rfl, (h.iunlockput List.not_mem_nil (hq.held hip) h1).endOp h2⟩

/-- What is truncated by an open with the mode `omode`. -/
def truncated (nd : Nat → Node) (ip : Nat) (omode : UInt32) : Nat → Node :=
  if omode &&& oTrunc ≠ 0 ∧ (nd ip).type = tFile then Function.update nd ip (nd ip).trunc else nd

/-- The process after it has got the descriptor `fd` for `f`. -/
def State.withFd (s : State) (fd f : Nat) : Nat → Proc :=
  Function.update s.proc s.cur (s.myproc.setOfile fd (some f))

/-- `filealloc` takes a file that nobody holds, if there is one. -/
theorem filealloc_cases (s : State) :
    (filealloc s = .ok (none, s) ∧ ∀ f < nfile, (s.ftable f).ref ≠ 0) ∨
    ∃ f < nfile, (s.ftable f).ref = 0 ∧
      filealloc s = .ok (some f, s.setFile f { s.ftable f with ref := 1 }) := by
  cases hf : (List.range nfile).find? fun f => (s.ftable f).ref = 0 with
  | none =>
    refine .inl ⟨by simp only [filealloc, hf], ?_⟩
    intro f hfn hz
    exact List.find?_eq_none.mp hf f (List.mem_range.mpr hfn) (decide_eq_true hz)
  | some f =>
    refine .inr ⟨f, List.mem_range.mp (List.mem_of_find?_eq_some hf), ?_, ?_⟩
    · simpa using List.find?_some hf
    · simp only [filealloc, hf]

/-- `fdalloc` takes a descriptor that is not in use, if there is one. -/
theorem fdalloc_cases (f : Nat) (s : State) :
    (fdalloc f s = .ok (none, s) ∧ ∀ fd < nofile, s.myproc.ofile fd ≠ none) ∨
    ∃ fd < nofile, s.myproc.ofile fd = none ∧
      fdalloc f s = .ok (some fd, s.setOfile fd (some f)) := by
  cases hfd : (List.range nofile).find? fun fd => (s.myproc.ofile fd).isNone with
  | none =>
    refine .inl ⟨by simp only [fdalloc, hfd], ?_⟩
    intro fd hfdn
    simpa using List.find?_eq_none.mp hfd fd (List.mem_range.mpr hfdn)
  | some fd =>
    refine .inr ⟨fd, List.mem_range.mp (List.mem_of_find?_eq_some hfd), ?_, ?_⟩
    · simpa using List.find?_some hfd
    · simp only [fdalloc, hfd]

/-- A file that was just allocated closes without a look at an inode. -/
theorem fileclose_new {f : Nat} (h1 : (s.ftable f).ref = 1) (ht : (s.ftable f).type = .none) :
    fileclose f s = setFile f { s.ftable f with ref := 0, type := .none } s := by
  unfold fileclose
  have hfile : file f s = .ok (s.ftable f, s) := rfl
  rw [bind_of_ok hfile, if_neg (by omega)]
  unfold onlyIf
  rw [ht, if_neg (by simp)]
  rfl

/-- It leaves no trace. -/
theorem fileclose_allocated {f : Nat} (h0 : (s.ftable f).ref = 0)
    (ht : (s.ftable f).type = .none) :
    fileclose f (s.setFile f { s.ftable f with ref := 1 }) = .ok ((), s) := by
  have hself : (s.setFile f { s.ftable f with ref := 1 }).ftable f =
      { s.ftable f with ref := 1 } := by
    simp [State.setFile]
  have hsame : ({ s.ftable f with ref := 0, type := .none } : File) = s.ftable f := by
    cases hfile : s.ftable f
    simp_all
  rw [fileclose_new (by rw [hself]) (by rw [hself]; exact ht), hself]
  unfold setFile
  simp only [State.setFile, Function.update_idem]
  rw [hsame, Function.update_eq_self]

theorem At.openTrunc {omode : UInt32} {x : Unit} (h : At s0 nd [ip] [ip] n s)
    (hip : (nd ip).type ≠ 0)
    (hr : onlyIf (omode &&& oTrunc ≠ 0 ∧ (nd ip).type = tFile) (itrunc ip) s = .ok (x, s')) :
    At s0 (truncated nd ip omode) [ip] [ip] n s' := by
  unfold onlyIf at hr
  unfold truncated
  split at hr
  · next hc =>
    rw [if_pos hc]
    exact h.iupdate hip hr
  · next hc =>
    obtain ⟨-, rfl⟩ := pure_ok hr
    rw [if_neg hc]
    exact h

/-- Why `sys_open` gives up an inode that it has found. -/
def NotOpened (s : State) (x : Node) : Prop :=
  (x.type = tDevice ∧ (x.major < 0 ∨ (ndev : Int) ≤ x.major.toInt)) ∨
  (∀ f < nfile, (s.ftable f).ref ≠ 0) ∨ ∀ fd < nofile, s.myproc.ofile fd ≠ none

theorem At.openFile {omode : UInt32} (h : At s0.begun nd [ip] [ip] n s) (hq : Quiet s0.ref nd)
    (hip : (nd ip).type ≠ 0) (hfiles : ∀ f, (s0.ftable f).ref = 0 → (s0.ftable f).type = .none)
    (hr : openFile ip omode s = .ok (r, s')) :
    (r = -1 ∧ NotOpened s0 (nd ip) ∧ At s0 nd [] [] n s') ∨
    ∃ f fd : Nat, r = fd ∧ f < nfile ∧ (s0.ftable f).ref = 0 ∧ fd < nofile ∧
      s0.myproc.ofile fd = none ∧
      At { s0 with
        ftable := Function.update s0.ftable f
          (({ s0.ftable f with ref := 1 } : File).opened (nd ip) ip omode)
        proc := s0.withFd fd f } (truncated nd ip omode) [ip] [] n s' := by
  unfold Sys.openFile at hr
  rw [h.inode] at hr
  split at hr
  · rename_i hdev
    obtain ⟨rfl, hat⟩ := h.openFail hq hip hr
    exact .inl ⟨rfl, .inl hdev, hat⟩
  · have hpr : s.proc = s0.proc := h.proc
    have hcur : s.cur = s0.cur := h.cur
    have hft : s.ftable = s0.ftable := h.ftable
    obtain ⟨halloc, hno⟩ | ⟨f, hfn, hf0, halloc⟩ := filealloc_cases s
    · rw [bind_of_ok halloc] at hr
      obtain ⟨rfl, hat⟩ := h.openFail hq hip hr
      rw [hft] at hno
      exact .inl ⟨rfl, .inr (.inl hno), hat⟩
    · rw [bind_of_ok halloc] at hr
      rw [hft] at hf0
      have hmy : (s.setFile f { s.ftable f with ref := 1 }).myproc = s0.myproc := by
        change s.proc s.cur = s0.proc s0.cur
        rw [hpr, hcur]
      dsimp only at hr
      obtain ⟨hfd, hno⟩ | ⟨fd, hfdn, hfd0, hfd⟩ :=
        fdalloc_cases f (s.setFile f { s.ftable f with ref := 1 })
      · rw [bind_of_ok hfd] at hr
        dsimp only at hr
        rw [bind_of_ok (fileclose_allocated (by rw [hft]; exact hf0)
          (by rw [hft]; exact hfiles f hf0))] at hr
        obtain ⟨rfl, hat⟩ := h.openFail hq hip hr
        rw [hmy] at hno
        exact .inl ⟨rfl, .inr (.inr hno), hat⟩
      · rw [bind_of_ok hfd] at hr
        rw [hmy] at hfd0
        dsimp only at hr
        obtain ⟨xf, s3, h3, hr⟩ := bind_ok hr
        unfold file at h3
        cases h3
        obtain ⟨_, s4, h4, hr⟩ := bind_ok hr
        unfold Sys.setFile at h4
        cases h4
        have hst := h.withFiles (Function.update s0.ftable f
          (({ s0.ftable f with ref := 1 } : File).opened (nd ip) ip omode)) (s0.withFd fd f)
        have heq : { s with
            ftable := Function.update s0.ftable f
              (({ s0.ftable f with ref := 1 } : File).opened (nd ip) ip omode)
            proc := s0.withFd fd f } =
            ((s.setFile f { s.ftable f with ref := 1 }).setOfile fd (some f)).setFile f
              ((((s.setFile f { s.ftable f with ref := 1 }).setOfile fd (some f)).ftable
                f).opened (nd ip) ip omode) := by
          simp only [State.setFile, State.setOfile, State.withFd, State.myproc, hft,
            hpr, hcur, Function.update_idem, Function.update_self]
        rw [heq] at hst
        obtain ⟨_, s5, h5, hr⟩ := bind_ok hr
        have htr := hst.openTrunc hip h5
        obtain ⟨_, s6, h6, hr⟩ := bind_ok hr
        obtain ⟨hun, -⟩ := htr.iunlock List.not_mem_nil h6
        obtain ⟨_, s7, h7, hr⟩ := bind_ok hr
        obtain ⟨rfl, rfl⟩ := pure_ok hr
        exact .inr ⟨f, fd, rfl, hfn, hf0, hfdn, hfd0, At.endOp hun h7⟩

theorem type_truncated {omode : UInt32} : (truncated nd ip omode i).type = (nd i).type ∧
    (truncated nd ip omode i).nlink = (nd i).nlink ∧
    ((nd i).type = tDir → (truncated nd ip omode i).data = (nd i).data) := by
  unfold truncated
  split
  · rename_i hc
    by_cases he : i = ip
    · subst he
      rw [Function.update_self]
      refine ⟨rfl, rfl, ?_⟩
      intro hd
      rw [hc.2] at hd
      exact absurd hd (by decide)
    · rw [Function.update_of_ne he]
      exact ⟨rfl, rfl, fun _ => rfl⟩
  · exact ⟨rfl, rfl, fun _ => rfl⟩

theorem Sound.sysOpen {path : Option Arg} {omode : UInt32} (h : Sound s)
    (hr : sysOpen path omode s = .ok (r, s')) : Sound s' := by
  unfold Sys.sysOpen at hr
  cases path with
  | none =>
    obtain ⟨rfl, rfl⟩ := pure_ok hr
    exact h
  | some path =>
    dsimp only at hr
    obtain ⟨_, s1, h1, hr⟩ := bind_ok hr
    have hat := h.idle.beginOp h1
    obtain ⟨x, s2, h2, hr⟩ := bind_ok hr
    obtain ⟨n, nd, hx⟩ := h.coherent.openInode hat h2
    cases hx with
    | inl hnone =>
      obtain ⟨rfl, hu, hat⟩ := hnone
      obtain ⟨_, s3, h3, hr⟩ := bind_ok hr
      obtain ⟨rfl, rfl⟩ := pure_ok hr
      exact (h.done_same hu.toSame (hat.endOp h3)).sound h
    | inr hsome =>
      obtain ⟨ip, hf, hq, rfl, hip, -, hat⟩ := hsome
      have hsh := h.found hf
      cases hat.openFile hq hip h.files hr with
      | inl hfail =>
        have hd : Done s s' := ⟨nd, n, hfail.2.2, hsh, hq⟩
        exact hd.sound h
      | inr hopen =>
        obtain ⟨f, fd, rfl, -, -, -, -, hat⟩ := hopen
        have href : ∀ i, s'.ref i = s.ref i + [ip].count i := hat.ref
        have htr : Shape s.ninodes s.ref (truncated nd ip omode) :=
          hsh.congr (fun _ => type_truncated.1) (fun _ _ => type_truncated.2.1)
            (fun _ => type_truncated.2.2)
        refine ⟨hat.idle, ?_, ?_, ?_⟩
        · rw [hat.ninodes, hat.node]
          refine ⟨htr.count, htr.range, htr.tree, htr.dirs, ?_⟩
          intro i hi
          by_cases he : i = ip
          · rw [he, type_truncated.1]
            exact hip
          · rw [href, List.count_eq_zero.mpr (by simpa using he)] at hi
            exact htr.held i hi
        · rw [hat.node]
          intro i hi
          rw [type_truncated.1] at hi
          rw [type_truncated.2.1]
          exact (hq i hi).imp_right fun hpos => by rw [href]; omega
        · intro g hg
          rw [hat.ftable] at hg ⊢
          dsimp only at hg ⊢
          by_cases he : g = f
          · rw [he, Function.update_self] at hg
            exact absurd hg (Nat.one_ne_zero)
          · rw [Function.update_of_ne he] at hg ⊢
            exact h.files g hg

end

end Xv6Labs.Sys
