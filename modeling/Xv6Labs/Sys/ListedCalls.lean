import Xv6Labs.Sys.Listing

/-! The calls on names as operations on a map: `open`, `mkdir`, `mknod` and `symlink` enter a new
inode, `link` enters an old one, `unlink` removes a name, and a call that fails does nothing. -/
namespace Xv6Labs.Sys
open Kit Fs

namespace Listings

/-- The listings when `i` has been made under the name `m` of `d`. -/
def make (L : Listings) (d : Nat) (m : Name) (i : Nat) (dir : Bool) : Listings :=
  (if dir then L.mkdots i d else L).enter d m i

end Listings

/-- The call makes a new inode for `path` and returns `r`. A file that `sys_open` has created
stays when it then finds no file structure or descriptor. -/
inductive Makes : Call → Int → Str → Bool → Prop
  | open {path : Arg} {omode : UInt32} {r : Int} (h : omode &&& oCreate ≠ 0) :
      Makes (.open (some path) omode) r path.str false
  | mkdir {path : Arg} : Makes (.mkdir (some path)) 0 path.str true
  | mknod {path : Arg} {major minor : Int32} :
      Makes (.mknod (some path) major minor) 0 path.str false
  | symlink {target path : Arg} : Makes (.symlink (some target) (some path)) 0 path.str false

/-- What a call that returns `r` may do to the names, where paths start as `d0` says. -/
inductive Does (L : Listings) (d0 : Str → Nat) : Call → Int → Listings → Prop
  | failed {c : Call} : Does L d0 c (-1) L
  | opened {path : Arg} {omode : UInt32} {r : Int} (hr : 0 ≤ r)
      (hn : L.walk (d0 path.str) (elements path.str) ≠ none) :
      Does L d0 (.open (some path) omode) r L
  -- A directory keeps its entries where the target spells its entry `.`.
  | rewritten {target path : Arg} {i : Nat}
      (hn : L.walk (d0 path.str) (elements path.str) = some i)
      (hi : L.IsDir i → target.stored <+: Dirent.bytes i dot) :
      Does L d0 (.symlink (some target) (some path)) 0 L
  | made {c : Call} {r : Int} {path : Str} {dir : Bool} {d i : Nat} {m : Name}
      (hc : Makes c r path dir) (he : L.Ends (d0 path) path d m) (hm : L d m = none)
      (hi : L.Fresh i) : Does L d0 c r (L.make d m i dir)
  | linked {old new : Arg} {d i : Nat} {m : Name}
      (ho : L.walk (d0 old.str) (elements old.str) = some i) (hi : ¬ L.IsDir i)
      (he : L.Ends (d0 new.str) new.str d m) (hm : L d m = none) :
      Does L d0 (.link (some old) (some new)) 0 (L.enter d m i)
  -- A directory goes only when it is empty. What has lost its last name and is not open or
  -- someone's working directory is freed, and lists nothing.
  | removed {path : Arg} {d i : Nat} {m : Name} {L' : Listings}
      (he : L.Ends (d0 path.str) path.str d m) (hdot : m ≠ .of dot ∧ m ≠ .of dotdot)
      (hm : L d m = some i)
      (hempty : ∀ m', L i m' ≠ none → m' = .of dot ∨ m' = .of dotdot)
      (hL : ∀ x, L' x = L.remove d m x ∨ (x = d ∨ x = i) ∧ L'.Fresh x) :
      Does L d0 (.unlink (some path)) 0 L'

/-- What a call has done, seen from the state where it started. -/
def Effect (s : State) (L : Listings) (c : Call) (r : Int) (s' : State) : Prop :=
  ∃ L', Does L s.start c r L' ∧ Listed s'.node L' ∧ ∀ p, (s'.proc p).cwd = (s.proc p).cwd

section
variable {s s0 s' : State} {nd : Nat → Node} {L L' : Listings} {c : Call} {r : Int}
  {dp ip k n : Nat} {name : Str}

theorem At.effect {nd : Nat → Node} (hat : At s nd [] [] n s') (hd : Does L s.start c r L')
    (hl : Listed nd L') : Effect s L c r s' :=
  ⟨L', hd, hat.node ▸ hl, fun p => by rw [hat.proc]⟩

/-- `create` has entered the new inode. -/
theorem Listed.created {path : Str} (hl : Listed s.node L) (h : Sound s)
    (hm : Missing s.begun s.node path dp name) (hip : (s.node ip).type = 0) (h0 : 0 < ip)
    (hi : ip < s.ninodes) (hv : Vacant (s.node dp).data k) (type major minor : Int16) :
    Listed (Sys.created s.node dp k ip name type major minor)
      (L.make dp (.of name) ip (type = tDir)) := by
  have hne := hm.ne hip
  have hcount := h.shape.count
  obtain ⟨hdp0, hdpN⟩ := h.shape.range dp (by rw [hm.dir]; exact tDir_ne_zero)
  have hnew : Listed (Function.update s.node ip (newNode dp ip type major minor))
      (if type = tDir then L.mkdots ip dp else L) := by
    by_cases ht : type = tDir
    · rw [if_pos ht]
      apply hl.set
      · intro _
        rw [newNode, if_pos ht]
        exact stores_dots h0 (by omega) hdp0 (by omega)
      · exact fun hno => absurd ht hno
    · rw [if_neg ht]
      have hset := hl.set (d := ip) (x := newNode dp ip type major minor) (M := fun _ => none)
        (fun hd => absurd hd ht) fun _ => rfl
      have hfree : L ip = fun _ => none := hl.other ip (by rw [hip]; exact tDir_ne_zero.symm)
      rw [← hfree, Function.update_eq_self] at hset
      exact hset
  unfold Listings.make Listings.enter
  have hdp : (if type = tDir then L.mkdots ip dp else L) dp = L dp := by
    split
    · exact Function.update_of_ne hne.symm ..
    · rfl
  simp only [decide_eq_true_eq]
  rw [hdp]
  apply hnew.set
  · intro _
    exact Stores.dirlink (hl.dir dp hm.dir) hv hm.absent h0 (by omega)
  · exact fun hno => absurd hm.dir hno

/-- The path of a name that is missing. -/
theorem Listed.missing {path : Str} (hl : Listed s.node L) (h : Sound s)
    (hm : Missing s.begun s.node path dp name) :
    L.Ends (s.start path) path dp (.of name) ∧ L dp (.of name) = none := by
  obtain ⟨es, hes, hw⟩ := hm.last
  refine ⟨⟨(hl.isDir h.shape).mpr hm.dir, es, name, hes, ?_, rfl⟩, ?_⟩
  · rw [← hl.walk h.shape]
    exact hw
  · rw [hl.find h.shape hm.dir, hm.absent]
    rfl

theorem Sound.makeNode_effect {path : Option Arg} {type major minor : Int16} (h : Sound s)
    (hl : Listed s.node L) (ht : type ≠ 0) (hno : ∀ t, ¬ Accepts type t)
    (hc : ∀ p, path = some p → Makes c 0 p.str (type = tDir))
    (hr : Sys.makeNode path type major minor s = .ok (r, s')) : Effect s L c r s' := by
  unfold Sys.makeNode at hr
  obtain ⟨_, s1, h1, hr⟩ := bind_ok hr
  have hat := h.idle.beginOp h1
  cases path with
  | none =>
    obtain ⟨_, s2, h2, hr⟩ := bind_ok hr
    obtain ⟨rfl, rfl⟩ := pure_ok hr
    exact (hat.endOp h2).effect .failed hl
  | some path =>
    dsimp only at hr
    obtain ⟨x, s2, h2, hr⟩ := bind_ok hr
    have hx := hat.create h.quiet h.shape.held h.shape.count
      (fun _ _ _ => h.shape.nlink_room) ht h2
    rcases hx with ⟨rfl, n, nd, hu, -, hat⟩ | ⟨ip, -, -, -, -, hacc, -⟩ |
      ⟨ip, dp, name, k, rfl, hm, hip, h0, hi, hv, -, hat⟩
    · obtain ⟨_, s3, h3, hr⟩ := bind_ok hr
      obtain ⟨rfl, rfl⟩ := pure_ok hr
      exact (hat.endOp h3).effect .failed (hl.same hu.toSame)
    · exact absurd hacc (hno _)
    · obtain ⟨_, s3, h3, hr⟩ := bind_ok hr
      obtain ⟨_, s4, h4, hr⟩ := bind_ok hr
      obtain ⟨rfl, rfl⟩ := pure_ok hr
      obtain ⟨-, -, hkeep⟩ := h.created hm hip h0 hi hv ht major minor
      have hat := (hat.iunlockput List.not_mem_nil (.inl hkeep) h3).endOp h4
      obtain ⟨hends, habs⟩ := hl.missing h hm
      exact hat.effect (.made (hc path rfl) hends habs (hl.fresh h.shape hip))
        (hl.created h hm hip h0 hi hv type major minor)

theorem Sound.sysSymlink_effect {target path : Option Arg} (h : Sound s) (hl : Listed s.node L)
    (hok : Harmless s (.symlink target path))
    (hr : Sys.sysSymlink target path s = .ok (r, s')) : Effect s L (.symlink target path) r s' := by
  match target, path with
  | none, _ =>
    obtain ⟨rfl, rfl⟩ := pure_ok hr
    exact h.idle.at.effect .failed hl
  | some _, none =>
    obtain ⟨rfl, rfl⟩ := pure_ok hr
    exact h.idle.at.effect .failed hl
  | some target, some path =>
    obtain ⟨hsmash, hdang⟩ : ¬ Smashes s target path ∧ ¬ Dangles s path.str := hok
    obtain ⟨nd, n, hx, hat⟩ := h.coherent.sysSymlink hr
    cases hx with
    | refused hu _ => exact hat.effect .failed (hl.same hu.toSame)
    | @overwritten ip hn hes _ =>
      have hspell : (s.node ip).type = tDir → target.stored <+: Dirent.bytes ip dot := by
        intro hd
        by_contra hno
        exact hsmash ⟨ip, hn, hes, hd, hno⟩
      refine hat.effect (.rewritten (i := ip) ?_ fun hd => hspell ((hl.isDir h.shape).mp hd))
        (hl.congr ?_ ?_)
      · rw [← hl.walk h.shape]
        exact hn
      · intro j
        by_cases he : j = ip
        · rw [he, Function.update_self]
          rfl
        · rw [Function.update_of_ne he]
      · intro j hj
        by_cases he : j = ip
        · subst he
          rw [Function.update_self]
          exact overwrite_stored (h.shape.dirs j hj).head (hspell hj)
        · rw [Function.update_of_ne he]
    | @unlinked ip _ _ _ hdata _ =>
      -- What gave up its links is no directory, and lists nothing.
      have hleaf : (s.node ip).type ≠ tDir := by
        intro hd
        have htwo := (h.shape.dirs ip hd).two
        rw [hdata, List.length_nil] at htwo
        omega
      refine hat.effect .failed (hl.congr ?_ ?_)
      · intro j
        by_cases he : j = ip
        · subst he
          refine iff_of_false ?_ hleaf
          unfold Sys.reap
          split
          · rw [Function.update_self]
            exact tDir_ne_zero.symm
          · rw [Function.update_self]
            exact hleaf
        · rw [reap_ne he, Function.update_of_ne he]
      · intro j hj
        have he : j ≠ ip := fun he => hleaf (he ▸ hj)
        rw [reap_ne he, Function.update_of_ne he]
    | @linked ip dp k name hm hip h0 hi hv _ =>
      have hm : Missing s.begun s.node path.str dp name := ⟨hm.last, hm.dir, hm.absent⟩
      obtain ⟨hends, habs⟩ := hl.missing h hm
      have hmade := hl.created h hm hip h0 hi hv tSymlink 0 0
      have hdir : decide (tSymlink = tDir) = false := by decide
      rw [hdir] at hmade
      refine hat.effect (.made .symlink hends habs (hl.fresh h.shape hip)) (hmade.congr ?_ ?_)
      · intro j
        by_cases he : j = ip
        · rw [he, Function.update_self, created_self (hm.ne hip)]
          rfl
        · rw [Function.update_of_ne he]
      · intro j hj
        rw [Function.update_of_ne]
        rintro rfl
        rw [created_self (hm.ne hip)] at hj
        exact absurd hj (by decide : tSymlink ≠ tDir)
    | @stranded ip dp k name hm hip h0 hi hv hfit hfull =>
      exact absurd (.inr ⟨dp, name, k, hm, hv, fun hno => hno ip h0 hi hip, hfit, hfull⟩) hdang

/-! `sys_link` and `sys_unlink`. -/

theorem Sound.sysLink_effect {old new : Option Arg} (h : Sound s) (hl : Listed s.node L)
    (hok : Harmless s (.link old new)) (hr : Sys.sysLink old new s = .ok (r, s')) :
    Effect s L (.link old new) r s' := by
  match old, new with
  | none, _ =>
    obtain ⟨rfl, rfl⟩ := pure_ok hr
    exact h.idle.at.effect .failed hl
  | some _, none =>
    obtain ⟨rfl, rfl⟩ := pure_ok hr
    exact h.idle.at.effect .failed hl
  | some old, some new =>
    obtain ⟨nd, n, hx, hat⟩ := h.coherent.sysLink hr
    cases hx with
    | refused => exact hat.effect .failed hl
    | @linked ip dp k name hlk ht _ =>
      obtain ⟨es, hes, hw⟩ := hlk.missing.last
      have hdp := hlk.missing.dir
      have hf := hlk.missing.absent
      have hcount := h.shape.count
      obtain ⟨hi0, hiN⟩ := h.shape.range ip ht
      refine hat.effect (.linked ?_ ?_ ⟨?_, es, name, hes, ?_, rfl⟩ ?_)
        (hl.relink hdp (Stores.dirlink (hl.dir dp hdp) hlk.vacant hf hi0 (by omega)))
      · rw [← hl.walk h.shape]
        exact hlk.named
      · exact fun hd => hlk.leaf ((hl.isDir h.shape).mp hd)
      · exact (hl.isDir h.shape).mpr hdp
      · rw [← hl.walk h.shape]
        exact hw
      · rw [hl.find h.shape hdp, hf]
        rfl
    | @wrapped ip dp k name hlk _ hn => exact absurd ⟨ip, dp, k, name, hlk, hn⟩ hok

theorem unlinkEntry_ret {off : Nat} {isDir : Bool}
    (hr : unlinkEntry dp ip off isDir s = .ok (r, s')) : r = 0 := by
  unfold Sys.unlinkEntry at hr
  obtain ⟨m, s1, -, hr⟩ := bind_ok hr
  split at hr
  · cases hr
  · obtain ⟨_, s2, -, hr⟩ := bind_ok hr
    obtain ⟨_, s3, -, hr⟩ := bind_ok hr
    obtain ⟨_, s4, -, hr⟩ := bind_ok hr
    obtain ⟨_, s5, -, hr⟩ := bind_ok hr
    obtain ⟨_, s6, -, hr⟩ := bind_ok hr
    exact (pure_ok hr).1

theorem unlinkBad_ret (hr : unlinkBad dp s = .ok (r, s')) : r = -1 := by
  unfold Sys.unlinkBad at hr
  obtain ⟨_, s1, -, hr⟩ := bind_ok hr
  obtain ⟨_, s2, -, hr⟩ := bind_ok hr
  exact (pure_ok hr).1

/-- A directory that `isdirempty` passes has `.` and `..` only. -/
theorem At.dirfull_false {hs ls : List Nat} (h : At s0 nd hs ls n s)
    (hr : Sys.dirfull ip (nd ip).type s = .ok (false, s')) (ht : (nd ip).type = tDir) {j : Nat}
    (hj : 2 ≤ j) : (slot (nd ip).data j).inum = 0 := by
  unfold Sys.dirfull at hr
  rw [if_pos ht] at hr
  obtain ⟨e, s1, h1, hr⟩ := bind_ok hr
  have he := (pure_ok hr).1
  unfold isdirempty at h1
  rw [h.inode] at h1
  obtain ⟨q, s2, h2, h3⟩ := bind_ok h1
  have hq := (pure_ok h3).1
  have hfuel : (s.node ip).data.length < 16*2 + 16*((nd ip).data.length + 1) := by
    rw [h.node]
    omega
  obtain ⟨-, k, -, hsc, hend, -⟩ := scan_ok _ 2 hfuel h2
  rw [h.node] at hsc hend
  by_cases hjk : j < k
  · simpa using hsc.pass j hj hjk
  · have hnone : q.2 = none := by
      rw [← Option.isNone_iff_eq_none]
      simpa [← hq] using he
    exact slot_past (by have := hend hnone; omega)

/-- The name is gone, and what that has freed lists nothing. -/
theorem Listed.unlinked {nd' : Nat → Node} {ref : Nat → Nat} {md mi : Int16} (hl : Listed nd L)
    (hdp : (nd dp).type = tDir) (hne : ip ≠ dp) (hf : Sys.find (nd dp).data name = some k)
    (hnd : nd' = Sys.reap ref [] ip (Sys.reap ref [ip] dp
      (Sys.relink nd dp k (List.replicate 16 0) ip md mi))) :
    ∃ L', Listed nd' L' ∧ ∀ x, L' x = L.remove dp (.of name) x ∨
      (x = dp ∨ x = ip) ∧ (nd' x).type = 0 := by
  subst hnd
  have hrel : Listed (Sys.relink nd dp k (List.replicate 16 0) ip md mi)
      (L.remove dp (.of name)) := hl.relink hdp (Stores.clear (hl.dir dp hdp) hf)
  obtain ⟨L1, hl1, hL1⟩ := hrel.reap ref [ip] dp
  obtain ⟨L2, hl2, hL2⟩ := hl1.reap ref [] ip
  refine ⟨L2, hl2, fun x => ?_⟩
  rcases hL2 x with heq | ⟨rfl, hfree⟩
  · rcases hL1 x with heq1 | ⟨rfl, hfree⟩
    · exact .inl (heq.trans heq1)
    · refine .inr ⟨.inl rfl, ?_⟩
      rw [reap_ne hne.symm]
      exact hfree
  · exact .inr ⟨.inr rfl, hfree⟩

theorem Sound.sysUnlink_effect {path : Option Arg} (h : Sound s) (hl : Listed s.node L)
    (hr : Sys.sysUnlink path s = .ok (r, s')) : Effect s L (.unlink path) r s' := by
  have hshape : Shape s'.ninodes s'.ref s'.node := ((h.sysUnlink hr).sound h).shape
  unfold Sys.sysUnlink at hr
  cases path with
  | none =>
    obtain ⟨rfl, rfl⟩ := pure_ok hr
    exact h.idle.at.effect .failed hl
  | some path =>
    dsimp only at hr
    obtain ⟨_, s1, h1, hr⟩ := bind_ok hr
    have hat := h.idle.beginOp h1
    obtain ⟨x, s2, h2, hr⟩ := bind_ok hr
    cases hat.nameiparent h.quiet h2 with
    | inl hnone =>
      obtain ⟨rfl, -, hat⟩ := hnone
      obtain ⟨_, s3, h3, hr⟩ := bind_ok hr
      obtain ⟨rfl, rfl⟩ := pure_ok hr
      exact (hat.endOp h3).effect .failed hl
    | inr hsome =>
      obtain ⟨dp, name, es, rfl, hat, hdp, hes, hw⟩ := hsome
      dsimp only at hr
      obtain ⟨_, s3, h3, hr⟩ := bind_ok hr
      obtain ⟨hat, -, hdp0⟩ := hat.ilock h3
      split at hr
      · rw [unlinkBad_ret hr]
        exact (hat.unlinkBad (h.quiet dp hdp0) hr).effect .failed hl
      · rename_i hdot
        obtain ⟨y, s4, h4, hr⟩ := bind_ok hr
        cases (hat.dirlookup h4).2 with
        | inl hnone =>
          obtain ⟨rfl, -, -, hat⟩ := hnone
          rw [unlinkBad_ret hr]
          exact (hat.unlinkBad (h.quiet dp hdp0) hr).effect .failed hl
        | inr hfound =>
          obtain ⟨k, rfl, hf, hat⟩ := hfound
          dsimp only at hr
          generalize hi : (slot (s.node dp).data k).inum = ip at hr hat
          obtain ⟨_, s5, h5, hr⟩ := bind_ok hr
          obtain ⟨hat, hnot, hip⟩ := hat.ilock h5
          have hne : ip ≠ dp := by simpa using hnot
          rw [hat.inode] at hr
          split at hr
          · cases hr
          · obtain ⟨full, s6, h6, hr⟩ := bind_ok hr
            have hfull := hat
            have hat := hat.dirfull h6
            split at hr
            · obtain ⟨_, s7, h7, hr⟩ := bind_ok hr
              have hat := hat.iunlockput hnot (h.quiet.held hip) h7
              rw [unlinkBad_ret hr]
              exact (hat.unlinkBad (h.quiet dp hdp0) hr).effect .failed hl
            · rename_i hno
              rw [Bool.not_eq_true] at hno
              rw [hno] at h6
              rw [unlinkEntry_ret hr]
              have hat := hat.unlinkEntry hne hdp0 hip hr
              obtain ⟨L', hl', hL'⟩ := hl.unlinked hdp hne hf hat.node
              refine hat.effect (.removed (i := ip)
                ⟨(hl.isDir h.shape).mpr hdp, es, name, hes, ?_, rfl⟩ ⟨?_, ?_⟩ ?_ ?_ ?_) (hat.node ▸ hl')
              · rw [← hl.walk h.shape]
                exact hw
              · exact fun he => hdot (.inl (Name.of_eq.mp he))
              · exact fun he => hdot (.inr (Name.of_eq.mp he))
              · rw [hl.find h.shape hdp, hf, Option.map_some, hi]
              · exact fun _ => hl.only_dots h.shape fun ht _ hj => hfull.dirfull_false h6 ht hj
              · exact fun x => (hL' x).imp_right fun hx => ⟨hx.1, hl'.fresh hshape hx.2⟩

/-! `sys_open`. -/

theorem Listed.truncated {omode : UInt32} (hl : Listed nd L) :
    Listed (Sys.truncated nd ip omode) L :=
  hl.congr (fun _ => by rw [type_truncated.1]) fun _ hd => type_truncated.2.2 hd

/-- The second half of `sys_open` leaves the names alone. -/
theorem At.openFile_effect {omode : UInt32} (h : Sound s) (hat : At s.begun nd [ip] [ip] n s0)
    (hq : Quiet s.ref nd) (hip : (nd ip).type ≠ 0) (hl : Listed nd L')
    (hd : ∀ r, r = -1 ∨ 0 ≤ r → Does L s.start c r L')
    (hr : Sys.openFile ip omode s0 = .ok (r, s')) : Effect s L c r s' := by
  cases hat.openFile hq hip h.files hr with
  | inl hfail =>
    obtain ⟨rfl, -, hat⟩ := hfail
    exact hat.effect (hd _ (.inl rfl)) hl
  | inr hopen =>
    obtain ⟨f, fd, rfl, -, -, -, -, hat⟩ := hopen
    refine ⟨L', hd _ (.inr (Int.natCast_nonneg fd)), hat.node ▸ hl.truncated, fun p => ?_⟩
    rw [hat.proc]
    change (s.withFd fd f p).cwd = _
    unfold State.withFd
    by_cases hp : p = s.cur
    · rw [hp, Function.update_self]
      rfl
    · rw [Function.update_of_ne hp]

theorem Sound.sysOpen_effect {path : Option Arg} {omode : UInt32} (h : Sound s)
    (hl : Listed s.node L) (hr : Sys.sysOpen path omode s = .ok (r, s')) :
    Effect s L (.open path omode) r s' := by
  unfold Sys.sysOpen at hr
  cases path with
  | none =>
    obtain ⟨rfl, rfl⟩ := pure_ok hr
    exact h.idle.at.effect .failed hl
  | some path =>
    dsimp only at hr
    obtain ⟨_, s1, h1, hr⟩ := bind_ok hr
    have hat := h.idle.beginOp h1
    obtain ⟨x, s2, h2, hr⟩ := bind_ok hr
    -- An inode that has a name already.
    have hold : ∀ {ip}, s.names path.str ≠ none → (s.node ip).type ≠ 0 →
        At s.begun s.node [ip] [ip] 0 s2 → Sys.openFile ip omode s2 = .ok (r, s') →
        Effect s L (.open (some path) omode) r s' := by
      intro ip hn hip hat hr
      refine hat.openFile_effect h h.quiet hip hl (fun r hr => ?_) hr
      rcases hr with rfl | hr
      · exact .failed
      · refine .opened hr ?_
        rw [← hl.walk h.shape]
        exact hn
    by_cases hcr : omode &&& oCreate ≠ 0
    · unfold Sys.openInode at h2
      rw [if_pos hcr] at h2
      have hne : tFile ≠ 0 := by decide
      rcases h.coherent.create hat hne (by decide) h2 with ⟨rfl, n, nd, hu, -, hat⟩ |
        ⟨ip, rfl, hw, hip, -, -, hat⟩ | ⟨ip, dp, name, k, rfl, hm, hip, h0, hi, hv, -, hat⟩
      · obtain ⟨_, s3, h3, hr⟩ := bind_ok hr
        obtain ⟨rfl, rfl⟩ := pure_ok hr
        exact (hat.endOp h3).effect .failed (hl.same hu.toSame)
      · exact hold (by rw [hw]; exact Option.some_ne_none ip) hip hat hr
      · obtain ⟨-, hq, -⟩ := h.created hm hip h0 hi hv hne 0 0
        obtain ⟨hends, habs⟩ := hl.missing h hm
        have hself : Sys.created s.node dp k ip name tFile 0 0 ip = newNode dp ip tFile 0 0 :=
          created_self (hm.ne hip)
        have hmade := hl.created h hm hip h0 hi hv tFile 0 0
        have hdir : decide (tFile = tDir) = false := by decide
        rw [hdir] at hmade
        exact hat.openFile_effect h hq (by rw [hself]; exact hne) hmade
          (fun r _ => .made (.open hcr) hends habs (hl.fresh h.shape hip)) hr
    · have hn : ∀ ip, x = some ip → s.names path.str ≠ none := by
        rintro ip rfl hn
        unfold Sys.openInode at h2
        rw [if_neg hcr] at h2
        obtain ⟨y, t1, g1, h2⟩ := bind_ok h2
        have hy : y = s.names path.str := (hat.namei h.quiet g1).1
        rw [hy, hn] at h2
        cases (pure_ok h2).1
      cases hat.openLookup h.quiet hcr h2 with
      | inl hnone =>
        obtain ⟨rfl, hat⟩ := hnone
        obtain ⟨_, s3, h3, hr⟩ := bind_ok hr
        obtain ⟨rfl, rfl⟩ := pure_ok hr
        exact (hat.endOp h3).effect .failed hl
      | inr hsome =>
        obtain ⟨ip, rfl, hip, -, hat⟩ := hsome
        exact hold (hn ip rfl) hip hat hr

/-! Runs. -/

/-- The process `a.1` makes the call `a.2.1`, which is harmless and returns `a.2.2`. -/
def Returns (s : State) (a : Nat × Call × Int) (s' : State) : Prop :=
  a.2.1.exec (s.sched a.1) = .ok (a.2.2, s') ∧ Harmless (s.sched a.1) a.2.1

/-- Where a path starts for a process in `cwd`. -/
def startAt (cwd : Nat) (path : Str) : Nat := if path.head? = some slash then rootino else cwd

/-- The same call on the map alone, by a process whose working directory is `cwd`. -/
def MapStep (cwd : Nat → Nat) (L : Listings) (a : Nat × Call × Int) (L' : Listings) : Prop :=
  Does L (startAt (cwd a.1)) a.2.1 a.2.2 L'

/-- `create` takes an inode that is there for links and files only. -/
theorem not_accepts {type : Int16} (hs : type ≠ tSymlink) (hf : type ≠ tFile) (t : Int16) :
    ¬ Accepts type t := by
  rintro (he | he)
  · exact hs he
  · exact hf he.1

theorem Returns.effect {a : Nat × Call × Int} (hs : Returns s a s') (h : Sound s)
    (hl : Listed s.node L) : Effect (s.sched a.1) L a.2.1 a.2.2 s' := by
  obtain ⟨hr, hok⟩ := hs
  have h := h.sched a.1
  have hl : Listed (s.sched a.1).node L := hl
  cases hc : a.2.1 with
  | «open» path omode =>
    rw [hc] at hr
    exact h.sysOpen_effect hl hr
  | mkdir path =>
    rw [hc] at hr
    refine h.makeNode_effect hl tDir_ne_zero (not_accepts (by decide) (by decide)) ?_ hr
    rintro p rfl
    exact .mkdir
  | mknod path major minor =>
    rw [hc] at hr
    have ht : tDevice ≠ 0 := by decide
    refine h.makeNode_effect hl ht (not_accepts (by decide) (by decide)) ?_ hr
    rintro p rfl
    exact .mknod
  | link old new =>
    rw [hc] at hr hok
    exact h.sysLink_effect hl hok hr
  | unlink path =>
    rw [hc] at hr
    exact h.sysUnlink_effect hl hr
  | symlink target path =>
    rw [hc] at hr hok
    exact h.sysSymlink_effect hl hok hr

theorem Returns.sound {a : Nat × Call × Int} (hs : Returns s a s') (h : Sound s) : Sound s' :=
  (sound_step_iff (a := (a.1, a.2.1)) h ⟨a.2.2, hs.1⟩).mpr hs.2

/-- The directories refine a map from names to inodes: what any processes do by harmless calls,
one at a time in any order and with the results they get, is a run of the calls on the map, and the
entries on the disk hold the map at the end, with no name twice in a directory. -/
theorem names_refine_map {tr : List (Nat × Call × Int)} (h : Sound s) (hl : Listed s.node L)
    (hr : Run Returns s tr s') :
    ∃ L', Run (MapStep fun p => (s.proc p).cwd) L tr L' ∧ Listed s'.node L' := by
  have hinv : Sound s' ∧ (∀ p, (s'.proc p).cwd = (s.proc p).cwd) ∧
      ∃ L', Run (MapStep fun p => (s.proc p).cwd) L tr L' ∧ Listed s'.node L' := by
    refine hr.history (P := fun tr t => Sound t ∧ (∀ p, (t.proc p).cwd = (s.proc p).cwd) ∧
      ∃ L', Run (MapStep fun p => (s.proc p).cwd) L tr L' ∧ Listed t.node L')
      ⟨h, fun _ => rfl, L, .nil, hl⟩ ?_
    rintro tr t a u - ⟨ht, hcwd, L1, hrun, hl1⟩ hstep
    obtain ⟨L2, hdoes, hl2, hcwd2⟩ := hstep.effect ht hl1
    refine ⟨hstep.sound ht, fun p => (hcwd2 p).trans (hcwd p), L2, hrun.snoc ?_, hl2⟩
    have hstart : (t.sched a.1).start = startAt ((s.proc a.1).cwd) := by
      rw [← hcwd a.1]
      rfl
    rw [hstart] at hdoes
    exact hdoes
  exact hinv.2.2

end

/-- What the root of a new file system lists. -/
def newListings : Listings := Listings.mkdots (fun _ _ => none) rootino rootino

theorem newFs_listed : Listed newFs.node newListings where
  dir d hd := by
    have hroot := newFs_type (i := d) (by rw [hd]; exact tDir_ne_zero)
    subst hroot
    exact stores_dots (by decide) (by decide) (by decide) (by decide)
  other d hd := by
    have hne : d ≠ rootino := fun he => hd (by rw [he]; rfl)
    rw [newListings, Listings.mkdots, Function.update_of_ne hne]

theorem names_refine_map_links :
    Run Returns newFs [(0, .mkdir (some nameD), 0), (1, .symlink (some nameX) (some nameDa), 0),
      (0, .link (some nameDa) (some nameB), 0)] linkedB ∧
    ∃ L, Run (MapStep fun _ => rootino) newListings
      [(0, .mkdir (some nameD), 0), (1, .symlink (some nameX) (some nameDa), 0),
        (0, .link (some nameDa) (some nameB), 0)] L ∧ Listed linkedB.node L := by
  have hs1 : Returns newFs (0, .mkdir (some nameD), 0) madeD := ⟨madeD_returns, trivial⟩
  have hs2 : Returns madeD (1, .symlink (some nameX) (some nameDa), 0) madeDa :=
    ⟨madeDa_returns, madeDa_harmless⟩
  have hs3 : Returns madeDa (0, .link (some nameDa) (some nameB), 0) linkedB :=
    ⟨linkedB_returns, linkedB_harmless⟩
  have hr := ((Run.single hs1).snoc hs2).snoc hs3
  exact ⟨hr, names_refine_map newFs_sound newFs_listed hr⟩

end Xv6Labs.Sys
