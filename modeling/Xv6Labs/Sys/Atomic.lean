import Xv6Labs.Sys.Symlink

/-! What a failed call may leave behind: `create` is undone as a whole, `sys_symlink` is not. -/
namespace Xv6Labs.Sys
open Kit Fs

/-- A directory has one entry more: `ip` under `name`, in a slot that was empty. -/
def EntryAdded (data data' : List UInt8) (name : Str) (ip : Nat) : Prop :=
  ∃ k, (slot data k).inum = 0 ∧ slot data' k = ⟨ip, strncpy name⟩ ∧
    ∀ j, j ≠ k → slot data' j = slot data j

/-- The free inode `ip` has become `x`, its parent `dp` has the entry for it and `up` links more,
and nothing else has changed. -/
structure Made (s s' : State) (path : Str) (dp ip : Nat) (x : Node) (up : Int16) : Prop where
  free : (s.node ip).type = 0
  new : s'.node ip = x
  entry : ∃ es name, elements path = es ++ [name] ∧ walk s.node (s.start path) es = some dp ∧
    EntryAdded (s.node dp).data (s'.node dp).data name ip
  parent : s'.node dp =
    { s.node dp with data := (s'.node dp).data, nlink := (s.node dp).nlink + up }
  others : ∀ i, i ≠ ip → i ≠ dp → s'.node i = s.node i

section
variable {s s0 s' : State} {path name : Str} {dp ip k n : Nat} {type major minor : Int16}
  {r : Int}

theorem Vacant.entryAdded {data : List UInt8} (h : Vacant data k) (hi : ip < 65536) (name : Str) :
    EntryAdded data (overwrite data (16*k) (Dirent.bytes ip name)) name ip := by
  refine ⟨k, h.empty, ?_, ?_⟩
  · rw [slot_overwrite_self h.le (bytes_length ..), ofBytes_bytes _ _ hi]
  · intro j hj
    exact slot_overwrite_ne h.le (bytes_length ..) hj

/-- What `create` made, and whatever became of the new inode since. -/
theorem Missing.made (h : Missing s s.node path dp name) (hip : (s.node ip).type = 0)
    (hi : ip < 65536) (hv : Vacant (s.node dp).data k) (x : Node)
    (hnd : s'.node = Function.update (created s.node dp k ip name type major minor) ip x) :
    Made s s' path dp ip x (if type = tDir then 1 else 0) := by
  have hne := h.ne hip
  have hdp : s'.node dp = { (s.node dp).write (16*k) (Dirent.bytes ip name) with
      nlink := if type = tDir then (s.node dp).nlink + 1 else (s.node dp).nlink } := by
    rw [hnd, Function.update_of_ne hne.symm, created, Function.update_self]
  obtain ⟨es, hes, hw⟩ := h.last
  refine ⟨hip, ?_, ⟨es, name, hes, hw, ?_⟩, ?_, ?_⟩
  · rw [hnd, Function.update_self]
  · rw [hdp]
    exact hv.entryAdded hi name
  · rw [hdp]
    by_cases ht : type = tDir
    · rw [if_pos ht, if_pos ht]
      rfl
    · rw [if_neg ht, if_neg ht, Int16.add_zero]
      rfl
  · intro i hi hid
    rw [hnd, Function.update_of_ne hi, created, Function.update_of_ne hid, Function.update_of_ne hi]

/-- `create` either leaves nothing behind, or has made the new inode with its entry. -/
theorem create_all_or_nothing {x : Option Nat} (h : Sound s)
    (ht : type = tFile ∨ type = tDir ∨ type = tDevice ∨ type = tSymlink)
    (hr : create path type major minor s = .ok (x, s')) :
    (x = none → Undone s.node s'.node ∧ s'.ref = s.ref ∧ ∀ i, s'.locked i = false) ∧
    (∀ ip, x = some ip → s.names path = none →
      (∃ dp, Made s s' path dp ip
        ⟨type, major, minor, 1, if type = tDir then dots ip dp else []⟩
        (if type = tDir then 1 else 0)) ∧
      (∀ i, s'.locked i = true ↔ i = ip) ∧ s'.ref ip = 1 ∧ ∀ i, i ≠ ip → s'.ref i = s.ref i) := by
  have ht0 : type ≠ 0 := by
    intro he
    rw [he] at ht
    exact absurd ht (by decide)
  have hc := h.idle.at.create h.quiet h.shape.held h.shape.count
    (fun _ _ _ => h.shape.nlink_room) ht0 hr
  cases hc with
  | inl hfail =>
    obtain ⟨rfl, n, nd, hu, -, hat⟩ := hfail
    refine ⟨fun _ => ⟨?_, ?_, hat.idle.locked⟩, ?_⟩
    · rw [hat.node]
      exact hu
    · funext i
      rw [hat.ref, List.count_nil, Nat.add_zero]
    · intro ip he
      cases he
  | inr hc =>
    cases hc with
    | inl hold =>
      obtain ⟨ip, rfl, hw, -⟩ := hold
      refine ⟨fun he => (Option.some_ne_none ip he).elim, ?_⟩
      intro j _ hn
      exact absurd (hn.symm.trans hw) (Option.some_ne_none ip).symm
    | inr hnew =>
      obtain ⟨ip, dp, name, k, rfl, hm, hip, h0, hi, hv, -, hat⟩ := hnew
      refine ⟨fun he => (Option.some_ne_none ip he).elim, ?_⟩
      intro j hj _
      cases hj
      have hcount := h.shape.count
      have href : s.ref ip = 0 := by
        by_contra hpos
        exact h.shape.held ip (Nat.pos_of_ne_zero hpos) hip
      have hself : created s.node dp k ip name type major minor ip =
          newNode dp ip type major minor := created_self (hm.ne hip)
      have hnd : s'.node = Function.update (created s.node dp k ip name type major minor) ip
          (newNode dp ip type major minor) := by
        rw [hat.node, ← hself, Function.update_eq_self]
      refine ⟨⟨dp, hm.made hip (by omega) hv _ hnd⟩, ?_, ?_, ?_⟩
      · intro i
        rw [hat.locked, List.mem_singleton]
      · rw [hat.ref, href, List.count_singleton_self]
      · intro i hi
        rw [hat.ref, List.count_eq_zero.mpr (by simpa using hi), Nat.add_zero]

end

theorem create_all_or_nothing_mkdir : Sound newFs ∧ newFs.names nameD.str = none ∧
    ∃ s', create nameD.str tDir 0 0 newFs = .ok (some 2, s') ∧
      (∃ dp, Made newFs s' nameD.str dp 2 ⟨tDir, 0, 0, 1, dots 2 dp⟩ 1) ∧
      (∀ i, s'.locked i = true ↔ i = 2) ∧ s'.ref 2 = 1 ∧ ∀ i, i ≠ 2 → s'.ref i = newFs.ref i := by
  have hn : newFs.names nameD.str = none := by decide
  obtain ⟨s', hr⟩ : ∃ s', create nameD.str tDir 0 0 newFs = .ok (some 2, s') := ⟨_, rfl⟩
  have hmade := (create_all_or_nothing newFs_sound (.inr (.inl rfl)) hr).2 2 rfl hn
  exact ⟨newFs_sound, hn, s', hr, hmade⟩

/-! `sys_symlink`. -/

section
variable {s s' : State} {target path : Arg} {r : Int} {nd : Nat → Node}

/-- What `sys_symlink` is to do: for a path that names nothing, a new link and its entry, and for
any other, nothing. -/
structure SymlinkLaw (s s' : State) (target path : Arg) (r : Int) : Prop where
  fresh : s.names path.str = none → r = 0 → ∃ ip dp, s'.names path.str = some ip ∧
    Made s s' path.str dp ip ⟨tSymlink, 0, 0, 1, target.stored⟩ 0
  taken : ∀ ip, s.names path.str = some ip → r = -1 ∧
    ∀ i, (s'.node i).type = (s.node i).type ∧ (s'.node i).nlink = (s.node i).nlink ∧
      (s'.node i).data = (s.node i).data

theorem symlinkLaw_absent (hn : s.names path.str = none) : SymlinkLaw s s' target path r ↔
    (r = 0 → ∃ ip dp, s'.names path.str = some ip ∧
      Made s s' path.str dp ip ⟨tSymlink, 0, 0, 1, target.stored⟩ 0) := by
  constructor
  · intro hlaw
    exact hlaw.fresh hn
  · intro hmade
    refine ⟨fun _ => hmade, ?_⟩
    intro ip hip
    rw [hn] at hip
    cases hip

theorem symlinkLaw_taken {ip : Nat} (hn : s.names path.str = some ip) :
    SymlinkLaw s s' target path r ↔ r = -1 ∧
      ∀ i, (s'.node i).type = (s.node i).type ∧ (s'.node i).nlink = (s.node i).nlink ∧
        (s'.node i).data = (s.node i).data := by
  constructor
  · intro hlaw
    exact hlaw.taken ip hn
  · intro hkept
    refine ⟨?_, fun _ _ => hkept⟩
    intro hnone
    rw [hn] at hnone
    cases hnone

/-- `sys_symlink` keeps to its law except where the path names an inode that it finds in its
parent: there it leaves the inodes alone only if this one is empty, has no links, and no block is
left for the target. -/
theorem symlink_only_creates_iff (h : Coherent s)
    (hr : sysSymlink (some target) (some path) s = .ok (r, s')) :
    SymlinkLaw s s' target path r ↔
      s.names path.str = none ∨ elements path.str = [] ∨
      ∃ ip, s.names path.str = some ip ∧ (s.node ip).data = [] ∧ (s.node ip).nlink = 0 ∧
        s.room 0 = 0 := by
  obtain ⟨nd, n, hexit, hat⟩ := h.sysSymlink hr
  have hnd := hat.node
  cases hexit with
  | refused hu hwhy =>
    constructor
    · intro _
      cases hn : s.names path.str with
      | none => exact .inl rfl
      | some ip =>
        -- `create` takes whatever it finds, so the path has no last element to find.
        obtain ⟨-, hes | hno⟩ := hwhy.named ip hn
        · exact .inr (.inl hes)
        · exact absurd (.inl rfl) hno
    · intro _
      refine ⟨fun _ he => absurd he (by decide), ?_⟩
      intro ip hn
      rw [hnd, (hwhy.named ip hn).1]
      exact ⟨rfl, fun i => ⟨rfl, rfl, rfl⟩⟩
  | @overwritten ip hn hes hroom =>
    rw [symlinkLaw_taken hn]
    constructor
    · intro hlaw
      exact absurd hlaw.1 (by decide)
    · rintro (hnone | hnil | ⟨j, hj, hdata, -, hfull⟩)
      · cases hn.symm.trans hnone
      · exact absurd hnil hes
      · cases hn.symm.trans hj
        rw [hdata, List.length_nil] at hroom
        omega
  | @unlinked ip hn hes ht hdata hfull =>
    rw [symlinkLaw_taken hn]
    constructor
    · intro hlaw
      have hlink := (hlaw.2 ip).2.1
      refine .inr (.inr ⟨ip, hn, hdata, ?_, hfull⟩)
      rw [← hlink, hnd]
      exact nlink_reap_unlinked
    · rintro (hnone | hnil | ⟨j, hj, -, hlink, -⟩)
      · cases hn.symm.trans hnone
      · exact absurd hnil hes
      · cases hn.symm.trans hj
        refine ⟨rfl, ?_⟩
        rw [hnd, h.quiet.reap_unlinked ht hlink]
        exact fun i => ⟨rfl, rfl, rfl⟩
  | @linked ip dp k name hm hip h0 hi hv hroom =>
    have hcount := h.count
    have hstart : s'.start path.str = s.start path.str := by
      unfold State.start State.myproc
      rw [hat.proc, hat.cur]
    rw [symlinkLaw_absent hm.walk]
    refine ⟨fun _ => .inl hm.walk, fun _ _ => ⟨ip, dp, ?_, ?_⟩⟩
    · rw [State.names, hstart, hnd]
      exact hm.names_created hip h0 (by omega) hv _
    · exact hm.made hip (by omega) hv _ hnd
  | @stranded ip dp k name hm hip h0 hi hv hfit hfull =>
    rw [symlinkLaw_absent hm.walk]
    exact ⟨fun _ => .inl hm.walk, fun _ he => absurd he (by decide)⟩

theorem symlink_only_creates_new : ∃ s', sysSymlink (some nameX) (some nameA) newFs = .ok (0, s') ∧
    newFs.names nameA.str = none ∧ SymlinkLaw newFs s' nameX nameA 0 := by
  have hn : newFs.names nameA.str = none := by decide
  obtain ⟨s', hr⟩ : ∃ s', sysSymlink (some nameX) (some nameA) newFs = .ok (0, s') := ⟨_, rfl⟩
  exact ⟨s', hr, hn, (symlink_only_creates_iff newFs_sound.coherent hr).mpr (.inl hn)⟩

/-- `symlink("x", "/.")` returns 0 and has put its target at the start of the root directory. -/
theorem symlink_overwrites_root : Coherent newFs ∧ newFs.names rootDot.str = some rootino ∧
    ∃ s', sysSymlink (some nameX) (some rootDot) newFs = .ok (0, s') ∧
      (s'.node rootino).data.take 2 = nameX.stored ∧ (newFs.node rootino).data.take 2 = [1, 0] ∧
      ¬ SymlinkLaw newFs s' nameX rootDot 0 := by
  have hn : newFs.names rootDot.str = some rootino := by decide
  refine ⟨newFs_sound.coherent, hn, _, rfl, by decide, by decide, ?_⟩
  intro hlaw
  exact absurd (hlaw.taken _ hn).1 (by decide)

/-- A `symlink` for `path` that cannot store the target has changed something by then: it takes the
links of an empty inode, or leaves a new entry for an inode that it frees again. -/
def Strands (s : State) (path : Str) : Prop :=
  (∃ ip, s.names path = some ip ∧ elements path ≠ [] ∧ (s.node ip).data = [] ∧
    (s.node ip).nlink ≠ 0 ∧ s.room 0 = 0) ∨ Overcommits s path

/-- The entry that `create` has added shows. -/
theorem created_data_ne {dp k ip : Nat} {name : Str} (hv : Vacant (nd dp).data k) (h0 : 0 < ip)
    (hi : ip < 65536) : (created nd dp k ip name tSymlink 0 0 dp).data ≠ (nd dp).data := by
  intro he
  have hself := slot_overwrite_self hv.le (bytes_length ip name)
  rw [created, Function.update_self] at he
  change overwrite (nd dp).data (16*k) (Dirent.bytes ip name) = _ at he
  rw [he, ofBytes_bytes _ _ hi] at hself
  have hempty := hv.empty
  rw [hself] at hempty
  exact absurd hempty (by simpa using h0.ne')

theorem Strands.trace (h : Coherent s) (hst : Strands s path.str)
    (hexit : SymlinkExit s target path r nd) : r = -1 ∧ ¬ Undone s.node nd := by
  have hcount := h.count
  rcases hst with ⟨ip, hn, hes, hdata, hlink, hfull⟩ | hover
  · cases hexit with
    | refused hu hwhy => exact (hwhy.no_last hn hes).elim
    | @overwritten j hj _ hroom =>
      rw [hn] at hj
      cases hj
      rw [hdata, List.length_nil] at hroom
      omega
    | @unlinked j hj _ ht =>
      rw [hn] at hj
      cases hj
      refine ⟨rfl, fun hu => hlink ?_⟩
      rw [← hu.used ip ht]
      exact nlink_reap_unlinked
    | linked hm =>
      have hnone : s.names path.str = none := hm.walk
      rw [hn] at hnone
      cases hnone
    | stranded hm =>
      have hnone : s.names path.str = none := hm.walk
      rw [hn] at hnone
      cases hnone
  · cases hexit with
    | refused hu hwhy => exact absurd hover hwhy.not_overcommits
    | overwritten hj => exact absurd hover (Overcommits.not_named hj)
    | unlinked hj => exact absurd hover (Overcommits.not_named hj)
    | linked _ _ _ _ _ hroom =>
      obtain ⟨dp, name, k, -, -, -, -, hfull⟩ := hover
      omega
    | @stranded ip dp' k' name' hm' hip h0 hi hv' _ _ _ hnd =>
      refine ⟨rfl, fun hu => ?_⟩
      have hdp : (s.node dp').type ≠ 0 := by
        rw [hm'.dir]
        exact tDir_ne_zero
      have hsame := hu.used dp' hdp
      rw [hnd] at hsame
      exact created_data_ne hv' h0 (by omega) (congrArg Node.data hsame)

theorem SymlinkExit.undone (h : Coherent s) (hst : ¬ Strands s path.str)
    (hexit : SymlinkExit s target path (-1) nd) : Undone s.node nd := by
  generalize hr : (-1 : Int) = r at hexit
  cases hexit with
  | refused hu => exact hu
  | overwritten => cases hr
  | @unlinked ip hn hes ht hdata hfull =>
    by_cases hlink : (s.node ip).nlink = 0
    · rw [h.quiet.reap_unlinked ht hlink]
      exact .refl _
    · exact absurd (.inl ⟨ip, hn, hes, hdata, hlink, hfull⟩) hst
  | linked => cases hr
  | @stranded ip dp k name hm hip h0 hi hv hfit hfull =>
    refine absurd (.inr ⟨dp, name, k, hm, hv, ?_, hfit, hfull⟩) hst
    exact fun hno => hno ip h0 hi hip

/-- A failed `symlink` leaves no trace, except where its target cannot be stored after all else
has been done. -/
theorem symlink_failure_undone_iff {target path : Option Arg} (h : Coherent s)
    (hr : sysSymlink target path s = .ok (r, s')) :
    (r = -1 → Undone s.node s'.node) ↔
      ∀ t p, target = some t → path = some p → ¬ Strands s p.str := by
  constructor
  · rintro hu t p rfl rfl hst
    obtain ⟨nd, n, hexit, hat⟩ := h.sysSymlink hr
    obtain ⟨hfail, htrace⟩ := hst.trace h hexit
    rw [← hat.node] at htrace
    exact htrace (hu hfail)
  · rintro hst rfl
    unfold Sys.sysSymlink at hr
    split at hr
    · rename_i t p
      obtain ⟨nd, n, hexit, hat⟩ := h.sysSymlink hr
      rw [hat.node]
      exact hexit.undone h (hst t p rfl rfl)
    · obtain ⟨-, rfl⟩ := pure_ok hr
      exact .refl _

end

/-- The path `/`. -/
def nameRoot : Arg := ⟨[47], by decide, by decide⟩

theorem symlink_failure_undone_root :
    ∃ s', sysSymlink (some nameX) (some nameRoot) newFs = .ok (-1, s') ∧
      Undone newFs.node s'.node := by
  obtain ⟨s', hr⟩ : ∃ s', sysSymlink (some nameX) (some nameRoot) newFs = .ok (-1, s') := ⟨_, rfl⟩
  have hn : newFs.names nameRoot.str = some rootino := by decide
  have hst : ¬ Strands newFs nameRoot.str := by
    rintro (⟨ip, -, hes, -⟩ | ⟨dp, name, k, hm, -⟩)
    · exact hes (by decide)
    · have hnone : newFs.names nameRoot.str = none := hm.walk
      rw [hn] at hnone
      cases hnone
  refine ⟨s', hr, (symlink_failure_undone_iff newFs_sound.coherent hr).mpr ?_ rfl⟩
  rintro t p - hp
  cases hp
  exact hst

/-- A new file system with no free block. -/
def fullFs : State := { newFs with room := fun _ => 0 }

theorem fullFs_coherent : Coherent fullFs where
  idle := ⟨newFs_sound.idle.valid, newFs_sound.idle.locked⟩
  quiet := newFs_sound.quiet
  held := newFs_sound.shape.held
  count := newFs_sound.shape.count
  files := newFs_sound.files

/-- `symlink("x", "a")` fails and leaves the entry `a` for an inode that is free. -/
theorem failed_symlink_leaves_entry : Coherent fullFs ∧ fullFs.names nameA.str = none ∧
    ∃ s', sysSymlink (some nameX) (some nameA) fullFs = .ok (-1, s') ∧
      s'.names nameA.str = some 2 ∧ (s'.node 2).type = 0 ∧ ¬ Undone fullFs.node s'.node := by
  refine ⟨fullFs_coherent, by decide, _, rfl, by decide, by decide, ?_⟩
  intro hu
  exact absurd (congrArg Node.data (hu.used rootino (by decide))) (by decide)

end Xv6Labs.Sys
