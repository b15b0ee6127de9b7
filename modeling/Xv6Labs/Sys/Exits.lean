import Xv6Labs.Sys.Calls

/-! How `sys_symlink` and `sys_link` return, and when they leave the inodes in order. -/
namespace Xv6Labs.Sys
open Kit Fs

/-! `sys_symlink`. -/

/-- The ways `sys_symlink` returns from `s`, with the result and the inodes it leaves. -/
inductive SymlinkExit (s : State) (target path : Arg) : Int → (Nat → Node) → Prop
  | refused {nd : Nat → Node} (hu : Undone s.node nd)
      (hwhy : Refused s.begun s.node 0 path.str tSymlink nd) : SymlinkExit s target path (-1) nd
  -- The path names an inode, and `create` returns it whatever it is.
  | overwritten {ip : Nat} (hn : s.names path.str = some ip) (hes : elements path.str ≠ [])
      (hroom : 0 < (s.node ip).data.length ∨ 0 < s.room 0) :
      SymlinkExit s target path 0
        (Function.update s.node ip ((s.node ip).write 0 target.stored))
  | unlinked {ip : Nat} (hn : s.names path.str = some ip) (hes : elements path.str ≠ [])
      (ht : (s.node ip).type ≠ 0) (hdata : (s.node ip).data = []) (hfull : s.room 0 = 0) :
      SymlinkExit s target path (-1)
        (reap s.ref [] ip (Function.update s.node ip { s.node ip with nlink := 0 }))
  -- The path names nothing, and `create` has made the inode and its entry.
  | linked {ip dp k : Nat} {name : Str} (hm : Missing s s.node path.str dp name)
      (hip : (s.node ip).type = 0) (h0 : 0 < ip) (hi : ip < s.ninodes)
      (hv : Vacant (s.node dp).data k) (hroom : 0 < s.room 1) :
      SymlinkExit s target path 0
        (Function.update (created s.node dp k ip name tSymlink 0 0) ip
          ⟨tSymlink, 0, 0, 1, target.stored⟩)
  | stranded {ip dp k : Nat} {name : Str} (hm : Missing s s.node path.str dp name)
      (hip : (s.node ip).type = 0) (h0 : 0 < ip) (hi : ip < s.ninodes)
      (hv : Vacant (s.node dp).data k)
      (hfit : 16 ≤ fits (s.node dp).data.length (s.room 0) (16*k)) (hfull : s.room 1 = 0)
      {nd : Nat → Node} (hnd : nd dp = created s.node dp k ip name tSymlink 0 0 dp)
      (hfree : (nd ip).type = 0) :
      SymlinkExit s target path (-1) nd

section
variable {s s' : State} {target path old new : Arg} {r : Int} {nd : Nat → Node}
  {data : List UInt8} {d i k n : Nat}

theorem write_newNode {dp ip : Nat} : (newNode dp ip tSymlink 0 0).write 0 target.stored =
    ⟨tSymlink, 0, 0, 1, target.stored⟩ := by
  rw [newNode, if_neg (by decide), Node.write, overwrite]
  simp

/-- Every return of `sys_symlink` is one of these, with no lock or reference kept. -/
theorem Coherent.sysSymlink (h : Coherent s)
    (hr : sysSymlink (some target) (some path) s = .ok (r, s')) :
    ∃ nd n, SymlinkExit s target path r nd ∧ At s nd [] [] n s' := by
  dsimp only [Sys.sysSymlink] at hr
  obtain ⟨_, s1, h1, hr⟩ := bind_ok hr
  have hat := h.idle.beginOp h1
  obtain ⟨x, s2, h2, hr⟩ := bind_ok hr
  have hne : tSymlink ≠ 0 := by decide
  cases h.create hat hne (by decide) h2 with
  | inl hfail =>
    obtain ⟨rfl, n, nd, hu, hwhy, hat⟩ := hfail
    obtain ⟨_, s3, h3, hr⟩ := bind_ok hr
    obtain ⟨rfl, rfl⟩ := pure_ok hr
    exact ⟨nd, n, .refused hu hwhy, hat.endOp h3⟩
  | inr hc =>
    cases hc with
    | inl hold =>
      obtain ⟨ip, rfl, hn, hip, hes, -, hat⟩ := hold
      cases hat.storeTarget h.quiet hip hr with
      | inl hdone =>
        obtain ⟨hroom, rfl, hat⟩ := hdone
        exact ⟨_, _, .overwritten hn hes hroom, hat⟩
      | inr hfail =>
        obtain ⟨hdata, hfull, rfl, hat⟩ := hfail
        exact ⟨_, _, .unlinked hn hes hip hdata hfull, hat⟩
    | inr hnew =>
      obtain ⟨ip, dp, name, k, rfl, hm, hip, h0, hi, hv, hfit, hat⟩ := hnew
      have hmiss : Missing s s.node path.str dp name := ⟨hm.last, hm.dir, hm.absent⟩
      have hnei := hm.ne hip
      have hdp0 : (s.node dp).type ≠ 0 := by
        rw [hm.dir]
        exact tDir_ne_zero
      have hself : created s.node dp k ip name tSymlink 0 0 ip = newNode dp ip tSymlink 0 0 :=
        created_self hnei
      have hq : Quiet s.ref (created s.node dp k ip name tSymlink 0 0) :=
        h.quiet.created hdp0 hnei fun he => absurd he (by decide)
      cases hat.storeTarget hq (by rw [hself]; exact hne) hr with
      | inl hdone =>
        obtain ⟨hroom, rfl, hat⟩ := hdone
        have hroom : 0 < s.room 1 := by
          rw [hself, newNode, if_neg (by decide), List.length_nil] at hroom
          exact hroom.resolve_left (Nat.lt_irrefl 0)
        rw [hself, write_newNode] at hat
        exact ⟨_, _, .linked hmiss hip h0 hi hv hroom, hat⟩
      | inr hfail =>
        obtain ⟨-, hfull, rfl, hat⟩ := hfail
        have href : s.ref ip = 0 := by
          by_contra hpos
          exact h.held ip (Nat.pos_of_ne_zero hpos) hip
        refine ⟨_, _, .stranded hmiss hip h0 hi hv hfit hfull ?_ ?_, hat⟩
        · rw [reap_ne hnei.symm, Function.update_of_ne hnei.symm]
        · rw [reap, Function.update_self, if_pos ⟨rfl, by simpa using href⟩, Function.update_self]
          rfl

theorem Quiet.reap_unlinked {ref : Nat → Nat} {ip : Nat} (hq : Quiet ref nd)
    (ht : (nd ip).type ≠ 0) (hn : (nd ip).nlink = 0) :
    reap ref [] ip (Function.update nd ip { nd ip with nlink := 0 }) = nd := by
  have hself : { nd ip with nlink := 0 } = nd ip := by rw [← hn]
  rw [hself, Function.update_eq_self, reap, if_neg]
  intro hc
  cases hq ip ht with
  | inl hlink => exact hlink hn
  | inr hpos =>
    have := hc.2
    omega

theorem nlink_reap_unlinked {ref : Nat → Nat} {ip : Nat} {hs : List Nat} :
    (reap ref hs ip (Function.update nd ip { nd ip with nlink := 0 }) ip).nlink = 0 := by
  unfold reap
  split
  · rw [Function.update_self, Function.update_self]
    rfl
  · rw [Function.update_self]

/-! A target written over a directory changes its entry `.`, unless it spells that entry. -/

/-- The only NUL of a stored target is its last byte. -/
theorem Arg.stored_nul {a : Arg} (h : a.stored[i]? = some 0) : i = a.str.length := by
  unfold Arg.stored at h
  by_cases hlt : i < a.str.length
  · rw [List.getElem?_append_left hlt] at h
    exact absurd (List.mem_of_getElem? h) a.noNul
  · have hend := (List.getElem?_eq_some_iff.mp h).1
    rw [List.length_append, List.length_singleton] at hend
    omega

theorem Arg.stored_le {a : Arg} (h : a.stored[3]? = some 0) : a.stored.length ≤ 4 := by
  have := Arg.stored_nul h
  rw [Arg.stored, List.length_append, List.length_singleton]
  omega

/-- A directory starts with the bytes of its entry `.`, up to the end of the name. -/
theorem DirOk.head (h : DirOk data d) : data.take 4 = (Dirent.bytes d dot).take 4 := by
  have hinum := h.dotInum
  have hname := h.dotName
  match data, h.two with
  | a :: b :: c :: e :: rest, _ =>
    simp only [slot, Dirent.ofBytes, Nat.mul_zero, List.drop_zero, List.take_succ_cons,
      List.getD_cons_zero, List.getD_cons_succ, List.drop_succ_cons] at hinum hname
    rw [namecmp, strncmp_eq_zero] at hname
    have hc : c = 46 ∧ e = 0 := by
      simp only [key, dot, List.headD_cons, List.tail_cons] at hname
      grind
    have ha : a = UInt8.ofNat d := by
      apply UInt8.toNat_inj.mp
      rw [UInt8.toNat_ofNat']
      have := a.toNat_lt
      omega
    have hb : b = UInt8.ofNat (d/256) := by
      apply UInt8.toNat_inj.mp
      rw [UInt8.toNat_ofNat']
      have := a.toNat_lt
      have := b.toNat_lt
      omega
    rw [ha, hb, hc.1, hc.2]
    rfl

theorem overwrite_stored {a : Arg} (h : data.take 4 = (Dirent.bytes d dot).take 4)
    (hp : a.stored <+: Dirent.bytes d dot) : overwrite data 0 a.stored = data := by
  have hspell := List.prefix_iff_eq_take.mp hp
  have hlen : a.stored.length ≤ 4 := by
    by_contra hlong
    apply hlong
    apply Arg.stored_le
    rw [hspell, List.getElem?_take_of_lt (by omega)]
    rfl
  have htake : a.stored = data.take a.stored.length := by
    calc
      a.stored = ((Dirent.bytes d dot).take 4).take a.stored.length := by
        rw [List.take_take, Nat.min_eq_left hlen]
        exact hspell
      _ = data.take a.stored.length := by
        rw [← h, List.take_take, Nat.min_eq_left hlen]
  calc
    overwrite data 0 a.stored = a.stored ++ data.drop a.stored.length := by
      rw [overwrite, List.take_zero, List.nil_append, Nat.zero_add]
    _ = data.take a.stored.length ++ data.drop a.stored.length := by rw [← htake]
    _ = data := List.take_append_drop ..

/-- A directory whose start a target has become still has its entry `.` only if the target spells
it. -/
theorem spelled_of_dirOk {a : Arg} (h : DirOk (overwrite data 0 a.stored) d) :
    a.stored <+: Dirent.bytes d dot := by
  have hhead := h.head
  have hbyte : ∀ j, j < a.stored.length → (overwrite data 0 a.stored)[j]? = a.stored[j]? := by
    intro j hj
    rw [getElem?_overwrite (Nat.zero_le _), if_pos (by omega), Nat.sub_zero]
  have hlen : a.stored.length ≤ 4 := by
    by_contra hlong
    apply hlong
    apply Arg.stored_le
    rw [← hbyte 3 (by omega), ← List.getElem?_take_of_lt (show 3 < 4 by decide), hhead]
    rfl
  rw [List.prefix_iff_eq_take]
  apply List.ext_getElem?
  intro j
  by_cases hj : j < a.stored.length
  · rw [List.getElem?_take_of_lt hj, ← hbyte j hj,
      ← List.getElem?_take_of_lt (show j < 4 by omega), hhead, List.getElem?_take_of_lt (by omega)]
  · rw [List.getElem?_eq_none (by omega), List.getElem?_eq_none (by simp; omega)]

/-- The path names a directory through its last element, and the target is not the start of its
entry `.`. -/
def Smashes (s : State) (target path : Arg) : Prop :=
  ∃ ip, s.names path.str = some ip ∧ elements path.str ≠ [] ∧ (s.node ip).type = tDir ∧
    ¬ target.stored <+: Dirent.bytes ip dot

/-- A new entry can be made for the path, and no block is left for the target then. -/
def Overcommits (s : State) (path : Str) : Prop :=
  ∃ dp name k, Missing s s.node path dp name ∧ Vacant (s.node dp).data k ∧ ¬ NoInode s s.node ∧
    16 ≤ fits (s.node dp).data.length (s.room 0) (16*k) ∧ s.room 1 = 0

/-- The target of a `symlink` for `path` cannot be stored, and the inode that loses its links for
it, or is freed, has an entry. -/
def Dangles (s : State) (path : Str) : Prop :=
  (∃ ip, s.names path = some ip ∧ elements path ≠ [] ∧ (s.node ip).data = [] ∧
    (tree s.node).Linked ip ∧ s.room 0 = 0) ∨ Overcommits s path

theorem linked_slot (hd : (nd d).type = tDir) (hk : 2 ≤ k) (hi : (slot (nd d).data k).inum = i)
    (h0 : i ≠ 0) : (tree nd).Linked i :=
  ⟨d, k-2, entry_eq_some.mpr ⟨hd, by rw [Nat.sub_add_cancel hk, hi], h0⟩⟩

/-- `create` for a link takes whatever the path leads to. -/
theorem Refused.no_last {path : Str} {ip : Nat} (h : Refused s.begun s.node 0 path tSymlink nd)
    (hn : s.names path = some ip) (hes : elements path ≠ []) : False := by
  obtain ⟨-, hnil | hno⟩ := h.named ip hn
  · exact hes hnil
  · exact hno (.inl rfl)

theorem Refused.not_overcommits {path : Str} (h : Refused s.begun s.node 0 path tSymlink nd) :
    ¬ Overcommits s path := by
  rintro ⟨dp, name, k, hm, hv, hfree, hfit, -⟩
  cases h.missing (by decide) dp name k ⟨hm.last, hm.dir, hm.absent⟩ hv with
  | inl hno => exact hfree hno
  | inr hno => exact absurd hfit (Nat.not_le.mpr hno)

theorem Overcommits.absent {path : Str} (h : Overcommits s path) : s.names path = none := by
  obtain ⟨dp, name, k, hm, -⟩ := h
  exact hm.walk

theorem At.sound_iff (hat : At s nd [] [] n s') (h : Sound s) :
    Sound s' ↔ Shape s.ninodes s.ref nd ∧ Quiet s.ref nd := by
  constructor
  · intro h'
    have href : s'.ref = s.ref := by
      funext j
      rw [hat.ref, List.count_nil, Nat.add_zero]
    rw [← hat.ninodes, ← href, ← hat.node]
    exact ⟨h'.shape, h'.quiet⟩
  · intro hord
    exact (Done.sound ⟨nd, n, hat, hord.1, hord.2⟩ h)

theorem Overcommits.not_named {path : Str} {ip : Nat} (hn : s.names path = some ip) :
    ¬ Overcommits s path := by
  intro h
  rw [h.absent] at hn
  cases hn

theorem not_smashes {ip : Nat} (hn : s.names path.str = some ip) (hleaf : (s.node ip).type ≠ tDir) :
    ¬ Smashes s target path := by
  rintro ⟨j, hj, -, hd, -⟩
  rw [hn] at hj
  cases hj
  exact hleaf hd

theorem fresh_symlink (hn : s.names path.str = none) (hroom : s.room 1 ≠ 0) :
    ¬ Smashes s target path ∧ ¬ Dangles s path.str := by
  constructor
  · rintro ⟨ip, hip, -⟩
    rw [hn] at hip
    cases hip
  · rintro (⟨ip, hip, -⟩ | ⟨dp, name, k, -, -, -, -, hfull⟩)
    · rw [hn] at hip
      cases hip
    · exact hroom hfull

/-- A directory whose start is overwritten stays in order only if nothing changes. -/
theorem Sound.overwrite_dir_iff {ip : Nat} (h : Sound s) (hd : (s.node ip).type = tDir) :
    Shape s.ninodes s.ref (Function.update s.node ip ((s.node ip).write 0 target.stored)) ∧
        Quiet s.ref (Function.update s.node ip ((s.node ip).write 0 target.stored)) ↔
      target.stored <+: Dirent.bytes ip dot := by
  constructor
  · intro hord
    have hok := hord.1.dirs ip (by rw [Function.update_self]; exact hd)
    rw [Function.update_self] at hok
    exact spelled_of_dirOk hok
  · intro hspelled
    have hsame : (s.node ip).write 0 target.stored = s.node ip := by
      rw [Node.write, overwrite_stored (h.shape.dirs ip hd).head hspelled]
    rw [hsame, Function.update_eq_self]
    exact ⟨h.shape, h.quiet⟩

/-- An inode may lose its links only if nothing names it. -/
theorem Sound.unlinked_iff {ip : Nat} (h : Sound s) (ht : (s.node ip).type ≠ 0)
    (hleaf : (s.node ip).type ≠ tDir) :
    Shape s.ninodes s.ref
          (reap s.ref [] ip (Function.update s.node ip { s.node ip with nlink := 0 })) ∧
        Quiet s.ref (reap s.ref [] ip (Function.update s.node ip { s.node ip with nlink := 0 })) ↔
      ¬ (tree s.node).Linked ip := by
  have hne : ∀ j, j ≠ ip →
      Function.update s.node ip { s.node ip with nlink := 0 } j = s.node j :=
    fun j hj => Function.update_of_ne hj ..
  constructor
  · rintro hord ⟨d, k, he⟩
    -- The directories are as they were, so the inode is named still.
    have hd := (entry_eq_some.mp he).1
    have hdi : d ≠ ip := fun hdi => hleaf (hdi ▸ hd)
    refine (hord.1.linked ⟨d, k, ?_⟩).2 nlink_reap_unlinked
    rw [← he]
    apply entry_congr
    · rw [reap_ne hdi, hne d hdi]
    · intro _
      rw [reap_ne hdi, hne d hdi]
  · intro hno
    constructor
    · apply Shape.reap
      · apply h.shape.congrNamed
        · intro j
          by_cases hj : j = ip
          · rw [hj, Function.update_self]
          · rw [hne j hj]
        · intro j hj
          rw [hne j]
          rintro rfl
          exact hj.elim hleaf hno
        · intro j hj
          rw [hne j]
          rintro rfl
          exact hleaf hj
      · rw [Function.update_self]
        exact ht
    · apply QuietBut.quiet
      apply QuietBut.reap _ List.not_mem_nil
      intro j hj
      rw [hne j (by simpa using hj)]
      exact h.quiet j

/-- An entry without its inode. -/
theorem Sound.not_stranded {ip dp k : Nat} {name : Str} (h : Sound s)
    (hm : Missing s s.node path.str dp name) (h0 : 0 < ip) (hi : ip < s.ninodes)
    (hv : Vacant (s.node dp).data k)
    (hnd : nd dp = Sys.created s.node dp k ip name tSymlink 0 0 dp) (hfree : (nd ip).type = 0) :
    ¬ Shape s.ninodes s.ref nd := by
  intro hsh
  have hcount := h.shape.count
  have hl : (tree nd).Linked ip := by
    apply linked_slot (d := dp) _ (h.shape.two_le hm.dir hv.empty)
    · rw [hnd, Sys.created, Function.update_self]
      change (slot (overwrite (s.node dp).data (16*k) (Dirent.bytes ip name)) k).inum = ip
      rw [slot_overwrite_self hv.le (bytes_length ..), ofBytes_bytes _ _ (by omega)]
    · omega
    · rw [hnd, Sys.created, Function.update_self]
      exact hm.dir
  exact (hsh.linked hl).1 hfree

theorem Dangles.of_named {ip : Nat} (h : Dangles s path.str) (hn : s.names path.str = some ip) :
    (s.node ip).data = [] ∧ (tree s.node).Linked ip ∧ s.room 0 = 0 := by
  cases h with
  | inl hnamed =>
    obtain ⟨j, hj, -, hdata, hl, hfull⟩ := hnamed
    cases hn.symm.trans hj
    exact ⟨hdata, hl, hfull⟩
  | inr hover => exact (hover.not_named hn).elim

theorem SymlinkExit.sound_iff (h : Sound s) (hexit : SymlinkExit s target path r nd) :
    Shape s.ninodes s.ref nd ∧ Quiet s.ref nd ↔
      ¬ Smashes s target path ∧ ¬ Dangles s path.str := by
  cases hexit with
  | refused hu hwhy =>
    refine iff_of_true ⟨hu.toSame.shape h.shape, hu.toSame.quiet h.quiet⟩ ⟨?_, ?_⟩
    · rintro ⟨ip, hn, hes, -⟩
      exact hwhy.no_last hn hes
    · rintro (⟨ip, hn, hes, -⟩ | hover)
      · exact hwhy.no_last hn hes
      · exact hwhy.not_overcommits hover
  | @overwritten ip hn hes hroom =>
    have hdang : ¬ Dangles s path.str := by
      intro hno
      obtain ⟨hdata, -, hfull⟩ := hno.of_named hn
      rw [hdata, List.length_nil, hfull] at hroom
      omega
    by_cases hd : (s.node ip).type = tDir
    · rw [h.overwrite_dir_iff hd]
      constructor
      · intro hspelled
        refine ⟨?_, hdang⟩
        rintro ⟨j, hj, -, -, hno⟩
        cases hn.symm.trans hj
        exact hno hspelled
      · intro hsafe
        by_contra hno
        exact hsafe.1 ⟨ip, hn, hes, hd, hno⟩
    · exact iff_of_true ⟨h.shape.write hd, h.quiet.write⟩ ⟨not_smashes hn hd, hdang⟩
  | @unlinked ip hn hes ht hdata hfull =>
    have hleaf : (s.node ip).type ≠ tDir := by
      intro hd
      have htwo := (h.shape.dirs ip hd).two
      rw [hdata, List.length_nil] at htwo
      omega
    rw [h.unlinked_iff ht hleaf]
    constructor
    · intro hno
      exact ⟨not_smashes hn hleaf, fun hdang => hno (hdang.of_named hn).2.1⟩
    · intro hsafe hl
      exact hsafe.2 (.inl ⟨ip, hn, hes, hdata, hl, hfull⟩)
  | @linked ip dp k name hm hip h0 hi hv hroom =>
    have hm' : Missing s.begun s.node path.str dp name := ⟨hm.last, hm.dir, hm.absent⟩
    obtain ⟨hsh, hq, -⟩ := h.created hm' hip h0 hi hv (by decide : tSymlink ≠ 0) 0 0
    have hself : created s.node dp k ip name tSymlink 0 0 ip = newNode dp ip tSymlink 0 0 :=
      created_self (hm.ne hip)
    have hleaf : (created s.node dp k ip name tSymlink 0 0 ip).type ≠ tDir := by
      rw [hself]
      exact (by decide : tSymlink ≠ tDir)
    rw [← write_newNode, ← hself]
    exact iff_of_true ⟨hsh.write hleaf, hq.write⟩ (fresh_symlink hm.walk (by omega))
  | @stranded ip dp k name hm hip h0 hi hv hfit hfull _ hnd hfree =>
    refine iff_of_false (fun hord => h.not_stranded hm h0 hi hv hnd hfree hord.1) ?_
    intro hsafe
    exact hsafe.2 (.inr ⟨dp, name, k, hm, hv, fun hno => hno ip h0 hi hip, hfit, hfull⟩)

/-- `sys_symlink` leaves a state in order unless it overwrites a directory or leaves an entry
without its inode. -/
theorem Sound.sysSymlink_iff (h : Sound s)
    (hr : sysSymlink (some target) (some path) s = .ok (r, s')) :
    Sound s' ↔ ¬ Smashes s target path ∧ ¬ Dangles s path.str := by
  obtain ⟨nd, n, hexit, hat⟩ := h.coherent.sysSymlink hr
  rw [hat.sound_iff h]
  exact hexit.sound_iff h

end

/-! `sys_link`. -/

/-- What `sys_link` needs to make the new entry: slot `k` of the directory `dp` takes `name`. -/
structure Links (s : State) (old new : Arg) (ip dp k : Nat) (name : Str) : Prop where
  named : s.names old.str = some ip
  leaf : (s.node ip).type ≠ tDir
  missing : Missing s s.node new.str dp name
  vacant : Vacant (s.node dp).data k
  fit : 16 ≤ fits (s.node dp).data.length (s.room 0) (16*k)

def linkedNode (nd : Nat → Node) (dp k ip : Nat) (name : Str) : Nat → Node :=
  relink nd dp k (Dirent.bytes ip name) ip (nd dp).nlink ((nd ip).nlink + 1)

/-- The ways `sys_link` returns. -/
inductive LinkExit (s : State) (old new : Arg) : Int → (Nat → Node) → Prop
  | refused (hno : ∀ ip dp k name, ¬ Links s old new ip dp k name) :
      LinkExit s old new (-1) s.node
  | linked {ip dp k : Nat} {name : Str} (hl : Links s old new ip dp k name)
      (ht : (s.node ip).type ≠ 0) (hn : (s.node ip).nlink ≠ -1) :
      LinkExit s old new 0 (linkedNode s.node dp k ip name)
  -- The count of the inode is 0 again, and the inode may be gone with that.
  | wrapped {ip dp k : Nat} {name : Str} (hl : Links s old new ip dp k name)
      (ht : (s.node ip).type ≠ 0) (hn : (s.node ip).nlink = -1) {nd : Nat → Node}
      (hnd : nd dp = linkedNode s.node dp k ip name dp) (h0 : (nd ip).nlink = 0) :
      LinkExit s old new 0 nd

section
variable {s s0 s' : State} {old new : Arg} {r : Int} {nd : Nat → Node} {ip dp k n : Nat}
  {name : Str} {hs ls : List Nat}

theorem At.iput_cases (h : At s0 nd (ip :: hs) ls n s) (hi : ip ∉ ls) {u : Unit}
    (hr : Sys.iput ip s = .ok (u, s')) :
    At s0 nd hs ls n s' ∨
      (nd ip).nlink = 0 ∧ At s0 (Function.update nd ip (nd ip).freed) hs ls n s' := by
  by_cases hfree : s.ref ip = 1 ∧ s.valid ip = true ∧ (s.node ip).nlink = 0
  · have hlast := h.ref ip
    rw [List.count_cons_self] at hlast
    have hn : (nd ip).nlink = 0 := h.node ▸ hfree.2.2
    exact .inr ⟨hn, h.iput_free hi hfree.2.1 hn (by omega) hr⟩
  · unfold Sys.iput at hr
    rw [if_neg hfree] at hr
    cases hr
    exact .inl (h.drop (.inl hi))

theorem walk_nlink (mi : Int16) (es : List Str) :
    ∀ d, walk (Function.update nd ip { nd ip with nlink := mi }) d es = walk nd d es := by
  induction es with
  | nil => exact fun _ => rfl
  | cons e es ih =>
    intro d
    have hd : (Function.update nd ip { nd ip with nlink := mi } d).type = (nd d).type ∧
        (Function.update nd ip { nd ip with nlink := mi } d).data = (nd d).data := by
      by_cases he : d = ip
      · rw [he, Function.update_self]
        exact ⟨rfl, rfl⟩
      · rw [Function.update_of_ne he]
        exact ⟨rfl, rfl⟩
    rw [walk, walk, hd.1, hd.2]
    split
    · rfl
    · cases find (nd d).data e with
      | none => rfl
      | some k => exact ih _

theorem Coherent.linkBad (h : Coherent s) (hip : (s.node ip).type ≠ 0)
    (hat : At s.begun (Function.update s.node ip
      { s.node ip with nlink := (s.node ip).nlink + 1 }) [ip] [] n s0)
    (hr : linkBad ip s0 = .ok (r, s')) : r = -1 ∧ At s s.node [] [] n s' := by
  unfold Sys.linkBad at hr
  obtain ⟨_, t1, g1, hr⟩ := bind_ok hr
  obtain ⟨hat, -, ht⟩ := hat.ilock g1
  obtain ⟨_, t2, g2, hr⟩ := bind_ok hr
  have hat := hat.iupdate ht g2
  rw [Function.update_idem, Function.update_self] at hat
  have hback : { s.node ip with nlink := (s.node ip).nlink + 1 - 1 } = s.node ip := by
    rw [Int16.add_sub_cancel]
  rw [hback, Function.update_eq_self] at hat
  obtain ⟨_, t3, g3, hr⟩ := bind_ok hr
  obtain ⟨_, t4, g4, hr⟩ := bind_ok hr
  obtain ⟨rfl, rfl⟩ := pure_ok hr
  exact ⟨rfl, (hat.iunlockput List.not_mem_nil (h.quiet.held hip) g3).endOp g4⟩

theorem start_hold (s : State) (ip : Nat) (path : Str) :
    (s.begun.hold ip).start path = s.start path := by
  have hrest := s.begun.hold_rest ip
  unfold State.start State.myproc
  rw [hrest.2.2.2.2.1, hrest.2.2.2.2.2]
  rfl

/-- An inode that a call holds may have no links for now. -/
theorem Quiet.counted (h : Quiet s.ref s.node) (ip : Nat) (mi : Int16) :
    Quiet (s.begun.hold ip).ref (Function.update s.node ip { s.node ip with nlink := mi }) := by
  intro j hj
  rw [State.ref_hold]
  by_cases he : j = ip
  · refine .inr ?_
    rw [he, Function.update_self]
    exact Nat.succ_pos _
  · rw [Function.update_of_ne he] at hj ⊢
    rw [Function.update_of_ne he]
    exact h j hj

/-- The end of `sys_link` after the entry is made. -/
theorem Coherent.linkDone (h : Coherent s) (hl : Links s old new ip dp k name)
    (hip : (s.node ip).type ≠ 0)
    (hat : At (s.begun.hold ip) (linkedNode s.node dp k ip name) [dp] [dp] n s0)
    (hr : (do Sys.iunlockput dp; Sys.iput ip; Sys.endOp; pure 0 : K Int) s0 = .ok (r, s')) :
    ∃ nd n, LinkExit s old new r nd ∧ At s nd [] [] n s' := by
  have hne : dp ≠ ip := fun he => hl.leaf (he ▸ hl.missing.dir)
  have hdp0 : (s.node dp).type ≠ 0 := by
    rw [hl.missing.dir]
    exact tDir_ne_zero
  obtain ⟨_, s1, h1, hr⟩ := bind_ok hr
  obtain ⟨_, s2, h2, hr⟩ := bind_ok hr
  obtain ⟨_, s3, h3, hr⟩ := bind_ok hr
  obtain ⟨rfl, rfl⟩ := pure_ok hr
  have hquiet : Quiet (s.begun.hold ip).ref (linkedNode s.node dp k ip name) :=
    quiet_relink (by rw [State.ref_hold, Function.update_of_ne hne]; exact h.quiet dp hdp0)
      (h.quiet.counted ip _)
  have hat := hat.iunlockput List.not_mem_nil
    (hquiet.held (by rw [linkedNode, type_relink]; exact hdp0)) h1
  have hat := At.hold_iff.mp hat
  have hcount : (linkedNode s.node dp k ip name ip).nlink = (s.node ip).nlink + 1 := by
    rw [linkedNode, relink, Function.update_of_ne hne.symm, Function.update_self]
  by_cases hn : (s.node ip).nlink = -1
  · have h0 : (linkedNode s.node dp k ip name ip).nlink = 0 := by
      rw [hcount, hn]
      rfl
    cases hat.iput_cases List.not_mem_nil h2 with
    | inl hat => exact ⟨_, _, .wrapped hl hip hn rfl h0, hat.endOp h3⟩
    | inr hfreed =>
      obtain ⟨-, hat⟩ := hfreed
      refine ⟨_, _, .wrapped hl hip hn ?_ ?_, hat.endOp h3⟩
      · rw [Function.update_of_ne hne]
      · rw [Function.update_self]
        exact h0
  · have hne0 : (linkedNode s.node dp k ip name ip).nlink ≠ 0 := by
      intro hz
      rw [hcount] at hz
      exact hn (by rw [← Int16.add_sub_cancel (s.node ip).nlink 1, hz]; rfl)
    have hat := hat.iput (fun hm => absurd hm List.not_mem_nil) (fun _ => .inl hne0) h2
    exact ⟨_, _, .linked hl hip hn, hat.endOp h3⟩

theorem Coherent.sysLink (h : Coherent s) (hr : sysLink (some old) (some new) s = .ok (r, s')) :
    ∃ nd n, LinkExit s old new r nd ∧ At s nd [] [] n s' := by
  dsimp only [Sys.sysLink] at hr
  obtain ⟨_, s1, h1, hr⟩ := bind_ok hr
  have hat := h.idle.beginOp h1
  obtain ⟨x, s2, h2, hr⟩ := bind_ok hr
  obtain ⟨hx, hat⟩ := hat.namei h.quiet h2
  have hx : x = s.names old.str := hx
  cases x with
  | none =>
    obtain ⟨_, s3, h3, hr⟩ := bind_ok hr
    obtain ⟨rfl, rfl⟩ := pure_ok hr
    refine ⟨_, _, .refused ?_, hat.endOp h3⟩
    intro ip dp k name hl
    cases hx.trans hl.named
  | some ip =>
    dsimp only at hr
    have hself : ∀ j dp k name, Links s old new j dp k name → j = ip := by
      intro j dp k name hl
      cases hx.trans hl.named
      rfl
    obtain ⟨_, s3, h3, hr⟩ := bind_ok hr
    obtain ⟨hat, -, hip⟩ := hat.ilock h3
    rw [hat.inode] at hr
    split at hr
    · rename_i hdir
      obtain ⟨_, s4, h4, hr⟩ := bind_ok hr
      obtain ⟨_, s5, h5, hr⟩ := bind_ok hr
      obtain ⟨rfl, rfl⟩ := pure_ok hr
      refine ⟨_, _, .refused ?_, (hat.iunlockput List.not_mem_nil (h.quiet.held hip) h4).endOp h5⟩
      intro j dp k name hl
      exact hl.leaf (hself j dp k name hl ▸ hdir)
    · rename_i hleaf
      obtain ⟨_, s4, h4, hr⟩ := bind_ok hr
      have hat := hat.iupdate hip h4
      obtain ⟨_, s5, h5, hr⟩ := bind_ok hr
      obtain ⟨hat, -⟩ := hat.iunlock List.not_mem_nil h5
      have hat := At.hold_iff.mpr hat
      have hq1 := h.quiet.counted ip ((s.node ip).nlink + 1)
      generalize hnd1 : Function.update s.node ip
        { s.node ip with nlink := (s.node ip).nlink + 1 } = nd1 at hat hq1
      have hother : ∀ j, j ≠ ip → nd1 j = s.node j := by
        intro j hj
        rw [← hnd1, Function.update_of_ne hj]
      have hwalk : ∀ d es, walk nd1 d es = walk s.node d es := by
        intro d es
        rw [← hnd1]
        exact walk_nlink _ es d
      obtain ⟨y, s6, h6, hr⟩ := bind_ok hr
      cases hat.nameiparent hq1 h6 with
      | inl hnone =>
        obtain ⟨rfl, hno, hat⟩ := hnone
        obtain ⟨rfl, hat⟩ := h.linkBad hip (hnd1 ▸ At.hold_iff.mp hat) hr
        refine ⟨_, _, .refused ?_, hat⟩
        intro j dp k name hl
        cases hself j dp k name hl
        obtain ⟨es, hes, hw⟩ := hl.missing.last
        have hnd := hno es name dp hes (by rw [start_hold, hwalk]; exact hw)
        rw [hother dp fun he => hleaf (he ▸ hl.missing.dir)] at hnd
        exact hnd hl.missing.dir
      | inr hsome =>
        obtain ⟨dp, name, es, rfl, hat, hdp, hes, hw⟩ := hsome
        dsimp only at hr
        have hne : dp ≠ ip := by
          intro he
          rw [he, ← hnd1, Function.update_self] at hdp
          exact hleaf hdp
        rw [start_hold, hwalk] at hw
        obtain ⟨_, s7, h7, hr⟩ := bind_ok hr
        obtain ⟨hat, -, hdp0⟩ := hat.ilock h7
        obtain ⟨m, s8, h8, hr⟩ := bind_ok hr
        obtain ⟨-, hlink⟩ := hat.dirlink hq1 (by simp) h8
        rw [hother dp hne, (s.begun.hold_rest ip).2.1] at hlink
        cases hlink with
        | inl hfail =>
          obtain ⟨rfl, hwhy, n', hat⟩ := hfail
          rw [if_pos (by decide)] at hr
          obtain ⟨_, s9, h9, hr⟩ := bind_ok hr
          have hat := hat.iunlockput List.not_mem_nil (hq1.held hdp0) h9
          obtain ⟨rfl, hat⟩ := h.linkBad hip (hnd1 ▸ At.hold_iff.mp hat) hr
          refine ⟨_, _, .refused ?_, hat⟩
          intro j dp' k name' hl
          cases hself j dp' k name' hl
          obtain ⟨es', hes', hw'⟩ := hl.missing.last
          rw [hes] at hes'
          obtain ⟨rfl, hname⟩ := List.append_inj' hes' rfl
          rw [hw] at hw'
          cases hw'
          cases hname
          exact absurd hl.fit (Nat.not_le.mpr (hwhy k hl.missing.absent hl.vacant))
        | inr hdone =>
          obtain ⟨rfl, hf, k, hv, hfit, hat⟩ := hdone
          rw [if_neg (by decide)] at hr
          rw [hother dp hne] at hdp
          rw [← hnd1] at hat
          exact h.linkDone ⟨hx.symm, hleaf, ⟨⟨es, hes, hw⟩, hdp, hf⟩, hv, hfit⟩ hip hat hr

/-- The new link brings the 16-bit count of its inode back to 0. -/
def Wraps (s : State) (old new : Arg) : Prop :=
  ∃ ip dp k name, Links s old new ip dp k name ∧ (s.node ip).nlink = -1

theorem not_wraps (hn : s.names old.str = some ip) (h : (s.node ip).nlink ≠ -1) :
    ¬ Wraps s old new := by
  rintro ⟨j, dp, k, name, hl, hw⟩
  have hj := hl.named
  rw [hn] at hj
  cases hj
  exact h hw

theorem LinkExit.sound_iff (h : Sound s) (hexit : LinkExit s old new r nd) :
    Shape s.ninodes s.ref nd ∧ Quiet s.ref nd ↔ ¬ Wraps s old new := by
  cases hexit with
  | refused hno =>
    refine iff_of_true ⟨h.shape, h.quiet⟩ ?_
    rintro ⟨ip, dp, k, name, hl, -⟩
    exact hno ip dp k name hl
  | @linked ip dp k name hl ht hn =>
    have hdp0 : (s.node dp).type ≠ 0 := by
      rw [hl.missing.dir]
      exact tDir_ne_zero
    have hne0 : (s.node ip).nlink + 1 ≠ 0 := by
      intro hz
      exact hn (by rw [← Int16.add_sub_cancel (s.node ip).nlink 1, hz]; rfl)
    refine iff_of_true ⟨?_, ?_⟩ ?_
    · exact h.shape.link hl.missing.dir hl.vacant ht hl.leaf hn name
    · exact quiet_relink (h.quiet dp hdp0) (quiet_update h.quiet hne0)
    · exact not_wraps hl.named hn
  | @wrapped ip dp k name hl ht hn _ hnd h0 =>
    refine iff_of_false ?_ (not_not.mpr ⟨ip, dp, k, name, hl, hn⟩)
    intro hord
    have hk := h.shape.two_le hl.missing.dir hl.vacant.empty
    have hrange := h.shape.range ip ht
    have hcount := h.shape.count
    refine (hord.1.linked (linked_slot (d := dp) ?_ hk ?_ (by omega))).2 h0
    · rw [hnd, linkedNode, type_relink]
      exact hl.missing.dir
    · rw [hnd, linkedNode, data_relink_self, slot_overwrite_self hl.vacant.le (bytes_length ..),
        ofBytes_bytes _ _ (by omega)]

theorem Sound.sysLink_iff (h : Sound s) (hr : sysLink (some old) (some new) s = .ok (r, s')) :
    Sound s' ↔ ¬ Wraps s old new := by
  obtain ⟨nd, n, hexit, hat⟩ := h.coherent.sysLink hr
  rw [hat.sound_iff h]
  exact hexit.sound_iff h

end

end Xv6Labs.Sys
