import Xv6Labs.Sys.Create

/-! What each system call leaves behind, exit by exit. The state in which a call starts is `s0`;
between `begin_op` and `end_op` it has one more transaction open. -/
namespace Xv6Labs.Sys
open Kit Fs

def State.begun (s : State) : State := { s with ops := s.ops + 1 }

/-- The inodes after the last reference beside `hs` to `i` is given up. -/
def reap (ref : Nat → Nat) (hs : List Nat) (i : Nat) (nd : Nat → Node) : Nat → Node :=
  if (nd i).nlink = 0 ∧ ref i + hs.count i = 0 then Function.update nd i (nd i).freed else nd

/-- `Quiet`, but for the inodes in `is`. -/
def QuietBut (ref : Nat → Nat) (nd : Nat → Node) (is : List Nat) : Prop :=
  ∀ i, i ∉ is → (nd i).type ≠ 0 → (nd i).nlink ≠ 0 ∨ 0 < ref i

section
variable {s0 s s' : State} {nd : Nat → Node} {hs ls is : List Nat} {n ip dp i N : Nat}
  {ref : Nat → Nat} {r : Int}

theorem Idle.beginOp (h : Idle s) {u : Unit} (hr : beginOp s = .ok (u, s')) :
    At s.begun s.node [] [] 0 s' := by
  cases hr
  have hb : Idle s.begun := ⟨h.valid, h.locked⟩
  exact hb.at

theorem At.endOp (h : At s0.begun nd hs ls n s) {u : Unit} (hr : endOp s = .ok (u, s')) :
    At s0 nd hs ls n s' := by
  cases hr
  have hops : s.ops - 1 = s0.ops := by
    rw [h.ops]
    exact Nat.add_sub_cancel ..
  exact { h with ops := hops }

theorem At.iunlockput_reap (h : At s0 nd (i :: hs) (i :: ls) n s) (hi : i ∉ ls) {u : Unit}
    (hr : Sys.iunlockput i s = .ok (u, s')) : At s0 (reap s0.ref hs i nd) hs ls n s' := by
  unfold reap
  split
  · rename_i hc
    exact h.iunlockput_free hi hc.1 hc.2 hr
  · rename_i hc
    refine h.iunlockput hi ?_ hr
    by_cases h0 : (nd i).nlink = 0
    · right
      by_contra hz
      exact hc ⟨h0, by omega⟩
    · exact .inl h0

theorem reap_ne {j : Nat} (hj : j ≠ i) : reap ref hs i nd j = nd j := by
  unfold reap
  split
  · rw [Function.update_of_ne hj]
  · rfl

theorem reap_update {x : Node} (h : dp ≠ ip) :
    Function.update (reap ref hs dp nd) ip x = reap ref hs dp (Function.update nd ip x) := by
  unfold reap
  rw [Function.update_of_ne h]
  split
  · rw [Function.update_comm h]
  · rfl

theorem Shape.reap (h : Shape N ref nd) (ht : (nd i).type ≠ 0) :
    Shape N ref (Sys.reap ref hs i nd) := by
  unfold Sys.reap
  split
  · rename_i hc
    exact h.free ht hc.1 (by omega) rfl
  · exact h

theorem QuietBut.reap (h : QuietBut ref nd (i :: is)) (hi : i ∉ hs) :
    QuietBut ref (Sys.reap ref hs i nd) is := by
  intro j hj ht
  by_cases he : j = i
  · subst he
    unfold Sys.reap at ht ⊢
    split at ht
    · rw [Function.update_self] at ht
      exact absurd rfl ht
    · rename_i hc
      rw [if_neg hc]
      rw [List.count_eq_zero.mpr hi] at hc
      by_cases h0 : (nd j).nlink = 0
      · right
        by_contra hz
        exact hc ⟨h0, by omega⟩
      · exact .inl h0
  · rw [reap_ne he] at ht ⊢
    exact h j (by simp [he, hj]) ht

theorem QuietBut.quiet (h : QuietBut ref nd []) : Quiet ref nd :=
  fun i => h i List.not_mem_nil

theorem Same.shape {nd' : Nat → Node} (h : Shape N ref nd) (hs : Same nd nd') : Shape N ref nd' := by
  apply h.congr
  · intro i
    by_cases h0 : (nd i).type = 0
    · rw [h0, hs.free i h0]
    · rw [hs.used i h0]
  · intro i hi
    rw [hs.used i hi]
  · intro i hi
    rw [hs.used i (by rw [hi]; exact tDir_ne_zero)]

theorem Same.quiet {nd' : Nat → Node} (h : Quiet ref nd) (hs : Same nd nd') : Quiet ref nd' := by
  intro i hi
  have h0 : (nd i).type ≠ 0 := fun h0 => hi (hs.free i h0)
  rw [hs.used i h0] at hi ⊢
  exact h i hi

theorem Shape.created {k : Nat} {type : Int16} (h : Shape N ref nd)
    (hdp : (nd dp).type = tDir) (hip : (nd ip).type = 0) (h0 : 0 < ip) (hi : ip < N)
    (hv : Vacant (nd dp).data k) (ht : type ≠ 0) (name : Str) (major minor : Int16) :
    Shape N ref (created nd dp k ip name type major minor) ∧
      (type = tDir → (nd dp).nlink + 1 ≠ 0) := by
  have hdp0 : (nd dp).type ≠ 0 := by
    rw [hdp]
    exact tDir_ne_zero
  have hne : dp ≠ ip := fun he => hdp0 (he ▸ hip)
  have hd := h.range dp hdp0
  have hN := h.count
  -- The new inode without its link, then the link.
  have h1 : Shape N ref (Function.update nd ip
      ⟨type, major, minor, 0, if type = tDir then dots ip dp else []⟩) := by
    apply h.alloc hip h0 hi ht rfl
    · intro htd
      dsimp only at htd ⊢
      rw [if_pos htd]
      exact dirOk_dots (by omega) (by omega) (by omega)
    · intro k hk htd
      dsimp only at htd ⊢
      rw [if_pos htd]
      exact slot_past (by rw [dots_length]; omega)
  have heq : Sys.created nd dp k ip name type major minor =
      Sys.relink (Function.update nd ip
        ⟨type, major, minor, 0, if type = tDir then dots ip dp else []⟩) dp k
        (Dirent.bytes ip name) ip
        (if type = tDir then (nd dp).nlink + 1 else (nd dp).nlink) (0+1) := by
    unfold Sys.relink Sys.created newNode
    rw [Function.update_idem, Function.update_self, Function.update_of_ne hne]
    rfl
  have hdp1 : Function.update nd ip
      (⟨type, major, minor, 0, if type = tDir then dots ip dp else []⟩ : Node) dp = nd dp :=
    Function.update_of_ne hne ..
  by_cases htd : type = tDir
  · have hmd := h1.nlink_dir (d := dp) (i := ip) (by rw [hdp1, hdp])
      (by rw [Function.update_self]; exact ht) (by rw [Function.update_self])
    rw [hdp1] at hmd
    have hlink := h1.linkDir (d := dp) (k := k) (i := ip) (by rw [hdp1, hdp]) (by rw [hdp1]; exact hv)
      (by rw [Function.update_self]; exact htd) (by rw [Function.update_self])
      (by
        rw [Function.update_self]
        dsimp only
        rw [if_pos htd, slot_one_dots (by omega)]) hne.symm name
    rw [hdp1, Function.update_self] at hlink
    refine ⟨?_, ?_⟩
    · have hif : (if type = tDir then (nd dp).nlink + 1 else (nd dp).nlink) =
          (nd dp).nlink + 1 := if_pos htd
      rw [heq, hif]
      exact hlink
    · intro _ hz
      exact hmd (by rw [← Int16.add_sub_cancel (nd dp).nlink 1, hz]; rfl)
  · have hlink := h1.link (d := dp) (k := k) (i := ip) (by rw [hdp1, hdp]) (by rw [hdp1]; exact hv)
      (by rw [Function.update_self]; exact ht) (by rw [Function.update_self]; exact htd)
      (by rw [Function.update_self]; exact (by decide : (0 : Int16) ≠ -1)) name
    rw [hdp1, Function.update_self] at hlink
    refine ⟨?_, fun he => absurd he htd⟩
    have hif : (if type = tDir then (nd dp).nlink + 1 else (nd dp).nlink) = (nd dp).nlink :=
      if_neg htd
    rw [heq, hif]
    exact hlink

theorem Quiet.created {k : Nat} {name : Str} {type major minor : Int16} (h : Quiet ref nd)
    (hdp : (nd dp).type ≠ 0) (hne : ip ≠ dp) (hmd : type = tDir → (nd dp).nlink + 1 ≠ 0) :
    Quiet ref (created nd dp k ip name type major minor) := by
  unfold Sys.created
  intro j hj
  by_cases hjd : j = dp
  · subst hjd
    rw [Function.update_self]
    dsimp only
    split
    · rename_i htd
      exact .inl (hmd htd)
    · exact h j hdp
  · by_cases hji : j = ip
    · subst hji
      rw [Function.update_of_ne hjd, Function.update_self]
      exact .inl (by decide : (1 : Int16) ≠ 0)
    · rw [Function.update_of_ne hjd, Function.update_of_ne hji] at hj ⊢
      exact h j hj

theorem created_self {k : Nat} {name : Str} {type major minor : Int16} (hne : ip ≠ dp) :
    created nd dp k ip name type major minor ip = newNode dp ip type major minor := by
  unfold created
  rw [Function.update_of_ne hne, Function.update_self]

/-- The new inode is not the directory it is put in. -/
theorem Missing.ne {path name : Str} (h : Missing s0 nd path dp name) (hip : (nd ip).type = 0) :
    ip ≠ dp := by
  intro he
  have hd := h.dir
  rw [← he, hip] at hd
  exact tDir_ne_zero hd.symm

/-- A state between calls: each inode in use has a link or a reference, each reference is to an
inode in use, and a directory entry can hold every inode number. -/
structure Coherent (s : State) : Prop where
  idle : Idle s
  quiet : Quiet s.ref s.node
  held : ∀ i, 0 < s.ref i → (s.node i).type ≠ 0
  count : s.ninodes ≤ 65536
  files : ∀ f, (s.ftable f).ref = 0 → (s.ftable f).type = .none

/-- A state between calls with the inodes in order. -/
structure Sound (s : State) : Prop where
  idle : Idle s
  shape : Shape s.ninodes s.ref s.node
  quiet : Quiet s.ref s.node
  files : ∀ f, (s.ftable f).ref = 0 → (s.ftable f).type = .none

theorem Sound.coherent (h : Sound s) : Coherent s :=
  ⟨h.idle, h.quiet, h.shape.held, h.shape.count, h.files⟩

/-- What `create` does for a name that is no directory's. -/
theorem Coherent.create {path : Str} {type major minor : Int16} (h : Coherent s)
    (hat : At s.begun s.node [] [] 0 s0) (ht : type ≠ 0) (htd : type ≠ tDir) {x : Option Nat}
    (hr : create path type major minor s0 = .ok (x, s')) :
    (x = none ∧ ∃ n nd, Undone s.node nd ∧ Refused s.begun s.node 0 path type nd ∧
      At s.begun nd [] [] n s') ∨
    (∃ ip, x = some ip ∧ s.names path = some ip ∧ (s.node ip).type ≠ 0 ∧ elements path ≠ [] ∧
      Accepts type (s.node ip).type ∧ At s.begun s.node [ip] [ip] 0 s') ∨
    (∃ ip dp name k, x = some ip ∧ Missing s.begun s.node path dp name ∧ (s.node ip).type = 0 ∧
      0 < ip ∧ ip < s.ninodes ∧ Vacant (s.node dp).data k ∧
      16 ≤ fits (s.node dp).data.length (s.room 0) (16*k) ∧
      At s.begun (Sys.created s.node dp k ip name type major minor) [ip] [ip] 1 s') := by
  have hc := hat.create h.quiet h.held h.count (fun he => absurd he htd) ht hr
  rw [if_neg htd] at hc
  cases hc with
  | inl hfail => exact .inl hfail
  | inr hc =>
    cases hc with
    | inl hold => exact .inr (.inl hold)
    | inr hnew =>
      obtain ⟨ip, dp, name, k, rfl, hm, hip, h0, hi, hv, hfit, hat⟩ := hnew
      exact .inr (.inr ⟨ip, dp, name, k, rfl, hm, hip, h0, hi, hv, hfit htd, hat⟩)

/-- A call that started in `s` has returned, with no lock or reference kept. -/
def Done (s s' : State) : Prop :=
  ∃ nd n, At s nd [] [] n s' ∧ Shape s.ninodes s.ref nd ∧ Quiet s.ref nd

theorem At.idle (h : At s0 nd hs [] n s) : Idle s where
  valid := h.node ▸ h.valid
  locked i := by
    have := h.locked i
    simpa using this

theorem Done.sound (hd : Done s s') (h : Sound s) : Sound s' := by
  obtain ⟨nd, n, hat, hsh, hq⟩ := hd
  have href : s'.ref = s.ref := by
    funext i
    rw [hat.ref, List.count_nil, Nat.add_zero]
  refine ⟨hat.idle, ?_, ?_, ?_⟩
  · rw [hat.ninodes, href, hat.node]
    exact hsh
  · rw [href, hat.node]
    exact hq
  · rw [hat.ftable]
    exact h.files

/-- Nothing has changed but the inodes that are not in use. -/
theorem Sound.done_same {nd' : Nat → Node} (h : Sound s) (hs : Same s.node nd')
    (hat : At s nd' [] [] n s') : Done s s' :=
  ⟨nd', n, hat, hs.shape h.shape, hs.quiet h.quiet⟩

theorem Sound.done (h : Sound s) (hat : At s s.node [] [] n s') : Done s s' :=
  h.done_same (.refl _) hat

/-- `create` has made a new inode: the inodes are in order, and the new one has its link. -/
theorem Sound.created {k : Nat} {path name : Str} {type : Int16} (h : Sound s)
    (hm : Missing s.begun s.node path dp name) (hip : (s.node ip).type = 0) (h0 : 0 < ip)
    (hi : ip < s.ninodes) (hv : Vacant (s.node dp).data k) (ht : type ≠ 0) (major minor : Int16) :
    Shape s.ninodes s.ref (Sys.created s.node dp k ip name type major minor) ∧
      Quiet s.ref (Sys.created s.node dp k ip name type major minor) ∧
      (Sys.created s.node dp k ip name type major minor ip).nlink ≠ 0 := by
  have hne := hm.ne hip
  have hdp0 : (s.node dp).type ≠ 0 := by
    rw [hm.dir]
    exact tDir_ne_zero
  obtain ⟨hsh, hmd⟩ := h.shape.created hm.dir hip h0 hi hv ht name major minor
  refine ⟨hsh, h.quiet.created hdp0 hne hmd, ?_⟩
  rw [created_self hne]
  exact (by decide : (1 : Int16) ≠ 0)

theorem Sound.makeNode (h : Sound s) {path : Option Arg} {type major minor : Int16} (ht : type ≠ 0)
    (hr : makeNode path type major minor s = .ok (r, s')) : Done s s' := by
  unfold Sys.makeNode at hr
  obtain ⟨_, s1, h1, hr⟩ := bind_ok hr
  have hat := h.idle.beginOp h1
  cases path with
  | none =>
    obtain ⟨_, s2, h2, hr⟩ := bind_ok hr
    obtain ⟨rfl, rfl⟩ := pure_ok hr
    exact h.done (hat.endOp h2)
  | some path =>
    dsimp only at hr
    obtain ⟨x, s2, h2, hr⟩ := bind_ok hr
    have hc := hat.create h.quiet h.shape.held h.shape.count
      (fun _ _ _ => h.shape.nlink_room) ht h2
    cases hc with
    | inl hfail =>
      obtain ⟨rfl, n', nd', hs, -, hat⟩ := hfail
      obtain ⟨_, s3, h3, hr⟩ := bind_ok hr
      obtain ⟨rfl, rfl⟩ := pure_ok hr
      exact h.done_same hs.toSame (hat.endOp h3)
    | inr hc =>
      cases hc with
      | inl hold =>
        obtain ⟨ip, rfl, -, hip, -, -, hat⟩ := hold
        obtain ⟨_, s3, h3, hr⟩ := bind_ok hr
        obtain ⟨_, s4, h4, hr⟩ := bind_ok hr
        obtain ⟨rfl, rfl⟩ := pure_ok hr
        exact h.done ((hat.iunlockput List.not_mem_nil (h.quiet.held hip) h3).endOp h4)
      | inr hnew =>
        obtain ⟨ip, dp, name, k, rfl, hm, hip, h0, hi, hv, -, hat⟩ := hnew
        obtain ⟨_, s3, h3, hr⟩ := bind_ok hr
        obtain ⟨_, s4, h4, hr⟩ := bind_ok hr
        obtain ⟨rfl, rfl⟩ := pure_ok hr
        obtain ⟨hsh, hq, hkeep⟩ := h.created hm hip h0 hi hv ht major minor
        exact ⟨_, _, (hat.iunlockput List.not_mem_nil (.inl hkeep) h3).endOp h4, hsh, hq⟩

theorem quiet_relink {k : Nat} {bs : List UInt8} {md mi : Int16} (hd : md ≠ 0 ∨ 0 < ref dp)
    (hq : Quiet ref (Function.update nd ip { nd ip with nlink := mi })) :
    Quiet ref (relink nd dp k bs ip md mi) := by
  intro j hj
  unfold relink at hj ⊢
  by_cases hjd : j = dp
  · subst hjd
    rw [Function.update_self]
    exact hd
  · rw [Function.update_of_ne hjd] at hj ⊢
    exact hq j hj

/-- The entry goes, and with it the inodes that this leaves without links and references. -/
theorem At.unlinkEntry {k : Nat} {isDir : Bool} (h : At s0.begun nd [ip, dp] [ip, dp] n s)
    (hne : ip ≠ dp) (hdp : (nd dp).type ≠ 0) (hip : (nd ip).type ≠ 0)
    (hr : unlinkEntry dp ip (16*k) isDir s = .ok (r, s')) :
    At s0 (reap s0.ref [] ip (reap s0.ref [ip] dp (relink nd dp k (List.replicate 16 0) ip
      (if isDir then (nd dp).nlink - 1 else (nd dp).nlink) ((nd ip).nlink - 1)))) [] []
      (n+1) s' := by
  unfold Sys.unlinkEntry at hr
  obtain ⟨m, s1, h1, hr⟩ := bind_ok hr
  split at hr
  · cases hr
  · rename_i hm
    have hm := not_not.mp hm
    cases h.writei hdp h1 with
    | inl hrej =>
      rw [hrej.1] at hm
      exact absurd hm (by decide)
    | inr hwrote =>
      obtain ⟨tot, rfl, -, -, -, hat⟩ := hwrote
      have htot : tot = 16 := by exact_mod_cast hm
      rw [htot, List.take_of_length_le (by rw [List.length_replicate])] at hat
      obtain ⟨_, s2, h2, hr⟩ := bind_ok hr
      have hat : At s0.begun (Function.update nd dp { (nd dp).write (16*k) (List.replicate 16 0) with
          nlink := if isDir then (nd dp).nlink - 1 else (nd dp).nlink }) [ip, dp] [ip, dp] (n+1)
          s2 := hat.iupdate_nlink (· - 1) hdp h2
      obtain ⟨_, s3, h3, hr⟩ := bind_ok hr
      have hat := ((hat.perm (List.Perm.swap ..)).permLocks (List.Perm.swap ..)).iunlockput_reap
        (by simpa using hne.symm) h3
      obtain ⟨_, s4, h4, hr⟩ := bind_ok hr
      have hself : ∀ x, reap s0.begun.ref [ip] dp (Function.update nd dp x) ip = nd ip := by
        intro x
        rw [reap_ne hne, Function.update_of_ne hne]
      have hat := hat.iupdate (by rw [hself]; exact hip) h4
      rw [hself, reap_update hne.symm, Function.update_comm hne.symm] at hat
      obtain ⟨_, s5, h5, hr⟩ := bind_ok hr
      have hat := hat.iunlockput_reap List.not_mem_nil h5
      obtain ⟨_, s6, h6, hr⟩ := bind_ok hr
      obtain ⟨rfl, rfl⟩ := pure_ok hr
      exact hat.endOp h6

theorem At.unlinkBad (h : At s0.begun nd [dp] [dp] n s) (hk : (nd dp).nlink ≠ 0 ∨ 0 < s0.ref dp)
    (hr : unlinkBad dp s = .ok (r, s')) : At s0 nd [] [] n s' := by
  unfold Sys.unlinkBad at hr
  obtain ⟨_, s1, h1, hr⟩ := bind_ok hr
  obtain ⟨_, s2, h2, hr⟩ := bind_ok hr
  obtain ⟨rfl, rfl⟩ := pure_ok hr
  exact (h.iunlockput List.not_mem_nil hk h1).endOp h2

/-- The scan of `isdirempty` changes nothing. -/
theorem At.dirfull {type : Int16} (h : At s0 nd hs ls n s) {b : Bool}
    (hr : dirfull ip type s = .ok (b, s')) : At s0 nd hs ls n s' := by
  unfold Sys.dirfull at hr
  split at hr
  · obtain ⟨e, s1, h1, hr⟩ := bind_ok hr
    obtain ⟨rfl, rfl⟩ := pure_ok hr
    unfold isdirempty at h1
    rw [h.inode] at h1
    obtain ⟨q, s2, h2, h3⟩ := bind_ok h1
    obtain ⟨rfl, rfl⟩ := pure_ok h3
    have hfuel : (s.node ip).data.length < 16*2 + 16*((nd ip).data.length + 1) := by
      rw [h.node]
      omega
    rw [(scan_ok _ 2 hfuel h2).1]
    exact h
  · obtain ⟨rfl, rfl⟩ := pure_ok hr
    exact h

/-- The entry that a lookup finds. -/
theorem find_some {data : List UInt8} {name : Str} {k : Nat} (h : find data name = some k) :
    16*k + 16 ≤ data.length ∧ (slot data k).inum ≠ 0 ∧ namecmp name (slot data k).name = 0 := by
  unfold find at h
  rw [List.find?_range_eq_some] at h
  obtain ⟨hp, hmem, -⟩ := h
  have hlt := List.mem_range.mp hmem
  simp only [matchesName, decide_eq_true_eq] at hp
  exact ⟨by omega, hp.1, hp.2⟩

/-- A name other than `.` and `..` is found past them. -/
theorem DirOk.find_two_le {data : List UInt8} {name : Str} {d k : Nat} (h : DirOk data d)
    (hf : find data name = some k) (hdot : ¬ (namecmp name dot = 0 ∨ namecmp name dotdot = 0)) :
    2 ≤ k := by
  have hname := (find_some hf).2.2
  by_contra hlt
  have hcases : k = 0 ∨ k = 1 := by omega
  cases hcases with
  | inl he =>
    subst he
    exact hdot (.inl (namecmp_trans hname h.dotName))
  | inr he =>
    subst he
    exact hdot (.inr (namecmp_trans hname h.dotdotName))

theorem Sound.sysUnlink (h : Sound s) {path : Option Arg}
    (hr : sysUnlink path s = .ok (r, s')) : Done s s' := by
  unfold Sys.sysUnlink at hr
  cases path with
  | none =>
    obtain ⟨rfl, rfl⟩ := pure_ok hr
    exact h.done h.idle.at
  | some path =>
    dsimp only at hr
    obtain ⟨_, s1, h1, hr⟩ := bind_ok hr
    have hat := h.idle.beginOp h1
    obtain ⟨x, s2, h2, hr⟩ := bind_ok hr
    cases hat.nameiparent h.quiet h2 with
    | inl hnone =>
      obtain ⟨rfl, -, hat⟩ := hnone
      obtain ⟨_, s3, h3, hr⟩ := bind_ok hr
      obtain ⟨rfl, rfl⟩ := pure_ok hr
      exact h.done (hat.endOp h3)
    | inr hsome =>
      obtain ⟨dp, name, es, rfl, hat, hdp, -, -⟩ := hsome
      dsimp only at hr
      have hdp0 : (s.node dp).type ≠ 0 := by
        rw [hdp]
        exact tDir_ne_zero
      obtain ⟨_, s3, h3, hr⟩ := bind_ok hr
      obtain ⟨hat, -, -⟩ := hat.ilock h3
      split at hr
      · exact h.done (hat.unlinkBad (h.quiet dp hdp0) hr)
      · rename_i hdot
        obtain ⟨y, s4, h4, hr⟩ := bind_ok hr
        cases (hat.dirlookup h4).2 with
        | inl hnone =>
          obtain ⟨rfl, -, -, hat⟩ := hnone
          exact h.done (hat.unlinkBad (h.quiet dp hdp0) hr)
        | inr hfound =>
          obtain ⟨k, rfl, hf, hat⟩ := hfound
          dsimp only at hr
          generalize hi : (slot (s.node dp).data k).inum = ip at hr hat
          obtain ⟨hfit, hi0, -⟩ := find_some hf
          rw [hi] at hi0
          have hk := (h.shape.dirs dp hdp).find_two_le hf hdot
          obtain ⟨_, s5, h5, hr⟩ := bind_ok hr
          obtain ⟨hat, hnot, hip⟩ := hat.ilock h5
          have hne : ip ≠ dp := by simpa using hnot
          rw [hat.inode] at hr
          split at hr
          · cases hr
          · rename_i hn1
            have hn0 : (s.node ip).nlink ≠ 0 := by
              intro hz
              rw [hz] at hn1
              exact hn1 (by decide)
            obtain ⟨full, s6, h6, hr⟩ := bind_ok hr
            have hat := hat.dirfull h6
            split at hr
            · obtain ⟨_, s7, h7, hr⟩ := bind_ok hr
              have hat := hat.iunlockput hnot (h.quiet.held hip) h7
              exact h.done (hat.unlinkBad (h.quiet dp hdp0) hr)
            · have hat := hat.unlinkEntry hne hdp0 hip hr
              refine ⟨_, _, hat, ?_, ?_⟩
              · -- Both inodes are still in use when the link counts have changed.
                apply Shape.reap
                · apply Shape.reap
                  · by_cases htd : (s.node ip).type = tDir
                    · simp only [htd, decide_true, if_true]
                      exact h.shape.unlinkDir hdp hk (by omega) hi hi0 htd hn0 hne
                    · simp only [htd, decide_false, Bool.false_eq_true, if_false]
                      exact h.shape.unlink hdp hk (by omega) hi hi0 htd hn0
                  · rw [type_relink]
                    exact hdp0
                · rw [reap_ne hne, type_relink]
                  exact hip
              · apply QuietBut.quiet
                apply QuietBut.reap _ List.not_mem_nil
                apply QuietBut.reap _ (by simpa using hne.symm)
                intro j hj ht
                have hjd : j ≠ dp := fun he => hj (by simp [he])
                have hji : j ≠ ip := fun he => hj (by simp [he])
                unfold relink at ht ⊢
                rw [Function.update_of_ne hjd, Function.update_of_ne hji] at ht ⊢
                exact h.quiet j ht

/-- A target fits in a block, and is stored whole where there is one. -/
theorem At.writei_target (h : At s0 nd hs ls n s) (hip : (nd ip).type ≠ 0) (a : Arg)
    (hroom : 0 < (nd ip).data.length ∨ 0 < s0.room n)
    (hr : Sys.writei ip a.stored 0 s = .ok (r, s')) :
    r = a.stored.length ∧
      At s0 (Function.update nd ip ((nd ip).write 0 a.stored)) hs ls (n+1) s' := by
  have hlen : a.stored.length ≤ 128 := by
    have := a.short
    simp only [Arg.stored, List.length_append, List.length_singleton, maxpath] at *
    omega
  cases h.writei hip hr with
  | inl hrej =>
    have := hrej.2.1
    simp only [maxfile, bsize] at this
    omega
  | inr hwrote =>
    obtain ⟨tot, rfl, htot, -, -, hat⟩ := hwrote
    have hall : tot = a.stored.length := by
      simp only [fits, blocks, bsize] at htot
      omega
    rw [hall, List.take_length] at hat
    exact ⟨by rw [hall], hat⟩

/-- Where there is no block, nothing of it is stored. -/
theorem At.writei_full (h : At s0 nd hs ls n s) (hip : (nd ip).type ≠ 0) {a : Arg}
    (hdata : (nd ip).data = []) (hfull : s0.room n = 0)
    (hr : Sys.writei ip a.stored 0 s = .ok (r, s')) :
    r ≠ a.stored.length ∧ At s0 nd hs ls (n+1) s' := by
  have hlen := a.short
  cases h.writei hip hr with
  | inl hrej =>
    have := hrej.2.1
    simp only [Arg.stored, List.length_append, List.length_singleton, maxfile, bsize, maxpath] at *
    omega
  | inr hwrote =>
    obtain ⟨tot, rfl, htot, -, -, hat⟩ := hwrote
    have hzero : tot = 0 := by
      rw [hdata, hfull] at htot
      simpa [fits, blocks, bsize] using htot
    rw [hzero, List.take_zero, write_nil, Function.update_eq_self] at hat
    rw [hzero]
    exact ⟨by simp [Arg.stored]; omega, hat⟩

theorem Shape.write {off : Nat} {bs : List UInt8} (h : Shape N ref nd)
    (hleaf : (nd ip).type ≠ tDir) :
    Shape N ref (Function.update nd ip ((nd ip).write off bs)) := by
  have hall : ∀ i, (Function.update nd ip ((nd ip).write off bs) i).type = (nd i).type ∧
      (Function.update nd ip ((nd ip).write off bs) i).nlink = (nd i).nlink := by
    intro i
    by_cases he : i = ip
    · subst he
      rw [Function.update_self]
      exact ⟨rfl, rfl⟩
    · rw [Function.update_of_ne he]
      exact ⟨rfl, rfl⟩
  apply h.congr
  · exact fun i => (hall i).1
  · exact fun i _ => (hall i).2
  · intro i hi
    rw [Function.update_of_ne]
    intro he
    exact hleaf (he ▸ hi)

theorem Quiet.write {off : Nat} {bs : List UInt8} (h : Quiet ref nd) :
    Quiet ref (Function.update nd ip ((nd ip).write off bs)) := by
  intro j hj
  by_cases he : j = ip
  · subst he
    rw [Function.update_self] at hj ⊢
    exact h j hj
  · rw [Function.update_of_ne he] at hj ⊢
    exact h j hj

/-- A target is stored whole, or its inode gives up its links. -/
theorem At.storeTarget {target : Arg} (hat : At s0.begun nd [ip] [ip] n s)
    (hq : Quiet s0.ref nd) (hip : (nd ip).type ≠ 0)
    (hr : storeTarget ip target s = .ok (r, s')) :
    ((0 < (nd ip).data.length ∨ 0 < s0.room n) ∧ r = 0 ∧
      At s0 (Function.update nd ip ((nd ip).write 0 target.stored)) [] [] (n+1) s') ∨
    ((nd ip).data = [] ∧ s0.room n = 0 ∧ r = -1 ∧
      At s0 (reap s0.ref [] ip (Function.update nd ip { nd ip with nlink := 0 })) [] [] (n+1)
        s') := by
  unfold Sys.storeTarget at hr
  obtain ⟨m, s1, h1, hr⟩ := bind_ok hr
  by_cases hroom : 0 < (nd ip).data.length ∨ 0 < s0.room n
  · obtain ⟨rfl, hat⟩ := hat.writei_target hip target hroom h1
    rw [if_neg (by simp)] at hr
    obtain ⟨_, s2, h2, hr⟩ := bind_ok hr
    obtain ⟨_, s3, h3, hr⟩ := bind_ok hr
    obtain ⟨rfl, rfl⟩ := pure_ok hr
    have hkeep : (nd ip).nlink ≠ 0 ∨ 0 < s0.ref ip + [].count ip := hq.held hip
    refine .inl ⟨hroom, rfl, (hat.iunlockput List.not_mem_nil ?_ h2).endOp h3⟩
    rw [Function.update_self]
    exact hkeep
  · have hdata : (nd ip).data = [] := List.eq_nil_of_length_eq_zero (by omega)
    have hfull : s0.room n = 0 := by omega
    obtain ⟨hm, hat⟩ := hat.writei_full hip hdata hfull h1
    rw [if_pos hm] at hr
    obtain ⟨_, s2, h2, hr⟩ := bind_ok hr
    have hat := hat.iupdate hip h2
    obtain ⟨_, s3, h3, hr⟩ := bind_ok hr
    have hat := hat.iunlockput_reap List.not_mem_nil h3
    obtain ⟨_, s4, h4, hr⟩ := bind_ok hr
    obtain ⟨rfl, rfl⟩ := pure_ok hr
    exact .inr ⟨hdata, hfull, rfl, hat.endOp h4⟩

end

end Xv6Labs.Sys
