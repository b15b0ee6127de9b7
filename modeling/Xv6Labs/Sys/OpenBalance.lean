import Xv6Labs.Sys.NameSpace

/-! `sys_open` gives back what it takes, on every exit and however the links lead. -/
namespace Xv6Labs.Sys
open Kit Fs

/-- The loop of `sys_open` as a `while` on the type and the count, with the number of turns it has
begun. -/
def followHops (count : Nat) (buf : List UInt8) (ip : Nat) :
    K (Option (Nat × Nat) × Nat) := do
  let nd ← inode ip
  if nd.type = tSymlink ∧ count < 10 then
    let len := 0
    let b ← readi ip 0 (len+1)
    if b.length ≠ len+1 then
      iunlockput ip
      pure (none, count+1)
    else
      iunlockput ip
      let buf := b ++ buf.drop (len+1)
      match ← namei (cstr buf) with
      | none => pure (none, count+1)
      | some ip =>
        ilock ip
        followHops (count+1) buf ip
  else pure (some (ip, count), count)
termination_by 10 - count

def openLinkHops (path : Arg) (omode : UInt32) (ip : Nat) (type : Int16) :
    K (Option (Nat × Nat) × Nat) :=
  if type = tSymlink ∧ omode &&& oNofollow = 0 then followHops 0 path.stored ip
  else pure (some (ip, 0), 0)

def openInodeHops (path : Arg) (omode : UInt32) : K (Option Nat × Nat) := do
  if omode &&& oCreate ≠ 0 then
    let x ← create path.str tFile 0 0
    pure (x, 0)
  else
    match ← namei path.str with
    | none => pure (none, 0)
    | some ip =>
      ilock ip
      let nd ← inode ip
      let r ← openLinkHops path omode ip nd.type
      let x ← openCheck omode r.1
      pure (x, r.2)

/-- `sys_open` with the number of links it has followed. -/
def sysOpenHops (path : Option Arg) (omode : UInt32) : K (Int × Nat) := do
  match path with
  | none => pure (-1, 0)
  | some path =>
    beginOp
    match ← openInodeHops path omode with
    | (none, hops) =>
      endOp
      pure (-1, hops)
    | (some ip, hops) =>
      let fd ← openFile ip omode
      pure (fd, hops)

/-- What `sys_open` may change beside the inodes: nothing if it fails, and else one descriptor, one
open file and one reference, to an inode that is no link unless links are not to be followed. -/
structure Balanced (s s' : State) (omode : UInt32) (r : Int) : Prop where
  unlocked : ∀ i, s'.locked i = false
  closed : s'.ops = s.ops
  failed : r = -1 → s'.ref = s.ref ∧ s'.ftable = s.ftable ∧ s'.proc = s.proc
  opened : r ≠ -1 → ∃ fd f ip : Nat, r = fd ∧ s.myproc.ofile fd = none ∧
    s'.proc = Function.update s.proc s.cur (s.myproc.setOfile fd (some f)) ∧
    (s.ftable f).ref = 0 ∧ (s'.ftable f).ref = 1 ∧ (s'.ftable f).ip = ip ∧
    (∀ g, g ≠ f → s'.ftable g = s.ftable g) ∧
    s'.ref ip = s.ref ip + 1 ∧ (∀ i, i ≠ ip → s'.ref i = s.ref i) ∧
    ((s'.node ip).type = tSymlink → omode &&& oNofollow ≠ 0)

section
variable {s s' : State} {nd : Nat → Node} {n count fuel ip : Nat} {buf : List UInt8}
  {omode : UInt32} {r : Int}

/-- The loop with the count does what the loop does. -/
theorem follow_hops (h : count + fuel = 10) :
    Agree Eq (fun z w => w.1 = z ∧ w.2 ≤ 10) (follow fuel count buf ip s)
      (followHops count buf ip s) := by
  induction fuel generalizing count buf ip s with
  | zero =>
    unfold follow followHops
    change Agree _ _ _ ((if (s.node ip).type = tSymlink ∧ count < 10 then _ else _ : K _) s)
    rw [if_neg (by omega)]
    exact ⟨⟨rfl, by omega⟩, rfl⟩
  | succ fuel ih =>
    unfold follow followHops
    apply (Agree.refl (inode ip s)).bind
    rintro nd - s1 - - - rfl rfl
    by_cases ht : nd.type = tSymlink
    · rw [if_pos ht, if_pos ⟨ht, by omega⟩]
      apply (Agree.refl _).bind
      rintro b - s2 - - - rfl rfl
      split
      · apply (Agree.refl _).bind
        rintro _ - s3 - - - rfl rfl
        exact ⟨⟨rfl, by omega⟩, rfl⟩
      · apply (Agree.refl _).bind
        rintro _ - s3 - - - rfl rfl
        apply (Agree.refl _).bind
        rintro x - s4 - - - rfl rfl
        cases x with
        | none => exact ⟨⟨rfl, by omega⟩, rfl⟩
        | some ip' =>
          apply (Agree.refl _).bind
          rintro _ - s5 - - - rfl rfl
          exact ih (by omega)
    · rw [if_neg ht, if_neg fun hc => ht hc.1]
      exact ⟨⟨rfl, by omega⟩, rfl⟩

theorem openLink_hops {path : Arg} {type : Int16} :
    Agree Eq (fun z w => w.1 = z ∧ w.2 ≤ 10) (openLink path omode ip type s)
      (openLinkHops path omode ip type s) := by
  unfold openLink openLinkHops
  split
  · exact follow_hops rfl
  · exact ⟨⟨rfl, Nat.zero_le 10⟩, rfl⟩

theorem openInode_hops {path : Arg} :
    Agree Eq (fun x w => w.1 = x ∧ w.2 ≤ 10) (openInode path omode s)
      (openInodeHops path omode s) := by
  unfold openInode openInodeHops
  split
  · exact .bind_pure fun _ => ⟨rfl, Nat.zero_le 10⟩
  · apply (Agree.refl _).bind
    rintro x - s1 - - - rfl rfl
    cases x with
    | none => exact ⟨⟨rfl, Nat.zero_le 10⟩, rfl⟩
    | some ip =>
      apply (Agree.refl _).bind
      rintro _ - s2 - - - rfl rfl
      apply (Agree.refl _).bind
      rintro nd - s3 - - - rfl rfl
      apply openLink_hops.bind
      rintro z ⟨z', hops⟩ s4 - - - ⟨rfl, hle⟩ rfl
      exact .bind_pure fun _ => ⟨rfl, hle⟩

theorem sysOpen_hops {path : Option Arg} :
    Agree Eq (fun r w => w.1 = r ∧ w.2 ≤ 10) (sysOpen path omode s)
      (sysOpenHops path omode s) := by
  unfold sysOpen sysOpenHops
  cases path with
  | none => exact ⟨⟨rfl, Nat.zero_le 10⟩, rfl⟩
  | some path =>
    apply (Agree.refl _).bind
    rintro _ - s1 - - - rfl rfl
    apply openInode_hops.bind
    rintro x ⟨x', hops⟩ s2 - - - ⟨rfl, hle⟩ rfl
    cases x' with
    | none =>
      apply (Agree.refl _).bind
      rintro _ - s3 - - - rfl rfl
      exact ⟨⟨rfl, hle⟩, rfl⟩
    | some ip =>
      exact .bind_pure fun _ => ⟨rfl, hle⟩

/-- The call has failed and holds nothing. -/
theorem At.balanced (h : At s nd [] [] n s') : Balanced s s' omode (-1) where
  unlocked := h.idle.locked
  closed := h.ops
  failed _ := by
    refine ⟨?_, h.ftable, h.proc⟩
    funext i
    rw [h.ref, List.count_nil, Nat.add_zero]
  opened hr := absurd rfl hr

theorem Coherent.sysOpen {path : Option Arg} (h : Coherent s)
    (hr : sysOpen path omode s = .ok (r, s')) : Balanced s s' omode r := by
  unfold Sys.sysOpen at hr
  cases path with
  | none =>
    obtain ⟨rfl, rfl⟩ := pure_ok hr
    exact h.idle.at.balanced
  | some path =>
    dsimp only at hr
    obtain ⟨_, s1, h1, hr⟩ := bind_ok hr
    have hat := h.idle.beginOp h1
    obtain ⟨x, s2, h2, hr⟩ := bind_ok hr
    obtain ⟨n, nd, hx⟩ := h.openInode hat h2
    cases hx with
    | inl hnone =>
      obtain ⟨rfl, -, hat⟩ := hnone
      obtain ⟨_, s3, h3, hr⟩ := bind_ok hr
      obtain ⟨rfl, rfl⟩ := pure_ok hr
      exact (hat.endOp h3).balanced
    | inr hsome =>
      obtain ⟨ip, -, hq, rfl, hip, hlink, hat⟩ := hsome
      cases hat.openFile hq hip h.files hr with
      | inl hfail =>
        obtain ⟨rfl, -, hat⟩ := hfail
        exact hat.balanced
      | inr hopen =>
        obtain ⟨f, fd, rfl, -, hf, -, hfd, hat⟩ := hopen
        have hft : s'.ftable = Function.update s.ftable f
            (({ s.ftable f with ref := 1 } : File).opened (nd ip) ip omode) := hat.ftable
        refine ⟨hat.idle.locked, hat.ops, fun he => by omega, fun _ => ?_⟩
        refine ⟨fd, f, ip, rfl, hfd, hat.proc, hf, ?_, ?_, ?_, ?_, ?_, ?_⟩
        · rw [hft, Function.update_self]
          rfl
        · rw [hft, Function.update_self]
          rfl
        · intro g hg
          rw [hft, Function.update_of_ne hg]
        · rw [hat.ref, List.count_singleton_self]
        · intro i hi
          rw [hat.ref, List.count_eq_zero.mpr (by simpa using hi), Nat.add_zero]
        · rw [hat.node, type_truncated.1]
          exact hlink

/-- `sys_open` follows at most ten links and gives back what it takes, on every exit. -/
theorem open_balances {path : Option Arg} (h : Coherent s) :
    Agree Eq (fun r w => w.1 = r ∧ w.2 ≤ 10) (Sys.sysOpen path omode s)
      (sysOpenHops path omode s) ∧
    ∀ r s', Sys.sysOpen path omode s = .ok (r, s') → Balanced s s' omode r :=
  ⟨sysOpen_hops, fun _ _ hr => h.sysOpen hr⟩

end

/-- The link `a` to the directory `d`, and the link `b` to `a`. -/
def linkA : State := (Call.symlink (some nameD) (some nameA)).after (madeD.sched 0)
def linkB : State := (Call.symlink (some nameA) (some nameB)).after (linkA.sched 0)

theorem linkB_sound : Sound linkB := by
  have h1 : CallStep newFs (0, .mkdir (some nameD)) madeD := ⟨0, madeD_returns⟩
  have h2 : CallStep madeD (0, .symlink (some nameD) (some nameA)) linkA :=
    ⟨0, Call.exec_eq (by decide +kernel)⟩
  have h3 : CallStep linkA (0, .symlink (some nameA) (some nameB)) linkB :=
    ⟨0, Call.exec_eq (by decide +kernel)⟩
  have hD := (sound_step_iff newFs_sound h1).mpr trivial
  have hA := (sound_step_iff hD h2).mpr (fresh_symlink (by decide +kernel) (by decide +kernel))
  exact (sound_step_iff hA h3).mpr (fresh_symlink (by decide +kernel) (by decide +kernel))

/-- `open("b")` follows two links to the directory. -/
theorem open_balances_two_links : ∃ s', Sys.sysOpen (some nameB) 0 linkB = .ok (0, s') ∧
    Balanced linkB s' 0 0 ∧ ∃ t, sysOpenHops (some nameB) 0 linkB = .ok ((0, 2), t) := by
  obtain ⟨s', hr⟩ : ∃ s', Sys.sysOpen (some nameB) 0 linkB = .ok (0, s') :=
    ok_of_fst (by decide +kernel)
  exact ⟨s', hr, (open_balances linkB_sound.coherent).2 0 s' hr, ok_of_fst (by decide +kernel)⟩

end Xv6Labs.Sys
