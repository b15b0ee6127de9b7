import Xv6Labs.Sched.Wrr

/-! How long a process can stay on the CPU under weighted round robin, whatever calls it makes.
`sys_setpriority` starts the tick counter again, so the bound holds only while the calls of one
turn leave room for it. -/
namespace Xv6Labs.Wrr
open Kit
variable {n : Nat} {maxPriority : Int}

def AnyStep (maxPriority : Int) (s : Sys n) (e : Event n) (t : Sys n) : Prop :=
  s.step maxPriority e = some t

/-- The scheduler has just started; every process has a priority that `sys_setpriority` accepts. -/
structure Boot (maxPriority : Int) (s : Sys n) : Prop where
  cur : s.cur = none
  charge : s.charge = 0
  quanta : s.quanta = []
  priority : ∀ i, (s.procs i).state ≠ .unused →
    1 ≤ (s.procs i).priority ∧ (s.procs i).priority ≤ maxPriority

/-- No turn, finished or not, has taken more than `maxPriority` timer interrupts. -/
def Sys.Bounded (maxPriority : Int) (s : Sys n) : Prop :=
  (s.charge : Int) ≤ maxPriority ∧ ∀ q ∈ s.quanta, (q.2 : Int) ≤ maxPriority

/-- An accepted `setpriority(k)` comes with at most `maxPriority - k` timer interrupts charged. -/
def Sys.Leaves (maxPriority : Int) (s : Sys n) : Event n → Prop
  | .setpriority k => k < 1 ∨ maxPriority < k ∨ (s.charge : Int) + k ≤ maxPriority
  | _ => True

/-- The process on the CPU has just been dispatched, or it has `priority - ticks` timer interrupts
to go. -/
structure Budget (maxPriority : Int) (s : Sys n) (i : Fin n) : Prop where
  running : (s.procs i).state = .running
  left : (s.procs i).ticks = (s.procs i).priority ∧ s.charge = 0 ∨
    0 ≤ (s.procs i).ticks ∧ (s.procs i).ticks < (s.procs i).priority ∧
      (s.charge : Int) + ((s.procs i).priority - (s.procs i).ticks) ≤ maxPriority

structure TurnInv (maxPriority : Int) (s : Sys n) : Prop where
  priority : ∀ i, (s.procs i).state ≠ .unused →
    1 ≤ (s.procs i).priority ∧ (s.procs i).priority ≤ maxPriority
  idle : s.cur = none → s.charge = 0
  cur : ∀ i, s.cur = some i → Budget maxPriority s i
  quanta : ∀ q ∈ s.quanta, (q.2 : Int) ≤ maxPriority
  pos : 1 ≤ maxPriority

section
variable {s t : Sys n} {i : Fin n} {e : Event n}

theorem Budget.charge_lt (h : Budget maxPriority s i) (hpos : 1 ≤ maxPriority) :
    (s.charge : Int) < maxPriority := by
  cases h.left with
  | inl hnew => omega
  | inr hgo => omega

theorem TurnInv.bounded (h : TurnInv maxPriority s) : s.Bounded maxPriority := by
  refine ⟨?_, h.quanta⟩
  cases hcur : s.cur with
  | none =>
    have := h.idle hcur
    have := h.pos
    omega
  | some i => exact le_of_lt ((h.cur i hcur).charge_lt h.pos)

/-- Another process changes. -/
theorem turnInv_other (h : TurnInv maxPriority s) (hcur : s.cur ≠ some i) {p : Proc}
    (hp : 1 ≤ p.priority ∧ p.priority ≤ maxPriority) : TurnInv maxPriority (s.setProc i p) := by
  refine ⟨?_, h.idle, ?_, h.quanta, h.pos⟩
  · intro j hj
    by_cases he : j = i
    · subst he
      rw [setProc_self]
      exact hp
    · rw [setProc_of_ne s i j p he] at hj ⊢
      exact h.priority j hj
  · intro j hj
    have he : j ≠ i := by
      intro he
      rw [he] at hj
      exact hcur hj
    obtain ⟨hrun, hleft⟩ := h.cur j hj
    refine ⟨?_, ?_⟩
    · rw [setProc_of_ne s i j p he]
      exact hrun
    · rw [setProc_of_ne s i j p he]
      exact hleft

/-- The process on the CPU goes on, with `c` timer interrupts charged. -/
theorem turnInv_running (h : TurnInv maxPriority s) (hcur : s.cur = some i) {p : Proc} {c : Nat}
    (hrun : p.state = .running) (hp : 1 ≤ p.priority ∧ p.priority ≤ maxPriority)
    (hleft : 0 ≤ p.ticks ∧ p.ticks < p.priority ∧
      (c : Int) + (p.priority - p.ticks) ≤ maxPriority) :
    TurnInv maxPriority ({ s with charge := c }.setProc i p) := by
  refine ⟨?_, ?_, ?_, h.quanta, h.pos⟩
  · intro j hj
    by_cases he : j = i
    · subst he
      rw [setProc_self]
      exact hp
    · rw [setProc_of_ne _ i j p he] at hj ⊢
      exact h.priority j hj
  · intro hnone
    change s.cur = none at hnone
    rw [hcur] at hnone
    cases hnone
  · intro j hj
    change s.cur = some j at hj
    rw [hcur] at hj
    cases hj
    refine ⟨?_, .inr ?_⟩
    · rw [setProc_self]
      exact hrun
    · rw [setProc_self]
      exact hleft

/-- The end of a turn that has taken `c` timer interrupts. -/
theorem turnInv_sched (h : TurnInv maxPriority s) {c : Nat} (hc : (c : Int) ≤ maxPriority)
    {p : Proc} (hp : 1 ≤ p.priority ∧ p.priority ≤ maxPriority) (st : ProcState) :
    TurnInv maxPriority (({ s with charge := c }.setProc i p).sched i st) := by
  refine ⟨?_, fun _ => rfl, ?_, ?_, h.pos⟩
  · intro j hj
    by_cases he : j = i
    · subst he
      simpa [Sys.sched, Sys.backToScheduler, Sys.setProc] using hp
    · simp only [Sys.sched, Sys.backToScheduler, Sys.setProc, ne_eq, he, not_false_eq_true,
        Function.update_of_ne] at hj ⊢
      exact h.priority j hj
  · intro j hj
    cases hj
  · intro q hq
    cases List.mem_append.mp hq with
    | inl hold => exact h.quanta q hold
    | inr hnew =>
      rw [List.mem_singleton.mp hnew]
      exact hc

theorem turnInv_timer (hmax : maxPriority < intMax) (h : TurnInv maxPriority s)
    (hcur : s.cur = some i) : TurnInv maxPriority (s.timerBranch i) := by
  obtain ⟨hrun, hleft⟩ := h.cur i hcur
  have hlt := (h.cur i hcur).charge_lt h.pos
  have hpr := h.priority i (by rw [hrun]; decide)
  have hcharge : ((s.charge + 1 : Nat) : Int) ≤ maxPriority := by
    push_cast
    omega
  have htick : int32 ((s.procs i).ticks + 1) = (s.procs i).ticks + 1 := by
    apply int32_of_range
    · omega
    · omega
  simp only [Sys.timerBranch, hrun, if_true, htick]
  split
  · exact turnInv_sched (p := ⟨.running, (s.procs i).priority, 0⟩) h hcharge hpr .runnable
  · next hgo =>
    refine turnInv_running h hcur rfl hpr ?_
    simp only
    push_cast
    omega

/-- A process that leaves the CPU by itself. -/
theorem turnInv_leave (h : TurnInv maxPriority s) (hcur : s.cur = some i) (st : ProcState) :
    TurnInv maxPriority (s.sched i st) := by
  obtain ⟨hrun, -⟩ := h.cur i hcur
  have hlt := (h.cur i hcur).charge_lt h.pos
  have hpr := h.priority i (by rw [hrun]; decide)
  have hsame : { s with charge := s.charge }.setProc i (s.procs i) = s := by simp [Sys.setProc]
  have hsched := turnInv_sched (i := i) h (le_of_lt hlt) hpr st
  rwa [hsame] at hsched

theorem turnInv_dispatch (h : TurnInv maxPriority s) (hr : (s.procs i).state = .runnable) :
    TurnInv maxPriority (s.dispatch i) := by
  have hpr := h.priority i (by rw [hr]; decide)
  refine ⟨?_, ?_, ?_, h.quanta, h.pos⟩
  · intro j hj
    by_cases he : j = i
    · subst he
      simpa [Sys.dispatch] using hpr
    · simp only [Sys.dispatch, ne_eq, he, not_false_eq_true, Function.update_of_ne] at hj ⊢
      exact h.priority j hj
  · intro hnone
    cases hnone
  · intro j hj
    have hij : i = j := Option.some.inj hj
    subst hij
    refine ⟨?_, .inl ?_⟩
    · simp [Sys.dispatch]
    · simp [Sys.dispatch]

theorem turnInv_schedule (h : TurnInv maxPriority s) (hcur : s.cur = none) :
    TurnInv maxPriority s.schedule := by
  have hmove : ∀ scan found pass, TurnInv maxPriority
      { s with scan := scan, found := found, pass := pass } := by
    intro scan found pass
    refine ⟨h.priority, h.idle, ?_, h.quanta, h.pos⟩
    intro j hj
    change s.cur = some j at hj
    rw [hcur] at hj
    cases hj
  unfold Sys.schedule
  split
  · split
    · next hr => exact turnInv_dispatch h hr
    · exact hmove ..
  · exact hmove ..

theorem turnInv_setpriority (h : TurnInv maxPriority s) (hcur : s.cur = some i) {k : Int}
    (hok : s.Leaves maxPriority (.setpriority k)) :
    TurnInv maxPriority (s.setpriority maxPriority i k) := by
  unfold Sys.setpriority
  split
  · exact h
  · next hk =>
    obtain ⟨hrun, -⟩ := h.cur i hcur
    have hroom : (s.charge : Int) + k ≤ maxPriority := by
      cases hok with
      | inl hlow => omega
      | inr hrest =>
        cases hrest with
        | inl hhigh => omega
        | inr hroom => exact hroom
    refine turnInv_running (p := ⟨(s.procs i).state, k, 0⟩) (c := s.charge) h hcur hrun ?_ ?_
    · simp only
      omega
    · simp only
      omega

theorem turnInv_step (hmax : maxPriority < intMax) (h : TurnInv maxPriority s)
    (hs : AnyStep maxPriority s e t) (hok : s.Leaves maxPriority e) : TurnInv maxPriority t := by
  unfold AnyStep at hs
  cases e with
  | schedule =>
    simp only [Sys.step] at hs
    split at hs
    · next hcur =>
      cases hs
      exact turnInv_schedule h hcur
    · cases hs
  | usertrap =>
    simp only [Sys.step, Sys.usertrap, Option.map_eq_some_iff] at hs
    obtain ⟨i, hcur, rfl⟩ := hs
    exact turnInv_timer hmax h hcur
  | kerneltrap =>
    simp only [Sys.step, Sys.kerneltrap] at hs
    split at hs
    · next i hcur =>
      cases hs
      exact turnInv_timer hmax h hcur
    · cases hs
      exact h
  | setpriority k =>
    simp only [Sys.step, Option.map_eq_some_iff] at hs
    obtain ⟨i, hcur, rfl⟩ := hs
    exact turnInv_setpriority h hcur hok
  | sleep | exit =>
    simp only [Sys.step, Option.map_eq_some_iff] at hs
    obtain ⟨i, hcur, rfl⟩ := hs
    exact turnInv_leave h hcur _
  | wakeup i =>
    simp only [Sys.step] at hs
    split at hs
    · next hsl =>
      cases hs
      refine turnInv_other h ?_ (h.priority i (by rw [hsl]; decide))
      intro hcur
      have hrun := (h.cur i hcur).running
      rw [hsl] at hrun
      cases hrun
    · cases hs
  | fork child =>
    simp only [Sys.step] at hs
    split at hs
    · next hun =>
      obtain ⟨i, hcur, rfl⟩ := Option.map_eq_some_iff.mp hs
      have hpar := h.priority i (by rw [(h.cur i hcur).running]; decide)
      refine turnInv_other h ?_ hpar
      intro hc
      have hrun := (h.cur child hc).running
      rw [hun] at hrun
      cases hrun
    · cases hs
  | wait child =>
    simp only [Sys.step] at hs
    split at hs
    · next hz =>
      obtain ⟨i, -, rfl⟩ := Option.map_eq_some_iff.mp hs
      refine turnInv_other h ?_ (h.priority child (by rw [hz]; decide))
      intro hc
      have hrun := (h.cur child hc).running
      rw [hz] at hrun
      cases hrun
    · cases hs

theorem turnInv_boot (hpos : 1 ≤ maxPriority) (h : Boot maxPriority s) : TurnInv maxPriority s where
  priority := h.priority
  idle := fun _ => h.charge
  cur := by
    intro i hi
    rw [h.cur] at hi
    cases hi
  quanta := by
    intro q hq
    rw [h.quanta] at hq
    cases hq
  pos := hpos

/-! After an accepted `setpriority(k)` the process can have `k` more timer interrupts. -/

variable (maxPriority) in
theorem timers_run {k : Int} (hk : k < intMax) (hcur : s.cur = some i)
    (hp : s.procs i = ⟨.running, k, 0⟩) (j : Nat) (hj : (j : Int) < k) :
    ∃ t, Run (AnyStep maxPriority) s (List.replicate j .usertrap) t ∧ t.cur = some i ∧
      t.charge = s.charge + j ∧ t.procs i = ⟨.running, k, j⟩ := by
  induction j with
  | zero => exact ⟨s, .nil, hcur, rfl, hp⟩
  | succ j ih =>
    obtain ⟨t, hr, htcur, hcharge, htp⟩ := ih (by omega)
    have htick : int32 ((j : Int) + 1) = j + 1 := by
      apply int32_of_range
      · omega
      · omega
    have hgo : ¬ k ≤ (j : Int) + 1 := by omega
    have hstep : AnyStep maxPriority t .usertrap (t.timerBranch i) := by
      simp [AnyStep, Sys.step, Sys.usertrap, htcur]
    have hbranch : t.timerBranch i =
        { t with charge := t.charge + 1 }.setProc i ⟨.running, k, j + 1⟩ := by
      simp only [Sys.timerBranch, htp, if_true, htick, hgo, if_false]
    refine ⟨t.timerBranch i, ?_, ?_, ?_, ?_⟩
    · rw [List.replicate_succ']
      exact hr.snoc hstep
    · rw [hbranch]
      exact htcur
    · rw [hbranch]
      change t.charge + 1 = _
      omega
    · rw [hbranch, setProc_self]
      push_cast
      rfl

variable (maxPriority) in
/-- A turn can be as long as what was charged before the call and the new priority together. -/
theorem timers_turn {k : Int} (hk : 1 ≤ k ∧ k < intMax) (hcur : s.cur = some i)
    (hp : s.procs i = ⟨.running, k, 0⟩) :
    ∃ m t, Run (AnyStep maxPriority) s (List.replicate m .usertrap) t ∧
      ∃ q ∈ t.quanta, (q.2 : Int) = s.charge + k := by
  obtain ⟨j, hj⟩ : ∃ j : Nat, (j : Int) + 1 = k := ⟨(k - 1).toNat, by omega⟩
  obtain ⟨t, hr, htcur, hcharge, htp⟩ := timers_run maxPriority hk.2 hcur hp j (by omega)
  have htick : int32 ((j : Int) + 1) = k := by
    rw [hj]
    exact int32_of_range (by omega) (by omega)
  have hstep : AnyStep maxPriority t .usertrap (t.timerBranch i) := by
    simp [AnyStep, Sys.step, Sys.usertrap, htcur]
  refine ⟨j + 1, t.timerBranch i, ?_, (i, t.charge + 1), ?_, ?_⟩
  · rw [List.replicate_succ']
    exact hr.snoc hstep
  · simp [Sys.timerBranch, htp, htick, Sys.yield, Sys.sched, Sys.backToScheduler, Sys.setProc]
  · simp only [hcharge]
    push_cast
    omega

/-- A call that does not leave room: timer interrupts alone lead over the bound. -/
theorem not_bounded_of_not_leaves (hmax : maxPriority < intMax) (h : TurnInv maxPriority s)
    (hs : AnyStep maxPriority s e t) (hno : ¬ s.Leaves maxPriority e) :
    ∃ m u, Run (AnyStep maxPriority) t (List.replicate m .usertrap) u ∧
      ¬ u.Bounded maxPriority := by
  cases e with
  | setpriority k =>
    simp only [Sys.Leaves, not_or, not_lt, not_le] at hno
    simp only [AnyStep, Sys.step, Option.map_eq_some_iff] at hs
    obtain ⟨i, hcur, rfl⟩ := hs
    have hset : s.setpriority maxPriority i k =
        s.setProc i { s.procs i with priority := k, ticks := 0 } := if_neg (by omega)
    have hp : (s.setpriority maxPriority i k).procs i = ⟨.running, k, 0⟩ := by
      rw [hset, setProc_self]
      simp only [(h.cur i hcur).running]
    have hcharge : (s.setpriority maxPriority i k).charge = s.charge := by
      rw [hset]
      rfl
    obtain ⟨m, u, hr, q, hq, hqc⟩ := timers_turn maxPriority (by omega)
      (by rw [hset]; exact hcur) hp
    refine ⟨m, u, hr, ?_⟩
    intro hb
    have hle := hb.2 q hq
    rw [hqc, hcharge] at hle
    omega
  | schedule | usertrap | kerneltrap | sleep | exit | wakeup | fork | wait => exact absurd trivial hno

end

/-- No turn takes more than `maxPriority` timer interrupts as long as every accepted
`setpriority(k)` comes with at most `maxPriority - k` of them charged; after a call that does not,
timer interrupts alone can make the turn longer. -/
theorem turns_bounded_iff (hmax : 1 ≤ maxPriority ∧ maxPriority < intMax) {s₀ s : Sys n}
    (h : Boot maxPriority s₀) {tr : List (Event n)}
    (hr : Run (Guarded (AnyStep maxPriority) (Sys.Leaves maxPriority)) s₀ tr s) :
    s.Bounded maxPriority ∧ ∀ e t, AnyStep maxPriority s e t →
      ((∀ m u, Run (AnyStep maxPriority) t (List.replicate m .usertrap) u →
        u.Bounded maxPriority) ↔ s.Leaves maxPriority e) := by
  have hstep : ∀ s e t, TurnInv maxPriority s →
      Guarded (AnyStep maxPriority) (Sys.Leaves (n := n) maxPriority) s e t →
      TurnInv maxPriority t := fun _ _ _ hi hg => turnInv_step hmax.2 hi hg.1 hg.2
  have hs : TurnInv maxPriority s := hr.invariant (turnInv_boot hmax.1 h) hstep
  refine ⟨hs.bounded, ?_⟩
  intro e t he
  constructor
  · intro hall
    by_contra hno
    obtain ⟨m, u, hu, hb⟩ := not_bounded_of_not_leaves hmax.2 hs he hno
    exact hb (hall m u hu)
  · intro hok m u hu
    have hguard : Run (Guarded (AnyStep maxPriority) (Sys.Leaves maxPriority)) t
        (List.replicate m .usertrap) u := by
      refine hu.guard ?_
      intro a ha v
      rw [List.eq_of_mem_replicate ha]
      trivial
    exact (hguard.invariant (hstep s e t hs ⟨he, hok⟩) hstep).bounded

theorem threeProcs_boot (w₀ w₂ : Int) (h₀ : 1 ≤ w₀ ∧ w₀ ≤ 1000) (h₂ : 1 ≤ w₂ ∧ w₂ ≤ 1000) :
    Boot 1000 (threeProcs w₀ w₂) where
  cur := rfl
  charge := rfl
  quanta := rfl
  priority := by simp [threeProcs, Fin.forall_fin_succ, h₀, h₂]

/-- One call of `setpriority(1000)` at the start of a turn. -/
theorem turns_bounded_one_call : ∃ s, Run (AnyStep 1000) (threeProcs 2 3)
    [.schedule, .setpriority 1000, .usertrap] s ∧ s.Bounded 1000 := by
  have h1 : Run (Guarded (AnyStep 1000) (Sys.Leaves 1000)) (threeProcs 2 3) [.schedule] _ :=
    Run.single ⟨rfl, trivial⟩
  have h2 : Run (Guarded (AnyStep 1000) (Sys.Leaves 1000)) _ (_ ++ [.setpriority 1000]) _ :=
    h1.snoc ⟨rfl, .inr (.inr (by decide))⟩
  have h3 : Run (Guarded (AnyStep 1000) (Sys.Leaves 1000)) _ (_ ++ [.usertrap]) _ :=
    h2.snoc ⟨rfl, trivial⟩
  exact ⟨_, h3.mono fun _ _ _ hs => hs.1, (turns_bounded_iff (by decide)
    (threeProcs_boot 2 3 (by decide) (by decide)) h3).1⟩

/-- A process that calls `setpriority(2)` after every timer interrupt stays on the CPU. -/
theorem setpriority_keeps_cpu (c : Nat) : ∃ tr s, Run (AnyStep 1000) (threeProcs 2 3) tr s ∧
    s.cur = some 0 ∧ s.charge = c ∧ (s.procs 0).state = .running := by
  induction c with
  | zero => exact ⟨[.schedule], _, Run.single rfl, rfl, rfl, rfl⟩
  | succ c ih =>
    obtain ⟨tr, s, hr, hcur, hcharge, hrun⟩ := ih
    have hset : AnyStep 1000 s (.setpriority 2)
        (s.setProc 0 { s.procs 0 with priority := 2, ticks := 0 }) := by
      simp [AnyStep, Sys.step, hcur, Sys.setpriority]
    have htick : int32 1 = 1 := by decide
    have htimer : AnyStep 1000 (s.setProc 0 { s.procs 0 with priority := 2, ticks := 0 }) .usertrap
        ({ s with charge := s.charge + 1 }.setProc 0 ⟨.running, 2, 1⟩) := by
      simp [AnyStep, Sys.step, Sys.usertrap, Sys.setProc, hcur, Sys.timerBranch, hrun, htick]
    refine ⟨_, _, (hr.snoc hset).snoc htimer, hcur, ?_, ?_⟩
    · change s.charge + 1 = c + 1
      rw [hcharge]
    · rw [setProc_self]

/-- With `setpriority(2)` after every timer interrupt a turn passes 1000 of them. -/
theorem turn_of_1001_ticks : Boot 1000 (threeProcs 2 3) ∧
    ∃ tr s, Run (AnyStep 1000) (threeProcs 2 3) tr s ∧ s.cur = some 0 ∧ s.charge = 1001 ∧
      ¬ s.Bounded 1000 := by
  refine ⟨threeProcs_boot 2 3 (by decide) (by decide), ?_⟩
  obtain ⟨tr, s, hr, hcur, hcharge, -⟩ := setpriority_keeps_cpu 1001
  refine ⟨tr, s, hr, hcur, hcharge, ?_⟩
  intro hb
  have hle := hb.1
  rw [hcharge] at hle
  omega

end Xv6Labs.Wrr
