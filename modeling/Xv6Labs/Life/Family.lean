import Xv6Labs.Kit.Run
import Xv6Labs.Kit.Threads
import Xv6Labs.Life.Places

/-! The family of the processes: `kfork`, `kexit` and `kwait` keep a tree below the first process
whatever the order of their steps, and a parent that sleeps in `kwait` has no child to take. -/
namespace Xv6Labs.Life
open Kit
open Wait (Doze Scan Holder)

/-- The code has seen that process `j` is no child: `kexit` has given away those it has passed,
`kwait` has met none. -/
def Pc.Childless (j : Nat) : Pc → Prop
  | .reparent _ i | .wakeup _ _ _ (.reparent _ i) | .waitScan i false => j < i
  | .wakeup _ _ _ (.exit _) | .exitWoke _ | .exitLocked _ => True
  | _ => False

/-- `kwait` has seen that process `j` is no zombie child. -/
def Pc.Seen (j : Nat) : Pc → Prop
  | .waitScan i _ | .waitChild i => j < i
  | .waitNext i => j ≤ i
  | .waitKilled => True
  | _ => False

def Pc.exiting : Pc → Bool
  | .exit _ | .reparent .. | .wakeup .. | .exitWoke _ | .exitLocked _ | .exitZombie | .exitOpen
  | .dead => true
  | _ => false

/-- Process `q` is on its way to sleep in `kwait`, or asleep there. -/
def State.Bound (s : State) (q : Nat) : Prop :=
  ∃ d, s.pc q = .sleep d ∧ d.Bound (s.proc q).state

def State.NoZombie (s : State) (q : Nat) : Prop :=
  ∀ j, (s.proc j).parent = some q → (s.proc j).state ≠ .zombie

/-- Process `q` has nothing to wait for, or the holder of `wait_lock` will still wake it. -/
def State.Covered (s : State) (q : Nat) : Prop :=
  s.NoZombie q ∨ ∃ r i k ret, s.pc r = .wakeup (some q) i k ret ∧ k.Ahead i q

/-- A process about to become a zombie has woken its parent `q`. -/
def Pc.Woke (up : Option Nat) (q : Nat) : Pc → Prop
  | .wakeup c i k (.exit _) => c = some q ∧ ¬ k.Ahead i q
  | .exitWoke _ | .exitLocked _ => up = some q
  | _ => False

structure Family (n : Nat) (s : State) : Prop where
  /-- A parent is alive. -/
  alive : ∀ i q, (s.proc i).parent = some q → Alive (s.proc q).state
  /-- Whoever lives or has left a status leads up to the first process. -/
  leads : ∀ i, (s.proc i).state ≠ .unused → (s.proc i).state ≠ .used →
    Leads (fun j => (s.proc j).parent) i initproc
  first : Alive (s.proc initproc).state ∧ (s.proc initproc).parent = none ∧
    (s.pc initproc).exiting = false
  childless : ∀ q j, (s.pc q).Childless j → (s.proc j).parent ≠ some q
  seen : ∀ q j, (s.pc q).Seen j → (s.proc j).parent = some q → (s.proc j).state ≠ .zombie
  child : ∀ q i, s.pc q = .waitChild i → (s.proc i).parent = some q
  chan : ∀ r c i k status, s.pc r = .wakeup c i k (.exit status) → c = (s.proc r).parent
  covered : ∀ q, s.Bound q → s.Covered q
  woke : ∀ r q, (s.pc r).Woke (s.proc r).parent q → ¬ s.Bound q

/-- What a step of process `p` can do to the family of process `j`. -/
inductive Kin (s : State) (p j : Nat) (r : Proc) : Prop
  | same (hp : r.parent = (s.proc j).parent)
      (hz : r.state = .zombie ↔ (s.proc j).state = .zombie)
  | adopt (hpc : s.pc p = .forkWait j) (hr : r = { s.proc j with parent := some p })
  | hand (status : Int) (hpc : s.pc p = .reparent status j) (hpar : (s.proc j).parent = some p)
      (hr : r = { s.proc j with parent := some initproc })
  | reap (hpc : s.pc p = .waitChild j) (hz : (s.proc j).state = .zombie) (hr : r = .freed)
  | die (status : Int) (hpc : s.pc p = .exitLocked status) (hj : j = p)
      (hr : r = { s.proc j with xstate := status, state := .zombie })

section
variable {n : Nat} {s t : State} {p q i j : Nat} {c : Pc} {ins : Instr} {ev : Option Event}
  {r r' : Proc} {l : Nat × Option Event}

theorem Woken.zombie (h : Woken r r') : r'.state = .zombie ↔ r.state = .zombie := by
  cases h.state with
  | inl heq => rw [heq]
  | inr hwoke => simp [hwoke.1, hwoke.2]

theorem Tame.zombie (h : Tame r r') : r'.state = .zombie ↔ r.state = .zombie := by
  cases h.state with
  | inl heq => rw [heq]
  | inr halive => exact iff_of_false halive.2.ne_zombie halive.1.ne_zombie

/-- A slot under way has no parent before `kfork` gives it one. -/
theorem Places.making_parent (h : Places n s) (hm : (s.pc p).making = some i)
    (ha : (s.pc p).adopted = false) : (s.proc i).parent = none := by
  rw [(h.making p i hm).parent, ha]
  rfl

theorem kin_step (h : Places n s) (hs : Step n s l t) (j : Nat) : Kin s l.1 j (t.proc j) := by
  obtain heq | hch | htaken := step_change (h.each l.1) hs j
  · rw [heq]
    exact .same rfl Iff.rfl
  · generalize t.proc j = r at *
    cases hch with
    | wake hl hw => exact .same hw.parent hw.zombie
    | self hq ht => exact .same ht.parent ht.zombie
    | undo hpc hr =>
      have hm : (s.pc l.1).making = some j := by rw [hpc]; rfl
      have hpar := h.making_parent hm (by rw [hpc]; rfl)
      subst hr
      refine .same (by rw [hpar]; rfl) (iff_of_false nofun ?_)
      rw [(h.making _ _ hm).state]
      exact nofun
    | adopt hpc hr => exact .adopt hpc hr
    | start hpc hr =>
      have hm : (s.pc l.1).making = some j := by rw [hpc]; rfl
      subst hr
      refine .same rfl (iff_of_false nofun ?_)
      rw [(h.making _ _ hm).state]
      exact nofun
    | hand status hpc hpar hr => exact .hand status hpc hpar hr
    | reap hpc hz hr => exact .reap hpc hz hr
    | die status hpc hq hr => exact .die status hpc hq hr
  · rw [htaken.proc]
    refine .same rfl (iff_of_false nofun ?_)
    rw [htaken.unused]
    exact nofun

/-- Whoever does not hold `wait_lock` leaves every family alone. -/
theorem kin_of_unlocked (h : Places n s) (hs : Step n s l t) (hw : (s.pc l.1).waitLock = false)
    (j : Nat) : (t.proc j).parent = (s.proc j).parent ∧
      ((t.proc j).state = .zombie ↔ (s.proc j).state = .zombie) := by
  cases kin_step h hs j with
  | same hp hz => exact ⟨hp, hz⟩
  | adopt hpc | hand _ hpc | reap hpc | die _ hpc =>
    rw [hpc] at hw
    cases hw

/-- The holder of `wait_lock` finds the families as they were while others take their steps. -/
theorem kin_of_other (h : Places n s) (hs : Step n s l t) (hq : q ≠ l.1)
    (hw : (s.pc q).waitLock = true) (j : Nat) : (t.proc j).parent = (s.proc j).parent ∧
      ((t.proc j).state = .zombie ↔ (s.proc j).state = .zombie) := by
  refine kin_of_unlocked h hs ?_ j
  rw [← Bool.not_eq_true]
  intro hl
  have hheld := (h.wait q).mpr hw
  rw [(h.wait l.1).mpr hl] at hheld
  exact hq (Option.some.inj hheld).symm

theorem Pc.Childless.waitLock (h : c.Childless j) : c.waitLock = true := by
  cases c with
  | reparent | wakeup | waitScan | exitWoke | exitLocked => rfl
  | _ => cases h

theorem Pc.Seen.waitLock (h : c.Seen j) : c.waitLock = true := by
  cases c with
  | waitScan | waitChild | waitNext | waitKilled => rfl
  | _ => cases h

/-- A process that another one's step leaves at a place inside the calls was there before. -/
theorem pc_same (hs : Step n s l t) (hq : q ≠ l.1) (hout : t.pc q ≠ .out) : t.pc q = s.pc q := by
  cases pc_other hs hq with
  | inl hsame => exact hsame
  | inr htaken => exact absurd htaken.pc_out hout

/-! Who lives. -/

/-- A process dies only by its own `kexit`. -/
theorem alive_step (h : Places n s) (hs : Step n s l t) (ha : Alive (s.proc q).state) :
    Alive (t.proc q).state ∨ ∃ status, s.pc q = .exitLocked status := by
  obtain heq | hch | htaken := step_change (h.each l.1) hs q
  · rw [heq]
    exact .inl ha
  · generalize t.proc q = r at *
    cases hch with
    | wake hl hw =>
      left
      cases hw.state with
      | inl heq => rwa [heq]
      | inr hwoke => exact .inr (.inl hwoke.2)
    | self he ht =>
      left
      cases ht.state with
      | inl heq => rwa [heq]
      | inr halive => exact halive.2
    | undo hpc | start hpc =>
      exact absurd (h.making l.1 q (by rw [hpc]; rfl)).state ha.ne_used
    | adopt hpc hr | hand _ hpc _ hr =>
      rw [hr]
      exact .inl ha
    | reap hpc hz => exact absurd hz ha.ne_zombie
    | die status hpc hq =>
      rw [hq]
      exact .inr ⟨status, hpc⟩
  · exact absurd htaken.unused ha.ne_unused

theorem exiting_code (hc : Code n s p c ins ev) (he : ins.next.exiting = true) :
    c.exiting = true ∨ p ≠ initproc := by
  cases hc with
  | exit status hp hrun hinit => exact .inr hinit
  | exitWait | reparentEnd | reparentSkip | reparentChild | exitLock | exitZombie | exitOpen
  | exitSched | wakeEnd | wakeSelf | wakeLock | wakeTest | wakeNext => exact .inl rfl
  | _ => cases he

/-- A new parent is one that forks, or the first process. -/
theorem parent_new (h : Places n s) (hs : Step n s l t) (hp : (t.proc j).parent = some q) :
    (s.proc j).parent = some q ∨ (s.pc l.1 = .forkWait j ∧ q = l.1) ∨
      (q = initproc ∧ ∃ status, s.pc l.1 = .reparent status j) := by
  have hkin := kin_step h hs j
  generalize t.proc j = r at *
  cases hkin with
  | same hpar hz => exact .inl (hpar ▸ hp)
  | adopt hpc hr =>
    rw [hr] at hp
    exact .inr (.inl ⟨hpc, (Option.some.inj hp).symm⟩)
  | hand status hpc hpar hr =>
    rw [hr] at hp
    exact .inr (.inr ⟨(Option.some.inj hp).symm, status, hpc⟩)
  | reap hpc hz hr =>
    rw [hr] at hp
    cases hp
  | die status hpc hj hr =>
    rw [hr] at hp
    exact .inl hp

variable (hf : Family n s)
include hf

theorem Family.exiting_ne (hq : (s.pc q).exiting = true) : q ≠ initproc := by
  rintro rfl
  rw [hf.first.2.2] at hq
  cases hq

theorem first_step (h : Places n s) (hs : Step n s l t) :
    Alive (t.proc initproc).state ∧ (t.proc initproc).parent = none ∧
      (t.pc initproc).exiting = false := by
  obtain ⟨ha, hpar, hex⟩ := hf.first
  refine ⟨?_, ?_, ?_⟩
  · obtain halive | ⟨status, hpc⟩ := alive_step h hs ha
    · exact halive
    · rw [hpc] at hex
      cases hex
  · cases htp : (t.proc initproc).parent with
    | none => rfl
    | some q =>
      obtain hold | ⟨hpc, -⟩ | ⟨-, status, hpc⟩ := parent_new h hs htp
      · rw [hpar] at hold
        cases hold
      · exact absurd (h.making l.1 initproc (by rw [hpc]; rfl)).state ha.ne_used
      · -- `reparent` at the first process finds no child there.
        have hkin := kin_step h hs initproc
        rw [← htp]
        generalize t.proc initproc = r at *
        cases hkin with
        | same hp hz => rw [hp, hpar]
        | adopt hpc' => simp [hpc] at hpc'
        | hand status' hpc' hp => simp [hpar] at hp
        | reap hpc' hz => exact absurd hz ha.ne_zombie
        | die status' hpc' => simp [hpc] at hpc'
  · by_cases hl : initproc = l.1
    · rw [hl] at hex ⊢
      cases hs with
      | @code p ins ev hc hr =>
        rw [pc_exec_self, ← Bool.not_eq_true]
        intro he
        cases exiting_code hc he with
        | inl hold =>
          rw [show (s.pc p).exiting = false from hex] at hold
          cases hold
        | inr hne => exact hne hl.symm
      | pick | drop | other => exact hex
      | run => rw [resume_pc]; rfl
    · obtain hsame | htaken := pc_other hs hl
      · rw [hsame]
        exact hex
      · rw [htaken.pc_out]
        rfl

theorem parent_alive_step (h : Places n s) (hs : Step n s l t) (i q : Nat)
    (hp : (t.proc i).parent = some q) : Alive (t.proc q).state := by
  have hkeep (ha : Alive (s.proc q).state) (hno : ¬ ∃ status, s.pc q = .exitLocked status) :
      Alive (t.proc q).state := (alive_step h hs ha).resolve_right hno
  obtain hold | ⟨hpc, rfl⟩ | ⟨rfl, -⟩ := parent_new h hs hp
  · refine hkeep (hf.alive i q hold) ?_
    rintro ⟨status, hpc⟩
    exact hf.childless q i (by rw [hpc]; trivial) hold
  · refine hkeep (.inr (.inr (h.maker_running (by rw [hpc]; rfl)))) ?_
    rintro ⟨status, hpc'⟩
    rw [hpc] at hpc'
    cases hpc'
  · exact (first_step hf h hs).1

omit hf

/-! The way up to the first process. -/

/-- A process is settled from the end of its `kfork` on. -/
def Settled (st : ProcState) : Prop := st ≠ .unused ∧ st ≠ .used

theorem Tame.settled (h : Tame r r') (hr : Settled r'.state) : Settled r.state := by
  cases h.state with
  | inl heq => rwa [← heq]
  | inr halive => exact ⟨halive.1.ne_unused, halive.1.ne_used⟩

theorem settled_step (h : Places n s) (hs : Step n s l t) (hi : Settled (t.proc i).state) :
    Settled (s.proc i).state ∨ s.pc l.1 = .forkLock i := by
  obtain heq | hch | htaken := step_change (h.each l.1) hs i
  · rw [← heq]
    exact .inl hi
  · generalize t.proc i = r at *
    cases hch with
    | wake hl hw => exact .inl (hw.tame.settled hi)
    | self he ht => exact .inl (ht.settled hi)
    | undo hpc hr | reap hpc hz hr =>
      rw [hr] at hi
      exact absurd rfl hi.1
    | adopt hpc hr | hand _ hpc _ hr =>
      rw [hr] at hi
      exact .inl hi
    | start hpc hr => exact .inr hpc
    | die status hpc hq =>
      have hstate := (h.each l.1).state
      rw [hpc] at hstate
      rw [hq, show (s.proc l.1).state = .running from hstate]
      exact .inl ⟨nofun, nofun⟩
  · rw [htaken.proc] at hi
    exact absurd rfl hi.2

/-- What stays in the table keeps its way up. -/
theorem leads_keep (hf : Family n s) (h : Places n s) (hs : Step n s l t)
    (hi : Leads (fun j => (s.proc j).parent) i initproc) (hu : (t.proc i).state ≠ .unused) :
    Leads (fun j => (t.proc j).parent) i initproc := by
  refine hi.keep (K := fun x => (t.proc x).state ≠ .unused) hu ?_ ?_
  · intro x y hxy
    obtain halive | ⟨status, hpc⟩ := alive_step h hs (hf.alive x y hxy)
    · exact halive.ne_unused
    · exact absurd hxy (hf.childless y x (by rw [hpc]; trivial))
  · intro x y hx hxy
    have hkin := kin_step h hs x
    generalize t.proc x = r at *
    cases hkin with
    | same hp hz => exact .inl (hp.trans hxy)
    | adopt hpc hr =>
      rw [h.making_parent (by rw [hpc]; rfl) (by rw [hpc]; rfl)] at hxy
      cases hxy
    | hand status hpc hpar hr =>
      rw [hr]
      exact .inr rfl
    | reap hpc hz hr =>
      rw [hr] at hx
      exact absurd rfl hx
    | die status hpc hj hr =>
      rw [hr]
      exact .inl hxy

theorem leads_step (hf : Family n s) (h : Places n s) (hs : Step n s l t) (i : Nat)
    (hu : (t.proc i).state ≠ .unused) (hn : (t.proc i).state ≠ .used) :
    Leads (fun j => (t.proc j).parent) i initproc := by
  obtain hset | hpc := settled_step h hs ⟨hu, hn⟩
  · exact leads_keep hf h hs (hf.leads i hset.1 hset.2) hu
  · -- The new child hangs below its parent, who is here before.
    have hm : (s.pc l.1).making = some i := by rw [hpc]; rfl
    have hrun := h.maker_running hm
    have hpar : (s.proc i).parent = some l.1 := by
      rw [(h.making l.1 i hm).parent, hpc]
      rfl
    have hset : Settled (s.proc l.1).state := by
      rw [hrun]
      exact ⟨nofun, nofun⟩
    obtain halive | ⟨status, hpc'⟩ := alive_step h hs (hf.alive i l.1 hpar)
    · refine .head ?_ (leads_keep hf h hs (hf.leads l.1 hset.1 hset.2) halive.ne_unused)
      have hkin := kin_step h hs i
      dsimp only
      generalize t.proc i = r at *
      cases hkin with
      | same hp hz => rw [hp, hpar]
      | adopt hpc' | hand _ hpc' | reap hpc' | die _ hpc' => simp [hpc] at hpc'
    · simp [hpc] at hpc'

/-! What the loops over the process table have seen. -/

theorem childless_code (hc : Code n s p c ins ev) (hj : ins.next.Childless j) :
    c.Childless j ∨ n ≤ j ∨ (s.proc j).parent ≠ some p ∨
      (c.exiting = true ∧ ((s.exec p ins).proc j).parent = some initproc) := by
  cases hc with
  | exitWait | waitLock | sleepAgain => exact absurd hj (Nat.not_lt_zero j)
  | reparentEnd status i hi =>
    by_cases hji : j < i
    · exact .inl hji
    · exact .inr (.inl (by omega))
  | reparentSkip status i hi hpar =>
    by_cases hji : j = i
    · exact .inr (.inr (.inl (hji ▸ hpar)))
    · have hlt : j < i + 1 := hj
      exact .inl (show j < i by omega)
  | waitSkip i k hi hpar =>
    by_cases hji : j = i
    · exact .inr (.inr (.inl (hji ▸ hpar)))
    · cases k with
      | true => cases hj
      | false =>
        have hlt : j < i + 1 := hj
        exact .inl (show j < i by omega)
  | reparentChild status i hi hpar =>
    by_cases hji : j = i
    · subst hji
      refine .inr (.inr (.inr ⟨rfl, ?_⟩))
      rw [proc_exec_of_some rfl, Function.update_self]
    · have hlt : j < i + 1 := hj
      exact .inl (show j < i by omega)
  | wakeEnd c i ret hi =>
    cases ret with
    | reparent status i => exact .inl hj
    | exit status => exact .inl trivial
  | wakeSelf c i ret | wakeLock c i ret | wakeTest c i ret | wakeNext c i ret =>
    cases ret with
    | reparent status i => exact .inl hj
    | exit status => exact .inl trivial
  | exitLock => exact .inl trivial
  | _ => cases hj

/-- Slots outside the table have no parent. -/
theorem Places.parent_lt (h : Places n s) (hp : (s.proc j).parent = some q) : j < n := by
  refine (h.each j).lt ?_
  intro hu
  rw [h.unused j hu] at hp
  cases hp

theorem childless_step (hf : Family n s) (h : Places n s) (hs : Step n s l t) (q j : Nat)
    (hj : (t.pc q).Childless j) : (t.proc j).parent ≠ some q := by
  intro hp
  by_cases hq : q = l.1
  · subst hq
    have hnew := parent_new h hs hp
    have hno : (s.pc l.1).Childless j → False := by
      intro hold
      obtain hpar | ⟨hpc, -⟩ | ⟨hinit, status, hpc⟩ := hnew
      · exact hf.childless l.1 j hold hpar
      · rw [hpc] at hold
        cases hold
      · exact hf.exiting_ne (q := l.1) (by rw [hpc]; rfl) hinit
    cases hs with
    | @code p ins ev hc hr =>
      rw [pc_exec_self] at hj
      obtain hold | hge | hpar | hinit := childless_code hc hj
      · exact hno hold
      · have hlt := (places_step h (.code hc hr)).parent_lt hp
        omega
      · obtain hold | ⟨hpc, -⟩ | ⟨hinit, status, hpc⟩ := hnew
        · exact hpar hold
        · rw [hpc] at hc
          cases hc
          cases hj
        · exact hf.exiting_ne (q := p) (by rw [hpc]; rfl) hinit
      · rw [hinit.2] at hp
        exact hf.exiting_ne hinit.1 (Option.some.inj hp).symm
    | pick | drop | other => exact hno hj
    | run =>
      rw [resume_pc] at hj
      cases hj
  · have hsame : t.pc q = s.pc q := by
      refine pc_same hs hq ?_
      intro hout
      rw [hout] at hj
      cases hj
    rw [hsame] at hj
    rw [(kin_of_other h hs hq hj.waitLock j).1] at hp
    exact hf.childless q j hj hp

theorem seen_code (hc : Code n s p c ins ev) (hj : ins.next.Seen j) :
    ins.written = none ∧
      (c.Seen j ∨ n ≤ j ∨ (s.proc j).parent ≠ some p ∨ (s.proc j).state ≠ .zombie) := by
  cases hc with
  | waitLock | sleepAgain => exact absurd hj (Nat.not_lt_zero j)
  | waitSkip i k hi hpar =>
    refine ⟨rfl, ?_⟩
    by_cases hji : j = i
    · exact .inr (.inr (.inl (hji ▸ hpar)))
    · have hlt : j < i + 1 := hj
      exact .inl (show j < i by omega)
  | waitChild i k hi hpar => exact ⟨rfl, .inl hj⟩
  | waitAlive i hz =>
    refine ⟨rfl, ?_⟩
    by_cases hji : j = i
    · exact .inr (.inr (.inr (hji ▸ hz)))
    · have hle : j ≤ i := hj
      exact .inl (show j < i by omega)
  | waitNext i => exact ⟨rfl, .inl (Nat.lt_succ_iff.mp hj)⟩
  | waitKilled i hi =>
    refine ⟨rfl, ?_⟩
    by_cases hji : j < i
    · exact .inl hji
    · exact .inr (.inl (by omega))
  | wakeEnd c i ret => cases ret <;> cases hj
  | _ => cases hj

theorem seen_step (hf : Family n s) (h : Places n s) (hs : Step n s l t) (q j : Nat)
    (hj : (t.pc q).Seen j) (hp : (t.proc j).parent = some q) : (t.proc j).state ≠ .zombie := by
  by_cases hq : q = l.1
  · subst hq
    cases hs with
    | @code p ins ev hc hr =>
      rw [pc_exec_self] at hj
      obtain ⟨hw, hcases⟩ := seen_code hc hj
      rw [proc_exec_of_none hw] at hp ⊢
      obtain hold | hge | hpar | hz := hcases
      · exact hf.seen p j hold hp
      · have hlt := h.parent_lt hp
        omega
      · exact absurd hp hpar
      · exact hz
    | pick | drop => exact hf.seen _ j hj hp
    | @other p r hpc =>
      rw [show (s.setProc p r).pc p = .out from hpc] at hj
      cases hj
    | run =>
      rw [resume_pc] at hj
      cases hj
  · have hsame : t.pc q = s.pc q := by
      refine pc_same hs hq ?_
      intro hout
      rw [hout] at hj
      cases hj
    rw [hsame] at hj
    obtain ⟨hpar, hz⟩ := kin_of_other h hs hq hj.waitLock j
    rw [Ne, hz]
    exact hf.seen q j hj (hpar ▸ hp)

theorem child_code (hc : Code n s p c ins ev) (hi : ins.next = .waitChild i) :
    ins.written = none ∧ (s.proc i).parent = some p := by
  cases hc with
  | waitChild i k hi' hpar =>
    cases hi
    exact ⟨rfl, hpar⟩
  | wakeEnd c i ret => cases ret <;> cases hi
  | _ => cases hi

theorem child_step (hf : Family n s) (h : Places n s) (hs : Step n s l t) (q i : Nat)
    (hi : t.pc q = .waitChild i) : (t.proc i).parent = some q := by
  by_cases hq : q = l.1
  · subst hq
    cases hs with
    | @code p ins ev hc hr =>
      rw [pc_exec_self] at hi
      obtain ⟨hw, hpar⟩ := child_code hc hi
      rw [proc_exec_of_none hw]
      exact hpar
    | pick | drop => exact hf.child _ i hi
    | @other p r hpc =>
      rw [show (s.setProc p r).pc p = .out from hpc] at hi
      cases hi
    | run =>
      rw [resume_pc] at hi
      cases hi
  · have hold : s.pc q = .waitChild i := pc_same hs hq (by rw [hi]; nofun) ▸ hi
    rw [(kin_of_other h hs hq (by rw [hold]; rfl) i).1]
    exact hf.child q i hold

/-! The wake-ups. -/

theorem Family.parent_ne (hf : Family n s) (hset : Settled (s.proc i).state) :
    (s.proc i).parent ≠ some i := by
  intro hself
  exact (hf.leads i hset.1 hset.2).acyclic hf.first.2.1 (.single hself)

/-- A process does not change its own parent. -/
theorem own_parent (hf : Family n s) (h : Places n s) (hs : Step n s l t) :
    (t.proc l.1).parent = (s.proc l.1).parent := by
  have hstate := (h.each l.1).state
  have hkin := kin_step h hs l.1
  generalize t.proc l.1 = r at *
  cases hkin with
  | same hp => exact hp
  | adopt hpc =>
    have hm : (s.pc l.1).making = some l.1 := by rw [hpc]; rfl
    have hused := (h.making _ _ hm).state
    rw [h.maker_running hm] at hused
    cases hused
  | hand status hpc hpar =>
    rw [hpc] at hstate
    have hset : Settled (s.proc l.1).state := by
      rw [show (s.proc l.1).state = .running from hstate]
      exact ⟨nofun, nofun⟩
    exact absurd hpar (hf.parent_ne hset)
  | reap hpc hz =>
    rw [hpc, hz] at hstate
    cases hstate
  | die status hpc hj hr => rw [hr]

theorem chan_code {x : Option Nat} {k : Scan} {status : Int} (hc : Code n s p c ins ev)
    (hx : ins.next = .wakeup x i k (.exit status)) :
    x = (s.proc p).parent ∨ ∃ i' k', c = .wakeup x i' k' (.exit status) := by
  cases hc with
  | reparentEnd =>
    cases hx
    exact .inl rfl
  | wakeSelf | wakeLock | wakeTest | wakeNext =>
    cases hx
    exact .inr ⟨_, _, rfl⟩
  | wakeEnd c i ret => cases ret <;> cases hx
  | _ => cases hx

theorem chan_step (hf : Family n s) (h : Places n s) (hs : Step n s l t) (q : Nat) (c : Option Nat)
    (i : Nat) (k : Scan) (status : Int) (hpc : t.pc q = .wakeup c i k (.exit status)) :
    c = (t.proc q).parent := by
  by_cases hq : q = l.1
  · subst hq
    rw [own_parent hf h hs]
    cases hs with
    | @code p ins ev hc hr =>
      rw [pc_exec_self] at hpc
      obtain hpar | ⟨i', k', hold⟩ := chan_code hc hpc
      · exact hpar
      · exact hf.chan p c i' k' status hold
    | pick | drop | other => exact hf.chan _ c i k status hpc
    | run =>
      rw [resume_pc] at hpc
      cases hpc
  · have hsame : t.pc q = s.pc q := pc_same hs hq (by rw [hpc]; nofun)
    have hold : s.pc q = .wakeup c i k (.exit status) := hsame ▸ hpc
    rw [(kin_of_other h hs hq (by rw [hold]; rfl) q).1]
    exact hf.chan q c i k status hold

/-- Nobody else puts a process to sleep. -/
theorem sleeping_before (h : Places n s) (hs : Step n s l t) (hq : q ≠ l.1)
    (hsl : (t.proc q).state = .sleeping) : (s.proc q).state = .sleeping := by
  obtain heq | hch | htaken := step_change (h.each l.1) hs q
  · rwa [heq] at hsl
  · generalize t.proc q = r at *
    cases hch with
    | wake hl hw =>
      cases hw.state with
      | inl heq => rwa [heq] at hsl
      | inr hwoke => exact hwoke.1
    | self he | die _ _ he => exact absurd he hq
    | adopt hpc hr | hand _ hpc _ hr =>
      rw [hr] at hsl
      exact hsl
    | undo hpc hr | start hpc hr | reap hpc hz hr =>
      rw [hr] at hsl
      cases hsl
  · rw [htaken.proc] at hsl
    cases hsl

/-- A process on its way to sleep was on its way before the step, or has just seen that no child
is a zombie. -/
theorem bound_before (hs : Step n s l t) (h : Places n s) (hb : t.Bound q) :
    s.Bound q ∨
      s.pc q = .waitKilled ∧ t.pc q = .sleep .called ∧ q = l.1 ∧ t.proc = s.proc := by
  obtain ⟨d, hpc, hd⟩ := hb
  by_cases hq : q = l.1
  · subst hq
    cases hs with
    | @code p ins ev hc hr =>
      rw [pc_exec_self] at hpc
      have hstate := (h.each p).state
      generalize hold : s.pc p = c at hc hstate
      cases hc with
      | waitSleep => exact .inr ⟨rfl, pc_exec_self .., rfl, rfl⟩
      | sleepLock | sleepUnlock | sleepChan | sleepState | sleepSched =>
        exact .inl ⟨_, hold, trivial⟩
      | sleepTidy | sleepOpen =>
        cases hpc
        cases hd
      | wakeEnd c i ret => cases ret <;> cases hpc
      | _ => cases hpc
    | pick | drop => exact .inl ⟨d, hpc, hd⟩
    | @other p r hout =>
      rw [show (s.setProc p r).pc p = .out from hout] at hpc
      cases hpc
    | run =>
      rw [resume_pc] at hpc
      cases hpc
      cases hd
  · left
    have hsame : t.pc q = s.pc q := pc_same hs hq (by rw [hpc]; nofun)
    refine ⟨d, hsame ▸ hpc, ?_⟩
    cases d with
    | off => exact sleeping_before h hs hq hd
    | _ => exact hd

theorem Places.bound_lt (h : Places n s) (hb : s.Bound q) : q < n := by
  obtain ⟨d, hpc, -⟩ := hb
  have halive := alive_of_place (h.each q) (by rw [hpc]; nofun) (by rw [hpc]; nofun)
    (by rw [hpc]; nofun) (by rw [hpc]; nofun)
  exact (h.each q).lt halive.ne_unused

/-- The process that a scan has just tested is not asleep in `kwait` any more. -/
theorem tested_not_bound {ret : Ret} (h : Places n s) (hp : s.pc p = .wakeup (some q) q .taken ret)
    (hsame : t.pc q = s.pc q) (hproc : t.proc q = (s.proc q).wake (some q)) (hb : s.Bound q) :
    ¬ t.Bound q := by
  rintro ⟨d', hpc', hd'⟩
  obtain ⟨d, hpc, hd⟩ := hb
  rw [hsame, hpc] at hpc'
  cases hpc'
  have hne : q ≠ p := by
    intro he
    rw [he, hp] at hpc
    cases hpc
  have hno := h.not_holding hne (by rw [hp]; rfl)
  rw [hpc] at hno
  cases d' with
  | locked | unlocked | chanSet | stateSet => exact hno rfl
  | called =>
    -- Both would hold `wait_lock`.
    have hq := (h.wait q).mpr (by rw [hpc]; rfl)
    rw [(h.wait p).mpr (by rw [hp]; rfl)] at hq
    exact hne (Option.some.inj hq).symm
  | off =>
    have hchan := (h.each q).chan
    rw [hpc] at hchan
    have hcond : (s.proc q).state = .sleeping ∧ some q ≠ none ∧ (s.proc q).chan = some q :=
      ⟨hd, nofun, hchan⟩
    rw [hproc, Proc.wake, if_pos hcond] at hd'
    cases hd'
  | resumed | tidied | again => exact hd

/-- The scan goes on to whoever is ahead of it and still on its way to sleep. -/
theorem ahead_step {k : Scan} {ret : Ret} (h : Places n s) (hs : Step n s l t)
    (hpc : s.pc l.1 = .wakeup (some q) i k ret) (ha : k.Ahead i q) (hb : s.Bound q)
    (hb' : t.Bound q) : ∃ i k, t.pc l.1 = .wakeup (some q) i k ret ∧ k.Ahead i q := by
  have hlt := h.bound_lt hb
  have hne : q ≠ l.1 := by
    intro he
    obtain ⟨d, hd, -⟩ := hb
    rw [he, hpc] at hd
    cases hd
  cases hs with
  | @code p ins ev hc hr =>
    have hpc : s.pc p = .wakeup (some q) i k ret := hpc
    have hne : q ≠ p := hne
    rw [pc_exec_self]
    rw [hpc] at hc
    cases hc with
    | wakeEnd c i ret hi =>
      have hle : i ≤ q := ha
      omega
    | wakeSelf c i ret hi =>
      have hle : i ≤ q := ha
      exact ⟨i + 1, .next, rfl, show i + 1 ≤ q by omega⟩
    | wakeLock c i ret => exact ⟨i, .taken, rfl, ha⟩
    | wakeTest c i ret =>
      have hle : i ≤ q := ha
      have hiq : i ≠ q := by
        rintro rfl
        exact tested_not_bound h hpc (pc_exec_of_ne hne (by simp [Instr.spawned]))
          (by rw [proc_exec_of_some rfl, Function.update_self]) hb hb'
      exact ⟨i, .tested, rfl, lt_of_le_of_ne hle hiq⟩
    | wakeNext c i ret => exact ⟨i + 1, .next, rfl, ha⟩
  | pick | drop => exact ⟨i, k, hpc, ha⟩
  | @other p r hout =>
    have hpc : s.pc p = .wakeup (some q) i k ret := hpc
    rw [hout] at hpc
    cases hpc
  | @run p _ _ hoff =>
    have hpc : s.pc p = .wakeup (some q) i k ret := hpc
    rw [hoff] at hpc
    cases hpc

/-- After `reparent` has given a child away, the first process is woken. -/
theorem hand_wakes (hf : Family n s) (h : Places n s) (hs : Step n s l t) {status : Int}
    (hpc : s.pc l.1 = .reparent status j) (hpar : (s.proc j).parent = some l.1)
    (hp : (t.proc j).parent = some initproc) :
    t.pc l.1 = .wakeup (some initproc) 0 .next (.reparent status (j+1)) := by
  have hlt := h.parent_lt hpar
  have hne := hf.exiting_ne (q := l.1) (by rw [hpc]; rfl)
  cases hs with
  | @code p ins ev hc hr =>
    have hpc : s.pc p = .reparent status j := hpc
    rw [pc_exec_self]
    rw [hpc] at hc
    cases hc with
    | reparentEnd status i hi => omega
    | reparentSkip status i hi hno => exact absurd hpar hno
    | reparentChild => rfl
  | pick | drop =>
    rw [show (s.proc j).parent = some initproc from hp] at hpar
    exact absurd (Option.some.inj hpar).symm hne
  | @other p r hout =>
    have hpc : s.pc p = .reparent status j := hpc
    rw [hout] at hpc
    cases hpc
  | @run p _ _ hoff =>
    have hpc : s.pc p = .reparent status j := hpc
    rw [hoff] at hpc
    cases hpc

/-- A zombie child that was none before has just died, or was just given to the first process. -/
theorem zombie_new (hf : Family n s) (h : Places n s) (hs : Step n s l t) (hno : s.NoZombie q)
    (hp : (t.proc j).parent = some q) (hz : (t.proc j).state = .zombie) :
    (s.pc l.1).Woke (s.proc l.1).parent q ∨
      ∃ r i k ret, t.pc r = .wakeup (some q) i k ret ∧ k.Ahead i q := by
  have hkin := kin_step h hs j
  have hhand {st : Int} (hpc : s.pc l.1 = .reparent st j) := hand_wakes hf h hs hpc
  generalize t.proc j = r at *
  cases hkin with
  | same hpar hzom => exact absurd (hzom.mp hz) (hno j (hpar ▸ hp))
  | adopt hpc hr =>
    have hused := (h.making l.1 j (by rw [hpc]; rfl)).state
    rw [hr] at hz
    rw [show (s.proc j).state = .zombie from hz] at hused
    cases hused
  | hand status hpc hpar hr =>
    rw [hr] at hp
    cases hp
    exact .inr ⟨l.1, 0, .next, _, hhand hpc hpar (by rw [hr]), Nat.zero_le _⟩
  | reap hpc hz' hr =>
    rw [hr] at hp
    cases hp
  | die status hpc hj hr =>
    rw [hr, hj] at hp
    rw [hpc]
    exact .inl hp

theorem covered_step (hf : Family n s) (h : Places n s) (hs : Step n s l t) (q : Nat)
    (hb : t.Bound q) : t.Covered q := by
  obtain hold | ⟨hpc, -, rfl, hproc⟩ := bound_before hs h hb
  · cases hf.covered q hold with
    | inl hno =>
      by_cases hz : t.NoZombie q
      · exact .inl hz
      · unfold State.NoZombie at hz
        push Not at hz
        obtain ⟨j, hp, hj⟩ := hz
        cases zombie_new hf h hs hno hp hj with
        | inl hwoke => exact absurd hold (hf.woke l.1 q hwoke)
        | inr hscan => exact .inr hscan
    | inr hscan =>
      obtain ⟨r, i, k, ret, hr, ha⟩ := hscan
      by_cases hrl : r = l.1
      · subst hrl
        obtain ⟨i', k', hpc', ha'⟩ := ahead_step h hs hr ha hold hb
        exact .inr ⟨l.1, i', k', ret, hpc', ha'⟩
      · refine .inr ⟨r, i, k, ret, ?_, ha⟩
        cases pc_other hs hrl with
        | inl hsame => rw [hsame, hr]
        | inr htaken =>
          have hrest := (h.each r).unused_rest htaken.unused
          rw [hr] at hrest
          cases hrest.1
  · left
    intro j hp
    rw [hproc] at hp ⊢
    exact hf.seen l.1 j (by rw [hpc]; trivial) hp

theorem Pc.Woke.waitLock {up : Option Nat} (h : c.Woke up q) : c.waitLock = true := by
  cases c with
  | wakeup | exitWoke | exitLocked => rfl
  | _ => cases h

theorem woke_code (hf : Family n s) (h : Places n s) (hc : Code n s p (s.pc p) ins ev)
    (hw : ins.next.Woke (s.proc p).parent q) (hb : s.Bound q) (hb' : (s.exec p ins).Bound q) :
    (s.pc p).Woke (s.proc p).parent q := by
  have hlt := h.bound_lt hb
  have hchan := hf.chan p
  have hne : (s.pc p).Woke (s.proc p).parent q ∨ (∃ c i k ret, s.pc p = .wakeup c i k ret) →
      q ≠ p := by
    intro hor he
    obtain ⟨d, hd, -⟩ := hb
    rw [← he, hd] at hor
    obtain hf | ⟨c, i, k, ret, hf⟩ := hor <;> cases hf
  generalize hpc : s.pc p = c at hc hchan hne ⊢
  cases hc with
  | reparentEnd => exact absurd (Nat.zero_le q) hw.2
  | wakeEnd c i ret hi =>
    cases ret with
    | reparent => cases hw
    | exit status =>
      refine ⟨(hchan c i .next status rfl).trans hw, ?_⟩
      exact fun hle : i ≤ q => by omega
  | wakeSelf c i ret hi =>
    have hqp := hne (.inr ⟨_, _, _, _, rfl⟩)
    cases ret with
    | reparent => cases hw
    | exit status =>
      have hnot : ¬ i + 1 ≤ q := hw.2
      exact ⟨hw.1, fun hle : i ≤ q => by omega⟩
  | wakeLock c i ret =>
    cases ret with
    | reparent => cases hw
    | exit status => exact hw
  | wakeTest c i ret =>
    have hqp := hne (.inr ⟨_, _, _, _, rfl⟩)
    cases ret with
    | reparent => cases hw
    | exit status =>
      have hnot : ¬ i < q := hw.2
      refine ⟨hw.1, ?_⟩
      intro hle
      have hle : i ≤ q := hle
      obtain rfl : i = q := by omega
      have hcq : c = some i := hw.1
      subst hcq
      exact tested_not_bound h hpc (pc_exec_of_ne hqp (by simp [Instr.spawned]))
        (by rw [proc_exec_of_some rfl, Function.update_self]) hb hb'
  | wakeNext c i ret =>
    cases ret with
    | reparent => cases hw
    | exit status => exact hw
  | exitLock => exact hw
  | _ => cases hw

theorem woke_step (hf : Family n s) (h : Places n s) (hs : Step n s l t) (r q : Nat)
    (hw : (t.pc r).Woke (t.proc r).parent q) : ¬ t.Bound q := by
  intro hb
  have ht := places_step h hs
  have hwl : t.wlock = some r := (ht.wait r).mpr hw.waitLock
  obtain hold | ⟨-, hcalled, -, -⟩ := bound_before hs h hb
  · refine hf.woke r q ?_ hold
    by_cases hr : r = l.1
    · subst hr
      rw [own_parent hf h hs] at hw
      cases hs with
      | @code p ins ev hc _ =>
        rw [pc_exec_self] at hw
        exact woke_code hf h hc hw hold hb
      | pick | drop | other => exact hw
      | run =>
        rw [resume_pc] at hw
        cases hw
    · have hsame : t.pc r = s.pc r := by
        refine pc_same hs hr ?_
        intro hout
        rw [hout] at hw
        cases hw
      rw [hsame] at hw
      rwa [(kin_of_other h hs hr hw.waitLock r).1] at hw
  · -- The parent itself holds `wait_lock` when it starts to sleep.
    have hheld := (ht.wait q).mpr (by rw [hcalled]; rfl)
    rw [hwl] at hheld
    cases hheld
    rw [hcalled] at hw
    cases hw

theorem family_step (h : Places n s) (hf : Family n s) (hs : Step n s l t) : Family n t where
  alive := parent_alive_step hf h hs
  leads := leads_step hf h hs
  first := first_step hf h hs
  childless := childless_step hf h hs
  seen := seen_step hf h hs
  child := child_step hf h hs
  chan := chan_step hf h hs
  covered := covered_step hf h hs
  woke := woke_step hf h hs

theorem family_boot : Family n .boot where
  alive i q hp := by
    by_cases hi : i = initproc <;> simp [State.boot, hi, Proc.freed] at hp
  leads i hu _ := by
    by_cases hi : i = initproc
    · rw [hi]
      exact .refl
    · simp [State.boot, hi, Proc.freed] at hu
  first := by simp [State.boot, Alive, Pc.exiting]
  childless q j hj := by cases hj
  seen q j hj := by cases hj
  child q i hi := by cases hi
  chan r c i k status hpc := by cases hpc
  covered q hb := by
    obtain ⟨d, hd, -⟩ := hb
    cases hd
  woke r q hw := by cases hw

variable {tr : List (Nat × Option Event)}

theorem life_run (hn : 0 < n) (hr : Run (Step n) .boot tr s) : Places n s ∧ Family n s :=
  hr.invariant (P := fun s => Places n s ∧ Family n s) ⟨places_boot hn, family_boot⟩
    fun _ _ _ h hs => ⟨places_step h.1 hs, family_step h.1 h.2 hs⟩

/-- The first process runs. -/
theorem init_runs (n : Nat) :
    Run (Step n) .boot [(0, none)]
      (State.boot.setProc 0 { State.boot.proc 0 with state := .running }) :=
  Run.single (.other rfl rfl ⟨.inr (.inl rfl), .inr (.inr rfl), rfl, rfl, rfl, rfl, nofun⟩)

/-- The first process forks and waits for its child. -/
theorem fork_and_wait : ∃ tr s, Run (Step 2) .boot tr s ∧ s.plock 0 = some .back ∧ s.wlock = none ∧
    s.pc 0 = .sleep .off ∧ (s.proc 0).state = .sleeping ∧ (s.proc 1).parent = some 0 ∧
    (s.proc 1).state = .runnable := by
  have h1 := (init_runs 2).snoc (a := (0, none)) (.code (.fork (by decide) rfl) trivial)
  have h2 := h1.snoc (a := (0, none)) (.code (.allocLock 0 (by decide)) rfl)
  have h3 := h2.snoc (a := (0, none)) (.code (.allocBusy 0 nofun) trivial)
  have h4 := h3.snoc (a := (0, none)) (.code (.allocNext 0) trivial)
  have h5 := h4.snoc (a := (0, none)) (.code (.allocLock 1 (by decide)) rfl)
  have h6 := h5.snoc (a := (0, some _)) (.code (.allocFound 1 rfl) trivial)
  have h7 := h6.snoc (a := (0, none)) (.code (.forkCopy 1) trivial)
  have h8 := h7.snoc (a := (0, none)) (.code (.forkWait 1) rfl)
  have h9 := h8.snoc (a := (0, some _)) (.code (.forkParent 1) trivial)
  have h10 := h9.snoc (a := (0, none)) (.code (.forkOpen 1) trivial)
  have h11 := h10.snoc (a := (0, none)) (.code (.forkLock 1) rfl)
  have h12 := h11.snoc (a := (0, none)) (.code (.forkReady 1) trivial)
  have h13 := h12.snoc (a := (0, none)) (.code (.forkDone 1) trivial)
  have h14 := h13.snoc (a := (0, none)) (.code (.wait (by decide) rfl) trivial)
  have h15 := h14.snoc (a := (0, none)) (.code .waitLock rfl)
  have h16 := h15.snoc (a := (0, none)) (.code (.waitSkip 0 false (by decide) nofun) trivial)
  have h17 := h16.snoc (a := (0, none)) (.code (.waitChild 1 false (by decide) rfl) rfl)
  have h18 := h17.snoc (a := (0, none)) (.code (.waitAlive 1 nofun) trivial)
  have h19 := h18.snoc (a := (0, none)) (.code (.waitNext 1) trivial)
  have h20 := h19.snoc (a := (0, none)) (.code (.waitKilled 2 (by decide)) rfl)
  have h21 := h20.snoc (a := (0, none)) (.code (.waitSleep rfl) trivial)
  have h22 := h21.snoc (a := (0, none)) (.code .sleepLock rfl)
  have h23 := h22.snoc (a := (0, none)) (.code .sleepUnlock trivial)
  have h24 := h23.snoc (a := (0, none)) (.code .sleepChan trivial)
  have h25 := h24.snoc (a := (0, none)) (.code .sleepState trivial)
  have h26 := h25.snoc (a := (0, none)) (.code .sleepSched trivial)
  exact ⟨_, _, h26, rfl, rfl, rfl, rfl, rfl, rfl⟩

/-- The parents make a tree below the first process: a parent is alive, whoever lives or has left
its status leads up to the first process, and no process is above itself. -/
theorem parents_tree (hn : 0 < n) (hr : Run (Step n) .boot tr s) :
    (∀ i q, (s.proc i).parent = some q → Alive (s.proc q).state) ∧
    (∀ i, Alive (s.proc i).state ∨ (s.proc i).state = .zombie →
      Leads (fun j => (s.proc j).parent) i initproc) ∧
    ∀ i, ¬ Relation.TransGen (fun a b => (s.proc a).parent = some b) i i := by
  have hf := (life_run hn hr).2
  refine ⟨hf.alive, ?_, ?_⟩
  · intro i hi
    cases hi with
    | inl halive => exact hf.leads i halive.ne_unused halive.ne_used
    | inr hz => exact hf.leads i (by rw [hz]; nofun) (by rw [hz]; nofun)
  · intro i hc
    -- Somebody has `i` for a parent, so `i` is alive and leads up to the root.
    obtain ⟨j, -, hj⟩ := Relation.TransGen.tail'_iff.mp hc
    have halive := hf.alive j i hj
    exact (hf.leads i halive.ne_unused halive.ne_used).acyclic hf.first.2.1 hc

theorem parents_tree_child : ∃ tr s, Run (Step 2) .boot tr s ∧
    Leads (fun j => (s.proc j).parent) 1 initproc := by
  obtain ⟨tr, s, hr, -, -, -, -, -, hrun⟩ := fork_and_wait
  exact ⟨tr, s, hr, (parents_tree (by decide) hr).2.1 1 (.inl (.inr (.inl hrun)))⟩

theorem bound_of_sleeping {d : Doze} (h : Local n s q) (hpc : s.pc q = .sleep d)
    (hsl : (s.proc q).state = .sleeping) : s.Bound q := by
  refine ⟨d, hpc, ?_⟩
  have hstate := h.state
  rw [hpc, hsl] at hstate
  cases d with
  | off => exact hsl
  | resumed | tidied | again => cases hstate
  | _ => trivial

/-- No wake-up of `kwait` is lost: while `wait_lock` is free, a parent that sleeps there has no
child that has exited. -/
theorem kwait_no_lost_wakeup {d : Doze} (hn : 0 < n) (hr : Run (Step n) .boot tr s)
    (hfree : s.wlock = none) (hpc : s.pc q = .sleep d) (hsl : (s.proc q).state = .sleeping) (j : Nat)
    (hp : (s.proc j).parent = some q) : (s.proc j).state ≠ .zombie := by
  obtain ⟨h, hf⟩ := life_run hn hr
  cases hf.covered q (bound_of_sleeping (h.each q) hpc hsl) with
  | inl hno => exact hno j hp
  | inr hscan =>
    obtain ⟨r, i, k, ret, hr, -⟩ := hscan
    have hheld := (h.wait r).mpr (by rw [hr]; rfl)
    rw [hfree] at hheld
    cases hheld

theorem kwait_no_lost_wakeup_init : ∃ tr s, Run (Step 2) .boot tr s ∧ s.wlock = none ∧
    (s.proc 0).state = .sleeping ∧ (s.proc 1).parent = some 0 ∧ (s.proc 1).state ≠ .zombie := by
  obtain ⟨tr, s, hr, -, hw, hpc, hsl, hp, -⟩ := fork_and_wait
  exact ⟨tr, s, hr, hw, hsl, hp, kwait_no_lost_wakeup (by decide) hr hw hpc hsl 1 hp⟩

/-- `kwait` tells the truth: it says that there is no child only if there is none, and the status
it collects is that of a child that has exited and left its processor, whose slot is free from
then on. -/
theorem kwait_truthful (hn : 0 < n) (hr : Run (Step n) .boot tr s) {ev : Event}
    (hs : Step n s (p, some ev) t) :
    (∀ q, ev = .alone q → q = p ∧ ∀ j, (s.proc j).parent ≠ some q) ∧
    ∀ a b status, ev = .reaped a b status → a = (s.proc p).pid ∧ ∃ i, (s.proc i).parent = some p ∧
      (s.proc i).state = .zombie ∧ s.pc i = .dead ∧ (s.proc i).pid = b ∧
      (s.proc i).xstate = status ∧ t.proc i = .freed := by
  obtain ⟨h, hf⟩ := life_run hn hr
  cases hs with
  | @code _ ins _ hc hready =>
    have hchild := hf.child p
    have hless := hf.childless p
    have hstate := (h.each p).state
    have hdead {i} := h.dead_of_zombie (p := p) (q := i)
    generalize s.pc p = c at hc hchild hless hstate hdead
    cases hc with
    | waitAlone i hi =>
      refine ⟨?_, nofun⟩
      rintro q ⟨⟩
      refine ⟨rfl, ?_⟩
      intro j hp
      have hlt := h.parent_lt hp
      exact hless j (show j < i by omega) hp
    | waitReap i hz =>
      refine ⟨nofun, ?_⟩
      rintro a b status ⟨⟩
      have hne : i ≠ p := by
        intro he
        rw [he, show (s.proc p).state = .running from hstate] at hz
        cases hz
      exact ⟨rfl, i, hchild i rfl, hz, hdead hne rfl hz, rfl, rfl, Function.update_self ..⟩
    | _ => exact ⟨nofun, nofun⟩

/-- The first process finds itself without children. -/
theorem kwait_truthful_init : ∃ tr s t, Run (Step 2) .boot tr s ∧
    Step 2 s (0, some (.alone 0)) t ∧ ∀ j, (s.proc j).parent ≠ some 0 := by
  have h1 := (init_runs 2).snoc (a := (0, none)) (.code (.wait (by decide) rfl) trivial)
  have h2 := h1.snoc (a := (0, none)) (.code .waitLock rfl)
  have h3 := h2.snoc (a := (0, none)) (.code (.waitSkip 0 false (by decide) nofun) trivial)
  have hr := h3.snoc (a := (0, none)) (.code (.waitSkip 1 false (by decide) nofun) trivial)
  have hc (s) : Code 2 s 0 (.waitScan 2 false) (.goto .waitDone) (some (.alone 0)) :=
    .waitAlone 2 (by decide)
  refine ⟨_, _, _, hr, .code (hc _) trivial, ?_⟩
  exact ((kwait_truthful (by decide) hr (.code (hc _) trivial)).1 0 rfl).2

end

end Xv6Labs.Life
