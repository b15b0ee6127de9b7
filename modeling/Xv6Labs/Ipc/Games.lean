import Xv6Labs.Kit.Numbers
import Xv6Labs.Ipc.Create

/-! Several maze games on one table of mailboxes. A master gets its two mailboxes by keys made
from its pid and hands their ids to its two processes, which use no others. -/
namespace Xv6Labs.Games
open Kit Mbox

/-- `int base = 10 + getpid()`. -/
def base (pid : Int) : Int := int32 (10 + pid)
def abKey (pid : Int) : Int := int32 (base pid + 100)
def baKey (pid : Int) : Int := int32 (base pid + 101)

/-- Who calls `mbox_create`: the master of a game, or a process outside all games. -/
inductive Creator where
  | master (pid : Int)
  | outside (p : Nat)
  deriving DecidableEq

def Creator.game : Creator → Option Int
  | .master pid => some pid
  | .outside _ => none

/-- The mailboxes, the calls of `mbox_create` under way, and for each master the ids that were
returned to it. -/
structure State where
  mbox : Mbox.State
  making : Creator → Option Creating
  ids : Int → List Int

def State.init : State := ⟨Mbox.State.init, fun _ => none, fun _ => []⟩

inductive Action where
  /-- `mbox_create(key)` is called. -/
  | create (c : Creator) (key : Int)
  /-- Its next load or store. -/
  | advance (c : Creator)
  /-- The other calls. -/
  | mbox (a : Mbox.Action)

/-- A step, with the game it belongs to (`none` for processes outside all games) and what it
shows. -/
structure Label where
  game : Option Int
  act : Action
  obs : Option Obs

/-- Both mailboxes were created; a master that got `-1` exits instead of starting its players. -/
def State.Started (s : State) (pid : Int) : Prop :=
  ∃ ab ba : Nat, s.ids pid = [(ab : Int), (ba : Int)]

/-- What the processes of a game do. The master creates its two mailboxes, one after the other,
and later closes them; the players, the processes `p` with `player p = some pid`, send and receive
on the ids they were given. Processes outside all games do what they like. -/
def State.Allowed (player : Nat → Option Int) (s : State) (w : Option Int) (a : Action) : Prop :=
  match a with
  | .create c key => w = c.game ∧ ∀ pid, c = .master pid → s.ids pid = [] ∧ key = abKey pid ∨
      (s.ids pid).length = 1 ∧ key = baKey pid
  | .advance c => w = c.game
  | .mbox (.create _) => False
  | .mbox (.send p id _) => w = player p ∧ ∀ pid, w = some pid → s.Started pid ∧ id ∈ s.ids pid
  | .mbox (.recv p id) => w = player p ∧ ∀ pid, w = some pid → s.Started pid ∧ id ∈ s.ids pid
  | .mbox (.close id) => ∀ pid, w = some pid → s.Started pid ∧ id ∈ s.ids pid
  | .mbox (.resume p) => w = player p

/-- A master keeps what `mbox_create` returns. -/
def State.give (s : State) : Creator → Made → Int → List Int
  | .master pid, .ret id => Function.update s.ids pid (s.ids pid ++ [id])
  | _, _ => s.ids

/-- The next load or store of the call `m` of `c`. -/
def State.advance (s : State) (c : Creator) (m : Creating) : Option Obs × State :=
  let made := createStep s.mbox.box m.key m.pc
  (made.1.obs, {
    mbox := { s.mbox with box := made.2 }
    making := Function.update s.making c (made.1.next m.key)
    ids := s.give c made.1 })

def State.exec (s : State) : Action → Option (Option Obs × State)
  | .create c key =>
    if s.making c = none then
      some (none, { s with making := Function.update s.making c (some ⟨key, .find 0⟩) })
    else none
  | .advance c => (s.making c).map (s.advance c)
  | .mbox a => (s.mbox.exec a).map fun r => (some r.1, { s with mbox := r.2 })

def Step (player : Nat → Option Int) (s : State) (l : Label) (t : State) : Prop :=
  s.Allowed player l.game l.act ∧ s.exec l.act = some (l.obs, t)

/-- An entry that a call marks is still free: no other call has marked it since it was tested. -/
def State.Unclaimed (s : State) (l : Label) : Prop :=
  ∀ c m, l.act = .advance c → s.making c = some m → m.pc.Free s.mbox.box

/-- In runs of `step` the game of `pid` never interferes with the game of `pid'`: it never gets an
id of the other, no step of it touches a mailbox of the other, and no mailbox that it has sent to
is one that the other has received from. -/
structure Apart (step : (Nat → Option Int) → State → Label → State → Prop) (pid pid' : Int) :
    Prop where
  ids : ∀ player tr s, Run (step player) State.init tr s →
    ∀ id : Nat, (id : Int) ∈ s.ids pid → (id : Int) ∉ s.ids pid'
  frame : ∀ player tr s l t, Run (step player) State.init tr s → step player s l t →
    l.game = some pid → ∀ id : Nat, (id : Int) ∈ s.ids pid' → t.mbox.box id = s.mbox.box id
  messages : ∀ player tr s, Run (step player) State.init tr s → ∀ a a' id id' m m',
    ⟨some pid, a, some (.sent id m)⟩ ∈ tr → ⟨some pid', a', some (.received id' m')⟩ ∈ tr →
      id ≠ id'

/-- The steps by which no two calls claim one entry. -/
def ClaimStep (player : Nat → Option Int) : State → Label → State → Prop :=
  Guarded (Step player) State.Unclaimed

/-! The keys. -/

section
variable {pid pid' : Int}

theorem keys_apart (h : 0 < pid ∧ pid ≤ intMax) (h' : 0 < pid' ∧ pid' ≤ intMax)
    (hne : pid ≠ pid') (hsucc : pid + 1 ≠ pid') (hsucc' : pid' + 1 ≠ pid) {key : Int}
    (hk : key = abKey pid ∨ key = baKey pid) : key ≠ abKey pid' ∧ key ≠ baKey pid' := by
  simp only [abKey, baKey, base, intMax, int32, Int.bmod] at *
  omega

theorem baKey_eq_abKey (pid : Int) : baKey pid = abKey (pid + 1) := by
  simp only [abKey, baKey, base, int32, Int.bmod_add_bmod]
  congr 1
  omega

end

/-! Which mailbox a step is about. -/

/-- The mailbox a call names, or that the sleeping call of `p` was made on. -/
def target (s : Mbox.State) : Mbox.Action → Option Int
  | .create _ => none
  | .send _ id _ => some id
  | .recv _ id => some id
  | .close id => some id
  | .resume p => (s.call p).map fun c => (c.id : Int)

/-- The mailbox that a step has changed. -/
def changed : Obs → Option Int
  | .sent id _ => some id
  | .received id _ => some id
  | .closed id _ => some id
  | _ => none

def actor : Mbox.Action → Option Nat
  | .send p _ _ => some p
  | .recv p _ => some p
  | .resume p => some p
  | _ => none

section
variable {s t : Mbox.State} {a : Mbox.Action} {o : Obs}

theorem changed_endSend {p id : Nat} {msg : Int} {r : Section Bool}
    (h : s.endSend p id msg r = (o, t)) {i : Int} (ho : changed o = some i) : (id : Int) = i := by
  unfold State.endSend at h
  split at h <;> cases h
  · cases ho
  · exact Option.some.inj ho
  · cases ho

theorem changed_endRecv {p id : Nat} {r : Section (Option Int)}
    (h : s.endRecv p id r = (o, t)) {i : Int} (ho : changed o = some i) : (id : Int) = i := by
  unfold State.endRecv at h
  split at h <;> cases h
  · cases ho
  · exact Option.some.inj ho
  · cases ho

theorem changed_target (h : s.exec a = some (o, t)) {i : Int} (ho : changed o = some i) :
    target s a = some i := by
  cases a with
  | create key =>
    cases h
    cases ho
  | close id =>
    cases h
    exact ho
  | send p id msg =>
    simp only [Mbox.State.exec] at h
    split at h
    · split at h
      · cases h
        cases ho
      · have := changed_endSend (Option.some.inj h) ho
        simp only [target]
        congr 1
        omega
    · cases h
  | recv p id =>
    simp only [Mbox.State.exec] at h
    split at h
    · split at h
      · cases h
        cases ho
      · have := changed_endRecv (Option.some.inj h) ho
        simp only [target]
        congr 1
        omega
    · cases h
  | resume p =>
    simp only [Mbox.State.exec] at h
    split at h
    · next id msg hcall =>
      simpa [target, hcall, Call.id] using changed_endSend (Option.some.inj h) ho
    · next id hcall =>
      simpa [target, hcall, Call.id] using changed_endRecv (Option.some.inj h) ho
    · cases h

/-- A call that sleeps after a step slept before it, or is the one that the step made. -/
theorem call_exec (h : s.exec a = some (o, t)) {q : Nat} {c : Call} (hq : t.call q = some c) :
    s.call q = some c ∨ actor a = some q ∧ target s a = some (c.id : Int) := by
  cases a with
  | create key =>
    cases h
    left
    cases mboxCreate_cases s key with
    | inl hfound =>
      obtain ⟨i, -, -, -, heq⟩ := hfound
      rwa [heq] at hq
    | inr hnew =>
      cases hnew.2 with
      | inl hclaim =>
        obtain ⟨i, -, -, heq⟩ := hclaim
        rwa [heq] at hq
      | inr hfull => rwa [hfull.2] at hq
  | close id =>
    cases h
    left
    unfold State.mboxClose at hq
    split at hq
    · exact hq
    · split at hq <;> exact hq
  | send p id msg =>
    simp only [Mbox.State.exec] at h
    split at h
    · split at h
      · cases h
        exact .inl hq
      · cases call_endSend (Option.some.inj h) hq with
        | inl hold => exact .inl hold
        | inr hnew =>
          refine .inr ⟨by rw [hnew.2.1]; rfl, ?_⟩
          simp only [target, hnew.2.2]
          congr 1
          omega
    · cases h
  | recv p id =>
    simp only [Mbox.State.exec] at h
    split at h
    · split at h
      · cases h
        exact .inl hq
      · cases call_endRecv (Option.some.inj h) hq with
        | inl hold => exact .inl hold
        | inr hnew =>
          refine .inr ⟨by rw [hnew.2.1]; rfl, ?_⟩
          simp only [target, hnew.2.2]
          congr 1
          omega
    · cases h
  | resume p =>
    simp only [Mbox.State.exec] at h
    split at h
    · next id msg hcall =>
      cases call_endSend (Option.some.inj h) hq with
      | inl hold => exact .inl hold
      | inr hnew =>
        refine .inr ⟨by rw [hnew.2.1]; rfl, ?_⟩
        rw [hnew.2.2]
        simp [target, hcall, Call.id]
    · next id hcall =>
      cases call_endRecv (Option.some.inj h) hq with
      | inl hold => exact .inl hold
      | inr hnew =>
        refine .inr ⟨by rw [hnew.2.1]; rfl, ?_⟩
        rw [hnew.2.2]
        simp [target, hcall, Call.id]
    · cases h

/-- An entry in use that a step does not change. -/
theorem effect_frame {box box' : Nat → Mailbox} (h : Effect box o box') {i : Nat}
    (hu : (box i).used = true) (ho : changed o ≠ some (i : Int)) : box' i = box i := by
  cases h with
  | slept | sendFailed | recvFailed | found | notClosed => rfl
  | created j key hj =>
    refine Function.update_of_ne ?_ _ _
    intro he
    rw [he, hj] at hu
    cases hu
  | sent j | received j | closed j =>
    refine Function.update_of_ne ?_ _ _
    intro he
    rw [he] at ho
    exact ho rfl

end

/-! Whole runs. -/

/-- What the runs keep in which no two calls claim one entry: the ids of a game are entries under
its keys, its players sleep on them only, and the game has sent and received through them only. -/
structure Kept (player : Nat → Option Int) (tr : List Label) (s : State) : Prop where
  calls : s.mbox.CallsOk
  claims : Claims s.making s.mbox.box
  keys : ∀ pid m, s.making (.master pid) = some m → m.key = abKey pid ∨ m.key = baKey pid
  ids : ∀ pid, 0 < pid ∧ pid ≤ intMax → ∀ id : Nat, (id : Int) ∈ s.ids pid → id < maxMbox ∧
    (s.mbox.box id).used = true ∧
      ((s.mbox.box id).key = abKey pid ∨ (s.mbox.box id).key = baKey pid)
  players : ∀ p pid c, player p = some pid → s.mbox.call p = some c → (c.id : Int) ∈ s.ids pid
  past : ∀ l ∈ tr, ∀ o pid id, l.obs = some o → l.game = some pid → changed o = some id →
    id ∈ s.ids pid

section
variable {player : Nat → Option Int} {s t : State} {l : Label} {tr : List Label} {pid : Int}

theorem key_ne_zero (h : 0 < pid ∧ pid ≤ intMax) {key : Int}
    (hk : key = abKey pid ∨ key = baKey pid) : key ≠ 0 := by
  simp only [abKey, baKey, base, intMax, int32, Int.bmod] at *
  omega

theorem kept_init : Kept player [] State.init where
  calls := by
    intro p c h
    cases h
  claims := by
    refine ⟨fun _ _ => rfl, ?_, ?_⟩
    · intro c m h
      cases h
    · intro c c' m m' i h
      cases h
  keys := by
    intro pid m h
    cases h
  ids := by
    intro pid _ id h
    cases h
  players := by
    intro p pid c _ h
    cases h
  past := by
    intro l h
    cases h

theorem mem_give {c : Creator} {r : Made} {id : Int} (h : id ∈ s.ids pid) :
    id ∈ s.give c r pid := by
  unfold State.give
  split
  · next q id' =>
    by_cases he : pid = q
    · rw [he, Function.update_self]
      exact List.mem_append_left _ (he ▸ h)
    · rwa [Function.update_of_ne he]
  · exact h

theorem of_mem_give {c : Creator} {r : Made} {id : Int} (h : id ∈ s.give c r pid) :
    id ∈ s.ids pid ∨ c = .master pid ∧ r = .ret id := by
  unfold State.give at h
  split at h
  · next q id' =>
    by_cases he : pid = q
    · subst he
      rw [Function.update_self, List.mem_append, List.mem_singleton] at h
      cases h with
      | inl hold => exact .inl hold
      | inr hnew => exact .inr ⟨rfl, by rw [hnew]⟩
    · rw [Function.update_of_ne he] at h
      exact .inl h
  · exact .inl h

/-- A game's steps are about its own mailboxes. -/
theorem Kept.target_mem (h : Kept player tr s) {a : Mbox.Action}
    (ha : s.Allowed player (some pid) (.mbox a)) {id : Int} (ht : target s.mbox a = some id) :
    id ∈ s.ids pid := by
  cases a with
  | create key => cases ht
  | send p i msg =>
    cases ht
    exact (ha.2 pid rfl).2
  | recv p i =>
    cases ht
    exact (ha.2 pid rfl).2
  | close i =>
    cases ht
    exact (ha pid rfl).2
  | resume p =>
    obtain ⟨c, hc, rfl⟩ := Option.map_eq_some_iff.mp ht
    exact h.players p pid c ha.symm hc

/-- A step that shows nothing adds nothing to the past. -/
theorem past_snoc {o : Option Obs} {w : Option Int} {a : Action}
    (h : ∀ l ∈ tr, ∀ o pid id, l.obs = some o → l.game = some pid → changed o = some id →
      id ∈ t.ids pid) (hnew : ∀ o' pid id, o = some o' → w = some pid → changed o' = some id →
      id ∈ t.ids pid) : ∀ l ∈ tr ++ [⟨w, a, o⟩], ∀ o pid id, l.obs = some o → l.game = some pid →
      changed o = some id → id ∈ t.ids pid := by
  intro l hl
  rw [List.mem_append, List.mem_singleton] at hl
  cases hl with
  | inl hpast => exact h l hpast
  | inr heq =>
    subst heq
    exact hnew

theorem kept_create (h : Kept player tr s) {c : Creator} {key : Int} {w : Option Int}
    {o : Option Obs} (ha : s.Allowed player w (.create c key))
    (hs : s.exec (.create c key) = some (o, t)) :
    Kept player (tr ++ [⟨w, .create c key, o⟩]) t := by
  simp only [State.exec] at hs
  split at hs
  · cases hs
    refine ⟨h.calls, ?_, ?_, h.ids, h.players, past_snoc h.past fun _ _ _ ho => by cases ho⟩
    · refine h.claims.load fun m' hm' => ?_
      cases hm'
      exact ⟨trivial, rfl⟩
    · intro pid m hm
      dsimp only at hm
      by_cases he : Creator.master pid = c
      · rw [← he, Function.update_self] at hm
        cases hm
        cases ha.2 pid he.symm with
        | inl hab => exact .inl hab.2
        | inr hba => exact .inr hba.2
      · rw [Function.update_of_ne he] at hm
        exact h.keys pid m hm
  · cases hs

theorem kept_advance (h : Kept player tr s) {c : Creator} {m : Creating} {w : Option Int}
    (hm : s.making c = some m) (hfree : m.pc.Free s.mbox.box) :
    Kept player (tr ++ [⟨w, .advance c, (s.advance c m).1⟩]) (s.advance c m).2 := by
  obtain ⟨hclaims, hnamed⟩ := h.claims.step hm hfree rfl
  have hold : ∀ pid id, id ∈ s.ids pid → id ∈ (s.advance c m).2.ids pid :=
    fun pid id hid => mem_give hid
  refine ⟨?_, hclaims, ?_, ?_, ?_, past_snoc ?_ ?_⟩
  · intro p c' hc
    exact createStep_used (h.calls p c' hc)
  · intro pid m' hm'
    have hmaking : (s.advance c m).2.making = Function.update s.making c
        ((createStep s.mbox.box m.key m.pc).1.next m.key) := rfl
    rw [hmaking] at hm'
    by_cases he : Creator.master pid = c
    · rw [he, Function.update_self] at hm'
      have hkey : m'.key = m.key := by
        unfold Made.next at hm'
        split at hm' <;> cases hm'
        rfl
      rw [hkey]
      exact h.keys pid m (he ▸ hm)
    · rw [Function.update_of_ne he] at hm'
      exact h.keys pid m' hm'
  · intro pid hpid id hid
    cases of_mem_give hid with
    | inl hmem =>
      obtain ⟨hlt, hu, hk⟩ := h.ids pid hpid id hmem
      obtain ⟨hu', hk', -⟩ := hnamed id hu (key_ne_zero hpid hk)
      exact ⟨hlt, hu', by rw [← hk'] at hk; exact hk⟩
    | inr hnew =>
      obtain ⟨rfl, hret⟩ := hnew
      obtain ⟨hlt, hu, hk⟩ := h.claims.ret hm rfl (Prod.ext hret rfl)
      refine ⟨hlt, hu, ?_⟩
      have := h.keys pid m hm
      rw [← hk] at this
      exact this
  · intro p pid c' hp hc
    exact hold pid _ (h.players p pid c' hp hc)
  · intro l hl o pid id ho hg hch
    exact hold pid id (h.past l hl o pid id ho hg hch)
  · intro o pid id ho _ hch
    unfold State.advance at ho
    cases hr : (createStep s.mbox.box m.key m.pc).1 with
    | «at» pc =>
      simp only [hr, Made.obs] at ho
      cases ho
    | ret r =>
      simp only [hr, Made.obs] at ho
      cases ho
      cases hch

theorem kept_mbox (h : Kept player tr s) {a : Mbox.Action} {w : Option Int} {o : Obs}
    {m : Mbox.State} (ha : s.Allowed player w (.mbox a)) (hs : s.mbox.exec a = some (o, m)) :
    Kept player (tr ++ [⟨w, .mbox a, some o⟩]) { s with mbox := m } := by
  have heff := step_effect h.calls ⟨a, hs⟩
  have hno : ∀ key, a ≠ .create key := by
    rintro key rfl
    exact ha
  have hsame := effect_sameKeys heff (exec_created hs hno)
  refine ⟨callsOk_step h.calls ⟨a, hs⟩, h.claims.keep hsame, h.keys, ?_, ?_, past_snoc h.past ?_⟩
  · intro pid hpid id hid
    rw [(hsame id).1, (hsame id).2]
    exact h.ids pid hpid id hid
  · intro p pid c hp hc
    cases call_exec hs hc with
    | inl hsleep => exact h.players p pid c hp hsleep
    | inr hnew =>
      have hg : w = some pid := by
        cases a with
        | create | close => cases hnew.1
        | send q | recv q =>
          cases hnew.1
          exact ha.1.trans hp
        | resume q =>
          cases hnew.1
          exact ha.trans hp
      subst hg
      exact h.target_mem ha hnew.2
  · intro o' pid id ho hg hch
    cases ho
    subst hg
    exact h.target_mem ha (changed_target hs hch)

theorem kept_step (h : Kept player tr s) (hs : ClaimStep player s l t) :
    Kept player (tr ++ [l]) t := by
  obtain ⟨⟨hall, hexec⟩, hun⟩ := hs
  obtain ⟨w, a, o⟩ := l
  cases a with
  | create c key => exact kept_create h hall hexec
  | advance c =>
    obtain ⟨m, hm, heq⟩ := Option.map_eq_some_iff.mp hexec
    obtain ⟨rfl, rfl⟩ := Prod.mk.inj heq
    exact kept_advance h hm (hun c m rfl hm)
  | mbox a =>
    obtain ⟨⟨o', m⟩, hm, heq⟩ := Option.map_eq_some_iff.mp hexec
    obtain ⟨rfl, rfl⟩ := Prod.mk.inj heq
    exact kept_mbox h hall hm

theorem kept_run (h : Run (ClaimStep player) State.init tr s) : Kept player tr s :=
  h.history kept_init fun _ _ _ _ _ hk hs => kept_step hk hs

/-- Games whose keys are apart do not meet. -/
theorem apart_of_keys {pid' : Int} (h : 0 < pid ∧ pid ≤ intMax) (h' : 0 < pid' ∧ pid' ≤ intMax)
    (hkeys : ∀ key, key = abKey pid ∨ key = baKey pid → key ≠ abKey pid' ∧ key ≠ baKey pid') :
    Apart ClaimStep pid pid' := by
  have hdisj : ∀ {player tr s}, Kept player tr s → ∀ id : Nat, (id : Int) ∈ s.ids pid →
      (id : Int) ∉ s.ids pid' := by
    intro player tr s hk id hid hid'
    obtain ⟨-, -, hkey⟩ := hk.ids pid h id hid
    obtain ⟨-, -, hkey'⟩ := hk.ids pid' h' id hid'
    have hne := hkeys _ hkey
    cases hkey' with
    | inl hab => exact hne.1 hab
    | inr hba => exact hne.2 hba
  refine ⟨fun player tr s hr => hdisj (kept_run hr), ?_, ?_⟩
  · intro player tr s l t hr hs hg id hid
    have hk := kept_run hr
    obtain ⟨-, hu, hkey⟩ := hk.ids pid' h' id hid
    obtain ⟨⟨hall, hexec⟩, hun⟩ := hs
    obtain ⟨w, a, o⟩ := l
    cases hg
    cases a with
    | create c key =>
      simp only [State.exec] at hexec
      split at hexec <;> cases hexec
      rfl
    | advance c =>
      obtain ⟨m, hm, heq⟩ := Option.map_eq_some_iff.mp hexec
      obtain ⟨rfl, rfl⟩ := Prod.mk.inj heq
      obtain ⟨-, hnamed⟩ := hk.claims.step hm (hun c m rfl hm) rfl
      refine (hnamed id hu (key_ne_zero h' hkey)).2.2 fun he => ?_
      have hc : c = .master pid := by
        cases c with
        | master q =>
          cases hall
          rfl
        | outside p => cases hall
      subst hc
      have hne := hkeys _ (hk.keys pid m hm)
      cases hkey with
      | inl hab => exact hne.1 (he.symm.trans hab)
      | inr hba => exact hne.2 (he.symm.trans hba)
    | mbox a =>
      obtain ⟨⟨o', m⟩, hm, heq⟩ := Option.map_eq_some_iff.mp hexec
      obtain ⟨rfl, rfl⟩ := Prod.mk.inj heq
      refine effect_frame (step_effect hk.calls ⟨a, hm⟩) hu fun ho => ?_
      exact hdisj hk id (hk.target_mem hall (changed_target hm ho)) hid
  · intro player tr s hr a a' id id' m m' hsent hrecv he
    have hk := kept_run hr
    refine hdisj hk id (hk.past _ hsent _ pid id rfl rfl rfl) ?_
    rw [he]
    exact hk.past _ hrecv _ pid' id' rfl rfl rfl

end

/-! Masters that do meet. -/

section
variable {player : Nat → Option Int} {s : State} {c : Creator} {key id : Int} {pc : CreatePc}
  {pid : Int}

theorem give_at (s : State) (c : Creator) (pc : CreatePc) : s.give c (.at pc) = s.ids := by
  cases c <;> rfl

theorem give_self (s : State) (pid id : Int) :
    s.give (.master pid) (.ret id) pid = s.ids pid ++ [id] := Function.update_self ..

variable (player) in
theorem advance_step {m : Creating} (hm : s.making c = some m) :
    Step player s ⟨c.game, .advance c, (s.advance c m).1⟩ (s.advance c m).2 :=
  ⟨rfl, by rw [State.exec, hm]; rfl⟩

variable (player) in
theorem advance_claimStep {m : Creating} (hm : s.making c = some m)
    (hfree : m.pc.Free s.mbox.box) :
    ClaimStep player s ⟨c.game, .advance c, (s.advance c m).1⟩ (s.advance c m).2 := by
  refine ⟨advance_step player hm, ?_⟩
  intro c' m' hc' hm'
  cases hc'
  cases hm.symm.trans hm'
  exact hfree

variable (player) in
/-- A call that runs alone claims the entry it has found. -/
theorem creates_run {box box' : Nat → Mailbox} (h : Creates key pc box id box') :
    ∀ s : State, s.mbox.box = box → s.making c = some ⟨key, pc⟩ →
      ∃ tr, Run (ClaimStep player) s tr
        ⟨{ s.mbox with box := box' }, Function.update s.making c none, s.give c (.ret id)⟩ := by
  induction h with
  | ret h hfree =>
    rintro s rfl hm
    have hstep := advance_claimStep player hm hfree
    simp only [State.advance, h] at hstep
    exact ⟨_, Run.single hstep⟩
  | @next pc pc' box box' box'' id h hfree hc ih =>
    rintro s rfl hm
    have hstep := advance_claimStep player hm hfree
    simp only [State.advance, h, give_at, Made.next] at hstep
    obtain ⟨tr, hr⟩ := ih ⟨{ s.mbox with box := box' }, Function.update s.making c
      (some ⟨key, pc'⟩), s.ids⟩ rfl (Function.update_self ..)
    rw [Function.update_idem] at hr
    exact ⟨_, (Run.single hstep).append hr⟩

/-- The master `pid` has called `mbox_create(key)` and nobody else was in it. -/
def State.created (s : State) (pid key : Int) : State :=
  ⟨(s.mbox.mboxCreate key).2, s.making, s.give (.master pid) (.ret (s.mbox.mboxCreate key).1)⟩

theorem created_run (hm : s.making (.master pid) = none)
    (hk : s.ids pid = [] ∧ key = abKey pid ∨ (s.ids pid).length = 1 ∧ key = baKey pid) :
    ∃ tr, Run (ClaimStep player) s tr (s.created pid key) := by
  let s1 : State :=
    { s with making := Function.update s.making (.master pid) (some ⟨key, .find 0⟩) }
  have hcall : ClaimStep player s ⟨some pid, .create (.master pid) key, none⟩ s1 := by
    refine ⟨⟨⟨rfl, ?_⟩, ?_⟩, ?_⟩
    · intro pid' hpid
      cases hpid
      exact hk
    · rw [State.exec, if_pos hm]
    · intro c m hc
      cases hc
  have hbox : (s.mbox.mboxCreate key).2 =
      { s.mbox with box := (s.mbox.mboxCreate key).2.box } :=
    congrArg (Mbox.State.mk _) (create_call s.mbox key)
  obtain ⟨tr, hr⟩ := creates_run player (creates_mboxCreate s.mbox key) s1 rfl
    (Function.update_self ..)
  refine ⟨_, (Run.single hcall).append (?_ : Run (ClaimStep player) s1 tr _)⟩
  have hmaking : Function.update s1.making (.master pid) none = s.making := by
    rw [Function.update_idem, ← hm, Function.update_eq_self]
  rw [State.created, hbox, ← hmaking]
  exact hr

theorem created_ids_self (s : State) (pid key : Int) :
    (s.created pid key).ids pid = s.ids pid ++ [(s.mbox.mboxCreate key).1] :=
  give_self ..

theorem created_ids_other {pid' : Int} (s : State) (key : Int) (h : pid ≠ pid') :
    (s.created pid' key).ids pid = s.ids pid :=
  Function.update_of_ne h ..

/-- The second mailbox of one master is the first one of the next. -/
theorem neighbours_clash (pid : Int) : ∃ player tr s, Run (ClaimStep player) State.init tr s ∧
    ∃ id : Nat, (id : Int) ∈ s.ids pid ∧ (id : Int) ∈ s.ids (pid + 1) := by
  let player : Nat → Option Int := fun _ => none
  let s1 := State.init.created pid (abKey pid)
  let s2 := s1.created pid (baKey pid)
  let s3 := s2.created (pid + 1) (abKey (pid + 1))
  have hne : pid ≠ pid + 1 := by omega
  have hids1 : s1.ids pid = [(Mbox.State.init.mboxCreate (abKey pid)).1] := created_ids_self ..
  have hids2 : s2.ids pid = s1.ids pid ++ [(s1.mbox.mboxCreate (baKey pid)).1] :=
    created_ids_self ..
  have hnone2 : s2.ids (pid + 1) = [] := by
    rw [created_ids_other _ _ hne.symm, created_ids_other _ _ hne.symm]
    rfl
  have hrun1 : ∃ tr, Run (ClaimStep player) State.init tr s1 := created_run rfl (.inl ⟨rfl, rfl⟩)
  have hrun2 : ∃ tr, Run (ClaimStep player) s1 tr s2 :=
    created_run rfl (.inr ⟨by rw [hids1]; rfl, rfl⟩)
  have hrun3 : ∃ tr, Run (ClaimStep player) s2 tr s3 := created_run rfl (.inl ⟨hnone2, rfl⟩)
  obtain ⟨tr1, hr1⟩ := hrun1
  obtain ⟨tr2, hr2⟩ := hrun2
  obtain ⟨tr3, hr3⟩ := hrun3
  have hm1 : Run ActStep Mbox.State.init [.create (abKey pid)] s1.mbox := Run.single ⟨_, rfl⟩
  have hm2 : Run ActStep Mbox.State.init [.create (abKey pid), .create (baKey pid)] s2.mbox :=
    hm1.snoc ⟨_, rfl⟩
  have hroom := (keyed_run hm1).exists_unused_iff.mpr (by simp [createdKeys, maxMbox])
  obtain ⟨id, hid⟩ := mboxCreate_room hroom (baKey pid)
  obtain ⟨hlt, hu, hk⟩ := mboxCreate_id hid
  have hsame : s2.mbox.mboxCreate (abKey (pid + 1)) = ((id : Int), s2.mbox) := by
    rw [← baKey_eq_abKey]
    exact (keyed_run hm2).mboxCreate_eq hlt hu hk
  refine ⟨player, _, s3, (hr1.append hr2).append hr3, id, ?_, ?_⟩
  · rw [created_ids_other _ _ hne, hids2, hid]
    exact List.mem_append_right _ (List.mem_singleton_self _)
  · rw [created_ids_self, hsame]
    exact List.mem_append_right _ (List.mem_singleton_self _)

/-! Two calls of `mbox_create` that both find the same entry free. -/

variable (player) in
/-- On an empty table a call comes to the first entry. -/
theorem mark_first (hfree : ∀ i < maxMbox, (s.mbox.box i).used = false) :
    ∀ n i, maxMbox ≤ i + n → s.making c = some ⟨key, .find i⟩ → ∃ tr, Run (Step player) s tr
      { s with making := Function.update s.making c (some ⟨key, .mark 0⟩) } := by
  intro n
  induction n generalizing s with
  | zero =>
    intro i hi hm
    have hend : createStep s.mbox.box key (.find i) = (.at (.scan 0), s.mbox.box) := if_pos hi
    have hscan : createStep s.mbox.box key (.scan 0) = (.at (.mark 0), s.mbox.box) := by
      rw [createStep, if_neg (by decide), hfree 0 (by decide), if_neg Bool.false_ne_true]
    have h1 := advance_step player hm
    simp only [State.advance, hend, give_at] at h1
    have h2 := advance_step player (s := (s.advance c ⟨key, .find i⟩).2) (c := c)
      (m := ⟨key, .scan 0⟩) (by
        simp only [State.advance, hend]
        exact Function.update_self ..)
    simp only [State.advance, hend, hscan, give_at, Made.next, Function.update_idem] at h2
    exact ⟨_, (Run.single h1).snoc h2⟩
  | succ n ih =>
    intro i hi hm
    by_cases hlt : i < maxMbox
    · have hpass : createStep s.mbox.box key (.find i) = (.at (.find (i+1)), s.mbox.box) := by
        rw [createStep, if_neg (Nat.not_le.mpr hlt), hfree i hlt, if_neg Bool.false_ne_true]
      have h1 := advance_step player hm
      simp only [State.advance, hpass, give_at, Made.next] at h1
      obtain ⟨tr, hr⟩ := ih (s := { s with
        making := Function.update s.making c (some ⟨key, .find (i+1)⟩) }) hfree (i+1) (by omega)
        (Function.update_self ..)
      simp only [Function.update_idem] at hr
      exact ⟨_, (Run.single h1).append hr⟩
    · exact ih (i := i) hfree (by omega) hm

variable (player) in
/-- From there it takes the entry, whoever else does. -/
theorem mark_run {i : Nat} (hm : s.making c = some ⟨key, .mark i⟩) :
    ∃ tr t, Run (Step player) s tr t ∧ t.making = Function.update s.making c none ∧
      t.ids = s.give c (.ret i) := by
  let s1 := (s.advance c ⟨key, .mark i⟩).2
  let s2 := (s1.advance c ⟨key, .name i⟩).2
  have hm1 : s1.making c = some ⟨key, .name i⟩ := Function.update_self ..
  have hm2 : s2.making c = some ⟨key, .reset i⟩ := Function.update_self ..
  have hr : Run (Step player) s _ (s2.advance c ⟨key, .reset i⟩).2 :=
    ((Run.single (advance_step player hm)).snoc (advance_step player hm1)).snoc
      (advance_step player hm2)
  refine ⟨_, _, hr, ?_, ?_⟩
  · change Function.update (Function.update (Function.update s.making c _) c _) c none = _
    rw [Function.update_idem, Function.update_idem]
  · have hids1 : s1.ids = s.ids := give_at s c _
    have hids2 : s2.ids = s.ids := (give_at s1 c _).trans hids1
    change s2.give c (.ret i) = s.give c (.ret i)
    cases c with
    | master pid =>
      unfold State.give
      rw [hids2]
    | outside p => exact hids2

/-- Whatever their pids, two masters can get one mailbox: neither call holds a lock between its
test of `used` and its store. -/
theorem claims_clash {pid pid' : Int} (hne : pid ≠ pid') : ∃ player tr s,
    Run (Step player) State.init tr s ∧
      ∃ id : Nat, (id : Int) ∈ s.ids pid ∧ (id : Int) ∈ s.ids pid' := by
  let player : Nat → Option Int := fun _ => none
  let call (s : State) (pid : Int) : State := { s with
    making := Function.update s.making (.master pid) (some ⟨abKey pid, .find 0⟩) }
  have hcall : ∀ s pid, s.making (.master pid) = none → s.ids pid = [] →
      Step player s ⟨some pid, .create (.master pid) (abKey pid), none⟩ (call s pid) := by
    intro s pid hm hids
    refine ⟨⟨rfl, ?_⟩, by rw [State.exec, if_pos hm]⟩
    intro q hq
    cases hq
    exact .inl ⟨hids, rfl⟩
  have hfree : ∀ i < maxMbox, (State.init.mbox.box i).used = false := fun i _ => rfl
  have hcne : Creator.master pid ≠ .master pid' := fun he => hne (Creator.master.inj he)
  -- Both calls come to the first entry and see that it is free.
  let s1 : State := { State.init with
    making := Function.update State.init.making (.master pid) (some ⟨abKey pid, .mark 0⟩) }
  obtain ⟨tr1, hr1⟩ := mark_first player (s := call State.init pid) hfree maxMbox 0
    (by omega) (Function.update_self ..)
  simp only [call, Function.update_idem] at hr1
  have hm1 : s1.making (.master pid') = none := Function.update_of_ne hcne.symm ..
  let s2 : State := { s1 with
    making := Function.update s1.making (.master pid') (some ⟨abKey pid', .mark 0⟩) }
  obtain ⟨tr2, hr2⟩ := mark_first player (s := call s1 pid') hfree maxMbox 0
    (by omega) (Function.update_self ..)
  simp only [call, Function.update_idem] at hr2
  have hrun2 : Run (Step player) State.init _ s2 :=
    ((Run.single (hcall State.init pid rfl rfl)).append hr1).append
      ((Run.single (hcall s1 pid' hm1 rfl)).append hr2)
  -- Both take it.
  have hm2 : s2.making (.master pid) = some ⟨abKey pid, .mark 0⟩ := by
    change Function.update s1.making _ _ _ = _
    rw [Function.update_of_ne hcne]
    exact Function.update_self ..
  obtain ⟨tr3, s3, hr3, hmaking3, hids3⟩ := mark_run player hm2
  have hm3 : s3.making (.master pid') = some ⟨abKey pid', .mark 0⟩ := by
    rw [hmaking3, Function.update_of_ne hcne.symm]
    exact Function.update_self ..
  obtain ⟨tr4, s4, hr4, -, hids4⟩ := mark_run player hm3
  refine ⟨player, _, s4, (hrun2.append hr3).append hr4, 0, ?_, ?_⟩
  · rw [hids4]
    apply mem_give
    rw [hids3, give_self]
    exact List.mem_append_right _ (List.mem_singleton_self _)
  · rw [hids4, give_self]
    exact List.mem_append_right _ (List.mem_singleton_self _)

end

/-- As long as no two calls of `mbox_create` claim one entry, two games never interfere exactly if
the pids of their masters are not neighbours. When two calls may, no two games are safe. -/
theorem games_apart_iff {pid pid' : Int} (h : 0 < pid ∧ pid ≤ intMax)
    (h' : 0 < pid' ∧ pid' ≤ intMax) (hne : pid ≠ pid') :
    ((Apart ClaimStep pid pid' ∧ Apart ClaimStep pid' pid) ↔
      pid + 1 ≠ pid' ∧ pid' + 1 ≠ pid) ∧ ¬ Apart Step pid pid' := by
  constructor
  · constructor
    · intro hap
      refine ⟨?_, ?_⟩
      · intro hsucc
        obtain ⟨player, tr, s, hr, id, hid, hid'⟩ := neighbours_clash pid
        rw [hsucc] at hid'
        exact hap.1.ids player tr s hr id hid hid'
      · intro hsucc
        obtain ⟨player, tr, s, hr, id, hid, hid'⟩ := neighbours_clash pid'
        rw [hsucc] at hid'
        exact hap.2.ids player tr s hr id hid hid'
    · intro hfar
      exact ⟨apart_of_keys h h' fun _ hk => keys_apart h h' hne hfar.1 hfar.2 hk,
        apart_of_keys h' h fun _ hk => keys_apart h' h hne.symm hfar.2 hfar.1 hk⟩
  · intro hap
    obtain ⟨player, tr, s, hr, id, hid, hid'⟩ := claims_clash hne
    exact hap.ids player tr s hr id hid hid'

theorem games_apart_three_six : Apart ClaimStep 3 6 ∧ Apart ClaimStep 6 3 :=
  (games_apart_iff (by decide) (by decide) (by decide)).1.mpr ⟨by decide, by decide⟩

/-- The masters with pids 3 and 4 share a mailbox, even when each call of `mbox_create` runs
alone. -/
theorem games_three_four_clash : ¬ (Apart Step 3 4 ∧ Apart Step 4 3) := by
  intro hap
  obtain ⟨player, tr, s, hr, id, hid, hid'⟩ := neighbours_clash 3
  exact hap.1.ids player tr s (hr.mono fun _ _ _ hs => hs.1) id hid hid'

end Xv6Labs.Games
