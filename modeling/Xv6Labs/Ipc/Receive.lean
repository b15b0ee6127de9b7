import Xv6Labs.Ipc.Mbox

/-! `sys_mbox_recv` over the mailboxes (`kernel/sysproc.c`): the message leaves the mailbox inside
`mbox_recv`, under the lock, and reaches the caller in a later step, the `copyout`. -/
namespace Xv6Labs.Mbox
open Kit

/-- The system: the mailbox table, and for each process its page table, the address that its
receive was given, and the mailbox and the value of a receive that has left `mbox_recv` and has
not yet called `copyout`. -/
structure Sys (PT : Type) where
  kern : State
  pagetable : Nat → PT
  addr : Nat → UInt64
  got : Nat → Option (Nat × Int)

/-- What a step shows of the receives: a message taken by `mbox_recv`, the return of the system
call with 0 or with -1, or any other step. -/
inductive Event where
  | took (p id : Nat) (v : Int)
  | delivered (p id : Nat) (v : Int)
  | failed (p : Nat) (id : Int)
  | other (o : Obs)
  | remapped (p : Nat)

inductive SysAction (PT : Type) where
  | create (key : Int)
  | send (p : Nat) (id msg : Int)
  | recv (p : Nat) (id : Int) (addr : UInt64)
  | close (id : Int)
  | resume (p : Nat)
  | copyout (p : Nat)
  | remap (p : Nat) (pt : PT)

namespace Sys
variable {PT : Type}

/-- The end of a section of `mbox_send` or `mbox_recv` that process `p` runs. -/
def endCall (s : Sys PT) (p : Nat) : Obs × State → Event × Sys PT
  | (.received id v, k) =>
    (.took p id v, { s with kern := k, got := Function.update s.got p (some (id, v)) })
  | (.recvFailed id, k) => (.failed p id, { s with kern := k })
  | (o, k) => (.other o, { s with kern := k })

/-- One step. `copyout` is the page-table code's, and fails with `none`. The page table of a
process may change at any time. -/
def exec (copyout : PT → UInt64 → Int → Option PT) (s : Sys PT) :
    SysAction PT → Option (Event × Sys PT)
  | .create key => (s.kern.exec (.create key)).map fun r => (.other r.1, { s with kern := r.2 })
  | .close id => (s.kern.exec (.close id)).map fun r => (.other r.1, { s with kern := r.2 })
  | .send p id msg =>
    if s.got p = none then (s.kern.exec (.send p id msg)).map (s.endCall p) else none
  | .recv p id addr =>
    if s.got p = none then
      (s.kern.exec (.recv p id)).map
        ({ s with addr := Function.update s.addr p addr }.endCall p)
    else none
  | .resume p => (s.kern.exec (.resume p)).map (s.endCall p)
  | .copyout p =>
    match s.got p with
    | none => none
    | some (id, v) =>
      match copyout (s.pagetable p) (s.addr p) v with
      | some pt => some (.delivered p id v,
          { s with
            pagetable := Function.update s.pagetable p pt
            got := Function.update s.got p none })
      | none => some (.failed p id, { s with got := Function.update s.got p none })
  | .remap p pt => some (.remapped p, { s with pagetable := Function.update s.pagetable p pt })

def Step (copyout : PT → UInt64 → Int → Option PT) (s : Sys PT) (e : Event) (t : Sys PT) : Prop :=
  ∃ a, s.exec copyout a = some (e, t)

end Sys

/-- The part of an event that the mailboxes see. -/
def Event.obs : Event → Option Obs
  | .took _ id v => some (.received id v)
  | .other o => some o
  | _ => none

/-- The messages that receives of process `p` have taken out of mailboxes, in order. -/
def taken (p : Nat) (tr : List Event) : List (Nat × Int) :=
  tr.filterMap fun e => match e with
    | .took q id v => if q = p then some (id, v) else none
    | _ => none

/-- The messages that receives of process `p` have returned with 0, in order. -/
def deliveredTo (p : Nat) (tr : List Event) : List (Nat × Int) :=
  tr.filterMap fun e => match e with
    | .delivered q id v => if q = p then some (id, v) else none
    | _ => none

/-- The messages that the receive in which process `p` is has taken so far. -/
def inHand (p : Nat) (tr : List Event) : List (Nat × Int) :=
  tr.foldl (fun acc e => match e with
    | .took q id v => if q = p then acc ++ [(id, v)] else acc
    | .delivered q _ _ => if q = p then [] else acc
    | .failed q _ => if q = p then [] else acc
    | _ => acc) []

/-- No process is in a mailbox call. The mailboxes may hold anything. -/
structure Sys.Quiet {PT : Type} (s : Sys PT) : Prop where
  call : ∀ p, s.kern.call p = none
  got : ∀ p, s.got p = none
  ok : ∀ id, (s.kern.box id).Ok
  fresh : ∀ id, (s.kern.box id).used = false →
    (s.kern.box id).count = 0 ∧ (s.kern.box id).closed = false

/-- Receives that fail consume nothing: what is pending is what was pending and sent, in order,
less what receives took; what a process took it was given, but for the message it is about to
copy out; and a receive that returned -1 had taken nothing. -/
structure ConsumesNothing {PT : Type} (s₀ : Sys PT) (tr : List Event) (s : Sys PT) : Prop where
  queue : ∀ id, (s₀.kern.box id).pending ++ sentTo id (tr.filterMap Event.obs) =
    receivedFrom id (tr.filterMap Event.obs) ++ (s.kern.box id).pending
  given : ∀ p, taken p tr = deliveredTo p tr ++ (s.got p).toList
  failed : ∀ tr₁ p id tr₂, tr = tr₁ ++ .failed p id :: tr₂ → inHand p tr₁ = []

/-- If the step is the `copyout` of a receive, then the address takes the value. -/
def CopiesOut {PT : Type} (copyout : PT → UInt64 → Int → Option PT) (s : Sys PT) : Event → Prop
  | .failed p _ | .delivered p _ _ => ∀ id v, s.got p = some (id, v) →
      (copyout (s.pagetable p) (s.addr p) v).isSome
  | _ => True

/-! What a step can do. -/

def Action.proc : Action → Option Nat
  | .send p _ _ | .recv p _ | .resume p => some p
  | .create _ | .close _ => none

theorem endSend_call_ne (s : State) {p q : Nat} (hq : q ≠ p) (id : Nat) (msg : Int)
    (r : Section Bool) : (s.endSend p id msg r).2.call q = s.call q := by
  cases r with
  | sleep => simp [State.endSend, State.setCall, hq]
  | ret a b => cases a <;> simp [State.endSend, State.setCall, State.setBox, hq]

theorem endRecv_call_ne (s : State) {p q : Nat} (hq : q ≠ p) (id : Nat)
    (r : Section (Option Int)) : (s.endRecv p id r).2.call q = s.call q := by
  cases r with
  | sleep => simp [State.endRecv, State.setCall, hq]
  | ret a b => cases a <;> simp [State.endRecv, State.setCall, State.setBox, hq]

theorem close_call (s : State) (id : Int) : (s.mboxClose id).2.call = s.call := by
  unfold State.mboxClose
  split
  · rfl
  · split <;> rfl

/-- Only the process that acts enters or leaves a call. -/
theorem exec_call_ne {s t : State} {a : Action} {o : Obs} {q : Nat} (h : s.exec a = some (o, t))
    (hq : a.proc ≠ some q) : t.call q = s.call q := by
  cases a with
  | create key =>
    cases h
    rw [create_call]
  | close id =>
    cases h
    rw [close_call]
  | send p id msg =>
    have hp : q ≠ p := fun he => hq (by rw [he]; rfl)
    simp only [State.exec] at h
    split at h
    · split at h
      · cases h
        rfl
      · have he := congrArg Prod.snd (Option.some.inj h)
        simp only at he
        rw [← he, endSend_call_ne s hp]
    · cases h
  | recv p id =>
    have hp : q ≠ p := fun he => hq (by rw [he]; rfl)
    simp only [State.exec] at h
    split at h
    · split at h
      · cases h
        rfl
      · have he := congrArg Prod.snd (Option.some.inj h)
        simp only at he
        rw [← he, endRecv_call_ne s hp]
    · cases h
  | resume p =>
    have hp : q ≠ p := fun he => hq (by rw [he]; rfl)
    simp only [State.exec] at h
    split at h
    · have he := congrArg Prod.snd (Option.some.inj h)
      simp only at he
      rw [← he, endSend_call_ne s hp]
    · have he := congrArg Prod.snd (Option.some.inj h)
      simp only at he
      rw [← he, endRecv_call_ne s hp]
    · cases h

theorem endSend_not_received {s t : State} {p id i : Nat} {msg v : Int} {r : Section Bool} :
    s.endSend p id msg r ≠ (.received i v, t) := by
  intro h
  cases r with
  | sleep => cases h
  | ret a b => cases a <;> cases h

theorem endRecv_received {s t : State} {p id i : Nat} {v : Int} {r : Section (Option Int)}
    (h : s.endRecv p id r = (.received i v, t)) : t.call p = none := by
  cases r with
  | sleep => cases h
  | ret a b =>
    cases a with
    | none => cases h
    | some w =>
      cases h
      simp [State.setCall]

/-- A process that has been handed a message is out of `mbox_recv`. -/
theorem exec_received {s t : State} {a : Action} {p i : Nat} {v : Int}
    (h : s.exec a = some (.received i v, t)) (ha : a.proc = some p) : t.call p = none := by
  cases a with
  | create key => cases ha
  | close id => cases ha
  | send q id msg =>
    simp only [State.exec] at h
    split at h
    · split at h
      · cases h
      · exact absurd (Option.some.inj h) endSend_not_received
    · cases h
  | recv q id =>
    cases ha
    simp only [State.exec] at h
    split at h
    · split at h
      · cases h
      · exact endRecv_received (Option.some.inj h)
    · cases h
  | resume q =>
    cases ha
    simp only [State.exec] at h
    split at h
    · exact absurd (Option.some.inj h) endSend_not_received
    · exact endRecv_received (Option.some.inj h)
    · cases h

/-- A process that is about to copy a message out is in no mailbox call. -/
def Sys.Idle {PT : Type} (s : Sys PT) : Prop := ∀ p, s.got p ≠ none → s.kern.call p = none

/-- The steps, as changes of the mailboxes and of the messages on their way out. -/
inductive Change {PT : Type} (copyout : PT → UInt64 → Int → Option PT) (s : Sys PT) :
    Event → Sys PT → Prop
  | other {t : Sys PT} (o : Obs) (hs : Step s.kern o t.kern) (hid : t.Idle)
      (hr : ∀ id v, o ≠ .received id v) (hg : t.got = s.got) : Change copyout s (.other o) t
  | refused {t : Sys PT} (p : Nat) (id : Int) (hs : Step s.kern (.recvFailed id) t.kern)
      (hid : t.Idle) (hp : s.got p = none) (hg : t.got = s.got) : Change copyout s (.failed p id) t
  | took {t : Sys PT} (p id : Nat) (v : Int) (hs : Step s.kern (.received id v) t.kern)
      (hid : t.Idle) (hp : s.got p = none) (hg : t.got = Function.update s.got p (some (id, v))) :
      Change copyout s (.took p id v) t
  | delivered {t : Sys PT} (p id : Nat) (v : Int) (hp : s.got p = some (id, v))
      (hc : (copyout (s.pagetable p) (s.addr p) v).isSome) (hk : t.kern = s.kern)
      (hg : t.got = Function.update s.got p none) : Change copyout s (.delivered p id v) t
  | lost {t : Sys PT} (p id : Nat) (v : Int) (hp : s.got p = some (id, v))
      (hc : copyout (s.pagetable p) (s.addr p) v = none) (hk : t.kern = s.kern)
      (hg : t.got = Function.update s.got p none) : Change copyout s (.failed p id) t
  | remapped {t : Sys PT} (p : Nat) (hk : t.kern = s.kern) (hg : t.got = s.got) :
      Change copyout s (.remapped p) t

section
variable {PT : Type} {copyout : PT → UInt64 → Int → Option PT} {s t : Sys PT} {e : Event}

theorem idle_exec (hid : s.Idle) {a : Action} {o : Obs} {k : State} {p : Nat}
    (h : s.kern.exec a = some (o, k)) (hp : ∀ q, a.proc = some q → q = p) (hg : s.got p = none)
    (q : Nat) (hq : s.got q ≠ none) : k.call q = none := by
  rw [exec_call_ne h ?_]
  · exact hid q hq
  · intro ha
    rw [hp q ha] at hq
    exact hq hg

/-- A section of a mailbox call, run by a process that is not copying out. -/
theorem change_endCall (hid : s.Idle) {a : Action} {o : Obs} {k : State} {p : Nat}
    {r : Sys PT} (h : s.kern.exec a = some (o, k)) (ha : a.proc = some p) (hg : s.got p = none)
    (hr : r.got = s.got) (ht : r.endCall p (o, k) = (e, t)) : Change copyout s e t := by
  have hidle := idle_exec hid h (fun q hq => by rw [ha] at hq; exact (Option.some.inj hq).symm) hg
  unfold Sys.endCall at ht
  split at ht
  · next id v k' heq =>
    cases heq
    cases ht
    refine .took p id v ⟨a, h⟩ ?_ hg (by rw [hr])
    intro q hq
    by_cases hqp : q = p
    · subst hqp
      exact exec_received h ha
    · rw [hr] at hq
      exact hidle q (by simpa [hqp] using hq)
  · next id k' heq =>
    cases heq
    cases ht
    exact .refused p id ⟨a, h⟩ (fun q hq => hidle q (by rwa [← hr])) hg hr
  · next o' k' hne hne' heq =>
    cases heq
    cases ht
    refine .other o ⟨a, h⟩ (fun q hq => hidle q (by rwa [← hr])) ?_ hr
    intro id v ho
    exact hne id v ho

/-- A call on the table of mailboxes, by no process in particular. -/
theorem change_table (hid : s.Idle) {a : Action} {o : Obs} (h : s.kern.exec a = some (o, t.kern))
    (ha : a.proc = none) (hg : t.got = s.got) : Change copyout s (.other o) t := by
  refine .other o ⟨a, h⟩ ?_ ?_ hg
  · intro q hq
    rw [hg] at hq
    rw [exec_call_ne h (by simp [ha])]
    exact hid q hq
  · rintro id v rfl
    cases a with
    | create key => cases h
    | close id => cases h
    | send p id msg => cases ha
    | recv p id => cases ha
    | resume p => cases ha

theorem change_step (hid : s.Idle) (h : s.Step copyout e t) : Change copyout s e t := by
  obtain ⟨a, h⟩ := h
  cases a with
  | create key =>
    simp only [Sys.exec] at h
    obtain ⟨⟨o, k⟩, hk, ht⟩ := Option.map_eq_some_iff.mp h
    cases ht
    exact change_table hid hk rfl rfl
  | close id =>
    simp only [Sys.exec] at h
    obtain ⟨⟨o, k⟩, hk, ht⟩ := Option.map_eq_some_iff.mp h
    cases ht
    exact change_table hid hk rfl rfl
  | send p id msg =>
    simp only [Sys.exec] at h
    split at h
    · next hg =>
      obtain ⟨⟨o, k⟩, hk, ht⟩ := Option.map_eq_some_iff.mp h
      exact change_endCall hid hk rfl hg rfl ht
    · cases h
  | recv p id addr =>
    simp only [Sys.exec] at h
    split at h
    · next hg =>
      obtain ⟨⟨o, k⟩, hk, ht⟩ := Option.map_eq_some_iff.mp h
      refine change_endCall hid hk rfl hg ?_ ht
      rfl
    · cases h
  | resume p =>
    simp only [Sys.exec] at h
    obtain ⟨⟨o, k⟩, hk, ht⟩ := Option.map_eq_some_iff.mp h
    have hg : s.got p = none := by
      by_contra hg
      simp [State.exec, hid p hg] at hk
    exact change_endCall hid hk rfl hg rfl ht
  | copyout p =>
    simp only [Sys.exec] at h
    split at h
    · cases h
    · next id v hg =>
      split at h
      · next pt hc =>
        cases h
        exact .delivered p id v hg (by rw [hc]; rfl) rfl rfl
      · next hc =>
        cases h
        exact .lost p id v hg hc rfl rfl
  | remap p pt =>
    cases h
    exact .remapped p rfl rfl

/-! Whole runs. -/

/-- The mailboxes, and the accounting of one mailbox's messages. -/
structure Kept (s₀ : Sys PT) (tr : List Event) (s : Sys PT) : Prop where
  calls : s.kern.CallsOk
  ok : ∀ id, (s.kern.box id).Ok
  fresh : ∀ id, (s.kern.box id).used = false →
    (s.kern.box id).count = 0 ∧ (s.kern.box id).closed = false
  queue : ∀ id, (s₀.kern.box id).pending ++ sentTo id (tr.filterMap Event.obs) =
    receivedFrom id (tr.filterMap Event.obs) ++ (s.kern.box id).pending

variable {s₀ : Sys PT} {tr : List Event}

theorem kept_kern (h : Kept s₀ tr s) {o : Obs} (hs : Step s.kern o t.kern)
    (ho : [e].filterMap Event.obs = [o]) : Kept s₀ (tr ++ [e]) t := by
  have he := step_effect h.calls hs
  refine ⟨callsOk_step h.calls hs, ?_, ?_, ?_⟩
  · intro id
    exact (box_effect he id (h.ok id) (h.fresh id)).1
  · intro id
    exact (box_effect he id (h.ok id) (h.fresh id)).2.1
  · intro id
    have hq := (box_effect he id (h.ok id) (h.fresh id)).2.2
    rw [List.filterMap_append, ho, sentTo_snoc, receivedFrom_snoc, ← List.append_assoc, h.queue id,
      List.append_assoc, hq, List.append_assoc]

theorem kept_same (h : Kept s₀ tr s) (hk : t.kern = s.kern) (ho : [e].filterMap Event.obs = []) :
    Kept s₀ (tr ++ [e]) t := by
  refine ⟨by rw [hk]; exact h.calls, by rw [hk]; exact h.ok, by rw [hk]; exact h.fresh, ?_⟩
  rw [List.filterMap_append, ho, List.append_nil, hk]
  exact h.queue

/-- A receive that is refused leaves no trace on the mailboxes. -/
theorem kept_refused (h : Kept s₀ tr s) {p : Nat} {id : Int}
    (hs : Step s.kern (.recvFailed id) t.kern) : Kept s₀ (tr ++ [.failed p id]) t := by
  have he := step_effect h.calls hs
  have hbox : t.kern.box = s.kern.box := by
    generalize t.kern.box = box' at he
    cases he
    rfl
  refine ⟨callsOk_step h.calls hs, by rw [hbox]; exact h.ok, by rw [hbox]; exact h.fresh, ?_⟩
  have hobs : [Event.failed p id].filterMap Event.obs = [] := rfl
  rw [List.filterMap_append, hobs, List.append_nil, hbox]
  exact h.queue

structure Tracked (s₀ : Sys PT) (tr : List Event) (s : Sys PT) : Prop where
  kept : Kept s₀ tr s
  idle : s.Idle
  hand : ∀ p, inHand p tr = (s.got p).toList
  given : ∀ p, taken p tr = deliveredTo p tr ++ (s.got p).toList
  failed : ∀ tr₁ p id tr₂, tr = tr₁ ++ .failed p id :: tr₂ → inHand p tr₁ = []

theorem tracked_init (h : s₀.Quiet) : Tracked s₀ [] s₀ where
  kept := by
    refine ⟨?_, h.ok, h.fresh, ?_⟩
    · intro p c hc
      rw [h.call p] at hc
      cases hc
    · intro id
      simp [sentTo, receivedFrom]
  idle := fun p _ => h.call p
  hand := by
    intro p
    simp [inHand, h.got p]
  given := by
    intro p
    simp [taken, deliveredTo, h.got p]
  failed := by
    intro tr₁ p id tr₂ he
    simp at he

theorem idle_drop (h : s.Idle) (hk : t.kern = s.kern) {p : Nat}
    (hg : t.got = Function.update s.got p none) : t.Idle := by
  intro q hq
  rw [hk]
  by_cases hqp : q = p
  · subst hqp
    simp [hg] at hq
  · exact h q (by simpa [hg, hqp] using hq)

/-- The last event of a longer history is the new one. -/
theorem failed_snoc (h : ∀ tr₁ p id tr₂, tr = tr₁ ++ .failed p id :: tr₂ → inHand p tr₁ = [])
    (he : ∀ p id, e = .failed p id → inHand p tr = []) (tr₁ : List Event) (p : Nat) (id : Int)
    (tr₂ : List Event) (htr : tr ++ [e] = tr₁ ++ .failed p id :: tr₂) : inHand p tr₁ = [] := by
  cases List.eq_nil_or_concat tr₂ with
  | inl hnil =>
    subst hnil
    obtain ⟨rfl, hlast⟩ := List.append_inj' htr rfl
    exact he p id (List.singleton_inj.mp hlast)
  | inr hcons =>
    obtain ⟨us, u, rfl⟩ := hcons
    rw [List.concat_eq_append, ← List.cons_append, ← List.append_assoc] at htr
    exact h tr₁ p id us (List.append_inj' htr rfl).1

/-- What the next event adds to the books of one process. -/
theorem tracked_books (h : Tracked s₀ tr s) (hc : Change copyout s e t)
    (hok : CopiesOut copyout s e) (p : Nat) :
    inHand p (tr ++ [e]) = (t.got p).toList ∧
      taken p (tr ++ [e]) = deliveredTo p (tr ++ [e]) ++ (t.got p).toList := by
  have hh := h.hand p
  have hg := h.given p
  simp only [inHand, taken, deliveredTo, List.foldl_append, List.foldl_cons, List.foldl_nil,
    List.filterMap_append, List.filterMap_cons, List.filterMap_nil] at hh hg ⊢
  cases hc with
  | other o hs hid hr hgot | remapped q hk hgot =>
    simp only [hgot, List.append_nil]
    exact ⟨hh, hg⟩
  | refused q id hs hid hq hgot =>
    by_cases hqp : q = p
    · subst hqp
      simp only [hgot, hq, Option.toList_none, List.append_nil, if_true] at hg ⊢
      exact ⟨trivial, hg⟩
    · simp only [hqp, if_false, hgot, List.append_nil]
      exact ⟨hh, hg⟩
  | took q id v hs hid hq hgot =>
    by_cases hqp : q = p
    · subst hqp
      simp only [hq, Option.toList_none, List.append_nil] at hh hg
      simp [hgot, hh, hg]
    · simp only [hqp, if_false, hgot, List.append_nil, Function.update_of_ne (Ne.symm hqp)]
      exact ⟨hh, hg⟩
  | delivered q id v hq hcopy hk hgot =>
    by_cases hqp : q = p
    · subst hqp
      simp only [hq, Option.toList_some] at hg
      simp [hgot, hg]
    · simp only [hqp, if_false, hgot, List.append_nil, Function.update_of_ne (Ne.symm hqp)]
      exact ⟨hh, hg⟩
  | lost q id v hq hcopy hk hgot =>
    have hsome := hok id v hq
    rw [hcopy] at hsome
    cases hsome

theorem tracked_step (h : Tracked s₀ tr s) (hs : s.Step copyout e t)
    (hok : CopiesOut copyout s e) : Tracked s₀ (tr ++ [e]) t := by
  have hc := change_step h.idle hs
  have hbooks := tracked_books h hc hok
  have hkept : Kept s₀ (tr ++ [e]) t ∧ t.Idle ∧ ∀ p id, e = .failed p id → inHand p tr = [] := by
    cases hc with
    | other o hk hid hr hgot => exact ⟨kept_kern h.kept hk rfl, hid, by simp⟩
    | took q id v hk hid hq hgot => exact ⟨kept_kern h.kept hk rfl, hid, by simp⟩
    | remapped q hk hgot =>
      refine ⟨kept_same h.kept hk rfl, ?_, by simp⟩
      intro q hq
      rw [hk]
      exact h.idle q (by rwa [← hgot])
    | refused q id hk hid hq hgot =>
      refine ⟨kept_refused h.kept hk, hid, ?_⟩
      intro p i he
      cases he
      rw [h.hand, hq]
      rfl
    | delivered q id v hq hcopy hk hgot =>
      exact ⟨kept_same h.kept hk rfl, idle_drop h.idle hk hgot, by simp⟩
    | lost q id v hq hcopy hk hgot =>
      have hsome := hok id v hq
      rw [hcopy] at hsome
      cases hsome
  exact ⟨hkept.1, hkept.2.1, fun p => (hbooks p).1, fun p => (hbooks p).2,
    failed_snoc h.failed hkept.2.2⟩

/-- Failed receives consume nothing in every run in which each `copyout` has an address that takes
the value, whatever the mailboxes hold at the start; and at the end of such a run the next step
keeps this exactly if it is not a `copyout` to an address that does not. -/
theorem failed_receive_consumes_nothing_iff (copyout : PT → UInt64 → Int → Option PT)
    (h₀ : s₀.Quiet) (h : Run (Guarded (Sys.Step copyout) (CopiesOut copyout)) s₀ tr s) :
    ConsumesNothing s₀ tr s ∧ ∀ e t, s.Step copyout e t →
      (ConsumesNothing s₀ (tr ++ [e]) t ↔ CopiesOut copyout s e) := by
  refine h.guarded_history_iff (I := Tracked s₀) (tracked_init h₀) ?_ ?_ ?_
  · intro tr s e t ht hs hok
    exact tracked_step ht hs hok
  · intro tr s ht
    exact ⟨ht.kept.queue, ht.given, ht.failed⟩
  · intro tr s e t ht hs hbad hq
    cases change_step ht.idle hs with
    | other | took | remapped => exact hbad trivial
    | delivered q id v hgot hcopy =>
      refine hbad fun i w hw => ?_
      rw [hgot] at hw
      cases hw
      exact hcopy
    | refused q id hk hid hnone =>
      refine hbad fun i w hw => ?_
      rw [hnone] at hw
      cases hw
    | lost q id v hgot =>
      have hnil := hq.failed tr q id [] rfl
      rw [ht.hand, hgot] at hnil
      cases hnil

end

/-- A `copyout` for an address space that is mapped from zero up to a size. -/
def copyoutBelow (sz : Nat) (addr : UInt64) (_ : Int) : Option Nat :=
  if addr.toNat + 4 ≤ sz then some sz else none

/-- After boot, with four pages for every process. -/
def bootSys : Sys Nat := ⟨State.init, fun _ => 16384, fun _ => 0, fun _ => none⟩

theorem bootSys_quiet : bootSys.Quiet where
  call := fun _ => rfl
  got := fun _ => rfl
  ok := delivered_init.ok
  fresh := delivered_init.fresh

/-- A message is sent, taken and copied to a mapped address. -/
theorem failed_receive_consumes_nothing_iff_mapped :
    ∃ s, ConsumesNothing bootSys
      [.other (.created 0), .other (.sent 0 42), .took 2 0 42, .delivered 2 0 42] s := by
  have hr : Run (Sys.Step copyoutBelow) bootSys
      [.other (.created 0), .other (.sent 0 42), .took 2 0 42] _ :=
    ((Run.single ⟨.create 7, rfl⟩).snoc ⟨.send 1 0 42, rfl⟩).snoc ⟨.recv 2 0 4096, rfl⟩
  have hcopies : ∀ e ∈ [Event.other (.created 0), .other (.sent 0 42), .took 2 0 42],
      ∀ s, CopiesOut copyoutBelow s e := by
    intro e he s
    simp only [List.mem_cons, List.not_mem_nil, or_false] at he
    rcases he with rfl | rfl | rfl <;> trivial
  have hstep := (failed_receive_consumes_nothing_iff copyoutBelow bootSys_quiet
    (hr.guard hcopies)).2 (.delivered 2 0 42) _ ⟨.copyout 2, rfl⟩
  refine ⟨_, hstep.mpr ?_⟩
  intro id v hgot
  cases hgot
  rfl

/-- The message is taken, the address is beyond every mapping, the receive returns -1: the
mailbox was holding the message before the call and is empty after it. -/
theorem receive_to_bad_address_loses_message :
    ∃ s t, Run (Sys.Step copyoutBelow) bootSys [.other (.created 0), .other (.sent 0 42)] s ∧
      Run (Sys.Step copyoutBelow) s [.took 2 0 42, .failed 2 0] t ∧
      (s.kern.box 0).pending = [42] ∧ (t.kern.box 0).pending = [] ∧
      ¬ ConsumesNothing bootSys
        ([.other (.created 0), .other (.sent 0 42)] ++ [.took 2 0 42, .failed 2 0]) t := by
  have hs : Run (Sys.Step copyoutBelow) bootSys [.other (.created 0), .other (.sent 0 42)] _ :=
    (Run.single ⟨.create 7, rfl⟩).snoc ⟨.send 1 0 42, rfl⟩
  refine ⟨_, _, hs, (Run.single ⟨.recv 2 0 274877906944, rfl⟩).snoc ⟨.copyout 2, rfl⟩, by decide,
    by decide, ?_⟩
  intro h
  have hgiven := h.given 2
  revert hgiven
  decide

end Xv6Labs.Mbox
