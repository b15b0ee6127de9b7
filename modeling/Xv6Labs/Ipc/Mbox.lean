import Xv6Labs.Kit.Slots
import Xv6Labs.Kit.Run

/-! The mailboxes of Task 3.1 (`kernel/mbox.c`). Each section of code that runs with
the mailbox lock held is one step; a caller that sleeps on a mailbox may resume at any
later step, in any order. -/
namespace Xv6Labs.Mbox
open Kit

def maxMbox : Nat := 64
def mboxCap : Nat := 16

/-- `struct mailbox`; `buf` is only ever indexed below `mboxCap`. -/
structure Mailbox where
  used : Bool
  key : Int
  buf : Nat → Int
  head : Int
  tail : Int
  count : Int
  closed : Bool

/-- What `mboxinit` leaves in every entry. -/
def Mailbox.init : Mailbox := ⟨false, 0, fun _ => 0, 0, 0, 0, false⟩

/-- The end of a lock-held section: back to sleep, or out of the call. -/
inductive Section (α : Type) where
  | sleep
  | ret (a : α) (b : Mailbox)

/-- `b->buf[b->tail] = msg` and the two counter updates after it. -/
def Mailbox.put (b : Mailbox) (msg : Int) : Mailbox :=
  { b with
    buf := Function.update b.buf b.tail.toNat msg
    tail := (b.tail + 1) % mboxCap
    count := b.count + 1 }

/-- The counter updates after `int v = b->buf[b->head]`. -/
def Mailbox.take (b : Mailbox) : Mailbox :=
  { b with head := (b.head + 1) % mboxCap, count := b.count - 1 }

/-- `mbox_send` from the `while` test on, with the lock held. -/
def Mailbox.sendLoop (b : Mailbox) (msg : Int) : Section Bool :=
  if b.count = mboxCap ∧ b.closed = false then .sleep
  else if b.closed then .ret false b
  else .ret true (b.put msg)

/-- `mbox_send` from `acquire` to the first release of the lock. -/
def Mailbox.mboxSend (b : Mailbox) (msg : Int) : Section Bool :=
  if b.used = false ∨ b.closed then .ret false b else b.sendLoop msg

/-- `mbox_recv` from the `while` test on, with the lock held. -/
def Mailbox.recvLoop (b : Mailbox) : Section (Option Int) :=
  if b.count = 0 ∧ b.closed = false then .sleep
  else if b.count = 0 ∧ b.closed then .ret none b
  else .ret (some (b.buf b.head.toNat)) b.take

def Mailbox.mboxRecv (b : Mailbox) : Section (Option Int) :=
  if b.used = false then .ret none b else b.recvLoop

/-- A call that sleeps inside the `while` of `mbox_send` or `mbox_recv`. -/
inductive Call where
  | send (id : Nat) (msg : Int)
  | recv (id : Nat)
  deriving DecidableEq

def Call.id : Call → Nat
  | .send id _ => id
  | .recv id => id

/-- The mailbox table, and for each process the mailbox call it sleeps in. -/
structure State where
  box : Nat → Mailbox
  call : Nat → Option Call

def State.init : State := ⟨fun _ => .init, fun _ => none⟩

def State.setBox (s : State) (id : Nat) (b : Mailbox) : State :=
  { s with box := Function.update s.box id b }

def State.setCall (s : State) (p : Nat) (c : Option Call) : State :=
  { s with call := Function.update s.call p c }

def State.findIdByKey (s : State) (key : Int) : Option Nat :=
  (List.range maxMbox).find? fun i => (s.box i).used && (s.box i).key = key

def State.findUnused (s : State) : Option Nat :=
  (List.range maxMbox).find? fun i => !(s.box i).used

/-- `mbox_create`: the id, or -1 when the table is full. -/
def State.mboxCreate (s : State) (key : Int) : Int × State :=
  match s.findIdByKey key with
  | some id => (id, s)
  | none =>
    match s.findUnused with
    | some i => (i, s.setBox i { s.box i with
        used := true, key := key, head := 0, tail := 0, count := 0, closed := false })
    | none => (-1, s)

/-- `mbox_close`: 0, or -1 for a bad id or an unused entry. -/
def State.mboxClose (s : State) (id : Int) : Int × State :=
  if id < 0 ∨ maxMbox ≤ id then (-1, s)
  else if (s.box id.toNat).used = false then (-1, s)
  else (0, s.setBox id.toNat { s.box id.toNat with closed := true })

/-- What one step lets an observer see. -/
inductive Obs where
  | created (ret : Int)
  | sent (id : Nat) (msg : Int)
  | sendFailed (id : Int)
  | received (id : Nat) (msg : Int)
  | recvFailed (id : Int)
  | closed (id : Int) (ret : Int)
  | slept (p : Nat)

def State.endSend (s : State) (p id : Nat) (msg : Int) : Section Bool → Obs × State
  | .sleep => (.slept p, s.setCall p (some (.send id msg)))
  | .ret true b => (.sent id msg, (s.setBox id b).setCall p none)
  | .ret false b => (.sendFailed id, (s.setBox id b).setCall p none)

def State.endRecv (s : State) (p id : Nat) : Section (Option Int) → Obs × State
  | .sleep => (.slept p, s.setCall p (some (.recv id)))
  | .ret (some v) b => (.received id v, (s.setBox id b).setCall p none)
  | .ret none b => (.recvFailed id, (s.setBox id b).setCall p none)

inductive Action where
  | create (key : Int)
  | send (p : Nat) (id : Int) (msg : Int)
  | recv (p : Nat) (id : Int)
  | close (id : Int)
  | resume (p : Nat)

/-- One step. A process inside a mailbox call does not start another one, and only a
process inside a call can resume. -/
def State.exec (s : State) : Action → Option (Obs × State)
  | .create key => some (.created (s.mboxCreate key).1, (s.mboxCreate key).2)
  | .send p id msg =>
    if s.call p = none then
      if id < 0 ∨ maxMbox ≤ id then some (.sendFailed id, s)
      else some (s.endSend p id.toNat msg ((s.box id.toNat).mboxSend msg))
    else none
  | .recv p id =>
    if s.call p = none then
      if id < 0 ∨ maxMbox ≤ id then some (.recvFailed id, s)
      else some (s.endRecv p id.toNat (s.box id.toNat).mboxRecv)
    else none
  | .close id => some (.closed id (s.mboxClose id).1, (s.mboxClose id).2)
  | .resume p =>
    match s.call p with
    | some (.send id msg) => some (s.endSend p id msg ((s.box id).sendLoop msg))
    | some (.recv id) => some (s.endRecv p id (s.box id).recvLoop)
    | none => none

def Step (s : State) (o : Obs) (t : State) : Prop := ∃ a, s.exec a = some (o, t)

/-- The messages accepted by mailbox `id`, in order. -/
def sentTo (id : Nat) (tr : List Obs) : List Int :=
  tr.filterMap fun o => match o with
    | .sent i m => if i = id then some m else none
    | _ => none

/-- The messages delivered by mailbox `id`, in order. -/
def receivedFrom (id : Nat) (tr : List Obs) : List Int :=
  tr.filterMap fun o => match o with
    | .received i m => if i = id then some m else none
    | _ => none

/-- The `count` entries from `head`. -/
def Mailbox.pending (b : Mailbox) : List Int :=
  Ring.contents mboxCap b.buf b.head.toNat b.count.toNat

/-! One mailbox. -/

structure Mailbox.Ok (b : Mailbox) : Prop where
  head : 0 ≤ b.head ∧ b.head < mboxCap
  count : 0 ≤ b.count ∧ b.count ≤ mboxCap
  tail : b.tail = (b.head + b.count) % mboxCap

theorem ok_put {b : Mailbox} (h : b.Ok) (hc : b.count ≠ mboxCap) (msg : Int) : (b.put msg).Ok := by
  obtain ⟨hh, hn, ht⟩ := h
  refine ⟨hh, ?_, ?_⟩
  · simp only [Mailbox.put]
    omega
  · simp only [Mailbox.put, ht, Int.emod_add_emod, add_assoc]

theorem ok_take {b : Mailbox} (h : b.Ok) (hc : b.count ≠ 0) : b.take.Ok := by
  obtain ⟨hh, hn, ht⟩ := h
  refine ⟨?_, ?_, ?_⟩
  · simp only [Mailbox.take, mboxCap]
    omega
  · simp only [Mailbox.take]
    omega
  · simp only [Mailbox.take, ht, Int.emod_add_emod]
    congr 1
    omega

theorem pending_put {b : Mailbox} (h : b.Ok) (hc : b.count ≠ mboxCap) (msg : Int) :
    (b.put msg).pending = b.pending ++ [msg] := by
  obtain ⟨hh, hn, ht⟩ := h
  have htail : b.tail.toNat = (b.head.toNat + b.count.toNat) % mboxCap := by
    rw [ht]
    unfold mboxCap at *
    omega
  have hcount : (b.count + 1).toNat = b.count.toNat + 1 := by omega
  simp only [Mailbox.pending, Mailbox.put, htail, hcount]
  exact Ring.contents_push b.buf b.head.toNat msg (by omega)

theorem pending_take {b : Mailbox} (h : b.Ok) (hc : b.count ≠ 0) :
    b.pending = b.buf b.head.toNat :: b.take.pending := by
  obtain ⟨hh, hn, ht⟩ := h
  have hcount : b.count.toNat = (b.count - 1).toNat + 1 := by omega
  have hhead : ((b.head + 1) % mboxCap).toNat = (b.head.toNat + 1) % mboxCap := by
    unfold mboxCap at *
    omega
  simp only [Mailbox.pending, Mailbox.take, hhead]
  rw [hcount]
  exact Ring.contents_pop b.buf _ (by omega)

theorem pending_empty {b : Mailbox} (hc : b.count = 0) : b.pending = [] := by
  simp [Mailbox.pending, hc, Ring.contents]

theorem sendLoop_ret_true {b b' : Mailbox} {msg : Int} (h : b.sendLoop msg = .ret true b') :
    b.count ≠ mboxCap ∧ b.closed = false ∧ b' = b.put msg := by
  unfold Mailbox.sendLoop at h
  split at h
  · cases h
  · next hs =>
    split at h
    · cases h
    · next hcl =>
      have hcl' : b.closed = false := by simpa using hcl
      cases h
      exact ⟨fun hc => hs ⟨hc, hcl'⟩, hcl', rfl⟩

theorem sendLoop_ret_false {b b' : Mailbox} {msg : Int} (h : b.sendLoop msg = .ret false b') :
    b' = b := by
  unfold Mailbox.sendLoop at h
  split at h
  · cases h
  · split at h <;> cases h
    rfl

theorem recvLoop_ret_some {b b' : Mailbox} {v : Int} (h : b.recvLoop = .ret (some v) b') :
    b.count ≠ 0 ∧ v = b.buf b.head.toNat ∧ b' = b.take := by
  unfold Mailbox.recvLoop at h
  split at h
  · cases h
  · next hs =>
    split at h
    · cases h
    · next hcl =>
      cases h
      refine ⟨fun hc => ?_, rfl, rfl⟩
      cases hb : b.closed with
      | false => exact hs ⟨hc, hb⟩
      | true => exact hcl ⟨hc, hb⟩

theorem recvLoop_ret_none {b b' : Mailbox} (h : b.recvLoop = .ret none b') :
    b' = b ∧ b.count = 0 ∧ b.closed = true := by
  unfold Mailbox.recvLoop at h
  split at h
  · cases h
  · split at h
    · next hcl =>
      cases h
      exact ⟨rfl, hcl.1, hcl.2⟩
    · cases h

/-! What a step can do to the table. -/

theorem create_call (s : State) (key : Int) : (s.mboxCreate key).2.call = s.call := by
  unfold State.mboxCreate
  split
  · rfl
  · split <;> rfl

/-- Every change of the table, with what the step shows. -/
inductive Effect (box : Nat → Mailbox) : Obs → (Nat → Mailbox) → Prop
  | slept (p : Nat) : Effect box (.slept p) box
  | sendFailed (id : Int) : Effect box (.sendFailed id) box
  | recvFailed (id : Int) (h : ∀ i : Nat, id = i → i < maxMbox → (box i).used →
      (box i).count = 0 ∧ (box i).closed) : Effect box (.recvFailed id) box
  | found (ret : Int) : Effect box (.created ret) box
  | created (i : Nat) (key : Int) (h : (box i).used = false) :
      Effect box (.created i) (Function.update box i { box i with
        used := true, key := key, head := 0, tail := 0, count := 0, closed := false })
  | sent (id : Nat) (msg : Int) (hu : (box id).used = true) (hc : (box id).count ≠ mboxCap)
      (ho : (box id).closed = false) :
      Effect box (.sent id msg) (Function.update box id ((box id).put msg))
  | received (id : Nat) (hu : (box id).used = true) (hc : (box id).count ≠ 0) :
      Effect box (.received id ((box id).buf (box id).head.toNat))
        (Function.update box id (box id).take)
  | notClosed (id : Int) : Effect box (.closed id (-1)) box
  | closed (id : Nat) (hu : (box id).used = true) :
      Effect box (.closed id 0) (Function.update box id { box id with closed := true })

/-- A sleeping call is on a mailbox that has been created. -/
def State.CallsOk (s : State) : Prop :=
  ∀ p c, s.call p = some c → (s.box c.id).used = true

theorem effect_endSend {s t : State} {p id : Nat} {msg : Int} {o : Obs}
    (hu : (s.box id).used = true) (h : s.endSend p id msg ((s.box id).sendLoop msg) = (o, t)) :
    Effect s.box o t.box := by
  cases hl : (s.box id).sendLoop msg with
  | sleep =>
    rw [hl] at h
    cases h
    exact .slept p
  | ret r b =>
    rw [hl] at h
    cases r with
    | true =>
      obtain ⟨hc, ho, hb⟩ := sendLoop_ret_true hl
      cases h
      subst hb
      exact .sent id msg hu hc ho
    | false =>
      have hb := sendLoop_ret_false hl
      cases h
      subst hb
      have he : Effect s.box (.sendFailed id) s.box := .sendFailed id
      simpa [State.setCall, State.setBox] using he

theorem effect_endRecv {s t : State} {p id : Nat} {o : Obs}
    (hu : (s.box id).used = true) (h : s.endRecv p id (s.box id).recvLoop = (o, t)) :
    Effect s.box o t.box := by
  cases hl : (s.box id).recvLoop with
  | sleep =>
    rw [hl] at h
    cases h
    exact .slept p
  | ret r b =>
    rw [hl] at h
    cases r with
    | some v =>
      obtain ⟨hc, hv, hb⟩ := recvLoop_ret_some hl
      cases h
      subst hb
      subst hv
      exact .received id hu hc
    | none =>
      obtain ⟨hb, hc, hcl⟩ := recvLoop_ret_none hl
      cases h
      subst hb
      have he : Effect s.box (.recvFailed id) s.box := by
        refine .recvFailed id fun i hi _ _ => ?_
        have : id = i := by exact_mod_cast hi
        subst this
        exact ⟨hc, hcl⟩
      simpa [State.setCall, State.setBox] using he

theorem effect_create (s : State) (key : Int) :
    Effect s.box (.created (s.mboxCreate key).1) (s.mboxCreate key).2.box := by
  unfold State.mboxCreate
  cases s.findIdByKey key with
  | some id => exact .found id
  | none =>
    cases hf : s.findUnused with
    | none => exact .found (-1)
    | some i =>
      have hu := List.find?_some hf
      exact .created i key (by simpa using hu)

theorem effect_close (s : State) (id : Int) :
    Effect s.box (.closed id (s.mboxClose id).1) (s.mboxClose id).2.box := by
  unfold State.mboxClose
  split
  · exact .notClosed id
  · next hid =>
    split
    · exact .notClosed id
    · next hu =>
      have hn : (id.toNat : Int) = id := by omega
      have he : Effect s.box (.closed id.toNat 0) (s.setBox id.toNat
          { s.box id.toNat with closed := true }).box := .closed _ (by simpa using hu)
      rw [hn] at he
      exact he

theorem step_effect {s t : State} {o : Obs} (hc : s.CallsOk) (h : Step s o t) :
    Effect s.box o t.box := by
  obtain ⟨a, h⟩ := h
  cases a with
  | create key =>
    cases h
    exact effect_create s key
  | close id =>
    cases h
    exact effect_close s id
  | send p id msg =>
    simp only [State.exec] at h
    split at h
    · split at h
      · cases h
        exact .sendFailed id
      · have he := Option.some.inj h
        unfold Mailbox.mboxSend at he
        split at he
        · cases he
          have hf : Effect s.box (.sendFailed id.toNat) s.box := .sendFailed _
          simpa [State.setCall, State.setBox] using hf
        · next hu =>
          exact effect_endSend (by simp at hu; exact hu.1) he
    · cases h
  | recv p id =>
    simp only [State.exec] at h
    split at h
    · split at h
      · next hid =>
        cases h
        refine .recvFailed id fun i hi hlt _ => ?_
        omega
      · have he := Option.some.inj h
        unfold Mailbox.mboxRecv at he
        split at he
        · next hu =>
          cases he
          have hf : Effect s.box (.recvFailed id.toNat) s.box := by
            refine .recvFailed _ fun i hi _ hused => ?_
            have hit : id.toNat = i := by exact_mod_cast hi
            rw [← hit, hu] at hused
            cases hused
          simpa [State.setCall, State.setBox] using hf
        · next hu => exact effect_endRecv (by simpa using hu) he
    · cases h
  | resume p =>
    simp only [State.exec] at h
    split at h
    · next id msg hcall => exact effect_endSend (hc p _ hcall) (Option.some.inj h)
    · next id hcall => exact effect_endRecv (hc p _ hcall) (Option.some.inj h)
    · cases h

theorem effect_used {box box' : Nat → Mailbox} {o : Obs} (h : Effect box o box') (id : Nat)
    (hu : (box id).used = true) : (box' id).used = true := by
  cases h with
  | slept | sendFailed | recvFailed | found | notClosed => exact hu
  | created i key hi => by_cases he : id = i <;> simp [he, hu]
  | sent i msg hi | received i hi | closed i hi =>
    by_cases he : id = i
    · subst he; simpa [Mailbox.put, Mailbox.take] using hi
    · simpa [he] using hu

theorem effect_closed {box box' : Nat → Mailbox} {o : Obs} (h : Effect box o box') (id : Nat)
    (hu : (box id).used = true) (hcl : (box id).closed = true) : (box' id).closed = true := by
  cases h with
  | slept | sendFailed | recvFailed | found | notClosed => exact hcl
  | created i key hi =>
    by_cases he : id = i
    · subst he
      rw [hu] at hi
      cases hi
    · simpa [he] using hcl
  | sent i msg hi | received i hi | closed i hi =>
    by_cases he : id = i
    · subst he; simp [Mailbox.put, Mailbox.take, hcl]
    · simpa [he] using hcl

theorem call_endSend {s t : State} {p id : Nat} {msg : Int} {o : Obs} {r : Section Bool}
    (h : s.endSend p id msg r = (o, t)) {q : Nat} {c : Call} (hq : t.call q = some c) :
    s.call q = some c ∨ (r = .sleep ∧ q = p ∧ c.id = id) := by
  have hother (hqp : q ≠ p) : s.call q = some c := by
    cases r with
    | sleep => cases h; simpa [State.setCall, hqp] using hq
    | ret a b => cases a <;> cases h <;> simpa [State.setCall, State.setBox, hqp] using hq
  by_cases hqp : q = p
  · subst hqp
    cases r with
    | sleep =>
      cases h
      right
      have : Call.send id msg = c := by simpa [State.setCall] using hq
      subst this
      exact ⟨rfl, rfl, rfl⟩
    | ret a b => cases a <;> cases h <;> simp [State.setCall] at hq
  · exact .inl (hother hqp)

theorem call_endRecv {s t : State} {p id : Nat} {o : Obs} {r : Section (Option Int)}
    (h : s.endRecv p id r = (o, t)) {q : Nat} {c : Call} (hq : t.call q = some c) :
    s.call q = some c ∨ (r = .sleep ∧ q = p ∧ c.id = id) := by
  have hother (hqp : q ≠ p) : s.call q = some c := by
    cases r with
    | sleep => cases h; simpa [State.setCall, hqp] using hq
    | ret a b => cases a <;> cases h <;> simpa [State.setCall, State.setBox, hqp] using hq
  by_cases hqp : q = p
  · subst hqp
    cases r with
    | sleep =>
      cases h
      right
      have : Call.recv id = c := by simpa [State.setCall] using hq
      subst this
      exact ⟨rfl, rfl, rfl⟩
    | ret a b => cases a <;> cases h <;> simp [State.setCall] at hq
  · exact .inl (hother hqp)

/-- A call falls asleep only on a mailbox in use. -/
theorem call_step {s t : State} {o : Obs} (hc : s.CallsOk) (h : Step s o t) {q : Nat} {c : Call}
    (hq : t.call q = some c) : (s.box c.id).used = true := by
  obtain ⟨a, h⟩ := h
  cases a with
  | create key =>
    cases h
    have : s.call q = some c := by
      unfold State.mboxCreate at hq
      split at hq
      · exact hq
      · split at hq <;> exact hq
    exact hc q c this
  | close id =>
    cases h
    have : s.call q = some c := by
      unfold State.mboxClose at hq
      split at hq
      · exact hq
      · split at hq <;> exact hq
    exact hc q c this
  | send p id msg =>
    simp only [State.exec] at h
    split at h
    · split at h
      · cases h
        exact hc q c hq
      · cases call_endSend (Option.some.inj h) hq with
        | inl hold => exact hc q c hold
        | inr hnew =>
          unfold Mailbox.mboxSend at hnew
          split at hnew
          · cases hnew.1
          · next hu =>
            rw [hnew.2.2]
            simp at hu
            exact hu.1
    · cases h
  | recv p id =>
    simp only [State.exec] at h
    split at h
    · split at h
      · cases h
        exact hc q c hq
      · cases call_endRecv (Option.some.inj h) hq with
        | inl hold => exact hc q c hold
        | inr hnew =>
          unfold Mailbox.mboxRecv at hnew
          split at hnew
          · cases hnew.1
          · next hu =>
            rw [hnew.2.2]
            simpa using hu
    · cases h
  | resume p =>
    simp only [State.exec] at h
    split at h
    · next id msg hcall =>
      cases call_endSend (Option.some.inj h) hq with
      | inl hold => exact hc q c hold
      | inr hnew => rw [hnew.2.2]; exact hc p _ hcall
    · next id hcall =>
      cases call_endRecv (Option.some.inj h) hq with
      | inl hold => exact hc q c hold
      | inr hnew => rw [hnew.2.2]; exact hc p _ hcall
    · cases h

theorem callsOk_step {s t : State} {o : Obs} (hc : s.CallsOk) (h : Step s o t) : t.CallsOk :=
  fun _ c hq => effect_used (step_effect hc h) c.id (call_step hc h hq)

/-! Whole runs. -/

/-- What every run keeps: the counters, and the queue of accepted messages that have
not been delivered yet. -/
structure Delivered (tr : List Obs) (s : State) : Prop where
  calls : s.CallsOk
  ok : ∀ id, (s.box id).Ok
  fresh : ∀ id, (s.box id).used = false → (s.box id).count = 0 ∧ (s.box id).closed = false
  queue : ∀ id, sentTo id tr = receivedFrom id tr ++ (s.box id).pending

theorem sentTo_snoc (id : Nat) (tr : List Obs) (o : Obs) :
    sentTo id (tr ++ [o]) = sentTo id tr ++ sentTo id [o] := by simp [sentTo]

theorem receivedFrom_snoc (id : Nat) (tr : List Obs) (o : Obs) :
    receivedFrom id (tr ++ [o]) = receivedFrom id tr ++ receivedFrom id [o] := by
  simp [receivedFrom]

theorem delivered_init : Delivered [] State.init where
  calls := by intro p c h; cases h
  ok := by intro id; exact (⟨by decide, by decide, by decide⟩ : Mailbox.init.Ok)
  fresh := by intro id _; exact ⟨rfl, rfl⟩
  queue := by intro id; rfl

/-- One change of one mailbox keeps its own part of the invariant. -/
theorem box_effect {box box' : Nat → Mailbox} {o : Obs} (h : Effect box o box') (id : Nat)
    (hok : (box id).Ok)
    (hfr : (box id).used = false → (box id).count = 0 ∧ (box id).closed = false) :
    (box' id).Ok ∧ ((box' id).used = false → (box' id).count = 0 ∧ (box' id).closed = false) ∧
      (box id).pending ++ sentTo id [o] = receivedFrom id [o] ++ (box' id).pending := by
  cases h with
  | slept | sendFailed | recvFailed | found | notClosed =>
    exact ⟨hok, hfr, by simp [sentTo, receivedFrom]⟩
  | created i key hi =>
    by_cases he : id = i
    · subst he
      have hp := pending_empty (hfr hi).1
      refine ⟨⟨?_, ?_, ?_⟩, ?_, ?_⟩
      · simp [mboxCap]
      · simp [mboxCap]
      · simp
      · simp
      · rw [hp, pending_empty (by simp)]
        simp [sentTo, receivedFrom]
    · simp only [ne_eq, he, not_false_eq_true, Function.update_of_ne]
      exact ⟨hok, hfr, by simp [sentTo, receivedFrom]⟩
  | sent i msg hu hc ho =>
    by_cases he : id = i
    · subst he
      simp only [Function.update_self]
      refine ⟨ok_put hok hc msg, ?_, ?_⟩
      · intro hf
        simp [Mailbox.put, hu] at hf
      · rw [pending_put hok hc]
        simp [sentTo, receivedFrom]
    · simp only [ne_eq, he, not_false_eq_true, Function.update_of_ne]
      exact ⟨hok, hfr, by simp [sentTo, receivedFrom, Ne.symm he]⟩
  | received i hu hc =>
    by_cases he : id = i
    · subst he
      simp only [Function.update_self]
      refine ⟨ok_take hok hc, ?_, ?_⟩
      · intro hf
        simp [Mailbox.take, hu] at hf
      · rw [pending_take hok hc]
        simp [sentTo, receivedFrom]
    · simp only [ne_eq, he, not_false_eq_true, Function.update_of_ne]
      exact ⟨hok, hfr, by simp [sentTo, receivedFrom, Ne.symm he]⟩
  | closed i hu =>
    by_cases he : id = i
    · subst he
      simp only [Function.update_self]
      refine ⟨⟨hok.head, hok.count, hok.tail⟩, ?_, ?_⟩
      · intro hf
        simp [hu] at hf
      · simp [sentTo, receivedFrom, Mailbox.pending]
    · simp only [ne_eq, he, not_false_eq_true, Function.update_of_ne]
      exact ⟨hok, hfr, by simp [sentTo, receivedFrom]⟩

theorem delivered_step {tr : List Obs} {s t : State} {o : Obs} (h : Delivered tr s)
    (hs : Step s o t) : Delivered (tr ++ [o]) t := by
  have he := step_effect h.calls hs
  refine ⟨callsOk_step h.calls hs, ?_, ?_, ?_⟩
  · intro id
    exact (box_effect he id (h.ok id) (h.fresh id)).1
  · intro id
    exact (box_effect he id (h.ok id) (h.fresh id)).2.1
  · intro id
    have hq := (box_effect he id (h.ok id) (h.fresh id)).2.2
    rw [sentTo_snoc, receivedFrom_snoc, h.queue id, List.append_assoc, hq, List.append_assoc]

theorem delivered_run {tr : List Obs} {s : State} (h : Run Step State.init tr s) :
    Delivered tr s :=
  h.history delivered_init fun _ _ _ _ _ hd hs => delivered_step hd hs

/-- After a close no send is accepted, also none that was asleep on a full mailbox. -/
theorem no_send_after_close {s t : State} {tr : List Obs} (hc : s.CallsOk) {id : Nat}
    (hu : (s.box id).used = true) (hcl : (s.box id).closed = true) (h : Run Step s tr t) :
    sentTo id tr = [] := by
  have key : t.CallsOk ∧ (t.box id).used = true ∧ (t.box id).closed = true ∧
      sentTo id tr = [] := by
    refine h.history (P := fun tr t => t.CallsOk ∧ (t.box id).used = true ∧
      (t.box id).closed = true ∧ sentTo id tr = []) ⟨hc, hu, hcl, rfl⟩ ?_
    intro tr t o u _ hp hs
    obtain ⟨htc, htu, htcl, hsent⟩ := hp
    have he := step_effect htc hs
    refine ⟨callsOk_step htc hs, effect_used he id htu, effect_closed he id htu htcl, ?_⟩
    rw [sentTo_snoc, hsent]
    generalize u.box = box' at he
    cases he with
    | sent i msg hi hcount hopen =>
      by_cases hid : i = id
      · subst hid
        rw [htcl] at hopen
        cases hopen
      · simp [sentTo, hid]
    | slept | sendFailed | recvFailed | found | notClosed | created | received | closed => rfl
  exact key.2.2.2

/-- Mailbox delivery, for every mailbox and every interleaving. -/
theorem mailbox_delivery {tr : List Obs} {s : State} (h : Run Step State.init tr s) (id : Nat) :
    (0 ≤ (s.box id).count ∧ (s.box id).count ≤ mboxCap ∧
      (s.box id).tail = ((s.box id).head + (s.box id).count) % mboxCap) ∧
    receivedFrom id tr <+: sentTo id tr ∧
    sentTo id tr = receivedFrom id tr ++ (s.box id).pending ∧
    ((s.box id).closed = true → ∀ tr' t, Run Step s tr' t → sentTo id tr' = []) ∧
    (∀ t, Step s (.recvFailed id) t → id < maxMbox → (s.box id).used = true →
      (s.box id).closed = true ∧ receivedFrom id tr = sentTo id tr) := by
  have hd := delivered_run h
  refine ⟨⟨(hd.ok id).count.1, (hd.ok id).count.2, (hd.ok id).tail⟩, ?_, hd.queue id, ?_, ?_⟩
  · exact ⟨_, (hd.queue id).symm⟩
  · intro hcl tr' t hr
    cases hu : (s.box id).used with
    | true => exact no_send_after_close hd.calls hu hcl hr
    | false =>
      have hopen := (hd.fresh id hu).2
      rw [hcl] at hopen
      cases hopen
  · intro t hs hlt hu
    have he := step_effect hd.calls hs
    generalize t.box = box' at he
    cases he with
    | recvFailed _ hdone =>
      obtain ⟨hcount, hcl⟩ := hdone id rfl hlt hu
      refine ⟨hcl, ?_⟩
      rw [hd.queue id, pending_empty hcount, List.append_nil]

/-- A mailbox is created, fed two messages, drained by one receive and closed. -/
theorem mailbox_delivery_run :
    ∃ s, Run Step State.init
        [.created 0, .sent 0 42, .sent 0 43, .received 0 42, .closed 0 0] s ∧
      sentTo 0 [.created 0, .sent 0 42, .sent 0 43, .received 0 42, .closed 0 0] =
        [42] ++ (s.box 0).pending ∧
      ∀ tr' t, Run Step s tr' t → sentTo 0 tr' = [] := by
  have hr : Run Step State.init [.created 0, .sent 0 42, .sent 0 43, .received 0 42, .closed 0 0] _ :=
    ((((Run.single ⟨.create 7, rfl⟩).snoc ⟨.send 1 0 42, rfl⟩).snoc ⟨.send 1 0 43, rfl⟩).snoc
      ⟨.recv 2 0, rfl⟩).snoc ⟨.close 0, rfl⟩
  have hd := mailbox_delivery hr 0
  exact ⟨_, hr, hd.2.2.1, hd.2.2.2.1 rfl⟩

end Xv6Labs.Mbox
