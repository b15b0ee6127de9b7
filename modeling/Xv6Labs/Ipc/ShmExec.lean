import Xv6Labs.Ipc.Shm

/-! Page tables on their way to `proc_freepagetable`: through `freeproc` when a process is reaped
or a `fork` fails, which detaches them from shared memory first, and through `exec`, which does
not. -/
namespace Xv6Labs.Shm
open Kit

/-- The table that `freeproc` hands to `proc_freepagetable`. -/
def State.freeprocTable (st : State) (p : Fin nproc) : List PageTable :=
  if (st.proc p).pagetable.isSome then ((st.shmCleanup p).proc p).pagetable.toList else []

/-- The tables torn down by a step of `Step`. -/
def State.torn (st : State) : Act → List PageTable
  | .reap p => st.freeprocTable p
  | .fork _ frame tramp none =>
    match st.allocproc frame tramp with
    | (some np, st) => st.freeprocTable np
    | (none, _) => []
  | _ => []

/-- A new image: user pages below `sz`, the trampoline and the trapframe. -/
def execTable (user : PageTable) (sz tramp frame : Nat) : PageTable := fun va =>
  if va < sz then user va else State.procPagetable tramp frame va

inductive ExecAct where
  | shm (a : Act)
  | exec (p : Fin nproc) (user : PageTable) (sz tramp frame : Nat)
  | execFail (p : Fin nproc) (user : PageTable) (sz tramp frame : Nat)

/-- The kernel, with all tables that `proc_freepagetable` has been called on. -/
structure Torn where
  st : State
  tables : List PageTable

/-- The steps of `Step` and `exec`, which swaps the new table in and tears the old one down, or
fails and tears down what it has built. -/
inductive ExecStep : Torn → ExecAct → Torn → Prop
  | shm {x : Torn} {a : Act} {st' : State} (h : Step x.st a st') :
      ExecStep x (.shm a) ⟨st', x.tables ++ x.st.torn a⟩
  | exec {x : Torn} {p : Fin nproc} {user : PageTable} {sz tramp frame : Nat}
      (hp : (x.st.proc p).Alive) :
      ExecStep x (.exec p user sz tramp frame)
        ⟨x.st.setProc p { x.st.proc p with
            pagetable := some (execTable user sz tramp frame), sz := sz },
          x.tables ++ (x.st.proc p).pagetable.toList⟩
  | execFail {x : Torn} {p : Fin nproc} {user : PageTable} {sz tramp frame : Nat}
      (hp : (x.st.proc p).Alive) :
      ExecStep x (.execFail p user sz tramp frame)
        ⟨x.st, x.tables ++ [execTable user sz tramp frame]⟩

/-- Program images end below the window. -/
def ExecAct.Fits : ExecAct → Prop
  | .exec _ _ sz _ _ => sz ≤ shmBase
  | .execFail _ _ sz _ _ => sz ≤ shmBase
  | _ => True

/-- A process that calls `exec` successfully has no region attached. -/
def Torn.Unattached (x : Torn) : ExecAct → Prop
  | .exec p _ _ _ _ => ∀ s, x.st.pte p s = none
  | _ => True

/-- No table that was torn down had an entry in the window, and the counts are those of the
tables that are left. -/
structure Torn.Detached (x : Torn) : Prop where
  tables : ∀ pt ∈ x.tables, ∀ s, pt (shmva s) = none
  counts : ∀ s, (x.st.reg s).used = true → (x.st.reg s).refCount = (x.st.mappers s).card

section
variable {st st' : State} {p : Fin nproc} {s : Fin maxShm} {x y : Torn} {pt : PageTable}

/-- `freeproc` detaches the table before it goes. -/
theorem freeprocTable_clean (h : Inv st) (hpt : pt ∈ st.freeprocTable p) (s : Fin maxShm) :
    pt (shmva s) = none := by
  unfold State.freeprocTable at hpt
  split at hpt
  · have hnone := (cleaning_shmCleanup h p).2 s
    rw [Option.mem_toList] at hpt
    rwa [State.pte, hpt, Option.bind_some] at hnone
  · cases hpt

theorem torn_clean {a : Act} (h : Inv st) (hpt : pt ∈ st.torn a) (s : Fin maxShm) :
    pt (shmva s) = none := by
  cases a with
  | reap p => exact freeprocTable_clean h hpt s
  | fork p frame tramp copy =>
    cases copy with
    | some fresh => cases hpt
    | none =>
      simp only [State.torn] at hpt
      obtain hnone | ⟨np, hun, hfail | ⟨f, t, hok⟩⟩ := allocproc_cases h frame tramp
      · rw [hnone] at hpt
        cases hpt
      · rw [hfail] at hpt
        cases hpt
      · rw [hok] at hpt
        -- The new process is one more process without shared mappings.
        have hinv := (inv_setProc h ⟨.used, some (State.procPagetable t f), (st.proc np).sz⟩
          (p := np) (fun s => by simp [pte_unused h hun, procPagetable_window]) (by simp) (h.size np)).1
        exact freeprocTable_clean hinv hpt s
  | create | get | close | exit | heap | kalloc | kfree | store => cases hpt

theorem execTable_window {user : PageTable} {sz : Nat} (hsz : sz ≤ shmBase) (tramp frame : Nat)
    (s : Fin maxShm) : execTable user sz tramp frame (shmva s) = none := by
  have hva : ¬ shmva s < sz := by
    unfold shmva
    omega
  rw [execTable, if_neg hva]
  exact procPagetable_window tramp frame s

/-- What runs keep while every `exec` is by a process without regions. -/
structure Torn.Inv (x : Torn) : Prop where
  inv : Shm.Inv x.st
  tables : ∀ pt ∈ x.tables, ∀ s, pt (shmva s) = none

theorem Torn.Inv.detached (h : x.Inv) : x.Detached := ⟨h.tables, fun s hs => h.inv.refCount s hs⟩

theorem execStep_inv {a : ExecAct} (h : x.Inv) (hs : ExecStep x a y) (hfit : a.Fits)
    (hun : x.Unattached a) : y.Inv := by
  cases hs with
  | shm hs =>
    refine ⟨(inv_step h.inv hs).1, ?_⟩
    intro pt hpt
    cases List.mem_append.mp hpt with
    | inl hold => exact h.tables pt hold
    | inr hnew => exact torn_clean h.inv hnew
  | @exec p user sz tramp frame hp =>
    have hset := inv_setProc (p := p) h.inv
      { x.st.proc p with pagetable := some (execTable user sz tramp frame), sz := sz }
      (fun s => (execTable_window hfit tramp frame s).trans (hun s).symm) (by simp [hp.1]) hfit
    refine ⟨hset.1, ?_⟩
    · intro pt hpt s
      cases List.mem_append.mp hpt with
      | inl hold => exact h.tables pt hold s
      | inr hnew =>
        have hnone := hun s
        rw [Option.mem_toList] at hnew
        rwa [State.pte, hnew, Option.bind_some] at hnone
  | @execFail p user sz tramp frame hp =>
    refine ⟨h.inv, ?_⟩
    intro pt hpt s
    cases List.mem_append.mp hpt with
    | inl hold => exact h.tables pt hold s
    | inr hnew =>
      rw [List.mem_singleton.mp hnew]
      exact execTable_window hfit tramp frame s

/-- `exec` tears down the table of a process that has a region attached as it is. -/
theorem not_detached {a : ExecAct} (hs : ExecStep x a y) (hno : ¬ x.Unattached a) :
    ¬ y.Detached := by
  intro hd
  cases hs with
  | shm => exact hno trivial
  | execFail => exact hno trivial
  | @exec p user sz tramp frame hp =>
    refine hno ?_
    intro s
    cases htab : (x.st.proc p).pagetable with
    | none => simp [State.pte, htab]
    | some pt =>
      have hclean := hd.tables pt (List.mem_append_right _ (by simp [htab])) s
      rw [State.pte, htab, Option.bind_some]
      exact hclean

end

/-- With images below the window, page tables are detached before they are torn down as long as
no process with a region attached calls `exec`, and the first such `exec` tears down a table that
is not. -/
theorem torn_detached_iff (frame tramp : Nat) (owner : Nat → Owner) (mem : Nat → Nat → UInt8)
    {tr : List ExecAct} {x : Torn} (hr : Run (Guarded ExecStep fun x a => a.Fits ∧ x.Unattached a)
      ⟨.init frame tramp owner mem, []⟩ tr x) :
    x.Detached ∧ ∀ a y, ExecStep x a y → a.Fits → (y.Detached ↔ x.Unattached a) := by
  have hx : x.Inv := by
    refine hr.invariant (P := Torn.Inv) ⟨inv_init frame tramp owner mem, by simp⟩ ?_
    intro x a y h hs
    exact execStep_inv h hs.1 hs.2.1 hs.2.2
  refine ⟨hx.detached, ?_⟩
  intro a y hs hfit
  constructor
  · intro hd
    by_contra hno
    exact not_detached hs hno hd
  · intro hun
    exact (execStep_inv hx hs hfit hun).detached

/-- `init` attaches the region of key 5, and its child, which has attached nothing, calls `exec`. -/
theorem torn_detached_child : ∃ x, Run ExecStep ⟨State.booted, []⟩
    [.shm (.create 0 5 (some 100)), .shm (.get 0 5 true),
      .shm (.fork 0 (some 3) (some 2) (some fun _ => 7)), .exec 1 (fun _ => none) 4096 2 3] x ∧
    x.Detached := by
  have h1 : Run (Guarded ExecStep fun x a => a.Fits ∧ x.Unattached a)
      ⟨State.booted, []⟩ [.shm (.create 0 5 (some 100))] ⟨_, _⟩ :=
    Run.single ⟨.shm (.create (by decide) (by intro pa hpa; cases hpa; exact ⟨by decide, rfl⟩)),
      trivial, trivial⟩
  have h2 : Run (Guarded ExecStep fun x a => a.Fits ∧ x.Unattached a) _
      (_ ++ [.shm (.get 0 5 true)]) ⟨_, _⟩ :=
    h1.snoc ⟨.shm (.get (by decide)), trivial, trivial⟩
  have h3 : Run (Guarded ExecStep fun x a => a.Fits ∧ x.Unattached a) _
      (_ ++ [.shm (.fork 0 (some 3) (some 2) (some fun _ => 7))]) ⟨_, _⟩ :=
    h2.snoc ⟨.shm (.fork (by decide)), trivial, trivial⟩
  have h4 : Run (Guarded ExecStep fun x a => a.Fits ∧ x.Unattached a) _
      (_ ++ [.exec 1 (fun _ => none) 4096 2 3]) ⟨_, _⟩ :=
    h3.snoc ⟨.exec (by decide), (by decide : 4096 ≤ shmBase), fun s => procPagetable_window 2 3 s⟩
  exact ⟨_, h4.mono fun _ _ _ hs => hs.1,
    (torn_detached_iff 1 2 (fun _ => .free) (fun _ _ => 0) h4).1⟩

/-- The region of key 5 has been created, and process `p` has attached it. -/
def State.attached (p : Fin nproc) : State :=
  ((State.booted.shmCreate 5 (some 100)).2.shmGet p 5 true).2

theorem attached_run : Run ExecStep ⟨State.booted, []⟩
    [.shm (.create 0 5 (some 100)), .shm (.get 0 5 true)] ⟨State.attached 0, []⟩ := by
  have h1 : Run ExecStep ⟨State.booted, []⟩ [.shm (.create 0 5 (some 100))] ⟨_, _⟩ :=
    Run.single (.shm (.create (by decide) (by intro pa hpa; cases hpa; exact ⟨by decide, rfl⟩)))
  exact h1.snoc (.shm (.get (by decide)))

/-- `exec` after `shm_get`: the old table goes with its mapping, and the count stays. -/
theorem exec_tears_down_attached : ∃ x, Run ExecStep ⟨State.booted, []⟩
      [.shm (.create 0 5 (some 100)), .shm (.get 0 5 true), .exec 0 (fun _ => none) 4096 2 1] x ∧
    (∃ pt ∈ x.tables, pt (shmva 0) = some 100) ∧ (x.st.reg 0).refCount = 1 ∧
    x.st.mappers 0 = ∅ ∧ ¬ x.Detached := by
  have hexec : ExecStep ⟨State.attached 0, []⟩ (.exec 0 (fun _ => none) 4096 2 1) ⟨_, _⟩ :=
    .exec (by decide)
  refine ⟨_, attached_run.snoc hexec, ⟨_, List.mem_singleton_self _, by decide⟩, by decide,
    by decide, ?_⟩
  exact not_detached hexec fun hun => absurd (hun 0) (by decide)

end Xv6Labs.Shm
