import Xv6Labs.Kit.Numbers
import Xv6Labs.Ipc.Shm

/-! The heap under the shared window: `sys_sbrk` (`kernel/sysproc.c`), `growproc`
(`kernel/proc.c`) and demand faults. The results of `uvmalloc` and `uvmdealloc` are inputs of the
calls, bound by what these functions promise. -/
namespace Xv6Labs.Shm
open Kit

/-- The value a `uint64` holds after the exact result `x` is stored. -/
def uint64 (x : Int) : Nat := (x % 2^64).toNat

def pgroundup (a : Nat) : Nat := (a + pgsize - 1) / pgsize * pgsize
def pgrounddown (a : Nat) : Nat := a / pgsize * pgsize

/-- `uvmalloc(pagetable, oldsz, newsz, ..)`: the size it returns, 0 when memory runs out, and the
table it leaves. Only addresses between the two sizes get new pages. -/
inductive Uvmalloc (pt : PageTable) (oldsz newsz : Nat) : Nat → PageTable → Prop
  | shrink (h : newsz < oldsz) : Uvmalloc pt oldsz newsz oldsz pt
  | fail : Uvmalloc pt oldsz newsz 0 pt
  | grow {pt' : PageTable} (h : oldsz ≤ newsz)
      (hpt : ∀ va, va < oldsz ∨ newsz ≤ va → pt' va = pt va) : Uvmalloc pt oldsz newsz newsz pt'

/-- `uvmdealloc(pagetable, oldsz, newsz)`: only whole pages between the two sizes go. -/
inductive Uvmdealloc (pt : PageTable) (oldsz newsz : Nat) : Nat → PageTable → Prop
  | keep (h : oldsz ≤ newsz) : Uvmdealloc pt oldsz newsz oldsz pt
  | shrink {pt' : PageTable} (h : newsz < oldsz)
      (hpt : ∀ va, va < newsz ∨ pgroundup oldsz ≤ va → pt' va = pt va) :
      Uvmdealloc pt oldsz newsz newsz pt'

/-- What `uvmalloc` or `uvmdealloc` returns and leaves behind. -/
structure VmResult where
  size : Nat
  table : PageTable

namespace Proc

/-- `growproc(n)`, with the result of the call it makes. -/
def growproc (q : Proc) (n : Int) (vm : VmResult) : Int × Proc :=
  if n > 0 then
    if vm.size = 0 then (-1, { q with pagetable := some vm.table })
    else (0, { q with pagetable := some vm.table, sz := vm.size })
  else if n < 0 then (0, { q with pagetable := some vm.table, sz := vm.size })
  else (0, q)

/-- `sys_sbrk` with arguments `n` and `t`; `eager` is `t == SBRK_EAGER`. -/
def sysSbrk (q : Proc) (n : Int) (eager : Bool) (vm : VmResult) : Int × Proc :=
  if eager ∨ n < 0 then
    if (q.growproc n vm).1 < 0 then (-1, (q.growproc n vm).2)
    else (q.sz, (q.growproc n vm).2)
  else if uint64 (q.sz + n) < q.sz then (-1, q)
  else (q.sz, { q with sz := uint64 (q.sz + n) })

/-- `vmfault`: a private page `pa` at the page of `va`. -/
def vmfault (q : Proc) (va pa : Nat) : Proc :=
  { q with pagetable := q.pagetable.map fun pt => Function.update pt (pgrounddown va) (some pa) }

/-- The call of `uvmalloc` or `uvmdealloc` that `growproc(n)` makes has the result `vm`. -/
def VmOk (q : Proc) (n : Int) (vm : VmResult) : Prop :=
  ∀ pt, q.pagetable = some pt →
    (n > 0 → Uvmalloc pt q.sz (uint64 (q.sz + n)) vm.size vm.table) ∧
    (n < 0 → Uvmdealloc pt q.sz (uint64 (q.sz + n)) vm.size vm.table)

end Proc

inductive HeapAct where
  | shm (a : Act)
  | sbrk (p : Fin nproc) (n : Int) (eager : Bool) (vm : VmResult)
  | fault (p : Fin nproc) (va pa : Nat)

/-- The steps of `Step` with `sys_sbrk` and page faults in the place of `heap`. -/
inductive HeapStep : State → HeapAct → State → Prop
  | shm {st st' : State} {a : Act} (hno : ∀ p user sz, a ≠ .heap p user sz) (h : Step st a st') :
      HeapStep st (.shm a) st'
  | sbrk {st : State} {p : Fin nproc} {n : Int} {eager : Bool} {vm : VmResult}
      (hp : (st.proc p).Alive) (hn : -2^31 ≤ n ∧ n ≤ intMax)
      (hvm : eager = true ∨ n < 0 → (st.proc p).VmOk n vm) :
      HeapStep st (.sbrk p n eager vm) (st.setProc p ((st.proc p).sysSbrk n eager vm).2)
  | fault {st : State} {p : Fin nproc} {va pa : Nat} (hp : (st.proc p).Alive)
      (hva : va < (st.proc p).sz)
      (hnone : ∀ pt, (st.proc p).pagetable = some pt → pt (pgrounddown va) = none) :
      HeapStep st (.fault p va pa) (st.setProc p ((st.proc p).vmfault va pa))

/-- An `sbrk` asks for no more than the room below the window, unless there is no memory for it. -/
def State.Fits (st : State) : HeapAct → Prop
  | .sbrk p n eager vm => ((st.proc p).sz : Int) + n ≤ shmBase ∨ eager = true ∧ vm.size = 0
  | _ => True

/-- No heap reaches the window, and what is mapped in the window was mapped and counted by
`shm_get`. -/
structure State.Clear (st : State) : Prop where
  size : ∀ p, (st.proc p).sz ≤ shmBase
  pte : ∀ p s pa, st.pte p s = some pa → (st.reg s).used = true ∧ pa = (st.reg s).page ∧
    (st.reg s).refCount = (st.mappers s).card

section
variable {st st' : State} {p : Fin nproc} {n : Int} {eager : Bool} {vm : VmResult} {q q' : Proc}

theorem uint64_of_range {x : Int} (h0 : 0 ≤ x) (h1 : x < 2^64) : (uint64 x : Int) = x := by
  unfold uint64
  omega

theorem pgroundup_le_shmBase {a : Nat} (h : a ≤ shmBase) : pgroundup a ≤ shmBase := by
  simp only [pgroundup, pgsize, shmBase] at *
  omega

/-- What happens to a process that stays below the window. -/
structure Proc.Below (q q' : Proc) : Prop where
  state : q'.state = q.state
  size : q'.sz ≤ shmBase
  table : ∃ pt pt', q.pagetable = some pt ∧ q'.pagetable = some pt' ∧
    ∀ va, shmBase ≤ va → pt' va = pt va

/-- Such a change is a `heap` step. -/
theorem Proc.Below.step (hp : (st.proc p).Alive) (h : (st.proc p).Below q') :
    ∃ a, Step st a (st.setProc p q') := by
  obtain ⟨pt, pt', hpt, hpt', hsame⟩ := h.table
  have heap : Step st (.heap p pt' q'.sz) _ := .heap hp h.size
  have hq : q' = { st.proc p with
      pagetable := (st.proc p).pagetable.map fun pt va => if va < shmBase then pt' va else pt va
      sz := q'.sz } := by
    cases q' with
    | mk state pagetable sz =>
      simp only at hpt' hsame ⊢
      have hstate : state = (st.proc p).state := h.state
      rw [hpt', hpt, hstate, Option.map_some]
      congr 2
      ext1 va
      split
      · rfl
      · next hva => exact hsame va (Nat.le_of_not_lt hva)
  rw [← hq] at heap
  exact ⟨_, heap⟩

theorem Proc.Below.refl {pt : PageTable} (hpt : q.pagetable = some pt) (hsz : q.sz ≤ shmBase) :
    q.Below q :=
  ⟨rfl, hsz, pt, pt, hpt, hpt, fun _ _ => rfl⟩

/-- A growth that fits leaves the window alone. -/
theorem uvmalloc_below {pt : PageTable} {newsz : Nat} (hsz : q.sz ≤ shmBase)
    (hvm : Uvmalloc pt q.sz newsz vm.size vm.table) (hfit : newsz ≤ shmBase ∨ vm.size = 0) :
    vm.size ≤ shmBase ∧ ∀ va, shmBase ≤ va → vm.table va = pt va := by
  generalize hr : vm.size = r at hvm hfit ⊢
  generalize ht : vm.table = pt' at hvm ⊢
  cases hvm with
  | shrink h => exact ⟨hsz, fun _ _ => rfl⟩
  | fail => exact ⟨Nat.zero_le _, fun _ _ => rfl⟩
  | grow h hsame =>
    have hle : newsz ≤ shmBase := by omega
    refine ⟨hle, ?_⟩
    intro va hva
    exact hsame va (.inr (hle.trans hva))

theorem uvmdealloc_below {pt : PageTable} {newsz : Nat} (hsz : q.sz ≤ shmBase)
    (hvm : Uvmdealloc pt q.sz newsz vm.size vm.table) :
    vm.size ≤ shmBase ∧ ∀ va, shmBase ≤ va → vm.table va = pt va := by
  generalize hr : vm.size = r at hvm ⊢
  generalize ht : vm.table = pt' at hvm ⊢
  cases hvm with
  | keep h => exact ⟨hsz, fun _ _ => rfl⟩
  | shrink h hsame =>
    refine ⟨(le_of_lt h).trans hsz, ?_⟩
    intro va hva
    exact hsame va (.inr ((pgroundup_le_shmBase hsz).trans hva))

theorem growproc_below {pt : PageTable} (hpt : q.pagetable = some pt) (hsz : q.sz ≤ shmBase)
    (hn : -2^31 ≤ n ∧ n ≤ intMax) (hvm : q.VmOk n vm)
    (hfit : (q.sz : Int) + n ≤ shmBase ∨ vm.size = 0) : q.Below (q.growproc n vm).2 := by
  obtain ⟨halloc, hdealloc⟩ := hvm pt hpt
  unfold Proc.growproc
  split
  · next hpos =>
    have hnew : (uint64 (q.sz + n) : Int) = q.sz + n := by
      apply uint64_of_range
      · omega
      · simp only [intMax, shmBase] at *
        omega
    obtain ⟨hle, hsame⟩ := uvmalloc_below hsz (halloc hpos) (by omega)
    split
    · exact ⟨rfl, hsz, pt, vm.table, hpt, rfl, hsame⟩
    · exact ⟨rfl, hle, pt, vm.table, hpt, rfl, hsame⟩
  · split
    · next hneg =>
      obtain ⟨hle, hsame⟩ := uvmdealloc_below hsz (hdealloc hneg)
      exact ⟨rfl, hle, pt, vm.table, hpt, rfl, hsame⟩
    · exact .refl hpt hsz

theorem sysSbrk_below {pt : PageTable} (hpt : q.pagetable = some pt) (hsz : q.sz ≤ shmBase)
    (hn : -2^31 ≤ n ∧ n ≤ intMax) (hvm : eager = true ∨ n < 0 → q.VmOk n vm)
    (hfit : (q.sz : Int) + n ≤ shmBase ∨ eager = true ∧ vm.size = 0) :
    q.Below (q.sysSbrk n eager vm).2 := by
  unfold Proc.sysSbrk
  split
  · next heager =>
    have hgrow := growproc_below hpt hsz hn (hvm heager) (hfit.imp_right And.right)
    split
    · exact hgrow
    · exact hgrow
  · next hlazy =>
    split
    · exact .refl hpt hsz
    · have heager : eager = false := by simpa using fun h => hlazy (.inl h)
      have hle : (q.sz : Int) + n ≤ shmBase := by simpa [heager] using hfit
      have hnew : (uint64 (q.sz + n) : Int) = q.sz + n := by
        apply uint64_of_range
        · omega
        · simp only [intMax, shmBase] at *
          omega
      refine ⟨rfl, ?_, pt, pt, hpt, hpt, fun _ _ => rfl⟩
      simp only
      omega

/-- A call that asks for more than the room below the window gets it. -/
theorem sysSbrk_over {pt : PageTable} (hpt : q.pagetable = some pt) (hsz : q.sz ≤ shmBase)
    (hn : -2^31 ≤ n ∧ n ≤ intMax) (hvm : eager = true ∨ n < 0 → q.VmOk n vm)
    (hno : ¬ ((q.sz : Int) + n ≤ shmBase ∨ eager = true ∧ vm.size = 0)) :
    shmBase < (q.sysSbrk n eager vm).2.sz := by
  have hpos : n > 0 := by omega
  have hnew : (uint64 (q.sz + n) : Int) = q.sz + n := by
    apply uint64_of_range
    · omega
    · simp only [intMax, shmBase] at *
      omega
  unfold Proc.sysSbrk
  by_cases heager : eager = true
  · have hsize : vm.size ≠ 0 := by
      intro h0
      exact hno (.inr ⟨heager, h0⟩)
    have halloc := (hvm (.inl heager) pt hpt).1 hpos
    have hlarge : shmBase < vm.size := by
      generalize hr : vm.size = r at halloc hsize ⊢
      generalize ht : vm.table = pt' at halloc
      cases halloc with
      | shrink h => omega
      | fail => exact absurd rfl hsize
      | grow => omega
    have hgrow : q.growproc n vm = (0, { q with pagetable := some vm.table, sz := vm.size }) := by
      rw [Proc.growproc, if_pos hpos, if_neg hsize]
    rw [if_pos (.inl heager), hgrow, if_neg (lt_irrefl _)]
    exact hlarge
  · have hlazy : ¬ (eager = true ∨ n < 0) := by
      intro h
      cases h with
      | inl h => exact heager h
      | inr h => omega
    rw [if_neg hlazy, if_neg (by omega)]
    simp only
    omega

theorem vmfault_below {pt : PageTable} {va pa : Nat} (hpt : q.pagetable = some pt)
    (hsz : q.sz ≤ shmBase) (hva : va < q.sz) : q.Below (q.vmfault va pa) := by
  refine ⟨rfl, hsz, pt, Function.update pt (pgrounddown va) (some pa), hpt, ?_, ?_⟩
  · simp [Proc.vmfault, hpt]
  · intro vb hvb
    have hne : vb ≠ pgrounddown va := by
      simp only [pgrounddown, pgsize] at *
      omega
    exact Function.update_of_ne hne _ _

/-- While every `sbrk` fits, the kernel runs as `Step` says. -/
theorem heapStep_step {a : HeapAct} (h : Inv st) (hs : HeapStep st a st') (hfit : st.Fits a) :
    ∃ a', Step st a' st' := by
  cases hs with
  | shm _ hs => exact ⟨_, hs⟩
  | @sbrk p n eager vm hp hn hvm =>
    obtain ⟨pt, hpt⟩ := Option.isSome_iff_exists.mp (alive_table h hp)
    exact (sysSbrk_below hpt (h.size p) hn hvm hfit).step hp
  | @fault p va pa hp hva =>
    obtain ⟨pt, hpt⟩ := Option.isSome_iff_exists.mp (alive_table h hp)
    exact (vmfault_below hpt (h.size p) hva).step hp

theorem Inv.clear (h : Inv st) : st.Clear := by
  refine ⟨h.size, ?_⟩
  intro p s pa hpte
  obtain ⟨hs, hpa⟩ := h.pte_page p s pa hpte
  exact ⟨hs, hpa, h.refCount s hs⟩

theorem not_clear_of_not_fits {a : HeapAct} (h : Inv st) (hs : HeapStep st a st')
    (hno : ¬ st.Fits a) : ¬ st'.Clear := by
  intro hclear
  cases hs with
  | shm => exact hno trivial
  | fault => exact hno trivial
  | @sbrk p n eager vm hp hn hvm =>
    obtain ⟨pt, hpt⟩ := Option.isSome_iff_exists.mp (alive_table h hp)
    have hover := sysSbrk_over hpt (h.size p) hn hvm hno
    have hle := hclear.size p
    rw [setProc_proc_self] at hle
    omega

end

/-- Heap and window stay apart as long as every `sbrk` fits below the window, and part with the
first one that does not. -/
theorem window_clear_iff (frame tramp : Nat) (owner : Nat → Owner) (mem : Nat → Nat → UInt8)
    {tr : List HeapAct} {st : State}
    (hr : Run (Guarded HeapStep State.Fits) (State.init frame tramp owner mem) tr st) :
    st.Clear ∧ ∀ a st', HeapStep st a st' → (st'.Clear ↔ st.Fits a) := by
  refine hr.guarded_iff (I := Inv) (inv_init frame tramp owner mem) ?_ (fun _ h => h.clear) ?_
  · intro st a st' h hs hfit
    obtain ⟨a', hs'⟩ := heapStep_step h hs hfit
    exact (inv_step h hs').1
  · intro st a st' h hs hno
    exact not_clear_of_not_fits h hs hno

/-- A lazy `sbrk` of one page and the fault that fills it. -/
theorem window_clear_first_page :
    ∃ st, Run (Guarded HeapStep State.Fits) State.booted
      [.sbrk 0 4096 false ⟨0, fun _ => none⟩, .fault 0 8 100] st ∧ st.Clear := by
  have hsbrk : Run (Guarded HeapStep State.Fits) State.booted
      [.sbrk 0 4096 false ⟨0, fun _ => none⟩] _ :=
    Run.single ⟨.sbrk (by decide) (by decide) (by simp), .inl (by decide)⟩
  have hfault : Run (Guarded HeapStep State.Fits) _
      [.sbrk 0 4096 false ⟨0, fun _ => none⟩, .fault 0 8 100] _ :=
    hsbrk.snoc ⟨.fault (by decide) (by decide) (by intro pt hpt; cases hpt; rfl), trivial⟩
  exact ⟨_, hfault, (window_clear_iff 1 2 (fun _ => .free) (fun _ _ => 0) hfault).1⟩

/-- A lazy `sbrk` over the start of the window, and a private page where the first region goes. -/
theorem lazy_sbrk_into_window :
    ∃ st, Run HeapStep State.booted
        [.sbrk 0 0x40001000 false ⟨0, fun _ => none⟩, .fault 0 0x40000000 100] st ∧
      (st.proc 0).sz = shmBase + pgsize ∧ st.pte 0 0 = some 100 ∧ (st.reg 0).used = false ∧
      ¬ st.Clear := by
  have hsbrk : Run HeapStep State.booted
      [.sbrk 0 0x40001000 false ⟨0, fun _ => none⟩] _ :=
    Run.single (.sbrk (by decide) (by decide) (by simp))
  have hfault : Run HeapStep _
      [.sbrk 0 0x40001000 false ⟨0, fun _ => none⟩, .fault 0 0x40000000 100] _ :=
    hsbrk.snoc (.fault (by decide) (by decide) (by intro pt hpt; cases hpt; rfl))
  refine ⟨_, hfault, by decide, by decide, rfl, ?_⟩
  intro hclear
  have hused := (hclear.pte 0 0 100 (by decide)).1
  cases hused

end Xv6Labs.Shm
