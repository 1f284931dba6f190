import NjuOs.Pmm
import NjuOs.Spin

/-!
# The slab lists, statement by statement

`kalloc` and `kfree` on the machine of the spinlocks: tasks and trap handlers on any number of
CPUs, and a timer that can strike before any statement executed with interrupts enabled. Every
load and store of `caches[cpu].free[cls]` and of a cell's link is a step of its own; a section
under `buddy_lock` is one step. The pages of the buddy allocator and their descriptors are
those of `Pmm`, the lists are heads and links.
-/

namespace NjuOs

open Function

/-- The statement an agent executes next, with the locals it needs. In `kalloc`, `fresh` is the page that
`slab_refill` has just carved. -/
inductive SlabPc
  | out
  | kallocCpu (cls : Nat)
  | kallocTest (cpu cls : Nat)
  | refillPage (cpu cls : Nat)
  | refillKind (cpu cls page : Nat)
  | refillSize (cpu cls page : Nat)
  | refillLoad (cpu cls page i : Nat)
  | refillLink (cpu cls page i : Nat) (old : Option Nat)
  | refillHead (cpu cls page i : Nat)
  | kallocLoad (cpu cls : Nat) (fresh : Option Nat)
  | kallocNext (cpu cls : Nat) (fresh : Option Nat) (b : Nat)
  | kallocHead (cpu cls : Nat) (fresh : Option Nat) (b : Nat) (next : Option Nat)
  | kallocLarge (size : Nat)
  | kfreeKind (ptr : Nat)
  | kfreeSize (ptr : Nat)
  | kfreeCpu (cls ptr : Nat)
  | kfreeLoad (cpu cls ptr : Nat)
  | kfreeLink (cpu cls ptr : Nat) (old : Option Nat)
  | kfreeHead (cpu cls ptr : Nat)
  | kfreeBuddy (ptr : Nat)
  deriving DecidableEq, Repr

/-- The CPU whose lists an agent works on: from behind its `cpu_current()` up to its last store. -/
def SlabPc.window : SlabPc → Option Nat
  | .kallocTest cpu _ => some cpu
  | .refillPage cpu _ => some cpu
  | .refillKind cpu _ _ => some cpu
  | .refillSize cpu _ _ => some cpu
  | .refillLoad cpu _ _ _ => some cpu
  | .refillLink cpu _ _ _ _ => some cpu
  | .refillHead cpu _ _ _ => some cpu
  | .kallocLoad cpu _ _ => some cpu
  | .kallocNext cpu _ _ _ => some cpu
  | .kallocHead cpu _ _ _ _ => some cpu
  | .kfreeLoad cpu _ _ => some cpu
  | .kfreeLink cpu _ _ _ => some cpu
  | .kfreeHead cpu _ _ => some cpu
  | _ => none

structure SlabSys where
  spin : SpinSys
  /-- its own `caches` stay empty -/
  pmm : Pmm
  /-- `caches[cpu].free[cls]` -/
  heads : Nat → Nat → Option Nat
  /-- the first word of a block, `b->next` while it is on a list -/
  next : Nat → Option Nat
  pc : Agent → SlabPc
  /-- blocks that `kalloc` has returned and that were not passed to `kfree` since -/
  live : List Nat
  /-- blocks that were passed to a `kfree` which has not returned -/
  freeing : List Nat
  /-- cells that `kfree` has put back and `kalloc` has not returned since -/
  freed : List Nat

inductive SlabAct
  | kalloc (cpu size : Nat)
  | kfree (cpu ptr : Nat)
  | stmt (cpu : Nat)
  /-- the owner of a live block writes to it -/
  | write (ptr : Nat) (v : Option Nat)
  /-- anything but `kalloc` and `kfree` -/
  | sys (act : SpinAct)

def SlabSys.init (h : Area) : SlabSys where
  spin := .start
  pmm := pmmInit h
  heads := fun _ _ => none
  next := fun _ => none
  pc := fun _ => .out
  live := []
  freeing := []
  freed := []

def SlabSys.goto (s : SlabSys) (a : Agent) (pc : SlabPc) : SlabSys := { s with pc := update s.pc a pc }

def SlabSys.setHead (s : SlabSys) (cpu cls : Nat) (b : Option Nat) : SlabSys :=
  { s with heads := update s.heads cpu (update (s.heads cpu) cls b) }

def SlabSys.setNext (s : SlabSys) (b : Nat) (v : Option Nat) : SlabSys :=
  { s with next := update s.next b v }

def SlabSys.returns (s : SlabSys) (b : Nat) : SlabSys :=
  { s with live := b :: s.live, freed := s.freed.filter (· ≠ b) }

def refillNext (cpu cls page i : Nat) : SlabPc :=
  if i < pageSize / classSize cls then .refillLoad cpu cls page i else .kallocLoad cpu cls (some page)

def SlabSys.exec (s : SlabSys) (c : Nat) (a : Agent) : Option SlabSys :=
  match s.pc a with
  | .out => none
  | .kallocCpu cls => some (s.goto a (.kallocTest c cls))
  | .kallocTest cpu cls =>
    some (s.goto a (if s.heads cpu cls = none then .refillPage cpu cls else .kallocLoad cpu cls none))
  | .refillPage cpu cls =>
    match buddyAlloc s.pmm 0 with
    | (m, none) => some ({ s with pmm := m }.goto a (.kallocLoad cpu cls none))
    | (m, some page) => some ({ s with pmm := m }.goto a (.refillKind cpu cls page))
  | .refillKind cpu cls page =>
    let i := descOf s.pmm page
    some ({ s with pmm := s.pmm.setDesc i { s.pmm.pgtab i with kind := .slab } }.goto a (.refillSize cpu cls page))
  | .refillSize cpu cls page =>
    let i := descOf s.pmm page
    some ({ s with pmm := s.pmm.setDesc i { s.pmm.pgtab i with objSize := classSize cls } }.goto a
      (refillNext cpu cls page 0))
  | .refillLoad cpu cls page i => some (s.goto a (.refillLink cpu cls page i (s.heads cpu cls)))
  | .refillLink cpu cls page i old =>
    some ((s.setNext (page + i * classSize cls) old).goto a (.refillHead cpu cls page i))
  | .refillHead cpu cls page i =>
    some ((s.setHead cpu cls (some (page + i * classSize cls))).goto a (refillNext cpu cls page (i + 1)))
  | .kallocLoad cpu cls fresh =>
    match s.heads cpu cls with
    | none => some (s.goto a .out)
    | some b => some (s.goto a (.kallocNext cpu cls fresh b))
  | .kallocNext cpu cls fresh b => some (s.goto a (.kallocHead cpu cls fresh b (s.next b)))
  | .kallocHead cpu cls _ b next => some (((s.setHead cpu cls next).returns b).goto a .out)
  | .kallocLarge size =>
    match kallocLarge s.pmm size with
    | (m, none) => some ({ s with pmm := m }.goto a .out)
    | (m, some b) => some (({ s with pmm := m }.returns b).goto a .out)
  | .kfreeKind ptr =>
    match (s.pmm.pgtab (descOf s.pmm (pageOf ptr))).kind with
    | .slab => some (s.goto a (.kfreeSize ptr))
    | .buddy => some (s.goto a (.kfreeBuddy ptr))
    | .free => some ({ s with freeing := s.freeing.erase ptr }.goto a .out)
  | .kfreeSize ptr =>
    match sizeToClass (s.pmm.pgtab (descOf s.pmm (pageOf ptr))).objSize with
    | some (some cls) => some (s.goto a (.kfreeCpu cls ptr))
    | _ => none
  | .kfreeCpu cls ptr => some (s.goto a (.kfreeLoad c cls ptr))
  | .kfreeLoad cpu cls ptr => some (s.goto a (.kfreeLink cpu cls ptr (s.heads cpu cls)))
  | .kfreeLink cpu cls ptr old => some ((s.setNext ptr old).goto a (.kfreeHead cpu cls ptr))
  | .kfreeHead cpu cls ptr =>
    some ({ s.setHead cpu cls (some ptr) with
      freeing := s.freeing.erase ptr
      freed := ptr :: s.freed }.goto a .out)
  | .kfreeBuddy ptr =>
    let i := descOf s.pmm (pageOf ptr)
    let m := s.pmm.setDesc i { s.pmm.pgtab i with kind := .free }
    some ({ s with
      pmm := buddyFree m (s.pmm.pgtab i).order ptr
      freeing := s.freeing.erase ptr }.goto a .out)

def SlabSys.caller (s : SlabSys) (c : Nat) : Option Agent := do
  let a ← s.spin.agent c
  if c < maxCpu ∧ s.spin.panicked = false ∧ s.pc a = .out ∧ (s.spin.thread a).pc = .out then some a else none

/-- Inside `kalloc` and `kfree` an agent does nothing else; only the timer can take the CPU from it. -/
def SlabSys.Allows (s : SlabSys) : SpinAct → Prop
  | .lock c _ | .unlock c _ | .stmt c | .yield c | .sched c _ | .iret c => ∀ a ∈ s.spin.agent c, s.pc a = .out
  | .create _ _ | .mark _ _ | .timer _ => True

instance (s : SlabSys) (act : SpinAct) : Decidable (s.Allows act) := by
  cases act <;> unfold SlabSys.Allows <;> infer_instance

/-- `kfree` may only be handed a live block (or `NULL`). -/
def SlabSys.step (s : SlabSys) : SlabAct → Option SlabSys
  | .kalloc c size => do
    let a ← s.caller c
    if size = 0 then some s
    else
      match sizeToClass size with
      | none => none
      | some (some cls) => some (s.goto a (.kallocCpu cls))
      | some none => some (s.goto a (.kallocLarge size))
  | .kfree c ptr => do
    let a ← s.caller c
    if ptr = 0 then some s
    else if ptr ∈ s.live then
      some ({ s with live := s.live.erase ptr, freeing := ptr :: s.freeing }.goto a (.kfreeKind ptr))
    else none
  | .stmt c => do
    let a ← s.spin.agent c
    if c < maxCpu ∧ s.spin.panicked = false then s.exec c a else none
  | .write ptr v => if ptr ∈ s.live then some (s.setNext ptr v) else none
  | .sys act =>
    if s.Allows act then (s.spin.step act).map fun spin => { s with spin := spin } else none

end NjuOs
