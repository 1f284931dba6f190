import NjuOs.Uproc
import NjuOs.Runs

/-!
# Address spaces of the x86-64 machine (`am/src/x86/qemu/vme.c`)

Memory is read and written in words of eight bytes; `used` are the pages that `pgalloc` has handed out and
that have not come back. The list of pages of a call holds the answers of `pgalloc` one after the other, and
ends where it answers `NULL`. `start64.S` has made the tables of the kernel.
-/

namespace NjuOs.X86

structure PtInfo where
  mask : Nat
  shift : Nat
  bits : Nat

def pgtables : List PtInfo :=
  [⟨0, 0, 0⟩, ⟨0xff8000000000, 39, 9⟩, ⟨0x007fc0000000, 30, 9⟩, ⟨0x00003fe00000, 21, 9⟩, ⟨0x0000001ff000, 12, 9⟩]

structure VmArea where
  start : Nat
  stop : Nat
  kernel : Bool

def uvmArea : VmArea := ⟨0x100000000000, 0x108000000000, false⟩

def vmAreas : List VmArea := [uvmArea, ⟨0, 0x008000000000, true⟩]

def pteP : Nat := 0x001
def pteW : Nat := 0x002
def pteU : Nat := 0x004
def ptePS : Nat := 0x080

def pml4Addr : Nat := 0x1000
def pdptAddr : Nat := 0x2000

def mmapNone : Nat := 0

structure Vm where
  mem : Nat → Nat
  kpt : Nat
  used : List Nat

def Vm.store (v : Vm) (a x : Nat) : Vm := { v with mem := Function.update v.mem a x }

def pgallocz (v : Vm) : List Nat → Except Halt (Vm × Nat × List Nat)
  | [] => .error (.panic "cannot allocate page")
  | base :: pages =>
    .ok ({ v with
      mem := fun a => if base ≤ a ∧ a < base + pgsize then 0 else v.mem a
      used := base :: v.used }, base, pages)

def pgfree (v : Vm) (p : Nat) : Except Halt Vm :=
  if p ∈ v.used then .ok { v with used := v.used.erase p } else .error .undefined

def indexof (addr : Nat) (info : PtInfo) : Nat := (addr &&& info.mask) >>> info.shift

/-- `addr & ~(mmu.pgsize - 1)` -/
def baseof (addr : Nat) : Nat := addr &&& (2 ^ 64 - pgsize)

/-- The address of the last entry, with the tables on the way made where they are missing. -/
def ptwalk (addr flags : Nat) : List PtInfo → Nat → Vm → List Nat → Except Halt (Vm × Nat × List Nat)
  | [], _, _, _ => .error (.panic "internal error (likely a bug in AM)")
  | [info], pt, v, pages => .ok (v, pt + indexof addr info * 8, pages)
  | info :: info' :: infos, pt, v, pages => do
    let e := pt + indexof addr info * 8
    if v.mem e &&& pteP = 0 then
      let (v, next, pages) ← pgallocz v pages
      ptwalk addr flags (info' :: infos) next (v.store e (next ||| pteP ||| flags)) pages
    else ptwalk addr flags (info' :: infos) (baseof (v.mem e)) v pages

def teardown : Nat → List PtInfo → Nat → Vm → Except Halt Vm
  | _, [], _, v => .ok v
  | level, info :: infos, pt, v => do
    let v ← (List.range (2 ^ info.bits)).foldlM (fun v index =>
      let e := v.mem (pt + index * 8)
      if e &&& pteP ≠ 0 ∧ e &&& pteU ≠ 0 then teardown (level + 1) infos (baseof e) v else .ok v) v
    if 1 ≤ level then pgfree v pt else .ok v

/-- `for (cur = start; cur != end; cur += step)` -/
def areaSteps (step : Nat) (vma : VmArea) : List Nat :=
  (List.range ((vma.stop - vma.start) / step)).map fun i => vma.start + i * step

def kernelSlots : List Nat :=
  match pgtables[1]? with
  | none => []
  | some info => ((vmAreas.filter (·.kernel)).flatMap (areaSteps (1 <<< info.shift))).map (indexof · info)

def protect (v : Vm) (asp : Nat) (pages : List Nat) : Except Halt Vm := do
  let (v, upt, _) ← pgallocz v pages
  let v := kernelSlots.foldl (fun v index => v.store (upt + index * 8) (v.mem (v.kpt + index * 8))) v
  return v.store asp (upt ||| pteP ||| pteU)

def unprotect (v : Vm) (asp : Nat) : Except Halt Vm := teardown 0 pgtables asp v

def setPte (v : Vm) (e pa prot : Nat) : Except Halt Vm :=
  if prot = mmapNone then
    if v.mem e &&& pteP = 0 then .error (.panic "unmapping a non-mapped page") else .ok (v.store e 0)
  else if v.mem e &&& pteP ≠ 0 then .error (.panic "remapping a mapped page")
  else .ok (v.store e (pa ||| pteP ||| pteU ||| if prot &&& mmapWrite ≠ 0 then pteW else 0))

def mapEntry (v : Vm) (asp va pa prot : Nat) (pages : List Nat) : Except Halt Vm := do
  let (v, ptentry, pages) ← ptwalk va (pteW ||| pteU) pgtables asp v pages
  let v ← setPte v ptentry pa prot
  let (v, _, _) ← ptwalk va (pteW ||| pteU) pgtables asp v pages
  return v

def map (v : Vm) (asp va pa prot : Nat) (pages : List Nat) : Except Halt Vm :=
  if ¬(uvmArea.start ≤ va ∧ va < uvmArea.stop) then .error (.panic "mapping an invalid address")
  else if va ≠ baseof va ∨ pa ≠ baseof pa then .error (.panic "non-page-boundary address")
  else mapEntry v asp va pa prot pages

/-! ## The page walk of the CPU -/

structure Access where
  pa : Nat
  user : Bool
  write : Bool
  deriving DecidableEq, Repr

/-- An access is allowed what every entry on the way allows. A `PTE_PS` entry ends the walk early. -/
def walkFrom (mem : Nat → Nat) (va : Nat) : List PtInfo → Nat → Bool → Bool → Option Access
  | [], _, _, _ => none
  | info :: infos, pt, user, write =>
    let e := mem (pt + indexof va info * 8)
    let user := user && decide (e &&& pteU ≠ 0)
    let write := write && decide (e &&& pteW ≠ 0)
    if e &&& pteP = 0 then none
    else if infos.isEmpty ∨ e &&& ptePS ≠ 0 then
      some ⟨e / 2 ^ info.shift * 2 ^ info.shift + va % 2 ^ info.shift, user, write⟩
    else walkFrom mem va infos (baseof e) user write

def translate (mem : Nat → Nat) (cr3 va : Nat) : Option Access := walkFrom mem va pgtables.tail (baseof cr3) true true

/-! ## The machine -/

/-- What `start64.S` writes: one table of pages of 1 GiB. -/
def bootMem (mem : Nat → Nat) (a : Nat) : Nat :=
  if a = pml4Addr then pdptAddr ||| pteP ||| pteW
  else if pdptAddr ≤ a ∧ a < pdptAddr + pgsize ∧ a % 8 = 0 then
    ((a - pdptAddr) / 8) <<< 30 ||| pteP ||| pteW ||| ptePS
  else mem a

/-- `spaces` are the addresses of the `ptr` fields of the live `AddrSpace` structures. -/
structure Sys where
  vm : Vm
  spaces : List Nat

inductive Act
  | protect (asp : Nat) (pages : List Nat)
  | map (asp va pa prot : Nat) (pages : List Nat)
  | unprotect (asp : Nat)
  | write (a x : Nat)
  deriving DecidableEq

def Sys.boot (mem : Nat → Nat) : Sys := ⟨⟨bootMem mem, pml4Addr, []⟩, []⟩

def Vm.free (v : Vm) (p : Nat) : Prop := p ∉ v.used ∧ p ≠ pml4Addr ∧ p ≠ pdptAddr

instance (v : Vm) (p : Nat) : Decidable (v.free p) := inferInstanceAs (Decidable (_ ∧ _))

def Sys.fresh (s : Sys) (pages : List Nat) : Prop := pages.Nodup ∧ ∀ p ∈ pages, p ≠ 0 ∧ p % pgsize = 0 ∧
  p < 2 ^ 64 ∧ s.vm.free p ∧ ∀ asp ∈ s.spaces, asp / pgsize * pgsize ≠ p

instance (s : Sys) (pages : List Nat) : Decidable (s.fresh pages) := inferInstanceAs (Decidable (_ ∧ _))

/-- What the kernel and its allocator keep to. The rest of the kernel writes to memory that is neither a
table nor the `ptr` of a space. -/
def Sys.may (s : Sys) : Act → Prop
  | .protect asp pages => asp ∉ s.spaces ∧ asp % 8 = 0 ∧ s.vm.free (asp / pgsize * pgsize) ∧
    asp / pgsize * pgsize ∉ pages ∧ s.fresh pages
  | .map asp _ pa _ pages => asp ∈ s.spaces ∧ pa < 2 ^ 64 ∧ s.fresh pages
  | .unprotect asp => asp ∈ s.spaces
  | .write a _ => a % 8 = 0 ∧ a ∉ s.spaces ∧ s.vm.free (a / pgsize * pgsize)

instance (s : Sys) (a : Act) : Decidable (s.may a) :=
  a.casesOn (motive := fun a => Decidable (s.may a)) (fun _ _ => inferInstanceAs (Decidable (_ ∧ _)))
    (fun _ _ _ _ _ => inferInstanceAs (Decidable (_ ∧ _))) (fun asp => inferInstanceAs (Decidable (asp ∈ s.spaces)))
    (fun _ _ => inferInstanceAs (Decidable (_ ∧ _)))

def Sys.call (s : Sys) : Act → Except Halt Sys
  | .protect asp pages => do return { s with vm := ← X86.protect s.vm asp pages, spaces := asp :: s.spaces }
  | .map asp va pa prot pages => do return { s with vm := ← X86.map s.vm asp va pa prot pages }
  | .unprotect asp => do return { s with vm := ← X86.unprotect s.vm asp, spaces := s.spaces.erase asp }
  | .write a x => return { s with vm := s.vm.store a x }

def Sys.step (s : Sys) (a : Act) : Option Sys := if s.may a then (s.call a).toOption else none

end NjuOs.X86
