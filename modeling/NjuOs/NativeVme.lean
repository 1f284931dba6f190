import NjuOs.Uproc
import NjuOs.Runs

/-!
# Address spaces of the native machine (`am/src/native/vme.c`)

A CPU is a process of the host with mappings of its own (`host`); the nodes of an address space lie
in the memory that all CPUs share. `unprotect` does nothing, so that pages once used for a `VMHead`
or a node are never handed out again. `log` only records the calls of `map` on each space.
-/

namespace NjuOs.Native

open Function

structure PageMap where
  va : Nat
  pa : Nat
  next : Option Nat
  prot : Nat
  isMapped : Bool

/-- `hash` holds the keys that were entered, each with its node. -/
structure VmHead where
  head : Option Nat
  hash : List (Nat × Nat)
  nrPage : Nat

/-- A page of the host; one that can be read can be executed. -/
structure HostPage where
  pa : Nat
  read : Bool
  write : Bool
  deriving DecidableEq, Repr

structure Vme where
  nodes : Nat → PageMap
  used : List Nat
  spaces : Nat → VmHead
  heads : List Nat
  vmeEnable : Bool
  /-- `thiscpu->vm_head` -/
  vmHead : Nat → Option Nat
  host : Nat → Nat → Option HostPage

/-- `snprintf(buf, 32, "%x", va)` prints the low 32 bits. -/
def key (va : Nat) : Nat := va % 2 ^ 32

def maxPg : Nat := (userEnd - userBase) / pgsize

def hostPage (pa prot : Nat) : HostPage := ⟨pa, prot &&& mmapRead ≠ 0, prot &&& mmapWrite ≠ 0⟩

def Vme.setHost (n : Vme) (cpu va : Nat) (x : Option HostPage) : Vme :=
  { n with host := update n.host cpu (update (n.host cpu) va x) }

def Vme.setNode (n : Vme) (p : Nat) (x : PageMap) : Vme := { n with nodes := update n.nodes p x }

def Vme.setSpace (n : Vme) (h : Nat) (x : VmHead) : Vme := { n with spaces := update n.spaces h x }

/-! ## Switching -/

/-- `list_foreach`; a walk over more nodes than there are never ends. -/
def listForeach (f : Vme → Nat → Except Halt Vme) : Nat → Option Nat → Vme → Except Halt Vme
  | _, none, n => .ok n
  | 0, some _, _ => .error .diverge
  | fuel + 1, some p, n => do
    let n' ← f n p
    listForeach f fuel (n'.nodes p).next n'

def unmapNode (cpu : Nat) (n : Vme) (p : Nat) : Except Halt Vme :=
  let x := n.nodes p
  if x.isMapped then .ok ((n.setHost cpu x.va none).setNode p { x with isMapped := false }) else .ok n

def mapNode (cpu : Nat) (n : Vme) (p : Nat) : Except Halt Vme :=
  let x := n.nodes p
  if ¬(userBase ≤ x.va ∧ x.va < userEnd) then .error (.panic "assertion: IN_RANGE(pp->va, USER_SPACE)")
  else .ok ((n.setHost cpu x.va (some (hostPage x.pa x.prot))).setNode p { x with isMapped := true })

def forSpace (f : Vme → Nat → Except Halt Vme) (n : Vme) : Option Nat → Except Halt Vme
  | none => .ok n
  | some h => listForeach f n.used.length (n.spaces h).head n

def amSwitch (n : Vme) (cpu : Nat) (head : Option Nat) : Except Halt Vme :=
  if n.vmeEnable = false then .ok n
  else if head = n.vmHead cpu then .ok n
  else do
    let n ← forSpace (unmapNode cpu) n (n.vmHead cpu)
    let n ← forSpace (mapNode cpu) n head
    return { n with vmHead := update n.vmHead cpu head }

/-! ## Mapping -/

def vmeInit (n : Vme) : Vme := { n with vmeEnable := true }

/-- `page` is the answer of `pgalloc`. -/
def protect (n : Vme) (page : Option Nat) : Except Halt Vme :=
  match page with
  | none => .error (.panic "assertion: h != NULL")
  | some h => .ok { n.setSpace h ⟨none, [], 0⟩ with heads := h :: n.heads }

def findNode (n : Vme) (h va : Nat) (page : Option Nat) : Except Halt (Vme × Nat) :=
  let x := n.spaces h
  match x.hash.find? (·.1 = key va) with
  | some e => .ok (n, e.2)
  | none =>
    match page with
    | none => .error .undefined
    | some p =>
      if maxPg ≤ x.hash.length then .error (.panic "assertion: ret != 0")
      else
        .ok ({ n.setSpace h { x with hash := (key va, p) :: x.hash, nrPage := x.nrPage + 1 } with used := p :: n.used },
          p)

/-- The node is filled in and put at the head of the list; in the current space the page is mapped at once. -/
def linkNode (n : Vme) (cpu h p va pa prot : Nat) : Vme :=
  let n := n.setNode p ⟨va, pa, (n.spaces h).head, prot, false⟩
  let n := n.setSpace h { n.spaces h with head := some p }
  if n.vmHead cpu = some h then
    let n := n.setHost cpu va (some (hostPage pa prot))
    n.setNode p { n.nodes p with isMapped := true }
  else n

def map (n : Vme) (cpu h va pa prot : Nat) (page : Option Nat) : Except Halt Vme :=
  if ¬(userBase ≤ va ∧ va < userEnd) then .error (.panic "assertion: IN_RANGE(va, USER_SPACE)")
  else if va % pgsize ≠ 0 then .error (.panic "assertion: va % __am_pgsize == 0")
  else if pa % pgsize ≠ 0 then .error (.panic "assertion: pa % __am_pgsize == 0")
  else do
    let (n, p) ← findNode n h va page
    return linkNode n cpu h p va pa prot

/-! ## The machine -/

structure Sys where
  vme : Vme
  log : Nat → List Vmap

inductive Act
  | vmeInit
  | protect (page : Option Nat)
  | map (cpu h va pa prot : Nat) (page : Option Nat)
  | switch (cpu : Nat) (head : Option Nat)
  deriving DecidableEq

def Vme.boot : Vme where
  nodes := fun _ => ⟨0, 0, none, 0, false⟩
  used := []
  spaces := fun _ => ⟨none, [], 0⟩
  heads := []
  vmeEnable := false
  vmHead := fun _ => none
  host := fun _ _ => none

def Sys.boot : Sys := ⟨Vme.boot, fun _ => []⟩

def Vme.fresh (n : Vme) (page : Option Nat) : Bool := page.all fun p => p ∉ n.used ∧ p ∉ n.heads

def Sys.step (s : Sys) : Act → Option Sys
  | .vmeInit => some { s with vme := NjuOs.Native.vmeInit s.vme }
  | .protect page =>
    if s.vme.fresh page then (NjuOs.Native.protect s.vme page).toOption.map fun n => { s with vme := n } else none
  | .map cpu h va pa prot page =>
    if h ∈ s.vme.heads ∧ s.vme.fresh page then
      (NjuOs.Native.map s.vme cpu h va pa prot page).toOption.map fun n =>
        ⟨n, update s.log h (s.log h ++ [⟨va, pa, prot⟩])⟩
    else none
  | .switch cpu head =>
    if head.all (· ∈ s.vme.heads) then (amSwitch s.vme cpu head).toOption.map fun n => { s with vme := n } else none

end NjuOs.Native
