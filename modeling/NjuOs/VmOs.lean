import NjuOs.Os
import NjuOs.NativeVme

/-!
# The kernel on the native machine (`uproc.c` over `am/src/native/{vme,cte}.c`)

An action of the running system together with the calls it makes to AM's VME. `up_map` records a page
in the table of the process before it calls `map`, and `exec` and `proc_alloc` call `protect` for the
space that they begin: the calls are read off the tables, and the answers of `pgalloc` off the nodes of the
space. `irq_handle` stores the current space in the trap frame and switches to the space of the context that
the handlers return.
-/

namespace NjuOs

structure VmSys where
  os : OsSys
  vm : Native.Sys

/-- The calls of `map` for the pages of a space. `nodes` are the nodes that they make, in this order, each
with the page that `pgalloc` gave for it. -/
def mapCalls (cpu h : Nat) : List Vmap → List (Nat × Nat) → List Native.Act
  | [], _ => []
  | m :: ms, [] => .map cpu h m.va m.pa m.prot none :: mapCalls cpu h ms []
  | m :: ms, n :: nodes =>
    if n.1 = m.va then .map cpu h m.va m.pa m.prot (some n.2) :: mapCalls cpu h ms nodes
    else .map cpu h m.va m.pa m.prot none :: mapCalls cpu h ms (n :: nodes)

def spaceCalls (cpu : Nat) (x : Task) : List Native.Act :=
  match x.addrSpace.ptr with
  | none => []
  | some h => .protect (some h) :: mapCalls cpu h x.maps x.addrSpace.nodes.reverse

def AddrSpace.since (s s' : AddrSpace) : List (Nat × Nat) :=
  (s'.nodes.take (s'.nodes.length - s.nodes.length)).reverse

def vmCalls (k k' : Kernel) (user : Nat → Option TaskRef) : OsAct → List Native.Act
  | .syscall cpu _ _ (.mmap ..) =>
    match user cpu with
    | none => []
    | some p =>
      match (k'.tasks p).addrSpace.ptr with
      | none => []
      | some h => mapCalls cpu h ((k'.tasks p).maps.drop (k.tasks p).maps.length)
          ((k.tasks p).addrSpace.since (k'.tasks p).addrSpace)
  | .syscall cpu _ _ (.exec ..) =>
    match user cpu with
    | none => []
    | some p =>
      if (k'.tasks p).addrSpace.ptr = (k.tasks p).addrSpace.ptr then [] else spaceCalls cpu (k'.tasks p)
  | .syscall cpu _ _ .fork =>
    match k'.ptable.getLast? with
    | none => []
    | some t => spaceCalls cpu (k'.tasks t)
  | .spawn .. =>
    match k'.ptable.getLast? with
    | none => []
    | some t => spaceCalls 0 (k'.tasks t)
  | _ => []

/-- `__am_switch(c)` at the end of `irq_handle`. After a call that asks for a switch `kmt_schedule`
comes first. -/
def trapReturn (s : OsSys) : OsAct → List Native.Act
  | .schedule cpu _ => [.switch cpu (s.uctx cpu).vmHead]
  | .syscall cpu .. => if s.resched cpu = true then [] else [.switch cpu (s.uctx cpu).vmHead]
  | _ => []

/-- `c->vm_head = thiscpu->vm_head` -/
def trapEntry (vm : Native.Sys) : OsAct → Bool
  | .schedule cpu ctx => ctx.vmHead = vm.vme.vmHead cpu
  | .syscall cpu ctx _ _ => ctx.vmHead = vm.vme.vmHead cpu
  | .pageFault cpu ctx => ctx.vmHead = vm.vme.vmHead cpu
  | _ => true

def VmSys.step (A : Allocator) (s : VmSys) (a : OsAct) : Option VmSys :=
  if trapEntry s.vm a = true then do
    let os ← s.os.step A a
    let vm ← run Native.Sys.step s.vm (vmCalls s.os.k os.k s.os.user a ++ trapReturn os a)
    return ⟨os, vm⟩
  else none

def VmSys.boot (k : Kernel) : Option VmSys :=
  match k.ptable.getLast? with
  | none => none
  | some t => do
    let vm ← run Native.Sys.step Native.Sys.boot (.vmeInit :: spaceCalls 0 (k.tasks t))
    return ⟨OsSys.boot k, vm⟩

end NjuOs
