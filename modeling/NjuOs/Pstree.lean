import Mathlib.Data.List.Sort
import NjuOs.CBase

/-!
# The process tree (`pstree.c`)

A snapshot is the list of the processes as `scan_procs` has read them. `children` is kept
apart from the rest of `proc_t`, which does not change. The recursive functions take the
depth of the recursion they may use; `none` is a recursion that goes deeper.
-/

namespace NjuOs

structure Proc where
  pid : Int
  ppid : Int
  name : List UInt8
  pid_nonneg : 0 ≤ pid
  pid_lt : pid < 2 ^ 31
  name_nul : 0 ∉ name

structure PsOpts where
  showPids : Bool
  numeric : Bool

/-! ## The tree -/

section
variable (procs : List Proc)

/-- `procs[i]` -/
def procAt (i : Nat) : Proc := procs.getD i ⟨0, 0, [], Int.le_refl 0, by decide, List.not_mem_nil⟩

def findIndex (pid : Int) : Option Nat := procs.findIdx? (·.pid = pid)

def addChild (children : Nat → List Nat) (parent childIdx : Nat) : Nat → List Nat :=
  Function.update children parent (children parent ++ [childIdx])

def linkProc (t : (Nat → List Nat) × List Nat) (i : Nat) : (Nat → List Nat) × List Nat :=
  match findIndex procs (procAt procs i).ppid with
  | some pi => if (procAt procs i).ppid ≠ (procAt procs i).pid then (addChild t.1 pi i, t.2) else (t.1, t.2 ++ [i])
  | none => (t.1, t.2 ++ [i])

def buildTree : (Nat → List Nat) × List Nat := (List.range procs.length).foldl (linkProc procs) (fun _ => [], [])

/-! ## Order -/

def strcmp : List UInt8 → List UInt8 → Int
  | [], [] => 0
  | [], b :: _ => 0 - b.toNat
  | a :: _, [] => a.toNat - 0
  | a :: as, b :: bs => if a = b then strcmp as bs else (a.toNat : Int) - b.toNat

def cmpByName (ia ib : Nat) : Int :=
  let c := strcmp (procAt procs ia).name (procAt procs ib).name
  if c ≠ 0 then c else i32 ((procAt procs ia).pid - (procAt procs ib).pid)

def cmpByPid (ia ib : Nat) : Int := i32 ((procAt procs ia).pid - (procAt procs ib).pid)

def qsort (cmp : Nat → Nat → Int) (l : List Nat) : List Nat := l.insertionSort fun a b => cmp a b ≤ 0

def cmpBy (numeric : Bool) : Nat → Nat → Int := if numeric then cmpByPid procs else cmpByName procs

def sortChildren (numeric : Bool) : Nat → Nat → (Nat → List Nat) → Option (Nat → List Nat)
  | 0, _, _ => none
  | fuel + 1, idx, children =>
    let children :=
      if 1 < (children idx).length then
        Function.update children idx (qsort (cmpBy procs numeric) (children idx))
      else children
    (List.range (children idx).length).foldlM
      (fun children i => sortChildren numeric fuel ((children idx).getD i 0) children) children

/-! ## Output -/

def corner : List UInt8 := [0xe2, 0x94, 0x94, 0xe2, 0x94, 0x80, 32]
def tee : List UInt8 := [0xe2, 0x94, 0x9c, 0xe2, 0x94, 0x80, 32]
def bar : List UInt8 := [0xe2, 0x94, 0x82, 32, 32]
def blanks : List UInt8 := [32, 32, 32]

structure PsLine where
  idx : Nat
  text : List UInt8

def psLine (o : PsOpts) (idx : Nat) (pre : List UInt8) (isLast isRoot : Bool) : PsLine :=
  let p := procAt procs idx
  ⟨idx, (if isRoot then p.name else pre ++ (if isLast then corner else tee) ++ p.name) ++
    (if o.showPids then 40 :: bytes (toString p.pid) ++ [41] else []) ++ [10]⟩

/-- `snprintf` into `child_prefix` -/
def childPrefix (pre : List UInt8) (isLast isRoot : Bool) : List UInt8 :=
  if isRoot then [] else (pre ++ if isLast then blanks else bar).take 4095

def printTree (o : PsOpts) (children : Nat → List Nat) : Nat → Nat → List UInt8 → Bool → Bool → Option (List PsLine)
  | 0, _, _, _, _ => none
  | fuel + 1, idx, pre, isLast, isRoot => do
    let nchild := (children idx).length
    let below ← (List.range nchild).mapM fun i =>
      printTree o children fuel ((children idx).getD i 0) (childPrefix pre isLast isRoot) (i = nchild - 1) false
    return psLine procs o idx pre isLast isRoot :: below.flatten

/-- `main`, behind `scan_procs`. -/
def pstree (o : PsOpts) (fuel : Nat) : Option (List PsLine) := do
  let (children, roots) := buildTree procs
  let roots := qsort (cmpBy procs o.numeric) roots
  let children ← roots.foldlM (fun children r => sortChildren procs o.numeric fuel r children) children
  let trees ← roots.mapM fun r => printTree procs o children fuel r [] true true
  return trees.flatten

end

end NjuOs
