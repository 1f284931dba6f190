import NjuOs.CBase
import NjuOs.Runs

/-!
# The physical memory allocator (`pmm.c`)

A buddy allocator over the pages of `[data_start, data_end)` and per-CPU slab lists on
top of it. Intrusive free lists are lists of addresses; the descriptor table, which
the code puts at the front of the heap, is a function of the page number.
-/

namespace NjuOs

open Function

def pageSize : Nat := 4096
def maxOrder : Nat := 16
def maxCpu : Nat := 16
def nclass : Nat := 9

/-- `class_size[cls]` -/
def classSize (cls : Nat) : Nat := [8, 16, 32, 64, 128, 256, 512, 1024, 2048].getD cls 0

/-- A heap area as the machine hands it over. Both platforms put it low in the address
space (`native` maps 128 MiB at 0x1000000, `qemu` reads a 32-bit size), in any case at
least one largest block below the top. -/
structure Area where
  start : Nat
  stop : Nat
  le : start ≤ stop
  top : stop + pageSize <<< maxOrder ≤ 2 ^ 64

inductive PgKind
  | free
  | buddy
  | slab
  deriving DecidableEq, Repr

structure PageDesc where
  kind : PgKind
  order : Nat
  objSize : Nat
  deriving DecidableEq, Repr

structure Pmm where
  dataStart : Nat
  dataEnd : Nat
  totalPages : Nat
  freeLists : Nat → List Nat
  pgtab : Nat → PageDesc
  /-- `caches[cpu].free[cls]` -/
  caches : Nat → Nat → List Nat

/-! ## Sizes -/

/-- The loop of `next_pow2`. The shift drops the top bit, so above `2 ^ 63` the loop
reaches 0 after 64 rounds and never ends; 65 rounds decide it. -/
def nextPow2Loop (n : Nat) : Nat → Nat → Option Nat
  | 0, _ => none
  | fuel + 1, p => if p < n then nextPow2Loop n fuel (mul64 p 2) else some p

def nextPow2 (n : Nat) : Option Nat := nextPow2Loop n 65 1

def sizeToOrderLoop (need : Nat) : Nat → Nat → Nat → Nat
  | 0, _, order => order
  | fuel + 1, block, order =>
    if block < need then sizeToOrderLoop need fuel (block * 2) (order + 1) else order

def sizeToOrder (size : Nat) : Nat :=
  sizeToOrderLoop (if size < pageSize then pageSize else size) maxOrder pageSize 0

def classFor (s : Nat) : Option Nat := (List.range nclass).find? fun i => s ≤ classSize i

/-- `some none` is the return value -1; `none` means that `next_pow2` never returns. -/
def sizeToClass (size : Nat) : Option (Option Nat) :=
  (nextPow2 (if size < 8 then 8 else size)).map classFor

/-! ## Buddy lists -/

def Pmm.setList (s : Pmm) (order : Nat) (l : List Nat) : Pmm :=
  { s with freeLists := update s.freeLists order l }

def buddyPush (s : Pmm) (order blk : Nat) : Pmm := s.setList order (blk :: s.freeLists order)

/-- `while (k <= MAX_ORDER && !free_lists[k]) k++` -/
def firstNonempty (s : Pmm) : Nat → Nat → Nat
  | 0, k => k
  | fuel + 1, k => if s.freeLists k = [] then firstNonempty s fuel (k + 1) else k

def splitDown (order blk : Nat) : Nat → Pmm → Pmm
  | 0, s => s
  | k + 1, s =>
    if order < k + 1 then splitDown order blk k (buddyPush s k (blk + pageSize <<< k)) else s

def buddyAlloc (s : Pmm) (order : Nat) : Pmm × Option Nat :=
  let k := firstNonempty s (maxOrder + 1 - order) order
  if maxOrder < k then (s, none)
  else
    match s.freeLists k with
    | [] => (s, none)
    | blk :: rest => (splitDown order blk k (s.setList k rest), some blk)

/-- `((addr - data_start) ^ bsize) + data_start` -/
def buddyOf (s : Pmm) (order addr : Nat) : Nat :=
  add64 (sub64 addr s.dataStart ^^^ pageSize <<< order) s.dataStart

def coalesce : Nat → Pmm → Nat → Nat → Pmm × Nat × Nat
  | 0, s, order, addr => (s, order, addr)
  | fuel + 1, s, order, addr =>
    if buddyOf s order addr ∈ s.freeLists order then
      coalesce fuel (s.setList order ((s.freeLists order).erase (buddyOf s order addr))) (order + 1)
        (if buddyOf s order addr < addr then buddyOf s order addr else addr)
    else (s, order, addr)

def buddyFree (s : Pmm) (order blk : Nat) : Pmm :=
  let r := coalesce (maxOrder - order) s order blk
  buddyPush r.1 r.2.1 r.2.2

/-! ## Descriptors and slabs -/

/-- The index of `desc_of(ptr)`. -/
def descOf (s : Pmm) (ptr : Nat) : Nat := sub64 ptr s.dataStart / pageSize

def Pmm.setDesc (s : Pmm) (i : Nat) (d : PageDesc) : Pmm :=
  { s with pgtab := update s.pgtab i d }

def Pmm.setCache (s : Pmm) (cpu cls : Nat) (l : List Nat) : Pmm :=
  { s with caches := update s.caches cpu (update (s.caches cpu) cls l) }

def cells (page cls : Nat) : List Nat :=
  (List.range (pageSize / classSize cls)).map fun i => page + i * classSize cls

def slabCarve (s : Pmm) (cpu cls page : Nat) : Pmm :=
  let i := descOf s page
  let s := s.setDesc i { s.pgtab i with kind := .slab, objSize := classSize cls }
  s.setCache cpu cls ((cells page cls).reverse ++ s.caches cpu cls)

def slabRefill (s : Pmm) (cpu cls : Nat) : Pmm :=
  match buddyAlloc s 0 with
  | (s, none) => s
  | (s, some page) => slabCarve s cpu cls page

def slabPop (s : Pmm) (cpu cls : Nat) : Pmm × Option Nat :=
  match s.caches cpu cls with
  | [] => (s, none)
  | b :: rest => (s.setCache cpu cls rest, some b)

/-! ## The interface -/

def kallocLarge (s : Pmm) (size : Nat) : Pmm × Option Nat :=
  match buddyAlloc s (sizeToOrder size) with
  | (s, none) => (s, none)
  | (s, some blk) =>
    let i := descOf s blk
    (s.setDesc i { s.pgtab i with kind := .buddy, order := sizeToOrder size }, some blk)

/-- `kalloc` on `cpu`; `none` when the call never returns, a `none` pointer is `NULL`. -/
def kalloc (s : Pmm) (cpu size : Nat) : Option (Pmm × Option Nat) :=
  if size = 0 then some (s, none)
  else
    match sizeToClass size with
    | none => none
    | some (some cls) =>
      some (slabPop (if s.caches cpu cls = [] then slabRefill s cpu cls else s) cpu cls)
    | some none => some (kallocLarge s size)

/-- `ptr & ~(PAGE_SIZE - 1)` -/
def pageOf (ptr : Nat) : Nat := ptr / pageSize * pageSize

def kfree (s : Pmm) (cpu ptr : Nat) : Option Pmm :=
  if ptr = 0 then some s
  else
    let i := descOf s (pageOf ptr)
    match (s.pgtab i).kind with
    | .slab =>
      match sizeToClass (s.pgtab i).objSize with
      | some (some cls) => some (s.setCache cpu cls (ptr :: s.caches cpu cls))
      | _ => none
    | .buddy => some (buddyFree (s.setDesc i { s.pgtab i with kind := .free }) (s.pgtab i).order ptr)
    | .free => some s

/-! ## Initialisation -/

def descBytes : Nat := 12

def dataStartOf (h : Area) : Nat :=
  let tabBytes := mul64 ((h.stop - h.start) / pageSize) descBytes
  pageOf (sub64 (add64 (add64 h.start tabBytes) pageSize) 1)

def dataEndOf (h : Area) : Nat := pageOf h.stop

def seedOrder (dataStart dataEnd cur : Nat) : Nat → Nat
  | 0 => 0
  | order + 1 =>
    if add64 cur (pageSize <<< (order + 1)) ≤ dataEnd ∧
        sub64 cur dataStart % pageSize <<< (order + 1) = 0 then order + 1
    else seedOrder dataStart dataEnd cur order

/-- The seeding loop; each round takes at least one page, so `fuel` is the page count. -/
def seed : Nat → Pmm → Nat → Pmm
  | 0, s, _ => s
  | fuel + 1, s, cur =>
    if cur < s.dataEnd then
      let order := seedOrder s.dataStart s.dataEnd cur maxOrder
      seed fuel (buddyPush s order cur) (add64 cur (pageSize <<< order))
    else s

def pmmInit (h : Area) : Pmm :=
  let total := sub64 (dataEndOf h) (dataStartOf h) / pageSize
  seed total
    { dataStart := dataStartOf h
      dataEnd := dataEndOf h
      totalPages := total
      freeLists := fun _ => []
      pgtab := fun _ => ⟨.free, 0, 0⟩
      caches := fun _ _ => [] }
    (dataStartOf h)

def Area.room (h : Area) : Prop := dataStartOf h + pageSize ≤ dataEndOf h

/-! ## The allocator as a system

Buddy critical sections and per-CPU slab operations are atomic. A `kalloc` that finds
its list empty takes two steps: the locked section of `slab_refill`, then the carving
and the pop; other CPUs may move in between. -/

inductive Ext
  | buddy (order : Nat)
  | slab (cls : Nat)
  deriving DecidableEq, Repr

structure PmmSys where
  pmm : Pmm
  /-- `(cpu, cls, page)`: pages taken by `slab_refill` and not carved yet -/
  carving : List (Nat × Nat × Nat)
  /-- blocks returned by `kalloc` and not freed -/
  live : List (Nat × Ext)
  /-- `(page, cls)` of every carved page -/
  slabs : List (Nat × Nat)

inductive PmmAct
  | kalloc (cpu size : Nat)
  | carve (cpu cls page : Nat)
  | kfree (cpu ptr : Nat)
  deriving DecidableEq, Repr

def PmmSys.init (h : Area) : PmmSys := ⟨pmmInit h, [], [], []⟩

def PmmSys.addLive (s : PmmSys) (r : Pmm × Option Nat) (e : Ext) : PmmSys :=
  match r with
  | (p, none) => { s with pmm := p }
  | (p, some b) => { s with pmm := p, live := (b, e) :: s.live }

/-- `kfree` may only be handed a live block (or `NULL`). -/
def PmmSys.step (s : PmmSys) : PmmAct → Option PmmSys
  | .kalloc cpu size =>
    if maxCpu ≤ cpu ∨ s.carving.any (·.1 = cpu) then none
    else if size = 0 then some s
    else
      match sizeToClass size with
      | none => none
      | some (some cls) =>
        if s.pmm.caches cpu cls = [] then
          match buddyAlloc s.pmm 0 with
          | (p, none) => some { s with pmm := p }
          | (p, some page) => some { s with pmm := p, carving := (cpu, cls, page) :: s.carving }
        else some (s.addLive (slabPop s.pmm cpu cls) (.slab cls))
      | some none => some (s.addLive (kallocLarge s.pmm size) (.buddy (sizeToOrder size)))
  | .carve cpu cls page =>
    if (cpu, cls, page) ∈ s.carving then
      let s := { s with
        pmm := slabCarve s.pmm cpu cls page
        carving := s.carving.erase (cpu, cls, page)
        slabs := (page, cls) :: s.slabs }
      some (s.addLive (slabPop s.pmm cpu cls) (.slab cls))
    else none
  | .kfree cpu ptr =>
    if maxCpu ≤ cpu ∨ s.carving.any (·.1 = cpu) then none
    else if ptr = 0 then some s
    else
      match s.live.find? (·.1 = ptr) with
      | none => none
      | some l => (kfree s.pmm cpu ptr).map fun p => { s with pmm := p, live := s.live.erase l }

end NjuOs
