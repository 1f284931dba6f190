import NjuOs.Requests

/-!
# Checks that stop the machine

The `panic_on`s of `vfs.c` and `uproc.c` and the assertions of AM's `protect` and `map` that a step can run
into, each with the condition under which it fails. `Q` is what is to be shown of the check that fails.
-/

namespace NjuOs

def memoryPanics : List String :=
  ["vfs: out of memory (inode)", "vfs: out of memory (file grow)", "proc_alloc: out of memory",
   "proc_alloc: out of memory (maps)", "load: out of memory", "load: out of stack memory", "fork: out of memory"]

/-- Why the code that a step stands for does not return. -/
def OsSys.stop (A : Allocator) (s : OsSys) : OsAct → Option Halt
  | .schedule cpu ctx => errorOf (kmtSchedule s.k.toKmt cpu (s.frame cpu ctx))
  | .tick _ => none
  | .syscall cpu ctx now call => do
    let p ← s.user cpu
    let ctx ← s.callFrame cpu ctx call
    errorOf (doSyscall A s.k p ctx now call)
  | .pageFault cpu _ => do
    let p ← s.user cpu
    if (s.uctx cpu).redo ≠ none then none else errorOf (sysExit s.k p (-1))
  | .spawn bin len => errorOf (procSpawn A s.k bin len)

/-! ## Conditions -/

structure AmChecks (Q : String → Prop) (va pa : Nat) : Prop where
  range : ¬(userBase ≤ va ∧ va < userEnd) → Q "assertion: IN_RANGE(va, USER_SPACE)"
  va : va % pgsize ≠ 0 → Q "assertion: va % __am_pgsize == 0"
  pa : pa % pgsize ≠ 0 → Q "assertion: pa % __am_pgsize == 0"

structure PageChecks (Q : String → Prop) (A : Allocator) (n : Nat) (vas : List Nat) : Prop where
  full : procMaxmap < n + vas.length → Q "too many user mappings"
  am : ∀ va ∈ vas.take (procMaxmap - n), ∀ h pa, A.alloc h pgsize = some pa → AmChecks Q va pa

def MemoryChecks (Q : String → Prop) : Prop := ∀ msg ∈ memoryPanics, Q msg

def AllocChecks (Q : String → Prop) : Prop := MemoryChecks Q ∧ Q "assertion: h != NULL"

def DirChecks (Q : String → Prop) (v : Vfs) (path : CStr) : Prop :=
  ∀ r ∈ nameiParent v path, maxDirent ≤ (v.inodes r.1).ent.length → Q "vfs: directory full"

def TableChecks (Q : String → Prop) (k : Kernel) : Prop := maxproc ≤ k.ptable.length → Q "too many processes"

def VfsChecks (Q : String → Prop) (v : Vfs) : VfsCall → Prop
  | .sysOpen mem path flags =>
    (namei v path = none → flags &&& oCreate ≠ 0 → DirChecks Q v path) ∧ (mem = none → MemoryChecks Q)
  | .sysMkdir mem path => (namei v path = none → DirChecks Q v path) ∧ (mem = none → MemoryChecks Q)
  | .sysLink a b => (namei v a).isSome → DirChecks Q v b
  | .sysWrite mem _ _ _ => mem = none → MemoryChecks Q
  | _ => True

def CallChecks (Q : String → Prop) (A : Allocator) (k : Kernel) (p : TaskRef) : Syscall → Prop
  | .fork => TableChecks Q k ∧ PageChecks Q A 0 (k.tasks p).vas
  | .mmap addr length _ flags => 0 < length → flags ≠ mapUnmap →
    PageChecks Q A (k.tasks p).vas.length (mmapVas (k.tasks p) addr length)
  | .exec _ path => ∀ img ∈ execImage k (progName path.str), PageChecks Q A 0 (imageVas img.2)
  | .vfs c => VfsChecks Q k.vfs c
  | _ => True

def ActChecks (Q : String → Prop) (A : Allocator) (s : OsSys) : OsAct → Prop
  | .syscall c _ _ call => ∀ p ∈ s.user c, CallChecks Q A s.k p call
  | .spawn _ len => TableChecks Q s.k ∧ PageChecks Q A 0 (imageVas len)
  | _ => True

/-! ## Computations -/

/-- A check that the computation runs into has `Q`. -/
def Stops {α : Type} (Q : String → Prop) (x : Except Halt α) : Prop := ∀ msg, x = .error (.panic msg) → Q msg

section
variable {Q : String → Prop} {α β : Type}

@[grind .] theorem Stops.ok (a : α) : Stops Q (.ok a : Except Halt α) := fun _ h => nomatch h

@[grind .] theorem Stops.pure (a : α) : Stops Q (Pure.pure a : Except Halt α) := Stops.ok a

@[grind .] theorem Stops.undefined : Stops Q (.error .undefined : Except Halt α) := fun _ h => nomatch h

@[grind .] theorem Stops.diverge : Stops Q (.error .diverge : Except Halt α) := fun _ h => nomatch h

@[grind .] theorem Stops.halted (code : Int) : Stops Q (.error (.halted code) : Except Halt α) := fun _ h => nomatch h

@[grind ←] theorem Stops.panic {msg : String} (h : Q msg) : Stops Q (.error (.panic msg) : Except Halt α) := by
  intro m he
  cases he
  exact h

@[grind ←] theorem Stops.bind {x : Except Halt α} {f : α → Except Halt β} (hx : Stops Q x)
    (hf : ∀ a, x = .ok a → Stops Q (f a)) : Stops Q (x >>= f) := by
  cases x with
  | error e => intro msg he; exact hx msg (by cases he; rfl)
  | ok a => exact hf a rfl

@[grind .] theorem stops_intOf (x : Int) : Stops Q (intOf x) := by
  grind [intOf]

@[grind .] theorem stops_slice (d : List UInt8) (off n : Int) : Stops Q (slice d off n) := by
  grind [slice]

@[grind .] theorem stops_blit (d : List UInt8) (off : Int) (src : List UInt8) : Stops Q (blit d off src) := by
  grind [blit]

@[grind .] theorem stops_deref (k : Kmt) (t : TaskRef) : Stops Q (k.deref t) := by
  grind [Kmt.deref]

end

/-! ## The file system -/

section
variable {Q : String → Prop} {v : Vfs} {p : Files} {mem : Mem}

@[grind .] theorem stops_inodeOf (v : Vfs) (f : Nat) : Stops Q (inodeOf v f) := by
  grind [inodeOf]

@[grind .] theorem stops_advanceOff (v : Vfs) (f : Nat) (r : Int) : Stops Q (advanceOff v f r) := by
  grind [advanceOff]

theorem stops_ialloc (type : IType) (hmem : mem = none → MemoryChecks Q) : Stops Q (ialloc v mem type) := by
  cases mem with
  | none => exact Stops.panic (hmem rfl _ (by decide))
  | some m => exact Stops.ok _

theorem stops_growCap (need : Int) (fuel : Nat) (c : Int) : Stops Q (growCap need fuel c) := by
  induction fuel generalizing c with grind [growCap]

theorem stops_igrow (ip : Inode) (need : Int) (hmem : mem = none → MemoryChecks Q) : Stops Q (igrow ip mem need) := by
  unfold igrow
  split
  · exact Stops.pure _
  refine (stops_growCap _ _ _).bind fun c _ => ?_
  cases mem with
  | none => exact Stops.panic (hmem rfl _ (by decide))
  | some junk =>
    dsimp only
    split
    · exact Stops.pure _
    · exact (stops_slice _ _ _).bind fun _ _ => (stops_blit _ _ _).bind fun _ _ => Stops.pure _

theorem stops_dirAdd {dir ip : Nat} {name : List UInt8}
    (h : maxDirent ≤ (v.inodes dir).ent.length → Q "vfs: directory full") : Stops Q (dirAdd v dir name ip) := by
  grind [dirAdd]

/-- `ialloc` leaves the directory its entries, unless it is the inode that is made. -/
theorem stops_entry {v1 : Vfs} {dir ip : Nat} {name : List UInt8} {type : IType}
    (h : ialloc v mem type = .ok (v1, ip)) (hfull : maxDirent ≤ (v.inodes dir).ent.length → Q "vfs: directory full") :
    Stops Q (dirAdd v1 dir name ip) := by
  obtain ⟨-, rfl⟩ := ialloc_ok h
  refine stops_dirAdd fun hle => hfull ?_
  have hle : maxDirent ≤ ((v.setInode ip _).inodes dir).ent.length := hle
  by_cases hd : dir = ip
  · rw [hd, setInode_self] at hle
    cases hle
  · rwa [setInode_ne v _ hd] at hle

theorem stops_vfsOpen {path : CStr} {flags : Nat}
    (hfull : namei v path = none → flags &&& oCreate ≠ 0 → DirChecks Q v path) (hmem : mem = none → MemoryChecks Q) :
    Stops Q (vfsOpen v p mem path flags) := by
  refine Stops.bind ?_ fun r _ => ?_
  · unfold openInode
    split
    · exact Stops.ok _
    next hno =>
    split
    · exact Stops.ok _
    next hc =>
    split
    · exact Stops.ok _
    next dir name hpar =>
    split
    · exact Stops.ok _
    · refine (stops_ialloc _ hmem).bind fun r hr => ?_
      exact (stops_entry hr (hfull hno hc _ hpar)).bind fun _ _ => Stops.pure _
  · obtain ⟨v1, o⟩ := r
    cases o with
    | none => exact Stops.pure _
    | some ip =>
      grind

theorem stops_vfsMkdir {path : CStr} (hfull : namei v path = none → DirChecks Q v path)
    (hmem : mem = none → MemoryChecks Q) : Stops Q (vfsMkdir v mem path) := by
  unfold vfsMkdir
  split
  · exact Stops.ok _
  next hno =>
  split
  · exact Stops.ok _
  next dir name hpar =>
  split
  · exact Stops.ok _
  · refine (stops_ialloc _ hmem).bind fun r hr => ?_
    exact (stops_entry hr (hfull hno _ hpar)).bind fun _ _ => Stops.pure _

theorem stops_vfsLink {a b : CStr} (hfull : (namei v a).isSome → DirChecks Q v b) : Stops Q (vfsLink v a b) := by
  unfold vfsLink
  split
  · exact Stops.ok _
  next ip ha =>
  split
  · exact Stops.ok _
  split
  · exact Stops.ok _
  next dir name hpar =>
  exact (stops_dirAdd (hfull (by rw [ha]; rfl) _ hpar)).bind fun _ _ => Stops.pure _

theorem stops_vfsRead (e : ProcEnv) (fd n : Int) : Stops Q (vfsRead v p e fd n) := by
  unfold vfsRead
  split
  · exact Stops.pure _
  split
  · exact Stops.pure _
  refine (stops_inodeOf _ _).bind fun i _ => ?_
  dsimp only
  split <;> grind

theorem stops_vfsWrite (fd : Int) (buf : Nat → UInt8) (n : Int) (hmem : mem = none → MemoryChecks Q) :
    Stops Q (vfsWrite v p mem fd buf n) := by
  unfold vfsWrite
  split
  · exact Stops.pure _
  split
  · exact Stops.pure _
  refine (stops_inodeOf _ _).bind fun i _ => ?_
  dsimp only
  split <;> grind [writeFile, stops_igrow]

@[grind .] theorem stops_vfsLseek (fd off whence : Int) : Stops Q (vfsLseek v p fd off whence) := by
  grind [vfsLseek, seekBase]

@[grind .] theorem stops_vfsFstat (fd : Int) (st : Bool) : Stops Q (vfsFstat v p fd st) := by
  grind [vfsFstat]

end

/-! ## Pages -/

section
variable {Q : String → Prop} {A : Allocator} {k k1 k' : Kernel} {p : TaskRef} {n : Nat} {vas vas' sizes : List Nat}

theorem stops_allocOr {size : Nat} {msg : String} (hmem : ¬Served A k.heap (size :: sizes) → Q msg) :
    Stops Q (allocOr A k size msg) := by
  unfold allocOr pmmAlloc
  cases h : A.alloc k.heap size with
  | none => exact Stops.panic (hmem (not_served_none h))
  | some a => exact Stops.ok _

theorem stops_memory {size : Nat} {msg : String} (hmsg : msg ∈ memoryPanics)
    (hmem : ¬Served A k.heap (size :: sizes) → AllocChecks Q) : Stops Q (allocOr A k size msg) :=
  stops_allocOr fun hno => (hmem hno).1 msg hmsg

theorem PageChecks.rest (h : PageChecks Q A n (vas ++ vas')) : PageChecks Q A (n + vas.length) vas' where
  full := fun hle => h.full (by rw [List.length_append]; omega)
  am := fun va hva => h.am va (by
    rw [List.take_append, List.mem_append, Nat.sub_sub]
    exact Or.inr hva)

theorem Paged.checks (hp : Paged A p vas k k') (h : PageChecks Q A (k.tasks p).vas.length (vas ++ vas')) :
    PageChecks Q A (k'.tasks p).vas.length vas' := by
  rw [hp.vas, List.length_append]
  exact h.rest

theorem Paged.memory (hp : Paged A p vas k k')
    (h : ¬Served A k.heap (mapRequests (k.tasks p).addrSpace.keys (vas ++ vas')) → AllocChecks Q) :
    ¬Served A k'.heap (mapRequests (k'.tasks p).addrSpace.keys vas') → AllocChecks Q := by
  rw [← hp.served]
  exact h

theorem stops_upMap {va pa prot : Nat} {h : Heap} (hc : PageChecks Q A (k.tasks p).vas.length (va :: vas))
    (ha : A.alloc h pgsize = some pa) : Stops Q (upMap A k p va pa prot) := by
  unfold upMap
  have hlen : (k.tasks p).vas.length = (k.tasks p).maps.length := List.length_map ..
  split
  · next hfull => exact Stops.panic (hc.full (by rw [List.length_cons]; omega))
  next hroom =>
  split
  · exact Stops.undefined
  have ham : AmChecks Q va pa := by
    refine hc.am va ?_ h pa ha
    obtain ⟨m, hm⟩ : ∃ m, procMaxmap - (k.tasks p).vas.length = m + 1 := Nat.exists_eq_add_one.mpr (by omega)
    rw [hm]
    exact List.mem_cons_self
  unfold amMap
  split
  · next hr => exact Stops.panic (ham.range hr)
  split
  · next hv => exact Stops.panic (ham.va hv)
  split
  · next hp => exact Stops.panic (ham.pa hp)
  split
  · exact Stops.ok _
  split
  · exact Stops.undefined
  · exact Stops.ok _

theorem stops_page {va pa prot : Nat} {d : List UInt8} {β : Type} {f : Kernel → Except Halt β}
    (ha : pmmAlloc A k pgsize = (k1, some pa)) (hc : PageChecks Q A (k.tasks p).vas.length (va :: vas))
    (hf : ∀ k', Paged A p [va] k k' → Stops Q (f k')) : Stops Q (upMap A (k1.setPage pa d) p va pa prot >>= f) := by
  have hlen : ((k1.setPage pa d).tasks p).vas.length = (k.tasks p).vas.length := by
    have htasks := congrArg Kmt.tasks (memStep_alloc p ha).1
    exact congrArg (fun t => (t p).vas.length) htasks
  rw [← hlen] at hc
  exact (stops_upMap hc (pmmAlloc_some ha).1).bind fun k' hk' => hf k' (Paged.page ha hk')

@[grind .] theorem stops_imageChunk (bin : List UInt8) (len i : Nat) : Stops Q (imageChunk bin len i) := by
  grind [imageChunk]

theorem stops_loadPages {bin : List UInt8} {len : Nat} : ∀ (is : List Nat) (k : Kernel),
    PageChecks Q A (k.tasks p).vas.length (is.map (fun i => userBase + i * pgsize) ++ vas) →
    (¬Served A k.heap (mapRequests (k.tasks p).addrSpace.keys (is.map (fun i => userBase + i * pgsize) ++ vas)) →
      AllocChecks Q) → Stops Q (loadPages A bin len p is k)
  | [], k, _, _ => Stops.ok _
  | i :: is, k, hc, hmem => by
    refine (stops_memory (by decide) hmem).bind fun r hr => ?_
    refine (stops_imageChunk _ _ _).bind fun d _ => ?_
    exact stops_page (allocOr_ok hr) hc fun k' hk' => stops_loadPages is k' (hk'.checks hc) (hk'.memory hmem)

theorem stops_loadStack : ∀ (is : List Nat) (k : Kernel),
    PageChecks Q A (k.tasks p).vas.length (is.map fun i => userEnd - (i + 1) * pgsize) →
    (¬Served A k.heap (mapRequests (k.tasks p).addrSpace.keys (is.map fun i => userEnd - (i + 1) * pgsize)) →
      AllocChecks Q) → Stops Q (loadStack A p is k)
  | [], k, _, _ => Stops.ok _
  | i :: is, k, hc, hmem => by
    refine (stops_memory (by decide) hmem).bind fun r hr => ?_
    exact stops_page (allocOr_ok hr) hc fun k' hk' => stops_loadStack is k' (hk'.checks hc) (hk'.memory hmem)

theorem stops_forkPages : ∀ (ms : List Vmap) (k : Kernel), PageChecks Q A (k.tasks p).vas.length (ms.map Vmap.va) →
    (¬Served A k.heap (mapRequests (k.tasks p).addrSpace.keys (ms.map Vmap.va)) → AllocChecks Q) →
    Stops Q (forkPages A p ms k)
  | [], k, _, _ => Stops.ok _
  | m :: ms, k, hc, hmem => by
    refine (stops_memory (by decide) hmem).bind fun r hr => ?_
    exact stops_page (allocOr_ok hr) hc fun k' hk' => stops_forkPages ms k' (hk'.checks hc) (hk'.memory hmem)

theorem stops_mmapPages {base prot : Nat} : ∀ (is : List Nat) (k : Kernel),
    PageChecks Q A (k.tasks p).vas.length (is.map fun i => add64 base (i * pgsize)) →
    Stops Q (mmapPages A p base prot is k)
  | [], k, _ => Stops.ok _
  | i :: is, k, hc => by
    unfold mmapPages
    split
    · exact Stops.ok _
    · next k1 pa h1 => exact stops_page h1 hc fun k' hk' => stops_mmapPages is k' (hk'.checks hc)

/-! ## Processes -/

theorem stops_procLoadImage {bin : List UInt8} {len : Nat} (hvas : (k.tasks p).vas = [])
    (hkeys : (k.tasks p).addrSpace.keys = []) (hc : PageChecks Q A 0 (imageVas len))
    (hmem : ¬Served A k.heap (mapRequests [] (imageVas len)) → AllocChecks Q) :
    Stops Q (procLoadImage A k p bin len) := by
  have hc : PageChecks Q A (k.tasks p).vas.length (imageVas len) := by
    rw [hvas]
    exact hc
  rw [← hkeys] at hmem
  refine (stops_loadPages _ _ hc hmem).bind fun k1 h1 => ?_
  have hp := loadPages_paged h1
  exact stops_loadStack _ _ (hp.checks hc) (hp.memory hmem)

theorem stops_protect (hmem : ¬Served A k.heap (pgsize :: sizes) → AllocChecks Q) : Stops Q (protect A k p) :=
  (stops_allocOr fun hno => (hmem hno).2).bind fun _ _ => Stops.pure _

theorem stops_procAlloc (hmem : ¬Served A k.heap (taskBytes :: mapsBytes :: pgsize :: sizes) → AllocChecks Q) :
    Stops Q (procAlloc A k) := by
  refine (stops_memory (by decide) hmem).bind fun r hr => ?_
  rw [served_alloc (allocOr_ok hr)] at hmem
  refine (stops_memory (by decide) hmem).bind fun r hr => ?_
  rw [served_alloc (allocOr_ok hr)] at hmem
  refine (stops_intOf _).bind fun n _ => ?_
  refine Stops.bind ?_ fun _ _ => Stops.pure _
  exact stops_protect hmem

theorem stops_ptableAdd {t : TaskRef} (htab : TableChecks Q k) : Stops Q (ptableAdd k t) := by
  unfold ptableAdd
  split
  · next hfull => exact Stops.panic (htab hfull)
  · exact Stops.ok _

theorem stops_procSpawn {bin : List UInt8} {len : Nat} (htab : TableChecks Q k) (hc : PageChecks Q A 0 (imageVas len))
    (hmem : ¬Served A k.heap (procRequests (imageVas len)) → AllocChecks Q) : Stops Q (procSpawn A k bin len) := by
  refine (stops_procAlloc hmem).bind fun r hr => ?_
  obtain ⟨k1, t⟩ := r
  obtain ⟨n, _, rfl, hn⟩ := procAlloc_ok hr
  obtain ⟨hkeys, hs⟩ := procAlloc_served hr
  rw [procRequests, hs] at hmem
  refine (stops_procLoadImage (procAlloc_space hr).1 hkeys hc hmem).bind fun k2 h2 => ?_
  obtain ⟨_, hm⟩ := memStep_procLoadImage h2
  refine (stops_ptableAdd fun hle => htab ?_).bind fun _ _ => Stops.pure _
  rw [← hn.ptable, ← hm.ptable]
  exact hle

theorem stops_sysFork {ctx : Context} (hk : KernelInv k) (hp : p ∈ k.ptable) (htab : TableChecks Q k)
    (hc : PageChecks Q A 0 (k.tasks p).vas)
    (hmem : ¬Served A k.heap (procRequests (k.tasks p).vas) → AllocChecks Q) : Stops Q (sysFork A k p ctx) := by
  refine (stops_procAlloc hmem).bind fun r hr => ?_
  obtain ⟨k1, t⟩ := r
  obtain ⟨n, _, rfl, hn⟩ := procAlloc_ok hr
  obtain ⟨hkeys, hs⟩ := procAlloc_served hr
  rw [procRequests, hs] at hmem
  have hne : p ≠ .proc n := by
    rintro rfl
    have hlive := hk.own.struct_live hp
    exact hn.fresh _ hlive (hk.own.heapOk.pos _ hlive) rfl
  have hmaps : ((k1.modify (.proc n) fun x => { x with parent := some p }).tasks p).maps = (k.tasks p).maps := by
    rw [modify_tasks_ne hne, hn.other p hne]
  refine Stops.bind ?_ fun k3 h3 => ?_
  · rw [hmaps]
    refine stops_forkPages _ _ ?_ ?_
    · rw [modify_tasks_self]
      have hnil : (k1.tasks (.proc n)).vas = [] := (procAlloc_space hr).1
      show PageChecks Q A (k1.tasks (.proc n)).vas.length _
      rw [hnil]
      exact hc
    · rw [modify_tasks_self]
      show ¬Served A k1.heap (mapRequests (k1.tasks (.proc n)).addrSpace.keys _) → _
      rw [hkeys]
      exact hmem
  · obtain ⟨_, hm⟩ := memStep_forkPages h3
    refine (stops_ptableAdd fun hle => htab ?_).bind fun _ _ => Stops.pure _
    rw [← hn.ptable]
    have hle : maxproc ≤ k3.ptable.length := hle
    rwa [hm.ptable, modify_ptable] at hle

theorem stops_sysMmap {addr prot flags : Nat} {length : Int}
    (hc : 0 < length → flags ≠ mapUnmap → PageChecks Q A (k.tasks p).vas.length (mmapVas (k.tasks p) addr length)) :
    Stops Q (sysMmap A k p addr length prot flags) := by
  unfold sysMmap
  split
  · exact Stops.pure _
  next hlen =>
  dsimp only
  split
  · exact Stops.pure _
  next hf =>
  refine (stops_mmapPages _ _ (hc (by omega) hf)).bind fun r _ => ?_
  grind

theorem stops_sysExec {va : Nat} {path : CStr}
    (hc : ∀ img ∈ execImage k (progName path.str), PageChecks Q A 0 (imageVas img.2))
    (hmem : ¬Served A k.heap (callRequests k p (.exec va path)) → AllocChecks Q) :
    Stops Q (sysExec A k p va path) := by
  unfold sysExec
  rw [callRequests] at hmem
  split
  · exact Stops.pure _
  next hok =>
  rw [if_neg hok] at hmem
  split
  · exact Stops.pure _
  next bin len himg =>
  rw [himg] at hmem
  -- a refused table of mappings is noticed only where it is used
  have hmem : ¬Served A (pmmAlloc A k mapsBytes).1.heap (pgsize :: mapRequests [] (imageVas len)) → AllocChecks Q := by
    cases ha : A.alloc k.heap mapsBytes with
    | none => exact fun _ => hmem (not_served_none ha)
    | some m =>
      have hp : pmmAlloc A k mapsBytes = ((pmmAlloc A k mapsBytes).1, some m) := by
        rw [pmmAlloc, ha]
      rwa [← served_alloc hp]
  generalize pmmAlloc A k mapsBytes = r at hmem ⊢
  refine Stops.bind ?_ fun k2 h2 => ?_
  · exact stops_protect hmem
  obtain ⟨hkeys, hs⟩ := protect_served h2
  have hnil : (k2.tasks p).vas = [] := by
    rw [(protect_mapped h2).vas, modify_tasks_self]
    rfl
  refine (stops_procLoadImage hnil hkeys (hc _ himg) ?_).bind fun _ _ => Stops.pure _
  rw [← hs]
  exact hmem

@[grind .] theorem stops_zombify {status : Int} : Stops Q (zombify k p status) := by
  grind [zombify, wakeParent]

@[grind .] theorem stops_sysExit {status : Int} : Stops Q (sysExit k p status) := by
  grind [sysExit]

@[grind .] theorem stops_sysKill {pid : Int} : Stops Q (sysKill k p pid) := by
  grind [sysKill]

theorem stops_unlinkLoop (m : Kmt) (t : TaskRef) (fuel : Nat) (q : Option TaskRef) :
    Stops Q (unlinkLoop m t fuel q) := by
  induction fuel generalizing q with
  | zero => exact Stops.diverge
  | succ fuel ih => cases q <;> grind [unlinkLoop]

@[grind .] theorem stops_pmmFree (n : Nat) : Stops Q (pmmFree k n) := by
  grind [pmmFree]

theorem stops_freeMaps (ms : List Vmap) (k : Kernel) : Stops Q (freeMaps ms k) := by
  induction ms generalizing k with grind [freeMaps]

theorem stops_reapFree (c : TaskRef) : Stops Q (reapFree k c) := by
  grind [reapFree, procFreeMem, stops_freeMaps]

theorem stops_sysWait {ctx : Context} {va : Nat} : Stops Q (sysWait k p ctx va) := by
  grind [sysWait, tryReap, reapTeardown, kmtTeardown, stops_unlinkLoop, stops_reapFree]

end

/-! ## Steps -/

section
variable {Q : String → Prop} {A : Allocator} {s : OsSys} {a : OsAct}

theorem stops_vfsCall {v : Vfs} {p : Files} {c : VfsCall} (h : VfsChecks Q v c) : Stops Q (vfsCall v p c) := by
  cases c with
  | sysOpen mem path flags => exact stops_vfsOpen h.1 h.2
  | sysRead e fd n => exact (stops_vfsRead e fd n).bind fun _ _ => Stops.pure _
  | sysWrite mem fd buf n => exact (stops_vfsWrite fd buf n h).bind fun _ _ => Stops.pure _
  | sysClose fd => exact Stops.ok _
  | sysLseek fd off whence => exact (stops_vfsLseek fd off whence).bind fun _ _ => Stops.pure _
  | sysFstat fd st => exact (stops_vfsFstat fd st).bind fun _ _ => Stops.pure _
  | sysDup fd => exact Stops.ok _
  | sysMkdir mem path => exact (stops_vfsMkdir h.1 h.2).bind fun _ _ => Stops.pure _
  | sysLink x y => exact (stops_vfsLink h).bind fun _ _ => Stops.pure _
  | sysUnlink path => exact Stops.ok _
  | sysChdir path => exact Stops.ok _

theorem stops_doSyscall {k : Kernel} {p : TaskRef} {now : Nat} {f : Context} {call : Syscall} (hk : KernelInv k)
    (hp : p ∈ k.ptable) (hc : CallChecks Q A k p call)
    (hmem : ¬Served A k.heap (callRequests k p call) → AllocChecks Q) : Stops Q (doSyscall A k p f now call) := by
  cases call with
  | kputc ch => exact Stops.ok _
  | getpid => exact Stops.ok _
  | uptime => exact Stops.ok _
  | unknown num => exact Stops.ok _
  | mmap addr length prot flags => exact (stops_sysMmap hc).bind fun _ _ => Stops.pure _
  | fork => exact (stops_sysFork hk hp hc.1 hc.2 hmem).bind fun _ _ => Stops.pure _
  | kill pid => exact stops_sysKill.bind fun _ _ => Stops.pure _
  | exec va path =>
    refine (stops_sysExec hc hmem).bind fun r _ => ?_
    dsimp only
    split
    · exact Stops.pure _
    · exact Stops.pure _
  | exit status => exact stops_sysExit.bind fun _ _ => Stops.pure _
  | wait va => exact stops_sysWait
  | sleep n => exact Stops.ok _
  | vfs vc => exact (stops_vfsCall hc).bind fun _ _ => Stops.pure _

theorem stops_pickLoop {Q : String → Prop} (m : Kmt) (start : Option TaskRef) (steps : Nat) (t : Option TaskRef) :
    Stops Q (pickLoop m start steps t) := by
  induction steps generalizing t with
  | zero => exact Stops.ok _
  | succ steps ih => cases t <;> grind [pickLoop]

theorem stops_kmtSchedule {Q : String → Prop} (m : Kmt) (cpu : Nat) (ctx : Context) :
    Stops Q (kmtSchedule m cpu ctx) := by
  refine Stops.bind ?_ fun k1 _ => Stops.bind ?_ fun k2 _ => Stops.bind ?_ fun next _ => ?_
  · grind [releasePrev]
  · grind [saveCurrent]
  · unfold pickNext
    split
    · exact stops_pickLoop _ _ _ _
    · exact (stops_deref _ _).bind fun _ _ => stops_pickLoop _ _ _ _
  · exact (stops_deref _ _).bind fun _ _ => Stops.pure _

/-- The check that a step stops at. -/
theorem stops_step (hk : KernelInv s.k) (hc : ActChecks Q A s a)
    (hmem : ¬Served A s.k.heap (s.requests a) → AllocChecks Q) {msg : String} (h : s.stop A a = some (.panic msg)) :
    Q msg := by
  cases a with
  | schedule c ctx => exact stops_kmtSchedule s.k.toKmt c (s.frame c ctx) msg (errorOf_some h)
  | tick now => cases h
  | syscall c ctx now call =>
    obtain ⟨p, hu, h⟩ := Option.bind_eq_some_iff.mp h
    obtain ⟨f, -, h⟩ := Option.bind_eq_some_iff.mp h
    rw [OsSys.requests, hu] at hmem
    exact stops_doSyscall hk (hk.user_mem hu) (hc p hu) hmem msg (errorOf_some h)
  | pageFault c ctx =>
    obtain ⟨p, hu, h⟩ := Option.bind_eq_some_iff.mp h
    split at h
    · cases h
    · exact stops_sysExit msg (errorOf_some h)
  | spawn bin len => exact stops_procSpawn hc.1 hc.2 hmem msg (errorOf_some h)

end

end NjuOs
