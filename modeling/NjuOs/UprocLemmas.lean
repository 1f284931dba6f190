import NjuOs.Bags
import NjuOs.KmtSound
import NjuOs.Uproc

/-!
# What the parts of a system call change

`MemStep` collects everything that loading, mapping and the file calls do to the kernel:
one task's memory and files, and blocks taken from the allocator. `Born` describes a
process that has been added, `Died` one that has become a zombie.
-/

namespace NjuOs

open Function List

section
variable {k : Kernel} {t u : TaskRef} {f : Task → Task}

@[simp] theorem modify_tasks_self : (k.modify t f).tasks t = f (k.tasks t) := update_self ..

theorem modify_tasks_ne (h : u ≠ t) : (k.modify t f).tasks u = k.tasks u := update_of_ne h ..

@[simp] theorem modify_ptable : (k.modify t f).ptable = k.ptable := rfl
@[simp] theorem modify_heap : (k.modify t f).heap = k.heap := rfl

theorem modify_field {β : Type*} (g : Task → β) (h : g (f (k.tasks t)) = g (k.tasks t)) (u : TaskRef) :
    g ((k.modify t f).tasks u) = g (k.tasks u) := by
  by_cases hu : u = t
  · subst hu; rw [modify_tasks_self, h]
  · rw [modify_tasks_ne hu]

end

/-! ## The heap -/

structure HeapOk (h : Heap) : Prop where
  pos : ∀ b ∈ h.live, 0 < b.2
  apart : h.live.Pairwise fun a b => a.1 + a.2 ≤ b.1 ∨ b.1 + b.2 ≤ a.1

theorem HeapOk.alloc {A : Allocator} {h : Heap} {size a : Nat} (hh : HeapOk h) (ha : A.alloc h size = some a)
    (calls : Nat) : HeapOk ⟨(a, size) :: h.live, calls⟩ where
  pos := by
    intro b hb
    rcases mem_cons.mp hb with rfl | hb
    · exact A.pos ha
    · exact hh.pos b hb
  apart := List.Pairwise.cons (fun b hb => A.apart ha b hb) hh.apart

theorem HeapOk.addr_inj {h : Heap} (hh : HeapOk h) : ∀ b ∈ h.live, ∀ b' ∈ h.live, b.1 = b'.1 → b = b' := by
  intro b hb b' hb' he
  by_contra hne
  have : Std.Symm fun a b : Nat × Nat => a.1 + a.2 ≤ b.1 ∨ b.1 + b.2 ≤ a.1 := ⟨fun _ _ h => h.symm⟩
  have hp := hh.apart.forall hb hb' hne
  have h1 := hh.pos b hb
  have h2 := hh.pos b' hb'
  omega

theorem HeapOk.nodup {h : Heap} (hh : HeapOk h) : h.live.Nodup := by
  refine hh.apart.imp_of_mem ?_
  intro a b ha _ hab he
  subst he
  have := hh.pos a ha
  omega

/-- What a process owns besides its task struct: the table of mappings and the pages in it. -/
def owned (x : Task) : Multiset (Nat × Nat) :=
  (x.mapsPtr.toList.map fun m => (m, mapsBytes) : List (Nat × Nat)) + x.maps.map fun m => (m.pa, pgsize)

/-! ## Memory and files of one task -/

def Task.core (x : Task) : Task :=
  { x with
    context := blankContext
    addrSpace := ⟨none, []⟩
    mapsPtr := none
    maps := []
    heapTop := 0
    files := zeroTask.files }

structure Frame (k k' : Kernel) : Prop where
  live : k'.live = k.live
  taskList : k'.taskList = k.taskList
  current : k'.current = k.current
  prevTask : k'.prevTask = k.prevTask
  nlink : k'.nlink = k.nlink
  ptable : k'.ptable = k.ptable
  nextPid : k'.nextPid = k.nextPid
  initproc : k'.initproc = k.initproc

theorem Frame.refl (k : Kernel) : Frame k k := ⟨rfl, rfl, rfl, rfl, rfl, rfl, rfl, rfl⟩

theorem Frame.trans {k k' k'' : Kernel} (h : Frame k k') (h' : Frame k' k'') : Frame k k'' where
  live := h'.live.trans h.live
  taskList := h'.taskList.trans h.taskList
  current := h'.current.trans h.current
  prevTask := h'.prevTask.trans h.prevTask
  nlink := h'.nlink.trans h.nlink
  ptable := h'.ptable.trans h.ptable
  nextPid := h'.nextPid.trans h.nextPid
  initproc := h'.initproc.trans h.initproc

theorem Frame.modify (k : Kernel) (t : TaskRef) (f : Task → Task) : Frame k (k.modify t f) :=
  ⟨rfl, rfl, rfl, rfl, rfl, rfl, rfl, rfl⟩

theorem Frame.sameCpu {k k' : Kernel} (h : Frame k k') (hon : ∀ t, (k'.tasks t).onCpu = (k.tasks t).onCpu)
    (hcpu : ∀ t, (k'.tasks t).cpu = (k.tasks t).cpu)
    (hnext : ∀ t, (k'.tasks t).schedNext = (k.tasks t).schedNext) : SameCpu k.toKmt k'.toKmt :=
  ⟨h.current, h.prevTask, h.live, h.taskList, hon, hcpu, hnext⟩

structure MemStep (p : TaskRef) (new : List (Nat × Nat)) (k k' : Kernel) : Prop extends Frame k k' where
  other : ∀ t, t ≠ p → k'.tasks t = k.tasks t
  core : (k'.tasks p).core = (k.tasks p).core
  heap : k'.heap.live = new ++ k.heap.live
  heapOk : HeapOk k.heap → HeapOk k'.heap
  owned : owned (k'.tasks p) ≤ owned (k.tasks p) + new

section
variable {p : TaskRef} {k k' k'' : Kernel} {new new' : List (Nat × Nat)}

theorem MemStep.refl (p : TaskRef) (k : Kernel) : MemStep p [] k k where
  toFrame := Frame.refl k
  other := fun _ _ => rfl
  core := rfl
  heap := rfl
  heapOk := id
  owned := by simp

theorem MemStep.trans (h : MemStep p new k k') (h' : MemStep p new' k' k'') :
    MemStep p (new' ++ new) k k'' where
  toFrame := h.toFrame.trans h'.toFrame
  other := fun t ht => (h'.other t ht).trans (h.other t ht)
  core := h'.core.trans h.core
  heap := by rw [h'.heap, h.heap, append_assoc]
  heapOk := fun hk => h'.heapOk (h.heapOk hk)
  owned := by
    refine h'.owned.trans ?_
    rw [← Multiset.coe_add, add_comm (new' : Multiset (Nat × Nat)), ← add_assoc]
    exact add_le_add_left h.owned _

theorem MemStep.modify {f : Task → Task} (hc : ∀ x, (f x).core = x.core)
    (ho : ∀ x, NjuOs.owned (f x) ≤ NjuOs.owned x) : MemStep p [] k (k.modify p f) := by
  refine { MemStep.refl p k with other := ?_, core := ?_, owned := ?_ }
  · intro t ht; exact modify_tasks_ne ht
  · rw [modify_tasks_self, hc]
  · rw [modify_tasks_self]; simpa using ho _

theorem MemStep.field (h : MemStep p new k k') {β : Type*} (f : Task → β) (hf : ∀ x, f x.core = f x)
    (t : TaskRef) : f (k'.tasks t) = f (k.tasks t) := by
  by_cases ht : t = p
  · subst ht; rw [← hf (k'.tasks t), h.core, hf]
  · rw [h.other t ht]

theorem MemStep.sameCpu (h : MemStep p new k k') : SameCpu k.toKmt k'.toKmt :=
  h.toFrame.sameCpu (h.field Task.onCpu fun _ => rfl) (h.field Task.cpu fun _ => rfl)
    (h.field Task.schedNext fun _ => rfl)

end

section
variable {A : Allocator} {p : TaskRef} {k k' : Kernel}

theorem pmmAlloc_some {size a : Nat} (h : pmmAlloc A k size = (k', some a)) :
    A.alloc k.heap size = some a ∧ k' = { k with heap := ⟨(a, size) :: k.heap.live, k.heap.calls + 1⟩ } := by
  unfold pmmAlloc at h
  split at h
  · cases h
  · cases h; exact ⟨‹_›, rfl⟩

theorem memStep_alloc {size : Nat} {o : Option Nat} (p : TaskRef) (h : pmmAlloc A k size = (k', o)) :
    k'.toKmt = k.toKmt ∧ MemStep p (o.toList.map fun a => (a, size)) k k' := by
  cases o with
  | none =>
    unfold pmmAlloc at h
    split at h
    · cases h
      refine ⟨rfl, ?_⟩
      exact { MemStep.refl p k with heapOk := fun hh => ⟨hh.pos, hh.apart⟩ }
    · cases h
  | some a =>
    obtain ⟨ha, rfl⟩ := pmmAlloc_some h
    refine ⟨rfl, ?_⟩
    exact { MemStep.refl p k with
      heap := rfl
      heapOk := fun hh => hh.alloc ha _
      owned := Multiset.le_add_right _ _ }

theorem allocOr_ok {size a : Nat} {msg : String} (h : allocOr A k size msg = .ok (k', a)) :
    pmmAlloc A k size = (k', some a) := by
  unfold allocOr at h
  split at h
  · cases h
  · cases h; assumption

theorem memStep_setPage (p : TaskRef) (k : Kernel) (pa : Nat) (d : List UInt8) : MemStep p [] k (k.setPage pa d) :=
  { MemStep.refl p k with }

@[simp] theorem setFiles_tasks_self {r : Vfs × Files} :
    (k.setFiles p r).tasks p = { k.tasks p with files := r.2 } := update_self ..

theorem setFiles_tasks_ne {r : Vfs × Files} {t : TaskRef} (h : t ≠ p) : (k.setFiles p r).tasks t = k.tasks t :=
  update_of_ne h ..

theorem memStep_setFiles (p : TaskRef) (k : Kernel) (r : Vfs × Files) : MemStep p [] k (k.setFiles p r) :=
  { MemStep.modify (p := p) (k := k) (f := fun x => { x with files := r.2 }) (fun _ => rfl) fun _ => le_rfl with }

theorem memStep_protect (h : protect A k p = .ok k') : ∃ new, MemStep p new k k' := by
  obtain ⟨⟨k1, a⟩, h1, h⟩ := bind_ok h
  cases h
  obtain ⟨-, hm⟩ := memStep_alloc p (allocOr_ok h1)
  exact ⟨_, hm.trans (MemStep.modify (fun _ => rfl) fun _ => le_rfl)⟩

theorem memStep_amMap {va pa : Nat} (h : amMap A k p va pa = .ok k') : ∃ new, MemStep p new k k' := by
  unfold amMap at h
  split at h
  · cases h
  split at h
  · cases h
  split at h
  · cases h
  split at h
  · cases h; exact ⟨_, MemStep.refl p k⟩
  split at h
  · cases h
  · next k1 a h1 =>
    cases h
    obtain ⟨-, hm⟩ := memStep_alloc p h1
    exact ⟨_, hm.trans (MemStep.modify (fun _ => rfl) fun _ => le_rfl)⟩

theorem memStep_page {k1 : Kernel} {va pa prot : Nat} {d : List UInt8}
    (ha : pmmAlloc A k pgsize = (k1, some pa)) (h : upMap A (k1.setPage pa d) p va pa prot = .ok k') :
    ∃ new, MemStep p new k k' := by
  obtain ⟨hk, hm⟩ := memStep_alloc p ha
  unfold upMap at h
  split at h
  · cases h
  split at h
  · cases h
  · obtain ⟨new, hmap⟩ := memStep_amMap h
    -- the page was taken from the allocator in the same step
    have hstep : MemStep p [(pa, pgsize)] k ((k1.setPage pa d).modify p fun x =>
        { x with maps := x.maps ++ [⟨va, pa, prot⟩] }) := by
      have hset : MemStep p [(pa, pgsize)] k (k1.setPage pa d) := hm.trans (memStep_setPage p k1 pa d)
      have htask : (k1.setPage pa d).tasks p = k.tasks p := congrFun (congrArg Kmt.tasks hk) p
      refine { hset with other := ?_, core := ?_, owned := ?_ }
      · intro t ht
        rw [modify_tasks_ne ht]
        exact hset.other t ht
      · rw [modify_tasks_self, htask]
        rfl
      · rw [modify_tasks_self, htask]
        simp only [NjuOs.owned, map_append, map_cons, map_nil, ← Multiset.coe_add]
        rw [add_assoc]
    exact ⟨_, hstep.trans hmap⟩

theorem memStep_loadPages {bin : List UInt8} {len : Nat} : ∀ {is : List Nat} {k : Kernel},
    loadPages A bin len p is k = .ok k' → ∃ new, MemStep p new k k'
  | [], k, h => by cases h; exact ⟨_, MemStep.refl p _⟩
  | i :: is, k, h => by
    obtain ⟨⟨k1, pa⟩, h1, h⟩ := bind_ok h
    obtain ⟨d, -, h⟩ := bind_ok h
    obtain ⟨k2, h2, h⟩ := bind_ok h
    obtain ⟨_, hm⟩ := memStep_page (allocOr_ok h1) h2
    obtain ⟨_, hr⟩ := memStep_loadPages h
    exact ⟨_, hm.trans hr⟩

theorem memStep_loadStack : ∀ {is : List Nat} {k : Kernel},
    loadStack A p is k = .ok k' → ∃ new, MemStep p new k k'
  | [], k, h => by cases h; exact ⟨_, MemStep.refl p _⟩
  | i :: is, k, h => by
    obtain ⟨⟨k1, pa⟩, h1, h⟩ := bind_ok h
    obtain ⟨k2, h2, h⟩ := bind_ok h
    obtain ⟨_, hm⟩ := memStep_page (allocOr_ok h1) h2
    obtain ⟨_, hr⟩ := memStep_loadStack h
    exact ⟨_, hm.trans hr⟩

theorem memStep_procLoadImage {bin : List UInt8} {len : Nat} (h : procLoadImage A k p bin len = .ok k') :
    ∃ new, MemStep p new k k' := by
  obtain ⟨k1, h1, h⟩ := bind_ok h
  obtain ⟨_, hm⟩ := memStep_loadPages h1
  obtain ⟨_, hs⟩ := memStep_loadStack h
  exact ⟨_, hm.trans hs⟩

theorem memStep_mmapPages {base prot : Nat} {b : Bool} : ∀ {is : List Nat} {k : Kernel},
    mmapPages A p base prot is k = .ok (k', b) → ∃ new, MemStep p new k k'
  | [], k, h => by cases h; exact ⟨_, MemStep.refl p _⟩
  | i :: is, k, h => by
    unfold mmapPages at h
    split at h
    · next k1 h1 => cases h; exact ⟨_, (memStep_alloc p h1).2⟩
    · next k1 pa h1 =>
      obtain ⟨k2, h2, h⟩ := bind_ok h
      obtain ⟨_, hm⟩ := memStep_page h1 h2
      obtain ⟨_, hr⟩ := memStep_mmapPages h
      exact ⟨_, hm.trans hr⟩

theorem memStep_forkPages : ∀ {ms : List Vmap} {k : Kernel},
    forkPages A p ms k = .ok k' → ∃ new, MemStep p new k k'
  | [], k, h => by cases h; exact ⟨_, MemStep.refl p _⟩
  | m :: ms, k, h => by
    obtain ⟨⟨k1, pa⟩, h1, h⟩ := bind_ok h
    obtain ⟨k2, h2, h⟩ := bind_ok h
    obtain ⟨_, hm⟩ := memStep_page (allocOr_ok h1) h2
    obtain ⟨_, hr⟩ := memStep_forkPages h
    exact ⟨_, hm.trans hr⟩

theorem memStep_sysMmap {addr prot flags : Nat} {length : Int} {r : Option Nat}
    (h : sysMmap A k p addr length prot flags = .ok (k', r)) : ∃ new, MemStep p new k k' := by
  unfold sysMmap at h
  split at h
  · cases h; exact ⟨_, MemStep.refl p k⟩
  dsimp only at h
  split at h
  · cases h; exact ⟨_, MemStep.refl p k⟩
  obtain ⟨⟨k1, done⟩, h1, h⟩ := bind_ok h
  obtain ⟨new, hm⟩ := memStep_mmapPages h1
  dsimp only at h
  split at h
  · cases h; exact ⟨_, hm⟩
  split at h
  · cases h; exact ⟨_, hm.trans (MemStep.modify (fun _ => rfl) fun _ => le_rfl)⟩
  · cases h; exact ⟨_, hm⟩

theorem memStep_sysExec {va : Nat} {path : CStr} {b : Bool} (h : sysExec A k p va path = .ok (k', b)) :
    (∃ new, MemStep p new k k') ∧ (b = true → (k'.tasks p).context.redo = none) := by
  unfold sysExec at h
  split at h
  · cases h; exact ⟨⟨_, MemStep.refl p k⟩, fun hb => nomatch hb⟩
  split at h
  · cases h; exact ⟨⟨_, MemStep.refl p k⟩, fun hb => nomatch hb⟩
  · next bin len _ =>
    rcases hpm : pmmAlloc A k mapsBytes with ⟨k1, m⟩
    rw [hpm] at h
    dsimp only at h
    obtain ⟨k2, h2, h⟩ := bind_ok h
    obtain ⟨k3, h3, h⟩ := bind_ok h
    cases h
    obtain ⟨hk, hm⟩ := memStep_alloc p hpm
    -- the old table and its pages are dropped, the new table comes from the allocator
    have hset : MemStep p (m.toList.map fun a => (a, mapsBytes)) k
        (k1.modify p fun x => { x with mapsPtr := m, maps := [], heapTop := userHeap }) := by
      refine { hm with other := ?_, core := ?_, owned := ?_ }
      · intro t ht
        rw [modify_tasks_ne ht]
        exact hm.other t ht
      · rw [modify_tasks_self]
        exact hm.core
      · rw [modify_tasks_self]
        simp only [NjuOs.owned, map_nil, Multiset.coe_nil, add_zero]
        exact Multiset.le_add_left _ _
    obtain ⟨_, hp⟩ := memStep_protect h2
    obtain ⟨_, hl⟩ := memStep_procLoadImage h3
    refine ⟨⟨_, ((hset.trans hp).trans hl).trans (MemStep.modify (fun _ => rfl) fun _ => le_rfl)⟩, fun _ => ?_⟩
    rw [modify_tasks_self]
    rfl

end

/-! ## A new process -/

structure TaskAdded (a : Nat) (new : List (Nat × Nat)) (k k' : Kernel) : Prop where
  other : ∀ t, t ≠ .proc a → k'.tasks t = k.tasks t
  live : k'.live = update k.live (.proc a) true
  current : k'.current = k.current
  prevTask : k'.prevTask = k.prevTask
  nextPid : k'.nextPid = k.nextPid + 1
  initproc : k'.initproc = k.initproc
  fresh : ∀ b ∈ k.heap.live, 0 < b.2 → b.1 ≠ a
  heap : k'.heap.live = new ++ k.heap.live
  heapOk : HeapOk k.heap → HeapOk k'.heap
  owned : {(a, taskBytes)} + owned (k'.tasks (.proc a)) ≤ (new : Multiset (Nat × Nat))

structure NewTask (a : Nat) (par : Option TaskRef) (new : List (Nat × Nat)) (k k' : Kernel) : Prop
    extends TaskAdded a new k k' where
  core : (k'.tasks (.proc a)).core = ({ freshTask 0 k.nextPid with parent := par } : Task).core
  taskList : k'.taskList = k.taskList
  nlink : k'.nlink = k.nlink
  ptable : k'.ptable = k.ptable

section
variable {A : Allocator} {k k' k'' : Kernel} {a : Nat} {par : Option TaskRef} {new new' : List (Nat × Nat)}

theorem NewTask.mem (h : NewTask a par new k k') (h' : MemStep (.proc a) new' k' k'') :
    NewTask a par (new' ++ new) k k'' where
  other := fun t ht => (h'.other t ht).trans (h.other t ht)
  core := h'.core.trans h.core
  live := h'.live.trans h.live
  taskList := h'.taskList.trans h.taskList
  current := h'.current.trans h.current
  prevTask := h'.prevTask.trans h.prevTask
  nlink := h'.nlink.trans h.nlink
  ptable := h'.ptable.trans h.ptable
  nextPid := h'.nextPid.trans h.nextPid
  initproc := h'.initproc.trans h.initproc
  fresh := h.fresh
  heap := by rw [h'.heap, h.heap, append_assoc]
  heapOk := fun hk => h'.heapOk (h.heapOk hk)
  owned := by
    rw [← Multiset.coe_add, add_comm (new' : Multiset (Nat × Nat))]
    refine le_trans ?_ (add_le_add_left h.owned _)
    rw [add_assoc]
    exact add_le_add_right h'.owned _

theorem NewTask.parent (h : NewTask a none new k k') (par : Option TaskRef) :
    NewTask a par new k (k'.modify (.proc a) fun x => { x with parent := par }) := by
  refine { h with other := ?_, core := ?_, owned := ?_ }
  · intro t ht
    rw [modify_tasks_ne ht]
    exact h.other t ht
  · rw [modify_tasks_self]
    exact h.owned
  · rw [modify_tasks_self]
    exact congrArg (fun x : Task => { x with parent := par }) h.core

theorem procAlloc_steps {t : TaskRef} (h : procAlloc A k = .ok (k', t)) : ∃ k1 k2 a m, t = .proc a ∧
    pmmAlloc A k taskBytes = (k1, some a) ∧ pmmAlloc A k1 mapsBytes = (k2, some m) ∧
    protect A { k2 with
      toKmt := { k2.set (.proc a) (freshTask m k2.nextPid) with live := update k2.live (.proc a) true }
      nextPid := k2.nextPid + 1 } (.proc a) = .ok k' := by
  obtain ⟨⟨k1, a⟩, h1, h⟩ := bind_ok h
  obtain ⟨⟨k2, m⟩, h2, h⟩ := bind_ok h
  obtain ⟨n, hn, h⟩ := bind_ok h
  obtain ⟨k3, h3, h⟩ := bind_ok h
  cases h
  obtain ⟨rfl, -⟩ := intOf_ok hn
  exact ⟨k1, k2, a, m, rfl, allocOr_ok h1, allocOr_ok h2, h3⟩

theorem procAlloc_ok {t : TaskRef} (h : procAlloc A k = .ok (k', t)) :
    ∃ a new, t = .proc a ∧ NewTask a none new k k' := by
  obtain ⟨_, _, a, m, rfl, h1, h2, h3⟩ := procAlloc_steps h
  obtain ⟨ha, rfl⟩ := pmmAlloc_some h1
  obtain ⟨hm, rfl⟩ := pmmAlloc_some h2
  obtain ⟨_, hp⟩ := memStep_protect h3
  suffices hnew : NewTask a none [(m, mapsBytes), (a, taskBytes)] k _ from ⟨a, _, rfl, hnew.mem hp⟩
  refine ⟨⟨?other, rfl, rfl, rfl, rfl, rfl, ?fresh, rfl, ?heapOk, ?owned⟩, ?core, rfl, rfl, rfl⟩
  case other => intro t ht; exact set_tasks_ne ht
  case core =>
    show ((Kmt.set _ (.proc a) _).tasks (.proc a)).core = _
    rw [set_tasks_self]
    rfl
  case fresh =>
    intro b hb hpos he
    have h5 := A.apart ha b hb
    have h6 := A.pos ha
    omega
  case heapOk => intro hh; exact (hh.alloc ha _).alloc hm _
  case owned =>
    show _ + NjuOs.owned ((Kmt.set _ (.proc a) _).tasks (.proc a)) ≤ _
    rw [set_tasks_self]
    simp only [NjuOs.owned, freshTask, zeroTask, Option.toList_some, map_cons, map_nil,
      Multiset.coe_nil, add_zero]
    rw [add_comm]
    rfl

structure Born (a : Nat) (par : Option TaskRef) (redo : Option Blocking) (new : List (Nat × Nat))
    (k k' : Kernel) : Prop extends TaskAdded a new k k' where
  core : (k'.tasks (.proc a)).core =
    ({ freshTask 0 k.nextPid with parent := par, schedNext := k.taskList } : Task).core
  context : (k'.tasks (.proc a)).context.redo = redo
  taskList : k'.taskList = some (.proc a)
  nlink : k'.nlink = k.nlink + 1
  ptable : k'.ptable = k.ptable ++ [.proc a]
  room : k.ptable.length < maxproc

theorem ptableAdd_ok {t : TaskRef} (h : ptableAdd k t = .ok k') :
    k.ptable.length < maxproc ∧ k' = { k with ptable := k.ptable ++ [t] } := by
  unfold ptableAdd at h
  split at h
  · cases h
  · cases h; exact ⟨by omega, rfl⟩

theorem NewTask.born {redo : Option Blocking} (h : NewTask a par new k k')
    (hr : (k'.tasks (.proc a)).context.redo = redo) (h' : ptableAdd k' (.proc a) = .ok k'') :
    Born a par redo new k { k'' with toKmt := kmtRegister k''.toKmt (.proc a) } := by
  obtain ⟨hroom, rfl⟩ := ptableAdd_ok h'
  refine ⟨{ h.toTaskAdded with other := ?other, owned := ?owned }, ?core, ?context, rfl, congrArg (· + 1) h.nlink,
    congrArg (· ++ [TaskRef.proc a]) h.ptable, h.ptable ▸ hroom⟩
  case other =>
    intro t ht
    refine Eq.trans ?_ (h.other t ht)
    exact set_tasks_ne ht
  case owned =>
    show _ + NjuOs.owned ((Kmt.set _ (.proc a) _).tasks (.proc a)) ≤ _
    rw [set_tasks_self]
    exact h.owned
  case core =>
    show ((Kmt.set _ (.proc a) _).tasks (.proc a)).core = _
    rw [set_tasks_self]
    have hc := congrArg (fun x : Task => { x with schedNext := k.taskList }) h.core
    refine Eq.trans ?_ hc
    rw [← h.taskList]
    rfl
  case context =>
    show ((Kmt.set _ (.proc a) _).tasks (.proc a)).context.redo = _
    rw [set_tasks_self]
    exact hr

theorem Born.field (h : Born a par redo new k k') {β : Type*} (f : Task → β) (hf : ∀ x, f x.core = f x) :
    f (k'.tasks (.proc a)) =
      f { freshTask 0 k.nextPid with parent := par, schedNext := k.taskList } := by
  rw [← hf (k'.tasks (.proc a)), h.core, hf]

theorem sysFork_ok {p : TaskRef} {ctx : Context} {pid : Int} (h : sysFork A k p ctx = .ok (k', pid)) :
    pid = k.nextPid ∧ ∃ a new, Born a (some p) ctx.redo new k k' := by
  obtain ⟨⟨k1, t⟩, h1, h⟩ := bind_ok h
  obtain ⟨a, _, rfl, hn⟩ := procAlloc_ok h1
  obtain ⟨k3, h3, h⟩ := bind_ok h
  obtain ⟨k7, h7, h⟩ := bind_ok h
  cases h
  generalize vfsFork _ _ _ = r at h7
  obtain ⟨_, h3⟩ := memStep_forkPages h3
  have hn3 := (hn.parent (some p)).mem h3
  have hn4 := hn3.mem (MemStep.modify (f := fun x => { x with heapTop := (k3.tasks p).heapTop })
    (fun _ => rfl) fun _ => le_rfl)
  have hn5 := hn4.mem (memStep_setFiles (.proc a) _ r)
  have hn6 := hn5.mem (MemStep.modify (f := fun x => { x with
    context := { ctx with gprx := 0, vmHead := x.addrSpace.ptr, ksp := kstackEnd (.proc a) } })
    (fun _ => rfl) fun _ => le_rfl)
  have hpid := congrArg Task.pid hn6.core
  have hborn : Born a (some p) ctx.redo _ k _ := hn6.born (by rw [modify_tasks_self]) h7
  obtain ⟨-, rfl⟩ := ptableAdd_ok h7
  exact ⟨hpid, a, _, hborn⟩

theorem procSpawn_ok {bin : List UInt8} {len : Nat} {t : TaskRef} (h : procSpawn A k bin len = .ok (k', t)) :
    ∃ a new, t = .proc a ∧ Born a none none new k k' := by
  obtain ⟨⟨k1, t⟩, h1, h⟩ := bind_ok h
  obtain ⟨a, _, rfl, hn⟩ := procAlloc_ok h1
  obtain ⟨k2, h2, h⟩ := bind_ok h
  obtain ⟨k5, h5, h⟩ := bind_ok h
  cases h
  generalize vfsSetupStdio _ _ = r at h5
  obtain ⟨_, h2⟩ := memStep_procLoadImage h2
  have hn3 := (hn.mem h2).mem (MemStep.modify
    (f := fun x => { x with context := ucontext x (.proc a) userBase }) (fun _ => rfl) fun _ => le_rfl)
  refine ⟨a, _, rfl, NewTask.born (hn3.mem (memStep_setFiles (.proc a) _ r)) ?_ h5⟩
  rw [setFiles_tasks_self, modify_tasks_self]
  rfl

end

/-! ## Walks over the process table -/

theorem mapTable_frame (f : Task → Task) : ∀ (l : List TaskRef) (k : Kernel),
    Frame k (mapTable f l k) ∧ (mapTable f l k).heap = k.heap
  | [], k => ⟨Frame.refl k, rfl⟩
  | a :: l, k => by
    obtain ⟨h1, h2⟩ := mapTable_frame f l (k.modify a f)
    exact ⟨(Frame.modify k a f).trans h1, h2⟩

theorem mapTable_tasks {f : Task → Task} (hf : ∀ x, f (f x) = f x) (t : TaskRef) :
    ∀ (l : List TaskRef) (k : Kernel),
    (mapTable f l k).tasks t = if t ∈ l then f (k.tasks t) else k.tasks t
  | [], k => by simp [mapTable]
  | a :: l, k => by
    rw [mapTable, mapTable_tasks hf t l]
    by_cases ha : t = a
    · subst ha
      rw [modify_tasks_self, hf, if_pos (mem_cons_self ..)]
      exact ite_self _
    · rw [modify_tasks_ne ha]
      simp [ha]

/-! ## Death -/

def newParent (k : Kernel) (p t : TaskRef) : Option TaskRef :=
  if t ∈ k.ptable ∧ (k.tasks t).parent = some p then k.initproc else (k.tasks t).parent

def Task.body (x : Task) : Task :=
  { x with
    parent := none
    exitStatus := 0
    xstate := false
    waiting := false
    state := .unused
    files := zeroTask.files }

structure Died (k : Kernel) (p : TaskRef) (status : Int) (k' : Kernel) : Prop extends Frame k k' where
  body : ∀ t, (k'.tasks t).body = (k.tasks t).body
  parent : ∀ t, (k'.tasks t).parent = newParent k p t
  exitStatus : ∀ t, (k'.tasks t).exitStatus = if t = p then status else (k.tasks t).exitStatus
  xstate : ∀ t, (k'.tasks t).xstate = if t = p then true else (k.tasks t).xstate
  waiting : ∀ t, (k'.tasks t).waiting = if newParent k p p = some t then false else (k.tasks t).waiting
  state : ∀ t, (k'.tasks t).state = if t = p then .blocked
    else if newParent k p p = some t ∧ (k.tasks t).waiting = true then .runnable
    else (k.tasks t).state
  liveParent : ∀ q, newParent k p p = some q → k.live q = true
  heap : k'.heap = k.heap

section
variable {k k' : Kernel} {p : TaskRef} {status : Int}

theorem Died.field (h : Died k p status k') {β : Type*} (f : Task → β) (hf : ∀ x, f x.body = f x)
    (t : TaskRef) : f (k'.tasks t) = f (k.tasks t) := by
  rw [← hf (k'.tasks t), h.body, hf]

theorem Died.sameCpu (h : Died k p status k') : SameCpu k.toKmt k'.toKmt :=
  h.toFrame.sameCpu (h.field Task.onCpu fun _ => rfl) (h.field Task.cpu fun _ => rfl)
    (h.field Task.schedNext fun _ => rfl)

def Task.handOver (p : TaskRef) (init : Option TaskRef) (x : Task) : Task :=
  if x.parent = some p then { x with parent := init } else x

theorem handOver_idem (p : TaskRef) (init : Option TaskRef) (x : Task) :
    (x.handOver p init).handOver p init = x.handOver p init := by
  unfold Task.handOver
  by_cases hx : x.parent = some p
  · simp only [hx, if_true]
    split <;> rfl
  · simp only [hx, if_false]

theorem reparentChildren_ok (k : Kernel) (p : TaskRef) :
    Frame k (reparentChildren k p) ∧ (reparentChildren k p).heap = k.heap ∧
      ∀ t, (reparentChildren k p).tasks t = { k.tasks t with parent := newParent k p t } := by
  obtain ⟨h1, h2⟩ := mapTable_frame (Task.handOver p k.initproc) k.ptable k
  refine ⟨h1, h2, fun t => ?_⟩
  refine (mapTable_tasks (handOver_idem p k.initproc) t k.ptable k).trans ?_
  unfold newParent Task.handOver
  by_cases ht : t ∈ k.ptable
  · by_cases hp : (k.tasks t).parent = some p
    · simp only [ht, hp, if_true, and_self]
    · simp only [ht, hp, if_true, if_false, and_false]
  · simp only [ht, if_false, false_and]

def Task.wake (x : Task) : Task :=
  if x.waiting = true then { x with waiting := false, state := .runnable } else x

theorem wakeParent_ok (h : wakeParent k p = .ok k') :
    (∀ q, (k.tasks p).parent = some q → k.live q = true) ∧ Frame k k' ∧ k'.heap = k.heap ∧
      ∀ t, k'.tasks t = if (k.tasks p).parent = some t then (k.tasks t).wake else k.tasks t := by
  unfold wakeParent at h
  cases hq : (k.tasks p).parent with
  | none =>
    rw [hq] at h
    cases h
    exact ⟨(fun q hq => nomatch hq), Frame.refl k, rfl, fun t => by simp⟩
  | some q =>
    simp only [hq] at h
    obtain ⟨x, hx, h⟩ := bind_ok h
    obtain ⟨hl, rfl⟩ := deref_ok.mp hx
    refine ⟨fun q' hq' => by cases hq'; exact hl, ?_⟩
    unfold Task.wake
    by_cases hw : (k.tasks q).waiting = false
    · rw [if_pos hw] at h
      cases h
      refine ⟨Frame.refl k, rfl, fun t => ?_⟩
      by_cases ht : q = t
      · subst ht; simp only [hw, Bool.false_eq_true, if_false, ite_self]
      · simp only [Option.some.injEq, ht, if_false]
    · rw [if_neg hw] at h
      cases h
      refine ⟨Frame.modify k q _, rfl, fun t => ?_⟩
      by_cases ht : q = t
      · subst ht
        rw [modify_tasks_self, if_pos rfl, if_pos (by simpa using hw)]
      · rw [modify_tasks_ne (Ne.symm ht), if_neg (by simpa using ht)]

theorem zombify_ok {r : Vfs × Files} (h : zombify (k.setFiles p r) p status = .ok k') : Died k p status k' := by
  obtain ⟨k3, h3, h⟩ := bind_ok h
  cases h
  have hf1 : Frame k ((k.setFiles p r).modify p fun x => { x with exitStatus := status, xstate := true }) :=
    (memStep_setFiles p k r).toFrame.trans (Frame.modify _ _ _)
  have ht1 : ((k.setFiles p r).modify p fun x => { x with exitStatus := status, xstate := true }).tasks p =
      { k.tasks p with files := r.2, exitStatus := status, xstate := true } := by
    rw [modify_tasks_self, setFiles_tasks_self]
  have hn1 : ∀ t, t ≠ p → ((k.setFiles p r).modify p fun x =>
      { x with exitStatus := status, xstate := true }).tasks t = k.tasks t := by
    intro t ht
    rw [modify_tasks_ne ht, setFiles_tasks_ne ht]
  have hh1 : ((k.setFiles p r).modify p fun x => { x with exitStatus := status, xstate := true }).heap = k.heap := rfl
  generalize (k.setFiles p r).modify p (fun x => { x with exitStatus := status, xstate := true }) = k1
    at h3 hf1 ht1 hn1 hh1
  have hpar : ∀ t, newParent k1 p t = newParent k p t := by
    intro t
    unfold newParent
    rw [hf1.ptable, hf1.initproc]
    by_cases ht : t = p
    · subst ht; rw [ht1]
    · rw [hn1 t ht]
  obtain ⟨hf2, hh2, ht2⟩ := reparentChildren_ok k1 p
  obtain ⟨hlive, hf3, hh3, ht3⟩ := wakeParent_ok h3
  simp only [ht2, hpar] at hlive ht3
  rw [hf2.live, hf1.live] at hlive
  have hfr := hf1.trans (hf2.trans (hf3.trans (Frame.modify k3 p fun x => { x with state := .blocked })))
  have htask : ∀ t, ((k3.modify p fun x => { x with state := .blocked }).tasks t).body = (k.tasks t).body ∧
      ((k3.modify p fun x => { x with state := .blocked }).tasks t).parent = newParent k p t ∧
      ((k3.modify p fun x => { x with state := .blocked }).tasks t).exitStatus =
        (if t = p then status else (k.tasks t).exitStatus) ∧
      ((k3.modify p fun x => { x with state := .blocked }).tasks t).xstate =
        (if t = p then true else (k.tasks t).xstate) ∧
      ((k3.modify p fun x => { x with state := .blocked }).tasks t).waiting =
        (if newParent k p p = some t then false else (k.tasks t).waiting) ∧
      ((k3.modify p fun x => { x with state := .blocked }).tasks t).state =
        (if t = p then .blocked
          else if newParent k p p = some t ∧ (k.tasks t).waiting = true then .runnable
          else (k.tasks t).state) := by
    intro t
    by_cases ht : t = p
    · subst ht
      rw [modify_tasks_self, ht3 t, ht1]
      unfold Task.wake
      split_ifs with hw hww <;> simp_all [Task.body]
    · rw [modify_tasks_ne ht, ht3 t, hn1 t ht]
      unfold Task.wake
      split_ifs with hw hww <;> simp_all [Task.body]
  exact {
    toFrame := hfr
    body := fun t => (htask t).1
    parent := fun t => (htask t).2.1
    exitStatus := fun t => (htask t).2.2.1
    xstate := fun t => (htask t).2.2.2.1
    waiting := fun t => (htask t).2.2.2.2.1
    state := fun t => (htask t).2.2.2.2.2
    liveParent := hlive
    heap := hh3.trans (hh2.trans hh1) }

theorem sysExit_ok (h : sysExit k p status = .ok k') : k.initproc ≠ some p ∧ Died k p status k' := by
  unfold sysExit at h
  dsimp only at h
  split at h
  · cases h
  · next hi => exact ⟨hi, zombify_ok h⟩

theorem sysKill_ok {pid r : Int} (h : sysKill k p pid = .ok (k', r)) :
    k' = k ∧ r = -1 ∨
    ∃ target, k.ptable.find? (fun t => (k.tasks t).pid = pid) = some target ∧ target ≠ p ∧ r = 0 ∧
      Died k target (-1) k' := by
  unfold sysKill at h
  split at h
  · cases h; exact Or.inl ⟨rfl, rfl⟩
  · next target ht =>
    split at h
    · cases h; exact Or.inl ⟨rfl, rfl⟩
    · next hne =>
      obtain ⟨k1, h1, h⟩ := bind_ok h
      cases h
      exact Or.inr ⟨target, ht, hne, rfl, zombify_ok h1⟩

end

end NjuOs
