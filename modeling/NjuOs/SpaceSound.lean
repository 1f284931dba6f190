import NjuOs.MapSound

/-!
# Address spaces of processes

Which pages a call records, and what beginning a space takes: `up_map` records exactly the pages it maps.
Of the blocks that a call takes, the page of a space and those of its nodes belong to no process.
-/

namespace NjuOs

open List

def pagesAt (l : List Nat) : Multiset (Nat × Nat) := (l.map fun a => (a, pgsize) : List (Nat × Nat))

theorem pagesAt_append (l l' : List Nat) : pagesAt (l ++ l') = pagesAt l + pagesAt l' := by
  unfold pagesAt
  rw [map_append, ← Multiset.coe_add]

theorem pagesAt_perm {l l' : List Nat} (h : l.Perm l') : pagesAt l = pagesAt l' := Multiset.coe_eq_coe.mpr (h.map _)

inductive Noded : List Nat → List Vmap → List (Nat × Nat) → Prop
  | nil {keys : List Nat} : Noded keys [] []
  | old {keys : List Nat} {m : Vmap} {ms : List Vmap} {ns : List (Nat × Nat)} (h : m.va ∈ keys)
    (hr : Noded keys ms ns) : Noded keys (m :: ms) ns
  | new {keys : List Nat} {m : Vmap} {ms : List Vmap} {ns : List (Nat × Nat)} {q : Nat} (h : m.va ∉ keys)
    (hr : Noded (m.va :: keys) ms ns) : Noded keys (m :: ms) ((m.va, q) :: ns)

theorem Noded.append {keys : List Nat} {ms ms' : List Vmap} {ns ns' : List (Nat × Nat)} (h : Noded keys ms ns)
    (h' : Noded (ns.reverse.map Prod.fst ++ keys) ms' ns') : Noded keys (ms ++ ms') (ns ++ ns') := by
  induction h with
  | nil => exact h'
  | old hk _ ih => exact .old hk (ih h')
  | new hk _ ih =>
    refine .new hk (ih ?_)
    simpa using h'

theorem Noded.fresh {keys : List Nat} {ms : List Vmap} {ns : List (Nat × Nat)} (h : Noded keys ms ns) :
    ∀ va ∈ keys, va ∉ ns.map Prod.fst := by
  induction h with
  | nil => simp
  | old _ _ ih => exact ih
  | new hk _ ih =>
    intro va hva hmem
    rcases mem_cons.mp hmem with rfl | hmem
    · exact hk hva
    · exact ih va (mem_cons_of_mem _ hva) hmem

/-! ## Recording pages -/

/-- The pages `new` have been recorded and mapped in the space of `p`, with the nodes `ns`; `blocks` is the
memory that this took. -/
structure Recorded (p : TaskRef) (new : List Vmap) (ns blocks : List (Nat × Nat)) (k k' : Kernel) : Prop where
  ptr : (k'.tasks p).addrSpace.ptr = (k.tasks p).addrSpace.ptr
  maps : (k'.tasks p).maps = (k.tasks p).maps ++ new
  nodes : (k'.tasks p).addrSpace.nodes = ns.reverse ++ (k.tasks p).addrSpace.nodes
  noded : Noded (k.tasks p).addrSpace.keys new ns
  valid : ∀ m ∈ new, UserPage m.va ∧ m.pa % pgsize = 0
  heap : k'.heap.live = blocks ++ k.heap.live
  held : ownedBy k' p + pagesAt (ns.map Prod.snd) ≤ ownedBy k p + blocks

section
variable {A : Allocator} {k k1 k' k'' : Kernel} {p : TaskRef} {new new' : List Vmap}
  {ns ns' blocks blocks' : List (Nat × Nat)}

theorem Recorded.same (hs : (k'.tasks p).addrSpace = (k.tasks p).addrSpace) (hm : (k'.tasks p).maps = (k.tasks p).maps)
    (ho : owned (k'.tasks p) = owned (k.tasks p)) (hh : k'.heap.live = k.heap.live) : Recorded p [] [] [] k k' where
  ptr := by rw [hs]
  maps := by rw [hm, append_nil]
  nodes := by rw [hs]; rfl
  noded := .nil
  valid := by simp
  heap := hh
  held := by rw [ownedBy_owned ho]; rfl

theorem Recorded.trans (h : Recorded p new ns blocks k k') (h' : Recorded p new' ns' blocks' k' k'') :
    Recorded p (new ++ new') (ns ++ ns') (blocks' ++ blocks) k k'' where
  ptr := h'.ptr.trans h.ptr
  maps := by rw [h'.maps, h.maps, append_assoc]
  nodes := by rw [h'.nodes, h.nodes, reverse_append, append_assoc]
  noded := by
    have hkeys : (k'.tasks p).addrSpace.keys = ns.reverse.map Prod.fst ++ (k.tasks p).addrSpace.keys := by
      rw [AddrSpace.keys, h.nodes, map_append]
      rfl
    exact h.noded.append (hkeys ▸ h'.noded)
  valid := fun m hm => (mem_append.mp hm).elim (h.valid m) (h'.valid m)
  heap := by rw [h'.heap, h.heap, append_assoc]
  held := by
    rw [map_append, pagesAt_append, ← Multiset.coe_add]
    calc _ = ownedBy k'' p + pagesAt (ns'.map Prod.snd) + pagesAt (ns.map Prod.snd) := by abel
      _ ≤ ownedBy k' p + blocks' + pagesAt (ns.map Prod.snd) := add_le_add_left h'.held _
      _ = ownedBy k' p + pagesAt (ns.map Prod.snd) + blocks' := by abel
      _ ≤ ownedBy k p + blocks + blocks' := add_le_add_left h.held _
      _ = _ := by abel

theorem amMap_noded {va pa : Nat} (prot : Nat) (h : amMap A k p va pa = .ok k') : ∃ ns,
    Noded (k.tasks p).addrSpace.keys [⟨va, pa, prot⟩] ns ∧ pa % pgsize = 0 ∧
    k'.tasks p = { k.tasks p with
      addrSpace := { (k.tasks p).addrSpace with nodes := ns.reverse ++ (k.tasks p).addrSpace.nodes } } ∧
    k'.heap.live = ns.map (fun n => (n.2, pgsize)) ++ k.heap.live := by
  unfold amMap at h
  split at h
  · cases h
  split at h
  · cases h
  split at h
  · cases h
  next hpa =>
  split at h
  · next hold =>
    cases h
    exact ⟨[], .old hold .nil, not_not.mp hpa, rfl, rfl⟩
  next hnew =>
  split at h
  · cases h
  next k2 q h2 =>
  cases h
  obtain ⟨-, rfl⟩ := pmmAlloc_some h2
  exact ⟨[(va, q)], .new hnew .nil, not_not.mp hpa, modify_tasks_self, rfl⟩

theorem ownedBy_le {D B : Multiset (Nat × Nat)} (h : owned (k'.tasks p) + D ≤ owned (k.tasks p) + B) (hD : D ≤ B) :
    ownedBy k' p + D ≤ ownedBy k p + B := by
  unfold ownedBy
  cases p with
  | proc a =>
    simp only
    rw [add_assoc, add_assoc]
    exact add_le_add_right h _
  | idle c => simpa using hD
  | kernel i => simpa using hD

theorem Recorded.page {va pa prot : Nat} {d : List UInt8} (ha : pmmAlloc A k pgsize = (k1, some pa))
    (h : upMap A (k1.setPage pa d) p va pa prot = .ok k') :
    ∃ ns blocks, Recorded p [⟨va, pa, prot⟩] ns blocks k k' := by
  obtain ⟨-, rfl⟩ := pmmAlloc_some ha
  unfold upMap at h
  split at h
  · cases h
  split at h
  · cases h
  have hu := (amMap_ok h).1
  obtain ⟨ns, hnoded, hpa, htask, hheap⟩ := amMap_noded prot h
  rw [modify_tasks_self] at hnoded htask
  have htask : k'.tasks p = { k.tasks p with
      maps := (k.tasks p).maps ++ [⟨va, pa, prot⟩]
      addrSpace := { (k.tasks p).addrSpace with nodes := ns.reverse ++ (k.tasks p).addrSpace.nodes } } := htask
  refine ⟨ns, ns.map (fun n => (n.2, pgsize)) ++ [(pa, pgsize)], ?_, ?_, ?_, hnoded, ?_, ?_, ?_⟩
  · rw [htask]
  · rw [htask]
  · rw [htask]
  · simpa using And.intro hu hpa
  · rw [hheap, append_assoc]
    rfl
  · have hnew : pagesAt (ns.map Prod.snd) = (ns.map fun n => (n.2, pgsize) : List (Nat × Nat)) := by
      rw [pagesAt, map_map]
      rfl
    rw [← Multiset.coe_add, hnew]
    refine ownedBy_le (le_of_eq ?_) (Multiset.le_add_right _ _)
    rw [htask, owned, owned, map_append, ← Multiset.coe_add]
    simp only [map_cons, map_nil]
    abel

theorem loadPages_recorded {bin : List UInt8} {len : Nat} : ∀ {is : List Nat} {k : Kernel},
    loadPages A bin len p is k = .ok k' → ∃ new ns blocks, Recorded p new ns blocks k k'
  | [], k, h => by
    cases h
    exact ⟨_, _, _, Recorded.same rfl rfl rfl rfl⟩
  | i :: is, k, h => by
    obtain ⟨⟨k1, pa⟩, h1, h⟩ := bind_ok h
    obtain ⟨d, -, h⟩ := bind_ok h
    obtain ⟨k2, h2, h⟩ := bind_ok h
    obtain ⟨_, _, hp⟩ := Recorded.page (allocOr_ok h1) h2
    obtain ⟨_, _, _, hr⟩ := loadPages_recorded h
    exact ⟨_, _, _, hp.trans hr⟩

theorem loadStack_recorded : ∀ {is : List Nat} {k : Kernel}, loadStack A p is k = .ok k' →
    ∃ new ns blocks, Recorded p new ns blocks k k'
  | [], k, h => by
    cases h
    exact ⟨_, _, _, Recorded.same rfl rfl rfl rfl⟩
  | i :: is, k, h => by
    obtain ⟨⟨k1, pa⟩, h1, h⟩ := bind_ok h
    obtain ⟨k2, h2, h⟩ := bind_ok h
    obtain ⟨_, _, hp⟩ := Recorded.page (allocOr_ok h1) h2
    obtain ⟨_, _, _, hr⟩ := loadStack_recorded h
    exact ⟨_, _, _, hp.trans hr⟩

theorem forkPages_recorded : ∀ {ms : List Vmap} {k : Kernel}, forkPages A p ms k = .ok k' →
    ∃ new ns blocks, Recorded p new ns blocks k k'
  | [], k, h => by
    cases h
    exact ⟨_, _, _, Recorded.same rfl rfl rfl rfl⟩
  | m :: ms, k, h => by
    obtain ⟨⟨k1, pa⟩, h1, h⟩ := bind_ok h
    obtain ⟨k2, h2, h⟩ := bind_ok h
    obtain ⟨_, _, hp⟩ := Recorded.page (allocOr_ok h1) h2
    obtain ⟨_, _, _, hr⟩ := forkPages_recorded h
    exact ⟨_, _, _, hp.trans hr⟩

theorem mmapPages_recorded {base prot : Nat} {b : Bool} : ∀ {is : List Nat} {k : Kernel},
    mmapPages A p base prot is k = .ok (k', b) → ∃ new ns blocks, Recorded p new ns blocks k k'
  | [], k, h => by
    cases h
    exact ⟨_, _, _, Recorded.same rfl rfl rfl rfl⟩
  | i :: is, k, h => by
    unfold mmapPages at h
    split at h
    · next k1 h1 =>
      cases h
      obtain ⟨hk, hm⟩ := memStep_alloc p h1
      exact ⟨_, _, _, Recorded.same (by rw [hk]) (by rw [hk]) (by rw [hk]) hm.heap⟩
    · next k1 pa h1 =>
      obtain ⟨k2, h2, h⟩ := bind_ok h
      obtain ⟨_, _, hp⟩ := Recorded.page h1 h2
      obtain ⟨_, _, _, hr⟩ := mmapPages_recorded h
      exact ⟨_, _, _, hp.trans hr⟩

theorem procLoadImage_recorded {bin : List UInt8} {len : Nat} (h : procLoadImage A k p bin len = .ok k') :
    ∃ new ns blocks, Recorded p new ns blocks k k' := by
  obtain ⟨k1, h1, h⟩ := bind_ok h
  obtain ⟨_, _, _, hl⟩ := loadPages_recorded h1
  obtain ⟨_, _, _, hs⟩ := loadStack_recorded h
  exact ⟨_, _, _, hl.trans hs⟩

theorem sysMmap_recorded {addr prot flags : Nat} {length : Int} {r : Option Nat}
    (h : sysMmap A k p addr length prot flags = .ok (k', r)) : ∃ new ns blocks, Recorded p new ns blocks k k' := by
  unfold sysMmap at h
  split at h
  · cases h
    exact ⟨_, _, _, Recorded.same rfl rfl rfl rfl⟩
  dsimp only at h
  split at h
  · cases h
    exact ⟨_, _, _, Recorded.same rfl rfl rfl rfl⟩
  obtain ⟨⟨k1, done⟩, h1, h⟩ := bind_ok h
  obtain ⟨_, _, _, hr⟩ := mmapPages_recorded h1
  dsimp only at h
  split at h
  · cases h
    exact ⟨_, _, _, hr⟩
  split at h
  · cases h
    refine ⟨_, _, _, hr.trans (Recorded.same ?_ ?_ ?_ rfl)⟩
    · rw [modify_tasks_self]
    · rw [modify_tasks_self]
    · rw [modify_tasks_self]
      rfl
  · cases h
    exact ⟨_, _, _, hr⟩

theorem Recorded.same_ptr (hr : Recorded p new ns blocks k k') {bs : List (Nat × Nat)} (hm : MemStep p bs k k')
    (t : TaskRef) : (k'.tasks t).addrSpace.ptr = (k.tasks t).addrSpace.ptr := by
  by_cases ht : t = p
  · rw [ht, hr.ptr]
  · rw [hm.other t ht]

/-! ## Beginning a space -/

def AddrSpace.pages (s : AddrSpace) : List Nat := s.nodes.map Prod.snd

/-- `p` has a space at `h`, in which the pages of its table have been mapped. Of the blocks `new` that
were taken, the one at `h` and those of the nodes belong to no process. -/
structure Begun (p : TaskRef) (h : Nat) (old : Multiset (Nat × Nat)) (new : List (Nat × Nat)) (k k' : Kernel) :
    Prop where
  ptr : (k'.tasks p).addrSpace.ptr = some h
  noded : Noded [] (k'.tasks p).maps (k'.tasks p).addrSpace.nodes.reverse
  valid : ∀ m ∈ (k'.tasks p).maps, UserPage m.va ∧ m.pa % pgsize = 0
  heap : k'.heap.live = new ++ k.heap.live
  held : ownedBy k' p + pagesAt (h :: (k'.tasks p).addrSpace.pages) ≤ old + new

theorem protect_begun (h : protect A k p = .ok k') (hmaps : (k.tasks p).maps = []) :
    ∃ h, Begun p h (ownedBy k p) [(h, pgsize)] k k' := by
  obtain ⟨⟨k1, a⟩, h1, h⟩ := bind_ok h
  cases h
  obtain ⟨-, rfl⟩ := pmmAlloc_some (allocOr_ok h1)
  refine ⟨a, ?_, ?_, ?_, rfl, ?_⟩
  · rw [modify_tasks_self]
  · rw [modify_tasks_self, hmaps]
    exact .nil
  · rw [modify_tasks_self, hmaps]
    simp
  · rw [modify_tasks_self]
    refine add_le_add_left (le_of_eq (ownedBy_owned ?_)) _
    rw [modify_tasks_self]
    rfl

section
variable {h : Nat} {old : Multiset (Nat × Nat)}

theorem Begun.mem (hb : Begun p h old blocks k k') (hr : Recorded p new ns blocks' k' k'') :
    Begun p h old (blocks' ++ blocks) k k'' where
  ptr := hr.ptr.trans hb.ptr
  noded := by
    rw [hr.maps, hr.nodes, reverse_append, reverse_reverse]
    refine hb.noded.append ?_
    rw [reverse_reverse, append_nil]
    exact hr.noded
  valid := by
    rw [hr.maps]
    exact fun m hmem => (mem_append.mp hmem).elim (hb.valid m) (hr.valid m)
  heap := by rw [hr.heap, hb.heap, append_assoc]
  held := by
    have hpages : pagesAt (h :: (k''.tasks p).addrSpace.pages) =
        pagesAt (ns.map Prod.snd) + pagesAt (h :: (k'.tasks p).addrSpace.pages) := by
      rw [← pagesAt_append, AddrSpace.pages, AddrSpace.pages, hr.nodes, map_append, map_reverse]
      refine pagesAt_perm ?_
      exact (((reverse_perm _).append_right _).cons h).trans perm_middle.symm
    rw [hpages, ← Multiset.coe_add]
    calc _ = ownedBy k'' p + pagesAt (ns.map Prod.snd) + pagesAt (h :: (k'.tasks p).addrSpace.pages) := by abel
      _ ≤ ownedBy k' p + blocks' + pagesAt (h :: (k'.tasks p).addrSpace.pages) := add_le_add_left hr.held _
      _ = ownedBy k' p + pagesAt (h :: (k'.tasks p).addrSpace.pages) + blocks' := by abel
      _ ≤ old + blocks + blocks' := add_le_add_left hb.held _
      _ = _ := by abel

theorem Begun.congr (hb : Begun p h old blocks k k') (hheap : k''.heap.live = k'.heap.live)
    (hs : (k''.tasks p).addrSpace = (k'.tasks p).addrSpace) (hm : (k''.tasks p).maps = (k'.tasks p).maps)
    (ho : owned (k''.tasks p) = owned (k'.tasks p)) : Begun p h old blocks k k'' where
  ptr := by rw [hs, hb.ptr]
  noded := by rw [hs, hm]; exact hb.noded
  valid := hm.symm ▸ hb.valid
  heap := hheap.trans hb.heap
  held := by rw [hs, ownedBy_owned ho]; exact hb.held

theorem Begun.modify {f : Task → Task} (hb : Begun p h old blocks k k') (hf : ∀ x, (f x).addrSpace = x.addrSpace ∧
    (f x).maps = x.maps ∧ owned (f x) = owned x) : Begun p h old blocks k (k'.modify p f) := by
  obtain ⟨hs, hm, ho⟩ := hf (k'.tasks p)
  refine hb.congr rfl ?_ ?_ ?_
  · rw [modify_tasks_self, hs]
  · rw [modify_tasks_self, hm]
  · rw [modify_tasks_self, ho]

theorem Begun.setFiles {r : Vfs × Files} (hb : Begun p h old blocks k k') :
    Begun p h old blocks k (k'.setFiles p r) := by
  refine hb.congr rfl ?_ ?_ ?_
  · rw [setFiles_tasks_self]
  · rw [setFiles_tasks_self]
  · rw [setFiles_tasks_self]
    rfl

theorem Begun.after (hb : Begun p h old blocks k1 k') (hheap : k1.heap.live = blocks' ++ k.heap.live)
    {old' : Multiset (Nat × Nat)} (hold : old ≤ old' + blocks') : Begun p h old' (blocks ++ blocks') k k' where
  ptr := hb.ptr
  noded := hb.noded
  valid := hb.valid
  heap := by rw [hb.heap, hheap, append_assoc]
  held := by
    rw [← Multiset.coe_add]
    calc _ ≤ old + blocks := hb.held
      _ ≤ old' + blocks' + blocks := add_le_add_left hold _
      _ = _ := by abel

end

theorem sysExec_begun {va : Nat} {path : CStr} (h : sysExec A k p va path = .ok (k', true)) :
    ∃ h new, Begun p h (ownedBy k p) new k k' ∧ (k'.tasks p).context.vmHead = some h := by
  unfold sysExec at h
  split at h
  · cases h
  split at h
  · cases h
  next bin len _ =>
  rcases hpm : pmmAlloc A k mapsBytes with ⟨k1, m⟩
  rw [hpm] at h
  dsimp only at h
  obtain ⟨k2, h2, h⟩ := bind_ok h
  obtain ⟨k3, h3, h⟩ := bind_ok h
  cases h
  obtain ⟨hk, hm⟩ := memStep_alloc p hpm
  obtain ⟨h, hb⟩ := protect_begun h2 (by rw [modify_tasks_self])
  -- the new table comes from the allocator, the old one and its pages are dropped
  have hdrop : ownedBy (k1.modify p fun x => { x with mapsPtr := m, maps := [], heapTop := userHeap }) p ≤
      ownedBy k p + (m.toList.map fun a => (a, mapsBytes) : List (Nat × Nat)) := by
    unfold ownedBy
    cases p with
    | proc a =>
      simp only [modify_tasks_self, owned, map_nil, Multiset.coe_nil, add_zero]
      exact add_le_add_left (Multiset.le_add_right _ _) _
    | idle c => simp
    | kernel i => simp
  have hb1 := hb.after (k := k) hm.heap hdrop
  obtain ⟨_, _, _, hl⟩ := procLoadImage_recorded h3
  have hb3 := hb1.mem hl
  refine ⟨h, _, hb3.modify fun _ => ⟨rfl, rfl, rfl⟩, ?_⟩
  rw [modify_tasks_self]
  exact hb3.ptr

/-- The space of a process that has just been made: its struct and its table are new as well. -/
theorem procAlloc_begun {t : TaskRef} (h : procAlloc A k = .ok (k', t)) : ∃ h new, Begun t h 0 new k k' := by
  obtain ⟨_, _, a, m, rfl, h1, h2, h3⟩ := procAlloc_steps h
  obtain ⟨-, rfl⟩ := pmmAlloc_some h1
  obtain ⟨-, rfl⟩ := pmmAlloc_some h2
  obtain ⟨h, hb⟩ := protect_begun h3 (by
    show ((Kmt.set _ (.proc a) _).tasks (.proc a)).maps = []
    rw [set_tasks_self]
    rfl)
  have hheap : (m, mapsBytes) :: (a, taskBytes) :: k.heap.live = [(m, mapsBytes), (a, taskBytes)] ++ k.heap.live := rfl
  refine ⟨h, _, hb.after (k := k) hheap ?_⟩
  show {(a, taskBytes)} + owned ((Kmt.set _ (.proc a) _).tasks (.proc a)) ≤ _
  rw [set_tasks_self]
  simp only [owned, freshTask, zeroTask, Option.toList_some, map_cons, map_nil, Multiset.coe_nil, add_zero]
  rw [add_comm, zero_add]
  rfl

theorem Begun.registered {h : Nat} {old : Multiset (Nat × Nat)} {blocks : List (Nat × Nat)}
    (hb : Begun p h old blocks k k') (hadd : ptableAdd k' p = .ok k'') :
    Begun p h old blocks k { k'' with toKmt := kmtRegister k''.toKmt p } ∧
      ((kmtRegister k''.toKmt p).tasks p).context = (k'.tasks p).context ∧ k''.ptable = k'.ptable ++ [p] := by
  obtain ⟨-, rfl⟩ := ptableAdd_ok hadd
  have hp : ((kmtRegister k'.toKmt p).tasks p) = { k'.tasks p with schedNext := k'.taskList } := set_tasks_self
  have hcontext : ((kmtRegister k'.toKmt p).tasks p).context = (k'.tasks p).context := by rw [hp]
  refine ⟨hb.congr rfl ?_ ?_ ?_, hcontext, rfl⟩
  · exact congrArg (·.addrSpace) hp
  · exact congrArg (·.maps) hp
  · show owned ((kmtRegister k'.toKmt p).tasks p) = _
    rw [hp]
    rfl

theorem procSpawn_begun {bin : List UInt8} {len : Nat} {t : TaskRef} (h : procSpawn A k bin len = .ok (k', t)) :
    ∃ h new, Begun t h 0 new k k' ∧ (k'.tasks t).context.vmHead = some h := by
  obtain ⟨⟨k1, t⟩, h1, h⟩ := bind_ok h
  obtain ⟨k2, h2, h⟩ := bind_ok h
  obtain ⟨k5, h5, h⟩ := bind_ok h
  cases h
  generalize vfsSetupStdio _ _ = r at h5
  obtain ⟨h, _, hb⟩ := procAlloc_begun h1
  obtain ⟨_, _, _, hl⟩ := procLoadImage_recorded h2
  have hb2 := hb.mem hl
  have hb3 := hb2.modify (f := fun x => { x with context := ucontext x t userBase }) fun _ => ⟨rfl, rfl, rfl⟩
  have hb4 : Begun t h 0 _ k _ := hb3.setFiles (r := r)
  obtain ⟨hb5, hc, -⟩ := hb4.registered h5
  refine ⟨h, _, hb5, ?_⟩
  show ((kmtRegister k5.toKmt t).tasks t).context.vmHead = _
  rw [hc, setFiles_tasks_self, modify_tasks_self]
  exact hb2.ptr

theorem sysFork_begun {ctx : Context} {pid : Int} (h : sysFork A k p ctx = .ok (k', pid)) :
    ∃ t h new, Begun t h 0 new k k' ∧ (k'.tasks t).context.vmHead = some h ∧ k'.ptable = k.ptable ++ [t] := by
  obtain ⟨⟨k1, t⟩, h1, h⟩ := bind_ok h
  obtain ⟨k3, h3, h⟩ := bind_ok h
  obtain ⟨k7, h7, h⟩ := bind_ok h
  cases h
  generalize vfsFork _ _ _ = r at h7
  obtain ⟨h, _, hb⟩ := procAlloc_begun h1
  have hb2 := hb.modify (f := fun x => { x with parent := some p }) fun _ => ⟨rfl, rfl, rfl⟩
  obtain ⟨_, hl⟩ := memStep_forkPages h3
  obtain ⟨_, _, _, hrec⟩ := forkPages_recorded h3
  have hb3 := hb2.mem hrec
  have hb4 := hb3.modify (f := fun x => { x with heapTop := (k3.tasks p).heapTop }) fun _ => ⟨rfl, rfl, rfl⟩
  have hb5 : Begun t h 0 _ k _ := hb4.setFiles (r := r)
  have hb6 := hb5.modify (f := fun x => { x with
    context := { ctx with gprx := 0, vmHead := x.addrSpace.ptr, ksp := kstackEnd t } }) fun _ => ⟨rfl, rfl, rfl⟩
  obtain ⟨hb7, hc, htab⟩ := hb6.registered h7
  refine ⟨t, h, _, hb7, ?_, ?_⟩
  · show ((kmtRegister k7.toKmt t).tasks t).context.vmHead = _
    rw [hc, modify_tasks_self]
    exact hb5.ptr
  · obtain ⟨a, _, rfl, hn⟩ := procAlloc_ok h1
    refine htab.trans ?_
    show k3.ptable ++ _ = _
    rw [hl.ptable, modify_ptable, hn.ptable]

end

end NjuOs
