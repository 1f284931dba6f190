import NjuOs.MapSound

/-!
# Requests for memory

The sizes that a call asks the allocator for, one after the other, as long as it is given them: a page for
each page that is mapped, and one for its node where the address has none yet.
-/

namespace NjuOs

def Heap.take (A : Allocator) (h : Heap) (size : Nat) : Option Heap :=
  (A.alloc h size).map fun a => ⟨(a, size) :: h.live, h.calls + 1⟩

def Served (A : Allocator) (h : Heap) (sizes : List Nat) : Prop := (run (Heap.take A) h sizes).isSome = true

instance (A : Allocator) (h : Heap) (sizes : List Nat) : Decidable (Served A h sizes) :=
  inferInstanceAs (Decidable (_ = _))

def mapRequests (keys : List Nat) : List Nat → List Nat
  | [] => []
  | va :: vas => pgsize :: ((if va ∈ keys then [] else [pgsize]) ++ mapRequests (keys.insert va) vas)

def imageVas (len : Nat) : List Nat :=
  (List.range (imagePages len)).map (fun i => userBase + i * pgsize) ++
    (List.range stkPages).map fun i => userEnd - (i + 1) * pgsize

def procRequests (vas : List Nat) : List Nat := taskBytes :: mapsBytes :: pgsize :: mapRequests [] vas

def mmapRequests (x : Task) (addr : Nat) (length : Int) : List Nat := mapRequests x.addrSpace.keys (mmapVas x addr length)

def callRequests (k : Kernel) (p : TaskRef) : Syscall → List Nat
  | .mmap addr length _ flags => if flags = mapUnmap then [] else mmapRequests (k.tasks p) addr length
  | .fork => procRequests (k.tasks p).vas
  | .exec va path =>
    if userOk va 1 = false then []
    else
      match execImage k (progName path.str) with
      | none => []
      | some (_, len) => mapsBytes :: pgsize :: mapRequests [] (imageVas len)
  | _ => []

/-- The requests of a step to `pmm->alloc`, apart from those of the file calls. -/
def OsSys.requests (s : OsSys) : OsAct → List Nat
  | .syscall c _ _ call =>
    match s.user c with
    | none => []
    | some p => callRequests s.k p call
  | .spawn _ len => procRequests (imageVas len)
  | _ => []

section
variable {A : Allocator} {k k1 k' k'' : Kernel} {p : TaskRef} {size a : Nat} {sizes vas vas' : List Nat}

theorem not_served_none (h : A.alloc k.heap size = none) : ¬Served A k.heap (size :: sizes) := by
  rw [Served, run_cons, Heap.take, h]
  simp

theorem served_alloc (h : pmmAlloc A k size = (k', some a)) :
    Served A k.heap (size :: sizes) ↔ Served A k'.heap sizes := by
  obtain ⟨ha, rfl⟩ := pmmAlloc_some h
  rw [Served, run_cons, Heap.take, ha]
  rfl

theorem served_amMap {va pa : Nat} (h : amMap A k p va pa = .ok k') :
    (k'.tasks p).addrSpace.keys = (k.tasks p).addrSpace.keys.insert va ∧
    (Served A k.heap ((if va ∈ (k.tasks p).addrSpace.keys then [] else [pgsize]) ++ sizes) ↔ Served A k'.heap sizes) := by
  unfold amMap at h
  split at h
  · cases h
  split at h
  · cases h
  split at h
  · cases h
  split at h
  · next hmem =>
    cases h
    rw [if_pos hmem]
    exact ⟨(List.insert_of_mem hmem).symm, Iff.rfl⟩
  next hnew =>
  split at h
  · cases h
  next k1 q h1 =>
  cases h
  rw [if_neg hnew]
  have hserved : _ ↔ Served A k1.heap sizes := served_alloc h1
  refine ⟨?_, hserved⟩
  have htasks := congrArg Kmt.tasks (memStep_alloc p h1).1
  rw [modify_tasks_self, htasks]
  exact (List.insert_of_not_mem hnew).symm

/-! ## Pages -/

structure Paged (A : Allocator) (p : TaskRef) (new : List Nat) (k k' : Kernel) : Prop extends Mapped p new k k' where
  served : ∀ {rest}, Served A k.heap (mapRequests (k.tasks p).addrSpace.keys (new ++ rest)) ↔
    Served A k'.heap (mapRequests (k'.tasks p).addrSpace.keys rest)

theorem Paged.refl (p : TaskRef) (k : Kernel) : Paged A p [] k k := ⟨Mapped.refl p k, Iff.rfl⟩

theorem Paged.trans (h : Paged A p vas k k') (h' : Paged A p vas' k' k'') : Paged A p (vas ++ vas') k k'' where
  toMapped := h.toMapped.trans h'.toMapped
  served := by
    intro rest
    rw [List.append_assoc, h.served, h'.served]

theorem Paged.page {va pa prot : Nat} {d : List UInt8} (ha : pmmAlloc A k pgsize = (k1, some pa))
    (h : upMap A (k1.setPage pa d) p va pa prot = .ok k') : Paged A p [va] k k' where
  toMapped := Mapped.page ha h
  served := by
    intro rest
    have htasks := congrArg Kmt.tasks (memStep_alloc p ha).1
    unfold upMap at h
    split at h
    · cases h
    split at h
    · cases h
    have hm : ∀ sizes, _ ∧ (_ ↔ Served A k'.heap sizes) := fun sizes => served_amMap h
    rw [modify_tasks_self] at hm
    obtain ⟨hkeys, hs⟩ := hm (mapRequests (k'.tasks p).addrSpace.keys rest)
    have hold : AddrSpace.keys (Task.addrSpace { (k1.setPage pa d).tasks p with
        maps := ((k1.setPage pa d).tasks p).maps ++ [⟨va, pa, prot⟩] }) =
        (k.tasks p).addrSpace.keys := congrArg (fun t => (t p).addrSpace.keys) htasks
    rw [hold] at hkeys hs
    rw [List.singleton_append, mapRequests, ← hkeys, served_alloc ha]
    exact hs

theorem loadPages_paged {bin : List UInt8} {len : Nat} : ∀ {is : List Nat} {k : Kernel},
    loadPages A bin len p is k = .ok k' → Paged A p (is.map fun i => userBase + i * pgsize) k k'
  | [], k, h => by
    cases h
    exact Paged.refl p _
  | i :: is, k, h => by
    obtain ⟨⟨k1, pa⟩, h1, h⟩ := bind_ok h
    obtain ⟨d, -, h⟩ := bind_ok h
    obtain ⟨k2, h2, h⟩ := bind_ok h
    exact (Paged.page (allocOr_ok h1) h2).trans (loadPages_paged h)

/-- All pages were there exactly if all requests were answered. -/
theorem mmapPages_paged {base prot : Nat} {b : Bool} : ∀ {is : List Nat} {k : Kernel},
    mmapPages A p base prot is k = .ok (k', b) →
      (b = true ↔ Served A k.heap (mapRequests (k.tasks p).addrSpace.keys (is.map fun i => add64 base (i * pgsize))))
  | [], k, h => by
    cases h
    exact iff_of_true rfl rfl
  | i :: is, k, h => by
    unfold mmapPages at h
    split at h
    · next k1 h1 =>
      cases h
      refine iff_of_false (by simp) (not_served_none ?_)
      by_contra hsome
      obtain ⟨a, ha⟩ := Option.ne_none_iff_exists'.mp hsome
      rw [pmmAlloc, ha] at h1
      cases h1
    · next k1 pa h1 =>
      obtain ⟨k2, h2, h⟩ := bind_ok h
      rw [mmapPages_paged h]
      exact (Paged.page h1 h2).served.symm

theorem protect_served (h : protect A k p = .ok k') : (k'.tasks p).addrSpace.keys = [] ∧
    (Served A k.heap (pgsize :: sizes) ↔ Served A k'.heap sizes) := by
  obtain ⟨⟨k1, a⟩, h1, h⟩ := bind_ok h
  cases h
  have hserved : _ ↔ Served A k1.heap sizes := served_alloc (allocOr_ok h1)
  refine ⟨?_, hserved⟩
  rw [modify_tasks_self]
  rfl

theorem procAlloc_served {t : TaskRef} (h : procAlloc A k = .ok (k', t)) : (k'.tasks t).addrSpace.keys = [] ∧
    (Served A k.heap (taskBytes :: mapsBytes :: pgsize :: sizes) ↔ Served A k'.heap sizes) := by
  obtain ⟨_, _, a, m, rfl, h1, h2, h3⟩ := procAlloc_steps h
  obtain ⟨hkeys, hs⟩ : _ ∧ (_ ↔ Served A k'.heap sizes) := protect_served h3
  exact ⟨hkeys, by rw [served_alloc h1, served_alloc h2, ← hs]⟩

end

end NjuOs
