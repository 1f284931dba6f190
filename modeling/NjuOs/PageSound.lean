import NjuOs.OsSound

/-!
# Pages of user processes

No physical page belongs to two mappings, and none goes back to the allocator while a
process of the table has it mapped.
-/

namespace NjuOs

open List

structure PagesIsolated (k : Kernel) : Prop where
  live : ∀ t ∈ k.ptable, ∀ m ∈ (k.tasks t).maps, (m.pa, pgsize) ∈ k.heap.live
  /-- the pages of all mappings of all processes, one after the other -/
  apart : (k.ptable.flatMap fun t => (k.tasks t).maps.map Vmap.pa).Pairwise fun a b =>
    a + pgsize ≤ b ∨ b + pgsize ≤ a
  freed : ∀ t ∈ k.ptable, ∃ h, procFreeMem k t = .ok { k.modify t fun x => { x with maps := [] } with heap := h } ∧
    (k.heap.live : Multiset (Nat × Nat)) =
      ((k.tasks t).mapsPtr.toList.map fun m => (m, mapsBytes) : List (Nat × Nat)) +
        ((k.tasks t).maps.map fun m => (m.pa, pgsize) : List (Nat × Nat)) + h.live

section
variable {k k' : Kernel} {s s' : OsSys} {a : OsAct} {t : TaskRef}

theorem owned_le_ownedBy {n : Nat} : owned (k.tasks (.proc n)) ≤ ownedBy k (.proc n) := Multiset.le_add_left _ _

theorem KernelBase.owned_live (h : KernelBase k) (ht : t ∈ k.ptable) : owned (k.tasks t) ≤ k.heap.live := by
  obtain ⟨n, rfl⟩ := h.procs t ht
  refine le_trans ?_ h.own.blocks
  rw [bag_erase (ownedBy k) ht]
  exact owned_le_ownedBy.trans (Multiset.le_add_right _ _)

theorem KernelBase.page_owned (h : KernelBase k) (ht : t ∈ k.ptable) {m : Vmap} (hm : m ∈ (k.tasks t).maps) :
    (m.pa, pgsize) ∈ ownedBy k t := by
  obtain ⟨n, rfl⟩ := h.procs t ht
  refine Multiset.mem_of_le owned_le_ownedBy (Multiset.mem_add.mpr (Or.inr ?_))
  exact Multiset.mem_coe.mpr (mem_map.mpr ⟨m, hm, rfl⟩)

theorem pairwise_of_le {β : Type*} {r : β → β → Prop} (hr : ∀ {a b}, r a b → r b a) {l l' : List β}
    (hle : (l : Multiset β) ≤ l') (h : l'.Pairwise r) : l.Pairwise r := by
  obtain ⟨l1, hp, hsub⟩ := Multiset.coe_le.mp hle
  exact (hp.pairwise_iff hr).mp (h.sublist hsub)

theorem pages_le (k : Kernel) : ∀ l : List TaskRef, (∀ t ∈ l, ∃ n, t = .proc n) →
    ((l.flatMap fun t => (k.tasks t).maps.map fun m => (m.pa, pgsize) : List (Nat × Nat)) : Multiset (Nat × Nat)) ≤
      bag (ownedBy k) l
  | [], _ => le_rfl
  | t :: l, h => by
    obtain ⟨n, rfl⟩ := h t (mem_cons_self ..)
    rw [flatMap_cons, ← Multiset.coe_add, bag_cons]
    refine add_le_add ?_ (pages_le k l fun u hu => h u (mem_cons_of_mem _ hu))
    exact (Multiset.le_add_left _ _).trans owned_le_ownedBy

theorem KernelBase.isolated (h : KernelBase k) : PagesIsolated k where
  live := fun t ht m hm => h.own.mem_live ht (h.page_owned ht hm)
  apart := by
    have hpw := pairwise_of_le (fun h => h.symm) ((pages_le k k.ptable h.procs).trans h.own.blocks)
      h.own.heapOk.apart
    have hmap : (k.ptable.flatMap fun t => (k.tasks t).maps.map Vmap.pa) =
        (k.ptable.flatMap fun t => (k.tasks t).maps.map fun m => (m.pa, pgsize)).map Prod.fst := by
      simp [map_flatMap, Function.comp_def]
    rw [hmap, pairwise_map]
    refine hpw.imp_of_mem ?_
    intro b c hb hc hbc
    obtain ⟨t, -, hb⟩ := mem_flatMap.mp hb
    obtain ⟨u, -, hc⟩ := mem_flatMap.mp hc
    obtain ⟨m, -, rfl⟩ := mem_map.mp hb
    obtain ⟨m', -, rfl⟩ := mem_map.mp hc
    exact hbc
  freed := by
    intro t ht
    obtain ⟨hp, h1, -, h2⟩ := procFreeMem_total h.own.heapOk (h.owned_live ht)
    exact ⟨hp, h1, h2⟩

/-- Only reaping gives blocks back, and only those of the child that is reaped. -/
theorem OsMove.kept (h : KernelInv s.k) (hm : OsMove s a s') (ht : t ∈ s.k.ptable) (ht' : t ∈ s'.k.ptable)
    {b : Nat × Nat} (hb : b ∈ ownedBy s.k t) : b ∈ s'.k.heap.live := by
  have hlive := h.own.mem_live ht hb
  cases hm with
  | sched => exact hlive
  | tick now => rw [(uprocTick_frame s.k now).2]; exact hlive
  | mem _ _ hm => rw [trapped_k, hm.heap]; exact mem_append_right _ hlive
  | fork _ _ hb => simp only [trapped_k, hb.heap]; exact mem_append_right _ hlive
  | spawn hb => simp only [hb.heap]; exact mem_append_right _ hlive
  | exit _ _ _ hd => rw [trapped_k, hd.heap]; exact hlive
  | fault _ _ _ hd => rw [trapped_k, hd.heap]; exact hlive
  | kill _ _ _ _ hd => rw [trapped_k, hd.heap]; exact hlive
  | sleepStart => exact hlive
  | sleepDone => exact hlive
  | sleepAgain => exact hlive
  | park => exact hlive
  | retry => exact hlive
  | reap _ _ hr =>
    have hown := (h.own.perm hr.table.symm).blocks
    rw [bag_cons, hr.heap] at hown
    have hrest := Multiset.le_of_add_le_add_left hown
    exact Multiset.mem_coe.mp (Multiset.mem_of_le hrest ((mem_bag _).mpr ⟨t, ht', hb⟩))

end

end NjuOs
