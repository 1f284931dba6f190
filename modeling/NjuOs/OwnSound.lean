import NjuOs.UprocLemmas

/-!
# Who owns which block

Every process in a list owns its struct, its table of mappings and the pages in it, all of
them live and no block twice. Freeing what one process owns therefore always succeeds and
takes away exactly that.
-/

namespace NjuOs

open Function List

def ownedBy (k : Kernel) (t : TaskRef) : Multiset (Nat × Nat) :=
  match t with
  | .proc a => {(a, taskBytes)} + owned (k.tasks t)
  | _ => 0

structure Own (k : Kernel) (l : List TaskRef) : Prop where
  heapOk : HeapOk k.heap
  blocks : bag (ownedBy k) l ≤ (k.heap.live : Multiset (Nat × Nat))

section
variable {k k' : Kernel} {l : List TaskRef} {t p : TaskRef} {new : List (Nat × Nat)}

theorem Own.mem_live (h : Own k l) (ht : t ∈ l) {b : Nat × Nat} (hb : b ∈ ownedBy k t) : b ∈ k.heap.live := by
  have hm : b ∈ bag (ownedBy k) l := (mem_bag _).mpr ⟨t, ht, hb⟩
  exact Multiset.mem_coe.mp (Multiset.mem_of_le h.blocks hm)

theorem Own.nodup_bag (h : Own k l) : (bag (ownedBy k) l).Nodup :=
  Multiset.nodup_of_le h.blocks (Multiset.coe_nodup.mpr h.heapOk.nodup)

theorem Own.struct_live (h : Own k l) {a : Nat} (ha : .proc a ∈ l) : (a, taskBytes) ∈ k.heap.live :=
  h.mem_live ha (by simp [ownedBy])

theorem Own.nodup (h : Own k l) (hl : ∀ t ∈ l, ∃ a, t = .proc a) : l.Nodup := by
  rw [nodup_iff_count_le_one]
  intro t
  by_cases ht : t ∈ l
  · obtain ⟨a, rfl⟩ := hl t ht
    have hb : (a, taskBytes) ∈ ownedBy k (.proc a) := by simp [ownedBy]
    exact (count_le_count_bag (ownedBy k) hb l).trans (Multiset.nodup_iff_count_le_one.mp h.nodup_bag _)
  · rw [count_eq_zero_of_not_mem ht]
    exact Nat.zero_le _

/-! ## Growing -/

theorem ownedBy_congr (h : k'.tasks t = k.tasks t) : ownedBy k' t = ownedBy k t := by
  unfold ownedBy
  cases t <;> simp only [h]

theorem ownedBy_owned (h : owned (k'.tasks t) = owned (k.tasks t)) : ownedBy k' t = ownedBy k t := by
  unfold ownedBy
  cases t <;> simp only [h]

theorem Own.perm {l' : List TaskRef} (h : Own k l) (hp : l.Perm l') : Own k l' := by
  refine ⟨h.heapOk, ?_⟩
  have : bag (ownedBy k) l' = bag (ownedBy k) l := ((hp.map _).sum_eq).symm
  rw [this]
  exact h.blocks

theorem Own.mem (h : Own k l) (hnd : l.Nodup) (hs : MemStep p new k k') : Own k' l := by
  refine ⟨hs.heapOk h.heapOk, ?_⟩
  rw [hs.heap, ← Multiset.coe_add]
  by_cases hp : p ∈ l
  · have hrest : bag (ownedBy k') (l.erase p) = bag (ownedBy k) (l.erase p) := by
      apply bag_congr
      intro t ht
      exact ownedBy_congr (hs.other t (List.Nodup.mem_erase_iff hnd |>.mp ht).1)
    have hown : ownedBy k' p ≤ ownedBy k p + new := by
      unfold ownedBy
      cases p with
      | proc a =>
        simp only
        rw [add_assoc]
        exact add_le_add_right hs.owned _
      | idle c => simp
      | kernel i => simp
    have hb := h.blocks
    rw [bag_erase _ hp] at hb ⊢
    rw [hrest]
    calc ownedBy k' p + bag (ownedBy k) (l.erase p)
        ≤ ownedBy k p + new + bag (ownedBy k) (l.erase p) := add_le_add_left hown _
      _ = new + (ownedBy k p + bag (ownedBy k) (l.erase p)) := by abel
      _ ≤ new + k.heap.live := add_le_add_right hb _
  · have hsame : bag (ownedBy k') l = bag (ownedBy k) l := by
      apply bag_congr
      intro t ht
      apply ownedBy_congr
      apply hs.other
      rintro rfl
      exact hp ht
    rw [hsame]
    exact h.blocks.trans (Multiset.le_add_left _ _)

theorem Own.born {a : Nat} {par : Option TaskRef} {redo : Option Blocking} (h : Own k l)
    (hb : Born a par redo new k k') : .proc a ∉ l ∧ Own k' (l ++ [.proc a]) := by
  have hnew : .proc a ∉ l := by
    intro ha
    have hlive := h.struct_live ha
    exact hb.fresh _ hlive (h.heapOk.pos _ hlive) rfl
  refine ⟨hnew, hb.heapOk h.heapOk, ?_⟩
  have hold : bag (ownedBy k') l = bag (ownedBy k) l := by
    apply bag_congr
    intro t ht
    apply ownedBy_congr
    apply hb.other
    rintro rfl
    exact hnew ht
  rw [bag_append, hold, bag_cons, bag_nil, add_zero, hb.heap, ← Multiset.coe_add, add_comm]
  exact add_le_add hb.owned h.blocks

theorem Own.congr (h : Own k l) (hh : k'.heap = k.heap) (ho : ∀ t ∈ l, owned (k'.tasks t) = owned (k.tasks t)) :
    Own k' l := by
  refine ⟨hh ▸ h.heapOk, ?_⟩
  rw [hh]
  have hsame : bag (ownedBy k') l = bag (ownedBy k) l := by
    apply bag_congr
    intro t ht
    exact ownedBy_owned (ho t ht)
  rw [hsame]
  exact h.blocks

end

/-! ## Freeing -/

section
variable {k k' : Kernel} {t : TaskRef}

theorem pmmFree_live (hk : HeapOk k.heap) {b : Nat × Nat} (hb : b ∈ k.heap.live) :
    pmmFree k b.1 = .ok { k with heap := { k.heap with live := k.heap.live.erase b } } := by
  unfold pmmFree
  cases hf : k.heap.live.find? (·.1 = b.1) with
  | none =>
    have := find?_eq_none.mp hf b hb
    simp at this
  | some b' =>
    have h1 : b'.1 = b.1 := by simpa using find?_some hf
    have h2 := hk.addr_inj b' (mem_of_find?_eq_some hf) b hb h1
    rw [h2]

theorem HeapOk.erase {h : Heap} (hh : HeapOk h) (b : Nat × Nat) : HeapOk { h with live := h.live.erase b } where
  pos := fun c hc => hh.pos c (mem_of_mem_erase hc)
  apart := hh.apart.sublist erase_sublist

theorem freeMaps_total : ∀ (ms : List Vmap) (k : Kernel), HeapOk k.heap →
    ((ms.map fun m => (m.pa, pgsize) : List (Nat × Nat)) : Multiset (Nat × Nat)) ≤ k.heap.live →
    ∃ h, freeMaps ms k = .ok { k with heap := h } ∧ HeapOk h ∧
      (k.heap.live : Multiset (Nat × Nat)) = (ms.map fun m => (m.pa, pgsize) : List (Nat × Nat)) + h.live
  | [], k, hk, _ => ⟨k.heap, rfl, hk, by simp⟩
  | m :: ms, k, hk, hle => by
    rw [map_cons, ← Multiset.cons_coe] at hle
    have hm : (m.pa, pgsize) ∈ k.heap.live := Multiset.mem_coe.mp (Multiset.mem_of_le hle (Multiset.mem_cons_self ..))
    have hfree := pmmFree_live hk hm
    have hrest : ((ms.map fun m => (m.pa, pgsize) : List (Nat × Nat)) : Multiset (Nat × Nat)) ≤
        (k.heap.live.erase (m.pa, pgsize) : List (Nat × Nat)) := by
      rw [coe_eq_cons_erase hm] at hle
      exact (Multiset.cons_le_cons_iff _).mp hle
    obtain ⟨h, h1, h2, h3⟩ := freeMaps_total ms
      { k with heap := { k.heap with live := k.heap.live.erase (m.pa, pgsize) } } (hk.erase _) hrest
    refine ⟨h, ?_, h2, ?_⟩
    · show (pmmFree k m.pa >>= fun k => freeMaps ms k) = _
      rw [hfree]
      exact h1
    · rw [map_cons, ← Multiset.cons_coe, Multiset.cons_add, ← h3]
      exact coe_eq_cons_erase hm

/-- `proc_free_mem` frees what the process owns besides its struct, each block once. -/
theorem procFreeMem_total (hk : HeapOk k.heap) (hle : owned (k.tasks t) ≤ k.heap.live) :
    ∃ h, procFreeMem k t = .ok { k.modify t fun x => { x with maps := [] } with heap := h } ∧ HeapOk h ∧
      (k.heap.live : Multiset (Nat × Nat)) = owned (k.tasks t) + h.live := by
  have hpages := (Multiset.le_add_left _ _).trans hle
  obtain ⟨h, h1, h2, h3⟩ := freeMaps_total (k.tasks t).maps k hk hpages
  have hptr : ((Kernel.modify { k with heap := h } t fun x => { x with maps := [] }).tasks t).mapsPtr =
      (k.tasks t).mapsPtr := by rw [modify_tasks_self]
  unfold procFreeMem owned
  rw [h1]
  simp only [bind, Except.bind, hptr]
  cases hm : (k.tasks t).mapsPtr with
  | none =>
    refine ⟨h, rfl, h2, ?_⟩
    simp only [Option.toList_none, map_nil, Multiset.coe_nil, zero_add]
    exact h3
  | some m =>
    -- what is left after the pages still holds the table
    have hlive : (m, mapsBytes) ∈ h.live := by
      rw [owned, hm, h3, add_comm] at hle
      have := Multiset.le_of_add_le_add_left hle
      exact Multiset.mem_coe.mp (Multiset.mem_of_le this (by simp))
    have hfree := pmmFree_live (k := { k.modify t fun x => { x with maps := [] } with heap := h }) h2 hlive
    refine ⟨{ h with live := h.live.erase (m, mapsBytes) }, hfree, h2.erase _, ?_⟩
    simp only [Option.toList_some, map_cons, map_nil]
    rw [h3, coe_eq_cons_erase hlive, ← Multiset.singleton_add, Multiset.coe_singleton]
    abel

theorem reapFree_total {a : Nat} (hk : HeapOk k.heap) (hle : ownedBy k (.proc a) ≤ k.heap.live) :
    ∃ h, reapFree k (.proc a) = .ok { k.modify (.proc a) fun x => { x with maps := [] } with
        heap := h
        live := update k.live (.proc a) false } ∧ HeapOk h ∧
      (k.heap.live : Multiset (Nat × Nat)) = ownedBy k (.proc a) + h.live := by
  have hmem : owned (k.tasks (.proc a)) ≤ k.heap.live := (Multiset.le_add_left _ _).trans hle
  obtain ⟨h, h1, h2, h3⟩ := procFreeMem_total hk hmem
  have hlive : (a, taskBytes) ∈ h.live := by
    rw [ownedBy, h3, add_comm] at hle
    have := Multiset.le_of_add_le_add_left hle
    exact Multiset.mem_coe.mp (Multiset.mem_of_le this (by simp))
  have hfree := pmmFree_live (k := { k.modify (.proc a) fun x => { x with maps := [] } with heap := h }) h2 hlive
  refine ⟨{ h with live := h.live.erase (a, taskBytes) }, ?_, h2.erase _, ?_⟩
  · unfold reapFree
    rw [h1]
    simp only [bind, Except.bind]
    simp only at hfree
    rw [hfree]
    rfl
  · rw [h3, ownedBy, coe_eq_cons_erase hlive, ← Multiset.singleton_add]
    abel

end

/-! ## Reaping -/

def Reapable (k : Kernel) (p c : TaskRef) : Prop :=
  (k.tasks c).parent = some p ∧ (k.tasks c).xstate = true ∧ (k.tasks c).onCpu = false

instance (k : Kernel) (p c : TaskRef) : Decidable (Reapable k p c) := inferInstanceAs (Decidable (_ ∧ _ ∧ _))

inductive Scanned (k : Kernel) (p : TaskRef) : Kernel → WaitResult → Prop
  | reaped {c : TaskRef} {l : List TaskRef} (hc : Reapable k p c) (hl : (c :: l).Perm k.ptable) :
    Scanned k p { k with ptable := l } (.reaped c)
  | retry {c : TaskRef} (hno : ∀ c ∈ k.ptable, ¬Reapable k p c) (hc : c ∈ k.ptable)
    (hp : (k.tasks c).parent = some p) (hz : (k.tasks c).xstate = true) : Scanned k p k .retry
  | block {c : TaskRef} (hno : ∀ c ∈ k.ptable, (k.tasks c).parent = some p → (k.tasks c).xstate = false)
    (hc : c ∈ k.ptable) (hp : (k.tasks c).parent = some p) : Scanned k p k .block
  | none (hno : ∀ c ∈ k.ptable, (k.tasks c).parent ≠ some p) : Scanned k p k .none

theorem reapScan_ok (k : Kernel) (p : TaskRef) : Scanned k p (reapScan k p).1 (reapScan k p).2 := by
  unfold reapScan
  split
  · next i hi =>
    obtain ⟨hlen, hdec, -⟩ := findIdx?_eq_some_iff_getElem.mp hi
    have hget : k.ptable[i]? = some k.ptable[i] := getElem?_eq_getElem hlen
    rw [hget]
    exact .reaped (of_decide_eq_true hdec) (swapRemove_perm hget)
  · next hi =>
    have hno : ∀ c ∈ k.ptable, ¬Reapable k p c := by
      intro c hc
      have := findIdx?_eq_none_iff.mp hi c hc
      exact of_decide_eq_false this
    split
    · next hz =>
      obtain ⟨c, hc, hd⟩ := any_eq_true.mp hz
      obtain ⟨h1, h2⟩ := of_decide_eq_true hd
      exact .retry hno hc h1 h2
    · next hz =>
      have hno' : ∀ c ∈ k.ptable, (k.tasks c).parent = some p → (k.tasks c).xstate = false := by
        intro c hc hp
        by_contra hx
        exact hz (any_eq_true.mpr ⟨c, hc, decide_eq_true ⟨hp, by simpa using hx⟩⟩)
      split
      · next hch =>
        obtain ⟨c, hc, hd⟩ := any_eq_true.mp hch
        exact .block hno' hc (of_decide_eq_true hd)
      · next hch =>
        refine .none fun c hc hp => hch (any_eq_true.mpr ⟨c, hc, decide_eq_true hp⟩)

theorem Scanned.none_inv {k k' : Kernel} {p : TaskRef} (h : Scanned k p k' .none) :
    ∀ c ∈ k.ptable, (k.tasks c).parent ≠ some p := by
  cases h with
  | none hno => exact hno

theorem Scanned.retry_inv {k k' : Kernel} {p : TaskRef} (h : Scanned k p k' .retry) :
    (∀ c ∈ k.ptable, ¬Reapable k p c) ∧ ∃ c ∈ k.ptable, (k.tasks c).parent = some p ∧ (k.tasks c).xstate = true := by
  cases h with
  | retry hno hc hp hz => exact ⟨hno, _, hc, hp, hz⟩

theorem Scanned.block_inv {k k' : Kernel} {p : TaskRef} (h : Scanned k p k' .block) :
    (∀ c ∈ k.ptable, (k.tasks c).parent = some p → (k.tasks c).xstate = false) ∧
      ∃ c ∈ k.ptable, (k.tasks c).parent = some p := by
  cases h with
  | block hno hc hp => exact ⟨hno, _, hc, hp⟩

structure Reaped (k : Kernel) (p c : TaskRef) (k' : Kernel) : Prop where
  child : Reapable k p c
  table : (c :: k'.ptable).Perm k.ptable
  other : ∀ t, t ≠ c → k'.tasks t = { k.tasks t with schedNext := (k'.tasks t).schedNext }
  live : k'.live = update k.live c false
  current : k'.current = k.current
  prevTask : k'.prevTask = k.prevTask
  nextPid : k'.nextPid = k.nextPid
  initproc : k'.initproc = k.initproc
  cpu : CpuInv k.toKmt → k.live c = true → CpuInv k'.toKmt
  heapOk : HeapOk k'.heap
  heap : (k.heap.live : Multiset (Nat × Nat)) = ownedBy k c + k'.heap.live

section
variable {k k' : Kernel} {p : TaskRef}

theorem reapTeardown_ok {c : TaskRef} (h : reapTeardown k c = .ok k') :
    k' = { k with toKmt := k'.toKmt } ∧ kmtTeardown k.toKmt c = .ok k'.toKmt ∧
      k'.live = k.live ∧ k'.current = k.current ∧ k'.prevTask = k.prevTask ∧
      ∀ t, k'.tasks t = { k.tasks t with schedNext := (k'.tasks t).schedNext } := by
  obtain ⟨m, hm, h⟩ := bind_ok h
  cases h
  refine ⟨rfl, hm, ?_⟩
  rcases unlinkLoop_ok hm with rfl | rfl | ⟨q, rfl⟩
  · exact ⟨rfl, rfl, rfl, fun t => rfl⟩
  · exact ⟨rfl, rfl, rfl, fun t => rfl⟩
  · refine ⟨rfl, rfl, rfl, fun t => ?_⟩
    by_cases ht : t = q
    · subst ht; simp only [set_tasks_self]
    · simp only [set_tasks_ne ht]

/-- One child is reaped: its struct was off every CPU, so no CPU loses a task. -/
theorem reapFree_ok {a : Nat} {k1 : Kernel} (hk : HeapOk k.heap) (hle : ownedBy k (.proc a) ≤ k.heap.live)
    (hc : Reapable k p (.proc a)) {l : List TaskRef} (hl : (.proc a :: l).Perm k.ptable)
    (ht : reapTeardown { k with ptable := l } (.proc a) = .ok k1) (h : reapFree k1 (.proc a) = .ok k') :
    Reaped k p (.proc a) k' := by
  obtain ⟨h1, h2, h3, h4, h5, h6⟩ := reapTeardown_ok ht
  have hheap : k1.heap = k.heap := by rw [h1]
  have hown : ownedBy k1 (.proc a) = ownedBy k (.proc a) := by
    apply ownedBy_owned
    rw [h6]
    rfl
  obtain ⟨hp, e1, e2, e3⟩ := reapFree_total (k := k1) (a := a) (hheap ▸ hk) (by rw [hown, hheap]; exact hle)
  cases e1.symm.trans h
  constructor
  case child => exact hc
  case table =>
    have : k1.ptable = l := by rw [h1]
    show (TaskRef.proc a :: k1.ptable).Perm k.ptable
    rw [this]; exact hl
  case other =>
    intro t hta
    simp only [modify_tasks_ne hta]
    exact h6 t
  case live => exact congrArg (update · (TaskRef.proc a) false) h3
  case current => exact h4
  case prevTask => exact h5
  case nextPid =>
    show k1.nextPid = _
    rw [h1]
  case initproc =>
    show k1.initproc = _
    rw [h1]
  case cpu =>
    intro hcpu hlive
    have hcpu1 : CpuInv k1.toKmt := CpuInv.teardown (k := k.toKmt) hcpu h2
    have hcpu2 : CpuInv (k1.modify (.proc a) fun x => { x with maps := [] }).toKmt :=
      hcpu1.congr (SameCpu.set rfl rfl rfl)
    refine CpuInv.leave hcpu2 ?_ fun c hc => by cases hc
    intro d hd
    have hd1 : k.toKmt.Refs d (.proc a) := by
      unfold Kmt.Refs at hd ⊢
      rw [← show k1.current d = k.current d from congrFun h4 d,
        ← show k1.prevTask d = k.prevTask d from congrFun h5 d]
      exact hd
    have hon := (CpuRel.onCpu hcpu (.proc a) hlive).mpr ⟨d, hd1⟩
    rw [hc.2.2] at hon
    cases hon
  case heapOk => exact e2
  case heap =>
    rw [← hown, ← e3, hheap]

theorem tryReap_ok {r : WaitResult} {pid st : Int} (hown : Own k k.ptable) (hproc : ∀ t ∈ k.ptable, ∃ a, t = .proc a)
    (h : tryReap k p = .ok (k', r, pid, st)) :
    (∃ c, r = .reaped c ∧ pid = (k.tasks c).pid ∧ st = (k.tasks c).exitStatus ∧ Reaped k p c k') ∨
    k' = k ∧ (∀ c, r ≠ .reaped c) ∧ Scanned k p k r := by
  unfold tryReap at h
  have hs := reapScan_ok k p
  generalize reapScan k p = w at h hs
  obtain ⟨k0, r0⟩ := w
  cases hs with
  | @reaped c l hc hl =>
    left
    simp only at h
    obtain ⟨k1, h1, h⟩ := bind_ok h
    obtain ⟨k2, h2, h⟩ := bind_ok h
    cases h
    have hmem : c ∈ k.ptable := hl.subset (mem_cons_self ..)
    obtain ⟨a, rfl⟩ := hproc c hmem
    have hle : ownedBy k (.proc a) ≤ k.heap.live := by
      have h3 := (hown.perm hl.symm).blocks
      rw [bag_cons] at h3
      exact (Multiset.le_add_right _ _).trans h3
    exact ⟨.proc a, rfl, rfl, rfl, reapFree_ok hown.heapOk hle hc hl h1 h2⟩
  | retry hno hc hp hz => right; cases h; exact ⟨rfl, (fun c hc => by cases hc), .retry hno hc hp hz⟩
  | block hno hc hp => right; cases h; exact ⟨rfl, (fun c hc => by cases hc), .block hno hc hp⟩
  | none hno => right; cases h; exact ⟨rfl, (fun c hc => by cases hc), .none hno⟩

theorem Own.reaped {c : TaskRef} {l : List TaskRef} (h : Own k (c :: l)) (hr : Reaped k p c k')
    (hc : c ∉ l) : Own k' l := by
  refine ⟨hr.heapOk, ?_⟩
  have hb := h.blocks
  rw [bag_cons, hr.heap] at hb
  have hsame : bag (ownedBy k') l = bag (ownedBy k) l := by
    apply bag_congr
    intro t ht
    apply ownedBy_owned
    rw [hr.other t fun he => hc (he ▸ ht)]
    rfl
  rw [hsame]
  exact Multiset.le_of_add_le_add_left hb

end

end NjuOs
