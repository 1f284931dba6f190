import Mathlib.Algebra.Order.Floor.Div
import NjuOs.PageFill
import NjuOs.Requests

/-!
# `mmap`, page by page

A call that succeeds has appended its pages, all zero, at consecutive addresses. A call that runs
out of memory leaves the pages it got before: it changes nothing only if it got none.
-/

namespace NjuOs

open List Option

def mmapProt (prot : Nat) : Nat :=
  let r := if prot &&& protRead ≠ 0 then mmapRead else 0
  let w := if prot &&& protWrite ≠ 0 then mmapWrite else 0
  if r ||| w = 0 then mmapRead else r ||| w

def MmapExact (k k' : Kernel) (p : TaskRef) (length : Int) : Option Nat → Prop
  | none => (k'.tasks p).maps = (k.tasks p).maps ∧ (k'.tasks p).heapTop = (k.tasks p).heapTop ∧
      k'.heap.live = k.heap.live
  | some base => base % pgsize = 0 ∧ ∃ new, (k'.tasks p).maps = (k.tasks p).maps ++ new ∧
      new.length = length.toNat ⌈/⌉ pgsize ∧
      ∀ i m, new[i]? = some m → m.va = base + i * pgsize ∧ k'.page m.pa = List.replicate pgsize 0

section
variable {A : Allocator} {k k1 k' : Kernel} {p : TaskRef} {addr prot flags : Nat} {length : Int}

theorem mmapCount_eq (length : Int) : mmapCount length = length.toNat ⌈/⌉ pgsize :=
  (Nat.ceilDiv_eq_add_pred_div ..).symm

theorem sysMmap_eq (hlen : ¬length ≤ 0) (hflags : flags ≠ mapUnmap) :
    sysMmap A k p addr length prot flags = (do
      let (k1, done) ← mmapPages A p (mmapBase (k.tasks p) addr) (mmapProt prot) (List.range (mmapCount length)) k
      if done = false then return (k1, none)
      if addr = 0 then
        return (k1.modify p fun x =>
          { x with heapTop := add64 (mmapBase (k.tasks p) addr) (mmapCount length * pgsize) },
          some (mmapBase (k.tasks p) addr))
      return (k1, some (mmapBase (k.tasks p) addr))) := by
  rw [sysMmap, if_neg hlen]
  dsimp only
  rw [if_neg hflags]
  rfl

theorem mmapPages_first {base i : Nat} {is : List Nat} {b : Bool} {a : Nat} (ha : A.alloc k.heap pgsize = some a)
    (h : mmapPages A p base prot (i :: is) k = .ok (k1, b)) : (k1.tasks p).maps ≠ (k.tasks p).maps := by
  unfold mmapPages at h
  split at h
  · next k2 h2 =>
    rw [pmmAlloc, ha] at h2
    cases h2
  · next k2 pa h2 =>
    obtain ⟨k3, h3, h⟩ := bind_ok h
    obtain ⟨new, -, hf, -⟩ := mmapPages_filled h
    have hmaps := ((Filled.page h2 h3).trans hf).maps
    intro he
    rw [hmaps] at he
    simp at he

theorem mmapPages_none {base i : Nat} {is : List Nat} {b : Bool} (ha : A.alloc k.heap pgsize = none)
    (h : mmapPages A p base prot (i :: is) k = .ok (k1, b)) :
    b = false ∧ k1 = { k with heap := { k.heap with calls := k.heap.calls + 1 } } := by
  have hnone : pmmAlloc A k pgsize = ({ k with heap := { k.heap with calls := k.heap.calls + 1 } }, none) := by
    rw [pmmAlloc, ha]
  rw [mmapPages, hnone] at h
  cases h
  exact ⟨rfl, rfl⟩

/-- All pages are in the user range, so their addresses do not wrap around. -/
theorem consecutive {base n : Nat} (hbase : base < 2 ^ 64) (h : ∀ i < n, UserPage (add64 base (i * pgsize))) :
    ∀ i < n, add64 base (i * pgsize) = base + i * pgsize
  | 0, _ => by
    rw [Nat.zero_mul]
    exact add64_eq hbase
  | i + 1, hi => by
    have hprev := consecutive hbase h i (by omega)
    have huser := h i (by omega)
    rw [hprev] at huser
    have hlt : base + (i + 1) * pgsize < 2 ^ 64 := by
      have hstep : (i + 1) * pgsize = i * pgsize + 4096 := Nat.succ_mul ..
      have hend : base + i * pgsize < 3221225472 := huser.2.1
      omega
    exact add64_eq hlt

theorem mmapPages_exact {base : Nat} (hbase : base < 2 ^ 64)
    (h : mmapPages A p base prot (List.range (mmapCount length)) k = .ok (k1, true)) :
    ∃ new, (k1.tasks p).maps = (k.tasks p).maps ++ new ∧ new.length = length.toNat ⌈/⌉ pgsize ∧
      ∀ i m, new[i]? = some m → m.va = base + i * pgsize ∧ k1.page m.pa = List.replicate pgsize 0 := by
  obtain ⟨new, js, hf, -, hall, hc⟩ := mmapPages_filled h
  obtain rfl := hall rfl
  obtain ⟨js, hm, hjs⟩ := mmapPages_mapped h
  obtain rfl := hjs rfl
  have hva := consecutive hbase fun i hi => hm.user _ (mem_map_of_mem (mem_range.mpr hi))
  have hlen : new.length = mmapCount length := by
    have := congrArg List.length hc
    rwa [length_map, length_map, length_range] at this
  refine ⟨new.map Prod.fst, hf.maps, ?_, ?_⟩
  · rw [length_map, hlen, mmapCount_eq]
  · intro i m hi
    rw [getElem?_map, map_eq_some_iff] at hi
    obtain ⟨x, hx, rfl⟩ := hi
    have hi : i < mmapCount length := hlen ▸ (List.getElem?_eq_some_iff.mp hx).1
    have hentry := congrArg (·[i]?) hc
    simp only [getElem?_map, hx, getElem?_range hi, map_some, some.injEq] at hentry
    have hpage := hf.data x (mem_of_getElem? hx)
    rw [NewPage.content, Prod.mk.injEq, Prod.mk.injEq] at hentry
    refine ⟨hentry.1.trans (hva i hi), hpage.trans hentry.2.2⟩

end

/-! ## The result -/

/-- A call that returns has done what it should exactly if it was refused at once, if its first page was
refused, or if no page was. -/
theorem sys_mmap_exact_iff {A : Allocator} {k k' : Kernel} {p : TaskRef} {addr prot flags : Nat} {length : Int}
    {r : Option Nat} (haddr : addr < 2 ^ 64) (htop : (k.tasks p).heapTop < 2 ^ 64)
    (h : sysMmap A k p addr length prot flags = .ok (k', r)) :
    MmapExact k k' p length r ↔
      length ≤ 0 ∨ flags = mapUnmap ∨ A.alloc k.heap pgsize = none ∨
        Served A k.heap (mmapRequests (k.tasks p) addr length) := by
  by_cases hlen : length ≤ 0
  · rw [sysMmap, if_pos hlen] at h
    cases h
    exact iff_of_true ⟨rfl, rfl, rfl⟩ (Or.inl hlen)
  by_cases hflags : flags = mapUnmap
  · rw [sysMmap, if_neg hlen] at h
    dsimp only at h
    rw [if_pos hflags] at h
    cases h
    exact iff_of_true ⟨rfl, rfl, rfl⟩ (Or.inr (Or.inl hflags))
  rw [sysMmap_eq hlen hflags] at h
  obtain ⟨⟨k1, done⟩, h1, h⟩ := bind_ok h
  have hbase : mmapBase (k.tasks p) addr < 2 ^ 64 := by
    unfold mmapBase pgsize
    split <;> omega
  have hserved : done = true ↔ Served A k.heap (mmapRequests (k.tasks p) addr length) := mmapPages_paged h1
  cases done with
  | true =>
    refine iff_of_true ?_ (Or.inr (Or.inr (Or.inr (hserved.mp rfl))))
    have hexact := mmapPages_exact hbase h1
    have haligned : mmapBase (k.tasks p) addr % pgsize = 0 := Nat.mul_mod_left ..
    simp only [Bool.true_eq_false, if_false] at h
    split at h
    · cases h
      refine ⟨haligned, ?_⟩
      rw [modify_tasks_self]
      exact hexact
    · cases h
      exact ⟨haligned, hexact⟩
  | false =>
    simp only [if_true] at h
    cases h
    obtain ⟨n, hn⟩ : ∃ n, mmapCount length = n + 1 := by
      refine ⟨mmapCount length - 1, ?_⟩
      unfold mmapCount pgsize
      omega
    have h0 := h1
    rw [hn, range_succ_eq_map] at h0
    cases ha : A.alloc k.heap pgsize with
    | none =>
      obtain ⟨-, rfl⟩ := mmapPages_none ha h0
      exact iff_of_true ⟨rfl, rfl, rfl⟩ (Or.inr (Or.inr (Or.inl rfl)))
    | some a =>
      refine iff_of_false (fun he => mmapPages_first ha h0 he.1) ?_
      rintro (hle | hf | hnone | hall)
      · exact hlen hle
      · exact hflags hf
      · cases hnone
      · cases hserved.mpr hall

theorem sys_mmap_exact_two_pages : ∃ k k' p r, smallKernel = some k ∧ k.initproc = some p ∧
    sysMmap bumpAlloc k p 0 8192 6 1 = .ok (k', r) ∧ r = some userHeap ∧ MmapExact k k' p 8192 r := by
  have h : (smallKernel.any fun k => ∃ p ∈ k.initproc, (k.tasks p).heapTop < 2 ^ 64 ∧
      Served bumpAlloc k.heap (mmapRequests (k.tasks p) 0 8192) ∧
      (sysMmap bumpAlloc k p 0 8192 6 1).toOption.any fun r => r.2 = some userHeap) = true := by
    decide +kernel
  obtain ⟨k, hk, h⟩ := (any_eq_true _ _).mp h
  obtain ⟨p, hp, htop, hserved, hcall⟩ := of_decide_eq_true h
  obtain ⟨⟨k', r⟩, h2, hr⟩ := (any_eq_true _ _).mp hcall
  have hcall := toOption_some h2
  refine ⟨k, k', p, r, hk, hp, hcall, of_decide_eq_true hr, ?_⟩
  exact (sys_mmap_exact_iff (by decide) htop hcall).mpr (Or.inr (Or.inr (Or.inr hserved)))

def refuseAt (n : Nat) : Allocator where
  alloc h size := if h.calls = n then none else bumpAlloc.alloc h size
  pos := by
    intro h size a ha
    split at ha
    · cases ha
    · exact bumpAlloc.pos ha
  apart := by
    intro h size a ha
    split at ha
    · cases ha
    · exact bumpAlloc.apart ha

/-- Two pages are asked for and the second is refused: the call returns -1, and the first stays. -/
theorem sys_mmap_leaves_page : ∃ k k' p, smallKernel = some k ∧ k.initproc = some p ∧
    sysMmap (refuseAt (k.heap.calls + 2)) k p 0 8192 6 1 = .ok (k', none) ∧
    (k'.tasks p).maps.length = (k.tasks p).maps.length + 1 ∧
    k'.heap.live.length = k.heap.live.length + 2 := by
  have h : (smallKernel.any fun k => ∃ p ∈ k.initproc,
      (sysMmap (refuseAt (k.heap.calls + 2)) k p 0 8192 6 1).toOption.any fun r => r.2 = none ∧
        (r.1.tasks p).maps.length = (k.tasks p).maps.length + 1 ∧
        r.1.heap.live.length = k.heap.live.length + 2) = true := by
    decide +kernel
  obtain ⟨k, hk, h⟩ := (any_eq_true _ _).mp h
  obtain ⟨p, hp, h⟩ := of_decide_eq_true h
  obtain ⟨⟨k', r⟩, h1, h⟩ := (any_eq_true _ _).mp h
  obtain ⟨hr, hmaps, hlive⟩ := of_decide_eq_true h
  obtain rfl : r = none := hr
  exact ⟨k, k', p, hk, hp, toOption_some h1, hmaps, hlive⟩

end NjuOs
