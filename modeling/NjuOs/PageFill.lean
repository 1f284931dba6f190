import NjuOs.MapSound

/-!
# Contents of recorded pages

Loading an image, `mmap` and `fork` all take pages from the allocator, fill them and record them
one after the other. A page taken later is never one that is in use, so what has been put into a
page is still there at the end. `view` is what a process sees at an address; where a page has been
mapped more than once, the latest mapping counts.
-/

namespace NjuOs

open List

/-! ## What a process sees -/

theorem pgsize_pos : 0 < pgsize := by decide

def vaPage (a : Nat) : Nat := a / pgsize * pgsize

def Task.mapping (x : Task) (a : Nat) : Option Vmap := x.maps.reverse.find? (·.va = vaPage a)

def Kernel.view (k : Kernel) (p : TaskRef) (a : Nat) : Option (Nat × Option UInt8) :=
  ((k.tasks p).mapping a).map fun m => (m.prot, (k.page m.pa)[a % pgsize]?)

abbrev NewPage := Vmap × List UInt8

def NewPage.content (x : NewPage) : Nat × Nat × List UInt8 := (x.1.va, x.1.prot, x.2)

structure Filled (p : TaskRef) (new : List NewPage) (k k' : Kernel) : Prop where
  maps : (k'.tasks p).maps = (k.tasks p).maps ++ new.map Prod.fst
  mapsPtr : (k'.tasks p).mapsPtr = (k.tasks p).mapsPtr
  live : ∀ b ∈ k.heap.live, b ∈ k'.heap.live
  kept : ∀ b ∈ k.heap.live, 0 < b.2 → k'.page b.1 = k.page b.1
  data : ∀ x ∈ new, k'.page x.1.pa = x.2
  held : ∀ x ∈ new, (x.1.pa, pgsize) ∈ k'.heap.live
  apart : ∀ x ∈ new, ∀ b ∈ k.heap.live, 0 < b.2 → x.1.pa ≠ b.1

section
variable {A : Allocator} {k k1 k' k'' : Kernel} {p : TaskRef} {new new' : List NewPage}

theorem Filled.refl (p : TaskRef) (k : Kernel) : Filled p [] k k :=
  ⟨(append_nil _).symm, rfl, fun _ => id, fun _ _ _ => rfl, nofun, nofun, nofun⟩

theorem Filled.trans (h : Filled p new k k') (h' : Filled p new' k' k'') : Filled p (new ++ new') k k'' where
  maps := by rw [h'.maps, h.maps, map_append, append_assoc]
  mapsPtr := h'.mapsPtr.trans h.mapsPtr
  live b hb := h'.live b (h.live b hb)
  kept b hb hpos := (h'.kept b (h.live b hb) hpos).trans (h.kept b hb hpos)
  data x hx := by
    rcases mem_append.mp hx with hx | hx
    · exact (h'.kept _ (h.held x hx) pgsize_pos).trans (h.data x hx)
    · exact h'.data x hx
  held x hx := by
    rcases mem_append.mp hx with hx | hx
    · exact h'.live _ (h.held x hx)
    · exact h'.held x hx
  apart x hx b hb hpos := by
    rcases mem_append.mp hx with hx | hx
    · exact h.apart x hx b hb hpos
    · exact h'.apart x hx b (h.live b hb) hpos

theorem Filled.quiet (h : Filled p new k k') (h' : Filled p [] k' k'') : Filled p new k k'' :=
  append_nil new ▸ h.trans h'

theorem Filled.alloc {size : Nat} {o : Option Nat} (h : pmmAlloc A k size = (k1, o)) : Filled p [] k k1 := by
  unfold pmmAlloc at h
  split at h
  · cases h
    exact ⟨(append_nil _).symm, rfl, fun _ => id, fun _ _ _ => rfl, nofun, nofun, nofun⟩
  · cases h
    exact ⟨(append_nil _).symm, rfl, fun _ => mem_cons_of_mem _, fun _ _ _ => rfl, nofun, nofun, nofun⟩

theorem Filled.modify {f : Task → Task} (hm : ∀ x, (f x).maps = x.maps) (hp : ∀ x, (f x).mapsPtr = x.mapsPtr) :
    Filled p [] k (k.modify p f) := by
  refine { Filled.refl p k with maps := ?_, mapsPtr := ?_ }
  · rw [modify_tasks_self, hm, map_nil, append_nil]
  · rw [modify_tasks_self, hp]

theorem amMap_filled {va pa : Nat} (h : amMap A k p va pa = .ok k') : Filled p [] k k' := by
  unfold amMap at h
  split at h
  · cases h
  split at h
  · cases h
  split at h
  · cases h
  split at h
  · cases h
    exact Filled.refl p _
  split at h
  · cases h
  next k1 a h1 =>
  cases h
  exact (Filled.alloc h1).quiet (Filled.modify (fun _ => rfl) fun _ => rfl)

theorem Filled.page {va pa prot : Nat} {d : List UInt8} (ha : pmmAlloc A k pgsize = (k1, some pa))
    (h : upMap A (k1.setPage pa d) p va pa prot = .ok k') : Filled p [(⟨va, pa, prot⟩, d)] k k' := by
  obtain ⟨halloc, rfl⟩ := pmmAlloc_some ha
  unfold upMap at h
  split at h
  · cases h
  split at h
  · cases h
  have hap : ∀ b ∈ k.heap.live, 0 < b.2 → pa ≠ b.1 := by
    intro b hb hpos he
    have hdis := A.apart halloc b hb
    have hpg := pgsize_pos
    omega
  refine Filled.quiet ?_ (amMap_filled h)
  constructor
  · rw [modify_tasks_self]
    rfl
  · rw [modify_tasks_self]
    rfl
  · exact fun b hb => mem_cons_of_mem _ hb
  · intro b hb hpos
    exact Function.update_of_ne (hap b hb hpos).symm ..
  · intro x hx
    rw [mem_singleton.mp hx]
    exact Function.update_self ..
  · intro x hx
    rw [mem_singleton.mp hx]
    exact mem_cons_self
  · intro x hx
    rw [mem_singleton.mp hx]
    exact hap

/-! ## The loops -/

def readWrite : Nat := mmapRead ||| mmapWrite

def zeroPage : List UInt8 := List.replicate pgsize 0

theorem loadStack_filled : ∀ {is : List Nat} {k : Kernel}, loadStack A p is k = .ok k' → ∃ new,
    Filled p new k k' ∧ new.map NewPage.content =
      is.map fun i => (userEnd - (i + 1) * pgsize, readWrite, zeroPage)
  | [], k, h => by
    cases h
    exact ⟨[], Filled.refl p _, rfl⟩
  | i :: is, k, h => by
    obtain ⟨⟨k1, pa⟩, h1, h⟩ := bind_ok h
    obtain ⟨k2, h2, h⟩ := bind_ok h
    obtain ⟨new, hf, hc⟩ := loadStack_filled h
    exact ⟨_ :: new, (Filled.page (allocOr_ok h1) h2).trans hf, congrArg (_ :: ·) hc⟩

theorem loadPages_filled {bin : List UInt8} {len : Nat} (chunk : Nat → List UInt8)
    (hchunk : ∀ i d, imageChunk bin len i = .ok d → d = chunk i) : ∀ {is : List Nat} {k : Kernel},
    loadPages A bin len p is k = .ok k' → ∃ new, Filled p new k k' ∧ new.map NewPage.content =
      is.map fun i => (userBase + i * pgsize, readWrite, chunk i)
  | [], k, h => by
    cases h
    exact ⟨[], Filled.refl p _, rfl⟩
  | i :: is, k, h => by
    obtain ⟨⟨k1, pa⟩, h1, h⟩ := bind_ok h
    obtain ⟨d, hd, h⟩ := bind_ok h
    obtain ⟨k2, h2, h⟩ := bind_ok h
    obtain ⟨new, hf, hc⟩ := loadPages_filled chunk hchunk h
    obtain rfl := hchunk i d hd
    exact ⟨_ :: new, (Filled.page (allocOr_ok h1) h2).trans hf, congrArg (_ :: ·) hc⟩

theorem mmapPages_filled {base prot : Nat} {b : Bool} : ∀ {is : List Nat} {k : Kernel},
    mmapPages A p base prot is k = .ok (k', b) → ∃ new js, Filled p new k k' ∧ js <+: is ∧ (b = true → js = is) ∧
      new.map NewPage.content = js.map fun i => (add64 base (i * pgsize), prot, zeroPage)
  | [], k, h => by
    cases h
    exact ⟨[], [], Filled.refl p _, prefix_rfl, fun _ => rfl, rfl⟩
  | i :: is, k, h => by
    unfold mmapPages at h
    split at h
    · next k1 h1 =>
      cases h
      exact ⟨[], [], Filled.alloc h1, nil_prefix, nofun, rfl⟩
    · next k1 pa h1 =>
      obtain ⟨k2, h2, h⟩ := bind_ok h
      obtain ⟨new, js, hf, hpre, hall, hc⟩ := mmapPages_filled h
      refine ⟨_ :: new, i :: js, (Filled.page h1 h2).trans hf, ?_, ?_, congrArg (_ :: ·) hc⟩
      · exact cons_prefix_cons.mpr ⟨rfl, hpre⟩
      · intro hb
        rw [hall hb]

/-- The copies are made of pages that are in use, so none is overwritten on the way. -/
theorem forkPages_filled : ∀ {ms : List Vmap} {k : Kernel}, forkPages A p ms k = .ok k' →
    (∀ m ∈ ms, (m.pa, pgsize) ∈ k.heap.live) → ∃ new, Filled p new k k' ∧
      new.map NewPage.content = ms.map fun m => (m.va, m.prot, k.page m.pa)
  | [], k, h, _ => by
    cases h
    exact ⟨[], Filled.refl p _, rfl⟩
  | m :: ms, k, h, hms => by
    obtain ⟨⟨k1, pa⟩, h1, h⟩ := bind_ok h
    obtain ⟨k2, h2, h⟩ := bind_ok h
    have hpage := Filled.page (allocOr_ok h1) h2
    obtain ⟨new, hf, hc⟩ := forkPages_filled h fun n hn => hpage.live _ (hms n (mem_cons_of_mem _ hn))
    have hsame : k1.page = k.page := by
      obtain ⟨-, rfl⟩ := pmmAlloc_some (allocOr_ok h1)
      rfl
    have hrest : ms.map (fun n => (n.va, n.prot, k2.page n.pa)) = ms.map fun n => (n.va, n.prot, k.page n.pa) := by
      refine map_congr_left fun n hn => ?_
      rw [hpage.kept _ (hms n (mem_cons_of_mem _ hn)) pgsize_pos]
    refine ⟨_ :: new, hpage.trans hf, ?_⟩
    rw [map_cons, hc, hrest, hsame]
    rfl

/-! ## Views -/

theorem find?_reverse_of_mem {β : Type} {l : List (Nat × β)} (hl : (l.map Prod.fst).Nodup) {c : Nat × β} (hc : c ∈ l) :
    l.reverse.find? (·.1 = c.1) = some c := by
  cases hf : l.reverse.find? (·.1 = c.1) with
  | none => exact absurd (decide_eq_true rfl) (find?_eq_none.mp hf c (mem_reverse.mpr hc))
  | some c' =>
    have hkey : c'.1 = c.1 := by simpa using find?_some hf
    rw [inj_on_of_nodup_map hl (mem_reverse.mp (mem_of_find?_eq_some hf)) hc hkey]

/-- The view after new pages: the latest of them at the address, or what was there before. -/
theorem Filled.view (h : Filled p new k k') (a : Nat) : k'.view p a =
    (((new.map NewPage.content).reverse.find? (·.1 = vaPage a)).map fun c => (c.2.1, c.2.2[a % pgsize]?)).or
      (((k.tasks p).mapping a).map fun m => (m.prot, (k'.page m.pa)[a % pgsize]?)) := by
  rw [Kernel.view, Task.mapping, h.maps, reverse_append, find?_append, Option.map_or, Task.mapping,
    ← map_reverse, ← map_reverse, find?_map, find?_map, Option.map_map, Option.map_map]
  congr 1
  refine Option.map_congr fun x hx => ?_
  have hmem : x ∈ new := mem_reverse.mp (mem_of_find?_eq_some hx)
  simp only [Function.comp_apply, NewPage.content, h.data x hmem]

end

end NjuOs
