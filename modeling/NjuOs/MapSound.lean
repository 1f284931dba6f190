import NjuOs.OsSound

/-!
# Virtual addresses of user processes

Image, stack and the area below the `heap_top` cursor are apart because a process records at
most `PROC_MAXMAP` pages. A hinted `mmap` goes wherever the hint says: `MapSafe` asks that it
stays off the pages that are recorded and off the area that the cursor may still reach.
-/

namespace NjuOs

open List

def Task.vas (x : Task) : List Nat := x.maps.map Vmap.va

def InHeap (va : Nat) : Prop := userHeap ≤ va ∧ va < userHeap + procMaxmap * pgsize

instance (va : Nat) : Decidable (InHeap va) := inferInstanceAs (Decidable (_ ∧ _))

def UserPage (va : Nat) : Prop := userBase ≤ va ∧ va < userEnd ∧ va % pgsize = 0

instance (va : Nat) : Decidable (UserPage va) := inferInstanceAs (Decidable (_ ∧ _ ∧ _))

def mmapBase (x : Task) (addr : Nat) : Nat := (if addr ≠ 0 then addr else x.heapTop) / pgsize * pgsize

def mmapCount (length : Int) : Nat := (length.toNat + pgsize - 1) / pgsize

def mmapVas (x : Task) (addr : Nat) (length : Int) : List Nat :=
  (List.range (mmapCount length)).map fun i => add64 (mmapBase x addr) (i * pgsize)

/-- A hinted call keeps off the recorded pages and the heap; a call that fails has mapped nothing. -/
def MapSafe (A : Allocator) (s : OsSys) : OsAct → Prop
  | .syscall c _ _ (.mmap addr length prot flags) => ∀ p ∈ s.user c,
    (addr ≠ 0 → flags ≠ mapUnmap → ∀ va ∈ mmapVas (s.k.tasks p) addr length,
      va ∉ (s.k.tasks p).vas ∧ ¬InHeap va) ∧
    ∀ r ∈ (sysMmap A s.k p addr length prot flags).toOption, r.2 = none → (r.1.tasks p).maps = (s.k.tasks p).maps
  | _ => True

instance (A : Allocator) (s : OsSys) (a : OsAct) : Decidable (MapSafe A s a) := by
  unfold MapSafe
  split <;> infer_instance

def HintInUser (s : OsSys) : OsAct → Prop
  | .syscall c _ _ (.mmap addr length _ flags) => ∀ p ∈ s.user c, addr ≠ 0 → flags ≠ mapUnmap →
    ∀ va ∈ mmapVas (s.k.tasks p) addr length, userBase ≤ va ∧ va < userEnd
  | _ => True

instance (s : OsSys) (a : OsAct) : Decidable (HintInUser s a) := by
  unfold HintInUser
  split <;> infer_instance

structure SpaceOk (x : Task) : Prop where
  user : ∀ va ∈ x.vas, UserPage va
  nodup : x.vas.Nodup

structure SpaceInv (x : Task) : Prop extends SpaceOk x where
  room : x.vas.length ≤ procMaxmap
  aligned : x.heapTop % pgsize = 0
  low : userHeap ≤ x.heapTop
  high : x.heapTop ≤ userHeap + x.vas.length * pgsize
  below : ∀ va ∈ x.vas, InHeap va → va < x.heapTop

/-! ## Recording pages -/

structure Mapped (p : TaskRef) (new : List Nat) (k k' : Kernel) : Prop where
  vas : (k'.tasks p).vas = (k.tasks p).vas ++ new
  top : (k'.tasks p).heapTop = (k.tasks p).heapTop
  user : ∀ va ∈ new, UserPage va
  room : (k.tasks p).vas.length ≤ procMaxmap → (k'.tasks p).vas.length ≤ procMaxmap

section
variable {A : Allocator} {k k' k'' : Kernel} {p : TaskRef} {new new' : List Nat}

theorem Mapped.trans (h : Mapped p new k k') (h' : Mapped p new' k' k'') : Mapped p (new ++ new') k k'' where
  vas := by rw [h'.vas, h.vas, append_assoc]
  top := h'.top.trans h.top
  user := by
    intro va hva
    exact (mem_append.mp hva).elim (h.user va) (h'.user va)
  room := fun hr => h'.room (h.room hr)

theorem Mapped.refl (p : TaskRef) (k : Kernel) : Mapped p [] k k :=
  ⟨(append_nil _).symm, rfl, (fun _ hva => nomatch hva), id⟩

theorem Mapped.same (hm : (k'.tasks p).maps = (k.tasks p).maps) (ht : (k'.tasks p).heapTop = (k.tasks p).heapTop) :
    Mapped p [] k k' := by
  have hvas : (k'.tasks p).vas = (k.tasks p).vas := congrArg (List.map Vmap.va) hm
  refine ⟨by rw [hvas, append_nil], ht, (fun _ hva => nomatch hva), by rw [hvas]; exact id⟩

theorem Mapped.modify {f : Task → Task} (hm : ∀ x, (f x).maps = x.maps) (ht : ∀ x, (f x).heapTop = x.heapTop) :
    Mapped p [] k (k.modify p f) := by
  refine Mapped.same ?_ ?_
  · rw [modify_tasks_self, hm]
  · rw [modify_tasks_self, ht]

theorem Mapped.alloc {size : Nat} {o : Option Nat} (h : pmmAlloc A k size = (k', o)) : Mapped p [] k k' := by
  have hk := (memStep_alloc p h).1
  exact Mapped.same (by rw [hk]) (by rw [hk])

theorem amMap_ok {va pa : Nat} (h : amMap A k p va pa = .ok k') : UserPage va ∧ Mapped p [] k k' := by
  unfold amMap at h
  split at h
  · cases h
  next hr =>
  split at h
  · cases h
  next hal =>
  have hu : UserPage va := ⟨(not_not.mp hr).1, (not_not.mp hr).2, not_not.mp hal⟩
  refine ⟨hu, ?_⟩
  split at h
  · cases h
  split at h
  · cases h; exact Mapped.refl p _
  split at h
  · cases h
  next k1 a h1 =>
  cases h
  exact (Mapped.alloc h1).trans (Mapped.modify (fun _ => rfl) fun _ => rfl)

theorem upMap_ok {va pa prot : Nat} (h : upMap A k p va pa prot = .ok k') : Mapped p [va] k k' := by
  unfold upMap at h
  split at h
  · cases h
  next hroom =>
  split at h
  · cases h
  obtain ⟨hu, hm⟩ := amMap_ok h
  have hvas : ((k.modify p fun x => { x with maps := x.maps ++ [⟨va, pa, prot⟩] }).tasks p).vas =
      (k.tasks p).vas ++ [va] := by
    rw [modify_tasks_self, Task.vas, map_append]
    rfl
  have hrec : Mapped p [va] k (k.modify p fun x => { x with maps := x.maps ++ [⟨va, pa, prot⟩] }) := by
    refine ⟨hvas, by rw [modify_tasks_self], ?_, ?_⟩
    · intro v hv
      rw [mem_singleton.mp hv]
      exact hu
    · intro _
      rw [hvas, length_append, Task.vas, length_map, length_singleton]
      omega
  exact hrec.trans hm

theorem Mapped.page {k1 : Kernel} {va pa prot : Nat} {d : List UInt8} (ha : pmmAlloc A k pgsize = (k1, some pa))
    (h : upMap A (k1.setPage pa d) p va pa prot = .ok k') : Mapped p [va] k k' := by
  have h1 : Mapped p [] k (k1.setPage pa d) := (Mapped.alloc ha).trans (Mapped.same rfl rfl)
  exact h1.trans (upMap_ok h)

theorem loadPages_mapped {bin : List UInt8} {len : Nat} : ∀ {is : List Nat} {k : Kernel},
    loadPages A bin len p is k = .ok k' → Mapped p (is.map fun i => userBase + i * pgsize) k k'
  | [], k, h => by cases h; exact Mapped.refl p _
  | i :: is, k, h => by
    obtain ⟨⟨k1, pa⟩, h1, h⟩ := bind_ok h
    obtain ⟨d, -, h⟩ := bind_ok h
    obtain ⟨k2, h2, h⟩ := bind_ok h
    exact (Mapped.page (allocOr_ok h1) h2).trans (loadPages_mapped h)

theorem loadStack_mapped : ∀ {is : List Nat} {k : Kernel}, loadStack A p is k = .ok k' →
    Mapped p (is.map fun i => userEnd - (i + 1) * pgsize) k k'
  | [], k, h => by cases h; exact Mapped.refl p _
  | i :: is, k, h => by
    obtain ⟨⟨k1, pa⟩, h1, h⟩ := bind_ok h
    obtain ⟨k2, h2, h⟩ := bind_ok h
    exact (Mapped.page (allocOr_ok h1) h2).trans (loadStack_mapped h)

theorem forkPages_mapped : ∀ {ms : List Vmap} {k : Kernel}, forkPages A p ms k = .ok k' →
    Mapped p (ms.map Vmap.va) k k'
  | [], k, h => by cases h; exact Mapped.refl p _
  | m :: ms, k, h => by
    obtain ⟨⟨k1, pa⟩, h1, h⟩ := bind_ok h
    obtain ⟨k2, h2, h⟩ := bind_ok h
    exact (Mapped.page (allocOr_ok h1) h2).trans (forkPages_mapped h)

theorem mmapPages_mapped {base prot : Nat} {b : Bool} : ∀ {is : List Nat} {k : Kernel},
    mmapPages A p base prot is k = .ok (k', b) → ∃ js, Mapped p (js.map fun i => add64 base (i * pgsize)) k k' ∧
      (b = true → js = is)
  | [], k, h => by cases h; exact ⟨[], Mapped.refl p _, fun _ => rfl⟩
  | i :: is, k, h => by
    unfold mmapPages at h
    split at h
    · -- out of memory: the pages before this one stay recorded
      next k1 h1 => cases h; exact ⟨[], Mapped.alloc h1, fun hb => nomatch hb⟩
    · next k1 pa h1 =>
      obtain ⟨k2, h2, h⟩ := bind_ok h
      obtain ⟨js, hm, hjs⟩ := mmapPages_mapped h
      exact ⟨i :: js, (Mapped.page h1 h2).trans hm, fun hb => by rw [hjs hb]⟩

/-! ## The calls -/

inductive Mmapped (p : TaskRef) (addr : Nat) (length : Int) (flags : Nat) (k k' : Kernel) : Option Nat → Prop
  | fail (htop : (k'.tasks p).heapTop = (k.tasks p).heapTop)
    (hroom : (k.tasks p).vas.length ≤ procMaxmap → (k'.tasks p).vas.length ≤ procMaxmap) :
    Mmapped p addr length flags k k' none
  | done (hf : flags ≠ mapUnmap) {k1 : Kernel} (hm : Mapped p (mmapVas (k.tasks p) addr length) k k1)
    (hmaps : (k'.tasks p).vas = (k1.tasks p).vas)
    (htop : (k'.tasks p).heapTop = if addr = 0 then add64 (mmapBase (k.tasks p) addr) (mmapCount length * pgsize)
      else (k.tasks p).heapTop) :
    Mmapped p addr length flags k k' (some (mmapBase (k.tasks p) addr))

theorem sysMmap_ok {addr prot flags : Nat} {length : Int} {r : Option Nat}
    (h : sysMmap A k p addr length prot flags = .ok (k', r)) : Mmapped p addr length flags k k' r := by
  unfold sysMmap at h
  split at h
  · cases h; exact .fail rfl id
  dsimp only at h
  split at h
  · cases h; exact .fail rfl id
  next hf =>
  obtain ⟨⟨k1, done⟩, h1, h⟩ := bind_ok h
  obtain ⟨js, hm, hjs⟩ := mmapPages_mapped h1
  dsimp only at h
  split at h
  · cases h; exact .fail hm.top hm.room
  next hd =>
  rw [hjs (by simpa using hd)] at hm
  change Mapped p (mmapVas (k.tasks p) addr length) k k1 at hm
  split at h
  · next ha =>
    cases h
    refine .done hf hm ?_ ?_
    · rw [modify_tasks_self]
      rfl
    · rw [modify_tasks_self, if_pos ha]
      rfl
  · next ha =>
    cases h
    have hb : addr / pgsize * pgsize = mmapBase (k.tasks p) addr := by rw [mmapBase, if_pos ha]
    rw [hb]
    refine .done hf hm rfl ?_
    rw [if_neg ha]
    exact hm.top

theorem procLoadImage_mapped {bin : List UInt8} {len : Nat} (h : procLoadImage A k p bin len = .ok k') :
    Mapped p ((List.range (imagePages len)).map (fun i => userBase + i * pgsize) ++
      (List.range stkPages).map fun i => userEnd - (i + 1) * pgsize) k k' := by
  obtain ⟨k1, h1, h⟩ := bind_ok h
  exact (loadPages_mapped h1).trans (loadStack_mapped h)

end

/-! ## The invariant -/

section
variable {A : Allocator} {k k' : Kernel} {p : TaskRef} {x y : Task} {new : List Nat}

theorem SpaceInv.congr (h : SpaceInv x) (hv : y.vas = x.vas) (ht : y.heapTop = x.heapTop) : SpaceInv y where
  user := by rw [hv]; exact h.user
  nodup := by rw [hv]; exact h.nodup
  room := by rw [hv]; exact h.room
  aligned := by rw [ht]; exact h.aligned
  low := by rw [ht]; exact h.low
  high := by rw [hv, ht]; exact h.high
  below := by rw [hv, ht]; exact h.below

theorem SpaceInv.hinted (h : SpaceInv x) (hv : y.vas = x.vas ++ new) (ht : y.heapTop = x.heapTop)
    (hu : ∀ va ∈ new, UserPage va) (hroom : y.vas.length ≤ procMaxmap) (hnd : new.Nodup)
    (hoff : ∀ va ∈ new, va ∉ x.vas ∧ ¬InHeap va) : SpaceInv y where
  user := by
    intro va hva
    rw [hv] at hva
    exact (mem_append.mp hva).elim (h.user va) (hu va)
  nodup := by
    rw [hv]
    exact nodup_append'.mpr ⟨h.nodup, hnd, fun va hx hn => (hoff va hn).1 hx⟩
  room := hroom
  aligned := by rw [ht]; exact h.aligned
  low := by rw [ht]; exact h.low
  high := by
    have := h.high
    rw [hv, length_append, ht, Nat.add_mul]
    omega
  below := by
    intro va hva hin
    rw [hv] at hva
    rw [ht]
    rcases mem_append.mp hva with hva | hva
    · exact h.below va hva hin
    · exact absurd hin (hoff va hva).2

theorem SpaceInv.grow (h : SpaceInv x) {n : Nat}
    (hv : y.vas = x.vas ++ (List.range n).map fun i => x.heapTop + i * pgsize)
    (ht : y.heapTop = x.heapTop + n * pgsize) (hu : ∀ i < n, UserPage (x.heapTop + i * pgsize))
    (hroom : y.vas.length ≤ procMaxmap) : SpaceInv y := by
  have hlen : y.vas.length = x.vas.length + n := by
    rw [hv, length_append, length_map, length_range]
  have hhigh : y.heapTop ≤ userHeap + y.vas.length * pgsize := by
    have := h.high
    rw [ht, hlen, Nat.add_mul]
    omega
  have hnew : ∀ i < n, InHeap (x.heapTop + i * pgsize) ∧ x.heapTop + i * pgsize < y.heapTop := by
    intro i hi
    have h1 : i * pgsize + pgsize ≤ n * pgsize := by
      rw [← Nat.succ_mul]
      exact Nat.mul_le_mul_right _ hi
    have h2 : y.vas.length * pgsize ≤ procMaxmap * pgsize := Nat.mul_le_mul_right _ hroom
    have h3 := h.low
    have h4 : 0 < pgsize := Nat.zero_lt_succ _
    unfold InHeap
    omega
  constructor
  case toSpaceOk =>
    constructor
    · intro va hva
      rw [hv] at hva
      rcases mem_append.mp hva with hva | hva
      · exact h.user va hva
      · obtain ⟨i, hi, rfl⟩ := mem_map.mp hva
        exact hu i (mem_range.mp hi)
    · rw [hv]
      refine nodup_append'.mpr ⟨h.nodup, nodup_range.map ?_, ?_⟩
      · intro i j hij
        simp only [pgsize] at hij
        omega
      · intro va hx hn
        obtain ⟨i, hi, rfl⟩ := mem_map.mp hn
        have := h.below _ hx (hnew i (mem_range.mp hi)).1
        omega
  case room => exact hroom
  case aligned =>
    rw [ht, Nat.add_mul_mod_self_right]
    exact h.aligned
  case low =>
    have := h.low
    omega
  case high => exact hhigh
  case below =>
    intro va hva hin
    rw [hv] at hva
    rcases mem_append.mp hva with hva | hva
    · have := h.below va hva hin
      omega
    · obtain ⟨i, hi, rfl⟩ := mem_map.mp hva
      exact (hnew i (mem_range.mp hi)).2

theorem mmapBase_unhinted (h : SpaceInv x) : mmapBase x 0 = x.heapTop := by
  have := h.aligned
  simp only [mmapBase, ne_eq, not_true_eq_false, if_false, pgsize] at this ⊢
  omega

theorem add64_inj {b i j : Nat} (hi : i ≤ procMaxmap) (hj : j ≤ procMaxmap)
    (h : add64 b (i * pgsize) = add64 b (j * pgsize)) : i = j := by
  simp only [add64, procMaxmap, pgsize] at *
  omega

theorem mmapVas_nodup {addr : Nat} {length : Int} (hn : mmapCount length ≤ procMaxmap) :
    (mmapVas x addr length).Nodup := by
  refine List.Nodup.map_on ?_ nodup_range
  intro i hi j hj hij
  have hi := mem_range.mp hi
  have hj := mem_range.mp hj
  exact add64_inj (by omega) (by omega) hij

theorem mmapVas_length {addr : Nat} {length : Int} : (mmapVas x addr length).length = mmapCount length := by
  rw [mmapVas, length_map, length_range]

theorem SpaceInv.mmapped {addr flags : Nat} {length : Int} {r : Option Nat} (h : SpaceInv (k.tasks p))
    (hm : Mmapped p addr length flags k k' r)
    (hsafe : addr ≠ 0 → flags ≠ mapUnmap → ∀ va ∈ mmapVas (k.tasks p) addr length, va ∉ (k.tasks p).vas ∧ ¬InHeap va)
    (hfail : r = none → (k'.tasks p).maps = (k.tasks p).maps) : SpaceInv (k'.tasks p) := by
  cases hm with
  | fail ht _ => exact h.congr (congrArg (List.map Vmap.va) (hfail rfl)) ht
  | @done hf k1 hm hmaps htop =>
    have hroom := hm.room h.room
    have hcount : mmapCount length ≤ procMaxmap := by
      rw [hm.vas, length_append, mmapVas_length] at hroom
      omega
    rw [← hmaps] at hroom
    by_cases ha : addr = 0
    · subst ha
      have hsmall : ∀ i ≤ mmapCount length,
          add64 (k.tasks p).heapTop (i * pgsize) = (k.tasks p).heapTop + i * pgsize := by
        intro i hi
        have h1 := h.high
        have h2 := h.room
        refine add64_eq ?_
        simp only [userHeap, procMaxmap, pgsize] at *
        omega
      have hlist : mmapVas (k.tasks p) 0 length =
          (List.range (mmapCount length)).map fun i => (k.tasks p).heapTop + i * pgsize := by
        refine map_congr_left fun i hi => ?_
        rw [mmapBase_unhinted h]
        exact hsmall i (mem_range.mp hi).le
      rw [if_pos rfl, mmapBase_unhinted h, hsmall _ le_rfl] at htop
      refine h.grow (by rw [hmaps, hm.vas, hlist]) htop ?_ hroom
      intro i hi
      refine hm.user _ ?_
      rw [hlist]
      exact mem_map_of_mem (mem_range.mpr hi)
    · rw [if_neg ha] at htop
      exact h.hinted (by rw [hmaps, hm.vas]) htop hm.user hroom (mmapVas_nodup hcount) (hsafe ha hf)

theorem imageVas_nodup {n : Nat} (hn : n + stkPages ≤ procMaxmap) :
    ((List.range n).map (fun i => userBase + i * pgsize) ++
      (List.range stkPages).map fun i => userEnd - (i + 1) * pgsize).Nodup := by
  refine nodup_append'.mpr ⟨nodup_range.map ?_, List.Nodup.map_on ?_ nodup_range, ?_⟩
  · intro i j hij
    simp only [pgsize] at hij
    omega
  · intro i hi j hj hij
    have hi := mem_range.mp hi
    have hj := mem_range.mp hj
    simp only [stkPages, userEnd, pgsize] at *
    omega
  · intro va hva hs
    obtain ⟨i, hi, rfl⟩ := mem_map.mp hva
    obtain ⟨j, hj, he⟩ := mem_map.mp hs
    have hi := mem_range.mp hi
    have hj := mem_range.mp hj
    simp only [stkPages, procMaxmap, userBase, userEnd, pgsize] at *
    omega

theorem spaceInv_loaded {bin : List UInt8} {len : Nat} (hv : (k.tasks p).vas = []) (ht : (k.tasks p).heapTop = userHeap)
    (h : procLoadImage A k p bin len = .ok k') : SpaceInv (k'.tasks p) := by
  have hm := procLoadImage_mapped h
  have hvas := hm.vas
  rw [hv, nil_append] at hvas
  have hroom := hm.room (by rw [hv]; exact Nat.zero_le _)
  have hlen : imagePages len + stkPages ≤ procMaxmap := by
    simpa only [hvas, length_append, length_map, length_range] using hroom
  have himage : ∀ i < imagePages len, userBase + i * pgsize < userHeap := by
    intro i hi
    simp only [stkPages, procMaxmap, userBase, userHeap, pgsize] at *
    omega
  have hstack : ∀ i < stkPages, userHeap + procMaxmap * pgsize ≤ userEnd - (i + 1) * pgsize := by
    intro i hi
    simp only [stkPages, procMaxmap, userEnd, userHeap, pgsize] at *
    omega
  constructor
  case toSpaceOk =>
    refine ⟨by rw [hvas]; exact hm.user, ?_⟩
    rw [hvas]
    exact imageVas_nodup hlen
  case room => exact hroom
  case aligned => rw [hm.top, ht]; rfl
  case low => rw [hm.top, ht]
  case high =>
    rw [hm.top, ht]
    omega
  case below =>
    intro va hva hin
    rw [hvas] at hva
    obtain ⟨h1, h2⟩ := hin
    rcases mem_append.mp hva with hva | hva
    · obtain ⟨i, hi, rfl⟩ := mem_map.mp hva
      have := himage i (mem_range.mp hi)
      omega
    · obtain ⟨i, hi, rfl⟩ := mem_map.mp hva
      have := hstack i (mem_range.mp hi)
      omega

theorem protect_mapped (h : protect A k p = .ok k') : Mapped p [] k k' := by
  obtain ⟨⟨k1, a⟩, h1, h⟩ := bind_ok h
  cases h
  exact (Mapped.alloc (allocOr_ok h1)).trans (Mapped.modify (fun _ => rfl) fun _ => rfl)

theorem spaceInv_exec {va : Nat} {path : CStr} (h : sysExec A k p va path = .ok (k', true)) : SpaceInv (k'.tasks p) := by
  unfold sysExec at h
  split at h
  · cases h
  split at h
  · cases h
  next bin len _ =>
  rcases pmmAlloc A k mapsBytes with ⟨k1, m⟩
  dsimp only at h
  obtain ⟨k2, h2, h⟩ := bind_ok h
  obtain ⟨k3, h3, h⟩ := bind_ok h
  cases h
  have hp := protect_mapped h2
  have hv := hp.vas
  have ht := hp.top
  rw [modify_tasks_self] at hv ht
  have hload := spaceInv_loaded hv ht h3
  rw [modify_tasks_self]
  exact hload.congr rfl rfl

theorem procAlloc_space {t : TaskRef} (h : procAlloc A k = .ok (k', t)) :
    (k'.tasks t).vas = [] ∧ (k'.tasks t).heapTop = userHeap := by
  obtain ⟨_, _, a, m, rfl, -, -, h3⟩ := procAlloc_steps h
  have hp := protect_mapped h3
  refine ⟨hp.vas.trans ?_, hp.top.trans ?_⟩
  · show ((Kmt.set _ (.proc a) _).tasks (.proc a)).vas ++ [] = _
    rw [set_tasks_self]
    rfl
  · show ((Kmt.set _ (.proc a) _).tasks (.proc a)).heapTop = _
    rw [set_tasks_self]
    rfl

theorem spaceInv_spawn {bin : List UInt8} {len : Nat} {t : TaskRef} (h : procSpawn A k bin len = .ok (k', t)) :
    SpaceInv (k'.tasks t) := by
  obtain ⟨⟨k1, t⟩, h1, h⟩ := bind_ok h
  obtain ⟨k2, h2, h⟩ := bind_ok h
  obtain ⟨k5, h5, h⟩ := bind_ok h
  cases h
  generalize vfsSetupStdio _ _ = r at h5
  obtain ⟨-, rfl⟩ := ptableAdd_ok h5
  obtain ⟨hv, ht⟩ := procAlloc_space h1
  have hload := spaceInv_loaded hv ht h2
  show SpaceInv ((Kmt.set _ t _).tasks t)
  rw [set_tasks_self]
  refine hload.congr ?_ ?_
  · simp only [Task.vas, setFiles_tasks_self, modify_tasks_self]
  · simp only [setFiles_tasks_self, modify_tasks_self]

/-- The child has the pages and the cursor of its parent. -/
theorem sysFork_space {ctx : Context} {pid : Int} (h : sysFork A k p ctx = .ok (k', pid)) : ∃ a,
    k'.ptable = k.ptable ++ [.proc a] ∧ (p ≠ .proc a → (k'.tasks (.proc a)).vas = (k.tasks p).vas ∧
      (k'.tasks (.proc a)).heapTop = (k.tasks p).heapTop) := by
  obtain ⟨⟨k1, t⟩, h1, h⟩ := bind_ok h
  obtain ⟨a, _, rfl, hn⟩ := procAlloc_ok h1
  obtain ⟨k3, h3, h⟩ := bind_ok h
  obtain ⟨k7, h7, h⟩ := bind_ok h
  cases h
  generalize vfsFork _ _ _ = r at h7
  obtain ⟨-, rfl⟩ := ptableAdd_ok h7
  obtain ⟨_, hm3⟩ := memStep_forkPages h3
  refine ⟨a, ?_, fun hne => ?_⟩
  · show k3.ptable ++ _ = _
    rw [hm3.ptable, modify_ptable, hn.ptable]
  · have hf := forkPages_mapped h3
    have hpar : (k3.tasks p).heapTop = (k.tasks p).heapTop := by
      rw [hm3.other p hne, modify_tasks_ne hne, hn.other p hne]
    constructor
    · show ((Kmt.set _ (.proc a) _).tasks (.proc a)).vas = _
      rw [set_tasks_self]
      refine Eq.trans (b := (k3.tasks (.proc a)).vas) ?_ ?_
      · simp only [Task.vas, setFiles_tasks_self, modify_tasks_self]
      · rw [hf.vas, modify_tasks_self]
        have hnil : (k1.tasks (.proc a)).vas = [] := (procAlloc_space h1).1
        show (k1.tasks (.proc a)).vas ++ _ = _
        rw [hnil, modify_tasks_ne hne, hn.other p hne]
        rfl
    · show ((Kmt.set _ (.proc a) _).tasks (.proc a)).heapTop = _
      rw [set_tasks_self]
      simp only [setFiles_tasks_self, modify_tasks_self]
      exact hpar

end

/-! ## Steps -/

def Task.space (x : Task) : List Vmap × Nat := (x.maps, x.heapTop)

def SpaceKept (k k' : Kernel) : Prop := ∀ t ∈ k'.ptable, t ∈ k.ptable ∧ (k'.tasks t).space = (k.tasks t).space

section
variable {A : Allocator} {k k' : Kernel} {p : TaskRef}

theorem SpaceKept.refl (k : Kernel) : SpaceKept k k := fun _ ht => ⟨ht, rfl⟩

theorem SpaceKept.frame (hf : Frame k k') (h : ∀ t, (k'.tasks t).space = (k.tasks t).space) : SpaceKept k k' :=
  fun t ht => ⟨hf.ptable ▸ ht, h t⟩

theorem SpaceKept.modify {f : Task → Task} (hf : ∀ x, (f x).space = x.space) : SpaceKept k (k.modify p f) :=
  SpaceKept.frame (Frame.modify k p f) (modify_field Task.space (hf _))

theorem Died.spaceKept {status : Int} (hd : Died k p status k') : SpaceKept k k' :=
  SpaceKept.frame hd.toFrame (hd.field Task.space fun _ => rfl)

theorem SpaceKept.inv (h : SpaceKept k k') (hk : ∀ t ∈ k.ptable, SpaceInv (k.tasks t)) :
    ∀ t ∈ k'.ptable, SpaceInv (k'.tasks t) := by
  intro t ht
  obtain ⟨ht, hs⟩ := h t ht
  exact (hk t ht).congr (congrArg (fun x => x.1.map Vmap.va) hs) (congrArg Prod.snd hs)

inductive SpaceCall (A : Allocator) (k : Kernel) (p : TaskRef) (k' : Kernel) : Syscall → Prop
  | kept {call : Syscall} (h : SpaceKept k k') : SpaceCall A k p k' call
  | mmap {addr prot flags : Nat} {length : Int} {r : Option Nat}
    (h : sysMmap A k p addr length prot flags = .ok (k', r)) : SpaceCall A k p k' (.mmap addr length prot flags)
  | exec {va : Nat} {path : CStr} (h : sysExec A k p va path = .ok (k', true)) : SpaceCall A k p k' (.exec va path)
  | fork {ctx : Context} {pid : Int} (h : sysFork A k p ctx = .ok (k', pid)) : SpaceCall A k p k' .fork

theorem sysExec_false {va : Nat} {path : CStr} (h : sysExec A k p va path = .ok (k', false)) : k' = k := by
  unfold sysExec at h
  split at h
  · cases h; rfl
  split at h
  · cases h; rfl
  · rcases pmmAlloc A k mapsBytes with ⟨k1, m⟩
    dsimp only at h
    obtain ⟨k2, -, h⟩ := bind_ok h
    obtain ⟨k3, -, h⟩ := bind_ok h
    cases h

theorem doSyscall_space (hk : KernelInv k) {ctx f : Context} {now : Nat} {call : Syscall} {b : Bool}
    (h : doSyscall A k p ctx now call = .ok (k', f, b)) : SpaceCall A k p k' call := by
  cases call with
  | kputc ch => cases h; exact .kept (SpaceKept.frame (kputc_memStep p k _).toFrame fun _ => rfl)
  | getpid => cases h; exact .kept (SpaceKept.refl k)
  | uptime => cases h; exact .kept (SpaceKept.refl k)
  | unknown num => cases h; exact .kept (SpaceKept.refl k)
  | mmap addr length prot flags =>
    obtain ⟨⟨k1, r⟩, h1, h⟩ := bind_ok h
    cases h
    exact .mmap h1
  | vfs vc =>
    obtain ⟨⟨v, fs, r⟩, h1, h⟩ := bind_ok h
    cases h
    refine .kept (SpaceKept.frame (memStep_setFiles p k (v, fs)).toFrame ?_)
    exact modify_field (f := fun x => { x with files := fs }) Task.space rfl
  | exec va path =>
    obtain ⟨⟨k1, done⟩, h1, h⟩ := bind_ok h
    cases done with
    | true => cases h; exact .exec h1
    | false => cases h; rw [sysExec_false h1]; exact .kept (SpaceKept.refl k)
  | fork =>
    obtain ⟨⟨k1, pid⟩, h1, h⟩ := bind_ok h
    cases h
    exact .fork h1
  | kill pid =>
    obtain ⟨⟨k1, r⟩, h1, h⟩ := bind_ok h
    cases h
    rcases sysKill_ok h1 with ⟨rfl, -⟩ | ⟨target, -, -, -, hd⟩
    · exact .kept (SpaceKept.refl k')
    · exact .kept hd.spaceKept
  | exit status =>
    obtain ⟨k1, h1, h⟩ := bind_ok h
    cases h
    exact .kept (sysExit_ok h1).2.spaceKept
  | sleep n =>
    simp only [doSyscall, sysSleep, Except.ok.injEq] at h
    refine .kept ?_
    split at h
    · obtain ⟨rfl, -⟩ := Prod.mk.inj h
      exact SpaceKept.modify fun _ => rfl
    · split at h
      · obtain ⟨rfl, -⟩ := Prod.mk.inj h
        exact SpaceKept.modify fun _ => rfl
      · obtain ⟨rfl, -⟩ := Prod.mk.inj h
        exact SpaceKept.modify fun _ => rfl
  | wait va =>
    obtain ⟨⟨k1, r, pid, st⟩, h1, h⟩ := bind_ok h
    rcases tryReap_ok hk.own hk.procs h1 with ⟨child, rfl, -, -, hr⟩ | ⟨rfl, -, -⟩
    · cases h
      refine .kept fun t ht => ?_
      obtain ⟨ht, hne⟩ := (hr.mem_iff hk).mp ht
      exact ⟨ht, hr.field hne Task.space fun _ _ => rfl⟩
    · refine .kept ?_
      cases r with
      | block =>
        simp only [pure_eq_ok, Prod.mk.injEq] at h
        obtain ⟨rfl, -⟩ := h
        exact SpaceKept.modify fun _ => rfl
      | _ =>
        simp only [pure_eq_ok, Prod.mk.injEq] at h
        obtain ⟨rfl, -⟩ := h
        exact SpaceKept.refl _

end

section
variable {A : Allocator} {s s' : OsSys} {a : OsAct}

def SpacesInv (k : Kernel) : Prop := ∀ t ∈ k.ptable, SpaceInv (k.tasks t)

theorem SpacesInv.self {k k' : Kernel} {p : TaskRef} {new : List (Nat × Nat)} (h : SpacesInv k)
    (hm : MemStep p new k k') (hp : SpaceInv (k'.tasks p)) : SpacesInv k' := by
  intro t ht
  by_cases hne : t = p
  · rw [hne]; exact hp
  · rw [hm.other t hne]
    exact h t (hm.ptable ▸ ht)

theorem SpacesInv.call {k k' : Kernel} {p : TaskRef} {call : Syscall} (h : SpacesInv k) (hk : KernelInv k)
    (hp : p ∈ k.ptable)
    (hsafe : ∀ addr length prot flags, call = .mmap addr length prot flags →
      (addr ≠ 0 → flags ≠ mapUnmap → ∀ va ∈ mmapVas (k.tasks p) addr length, va ∉ (k.tasks p).vas ∧ ¬InHeap va) ∧
      ∀ r ∈ (sysMmap A k p addr length prot flags).toOption, r.2 = none → (r.1.tasks p).maps = (k.tasks p).maps)
    (hc : SpaceCall A k p k' call) : SpacesInv k' := by
  cases hc with
  | kept hkept => exact hkept.inv h
  | @mmap addr prot flags length r hm =>
    obtain ⟨h1, h2⟩ := hsafe addr length prot flags rfl
    rw [hm] at h2
    obtain ⟨_, hmem⟩ := memStep_sysMmap hm
    exact h.self hmem ((h p hp).mmapped (sysMmap_ok hm) h1 (h2 (k', r) rfl))
  | exec hx =>
    obtain ⟨⟨_, hmem⟩, -⟩ := memStep_sysExec hx
    exact h.self hmem (spaceInv_exec hx)
  | fork hf =>
    obtain ⟨-, n, new, hb⟩ := sysFork_ok hf
    obtain ⟨n', htab, hspace⟩ := sysFork_space hf
    have hnew := (hk.toKernelBase.born hb).1
    obtain rfl : n = n' := by
      have := append_cancel_left (hb.ptable.symm.trans htab)
      simpa using this
    obtain ⟨hv, ht⟩ := hspace fun he => hnew (he ▸ hp)
    intro t htm
    rw [hb.ptable] at htm
    rcases mem_append.mp htm with htm | htm
    · rw [hb.other t fun he => hnew (he ▸ htm)]
      exact h t htm
    · rw [mem_singleton.mp htm]
      exact (h p hp).congr hv ht

theorem SpacesInv.spawn {k k' : Kernel} {bin : List UInt8} {len : Nat} {t : TaskRef} (h : SpacesInv k)
    (hk : KernelBase k) (hs : procSpawn A k bin len = .ok (k', t)) : SpacesInv k' := by
  obtain ⟨n, new, rfl, hb⟩ := procSpawn_ok hs
  have hnew := (hk.born hb).1
  intro t ht
  rw [hb.ptable] at ht
  rcases mem_append.mp ht with ht | ht
  · rw [hb.other t fun he => hnew (he ▸ ht)]
    exact h t ht
  · rw [mem_singleton.mp ht]
    exact spaceInv_spawn hs

inductive SpaceMove (A : Allocator) (s : OsSys) : OsAct → Kernel → Prop
  | kept {a : OsAct} {k' : Kernel} (h : SpaceKept s.k k') : SpaceMove A s a k'
  | call {c now : Nat} {ctx : Context} {call : Syscall} {p : TaskRef} {k' : Kernel} (hu : s.user c = some p)
    (h : SpaceCall A s.k p k' call) : SpaceMove A s (.syscall c ctx now call) k'
  | spawn {bin : List UInt8} {len : Nat} {t : TaskRef} {k' : Kernel} (h : procSpawn A s.k bin len = .ok (k', t)) :
    SpaceMove A s (.spawn bin len) k'

theorem spaceMove_step (hk : KernelInv s.k) (hs : s.step A a = some s') : SpaceMove A s a s'.k := by
  cases a with
  | schedule c ctx =>
    cases osMove_step hk hs with
    | @sched _ _ _ _ m _ hsw =>
      have hkept : SpaceKept s.k { s.k with toKmt := m } :=
        fun t ht => ⟨ht, hsw.field Task.space (fun _ _ _ => rfl) (fun _ _ _ _ _ => rfl) t⟩
      exact .kept hkept
  | tick now =>
    cases hs
    exact .kept (SpaceKept.frame (uprocTick_frame s.k now).1 (uprocTick_field Task.space (fun _ _ => rfl) now))
  | pageFault c ctx =>
    cases osMove_step hk hs with
    | fault _ _ _ hd => exact .kept hd.spaceKept
  | spawn bin len =>
    simp only [OsSys.step] at hs
    cases hsp : procSpawn A s.k bin len with
    | error e => rw [hsp] at hs; cases hs
    | ok r =>
      rw [hsp] at hs
      cases hs
      exact .spawn hsp
  | syscall c ctx now call =>
    obtain ⟨p, hu, hs⟩ := Option.bind_eq_some_iff.mp hs
    obtain ⟨f0, hf0, hs⟩ := Option.bind_eq_some_iff.mp hs
    cases hd : doSyscall A s.k p f0 now call with
    | error e => rw [hd] at hs; cases hs
    | ok r =>
      rw [hd] at hs
      cases hs
      exact .call hu (doSyscall_space hk hd)

theorem SpacesInv.step (h : SpacesInv s.k) (hk : KernelInv s.k) (hsafe : MapSafe A s a) (hs : s.step A a = some s') :
    SpacesInv s'.k := by
  cases spaceMove_step hk hs with
  | kept hkept => exact hkept.inv h
  | call hu hc =>
    refine h.call hk (hk.user_mem hu) ?_ hc
    intro addr length prot flags he
    subst he
    exact hsafe _ hu
  | spawn hsp => exact h.spawn hk.toKernelBase hsp

end

section
variable {A : Allocator} {v : Vfs} {uprogs : List (List UInt8 × List UInt8)} {k : Kernel} {as : List OsAct} {s : OsSys}

theorem spacesInv_boot (h : uprocInit A v uprogs = .ok k) : SpacesInv k := by
  unfold uprocInit at h
  split at h
  · cases h
  · obtain ⟨⟨k1, p⟩, h1, h⟩ := bind_ok h
    cases h
    have h0 : SpacesInv (Kernel.blank v uprogs) := fun t ht => (not_mem_nil ht).elim
    have hsp : SpacesInv k1 := h0.spawn (kernelBase_blank v uprogs) h1
    exact hsp

theorem spaces_distinct (hboot : uprocInit A v uprogs = .ok k)
    (hc : Along (OsSys.step A) (MapSafe A) (OsSys.boot k) as)
    (hr : run (OsSys.step A) (OsSys.boot k) as = some s) :
    (∀ t ∈ s.k.ptable, SpaceOk (s.k.tasks t)) ∧
    ∀ c ctx now addr length prot flags p k' base, s.user c = some p →
      MapSafe A s (.syscall c ctx now (.mmap addr length prot flags)) →
      sysMmap A s.k p addr length prot flags = .ok (k', some base) →
      base = mmapBase (s.k.tasks p) addr ∧ ∀ va ∈ mmapVas (s.k.tasks p) addr length, va ∉ (s.k.tasks p).vas := by
  have hinv := run_inv_along (I := fun s => KernelInv s.k ∧ SpacesInv s.k) ?_ as _ s
    ⟨kernelInv_boot hboot, spacesInv_boot hboot⟩ hc hr
  · obtain ⟨hk, hs⟩ := hinv
    refine ⟨fun t ht => (hs t ht).toSpaceOk, ?_⟩
    intro c ctx now addr length prot flags p k' base hu hsafe hm
    obtain ⟨h1, h2⟩ := hsafe p hu
    have hmm := sysMmap_ok hm
    have hnd := ((hs p (hk.user_mem hu)).mmapped hmm h1 fun he => nomatch he).nodup
    cases hmm with
    | done _ hmap hmaps _ =>
      refine ⟨rfl, fun va hva hold => ?_⟩
      rw [hmaps, hmap.vas] at hnd
      exact (nodup_append'.mp hnd).2.2 hold hva
  · rintro s a s' ⟨hk, hsp⟩ hsafe hs
    exact ⟨hk.step hs, hsp.step hk hsafe hs⟩

end

def mapRun (hint : Nat) : List OsAct :=
  [.schedule 0 blankContext, .syscall 0 blankContext 0 (.mmap hint 4096 6 1),
   .syscall 0 blankContext 0 (.mmap 0 8192 6 1), .syscall 0 blankContext 0 .fork, .schedule 0 blankContext,
   .syscall 0 blankContext 0 (.exec userBase ⟨bytes "/bin/init", []⟩)]

theorem spaces_distinct_hinted : ∃ s, osRun (mapRun 0x60000000) = some s ∧ s.k.ptable.length = 2 ∧
    ∀ t ∈ s.k.ptable, SpaceOk (s.k.tasks t) := by
  have hrun : (smallKernel.any fun k => passes (OsSys.step bumpAlloc) (fun s a => decide (MapSafe bumpAlloc s a))
      (fun s => decide (s.k.ptable.length = 2)) (OsSys.boot k) (mapRun 0x60000000)) = true := by decide +kernel
  obtain ⟨v, k, s, hboot, hs, hr, hc, hl⟩ := small_passes (fun s a h => of_decide_eq_true h) hrun
  exact ⟨s, hs, of_decide_eq_true hl, (spaces_distinct hboot hc hr).1⟩

/-- A hint inside the image: the first page of the program is recorded a second time. -/
theorem image_page_mapped_twice : ∃ s, osRun (mapRun userBase |>.take 2) = some s ∧
    ∃ t ∈ s.k.ptable, (s.k.tasks t).vas.count userBase = 2 := by
  have hrun : ((osRun (mapRun userBase |>.take 2)).any fun s =>
      decide (∃ t ∈ s.k.ptable, (s.k.tasks t).vas.count userBase = 2)) = true := by decide +kernel
  obtain ⟨s, hs, hl⟩ := (Option.any_eq_true _ _).mp hrun
  exact ⟨s, hs, of_decide_eq_true hl⟩

end NjuOs
