import NjuOs.AllocSound

/-!
# What a call of `kalloc` answers

Blocks of a size class and blocks of whole pages lie at multiples of their own length,
counted from `data_start`. A call rounds its size up to such a length, as long as there is
one: `next_pow2` does not end above `2 ^ 63`, and `size_to_order` stops at `MAX_ORDER`.
-/

namespace NjuOs

open List Option

/-! ## Rounding up -/

theorem nextPow2Loop_le {n : Nat} (hn : n ≤ 2 ^ 63) : ∀ (fuel j : Nat), j ≤ Nat.clog 2 n → Nat.clog 2 n < j + fuel →
    nextPow2Loop n fuel (2 ^ j) = some (2 ^ Nat.clog 2 n)
  | 0, j, h1, h2 => by omega
  | fuel + 1, j, h1, h2 => by
    unfold nextPow2Loop
    rcases Nat.eq_or_lt_of_le h1 with rfl | hlt
    · rw [if_neg (Nat.not_lt.mpr (Nat.le_pow_clog (by decide) n))]
    · have hc : Nat.clog 2 n ≤ 63 := Nat.clog_le_of_le_pow hn
      have hpow : mul64 (2 ^ j) 2 = 2 ^ (j + 1) := by
        rw [pow_succ]
        apply mul64_eq
        rw [← pow_succ]
        exact Nat.pow_lt_pow_right (by decide) (by omega)
      rw [if_pos ((Nat.lt_clog_iff_pow_lt (by decide)).mp hlt), hpow]
      exact nextPow2Loop_le hn fuel (j + 1) hlt (by omega)

/-- Above `2 ^ 63` the shifts run through the powers and then stay at 0. -/
theorem nextPow2Loop_none {n : Nat} (hn : 2 ^ 63 < n) : ∀ (fuel p : Nat), p = 0 ∨ (∃ j ≤ 63, p = 2 ^ j) →
    nextPow2Loop n fuel p = none
  | 0, _, _ => rfl
  | fuel + 1, p, hp => by
    have hlt : p < n := by
      rcases hp with rfl | ⟨j, hj, rfl⟩
      · omega
      · exact Nat.lt_of_le_of_lt (Nat.pow_le_pow_right (by decide) hj) hn
    unfold nextPow2Loop
    rw [if_pos hlt]
    apply nextPow2Loop_none hn fuel
    rcases hp with rfl | ⟨j, hj, rfl⟩
    · exact Or.inl rfl
    · rcases Nat.eq_or_lt_of_le hj with rfl | hj
      · exact Or.inl (by decide)
      · refine Or.inr ⟨j + 1, hj, ?_⟩
        rw [pow_succ]
        apply mul64_eq
        rw [← pow_succ]
        exact Nat.pow_lt_pow_right (by decide) (by omega)

theorem nextPow2_eq {n : Nat} (hn : n ≤ 2 ^ 63) : nextPow2 n = some (2 ^ Nat.clog 2 n) := by
  have hc : Nat.clog 2 n ≤ 63 := Nat.clog_le_of_le_pow hn
  exact nextPow2Loop_le hn 65 0 (Nat.zero_le _) (by omega)

theorem nextPow2_none {n : Nat} (hn : 2 ^ 63 < n) : nextPow2 n = none :=
  nextPow2Loop_none hn 65 1 (Or.inr ⟨0, by decide, rfl⟩)

theorem classSize_eq : ∀ cls < nclass, classSize cls = 2 ^ (cls + 3) := by decide

theorem classFor_some {s cls : Nat} (h : classFor s = some cls) : s ≤ classSize cls := by
  have := find?_some h
  exact of_decide_eq_true this

theorem classFor_none {s : Nat} : classFor s = none ↔ 2048 < s := by
  unfold classFor
  rw [find?_eq_none]
  constructor
  · intro h
    have := h 8 (by decide)
    simpa [classSize] using this
  · intro h i hi
    have hle : ∀ i < nclass, classSize i ≤ 2048 := by decide
    have := hle i (mem_range.mp hi)
    simp only [decide_eq_true_eq]
    omega

/-- What `size_to_class` looks up: at least 8 bytes, rounded up to a power of two. -/
theorem sizeToClass_eq (size : Nat) :
    sizeToClass size = if 2 ^ 63 < size then none else some (classFor (2 ^ Nat.clog 2 (max 8 size))) := by
  have hmax : (if size < 8 then 8 else size) = max 8 size := by split <;> omega
  unfold sizeToClass
  rw [hmax]
  split
  · next hgt => rw [nextPow2_none (by omega), map_none]
  · next hle => rw [nextPow2_eq (by omega), map_some]

theorem sizeToClass_some {size cls : Nat} (h : sizeToClass size = some (some cls)) :
    size ≤ classSize cls ∧ 2 ^ Nat.clog 2 size ∣ classSize cls := by
  have hlt := sizeToClass_lt h
  have hsize : size ≤ classSize cls := by
    rw [sizeToClass_eq] at h
    split at h
    · cases h
    · calc size ≤ max 8 size := Nat.le_max_right _ _
        _ ≤ 2 ^ Nat.clog 2 (max 8 size) := Nat.le_pow_clog (by decide) _
        _ ≤ classSize cls := classFor_some (some.inj h)
  refine ⟨hsize, ?_⟩
  rw [classSize_eq cls hlt] at hsize ⊢
  exact pow_dvd_pow 2 (Nat.clog_le_of_le_pow hsize)

theorem sizeToClass_large {size : Nat} : sizeToClass size = some none ↔ 2048 < size ∧ size ≤ 2 ^ 63 := by
  have hpow : 2048 < 2 ^ Nat.clog 2 (max 8 size) ↔ 2048 < max 8 size := by
    rw [show 2048 = 2 ^ 11 from rfl, Nat.pow_lt_pow_iff_right (by decide), Nat.lt_clog_iff_pow_lt (by decide)]
  rw [sizeToClass_eq]
  split
  · simp only [reduceCtorEq, false_iff]
    omega
  · rw [some.injEq, classFor_none, hpow]
    omega

theorem sizeToClass_none {size : Nat} : sizeToClass size = none ↔ 2 ^ 63 < size := by
  rw [sizeToClass_eq]
  split <;> simp_all

/-- The loop ends at the first block that is large enough, or at `MAX_ORDER`. -/
theorem sizeToOrderLoop_spec (need : Nat) : ∀ (fuel order : Nat), (order = 0 ∨ pageSize * 2 ^ (order - 1) < need) →
    ∃ k, sizeToOrderLoop need fuel (pageSize * 2 ^ order) order = k ∧ (k = 0 ∨ pageSize * 2 ^ (k - 1) < need) ∧
      (need ≤ pageSize * 2 ^ k ∨ k = order + fuel)
  | 0, order, h => ⟨order, rfl, h, Or.inr rfl⟩
  | fuel + 1, order, h => by
    unfold sizeToOrderLoop
    by_cases hlt : pageSize * 2 ^ order < need
    · rw [if_pos hlt, mul_assoc, ← pow_succ]
      obtain ⟨k, hk, h1, h2⟩ := sizeToOrderLoop_spec need fuel (order + 1) (Or.inr hlt)
      exact ⟨k, hk, h1, h2.imp_right (by omega)⟩
    · rw [if_neg hlt]
      exact ⟨order, rfl, h, Or.inl (by omega)⟩

theorem sizeToOrder_spec (size : Nat) :
    (sizeToOrder size = 0 ∨ pageSize * 2 ^ (sizeToOrder size - 1) < size) ∧
    (size ≤ pageSize * 2 ^ sizeToOrder size ∨ sizeToOrder size = maxOrder) := by
  obtain ⟨k, hk, h1, h2⟩ := sizeToOrderLoop_spec (if size < pageSize then pageSize else size) maxOrder 0 (Or.inl rfl)
  rw [pow_zero, mul_one] at hk
  rw [show sizeToOrder size = k from hk]
  have hmax : (if size < pageSize then pageSize else size) = max pageSize size := by split <;> omega
  rw [hmax] at h1 h2
  refine ⟨h1.imp_right fun hlt => ?_, h2.imp (by omega) (by omega)⟩
  have := Nat.le_mul_of_pos_right pageSize (Nat.two_pow_pos (k - 1))
  omega

/-- A large block is as long as the rounded request, up to 256 MiB. -/
theorem sizeToOrder_clog {size : Nat} (h1 : pageSize < size) (h2 : size ≤ pageSize <<< maxOrder) :
    pageSize * 2 ^ sizeToOrder size = 2 ^ Nat.clog 2 size := by
  have hpage : pageSize = 2 ^ 12 := rfl
  obtain ⟨hlow, hhigh⟩ := sizeToOrder_spec size
  have hle : size ≤ pageSize * 2 ^ sizeToOrder size := by
    rcases hhigh with h | h
    · exact h
    · rwa [h, ← Nat.shiftLeft_eq]
  have hpos : sizeToOrder size ≠ 0 := by
    intro h0
    rw [h0] at hle
    omega
  have hlt := hlow.resolve_left hpos
  rw [hpage, ← pow_add] at hle hlt ⊢
  have hup := Nat.clog_le_of_le_pow hle
  have hdown := (Nat.lt_clog_iff_pow_lt (by decide)).mpr hlt
  congr 1
  omega

theorem sizeToOrder_huge {size : Nat} (h : pageSize <<< maxOrder < size) : sizeToOrder size = maxOrder := by
  rcases (sizeToOrder_spec size).2 with hle | he
  · have hpow : 2 ^ sizeToOrder size ≤ 2 ^ maxOrder := Nat.pow_le_pow_right (by decide) (sizeToOrder_le size)
    have := Nat.mul_le_mul_left pageSize hpow
    rw [Nat.shiftLeft_eq] at h
    omega
  · exact he

/-! ## A heap without data pages -/

section
variable {s : Pmm} (hl : ∀ k, s.freeLists k = [])
include hl

theorem buddyAlloc_empty (order : Nat) : buddyAlloc s order = (s, none) := by
  unfold buddyAlloc
  simp only [hl, ite_self]

theorem kallocLarge_empty (size : Nat) : kallocLarge s size = (s, none) := by
  unfold kallocLarge
  rw [buddyAlloc_empty hl]

end

structure NoPages (s : PmmSys) : Prop where
  lists : ∀ k, s.pmm.freeLists k = []
  caches : ∀ cpu cls, s.pmm.caches cpu cls = []
  live : s.live = []
  carving : s.carving = []

theorem NoPages.step {s s' : PmmSys} {a : PmmAct} (hs : NoPages s) (h : s.step a = some s') : s' = s := by
  cases step_move h with
  | stay => rfl
  | refill hcpu hcls hr =>
    rw [buddyAlloc_empty hs.lists] at hr
    cases hr
  | large size => rw [kallocLarge_empty hs.lists]; rfl
  | @pop cpu cls hcpu => simp only [slabPop, hs.caches, PmmSys.addLive]
  | carve hm => rw [hs.carving] at hm; cases hm
  | free hcpu hm hk => rw [hs.live] at hm; cases hm

theorem pmmInit_noRoom {h : Area} (hr : ¬h.room) : pmmInit h = pmmBase h := by
  have hle : ¬dataStartOf h < dataEndOf h := by
    obtain ⟨a, ha⟩ : pageSize ∣ dataStartOf h := dvd_pageOf _
    obtain ⟨b, hb⟩ : pageSize ∣ dataEndOf h := dvd_pageOf _
    unfold Area.room at hr
    rw [ha, hb] at hr ⊢
    simp only [pageSize] at *
    omega
  have hseed : ∀ fuel, seed fuel (pmmBase h) (dataStartOf h) = pmmBase h := by
    intro fuel
    cases fuel with
    | zero => rfl
    | succ fuel => exact if_neg hle
  exact hseed _

/-- A reachable state has the invariant, or it is the initial state of a heap without data pages. -/
theorem reach_cases (h : Area) {as : List PmmAct} {s : PmmSys}
    (hrun : run PmmSys.step (PmmSys.init h) as = some s) :
    s.pmm.dataStart = dataStartOf h ∧ (PmmInv s ∨ NoPages s) := by
  by_cases hr : h.room
  · obtain ⟨hs, hreg⟩ := reach_pmm h hr hrun
    simp only [Pmm.region, Prod.mk.injEq] at hreg
    exact ⟨hreg.1, Or.inl hs⟩
  · have hinit : NoPages (PmmSys.init h) := by
      refine ⟨fun k => ?_, fun cpu cls => ?_, rfl, rfl⟩
      · simp only [PmmSys.init, pmmInit_noRoom hr]; rfl
      · simp only [PmmSys.init, pmmInit_noRoom hr]; rfl
    have hs : s = PmmSys.init h := run_inv (I := fun s => s = PmmSys.init h)
      (fun s a s' hs hstep => by subst hs; exact hinit.step hstep) as _ s rfl hrun
    subst hs
    refine ⟨?_, Or.inr hinit⟩
    simp only [PmmSys.init, pmmInit_noRoom hr]; rfl

/-! ## What a call returns -/

/-- A call of `kalloc(size)` on `cpu` that starts in `s` returns the block `b`, of extent `e`: at once,
or by the second half of a refill, whatever other calls did in between. -/
inductive KallocReturns (s : PmmSys) (cpu size b : Nat) (e : Ext) : Prop
  | atOnce {s' : PmmSys} (h : s.step (.kalloc cpu size) = some s') (hl : s'.live = (b, e) :: s.live)
  | afterRefill {s' t t' : PmmSys} {cls page : Nat} {as : List PmmAct}
      (h : s.step (.kalloc cpu size) = some s') (hc : s'.carving = (cpu, cls, page) :: s.carving)
      (hrun : run PmmSys.step s' as = some t) (hw : PmmAct.carve cpu cls page ∉ as)
      (hstep : t.step (.carve cpu cls page) = some t') (hl : t'.live = (b, e) :: t.live)

theorem addLive_cons {s : PmmSys} {r : Pmm × Option Nat} {e e' : Ext} {b : Nat}
    (h : (s.addLive r e).live = (b, e') :: s.live) : r.2 = some b ∧ e' = e := by
  obtain ⟨p, o⟩ := r
  cases o with
  | none => exact absurd h.symm (cons_ne_self _ _)
  | some c =>
    simp only [PmmSys.addLive, List.cons.injEq, Prod.mk.injEq, and_true] at h
    exact ⟨by rw [h.1], h.2.symm⟩

theorem addLive_carving (s : PmmSys) (r : Pmm × Option Nat) (e : Ext) : (s.addLive r e).carving = s.carving := by
  obtain ⟨p, o⟩ := r
  cases o <;> rfl

theorem kallocLarge_ptr (s : Pmm) (size : Nat) : (kallocLarge s size).2 = (buddyAlloc s (sizeToOrder size)).2 := by
  unfold kallocLarge
  split
  · next heq => rw [heq]
  · next heq => rw [heq]

theorem PmmInv.cell_aligned {s : PmmSys} (hs : PmmInv s) {b cls : Nat} (hl : (b, Ext.slab cls) ∈ s.live) :
    classSize cls ∣ b := by
  obtain ⟨page, hx, hb⟩ := hs.slab_of_live hl
  obtain ⟨hcls, i, rfl, -⟩ := hs.slab page cls hx
  obtain ⟨j, -, rfl⟩ := mem_cells.mp hb
  have hpage : classSize cls ∣ pageSize := Dvd.intro_left _ (classSize_spec cls hcls).2
  exact Nat.dvd_add (hpage.trans (hs.aligned_addr i)) (Nat.dvd_mul_left _ _)

theorem kallocReturns_cases {s : PmmSys} (hs : PmmInv s) {cpu size b : Nat} {e : Ext}
    (h : KallocReturns s cpu size b e) :
    (∃ cls, sizeToClass size = some (some cls) ∧ e = .slab cls ∧ classSize cls ∣ b) ∨
    (sizeToClass size = some none ∧ e = .buddy (sizeToOrder size) ∧
      (buddyAlloc s.pmm (sizeToOrder size)).2 = some b) := by
  cases h with
  | @atOnce s' h hl =>
    have hs' := pmmInv_step hs h
    cases (step_kalloc h).2 with
    | zero => exact absurd hl.symm (cons_ne_self _ _)
    | noPage => exact absurd hl.symm (cons_ne_self _ _)
    | refill => exact absurd hl.symm (cons_ne_self _ _)
    | large hc =>
      obtain ⟨hb, rfl⟩ := addLive_cons hl
      exact Or.inr ⟨hc, rfl, (kallocLarge_ptr _ _).symm.trans hb⟩
    | @pop cls hc =>
      obtain ⟨-, rfl⟩ := addLive_cons hl
      exact Or.inl ⟨cls, hc, rfl, hs'.cell_aligned (hl ▸ mem_cons_self)⟩
  | @afterRefill s' t t' cls page as h hcar hrun hw hstep hl =>
    have ht := run_inv (fun _ _ _ => pmmInv_step) as s' t (pmmInv_step hs h) hrun
    have ht' := pmmInv_step ht hstep
    have hcls : sizeToClass size = some (some cls) := by
      cases (step_kalloc h).2 with
      | refill hc hr =>
        simp only [List.cons.injEq, Prod.mk.injEq, and_true, true_and] at hcar
        rw [← hcar.1]; exact hc
      | zero => exact absurd hcar.symm (cons_ne_self _ _)
      | noPage => exact absurd hcar.symm (cons_ne_self _ _)
      | large => rw [addLive_carving] at hcar; exact absurd hcar.symm (cons_ne_self _ _)
      | pop => rw [addLive_carving] at hcar; exact absurd hcar.symm (cons_ne_self _ _)
    have he : e = .slab cls := by
      simp only [PmmSys.step] at hstep
      split at hstep
      · cases hstep
        exact (addLive_cons hl).2
      · cases hstep
    subst he
    exact Or.inl ⟨cls, hcls, rfl, ht'.cell_aligned (hl ▸ mem_cons_self)⟩

theorem NoPages.no_return {s : PmmSys} (hs : NoPages s) {cpu size b : Nat} {e : Ext} :
    ¬KallocReturns s cpu size b e := by
  intro h
  cases h with
  | atOnce h hl => rw [hs.step h] at hl; exact absurd hl.symm (cons_ne_self _ _)
  | afterRefill h hc => rw [hs.step h] at hc; exact absurd hc.symm (cons_ne_self _ _)

/-! ## Alignment -/

/-- `kalloc(size)` answers with a naturally aligned block: whole pages are aligned relative to
`data_start` only, and above 256 MiB the call takes the first block of the last list. -/
def KallocAligned (h : Area) (s : PmmSys) (size : Nat) : Prop :=
  size ≤ pageSize ∨
    if size ≤ pageSize <<< maxOrder then 2 ^ Nat.clog 2 size ∣ dataStartOf h
    else ∀ b ∈ (s.pmm.freeLists maxOrder).head?, 2 ^ Nat.clog 2 size ∣ b

theorem buddyAlloc_maxOrder (s : Pmm) : (buddyAlloc s maxOrder).2 = (s.freeLists maxOrder).head? := by
  have hk : firstNonempty s (maxOrder + 1 - maxOrder) maxOrder =
      if s.freeLists maxOrder = [] then maxOrder + 1 else maxOrder := rfl
  unfold buddyAlloc
  simp only [hk]
  cases hl : s.freeLists maxOrder with
  | nil => simp
  | cons b rest => simp [hl]

theorem kalloc_aligned_iff (h : Area) (as : List PmmAct) (s : PmmSys)
    (hrun : run PmmSys.step (PmmSys.init h) as = some s) (cpu size b : Nat) (e : Ext)
    (hret : KallocReturns s cpu size b e) : 2 ^ Nat.clog 2 size ∣ b ↔ KallocAligned h s size := by
  obtain ⟨hds, hs | hs⟩ := reach_cases h hrun
  · rcases kallocReturns_cases hs hret with ⟨cls, hcls, -, hb⟩ | ⟨hcls, -, hb⟩
    · obtain ⟨hle, hdvd⟩ := sizeToClass_some hcls
      have h2048 : ∀ cls < nclass, classSize cls ≤ pageSize := by decide
      exact iff_of_true (hdvd.trans hb) (Or.inl (hle.trans (h2048 cls (sizeToClass_lt hcls))))
    · obtain ⟨i, rfl, hal, -⟩ := buddyAlloc_some hs.buddy (Prod.ext rfl hb)
      unfold KallocAligned
      by_cases h1 : size ≤ pageSize
      · refine iff_of_true ?_ (Or.inl h1)
        exact (pow_dvd_pow 2 (Nat.clog_le_of_le_pow (y := 12) h1)).trans (hs.aligned_addr i)
      · simp only [h1, false_or]
        by_cases h2 : size ≤ pageSize <<< maxOrder
        · rw [if_pos h2, ← sizeToOrder_clog (by omega) h2, ← hds]
          have hoff : pageSize * 2 ^ sizeToOrder size ∣ i * pageSize := by
            rw [Nat.mul_comm i]
            exact Nat.mul_dvd_mul_left _ hal
          exact (Nat.dvd_add_left hoff)
        · have hhead : (s.pmm.freeLists maxOrder).head? = some (addrOf s.pmm i) := by
            rw [← buddyAlloc_maxOrder, ← sizeToOrder_huge (Nat.lt_of_not_le h2), hb]
          rw [if_neg h2, hhead]
          simp
  · exact absurd hret hs.no_return

theorem kalloc_5000_returns : KallocReturns (PmmSys.init smallArea) 0 5000 4096 (.buddy 1) := by
  have hs : ((PmmSys.init smallArea).step (.kalloc 0 5000)).isSome := by decide +kernel
  have hl : ∀ s ∈ (PmmSys.init smallArea).step (.kalloc 0 5000), s.live = [(4096, .buddy 1)] := by
    decide +kernel
  obtain ⟨s, hs⟩ := isSome_iff_exists.mp hs
  exact .atOnce hs (hl s hs)

theorem kalloc_aligned_small : KallocReturns (PmmSys.init smallArea) 0 5000 4096 (.buddy 1) ∧
    (2 ^ Nat.clog 2 5000 ∣ 4096 ↔ KallocAligned smallArea (PmmSys.init smallArea) 5000) :=
  ⟨kalloc_5000_returns, kalloc_aligned_iff smallArea [] _ rfl 0 5000 4096 _ kalloc_5000_returns⟩

/-- The data region starts at 4096, and so does the block of two pages. -/
theorem kalloc_misaligned : KallocReturns (PmmSys.init smallArea) 0 5000 4096 (.buddy 1) ∧
    2 ^ Nat.clog 2 5000 = 8192 ∧ ¬8192 ∣ 4096 := by
  exact ⟨kalloc_5000_returns, by decide +kernel, by decide⟩

/-! ## Extent -/

structure KallocFits (s : PmmSys) (cpu size : Nat) : Prop where
  ends : ∃ s', s.step (.kalloc cpu size) = some s' ∧ ∀ cls page, s'.carving = (cpu, cls, page) :: s.carving →
    ∀ as t, run PmmSys.step s' as = some t → PmmAct.carve cpu cls page ∉ as →
      (t.step (.carve cpu cls page)).isSome
  enough : ∀ b e, KallocReturns s cpu size b e → size ≤ e.size

theorem carving_step {s s' : PmmSys} {a : PmmAct} {cpu cls page : Nat} (hx : (cpu, cls, page) ∈ s.carving)
    (ha : a ≠ .carve cpu cls page) (h : s.step a = some s') : (cpu, cls, page) ∈ s'.carving := by
  cases a with
  | kalloc c size =>
    cases (step_kalloc h).2 with
    | zero => exact hx
    | noPage => exact hx
    | refill => exact mem_cons_of_mem _ hx
    | large => rw [addLive_carving]; exact hx
    | pop => rw [addLive_carving]; exact hx
  | carve c l p =>
    simp only [PmmSys.step] at h
    split at h
    · cases h
      rw [addLive_carving]
      refine (mem_erase_of_ne fun he => ha ?_).mpr hx
      cases he; rfl
    · cases h
  | kfree c ptr =>
    simp only [PmmSys.step] at h
    split at h
    · cases h
    · split at h
      · cases h; exact hx
      · split at h
        · cases h
        · obtain ⟨q, -, rfl⟩ := map_eq_some_iff.mp h
          exact hx

theorem carving_run {cpu cls page : Nat} : ∀ (as : List PmmAct) (s t : PmmSys), (cpu, cls, page) ∈ s.carving →
    PmmAct.carve cpu cls page ∉ as → run PmmSys.step s as = some t → (cpu, cls, page) ∈ t.carving
  | [], s, t, hx, _, h => by cases h; exact hx
  | a :: as, s, t, hx, hw, h => by
    obtain ⟨u, hu, hr⟩ := run_cons_some h
    rw [mem_cons, not_or] at hw
    exact carving_run as u t (carving_step hx (Ne.symm hw.1) hu) hw.2 hr

theorem kalloc_ends {s : PmmSys} {cpu size : Nat} (hcpu : cpu < maxCpu) (hc : ∀ x ∈ s.carving, x.1 ≠ cpu)
    (hsize : size ≤ 2 ^ 63) : ∃ s', s.step (.kalloc cpu size) = some s' := by
  simp only [PmmSys.step, if_neg (may_call hcpu hc)]
  split
  · exact ⟨_, rfl⟩
  · split
    · next h => exact absurd (sizeToClass_none.mp h) (by omega)
    · split
      · split <;> exact ⟨_, rfl⟩
      · exact ⟨_, rfl⟩
    · exact ⟨_, rfl⟩

/-- Above 256 MiB the request is cut to a block of `MAX_ORDER`. -/
theorem kalloc_cut {s : PmmSys} {cpu size b : Nat} {rest : List Nat} (hcpu : cpu < maxCpu)
    (hc : ∀ x ∈ s.carving, x.1 ≠ cpu) (hbig : pageSize <<< maxOrder < size) (hle : size ≤ 2 ^ 63)
    (hl : s.pmm.freeLists maxOrder = b :: rest) : KallocReturns s cpu size b (.buddy maxOrder) := by
  have hp : 2048 < size := Nat.lt_trans (by decide) hbig
  have hlarge : sizeToClass size = some none := sizeToClass_large.mpr ⟨hp, hle⟩
  have hptr : (kallocLarge s.pmm size).2 = some b := by
    rw [kallocLarge_ptr, sizeToOrder_huge hbig, buddyAlloc_maxOrder, hl, head?_cons]
  obtain ⟨s', hstep⟩ := kalloc_ends hcpu hc hle
  refine .atOnce hstep ?_
  cases (step_kalloc hstep).2 with
  | zero h0 => omega
  | noPage h => rw [hlarge] at h; cases h
  | refill h => rw [hlarge] at h; cases h
  | pop h => rw [hlarge] at h; cases h
  | large h =>
    rw [show kallocLarge s.pmm size = ((kallocLarge s.pmm size).1, some b) from Prod.ext rfl hptr,
      sizeToOrder_huge hbig]
    rfl

theorem kalloc_enough {s : PmmSys} (hs : PmmInv s) {cpu size b : Nat} {e : Ext}
    (hfit : size ≤ pageSize <<< maxOrder ∨ s.pmm.freeLists maxOrder = []) (h : KallocReturns s cpu size b e) :
    size ≤ e.size := by
  rcases kallocReturns_cases hs h with ⟨cls, hcls, rfl, -⟩ | ⟨-, rfl, hb⟩
  · exact (sizeToClass_some hcls).1
  · show size ≤ pageSize <<< sizeToOrder size
    by_cases hle : size ≤ pageSize <<< maxOrder
    · rw [Nat.shiftLeft_eq]
      rcases (sizeToOrder_spec size).2 with h | h
      · exact h
      · rwa [h, ← Nat.shiftLeft_eq]
    · have hnil := hfit.resolve_left hle
      rw [sizeToOrder_huge (Nat.lt_of_not_le hle), buddyAlloc_maxOrder, hnil] at hb
      cases hb

theorem kalloc_fits_iff (h : Area) (as : List PmmAct) (s : PmmSys)
    (hrun : run PmmSys.step (PmmSys.init h) as = some s) (cpu size : Nat) (hcpu : cpu < maxCpu)
    (hc : ∀ x ∈ s.carving, x.1 ≠ cpu) :
    KallocFits s cpu size ↔
      size ≤ pageSize <<< maxOrder ∨ (size ≤ 2 ^ 63 ∧ s.pmm.freeLists maxOrder = []) := by
  constructor
  · intro hf
    by_cases hsmall : size ≤ pageSize <<< maxOrder
    · exact Or.inl hsmall
    obtain ⟨s', hstep, -⟩ := hf.ends
    have hle : size ≤ 2 ^ 63 := by
      by_contra hgt
      have hnone := sizeToClass_none.mpr (Nat.lt_of_not_le hgt)
      cases (step_kalloc hstep).2 with
      | zero h0 => omega
      | large h => rw [hnone] at h; cases h
      | noPage h => rw [hnone] at h; cases h
      | refill h => rw [hnone] at h; cases h
      | pop h => rw [hnone] at h; cases h
    refine Or.inr ⟨hle, ?_⟩
    cases hl : s.pmm.freeLists maxOrder with
    | nil => rfl
    | cons b rest =>
      have hcut := kalloc_cut hcpu hc (Nat.lt_of_not_le hsmall) hle hl
      exact absurd (hf.enough b _ hcut) hsmall
  · intro hfit
    have hle : size ≤ 2 ^ 63 := by
      rcases hfit with h1 | h1
      · exact Nat.le_trans h1 (by decide)
      · exact h1.1
    obtain ⟨s', hstep⟩ := kalloc_ends hcpu hc hle
    refine ⟨⟨s', hstep, fun cls page hcar as t hr hw => ?_⟩, fun b e hret => ?_⟩
    · have hx := carving_run as s' t (hcar ▸ mem_cons_self) hw hr
      simp only [PmmSys.step, if_pos hx, Option.isSome_some]
    · obtain ⟨-, hs | hs⟩ := reach_cases h hrun
      · exact kalloc_enough hs (hfit.imp_right And.right) hret
      · exact absurd hret hs.no_return

theorem kalloc_fits_small : KallocFits (PmmSys.init smallArea) 0 5000 ↔
    5000 ≤ pageSize <<< maxOrder ∨ (5000 ≤ 2 ^ 63 ∧ (pmmInit smallArea).freeLists maxOrder = []) :=
  kalloc_fits_iff smallArea [] _ rfl 0 5000 (by decide) (fun _ hx => nomatch hx)

def blockArea : Area := ⟨0, 269225984, by decide, by decide⟩

/-- `next_pow2` never returns from a size above `2 ^ 63`; a request of one byte more than 256 MiB is
answered with 256 MiB. -/
theorem kalloc_not_fitting :
    (PmmSys.init smallArea).step (.kalloc 0 (2 ^ 63 + 1)) = none ∧
    ¬KallocFits (PmmSys.init smallArea) 0 (2 ^ 63 + 1) ∧
    KallocReturns (PmmSys.init blockArea) 0 (2 ^ 28 + 1) 790528 (.buddy maxOrder) ∧
    ¬KallocFits (PmmSys.init blockArea) 0 (2 ^ 28 + 1) := by
  have hnone : ((PmmSys.init smallArea).step (.kalloc 0 (2 ^ 63 + 1))).isNone := by decide +kernel
  have hnone := Option.isNone_iff_eq_none.mp hnone
  have hlist : (PmmSys.init blockArea).pmm.freeLists maxOrder = [790528] := by decide +kernel
  have hcut : KallocReturns (PmmSys.init blockArea) 0 (2 ^ 28 + 1) 790528 (.buddy maxOrder) :=
    kalloc_cut (by decide) (fun _ hx => nomatch hx) (by decide) (by decide) hlist
  refine ⟨hnone, fun hf => ?_, hcut, fun hf => ?_⟩
  · obtain ⟨s', hs', -⟩ := hf.ends
    rw [hnone] at hs'
    cases hs'
  · exact absurd (hf.enough _ _ hcut) (by decide)

/-! ## Free runs -/

def FreePage (s : Pmm) (p : Nat) : Prop := FreeAddr s (addrOf s p)

def FreeRun (s : Pmm) (order i : Nat) : Prop := 2 ^ order ∣ i ∧ ∀ p, i ≤ p → p < i + 2 ^ order → FreePage s p

structure BuddyExact (s : Pmm) (order : Nat) : Prop where
  null : (buddyAlloc s order).2 = none ↔ ¬∃ i, FreeRun s order i
  same : (buddyAlloc s order).2 = none → (buddyAlloc s order).1 = s
  block : ∀ blk, (buddyAlloc s order).2 = some blk →
    ∃ i, blk = addrOf s i ∧ FreeRun s order i ∧
      (∀ p, FreePage (buddyAlloc s order).1 p ↔ FreePage s p ∧ ¬(i ≤ p ∧ p < i + 2 ^ order)) ∧
      SameRest s (buddyAlloc s order).1

section
variable {s : Pmm} (hs : BuddyInv s)
include hs

theorem BuddyInv.freePage_iff (p : Nat) : FreePage s p ↔ p ∈ freePages s := by
  rw [FreePage, ← hs.covers_iff, mem_freePages]
  constructor
  · rintro ⟨⟨k, i⟩, hb, hp⟩
    exact (mem_freePages s).mp (mem_freePages_of hs.lists hb hp)
  · rintro ⟨k, hk, a, ha, hp⟩
    obtain ⟨-, i, rfl, -⟩ := hs.lists k a ha
    rw [pageIdx_addrOf] at hp
    exact ⟨(k, i), ha, hp⟩

theorem BuddyInv.list_of_run {order i : Nat} (ho : order ≤ maxOrder) (h : FreeRun s order i) :
    ∃ k, order ≤ k ∧ k ≤ maxOrder ∧ s.freeLists k ≠ [] := by
  have hcov : ∀ p ∈ blockPages order i, Covers (freeBlocks s) p := by
    intro p hp
    obtain ⟨h1, h2⟩ := mem_blockPages.mp hp
    exact (hs.covers_iff p).mpr (h.2 p h1 h2)
  obtain ⟨⟨k, j⟩, hb, hk, -⟩ := hs.tiling.covering order i ho h.1 hcov
  exact ⟨k, hk, (hs.lists k _ hb).1, ne_nil_of_mem hb⟩

theorem BuddyInv.exact {order : Nat} (ho : order ≤ maxOrder) : BuddyExact s order := by
  have hnone : (buddyAlloc s order).2 = none → (buddyAlloc s order).1 = s ∧
      ∀ k, order ≤ k → k ≤ maxOrder → s.freeLists k = [] := fun h => buddyAlloc_none (Prod.ext rfl h)
  have hblock : ∀ blk, (buddyAlloc s order).2 = some blk → ∃ i, blk = addrOf s i ∧ FreeRun s order i ∧
      (∀ p, FreePage (buddyAlloc s order).1 p ↔ FreePage s p ∧ ¬(i ≤ p ∧ p < i + 2 ^ order)) ∧
      SameRest s (buddyAlloc s order).1 := by
    intro blk h
    obtain ⟨i, rfl, hal, -, hfree, hsame, hs'⟩ := buddyAlloc_some hs (Prod.ext rfl h)
    have hnd := hs.nodup
    rw [hfree] at hnd
    have hdis : ∀ {p}, p ∈ blockPages order i → p ∉ freePages (buddyAlloc s order).1 := fun hp =>
      Multiset.disjoint_left.mp (Multiset.nodup_add.mp hnd).2.2 hp
    refine ⟨i, rfl, ⟨hal, fun p h1 h2 => ?_⟩, fun p => ?_, hsame⟩
    · rw [hs.freePage_iff, hfree]
      exact Multiset.mem_add.mpr (Or.inl (mem_blockPages.mpr ⟨h1, h2⟩))
    · rw [hs.freePage_iff, hs'.freePage_iff, hfree, Multiset.mem_add, ← mem_blockPages]
      constructor
      · exact fun hp => ⟨Or.inr hp, fun hb => hdis hb hp⟩
      · exact fun hp => hp.1.resolve_left hp.2
  refine ⟨⟨fun h => ?_, fun h => ?_⟩, fun h => (hnone h).1, hblock⟩
  · rintro ⟨i, hi⟩
    obtain ⟨k, h1, h2, hne⟩ := hs.list_of_run ho hi
    exact hne ((hnone h).2 k h1 h2)
  · cases hr : (buddyAlloc s order).2 with
    | none => rfl
    | some blk =>
      obtain ⟨i, -, hi, -⟩ := hblock blk hr
      exact absurd ⟨i, hi⟩ h

end

theorem buddy_alloc_exact (h : Area) (as : List PmmAct) (s : PmmSys)
    (hrun : run PmmSys.step (PmmSys.init h) as = some s) (order : Nat) (ho : order ≤ maxOrder) :
    BuddyExact s.pmm order := by
  obtain ⟨-, hs | hs⟩ := reach_cases h hrun
  · exact hs.buddy.exact ho
  · have hempty := buddyAlloc_empty hs.lists order
    refine ⟨?_, fun _ => by rw [hempty], fun blk hb => by rw [hempty] at hb; cases hb⟩
    rw [hempty]
    refine iff_of_true rfl ?_
    rintro ⟨i, -, hi⟩
    obtain ⟨k, a, ha, -⟩ := hi i (Nat.le_refl _) (Nat.lt_add_of_pos_right (Nat.two_pow_pos order))
    rw [hs.lists] at ha
    cases ha

theorem buddy_alloc_exact_small :
    ∃ s, run PmmSys.step (PmmSys.init smallArea) smallRun = some s ∧ BuddyExact s.pmm 1 := by
  have hs : (run PmmSys.step (PmmSys.init smallArea) smallRun).isSome := by decide +kernel
  obtain ⟨s, hs⟩ := isSome_iff_exists.mp hs
  exact ⟨s, hs, buddy_alloc_exact smallArea smallRun s hs 1 (by decide)⟩

/-! ## Double frees -/

/-- No run that starts with allocator `q` and without the block `l` hands out an address twice. -/
def NeverTwice (s : PmmSys) (q : Pmm) (l : Nat × Ext) : Prop :=
  ∀ as t, run PmmSys.step { s with pmm := q, live := s.live.erase l } as = some t → (t.live.map Prod.fst).Nodup

/-- With a cell on two lists, or twice on one, the next two calls hand it out twice. -/
theorem pushed_twice {s : PmmSys} {c c' p cls : Nat} (hc : c < maxCpu) (hc' : c' < maxCpu) (hcls : cls < nclass)
    (hcar : ∀ x ∈ s.carving, x.1 ≠ c ∧ x.1 ≠ c') {q : Pmm} {X : List Nat} (hq : q.caches c cls = p :: X) (l : Nat × Ext) :
    ¬NeverTwice s (q.setCache c' cls (p :: q.caches c' cls)) l := by
  intro hn
  have h1 := step_pop (s := { s with pmm := q.setCache c' cls (p :: q.caches c' cls), live := s.live.erase l })
    hc' (fun x hx => (hcar x hx).2) hcls (caches_setCache q c' cls _)
  simp only [setCache_setCache, setCache_caches] at h1
  have h2 := step_pop (s := { s with pmm := q, live := (p, Ext.slab cls) :: s.live.erase l })
    hc (fun x hx => (hcar x hx).1) hcls hq
  have hnd := hn [.kalloc c' (classSize cls), .kalloc c (classSize cls)] _ (by
    rw [run_cons, h1, bind_some, run_cons, h2, bind_some, run_nil])
  simp at hnd

theorem double_free_iff (h : Area) (as : List PmmAct) (s : PmmSys)
    (hrun : run PmmSys.step (PmmSys.init h) as = some s) (c c' p : Nat) (e : Ext) (hl : (p, e) ∈ s.live)
    (hc : c < maxCpu) (hc' : c' < maxCpu) (hcar : ∀ x ∈ s.carving, x.1 ≠ c ∧ x.1 ≠ c') :
    ∃ q q', kfree s.pmm c p = some q ∧ kfree q c' p = some q' ∧
      (q' = q ↔ ∃ k, e = .buddy k) ∧ (NeverTwice s q' (p, e) ↔ ∃ k, e = .buddy k) := by
  obtain ⟨-, hs | hs⟩ := reach_cases h hrun
  · cases e with
    | buddy k =>
      obtain ⟨q, hq, hds, hkind, hs'⟩ := hs.free_block c hl
      have hagain : kfree q c' p = some q := by
        unfold kfree
        split
        · rfl
        · simp only [descOf, hds] at hkind ⊢
          rw [hkind]
      refine ⟨q, q, hq, hagain, iff_of_true rfl ⟨k, rfl⟩, iff_of_true (fun as t ht => ?_) ⟨k, rfl⟩⟩
      exact (run_inv (fun _ _ _ => pmmInv_step) as _ t hs' ht).nodup_addr
    | slab cls =>
      obtain ⟨page, hx, -⟩ := hs.slab_of_live hl
      have hcls := (hs.slab page cls hx).1
      have hno : ¬∃ k, Ext.slab cls = Ext.buddy k := by rintro ⟨k, hk⟩; cases hk
      have h1 := hs.kfree_cell hl rfl rfl c
      have h2 := hs.kfree_cell (q := s.pmm.setCache c cls (p :: s.pmm.caches c cls)) hl rfl rfl c'
      refine ⟨_, _, h1, h2, iff_of_false (fun he => ?_) hno, iff_of_false ?_ hno⟩
      · have := congrArg (fun q => (q.caches c' cls).length) he
        simp [caches_setCache] at this
      · exact pushed_twice hc hc' hcls hcar (caches_setCache ..) _
  · rw [hs.live] at hl
    cases hl

def cellRun : List PmmAct := [.kalloc 0 8, .carve 0 0 12288]

theorem double_free_small :
    ∃ s, run PmmSys.step (PmmSys.init smallArea) cellRun = some s ∧
      ∃ q q', kfree s.pmm 0 16376 = some q ∧ kfree q 0 16376 = some q' ∧
        (q' = q ↔ ∃ k, Ext.slab 0 = .buddy k) ∧ (NeverTwice s q' (16376, .slab 0) ↔ ∃ k, Ext.slab 0 = .buddy k) := by
  have hs : (run PmmSys.step (PmmSys.init smallArea) cellRun).isSome := by decide +kernel
  have hl : ∀ s ∈ run PmmSys.step (PmmSys.init smallArea) cellRun,
      s.live = [(16376, .slab 0)] ∧ s.carving = [] := by decide +kernel
  obtain ⟨s, hs⟩ := isSome_iff_exists.mp hs
  obtain ⟨h1, h2⟩ := hl s hs
  exact ⟨s, hs, double_free_iff smallArea cellRun s hs 0 0 16376 (.slab 0) (by simp [h1]) (by decide) (by decide)
    (by simp [h2])⟩

/-- The cell is freed twice and then handed out twice. -/
theorem double_free_returns_twice :
    ∃ s q q' t, run PmmSys.step (PmmSys.init smallArea) cellRun = some s ∧
      kfree s.pmm 0 16376 = some q ∧ kfree q 0 16376 = some q' ∧ q' ≠ q ∧
      run PmmSys.step { s with pmm := q', live := s.live.erase (16376, .slab 0) }
        [.kalloc 0 8, .kalloc 0 8] = some t ∧
      t.live = [(16376, .slab 0), (16376, .slab 0)] := by
  have hs : (run PmmSys.step (PmmSys.init smallArea) cellRun).isSome := by decide +kernel
  have hl : ∀ s ∈ run PmmSys.step (PmmSys.init smallArea) cellRun, (kfree s.pmm 0 16376).isSome ∧
      ∀ q ∈ kfree s.pmm 0 16376, (kfree q 0 16376).isSome ∧
      ∀ q' ∈ kfree q 0 16376, q'.caches 0 0 ≠ q.caches 0 0 ∧
        (run PmmSys.step { s with pmm := q', live := s.live.erase (16376, .slab 0) }
          [.kalloc 0 8, .kalloc 0 8]).isSome ∧
        ∀ t ∈ run PmmSys.step { s with pmm := q', live := s.live.erase (16376, .slab 0) }
          [.kalloc 0 8, .kalloc 0 8], t.live = [(16376, .slab 0), (16376, .slab 0)] := by decide +kernel
  obtain ⟨s, hs⟩ := isSome_iff_exists.mp hs
  obtain ⟨hq, hl⟩ := hl s hs
  obtain ⟨q, hq⟩ := isSome_iff_exists.mp hq
  obtain ⟨hq', hl⟩ := hl q hq
  obtain ⟨q', hq'⟩ := isSome_iff_exists.mp hq'
  obtain ⟨hne, ht, hl⟩ := hl q' hq'
  obtain ⟨t, ht⟩ := isSome_iff_exists.mp ht
  exact ⟨s, q, q', t, hs, hq, hq', fun he => hne (by rw [he]), ht, hl t ht⟩

end NjuOs
