import NjuOs.PmmSound

/-!
# What the books say about addresses

The multiset equations of `PmmInv` read back as statements about address ranges:
the blocks tile the data region, live allocations are apart from one another and from
free memory, and the free lists are determined by the set of free pages.
-/

namespace NjuOs

open Function List

def Apart (a b : Nat × Nat) : Prop := a.1 + a.2 ≤ b.1 ∨ b.1 + b.2 ≤ a.1

def Ext.size : Ext → Nat
  | .buddy k => pageSize <<< k
  | .slab cls => classSize cls

/-- Blocks on the free lists, live large blocks, slab pages, and pages being carved. -/
def PmmSys.blocks (s : PmmSys) : List (Nat × Nat) :=
  ((List.range (maxOrder + 1)).flatMap fun k => (s.pmm.freeLists k).map fun a => (a, pageSize <<< k)) ++
  (s.live.filterMap fun
    | (p, .buddy k) => some (p, pageSize <<< k)
    | (_, .slab _) => none) ++
  s.slabs.map (fun x => (x.1, pageSize)) ++ s.carving.map fun x => (x.2.2, pageSize)

structure PmmSafe (h : Area) (s : PmmSys) : Prop where
  region : s.pmm.dataStart = dataStartOf h ∧ s.pmm.dataEnd = dataEndOf h
  disjoint : s.blocks.Pairwise Apart
  inside : ∀ b ∈ s.blocks, s.pmm.dataStart ≤ b.1 ∧ b.1 + b.2 ≤ s.pmm.dataEnd
  cover : ∀ a, s.pmm.dataStart ≤ a → a < s.pmm.dataEnd → ∃ b ∈ s.blocks, b.1 ≤ a ∧ a < b.1 + b.2
  cell : ∀ page cls, (page, cls) ∈ s.slabs → ∀ c ∈ cells page cls,
    s.live.count (c, .slab cls) + ∑ cpu ∈ Finset.range maxCpu, (s.pmm.caches cpu cls).count c = 1 ∧
    ∀ cpu cls', c ∈ s.pmm.caches cpu cls' → cpu < maxCpu ∧ cls' = cls
  listed : ∀ cpu cls, ∀ c ∈ s.pmm.caches cpu cls, ∃ page, (page, cls) ∈ s.slabs ∧ c ∈ cells page cls
  descBuddy : ∀ p k, (p, Ext.buddy k) ∈ s.live →
    (s.pmm.pgtab (descOf s.pmm (pageOf p))).kind = .buddy ∧
    (s.pmm.pgtab (descOf s.pmm (pageOf p))).order = k
  descSlab : ∀ p cls, (p, Ext.slab cls) ∈ s.live →
    (s.pmm.pgtab (descOf s.pmm (pageOf p))).kind = .slab ∧
    (s.pmm.pgtab (descOf s.pmm (pageOf p))).objSize = classSize cls
  liveApart : s.live.Pairwise fun l l' => Apart (l.1, l.2.size) (l'.1, l'.2.size)
  liveInside : ∀ l ∈ s.live, s.pmm.dataStart ≤ l.1 ∧ l.1 + l.2.size ≤ s.pmm.dataEnd
  tableBelow : h.start + s.pmm.totalPages * descBytes ≤ s.pmm.dataStart
  liveFree : ∀ l ∈ s.live, ∀ k, ∀ a ∈ s.pmm.freeLists k, Apart (l.1, l.2.size) (a, pageSize <<< k)
  liveCells : ∀ l ∈ s.live, ∀ cpu cls, ∀ c ∈ s.pmm.caches cpu cls,
    Apart (l.1, l.2.size) (c, classSize cls)

/-! ## Ranges of pages -/

def Within (s : Pmm) (e : Nat × Nat) (i n : Nat) : Prop :=
  addrOf s i ≤ e.1 ∧ e.1 + e.2 ≤ addrOf s (i + n)

section
variable {s : Pmm}

theorem within_apart {e e' : Nat × Nat} {i j n m : Nat} (h : Within s e i n) (h' : Within s e' j m)
    (hd : i + n ≤ j ∨ j + m ≤ i) : Apart e e' := by
  simp only [Within, addrOf, pageSize, Apart] at *
  omega

theorem disjoint_pages {i j n m : Nat} (hn : 0 < n) (hm : 0 < m)
    (h : ∀ p, i ≤ p → p < i + n → j ≤ p → p < j + m → False) : i + n ≤ j ∨ j + m ≤ i := by
  by_contra hc
  rcases Nat.le_total i j with hij | hij
  · exact h j hij (by omega) (by omega) (by omega)
  · exact h i (by omega) (by omega) hij (by omega)

theorem within_block (s : Pmm) (i k : Nat) : Within s (addrOf s i, pageSize <<< k) i (2 ^ k) :=
  ⟨Nat.le_refl _, Nat.le_of_eq (addrOf_add s i k)⟩

theorem within_cell {i cls c : Nat} (hc : cls < nclass) (h : c ∈ cells (addrOf s i) cls) :
    Within s (c, classSize cls) i 1 := by
  have := cell_bounds hc h
  simp only [Within, addrOf, pageSize] at *; omega

end

/-! ## Blocks -/

def extPages (ds : Nat) (b : Nat × Nat) : Multiset Nat :=
  (List.range' ((b.1 - ds) / pageSize) (b.2 / pageSize) : List Nat)

theorem extPages_block (ds a k : Nat) :
    extPages ds (a, pageSize <<< k) = blockPages k ((a - ds) / pageSize) := by
  have : pageSize <<< k / pageSize = 2 ^ k := by
    rw [Nat.shiftLeft_eq, Nat.mul_div_cancel_left _ (by decide)]
  simp only [extPages, blockPages, this]

theorem extPages_page (ds a : Nat) : extPages ds (a, pageSize) = blockPages 0 ((a - ds) / pageSize) := by
  simp [extPages, blockPages, pageSize]

theorem bag_blocks (s : PmmSys) :
    bag (extPages s.pmm.dataStart) s.blocks = freePages s.pmm + ownPages s := by
  have hlive : ∀ l : List (Nat × Ext), bag (extPages s.pmm.dataStart) (l.filterMap fun
      | (p, .buddy k) => some (p, pageSize <<< k)
      | (_, .slab _) => none) = bag (liveOwn s.pmm.dataStart) l := by
    intro l
    induction l with
    | nil => rfl
    | cons x l ih =>
      obtain ⟨p, e⟩ := x
      cases e with
      | buddy k => simp [extPages_block, ih, liveOwn]
      | slab c => simp [ih, liveOwn]
  simp only [PmmSys.blocks, bag_append, hlive, bag_flatMap, bag_map, extPages_block, extPages_page,
    bag_range, ownPages]
  show freePages s.pmm + _ + _ + _ = _
  rw [add_assoc, add_assoc, add_assoc]
  rfl

theorem count_liveCell (l : List (Nat × Ext)) (c cls : Nat) :
    (bag (liveCell cls) l).count c = l.count (c, .slab cls) := by
  induction l with
  | nil => rfl
  | cons x l ih =>
    obtain ⟨p, e⟩ := x
    rw [bag_cons, Multiset.count_add, ih, count_cons]
    cases e with
    | buddy k => simp [liveCell]
    | slab d =>
      by_cases hd : d = cls
      · subst hd
        by_cases hp : p = c
        · subst hp; simp [liveCell]; omega
        · simp [liveCell, hp, Ne.symm hp]
      · simp [liveCell, hd]

section
variable {s : PmmSys} (hs : PmmInv s)
include hs

theorem PmmInv.block_pages {b : Nat × Nat} (hb : b ∈ s.blocks) :
    ∃ i n, Within s.pmm b i n ∧ addrOf s.pmm i = b.1 ∧ b.1 + b.2 = addrOf s.pmm (i + n) ∧ 0 < n ∧
      i + n ≤ s.pmm.totalPages ∧ extPages s.pmm.dataStart b = (List.range' i n : List Nat) := by
  have big : ∀ i k, i + 2 ^ k ≤ s.pmm.totalPages → b = (addrOf s.pmm i, pageSize <<< k) →
      ∃ i n, Within s.pmm b i n ∧ addrOf s.pmm i = b.1 ∧ b.1 + b.2 = addrOf s.pmm (i + n) ∧ 0 < n ∧
        i + n ≤ s.pmm.totalPages ∧ extPages s.pmm.dataStart b = (List.range' i n : List Nat) := by
    rintro i k hf rfl
    refine ⟨i, 2 ^ k, within_block _ i k, rfl, addrOf_add _ i k, Nat.two_pow_pos k, hf, ?_⟩
    rw [extPages_block, show (addrOf s.pmm i - s.pmm.dataStart) / pageSize = i from pageIdx_addrOf _ i]
    rfl
  have one : ∀ i, i < s.pmm.totalPages → b = (addrOf s.pmm i, pageSize) → _ := fun i hi he =>
    big i 0 hi (by rw [he]; rfl)
  simp only [PmmSys.blocks, mem_append, mem_flatMap, mem_map, mem_filterMap] at hb
  rcases hb with ((⟨k, -, a, ha, rfl⟩ | ⟨l, hl, he⟩) | ⟨x, hx, rfl⟩) | ⟨x, hx, rfl⟩
  · obtain ⟨-, i, rfl, -, hf⟩ := hs.buddy.lists k a ha
    exact big i k hf rfl
  · obtain ⟨p, e⟩ := l
    cases e with
    | buddy k =>
      simp only [Option.some.injEq] at he
      obtain ⟨-, i, rfl, -, hf, -⟩ := hs.live p k hl
      exact big i k hf he.symm
    | slab c => cases he
  · obtain ⟨-, i, hi, hf, -⟩ := hs.slab x.1 x.2 hx
    exact one i hf (by rw [hi])
  · obtain ⟨-, -, i, hi, hf⟩ := hs.carve x.1 x.2.1 x.2.2 hx
    exact one i hf (by rw [hi])

theorem PmmInv.blocks_disjoint : s.blocks.Pairwise Apart := by
  have hnd : (bag (extPages s.pmm.dataStart) s.blocks).Nodup := by
    rw [bag_blocks]; exact hs.nodup_all
  refine (pairwise_of_nodup_bag _ hnd).imp_of_mem ?_
  intro b b' hb hb' hd
  obtain ⟨i, n, hw, -, -, hn, -, hp⟩ := hs.block_pages hb
  obtain ⟨j, m, hw', -, -, hm, -, hp'⟩ := hs.block_pages hb'
  rw [hp, hp', Multiset.disjoint_left] at hd
  refine within_apart hw hw' (disjoint_pages hn hm fun p h1 h2 h3 h4 => ?_)
  exact hd (Multiset.mem_coe.mpr (mem_range'_1.mpr ⟨h1, h2⟩))
    (Multiset.mem_coe.mpr (mem_range'_1.mpr ⟨h3, h4⟩))

theorem PmmInv.blocks_inside {b : Nat × Nat} (hb : b ∈ s.blocks) :
    s.pmm.dataStart ≤ b.1 ∧ b.1 + b.2 ≤ s.pmm.dataEnd := by
  obtain ⟨i, n, -, h1, h2, -, hf, -⟩ := hs.block_pages hb
  have htot := hs.buddy.geom.total
  simp only [addrOf, pageSize] at *
  omega

theorem PmmInv.blocks_cover {a : Nat} (h1 : s.pmm.dataStart ≤ a) (h2 : a < s.pmm.dataEnd) :
    ∃ b ∈ s.blocks, b.1 ≤ a ∧ a < b.1 + b.2 := by
  have htot := hs.buddy.geom.total
  have hp : (a - s.pmm.dataStart) / pageSize ∈ bag (extPages s.pmm.dataStart) s.blocks := by
    rw [bag_blocks, hs.pages, Multiset.mem_range]
    simp only [pageSize] at *
    omega
  obtain ⟨b, hb, hm⟩ := (mem_bag _).mp hp
  obtain ⟨i, n, -, h3, h4, -, -, he⟩ := hs.block_pages hb
  rw [he] at hm
  have hm := mem_range'_1.mp (Multiset.mem_coe.mp hm)
  refine ⟨b, hb, ?_⟩
  simp only [addrOf, pageSize] at *
  omega

/-! ## Cells -/

theorem PmmInv.nodup_slabs : (bag (slabOwn s.pmm.dataStart) s.slabs).Nodup := by
  have := (Multiset.nodup_add.mp hs.nodup_all).2.1
  unfold ownPages at this
  exact (Multiset.nodup_add.mp (Multiset.nodup_add.mp this).1).2.1

theorem PmmInv.slab_unique {page cls cls' : Nat} (h : (page, cls) ∈ s.slabs)
    (h' : (page, cls') ∈ s.slabs) : cls = cls' := by
  by_contra hne
  have := disjoint_of_nodup_bag _ hs.nodup_slabs h h' (by simp [hne])
  exact Multiset.disjoint_left.mp this (slabOwn_self _ (page, cls)) (slabOwn_self _ (page, cls'))

theorem PmmInv.aligned_addr (i : Nat) : pageSize ∣ addrOf s.pmm i :=
  (Nat.dvd_add_right hs.buddy.geom.aligned).mpr (Nat.dvd_mul_left _ _)

theorem PmmInv.page_of_cell {page cls c : Nat} (h : (page, cls) ∈ s.slabs) (hc : c ∈ cells page cls) :
    pageOf c = page := by
  obtain ⟨hcls, i, rfl, -⟩ := hs.slab page cls h
  exact pageOf_cell hcls (hs.aligned_addr i) hc

theorem PmmInv.nodup_cells (cls : Nat) : (bag (slabCell cls) s.slabs).Nodup := by
  apply nodup_bag
  · rintro ⟨page, c⟩ hx
    unfold slabCell
    split
    · rename_i hc
      simp only at hc
      subst hc
      exact Multiset.coe_nodup.mpr (NjuOs.nodup_cells (hs.slab page c hx).1)
    · exact Multiset.nodup_zero
  · refine (pairwise_of_nodup_bag _ hs.nodup_slabs).imp_of_mem ?_
    rintro ⟨page, c⟩ ⟨page', c'⟩ hx hx' hd
    rw [Multiset.disjoint_left] at hd ⊢
    intro p hp hp'
    simp only [slabCell] at hp hp'
    split at hp
    · rename_i hc
      split at hp'
      · rename_i hc'
        subst hc hc'
        have h1 := hs.page_of_cell hx hp
        have h2 := hs.page_of_cell hx' hp'
        rw [h1] at h2
        subst h2
        exact hd (slabOwn_self _ (page, c')) (slabOwn_self _ (page, c'))
      · simp at hp'
    · simp at hp

/-- A cell of a carved page is live or on one list, once. -/
theorem PmmInv.cell_once {page cls c : Nat} (h : (page, cls) ∈ s.slabs) (hc : c ∈ cells page cls) :
    s.live.count (c, .slab cls) + ∑ cpu ∈ Finset.range maxCpu, (s.pmm.caches cpu cls).count c = 1 := by
  have hm : c ∈ bag (slabCell cls) s.slabs :=
    (mem_bag _).mpr ⟨_, h, by simp only [slabCell, ite_true]; exact hc⟩
  have h1 : (bag (slabCell cls) s.slabs).count c = 1 := Multiset.count_eq_one_of_mem (hs.nodup_cells cls) hm
  rw [← hs.cell cls, Multiset.count_add, count_liveCell, listed, Multiset.count_sum'] at h1
  simp only [Multiset.coe_count] at h1
  omega

theorem PmmInv.cell_class {page cls cls' c cpu : Nat} (h : (page, cls) ∈ s.slabs)
    (hc : c ∈ cells page cls) (hl : c ∈ s.pmm.caches cpu cls') : cpu < maxCpu ∧ cls' = cls := by
  obtain ⟨hcpu, page', h', hc'⟩ := hs.slab_of_listed hl
  have h1 := hs.page_of_cell h hc
  have h2 := hs.page_of_cell h' hc'
  rw [h1] at h2
  subst h2
  exact ⟨hcpu, hs.slab_unique h' h⟩

theorem PmmInv.cells_apart {page page' cls cls' c c' : Nat} (h : (page, cls) ∈ s.slabs)
    (h' : (page', cls') ∈ s.slabs) (hc : c ∈ cells page cls) (hc' : c' ∈ cells page' cls')
    (hne : c ≠ c') : Apart (c, classSize cls) (c', classSize cls') := by
  by_cases hp : page = page'
  · subst hp
    have := hs.slab_unique h h'
    subst this
    obtain ⟨i, -, rfl⟩ := mem_cells.mp hc
    obtain ⟨j, -, rfl⟩ := mem_cells.mp hc'
    unfold Apart
    rcases Nat.lt_trichotomy i j with hij | hij | hij
    · left
      have := Nat.mul_le_mul_right (classSize cls) hij
      rw [Nat.succ_mul] at this; simp only; omega
    · subst hij; exact absurd rfl hne
    · right
      have := Nat.mul_le_mul_right (classSize cls) hij
      rw [Nat.succ_mul] at this; simp only; omega
  · obtain ⟨hcls, i, rfl, -⟩ := hs.slab page cls h
    obtain ⟨hcls', j, rfl, -⟩ := hs.slab page' cls' h'
    have hij : i ≠ j := fun he => hp (by rw [he])
    exact within_apart (within_cell hcls hc) (within_cell hcls' hc') (by omega)

/-! ## Live allocations -/

/-- A live allocation lies in pages it owns, or in a slab page. -/
theorem PmmInv.live_pages {l : Nat × Ext} (hl : l ∈ s.live) :
    ∃ i n, Within s.pmm (l.1, l.2.size) i n ∧ 0 < n ∧ i + n ≤ s.pmm.totalPages ∧
      ∀ p, i ≤ p → p < i + n → p ∈ ownPages s := by
  obtain ⟨p, e⟩ := l
  cases e with
  | buddy k =>
    obtain ⟨-, i, rfl, -, hf, -⟩ := hs.live p k hl
    refine ⟨i, 2 ^ k, within_block _ i k, Nat.two_pow_pos k, hf, fun q h1 h2 => ?_⟩
    refine mem_own_of_live hl ?_
    rw [liveOwn, show (addrOf s.pmm i - s.pmm.dataStart) / pageSize = i from pageIdx_addrOf _ i]
    exact mem_blockPages.mpr ⟨h1, h2⟩
  | slab cls =>
    obtain ⟨page, hx, hp⟩ := hs.slab_of_live hl
    obtain ⟨hcls, i, rfl, hf, -⟩ := hs.slab page cls hx
    refine ⟨i, 1, within_cell hcls hp, Nat.one_pos, hf, fun q h1 h2 => ?_⟩
    have : q = i := by omega
    subst this
    exact mem_own_of_slab hx (by
      rw [slabOwn, show (addrOf s.pmm q - s.pmm.dataStart) / pageSize = q from pageIdx_addrOf _ q]
      exact self_mem_blockPages _ _)

theorem PmmInv.live_inside {l : Nat × Ext} (hl : l ∈ s.live) :
    s.pmm.dataStart ≤ l.1 ∧ l.1 + l.2.size ≤ s.pmm.dataEnd := by
  obtain ⟨i, n, hw, -, hf, -⟩ := hs.live_pages hl
  have htot := hs.buddy.geom.total
  simp only [Within, addrOf, pageSize] at *
  omega

theorem PmmInv.live_free {l : Nat × Ext} (hl : l ∈ s.live) {k a : Nat} (ha : a ∈ s.pmm.freeLists k) :
    Apart (l.1, l.2.size) (a, pageSize <<< k) := by
  obtain ⟨i, n, hw, hn, -, hown⟩ := hs.live_pages hl
  obtain ⟨-, j, rfl, -, -⟩ := hs.buddy.lists k a ha
  refine within_apart hw (within_block _ j k) (disjoint_pages hn (Nat.two_pow_pos k) ?_)
  intro p h1 h2 h3 h4
  exact hs.disjoint_own (mem_freePages_of hs.buddy.lists ha (mem_blockPages.mpr ⟨h3, h4⟩)) (hown p h1 h2)

/-- `kfree` finds the descriptor of a large block at its first page. -/
theorem PmmInv.desc_block {p k : Nat} (hl : (p, Ext.buddy k) ∈ s.live) :
    (s.pmm.pgtab (descOf s.pmm (pageOf p))).kind = .buddy ∧ (s.pmm.pgtab (descOf s.pmm (pageOf p))).order = k := by
  obtain ⟨-, i, rfl, -, hf, hd⟩ := hs.live p k hl
  have := Nat.two_pow_pos k
  rw [pageOf_addrOf hs.buddy.geom, descOf_addrOf hs.buddy.geom (by omega)]
  exact hd

theorem PmmInv.desc_cell {p cls : Nat} (hl : (p, Ext.slab cls) ∈ s.live) :
    (s.pmm.pgtab (descOf s.pmm (pageOf p))).kind = .slab ∧
      (s.pmm.pgtab (descOf s.pmm (pageOf p))).objSize = classSize cls := by
  obtain ⟨page, hx, hc⟩ := hs.slab_of_live hl
  rw [hs.page_of_cell hx hc]
  obtain ⟨-, i, rfl, hf, hd⟩ := hs.slab page cls hx
  rw [descOf_addrOf hs.buddy.geom hf]
  exact hd

theorem PmmInv.block_cell_apart {p k page cls c : Nat} (hl : (p, Ext.buddy k) ∈ s.live)
    (hx : (page, cls) ∈ s.slabs) (hc : c ∈ cells page cls) :
    Apart (p, pageSize <<< k) (c, classSize cls) := by
  obtain ⟨-, i, rfl, -⟩ := hs.live p k hl
  obtain ⟨hcls, j, rfl, -⟩ := hs.slab page cls hx
  have hnd := (Multiset.nodup_add.mp hs.nodup_all).2.1
  unfold ownPages at hnd
  have hd := (Multiset.nodup_add.mp (Multiset.nodup_add.mp hnd).1).2.2
  rw [Multiset.disjoint_left] at hd
  refine within_apart (within_block _ i k) (within_cell hcls hc)
    (disjoint_pages (Nat.two_pow_pos k) Nat.one_pos fun q h1 h2 h3 h4 => ?_)
  have hq : q = j := by omega
  subst hq
  refine hd ((mem_bag _).mpr ⟨_, hl, ?_⟩) ((mem_bag _).mpr ⟨_, hx, slabOwn_self _ (_, cls)⟩)
  show pageIdx s.pmm (addrOf s.pmm q) ∈ blockPages k (pageIdx s.pmm (addrOf s.pmm i))
  rw [pageIdx_addrOf, pageIdx_addrOf]
  exact mem_blockPages.mpr ⟨h1, h2⟩

theorem PmmInv.live_cells {l : Nat × Ext} (hl : l ∈ s.live) {cpu cls c : Nat}
    (hc : c ∈ s.pmm.caches cpu cls) : Apart (l.1, l.2.size) (c, classSize cls) := by
  obtain ⟨hcpu, page, hx, hcc⟩ := hs.slab_of_listed hc
  obtain ⟨p, e⟩ := l
  cases e with
  | buddy k => exact hs.block_cell_apart hl hx hcc
  | slab d =>
    obtain ⟨page', hx', hpc⟩ := hs.slab_of_live hl
    refine hs.cells_apart hx' hx hpc hcc fun he => ?_
    subst he
    obtain ⟨-, rfl⟩ := hs.cell_class hx' hpc hc
    have h1 := hs.cell_once hx' hpc
    have h2 : 0 < s.live.count (p, Ext.slab cls) := count_pos_iff.mpr hl
    have h3 : 0 < (s.pmm.caches cpu cls).count p := count_pos_iff.mpr hc
    have h4 : (s.pmm.caches cpu cls).count p ≤
        ∑ c ∈ Finset.range maxCpu, (s.pmm.caches c cls).count p :=
      Finset.single_le_sum (f := fun c => (s.pmm.caches c cls).count p) (fun _ _ => Nat.zero_le _)
        (Finset.mem_range.mpr hcpu)
    omega

theorem PmmInv.nodup_live : s.live.Nodup := by
  rw [nodup_iff_count_le_one]
  rintro ⟨p, e⟩
  cases e with
  | buddy k =>
    have hnd := (Multiset.nodup_add.mp hs.nodup_all).2.1
    unfold ownPages at hnd
    have h1 := (Multiset.nodup_add.mp (Multiset.nodup_add.mp hnd).1).1
    exact Nat.le_trans (count_le_count_bag _ (liveOwn_self _ p k) s.live)
      (Multiset.nodup_iff_count_le_one.mp h1 _)
  | slab cls =>
    have h1 := Multiset.nodup_iff_count_le_one.mp (hs.nodup_cells cls) p
    rw [← hs.cell cls, Multiset.count_add, count_liveCell] at h1
    omega

theorem PmmInv.live_apart :
    s.live.Pairwise fun l l' => Apart (l.1, l.2.size) (l'.1, l'.2.size) := by
  refine hs.nodup_live.pairwise_of_forall_ne ?_
  rintro ⟨p, e⟩ hl ⟨p', e'⟩ hl' hne
  cases e with
  | buddy k =>
    cases e' with
    | buddy k' =>
      have hnd := (Multiset.nodup_add.mp hs.nodup_all).2.1
      unfold ownPages at hnd
      have h1 := (Multiset.nodup_add.mp (Multiset.nodup_add.mp hnd).1).1
      have hd := disjoint_of_nodup_bag _ h1 hl hl' hne
      obtain ⟨-, i, rfl, -⟩ := hs.live p k hl
      obtain ⟨-, j, rfl, -⟩ := hs.live p' k' hl'
      rw [Multiset.disjoint_left] at hd
      refine within_apart (within_block _ i k) (within_block _ j k')
        (disjoint_pages (Nat.two_pow_pos k) (Nat.two_pow_pos k') fun q h1 h2 h3 h4 => hd (a := q) ?_ ?_)
      · show q ∈ blockPages k (pageIdx s.pmm (addrOf s.pmm i))
        rw [pageIdx_addrOf]; exact mem_blockPages.mpr ⟨h1, h2⟩
      · show q ∈ blockPages k' (pageIdx s.pmm (addrOf s.pmm j))
        rw [pageIdx_addrOf]; exact mem_blockPages.mpr ⟨h3, h4⟩
    | slab c' =>
      obtain ⟨page, hx, hc⟩ := hs.slab_of_live hl'
      exact hs.block_cell_apart hl hx hc
  | slab c =>
    obtain ⟨page, hx, hc⟩ := hs.slab_of_live hl
    cases e' with
    | buddy k' => exact (hs.block_cell_apart hl' hx hc).symm
    | slab c' =>
      obtain ⟨page', hx', hc'⟩ := hs.slab_of_live hl'
      refine hs.cells_apart hx hx' hc hc' fun he => ?_
      subst he
      have h1 := hs.page_of_cell hx hc
      have h2 := hs.page_of_cell hx' hc'
      rw [h1] at h2
      subst h2
      exact hne (by rw [hs.slab_unique hx hx'])

theorem PmmInv.live_size {l : Nat × Ext} (hl : l ∈ s.live) : 0 < l.2.size := by
  obtain ⟨p, e⟩ := l
  cases e with
  | buddy k =>
    simp only [Ext.size, Nat.shiftLeft_eq]
    exact Nat.mul_pos (by decide) (Nat.two_pow_pos k)
  | slab cls =>
    obtain ⟨page, hx, -⟩ := hs.slab_of_live hl
    exact (classSize_spec cls (hs.slab page cls hx).1).1

theorem PmmInv.nodup_addr : (s.live.map Prod.fst).Nodup := by
  refine List.Pairwise.map _ (fun _ _ h => h) (hs.live_apart.imp_of_mem ?_)
  intro l l' hl hl' hap he
  have h1 := hs.live_size hl
  have h2 := hs.live_size hl'
  simp only [Apart] at hap
  omega

end

/-! ## Every reachable state -/

theorem reach_pmm (h : Area) (hr : h.room) {as : List PmmAct} {s : PmmSys}
    (hrun : run PmmSys.step (PmmSys.init h) as = some s) : PmmInv s ∧ s.pmm.region = (pmmBase h).region := by
  refine run_inv (I := fun s => PmmInv s ∧ s.pmm.region = (pmmBase h).region)
    (fun s a s' hi hstep => ?_) as _ s ⟨pmmInv_init h hr, ?_⟩ hrun
  · exact ⟨pmmInv_step hi.1 hstep, (region_step hstep).trans hi.2⟩
  · exact (pmmInit_spec h hr).1.region

theorem alloc_safe (h : Area) (hr : h.room) (as : List PmmAct) (s : PmmSys)
    (hrun : run PmmSys.step (PmmSys.init h) as = some s) : PmmSafe h s := by
  obtain ⟨hs, hreg⟩ := reach_pmm h hr hrun
  simp only [Pmm.region, Prod.mk.injEq] at hreg
  obtain ⟨h1, h2, h3⟩ := hreg
  refine ⟨⟨h1, h2⟩, hs.blocks_disjoint, fun b hb => hs.blocks_inside hb, fun a => hs.blocks_cover,
    fun page cls hx c hc => ⟨hs.cell_once hx hc, fun cpu cls' => hs.cell_class hx hc⟩,
    fun cpu cls c hc => (hs.slab_of_listed hc).2, ?_, ?_, hs.live_apart, fun l hl => hs.live_inside hl, ?_,
    fun l hl k a ha => hs.live_free hl ha, fun l hl cpu cls c hc => hs.live_cells hl hc⟩
  · exact fun p k hl => hs.desc_block hl
  · exact fun p cls hl => hs.desc_cell hl
  · rw [h1, h3]; exact table_fits h hr

def smallArea : Area := ⟨0, 16384, by decide, by decide⟩

def smallRun : List PmmAct := [.kalloc 0 5000, .kalloc 1 24, .carve 1 2 12288, .kfree 0 16352, .kfree 1 4096]

theorem alloc_safe_small : smallArea.room ∧
    ∃ s, run PmmSys.step (PmmSys.init smallArea) smallRun = some s ∧ PmmSafe smallArea s := by
  have hr : smallArea.room := by unfold Area.room; decide
  have hs : (run PmmSys.step (PmmSys.init smallArea) smallRun).isSome := by decide +kernel
  obtain ⟨s, hs⟩ := Option.isSome_iff_exists.mp hs
  exact ⟨hr, s, hs, alloc_safe smallArea hr smallRun s hs⟩

section
variable (s : Pmm) (cpu cls : Nat) (l : List Nat)

theorem caches_setCache : (s.setCache cpu cls l).caches cpu cls = l := by
  simp only [Pmm.setCache, update_self]

theorem caches_setCache_cls {cls' : Nat} (h : cls' ≠ cls) :
    (s.setCache cpu cls l).caches cpu cls' = s.caches cpu cls' := by
  simp only [Pmm.setCache, update_self, update_of_ne h]

theorem caches_setCache_cpu {d : Nat} (h : d ≠ cpu) : (s.setCache cpu cls l).caches d = s.caches d :=
  update_of_ne h ..

theorem setCache_setCache (l' : List Nat) : (s.setCache cpu cls l).setCache cpu cls l' = s.setCache cpu cls l' := by
  simp only [Pmm.setCache, update_self, update_idem]

theorem setCache_caches : s.setCache cpu cls (s.caches cpu cls) = s := by
  simp only [Pmm.setCache, update_eq_self]

end

theorem may_call {s : PmmSys} {cpu : Nat} (hcpu : cpu < maxCpu) (hc : ∀ x ∈ s.carving, x.1 ≠ cpu) :
    ¬(maxCpu ≤ cpu ∨ s.carving.any (·.1 = cpu)) := by
  simp only [any_eq_true, decide_eq_true_eq]
  rintro (h1 | ⟨x, hx, h1⟩)
  · omega
  · exact hc x hx h1

theorem step_pop {s : PmmSys} {cpu cls b : Nat} {rest : List Nat} (hcpu : cpu < maxCpu)
    (hc : ∀ x ∈ s.carving, x.1 ≠ cpu) (hcls : cls < nclass) (hl : s.pmm.caches cpu cls = b :: rest) :
    s.step (.kalloc cpu (classSize cls)) =
      some { s with pmm := s.pmm.setCache cpu cls rest, live := (b, .slab cls) :: s.live } := by
  simp only [PmmSys.step, if_neg (may_call hcpu hc), if_neg (Nat.pos_iff_ne_zero.mp (classSize_spec cls hcls).1),
    sizeToClass_classSize cls hcls, hl, reduceCtorEq, ite_false, slabPop, PmmSys.addLive]

/-- A call of `kalloc` that no other CPU interrupts is one or two steps of the system. -/
theorem kalloc_run {s : PmmSys} {cpu size : Nat} {p : Pmm} {r : Option Nat} (hcpu : cpu < maxCpu)
    (hc : ∀ x ∈ s.carving, x.1 ≠ cpu) (h : kalloc s.pmm cpu size = some (p, r)) :
    ∃ as s', run PmmSys.step s as = some s' ∧ s'.pmm = p ∧ s'.carving = s.carving ∧
      ∀ b, r = some b → ∃ e, s'.live = (b, e) :: s.live := by
  have hg := may_call hcpu hc
  have hadd : ∀ (t : PmmSys) (e : Ext), (t.addLive (p, r) e).pmm = p ∧
      (t.addLive (p, r) e).carving = t.carving ∧
      ∀ b, r = some b → ∃ e', (t.addLive (p, r) e).live = (b, e') :: t.live := by
    intro t e
    cases r with
    | none => exact ⟨rfl, rfl, fun b hb => nomatch hb⟩
    | some b => exact ⟨rfl, rfl, fun c hb => ⟨e, by cases hb; rfl⟩⟩
  unfold kalloc at h
  by_cases h0 : size = 0
  · simp only [h0, ite_true, Option.some.injEq, Prod.mk.injEq] at h
    exact ⟨[], s, rfl, h.1, rfl, fun b hb => by simp [← h.2] at hb⟩
  simp only [h0, ite_false] at h
  cases hcls : sizeToClass size with
  | none => simp [hcls] at h
  | some o =>
    simp only [hcls] at h
    cases o with
    | none =>
      simp only [Option.some.injEq] at h
      refine ⟨[.kalloc cpu size], s.addLive (p, r) (.buddy (sizeToOrder size)), ?_, hadd s _⟩
      simp only [run_cons, PmmSys.step, if_neg hg, h0, ite_false, hcls, h, Option.bind_some, run_nil]
    | some cls =>
      simp only [Option.some.injEq] at h
      by_cases he : s.pmm.caches cpu cls = []
      · simp only [he, ite_true, slabRefill] at h
        cases hb : buddyAlloc s.pmm 0 with
        | mk q o =>
          cases o with
          | none =>
            rw [(buddyAlloc_none hb).1] at hb
            simp only [hb, slabPop, he, Prod.mk.injEq] at h
            refine ⟨[.kalloc cpu size], s, ?_, h.1, rfl, fun b hb => by simp [← h.2] at hb⟩
            simp only [run_cons, PmmSys.step, if_neg hg, h0, ite_false, hcls, he, ite_true, hb,
              Option.bind_some, run_nil]
          | some page =>
            simp only [hb] at h
            refine ⟨[.kalloc cpu size, .carve cpu cls page],
              PmmSys.addLive ⟨slabCarve q cpu cls page, s.carving, s.live, (page, cls) :: s.slabs⟩ (p, r)
                (.slab cls), ?_, hadd _ _⟩
            simp only [run_cons, PmmSys.step, if_neg hg, h0, ite_false, hcls, he, ite_true, hb,
              Option.bind_some, run_nil, mem_cons_self, h, erase_cons_head]
      · simp only [he, ite_false] at h
        refine ⟨[.kalloc cpu size], s.addLive (p, r) (.slab cls), ?_, hadd s _⟩
        simp only [run_cons, PmmSys.step, if_neg hg, h0, ite_false, hcls, he, h, Option.bind_some, run_nil]

/-! ## The free lists are a function of the free pages -/

def FreeAddr (s : Pmm) (x : Nat) : Prop := ∃ k, ∃ a ∈ s.freeLists k, a ≤ x ∧ x < a + pageSize <<< k

def freeBlocks (s : Pmm) : Set (Nat × Nat) := {b | addrOf s b.2 ∈ s.freeLists b.1}

section
variable {s s' : Pmm} (hs : BuddyInv s) (hs' : BuddyInv s')
include hs

theorem BuddyInv.list_pages (k : Nat) : (listPages s k (s.freeLists k)).Nodup := by
  by_cases hk : k ≤ maxOrder
  · have hle : listPages s k (s.freeLists k) ≤ freePages s :=
      Finset.single_le_sum (f := fun k => listPages s k (s.freeLists k)) (fun _ _ => Multiset.zero_le _)
        (Finset.mem_range.mpr (Nat.lt_succ_of_le hk))
    exact Multiset.nodup_of_le hle hs.nodup
  · have : s.freeLists k = [] := eq_nil_iff_forall_not_mem.mpr fun a ha => hk (hs.lists k a ha).1
    rw [this]; exact Multiset.nodup_zero

theorem BuddyInv.nodup_list (k : Nat) : (s.freeLists k).Nodup := by
  rw [nodup_iff_count_le_one]
  intro a
  exact Nat.le_trans (count_le_count_bag (fun a => blockPages k (pageIdx s a)) (self_mem_blockPages k _) _)
    (Multiset.nodup_iff_count_le_one.mp (hs.list_pages k) (pageIdx s a))

theorem BuddyInv.order_unique {k k' i i' p : Nat} (h : addrOf s i ∈ s.freeLists k)
    (h' : addrOf s i' ∈ s.freeLists k') (hp : p ∈ blockPages k i) (hp' : p ∈ blockPages k' i') : k = k' := by
  by_contra hne
  have hm : ∀ {k i}, addrOf s i ∈ s.freeLists k → p ∈ blockPages k i →
      p ∈ listPages s k (s.freeLists k) := fun h hp =>
    (mem_bag _).mpr ⟨_, h, by rwa [pageIdx_addrOf]⟩
  have hk := Finset.mem_range.mpr (Nat.lt_succ_of_le (hs.lists k _ h).1)
  have hk' := Finset.mem_range.mpr (Nat.lt_succ_of_le (hs.lists k' _ h').1)
  have hnd := hs.nodup
  -- `freePages` would count the page in both lists
  rw [freePages, ← Finset.add_sum_erase _ _ hk] at hnd
  refine Multiset.disjoint_left.mp (Multiset.nodup_add.mp hnd).2.2 (hm h hp) ?_
  exact Multiset.mem_sum.mpr ⟨k', Finset.mem_erase.mpr ⟨Ne.symm hne, hk'⟩, hm h' hp'⟩

theorem BuddyInv.tiling : Tiling maxOrder (freeBlocks s) where
  le := fun b hb => (hs.lists b.1 _ hb).1
  aligned := by
    rintro ⟨k, i⟩ hb
    obtain ⟨-, j, hj, hal, -⟩ := hs.lists k _ hb
    rw [addrOf_inj hj]; exact hal
  disjoint := by
    rintro ⟨k, i⟩ hb ⟨k', i'⟩ hb' p hp hp'
    have := hs.order_unique hb hb' hp hp'
    subst this
    by_contra hne
    have hne' : addrOf s i ≠ addrOf s i' := fun he => hne (by rw [addrOf_inj he])
    have hd := disjoint_of_nodup_bag _ (hs.list_pages k) hb hb' hne'
    rw [pageIdx_addrOf, pageIdx_addrOf] at hd
    exact Multiset.disjoint_left.mp hd hp hp'
  merged := hs.merged

theorem BuddyInv.covers_iff (p : Nat) : Covers (freeBlocks s) p ↔ FreeAddr s (addrOf s p) := by
  constructor
  · rintro ⟨⟨k, i⟩, hb, hp⟩
    obtain ⟨h1, h2⟩ := mem_blockPages.mp hp
    refine ⟨k, _, hb, ?_⟩
    rw [addrOf_add]
    simp only [addrOf, pageSize] at *
    omega
  · rintro ⟨k, a, ha, h1, h2⟩
    obtain ⟨-, i, rfl, -, -⟩ := hs.lists k a ha
    refine ⟨(k, i), ha, mem_blockPages.mpr ?_⟩
    rw [addrOf_add] at h2
    simp only [addrOf, pageSize] at *
    omega

include hs' in
theorem BuddyInv.lists_eq (hd : s.dataStart = s'.dataStart) (h : ∀ x, FreeAddr s x ↔ FreeAddr s' x)
    (k : Nat) : (s.freeLists k).Perm (s'.freeLists k) := by
  have haddr : ∀ i, addrOf s i = addrOf s' i := fun i => by simp only [addrOf, hd]
  have hB : freeBlocks s = freeBlocks s' :=
    hs.tiling.ext hs'.tiling fun p => by rw [hs.covers_iff, hs'.covers_iff, h, haddr]
  refine (perm_ext_iff_of_nodup (hs.nodup_list k) (hs'.nodup_list k)).mpr fun a => ?_
  constructor
  · intro ha
    obtain ⟨-, i, rfl, -⟩ := hs.lists k a ha
    have : (k, i) ∈ freeBlocks s' := hB ▸ ha
    rw [haddr]; exact this
  · intro ha
    obtain ⟨-, i, rfl, -⟩ := hs'.lists k a ha
    have : (k, i) ∈ freeBlocks s := hB ▸ ha
    rw [← haddr]; exact this

end

/-- With nothing live, carved or being carved, every data page is free. -/
theorem PmmInv.all_free {s : PmmSys} (hs : PmmInv s) (hl : ∀ l ∈ s.live, ∀ k, l.2 ≠ .buddy k)
    (hx : s.slabs = []) (hc : s.carving = []) (x : Nat) :
    FreeAddr s.pmm x ↔ s.pmm.dataStart ≤ x ∧ x < s.pmm.dataEnd := by
  have hbl : ∀ b : Nat × Nat, b ∈ s.blocks ↔ ∃ k, ∃ a ∈ s.pmm.freeLists k, b = (a, pageSize <<< k) := by
    intro b
    simp only [PmmSys.blocks, hx, hc, map_nil, append_nil, mem_append, mem_flatMap,
      mem_map, mem_filterMap, mem_range]
    constructor
    · rintro (⟨k, -, a, ha, rfl⟩ | ⟨⟨p, e⟩, hm, he⟩)
      · exact ⟨k, a, ha, rfl⟩
      · cases e with
        | buddy k => exact absurd rfl (hl _ hm k)
        | slab c => cases he
    · rintro ⟨k, a, ha, rfl⟩
      exact Or.inl ⟨k, Nat.lt_succ_of_le (hs.buddy.lists k a ha).1, a, ha, rfl⟩
  constructor
  · rintro ⟨k, a, ha, h1, h2⟩
    obtain ⟨h3, h4⟩ := hs.blocks_inside ((hbl _).mpr ⟨k, a, ha, rfl⟩)
    exact ⟨Nat.le_trans h3 h1, Nat.lt_of_lt_of_le h2 h4⟩
  · rintro ⟨h1, h2⟩
    obtain ⟨b, hb, h3, h4⟩ := hs.blocks_cover h1 h2
    obtain ⟨k, a, ha, rfl⟩ := (hbl b).mp hb
    exact ⟨k, a, ha, h3, h4⟩

theorem free_lists_canonical (h : Area) (hr : h.room) (as : List PmmAct) (s : PmmSys)
    (hrun : run PmmSys.step (PmmSys.init h) as = some s) :
    (∀ k < maxOrder, ∀ a ∈ s.pmm.freeLists k, buddyOf s.pmm k a ∉ s.pmm.freeLists k) ∧
    (∀ (as' : List PmmAct) (s' : PmmSys), run PmmSys.step (PmmSys.init h) as' = some s' →
      (∀ x, FreeAddr s.pmm x ↔ FreeAddr s'.pmm x) →
      ∀ k, (s.pmm.freeLists k).Perm (s'.pmm.freeLists k)) ∧
    ((∀ l ∈ s.live, ∀ k, l.2 ≠ .buddy k) → s.slabs = [] → s.carving = [] →
      ∀ k, (s.pmm.freeLists k).Perm ((pmmInit h).freeLists k)) := by
  obtain ⟨hs, hreg⟩ := reach_pmm h hr hrun
  have hds : ∀ {p q : Pmm}, p.region = q.region → p.dataStart = q.dataStart ∧ p.dataEnd = q.dataEnd := by
    intro p q he
    simp only [Pmm.region, Prod.mk.injEq] at he
    exact ⟨he.1, he.2.1⟩
  refine ⟨fun k hk a ha => ?_, fun as' s' hrun' hfree k => ?_, fun hl hx hc k => ?_⟩
  · obtain ⟨hle, i, rfl, hal, hf⟩ := hs.buddy.lists k a ha
    rw [buddyOf_addrOf hs.buddy hle hal hf]
    exact hs.buddy.merged k hk i ha
  · obtain ⟨hs', hreg'⟩ := reach_pmm h hr hrun'
    exact hs.buddy.lists_eq hs'.buddy (hds (hreg.trans hreg'.symm)).1 hfree k
  · have h0 := pmmInv_init h hr
    have hreg0 : (PmmSys.init h).pmm.region = (pmmBase h).region := (pmmInit_spec h hr).1.region
    obtain ⟨h1, h2⟩ := hds (hreg.trans hreg0.symm)
    refine hs.buddy.lists_eq h0.buddy h1 (fun x => ?_) k
    rw [hs.all_free hl hx hc, h0.all_free (fun _ hl => nomatch hl) rfl rfl, h1, h2]

def largeRun : List PmmAct := [.kalloc 0 5000, .kalloc 1 4096, .kfree 1 4096, .kfree 0 12288]

theorem free_lists_canonical_small : smallArea.room ∧
    ∃ s, run PmmSys.step (PmmSys.init smallArea) largeRun = some s ∧
      ∀ k, (s.pmm.freeLists k).Perm ((pmmInit smallArea).freeLists k) := by
  have hr : smallArea.room := by unfold Area.room; decide
  have hs : (run PmmSys.step (PmmSys.init smallArea) largeRun).isSome := by decide +kernel
  have hl : ∀ s ∈ run PmmSys.step (PmmSys.init smallArea) largeRun,
      s.live = [] ∧ s.slabs = [] ∧ s.carving = [] := by decide +kernel
  obtain ⟨s, hs⟩ := Option.isSome_iff_exists.mp hs
  obtain ⟨h1, h2, h3⟩ := hl s hs
  exact ⟨hr, s, hs, (free_lists_canonical smallArea hr largeRun s hs).2.2 (by simp [h1]) h2 h3⟩

end NjuOs
