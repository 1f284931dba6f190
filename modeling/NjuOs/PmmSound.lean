import NjuOs.SeedSound

/-!
# The allocator keeps its books

Every data page has one owner: a free list, a live large block, a carved slab page, or
a `slab_refill` that has not carved its page yet. Every cell of a carved page is live or
on one list of its class. Both are equations between multisets (`PmmInv.pages`,
`PmmInv.cell`), so each operation only has to move its block from one side to the other.
-/

namespace NjuOs

open Function List

/-! ## Sizes -/

theorem sizeToOrderLoop_le (need : Nat) : ∀ (fuel block order : Nat),
    sizeToOrderLoop need fuel block order ≤ order + fuel
  | 0, _, order => Nat.le_refl _
  | fuel + 1, block, order => by
    unfold sizeToOrderLoop
    split
    · have := sizeToOrderLoop_le need fuel (block * 2) (order + 1)
      omega
    · omega

theorem sizeToOrder_le (size : Nat) : sizeToOrder size ≤ maxOrder := by
  have := sizeToOrderLoop_le (if size < pageSize then pageSize else size) maxOrder pageSize 0
  rwa [Nat.zero_add] at this

theorem sizeToClass_lt {size cls : Nat} (h : sizeToClass size = some (some cls)) : cls < nclass := by
  unfold sizeToClass at h
  obtain ⟨p, -, hp⟩ := Option.map_eq_some_iff.mp h
  exact mem_range.mp (mem_of_find?_eq_some hp)

theorem sizeToClass_classSize : ∀ cls < nclass, sizeToClass (classSize cls) = some (some cls) := by
  decide

theorem classSize_spec : ∀ cls < nclass,
    0 < classSize cls ∧ pageSize / classSize cls * classSize cls = pageSize := by
  decide

/-! ## Cells -/

theorem mem_cells {page cls c : Nat} :
    c ∈ cells page cls ↔ ∃ i < pageSize / classSize cls, c = page + i * classSize cls := by
  simp only [cells, mem_map, mem_range]
  exact exists_congr fun i => and_congr_right fun _ => eq_comm

theorem cell_bounds {page cls c : Nat} (hc : cls < nclass) (h : c ∈ cells page cls) :
    page ≤ c ∧ c + classSize cls ≤ page + pageSize := by
  obtain ⟨i, hi, rfl⟩ := mem_cells.mp h
  obtain ⟨-, h2⟩ := classSize_spec cls hc
  have : (i + 1) * classSize cls ≤ pageSize / classSize cls * classSize cls :=
    Nat.mul_le_mul_right _ hi
  rw [h2, Nat.add_mul, Nat.one_mul] at this
  omega

theorem nodup_cells {page cls : Nat} (hc : cls < nclass) : (cells page cls).Nodup := by
  refine List.Nodup.map ?_ nodup_range
  intro i j h
  have := (classSize_spec cls hc).1
  exact Nat.eq_of_mul_eq_mul_right this (by simpa using h)

theorem pageOf_cell {page cls c : Nat} (hc : cls < nclass) (hp : pageSize ∣ page)
    (h : c ∈ cells page cls) : pageOf c = page := by
  have h1 := cell_bounds hc h
  have h2 := (classSize_spec cls hc).1
  obtain ⟨m, rfl⟩ := hp
  simp only [pageOf, pageSize] at *
  omega

/-! ## Owners -/

def liveOwn (ds : Nat) : Nat × Ext → Multiset Nat
  | (p, .buddy k) => blockPages k ((p - ds) / pageSize)
  | (_, .slab _) => 0

def slabOwn (ds : Nat) (x : Nat × Nat) : Multiset Nat := blockPages 0 ((x.1 - ds) / pageSize)

def carveOwn (ds : Nat) (x : Nat × Nat × Nat) : Multiset Nat :=
  blockPages 0 ((x.2.2 - ds) / pageSize)

def ownPages (s : PmmSys) : Multiset Nat :=
  bag (liveOwn s.pmm.dataStart) s.live + bag (slabOwn s.pmm.dataStart) s.slabs +
    bag (carveOwn s.pmm.dataStart) s.carving

def listed (s : Pmm) (cls : Nat) : Multiset Nat :=
  ∑ cpu ∈ Finset.range maxCpu, (s.caches cpu cls : Multiset Nat)

def liveCell (cls : Nat) : Nat × Ext → Multiset Nat
  | (p, .slab c) => if c = cls then {p} else 0
  | (_, .buddy _) => 0

def slabCell (cls : Nat) (x : Nat × Nat) : Multiset Nat :=
  if x.2 = cls then (cells x.1 cls : Multiset Nat) else 0

def LiveOk (s : Pmm) (p k : Nat) : Prop :=
  k ≤ maxOrder ∧ ∃ i, p = addrOf s i ∧ 2 ^ k ∣ i ∧ i + 2 ^ k ≤ s.totalPages ∧
    (s.pgtab i).kind = .buddy ∧ (s.pgtab i).order = k

def SlabOk (s : Pmm) (page cls : Nat) : Prop :=
  cls < nclass ∧ ∃ i, page = addrOf s i ∧ i < s.totalPages ∧
    (s.pgtab i).kind = .slab ∧ (s.pgtab i).objSize = classSize cls

structure PmmInv (s : PmmSys) : Prop where
  buddy : BuddyInv s.pmm
  pages : freePages s.pmm + ownPages s = Multiset.range s.pmm.totalPages
  live : ∀ p k, (p, Ext.buddy k) ∈ s.live → LiveOk s.pmm p k
  slab : ∀ page cls, (page, cls) ∈ s.slabs → SlabOk s.pmm page cls
  carve : ∀ cpu cls page, (cpu, cls, page) ∈ s.carving →
    cpu < maxCpu ∧ cls < nclass ∧ ∃ i, page = addrOf s.pmm i ∧ i < s.pmm.totalPages
  cell : ∀ cls, listed s.pmm cls + bag (liveCell cls) s.live = bag (slabCell cls) s.slabs
  out : ∀ cpu cls, maxCpu ≤ cpu → s.pmm.caches cpu cls = []

section
variable {s s' : Pmm} (h : SameRest s s')
include h

theorem SameRest.liveOk {p k : Nat} : LiveOk s' p k ↔ LiveOk s p k := by rw [h]; rfl

theorem SameRest.slabOk {page cls : Nat} : SlabOk s' page cls ↔ SlabOk s page cls := by rw [h]; rfl

theorem SameRest.listed (cls : Nat) : listed s' cls = listed s cls := by rw [h]; rfl

end

section
variable {s : Pmm}

theorem BuddyInv.setDesc (h : BuddyInv s) (i : Nat) (d : PageDesc) : BuddyInv (s.setDesc i d) :=
  ⟨⟨h.geom.aligned, h.geom.pos, h.geom.total, h.geom.top⟩, h.lists, h.nodup, h.merged⟩

theorem BuddyInv.setCache (h : BuddyInv s) (cpu cls : Nat) (l : List Nat) :
    BuddyInv (s.setCache cpu cls l) :=
  ⟨⟨h.geom.aligned, h.geom.pos, h.geom.total, h.geom.top⟩, h.lists, h.nodup, h.merged⟩

theorem LiveOk.setDesc {p k i : Nat} {d : PageDesc} (h : LiveOk s p k) (hi : pageIdx s p ≠ i) :
    LiveOk (s.setDesc i d) p k := by
  obtain ⟨hk, j, rfl, ha, hf, h1, h2⟩ := h
  rw [pageIdx_addrOf] at hi
  refine ⟨hk, j, rfl, ha, hf, ?_, ?_⟩
  · simp only [Pmm.setDesc, update_of_ne hi]; exact h1
  · simp only [Pmm.setDesc, update_of_ne hi]; exact h2

theorem SlabOk.setDesc {page cls i : Nat} {d : PageDesc} (h : SlabOk s page cls)
    (hi : pageIdx s page ≠ i) : SlabOk (s.setDesc i d) page cls := by
  obtain ⟨hc, j, rfl, hf, h1, h2⟩ := h
  rw [pageIdx_addrOf] at hi
  refine ⟨hc, j, rfl, hf, ?_, ?_⟩
  · simp only [Pmm.setDesc, update_of_ne hi]; exact h1
  · simp only [Pmm.setDesc, update_of_ne hi]; exact h2

theorem descOf_addrOf (hg : Geom s) {i : Nat} (hi : i < s.totalPages) : descOf s (addrOf s i) = i := by
  have htop := hg.top
  have htot := hg.total
  simp only [pageSize, maxOrder, Nat.shiftLeft_eq] at htop htot
  unfold descOf
  rw [sub64_eq] <;> simp only [addrOf, pageSize] <;> omega

theorem pageOf_addrOf (hg : Geom s) (i : Nat) : pageOf (addrOf s i) = addrOf s i :=
  Nat.div_mul_cancel ((Nat.dvd_add_right hg.aligned).mpr (Nat.dvd_mul_left _ _))

theorem liveOwn_self (ds p k : Nat) : (p - ds) / pageSize ∈ liveOwn ds (p, .buddy k) :=
  self_mem_blockPages _ _

theorem slabOwn_self (ds : Nat) (x : Nat × Nat) : (x.1 - ds) / pageSize ∈ slabOwn ds x :=
  self_mem_blockPages _ _

end

/-! ## Pops, pushes and carving on a cell list -/

section
variable (s : Pmm) (cpu cls : Nat)

theorem listed_setCache (l : List Nat) (hc : cpu < maxCpu) :
    listed (s.setCache cpu cls l) cls + (s.caches cpu cls : Multiset Nat) =
      listed s cls + (l : Multiset Nat) := by
  have := sum_update_add (Finset.range maxCpu) (fun _ f => ((f cls : List Nat) : Multiset Nat))
    s.caches (Finset.mem_range.mpr hc) (update (s.caches cpu) cls l)
  rwa [update_self] at this

theorem listed_setCache_ne {c : Nat} (l : List Nat) (h : c ≠ cls) :
    listed (s.setCache cpu cls l) c = listed s c := by
  unfold listed
  apply Finset.sum_congr rfl
  intro j _
  by_cases hj : j = cpu
  · subst hj; simp [Pmm.setCache, update_of_ne h]
  · simp [Pmm.setCache, update_of_ne hj]

theorem listed_push (b c : Nat) (hc : cpu < maxCpu) :
    listed (s.setCache cpu cls (b :: s.caches cpu cls)) c =
      listed s c + (if cls = c then {b} else 0) := by
  by_cases h : cls = c
  · subst h
    have := listed_setCache s cpu cls (b :: s.caches cpu cls) hc
    rw [← Multiset.cons_coe, ← Multiset.singleton_add, ← add_assoc] at this
    rw [if_pos rfl]; exact add_right_cancel this
  · rw [listed_setCache_ne s cpu cls _ (Ne.symm h), if_neg h, add_zero]

end

section
variable {s : PmmSys}

theorem mem_own_of_live {l : Nat × Ext} (hl : l ∈ s.live) {p : Nat}
    (hp : p ∈ liveOwn s.pmm.dataStart l) : p ∈ ownPages s := by
  unfold ownPages
  simp only [Multiset.mem_add]
  exact Or.inl (Or.inl ((mem_bag _).mpr ⟨l, hl, hp⟩))

theorem mem_own_of_slab {x : Nat × Nat} (hx : x ∈ s.slabs) {p : Nat}
    (hp : p ∈ slabOwn s.pmm.dataStart x) : p ∈ ownPages s := by
  unfold ownPages
  simp only [Multiset.mem_add]
  exact Or.inl (Or.inr ((mem_bag _).mpr ⟨x, hx, hp⟩))

variable (hs : PmmInv s)
include hs

theorem PmmInv.nodup_all : (freePages s.pmm + ownPages s).Nodup := by
  rw [hs.pages]; exact Multiset.nodup_range _

theorem PmmInv.disjoint_own {p : Nat} (hp : p ∈ freePages s.pmm) : p ∉ ownPages s :=
  Multiset.disjoint_left.mp (Multiset.nodup_add.mp hs.nodup_all).2.2 hp

/-- Updating the descriptor of a page that was free disturbs no owner. -/
theorem PmmInv.desc_free {i : Nat} {d : PageDesc} (hi : i ∈ freePages s.pmm) :
    (∀ p k, (p, Ext.buddy k) ∈ s.live → LiveOk (s.pmm.setDesc i d) p k) ∧
    (∀ page cls, (page, cls) ∈ s.slabs → SlabOk (s.pmm.setDesc i d) page cls) := by
  refine ⟨fun p k hl => (hs.live p k hl).setDesc fun he => ?_,
    fun page cls hx => (hs.slab page cls hx).setDesc fun he => ?_⟩
  · exact hs.disjoint_own hi (he ▸ mem_own_of_live hl (liveOwn_self _ p k))
  · exact hs.disjoint_own hi (he ▸ mem_own_of_slab hx (slabOwn_self _ (page, cls)))

theorem PmmInv.refill {p : Pmm} {cpu cls page : Nat} (hcpu : cpu < maxCpu) (hcls : cls < nclass)
    (h : buddyAlloc s.pmm 0 = (p, some page)) :
    PmmInv { s with pmm := p, carving := (cpu, cls, page) :: s.carving } := by
  obtain ⟨i, rfl, -, hfit, hfree, hsame, hb⟩ := buddyAlloc_some hs.buddy h
  refine ⟨hb, ?_, fun q k hl => hsame.liveOk.mpr (hs.live q k hl),
    fun pg c hx => hsame.slabOk.mpr (hs.slab pg c hx), ?_, fun c => ?_, fun c d hc => ?_⟩
  · have hp := hs.pages
    rw [hfree] at hp
    rw [hsame.totalPages, ← hp]
    simp only [ownPages, hsame.dataStart, bag_cons, carveOwn]
    rw [show (addrOf s.pmm i - s.pmm.dataStart) / pageSize = i from pageIdx_addrOf s.pmm i]
    abel
  · intro c d pg hm
    rw [hsame.totalPages]
    simp only [hsame.addrOf]
    rcases mem_cons.mp hm with he | hm
    · cases he; exact ⟨hcpu, hcls, i, rfl, hfit⟩
    · exact hs.carve c d pg hm
  · rw [hsame.listed]; exact hs.cell c
  · rw [hsame.caches]; exact hs.out c d hc

theorem PmmInv.large (size : Nat) :
    PmmInv (s.addLive (kallocLarge s.pmm size) (.buddy (sizeToOrder size))) := by
  unfold kallocLarge
  cases hr : buddyAlloc s.pmm (sizeToOrder size) with
  | mk p r =>
    cases r with
    | none => rw [(buddyAlloc_none hr).1]; exact hs
    | some blk =>
      obtain ⟨i, rfl, hal, hfit, hfree, hsame, hb⟩ := buddyAlloc_some hs.buddy hr
      have hpos := Nat.two_pow_pos (sizeToOrder size)
      have hidx : descOf p (addrOf s.pmm i) = i := by
        rw [← hsame.addrOf]
        exact descOf_addrOf hb.geom (by rw [hsame.totalPages]; omega)
      simp only [PmmSys.addLive, hidx]
      have hi : i ∈ freePages s.pmm := by
        rw [hfree]; exact Multiset.mem_add.mpr (Or.inl (self_mem_blockPages _ _))
      generalize hd : ({ p.pgtab i with kind := .buddy, order := sizeToOrder size } : PageDesc) = d
      obtain ⟨hlive, hslab⟩ := hs.desc_free (d := d) hi
      have hsame' : SameRest (s.pmm.setDesc i d) (p.setDesc i d) := by
        unfold SameRest at *; rw [hsame]; rfl
      refine ⟨hb.setDesc i d, ?_, ?_,
        fun pg c hx => hsame'.slabOk.mpr (hslab pg c hx), ?_, fun c => ?_, fun c e hc => ?_⟩
      · have hp := hs.pages
        rw [hfree] at hp
        show freePages p + _ = Multiset.range p.totalPages
        rw [hsame.totalPages, ← hp]
        simp only [ownPages, Pmm.setDesc, hsame.dataStart, bag_cons, liveOwn]
        rw [show (addrOf s.pmm i - s.pmm.dataStart) / pageSize = i from pageIdx_addrOf s.pmm i]
        abel
      · intro q k hl
        rcases mem_cons.mp hl with he | hl
        · cases he
          refine ⟨sizeToOrder_le size, i, (hsame'.addrOf i).symm, hal, ?_, ?_, ?_⟩
          · show i + _ ≤ p.totalPages
            rw [hsame.totalPages]; exact hfit
          · simp only [Pmm.setDesc, update_self, ← hd]
          · simp only [Pmm.setDesc, update_self, ← hd]
        · exact hsame'.liveOk.mpr (hlive q k hl)
      · intro c e pg hm
        obtain ⟨h1, h2, j, hj, hj'⟩ := hs.carve c e pg hm
        refine ⟨h1, h2, j, hj.trans (hsame'.addrOf j).symm, ?_⟩
        show j < p.totalPages
        rw [hsame.totalPages]; exact hj'
      · show listed p c + _ = _
        rw [hsame.listed, bag_cons]
        simp only [liveCell, zero_add]
        exact hs.cell c
      · show p.caches c e = []
        rw [hsame.caches]; exact hs.out c e hc

theorem PmmInv.pop {cpu cls : Nat} (hcpu : cpu < maxCpu) :
    PmmInv (s.addLive (slabPop s.pmm cpu cls) (.slab cls)) := by
  unfold slabPop
  cases hl : s.pmm.caches cpu cls with
  | nil => exact hs
  | cons b rest =>
    simp only [PmmSys.addLive]
    refine ⟨hs.buddy.setCache cpu cls rest, ?_, ?_, hs.slab, hs.carve, fun c => ?_, fun c e hc => ?_⟩
    · refine Eq.trans ?_ hs.pages
      simp only [ownPages, bag_cons, liveOwn, zero_add]
      rfl
    · intro q k hq
      rcases mem_cons.mp hq with he | hq
      · cases he
      · exact hs.live q k hq
    · simp only [bag_cons, liveCell]
      rw [← hs.cell c]
      by_cases h : cls = c
      · subst h
        have := listed_setCache s.pmm cpu cls rest hcpu
        rw [hl, ← Multiset.cons_coe, ← Multiset.singleton_add, ← add_assoc] at this
        rw [if_pos rfl, ← add_assoc, add_right_cancel this]
      · rw [listed_setCache_ne s.pmm cpu cls rest (Ne.symm h), if_neg h, zero_add]
    · have hne : c ≠ cpu := by omega
      simp only [Pmm.setCache, update_of_ne hne]
      exact hs.out c e hc

theorem PmmInv.carved {cpu cls page : Nat} (hm : (cpu, cls, page) ∈ s.carving) :
    PmmInv { s with
      pmm := slabCarve s.pmm cpu cls page
      carving := s.carving.erase (cpu, cls, page)
      slabs := (page, cls) :: s.slabs } := by
  obtain ⟨hcpu, hcls, i, rfl, hi⟩ := hs.carve cpu cls page hm
  have hidx : descOf s.pmm (addrOf s.pmm i) = i := descOf_addrOf hs.buddy.geom hi
  have hpg : (addrOf s.pmm i - s.pmm.dataStart) / pageSize = i := pageIdx_addrOf s.pmm i
  have hown : ownPages s = blockPages 0 i + (bag (liveOwn s.pmm.dataStart) s.live +
      bag (slabOwn s.pmm.dataStart) s.slabs +
      bag (carveOwn s.pmm.dataStart) (s.carving.erase (cpu, cls, addrOf s.pmm i))) := by
    rw [ownPages, bag_erase _ hm, carveOwn, hpg]; abel
  have hnd : (ownPages s).Nodup := (Multiset.nodup_add.mp hs.nodup_all).2.1
  rw [hown] at hnd
  have hdis := Multiset.disjoint_left.mp (Multiset.nodup_add.mp hnd).2.2 (self_mem_blockPages 0 i)
  simp only [Multiset.mem_add, not_or] at hdis
  simp only [slabCarve, hidx]
  generalize hd : ({ s.pmm.pgtab i with kind := .slab, objSize := classSize cls } : PageDesc) = d
  refine ⟨(hs.buddy.setDesc i d).setCache cpu cls _, ?_, ?_, ?_, ?_, fun c => ?_, fun c e hc => ?_⟩
  · have hp := hs.pages
    rw [hown] at hp
    refine Eq.trans ?_ hp
    simp only [ownPages, Pmm.setCache, Pmm.setDesc, bag_cons, slabOwn, hpg]
    show freePages s.pmm + _ = _
    abel
  · intro q k hl
    have := (hs.live q k hl).setDesc (d := d) (i := i) fun he =>
      hdis.1.1 ((mem_bag _).mpr ⟨_, hl, he ▸ liveOwn_self _ q k⟩)
    exact this
  · intro pg c hx
    rcases mem_cons.mp hx with he | hx
    · cases he
      refine ⟨hcls, i, rfl, hi, ?_, ?_⟩
      · simp only [Pmm.setCache, Pmm.setDesc, update_self, ← hd]
      · simp only [Pmm.setCache, Pmm.setDesc, update_self, ← hd]
    · have := (hs.slab pg c hx).setDesc (d := d) (i := i) fun he =>
        hdis.1.2 ((mem_bag _).mpr ⟨_, hx, he ▸ slabOwn_self _ (pg, c)⟩)
      exact this
  · intro c e pg hc
    exact hs.carve c e pg (mem_of_mem_erase hc)
  · rw [bag_cons, ← hs.cell c]
    show listed ((s.pmm.setDesc i d).setCache cpu cls
      ((cells (addrOf s.pmm i) cls).reverse ++ s.pmm.caches cpu cls)) c + _ = _
    by_cases h : cls = c
    · subst h
      have := listed_setCache (s.pmm.setDesc i d) cpu cls
        ((cells (addrOf s.pmm i) cls).reverse ++ s.pmm.caches cpu cls) hcpu
      rw [← Multiset.coe_add, ← add_assoc] at this
      rw [add_right_cancel this, Multiset.coe_reverse]
      show listed s.pmm cls + _ + _ = _
      simp only [slabCell, ite_true]
      abel
    · rw [listed_setCache_ne _ cpu cls _ (Ne.symm h)]
      simp only [slabCell, h, ite_false, zero_add]
      rfl
  · have hne : c ≠ cpu := by omega
    simp only [Pmm.setCache, Pmm.setDesc, update_of_ne hne]
    exact hs.out c e hc

theorem PmmInv.slab_of_live {p cls : Nat} (h : (p, Ext.slab cls) ∈ s.live) :
    ∃ page, (page, cls) ∈ s.slabs ∧ p ∈ cells page cls := by
  have hm : p ∈ bag (slabCell cls) s.slabs := by
    rw [← hs.cell cls]
    exact Multiset.mem_add.mpr (Or.inr ((mem_bag _).mpr ⟨_, h, by simp [liveCell]⟩))
  obtain ⟨⟨page, c⟩, hx, hp⟩ := (mem_bag _).mp hm
  unfold slabCell at hp
  split at hp
  · rename_i hc
    subst hc; exact ⟨page, hx, hp⟩
  · simp at hp

theorem PmmInv.slab_of_listed {p cpu cls : Nat} (h : p ∈ s.pmm.caches cpu cls) :
    cpu < maxCpu ∧ ∃ page, (page, cls) ∈ s.slabs ∧ p ∈ cells page cls := by
  have hcpu : cpu < maxCpu := by
    by_contra hc
    rw [hs.out cpu cls (by omega)] at h
    cases h
  have hm : p ∈ bag (slabCell cls) s.slabs := by
    rw [← hs.cell cls]
    refine Multiset.mem_add.mpr (Or.inl ?_)
    unfold listed
    rw [Multiset.mem_sum]
    exact ⟨cpu, Finset.mem_range.mpr hcpu, h⟩
  obtain ⟨⟨page, c⟩, hx, hp⟩ := (mem_bag _).mp hm
  unfold slabCell at hp
  split at hp
  · rename_i hc
    subst hc; exact ⟨hcpu, page, hx, hp⟩
  · simp at hp

/-- `kfree` on a live cell looks at the descriptor of its page only. -/
theorem PmmInv.kfree_cell {q : Pmm} {p cls : Nat} (hl : (p, Ext.slab cls) ∈ s.live)
    (hds : q.dataStart = s.pmm.dataStart) (htab : q.pgtab = s.pmm.pgtab) (cpu : Nat) :
    kfree q cpu p = some (q.setCache cpu cls (p :: q.caches cpu cls)) := by
  obtain ⟨page, hx, hp⟩ := hs.slab_of_live hl
  obtain ⟨hcls, i, rfl, hi, hkind, hsize⟩ := hs.slab page cls hx
  have hg := hs.buddy.geom
  have hpage : pageOf p = addrOf s.pmm i :=
    pageOf_cell hcls ((Nat.dvd_add_right hg.aligned).mpr (Nat.dvd_mul_left _ _)) hp
  have hdesc : descOf q (addrOf s.pmm i) = i := by
    rw [descOf, hds]; exact descOf_addrOf hg hi
  have hp0 : p ≠ 0 := by
    have h1 := (cell_bounds hcls hp).1
    have h2 := hg.pos
    simp only [addrOf] at h1; omega
  simp only [kfree, hp0, ite_false, hpage, hdesc, htab, hkind, hsize, sizeToClass_classSize cls hcls]

theorem PmmInv.free_cell {cpu p cls : Nat} (hcpu : cpu < maxCpu) (hl : (p, Ext.slab cls) ∈ s.live) :
    PmmInv { s with
      pmm := s.pmm.setCache cpu cls (p :: s.pmm.caches cpu cls)
      live := s.live.erase (p, Ext.slab cls) } := by
  refine ⟨hs.buddy.setCache cpu cls _, ?_, fun q k hq => hs.live q k (mem_of_mem_erase hq),
    hs.slab, hs.carve, fun c => ?_, fun c e hc => ?_⟩
  · refine Eq.trans ?_ hs.pages
    simp only [ownPages, bag_erase (liveOwn s.pmm.dataStart) hl, liveOwn, zero_add]
    rfl
  · rw [listed_push s.pmm cpu cls p c hcpu, ← hs.cell c, bag_erase (liveCell c) hl, liveCell, add_assoc]
  · have hne : c ≠ cpu := by omega
    simp only [Pmm.setCache, update_of_ne hne]
    exact hs.out c e hc

theorem PmmInv.free_block (cpu : Nat) {p k : Nat} (hl : (p, Ext.buddy k) ∈ s.live) :
    ∃ q, kfree s.pmm cpu p = some q ∧ q.dataStart = s.pmm.dataStart ∧
      (q.pgtab (descOf s.pmm (pageOf p))).kind = .free ∧
      PmmInv { s with pmm := q, live := s.live.erase (p, Ext.buddy k) } := by
  obtain ⟨hk, i, rfl, hal, hfit, hkind, horder⟩ := hs.live p k hl
  have hg := hs.buddy.geom
  have hpos := Nat.two_pow_pos k
  have hp0 : addrOf s.pmm i ≠ 0 := by
    have := hg.pos
    simp only [addrOf]; omega
  have hpg : (addrOf s.pmm i - s.pmm.dataStart) / pageSize = i := pageIdx_addrOf s.pmm i
  generalize hd : ({ s.pmm.pgtab i with kind := .free } : PageDesc) = d
  have hown : ownPages s = blockPages k i +
      (bag (liveOwn s.pmm.dataStart) (s.live.erase (addrOf s.pmm i, .buddy k)) +
        bag (slabOwn s.pmm.dataStart) s.slabs + bag (carveOwn s.pmm.dataStart) s.carving) := by
    rw [ownPages, bag_erase _ hl, liveOwn, hpg]; abel
  have hnd : (ownPages s).Nodup := (Multiset.nodup_add.mp hs.nodup_all).2.1
  rw [hown] at hnd
  have hdis := Multiset.disjoint_left.mp (Multiset.nodup_add.mp hnd).2.2 (self_mem_blockPages k i)
  simp only [Multiset.mem_add, not_or] at hdis
  have hb := hs.buddy.setDesc i d
  have hall := hs.nodup_all
  rw [hown, ← add_assoc] at hall
  obtain ⟨hfp, hsame, hb'⟩ := buddyFree_spec (s := s.pmm.setDesc i d) (i := i) hb hk hal hfit
    (Multiset.nodup_add.mp hall).1
  have hdesc : descOf s.pmm (addrOf s.pmm i) = i := descOf_addrOf hg (by omega)
  refine ⟨buddyFree (s.pmm.setDesc i d) k (addrOf s.pmm i), ?_, hsame.dataStart, ?_, ?_⟩
  · simp only [kfree, hp0, ite_false, pageOf_addrOf hg, hdesc, hkind, horder, ← hd]
  · rw [pageOf_addrOf hg, hdesc, show (buddyFree (s.pmm.setDesc i d) k (addrOf s.pmm i)).pgtab =
      (s.pmm.setDesc i d).pgtab from hsame.pgtab]
    simp only [Pmm.setDesc, update_self, ← hd]
  · refine ⟨hb', ?_, fun q j hq => hsame.liveOk.mpr ?_, fun pg c hx => hsame.slabOk.mpr ?_,
      ?_, fun c => ?_, fun c e hc => ?_⟩
    · have hp := hs.pages
      rw [hown, ← add_assoc] at hp
      show freePages (buddyFree (s.pmm.setDesc i d) k (addrOf (s.pmm.setDesc i d) i)) + _ =
        Multiset.range (buddyFree (s.pmm.setDesc i d) k (addrOf (s.pmm.setDesc i d) i)).totalPages
      rw [hfp, hsame.totalPages]
      refine Eq.trans ?_ hp
      simp only [ownPages]
      rw [show (buddyFree (s.pmm.setDesc i d) k (addrOf s.pmm i)).dataStart = s.pmm.dataStart from
        hsame.dataStart]
      rfl
    · exact (hs.live q j (mem_of_mem_erase hq)).setDesc fun he =>
        hdis.1.1 ((mem_bag _).mpr ⟨_, hq, he ▸ liveOwn_self _ q j⟩)
    · exact (hs.slab pg c hx).setDesc fun he =>
        hdis.1.2 ((mem_bag _).mpr ⟨_, hx, he ▸ slabOwn_self _ (pg, c)⟩)
    · intro c e pg hm
      obtain ⟨h1, h2, j, hj, hj'⟩ := hs.carve c e pg hm
      exact ⟨h1, h2, j, hj.trans (hsame.addrOf j).symm, by
        show j < (buddyFree (s.pmm.setDesc i d) k (addrOf (s.pmm.setDesc i d) i)).totalPages
        rw [hsame.totalPages]; exact hj'⟩
    · show listed (buddyFree (s.pmm.setDesc i d) k (addrOf (s.pmm.setDesc i d) i)) c + _ = _
      rw [hsame.listed, ← hs.cell c, bag_erase (liveCell c) hl, liveCell, zero_add]
      rfl
    · show (buddyFree (s.pmm.setDesc i d) k (addrOf (s.pmm.setDesc i d) i)).caches c e = []
      rw [hsame.caches]; exact hs.out c e hc

end

/-! ## The invariant along runs -/

theorem pmmInv_init (h : Area) (hr : h.room) : PmmInv (PmmSys.init h) := by
  obtain ⟨hsame, hb, hp⟩ := pmmInit_spec h hr
  refine ⟨hb, ?_, (fun _ _ hl => nomatch hl), (fun _ _ hl => nomatch hl), (fun _ _ _ hl => nomatch hl),
    fun c => ?_, fun c d _ => ?_⟩
  · simpa [PmmSys.init, ownPages] using hp
  · show listed (pmmInit h) c + _ = _
    rw [hsame.listed]
    simp [PmmSys.init, listed, pmmBase]
  · show (pmmInit h).caches c d = []
    rw [hsame.caches]; rfl

inductive KallocMove (s : PmmSys) (cpu size : Nat) : PmmSys → Prop
  | zero (h : size = 0) : KallocMove s cpu size s
  | large (h : sizeToClass size = some none) :
      KallocMove s cpu size (s.addLive (kallocLarge s.pmm size) (.buddy (sizeToOrder size)))
  | noPage {cls : Nat} (h : sizeToClass size = some (some cls)) : KallocMove s cpu size s
  | refill {cls page : Nat} {p : Pmm} (h : sizeToClass size = some (some cls))
      (hr : buddyAlloc s.pmm 0 = (p, some page)) :
      KallocMove s cpu size { s with pmm := p, carving := (cpu, cls, page) :: s.carving }
  | pop {cls : Nat} (h : sizeToClass size = some (some cls)) :
      KallocMove s cpu size (s.addLive (slabPop s.pmm cpu cls) (.slab cls))

theorem step_kalloc {s s' : PmmSys} {cpu size : Nat} (h : s.step (.kalloc cpu size) = some s') :
    cpu < maxCpu ∧ KallocMove s cpu size s' := by
  simp only [PmmSys.step] at h
  by_cases hg : maxCpu ≤ cpu ∨ s.carving.any (·.1 = cpu)
  · rw [if_pos hg] at h; cases h
  rw [if_neg hg] at h
  refine ⟨Nat.lt_of_not_le fun hc => hg (Or.inl hc), ?_⟩
  by_cases h0 : size = 0
  · simp only [h0, ite_true, Option.some.injEq] at h
    subst h; exact .zero h0
  simp only [h0, ite_false] at h
  cases hc : sizeToClass size with
  | none => simp [hc] at h
  | some r =>
    cases r with
    | none =>
      simp only [hc, Option.some.injEq] at h
      subst h; exact .large hc
    | some cls =>
      simp only [hc] at h
      by_cases he : s.pmm.caches cpu cls = []
      · simp only [he, ite_true] at h
        cases hr : buddyAlloc s.pmm 0 with
        | mk p r =>
          cases r with
          | none =>
            simp only [hr, Option.some.injEq] at h
            rw [(buddyAlloc_none hr).1] at h
            subst h; exact .noPage hc
          | some page =>
            simp only [hr, Option.some.injEq] at h
            subst h; exact .refill hc hr
      · simp only [he, ite_false, Option.some.injEq] at h
        subst h; exact .pop hc

inductive PmmMove (s : PmmSys) : PmmSys → Prop
  | stay : PmmMove s s
  | refill {cpu cls page : Nat} {p : Pmm} (hcpu : cpu < maxCpu) (hcls : cls < nclass)
      (hr : buddyAlloc s.pmm 0 = (p, some page)) :
      PmmMove s { s with pmm := p, carving := (cpu, cls, page) :: s.carving }
  | large (size : Nat) : PmmMove s (s.addLive (kallocLarge s.pmm size) (.buddy (sizeToOrder size)))
  | pop {cpu cls : Nat} (hcpu : cpu < maxCpu) : PmmMove s (s.addLive (slabPop s.pmm cpu cls) (.slab cls))
  | carve {cpu cls page : Nat} (hm : (cpu, cls, page) ∈ s.carving) :
      PmmMove s (PmmSys.addLive
        { s with
          pmm := slabCarve s.pmm cpu cls page
          carving := s.carving.erase (cpu, cls, page)
          slabs := (page, cls) :: s.slabs }
        (slabPop (slabCarve s.pmm cpu cls page) cpu cls) (.slab cls))
  | free {cpu : Nat} {l : Nat × Ext} {p : Pmm} (hcpu : cpu < maxCpu) (hm : l ∈ s.live)
      (hk : kfree s.pmm cpu l.1 = some p) : PmmMove s { s with pmm := p, live := s.live.erase l }

theorem step_move {s s' : PmmSys} {a : PmmAct} (h : s.step a = some s') : PmmMove s s' := by
  cases a with
  | kalloc cpu size =>
    obtain ⟨hcpu, hm⟩ := step_kalloc h
    cases hm with
    | zero => exact .stay
    | large => exact .large size
    | noPage => exact .stay
    | refill hc hr => exact .refill hcpu (sizeToClass_lt hc) hr
    | pop => exact .pop hcpu
  | carve cpu cls page =>
    simp only [PmmSys.step] at h
    by_cases hm : (cpu, cls, page) ∈ s.carving
    · simp only [hm, ite_true, Option.some.injEq] at h
      subst h; exact .carve hm
    · simp [hm] at h
  | kfree cpu ptr =>
    simp only [PmmSys.step] at h
    by_cases hg : maxCpu ≤ cpu ∨ s.carving.any (·.1 = cpu)
    · rw [if_pos hg] at h; cases h
    rw [if_neg hg] at h
    have hcpu : cpu < maxCpu := Nat.lt_of_not_le fun hc => hg (Or.inl hc)
    by_cases h0 : ptr = 0
    · simp only [h0, ite_true, Option.some.injEq] at h
      subst h; exact .stay
    simp only [h0, ite_false] at h
    cases hf : s.live.find? (·.1 = ptr) with
    | none => simp [hf] at h
    | some l =>
      have hp : l.1 = ptr := by simpa using find?_some hf
      simp only [hf] at h
      obtain ⟨q, hq, rfl⟩ := Option.map_eq_some_iff.mp h
      exact .free hcpu (mem_of_find?_eq_some hf) (hp ▸ hq)

theorem pmmInv_step {s s' : PmmSys} {a : PmmAct} (hs : PmmInv s) (h : s.step a = some s') :
    PmmInv s' := by
  cases step_move h with
  | stay => exact hs
  | refill hcpu hcls hr => exact hs.refill hcpu hcls hr
  | large size => exact hs.large size
  | pop hcpu => exact hs.pop hcpu
  | carve hm => exact (hs.carved hm).pop (hs.carve _ _ _ hm).1
  | @free cpu l p hcpu hm hk =>
    obtain ⟨b, e⟩ := l
    cases e with
    | slab cls =>
      cases hk.symm.trans (hs.kfree_cell hm rfl rfl cpu)
      exact hs.free_cell hcpu hm
    | buddy k =>
      obtain ⟨q, hq, -, -, hi⟩ := hs.free_block cpu hm
      cases hk.symm.trans hq
      exact hi

/-! ## The region is fixed -/

def Pmm.region (s : Pmm) : Nat × Nat × Nat := (s.dataStart, s.dataEnd, s.totalPages)

theorem SameRest.region {s s' : Pmm} (h : SameRest s s') : s'.region = s.region := by rw [h]; rfl

theorem region_buddyAlloc {s p : Pmm} {order : Nat} {r : Option Nat} (h : buddyAlloc s order = (p, r)) :
    p.region = s.region := by
  unfold buddyAlloc at h
  simp only at h
  split at h
  · cases h; rfl
  · split at h
    · cases h; rfl
    · cases h; exact (sameRest_splitDown ..).region

theorem sameRest_coalesce : ∀ (fuel : Nat) (s : Pmm) (order a : Nat), SameRest s (coalesce fuel s order a).1
  | 0, s, _, _ => SameRest.refl s
  | fuel + 1, s, order, a => by
    unfold coalesce
    split
    · exact (SameRest.setList s order _).trans (sameRest_coalesce fuel _ _ _)
    · exact SameRest.refl s

theorem sameRest_buddyFree (s : Pmm) (order blk : Nat) : SameRest s (buddyFree s order blk) :=
  (sameRest_coalesce ..).trans (SameRest.setList ..)

theorem region_kallocLarge (s : Pmm) (size : Nat) : (kallocLarge s size).1.region = s.region := by
  unfold kallocLarge
  split
  · rename_i heq; exact region_buddyAlloc heq
  · rename_i heq
    have := region_buddyAlloc heq
    exact this

theorem region_slabPop (s : Pmm) (cpu cls : Nat) : (slabPop s cpu cls).1.region = s.region := by
  unfold slabPop
  split <;> rfl

theorem region_kfree {s p : Pmm} {cpu ptr : Nat} (h : kfree s cpu ptr = some p) :
    p.region = s.region := by
  unfold kfree at h
  split at h
  · cases h; rfl
  · simp only at h
    split at h
    · split at h
      · cases h; rfl
      · cases h
    · cases h; exact (sameRest_buddyFree (s.setDesc _ _) _ _).region
    · cases h; rfl

theorem region_addLive (s : PmmSys) (r : Pmm × Option Nat) (e : Ext) :
    (s.addLive r e).pmm.region = r.1.region := by
  obtain ⟨p, b⟩ := r
  cases b <;> rfl

theorem region_step {s s' : PmmSys} {a : PmmAct} (h : s.step a = some s') :
    s'.pmm.region = s.pmm.region := by
  cases step_move h with
  | stay => rfl
  | refill hcpu hcls hr => exact region_buddyAlloc hr
  | large size => rw [region_addLive, region_kallocLarge]
  | pop hcpu => rw [region_addLive, region_slabPop]
  | carve hm => rw [region_addLive, region_slabPop]; rfl
  | free hcpu hm hk => exact region_kfree hk

end NjuOs
