import NjuOs.AllocSound

/-!
# The allocator from outside

What the statement-by-statement machine needs to know about the allocator with atomic slab
lists: the buddy lists work the same whatever stands in the descriptors and caches, cells that are
live, listed and being carved are different addresses, and each operation is one step.
-/

namespace NjuOs

open Function

/-! ## Buddy lists under other descriptors and caches -/

def Pmm.over (m : Pmm) (pgtab : Nat → PageDesc) (caches : Nat → Nat → List Nat) : Pmm :=
  { m with pgtab := pgtab, caches := caches }

theorem Pmm.over_self (m : Pmm) : m.over m.pgtab m.caches = m := rfl

section
variable (t : Nat → PageDesc) (x : Nat → Nat → List Nat)

theorem firstNonempty_over (m : Pmm) : ∀ (fuel k : Nat), firstNonempty (m.over t x) fuel k = firstNonempty m fuel k
  | 0, _ => rfl
  | fuel + 1, k => by
    unfold firstNonempty
    rw [firstNonempty_over m fuel (k + 1)]
    rfl

theorem splitDown_over (order blk : Nat) : ∀ (k : Nat) (m : Pmm),
    splitDown order blk k (m.over t x) = (splitDown order blk k m).over t x
  | 0, _ => rfl
  | k + 1, m => by
    unfold splitDown
    split
    · exact splitDown_over order blk k (buddyPush m k (blk + pageSize <<< k))
    · rfl

theorem buddyAlloc_over (m : Pmm) (order : Nat) :
    buddyAlloc (m.over t x) order = ((buddyAlloc m order).1.over t x, (buddyAlloc m order).2) := by
  unfold buddyAlloc
  simp only [firstNonempty_over, show (m.over t x).freeLists = m.freeLists from rfl]
  split
  · rfl
  · split
    · rfl
    · next blk rest _ => exact Prod.ext (splitDown_over t x order blk _ (m.setList _ rest)) rfl

theorem coalesce_over : ∀ (fuel : Nat) (m : Pmm) (order addr : Nat), coalesce fuel (m.over t x) order addr =
    ((coalesce fuel m order addr).1.over t x, (coalesce fuel m order addr).2)
  | 0, _, _, _ => rfl
  | fuel + 1, m, order, addr => by
    unfold coalesce
    have hb : buddyOf (m.over t x) order addr = buddyOf m order addr := rfl
    rw [hb]
    split
    · next h =>
      rw [if_pos (show _ ∈ m.freeLists order from h)]
      exact coalesce_over fuel (m.setList order ((m.freeLists order).erase (buddyOf m order addr))) _ _
    · next h => rw [if_neg (show _ ∉ m.freeLists order from h)]

theorem buddyFree_over (m : Pmm) (order blk : Nat) :
    buddyFree (m.over t x) order blk = (buddyFree m order blk).over t x := by
  unfold buddyFree
  rw [coalesce_over]
  rfl

end

/-! ## Whose page an address is on -/

theorem pageIdx_cell {m : Pmm} {i cls c : Nat} (hcls : cls < nclass) (h : c ∈ cells (addrOf m i) cls) :
    pageIdx m c = i := by
  have hb := cell_bounds hcls h
  have hpos := (classSize_spec cls hcls).1
  simp only [pageIdx, addrOf, pageSize] at *
  omega

section
variable {g : PmmSys} (hg : PmmInv g)
include hg

theorem PmmInv.slab_page {page cls c : Nat} (hx : (page, cls) ∈ g.slabs) (hc : c ∈ cells page cls) :
    descOf g.pmm (pageOf c) = pageIdx g.pmm c ∧ pageIdx g.pmm c ∈ bag (slabOwn g.pmm.dataStart) g.slabs := by
  have hpage := hg.page_of_cell hx hc
  obtain ⟨hcls, i, rfl, hi, -⟩ := hg.slab page cls hx
  rw [hpage, descOf_addrOf hg.buddy.geom hi, pageIdx_cell hcls hc]
  refine ⟨rfl, (mem_bag _).mpr ⟨_, hx, ?_⟩⟩
  have hself := slabOwn_self g.pmm.dataStart (addrOf g.pmm i, cls)
  rwa [show (addrOf g.pmm i - g.pmm.dataStart) / pageSize = i from pageIdx_addrOf g.pmm i] at hself

theorem PmmInv.live_page {p : Nat} {e : Ext} (h : (p, e) ∈ g.live) : descOf g.pmm (pageOf p) = pageIdx g.pmm p ∧
    pageIdx g.pmm p ∈ bag (liveOwn g.pmm.dataStart) g.live + bag (slabOwn g.pmm.dataStart) g.slabs := by
  cases e with
  | buddy k =>
    obtain ⟨-, i, rfl, -, hfit, -⟩ := hg.live p k h
    have hpos := Nat.two_pow_pos k
    rw [pageOf_addrOf hg.buddy.geom, descOf_addrOf hg.buddy.geom (by omega), pageIdx_addrOf]
    refine ⟨rfl, Multiset.mem_add.mpr (Or.inl ((mem_bag _).mpr ⟨_, h, ?_⟩))⟩
    have hself := liveOwn_self g.pmm.dataStart (addrOf g.pmm i) k
    rwa [show (addrOf g.pmm i - g.pmm.dataStart) / pageSize = i from pageIdx_addrOf g.pmm i] at hself
  | slab cls =>
    obtain ⟨page, hx, hc⟩ := hg.slab_of_live h
    obtain ⟨hd, hm⟩ := hg.slab_page hx hc
    exact ⟨hd, Multiset.mem_add.mpr (Or.inr hm)⟩

theorem PmmInv.nodup_carve_pages : (bag (carveOwn g.pmm.dataStart) g.carving).Nodup :=
  (Multiset.nodup_add.mp (Multiset.nodup_add.mp hg.nodup_all).2.1).2.1

theorem PmmInv.nodup_carving : g.carving.Nodup := by
  rw [List.nodup_iff_count_le_one]
  intro x
  have hself : (x.2.2 - g.pmm.dataStart) / pageSize ∈ carveOwn g.pmm.dataStart x := self_mem_blockPages _ _
  exact Nat.le_trans (count_le_count_bag _ hself g.carving) (Multiset.nodup_iff_count_le_one.mp hg.nodup_carve_pages _)

theorem PmmInv.carve_index {x : Nat × Nat × Nat} (hx : x ∈ g.carving) :
    descOf g.pmm x.2.2 = pageIdx g.pmm x.2.2 ∧ pageIdx g.pmm x.2.2 < g.pmm.totalPages := by
  obtain ⟨-, -, i, hi, hlt⟩ := hg.carve x.1 x.2.1 x.2.2 hx
  rw [hi, descOf_addrOf hg.buddy.geom hlt, pageIdx_addrOf]
  exact ⟨rfl, hlt⟩

theorem PmmInv.carve_free {x : Nat × Nat × Nat} (hx : x ∈ g.carving) : pageIdx g.pmm x.2.2 ∉
    bag (liveOwn g.pmm.dataStart) g.live + bag (slabOwn g.pmm.dataStart) g.slabs := by
  intro hm
  have hd := (Multiset.nodup_add.mp (Multiset.nodup_add.mp hg.nodup_all).2.1).2.2
  exact Multiset.disjoint_left.mp hd hm ((mem_bag _).mpr ⟨x, hx, self_mem_blockPages _ _⟩)

theorem PmmInv.carve_unique {x y : Nat × Nat × Nat} (hx : x ∈ g.carving) (hy : y ∈ g.carving)
    (h : pageIdx g.pmm x.2.2 = pageIdx g.pmm y.2.2) : x = y := by
  by_contra hne
  have hd := disjoint_of_nodup_bag _ hg.nodup_carve_pages hx hy hne
  have hself : pageIdx g.pmm x.2.2 ∈ carveOwn g.pmm.dataStart x := self_mem_blockPages _ _
  exact Multiset.disjoint_left.mp hd hself (h ▸ self_mem_blockPages _ _)

theorem PmmInv.carve_cell {x : Nat × Nat × Nat} (hx : x ∈ g.carving) {c : Nat} (hc : c ∈ cells x.2.2 x.2.1) :
    pageIdx g.pmm c = pageIdx g.pmm x.2.2 := by
  obtain ⟨-, hcls, i, hi, -⟩ := hg.carve x.1 x.2.1 x.2.2 hx
  rw [hi] at hc ⊢
  rw [pageIdx_cell hcls hc, pageIdx_addrOf]

theorem PmmInv.carve_not_live {x : Nat × Nat × Nat} (hx : x ∈ g.carving) {c : Nat} (hc : c ∈ cells x.2.2 x.2.1)
    (e : Ext) : (c, e) ∉ g.live := by
  intro hl
  have hm := (hg.live_page hl).2
  rw [hg.carve_cell hx hc] at hm
  exact hg.carve_free hx hm

theorem PmmInv.carve_not_listed {x : Nat × Nat × Nat} (hx : x ∈ g.carving) {c : Nat} (hc : c ∈ cells x.2.2 x.2.1)
    (cpu cls : Nat) : c ∉ g.pmm.caches cpu cls := by
  intro hl
  obtain ⟨-, page, hs, hp⟩ := hg.slab_of_listed hl
  have hm := (hg.slab_page hs hp).2
  rw [hg.carve_cell hx hc] at hm
  exact hg.carve_free hx (Multiset.mem_add.mpr (Or.inr hm))

theorem PmmInv.listed_not_live {c cpu cls : Nat} (h : c ∈ g.pmm.caches cpu cls) (e : Ext) : (c, e) ∉ g.live := by
  intro hl
  obtain ⟨-, page, hx, -⟩ := hg.slab_of_listed h
  have hpos := (classSize_spec cls (hg.slab page cls hx).1).1
  have hsize := hg.live_size hl
  have hap := hg.live_cells hl h
  simp only [Apart] at hap hsize
  omega

theorem PmmInv.live_unique {p : Nat} {e e' : Ext} (h : (p, e) ∈ g.live) (h' : (p, e') ∈ g.live) : e = e' :=
  (Prod.ext_iff.mp (List.inj_on_of_nodup_map hg.nodup_addr h h' rfl)).2

theorem PmmInv.live_pos {p : Nat} {e : Ext} (h : (p, e) ∈ g.live) : p ≠ 0 := by
  have h1 := (hg.live_inside h).1
  have h2 := hg.buddy.geom.pos
  simp only at h1
  omega

end

/-! ## Steps of the allocator -/

section
variable {g : PmmSys} {c cls : Nat} (hc : c < maxCpu)
include hc

section
variable (hidle : ∀ x ∈ g.carving, x.1 ≠ c)
include hidle

theorem step_refill (hcls : cls < nclass) {m : Pmm} {page : Nat} (hl : g.pmm.caches c cls = [])
    (h : buddyAlloc g.pmm 0 = (m, some page)) :
    g.step (.kalloc c (classSize cls)) = some { g with pmm := m, carving := (c, cls, page) :: g.carving } := by
  have hpos := (classSize_spec cls hcls).1
  simp only [PmmSys.step, if_neg (may_call hc hidle), if_neg (Nat.pos_iff_ne_zero.mp hpos),
    sizeToClass_classSize cls hcls, hl, ite_true, h]

theorem step_large {size : Nat} (h0 : size ≠ 0) (h : sizeToClass size = some none) :
    g.step (.kalloc c size) = some (g.addLive (kallocLarge g.pmm size) (.buddy (sizeToOrder size))) := by
  simp only [PmmSys.step, if_neg (may_call hc hidle), if_neg h0, h]

theorem step_free (hg : PmmInv g) {p : Nat} {e : Ext} {m : Pmm} (hl : (p, e) ∈ g.live) (h : kfree g.pmm c p = some m) :
    g.step (.kfree c p) = some { g with pmm := m, live := g.live.erase (p, e) } := by
  have hfind : g.live.find? (·.1 = p) = some (p, e) := by
    cases hf : g.live.find? (·.1 = p) with
    | none => exact absurd rfl (of_decide_eq_false (Bool.eq_false_iff.mpr (List.find?_eq_none.mp hf _ hl)))
    | some l =>
      obtain ⟨q, e'⟩ := l
      have hq : q = p := by simpa using List.find?_some hf
      subst hq
      rw [hg.live_unique (List.mem_of_find?_eq_some hf) hl]
  simp only [PmmSys.step, if_neg (may_call hc hidle), if_neg (hg.live_pos hl), hfind, h, Option.map_some]

end

omit hc in
theorem step_carve {page b : Nat} {rest : List Nat} (hm : (c, cls, page) ∈ g.carving)
    (hl : (cells page cls).reverse ++ g.pmm.caches c cls = b :: rest) :
    g.step (.carve c cls page) = some
      { pmm := (g.pmm.setDesc (descOf g.pmm page)
          { g.pmm.pgtab (descOf g.pmm page) with kind := .slab, objSize := classSize cls }).setCache c cls rest
        carving := g.carving.erase (c, cls, page)
        live := (b, .slab cls) :: g.live
        slabs := (page, cls) :: g.slabs } := by
  have hcache : (slabCarve g.pmm c cls page).caches c cls = b :: rest := by
    rw [← hl]
    simp only [slabCarve, Pmm.setCache, Pmm.setDesc, update_self]
  simp only [PmmSys.step, if_pos hm, slabPop, hcache, PmmSys.addLive]
  simp only [slabCarve, Pmm.setCache, Pmm.setDesc, update_self, update_idem]

end

end NjuOs
