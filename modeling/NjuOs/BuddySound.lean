import NjuOs.Bags
import NjuOs.Dyadic
import NjuOs.Pmm

/-!
# The buddy lists

`freePages` counts the pages on the free lists. `buddyAlloc` moves one aligned block
out of it and `buddyFree` moves one back in (`buddyAlloc_some`, `buddyFree_spec`);
both keep the lists free of buddies.
-/

namespace NjuOs

def addrOf (s : Pmm) (i : Nat) : Nat := s.dataStart + i * pageSize

def pageIdx (s : Pmm) (a : Nat) : Nat := (a - s.dataStart) / pageSize

@[simp] theorem pageIdx_addrOf (s : Pmm) (i : Nat) : pageIdx s (addrOf s i) = i := by
  simp [pageIdx, addrOf, pageSize]

theorem addrOf_inj {s : Pmm} {i j : Nat} (h : addrOf s i = addrOf s j) : i = j := by
  rw [← pageIdx_addrOf s i, h, pageIdx_addrOf]

theorem addrOf_add (s : Pmm) (i k : Nat) : addrOf s i + pageSize <<< k = addrOf s (i + 2 ^ k) := by
  simp only [addrOf, Nat.shiftLeft_eq]; ring

def listPages (s : Pmm) (k : Nat) (l : List Nat) : Multiset Nat :=
  bag (fun a => blockPages k (pageIdx s a)) l

def freePages (s : Pmm) : Multiset Nat :=
  ∑ k ∈ Finset.range (maxOrder + 1), listPages s k (s.freeLists k)

structure Geom (s : Pmm) : Prop where
  aligned : pageSize ∣ s.dataStart
  pos : 0 < s.dataStart
  total : s.dataEnd = s.dataStart + s.totalPages * pageSize
  top : s.dataEnd + pageSize <<< maxOrder ≤ 2 ^ 64

def ListsOk (s : Pmm) : Prop :=
  ∀ k a, a ∈ s.freeLists k →
    k ≤ maxOrder ∧ ∃ i, a = addrOf s i ∧ 2 ^ k ∣ i ∧ i + 2 ^ k ≤ s.totalPages

structure BuddyInv (s : Pmm) : Prop where
  geom : Geom s
  lists : ListsOk s
  nodup : (freePages s).Nodup
  merged : ∀ k < maxOrder, ∀ i, addrOf s i ∈ s.freeLists k → addrOf s (i ^^^ 2 ^ k) ∉ s.freeLists k

/-! ## Updating one list -/

section
variable (s : Pmm) (k : Nat) (l : List Nat)

@[simp] theorem setList_totalPages : (s.setList k l).totalPages = s.totalPages := rfl
@[simp] theorem setList_same : (s.setList k l).freeLists k = l := Function.update_self ..
@[simp] theorem addrOf_setList (i : Nat) : addrOf (s.setList k l) i = addrOf s i := rfl
@[simp] theorem listPages_setList (j : Nat) (l' : List Nat) :
    listPages (s.setList k l) j l' = listPages s j l' := rfl

theorem setList_ne {j : Nat} (h : j ≠ k) : (s.setList k l).freeLists j = s.freeLists j :=
  Function.update_of_ne h ..

@[simp] theorem listPages_nil : listPages s k [] = 0 := rfl

@[simp] theorem listPages_cons (a : Nat) :
    listPages s k (a :: l) = blockPages k (pageIdx s a) + listPages s k l := bag_cons _ a l

/-- What `freePages` loses in one list and gains in its replacement. -/
theorem freePages_setList (hk : k ≤ maxOrder) :
    freePages (s.setList k l) + listPages s k (s.freeLists k) = freePages s + listPages s k l := by
  have hm : k ∈ Finset.range (maxOrder + 1) := Finset.mem_range.mpr (by omega)
  exact sum_update_add _ (listPages s) s.freeLists hm l

theorem freePages_push (a : Nat) (hk : k ≤ maxOrder) :
    freePages (buddyPush s k a) = blockPages k (pageIdx s a) + freePages s := by
  have := freePages_setList s k (a :: s.freeLists k) hk
  rw [listPages_cons, add_left_comm, ← add_assoc] at this
  exact add_right_cancel this

theorem mem_freePages {p : Nat} :
    p ∈ freePages s ↔ ∃ k ≤ maxOrder, ∃ a ∈ s.freeLists k, p ∈ blockPages k (pageIdx s a) := by
  simp only [freePages, listPages, Multiset.mem_sum, Finset.mem_range, mem_bag, Nat.lt_succ_iff]

end

theorem mem_freePages_of {s : Pmm} (hs : ListsOk s) {k i p : Nat} (h : addrOf s i ∈ s.freeLists k)
    (hp : p ∈ blockPages k i) : p ∈ freePages s :=
  (mem_freePages s).mpr ⟨k, (hs k _ h).1, _, h, by rwa [pageIdx_addrOf]⟩

def SameRest (s s' : Pmm) : Prop := s' = { s with freeLists := s'.freeLists }

theorem SameRest.refl (s : Pmm) : SameRest s s := rfl

theorem SameRest.trans {s t u : Pmm} (h : SameRest s t) (h' : SameRest t u) : SameRest s u := by
  unfold SameRest at *
  rw [h] at h'
  exact h'

theorem SameRest.setList (s : Pmm) (k : Nat) (l : List Nat) : SameRest s (s.setList k l) := rfl

section
variable {s s' : Pmm} (h : SameRest s s')
include h

theorem SameRest.dataStart : s'.dataStart = s.dataStart := by rw [h]
theorem SameRest.dataEnd : s'.dataEnd = s.dataEnd := by rw [h]
theorem SameRest.totalPages : s'.totalPages = s.totalPages := by rw [h]
theorem SameRest.pgtab : s'.pgtab = s.pgtab := by rw [h]
theorem SameRest.caches : s'.caches = s.caches := by rw [h]

theorem SameRest.addrOf (i : Nat) : addrOf s' i = addrOf s i := by
  simp only [NjuOs.addrOf, h.dataStart]

theorem SameRest.geom (hg : Geom s) : Geom s' where
  aligned := by rw [h.dataStart]; exact hg.aligned
  pos := by rw [h.dataStart]; exact hg.pos
  total := by rw [h.dataEnd, h.dataStart, h.totalPages]; exact hg.total
  top := by rw [h.dataEnd]; exact hg.top

end

/-! ## Allocation -/

theorem firstNonempty_spec (s : Pmm) : ∀ (fuel k : Nat),
    k ≤ firstNonempty s fuel k ∧ firstNonempty s fuel k ≤ k + fuel ∧
    (∀ j, k ≤ j → j < firstNonempty s fuel k → s.freeLists j = []) ∧
    (firstNonempty s fuel k < k + fuel → s.freeLists (firstNonempty s fuel k) ≠ [])
  | 0, k => by simp [firstNonempty]; intro j h1 h2; omega
  | fuel + 1, k => by
    unfold firstNonempty
    by_cases h : s.freeLists k = []
    · obtain ⟨h1, h2, h3, h4⟩ := firstNonempty_spec s fuel (k + 1)
      simp only [h, ite_true]
      refine ⟨by omega, by omega, fun j hj hlt => ?_, fun hlt => h4 (by omega)⟩
      by_cases hjk : j = k
      · rw [hjk]; exact h
      · exact h3 j (by omega) hlt
    · simp only [h, ite_false]
      refine ⟨Nat.le_refl _, by omega, fun j h1 h2 => by omega, fun _ => h⟩

theorem sameRest_splitDown (order blk : Nat) : ∀ (k : Nat) (s : Pmm),
    SameRest s (splitDown order blk k s)
  | 0, s => SameRest.refl s
  | k + 1, s => by
    unfold splitDown
    split
    · exact (SameRest.setList s k _).trans (sameRest_splitDown order blk k _)
    · exact SameRest.refl s

/-- Splitting a block of order `k` at page `i` puts all of it but its first block of
the requested order on the lists. -/
theorem freePages_splitDown (order i : Nat) : ∀ (k : Nat) (s : Pmm), order ≤ k → k ≤ maxOrder →
    freePages (splitDown order (addrOf s i) k s) + blockPages order i = freePages s + blockPages k i
  | 0, s, h, _ => by
    have : order = 0 := by omega
    subst this; rfl
  | k + 1, s, h, hk => by
    unfold splitDown
    by_cases hlt : order < k + 1
    · rw [if_pos hlt, addrOf_add]
      have ih := freePages_splitDown order i k (buddyPush s k (addrOf s (i + 2 ^ k)))
        (by omega) (by omega)
      rw [show addrOf (buddyPush s k (addrOf s (i + 2 ^ k))) i = addrOf s i from rfl] at ih
      rw [ih, freePages_push s k _ (by omega), pageIdx_addrOf, blockPages_succ]
      abel
    · have : order = k + 1 := by omega
      subst this; rw [if_neg hlt]

theorem mem_splitDown (order i j a : Nat) : ∀ (k : Nat) (s : Pmm),
    a ∈ (splitDown order (addrOf s i) k s).freeLists j →
      a ∈ s.freeLists j ∨ (order ≤ j ∧ j < k ∧ a = addrOf s (i + 2 ^ j))
  | 0, s, h => Or.inl h
  | k + 1, s, h => by
    unfold splitDown at h
    by_cases hlt : order < k + 1
    · rw [if_pos hlt, addrOf_add] at h
      rcases mem_splitDown order i j a k (buddyPush s k (addrOf s (i + 2 ^ k))) h with h | ⟨h1, h2, h3⟩
      · by_cases hjk : j = k
        · subst hjk
          rw [buddyPush, setList_same] at h
          rcases List.mem_cons.mp h with h | h
          · exact Or.inr ⟨by omega, by omega, h⟩
          · exact Or.inl h
        · rw [buddyPush, setList_ne s k _ hjk] at h; exact Or.inl h
      · exact Or.inr ⟨h1, by omega, h3⟩
    · rw [if_neg hlt] at h; exact Or.inl h

/-- What a successful `buddy_alloc` does: one aligned block leaves the free pages. -/
theorem buddyAlloc_some {s s' : Pmm} {order blk : Nat} (hs : BuddyInv s)
    (h : buddyAlloc s order = (s', some blk)) :
    ∃ i, blk = addrOf s i ∧ 2 ^ order ∣ i ∧ i + 2 ^ order ≤ s.totalPages ∧
      freePages s = blockPages order i + freePages s' ∧ SameRest s s' ∧ BuddyInv s' := by
  obtain ⟨hk1, -, -, -⟩ := firstNonempty_spec s (maxOrder + 1 - order) order
  unfold buddyAlloc at h
  generalize firstNonempty s (maxOrder + 1 - order) order = k at h hk1
  by_cases hk : maxOrder < k
  · simp [hk] at h
  simp only [hk, ite_false] at h
  cases hl : s.freeLists k with
  | nil => simp [hl] at h
  | cons b rest =>
    simp only [hl, Prod.mk.injEq, Option.some.injEq] at h
    obtain ⟨hs', rfl⟩ := h
    obtain ⟨hkm, i, rfl, hal, hfit⟩ := hs.lists k b (by simp [hl])
    have hpop := freePages_setList s k rest hkm
    rw [hl, listPages_cons, pageIdx_addrOf, ← add_assoc] at hpop
    have hpop := add_right_cancel hpop
    have hsplit := freePages_splitDown order i k (s.setList k rest) hk1 hkm
    rw [addrOf_setList, hpop, hs'] at hsplit
    have hsame : SameRest s s' := by
      rw [← hs']; exact (SameRest.setList s k rest).trans (sameRest_splitDown _ _ _ _)
    have hle : 2 ^ order ≤ 2 ^ k := Nat.pow_le_pow_right (by decide) hk1
    have hmem : ∀ j a, a ∈ s'.freeLists j →
        a ∈ s.freeLists j ∨ (order ≤ j ∧ j < k ∧ a = addrOf s (i + 2 ^ j)) := by
      intro j a ha
      rw [← hs'] at ha
      rcases mem_splitDown order i j a k (s.setList k rest) ha with ha | ha
      · left
        by_cases hjk : j = k
        · subst hjk; rw [setList_same] at ha; rw [hl]; exact List.mem_cons_of_mem _ ha
        · rwa [setList_ne s k rest hjk] at ha
      · exact Or.inr ha
    have hdvd : ∀ j, j < k → 2 ^ (j + 1) ∣ i := fun j hj => Nat.dvd_trans (pow_dvd_pow 2 hj) hal
    have hlists : ListsOk s' := by
      intro j a ha
      rw [hsame.totalPages]
      simp only [hsame.addrOf]
      rcases hmem j a ha with ha | ⟨h1, h2, rfl⟩
      · exact hs.lists j a ha
      · refine ⟨by omega, _, rfl, aligned_high (hdvd j h2), ?_⟩
        have : 2 ^ (j + 1) ≤ 2 ^ k := Nat.pow_le_pow_right (by decide) h2
        rw [pow_succ] at this; omega
    have hnd : (freePages s' + blockPages order i).Nodup := by rw [hsplit]; exact hs.nodup
    refine ⟨i, rfl, Nat.dvd_trans (pow_dvd_pow 2 hk1) hal, by omega, by rw [← hsplit, add_comm],
      hsame, hsame.geom hs.geom, hlists, (Multiset.nodup_add.mp hnd).1, ?_⟩
    -- a new entry is the upper half of a block whose first page has just been handed out
    have hfirst : ∀ j, addrOf s' i ∉ s'.freeLists j := fun j hj =>
      Multiset.disjoint_left.mp (Multiset.nodup_add.mp hnd).2.2
        (mem_freePages_of hlists hj (self_mem_blockPages j i)) (self_mem_blockPages order i)
    intro j hj x hx hx'
    rw [hsame.addrOf] at hx hx'
    rcases hmem j _ hx with h1 | ⟨-, h2, h3⟩
    · rcases hmem j _ hx' with h1' | ⟨-, h2', h3'⟩
      · exact hs.merged j hj x h1 h1'
      · have := congrArg (· ^^^ 2 ^ j) (addrOf_inj h3')
        simp only [Nat.xor_assoc, Nat.xor_self, Nat.xor_zero, xor_two_pow_high (hdvd j h2')] at this
        rw [this, ← hsame.addrOf] at hx
        exact hfirst j hx
    · rw [addrOf_inj h3, xor_two_pow_high (hdvd j h2), ← hsame.addrOf] at hx'
      exact hfirst j hx'

theorem buddyAlloc_none {s s' : Pmm} {order : Nat} (h : buddyAlloc s order = (s', none)) :
    s' = s ∧ ∀ k, order ≤ k → k ≤ maxOrder → s.freeLists k = [] := by
  obtain ⟨-, -, h3, h4⟩ := firstNonempty_spec s (maxOrder + 1 - order) order
  unfold buddyAlloc at h
  generalize firstNonempty s (maxOrder + 1 - order) order = k at h h3 h4
  by_cases hk : maxOrder < k
  · simp only [hk, ite_true, Prod.mk.injEq, and_true] at h
    exact ⟨h.symm, fun j h1 h2 => h3 j h1 (by omega)⟩
  · simp only [hk, ite_false] at h
    cases hl : s.freeLists k with
    | cons b rest => simp [hl] at h
    | nil =>
      simp only [hl, Prod.mk.injEq, and_true] at h
      refine ⟨h.symm, fun j h1 h2 => ?_⟩
      by_cases hko : k < order + (maxOrder + 1 - order)
      · exact absurd hl (h4 hko)
      · omega

/-! ## Freeing -/

section
variable {s : Pmm} (hs : BuddyInv s)
include hs

/-- The address arithmetic of `buddy_free` stays in range: it flips one bit of the page number. -/
theorem buddyOf_addrOf {order i : Nat} (ho : order ≤ maxOrder) (hal : 2 ^ order ∣ i)
    (hi : i + 2 ^ order ≤ s.totalPages) :
    buddyOf s order (addrOf s i) = addrOf s (i ^^^ 2 ^ order) := by
  have htop := hs.geom.top
  have htot := hs.geom.total
  have hpos := Nat.two_pow_pos order
  have hle : i ^^^ 2 ^ order ≤ i + 2 ^ order := by
    rcases aligned_cases hal with h | ⟨j, rfl, h⟩
    · rw [xor_two_pow_low h]
    · rw [xor_two_pow_high h]; omega
  have ho' : 2 ^ order ≤ 2 ^ maxOrder := Nat.pow_le_pow_right (by decide) ho
  simp only [maxOrder, pageSize, Nat.shiftLeft_eq] at htop htot ho'
  have hsub : sub64 (addrOf s i) s.dataStart = i * pageSize := by
    rw [sub64_eq] <;> simp only [addrOf, pageSize] <;> omega
  have hx : (i * pageSize) ^^^ pageSize <<< order = (i ^^^ 2 ^ order) * pageSize := by
    have h1 : ∀ n, n * pageSize = n <<< 12 := fun n => by rw [Nat.shiftLeft_eq]; rfl
    have h2 : pageSize <<< order = 2 ^ order <<< 12 := by
      simp only [pageSize, Nat.shiftLeft_eq]; ring
    rw [h1, h1, h2, Nat.shiftLeft_xor_distrib]
  rw [buddyOf, hsub, hx, add64_eq]
  · exact Nat.add_comm _ _
  · simp only [pageSize]; omega

theorem BuddyInv.erase {k i : Nat} (h : addrOf s i ∈ s.freeLists k) :
    BuddyInv (s.setList k ((s.freeLists k).erase (addrOf s i))) ∧
      freePages s = blockPages k i + freePages (s.setList k ((s.freeLists k).erase (addrOf s i))) := by
  have hfp : freePages s =
      blockPages k i + freePages (s.setList k ((s.freeLists k).erase (addrOf s i))) := by
    have := freePages_setList s k ((s.freeLists k).erase (addrOf s i)) (hs.lists k _ h).1
    rw [listPages, bag_erase _ h, pageIdx_addrOf, ← add_assoc] at this
    rw [← add_right_cancel this, add_comm]
  have hsub : ∀ j a, a ∈ (s.setList k ((s.freeLists k).erase (addrOf s i))).freeLists j →
      a ∈ s.freeLists j := by
    intro j a ha
    by_cases hj : j = k
    · subst hj; rw [setList_same] at ha; exact List.mem_of_mem_erase ha
    · rwa [setList_ne s k _ hj] at ha
  have hnd := hs.nodup
  rw [hfp] at hnd
  refine ⟨⟨(SameRest.setList s k _).geom hs.geom, fun j a ha => hs.lists j a (hsub j a ha),
    (Multiset.nodup_add.mp hnd).2.1, fun j hj x hx hx' => hs.merged j hj x (hsub j _ hx) (hsub j _ hx')⟩, hfp⟩

end

/-- The merging loop collects the block and the free buddies it meets into one block
whose own buddy is not free. -/
theorem coalesce_spec : ∀ (fuel : Nat) (s : Pmm) (order i : Nat), BuddyInv s →
    order + fuel = maxOrder → 2 ^ order ∣ i → i + 2 ^ order ≤ s.totalPages →
    (freePages s + blockPages order i).Nodup →
    ∃ s' o j, coalesce fuel s order (addrOf s i) = (s', o, addrOf s j) ∧ SameRest s s' ∧
      BuddyInv s' ∧ o ≤ maxOrder ∧ 2 ^ o ∣ j ∧ j + 2 ^ o ≤ s.totalPages ∧
      freePages s' + blockPages o j = freePages s + blockPages order i ∧
      (o < maxOrder → addrOf s' (j ^^^ 2 ^ o) ∉ s'.freeLists o)
  | 0, s, order, i, hs, hf, hal, hfit, hnd => by
    have : order = maxOrder := by omega
    subst this
    exact ⟨s, maxOrder, i, rfl, SameRest.refl s, hs, Nat.le_refl _, hal, hfit, rfl, fun h => by omega⟩
  | fuel + 1, s, order, i, hs, hf, hal, hfit, hnd => by
    unfold coalesce
    rw [buddyOf_addrOf hs (by omega) hal hfit]
    by_cases hb : addrOf s (i ^^^ 2 ^ order) ∈ s.freeLists order
    · rw [if_pos hb]
      obtain ⟨hs1, hfp⟩ := hs.erase hb
      obtain ⟨hal', hjoin⟩ := xor_two_pow_aligned hal
      have hbfit : (i ^^^ 2 ^ order) + 2 ^ order ≤ s.totalPages := by
        obtain ⟨-, j, hj, -, hjf⟩ := hs.lists order _ hb
        rw [addrOf_inj hj]; exact hjf
      have haddr : (if addrOf s (i ^^^ 2 ^ order) < addrOf s i then addrOf s (i ^^^ 2 ^ order)
          else addrOf s i) = addrOf s (min i (i ^^^ 2 ^ order)) := by
        by_cases hlt : addrOf s (i ^^^ 2 ^ order) < addrOf s i
        · rw [if_pos hlt, Nat.min_eq_right]
          simp only [addrOf, pageSize] at hlt; omega
        · rw [if_neg hlt, Nat.min_eq_left]
          simp only [addrOf, pageSize] at hlt; omega
      have hmin : min i (i ^^^ 2 ^ order) + 2 ^ (order + 1) ≤ s.totalPages := by
        rcases aligned_cases hal with h | ⟨j, rfl, h⟩
        · rw [xor_two_pow_low h] at hbfit ⊢
          rw [pow_succ]; omega
        · rw [xor_two_pow_high h] at hbfit ⊢
          rw [pow_succ]; omega
      have hsum : freePages (s.setList order ((s.freeLists order).erase (addrOf s (i ^^^ 2 ^ order)))) +
          blockPages (order + 1) (min i (i ^^^ 2 ^ order)) = freePages s + blockPages order i := by
        rw [← hjoin, hfp]; abel
      obtain ⟨s', o, j, he, hsame, hs', ho, hja, hjf, hpages, hstop⟩ :=
        coalesce_spec fuel _ (order + 1) (min i (i ^^^ 2 ^ order)) hs1 (by omega) hal' hmin
          (by rw [hsum]; exact hnd)
      rw [haddr]
      exact ⟨s', o, j, he, (SameRest.setList s order _).trans hsame, hs', ho, hja, hjf,
        hpages.trans hsum, hstop⟩
    · rw [if_neg hb]
      exact ⟨s, order, i, rfl, SameRest.refl s, hs, by omega, hal, hfit, rfl, fun _ => hb⟩

/-- What `buddy_free` does: one aligned block that was not free joins the free pages. -/
theorem buddyFree_spec {s : Pmm} {order i : Nat} (hs : BuddyInv s) (ho : order ≤ maxOrder)
    (hal : 2 ^ order ∣ i) (hfit : i + 2 ^ order ≤ s.totalPages)
    (hnd : (freePages s + blockPages order i).Nodup) :
    freePages (buddyFree s order (addrOf s i)) = freePages s + blockPages order i ∧
      SameRest s (buddyFree s order (addrOf s i)) ∧ BuddyInv (buddyFree s order (addrOf s i)) := by
  obtain ⟨s', o, j, he, hsame, hs', ho', hja, hjf, hpages, hstop⟩ :=
    coalesce_spec (maxOrder - order) s order i hs (by omega) hal hfit hnd
  have hpush : buddyFree s order (addrOf s i) = buddyPush s' o (addrOf s' j) := by
    simp only [buddyFree, he, hsame.addrOf]
  have hfp : freePages (buddyPush s' o (addrOf s' j)) = freePages s + blockPages order i := by
    rw [freePages_push s' o _ ho', pageIdx_addrOf, ← hpages, add_comm]
  rw [hpush]
  refine ⟨hfp, hsame.trans (SameRest.setList s' o _), (SameRest.setList s' o _).geom hs'.geom, ?_,
    by rw [hfp]; exact hnd, ?_⟩
  · intro k a ha
    by_cases hk : k = o
    · subst hk
      rw [buddyPush, setList_same] at ha
      rcases List.mem_cons.mp ha with rfl | ha
      · exact ⟨ho', j, rfl, hja, by rw [buddyPush, setList_totalPages, hsame.totalPages]; exact hjf⟩
      · exact hs'.lists k a ha
    · rw [buddyPush, setList_ne s' o _ hk] at ha; exact hs'.lists k a ha
  · intro k hk x hx hx'
    simp only [buddyPush, addrOf_setList] at hx hx'
    by_cases hko : k = o
    · subst hko
      rw [setList_same] at hx hx'
      rcases List.mem_cons.mp hx with h | h
      · rw [addrOf_inj h] at hx'
        rcases List.mem_cons.mp hx' with h' | h'
        · have := addrOf_inj h'
          rcases aligned_cases hja with hj | ⟨y, rfl, hj⟩
          · rw [xor_two_pow_low hj] at this
            have := Nat.two_pow_pos k; omega
          · rw [xor_two_pow_high hj] at this
            have := Nat.two_pow_pos k; omega
        · exact hstop hk h'
      · rcases List.mem_cons.mp hx' with h' | h'
        · have hx2 : x = j ^^^ 2 ^ k := by
            rw [← addrOf_inj h', Nat.xor_assoc, Nat.xor_self, Nat.xor_zero]
          rw [hx2] at h; exact hstop hk h
        · exact hs'.merged k hk x h h'
    · rw [setList_ne s' o _ hko] at hx hx'; exact hs'.merged k hk x hx hx'

end NjuOs
