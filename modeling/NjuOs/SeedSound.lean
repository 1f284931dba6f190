import NjuOs.BuddySound

/-!
# Initialisation

`pmm_init` leaves a descriptor table in front of a page-aligned data region and free
lists that cover every data page. The greedy seeding never pushes two buddies: the
lower one would have been pushed at the next order.
-/

namespace NjuOs

/-! ## The data region -/

section
variable (h : Area)

theorem Area.stop_le : h.stop ≤ 2 ^ 64 - 2 ^ 28 := by
  have := h.top
  simp only [pageSize, maxOrder, Nat.shiftLeft_eq] at this
  omega

theorem tabBytes_eq : mul64 ((h.stop - h.start) / pageSize) descBytes =
    (h.stop - h.start) / pageSize * descBytes := by
  have := h.stop_le
  apply mul64_eq
  simp only [pageSize, descBytes]
  omega

theorem dataStartOf_eq : dataStartOf h =
    pageOf (h.start + (h.stop - h.start) / pageSize * descBytes + (pageSize - 1)) := by
  have htop := h.stop_le
  have hle := h.le
  have hin : h.start + (h.stop - h.start) / pageSize * descBytes < 2 ^ 64 - pageSize := by
    simp only [pageSize, descBytes]; omega
  rw [dataStartOf, tabBytes_eq, add64_eq (Nat.lt_of_lt_of_le hin (Nat.sub_le _ _)),
    add64_eq (Nat.add_lt_of_lt_sub hin), sub64_eq (Nat.add_lt_of_lt_sub hin) (by simp [pageSize]),
    Nat.add_sub_assoc (by decide)]

theorem dvd_pageOf (a : Nat) : pageSize ∣ pageOf a := Nat.dvd_mul_left _ _

theorem table_le_dataStart :
    h.start + (h.stop - h.start) / pageSize * descBytes ≤ dataStartOf h := by
  rw [dataStartOf_eq]
  simp only [pageOf, pageSize, descBytes]
  omega

theorem dataEndOf_le : dataEndOf h ≤ h.stop := Nat.div_mul_le_self _ _

theorem dataStartOf_pos (hr : h.room) : 0 < dataStartOf h := by
  have h1 := table_le_dataStart h
  have h2 := dataEndOf_le h
  simp only [Area.room, pageSize, descBytes] at *
  omega

theorem totalPages_eq (hr : h.room) :
    dataEndOf h = dataStartOf h + sub64 (dataEndOf h) (dataStartOf h) / pageSize * pageSize := by
  have hroom : dataStartOf h + pageSize ≤ dataEndOf h := hr
  have htop := h.stop_le
  have hle := dataEndOf_le h
  obtain ⟨a, ha⟩ : pageSize ∣ dataStartOf h := dvd_pageOf _
  obtain ⟨b, hb⟩ : pageSize ∣ dataEndOf h := dvd_pageOf _
  rw [sub64_eq (by omega) (by omega)]
  simp only [pageSize] at *
  omega

theorem table_fits (hr : h.room) :
    h.start + sub64 (dataEndOf h) (dataStartOf h) / pageSize * descBytes ≤ dataStartOf h := by
  have hroom : dataStartOf h + pageSize ≤ dataEndOf h := hr
  have htop := h.stop_le
  have hle := dataEndOf_le h
  have htab := table_le_dataStart h
  rw [sub64_eq (by omega) (by omega)]
  simp only [pageSize, descBytes] at *
  omega

end

/-! ## Seeding -/

section
variable {s : Pmm} (hg : Geom s)
include hg

theorem seed_test_iff {i k : Nat} (hi : i < s.totalPages) (hk : k ≤ maxOrder) :
    (add64 (addrOf s i) (pageSize <<< k) ≤ s.dataEnd ∧
      sub64 (addrOf s i) s.dataStart % pageSize <<< k = 0) ↔
    i + 2 ^ k ≤ s.totalPages ∧ 2 ^ k ∣ i := by
  have htop := hg.top
  have htot := hg.total
  have hle : 2 ^ k ≤ 2 ^ maxOrder := Nat.pow_le_pow_right (by decide) hk
  simp only [maxOrder, pageSize, Nat.shiftLeft_eq, addrOf] at *
  rw [add64_eq (by omega), sub64_eq (by omega) (by omega), Nat.add_sub_cancel_left, htot,
    ← Nat.dvd_iff_mod_eq_zero, Nat.mul_comm i, Nat.mul_dvd_mul_iff_left (by decide)]
  refine and_congr_left fun _ => ?_
  omega

theorem seedOrder_spec {i : Nat} (hi : i < s.totalPages) : ∀ (K : Nat), K ≤ maxOrder →
    seedOrder s.dataStart s.dataEnd (addrOf s i) K ≤ K ∧
    i + 2 ^ seedOrder s.dataStart s.dataEnd (addrOf s i) K ≤ s.totalPages ∧
    2 ^ seedOrder s.dataStart s.dataEnd (addrOf s i) K ∣ i ∧
    ∀ k, seedOrder s.dataStart s.dataEnd (addrOf s i) K < k → k ≤ K →
      ¬ (i + 2 ^ k ≤ s.totalPages ∧ 2 ^ k ∣ i)
  | 0, _ => ⟨Nat.le_refl _, by simp only [seedOrder, pow_zero]; omega, by simp [seedOrder],
      fun k h1 h2 => by omega⟩
  | K + 1, hK => by
    unfold seedOrder
    simp only [seed_test_iff hg hi hK]
    by_cases hc : i + 2 ^ (K + 1) ≤ s.totalPages ∧ 2 ^ (K + 1) ∣ i
    · simp only [if_pos hc]
      exact ⟨Nat.le_refl _, hc.1, hc.2, fun k h1 h2 => by omega⟩
    · simp only [if_neg hc]
      obtain ⟨h1, h2, h3, h4⟩ := seedOrder_spec hi K (by omega)
      refine ⟨by omega, h2, h3, fun k hlt hle => ?_⟩
      rcases Nat.eq_or_lt_of_le hle with rfl | hlt'
      · exact hc
      · exact h4 k hlt (by omega)

end

def Greedy (s : Pmm) : Prop :=
  ∀ k < maxOrder, ∀ j, addrOf s j ∈ s.freeLists k →
    ¬ (j + 2 ^ (k + 1) ≤ s.totalPages ∧ 2 ^ (k + 1) ∣ j)

theorem blockPages_append (i k : Nat) :
    blockPages k i + Multiset.range i = Multiset.range (i + 2 ^ k) := by
  have h0 : ∀ n, Multiset.range n = ((List.range' 0 n : List Nat) : Multiset Nat) := by
    intro n; rw [← List.range_eq_range']; rfl
  rw [h0, h0, blockPages, add_comm, Multiset.coe_add]
  have := @List.range'_append_1 0 i (2 ^ k)
  rw [Nat.zero_add] at this
  rw [this]

/-- The seeding loop from page `i` on, when the pages before it are on the lists. -/
theorem seed_spec : ∀ (fuel : Nat) (s : Pmm) (i : Nat), Geom s → ListsOk s → Greedy s →
    i ≤ s.totalPages → s.totalPages ≤ i + fuel → freePages s = Multiset.range i →
    SameRest s (seed fuel s (addrOf s i)) ∧ ListsOk (seed fuel s (addrOf s i)) ∧
      Greedy (seed fuel s (addrOf s i)) ∧
      freePages (seed fuel s (addrOf s i)) = Multiset.range s.totalPages
  | 0, s, i, hg, hl, hgr, hi, hf, hp => by
    have : i = s.totalPages := by omega
    exact ⟨SameRest.refl s, hl, hgr, by rw [← this]; exact hp⟩
  | fuel + 1, s, i, hg, hl, hgr, hi, hf, hp => by
    have htop := hg.top
    have htot := hg.total
    unfold seed
    by_cases hlt : addrOf s i < s.dataEnd
    · have hi' : i < s.totalPages := by
        simp only [addrOf, htot, pageSize] at hlt; omega
      simp only [hlt, ite_true]
      obtain ⟨ho, hfit, hal, hmax⟩ := seedOrder_spec hg hi' maxOrder (Nat.le_refl _)
      generalize seedOrder s.dataStart s.dataEnd (addrOf s i) maxOrder = o at *
      have hle : 2 ^ o ≤ 2 ^ maxOrder := Nat.pow_le_pow_right (by decide) ho
      have hcur : add64 (addrOf s i) (pageSize <<< o) = addrOf s (i + 2 ^ o) := by
        rw [add64_eq, addrOf_add]
        simp only [addrOf, pageSize, maxOrder, Nat.shiftLeft_eq] at *; omega
      rw [hcur]
      have hpush : SameRest s (buddyPush s o (addrOf s i)) := SameRest.setList s o _
      have hmem : ∀ k a, a ∈ (buddyPush s o (addrOf s i)).freeLists k →
          a ∈ s.freeLists k ∨ (k = o ∧ a = addrOf s i) := by
        intro k a ha
        by_cases hk : k = o
        · subst hk
          rw [buddyPush, setList_same] at ha
          rcases List.mem_cons.mp ha with ha | ha
          · exact Or.inr ⟨rfl, ha⟩
          · exact Or.inl ha
        · rw [buddyPush, setList_ne s o _ hk] at ha; exact Or.inl ha
      have ih := seed_spec fuel (buddyPush s o (addrOf s i)) (i + 2 ^ o) (hpush.geom hg)
        (fun k a ha => by
          rcases hmem k a ha with ha | ⟨rfl, rfl⟩
          · exact hl k a ha
          · exact ⟨ho, i, rfl, hal, hfit⟩)
        (fun k hk j hj => by
          rcases hmem k _ hj with hj | ⟨rfl, hj⟩
          · exact hgr k hk j hj
          · have := addrOf_inj (s := s) hj
            subst this
            exact hmax (k + 1) (by omega) hk)
        hfit
        (by have := Nat.two_pow_pos o
            have : (buddyPush s o (addrOf s i)).totalPages = s.totalPages := rfl
            omega)
        (by rw [freePages_push s o _ ho, pageIdx_addrOf, hp, blockPages_append])
      exact ⟨hpush.trans ih.1, ih.2⟩
    · have hi' : i = s.totalPages := by
        simp only [addrOf, htot, pageSize] at hlt; omega
      simp only [hlt, ite_false]
      exact ⟨SameRest.refl s, hl, hgr, by rw [← hi']; exact hp⟩

theorem merged_of_greedy {s : Pmm} (hl : ListsOk s) (hgr : Greedy s) :
    ∀ k < maxOrder, ∀ i, addrOf s i ∈ s.freeLists k → addrOf s (i ^^^ 2 ^ k) ∉ s.freeLists k := by
  intro k hk i hi hi'
  obtain ⟨-, j, hj, hja, hjf⟩ := hl k _ hi
  obtain ⟨-, j', hj', -, hjf'⟩ := hl k _ hi'
  rw [← addrOf_inj hj] at hja hjf
  rw [← addrOf_inj hj'] at hjf'
  rcases aligned_cases hja with h | ⟨m, rfl, h⟩
  · rw [xor_two_pow_low h] at hjf'
    refine hgr k hk i hi ⟨?_, h⟩
    rw [pow_succ]; omega
  · rw [xor_two_pow_high h] at hi'
    refine hgr k hk m hi' ⟨?_, h⟩
    rw [pow_succ]; omega

def pmmBase (h : Area) : Pmm where
  dataStart := dataStartOf h
  dataEnd := dataEndOf h
  totalPages := sub64 (dataEndOf h) (dataStartOf h) / pageSize
  freeLists := fun _ => []
  pgtab := fun _ => ⟨.free, 0, 0⟩
  caches := fun _ _ => []

theorem geom_pmmBase (h : Area) (hr : h.room) : Geom (pmmBase h) where
  aligned := dvd_pageOf _
  pos := dataStartOf_pos h hr
  total := totalPages_eq h hr
  top := Nat.le_trans (Nat.add_le_add_right (dataEndOf_le h) _) h.top

theorem pmmInit_spec (h : Area) (hr : h.room) :
    SameRest (pmmBase h) (pmmInit h) ∧ BuddyInv (pmmInit h) ∧
      freePages (pmmInit h) = Multiset.range (pmmInit h).totalPages := by
  have hg := geom_pmmBase h hr
  have h0 : addrOf (pmmBase h) 0 = dataStartOf h := by simp [addrOf, pmmBase]
  have hnil : ∀ k, (pmmBase h).freeLists k = [] := fun _ => rfl
  obtain ⟨h1, h2, h3, h4⟩ := seed_spec (pmmBase h).totalPages (pmmBase h) 0 hg
    (fun k a ha => by rw [hnil] at ha; cases ha) (fun k _ j hj => by rw [hnil] at hj; cases hj)
    (Nat.zero_le _) (by omega) (by simp [freePages, hnil])
  rw [h0] at h1 h2 h3 h4
  have hinit : pmmInit h = seed (pmmBase h).totalPages (pmmBase h) (dataStartOf h) := rfl
  rw [← hinit] at h1 h2 h3 h4
  rw [← h1.totalPages] at h4
  refine ⟨h1, ⟨h1.geom hg, h2, ?_, merged_of_greedy h2 h3⟩, h4⟩
  rw [h4]; exact Multiset.nodup_range _

end NjuOs
