import Mathlib.Tactic
import Mathlib.Data.Nat.Bitwise

/-!
# Dyadic blocks

The block of order `k` at `i` is `i, …, i + 2 ^ k - 1`; it is aligned when
`2 ^ k ∣ i`, and its buddy is at `i ^^^ 2 ^ k`. Aligned blocks are nested or
disjoint. A tiling without two buddies is the only one of the set it covers
(`Tiling.ext`): a block belongs to it exactly when it is covered and its parent
is not.
-/

namespace NjuOs

/-- The members of a block, as a multiset so that covering a page twice shows. -/
def blockPages (k i : Nat) : Multiset Nat := (List.range' i (2 ^ k) : List Nat)

theorem mem_blockPages {k i p : Nat} : p ∈ blockPages k i ↔ i ≤ p ∧ p < i + 2 ^ k := by
  simp [blockPages]

theorem self_mem_blockPages (k i : Nat) : i ∈ blockPages k i := by
  have := Nat.two_pow_pos k
  rw [mem_blockPages]; omega

theorem blockPages_succ (k i : Nat) :
    blockPages (k + 1) i = blockPages k i + blockPages k (i + 2 ^ k) := by
  unfold blockPages
  rw [Multiset.coe_add, List.range'_append_1, pow_succ, Nat.mul_two]

/-! ## Buddies -/

theorem xor_two_pow_low {k i : Nat} (h : 2 ^ (k + 1) ∣ i) : i ^^^ 2 ^ k = i + 2 ^ k := by
  obtain ⟨m, rfl⟩ := h
  have he : (2 ^ (k + 1) * m) = (2 * m) <<< k := by rw [Nat.shiftLeft_eq, pow_succ]; ring
  have h1 : (2 ^ k : Nat) = 1 <<< k := by rw [Nat.shiftLeft_eq, one_mul]
  rw [he, h1, ← Nat.shiftLeft_xor_distrib, Nat.xor_one_of_even (even_two_mul m)]
  simp only [Nat.shiftLeft_eq]; ring

theorem xor_two_pow_high {k i : Nat} (h : 2 ^ (k + 1) ∣ i) : (i + 2 ^ k) ^^^ 2 ^ k = i := by
  rw [← xor_two_pow_low h, Nat.xor_assoc, Nat.xor_self, Nat.xor_zero]

theorem aligned_of_succ {k i : Nat} (h : 2 ^ (k + 1) ∣ i) : 2 ^ k ∣ i :=
  Nat.dvd_trans (pow_dvd_pow 2 (Nat.le_succ k)) h

theorem aligned_high {k i : Nat} (h : 2 ^ (k + 1) ∣ i) : 2 ^ k ∣ i + 2 ^ k :=
  (Nat.dvd_add_right (aligned_of_succ h)).mpr (Nat.dvd_refl _)

theorem aligned_cases {k i : Nat} (h : 2 ^ k ∣ i) :
    2 ^ (k + 1) ∣ i ∨ ∃ j, i = j + 2 ^ k ∧ 2 ^ (k + 1) ∣ j := by
  obtain ⟨m, rfl⟩ := h
  rcases Nat.even_or_odd' m with ⟨c, rfl | rfl⟩
  · left; exact ⟨c, by rw [pow_succ]; ring⟩
  · right; exact ⟨2 ^ (k + 1) * c, by rw [pow_succ]; ring, Nat.dvd_mul_right _ _⟩

theorem xor_two_pow_aligned {k i : Nat} (h : 2 ^ k ∣ i) :
    2 ^ (k + 1) ∣ min i (i ^^^ 2 ^ k) ∧
      blockPages k i + blockPages k (i ^^^ 2 ^ k) = blockPages (k + 1) (min i (i ^^^ 2 ^ k)) := by
  rcases aligned_cases h with h' | ⟨j, rfl, h'⟩
  · rw [xor_two_pow_low h', Nat.min_eq_left (Nat.le_add_right _ _)]
    exact ⟨h', (blockPages_succ k i).symm⟩
  · rw [xor_two_pow_high h', Nat.min_eq_right (Nat.le_add_right _ _), add_comm (blockPages k _)]
    exact ⟨h', (blockPages_succ k j).symm⟩

theorem nested_of_mem {k k' i i' p : Nat} (hk : k ≤ k') (h : 2 ^ k ∣ i) (h' : 2 ^ k' ∣ i')
    (hp : p ∈ blockPages k i) (hp' : p ∈ blockPages k' i') : i' ≤ i ∧ i + 2 ^ k ≤ i' + 2 ^ k' := by
  rw [mem_blockPages] at hp hp'
  obtain ⟨a, rfl⟩ := h
  obtain ⟨b, rfl⟩ := h'
  obtain ⟨d, rfl⟩ := Nat.exists_eq_add_of_le hk
  have hpos := Nat.two_pow_pos k
  rw [pow_add, mul_assoc] at *
  have h1 : 2 ^ d * b ≤ a := by
    by_contra hlt
    have : 2 ^ k * (a + 1) ≤ 2 ^ k * (2 ^ d * b) := Nat.mul_le_mul_left _ (by omega)
    rw [Nat.mul_add] at this; omega
  have h2 : a + 1 ≤ 2 ^ d * b + 2 ^ d := by
    by_contra hlt
    have : 2 ^ k * (2 ^ d * b + 2 ^ d) ≤ 2 ^ k * a := Nat.mul_le_mul_left _ (by omega)
    rw [Nat.mul_add] at this; omega
  refine ⟨Nat.mul_le_mul_left _ h1, ?_⟩
  have := Nat.mul_le_mul_left (2 ^ k) h2
  rwa [Nat.mul_add, Nat.mul_add, Nat.mul_one] at this

theorem eq_of_mem_same {k i i' p : Nat} (h : 2 ^ k ∣ i) (h' : 2 ^ k ∣ i')
    (hp : p ∈ blockPages k i) (hp' : p ∈ blockPages k i') : i = i' := by
  have h1 := nested_of_mem (Nat.le_refl k) h h' hp hp'
  omega

/-! ## Tilings -/

def Covers (B : Set (Nat × Nat)) (p : Nat) : Prop := ∃ b ∈ B, p ∈ blockPages b.1 b.2

/-- Disjoint aligned blocks of order at most `K`, no two of them buddies below `K`. -/
structure Tiling (K : Nat) (B : Set (Nat × Nat)) : Prop where
  le : ∀ b ∈ B, b.1 ≤ K
  aligned : ∀ b ∈ B, 2 ^ b.1 ∣ b.2
  disjoint : ∀ b ∈ B, ∀ b' ∈ B, ∀ p, p ∈ blockPages b.1 b.2 → p ∈ blockPages b'.1 b'.2 → b = b'
  merged : ∀ k < K, ∀ i, (k, i) ∈ B → (k, i ^^^ 2 ^ k) ∉ B

section
variable {K : Nat} {B B' : Set (Nat × Nat)}

theorem Tiling.covering (hB : Tiling K B) : ∀ (k i : Nat), k ≤ K → 2 ^ k ∣ i →
    (∀ p ∈ blockPages k i, Covers B p) →
    ∃ b ∈ B, k ≤ b.1 ∧ b.2 ≤ i ∧ i + 2 ^ k ≤ b.2 + 2 ^ b.1
  | 0, i, _, hi, hc => by
    obtain ⟨b, hb, hp⟩ := hc i (self_mem_blockPages 0 i)
    exact ⟨b, hb, Nat.zero_le _, nested_of_mem (Nat.zero_le _) hi (hB.aligned b hb)
      (self_mem_blockPages 0 i) hp⟩
  | k + 1, i, hk, hi, hc => by
    -- two halves that lie in blocks of just their own order would be buddies
    rw [blockPages_succ] at hc
    obtain ⟨b, hb, hbk, hb1⟩ := hB.covering k i (by omega) (aligned_of_succ hi)
      fun p hp => hc p (Multiset.mem_add.mpr (Or.inl hp))
    obtain ⟨b', hb', hbk', hb1'⟩ := hB.covering k (i + 2 ^ k) (by omega) (aligned_high hi)
      fun p hp => hc p (Multiset.mem_add.mpr (Or.inr hp))
    have inside : ∀ c ∈ B, k + 1 ≤ c.1 → ∀ p ∈ blockPages (k + 1) i, p ∈ blockPages c.1 c.2 →
        ∃ b ∈ B, k + 1 ≤ b.1 ∧ b.2 ≤ i ∧ i + 2 ^ (k + 1) ≤ b.2 + 2 ^ b.1 :=
      fun c hcB hle p hp hpc => ⟨c, hcB, hle, nested_of_mem hle hi (hB.aligned c hcB) hp hpc⟩
    have hpos := Nat.two_pow_pos k
    rcases Nat.lt_or_ge k b.1 with hlt | hge
    · exact inside b hb hlt i (self_mem_blockPages _ _) (mem_blockPages.mpr (by omega))
    rcases Nat.lt_or_ge k b'.1 with hlt' | hge'
    · refine inside b' hb' hlt' (i + 2 ^ k) (mem_blockPages.mpr ?_) (mem_blockPages.mpr (by omega))
      rw [pow_succ]; omega
    obtain ⟨kb, ib⟩ := b
    obtain ⟨kb', ib'⟩ := b'
    simp only at hbk hb1 hge hbk' hb1' hge'
    obtain rfl : kb = k := by omega
    obtain rfl : kb' = kb := by omega
    obtain rfl : ib = i := by omega
    obtain rfl : ib' = ib + 2 ^ kb' := by omega
    have := hB.merged kb' (by omega) ib hb
    rw [xor_two_pow_low hi] at this
    exact absurd hb' this

/-- A tiling is read off from the set it covers. -/
theorem Tiling.mem_iff (hB : Tiling K B) (k i : Nat) : (k, i) ∈ B ↔
    k ≤ K ∧ 2 ^ k ∣ i ∧ (∀ p ∈ blockPages k i, Covers B p) ∧
      (k < K → ¬ ∀ p ∈ blockPages (k + 1) (min i (i ^^^ 2 ^ k)), Covers B p) := by
  constructor
  · intro hb
    have hi : 2 ^ k ∣ i := hB.aligned _ hb
    refine ⟨hB.le _ hb, hi, fun p hp => ⟨_, hb, hp⟩, fun hk hc => ?_⟩
    obtain ⟨ha, hs⟩ := xor_two_pow_aligned hi
    obtain ⟨b, hbB, hle, h1, h2⟩ := hB.covering _ _ hk ha hc
    -- the block inside which the parent lies also contains `i`, so it is `(k, i)` itself
    have hi : i ∈ blockPages (k + 1) (min i (i ^^^ 2 ^ k)) := by
      rw [← hs]; exact Multiset.mem_add.mpr (Or.inl (self_mem_blockPages _ _))
    rw [mem_blockPages] at hi
    have := hB.disjoint _ hb b hbB i (self_mem_blockPages _ _) (mem_blockPages.mpr (by omega))
    rw [← this] at hle
    exact absurd hle (by simp)
  · rintro ⟨hk, ha, hc, hn⟩
    obtain ⟨b, hb, hle, h1, h2⟩ := hB.covering k i hk ha hc
    rcases Nat.eq_or_lt_of_le hle with he | hlt
    · obtain ⟨kb, ib⟩ := b
      obtain rfl : k = kb := he
      have hpos := Nat.two_pow_pos k
      have := eq_of_mem_same ha (hB.aligned _ hb) (self_mem_blockPages k i)
        (mem_blockPages.mpr (by simp only at h1 h2; omega))
      rw [this]; exact hb
    · exfalso
      refine hn (Nat.lt_of_lt_of_le hlt (hB.le b hb)) fun p hp => ⟨b, hb, ?_⟩
      obtain ⟨ha', hs⟩ := xor_two_pow_aligned ha
      have hpos := Nat.two_pow_pos k
      have hi : i ∈ blockPages (k + 1) (min i (i ^^^ 2 ^ k)) := by
        rw [← hs]; exact Multiset.mem_add.mpr (Or.inl (self_mem_blockPages _ _))
      have := nested_of_mem hlt ha' (hB.aligned b hb) hi (mem_blockPages.mpr (by omega))
      rw [mem_blockPages] at hp ⊢
      omega

theorem Tiling.ext (hB : Tiling K B) (hB' : Tiling K B') (h : ∀ p, Covers B p ↔ Covers B' p) :
    B = B' := by
  apply Set.ext
  rintro ⟨k, i⟩
  rw [hB.mem_iff, hB'.mem_iff]
  simp only [h]

end

end NjuOs
