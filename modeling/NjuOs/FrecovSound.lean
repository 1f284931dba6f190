import NjuOs.Frecov

/-!
# Recovery reads the image only

Everything that is read of a directory entry lies in the image because the entry and the
run before it do. The data of a file is read up to the size that its own header gives; it
lies in the image if that size is not above the size that was checked.
-/

namespace NjuOs

def Disk.InImage (d : Disk) (a : Nat) : Prop := d.img ≤ a ∧ a < d.img + d.imgSize

instance (d : Disk) (a : Nat) : Decidable (d.InImage a) := inferInstanceAs (Decidable (_ ∧ _))

/-! ## Sizes of fields -/

theorem leNat_lt (bs : List UInt8) : leNat bs < 256 ^ bs.length := by
  induction bs with
  | nil => simp [leNat]
  | cons b bs ih =>
    have hb := b.toNat_lt
    rw [leNat, List.length_cons, Nat.pow_succ]
    omega

theorem Disk.field_lt (d : Disk) (off n : Nat) : d.field off n < 256 ^ n := by
  have h := leNat_lt ((List.range n).map fun i => d.file.getD (off + i) 0)
  simpa [Disk.field] using h

section
variable {d : Disk}

theorem Disk.imgSize_lt : d.imgSize < 2 ^ 48 := by
  have h1 : d.totSec32 < 2 ^ 32 := d.field_lt 32 4
  have h2 : d.bytsPerSec < 2 ^ 16 := d.field_lt 11 2
  have h3 : d.totSec32 * d.bytsPerSec < 2 ^ 32 * 2 ^ 16 := Nat.mul_lt_mul'' h1 h2
  rw [Disk.imgSize, mul64_eq (by omega)]
  exact h3

theorem Disk.clusSize_lt : d.clusSize < 2 ^ 24 := by
  have h1 : d.bytsPerSec < 2 ^ 16 := d.field_lt 11 2
  have h2 : d.secPerClus < 2 ^ 8 := d.field_lt 13 1
  have h3 : d.bytsPerSec * d.secPerClus < 2 ^ 16 * 2 ^ 8 := Nat.mul_lt_mul'' h1 h2
  unfold Disk.clusSize
  omega

/-- No cluster number takes the pointer out of the upper half, where sums do not wrap. -/
theorem Disk.clusterPtr_lt (n : Nat) : d.clusterPtr n < 2 ^ 63 + 2 ^ 57 := by
  have himg := d.img_high
  have hsec : d.dataStartSec < 2 ^ 32 := Nat.mod_lt _ (by norm_num)
  have hbyt : d.bytsPerSec < 2 ^ 16 := d.field_lt 11 2
  have hclus := d.clusSize_lt
  have hn : (n + (2 ^ 32 - 2)) % 2 ^ 32 < 2 ^ 32 := Nat.mod_lt _ (by norm_num)
  have h1 : d.dataStartSec * d.bytsPerSec < 2 ^ 32 * 2 ^ 16 := Nat.mul_lt_mul'' hsec hbyt
  have h2 : (n + (2 ^ 32 - 2)) % 2 ^ 32 * d.clusSize < 2 ^ 32 * 2 ^ 24 := Nat.mul_lt_mul'' hn hclus
  have hbase : d.dataBase = d.img + d.dataStartSec * d.bytsPerSec := by
    rw [Disk.dataBase, mul64_eq (by omega), add64_eq (by omega)]
  rw [Disk.clusterPtr, mul64_eq (by omega), add64_eq (by omega), hbase]
  omega

theorem Disk.Mapped.img_end (h : d.Mapped) : d.img + d.imgSize ≤ 2 ^ 63 := by
  rw [h.2.2]
  exact d.img_high

theorem Disk.inside (h : d.Mapped) {clus size : Nat} (hsize : size ≤ d.imgSize)
    (hin : ¬d.outside (d.clusterPtr clus) size) :
    d.img ≤ d.clusterPtr clus ∧ d.clusterPtr clus + size ≤ d.img + d.imgSize := by
  have hend := h.img_end
  have hptr := d.clusterPtr_lt clus
  have hlt := d.imgSize_lt
  unfold Disk.outside at hin
  rw [add64_eq (by omega), add64_eq (by omega)] at hin
  omega

/-! ## Directory entries -/

variable {m : Nat → UInt8} {P : Nat → Prop}

theorem reads_loadLE {a n : Nat} (h : ∀ j, j < n → P (a + j)) :
    Reads P m (loadLE a n) fun v => v = leNat ((List.range n).map fun j => m (a + j)) := by
  refine Reads.bind (reads_loadAll fun j hj => h j (by omega)) fun bs hbs => Reads.pure ?_
  rw [hbs, List.range_eq_range']

theorem reads_lfnChars {l : Nat} (h : ∀ j, j < 32 → P (l + j)) {os : List Nat} (hos : ∀ o ∈ os, o + 2 ≤ 32) :
    Reads P m (lfnChars l os) fun _ => True := by
  induction os with
  | nil => exact Reads.pure trivial
  | cons o os ih =>
    have ho := hos o List.mem_cons_self
    refine Reads.bind (reads_loadLE fun j hj => ?_) fun ch _ => ?_
    · rw [Nat.add_assoc]
      exact h (o + j) (by omega)
    refine Confined.ite (fun _ => Reads.pure trivial) fun _ => ?_
    exact Reads.bind (ih fun o ho => hos o (List.mem_cons_of_mem _ ho)) fun _ _ => Reads.pure trivial

theorem reads_lfnRun {base guard cur : Nat} (h : ∀ a, base ≤ a → a < cur + 32 → P a) :
    Reads P m (lfnRun base guard cur) fun _ => True := by
  induction guard generalizing cur with
  | zero => exact Reads.pure trivial
  | succ guard ih =>
    refine Confined.ite (fun _ => Reads.pure trivial) fun hcur => ?_
    have hent : ∀ j, j < 32 → P (cur + j) := fun j hj => h _ (by omega) (by omega)
    refine Reads.bind (reads_load (hent 11 (by omega))) fun _ _ => ?_
    refine Confined.ite (fun _ => Reads.pure trivial) fun _ => ?_
    refine Reads.bind (reads_load (hent 0 (by omega))) fun _ _ => ?_
    refine Confined.ite (fun _ => Reads.pure trivial) fun _ => ?_
    refine Reads.bind (reads_lfnChars hent (by decide)) fun _ _ => ?_
    refine Reads.bind (reads_load (hent 0 (by omega))) fun _ _ => ?_
    refine Confined.ite (fun _ => Reads.pure trivial) fun _ => ?_
    refine Reads.bind (ih ?_) fun _ _ => Reads.pure trivial
    intro a ha hlt
    by_cases hlow : 32 ≤ cur
    · exact h a ha (by omega)
    · exact h a ha (by omega)

theorem reads_nameChars {sd n i : Nat} (h : ∀ j, j < i + n → P (sd + j)) :
    Reads P m (nameChars sd n i) fun _ => True := by
  induction n generalizing i with
  | zero => exact Reads.pure trivial
  | succ n ih =>
    refine Reads.bind (reads_load (h i (by omega))) fun c _ => ?_
    refine Confined.ite (fun _ => Reads.pure trivial) fun _ => ?_
    exact Reads.bind (ih fun j hj => h j (by omega)) fun _ _ => Reads.pure trivial

theorem reads_shortName {sd : Nat} (h : ∀ j, j < 32 → P (sd + j)) : Reads P m (shortName sd) fun _ => True := by
  refine Reads.bind (reads_nameChars fun j hj => h j (by omega)) fun name _ => ?_
  refine Reads.bind (reads_load (h 8 (by omega))) fun c _ => ?_
  refine Confined.ite (fun _ => Reads.pure trivial) fun _ => ?_
  exact Reads.bind (reads_nameChars fun j hj => h j (by omega)) fun _ _ => Reads.pure trivial

theorem reads_entryName {base sd : Nat} (h : ∀ a, base ≤ a → a < sd + 32 → P a) (hbase : base ≤ sd)
    (hlow : 32 ≤ base) : Reads P m (entryName base sd) fun _ => True := by
  refine Reads.bind (reads_lfnRun fun a ha hlt => h a ha (by omega)) fun long _ => ?_
  refine Confined.ite (fun _ => reads_shortName fun j hj => ?_) fun _ => Reads.pure trivial
  exact h _ (by omega) (by omega)

theorem reads_readBmpEntry {base sd : Nat} (h : ∀ a, base ≤ a → a < sd + 32 → P a) (hbase : base ≤ sd)
    (hlow : 32 ≤ base) : Reads P m (readBmpEntry d base sd) fun r => ∀ e ∈ r, 0 < e.2.2 ∧ e.2.2 ≤ d.imgSize := by
  have hnone : ∀ e ∈ (none : Option (List UInt8 × Nat × Nat)), 0 < e.2.2 ∧ e.2.2 ≤ d.imgSize := fun _ he => nomatch he
  have hent : ∀ j, j < 32 → P (sd + j) := fun j hj => h _ (by omega) (by omega)
  have hfield : ∀ o n, o + n ≤ 32 → ∀ j, j < n → P (sd + o + j) := fun o n ho j hj => by
    rw [Nat.add_assoc]
    exact hent (o + j) (by omega)
  refine Reads.bind (reads_load (hent 11 (by omega))) fun attr _ => ?_
  refine Confined.ite (fun _ => Reads.pure hnone) fun _ => ?_
  refine Confined.ite (fun _ => Reads.pure hnone) fun _ => ?_
  refine Reads.bind (reads_loadLE (hfield 20 2 (by omega))) fun hi _ => ?_
  refine Reads.bind (reads_loadLE (hfield 26 2 (by omega))) fun lo _ => ?_
  refine Reads.bind (reads_loadLE (hfield 28 4 (by omega))) fun fsize _ => ?_
  refine Confined.ite (fun _ => Reads.pure hnone) fun hsize => ?_
  refine Reads.bind (reads_entryName h hbase hlow) fun lname _ => ?_
  refine Confined.ite (fun _ => Reads.pure ?_) fun _ => Reads.pure hnone
  intro e he
  cases he
  dsimp only
  omega

/-! ## Recovery -/

def Disk.entry (d : Disk) (off : Nat) : Option (List UInt8 × Nat × Nat) :=
  if d.cells (d.img + off) = 0 then none else (readBmpEntry d d.img (d.img + off) d.cells).val

def Disk.bfSize (d : Disk) (start : Nat) : Nat := leNat ((List.range 4).map fun j => d.cells (start + 2 + j))

/-- What `bmp_true_size` reads of the data at `start` is in the image, and the size found there is
not between the directory size and one cluster more. -/
def Disk.BmpOk (d : Disk) (start size : Nat) : Prop :=
  d.cells start = 66 → start + 2 ≤ d.img + d.imgSize ∧ (d.cells (start + 1) = 77 →
    start + 6 ≤ d.img + d.imgSize ∧ (d.bfSize start ≤ size ∨ (size + d.clusSize) % 2 ^ 32 < d.bfSize start))

instance (d : Disk) (start size : Nat) : Decidable (d.BmpOk start size) := inferInstanceAs (Decidable (_ → _ ∧ (_ → _)))

def Disk.EntryOk (d : Disk) (off : Nat) : Prop :=
  ∀ e ∈ d.entry off, ¬d.outside (d.clusterPtr e.2.1) e.2.2 → d.BmpOk (d.clusterPtr e.2.1) e.2.2

instance (d : Disk) (off : Nat) : Decidable (d.EntryOk off) := inferInstanceAs (Decidable (∀ _ ∈ _, _ → _))

def Disk.Honest (d : Disk) : Prop := ∀ i, i < d.imgSize / 32 → d.EntryOk (32 * i)

instance (d : Disk) : Decidable d.Honest := inferInstanceAs (Decidable (∀ i, i < _ → _))

def Disk.trueSize (d : Disk) (start size : Nat) : Nat :=
  if d.cells start = 66 ∧ d.cells (start + 1) = 77 ∧ d.bfSize start ≠ 0 ∧
    d.bfSize start ≤ (size + d.clusSize) % 2 ^ 32 then d.bfSize start else size

theorem looks_bmpTrueSize (start size : Nat) : Looks P d.cells (bmpTrueSize d start size) (d.trueSize start size)
    (P start ∧ (d.cells start = 66 → P (start + 1) ∧ (d.cells (start + 1) = 77 → ∀ j, j < 4 → P (start + 2 + j)))) := by
  refine (Looks.load start).bind ?_
  unfold Disk.trueSize
  by_cases hB : d.cells start = 66
  swap
  · rw [if_pos hB, if_neg fun hc => hB hc.1]
    exact Looks.pure.congr (by simp [hB])
  rw [if_neg (not_not.mpr hB), forall_prop_of_true hB]
  refine (Looks.load (start + 1)).bind ?_
  by_cases hM : d.cells (start + 1) = 77
  swap
  · rw [if_pos hM, if_neg fun hc => hM hc.2.1]
    exact Looks.pure.congr (by simp [hM])
  rw [if_neg (not_not.mpr hM), forall_prop_of_true hM]
  have hbf : Looks P d.cells (loadLE (start + 2) 4) (d.bfSize start) (∀ j, j < 4 → P (start + 2 + j)) := by
    have h := (looks_loadAll (P := P) (m := d.cells) (start + 2 + ·) 0 4).map (g := leNat)
    rw [← List.range_eq_range'] at h
    simp only [Nat.zero_add] at h
    exact h
  refine (hbf.bind ?_).congr (and_true _).to_iff
  by_cases hc : d.bfSize start = 0 ∨ (size + d.clusSize) % 2 ^ 32 < d.bfSize start
  · rw [if_pos hc, if_neg fun h => by omega]
    exact Looks.pure
  · rw [if_neg hc, if_pos ⟨hB, hM, by omega, by omega⟩]
    exact Looks.pure

theorem bmpOk_iff {start size : Nat} (himg : d.img ≤ start) (hend : start + size ≤ d.img + d.imgSize) (hpos : 0 < size) :
    ((d.InImage start ∧ (d.cells start = 66 → d.InImage (start + 1) ∧
        (d.cells (start + 1) = 77 → ∀ j, j < 4 → d.InImage (start + 2 + j)))) ∧
      ∀ j, j < d.trueSize start size → d.InImage (start + j)) ∧ d.trueSize start size ≤ size ↔ d.BmpOk start size := by
  have hin (n : Nat) : d.InImage (start + n) ↔ start + n < d.img + d.imgSize := ⟨And.right, fun h => ⟨by omega, h⟩⟩
  constructor
  · rintro ⟨⟨⟨-, h⟩, -⟩, hsize⟩ hB
    obtain ⟨h1, h⟩ := h hB
    refine ⟨by have := (hin 1).mp h1; omega, fun hM => ?_⟩
    have h5 := (hin 5).mp (by simpa using h hM 3 (by omega))
    refine ⟨by omega, ?_⟩
    by_contra hno
    rw [Disk.trueSize, if_pos ⟨hB, hM, by omega, by omega⟩] at hsize
    omega
  · intro h
    have hsize : d.trueSize start size ≤ size := by
      unfold Disk.trueSize
      split
      · next hc =>
        have := ((h hc.1).2 hc.2.1).2
        omega
      · exact Nat.le_refl _
    refine ⟨⟨⟨(hin 0).mpr (by omega), fun hB => ⟨(hin 1).mpr (by have := (h hB).1; omega), fun hM j hj => ?_⟩⟩,
      fun j hj => (hin j).mpr (by omega)⟩, hsize⟩
    rw [Nat.add_assoc]
    exact (hin (2 + j)).mpr (by have := ((h hB).2 hM).1; omega)

theorem exact_recoverEntry (h : d.Mapped) {i : Nat} (hi : 32 * i + 32 ≤ d.imgSize) :
    Exact d.InImage d.cells (recoverEntry d (32 * i)) (fun r => ∀ f ∈ r, f.real ≤ f.size) (d.EntryOk (32 * i)) := by
  have hlow := d.img_low
  have hread : Reads d.InImage d.cells (readBmpEntry d d.img (d.img + 32 * i)) _ :=
    reads_readBmpEntry (fun a ha hlt => ⟨ha, by omega⟩) (by omega) (by omega)
  have hsize := hread.2.2.2
  refine (reads_load (show d.InImage (d.img + 32 * i) from ⟨by omega, by omega⟩)).exact ?_
  unfold Disk.EntryOk Disk.entry
  change Exact _ _ (if d.cells (d.img + 32 * i) = 0 then _ else _) _ _
  by_cases hb : d.cells (d.img + 32 * i) = 0
  · rw [if_pos hb, if_pos hb]
    exact (Exact.pure (by simp)).congr (by simp)
  rw [if_neg hb, if_neg hb]
  refine hread.exact ?_
  cases hv : (readBmpEntry d d.img (d.img + 32 * i) d.cells).val with
  | none => exact (Exact.pure (by simp)).congr (by simp)
  | some e =>
    obtain ⟨name, clus, size⟩ := e
    obtain ⟨hpos, hle⟩ := hsize _ hv
    simp only [Option.mem_some_iff, forall_eq']
    by_cases hout : d.outside (d.clusterPtr clus) size
    · rw [if_pos hout]
      exact (Exact.pure (by simp)).congr (by simp [hout])
    · obtain ⟨himg, hend⟩ := Disk.inside h hle hout
      rw [if_neg hout, forall_prop_of_true hout]
      refine ((looks_bmpTrueSize _ size).bind (looks_loadAll _ 0 _).map).exact ?_
      simp only [Option.mem_some_iff, forall_eq', Nat.zero_add]
      exact bmpOk_iff himg hend hpos

theorem exact_recoverFrom (h : d.Mapped) (fuel : Nat) {i : Nat} :
    Exact d.InImage d.cells (recoverFrom d fuel (32 * i)) (fun fs => ∀ f ∈ fs, f.real ≤ f.size)
      (∀ j, i ≤ j → j < i + fuel → 32 * j + 32 ≤ d.imgSize → d.EntryOk (32 * j)) := by
  induction fuel generalizing i with
  | zero => exact (Exact.pure (by simp)).congr (iff_of_true trivial fun j _ _ => by omega)
  | succ fuel ih =>
    by_cases hlt : d.imgSize < 32 * i + 32
    · rw [recoverFrom, if_pos hlt]
      exact (Exact.pure (by simp)).congr (iff_of_true trivial fun j _ _ => by omega)
    · rw [recoverFrom, if_neg hlt]
      have hrest : Exact d.InImage d.cells (recoverFrom d fuel (32 * i + 32)) _ _ := ih (i := i + 1)
      refine ((exact_recoverEntry h (i := i) (by omega)).seq hrest ?_).congr ?_
      · intro r fs
        rw [List.forall_mem_append]
        exact and_congr (by simp [Option.mem_toList]) Iff.rfl
      · constructor
        · rintro ⟨h1, h2⟩ j hj hfuel himg
          rcases Nat.eq_or_lt_of_le hj with rfl | hj
          · exact h1
          · exact h2 j hj (by omega) himg
        · intro hall
          exact ⟨hall i (Nat.le_refl i) (by omega) (by omega), fun j hj hfuel => hall j (by omega) (by omega)⟩

/-- Every byte read lies in the image and no more than the directory size is hashed if and only if
the files that pass the range check have honest data. -/
theorem recover_inside (h : d.Mapped) : d.Honest ↔
    (∀ x ∈ (recover d d.cells).log, d.InImage x.addr) ∧
      ∀ f ∈ (recover d d.cells).val, f.real ≤ f.size := by
  refine Iff.trans ?_ (exact_recoverFrom h (d.imgSize / 32 + 1) (i := 0)).inside.symm
  constructor
  · intro hok j _ _ hj
    exact hok j (by omega)
  · intro hok j hj
    exact hok j (Nat.zero_le j) (by omega) (by omega)

end

/-- A boot sector of 64 sectors of 8 bytes; the entry of `A.BMP` is at offset 128, its eight
bytes of data are the last ones, and their header says `bf`. -/
def bmpByte (bf : UInt8) : Nat → UInt8
  | 11 => 8
  | 13 => 1
  | 32 => 64
  | 128 => 65
  | 129 | 130 | 131 | 132 | 133 | 134 | 135 => 32
  | 136 => 66
  | 137 => 77
  | 138 => 80
  | 139 => 0x20
  | 154 => 65
  | 156 => 8
  | 504 => 66
  | 505 => 77
  | 506 => bf
  | 510 => 0x55
  | 511 => 0xaa
  | _ => 0

def bmpDisk (bf : UInt8) : Disk where
  file := (List.range 512).map (bmpByte bf)
  img := 4096
  rest := fun _ => 0
  img_low := Nat.le_refl _
  img_high := by simp

theorem recover_inside_honest : (bmpDisk 8).Mapped ∧ (bmpDisk 8).Honest ∧
    (∀ x ∈ (recover (bmpDisk 8) (bmpDisk 8).cells).log, (bmpDisk 8).InImage x.addr) ∧
      ∀ f ∈ (recover (bmpDisk 8) (bmpDisk 8).cells).val, f.real ≤ f.size := by
  have hmap : (bmpDisk 8).Mapped := by decide +kernel
  have hok : (bmpDisk 8).Honest := by decide +kernel
  exact ⟨hmap, hok, (recover_inside hmap).mp hok⟩

/-- A header that says one cluster more than the directory has the bytes behind the image hashed. -/
theorem recover_overruns : (bmpDisk 16).Mapped ∧
    (∃ x ∈ (recover (bmpDisk 16) (bmpDisk 16).cells).log, ¬(bmpDisk 16).InImage x.addr) ∧
      ∃ f ∈ (recover (bmpDisk 16) (bmpDisk 16).cells).val, f.size = 8 ∧ f.real = 16 := by
  decide +kernel

end NjuOs
