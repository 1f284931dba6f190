import Mathlib.Data.List.GetD
import Mathlib.Data.List.TakeWhile
import NjuOs.FrecovSound

/-!
# Long names

The characters of a long name are appended to `lname` entry by entry, from the one next to
the short entry on. At most 32 entries of 13 characters are read, so `lname` is not overrun
on any image; on a run that is laid out as FAT prescribes it ends up with the name.
-/

namespace NjuOs

open Function List

/-! ## The buffer -/

def InName (lname a : Nat) : Prop := lname ≤ a ∧ a < lname + 512

def text (m : Nat → UInt8) (a n : Nat) : List UInt8 := (List.range n).map fun i => m (a + i)

theorem text_store (m : Nat → UInt8) (a n : Nat) (c : UInt8) :
    text (update m (a + n) c) a (n + 1) = text m a n ++ [c] := by
  unfold text
  rw [range_succ, map_append, map_singleton, update_self]
  congr 1
  refine map_congr_left fun i hi => update_of_ne ?_ _ _
  have := mem_range.mp hi
  omega

theorem text_cons (m : Nat → UInt8) (a n : Nat) : text m a (n + 1) = m a :: text m (a + 1) n := by
  unfold text
  rw [range_succ_eq_map, map_cons, map_map, Nat.add_zero]
  congr 1
  refine map_congr_left fun i _ => congrArg m ?_
  change a + (i + 1) = a + 1 + i
  omega

structure Appends (lname : Nat) (m : Nat → UInt8) (pos n pos' : Nat) (cs : List UInt8) (m' : Nat → UInt8) :
    Prop where
  pos_eq : pos' = pos + cs.length
  length_le : cs.length ≤ n
  text_eq : text m' lname pos' = text m lname pos ++ cs

section
variable {lname pos n pos' : Nat} {m m1 m2 : Nat → UInt8} {cs ds : List UInt8} {c : UInt8}

theorem Appends.nil : Appends lname m pos n pos [] m := ⟨rfl, Nat.zero_le _, (append_nil _).symm⟩

theorem Appends.cons (h : Appends lname (update m (lname + pos) c) (pos + 1) n pos' cs m2) :
    Appends lname m pos (n + 1) pos' (c :: cs) m2 where
  pos_eq := by
    rw [h.pos_eq, length_cons]
    omega
  length_le := Nat.succ_le_succ h.length_le
  text_eq := by rw [h.text_eq, text_store, append_assoc, singleton_append]

theorem Appends.trans {n' pos'' : Nat} (h : Appends lname m pos n pos' cs m1)
    (h' : Appends lname m1 pos' n' pos'' ds m2) : Appends lname m pos (n + n') pos'' (cs ++ ds) m2 where
  pos_eq := by rw [h'.pos_eq, h.pos_eq, length_append, Nat.add_assoc]
  length_le := by
    rw [length_append]
    exact Nat.add_le_add h.length_le h'.length_le
  text_eq := by rw [h'.text_eq, h.text_eq, append_assoc]

theorem Appends.mono {n' : Nat} (h : Appends lname m pos n pos' cs m1) (hn : n ≤ n') :
    Appends lname m pos n' pos' cs m1 :=
  ⟨h.pos_eq, Nat.le_trans h.length_le hn, h.text_eq⟩

end

section
variable {lname : Nat} {m m1 : Nat → UInt8}

theorem refines_loadLE {a n : Nat} (hm : ∀ i, ¬InName lname i → m1 i = m i) (h : ∀ j, j < n → ¬InName lname (a + j)) :
    Refines (InName lname) m m1 (loadLE a n) (loadLE a n) fun b c m2 => b = c ∧ m2 = m1 := by
  refine Refines.bind (refines_loadAll hm fun j hj => h j (by omega)) fun bs cs m2 hm2 hbcs => ?_
  obtain ⟨rfl, rfl⟩ := hbcs
  exact Refines.pure hm2 ⟨rfl, rfl⟩

theorem refines_lfnChars {l : Nat} (hl : ∀ j, j < 32 → ¬InName lname (l + j)) :
    ∀ (os : List Nat) (pos : Nat) {m1 : Nat → UInt8}, (∀ o ∈ os, o + 2 ≤ 32) → pos + os.length < 512 →
      (∀ i, ¬InName lname i → m1 i = m i) →
      Refines (InName lname) m m1 (lfnCharsAt l lname os pos) (lfnChars l os) (Appends lname m1 pos os.length)
  | [], pos, m1, _, _, hm => Refines.pure hm Appends.nil
  | o :: os, pos, m1, hos, hpos, hm => by
    have ho := hos o mem_cons_self
    rw [length_cons] at hpos
    refine Refines.bind (refines_loadLE hm fun j hj => ?_) fun ch ch' m2 hm2 hch => ?_
    · rw [Nat.add_assoc]
      exact hl (o + j) (by omega)
    obtain ⟨rfl, rfl⟩ := hch
    refine Refines.ite (fun _ => Refines.pure hm2 Appends.nil) fun _ => ?_
    refine Refines.step hm2 (confined_store ⟨by omega, by omega⟩) fun _ m3 hm3 hstore => ?_
    have hrest := refines_lfnChars hl os (pos + 1) (fun o ho => hos o (mem_cons_of_mem _ ho)) (by omega) hm3
    refine hrest.map fun pos' cs m4 h => ?_
    rw [hstore] at h
    exact h.cons

theorem refines_lfnRun {base : Nat} : ∀ (guard cur pos : Nat) {m1 : Nat → UInt8},
    (∀ a, base ≤ a → a < cur + 32 → ¬InName lname a) → pos + 13 * guard < 512 →
    (∀ i, ¬InName lname i → m1 i = m i) →
    Refines (InName lname) m m1 (lfnRunAt base lname guard cur pos) (lfnRun base guard cur)
      (Appends lname m1 pos (13 * guard))
  | 0, cur, pos, m1, _, _, hm => Refines.pure hm Appends.nil
  | guard + 1, cur, pos, m1, hrun, hpos, hm => by
    refine Refines.ite (fun _ => Refines.pure hm Appends.nil) fun hcur => ?_
    have hent : ∀ j, j < 32 → ¬InName lname (cur + j) := fun j hj => hrun _ (by omega) (by omega)
    refine Refines.bind (refines_load hm (hent 11 (by omega))) fun attr attr' m2 hm2 h => ?_
    obtain ⟨rfl, rfl⟩ := h
    refine Refines.ite (fun _ => Refines.pure hm2 Appends.nil) fun _ => ?_
    refine Refines.bind (refines_load hm2 (hent 0 (by omega))) fun ord ord' m3 hm3 h => ?_
    obtain ⟨rfl, rfl⟩ := h
    refine Refines.ite (fun _ => Refines.pure hm3 Appends.nil) fun _ => ?_
    have hchars := refines_lfnChars hent lfnOffsets pos (by decide) (by simp [lfnOffsets]; omega) hm3
    refine Refines.bind hchars fun pos' cs m4 hm4 h => ?_
    refine Refines.bind (refines_load hm4 (hent 0 (by omega))) fun ord2 ord2' m5 hm5 h2 => ?_
    obtain ⟨rfl, rfl⟩ := h2
    have hn : lfnOffsets.length = 13 := rfl
    have hlen := h.length_le
    have hpos' := h.pos_eq
    rw [hn] at h hlen
    refine Refines.ite (fun _ => Refines.pure hm5 (h.mono (by omega))) fun _ => ?_
    have hrest := refines_lfnRun guard (cur - 32) pos' (fun a ha hlt => hrun a ha (by omega)) (by omega) hm5
    refine hrest.map fun pos'' ds m6 h' => (h.trans h').mono ?_
    omega

theorem refines_nameChars {sd : Nat} (hsd : ∀ j, j < 32 → ¬InName lname (sd + j)) :
    ∀ (n : Nat) {i k : Nat} {m1 : Nat → UInt8}, i + n < 32 → k + n < 512 → (∀ i, ¬InName lname i → m1 i = m i) →
      Refines (InName lname) m m1 (nameCharsAt sd lname n i k) (nameChars sd n i) (Appends lname m1 k n)
  | 0, i, k, m1, _, _, hm => Refines.pure hm Appends.nil
  | n + 1, i, k, m1, hi, hk, hm => by
    refine Refines.bind (refines_load hm (hsd i (by omega))) fun c c' m2 hm2 h => ?_
    obtain ⟨rfl, rfl⟩ := h
    refine Refines.ite (fun _ => Refines.pure hm2 Appends.nil) fun _ => ?_
    refine Refines.step hm2 (confined_store ⟨by omega, by omega⟩) fun _ m3 hm3 hstore => ?_
    have hrest := refines_nameChars hsd n (i := i + 1) (k := k + 1) (by omega) (by omega) hm3
    refine hrest.map fun k' cs m4 h => ?_
    rw [hstore] at h
    exact h.cons

theorem refines_shortName {sd : Nat} (hsd : ∀ j, j < 32 → ¬InName lname (sd + j))
    (hm : ∀ i, ¬InName lname i → m1 i = m i) :
    Refines (InName lname) m m1 (shortNameAt sd lname) (shortName sd) (Appends lname m1 0 12) := by
  refine Refines.bind (refines_nameChars hsd 8 (by omega) (by omega) hm) fun k cs m2 hm2 h => ?_
  refine Refines.bind (refines_load hm2 (hsd 8 (by omega))) fun c c' m3 hm3 hc => ?_
  obtain ⟨rfl, rfl⟩ := hc
  have hlen := h.length_le
  have hk := h.pos_eq
  refine Refines.ite (fun _ => Refines.pure hm3 (h.mono (by omega))) fun _ => ?_
  refine Refines.step hm3 (confined_store ⟨by omega, by omega⟩) fun _ m4 hm4 hstore => ?_
  have hext := refines_nameChars hsd 3 (i := 8) (k := k + 1) (by omega) (by omega) hm4
  refine hext.map fun k' ds m5 h' => ?_
  rw [hstore] at h'
  exact h.trans h'.cons

structure HoldsName (lname : Nat) (name : List UInt8) (m : Nat → UInt8) : Prop where
  length_lt : name.length < 512
  text_eq : text m lname (name.length + 1) = name ++ [0]

theorem Appends.terminated {n pos : Nat} {cs : List UInt8} {m2 : Nat → UInt8} (h : Appends lname m 0 n pos cs m2)
    (hn : n < 512) : HoldsName lname cs (update m2 (lname + pos) 0) where
  length_lt := Nat.lt_of_le_of_lt h.length_le hn
  text_eq := by
    have hpos : pos = cs.length := h.pos_eq.trans (Nat.zero_add _)
    rw [← hpos, text_store, h.text_eq]
    rfl

theorem refines_entryName {base sd : Nat} (hrun : ∀ a, base ≤ a → a < sd + 32 → ¬InName lname a) (hbase : base ≤ sd)
    (hlow : 32 ≤ base) (hm : ∀ i, ¬InName lname i → m1 i = m i) :
    Refines (InName lname) m m1 (entryNameAt base sd lname) (entryName base sd)
      fun _ name m2 => HoldsName lname name m2 := by
  have hlong := refines_lfnRun 32 (sd - 32) 0 (fun a ha hlt => hrun a ha (by omega)) (by omega) hm
  refine Refines.bind hlong fun pos long m2 hm2 h => ?_
  have hpos := h.pos_eq
  have hlen := h.length_le
  by_cases hnil : long = []
  · -- there is no long name
    rw [hnil] at hpos
    rw [if_pos hnil, if_pos (show pos = 0 from hpos)]
    have hshort := refines_shortName (fun j hj => hrun (sd + j) (by omega) (by omega)) hm2
    refine hshort.last fun k name m3 h' => ?_
    have hk := h'.pos_eq
    have hlen' := h'.length_le
    refine (confined_store ⟨by omega, by omega⟩).mono fun _ m4 hstore => ?_
    rw [hstore]
    exact h'.terminated (by omega)
  · have hne : pos ≠ 0 := by
      rw [hpos, Nat.zero_add]
      exact fun h0 => hnil (length_eq_zero_iff.mp h0)
    rw [if_neg hnil, if_neg hne]
    refine (Refines.pure (R := Appends lname m1 0 (13 * 32)) hm2 h).last fun k name m3 h' => ?_
    have hk := h'.pos_eq
    have hlen' := h'.length_le
    refine (confined_store ⟨by omega, by omega⟩).mono fun _ m4 hstore => ?_
    rw [hstore]
    exact h'.terminated (by omega)

theorem reads_loadCString {P : Nat → Prop} : ∀ (cs : List UInt8) (fuel a : Nat), cs.length < fuel →
    (∀ i, i ≤ cs.length → P (a + i)) → text m a (cs.length + 1) = cs ++ [0] →
    Reads P m (loadCString a fuel) fun s => s = cstring cs
  | _, 0, _, hf, _, _ => absurd hf (Nat.not_lt_zero _)
  | [], fuel + 1, a, _, hP, ht => by
    rw [length_nil, text_cons] at ht
    have h0 : m a = 0 := (List.cons.inj ht).1
    refine Reads.bind (reads_load (hP 0 (Nat.le_refl _))) fun c hc => ?_
    rw [if_pos (hc.trans h0)]
    exact Reads.pure rfl
  | c :: cs, fuel + 1, a, hf, hP, ht => by
    rw [length_cons] at hf hP ht
    rw [text_cons, cons_append] at ht
    obtain ⟨hc, htail⟩ := List.cons.inj ht
    refine Reads.bind (reads_load (hP 0 (Nat.zero_le _))) fun c' hc' => ?_
    obtain rfl : c' = c := hc'.trans hc
    refine Confined.ite (fun h0 => Reads.pure ?_) fun h0 => ?_
    · rw [h0]
      rfl
    · have hP' : ∀ i, i ≤ cs.length → P (a + 1 + i) := fun i hi => by
        rw [Nat.add_assoc, Nat.add_comm 1]
        exact hP (i + 1) (by omega)
      refine Reads.bind (reads_loadCString cs fuel (a + 1) (by omega) hP' htail) fun s hs => Reads.pure ?_
      rw [hs, cstring, cstring, takeWhile_cons, if_pos (decide_eq_true h0)]

/-- The buffer is where the name is kept, and nothing else is stored to. -/
theorem refines_readBmpEntry {d : Disk} {base sd : Nat} (hrun : ∀ a, base ≤ a → a < sd + 32 → ¬InName lname a)
    (hbase : base ≤ sd) (hlow : 32 ≤ base) :
    Refines (InName lname) m m (readBmpEntryAt d base sd lname) (readBmpEntry d base sd) fun r r' _ => r = r' := by
  have hent : ∀ j, j < 32 → ¬InName lname (sd + j) := fun j hj => hrun _ (by omega) (by omega)
  have hfield : ∀ o n, o + n ≤ 32 → ∀ j, j < n → ¬InName lname (sd + o + j) := fun o n ho j hj => by
    rw [Nat.add_assoc]
    exact hent (o + j) (by omega)
  refine Refines.bind (refines_load (fun _ _ => rfl) (hent 11 (by omega))) fun attr _ m1 hm1 h => ?_
  obtain ⟨rfl, -⟩ := h
  refine Refines.ite (fun _ => Refines.pure hm1 rfl) fun _ => ?_
  refine Refines.ite (fun _ => Refines.pure hm1 rfl) fun _ => ?_
  refine Refines.bind (refines_loadLE hm1 (hfield 20 2 (by omega))) fun hi _ m2 hm2 h => ?_
  obtain ⟨rfl, -⟩ := h
  refine Refines.bind (refines_loadLE hm2 (hfield 26 2 (by omega))) fun lo _ m3 hm3 h => ?_
  obtain ⟨rfl, -⟩ := h
  refine Refines.bind (refines_loadLE hm3 (hfield 28 4 (by omega))) fun fsize _ m4 hm4 h => ?_
  obtain ⟨rfl, -⟩ := h
  refine Refines.ite (fun _ => Refines.pure hm4 rfl) fun _ => ?_
  refine Refines.bind (refines_entryName hrun hbase hlow hm4) fun _ name m5 hm5 hname => ?_
  have hlen := hname.length_lt
  have hstring : Reads (InName lname) m5 (loadCString lname 512) fun s => s = cstring name :=
    reads_loadCString name 512 lname hlen (fun i hi => ⟨by omega, by omega⟩) hname.text_eq
  refine Refines.step hm5 hstring fun s m6 hm6 hs => ?_
  rw [hs.2]
  exact Refines.ite (fun _ => Refines.pure hm6 rfl) fun _ => Refines.pure hm6 rfl

end

/-! ## Layout -/

def lfnUnits (units : List Nat) : List Nat :=
  if units.length % 13 = 0 then units else units ++ 0 :: List.replicate (12 - units.length % 13) 0xffff

def lfnCount (units : List Nat) : Nat := (units.length + 12) / 13

def Disk.unit (d : Disk) (a : Nat) : Nat := leNat ((List.range 2).map fun j => d.cells (a + j))

def Disk.lfnEntry (d : Disk) (off k : Nat) : Nat := d.img + off - 32 * (k + 1)

structure Disk.LongRun (d : Disk) (off : Nat) (units : List Nat) : Prop where
  length_pos : 0 < units.length
  length_le : units.length ≤ 255
  valid : ∀ u ∈ units, u ≠ 0 ∧ u ≠ 0xffff
  room : 32 * lfnCount units ≤ off
  inside : off + 32 ≤ d.file.length
  ord : ∀ k, k < lfnCount units → d.cells (d.lfnEntry off k) =
    if k + 1 = lfnCount units then UInt8.ofNat (k + 1) ||| lastLongEntry else UInt8.ofNat (k + 1)
  attr : ∀ k, k < lfnCount units → d.cells (d.lfnEntry off k + 11) = attrLongName
  chars : ∀ k, k < lfnCount units → ∀ j (hj : j < lfnOffsets.length),
    d.unit (d.lfnEntry off k + lfnOffsets[j]) = (lfnUnits units).getD (13 * k + j) 0

structure Disk.FileEntry (d : Disk) (off clus size : Nat) : Prop where
  attr : d.cells (d.img + off + 11) &&& (attrDirectory ||| attrVolumeId) = 0
  clus_eq : d.unit (d.img + off + 20) * 2 ^ 16 + d.unit (d.img + off + 26) = clus
  size_eq : leNat ((List.range 4).map fun j => d.cells (d.img + off + 28 + j)) = size
  clus_ge : 2 ≤ clus
  size_pos : 1 ≤ size
  size_le : size ≤ d.imgSize

structure BmpName (name : List UInt8) : Prop where
  length_ge : 5 ≤ name.length
  length_le : name.length ≤ 255
  ascii : ∀ c ∈ name, c ≠ 0 ∧ c < 128
  ext : ∃ stem ext, name = stem ++ 46 :: ext ∧ ext.map tolower = bytes "bmp"

section
variable {d : Disk} {off : Nat} {units : List Nat} {m : Nat → UInt8} {P : Nat → Prop}

def unitChar (u : Nat) : UInt8 := if u < 128 then UInt8.ofNat u else 63

theorem reads_lfnChars_units {l : Nat} (hP : ∀ j, j < 32 → P (l + j)) : ∀ (os us : List Nat), (∀ o ∈ os, o + 2 ≤ 32) →
    List.Forall₂ (fun o u => leNat ((List.range 2).map fun j => m (l + o + j)) = u) os us →
    Reads P m (lfnChars l os) fun cs => cs = (us.takeWhile fun u => u ≠ 0 ∧ u ≠ 0xffff).map unitChar
  | [], us, _, h => by
    cases h
    exact Reads.pure rfl
  | o :: os, us, hos, h => by
    cases h with
    | @cons _ u _ us hu h =>
    have ho := hos o mem_cons_self
    refine Reads.bind (reads_loadLE fun j hj => ?_) fun ch hch => ?_
    · rw [Nat.add_assoc]
      exact hP (o + j) (by omega)
    obtain rfl : ch = u := hch.trans hu
    refine Confined.ite (fun hend => Reads.pure ?_) fun hend => ?_
    · have hstop : ¬(ch ≠ 0 ∧ ch ≠ 0xffff) := fun h => hend.elim h.1 h.2
      rw [takeWhile_cons, decide_eq_false hstop]
      rfl
    · have hgo : ch ≠ 0 ∧ ch ≠ 0xffff := not_or.mp hend
      have hrest := reads_lfnChars_units hP os us (fun o ho => hos o (mem_cons_of_mem _ ho)) h
      refine Reads.bind hrest fun cs hcs => Reads.pure ?_
      rw [takeWhile_cons, decide_eq_true hgo, hcs]
      rfl

theorem lfnUnits_append (units : List Nat) : ∃ pad, lfnUnits units = units ++ pad ∧
    (units.length % 13 ≠ 0 → pad.head? = some 0) ∧ (lfnUnits units).length = 13 * lfnCount units := by
  unfold lfnUnits lfnCount
  by_cases h : units.length % 13 = 0
  · rw [if_pos h]
    exact ⟨[], (append_nil _).symm, fun hne => absurd h hne, by omega⟩
  · rw [if_neg h]
    refine ⟨_, rfl, fun _ => rfl, ?_⟩
    rw [length_append, length_cons, length_replicate]
    omega

theorem takeWhile_chunk (hvalid : ∀ u ∈ units, u ≠ 0 ∧ u ≠ 0xffff) {k : Nat} (hk : k < lfnCount units) :
    (((lfnUnits units).drop (13 * k)).take 13).takeWhile (fun u => u ≠ 0 ∧ u ≠ 0xffff) =
      (units.drop (13 * k)).take 13 := by
  obtain ⟨pad, hpad, hhead, -⟩ := lfnUnits_append units
  unfold lfnCount at hk
  have hdrop : ∀ u ∈ units.drop (13 * k), decide (u ≠ 0 ∧ u ≠ 0xffff) = true := fun u hu =>
    decide_eq_true (hvalid u (mem_of_mem_drop hu))
  rw [hpad, drop_append_of_le_length (by omega)]
  by_cases hfull : 13 * k + 13 ≤ units.length
  · rw [take_append_of_le_length (by rw [length_drop]; omega), takeWhile_eq_self_iff]
    exact fun u hu => hdrop u (mem_of_mem_take hu)
  · -- the last entry: the terminator is in it
    have hlen : (units.drop (13 * k)).length < 13 := by
      rw [length_drop]
      omega
    obtain ⟨n, hn⟩ : ∃ n, 13 - (units.drop (13 * k)).length = n + 1 := ⟨12 - (units.drop (13 * k)).length, by omega⟩
    obtain ⟨rest, hrest⟩ : ∃ rest, pad = 0 :: rest := by
      have hzero := hhead (by omega)
      cases pad with
      | nil => cases hzero
      | cons c rest => exact ⟨rest, by cases hzero; rfl⟩
    rw [take_append, take_of_length_le (Nat.le_of_lt hlen), hn, hrest, take_succ_cons,
      takeWhile_append_of_pos hdrop, takeWhile_cons]
    simp

theorem Disk.LongRun.count_le (h : d.LongRun off units) : lfnCount units ≤ 20 := by
  have := h.length_le
  unfold lfnCount
  omega

theorem Disk.LongRun.entry_ge (h : d.LongRun off units) {k : Nat} (hk : k < lfnCount units) :
    d.img ≤ d.lfnEntry off k ∧ d.lfnEntry off k + 32 * (k + 1) = d.img + off := by
  have := h.room
  unfold Disk.lfnEntry
  omega

theorem Disk.LongRun.reads_chunk (h : d.LongRun off units) {k : Nat} (hk : k < lfnCount units) :
    Reads (fun _ => True) d.cells (lfnChars (d.lfnEntry off k) lfnOffsets) fun cs =>
      cs = ((units.drop (13 * k)).take 13).map unitChar := by
  obtain ⟨pad, -, -, hlen⟩ := lfnUnits_append units
  have hunits : List.Forall₂ (fun o u => leNat ((List.range 2).map fun j => d.cells (d.lfnEntry off k + o + j)) = u)
      lfnOffsets (((lfnUnits units).drop (13 * k)).take 13) := by
    rw [forall₂_iff_get]
    constructor
    · rw [length_take, length_drop, hlen]
      change 13 = _
      omega
    · intro i hi hi'
      refine (h.chars k hk i hi).trans ?_
      rw [get_eq_getElem, getElem_take, getElem_drop, getD_eq_getElem]
  have hread := reads_lfnChars_units (P := fun _ => True) (fun _ _ => trivial) _ _ (by decide) hunits
  rw [takeWhile_chunk h.valid hk] at hread
  exact hread

/-- The ordinals neither mark an entry as deleted nor hide the flag of the last one. -/
theorem ord_flags : ∀ n, n ≤ 20 → UInt8.ofNat n ≠ 0xe5 ∧ UInt8.ofNat n &&& lastLongEntry = 0 ∧
    UInt8.ofNat n ||| lastLongEntry ≠ 0xe5 ∧ (UInt8.ofNat n ||| lastLongEntry) &&& lastLongEntry ≠ 0 := by
  decide

theorem Disk.LongRun.reads_run (h : d.LongRun off units) : ∀ (n k guard : Nat), lfnCount units = k + n + 1 →
    n < guard → Reads (fun _ => True) d.cells (lfnRun d.img guard (d.lfnEntry off k)) fun cs =>
      cs = (units.drop (13 * k)).map unitChar
  | _, _, 0, _, hg => absurd hg (Nat.not_lt_zero _)
  | n, k, guard + 1, hn, hg => by
    have hk : k < lfnCount units := by omega
    have hge := (h.entry_ge hk).1
    have hcount := h.count_le
    obtain ⟨hlive, hmore, hlive', hlast⟩ := ord_flags (k + 1) (by omega)
    have hord := h.ord k hk
    refine Confined.ite (fun hlt => absurd hge (Nat.not_le_of_lt hlt)) fun _ => ?_
    refine Reads.bind (reads_load trivial) fun a ha => ?_
    refine Confined.ite (fun hne => absurd (ha.trans (h.attr k hk)) hne) fun _ => ?_
    refine Reads.bind (reads_load trivial) fun o ho => ?_
    have ho := ho.trans hord
    have hdel : o ≠ 0xe5 := by
      rw [ho]
      split
      · exact hlive'
      · exact hlive
    refine Confined.ite (fun he => absurd he hdel) fun _ => ?_
    refine Reads.bind (h.reads_chunk hk) fun cs hcs => ?_
    refine Reads.bind (reads_load trivial) fun o' ho' => ?_
    have ho' := ho'.trans hord
    cases n with
    | zero =>
      -- the entry with the flag ends the name
      rw [if_pos hn.symm] at ho'
      refine Confined.ite (fun _ => Reads.pure ?_) fun hne => absurd (ho' ▸ hlast) hne
      rw [hcs, take_of_length_le]
      rw [length_drop]
      unfold lfnCount at hn
      omega
    | succ n =>
      rw [if_neg (by omega)] at ho'
      refine Confined.ite (fun hne => absurd (ho' ▸ hmore) hne) fun _ => ?_
      have hnext : d.lfnEntry off k - 32 = d.lfnEntry off (k + 1) := by
        unfold Disk.lfnEntry
        omega
      rw [hnext]
      refine Reads.bind (h.reads_run n (k + 1) guard (by omega) (by omega)) fun ds hds => Reads.pure ?_
      rw [hcs, hds, ← map_append, Nat.mul_succ, ← drop_drop, take_append_drop]

theorem Disk.LongRun.reads_entryName (h : d.LongRun off units) :
    Reads (fun _ => True) d.cells (entryName d.img (d.img + off)) fun name => name = units.map unitChar := by
  have hpos := h.length_pos
  have hcount := h.count_le
  have hrun := h.reads_run (lfnCount units - 1) 0 32 (by unfold lfnCount; omega) (by omega)
  refine Reads.bind hrun fun long hlong => ?_
  rw [Nat.mul_zero, drop_zero] at hlong
  refine Confined.ite (fun hnil => ?_) fun _ => Reads.pure hlong
  rw [hlong, map_eq_nil_iff] at hnil
  rw [hnil] at hpos
  exact absurd hpos (Nat.lt_irrefl 0)

theorem Disk.FileEntry.reads {clus size : Nat} (h : d.FileEntry off clus size) {name : List UInt8}
    (hname : Reads (fun _ => True) d.cells (entryName d.img (d.img + off)) fun s => s = name) :
    Reads (fun _ => True) d.cells (readBmpEntry d d.img (d.img + off)) fun r =>
      r = if isBmpName (cstring name) then some (cstring name, clus, size) else none := by
  have hlong : ∀ a : UInt8, a &&& (attrDirectory ||| attrVolumeId) = 0 → a &&& attrLongName ≠ attrLongName := by
    intro a ha hl
    have hvolume : attrLongName &&& attrVolumeId = 0 := calc
      attrLongName &&& attrVolumeId = a &&& attrLongName &&& attrVolumeId := by rw [hl]
      _ = a &&& (attrDirectory ||| attrVolumeId) &&& attrVolumeId := by
        rw [UInt8.and_assoc, UInt8.and_assoc]
        rfl
      _ = 0 := by
        rw [ha]
        rfl
    cases hvolume
  refine Reads.bind (reads_load trivial) fun a ha => ?_
  have ha : a &&& (attrDirectory ||| attrVolumeId) = 0 := ha ▸ h.attr
  refine Confined.ite (fun hl => absurd hl (hlong a ha)) fun _ => ?_
  refine Confined.ite (fun hne => absurd ha hne) fun _ => ?_
  refine Reads.bind (reads_loadLE fun _ _ => trivial) fun hi hhi => ?_
  refine Reads.bind (reads_loadLE fun _ _ => trivial) fun lo hlo => ?_
  refine Reads.bind (reads_loadLE fun _ _ => trivial) fun fsize hsize => ?_
  have hclus : hi * 2 ^ 16 + lo = clus := by
    rw [hhi, hlo]
    exact h.clus_eq
  have hsize : fsize = size := hsize.trans h.size_eq
  have hge := h.clus_ge
  have hpos := h.size_pos
  have hle := h.size_le
  refine Confined.ite (fun hbad => absurd hbad (by omega)) fun _ => ?_
  refine Reads.bind hname fun s hs => ?_
  rw [hs, hclus, hsize]
  exact Confined.ite (fun hb => Reads.pure (if_pos hb).symm) fun hb => Reads.pure (if_neg hb).symm

end

theorem BmpName.isBmpName {name : List UInt8} (h : BmpName name) : isBmpName name = true := by
  obtain ⟨stem, ext, hname, hext⟩ := h.ext
  have hlen : ext.length = 3 := by
    have := congrArg List.length hext
    rwa [length_map] at this
  have hdrop : name.drop (name.length - 4) = 46 :: ext := by
    rw [hname, length_append, length_cons, hlen, Nat.add_sub_cancel, drop_left]
  have hge := h.length_ge
  unfold NjuOs.isBmpName
  rw [decide_eq_true_eq, hdrop, map_cons, hext]
  exact ⟨hge, by decide⟩

theorem BmpName.cstring {name : List UInt8} (h : BmpName name) : cstring name = name := by
  unfold NjuOs.cstring
  rw [takeWhile_eq_self_iff]
  exact fun c hc => decide_eq_true (h.ascii c hc).1

theorem BmpName.unitChar {name : List UInt8} (h : BmpName name) : (name.map UInt8.toNat).map unitChar = name := by
  have hself : ∀ c ∈ name, (NjuOs.unitChar ∘ UInt8.toNat) c = id c := by
    intro c hc
    have hlt : c.toNat < 128 := (h.ascii c hc).2
    rw [Function.comp_apply, NjuOs.unitChar, if_pos hlt]
    exact UInt8.ofNat_toNat
  rw [map_map, map_congr_left hself, map_id]

/-! ## Names of files -/

def Disk.bmpEntry (d : Disk) (lname off : Nat) : Option (List UInt8 × Nat × Nat) :=
  (readBmpEntryAt d d.img (d.img + off) lname d.cells).val

section
variable {d : Disk} {lname off : Nat}

def Disk.Apart (d : Disk) (lname : Nat) : Prop := lname + 512 ≤ d.img ∨ d.img + d.file.length ≤ lname

instance (d : Disk) (lname : Nat) : Decidable (d.Apart lname) := inferInstanceAs (Decidable (_ ∨ _))

theorem Disk.Apart.refines (h : d.Apart lname) (hoff : off + 32 ≤ d.file.length) :
    Refines (InName lname) d.cells d.cells (readBmpEntryAt d d.img (d.img + off) lname)
      (readBmpEntry d d.img (d.img + off)) fun r r' _ => r = r' := by
  have hlow := d.img_low
  refine refines_readBmpEntry (fun a ha hlt hin => ?_) (Nat.le_add_right _ _) (by omega)
  obtain ⟨h1, h2⟩ := hin
  rcases h with h | h <;> omega

theorem Disk.bmpEntry_eq (h : d.Apart lname) (hoff : off + 32 ≤ d.file.length) :
    d.bmpEntry lname off = (readBmpEntry d d.img (d.img + off) d.cells).val :=
  (h.refines hoff).post

/-- A long name is read back, and on any image only the name buffer is stored to. -/
theorem long_name_read (h : d.Apart lname) (hoff : off + 32 ≤ d.file.length) :
    (∀ name clus size, BmpName name → d.LongRun off (name.map UInt8.toNat) → d.FileEntry off clus size →
      d.bmpEntry lname off = some (name, clus, size)) ∧
    ∀ a, .store a ∈ (readBmpEntryAt d d.img (d.img + off) lname d.cells).log → InName lname a := by
  refine ⟨fun name clus size hname hrun hfile => ?_, (h.refines hoff).stores⟩
  have hread := hfile.reads hrun.reads_entryName
  rw [hname.unitChar, hname.cstring, if_pos hname.isBmpName] at hread
  exact (Disk.bmpEntry_eq h hoff).trans hread.2.2.2

end

def lfnBytes (ord : UInt8) (us : List Nat) : List UInt8 :=
  let unit (i : Nat) : List UInt8 := [UInt8.ofNat (us.getD i 0), UInt8.ofNat (us.getD i 0 / 256)]
  ord :: (List.range' 0 5).flatMap unit ++ [attrLongName, 0, 0] ++ (List.range' 5 6).flatMap unit ++ [0, 0] ++
    (List.range' 11 2).flatMap unit

def summerDisk : Disk where
  file :=
    let units := lfnUnits ((bytes "Summer 2022.bmp").map UInt8.toNat)
    [(List.range 128).map (bmpByte 8), lfnBytes 0x42 (units.drop 13), lfnBytes 1 (units.take 13),
      bytes "SUMMER~1BMP", [0x20], List.replicate 14 0, [65, 0, 8, 0, 0, 0], List.replicate 286 0, [0x55, 0xaa]].flatten
  img := 4096
  rest := fun _ => 0
  img_low := (bmpDisk 8).img_low
  img_high := by decide +kernel

theorem summerDisk_run : summerDisk.LongRun 192 ((bytes "Summer 2022.bmp").map UInt8.toNat) where
  length_pos := by decide +kernel
  length_le := by decide +kernel
  valid := by decide +kernel
  room := by decide +kernel
  inside := by decide +kernel
  ord := by decide +kernel
  attr := by decide +kernel
  chars := by decide +kernel

theorem long_name_read_summer : summerDisk.Mapped ∧
    summerDisk.bmpEntry 8192 192 = some (bytes "Summer 2022.bmp", 65, 8) := by
  have hname : BmpName (bytes "Summer 2022.bmp") :=
    ⟨by decide +kernel, by decide +kernel, by decide +kernel, bytes "Summer 2022", bytes "bmp", by decide +kernel,
      by decide +kernel⟩
  have hfile : summerDisk.FileEntry 192 65 8 :=
    ⟨by decide +kernel, by decide +kernel, by decide +kernel, by decide, by decide, by decide +kernel⟩
  have hread := @long_name_read summerDisk 8192 192 (by decide +kernel) (by decide +kernel)
  exact ⟨by decide +kernel, hread.1 _ 65 8 hname summerDisk_run hfile⟩

/-! ## Deleted files -/

def markDeleted (f : List UInt8) (ps : List Nat) : List UInt8 := ps.foldl (fun f p => f.set p 0xe5) f

theorem markDeleted_length (f : List UInt8) (ps : List Nat) : (markDeleted f ps).length = f.length := by
  induction ps generalizing f with
  | nil => rfl
  | cons p ps ih => exact (ih _).trans length_set

theorem markDeleted_getElem? {f : List UInt8} {ps : List Nat} {p : Nat} (hp : p < f.length)
    (h : p ∈ ps ∨ f[p]? = some 0xe5) : (markDeleted f ps)[p]? = some 0xe5 := by
  induction ps generalizing f with
  | nil => exact h.resolve_left not_mem_nil
  | cons q ps ih =>
    have hp' : p < (f.set q 0xe5).length := by rwa [length_set]
    refine ih hp' ?_
    by_cases hqp : q = p
    · right
      rw [hqp, getElem?_set_self hp]
    · rw [getElem?_set_ne hqp]
      refine h.imp_left fun hmem => (mem_cons.mp hmem).resolve_left fun he => hqp he.symm

def Disk.delete (d : Disk) (off n : Nat) : Disk where
  file := markDeleted d.file ((List.range (n + 1)).map fun k => off - 32 * k)
  img := d.img
  rest := d.rest
  img_low := d.img_low
  img_high := by
    rw [markDeleted_length]
    exact d.img_high

section
variable {d : Disk} {lname off : Nat} {units : List Nat}

theorem Disk.delete_cells {n k : Nat} (hoff : off < d.file.length) (hk : k ≤ n) (hroom : 32 * k ≤ off) :
    (d.delete off n).cells (d.img + off - 32 * k) = 0xe5 := by
  have hmem : off - 32 * k ∈ (List.range (n + 1)).map fun k => off - 32 * k :=
    mem_map_of_mem (mem_range.mpr (Nat.lt_succ_of_le hk))
  have hbyte := markDeleted_getElem? (f := d.file) (by omega) (Or.inl hmem)
  have hlen := markDeleted_length d.file ((List.range (n + 1)).map fun k => off - 32 * k)
  unfold Disk.cells
  rw [if_pos]
  · change (markDeleted _ _).getD _ 0 = 0xe5
    rw [getD_eq_getElem?_getD]
    change ((markDeleted _ _)[d.img + off - 32 * k - d.img]?).getD 0 = 0xe5
    rw [show d.img + off - 32 * k - d.img = off - 32 * k by omega, hbyte]
    rfl
  · change d.img ≤ _ ∧ _ < d.img + (markDeleted _ _).length
    rw [hlen]
    omega

/-- Whatever is known of the name is known of the name in the result. -/
theorem reads_readBmpEntry_name {N : List UInt8 → Prop}
    (hname : Reads (fun _ => True) d.cells (entryName d.img (d.img + off)) N) :
    Reads (fun _ => True) d.cells (readBmpEntry d d.img (d.img + off)) fun r =>
      ∀ e ∈ r, ∃ name, N name ∧ e.1 = cstring name := by
  have hnone : ∀ e ∈ (none : Option (List UInt8 × Nat × Nat)), ∃ name, N name ∧ e.1 = cstring name :=
    fun _ he => nomatch he
  refine Reads.bind (reads_load trivial) fun a _ => ?_
  refine Confined.ite (fun _ => Reads.pure hnone) fun _ => ?_
  refine Confined.ite (fun _ => Reads.pure hnone) fun _ => ?_
  refine Reads.bind (reads_loadLE fun _ _ => trivial) fun hi _ => ?_
  refine Reads.bind (reads_loadLE fun _ _ => trivial) fun lo _ => ?_
  refine Reads.bind (reads_loadLE fun _ _ => trivial) fun fsize _ => ?_
  refine Confined.ite (fun _ => Reads.pure hnone) fun _ => ?_
  refine Reads.bind hname fun s hs => ?_
  refine Confined.ite (fun _ => Reads.pure ?_) fun _ => Reads.pure hnone
  intro e he
  cases he
  exact ⟨s, hs, rfl⟩

/-- The walk over the run stops at its first entry, and the short name starts with the mark. -/
theorem reads_entryName_deleted {m : Nat → UInt8} {base sd : Nat} (hsd : m sd = 0xe5) (hent : m (sd - 32) = 0xe5) :
    Reads (fun _ => True) m (entryName base sd) fun name => ∃ t, name = 0xe5 :: t := by
  have hrun : Reads (fun _ => True) m (lfnRun base 32 (sd - 32)) fun cs => cs = [] := by
    refine Confined.ite (fun _ => Reads.pure rfl) fun _ => ?_
    refine Reads.bind (reads_load trivial) fun a _ => ?_
    refine Confined.ite (fun _ => Reads.pure rfl) fun _ => ?_
    refine Reads.bind (reads_load trivial) fun o ho => ?_
    exact Confined.ite (fun _ => Reads.pure rfl) fun hne => absurd (ho.trans hent) hne
  have hchars : Reads (fun _ => True) m (nameChars sd 8 0) fun cs => ∃ t, cs = 0xe5 :: t := by
    refine Reads.bind (reads_load trivial) fun c hc => ?_
    have hc : c = 0xe5 := hc.trans hsd
    refine Confined.ite (fun hb => absurd (hc.symm.trans hb) (by decide)) fun _ => ?_
    refine Reads.bind (reads_nameChars fun _ _ => trivial) fun cs _ => Reads.pure ⟨cs, ?_⟩
    rw [hc]
  refine Reads.bind hrun fun long hlong => ?_
  rw [if_pos hlong]
  refine Reads.bind hchars fun cs hcs => ?_
  obtain ⟨t, rfl⟩ := hcs
  refine Reads.bind (reads_load trivial) fun c _ => ?_
  refine Confined.ite (fun _ => Reads.pure ⟨t, rfl⟩) fun _ => ?_
  exact Reads.bind (reads_nameChars fun _ _ => trivial) fun ext _ => Reads.pure ⟨_, rfl⟩

theorem unitChar_ascii {u : Nat} (h : u ≠ 0) : unitChar u ≠ 0 ∧ unitChar u ≠ 0xe5 := by
  unfold unitChar
  split
  next hlt =>
    have hnat : (UInt8.ofNat u).toNat = u := by
      rw [UInt8.toNat_ofNat']
      omega
    constructor
    · intro he
      rw [he] at hnat
      exact h hnat.symm
    · intro he
      rw [he] at hnat
      rw [← hnat] at hlt
      exact absurd hlt (by decide)
  next => exact ⟨by decide, by decide⟩

/-- A deleted file is never reported under the long name it had. -/
theorem deleted_name_lost (h : d.Apart lname) (hrun : d.LongRun off units) {r : List UInt8 × Nat × Nat}
    (hr : d.bmpEntry lname off = some r) : (d.delete off (lfnCount units)).bmpEntry lname off ≠ some r := by
  have hoff := hrun.inside
  have hroom := hrun.room
  have hcount : 1 ≤ lfnCount units := by
    have := hrun.length_pos
    unfold lfnCount
    omega
  -- before: the name starts with an ASCII character
  have hbefore := (reads_readBmpEntry_name hrun.reads_entryName).2.2.2 r
    ((Disk.bmpEntry_eq h hoff).symm.trans hr)
  obtain ⟨name, rfl, hname⟩ := hbefore
  -- after: with the mark
  have hlen : (d.delete off (lfnCount units)).file.length = d.file.length := markDeleted_length _ _
  have hapart : (d.delete off (lfnCount units)).Apart lname := by
    unfold Disk.Apart
    rw [hlen]
    exact h
  have hsd : (d.delete off (lfnCount units)).cells (d.img + off) = 0xe5 :=
    Disk.delete_cells (k := 0) (by omega) (Nat.zero_le _) (Nat.zero_le _)
  have hent : (d.delete off (lfnCount units)).cells (d.img + off - 32) = 0xe5 :=
    Disk.delete_cells (k := 1) (by omega) hcount (by omega)
  have hmark : Reads (fun _ => True) (d.delete off (lfnCount units)).cells (entryName d.img (d.img + off))
      fun name => ∃ t, name = 0xe5 :: t := reads_entryName_deleted hsd hent
  intro hr'
  have hoff' : off + 32 ≤ (d.delete off (lfnCount units)).file.length := by
    rw [hlen]
    exact hoff
  have hafter := (reads_readBmpEntry_name (d := d.delete off (lfnCount units)) hmark).2.2.2 r
    ((Disk.bmpEntry_eq hapart hoff').symm.trans hr')
  obtain ⟨name', ⟨t, rfl⟩, hname'⟩ := hafter
  cases units with
  | nil => exact absurd hrun.length_pos (Nat.lt_irrefl 0)
  | cons u us =>
    obtain ⟨h0, he5⟩ := unitChar_ascii (hrun.valid u mem_cons_self).1
    rw [hname, map_cons, cstring, cstring, takeWhile_cons, takeWhile_cons,
      if_pos (decide_eq_true h0), if_pos (by decide)] at hname'
    exact he5 (List.cons.inj hname').1

end

/-- After the deletion of `Summer 2022.bmp` the tool reports a mangled short name. -/
theorem summer_deleted : summerDisk.Apart 8192 ∧
    summerDisk.bmpEntry 8192 192 = some (bytes "Summer 2022.bmp", 65, 8) ∧
    (summerDisk.delete 192 2).bmpEntry 8192 192 = some (0xe5 :: bytes "UMMER~1.BMP", 65, 8) := by
  decide +kernel

theorem deleted_name_lost_summer : (summerDisk.delete 192 2).bmpEntry 8192 192 ≠
    some (bytes "Summer 2022.bmp", 65, 8) := by
  have hread : summerDisk.bmpEntry 8192 192 = some (bytes "Summer 2022.bmp", 65, 8) := by decide +kernel
  exact @deleted_name_lost summerDisk 8192 192 _ (by decide +kernel) summerDisk_run _ hread

end NjuOs
