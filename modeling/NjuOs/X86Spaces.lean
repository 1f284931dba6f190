import NjuOs.X86Sound

/-!
# The address spaces of the x86-64 machine

What the spaces are for: each has the kernel below 512 GiB, out of reach of user code, and in the user area
the pages that were mapped in it. The tables in memory say the same to the CPU after any calls of `protect`,
`map` and `unprotect`, with any writes of the kernel in between.
-/

namespace NjuOs.X86

open Function List

/-! ## What the spaces are for -/

def InArea (va : Nat) : Prop := uvmArea.start ≤ va ∧ va < uvmArea.stop

instance (va : Nat) : Decidable (InArea va) := inferInstanceAs (Decidable (_ ∧ _))

structure Spec where
  spaces : List Nat
  pages : Nat → Nat → Option (Nat × Bool)

def Spec.init : Spec := ⟨[], fun _ _ => none⟩

def asked (pa prot : Nat) : Option (Nat × Bool) := if prot = mmapNone then none else some (pa, prot &&& mmapWrite ≠ 0)

def Spec.mappable (t : Spec) (asp va pa prot : Nat) : Prop := asp ∈ t.spaces ∧ InArea va ∧ va % pgsize = 0 ∧
  pa % pgsize = 0 ∧ (prot = mmapNone ↔ (t.pages asp va).isSome)

instance (t : Spec) (asp va pa prot : Nat) : Decidable (t.mappable asp va pa prot) :=
  inferInstanceAs (Decidable (_ ∧ _))

def Spec.step (t : Spec) : Act → Option Spec
  | .protect asp _ =>
    if asp ∈ t.spaces then none
    else some { spaces := asp :: t.spaces, pages := update t.pages asp fun _ => none }
  | .map asp va pa prot _ =>
    if t.mappable asp va pa prot then
      some { t with pages := update t.pages asp (update (t.pages asp) va (asked pa prot)) }
    else none
  | .unprotect asp => if asp ∈ t.spaces then some { t with spaces := t.spaces.erase asp } else none
  | .write _ _ => some t

def kernelEnd : Nat := 0x008000000000

def Spec.access (t : Spec) (asp va : Nat) : Option Access :=
  if va < kernelEnd then some ⟨va, false, true⟩
  else if InArea va then (t.pages asp (va / pgsize * pgsize)).map fun f => ⟨f.1 + va % pgsize, true, f.2⟩
  else none

/-! ## One space -/

def levels : List (Level Nat) := shifts.map level

def root (mem : Nat → Nat) (asp : Nat) : Nat := baseof (mem asp)

def tables (mem : Nat → Nat) (asp : Nat) : Multiset Nat := radix.held mem levels (root mem asp)

def kernelEntry : Nat := pdptAddr ||| pteP ||| pteW

def pte : Option (Nat × Bool) → Nat
  | none => 0
  | some (pa, w) => pa ||| pteP ||| pteU ||| if w then pteW else 0

structure TreeOk (mem : Nat → Nat) (pt : Nat) (pages : Nat → Option (Nat × Bool)) : Prop where
  lt : pt < 2 ^ 64
  sound : radix.Sound mem levels pt
  kernel : mem (radix.slot pt 0) = kernelEntry
  others : ∀ i < 2 ^ 9, i ≠ 0 → i ≠ 32 → mem (radix.slot pt i) = 0
  straight : ∀ va, InArea va → radix.Straight mem levels pt va
  value : ∀ va, InArea va → radix.value mem levels pt va = pte (pages (va / pgsize * pgsize))
  frames : ∀ va f, pages va = some f → f.1 % pgsize = 0 ∧ f.1 < 2 ^ 64

structure SpaceOk (mem : Nat → Nat) (asp : Nat) (pages : Nat → Option (Nat × Bool)) : Prop
    extends TreeOk mem (root mem asp) pages where
  entry : mem asp = root mem asp ||| pteP ||| pteU

section
variable {mem mem' : Nat → Nat} {asp va vb pa i : Nat} {pages : Nat → Option (Nat × Bool)} {v v' : Vm}
  {f : Option (Nat × Bool)}

theorem fits_levels : radix.Fits levels := fits shifts

theorem page_row {pt : Nat} (hpt : radix.pgsize ∣ pt) (hi : i < 2 ^ 9) : radix.page (radix.slot pt i) = pt :=
  Radix.page_slot (l := level 39) hpt (fits_levels _ (mem_cons_self ..)) hi

theorem inArea_iff : InArea va ↔ va / 2 ^ 39 = 32 := by
  have hs : uvmArea.start = 32 * 2 ^ 39 := rfl
  have he : uvmArea.stop = 33 * 2 ^ 39 := rfl
  unfold InArea
  omega

theorem idx_area (h : InArea va) : (level 39).idx va = 32 := by
  rw [idx_eq, inArea_iff.mp h]
  rfl

theorem idx_iff (ha : InArea va) (hb : InArea vb) :
    (∀ l ∈ levels, l.idx vb = l.idx va) ↔ vb / pgsize = va / pgsize := by
  rw [inArea_iff] at ha hb
  simp only [levels, shifts, map_cons, map_nil, forall_mem_cons, idx_eq, not_mem_nil,
    IsEmpty.forall_iff, implies_true, and_true, pgsize]
  omega

def flagBits (w : Bool) : Nat := pteP ||| (pteU ||| if w then pteW else 0)

theorem pte_flags (w : Bool) : flagBits w < 2 ^ 12 ∧ flagBits w &&& pteP ≠ 0 ∧ flagBits w &&& pteU ≠ 0 ∧
    decide (flagBits w &&& pteW ≠ 0) = w := by
  cases w <;> decide

theorem pte_some (pa : Nat) (w : Bool) : pte (some (pa, w)) = pa ||| flagBits w := by
  rw [pte, flagBits, Nat.or_assoc, Nat.or_assoc]

theorem pte_present (hf : ∀ x, f = some x → x.1 % pgsize = 0) : pte f &&& pteP = 0 ↔ f = none := by
  cases f with
  | none => simp [pte]
  | some x =>
    obtain ⟨pa, w⟩ := x
    obtain ⟨hlt, hp, -⟩ := pte_flags w
    rw [pte_some, flags_and (hf _ rfl) hlt (by decide)]
    simp [hp]

theorem leaf_pte (hf : ∀ x, f = some x → x.1 % pgsize = 0) :
    leaf va true true (pte f) = f.map fun x => ⟨x.1 + va % pgsize, true, x.2⟩ := by
  cases f with
  | none => exact leaf_zero va true true
  | some x =>
    have hp := mt (pte_present hf).mp (Option.some_ne_none x)
    obtain ⟨pa, w⟩ := x
    have hpa : pa % pgsize = 0 := hf _ rfl
    obtain ⟨hlt, -, hu, hw⟩ := pte_flags w
    rw [leaf, if_neg hp, pte_some, flags_and hpa hlt (by decide), flags_and hpa hlt (by decide), or_flags hpa hlt,
      decide_eq_true hu, hw, Bool.true_and, Bool.true_and]
    have hdiv : (pa + flagBits w) / pgsize * pgsize = pa := by
      unfold pgsize at *
      omega
    rw [hdiv]
    rfl

theorem SpaceOk.present (h : SpaceOk mem asp pages) : mem asp &&& pteP ≠ 0 ∧ mem asp &&& pteU ≠ 0 := by
  have hal := aligned_iff.mp (h.sound.aligned _ (Multiset.mem_cons_self ..))
  rw [h.entry, Nat.or_assoc, flags_and hal (by decide) (by decide), flags_and hal (by decide) (by decide)]
  decide

theorem TreeOk.congr {pt : Nat} (h : TreeOk mem pt pages)
    (heq : ∀ x, radix.page x ∈ radix.held mem levels pt → mem' x = mem x) :
    TreeOk mem' pt pages ∧ radix.held mem' levels pt = radix.held mem levels pt := by
  have hsame := Radix.same_of_held fits_levels h.sound.aligned heq
  have hheld : radix.held mem' levels pt = radix.held mem levels pt := by rw [Radix.held, Radix.held, hsame.below]
  have hslot : ∀ i < 2 ^ 9, mem' (radix.slot pt i) = mem (radix.slot pt i) := fun i hi => by
    refine heq _ ?_
    rw [page_row (h.sound.aligned pt (Multiset.mem_cons_self ..)) hi]
    exact Multiset.mem_cons_self ..
  refine ⟨⟨h.lt, ⟨hheld ▸ h.sound.nodup, hheld ▸ h.sound.aligned⟩, ?_, fun i hi h0 h32 => ?_, fun va hva => ?_,
    fun va hva => ?_, h.frames⟩, hheld⟩
  · rw [hslot 0 (by decide)]
    exact h.kernel
  · rw [hslot i hi]
    exact h.others i hi h0 h32
  · exact hsame.straight va (h.straight va hva)
  · rw [Radix.value_congr fits_levels h.sound heq]
    exact h.value va hva

theorem SpaceOk.congr (h : SpaceOk mem asp pages) (hasp : mem' asp = mem asp)
    (heq : ∀ x, radix.page x ∈ tables mem asp → mem' x = mem x) :
    SpaceOk mem' asp pages ∧ tables mem' asp = tables mem asp := by
  have hroot : root mem' asp = root mem asp := congrArg baseof hasp
  obtain ⟨htree, hheld⟩ := h.toTreeOk.congr heq
  rw [tables, hroot]
  refine ⟨⟨hroot ▸ htree, ?_⟩, hheld⟩
  rw [hasp, hroot]
  exact h.entry

structure KernelMem (mem : Nat → Nat) : Prop where
  pml4 : mem pml4Addr = kernelEntry
  pdpt : ∀ i < 2 ^ 9, mem (radix.slot pdptAddr i) = i <<< 30 ||| pteP ||| pteW ||| ptePS

theorem KernelMem.congr (h : KernelMem mem)
    (heq : ∀ x, radix.page x = pml4Addr ∨ radix.page x = pdptAddr → mem' x = mem x) : KernelMem mem' := by
  constructor
  · rw [heq _ (Or.inl rfl)]
    exact h.pml4
  · intro i hi
    rw [heq _ (Or.inr _)]
    · exact h.pdpt i hi
    · exact page_row (aligned_iff.mpr rfl) hi

/-- A page of 1 GiB, for the kernel only. -/
theorem walkFrom_kernel {infos : List PtInfo} (h : KernelMem mem) (hva : va < kernelEnd) :
    walkFrom mem va (ptinfo 30 :: infos) pdptAddr false true = some ⟨va, false, true⟩ := by
  have hend : kernelEnd = 2 ^ 39 := rfl
  have hidx : (level 30).idx va = va / 2 ^ 30 := by
    rw [idx_eq, Nat.mod_eq_of_lt (by omega)]
  have he : mem (radix.slot pdptAddr ((level 30).idx va)) = (va / 2 ^ 30) <<< 30 ||| pteP ||| pteW ||| ptePS := by
    rw [hidx]
    exact h.pdpt (va / 2 ^ 30) (by omega)
  have hal : (va / 2 ^ 30) <<< 30 % pgsize = 0 := by
    rw [Nat.shiftLeft_eq]
    unfold pgsize
    omega
  rw [walkFrom_cons he, Nat.or_assoc, Nat.or_assoc, flags_and hal (by decide) (by decide),
    flags_and hal (by decide) (by decide), flags_and hal (by decide) (by decide),
    flags_and hal (by decide) (by decide), or_flags hal (by decide), if_neg (by decide), if_pos (Or.inr (by decide))]
  have hpa : ((va / 2 ^ 30) <<< 30 + (pteP ||| (pteW ||| ptePS))) / 2 ^ 30 * 2 ^ 30 + va % 2 ^ 30 = va := by
    have hsmall : (pteP ||| (pteW ||| ptePS)) < 2 ^ 30 := by decide
    rw [Nat.shiftLeft_eq]
    omega
  rw [hpa]
  rfl

/-- The CPU sees what the space is for. -/
theorem SpaceOk.translate {t : Spec} (h : SpaceOk mem asp (t.pages asp)) (hk : KernelMem mem) (hva : va < 2 ^ 48) :
    translate mem (mem asp) va = t.access asp va := by
  have hend : kernelEnd = 2 ^ 39 := rfl
  have hidx : (level 39).idx va = va / 2 ^ 39 := by
    rw [idx_eq, Nat.mod_eq_of_lt (by omega)]
  show walkFrom mem va (shifts.map ptinfo) (root mem asp) true true = _
  by_cases hlow : va < kernelEnd
  · rw [Spec.access, if_pos hlow]
    have h0 : (level 39).idx va = 0 := by omega
    have hentry : mem (radix.slot (root mem asp) ((level 39).idx va)) = kernelEntry := by
      rw [h0]
      exact h.kernel
    exact (walkFrom_cons hentry).trans (walkFrom_kernel hk hlow)
  · rw [Spec.access, if_neg hlow]
    by_cases harea : InArea va
    · have hstraight : radix.Straight mem (([39, 30, 21] ++ [12]).map level) (root mem asp) va := h.straight va harea
      rw [if_pos harea, ← leaf_pte fun x hx => (h.frames _ x hx).1, ← h.value va harea]
      exact walkFrom_straight hstraight
    · have h32 : (level 39).idx va ≠ 32 := fun h => harea (inArea_iff.mpr (hidx.symm.trans h))
      have hentry : mem (radix.slot (root mem asp) ((level 39).idx va)) = 0 :=
        h.others _ ((level 39).idx_lt va) (by omega) h32
      rw [if_neg harea]
      exact (walkFrom_cons hentry).trans (if_pos rfl)

end

/-! ## The calls on one space -/

section
variable {v v' v1 : Vm} {asp va pa prot e p : Nat} {pages : Nat → Option (Nat × Bool)} {ps ps' new : List Nat}

theorem ptwalk_root (h : v.mem asp &&& pteP ≠ 0) (flags : Nat) :
    ptwalk va flags pgtables asp v ps = ptwalk va flags (shifts.map ptinfo) (root v.mem asp) v ps := by
  have hasp : asp + indexof va ⟨0, 0, 0⟩ * 8 = asp := by simp [indexof]
  show (if v.mem (asp + indexof va ⟨0, 0, 0⟩ * 8) &&& pteP = 0 then _ else
    ptwalk va flags _ (baseof (v.mem (asp + indexof va ⟨0, 0, 0⟩ * 8))) v ps) = _
  rw [hasp, if_neg h]
  rfl

theorem ptwalk_walk {flags : Nat} : ∀ {ss : List Nat} {pt : Nat}, radix.walk v.mem (ss.map level) pt va = some e →
    ptwalk va flags (ss.map ptinfo) pt v ps = .ok (v, e, ps)
  | [], _, h => by cases h
  | [s], pt, h => by
    cases h
    rfl
  | s :: s' :: ss, pt, h => by
    obtain ⟨ho, h⟩ := Radix.walk_own h
    have hrest : ptwalk va flags ((s :: s' :: ss).map ptinfo) pt v ps =
        ptwalk va flags ((s' :: ss).map ptinfo) (radix.ptr (v.mem (radix.slot pt ((level s).idx va)))) v ps :=
      if_neg (radix_own.mp ho).1
    rw [hrest]
    exact ptwalk_walk h

theorem pte_asked (hprot : prot ≠ mmapNone) :
    pte (asked pa prot) = (pa ||| pteP ||| pteU ||| if prot &&& mmapWrite ≠ 0 then pteW else 0) := by
  rw [asked, if_neg hprot, pte]
  by_cases hw : prot &&& mmapWrite ≠ 0
  · rw [if_pos hw, if_pos (decide_eq_true hw)]
  · rw [if_neg hw, if_neg (by simpa using hw)]

theorem setPte_ok : (∃ v', setPte v e pa prot = .ok v') ↔ (prot = mmapNone ↔ v.mem e &&& pteP ≠ 0) := by
  unfold setPte
  by_cases hp : prot = mmapNone <;> by_cases he : v.mem e &&& pteP = 0 <;> simp [hp, he]

theorem setPte_eq (h : setPte v e pa prot = .ok v') : v' = v.store e (pte (asked pa prot)) := by
  unfold setPte at h
  by_cases hp : prot = mmapNone
  · rw [if_pos hp] at h
    split at h
    · cases h
    · cases h
      rw [asked, if_pos hp]
      rfl
  · rw [if_neg hp] at h
    split at h
    · cases h
    · cases h
      rw [pte_asked hp]

def mapPanics : List String :=
  ["mapping an invalid address", "non-page-boundary address", "unmapping a non-mapped page",
    "remapping a mapped page"]

theorem setPte_panics {x : Halt} (h : setPte v e pa prot = .error x) : ∃ msg ∈ mapPanics, x = .panic msg := by
  unfold setPte at h
  split at h
  · split at h
    · cases h
      exact ⟨_, by decide, rfl⟩
    · cases h
  · split at h
    · cases h
      exact ⟨_, by decide, rfl⟩
    · cases h

theorem baseof_self {a : Nat} (h : a < 2 ^ 64) : a = baseof a ↔ a % pgsize = 0 := by
  rw [baseof_eq h]
  unfold pgsize
  omega

structure Changed (v : Vm) (asp : Nat) (new : List Nat) (v' : Vm) : Prop where
  frame : ∀ x, radix.page x ∉ tables v.mem asp → radix.page x ∉ new → v'.mem x = v.mem x
  tables : tables v'.mem asp = tables v.mem asp + new
  used : (v'.used : Multiset Nat) = new + v.used
  kpt : v'.kpt = v.kpt

structure Room (v : Vm) (asp : Nat) (ps : List Nat) : Prop where
  out : radix.page asp ∉ tables v.mem asp ∧ radix.page asp ∉ ps
  spare : Spare v.mem shifts (root v.mem asp) ps

theorem SpaceOk.store {f : Option (Nat × Bool)} (hok : SpaceOk v.mem asp pages) (hr : Room v asp new)
    (hva : InArea va) (hal : va % pgsize = 0) (hw : Walked va shifts (root v.mem asp) v v1 e new)
    (hf : ∀ x, f = some x → x.1 % pgsize = 0 ∧ x.1 < 2 ^ 64) :
    SpaceOk (v1.store e (pte f)).mem asp (update pages va f) ∧ Changed v asp new (v1.store e (pte f)) ∧
      radix.walk (v1.store e (pte f)).mem levels (root (v1.store e (pte f)).mem asp) va = some e := by
  have hnew : ∀ q ∈ (new : Multiset Nat), q ∉ radix.held v.mem levels (root v.mem asp) ∧ radix.pgsize ∣ q := fun q hq =>
    ⟨hr.spare.fresh q hq, aligned_iff.mpr (hr.spare.aligned q hq).1⟩
  have hs1 : radix.Sound v1.mem levels (root v.mem asp) := hw.grown.sound hok.sound hr.spare.nodup hnew
  have hheld1 : radix.held v1.mem levels (root v.mem asp) = tables v.mem asp + new := hw.grown.held
  obtain ⟨hsame, hother⟩ := Radix.store_walk fits_levels hs1 hw.walk (pte f)
  obtain ⟨hset, hkept⟩ := Radix.value_store fits_levels hs1 hw.walk (pte f)
  have hpe : radix.page e ∈ tables v.mem asp + new := hheld1 ▸ Radix.walk_page fits_levels hs1 hw.walk
  have hframe : ∀ x, radix.page x ∉ tables v.mem asp → radix.page x ∉ new → (v1.store e (pte f)).mem x = v.mem x := by
    intro x hx hxn
    have hne : x ≠ e := fun he => (Multiset.mem_add.mp (he ▸ hpe)).elim hx hxn
    exact (update_of_ne hne ..).trans (hw.grown.frame x hx hxn)
  have hasp : (v1.store e (pte f)).mem asp = v.mem asp := hframe asp hr.out.1 hr.out.2
  have hroot : root (v1.store e (pte f)).mem asp = root v.mem asp := congrArg baseof hasp
  have hheld : radix.held (v1.store e (pte f)).mem levels (root v.mem asp) = tables v.mem asp + new := by
    rw [← hheld1, Radix.held, Radix.held]
    exact congrArg _ hsame.below
  have hrow : ∀ i < 2 ^ 9, i ≠ 32 → (v1.store e (pte f)).mem (radix.slot (root v.mem asp) i) =
      v.mem (radix.slot (root v.mem asp) i) := by
    intro i hi hne
    rw [← idx_area hva] at hne
    exact (hother (level 39) rfl i hi hne).trans (hw.grown.others (level 39) rfl i hi hne)
  rw [← hheld] at hheld1
  have htree : TreeOk (v1.store e (pte f)).mem (root v.mem asp) (update pages va f) := by
    refine ⟨hok.lt, ⟨hheld1 ▸ hs1.nodup, hheld1 ▸ hs1.aligned⟩, ?_, fun i hi h0 h32 => ?_, fun vb hvb => ?_,
      fun vb hvb => ?_, fun vb x hx => ?_⟩
    · rw [hrow 0 (by decide) (by decide)]
      exact hok.kernel
    · rw [hrow i hi h32]
      exact hok.others i hi h0 h32
    · exact hsame.straight vb (hw.grown.straight vb (hok.straight vb hvb))
    · by_cases hpage : vb / pgsize = va / pgsize
      · have hvb' : vb / pgsize * pgsize = va := by
          rw [hpage]
          unfold pgsize at *
          omega
        rw [hvb', update_self]
        exact hset vb ((idx_iff hva hvb).mpr hpage)
      · have hne : vb / pgsize * pgsize ≠ va := fun he => hpage (by
          unfold pgsize at *
          omega)
        rw [update_of_ne hne, ← hok.value vb hvb]
        refine (hkept vb ?_).trans (hw.grown.value vb (hok.straight vb hvb))
        by_contra hall
        push Not at hall
        exact hpage ((idx_iff hva hvb).mp hall)
    · by_cases hne : vb = va
      · rw [hne, update_self] at hx
        exact hf x hx
      · rw [update_of_ne hne] at hx
        exact hok.frames vb x hx
  refine ⟨⟨hroot ▸ htree, ?_⟩, ⟨hframe, ?_, hw.used, hw.kpt⟩, hroot.symm ▸ (hsame.walk va).trans hw.walk⟩
  · rw [hasp, hroot]
    exact hok.entry
  · rw [X86.tables, hroot]
    exact hheld

theorem SpaceOk.entry_present (hok : SpaceOk v.mem asp pages) (hva : InArea va) (hal : va % pgsize = 0)
    (hw : Walked va shifts (root v.mem asp) v v1 e new) : v1.mem e &&& pteP ≠ 0 ↔ (pages va).isSome := by
  have hva' : va / pgsize * pgsize = va := by
    unfold pgsize at *
    omega
  have hval : radix.value v1.mem levels (root v.mem asp) va = v1.mem e := by
    rw [Radix.value, show radix.walk v1.mem levels (root v.mem asp) va = some e from hw.walk]
  have hold : radix.value v1.mem levels (root v.mem asp) va = pte (pages va) := by
    have := hok.value va hva
    rw [hva'] at this
    exact (hw.grown.value va (hok.straight va hva)).trans this
  rw [← hval, hold, Ne, pte_present fun x hx => (hok.frames va x hx).1, ← Ne, Option.ne_none_iff_isSome]

theorem Room.of_append (h : Room v asp (new ++ ps)) : Room v asp new where
  out := ⟨h.out.1, fun hm => h.out.2 (mem_append_left ps hm)⟩
  spare := ⟨(nodup_append.mp h.spare.nodup).1, fun p hp => h.spare.aligned p (mem_append_left ps hp),
    fun p hp => h.spare.fresh p (mem_append_left ps hp)⟩

theorem asked_frame (hpa : pa % pgsize = 0) (hlt : pa < 2 ^ 64) (x : Nat × Bool) (hx : asked pa prot = some x) :
    x.1 % pgsize = 0 ∧ x.1 < 2 ^ 64 := by
  unfold asked at hx
  split at hx
  · cases hx
  · cases hx
    exact ⟨hpa, hlt⟩

theorem map_checked (hlt : pa < 2 ^ 64) (hva : InArea va) (hal : va % pgsize = 0) (hpa : pa % pgsize = 0) :
    map v asp va pa prot ps = mapEntry v asp va pa prot ps := by
  have hva64 : va < 2 ^ 64 := lt_of_lt_of_le hva.2 (by decide)
  have hboundary : ¬(va ≠ baseof va ∨ pa ≠ baseof pa) := by
    rw [not_or, not_not, not_not]
    exact ⟨(baseof_self hva64).mpr hal, (baseof_self hlt).mpr hpa⟩
  exact (if_neg (not_not.mpr hva)).trans (if_neg hboundary)

theorem map_unchecked (hlt : pa < 2 ^ 64) (h : map v asp va pa prot ps = .ok v') :
    InArea va ∧ va % pgsize = 0 ∧ pa % pgsize = 0 := by
  unfold map at h
  split at h
  · cases h
  · next hva =>
    split at h
    · cases h
    · next hal =>
      have hva : InArea va := not_not.mp hva
      rw [not_or, not_not, not_not, baseof_self (lt_of_lt_of_le hva.2 (by decide)), baseof_self hlt] at hal
      exact ⟨hva, hal⟩

/-- Once the entry is set, the second walk finds everything in place. -/
theorem SpaceOk.set {v2 : Vm} (hok : SpaceOk v.mem asp pages) (hr : Room v asp (new ++ ps)) (hlt : pa < 2 ^ 64)
    (hva : InArea va) (hal : va % pgsize = 0) (hpa : pa % pgsize = 0)
    (hw : Walked va shifts (root v.mem asp) v v1 e new) (h2 : setPte v1 e pa prot = .ok v2) :
    SpaceOk v2.mem asp (update pages va (asked pa prot)) ∧ Changed v asp new v2 ∧
      ptwalk va (pteW ||| pteU) pgtables asp v2 ps = .ok (v2, e, ps) := by
  obtain ⟨hok', hc, hwalk⟩ := hok.store (f := asked pa prot) hr.of_append hva hal hw (asked_frame hpa hlt)
  rw [← setPte_eq h2] at hok' hc hwalk
  exact ⟨hok', hc, (ptwalk_root hok'.present.1 _).trans (ptwalk_walk hwalk)⟩

theorem map_changed (hok : SpaceOk v.mem asp pages) (hr : Room v asp ps) (hlt : pa < 2 ^ 64)
    (h : map v asp va pa prot ps = .ok v') :
    (InArea va ∧ va % pgsize = 0 ∧ pa % pgsize = 0 ∧ (prot = mmapNone ↔ (pages va).isSome)) ∧
      SpaceOk v'.mem asp (update pages va (asked pa prot)) ∧
      ∃ new ps', ps = new ++ ps' ∧ Changed v asp new v' := by
  obtain ⟨hva, hal, hpa⟩ := map_unchecked hlt h
  rw [map_checked hlt hva hal hpa] at h
  obtain ⟨⟨v1, e, ps'⟩, h1, h⟩ := bind_ok h
  obtain ⟨v2, h2, h⟩ := bind_ok h
  obtain ⟨⟨v3, e', ps''⟩, h3, h⟩ := bind_ok h
  cases h
  rw [ptwalk_root hok.present.1] at h1
  obtain ⟨new, rfl, hw⟩ := ptwalk_walked hok.sound (hok.straight va hva) hr.spare h1
  have hprot := setPte_ok.mp ⟨v2, h2⟩
  rw [hok.entry_present hva hal hw] at hprot
  obtain ⟨hok', hc, hwalk⟩ := hok.set hr hlt hva hal hpa hw h2
  cases hwalk.symm.trans h3
  exact ⟨⟨hva, hal, hpa, hprot⟩, hok', new, ps', rfl, hc⟩

theorem map_total (hok : SpaceOk v.mem asp pages) (hr : Room v asp ps) (hlt : pa < 2 ^ 64) (hlen : 3 ≤ ps.length)
    (hva : InArea va) (hal : va % pgsize = 0) (hpa : pa % pgsize = 0) (hprot : prot = mmapNone ↔ (pages va).isSome) :
    ∃ v', map v asp va pa prot ps = .ok v' := by
  rw [map_checked hlt hva hal hpa]
  obtain ⟨⟨v1, e, ps'⟩, h1⟩ : ∃ r, ptwalk va (pteW ||| pteU) (shifts.map ptinfo) (root v.mem asp) v ps = .ok r :=
    ptwalk_total (cons_ne_nil _ _) (Nat.succ_le_succ hlen)
  obtain ⟨new, rfl, hw⟩ := ptwalk_walked hok.sound (hok.straight va hva) hr.spare h1
  rw [← hok.entry_present hva hal hw] at hprot
  obtain ⟨v2, h2⟩ := setPte_ok.mpr hprot
  obtain ⟨-, -, hwalk⟩ := hok.set hr hlt hva hal hpa hw h2
  refine ⟨v2, ?_⟩
  rw [mapEntry, ptwalk_root hok.present.1, h1]
  show (setPte v1 e pa prot >>= _) = _
  rw [h2]
  show (ptwalk va (pteW ||| pteU) pgtables asp v2 ps' >>= _) = _
  rw [hwalk]
  rfl

/-- With pages enough, neither walk is what stops. -/
theorem map_panics {x : Halt} (hok : SpaceOk v.mem asp pages) (hr : Room v asp ps) (hlt : pa < 2 ^ 64)
    (hlen : 3 ≤ ps.length) (h : map v asp va pa prot ps = .error x) : ∃ msg ∈ mapPanics, x = .panic msg := by
  by_cases hva : InArea va
  · by_cases hal : va % pgsize = 0 ∧ pa % pgsize = 0
    · have hentry := h
      rw [map_checked hlt hva hal.1 hal.2, mapEntry, ptwalk_root hok.present.1] at hentry
      obtain ⟨⟨v1, e, ps'⟩, h1⟩ : ∃ r, ptwalk va (pteW ||| pteU) (shifts.map ptinfo) (root v.mem asp) v ps = .ok r :=
        ptwalk_total (cons_ne_nil _ _) (Nat.succ_le_succ hlen)
      obtain ⟨new, -, hw⟩ := ptwalk_walked hok.sound (hok.straight va hva) hr.spare h1
      rw [h1] at hentry
      change (setPte v1 e pa prot >>= _) = _ at hentry
      cases h2 : setPte v1 e pa prot with
      | error y =>
        rw [h2] at hentry
        cases hentry
        exact setPte_panics h2
      | ok v2 =>
        have hprot := setPte_ok.mp ⟨v2, h2⟩
        rw [hok.entry_present hva hal.1 hw] at hprot
        obtain ⟨v', hv⟩ := map_total hok hr hlt hlen hva hal.1 hal.2 hprot
        cases hv.symm.trans h
    · rw [← baseof_self (lt_of_lt_of_le hva.2 (by decide)), ← baseof_self hlt, Decidable.not_and_iff_or_not] at hal
      cases ((if_neg (not_not.mpr hva)).trans (if_pos hal)).symm.trans h
      exact ⟨_, by decide, rfl⟩
  · cases (if_pos hva).symm.trans h
    exact ⟨_, by decide, rfl⟩

def opened (v : Vm) (asp p : Nat) : Vm :=
  (Vm.store { v with mem := fun a => if p ≤ a ∧ a < p + pgsize then 0 else v.mem a, used := p :: v.used } p
    (if p ≤ v.kpt ∧ v.kpt < p + pgsize then 0 else v.mem v.kpt)).store asp (p ||| pteP ||| pteU)

theorem protect_opened (h : protect v asp ps = .ok v') : ∃ p ps', ps = p :: ps' ∧ v' = opened v asp p := by
  cases ps with
  | nil => cases h
  | cons p ps' =>
    cases h
    exact ⟨p, ps', rfl, rfl⟩

theorem opened_ok (hk : KernelMem v.mem) (hkpt : v.kpt = pml4Addr) (hp : p % pgsize = 0) (hlt : p < 2 ^ 64)
    (hne : p ≠ pml4Addr) (hasp : radix.page asp ≠ p) :
    SpaceOk (opened v asp p).mem asp (fun _ => none) ∧ tables (opened v asp p).mem asp = {p} ∧
      ∀ x, radix.page x ≠ p → x ≠ asp → (opened v asp p).mem x = v.mem x := by
  have hal := aligned_iff.mpr hp
  have hentry : (opened v asp p).mem asp = p ||| pteP ||| pteU := update_self ..
  have hroot : root (opened v asp p).mem asp = p := by
    rw [root, hentry, Nat.or_assoc]
    exact baseof_flags hp hlt (by decide)
  have hpage : ∀ i < 2 ^ 9, radix.page (radix.slot p i) = p := fun i hi => page_row hal hi
  have hslot : ∀ i < 2 ^ 9, radix.slot p i ≠ asp := fun i hi he => hasp (he ▸ hpage i hi)
  have hkernel : (opened v asp p).mem (radix.slot p 0) = kernelEntry := by
    have hout : ¬(p ≤ v.kpt ∧ v.kpt < p + pgsize) := by
      rw [hkpt, ← page_iff hp]
      exact hne.symm
    have h0 : (opened v asp p).mem p = if p ≤ v.kpt ∧ v.kpt < p + pgsize then 0 else v.mem v.kpt :=
      (update_of_ne (hslot 0 (by decide)) ..).trans (update_self ..)
    rw [show radix.slot p 0 = p from Nat.add_zero p, h0, if_neg hout, hkpt]
    exact hk.pml4
  have hzero : ∀ i < 2 ^ 9, i ≠ 0 → (opened v asp p).mem (radix.slot p i) = 0 := by
    intro i hi h0
    have hnp : radix.slot p i ≠ p := fun he => h0 (Radix.slot_inj (he.trans (Nat.add_zero p).symm))
    refine (update_of_ne (hslot i hi) ..).trans ((update_of_ne hnp ..).trans ?_)
    exact if_pos ((page_iff hp).mp (hpage i hi))
  have hnone : radix.below (opened v asp p).mem levels p = 0 := by
    refine Radix.below_not_own fun l hl i hi => ?_
    cases hl
    by_cases h0 : i = 0
    · rw [h0, hkernel]
      decide
    · rw [hzero i hi h0]
      decide
  have htables : radix.held (opened v asp p).mem levels p = {p} := by
    rw [Radix.held, hnone]
    rfl
  have hdead : ∀ va, InArea va → radix.live ((opened v asp p).mem (radix.slot p ((level 39).idx va))) = false := by
    intro va hva
    rw [idx_area hva, hzero 32 (by decide) (by decide)]
    decide
  have htree : TreeOk (opened v asp p).mem p fun _ => none := by
    refine ⟨hlt, ⟨?_, fun q hq => ?_⟩, hkernel, fun i hi h0 _ => hzero i hi h0, fun va hva => ?_, fun va hva => ?_,
      fun va f hf => absurd hf (Option.some_ne_none f).symm⟩
    · rw [htables]
      exact Multiset.nodup_singleton p
    · rw [htables] at hq
      cases Multiset.mem_singleton.mp hq
      exact hal
    · exact (Radix.value_dead (hdead va hva)).2
    · exact (Radix.value_dead (hdead va hva)).1
  refine ⟨⟨hroot.symm ▸ htree, ?_⟩, ?_, fun x hx hxa => ?_⟩
  · rw [hroot, hentry]
  · rw [tables, hroot]
    exact htables
  · have hxp : x ≠ p := fun he => hx (he.trans (Nat.add_zero p).symm ▸ hpage 0 (by decide))
    refine (update_of_ne hxa ..).trans ((update_of_ne hxp ..).trans ?_)
    exact if_neg fun h => hx ((page_iff hp).mpr h)

theorem unprotect_freed (hok : SpaceOk v.mem asp pages) (hle : tables v.mem asp ≤ v.used) :
    ∃ v', unprotect v asp = .ok v' ∧ Freed v (tables v.mem asp) v' := by
  obtain ⟨v', h, hf⟩ : ∃ v', teardown 1 (shifts.map ptinfo) (root v.mem asp) v = .ok v' ∧
      Freed v (tables v.mem asp) v' :=
    teardown_freed (cons_ne_nil _ _) (Nat.le_refl 1) hle
  refine ⟨v', ?_, hf⟩
  rw [unprotect, pgtables_eq, teardown]
  show List.foldlM _ v [0] >>= _ = _
  rw [foldlM_cons]
  have hentry : (if v.mem asp &&& pteP ≠ 0 ∧ v.mem asp &&& pteU ≠ 0 then
      teardown 1 (shifts.map ptinfo) (baseof (v.mem asp)) v else .ok v) = .ok v' := (if_pos hok.present).trans h
  simp only [Nat.zero_mul, Nat.add_zero, hentry]
  rfl

end

end NjuOs.X86
