import NjuOs.X86Spaces

/-!
# The page tables refine the address spaces

Every table is in a page of its own, of its own space. So a call on one space leaves the others as they are,
and `unprotect` gives back what the space has taken.
-/

namespace NjuOs.X86

open Function List

structure SysInv (s : Sys) (t : Spec) : Prop where
  spaces : t.spaces = s.spaces
  kpt : s.vm.kpt = pml4Addr
  kernel : KernelMem s.vm.mem
  ok : ∀ asp ∈ s.spaces, SpaceOk s.vm.mem asp (t.pages asp)
  used : (s.vm.used : Multiset Nat) = bag (tables s.vm.mem) s.spaces
  distinct : s.vm.used.Nodup
  nodup : s.spaces.Nodup
  outside : ∀ p ∈ s.vm.used, p ≠ pml4Addr ∧ p ≠ pdptAddr
  place : ∀ asp ∈ s.spaces, s.vm.free (radix.page asp)

def Elsewhere (s : Sys) (asp x : Nat) : Prop := radix.page x = pml4Addr ∨ radix.page x = pdptAddr ∨
  ∃ b ∈ s.spaces, b ≠ asp ∧ (x = b ∨ radix.page x ∈ tables s.vm.mem b)

section
variable {s s' : Sys} {t : Spec} {asp b x a : Nat} {ps new : List Nat} {mem' : Nat → Nat} {v' : Vm} {act : Act}

theorem SysInv.mem_used (hi : SysInv s t) (hb : b ∈ s.spaces) (hx : x ∈ tables s.vm.mem b) : x ∈ s.vm.used := by
  rw [← Multiset.mem_coe, hi.used]
  exact (mem_bag _).mpr ⟨b, hb, hx⟩

theorem SysInv.tables_le (hi : SysInv s t) (hb : b ∈ s.spaces) : tables s.vm.mem b ≤ s.vm.used := by
  rw [hi.used, bag_erase _ hb]
  exact Multiset.le_add_right _ _

theorem SysInv.asp_notMem (hi : SysInv s t) (ha : asp ∈ s.spaces) (hb : b ∈ s.spaces) :
    radix.page asp ∉ tables s.vm.mem b := fun hm => (hi.place asp ha).1 (hi.mem_used hb hm)

theorem Elsewhere.notMem_fresh (hx : Elsewhere s asp x) (hi : SysInv s t) (hf : s.fresh ps) : radix.page x ∉ ps := by
  intro hm
  obtain ⟨-, -, -, ⟨hused, hpml4, hpdpt⟩, hasp⟩ := hf.2 _ hm
  rcases hx with hx | hx | ⟨b, hb, -, rfl | hx⟩
  · exact hpml4 hx
  · exact hpdpt hx
  · exact hasp x hb rfl
  · exact hused (hi.mem_used hb hx)

theorem Elsewhere.notMem_tables (hx : Elsewhere s asp x) (hi : SysInv s t) (ha : asp ∈ s.spaces) :
    radix.page x ∉ tables s.vm.mem asp := by
  intro hm
  obtain ⟨hpml4, hpdpt⟩ := hi.outside _ (hi.mem_used ha hm)
  rcases hx with hx | hx | ⟨b, hb, hne, rfl | hx⟩
  · exact hpml4 hx
  · exact hpdpt hx
  · exact hi.asp_notMem hb ha hm
  · have hnd : (bag (tables s.vm.mem) s.spaces).Nodup := hi.used ▸ hi.distinct
    exact Multiset.disjoint_left.mp (disjoint_of_nodup_bag _ hnd hb ha hne) hx hm

theorem Elsewhere.ne (hx : Elsewhere s asp x) (hi : SysInv s t) (ha : s.vm.free (radix.page asp)) : x ≠ asp := by
  intro he
  obtain ⟨hused, hpml4, hpdpt⟩ := he ▸ ha
  rcases hx with hx | hx | ⟨b, hb, hne, rfl | hx⟩
  · exact hpml4 hx
  · exact hpdpt hx
  · exact hne he
  · exact hused (hi.mem_used hb hx)

theorem SysInv.kept (hi : SysInv s t) (heq : ∀ x, Elsewhere s asp x → mem' x = s.vm.mem x) :
    KernelMem mem' ∧ ∀ b ∈ s.spaces, b ≠ asp → SpaceOk mem' b (t.pages b) ∧ tables mem' b = tables s.vm.mem b := by
  refine ⟨hi.kernel.congr fun x hx => heq x (hx.imp id Or.inl), fun b hb hne => ?_⟩
  exact (hi.ok b hb).congr (heq b (Or.inr (Or.inr ⟨b, hb, hne, Or.inl rfl⟩))) fun x hx =>
    heq x (Or.inr (Or.inr ⟨b, hb, hne, Or.inr hx⟩))

theorem SysInv.room (hi : SysInv s t) (ha : asp ∈ s.spaces) (hf : s.fresh ps) : Room s.vm asp ps where
  out := ⟨hi.asp_notMem ha ha, fun hm => (hf.2 _ hm).2.2.2.2 asp ha rfl⟩
  spare := ⟨hf.1, fun p hp => ⟨(hf.2 p hp).2.1, (hf.2 p hp).2.2.1⟩, fun p hp hm =>
    (hf.2 p hp).2.2.2.1.1 (hi.mem_used ha hm)⟩

theorem Sys.step_some (h : s.step act = some s') : s.may act ∧ s.call act = .ok s' := by
  unfold Sys.step at h
  split at h
  · next hm => exact ⟨hm, toOption_some h⟩
  · cases h

/-! ## The calls -/

theorem SysInv.protect {pages : List Nat} (hi : SysInv s t) (hm : s.may (.protect asp pages))
    (h : X86.protect s.vm asp pages = .ok v') :
    ∃ t', t.step (.protect asp pages) = some t' ∧ SysInv { s with vm := v', spaces := asp :: s.spaces } t' := by
  obtain ⟨hnew, -, hplace, hout, hf⟩ := hm
  obtain ⟨p, ps, rfl, rfl⟩ := protect_opened h
  obtain ⟨-, hp, hlt, ⟨hused, hpml4, hpdpt⟩, hlive⟩ := hf.2 p (mem_cons_self ..)
  have hasp : radix.page asp ≠ p := ne_of_not_mem_cons hout
  obtain ⟨hok, htab, hframe⟩ := opened_ok hi.kernel hi.kpt hp hlt hpml4 hasp
  have hpx : ∀ x, Elsewhere s asp x → (opened s.vm asp p).mem x = s.vm.mem x := fun x hx =>
    hframe x (fun he => hx.notMem_fresh hi hf (he ▸ mem_cons_self ..)) (hx.ne hi hplace)
  obtain ⟨hkernel, hothers⟩ := hi.kept hpx
  have hne : ∀ b ∈ s.spaces, b ≠ asp := fun b hb he => hnew (he ▸ hb)
  have hfree : ∀ b, s.vm.free (radix.page b) → radix.page b ≠ p → (opened s.vm asp p).free (radix.page b) :=
    fun b hb hne => ⟨not_mem_cons_of_ne_of_not_mem hne hb.1, hb.2⟩
  refine ⟨_, if_neg (hi.spaces ▸ hnew), ?_, hi.kpt, hkernel, ?_, ?_, ?_, ?_, ?_, ?_⟩
  · exact congrArg (asp :: ·) hi.spaces
  · intro b hb
    rcases mem_cons.mp hb with rfl | hb
    · show SpaceOk _ b (update t.pages b _ b)
      rw [update_self]
      exact hok
    · show SpaceOk _ b (update t.pages asp _ b)
      rw [update_of_ne (hne b hb)]
      exact (hothers b hb (hne b hb)).1
  · rw [bag_cons, htab, bag_congr _ fun b hb => (hothers b hb (hne b hb)).2, ← hi.used, Multiset.singleton_add]
    rfl
  · exact nodup_cons.mpr ⟨hused, hi.distinct⟩
  · exact nodup_cons.mpr ⟨hnew, hi.nodup⟩
  · intro q hq
    rcases mem_cons.mp hq with rfl | hq
    · exact ⟨hpml4, hpdpt⟩
    · exact hi.outside q hq
  · intro b hb
    rcases mem_cons.mp hb with rfl | hb
    · exact hfree b hplace hasp
    · exact hfree b (hi.place b hb) (hlive b hb)

theorem SysInv.map {va pa prot : Nat} {pages : List Nat} (hi : SysInv s t) (hm : s.may (.map asp va pa prot pages))
    (h : X86.map s.vm asp va pa prot pages = .ok v') :
    ∃ t', t.step (.map asp va pa prot pages) = some t' ∧ SysInv { s with vm := v' } t' := by
  obtain ⟨ha, hlt, hf⟩ := hm
  obtain ⟨hcond, hok, new, ps, rfl, hc⟩ := map_changed (hi.ok asp ha) (hi.room ha hf) hlt h
  have hnew : ∀ p ∈ new, p ∈ new ++ ps := fun p hp => mem_append_left ps hp
  have hpx : ∀ x, Elsewhere s asp x → v'.mem x = s.vm.mem x := fun x hx =>
    hc.frame x (hx.notMem_tables hi ha) fun hn => hx.notMem_fresh hi hf (hnew _ hn)
  obtain ⟨hkernel, hothers⟩ := hi.kept hpx
  have hmappable : t.mappable asp va pa prot := ⟨hi.spaces ▸ ha, hcond⟩
  have hperm : v'.used.Perm (new ++ s.vm.used) := Multiset.coe_eq_coe.mp hc.used
  refine ⟨_, if_pos hmappable, hi.spaces, hc.kpt.trans hi.kpt, hkernel, ?_, ?_, ?_, hi.nodup, ?_, ?_⟩
  · intro b hb
    show SpaceOk _ b (update t.pages asp _ b)
    by_cases hne : b = asp
    · rw [hne, update_self]
      exact hok
    · rw [update_of_ne hne]
      exact (hothers b hb hne).1
  · have hrest : bag (tables v'.mem) (s.spaces.erase asp) = bag (tables s.vm.mem) (s.spaces.erase asp) := by
      apply bag_congr
      intro b hb
      obtain ⟨hne, hb⟩ := (List.Nodup.mem_erase_iff hi.nodup).mp hb
      exact (hothers b hb hne).2
    rw [hc.used, hi.used, bag_erase _ ha, bag_erase (tables v'.mem) ha, hrest, hc.tables]
    abel
  · rw [hperm.nodup_iff, nodup_append]
    refine ⟨(nodup_append.mp hf.1).1, hi.distinct, fun p hp q hq he => ?_⟩
    exact (hf.2 p (hnew p hp)).2.2.2.1.1 (he ▸ hq)
  · intro p hp
    rcases mem_append.mp (hperm.mem_iff.mp hp) with hp | hp
    · exact (hf.2 p (hnew p hp)).2.2.2.1.2
    · exact hi.outside p hp
  · intro b hb
    refine ⟨fun hu => ?_, (hi.place b hb).2⟩
    rcases mem_append.mp (hperm.mem_iff.mp hu) with hp | hp
    · exact (hf.2 _ (hnew _ hp)).2.2.2.2 b hb rfl
    · exact (hi.place b hb).1 hp

theorem SysInv.unprotect (hi : SysInv s t) (ha : asp ∈ s.spaces) (h : X86.unprotect s.vm asp = .ok v') :
    ∃ t', t.step (.unprotect asp) = some t' ∧ SysInv { s with vm := v', spaces := s.spaces.erase asp } t' := by
  obtain ⟨v1, h1, hf⟩ := unprotect_freed (hi.ok asp ha) (hi.tables_le ha)
  cases h1.symm.trans h
  have hused : (v'.used : Multiset Nat) = bag (tables s.vm.mem) (s.spaces.erase asp) := by
    have heq := hf.used
    rw [hi.used, bag_erase _ ha] at heq
    exact (add_left_cancel heq).symm
  have hle : (v'.used : Multiset Nat) ≤ s.vm.used := by
    rw [hf.used]
    exact Multiset.le_add_left _ _
  refine ⟨_, if_pos (hi.spaces ▸ ha), ?_, hf.kpt.trans hi.kpt, ?_, ?_, ?_, ?_, ?_, ?_, ?_⟩
  · exact congrArg (List.erase · asp) hi.spaces
  · rw [show KernelMem v'.mem ↔ KernelMem s.vm.mem from hf.mem ▸ Iff.rfl]
    exact hi.kernel
  · intro b hb
    have hok := hi.ok b (mem_of_mem_erase hb)
    rw [← hf.mem] at hok
    exact hok
  · rw [← hf.mem] at hused
    exact hused
  · exact Multiset.coe_nodup.mp (Multiset.nodup_of_le hle hi.distinct)
  · exact hi.nodup.erase asp
  · exact fun p hp => hi.outside p (Multiset.mem_of_le hle hp)
  · intro b hb
    obtain ⟨hout, htables⟩ := hi.place b (mem_of_mem_erase hb)
    exact ⟨fun hu => hout (Multiset.mem_of_le hle hu), htables⟩

theorem SysInv.write (hi : SysInv s t) (hm : s.may (.write a x)) : SysInv { s with vm := s.vm.store a x } t := by
  obtain ⟨-, ha, hused, hpml4, hpdpt⟩ := hm
  have hmem : ∀ y, y ≠ a → (s.vm.store a x).mem y = s.vm.mem y := fun y hy => update_of_ne hy ..
  have hkept : ∀ b ∈ s.spaces, SpaceOk (s.vm.store a x).mem b (t.pages b) ∧
      tables (s.vm.store a x).mem b = tables s.vm.mem b := fun b hb =>
    (hi.ok b hb).congr (hmem b fun he => ha (he ▸ hb)) fun y hy =>
      hmem y fun he => hused (hi.mem_used hb (he ▸ hy))
  refine ⟨hi.spaces, hi.kpt, hi.kernel.congr fun y hy => hmem y ?_, fun b hb => (hkept b hb).1, ?_, hi.distinct,
    hi.nodup, hi.outside, hi.place⟩
  · rintro rfl
    exact hy.elim hpml4 hpdpt
  · rw [bag_congr _ fun b hb => (hkept b hb).2]
    exact hi.used

theorem SysInv.step (hi : SysInv s t) (h : s.step act = some s') : ∃ t', t.step act = some t' ∧ SysInv s' t' := by
  obtain ⟨hm, h⟩ := Sys.step_some h
  cases act with
  | protect asp pages =>
    obtain ⟨v', hv, h⟩ := bind_ok h
    cases h
    exact hi.protect hm hv
  | map asp va pa prot pages =>
    obtain ⟨v', hv, h⟩ := bind_ok h
    cases h
    exact hi.map hm hv
  | unprotect asp =>
    obtain ⟨v', hv, h⟩ := bind_ok h
    cases h
    exact hi.unprotect hm hv
  | write a x =>
    cases h
    exact ⟨t, rfl, hi.write hm⟩

end

theorem bootMem_kernel (mem : Nat → Nat) : KernelMem (bootMem mem) := by
  constructor
  · exact if_pos rfl
  · intro i hi
    have hslot : radix.slot pdptAddr i = 8192 + i * 8 := rfl
    have hpml4 : pml4Addr = 4096 := rfl
    have hpdpt : pdptAddr = 8192 := rfl
    have hidx : (radix.slot pdptAddr i - pdptAddr) / 8 = i := by omega
    rw [bootMem, if_neg (by omega), if_pos ⟨by omega, by unfold pgsize; omega, by omega⟩, hidx]

theorem boot_inv (mem : Nat → Nat) : SysInv (Sys.boot mem) Spec.init where
  spaces := rfl
  kpt := rfl
  kernel := bootMem_kernel mem
  ok := fun _ h => absurd h not_mem_nil
  used := rfl
  distinct := nodup_nil
  nodup := nodup_nil
  outside := fun _ h => absurd h not_mem_nil
  place := fun _ h => absurd h not_mem_nil

/-! ## Whole runs -/

section
variable {mem : Nat → Nat} {acts : List Act} {s : Sys} {asp va pa prot : Nat} {pages l : List Nat}

theorem reached (h : run Sys.step (Sys.boot mem) acts = some s) :
    ∃ t, run Spec.step Spec.init acts = some t ∧ SysInv s t :=
  run_simulates (fun _ _ _ _ hi => hi.step) acts (Sys.boot mem) s Spec.init (boot_inv mem) h

theorem tables_refine (h : run Sys.step (Sys.boot mem) acts = some s) :
    ∃ t, run Spec.step Spec.init acts = some t ∧ t.spaces = s.spaces ∧
      ∀ asp ∈ s.spaces, ∀ va < 2 ^ 48, translate s.vm.mem (s.vm.mem asp) va = t.access asp va := by
  obtain ⟨t, ht, hi⟩ := reached h
  exact ⟨t, ht, hi.spaces, fun asp ha va hva => (hi.ok asp ha).translate hi.kernel hva⟩

/-- Two spaces with the same page at different frames; one of them is unmapped again. A third space is gone
when its page is handed out as a table. -/
def twoSpaces : List Act :=
  [.protect 0x11018 [0x10000], .unprotect 0x11018, .protect 0x5018 [0x10000],
    .map 0x5018 0x100000000000 0x77000 3 [0x11000, 0x12000, 0x13000], .write 0x77000 5,
    .protect 0x5038 [0x14000, 0x15000], .map 0x5038 0x100000000000 0x78000 1 [0x15000, 0x16000, 0x17000],
    .map 0x5018 0x107ffffff000 0x79000 1 [0x18000, 0x19000], .map 0x5038 0x100000000000 0 0 []]

theorem twoSpaces_passes : passes Sys.step (fun _ _ => true)
    (fun s => decide (s.may (.map 0x5018 0x100000001000 0x7a000 1 [0x1a000, 0x1b000, 0x1c000]) ∧
      s.may (.map 0x5018 0x100000000000 0x7a000 1 [0x1a000, 0x1b000, 0x1c000]) ∧ s.spaces = [0x5038, 0x5018] ∧
      (translate s.vm.mem (s.vm.mem 0x5018) 0x100000001000).isSome = false ∧
      (translate s.vm.mem (s.vm.mem 0x5018) 0x100000000000).isSome = true))
    (Sys.boot fun _ => 0) twoSpaces = true := by
  decide +kernel

theorem tables_refine_two_spaces : ∃ s, run Sys.step (Sys.boot fun _ => 0) twoSpaces = some s ∧
    s.spaces = [0x5038, 0x5018] ∧ ∃ t, run Spec.step Spec.init twoSpaces = some t ∧ t.spaces = s.spaces ∧
      ∀ asp ∈ s.spaces, ∀ va < 2 ^ 48, translate s.vm.mem (s.vm.mem asp) va = t.access asp va := by
  obtain ⟨s, h, -, hp⟩ := passes_run (C := fun _ _ => True) (fun _ _ _ => trivial) twoSpaces_passes
  exact ⟨s, h, (of_decide_eq_true hp).2.2.1, tables_refine h⟩

theorem map_returns_iff (h : run Sys.step (Sys.boot mem) acts = some s)
    (hm : s.may (.map asp va pa prot pages)) (hlen : 3 ≤ pages.length) :
    ((∃ v', map s.vm asp va pa prot pages = .ok v') ↔ InArea va ∧ va % pgsize = 0 ∧ pa % pgsize = 0 ∧
      (prot = mmapNone ↔ (translate s.vm.mem (s.vm.mem asp) va).isSome)) ∧
    ∀ x, map s.vm asp va pa prot pages = .error x → ∃ msg ∈ mapPanics, x = .panic msg := by
  obtain ⟨t, -, hi⟩ := reached h
  obtain ⟨ha, hlt, hf⟩ := hm
  have hok := hi.ok asp ha
  have hroom := hi.room ha hf
  have hmapped : InArea va → va % pgsize = 0 →
      (translate s.vm.mem (s.vm.mem asp) va).isSome = (t.pages asp va).isSome := by
    intro hva hal
    have hva48 : va < 2 ^ 48 := lt_of_lt_of_le hva.2 (by decide)
    have hlow : ¬va < kernelEnd := not_lt.mpr (le_trans (by decide) hva.1)
    have hpage : va / pgsize * pgsize = va := by
      unfold pgsize at *
      omega
    rw [hok.translate hi.kernel hva48, Spec.access, if_neg hlow, if_pos hva, hpage, Option.isSome_map]
  refine ⟨⟨?_, ?_⟩, fun x hx => map_panics hok hroom hlt hlen hx⟩
  · rintro ⟨v', hv⟩
    obtain ⟨⟨hva, hal, hpa, hprot⟩, -⟩ := map_changed hok hroom hlt hv
    rw [← hmapped hva hal] at hprot
    exact ⟨hva, hal, hpa, hprot⟩
  · rintro ⟨hva, hal, hpa, hprot⟩
    rw [hmapped hva hal] at hprot
    exact map_total hok hroom hlt hlen hva hal hpa hprot

theorem map_returns_iff_two_spaces : ∃ s, run Sys.step (Sys.boot fun _ => 0) twoSpaces = some s ∧
    (∃ v', map s.vm 0x5018 0x100000001000 0x7a000 1 [0x1a000, 0x1b000, 0x1c000] = .ok v') ∧
    ∃ msg ∈ mapPanics, map s.vm 0x5018 0x100000000000 0x7a000 1 [0x1a000, 0x1b000, 0x1c000] = .error (.panic msg) := by
  obtain ⟨s, h, -, hp⟩ := passes_run (C := fun _ _ => True) (fun _ _ _ => trivial) twoSpaces_passes
  obtain ⟨hnew, hold, -, hfree, htaken⟩ := of_decide_eq_true hp
  refine ⟨s, h, (map_returns_iff h hnew (by decide)).1.mpr ⟨by decide, by decide, by decide, ?_⟩, ?_⟩
  · rw [hfree]
    decide
  · obtain ⟨hiff, hpanic⟩ := map_returns_iff h hold (by decide)
    cases hmap : map s.vm 0x5018 0x100000000000 0x7a000 1 [0x1a000, 0x1b000, 0x1c000] with
    | ok v' =>
      obtain ⟨-, -, -, hprot⟩ := hiff.mp ⟨v', hmap⟩
      exact absurd (hprot.mpr htaken) (by decide)
    | error x =>
      obtain ⟨msg, hmsg, rfl⟩ := hpanic x hmap
      exact ⟨msg, hmsg, rfl⟩

theorem SysInv.unprotect_all : ∀ {l : List Nat} {s : Sys} {t : Spec}, SysInv s t → l.Perm s.spaces →
    ∃ s', run Sys.step s (l.map .unprotect) = some s' ∧ s'.spaces = [] ∧ s'.vm.used = [] ∧ s'.vm.mem = s.vm.mem
  | [], s, t, hi, hl => by
    have hnil : s.spaces = [] := hl.nil_eq.symm
    have hused := hi.used
    rw [hnil] at hused
    exact ⟨s, rfl, hnil, (Multiset.coe_eq_zero _).mp hused, rfl⟩
  | asp :: l, s, t, hi, hl => by
    have ha : asp ∈ s.spaces := hl.mem_iff.mp (mem_cons_self ..)
    obtain ⟨v, hv, hf⟩ := unprotect_freed (hi.ok asp ha) (hi.tables_le ha)
    obtain ⟨t', -, hi'⟩ := hi.unprotect ha hv
    obtain ⟨s', hr, hsp, hu, hmem⟩ := hi'.unprotect_all (cons_perm_iff_perm_erase.mp hl).2
    refine ⟨s', ?_, hsp, hu, hmem.trans hf.mem⟩
    have hstep : s.step (.unprotect asp) = some { s with vm := v, spaces := s.spaces.erase asp } := by
      rw [Sys.step, if_pos (show s.may (.unprotect asp) from ha), Sys.call, hv]
      rfl
    rw [map_cons, run_cons, hstep]
    exact hr

/-- In whichever order the spaces go, all pages come back, each of them once. -/
theorem pages_return (h : run Sys.step (Sys.boot mem) acts = some s) (hl : l.Perm s.spaces) :
    ∃ s', run Sys.step s (l.map .unprotect) = some s' ∧ s'.spaces = [] ∧ s'.vm.used = [] ∧
      s'.vm.mem = s.vm.mem := by
  obtain ⟨t, -, hi⟩ := reached h
  exact hi.unprotect_all hl

theorem pages_return_two_spaces : ∃ s s', run Sys.step (Sys.boot fun _ => 0) twoSpaces = some s ∧
    run Sys.step s [.unprotect 0x5018, .unprotect 0x5038] = some s' ∧ s'.spaces = [] ∧ s'.vm.used = [] ∧
      s'.vm.mem = s.vm.mem := by
  obtain ⟨s, h, -, hp⟩ := passes_run (C := fun _ _ => True) (fun _ _ _ => trivial) twoSpaces_passes
  have hl : [0x5018, 0x5038].Perm s.spaces := by
    rw [(of_decide_eq_true hp).2.2.1]
    exact List.Perm.swap ..
  obtain ⟨s', hs'⟩ := pages_return h hl
  exact ⟨s, s', h, hs'⟩

end

end NjuOs.X86
