import NjuOs.KallocSound
import NjuOs.SlabPlace
import NjuOs.SlabStmts

/-!
# Slab lists without a lock

As long as no other code runs on the CPU between `cpu_current()` and the last store of a call, the
machine refines the allocator with atomic slab operations, and no cell is handed out twice or
lost. Nothing in the code sees to that: a timer interrupt in between is enough to break both.
-/

namespace NjuOs

open Function List Option

/-! ## Steps and runs -/

section
variable {s s' : SlabSys} {g : PmmSys} {a : Agent} {c : Nat}

theorem SlabPlaced.advance {pc' : SlabPc} {g' : PmmSys} (hs : SlabPlaced s) (ha : s.spin.agent c = some a)
    (hin : s.MayWork c a) (h : Advance s g c a pc' s' g') : SlabPlaced s' :=
  hs.goto ha hin h.window h.spin h.pc

theorem caller_some (h : s.caller c = some a) : s.spin.agent c = some a ∧ s.pc a = .out := by
  obtain ⟨b, hb, h⟩ := bind_eq_some_iff.mp h
  split at h
  · next hc =>
    cases h
    exact ⟨hb, hc.2.2.1⟩
  · cases h

theorem SlabRel.enterKfree {ptr : Nat} (hr : SlabRel s g) (hsole : ∀ b, b ≠ a → (s.pc b).window ≠ some c)
    (hpc : s.pc a = .out) (hl : ptr ∈ s.live) : Advance s g c a (.kfreeKind ptr)
      ({ s with live := s.live.erase ptr, freeing := ptr :: s.freeing }.goto a (.kfreeKind ptr)) g := by
  have hlist := hr.list hsole (by rw [hpc]; nofun)
  rw [hpc] at hlist
  constructor
  case spin => rfl
  case pc => rfl
  case window => nofun
  case inv => exact hr.inv
  case start => rfl
  case pmm => exact hr.pmm
  case desc => exact hr.desc
  case taken => nofun
  case others => exact fun _ _ _ => ⟨rfl, rfl⟩
  case heads => exact fun _ _ => rfl
  case caches => exact fun _ _ => rfl
  case next => exact fun _ _ _ => rfl
  case linked => exact hlist
  case loc => exact (hr.addrs ptr).mpr (Or.inl hl)
  case carving =>
    intro x
    rw [hpc]
    simp [SlabPc.carving]
  case freeing =>
    intro p
    rw [hpc]
    simp [SlabPc.freeing, SlabSys.goto, eq_comm]
  case fresh =>
    rintro p ⟨⟩
    exact Or.inr fun hf => (nodup_append.mp hr.nodup).2.2 ptr hl ptr hf rfl
  case keeps => exact fun _ _ h _ => h
  case live =>
    refine hr.live.trans ?_
    exact ((perm_cons_erase hl).append_right s.freeing).trans perm_middle.symm
  case freed => exact hr.freed

/-- What the owner of a live block writes is on no list. -/
theorem SlabRel.write {ptr : Nat} (hr : SlabRel s g) (hl : ptr ∈ s.live) (v : Option Nat) :
    SlabRel (s.setNext ptr v) g := by
  obtain ⟨e, hlive⟩ := (hr.addrs ptr).mpr (Or.inl hl)
  have hnext : ∀ b, (∃ d cls, b ∈ g.pmm.caches d cls) ∨ (∃ a, (s.pc a).freeing = some b ∨
      ∃ x, (s.pc a).carving = some x ∧ b ∈ cells x.2.2 x.2.1) → (s.setNext ptr v).next b = s.next b := by
    intro b hb
    refine update_of_ne ?_ ..
    rintro rfl
    rcases hb with ⟨d, cls, hb⟩ | ⟨a, hb | ⟨x, hx, hb⟩⟩
    · exact hr.inv.listed_not_live hb e hlive
    · exact (nodup_append.mp hr.nodup).2.2 b hl b ((hr.freeing b).mpr ⟨a, hb⟩) rfl
    · exact hr.inv.carve_not_live ((hr.carving x).mpr ⟨a, hx⟩) hb e hlive
  refine { hr with linked := fun c cls => ?_, loc := fun a => ?_ }
  · obtain ⟨l, hlist, hown, hnone⟩ := hr.linked c cls
    refine ⟨l, hlist.congr fun b hb => hnext b ?_, hown, hnone⟩
    rcases mem_append.mp hb with hb | hb
    · by_cases hex : ∃ a, (s.pc a).window = some c
      · obtain ⟨a, ha⟩ := hex
        rw [hown a ha] at hb
        exact Or.inr ⟨a, Or.inr (SlabPc.threaded_cells hb)⟩
      · rw [hnone fun a ha => hex ⟨a, ha⟩] at hb
        cases hb
    · exact Or.inl ⟨c, cls, hb⟩
  · refine (hr.loc a).frame (fun _ _ _ => rfl) (fun b hb => hnext b ?_) fun _ _ _ h => h
    rcases hr.link_owner hb with hb | hb
    · exact Or.inl hb
    · exact Or.inr ⟨a, hb⟩

theorem slab_step {act : SlabAct} (hs : SlabPlaced s) (hr : SlabRel s g) (hsafe : SlabSafe s act)
    (h : s.step act = some s') : SlabPlaced s' ∧ ∃ g', Follows g g' ∧ SlabRel s' g' := by
  have hadvance : ∀ {c a pc' g'}, s.spin.agent c = some a → s.MayWork c a → Follows g g' →
      Advance s g c a pc' s' g' → SlabPlaced s' ∧ ∃ g', Follows g g' ∧ SlabRel s' g' := fun ha hin hf h =>
    ⟨hs.advance ha hin h, _, hf, hr.advance (hs.sole ha hin) (fun _ => hs.window ha) h⟩
  cases act with
  | kalloc c size =>
    obtain ⟨a, ha, h⟩ := bind_eq_some_iff.mp h
    obtain ⟨ha, hpc⟩ := caller_some ha
    have hin : s.MayWork c a := Or.inr hsafe
    split at h
    · cases h
      exact ⟨hs, g, Or.inl rfl, hr⟩
    next h0 =>
    split at h
    · cases h
    · next cls hcls =>
      cases h
      exact hadvance ha hin (Or.inl rfl) (.goto hr (hs.sole ha hin) (fun _ => hs.window ha) hpc nofun
        (sizeToClass_lt hcls) rfl rfl (Or.inl rfl) fun _ => rfl)
    · next hlarge =>
      cases h
      exact hadvance ha hin (Or.inl rfl) (.goto hr (hs.sole ha hin) (fun _ => hs.window ha) hpc nofun
        ⟨h0, hlarge⟩ rfl rfl (Or.inl rfl) fun _ => rfl)
  | kfree c ptr =>
    obtain ⟨a, ha, h⟩ := bind_eq_some_iff.mp h
    obtain ⟨ha, hpc⟩ := caller_some ha
    have hin : s.MayWork c a := Or.inr hsafe
    split at h
    · cases h
      exact ⟨hs, g, Or.inl rfl, hr⟩
    split at h
    · next hl =>
      cases h
      exact hadvance ha hin (Or.inl rfl) (hr.enterKfree (hs.sole ha hin) hpc hl)
    · cases h
  | stmt c =>
    obtain ⟨a, ha, h⟩ := bind_eq_some_iff.mp h
    split at h
    · next hc =>
      have hin : s.MayWork c a := by
        refine Or.inl fun hout => ?_
        simp only [SlabSys.exec, hout, reduceCtorEq] at h
      obtain ⟨pc', g', hf, h⟩ := hr.exec (hs.sole ha hin) hc.1 (fun _ => hs.window ha) h
      exact hadvance ha hin hf h
    · cases h
  | write ptr v =>
    simp only [SlabSys.step] at h
    split at h
    · next hl =>
      cases h
      exact ⟨⟨hs.cpus, hs.task, hs.own, hs.trap⟩, g, Or.inl rfl, hr.write hl v⟩
    · cases h
  | sys act =>
    simp only [SlabSys.step] at h
    split at h
    · next hok =>
      obtain ⟨spin, hspin, rfl⟩ := map_eq_some_iff.mp h
      exact ⟨hs.sys hok hsafe (step_moved hspin).2, g, Or.inl rfl, { hr with }⟩
    · cases h

end

theorem slabRel_init (h : Area) (hroom : h.room) : SlabRel (SlabSys.init h) (PmmSys.init h) := by
  have hcaches : ∀ c cls, (pmmInit h).caches c cls = [] := by
    intro c cls
    rw [(pmmInit_spec h hroom).1.caches]
    rfl
  constructor
  case inv => exact pmmInv_init h hroom
  case pmm => exact (Pmm.over_self (pmmInit h)).symm
  case desc => exact fun i _ => Eq.refl ((pmmInit h).pgtab i)
  case linked =>
    intro c cls
    refine ⟨[], ?_, nofun, fun _ => rfl⟩
    show Linked (fun _ => none) none ([] ++ (pmmInit h).caches c cls)
    rw [hcaches]
    rfl
  case loc => exact fun _ => trivial
  case carving => exact fun x => iff_of_false nofun nofun
  case freeing => exact fun p => iff_of_false nofun nofun
  case live => exact .refl _
  all_goals exact nofun

/-- The machine refines the allocator with atomic slab operations. -/
theorem slab_refines {h : Area} (hroom : h.room) {as : List SlabAct} {s : SlabSys}
    (hsafe : Along SlabSys.step SlabSafe (SlabSys.init h) as) (hrun : run SlabSys.step (SlabSys.init h) as = some s) :
    ∃ bs g, run PmmSys.step (PmmSys.init h) bs = some g ∧ SlabRel s g := by
  have hstep : ∀ s act s' g, SlabPlaced s ∧ SlabRel s g → SlabSafe s act → s.step act = some s' →
      ∃ g', Follows g g' ∧ SlabPlaced s' ∧ SlabRel s' g' := by
    intro s act s' g hs hsafe h
    obtain ⟨hplaced, g', hf, hr⟩ := slab_step hs.1 hs.2 hsafe h
    exact ⟨g', hf, hplaced, hr⟩
  obtain ⟨bs, g, hg, -, hr⟩ := run_refines hstep as _ s _ ⟨slabPlaced_init h, slabRel_init h hroom⟩ hsafe hrun
  exact ⟨bs, g, hg, hr⟩

/-! ## A heap without pages -/

def SlabPc.barren : SlabPc → Bool
  | .out | .kallocCpu _ | .kallocTest _ _ | .refillPage _ _ | .kallocLoad _ _ none | .kallocLarge _ => true
  | _ => false

structure NoCells (s : SlabSys) : Prop where
  lists : ∀ k, s.pmm.freeLists k = []
  heads : ∀ c cls, s.heads c cls = none
  pcs : ∀ a, (s.pc a).barren = true
  live : s.live = []
  freeing : s.freeing = []
  freed : s.freed = []

section
variable {s s' : SlabSys} {a : Agent} {c : Nat}

theorem NoCells.goto {pc' : SlabPc} (hs : NoCells s) (h : pc'.barren = true) : NoCells (s.goto a pc') := by
  refine { hs with pcs := fun b => ?_ }
  show (update s.pc a pc' b).barren = true
  by_cases hb : b = a
  · rw [hb, update_self]
    exact h
  · rw [update_of_ne hb]
    exact hs.pcs b

theorem NoCells.exec (hs : NoCells s) (h : s.exec c a = some s') : NoCells s' := by
  have hbarren := hs.pcs a
  cases hpc : s.pc a <;> rw [hpc] at hbarren <;> try (cases hbarren)
  case out => simp only [SlabSys.exec, hpc, reduceCtorEq] at h
  case kallocCpu cls =>
    simp only [SlabSys.exec, hpc] at h
    cases h
    exact hs.goto rfl
  case kallocTest cpu cls =>
    simp only [SlabSys.exec, hpc, hs.heads] at h
    cases h
    exact hs.goto rfl
  case refillPage cpu cls =>
    simp only [SlabSys.exec, hpc, buddyAlloc_empty hs.lists] at h
    cases h
    exact hs.goto rfl
  case kallocLoad cpu cls fresh =>
    simp only [SlabSys.exec, hpc, hs.heads] at h
    cases h
    exact hs.goto rfl
  case kallocLarge size =>
    simp only [SlabSys.exec, hpc, kallocLarge_empty hs.lists] at h
    cases h
    exact hs.goto rfl

theorem NoCells.step {act : SlabAct} (hs : NoCells s) (h : s.step act = some s') : NoCells s' := by
  cases act with
  | kalloc c size =>
    obtain ⟨a, -, h⟩ := bind_eq_some_iff.mp h
    split at h
    · cases h; exact hs
    split at h
    · cases h
    · cases h; exact hs.goto rfl
    · cases h; exact hs.goto rfl
  | kfree c ptr =>
    obtain ⟨a, -, h⟩ := bind_eq_some_iff.mp h
    split at h
    · cases h; exact hs
    split at h
    · next hl => rw [hs.live] at hl; cases hl
    · cases h
  | stmt c =>
    obtain ⟨a, -, h⟩ := bind_eq_some_iff.mp h
    split at h
    · exact hs.exec h
    · cases h
  | write ptr v =>
    simp only [SlabSys.step, hs.live, not_mem_nil, if_false, reduceCtorEq] at h
  | sys act =>
    simp only [SlabSys.step] at h
    split at h
    · obtain ⟨spin, -, rfl⟩ := map_eq_some_iff.mp h
      exact { hs with }
    · cases h

end

/-! ## Cells -/

/-- No block is handed out a second time before its `kfree`, and every cell that was freed is on a list. -/
structure CellsExact (s : SlabSys) : Prop where
  once : (s.live ++ s.freeing).Nodup
  listed : ∀ b ∈ s.freed, ∃ cpu < maxCpu, ∃ cls < nclass, ∃ l, Linked s.next (s.heads cpu cls) l ∧ b ∈ l

theorem SlabRel.exact {s : SlabSys} {g : PmmSys} (hr : SlabRel s g) : CellsExact s where
  once := hr.nodup
  listed := by
    intro b hb
    obtain ⟨cpu, cls, hc⟩ := hr.freed b hb
    obtain ⟨hcpu, page, hx, -⟩ := hr.inv.slab_of_listed hc
    obtain ⟨l, hl, -⟩ := hr.linked cpu cls
    exact ⟨cpu, hcpu, cls, (hr.inv.slab page cls hx).1, _, hl, mem_append_right l hc⟩

theorem cells_exact {h : Area} {as : List SlabAct} {s : SlabSys}
    (hsafe : Along SlabSys.step SlabSafe (SlabSys.init h) as) (hrun : run SlabSys.step (SlabSys.init h) as = some s) :
    CellsExact s := by
  by_cases hroom : h.room
  · obtain ⟨bs, g, -, hr⟩ := slab_refines hroom hsafe hrun
    exact hr.exact
  · have hinit : NoCells (SlabSys.init h) := by
      refine ⟨fun k => ?_, fun _ _ => rfl, fun _ => rfl, rfl, rfl, rfl⟩
      simp only [SlabSys.init, pmmInit_noRoom hroom]
      rfl
    have hs := run_inv (fun _ _ _ => NoCells.step) as _ s hinit hrun
    refine ⟨?_, ?_⟩
    · rw [hs.live, hs.freeing]
      exact nodup_nil
    · rw [hs.freed]
      nofun

def stmtActs (c n : Nat) : List SlabAct := List.replicate n (.stmt c)

def slabBoot : List SlabAct := (createActs 2 ++ switchActs (.yield 0) 0).map .sys

def slabTimer : List SlabAct := (switchActs (.timer 0) 0).map .sys

def calmActs : List SlabAct :=
  slabBoot ++ .kalloc 0 2048 :: stmtActs 0 14 ++ .kalloc 0 2048 :: stmtActs 0 5 ++ slabTimer ++ slabTimer ++
    .kfree 0 14336 :: stmtActs 0 6

theorem cells_exact_calm : Along SlabSys.step SlabSafe (SlabSys.init smallArea) calmActs ∧
    ∃ s, run SlabSys.step (SlabSys.init smallArea) calmActs = some s ∧ s.live = [12288] ∧ s.freed = [14336] ∧
      CellsExact s := by
  have hrun : passes SlabSys.step (fun s a => decide (SlabSafe s a))
      (fun s => decide (s.live = [12288] ∧ s.freed = [14336])) (SlabSys.init smallArea) calmActs = true := by
    decide +kernel
  obtain ⟨s, hs, hc, h⟩ := passes_run (fun s a h => of_decide_eq_true h) hrun
  obtain ⟨hlive, hfreed⟩ := of_decide_eq_true h
  exact ⟨hc, s, hs, hlive, hfreed, cells_exact hc hs⟩

/-- A thread is preempted in `kalloc` when it has loaded the head of the list; the other one takes that cell. -/
def twiceActs : List SlabAct :=
  slabBoot ++ .kalloc 0 2048 :: stmtActs 0 12 ++ slabTimer ++ .kalloc 0 2048 :: stmtActs 0 5 ++
    slabTimer ++ stmtActs 0 2

def lostActs : List SlabAct :=
  slabBoot ++ .kalloc 0 2048 :: stmtActs 0 14 ++ .kalloc 0 2048 :: stmtActs 0 5 ++ .kfree 0 14336 :: stmtActs 0 4 ++
    slabTimer ++ .kfree 0 12288 :: stmtActs 0 6 ++ slabTimer ++ stmtActs 0 2

/-- In the first run the cell at 14336 is returned twice; in the second one the cell at 12288 is freed
and on no list. -/
theorem cells_race :
    (∃ s, run SlabSys.step (SlabSys.init smallArea) twiceActs = some s ∧ s.live = [14336, 14336] ∧ ¬ CellsExact s) ∧
    ∃ s, run SlabSys.step (SlabSys.init smallArea) lostActs = some s ∧ s.freed = [14336, 12288] ∧
      (∀ cpu < maxCpu, ∀ cls < nclass, ∀ l, Linked s.next (s.heads cpu cls) l → 12288 ∉ l) ∧ ¬ CellsExact s := by
  have htwice : (run SlabSys.step (SlabSys.init smallArea) twiceActs).any
      (fun s => s.live = [14336, 14336]) = true := by decide +kernel
  have hlost : (run SlabSys.step (SlabSys.init smallArea) lostActs).any (fun s => s.freed = [14336, 12288] ∧
      s.next 14336 = none ∧
      ∀ cpu < maxCpu, ∀ cls < nclass, s.heads cpu cls = none ∨ s.heads cpu cls = some 14336) = true := by
    decide +kernel
  obtain ⟨s, hs, h⟩ := (any_eq_true _ _).mp htwice
  obtain ⟨t, ht, h'⟩ := (any_eq_true _ _).mp hlost
  have hlive := of_decide_eq_true h
  obtain ⟨hfreed, hnext, hheads⟩ := of_decide_eq_true h'
  have hmiss : ∀ cpu < maxCpu, ∀ cls < nclass, ∀ l, Linked t.next (t.heads cpu cls) l → 12288 ∉ l := by
    intro cpu hcpu cls hcls l hl
    rcases hheads cpu hcpu cls hcls with hnone | hhead
    · rw [hl.unique (show Linked t.next _ [] from hnone)]
      nofun
    · rw [hl.unique (show Linked t.next _ [14336] from ⟨hhead, hnext⟩)]
      decide
  refine ⟨⟨s, hs, hlive, fun hex => ?_⟩, t, ht, hfreed, hmiss, fun hex => ?_⟩
  · have hnodup := hex.once
    rw [hlive] at hnodup
    exact (nodup_cons.mp hnodup).1 mem_cons_self
  · obtain ⟨cpu, hcpu, cls, hcls, l, hl, hmem⟩ := hex.listed 12288 (by rw [hfreed]; decide)
    exact hmiss cpu hcpu cls hcls l hl hmem

end NjuOs
