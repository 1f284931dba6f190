import NjuOs.SlabRefine

/-!
# Every statement of `kalloc` and `kfree`

Each statement advances the two states together. The allocator makes its step when a page is
taken, at the last store of a call, and in a locked section; at all other statements it waits.
-/

namespace NjuOs

open Function List Option

/-! ## Threading the cells of a page -/

theorem length_cells (page cls : Nat) : (cells page cls).length = pageSize / classSize cls := by
  rw [cells, length_map, length_range]

theorem threadedCells_succ {page cls i : Nat} (hi : i < pageSize / classSize cls) :
    threadedCells page cls (i + 1) cls = (page + i * classSize cls) :: threadedCells page cls i cls := by
  have hget : (cells page cls)[i]? = some (page + i * classSize cls) := by
    simp [cells, hi]
  simp only [threadedCells, ite_true, take_add_one, hget, toList_some, reverse_append,
    reverse_singleton, singleton_append]

theorem threadedCells_ne {page cls cls' : Nat} (h : cls' ≠ cls) (n : Nat) : threadedCells page cls n cls' = [] :=
  if_neg h

theorem threadedCells_ne_nil (page : Nat) {cls : Nat} (hcls : cls < nclass) :
    threadedCells page cls (pageSize / classSize cls) cls ≠ [] := by
  have hpos : 0 < pageSize / classSize cls := by
    revert cls
    decide
  obtain ⟨n, hn⟩ := Nat.exists_eq_succ_of_ne_zero (Nat.pos_iff_ne_zero.mp hpos)
  rw [hn, Nat.succ_eq_add_one, threadedCells_succ (by omega)]
  exact cons_ne_nil _ _

/-- The test of the loop decides between the next cell and the rest of `kalloc`. -/
theorem refillNext_spec (cpu page : Nat) {cls i : Nat} (hcls : cls < nclass) (hi : i ≤ pageSize / classSize cls) :
    (refillNext cpu cls page i).window = some cpu ∧ (refillNext cpu cls page i).carving = some (cpu, cls, page) ∧
    (refillNext cpu cls page i).freeing = none ∧
    (∀ d, (refillNext cpu cls page i).desc d = { d with kind := .slab, objSize := classSize cls }) ∧
    (∀ cls', (refillNext cpu cls page i).threaded cls' = threadedCells page cls i cls') ∧
    ∀ heads next live, (refillNext cpu cls page i).Local heads next live := by
  unfold refillNext
  split
  · next h => exact ⟨rfl, rfl, rfl, fun _ => rfl, fun _ => rfl, fun _ _ _ => ⟨hcls, h⟩⟩
  · next h =>
    have hn : i = pageSize / classSize cls := by omega
    exact ⟨rfl, rfl, rfl, fun _ => rfl, fun _ => by rw [hn]; rfl, fun _ _ _ => hcls⟩

theorem cell_not_threaded {page cls i : Nat} (hcls : cls < nclass) (hi : i < pageSize / classSize cls) (cls' : Nat) :
    page + i * classSize cls ∉ threadedCells page cls i cls' := by
  by_cases h : cls' = cls
  · subst h
    have hnd : (threadedCells page cls' (i + 1) cls').Nodup := by
      rw [threadedCells, if_pos rfl]
      exact nodup_reverse.mpr ((take_sublist _ _).nodup (nodup_cells hcls))
    rw [threadedCells_succ hi] at hnd
    exact (nodup_cons.mp hnd).1
  · rw [threadedCells_ne h]
    exact not_mem_nil

section
variable (s : SlabSys) (c cls : Nat) (o : Option Nat)

theorem setHead_self : (s.setHead c cls o).heads c cls = o := by
  simp only [SlabSys.setHead, update_self]

theorem setHead_cls {cls' : Nat} (h : cls' ≠ cls) : (s.setHead c cls o).heads c cls' = s.heads c cls' := by
  simp only [SlabSys.setHead, update_self, update_of_ne h]

theorem setHead_cpu {d : Nat} (h : d ≠ c) : (s.setHead c cls o).heads d = s.heads d := update_of_ne h ..

end

section
variable {s s' : SlabSys} {g : PmmSys} {a : Agent} {c cls page i : Nat}

theorem SlabRel.descOf (hr : SlabRel s g) (x : Nat) : NjuOs.descOf s.pmm x = NjuOs.descOf g.pmm x := by
  rw [hr.pmm]
  rfl

variable (hr : SlabRel s g) (hsole : ∀ b, b ≠ a → (s.pc b).window ≠ some c)
include hr

theorem SlabRel.descOf_taken {cpu : Nat} (h : (s.pc a).carving = some (cpu, cls, page)) :
    NjuOs.descOf s.pmm page = pageIdx g.pmm page := by
  rw [hr.descOf]
  exact (hr.inv.carve_index ((hr.carving _).mpr ⟨a, h⟩)).1

theorem Advance.setDesc {d : PageDesc} {pc' : SlabPc} (hsole : ∀ b, b ≠ a → (s.pc b).window ≠ some c)
    (hcarve : (s.pc a).carving = some (c, cls, page)) (hfree : (s.pc a).freeing = none)
    (hthreaded : ∀ cls', (s.pc a).threaded cls' = []) (hwindow : pc'.window = some c)
    (hcarve' : pc'.carving = some (c, cls, page)) (hfree' : pc'.freeing = none)
    (hthreaded' : ∀ cls', pc'.threaded cls' = []) (hdesc : d = pc'.desc (g.pmm.pgtab (pageIdx g.pmm page)))
    (hloc : pc'.Local s.heads s.next g.live) :
    Advance s g c a pc' ({ s with pmm := s.pmm.setDesc (NjuOs.descOf s.pmm page) d }.goto a pc') g := by
  have hwin : ∀ e, (s.pc a).window = some e → e = c := by
    intro e he
    rw [SlabPc.carving_window hcarve] at he
    cases he
    rfl
  rw [hr.descOf_taken hcarve]
  refine .same hr rfl rfl ?_ rfl (fun j hj => ?_) (fun x hx => ?_) (fun _ _ => rfl) (fun _ _ _ => rfl)
    (fun cls' => ?_) hloc (hcarve'.trans hcarve.symm) (hfree'.trans hfree.symm) rfl rfl rfl
  · intro e he
    rw [hwindow] at he
    cases he
    rfl
  · exact update_of_ne (Ne.symm (hj _ hcarve)) ..
  · rw [hcarve'] at hx
    cases hx
    exact (update_self ..).trans hdesc
  · rw [hthreaded']
    have hl := hr.list hsole hwin cls'
    rwa [hthreaded] at hl

include hsole

theorem SlabRel.refillKind (hpc : s.pc a = .refillKind c cls page) (h : s.exec c a = some s') :
    Advance s g c a (.refillSize c cls page) s' g := by
  have hloc := hr.loc a
  rw [hpc] at hloc
  simp only [SlabSys.exec, hpc] at h
  cases h
  have hcarve : (s.pc a).carving = some (c, cls, page) := by rw [hpc]; rfl
  refine .setDesc hr hsole hcarve (by rw [hpc]; rfl) (fun _ => by rw [hpc]; rfl) rfl rfl rfl (fun _ => rfl) ?_ hloc
  have ht := hr.taken a _ hcarve
  rw [hpc] at ht
  rw [hr.descOf_taken hcarve, ht]
  rfl

theorem SlabRel.refillSize (hpc : s.pc a = .refillSize c cls page) (h : s.exec c a = some s') :
    Advance s g c a (refillNext c cls page 0) s' g := by
  have hloc := hr.loc a
  rw [hpc] at hloc
  simp only [SlabSys.exec, hpc] at h
  cases h
  obtain ⟨hw, hcarve', hfree', hdesc, hthr, hloc'⟩ := refillNext_spec c page hloc (Nat.zero_le _)
  have hcarve : (s.pc a).carving = some (c, cls, page) := by rw [hpc]; rfl
  refine .setDesc hr hsole hcarve (by rw [hpc]; rfl) (fun _ => by rw [hpc]; rfl) hw hcarve' hfree' (fun cls' => ?_) ?_
    (hloc' _ _ _)
  · rw [hthr, threadedCells]
    split <;> rfl
  · have ht := hr.taken a _ hcarve
    rw [hpc] at ht
    rw [hr.descOf_taken hcarve, ht, hdesc]
    rfl

theorem SlabRel.refillLink {old : Option Nat} (hpc : s.pc a = .refillLink c cls page i old)
    (h : s.exec c a = some s') : Advance s g c a (.refillHead c cls page i) s' g := by
  have hloc := hr.loc a
  have hlist := hr.list hsole (by rw [hpc]; rintro d ⟨⟩; rfl)
  rw [hpc] at hloc hlist
  simp only [SlabSys.exec, hpc] at h
  cases h
  obtain ⟨hcls, hi, hold⟩ := hloc
  have hcarve : (s.pc a).carving = some (c, cls, page) := by rw [hpc]; rfl
  have hmem := (hr.carving _).mpr ⟨a, hcarve⟩
  have hcell : page + i * classSize cls ∈ cells page cls := mem_cells.mpr ⟨i, hi, rfl⟩
  refine .same hr rfl rfl (by rintro d ⟨⟩; rfl) rfl (fun _ _ => rfl) (fun x hx => ?_) (fun _ _ => rfl)
    (fun b _ hb => update_of_ne ?_ ..)
    (fun cls' => (hlist cls').congr fun b hb => update_of_ne ?_ ..)
    ⟨hcls, hi, (update_self ..).trans hold.symm⟩ (by rw [hpc]; rfl) (by rw [hpc]; rfl) rfl rfl rfl
  · have ht := hr.taken a x (by rw [hpc]; exact hx)
    rw [hpc] at ht
    exact ht
  · rintro rfl
    exact hb _ hcarve hcell
  · rintro rfl
    rcases mem_append.mp hb with hb | hb
    · exact cell_not_threaded hcls hi cls' hb
    · exact hr.inv.carve_not_listed hmem hcell c cls' hb

theorem SlabRel.refillHead (hpc : s.pc a = .refillHead c cls page i) (h : s.exec c a = some s') :
    Advance s g c a (refillNext c cls page (i + 1)) s' g := by
  have hloc := hr.loc a
  have hlist := hr.list hsole (by rw [hpc]; rintro d ⟨⟩; rfl)
  rw [hpc] at hloc hlist
  simp only [SlabSys.exec, hpc] at h
  cases h
  obtain ⟨hcls, hi, hnext⟩ := hloc
  obtain ⟨hw, hcarve, hfree, hdesc, hthr, hloc'⟩ := refillNext_spec c page hcls (Nat.succ_le_of_lt hi)
  refine .same hr rfl rfl (fun d hd => ?_) rfl (fun _ _ => rfl) (fun x hx => ?_)
    (fun d hd => setHead_cpu s c cls _ hd) (fun _ _ _ => rfl) (fun cls' => ?_) (hloc' _ _ _)
    (by rw [hpc, hcarve]; rfl) (by rw [hpc, hfree]; rfl) rfl rfl rfl
  · rw [hw] at hd
    cases hd
    rfl
  · rw [hcarve] at hx
    have ht := hr.taken a x (by rw [hpc]; exact hx)
    rw [hpc] at ht
    rw [hdesc]
    exact ht
  · rw [hthr]
    show Linked s.next ((s.setHead c cls _).heads c cls') _
    have hl := hlist cls'
    by_cases hc : cls' = cls
    · subst hc
      rw [← hnext] at hl
      rw [threadedCells_succ hi, setHead_self]
      exact ⟨rfl, hl⟩
    · simp only [SlabPc.threaded, threadedCells_ne hc] at hl
      rw [threadedCells_ne hc, setHead_cls s c cls _ hc]
      exact hl

theorem SlabRel.kfreeLink {ptr : Nat} {old : Option Nat} (hpc : s.pc a = .kfreeLink c cls ptr old)
    (h : s.exec c a = some s') : Advance s g c a (.kfreeHead c cls ptr) s' g := by
  have hloc := hr.loc a
  have hlist := hr.list hsole (by rw [hpc]; rintro d ⟨⟩; rfl)
  rw [hpc] at hloc hlist
  simp only [SlabSys.exec, hpc] at h
  cases h
  obtain ⟨hlive, hold⟩ := hloc
  refine .same hr rfl rfl (by rintro d ⟨⟩; rfl) rfl (fun _ _ => rfl) nofun (fun _ _ => rfl)
    (fun b hb _ => update_of_ne ?_ ..)
    (fun cls' => (hlist cls').congr fun b hb => update_of_ne ?_ ..)
    ⟨hlive, (update_self ..).trans hold.symm⟩ (by rw [hpc]; rfl) (by rw [hpc]; rfl) rfl rfl rfl
  · rintro rfl
    exact hb (by rw [hpc]; rfl)
  · rintro rfl
    exact hr.inv.listed_not_live hb _ hlive

end

/-! ## Statements that move a block -/

def Follows (g g' : PmmSys) : Prop := g' = g ∨ ∃ act, g.step act = some g'

section
variable {s s' : SlabSys} {g g' : PmmSys} {a : Agent} {c cls : Nat}

theorem Follows.inv (h : Follows g g') (hg : PmmInv g) : PmmInv g' ∧ g'.pmm.dataStart = g.pmm.dataStart := by
  rcases h with rfl | ⟨act, h⟩
  · exact ⟨hg, rfl⟩
  · exact ⟨pmmInv_step hg h, congrArg Prod.fst (region_step h)⟩

variable (hr : SlabRel s g) (hsole : ∀ b, b ≠ a → (s.pc b).window ≠ some c)
include hr

include hsole in
theorem SlabRel.idle (hno : (s.pc a).carving = none) : ∀ x ∈ g.carving, x.1 ≠ c := by
  rintro x hx rfl
  obtain ⟨b, hb⟩ := (hr.carving x).mp hx
  have hba : b ≠ a := by
    rintro rfl
    rw [hno] at hb
    cases hb
  exact hsole b hba (SlabPc.carving_window hb)

theorem SlabRel.buddyAlloc (order : Nat) : NjuOs.buddyAlloc s.pmm order =
    ((NjuOs.buddyAlloc g.pmm order).1.over s.pmm.pgtab s.pmm.caches, (NjuOs.buddyAlloc g.pmm order).2) := by
  conv_lhs => rw [hr.pmm]
  exact buddyAlloc_over ..

theorem SlabRel.nodup_freeing : s.freeing.Nodup := (nodup_append.mp hr.nodup).2.1

/-- The descriptor of a live block is the same on both sides. -/
theorem SlabRel.desc_live {p : Nat} {e : Ext} (h : (p, e) ∈ g.live) :
    s.pmm.pgtab (NjuOs.descOf s.pmm (pageOf p)) = g.pmm.pgtab (NjuOs.descOf g.pmm (pageOf p)) := by
  obtain ⟨hd, hm⟩ := hr.inv.live_page h
  rw [hr.descOf, hd]
  refine hr.desc _ fun x hx he => hr.inv.carve_free hx ?_
  rw [he]
  exact hm

theorem live_returns {b : Nat} {e : Ext} :
    (((b, e) :: g.live).map Prod.fst).Perm ((b :: s.live) ++ s.freeing) := hr.live.cons b

theorem live_freed {p : Nat} {e : Ext} (hl : (p, e) ∈ g.live) (hf : p ∈ s.freeing) :
    ((g.live.erase (p, e)).map Prod.fst).Perm (s.live ++ s.freeing.erase p) := by
  have h1 : (p :: (g.live.erase (p, e)).map Prod.fst).Perm (g.live.map Prod.fst) :=
    ((perm_cons_erase hl).map Prod.fst).symm
  have h2 : (s.live ++ s.freeing).Perm (p :: (s.live ++ s.freeing.erase p)) :=
    ((perm_cons_erase hf).append_left s.live).trans perm_middle
  exact ((h1.trans hr.live).trans h2).cons_inv

theorem mem_freeing_erase {p q : Nat} (hp : (s.pc a).freeing = some p) :
    q ∈ s.freeing.erase p ↔ q ∈ s.freeing ∧ (s.pc a).freeing ≠ some q := by
  rw [hr.nodup_freeing.mem_erase_iff, hp]
  simp [and_comm, eq_comm]

theorem Advance.ends (hf : Follows g g') (hspin : s'.spin = s.spin) (hpc : s'.pc = update s.pc a .out)
    (hpmm : s'.pmm = g'.pmm.over s'.pmm.pgtab s'.pmm.caches)
    (hdesc : ∀ i, (∀ x ∈ g'.carving, pageIdx g.pmm x.2.2 ≠ i) → s'.pmm.pgtab i = g'.pmm.pgtab i)
    (hothers : ∀ x ∈ g'.carving, s'.pmm.pgtab (pageIdx g.pmm x.2.2) = s.pmm.pgtab (pageIdx g.pmm x.2.2) ∧
      g'.pmm.pgtab (pageIdx g.pmm x.2.2) = g.pmm.pgtab (pageIdx g.pmm x.2.2))
    (hheads : ∀ d, d ≠ c → s'.heads d = s.heads d) (hcaches : ∀ d, d ≠ c → g'.pmm.caches d = g.pmm.caches d)
    (hnext : s'.next = s.next) (hlinked : ∀ cls, Linked s.next (s'.heads c cls) (g'.pmm.caches c cls))
    (hcarving : ∀ x, x ∈ g'.carving ↔ x ∈ g.carving ∧ (s.pc a).carving ≠ some x)
    (hfreeing : ∀ p, p ∈ s'.freeing ↔ p ∈ s.freeing ∧ (s.pc a).freeing ≠ some p)
    (hkeeps : ∀ p e, (p, e) ∈ g.live → (s.pc a).freeing ≠ some p → (p, e) ∈ g'.live)
    (hlive : (g'.live.map Prod.fst).Perm (s'.live ++ s'.freeing))
    (hfreed : ∀ b ∈ s'.freed, ∃ d cls, b ∈ g'.pmm.caches d cls) : Advance s g c a .out s' g' := by
  obtain ⟨hinv, hstart⟩ := hf.inv hr.inv
  refine ⟨hspin, hpc, nofun, hinv, hstart, hpmm, hdesc, nofun, fun x hx hne => hothers x ((hcarving x).mpr ⟨hx, hne⟩),
    hheads, hcaches, fun b _ _ => congrFun hnext b, fun cls => hnext ▸ hlinked cls, trivial, fun x => ?_, fun p => ?_,
    nofun, hkeeps, hlive, hfreed⟩
  · rw [hcarving]
    exact (or_iff_right nofun).symm
  · rw [hfreeing]
    exact (or_iff_right nofun).symm

include hsole

theorem SlabRel.refillPage (hc : c < maxCpu) (hpc : s.pc a = .refillPage c cls) (h : s.exec c a = some s') :
    ∃ pc' g', Follows g g' ∧ Advance s g c a pc' s' g' := by
  have hloc := hr.loc a
  have hwin : ∀ d, (s.pc a).window = some d → d = c := by rw [hpc]; rintro d ⟨⟩; rfl
  have hlist := hr.list hsole hwin
  rw [hpc] at hloc hlist
  obtain ⟨hcls, hnone⟩ := hloc
  have hempty : g.pmm.caches c cls = [] := by
    have hl := hlist cls
    rw [hnone] at hl
    cases hcache : g.pmm.caches c cls with
    | nil => rfl
    | cons b rest => rw [hcache] at hl; cases hl.1
  simp only [SlabSys.exec, hpc, hr.buddyAlloc] at h
  cases hb : NjuOs.buddyAlloc g.pmm 0 with
  | mk m o =>
    rw [hb] at h
    cases o with
    | none =>
      cases h
      have hm := (buddyAlloc_none hb).1
      have hsame : ({ s with pmm := m.over s.pmm.pgtab s.pmm.caches } : SlabSys) = s := by
        rw [hm, ← hr.pmm]
      rw [hsame]
      exact ⟨_, g, Or.inl rfl, .goto hr hsole hwin hpc (by rintro d ⟨⟩; rfl) hcls rfl rfl (Or.inl rfl) fun _ => rfl⟩
    | some page =>
      cases h
      have hidle := hr.idle hsole (by rw [hpc]; rfl)
      have hf : Follows g _ := Or.inr ⟨_, step_refill hc hidle hcls hempty hb⟩
      obtain ⟨hinv, hstart⟩ := hf.inv hr.inv
      obtain ⟨-, -, -, -, -, hrest, -⟩ := buddyAlloc_some hr.inv.buddy hb
      -- no other call works on the page
      have hnew : ∀ x ∈ g.carving, pageIdx g.pmm x.2.2 ≠ pageIdx g.pmm page := by
        intro x hx he
        have hx' := hinv.carve_unique (x := x) (y := (c, cls, page)) (mem_cons_of_mem _ hx) mem_cons_self
          (by rw [pageIdx, pageIdx, hstart]; exact he)
        rw [hx'] at hx
        exact (nodup_cons.mp hinv.nodup_carving).1 hx
      refine ⟨.refillKind c cls page, _, hf, ?_⟩
      constructor
      case spin => rfl
      case pc => rfl
      case window => rintro d ⟨⟩; rfl
      case inv => exact hinv
      case start => exact hstart
      case pmm => rfl
      case desc =>
        intro i hi
        show s.pmm.pgtab i = m.pgtab i
        rw [hrest.pgtab]
        exact hr.desc i fun x hx => hi x (mem_cons_of_mem _ hx)
      case taken =>
        rintro x ⟨⟩
        show s.pmm.pgtab _ = m.pgtab _
        rw [hrest.pgtab]
        exact hr.desc _ hnew
      case others => exact fun x _ _ => ⟨rfl, congrFun hrest.pgtab _⟩
      case heads => exact fun _ _ => rfl
      case caches => exact fun d _ => congrFun hrest.caches d
      case next => exact fun _ _ _ => rfl
      case linked =>
        intro cls'
        show Linked s.next (s.heads c cls') ([] ++ m.caches c cls')
        rw [hrest.caches]
        exact hlist cls'
      case loc => exact hcls
      case carving =>
        intro x
        rw [hpc]
        simp [SlabPc.carving, eq_comm]
      case freeing =>
        intro p
        rw [hpc]
        simp [SlabPc.freeing, SlabSys.goto]
      case fresh => rintro p ⟨⟩
      case keeps => exact fun _ _ h _ => h
      case live => exact hr.live
      case freed =>
        intro b hb'
        show ∃ d cls', b ∈ m.caches d cls'
        rw [hrest.caches]
        exact hr.freed b hb'

/-- The last store of `kalloc`, with what it means on the other side: the first cell of the list becomes live. -/
theorem Advance.returns {fresh : Option Nat} {b : Nat} {o : Option Nat} {rest : List Nat}
    (hpc : s.pc a = .kallocHead c cls fresh b o) (hlist : (s.pc a).threaded cls ++ g.pmm.caches c cls = b :: rest)
    (hf : Follows g g') (hlive : g'.live = (b, .slab cls) :: g.live) (hcache : g'.pmm.caches c cls = rest)
    (hcls : ∀ cls', cls' ≠ cls → g'.pmm.caches c cls' = g.pmm.caches c cls')
    (hcpu : ∀ d, d ≠ c → g'.pmm.caches d = g.pmm.caches d) (hpmm : s.pmm = g'.pmm.over s.pmm.pgtab s.pmm.caches)
    (hcarving : ∀ x, x ∈ g'.carving ↔ x ∈ g.carving ∧ (s.pc a).carving ≠ some x)
    (hdesc : ∀ i, (∀ x ∈ g'.carving, pageIdx g.pmm x.2.2 ≠ i) → s.pmm.pgtab i = g'.pmm.pgtab i)
    (hothers : ∀ x ∈ g'.carving, g'.pmm.pgtab (pageIdx g.pmm x.2.2) = g.pmm.pgtab (pageIdx g.pmm x.2.2)) :
    Advance s g c a .out (((s.setHead c cls o).returns b).goto a .out) g' := by
  have hloc := hr.loc a
  have hall := hr.list hsole (by rw [hpc]; rintro d ⟨⟩; rfl)
  rw [hpc] at hloc
  refine .ends hr hf rfl rfl hpmm hdesc (fun x hx => ⟨rfl, hothers x hx⟩) (fun d hd => setHead_cpu s c cls o hd) hcpu
    rfl (fun cls' => ?linked) hcarving (fun p => ?freeing) (fun p e hl _ => ?keeps) ?live (fun x hx => ?freed)
  case linked =>
    show Linked s.next ((s.setHead c cls o).heads c cls') (g'.pmm.caches c cls')
    have hl := hall cls'
    by_cases hc : cls' = cls
    · subst hc
      rw [hlist] at hl
      rw [hcache, setHead_self, ← hloc.2.2]
      exact hl.2
    · have hthr : (s.pc a).threaded cls' = [] := by
        rw [hpc]
        cases fresh with
        | none => rfl
        | some page => exact threadedCells_ne hc _
      rw [hthr] at hl
      rw [hcls cls' hc, setHead_cls s c cls o hc]
      exact hl
  case freeing =>
    rw [hpc]
    exact (and_iff_left nofun).symm
  case keeps =>
    rw [hlive]
    exact mem_cons_of_mem _ hl
  case live =>
    rw [hlive]
    exact live_returns hr
  case freed =>
    obtain ⟨hx, hne⟩ := mem_filter.mp hx
    obtain ⟨d, cls', hd⟩ := hr.freed x hx
    refine ⟨d, cls', ?_⟩
    by_cases hdc : d = c
    · subst hdc
      by_cases hc : cls' = cls
      · subst hc
        have hmem : x ∈ b :: rest := by
          rw [← hlist]
          exact mem_append_right _ hd
        rw [hcache]
        exact (mem_cons.mp hmem).resolve_left (of_decide_eq_true hne)
      · rw [hcls cls' hc]
        exact hd
    · rw [hcpu d hdc]
      exact hd

theorem SlabRel.kallocHead (hc : c < maxCpu) {fresh : Option Nat} {b : Nat} {o : Option Nat}
    (hpc : s.pc a = .kallocHead c cls fresh b o) (h : s.exec c a = some s') :
    ∃ pc' g', Follows g g' ∧ Advance s g c a pc' s' g' := by
  have hloc := hr.loc a
  have hall := hr.list hsole (by rw [hpc]; rintro d ⟨⟩; rfl)
  rw [hpc] at hloc
  obtain ⟨hcls, hhead, -⟩ := hloc
  obtain ⟨rest, hlist⟩ : ∃ rest, (s.pc a).threaded cls ++ g.pmm.caches c cls = b :: rest := by
    have hl := hall cls
    rw [hhead] at hl
    cases hcase : (s.pc a).threaded cls ++ g.pmm.caches c cls with
    | nil => rw [hcase] at hl; cases hl
    | cons b' rest =>
      rw [hcase] at hl
      cases hl.1
      exact ⟨rest, rfl⟩
  simp only [SlabSys.exec, hpc] at h
  cases h
  cases fresh with
  | none =>
    have hcache : g.pmm.caches c cls = b :: rest := by
      rw [hpc] at hlist
      exact hlist
    have hf : Follows g _ := Or.inr ⟨_, step_pop hc (hr.idle hsole (by rw [hpc]; rfl)) hcls hcache⟩
    refine ⟨.out, _, hf, .returns hr hsole hpc hlist hf rfl (caches_setCache ..)
      (fun _ h => caches_setCache_cls _ _ _ _ h) (fun _ h => caches_setCache_cpu _ _ _ _ h) ?_
      (fun x => ?_) hr.desc fun _ _ => rfl⟩
    · exact hr.pmm
    · rw [hpc]
      exact (and_iff_left nofun).symm
  | some page =>
    have hcarve : (s.pc a).carving = some (c, cls, page) := by rw [hpc]; rfl
    have hmem := (hr.carving _).mpr ⟨a, hcarve⟩
    have hcells : (cells page cls).reverse ++ g.pmm.caches c cls = b :: rest := by
      rw [hpc, SlabPc.threaded, threadedCells, if_pos rfl, ← length_cells page cls, take_length] at hlist
      exact hlist
    have hf : Follows g _ := Or.inr ⟨_, step_carve hmem hcells⟩
    have hidx := (hr.inv.carve_index hmem).1
    -- the page leaves the list of pages being carved
    have hcarving : ∀ x, x ∈ g.carving.erase (c, cls, page) ↔ x ∈ g.carving ∧ (s.pc a).carving ≠ some x := by
      intro x
      rw [hr.inv.nodup_carving.mem_erase_iff, hcarve]
      simp [and_comm, eq_comm]
    refine ⟨.out, _, hf, .returns hr hsole hpc hlist hf rfl (caches_setCache ..)
      (fun _ h => caches_setCache_cls _ _ _ _ h) (fun _ h => caches_setCache_cpu _ _ _ _ h) ?_ hcarving
      (fun i hi => ?_) (fun x hx => ?_)⟩
    · exact hr.pmm
    · show s.pmm.pgtab i = update g.pmm.pgtab _ _ i
      by_cases he : i = pageIdx g.pmm page
      · have ht := hr.taken a _ hcarve
        rw [hpc] at ht
        rw [he, hidx, update_self]
        exact ht
      · rw [hidx, update_of_ne he]
        refine hr.desc i fun x hx hxi => ?_
        by_cases hxc : x = (c, cls, page)
        · rw [hxc] at hxi
          exact he hxi.symm
        · exact hi x ((mem_erase_of_ne hxc).mpr hx) hxi
    · refine update_of_ne ?_ ..
      rw [hidx]
      intro he
      obtain ⟨hx', hne⟩ := (hcarving x).mp hx
      rw [hr.inv.carve_unique hx' hmem he] at hne
      exact hne hcarve

theorem SlabRel.kfreeHead (hc : c < maxCpu) {ptr : Nat} (hpc : s.pc a = .kfreeHead c cls ptr)
    (h : s.exec c a = some s') : ∃ pc' g', Follows g g' ∧ Advance s g c a pc' s' g' := by
  have hloc := hr.loc a
  have hlist := hr.list hsole (by rw [hpc]; rintro d ⟨⟩; rfl)
  rw [hpc] at hloc hlist
  obtain ⟨hl, hnext⟩ := hloc
  simp only [SlabSys.exec, hpc] at h
  cases h
  have hidle := hr.idle hsole (by rw [hpc]; rfl)
  have hf : Follows g _ := Or.inr ⟨_, step_free hc hidle hr.inv hl (hr.inv.kfree_cell hl rfl rfl c)⟩
  have hfree : (s.pc a).freeing = some ptr := by rw [hpc]; rfl
  refine ⟨.out, _, hf, .ends hr hf rfl rfl hr.pmm hr.desc (fun _ _ => ⟨rfl, rfl⟩)
    (fun d hd => setHead_cpu s c cls _ hd) (fun _ h => caches_setCache_cpu _ _ _ _ h) rfl (fun cls' => ?linked)
    (fun x => ?carving)
    (fun p => mem_freeing_erase hr hfree) (fun p e hl' hne => ?keeps)
    (live_freed hr hl ((hr.freeing ptr).mpr ⟨a, hfree⟩)) (fun b hb => ?freed)⟩
  case linked =>
    show Linked s.next ((s.setHead c cls (some ptr)).heads c cls') ((g.pmm.setCache c cls _).caches c cls')
    by_cases hcls : cls' = cls
    · subst hcls
      rw [setHead_self, caches_setCache]
      refine ⟨rfl, ?_⟩
      rw [hnext]
      exact hlist cls'
    · rw [setHead_cls s c cls _ hcls, caches_setCache_cls _ _ _ _ hcls]
      exact hlist cls'
  case carving =>
    rw [hpc]
    exact (and_iff_left nofun).symm
  case keeps =>
    refine (mem_erase_of_ne ?_).mpr hl'
    rintro ⟨⟩
    exact hne hfree
  case freed =>
    rcases mem_cons.mp hb with rfl | hb
    · exact ⟨c, cls, by rw [caches_setCache]; exact mem_cons_self⟩
    · obtain ⟨d, cls', hd⟩ := hr.freed b hb
      refine ⟨d, cls', ?_⟩
      by_cases hdc : d = c
      · subst hdc
        by_cases hcls : cls' = cls
        · subst hcls
          rw [caches_setCache]
          exact mem_cons_of_mem _ hd
        · rw [caches_setCache_cls _ _ _ _ hcls]
          exact hd
      · rw [caches_setCache_cpu _ _ _ _ hdc]
        exact hd

theorem SlabRel.kallocLarge (hc : c < maxCpu) {size : Nat} (hpc : s.pc a = .kallocLarge size)
    (h : s.exec c a = some s') : ∃ pc' g', Follows g g' ∧ Advance s g c a pc' s' g' := by
  have hloc := hr.loc a
  have hwin : ∀ d, (s.pc a).window = some d → d = c := by rw [hpc]; rintro d ⟨⟩
  have hlist := hr.list hsole hwin
  rw [hpc] at hloc hlist
  have hstep := step_large hc (hr.idle hsole (by rw [hpc]; rfl)) hloc.1 hloc.2
  simp only [SlabSys.exec, hpc, NjuOs.kallocLarge, hr.buddyAlloc] at h
  unfold NjuOs.kallocLarge at hstep
  cases hb : NjuOs.buddyAlloc g.pmm (sizeToOrder size) with
  | mk m o =>
    rw [hb] at h hstep
    cases o with
    | none =>
      cases h
      have hsame : ({ s with pmm := m.over s.pmm.pgtab s.pmm.caches } : SlabSys) = s := by
        rw [(buddyAlloc_none hb).1, ← hr.pmm]
      rw [hsame]
      exact ⟨_, g, Or.inl rfl, .goto hr hsole hwin hpc (by rintro d ⟨⟩) trivial rfl rfl (Or.inl rfl) fun _ => rfl⟩
    | some blk =>
      cases h
      have hf : Follows g _ := Or.inr ⟨_, hstep⟩
      obtain ⟨j, rfl, -, hfit, hfree, hrest, hbuddy⟩ := buddyAlloc_some hr.inv.buddy hb
      have hpos := Nat.two_pow_pos (sizeToOrder size)
      have hidx : NjuOs.descOf m (addrOf g.pmm j) = j := by
        rw [← hrest.addrOf]
        exact descOf_addrOf hbuddy.geom (by rw [hrest.totalPages]; omega)
      -- the first page of the block was free, so nobody carves it
      have hnew : ∀ x ∈ g.carving, pageIdx g.pmm x.2.2 ≠ j := by
        rintro x hx rfl
        refine hr.inv.disjoint_own (p := pageIdx g.pmm x.2.2) ?_ ?_
        · rw [hfree]
          exact Multiset.mem_add.mpr (Or.inl (self_mem_blockPages _ _))
        · exact Multiset.mem_add.mpr (Or.inr ((mem_bag _).mpr ⟨x, hx, self_mem_blockPages _ _⟩))
      refine ⟨.out, _, hf, ?_⟩
      simp only [PmmSys.addLive, show NjuOs.descOf (m.over s.pmm.pgtab s.pmm.caches) (addrOf g.pmm j) = j from hidx,
        hidx, show (m.over s.pmm.pgtab s.pmm.caches).pgtab = s.pmm.pgtab from rfl, hrest.pgtab,
        hr.desc j hnew] at hf ⊢
      refine .ends hr hf rfl rfl rfl (fun i hi => ?desc) (fun x hx => ?others) (fun _ _ => rfl)
        (fun d _ => congrFun hrest.caches d) rfl (fun cls' => ?linked) (fun x => ?carving) (fun p => ?freeing)
        (fun _ _ h _ => mem_cons_of_mem _ h) (live_returns hr) (fun b hb' => ?freed)
      case desc =>
        show update s.pmm.pgtab j _ i = update m.pgtab j _ i
        rw [hrest.pgtab]
        by_cases he : i = j
        · rw [he, update_self, update_self]
        · rw [update_of_ne he, update_of_ne he]
          exact hr.desc i hi
      case others =>
        refine ⟨update_of_ne (hnew x hx) .., (update_of_ne (hnew x hx) ..).trans ?_⟩
        exact congrFun hrest.pgtab _
      case linked =>
        show Linked s.next (s.heads c cls') (m.caches c cls')
        rw [hrest.caches]
        exact hlist cls'
      case carving =>
        rw [hpc]
        exact (and_iff_left (by rintro ⟨⟩)).symm
      case freeing =>
        rw [hpc]
        exact (and_iff_left (by rintro ⟨⟩)).symm
      case freed =>
        show ∃ d cls', b ∈ m.caches d cls'
        rw [hrest.caches]
        exact hr.freed b (mem_filter.mp hb').1

theorem SlabRel.kfreeBuddy (hc : c < maxCpu) {ptr : Nat} (hpc : s.pc a = .kfreeBuddy ptr) (h : s.exec c a = some s') :
    ∃ pc' g', Follows g g' ∧ Advance s g c a pc' s' g' := by
  have hloc := hr.loc a
  have hlist := hr.list hsole (by rw [hpc]; rintro d ⟨⟩)
  rw [hpc] at hloc hlist
  obtain ⟨k, hl⟩ := hloc
  have hdesc := hr.desc_live hl
  rw [hr.descOf] at hdesc
  obtain ⟨hidx, hown⟩ := hr.inv.live_page hl
  have hkfree : kfree g.pmm c ptr = some (buddyFree (g.pmm.setDesc (NjuOs.descOf g.pmm (pageOf ptr))
      { g.pmm.pgtab (NjuOs.descOf g.pmm (pageOf ptr)) with kind := .free })
      (g.pmm.pgtab (NjuOs.descOf g.pmm (pageOf ptr))).order ptr) := by
    simp only [kfree, if_neg (hr.inv.live_pos hl), (hr.inv.desc_block hl).1]
  simp only [SlabSys.exec, hpc, hr.descOf, hdesc] at h
  cases h
  have hidle := hr.idle hsole (by rw [hpc]; rfl)
  have hf : Follows g _ := Or.inr ⟨_, step_free hc hidle hr.inv hl hkfree⟩
  have hfree : (s.pc a).freeing = some ptr := by rw [hpc]; rfl
  have hnew : ∀ x ∈ g.carving, pageIdx g.pmm x.2.2 ≠ pageIdx g.pmm ptr := by
    intro x hx he
    rw [← he] at hown
    exact hr.inv.carve_free hx hown
  rw [hidx] at hf ⊢
  generalize hd : ({ g.pmm.pgtab (pageIdx g.pmm ptr) with kind := .free } : PageDesc) = d at hf ⊢
  have hrest := sameRest_buddyFree (g.pmm.setDesc (pageIdx g.pmm ptr) d) (g.pmm.pgtab (pageIdx g.pmm ptr)).order ptr
  have hpmm : buddyFree (s.pmm.setDesc (pageIdx g.pmm ptr) d) (g.pmm.pgtab (pageIdx g.pmm ptr)).order ptr =
      (buddyFree (g.pmm.setDesc (pageIdx g.pmm ptr) d) (g.pmm.pgtab (pageIdx g.pmm ptr)).order ptr).over
        (update s.pmm.pgtab (pageIdx g.pmm ptr) d) s.pmm.caches := by
    have hset : s.pmm.setDesc (pageIdx g.pmm ptr) d = (g.pmm.setDesc (pageIdx g.pmm ptr) d).over
        (update s.pmm.pgtab (pageIdx g.pmm ptr) d) s.pmm.caches := by
      conv_lhs => rw [hr.pmm]
      rfl
    rw [hset, buddyFree_over]
  rw [hpmm]
  refine ⟨.out, _, hf, .ends hr hf rfl rfl rfl (fun i hi => ?desc) (fun x hx => ?others) (fun _ _ => rfl)
    (fun e _ => congrFun hrest.caches e) rfl (fun cls' => ?linked) (fun x => ?carving)
    (fun p => mem_freeing_erase hr hfree) (fun p e hl' hne => ?keeps)
    (live_freed hr hl ((hr.freeing ptr).mpr ⟨a, hfree⟩)) (fun b hb => ?freed)⟩
  case desc =>
    show update s.pmm.pgtab _ d i = (buddyFree _ _ _).pgtab i
    rw [hrest.pgtab]
    show _ = update g.pmm.pgtab _ d i
    by_cases he : i = pageIdx g.pmm ptr
    · rw [he, update_self, update_self]
    · rw [update_of_ne he, update_of_ne he]
      exact hr.desc i hi
  case others =>
    refine ⟨update_of_ne (hnew x hx) .., ?_⟩
    show (buddyFree _ _ _).pgtab _ = _
    rw [hrest.pgtab]
    exact update_of_ne (hnew x hx) ..
  case linked =>
    show Linked s.next (s.heads c cls') ((buddyFree _ _ _).caches c cls')
    rw [hrest.caches]
    exact hlist cls'
  case carving =>
    rw [hpc]
    exact (and_iff_left (by rintro ⟨⟩)).symm
  case keeps =>
    refine (mem_erase_of_ne ?_).mpr hl'
    rintro ⟨⟩
    exact hne hfree
  case freed =>
    show ∃ e cls', b ∈ (buddyFree _ _ _).caches e cls'
    rw [hrest.caches]
    exact hr.freed b hb

/-- `kfree` finds out from the descriptor what it was given. -/
theorem SlabRel.kfreeKind {ptr : Nat} (hpc : s.pc a = .kfreeKind ptr) (h : s.exec c a = some s') :
    ∃ pc', Advance s g c a pc' s' g := by
  have hwin : ∀ d, (s.pc a).window = some d → d = c := by rw [hpc]; nofun
  have hloc := hr.loc a
  rw [hpc] at hloc
  obtain ⟨e, hl⟩ := hloc
  simp only [SlabSys.exec, hpc, hr.desc_live hl] at h
  cases e with
  | slab cls =>
    simp only [(hr.inv.desc_cell hl).1] at h
    cases h
    exact ⟨_, .goto hr hsole hwin hpc nofun ⟨cls, hl⟩ rfl rfl (Or.inl rfl) fun _ => rfl⟩
  | buddy k =>
    simp only [(hr.inv.desc_block hl).1] at h
    cases h
    exact ⟨_, .goto hr hsole hwin hpc nofun ⟨k, hl⟩ rfl rfl (Or.inl rfl) fun _ => rfl⟩

theorem SlabRel.kfreeSize {ptr : Nat} (hpc : s.pc a = .kfreeSize ptr) (h : s.exec c a = some s') :
    ∃ pc', Advance s g c a pc' s' g := by
  have hwin : ∀ d, (s.pc a).window = some d → d = c := by rw [hpc]; nofun
  have hloc := hr.loc a
  rw [hpc] at hloc
  obtain ⟨cls, hl⟩ := hloc
  obtain ⟨page, hx, -⟩ := hr.inv.slab_of_live hl
  simp only [SlabSys.exec, hpc, hr.desc_live hl, (hr.inv.desc_cell hl).2,
    sizeToClass_classSize cls (hr.inv.slab page cls hx).1] at h
  cases h
  exact ⟨_, .goto hr hsole hwin hpc nofun hl rfl rfl (Or.inl rfl) fun _ => rfl⟩

theorem SlabRel.exec (hc : c < maxCpu) (hwin : ∀ d, (s.pc a).window = some d → d = c) (h : s.exec c a = some s') :
    ∃ pc' g', Follows g g' ∧ Advance s g c a pc' s' g' := by
  have hkeep : ∀ {pc'}, Advance s g c a pc' s' g → ∃ pc' g', Follows g g' ∧ Advance s g c a pc' s' g' :=
    fun h => ⟨_, g, Or.inl rfl, h⟩
  have hgoto : ∀ {pc pc' : SlabPc}, s.pc a = pc → s' = s.goto a pc' → (∀ d, pc'.window = some d → d = c) →
      pc'.Local s.heads s.next g.live → pc'.carving = pc.carving → pc'.freeing = pc.freeing →
      (pc.carving = none ∨ ∀ d, pc'.desc d = pc.desc d) → (∀ cls, pc'.threaded cls = pc.threaded cls) →
      ∃ pc' g', Follows g g' ∧ Advance s g c a pc' s' g' := by
    rintro pc pc' hpc rfl h1 h2 h3 h4 h5 h6
    exact hkeep (.goto hr hsole hwin hpc h1 h2 h3 h4 h5 h6)
  have hloc := hr.loc a
  cases hpc : s.pc a <;> rw [hpc] at hloc hwin
  -- an agent inside its window executes on the CPU it has read
  all_goals try (cases hwin _ rfl)
  case out => simp only [SlabSys.exec, hpc, reduceCtorEq] at h
  case kallocCpu cls =>
    simp only [SlabSys.exec, hpc, some.injEq] at h
    exact hgoto hpc h.symm (by rintro d ⟨⟩; rfl) hloc rfl rfl (Or.inl rfl) fun _ => rfl
  case kallocTest cls =>
    simp only [SlabSys.exec, hpc, some.injEq] at h
    split at h
    · next hnone => exact hgoto hpc h.symm (by rintro d ⟨⟩; rfl) ⟨hloc, hnone⟩ rfl rfl (Or.inl rfl) fun _ => rfl
    · exact hgoto hpc h.symm (by rintro d ⟨⟩; rfl) hloc rfl rfl (Or.inl rfl) fun _ => rfl
  case refillPage cls => exact hr.refillPage hsole hc hpc h
  case refillKind cls page => exact hkeep (hr.refillKind hsole hpc h)
  case refillSize cls page => exact hkeep (hr.refillSize hsole hpc h)
  case refillLoad cls page i =>
    simp only [SlabSys.exec, hpc, some.injEq] at h
    exact hgoto hpc h.symm (by rintro d ⟨⟩; rfl) ⟨hloc.1, hloc.2, rfl⟩ rfl rfl (Or.inr fun _ => rfl) fun _ => rfl
  case refillLink cls page i old => exact hkeep (hr.refillLink hsole hpc h)
  case refillHead cls page i => exact hkeep (hr.refillHead hsole hpc h)
  case kallocLoad cls fresh =>
    simp only [SlabSys.exec, hpc] at h
    split at h
    · next hnone =>
      cases h
      cases fresh with
      | none => exact hgoto hpc rfl nofun trivial rfl rfl (Or.inl rfl) fun _ => rfl
      | some page =>
        -- a list with the cells of a page on it is not empty
        have hl := hr.list (a := a) hsole (by rw [hpc]; exact hwin) cls
        rw [hpc, hnone] at hl
        have hne := threadedCells_ne_nil page hloc
        cases hcells : threadedCells page cls (pageSize / classSize cls) cls with
        | nil => exact absurd hcells hne
        | cons b rest =>
          simp only [SlabPc.threaded, hcells] at hl
          cases hl.1
    · next b hhead =>
      cases h
      exact hgoto hpc rfl (by rintro d ⟨⟩; rfl) ⟨hloc, hhead⟩ rfl rfl (Or.inr fun _ => rfl) fun _ => by
        cases fresh <;> rfl
  case kallocNext cls fresh b =>
    simp only [SlabSys.exec, hpc, some.injEq] at h
    exact hgoto hpc h.symm (by rintro d ⟨⟩; rfl) ⟨hloc.1, hloc.2, rfl⟩ rfl rfl (Or.inr fun _ => rfl) fun _ => by
      cases fresh <;> rfl
  case kallocHead cls fresh b o => exact hr.kallocHead hsole hc hpc h
  case kallocLarge size => exact hr.kallocLarge hsole hc hpc h
  case kfreeKind ptr =>
    obtain ⟨pc', h⟩ := hr.kfreeKind hsole hpc h
    exact hkeep h
  case kfreeSize ptr =>
    obtain ⟨pc', h⟩ := hr.kfreeSize hsole hpc h
    exact hkeep h
  case kfreeCpu cls ptr =>
    simp only [SlabSys.exec, hpc, some.injEq] at h
    exact hgoto hpc h.symm (by rintro d ⟨⟩; rfl) hloc rfl rfl (Or.inl rfl) fun _ => rfl
  case kfreeLoad cls ptr =>
    simp only [SlabSys.exec, hpc, some.injEq] at h
    exact hgoto hpc h.symm (by rintro d ⟨⟩; rfl) ⟨hloc, rfl⟩ rfl rfl (Or.inl rfl) fun _ => rfl
  case kfreeLink cls ptr old => exact hkeep (hr.kfreeLink hsole hpc h)
  case kfreeHead cls ptr => exact hr.kfreeHead hsole hc hpc h
  case kfreeBuddy ptr => exact hr.kfreeBuddy hsole hc hpc h

end

end NjuOs
