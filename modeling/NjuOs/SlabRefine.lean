import NjuOs.Linked
import NjuOs.Slab
import NjuOs.SlabLemmas

/-!
# The slab lists and the atomic allocator

`SlabRel` relates the machine to the allocator whose slab operations are atomic: a list of the
machine is the other's list with the cells in front that its user has threaded so far. `Advance`
is what one agent may do to both states, whatever the others are in the middle of.
-/

namespace NjuOs

open Function

/-! ## What an agent has done and relies on -/

def SlabPc.carving : SlabPc → Option (Nat × Nat × Nat)
  | .refillKind cpu cls page => some (cpu, cls, page)
  | .refillSize cpu cls page => some (cpu, cls, page)
  | .refillLoad cpu cls page _ => some (cpu, cls, page)
  | .refillLink cpu cls page _ _ => some (cpu, cls, page)
  | .refillHead cpu cls page _ => some (cpu, cls, page)
  | .kallocLoad cpu cls fresh => fresh.map (cpu, cls, ·)
  | .kallocNext cpu cls fresh _ => fresh.map (cpu, cls, ·)
  | .kallocHead cpu cls fresh _ _ => fresh.map (cpu, cls, ·)
  | _ => none

def SlabPc.freeing : SlabPc → Option Nat
  | .kfreeKind ptr => some ptr
  | .kfreeSize ptr => some ptr
  | .kfreeCpu _ ptr => some ptr
  | .kfreeLoad _ _ ptr => some ptr
  | .kfreeLink _ _ ptr _ => some ptr
  | .kfreeHead _ _ ptr => some ptr
  | .kfreeBuddy ptr => some ptr
  | _ => none

def threadedCells (page cls n cls' : Nat) : List Nat := if cls' = cls then ((cells page cls).take n).reverse else []

def SlabPc.threaded (cls' : Nat) : SlabPc → List Nat
  | .refillLoad _ cls page i => threadedCells page cls i cls'
  | .refillLink _ cls page i _ => threadedCells page cls i cls'
  | .refillHead _ cls page i => threadedCells page cls i cls'
  | .kallocLoad _ cls (some page) => threadedCells page cls (pageSize / classSize cls) cls'
  | .kallocNext _ cls (some page) _ => threadedCells page cls (pageSize / classSize cls) cls'
  | .kallocHead _ cls (some page) _ _ => threadedCells page cls (pageSize / classSize cls) cls'
  | _ => []

def SlabPc.desc (d : PageDesc) : SlabPc → PageDesc
  | .refillSize _ _ _ => { d with kind := .slab }
  | .refillLoad _ cls _ _ => { d with kind := .slab, objSize := classSize cls }
  | .refillLink _ cls _ _ _ => { d with kind := .slab, objSize := classSize cls }
  | .refillHead _ cls _ _ => { d with kind := .slab, objSize := classSize cls }
  | .kallocLoad _ cls _ => { d with kind := .slab, objSize := classSize cls }
  | .kallocNext _ cls _ _ => { d with kind := .slab, objSize := classSize cls }
  | .kallocHead _ cls _ _ _ => { d with kind := .slab, objSize := classSize cls }
  | _ => d

def SlabPc.Local (heads : Nat → Nat → Option Nat) (next : Nat → Option Nat) (live : List (Nat × Ext)) : SlabPc → Prop
  | .out => True
  | .kallocCpu cls => cls < nclass
  | .kallocTest _ cls => cls < nclass
  | .refillPage cpu cls => cls < nclass ∧ heads cpu cls = none
  | .refillKind _ cls _ => cls < nclass
  | .refillSize _ cls _ => cls < nclass
  | .refillLoad _ cls _ i => cls < nclass ∧ i < pageSize / classSize cls
  | .refillLink cpu cls _ i old => cls < nclass ∧ i < pageSize / classSize cls ∧ heads cpu cls = old
  | .refillHead cpu cls page i =>
    cls < nclass ∧ i < pageSize / classSize cls ∧ next (page + i * classSize cls) = heads cpu cls
  | .kallocLoad _ cls _ => cls < nclass
  | .kallocNext cpu cls _ b => cls < nclass ∧ heads cpu cls = some b
  | .kallocHead cpu cls _ b o => cls < nclass ∧ heads cpu cls = some b ∧ next b = o
  | .kallocLarge size => size ≠ 0 ∧ sizeToClass size = some none
  | .kfreeKind ptr => ∃ e, (ptr, e) ∈ live
  | .kfreeSize ptr => ∃ cls, (ptr, .slab cls) ∈ live
  | .kfreeCpu cls ptr => (ptr, .slab cls) ∈ live
  | .kfreeLoad _ cls ptr => (ptr, .slab cls) ∈ live
  | .kfreeLink cpu cls ptr old => (ptr, .slab cls) ∈ live ∧ heads cpu cls = old
  | .kfreeHead cpu cls ptr => (ptr, .slab cls) ∈ live ∧ next ptr = heads cpu cls
  | .kfreeBuddy ptr => ∃ k, (ptr, .buddy k) ∈ live

def SlabPc.link : SlabPc → Option Nat
  | .refillHead _ cls page i => some (page + i * classSize cls)
  | .kallocHead _ _ _ b _ => some b
  | .kfreeHead _ _ ptr => some ptr
  | _ => none

section
variable {pc : SlabPc} {heads heads' : Nat → Nat → Option Nat} {next next' : Nat → Option Nat}
variable {live live' : List (Nat × Ext)}

theorem SlabPc.carving_window {x : Nat × Nat × Nat} (h : pc.carving = some x) : pc.window = some x.1 := by
  cases pc <;> simp only [SlabPc.carving, Option.map_eq_some_iff, reduceCtorEq, Option.some.injEq] at h <;>
    first | (subst h; rfl) | (obtain ⟨_, -, rfl⟩ := h; rfl)

theorem SlabPc.threaded_window (h : pc.window = none) (cls : Nat) : pc.threaded cls = [] := by
  cases pc <;> first | rfl | cases h

theorem SlabPc.threaded_cells {cls b : Nat} (h : b ∈ pc.threaded cls) :
    ∃ x, pc.carving = some x ∧ b ∈ cells x.2.2 x.2.1 := by
  have hcells : ∀ {page cls' n}, b ∈ threadedCells page cls' n cls → b ∈ cells page cls' := by
    intro page cls' n hb
    unfold threadedCells at hb
    split at hb
    · exact List.mem_of_mem_take (List.mem_reverse.mp hb)
    · cases hb
  cases pc
  case refillLoad cpu cls' page i => exact ⟨(cpu, cls', page), rfl, hcells h⟩
  case refillLink cpu cls' page i old => exact ⟨(cpu, cls', page), rfl, hcells h⟩
  case refillHead cpu cls' page i => exact ⟨(cpu, cls', page), rfl, hcells h⟩
  case kallocLoad cpu cls' fresh =>
    cases fresh with
    | none => cases h
    | some page => exact ⟨(cpu, cls', page), rfl, hcells h⟩
  case kallocNext cpu cls' fresh b' =>
    cases fresh with
    | none => cases h
    | some page => exact ⟨(cpu, cls', page), rfl, hcells h⟩
  case kallocHead cpu cls' fresh b' o =>
    cases fresh with
    | none => cases h
    | some page => exact ⟨(cpu, cls', page), rfl, hcells h⟩
  all_goals cases h

theorem SlabPc.Local.frame (h : pc.Local heads next live)
    (hheads : ∀ d cls, pc.window = some d → heads' d cls = heads d cls)
    (hnext : ∀ b, pc.link = some b → next' b = next b)
    (hlive : ∀ p e, pc.freeing = some p → (p, e) ∈ live → (p, e) ∈ live') : pc.Local heads' next' live' := by
  cases pc
  case refillPage cpu cls => exact ⟨h.1, (hheads cpu cls rfl).trans h.2⟩
  case refillLink cpu cls page i old => exact ⟨h.1, h.2.1, (hheads cpu cls rfl).trans h.2.2⟩
  case refillHead cpu cls page i =>
    exact ⟨h.1, h.2.1, (hnext _ rfl).trans (h.2.2.trans (hheads cpu cls rfl).symm)⟩
  case kallocNext cpu cls fresh b => exact ⟨h.1, (hheads cpu cls rfl).trans h.2⟩
  case kallocHead cpu cls fresh b o => exact ⟨h.1, (hheads cpu cls rfl).trans h.2.1, (hnext b rfl).trans h.2.2⟩
  case kfreeKind ptr => exact h.imp fun e => hlive ptr e rfl
  case kfreeSize ptr => exact h.imp fun cls => hlive ptr _ rfl
  case kfreeCpu cls ptr => exact hlive ptr _ rfl h
  case kfreeLoad cpu cls ptr => exact hlive ptr _ rfl h
  case kfreeLink cpu cls ptr old => exact ⟨hlive ptr _ rfl h.1, (hheads cpu cls rfl).trans h.2⟩
  case kfreeHead cpu cls ptr =>
    exact ⟨hlive ptr _ rfl h.1, (hnext ptr rfl).trans (h.2.trans (hheads cpu cls rfl).symm)⟩
  case kfreeBuddy ptr => exact h.imp fun k => hlive ptr _ rfl
  all_goals exact h

theorem SlabPc.Local.freeing (h : pc.Local heads next live) {p : Nat} (hp : pc.freeing = some p) :
    ∃ e, (p, e) ∈ live := by
  cases pc <;> cases hp
  case kfreeKind => exact h
  case kfreeSize => exact h.imp' Ext.slab fun _ => id
  case kfreeCpu => exact ⟨_, h⟩
  case kfreeLoad => exact ⟨_, h⟩
  case kfreeLink => exact ⟨_, h.1⟩
  case kfreeHead => exact ⟨_, h.1⟩
  case kfreeBuddy => exact h.imp' Ext.buddy fun _ => id

end

/-! ## The refinement -/

/-- `g` is the state of the allocator with atomic slab operations: a cell moves when the head of its
list is stored, and a page is carved when the `kalloc` that took it returns. -/
structure SlabRel (s : SlabSys) (g : PmmSys) : Prop where
  inv : PmmInv g
  pmm : s.pmm = g.pmm.over s.pmm.pgtab s.pmm.caches
  desc : ∀ i, (∀ x ∈ g.carving, pageIdx g.pmm x.2.2 ≠ i) → s.pmm.pgtab i = g.pmm.pgtab i
  taken : ∀ a x, (s.pc a).carving = some x →
    s.pmm.pgtab (pageIdx g.pmm x.2.2) = (s.pc a).desc (g.pmm.pgtab (pageIdx g.pmm x.2.2))
  linked : ∀ c cls, ∃ l, Linked s.next (s.heads c cls) (l ++ g.pmm.caches c cls) ∧
    (∀ a, (s.pc a).window = some c → l = (s.pc a).threaded cls) ∧ ((∀ a, (s.pc a).window ≠ some c) → l = [])
  loc : ∀ a, (s.pc a).Local s.heads s.next g.live
  carving : ∀ x, x ∈ g.carving ↔ ∃ a, (s.pc a).carving = some x
  freeing : ∀ p, p ∈ s.freeing ↔ ∃ a, (s.pc a).freeing = some p
  one : ∀ a b p, (s.pc a).freeing = some p → (s.pc b).freeing = some p → a = b
  live : (g.live.map Prod.fst).Perm (s.live ++ s.freeing)
  freed : ∀ b ∈ s.freed, ∃ c cls, b ∈ g.pmm.caches c cls

/-- What the agent `a` of CPU `c` may do to the two states on its way to the statement `pc'`: it works
on the lists of `c`, on links that nobody else looks at, and on a page or an argument of its own. -/
structure Advance (s : SlabSys) (g : PmmSys) (c : Nat) (a : Agent) (pc' : SlabPc) (s' : SlabSys) (g' : PmmSys) :
    Prop where
  spin : s'.spin = s.spin
  pc : s'.pc = update s.pc a pc'
  window : ∀ d, pc'.window = some d → d = c
  inv : PmmInv g'
  start : g'.pmm.dataStart = g.pmm.dataStart
  pmm : s'.pmm = g'.pmm.over s'.pmm.pgtab s'.pmm.caches
  desc : ∀ i, (∀ x ∈ g'.carving, pageIdx g.pmm x.2.2 ≠ i) → s'.pmm.pgtab i = g'.pmm.pgtab i
  taken : ∀ x, pc'.carving = some x →
    s'.pmm.pgtab (pageIdx g.pmm x.2.2) = pc'.desc (g'.pmm.pgtab (pageIdx g.pmm x.2.2))
  others : ∀ x ∈ g.carving, (s.pc a).carving ≠ some x →
    s'.pmm.pgtab (pageIdx g.pmm x.2.2) = s.pmm.pgtab (pageIdx g.pmm x.2.2) ∧
    g'.pmm.pgtab (pageIdx g.pmm x.2.2) = g.pmm.pgtab (pageIdx g.pmm x.2.2)
  heads : ∀ d, d ≠ c → s'.heads d = s.heads d
  caches : ∀ d, d ≠ c → g'.pmm.caches d = g.pmm.caches d
  next : ∀ b, (s.pc a).freeing ≠ some b → (∀ x, (s.pc a).carving = some x → b ∉ cells x.2.2 x.2.1) →
    s'.next b = s.next b
  linked : ∀ cls, Linked s'.next (s'.heads c cls) (pc'.threaded cls ++ g'.pmm.caches c cls)
  loc : pc'.Local s'.heads s'.next g'.live
  carving : ∀ x, x ∈ g'.carving ↔ pc'.carving = some x ∨ x ∈ g.carving ∧ (s.pc a).carving ≠ some x
  freeing : ∀ p, p ∈ s'.freeing ↔ pc'.freeing = some p ∨ p ∈ s.freeing ∧ (s.pc a).freeing ≠ some p
  fresh : ∀ p, pc'.freeing = some p → (s.pc a).freeing = some p ∨ p ∉ s.freeing
  keeps : ∀ p e, (p, e) ∈ g.live → (s.pc a).freeing ≠ some p → (p, e) ∈ g'.live
  live : (g'.live.map Prod.fst).Perm (s'.live ++ s'.freeing)
  freed : ∀ b ∈ s'.freed, ∃ c cls, b ∈ g'.pmm.caches c cls

section
variable {s s' : SlabSys} {g g' : PmmSys} {a : Agent} {c : Nat}

theorem SlabRel.list (hr : SlabRel s g) (hsole : ∀ b, b ≠ a → (s.pc b).window ≠ some c)
    (hwin : ∀ d, (s.pc a).window = some d → d = c) (cls : Nat) :
    Linked s.next (s.heads c cls) ((s.pc a).threaded cls ++ g.pmm.caches c cls) := by
  obtain ⟨l, hl, hown, hnone⟩ := hr.linked c cls
  have he : l = (s.pc a).threaded cls := by
    cases hw : (s.pc a).window with
    | some d =>
      rw [hwin d hw] at hw
      exact hown a hw
    | none =>
      rw [SlabPc.threaded_window hw]
      refine hnone fun b hb => ?_
      by_cases hba : b = a
      · rw [hba, hw] at hb
        cases hb
      · exact hsole b hba hb
  rwa [he] at hl

/-- The cell whose link an agent relies on is on its list, on its page or its argument. -/
theorem SlabRel.link_owner (hr : SlabRel s g) {b : Nat} (h : (s.pc a).link = some b) :
    (∃ d cls, b ∈ g.pmm.caches d cls) ∨ (s.pc a).freeing = some b ∨
      ∃ x, (s.pc a).carving = some x ∧ b ∈ cells x.2.2 x.2.1 := by
  have hloc := hr.loc a
  cases hpc : s.pc a <;> rw [hpc] at h hloc <;> cases h
  case refillHead cpu cls page i =>
    exact Or.inr (Or.inr ⟨_, rfl, mem_cells.mpr ⟨i, hloc.2.1, rfl⟩⟩)
  case kallocHead cpu cls fresh o =>
    obtain ⟨l, hl, hown, -⟩ := hr.linked cpu cls
    rw [hown a (by rw [hpc]; rfl), hloc.2.1] at hl
    have hb : b ∈ (s.pc a).threaded cls ++ g.pmm.caches cpu cls := by
      cases hlist : (s.pc a).threaded cls ++ g.pmm.caches cpu cls with
      | nil => rw [hlist] at hl; cases hl
      | cons b' rest =>
        rw [hlist] at hl
        cases hl.1
        exact List.mem_cons_self
    rcases List.mem_append.mp hb with hb | hb
    · rw [← hpc]
      exact Or.inr (Or.inr (SlabPc.threaded_cells hb))
    · exact Or.inl ⟨cpu, cls, hb⟩
  case kfreeHead cpu cls => exact Or.inr (Or.inl rfl)

/-- What one agent owns no other agent looks at. -/
theorem SlabRel.foreign (hr : SlabRel s g) (hsole : ∀ b, b ≠ a → (s.pc b).window ≠ some c)
    (hwin : ∀ d, (s.pc a).window = some d → d = c) {b : Nat}
    (h : (∃ d cls, b ∈ g.pmm.caches d cls) ∨ ∃ e, e ≠ a ∧ ((s.pc e).freeing = some b ∨
      ∃ x, (s.pc e).carving = some x ∧ b ∈ cells x.2.2 x.2.1)) :
    (s.pc a).freeing ≠ some b ∧ ∀ x, (s.pc a).carving = some x → b ∉ cells x.2.2 x.2.1 := by
  rcases h with ⟨d, cls, hb⟩ | ⟨e, hne, hb | ⟨y, hy, hb⟩⟩
  · refine ⟨fun hf => ?_, fun x hx hc => ?_⟩
    · obtain ⟨ext, hl⟩ := (hr.loc a).freeing hf
      exact hr.inv.listed_not_live hb ext hl
    · exact hr.inv.carve_not_listed ((hr.carving x).mpr ⟨a, hx⟩) hc d cls hb
  · refine ⟨fun hf => hne (hr.one e a b hb hf), fun x hx hc => ?_⟩
    obtain ⟨ext, hl⟩ := (hr.loc e).freeing hb
    exact hr.inv.carve_not_live ((hr.carving x).mpr ⟨a, hx⟩) hc ext hl
  · have hy' := (hr.carving y).mpr ⟨e, hy⟩
    refine ⟨fun hf => ?_, fun x hx hc => ?_⟩
    · obtain ⟨ext, hl⟩ := (hr.loc a).freeing hf
      exact hr.inv.carve_not_live hy' hb ext hl
    · have hx' := (hr.carving x).mpr ⟨a, hx⟩
      have hxy : x = y :=
        hr.inv.carve_unique hx' hy' ((hr.inv.carve_cell hx' hc).symm.trans (hr.inv.carve_cell hy' hb))
      subst hxy
      have hw := SlabPc.carving_window hx
      rw [hwin _ hw] at hw
      have hw' := SlabPc.carving_window hy
      rw [hwin _ (SlabPc.carving_window hx)] at hw'
      exact hsole e hne hw'

section
variable {pc' : SlabPc} (hr : SlabRel s g) (hsole : ∀ b, b ≠ a → (s.pc b).window ≠ some c)
  (hwin : ∀ d, (s.pc a).window = some d → d = c) (h : Advance s g c a pc' s' g')
include hr hsole hwin h

theorem Advance.next_foreign {b : Nat} (hb : (∃ d cls, b ∈ g.pmm.caches d cls) ∨ ∃ e, e ≠ a ∧
    ((s.pc e).freeing = some b ∨ ∃ x, (s.pc e).carving = some x ∧ b ∈ cells x.2.2 x.2.1)) : s'.next b = s.next b :=
  h.next b (hr.foreign hsole hwin hb).1 (hr.foreign hsole hwin hb).2

/-- The lists of the other CPUs stay as they are. -/
theorem Advance.linked_other {d : Nat} (hd : d ≠ c) (cls : Nat) :
    ∃ l, Linked s'.next (s'.heads d cls) (l ++ g'.pmm.caches d cls) ∧
      (∀ b, (s'.pc b).window = some d → l = (s'.pc b).threaded cls) ∧ ((∀ b, (s'.pc b).window ≠ some d) → l = []) := by
  obtain ⟨l, hl, hown, hnone⟩ := hr.linked d cls
  -- neither before nor after its step is `a` inside a window on `d`
  have hbefore : ∀ b, (s.pc b).window = some d → b ≠ a := by
    rintro b hw rfl
    exact hd (hwin d hw)
  have hafter : ∀ b, (s'.pc b).window = some d → b ≠ a := by
    rintro b hw rfl
    rw [h.pc, update_self] at hw
    exact hd (h.window d hw)
  refine ⟨l, ?_, fun b hb => ?_, fun hno => hnone fun b hb => hno b ?_⟩
  · rw [h.heads d hd, h.caches d hd]
    refine hl.congr fun b hb => h.next_foreign hr hsole hwin ?_
    rcases List.mem_append.mp hb with hb | hb
    · by_cases hex : ∃ e, (s.pc e).window = some d
      · obtain ⟨e, he⟩ := hex
        rw [hown e he] at hb
        exact Or.inr ⟨e, hbefore e he, Or.inr (SlabPc.threaded_cells hb)⟩
      · rw [hnone fun e he => hex ⟨e, he⟩] at hb
        cases hb
    · exact Or.inl ⟨d, cls, hb⟩
  · have hba := hafter b hb
    rw [h.pc, update_of_ne hba] at hb ⊢
    exact hown b hb
  · rw [h.pc, update_of_ne (hbefore b hb)]
    exact hb

theorem SlabRel.advance : SlabRel s' g' := by
  have hself : s'.pc a = pc' := by rw [h.pc, update_self]
  have hother : ∀ b, b ≠ a → s'.pc b = s.pc b := fun b hb => by rw [h.pc, update_of_ne hb]
  have hidx : ∀ x, pageIdx g'.pmm x = pageIdx g.pmm x := fun x => by rw [pageIdx, pageIdx, h.start]
  -- two agents do not work on one page
  have hcarve : ∀ b x, b ≠ a → (s.pc b).carving = some x → (s.pc a).carving ≠ some x := by
    intro b x hb hx hx'
    have hw := SlabPc.carving_window hx
    rw [hwin _ (SlabPc.carving_window hx')] at hw
    exact hsole b hb hw
  constructor
  case inv => exact h.inv
  case pmm => exact h.pmm
  case desc => simpa only [hidx] using h.desc
  case taken =>
    intro b x hx
    simp only [hidx]
    by_cases hb : b = a
    · rw [hb, hself] at hx ⊢
      exact h.taken x hx
    · rw [hother b hb] at hx ⊢
      obtain ⟨h1, h2⟩ := h.others x ((hr.carving x).mpr ⟨b, hx⟩) (hcarve b x hb hx)
      rw [h1, h2]
      exact hr.taken b x hx
  case linked =>
    intro d cls
    by_cases hd : d = c
    · subst hd
      refine ⟨pc'.threaded cls, h.linked cls, fun b hb => ?_, fun hno => ?_⟩
      · by_cases hba : b = a
        · rw [hba, hself]
        · rw [hother b hba] at hb
          exact absurd hb (hsole b hba)
      · have hna := hno a
        rw [hself] at hna
        cases hw : pc'.window with
        | none => exact SlabPc.threaded_window hw cls
        | some e =>
          rw [h.window e hw] at hw
          exact absurd hw hna
    · exact h.linked_other hr hsole hwin hd cls
  case loc =>
    intro b
    by_cases hb : b = a
    · rw [hb, hself]
      exact h.loc
    · rw [hother b hb]
      refine (hr.loc b).frame (fun d cls hw => ?_) (fun x hx => h.next_foreign hr hsole hwin ?_) fun p e hp hl => ?_
      · have hd : d ≠ c := by
          rintro rfl
          exact hsole b hb hw
        rw [h.heads d hd]
      · rcases hr.link_owner hx with hx | hx
        · exact Or.inl hx
        · exact Or.inr ⟨b, hb, hx⟩
      · exact h.keeps p e hl fun hp' => hb (hr.one b a p hp hp')
  case carving =>
    intro x
    rw [h.carving, h.pc, Function.exists_update_iff s.pc fun _ pc => pc.carving = some x]
    apply or_congr_right
    constructor
    · rintro ⟨hx, hne⟩
      obtain ⟨b, hb⟩ := (hr.carving x).mp hx
      exact ⟨b, fun hba => hne (hba ▸ hb), hb⟩
    · rintro ⟨b, hb, hx⟩
      exact ⟨(hr.carving x).mpr ⟨b, hx⟩, hcarve b x hb hx⟩
  case freeing =>
    intro p
    rw [h.freeing, h.pc, Function.exists_update_iff s.pc fun _ pc => pc.freeing = some p]
    apply or_congr_right
    constructor
    · rintro ⟨hp, hne⟩
      obtain ⟨b, hb⟩ := (hr.freeing p).mp hp
      exact ⟨b, fun hba => hne (hba ▸ hb), hb⟩
    · rintro ⟨b, hb, hp⟩
      exact ⟨(hr.freeing p).mpr ⟨b, hp⟩, fun hp' => hb (hr.one b a p hp hp')⟩
  case one =>
    -- an argument that is new to `a` is no other agent's
    have hnew : ∀ b p, b ≠ a → (s'.pc b).freeing = some p → pc'.freeing ≠ some p := by
      intro b p hb hp hp'
      rw [hother b hb] at hp
      rcases h.fresh p hp' with hold | hno
      · exact hb (hr.one b a p hp hold)
      · exact hno ((hr.freeing p).mpr ⟨b, hp⟩)
    intro b e p hb he
    by_cases hba : b = a
    · by_cases hea : e = a
      · rw [hba, hea]
      · rw [hba, hself] at hb
        exact absurd hb (hnew e p hea he)
    · by_cases hea : e = a
      · rw [hea, hself] at he
        exact absurd he (hnew b p hba hb)
      · rw [hother b hba] at hb
        rw [hother e hea] at he
        exact hr.one b e p hb he
  case live => exact h.live
  case freed => exact h.freed

end

end

/-! ## Statements that leave the books alone -/

section
variable {s s' : SlabSys} {g : PmmSys} {a : Agent} {c : Nat} {pc' : SlabPc}

theorem SlabRel.nodup (hr : SlabRel s g) : (s.live ++ s.freeing).Nodup := hr.live.nodup_iff.mp hr.inv.nodup_addr

theorem SlabRel.addrs (hr : SlabRel s g) (p : Nat) : (∃ e, (p, e) ∈ g.live) ↔ p ∈ s.live ∨ p ∈ s.freeing := by
  rw [← List.mem_append, ← hr.live.mem_iff, List.mem_map]
  exact ⟨fun ⟨e, h⟩ => ⟨(p, e), h, rfl⟩, fun ⟨⟨_, e⟩, h, he⟩ => ⟨e, by cases he; exact h⟩⟩

theorem Advance.same (hr : SlabRel s g) (hspin : s'.spin = s.spin) (hpc : s'.pc = update s.pc a pc')
    (hwindow : ∀ d, pc'.window = some d → d = c) (hpmm : s'.pmm = s.pmm.over s'.pmm.pgtab s.pmm.caches)
    (hdesc : ∀ i, (∀ x, (s.pc a).carving = some x → pageIdx g.pmm x.2.2 ≠ i) → s'.pmm.pgtab i = s.pmm.pgtab i)
    (htaken : ∀ x, pc'.carving = some x →
      s'.pmm.pgtab (pageIdx g.pmm x.2.2) = pc'.desc (g.pmm.pgtab (pageIdx g.pmm x.2.2)))
    (hheads : ∀ d, d ≠ c → s'.heads d = s.heads d)
    (hnext : ∀ b, (s.pc a).freeing ≠ some b → (∀ x, (s.pc a).carving = some x → b ∉ cells x.2.2 x.2.1) →
      s'.next b = s.next b)
    (hlinked : ∀ cls, Linked s'.next (s'.heads c cls) (pc'.threaded cls ++ g.pmm.caches c cls))
    (hloc : pc'.Local s'.heads s'.next g.live) (hcarve : pc'.carving = (s.pc a).carving)
    (hfree : pc'.freeing = (s.pc a).freeing) (hlive : s'.live = s.live) (hfreeing : s'.freeing = s.freeing)
    (hfreed : s'.freed = s.freed) : Advance s g c a pc' s' g := by
  constructor
  case spin => exact hspin
  case pc => exact hpc
  case window => exact hwindow
  case inv => exact hr.inv
  case start => rfl
  case pmm =>
    have hbase : s.pmm.over s'.pmm.pgtab s'.pmm.caches = g.pmm.over s'.pmm.pgtab s'.pmm.caches := by
      rw [hr.pmm]
      rfl
    rw [← hbase]
    conv_lhs => rw [hpmm]
    rw [hpmm]
    rfl
  case desc =>
    intro i hi
    rw [hdesc i fun x hx => hi x ((hr.carving x).mpr ⟨a, hx⟩)]
    exact hr.desc i hi
  case taken => exact htaken
  case others =>
    intro x hx hne
    refine ⟨hdesc _ fun y hy he => hne ?_, rfl⟩
    rw [hy, hr.inv.carve_unique ((hr.carving y).mpr ⟨a, hy⟩) hx he]
  case heads => exact hheads
  case caches => exact fun _ _ => rfl
  case next => exact hnext
  case linked => exact hlinked
  case loc => exact hloc
  case carving =>
    intro x
    rw [hcarve]
    constructor
    · intro hx
      by_cases he : (s.pc a).carving = some x
      · exact Or.inl he
      · exact Or.inr ⟨hx, he⟩
    · rintro (hx | hx)
      · exact (hr.carving x).mpr ⟨a, hx⟩
      · exact hx.1
  case freeing =>
    intro p
    rw [hfree, hfreeing]
    constructor
    · intro hp
      by_cases he : (s.pc a).freeing = some p
      · exact Or.inl he
      · exact Or.inr ⟨hp, he⟩
    · rintro (hp | hp)
      · exact (hr.freeing p).mpr ⟨a, hp⟩
      · exact hp.1
  case fresh => exact fun p hp => Or.inl (hfree ▸ hp)
  case keeps => exact fun _ _ h _ => h
  case live =>
    rw [hlive, hfreeing]
    exact hr.live
  case freed =>
    rw [hfreed]
    exact hr.freed

variable (hr : SlabRel s g) (hsole : ∀ b, b ≠ a → (s.pc b).window ≠ some c)
  (hwin : ∀ d, (s.pc a).window = some d → d = c)
include hr hsole hwin

theorem Advance.goto {pc : SlabPc} (hpc : s.pc a = pc) (hwindow : ∀ d, pc'.window = some d → d = c)
    (hloc : pc'.Local s.heads s.next g.live) (hcarve : pc'.carving = pc.carving) (hfree : pc'.freeing = pc.freeing)
    (hdesc : pc.carving = none ∨ ∀ d, pc'.desc d = pc.desc d)
    (hthreaded : ∀ cls, pc'.threaded cls = pc.threaded cls) : Advance s g c a pc' (s.goto a pc') g := by
  subst hpc
  refine .same hr rfl rfl hwindow rfl (fun _ _ => rfl) (fun x hx => ?_) (fun _ _ => rfl) (fun _ _ _ => rfl)
    (fun cls => ?_) hloc hcarve hfree rfl rfl rfl
  · rw [hcarve] at hx
    rcases hdesc with hno | hdesc
    · rw [hno] at hx
      cases hx
    · rw [hdesc]
      exact hr.taken a x hx
  · rw [hthreaded]
    exact hr.list hsole hwin cls

end

end NjuOs
