import NjuOs.PageFill

/-!
# `fork` copies the address space

The child gets a page of its own for every mapping of the parent, in the same order, so that the
latest mapping of an address wins for both alike. No physical page belongs to both, and therefore
neither sees what the other writes from then on.
-/

namespace NjuOs

open Function List Option

/-! ## Writes by user code -/

def Kernel.store (k : Kernel) (p : TaskRef) (a : Nat) (b : UInt8) : Kernel :=
  match (k.tasks p).mapping a with
  | none => k
  | some m => k.setPage m.pa ((k.page m.pa).set (a % pgsize) b)

structure Write where
  proc : TaskRef
  addr : Nat
  byte : UInt8

def Kernel.stores (k : Kernel) (ws : List Write) : Kernel := ws.foldl (fun k w => k.store w.proc w.addr w.byte) k

structure SameFor (q : TaskRef) (k1 k2 : Kernel) : Prop where
  tasks : k1.tasks = k2.tasks
  page : ∀ n ∈ (k1.tasks q).maps, k1.page n.pa = k2.page n.pa

def PagesApart (k : Kernel) (p q : TaskRef) : Prop :=
  ∀ m ∈ (k.tasks p).maps, ∀ n ∈ (k.tasks q).maps, m.pa ≠ n.pa

section
variable {k k1 k2 : Kernel} {p q : TaskRef} {a : Nat} {b : UInt8}

theorem mapping_mem {x : Task} {m : Vmap} (h : x.mapping a = some m) : m ∈ x.maps :=
  mem_reverse.mp (mem_of_find?_eq_some h)

theorem store_tasks : (k.store p a b).tasks = k.tasks := by
  unfold Kernel.store
  split <;> rfl

theorem SameFor.view (h : SameFor q k1 k2) (a : Nat) : k1.view q a = k2.view q a := by
  rw [Kernel.view, Kernel.view, ← h.tasks]
  refine Option.map_congr fun m hm => ?_
  rw [h.page m (mapping_mem hm)]

theorem SameFor.own (h : SameFor q k1 k2) : SameFor q (k1.store q a b) (k2.store q a b) := by
  refine ⟨by rw [store_tasks, store_tasks, h.tasks], fun n hn => ?_⟩
  rw [store_tasks] at hn
  unfold Kernel.store
  rw [← h.tasks]
  cases hm : (k1.tasks q).mapping a with
  | none => exact h.page n hn
  | some m =>
    simp only [Kernel.setPage, h.page m (mapping_mem hm)]
    by_cases hne : n.pa = m.pa
    · rw [hne, update_self, update_self]
    · rw [update_of_ne hne, update_of_ne hne]
      exact h.page n hn

theorem SameFor.foreign (h : SameFor q k1 k2) (hap : PagesApart k1 p q) : SameFor q (k1.store p a b) k2 := by
  refine ⟨store_tasks.trans h.tasks, fun n hn => ?_⟩
  rw [store_tasks] at hn
  unfold Kernel.store
  cases hm : (k1.tasks p).mapping a with
  | none => exact h.page n hn
  | some m =>
    have hne : n.pa ≠ m.pa := (hap m (mapping_mem hm) n hn).symm
    exact (update_of_ne hne ..).trans (h.page n hn)

theorem SameFor.stores (hpq : p ≠ q) : ∀ {ws : List Write} {k1 k2 : Kernel}, SameFor q k1 k2 → PagesApart k1 p q →
    (∀ w ∈ ws, w.proc = p ∨ w.proc = q) →
    SameFor q (k1.stores ws) (k2.stores (ws.filter fun w => w.proc = q))
  | [], _, _, h, _, _ => h
  | w :: ws, k1, k2, h, hap, hws => by
    have hap' : PagesApart (k1.store w.proc w.addr w.byte) p q := by
      unfold PagesApart
      rw [store_tasks]
      exact hap
    have hrest := fun v hv => hws v (mem_cons_of_mem _ hv)
    rcases hws w mem_cons_self with hw | hw
    · have hno : ¬decide (w.proc = q) = true := by
        rw [hw]
        exact fun hq => hpq (of_decide_eq_true hq)
      rw [filter_cons, if_neg hno]
      refine SameFor.stores hpq ?_ hap' hrest
      rw [hw]
      exact h.foreign hap
    · rw [filter_cons, if_pos (decide_eq_true hw)]
      refine SameFor.stores hpq ?_ hap' hrest
      show SameFor q (k1.store w.proc w.addr w.byte) (k2.store w.proc w.addr w.byte)
      rw [hw]
      exact h.own

theorem PagesApart.symm (h : PagesApart k p q) : PagesApart k q p := fun m hm n hn => (h n hn m hm).symm

/-- Whatever two processes without a common page write, each sees what its own writes make. -/
theorem PagesApart.isolated (hpq : p ≠ q) (hap : PagesApart k p q) {ws : List Write}
    (hws : ∀ w ∈ ws, w.proc = p ∨ w.proc = q)
    (a : Nat) : (k.stores ws).view q a = (k.stores (ws.filter fun w => w.proc = q)).view q a :=
  (SameFor.stores hpq ⟨rfl, fun _ _ => rfl⟩ hap hws).view a

end

/-! ## The copy -/

structure Forked (k : Kernel) (parent : TaskRef) (f : Context) (child : TaskRef) (k' : Kernel) : Prop where
  table : k'.ptable = k.ptable ++ [child]
  fresh : child ∉ k.ptable
  same : k'.tasks parent = k.tasks parent
  view : ∀ a, k'.view child a = k.view parent a
  kept : ∀ a, k'.view parent a = k.view parent a
  top : (k'.tasks child).heapTop = (k.tasks parent).heapTop
  files : ∀ fd < procNofile, (k'.tasks child).files.ofile fd = (k.tasks parent).files.ofile fd
  context : (k'.tasks child).context =
    { f with gprx := 0, vmHead := (k'.tasks child).addrSpace.ptr, ksp := kstackEnd child }
  apart : PagesApart k' parent child

section
variable {A : Allocator} {k k' : Kernel} {parent : TaskRef} {ctx f : Context}

theorem procAlloc_page {t : TaskRef} (h : procAlloc A k = .ok (k', t)) : k'.page = k.page := by
  obtain ⟨_, _, a, m, rfl, h1, h2, h3⟩ := procAlloc_steps h
  obtain ⟨⟨k4, a4⟩, h4, h3⟩ := bind_ok h3
  obtain ⟨-, rfl⟩ := pmmAlloc_some h1
  obtain ⟨-, rfl⟩ := pmmAlloc_some h2
  obtain ⟨-, rfl⟩ := pmmAlloc_some (allocOr_ok h4)
  cases h3
  rfl

theorem procAlloc_maps {t : TaskRef} (h : procAlloc A k = .ok (k', t)) : (k'.tasks t).maps = [] :=
  map_eq_nil_iff.mp (procAlloc_space h).1

theorem KernelInv.page_live (hk : KernelInv k) {p : TaskRef} (hp : p ∈ k.ptable) {m : Vmap}
    (hm : m ∈ (k.tasks p).maps) :
    (m.pa, pgsize) ∈ k.heap.live := by
  obtain ⟨a, rfl⟩ := hk.procs p hp
  refine hk.own.mem_live hp ?_
  have hmem : (m.pa, pgsize) ∈ (k.tasks (.proc a)).maps.map fun m => (m.pa, pgsize) := mem_map_of_mem hm
  simp only [ownedBy, owned, Multiset.mem_add, Multiset.mem_coe]
  exact Or.inr (Or.inr hmem)

theorem view_congr {p : TaskRef} (hm : (k'.tasks p).maps = (k.tasks p).maps) (hp : k'.page = k.page) (a : Nat) :
    k'.view p a = k.view p a := by
  rw [Kernel.view, Kernel.view, Task.mapping, Task.mapping, hm, hp]

theorem forkPages_copies {c p : TaskRef} (hne : p ≠ c) (hnil : (k.tasks c).maps = [])
    (hlive : ∀ m ∈ (k.tasks p).maps, (m.pa, pgsize) ∈ k.heap.live)
    (h : forkPages A c (k.tasks p).maps k = .ok k') :
    (∀ a, k'.view c a = k.view p a) ∧ (∀ a, k'.view p a = k.view p a) ∧ PagesApart k' p c := by
  obtain ⟨new, hf, hc⟩ := forkPages_filled h hlive
  obtain ⟨_, hm⟩ := memStep_forkPages h
  have hmaps := hf.maps
  rw [hnil, nil_append] at hmaps
  refine ⟨fun a => ?_, fun a => ?_, fun m hmem n hn => ?_⟩
  · have hnone : (k.tasks c).mapping a = none := by rw [Task.mapping, hnil, reverse_nil, find?_nil]
    rw [hf.view, hc, hnone, map_none, or_none, ← map_reverse, find?_map, Option.map_map]
    rfl
  · rw [Kernel.view, Kernel.view, hm.other p hne]
    refine Option.map_congr fun m hmem => ?_
    rw [hf.kept _ (hlive m (mapping_mem hmem)) pgsize_pos]
  · rw [hm.other p hne] at hmem
    rw [hmaps] at hn
    obtain ⟨x, hx, rfl⟩ := mem_map.mp hn
    exact (hf.apart x hx _ (hlive m hmem) pgsize_pos).symm

structure ForkEnd (parent child : TaskRef) (ctx : Context) (k k' : Kernel) : Prop where
  table : k'.ptable = k.ptable ++ [child]
  page : k'.page = k.page
  other : ∀ t, t ≠ child → k'.tasks t = k.tasks t
  maps : (k'.tasks child).maps = (k.tasks child).maps
  top : (k'.tasks child).heapTop = (k.tasks parent).heapTop
  files : ∀ fd < procNofile, (k'.tasks child).files.ofile fd = (k.tasks parent).files.ofile fd
  context : (k'.tasks child).context =
    { ctx with gprx := 0, vmHead := (k'.tasks child).addrSpace.ptr, ksp := kstackEnd child }

theorem sysFork_inv {pid : Int} (h : sysFork A k parent ctx = .ok (k', pid)) : ∃ child k1 k2 k3,
    procAlloc A k = .ok (k1, child) ∧ k2 = (k1.modify child fun x => { x with parent := some parent }) ∧
      forkPages A child (k2.tasks parent).maps k2 = .ok k3 ∧ (parent ≠ child → ForkEnd parent child ctx k3 k') := by
  obtain ⟨⟨k1, child⟩, h1, h⟩ := bind_ok h
  obtain ⟨k3, h3, h⟩ := bind_ok h
  obtain ⟨k7, h7, h⟩ := bind_ok h
  cases h
  obtain ⟨-, rfl⟩ := ptableAdd_ok h7
  refine ⟨child, k1, _, k3, h1, rfl, h3, fun hne => ?_⟩
  constructor
  case table => rfl
  case page => rfl
  case other =>
    intro t ht
    show (Kmt.set _ child _).tasks t = _
    rw [set_tasks_ne ht]
    simp only [modify_tasks_ne ht, setFiles_tasks_ne ht]
  case maps =>
    show ((Kmt.set _ child _).tasks child).maps = _
    rw [set_tasks_self]
    simp only [setFiles_tasks_self, modify_tasks_self]
  case top =>
    show ((Kmt.set _ child _).tasks child).heapTop = _
    rw [set_tasks_self]
    simp only [setFiles_tasks_self, modify_tasks_self]
  case files =>
    intro fd hfd
    show ((Kmt.set _ child _).tasks child).files.ofile fd = _
    rw [set_tasks_self]
    simp only [setFiles_tasks_self, modify_tasks_self, vfsFork, if_pos hfd, modify_tasks_ne hne]
  case context =>
    show ((Kmt.set _ child _).tasks child).context =
      { ctx with gprx := 0, vmHead := ((Kmt.set _ child _).tasks child).addrSpace.ptr, ksp := kstackEnd child }
    rw [set_tasks_self]
    simp only [setFiles_tasks_self, modify_tasks_self]

theorem sysFork_forked (hk : KernelInv k) (hp : parent ∈ k.ptable) {pid : Int}
    (h : sysFork A k parent ctx = .ok (k', pid)) : ∃ child, Forked k parent ctx child k' := by
  obtain ⟨_, k1, k2, k3, h1, hk2, h3, hend⟩ := sysFork_inv h
  obtain ⟨a, _, rfl, hn⟩ := procAlloc_ok h1
  have hnew : .proc a ∉ k.ptable := by
    intro hmem
    have hlive := hk.own.struct_live hmem
    exact hn.fresh _ hlive (hk.own.heapOk.pos _ hlive) rfl
  have hne : parent ≠ .proc a := fun he => hnew (he ▸ hp)
  have hend := hend hne
  -- the state in which the copying starts
  have hpar : k2.tasks parent = k.tasks parent := by
    rw [hk2, modify_tasks_ne hne]
    exact hn.other parent hne
  have hpage : k2.page = k.page := by
    rw [hk2]
    show k1.page = k.page
    exact procAlloc_page h1
  have hnil : (k2.tasks (.proc a)).maps = [] := by
    rw [hk2, modify_tasks_self]
    exact procAlloc_maps h1
  have hlive : ∀ m ∈ (k2.tasks parent).maps, (m.pa, pgsize) ∈ k2.heap.live := by
    intro m hm
    rw [hpar] at hm
    rw [hk2, modify_heap, hn.heap]
    exact mem_append_right _ (hk.page_live hp hm)
  have htable : k2.ptable = k.ptable := by rw [hk2, modify_ptable, hn.ptable]
  obtain ⟨_, hm⟩ := memStep_forkPages h3
  obtain ⟨hview, hkept, hapart⟩ := forkPages_copies hne hnil hlive h3
  have hold : ∀ b, k2.view parent b = k.view parent b := view_congr (by rw [hpar]) hpage
  have hpar3 : k3.tasks parent = k.tasks parent := (hm.other parent hne).trans hpar
  have hpar' : k'.tasks parent = k3.tasks parent := hend.other parent hne
  refine ⟨.proc a, ?_⟩
  constructor
  case table => rw [hend.table, hm.ptable, htable]
  case fresh => exact hnew
  case same => rw [hpar', hpar3]
  case view => exact fun b => (view_congr hend.maps hend.page b).trans ((hview b).trans (hold b))
  case kept => exact fun b => (view_congr (by rw [hpar']) hend.page b).trans ((hkept b).trans (hold b))
  case top => rw [hend.top, hpar3]
  case files =>
    intro fd hfd
    rw [hend.files fd hfd, hpar3]
  case context => exact hend.context
  case apart =>
    unfold PagesApart
    rw [hpar', hend.maps]
    exact hapart

end

/-! ## The result -/

/-- After `fork` the child sees at every address what the parent sees, has its cursor, its
descriptors and its registers but for the return value; and whatever the two write afterwards,
each sees only its own writes. -/
theorem sys_fork_copies {A : Allocator} {k k' : Kernel} {parent : TaskRef} {ctx f : Context} {now : Nat} {b : Bool}
    (hk : KernelInv k) (hp : parent ∈ k.ptable) (h : doSyscall A k parent ctx now .fork = .ok (k', f, b)) :
    ∃ child, child ∉ k.ptable ∧ k'.ptable = k.ptable ++ [child] ∧
      (∀ a, k'.view child a = k.view parent a ∧ k'.view parent a = k.view parent a) ∧
      (k'.tasks child).heapTop = (k.tasks parent).heapTop ∧
      (∀ fd < procNofile, (k'.tasks child).files.ofile fd = (k.tasks parent).files.ofile fd) ∧
      (∃ vmHead ksp, (k'.tasks child).context = { f with gprx := 0, vmHead := vmHead, ksp := ksp }) ∧
      ∀ ws, (∀ w ∈ ws, w.proc = parent ∨ w.proc = child) → ∀ a,
        (k'.stores ws).view child a = (k'.stores (ws.filter fun w => w.proc = child)).view child a ∧
        (k'.stores ws).view parent a = (k'.stores (ws.filter fun w => w.proc = parent)).view parent a := by
  obtain ⟨⟨k1, pid⟩, h1, h⟩ := bind_ok h
  cases h
  obtain ⟨child, hf⟩ := sysFork_forked hk hp h1
  have hne : parent ≠ child := fun he => hf.fresh (he ▸ hp)
  refine ⟨child, hf.fresh, hf.table, fun a => ⟨hf.view a, hf.kept a⟩, hf.top, hf.files, ⟨_, _, hf.context⟩, ?_⟩
  intro ws hws a
  exact ⟨hf.apart.isolated hne hws a,
    hf.apart.symm.isolated hne.symm (fun w hw => (hws w hw).symm) a⟩

theorem sys_fork_copies_init : ∃ s p r, osRun [.schedule 0 blankContext] = some s ∧ p ∈ s.k.ptable ∧
    doSyscall bumpAlloc s.k p blankContext 0 .fork = .ok r ∧
    ∃ child ∉ s.k.ptable, ∀ a, r.1.view child a = s.k.view p a := by
  have h : ((osRun [.schedule 0 blankContext]).any fun s => ∃ p ∈ s.k.initproc,
      (doSyscall bumpAlloc s.k p blankContext 0 .fork).toOption.isSome = true) = true := by
    decide +kernel
  obtain ⟨s, hs, h⟩ := (any_eq_true _ _).mp h
  obtain ⟨p, hp, hcall⟩ := of_decide_eq_true h
  obtain ⟨⟨k', f, b⟩, hcall⟩ := isSome_iff_exists.mp hcall
  obtain ⟨v, k, -, hboot, hrun⟩ := osRun_some hs
  have hk := kernelInv_run hboot hrun
  obtain ⟨i, hi, hmem, -⟩ := hk.init
  obtain rfl : i = p := some.inj (hi.symm.trans hp)
  have hcall := toOption_some hcall
  obtain ⟨child, hnew, -, hview, -⟩ := sys_fork_copies hk hmem hcall
  exact ⟨s, i, _, hs, hmem, hcall, child, hnew, fun a => (hview a).1⟩

end NjuOs
