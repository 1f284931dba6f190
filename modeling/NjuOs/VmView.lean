import NjuOs.VmOsSound

/-!
# User memory as the host shows it

While a CPU runs a process in user mode, the user area of that CPU holds exactly the pages of the process's
table, whatever the other CPUs do. Once an address is mapped twice, the next switch away from the process, or
to it, never ends.
-/

namespace NjuOs

open Function List Option

/-! ## The calls of a step -/

inductive StepCalls (s : VmSys) (k' : Kernel) (c : Nat) : List Native.Act → Prop
  | none : StepCalls s k' c []
  | mapped {p : TaskRef} {h : Nat} {new : List Vmap} {ns blocks : List (Nat × Nat)} (hp : p ∈ s.os.k.ptable)
    (hp' : p ∈ k'.ptable) (hc : s.os.k.current c = some p) (hh : (s.os.k.tasks p).addrSpace.ptr = some h)
    (hr : Recorded p new ns blocks s.os.k k') (hg : Taken (ns.map Prod.snd) blocks s.os.k k') :
    StepCalls s k' c (mapCalls c h new ns)
  | begun {t : TaskRef} {h : Nat} {old : Multiset (Nat × Nat)} {new : List (Nat × Nat)} (ht : t ∈ k'.ptable)
    (hb : Begun t h old new s.os.k k') (hg : Taken (h :: (k'.tasks t).addrSpace.pages) new s.os.k k') :
    StepCalls s k' c (spaceCalls c (k'.tasks t))

section
variable {A : Allocator} {s s' : VmSys} {os : OsSys} {a : OsAct} {c : Nat} {t : TaskRef}

theorem VmInv.calls_syscall {ctx : Context} {now : Nat} {call : Syscall} (h : VmInv s)
    (hos : s.os.step A (.syscall c ctx now call) = some os) :
    StepCalls s os.k c (vmCalls s.os.k os.k s.os.user (.syscall c ctx now call)) := by
  have hk' := h.kernel.step hos
  obtain ⟨p, f, f', b, hu, -, hd, -, -⟩ := step_syscall hos
  have hmem := h.kernel.user_mem hu
  obtain ⟨h0, hh0, hptr0, -⟩ := h.space p hmem
  cases doSyscall_vm h.kernel hd with
  | kept hv hf hcall =>
    rw [hcall]
    exact .none
  | mmap hm hf =>
    obtain ⟨_, hstep⟩ := memStep_sysMmap hm
    obtain ⟨new, ns, _, hrec⟩ := sysMmap_recorded hm
    rw [vmCalls_mmap hu hrec hptr0]
    exact .mapped hmem (hstep.ptable.symm ▸ hmem) (user_some hu).1 hptr0 hrec
      (hrec.taken hstep h.kernel.nodup hmem)
  | exec he =>
    obtain ⟨⟨_, hstep⟩, -⟩ := memStep_sysExec he
    obtain ⟨h1, new, hb, -⟩ := sysExec_begun he
    have hg := hb.taken hstep h.kernel.nodup hmem
    rw [vmCalls_exec hu]
    · exact .begun (hstep.ptable.symm ▸ hmem) hb hg
    · rw [hb.ptr, hptr0]
      rintro ⟨⟩
      exact h.toSpaces.head_fresh hk' hg hh0
  | fork hf _ =>
    obtain ⟨t, h1, new, hb, -, htab⟩ := sysFork_begun hf
    obtain ⟨-, a, _, hborn⟩ := sysFork_ok hf
    cases append_cancel_left (htab.symm.trans hborn.ptable)
    have hnew := (h.kernel.toKernelBase.born hborn).1
    rw [vmCalls_fork htab]
    exact .begun (by simp [htab]) hb (hb.grown_born hborn hnew)

theorem VmInv.calls (h : VmInv s) (hos : s.os.step A a = some os) :
    StepCalls s os.k a.cpu (vmCalls s.os.k os.k s.os.user a) := by
  cases a with
  | schedule | tick | pageFault => exact .none
  | syscall c ctx now call => exact h.calls_syscall hos
  | spawn bin len =>
    obtain ⟨t, hd, -, -⟩ := step_spawn hos
    obtain ⟨a, _, rfl, hborn⟩ := procSpawn_ok hd
    obtain ⟨_, _, hb, -⟩ := procSpawn_begun hd
    have hnew := (h.kernel.toKernelBase.born hborn).1
    rw [vmCalls_spawn hborn.ptable]
    exact .begun (by simp [hborn.ptable]) hb (hb.grown_born hborn hnew)

theorem VmInv.current_of_vmHead (h : VmInv s) (ht : t ∈ s.os.k.ptable)
    (hv : s.vm.vme.vmHead c = (s.os.k.tasks t).addrSpace.ptr) : s.os.k.current c = some t := by
  have heq : ∀ u ∈ s.os.k.ptable, s.vm.vme.vmHead c = (s.os.k.tasks u).addrSpace.ptr → u = t := fun u hu he =>
    h.apart u hu t ht (he.symm.trans hv)
  cases hr : s.os.resched c with
  | true =>
    obtain ⟨u, hu, hc, -, he | hne⟩ := h.trapped c hr
    · rw [hc, heq u hu he]
    · exact absurd hv (hne t ht)
  | false =>
    obtain ⟨-, hsp⟩ := h.running c hr
    obtain ⟨a, -, ha, -⟩ := h.space t ht
    obtain ⟨n, hc, hptr⟩ := spaceOf_some (hsp.symm.trans (hv.trans ha))
    rw [hc, heq _ (KernelInv.current_mem h.kernel hc) (hv.trans (ha.trans hptr.symm))]

theorem VmInv.space_task (h : VmInv s) (hres : s.os.resched c = false) {a : Nat} (ha : s.vm.vme.vmHead c = some a) :
    ∃ t ∈ s.os.k.ptable, s.os.k.current c = some t ∧ (s.os.k.tasks t).addrSpace.ptr = some a := by
  obtain ⟨n, hcur, hptr⟩ := spaceOf_some ((h.running c hres).2.symm.trans ha)
  exact ⟨_, KernelInv.current_mem h.kernel hcur, hcur, hptr⟩

theorem VmInv.resumed_space {ctx rc : Context} {next : TaskRef} {m : Kmt} (h : VmInv s)
    (hctx : ctx.vmHead = s.vm.vme.vmHead c) (hcpu : CpuInv m)
    (hsw : Switched s.os.k.toKmt c (s.os.frame c ctx) next m rc) {a : Nat} (ha : rc.vmHead = some a) :
    next ∈ s.os.k.ptable ∧ (s.os.k.tasks next).addrSpace.ptr = some a ∧ a ∈ s.vm.vme.heads := by
  have hrc := h.toInSpaces.resumed h.kernel hctx hcpu hsw
  rw [ha] at hrc
  have hlive : s.os.k.live next = true := by
    rw [← hsw.frame.1]
    exact CpuRel.live hcpu (Or.inl (by rw [hsw.current, update_self]))
  rcases (h.kernel.live next).mp hlive with ⟨d, rfl⟩ | hmem
  · cases hrc
  · obtain ⟨n, rfl⟩ := h.kernel.procs next hmem
    obtain ⟨b, hb, hptr, -⟩ := h.space _ hmem
    cases hptr.symm.trans hrc.symm
    exact ⟨hmem, hptr, hb⟩

end

/-! ## What the host shows -/

namespace Native

variable {ncpu cpu h : Nat}

theorem mapCalls_cons (m : Vmap) (ms : List Vmap) (ns : List (Nat × Nat)) : ∃ page ns',
    NjuOs.mapCalls cpu h (m :: ms) ns = .map cpu h m.va m.pa m.prot page :: NjuOs.mapCalls cpu h ms ns' := by
  cases ns with
  | nil => exact ⟨none, [], rfl⟩
  | cons n ns =>
    by_cases hn : n.1 = m.va
    · exact ⟨some n.2, ns, if_pos hn⟩
    · exact ⟨none, n :: ns, if_neg hn⟩

theorem HostInv.mapCalls (hcpu : cpu < ncpu) : ∀ {ms : List Vmap} {ns : List (Nat × Nat)} {s s' : Sys}, HostInv ncpu s →
    (∀ c < ncpu, c ≠ cpu → s.vme.vmHead c ≠ some h) → ((s.log h ++ ms).map Vmap.va).Nodup →
    run Sys.step s (NjuOs.mapCalls cpu h ms ns) = some s' → HostInv ncpu s'
  | [], _, s, s', hi, _, _, hs => by
    cases hs
    exact hi
  | m :: ms, ns, s, s', hi, halone, hnd, hs => by
    obtain ⟨page, ns', he⟩ := mapCalls_cons m ms ns
    rw [he] at hs
    obtain ⟨t, ht, hs⟩ := run_cons_some hs
    obtain ⟨_, hg⟩ : ∃ ns, Grew h [m] ns s t := by
      rcases hi.map_grew ht with ⟨-, hg⟩ | ⟨-, _, -, hg⟩
      · exact ⟨_, hg⟩
      · exact ⟨_, hg⟩
    have hnew : m.va ∉ (s.log h).map Vmap.va := fun hm => by
      rw [map_append, map_cons] at hnd
      exact (nodup_append'.mp hnd).2.2 hm (mem_cons_self ..)
    have hex : Exclusive ncpu s (.map cpu h m.va m.pa m.prot page) := ⟨hcpu, hnew, halone⟩
    refine HostInv.mapCalls hcpu (hi.step hex ht) (by rwa [hg.vmHead]) ?_ hs
    rw [hg.log, update_self, append_assoc]
    exact hnd

theorem HostInv.spaceCalls {s s' : Sys} {x : Task} (hcpu : cpu < ncpu) (hi : HostInv ncpu s)
    (hx : x.addrSpace.ptr = some h) (hnd : x.vas.Nodup)
    (hs : run Sys.step s (NjuOs.spaceCalls cpu x) = some s') : HostInv ncpu s' := by
  unfold NjuOs.spaceCalls at hs
  rw [hx] at hs
  obtain ⟨t, ht, hs⟩ := run_cons_some hs
  obtain ⟨hnew, -, hvm, -, hlog, -⟩ := protect_step ht
  have hex : Exclusive ncpu s (.protect (some h)) := trivial
  refine HostInv.mapCalls hcpu (hi.step hex ht) ?_ ?_ hs
  · intro c _ _ hc
    rw [hvm] at hc
    exact hnew (hi.active c h hc)
  · rw [hlog, hi.unlogged h hnew, nil_append]
    exact hnd

end Native

structure ViewInv (ncpu : Nat) (s : VmSys) : Prop extends VmInv s where
  spaces : SpacesInv s.os.k
  host : Native.HostInv ncpu s.vm

def ViewSafe (A : Allocator) (ncpu : Nat) (s : VmSys) (a : OsAct) : Prop := MapSafe A s.os a ∧ a.cpu < ncpu

instance (A : Allocator) (ncpu : Nat) (s : VmSys) (a : OsAct) : Decidable (ViewSafe A ncpu s a) :=
  inferInstanceAs (Decidable (_ ∧ _))

section
variable {A : Allocator} {ncpu : Nat} {s s' : VmSys} {os : OsSys} {vm : Native.Sys} {a : OsAct} {c : Nat}
  {calls : List Native.Act}

theorem ViewInv.called (h : ViewInv ncpu s) (hk' : SpacesInv os.k) (hcpu : c < ncpu)
    (hc : StepCalls s os.k c calls) (hs : run Native.Sys.step s.vm calls = some vm) : Native.HostInv ncpu vm := by
  cases hc with
  | none =>
    cases hs
    exact h.host
  | @mapped p a new _ _ hp hp' hcur hh hr =>
    obtain ⟨_, -, hptr, hlog⟩ := h.space p hp
    cases hptr.symm.trans hh
    refine h.host.mapCalls hcpu ?_ ?_ hs
    · intro d _ hd hv
      have hcd := h.current_of_vmHead hp (hv.trans hh.symm)
      exact hd (CpuRel.unique h.kernel.cpu (Or.inl hcd) (Or.inl hcur))
    · rw [hlog, ← hr.maps]
      exact (hk' p hp').nodup
  | begun ht hb => exact h.host.spaceCalls hcpu hb.ptr (hk' _ ht).nodup hs

theorem ViewInv.step (h : ViewInv ncpu s) (hsafe : ViewSafe A ncpu s a) (hs : s.step A a = some s') :
    ViewInv ncpu s' := by
  obtain ⟨hmap, hcpu⟩ := hsafe
  have hi := h.toVmInv.step hs
  refine ⟨hi, ?_, ?_⟩
  · obtain ⟨-, hs⟩ := ite_none_right_eq_some.mp hs
    obtain ⟨os, hos, hs⟩ := bind_eq_some_iff.mp hs
    obtain ⟨vm, -, hs⟩ := bind_eq_some_iff.mp hs
    cases hs
    exact h.spaces.step h.kernel hmap hos
  · cases vmMove_step h.toVmInv hs with
    | @sched c ctx rc next m vm hctx hcpus hsw hst =>
      have hex : Native.Exclusive ncpu s.vm (.switch c rc.vmHead) := by
        refine ⟨hcpu, fun hne d _ hd hv => ?_⟩
        obtain ⟨a, ha⟩ := ne_none_iff_exists'.mp hne
        obtain ⟨hmem, hptr, -⟩ := h.toVmInv.resumed_space hctx hcpus hsw ha
        have hcd := h.current_of_vmHead hmem (hv.trans (ha.trans hptr.symm))
        exact hd (hsw.free d (Or.inl hcd))
      exact h.host.step hex hst
    | called hos _ hvm => exact h.called (h.spaces.step h.kernel hmap hos) hcpu (h.calls hos) hvm
    | @returned _ os vm vm' hos hi' hvm hr hst =>
      have hhost := h.called (h.spaces.step h.kernel hmap hos) hcpu (h.calls hos) hvm
      have hex : Native.Exclusive ncpu vm (.switch a.cpu (os.uctx a.cpu).vmHead) := by
        refine ⟨hcpu, fun hne d hdn hd hv => ?_⟩
        obtain ⟨b, hb⟩ := ne_none_iff_exists'.mp hne
        exact hd (hhost.single d hdn _ hcpu b (hv.trans hb) ((hi'.running _ hr).1.symm.trans hb))
      exact hhost.step hex hst

section
variable {v : Vfs} {uprogs : List (List UInt8 × List UInt8)} {k : Kernel} {s₀ : VmSys} {as : List OsAct}

theorem viewInv_boot (hboot : uprocInit A v uprogs = .ok k) (h0 : VmSys.boot k = some s) (hn : 0 < ncpu) :
    ViewInv ncpu s := by
  have hi := vmInv_boot hboot h0
  have hsp := spacesInv_boot hboot
  unfold VmSys.boot at h0
  split at h0
  · cases h0
  next t ht =>
  obtain ⟨vm, hvm, h0⟩ := bind_eq_some_iff.mp h0
  cases h0
  refine ⟨hi, hsp, ?_⟩
  have hmem : t ∈ k.ptable := mem_of_getLast? ht
  obtain ⟨h, -, hptr, -⟩ := hi.space t hmem
  obtain ⟨vm0, hinit, hvm⟩ := run_cons_some hvm
  have hex : Native.Exclusive ncpu Native.Sys.boot .vmeInit := trivial
  exact ((Native.hostInv_boot ncpu).step hex hinit).spaceCalls hn hptr (hsp t hmem).nodup hvm

theorem viewInv_run (hboot : uprocInit A v uprogs = .ok k) (h0 : VmSys.boot k = some s₀) (hn : 0 < ncpu)
    (hal : Along (VmSys.step A) (ViewSafe A ncpu) s₀ as) (hr : run (VmSys.step A) s₀ as = some s) : ViewInv ncpu s :=
  run_inv_along (fun _ _ _ h hsafe hs => h.step hsafe hs) as s₀ s (viewInv_boot hboot h0 hn) hal hr

def Kernel.mapsOf (k : Kernel) : Option TaskRef → List Vmap
  | some (.proc a) => (k.tasks (.proc a)).maps
  | _ => []

/-- What the CPUs that run in user mode see: the pages of the process that runs there, each one a block of its
own, apart from all other pages that are shown and from those that AM keeps its spaces in. -/
structure UserView (ncpu : Nat) (s : VmSys) : Prop where
  own : ∀ c < ncpu, s.os.resched c = false → ∀ va, s.vm.vme.host c va =
    ((s.os.k.mapsOf (s.os.k.current c)).find? (·.va = va)).map fun m => Native.hostPage m.pa m.prot
  block : ∀ c < ncpu, s.os.resched c = false → ∀ va x, s.vm.vme.host c va = some x →
    (x.pa, pgsize) ∈ s.os.k.heap.live
  am : ∀ c < ncpu, s.os.resched c = false → ∀ va x, s.vm.vme.host c va = some x →
    ∀ q ∈ s.vm.vme.heads ++ s.vm.vme.used, (q, pgsize) ∈ s.os.k.heap.live ∧ (x.pa + pgsize ≤ q ∨ q + pgsize ≤ x.pa)
  others : ∀ c < ncpu, ∀ d < ncpu, s.os.resched c = false → s.os.resched d = false → ∀ va w, (c, va) ≠ (d, w) →
    ∀ x y, s.vm.vme.host c va = some x → s.vm.vme.host d w = some y → x.pa + pgsize ≤ y.pa ∨ y.pa + pgsize ≤ x.pa

theorem ViewInv.own (h : ViewInv ncpu s) (hc : c < ncpu) (hr : s.os.resched c = false) (va : Nat) :
    s.vm.vme.host c va =
      ((s.os.k.mapsOf (s.os.k.current c)).find? (·.va = va)).map fun m => Native.hostPage m.pa m.prot := by
  rw [h.host.host c hc va, Native.Sys.shown, (h.running c hr).2]
  cases hcur : s.os.k.current c with
  | none => rfl
  | some t =>
    cases t with
    | idle d => rfl
    | kernel i => rfl
    | proc a =>
      obtain ⟨b, -, hptr, hlog⟩ := h.space _ (KernelInv.current_mem h.kernel hcur)
      have hsp : s.os.k.spaceOf (some (.proc a)) = some b := hptr
      rw [hsp, bind_some, hlog]
      rfl

/-- A page that a CPU shows is in the table of the process that runs there. -/
theorem ViewInv.shown (h : ViewInv ncpu s) (hc : c < ncpu) (hr : s.os.resched c = false) {va : Nat}
    {x : Native.HostPage} (hx : s.vm.vme.host c va = some x) : ∃ t ∈ s.os.k.ptable, s.os.k.current c = some t ∧
      ∃ m ∈ (s.os.k.tasks t).maps, m.va = va ∧ m.pa = x.pa := by
  rw [h.host.host c hc, Native.Sys.shown, bind_eq_some_iff] at hx
  obtain ⟨a, ha, hx⟩ := hx
  obtain ⟨m, hm, rfl⟩ := map_eq_some_iff.mp hx
  obtain ⟨t, ht, hcur, hptr⟩ := h.space_task hr ha
  obtain ⟨b, -, hb, hlog⟩ := h.space t ht
  cases hb.symm.trans hptr
  rw [hlog] at hm
  have hva := find?_some hm
  exact ⟨t, ht, hcur, m, mem_of_find?_eq_some hm, of_decide_eq_true hva, rfl⟩

theorem HeapOk.two {heap : Heap} {b c : Nat × Nat} (h : HeapOk heap)
    (hle : ({b} + {c} : Multiset (Nat × Nat)) ≤ heap.live) : b.1 + b.2 ≤ c.1 ∨ c.1 + c.2 ≤ b.1 := by
  have hpw : [b, c].Pairwise fun a b => a.1 + a.2 ≤ b.1 ∨ b.1 + b.2 ≤ a.1 := pairwise_of_le (fun h => h.symm) hle h.apart
  exact rel_of_pairwise_cons hpw (mem_singleton_self c)

theorem ViewInv.am_page (h : ViewInv ncpu s) {t : TaskRef} {m : Vmap} {q : Nat} (ht : t ∈ s.os.k.ptable)
    (hm : m ∈ (s.os.k.tasks t).maps) (hq : q ∈ s.vm.vme.heads ++ s.vm.vme.used) :
    (q, pgsize) ∈ s.os.k.heap.live ∧ (m.pa + pgsize ≤ q ∨ q + pgsize ≤ m.pa) := by
  have hmem : (q, pgsize) ∈ pagesAt (s.vm.vme.heads ++ s.vm.vme.used) := Multiset.mem_coe.mpr (mem_map_of_mem hq)
  refine ⟨Multiset.mem_of_le ((Multiset.le_add_left _ _).trans h.blocks) hmem, ?_⟩
  refine HeapOk.two (b := (m.pa, pgsize)) (c := (q, pgsize)) h.kernel.own.heapOk (le_trans (add_le_add ?_ ?_) h.blocks)
  · exact Multiset.singleton_le.mpr ((mem_bag _).mpr ⟨t, ht, h.kernel.page_owned ht hm⟩)
  · exact Multiset.singleton_le.mpr hmem

theorem ViewInv.two_pages (h : ViewInv ncpu s) {t u : TaskRef} {m m' : Vmap} (ht : t ∈ s.os.k.ptable)
    (hm : m ∈ (s.os.k.tasks t).maps) (hu : u ∈ s.os.k.ptable) (hm' : m' ∈ (s.os.k.tasks u).maps)
    (hne : (t, m.va) ≠ (u, m'.va)) : m.pa + pgsize ≤ m'.pa ∨ m'.pa + pgsize ≤ m.pa := by
  refine HeapOk.two (b := (m.pa, pgsize)) (c := (m'.pa, pgsize)) h.kernel.own.heapOk (le_trans ?_ h.kernel.own.blocks)
  by_cases htu : u = t
  · subst htu
    rw [bag_erase _ ht]
    refine le_trans ?_ (Multiset.le_add_right _ _)
    obtain ⟨n, rfl⟩ := h.kernel.procs u hu
    refine le_trans (le_trans ?_ (Multiset.le_add_left _ _)) owned_le_ownedBy
    have hsub : [m, m'].Subperm (s.os.k.tasks (.proc n)).maps := by
      refine subperm_of_subset ?_ (by simp [hm, hm'])
      refine nodup_cons.mpr ⟨fun he => hne ?_, nodup_singleton _⟩
      rw [mem_singleton.mp he]
    obtain ⟨l, hperm, hl⟩ := hsub
    exact Multiset.coe_le.mpr ⟨_, hperm.map _, hl.map _⟩
  · have hu' : u ∈ s.os.k.ptable.erase t := (List.Nodup.mem_erase_iff h.kernel.nodup).mpr ⟨htu, hu⟩
    rw [bag_erase _ ht]
    refine add_le_add ?_ ?_
    · exact Multiset.singleton_le.mpr (h.kernel.page_owned ht hm)
    · exact Multiset.singleton_le.mpr ((mem_bag _).mpr ⟨u, hu', h.kernel.page_owned hu hm'⟩)

theorem ViewInv.view (h : ViewInv ncpu s) : UserView ncpu s where
  own := fun c hc hr va => h.own hc hr va
  block := fun c hc hr va x hx => by
    obtain ⟨t, ht, -, m, hm, -, hpa⟩ := h.shown hc hr hx
    rw [← hpa]
    exact h.kernel.isolated.live t ht m hm
  am := fun c hc hr va x hx q hq => by
    obtain ⟨t, ht, -, m, hm, -, hpa⟩ := h.shown hc hr hx
    rw [← hpa]
    exact h.am_page ht hm hq
  others := fun c hc d hd hrc hrd va w hne x y hx hy => by
    obtain ⟨t, ht, htc, m, hm, rfl, hpa⟩ := h.shown hc hrc hx
    obtain ⟨u, hu, hud, m', hm', rfl, hpa'⟩ := h.shown hd hrd hy
    rw [← hpa, ← hpa']
    refine h.two_pages ht hm hu hm' fun he => hne ?_
    obtain ⟨rfl, hva⟩ := Prod.mk.inj he
    rw [hva, CpuRel.unique h.kernel.cpu (Or.inl htc) (Or.inl hud)]

end

end

/-! ## Addresses mapped twice -/

section
variable {A : Allocator} {v : Vfs} {uprogs : List (List UInt8 × List UInt8)} {k : Kernel} {s₀ s : VmSys}
  {as : List OsAct} {c : Nat} {ctx rc : Context} {m : Kmt}

theorem vmInv_run (hboot : uprocInit A v uprogs = .ok k) (h0 : VmSys.boot k = some s₀)
    (hr : run (VmSys.step A) s₀ as = some s) : VmInv s :=
  run_inv (fun _ _ _ h hs => h.step hs) as s₀ s (vmInv_boot hboot h0) hr

theorem VmInv.mappedOnce (h : VmInv s) {t : TaskRef} {a : Nat} (ht : t ∈ s.os.k.ptable)
    (ha : (s.os.k.tasks t).addrSpace.ptr = some a) : Native.MappedOnce (s.vm.log a) ↔ (s.os.k.tasks t).vas.Nodup := by
  obtain ⟨_, -, hptr, hlog⟩ := h.space t ht
  cases hptr.symm.trans ha
  rw [Native.MappedOnce, hlog]
  rfl

end

/-! ## On the small machine -/

def inSpace (h : Nat) : Context := { blankContext with vmHead := some h }

theorem vm_passes {c : VmSys → OsAct → Bool} {C : VmSys → OsAct → Prop} {p : VmSys → Bool}
    {as : List OsAct} (hc : ∀ s a, c s a = true → C s a)
    (h : (smallKernel.any fun k => (VmSys.boot k).any fun s₀ =>
      passes (VmSys.step bumpAlloc) c p s₀ as) = true) :
    ∃ v k s₀ s, uprocInit bumpAlloc v smallProgs = .ok k ∧ VmSys.boot k = some s₀ ∧
      run (VmSys.step bumpAlloc) s₀ as = some s ∧ Along (VmSys.step bumpAlloc) C s₀ as ∧ p s = true := by
  obtain ⟨k, hk, h⟩ := (any_eq_true _ _).mp h
  obtain ⟨s₀, h0, h⟩ := (any_eq_true _ _).mp h
  obtain ⟨v, -, hu⟩ := bind_eq_some_iff.mp hk
  obtain ⟨s, hr, hal, hp⟩ := passes_run hc h
  exact ⟨v, k, s₀, s, toOption_some hu, h0, hr, hal, hp⟩

def twoCpuRun : List OsAct :=
  [.schedule 0 blankContext, .syscall 0 (inSpace 102400) 0 .fork, .schedule 1 blankContext,
   .syscall 1 (inSpace 1273856) 0 (.mmap 0 4096 3 1)]

def remapRun : List OsAct :=
  [.schedule 0 blankContext, .syscall 0 (inSpace 102400) 0 (.mmap userBase 4096 3 1)]

end NjuOs
