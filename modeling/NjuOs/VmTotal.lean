import NjuOs.Stops
import NjuOs.VmView

/-!
# AM's calls go through

A step of the kernel stops at no assertion of AM, as long as the hints of `mmap` lie in the user area and
memory does not run out. Where the kernel's own code returns, the calls of AM that it made return as well,
and so does the switch at the end of the trap.
-/

namespace NjuOs

open Function List

/-! ## The kernel's side -/

def amAsserts : List String :=
  ["assertion: h != NULL", "assertion: IN_RANGE(va, USER_SPACE)", "assertion: va % __am_pgsize == 0",
   "assertion: pa % __am_pgsize == 0"]

def Allocator.Aligned (A : Allocator) : Prop := ∀ h p, A.alloc h pgsize = some p → p % pgsize = 0

section
variable {A : Allocator} {s : OsSys} {a : OsAct} {x : Task} {n : Nat} {vas : List Nat}

theorem Allocator.Aligned.pages (hA : A.Aligned) (hu : ∀ va ∈ vas.take (procMaxmap - n), UserPage va) :
    PageChecks (· ∉ amAsserts) A n vas where
  full := fun _ => by decide
  am := fun va hva h pa ha => by
    obtain ⟨h1, h2, h3⟩ := hu va hva
    exact ⟨fun hr => absurd ⟨h1, h2⟩ hr, fun hv => absurd h3 hv, fun hp => absurd (hA h pa ha) hp⟩

/-- Image and stack lie in the user area as far as they are mapped. -/
theorem imageVas_user (len : Nat) : ∀ va ∈ (imageVas len).take procMaxmap, UserPage va := by
  intro va hva
  rw [imageVas, take_append, mem_append, ← map_take, take_range] at hva
  rcases hva with hva | hva
  · obtain ⟨i, hi, rfl⟩ := mem_map.mp hva
    have hi : i < procMaxmap := (mem_range.mp hi).trans_le (Nat.min_le_left _ _)
    unfold UserPage userBase userEnd procMaxmap pgsize at *
    omega
  · obtain ⟨i, hi, rfl⟩ := mem_map.mp (mem_of_mem_take hva)
    have hi := mem_range.mp hi
    unfold UserPage userBase userEnd stkPages pgsize at *
    omega

theorem mmapVas_aligned {addr : Nat} {length : Int} : ∀ va ∈ mmapVas x addr length, va % pgsize = 0 := by
  intro va hva
  obtain ⟨i, -, rfl⟩ := mem_map.mp hva
  unfold mmapBase add64 pgsize
  omega

/-- The heap cursor stays in the user area as long as the table of mappings has room. -/
theorem SpaceInv.unhinted_user (h : SpaceInv x) (length : Int) :
    ∀ va ∈ (mmapVas x 0 length).take (procMaxmap - x.vas.length), userBase ≤ va ∧ va < userEnd := by
  intro va hva
  rw [mmapVas, ← map_take, take_range, mmapBase_unhinted h] at hva
  obtain ⟨i, hi, rfl⟩ := mem_map.mp hva
  have hi : i < procMaxmap - x.vas.length := (mem_range.mp hi).trans_le (Nat.min_le_left _ _)
  have hlow := h.low
  have hhigh := h.high
  unfold add64 userBase userEnd
  unfold userHeap procMaxmap pgsize at *
  omega

/-- No step stops at an assertion of AM. -/
theorem SpacesInv.no_assert (h : SpacesInv s.k) (hk : KernelInv s.k) (hA : A.Aligned) (huser : HintInUser s a)
    (hserved : Served A s.k.heap (s.requests a)) {msg : String} (hstop : s.stop A a = some (.panic msg)) :
    msg ∉ amAsserts := by
  refine stops_step (Q := (· ∉ amAsserts)) hk ?_ (fun hno => absurd hserved hno) hstop
  cases a with
  | syscall c ctx now call =>
    intro p hu
    have hp := hk.user_mem hu
    cases call with
    | fork => exact ⟨fun _ => by decide, hA.pages fun va hva => (h p hp).user va (mem_of_mem_take hva)⟩
    | mmap addr length prot flags =>
      intro hlen hf
      refine hA.pages fun va hva => ?_
      have hmem := mem_of_mem_take hva
      suffices hr : userBase ≤ va ∧ va < userEnd from ⟨hr.1, hr.2, mmapVas_aligned va hmem⟩
      by_cases ha : addr = 0
      · subst ha
        exact (h p hp).unhinted_user length va hva
      · exact huser p hu ha hf va hmem
    | exec va path => exact fun img _ => hA.pages (imageVas_user img.2)
    | vfs c =>
      have hmemory : MemoryChecks (· ∉ amAsserts) := by
        unfold MemoryChecks
        decide
      have hdir : ∀ v path, DirChecks (· ∉ amAsserts) v path := fun v path r _ _ => by decide
      cases c with
      | sysOpen mem path flags => exact ⟨fun _ _ => hdir _ _, fun _ => hmemory⟩
      | sysMkdir mem path => exact ⟨fun _ => hdir _ _, fun _ => hmemory⟩
      | sysWrite mem fd buf n => exact fun _ => hmemory
      | sysLink x y => exact fun _ => hdir _ _
      | _ => trivial
    | _ => trivial
  | spawn bin len => exact ⟨fun _ => by decide, hA.pages (imageVas_user len)⟩
  | _ => trivial

end

/-! ## AM's side -/

namespace Native

theorem user_pages_le {l : List Nat} (hnd : l.Nodup) (hu : ∀ va ∈ l, UserPage va) : l.length ≤ maxPg := by
  have hsub : l.toFinset ⊆ (Finset.range maxPg).image fun i => userBase + i * pgsize := by
    intro va hva
    obtain ⟨h1, h2, h3⟩ := hu va (mem_toFinset.mp hva)
    refine Finset.mem_image.mpr ⟨(va - userBase) / pgsize, Finset.mem_range.mpr ?_, ?_⟩
    · unfold maxPg userBase userEnd pgsize at *
      omega
    · unfold userBase pgsize at *
      omega
  rw [← toFinset_card_of_nodup hnd]
  exact (Finset.card_le_card hsub).trans (Finset.card_image_le.trans (Finset.card_range maxPg).le)

variable {s : Sys} {cpu h va pa p : Nat}

/-- The table of a space has a slot for every page of the user area. -/
theorem SysInv.room (hi : SysInv s) (hh : h ∈ s.vme.heads) (hu : UserPage va)
    (hva : va ∉ (s.vme.spaces h).hash.map Prod.fst) : (s.vme.spaces h).hash.length < maxPg := by
  have hc := hi.chain h hh
  have hle := user_pages_le (nodup_cons.mpr ⟨hva, hc.distinct⟩) (forall_mem_cons.mpr ⟨hu, fun w hw => by
    obtain ⟨e, he, rfl⟩ := mem_map.mp hw
    exact (hc.node e he).2.1⟩)
  rw [length_cons, length_map] at hle
  omega

theorem SysInv.map_total (hi : SysInv s) (cpu prot : Nat) (page : Option Nat) (hh : h ∈ s.vme.heads) (hu : UserPage va)
    (hpa : pa % pgsize = 0) (hfresh : s.vme.fresh page = true)
    (hpage : va ∉ (s.vme.spaces h).hash.map Prod.fst → page ≠ none) :
    ∃ s', s.step (.map cpu h va pa prot page) = some s' := by
  have hfind : ∃ r, findNode s.vme h va page = .ok r := by
    simp only [findNode]
    cases hf : (s.vme.spaces h).hash.find? (·.1 = key va) with
    | some e => exact ⟨_, rfl⟩
    | none =>
      have hnone : va ∉ (s.vme.spaces h).hash.map Prod.fst := fun hk => by
        obtain ⟨e, he, hek⟩ := mem_map.mp hk
        refine find?_eq_none.mp hf e he (decide_eq_true ?_)
        rw [key_of_user hu]
        exact hek
      obtain ⟨p, rfl⟩ := Option.ne_none_iff_exists'.mp (hpage hnone)
      have hroom := hi.room hh hu hnone
      exact ⟨_, if_neg (by omega)⟩
  obtain ⟨⟨n, q⟩, hfind⟩ := hfind
  have hmap : map s.vme cpu h va pa prot page = .ok (linkNode n cpu h q va pa prot) := by
    rw [map, if_neg (not_not.mpr ⟨hu.1, hu.2.1⟩), if_neg (not_not.mpr hu.2.2), if_neg (not_not.mpr hpa), hfind]
    rfl
  refine ⟨⟨linkNode n cpu h q va pa prot, update s.log h (s.log h ++ [⟨va, pa, prot⟩])⟩, ?_⟩
  rw [Sys.step, if_pos ⟨hh, hfresh⟩, hmap]
  rfl

theorem SysInv.mapCalls_total {keys : List Nat} {ms : List Vmap} {ns : List (Nat × Nat)} (hn : Noded keys ms ns) :
    ∀ {s : Sys}, SysInv s → h ∈ s.vme.heads → (s.vme.spaces h).hash.map Prod.fst = keys →
    (∀ m ∈ ms, UserPage m.va ∧ m.pa % pgsize = 0) → (ns.map Prod.snd ++ (s.vme.heads ++ s.vme.used)).Nodup →
    ∃ s', run Sys.step s (NjuOs.mapCalls cpu h ms ns) = some s' := by
  induction hn with
  | nil => exact fun _ _ _ _ _ => ⟨_, rfl⟩
  | @old keys m ms ns hold hr ih =>
    intro s hi hh hkeys hvalid hnd
    obtain ⟨⟨hu, hpa⟩, hvalid⟩ := forall_mem_cons.mp hvalid
    obtain ⟨t, ht⟩ := hi.map_total cpu m.prot none hh hu hpa rfl fun hno => absurd (hkeys ▸ hold) hno
    rcases hi.map_grew ht with ⟨-, hg⟩ | ⟨hnew, -⟩
    · obtain ⟨s', hs'⟩ := ih (hi.step ht) (hg.heads.symm ▸ hh) (by rw [hg.hash]; exact hkeys) hvalid
        (by rw [hg.heads, hg.used]; exact hnd)
      refine ⟨s', ?_⟩
      rw [mapCalls_old (hr.fresh m.va hold), run_cons, ht]
      exact hs'
    · exact absurd (hkeys ▸ hold) hnew
  | @new keys m ms ns q hnew hr ih =>
    intro s hi hh hkeys hvalid hnd
    obtain ⟨⟨hu, hpa⟩, hvalid⟩ := forall_mem_cons.mp hvalid
    have hq := (nodup_cons.mp hnd).1
    have hfresh : s.vme.fresh (some q) = true := decide_eq_true
      ⟨fun hm => hq (mem_append_right _ (mem_append_right _ hm)),
        fun hm => hq (mem_append_right _ (mem_append_left _ hm))⟩
    obtain ⟨t, ht⟩ := hi.map_total cpu m.prot (some q) hh hu hpa hfresh fun _ => by simp
    rcases hi.map_grew ht with ⟨hold, -⟩ | ⟨-, _, ⟨⟩, hg⟩
    · exact absurd (hkeys ▸ hold) hnew
    · -- the page has moved from those to come to those in use
      have hperm : (ns.map Prod.snd ++ (s.vme.heads ++ q :: s.vme.used)).Perm
          (q :: (ns.map Prod.snd ++ (s.vme.heads ++ s.vme.used))) :=
        (perm_middle.append_left _).trans perm_middle
      obtain ⟨s', hs'⟩ := ih (hi.step ht) (hg.heads.symm ▸ hh) (by rw [hg.hash, ← hkeys]; rfl) hvalid
        (by rw [hg.heads, hg.used]; exact hperm.nodup_iff.mpr hnd)
      refine ⟨s', ?_⟩
      rw [mapCalls_new, run_cons, ht]
      exact hs'

theorem SysInv.spaceCalls_total {x : Task} (hi : SysInv s) (hx : x.addrSpace.ptr = some h)
    (hn : Noded [] x.maps x.addrSpace.nodes.reverse) (hvalid : ∀ m ∈ x.maps, UserPage m.va ∧ m.pa % pgsize = 0)
    (hnd : (h :: x.addrSpace.pages ++ (s.vme.heads ++ s.vme.used)).Nodup) :
    ∃ s', run Sys.step s (NjuOs.spaceCalls cpu x) = some s' := by
  have hh := (nodup_cons.mp hnd).1
  have hfresh : s.vme.fresh (some h) = true := decide_eq_true
    ⟨fun hm => hh (mem_append_right _ (mem_append_right _ hm)),
      fun hm => hh (mem_append_right _ (mem_append_left _ hm))⟩
  obtain ⟨t, ht⟩ : ∃ t, s.step (.protect (some h)) = some t := by
    refine ⟨⟨{ s.vme.setSpace h ⟨none, [], 0⟩ with heads := h :: s.vme.heads }, s.log⟩, ?_⟩
    rw [Sys.step, if_pos hfresh]
    rfl
  obtain ⟨-, hheads, -, -, -, hused, hspaces⟩ := protect_step ht
  have hempty : (t.vme.spaces h).hash = [] := by rw [hspaces, update_self]
  have hperm : ((x.addrSpace.nodes.reverse.map Prod.snd) ++ (h :: s.vme.heads ++ s.vme.used)).Perm
      (h :: x.addrSpace.pages ++ (s.vme.heads ++ s.vme.used)) := by
    rw [map_reverse]
    exact perm_middle.trans (((reverse_perm _).append_right _).cons h)
  obtain ⟨s', hs'⟩ := SysInv.mapCalls_total hn (hi.step ht) (hheads.symm ▸ mem_cons_self ..) (by rw [hempty]; rfl)
    hvalid (by rw [hheads, hused]; exact hperm.nodup_iff.mpr hnd)
  refine ⟨s', ?_⟩
  unfold NjuOs.spaceCalls
  rw [hx]
  show run Sys.step s (_ :: _) = _
  rw [run_cons, ht]
  exact hs'

end Native

section
variable {A : Allocator} {ncpu : Nat} {s : VmSys} {os : OsSys} {a : OsAct} {c : Nat} {calls : List Native.Act}

theorem StepCalls.total (h : VmInv s) (hk' : KernelInv os.k) (hc : StepCalls s os.k c calls) :
    ∃ vm, run Native.Sys.step s.vm calls = some vm := by
  cases hc with
  | none => exact ⟨s.vm, rfl⟩
  | @mapped p b new ns _ hp hp' hcur hh hr hg =>
    obtain ⟨_, hb, hptr, -⟩ := h.space p hp
    cases hptr.symm.trans hh
    refine h.vme.mapCalls_total hr.noded hb ?_ hr.valid (h.toSpaces.fresh hk' hg)
    rw [h.nodes p hp b hh]
    rfl
  | begun ht hb hg => exact h.vme.spaceCalls_total hb.ptr hb.noded hb.valid (h.toSpaces.fresh hk' hg)

theorem ViewInv.switch_total {head : Option Nat} (h : ViewInv ncpu s)
    (hin : ∀ b, head = some b → b ∈ s.vm.vme.heads) : ∃ vm, s.vm.step (.switch c head) = some vm := by
  have hall : head.all (· ∈ s.vm.vme.heads) = true := by
    cases head with
    | none => rfl
    | some b => exact decide_eq_true (hin b rfl)
  have hok : ∃ n, Native.amSwitch s.vm.vme c head = .ok n := by
    by_cases hne : head = s.vm.vme.vmHead c
    · exact ⟨s.vm.vme, Native.amSwitch_same h.enabled hne⟩
    · rcases Native.amSwitch_cases h.vme h.enabled hne hin with ⟨n, hn, -⟩ | ⟨-, b, -, htwice⟩
      · exact ⟨_, hn⟩
      · exact absurd (h.host.once b) htwice
  obtain ⟨n, hn⟩ := hok
  refine ⟨⟨n, s.vm.log⟩, ?_⟩
  rw [Native.Sys.step, if_pos hall, hn]
  rfl

theorem ViewInv.total (h : ViewInv ncpu s) (hsafe : ViewSafe A ncpu s a) (hent : trapEntry s.vm a = true)
    (hos : s.os.step A a = some os) : ∃ vm, s.step A a = some ⟨os, vm⟩ := by
  obtain ⟨vm, hvm⟩ := (h.calls hos).total h.toVmInv (h.kernel.step hos)
  have hstep : ∀ {vm'}, run Native.Sys.step vm (trapReturn os a) = some vm' →
      s.step A a = some ⟨os, vm'⟩ := fun {vm'} hret => by
    have hrun : run Native.Sys.step s.vm (vmCalls s.os.k os.k s.os.user a ++ trapReturn os a) = some vm' :=
      (run_append hvm).trans hret
    rw [VmSys.step, if_pos hent]
    simp only [hos, Option.bind_eq_bind, Option.bind_some, hrun]
    rfl
  cases a with
  | schedule c ctx =>
    cases hvm
    cases osMove_step h.kernel hos with
    | @sched _ _ rc next m hcpu hsw =>
      obtain ⟨vm', hvm'⟩ := h.switch_total (c := c) fun b hb =>
        (h.toVmInv.resumed_space (of_decide_eq_true hent) hcpu hsw hb).2.2
      refine ⟨vm', hstep ?_⟩
      rw [trapReturn, run_cons]
      simp only [OsSys.trapped, update_self, hvm']
      rfl
  | tick | pageFault | spawn => exact ⟨vm, hstep rfl⟩
  | syscall c ctx now call =>
    have hi := h.toVmInv.called hent hos (fun _ _ ha => by cases ha) hvm
    rw [trapReturn] at hstep
    by_cases hr : os.resched c = true
    · rw [if_pos hr] at hstep
      exact ⟨vm, hstep rfl⟩
    · rw [if_neg hr] at hstep
      have hhost := h.called (h.spaces.step h.kernel hsafe.1 hos) hsafe.2 (h.calls hos) hvm
      have hview : ViewInv ncpu ⟨os, vm⟩ := ⟨hi, h.spaces.step h.kernel hsafe.1 hos, hhost⟩
      have hsame := (hi.running c (Bool.eq_false_of_not_eq_true hr)).1
      obtain ⟨vm', hvm'⟩ := hview.switch_total (c := c) fun b hb => hi.vme.active c b (hsame.symm.trans hb)
      refine ⟨vm', hstep ?_⟩
      rw [run_cons, hvm']
      rfl

end

theorem bumpAlloc_aligned : bumpAlloc.Aligned := by
  intro h p hp
  have hp : some ((topOf h.live / pgsize + 1) * pgsize) = some p := hp
  cases hp
  exact Nat.mul_mod_left ..

def hintAct : OsAct := .syscall 0 (inSpace 102400) 0 (.mmap 0x60000000 8192 3 1)

end NjuOs
