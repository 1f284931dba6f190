import NjuOs.VmOs
import NjuOs.NativeSound
import NjuOs.PageSound
import NjuOs.SpaceSound

/-!
# Spaces and CPUs

Every process of the table has an address space of its own, in which exactly the pages of its table have
been mapped. A CPU that runs a process is in the space of that process; a CPU on which a process has
called `exec` stays in the old space until the switch that follows.
-/

namespace NjuOs

open Function List Option

/-! ## The calls of a step -/

namespace Native

variable {s s' s'' : Sys} {cpu h va pa prot : Nat} {page head : Option Nat} {ms ms' : List Vmap}
  {ns ns' : List (Nat × Nat)}

structure Grew (h : Nat) (ms : List Vmap) (ns : List (Nat × Nat)) (s s' : Sys) : Prop where
  heads : s'.vme.heads = s.vme.heads
  vmHead : s'.vme.vmHead = s.vme.vmHead
  enable : s'.vme.vmeEnable = s.vme.vmeEnable
  log : s'.log = update s.log h (s.log h ++ ms)
  hash : (s'.vme.spaces h).hash = ns.reverse ++ (s.vme.spaces h).hash
  other : ∀ h', h' ≠ h → s'.vme.spaces h' = s.vme.spaces h'
  used : s'.vme.used = (ns.map Prod.snd).reverse ++ s.vme.used

theorem Grew.refl (h : Nat) (s : Sys) : Grew h [] [] s s := by
  refine ⟨rfl, rfl, rfl, ?_, rfl, fun _ _ => rfl, rfl⟩
  rw [append_nil, update_eq_self]

theorem Grew.trans (h1 : Grew h ms ns s s') (h2 : Grew h ms' ns' s' s'') : Grew h (ms ++ ms') (ns ++ ns') s s'' where
  heads := h2.heads.trans h1.heads
  vmHead := h2.vmHead.trans h1.vmHead
  enable := h2.enable.trans h1.enable
  log := by rw [h2.log, h1.log, update_self, update_idem, append_assoc]
  hash := by rw [h2.hash, h1.hash, reverse_append, append_assoc]
  other := fun h' hne => (h2.other h' hne).trans (h1.other h' hne)
  used := by rw [h2.used, h1.used, map_append, reverse_append, append_assoc]

theorem protect_step (hs : s.step (.protect (some h)) = some s') : h ∉ s.vme.heads ∧
    s'.vme.heads = h :: s.vme.heads ∧ s'.vme.vmHead = s.vme.vmHead ∧ s'.vme.vmeEnable = s.vme.vmeEnable ∧
    s'.log = s.log ∧ s'.vme.used = s.vme.used ∧
    s'.vme.spaces = update s.vme.spaces h ⟨none, [], 0⟩ := by
  cases moved_step hs with
  | protect _ hh => exact ⟨hh, rfl, rfl, rfl, rfl, rfl, rfl⟩

theorem map_nodes {n m : Vme} (hm : map n cpu h va pa prot page = .ok m) : UserPage va ∧
    ((va ∈ (n.spaces h).hash.map Prod.fst ∧ m.used = n.used ∧ (m.spaces h).hash = (n.spaces h).hash) ∨
    (va ∉ (n.spaces h).hash.map Prod.fst ∧ ∃ q, page = some q ∧ m.used = q :: n.used ∧
      (m.spaces h).hash = (va, q) :: (n.spaces h).hash)) := by
  unfold map at hm
  split at hm
  · cases hm
  next hr =>
  split at hm
  · cases hm
  next ha =>
  split at hm
  · cases hm
  have hu : UserPage va := ⟨(not_not.mp hr).1, (not_not.mp hr).2, not_not.mp ha⟩
  refine ⟨hu, ?_⟩
  obtain ⟨⟨n1, p⟩, hf, hm⟩ := bind_ok hm
  cases hm
  obtain ⟨-, hused, hsp⟩ := linkNode_step n1 cpu h p va pa prot
  have hhash : ((linkNode n1 cpu h p va pa prot).spaces h).hash = (n1.spaces h).hash := by rw [hsp]
  rw [hused, hhash]
  have hfind := findNode_ok hf
  rw [key_of_user hu] at hfind
  rcases hfind with ⟨rfl, he⟩ | ⟨he, rfl, rfl⟩
  · exact Or.inl ⟨mem_map_of_mem (f := Prod.fst) he, rfl, rfl⟩
  · refine Or.inr ⟨he, p, rfl, rfl, ?_⟩
    show (update n.spaces h _ h).hash = _
    rw [update_self]

theorem SysInv.map_grew (hi : SysInv s) (hs : s.step (.map cpu h va pa prot page) = some s') :
    (va ∈ (s.vme.spaces h).hash.map Prod.fst ∧ Grew h [⟨va, pa, prot⟩] [] s s') ∨
    (va ∉ (s.vme.spaces h).hash.map Prod.fst ∧ ∃ q, page = some q ∧ Grew h [⟨va, pa, prot⟩] [(va, q)] s s') := by
  cases moved_step hs with
  | map hh hp hm =>
    obtain ⟨p, hst, -⟩ := hi.map_step hh hp hm
    obtain ⟨-, ⟨hold, hused, hhash⟩ | ⟨hnew, q, hpage, hused, hhash⟩⟩ := map_nodes hm
    · exact Or.inl ⟨hold, hst.heads, hst.vmHead, hst.enable, rfl, hhash, hst.others, hused⟩
    · exact Or.inr ⟨hnew, q, hpage, hst.heads, hst.vmHead, hst.enable, rfl, hhash, hst.others, hused⟩

theorem SysInv.switch_frame (hi : SysInv s) (hen : s.vme.vmeEnable = true) (hs : s.step (.switch cpu head) = some s') :
    s'.vme.heads = s.vme.heads ∧ s'.vme.vmHead = update s.vme.vmHead cpu head ∧ s'.vme.vmeEnable = true ∧
    s'.log = s.log ∧ s'.vme.used = s.vme.used ∧ s'.vme.spaces = s.vme.spaces := by
  cases moved_step hs with
  | switch hh hm =>
    obtain ⟨m, ha, rfl⟩ := amSwitch_ok hi hen hh hm
    refine ⟨ha.heads, ?_, ha.enable.trans hen, rfl, ha.used, ha.spaces⟩
    rw [← ha.vmHead]

theorem mapCalls_old {m : Vmap} (hm : m.va ∉ ns.map Prod.fst) : NjuOs.mapCalls cpu h (m :: ms) ns =
    .map cpu h m.va m.pa m.prot none :: NjuOs.mapCalls cpu h ms ns := by
  cases ns with
  | nil => rfl
  | cons n ns =>
    refine if_neg fun he => hm ?_
    rw [← he]
    exact mem_cons_self

theorem mapCalls_new {m : Vmap} {q : Nat} : NjuOs.mapCalls cpu h (m :: ms) ((m.va, q) :: ns) =
    .map cpu h m.va m.pa m.prot (some q) :: NjuOs.mapCalls cpu h ms ns := if_pos rfl

theorem SysInv.mapCalls {keys : List Nat} (hn : Noded keys ms ns) : ∀ {s s' : Sys}, SysInv s →
    (s.vme.spaces h).hash.map Prod.fst = keys → run Sys.step s (NjuOs.mapCalls cpu h ms ns) = some s' →
    SysInv s' ∧ Grew h ms ns s s' := by
  induction hn with
  | nil =>
    intro s s' hi _ hs
    cases hs
    exact ⟨hi, Grew.refl h s⟩
  | @old keys m ms ns hold hr ih =>
    intro s s' hi hkeys hs
    rw [mapCalls_old (hr.fresh m.va hold)] at hs
    obtain ⟨t, ht, hs⟩ := run_cons_some hs
    rcases hi.map_grew ht with ⟨-, hg⟩ | ⟨hnew, -⟩
    · obtain ⟨hi', hg'⟩ := ih (hi.step ht) (by rw [hg.hash]; exact hkeys) hs
      exact ⟨hi', hg.trans hg'⟩
    · exact absurd (hkeys ▸ hold) hnew
  | @new keys m ms ns q hnew hr ih =>
    intro s s' hi hkeys hs
    rw [mapCalls_new] at hs
    obtain ⟨t, ht, hs⟩ := run_cons_some hs
    rcases hi.map_grew ht with ⟨hold, -⟩ | ⟨-, _, ⟨⟩, hg⟩
    · exact absurd (hkeys ▸ hold) hnew
    · obtain ⟨hi', hg'⟩ := ih (hi.step ht) (by rw [hg.hash, ← hkeys]; rfl) hs
      exact ⟨hi', hg.trans hg'⟩

structure Began (h : Nat) (x : Task) (s s' : Sys) : Prop where
  fresh : h ∉ s.vme.heads
  heads : s'.vme.heads = h :: s.vme.heads
  vmHead : s'.vme.vmHead = s.vme.vmHead
  enable : s'.vme.vmeEnable = s.vme.vmeEnable
  log : s'.log = update s.log h x.maps
  hash : (s'.vme.spaces h).hash = x.addrSpace.nodes
  other : ∀ h', h' ≠ h → s'.vme.spaces h' = s.vme.spaces h'
  used : s'.vme.used = x.addrSpace.pages ++ s.vme.used

theorem SysInv.spaceCalls {x : Task} (hi : SysInv s) (hx : x.addrSpace.ptr = some h)
    (hn : Noded [] x.maps x.addrSpace.nodes.reverse) (hs : run Sys.step s (NjuOs.spaceCalls cpu x) = some s') :
    SysInv s' ∧ Began h x s s' := by
  unfold NjuOs.spaceCalls at hs
  rw [hx] at hs
  obtain ⟨t, ht, hs⟩ := run_cons_some hs
  obtain ⟨hnew, h1, h2, h3, h4, h5, h6⟩ := protect_step ht
  have hempty : (t.vme.spaces h).hash = [] := by rw [h6, update_self]
  obtain ⟨hi', hg⟩ := SysInv.mapCalls hn (hi.step ht) (by rw [hempty]; rfl) hs
  refine ⟨hi', hnew, hg.heads.trans h1, hg.vmHead.trans h2, hg.enable.trans h3, ?_, ?_, fun h' hne => ?_, ?_⟩
  · rw [hg.log, h4, hi.unlogged h hnew, nil_append]
  · rw [hg.hash, hempty, reverse_reverse, append_nil]
  · rw [hg.other h' hne, h6, update_of_ne hne]
  · rw [hg.used, h5, map_reverse, reverse_reverse]
    rfl

end Native

/-! ## The invariant -/

def Kernel.spaceOf (k : Kernel) : Option TaskRef → Option Nat
  | some (.proc a) => (k.tasks (.proc a)).addrSpace.ptr
  | _ => none

section
variable {k k' : Kernel} {o : Option TaskRef} {a : Nat}

theorem spaceOf_some (h : k.spaceOf o = some a) :
    ∃ n, o = some (.proc n) ∧ (k.tasks (.proc n)).addrSpace.ptr = some a := by
  cases o with
  | none => cases h
  | some t =>
    cases t with
    | proc n => exact ⟨n, rfl, h⟩
    | _ => cases h

theorem spaceOf_congr (h : ∀ n, o = some (.proc n) →
    (k'.tasks (.proc n)).addrSpace.ptr = (k.tasks (.proc n)).addrSpace.ptr) : k'.spaceOf o = k.spaceOf o := by
  cases o with
  | none => rfl
  | some t =>
    cases t with
    | proc n => exact h n rfl
    | _ => rfl

end

structure Spaces (k : Kernel) (vm : Native.Sys) : Prop where
  kernel : KernelInv k
  vme : Native.SysInv vm
  enabled : vm.vme.vmeEnable = true
  blocks : bag (ownedBy k) k.ptable + pagesAt (vm.vme.heads ++ vm.vme.used) ≤ (k.heap.live : Multiset (Nat × Nat))
  space : ∀ t ∈ k.ptable, ∃ h ∈ vm.vme.heads, (k.tasks t).addrSpace.ptr = some h ∧ vm.log h = (k.tasks t).maps
  nodes : ∀ t ∈ k.ptable, ∀ h, (k.tasks t).addrSpace.ptr = some h →
    (vm.vme.spaces h).hash = (k.tasks t).addrSpace.nodes
  apart : ∀ t ∈ k.ptable, ∀ u ∈ k.ptable, (k.tasks t).addrSpace.ptr = (k.tasks u).addrSpace.ptr → t = u

structure InSpaces (s : OsSys) (vm : Native.Sys) : Prop where
  saved : ∀ t ∈ s.k.ptable, (∀ c, s.k.current c ≠ some t) → (s.k.tasks t).context.vmHead = (s.k.tasks t).addrSpace.ptr
  idle : ∀ c, s.k.current c ≠ some (.idle c) → (s.k.tasks (.idle c)).context.vmHead = none
  running : ∀ c, s.resched c = false →
    (s.uctx c).vmHead = vm.vme.vmHead c ∧ vm.vme.vmHead c = s.k.spaceOf (s.k.current c)
  trapped : ∀ c, s.resched c = true → ∃ t ∈ s.k.ptable, s.k.current c = some t ∧
    (s.uctx c).vmHead = (s.k.tasks t).addrSpace.ptr ∧
    (vm.vme.vmHead c = (s.k.tasks t).addrSpace.ptr ∨ ∀ u ∈ s.k.ptable, vm.vme.vmHead c ≠ (s.k.tasks u).addrSpace.ptr)

structure VmInv (s : VmSys) : Prop extends Spaces s.os.k s.vm, InSpaces s.os s.vm

/-! ## Steps that leave the spaces alone -/

def Task.vm (x : Task) : AddrSpace × List Vmap × Context := (x.addrSpace, x.maps, x.context)

structure VmKept (k k' : Kernel) : Prop where
  current : k'.current = k.current
  task : ∀ t ∈ k'.ptable, t ∈ k.ptable ∧ (k'.tasks t).vm = (k.tasks t).vm
  idle : ∀ c, (k'.tasks (.idle c)).vm = (k.tasks (.idle c)).vm
  stay : ∀ t ∈ k.ptable, ∀ c, k.current c = some t → t ∈ k'.ptable
  held : ∀ H, bag (ownedBy k) k.ptable + H ≤ (k.heap.live : Multiset (Nat × Nat)) →
    bag (ownedBy k') k'.ptable + H ≤ (k'.heap.live : Multiset (Nat × Nat))

section
variable {A : Allocator} {k k' : Kernel} {p : TaskRef}

theorem VmKept.frame (hf : Frame k k') (hh : k'.heap = k.heap) (hvm : ∀ t, (k'.tasks t).vm = (k.tasks t).vm)
    (ho : ∀ t, owned (k'.tasks t) = owned (k.tasks t)) : VmKept k k' where
  current := hf.current
  task := fun t ht => ⟨hf.ptable ▸ ht, hvm t⟩
  idle := fun c => hvm _
  stay := fun t ht _ _ => hf.ptable.symm ▸ ht
  held := fun H hH => by
    rw [hf.ptable, hh, bag_congr (ownedBy k') fun t _ => ownedBy_owned (ho t)]
    exact hH

theorem VmKept.refl (k : Kernel) : VmKept k k := VmKept.frame (Frame.refl k) rfl (fun _ => rfl) fun _ => rfl

theorem VmKept.modify {f : Task → Task} (hvm : ∀ x, (f x).vm = x.vm) (ho : ∀ x, owned (f x) = owned x) :
    VmKept k (k.modify p f) :=
  VmKept.frame (Frame.modify k p f) rfl (modify_field Task.vm (hvm _)) (modify_field owned (ho _))

theorem Died.vmKept {status : Int} (hd : Died k p status k') : VmKept k k' :=
  VmKept.frame hd.toFrame hd.heap (hd.field Task.vm fun _ => rfl) (hd.field owned fun _ => rfl)

theorem Reaped.vmKept {c : TaskRef} (hk : KernelInv k) (hr : Reaped k p c k') : VmKept k k' where
  current := hr.current
  task := fun t ht => by
    obtain ⟨ht, hne⟩ := (hr.mem_iff hk).mp ht
    exact ⟨ht, hr.field hne Task.vm fun _ _ => rfl⟩
  idle := fun d => by
    obtain ⟨a, rfl⟩ := hk.procs c hr.mem
    exact hr.field (by simp) Task.vm fun _ _ => rfl
  stay := fun t ht d hd => by
    refine (hr.mem_iff hk).mpr ⟨ht, ?_⟩
    rintro rfl
    have hon := (CpuRel.onCpu hk.cpu t ((hk.live t).mpr (Or.inr ht))).mpr ⟨d, Or.inl hd⟩
    rw [hr.child.2.2] at hon
    cases hon
  held := fun H hH => by
    have hnd := hk.nodup
    have hperm : bag (ownedBy k) k.ptable = ownedBy k c + bag (ownedBy k) k'.ptable := by
      rw [← bag_cons]
      exact ((hr.table.map _).sum_eq).symm
    have hsame : bag (ownedBy k') k'.ptable = bag (ownedBy k) k'.ptable := by
      refine bag_congr (ownedBy k') fun t ht => ownedBy_owned ?_
      exact hr.field ((hr.mem_iff hk).mp ht).2 owned fun _ _ => rfl
    rw [hperm, hr.heap, add_assoc] at hH
    rw [hsame]
    exact Multiset.le_of_add_le_add_left hH

inductive VmCall (A : Allocator) (k : Kernel) (p : TaskRef) (f : Context) (k' : Kernel) :
    Syscall → Context → Bool → Prop
  | kept {call : Syscall} {f' : Context} {b : Bool} (h : VmKept k k') (hf : f'.vmHead = f.vmHead)
    (hcall : ∀ {user cpu ctx now}, vmCalls k k' user (.syscall cpu ctx now call) = []) :
    VmCall A k p f k' call f' b
  | mmap {addr prot flags : Nat} {length : Int} {r : Option Nat} {f' : Context}
    (h : sysMmap A k p addr length prot flags = .ok (k', r)) (hf : f'.vmHead = f.vmHead) :
    VmCall A k p f k' (.mmap addr length prot flags) f' false
  | exec {va : Nat} {path : CStr} (h : sysExec A k p va path = .ok (k', true)) :
    VmCall A k p f k' (.exec va path) (k'.tasks p).context true
  | fork {pid : Int} {f' : Context} (h : sysFork A k p f = .ok (k', pid)) (hf : f'.vmHead = f.vmHead) :
    VmCall A k p f k' .fork f' false

theorem rewindSyscall_vmHead (f : Context) (b : Blocking) : (rewindSyscall f b).vmHead = f.vmHead := by
  rw [rewindSyscall]

theorem doSyscall_vm (hk : KernelInv k) {f f' : Context} {now : Nat} {call : Syscall} {b : Bool}
    (h : doSyscall A k p f now call = .ok (k', f', b)) : VmCall A k p f k' call f' b := by
  cases call with
  | kputc ch =>
    cases h
    exact .kept (VmKept.frame (kputc_memStep p k _).toFrame rfl (fun _ => rfl) fun _ => rfl) rfl rfl
  | getpid | uptime | unknown =>
    cases h
    exact .kept (VmKept.refl k) rfl rfl
  | mmap addr length prot flags =>
    obtain ⟨⟨k1, r⟩, h1, h⟩ := bind_ok h
    cases h
    exact .mmap h1 rfl
  | vfs vc =>
    obtain ⟨⟨v, fs, r⟩, -, h⟩ := bind_ok h
    cases h
    refine .kept (VmKept.frame (memStep_setFiles p k (v, fs)).toFrame rfl ?_ ?_) rfl rfl
    · exact modify_field (f := fun x => { x with files := fs }) Task.vm rfl
    · exact modify_field (f := fun x => { x with files := fs }) owned rfl
  | exec va path =>
    obtain ⟨⟨k1, done⟩, h1, h⟩ := bind_ok h
    cases done with
    | true =>
      cases h
      exact .exec h1
    | false =>
      cases h
      rw [sysExec_false h1]
      refine .kept (VmKept.refl k) rfl ?_
      intros
      rw [vmCalls]
      split
      · rfl
      · exact if_pos rfl
  | fork =>
    obtain ⟨⟨k1, pid⟩, h1, h⟩ := bind_ok h
    cases h
    exact .fork h1 rfl
  | kill pid =>
    obtain ⟨⟨k1, r⟩, h1, h⟩ := bind_ok h
    cases h
    rcases sysKill_ok h1 with ⟨rfl, -⟩ | ⟨target, -, -, -, hd⟩
    · exact .kept (VmKept.refl k') rfl rfl
    · exact .kept hd.vmKept rfl rfl
  | exit status =>
    obtain ⟨k1, h1, h⟩ := bind_ok h
    cases h
    exact .kept (sysExit_ok h1).2.vmKept rfl rfl
  | sleep n =>
    simp only [doSyscall, sysSleep, Except.ok.injEq] at h
    split at h
    · simp only [Prod.mk.injEq] at h
      obtain ⟨rfl, rfl, rfl⟩ := h
      exact .kept (VmKept.modify (fun _ => rfl) fun _ => rfl) (rewindSyscall_vmHead ..) rfl
    · split at h
      · cases h
        exact .kept (VmKept.modify (fun _ => rfl) fun _ => rfl) rfl rfl
      · simp only [Prod.mk.injEq] at h
        obtain ⟨rfl, rfl, rfl⟩ := h
        exact .kept (VmKept.modify (fun _ => rfl) fun _ => rfl) (rewindSyscall_vmHead ..) rfl
  | wait va =>
    obtain ⟨⟨k1, r, pid, st⟩, h1, h⟩ := bind_ok h
    rcases tryReap_ok hk.own hk.procs h1 with ⟨child, rfl, -, -, hr⟩ | ⟨rfl, hnr, -⟩
    · cases h
      exact .kept (hr.vmKept hk) rfl rfl
    · cases r with
      | reaped child => exact absurd rfl (hnr child)
      | block =>
        simp only [pure_eq_ok, Prod.mk.injEq] at h
        obtain ⟨rfl, rfl, rfl⟩ := h
        exact .kept (VmKept.modify (fun _ => rfl) fun _ => rfl) (rewindSyscall_vmHead ..) rfl
      | retry =>
        simp only [pure_eq_ok, Prod.mk.injEq] at h
        obtain ⟨rfl, rfl, rfl⟩ := h
        exact .kept (VmKept.refl k1) (rewindSyscall_vmHead ..) rfl
      | none =>
        cases h
        exact .kept (VmKept.refl _) rfl rfl

end

/-! ## The spaces are kept -/

section
variable {A : Allocator} {k k' : Kernel} {p t : TaskRef} {vm vm' : Native.Sys} {cpu h : Nat}
  {new blocks : List (Nat × Nat)}

theorem bag_grow {D : Multiset (Nat × Nat)} {l : List TaskRef} (hnd : l.Nodup) (hp : p ∈ l)
    (hother : ∀ t, t ≠ p → k'.tasks t = k.tasks t) (hown : ownedBy k' p + D ≤ ownedBy k p + new) :
    bag (ownedBy k') l + D ≤ bag (ownedBy k) l + new := by
  have hrest : bag (ownedBy k') (l.erase p) = bag (ownedBy k) (l.erase p) := by
    apply bag_congr
    intro t ht
    exact ownedBy_congr (hother t (List.Nodup.mem_erase_iff hnd |>.mp ht).1)
  rw [bag_erase _ hp, bag_erase _ hp, hrest]
  calc ownedBy k' p + bag (ownedBy k) (l.erase p) + D
      = ownedBy k' p + D + bag (ownedBy k) (l.erase p) := by abel
    _ ≤ ownedBy k p + new + bag (ownedBy k) (l.erase p) := add_le_add_left hown _
    _ = ownedBy k p + bag (ownedBy k) (l.erase p) + new := by abel

theorem Spaces.kept (h : Spaces k vm) (hk : KernelInv k') (hv : VmKept k k') : Spaces k' vm where
  kernel := hk
  vme := h.vme
  enabled := h.enabled
  blocks := hv.held _ h.blocks
  space := fun t ht => by
    obtain ⟨ht, he⟩ := hv.task t ht
    obtain ⟨a, ha, hp, hl⟩ := h.space t ht
    exact ⟨a, ha, (congrArg (·.1.ptr) he).trans hp, hl.trans (congrArg (fun x => x.2.1) he).symm⟩
  nodes := fun t ht a ha => by
    obtain ⟨ht, he⟩ := hv.task t ht
    rw [h.nodes t ht a ((congrArg (·.1.ptr) he).symm.trans ha)]
    exact (congrArg (·.1.nodes) he).symm
  apart := fun t ht u hu he => by
    obtain ⟨ht, het⟩ := hv.task t ht
    obtain ⟨hu, heu⟩ := hv.task u hu
    refine h.apart t ht u hu ?_
    exact (congrArg (·.1.ptr) het).symm.trans (he.trans (congrArg (·.1.ptr) heu))

/-- AM holds the pages `l` of the blocks `new` that were taken; the processes hold none of them. -/
structure Taken (l : List Nat) (new : List (Nat × Nat)) (k k' : Kernel) : Prop where
  heap : k'.heap.live = new ++ k.heap.live
  bag : bag (ownedBy k') k'.ptable + pagesAt l ≤ bag (ownedBy k) k.ptable + new

theorem Recorded.taken {ms : List Vmap} {ns : List (Nat × Nat)} (hr : Recorded p ms ns new k k')
    (hm : MemStep p blocks k k') (hnd : k.ptable.Nodup) (hp : p ∈ k.ptable) : Taken (ns.map Prod.snd) new k k' := by
  refine ⟨hr.heap, ?_⟩
  rw [hm.ptable]
  exact bag_grow hnd hp hm.other hr.held

theorem Begun.taken (hb : Begun p h (ownedBy k p) new k k') (hm : MemStep p blocks k k') (hnd : k.ptable.Nodup)
    (hp : p ∈ k.ptable) : Taken (h :: (k'.tasks p).addrSpace.pages) new k k' := by
  refine ⟨hb.heap, ?_⟩
  rw [hm.ptable]
  exact bag_grow hnd hp hm.other hb.held

theorem Begun.grown_born {a : Nat} {par : Option TaskRef} {redo : Option Blocking} (hb : Begun (.proc a) h 0 new k k')
    (hborn : Born a par redo blocks k k') (hnew : .proc a ∉ k.ptable) :
    Taken (h :: (k'.tasks (.proc a)).addrSpace.pages) new k k' := by
  have hrest : bag (ownedBy k') k.ptable = bag (ownedBy k) k.ptable := by
    apply bag_congr
    intro t ht
    exact ownedBy_congr (hborn.other t fun he => hnew (he ▸ ht))
  have hheld := hb.held
  rw [zero_add] at hheld
  refine ⟨hb.heap, ?_⟩
  rw [hborn.ptable, bag_append, hrest, add_assoc]
  refine add_le_add_right (le_trans (le_of_eq ?_) hheld) _
  rw [bag_cons, bag_nil, add_zero]

theorem HeapOk.nodup_pages {heap : Heap} {l : List Nat} (hh : HeapOk heap) (hle : pagesAt l ≤ heap.live) : l.Nodup := by
  have hpw := pairwise_of_le (fun h => h.symm) hle hh.apart
  refine (pairwise_map.mp hpw).imp fun hab => ?_
  unfold pgsize at hab
  omega

theorem Spaces.taken {l : List Nat} (hsp : Spaces k vm) (hg : Taken l new k k') :
    bag (ownedBy k') k'.ptable + pagesAt (l ++ (vm.vme.heads ++ vm.vme.used)) ≤
      (k'.heap.live : Multiset (Nat × Nat)) := by
  rw [hg.heap, ← Multiset.coe_add, pagesAt_append]
  calc _ = bag (ownedBy k') k'.ptable + pagesAt l + pagesAt (vm.vme.heads ++ vm.vme.used) := (add_assoc _ _ _).symm
    _ ≤ bag (ownedBy k) k.ptable + new + pagesAt (vm.vme.heads ++ vm.vme.used) := add_le_add_left hg.bag _
    _ = new + (bag (ownedBy k) k.ptable + pagesAt (vm.vme.heads ++ vm.vme.used)) := by abel
    _ ≤ new + k.heap.live := add_le_add_right hsp.blocks _

/-- Pages that AM gets are not among those it has. -/
theorem Spaces.fresh {l : List Nat} (hsp : Spaces k vm) (hk : KernelInv k') (hg : Taken l new k k') :
    (l ++ (vm.vme.heads ++ vm.vme.used)).Nodup :=
  hk.own.heapOk.nodup_pages ((Multiset.le_add_left _ _).trans (hsp.taken hg))

theorem Spaces.head_fresh {l : List Nat} (hsp : Spaces k vm) (hk : KernelInv k') (hg : Taken (h :: l) new k k') :
    h ∉ vm.vme.heads := fun hh =>
  (nodup_cons.mp (hsp.fresh hk hg)).1 (mem_append_right _ (mem_append_left _ hh))

theorem Spaces.mmapped {ms : List Vmap} {ns : List (Nat × Nat)} {a : Nat} (h : Spaces k vm) (hk : KernelInv k')
    (hp : p ∈ k.ptable) (hm : MemStep p blocks k k') (hr : Recorded p ms ns new k k')
    (ha : (k.tasks p).addrSpace.ptr = some a) (hs : run Native.Sys.step vm (mapCalls cpu a ms ns) = some vm') :
    Spaces k' vm' ∧ vm'.vme.vmHead = vm.vme.vmHead := by
  have hkeys : (vm.vme.spaces a).hash.map Prod.fst = (k.tasks p).addrSpace.keys := by
    rw [h.nodes p hp a ha]
    rfl
  obtain ⟨hi, hg⟩ := Native.SysInv.mapCalls hr.noded h.vme hkeys hs
  have hptr := hr.same_ptr hm
  -- the space of another process is another space
  have hne : ∀ t ∈ k.ptable, t ≠ p → ∀ b, (k.tasks t).addrSpace.ptr = some b → b ≠ a := by
    rintro t ht htp b hb rfl
    exact htp (h.apart t ht p hp (hb.trans ha.symm))
  refine ⟨⟨hk, hi, hg.enable.trans h.enabled, ?_, ?_, ?_, ?_⟩, hg.vmHead⟩
  · have hperm : (vm'.vme.heads ++ vm'.vme.used).Perm (ns.map Prod.snd ++ (vm.vme.heads ++ vm.vme.used)) := by
      rw [hg.heads, hg.used, ← append_assoc, ← append_assoc]
      exact ((perm_append_comm.trans ((reverse_perm _).append_right _))).append_right _
    rw [pagesAt_perm hperm]
    exact h.taken (hr.taken hm h.kernel.nodup hp)
  · intro t ht
    rw [hm.ptable] at ht
    obtain ⟨b, hb, hpb, hl⟩ := h.space t ht
    refine ⟨b, hg.heads.symm ▸ hb, (hptr t).trans hpb, ?_⟩
    rw [hg.log]
    by_cases htp : t = p
    · subst htp
      cases ha.symm.trans hpb
      rw [update_self, hl, hr.maps]
    · rw [update_of_ne (hne t ht htp b hpb), hl, hm.other t htp]
  · intro t ht b hb
    rw [hm.ptable] at ht
    rw [hptr] at hb
    by_cases htp : t = p
    · subst htp
      cases ha.symm.trans hb
      rw [hg.hash, h.nodes t ht a ha, hr.nodes]
    · rw [hg.other b (hne t ht htp b hb), h.nodes t ht b hb, hm.other t htp]
  · intro t ht u hu he
    rw [hm.ptable] at ht hu
    rw [hptr, hptr] at he
    exact h.apart t ht u hu he

theorem Spaces.began (hsp : Spaces k vm) (hk : KernelInv k')
    (hother : ∀ t ∈ k'.ptable, t ≠ p → t ∈ k.ptable ∧ k'.tasks t = k.tasks t)
    (hptr : (k'.tasks p).addrSpace.ptr = some h)
    (hn : Noded [] (k'.tasks p).maps (k'.tasks p).addrSpace.nodes.reverse)
    (hgr : Taken (h :: (k'.tasks p).addrSpace.pages) new k k')
    (hs : run Native.Sys.step vm (spaceCalls cpu (k'.tasks p)) = some vm') :
    Spaces k' vm' ∧ vm'.vme.vmHead = vm.vme.vmHead := by
  obtain ⟨hi, hb⟩ := hsp.vme.spaceCalls hptr hn hs
  have hold : ∀ t ∈ k'.ptable, t ≠ p → ∃ a ∈ vm.vme.heads, (k'.tasks t).addrSpace.ptr = some a ∧
      vm'.log a = (k'.tasks t).maps := fun t ht hne => by
    obtain ⟨ht, he⟩ := hother t ht hne
    obtain ⟨a, ha, hpa, hl⟩ := hsp.space t ht
    rw [he]
    refine ⟨a, ha, hpa, ?_⟩
    rw [hb.log, update_of_ne (ne_of_mem_of_not_mem ha hb.fresh), hl]
  have hlone : ∀ t ∈ k'.ptable, t ≠ p → (k'.tasks t).addrSpace.ptr ≠ some h := fun t ht hne he => by
    obtain ⟨a, ha, hpa, -⟩ := hold t ht hne
    cases hpa.symm.trans he
    exact hb.fresh ha
  refine ⟨⟨hk, hi, hb.enable.trans hsp.enabled, ?_, ?_, ?_, ?_⟩, hb.vmHead⟩
  · have hperm : (vm'.vme.heads ++ vm'.vme.used).Perm
        (h :: (k'.tasks p).addrSpace.pages ++ (vm.vme.heads ++ vm.vme.used)) := by
      rw [hb.heads, hb.used, cons_append, cons_append, ← append_assoc, ← append_assoc]
      exact (perm_append_comm.append_right _).cons h
    rw [pagesAt_perm hperm]
    exact hsp.taken hgr
  · intro t ht
    rw [hb.heads]
    by_cases hne : t = p
    · subst hne
      refine ⟨h, mem_cons_self, hptr, ?_⟩
      rw [hb.log, update_self]
    · obtain ⟨a, ha, hrest⟩ := hold t ht hne
      exact ⟨a, mem_cons_of_mem h ha, hrest⟩
  · intro t ht a ha
    by_cases hne : t = p
    · subst hne
      cases ha.symm.trans hptr
      exact hb.hash
    · have hah : a ≠ h := fun he => hlone t ht hne (he ▸ ha)
      obtain ⟨ht, he⟩ := hother t ht hne
      rw [he] at ha ⊢
      rw [hb.other a hah, hsp.nodes t ht a ha]
  · intro t ht u hu he
    by_cases hne : t = p
    · by_contra htu
      rw [hne, hptr] at he
      exact hlone u hu (fun hup => htu (hne.trans hup.symm)) he.symm
    · by_cases hne' : u = p
      · rw [hne', hptr] at he
        exact absurd he (hlone t ht hne)
      · obtain ⟨ht, het⟩ := hother t ht hne
        obtain ⟨hu, heu⟩ := hother u hu hne'
        rw [het, heu] at he
        exact hsp.apart t ht u hu he

end

/-! ## The CPUs -/

section
variable {s s' : OsSys} {vm vm' : Native.Sys} {k' : Kernel} {p t : TaskRef} {c : Nat}

theorem KernelInv.current_mem (hk : KernelInv s.k) {a : Nat} (hc : s.k.current c = some (.proc a)) :
    .proc a ∈ s.k.ptable := by
  rcases (hk.live _).mp (CpuRel.live hk.cpu (Or.inl hc)) with ⟨d, hd⟩ | hm
  · cases hd
  · exact hm

inductive CpuMove (s s' : OsSys) (c : Nat) : Prop
  | stays (hf : (s'.uctx c).vmHead = (s.uctx c).vmHead) (hr : s'.resched c = s.resched c)
    (ht : ∀ t ∈ s.k.ptable, s.k.current c = some t →
      t ∈ s'.k.ptable ∧ (s'.k.tasks t).addrSpace.ptr = (s.k.tasks t).addrSpace.ptr)
  | traps {p : TaskRef} (hp : p ∈ s'.k.ptable) (hc : s.k.current c = some p)
    (hf : (s'.uctx c).vmHead = (s'.k.tasks p).addrSpace.ptr)
    (hold : s.k.spaceOf (some p) = (s'.k.tasks p).addrSpace.ptr ∨
      s'.resched c = true ∧ ∀ u ∈ s'.k.ptable, s.k.spaceOf (some p) ≠ (s'.k.tasks u).addrSpace.ptr)
    (hr : s.resched c = false)

theorem InSpaces.move (h : InSpaces s vm) (hk : KernelInv s.k) (hk' : KernelInv s'.k)
    (hvm : vm'.vme.vmHead = vm.vme.vmHead) (hcur : s'.k.current = s.k.current)
    (hidle : ∀ c, (s'.k.tasks (.idle c)).context.vmHead = (s.k.tasks (.idle c)).context.vmHead)
    (htab : ∀ t ∈ s'.k.ptable, (t ∈ s.k.ptable ∧ (s'.k.tasks t).addrSpace.ptr = (s.k.tasks t).addrSpace.ptr) ∨
      ∀ c, vm.vme.vmHead c ≠ (s'.k.tasks t).addrSpace.ptr)
    (hsaved : ∀ t ∈ s'.k.ptable, (∀ c, s.k.current c ≠ some t) →
      (s'.k.tasks t).context.vmHead = (s'.k.tasks t).addrSpace.ptr)
    (hcpu : ∀ c, CpuMove s s' c) : InSpaces s' vm' := by
  constructor
  · rw [hcur]
    exact hsaved
  · intro c hc
    rw [hcur] at hc
    rw [hidle]
    exact h.idle c hc
  · intro c hr
    rw [hvm, hcur]
    cases hcpu c with
    | stays hf hr' ht =>
      obtain ⟨h1, h2⟩ := h.running c (hr'.symm.trans hr)
      exact ⟨hf.trans h1, h2.trans (spaceOf_congr fun n hc => (ht _ (hk.current_mem hc) hc).2).symm⟩
    | traps hp hc hf hold hr' =>
      rcases hold with hold | ⟨hb, -⟩
      · obtain ⟨-, h2⟩ := h.running c hr'
        obtain ⟨a, rfl⟩ := hk'.procs _ hp
        rw [hc] at h2 ⊢
        exact ⟨hf.trans (hold.symm.trans h2.symm), h2.trans hold⟩
      · cases hr.symm.trans hb
  · intro c hr
    rw [hvm, hcur]
    cases hcpu c with
    | stays hf hr' ht =>
      obtain ⟨t, htm, hc, hu, hor⟩ := h.trapped c (hr'.symm.trans hr)
      obtain ⟨htm', hptr⟩ := ht t htm hc
      refine ⟨t, htm', hc, hf.trans (hu.trans hptr.symm), ?_⟩
      rcases hor with hor | hor
      · exact Or.inl (hor.trans hptr.symm)
      · refine Or.inr fun u hu => ?_
        rcases htab u hu with ⟨hum, he⟩ | hne
        · rw [he]
          exact hor u hum
        · exact hne c
    | @traps p hp hc hf hold hr' =>
      obtain ⟨-, h2⟩ := h.running c hr'
      rw [hc] at h2
      refine ⟨p, hp, hc, hf, ?_⟩
      rcases hold with hold | ⟨-, hne⟩
      · exact Or.inl (h2.trans hold)
      · exact Or.inr fun u hu => h2 ▸ hne u hu

theorem InSpaces.congr (h : InSpaces s vm) (hvm : vm'.vme.vmHead = vm.vme.vmHead) : InSpaces s vm' := by
  refine ⟨h.saved, h.idle, ?_, ?_⟩
  · rw [hvm]
    exact h.running
  · rw [hvm]
    exact h.trapped

theorem Spaces.switched {k : Kernel} {head : Option Nat} (h : Spaces k vm)
    (hs : vm.step (.switch c head) = some vm') :
    Spaces k vm' ∧ vm'.vme.vmHead = update vm.vme.vmHead c head := by
  obtain ⟨h1, h2, h3, h4, h5, h6⟩ := h.vme.switch_frame h.enabled hs
  refine ⟨⟨h.kernel, h.vme.step hs, h3, ?_, ?_, ?_, h.apart⟩, h2⟩
  · rw [h1, h5]
    exact h.blocks
  · rw [h1, h4]
    exact h.space
  · rw [h6]
    exact h.nodes

/-! ## System calls -/

theorem InSpaces.callFrame {ctx f : Context} {call : Syscall} (h : InSpaces s vm) (hr : s.resched c = false)
    (hctx : ctx.vmHead = vm.vme.vmHead c) (hf : s.callFrame c ctx call = some f) : f.vmHead = vm.vme.vmHead c := by
  unfold OsSys.callFrame at hf
  split at hf
  · cases hf
    exact hctx
  · split at hf
    · cases hf
      exact (h.running c hr).1
    · cases hf

theorem cpuMove_trapped {f : Context} {b : Bool} (hu : s.user c = some p) (hp : p ∈ s'.k.ptable)
    (huctx : s'.uctx = update s.uctx c f) (hres : s'.resched = update s.resched c b)
    (hother : ∀ d, d ≠ c → ∀ t ∈ s.k.ptable, s.k.current d = some t →
      t ∈ s'.k.ptable ∧ (s'.k.tasks t).addrSpace.ptr = (s.k.tasks t).addrSpace.ptr)
    (hf : f.vmHead = (s'.k.tasks p).addrSpace.ptr)
    (hold : s.k.spaceOf (some p) = (s'.k.tasks p).addrSpace.ptr ∨
      b = true ∧ ∀ u ∈ s'.k.ptable, s.k.spaceOf (some p) ≠ (s'.k.tasks u).addrSpace.ptr) (d : Nat) :
    CpuMove s s' d := by
  by_cases hd : d = c
  · subst hd
    obtain ⟨hc, hr, -⟩ := user_some hu
    refine .traps hp hc ?_ ?_ hr
    · rw [huctx, update_self]
      exact hf
    · rw [hres, update_self]
      exact hold
  · refine .stays ?_ ?_ (hother d hd)
    · rw [huctx, update_of_ne hd]
    · rw [hres, update_of_ne hd]

theorem VmKept.ptr (hv : VmKept s.k k') (ht : t ∈ k'.ptable) :
    (k'.tasks t).addrSpace.ptr = (s.k.tasks t).addrSpace.ptr := congrArg (·.1.ptr) (hv.task t ht).2

theorem InSpaces.kept (hin : InSpaces s vm) (hk : KernelInv s.k) (hk' : KernelInv s'.k) (hv : VmKept s.k s'.k)
    (hcpu : ∀ c, CpuMove s s' c) : InSpaces s' vm := by
  refine hin.move hk hk' rfl hv.current ?_ ?_ ?_ hcpu
  · intro d
    exact congrArg (fun x => x.2.2.vmHead) (hv.idle d)
  · intro t ht
    exact Or.inl ⟨(hv.task t ht).1, hv.ptr ht⟩
  · intro t ht hno
    rw [hv.ptr ht, ← hin.saved t (hv.task t ht).1 hno]
    exact congrArg (fun x => x.2.2.vmHead) (hv.task t ht).2

theorem cpuMove_kept {f : Context} {b : Bool} {a : Nat} (hv : VmKept s.k s'.k) (hmem : .proc a ∈ s.k.ptable)
    (hu : s.user c = some (.proc a)) (huctx : s'.uctx = update s.uctx c f)
    (hres : s'.resched = update s.resched c b) (hf : f.vmHead = (s.k.tasks (.proc a)).addrSpace.ptr) :
    ∀ d, CpuMove s s' d := by
  have hstay := hv.stay _ hmem c (user_some hu).1
  refine cpuMove_trapped hu hstay huctx hres ?_ (hf.trans (hv.ptr hstay).symm) (Or.inl (hv.ptr hstay).symm)
  intro d _ t ht hcur
  have ht' := hv.stay t ht d hcur
  exact ⟨ht', hv.ptr ht'⟩

theorem VmInv.began {h cpu : Nat} {new : List (Nat × Nat)} (hsp : Spaces s.k vm) (hin : InSpaces s vm)
    (hk' : KernelInv s'.k) (hcur : s'.k.current = s.k.current) (hidle : ∀ d, s'.k.tasks (.idle d) = s.k.tasks (.idle d))
    (hother : ∀ t ∈ s'.k.ptable, t ≠ p → t ∈ s.k.ptable ∧ s'.k.tasks t = s.k.tasks t)
    (hptr : (s'.k.tasks p).addrSpace.ptr = some h)
    (hn : Noded [] (s'.k.tasks p).maps (s'.k.tasks p).addrSpace.nodes.reverse)
    (hgr : Taken (h :: (s'.k.tasks p).addrSpace.pages) new s.k s'.k)
    (hsaved : (∀ c, s.k.current c ≠ some p) → (s'.k.tasks p).context.vmHead = some h) (hcpu : ∀ c, CpuMove s s' c)
    (hs : run Native.Sys.step vm (spaceCalls cpu (s'.k.tasks p)) = some vm') : VmInv ⟨s', vm'⟩ := by
  have hfresh := hsp.head_fresh hk' hgr
  obtain ⟨hsp', hvm⟩ := hsp.began hk' hother hptr hn hgr hs
  refine ⟨hsp', hin.move hsp.kernel hk' hvm hcur (fun d => by rw [hidle]) (fun t ht => ?_) (fun t ht hno => ?_) hcpu⟩
  · by_cases hne : t = p
    · subst hne
      refine Or.inr fun d hd => hfresh (hsp.vme.active d h ?_)
      rw [hd, hptr]
    · obtain ⟨ht, he⟩ := hother t ht hne
      exact Or.inl ⟨ht, by rw [he]⟩
  · by_cases hne : t = p
    · subst hne
      rw [hsaved hno, hptr]
    · obtain ⟨ht, he⟩ := hother t ht hne
      rw [he]
      exact hin.saved t ht hno

section
variable {a h : Nat} {par : Option TaskRef} {redo : Option Blocking} {new blocks : List (Nat × Nat)}

theorem Born.kept (hborn : Born a par redo blocks s.k s'.k) (hk : KernelInv s.k) (ht : t ∈ s.k.ptable) :
    t ∈ s'.k.ptable ∧ (s'.k.tasks t).addrSpace.ptr = (s.k.tasks t).addrSpace.ptr := by
  have hnew := (hk.toKernelBase.born hborn).1
  rw [hborn.other t fun he => hnew (he ▸ ht), hborn.ptable]
  exact ⟨mem_append_left _ ht, rfl⟩

theorem VmInv.born {cpu : Nat} (hsp : Spaces s.k vm) (hin : InSpaces s vm) (hk' : KernelInv s'.k)
    (hborn : Born a par redo blocks s.k s'.k) (hb : Begun (.proc a) h 0 new s.k s'.k)
    (hctx : (s'.k.tasks (.proc a)).context.vmHead = some h) (hcpu : ∀ c, CpuMove s s' c)
    (hs : run Native.Sys.step vm (spaceCalls cpu (s'.k.tasks (.proc a))) = some vm') : VmInv ⟨s', vm'⟩ := by
  have hnew := (hsp.kernel.toKernelBase.born hborn).1
  refine VmInv.began hsp hin hk' hborn.current (fun d => hborn.other _ (by simp)) (fun t ht hne => ?_) hb.ptr
    hb.noded (hb.grown_born hborn hnew) (fun _ => hctx) hcpu hs
  rw [hborn.ptable] at ht
  have ht := (mem_append.mp ht).resolve_right fun ht => hne (mem_singleton.mp ht)
  exact ⟨ht, hborn.other t fun he => hnew (he ▸ ht)⟩

end

section
variable {k : Kernel} {user : Nat → Option TaskRef} {ctx : Context} {now : Nat}

theorem since_append {x y : AddrSpace} {ns : List (Nat × Nat)} (h : y.nodes = ns.reverse ++ x.nodes) :
    x.since y = ns := by
  have hlen : y.nodes.length - x.nodes.length = ns.reverse.length := by
    rw [h, length_append]
    omega
  rw [AddrSpace.since, hlen, h, take_left, reverse_reverse]

theorem vmCalls_mmap {addr prot flags h : Nat} {length : Int} {new : List Vmap} {ns blocks : List (Nat × Nat)}
    (hu : user c = some p) (hr : Recorded p new ns blocks k k') (hh : (k.tasks p).addrSpace.ptr = some h) :
    vmCalls k k' user (.syscall c ctx now (.mmap addr length prot flags)) = mapCalls c h new ns := by
  rw [vmCalls, hu]
  simp only [hr.ptr, hh, hr.maps, drop_left, since_append hr.nodes]

theorem vmCalls_exec {va : Nat} {path : CStr} (hu : user c = some p)
    (hne : (k'.tasks p).addrSpace.ptr ≠ (k.tasks p).addrSpace.ptr) :
    vmCalls k k' user (.syscall c ctx now (.exec va path)) = spaceCalls c (k'.tasks p) := by
  rw [vmCalls, hu]
  exact if_neg hne

theorem vmCalls_fork (htab : k'.ptable = k.ptable ++ [t]) :
    vmCalls k k' user (.syscall c ctx now .fork) = spaceCalls c (k'.tasks t) := by
  rw [vmCalls, htab, getLast?_concat]

theorem vmCalls_spawn {bin : List UInt8} {len : Nat} (htab : k'.ptable = k.ptable ++ [t]) :
    vmCalls k k' user (.spawn bin len) = spaceCalls 0 (k'.tasks t) := by
  rw [vmCalls, htab, getLast?_concat]

end

/-- The kernel's part of a system call, and the calls of `protect` and `map` in it. -/
theorem VmInv.syscall {A : Allocator} {os : OsSys} {f f' : Context} {b : Bool} {now : Nat} {call : Syscall}
    {ctx : Context} (hsp : Spaces s.k vm) (hin : InSpaces s vm) (hk' : KernelInv k')
    (hu : s.user c = some p) (hf : f.vmHead = vm.vme.vmHead c)
    (hd : doSyscall A s.k p f now call = .ok (k', f', b)) (hos : os.k = k')
    (huctx : os.uctx = update s.uctx c f') (hres : os.resched = update s.resched c b)
    (hs : run Native.Sys.step vm (vmCalls s.k k' s.user (.syscall c ctx now call)) = some vm') :
    VmInv ⟨os, vm'⟩ := by
  subst hos
  obtain ⟨hc, hr, -⟩ := user_some hu
  have hp := hin.running c hr
  have hmem := hsp.kernel.user_mem hu
  obtain ⟨a, rfl⟩ := hsp.kernel.procs p hmem
  have hptr : f.vmHead = (s.k.tasks (.proc a)).addrSpace.ptr := by
    rw [hf, hp.2, hc]
    rfl
  -- a process on a CPU other than `c` is not `p`
  have hapart : ∀ d, d ≠ c → ∀ t, s.k.current d = some t → t ≠ .proc a := fun d hd t ht he =>
    hd (CpuRel.unique hsp.kernel.cpu (Or.inl (he ▸ ht)) (Or.inl hc))
  cases doSyscall_vm hsp.kernel hd with
  | kept hv hf' hcall =>
    rw [hcall] at hs
    cases hs
    exact ⟨hsp.kept hk' hv, hin.kept hsp.kernel hk' hv (cpuMove_kept hv hmem hu huctx hres (hf'.trans hptr))⟩
  | @mmap addr prot flags length r _ hm hf' =>
    obtain ⟨_, hmem'⟩ := memStep_sysMmap hm
    obtain ⟨new, ns, _, hrec⟩ := sysMmap_recorded hm
    obtain ⟨h, -, hh, -⟩ := hsp.space _ hmem
    have hsame := hrec.same_ptr hmem'
    rw [vmCalls_mmap hu hrec hh] at hs
    obtain ⟨hsp', hvm⟩ := hsp.mmapped hk' hmem hmem' hrec hh hs
    refine ⟨hsp', hin.move hsp.kernel hk' hvm hmem'.current ?_ ?_ ?_ ?_⟩
    · intro d
      rw [hmem'.other _ (by simp)]
    · intro t ht
      exact Or.inl ⟨hmem'.ptable ▸ ht, hsame t⟩
    · intro t ht hno
      rw [hmem'.other t fun he => hno c (he ▸ hc)]
      exact hin.saved t (hmem'.ptable ▸ ht) hno
    · refine cpuMove_trapped hu (hmem'.ptable.symm ▸ hmem) huctx hres ?_ ?_ (Or.inl (hsame _).symm)
      · intro d _ t ht _
        exact ⟨hmem'.ptable.symm ▸ ht, hsame t⟩
      · rw [hf', hptr, hsame]
  | @exec va path he =>
    obtain ⟨⟨_, hmem'⟩, -⟩ := memStep_sysExec he
    obtain ⟨h, new, hb, hctx'⟩ := sysExec_begun he
    obtain ⟨h0, hh0, hptr0, -⟩ := hsp.space _ hmem
    have hother : ∀ t ∈ os.k.ptable, t ≠ .proc a → t ∈ s.k.ptable ∧ os.k.tasks t = s.k.tasks t := fun t ht hne =>
      ⟨hmem'.ptable ▸ ht, hmem'.other t hne⟩
    have hgr := hb.taken hmem' hsp.kernel.nodup hmem
    have hfresh := hsp.head_fresh hk' hgr
    have hnew : ∀ a', a' ∈ vm.vme.heads → some a' ≠ (os.k.tasks (.proc a)).addrSpace.ptr := fun a' ha' he => by
      cases he.trans hb.ptr
      exact hfresh ha'
    rw [vmCalls_exec hu fun he => hnew h0 hh0 (hptr0.symm.trans he.symm)] at hs
    refine VmInv.began hsp hin hk' hmem'.current (fun d => hmem'.other _ (by simp)) hother hb.ptr hb.noded hgr
      (fun hno => absurd hc (hno c)) ?_ hs
    refine cpuMove_trapped hu (hmem'.ptable.symm ▸ hmem) huctx hres ?_ ?_ (Or.inr ⟨rfl, ?_⟩)
    · intro d hd t ht hcur
      rw [hmem'.other t (hapart d hd t hcur)]
      exact ⟨hmem'.ptable.symm ▸ ht, rfl⟩
    · rw [hctx', hb.ptr]
    · -- the old space is nobody's any more
      intro u hu he
      have he : (s.k.tasks (.proc a)).addrSpace.ptr = (os.k.tasks u).addrSpace.ptr := he
      by_cases hne : u = .proc a
      · subst hne
        exact hnew h0 hh0 (hptr0.symm.trans he)
      · obtain ⟨hu, heu⟩ := hother u hu hne
        rw [heu] at he
        exact hne (hsp.apart _ hmem u hu he).symm
  | @fork pid _ hfork hf' =>
    obtain ⟨t, h, new, hb, hctx', htab⟩ := sysFork_begun hfork
    obtain ⟨-, a', _, hborn⟩ := sysFork_ok hfork
    cases append_cancel_left (htab.symm.trans hborn.ptable)
    rw [vmCalls_fork hborn.ptable] at hs
    obtain ⟨hmem', hsame⟩ := hborn.kept hsp.kernel hmem
    refine VmInv.born hsp hin hk' hborn hb hctx' ?_ hs
    refine cpuMove_trapped hu hmem' huctx hres (fun d _ t ht _ => hborn.kept hsp.kernel ht) ?_ (Or.inl hsame.symm)
    rw [hf', hptr, hsame]

/-! ## Switches -/

section
variable {ctx rc : Context} {next : TaskRef} {m : Kmt}

theorem Switched.ptr {k : Kernel} {f : Context} (hsw : Switched k.toKmt c f next m rc) (t : TaskRef) :
    (m.tasks t).addrSpace.ptr = (k.tasks t).addrSpace.ptr :=
  hsw.field (fun x => x.addrSpace.ptr) (fun _ _ _ => rfl) (fun _ _ _ _ _ => rfl) t

theorem Spaces.scheduled {k : Kernel} {f : Context} (h : Spaces k vm) (hcpu : CpuInv m)
    (hsw : Switched k.toKmt c f next m rc) : Spaces { k with toKmt := m } vm where
  kernel := h.kernel.switched hcpu hsw
  vme := h.vme
  enabled := h.enabled
  blocks := by
    have hsame : ∀ t ∈ k.ptable, ownedBy { k with toKmt := m } t = ownedBy k t := fun t _ =>
      ownedBy_owned (hsw.field owned (fun _ _ _ => rfl) (fun _ _ _ _ _ => rfl) t)
    have hbag : bag (ownedBy { k with toKmt := m }) k.ptable = bag (ownedBy k) k.ptable := bag_congr _ hsame
    show bag (ownedBy { k with toKmt := m }) k.ptable + _ ≤ _
    rw [hbag]
    exact h.blocks
  space := fun t ht => by
    have hmaps : (m.tasks t).maps = (k.tasks t).maps :=
      hsw.field Task.maps (fun _ _ _ => rfl) (fun _ _ _ _ _ => rfl) t
    obtain ⟨a, ha, hp, hl⟩ := h.space t ht
    exact ⟨a, ha, (hsw.ptr t).trans hp, hl.trans hmaps.symm⟩
  nodes := fun t ht a ha => by
    have hspace : (m.tasks t).addrSpace = (k.tasks t).addrSpace :=
      hsw.field Task.addrSpace (fun _ _ _ => rfl) (fun _ _ _ _ _ => rfl) t
    have ha : (m.tasks t).addrSpace.ptr = some a := ha
    show _ = (m.tasks t).addrSpace.nodes
    rw [hspace] at ha ⊢
    exact h.nodes t ht a ha
  apart := fun t ht u hu he => h.apart t ht u hu ((hsw.ptr t).symm.trans (he.trans (hsw.ptr u)))

/-- The context that is saved belongs to the space of the task that leaves. -/
theorem InSpaces.frame_vmHead (hin : InSpaces s vm) (hk : KernelInv s.k) (hctx : ctx.vmHead = vm.vme.vmHead c)
    (hc : s.k.current c = some t) : (s.frame c ctx).vmHead = s.k.spaceOf (some t) := by
  cases hr : s.resched c with
  | true =>
    obtain ⟨u, hu, hcu, hf, -⟩ := hin.trapped c hr
    cases hc.symm.trans hcu
    obtain ⟨a, rfl⟩ := hk.procs t hu
    rw [OsSys.frame, if_neg fun h => by cases hr.symm.trans h.1]
    exact hf
  | false =>
    obtain ⟨h1, h2⟩ := hin.running c hr
    rw [← hc, ← h2]
    unfold OsSys.frame
    split
    · exact hctx
    · exact h1

/-- The context that is resumed belongs to the space of the task that comes. -/
theorem InSpaces.resumed (hin : InSpaces s vm) (hk : KernelInv s.k) (hctx : ctx.vmHead = vm.vme.vmHead c)
    (hcpu : CpuInv m) (hsw : Switched s.k.toKmt c (s.frame c ctx) next m rc) :
    rc.vmHead = s.k.spaceOf (some next) := by
  by_cases hne : s.k.current c = some next
  · rw [hsw.resumedIdle hne]
    exact hin.frame_vmHead hk hctx hne
  · rw [hsw.resumed hne]
    rcases hsw.picked with rfl | ⟨-, -, hlist⟩
    · exact hin.idle c hne
    · have hno : ∀ d, s.k.current d ≠ some next := fun d hd => by
        have hdc := hsw.free d (Or.inl hd)
        exact hne (hdc ▸ hd)
      have hlive : s.k.live next = true := by
        rw [← hsw.frame.1]
        exact CpuRel.live hcpu (Or.inl (by rw [hsw.current, update_self]))
      rcases (hk.live next).mp hlive with ⟨d, rfl⟩ | hmem
      · exact absurd hlist (CpuRel.listed hk.cpu d)
      · rw [hin.saved next hmem hno]
        obtain ⟨a, rfl⟩ := hk.procs next hmem
        rfl

theorem Switched.spaceOf {f : Context} (hsw : Switched s.k.toKmt c f next m rc) (o : Option TaskRef) :
    Kernel.spaceOf { s.k with toKmt := m } o = s.k.spaceOf o := spaceOf_congr fun _ _ => hsw.ptr _

theorem InSpaces.scheduled (hin : InSpaces s vm) (hk : KernelInv s.k) (hctx : ctx.vmHead = vm.vme.vmHead c)
    (hcpu : CpuInv m) (hsw : Switched s.k.toKmt c (s.frame c ctx) next m rc)
    (hvm : vm'.vme.vmHead = update vm.vme.vmHead c rc.vmHead) :
    InSpaces (s.trapped c { s.k with toKmt := m } rc false) vm' := by
  have hcur : m.current = update s.k.current c (some next) := hsw.current
  -- the context of a task that is on no CPU: saved now, or as it was
  have hcontext : ∀ t, (s.k.current c ≠ some t → (s.k.tasks t).context.vmHead = s.k.spaceOf (some t)) →
      (m.tasks t).context.vmHead = s.k.spaceOf (some t) := fun t hold => by
    by_cases ht : s.k.current c = some t
    · rw [hsw.saved t ht]
      exact hin.frame_vmHead hk hctx ht
    · rw [hsw.other t ht]
      exact hold ht
  constructor
  · intro t ht hno
    show (m.tasks t).context.vmHead = (m.tasks t).addrSpace.ptr
    have hno : ∀ d, m.current d ≠ some t := hno
    obtain ⟨a, rfl⟩ := hk.procs t ht
    rw [hsw.ptr, hcontext _]
    · rfl
    · intro hne
      refine hin.saved _ ht fun d => ?_
      by_cases hd : d = c
      · rw [hd]
        exact hne
      · have := hno d
        rwa [hcur, update_of_ne hd] at this
  · intro d hd
    show (m.tasks (.idle d)).context.vmHead = none
    have hd : m.current d ≠ some (.idle d) := hd
    rw [hcontext _]
    · rfl
    · intro hne
      refine hin.idle d ?_
      by_cases hdc : d = c
      · subst hdc
        exact hne
      · rwa [hcur, update_of_ne hdc] at hd
  · intro d hr
    show (update s.uctx c rc d).vmHead = _ ∧ _ = Kernel.spaceOf { s.k with toKmt := m } (m.current d)
    rw [hsw.spaceOf, hvm, hcur]
    by_cases hd : d = c
    · subst hd
      simp only [update_self]
      exact ⟨trivial, hin.resumed hk hctx hcpu hsw⟩
    · simp only [update_of_ne hd]
      exact hin.running d (by simpa [OsSys.trapped, update_of_ne hd] using hr)
  · intro d hr
    by_cases hd : d = c
    · subst hd
      simp [OsSys.trapped] at hr
    · obtain ⟨t, ht, hc, hf, hor⟩ := hin.trapped d (by simpa [OsSys.trapped, update_of_ne hd] using hr)
      refine ⟨t, ht, ?_, ?_, ?_⟩
      · show m.current d = some t
        rw [hcur, update_of_ne hd]
        exact hc
      · show (update s.uctx c rc d).vmHead = (m.tasks t).addrSpace.ptr
        rw [hsw.ptr, update_of_ne hd]
        exact hf
      · show vm'.vme.vmHead d = (m.tasks t).addrSpace.ptr ∨ ∀ u ∈ s.k.ptable, _ ≠ (m.tasks u).addrSpace.ptr
        simp only [hvm, update_of_ne hd, hsw.ptr]
        exact hor

end

end

/-! ## Runs -/

section
variable {A : Allocator} {s s' : VmSys} {c : Nat} {head : Option Nat}

def OsAct.cpu : OsAct → Nat
  | .schedule cpu _ => cpu
  | .syscall cpu _ _ _ => cpu
  | .pageFault cpu _ => cpu
  | .tick _ => 0
  | .spawn _ _ => 0

theorem step_syscall {s s' : OsSys} {ctx : Context} {now : Nat} {call : Syscall}
    (hs : s.step A (.syscall c ctx now call) = some s') : ∃ p f f' b, s.user c = some p ∧
      s.callFrame c ctx call = some f ∧ doSyscall A s.k p f now call = .ok (s'.k, f', b) ∧
      s'.uctx = update s.uctx c f' ∧ s'.resched = update s.resched c b := by
  obtain ⟨p, hu, hs⟩ := bind_eq_some_iff.mp hs
  obtain ⟨f, hf, hs⟩ := bind_eq_some_iff.mp hs
  cases hd : doSyscall A s.k p f now call with
  | error e =>
    rw [hd] at hs
    cases hs
  | ok r =>
    rw [hd] at hs
    cases hs
    exact ⟨p, f, _, _, hu, hf, hd, rfl, rfl⟩

theorem step_spawn {s s' : OsSys} {bin : List UInt8} {len : Nat} (hs : s.step A (.spawn bin len) = some s') :
    ∃ t, procSpawn A s.k bin len = .ok (s'.k, t) ∧ s'.uctx = s.uctx ∧ s'.resched = s.resched := by
  simp only [OsSys.step] at hs
  cases hd : procSpawn A s.k bin len with
  | error e =>
    rw [hd] at hs
    cases hs
  | ok r =>
    rw [hd] at hs
    cases hs
    exact ⟨_, rfl, rfl, rfl⟩

/-- The kernel's part of a step and its calls of `protect` and `map`, for all steps but switches. -/
theorem VmInv.called {a : OsAct} {os : OsSys} {vm : Native.Sys} (h : VmInv s)
    (hent : trapEntry s.vm a = true) (hos : s.os.step A a = some os) (ha : ∀ c ctx, a ≠ .schedule c ctx)
    (hvm : run Native.Sys.step s.vm (vmCalls s.os.k os.k s.os.user a) = some vm) : VmInv ⟨os, vm⟩ := by
  have hk' := h.kernel.step hos
  cases a with
  | schedule c ctx => exact absurd rfl (ha c ctx)
  | tick now =>
    cases hos
    cases hvm
    obtain ⟨hf, hh⟩ := uprocTick_frame s.os.k now
    have hv : VmKept s.os.k (uprocTick s.os.k now) := VmKept.frame hf hh
      (uprocTick_field Task.vm (fun _ _ => rfl) now) (uprocTick_field owned (fun _ _ => rfl) now)
    refine ⟨h.toSpaces.kept hk' hv, h.toInSpaces.kept h.kernel hk' hv fun d => .stays rfl rfl fun t ht hc => ?_⟩
    have ht' := hv.stay t ht d hc
    exact ⟨ht', hv.ptr ht'⟩
  | syscall c ctx now call =>
    have hctx : ctx.vmHead = s.vm.vme.vmHead c := of_decide_eq_true hent
    obtain ⟨p, f, f', b, hu, hf, hd, huctx, hres⟩ := step_syscall hos
    have hframe := h.toInSpaces.callFrame (user_some hu).2.1 hctx hf
    exact VmInv.syscall h.toSpaces h.toInSpaces hk' hu hframe hd rfl huctx hres hvm
  | pageFault c ctx =>
    have hctx : ctx.vmHead = s.vm.vme.vmHead c := of_decide_eq_true hent
    cases hvm
    obtain ⟨p, hu, hos⟩ := bind_eq_some_iff.mp hos
    have hmem := h.kernel.user_mem hu
    obtain ⟨a, rfl⟩ := h.kernel.procs p hmem
    obtain ⟨-, hos⟩ := ite_none_left_eq_some.mp hos
    cases hd : sysExit s.os.k (.proc a) (-1) with
    | error e =>
      rw [hd] at hos
      cases hos
    | ok k' =>
      rw [hd] at hos
      cases hos
      have hv := (sysExit_ok hd).2.vmKept
      obtain ⟨hc, hr, -⟩ := user_some hu
      refine ⟨h.toSpaces.kept hk' hv, h.toInSpaces.kept h.kernel hk' hv (cpuMove_kept hv hmem hu rfl rfl ?_)⟩
      show ctx.vmHead = s.os.k.spaceOf (some (.proc a))
      rw [hctx, (h.running c hr).2, hc]
  | spawn bin len =>
    obtain ⟨t, hd, huctx, hres⟩ := step_spawn hos
    obtain ⟨a, _, rfl, hborn⟩ := procSpawn_ok hd
    obtain ⟨_, _, hb, hctx⟩ := procSpawn_begun hd
    rw [vmCalls_spawn hborn.ptable] at hvm
    refine VmInv.born h.toSpaces h.toInSpaces hk' hborn hb hctx (fun d => .stays ?_ ?_ ?_) hvm
    · rw [huctx]
    · rw [hres]
    · exact fun t ht _ => hborn.kept h.kernel ht

theorem VmInv.returned {vm : Native.Sys} (h : VmInv s) (hr : s.os.resched c = false)
    (hs : s.vm.step (.switch c (s.os.uctx c).vmHead) = some vm) : VmInv ⟨s.os, vm⟩ := by
  obtain ⟨hsp, hvm⟩ := h.toSpaces.switched hs
  refine ⟨hsp, h.toInSpaces.congr ?_⟩
  rw [hvm, (h.running c hr).1, update_eq_self]

theorem VmInv.scheduled {ctx rc : Context} {next : TaskRef} {m : Kmt} {vm : Native.Sys} (h : VmInv s)
    (hctx : ctx.vmHead = s.vm.vme.vmHead c) (hcpu : CpuInv m)
    (hsw : Switched s.os.k.toKmt c (s.os.frame c ctx) next m rc)
    (hs : s.vm.step (.switch c rc.vmHead) = some vm) :
    VmInv ⟨s.os.trapped c { s.os.k with toKmt := m } rc false, vm⟩ := by
  obtain ⟨hsp, hv⟩ := (h.toSpaces.scheduled hcpu hsw).switched hs
  exact ⟨hsp, h.toInSpaces.scheduled h.kernel hctx hcpu hsw hv⟩

inductive VmMove (A : Allocator) (s : VmSys) : OsAct → VmSys → Prop
  | sched {c : Nat} {ctx rc : Context} {next : TaskRef} {m : Kmt} {vm : Native.Sys}
    (hctx : ctx.vmHead = s.vm.vme.vmHead c) (hcpu : CpuInv m)
    (hsw : Switched s.os.k.toKmt c (s.os.frame c ctx) next m rc)
    (hs : s.vm.step (.switch c rc.vmHead) = some vm) :
    VmMove A s (.schedule c ctx) ⟨s.os.trapped c { s.os.k with toKmt := m } rc false, vm⟩
  | called {a : OsAct} {os : OsSys} {vm : Native.Sys} (hos : s.os.step A a = some os) (hi : VmInv ⟨os, vm⟩)
    (hvm : run Native.Sys.step s.vm (vmCalls s.os.k os.k s.os.user a) = some vm) :
    VmMove A s a ⟨os, vm⟩
  | returned {a : OsAct} {os : OsSys} {vm vm' : Native.Sys} (hos : s.os.step A a = some os) (hi : VmInv ⟨os, vm⟩)
    (hvm : run Native.Sys.step s.vm (vmCalls s.os.k os.k s.os.user a) = some vm)
    (hr : os.resched a.cpu = false) (hs : vm.step (.switch a.cpu (os.uctx a.cpu).vmHead) = some vm') :
    VmMove A s a ⟨os, vm'⟩

theorem vmMove_step {a : OsAct} (h : VmInv s) (hs : s.step A a = some s') : VmMove A s a s' := by
  obtain ⟨hent, hs⟩ := ite_none_right_eq_some.mp hs
  obtain ⟨os, hos, hs⟩ := bind_eq_some_iff.mp hs
  obtain ⟨vm, hvm, hs⟩ := bind_eq_some_iff.mp hs
  cases hs
  obtain ⟨vm1, h1, h2⟩ := run_append_some hvm
  cases a with
  | schedule c ctx =>
    cases h1
    cases osMove_step h.kernel hos with
    | sched hcpu hsw =>
      obtain ⟨vm2, h2, h3⟩ := run_cons_some h2
      cases h3
      simp only [OsSys.trapped, update_self] at h2
      exact .sched (of_decide_eq_true hent) hcpu hsw h2
  | tick | pageFault | spawn =>
    cases h2
    exact .called hos (h.called hent hos (fun _ _ ha => by cases ha) h1) h1
  | syscall c ctx now call =>
    have hi := h.called hent hos (fun _ _ ha => by cases ha) h1
    rw [trapReturn] at h2
    by_cases hr : os.resched c = true
    · rw [if_pos hr] at h2
      cases h2
      exact .called hos hi h1
    · rw [if_neg hr] at h2
      obtain ⟨vm2, h2, h3⟩ := run_cons_some h2
      cases h3
      exact .returned hos hi h1 (Bool.eq_false_of_not_eq_true hr) h2

theorem VmInv.step {a : OsAct} (h : VmInv s) (hs : s.step A a = some s') : VmInv s' := by
  cases vmMove_step h hs with
  | sched hctx hcpu hsw hst => exact h.scheduled hctx hcpu hsw hst
  | called _ hi _ => exact hi
  | returned _ hi _ hr hst => exact hi.returned hr hst

/-- The first process, in a machine in which `vme_init` has just run. -/
theorem vmInv_boot {v : Vfs} {uprogs : List (List UInt8 × List UInt8)} {k : Kernel}
    (hboot : uprocInit A v uprogs = .ok k) (hs : VmSys.boot k = some s) : VmInv s := by
  have hk := kernelInv_boot hboot
  unfold uprocInit at hboot
  split at hboot
  · cases hboot
  obtain ⟨⟨k1, t⟩, hspawn, hboot⟩ := bind_ok hboot
  cases hboot
  obtain ⟨a, _, rfl, hborn⟩ := procSpawn_ok hspawn
  obtain ⟨h, new, hb, hctx⟩ := procSpawn_begun hspawn
  have htab : k1.ptable = [.proc a] := hborn.ptable
  have hlast : k1.ptable.getLast? = some (.proc a) := by rw [htab, getLast?_singleton]
  simp only [VmSys.boot, hlast] at hs
  obtain ⟨vm, hvm, hs⟩ := bind_eq_some_iff.mp hs
  cases hs
  obtain ⟨vm0, h0, hvm⟩ := run_cons_some hvm
  have hi := Native.sysInv_boot.step h0
  cases h0
  obtain ⟨hi, hbg⟩ := hi.spaceCalls hb.ptr hb.noded hvm
  have hvm : vm.vme.vmHead = fun _ => none := hbg.vmHead
  have hcur : ∀ c, k1.current c = none := fun c => congrFun hborn.current c
  have hheads : vm.vme.heads = [h] := hbg.heads
  have hused : vm.vme.used = (k1.tasks (.proc a)).addrSpace.pages := hbg.used.trans (append_nil _)
  have hsp : Spaces { k1 with initproc := some (.proc a) } vm := by
    refine ⟨hk, hi, hbg.enable, ?_, ?_, ?_, ?_⟩
    · show bag (ownedBy k1) k1.ptable + _ ≤ (k1.heap.live : Multiset (Nat × Nat))
      have hheld := hb.held
      rw [zero_add] at hheld
      rw [htab, hheads, hused, hb.heap, bag_cons, bag_nil, add_zero]
      exact hheld.trans (Multiset.coe_le.mpr (sublist_append_left new _).subperm)
    · intro t ht
      cases mem_singleton.mp (htab ▸ ht : t ∈ [TaskRef.proc a])
      refine ⟨h, by simp [hheads], hb.ptr, ?_⟩
      rw [hbg.log, update_self]
    · intro t ht a' ha'
      cases mem_singleton.mp (htab ▸ ht : t ∈ [TaskRef.proc a])
      cases hb.ptr.symm.trans ha'
      exact hbg.hash
    · intro t ht u hu _
      rw [mem_singleton.mp (htab ▸ ht : t ∈ [TaskRef.proc a]), mem_singleton.mp (htab ▸ hu : u ∈ [TaskRef.proc a])]
  refine ⟨hsp, ?_, ?_, ?_, ?_⟩
  · intro t ht _
    cases mem_singleton.mp (htab ▸ ht : t ∈ [TaskRef.proc a])
    exact hctx.trans hb.ptr.symm
  · intro c _
    show (k1.tasks (.idle c)).context.vmHead = none
    rw [hborn.other _ (by simp)]
    rfl
  · intro c _
    show none = vm.vme.vmHead c ∧ vm.vme.vmHead c = Kernel.spaceOf _ (k1.current c)
    rw [hvm, hcur]
    exact ⟨rfl, rfl⟩
  · intro c hr
    cases hr

end

end NjuOs
