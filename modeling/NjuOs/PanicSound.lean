import NjuOs.Stops

/-!
# Panics of `vfs.c` and `uproc.c`

`dir_add`, `ptable_add` and `up_map` check their tables with `panic_on`. Where a call finds
room for what it adds (`HasRoom`), the only `panic_on` of the two files that it can run into is
one that reports a `NULL` from `pmm->alloc`.
-/

namespace NjuOs

def panicOns : List String :=
  memoryPanics ++ ["vfs: directory full", "too many user mappings", "too many processes",
    "uproc: no embedded 'init' program"]

def DirRoom (v : Vfs) (path : CStr) : Prop := ∀ r ∈ nameiParent v path, (v.inodes r.1).ent.length < maxDirent

instance (v : Vfs) (path : CStr) : Decidable (DirRoom v path) := inferInstanceAs (Decidable (∀ _ ∈ _, _))

def CallRoom (k : Kernel) (p : TaskRef) : Syscall → Prop
  | .fork => k.ptable.length < maxproc
  | .mmap _ length _ flags => 0 < length → flags ≠ mapUnmap →
    (k.tasks p).vas.length + mmapCount length ≤ procMaxmap
  | .exec _ path => ∀ img ∈ execImage k (progName path.str), imagePages img.2 + stkPages ≤ procMaxmap
  | .vfs (.sysOpen _ path flags) => namei k.vfs path = none → flags &&& oCreate ≠ 0 → DirRoom k.vfs path
  | .vfs (.sysMkdir _ path) => namei k.vfs path = none → DirRoom k.vfs path
  | .vfs (.sysLink a b) => (namei k.vfs a).isSome → DirRoom k.vfs b
  | _ => True

instance (k : Kernel) (p : TaskRef) (call : Syscall) : Decidable (CallRoom k p call) := by
  unfold CallRoom
  split <;> infer_instance

def HasRoom (s : OsSys) : OsAct → Prop
  | .syscall c _ _ call => ∀ p ∈ s.user c, CallRoom s.k p call
  | .spawn _ len => s.k.ptable.length < maxproc ∧ imagePages len + stkPages ≤ procMaxmap
  | _ => True

instance (s : OsSys) (a : OsAct) : Decidable (HasRoom s a) := by
  unfold HasRoom
  split <;> infer_instance

def OsAct.gotNull : OsAct → Prop
  | .syscall _ _ _ (.vfs (.sysOpen mem _ _)) => mem = none
  | .syscall _ _ _ (.vfs (.sysMkdir mem _)) => mem = none
  | .syscall _ _ _ (.vfs (.sysWrite mem _ _ _)) => mem = none
  | _ => False

def Refused (A : Allocator) (s : OsSys) (a : OsAct) : Prop := a.gotNull ∨ ¬Served A s.k.heap (s.requests a)

def OnlyMemory (P : Prop) (msg : String) : Prop := msg ∈ panicOns → msg ∈ memoryPanics ∧ P

section
variable {P : Prop} {A : Allocator} {s : OsSys} {a : OsAct}

theorem onlyMemory_memory (h : P) : MemoryChecks (OnlyMemory P) := fun _ hmsg _ => ⟨hmsg, h⟩

theorem onlyMemory_pages {n : Nat} {vas : List Nat} (h : n + vas.length ≤ procMaxmap) :
    PageChecks (OnlyMemory P) A n vas := by
  refine ⟨fun hfull => by omega, fun _ _ _ _ _ => ⟨?_, ?_, ?_⟩⟩
  -- AM's assertions are not in the two files
  all_goals exact fun _ hon => absurd hon (by decide)

theorem DirRoom.checks {v : Vfs} {path : CStr} (h : DirRoom v path) : DirChecks (OnlyMemory P) v path :=
  fun r hr hfull => absurd (h r hr) (by omega)

theorem CallRoom.checks {k : Kernel} {p : TaskRef} {c now : Nat} {ctx : Context} {call : Syscall} (h : CallRoom k p call)
    (hfew : (k.tasks p).vas.length ≤ procMaxmap) (hnull : (OsAct.syscall c ctx now call).gotNull → P) :
    CallChecks (OnlyMemory P) A k p call := by
  cases call with
  | fork =>
    have h : k.ptable.length < maxproc := h
    exact ⟨fun hfull => by omega, onlyMemory_pages (by omega)⟩
  | mmap addr length prot flags =>
    intro hlen hf
    exact onlyMemory_pages (mmapVas_length.symm ▸ h hlen hf)
  | exec va path =>
    intro img himg
    refine onlyMemory_pages ?_
    simpa [imageVas] using h img himg
  | vfs c =>
    have hmem : ∀ {mem : Mem}, (mem = none → P) → mem = none → MemoryChecks (OnlyMemory P) :=
      fun hp he => onlyMemory_memory (hp he)
    cases c with
    | sysOpen mem path flags => exact ⟨fun hno hc => (h hno hc).checks, hmem hnull⟩
    | sysMkdir mem path => exact ⟨fun hno => (h hno).checks, hmem hnull⟩
    | sysWrite mem fd buf n => exact hmem hnull
    | sysLink x y => exact fun hx => (h hx).checks
    | _ => trivial
  | _ => trivial

def FewMaps (k : Kernel) : Prop := ∀ t ∈ k.ptable, (k.tasks t).vas.length ≤ procMaxmap

theorem SpaceKept.few {k k' : Kernel} (h : SpaceKept k k') (hk : FewMaps k) : FewMaps k' := by
  intro t ht
  obtain ⟨ht, he⟩ := h t ht
  have hv : (k'.tasks t).vas = (k.tasks t).vas := congrArg (fun x => x.1.map Vmap.va) he
  rw [hv]
  exact hk t ht

theorem FewMaps.spawn {k k' : Kernel} {bin : List UInt8} {len : Nat} {t : TaskRef} (h : FewMaps k)
    (hk : KernelBase k) (hs : procSpawn A k bin len = .ok (k', t)) : FewMaps k' := by
  obtain ⟨n, new, rfl, hb⟩ := procSpawn_ok hs
  have hnew := (hk.born hb).1
  intro t ht
  rw [hb.ptable] at ht
  rcases List.mem_append.mp ht with ht | ht
  · rw [hb.other t fun he => hnew (he ▸ ht)]
    exact h t ht
  · rw [List.mem_singleton.mp ht]
    exact (spaceInv_spawn hs).room

theorem FewMaps.step (h : FewMaps s.k) (hk : KernelInv s.k) (hs : s.step A a = some s') : FewMaps s'.k := by
  have hself : ∀ {p : TaskRef} {new : List (Nat × Nat)} {k' : Kernel}, MemStep p new s.k k' →
      (k'.tasks p).vas.length ≤ procMaxmap → FewMaps k' := by
    intro p new k' hm hp t ht
    by_cases hne : t = p
    · rw [hne]; exact hp
    · rw [hm.other t hne]
      exact h t (hm.ptable ▸ ht)
  cases spaceMove_step hk hs with
  | kept hkept => exact hkept.few h
  | spawn hsp => exact h.spawn hk.toKernelBase hsp
  | @call _ _ _ _ p k' hu hc =>
    have hp := hk.user_mem hu
    cases hc with
    | kept hkept => exact hkept.few h
    | mmap hm =>
      obtain ⟨_, hmem⟩ := memStep_sysMmap hm
      refine hself hmem ?_
      cases sysMmap_ok hm with
      | fail _ hroom => exact hroom (h p hp)
      | done _ hmap hmaps _ => rw [hmaps]; exact hmap.room (h p hp)
    | exec hx =>
      obtain ⟨⟨_, hmem⟩, -⟩ := memStep_sysExec hx
      exact hself hmem (spaceInv_exec hx).room
    | fork hf =>
      obtain ⟨-, n, new, hb⟩ := sysFork_ok hf
      obtain ⟨n', htab, hspace⟩ := sysFork_space hf
      have hnew := (hk.toKernelBase.born hb).1
      obtain rfl : n = n' := by
        have := List.append_cancel_left (hb.ptable.symm.trans htab)
        simpa using this
      intro t ht
      rw [hb.ptable] at ht
      rcases List.mem_append.mp ht with ht | ht
      · rw [hb.other t fun he => hnew (he ▸ ht)]
        exact h t ht
      · rw [List.mem_singleton.mp ht, (hspace fun he => hnew (he ▸ hp)).1]
        exact h p hp

/-- A step that has room stops at no check of the two files but those for memory. -/
theorem stop_onlyMemory (hk : KernelInv s.k) (hfew : FewMaps s.k) (hroom : HasRoom s a) {msg : String}
    (h : s.stop A a = some (.panic msg)) : OnlyMemory (Refused A s a) msg := by
  refine stops_step hk ?_ (fun hserved => ⟨onlyMemory_memory (Or.inr hserved), fun hon => absurd hon (by decide)⟩) h
  cases a with
  | syscall c ctx now call =>
    intro p hu
    exact (hroom p hu).checks (hfew p (hk.user_mem hu)) Or.inl
  | spawn bin len =>
    refine ⟨fun hfull => absurd hroom.1 (by omega), onlyMemory_pages ?_⟩
    simpa [imageVas] using hroom.2
  | _ => trivial

end

section
variable {A : Allocator} {v : Vfs} {uprogs : List (List UInt8 × List UInt8)} {k : Kernel} {as : List OsAct} {s : OsSys}

theorem fewMaps_boot (h : uprocInit A v uprogs = .ok k) : FewMaps k := by
  unfold uprocInit at h
  split at h
  · cases h
  · obtain ⟨⟨k1, p⟩, h1, h⟩ := bind_ok h
    cases h
    have h0 : FewMaps (Kernel.blank v uprogs) := fun t ht => (List.not_mem_nil ht).elim
    have hsp : FewMaps k1 := h0.spawn (kernelBase_blank v uprogs) h1
    exact hsp

theorem only_memory_panics (hboot : uprocInit A v uprogs = .ok k)
    (hr : run (OsSys.step A) (OsSys.boot k) as = some s) {a : OsAct} (hroom : HasRoom s a) :
    ∀ msg ∈ panicOns, s.stop A a = some (.panic msg) → msg ∈ memoryPanics ∧ Refused A s a := by
  obtain ⟨hk, hfew⟩ := run_inv (I := fun s => KernelInv s.k ∧ FewMaps s.k)
    (fun _ _ _ hi hs => ⟨hi.1.step hs, hi.2.step hi.1 hs⟩) as _ s ⟨kernelInv_boot hboot, fewMaps_boot hboot⟩ hr
  intro msg hm h
  exact stop_onlyMemory hk hfew hroom h hm

end

def mkdirAct (i : Nat) : OsAct :=
  .syscall 0 blankContext 0 (.vfs (.sysMkdir (some fun _ => 0) ⟨bytes "/tmp/" ++ [UInt8.ofNat (97 + i)], []⟩))

def mkdirRun (n : Nat) : List OsAct := .schedule 0 blankContext :: (List.range n).map mkdirAct

theorem not_refused (A : Allocator) (s : OsSys) (i : Nat) : ¬Refused A s (mkdirAct i) := by
  have hnone : s.requests (mkdirAct i) = [] := by
    simp only [OsSys.requests, mkdirAct]
    split
    · rfl
    · rfl
  rintro (h | h)
  · cases h
  · rw [hnone] at h
    exact h rfl

theorem only_memory_panics_mkdir : ∃ s, osRun (mkdirRun 31) = some s ∧
    ∀ msg ∈ panicOns, s.stop bumpAlloc (mkdirAct 31) ≠ some (.panic msg) := by
  have hrun : ((osRun (mkdirRun 31)).any fun s => decide (HasRoom s (mkdirAct 31))) = true := by decide +kernel
  obtain ⟨s, hs, hl⟩ := (Option.any_eq_true _ _).mp hrun
  obtain ⟨v, k, -, hboot, hr⟩ := osRun_some hs
  have hroom := of_decide_eq_true hl
  exact ⟨s, hs, fun msg hm h => not_refused bumpAlloc s 31 (only_memory_panics hboot hr hroom msg hm h).2⟩

/-- The thirty-third directory halts the machine. -/
theorem mkdir_halts : ∃ s, osRun (mkdirRun 32) = some s ∧ ¬Refused bumpAlloc s (mkdirAct 32) ∧
    s.stop bumpAlloc (mkdirAct 32) = some (.panic "vfs: directory full") := by
  have hrun : ((osRun (mkdirRun 32)).any fun s =>
      decide (s.stop bumpAlloc (mkdirAct 32) = some (.panic "vfs: directory full"))) = true := by decide +kernel
  obtain ⟨s, hs, hl⟩ := (Option.any_eq_true _ _).mp hrun
  exact ⟨s, hs, not_refused bumpAlloc s 32, of_decide_eq_true hl⟩

end NjuOs
