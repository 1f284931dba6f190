import NjuOs.PickSound
import NjuOs.SmpSound
import NjuOs.Runs

/-!
# No ready task waits forever

Every CPU scans `task_list` from behind the task it ran last. A task that is ready but not taken
lies ahead of every CPU at some distance, and each call of `kmt_schedule` brings the calling CPU
closer to it: the number of tasks ahead, summed over the CPUs, goes down with every switch, and goes
up only when a task joins the list. So the number of switches that pass a ready task over is bounded
by the number of CPUs times the number of other tasks.
-/

namespace NjuOs

open Function List Option

/-! ## Who is ahead of a task -/

def Kmt.scanFrom (k : Kmt) (c : Nat) : Option TaskRef :=
  if k.current c = some (.idle c) then none else k.current c

def passedOver (l : List TaskRef) (t : TaskRef) (after : Option TaskRef) : List TaskRef :=
  (cyclicFrom l after).takeWhile (· ≠ t)

section
variable {l : List TaskRef} {t n r : TaskRef} {after : Option TaskRef}

theorem passedOver_length (ht : t ∈ l) (ha : ∀ a, after = some a → a ∈ l) :
    (passedOver l t after).length < l.length := by
  have hlen : (cyclicFrom l after).length = l.length := by
    cases after with
    | none => rfl
    | some a =>
      obtain ⟨k, hk⟩ := exists_rotate (ha a rfl)
      rw [cyclicFrom, hk, length_rotate]
  obtain ⟨u, v, huv, hu⟩ := eq_append_cons_of_mem ((mem_cyclicFrom ha).mpr ht)
  rw [passedOver, ← hlen, huv, takeWhile_ne hu]
  simp

theorem passedOver_joined (hn : n ∉ l) (ha : ∀ a, after = some a → a ∈ l) :
    (passedOver (n :: l) t after).length ≤ (passedOver l t after).length + 1 := by
  cases after with
  | none => exact length_takeWhile_insert n [] l
  | some a =>
    have hna : n ≠ a := fun h => hn (h ▸ ha a rfl)
    obtain ⟨u, v, h1, h2⟩ := turn_cons_split (ha a rfl) hna
    rw [passedOver, passedOver, cyclicFrom, cyclicFrom, h1, h2]
    exact length_takeWhile_insert n u v

theorem passedOver_left (hl : l.Nodup) (hr : r ≠ t) (ha : ∀ a, after = some a → a ∈ l ∧ a ≠ r) :
    (passedOver (l.erase r) t after).length ≤ (passedOver l t after).length := by
  have hstop : ∀ a : TaskRef, decide (a ≠ t) = false → (a != r) = true := by
    intro a h
    have hat : a = t := by simpa using h
    simpa [hat] using Ne.symm hr
  have hturn : cyclicFrom (l.erase r) after = (cyclicFrom l after).filter (· != r) := by
    cases after with
    | none => exact hl.erase_eq_filter r
    | some a => exact turn_erase hl (ha a rfl).1 (Ne.symm (ha a rfl).2)
  rw [passedOver, passedOver, hturn]
  exact length_takeWhile_filter hstop _

theorem cyclicFrom_last (hl : l.Nodup) (ht : t ∈ l) (ha : ∀ a, after = some a → a ∈ l) :
    ∃ a ∈ l, cyclicFrom l after = turn a l := by
  cases after with
  | some a => exact ⟨a, ha a rfl, rfl⟩
  | none =>
    rcases eq_nil_or_concat' l with rfl | ⟨u, z, rfl⟩
    · cases ht
    · have hz : z ∉ u := fun hz => (nodup_append.mp hl).2.2 z hz z mem_cons_self rfl
      refine ⟨z, by simp, ?_⟩
      rw [turn_split hz, nil_append]
      rfl

/-- The task taken instead of `t` lies ahead of it, and those up to it are behind the CPU now. -/
theorem passedOver_next {ok : TaskRef → Bool} {y : TaskRef} (hl : l.Nodup) (ht : t ∈ l) (hok : ok t = true)
    (ha : ∀ a, after = some a → a ∈ l) (h : (cyclicFrom l after).find? ok = some y) (hy : y ≠ t) :
    (passedOver l t (some y)).length < (passedOver l t after).length := by
  obtain ⟨a, hal, hturn⟩ := cyclicFrom_last hl ht ha
  rw [hturn] at h
  obtain ⟨u, -, hahead⟩ := ahead_next hl hal ht hok h
  rw [if_neg hy] at hahead
  have h1 : passedOver l t after = u ++ y :: passedOver l t (some y) := by
    rw [passedOver, hturn]
    exact hahead
  rw [h1]
  simp
  omega

end

/-! ## Sections that leave the list alone -/

structure Still (k k' : Kmt) : Prop extends SameCpu k k' where
  nlink : k'.nlink = k.nlink

section
variable {k k' : Kmt} {t : TaskRef} {c s : Nat}

theorem nlink_taskExit (h : taskExit k c = .ok k') : k'.nlink = k.nlink := by
  unfold taskExit at h
  split at h
  · cases h
  · obtain ⟨x, -, h⟩ := bind_ok h
    cases h
    rfl

theorem nlink_enqueueWaiter (h : enqueueWaiter k s t = .ok k') : k'.nlink = k.nlink := by
  obtain ⟨x, -, h⟩ := bind_ok h
  dsimp only at h
  split at h
  · cases h
    rfl
  · obtain ⟨u, -, h⟩ := bind_ok h
    cases h
    rfl

theorem nlink_semWait {b : Bool} (h : kmtSemWait k c s = .ok (k', b)) : k'.nlink = k.nlink := by
  obtain ⟨v, -, h⟩ := bind_ok h
  dsimp only at h
  split at h
  · cases h
    rfl
  split at h
  · cases h
  · obtain ⟨k1, h1, h⟩ := bind_ok h
    cases h
    have hn := nlink_enqueueWaiter h1
    exact hn

theorem nlink_semSignal (h : kmtSemSignal k s = .ok k') : k'.nlink = k.nlink := by
  obtain ⟨v, -, h⟩ := bind_ok h
  dsimp only at h
  split at h
  · cases h
    rfl
  split at h
  · cases h
    rfl
  · obtain ⟨x, -, h⟩ := bind_ok h
    cases h
    rfl

end

structure Joined (t : TaskRef) (k k' : Kmt) : Prop where
  fresh : k.live t ≠ true
  other : ∀ u, u ≠ t → (k'.tasks u).schedNext = (k.tasks u).schedNext
  next : (k'.tasks t).schedNext = k.taskList
  live : k'.live = update k.live t true
  taskList : k'.taskList = some t
  current : k'.current = k.current
  nlink : k'.nlink = k.nlink + 1

inductive ListMove (s s' : SmpSys) : Prop
  | still (h : Still s.k.toKmt s'.k.toKmt) (ht : s'.torn = s.torn)
  | joined (t : TaskRef) (h : Joined t s.k.toKmt s'.k.toKmt) (ht : s'.torn = s.torn)
  | left (t : TaskRef) (h : kmtTeardown s.k.toKmt t = .ok s'.k.toKmt) (hc : ∀ c, s.k.current c ≠ some t)
    (ht : s'.torn = s.torn ∨ s'.torn = t :: s.torn)
  | freed (t : TaskRef) (hm : t ∈ s.torn) (ht : s'.torn = s.torn.erase t)
    (hnext : ∀ u, (s'.k.tasks u).schedNext = (s.k.tasks u).schedNext) (hlist : s'.k.taskList = s.k.taskList)
    (hlive : s'.k.live = update s.k.live t false) (hcur : s'.k.current = s.k.current)
    (hlink : s'.k.nlink = s.k.nlink)

def SmpAct.isSchedule : SmpAct → Bool
  | .schedule _ _ => true
  | _ => false

def SmpSys.Keeps (s : SmpSys) : SmpAct → Prop
  | .teardown t => ∀ c, s.k.current c ≠ some t
  | _ => True

theorem Born.joined {n : Nat} {par : Option TaskRef} {redo : Option Blocking} {new : List (Nat × Nat)} {k k' : Kernel}
    (hb : Born n par redo new k k') (hl : k.live (.proc n) ≠ true) : Joined (.proc n) k.toKmt k'.toKmt where
  fresh := hl
  other u hu := by rw [hb.other u hu]
  next := congrArg Task.schedNext hb.core
  live := hb.live
  taskList := hb.taskList
  current := hb.current
  nlink := hb.nlink

section
variable {A : Allocator} {k k' : Kernel} {p : TaskRef}

theorem MemStep.still {new : List (Nat × Nat)} (h : MemStep p new k k') : Still k.toKmt k'.toKmt :=
  ⟨h.sameCpu, h.nlink⟩

theorem still_modify {g : Task → Task}
    (hg : ∀ x, (g x).onCpu = x.onCpu ∧ (g x).cpu = x.cpu ∧ (g x).schedNext = x.schedNext) :
    Still k.toKmt (k.modify p g).toKmt :=
  ⟨SameCpu.set (hg _).1 (hg _).2.1 (hg _).2.2, rfl⟩

/-- Every system call but `wait` leaves the list alone or puts a new process on it. -/
theorem doSyscall_list {ctx f : Context} {now : Nat} {call : Syscall} {b : Bool} (hw : call.isWait = false)
    (h : doSyscall A k p ctx now call = .ok (k', f, b)) :
    Still k.toKmt k'.toKmt ∨ ∃ n par redo new, Born n par redo new k k' := by
  cases call with
  | wait va => cases hw
  | kputc ch =>
    cases h
    exact Or.inl (kputc_memStep p k _).still
  | getpid | uptime | unknown =>
    cases h
    exact Or.inl (MemStep.refl p k).still
  | mmap addr length prot flags =>
    obtain ⟨⟨k1, r⟩, h1, h⟩ := bind_ok h
    cases h
    obtain ⟨new, hm⟩ := memStep_sysMmap h1
    exact Or.inl hm.still
  | vfs vc =>
    obtain ⟨⟨v, fs, r⟩, h1, h⟩ := bind_ok h
    cases h
    exact Or.inl (memStep_setFiles p k (v, fs)).still
  | exec va path =>
    obtain ⟨⟨k1, done⟩, h1, h⟩ := bind_ok h
    obtain ⟨new, hm⟩ := (memStep_sysExec h1).1
    cases done with
    | _ =>
      cases h
      exact Or.inl hm.still
  | fork =>
    obtain ⟨⟨k1, pid⟩, h1, h⟩ := bind_ok h
    cases h
    obtain ⟨-, n, new, hb⟩ := sysFork_ok h1
    exact Or.inr ⟨n, some p, ctx.redo, new, hb⟩
  | kill pid =>
    obtain ⟨⟨k1, r⟩, h1, h⟩ := bind_ok h
    cases h
    rcases sysKill_ok h1 with ⟨rfl, -⟩ | ⟨target, -, -, -, hd⟩
    · exact Or.inl (MemStep.refl p k').still
    · exact Or.inl ⟨hd.sameCpu, hd.nlink⟩
  | exit status =>
    obtain ⟨k1, h1, h⟩ := bind_ok h
    cases h
    have hd := (sysExit_ok h1).2
    exact Or.inl ⟨hd.sameCpu, hd.nlink⟩
  | sleep n =>
    simp only [doSyscall, sysSleep, Except.ok.injEq] at h
    left
    split at h
    · obtain ⟨rfl, -⟩ := Prod.mk.inj h
      exact still_modify fun _ => ⟨rfl, rfl, rfl⟩
    · split at h
      · obtain ⟨rfl, -⟩ := Prod.mk.inj h
        exact still_modify fun _ => ⟨rfl, rfl, rfl⟩
      · obtain ⟨rfl, -⟩ := Prod.mk.inj h
        exact still_modify fun _ => ⟨rfl, rfl, rfl⟩

end

section
variable {A : Allocator} {s s' : SmpSys} {a : SmpAct}

theorem SmpInv.born_joined (hi : SmpInv s) {n : Nat} {par : Option TaskRef} {redo : Option Blocking}
    {new : List (Nat × Nat)} {k' : Kernel} (hb : Born n par redo new s.k k') : Joined (.proc n) s.k.toKmt k'.toKmt := by
  apply hb.joined
  intro hl
  exact (hi.own.born hb).1 ((hi.live n).mp hl)

theorem reapFree_list {k k' : Kernel} {n : Nat} (hk : HeapOk k.heap) (hle : ownedBy k (.proc n) ≤ k.heap.live)
    (h : reapFree k (.proc n) = .ok k') :
    (∀ u, (k'.tasks u).schedNext = (k.tasks u).schedNext) ∧ k'.taskList = k.taskList ∧
      k'.live = update k.live (.proc n) false ∧ k'.current = k.current ∧ k'.nlink = k.nlink := by
  obtain ⟨hp, e1, -, -⟩ := reapFree_total hk hle
  cases e1.symm.trans h
  refine ⟨fun u => ?_, rfl, rfl, rfl, rfl⟩
  show ((k.modify (.proc n) fun x => { x with maps := [] }).tasks u).schedNext = _
  exact modify_field Task.schedNext rfl u

theorem listMove_step (hi : SmpInv s) (hk : s.Keeps a) (ha : a.isSchedule = false) (hs : s.step A a = some s') :
    ListMove s s' := by
  cases a with
  | schedule c ctx => cases ha
  | create i ctx =>
    simp only [SmpSys.step] at hs
    split at hs
    · cases hs
    · next hl =>
      obtain ⟨m, hm, rfl⟩ := withKmt_some hs
      cases hm
      refine .joined (.kernel i) ⟨hl, fun u hu => ?_, ?_, rfl, rfl, rfl, rfl⟩ rfl
      · simp only [kmtRegister, set_tasks_ne hu]
      · simp only [kmtRegister, set_tasks_self]
        rfl
  | semInit sem v =>
    cases hs
    exact .still ⟨(semStep_setSem ..).sameCpu, rfl⟩ rfl
  | semWait c sem =>
    obtain ⟨m, hm, rfl⟩ := withKmt_some hs
    obtain ⟨b, hm⟩ := map_fst_ok hm
    exact .still ⟨(semStep_semWait hm).sameCpu, nlink_semWait hm⟩ rfl
  | semSignal sem =>
    obtain ⟨m, hm, rfl⟩ := withKmt_some hs
    exact .still ⟨(semStep_semSignal hm).sameCpu, nlink_semSignal hm⟩ rfl
  | threadExit c =>
    obtain ⟨m, hm, rfl⟩ := withKmt_some hs
    exact .still ⟨(semStep_taskExit hm).sameCpu, nlink_taskExit hm⟩ rfl
  | teardown t =>
    simp only [SmpSys.step] at hs
    split at hs
    · obtain ⟨k, hk', rfl⟩ := withKernel_some hs
      exact .left t (reapTeardown_ok hk').2.1 hk (Or.inl rfl)
    · cases hs
  | store t st =>
    simp only [SmpSys.step] at hs
    split at hs
    · cases hs
      exact .still (still_modify fun _ => ⟨rfl, rfl, rfl⟩) rfl
    · cases hs
  | tick now =>
    cases hs
    exact .still ⟨(quiet_tick s.k now).same, (uprocTick_frame s.k now).1.nlink⟩ rfl
  | spawn bin len =>
    obtain ⟨k, hk', rfl⟩ := withKernel_some hs
    obtain ⟨p, hk'⟩ := map_fst_ok hk'
    obtain ⟨n, new, -, hb⟩ := procSpawn_ok hk'
    exact .joined _ (hi.born_joined hb) rfl
  | pageFault c =>
    obtain ⟨p, -, hs⟩ := bind_eq_some_iff.mp hs
    obtain ⟨k, hk', rfl⟩ := withKernel_some hs
    have hd := (sysExit_ok hk').2
    exact .still ⟨hd.sameCpu, hd.nlink⟩ rfl
  | syscall c ctx now call =>
    obtain ⟨p, -, hs⟩ := bind_eq_some_iff.mp hs
    split at hs
    · cases hs
    · next hw =>
      obtain ⟨k, hk', rfl⟩ := withKernel_some hs
      obtain ⟨⟨f, b⟩, hk'⟩ := map_fst_ok hk'
      rcases doSyscall_list (by simpa using hw) hk' with h | ⟨n, par, redo, new, hb⟩
      · exact .still h rfl
      · exact .joined _ (hi.born_joined hb) rfl
  | waitScan c =>
    obtain ⟨p, -, hs⟩ := bind_eq_some_iff.mp hs
    have hsc := reapScan_ok s.k p
    generalize reapScan s.k p = r at hs hsc
    obtain ⟨k1, w⟩ := r
    cases hsc with
    | _ =>
      cases hs
      exact .still ⟨SameCpu.refl _, rfl⟩ rfl
  | reapTeardown t =>
    simp only [SmpSys.step] at hs
    split at hs
    · next ht =>
      cases hk' : NjuOs.reapTeardown s.k t with
      | error e =>
        rw [hk'] at hs
        cases hs
      | ok k =>
        rw [hk'] at hs
        cases hs
        refine .left t (reapTeardown_ok hk').2.1 (fun c hc => ?_) (Or.inr rfl)
        exact hi.unreferenced (mem_append_left _ ht) c (Or.inl hc)
    · cases hs
  | reapFree t =>
    simp only [SmpSys.step] at hs
    split at hs
    · next ht =>
      cases hk' : NjuOs.reapFree s.k t with
      | error e =>
        rw [hk'] at hs
        cases hs
      | ok k =>
        rw [hk'] at hs
        cases hs
        have hmem : t ∈ s.procs := mem_append_right _ (mem_append_right _ ht)
        obtain ⟨n, rfl⟩ := hi.isProc t hmem
        have hle : ownedBy s.k (.proc n) ≤ s.k.heap.live := by
          have hb := hi.own.blocks
          rw [bag_erase _ hmem] at hb
          exact (Multiset.le_add_right _ _).trans hb
        obtain ⟨h1, h2, h3, h4, h5⟩ := reapFree_list hi.own.heapOk hle hk'
        exact .freed _ ht rfl h1 h2 h3 h4 h5
    · cases hs

end

/-! ## The list along a run -/

structure TurnInv (s : SmpSys) (l : List TaskRef) : Prop where
  list : ListInv s.k.toKmt l
  torn : ∀ t ∈ s.torn, t ∉ l
  turn : ∀ c a, s.k.current c = some a → a = .idle c ∨ a ∈ l

section
variable {A : Allocator} {s s' : SmpSys} {a : SmpAct} {l : List TaskRef} {t : TaskRef}

theorem ListInv.congr {k k' : Kmt} (h : ListInv k l) (hnext : ∀ u, (k'.tasks u).schedNext = (k.tasks u).schedNext)
    (hlist : k'.taskList = k.taskList) (hlink : k'.nlink = k.nlink) (hlive : ∀ u ∈ l, k'.live u = k.live u) :
    ListInv k' l where
  linked := by
    rw [hlist]
    exact h.linked.congr fun u _ => hnext u
  len := by
    rw [hlink]
    exact h.len
  live u hu := (hlive u hu).trans (h.live u hu)

theorem ListInv.joined {k k' : Kmt} (h : ListInv k l) (hj : Joined t k k') : t ∉ l ∧ ListInv k' (t :: l) := by
  have ht : t ∉ l := fun hm => hj.fresh (h.live t hm)
  refine ⟨ht, ?_, ?_, ?_⟩
  · refine ⟨hj.taskList, ?_⟩
    have hn : k'.next t = k.taskList := hj.next
    rw [hn]
    exact h.linked.congr fun u hu => hj.other u fun he => ht (he ▸ hu)
  · rw [hj.nlink]
    exact Nat.succ_le_succ h.len
  · intro u hu
    rw [hj.live]
    by_cases hut : u = t
    · rw [hut, update_self]
    · rw [update_of_ne hut]
      exact h.live u ((mem_cons.mp hu).resolve_left hut)

theorem TurnInv.scan (h : TurnInv s l) {c : Nat} {b : TaskRef} (hb : s.k.scanFrom c = some b) : b ∈ l := by
  unfold Kmt.scanFrom at hb
  split at hb
  · cases hb
  · next hne =>
    rcases h.turn c b hb with rfl | hm
    · exact absurd hb hne
    · exact hm

theorem TurnInv.moved (h : TurnInv s l) (hi : SmpInv s) (hm : ListMove s s') :
    ∃ l', TurnInv s' l' ∧ s'.k.scanFrom = s.k.scanFrom ∧ ∀ t ∈ l', ∀ c,
      (passedOver l' t (s.k.scanFrom c)).length + s.k.nlink ≤
        (passedOver l t (s.k.scanFrom c)).length + s'.k.nlink := by
  have hscan : ∀ k k' : Kmt, k'.current = k.current → k'.scanFrom = k.scanFrom := by
    intro k k' hc
    funext c
    rw [Kmt.scanFrom, Kmt.scanFrom, hc]
  cases hm with
  | still hs htorn =>
    have hl : ListInv s'.k.toKmt l :=
      h.list.congr hs.schedNext hs.taskList hs.nlink fun u _ => congrFun hs.live u
    refine ⟨l, ⟨hl, ?_, ?_⟩, hscan _ _ hs.current, fun t _ c => ?_⟩
    · rw [htorn]
      exact h.torn
    · rw [hs.current]
      exact h.turn
    · rw [hs.nlink]
  | joined n hj htorn =>
    obtain ⟨hn, hl⟩ := h.list.joined hj
    refine ⟨n :: l, ⟨hl, ?_, ?_⟩, hscan _ _ hj.current, fun t _ c => ?_⟩
    · rw [htorn]
      intro u hu hm
      rcases mem_cons.mp hm with rfl | hm
      · exact hj.fresh (hi.in_use (mem_append_right _ (mem_append_right _ hu)))
      · exact h.torn u hu hm
    · intro c b hb
      rw [hj.current] at hb
      exact (h.turn c b hb).imp id (mem_cons_of_mem n)
    · have := passedOver_joined (t := t) hn fun b hb => h.scan (c := c) hb
      rw [hj.nlink]
      omega
  | left r hr hc htorn =>
    have hnd := h.list.linked.nodup
    obtain ⟨k1, hk1, hl⟩ := h.list.teardown r
    cases hk1.symm.trans hr
    have hsame : s'.k.current = s.k.current ∧ s'.k.nlink = s.k.nlink := by
      rcases unlinkLoop_ok hr with he | he | ⟨q, he⟩
      all_goals
        rw [he]
        exact ⟨rfl, rfl⟩
    refine ⟨l.erase r, ⟨hl, ?_, ?_⟩, hscan _ _ hsame.1, fun t ht c => ?_⟩
    · intro u hu hm
      rcases htorn with htorn | htorn
      · rw [htorn] at hu
        exact h.torn u hu (mem_of_mem_erase hm)
      · rw [htorn] at hu
        rcases mem_cons.mp hu with rfl | hu
        · exact hnd.not_mem_erase hm
        · exact h.torn u hu (mem_of_mem_erase hm)
    · intro c b hb
      rw [hsame.1] at hb
      refine (h.turn c b hb).imp id fun hm => ?_
      have hbr : b ≠ r := fun he => hc c (he ▸ hb)
      exact (mem_erase_of_ne hbr).mpr hm
    · have hafter : ∀ b, s.k.scanFrom c = some b → b ∈ l ∧ b ≠ r := by
        intro b hb
        refine ⟨h.scan hb, fun he => ?_⟩
        unfold Kmt.scanFrom at hb
        split at hb
        · cases hb
        · exact hc c (he ▸ hb)
      have hrt : r ≠ t := fun he => hnd.not_mem_erase (he ▸ ht)
      have := passedOver_left hnd hrt hafter
      rw [hsame.2]
      omega
  | freed r hr htorn hnext hlist hlive hcur hlink =>
    have hl : ListInv s'.k.toKmt l := by
      refine h.list.congr hnext hlist hlink fun u hu => ?_
      have hur : u ≠ r := fun he => h.torn r hr (he ▸ hu)
      rw [hlive, update_of_ne hur]
    refine ⟨l, ⟨hl, ?_, ?_⟩, hscan _ _ hcur, fun t _ c => ?_⟩
    · rw [htorn]
      exact fun u hu => h.torn u (mem_of_mem_erase hu)
    · rw [hcur]
      exact h.turn
    · rw [hlink]

/-! ## A switch -/

def SmpSys.Waits (s : SmpSys) (t : TaskRef) : Prop := t ∈ s.k.listed ∧ eligible (s.k.tasks t) = true

instance (s : SmpSys) (t : TaskRef) : Decidable (s.Waits t) :=
  inferInstanceAs (Decidable (t ∈ s.k.listed ∧ eligible (s.k.tasks t) = true))

theorem eligible_iff {x : Task} : eligible x = true ↔ x.state = .runnable ∧ x.cpu = -1 ∧ x.onCpu = false := by
  simp [eligible]

/-- What `pick_next` finds inside `kmt_schedule`: the tasks that are ready at the call are among those it
may take. -/
theorem kmtSchedule_pick {k k' : Kmt} {c : Nat} {ctx rc : Context} (hk : CpuInv k) (hl : ListInv k l)
    (hlen : l.length ≤ 200000) (ha : ∀ b, k.scanFrom c = some b → b ∈ l) (h : kmtSchedule k c ctx = .ok (k', rc)) :
    ∃ ok, (∀ t, eligible (k.tasks t) = true → ok t = true) ∧ ListInv k' l ∧ k'.nlink = k.nlink ∧
      k'.current = update k.current c (some (((cyclicFrom l (k.scanFrom c)).find? ok).getD (.idle c))) := by
  obtain ⟨hcpu, next, hsw⟩ := kmtSchedule_ok hk h
  have hl' : ListInv k' l := by
    refine hl.congr ?_ hsw.frame.2.1 hsw.frame.2.2.2 fun u _ => congrFun hsw.frame.1 u
    exact hsw.field Task.schedNext (fun _ _ _ => rfl) fun _ _ _ _ _ => rfl
  obtain ⟨k1, h1, h⟩ := bind_ok h
  obtain ⟨k2, h2, h⟩ := bind_ok h
  obtain ⟨pick, hp, h⟩ := bind_ok h
  obtain ⟨c1, -, l1, tl1, -, n1, -, -, t1⟩ := releasePrev_frame h1
  obtain ⟨c2, -, l2, tl2, -, n2, -, -, o2, sv2⟩ := saveCurrent_frame h2
  have hnext1 : ∀ u, (k1.tasks u).schedNext = (k.tasks u).schedNext := fun u => by rw [t1 u]
  have hnext2 : ∀ u, (k2.tasks u).schedNext = (k1.tasks u).schedNext := by
    intro u
    by_cases hu : k1.current c = some u
    · rw [sv2 u hu]
      rfl
    · rw [o2 u hu]
  have hl2 : ListInv k2 l := by
    refine hl.congr (fun u => (hnext2 u).trans (hnext1 u)) (tl2.trans tl1) (n2.trans n1) fun u _ => ?_
    rw [l2, l1]
  have hscan : (if k2.current c = some (.idle c) then none else k2.current c) = k.scanFrom c := by
    rw [c2, c1]
    rfl
  rw [hscan, hl2.pickNext hlen ha] at hp
  cases hp
  refine ⟨k2.eligible, fun t ht => ?_, hl', hsw.frame.2.2.2, ?_⟩
  · obtain ⟨e1, e2, e3⟩ := eligible_iff.mp ht
    -- a ready task is no CPU's current one, so nothing is saved into it
    have hfree : k1.current c ≠ some t := by
      intro hc
      rw [c1] at hc
      have hcpu := (CpuRel.cpu hk t (CpuRel.live hk (Or.inl hc)) c).mpr hc
      rw [e2] at hcpu
      omega
    apply eligible_iff.mpr
    rw [o2 t hfree]
    refine ⟨?_, ?_, ?_⟩
    · rw [t1 t]
      exact e1
    · rw [t1 t]
      exact e2
    · rcases releasePrev_ok h1 with ⟨rfl, -⟩ | ⟨q, -, -, -, rfl⟩
      · exact e3
      · by_cases htq : t = q
        · simp only [htq, set_tasks_self]
        · simp only [set_tasks_ne htq]
          exact e3
  · obtain ⟨-, -, rfl⟩ := switchTo_ok h
    show update k2.current c _ = _
    rw [c2, c1]

theorem TurnInv.switched {c : Nat} {ctx : Context} (h : TurnInv s l) (hi : SmpInv s) (hlen : l.length ≤ 200000)
    (hs : s.step A (.schedule c ctx) = some s') :
    TurnInv s' l ∧ s'.k.nlink = s.k.nlink ∧ (∀ d, d ≠ c → s'.k.scanFrom d = s.k.scanFrom d) ∧
      ∃ ok, (∀ t, eligible (s.k.tasks t) = true → ok t = true) ∧
        s'.k.scanFrom c = (cyclicFrom l (s.k.scanFrom c)).find? ok ∧
        ∀ y, s'.k.scanFrom c = some y → s'.k.current c = some y := by
  obtain ⟨m, hm, rfl⟩ := withKmt_some hs
  obtain ⟨rc, hm⟩ := map_fst_ok hm
  obtain ⟨ok, hok, hl', hlink, hcur⟩ := kmtSchedule_pick hi.cpu h.list hlen (fun b hb => h.scan hb) hm
  generalize hf : (cyclicFrom l (s.k.scanFrom c)).find? ok = pick at hcur
  have hpick : ∀ y, pick = some y → y ∈ l ∧ y ≠ .idle c := by
    intro y hy
    rw [hy] at hf
    have hyl : y ∈ l := (mem_cyclicFrom fun b hb => h.scan hb).mp (mem_of_find?_eq_some hf)
    refine ⟨hyl, ?_⟩
    rintro rfl
    exact CpuRel.listed hi.cpu c ((h.list.linked.entered hyl).imp id fun ⟨u, _, hu⟩ => ⟨u, hu⟩)
  have hself : m.current c = some (pick.getD (.idle c)) := by rw [hcur, update_self]
  have hscan : m.scanFrom c = pick := by
    rw [Kmt.scanFrom, hself]
    cases pick with
    | none => exact if_pos rfl
    | some y => exact if_neg fun he => (hpick y rfl).2 (some.inj he)
  refine ⟨⟨hl', h.torn, ?_⟩, hlink, ?_, ok, hok, hscan.trans hf.symm, ?_⟩
  · intro d b hb
    have hb : m.current d = some b := hb
    by_cases hd : d = c
    · rw [hd, hself] at hb
      cases pick with
      | none =>
        cases hb
        exact Or.inl (by rw [hd]; rfl)
      | some y =>
        cases hb
        exact Or.inr (hpick y rfl).1
    · rw [hcur, update_of_ne hd] at hb
      exact h.turn d b hb
  · intro d hd
    show m.scanFrom d = _
    rw [Kmt.scanFrom, Kmt.scanFrom, hcur, update_of_ne hd]
  · intro y hy
    have hy : m.scanFrom c = some y := hy
    rw [hscan] at hy
    show m.current c = some y
    rw [hself, hy]
    rfl

/-- The switch brings CPU `c` closer to `t`, unless it takes it. -/
theorem TurnInv.closer {c : Nat} {ctx : Context} (h : TurnInv s l) (hi : SmpInv s) (hi' : SmpInv s')
    (hlen : l.length ≤ 200000) (ht : s.Waits t) (ht' : s'.Waits t) (hs : s.step A (.schedule c ctx) = some s') :
    (passedOver l t (s'.k.scanFrom c)).length < (passedOver l t (s.k.scanFrom c)).length := by
  obtain ⟨-, -, -, ok, hok, hscan, hcur⟩ := h.switched hi hlen hs
  have htl : t ∈ l := by
    rw [← h.list.listed_eq]
    exact ht.1
  have hsome : ((cyclicFrom l (s.k.scanFrom c)).find? ok).isSome = true := by
    rw [find?_isSome]
    exact ⟨t, (mem_cyclicFrom fun b hb => h.scan hb).mpr htl, hok t ht.2⟩
  obtain ⟨y, hy⟩ := isSome_iff_exists.mp hsome
  rw [hy] at hscan
  have hyt : y ≠ t := by
    rintro rfl
    have hcy := hcur y hscan
    have hcpu := (CpuRel.cpu hi'.cpu y (CpuRel.live hi'.cpu (Or.inl hcy)) c).mpr hcy
    rw [(eligible_iff.mp ht'.2).2.1] at hcpu
    omega
  rw [hscan]
  exact passedOver_next h.list.linked.nodup htl (hok t ht.2) (fun b hb => h.scan hb) hy hyt

end

/-! ## The bound -/

def SmpSys.distance (s : SmpSys) (ncpu : Nat) (t : TaskRef) : Nat :=
  ∑ c ∈ Finset.range ncpu, (passedOver s.k.listed t (s.k.scanFrom c)).length

/-- A switch finds no selected child runnable, no running task is torn down, and the list has no more
tasks than `pick_next` looks at. -/
structure FairStep (s : SmpSys) (a : SmpAct) : Prop where
  held : s.HeldAt a
  keeps : s.Keeps a
  room : s.k.listed.length ≤ 200000

structure WaitStep (A : Allocator) (ncpu : Nat) (t : TaskRef) (s : SmpSys) (a : SmpAct) : Prop
    extends FairStep s a where
  waits : s.Waits t
  after : ∀ s' ∈ s.step A a, s'.Waits t
  cpu : ∀ c ctx, a = .schedule c ctx → c < ncpu

structure FairInv (s : SmpSys) : Prop where
  smp : SmpInv s
  turns : ∃ l, TurnInv s l

section
variable {A : Allocator} {s s' : SmpSys} {a : SmpAct} {t : TaskRef} {ncpu : Nat}

theorem FairInv.step (h : FairInv s) (hf : FairStep s a) (hs : s.step A a = some s') : FairInv s' := by
  obtain ⟨l, hl⟩ := h.turns
  refine ⟨h.smp.step hf.held hs, ?_⟩
  by_cases ha : a.isSchedule = true
  · cases a with
    | schedule c ctx => exact ⟨l, (hl.switched h.smp (by rw [← hl.list.listed_eq]; exact hf.room) hs).1⟩
    | _ => cases ha
  · obtain ⟨l', hl', -⟩ := hl.moved h.smp (listMove_step h.smp hf.keeps (by simpa using ha) hs)
    exact ⟨l', hl'⟩

theorem TurnInv.distance_eq {l : List TaskRef} (h : TurnInv s l) :
    s.distance ncpu t = ∑ c ∈ Finset.range ncpu, (passedOver l t (s.k.scanFrom c)).length := by
  rw [SmpSys.distance, h.list.listed_eq]

/-- A switch costs one, and each task that joins may put itself ahead of every CPU. -/
theorem distance_step (h : FairInv s) (hw : WaitStep A ncpu t s a) (hs : s.step A a = some s') :
    s'.distance ncpu t + (if a.isSchedule = true then 1 else 0) + ncpu * s.k.nlink ≤
      s.distance ncpu t + ncpu * s'.k.nlink := by
  obtain ⟨l, hl⟩ := h.turns
  have hw' := hw.after s' hs
  by_cases ha : a.isSchedule = true
  · obtain ⟨c, ctx, rfl⟩ : ∃ c ctx, a = .schedule c ctx := by
      cases a with
      | schedule c ctx => exact ⟨c, ctx, rfl⟩
      | _ => cases ha
    have hlen : l.length ≤ 200000 := by rw [← hl.list.listed_eq]; exact hw.room
    obtain ⟨hl', hlink, hother, -⟩ := hl.switched h.smp hlen hs
    have hlt := hl.closer h.smp (h.smp.step hw.held hs) hlen hw.waits hw' hs
    have hc : c ∈ Finset.range ncpu := Finset.mem_range.mpr (hw.cpu c ctx rfl)
    rw [if_pos ha, hl'.distance_eq, hl.distance_eq, hlink]
    have hsum : ∑ d ∈ Finset.range ncpu, (passedOver l t (s'.k.scanFrom d)).length <
        ∑ d ∈ Finset.range ncpu, (passedOver l t (s.k.scanFrom d)).length := by
      refine Finset.sum_lt_sum (fun d _ => ?_) ⟨c, hc, hlt⟩
      by_cases hd : d = c
      · rw [hd]
        exact hlt.le
      · rw [hother d hd]
    omega
  · obtain ⟨l', hl', hscan, hpass⟩ := hl.moved h.smp (listMove_step h.smp hw.keeps (by simpa using ha) hs)
    rw [if_neg ha, hl'.distance_eq, hl.distance_eq, hscan]
    have ht : t ∈ l' := by
      rw [← hl'.list.listed_eq]
      exact hw'.1
    have hsum := Finset.sum_le_sum fun c (_ : c ∈ Finset.range ncpu) => hpass t ht c
    rw [Finset.sum_add_distrib, Finset.sum_add_distrib, Finset.sum_const, Finset.sum_const, Finset.card_range,
      smul_eq_mul, smul_eq_mul] at hsum
    omega

theorem distance_le {l : List TaskRef} (h : TurnInv s l) (ht : t ∈ l) :
    s.distance ncpu t ≤ ncpu * (l.length - 1) := by
  have hpass : ∀ c ∈ Finset.range ncpu, (passedOver l t (s.k.scanFrom c)).length ≤ l.length - 1 := by
    intro c _
    exact Nat.le_sub_one_of_lt (passedOver_length ht fun b hb => h.scan hb)
  rw [h.distance_eq]
  have hsum := Finset.sum_le_sum hpass
  rwa [Finset.sum_const, Finset.card_range, smul_eq_mul] at hsum

variable {v : Vfs} {uprogs : List (List UInt8 × List UInt8)} {k : Kernel}

theorem fairInv_boot (h : uprocInit A v uprogs = .ok k) : FairInv (SmpSys.boot k) := by
  refine ⟨smpInv_boot h, ?_⟩
  obtain ⟨n, new, k1, hb, rfl⟩ := uprocInit_ok h
  have hblank : ListInv (Kernel.blank v uprogs).toKmt [] := ⟨rfl, Nat.le_refl _, fun t ht => (by cases ht)⟩
  have hl := (hblank.joined (hb.joined (by simp [Kernel.blank, kmtInit]))).2
  refine ⟨[.proc n], ⟨hl.linked, hl.len, hl.live⟩, fun t ht => (by cases ht), fun c b hc => ?_⟩
  have hc : k1.current c = some b := hc
  rw [hb.current] at hc
  cases hc

/-- However the CPUs interleave, a task that is ready and not taken is passed over by at most as many
calls of `kmt_schedule` as there are CPUs times other tasks, those that join meanwhile included. -/
theorem bounded_waiting {pre as : List SmpAct} (hboot : uprocInit A v uprogs = .ok k)
    (hpre : Along (SmpSys.step A) FairStep (SmpSys.boot k) pre)
    (hs : run (SmpSys.step A) (SmpSys.boot k) pre = some s)
    (hwait : Along (SmpSys.step A) (WaitStep A ncpu t) s as) (hs' : run (SmpSys.step A) s as = some s') :
    as.countP SmpAct.isSchedule ≤ ncpu * (s.k.listed.length - 1 + (s'.k.nlink - s.k.nlink)) := by
  cases as with
  | nil => simp
  | cons a as =>
    have hinv := run_inv_along (fun _ _ _ hi hf hst => FairInv.step hi hf hst) pre _ s (fairInv_boot hboot) hpre hs
    have hstep : ∀ s a s', FairInv s → WaitStep A ncpu t s a → s.step A a = some s' → FairInv s' ∧
        s'.distance ncpu t + (if a.isSchedule = true then 1 else 0) + ncpu * s.k.nlink ≤
          s.distance ncpu t + ncpu * s'.k.nlink := fun s a s' hi hw hst =>
      ⟨hi.step hw.toFairStep hst, distance_step hi hw hst⟩
    have hcount := run_amortized (P := fun s => s.distance ncpu t) (Q := fun s => ncpu * s.k.nlink)
      (c := SmpAct.isSchedule) hstep _ s s' hinv hwait hs'
    obtain ⟨l, hl⟩ := hinv.turns
    have ht := hwait.1.waits.1
    rw [hl.list.listed_eq] at ht
    have hle : s.distance ncpu t ≤ ncpu * (l.length - 1) := distance_le hl ht
    have hjoin : ncpu * (s'.k.nlink - s.k.nlink) = ncpu * s'.k.nlink - ncpu * s.k.nlink := Nat.mul_sub ..
    rw [hl.list.listed_eq, Nat.mul_add, hjoin]
    omega

end

def lateRun : List SmpAct := [.create 0 blankContext, .create 1 blankContext]

def twoSwitches : List SmpAct := [.schedule 0 blankContext, .schedule 0 blankContext]

def fairTest (s : SmpSys) (a : SmpAct) : Bool :=
  match a with
  | .teardown _ => false
  | _ => decide (s.HeldAt a ∧ s.k.listed.length ≤ 200000)

def waitTest (t : TaskRef) (s : SmpSys) (a : SmpAct) : Bool :=
  match a with
  | .schedule c _ => decide (c < 1 ∧ s.Waits t) && fairTest s a && (s.step bumpAlloc a).all fun s' => decide (s'.Waits t)
  | _ => false

theorem fairStep_of_test (s : SmpSys) (a : SmpAct) (h : fairTest s a = true) : FairStep s a := by
  cases a with
  | teardown t => cases h
  | _ =>
    simp only [fairTest, decide_eq_true_eq] at h
    exact ⟨h.1, trivial, h.2⟩

theorem waitStep_of_test (t : TaskRef) (s : SmpSys) (a : SmpAct) (h : waitTest t s a = true) :
    WaitStep bumpAlloc 1 t s a := by
  cases a with
  | schedule c ctx =>
    simp only [waitTest, Bool.and_eq_true, decide_eq_true_eq] at h
    obtain ⟨⟨⟨hc, hw⟩, hf⟩, ha⟩ := h
    refine ⟨fairStep_of_test s _ hf, hw, fun s' hs' => ?_, ?_⟩
    · rw [hs'] at ha
      exact of_decide_eq_true ha
    · intro d ctx' he
      cases he
      exact hc
  | _ => cases h

/-- The bound is reached: init, at the end of the list, is passed over by both threads. -/
theorem bounded_waiting_reached : ∃ s s', smpRun lateRun = some s ∧ run (SmpSys.step bumpAlloc) s twoSwitches = some s' ∧
    s'.Waits (.proc 4096) ∧ s.k.listed.length = 3 ∧
    twoSwitches.countP SmpAct.isSchedule ≤ 1 * (s.k.listed.length - 1 + (s'.k.nlink - s.k.nlink)) := by
  have hrun : (smallKernel.any fun k => passes (SmpSys.step bumpAlloc) fairTest
      (fun s => decide (s.k.listed.length = 3) &&
        passes (SmpSys.step bumpAlloc) (waitTest (.proc 4096)) (fun s' => decide (s'.Waits (.proc 4096))) s twoSwitches)
      (SmpSys.boot k) lateRun) = true := by
    decide +kernel
  obtain ⟨v, k, s, hboot, hs, hr, hc, hp⟩ := small_passes fairStep_of_test hrun
  obtain ⟨hlen, hp⟩ := Bool.and_eq_true_iff.mp hp
  obtain ⟨s', hr', hc', hw⟩ := passes_run (waitStep_of_test _) hp
  exact ⟨s, s', hs, hr', of_decide_eq_true hw, of_decide_eq_true hlen, bounded_waiting hboot hc hr hc' hr'⟩

end NjuOs
