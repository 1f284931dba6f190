import NjuOs.Slab
import NjuOs.SpinSound

/-!
# Who works on whose slab lists

`kalloc` and `kfree` read the CPU number once and then load and store that CPU's lists. As long as
a handler that interrupts them in between neither switches tasks nor calls the allocator, an agent
inside its window is on the CPU whose number it has read, and it is alone with the lists.
-/

namespace NjuOs

open Function

/-- A handler that has interrupted a task between its `cpu_current()` and its last store neither
switches to another task nor calls the allocator. -/
def SlabSafe (s : SlabSys) : SlabAct → Prop
  | .kalloc c _ | .kfree c _ | .sys (.sched c _) =>
    s.spin.inTrap c = true → ∀ t ∈ s.spin.k.current c, (s.pc (.task t)).window = none
  | _ => True

instance (s : SlabSys) (act : SlabAct) : Decidable (SlabSafe s act) := by
  induction act using SlabAct.casesOn with
  | sys act => induction act using SpinAct.casesOn <;> unfold SlabSafe <;> infer_instance
  | _ => unfold SlabSafe; infer_instance

/-! ## Who works on whose lists -/

structure SlabPlaced (s : SlabSys) : Prop where
  cpus : CpuInv s.spin.k
  task : ∀ t c, (s.pc (.task t)).window = some c → s.spin.k.current c = some t
  own : ∀ d c, (s.pc (.trap d)).window = some c → d = c
  trap : ∀ c, s.pc (.trap c) ≠ .out → s.spin.inTrap c = true ∧
    ∀ t, s.spin.k.current c = some t → (s.pc (.task t)).window = none

section
variable {s s' : SlabSys} {a b : Agent} {c d : Nat}

theorem ne_out_of_window {pc : SlabPc} (h : pc.window = some c) : pc ≠ .out := by
  rintro rfl
  cases h

theorem SlabPlaced.window (hs : SlabPlaced s) (ha : s.spin.agent c = some a) (h : (s.pc a).window = some d) :
    d = c := by
  cases a with
  | task t => exact hs.cpus.unique (Or.inl (hs.task t d h)) (Or.inl (agent_task.mp ha).2)
  | trap e =>
    rw [← hs.own e d h]
    by_contra hne
    exact agent_ne_trap ha (Ne.symm hne) rfl

def SlabSys.MayWork (s : SlabSys) (c : Nat) (a : Agent) : Prop :=
  s.pc a ≠ .out ∨ (s.spin.inTrap c = true → ∀ t, s.spin.k.current c = some t → (s.pc (.task t)).window = none)

/-- Whoever executes `kalloc` or `kfree` on a CPU is alone with its lists. -/
theorem SlabPlaced.sole (hs : SlabPlaced s) (ha : s.spin.agent c = some a) (hin : s.MayWork c a) (b : Agent)
    (hb : b ≠ a) : (s.pc b).window ≠ some c := by
  intro h
  cases htrap : s.spin.inTrap c with
  | true =>
    rw [agent_trap htrap] at ha
    cases ha
    cases b with
    | task t =>
      have hnone : (s.pc (.task t)).window = none := by
        rcases hin with hin | hin
        · exact (hs.trap c hin).2 t (hs.task t c h)
        · exact hin htrap t (hs.task t c h)
      cases hnone.symm.trans h
    | trap d => exact hb (by rw [hs.own d c h])
  | false =>
    rw [agent_run htrap] at ha
    cases b with
    | task t =>
      rw [hs.task t c h] at ha
      cases ha
      exact hb rfl
    | trap d =>
      rw [hs.own d c h] at h
      have hin := (hs.trap c (ne_out_of_window h)).1
      rw [htrap] at hin
      cases hin

theorem slabPlaced_init (h : Area) : SlabPlaced (SlabSys.init h) where
  cpus := cpuInv_init
  task := fun _ _ h => nomatch h
  own := fun _ _ h => nomatch h
  trap := fun _ h => absurd rfl h

theorem SlabPlaced.goto {pc' : SlabPc} (hs : SlabPlaced s) (ha : s.spin.agent c = some a) (hin : s.MayWork c a)
    (hwin : ∀ d, pc'.window = some d → d = c) (hspin : s'.spin = s.spin)
    (hpc : s'.pc = update s.pc a pc') : SlabPlaced s' := by
  rcases s' with ⟨spin, pmm, heads, next, pc, live, freeing, freed⟩
  dsimp only at hspin hpc
  subst hspin hpc
  cases a with
  | task u =>
    obtain ⟨hrun, hcur⟩ := agent_task.mp ha
    have htrap : ∀ e, update s.pc (.task u) pc' (.trap e) = s.pc (.trap e) := fun e =>
      update_of_ne Agent.noConfusion ..
    constructor
    case cpus => exact hs.cpus
    case task =>
      intro t d h
      by_cases ht : t = u
      · subst ht
        dsimp only at h
        rw [update_self] at h
        rw [hwin d h]
        exact hcur
      · dsimp only at h
        rw [update_of_ne (by simp [ht])] at h
        exact hs.task t d h
    case own =>
      intro e d
      simp only [htrap]
      exact hs.own e d
    case trap =>
      intro e
      simp only [htrap]
      intro he
      refine ⟨(hs.trap e he).1, fun t ht => ?_⟩
      -- a task that a handler has interrupted does not execute
      have hne : t ≠ u := by
        rintro rfl
        have hec := hs.cpus.unique (Or.inl ht) (Or.inl hcur)
        rw [← hec, (hs.trap e he).1] at hrun
        cases hrun
      rw [update_of_ne (by simp [hne])]
      exact (hs.trap e he).2 t ht
  | trap e =>
    have hec : e = c := by
      by_contra hne
      exact agent_ne_trap ha (Ne.symm hne) rfl
    subst hec
    have htrap : s.spin.inTrap e = true := by
      cases h : s.spin.inTrap e with
      | true => rfl
      | false => simp [agent_run h] at ha
    have htask : ∀ t, update s.pc (.trap e) pc' (.task t) = s.pc (.task t) := fun t =>
      update_of_ne Agent.noConfusion ..
    constructor
    case cpus => exact hs.cpus
    case task =>
      intro t d
      simp only [htask]
      exact hs.task t d
    case own =>
      intro e' d h
      by_cases he : e' = e
      · subst he
        dsimp only at h
        rw [update_self] at h
        exact (hwin d h).symm
      · dsimp only at h
        rw [update_of_ne (by simp [he])] at h
        exact hs.own e' d h
    case trap =>
      intro e' h
      simp only [htask]
      by_cases he : e' = e
      · subst he
        refine ⟨htrap, ?_⟩
        rcases hin with hin | hin
        · exact (hs.trap e' hin).2
        · exact hin htrap
      · dsimp only at h
        rw [update_of_ne (by simp [he])] at h
        exact hs.trap e' h

theorem stmt_frame {s s' : SpinSys} (h : Stmt s c a s') : SameCpu s.k s'.k ∧ s'.inTrap = s.inTrap := by
  cases h <;> first | exact ⟨SameCpu.refl _, rfl⟩ | exact ⟨sameCpu_counters .., rfl⟩

theorem SlabPlaced.same {spin : SpinSys} (hs : SlabPlaced s) (hk : CpuInv spin.k)
    (hcur : spin.k.current = s.spin.k.current)
    (hin : ∀ c, s.pc (.trap c) ≠ .out → s.spin.inTrap c = true → spin.inTrap c = true) :
    SlabPlaced { s with spin := spin } := by
  refine ⟨hk, fun t c h => ?_, hs.own, fun c h => ?_⟩
  · exact (congrFun hcur c).trans (hs.task t c h)
  · obtain ⟨htrap, hcurrent⟩ := hs.trap c h
    exact ⟨hin c h htrap, fun t ht => hcurrent t ((congrFun hcur c).symm.trans ht)⟩

theorem SlabPlaced.trapped (hs : SlabPlaced s) (c : Nat) : SlabPlaced { s with spin := s.spin.trapped c } := by
  refine hs.same hs.cpus rfl fun d _ h => ?_
  by_cases hd : d = c
  · subst hd
    exact update_self ..
  · exact (update_of_ne hd ..).trans h

/-- Everything but the allocator: only a switch and the end of a handler change who is where. -/
theorem SlabPlaced.sys {act : SpinAct} {spin : SpinSys} (hs : SlabPlaced s) (hok : s.Allows act)
    (hsafe : SlabSafe s (.sys act)) (h : Moved s.spin act spin) : SlabPlaced { s with spin := spin } := by
  cases h with
  | create hl h =>
    have hk := hs.cpus.create (fun _ => TaskRef.noConfusion) hl (fun c hn => hs.cpus.listed c (Or.inr ⟨_, hn⟩)) h
    cases h
    exact hs.same hk rfl fun _ _ h => h
  | mark => exact hs.same (hs.cpus.congr (SameCpu.set rfl rfl rfl)) rfl fun _ _ h => h
  | lock ha hx => exact hs.same hs.cpus rfl fun _ _ h => h
  | unlock ha hx hl => exact hs.same hs.cpus rfl fun _ _ h => h
  | stmt ha h =>
    obtain ⟨hk, hin⟩ := stmt_frame h
    exact hs.same (hs.cpus.congr hk) hk.current fun c _ h => (congrFun hin c).trans h
  | timer hrun hie => exact hs.trapped _
  | yield hrun hidle => exact hs.trapped _
  | @sched c ctx k rc htrap hidle h =>
    obtain ⟨hinv, next, hsw⟩ := kmtSchedule_ok hs.cpus h
    have hcur : ∀ d, d ≠ c → k.current d = s.spin.k.current d := fun d hd => by
      rw [hsw.current, update_of_ne hd]
    refine ⟨hinv, fun t d hw => ?_, hs.own, fun d hout => ?_⟩
    · by_cases hd : d = c
      · subst hd
        have hnone : (s.pc (.task t)).window = none := hsafe htrap t (hs.task t d hw)
        cases hnone.symm.trans hw
      · exact (hcur d hd).trans (hs.task t d hw)
    · have hd : d ≠ c := by
        rintro rfl
        exact hout (hok _ (agent_trap htrap))
      obtain ⟨hin, hcurrent⟩ := hs.trap d hout
      exact ⟨hin, fun t ht => hcurrent t ((hcur d hd).symm.trans ht)⟩
  | @iret c htrap hidle =>
    refine hs.same hs.cpus rfl fun d hd h => ?_
    have hne : d ≠ c := by
      rintro rfl
      exact hd (hok _ (agent_trap htrap))
    exact (update_of_ne hne ..).trans h

end

end NjuOs
