import NjuOs.Bags
import NjuOs.Buf
import NjuOs.Ring
import NjuOs.SemSound

/-!
# The bounded buffer neither overflows nor underflows

A producer that has passed `sem_empty` and not yet counted its item is granted a slot; one
that has counted it and not yet signalled owes a signal on `sem_fill`. Consumers do the
same with the semaphores exchanged. The number of threads in either place is what lies
between the counts of items and of semaphore operations.
-/

namespace NjuOs

open Function Option

/-! ## Semaphore steps -/

def SemSys.InWait (s : SemSys) (t : TaskRef) (i : Nat) : Prop := s.pc t = .yielding i ∨ s.pc t = .yielded i

structure SemQuiet (s s' : SemSys) : Prop where
  init : s'.init = s.init
  passed : s'.passed = s.passed
  signals : s'.signals = s.signals
  inWait : ∀ t i, s'.InWait t i → s.InWait t i

section
variable {s s' : SemSys} {c i : Nat} {t : TaskRef}

theorem not_inWait_update {pc : Pc} (hpc : pc = .run ∨ pc = .exited) (u : TaskRef) (j : Nat)
    (h : update s.pc t pc u = .yielding j ∨ update s.pc t pc u = .yielded j) : s.InWait u j := by
  by_cases hu : u = t
  · subst hu
    rw [update_self] at h
    rcases hpc with rfl | rfl <;> rcases h with h | h <;> cases h
  · rw [update_of_ne hu] at h
    exact h

theorem semQuiet_create {ctx : Context} (h : s.step (.create i ctx) = some s') : SemQuiet s s' := by
  simp only [SemSys.step] at h
  split at h
  · cases h
  · split at h
    · cases h
    · cases h
      exact ⟨rfl, rfl, rfl, not_inWait_update (Or.inl rfl)⟩

theorem semQuiet_timer {ctx : Context} (h : s.step (.timer c ctx) = some s') : SemQuiet s s' := by
  simp only [SemSys.step] at h
  split at h
  · cases h
  · cases h
    exact ⟨rfl, rfl, rfl, fun _ _ => id⟩

theorem semQuiet_yield {ctx : Context} (h : s.step (.yield c ctx) = some s') : SemQuiet s s' := by
  obtain ⟨t, -, h⟩ := bind_eq_some_iff.mp h
  obtain ⟨pc, hpc, h⟩ := bind_eq_some_iff.mp h
  split at h
  · cases h
  · cases h
    refine ⟨rfl, rfl, rfl, fun u j hu => ?_⟩
    by_cases he : u = t
    · subst he
      unfold SemSys.InWait at hu ⊢
      simp only [update_self] at hu
      cases hp : s.pc u <;> rw [hp] at hpc <;> cases hpc <;> simp_all
    · unfold SemSys.InWait at hu
      simp only [update_of_ne he] at hu
      exact hu

theorem semQuiet_exit (h : s.step (.exit c) = some s') : SemQuiet s s' := by
  obtain ⟨t, -, h⟩ := bind_eq_some_iff.mp h
  split at h
  · cases h
  · cases h
    exact ⟨rfl, rfl, rfl, not_inWait_update (Or.inr rfl)⟩

theorem wait_split (ht : s.thread c = some t) (h : s.step (.wait c i) = some s') :
    s'.init = s.init ∧ s'.signals = s.signals ∧
      (s'.pc = s.pc ∧ s'.passed = bump s.passed i ∨
        s'.pc = update s.pc t (.yielding i) ∧ s'.passed = s.passed) := by
  obtain ⟨u, hu, h⟩ := bind_eq_some_iff.mp h
  obtain ⟨v, -, h⟩ := bind_eq_some_iff.mp h
  rw [ht] at hu
  cases hu
  split at h
  · cases h
  · next k blocked _ =>
    cases h
    cases blocked with
    | false => exact ⟨rfl, rfl, Or.inl ⟨rfl, rfl⟩⟩
    | true => exact ⟨rfl, rfl, Or.inr ⟨rfl, rfl⟩⟩

theorem signal_frame (h : s.step (.signal c i) = some s') :
    s'.init = s.init ∧ s'.pc = s.pc ∧ s'.passed = s.passed ∧ s'.signals = bump s.signals i := by
  obtain ⟨u, -, h⟩ := bind_eq_some_iff.mp h
  obtain ⟨v, -, h⟩ := bind_eq_some_iff.mp h
  split at h
  · cases h
  · cases h
    exact ⟨rfl, rfl, rfl, rfl⟩

theorem ret_frame (ht : s.k.current c = some t) (h : s.step (.ret c) = some s') :
    ∃ i, s.pc t = .yielded i ∧ s' = { s with pc := update s.pc t .run, passed := bump s.passed i } := by
  obtain ⟨u, hu, h⟩ := bind_eq_some_iff.mp h
  rw [ht] at hu
  cases hu
  split at h
  · next i hpc =>
    cases h
    exact ⟨i, hpc, rfl⟩
  · cases h

end

/-! ## Index arithmetic -/

section
variable {cap n r w : Nat} {u : Int}

theorem ringSlot_eq {j : Nat} (h : ringSlot cap (n % (2 * cap) : Nat) = some j) : j = n % cap := by
  unfold ringSlot at h
  rw [← Int.ofNat_tmod, Nat.mod_mul_left_mod] at h
  split at h
  · cases h
    rfl
  · cases h

theorem ringNext_eq (h : ringNext cap (n % (2 * cap) : Nat) = .ok u) : u = ((n + 1) % (2 * cap) : Nat) := by
  obtain ⟨m, hm, h⟩ := bind_ok h
  obtain ⟨k, hk, h⟩ := bind_ok h
  obtain ⟨rfl, -⟩ := intOf_ok hm
  obtain ⟨rfl, -⟩ := intOf_ok hk
  cases h
  have hcast : ((n % (2 * cap) : Nat) : Int) + 1 = ((n % (2 * cap) + 1 : Nat) : Int) := by push_cast; rfl
  have hcap : (2 * (cap : Int)) = ((2 * cap : Nat) : Int) := by push_cast; rfl
  rw [hcast, hcap, ← Int.ofNat_tmod, Nat.mod_add_mod]

theorem ringUsed_eq (hle : r ≤ w) (hlt : w < r + 2 * cap)
    (h : ringUsed cap (w % (2 * cap) : Nat) (r % (2 * cap) : Nat) = .ok u) : u = w - r := by
  obtain ⟨m, hm, h⟩ := bind_ok h
  obtain ⟨d, hd, h⟩ := bind_ok h
  obtain ⟨e, he, h⟩ := bind_ok h
  obtain ⟨rfl, -⟩ := intOf_ok hm
  obtain ⟨rfl, -⟩ := intOf_ok hd
  obtain ⟨rfl, -⟩ := intOf_ok he
  cases h
  have hcap : (2 * (cap : Int)) = ((2 * cap : Nat) : Int) := by push_cast; rfl
  have hr : r % (2 * cap) < 2 * cap := Nat.mod_lt _ (by omega)
  rw [hcap, Int.tmod_eq_emod_of_nonneg (by omega), Int.add_emod_right]
  exact ring_sub hle hlt

end

/-! ## Places of a thread -/

def Role.waitsOn : Role → Nat
  | .producer => semEmpty
  | .consumer => semFill

def Role.wakes : Role → Nat
  | .producer => semFill
  | .consumer => semEmpty

def BufPc.waits : BufPc → Option Nat
  | .prod _ .wait => some semEmpty
  | .cons .wait => some semFill
  | _ => none

def BufPc.granted : BufPc → Option Role
  | .prod _ .lock | .prod _ .used | .prod _ (.check _) | .prod _ .store | .prod _ .advance | .prod _ .count =>
    some .producer
  | .cons .lock | .cons .check | .cons .read | .cons .advance | .cons .count => some .consumer
  | _ => none

def BufPc.owes : BufPc → Option Role
  | .prod _ .unlock | .prod _ .signal => some .producer
  | .cons (.unlock _) | .cons (.signal _) => some .consumer
  | _ => none

def BufPc.holds : BufPc → Bool
  | .prod _ .used | .prod _ (.check _) | .prod _ .store | .prod _ .advance | .prod _ .count | .prod _ .unlock => true
  | .cons .check | .cons .read | .cons .advance | .cons .count | .cons (.unlock _) => true
  | _ => false

/-- What the thread inside has stored, and taken, beyond the counts; `buf_head` and
`buf_tail` follow one statement later. -/
def BufPc.stored : BufPc → Nat
  | .prod _ .advance | .prod _ .count => 1
  | _ => 0

def BufPc.headed : BufPc → Nat
  | .prod _ .count => 1
  | _ => 0

def BufPc.taken : BufPc → Nat
  | .cons .advance | .cons .count => 1
  | _ => 0

def BufPc.tailed : BufPc → Nat
  | .cons .count => 1
  | _ => 0

def BufSys.total (s : BufSys) : Role → Nat
  | .producer => s.producedTotal
  | .consumer => s.consumedTotal

def BufSys.inside (s : BufSys) : BufPc :=
  match s.bufLock with
  | none => .out
  | some t => s.pc t

/-! ## Counting threads -/

theorem waitsOn_injective : Function.Injective Role.waitsOn := by
  intro r r' h
  cases r <;> cases r' <;> first | rfl | cases h

theorem wakes_injective : Function.Injective Role.wakes := by
  intro r r' h
  cases r <;> cases r' <;> first | rfl | cases h

structure Counts (pc : TaskRef → BufPc) (total : Role → Nat) (passed signals : Nat → Nat) : Prop where
  grant : ∀ r, Tally BufPc.granted r pc (total r) (passed r.waitsOn)
  owe : ∀ r, Tally BufPc.owes r pc (signals r.wakes) (total r)

section
variable {pc : TaskRef → BufPc} {total : Role → Nat} {passed signals : Nat → Nat} {t : TaskRef} {x y : BufPc}
variable {r : Role}

theorem Counts.same (h : Counts pc total passed signals) (hp : pc t = x) (hg : y.granted = x.granted)
    (ho : y.owes = x.owes) : Counts (update pc t y) total passed signals where
  grant := fun r => (h.grant r).same (by rw [hp, hg])
  owe := fun r => (h.owe r).same (by rw [hp, ho])

theorem Counts.pass (h : Counts pc total passed signals) (hp : pc t = x) (hg : x.granted = none)
    (hy : y.granted = some r) (ho : y.owes = x.owes) :
    Counts (update pc t y) total (bump passed r.waitsOn) signals where
  grant := Tally.enters waitsOn_injective h.grant (hp ▸ hg) hy
  owe := fun r => (h.owe r).same (by rw [hp, ho])

theorem Counts.count (h : Counts pc total passed signals) (hp : pc t = x) (hg : x.granted = some r)
    (ho : x.owes = none) (hy : y.granted = none) (hyo : y.owes = some r) :
    Counts (update pc t y) (update total r (total r + 1)) passed signals where
  grant := Tally.leaves Function.injective_id h.grant (hp ▸ hg) hy
  owe := Tally.enters Function.injective_id h.owe (hp ▸ ho) hyo

theorem Counts.signal (h : Counts pc total passed signals) (hp : pc t = x) (ho : x.owes = some r)
    (hy : y.owes = none) (hg : y.granted = x.granted) :
    Counts (update pc t y) total passed (bump signals r.wakes) where
  grant := fun r => (h.grant r).same (by rw [hp, hg])
  owe := Tally.leaves wakes_injective h.owe (hp ▸ ho) hy

end

/-! ## The invariant -/

structure RingOk (cap : Nat) (s : BufSys) (x : BufPc) : Prop where
  head : s.bufHead = ((s.producedTotal + x.headed) % (2 * cap) : Nat)
  tail : s.bufTail = ((s.consumedTotal + x.tailed) % (2 * cap) : Nat)
  slots : Window cap (s.consumedTotal + x.taken) (s.producedTotal + x.stored) s.full
  used : ∀ i u, x = .prod i (.check u) → u = (s.producedTotal : Int) - s.consumedTotal
  overflow : s.overflowSeen = false
  underflow : s.underflowSeen = false
  kept : s.clobbered = false

structure SemOk (b : BufTest) (sem : SemSys) : Prop where
  inv : ∃ q pend, SemInv sem q pend
  empty : sem.init semEmpty = some (b.cap : Int)
  fill : sem.init semFill = some 0

structure BufInv (b : BufTest) (s : BufSys) : Prop where
  sem : SemOk b s.sem
  waits : ∀ t i, s.sem.InWait t i → (s.pc t).waits = some i
  counts : Counts s.pc s.total s.sem.passed s.sem.signals
  lock : ∀ t, (s.pc t).holds = true ↔ s.bufLock = some t
  ring : RingOk b.cap s s.inside

section
variable {b : BufTest} {s s' : BufSys} {sem : SemSys} {t : TaskRef} {c : Nat} {x y : BufPc}

theorem SemOk.step {a : SemAct} (h : SemOk b s.sem) (hstep : s.sem.step a = some sem)
    (hinit : sem.init = s.sem.init) : SemOk b sem := by
  obtain ⟨q, pend, hinv⟩ := h.inv
  refine ⟨hinv.step hstep, ?_, ?_⟩
  · rw [hinit]
    exact h.empty
  · rw [hinit]
    exact h.fill

/-- Between nothing and `CAP` items; a thread that was granted one more can add, or take, it. -/
theorem BufInv.bounds (hs : BufInv b s) :
    s.consumedTotal ≤ s.producedTotal ∧ s.producedTotal ≤ s.consumedTotal + b.cap ∧
      (∀ t, (s.pc t).granted = some .producer → s.producedTotal < s.consumedTotal + b.cap) ∧
      ∀ t, (s.pc t).granted = some .consumer → s.consumedTotal < s.producedTotal := by
  obtain ⟨q, pend, hinv⟩ := hs.sem.inv
  have hempty := hinv.exact.passed _ _ hs.sem.empty
  have hfill := hinv.exact.passed _ _ hs.sem.fill
  have hprod := (hs.counts.grant .producer).le
  have hcons := (hs.counts.grant .consumer).le
  have howep := (hs.counts.owe .producer).le
  have howec := (hs.counts.owe .consumer).le
  simp only [Role.waitsOn, Role.wakes, BufSys.total] at hprod hcons howep howec
  refine ⟨by omega, by omega, fun t ht => ?_, fun t ht => ?_⟩
  · have hlt : s.producedTotal < s.sem.passed semEmpty := (hs.counts.grant .producer).lt ht
    omega
  · have hlt : s.consumedTotal < s.sem.passed semFill := (hs.counts.grant .consumer).lt ht
    omega

/-! ## Steps outside the lock -/

theorem RingOk.same {cap : Nat} {pc : TaskRef → BufPc} {lock : Option TaskRef} (hr : RingOk cap s x) :
    RingOk cap { s with sem := sem, pc := pc, bufLock := lock } x :=
  ⟨hr.head, hr.tail, hr.slots, hr.used, hr.overflow, hr.underflow, hr.kept⟩

/-- A move between places before, or behind, the same stores to the buffer. -/
theorem RingOk.moved {cap : Nat} {pc : TaskRef → BufPc} {lock : Option TaskRef} (hr : RingOk cap s x)
    (hhead : y.headed = x.headed) (htail : y.tailed = x.tailed) (htaken : y.taken = x.taken)
    (hstored : y.stored = x.stored) (hcheck : ∀ i u, y ≠ .prod i (.check u)) :
    RingOk cap { s with sem := sem, pc := pc, bufLock := lock } y where
  head := hhead ▸ hr.head
  tail := htail ▸ hr.tail
  slots := by
    rw [htaken, hstored]
    exact hr.slots
  used := fun i u h => absurd h (hcheck i u)
  overflow := hr.overflow
  underflow := hr.underflow
  kept := hr.kept

theorem BufInv.quiet (hs : BufInv b s) (hsem : SemOk b sem) (h : SemQuiet s.sem sem) :
    BufInv b { s with sem := sem } where
  sem := hsem
  waits := fun t i ht => hs.waits t i (h.inWait t i ht)
  counts := by
    simp only [h.passed, h.signals]
    exact hs.counts
  lock := hs.lock
  ring := hs.ring.same

/-- A thread that has not got the lock moves from one place to another. -/
theorem BufInv.outside (hs : BufInv b s) (hsem : SemOk b sem) (hrun : sem.pc t = .run)
    (hin : ∀ u i, u ≠ t → sem.InWait u i → s.sem.InWait u i) (hp : s.pc t = x) (hx : x.holds = false)
    (hy : y.holds = false) (hcounts : Counts (update s.pc t y) s.total sem.passed sem.signals) :
    BufInv b ({ s with sem := sem }.goto t y) := by
  rw [← hp] at hx
  have hinside : ({ s with sem := sem }.goto t y).inside = s.inside := by
    unfold BufSys.inside BufSys.goto
    cases hl : s.bufLock with
    | none => rfl
    | some u =>
      have hne : u ≠ t := by
        intro he
        rw [he] at hl
        rw [(hs.lock t).mpr hl] at hx
        cases hx
      simp only [update_of_ne hne]
  constructor
  case sem => exact hsem
  case waits =>
    intro u i hu
    have hne : u ≠ t := by
      intro he
      rw [he] at hu
      rcases hu with hu | hu <;> cases hrun.symm.trans hu
    simp only [BufSys.goto, update_of_ne hne]
    exact hs.waits u i (hin u i hne hu)
  case counts => exact hcounts
  case lock =>
    intro u
    by_cases hu : u = t
    · subst hu
      simp only [BufSys.goto, update_self, hy, ← hs.lock u, hx]
    · simp only [BufSys.goto, update_of_ne hu]
      exact hs.lock u
  case ring =>
    rw [hinside]
    exact hs.ring.same

theorem BufInv.wait {r : Role} (hs : BufInv b s) (ht : s.sem.thread c = some t) (hrun : s.sem.pc t = .run)
    (hp : s.pc t = x) (hw : x.waits = some r.waitsOn) (hx : x.holds = false) (hg : x.granted = none)
    (hy : y.holds = false) (hyg : y.granted = some r) (hyo : y.owes = x.owes)
    (h : s.wait c t r.waitsOn y = some s') : BufInv b s' := by
  obtain ⟨sem, hsem, h⟩ := bind_eq_some_iff.mp h
  cases h
  obtain ⟨hinit, hsig, hcase⟩ := wait_split ht hsem
  have hok := hs.sem.step hsem hinit
  rcases hcase with ⟨hpc, hpass⟩ | ⟨hpc, hpass⟩
  · have hrun' : sem.pc t = .run := by rw [hpc, hrun]
    rw [if_pos hrun']
    refine hs.outside hok hrun' ?_ hp hx hy ?_
    · intro u i _ hu
      unfold SemSys.InWait at hu
      rw [hpc] at hu
      exact hu
    · rw [hpass, hsig]
      exact hs.counts.pass hp hg hyg hyo
  · have hrun' : sem.pc t ≠ .run := by
      rw [hpc, update_self]
      exact Pc.noConfusion
    -- the thread stays at its wait: nothing was granted yet
    rw [if_neg hrun']
    constructor
    case sem => exact hok
    case waits =>
      intro u i hu
      by_cases he : u = t
      · subst he
        unfold SemSys.InWait at hu
        simp only [hpc, update_self] at hu
        rcases hu with hu | hu <;> cases hu
        rw [← hp] at hw
        exact hw
      · unfold SemSys.InWait at hu
        simp only [hpc, update_of_ne he] at hu
        exact hs.waits u i hu
    case counts =>
      simp only [hpass, hsig]
      exact hs.counts
    case lock => exact hs.lock
    case ring => exact hs.ring.same

theorem BufInv.signal {r : Role} (hs : BufInv b s) (hrun : s.sem.pc t = .run) (hp : s.pc t = x)
    (hx : x.holds = false) (ho : x.owes = some r) (hy : y.holds = false) (hyo : y.owes = none)
    (hyg : y.granted = x.granted)
    (h : s.signal c t r.wakes y = some s') : BufInv b s' := by
  obtain ⟨sem, hsem, h⟩ := bind_eq_some_iff.mp h
  cases h
  obtain ⟨hinit, hpc, hpass, hsig⟩ := signal_frame hsem
  refine hs.outside (hs.sem.step hsem hinit) (by rw [hpc, hrun]) ?_ hp hx hy ?_
  · intro u i _ hu
    unfold SemSys.InWait at hu
    rw [hpc] at hu
    exact hu
  · rw [hpass, hsig]
    exact hs.counts.signal hp ho hyo hyg

/-! ## Steps under the lock -/

theorem BufInv.statement (hs : BufInv b s) (hrun : s.sem.pc t = .run) (hsem : s'.sem = s.sem)
    (hpc : s'.pc = update s.pc t y) (hcounts : Counts s'.pc s'.total s.sem.passed s.sem.signals)
    (hlock : ∀ u, (update s.pc t y u).holds = true ↔ s'.bufLock = some u)
    (hring : RingOk b.cap s' s'.inside) : BufInv b s' := by
  constructor
  case sem =>
    rw [hsem]
    exact hs.sem
  case waits =>
    intro u i hu
    rw [hsem] at hu
    have hne : u ≠ t := by
      intro he
      rw [he] at hu
      rcases hu with hu | hu <;> cases hrun.symm.trans hu
    rw [hpc, update_of_ne hne]
    exact hs.waits u i hu
  case counts =>
    rw [hsem]
    exact hcounts
  case lock =>
    rw [hpc]
    exact hlock
  case ring => exact hring

theorem BufInv.acquire (hs : BufInv b s) (hrun : s.sem.pc t = .run) (hfree : s.bufLock = none)
    (hp : s.pc t = x) (hy : y.holds = true) (hyg : y.granted = x.granted) (hyo : y.owes = x.owes)
    (hring : RingOk b.cap s .out → RingOk b.cap { s.goto t y with bufLock := some t } y) :
    BufInv b { s.goto t y with bufLock := some t } := by
  have hinside : s.inside = .out := by rw [BufSys.inside, hfree]
  refine hs.statement (y := y) hrun rfl rfl (hs.counts.same hp hyg hyo) ?_ ?_
  · intro u
    by_cases hu : u = t
    · subst hu
      simp [hy]
    · have hno := hs.lock u
      rw [hfree] at hno
      simp only [update_of_ne hu, some.injEq, Ne.symm hu, iff_false]
      intro hh
      cases hno.mp hh
  · have hx : BufSys.inside { s.goto t y with bufLock := some t } = y := update_self ..
    rw [hx]
    exact hring (hinside ▸ hs.ring)

/-- The thread with the lock sees the buffer as it left it. -/
theorem BufInv.mine (hs : BufInv b s) (hp : s.pc t = x) (hx : x.holds = true) : RingOk b.cap s x := by
  have hl := (hs.lock t).mp (hp ▸ hx)
  have hinside : s.inside = x := by
    rw [BufSys.inside, hl]
    exact hp
  exact hinside ▸ hs.ring

theorem BufInv.release (hs : BufInv b s) (hrun : s.sem.pc t = .run) (hp : s.pc t = x) (hx : x.holds = true)
    (hy : y.holds = false) (hyg : y.granted = x.granted) (hyo : y.owes = x.owes)
    (hring : RingOk b.cap (s.unlock t y) .out) : BufInv b (s.unlock t y) := by
  have hl := (hs.lock t).mp (hp ▸ hx)
  refine hs.statement (y := y) hrun rfl rfl (hs.counts.same hp hyg hyo) ?_ hring
  intro u
  by_cases hu : u = t
  · subst hu
    simp [hy, BufSys.unlock]
  · have hno := hs.lock u
    rw [hl] at hno
    simp only [update_of_ne hu, BufSys.unlock, reduceCtorEq, iff_false]
    intro hh
    cases hno.mp hh
    exact hu rfl

theorem BufInv.holding (hs : BufInv b s) (hrun : s.sem.pc t = .run) (hp : s.pc t = x) (hx : x.holds = true)
    (hy : y.holds = true) (hsem : s'.sem = s.sem) (hpc : s'.pc = update s.pc t y)
    (hlock : s'.bufLock = s.bufLock) (hcounts : Counts s'.pc s'.total s.sem.passed s.sem.signals)
    (hring : RingOk b.cap s' y) : BufInv b s' := by
  have hl := (hs.lock t).mp (hp ▸ hx)
  have hinside : s'.inside = y := by
    rw [BufSys.inside, hlock, hl, hpc]
    exact update_self ..
  refine hs.statement hrun hsem hpc hcounts ?_ ?_
  · intro u
    rw [hlock, ← hs.lock u]
    by_cases hu : u = t
    · rw [hu, update_self, hp, hx, hy]
    · rw [update_of_ne hu]
  · rw [hinside]
    exact hring

/-! ## The two programs -/

structure BufPc.Free (x : BufPc) : Prop where
  holds : x.holds = false
  owes : x.owes = none
  granted : x.granted = none

theorem item_free (b : BufTest) (i : Nat) : (b.item i).Free := by
  unfold BufTest.item
  split <;> exact ⟨rfl, rfl, rfl⟩

theorem total_produced (s : BufSys) (n : Nat) :
    BufSys.total { s with producedTotal := n } = update s.total .producer n := by
  funext r
  cases r <;> rfl

theorem total_consumed (s : BufSys) (n : Nat) :
    BufSys.total { s with consumedTotal := n } = update s.total .consumer n := by
  funext r
  cases r <;> rfl

theorem BufInv.produce {i : Nat} {p : ProdPc} (hs : BufInv b s) (ht : s.sem.thread c = some t)
    (hrun : s.sem.pc t = .run) (hp : s.pc t = .prod i p) (h : s.produce b c t i p = some s') : BufInv b s' := by
  obtain ⟨hle, -, hroom, -⟩ := hs.bounds
  have hroom := hroom t
  rw [hp] at hroom
  cases p <;> simp only [BufSys.produce] at h
  case wait => exact hs.wait (r := .producer) (y := .prod i .lock) ht hrun hp rfl rfl rfl rfl rfl rfl h
  case lock =>
    cases h
    unfold BufSys.lock
    split
    · next hfree =>
      exact hs.acquire hrun hfree hp rfl rfl rfl fun hr => hr.moved rfl rfl rfl rfl nofun
    · exact hs
  case used =>
    obtain ⟨u, hu, h⟩ := bind_eq_some_iff.mp h
    cases h
    have hlt := hroom rfl
    have hr := hs.mine hp rfl
    have hu := toOption_some hu
    rw [hr.head, hr.tail] at hu
    have hused : u = (s.producedTotal : Int) - s.consumedTotal := ringUsed_eq hle (by omega) hu
    refine hs.holding hrun hp rfl rfl rfl rfl rfl (hs.counts.same hp rfl rfl) ?_
    refine ⟨hr.head, hr.tail, hr.slots, ?_, hr.overflow, hr.underflow, hr.kept⟩
    intro j v hv
    cases hv
    exact hused
  case check u =>
    have hlt := hroom rfl
    have hr := hs.mine hp rfl
    have hused := hr.used i u rfl
    -- a producer that has passed `sem_empty` finds room
    rw [if_neg (by omega)] at h
    cases h
    exact hs.holding hrun hp rfl rfl rfl rfl rfl (hs.counts.same hp rfl rfl) (hr.moved rfl rfl rfl rfl nofun)
  case store =>
    obtain ⟨j, hj, h⟩ := bind_eq_some_iff.mp h
    cases h
    have hr := hs.mine hp rfl
    rw [hr.head] at hj
    cases ringSlot_eq hj
    refine hs.holding hrun hp rfl rfl rfl rfl rfl (hs.counts.same hp rfl rfl) ?_
    refine ⟨hr.head, hr.tail, hr.slots.store hle, nofun, hr.overflow, hr.underflow, ?_⟩
    simp only [hr.kept, Bool.false_or]
    exact hr.slots.free (hroom rfl)
  case advance =>
    obtain ⟨n, hn, h⟩ := bind_eq_some_iff.mp h
    cases h
    have hr := hs.mine hp rfl
    have hn := toOption_some hn
    rw [hr.head] at hn
    refine hs.holding hrun hp rfl rfl rfl rfl rfl (hs.counts.same hp rfl rfl) ?_
    exact ⟨ringNext_eq hn, hr.tail, hr.slots, nofun, hr.overflow, hr.underflow, hr.kept⟩
  case count =>
    split at h
    · cases h
      have hr := hs.mine hp rfl
      refine hs.holding hrun hp rfl rfl rfl rfl rfl ?_ ?_
      · rw [total_produced]
        exact hs.counts.count hp rfl rfl rfl rfl
      · exact ⟨hr.head, hr.tail, hr.slots, nofun, hr.overflow, hr.underflow, hr.kept⟩
    · cases h
  case unlock =>
    cases h
    exact hs.release hrun hp rfl rfl rfl rfl ((hs.mine hp rfl).moved rfl rfl rfl rfl nofun)
  case signal =>
    have hfree := item_free b (i + 1)
    exact hs.signal (r := .producer) hrun hp rfl rfl hfree.holds hfree.owes hfree.granted h

theorem BufInv.consume {p : ConsPc} (hs : BufInv b s) (ht : s.sem.thread c = some t) (hrun : s.sem.pc t = .run)
    (hp : s.pc t = .cons p) (h : s.consume b c t p = some s') : BufInv b s' := by
  obtain ⟨-, hcap, -, hitem⟩ := hs.bounds
  have hitem := hitem t
  rw [hp] at hitem
  cases p <;> simp only [BufSys.consume] at h
  case wait => exact hs.wait (r := .consumer) (y := .cons .lock) ht hrun hp rfl rfl rfl rfl rfl rfl h
  case lock =>
    cases h
    unfold BufSys.lock
    split
    · next hfree =>
      exact hs.acquire hrun hfree hp rfl rfl rfl fun hr => hr.moved rfl rfl rfl rfl nofun
    · exact hs
  case check =>
    have hlt := hitem rfl
    have hr := hs.mine hp rfl
    -- a consumer that has passed `sem_fill` finds an item
    have hne : ¬(s.goto t (.cons .read)).bufHead = (s.goto t (.cons .read)).bufTail := by
      intro he
      have he := hr.head.symm.trans (he.trans hr.tail)
      exact slots_distinct hlt (by omega) (Int.ofNat.inj he).symm
    rw [if_neg hne] at h
    cases h
    exact hs.holding hrun hp rfl rfl rfl rfl rfl (hs.counts.same hp rfl rfl) (hr.moved rfl rfl rfl rfl nofun)
  case read =>
    obtain ⟨j, hj, h⟩ := bind_eq_some_iff.mp h
    cases h
    have hr := hs.mine hp rfl
    rw [hr.tail] at hj
    cases ringSlot_eq hj
    refine hs.holding hrun hp rfl rfl rfl rfl rfl (hs.counts.same hp rfl rfl) ?_
    exact ⟨hr.head, hr.tail, hr.slots.take hcap, nofun, hr.overflow, hr.underflow, hr.kept⟩
  case advance =>
    obtain ⟨n, hn, h⟩ := bind_eq_some_iff.mp h
    cases h
    have hr := hs.mine hp rfl
    have hn := toOption_some hn
    rw [hr.tail] at hn
    refine hs.holding hrun hp rfl rfl rfl rfl rfl (hs.counts.same hp rfl rfl) ?_
    exact ⟨hr.head, ringNext_eq hn, hr.slots, nofun, hr.overflow, hr.underflow, hr.kept⟩
  case count =>
    split at h
    · cases h
      have hr := hs.mine hp rfl
      refine hs.holding hrun hp rfl rfl rfl rfl rfl ?_ ?_
      · rw [total_consumed]
        exact hs.counts.count hp rfl rfl rfl rfl
      · exact ⟨hr.head, hr.tail, hr.slots, nofun, hr.overflow, hr.underflow, hr.kept⟩
    · cases h
  case unlock =>
    cases h
    exact hs.release hrun hp rfl rfl rfl rfl ((hs.mine hp rfl).moved rfl rfl rfl rfl nofun)
  case signal d => exact hs.signal (r := .consumer) (y := .cons (.test d)) hrun hp rfl rfl rfl rfl rfl h
  case test d =>
    cases h
    have hend : ∀ y : BufPc, y.Free → BufInv b (s.goto t y) := fun y hy =>
      hs.outside hs.sem hrun (fun _ _ _ => id) hp rfl hy.holds (hs.counts.same hp hy.granted hy.owes)
    split
    · exact hend _ ⟨rfl, rfl, rfl⟩
    · exact hend _ ⟨rfl, rfl, rfl⟩

theorem BufInv.ret (hs : BufInv b s) (ht : s.sem.k.current c = some t) (h : s.sem.step (.ret c) = some sem) :
    BufInv b ({ s with sem := sem }.goto t (s.pc t).resume) := by
  obtain ⟨i, hpc, rfl⟩ := ret_frame ht h
  have hok := hs.sem.step h rfl
  have hwait := hs.waits t i (Or.inr hpc)
  have hin : ∀ u j, u ≠ t → SemSys.InWait
      { s.sem with pc := update s.sem.pc t .run, passed := bump s.sem.passed i } u j → s.sem.InWait u j := by
    intro u j hu hw
    exact not_inWait_update (Or.inl rfl) u j hw
  cases hp : s.pc t with
  | prod n p =>
    rw [hp] at hwait
    cases p <;> cases hwait
    exact hs.outside hok (update_self ..) hin hp rfl rfl
      (hs.counts.pass (r := .producer) hp rfl rfl rfl)
  | cons p =>
    rw [hp] at hwait
    cases p <;> cases hwait
    exact hs.outside hok (update_self ..) hin hp rfl rfl
      (hs.counts.pass (r := .consumer) hp rfl rfl rfl)
  | out =>
    rw [hp] at hwait
    cases hwait
  | ended =>
    rw [hp] at hwait
    cases hwait

theorem BufInv.step {a : BufAct} (hs : BufInv b s) (h : b.step s a = some s') : BufInv b s' := by
  cases a with
  | create i ctx =>
    obtain ⟨sem, hsem, h⟩ := bind_eq_some_iff.mp h
    cases h
    have hq := semQuiet_create hsem
    exact hs.quiet (hs.sem.step hsem hq.init) hq
  | timer c ctx =>
    obtain ⟨sem, hsem, h⟩ := bind_eq_some_iff.mp h
    cases h
    have hq := semQuiet_timer hsem
    exact hs.quiet (hs.sem.step hsem hq.init) hq
  | yield c ctx =>
    obtain ⟨sem, hsem, h⟩ := bind_eq_some_iff.mp h
    cases h
    have hq := semQuiet_yield hsem
    exact hs.quiet (hs.sem.step hsem hq.init) hq
  | ret c =>
    obtain ⟨t, ht, h⟩ := bind_eq_some_iff.mp h
    obtain ⟨sem, hsem, h⟩ := bind_eq_some_iff.mp h
    cases h
    exact hs.ret ht hsem
  | work c =>
    obtain ⟨t, ht, h⟩ := bind_eq_some_iff.mp h
    obtain ⟨j, rfl, -, hrun⟩ := thread_some ht
    unfold BufSys.work at h
    split at h
    · cases h
    · next hp => exact hs.produce ht hrun hp h
    · next hp => exact hs.consume ht hrun hp h
    · obtain ⟨sem, hsem, h⟩ := bind_eq_some_iff.mp h
      cases h
      have hq := semQuiet_exit hsem
      exact hs.quiet (hs.sem.step hsem hq.init) hq

theorem bufInv_start (b : BufTest) : BufInv b b.start := by
  have hentry : ∀ t, (b.start.pc t).Free := by
    intro t
    cases t with
    | kernel j =>
      change (b.entry (b.role j)).Free
      cases b.role j with
      | producer => exact item_free b 0
      | consumer => exact ⟨rfl, rfl, rfl⟩
    | _ => exact ⟨rfl, rfl, rfl⟩
  constructor
  case sem =>
    refine ⟨⟨_, _, (semInv_start.semInit rfl (Int.natCast_nonneg b.cap)).semInit ?_ (le_refl 0)⟩, ?_, ?_⟩
    · rfl
    · rfl
    · rfl
  case waits =>
    intro t i h
    rcases h with h | h <;> cases h
  case counts =>
    constructor
    · intro r
      cases r <;> exact tally_none (fun t => (hentry t).granted) 0
    · intro r
      cases r <;> exact tally_none (fun t => (hentry t).owes) 0
  case lock =>
    intro t
    rw [(hentry t).holds]
    exact ⟨nofun, nofun⟩
  case ring =>
    refine ⟨?_, ?_, ?_, nofun, rfl, rfl, rfl⟩
    · simp [BufTest.start, BufSys.inside, BufPc.headed]
    · simp [BufTest.start, BufSys.inside, BufPc.tailed]
    · intro j
      simp [BufTest.start, BufSys.inside, BufPc.taken, BufPc.stored]

/-- The buffer holds what was produced and not consumed, never more than `CAP` items, and no
item is lost. -/
theorem buffer_bounded {as : List BufAct} (hcap : 1 ≤ b.cap) (hr : run b.step b.start as = some s) :
    (s.bufLock = none →
      0 ≤ (s.bufHead - s.bufTail) % (2 * b.cap) ∧ (s.bufHead - s.bufTail) % (2 * b.cap) ≤ b.cap ∧
        (s.bufHead - s.bufTail) % (2 * b.cap) = s.producedTotal - s.consumedTotal) ∧
      s.overflowSeen = false ∧ s.underflowSeen = false ∧ s.clobbered = false := by
  have hs : BufInv b s := run_inv (fun _ _ _ hs h => hs.step h) as _ _ (bufInv_start b) hr
  obtain ⟨hle, hbound, -, -⟩ := hs.bounds
  refine ⟨fun hfree => ?_, hs.ring.overflow, hs.ring.underflow, hs.ring.kept⟩
  have hinside : s.inside = .out := by rw [BufSys.inside, hfree]
  have hring : RingOk b.cap s .out := hinside ▸ hs.ring
  have hdiff : (s.bufHead - s.bufTail) % (2 * b.cap) = s.producedTotal - s.consumedTotal := by
    rw [hring.head, hring.tail]
    exact ring_sub (r := s.consumedTotal) (w := s.producedTotal) hle (by omega)
  rw [hdiff]
  exact ⟨by omega, by omega, rfl⟩

def oneSlot : BufTest := ⟨1, 2, 2, fun j => if j = 0 then .consumer else .producer⟩

def oneSlotActs : List BufAct :=
  [[.create 0 blankContext, .create 1 blankContext, .timer 0 blankContext, .timer 1 blankContext, .work 1,
      .yield 1 blankContext],
    List.replicate 9 (.work 0), [.timer 1 blankContext, .ret 1], List.replicate 7 (.work 1),
    List.replicate 8 (.work 0)].flatten

theorem buffer_bounded_oneSlot : ∃ s, run oneSlot.step oneSlot.start oneSlotActs = some s ∧
    s.producedTotal = 2 ∧ s.consumedTotal = 1 ∧ (s.bufHead - s.bufTail) % 2 = 1 ∧ s.clobbered = false := by
  have hrun : ((run oneSlot.step oneSlot.start oneSlotActs).any fun s =>
      s.bufLock = none ∧ s.producedTotal = 2 ∧ s.consumedTotal = 1) = true := by decide +kernel
  obtain ⟨s, hs, h⟩ := (any_eq_true _ _).mp hrun
  obtain ⟨hfree, hp, hc⟩ := of_decide_eq_true h
  obtain ⟨hring, -, -, hkept⟩ := buffer_bounded (b := oneSlot) (by decide) hs
  have hdiff := (hring hfree).2.2
  rw [hp, hc] at hdiff
  exact ⟨s, hs, hp, hc, hdiff, hkept⟩

end

end NjuOs
