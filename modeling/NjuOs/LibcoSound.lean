import Mathlib.Data.List.GetD
import NjuOs.Libco
import NjuOs.RoundRobin

/-!
# Coroutines run in turn

`main` is never dead, so `schedule` finds a coroutine on every call; what it finds is the
next one of the ring. Between two turns of a coroutine every other one that stays alive is
ahead of it at first and has had its turn at the end.
-/

namespace NjuOs

open Function List Option

namespace Libco

/-! ## The scheduler -/

theorem cands_eq_turn {s : Libco} {x : Nat} (hx : x ∈ s.pool) : s.cands x = turn x s.pool := by
  obtain ⟨A, B, hpool, hA⟩ := eq_append_cons_of_mem hx
  have hslot : s.slot x = A.length := by
    rw [slot, if_pos hx, hpool, idxOf_append_of_notMem hA, idxOf_cons_self, Nat.add_zero]
  rw [hpool, turn_eq_rotate hA, ← hpool]
  apply ext_getElem
  · rw [cands, length_map, length_range, length_rotate]
  · intro i hi hi'
    have hlen : 0 < s.pool.length := length_pos_of_mem hx
    have hlt : (s.slot x + (i + 1)) % s.pool.length < s.pool.length := Nat.mod_lt _ hlen
    simp only [cands, getElem_map, getElem_range]
    rw [getD_eq_getElem _ _ hlt, getElem_rotate]
    congr 2
    rw [hslot]
    omega

/-! ## Invariants -/

structure Told (status : Nat → CoStatus) (next : Nat) (entered returned removed : List Nat) : Prop where
  main_running : status 0 = .running
  not_waiting : ∀ c, status c ≠ .waiting
  fresh : ∀ c, next ≤ c → status c = .new
  entered_iff : ∀ c, 0 < c → c < next → (c ∈ entered ↔ status c ≠ .new)
  entered_nodup : entered.Nodup
  entered_lt : ∀ c ∈ entered, c < next
  returned_iff : ∀ c, c < next → (c ∈ returned ↔ status c = .dead)
  returned_lt : ∀ c ∈ returned, c < next
  removed_dead : ∀ c ∈ removed, status c = .dead

section
variable {status : Nat → CoStatus} {next : Nat} {entered returned removed : List Nat} {x : Nat}

theorem Told.lt_of_dead (h : Told status next entered returned removed) (hdead : status x = .dead) : x < next := by
  refine Nat.lt_of_not_le fun hle => ?_
  cases hdead.symm.trans (h.fresh x hle)

theorem Told.start (h : Told status next entered returned removed) (hn : 0 < next) :
    Told (update status next .new) (next + 1) entered returned removed := by
  have hold : ∀ c, c < next → update status next .new c = status c := fun c hc =>
    update_of_ne (Nat.ne_of_lt hc) _ _
  have hself : update status next .new next = .new := update_self _ _ _
  constructor
  case main_running => rw [hold 0 hn, h.main_running]
  case not_waiting =>
    intro c
    by_cases hc : c = next
    · rw [hc, hself]
      decide
    · rw [update_of_ne hc]
      exact h.not_waiting c
  case fresh =>
    intro c hc
    rw [update_of_ne (Nat.ne_of_gt hc)]
    exact h.fresh c (Nat.le_of_succ_le hc)
  case entered_iff =>
    intro c hc0 hc
    rcases Nat.lt_succ_iff_lt_or_eq.mp hc with hlt | rfl
    · rw [hold c hlt]
      exact h.entered_iff c hc0 hlt
    · exact iff_of_false (fun he => Nat.lt_irrefl _ (h.entered_lt c he)) (not_not.mpr hself)
  case entered_nodup => exact h.entered_nodup
  case entered_lt => exact fun c hc => Nat.lt_succ_of_lt (h.entered_lt c hc)
  case returned_iff =>
    intro c hc
    rcases Nat.lt_succ_iff_lt_or_eq.mp hc with hlt | rfl
    · rw [hold c hlt]
      exact h.returned_iff c hlt
    · refine iff_of_false (fun he => Nat.lt_irrefl _ (h.returned_lt c he)) ?_
      rw [hself]
      decide
  case returned_lt => exact fun c hc => Nat.lt_succ_of_lt (h.returned_lt c hc)
  case removed_dead =>
    intro c hc
    have hdead := h.removed_dead c hc
    rw [hold c (h.lt_of_dead hdead)]
    exact hdead

theorem Told.enter (h : Told status next entered returned removed) (hx : x < next) (hnew : status x = .new) :
    Told (update status x .running) next (entered ++ [x]) returned removed := by
  have hx0 : 0 ≠ x := by
    rintro rfl
    cases hnew.symm.trans h.main_running
  have hold : ∀ c, c ≠ x → update status x .running c = status c := fun c hc =>
    update_of_ne hc _ _
  have hself : update status x .running x = .running := update_self _ _ _
  have hnot : x ∉ entered := fun hmem => (h.entered_iff x (Nat.pos_of_ne_zero hx0.symm) hx).mp hmem hnew
  constructor
  case main_running => rw [hold 0 hx0, h.main_running]
  case not_waiting =>
    intro c
    by_cases hc : c = x
    · rw [hc, hself]
      decide
    · rw [hold c hc]
      exact h.not_waiting c
  case fresh =>
    intro c hc
    rw [hold c (Nat.ne_of_gt (Nat.lt_of_lt_of_le hx hc))]
    exact h.fresh c hc
  case entered_iff =>
    intro c hc0 hc
    rw [mem_append, mem_singleton]
    by_cases hcx : c = x
    · refine iff_of_true (Or.inr hcx) ?_
      rw [hcx, hself]
      decide
    · rw [or_iff_left hcx, hold c hcx]
      exact h.entered_iff c hc0 hc
  case entered_nodup =>
    rw [← concat_eq_append]
    exact h.entered_nodup.concat hnot
  case entered_lt =>
    intro c hc
    rcases mem_append.mp hc with hc | hc
    · exact h.entered_lt c hc
    · rw [mem_singleton.mp hc]
      exact hx
  case returned_iff =>
    intro c hc
    by_cases hcx : c = x
    · have hno := h.returned_iff x hx
      rw [hnew] at hno
      rw [hcx, hself, hno]
      decide
    · rw [hold c hcx]
      exact h.returned_iff c hc
  case returned_lt => exact h.returned_lt
  case removed_dead =>
    intro c hc
    have hdead := h.removed_dead c hc
    have hcx : c ≠ x := by
      rintro rfl
      cases hnew.symm.trans hdead
    exact (hold c hcx).trans hdead

theorem Told.finish (h : Told status next entered returned removed) (hx : x < next) (hrun : status x = .running)
    (h0 : x ≠ 0) : Told (update status x .dead) next entered (returned ++ [x]) removed := by
  have hold : ∀ c, c ≠ x → update status x .dead c = status c := fun c hc => update_of_ne hc _ _
  have hself : update status x .dead x = .dead := update_self _ _ _
  constructor
  case main_running => rw [hold 0 (Ne.symm h0), h.main_running]
  case not_waiting =>
    intro c
    by_cases hc : c = x
    · rw [hc, hself]
      decide
    · rw [hold c hc]
      exact h.not_waiting c
  case fresh =>
    intro c hc
    rw [hold c (Nat.ne_of_gt (Nat.lt_of_lt_of_le hx hc))]
    exact h.fresh c hc
  case entered_iff =>
    intro c hc0 hc
    by_cases hcx : c = x
    · have hyes := h.entered_iff c hc0 hc
      rw [hcx, hrun] at hyes
      rw [hcx, hself, hyes]
      decide
    · rw [hold c hcx]
      exact h.entered_iff c hc0 hc
  case entered_nodup => exact h.entered_nodup
  case entered_lt => exact h.entered_lt
  case returned_iff =>
    intro c hc
    rw [mem_append, mem_singleton]
    by_cases hcx : c = x
    · exact iff_of_true (Or.inr hcx) (hcx ▸ hself)
    · rw [or_iff_left hcx, hold c hcx]
      exact h.returned_iff c hc
  case returned_lt =>
    intro c hc
    rcases mem_append.mp hc with hc | hc
    · exact h.returned_lt c hc
    · rw [mem_singleton.mp hc]
      exact hx
  case removed_dead =>
    intro c hc
    by_cases hcx : c = x
    · rw [hcx, hself]
    · exact (hold c hcx).trans (h.removed_dead c hc)

theorem Told.remove (h : Told status next entered returned removed) (hdead : status x = .dead) :
    Told status next entered returned (removed ++ [x]) := by
  refine ⟨h.main_running, h.not_waiting, h.fresh, h.entered_iff, h.entered_nodup, h.entered_lt, h.returned_iff,
    h.returned_lt, fun c hc => ?_⟩
  rcases mem_append.mp hc with hc | hc
  · exact h.removed_dead c hc
  · rw [mem_singleton.mp hc]
    exact hdead

end

structure Core (s : Libco) : Prop where
  init : s.initialized = true
  exited : s.exited = false
  nodup : s.pool.Nodup
  mem : ∀ c, c ∈ s.pool ↔ c < s.next ∧ c ∉ s.removed
  current : ∃ x ∈ s.pool, s.current = some x
  told : Told s.status s.next s.entered s.returned s.removed
  next : 0 < s.next

structure Inv (s : Libco) : Prop extends Core s where
  running : ∀ x, s.current = some x → s.status x = .running

section
variable {s s' : Libco}

theorem Core.main (h : Core s) : 0 ∈ s.pool := by
  refine (h.mem 0).mpr ⟨h.next, fun hr => ?_⟩
  exact nomatch h.told.main_running.symm.trans (h.told.removed_dead 0 hr)

theorem Core.lt (h : Core s) {c : Nat} (hc : c ∈ s.pool) : c < s.next := ((h.mem c).mp hc).1

theorem Core.schedule (h : Core s) {x : Nat} (hx : s.current = some x) :
    ∃ y ∈ s.pool, (turn x s.pool).find? s.runnable = some y ∧ s.schedule = s.dispatch y := by
  have hmem : x ∈ s.pool := by
    obtain ⟨z, hz, hcur⟩ := h.current
    rw [hx] at hcur
    cases hcur
    exact hz
  have hmain : s.runnable 0 = true := by
    rw [runnable, h.told.main_running]
    rfl
  cases hf : (turn x s.pool).find? s.runnable with
  | none =>
    have hno := find?_eq_none.mp hf 0 ((mem_turn hmem).mpr h.main)
    exact absurd hmain hno
  | some y =>
    refine ⟨y, (mem_turn hmem).mp (mem_of_find?_eq_some hf), rfl, ?_⟩
    unfold Libco.schedule
    rw [hx]
    simp only [cands_eq_turn hmem, hf]

theorem Core.dispatch (h : Core s) {y : Nat} (hy : y ∈ s.pool) (hrun : s.runnable y = true) :
    Inv (s.dispatch y) := by
  unfold Libco.dispatch
  by_cases hnew : s.status y = .new
  · rw [if_pos hnew]
    refine ⟨⟨h.init, h.exited, h.nodup, h.mem, ⟨y, hy, rfl⟩, h.told.enter (h.lt hy) hnew, h.next⟩, ?_⟩
    intro x hx
    cases hx
    exact update_self _ _ _
  · rw [if_neg hnew]
    refine ⟨⟨h.init, h.exited, h.nodup, h.mem, ⟨y, hy, rfl⟩, h.told, h.next⟩, ?_⟩
    intro x hx
    cases hx
    exact (of_decide_eq_true hrun).resolve_left hnew

/-! ## Steps -/

/-- What the library does in one step: it starts a coroutine, takes a dead one out of the pool,
or calls the scheduler, from `co_yield` or after a function has returned. -/
inductive Move (s s' : Libco) : Prop
  | start (h : s' = { s with
      status := update s.status s.next .new, pool := s.pool ++ [s.next], next := s.next + 1 })
  | remove (c : Nat) (waits : Nat → Option Nat) (waited : List Nat) (hdead : s.status c = .dead) (h : s' = { s with
      waitsFor := waits, waited := waited, pool := s.pool.erase c, removed := s.removed ++ [c] })
  | switch (waits : Nat → Option Nat) (waited : List Nat)
      (h : s' = schedule { s with waitsFor := waits, waited := waited })
  | finish (x : Nat) (hx : s.current = some x) (h0 : x ≠ 0) (h : s' = schedule { s with
      status := update s.status x .dead, returned := s.returned ++ [x] })

theorem ensureInit_of (h : s.initialized = true) : s.ensureInit = s := if_pos h

theorem move_loop (hinit : s.initialized = true) (waited : List Nat) (c : Nat) :
    Move s (coWaitLoop { s with waited := waited } c) := by
  unfold coWaitLoop
  by_cases hdead : s.status c = .dead
  · rw [if_neg (not_not.mpr hdead)]
    exact .remove c _ waited hdead rfl
  · rw [if_pos hdead]
    refine .switch (setWaits { s with waited := waited } (some c)) waited ?_
    exact congrArg Libco.schedule (ensureInit_of hinit)

theorem step_move (hinit : s.initialized = true) {a : CoAct} (h : s.step a = some s') : Move s s' := by
  have hens := ensureInit_of hinit
  unfold step at h
  cases hex : s.exited with
  | true =>
    rw [hex] at h
    cases h
  | false =>
  rw [hex, if_neg Bool.false_ne_true] at h
  cases hw : s.current.bind s.waitsFor with
  | some c =>
    rw [hw] at h
    cases a <;> cases h
    exact move_loop hinit s.waited c
  | none =>
    rw [hw] at h
    cases a with
    | start =>
      simp only [coStart, hens] at h
      split at h
      · cases h
        exact .start rfl
      · cases h
    | yield =>
      cases h
      exact .switch s.waitsFor s.waited (congrArg Libco.schedule hens)
    | wait c =>
      simp only at h
      split at h
      · cases h
        unfold coWait
        rw [hens]
        exact move_loop hinit _ c
      · cases h
    | loop => cases h
    | finish =>
      simp only [coReturn] at h
      split at h
      · cases h
      · cases h
      · rename_i x h0 hx
        cases h
        exact .finish x hx h0 rfl

theorem Inv.start (h : Inv s) (hs' : s' = { s with
    status := update s.status s.next .new, pool := s.pool ++ [s.next], next := s.next + 1 }) : Inv s' := by
  obtain ⟨x, hx, hcur⟩ := h.current
  have hfresh : s.next ∉ s.pool := fun hmem => Nat.lt_irrefl _ (h.lt hmem)
  rw [hs']
  refine ⟨⟨h.init, h.exited, ?_, fun c => ?_, ⟨x, mem_append_left _ hx, hcur⟩, h.told.start h.next,
    Nat.succ_pos _⟩, fun y hy => ?_⟩
  · exact concat_eq_append ▸ h.nodup.concat hfresh
  · change c ∈ s.pool ++ [s.next] ↔ c < s.next + 1 ∧ c ∉ s.removed
    rw [mem_append, mem_singleton, h.mem c]
    constructor
    · rintro (⟨hlt, hrem⟩ | rfl)
      · exact ⟨Nat.lt_succ_of_lt hlt, hrem⟩
      · exact ⟨Nat.lt_succ_self _, fun hrem =>
          Nat.lt_irrefl _ (h.told.lt_of_dead (h.told.removed_dead _ hrem))⟩
    · rintro ⟨hlt, hrem⟩
      exact (Nat.lt_succ_iff_lt_or_eq.mp hlt).imp_left fun hlt => ⟨hlt, hrem⟩
  · have hy : s.current = some y := hy
    have hlt : y ≠ s.next := by
      rintro rfl
      rw [hcur] at hy
      cases hy
      exact hfresh hx
    exact (update_of_ne hlt _ _).trans (h.running y hy)

theorem Inv.remove (h : Inv s) {c : Nat} {waits : Nat → Option Nat} {waited : List Nat}
    (hdead : s.status c = .dead) (hs' : s' = { s with
      waitsFor := waits, waited := waited, pool := s.pool.erase c, removed := s.removed ++ [c] }) : Inv s' := by
  obtain ⟨x, hx, hcur⟩ := h.current
  have hxc : x ≠ c := by
    rintro rfl
    cases hdead.symm.trans (h.running x hcur)
  rw [hs']
  refine ⟨⟨h.init, h.exited, h.nodup.erase c, fun d => ?_, ⟨x, (mem_erase_of_ne hxc).mpr hx, hcur⟩,
    h.told.remove hdead, h.next⟩, h.running⟩
  change d ∈ s.pool.erase c ↔ d < s.next ∧ d ∉ s.removed ++ [c]
  rw [h.nodup.mem_erase_iff, h.mem d, mem_append, mem_singleton, not_or]
  tauto

theorem Inv.finish (h : Inv s) {x : Nat} (hx : s.current = some x) (h0 : x ≠ 0) :
    Core { s with status := update s.status x .dead, returned := s.returned ++ [x] } := by
  obtain ⟨y, hy, hcur⟩ := h.current
  obtain rfl : y = x := some.inj (hcur.symm.trans hx)
  exact ⟨h.init, h.exited, h.nodup, h.mem, ⟨y, hy, hcur⟩, h.told.finish (h.lt hy) (h.running y hx) h0, h.next⟩

theorem Inv.core_waits (h : Inv s) (waits : Nat → Option Nat) (waited : List Nat) :
    Core { s with waitsFor := waits, waited := waited } :=
  ⟨h.init, h.exited, h.nodup, h.mem, h.toCore.current, h.told, h.next⟩

theorem Inv.step (h : Inv s) {a : CoAct} (hs : s.step a = some s') : Inv s' := by
  obtain ⟨x, hx, hcur⟩ := h.current
  cases step_move h.init hs with
  | start hs' => exact h.start hs'
  | remove c waits waited hdead hs' => exact h.remove hdead hs'
  | switch waits waited hs' =>
    have hcore := h.core_waits waits waited
    obtain ⟨y, hy, hf, hsched⟩ := hcore.schedule hcur
    rw [hs', hsched]
    exact hcore.dispatch hy (find?_some hf)
  | finish x hx h0 hs' =>
    have hcore := h.finish hx h0
    obtain ⟨y, hy, hf, hsched⟩ := hcore.schedule hx
    rw [hs', hsched]
    exact hcore.dispatch hy (find?_some hf)

/-! ## Runs -/

def booted : Libco := init.ensureInit

theorem inv_booted : Inv booted := by
  refine ⟨⟨rfl, rfl, nodup_singleton 0, fun c => ?_, ⟨0, mem_singleton_self 0, rfl⟩, ?_, Nat.one_pos⟩, ?_⟩
  · change c ∈ [0] ↔ c < 1 ∧ c ∉ []
    rw [mem_singleton, Nat.lt_one_iff, and_iff_left not_mem_nil]
  · have hstatus : ∀ c, c ≠ 0 → booted.status c = .new := fun c hc => update_of_ne hc _ _
    refine ⟨rfl, fun c => ?_, fun c hc => hstatus c (Nat.ne_of_gt hc), ?_, nodup_nil, ?_, ?_, ?_, ?_⟩
    · by_cases hc : c = 0
      · rw [hc]
        decide
      · rw [hstatus c hc]
        decide
    · intro c hc0 hc
      exact absurd hc0 (Nat.not_lt_of_le (Nat.le_of_lt_succ hc))
    · exact fun c hc => nomatch hc
    · intro c hc
      rw [Nat.lt_one_iff.mp hc]
      decide
    · exact fun c hc => nomatch hc
    · exact fun c hc => nomatch hc
  · intro x hx
    cases hx
    rfl

/-- Every function of the library calls `ensure_init` first. -/
theorem step_init (a : CoAct) : init.step a = booted.step a := by
  cases a with
  | wait c =>
    have hno : ∀ s : Libco, s.next = 1 → ¬s.mayWait c = true := by
      intro s hs h
      obtain ⟨h0, h1, -⟩ := of_decide_eq_true h
      omega
    change (if init.mayWait c then _ else none) = if booted.mayWait c then _ else none
    rw [if_neg (hno init rfl), if_neg (hno booted rfl)]
  | _ => rfl

theorem run_booted {as : List CoAct} (h : run step init as = some s) : s = init ∨ run step booted as = some s := by
  cases as with
  | nil =>
    cases h
    exact Or.inl rfl
  | cons a as =>
    rw [run_cons, step_init] at h
    exact Or.inr h

/-- The pool, the histories and the statuses in every state the library gets to. -/
theorem libco_safe {as : List CoAct} (h : run step init as = some s) :
    s.exited = false ∧ (s.initialized = true →
      s.pool.Nodup ∧ 0 ∈ s.pool ∧ s.status 0 = .running ∧ (∃ x ∈ s.pool, s.current = some x) ∧
      (∀ c, c ∈ s.pool ↔ c < s.next ∧ c ∉ s.removed) ∧
      (∀ c, s.entered.count c ≤ 1) ∧ (∀ c, 0 < c → c < s.next → (c ∈ s.entered ↔ s.status c ≠ .new)) ∧
      ∀ c ∈ s.removed, c ∈ s.returned) := by
  rcases run_booted h with rfl | h
  · exact ⟨rfl, fun hi => nomatch hi⟩
  · have hs := run_inv (I := Inv) (fun _ _ _ hs h => hs.step h) as _ s inv_booted h
    refine ⟨hs.exited, fun _ => ⟨hs.nodup, hs.main, hs.told.main_running, hs.current, hs.mem, fun c => ?_,
      hs.told.entered_iff, fun c hc => ?_⟩⟩
    · exact nodup_iff_count_le_one.mp hs.told.entered_nodup c
    · have hdead := hs.told.removed_dead c hc
      exact (hs.told.returned_iff c (hs.told.lt_of_dead hdead)).mpr hdead

/-! ## Turns -/

theorem dispatch_spec (s : Libco) (y : Nat) : (s.dispatch y).current = some y ∧
    (s.dispatch y).dispatched = s.dispatched ++ [y] ∧ (s.dispatch y).pool = s.pool ∧ (s.dispatch y).next = s.next := by
  unfold Libco.dispatch
  split <;> exact ⟨rfl, rfl, rfl, rfl⟩

theorem dispatch_dead (y d : Nat) :
    (s.dispatch y).status d = .dead ↔ s.status d = .dead := by
  unfold Libco.dispatch
  split
  next hnew =>
    change update s.status y .running d = .dead ↔ _
    by_cases hd : d = y
    · rw [hd, update_self, hnew]
      decide
    · rw [update_of_ne hd]
  next => rfl

theorem Core.runnable_iff (h : Core s) (c : Nat) : s.runnable c = true ↔ s.status c ≠ .dead := by
  have hw := h.told.not_waiting c
  unfold runnable
  rw [decide_eq_true_eq]
  cases hs : s.status c with
  | new => decide
  | running => decide
  | waiting => exact absurd hs hw
  | dead => decide

/-- Since the last turn of `c` those in `E` have had a turn: nobody twice, and of those that
were in the pool `p` then every one that is still alive, if it is not ahead of `c`. -/
structure Round (p : List Nat) (c : Nat) (s : Libco) (E : List Nat) : Prop where
  mem : c ∈ s.pool
  alive : s.status c ≠ .dead
  nodup : E.Nodup
  lt : ∀ d ∈ E, d < s.next
  old : ∀ d ∈ p, d < s.next
  passed : ∀ x, s.current = some x → ∀ d ∈ E, d ∉ ahead x c s.pool
  owed : ∀ x, s.current = some x → ∀ d ∈ p, d ≠ c → s.status d ≠ .dead → d ∈ ahead x c s.pool ∨ d ∈ E

inductive Phase (p : List Nat) (c : Nat) (log : List Nat) (s : Libco) : Prop
  | going (E : List Nat) (hc : c ∉ E) (hlog : s.dispatched = log ++ E) (h : s.status c = .dead ∨ Round p c s E)
  | done (E F : List Nat) (hc : c ∉ E) (hlog : s.dispatched = log ++ E ++ c :: F) (hn : E.Nodup)
      (h : ∀ d ∈ p, d ≠ c → s.status d ≠ .dead → d ∈ E)

variable {p : List Nat} {c : Nat} {log E : List Nat}

theorem Round.start (hr : Round p c s E) (h : Inv s) (hs' : s' = { s with
    status := update s.status s.next .new, pool := s.pool ++ [s.next], next := s.next + 1 }) :
    Round p c s' E := by
  have hold : ∀ d, d < s.next → update s.status s.next .new d = s.status d := fun d hd =>
    update_of_ne (Nat.ne_of_lt hd) _ _
  have hahead : ∀ x, s.current = some x → ∀ d, d < s.next →
      (d ∈ ahead x c (s.pool ++ [s.next]) ↔ d ∈ ahead x c s.pool) := by
    intro x hx d hd
    obtain ⟨z, hz, hcur⟩ := h.current
    obtain rfl : z = x := some.inj (hcur.symm.trans hx)
    exact mem_ahead_append hz (Nat.ne_of_gt (h.lt hr.mem)) (Nat.ne_of_lt hd)
  rw [hs']
  constructor
  · exact mem_append_left _ hr.mem
  · exact fun hdead => hr.alive ((hold c (h.lt hr.mem)).symm.trans hdead)
  · exact hr.nodup
  · exact fun d hd => Nat.lt_succ_of_lt (hr.lt d hd)
  · exact fun d hd => Nat.lt_succ_of_lt (hr.old d hd)
  · intro x hx d hd hmem
    exact hr.passed x hx d hd ((hahead x hx d (hr.lt d hd)).mp hmem)
  · intro x hx d hd hdc hlive
    have hlive' : s.status d ≠ .dead := fun he => hlive ((hold d (hr.old d hd)).trans he)
    exact (hr.owed x hx d hd hdc hlive').imp_left (hahead x hx d (hr.old d hd)).mpr

theorem Round.remove (hr : Round p c s E) (h : Inv s) {r : Nat} {waits : Nat → Option Nat} {waited : List Nat}
    (hdead : s.status r = .dead) (hs' : s' = { s with
      waitsFor := waits, waited := waited, pool := s.pool.erase r, removed := s.removed ++ [r] }) :
    Round p c s' E := by
  have hrc : r ≠ c := by
    rintro rfl
    exact hr.alive hdead
  have hcur : ∀ x, s.current = some x → x ∈ s.pool ∧ r ≠ x := by
    intro x hx
    obtain ⟨z, hz, hcur⟩ := h.current
    obtain rfl : z = x := some.inj (hcur.symm.trans hx)
    refine ⟨hz, ?_⟩
    rintro rfl
    cases hdead.symm.trans (h.running r hx)
  rw [hs']
  constructor
  · exact (mem_erase_of_ne hrc.symm).mpr hr.mem
  · exact hr.alive
  · exact hr.nodup
  · exact hr.lt
  · exact hr.old
  · intro x hx d hd hmem
    obtain ⟨hxp, hrx⟩ := hcur x hx
    by_cases hdr : d = r
    · have hxe : x ∈ s.pool.erase r := (mem_erase_of_ne hrx.symm).mpr hxp
      have hin : d ∈ s.pool.erase r := (mem_turn hxe).mp (takeWhile_subset _ hmem)
      rw [hdr] at hin
      exact (h.nodup.mem_erase_iff.mp hin).1 rfl
    · exact hr.passed x hx d hd ((mem_ahead_erase h.nodup hxp hrx hrc hdr).mp hmem)
  · intro x hx d hd hdc hlive
    obtain ⟨hxp, hrx⟩ := hcur x hx
    have hdr : d ≠ r := by
      rintro rfl
      exact hlive hdead
    exact (hr.owed x hx d hd hdc hlive).imp_left (mem_ahead_erase h.nodup hxp hrx hrc hdr).mpr

theorem Round.pass (hr : Round p c s E) (h : Core s) {x y : Nat} {u : List Nat} (hx : s.current = some x)
    (hxp : x ∈ s.pool) (hyp : y ∈ s.pool) (hu : ∀ d, s.status d ≠ .dead → d ∉ u)
    (hahead : ahead x c s.pool = u ++ y :: ahead y c s.pool) : Round p c (s.dispatch y) (E ++ [y]) := by
  obtain ⟨hcur', -, hpool', hnext'⟩ := dispatch_spec s y
  have hyahead : y ∈ ahead x c s.pool := by
    rw [hahead]
    exact mem_append_right _ mem_cons_self
  have hnodup : (u ++ y :: ahead y c s.pool).Nodup := by
    rw [← hahead]
    exact (turn_nodup h.nodup hxp).sublist (takeWhile_sublist _)
  have hy' : y ∉ ahead y c s.pool := (nodup_cons.mp (List.Nodup.of_append_right hnodup)).1
  have hyE : y ∉ E := fun hmem => hr.passed x hx y hmem hyahead
  constructor
  · rw [hpool']
    exact hr.mem
  · exact fun he => hr.alive ((dispatch_dead y c).mp he)
  · rw [← concat_eq_append]
    exact hr.nodup.concat hyE
  · intro d hd
    rw [hnext']
    rcases mem_append.mp hd with hd | hd
    · exact hr.lt d hd
    · rw [mem_singleton.mp hd]
      exact h.lt hyp
  · intro d hd
    rw [hnext']
    exact hr.old d hd
  · intro z hz d hd
    obtain rfl : y = z := some.inj (hcur'.symm.trans hz)
    rw [hpool']
    rcases mem_append.mp hd with hd | hd
    · have hno := hr.passed x hx d hd
      rw [hahead, mem_append, mem_cons, not_or, not_or] at hno
      exact hno.2.2
    · rw [mem_singleton.mp hd]
      exact hy'
  · intro z hz d hd hdc hlive
    obtain rfl : y = z := some.inj (hcur'.symm.trans hz)
    have hlive' : s.status d ≠ .dead := fun he => hlive ((dispatch_dead y d).mpr he)
    rw [hpool', mem_append, mem_singleton]
    have howed := hr.owed x hx d hd hdc hlive'
    rw [hahead, mem_append, mem_cons] at howed
    rcases howed with (hmem | hdy | hmem) | hmem
    · exact absurd hmem (hu d hlive')
    · exact Or.inr (Or.inr hdy)
    · exact Or.inl hmem
    · exact Or.inr (Or.inl hmem)

/-- A turn within the round, or the one that ends it. -/
theorem Round.dispatch (hr : Round p c s E) (h : Core s) (hcE : c ∉ E) (hlog : s.dispatched = log ++ E) {x y : Nat}
    (hx : s.current = some x) (hf : (turn x s.pool).find? s.runnable = some y) : Phase p c log (s.dispatch y) := by
  have hxp : x ∈ s.pool := by
    obtain ⟨z, hz, hcur⟩ := h.current
    obtain rfl : z = x := some.inj (hcur.symm.trans hx)
    exact hz
  have hlog' := (dispatch_spec s y).2.1
  obtain ⟨u, hu, hahead⟩ := ahead_next h.nodup hxp hr.mem ((h.runnable_iff c).mpr hr.alive) hf
  have hnotu : ∀ d, s.status d ≠ .dead → d ∉ u := by
    intro d hd hmem
    have hno := hu d hmem
    rw [(h.runnable_iff d).mpr hd] at hno
    cases hno
  by_cases hyc : y = c
  · rw [if_pos hyc, append_nil] at hahead
    refine .done E [] hcE ?_ hr.nodup fun d hd hdc hlive => ?_
    · rw [hlog', hlog, hyc]
    · have hlive' : s.status d ≠ .dead := fun he => hlive ((dispatch_dead y d).mpr he)
      refine (hr.owed x hx d hd hdc hlive').resolve_left ?_
      rw [hahead]
      exact hnotu d hlive'
  · rw [if_neg hyc] at hahead
    have hyp : y ∈ s.pool := (mem_turn hxp).mp (mem_of_find?_eq_some hf)
    refine .going (E ++ [y]) ?_ ?_ (Or.inr (hr.pass h hx hxp hyp hnotu hahead))
    · rw [mem_append, mem_singleton, not_or]
      exact ⟨hcE, fun h => hyc h.symm⟩
    · rw [hlog', hlog, append_assoc]

theorem Phase.schedule (hp : Phase p c log s) (h : Core s) : Phase p c log s.schedule := by
  obtain ⟨x, hx, hcur⟩ := h.current
  obtain ⟨y, hy, hf, hsched⟩ := h.schedule hcur
  have hyrun : s.runnable y = true := find?_some hf
  have hlog' := (dispatch_spec s y).2.1
  rw [hsched]
  cases hp with
  | going E hc hlog hr =>
    rcases hr with hdead | hr
    · have hyc : c ≠ y := by
        rintro rfl
        exact (h.runnable_iff c).mp hyrun hdead
      refine .going (E ++ [y]) ?_ ?_ (Or.inl ((dispatch_dead y c).mpr hdead))
      · rw [mem_append, mem_singleton, not_or]
        exact ⟨hc, hyc⟩
      · rw [hlog', hlog, append_assoc]
    · exact hr.dispatch h hc hlog hcur hf
  | done E F hc hlog hn hd =>
    refine .done E (F ++ [y]) hc ?_ hn fun d hdp hdc hlive => ?_
    · rw [hlog', hlog, append_assoc, cons_append]
    · exact hd d hdp hdc fun he => hlive ((dispatch_dead y d).mpr he)

theorem Phase.step (hp : Phase p c log s) (h : Inv s) {a : CoAct} (hs : s.step a = some s') : Phase p c log s' := by
  cases step_move h.init hs with
  | start hs' =>
    have hdead : ∀ d, s.status d = .dead → s'.status d = .dead := by
      intro d hd
      rw [hs']
      exact (update_of_ne (Nat.ne_of_lt (h.told.lt_of_dead hd)) _ _).trans hd
    have hsame : s'.dispatched = s.dispatched := by rw [hs']
    cases hp with
    | going E hc hlog hr => exact .going E hc (hsame.trans hlog) (hr.imp (hdead c) fun hr => hr.start h hs')
    | done E F hc hlog hn hd =>
      exact .done E F hc (hsame.trans hlog) hn fun d hdp hdc hlive => hd d hdp hdc fun he => hlive (hdead d he)
  | remove r waits waited hdead hs' =>
    have hstatus : s'.status = s.status := by rw [hs']
    have hsame : s'.dispatched = s.dispatched := by rw [hs']
    cases hp with
    | going E hc hlog hr =>
      exact .going E hc (hsame.trans hlog) (hr.imp (fun hd => hstatus ▸ hd) fun hr => hr.remove h hdead hs')
    | done E F hc hlog hn hd => exact .done E F hc (hsame.trans hlog) hn (hstatus ▸ hd)
  | switch waits waited hs' =>
    rw [hs']
    refine Phase.schedule ?_ (h.core_waits waits waited)
    cases hp with
    | going E hc hlog hr =>
      refine .going E hc hlog (hr.imp_right fun hr => ?_)
      exact ⟨hr.mem, hr.alive, hr.nodup, hr.lt, hr.old, hr.passed, hr.owed⟩
    | done E F hc hlog hn hd => exact .done E F hc hlog hn hd
  | finish x hx h0 hs' =>
    have hcore := h.finish hx h0
    have hdead : ∀ d, s.status d = .dead → update s.status x .dead d = .dead := by
      intro d hd
      by_cases hdx : d = x
      · rw [hdx, update_self]
      · rw [update_of_ne hdx, hd]
    rw [hs']
    refine Phase.schedule ?_ hcore
    cases hp with
    | going E hc hlog hr =>
      refine .going E hc hlog ?_
      by_cases hxc : c = x
      · -- `c` has returned, so it has no more turns
        rw [hxc]
        exact Or.inl (update_self _ _ _)
      · refine hr.imp (hdead c) fun hr => ?_
        refine ⟨hr.mem, ?_, hr.nodup, hr.lt, hr.old, hr.passed, fun z hz d hd hdc hlive => ?_⟩
        · exact fun he => hr.alive ((update_of_ne hxc _ _).symm.trans he)
        · exact hr.owed z hz d hd hdc fun he => hlive (hdead d he)
    | done E F hc hlog hn hd =>
      exact .done E F hc hlog hn fun d hdp hdc hlive => hd d hdp hdc fun he => hlive (hdead d he)

def LastRuns (s : Libco) : Prop := ∀ log c, s.dispatched = log ++ [c] → s.current = some c

theorem LastRuns.schedule (h : Core s) : LastRuns s.schedule := by
  intro log c hlog
  obtain ⟨x, hx, hcur⟩ := h.current
  obtain ⟨y, hy, hf, hsched⟩ := h.schedule hcur
  obtain ⟨hcur', hlog', -⟩ := dispatch_spec s y
  rw [hsched] at hlog ⊢
  rw [hlog'] at hlog
  obtain rfl : y = c := singleton_inj.mp (append_inj' hlog rfl).2
  exact hcur'

theorem LastRuns.step (hl : LastRuns s) (h : Inv s) {a : CoAct} (hs : s.step a = some s') : LastRuns s' := by
  cases step_move h.init hs with
  | start hs' =>
    rw [hs']
    exact hl
  | remove r waits waited hdead hs' =>
    rw [hs']
    exact hl
  | switch waits waited hs' =>
    rw [hs']
    exact LastRuns.schedule (h.core_waits waits waited)
  | finish x hx h0 hs' =>
    rw [hs']
    exact LastRuns.schedule (h.finish hx h0)

/-- Between two turns of `c` every other coroutine that was in the pool and stays alive has one
turn, and no coroutine has two. -/
theorem libco_turns {t : Libco} {as bs : List CoAct} (hr : run Libco.step init as = some s)
    (hlog : s.dispatched = log ++ [c]) (hr' : run Libco.step s bs = some t) {D : List Nat}
    (hlog' : t.dispatched = log ++ [c] ++ D ++ [c]) (hD : c ∉ D) :
    D.Nodup ∧ ∀ d ∈ s.pool, d ≠ c → t.status d ≠ .dead → D.count d = 1 := by
  rcases run_booted hr with rfl | hr
  · cases log <;> cases hlog
  obtain ⟨hs, hlast⟩ := run_inv (I := fun s => Inv s ∧ LastRuns s) (fun _ _ _ hs h => ⟨hs.1.step h, hs.2.step hs.1 h⟩)
    as _ s ⟨inv_booted, fun log _ h => by cases log <;> cases h⟩ hr
  have hcur := hlast log c hlog
  have hmem : c ∈ s.pool := by
    obtain ⟨z, hz, hcur'⟩ := hs.current
    obtain rfl : z = c := some.inj (hcur'.symm.trans hcur)
    exact hz
  have hround : Round s.pool c s [] := by
    refine ⟨hmem, ?_, nodup_nil, fun _ hd => (nomatch hd), fun d hd => hs.lt hd, fun _ _ _ hd => (nomatch hd), ?_⟩
    · rw [hs.running c hcur]
      decide
    · intro x hx d hd hdc _
      obtain rfl : c = x := some.inj (hcur.symm.trans hx)
      exact Or.inl ((mem_ahead_self hmem hs.nodup).mpr ⟨hd, hdc⟩)
  have hphase : Phase s.pool c (log ++ [c]) s :=
    .going [] not_mem_nil (hlog.trans (append_nil _).symm) (Or.inr hround)
  obtain ⟨-, ht⟩ := run_inv (I := fun t => Inv t ∧ Phase s.pool c (log ++ [c]) t)
    (fun _ _ _ ht h => ⟨ht.1.step h, ht.2.step ht.1 h⟩) bs _ t ⟨hs, hphase⟩ hr'
  cases ht with
  | going E hc hE _ =>
    rw [hlog', append_assoc] at hE
    have hmem := append_cancel_left hE ▸ hc
    exact absurd (mem_append_right D (mem_singleton_self c)) hmem
  | done E F hc hE hn hd =>
    rw [hlog', append_assoc, append_assoc (log ++ [c])] at hE
    have hsplit : D ++ c :: [] = E ++ c :: F := append_cancel_left hE
    have hDE : D = E := by
      rw [← takeWhile_ne hD [], hsplit, takeWhile_ne hc]
    rw [hDE]
    exact ⟨hn, fun d hdp hdc hlive => count_eq_one_of_mem hn (hd d hdp hdc hlive)⟩

end

def threeRun : List CoAct := [.start, .start, .yield]

theorem libco_safe_three : ∃ s, run step init (threeRun ++ [.yield, .finish, .wait 2, .yield]) = some s ∧
    s.exited = false ∧ s.removed = [2] ∧ s.pool = [0, 1] := by
  have hrun : ((run step init (threeRun ++ [.yield, .finish, .wait 2, .yield])).any fun s =>
      s.removed = [2] ∧ s.pool = [0, 1]) = true := by decide
  obtain ⟨s, hs, h⟩ := (any_eq_true _ _).mp hrun
  obtain ⟨hrem, hpool⟩ := of_decide_eq_true h
  exact ⟨s, hs, (libco_safe hs).1, hrem, hpool⟩

theorem libco_turns_three : ∃ s t, run step init threeRun = some s ∧
    run step s [.yield, .yield, .yield] = some t ∧ t.dispatched = [1, 2, 0, 1] ∧ [2, 0].count 2 = 1 := by
  have hrun : ((run step init threeRun).any fun s => (run step s [.yield, .yield, .yield]).any fun t =>
      s.dispatched = [1] ∧ 2 ∈ s.pool ∧ t.dispatched = [1, 2, 0, 1] ∧ t.status 2 ≠ .dead) = true := by decide
  obtain ⟨s, hs, h⟩ := (any_eq_true _ _).mp hrun
  obtain ⟨t, ht, h⟩ := (any_eq_true _ _).mp h
  obtain ⟨hlog, hmem, hlog', hlive⟩ := of_decide_eq_true h
  have hlog1 : s.dispatched = [] ++ [1] := hlog
  have hturns := libco_turns (D := [2, 0]) hs hlog1 ht hlog' (by decide)
  exact ⟨s, t, hs, ht, hlog', hturns.2 2 hmem (by decide) hlive⟩

end Libco

end NjuOs
