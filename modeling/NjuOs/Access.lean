import Mathlib.Tactic

/-!
# Programs that load and store

A program takes a memory and ends with a value, a memory and the log of the addresses it
loaded from and stored to. `Confined P m x Q` is the triple of a program: started in the
memory `m`, it touches only addresses in `P` and ends with a value and a memory in `Q`.
`Inside` is its condition on the addresses alone; `Looks` says of a program that reads
what it answers and exactly when it is `Inside`, `Touches` the latter of one that stores.
`Refines` relates a program that works in a buffer to one that only reads.
-/

namespace NjuOs

open Function List

inductive Access (ι : Type)
  | load (a : ι)
  | store (a : ι)
  deriving DecidableEq, Repr

def Access.addr {ι : Type} : Access ι → ι
  | .load a => a
  | .store a => a

structure Outcome (ι β α : Type) where
  val : α
  cells : ι → β
  log : List (Access ι)

def MemM (ι β α : Type) := (ι → β) → Outcome ι β α

instance {ι β : Type} : Monad (MemM ι β) where
  pure a := fun m => ⟨a, m, []⟩
  bind x f := fun m =>
    let r := x m
    let r' := f r.val r.cells
    ⟨r'.val, r'.cells, r.log ++ r'.log⟩

section
variable {ι β : Type}

def load (a : ι) : MemM ι β β := fun m => ⟨m a, m, [.load a]⟩

def loadAll (addr : Nat → ι) : Nat → Nat → MemM ι β (List β)
  | _, 0 => pure []
  | i, n + 1 => do
    let b ← load (addr i)
    return b :: (← loadAll addr (i + 1) n)

def Confined {α : Type} (P : ι → Prop) (m : ι → β) (x : MemM ι β α) (Q : α → (ι → β) → Prop) : Prop :=
  (∀ e ∈ (x m).log, P e.addr) ∧ (∀ a, ¬P a → (x m).cells a = m a) ∧ Q (x m).val (x m).cells

def Reads {α : Type} (P : ι → Prop) (m : ι → β) (x : MemM ι β α) (Q : α → Prop) : Prop :=
  Confined P m x fun a m' => m' = m ∧ Q a

section
variable {α γ : Type} {P : ι → Prop} {m : ι → β} {Q R : α → (ι → β) → Prop}

theorem Confined.pure {a : α} (h : Q a m) : Confined P m (Pure.pure a) Q :=
  ⟨forall_mem_nil _, fun _ _ => rfl, h⟩

theorem Confined.bind {x : MemM ι β α} {f : α → MemM ι β γ} {S : γ → (ι → β) → Prop}
    (hx : Confined P m x R) (hf : ∀ a m', R a m' → Confined P m' (f a) S) : Confined P m (x >>= f) S := by
  obtain ⟨hlog, hcells, hR⟩ := hx
  obtain ⟨hlog', hcells', hS⟩ := hf _ _ hR
  refine ⟨?_, fun a ha => (hcells' a ha).trans (hcells a ha), hS⟩
  intro e he
  rcases mem_append.mp he with he | he
  · exact hlog e he
  · exact hlog' e he

theorem Confined.mono {x : MemM ι β α} (hx : Confined P m x R) (h : ∀ a m', R a m' → Q a m') : Confined P m x Q :=
  ⟨hx.1, hx.2.1, h _ _ hx.2.2⟩

theorem Confined.ite {c : Prop} [Decidable c] {x y : MemM ι β α} (ht : c → Confined P m x Q)
    (he : ¬c → Confined P m y Q) : Confined P m (if c then x else y) Q := by
  split
  · exact ht ‹_›
  · exact he ‹_›

theorem Reads.pure {a : α} {Q : α → Prop} (h : Q a) : Reads P m (Pure.pure a) Q := Confined.pure ⟨rfl, h⟩

theorem Reads.bind {x : MemM ι β α} {f : α → MemM ι β γ} {Q : α → Prop} {S : γ → Prop} (hx : Reads P m x Q)
    (hf : ∀ a, Q a → Reads P m (f a) S) : Reads P m (x >>= f) S := by
  refine Confined.bind hx fun a m' h => ?_
  rw [h.1]
  exact hf a h.2

theorem reads_load {a : ι} (ha : P a) : Reads P m (load a) fun b => b = m a := by
  refine ⟨?_, fun _ _ => rfl, rfl, rfl⟩
  intro e he
  rw [mem_singleton.mp he]
  exact ha

theorem reads_loadAll {addr : Nat → ι} {i n : Nat} (h : ∀ j, j < i + n → P (addr j)) :
    Reads P m (loadAll addr i n) fun bs => bs = (List.range' i n).map fun j => m (addr j) := by
  induction n generalizing i with
  | zero => exact Reads.pure rfl
  | succ n ih =>
    refine Reads.bind (reads_load (h i (by omega))) fun b hb => ?_
    refine Reads.bind (ih fun j hj => h j (by omega)) fun bs hbs => Reads.pure ?_
    rw [hb, hbs, range'_succ, map_cons]

end

end

/-! ## Footprints -/

section
variable {ι β α γ : Type}

def Inside (P : ι → Prop) (m : ι → β) (x : MemM ι β α) : Prop := ∀ e ∈ (x m).log, P e.addr

variable {P : ι → Prop} {m : ι → β} {x : MemM ι β α}

@[simp] theorem inside_pure (a : α) : Inside P m (pure a) ↔ True := iff_true_intro (forall_mem_nil _)

@[simp] theorem inside_load (a : ι) : Inside P m (load a) ↔ P a := by simp [Inside, load, Access.addr]

@[simp] theorem inside_bind (f : α → MemM ι β γ) :
    Inside P m (x >>= f) ↔ Inside P m x ∧ Inside P (x m).cells (f (x m).val) :=
  forall_mem_append

/-- Started in `m`, the program `x` reads: it answers `a` in every memory that is like `m` where
it looked, and it looks only at addresses in `P` if and only if `C`. -/
structure Looks (P : ι → Prop) (m : ι → β) (x : MemM ι β α) (a : α) (C : Prop) : Prop where
  same : ∀ m', (∀ e ∈ (x m).log, m' e.addr = m e.addr) → (x m').val = a ∧ (x m').cells = m'
  inside : Inside P m x ↔ C

variable {a : α} {C D : Prop}

theorem Looks.val (h : Looks P m x a C) : (x m).val = a := (h.same m fun _ _ => rfl).1

theorem Looks.cells (h : Looks P m x a C) : (x m).cells = m := (h.same m fun _ _ => rfl).2

theorem Looks.congr (h : Looks P m x a C) (hC : C ↔ D) : Looks P m x a D := ⟨h.same, h.inside.trans hC⟩

theorem Looks.pure : Looks P m (Pure.pure a) a True := ⟨fun _ _ => ⟨rfl, rfl⟩, inside_pure a⟩

theorem Looks.load (i : ι) : Looks P m (load i) (m i) (P i) :=
  ⟨fun _ h => ⟨h (.load i) (mem_singleton.mpr rfl), rfl⟩, inside_load i⟩

theorem Looks.bind {f : α → MemM ι β γ} {c : γ} (hx : Looks P m x a C) (hf : Looks P m (f a) c D) :
    Looks P m (x >>= f) c (C ∧ D) := by
  have hlog : ((x >>= f) m).log = (x m).log ++ (f a m).log := by
    rw [← hx.val]
    nth_rewrite 4 [← hx.cells]
    rfl
  constructor
  · intro m' h
    rw [hlog] at h
    obtain ⟨h1, h2⟩ := forall_mem_append.mp h
    obtain ⟨hval, hcells⟩ := hx.same m' h1
    obtain ⟨hval', hcells'⟩ := hf.same m' h2
    change (f (x m').val (x m').cells).val = c ∧ (f (x m').val (x m').cells).cells = m'
    rw [hval, hcells]
    exact ⟨hval', hcells'⟩
  · rw [inside_bind, hx.val, hx.cells]
    exact and_congr hx.inside hf.inside

theorem Looks.map {g : α → γ} (h : Looks P m x a C) : Looks P m (x >>= fun b => Pure.pure (g b)) (g a) C :=
  (h.bind (Looks.pure (a := g a))).congr (and_true C).to_iff

theorem looks_loadAll (addr : Nat → ι) (i n : Nat) :
    Looks P m (loadAll addr i n) ((List.range' i n).map fun j => m (addr j)) (∀ j, j < n → P (addr (i + j))) := by
  induction n generalizing i with
  | zero => exact Looks.pure.congr (by simp)
  | succ n ih =>
    rw [range'_succ, map_cons, Nat.forall_lt_succ_left]
    refine ((Looks.load (addr i)).bind (ih (i + 1)).map).congr (and_congr Iff.rfl ?_)
    simp only [Nat.add_assoc, Nat.add_comm 1]

/-- `x` changes only cells that it accesses, and all of them are in `P` if and only if `C`. -/
structure Touches (P : ι → Prop) (m : ι → β) (x : MemM ι β α) (C : Prop) : Prop where
  frame : ∀ i, (∀ e ∈ (x m).log, e.addr ≠ i) → (x m).cells i = m i
  inside : Inside P m x ↔ C

theorem Touches.congr (h : Touches P m x C) (hC : C ↔ D) : Touches P m x D := ⟨h.frame, h.inside.trans hC⟩

theorem Looks.touches (h : Looks P m x a C) : Touches P m x C := ⟨fun _ _ => congrFun h.cells _, h.inside⟩

theorem Touches.outside (h : Touches P m x C) (hC : C) {i : ι} (hi : ¬P i) : (x m).cells i = m i := by
  refine h.frame i fun e he hei => hi ?_
  rw [← hei]
  exact h.inside.mpr hC e he

structure Exact (P : ι → Prop) (m : ι → β) (x : MemM ι β α) (R : α → Prop) (C : Prop) : Prop where
  cells : (x m).cells = m
  inside : Inside P m x ∧ R (x m).val ↔ C

theorem Exact.pure {R : α → Prop} (h : R a) : Exact P m (Pure.pure a) R True :=
  ⟨rfl, iff_true_intro ⟨(inside_pure a).mpr trivial, h⟩⟩

theorem Looks.exact {R : α → Prop} (h : Looks P m x a C) (hR : C ∧ R a ↔ D) : Exact P m x R D := by
  refine ⟨h.cells, Iff.trans ?_ hR⟩
  rw [h.inside, h.val]

theorem Exact.congr {R : α → Prop} (h : Exact P m x R C) (hC : C ↔ D) : Exact P m x R D :=
  ⟨h.cells, h.inside.trans hC⟩

theorem Reads.exact {Q : α → Prop} {f : α → MemM ι β γ} {R : γ → Prop} (hx : Reads P m x Q)
    (hf : Exact P m (f (x m).val) R C) : Exact P m (x >>= f) R C := by
  obtain ⟨hlog, -, hcells, -⟩ := hx
  have hrun : (x >>= f) m = ⟨(f (x m).val m).val, (f (x m).val m).cells, (x m).log ++ (f (x m).val m).log⟩ := by
    change Outcome.mk _ _ _ = _
    rw [hcells]
  have hin : Inside P m x := hlog
  refine ⟨by rw [hrun]; exact hf.cells, Iff.trans ?_ hf.inside⟩
  rw [inside_bind, hcells, and_iff_right hin, hrun]

theorem Exact.seq {δ : Type} {y : MemM ι β γ} {g : α → γ → δ} {Q : α → Prop} {R : γ → Prop} {S : δ → Prop}
    (hx : Exact P m x Q C) (hy : Exact P m y R D) (hS : ∀ a c, S (g a c) ↔ Q a ∧ R c) :
    Exact P m (x >>= fun a => y >>= fun c => Pure.pure (g a c)) S (C ∧ D) := by
  have hrun : (x >>= fun a => y >>= fun c => (Pure.pure (g a c) : MemM ι β δ)) m =
      ⟨g (x m).val (y m).val, m, (x m).log ++ ((y m).log ++ [])⟩ := by
    change Outcome.mk (g (x m).val (y (x m).cells).val) (y (x m).cells).cells
      ((x m).log ++ ((y (x m).cells).log ++ [])) = _
    rw [hx.cells, hy.cells]
  refine ⟨by rw [hrun], ?_⟩
  rw [inside_bind, hx.cells, inside_bind, inside_pure, and_true, hrun, hS, ← hx.inside, ← hy.inside]
  exact and_and_and_comm

/-- The answer of a program that looks only at `P` does not depend on the memory outside. -/
theorem Looks.agree (h : Looks P m x a C) (hC : C) {m' : ι → β} (hm : ∀ i, P i → m' i = m i) : (x m').val = a :=
  (h.same m' fun e he => hm _ (h.inside.mpr hC e he)).1

end

section
variable {ι β : Type} [DecidableEq ι]

def store (a : ι) (b : β) : MemM ι β PUnit := fun m => ⟨⟨⟩, update m a b, [.store a]⟩

def storeAll (addr : Nat → ι) : Nat → List β → MemM ι β PUnit
  | _, [] => pure ⟨⟩
  | i, b :: bs => do
    store (addr i) b
    storeAll addr (i + 1) bs

variable {P : ι → Prop} {m : ι → β}

theorem confined_store {a : ι} {b : β} (ha : P a) :
    Confined P m (store a b) fun _ m' => m' = update m a b := by
  refine ⟨?_, fun x hx => ?_, rfl⟩
  · intro e he
    rw [mem_singleton.mp he]
    exact ha
  · have hne : x ≠ a := by
      rintro rfl
      exact hx ha
    exact update_of_ne hne b m

theorem touches_storeAll (addr : Nat → ι) (i : Nat) (bs : List β) :
    Touches P m (storeAll addr i bs) (∀ j, j < bs.length → P (addr (i + j))) := by
  induction bs generalizing i m with
  | nil => exact Looks.pure.touches.congr (by simp)
  | cons b bs ih =>
    refine ⟨fun a ha => ?_, ?_⟩
    · obtain ⟨hne, htail⟩ := forall_mem_append.mp ha
      have hne : addr i ≠ a := hne _ (mem_singleton_self _)
      have hhead : update m (addr i) b a = m a := update_of_ne hne.symm b m
      exact ((ih (i + 1)).frame a htail).trans hhead
    · rw [storeAll, inside_bind, length_cons, Nat.forall_lt_succ_left]
      refine and_congr ?_ ((ih (i + 1)).inside.trans (by simp only [Nat.add_assoc, Nat.add_comm 1]))
      simp [Inside, store, Access.addr]

end

/-! ## Buffers -/

section
variable {ι β α γ δ : Type}

/-- `y` keeps in the buffer `W` what `x` returns: started in memories that are the same outside
`W`, `y` stores to `W` only and the results are in `R`. -/
structure Refines (W : ι → Prop) (m m1 : ι → β) (y : MemM ι β γ) (x : MemM ι β α)
    (R : γ → α → (ι → β) → Prop) : Prop where
  stores : ∀ a, .store a ∈ (y m1).log → W a
  frame : ∀ a, ¬W a → (y m1).cells a = m a
  reads : (x m).cells = m
  post : R (y m1).val (x m).val (y m1).cells

variable {W : ι → Prop} {m m1 : ι → β}

theorem Refines.pure {c : γ} {a : α} {R : γ → α → (ι → β) → Prop} (hm : ∀ i, ¬W i → m1 i = m i) (h : R c a m1) :
    Refines W m m1 (Pure.pure c) (Pure.pure a) R :=
  ⟨fun _ he => (nomatch he), hm, rfl, h⟩

theorem Refines.bind {α' γ' : Type} {y : MemM ι β γ} {x : MemM ι β α} {g : γ → MemM ι β γ'} {f : α → MemM ι β α'}
    {R : γ → α → (ι → β) → Prop} {S : γ' → α' → (ι → β) → Prop} (h : Refines W m m1 y x R)
    (hgf : ∀ c a m2, (∀ i, ¬W i → m2 i = m i) → R c a m2 → Refines W m m2 (g c) (f a) S) :
    Refines W m m1 (y >>= g) (x >>= f) S := by
  have hnext := hgf _ _ _ h.frame h.post
  have hx : (x >>= f) m = ⟨(f (x m).val m).val, (f (x m).val m).cells, (x m).log ++ (f (x m).val m).log⟩ := by
    change Outcome.mk _ _ _ = _
    rw [h.reads]
  constructor
  · intro a ha
    rcases mem_append.mp ha with ha | ha
    · exact h.stores a ha
    · exact hnext.stores a ha
  · exact hnext.frame
  · rw [hx]
    exact hnext.reads
  · rw [hx]
    exact hnext.post

theorem Refines.step {y : MemM ι β δ} {g : δ → MemM ι β γ} {x : MemM ι β α} {Q : δ → (ι → β) → Prop}
    {R : γ → α → (ι → β) → Prop} (hm : ∀ i, ¬W i → m1 i = m i) (hy : Confined W m1 y Q)
    (hg : ∀ c m2, (∀ i, ¬W i → m2 i = m i) → Q c m2 → Refines W m m2 (g c) x R) :
    Refines W m m1 (y >>= g) x R := by
  obtain ⟨hlog, hcells, hQ⟩ := hy
  have hnext := hg _ _ (fun i hi => (hcells i hi).trans (hm i hi)) hQ
  refine ⟨fun a ha => ?_, hnext.frame, hnext.reads, hnext.post⟩
  rcases mem_append.mp ha with ha | ha
  · exact hlog _ ha
  · exact hnext.stores a ha

theorem Refines.ite {c : Prop} [Decidable c] {y y' : MemM ι β γ} {x x' : MemM ι β α} {R : γ → α → (ι → β) → Prop}
    (ht : c → Refines W m m1 y x R) (he : ¬c → Refines W m m1 y' x' R) :
    Refines W m m1 (if c then y else y') (if c then x else x') R := by
  by_cases hc : c
  · rw [if_pos hc, if_pos hc]
    exact ht hc
  · rw [if_neg hc, if_neg hc]
    exact he hc

theorem Refines.map {α' : Type} {y : MemM ι β γ} {x : MemM ι β α} {f : α → α'} {R : γ → α → (ι → β) → Prop}
    {S : γ → α' → (ι → β) → Prop} (h : Refines W m m1 y x R) (hRS : ∀ c a m2, R c a m2 → S c (f a) m2) :
    Refines W m m1 y (x >>= fun a => Pure.pure (f a)) S :=
  ⟨h.stores, h.frame, h.reads, hRS _ _ _ h.post⟩

theorem Refines.last {y : MemM ι β γ} {g : γ → MemM ι β δ} {x : MemM ι β α} {R : γ → α → (ι → β) → Prop}
    {S : δ → α → (ι → β) → Prop} (h : Refines W m m1 y x R)
    (hg : ∀ c a m2, R c a m2 → Confined W m2 (g c) fun b m3 => S b a m3) : Refines W m m1 (y >>= g) x S := by
  obtain ⟨hlog, hcells, hS⟩ := hg _ _ _ h.post
  refine ⟨fun a ha => ?_, fun a ha => (hcells a ha).trans (h.frame a ha), h.reads, hS⟩
  rcases mem_append.mp ha with ha | ha
  · exact h.stores a ha
  · exact hlog _ ha

theorem refines_load {a : ι} (hm : ∀ i, ¬W i → m1 i = m i) (ha : ¬W a) :
    Refines W m m1 (load a) (load a) fun b c m2 => b = c ∧ m2 = m1 := by
  refine ⟨fun i hi => ?_, hm, rfl, hm a ha, rfl⟩
  cases mem_singleton.mp hi

theorem refines_loadAll {addr : Nat → ι} {i n : Nat} (hm : ∀ i, ¬W i → m1 i = m i)
    (h : ∀ j, j < i + n → ¬W (addr j)) :
    Refines W m m1 (loadAll addr i n) (loadAll addr i n) fun b c m2 => b = c ∧ m2 = m1 := by
  induction n generalizing i with
  | zero => exact Refines.pure hm ⟨rfl, rfl⟩
  | succ n ih =>
    refine Refines.bind (refines_load hm (h i (by omega))) fun b c m2 hm2 hbc => ?_
    obtain ⟨rfl, rfl⟩ := hbc
    refine Refines.bind (ih fun j hj => h j (by omega)) fun bs cs m3 hm3 hbcs => ?_
    obtain ⟨rfl, rfl⟩ := hbcs
    exact Refines.pure hm3 ⟨rfl, rfl⟩

end

end NjuOs
