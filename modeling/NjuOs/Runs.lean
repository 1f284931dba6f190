import Mathlib.Tactic

/-!
# Runs of a deterministic step function

A system is a partial step function `step : σ → α → Option σ`: `none` means that
the action is not enabled, or that the code it stands for never returns. All
nondeterminism (which CPU moves, what the environment answers) is in the action,
so an interleaving is a list of actions.
-/

namespace NjuOs

section
variable {σ α : Type*} (step : σ → α → Option σ)

def run : σ → List α → Option σ
  | s, [] => some s
  | s, a :: as => (step s a).bind fun s' => run s' as

/-- Every step of the run, looked at in the state it is taken in, meets `C`. -/
def Along (C : σ → α → Prop) : σ → List α → Prop
  | _, [] => True
  | s, a :: as => C s a ∧ ∀ s', step s a = some s' → Along C s' as

def along (c : σ → α → Bool) : σ → List α → Bool
  | _, [] => true
  | s, a :: as => c s a && (step s a).all fun s' => along c s' as

def passes (c : σ → α → Bool) (p : σ → Bool) : σ → List α → Bool
  | s, [] => p s
  | s, a :: as => c s a && (step s a).any fun s' => passes c p s' as

@[simp] theorem run_nil (s : σ) : run step s [] = some s := rfl

theorem run_cons (s : σ) (a : α) (as : List α) :
    run step s (a :: as) = (step s a).bind fun s' => run step s' as := rfl

variable {step}

theorem run_cons_some {s s' : σ} {a : α} {as : List α} (h : run step s (a :: as) = some s') :
    ∃ t, step s a = some t ∧ run step t as = some s' := by
  rw [run_cons] at h
  exact Option.bind_eq_some_iff.mp h

theorem run_append {s t : σ} {as bs : List α} (h : run step s as = some t) :
    run step s (as ++ bs) = run step t bs := by
  induction as generalizing s with
  | nil => cases h; rfl
  | cons a as ih =>
    obtain ⟨u, hu, hr⟩ := run_cons_some h
    rw [List.cons_append, run_cons, hu]
    exact ih hr

theorem run_append_some : ∀ {as bs : List α} {s u : σ}, run step s (as ++ bs) = some u →
    ∃ t, run step s as = some t ∧ run step t bs = some u
  | [], _, s, _, h => ⟨s, rfl, h⟩
  | a :: as, bs, s, u, h => by
    obtain ⟨t, ht, hr⟩ := run_cons_some h
    obtain ⟨v, hv, hu⟩ := run_append_some hr
    refine ⟨v, ?_, hu⟩
    rw [run_cons, ht]
    exact hv

theorem run_inv {I : σ → Prop} (hs : ∀ s a s', I s → step s a = some s' → I s') :
    ∀ (as : List α) (s s' : σ), I s → run step s as = some s' → I s'
  | [], s, s', h0, h => by cases h; exact h0
  | a :: as, s, s', h0, h => by
    obtain ⟨t, ht, hr⟩ := run_cons_some h
    exact run_inv hs as t s' (hs s a t h0 ht) hr

/-- The invariant rule for runs whose steps all meet a condition. -/
theorem run_inv_along {I : σ → Prop} {C : σ → α → Prop}
    (hs : ∀ s a s', I s → C s a → step s a = some s' → I s') :
    ∀ (as : List α) (s s' : σ), I s → Along step C s as → run step s as = some s' → I s'
  | [], s, s', h0, _, h => by cases h; exact h0
  | a :: as, s, s', h0, hc, h => by
    obtain ⟨t, ht, hr⟩ := run_cons_some h
    exact run_inv_along hs as t s' (hs s a t h0 hc.1 ht) (hc.2 t ht) hr

/-- Forward simulation: where each step of one system is matched by at most one step of another, a run
of the first is matched by a run of the second. -/
theorem run_refines {τ β : Type*} {step' : τ → β → Option τ} {R : σ → τ → Prop} {C : σ → α → Prop}
    (hs : ∀ s a s' t, R s t → C s a → step s a = some s' → ∃ t', (t' = t ∨ ∃ b, step' t b = some t') ∧ R s' t') :
    ∀ (as : List α) (s s' : σ) (t : τ), R s t → Along step C s as → run step s as = some s' →
      ∃ bs t', run step' t bs = some t' ∧ R s' t'
  | [], s, s', t, h0, _, h => by
    cases h
    exact ⟨[], t, rfl, h0⟩
  | a :: as, s, s', t, h0, hc, h => by
    obtain ⟨u, hu, hr⟩ := run_cons_some h
    obtain ⟨v, hv, hR⟩ := hs s a u t h0 hc.1 hu
    obtain ⟨bs, t', hbs, hR'⟩ := run_refines hs as u s' v hR (hc.2 u hu) hr
    rcases hv with rfl | ⟨b, hb⟩
    · exact ⟨bs, t', hbs, hR'⟩
    · refine ⟨b :: bs, t', ?_, hR'⟩
      rw [run_cons, hb]
      exact hbs

/-- Forward simulation under the same actions. -/
theorem run_simulates {τ : Type*} {step' : τ → α → Option τ} {R : σ → τ → Prop}
    (hs : ∀ s a s' t, R s t → step s a = some s' → ∃ t', step' t a = some t' ∧ R s' t') :
    ∀ (as : List α) (s s' : σ) (t : τ), R s t → run step s as = some s' → ∃ t', run step' t as = some t' ∧ R s' t'
  | [], s, s', t, h0, h => by
    cases h
    exact ⟨t, rfl, h0⟩
  | a :: as, s, s', t, h0, h => by
    obtain ⟨u, hu, hr⟩ := run_cons_some h
    obtain ⟨v, hv, hR⟩ := hs s a u t h0 hu
    obtain ⟨t', ht, hR'⟩ := run_simulates hs as u s' v hR hr
    refine ⟨t', ?_, hR'⟩
    rw [run_cons, hv]
    exact ht

/-- Where `Q`, kept by the steps that meet `C`, gives `P`, and a step that does not meet `C` ends
without `P`, all states of a run have `P` exactly when all its steps meet `C`. -/
theorem run_iff_along_of {I P Q : σ → Prop} {C : σ → α → Prop} (hI : ∀ s a s', I s → step s a = some s' → I s')
    (hQ : ∀ s, I s → Q s → P s) (hgood : ∀ s a s', I s → Q s → step s a = some s' → C s a → Q s')
    (hbad : ∀ s a s', I s → Q s → step s a = some s' → P s' → C s a) :
    ∀ (as : List α) (s s' : σ), I s → Q s → run step s as = some s' →
      ((∀ bs u, bs <+: as → run step s bs = some u → P u) ↔ Along step C s as)
  | [], s, s', hi, hq, _ => by
    refine iff_of_true (fun bs u hb hu => ?_) trivial
    rw [List.prefix_nil.mp hb] at hu
    cases hu
    exact hQ s hi hq
  | a :: as, s, s', hi, hq, h => by
    obtain ⟨t, ht, hr⟩ := run_cons_some h
    have hit := hI s a t hi ht
    have hcons : ∀ bs, run step s (a :: bs) = run step t bs := fun bs => by rw [run_cons, ht, Option.bind_some]
    constructor
    · intro hall
      have hc := hbad s a t hi hq ht (hall [a] t (List.prefix_append [a] as) (hcons []))
      refine ⟨hc, fun u hu => ?_⟩
      cases ht.symm.trans hu
      refine (run_iff_along_of hI hQ hgood hbad as t s' hit (hgood s a t hi hq ht hc) hr).mp fun bs u hb hu => ?_
      exact hall (a :: bs) u (List.cons_prefix_cons.mpr ⟨rfl, hb⟩) ((hcons bs).trans hu)
    · rintro ⟨hc, hal⟩ bs u hb hu
      have hqt := hgood s a t hi hq ht hc
      cases bs with
      | nil =>
        cases hu
        exact hQ s hi hq
      | cons b bs =>
        obtain ⟨rfl, hbs⟩ := List.cons_prefix_cons.mp hb
        rw [hcons] at hu
        exact (run_iff_along_of hI hQ hgood hbad as t s' hit hqt hr).mpr (hal t ht) bs u hbs hu

/-- If a step keeps `P` exactly when it meets `C`, then all states of a run have `P` exactly when
all its steps meet `C`. -/
theorem run_iff_along {I P : σ → Prop} {C : σ → α → Prop} (hI : ∀ s a s', I s → step s a = some s' → I s')
    (hP : ∀ s a s', I s → P s → step s a = some s' → (P s' ↔ C s a)) (as : List α) (s s' : σ) (hi : I s) (hp : P s)
    (h : run step s as = some s') :
    (∀ bs u, bs <+: as → run step s bs = some u → P u) ↔ Along step C s as :=
  run_iff_along_of hI (fun _ _ => id) (fun s a t hi hp ht => (hP s a t hi hp ht).mpr)
    (fun s a t hi hp ht => (hP s a t hi hp ht).mp) as s s' hi hp h

/-- Amortised counting: where each step pays for itself out of a potential and a credit, the steps
of a run that cost something are bounded by the potential it starts with and the credit it earns. -/
theorem run_amortized {I : σ → Prop} {C : σ → α → Prop} {P Q : σ → Nat} {c : α → Bool}
    (hs : ∀ s a s', I s → C s a → step s a = some s' →
      I s' ∧ P s' + (if c a = true then 1 else 0) + Q s ≤ P s + Q s') :
    ∀ (as : List α) (s s' : σ), I s → Along step C s as → run step s as = some s' →
      P s' + as.countP c + Q s ≤ P s + Q s'
  | [], s, s', _, _, h => by
    cases h
    simp
  | a :: as, s, s', h0, hc, h => by
    obtain ⟨t, ht, hr⟩ := run_cons_some h
    obtain ⟨hi, hp⟩ := hs s a t h0 hc.1 ht
    have hrest := run_amortized hs as t s' hi (hc.2 t ht) hr
    rw [List.countP_cons]
    omega

theorem Along.of_along {c : σ → α → Bool} {C : σ → α → Prop} (hc : ∀ s a, c s a = true → C s a) :
    ∀ {as : List α} {s : σ}, along step c s as = true → Along step C s as
  | [], _, _ => trivial
  | a :: as, s, h => by
    obtain ⟨h1, h2⟩ := Bool.and_eq_true_iff.mp h
    refine ⟨hc s a h1, fun s' hs => Along.of_along hc ?_⟩
    rw [hs] at h2
    exact h2

theorem passes_run {c : σ → α → Bool} {C : σ → α → Prop} {p : σ → Bool} (hc : ∀ s a, c s a = true → C s a) :
    ∀ {as : List α} {s : σ}, passes step c p s as = true →
      ∃ s', run step s as = some s' ∧ Along step C s as ∧ p s' = true
  | [], s, h => ⟨s, rfl, trivial, h⟩
  | a :: as, s, h => by
    obtain ⟨h1, h2⟩ := Bool.and_eq_true_iff.mp h
    obtain ⟨t, ht, h3⟩ := (Option.any_eq_true _ _).mp h2
    obtain ⟨s', hr, hal, hp⟩ := passes_run hc h3
    refine ⟨s', ?_, ⟨hc s a h1, fun u hu => ?_⟩, hp⟩
    · rw [run_cons, ht]
      exact hr
    · rw [ht] at hu
      cases hu
      exact hal

end

end NjuOs
