import Mathlib.Data.List.TakeWhile
import NjuOs.UserMem
import NjuOs.NameSound
import NjuOs.OsSound

/-!
# System calls keep to the memory of their arguments

Every loop over a path is said to look at a range of bytes that the model on lists gives: up to
the byte at which the walk stops. From the loops comes, call by call, which ranges have to lie
in user space for the call to touch nothing outside; the code checks those of `wait` only.
-/

namespace NjuOs

open List Option

def InUser (a : Nat) : Prop := userBase ≤ a ∧ a < userEnd

instance (a : Nat) : Decidable (InUser a) := inferInstanceAs (Decidable (_ ∧ _))

/-! ## Ranges of addresses -/

def Span (P : Nat → Prop) (p n : Nat) : Prop := ∀ i, i < n → P (add64 p i)

instance (P : Nat → Prop) [DecidablePred P] (p n : Nat) : Decidable (Span P p n) :=
  inferInstanceAs (Decidable (∀ i, i < n → _))

def UserBuf (p n : Nat) : Prop := Span InUser p n

instance (p n : Nat) : Decidable (UserBuf p n) := inferInstanceAs (Decidable (Span _ p n))

theorem add64_add64 (p i j : Nat) : add64 (add64 p i) j = add64 p (i + j) := by
  unfold add64
  omega

theorem add64_zero {p : Nat} (hp : p < addrs) : add64 p 0 = p := Nat.mod_eq_of_lt hp

theorem add64_lt (p i : Nat) : add64 p i < addrs := Nat.mod_lt _ (by decide)

section
variable {P : Nat → Prop} {p : Nat}

theorem Span.mono {n k : Nat} (h : Span P p n) (hk : k ≤ n) : Span P p k := fun i hi => h i (by omega)

theorem span_one (hp : p < addrs) : Span P p 1 ↔ P p := by
  simp only [Span, Nat.lt_one_iff, forall_eq, add64_zero hp]

theorem span_join {j k n : Nat} (hk : k ≤ j) (hj : j ≤ k + n) :
    Span P p j ∧ Span P (add64 p k) n ↔ Span P p (k + n) := by
  constructor
  · rintro ⟨h1, h2⟩ i hi
    by_cases hij : i < j
    · exact h1 i hij
    · have h := h2 (i - k) (by omega)
      rw [add64_add64, Nat.add_sub_cancel' (by omega)] at h
      exact h
  · intro h
    refine ⟨h.mono hj, fun i hi => ?_⟩
    rw [add64_add64]
    exact h (k + i) (by omega)

theorem span_cons {n : Nat} (hp : p < addrs) : P p ∧ Span P (add64 p 1) n ↔ Span P p (n + 1) := by
  rw [Nat.add_comm n 1, ← span_join (Nat.le_refl 1) (Nat.le_add_right 1 n), span_one hp]

theorem span_snoc {n : Nat} : Span P p n ∧ P (add64 p n) ↔ Span P p (n + 1) := by
  rw [← span_join (Nat.le_refl n) (Nat.le_add_right n 1), span_one (add64_lt p n)]

theorem span_head {n : Nat} (hp : p < addrs) : P p ∧ Span P p (n + 1) ↔ Span P p (n + 1) := by
  refine and_iff_right_of_imp fun h => ?_
  rw [← add64_zero hp]
  exact h 0 (by omega)

end

/-! ## Strings -/

def StrAt (m : Nat → UInt8) : Nat → List UInt8 → Prop
  | p, [] => p < addrs ∧ m p = 0
  | p, c :: s => p < addrs ∧ m p = c ∧ c ≠ 0 ∧ StrAt m (add64 p 1) s

def UserStr (m : Nat → UInt8) (p : Nat) (s : List UInt8) : Prop := StrAt m p s ∧ UserBuf p (s.length + 1)

/-- Behind an empty path the walk goes on with the next string. -/
def PathAt (m : Nat → UInt8) (p : Nat) (path : CStr) : Prop :=
  StrAt m p path.str ∧ (path.str = [] → StrAt m (add64 p 1) path.after)

section
variable {m : Nat → UInt8} {p : Nat} {s t : List UInt8}

theorem StrAt.lt (h : StrAt m p s) : p < addrs := by
  cases s with
  | nil => exact h.1
  | cons c s => exact h.1

theorem StrAt.load_eq_zero (h : StrAt m p s) : m p = 0 ↔ s = [] := by
  cases s with
  | nil => exact ⟨fun _ => rfl, fun _ => h.2⟩
  | cons c s =>
    refine ⟨fun h0 => ?_, fun h0 => nomatch h0⟩
    exact absurd (h.2.1.symm.trans h0) h.2.2.1

theorem StrAt.drop : ∀ {n : Nat} {s : List UInt8} {p : Nat}, StrAt m p s → n ≤ s.length →
    StrAt m (add64 p n) (s.drop n)
  | 0, s, p, h, _ => by
    rw [add64_zero h.lt]
    exact h
  | n + 1, [], _, _, hn => nomatch hn
  | n + 1, c :: s, p, h, hn => by
    have := StrAt.drop h.2.2.2 (Nat.le_of_succ_le_succ hn)
    rw [add64_add64, Nat.add_comm 1 n] at this
    exact this

theorem StrAt.suffix (h : StrAt m p s) (ht : t <:+ s) : StrAt m (add64 p (s.length - t.length)) t := by
  have := h.drop (Nat.sub_le s.length t.length)
  rwa [← suffix_iff_eq_drop.mp ht] at this

theorem StrAt.skipslash (h : StrAt m p s) :
    StrAt m (add64 p (s.length - (skipslash s).length)) (NjuOs.skipslash s) :=
  h.suffix (dropWhile_suffix _)

/-- The terminator is none of the bytes of the string, so addresses do not wrap around to them. -/
theorem StrAt.lt_addrs (h : StrAt m p s) : s.length < addrs := by
  by_contra hlen
  have hpos : 0 < addrs := Nat.two_pow_pos 64
  obtain ⟨n, hn⟩ : ∃ n, n + addrs = s.length := ⟨s.length - addrs, Nat.sub_add_cancel (Nat.le_of_not_lt hlen)⟩
  have hsame : add64 p s.length = add64 p n := by
    rw [← hn]
    unfold add64 addrs
    omega
  have hstop := h.drop (Nat.le_refl s.length)
  have hbyte := h.drop (n := n) (by omega)
  rw [hsame] at hstop
  have hnil := hbyte.load_eq_zero.mp (hstop.load_eq_zero.mpr drop_length)
  rw [drop_eq_nil_iff] at hnil
  omega

theorem strAt_of_zero : ∀ {fuel p : Nat}, p < addrs → (∃ i, i < fuel ∧ m (add64 p i) = 0) → StrAt m p (strAt m fuel p)
  | 0, _, _, ⟨_, hi, _⟩ => nomatch hi
  | fuel + 1, p, hp, ⟨i, hi, h0⟩ => by
    by_cases hm : m p = 0
    · rw [strAt, if_pos hm]
      exact ⟨hp, hm⟩
    · rw [strAt, if_neg hm]
      refine ⟨hp, rfl, hm, strAt_of_zero (add64_lt p 1) ⟨i - 1, ?_, ?_⟩⟩
      all_goals
        have hi0 : i ≠ 0 := by
          rintro rfl
          rw [add64_zero hp] at h0
          exact hm h0
      · omega
      · rw [add64_add64, Nat.add_sub_cancel' (by omega)]
        exact h0

def HasZero (m : Nat → UInt8) : Prop := ∃ a, a < addrs ∧ m a = 0

theorem HasZero.strAt (h : HasZero m) (hp : p < addrs) : StrAt m p (strAt m addrs p) := by
  obtain ⟨a, ha, h0⟩ := h
  refine strAt_of_zero hp ⟨(a + addrs - p) % addrs, Nat.mod_lt _ (by decide), ?_⟩
  have : add64 p ((a + addrs - p) % addrs) = a := by
    unfold add64 addrs
    unfold addrs at ha hp
    omega
  rw [this]
  exact h0

theorem HasZero.pathAt (h : HasZero m) (q : UInt64) : PathAt m q.toNat (cstrAt m q) :=
  ⟨h.strAt q.toNat_lt, fun _ => h.strAt (add64_lt _ _)⟩

/-! ## Loops over strings -/

def matchLen : List UInt8 → List UInt8 → Nat
  | c :: t, d :: s => if d = c then matchLen t s + 1 else 0
  | _, _ => 0

theorem matchLen_le : ∀ t s : List UInt8, matchLen t s ≤ s.length
  | [], _ => Nat.zero_le _
  | _ :: _, [] => Nat.zero_le _
  | c :: t, d :: s => by
    unfold matchLen
    split
    · exact Nat.succ_le_succ (matchLen_le t s)
    · exact Nat.zero_le _

theorem matchLen_full : ∀ {t s : List UInt8}, t <+: s → matchLen t s = t.length
  | [], _, _ => by simp [matchLen]
  | c :: t, [], h => nomatch eq_nil_of_prefix_nil h
  | c :: t, d :: s, h => by
    obtain ⟨hd, h⟩ := cons_prefix_cons.mp h
    rw [matchLen, if_pos hd.symm, matchLen_full h, length_cons]

theorem matchLen_lt : ∀ {t s : List UInt8}, ¬t <+: s → matchLen t s < t.length
  | [], s, h => absurd nil_prefix h
  | c :: t, [], _ => Nat.succ_pos _
  | c :: t, d :: s, h => by
    unfold matchLen
    split
    · next hd =>
      have := matchLen_lt (t := t) (s := s) fun hp => h (cons_prefix_cons.mpr ⟨hd.symm, hp⟩)
      exact Nat.succ_lt_succ this
    · exact Nat.succ_pos _

variable {P : Nat → Prop}

theorem looks_byte {α : Type} {f : UInt8 → UserM α} {a : α} {n : Nat} (hp : p < addrs)
    (h : Looks P m (f (m p)) a (Span P (add64 p 1) n)) : Looks P m (load p >>= f) a (Span P p (n + 1)) :=
  ((Looks.load p).bind h).congr (span_cons hp)

theorem looks_stop {α : Type} {a : α} : Looks P m (pure a) a (Span P p 0) :=
  Looks.pure.congr (by simp [Span])

theorem looks_skipslashAt : ∀ {fuel p : Nat} {s : List UInt8}, StrAt m p s → s.length < fuel →
    Looks P m (skipslashAt fuel p) (add64 p (s.length - (skipslash s).length))
      (Span P p (s.length - (skipslash s).length + 1))
  | 0, _, _, _, h => nomatch h
  | fuel + 1, p, s, h, hlen => by
    refine looks_byte h.lt ?_
    cases s with
    | nil =>
      rw [if_neg (by rw [h.2]; decide), length_nil, Nat.zero_sub, add64_zero h.lt]
      exact looks_stop
    | cons c s =>
      rw [h.2.1]
      by_cases hc : c = slash
      · have hs : skipslash (c :: s) = skipslash s := dropWhile_cons_of_pos (by simpa using hc)
        have hn : (c :: s).length - (skipslash s).length = 1 + (s.length - (skipslash s).length) := by
          have := skipslash_length s
          rw [length_cons]
          omega
        rw [if_pos hc, hs, hn, ← add64_add64, Nat.add_comm 1]
        exact looks_skipslashAt h.2.2.2 (Nat.lt_of_succ_lt_succ hlen)
      · have hs : skipslash (c :: s) = c :: s := dropWhile_cons_of_neg (by simpa using hc)
        rw [if_neg hc, hs, Nat.sub_self, add64_zero h.lt]
        exact looks_stop

theorem looks_scanName : ∀ {n p : Nat} {s name : List UInt8}, StrAt m p s → name = (s.takeWhile (· ≠ slash)).take n →
    Looks P m (scanName n p) (name, add64 p name.length) (Span P p (name.length + 1))
  | 0, p, s, _, h, rfl => by
    rw [take_zero, length_nil, add64_zero h.lt]
    exact looks_byte h.lt looks_stop
  | n + 1, p, [], _, h, rfl => by
    rw [takeWhile_nil, take_nil, length_nil, add64_zero h.lt]
    refine looks_byte h.lt ?_
    rw [if_pos (Or.inl h.2)]
    exact looks_stop
  | n + 1, p, c :: s, _, h, rfl => by
    by_cases hc : c = slash
    · rw [takeWhile_cons_of_neg (by simpa using hc), take_nil, length_nil, add64_zero h.lt]
      refine looks_byte h.lt ?_
      rw [h.2.1, if_pos (Or.inr hc)]
      exact looks_stop
    · rw [takeWhile_cons_of_pos (by simpa using hc), take_succ_cons, length_cons]
      refine looks_byte h.lt ?_
      rw [h.2.1, if_neg (not_or.mpr ⟨h.2.2.1, hc⟩), Nat.add_comm _ 1, ← add64_add64, Nat.add_comm 1]
      exact (looks_scanName h.2.2.2 rfl).map (g := fun r => (c :: r.1, r.2))

theorem nextcomp_suffix (s : List UInt8) : (nextcomp s).2 <:+ s :=
  (drop_suffix _ _).trans (dropWhile_suffix _)

theorem nextcomp_taken (s : List UInt8) :
    s.length - (nextcomp s).2.length = s.length - (skipslash s).length + (nextcomp s).1.length := by
  have h1 := skipslash_length s
  have h2 : (nextcomp s).2.length = (skipslash s).length - (nextcomp s).1.length := length_drop
  have h3 : (nextcomp s).1.length ≤ (skipslash s).length :=
    (take_sublist ..).length_le.trans (takeWhile_sublist _).length_le
  omega

theorem nextcomp_rest_lt (h : (nextcomp s).1 ≠ []) : (nextcomp s).2.length < s.length := by
  have h1 := nextcomp_taken s
  have h2 := length_pos_iff.mpr h
  omega

theorem looks_nextcompAt (h : StrAt m p s) :
    Looks P m (nextcompAt p) ((nextcomp s).1, add64 p (s.length - (nextcomp s).2.length))
      (Span P p (s.length - (nextcomp s).2.length + 1)) := by
  rw [nextcomp_taken, ← add64_add64, Nat.add_assoc]
  exact ((looks_skipslashAt h h.lt_addrs).bind (looks_scanName h.skipslash rfl)).congr (span_join (by omega) (by omega))

theorem looks_strncmpAt : ∀ {t s : List UInt8} {p : Nat}, StrAt m p s → 0 ∉ t →
    Looks P m (strncmpAt p t) (decide (t <+: s)) (Span P p (min t.length (matchLen t s + 1)))
  | [], s, p, _, _ => by
    rw [decide_eq_true nil_prefix]
    exact looks_stop
  | c :: t, [], p, h, h0 => by
    have hne : ¬m p = c := by
      rw [h.2]
      rintro rfl
      exact h0 mem_cons_self
    rw [decide_eq_false (p := c :: t <+: []) (by simp)]
    have hn : min (c :: t).length (matchLen (c :: t) [] + 1) = 0 + 1 := by simp [matchLen]
    rw [hn]
    refine looks_byte h.lt ?_
    rw [if_neg hne]
    exact looks_stop
  | c :: t, d :: s, p, h, h0 => by
    rw [length_cons, matchLen, Nat.add_min_add_right]
    refine looks_byte h.lt ?_
    rw [h.2.1]
    by_cases hd : d = c
    · rw [if_pos hd, if_pos hd]
      have hp : decide (c :: t <+: d :: s) = decide (t <+: s) := by simp [cons_prefix_cons, hd]
      rw [hp]
      exact looks_strncmpAt h.2.2.2 fun hm => h0 (mem_cons_of_mem _ hm)
    · rw [if_neg hd, if_neg hd, Nat.min_zero, decide_eq_false fun hp => hd (cons_prefix_cons.mp hp).1.symm]
      exact looks_stop

/-- A comparison that looks at the byte behind `t` only if all of `t` was there. -/
theorem looks_compare {α : Type} {f : Bool → UserM α} {a : α} {C : Prop} (h : StrAt m p s) (ht : 0 ∉ t)
    (hmatch : t <+: s → Looks P m (f true) a (P (add64 p t.length) ∧ C))
    (hother : ¬t <+: s → Looks P m (f false) a C) :
    Looks P m (strncmpAt p t >>= f) a (Span P p (matchLen t s + 1) ∧ C) := by
  by_cases hp : t <+: s
  · have hcmp := (looks_strncmpAt (P := P) h ht).bind (f := f) (decide_eq_true hp ▸ hmatch hp)
    refine hcmp.congr ?_
    rw [matchLen_full hp, Nat.min_eq_left (Nat.le_succ _), ← and_assoc, span_snoc]
  · have hcmp := (looks_strncmpAt (P := P) h ht).bind (f := f) (decide_eq_false hp ▸ hother hp)
    rwa [Nat.min_eq_right (matchLen_lt hp)] at hcmp

theorem looks_strcmpAt (h : StrAt m p s) (ht : 0 ∉ t) :
    Looks P m (strcmpAt p t) (decide (t = s)) (Span P p (matchLen t s + 1)) := by
  refine (looks_compare (C := True) h ht (fun hp => ?_) fun hp => ?_).congr (and_true _).to_iff
  · have hend := (h.drop hp.length_le).load_eq_zero
    rw [drop_eq_nil_iff] at hend
    have hts : decide (t = s) = decide (m (add64 p t.length) = 0) := by
      refine decide_eq_decide.mpr (Iff.trans ?_ hend.symm)
      exact ⟨fun hts => hts ▸ Nat.le_refl _, fun hle => hp.eq_of_length_le hle⟩
    rw [hts]
    exact (Looks.load _).bind Looks.pure
  · rw [decide_eq_false (p := t = s) fun hts => hp (hts ▸ prefix_rfl)]
    exact Looks.pure

theorem looks_strncpyAt : ∀ {n p : Nat} {s : List UInt8}, StrAt m p s →
    Looks P m (strncpyAt p n) (s.take n) (Span P p (min n (s.length + 1)))
  | 0, _, _, _ => by
    rw [Nat.zero_min]
    exact looks_stop
  | n + 1, p, s, h => by
    rw [Nat.add_min_add_right]
    refine looks_byte h.lt ?_
    cases s with
    | nil =>
      rw [if_pos h.2, length_nil, Nat.min_zero]
      exact looks_stop
    | cons c s =>
      rw [h.2.1, if_neg h.2.2.1, take_succ_cons]
      exact (looks_strncpyAt h.2.2.2).map (g := (c :: ·))

/-! ## Paths -/

def NamesOk (ms : List (List UInt8 × Nat)) : Prop := ∀ e ∈ ms, 0 ∉ e.1

instance (ms : List (List UInt8 × Nat)) : Decidable (NamesOk ms) := inferInstanceAs (Decidable (∀ _ ∈ _, _))

def MountsOk (v : Vfs) : Prop := v.mounts ≠ [] ∧ NamesOk v.mounts

instance (v : Vfs) : Decidable (MountsOk v) := inferInstanceAs (Decidable (_ ∧ _))

theorem cstring_eq {t : List UInt8} (h : 0 ∉ t) : cstring t = t := by
  refine takeWhile_eq_self_iff.mpr fun c hc => ?_
  have : c ≠ 0 := fun h0 => h (h0 ▸ hc)
  simpa using this

theorem StrAt.ends (h : StrAt m p s) : (m p = slash ∨ m p = 0) ↔ s.head?.all (· = slash) = true := by
  cases s with
  | nil => exact ⟨fun _ => rfl, fun _ => Or.inr h.2⟩
  | cons c s =>
    rw [h.2.1, head?_cons, Option.all_some, decide_eq_true_eq]
    exact ⟨fun hc => hc.resolve_right h.2.2.1, Or.inl⟩

theorem looks_bestMountAt (h : StrAt m p s) : ∀ {ms : List (List UInt8 × Nat)} {best : Nat × Nat}, NamesOk ms →
    Looks P m (bestMountAt p ms best) (bestMount s ms best) (∀ e ∈ ms, Span P p (matchLen e.1 s + 1))
  | [], _, _ => Looks.pure.congr (by simp)
  | (mp, root) :: ms, (bestRoot, bestlen), hn => by
    have hmp := hn _ mem_cons_self
    have htail {best : Nat × Nat} : Looks P m (bestMountAt p ms best) _ _ :=
      looks_bestMountAt h fun e he => hn e (mem_cons_of_mem _ he)
    rw [forall_mem_cons, bestMountAt, cstring_eq hmp, bestMount]
    refine looks_compare h hmp (fun hp => (Looks.load _).bind ?_) fun hp => ?_
    · have hends := (h.drop hp.length_le).ends
      by_cases hc : (m (add64 p mp.length) = slash ∨ m (add64 p mp.length) = 0) ∧ bestlen < mp.length
      · rw [if_pos hc, if_pos ⟨hp, hends.mp hc.1, hc.2⟩]
        exact htail
      · rw [if_neg hc, if_neg fun hb => hc ⟨hends.mpr hb.2.1, hb.2.2⟩]
        exact htail
    · have hbest : ¬(mp <+: s ∧ (s.drop mp.length).head?.all (· = slash) = true ∧ bestlen < mp.length) :=
        fun hb => hp hb.1
      rw [if_neg hbest]
      exact htail

theorem bestMount_length : ∀ {ms : List (List UInt8 × Nat)} {best : Nat × Nat}, best.2 = 1 ∨ best.2 ≤ s.length →
    (bestMount s ms best).2 = 1 ∨ (bestMount s ms best).2 ≤ s.length
  | [], _, h => h
  | (mp, root) :: ms, (bestRoot, bestlen), h => by
    rw [bestMount]
    split
    · next hb => exact bestMount_length (Or.inr hb.1.length_le)
    · exact bestMount_length h

variable {path : CStr} {v : Vfs}

theorem PathAt.advance (h : PathAt m p path) {n : Nat} (hn : n = 1 ∨ n ≤ path.str.length) :
    StrAt m (add64 p n) (path.advance n) := by
  unfold CStr.advance
  split
  · next hle => exact h.1.drop hle
  · next hgt =>
    have hn1 : n = 1 := hn.resolve_right hgt
    subst hn1
    exact h.2 (length_eq_zero_iff.mp (by omega))

def mountLen (v : Vfs) (path : CStr) : Nat :=
  (bestMount path.str v.mounts.tail ((v.mounts.head?.map (·.2)).getD 0, 1)).2

/-- The bytes in `P` that a walk of `path` looks at: `resolve_mount` compares with every mount point
but the first, and what follows goes on to where `rest` begins. -/
def WalkIn (P : Nat → Prop) (v : Vfs) (p : Nat) (path : CStr) (rest : List UInt8) : Prop :=
  (∀ e ∈ v.mounts.tail, Span P p (matchLen e.1 path.str + 1)) ∧
    Span P (add64 p (mountLen v path)) ((path.advance (mountLen v path)).length - rest.length + 1)

instance [DecidablePred P] (v : Vfs) (p : Nat) (path : CStr) (rest : List UInt8) : Decidable (WalkIn P v p path rest) :=
  inferInstanceAs (Decidable ((∀ _ ∈ _, _) ∧ _))

theorem looks_walk {α : Type} {f : Nat × Nat → UserM α} {a : α} {rest : List UInt8} (hv : MountsOk v)
    (h : PathAt m p path) (hrest : rest.length ≤ (resolveMount v path).2.length)
    (hf : ∀ q, StrAt m q (resolveMount v path).2 → Looks P m (f ((resolveMount v path).1, q)) a
      (Span P q ((resolveMount v path).2.length - rest.length + 1))) :
    Looks P m (resolveMountAt v p >>= f) a (WalkIn P v p path rest) := by
  let best := bestMount path.str v.mounts.tail ((v.mounts.head?.map (·.2)).getD 0, 1)
  have hres : resolveMount v path = (best.1, skipslash (path.advance best.2)) := by
    unfold resolveMount
    cases hms : v.mounts with
    | nil => exact absurd hms hv.1
    | cons e ms =>
      simp only [best, hms]
      rfl
  have hadv : StrAt m (add64 p best.2) (path.advance best.2) := h.advance (bestMount_length (Or.inl rfl))
  have hskip := skipslash_length (path.advance best.2)
  rw [hres] at hf hrest
  have hbest : Looks P m (bestMountAt p v.mounts.tail _) best _ :=
    looks_bestMountAt h.1 fun e he => hv.2 e (mem_of_mem_tail he)
  have hres : Looks P m (resolveMountAt v p) (best.1, _) _ :=
    hbest.bind (looks_skipslashAt hadv hadv.lt_addrs).map
  refine (hres.bind (hf _ hadv.skipslash)).congr (and_assoc.trans (and_congr Iff.rfl ?_))
  refine (span_join (by omega) (by omega)).trans ?_
  have hlen : (path.advance best.2).length - (skipslash (path.advance best.2)).length +
      ((skipslash (path.advance best.2)).length - rest.length + 1) = (path.advance best.2).length - rest.length + 1 := by
    dsimp only at hrest
    omega
  rw [hlen]
  rfl

def nameiEnd (v : Vfs) : Nat → Nat → List UInt8 → List UInt8
  | 0, _, rest => rest
  | fuel + 1, ip, rest =>
    let (name, rest) := nextcomp rest
    if name = [] then rest
    else
      match dirLookup v ip name with
      | none => rest
      | some j => nameiEnd v fuel j rest

theorem nameiEnd_length : ∀ (fuel ip : Nat) (s : List UInt8), (nameiEnd v fuel ip s).length ≤ s.length
  | 0, _, _ => Nat.le_refl _
  | fuel + 1, ip, s => by
    have hlen := (nextcomp_suffix s).length_le
    rw [nameiEnd]
    dsimp only
    split
    · exact hlen
    · split
      · exact hlen
      · exact (nameiEnd_length fuel _ _).trans hlen

theorem looks_nameiLoopAt : ∀ {fuel fuel' ip q : Nat} {s : List UInt8}, StrAt m q s → s.length < fuel →
    s.length ≤ fuel' → Looks P m (nameiLoopAt v fuel ip q) (nameiLoop v fuel' ip s)
      (Span P q (s.length - (nameiEnd v fuel' ip s).length + 1))
  | 0, _, _, _, _, _, hlen, _ => nomatch hlen
  | fuel + 1, fuel', ip, q, [], h, _, _ => by
    rw [nameiLoop_slashes fuel' ip rfl, length_nil, Nat.zero_sub]
    refine looks_byte h.lt ?_
    rw [if_pos h.2]
    exact looks_stop
  | fuel + 1, 0, _, _, _ :: _, _, _, hlen => nomatch hlen
  | fuel + 1, fuel' + 1, ip, q, c :: t, h, hlen, hlen' => by
    refine ((Looks.load q).bind ?_).congr (span_head h.lt)
    rw [if_neg fun h0 => nomatch h.load_eq_zero.mp h0]
    obtain ⟨s, hs⟩ : ∃ s, s = c :: t := ⟨_, rfl⟩
    rw [← hs] at h hlen hlen' ⊢
    rw [nameiLoop_succ, nameiEnd]
    have hnext : Looks P m (nextcompAt q) _ _ := looks_nextcompAt h
    have hrest := h.suffix (nextcomp_suffix s)
    dsimp only
    by_cases hn : (nextcomp s).1 = []
    · rw [if_pos (Or.inr hn), if_pos hn]
      refine (hnext.bind ?_).congr (and_true _).to_iff
      dsimp only
      rw [if_pos hn]
      exact Looks.pure
    rw [if_neg (not_or.mpr ⟨by simp [hs], hn⟩), if_neg hn]
    by_cases hd : (v.inodes ip).type ≠ .dir
    · have hl : dirLookup v ip (nextcomp s).1 = none := by rw [dirLookup, if_pos hd]
      rw [hl]
      refine (hnext.bind ?_).congr (and_true _).to_iff
      dsimp only
      rw [if_neg hn, if_pos hd]
      exact Looks.pure
    cases hl : dirLookup v ip (nextcomp s).1 with
    | none =>
      refine (hnext.bind ?_).congr (and_true _).to_iff
      dsimp only
      rw [if_neg hn, if_neg hd, hl]
      exact Looks.pure
    | some j =>
      have hlt := nextcomp_rest_lt hn
      have hend := nameiEnd_length (v := v) fuel' j (nextcomp s).2
      have ih : Looks P m (nameiLoopAt v fuel j _) (nameiLoop v fuel' j _) _ :=
        looks_nameiLoopAt hrest (by omega) (by omega)
      have hlen : s.length - (nameiEnd v fuel' j (nextcomp s).2).length + 1 = s.length - (nextcomp s).2.length +
          ((nextcomp s).2.length - (nameiEnd v fuel' j (nextcomp s).2).length + 1) := by omega
      dsimp only
      rw [hlen]
      refine (hnext.bind ?_).congr (span_join (by omega) (by omega))
      dsimp only
      rw [if_neg hn, if_neg hd, hl]
      exact ih

def NameiIn (P : Nat → Prop) (v : Vfs) (p : Nat) (path : CStr) : Prop :=
  let (ip, rest) := resolveMount v path
  WalkIn P v p path (nameiEnd v rest.length ip rest)

instance [DecidablePred P] (v : Vfs) (p : Nat) (path : CStr) : Decidable (NameiIn P v p path) :=
  inferInstanceAs (Decidable (WalkIn ..))

theorem looks_nameiAt (hv : MountsOk v) (h : PathAt m p path) :
    Looks P m (nameiAt v p) (namei v path) (NameiIn P v p path) :=
  looks_walk hv h (nameiEnd_length ..) fun _ hq => looks_nameiLoopAt hq hq.lt_addrs (Nat.le_refl _)

def nameiParentEnd (v : Vfs) : Nat → Nat → List UInt8 → List UInt8
  | 0, _, rest => rest
  | fuel + 1, ip, rest =>
    let (name, rest) := nextcomp rest
    let n := skipslash rest
    if n = [] then n
    else
      match dirLookup v ip name with
      | none => n
      | some j => nameiParentEnd v fuel j n

theorem nameiParentEnd_length : ∀ (fuel ip : Nat) (s : List UInt8), (nameiParentEnd v fuel ip s).length ≤ s.length
  | 0, _, _ => Nat.le_refl _
  | fuel + 1, ip, s => by
    have hlen := (skipslash_length (nextcomp s).2).trans (nextcomp_suffix s).length_le
    rw [nameiParentEnd]
    dsimp only
    split
    · exact hlen
    · split
      · exact hlen
      · exact (nameiParentEnd_length fuel _ _).trans hlen

theorem looks_component {α : Type} {f : List UInt8 × Nat → Nat → UserM α} {a : α} {rest : List UInt8} {q : Nat}
    (h : StrAt m q s) (hrest : rest.length ≤ (skipslash (nextcomp s).2).length)
    (hf : ∀ r n, StrAt m n (skipslash (nextcomp s).2) →
      Looks P m (f ((nextcomp s).1, r) n) a (Span P n ((skipslash (nextcomp s).2).length - rest.length + 1))) :
    Looks P m (do
      let r ← nextcompAt q
      let n ← skipslashAt addrs r.2
      f r n) a (Span P q (s.length - rest.length + 1)) := by
  have hr := h.suffix (nextcomp_suffix s)
  have h1 := (nextcomp_suffix s).length_le
  have h2 := skipslash_length (nextcomp s).2
  have hslashes := (looks_skipslashAt (P := P) hr hr.lt_addrs).bind
    (hf (add64 q (s.length - (nextcomp s).2.length)) _ hr.skipslash)
  have hlen : s.length - rest.length + 1 = s.length - (nextcomp s).2.length +
      ((nextcomp s).2.length - (skipslash (nextcomp s).2).length +
        ((skipslash (nextcomp s).2).length - rest.length + 1)) := by omega
  rw [hlen]
  refine ((looks_nextcompAt h).bind (hslashes.congr (span_join (by omega) (by omega)))).congr ?_
  exact span_join (by omega) (by omega)

theorem looks_nameiParentLoopAt : ∀ {fuel fuel' ip q : Nat} {s : List UInt8}, StrAt m q s → skipslash s = s →
    s ≠ [] → s.length ≤ fuel → s.length ≤ fuel' →
    Looks P m (nameiParentLoopAt v fuel ip q) (nameiParentLoop v fuel' ip s)
      (Span P q (s.length - (nameiParentEnd v fuel' ip s).length + 1))
  | 0, _, _, _, _, _, _, hne, hlen, _ => absurd (length_eq_zero_iff.mp (Nat.le_zero.mp hlen)) hne
  | _ + 1, 0, _, _, _, _, _, hne, _, hlen => absurd (length_eq_zero_iff.mp (Nat.le_zero.mp hlen)) hne
  | fuel + 1, fuel' + 1, ip, q, s, h, hs, hne, hlen, hlen' => by
    have h1 := (nextcomp_some hs hne).2
    have h2 := skipslash_length (nextcomp s).2
    rw [nameiParentLoop_succ, nameiParentEnd, nameiParentLoopAt]
    dsimp only
    by_cases hlast : skipslash (nextcomp s).2 = []
    · rw [if_pos hlast, if_pos hlast]
      refine looks_component h (by rw [hlast]) fun _ n hn => ?_
      rw [hlast] at hn ⊢
      refine looks_byte hn.lt ?_
      rw [if_pos hn.2]
      exact looks_stop
    rw [if_neg hlast, if_neg hlast]
    by_cases hd : (v.inodes ip).type ≠ .dir
    · have hl : dirLookup v ip (nextcomp s).1 = none := by rw [dirLookup, if_pos hd]
      rw [hl]
      refine looks_component h (Nat.le_refl _) fun _ n hn => ?_
      rw [Nat.sub_self]
      refine looks_byte hn.lt ?_
      rw [if_neg fun h0 => hlast (hn.load_eq_zero.mp h0), if_pos hd]
      exact looks_stop
    cases hl : dirLookup v ip (nextcomp s).1 with
    | none =>
      refine looks_component h (Nat.le_refl _) fun _ n hn => ?_
      rw [Nat.sub_self]
      refine looks_byte hn.lt ?_
      rw [if_neg fun h0 => hlast (hn.load_eq_zero.mp h0), if_neg hd, hl]
      exact looks_stop
    | some j =>
      refine looks_component h (nameiParentEnd_length ..) fun _ n hn => ?_
      refine ((Looks.load n).bind ?_).congr (span_head hn.lt)
      rw [if_neg fun h0 => hlast (hn.load_eq_zero.mp h0), if_neg hd, hl]
      exact looks_nameiParentLoopAt hn (skipslash_idem _) hlast (by omega) (by omega)

def ParentIn (P : Nat → Prop) (v : Vfs) (p : Nat) (path : CStr) : Prop :=
  let (ip, rest) := resolveMount v path
  WalkIn P v p path (nameiParentEnd v (skipslash rest).length ip (skipslash rest))

instance [DecidablePred P] (v : Vfs) (p : Nat) (path : CStr) : Decidable (ParentIn P v p path) :=
  inferInstanceAs (Decidable (WalkIn ..))

theorem looks_nameiParentAt (hv : MountsOk v) (h : PathAt m p path) :
    Looks P m (nameiParentAt v p) (nameiParent v path) (ParentIn P v p path) := by
  obtain ⟨ip, s, hres⟩ : ∃ ip s, resolveMount v path = (ip, s) := ⟨_, _, rfl⟩
  have hend := nameiParentEnd_length (v := v) (skipslash s).length ip (skipslash s)
  have hskip := skipslash_length s
  unfold ParentIn nameiParent
  rw [hres]
  refine looks_walk hv h (by rw [hres]; exact hend.trans hskip) fun q hq => ?_
  rw [hres] at hq ⊢
  dsimp only at hq ⊢
  have hstr := hq.skipslash
  have hlen : s.length - (nameiParentEnd v (skipslash s).length ip (skipslash s)).length + 1 =
      s.length - (skipslash s).length +
        ((skipslash s).length - (nameiParentEnd v (skipslash s).length ip (skipslash s)).length + 1) := by omega
  rw [hlen]
  refine ((looks_skipslashAt hq hq.lt_addrs).bind ?_).congr (span_join (by omega) (by omega))
  by_cases hs : skipslash s = []
  · have hone : (skipslash s).length - (nameiParentEnd v (skipslash s).length ip (skipslash s)).length + 1 = 0 + 1 := by
      have := length_eq_zero_iff.mpr hs
      omega
    rw [if_pos hs, hone]
    refine looks_byte hstr.lt ?_
    rw [if_pos (hstr.load_eq_zero.mpr hs)]
    exact looks_stop
  · rw [if_neg hs]
    refine ((Looks.load _).bind ?_).congr (span_head hstr.lt)
    rw [if_neg fun h0 => hs (hstr.load_eq_zero.mp h0)]
    exact looks_nameiParentLoopAt hstr (skipslash_idem _) hs hstr.lt_addrs.le (Nat.le_refl _)

/-! ## Programs -/

theorem looks_progNameAt (h : StrAt m p s) : ∃ j, s.length - (progName s).length ≤ j ∧
    j ≤ s.length - (progName s).length + min 58 ((progName s).length + 1) ∧
      Looks P m (progNameAt p) (add64 p (s.length - (progName s).length)) (Span P p j) := by
  -- a name that is taken from the first byte on
  have hall (hs : progName s = s) (hb : ¬m p = slash) : ∃ j, s.length - (progName s).length ≤ j ∧
      j ≤ s.length - (progName s).length + min 58 ((progName s).length + 1) ∧
        Looks P m (progNameAt p) (add64 p (s.length - (progName s).length)) (Span P p j) := by
    refine ⟨1, ?_⟩
    rw [hs, Nat.sub_self, add64_zero h.lt]
    refine ⟨by omega, by omega, looks_byte h.lt ?_⟩
    rw [if_neg hb]
    exact looks_stop
  cases s with
  | nil => exact hall rfl (by rw [h.2]; decide)
  | cons c s =>
    by_cases hc : c = slash
    · have hcmp : Looks P m (strncmpAt (add64 p 1) (bytes "bin/")) _ _ := looks_strncmpAt h.2.2.2 (by decide)
      have hfour : (bytes "bin/").length = 4 := by decide
      rw [hfour] at hcmp
      by_cases hp : bytes "bin/" <+: s
      · have hname : progName (c :: s) = s.drop 4 := (if_pos hc).trans (if_pos hp)
        have hle := hp.length_le
        have hk : (c :: s).length - (s.drop 4).length = 5 := by
          rw [length_drop, length_cons]
          omega
        refine ⟨5, ?_⟩
        rw [hname, hk]
        refine ⟨by omega, by omega, looks_byte h.lt ?_⟩
        rw [h.2.1, if_pos hc]
        rw [matchLen_full hp, hfour, Nat.min_eq_left (by omega)] at hcmp
        refine (hcmp.bind ?_).congr (and_true _).to_iff
        rw [if_pos (decide_eq_true hp)]
        exact Looks.pure
      · have hname : progName (c :: s) = s := (if_pos hc).trans (if_neg hp)
        have hlt := matchLen_lt hp
        have hle := matchLen_le (bytes "bin/") s
        refine ⟨matchLen (bytes "bin/") s + 1 + 1, ?_⟩
        rw [hname, length_cons, Nat.add_sub_cancel_left]
        refine ⟨by omega, by omega, looks_byte h.lt ?_⟩
        rw [h.2.1, if_pos hc]
        rw [Nat.min_eq_right (by omega)] at hcmp
        refine (hcmp.bind ?_).congr (and_true _).to_iff
        rw [if_neg (by simpa using hp)]
        exact Looks.pure
    · exact hall (if_neg hc) (by rw [h.2.1]; exact hc)

theorem looks_uprogFindAt (h : StrAt m p s) : ∀ {us : List (List UInt8 × List UInt8)}, (∀ u ∈ us, 0 ∉ u.1) →
    Looks P m (uprogFindAt p us) (us.find? fun u => u.1 = s) (∀ u ∈ us, Span P p (matchLen u.1 s + 1))
  | [], _ => Looks.pure.congr (by simp)
  | u :: us, hu => by
    have hu1 := hu u mem_cons_self
    have hcmp : Looks P m (strcmpAt p u.1) _ _ := looks_strcmpAt h hu1
    rw [uprogFindAt, cstring_eq hu1]
    by_cases hus : u.1 = s
    · rw [find?_cons_of_pos (by simpa using hus)]
      refine (hcmp.bind (D := True) ?_).congr ?_
      · rw [if_pos (decide_eq_true hus)]
        exact Looks.pure
      · -- the program found was compared to its end, so the later ones would add nothing
        rw [and_true, forall_mem_cons, and_iff_left_of_imp]
        intro hspan w hw
        refine hspan.mono ?_
        rw [hus, matchLen_full prefix_rfl]
        exact Nat.succ_le_succ (matchLen_le _ _)
    · rw [find?_cons_of_neg (by simpa using hus), forall_mem_cons]
      refine hcmp.bind ?_
      rw [if_neg (by simpa using hus)]
      exact looks_uprogFindAt h fun w hw => hu w (mem_cons_of_mem _ hw)

theorem vfsProgData_take (name : List UInt8) : vfsProgData v (name.take 58) = vfsProgData v name := by
  unfold vfsProgData
  rw [take_take, Nat.min_self]

/-- `exec` of the path `s` looks at bytes in `P` only: it copies at most 58 bytes of the name and
compares the name with the table of programs unless `/bin` has it. -/
def ExecIn (P : Nat → Prop) (k : Kernel) (p : Nat) (s : List UInt8) : Prop :=
  let name := progName s
  let q := s.length - name.length
  Span P p (q + min 58 (name.length + 1)) ∧
    ((vfsProgData k.vfs name).bind (·.1) = none → ∀ u ∈ k.uprogs, Span P (add64 p q) (matchLen u.1 name + 1))

instance [DecidablePred P] (k : Kernel) (p : Nat) (s : List UInt8) : Decidable (ExecIn P k p s) :=
  inferInstanceAs (Decidable (_ ∧ (_ → ∀ _ ∈ _, _)))

theorem progName_suffix (s : List UInt8) : progName s <:+ s := by
  unfold progName
  split
  · exact suffix_rfl
  · split
    · split
      · exact (drop_suffix _ _).trans (suffix_cons _ _)
      · exact suffix_cons _ _
    · exact suffix_rfl

theorem looks_execImageAt {k : Kernel} (hu : ∀ u ∈ k.uprogs, 0 ∉ u.1) (h : StrAt m p s) :
    Looks P m (execImageAt k p) (execImage k (progName s)) (ExecIn P k p s) := by
  obtain ⟨j, hj, hj', hname⟩ := looks_progNameAt (P := P) h
  have hq := h.suffix (progName_suffix s)
  have hcopy : Looks P m (strncpyAt _ 58) _ _ := looks_strncpyAt hq
  have htable := (looks_uprogFindAt (P := P) hq hu).map (g := Option.map fun u => (u.2, u.2.length))
  have hjoin := span_join (P := P) (p := p) hj hj'
  unfold execImage ExecIn
  dsimp only
  rcases hd : vfsProgData k.vfs (progName s) with _ | ⟨_ | d, len⟩
  · refine (hname.bind (hcopy.bind ?_)).congr
      (and_assoc.symm.trans (and_congr hjoin (forall_prop_of_true (by rfl)).symm))
    rw [vfsProgData_take, hd]
    exact htable
  · refine (hname.bind (hcopy.bind ?_)).congr
      (and_assoc.symm.trans (and_congr hjoin (forall_prop_of_true (by rfl)).symm))
    rw [vfsProgData_take, hd]
    exact htable
  · refine (hname.bind (hcopy.bind (D := True) ?_)).congr
      (and_assoc.symm.trans (and_congr hjoin (by simp)))
    rw [vfsProgData_take, hd]
    exact Looks.pure

/-! ## Calls -/

section
variable (hv : MountsOk v) (h : PathAt m p path)
include hv h

theorem looks_vfsOpenAt {flags : Nat} : Looks P m (vfsOpenAt v p flags) ⟨⟩
    (NameiIn P v p path ∧ (namei v path = none → flags &&& oCreate ≠ 0 → ParentIn P v p path)) := by
  refine (looks_nameiAt hv h).bind ?_
  cases namei v path with
  | some ip => exact Looks.pure.congr (by simp)
  | none =>
    dsimp only
    by_cases hc : flags &&& oCreate = 0
    · rw [if_pos hc]
      exact Looks.pure.congr (by simp [hc])
    · rw [if_neg hc]
      exact (looks_nameiParentAt hv h).map.congr (by simp [hc])

theorem looks_vfsMkdirAt : Looks P m (vfsMkdirAt v p) ⟨⟩
    (NameiIn P v p path ∧ (namei v path = none → ParentIn P v p path)) := by
  refine (looks_nameiAt hv h).bind ?_
  cases namei v path with
  | some ip => exact Looks.pure.congr (by simp)
  | none => exact (looks_nameiParentAt hv h).map.congr (by simp)

theorem looks_vfsLinkAt {q : Nat} {path' : CStr} (h' : PathAt m q path') : Looks P m (vfsLinkAt v p q) ⟨⟩
    (NameiIn P v p path ∧ ∀ ip ∈ namei v path, (v.inodes ip).type ≠ .dir → ParentIn P v q path') := by
  refine (looks_nameiAt hv h).bind ?_
  cases namei v path with
  | none => exact Looks.pure.congr (by simp)
  | some ip =>
    dsimp only
    by_cases hd : (v.inodes ip).type = .dir
    · rw [if_pos hd]
      exact Looks.pure.congr (by simp [hd])
    · rw [if_neg hd]
      exact (looks_nameiParentAt hv h').map.congr (by simp [hd])

theorem looks_vfsChdirAt : Looks P m (vfsChdirAt v p) ⟨⟩ (NameiIn P v p path ∧
    ∀ ip ∈ namei v path, (v.inodes ip).type = .dir → Span P p (min 63 (path.str.length + 1))) := by
  refine (looks_nameiAt hv h).bind ?_
  cases namei v path with
  | none => exact Looks.pure.congr (by simp)
  | some ip =>
    dsimp only
    by_cases hd : (v.inodes ip).type = .dir
    · rw [if_neg (not_not.mpr hd)]
      exact (looks_strncpyAt h.1).map.congr (by simp [hd])
    · rw [if_pos hd]
      exact Looks.pure.congr (by simp [hd])

end

theorem touches_vfsReadAt (files : Files) (e : ProcEnv) (fd : Int) (buf : Nat) (n : Int) :
    Touches P m (vfsReadAt v files e fd buf n) (Span P buf (readBytes v files e fd n).length) :=
  (touches_storeAll ..).congr (by simp only [Nat.zero_add, Span])

/-- `fstat` fills its buffer if the descriptor is open and the buffer is not null. -/
theorem vfsFstatAt_eq (files : Files) (fd : Int) (st : Nat) : ∃ bs, vfsFstatAt v files fd st = storeAll (add64 st) 0 bs ∧
    bs.length = if st ≠ 0 ∧ (getfile files fd).any (fun f => (v.ftable f).ip.isSome) then 12 else 0 := by
  unfold vfsFstatAt vfsFstat
  cases getfile files fd with
  | none => exact ⟨[], rfl, by simp⟩
  | some f =>
    by_cases hst : st = 0
    · subst hst
      exact ⟨[], rfl, by simp⟩
    cases hip : (v.ftable f).ip with
    | none =>
      refine ⟨[], ?_, by simp [hip]⟩
      simp only [decide_eq_false hst, inodeOf, hip]
      rfl
    | some i =>
      refine ⟨Ustat.bytes ⟨(v.inodes i).type.code, if (v.inodes i).type = .file then (v.inodes i).size else 0,
        (v.inodes i).ino⟩, ?_, by simp [hip, hst, Ustat.bytes, intBytes]⟩
      simp only [decide_eq_false hst, inodeOf, hip]
      rfl

end

theorem userBuf_of_userOk {p n : Nat} (h : userOk p n = true) (hp : p < 2 ^ 64) (hn : n < 2 ^ 64) : UserBuf p n := by
  unfold userOk add64 at h
  rw [decide_eq_true_eq] at h
  obtain ⟨hbase, hend, hwrap⟩ := h
  intro i hi
  unfold userBase at hbase
  unfold userEnd at hend
  unfold InUser userBase userEnd add64
  omega

/-! ## The system call -/

/-- What a call touches through its arguments lies in user space. -/
def ArgsOk (k : Kernel) (p : TaskRef) (e : ProcEnv) (mem : Mem) (m : Nat → UInt8) (r : Regs) : Prop :=
  let v := k.vfs
  let files := (k.tasks p).files
  let path := cstrAt m r.a0
  match sysNo r.num.toNat with
  | some .exec => userOk r.a0.toNat 1 = true → ExecIn InUser k r.a0.toNat path.str
  | some .open => NameiIn InUser v r.a0.toNat path ∧
      (namei v path = none → toBits32 r.a1 &&& oCreate ≠ 0 → ParentIn InUser v r.a0.toNat path)
  | some .mkdir => NameiIn InUser v r.a0.toNat path ∧ (namei v path = none → ParentIn InUser v r.a0.toNat path)
  | some .unlink => ParentIn InUser v r.a0.toNat path
  | some .chdir => NameiIn InUser v r.a0.toNat path ∧
      ∀ ip ∈ namei v path, (v.inodes ip).type = .dir → UserBuf r.a0.toNat (min 63 (path.str.length + 1))
  | some .link => NameiIn InUser v r.a0.toNat path ∧
      ∀ ip ∈ namei v path, (v.inodes ip).type ≠ .dir → ParentIn InUser v r.a1.toNat (cstrAt m r.a1)
  | some .read => UserBuf r.a1.toNat (readBytes v files e (toInt32 r.a0) (toInt32 r.a2)).length
  | some .write => UserBuf r.a1.toNat (writeLength v files mem (toInt32 r.a0) (toInt32 r.a2))
  | some .fstat => r.a1.toNat ≠ 0 → (getfile files (toInt32 r.a0)).any (fun f => (v.ftable f).ip.isSome) →
      UserBuf r.a1.toNat 12
  | _ => True

instance (k : Kernel) (p : TaskRef) (e : ProcEnv) (mem : Mem) (m : Nat → UInt8) (r : Regs) :
    Decidable (ArgsOk k p e mem m r) := by
  unfold ArgsOk
  split <;> infer_instance

section
variable {m m' : Nat → UInt8} {k : Kernel} {p : TaskRef} {e : ProcEnv} {mem : Mem} {r : Regs}

theorem touches_sysWaitAt {va : Nat} (hva : va < 2 ^ 64) : Touches InUser m (sysWaitAt k p va) True := by
  unfold sysWaitAt
  split
  · split
    · next hc =>
      refine (touches_storeAll ..).congr (iff_true_intro fun j hj => ?_)
      rw [Nat.zero_add]
      exact userBuf_of_userOk hc.2.2 hva (by decide) j hj
    · exact Looks.pure.touches
  · exact Looks.pure.touches

theorem looks_sysExecAt {P : Nat → Prop} {q : Nat} {s : List UInt8} (hu : ∀ u ∈ k.uprogs, 0 ∉ u.1) (h : StrAt m q s) :
    Looks P m (sysExecAt k q) ⟨⟩ (userOk q 1 = true → ExecIn P k q s) := by
  unfold sysExecAt
  by_cases hok : userOk q 1 = true
  · rw [if_neg (by simp [hok])]
    exact (looks_execImageAt hu h).map.congr (by simp [hok])
  · rw [if_pos (by simpa using hok)]
    exact Looks.pure.congr (by simp [hok])

theorem looks_vfsWriteAt {P : Nat → Prop} {v : Vfs} {files : Files} {fd n : Int} {buf : Nat} :
    Looks P m (vfsWriteAt v files mem fd buf n) ⟨⟩ (Span P buf (writeLength v files mem fd n)) := by
  have hload := looks_loadAll (P := P) (m := m) (add64 buf) 0 (writeLength v files mem fd n)
  exact hload.map.congr (by simp only [Nat.zero_add, Span])

section
variable (hv : MountsOk k.vfs) (hu : ∀ u ∈ k.uprogs, 0 ∉ u.1) (hm : HasZero m)
include hv hu hm

theorem touches_argAccess : Touches InUser m (argAccess k p e mem r) (ArgsOk k p e mem m r) := by
  have hp := hm.pathAt r.a0
  unfold argAccess ArgsOk
  cases hn : sysNo r.num.toNat with
  | none => exact Looks.pure.touches
  | some n =>
    cases n with
    | exec => exact (looks_sysExecAt hu hp.1).touches
    | wait => exact touches_sysWaitAt r.a0.toNat_lt
    | «open» => exact (looks_vfsOpenAt hv hp).touches
    | mkdir => exact (looks_vfsMkdirAt hv hp).touches
    | unlink => exact (looks_nameiParentAt hv hp).map.touches
    | chdir => exact (looks_vfsChdirAt hv hp).touches
    | link => exact (looks_vfsLinkAt hv hp (hm.pathAt r.a1)).touches
    | read => exact touches_vfsReadAt ..
    | write => exact looks_vfsWriteAt.touches
    | fstat =>
      obtain ⟨bs, hbs, hlen⟩ := vfsFstatAt_eq (v := k.vfs) (k.tasks p).files (toInt32 r.a0) r.a1.toNat
      dsimp only
      rw [hbs]
      refine (touches_storeAll ..).congr ?_
      rw [hlen]
      by_cases hc : r.a1.toNat ≠ 0 ∧ (getfile (k.tasks p).files (toInt32 r.a0)).any fun f => (k.vfs.ftable f).ip.isSome
      · rw [if_pos hc, forall_prop_of_true hc.1, forall_prop_of_true hc.2]
        simp only [Nat.zero_add]
        rfl
      · rw [if_neg hc]
        exact iff_of_true (by simp) fun h1 h2 => absurd ⟨h1, h2⟩ hc
    | _ => exact Looks.pure.touches

end

/-! ## Kernel memory does not matter -/

theorem openInode_congr {v : Vfs} {a b : CStr} {flags : Nat} (hi : namei v a = namei v b)
    (hp : namei v b = none → flags &&& oCreate ≠ 0 → nameiParent v a = nameiParent v b) :
    openInode v mem a flags = openInode v mem b flags := by
  unfold openInode
  rw [hi]
  cases hb : namei v b with
  | some ip => rfl
  | none =>
    dsimp only
    split
    · rfl
    · next hc => rw [hp hb hc]

theorem vfsMkdir_congr {v : Vfs} {a b : CStr} (hi : namei v a = namei v b)
    (hp : namei v b = none → nameiParent v a = nameiParent v b) : vfsMkdir v mem a = vfsMkdir v mem b := by
  unfold vfsMkdir
  rw [hi]
  cases hb : namei v b with
  | some ip => rfl
  | none => rw [hp hb]

theorem vfsLink_congr {v : Vfs} {a b a' b' : CStr} (hi : namei v a = namei v b)
    (hp : ∀ ip ∈ namei v b, (v.inodes ip).type ≠ .dir → nameiParent v a' = nameiParent v b') :
    vfsLink v a a' = vfsLink v b b' := by
  unfold vfsLink
  rw [hi]
  cases hb : namei v b with
  | none => rfl
  | some ip =>
    dsimp only
    split
    · rfl
    · next hd => rw [hp ip hb hd]

theorem vfsChdir_congr {v : Vfs} {f : Files} {a b : CStr} (hi : namei v a = namei v b)
    (hp : ∀ ip ∈ namei v b, (v.inodes ip).type = .dir → a.str.take 63 = b.str.take 63) :
    vfsChdir v f a = vfsChdir v f b := by
  unfold vfsChdir
  rw [hi]
  cases hb : namei v b with
  | none => rfl
  | some ip =>
    dsimp only
    split
    · rfl
    · next hd => rw [hp ip hb (not_not.mp hd)]

theorem writeFile_congr {v : Vfs} {f i : Nat} {n : Int} {b b' : Nat → UInt8}
    (h : ∀ ip, intOf ((v.ftable f).off + n) >>= igrow (v.inodes i) mem = .ok ip →
      (List.range n.toNat).map b' = (List.range n.toNat).map b) :
    writeFile v mem f i b' n = writeFile v mem f i b n := by
  unfold writeFile
  dsimp only
  rcases hneed : intOf ((v.ftable f).off + n) with _ | need
  · simp only [bind, Except.bind]
  rcases hg : igrow (v.inodes i) mem need with _ | ip
  · simp only [bind, Except.bind, hg]
  · rw [hneed] at h
    rw [h ip hg]

theorem vfsWrite_congr {v : Vfs} {f : Files} {fd n : Int} {b b' : Nat → UInt8}
    (h : ∀ i, i < writeLength v f mem fd n → b' i = b i) : vfsWrite v f mem fd b' n = vfsWrite v f mem fd b n := by
  have hall (hn : writeLength v f mem fd n = n.toNat) : (List.range n.toNat).map b' = (List.range n.toNat).map b :=
    map_congr_left fun i hi => h i (hn ▸ mem_range.mp hi)
  clear h
  unfold writeLength at hall
  unfold vfsWrite
  cases hf : getfile f fd with
  | none => rfl
  | some x =>
    rw [hf] at hall
    dsimp only at hall ⊢
    by_cases hc : (v.ftable x).writable = false ∨ n < 0
    · rw [if_pos hc, if_pos hc]
    rw [if_neg hc] at hall
    rw [if_neg hc, if_neg hc]
    unfold inodeOf
    cases hip : (v.ftable x).ip with
    | none => rfl
    | some i =>
      rw [hip] at hall
      dsimp only at hall
      simp only [bind, Except.bind]
      cases ht : (v.inodes i).type with
      | dev =>
        rw [ht] at hall
        rcases hd : (v.inodes i).devWrite with _ | ⟨_ | _⟩
        · rfl
        · rfl
        · dsimp only at hall ⊢
          rw [hall (if_pos hd)]
      | file =>
        rw [ht] at hall
        refine writeFile_congr fun ip hip => hall ?_
        dsimp only
        rw [hip]
      | dir => rfl
      | proc => rfl

section
variable (hv : MountsOk k.vfs) (hu : ∀ u ∈ k.uprogs, 0 ∉ u.1) (hm : HasZero m) (hm' : HasZero m')
  (hagree : ∀ a, InUser a → m' a = m a)
include hv hm hm' hagree

theorem namei_agree {q : UInt64} (h : NameiIn InUser k.vfs q.toNat (cstrAt m q)) :
    namei k.vfs (cstrAt m' q) = namei k.vfs (cstrAt m q) :=
  (looks_nameiAt (P := InUser) hv (hm'.pathAt q)).val.symm.trans
    ((looks_nameiAt hv (hm.pathAt q)).agree h hagree)

theorem nameiParent_agree {q : UInt64} (h : ParentIn InUser k.vfs q.toNat (cstrAt m q)) :
    nameiParent k.vfs (cstrAt m' q) = nameiParent k.vfs (cstrAt m q) :=
  (looks_nameiParentAt (P := InUser) hv (hm'.pathAt q)).val.symm.trans
    ((looks_nameiParentAt hv (hm.pathAt q)).agree h hagree)

include hu

theorem doSyscall_congr {A : Allocator} {ctx : Context} {now : Nat} (h : ArgsOk k p e mem m r) :
    doSyscall A k p ctx now (decode e mem m' r) = doSyscall A k p ctx now (decode e mem m r) := by
  unfold ArgsOk at h
  unfold decode
  cases hn : sysNo r.num.toNat with
  | none => rfl
  | some n =>
    rw [hn] at h
    dsimp only at h
    cases n with
    | exec =>
      dsimp only [doSyscall, sysExec]
      by_cases hok : userOk r.a0.toNat 1 = true
      · have himage : execImage k (progName (cstrAt m' r.a0).str) = execImage k (progName (cstrAt m r.a0).str) :=
          (looks_execImageAt (P := InUser) hu (hm'.pathAt r.a0).1).val.symm.trans
            ((looks_execImageAt hu (hm.pathAt r.a0).1).agree (h hok) hagree)
        rw [himage]
      · have hok : userOk r.a0.toNat 1 = false := by simpa using hok
        rw [if_pos hok, if_pos hok]
    | «open» =>
      dsimp only [doSyscall, vfsCall, vfsOpen] at h ⊢
      rw [openInode_congr (namei_agree hv hm hm' hagree h.1) fun h0 hc =>
        nameiParent_agree hv hm hm' hagree (h.2 h0 hc)]
    | mkdir =>
      dsimp only [doSyscall, vfsCall] at h ⊢
      rw [vfsMkdir_congr (namei_agree hv hm hm' hagree h.1) fun h0 => nameiParent_agree hv hm hm' hagree (h.2 h0)]
    | unlink =>
      dsimp only [doSyscall, vfsCall, vfsUnlink] at h ⊢
      rw [nameiParent_agree hv hm hm' hagree h]
    | chdir =>
      dsimp only [doSyscall, vfsCall] at h ⊢
      rw [vfsChdir_congr (namei_agree hv hm hm' hagree h.1) fun ip hip hd => ?_]
      exact (looks_strncpyAt (P := InUser) (hm'.pathAt r.a0).1).val.symm.trans
        ((looks_strncpyAt (hm.pathAt r.a0).1).agree (h.2 ip hip hd) hagree)
    | link =>
      dsimp only [doSyscall, vfsCall] at h ⊢
      rw [vfsLink_congr (namei_agree hv hm hm' hagree h.1) fun ip hip hd =>
        nameiParent_agree hv hm hm' hagree (h.2 ip hip hd)]
    | write =>
      dsimp only [doSyscall, vfsCall] at h ⊢
      rw [vfsWrite_congr fun i hi => ?_]
      unfold bufAt
      rw [hagree _ (h i hi)]
    | _ => rfl

end

/-- A call touches only user space, leaves kernel memory as it is and answers the same whatever
kernel memory holds if and only if the bytes that it looks at and stores lie in user space. -/
theorem args_confined {A : Allocator} {ctx : Context} {now : Nat} (hv : MountsOk k.vfs)
    (hu : ∀ u ∈ k.uprogs, 0 ∉ u.1) (hm : HasZero m) :
    let call := doSyscallAt A k p ctx now e mem r
    ArgsOk k p e mem m r ↔
      (∀ x ∈ (call m).log, InUser x.addr) ∧ (∀ a, ¬InUser a → (call m).cells a = m a) ∧
        ∀ m', HasZero m' → (∀ a, InUser a → m' a = m a) → (call m').val = (call m).val := by
  constructor
  · intro h
    have htouch : Touches InUser m (argAccess k p e mem r) _ := touches_argAccess hv hu hm
    exact ⟨htouch.inside.mpr h, fun a ha => htouch.outside h ha,
      fun m' hm' hagree => doSyscall_congr hv hu hm hm' hagree h⟩
  · intro h
    exact (touches_argAccess hv hu hm).inside.mp h.1

end

def zeroPath (a : Nat) : UInt8 := (bytes "/dev/zero").getD (a - userBase) 0

/-- `open("/dev/zero", O_RDONLY)` -/
def openZero : Regs := ⟨16, 0x40000000, 0, 0, 0⟩

theorem args_confined_open : ∃ s p, osRun [.schedule 0 blankContext] = some s ∧ s.user 0 = some p ∧
    MountsOk s.k.vfs ∧ (∀ u ∈ s.k.uprogs, 0 ∉ u.1) ∧ HasZero zeroPath ∧
    ArgsOk s.k p ⟨0, 0, 0⟩ none zeroPath openZero ∧
      let call := doSyscallAt bumpAlloc s.k p blankContext 0 ⟨0, 0, 0⟩ none openZero
      (∀ x ∈ (call zeroPath).log, InUser x.addr) ∧ (∀ a, ¬InUser a → (call zeroPath).cells a = zeroPath a) ∧
        ∀ m', HasZero m' → (∀ a, InUser a → m' a = zeroPath a) → (call m').val = (call zeroPath).val := by
  have hs : (osRun [.schedule 0 blankContext]).isSome := by decide +kernel
  have hp : ∀ s ∈ osRun [.schedule 0 blankContext], (s.user 0).isSome ∧ MountsOk s.k.vfs ∧
      (∀ u ∈ s.k.uprogs, 0 ∉ u.1) ∧ ∀ p ∈ s.user 0, ArgsOk s.k p ⟨0, 0, 0⟩ none zeroPath openZero := by decide +kernel
  have hm : HasZero zeroPath := ⟨0x40000009, by decide, by decide⟩
  obtain ⟨s, hs⟩ := isSome_iff_exists.mp hs
  obtain ⟨hu, hv, hnames, hok⟩ := hp s hs
  obtain ⟨p, hp⟩ := isSome_iff_exists.mp hu
  exact ⟨s, p, hs, hp, hv, hnames, hm, hok p hp, (args_confined hv hnames hm).mp (hok p hp)⟩

def openZeroRun : List OsAct :=
  [.schedule 0 blankContext, .syscall 0 blankContext 0 (.vfs (.sysOpen none ⟨bytes "/dev/zero", []⟩ 0))]

/-- `read(3, (void *)0x2000000, 1)`, where the kernel's heap is -/
def readKernel : Regs := ⟨6, 3, 0x2000000, 1, 0⟩

/-- A read from `/dev/zero` clears a byte of the kernel. -/
theorem read_clears_kernel : ∃ s p, osRun openZeroRun = some s ∧ s.user 0 = some p ∧
    let call := doSyscallAt bumpAlloc s.k p blankContext 0 ⟨0, 0, 0⟩ none readKernel
    (call fun _ => 1).log = [.store 0x2000000] ∧ ¬InUser 0x2000000 ∧ (call fun _ => 1).cells 0x2000000 = 0 := by
  have hs : (osRun openZeroRun).isSome := by decide +kernel
  have hp : ∀ s ∈ osRun openZeroRun, (s.user 0).isSome ∧ ∀ p ∈ s.user 0,
      let call := doSyscallAt bumpAlloc s.k p blankContext 0 ⟨0, 0, 0⟩ none readKernel
      (call fun _ => 1).log = [.store 0x2000000] ∧ (call fun _ => 1).cells 0x2000000 = 0 := by
    decide +kernel
  obtain ⟨s, hs⟩ := isSome_iff_exists.mp hs
  obtain ⟨hu, hcall⟩ := hp s hs
  obtain ⟨p, hu⟩ := isSome_iff_exists.mp hu
  exact ⟨s, p, hs, hu, (hcall p hu).1, by decide, (hcall p hu).2⟩

end NjuOs
