import NjuOs.Printf

/-!
# `printf` against its reference

`expand` says what a format stands for. `printf` prints exactly that and reads nothing behind the
terminator, unless the format ends in a directive that has no letter: then the step of the loop
goes over the terminator.
-/

namespace NjuOs

open List Option

/-! ## The reference -/

def numeral (base n : Nat) : List UInt8 := (Nat.toDigits base n).map fun c => UInt8.ofNat c.toNat

def signedNumeral (v : Int) : List UInt8 := if v < 0 then 45 :: numeral 10 v.natAbs else numeral 10 v.natAbs

def expandDirective (c : UInt8) (args : List VArg) : Option (List UInt8 × List VArg) :=
  if c = 100 then
    match args with
    | .word w :: args => some (signedNumeral w.toInt, args)
    | _ => none
  else if c = 120 then
    match args with
    | .word w :: args => some (numeral 16 w.toNat, args)
    | _ => none
  else if c = 112 then
    match args with
    | .ptr p :: args => some (bytes "0x" ++ numeral 16 p.toNat, args)
    | _ => none
  else if c = 99 then
    match args with
    | .word w :: args => some ([UInt8.ofNat w.toNat], args)
    | _ => none
  else if c = 115 then
    match args with
    | .str s :: args => some (s.getD (bytes "(null)"), args)
    | _ => none
  else if c = percent then some ([percent], args)
  else some ([percent, c], args)

def expand : List UInt8 → List VArg → Option (List UInt8)
  | [], _ => some []
  | [c], _ => some [c]
  | c :: d :: s, args =>
    if c = percent then do
      let (out, args) ← expandDirective d args
      return out ++ (← expand s args)
    else return c :: (← expand (d :: s) args)

def dangling : List UInt8 → Bool
  | [] => false
  | [c] => c = percent
  | c :: d :: s => if c = percent then dangling s else dangling (d :: s)

/-! ## Numbers -/

theorem numeral_step {base : Nat} (hb : 1 < base) (n : Nat) : numeral base n =
    (if n < base then [] else numeral base (n / base)) ++ [UInt8.ofNat (Nat.digitChar (n % base)).toNat] := by
  unfold numeral
  rw [Nat.toDigits_eq_if hb]
  split
  · rw [Nat.mod_eq_of_lt ‹_›]
    rfl
  · rw [map_append]
    rfl

section
variable {base : Nat} {low next : Nat → Nat} {byte : Nat → UInt8} (hb : 1 < base) (hlow : ∀ u, low u = u % base)
  (hnext : ∀ u, next u = u / base) (hbyte : ∀ d < base, byte d = UInt8.ofNat (Nat.digitChar d).toNat)
include hb hlow hnext hbyte

theorem digitLoop_numeral : ∀ {n u : Nat}, u ≠ 0 → u < base ^ n →
    ∃ ds, digitLoop low next byte n u = .ok ds ∧ ds.reverse = numeral base u
  | 0, u, h0, h => by
    rw [Nat.pow_zero] at h
    omega
  | n + 1, 0, h0, _ => absurd rfl h0
  | n + 1, u + 1, _, h => by
    have hlast : byte (low (u + 1)) = UInt8.ofNat (Nat.digitChar ((u + 1) % base)).toNat := by
      rw [hlow]
      exact hbyte _ (Nat.mod_lt _ (by omega))
    rw [digitLoop, hlast, hnext]
    by_cases hq : u + 1 < base
    · refine ⟨[UInt8.ofNat (Nat.digitChar ((u + 1) % base)).toNat], ?_, ?_⟩
      · rw [Nat.div_eq_of_lt hq]
        cases n <;> rfl
      · rw [numeral_step hb, if_pos hq]
        rfl
    · have hdiv : (u + 1) / base < base ^ n := by
        rw [Nat.pow_succ] at h
        exact Nat.div_lt_of_lt_mul (Nat.mul_comm _ _ ▸ h)
      have hpos : (u + 1) / base ≠ 0 := (Nat.div_pos (Nat.le_of_not_lt hq) (by omega)).ne'
      obtain ⟨ds, hds, hrev⟩ := digitLoop_numeral hpos hdiv
      refine ⟨UInt8.ofNat (Nat.digitChar ((u + 1) % base)).toNat :: ds, ?_, ?_⟩
      · rw [hds]
        rfl
      · rw [numeral_step hb, if_neg hq, ← hrev, reverse_cons]

theorem putNumber_numeral {u : Nat} (h : u < base ^ 32) (hzero : byte 0 = 48) :
    putNumber low next byte u = .ok (numeral base u) := by
  unfold putNumber
  by_cases h0 : u = 0
  · have hnum : numeral base 0 = [48] := by
      rw [numeral_step hb, if_pos (by omega), Nat.zero_mod, ← hbyte 0 (by omega), hzero]
      rfl
    rw [if_pos h0, h0, hnum]
    rfl
  · obtain ⟨ds, hds, hrev⟩ := digitLoop_numeral hb hlow hnext hbyte h0 h
    rw [if_neg h0, hds, ← hrev]
    rfl

end

theorem putDecimal_eq {u : Nat} (h : u < 2 ^ 64) : putDecimal u = .ok (numeral 10 u) :=
  putNumber_numeral (by decide) (fun _ => rfl) (fun _ => rfl) (by decide) (h.trans (by decide)) rfl

theorem putHex_eq {u : Nat} (h : u < 2 ^ 64) : putHex u = .ok (numeral 16 u) :=
  putNumber_numeral (by decide) (fun u => Nat.and_two_pow_sub_one_eq_mod u 4) (fun u => Nat.shiftRight_eq_div_pow u 4)
    (by decide) (h.trans (by decide)) rfl

/-! ## Directives -/

theorem directive_d (w : BitVec 32) (args : List VArg) :
    directive 100 (.word w :: args) = .ok (signedNumeral w.toInt, args) := by
  have hlo := BitVec.le_toInt w
  have hhi := BitVec.toInt_lt (x := w)
  have hput : putDecimal w.toInt.natAbs = .ok (numeral 10 w.toInt.natAbs) := putDecimal_eq (by omega)
  unfold directive signedNumeral
  by_cases hneg : w.toInt < 0
  · have habs : (-w.toInt).toNat = w.toInt.natAbs := by omega
    simp only [if_pos hneg, habs, hput]
    rfl
  · have habs : w.toInt.toNat = w.toInt.natAbs := by omega
    simp only [if_neg hneg, habs, hput]
    rfl

theorem directive_x (w : BitVec 32) (args : List VArg) :
    directive 120 (.word w :: args) = .ok (numeral 16 w.toNat, args) := by
  have hput : putHex w.toNat = .ok (numeral 16 w.toNat) := putHex_eq (by omega)
  exact congrArg (fun x => x >>= fun ds => pure (ds, args)) hput

theorem directive_p (p : BitVec 64) (args : List VArg) :
    directive 112 (.ptr p :: args) = .ok (bytes "0x" ++ numeral 16 p.toNat, args) := by
  have hput : putHex p.toNat = .ok (numeral 16 p.toNat) := putHex_eq (by omega)
  exact congrArg (fun x => x >>= fun ds => pure (48 :: 120 :: ds, args)) hput

/-- Letter by letter, in the order of the `switch`. -/
theorem directive_eq {c : UInt8} {args args' : List VArg} {out : List UInt8} (hc : c ≠ 0)
    (h : expandDirective c args = some (out, args')) : directive c args = .ok (out, args') := by
  unfold expandDirective at h
  split at h
  · subst c
    split at h <;> cases h
    exact directive_d ..
  split at h
  · subst c
    split at h <;> cases h
    exact directive_x ..
  split at h
  · subst c
    split at h <;> cases h
    exact directive_p ..
  split at h
  · subst c
    split at h <;> cases h
    rfl
  split at h
  · subst c
    split at h <;> cases h
    rfl
  split at h
  · subst c
    cases h
    rfl
  · cases h
    unfold directive
    rw [if_neg ‹_›, if_neg ‹_›, if_neg ‹_›, if_neg ‹_›, if_neg ‹_›, if_neg ‹_›, if_pos hc]

/-! ## The loop -/

structure FormatAt (m : Nat → UInt8) (p : Nat) (t : List UInt8) : Prop where
  bytes : ∀ i (h : i < t.length), m (p + i) = t[i]
  terminator : m (p + t.length) = 0
  nonzero : 0 ∉ t

section
variable {m : Nat → UInt8} {p : Nat} {c d : UInt8} {s t : List UInt8}

theorem FormatAt.head (h : FormatAt m p (c :: s)) : m p = c := h.bytes 0 (Nat.succ_pos _)

theorem FormatAt.head_ne (h : FormatAt m p (c :: s)) : c ≠ 0 := fun h0 => h.nonzero (h0 ▸ mem_cons_self)

theorem FormatAt.tail (h : FormatAt m p (c :: s)) : FormatAt m (p + 1) s where
  bytes i hi := by
    rw [Nat.add_assoc, Nat.add_comm 1 i]
    exact h.bytes (i + 1) (Nat.succ_lt_succ hi)
  terminator := by
    rw [Nat.add_assoc, Nat.add_comm 1 s.length]
    exact h.terminator
  nonzero h0 := h.nonzero (mem_cons_of_mem _ h0)

theorem mem_log_load {α : Type} {a : Nat} {f : UInt8 → MemM Nat UInt8 α} {e : Access Nat}
    (h : e ∈ (f (m a) m).log) : e ∈ ((load a >>= f) m).log := mem_append_right _ h

theorem reads_printfLoop {e : Nat} : ∀ {t : List UInt8} {n p : Nat} {args : List VArg} {out : List UInt8},
    FormatAt m p t → p + t.length = e → expand t args = some out → dangling t = false → t.length < n →
    Reads (· ≤ e) m (printfLoop n p args) fun r => r = .ok out
  | [], n + 1, p, args, out, hf, he, hx, _, _ => by
    cases hx
    refine Reads.bind (reads_load (Nat.le_of_eq he)) fun b hb => ?_
    rw [if_pos (hb.trans hf.terminator)]
    exact Reads.pure rfl
  | [c], n + 1, p, args, out, hf, he, hx, hd, hn => by
    cases hx
    have hc : c ≠ percent := of_decide_eq_false hd
    have he' : p + 1 = e := he
    refine Reads.bind (reads_load (by omega)) fun b hb => ?_
    obtain rfl : b = c := hb.trans hf.head
    rw [if_neg hf.head_ne, if_pos hc]
    refine Reads.bind (reads_printfLoop (t := []) hf.tail he' rfl rfl (Nat.lt_of_succ_lt_succ hn)) fun r hr => ?_
    exact Reads.pure (by rw [hr]; rfl)
  | c :: d :: s, n + 1, p, args, out, hf, he, hx, hd, hn => by
    simp only [length_cons] at he hn
    rw [expand] at hx
    rw [dangling] at hd
    refine Reads.bind (reads_load (by omega)) fun b hb => ?_
    obtain rfl : b = c := hb.trans hf.head
    rw [if_neg hf.head_ne]
    by_cases hc : b = percent
    · rw [if_pos hc] at hx hd
      obtain ⟨⟨out₁, args₁⟩, hdir, hx⟩ := bind_eq_some_iff.mp hx
      obtain ⟨out₂, hrest, hx⟩ := bind_eq_some_iff.mp hx
      cases hx
      rw [if_neg (not_not_intro hc)]
      refine Reads.bind (reads_load (by omega)) fun b' hb' => ?_
      obtain rfl : b' = d := hb'.trans hf.tail.head
      rw [directive_eq hf.tail.head_ne hdir]
      refine Reads.bind (reads_printfLoop hf.tail.tail (by omega) hrest hd (by omega)) fun r hr => ?_
      exact Reads.pure (by rw [hr]; rfl)
    · rw [if_neg hc] at hx hd
      obtain ⟨out₂, hrest, hx⟩ := bind_eq_some_iff.mp hx
      cases hx
      rw [if_pos hc]
      refine Reads.bind (reads_printfLoop hf.tail (by simp only [length_cons]; omega) hrest hd
        (by simp only [length_cons]; omega)) fun r hr => ?_
      exact Reads.pure (by rw [hr]; rfl)

/-- At a bare `%` the terminator is taken for the letter, and the loop goes on behind it. -/
theorem printfLoop_overrun : ∀ {t : List UInt8} {n p : Nat} {args : List VArg} {out : List UInt8},
    FormatAt m p t → expand t args = some out → dangling t = true → t.length < n →
    .load (p + t.length + 1) ∈ (printfLoop n p args m).log
  | [], _, _, _, _, _, _, hd, _ => by cases hd
  | [c], n + 2, p, args, out, hf, _, hd, _ => by
    have hc : c = percent := of_decide_eq_true hd
    rw [printfLoop]
    refine mem_log_load ?_
    rw [hf.head, if_neg hf.head_ne, if_neg (not_not_intro hc)]
    refine mem_log_load ?_
    have hterm : m (p + 1) = 0 := hf.terminator
    rw [hterm]
    exact mem_append_left _ (mem_append_left _ (mem_singleton_self _))
  | c :: d :: s, n + 1, p, args, out, hf, hx, hd, hn => by
    simp only [length_cons] at hn
    rw [expand] at hx
    rw [dangling] at hd
    rw [printfLoop]
    refine mem_log_load ?_
    rw [hf.head, if_neg hf.head_ne]
    by_cases hc : c = percent
    · rw [if_pos hc] at hx hd
      obtain ⟨⟨out₁, args₁⟩, hdir, hx⟩ := bind_eq_some_iff.mp hx
      obtain ⟨out₂, hrest, -⟩ := bind_eq_some_iff.mp hx
      rw [if_neg (not_not_intro hc)]
      refine mem_log_load ?_
      rw [hf.tail.head, directive_eq hf.tail.head_ne hdir]
      have hover := printfLoop_overrun hf.tail.tail hrest hd (n := n) (by omega)
      have haddr : p + 1 + 1 + s.length + 1 = p + (s.length + 1 + 1) + 1 := by omega
      rw [haddr] at hover
      exact mem_append_left _ hover
    · rw [if_neg hc] at hx hd
      obtain ⟨out₂, hrest, -⟩ := bind_eq_some_iff.mp hx
      rw [if_pos hc]
      have hover := printfLoop_overrun hf.tail hrest hd (n := n) (by simp only [length_cons]; omega)
      have haddr : p + 1 + (d :: s).length + 1 = p + (c :: d :: s).length + 1 := by
        simp only [length_cons]
        omega
      rw [haddr] at hover
      exact mem_append_left _ hover

end

/-! ## The result -/

/-- For every format and matching arguments: `printf` ends, prints the expansion and reads no byte
behind the terminator, exactly if the last directive has its letter. -/
theorem printf_expands_iff {m : Nat → UInt8} {fmt : List UInt8} {args : List VArg} {out : List UInt8}
    (hf : FormatAt m 0 fmt) (hx : expand fmt args = some out) :
    (∀ n, fmt.length < n → (printf n args m).val = .ok out ∧ ∀ e ∈ (printf n args m).log, e.addr ≤ fmt.length) ↔
      dangling fmt = false := by
  constructor
  · intro h
    by_contra hd
    have hover := printfLoop_overrun hf hx (Bool.not_eq_false _ ▸ hd) (Nat.lt_succ_self _)
    have hle := (h (fmt.length + 1) (Nat.lt_succ_self _)).2 _ hover
    rw [Nat.zero_add, Access.addr] at hle
    omega
  · intro hd n hn
    obtain ⟨hlog, -, -, hval⟩ := reads_printfLoop (e := fmt.length) hf (Nat.zero_add _) hx hd hn
    exact ⟨hval, hlog⟩

def sampleFormat : List UInt8 := bytes "%d|%x|%p|%c|%s|%s|%%|%q"

def sampleArgs : List VArg :=
  [.word 0x80000000, .word 0xdeadbeef, .ptr 0x1000, .word 0x141, .str none, .str (some (bytes "ok"))]

def formatBytes (fmt : List UInt8) (i : Nat) : UInt8 := fmt[i]?.getD 0

theorem formatAt_formatBytes {fmt : List UInt8} (h : 0 ∉ fmt) : FormatAt (formatBytes fmt) 0 fmt where
  bytes i hi := by simp [formatBytes, hi]
  terminator := by simp [formatBytes]
  nonzero := h

theorem printf_expands_iff_sample : FormatAt (formatBytes sampleFormat) 0 sampleFormat ∧
    expand sampleFormat sampleArgs = some (bytes "-2147483648|deadbeef|0x1000|A|(null)|ok|%|%q") ∧
    ∀ n, sampleFormat.length < n → (printf n sampleArgs (formatBytes sampleFormat)).val =
        .ok (bytes "-2147483648|deadbeef|0x1000|A|(null)|ok|%|%q") ∧
      ∀ e ∈ (printf n sampleArgs (formatBytes sampleFormat)).log, e.addr ≤ sampleFormat.length := by
  have hf : FormatAt (formatBytes sampleFormat) 0 sampleFormat := formatAt_formatBytes (by decide +kernel)
  have hx : expand sampleFormat sampleArgs = some (bytes "-2147483648|deadbeef|0x1000|A|(null)|ok|%|%q") := by
    decide +kernel
  exact ⟨hf, hx, (printf_expands_iff hf hx).mpr (by decide +kernel)⟩

/-- The format `100%`: the byte behind its terminator is read. -/
theorem printf_reads_past : FormatAt (formatBytes (bytes "100%")) 0 (bytes "100%") ∧
    expand (bytes "100%") [] = some (bytes "100%") ∧
    ∀ n, 4 < n → .load 5 ∈ (printf n [] (formatBytes (bytes "100%"))).log := by
  have hf : FormatAt (formatBytes (bytes "100%")) 0 (bytes "100%") := formatAt_formatBytes (by decide +kernel)
  have hx : expand (bytes "100%") [] = some (bytes "100%") := by decide +kernel
  exact ⟨hf, hx, fun n hn => printfLoop_overrun hf hx (by decide +kernel) hn⟩

end NjuOs
