import NjuOs.Ledger
import NjuOs.Sperf

/-!
# What the profile counts

A call that strace does not interrupt is one line, which ends in the duration, and the
text of the arguments cannot hide it. The second half of a call that was interrupted ends
in its duration as well, but `parse_line` skips it. A call that never returns has no
duration, and a number in angle brackets among its arguments is taken for one.
-/

namespace NjuOs

open List

/-! ## The lines of a trace -/

structure SysName where
  chars : List UInt8
  start : chars.head?.any isNameStart
  isName : ∀ c ∈ chars, isNameChar c

structure LineText where
  chars : List UInt8
  noNul : 0 ∉ chars
  noNewline : 10 ∉ chars

structure Duration where
  usec : Nat
  usec_lt : usec < 2 ^ 63 * 10 ^ 6

def Duration.text (d : Duration) : List UInt8 := decimal (d.usec / 10 ^ 6) 6 (d.usec % 10 ^ 6)

def Duration.sec (d : Duration) : Num := .fin (d.usec / 10 ^ 6)

inductive Mark
  | unfinished
  | detached
  | unavailable

def Mark.text : Mark → List UInt8
  | unfinished => bytes "unfinished ..."
  | detached => bytes "detached ..."
  | unavailable => bytes "unavailable"

/-- A line of `strace -T -f`; `rest` is what stands between the name and the end. -/
inductive TraceLine
  | returned (pid : Option Nat) (name : SysName) (rest : LineText) (dur : Duration)
  | marked (pid : Option Nat) (name : SysName) (rest : LineText) (mark : Mark)
  | killed (pid : Option Nat) (name : SysName) (rest : LineText)
  | resumed (pid : Option Nat) (name : SysName) (rest : LineText) (dur : Duration)
  | resumedMarked (pid : Option Nat) (name : SysName) (rest : LineText) (mark : Mark)
  | resumedKilled (pid : Option Nat) (name : SysName) (rest : LineText)
  | signal (pid : Option Nat) (text : LineText)
  | exited (pid : Option Nat) (text : LineText)
  | attached (pid : Nat)

namespace TraceLine

def pidTag : Option Nat → List UInt8
  | none => []
  | some pid => bytes "[pid " ++ List.leftpad 5 32 (zeroPadded 1 pid) ++ bytes "] "

def render : TraceLine → List UInt8
  | returned pid name rest dur =>
    pidTag pid ++ name.chars ++ 40 :: (rest.chars ++ bytes " <" ++ dur.text ++ bytes ">\n")
  | marked pid name rest mark =>
    pidTag pid ++ name.chars ++ 40 :: (rest.chars ++ bytes " <" ++ mark.text ++ bytes ">\n")
  | killed pid name rest => pidTag pid ++ name.chars ++ 40 :: (rest.chars ++ bytes "= ?\n")
  | resumed pid name rest dur =>
    pidTag pid ++ bytes "<... " ++ name.chars ++ bytes " resumed>" ++ rest.chars ++ bytes " <" ++ dur.text ++
      bytes ">\n"
  | resumedMarked pid name rest mark =>
    pidTag pid ++ bytes "<... " ++ name.chars ++ bytes " resumed>" ++ rest.chars ++ bytes " <" ++ mark.text ++
      bytes ">\n"
  | resumedKilled pid name rest =>
    pidTag pid ++ bytes "<... " ++ name.chars ++ bytes " resumed>" ++ rest.chars ++ bytes "= ?\n"
  | signal pid text => pidTag pid ++ bytes "--- " ++ text.chars ++ bytes " ---\n"
  | exited pid text => pidTag pid ++ bytes "+++ " ++ text.chars ++ bytes " +++\n"
  | attached pid => bytes "strace: Process " ++ zeroPadded 1 pid ++ bytes " attached\n"

def completed : TraceLine → List (List UInt8 × Num)
  | returned _ name _ dur => [(name.chars, dur.sec)]
  | resumed _ name _ dur => [(name.chars, dur.sec)]
  | _ => []

def missed : TraceLine → List (List UInt8 × Num)
  | returned _ name _ dur => if name.chars.length ≤ 63 then [] else [(name.chars, dur.sec)]
  | resumed _ name _ dur => [(name.chars, dur.sec)]
  | _ => []

def misread : TraceLine → List (List UInt8 × Num)
  | killed _ name rest =>
    if name.chars.length ≤ 63 then (duration rest.chars).toList.map fun t => (name.chars, t) else []
  | _ => []

def sysNames : TraceLine → List (List UInt8)
  | returned _ name _ _ | marked _ name _ _ | killed _ name _ => [name.chars]
  | resumed _ name _ _ | resumedMarked _ name _ _ | resumedKilled _ name _ => [name.chars]
  | _ => []

end TraceLine

def sysNames (trace : List TraceLine) : Finset (List UInt8) := (trace.flatMap TraceLine.sysNames).toFinset

def Sperf.timeOf (s : Sperf) (name : List UInt8) : Num :=
  ((s.stats.find? fun st => st.name = name).map SyscallStat.time).getD 0

structure Profiles (s : Sperf) (trace : List TraceLine) : Prop where
  distinct : (s.stats.map SyscallStat.name).Nodup
  time_eq : ∀ name, s.timeOf name = total name (trace.flatMap TraceLine.completed)
  total_eq : s.totalTime = ∑ name ∈ sysNames trace, total name (trace.flatMap TraceLine.completed)

/-! ## Finding the last brackets -/

theorem strrchr_append_right {c : UInt8} (s : List UInt8) {t : List UInt8} (h : c ∉ t) :
    strrchr c (s ++ t) = strrchr c s := by
  induction s with
  | nil => exact strrchr_eq_none h
  | cons b s ih => rw [cons_append, strrchr, strrchr, ih]

theorem strrchr_append_left {c : UInt8} {s : List UInt8} (h : c ∉ s) (t : List UInt8) :
    strrchr c (s ++ t) = (strrchr c t).map (· + s.length) := by
  induction s with
  | nil => simp
  | cons b s ih =>
    rw [mem_cons, not_or] at h
    rw [cons_append, strrchr, ih h.2]
    cases strrchr c t with
    | none => exact if_neg (Ne.symm h.1)
    | some i => rfl

theorem strrchr_last {c : UInt8} (s : List UInt8) {t : List UInt8} (h : c ∉ t) :
    strrchr c (s ++ c :: t) = some s.length := by
  induction s with
  | nil => rw [nil_append, strrchr, strrchr_eq_none h]; exact if_pos rfl
  | cons b s ih => rw [cons_append, strrchr, ih]; rfl

theorem strrchr_lt {c : UInt8} {s : List UInt8} {i : Nat} (h : strrchr c s = some i) : i < s.length := by
  induction s generalizing i with
  | nil => cases h
  | cons b s ih =>
    rw [strrchr] at h
    cases hs : strrchr c s with
    | none =>
      rw [hs] at h
      cases (Option.ite_none_right_eq_some.mp h).2
      exact Nat.succ_pos _
    | some j =>
      rw [hs] at h
      cases h
      exact Nat.succ_lt_succ (ih hs)

theorem lastAngle_trailer (s : List UInt8) {d t : List UInt8} (hd : 60 ∉ d ∧ 62 ∉ d) (ht : 60 ∉ t ∧ 62 ∉ t)
    (hlen : d.length < 64) : lastAngle (s ++ 60 :: (d ++ 62 :: t)) = some d := by
  have hlt : strrchr 60 (s ++ 60 :: (d ++ 62 :: t)) = some s.length := by
    refine strrchr_last s fun h => ?_
    rcases mem_append.mp h with h | h
    · exact hd.1 h
    · rcases mem_cons.mp h with h | h
      · cases h
      · exact ht.1 h
  have hgt : strrchr 62 (s ++ 60 :: (d ++ 62 :: t)) = some (s.length + d.length + 1) := by
    have h := strrchr_last (s ++ 60 :: d) ht.2
    rw [append_assoc, cons_append] at h
    rw [h, length_append, length_cons]
    rfl
  have hdl : s.length + d.length + 1 - s.length - 1 = d.length := by omega
  have hdrop : (s ++ 60 :: (d ++ 62 :: t)).drop (s.length + 1) = d ++ 62 :: t := by
    rw [drop_append, drop_eq_nil_of_le (Nat.le_succ _), Nat.add_sub_cancel_left]
    rfl
  simp only [lastAngle, hlt, hgt, hdl, hdrop, Option.bind_eq_bind, Option.bind_some]
  simp [guard, hlen, Nat.add_assoc]

theorem lastAngle_append_left {s : List UInt8} (h : 60 ∉ s ∧ 62 ∉ s) (t : List UInt8) :
    lastAngle (s ++ t) = lastAngle t := by
  unfold lastAngle
  rw [strrchr_append_left h.1, strrchr_append_left h.2]
  cases strrchr 60 t with
  | none => rfl
  | some lt =>
    cases strrchr 62 t with
    | none => rfl
    | some gt =>
      have hdl : gt + s.length - (lt + s.length) - 1 = gt - lt - 1 := by omega
      have hdrop : (s ++ t).drop (lt + s.length + 1) = t.drop (lt + 1) := by
        rw [drop_append, drop_eq_nil_of_le (by omega), nil_append]
        congr 1
        omega
      simp [hdl, hdrop]

theorem lastAngle_append_right (s : List UInt8) {t : List UInt8} (h : 60 ∉ t ∧ 62 ∉ t) :
    lastAngle (s ++ t) = lastAngle s := by
  unfold lastAngle
  rw [strrchr_append_right s h.1, strrchr_append_right s h.2]
  cases hlt : strrchr 60 s with
  | none => rfl
  | some lt =>
    cases hgt : strrchr 62 s with
    | none => rfl
    | some gt =>
      have h1 := strrchr_lt hlt
      have h2 := strrchr_lt hgt
      have htext : ((s ++ t).drop (lt + 1)).take (gt - lt - 1) = (s.drop (lt + 1)).take (gt - lt - 1) := by
        rw [drop_append_of_le_length (by omega), take_append_of_le_length (by rw [length_drop]; omega)]
      simp only [Option.bind_eq_bind, Option.bind_some, htext]

/-! ## One line -/

theorem ne_of_class {p : UInt8 → Bool} {c b : UInt8} (hc : p c) (hb : p b = false) : c ≠ b := by
  rintro rfl
  rw [hb] at hc
  cases hc

theorem mem_leftpad {b : UInt8} {n : Nat} {s : List UInt8} (h : b ∈ List.leftpad n 32 s) : b = 32 ∨ b ∈ s := by
  rcases mem_append.mp h with h | h
  · exact Or.inl (eq_of_mem_replicate h)
  · exact Or.inr h

theorem skipPid_pidTag (pid : Option Nat) {c : UInt8} (hc : c ≠ 91 ∧ c ≠ 32) (s : List UInt8) :
    skipPid (TraceLine.pidTag pid ++ c :: s) = c :: s := by
  cases pid with
  | none =>
    refine if_neg fun h => hc.1 ?_
    exact (List.cons.inj h).1
  | some pid =>
    have hline : TraceLine.pidTag (some pid) ++ c :: s =
        (bytes "[pid " ++ List.leftpad 5 32 (zeroPadded 1 pid)) ++ 93 :: 32 :: c :: s := by
      rw [TraceLine.pidTag, append_assoc (_ ++ _)]
      rfl
    have hclose : ∀ b ∈ bytes "[pid " ++ List.leftpad 5 32 (zeroPadded 1 pid), decide (b ≠ 93) = true := by
      intro b hb
      rw [decide_eq_true_eq]
      rcases mem_append.mp hb with hb | hb
      · rintro rfl
        exact absurd hb (by decide)
      · rcases mem_leftpad hb with rfl | hb
        · decide
        · exact ne_of_class (mem_zeroPadded hb) rfl
    have hdrop : (TraceLine.pidTag (some pid) ++ c :: s).dropWhile (· ≠ 93) = 93 :: 32 :: c :: s := by
      rw [hline, dropWhile_append_of_pos hclose]
      rfl
    have hstart : (TraceLine.pidTag (some pid) ++ c :: s).take 4 = bytes "[pid" := rfl
    unfold skipPid
    rw [if_pos hstart, hdrop]
    simp [hc.2]

theorem scanIdent_append {name : List UInt8} (hname : ∀ c ∈ name, isNameChar c) {d : UInt8} (hd : ¬isNameChar d)
    (s : List UInt8) : ∀ {k : Nat}, name.length ≤ k → scanIdent k (name ++ d :: s) = (name, d :: s) := by
  induction name with
  | nil =>
    intro k _
    cases k with
    | zero => rfl
    | succ k => exact if_neg hd
  | cons c name ih =>
    intro k hk
    cases k with
    | zero => cases hk
    | succ k =>
      have htail := ih (fun b hb => hname b (mem_cons_of_mem _ hb)) (Nat.le_of_succ_le_succ hk)
      rw [cons_append, scanIdent, if_pos (hname c mem_cons_self), htail]

theorem scanIdent_long {name : List UInt8} (hname : ∀ c ∈ name, isNameChar c) (s : List UInt8) :
    ∀ {k : Nat}, k < name.length → ∃ c ∈ name, (scanIdent k (name ++ s)).2.head? = some c := by
  induction name with
  | nil => exact fun h => nomatch h
  | cons b name ih =>
    intro k hk
    cases k with
    | zero => exact ⟨b, mem_cons_self, rfl⟩
    | succ k =>
      obtain ⟨c, hc, h⟩ := ih (fun b hb => hname b (mem_cons_of_mem _ hb)) (Nat.lt_of_succ_lt_succ hk)
      refine ⟨c, mem_cons_of_mem _ hc, ?_⟩
      rw [cons_append, scanIdent, if_pos (hname b mem_cons_self)]
      exact h

theorem scanIdent_length : ∀ (k : Nat) (s : List UInt8), (scanIdent k s).1.length ≤ k
  | 0, _ => Nat.le_refl _
  | _ + 1, [] => Nat.zero_le _
  | k + 1, c :: s => by
    rw [scanIdent]
    split
    next => exact Nat.succ_le_succ (scanIdent_length k s)
    next => exact Nat.zero_le _

theorem not_isNameChar_paren : ¬isNameChar 40 := by decide

theorem timedCall_named (pid : Option Nat) (name : SysName) (s : List UInt8) :
    timedCall (TraceLine.pidTag pid ++ name.chars ++ 40 :: s) =
      if name.chars.length ≤ 63 then
        (duration (TraceLine.pidTag pid ++ name.chars ++ 40 :: s)).map fun t => (name.chars, t)
      else none := by
  obtain ⟨c, cs, hchars⟩ : ∃ c cs, name.chars = c :: cs := by
    cases h : name.chars with
    | nil => exact absurd (h ▸ name.start) (by decide)
    | cons c cs => exact ⟨c, cs, rfl⟩
  have hstart : isNameStart c := by
    have h := name.start
    rwa [hchars] at h
  have hskip : skipPid (TraceLine.pidTag pid ++ name.chars ++ 40 :: s) = name.chars ++ 40 :: s := by
    rw [append_assoc, hchars, cons_append]
    exact skipPid_pidTag pid ⟨ne_of_class hstart rfl, ne_of_class hstart rfl⟩ _
  have hfirst : (name.chars ++ 40 :: s).head?.any isNameStart := by
    rw [hchars]
    exact hstart
  unfold timedCall
  rw [hskip]
  generalize TraceLine.pidTag pid ++ name.chars ++ 40 :: s = line
  by_cases hlen : name.chars.length ≤ 63
  · have hscan := scanIdent_append name.isName not_isNameChar_paren s hlen
    rw [if_pos hlen]
    simp only [hscan, hfirst, guard]
    cases duration line <;> rfl
  · obtain ⟨b, hb, hhead⟩ := scanIdent_long name.isName (40 :: s) (Nat.lt_of_not_le hlen)
    have hparen : ¬(scanIdent 63 (name.chars ++ 40 :: s)).2.head? = some 40 := by
      rw [hhead]
      exact fun h => ne_of_class (name.isName b hb) rfl (Option.some.inj h)
    rw [if_neg hlen]
    simp only [hfirst, guard, hparen]
    rfl

theorem timedCall_other (pid : Option Nat) {c : UInt8} (hc : c ≠ 91 ∧ c ≠ 32) (hstart : ¬isNameStart c)
    (s : List UInt8) : timedCall (TraceLine.pidTag pid ++ c :: s) = none := by
  unfold timedCall
  rw [skipPid_pidTag pid hc]
  simp [hstart]

theorem pidTag_noAngle (pid : Option Nat) : 60 ∉ TraceLine.pidTag pid ∧ 62 ∉ TraceLine.pidTag pid := by
  cases pid with
  | none => exact ⟨not_mem_nil, not_mem_nil⟩
  | some pid =>
    have hpad : ∀ b ∈ List.leftpad 5 32 (zeroPadded 1 pid), b = 32 ∨ isdigit b := fun b hb =>
      (mem_leftpad hb).imp_right mem_zeroPadded
    have hfree : ∀ b : UInt8, b ∉ bytes "[pid " → b ≠ 32 → isdigit b = false → b ∉ bytes "] " →
        b ∉ TraceLine.pidTag (some pid) := by
      intro b h1 h2 h3 h4 hb
      rcases mem_append.mp hb with hb | hb
      · rcases mem_append.mp hb with hb | hb
        · exact h1 hb
        · rcases hpad b hb with h | h
          · exact h2 h
          · exact ne_of_class h h3 rfl
      · exact h4 hb
    exact ⟨hfree 60 (by decide) (by decide) rfl (by decide), hfree 62 (by decide) (by decide) rfl (by decide)⟩

/-- Only the text behind the parenthesis can hold brackets. -/
theorem duration_named (pid : Option Nat) (name : SysName) (s : List UInt8) :
    duration (TraceLine.pidTag pid ++ name.chars ++ 40 :: s) = duration s := by
  have hname : ∀ b, isNameChar b = false → b ∉ name.chars := by
    intro b hb hmem
    exact ne_of_class (name.isName b hmem) hb rfl
  have hfree : ∀ b : UInt8, b ∉ TraceLine.pidTag pid → b ∉ name.chars → b ≠ 40 →
      b ∉ TraceLine.pidTag pid ++ name.chars ++ [40] := by
    intro b h1 h2 h3
    simp [h1, h2, h3]
  have hline : TraceLine.pidTag pid ++ name.chars ++ 40 :: s = (TraceLine.pidTag pid ++ name.chars ++ [40]) ++ s := by
    simp
  obtain ⟨h60, h62⟩ := pidTag_noAngle pid
  unfold duration
  rw [hline, lastAngle_append_left
    ⟨hfree 60 h60 (hname 60 rfl) (by decide), hfree 62 h62 (hname 62 rfl) (by decide)⟩]

theorem Duration.text_noAngle (d : Duration) : 60 ∉ d.text ∧ 62 ∉ d.text := by
  have hfree : ∀ b : UInt8, isdigit b = false → b ≠ 46 → b ∉ d.text := by
    intro b hb hdot hmem
    rcases mem_decimal hmem with h | h
    · exact ne_of_class h hb rfl
    · exact hdot h
  exact ⟨hfree 60 rfl (by decide), hfree 62 rfl (by decide)⟩

theorem Duration.length_text (d : Duration) : d.text.length < 64 := by
  have hsec : d.usec / 10 ^ 6 < 10 ^ 19 :=
    lt_trans (Nat.div_lt_of_lt_mul (Nat.mul_comm _ _ ▸ d.usec_lt)) (by decide)
  have hdigits : (Nat.digits 10 (d.usec / 10 ^ 6)).length ≤ 19 :=
    (Nat.digits_length_le_iff (by decide) _).mpr hsec
  have hfrac := Nat.length_digitsAppend (b := 10) (by decide) 6 (Nat.mod_lt d.usec (by decide : 10 ^ 6 > 0))
  simp only [text, decimal, zeroPadded, length_append, length_cons, length_map, length_reverse,
    hfrac]
  rw [Nat.digitsAppend, length_append, length_replicate]
  omega

theorem Duration.strtod_text (d : Duration) : strtod d.text = some (d.sec, []) := by
  have h := strtod_decimal (d.usec / 10 ^ 6) (Nat.mod_lt d.usec (Nat.pow_pos (n := 6) (by decide : 0 < 10)))
  rw [Nat.mod_add_div] at h
  exact h

theorem lastAngle_line (s : List UInt8) {d : List UInt8} (hd : 60 ∉ d ∧ 62 ∉ d) (hlen : d.length < 64) :
    lastAngle (s ++ bytes " <" ++ d ++ bytes ">\n") = some d := by
  have hline : s ++ bytes " <" ++ d ++ bytes ">\n" = (s ++ [32]) ++ 60 :: (d ++ 62 :: [10]) := by
    simp [bytes]
  rw [hline]
  exact lastAngle_trailer (s ++ [32]) hd (by decide) hlen

theorem duration_returned (s : List UInt8) (d : Duration) :
    duration (s ++ bytes " <" ++ d.text ++ bytes ">\n") = some d.sec := by
  unfold duration
  rw [lastAngle_line s d.text_noAngle d.length_text, Option.bind_eq_bind, Option.bind_some, d.strtod_text]
  rfl

theorem duration_marked (s : List UInt8) (m : Mark) :
    duration (s ++ bytes " <" ++ m.text ++ bytes ">\n") = none := by
  have htext : (60 ∉ m.text ∧ 62 ∉ m.text) ∧ m.text.length < 64 ∧ strtod m.text = none := by
    cases m <;> decide +kernel
  unfold duration
  rw [lastAngle_line s htext.1 htext.2.1, Option.bind_eq_bind, Option.bind_some, htext.2.2]
  rfl

theorem duration_killed (s : List UInt8) : duration (s ++ bytes "= ?\n") = duration s := by
  unfold duration
  rw [lastAngle_append_right s (by decide)]

namespace TraceLine

def kept : TraceLine → List (List UInt8 × Num)
  | returned _ name _ dur => if name.chars.length ≤ 63 then [(name.chars, dur.sec)] else []
  | _ => []

theorem timedCall_render (l : TraceLine) : (timedCall l.render).toList = l.kept ++ l.misread := by
  cases l with
  | returned pid name rest dur =>
    rw [render, timedCall_named, duration_named, duration_returned]
    simp only [kept, misread, append_nil]
    split <;> rfl
  | marked pid name rest mark =>
    rw [render, timedCall_named, duration_named, duration_marked]
    split <;> rfl
  | killed pid name rest =>
    rw [render, timedCall_named, duration_named, duration_killed]
    simp only [kept, misread, nil_append]
    split
    next => cases duration rest.chars <;> rfl
    next => rfl
  | resumed pid name rest dur =>
    rw [render]
    simp only [append_assoc]
    exact congrArg Option.toList (timedCall_other pid (c := 60) (by decide) (by decide) _)
  | resumedMarked pid name rest mark =>
    rw [render]
    simp only [append_assoc]
    exact congrArg Option.toList (timedCall_other pid (c := 60) (by decide) (by decide) _)
  | resumedKilled pid name rest =>
    rw [render]
    simp only [append_assoc]
    exact congrArg Option.toList (timedCall_other pid (c := 60) (by decide) (by decide) _)
  | signal pid text =>
    rw [render]
    simp only [append_assoc]
    exact congrArg Option.toList (timedCall_other pid (c := 45) (by decide) (by decide) _)
  | exited pid text =>
    rw [render]
    simp only [append_assoc]
    exact congrArg Option.toList (timedCall_other pid (c := 43) (by decide) (by decide) _)
  | attached pid => rfl

end TraceLine

/-! ## The whole trace -/

theorem Sperf.timeOf_eq {s : Sperf} (h : (s.stats.map SyscallStat.name).Nodup) (name : List UInt8) :
    s.timeOf name = total name (s.stats.map fun st => (st.name, st.time)) := by
  rw [total_eq_lookup (by rwa [map_map]), find?_map, Option.map_map]
  rfl

theorem timedCall_length {line name : List UInt8} {t : Num} (h : timedCall line = some (name, t)) :
    name.length ≤ 63 := by
  simp only [timedCall, Option.bind_eq_bind, Option.bind_eq_some_iff, Option.pure_def, Option.some.injEq,
    Prod.mk.injEq] at h
  obtain ⟨-, -, -, -, -, -, rfl, -⟩ := h
  exact scanIdent_length 63 _

section
variable (stats : List SyscallStat) (name : List UInt8) (t : Num)

theorem rows_charge (i : Nat) :
    (stats.modify i fun st => { st with time := st.time + t }).map (fun st => (st.name, st.time)) =
      (stats.map fun st => (st.name, st.time)).modify i fun e => (e.1, e.2 + t) := by
  apply ext_getElem
  · simp
  · intro j _ _
    simp only [getElem_map, getElem_modify]
    split <;> rfl

theorem charge_last (st : SyscallStat) :
    (stats ++ [st]).modify stats.length (fun st => { st with time := st.time + t }) =
      stats ++ [{ st with time := st.time + t }] := by
  rw [modify_eq_take_drop, take_left, drop_left]
  rfl

variable {stats name} in
theorem getStat_cases (hroom : name ∉ stats.map SyscallStat.name → stats.length < maxSys) :
    (∃ (i : Nat) (hi : i < stats.length), stats[i].name = name ∧ getStat stats name = (stats, some i)) ∨
      name ∉ stats.map SyscallStat.name ∧
        getStat stats name = (stats ++ [⟨name.take 63, 0⟩], some stats.length) := by
  unfold getStat
  cases hfind : stats.findIdx? fun s => s.name = name with
  | some i =>
    obtain ⟨hi, heq, -⟩ := findIdx?_eq_some_iff_getElem.mp hfind
    exact Or.inl ⟨i, hi, of_decide_eq_true heq, rfl⟩
  | none =>
    have hnew : name ∉ stats.map SyscallStat.name := by
      intro h
      obtain ⟨st, hst, heq⟩ := mem_map.mp h
      have hno := findIdx?_eq_none_iff.mp hfind st hst
      exact of_decide_eq_false hno heq
    exact Or.inr ⟨hnew, if_pos (hroom hnew)⟩

end

structure Counted (s : Sperf) (es : List (List UInt8 × Num)) : Prop where
  sums : Sums (s.stats.map fun st => (st.name, st.time)) es
  total_eq : s.totalTime = (es.map Prod.snd).sum

theorem parseLine_counted {s : Sperf} {es : List (List UInt8 × Num)} (h : Counted s es) {line : List UInt8}
    {ks : Finset (List UInt8)} (hks : ks.card ≤ maxSys) (hes : ∀ k ∈ es.map Prod.fst, k ∈ ks)
    (hline : ∀ e ∈ (timedCall line).toList, e.1 ∈ ks) :
    Counted (parseLine s line) (es ++ (timedCall line).toList) := by
  unfold parseLine
  cases hcall : timedCall line with
  | none => simpa using h
  | some e =>
    obtain ⟨name, t⟩ := e
    have hname : name ∈ ks := hline (name, t) (by simp [hcall])
    have hrows : s.stats.map SyscallStat.name = (s.stats.map fun st => (st.name, st.time)).map Prod.fst := by
      rw [map_map]
      rfl
    have hsum : s.totalTime + t = ((es ++ [(name, t)]).map Prod.snd).sum := by
      rw [h.total_eq, map_append, sum_append]
      simp
    have hroom : name ∉ s.stats.map SyscallStat.name → s.stats.length < maxSys := by
      intro hnew
      have hlt := h.sums.length_lt hes hname (hrows ▸ hnew)
      rw [length_map] at hlt
      exact Nat.lt_of_lt_of_le hlt hks
    rcases getStat_cases hroom with ⟨i, hi, heq, hget⟩ | ⟨hnew, hget⟩
    · simp only [hget]
      refine ⟨?_, hsum⟩
      rw [rows_charge]
      exact h.sums.addTo (by rwa [length_map]) (by rw [getElem_map]; exact heq) t
    · simp only [hget]
      refine ⟨?_, hsum⟩
      rw [charge_last, map_append, take_of_length_le (timedCall_length hcall), zero_add]
      exact h.sums.addRow (hrows ▸ hnew) t

theorem foldl_counted {ks : Finset (List UInt8)} (hks : ks.card ≤ maxSys) (lines : List (List UInt8)) (s : Sperf)
    (es : List (List UInt8 × Num)) (h : Counted s es) (hes : ∀ k ∈ es.map Prod.fst, k ∈ ks)
    (hlines : ∀ line ∈ lines, ∀ e ∈ (timedCall line).toList, e.1 ∈ ks) :
    Counted (lines.foldl parseLine s) (es ++ lines.flatMap fun line => (timedCall line).toList) := by
  induction lines generalizing s es with
  | nil => simpa using h
  | cons line lines ih =>
    have hhead := hlines line mem_cons_self
    rw [foldl_cons, flatMap_cons, ← append_assoc]
    refine ih _ _ (parseLine_counted h hks hes hhead) ?_ fun l hl => hlines l (mem_cons_of_mem _ hl)
    intro k hk
    rw [map_append, mem_append] at hk
    rcases hk with hk | hk
    · exact hes k hk
    · obtain ⟨e, he, rfl⟩ := mem_map.mp hk
      exact hhead e he

namespace TraceLine

theorem mem_sysNames_of_kept {l : TraceLine} {e : List UInt8 × Num} (h : e ∈ l.kept ++ l.misread) :
    e.1 ∈ l.sysNames := by
  cases l <;> simp [kept, misread, sysNames] at h ⊢ <;> grind

theorem mem_sysNames_of_completed {l : TraceLine} {e : List UInt8 × Num} (h : e ∈ l.completed) :
    e.1 ∈ l.sysNames := by
  cases l <;> simp [completed, sysNames] at h ⊢ <;> grind

theorem total_completed (name : List UInt8) (trace : List TraceLine) :
    total name (trace.flatMap completed) = total name (trace.flatMap kept) + total name (trace.flatMap missed) := by
  refine total_flatMap (fun l => ?_) trace
  cases l with
  | returned pid n rest dur =>
    simp only [completed, kept, missed]
    split <;> simp
  | _ => simp [completed, kept, missed]

theorem total_kept (name : List UInt8) (trace : List TraceLine) :
    ∃ q, total name (trace.flatMap kept) = .fin q := by
  induction trace with
  | nil => exact ⟨0, rfl⟩
  | cons l trace ih =>
    obtain ⟨q, hq⟩ := ih
    have hl : ∃ r, total name l.kept = .fin r := by
      cases l with
      | returned pid n rest dur =>
        simp only [kept]
        split
        · rw [total_cons, total_nil, add_zero]
          split
          · exact ⟨_, rfl⟩
          · exact ⟨0, rfl⟩
        · exact ⟨0, rfl⟩
      | _ => exact ⟨0, rfl⟩
    obtain ⟨r, hr⟩ := hl
    exact ⟨r + q, by rw [flatMap_cons, total_append, hr, hq, Num.fin_add_fin]⟩

end TraceLine

theorem sperf_counted {trace : List TraceLine} (hnames : (sysNames trace).card ≤ maxSys) :
    Counted (sperf (trace.map TraceLine.render)) (trace.flatMap fun l => l.kept ++ l.misread) := by
  have hseen : (trace.map TraceLine.render).flatMap (fun line => (timedCall line).toList) =
      trace.flatMap fun l => l.kept ++ l.misread := by
    rw [flatMap_map]
    exact congrArg (fun f => trace.flatMap f) (funext TraceLine.timedCall_render)
  rw [← hseen]
  refine foldl_counted hnames (trace.map TraceLine.render) Sperf.init [] ⟨Sums.nil, rfl⟩ (fun _ h => nomatch h) ?_
  intro line hline e he
  obtain ⟨l, hl, rfl⟩ := mem_map.mp hline
  rw [TraceLine.timedCall_render] at he
  exact mem_toFinset.mpr (mem_flatMap.mpr ⟨l, hl, TraceLine.mem_sysNames_of_kept he⟩)

/-- What the profile lacks is what it has in excess, for every name. -/
def Balanced (trace : List TraceLine) : Prop :=
  ∀ name, total name (trace.flatMap TraceLine.missed) = total name (trace.flatMap TraceLine.misread)

theorem total_of_nonneg (name : List UInt8) {es : List (List UInt8 × Num)}
    (h : ∀ e ∈ es, ∃ q : ℚ, 0 ≤ q ∧ e.2 = .fin q) :
    ∃ q : ℚ, 0 ≤ q ∧ total name es = .fin q ∧ (q = 0 → ∀ e ∈ es, e.1 = name → e.2 = 0) := by
  induction es with
  | nil => exact ⟨0, le_refl 0, rfl, fun _ _ he => nomatch he⟩
  | cons e es ih =>
    obtain ⟨q, hq, htail, hzero⟩ := ih fun f hf => h f (mem_cons_of_mem _ hf)
    obtain ⟨r, hr, hsec⟩ := h e mem_cons_self
    rw [total_cons, htail]
    by_cases hname : e.1 = name
    · refine ⟨r + q, add_nonneg hr hq, by rw [if_pos hname, hsec, Num.fin_add_fin], fun hsum f hf hfn => ?_⟩
      obtain ⟨rfl, rfl⟩ := (add_eq_zero_iff_of_nonneg hr hq).mp hsum
      rcases mem_cons.mp hf with rfl | hf
      · exact hsec
      · exact hzero rfl f hf hfn
    · refine ⟨q, hq, by rw [if_neg hname, zero_add], fun hsum f hf hfn => ?_⟩
      rcases mem_cons.mp hf with rfl | hf
      · exact absurd hfn hname
      · exact hzero hsum f hf hfn

theorem TraceLine.missed_nonneg {l : TraceLine} {e : List UInt8 × Num} (h : e ∈ l.missed) :
    ∃ q : ℚ, 0 ≤ q ∧ e.2 = .fin q := by
  have hsec : ∀ d : Duration, ∃ q : ℚ, 0 ≤ q ∧ d.sec = .fin q := fun d => ⟨_, by positivity, rfl⟩
  cases l with
  | returned pid n rest dur =>
    simp only [missed] at h
    split at h
    · cases h
    · cases mem_singleton.mp h
      exact hsec dur
  | resumed pid n rest dur =>
    cases mem_singleton.mp h
    exact hsec dur
  | _ => cases h

/-- Without numbers to misread, every call that takes time has to be on one line, under a name that fits. -/
theorem balanced_iff {trace : List TraceLine} (h : ∀ l ∈ trace, l.misread = []) :
    Balanced trace ↔ ∀ l ∈ trace, ∀ e ∈ l.missed, e.2 = 0 := by
  have hnone : trace.flatMap TraceLine.misread = [] := flatMap_eq_nil_iff.mpr h
  have hnonneg : ∀ e ∈ trace.flatMap TraceLine.missed, ∃ q : ℚ, 0 ≤ q ∧ e.2 = .fin q := by
    intro e he
    obtain ⟨l, -, he⟩ := mem_flatMap.mp he
    exact TraceLine.missed_nonneg he
  constructor
  · intro hbal l hl e he
    have hmem := mem_flatMap.mpr ⟨l, hl, he⟩
    obtain ⟨q, -, hq, hzero⟩ := total_of_nonneg e.1 hnonneg
    have hsum := hbal e.1
    rw [hnone, total_nil, hq] at hsum
    exact hzero (Num.fin.inj hsum) e hmem rfl
  · intro hzero name
    rw [hnone, total_nil, total]
    apply sum_eq_zero
    intro x hx
    obtain ⟨e, he, rfl⟩ := mem_map.mp hx
    obtain ⟨l, hl, he⟩ := mem_flatMap.mp (mem_of_mem_filter he)
    exact hzero l hl e he

/-- The profile is right only if nothing is missed or the losses happen to be made up. -/
theorem sperf_profiles_iff {trace : List TraceLine} (hnames : (sysNames trace).card ≤ maxSys) :
    Profiles (sperf (trace.map TraceLine.render)) trace ↔ Balanced trace := by
  have hc := sperf_counted hnames
  have hdistinct : ((sperf (trace.map TraceLine.render)).stats.map SyscallStat.name).Nodup := by
    have h := hc.sums.nodup
    rwa [map_map] at h
  have htime : ∀ name, (sperf (trace.map TraceLine.render)).timeOf name =
      total name (trace.flatMap TraceLine.kept) + total name (trace.flatMap TraceLine.misread) := by
    intro name
    rw [Sperf.timeOf_eq hdistinct, hc.sums.total_eq]
    exact total_flatMap (fun l => total_append name _ _) trace
  have hname : ∀ name,
      (sperf (trace.map TraceLine.render)).timeOf name = total name (trace.flatMap TraceLine.completed) ↔
      total name (trace.flatMap TraceLine.missed) = total name (trace.flatMap TraceLine.misread) := by
    intro name
    obtain ⟨q, hq⟩ := TraceLine.total_kept name trace
    rw [htime, TraceLine.total_completed, hq, Num.fin_add_inj]
    exact eq_comm
  constructor
  · intro h name
    exact (hname name).mp (h.time_eq name)
  · intro h
    have htimes : ∀ name, (sperf (trace.map TraceLine.render)).timeOf name =
        total name (trace.flatMap TraceLine.completed) := fun name => (hname name).mpr (h name)
    refine ⟨hdistinct, htimes, ?_⟩
    have hseen : ∀ name, total name (trace.flatMap fun l => l.kept ++ l.misread) =
        total name (trace.flatMap TraceLine.completed) := by
      intro name
      rw [← hc.sums.total_eq, ← Sperf.timeOf_eq hdistinct, htimes]
    rw [hc.total_eq, sum_eq_of_total_eq hseen]
    refine sum_eq_sum_total _ _ fun e he => ?_
    obtain ⟨l, hl, he⟩ := mem_flatMap.mp he
    exact mem_toFinset.mpr (mem_flatMap.mpr ⟨l, hl, TraceLine.mem_sysNames_of_completed he⟩)

def readTrace (dur : Duration) : List TraceLine :=
  [.marked (some 101) ⟨bytes "read", rfl, by decide +kernel⟩
      ⟨bytes "0, ", by decide +kernel, by decide +kernel⟩ .unfinished,
    .returned (some 102) ⟨bytes "write", rfl, by decide +kernel⟩
      ⟨bytes "1, \"<5.0>(\", 6) = 6", by decide +kernel, by decide +kernel⟩ ⟨12, by decide⟩,
    .resumed (some 101) ⟨bytes "read", rfl, by decide +kernel⟩
      ⟨bytes "\"\", 8) = 0", by decide +kernel, by decide +kernel⟩ dur]

def quietTrace : List TraceLine := readTrace ⟨0, by decide⟩

theorem sperf_profiles_quietTrace : Profiles (sperf (quietTrace.map TraceLine.render)) quietTrace :=
  (sperf_profiles_iff (by decide +kernel)).mpr ((balanced_iff (by decide +kernel)).mpr (by decide +kernel))

def splitTrace : List TraceLine := readTrace ⟨500000, by decide⟩

/-- The read took half a second. -/
theorem splitTrace_loses_read : (sysNames splitTrace).card ≤ maxSys ∧
    (sperf (splitTrace.map TraceLine.render)).timeOf (bytes "read") = 0 ∧
    total (bytes "read") (splitTrace.flatMap TraceLine.completed) = .fin (1 / 2) ∧
    ¬Profiles (sperf (splitTrace.map TraceLine.render)) splitTrace := by
  have htime : (sperf (splitTrace.map TraceLine.render)).timeOf (bytes "read") = 0 := by decide +kernel
  have hspent : total (bytes "read") (splitTrace.flatMap TraceLine.completed) = .fin (1 / 2) := by decide +kernel
  refine ⟨by decide +kernel, htime, hspent, fun h => ?_⟩
  have heq := h.time_eq (bytes "read")
  rw [htime, hspent] at heq
  exact absurd heq (by decide +kernel)

-- five seconds for a call that was killed
example : (sperf [TraceLine.render (.killed none ⟨bytes "write", rfl, by decide +kernel⟩
    ⟨bytes "1, \"<5.0>\", 5) ", by decide +kernel, by decide +kernel⟩)]).timeOf (bytes "write") = .fin 5 := by
  decide +kernel

end NjuOs
