import NjuOs.ReadStat

/-!
# What `read_stat` makes of a `stat` file

A command name is put between parentheses as it is, whatever bytes it has. What follows it holds
no closing parenthesis, so the last one of the text ends the name. On any other text an entry is
added or not, and no earlier one changes.
-/

namespace NjuOs

open Function List Option

/-! ## Characters -/

section
variable {c : UInt8} {s u v : List UInt8}

theorem strchr_append (hu : c ∉ u) : strchr c (u ++ c :: v) = some u.length := by
  have hnone : u.findIdx? (· = c) = none :=
    findIdx?_eq_none_iff.mpr fun x hx => decide_eq_false fun he => hu (he ▸ hx)
  rw [strchr, findIdx?_append, hnone, findIdx?_cons, decide_eq_true rfl]
  simp

theorem strrchr_append (hv : c ∉ v) : strrchr c (u ++ c :: v) = some u.length := by
  induction u with
  | nil =>
    rw [nil_append, strrchr, strrchr_eq_none hv]
    exact if_pos rfl
  | cons b u ih =>
    rw [cons_append, strrchr, ih]
    rfl

theorem cstring_append (hu : 0 ∉ u) : cstring (u ++ v) = u ++ cstring v :=
  takeWhile_append_of_pos fun _ hx => decide_eq_true fun h0 => hu (h0 ▸ hx)

theorem dropWhile_isspace (hc : isspace c = false) : (32 :: c :: s).dropWhile isspace = c :: s := by
  rw [dropWhile_cons_of_pos (by decide), dropWhile_cons_of_neg (by rw [hc]; decide)]

theorem forall_byte {p : UInt8 → Prop} (h : ∀ n < 256, p (UInt8.ofNat n)) (c : UInt8) : p c := by
  have hc := h c.toNat c.toNat_lt
  rwa [UInt8.ofNat_toNat] at hc

theorem isspace_of_isdigit : isdigit c = true → isspace c = false :=
  forall_byte (p := fun c => isdigit c = true → isspace c = false) (by decide +kernel) c

theorem letter_parts : isalpha c = true → isspace c = false ∧ c ≠ 0 ∧ c ≠ 41 :=
  forall_byte (p := fun c => isalpha c = true → isspace c = false ∧ c ≠ 0 ∧ c ≠ 41) (by decide +kernel) c

end

/-! ## Numbers -/

def intText (v : Int) : List UInt8 := if v < 0 then 45 :: zeroPadded 1 v.natAbs else zeroPadded 1 v.natAbs

theorem mem_intText {v : Int} {c : UInt8} (h : c ∈ intText v) : c = 45 ∨ isdigit c = true := by
  unfold intText at h
  split at h
  · exact (mem_cons.mp h).imp_right mem_zeroPadded
  · exact Or.inr (mem_zeroPadded h)

theorem notMem_intText {v : Int} {c : UInt8} (h : c ≠ 45 ∧ isdigit c = false) : c ∉ intText v := by
  intro hc
  rcases mem_intText hc with h' | h'
  · exact h.1 h'
  · rw [h.2] at h'
    cases h'

theorem intText_cons (v : Int) : ∃ c s, intText v = c :: s ∧ isspace c = false := by
  unfold intText
  split
  · exact ⟨45, _, rfl, by decide⟩
  · obtain ⟨c, s, h⟩ := exists_cons_of_ne_nil (zeroPadded_ne_nil Nat.one_pos v.natAbs)
    exact ⟨c, s, h, isspace_of_isdigit (mem_zeroPadded (h ▸ mem_cons_self))⟩

theorem number_zeroPadded (n : Nat) : Strtod.number 10 (Nat.digitsAppend 10 1 n).reverse = n := by
  rw [Strtod.number, reverse_reverse, Nat.digitsAppend, Nat.ofDigits_append_replicate_zero, Nat.ofDigits_digits]

theorem sign_digit {c : UInt8} {s : List UInt8} (hc : isdigit c = true) : Strtod.sign (c :: s) = (false, c :: s) := by
  unfold Strtod.sign
  split
  · next h =>
    cases h
    cases hc
  · next h =>
    cases h
    cases hc
  · rfl

theorem sign_zeroPadded (n : Nat) (s : List UInt8) :
    Strtod.sign (zeroPadded 1 n ++ s) = (false, zeroPadded 1 n ++ s) := by
  obtain ⟨c, t, h⟩ := exists_cons_of_ne_nil (zeroPadded_ne_nil Nat.one_pos n)
  have hc : isdigit c = true := mem_zeroPadded (h ▸ mem_cons_self)
  rw [h]
  exact sign_digit hc

theorem scanInt_intText {v : Int} (hlo : -2 ^ 31 ≤ v) (hhi : v < 2 ^ 31) (s : List UInt8) :
    scanInt (intText v ++ 32 :: s) = some v := by
  have hdigits : ∀ n, Strtod.digits 10 (zeroPadded 1 n ++ 32 :: s) = ((Nat.digitsAppend 10 1 n).reverse, 32 :: s) :=
    fun n => Strtod.digits_map _ (fun d => Strtod.lt_of_mem_digits) fun c hc => by
      cases mem_some_iff.mp hc
      rfl
  have hne : ∀ n, (Nat.digitsAppend 10 1 n).reverse ≠ [] := by
    intro n h
    apply zeroPadded_ne_nil Nat.one_pos n
    rw [zeroPadded, h, map_nil]
  have hfit : i32 (clampLong v) = v := by
    unfold clampLong i32
    omega
  unfold scanInt intText
  by_cases hneg : v < 0
  · have hsign : Strtod.sign ((45 :: zeroPadded 1 v.natAbs) ++ 32 :: s) =
        (true, zeroPadded 1 v.natAbs ++ 32 :: s) := rfl
    have habs : -(v.natAbs : Int) = v := by omega
    simp only [if_pos hneg, hsign, hdigits, if_neg (hne _), if_true, number_zeroPadded, habs, hfit]
  · have habs : (v.natAbs : Int) = v := by omega
    simp only [if_neg hneg, sign_zeroPadded, hdigits, if_neg (hne _), Bool.false_eq_true, if_false,
      number_zeroPadded, habs, hfit]

/-! ## The parse -/

def parseStat (content : List UInt8) : Option (List UInt8 × Int) := do
  let buf := cstring (content.take 8191)
  let lp ← strchr 40 buf
  let rp ← strrchr 41 buf
  if rp < lp then none
  else
    let (_, ppid) ← sscanfStat (buf.drop (rp + 1))
    return ((buf.drop (lp + 1)).take (min (rp - lp - 1) 255), ppid)

def statText (pid : Int) (comm : List UInt8) (state : UInt8) (ppid : Int) (tail : List UInt8) : List UInt8 :=
  intText pid ++ bytes " (" ++ comm ++ bytes ") " ++ state :: bytes " " ++ intText ppid ++ bytes " " ++ tail

section
variable {pid ppid : Int} {comm tail : List UInt8} {state : UInt8}

theorem statText_eq : statText pid comm state ppid tail =
    (intText pid ++ [32]) ++ 40 :: (comm ++ 41 :: (32 :: state :: 32 :: (intText ppid ++ 32 :: tail))) := by
  simp [statText, bytes]

theorem sscanfStat_text (hstate : isalpha state = true) (hlo : -2 ^ 31 ≤ ppid) (hhi : ppid < 2 ^ 31) :
    sscanfStat (32 :: state :: 32 :: (intText ppid ++ 32 :: tail)) = some (state, ppid) := by
  obtain ⟨c, s, hcs, hc⟩ := intText_cons ppid
  have hscan := scanInt_intText hlo hhi tail
  rw [hcs, cons_append] at hscan
  rw [sscanfStat, dropWhile_isspace (letter_parts hstate).1, hcs, cons_append]
  simp only [dropWhile_isspace hc, hscan, map_some]

theorem parseStat_text (hcomm : 0 ∉ comm) (hlen : comm.length ≤ 255) (hstate : isalpha state = true)
    (hlo : -2 ^ 31 ≤ ppid) (hhi : ppid < 2 ^ 31) (htail : 41 ∉ tail)
    (hfit : (statText pid comm state ppid tail).length ≤ 8191) :
    parseStat (statText pid comm state ppid tail) = some (comm, ppid) := by
  obtain ⟨-, hs0, hs41⟩ := letter_parts hstate
  have hnum : ∀ v, (0 : UInt8) ∉ intText v ∧ (40 : UInt8) ∉ intText v ∧ (41 : UInt8) ∉ intText v := fun v =>
    ⟨notMem_intText (by decide), notMem_intText (by decide), notMem_intText (by decide)⟩
  -- a zero byte can only be in the tail, and cuts it off there
  have hbuf : cstring ((statText pid comm state ppid tail).take 8191) = (intText pid ++ [32]) ++
      40 :: (comm ++ 41 :: (32 :: state :: 32 :: (intText ppid ++ 32 :: cstring tail))) := by
    have hsplit : statText pid comm state ppid tail = ((intText pid ++ [32]) ++
        40 :: (comm ++ 41 :: (32 :: state :: 32 :: (intText ppid ++ [32])))) ++ tail := by
      simp [statText_eq]
    rw [take_of_length_le hfit, hsplit, cstring_append]
    · simp
    · simp [hcomm, hs0.symm, (hnum pid).1, (hnum ppid).1]
  have htail' : 41 ∉ 32 :: state :: 32 :: (intText ppid ++ 32 :: cstring tail) := by
    have hcut : (41 : UInt8) ∉ cstring tail := fun h => htail (( takeWhile_prefix _).subset h)
    simp [hcut, hs41.symm, (hnum ppid).2.2]
  have hlp : strchr 40 (cstring ((statText pid comm state ppid tail).take 8191)) =
      some (intText pid ++ [32]).length := by
    rw [hbuf]
    exact strchr_append (by simp [(hnum pid).2.1])
  have hrp : strrchr 41 (cstring ((statText pid comm state ppid tail).take 8191)) =
      some (intText pid ++ [32] ++ 40 :: comm).length := by
    rw [hbuf, ← cons_append, ← append_assoc]
    exact strrchr_append htail'
  have hle : ¬(intText pid ++ [32] ++ 40 :: comm).length < (intText pid ++ [32]).length := by
    rw [length_append]
    omega
  have hrest : (cstring ((statText pid comm state ppid tail).take 8191)).drop
      ((intText pid ++ [32] ++ 40 :: comm).length + 1) = 32 :: state :: 32 :: (intText ppid ++ 32 :: cstring tail) := by
    rw [hbuf, ← cons_append, ← append_assoc, drop_length_add_append]
    rfl
  have hname : ((cstring ((statText pid comm state ppid tail).take 8191)).drop ((intText pid ++ [32]).length + 1)).take
      (min ((intText pid ++ [32] ++ 40 :: comm).length - (intText pid ++ [32]).length - 1) 255) = comm := by
    have hmin : min ((intText pid ++ [32] ++ 40 :: comm).length - (intText pid ++ [32]).length - 1) 255 =
        comm.length := by
      simp only [length_append, length_cons, length_nil]
      omega
    rw [hmin, hbuf, drop_length_add_append, drop_succ_cons, drop_zero, take_left]
  simp only [parseStat, hlp, hrp, bind, Option.bind, if_neg hle, hrest, sscanfStat_text hstate hlo hhi, hname]
  rfl

end

/-! ## The table -/

structure Adds (t : ProcTable) (pid : Int) (parsed : Option (List UInt8 × Int)) (t' : ProcTable) (r : Int) :
    Prop where
  earlier : ∀ i < t.nproc, t'.procs i = t.procs i
  rejected : parsed = none → r = -1 ∧ t'.nproc = t.nproc
  added : ∀ name ppid, parsed = some (name, ppid) →
    r = 0 ∧ t'.nproc = t.nproc + 1 ∧ t'.procs t.nproc = ⟨pid, ppid, name⟩

section
variable {t : ProcTable}

theorem Adds.reject (t : ProcTable) (pid : Int) : Adds t pid none t (-1) :=
  ⟨fun _ _ => rfl, fun _ => ⟨rfl, rfl⟩, nofun⟩

theorem readStat_adds (ht : t.nproc < maxProc) (pid : Int) (file : Option (List UInt8)) :
    ∃ t' r, readStat t pid file = .ok (t', r) ∧ Adds t pid (file.bind parseStat) t' r := by
  cases file with
  | none => exact ⟨t, -1, rfl, Adds.reject t pid⟩
  | some content =>
    have hbelow : ∀ x, ∀ i < t.nproc, update t.procs t.nproc x i = t.procs i := fun x i hi =>
      update_of_ne hi.ne ..
    simp only [readStat, bind_some, parseStat]
    by_cases h0 : (content.take 8191).length = 0
    · rw [if_pos h0, length_eq_zero_iff.mp h0]
      exact ⟨t, -1, rfl, Adds.reject t pid⟩
    rw [if_neg h0]
    generalize cstring (content.take 8191) = buf
    cases strchr 40 buf with
    | none => exact ⟨t, -1, rfl, Adds.reject t pid⟩
    | some lp =>
      cases strrchr 41 buf with
      | none => exact ⟨t, -1, rfl, Adds.reject t pid⟩
      | some rp =>
        simp only [bind, Option.bind]
        by_cases hle : rp < lp
        · rw [if_pos hle, if_pos hle]
          exact ⟨t, -1, rfl, Adds.reject t pid⟩
        rw [if_neg hle, if_neg hle, if_neg (Nat.not_le.mpr ht)]
        cases sscanfStat (buf.drop (rp + 1)) with
        | none => exact ⟨_, -1, rfl, hbelow _, fun _ => ⟨rfl, rfl⟩, nofun⟩
        | some x =>
          have hmin : (if rp - lp - 1 ≥ procNameLen then procNameLen - 1 else rp - lp - 1) =
              min (rp - lp - 1) 255 := by
            unfold procNameLen
            split <;> omega
          refine ⟨_, 0, rfl, hbelow _, nofun, fun name ppid h => ?_⟩
          cases h
          refine ⟨rfl, rfl, ?_⟩
          rw [← hmin]
          exact update_self ..

end

/-! ## The results -/

/-- `read_stat` recovers name and parent from every text the kernel can render; on any text it
returns, changes no entry that is there, and adds at most the one it reports. -/
theorem read_stat_exact (t : ProcTable) (ht : t.nproc < maxProc) (pid : Int) :
    (∀ (n : Int) (comm : List UInt8) (state : UInt8) (ppid : Int) (tail : List UInt8),
      0 ∉ comm → comm.length ≤ 255 → isalpha state = true → -2 ^ 31 ≤ ppid → ppid < 2 ^ 31 → 41 ∉ tail →
      (statText n comm state ppid tail).length ≤ 8191 →
      ∃ t', readStat t pid (some (statText n comm state ppid tail)) = .ok (t', 0) ∧ t'.nproc = t.nproc + 1 ∧
        t'.procs t.nproc = ⟨pid, ppid, comm⟩ ∧ ∀ i < t.nproc, t'.procs i = t.procs i) ∧
    ∀ file, ∃ t' r, readStat t pid file = .ok (t', r) ∧ (∀ i < t.nproc, t'.procs i = t.procs i) ∧
      (r = -1 ∧ t'.nproc = t.nproc ∨ r = 0 ∧ t'.nproc = t.nproc + 1) := by
  constructor
  · intro n comm state ppid tail hcomm hlen hstate hlo hhi htail hfit
    obtain ⟨t', r, hread, hadds⟩ := readStat_adds ht pid (some (statText n comm state ppid tail))
    obtain ⟨rfl, hn, hentry⟩ := hadds.added comm ppid (parseStat_text hcomm hlen hstate hlo hhi htail hfit)
    exact ⟨t', hread, hn, hentry, hadds.earlier⟩
  · intro file
    obtain ⟨t', r, hread, hadds⟩ := readStat_adds ht pid file
    refine ⟨t', r, hread, hadds.earlier, ?_⟩
    cases hp : file.bind parseStat with
    | none => exact Or.inl (hadds.rejected hp)
    | some x => exact Or.inr ⟨(hadds.added _ _ hp).1, (hadds.added _ _ hp).2.1⟩

/-- A command that calls itself `) R 1 (`. -/
theorem read_stat_exact_parens : ∃ t', readStat ProcTable.empty 7
    (some (statText 7 (bytes ") R 1 (") 83 (-1) (bytes "7 7 0"))) = .ok (t', 0) ∧
    t'.nproc = 1 ∧ t'.procs 0 = ⟨7, -1, bytes ") R 1 ("⟩ := by
  obtain ⟨t', h, hn, hentry, -⟩ := (read_stat_exact ProcTable.empty (by decide) 7).1 7 (bytes ") R 1 (") 83 (-1)
    (bytes "7 7 0") (by decide) (by decide) (by decide) (by decide) (by decide) (by decide) (by decide +kernel)
  exact ⟨t', h, hn, hentry⟩

def ProcTable.snapshot (t : ProcTable) : List StatEntry := (List.range t.nproc).map t.procs

def entryOf (e : List UInt8 × Option (List UInt8)) : Option StatEntry :=
  if isNumber e.1 = true then (e.2.bind parseStat).map fun x => ⟨atoi e.1, x.2, x.1⟩ else none

theorem Adds.snapshot {t t' : ProcTable} {pid r : Int} {parsed : Option (List UInt8 × Int)}
    (h : Adds t pid parsed t' r) :
    t'.snapshot = t.snapshot ++ (parsed.map fun x => StatEntry.mk pid x.2 x.1).toList := by
  have hsame : (List.range t.nproc).map t'.procs = t.snapshot :=
    map_congr_left fun i hi => h.earlier i (mem_range.mp hi)
  cases parsed with
  | none =>
    rw [ProcTable.snapshot, (h.rejected rfl).2, hsame]
    exact (append_nil _).symm
  | some x =>
    obtain ⟨-, hn, hentry⟩ := h.added x.1 x.2 rfl
    rw [ProcTable.snapshot, hn, range_succ, map_append, hsame, map_singleton, hentry]
    rfl

/-- The scan keeps the processes it can read, in the order of the directory, as far as the table
has room. -/
theorem scanProcs_snapshot : ∀ (es : List (List UInt8 × Option (List UInt8))) (t : ProcTable), t.nproc ≤ maxProc →
    ∃ t', scanProcs t es = .ok t' ∧ t'.snapshot = t.snapshot ++ (es.filterMap entryOf).take (maxProc - t.nproc)
  | [], t, _ => ⟨t, rfl, by simp⟩
  | (name, file) :: es, t, ht => by
    by_cases hc : isNumber name = true ∧ t.nproc < maxProc
    · obtain ⟨t₁, r, hread, hadds⟩ := readStat_adds hc.2 (atoi name) file
      have hentry : entryOf (name, file) = (file.bind parseStat).map fun x => ⟨atoi name, x.2, x.1⟩ := if_pos hc.1
      have hsnap := hadds.snapshot
      have hstep : scanProcs t ((name, file) :: es) = scanProcs t₁ es := by
        rw [scanProcs, if_pos hc, hread]
        rfl
      rw [hstep, filterMap_cons, hentry]
      cases hp : file.bind parseStat with
      | none =>
        have hn := (hadds.rejected hp).2
        obtain ⟨t', hrun, hrest⟩ := scanProcs_snapshot es t₁ (by omega)
        refine ⟨t', hrun, ?_⟩
        rw [hp, map_none, toList_none, append_nil] at hsnap
        rw [hrest, hsnap, hn]
        rfl
      | some x =>
        have hn := (hadds.added x.1 x.2 hp).2.1
        obtain ⟨t', hrun, hrest⟩ := scanProcs_snapshot es t₁ (by omega)
        have hroom : maxProc - t.nproc = (maxProc - t₁.nproc) + 1 := by omega
        refine ⟨t', hrun, ?_⟩
        rw [hp] at hsnap
        rw [hrest, hsnap, hroom, map_some, append_assoc]
        rfl
    · have hstep : scanProcs t ((name, file) :: es) = scanProcs t es := by rw [scanProcs, if_neg hc]
      obtain ⟨t', hrun, hrest⟩ := scanProcs_snapshot es t ht
      refine ⟨t', hstep.trans hrun, ?_⟩
      rw [hrest, filterMap_cons]
      by_cases hnum : isNumber name = true
      · -- the table is full
        have hfull : maxProc - t.nproc = 0 := by
          have : ¬t.nproc < maxProc := fun h => hc ⟨hnum, h⟩
          omega
        rw [hfull, take_zero, take_zero]
      · have hentry : entryOf (name, file) = none := if_neg hnum
        rw [hentry]

end NjuOs
