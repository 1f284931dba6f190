import NjuOs.DirLemmas
import NjuOs.RefSound

/-!
# Offsets, lengths and capacities

Offsets, sizes and capacities are `int`s. In every reachable state they are where they should
be; the next call is defined iff the sum it computes stays in range, and `igrow` can double up
to `2 ^ 30` and no further.
-/

namespace NjuOs

open Option

/-! ## Calls without undefined behaviour -/

/-- The computation returns or panics. -/
def Defined {α : Type} (x : Except Halt α) : Prop := ∀ e, x = .error e → ∃ msg, e = .panic msg

section
variable {α β : Type}

@[simp] theorem defined_ok (a : α) : Defined (.ok a : Except Halt α) := fun _ h => nomatch h

@[simp] theorem defined_pure (a : α) : Defined (pure a : Except Halt α) := defined_ok a

@[simp] theorem defined_panic (msg : String) : Defined (.error (.panic msg) : Except Halt α) := by
  rintro e ⟨⟩
  exact ⟨msg, rfl⟩

@[simp] theorem not_defined_undefined : ¬Defined (.error .undefined : Except Halt α) := by
  intro h
  obtain ⟨msg, h⟩ := h _ rfl
  cases h

theorem defined_bind {x : Except Halt α} {f : α → Except Halt β} :
    Defined (x >>= f) ↔ Defined x ∧ ∀ a, x = .ok a → Defined (f a) := by
  cases x with
  | error e =>
    constructor
    · exact fun h => ⟨fun e' he => h e' (by cases he; rfl), fun a ha => nomatch ha⟩
    · exact fun h e' he => h.1 e' (by cases he; rfl)
  | ok a =>
    constructor
    · exact fun h => ⟨defined_ok a, fun b hb => by cases hb; exact h⟩
    · exact fun h => h.2 a rfl

theorem defined_intOf {x : Int} : Defined (intOf x) ↔ -2 ^ 31 ≤ x ∧ x < 2 ^ 31 := by
  unfold intOf
  split
  · next h => simpa using h
  · next h => simpa using h

theorem defined_slice {d : List UInt8} {off n : Int} :
    Defined (slice d off n) ↔ 0 ≤ off ∧ 0 ≤ n ∧ off + n ≤ d.length := by
  unfold slice
  split
  · next h => simpa using h
  · next h => simpa using h

theorem defined_blit {d src : List UInt8} {off : Int} :
    Defined (blit d off src) ↔ 0 ≤ off ∧ off + src.length ≤ d.length := by
  unfold blit
  split
  · next h => simpa using h
  · next h => simpa using h

theorem defined_advanceOff {v : Vfs} {f : Nat} {r : Int} :
    Defined (advanceOff v f r) ↔ -2 ^ 31 ≤ (v.ftable f).off + r ∧ (v.ftable f).off + r < 2 ^ 31 := by
  unfold advanceOff
  rw [defined_bind, defined_intOf]
  exact and_iff_left fun _ _ => defined_pure _

end

/-! ## Doubling -/

section
variable {ip ip' : Inode} {need : Int}

theorem growCap_least : ∀ (fuel : Nat) {k : Nat} {c : Int}, growCap need fuel (256 * 2 ^ k) = .ok c →
    ∃ j, c = 256 * 2 ^ k * 2 ^ j ∧ ∀ i, need ≤ 256 * 2 ^ k * 2 ^ i → j ≤ i
  | 0, _, _, h => nomatch h
  | fuel + 1, k, c, h => by
    unfold growCap at h
    split at h
    · next hlt =>
      obtain ⟨c', hc', h⟩ := bind_ok h
      obtain ⟨rfl, -⟩ := intOf_ok hc'
      have hdbl : (256 * 2 ^ k * 2 : Int) = 256 * 2 ^ (k + 1) := by rw [pow_succ]; ring
      have hshift : ∀ i : Nat, (256 * 2 ^ (k + 1) * 2 ^ i : Int) = 256 * 2 ^ k * 2 ^ (i + 1) := by
        intro i
        rw [pow_succ, pow_succ]; ring
      rw [hdbl] at h
      obtain ⟨j, rfl, hmin⟩ := growCap_least fuel h
      refine ⟨j + 1, hshift j, fun i hi => ?_⟩
      cases i with
      | zero => rw [pow_zero, mul_one] at hi; omega
      | succ i => exact Nat.succ_le_succ (hmin i (by rw [hshift]; exact hi))
    · cases h
      exact ⟨0, by rw [pow_zero, mul_one], fun i _ => Nat.zero_le i⟩

/-- Above `2 ^ 30` the doubling leaves the `int` range. -/
theorem growCap_over (hn : 2 ^ 30 < need) : ∀ (fuel k : Nat), k ≤ 22 → 22 < k + fuel →
    growCap need fuel (256 * 2 ^ k) = .error .undefined
  | 0, k, hk, hf => by omega
  | fuel + 1, k, hk, hf => by
    have hpow := two_pow_le_of_le hk
    have hpos : (0 : Int) < 2 ^ k := by positivity
    unfold growCap
    rw [if_pos (by omega)]
    by_cases hlast : k = 22
    · subst hlast
      rfl
    · have hk' := two_pow_le_of_le (show k + 1 ≤ 22 by omega)
      have hdbl : (256 * 2 ^ k * 2 : Int) = 256 * 2 ^ (k + 1) := by rw [pow_succ]; ring
      rw [intOf_eq (by omega) (by omega), hdbl]
      exact growCap_over hn fuel (k + 1) (by omega) (by omega)

theorem igrow_over (hb : BufOk ip) (mem : Mem) (hn : 2 ^ 30 < need) : igrow ip mem need = .error .undefined := by
  obtain ⟨k, hk, hstart, -⟩ := hb.start
  have hcap := hb.cap_le
  unfold igrow
  rw [if_neg (by omega), hstart, growCap_over hn 32 k hk (by omega)]
  rfl

theorem defined_igrow (hb : BufOk ip) (hle : ip.size ≤ ip.cap) (h0 : 0 ≤ ip.size) (mem : Mem) :
    Defined (igrow ip mem need) ↔ need ≤ 2 ^ 30 := by
  constructor
  · intro h
    by_contra hn
    rw [igrow_over hb mem (by omega)] at h
    exact not_defined_undefined h
  · intro hn
    cases mem with
    | some junk =>
      obtain ⟨ip', h⟩ := igrow_total hb hle h0 hn junk
      rw [h]
      exact defined_ok ip'
    | none =>
      obtain ⟨k, hk, hstart, -⟩ := hb.start
      obtain ⟨c, hc⟩ := growCap_total hn 32 k hk (by omega)
      unfold igrow
      rw [hstart, hc]
      split
      · exact defined_pure ip
      · exact defined_panic _

/-- `igrow` returns with the first doubling of the capacity (of 256, if there is none) that is at
least `need`, and with the first `size` bytes in place. -/
def GrowsToLeast (ip : Inode) (junk : Nat → UInt8) (need : Int) : Prop :=
  ∃ ip', igrow ip (some junk) need = .ok ip' ∧ need ≤ ip'.cap ∧
    (need ≤ ip.cap → ip'.cap = ip.cap) ∧
    (ip.cap < need → ∃ j : Nat, ip'.cap = (if ip.cap ≠ 0 then ip.cap else 256) * 2 ^ j ∧
      ∀ i : Nat, need ≤ (if ip.cap ≠ 0 then ip.cap else 256) * 2 ^ i → j ≤ i) ∧
    ip'.size = ip.size ∧ ∀ i : Nat, (i : Int) < ip.size → (ip'.data.getD [])[i]? = (ip.data.getD [])[i]?

theorem growsToLeast_iff (hb : BufOk ip) (hle : ip.size ≤ ip.cap) (h0 : 0 ≤ ip.size) (junk : Nat → UInt8) :
    GrowsToLeast ip junk need ↔ need ≤ 2 ^ 30 := by
  constructor
  · rintro ⟨ip', h, -⟩
    refine (defined_igrow hb hle h0 (some junk)).mp ?_
    rw [h]
    exact defined_ok ip'
  · intro hn
    obtain ⟨ip', h⟩ := igrow_total hb hle h0 hn junk
    obtain ⟨-, hneed, -, heq, hkeep⟩ := igrow_ok hb hle h
    refine ⟨ip', h, hneed, fun hc => ?_, fun hc => ?_, by rw [heq], hkeep⟩
    · unfold igrow at h
      rw [if_pos hc] at h
      cases h
      rfl
    · obtain ⟨k, hk, hstart, -⟩ := hb.start
      unfold igrow at h
      rw [if_neg (by omega)] at h
      obtain ⟨c, hgrow, h⟩ := bind_ok h
      have hcap : ip'.cap = c := by
        dsimp only at h
        split at h
        · cases h; rfl
        · obtain ⟨src, -, h⟩ := bind_ok h
          obtain ⟨nd, -, h⟩ := bind_ok h
          cases h; rfl
      rw [hcap, hstart]
      rw [hstart] at hgrow
      exact growCap_least 32 hgrow

end

/-! ## Handlers -/

def Inode.Handled (ip : Inode) : Prop :=
  (ip.type = .dev → ip.devRead ≠ none ∧ ip.devWrite ≠ none) ∧ (ip.type = .proc → ip.procGen ≠ none)

def Vfs.Handled (v : Vfs) : Prop := ∀ i, (v.inodes i).Handled

section
variable {v v' : Vfs} (hv : v.Handled)
include hv

theorem Vfs.Handled.setInode {x : Inode} (i : Nat) (hx : x.Handled) : (v.setInode i x).Handled := by
  intro j
  by_cases hj : j = i
  · subst hj; rw [setInode_self]; exact hx
  · rw [setInode_ne v x hj]; exact hv j

theorem Vfs.Handled.sameMeta (h : SameMeta v v') : v'.Handled := by
  intro i
  obtain ⟨d, c, n, hi⟩ := h.inode i
  rw [hi]
  exact hv i

theorem Vfs.Handled.ialloc {mem : Mem} {type : IType} {ip : Nat} (ht : type = .dir ∨ type = .file)
    (h : ialloc v mem type = .ok (v', ip)) : v'.Handled := by
  obtain ⟨hnew, hold⟩ := ialloc_inodes h
  intro j
  by_cases hj : j = ip
  · rw [hj, hnew]
    rcases ht with rfl | rfl <;> exact ⟨nofun, nofun⟩
  · rw [hold j hj]; exact hv j

theorem Vfs.Handled.filled {mem : Mem} {type : IType} {ip : Nat} {x : Inode}
    (h : NjuOs.ialloc v mem type = .ok (v', ip)) (hx : x.Handled) : (v'.setInode ip x).Handled := by
  intro j
  by_cases hj : j = ip
  · rw [hj, setInode_self]; exact hx
  · rw [setInode_ne v' x hj, (ialloc_inodes h).2 j hj]; exact hv j

theorem Vfs.Handled.dirAdd {dir ip : Nat} {name : List UInt8} (h : dirAdd v dir name ip = .ok v') : v'.Handled := by
  rw [dirAdd_ok h]
  exact hv.setInode dir (hv dir)

theorem DirMove.handled {a : VfsAct} (h : DirMove v a v') : v'.Handled := by
  cases h with
  | same h => exact hv.sameMeta h
  | create h hs =>
    cases h with
    | mk _ _ _ hk h1 h2 => exact ((hv.ialloc hk h1).dirAdd h2).sameMeta hs
  | @link _ ip _ _ _ _ v1 _ _ _ _ h1 h2 =>
    have hv1 := hv.dirAdd h1
    rw [h2]
    exact hv1.setInode ip (hv1 ip)
  | @unlink _ _ dir ip _ _ v1 _ _ _ h1 h2 =>
    have hv1 : v1.Handled := by rw [h1]; exact hv.setInode ip (hv ip)
    rw [h2]
    exact hv1.setInode dir (hv1 dir)

theorem InitStep.handled {mem : Nat → Mem} (h : InitStep mem v v') : v'.Handled := by
  cases h with
  | alloc ht h => exact hv.ialloc ht h
  | dev rd wr h => exact hv.filled h (by simp [Inode.Handled, (ialloc_inodes h).1, freshInode])
  | proc g h => exact hv.filled h (by simp [Inode.Handled, (ialloc_inodes h).1, freshInode])
  | entry _ h => exact hv.dirAdd h
  | @contents i ip data d hi hfresh hg hd =>
    obtain ⟨d', c, rfl⟩ := igrow_meta hg
    exact hv.setInode i ⟨(hv i).1, (hv i).2⟩
  | mount => exact hv

end

theorem handled_init {mem : Nat → Mem} {progs : List (List UInt8 × List UInt8)} {v : Vfs}
    (h : vfsInit mem progs = .ok v) : v.Handled := by
  have h0 : vfsBlank.Handled := fun _ => ⟨nofun, nofun⟩
  exact (vfsInit_inv (P := Vfs.Handled) (fun _ _ hv hs => InitStep.handled hv hs) h0 h).1

/-! ## Generated files fit their buffer -/

theorem length_bytes (s : String) : (bytes s).length = s.length := by
  rw [bytes, List.length_map, String.length_toList]

theorem length_toString_nat {n e : Nat} (he : 0 < e) (hn : n < 10 ^ e) : (toString n).length ≤ e := by
  rw [show toString n = Nat.repr n from rfl, Nat.repr, String.length_ofList]
  exact Nat.toDigits_length 10 n e he hn

theorem length_toString_int {x : Int} {e : Nat} (he : 0 < e) (h : x.natAbs < 10 ^ e) :
    (toString x).length ≤ e + 1 := by
  cases x with
  | ofNat n =>
    have := length_toString_nat he h
    exact Nat.le_succ_of_le this
  | negSucc n =>
    have := length_toString_nat (n := n + 1) he h
    rw [show toString (Int.negSucc n) = "-" ++ toString (n + 1) from rfl, String.length_append]
    have hone : "-".length = 1 := rfl
    omega

theorem i32_natAbs (x : Int) : (i32 x).natAbs < 10 ^ 10 := by
  unfold i32
  omega

/-- `snprintf` does not fill the 512 bytes of `tmp`. -/
theorem length_procText (g : ProcGen) {e : ProcEnv} (h : e.heapEnd < 2 ^ 64) : (g.text e).length < 512 := by
  cases g with
  | meminfo =>
    have hn := length_toString_nat (n := (e.heapEnd - e.heapStart) / 1024) (e := 20) (by decide) (by omega)
    have h1 : "MemTotal: ".length = 10 := by decide
    have h2 : " kB\nPageSize: 4 kB\n".length = 19 := by decide
    rw [ProcGen.text, length_bytes, String.length_append, String.length_append]
    omega
  | uptime =>
    have hn := length_toString_int (by decide) (i32_natAbs (e.uptimeMs / 1000 : Nat))
    have hm := length_toString_int (by decide) (i32_natAbs (e.uptimeMs % 1000 / 10 : Nat))
    have h1 : ".".length = 1 := by decide
    have h2 : "\n".length = 1 := by decide
    have h3 : "0".length = 1 := by decide
    rw [ProcGen.text, length_bytes, String.length_append, String.length_append, String.length_append, twoDigits]
    split
    · rw [String.length_append]
      omega
    · omega
  | self =>
    rw [ProcGen.text, length_bytes]
    decide

/-! ## When a call is defined -/

def VfsCall.Native : VfsCall → Prop
  | .sysRead e _ _ => e.heapEnd < 2 ^ 64
  | _ => True

/-- No sum leaves the range: the new offset of a device, the new offset of a file and the doublings
up to it, the target of a seek. -/
def VfsCall.InRange (v : Vfs) (p : Files) : VfsCall → Prop
  | .sysRead _ fd n => ∀ f i, getfile p fd = some f → (v.ftable f).readable = true → (v.ftable f).ip = some i →
      (v.inodes i).type = .dev → (v.inodes i).devRead = some .zero ∨ (v.inodes i).devRead = some .rand → 0 < n →
        (v.ftable f).off + n < 2 ^ 31
  | .sysWrite _ fd _ n => ∀ f i, getfile p fd = some f → (v.ftable f).writable = true → (v.ftable f).ip = some i →
      ((v.inodes i).type = .dev → 0 < n → (v.ftable f).off + n < 2 ^ 31) ∧
      ((v.inodes i).type = .file → 0 ≤ n → (v.ftable f).off + n ≤ 2 ^ 30)
  | .sysLseek fd off whence => ∀ f base, getfile p fd = some f → seekBase v f whence = .ok (some base) →
      -2 ^ 31 ≤ base + off ∧ base + off < 2 ^ 31
  | _ => True

section
variable {v : Vfs} {hist : Hist} {p : Files} (hv : FileInv v hist) (hh : v.Handled) (hin : HasInodes v p)

include hin in
theorem inodeOf_open {fd : Int} {f : Nat} (hf : getfile p fd = some f) :
    ∃ i, (v.ftable f).ip = some i ∧ inodeOf v f = pure i := by
  obtain ⟨-, hslot⟩ := getfile_some hf
  obtain ⟨i, hi⟩ := ne_none_iff_exists'.mp (hin _ f hslot)
  exact ⟨i, hi, by simp only [inodeOf, hi]; rfl⟩

/-- A device that moved `r` bytes; only a positive `r` moves the offset. -/
theorem defined_moved {α : Type} {w : Vfs} {f : Nat} {r : Int} {g : Vfs → α} {a : α} (h0 : 0 ≤ (w.ftable f).off) :
    Defined (if 0 < r then do return g (← advanceOff w f r) else return a) ↔
      (0 < r → (w.ftable f).off + r < 2 ^ 31) := by
  split
  · next hr =>
    rw [defined_bind, defined_advanceOff]
    constructor
    · exact fun h _ => h.1.2
    · exact fun h => ⟨⟨by omega, h hr⟩, fun _ _ => defined_pure _⟩
  · next hr => exact iff_of_true (defined_pure a) fun h => absurd h hr

theorem defined_copyOut {d : List UInt8} {f : Nat} {n len c : Int} (h0 : 0 ≤ (v.ftable f).off) (hn : 0 ≤ n)
    (hoff : (v.ftable f).off < len) (hlen : len ≤ d.length) (hint : len < 2 ^ 31)
    (hc : c = if n < len - (v.ftable f).off then n else len - (v.ftable f).off) :
    Defined (do
      let out ← slice d (v.ftable f).off c
      return (← advanceOff v f c, c, out)) := by
  have hc : 0 ≤ c ∧ (v.ftable f).off + c ≤ len := by
    rw [hc]
    split <;> omega
  refine defined_bind.mpr ⟨defined_slice.mpr ⟨h0, hc.1, by omega⟩, fun out _ => ?_⟩
  exact defined_bind.mpr ⟨defined_advanceOff.mpr ⟨by omega, by omega⟩, fun _ _ => defined_pure _⟩

include hv hh hin in
theorem defined_vfsRead {e : ProcEnv} {fd n : Int} (he : e.heapEnd < 2 ^ 64) :
    Defined (vfsRead v p e fd n) ↔ (VfsCall.sysRead e fd n).InRange v p := by
  unfold vfsRead
  cases hf : getfile p fd with
  | none => exact iff_of_true (defined_pure _) fun f i h => by rw [hf] at h; cases h
  | some f =>
    obtain ⟨i, hi, hino⟩ := inodeOf_open hin hf
    have hoff := hv.offs f
    have hok := hv.inodes i
    have hcap := hok.buf.cap_le
    have hle := hok.le
    have hlen := hok.buf.length
    -- the condition speaks of this file only
    have hrange : (VfsCall.sysRead e fd n).InRange v p ↔ ((v.ftable f).readable = true → (v.inodes i).type = .dev →
        (v.inodes i).devRead = some .zero ∨ (v.inodes i).devRead = some .rand → 0 < n →
          (v.ftable f).off + n < 2 ^ 31) := by
      constructor
      · exact fun h hr => h f i hf hr hi
      · intro h f' i' hf' hr' hi'
        cases hf.symm.trans hf'
        cases hi.symm.trans hi'
        exact h hr'
    rw [hrange]
    simp only
    by_cases hr : (v.ftable f).readable = false ∨ n < 0
    · rw [if_pos hr]
      refine iff_of_true (defined_pure _) fun h1 _ _ h2 => ?_
      rcases hr with hr | hr
      · rw [h1] at hr; cases hr
      · omega
    rw [if_neg hr, hino, pure_bind]
    rw [not_or] at hr
    have hread : (v.ftable f).readable = true := by simpa using hr.1
    have hn : 0 ≤ n := by omega
    simp only [hread, true_imp_iff]
    cases ht : (v.inodes i).type with
    | dev =>
      obtain ⟨d, hd⟩ := ne_none_iff_exists'.mp ((hh i).1 ht).1
      simp only [hd, true_imp_iff]
      cases d with
      | zero => simpa [DevRead.run] using defined_moved hoff
      | rand => simpa [DevRead.run] using defined_moved (w := { v with rng := (devRandRead n.toNat v.rng).1 }) hoff
      | null => simp [DevRead.run]
      | tty => simp [DevRead.run]
    | proc =>
      obtain ⟨g, hg⟩ := ne_none_iff_exists'.mp ((hh i).2 ht)
      have hlen := length_procText g he
      simp only [hg, reduceCtorEq, false_imp_iff, iff_true]
      split
      · exact defined_pure _
      · next hlt => exact defined_copyOut hoff hn (by omega) (Int.le_refl _) (by omega) rfl
    | file =>
      simp only [reduceCtorEq, false_imp_iff, iff_true]
      split
      · exact defined_pure _
      · next hlt => exact defined_copyOut hoff hn (by omega) (by omega) (by omega) rfl
    | dir => simp

include hv in
theorem defined_writeFile {mem : Mem} {f i : Nat} {buf : Nat → UInt8} {n : Int} (hn : 0 ≤ n) :
    Defined (writeFile v mem f i buf n) ↔ (v.ftable f).off + n ≤ 2 ^ 30 := by
  have hoff := hv.offs f
  have hok := hv.inodes i
  have hsize : 0 ≤ (v.inodes i).size := by rw [hok.size]; exact Int.natCast_nonneg _
  unfold writeFile
  simp only
  rw [defined_bind, defined_intOf]
  constructor
  · rintro ⟨hint, h⟩
    have h := (defined_bind.mp (h _ (intOf_eq hint.1 hint.2))).1
    exact (defined_igrow hok.buf hok.le hsize mem).mp h
  · intro hle
    refine ⟨⟨by omega, by omega⟩, fun need hneed => defined_bind.mpr ?_⟩
    obtain ⟨rfl, -⟩ := intOf_ok hneed
    refine ⟨(defined_igrow hok.buf hok.le hsize mem).mpr hle, fun ip hg => ?_⟩
    obtain ⟨hb, hcap, -⟩ := igrow_ok hok.buf hok.le hg
    have hlen := hb.length
    refine defined_bind.mpr ⟨defined_blit.mpr ⟨hoff, ?_⟩, fun d _ => ?_⟩
    · rw [List.length_map, List.length_range]
      omega
    · exact defined_bind.mpr ⟨defined_advanceOff.mpr ⟨by omega, by omega⟩, fun _ _ => defined_pure _⟩

include hv hh hin in
theorem defined_vfsWrite {mem : Mem} {fd n : Int} {buf : Nat → UInt8} :
    Defined (vfsWrite v p mem fd buf n) ↔ (VfsCall.sysWrite mem fd buf n).InRange v p := by
  unfold vfsWrite
  cases hf : getfile p fd with
  | none => exact iff_of_true (defined_pure _) fun f i h => by rw [hf] at h; cases h
  | some f =>
    obtain ⟨i, hi, hino⟩ := inodeOf_open hin hf
    have hoff := hv.offs f
    have hrange : (VfsCall.sysWrite mem fd buf n).InRange v p ↔ ((v.ftable f).writable = true →
        ((v.inodes i).type = .dev → 0 < n → (v.ftable f).off + n < 2 ^ 31) ∧
        ((v.inodes i).type = .file → 0 ≤ n → (v.ftable f).off + n ≤ 2 ^ 30)) := by
      constructor
      · exact fun h hw => h f i hf hw hi
      · intro h f' i' hf' hw' hi'
        cases hf.symm.trans hf'
        cases hi.symm.trans hi'
        exact h hw'
    rw [hrange]
    simp only
    by_cases hw : (v.ftable f).writable = false ∨ n < 0
    · rw [if_pos hw]
      refine iff_of_true (defined_pure _) fun h1 => ?_
      rcases hw with hw | hw
      · rw [h1] at hw; cases hw
      · exact ⟨fun _ h => by omega, fun _ h => by omega⟩
    rw [if_neg hw, hino, pure_bind]
    rw [not_or] at hw
    have hwrite : (v.ftable f).writable = true := by simpa using hw.1
    have hn : 0 ≤ n := by omega
    simp only [hwrite, true_imp_iff]
    cases ht : (v.inodes i).type with
    | dev =>
      obtain ⟨d, hd⟩ := ne_none_iff_exists'.mp ((hh i).1 ht).2
      simp only [hd, true_imp_iff, reduceCtorEq, false_imp_iff, and_true]
      cases d with
      | zero => simpa [DevWrite.run] using defined_moved hoff
      | tty =>
        simpa [DevWrite.run] using
          defined_moved (w := { v with console := v.console ++ (List.range n.toNat).map buf }) hoff
    | file =>
      simp only [reduceCtorEq, false_imp_iff, true_and, true_imp_iff, hn]
      exact defined_writeFile hv hn
    | proc => simp
    | dir => simp

include hin in
theorem defined_vfsLseek {fd off whence : Int} :
    Defined (vfsLseek v p fd off whence) ↔ (VfsCall.sysLseek fd off whence).InRange v p := by
  unfold vfsLseek
  cases hf : getfile p fd with
  | none => exact iff_of_true (defined_pure _) fun f b h => by rw [hf] at h; cases h
  | some f =>
    obtain ⟨i, hi, hino⟩ := inodeOf_open hin hf
    obtain ⟨o, hbase⟩ : ∃ o, seekBase v f whence = .ok o := by
      unfold seekBase
      split
      · exact ⟨_, rfl⟩
      split
      · exact ⟨_, rfl⟩
      split
      · rw [hino]; exact ⟨_, rfl⟩
      · exact ⟨_, rfl⟩
    have hrange : (VfsCall.sysLseek fd off whence).InRange v p ↔
        ∀ base, o = some base → -2 ^ 31 ≤ base + off ∧ base + off < 2 ^ 31 := by
      constructor
      · intro h base hb
        exact h f base hf (by rw [hbase, hb])
      · intro h f' base hf' hb
        cases hf.symm.trans hf'
        rw [hbase] at hb
        exact h base (Except.ok.inj hb)
    rw [hrange]
    simp only
    rw [hbase]
    cases o with
    | none => exact iff_of_true (defined_pure _) fun b hb => nomatch hb
    | some base =>
      show Defined (intOf (base + off) >>= _) ↔ _
      rw [defined_bind, defined_intOf]
      constructor
      · rintro ⟨h, -⟩ b hb
        cases hb
        exact h
      · refine fun h => ⟨h base rfl, fun np _ => ?_⟩
        split
        · exact defined_pure _
        · exact defined_pure _

theorem defined_ialloc {mem : Mem} {type : IType} : Defined (ialloc v mem type) := by
  unfold ialloc
  split
  · exact defined_panic _
  · exact defined_ok _

theorem defined_dirAdd {dir ip : Nat} {name : List UInt8} : Defined (dirAdd v dir name ip) := by
  unfold dirAdd
  simp only
  split
  · exact defined_panic _
  · exact defined_ok _

theorem defined_openInode {mem : Mem} {path : CStr} {flags : Nat} : Defined (openInode v mem path flags) := by
  unfold openInode
  split
  · exact defined_ok _
  split
  · exact defined_ok _
  split
  · exact defined_ok _
  split
  · exact defined_ok _
  · exact defined_bind.mpr ⟨defined_ialloc, fun _ _ => defined_bind.mpr ⟨defined_dirAdd, fun _ _ => defined_pure _⟩⟩

theorem defined_vfsOpen {mem : Mem} {path : CStr} {flags : Nat} : Defined (vfsOpen v p mem path flags) := by
  refine defined_bind.mpr ⟨defined_openInode, fun r _ => ?_⟩
  obtain ⟨w, o⟩ := r
  cases o with
  | none => exact defined_pure _
  | some ip =>
    simp only
    split
    · exact defined_pure _
    · exact defined_pure _

theorem defined_vfsMkdir {mem : Mem} {path : CStr} : Defined (vfsMkdir v mem path) := by
  unfold vfsMkdir
  split
  · exact defined_ok _
  split
  · exact defined_ok _
  split
  · exact defined_ok _
  · exact defined_bind.mpr ⟨defined_ialloc, fun _ _ => defined_bind.mpr ⟨defined_dirAdd, fun _ _ => defined_pure _⟩⟩

theorem defined_vfsLink {a b : CStr} : Defined (vfsLink v a b) := by
  unfold vfsLink
  split
  · exact defined_ok _
  split
  · exact defined_ok _
  split
  · exact defined_ok _
  · exact defined_bind.mpr ⟨defined_dirAdd, fun _ _ => defined_pure _⟩

include hin in
theorem defined_vfsFstat {fd : Int} {stNull : Bool} : Defined (vfsFstat v p fd stNull) := by
  unfold vfsFstat
  cases hf : getfile p fd with
  | none => exact defined_pure _
  | some f =>
    obtain ⟨i, hi, hino⟩ := inodeOf_open hin hf
    simp only [hino]
    split
    · exact defined_pure _
    · exact defined_pure _

theorem defined_map {α β : Type} {x : Except Halt α} {g : α → β} : Defined (do return g (← x)) ↔ Defined x := by
  rw [defined_bind]
  exact and_iff_left fun _ _ => defined_pure _

include hv hh hin in
theorem defined_vfsCall {c : VfsCall} (hc : c.Native) : Defined (vfsCall v p c) ↔ c.InRange v p := by
  cases c with
  | sysOpen mem path flags => exact iff_of_true defined_vfsOpen trivial
  | sysRead e fd n => exact defined_map.trans (defined_vfsRead hv hh hin hc)
  | sysWrite mem fd buf n => exact defined_map.trans (defined_vfsWrite hv hh hin)
  | sysClose fd => exact iff_of_true (defined_ok _) trivial
  | sysLseek fd off whence => exact defined_map.trans (defined_vfsLseek hin)
  | sysFstat fd stNull => exact iff_of_true (defined_map.mpr (defined_vfsFstat hin)) trivial
  | sysDup fd => exact iff_of_true (defined_ok _) trivial
  | sysMkdir mem path => exact iff_of_true (defined_map.mpr defined_vfsMkdir) trivial
  | sysLink a b => exact iff_of_true (defined_map.mpr defined_vfsLink) trivial
  | sysUnlink path => exact iff_of_true (defined_ok _) trivial
  | sysChdir path => exact iff_of_true (defined_ok _) trivial

end

/-! ## Every reachable state -/

section
variable {mem : Nat → Mem} {progs : List (List UInt8 × List UInt8)} {v : Vfs} {as : List VfsAct} {s : VfsSys}
variable (hinit : vfsInit mem progs = .ok v) (hr : run VfsSys.step (VfsSys.init v) as = some s)
include hinit hr

theorem reach_files : FileInv s.vfs s.hist ∧ s.vfs.Handled ∧ RefInv s :=
  ⟨run_inv (I := fun s => FileInv s.vfs s.hist) (fun _ _ _ => fileInv_step) as _ s (fileInv_init hinit) hr,
    run_inv (I := fun s => s.vfs.Handled) (fun _ _ _ hs h => DirMove.handled hs (step_dirs h)) as _ s
      (handled_init hinit) hr,
    run_inv (fun _ _ _ hs hstep => RefInv.step hs hstep) as _ s (refInv_init hinit) hr⟩

/-- Offsets, sizes and capacities are in order, and the next call is defined iff it stays in range. -/
theorem calls_in_range_iff : (∀ f, 0 ≤ (s.vfs.ftable f).off) ∧
    (∀ i, 0 ≤ (s.vfs.inodes i).size ∧ (s.vfs.inodes i).size ≤ (s.vfs.inodes i).cap ∧
      (((s.vfs.inodes i).data.getD []).length : Int) = (s.vfs.inodes i).cap) ∧
    ∀ p ∈ s.procs, ∀ c : VfsCall, c.Native →
      (Defined (vfsCall s.vfs (s.files p) c) ↔ c.InRange s.vfs (s.files p)) := by
  obtain ⟨hv, hh, href⟩ := reach_files hinit hr
  refine ⟨hv.offs, fun i => ⟨?_, (hv.inodes i).le, (hv.inodes i).buf.length⟩, fun p hp c hc => ?_⟩
  · rw [(hv.inodes i).size]; exact Int.natCast_nonneg _
  · exact defined_vfsCall hv hh (href.hasInodes hp) hc

theorem grow_least_iff (i : Nat) (junk : Nat → UInt8) (need : Int) :
    GrowsToLeast (s.vfs.inodes i) junk need ↔ need ≤ 2 ^ 30 := by
  obtain ⟨hv, -, -⟩ := reach_files hinit hr
  have hok := hv.inodes i
  exact growsToLeast_iff hok.buf hok.le (by rw [hok.size]; exact Int.natCast_nonneg _) junk

end

def seekRun (off : Int) : List VfsAct :=
  [.spawn 1, .call 1 (.sysOpen (some fun _ => 0) ⟨bytes "/tmp/a", []⟩ (oCreate ||| oRdwr)),
    .call 1 (.sysLseek 3 off seekSet)]

theorem calls_in_range_seek : ∃ s, run VfsSys.step (VfsSys.init bootVfs) (seekRun 4) = some s ∧ 1 ∈ s.procs ∧
    (VfsCall.sysWrite (some fun _ => 7) 3 (fun _ => 1) 2).InRange s.vfs (s.files 1) ∧
    Defined (vfsCall s.vfs (s.files 1) (.sysWrite (some fun _ => 7) 3 (fun _ => 1) 2)) := by
  have hs : (run VfsSys.step (VfsSys.init bootVfs) (seekRun 4)).any (fun s => 1 ∈ s.procs ∧
      ∀ f ∈ getfile (s.files 1) 3, (s.vfs.ftable f).off = 4) = true := by decide +kernel
  obtain ⟨s, hs, h⟩ := (any_eq_true _ _).mp hs
  obtain ⟨hp, hoff⟩ := of_decide_eq_true h
  have hin : (VfsCall.sysWrite (some fun _ => 7) 3 (fun _ => 1) 2).InRange s.vfs (s.files 1) := by
    intro f i hf _ _
    rw [hoff f hf]
    exact ⟨fun _ _ => by decide, fun _ _ => by decide⟩
  have hiff := (calls_in_range_iff vfsInit_boot hs).2.2 1 hp (.sysWrite (some fun _ => 7) 3 (fun _ => 1) 2) trivial
  exact ⟨s, hs, hp, hin, hiff.mpr hin⟩

/-- A seek to `INT_MAX` is allowed; the next write of one byte overflows `f->off + n`. -/
theorem write_overflows : ∃ s, run VfsSys.step (VfsSys.init bootVfs) (seekRun (2 ^ 31 - 1)) = some s ∧
    vfsCall s.vfs (s.files 1) (.sysWrite (some fun _ => 7) 3 (fun _ => 1) 1) = .error .undefined := by
  have hs : (run VfsSys.step (VfsSys.init bootVfs) (seekRun (2 ^ 31 - 1))).isSome := by decide +kernel
  have hw : ∀ s ∈ run VfsSys.step (VfsSys.init bootVfs) (seekRun (2 ^ 31 - 1)),
      errorOf (vfsCall s.vfs (s.files 1) (.sysWrite (some fun _ => 7) 3 (fun _ => 1) 1)) = some .undefined := by
    decide +kernel
  obtain ⟨s, hs⟩ := isSome_iff_exists.mp hs
  exact ⟨s, hs, errorOf_some (hw s hs)⟩

theorem grow_least_seek : ∃ s, run VfsSys.step (VfsSys.init bootVfs) (seekRun 4) = some s ∧
    GrowsToLeast (s.vfs.inodes 14) (fun _ => 7) 300 ∧ ¬GrowsToLeast (s.vfs.inodes 14) (fun _ => 7) (2 ^ 30 + 1) := by
  have hs : (run VfsSys.step (VfsSys.init bootVfs) (seekRun 4)).isSome := by decide +kernel
  obtain ⟨s, hs⟩ := isSome_iff_exists.mp hs
  refine ⟨s, hs, (grow_least_iff vfsInit_boot hs 14 _ 300).mpr (by decide), fun h => ?_⟩
  exact absurd ((grow_least_iff vfsInit_boot hs 14 _ _).mp h) (by decide)

/-- One byte at offset `2 ^ 30`: the capacity doubles out of the `int` range. -/
theorem grow_overflows : ∃ s, run VfsSys.step (VfsSys.init bootVfs) (seekRun (2 ^ 30)) = some s ∧
    (s.vfs.inodes 14).type = .file ∧ (s.vfs.ftable 3).ip = some 14 ∧ (s.vfs.ftable 3).off + 1 = 2 ^ 30 + 1 ∧
    igrow (s.vfs.inodes 14) (some fun _ => 7) (2 ^ 30 + 1) = .error .undefined := by
  have hs : (run VfsSys.step (VfsSys.init bootVfs) (seekRun (2 ^ 30))).isSome := by decide +kernel
  have hw : ∀ s ∈ run VfsSys.step (VfsSys.init bootVfs) (seekRun (2 ^ 30)),
      (s.vfs.inodes 14).type = .file ∧ (s.vfs.ftable 3).ip = some 14 ∧
      (s.vfs.ftable 3).off + 1 = 2 ^ 30 + 1 ∧
      errorOf (igrow (s.vfs.inodes 14) (some fun _ => 7) (2 ^ 30 + 1)) = some .undefined := by decide +kernel
  obtain ⟨s, hs⟩ := isSome_iff_exists.mp hs
  obtain ⟨h1, h2, h3, h4⟩ := hw s hs
  exact ⟨s, hs, h1, h2, h3, errorOf_some h4⟩

end NjuOs
