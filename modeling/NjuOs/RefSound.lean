import NjuOs.Bags
import NjuOs.VfsLemmas

/-!
# Reference counts of open files

Every call balances what it does to the counts against what it does to the descriptors
of its process (`Keeps`). Summed over all processes this is an equation between the
counts and the descriptors that point at an entry.
-/

namespace NjuOs

open Function List

def VfsSys.users (s : VfsSys) (f : Nat) : List (Nat × Nat) :=
  (s.procs ×ˢ List.range procNofile).filter fun x => (s.files x.1).ofile x.2 = some f

structure RefsExact (s : VfsSys) : Prop where
  count : ∀ f, (s.vfs.ftable f).ref = (s.users f).length
  slots : ∀ p ∈ s.procs, ∀ fd f, (s.files p).ofile fd = some f →
    fd < procNofile ∧ f < nfile ∧ 1 ≤ (s.vfs.ftable f).ref ∧ (s.vfs.ftable f).ip ≠ none
  unused : ∀ v f, falloc s.vfs = (v, some f) → ∀ p ∈ s.procs, ∀ fd, (s.files p).ofile fd ≠ some f
  failedOpen : ∀ p mem path flags v f, vfsOpen s.vfs (s.files p) mem path flags = .ok (v, f, -1) →
    (∀ i, (v.ftable i).ref = (s.vfs.ftable i).ref) ∧ f = s.files p
  failedDup : ∀ p fd v f, vfsDup s.vfs (s.files p) fd = (v, f, -1) → v = s.vfs ∧ f = s.files p

/-! ## What one process holds -/

def slotOf : Option Nat → Multiset Nat
  | none => 0
  | some f => {f}

def heldBy (p : Files) : Multiset Nat := ∑ fd ∈ Finset.range procNofile, slotOf (p.ofile fd)

def FdsOk (p : Files) : Prop := ∀ fd f, p.ofile fd = some f → fd < procNofile ∧ f < nfile

def TableOk (v : Vfs) : Prop := ∀ i, 0 < (v.ftable i).ref → (v.ftable i).ip ≠ none

structure Keeps (v : Vfs) (p : Files) (v' : Vfs) (p' : Files) : Prop where
  refs : ∀ i, (v'.ftable i).ref + (heldBy p).count i = (v.ftable i).ref + (heldBy p').count i
  table : TableOk v → TableOk v'
  fds : FdsOk p → FdsOk p'

section
variable {v v' v'' : Vfs} {p p' p'' : Files}

theorem Keeps.refl (v : Vfs) (p : Files) : Keeps v p v p := ⟨fun _ => rfl, id, id⟩

theorem Keeps.trans (h : Keeps v p v' p') (h' : Keeps v' p' v'' p'') : Keeps v p v'' p'' where
  refs := by
    intro i
    have h1 := h.refs i
    have h2 := h'.refs i
    omega
  table := fun ht => h'.table (h.table ht)
  fds := fun hf => h'.fds (h.fds hf)

theorem keeps_of_same (hf : ∀ i, (v'.ftable i).ref = (v.ftable i).ref ∧ (v'.ftable i).ip = (v.ftable i).ip)
    (hp : p'.ofile = p.ofile) : Keeps v p v' p' where
  refs := by intro i; rw [(hf i).1]; simp only [heldBy, hp]
  table := by
    intro ht i hi
    rw [(hf i).1] at hi
    rw [(hf i).2]; exact ht i hi
  fds := by
    intro h fd f hfd
    exact h fd f (by rw [← hp]; exact hfd)

theorem heldBy_setFd (p : Files) {fd : Nat} (hfd : fd < procNofile) (x : Option Nat) :
    heldBy (p.setFd fd x) + slotOf (p.ofile fd) = heldBy p + slotOf x :=
  sum_update_add _ (fun _ y => slotOf y) p.ofile (Finset.mem_range.mpr hfd) x

theorem FdsOk.setFd (h : FdsOk p) {fd : Nat} (hfd : fd < procNofile) {x : Option Nat}
    (hx : ∀ f, x = some f → f < nfile) : FdsOk (p.setFd fd x) := by
  intro k f hk
  by_cases he : k = fd
  · subst he
    simp only [Files.setFd, update_self] at hk
    exact ⟨hfd, hx f hk⟩
  · simp only [Files.setFd, update_of_ne he] at hk
    exact h k f hk

/-- One entry changes its count by what one descriptor of the process gains or loses. -/
theorem keeps_slot {f fd : Nat} {x : File} {y : Option Nat} (hfd : fd < procNofile)
    (hy : ∀ g, y = some g → g < nfile)
    (hcount : ∀ i, (if i = f then x.ref else (v.ftable i).ref) + ((slotOf (p.ofile fd)).count i : Int) =
      (v.ftable i).ref + (slotOf y).count i)
    (hip : ((v.ftable f).ref > 0 → (v.ftable f).ip ≠ none) → 0 < x.ref → x.ip ≠ none) :
    Keeps v p (v.setFile f x) (p.setFd fd y) where
  refs := by
    intro i
    have h1 := congrArg (Multiset.count i) (heldBy_setFd p hfd y)
    rw [Multiset.count_add, Multiset.count_add] at h1
    have h2 := hcount i
    by_cases hi : i = f
    · subst hi
      rw [setFile_self]
      simp only [ite_true] at h2
      omega
    · rw [setFile_ne v x hi]
      simp only [hi, ite_false] at h2
      omega
  table := by
    intro ht i hi
    by_cases he : i = f
    · subst he
      rw [setFile_self] at hi ⊢
      exact hip (ht i) hi
    · rw [setFile_ne v x he] at hi ⊢
      exact ht i hi
  fds := fun h => h.setFd hfd hy

/-! ## The table operations -/

theorem keeps_fclose {f fd : Nat} (hfd : fd < procNofile) (hf : p.ofile fd = some f) :
    Keeps v p (fclose v f) (p.setFd fd none) := by
  apply keeps_slot hfd (fun g hg => by cases hg)
  · intro i
    by_cases hi : i = f
    · subst hi; simp [hf, slotOf]
    · simp [hf, slotOf, hi]
  · intro h hpos
    simp only at hpos ⊢
    rw [if_neg (by omega)]
    exact h (by omega)

theorem keeps_install {f fd : Nat} {x : File} (hf : f < nfile) (h0 : (v.ftable f).ref = 0)
    (hfd : fd < procNofile) (hfree : p.ofile fd = none) (hx : x.ref = 1) (hip : x.ip ≠ none) :
    Keeps v p (v.setFile f x) (p.setFd fd (some f)) := by
  apply keeps_slot hfd (fun g hg => by cases hg; exact hf)
  · intro i
    by_cases hi : i = f
    · subst hi; simp [hfree, slotOf, hx, h0]
    · simp [hfree, slotOf, hi]
  · intro _ _; exact hip

theorem keeps_fdup {f fd : Nat} (hf : f < nfile) (hip : (v.ftable f).ip ≠ none) (hfd : fd < procNofile)
    (hfree : p.ofile fd = none) : Keeps v p (fdup v f) (p.setFd fd (some f)) := by
  apply keeps_slot hfd (fun g hg => by cases hg; exact hf)
  · intro i
    by_cases hi : i = f
    · subst hi; simp [hfree, slotOf]
    · simp [hfree, slotOf, hi]
  · intro _ _; exact hip

end

/-! ## Calls that leave counts and descriptors alone -/

def SameRefs (v v' : Vfs) : Prop :=
  ∀ i, (v'.ftable i).ref = (v.ftable i).ref ∧ (v'.ftable i).ip = (v.ftable i).ip

section
variable {v v' v'' : Vfs} {p : Files}

theorem SameRefs.refl (v : Vfs) : SameRefs v v := fun _ => ⟨rfl, rfl⟩

theorem SameRefs.trans (h : SameRefs v v') (h' : SameRefs v' v'') : SameRefs v v'' :=
  fun i => ⟨(h' i).1.trans (h i).1, (h' i).2.trans (h i).2⟩

theorem sameRefs_of_eq (h : v'.ftable = v.ftable) : SameRefs v v' := fun i => by rw [h]; exact ⟨rfl, rfl⟩

theorem sameRefs_off (v : Vfs) (f : Nat) (o : Int) :
    SameRefs v (v.setFile f { v.ftable f with off := o }) := by
  intro i
  by_cases hi : i = f
  · subst hi; rw [setFile_self]; exact ⟨rfl, rfl⟩
  · rw [setFile_ne v _ hi]; exact ⟨rfl, rfl⟩

theorem sameRefs_advanceOff {f : Nat} {r : Int} (h : advanceOff v f r = .ok v') : SameRefs v v' := by
  obtain ⟨o, -, h⟩ := bind_ok h
  cases h
  exact sameRefs_off v f o

theorem sameRefs_ialloc {mem : Mem} {type : IType} {i : Nat} (h : ialloc v mem type = .ok (v', i)) :
    v'.ftable = v.ftable := by
  cases mem with
  | none => cases h
  | some m => cases h; rfl

theorem sameRefs_dirAdd {dir ip : Nat} {name : List UInt8} (h : dirAdd v dir name ip = .ok v') :
    v'.ftable = v.ftable := by
  unfold dirAdd at h
  simp only at h
  split at h
  · cases h
  · cases h; rfl

theorem sameRefs_openInode {mem : Mem} {path : CStr} {flags : Nat} {r : Option Nat}
    (h : openInode v mem path flags = .ok (v', r)) : v'.ftable = v.ftable := by
  unfold openInode at h
  split at h
  · cases h; rfl
  split at h
  · cases h; rfl
  split at h
  · cases h; rfl
  split at h
  · cases h; rfl
  obtain ⟨⟨v1, ip⟩, h1, h⟩ := bind_ok h
  obtain ⟨v2, h2, h⟩ := bind_ok h
  cases h
  rw [sameRefs_dirAdd h2, sameRefs_ialloc h1]

theorem sameRefs_vfsRead {e : ProcEnv} {fd n r : Int} {out : List UInt8}
    (h : vfsRead v p e fd n = .ok (v', r, out)) : SameRefs v v' := by
  unfold vfsRead at h
  split at h
  · cases h; exact .refl v
  split at h
  · cases h; exact .refl v
  obtain ⟨i, -, h⟩ := bind_ok h
  simp only at h
  split at h
  · split at h
    · cases h
    split at h
    · obtain ⟨v1, h1, h⟩ := bind_ok h
      cases h
      have h2 := sameRefs_advanceOff h1
      exact fun i => h2 i
    · cases h; exact sameRefs_of_eq rfl
  · split at h
    · cases h
    split at h
    · cases h; exact .refl v
    obtain ⟨o, -, h⟩ := bind_ok h
    obtain ⟨v1, h1, h⟩ := bind_ok h
    cases h
    exact sameRefs_advanceOff h1
  · split at h
    · cases h; exact .refl v
    obtain ⟨o, -, h⟩ := bind_ok h
    obtain ⟨v1, h1, h⟩ := bind_ok h
    cases h
    exact sameRefs_advanceOff h1
  · cases h; exact .refl v

theorem sameRefs_vfsWrite {mem : Mem} {fd n r : Int} {buf : Nat → UInt8}
    (h : vfsWrite v p mem fd buf n = .ok (v', r)) : SameRefs v v' := by
  unfold vfsWrite at h
  split at h
  · cases h; exact .refl v
  split at h
  · cases h; exact .refl v
  obtain ⟨i, -, h⟩ := bind_ok h
  simp only at h
  split at h
  · split at h
    · cases h
    split at h
    · obtain ⟨v1, h1, h⟩ := bind_ok h
      cases h
      have h2 := sameRefs_advanceOff h1
      exact fun i => h2 i
    · cases h; exact sameRefs_of_eq rfl
  · unfold writeFile at h
    obtain ⟨o, -, h⟩ := bind_ok h
    obtain ⟨ip, -, h⟩ := bind_ok h
    obtain ⟨d, -, h⟩ := bind_ok h
    obtain ⟨v1, h1, h⟩ := bind_ok h
    cases h
    exact (sameRefs_advanceOff h1).trans (sameRefs_of_eq rfl)
  · cases h; exact .refl v

theorem sameRefs_vfsLseek {fd off whence r : Int} (h : vfsLseek v p fd off whence = .ok (v', r)) :
    SameRefs v v' := by
  unfold vfsLseek at h
  split at h
  · cases h; exact .refl v
  obtain ⟨b, -, h⟩ := bind_ok h
  split at h
  · cases h; exact .refl v
  obtain ⟨np, -, h⟩ := bind_ok h
  split at h
  · cases h; exact .refl v
  · cases h; exact sameRefs_off v _ _

theorem sameRefs_vfsMkdir {mem : Mem} {path : CStr} {r : Int} (h : vfsMkdir v mem path = .ok (v', r)) :
    SameRefs v v' := by
  unfold vfsMkdir at h
  split at h
  · cases h; exact .refl v
  split at h
  · cases h; exact .refl v
  split at h
  · cases h; exact .refl v
  obtain ⟨⟨v1, ip⟩, h1, h⟩ := bind_ok h
  obtain ⟨v2, h2, h⟩ := bind_ok h
  cases h
  exact sameRefs_of_eq (by rw [sameRefs_dirAdd h2, sameRefs_ialloc h1])

theorem sameRefs_vfsLink {a b : CStr} {r : Int} (h : vfsLink v a b = .ok (v', r)) : SameRefs v v' := by
  unfold vfsLink at h
  split at h
  · cases h; exact .refl v
  split at h
  · cases h; exact .refl v
  split at h
  · cases h; exact .refl v
  obtain ⟨v1, h1, h⟩ := bind_ok h
  cases h
  have h2 := sameRefs_dirAdd h1
  exact sameRefs_of_eq h2

theorem sameRefs_vfsUnlink (v : Vfs) (path : CStr) : SameRefs v (vfsUnlink v path).1 := by
  unfold vfsUnlink
  split
  · exact .refl v
  split
  · exact .refl v
  split
  · exact .refl v
  · exact sameRefs_of_eq rfl

end

/-! ## Every call keeps the balance -/

section
variable {v v' : Vfs} {p p' : Files}

theorem keeps_release {f : Nat} {x : File} (h0 : (v.ftable f).ref = 0) (hx : x.ref = 0) :
    (∀ i, ((v.setFile f x).ftable i).ref = (v.ftable i).ref) ∧ Keeps v p (v.setFile f x) p := by
  have href : ∀ i, ((v.setFile f x).ftable i).ref = (v.ftable i).ref := by
    intro i
    by_cases hi : i = f
    · subst hi; rw [setFile_self, hx, h0]
    · rw [setFile_ne v x hi]
  refine ⟨href, fun i => by rw [href i], fun ht i hi => ?_, id⟩
  by_cases he : i = f
  · subst he
    rw [setFile_self, hx] at hi
    cases hi
  · rw [setFile_ne v x he] at hi ⊢
    exact ht i hi

theorem keeps_openFile {ip flags : Nat} {r : Int} (h : openFile v p ip flags = (v', p', r)) :
    Keeps v p v' p' ∧ (r = -1 → (∀ i, (v'.ftable i).ref = (v.ftable i).ref) ∧ p' = p) := by
  unfold openFile at h
  split at h
  · rename_i v1 h1
    cases h
    rw [falloc_none h1]; exact ⟨.refl v p, fun _ => ⟨fun _ => rfl, rfl⟩⟩
  · rename_i v1 f h1
    obtain ⟨hf, h0, rfl⟩ := falloc_some h1
    simp only [setFile_self, setFile_setFile] at h
    split at h
    · rename_i p1 h2
      cases h
      rw [fdalloc_none h2]
      obtain ⟨href, hk⟩ := keeps_release (p := p)
        (x := ⟨some ip, 0, decide (flags &&& 3 = 0 ∨ flags &&& 3 = oRdwr),
          decide (flags &&& 3 = oWronly ∨ flags &&& 3 = oRdwr), 0⟩) h0 rfl
      exact ⟨hk, fun _ => ⟨href, rfl⟩⟩
    · rename_i p1 fd h2
      cases h
      obtain ⟨hfd, hfree, rfl⟩ := fdalloc_some h2
      exact ⟨keeps_install hf h0 hfd hfree rfl (by simp), fun hr => by omega⟩

theorem keeps_vfsOpen {mem : Mem} {path : CStr} {flags : Nat} {r : Int}
    (h : vfsOpen v p mem path flags = .ok (v', p', r)) :
    Keeps v p v' p' ∧ (r = -1 → (∀ i, (v'.ftable i).ref = (v.ftable i).ref) ∧ p' = p) := by
  obtain ⟨⟨v1, o⟩, h1, h⟩ := bind_ok h
  have hsame : SameRefs v v1 := sameRefs_of_eq (sameRefs_openInode h1)
  have hfail : Keeps v p v1 p ∧ ((-1 : Int) = -1 → (∀ i, (v1.ftable i).ref = (v.ftable i).ref) ∧ p = p) :=
    ⟨keeps_of_same hsame rfl, fun _ => ⟨fun i => (hsame i).1, rfl⟩⟩
  cases o with
  | none => cases h; exact hfail
  | some ip =>
    simp only at h
    split at h
    · cases h; exact hfail
    · have hopen := pure_eq_ok.mp h
      have htr : (truncInode v1 ip flags).ftable = v1.ftable := by
        unfold truncInode; split <;> rfl
      have hs : SameRefs v (truncInode v1 ip flags) := hsame.trans (sameRefs_of_eq htr)
      obtain ⟨hk, hr⟩ := keeps_openFile hopen
      exact ⟨(keeps_of_same hs rfl).trans hk, fun he => ⟨fun i => ((hr he).1 i).trans (hs i).1, (hr he).2⟩⟩

theorem keeps_vfsClose (v : Vfs) (p : Files) (fd : Int) :
    Keeps v p (vfsClose v p fd).1 (vfsClose v p fd).2.1 := by
  unfold vfsClose
  split
  · exact .refl v p
  · rename_i f hf
    obtain ⟨hfd, hslot⟩ := getfile_some hf
    exact keeps_fclose hfd hslot

def HasInodes (v : Vfs) (p : Files) : Prop := ∀ fd f, p.ofile fd = some f → (v.ftable f).ip ≠ none

theorem keeps_vfsDup (hin : HasInodes v p) (hok : FdsOk p) (fd : Int) :
    Keeps v p (vfsDup v p fd).1 (vfsDup v p fd).2.1 := by
  unfold vfsDup
  split
  · exact .refl v p
  · rename_i f hf
    obtain ⟨hfd, hslot⟩ := getfile_some hf
    split
    · rename_i p1 h1
      rw [fdalloc_none h1]; exact .refl v p
    · rename_i p1 nfd h1
      obtain ⟨hnfd, hfree, rfl⟩ := fdalloc_some h1
      exact keeps_fdup (hok _ _ hslot).2 (hin _ _ hslot) hnfd hfree

theorem failed_vfsDup {fd : Int} (h : vfsDup v p fd = (v', p', -1)) : v' = v ∧ p' = p := by
  unfold vfsDup at h
  split at h
  · cases h; exact ⟨rfl, rfl⟩
  split at h
  · rename_i p1 h1
    cases h
    exact ⟨rfl, fdalloc_none h1⟩
  · rename_i p1 nfd h1
    simp only [Prod.mk.injEq] at h
    omega

theorem keeps_vfsCall {c : VfsCall} {r : Int} (hin : HasInodes v p) (hok : FdsOk p)
    (h : vfsCall v p c = .ok (v', p', r)) : Keeps v p v' p' := by
  cases c with
  | sysOpen mem path flags => exact (keeps_vfsOpen h).1
  | sysRead e fd n =>
    obtain ⟨⟨v1, r1, out⟩, h1, h⟩ := bind_ok h
    cases h
    exact keeps_of_same (sameRefs_vfsRead h1) rfl
  | sysWrite mem fd buf n =>
    obtain ⟨⟨v1, r1⟩, h1, h⟩ := bind_ok h
    cases h
    exact keeps_of_same (sameRefs_vfsWrite h1) rfl
  | sysClose fd =>
    have := keeps_vfsClose v p fd
    rw [show vfsClose v p fd = (v', p', r) from Except.ok.inj h] at this
    exact this
  | sysLseek fd off whence =>
    obtain ⟨⟨v1, r1⟩, h1, h⟩ := bind_ok h
    cases h
    exact keeps_of_same (sameRefs_vfsLseek h1) rfl
  | sysFstat fd stNull =>
    obtain ⟨⟨r1, st⟩, h1, h⟩ := bind_ok h
    cases h
    exact .refl v p
  | sysDup fd =>
    have := keeps_vfsDup hin hok fd
    rw [show vfsDup v p fd = (v', p', r) from Except.ok.inj h] at this
    exact this
  | sysMkdir mem path =>
    obtain ⟨⟨v1, r1⟩, h1, h⟩ := bind_ok h
    cases h
    exact keeps_of_same (sameRefs_vfsMkdir h1) rfl
  | sysLink a b =>
    obtain ⟨⟨v1, r1⟩, h1, h⟩ := bind_ok h
    cases h
    exact keeps_of_same (sameRefs_vfsLink h1) rfl
  | sysUnlink path =>
    cases h
    exact keeps_of_same (sameRefs_vfsUnlink v path) rfl
  | sysChdir path =>
    obtain ⟨rfl, h2⟩ := Prod.mk.inj (Except.ok.inj h)
    apply keeps_of_same (SameRefs.refl v)
    rw [show p' = (vfsChdir v p path).1 by rw [h2]]
    unfold vfsChdir
    split
    · rfl
    · split <;> rfl

/-! ## The process hooks -/

theorem closeFds_keeps : ∀ (fds : List Nat) (v : Vfs) (p : Files), (∀ fd ∈ fds, fd < procNofile) →
    Keeps v p (closeFds fds v p).1 (closeFds fds v p).2
  | [], v, p, _ => .refl v p
  | fd :: fds, v, p, hlt => by
    have hlt' : ∀ k ∈ fds, k < procNofile := fun k hk => hlt k (by simp [hk])
    unfold closeFds
    split
    · exact closeFds_keeps fds v p hlt'
    · rename_i f hf
      exact (keeps_fclose (hlt fd (by simp)) hf).trans (closeFds_keeps fds _ _ hlt')

theorem closeFds_none : ∀ (fds : List Nat) (v : Vfs) (p : Files) (k : Nat),
    k ∈ fds ∨ p.ofile k = none → (closeFds fds v p).2.ofile k = none
  | [], v, p, k, h => by
    rcases h with h | h
    · cases h
    · exact h
  | fd :: fds, v, p, k, h => by
    unfold closeFds
    split
    · rename_i hf
      apply closeFds_none fds
      rcases h with h | h
      · rcases mem_cons.mp h with rfl | h
        · exact Or.inr hf
        · exact Or.inl h
      · exact Or.inr h
    · apply closeFds_none fds
      by_cases hk : k = fd
      · subst hk; exact Or.inr (update_self ..)
      · rcases h with h | h
        · exact Or.inl ((mem_cons.mp h).resolve_left hk)
        · exact Or.inr (by simp only [Files.setFd, update_of_ne hk]; exact h)

theorem stdioFds_keeps (tty : Nat) : ∀ (fds : List Nat) (v : Vfs) (p : Files), fds.Nodup →
    (∀ fd ∈ fds, fd < procNofile ∧ p.ofile fd = none) →
    Keeps v p (stdioFds tty fds v p).1 (stdioFds tty fds v p).2
  | [], v, p, _, _ => .refl v p
  | fd :: fds, v, p, hnd, h => by
    unfold stdioFds
    split
    · rename_i v1 h1
      rw [falloc_none h1]; exact .refl v p
    · rename_i v1 f h1
      obtain ⟨hf, h0, rfl⟩ := falloc_some h1
      obtain ⟨hfd, hfree⟩ := h fd (by simp)
      rw [setFile_self, setFile_setFile]
      refine (keeps_install hf h0 hfd hfree rfl (by simp)).trans
        (stdioFds_keeps tty fds _ _ (nodup_cons.mp hnd).2 ?_)
      intro k hk
      have hne : k ≠ fd := fun he => (nodup_cons.mp hnd).1 (he ▸ hk)
      refine ⟨(h k (by simp [hk])).1, ?_⟩
      simp only [Files.setFd, update_of_ne hne]
      exact (h k (by simp [hk])).2

theorem keeps_vfsSetupStdio (v : Vfs) :
    Keeps v freshFiles (vfsSetupStdio v freshFiles).1 (vfsSetupStdio v freshFiles).2 := by
  unfold vfsSetupStdio
  split
  · exact .refl v _
  · apply stdioFds_keeps
    · decide
    · intro fd hfd
      have hlt : ∀ k ∈ [0, 1, 2], k < procNofile := by decide
      exact ⟨hlt fd hfd, rfl⟩

theorem forkRefs_spec (parent : Files) : ∀ (fds : List Nat) (v : Vfs) (i : Nat),
    ((forkRefs parent fds v).ftable i).ip = (v.ftable i).ip ∧
    ((forkRefs parent fds v).ftable i).ref =
      (v.ftable i).ref + ((bag (fun fd => slotOf (parent.ofile fd)) fds).count i : Int)
  | [], v, i => by simp [forkRefs]
  | fd :: fds, v, i => by
    unfold forkRefs
    split
    · rename_i hf
      have := forkRefs_spec parent fds v i
      simpa [hf, slotOf] using this
    · rename_i f hf
      obtain ⟨h1, h2⟩ := forkRefs_spec parent fds (fdup v f) i
      rw [h1, h2, bag_cons, hf, Multiset.count_add]
      by_cases hi : i = f
      · subst hi
        simp only [fdup, setFile_self, slotOf, Multiset.count_singleton_self, true_and]
        omega
      · simp only [fdup, setFile_ne v _ hi, slotOf, Multiset.count_singleton, hi, ite_false, true_and]
        omega

theorem keeps_vfsFork (hin : HasInodes v p) (hok : FdsOk p) :
    Keeps v freshFiles (vfsFork v p freshFiles).1 (vfsFork v p freshFiles).2 := by
  have hspec := forkRefs_spec p (List.range procNofile) v
  have hofile : ∀ fd, (vfsFork v p freshFiles).2.ofile fd = p.ofile fd := by
    intro fd
    show (if fd < procNofile then p.ofile fd else none) = p.ofile fd
    split
    · rfl
    · cases hp : p.ofile fd with
      | none => rfl
      | some f => exact absurd (hok fd f hp).1 ‹_›
  have hheld : heldBy (vfsFork v p freshFiles).2 = heldBy p := by
    simp only [heldBy, hofile]
  have hfresh : heldBy freshFiles = 0 := by simp [heldBy, freshFiles, slotOf]
  refine ⟨fun i => ?_, fun ht i hi => ?_, fun _ fd f hf => hok fd f (by rwa [hofile] at hf)⟩
  · rw [hheld, hfresh, Multiset.count_zero]
    show ((forkRefs p (List.range procNofile) v).ftable i).ref + _ = _
    rw [(hspec i).2, bag_range]
    simp [heldBy]
  · show ((forkRefs p (List.range procNofile) v).ftable i).ip ≠ none
    rw [(hspec i).1]
    have hi' : 0 < ((forkRefs p (List.range procNofile) v).ftable i).ref := hi
    rw [(hspec i).2, bag_range] at hi'
    by_cases hm : i ∈ heldBy p
    · obtain ⟨fd, -, hfd⟩ := Multiset.mem_sum.mp hm
      cases hp : p.ofile fd with
      | none => simp [hp, slotOf] at hfd
      | some f =>
        rw [hp, slotOf, Multiset.mem_singleton] at hfd
        subst hfd
        exact hin fd i hp
    · apply ht i
      have := Multiset.count_eq_zero_of_notMem hm
      simp only [heldBy] at this
      rw [this] at hi'
      omega

end

/-! ## All processes together -/

def VfsSys.held (s : VfsSys) : Multiset Nat := bag (fun p => heldBy (s.files p)) s.procs

structure RefInv (s : VfsSys) : Prop where
  nodup : s.procs.Nodup
  refs : ∀ i, (s.vfs.ftable i).ref = s.held.count i
  table : TableOk s.vfs
  fds : ∀ p ∈ s.procs, FdsOk (s.files p)
  closed : ∀ p ∈ s.procs, s.closed p = true → heldBy (s.files p) = 0

theorem heldBy_fresh : heldBy freshFiles = 0 := by simp [heldBy, freshFiles, slotOf]

theorem fdsOk_fresh : FdsOk freshFiles := fun _ _ h => nomatch h

section
variable {s : VfsSys} (hs : RefInv s)
include hs

theorem RefInv.hasInodes {p : Nat} (hp : p ∈ s.procs) : HasInodes s.vfs (s.files p) := by
  intro fd f hf
  apply hs.table f
  rw [hs.refs f]
  have h1 : f ∈ heldBy (s.files p) :=
    Multiset.mem_sum.mpr ⟨fd, Finset.mem_range.mpr (hs.fds p hp fd f hf).1, by simp [hf, slotOf]⟩
  have h2 : f ∈ s.held := (mem_bag _).mpr ⟨p, hp, h1⟩
  exact_mod_cast Multiset.count_pos.mpr h2

theorem RefInv.update {p : Nat} {v : Vfs} {f : Files} {c : Bool} (hist : Hist) (hp : p ∈ s.procs)
    (hk : Keeps s.vfs (s.files p) v f) (hc : c = true → heldBy f = 0) :
    RefInv { s.set p v f c with hist := hist } := by
  refine ⟨hs.nodup, fun i => ?_, hk.table hs.table, fun q hq => ?_, fun q hq hcl => ?_⟩
  · have h1 := congrArg (Multiset.count i) (bag_update heldBy s.files hs.nodup hp f)
    rw [Multiset.count_add, Multiset.count_add] at h1
    have h2 := hk.refs i
    have h3 := hs.refs i
    simp only [VfsSys.held] at h3
    show (v.ftable i).ref = (bag (fun q => heldBy (Function.update s.files p f q)) s.procs).count i
    omega
  · by_cases he : q = p
    · subst he
      simp only [VfsSys.set, update_self]
      exact hk.fds (hs.fds q hp)
    · simp only [VfsSys.set, update_of_ne he]
      exact hs.fds q hq
  · by_cases he : q = p
    · subst he
      simp only [VfsSys.set, update_self] at hcl ⊢
      exact hc hcl
    · simp only [VfsSys.set, update_of_ne he] at hcl ⊢
      exact hs.closed q hq hcl

theorem RefInv.add {p : Nat} {v : Vfs} {f : Files} (hp : p ∉ s.procs) (hk : Keeps s.vfs freshFiles v f) :
    RefInv { s.set p v f false with procs := p :: s.procs } := by
  refine ⟨nodup_cons.mpr ⟨hp, hs.nodup⟩, fun i => ?_, hk.table hs.table, fun q hq => ?_,
    fun q hq hcl => ?_⟩
  · have h2 := hk.refs i
    have h3 := hs.refs i
    rw [heldBy_fresh, Multiset.count_zero] at h2
    simp only [VfsSys.held] at h3
    show (v.ftable i).ref = (bag (fun q => heldBy (Function.update s.files p f q)) (p :: s.procs)).count i
    rw [bag_cons, update_self, bag_update_notMem heldBy s.files hp, Multiset.count_add]
    omega
  · by_cases he : q = p
    · subst he
      simp only [VfsSys.set, update_self]
      exact hk.fds fdsOk_fresh
    · simp only [VfsSys.set, update_of_ne he]
      exact hs.fds q ((mem_cons.mp hq).resolve_left he)
  · by_cases he : q = p
    · subst he
      simp only [VfsSys.set, update_self] at hcl
      cases hcl
    · simp only [VfsSys.set, update_of_ne he] at hcl ⊢
      exact hs.closed q ((mem_cons.mp hq).resolve_left he) hcl

theorem RefInv.discard {p : Nat} (hp : p ∈ s.procs) (hc : s.closed p = true) :
    RefInv { s with procs := s.procs.erase p } := by
  refine ⟨hs.nodup.erase p, fun i => ?_, hs.table, fun q hq => hs.fds q (mem_of_mem_erase hq),
    fun q hq => hs.closed q (mem_of_mem_erase hq)⟩
  have h1 := hs.refs i
  rw [VfsSys.held, bag_erase _ hp, hs.closed p hp hc, zero_add] at h1
  exact h1

theorem RefInv.step {s' : VfsSys} {a : VfsAct} (h : s.step a = some s') : RefInv s' := by
  cases s.move h with
  | @call p _ _ _ _ hp hc =>
    exact hs.update _ hp (keeps_vfsCall (hs.hasInodes hp) (hs.fds p hp) hc) (fun hc => nomatch hc)
  | spawn hp => exact hs.add hp (keeps_vfsSetupStdio s.vfs)
  | @fork p _ hp hc => exact hs.add hc (keeps_vfsFork (hs.hasInodes hp) (hs.fds p hp))
  | @closeAll p hp =>
    refine hs.update s.hist hp (closeFds_keeps _ _ _ fun fd hfd => mem_range.mp hfd) fun _ => ?_
    apply Finset.sum_eq_zero
    intro fd hfd
    have := closeFds_none (List.range procNofile) s.vfs (s.files p) fd
      (Or.inl (mem_range.mpr (Finset.mem_range.mp hfd)))
    rw [vfsCloseAll, this]
    rfl
  | discard hp hc => exact hs.discard hp hc

end

/-! ## From the initial state -/

theorem ftable_initStep {mem : Nat → Mem} {v v' : Vfs} (h : InitStep mem v v') : v'.ftable = v.ftable := by
  cases h with
  | alloc _ h => exact sameRefs_ialloc h
  | dev _ _ h => exact (sameRefs_ialloc h :)
  | proc _ h => exact (sameRefs_ialloc h :)
  | entry _ h => exact sameRefs_dirAdd h
  | contents => rfl
  | mount => rfl

theorem refInv_init {mem : Nat → Mem} {progs : List (List UInt8 × List UInt8)} {v : Vfs}
    (h : vfsInit mem progs = .ok v) : RefInv (VfsSys.init v) := by
  have hft : v.ftable = vfsBlank.ftable :=
    (vfsInit_inv (P := fun v => v.ftable = vfsBlank.ftable)
      (fun v v' hp hstep => (ftable_initStep hstep).trans hp) rfl h).1
  have href : ∀ i, (v.ftable i).ref = 0 := fun i => by rw [hft]; rfl
  refine ⟨nodup_nil, fun i => ?_, fun i hi => ?_, (fun _ hp => nomatch hp), (fun _ hp => nomatch hp)⟩
  · show (v.ftable i).ref = _
    rw [href]; rfl
  · have hi : 0 < (v.ftable i).ref := hi
    rw [href] at hi
    cases hi

theorem count_slots (g : Nat → Option Nat) (f : Nat) (l : List Nat) :
    (bag (fun fd => slotOf (g fd)) l).count f = l.countP fun fd => g fd = some f := by
  induction l with
  | nil => rfl
  | cons fd l ih =>
    rw [bag_cons, Multiset.count_add, ih, countP_cons]
    cases hg : g fd with
    | none => simp [slotOf]
    | some x =>
      by_cases hx : x = f
      · subst hx; simp [slotOf]; omega
      · simp [slotOf, hx, Ne.symm hx]

theorem count_held (s : VfsSys) (f : Nat) : s.held.count f = (s.users f).length := by
  rw [VfsSys.held, VfsSys.users, ← countP_eq_length_filter]
  induction s.procs with
  | nil => rfl
  | cons p ps ih =>
    rw [bag_cons, Multiset.count_add, ih, product_cons, countP_append, countP_map, heldBy,
      ← bag_range, count_slots]
    rfl

theorem RefInv.exact {s : VfsSys} (hs : RefInv s) : RefsExact s where
  count := fun f => by rw [hs.refs f, count_held]
  slots := by
    intro p hp fd f hf
    obtain ⟨h1, h2⟩ := hs.fds p hp fd f hf
    refine ⟨h1, h2, ?_, hs.hasInodes hp fd f hf⟩
    rw [hs.refs f]
    have hm : f ∈ heldBy (s.files p) :=
      Multiset.mem_sum.mpr ⟨fd, Finset.mem_range.mpr h1, by simp [hf, slotOf]⟩
    exact_mod_cast Multiset.one_le_count_iff_mem.mpr ((mem_bag _).mpr ⟨p, hp, hm⟩)
  unused := by
    intro v f h p hp fd hf
    obtain ⟨-, h0, -⟩ := falloc_some h
    have hm : f ∈ heldBy (s.files p) :=
      Multiset.mem_sum.mpr ⟨fd, Finset.mem_range.mpr (hs.fds p hp fd f hf).1, by simp [hf, slotOf]⟩
    have hh : f ∈ s.held := (mem_bag _).mpr ⟨p, hp, hm⟩
    have h1 := Multiset.count_pos.mpr hh
    have h2 := hs.refs f
    omega
  failedOpen := fun p mem path flags v f h => (keeps_vfsOpen h).2 rfl
  failedDup := fun p fd v f h => failed_vfsDup h

theorem refs_exact (mem : Nat → Mem) (progs : List (List UInt8 × List UInt8)) (v : Vfs)
    (h : vfsInit mem progs = .ok v) (as : List VfsAct) (s : VfsSys)
    (hrun : run VfsSys.step (VfsSys.init v) as = some s) : RefsExact s :=
  (run_inv (fun _ _ _ hs hstep => RefInv.step hs hstep) as _ s (refInv_init h) hrun).exact

def shellRun : List VfsAct :=
  [.spawn 1, .call 1 (.sysOpen (some fun _ => 0) ⟨bytes "/tmp/a", []⟩ (oCreate ||| oRdwr)), .fork 1 2,
    .call 2 (.sysDup 3), .closeAll 2, .discard 2, .call 1 (.sysClose 0)]

theorem refs_exact_shell : ∃ s, run VfsSys.step (VfsSys.init bootVfs) shellRun = some s ∧ RefsExact s := by
  have hs : (run VfsSys.step (VfsSys.init bootVfs) shellRun).isSome := by decide +kernel
  obtain ⟨s, hs⟩ := Option.isSome_iff_exists.mp hs
  exact ⟨s, hs, refs_exact bootMem [] bootVfs vfsInit_boot shellRun s hs⟩

end NjuOs
