import Mathlib.Data.Multiset.AddSub
import NjuOs.PathSound
import NjuOs.LinkSound
import NjuOs.UserSound

/-!
# Working directories

`vfs_chdir` stores its path in `cwd`, which nothing reads: `resolve_mount` steps over the first
byte of a path that no mount point matches and starts at the root. So a relative path is walked
from the root without its first byte, and an empty one goes on behind its terminator. A path that
is longer by that byte ends in another directory, as directories form a tree; what is left to a
relative path is to fail in the way of the absolute one.
-/

namespace NjuOs

open Function List

/-! ## Where a process is -/

/-- The file system, with the directory to which the calls of `chdir` that returned 0 have led
each process. -/
structure CwdSys where
  sys : VfsSys
  wd : Nat → List UInt8

def CwdSys.init (v : Vfs) : CwdSys := ⟨VfsSys.init v, fun _ => [slash]⟩

def chdirTo (wd path : List UInt8) : List UInt8 :=
  if path.head? = some slash then path else wd ++ slash :: path

def CwdSys.wdAfter (s : CwdSys) : VfsAct → Nat → List UInt8
  | .call p (.sysChdir path) =>
    if (vfsChdir s.sys.vfs (s.sys.files p) path).2 = 0 then update s.wd p (chdirTo (s.wd p) path.str)
    else s.wd
  | .spawn p => update s.wd p [slash]
  | .fork _ child => update s.wd child [slash]
  | _ => s.wd

def CwdSys.step (s : CwdSys) (a : VfsAct) : Option CwdSys := (s.sys.step a).map fun t => ⟨t, s.wdAfter a⟩

def absolute (wd r : List UInt8) : CStr := ⟨wd ++ slash :: r, []⟩

structure ActsAs (v : Vfs) (f : Files) (p q : CStr) : Prop where
  open' : ∀ mem flags, vfsOpen v f mem p flags = vfsOpen v f mem q flags
  mkdir : ∀ mem, vfsMkdir v mem p = vfsMkdir v mem q
  linkFrom : ∀ b, vfsLink v p b = vfsLink v q b
  linkTo : ∀ a, vfsLink v a p = vfsLink v a q
  unlink : vfsUnlink v p = vfsUnlink v q
  chdir : vfsChdir v f p = vfsChdir v f q

/-- A relative path stands for the path from the working directory, whatever follows it in memory,
and its resolution loads no byte behind its terminator. -/
structure RelativeExact (v : Vfs) (f : Files) (wd r : List UInt8) : Prop where
  acts : ∀ after, ActsAs v f ⟨r, after⟩ (absolute wd r)
  inside : ∀ m p, UserStr m p r → ∀ e ∈ (nameiAt v p m).log ++ (nameiParentAt v p m).log,
    ∃ i, i ≤ r.length ∧ e.addr = add64 p i

/-! ## Failing alike -/

def NoDir (v : Vfs) (p : CStr) : Prop := ∀ d n, nameiParent v p = some (d, n) → (v.inodes d).type ≠ .dir

def NoRoom (v : Vfs) (p : CStr) : Prop := ∃ d n, nameiParent v p = some (d, n) ∧ maxDirent ≤ (v.inodes d).ent.length

/-- The entry that `unlink` finds; that its directory is one is not looked at. -/
def victim (v : Vfs) (p : CStr) : Option (Nat × List UInt8) := (nameiParent v p).filter fun e => e.2 ∈ v.names e.1

/-- Nothing is at `p` or at `q`, and none of the calls tells the two apart: a new file is refused
for lack of a directory or ends in a panic for lack of room. -/
structure FailAlike (v : Vfs) (p q : CStr) : Prop where
  missing : namei v p = none ∧ namei v q = none
  noDir : NoDir v p ↔ NoDir v q
  noRoom : NoDir v p ∨ NoRoom v p ∧ NoRoom v q
  removed : victim v p = victim v q
  linked : (∃ a ip, namei v a = some ip ∧ (v.inodes ip).type ≠ .dir) →
    nameiParent v p = nameiParent v q ∨ NoRoom v p ∧ NoRoom v q

section
variable {v v' : Vfs} {f : Files} {p q : CStr} {hist : Hist} {d d' ip : Nat} {n n' : List UInt8}

theorem ActsAs.symm (h : ActsAs v f p q) : ActsAs v f q p where
  open' := fun mem flags => (h.open' mem flags).symm
  mkdir := fun mem => (h.mkdir mem).symm
  linkFrom := fun b => (h.linkFrom b).symm
  linkTo := fun a => (h.linkTo a).symm
  unlink := h.unlink.symm
  chdir := h.chdir.symm

/-! ## What the calls come to -/

theorem Entered.unique (h : Entered d n ip v v') (h' : Entered d' n' ip v v') : (d, n) = (d', n') := by
  have hself := h.self
  by_cases hd : d = d'
  · subst hd
    rw [h'.self, append_cancel_left_eq, List.cons.injEq, Prod.mk.injEq] at hself
    rw [hself.1.1]
  · rcases h'.other d hd with he | he <;> rw [he] at hself <;> simpa using congrArg List.length hself

theorem Unlinked.unique (h : Unlinked d n v v') (h' : Unlinked d' n' v v') : (d, n) = (d', n') := by
  obtain ⟨i, hi⟩ := h.self
  by_cases hd : d = d'
  · subst hd
    obtain ⟨i', hi'⟩ := h'.self
    have hcons : ((n, i) ::ₘ ((v'.inodes d).ent : Multiset _)) = (n', i') ::ₘ ((v'.inodes d).ent : Multiset _) :=
      Multiset.coe_eq_coe.mpr (hi.trans hi'.symm)
    rw [(Prod.mk.inj ((Multiset.cons_inj_left _).mp hcons)).1]
  · have hlen := hi.length_eq
    rw [h'.other d hd, length_cons] at hlen
    omega

theorem vfsUnlink_victim : victim v p = none ∧ vfsUnlink v p = (v, -1) ∨
    ∃ d n, victim v p = some (d, n) ∧ nameiParent v p = some (d, n) ∧ (vfsUnlink v p).2 = 0 ∧
      Unlinked d n v (vfsUnlink v p).1 := by
  unfold victim
  cases hpar : nameiParent v p with
  | none => exact Or.inl ⟨rfl, by rw [vfsUnlink, hpar]⟩
  | some e =>
    obtain ⟨d, n⟩ := e
    cases hi : (v.inodes d).ent.findIdx? fun e => e.1 = n with
    | none =>
      refine Or.inl ⟨Option.filter_eq_none_iff.mpr fun e he => ?_, by rw [vfsUnlink, hpar]; simp only [hi]⟩
      cases he
      have hnone := findIdx?_eq_none_iff.mp hi
      simp only [Vfs.names, decide_eq_true_eq, mem_map, not_exists, not_and]
      exact fun x hx he => absurd (hnone x hx) (by simp [he])
    | some i =>
      obtain ⟨hlen, hkey, -⟩ := findIdx?_eq_some_iff_getElem.mp hi
      have hmem : n ∈ v.names d := mem_map.mpr ⟨_, getElem_mem hlen, of_decide_eq_true hkey⟩
      have hret : (vfsUnlink v p).2 = 0 := by
        rw [vfsUnlink, hpar]
        simp only [hi, getElem?_eq_getElem hlen]
      refine Or.inr ⟨d, n, Option.filter_eq_some_iff.mpr ⟨rfl, decide_eq_true hmem⟩, rfl, hret, ?_⟩
      have hok : vfsUnlink v p = ((vfsUnlink v p).1, (vfsUnlink v p).2) := rfl
      rcases vfsUnlink_ok hok with ⟨h1, -⟩ | ⟨-, h0⟩
      · rw [hret] at h1
        cases h1
      · obtain ⟨d', n', ip, ent, v1, hpar', hperm, h1, h2⟩ := h0
        cases hpar.symm.trans hpar'
        exact unlinked_of hperm h1 h2

def panicFull {α : Type} : Mem → Except Halt α
  | none => .error (.panic "vfs: out of memory (inode)")
  | some _ => .error (.panic "vfs: directory full")

theorem dirAdd_full {mem : Mem} {type : IType} (hd : d < v.ninode) (hfull : maxDirent ≤ (v.inodes d).ent.length)
    (h1 : ialloc v mem type = .ok (v', ip)) : dirAdd v' d n ip = .error (.panic "vfs: directory full") := by
  have hold := (ialloc_inodes h1).2 d (by rw [(ialloc_ok h1).1]; exact Nat.ne_of_lt hd)
  exact if_pos (by rw [hold]; exact hfull)

theorem dir_of_noDir (h : ¬NoDir v p) (hpar : nameiParent v p = some (d, n)) : (v.inodes d).type = .dir := by
  by_contra ht
  refine h fun d' n' hpar' => ?_
  cases hpar.symm.trans hpar'
  exact ht

theorem vfsMkdir_noDir {mem : Mem} (hno : namei v p = none) (h : NoDir v p) : vfsMkdir v mem p = .ok (v, -1) := by
  unfold vfsMkdir
  rw [hno]
  cases hpar : nameiParent v p with
  | none => rfl
  | some e => exact if_pos (h e.1 e.2 hpar)

theorem vfsMkdir_noRoom {mem : Mem} (hf : FileInv v hist) (hno : namei v p = none) (h : ¬NoDir v p)
    (hfull : NoRoom v p) : vfsMkdir v mem p = panicFull mem := by
  obtain ⟨d, n, hpar, hfull⟩ := hfull
  have ht := dir_of_noDir h hpar
  unfold vfsMkdir
  rw [hno, hpar]
  refine (if_neg (not_not.mpr ht)).trans ?_
  cases mem with
  | none => rfl
  | some m =>
    have h1 : ialloc v (some m) .dir = .ok (_, _) := rfl
    exact congrArg (· >>= fun v => pure (v, 0)) (dirAdd_full (nameiParent_lt hf hpar) hfull h1)

theorem vfsMkdir_to {m : Nat → UInt8} (hf : FileInv v hist) (hno : namei v p = none) :
    NoDir v p ∧ vfsMkdir v (some m) p = .ok (v, -1) ∨
      ¬NoDir v p ∧ NoRoom v p ∧ vfsMkdir v (some m) p = .error (.panic "vfs: directory full") ∨
      ∃ d n v', nameiParent v p = some (d, n) ∧ (v.inodes d).type = .dir ∧ vfsMkdir v (some m) p = .ok (v', 0) ∧
        Grown d n v.ninode v v' := by
  by_cases hd : NoDir v p
  · exact Or.inl ⟨hd, vfsMkdir_noDir hno hd⟩
  by_cases hfull : NoRoom v p
  · exact Or.inr (Or.inl ⟨hd, hfull, vfsMkdir_noRoom hf hno hd hfull⟩)
  refine Or.inr (Or.inr ?_)
  have hmade : ∃ v', vfsMkdir v (some m) p = .ok (v', 0) := by
    cases hpar : nameiParent v p with
    | none => exact absurd (fun d n hpar' => nomatch hpar.symm.trans hpar') hd
    | some e =>
      obtain ⟨d, n⟩ := e
      have ht := dir_of_noDir hd hpar
      obtain ⟨⟨v1, ip⟩, h1⟩ : ∃ r, ialloc v (some m) .dir = .ok r := ⟨_, rfl⟩
      have hold := (ialloc_inodes h1).2 d (by rw [(ialloc_ok h1).1]; exact Nat.ne_of_lt (nameiParent_lt hf hpar))
      have hroom : ¬maxDirent ≤ (v1.inodes d).ent.length := by
        rw [hold]
        exact fun hge => hfull ⟨d, n, hpar, hge⟩
      unfold vfsMkdir
      rw [hno, hpar]
      simp only [ht, ne_eq, not_true_eq_false, if_false, h1, dirAdd, bind, Except.bind]
      rw [if_neg hroom]
      exact ⟨_, rfl⟩
  obtain ⟨v', hmade⟩ := hmade
  rcases vfsMkdir_ok hmade with ⟨h0, -⟩ | ⟨-, hc⟩
  · cases h0
  · obtain ⟨d, n, -, hpar, ht, hg⟩ := hc.grown hf
    exact ⟨d, n, v', hpar, ht, hmade, hg⟩

theorem openInode_noDir {mem : Mem} {flags : Nat} (hno : namei v p = none) (h : NoDir v p) :
    openInode v mem p flags = .ok (v, none) := by
  unfold openInode
  rw [hno]
  dsimp only
  split
  · rfl
  cases hpar : nameiParent v p with
  | none => rfl
  | some e => exact if_pos (h e.1 e.2 hpar)

theorem openInode_noRoom {mem : Mem} {flags : Nat} (hf : FileInv v hist) (hno : namei v p = none) (h : ¬NoDir v p)
    (hfull : NoRoom v p) :
    openInode v mem p flags = if flags &&& oCreate = 0 then .ok (v, none) else panicFull mem := by
  obtain ⟨d, n, hpar, hfull⟩ := hfull
  have ht := dir_of_noDir h hpar
  unfold openInode
  rw [hno, hpar]
  dsimp only
  split
  · rfl
  refine (if_neg (not_not.mpr ht)).trans ?_
  cases mem with
  | none => rfl
  | some m =>
    have h1 : ialloc v (some m) .file = .ok (_, _) := rfl
    exact congrArg (· >>= fun v' => pure (v', some v.ninode)) (dirAdd_full (nameiParent_lt hf hpar) hfull h1)

theorem vfsLink_noRoom {a : CStr} (h : NoRoom v p) (ha : namei v a = some ip) (ht : (v.inodes ip).type ≠ .dir) :
    vfsLink v a p = .error (.panic "vfs: directory full") := by
  obtain ⟨d, n, hpar, hfull⟩ := h
  rw [vfsLink, ha]
  simp only [if_neg ht, hpar, dirAdd, if_pos hfull]
  rfl

theorem vfsLink_to {a : CStr} (ha : namei v a = some ip) (ht : (v.inodes ip).type ≠ .dir) :
    NoRoom v p ∧ vfsLink v a p = .error (.panic "vfs: directory full") ∨
      nameiParent v p = none ∧ vfsLink v a p = .ok (v, -1) ∨
      ∃ d n v', nameiParent v p = some (d, n) ∧ vfsLink v a p = .ok (v', 0) ∧ LinkedTo d n ip v v' := by
  by_cases hfull : NoRoom v p
  · exact Or.inl ⟨hfull, vfsLink_noRoom hfull ha ht⟩
  refine Or.inr ?_
  cases hpar : nameiParent v p with
  | none =>
    refine Or.inl ⟨rfl, ?_⟩
    rw [vfsLink, ha]
    simp only [if_neg ht, hpar]
  | some e =>
    obtain ⟨d, n⟩ := e
    have h1 : dirAdd v d n ip = .ok _ := if_neg fun hge => hfull ⟨d, n, hpar, hge⟩
    refine Or.inr ⟨d, n, _, rfl, ?_, linkedTo_link hpar h1 rfl⟩
    rw [vfsLink, ha]
    simp only [if_neg ht, hpar, h1]
    rfl

/-! ## Acting alike is failing alike -/

/-- A directory that one of the paths leads to would become the `cwd` of the other. -/
theorem ActsAs.not_dir (h : ActsAs v f p q) (hne : p.str.take 63 ≠ q.str.take 63) (hp : namei v p = some ip) :
    (v.inodes ip).type ≠ .dir := by
  intro ht
  have hc := h.chdir
  rw [vfsChdir, hp] at hc
  simp only [ht, ne_eq, not_true_eq_false, if_false] at hc
  unfold vfsChdir at hc
  split at hc
  · cases congrArg Prod.snd hc
  · split at hc
    · cases congrArg Prod.snd hc
    · exact hne (congrArg Files.cwd (congrArg Prod.fst hc))

def EndApart (v : Vfs) (p q : CStr) : Prop :=
  ∀ d n, nameiParent v p = some (d, n) → nameiParent v q = some (d, n) → (v.inodes d).type ≠ .dir

def Rooted (v : Vfs) (p : CStr) : Prop :=
  ∀ ip, nameiParent v p = none → namei v p = some ip → (v.inodes ip).type = .dir

theorem ActsAs.victim (h : ActsAs v f p q) : victim v p = victim v q := by
  have hu := h.unlink
  rcases vfsUnlink_victim (v := v) (p := p) with ⟨h1, h2⟩ | ⟨d, n, h1, -, h2, h3⟩ <;>
    rcases vfsUnlink_victim (v := v) (p := q) with ⟨h1', h2'⟩ | ⟨d', n', h1', -, h2', h3'⟩
  · rw [h1, h1']
  · rw [← hu, h2] at h2'
    cases h2'
  · rw [hu, h2'] at h2
    cases h2
  · rw [← hu] at h3'
    rw [h1, h1', h3.unique h3']

/-- `unlink` would remove what is there. -/
theorem ActsAs.missing (h : ActsAs v f p q) (hb : v.Blank) (hne : p.str.take 63 ≠ q.str.take 63)
    (hapart : EndApart v p q) (hroot : Rooted v p) : namei v p = none := by
  by_contra hp
  obtain ⟨ip, hp⟩ := Option.ne_none_iff_exists'.mp hp
  have ht := h.not_dir hne hp
  cases hpar : nameiParent v p with
  | none => exact ht (hroot ip hpar hp)
  | some e =>
    obtain ⟨d, n⟩ := e
    rw [namei_eq_dirLookup hpar] at hp
    obtain ⟨hd, hmem, -⟩ := dirLookup_entry hb hp
    have hv : NjuOs.victim v p = some (d, n) :=
      Option.filter_eq_some_iff.mpr ⟨hpar, decide_eq_true (mem_map.mpr ⟨_, hmem, rfl⟩)⟩
    rw [h.victim] at hv
    exact hapart d n hpar (Option.filter_eq_some_iff.mp hv).1 hd

/-- A new directory would be entered into both parents. -/
theorem ActsAs.created (h : ActsAs v f p q) (hf : FileInv v hist) (hapart : EndApart v p q) (hp : namei v p = none)
    (hq : namei v q = none) : (NoDir v p ↔ NoDir v q) ∧ (NoDir v p ∨ NoRoom v p ∧ NoRoom v q) := by
  have hmk := h.mkdir (some fun _ => 0)
  rcases vfsMkdir_to (m := fun _ => 0) hf hp with ⟨hd, h1⟩ | ⟨hd, hr, h1⟩ | ⟨d, n, v', hpar, ht, h1, hg⟩ <;>
    rcases vfsMkdir_to (m := fun _ => 0) hf hq with
      ⟨hd', h1'⟩ | ⟨hd', hr', h1'⟩ | ⟨d', n', v'', hpar', -, h1', hg'⟩ <;>
    rw [h1, h1'] at hmk
  · exact ⟨iff_of_true hd hd', Or.inl hd⟩
  · cases hmk
  · cases hmk
  · cases hmk
  · exact ⟨iff_of_false hd hd', Or.inr ⟨hr, hr'⟩⟩
  · cases hmk
  · cases hmk
  · cases hmk
  · cases hmk
    rw [← hg.entered.unique hg'.entered] at hpar'
    exact absurd ht (hapart d n hpar hpar')

theorem ActsAs.linked {a : CStr} (h : ActsAs v f p q) (ha : namei v a = some ip) (ht : (v.inodes ip).type ≠ .dir) :
    nameiParent v p = nameiParent v q ∨ NoRoom v p ∧ NoRoom v q := by
  have hl := h.linkTo a
  rcases vfsLink_to (p := p) ha ht with ⟨hr, h1⟩ | ⟨hpar, h1⟩ | ⟨d, n, v', hpar, h1, hto⟩ <;>
    rcases vfsLink_to (p := q) ha ht with ⟨hr', h1'⟩ | ⟨hpar', h1'⟩ | ⟨d', n', v'', hpar', h1', hto'⟩ <;>
    rw [h1, h1'] at hl
  · exact Or.inr ⟨hr, hr'⟩
  · cases hl
  · cases hl
  · cases hl
  · exact Or.inl (hpar.trans hpar'.symm)
  · cases hl
  · cases hl
  · cases hl
  · cases hl
    exact Or.inl (by rw [hpar, hpar', hto.entered.unique hto'.entered])

theorem ActsAs.failAlike (h : ActsAs v f p q) (hf : FileInv v hist) (hb : v.Blank)
    (hne : p.str.take 63 ≠ q.str.take 63) (hapart : EndApart v p q) (hp : Rooted v p) (hq : Rooted v q) :
    FailAlike v p q := by
  have hpno := h.missing hb hne hapart hp
  have hqno := h.symm.missing hb hne.symm (fun d n h1 h2 => hapart d n h2 h1) hq
  obtain ⟨hdir, hroom⟩ := h.created hf hapart hpno hqno
  refine ⟨⟨hpno, hqno⟩, hdir, hroom, h.victim, ?_⟩
  rintro ⟨a, ip, ha, ht⟩
  exact h.linked ha ht

theorem FailAlike.congr {p' : CStr} (h : FailAlike v p q) (hi : namei v p' = namei v p)
    (hp : nameiParent v p' = nameiParent v p) : FailAlike v p' q := by
  have hdir : NoDir v p' ↔ NoDir v p := by rw [NoDir, NoDir, hp]
  have hroom : NoRoom v p' ↔ NoRoom v p := by rw [NoRoom, NoRoom, hp]
  have hvic : victim v p' = victim v p := by rw [victim, victim, hp]
  refine ⟨?_, ?_, ?_, ?_, ?_⟩
  · rw [hi]
    exact h.missing
  · rw [hdir]
    exact h.noDir
  · rw [hdir, hroom]
    exact h.noRoom
  · rw [hvic]
    exact h.removed
  · rw [hp, hroom]
    exact h.linked

theorem FailAlike.actsAs (h : FailAlike v p q) (hf : FileInv v hist) : ActsAs v f p q := by
  obtain ⟨hp, hq⟩ := h.missing
  have hopen : ∀ mem flags, openInode v mem p flags = openInode v mem q flags := by
    intro mem flags
    by_cases hd : NoDir v p
    · rw [openInode_noDir hp hd, openInode_noDir hq (h.noDir.mp hd)]
    · obtain ⟨hr, hr'⟩ := h.noRoom.resolve_left hd
      rw [openInode_noRoom hf hp hd hr, openInode_noRoom hf hq (fun hd' => hd (h.noDir.mpr hd')) hr']
  constructor
  case open' =>
    intro mem flags
    rw [vfsOpen, vfsOpen, hopen]
  case mkdir =>
    intro mem
    by_cases hd : NoDir v p
    · rw [vfsMkdir_noDir hp hd, vfsMkdir_noDir hq (h.noDir.mp hd)]
    · obtain ⟨hr, hr'⟩ := h.noRoom.resolve_left hd
      rw [vfsMkdir_noRoom hf hp hd hr, vfsMkdir_noRoom hf hq (fun hd' => hd (h.noDir.mpr hd')) hr']
  case linkFrom =>
    intro b
    rw [vfsLink, vfsLink, hp, hq]
  case linkTo =>
    intro a
    cases ha : namei v a with
    | none => rw [vfsLink, vfsLink, ha]
    | some ip =>
      by_cases ht : (v.inodes ip).type = .dir
      · rw [vfsLink, vfsLink, ha]
        simp only [if_pos ht]
      · rcases h.linked ⟨a, ip, ha, ht⟩ with he | ⟨hr, hr'⟩
        · rw [vfsLink, vfsLink, he]
        · rw [vfsLink_noRoom hr ha ht, vfsLink_noRoom hr' ha ht]
  case unlink =>
    have hvic := h.removed
    rcases vfsUnlink_victim (v := v) (p := p) with ⟨h1, h2⟩ | ⟨d, n, h1, hpar, -, -⟩ <;>
      rcases vfsUnlink_victim (v := v) (p := q) with ⟨h1', h2'⟩ | ⟨d', n', h1', hpar', -, -⟩
    · rw [h2, h2']
    · rw [h1, h1'] at hvic
      cases hvic
    · rw [h1, h1'] at hvic
      cases hvic
    · rw [h1, h1'] at hvic
      rw [vfsUnlink, vfsUnlink, hpar, hpar', hvic]
  case chdir => rw [vfsChdir, vfsChdir, hp, hq]

end

/-! ## Where the two paths lead -/

theorem comps_flatten_loop : ∀ (k : Nat) (p : List UInt8), p.length ≤ k →
    (comps p).flatten = p.filter fun c => c ≠ slash
  | k, p, hk => by
    have hskip : p.filter (fun c => c ≠ slash) = (skipslash p).filter fun c => c ≠ slash := by
      have hsplit := takeWhile_append_dropWhile (p := fun c => decide (c = slash)) (l := p)
      have hslash : (p.takeWhile fun c => decide (c = slash)).filter (fun c => c ≠ slash) = [] := by
        refine filter_eq_nil_iff.mpr fun c hc => ?_
        simpa using mem_takeWhile_imp hc
      conv_lhs => rw [← hsplit, filter_append, hslash, nil_append]
      rfl
    rw [hskip]
    by_cases hs : skipslash p = []
    · rw [comps_slashes hs, hs]
      rfl
    obtain ⟨-, hlt⟩ := nextcomp_shorter hs
    cases k with
    | zero => omega
    | succ k =>
      -- a name has no slashes, and the path goes on behind it
      have hname : ∀ c ∈ (nextcomp p).1, decide (c ≠ slash) = true := by
        intro c hc
        have hword : c ∈ (skipslash p).takeWhile fun c => decide (c ≠ slash) := mem_of_mem_take hc
        have hne := mem_takeWhile_imp hword
        exact hne
      have hrest : skipslash p = (nextcomp p).1 ++ (nextcomp p).2 := by
        have hpre : (nextcomp p).1 <+: skipslash p := ( take_prefix ..).trans ( takeWhile_prefix _)
        obtain ⟨t, ht⟩ := hpre
        rw [← ht]
        congr 1
        have hdrop : (nextcomp p).2 = (skipslash p).drop (nextcomp p).1.length := rfl
        rw [hdrop, ← ht, drop_left]
      rw [comps_cons hs, flatten_cons, comps_flatten_loop k _ (by omega), hrest, filter_append,
        filter_eq_self.mpr hname]

theorem comps_flatten (p : List UInt8) : (comps p).flatten = p.filter fun c => c ≠ slash :=
  comps_flatten_loop p.length p (Nat.le_refl _)

theorem parentWalk_some {v : Vfs} {ip d : Nat} {n : List UInt8} {names : List (List UInt8)}
    (h : parentWalk v ip names = some (d, n)) : ∃ xs, names = xs ++ [n] ∧ walk v ip xs = some d := by
  unfold parentWalk at h
  obtain ⟨n', hlast, h⟩ := Option.bind_eq_some_iff.mp h
  obtain ⟨d', hd, he⟩ := Option.map_eq_some_iff.mp h
  cases he
  exact ⟨names.dropLast, (dropLast_append_getLast? n hlast).symm, hd⟩

section
variable {v : Vfs} {hist : Hist} {dev proc : Nat} (hv : Reached v hist dev proc)
include hv

theorem Reached.resolve_relative {c : UInt8} (hc : c ≠ slash) (r after : List UInt8) :
    resolveMount v ⟨c :: r, after⟩ = (0, skipslash r) := by
  have hno : ∀ mp, ¬slash :: mp <+: c :: r := fun mp hpre => hc (cons_prefix_cons.mp hpre).1.symm
  have hbest : bestMount (c :: r) [(bytes "/dev", dev), (bytes "/proc", proc)] (0, 1) = (0, 1) := by
    rw [bestMount, if_neg fun h => hno (bytes "dev") h.1, bestMount, if_neg fun h => hno (bytes "proc") h.1]
    rfl
  unfold resolveMount
  rw [hv.mounts]
  simp only [hbest, CStr.advance, length_cons]
  rw [if_pos (by omega)]
  rfl

theorem Reached.resolve_mem (p : CStr) : (resolveMount v p).1 ∈ [0, dev, proc] := by
  unfold resolveMount
  rw [hv.mounts]
  rcases bestMount_spec p.str [(bytes "/dev", dev), (bytes "/proc", proc)] (0, 1) with he | ⟨m, hm, he, -⟩
  · simp [he]
  · simp only [he]
    simp only [mem_cons, not_mem_nil, or_false] at hm
    rcases hm with rfl | rfl <;> simp

/-- The walk of an absolute path starts at a mount and ends with the names of the relative path. -/
theorem Reached.resolve_absolute (t r : List UInt8) : ∃ root q,
    resolveMount v (absolute (slash :: t) r) = (root, skipslash (q ++ slash :: r)) ∧ root ∈ [0, dev, proc] ∧
      (root = 0 → q = t) := by
  have hdev := hv.dev
  have hproc := hv.proc
  have hlen := (takeWhile_sublist (l := t) fun x => decide (x ≠ slash)).length_le
  have hres := hv.resolve (t ++ slash :: r) []
  rw [takeWhile_append_slash] at hres
  unfold absolute
  rw [cons_append, hres]
  split
  · next h =>
    rw [h] at hlen
    have hlen : 3 ≤ t.length := hlen
    exact ⟨dev, t.drop 3, by rw [drop_append_of_le_length hlen], by simp, fun h0 => absurd h0 (by omega)⟩
  split
  · next h =>
    rw [h] at hlen
    have hlen : 4 ≤ t.length := hlen
    exact ⟨proc, t.drop 4, by rw [drop_append_of_le_length hlen], by simp, fun h0 => absurd h0 (by omega)⟩
  · exact ⟨0, t, rfl, by simp, fun _ => rfl⟩

variable (ht : DirTree [0, dev, proc] v)
include ht

/-- The names that lead from a root to a directory are unique. -/
theorem Reached.walk_unique (xs : List (List UInt8)) : ∀ {ys : List (List UInt8)} {a b d : Nat},
    (v.inodes d).type = .dir → a ∈ [0, dev, proc] → b ∈ [0, dev, proc] → walk v a xs = some d → walk v b ys = some d →
      a = b ∧ xs = ys := by
  induction xs using List.reverseRecOn with
  | nil =>
    intro ys a b d hd ha hb hx hy
    cases hx
    rcases eq_nil_or_concat ys with rfl | ⟨ys, n, rfl⟩
    · cases hy
      exact ⟨rfl, rfl⟩
    · rw [concat_eq_append, walk_snoc] at hy
      obtain ⟨e, -, hl⟩ := Option.bind_eq_some_iff.mp hy
      exact absurd hl (ht.not_root hv.blank ha)
  | append_singleton xs m ih =>
    intro ys a b d hd ha hb hx hy
    rw [walk_snoc] at hx
    obtain ⟨e, hxs, hl⟩ := Option.bind_eq_some_iff.mp hx
    rcases eq_nil_or_concat ys with rfl | ⟨ys, n, rfl⟩
    · cases hy
      exact absurd hl (ht.not_root hv.blank hb)
    · rw [concat_eq_append] at hy ⊢
      rw [walk_snoc] at hy
      obtain ⟨e', hys, hl'⟩ := Option.bind_eq_some_iff.mp hy
      obtain ⟨rfl, rfl⟩ := ht.lookup_unique hv.blank hd hl hl'
      obtain ⟨rfl, rfl⟩ := ih (dirLookup_entry hv.blank hl).1 ha hb hxs hys
      exact ⟨rfl, rfl⟩

/-- With one byte less, the names of a relative path cannot be those of the absolute one. -/
theorem Reached.endApart {c : UInt8} (hc : c ≠ slash) (t r after : List UInt8) :
    EndApart v ⟨c :: r, after⟩ (absolute (slash :: t) (c :: r)) := by
  intro d n hpar hpar' hd
  obtain ⟨root, q, hres, hroot, hq⟩ := hv.resolve_absolute t (c :: r)
  rw [nameiParent_walk, hv.resolve_relative hc, comps_skipslash] at hpar
  rw [nameiParent_walk, hres, comps_skipslash] at hpar'
  obtain ⟨xs, hxs, hx⟩ := parentWalk_some hpar
  obtain ⟨ys, hys, hy⟩ := parentWalk_some hpar'
  obtain ⟨h0, rfl⟩ := hv.walk_unique ht xs hd (by simp) hroot hx hy
  rw [hq h0.symm, ← hxs, comps_append] at hys
  have hlen := congrArg (fun names => names.flatten.length) hys
  simp only [flatten_append, length_append, comps_flatten] at hlen
  rw [filter_cons_of_pos (by simpa using hc), length_cons] at hlen
  omega

theorem Reached.rooted (p : CStr) : Rooted v p := by
  intro ip hpar hp
  rw [nameiParent_walk] at hpar
  rw [namei_walk] at hp
  rcases parentWalk_none hpar with hnil | hnone
  · rw [hnil] at hp
    cases hp
    exact (ht.top _ (hv.resolve_mem p)).2.1
  · rw [hnone] at hp
    cases hp

end

/-! ## Bytes behind the terminator -/

section
variable {v : Vfs} {hist : Hist} {dev proc : Nat} (hv : Reached v hist dev proc)
include hv

theorem Reached.mountsOk : MountsOk v := by
  have hnames : NamesOk [(bytes "/", 0), (bytes "/dev", dev), (bytes "/proc", proc)] := by
    simp only [NamesOk, mem_cons, not_mem_nil, or_false, forall_eq_or_imp, forall_eq]
    decide
  rw [MountsOk, hv.mounts]
  exact ⟨cons_ne_nil _ _, hnames⟩

/-- The first byte is skipped before it is looked at. -/
theorem Reached.looks_behind {m : Nat → UInt8} {p : Nat} (h : StrAt m p []) :
    ∃ e ∈ (nameiAt v p m).log, e.addr = add64 p 1 := by
  have hpath : PathAt m p ⟨[], strAt m addrs (add64 p 1)⟩ := ⟨h, fun _ => HasZero.strAt ⟨p, h⟩ (add64_lt p 1)⟩
  have hlen : mountLen v ⟨[], strAt m addrs (add64 p 1)⟩ = 1 := by
    unfold mountLen
    rw [hv.mounts]
    rfl
  by_contra hno
  -- then the walk would keep to the other bytes, but it starts at the second one
  have hin : Inside (· ≠ add64 p 1) m (nameiAt v p) := fun e he heq => hno ⟨e, he, heq⟩
  have hwalk := ((looks_nameiAt hv.mountsOk hpath).inside.mp hin).2 0 (Nat.succ_pos _)
  rw [hlen, add64_add64] at hwalk
  exact hwalk rfl

omit hv in
theorem walkIn_of_ne_nil {p : Nat} {r after rest : List UInt8} (hr : r ≠ []) :
    WalkIn (fun a => ∃ i, i ≤ r.length ∧ a = add64 p i) v p ⟨r, after⟩ rest := by
  have hpos := length_pos_iff.mpr hr
  constructor
  · intro e _ i hi
    exact ⟨i, Nat.le_of_lt_succ (hi.trans_le (Nat.succ_le_succ (matchLen_le _ _))), rfl⟩
  · have hlen : mountLen v ⟨r, after⟩ = 1 ∨ mountLen v ⟨r, after⟩ ≤ r.length := bestMount_length (Or.inl rfl)
    have hle : mountLen v ⟨r, after⟩ ≤ r.length := by omega
    intro i hi
    have hadv : ((⟨r, after⟩ : CStr).advance (mountLen v ⟨r, after⟩)).length = r.length - mountLen v ⟨r, after⟩ := by
      rw [CStr.advance, if_pos hle, length_drop]
    rw [hadv] at hi
    exact ⟨mountLen v ⟨r, after⟩ + i, by omega, add64_add64 ..⟩

theorem Reached.looks_inside {m : Nat → UInt8} {p : Nat} {r : List UInt8} (hr : r ≠ []) (h : StrAt m p r) :
    ∀ e ∈ (nameiAt v p m).log ++ (nameiParentAt v p m).log, ∃ i, i ≤ r.length ∧ e.addr = add64 p i := by
  have hpath : PathAt m p ⟨r, []⟩ := ⟨h, fun hnil => absurd hnil hr⟩
  intro e he
  rcases mem_append.mp he with he | he
  · exact (looks_nameiAt hv.mountsOk hpath).inside.mpr (walkIn_of_ne_nil hr) e he
  · exact (looks_nameiParentAt hv.mountsOk hpath).inside.mpr (walkIn_of_ne_nil hr) e he

/-! ## Relative paths -/

theorem Reached.relative_iff (ht : DirTree [0, dev, proc] v) {f : Files} {t r : List UInt8}
    (hrel : r.head? ≠ some slash) : RelativeExact v f (slash :: t) r ↔
      r ≠ [] ∧ FailAlike v ⟨r, []⟩ (absolute (slash :: t) r) := by
  cases r with
  | nil =>
    refine iff_of_false (fun h => ?_) fun h => h.1 rfl
    have hstr : UserStr (fun _ => 0) userBase [] := ⟨⟨by decide, rfl⟩, by decide⟩
    obtain ⟨e, he, haddr⟩ := hv.looks_behind hstr.1
    obtain ⟨i, hi, hbase⟩ := h.inside _ _ hstr e (mem_append_left _ he)
    rw [Nat.le_zero.mp hi, haddr] at hbase
    exact absurd hbase (by decide)
  | cons c r =>
    have hc : c ≠ slash := fun hc => hrel (congrArg some hc)
    have hne : c :: r ≠ [] := cons_ne_nil c r
    have hcwd : ∀ after, (⟨c :: r, after⟩ : CStr).str.take 63 ≠ (absolute (slash :: t) (c :: r)).str.take 63 :=
      fun _ he => hc (List.cons.inj he).1
    have hafter : ∀ after, resolveMount v ⟨c :: r, after⟩ = resolveMount v ⟨c :: r, []⟩ := fun after =>
      (hv.resolve_relative hc r after).trans (hv.resolve_relative hc r []).symm
    constructor
    · intro h
      exact ⟨hne, (h.acts []).failAlike hv.files hv.blank (hcwd []) (hv.endApart ht hc t r []) (hv.rooted ht _)
        (hv.rooted ht _)⟩
    · rintro ⟨-, h⟩
      refine ⟨fun after => ?_, fun m p hstr => hv.looks_inside hne hstr.1⟩
      have hi : namei v ⟨c :: r, after⟩ = namei v ⟨c :: r, []⟩ := by
        rw [namei_walk, namei_walk, hafter]
      have hp : nameiParent v ⟨c :: r, after⟩ = nameiParent v ⟨c :: r, []⟩ := by
        rw [nameiParent_walk, nameiParent_walk, hafter]
      exact (h.congr hi hp).actsAs hv.files

end

section
variable {mem : Nat → Mem} {progs : List (List UInt8 × List UInt8)} {v : Vfs} {as : List VfsAct} {s : CwdSys}

theorem chdirTo_head {wd : List UInt8} (h : wd.head? = some slash) (path : List UInt8) :
    (chdirTo wd path).head? = some slash := by
  unfold chdirTo
  split
  · assumption
  · rw [head?_append, h]
    rfl

theorem CwdSys.wdAfter_head {s : CwdSys} (h : ∀ p, (s.wd p).head? = some slash) (a : VfsAct) (p : Nat) :
    (s.wdAfter a p).head? = some slash := by
  -- a process that is given another directory, and the others
  have hupdate : ∀ {q : Nat} {wd : List UInt8}, wd.head? = some slash →
      (update s.wd q wd p).head? = some slash := by
    intro q wd hwd
    by_cases hp : p = q
    · rw [hp, update_self]
      exact hwd
    · rw [update_of_ne hp]
      exact h p
  unfold CwdSys.wdAfter
  split
  · split
    · exact hupdate (chdirTo_head (h _) _)
    · exact h p
  · exact hupdate rfl
  · exact hupdate rfl
  · exact h p

theorem CwdSys.run_sys (hr : run CwdSys.step (CwdSys.init v) as = some s) :
    (∃ bs, run VfsSys.step (VfsSys.init v) bs = some s.sys) ∧ ∀ p, (s.wd p).head? = some slash := by
  refine run_inv (I := fun s => (∃ bs, run VfsSys.step (VfsSys.init v) bs = some s.sys) ∧
    ∀ p, (s.wd p).head? = some slash) ?_ as _ s ⟨⟨[], rfl⟩, fun _ => rfl⟩ hr
  rintro s a s' ⟨⟨bs, hbs⟩, hwd⟩ h
  obtain ⟨t, ht, rfl⟩ := Option.map_eq_some_iff.mp h
  refine ⟨⟨bs ++ [a], ?_⟩, wdAfter_head hwd a⟩
  rw [run_append hbs, run_cons, ht]
  rfl

/-- A relative path stands for the path from the working directory only where both lead nowhere
and fail alike. -/
theorem relative_exact_iff (hinit : vfsInit mem progs = .ok v) (hr : run CwdSys.step (CwdSys.init v) as = some s)
    (p : Nat) {r : List UInt8} (hrel : r.head? ≠ some slash) :
    RelativeExact s.sys.vfs (s.sys.files p) (s.wd p) r ↔
      r ≠ [] ∧ FailAlike s.sys.vfs ⟨r, []⟩ (absolute (s.wd p) r) := by
  obtain ⟨⟨bs, hbs⟩, hwd⟩ := CwdSys.run_sys hr
  obtain ⟨dev, proc, hv, ht⟩ := run_dirTree hinit hbs
  obtain ⟨t, he⟩ := head?_eq_some_iff.mp (hwd p)
  rw [he]
  exact hv.relative_iff ht hrel

end

def chdirRun : List VfsAct := [.spawn 1, .call 1 (.sysChdir ⟨bytes "/tmp", []⟩)]

theorem relative_exact_missing : ∃ s, run CwdSys.step (CwdSys.init bootVfs) chdirRun = some s ∧
    s.wd 1 = bytes "/tmp" ∧ RelativeExact s.sys.vfs (s.sys.files 1) (bytes "/tmp") (bytes "ab/c") := by
  have hrun : ((run CwdSys.step (CwdSys.init bootVfs) chdirRun).any fun s => s.wd 1 = bytes "/tmp" ∧
      nameiParent s.sys.vfs ⟨bytes "ab/c", []⟩ = none ∧ nameiParent s.sys.vfs ⟨bytes "/tmp/ab/c", []⟩ = none ∧
      namei s.sys.vfs ⟨bytes "ab/c", []⟩ = none ∧ namei s.sys.vfs ⟨bytes "/tmp/ab/c", []⟩ = none) = true := by
    decide +kernel
  obtain ⟨s, hs, h⟩ := (Option.any_eq_true _ _).mp hrun
  obtain ⟨hwd, hp, hq, hp', hq'⟩ := of_decide_eq_true h
  have habs : absolute (bytes "/tmp") (bytes "ab/c") = ⟨bytes "/tmp/ab/c", []⟩ := rfl
  have hfail : FailAlike s.sys.vfs ⟨bytes "ab/c", []⟩ (absolute (bytes "/tmp") (bytes "ab/c")) := by
    rw [habs]
    have hdir : ∀ {p}, nameiParent s.sys.vfs p = none → NoDir s.sys.vfs p :=
      fun hn d n hpar => nomatch hn.symm.trans hpar
    refine ⟨⟨hp', hq'⟩, iff_of_true (hdir hp) (hdir hq), Or.inl (hdir hp), ?_, fun _ => Or.inl (hp.trans hq.symm)⟩
    rw [victim, victim, hp, hq]
  have hexact := (relative_exact_iff vfsInit_boot hs 1 (r := bytes "ab/c") (by decide)).mpr
  rw [hwd] at hexact
  exact ⟨s, hs, hwd, hexact ⟨by decide, hfail⟩⟩

/-- In `/tmp`, `open("ab", O_CREATE)` makes `/b`. -/
theorem relative_open_escapes : vfsInit bootMem [] = .ok bootVfs ∧
    ∃ s v' f fd, run CwdSys.step (CwdSys.init bootVfs) chdirRun = some s ∧ s.wd 1 = bytes "/tmp" ∧
      vfsOpen s.sys.vfs (s.sys.files 1) (some fun _ => 0) ⟨bytes "ab", []⟩ oCreate = .ok (v', f, fd) ∧
      (namei v' ⟨bytes "/b", []⟩).isSome ∧ namei v' ⟨bytes "/tmp/ab", []⟩ = none ∧
      ¬RelativeExact s.sys.vfs (s.sys.files 1) (s.wd 1) (bytes "ab") := by
  have hrun : ((run CwdSys.step (CwdSys.init bootVfs) chdirRun).any fun s => s.wd 1 = bytes "/tmp" ∧
      ((vfsOpen s.sys.vfs (s.sys.files 1) (some fun _ => 0) ⟨bytes "ab", []⟩ oCreate).toOption.any fun r =>
        (namei r.1 ⟨bytes "/b", []⟩).isSome ∧ namei r.1 ⟨bytes "/tmp/ab", []⟩ = none) = true ∧
      ((vfsOpen s.sys.vfs (s.sys.files 1) (some fun _ => 0) ⟨bytes "/tmp/ab", []⟩ oCreate).toOption.any fun r =>
        namei r.1 ⟨bytes "/tmp/ab", []⟩ = none) = false) = true := by
    decide +kernel
  obtain ⟨s, hs, h⟩ := (Option.any_eq_true _ _).mp hrun
  obtain ⟨hwd, hrel, habs⟩ := of_decide_eq_true h
  obtain ⟨⟨v', f, fd⟩, ho, hb⟩ := (Option.any_eq_true _ _).mp hrel
  obtain ⟨hfound, hnone⟩ := of_decide_eq_true hb
  have ho := toOption_some ho
  refine ⟨vfsInit_boot, s, v', f, fd, hs, hwd, ho, hfound, hnone, fun hexact => ?_⟩
  have he := (hexact.acts []).open' (some fun _ => 0) oCreate
  have hpath : absolute (bytes "/tmp") (bytes "ab") = ⟨bytes "/tmp/ab", []⟩ := rfl
  rw [hwd, ho, hpath] at he
  rw [← he] at habs
  exact absurd habs (by simpa [Except.toOption] using hnone)

end NjuOs
