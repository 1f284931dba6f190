import NjuOs.OffsetSound

/-!
# A failed `vfs_open`

`vfs_open` makes the file and truncates it before it looks for a table entry and a descriptor.
Its last exit gives the table entry back; nothing gives the file or its contents back.
-/

namespace NjuOs

/-- The directory tree with all files, the reference counts and the descriptor tables are as before. -/
structure SameFiles (s s' : VfsSys) : Prop where
  tree : SameTree s.vfs s'.vfs
  refs : ∀ f, (s'.vfs.ftable f).ref = (s.vfs.ftable f).ref
  fds : ∀ q, (s'.files q).ofile = (s.files q).ofile

/-- The path leads nowhere, and the flags ask for a file where there is a directory to enter it. -/
def Creates (v : Vfs) (path : CStr) (flags : Nat) : Prop :=
  namei v path = none ∧ flags &&& oCreate ≠ 0 ∧
    ∃ dir name, nameiParent v path = some (dir, name) ∧ (v.inodes dir).type = .dir

/-- The flags ask to empty a file that holds something. -/
def Truncates (v : Vfs) (path : CStr) (flags : Nat) : Prop :=
  flags &&& oTrunc ≠ 0 ∧ ∃ ip, namei v path = some ip ∧ (v.inodes ip).type = .file ∧ (v.inodes ip).size ≠ 0

section
variable {v v' : Vfs} {p p' : Files} {mem : Mem} {path : CStr} {flags ip : Nat} {o : Option Nat} {r : Int}

theorem openInode_found (h : namei v path = some ip) : openInode v mem path flags = .ok (v, some ip) := by
  simp only [openInode, h]

theorem openInode_stays (h : namei v path = none) (hc : ¬Creates v path flags) :
    openInode v mem path flags = .ok (v, none) := by
  simp only [openInode, h]
  split
  · rfl
  next hflag =>
  split
  · rfl
  next dir name hpar =>
  exact if_pos fun ht => hc ⟨h, hflag, dir, name, hpar, ht⟩

theorem openInode_creates (hc : Creates v path flags) (h : openInode v mem path flags = .ok (v', o)) :
    Created v path v' := by
  obtain ⟨hno, hflag, dir, name, hpar, ht⟩ := hc
  simp only [openInode, hno, hpar, if_neg hflag, if_neg (not_not.mpr ht)] at h
  obtain ⟨⟨v1, ip⟩, h1, h⟩ := bind_ok h
  obtain ⟨v2, h2, h⟩ := bind_ok h
  cases h
  exact .mk hno hpar ht (Or.inr rfl) h1 h2

/-- The file that has just been entered is in no tree from before. -/
theorem Created.not_sameTree {v1 : Vfs} {hist : Hist} (hf : FileInv v hist) (h : Created v path v1)
    (hs : SameMeta v1 v') : ¬SameTree v v' := by
  intro ht
  obtain ⟨dir, name, -, -, -, hg⟩ := h.grown hf
  have hn := ht.ninode
  rw [hs.ninode, hg.ninode] at hn
  omega

theorem sameTree_truncInode (h : namei v path = some ip) :
    SameTree v (truncInode v ip flags) ↔ ¬Truncates v path flags := by
  have hsize : Truncates v path flags ↔
      flags &&& oTrunc ≠ 0 ∧ (v.inodes ip).type = .file ∧ (v.inodes ip).size ≠ 0 := by
    constructor
    · rintro ⟨hflag, ip', h', ht, hs⟩
      cases h.symm.trans h'
      exact ⟨hflag, ht, hs⟩
    · exact fun ⟨hflag, ht, hs⟩ => ⟨hflag, ip, h, ht, hs⟩
  rw [hsize]
  unfold truncInode
  split
  · next hc =>
    constructor
    · rintro ⟨-, -, hi⟩ ⟨-, -, hs⟩
      have hz := congrFun hi ip
      rw [setInode_self] at hz
      exact hs (congrArg Inode.size hz).symm
    · intro hn
      have hs : (v.inodes ip).size = 0 := not_not.mp fun hs => hn ⟨hc.1, hc.2, hs⟩
      refine ⟨rfl, rfl, ?_⟩
      rw [← hs]
      exact Function.update_eq_self ip v.inodes
  · next hc => exact iff_of_true (SameTree.refl v) fun ⟨hflag, ht, _⟩ => hc ⟨hflag, ht⟩

theorem SameTree.cancel {v'' : Vfs} (h : SameTree v' v'') : SameTree v v'' ↔ SameTree v v' :=
  ⟨fun h' => h'.trans ⟨h.mounts.symm, h.ninode.symm, h.inodes.symm⟩, fun h' => h'.trans h⟩

theorem sameTree_vfsOpen {hist : Hist} (hf : FileInv v hist) (h : vfsOpen v p mem path flags = .ok (v', p', r)) :
    SameTree v v' ↔ ¬Creates v path flags ∧ ¬Truncates v path flags := by
  cases hno : namei v path with
  | some ip =>
    have hc : ¬Creates v path flags := fun hc => by cases hno.symm.trans hc.1
    rw [and_iff_right hc, ← sameTree_truncInode hno]
    obtain ⟨r1, h1, h⟩ := bind_ok h
    cases (openInode_found hno).symm.trans h1
    simp only at h
    split at h
    · next hdir =>
      -- a directory is not opened for writing, and `O_TRUNC` does nothing to it
      cases h
      have htr : truncInode v ip flags = v := if_neg fun ht => by
        rw [hdir.1] at ht
        cases ht.2
      rw [htr]
    · exact (sameTree_openFile (pure_eq_ok.mp h)).cancel
  | none =>
    have ht : ¬Truncates v path flags := fun ⟨_, ip, hip, _⟩ => by cases hno.symm.trans hip
    rw [and_iff_left ht]
    by_cases hc : Creates v path flags
    · obtain ⟨v1, o, h1, hs⟩ := vfsOpen_ok h
      exact iff_of_false ((openInode_creates hc h1).not_sameTree hf hs) (not_not.mpr hc)
    · obtain ⟨r1, h1, h⟩ := bind_ok h
      cases (openInode_stays hno hc).symm.trans h1
      cases h
      exact iff_of_true (SameTree.refl v) hc

end

/-- A call of `vfs_open` that returns -1 leaves everything as it was iff it neither made nor emptied a file. -/
theorem failed_open_iff {mem : Nat → Mem} {progs : List (List UInt8 × List UInt8)} {v v' : Vfs} {as : List VfsAct}
    {s : VfsSys} {p flags : Nat} {m : Mem} {path : CStr} {f' : Files} (hinit : vfsInit mem progs = .ok v)
    (hr : run VfsSys.step (VfsSys.init v) as = some s) (hp : p ∈ s.procs)
    (h : vfsOpen s.vfs (s.files p) m path flags = .ok (v', f', -1)) :
    ∃ s', s.step (.call p (.sysOpen m path flags)) = some s' ∧ s'.vfs = v' ∧
      (SameFiles s s' ↔ ¬Creates s.vfs path flags ∧ ¬Truncates s.vfs path flags) := by
  obtain ⟨hv, -, -⟩ := reach_files hinit hr
  obtain ⟨hrefs, hfds⟩ := (keeps_vfsOpen h).2 rfl
  have hstep : s.step (.call p (.sysOpen m path flags)) =
      some { s.set p v' f' false with hist := logCall s.vfs (s.files p) s.hist (.sysOpen m path flags) } := by
    simp only [VfsSys.step, if_pos hp, vfsCall, h]
  refine ⟨_, hstep, rfl, ?_⟩
  rw [← sameTree_vfsOpen hv h]
  refine ⟨fun hs => hs.tree, fun ht => ⟨ht, hrefs, fun q => ?_⟩⟩
  subst hfds
  exact congrArg Files.ofile (congrFun (Function.update_eq_self p s.files) q)

def fullRun : List VfsAct := .spawn 1 :: List.replicate 13 (.call 1 (.sysDup 0))

def fullWriteRun : List VfsAct :=
  [.spawn 1, .call 1 (.sysOpen (some fun _ => 0) ⟨bytes "/tmp/a", []⟩ (oCreate ||| oRdwr)),
    .call 1 (.sysWrite (some fun _ => 0) 3 (fun _ => 9) 3)] ++ List.replicate 12 (.call 1 (.sysDup 0))

theorem failed_open_missing : ∃ s v' f', run VfsSys.step (VfsSys.init bootVfs) fullRun = some s ∧ 1 ∈ s.procs ∧
    vfsOpen s.vfs (s.files 1) none ⟨bytes "/tmp/b", []⟩ 0 = .ok (v', f', -1) ∧
    ∃ s', s.step (.call 1 (.sysOpen none ⟨bytes "/tmp/b", []⟩ 0)) = some s' ∧ s'.vfs = v' ∧ SameFiles s s' := by
  have hs : (run VfsSys.step (VfsSys.init bootVfs) fullRun).any (fun s => 1 ∈ s.procs ∧
      (vfsOpen s.vfs (s.files 1) none ⟨bytes "/tmp/b", []⟩ 0).toOption.any fun r => r.2.2 = -1) = true := by
    decide +kernel
  obtain ⟨s, ⟨v', f', r⟩, hs, hp, hopen, rfl⟩ := any_call hs
  obtain ⟨s', hs', hv, hsame⟩ := failed_open_iff vfsInit_boot hs hp hopen
  -- without flags the call asks for neither
  exact ⟨s, v', f', hs, hp, hopen, s', hs', hv, hsame.mpr ⟨fun hc => hc.2.1 rfl, fun ht => ht.1 rfl⟩⟩

/-- Without a free descriptor the new file stays in `/tmp`, and the old one is empty. -/
theorem failed_open_leaves_traces :
    (∃ s v' f', run VfsSys.step (VfsSys.init bootVfs) fullRun = some s ∧
      vfsOpen s.vfs (s.files 1) (some fun _ => 0) ⟨bytes "/tmp/b", []⟩ oCreate = .ok (v', f', -1) ∧
      namei s.vfs ⟨bytes "/tmp/b", []⟩ = none ∧ namei v' ⟨bytes "/tmp/b", []⟩ = some 14) ∧
    ∃ s v' f', run VfsSys.step (VfsSys.init bootVfs) fullWriteRun = some s ∧
      vfsOpen s.vfs (s.files 1) none ⟨bytes "/tmp/a", []⟩ (oTrunc ||| oRdwr) = .ok (v', f', -1) ∧
      namei s.vfs ⟨bytes "/tmp/a", []⟩ = some 14 ∧ (s.vfs.inodes 14).size = 3 ∧ (v'.inodes 14).size = 0 := by
  have hnew : (run VfsSys.step (VfsSys.init bootVfs) fullRun).any (fun s =>
      namei s.vfs ⟨bytes "/tmp/b", []⟩ = none ∧
      (vfsOpen s.vfs (s.files 1) (some fun _ => 0) ⟨bytes "/tmp/b", []⟩ oCreate).toOption.any fun r =>
        r.2.2 = -1 ∧ namei r.1 ⟨bytes "/tmp/b", []⟩ = some 14) = true := by decide +kernel
  have hold : (run VfsSys.step (VfsSys.init bootVfs) fullWriteRun).any (fun s =>
      (namei s.vfs ⟨bytes "/tmp/a", []⟩ = some 14 ∧ (s.vfs.inodes 14).size = 3) ∧
      (vfsOpen s.vfs (s.files 1) none ⟨bytes "/tmp/a", []⟩ (oTrunc ||| oRdwr)).toOption.any fun r =>
        r.2.2 = -1 ∧ (r.1.inodes 14).size = 0) = true := by decide +kernel
  constructor
  · obtain ⟨s, ⟨v', f', r⟩, hs, hno, hopen, rfl, hsome⟩ := any_call hnew
    exact ⟨s, v', f', hs, hopen, hno, hsome⟩
  · obtain ⟨s, ⟨v', f', r⟩, hs, ⟨hip, hsize⟩, hopen, rfl, hzero⟩ := any_call hold
    exact ⟨s, v', f', hs, hopen, hip, hsize, hzero⟩

end NjuOs
