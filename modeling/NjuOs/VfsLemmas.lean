import NjuOs.Vfs

/-!
# What the file system's operations do

Small lemmas on table entries and inodes, one specification for each allocation, the steps
`vfs_init` is made of, and what a step of the system is.
-/

namespace NjuOs

open Function

section
variable {v v' : Vfs} {p p' : Files}

@[simp] theorem setFile_self (v : Vfs) (f : Nat) (x : File) : (v.setFile f x).ftable f = x :=
  update_self ..

theorem setFile_ne (v : Vfs) {f i : Nat} (x : File) (h : i ≠ f) : (v.setFile f x).ftable i = v.ftable i :=
  update_of_ne h ..

theorem setFile_setFile (v : Vfs) (f : Nat) (x y : File) : (v.setFile f x).setFile f y = v.setFile f y := by
  simp only [Vfs.setFile, update_idem]

@[simp] theorem setInode_self (v : Vfs) (i : Nat) (x : Inode) : (v.setInode i x).inodes i = x :=
  update_self ..

theorem setInode_ne (v : Vfs) {i j : Nat} (x : Inode) (h : j ≠ i) : (v.setInode i x).inodes j = v.inodes j :=
  update_of_ne h ..

/-! ## Allocation -/

theorem falloc_some {f : Nat} (h : falloc v = (v', some f)) :
    f < nfile ∧ (v.ftable f).ref = 0 ∧ v' = v.setFile f ⟨none, 0, false, false, 1⟩ := by
  unfold falloc at h
  split at h
  · cases h
  · rename_i i hi
    cases h
    exact ⟨List.mem_range.mp (List.mem_of_find?_eq_some hi), by simpa using List.find?_some hi, rfl⟩

theorem falloc_none (h : falloc v = (v', none)) : v' = v := by
  unfold falloc at h
  split at h
  · cases h; rfl
  · cases h

theorem fdalloc_some {f fd : Nat} (h : fdalloc p f = (p', some fd)) :
    fd < procNofile ∧ p.ofile fd = none ∧ p' = p.setFd fd (some f) := by
  unfold fdalloc at h
  split at h
  · cases h
  · rename_i i hi
    cases h
    exact ⟨List.mem_range.mp (List.mem_of_find?_eq_some hi), by simpa using List.find?_some hi, rfl⟩

theorem fdalloc_none {f : Nat} (h : fdalloc p f = (p', none)) : p' = p := by
  unfold fdalloc at h
  split at h
  · cases h; rfl
  · cases h

theorem getfile_some {f : Nat} {fd : Int} (h : getfile p fd = some f) :
    fd.toNat < procNofile ∧ p.ofile fd.toNat = some f := by
  unfold getfile at h
  split at h
  · cases h
  · exact ⟨by omega, h⟩

theorem ialloc_ok {mem : Mem} {type : IType} {i : Nat} (h : ialloc v mem type = .ok (v', i)) :
    i = v.ninode ∧ v' = { v.setInode i (freshInode type v.nextIno) with
      ninode := v.ninode + 1, nextIno := v.nextIno + 1 } := by
  cases mem with
  | none => cases h
  | some m => cases h; exact ⟨rfl, rfl⟩

theorem dirAdd_ok {dir ip : Nat} {name : List UInt8} (h : dirAdd v dir name ip = .ok v') :
    v' = v.setInode dir { v.inodes dir with
      ent := (v.inodes dir).ent ++ [(name.take (nameLen - 1), ip)] } := by
  unfold dirAdd at h
  simp only at h
  split at h
  · cases h
  · cases h; rfl

end

/-! ## Initialisation -/

inductive InitStep (mem : Nat → Mem) (v : Vfs) : Vfs → Prop
  | alloc {type : IType} {i : Nat} {v' : Vfs} (ht : type = .dir ∨ type = .file)
      (h : initInode mem v type = .ok (v', i)) : InitStep mem v v'
  | dev {i : Nat} {v' : Vfs} (rd : DevRead) (wr : DevWrite) (h : initInode mem v .dev = .ok (v', i)) :
      InitStep mem v (v'.setInode i { v'.inodes i with devRead := some rd, devWrite := some wr })
  | proc {i : Nat} {v' : Vfs} (g : ProcGen) (h : initInode mem v .proc = .ok (v', i)) :
      InitStep mem v (v'.setInode i { v'.inodes i with procGen := some g })
  | entry {dir ip : Nat} {name : List UInt8} {v' : Vfs} (hip : ip < v.ninode)
      (h : dirAdd v dir name ip = .ok v') : InitStep mem v v'
  | contents {i : Nat} {ip : Inode} {data d : List UInt8} (hi : i < v.ninode)
      (hfresh : ∃ n, v.inodes i = freshInode .file n)
      (hg : igrow (v.inodes i) (mem (2 * i + 1)) (i32 data.length) = .ok ip)
      (hd : blit (ip.data.getD []) 0 data = .ok d) :
      InitStep mem v (v.setInode i { ip with data := ip.data.map fun _ => d, size := i32 data.length })
  | mount {path : List UInt8} {root : Nat} (h : root < v.ninode) : InitStep mem v (mount v path root)

theorem initInode_lt {mem : Nat → Mem} {v v' : Vfs} {type : IType} {i : Nat}
    (h : initInode mem v type = .ok (v', i)) : v.ninode ≤ v'.ninode ∧ i < v'.ninode := by
  obtain ⟨rfl, rfl⟩ := ialloc_ok h
  exact ⟨Nat.le_succ _, Nat.lt_succ_self _⟩

section
variable {mem : Nat → Mem} {P : Vfs → Prop} (hstep : ∀ v v', P v → InitStep mem v v' → P v')
include hstep

theorem initInode_inv {v v' : Vfs} {type : IType} {i : Nat} (hv : P v) (ht : type = .dir ∨ type = .file)
    (h : initInode mem v type = .ok (v', i)) : P v' ∧ v.ninode ≤ v'.ninode ∧ i < v'.ninode :=
  ⟨hstep v v' hv (.alloc ht h), initInode_lt h⟩

theorem dirAdd_inv {v v' : Vfs} {dir ip : Nat} {name : List UInt8} (hv : P v) (hip : ip < v.ninode)
    (h : dirAdd v dir name ip = .ok v') : P v' ∧ v.ninode ≤ v'.ninode := by
  refine ⟨hstep v v' hv (.entry hip h), ?_⟩
  rw [dirAdd_ok h]
  exact Nat.le_refl _

theorem addDir_inv {v v' : Vfs} {dir ip : Nat} {name : List UInt8} (hv : P v)
    (h : addDir mem v dir name = .ok (v', ip)) : P v' ∧ v.ninode ≤ v'.ninode ∧ ip < v'.ninode := by
  obtain ⟨⟨v1, i⟩, h1, h⟩ := bind_ok h
  obtain ⟨v2, h2, h⟩ := bind_ok h
  cases h
  obtain ⟨hp1, hle1, hi⟩ := initInode_inv hstep hv (Or.inl rfl) h1
  obtain ⟨hp2, hle2⟩ := dirAdd_inv hstep hp1 hi h2
  exact ⟨hp2, Nat.le_trans hle1 hle2, Nat.lt_of_lt_of_le hi hle2⟩

theorem addProg_inv {v v' : Vfs} {bin : Nat} {name data : List UInt8} (hv : P v)
    (h : addProg mem v bin name data = .ok v') : P v' ∧ v.ninode ≤ v'.ninode := by
  obtain ⟨⟨v1, i⟩, h1, h⟩ := bind_ok h
  obtain ⟨ip, hg, h⟩ := bind_ok h
  obtain ⟨d, hd, h⟩ := bind_ok h
  obtain ⟨hp1, hle1, hi⟩ := initInode_inv hstep hv (Or.inr rfl) h1
  have hfresh : ∃ n, v1.inodes i = freshInode .file n := by
    obtain ⟨-, rfl⟩ := ialloc_ok h1
    exact ⟨v.nextIno, setInode_self v i _⟩
  obtain ⟨hp2, hle2⟩ := dirAdd_inv hstep (hstep _ _ hp1 (.contents hi hfresh hg hd)) hi h
  exact ⟨hp2, Nat.le_trans hle1 hle2⟩

theorem addProgs_inv {bin : Nat} : ∀ {progs : List (List UInt8 × List UInt8)} {v v' : Vfs}, P v →
    addProgs mem bin progs v = .ok v' → P v' ∧ v.ninode ≤ v'.ninode
  | [], v, v', hv, h => by cases h; exact ⟨hv, Nat.le_refl _⟩
  | (name, data) :: ps, v, v', hv, h => by
    obtain ⟨v1, h1, h⟩ := bind_ok h
    obtain ⟨hp1, hle1⟩ := addProg_inv hstep hv h1
    obtain ⟨hp2, hle2⟩ := addProgs_inv hp1 h
    exact ⟨hp2, Nat.le_trans hle1 hle2⟩

theorem mkdev_inv {v v' : Vfs} {dir : Nat} {name : List UInt8} {rd : DevRead} {wr : DevWrite} (hv : P v)
    (h : mkdev mem v dir name rd wr = .ok v') : P v' ∧ v.ninode ≤ v'.ninode := by
  obtain ⟨⟨v1, i⟩, h1, h⟩ := bind_ok h
  obtain ⟨hle1, hi⟩ := initInode_lt h1
  obtain ⟨hp2, hle2⟩ := dirAdd_inv hstep (hstep _ _ hv (.dev rd wr h1)) hi h
  exact ⟨hp2, Nat.le_trans hle1 hle2⟩

theorem mkproc_inv {v v' : Vfs} {dir : Nat} {name : List UInt8} {g : ProcGen} (hv : P v)
    (h : mkproc mem v dir name g = .ok v') : P v' ∧ v.ninode ≤ v'.ninode := by
  obtain ⟨⟨v1, i⟩, h1, h⟩ := bind_ok h
  obtain ⟨hle1, hi⟩ := initInode_lt h1
  obtain ⟨hp2, hle2⟩ := dirAdd_inv hstep (hstep _ _ hv (.proc g h1)) hi h
  exact ⟨hp2, Nat.le_trans hle1 hle2⟩

theorem vfsInit_inv {progs : List (List UInt8 × List UInt8)} {v : Vfs} (h0 : P vfsBlank)
    (h : vfsInit mem progs = .ok v) : P v ∧ v.mounts ≠ [] := by
  obtain ⟨⟨v1, root⟩, h1, h⟩ := bind_ok h
  obtain ⟨⟨v2, i2⟩, h2, h⟩ := bind_ok h
  obtain ⟨⟨v3, bin⟩, h3, h⟩ := bind_ok h
  obtain ⟨⟨v4, i4⟩, h4, h⟩ := bind_ok h
  obtain ⟨⟨v5, i5⟩, h5, h⟩ := bind_ok h
  obtain ⟨v6, h6, h⟩ := bind_ok h
  obtain ⟨⟨v7, dev⟩, h7, h⟩ := bind_ok h
  obtain ⟨v8, h8, h⟩ := bind_ok h
  obtain ⟨v9, h9, h⟩ := bind_ok h
  obtain ⟨v10, h10, h⟩ := bind_ok h
  obtain ⟨v11, h11, h⟩ := bind_ok h
  obtain ⟨⟨v12, proc⟩, h12, h⟩ := bind_ok h
  obtain ⟨v13, h13, h⟩ := bind_ok h
  obtain ⟨v14, h14, h⟩ := bind_ok h
  obtain ⟨v15, h15, h⟩ := bind_ok h
  cases h
  obtain ⟨p1, -, hroot⟩ := initInode_inv hstep h0 (Or.inl rfl) h1
  obtain ⟨p2, -⟩ := addDir_inv hstep (hstep _ _ p1 (.mount hroot)) h2
  obtain ⟨p3, -⟩ := addDir_inv hstep p2 h3
  obtain ⟨p4, -⟩ := addDir_inv hstep p3 h4
  obtain ⟨p5, -⟩ := addDir_inv hstep p4 h5
  obtain ⟨p6, -⟩ := addProgs_inv hstep p5 h6
  obtain ⟨p7, -, hdev⟩ := initInode_inv hstep p6 (Or.inl rfl) h7
  obtain ⟨p8, l8⟩ := mkdev_inv hstep p7 h8
  obtain ⟨p9, l9⟩ := mkdev_inv hstep p8 h9
  obtain ⟨p10, l10⟩ := mkdev_inv hstep p9 h10
  obtain ⟨p11, l11⟩ := mkdev_inv hstep p10 h11
  obtain ⟨p12, -, hproc⟩ := initInode_inv hstep (hstep _ _ p11 (.mount (by omega))) (Or.inl rfl) h12
  obtain ⟨p13, l13⟩ := mkproc_inv hstep p12 h13
  obtain ⟨p14, l14⟩ := mkproc_inv hstep p13 h14
  obtain ⟨p15, l15⟩ := mkproc_inv hstep p14 h15
  exact ⟨hstep _ _ p15 (.mount (by omega)), by simp [mount]⟩

end

/-! ## Steps -/

inductive VfsMove (s : VfsSys) : VfsAct → VfsSys → Prop
  | call {p : Nat} {c : VfsCall} {v : Vfs} {f : Files} {r : Int} (hp : p ∈ s.procs)
      (h : vfsCall s.vfs (s.files p) c = .ok (v, f, r)) :
      VfsMove s (.call p c) { s.set p v f false with hist := logCall s.vfs (s.files p) s.hist c }
  | spawn {p : Nat} (hp : p ∉ s.procs) : VfsMove s (.spawn p)
      { s.set p (vfsSetupStdio s.vfs freshFiles).1 (vfsSetupStdio s.vfs freshFiles).2 false with
        procs := p :: s.procs }
  | fork {p child : Nat} (hp : p ∈ s.procs) (hc : child ∉ s.procs) : VfsMove s (.fork p child)
      { s.set child (vfsFork s.vfs (s.files p) freshFiles).1 (vfsFork s.vfs (s.files p) freshFiles).2 false with
        procs := child :: s.procs }
  | closeAll {p : Nat} (hp : p ∈ s.procs) : VfsMove s (.closeAll p)
      (s.set p (vfsCloseAll s.vfs (s.files p)).1 (vfsCloseAll s.vfs (s.files p)).2 true)
  | discard {p : Nat} (hp : p ∈ s.procs) (hc : s.closed p = true) :
      VfsMove s (.discard p) { s with procs := s.procs.erase p }

theorem VfsSys.move {s s' : VfsSys} {a : VfsAct} (h : s.step a = some s') : VfsMove s a s' := by
  unfold step at h
  split at h
  · split at h
    · next hp =>
      split at h
      · cases h
      · next hc => cases h; exact .call hp hc
    · cases h
  all_goals split at h
  · cases h
  · next hp => cases h; exact .spawn hp
  · next hp => cases h; exact .fork hp.1 hp.2
  · cases h
  · next hp => cases h; exact .closeAll hp
  · cases h
  · next hp => cases h; exact .discard hp.1 hp.2
  · cases h

def bootMem : Nat → Mem := fun _ => some fun _ => 0

def bootVfs : Vfs := (vfsInit bootMem []).toOption.getD vfsBlank

theorem vfsInit_boot : vfsInit bootMem [] = .ok bootVfs := rfl

end NjuOs
