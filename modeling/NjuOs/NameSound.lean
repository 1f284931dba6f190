import NjuOs.DirLemmas

/-!
# Directories as finite maps

`vfs_open` and `vfs_mkdir` look a name up before they enter it; `vfs_link` enters whatever its
second path says, beside an entry of that name and even into a regular file. Where `LinkSafe`
excludes the two, directories are finite maps and `namei` follows them.
-/

namespace NjuOs

open List

structure Namespace (v : Vfs) : Prop where
  dirs : ∀ i, (v.inodes i).ent ≠ [] → (v.inodes i).type = .dir
  names : ∀ i, (v.names i).Nodup

/-- A `link` that adds an entry adds a name that does not exist yet, to a directory. -/
def LinkSafe (v : Vfs) (a b : CStr) : Prop :=
  ∀ ip ∈ namei v a, (v.inodes ip).type ≠ .dir →
    ∀ r ∈ nameiParent v b, (v.inodes r.1).type = .dir ∧ namei v b = none

instance (v : Vfs) (a b : CStr) : Decidable (LinkSafe v a b) := inferInstanceAs (Decidable (∀ _ ∈ _, _ → ∀ _ ∈ _, _))

def NameSafe (s : VfsSys) : VfsAct → Prop
  | .call _ (.sysLink a b) => LinkSafe s.vfs a b
  | _ => True

instance (s : VfsSys) (a : VfsAct) : Decidable (NameSafe s a) := by
  unfold NameSafe
  split <;> infer_instance

/-! ## Walks -/

def lookupsLoop (v : Vfs) : Nat → Nat → List UInt8 → List (Nat × List UInt8)
  | 0, _, _ => []
  | fuel + 1, ip, rest =>
    if rest = [] ∨ (nextcomp rest).1 = [] then []
    else
      (ip, (nextcomp rest).1) ::
        match dirLookup v ip (nextcomp rest).1 with
        | none => []
        | some j => lookupsLoop v fuel j (nextcomp rest).2

def lookups (v : Vfs) (path : CStr) : List (Nat × List UInt8) :=
  lookupsLoop v (resolveMount v path).2.length (resolveMount v path).1 (resolveMount v path).2

section
variable {v v' : Vfs}

theorem nameiLoop_congr : ∀ (fuel ip : Nat) (rest : List UInt8),
    (∀ x ∈ lookupsLoop v fuel ip rest, dirLookup v' x.1 x.2 = dirLookup v x.1 x.2) →
      nameiLoop v' fuel ip rest = nameiLoop v fuel ip rest
  | 0, _, _, _ => rfl
  | fuel + 1, ip, rest, h => by
    rw [nameiLoop_succ, nameiLoop_succ]
    by_cases hc : rest = [] ∨ (nextcomp rest).1 = []
    · rw [if_pos hc, if_pos hc]
    rw [if_neg hc, if_neg hc]
    rw [lookupsLoop, if_neg hc] at h
    rw [h (ip, (nextcomp rest).1) (mem_cons_self ..)]
    cases hl : dirLookup v ip (nextcomp rest).1 with
    | none => rfl
    | some j =>
      refine nameiLoop_congr fuel j _ fun x hx => h x (mem_cons_of_mem _ ?_)
      simp only [hl]
      exact hx

/-- A path whose lookups are all answered as before leads where it led before. -/
theorem namei_congr (hm : v'.mounts = v.mounts) {path : CStr}
    (h : ∀ x ∈ lookups v path, dirLookup v' x.1 x.2 = dirLookup v x.1 x.2) : namei v' path = namei v path := by
  unfold namei
  rw [resolveMount_congr hm]
  exact nameiLoop_congr _ _ _ h

end

/-! ## Entries -/

section
variable {v v' : Vfs} {dir ip : Nat} {name : List UInt8}

theorem SameDirs.inv (h : SameDirs v v') (hv : Namespace v) : Namespace v' where
  dirs := by
    intro i hi
    rw [h.ent] at hi
    rw [h.type]
    exact hv.dirs i hi
  names := by
    intro i
    rw [Vfs.names, h.ent]
    exact hv.names i

theorem Entered.inv (h : Entered dir name ip v v') (hv : Namespace v) (ht : (v.inodes dir).type = .dir)
    (hn : name ∉ v.names dir) : Namespace v' where
  dirs := by
    intro i hi
    rw [h.type i hi]
    by_cases hd : i = dir
    · rw [hd]; exact ht
    · refine hv.dirs i fun he => hi ?_
      rcases h.other i hd with ho | ho
      · rw [ho]; exact he
      · exact ho
  names := by
    intro i
    by_cases hd : i = dir
    · subst hd
      rw [Vfs.names, h.self, map_append]
      refine nodup_append'.mpr ⟨hv.names i, nodup_singleton _, ?_⟩
      intro x hx hx'
      rw [mem_singleton.mp hx'] at hx
      exact hn hx
    · rcases h.other i hd with ho | ho
      · rw [Vfs.names, ho]; exact hv.names i
      · rw [Vfs.names, ho]; exact nodup_nil

theorem Created.inv {hist : Hist} {path : CStr} (h : Created v path v') (hv : Namespace v) (hf : FileInv v hist) :
    Namespace v' := by
  obtain ⟨dir, name, hno, hpar, ht, hg⟩ := h.grown hf
  have hlook := (namei_eq_dirLookup hpar).symm.trans hno
  exact hg.entered.inv hv ht (dirLookup_none ht hlook)

theorem LinkSafe.free {a b : CStr} (hsafe : LinkSafe v a b) (ha : namei v a = some ip)
    (ht : (v.inodes ip).type ≠ .dir) (hpar : nameiParent v b = some (dir, name)) :
    (v.inodes dir).type = .dir ∧ name ∉ v.names dir := by
  obtain ⟨hd, hno⟩ := hsafe ip ha ht _ hpar
  exact ⟨hd, dirLookup_none hd ((namei_eq_dirLookup hpar).symm.trans hno)⟩

/-- The new entry is the one that `namei` finds, and every other lookup that succeeded still does. -/
theorem namei_linked {a b : CStr} (hsafe : LinkSafe v a b) (h : NjuOs.vfsLink v a b = .ok (v', 0)) :
    namei v' b = namei v a := by
  rcases vfsLink_ok h with ⟨h0, -⟩ | ⟨-, ip, dir, name, v1, ha, ht, hpar, h1, h2⟩
  · cases h0
  have he := linkedTo_link hpar h1 h2
  obtain ⟨hd, hfree⟩ := hsafe.free ha ht hpar
  have hnew : dirLookup v' dir name = some ip := by
    have hold : (v.inodes dir).ent.find? (fun e => e.1 = name) = none := by
      refine find?_eq_none.mpr fun e hem hen => hfree ?_
      exact mem_map.mpr ⟨e, hem, by simpa using hen⟩
    rw [dirLookup_dir ((he.type dir).trans hd), he.self, find?_append, hold]
    simp
  rw [ha, ← hnew]
  refine namei_parent he.mounts (fun d n j hj => Or.inl ?_) hpar
  unfold dirLookup at hj ⊢
  rw [he.type]
  split at hj
  · cases hj
  next htd =>
  rw [if_neg htd]
  obtain ⟨e, hfind, rfl⟩ := Option.map_eq_some_iff.mp hj
  by_cases hdd : d = dir
  · subst hdd
    rw [he.self, find?_append, hfind]
    rfl
  · rw [he.other d hdd, hfind]
    rfl

theorem Unlinked.inv {dir : Nat} {name : List UInt8} (h : Unlinked dir name v v') (hv : Namespace v) :
    Namespace v' where
  dirs := by
    intro i hi
    rw [h.type]
    refine hv.dirs i fun he => hi ?_
    by_cases hd : i = dir
    · subst hd
      obtain ⟨ip, hp⟩ := h.self
      rw [he] at hp
      exact absurd hp.eq_nil (cons_ne_nil _ _)
    · rw [h.other i hd]; exact he
  names := by
    intro i
    by_cases hd : i = dir
    · subst hd
      obtain ⟨ip, hp⟩ := h.self
      have hnd := ((hp.map Prod.fst).nodup_iff).mpr (hv.names i)
      exact (nodup_cons.mp hnd).2
    · rw [Vfs.names, h.other i hd]; exact hv.names i

/-- Lookup by a name that occurs once does not depend on the order of the entries. -/
theorem find?_key_perm {α κ : Type} [DecidableEq κ] {l l' : List (κ × α)} (hp : l.Perm l')
    (hnd : (l.map Prod.fst).Nodup) (k : κ) : l.find? (fun e => e.1 = k) = l'.find? fun e => e.1 = k := by
  have hnd' := ((hp.map Prod.fst).nodup_iff).mp hnd
  cases h : l.find? (fun e => decide (e.1 = k)) with
  | none =>
    refine (find?_eq_none.mpr fun e he => ?_).symm
    exact find?_eq_none.mp h e (hp.mem_iff.mpr he)
  | some e =>
    have hm := hp.mem_iff.mp (mem_of_find?_eq_some h)
    have hk : e.1 = k := by simpa using find?_some h
    cases h' : l'.find? (fun e => decide (e.1 = k)) with
    | none => exact absurd (by simpa using hk) (find?_eq_none.mp h' e hm)
    | some e' =>
      have hk' : e'.1 = k := by simpa using find?_some h'
      rw [inj_on_of_nodup_map hnd' hm (mem_of_find?_eq_some h') (hk.trans hk'.symm)]

theorem Unlinked.lookup {dir : Nat} {name : List UInt8} (h : Unlinked dir name v v') (hv : Namespace v) :
    dirLookup v' dir name = none ∧ ∀ d n, (d, n) ≠ (dir, name) → dirLookup v' d n = dirLookup v d n := by
  obtain ⟨ip, hp⟩ := h.self
  have hnd := ((hp.map Prod.fst).nodup_iff).mpr (hv.names dir)
  constructor
  · have hnone : (v'.inodes dir).ent.find? (fun e => e.1 = name) = none := by
      refine find?_eq_none.mpr fun e he hen => (nodup_cons.mp hnd).1 ?_
      exact mem_map.mpr ⟨e, he, by simpa using hen⟩
    unfold dirLookup
    rw [hnone]
    exact ite_self _
  · intro d n hne
    unfold dirLookup
    rw [h.type]
    by_cases hd : d = dir
    · subst hd
      have hn : name ≠ n := fun he => hne (by rw [he])
      rw [← find?_key_perm hp hnd, find?_cons_of_neg (by simpa using hn)]
    · rw [h.other d hd]

/-- The path is gone, whichever of its lookups the entry answered. -/
theorem Unlinked.namei {dir : Nat} {name : List UInt8} {path : CStr} (h : Unlinked dir name v v') (hv : Namespace v)
    (hpar : nameiParent v path = some (dir, name)) : namei v' path = none := by
  obtain ⟨hgone, hsame⟩ := h.lookup hv
  rw [← hgone]
  refine namei_parent h.mounts (fun d n j hj => ?_) hpar
  by_cases he : (d, n) = (dir, name)
  · cases he
    exact Or.inr ⟨hgone, hgone⟩
  · exact Or.inl ((hsame d n he).trans hj)

end

theorem Namespace.step {s s' : VfsSys} {a : VfsAct} (hv : Namespace s.vfs) (hf : FileInv s.vfs s.hist)
    (hsafe : NameSafe s a) (h : s.step a = some s') : Namespace s'.vfs := by
  cases step_dirs h with
  | same h => exact h.sameLinks.toSameDirs.inv hv
  | create h hs => exact hs.sameLinks.toSameDirs.inv (h.inv hv hf)
  | link ha ht hpar h1 h2 =>
    obtain ⟨hd, hfree⟩ := LinkSafe.free hsafe ha ht hpar
    exact (linkedTo_link hpar h1 h2).entered.inv hv hd hfree
  | unlink hpar hperm h1 h2 => exact (unlinked_of hperm h1 h2).inv hv

/-! ## Initialisation -/

structure Installed (dir : Nat) (name : List UInt8) (v v' : Vfs) : Prop where
  ninode : v'.ninode = v.ninode + 1
  self : v'.names dir = v.names dir ++ [name.take (nameLen - 1)]
  other : ∀ i, i ≠ dir → i ≠ v.ninode → v'.names i = v.names i
  fresh : v'.names v.ninode = []
  type : ∀ i, i ≠ v.ninode → (v'.inodes i).type = (v.inodes i).type

section
variable {mem : Nat → Mem} {v v1 v' : Vfs} {dir ip : Nat} {name : List UInt8} {type : IType}

theorem names_nil {i : Nat} : v.names i = [] ↔ (v.inodes i).ent = [] := map_eq_nil_iff

theorem Installed.inv (h : Installed dir name v v') (hv : Namespace v) (hd : dir < v.ninode)
    (ht : (v.inodes dir).type = .dir) (hn : name.take (nameLen - 1) ∉ v.names dir) : Namespace v' where
  dirs := by
    intro i hi
    have hi' : i ≠ v.ninode := by
      rintro rfl
      exact hi (names_nil.mp h.fresh)
    rw [h.type i hi']
    by_cases hdi : i = dir
    · rw [hdi]; exact ht
    · refine hv.dirs i fun he => hi (names_nil.mp ?_)
      rw [h.other i hdi hi']
      exact names_nil.mpr he
  names := by
    intro i
    by_cases hdi : i = dir
    · subst hdi
      rw [h.self]
      refine nodup_append'.mpr ⟨hv.names i, nodup_singleton _, ?_⟩
      intro x hx hx'
      rw [mem_singleton.mp hx'] at hx
      exact hn hx
    · by_cases hi : i = v.ninode
      · rw [hi, h.fresh]; exact nodup_nil
      · rw [h.other i hdi hi]; exact hv.names i

theorem initInode_dirs (h : initInode mem v type = .ok (v', ip)) : ip = v.ninode ∧ v'.ninode = v.ninode + 1 ∧
    (v'.inodes ip).type = type ∧ v'.names ip = [] ∧ ∀ i, i ≠ ip → v'.inodes i = v.inodes i := by
  obtain ⟨hip, rfl⟩ := ialloc_ok h
  refine ⟨hip, rfl, ?_, ?_, fun i hi => setInode_ne v _ hi⟩
  · exact congrArg Inode.type (setInode_self v ip _)
  · exact names_nil.mpr (congrArg Inode.ent (setInode_self v ip _))

theorem Install.installed (hd : dir < v.ninode) (h : Install mem dir name v type ip v') :
    ip = v.ninode ∧ (v'.inodes ip).type = type ∧ Installed dir name v v' := by
  obtain ⟨hg, ht⟩ := h.grown hd
  have hip := hg.number
  subst hip
  refine ⟨rfl, ht, hg.ninode, ?_, fun i hi hi' => ?_, names_nil.mpr hg.fresh, hg.type⟩
  · rw [Vfs.names, hg.self, map_append]
    rfl
  · rw [Vfs.names, hg.other i hi hi']
    rfl

structure Filling (v : Vfs) (dir : Nat) (l : List (List UInt8)) : Prop where
  names : Namespace v
  lt : dir < v.ninode
  type : (v.inodes dir).type = .dir
  list : v.names dir = l

theorem Filling.install {l : List (List UInt8)} (h : Filling v dir l) (hi : Installed dir name v v')
    (hn : name.take (nameLen - 1) ∉ l) : Filling v' dir (l ++ [name.take (nameLen - 1)]) := by
  have hlt := h.lt
  refine ⟨hi.inv h.names h.lt h.type (by rw [h.list]; exact hn), by rw [hi.ninode]; omega, ?_, ?_⟩
  · rw [hi.type dir (by omega)]; exact h.type
  · rw [hi.self, h.list]

theorem Filling.start (hv : Namespace v) (h : initInode mem v .dir = .ok (v', dir)) : Filling v' dir [] := by
  obtain ⟨rfl, hnode, htype, hnil, hold⟩ := initInode_dirs h
  refine ⟨⟨fun i hi => ?_, fun i => ?_⟩, by omega, htype, hnil⟩
  · by_cases he : i = v.ninode
    · rw [he]; exact htype
    · rw [hold i he] at hi ⊢
      exact hv.dirs i hi
  · by_cases he : i = v.ninode
    · rw [he, hnil]; exact nodup_nil
    · rw [Vfs.names, hold i he]
      exact hv.names i

theorem Filling.mount {l : List (List UInt8)} (h : Filling v dir l) (path : List UInt8) (root : Nat) :
    Filling (mount v path root) dir l := ⟨⟨h.names.dirs, h.names.names⟩, h.lt, h.type, h.list⟩

theorem Filling.progs : ∀ {progs : List (List UInt8 × List UInt8)} {l : List (List UInt8)} {v : Vfs},
    Filling v dir l → (l ++ progs.map fun u => u.1.take (nameLen - 1)).Nodup →
      addProgs mem dir progs v = .ok v' → Namespace v'
  | [], l, v, h, _, hp => by cases hp; exact h.names
  | (name, data) :: ps, l, v, h, hnd, hp => by
    obtain ⟨v1, h1, hp⟩ := bind_ok hp
    have hnd' : ((l ++ [name.take (nameLen - 1)]) ++ ps.map fun u => u.1.take (nameLen - 1)).Nodup := by
      rw [append_assoc]
      exact hnd
    have hn : name.take (nameLen - 1) ∉ l := by
      intro hm
      exact (nodup_append'.mp hnd).2.2 hm (mem_cons_self ..)
    obtain ⟨ip, h1⟩ := install_addProg h1
    exact (h.install (h1.installed h.lt).2.2 hn).progs hnd' hp

end

theorem namespace_init {mem : Nat → Mem} {progs : List (List UInt8 × List UInt8)} {v : Vfs}
    (hnd : (progs.map fun u => u.1.take (nameLen - 1)).Nodup) (h : vfsInit mem progs = .ok v) : Namespace v := by
  obtain ⟨⟨v1, root⟩, h1, h⟩ := bind_ok h
  obtain ⟨⟨v2, i2⟩, h2, h⟩ := bind_ok h
  obtain ⟨⟨v3, bin⟩, h3, h⟩ := bind_ok h
  obtain ⟨⟨v4, i4⟩, h4, h⟩ := bind_ok h
  obtain ⟨⟨v5, i5⟩, h5, h⟩ := bind_ok h
  obtain ⟨v6, h6, h⟩ := bind_ok h
  obtain ⟨⟨v7, dev⟩, h7, h⟩ := bind_ok h
  obtain ⟨v8, h8, h⟩ := bind_ok h
  obtain ⟨v9, h9, h⟩ := bind_ok h
  obtain ⟨v10, h10, h⟩ := bind_ok h
  obtain ⟨v11, h11, h⟩ := bind_ok h
  obtain ⟨⟨v12, proc⟩, h12, h⟩ := bind_ok h
  obtain ⟨v13, h13, h⟩ := bind_ok h
  obtain ⟨v14, h14, h⟩ := bind_ok h
  obtain ⟨v15, h15, h⟩ := bind_ok h
  cases h
  obtain ⟨_, i8⟩ := install_mkdev h8
  obtain ⟨_, i9⟩ := install_mkdev h9
  obtain ⟨_, i10⟩ := install_mkdev h10
  obtain ⟨_, i11⟩ := install_mkdev h11
  obtain ⟨_, i13⟩ := install_mkproc h13
  obtain ⟨_, i14⟩ := install_mkproc h14
  obtain ⟨_, i15⟩ := install_mkproc h15
  have h0 : Namespace vfsBlank := ⟨fun _ he => absurd rfl he, fun _ => nodup_nil⟩
  -- the root directory, with /bin among its entries
  have f1 := (Filling.start h0 h1).mount (bytes "/") root
  obtain ⟨-, -, e2⟩ := (install_addDir h2).installed f1.lt
  have f2 := f1.install e2 (by decide)
  obtain ⟨hbin, tbin, e3⟩ := (install_addDir h3).installed f2.lt
  have f3 := f2.install e3 (by decide)
  obtain ⟨-, -, e4⟩ := (install_addDir h4).installed f3.lt
  have f4 := f3.install e4 (by decide)
  obtain ⟨-, -, e5⟩ := (install_addDir h5).installed f4.lt
  have f5 := f4.install e5 (by decide)
  have hroot := f2.lt
  have n3 := e3.ninode
  have n4 := e4.ninode
  have n5 := e5.ninode
  have b5 : Filling v5 bin [] := by
    refine ⟨f5.names, by omega, ?_, ?_⟩
    · rw [e5.type bin (by omega), e4.type bin (by omega)]
      exact tbin
    · rw [e5.other bin (by omega) (by omega), e4.other bin (by omega) (by omega), hbin]
      exact e3.fresh
  have p6 := b5.progs (by simpa using hnd) h6
  -- /dev
  have f7 := Filling.start p6 h7
  have f8 := f7.install (i8.installed f7.lt).2.2 (by decide)
  have f9 := f8.install (i9.installed f8.lt).2.2 (by decide)
  have f10 := f9.install (i10.installed f9.lt).2.2 (by decide)
  have f11 := f10.install (i11.installed f10.lt).2.2 (by decide)
  -- /proc
  have f12 := Filling.start (f11.mount (bytes "/dev") dev).names h12
  have f13 := f12.install (i13.installed f12.lt).2.2 (by decide)
  have f14 := f13.install (i14.installed f13.lt).2.2 (by decide)
  have f15 := f14.install (i15.installed f14.lt).2.2 (by decide)
  exact (f15.mount (bytes "/proc") proc).names

/-! ## Runs -/

/-- When the embedded programs have different names and every `link` makes a fresh name in a
directory, the entries stay a namespace on which `link` and `unlink` act as on a finite map. -/
theorem namespace_map {mem : Nat → Mem} {progs : List (List UInt8 × List UInt8)} {v : Vfs} {as : List VfsAct}
    {s : VfsSys} (hinit : vfsInit mem progs = .ok v) (hnd : (progs.map fun u => u.1.take (nameLen - 1)).Nodup)
    (hc : Along VfsSys.step NameSafe (VfsSys.init v) as) (hr : run VfsSys.step (VfsSys.init v) as = some s) :
    Namespace s.vfs ∧
    (∀ a b v', LinkSafe s.vfs a b → vfsLink s.vfs a b = .ok (v', 0) → namei v' b = namei s.vfs a) ∧
    ∀ path v', vfsUnlink s.vfs path = (v', 0) → namei v' path = none ∧
      ∃ dir name, nameiParent s.vfs path = some (dir, name) ∧
        (∀ d n, (d, n) ≠ (dir, name) → dirLookup v' d n = dirLookup s.vfs d n) ∧
        ∀ q, (dir, name) ∉ lookups s.vfs q → namei v' q = namei s.vfs q := by
  have hinv := run_inv_along (I := fun s => FileInv s.vfs s.hist ∧ Namespace s.vfs) ?_ as _ s
    ⟨fileInv_init hinit, namespace_init hnd hinit⟩ hc hr
  · refine ⟨hinv.2, fun a b v' hsafe h => namei_linked hsafe h, ?_⟩
    intro path v' h
    rcases vfsUnlink_ok h with ⟨h0, -⟩ | ⟨-, dir, name, ip, ent, v1, hpar, hperm, h1, h2⟩
    · cases h0
    have hu := unlinked_of hperm h1 h2
    have hother := (hu.lookup hinv.2).2
    refine ⟨hu.namei hinv.2 hpar, dir, name, hpar, hother, fun q hq => namei_congr hu.mounts ?_⟩
    intro x hx
    exact hother x.1 x.2 fun he => hq (he ▸ hx)
  · rintro s a s' ⟨hf, hv⟩ hsafe hs
    exact ⟨fileInv_step hf hs, hv.step hf hsafe hs⟩

def linkRun (b : String) : List VfsAct :=
  [.spawn 1, .call 1 (.sysOpen (some fun _ => 0) ⟨bytes "/tmp/x", []⟩ oCreate),
    .call 1 (.sysOpen (some fun _ => 0) ⟨bytes "/tmp/y", []⟩ oCreate),
    .call 1 (.sysLink ⟨bytes "/tmp/x", []⟩ ⟨bytes b, []⟩)]

theorem namespace_map_linked : ∃ s, run VfsSys.step (VfsSys.init bootVfs) (linkRun "/tmp/z") = some s ∧
    (s.vfs.names 1).length = 3 ∧ Namespace s.vfs ∧
    ∀ v', vfsUnlink s.vfs ⟨bytes "/tmp/y", []⟩ = (v', 0) → namei v' ⟨bytes "/tmp/y", []⟩ = none := by
  have hs : (run VfsSys.step (VfsSys.init bootVfs) (linkRun "/tmp/z")).isSome := by decide +kernel
  have hl : ∀ s ∈ run VfsSys.step (VfsSys.init bootVfs) (linkRun "/tmp/z"), (s.vfs.names 1).length = 3 := by
    decide +kernel
  have hsafe : along VfsSys.step (fun s a => decide (NameSafe s a)) (VfsSys.init bootVfs) (linkRun "/tmp/z") = true := by
    decide +kernel
  obtain ⟨s, hs⟩ := Option.isSome_iff_exists.mp hs
  have hc := Along.of_along (fun s a h => of_decide_eq_true h) hsafe
  have hmap := namespace_map vfsInit_boot (by decide) hc hs
  exact ⟨s, hs, hl s hs, hmap.1, fun v' h => (hmap.2.2 _ v' h).1⟩

/-- `link("/tmp/x", "/tmp/y")` returns 0 beside the old `/tmp/y`, which `namei` goes on finding;
`link("/tmp/x", "/tmp/y/z")` gives the regular file `/tmp/y` an entry. -/
theorem link_duplicates : ∃ s s', run VfsSys.step (VfsSys.init bootVfs) (linkRun "/tmp/y") = some s ∧
    run VfsSys.step (VfsSys.init bootVfs) (linkRun "/tmp/y/z") = some s' ∧
    (s.vfs.names 1).count (bytes "y") = 2 ∧
    namei s.vfs ⟨bytes "/tmp/y", []⟩ ≠ namei s.vfs ⟨bytes "/tmp/x", []⟩ ∧
    ∃ i, namei s'.vfs ⟨bytes "/tmp/y", []⟩ = some i ∧ (s'.vfs.inodes i).type = .file ∧
      s'.vfs.names i = [bytes "z"] := by
  have hs : (run VfsSys.step (VfsSys.init bootVfs) (linkRun "/tmp/y")).isSome := by decide +kernel
  have hs' : (run VfsSys.step (VfsSys.init bootVfs) (linkRun "/tmp/y/z")).isSome := by decide +kernel
  have hl : ∀ s ∈ run VfsSys.step (VfsSys.init bootVfs) (linkRun "/tmp/y"), (s.vfs.names 1).count (bytes "y") = 2 ∧
      namei s.vfs ⟨bytes "/tmp/y", []⟩ ≠ namei s.vfs ⟨bytes "/tmp/x", []⟩ := by decide +kernel
  have hl' : ∀ s' ∈ run VfsSys.step (VfsSys.init bootVfs) (linkRun "/tmp/y/z"),
      namei s'.vfs ⟨bytes "/tmp/y", []⟩ = some 15 ∧ (s'.vfs.inodes 15).type = .file ∧
        s'.vfs.names 15 = [bytes "z"] := by decide +kernel
  obtain ⟨s, hs⟩ := Option.isSome_iff_exists.mp hs
  obtain ⟨s', hs'⟩ := Option.isSome_iff_exists.mp hs'
  exact ⟨s, s', hs, hs', (hl s hs).1, (hl s hs).2, 15, hl' s' hs'⟩

end NjuOs
