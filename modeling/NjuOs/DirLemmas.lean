import NjuOs.FileSound

/-!
# Walks, and what the calls do to directories

`namei` and `namei_parent` as equations on the next component, and for every call one of four
things that it can do to the directories: nothing, a new inode under a new name, a second name
for an inode, one name less.
-/

namespace NjuOs

open List Option

def Vfs.names (v : Vfs) (dir : Nat) : List (List UInt8) := (v.inodes dir).ent.map Prod.fst

/-! ## Walks -/

section
variable {v v' : Vfs} {p : List UInt8}

theorem skipslash_idem (p : List UInt8) : skipslash (skipslash p) = skipslash p := by
  induction p with
  | nil => rfl
  | cons a p ih =>
    by_cases h : a = slash
    · simp only [skipslash, dropWhile_cons, h, decide_true, if_true] at ih ⊢
      exact ih
    · simp only [skipslash, dropWhile_cons, h, decide_false, Bool.false_eq_true, if_false]

theorem nextcomp_skipslash (p : List UInt8) : nextcomp (skipslash p) = nextcomp p := by
  unfold nextcomp
  rw [skipslash_idem]

theorem skipslash_length (p : List UInt8) : (skipslash p).length ≤ p.length := (dropWhile_sublist _).length_le

theorem nextcomp_name_length (p : List UInt8) : (nextcomp p).1.length ≤ nameLen - 1 := length_take_le ..

/-- A component that starts with no slash is not empty, and the rest is shorter. -/
theorem nextcomp_some (hs : skipslash p = p) (hne : p ≠ []) :
    (nextcomp p).1 ≠ [] ∧ (nextcomp p).2.length < p.length := by
  cases p with
  | nil => exact absurd rfl hne
  | cons a p =>
    have ha : a ≠ slash := by
      intro ha
      have h1 := congrArg List.length hs
      simp only [skipslash, dropWhile_cons, ha, decide_true, if_true, length_cons] at h1
      have h2 := (dropWhile_sublist (l := p) fun x => decide (x = slash)).length_le
      omega
    have hname : (nextcomp (a :: p)).1 = a :: (p.takeWhile (· ≠ slash)).take (nameLen - 2) := by
      simp only [nextcomp, hs, takeWhile_cons, ne_eq, ha, not_false_eq_true, decide_true, if_true]
      rfl
    have hrest : (nextcomp (a :: p)).2 = (a :: p).drop (nextcomp (a :: p)).1.length := by
      simp only [nextcomp, hs]
    refine ⟨by rw [hname]; exact cons_ne_nil _ _, ?_⟩
    rw [hrest, length_drop, hname, length_cons, length_cons]
    omega

theorem nextcomp_slashes (h : skipslash p = []) : (nextcomp p).1 = [] := by
  unfold nextcomp
  rw [h]
  rfl

theorem nameiLoop_succ (fuel ip : Nat) (rest : List UInt8) : nameiLoop v (fuel + 1) ip rest =
    if rest = [] ∨ (nextcomp rest).1 = [] then some ip
    else (dirLookup v ip (nextcomp rest).1).bind fun j => nameiLoop v fuel j (nextcomp rest).2 := by
  rw [nameiLoop]
  by_cases h1 : rest = []
  · rw [if_pos h1, if_pos (Or.inl h1)]
  rw [if_neg h1]
  simp only
  by_cases h2 : (nextcomp rest).1 = []
  · rw [if_pos h2, if_pos (Or.inr h2)]
  rw [if_neg h2, if_neg (not_or.mpr ⟨h1, h2⟩)]
  by_cases h3 : (v.inodes ip).type ≠ .dir
  · rw [if_pos h3, dirLookup, if_pos h3]
    rfl
  · rw [if_neg h3]
    cases dirLookup v ip (nextcomp rest).1 <;> rfl

theorem nameiParentLoop_succ (fuel ip : Nat) (rest : List UInt8) : nameiParentLoop v (fuel + 1) ip rest =
    if skipslash (nextcomp rest).2 = [] then some (ip, (nextcomp rest).1)
    else (dirLookup v ip (nextcomp rest).1).bind fun j =>
      nameiParentLoop v fuel j (skipslash (nextcomp rest).2) := by
  rw [nameiParentLoop]
  simp only
  by_cases h2 : skipslash (nextcomp rest).2 = []
  · rw [if_pos h2, if_pos h2]
  rw [if_neg h2, if_neg h2]
  by_cases h3 : (v.inodes ip).type ≠ .dir
  · rw [if_pos h3, dirLookup, if_pos h3]
    rfl
  · rw [if_neg h3]
    cases dirLookup v ip (nextcomp rest).1 <;> rfl

theorem nameiLoop_slashes (fuel ip : Nat) (h : skipslash p = []) : nameiLoop v fuel ip p = some ip := by
  cases fuel with
  | zero => rfl
  | succ fuel => rw [nameiLoop_succ, if_pos (Or.inr (nextcomp_slashes h))]

theorem nameiLoop_skipslash (fuel ip : Nat) : nameiLoop v fuel ip (skipslash p) = nameiLoop v fuel ip p := by
  by_cases h : skipslash p = []
  · rw [nameiLoop_slashes fuel ip h, nameiLoop_slashes fuel ip (by rw [skipslash_idem]; exact h)]
  cases fuel with
  | zero => rfl
  | succ fuel =>
    have hp : p ≠ [] := by
      rintro rfl
      exact h rfl
    rw [nameiLoop_succ, nameiLoop_succ, nextcomp_skipslash]
    simp only [h, hp, false_or]

/-- What happens at the end of the walk of `namei_parent`, seen by `namei`: every lookup before
it is answered as before or not at all. -/
theorem nameiLoop_parent {dir : Nat} {name : List UInt8} (hstep : ∀ d n j, dirLookup v d n = some j →
    dirLookup v' d n = some j ∨ dirLookup v' d n = none ∧ dirLookup v' dir name = none) :
    ∀ (fuel fuel' ip : Nat) (rest : List UInt8), skipslash rest = rest → rest ≠ [] → rest.length ≤ fuel' →
      nameiParentLoop v fuel ip rest = some (dir, name) → nameiLoop v' fuel' ip rest = dirLookup v' dir name
  | 0, _, _, _, _, _, _, h => nomatch h
  | fuel + 1, 0, ip, rest, _, hne, hlen, _ => by
    exact absurd (length_eq_zero_iff.mp (Nat.le_zero.mp hlen)) hne
  | fuel + 1, fuel' + 1, ip, rest, hs, hne, hlen, h => by
    obtain ⟨hname, hshort⟩ := nextcomp_some hs hne
    rw [nameiParentLoop_succ] at h
    rw [nameiLoop_succ, if_neg (not_or.mpr ⟨hne, hname⟩)]
    split at h
    next hlast =>
      cases h
      cases hl : dirLookup v' dir (nextcomp rest).1 with
      | none => rfl
      | some j => exact nameiLoop_slashes fuel' j hlast
    next hmore =>
      obtain ⟨j, hj, h⟩ := bind_eq_some_iff.mp h
      rcases hstep ip _ j hj with hl | ⟨hl, hno⟩
      · rw [hl, bind_some, ← nameiLoop_skipslash]
        have := skipslash_length (nextcomp rest).2
        exact nameiLoop_parent hstep fuel fuel' j _ (skipslash_idem _) hmore (by omega) h
      · rw [hl, hno]
        rfl

theorem nameiParent_loop {path : CStr} {r : Nat × List UInt8} (h : nameiParent v path = some r) :
    skipslash (resolveMount v path).2 ≠ [] ∧ nameiParentLoop v (skipslash (resolveMount v path).2).length
      (resolveMount v path).1 (skipslash (resolveMount v path).2) = some r := by
  unfold nameiParent at h
  simp only at h
  split at h
  · cases h
  · next hne => exact ⟨hne, h⟩

theorem resolveMount_congr (hm : v'.mounts = v.mounts) (path : CStr) : resolveMount v' path = resolveMount v path := by
  unfold resolveMount
  rw [hm]

theorem namei_parent {path : CStr} {dir : Nat} {name : List UInt8} (hm : v'.mounts = v.mounts)
    (hstep : ∀ d n j, dirLookup v d n = some j →
      dirLookup v' d n = some j ∨ dirLookup v' d n = none ∧ dirLookup v' dir name = none)
    (h : nameiParent v path = some (dir, name)) : namei v' path = dirLookup v' dir name := by
  obtain ⟨hne, hl⟩ := nameiParent_loop h
  unfold namei
  rw [resolveMount_congr hm]
  simp only
  rw [← nameiLoop_skipslash]
  exact nameiLoop_parent hstep _ _ _ _ (skipslash_idem _) hne (skipslash_length _) hl

/-- `namei` of a path is what its parent directory has under its last name. -/
theorem namei_eq_dirLookup {path : CStr} {dir : Nat} {name : List UInt8} (h : nameiParent v path = some (dir, name)) :
    namei v path = dirLookup v dir name :=
  namei_parent rfl (fun _ _ _ hj => Or.inl hj) h

theorem nameiParentLoop_name {r : Nat × List UInt8} : ∀ (fuel ip : Nat) (rest : List UInt8),
    nameiParentLoop v fuel ip rest = some r → r.2.length ≤ nameLen - 1
  | 0, _, _, h => nomatch h
  | fuel + 1, ip, rest, h => by
    rw [nameiParentLoop_succ] at h
    split at h
    · cases h
      exact nextcomp_name_length rest
    · obtain ⟨j, -, h⟩ := bind_eq_some_iff.mp h
      exact nameiParentLoop_name fuel j _ h

theorem nameiParent_name {path : CStr} {r : Nat × List UInt8} (h : nameiParent v path = some r) :
    r.2.take (nameLen - 1) = r.2 :=
  take_of_length_le (nameiParentLoop_name _ _ _ (nameiParent_loop h).2)

theorem nameiParentLoop_lt {hist : Hist} (hv : FileInv v hist) {r : Nat × List UInt8} :
    ∀ (fuel ip : Nat) (rest : List UInt8), ip < v.ninode → nameiParentLoop v fuel ip rest = some r → r.1 < v.ninode
  | 0, _, _, _, h => nomatch h
  | fuel + 1, ip, rest, hip, h => by
    rw [nameiParentLoop_succ] at h
    split at h
    · cases h
      exact hip
    · obtain ⟨j, hj, h⟩ := bind_eq_some_iff.mp h
      exact nameiParentLoop_lt hv fuel j _ (hv.dirLookup hj) h

theorem nameiParent_lt {hist : Hist} (hv : FileInv v hist) {path : CStr} {r : Nat × List UInt8}
    (h : nameiParent v path = some r) : r.1 < v.ninode :=
  nameiParentLoop_lt hv _ _ _ (hv.resolveMount path) (nameiParent_loop h).2

end

/-! ## Entries -/

section
variable {v v' : Vfs} {dir ip : Nat} {name : List UInt8}

structure SameDirs (v v' : Vfs) : Prop where
  mounts : v'.mounts = v.mounts
  type : ∀ i, (v'.inodes i).type = (v.inodes i).type
  ent : ∀ i, (v'.inodes i).ent = (v.inodes i).ent

theorem SameDirs.refl (v : Vfs) : SameDirs v v := ⟨rfl, fun _ => rfl, fun _ => rfl⟩

theorem sameDirs_setInode {i : Nat} {x : Inode} (ht : x.type = (v.inodes i).type) (he : x.ent = (v.inodes i).ent) :
    SameDirs v (v.setInode i x) := by
  refine ⟨rfl, fun j => ?_, fun j => ?_⟩
  all_goals
    by_cases hj : j = i
    · subst hj; rw [setInode_self]; assumption
    · rw [setInode_ne v x hj]

structure SameLinks (v v' : Vfs) : Prop extends SameDirs v v' where
  ninode : v'.ninode = v.ninode
  nlink : ∀ i, (v'.inodes i).nlink = (v.inodes i).nlink

theorem SameLinks.refl (v : Vfs) : SameLinks v v := ⟨SameDirs.refl v, rfl, fun _ => rfl⟩

theorem sameLinks_setInode {i : Nat} {x : Inode} (ht : x.type = (v.inodes i).type) (he : x.ent = (v.inodes i).ent)
    (hn : x.nlink = (v.inodes i).nlink) : SameLinks v (v.setInode i x) := by
  refine ⟨sameDirs_setInode ht he, rfl, fun j => ?_⟩
  by_cases hj : j = i
  · subst hj; rw [setInode_self]; exact hn
  · rw [setInode_ne v x hj]

structure SameTree (v v' : Vfs) : Prop where
  mounts : v'.mounts = v.mounts
  ninode : v'.ninode = v.ninode
  inodes : v'.inodes = v.inodes

theorem SameTree.refl (v : Vfs) : SameTree v v := ⟨rfl, rfl, rfl⟩

theorem SameTree.trans {v'' : Vfs} (h : SameTree v v') (h' : SameTree v' v'') : SameTree v v'' :=
  ⟨h'.mounts.trans h.mounts, h'.ninode.trans h.ninode, h'.inodes.trans h.inodes⟩

structure SameMeta (v v' : Vfs) : Prop where
  mounts : v'.mounts = v.mounts
  ninode : v'.ninode = v.ninode
  inode : ∀ i, ∃ d c n, v'.inodes i = { v.inodes i with data := d, cap := c, size := n }

theorem SameTree.sameMeta (h : SameTree v v') : SameMeta v v' :=
  ⟨h.mounts, h.ninode, fun i => ⟨_, _, _, by rw [h.inodes]⟩⟩

theorem SameMeta.refl (v : Vfs) : SameMeta v v := (SameTree.refl v).sameMeta

theorem SameMeta.trans {v'' : Vfs} (h : SameMeta v v') (h' : SameMeta v' v'') : SameMeta v v'' := by
  refine ⟨h'.mounts.trans h.mounts, h'.ninode.trans h.ninode, fun i => ?_⟩
  obtain ⟨d, c, n, h1⟩ := h.inode i
  obtain ⟨d', c', n', h2⟩ := h'.inode i
  exact ⟨d', c', n', by rw [h2, h1]⟩

theorem sameMeta_setInode {i : Nat} {x : Inode}
    (hx : ∃ d c n, x = { v.inodes i with data := d, cap := c, size := n }) : SameMeta v (v.setInode i x) := by
  refine ⟨rfl, rfl, fun j => ?_⟩
  by_cases hj : j = i
  · subst hj; rw [setInode_self]; exact hx
  · rw [setInode_ne v x hj]; exact ⟨_, _, _, rfl⟩

theorem SameMeta.sameLinks (h : SameMeta v v') : SameLinks v v' := by
  refine ⟨⟨h.mounts, fun i => ?_, fun i => ?_⟩, h.ninode, fun i => ?_⟩
  all_goals
    obtain ⟨d, c, n, hi⟩ := h.inode i
    rw [hi]

structure Entered (dir : Nat) (name : List UInt8) (ip : Nat) (v v' : Vfs) : Prop where
  mounts : v'.mounts = v.mounts
  self : (v'.inodes dir).ent = (v.inodes dir).ent ++ [(name, ip)]
  other : ∀ i, i ≠ dir → (v'.inodes i).ent = (v.inodes i).ent ∨ (v'.inodes i).ent = []
  type : ∀ i, (v'.inodes i).ent ≠ [] → (v'.inodes i).type = (v.inodes i).type

theorem dirLookup_dir (h : (v.inodes dir).type = .dir) :
    dirLookup v dir name = ((v.inodes dir).ent.find? fun e => e.1 = name).map (·.2) := by
  unfold dirLookup
  rw [if_neg (not_not.mpr h)]

theorem dirLookup_none (h : (v.inodes dir).type = .dir) (hn : dirLookup v dir name = none) :
    name ∉ v.names dir := by
  rw [dirLookup_dir h, map_eq_none_iff, find?_eq_none] at hn
  intro hm
  obtain ⟨e, he, rfl⟩ := mem_map.mp hm
  exact hn e he (by simp)

structure LinkedTo (dir : Nat) (name : List UInt8) (ip : Nat) (v v' : Vfs) : Prop where
  mounts : v'.mounts = v.mounts
  self : (v'.inodes dir).ent = (v.inodes dir).ent ++ [(name, ip)]
  other : ∀ i, i ≠ dir → (v'.inodes i).ent = (v.inodes i).ent
  type : ∀ i, (v'.inodes i).type = (v.inodes i).type

theorem LinkedTo.entered (h : LinkedTo dir name ip v v') : Entered dir name ip v v' :=
  ⟨h.mounts, h.self, fun i hi => Or.inl (h.other i hi), fun i _ => h.type i⟩

theorem linkedTo_dirAdd (hname : name.take (nameLen - 1) = name) (h : dirAdd v dir name ip = .ok v') :
    LinkedTo dir name ip v v' := by
  rw [dirAdd_ok h, hname]
  refine ⟨rfl, by rw [setInode_self], fun i hi => by rw [setInode_ne v _ hi], fun i => ?_⟩
  by_cases hi : i = dir
  · subst hi; rw [setInode_self]
  · rw [setInode_ne v _ hi]

structure Grown (dir : Nat) (name : List UInt8) (ip : Nat) (v v' : Vfs) : Prop where
  number : ip = v.ninode
  ninode : v'.ninode = v.ninode + 1
  mounts : v'.mounts = v.mounts
  self : (v'.inodes dir).ent = (v.inodes dir).ent ++ [(name, ip)]
  other : ∀ i, i ≠ dir → i ≠ ip → (v'.inodes i).ent = (v.inodes i).ent
  fresh : (v'.inodes ip).ent = []
  type : ∀ i, i ≠ ip → (v'.inodes i).type = (v.inodes i).type
  nlink : ∀ i, i ≠ ip → (v'.inodes i).nlink = (v.inodes i).nlink
  one : (v'.inodes ip).nlink = 1

theorem ialloc_inodes {mem : Mem} {type : IType} (h : ialloc v mem type = .ok (v', ip)) :
    v'.inodes ip = freshInode type v.nextIno ∧ ∀ i, i ≠ ip → v'.inodes i = v.inodes i := by
  obtain ⟨-, rfl⟩ := ialloc_ok h
  exact ⟨setInode_self v ip _, fun i hi => setInode_ne v _ hi⟩

theorem grown_of {v1 v2 : Vfs} {mem : Mem} {type : IType} (hd : dir < v.ninode)
    (h1 : ialloc v mem type = .ok (v1, ip)) (hs : SameLinks v1 v2) (h2 : dirAdd v2 dir name ip = .ok v') :
    Grown dir (name.take (nameLen - 1)) ip v v' ∧ (v'.inodes ip).type = type := by
  obtain ⟨hip, hv1⟩ := ialloc_ok h1
  have hdir : dir ≠ ip := by omega
  obtain ⟨hnew, hold⟩ := ialloc_inodes h1
  have hadd : ∀ i, i ≠ dir → v'.inodes i = v2.inodes i := by
    intro i hi
    rw [dirAdd_ok h2]
    exact setInode_ne v2 _ hi
  have hself : v'.inodes dir = { v2.inodes dir with
      ent := (v2.inodes dir).ent ++ [(name.take (nameLen - 1), ip)] } := by
    rw [dirAdd_ok h2]
    exact setInode_self v2 dir _
  refine ⟨?_, by rw [hadd ip hdir.symm, hs.type, hnew]; rfl⟩
  constructor
  case number => exact hip
  case ninode =>
    rw [dirAdd_ok h2]
    exact hs.ninode.trans (by rw [hv1])
  case mounts =>
    rw [dirAdd_ok h2]
    exact hs.mounts.trans (by rw [hv1]; rfl)
  case self => rw [hself, hs.ent, hold dir hdir]
  case other => intro i hi hi'; rw [hadd i hi, hs.ent, hold i hi']
  case fresh => rw [hadd ip hdir.symm, hs.ent, hnew]; rfl
  case type =>
    intro i hi
    rw [← hold i hi, ← hs.type]
    by_cases hid : i = dir
    · rw [hid, hself]
    · rw [hadd i hid]
  case nlink =>
    intro i hi
    rw [← hold i hi, ← hs.nlink]
    by_cases hid : i = dir
    · rw [hid, hself]
    · rw [hadd i hid]
  case one => rw [hadd ip hdir.symm, hs.nlink, hnew]; rfl

theorem Grown.entered (h : Grown dir name ip v v') : Entered dir name ip v v' := by
  refine ⟨h.mounts, h.self, fun i hi => ?_, fun i hi => h.type i ?_⟩
  · by_cases hi' : i = ip
    · rw [hi']
      exact Or.inr h.fresh
    · exact Or.inl (h.other i hi hi')
  · rintro rfl
    exact hi h.fresh

theorem linkedTo_link {v1 : Vfs} {b : CStr} (hpar : nameiParent v b = some (dir, name))
    (h1 : dirAdd v dir name ip = .ok v1)
    (h2 : v' = v1.setInode ip { v1.inodes ip with nlink := (v1.inodes ip).nlink + 1 }) : LinkedTo dir name ip v v' := by
  have he := linkedTo_dirAdd (nameiParent_name hpar) h1
  have hs : SameDirs v1 v' := by
    rw [h2]
    exact sameDirs_setInode rfl rfl
  refine ⟨hs.mounts.trans he.mounts, by rw [hs.ent, he.self], ?_, ?_⟩
  · exact fun i hi => (hs.ent i).trans (he.other i hi)
  · exact fun i => (hs.type i).trans (he.type i)

theorem linked_ninode {v1 : Vfs} {x : Inode} (h1 : dirAdd v dir name ip = .ok v1) (h2 : v' = v1.setInode ip x) :
    v'.ninode = v.ninode := by
  rw [h2, dirAdd_ok h1]
  rfl

theorem unlinked_ninode {v1 : Vfs} {x y : Inode} (h1 : v1 = v.setInode ip x) (h2 : v' = v1.setInode dir y) :
    v'.ninode = v.ninode := by
  rw [h2, h1]
  rfl

structure Unlinked (dir : Nat) (name : List UInt8) (v v' : Vfs) : Prop where
  mounts : v'.mounts = v.mounts
  self : ∃ ip, ((name, ip) :: (v'.inodes dir).ent).Perm (v.inodes dir).ent
  other : ∀ i, i ≠ dir → (v'.inodes i).ent = (v.inodes i).ent
  type : ∀ i, (v'.inodes i).type = (v.inodes i).type

theorem unlinked_of {v1 : Vfs} {ent : List (List UInt8 × Nat)}
    (hperm : ((name, ip) :: ent).Perm (v.inodes dir).ent)
    (h1 : v1 = v.setInode ip { v.inodes ip with nlink := (v.inodes ip).nlink - 1 })
    (h2 : v' = v1.setInode dir { v1.inodes dir with ent := ent }) : Unlinked dir name v v' := by
  have hs : SameDirs v v1 := by
    rw [h1]
    exact sameDirs_setInode rfl rfl
  rw [h2]
  refine ⟨hs.mounts, ⟨ip, by rw [setInode_self]; exact hperm⟩, fun j hj => ?_, fun j => ?_⟩
  · rw [setInode_ne _ _ hj]
    exact hs.ent j
  · by_cases hj : j = dir
    · subst hj
      rw [setInode_self]
      exact hs.type j
    · rw [setInode_ne _ _ hj]
      exact hs.type j

end

/-! ## Calls that touch no directory -/

section
variable {v v' : Vfs} {p p' : Files}

theorem sameTree_advanceOff {f : Nat} {r : Int} (h : advanceOff v f r = .ok v') : SameTree v v' := by
  obtain ⟨o, -, h⟩ := bind_ok h
  cases h
  exact ⟨rfl, rfl, rfl⟩

theorem sameTree_vfsRead {e : ProcEnv} {fd n r : Int} {out : List UInt8}
    (h : vfsRead v p e fd n = .ok (v', r, out)) : SameTree v v' := by
  unfold vfsRead at h
  split at h
  · cases h; exact SameTree.refl v
  split at h
  · cases h; exact SameTree.refl v
  obtain ⟨i, -, h⟩ := bind_ok h
  dsimp only at h
  split at h
  · split at h
    · cases h
    · split at h
      · obtain ⟨v1, h1, h⟩ := bind_ok h
        cases h
        refine SameTree.trans ?_ (sameTree_advanceOff h1)
        exact ⟨rfl, rfl, rfl⟩
      · cases h
        exact ⟨rfl, rfl, rfl⟩
  · split at h
    · cases h
    · split at h
      · cases h; exact SameTree.refl v
      · obtain ⟨_, -, h⟩ := bind_ok h
        obtain ⟨v1, h1, h⟩ := bind_ok h
        cases h
        exact sameTree_advanceOff h1
  · split at h
    · cases h; exact SameTree.refl v
    · obtain ⟨_, -, h⟩ := bind_ok h
      obtain ⟨v1, h1, h⟩ := bind_ok h
      cases h
      exact sameTree_advanceOff h1
  · cases h; exact SameTree.refl v

theorem igrow_meta {x y : Inode} {mem : Mem} {need : Int} (h : igrow x mem need = .ok y) :
    ∃ d c, y = { x with data := d, cap := c } := by
  unfold igrow at h
  split at h
  · cases h; exact ⟨_, _, rfl⟩
  obtain ⟨c, -, h⟩ := bind_ok h
  split at h
  · cases h
  dsimp only at h
  split at h
  · cases h; exact ⟨_, _, rfl⟩
  · obtain ⟨src, -, h⟩ := bind_ok h
    obtain ⟨nd, -, h⟩ := bind_ok h
    cases h
    exact ⟨_, _, rfl⟩

theorem sameMeta_writeFile {mem : Mem} {f i : Nat} {buf : Nat → UInt8} {n r : Int}
    (h : writeFile v mem f i buf n = .ok (v', r)) : SameMeta v v' := by
  obtain ⟨need, -, h⟩ := bind_ok h
  obtain ⟨ip, hg, h⟩ := bind_ok h
  obtain ⟨data, -, h⟩ := bind_ok h
  obtain ⟨v1, h1, h⟩ := bind_ok h
  cases h
  obtain ⟨d, c, rfl⟩ := igrow_meta hg
  have hs := sameTree_advanceOff h1
  refine hs.sameMeta.trans (sameMeta_setInode ?_)
  rw [hs.inodes]
  split <;> exact ⟨_, _, _, rfl⟩

structure WritesTo (v : Vfs) (p : Files) (fd n : Int) (f i : Nat) : Prop where
  file : getfile p fd = some f
  writable : (v.ftable f).writable = true
  len : 0 ≤ n
  inode : (v.ftable f).ip = some i
  type : (v.inodes i).type = .file

theorem WritesTo.unique {fd n : Int} {f f' i i' : Nat} (h : WritesTo v p fd n f i) (h' : WritesTo v p fd n f' i') :
    f = f' ∧ i = i' := by
  cases h.file.symm.trans h'.file
  cases h.inode.symm.trans h'.inode
  exact ⟨rfl, rfl⟩

theorem vfsWrite_ok {mem : Mem} {fd n r : Int} {buf : Nat → UInt8} (h : vfsWrite v p mem fd buf n = .ok (v', r)) :
    (∃ f i, WritesTo v p fd n f i ∧ writeFile v mem f i buf n = .ok (v', r)) ∨
      SameTree v v' ∧ ∀ f i, ¬WritesTo v p fd n f i := by
  unfold vfsWrite at h
  split at h
  · next hf =>
    cases h
    exact Or.inr ⟨SameTree.refl v, fun f i hw => nomatch hf.symm.trans hw.file⟩
  next f hf =>
  split at h
  · next hc =>
    cases h
    refine Or.inr ⟨SameTree.refl v, fun f' i hw => ?_⟩
    cases hf.symm.trans hw.file
    rcases hc with hc | hc
    · rw [hw.writable] at hc; cases hc
    · have := hw.len
      omega
  next hc =>
  obtain ⟨i, hi, h⟩ := bind_ok h
  have hip : (v.ftable f).ip = some i := by
    unfold inodeOf at hi
    split at hi
    · cases hi
    · next j hj => cases hi; exact hj
  have hother : (v.inodes i).type ≠ .file → ∀ f i, ¬WritesTo v p fd n f i := by
    intro ht f' i' hw
    cases hf.symm.trans hw.file
    cases hip.symm.trans hw.inode
    exact ht hw.type
  dsimp only at h
  split at h
  · next ht =>
    have hno := hother (by rw [ht]; decide)
    split at h
    · cases h
    · split at h
      · obtain ⟨v1, h1, h⟩ := bind_ok h
        cases h
        refine Or.inr ⟨SameTree.trans ?_ (sameTree_advanceOff h1), hno⟩
        exact ⟨rfl, rfl, rfl⟩
      · cases h
        exact Or.inr ⟨⟨rfl, rfl, rfl⟩, hno⟩
  · next ht =>
    rw [not_or] at hc
    exact Or.inl ⟨f, i, ⟨hf, by simpa using hc.1, by omega, hip, ht⟩, h⟩
  · next ht =>
    cases h
    exact Or.inr ⟨SameTree.refl v, hother ht⟩

theorem logCall_write {fd n : Int} {f i : Nat} (h : WritesTo v p fd n f i) (hist : Hist) (mem : Mem) (buf : Nat → UInt8) :
    logCall v p hist (.sysWrite mem fd buf n) =
      Function.update hist i (((v.ftable f).off.toNat, (List.range n.toNat).map buf) :: hist i) := by
  simp only [logCall, h.file, h.inode]
  rw [if_pos ⟨h.writable, h.len, h.type⟩]

theorem logCall_noWrite {fd n : Int} (h : ∀ f i, ¬WritesTo v p fd n f i) (hist : Hist) (mem : Mem) (buf : Nat → UInt8) :
    logCall v p hist (.sysWrite mem fd buf n) = hist := by
  simp only [logCall]
  split
  · rfl
  next f hf =>
  split
  · rfl
  next i hi =>
  rw [if_neg]
  rintro ⟨hw, hn, ht⟩
  exact h f i ⟨hf, hw, hn, hi, ht⟩

theorem sameMeta_vfsWrite {mem : Mem} {fd n r : Int} {buf : Nat → UInt8}
    (h : vfsWrite v p mem fd buf n = .ok (v', r)) : SameMeta v v' := by
  rcases vfsWrite_ok h with ⟨f, i, -, hw⟩ | ⟨hs, -⟩
  · exact sameMeta_writeFile hw
  · exact hs.sameMeta

theorem sameTree_vfsLseek {fd off whence r : Int} (h : vfsLseek v p fd off whence = .ok (v', r)) : SameTree v v' := by
  unfold vfsLseek at h
  split at h
  · cases h; exact SameTree.refl v
  obtain ⟨b, -, h⟩ := bind_ok h
  split at h
  · cases h; exact SameTree.refl v
  obtain ⟨np, -, h⟩ := bind_ok h
  split at h
  · cases h; exact SameTree.refl v
  · cases h; exact ⟨rfl, rfl, rfl⟩

theorem sameTree_falloc {o : Option Nat} (h : falloc v = (v', o)) : SameTree v v' := by
  cases o with
  | none => rw [falloc_none h]; exact SameTree.refl v
  | some f =>
    obtain ⟨-, -, rfl⟩ := falloc_some h
    exact ⟨rfl, rfl, rfl⟩

theorem sameTree_openFile {ip flags : Nat} {r : Int} (h : openFile v p ip flags = (v', p', r)) : SameTree v v' := by
  unfold openFile at h
  split at h
  · next v1 h1 => cases h; exact sameTree_falloc h1
  · next v1 f h1 =>
    have hs := sameTree_falloc h1
    simp only at h
    split at h
    · cases h; exact hs.trans (⟨rfl, rfl, rfl⟩)
    · cases h; exact hs.trans (⟨rfl, rfl, rfl⟩)

theorem sameMeta_truncInode (v : Vfs) (ip flags : Nat) : SameMeta v (truncInode v ip flags) := by
  unfold truncInode
  split
  · exact sameMeta_setInode ⟨_, _, _, rfl⟩
  · exact SameMeta.refl v

theorem sameTree_closeFds : ∀ (fds : List Nat) (v : Vfs) (p : Files), SameTree v (closeFds fds v p).1
  | [], v, p => SameTree.refl v
  | fd :: fds, v, p => by
    unfold closeFds
    split
    · exact sameTree_closeFds fds v p
    · refine SameTree.trans ?_ (sameTree_closeFds fds _ _)
      exact ⟨rfl, rfl, rfl⟩

theorem sameTree_forkRefs (parent : Files) : ∀ (fds : List Nat) (v : Vfs), SameTree v (forkRefs parent fds v)
  | [], v => SameTree.refl v
  | fd :: fds, v => by
    unfold forkRefs
    split
    · exact sameTree_forkRefs parent fds v
    · refine SameTree.trans ?_ (sameTree_forkRefs parent fds _)
      exact ⟨rfl, rfl, rfl⟩

theorem sameTree_stdioFds {tty : Nat} : ∀ (fds : List Nat) (v : Vfs) (p : Files), SameTree v (stdioFds tty fds v p).1
  | [], v, p => SameTree.refl v
  | fd :: fds, v, p => by
    unfold stdioFds
    split
    · next v1 h1 => exact sameTree_falloc h1
    · next v1 f h1 =>
      refine (sameTree_falloc h1).trans (SameTree.trans ?_ (sameTree_stdioFds fds _ _))
      exact ⟨rfl, rfl, rfl⟩

theorem sameTree_vfsSetupStdio (v : Vfs) (p : Files) : SameTree v (vfsSetupStdio v p).1 := by
  unfold vfsSetupStdio
  split
  · exact SameTree.refl v
  · exact sameTree_stdioFds _ _ _

end

/-! ## Calls on directories -/

inductive Created (v : Vfs) (path : CStr) : Vfs → Prop
  | mk {mem : Mem} {type : IType} {dir ip : Nat} {name : List UInt8} {v1 v2 : Vfs} (hno : namei v path = none)
      (hpar : nameiParent v path = some (dir, name)) (ht : (v.inodes dir).type = .dir)
      (hk : type = .dir ∨ type = .file) (h1 : ialloc v mem type = .ok (v1, ip)) (h2 : dirAdd v1 dir name ip = .ok v2) :
      Created v path v2

inductive DirMove (v : Vfs) : VfsAct → Vfs → Prop
  | same {a : VfsAct} {v' : Vfs} (h : SameMeta v v') : DirMove v a v'
  | create {a : VfsAct} {path : CStr} {v1 v' : Vfs} (h : Created v path v1) (hs : SameMeta v1 v') : DirMove v a v'
  | link {p ip dir : Nat} {a b : CStr} {name : List UInt8} {v1 v' : Vfs} (ha : namei v a = some ip)
      (ht : (v.inodes ip).type ≠ .dir) (hpar : nameiParent v b = some (dir, name))
      (h1 : dirAdd v dir name ip = .ok v1)
      (h2 : v' = v1.setInode ip { v1.inodes ip with nlink := (v1.inodes ip).nlink + 1 }) :
      DirMove v (.call p (.sysLink a b)) v'
  | unlink {a : VfsAct} {path : CStr} {dir ip : Nat} {name : List UInt8} {ent : List (List UInt8 × Nat)}
      {v1 v' : Vfs} (hpar : nameiParent v path = some (dir, name))
      (hperm : ((name, ip) :: ent).Perm (v.inodes dir).ent)
      (h1 : v1 = v.setInode ip { v.inodes ip with nlink := (v.inodes ip).nlink - 1 })
      (h2 : v' = v1.setInode dir { v1.inodes dir with ent := ent }) : DirMove v a v'

section
variable {v v' : Vfs} {p p' : Files} {r : Int}

theorem openInode_ok {mem : Mem} {path : CStr} {flags : Nat} {o : Option Nat}
    (h : openInode v mem path flags = .ok (v', o)) : v' = v ∨ Created v path v' := by
  unfold openInode at h
  split at h
  · cases h; exact Or.inl rfl
  next hno =>
  split at h
  · cases h; exact Or.inl rfl
  split at h
  · cases h; exact Or.inl rfl
  next dir name hpar =>
  split at h
  · cases h; exact Or.inl rfl
  next ht =>
  obtain ⟨⟨v1, ip⟩, h1, h⟩ := bind_ok h
  obtain ⟨v2, h2, h⟩ := bind_ok h
  cases h
  exact Or.inr (.mk hno hpar (not_not.mp ht) (Or.inr rfl) h1 h2)

theorem vfsOpen_ok {mem : Mem} {path : CStr} {flags : Nat} (h : vfsOpen v p mem path flags = .ok (v', p', r)) :
    ∃ v1 o, openInode v mem path flags = .ok (v1, o) ∧ SameMeta v1 v' := by
  obtain ⟨⟨v1, o⟩, h1, h⟩ := bind_ok h
  refine ⟨v1, o, h1, ?_⟩
  cases o with
  | none => cases h; exact SameMeta.refl _
  | some ip =>
    simp only at h
    split at h
    · cases h; exact SameMeta.refl _
    · exact (sameMeta_truncInode v1 ip flags).trans (sameTree_openFile (pure_eq_ok.mp h)).sameMeta

theorem vfsMkdir_ok {mem : Mem} {path : CStr} (h : vfsMkdir v mem path = .ok (v', r)) :
    r = -1 ∧ v' = v ∨ r = 0 ∧ Created v path v' := by
  unfold vfsMkdir at h
  split at h
  · cases h; exact Or.inl ⟨rfl, rfl⟩
  next hno =>
  split at h
  · cases h; exact Or.inl ⟨rfl, rfl⟩
  next dir name hpar =>
  split at h
  · cases h; exact Or.inl ⟨rfl, rfl⟩
  next ht =>
  obtain ⟨⟨v1, ip⟩, h1, h⟩ := bind_ok h
  obtain ⟨v2, h2, h⟩ := bind_ok h
  cases h
  exact Or.inr ⟨rfl, .mk hno hpar (not_not.mp ht) (Or.inl rfl) h1 h2⟩

theorem vfsLink_ok {a b : CStr} (h : vfsLink v a b = .ok (v', r)) : r = -1 ∧ v' = v ∨
    r = 0 ∧ ∃ ip dir name v1, namei v a = some ip ∧ (v.inodes ip).type ≠ .dir ∧
      nameiParent v b = some (dir, name) ∧ dirAdd v dir name ip = .ok v1 ∧
        v' = v1.setInode ip { v1.inodes ip with nlink := (v1.inodes ip).nlink + 1 } := by
  unfold vfsLink at h
  split at h
  · cases h; exact Or.inl ⟨rfl, rfl⟩
  next ip ha =>
  split at h
  · cases h; exact Or.inl ⟨rfl, rfl⟩
  next ht =>
  split at h
  · cases h; exact Or.inl ⟨rfl, rfl⟩
  next dir name hpar =>
  obtain ⟨v1, h1, h⟩ := bind_ok h
  cases h
  exact Or.inr ⟨rfl, ip, dir, name, v1, ha, ht, hpar, h1, rfl⟩

theorem vfsUnlink_ok {path : CStr} (h : vfsUnlink v path = (v', r)) : r = -1 ∧ v' = v ∨
    r = 0 ∧ ∃ dir name ip ent v1, nameiParent v path = some (dir, name) ∧
      ((name, ip) :: ent).Perm (v.inodes dir).ent ∧
        v1 = v.setInode ip { v.inodes ip with nlink := (v.inodes ip).nlink - 1 } ∧
          v' = v1.setInode dir { v1.inodes dir with ent := ent } := by
  unfold vfsUnlink at h
  split at h
  · cases h; exact Or.inl ⟨rfl, rfl⟩
  next dir name hpar =>
  split at h
  · cases h; exact Or.inl ⟨rfl, rfl⟩
  next i hi =>
  split at h
  · cases h; exact Or.inl ⟨rfl, rfl⟩
  next key ip hget =>
  obtain ⟨hlen, hkey, -⟩ := findIdx?_eq_some_iff_getElem.mp hi
  obtain rfl : key = name := by
    rw [getElem?_eq_getElem hlen] at hget
    rw [some.inj hget] at hkey
    exact of_decide_eq_true hkey
  cases h
  have hs : SameDirs v (v.setInode ip { v.inodes ip with nlink := (v.inodes ip).nlink - 1 }) :=
    sameDirs_setInode rfl rfl
  refine Or.inr ⟨rfl, dir, key, ip, _, _, hpar, ?_, rfl, rfl⟩
  rw [hs.ent dir]
  exact swapRemove_perm hget

/-- The calls that work on the file table only. -/
def VfsCall.OnTable : VfsCall → Prop
  | .sysRead .. | .sysClose .. | .sysLseek .. | .sysFstat .. | .sysDup .. | .sysChdir .. => True
  | _ => False

theorem sameTree_vfsCall {c : VfsCall} (h : vfsCall v p c = .ok (v', p', r)) (hc : c.OnTable) : SameTree v v' := by
  cases c with
  | sysRead e fd n =>
    obtain ⟨⟨v1, r1, out⟩, h1, h⟩ := bind_ok h
    cases h
    exact sameTree_vfsRead h1
  | sysClose fd =>
    have h := Except.ok.inj h
    unfold vfsClose at h
    split at h
    · cases h; exact SameTree.refl v
    · cases h; exact ⟨rfl, rfl, rfl⟩
  | sysLseek fd off whence =>
    obtain ⟨⟨v1, r1⟩, h1, h⟩ := bind_ok h
    cases h
    exact sameTree_vfsLseek h1
  | sysFstat fd st =>
    obtain ⟨⟨r1, o⟩, h1, h⟩ := bind_ok h
    cases h
    exact SameTree.refl v
  | sysDup fd =>
    have h := Except.ok.inj h
    unfold vfsDup at h
    split at h
    · cases h; exact SameTree.refl v
    split at h
    · cases h; exact SameTree.refl v
    · cases h; exact ⟨rfl, rfl, rfl⟩
  | sysChdir path =>
    obtain ⟨rfl, -⟩ := Prod.mk.inj (Except.ok.inj h)
    exact SameTree.refl v
  | _ => cases hc

theorem vfsCall_dirs {c : VfsCall} (q : Nat) (h : vfsCall v p c = .ok (v', p', r)) : DirMove v (.call q c) v' := by
  cases c with
  | sysOpen mem path flags =>
    obtain ⟨v1, o, h1, hs⟩ := vfsOpen_ok h
    rcases openInode_ok h1 with rfl | hc
    · exact .same hs
    · exact .create hc hs
  | sysWrite mem fd buf n =>
    obtain ⟨⟨v1, r1⟩, h1, h⟩ := bind_ok h
    cases h
    exact .same (sameMeta_vfsWrite h1)
  | sysMkdir mem path =>
    obtain ⟨⟨v1, r1⟩, h1, h⟩ := bind_ok h
    cases h
    rcases vfsMkdir_ok h1 with ⟨-, rfl⟩ | ⟨-, hc⟩
    · exact .same (SameMeta.refl v')
    · exact .create hc (SameMeta.refl v')
  | sysLink a b =>
    obtain ⟨⟨v1, r1⟩, h1, h⟩ := bind_ok h
    cases h
    rcases vfsLink_ok h1 with ⟨-, rfl⟩ | ⟨-, ip, dir, name, v2, ha, ht, hpar, h2, he⟩
    · exact .same (SameMeta.refl v')
    · exact .link ha ht hpar h2 he
  | sysUnlink path =>
    obtain ⟨rfl, -⟩ := Prod.mk.inj (Except.ok.inj h)
    rcases vfsUnlink_ok (Prod.mk.eta (p := vfsUnlink v path)).symm with
      ⟨-, he⟩ | ⟨-, dir, name, ip, ent, v1, hpar, hperm, h1, he⟩
    · rw [he]
      exact .same (SameMeta.refl v)
    · exact .unlink hpar hperm h1 he
  | _ => exact .same (sameTree_vfsCall h trivial).sameMeta

end

/-- A step is a call of a process, or a hook that works on the file table only. -/
theorem step_call {s s' : VfsSys} {a : VfsAct} (h : s.step a = some s') :
    (∃ p c f r, a = .call p c ∧ p ∈ s.procs ∧ vfsCall s.vfs (s.files p) c = .ok (s'.vfs, f, r) ∧
      s'.hist = logCall s.vfs (s.files p) s.hist c) ∨
    (∀ p c, a ≠ .call p c) ∧ SameTree s.vfs s'.vfs ∧ s'.hist = s.hist := by
  cases s.move h with
  | call hp hc => exact Or.inl ⟨_, _, _, _, rfl, hp, hc, rfl⟩
  | spawn => exact Or.inr ⟨by rintro p c ⟨⟩, sameTree_vfsSetupStdio _ _, rfl⟩
  | fork => exact Or.inr ⟨by rintro p c ⟨⟩, sameTree_forkRefs _ _ _, rfl⟩
  | closeAll => exact Or.inr ⟨by rintro p c ⟨⟩, sameTree_closeFds _ _ _, rfl⟩
  | discard => exact Or.inr ⟨by rintro p c ⟨⟩, SameTree.refl _, rfl⟩

theorem step_dirs {s s' : VfsSys} {a : VfsAct} (h : s.step a = some s') : DirMove s.vfs a s'.vfs := by
  rcases step_call h with ⟨p, c, f, r, rfl, -, hc, -⟩ | ⟨-, hs, -⟩
  · exact vfsCall_dirs p hc
  · exact .same hs.sameMeta

/-! ## Numbers not in use -/

def Vfs.Blank (v : Vfs) : Prop := ∀ i, v.ninode ≤ i → (v.inodes i).ent = []

section
variable {v v' : Vfs} {hist : Hist}

theorem Created.grown {path : CStr} (hf : FileInv v hist) (h : Created v path v') :
    ∃ dir name, namei v path = none ∧ nameiParent v path = some (dir, name) ∧ (v.inodes dir).type = .dir ∧
      Grown dir name v.ninode v v' := by
  cases h with
  | mk hno hpar ht _ h1 h2 =>
    have hg := (grown_of (nameiParent_lt hf hpar) h1 (SameLinks.refl _) h2).1
    rw [nameiParent_name hpar] at hg
    have hip := hg.number
    subst hip
    exact ⟨_, _, hno, hpar, ht, hg⟩

theorem Grown.blank {dir ip : Nat} {name : List UInt8} (hb : v.Blank) (hd : dir < v.ninode)
    (h : Grown dir name ip v v') : v'.Blank := by
  have hn := h.ninode
  have hip := h.number
  intro i hi
  rw [h.other i (by omega) (by omega)]
  exact hb i (by omega)

theorem SameLinks.blank (hb : v.Blank) (h : SameLinks v v') : v'.Blank := by
  intro i hi
  rw [h.ent]
  exact hb i (h.ninode ▸ hi)

theorem DirMove.blank {a : VfsAct} (hf : FileInv v hist) (hb : v.Blank) (h : DirMove v a v') : v'.Blank := by
  cases h with
  | same h => exact h.sameLinks.blank hb
  | create h hs =>
    obtain ⟨dir, name, -, hpar, -, hg⟩ := h.grown hf
    exact hs.sameLinks.blank (hg.blank hb (nameiParent_lt hf hpar))
  | link ha ht hpar h1 h2 =>
    have hd := nameiParent_lt hf hpar
    have hn := linked_ninode h1 h2
    intro i hi
    rw [(linkedTo_link hpar h1 h2).other i (by omega)]
    exact hb i (by omega)
  | unlink hpar hperm h1 h2 =>
    have hd := nameiParent_lt hf hpar
    have hn := unlinked_ninode h1 h2
    intro i hi
    rw [(unlinked_of hperm h1 h2).other i (by omega)]
    exact hb i (by omega)

theorem DirMove.mounts {a : VfsAct} (hf : FileInv v hist) (h : DirMove v a v') : v'.mounts = v.mounts := by
  cases h with
  | same h => exact h.mounts
  | create h hs =>
    obtain ⟨dir, name, -, -, -, hg⟩ := h.grown hf
    exact hs.mounts.trans hg.mounts
  | link ha ht hpar h1 h2 => exact (linkedTo_link hpar h1 h2).mounts
  | unlink hpar hperm h1 h2 => exact (unlinked_of hperm h1 h2).mounts

end

/-! ## Initialisation -/

inductive Install (mem : Nat → Mem) (dir : Nat) (name : List UInt8) (v : Vfs) : IType → Nat → Vfs → Prop
  | mk {type : IType} {ip : Nat} {v1 v2 v' : Vfs} (h1 : initInode mem v type = .ok (v1, ip)) (hs : SameLinks v1 v2)
      (h2 : dirAdd v2 dir name ip = .ok v') : Install mem dir name v type ip v'

section
variable {mem : Nat → Mem} {v v' : Vfs} {dir ip : Nat} {name : List UInt8} {type : IType}

theorem Install.grown (hd : dir < v.ninode) (h : Install mem dir name v type ip v') :
    Grown dir (name.take (nameLen - 1)) ip v v' ∧ (v'.inodes ip).type = type := by
  cases h with
  | mk h1 hs h2 => exact grown_of hd h1 hs h2

theorem install_addDir (h : addDir mem v dir name = .ok (v', ip)) : Install mem dir name v .dir ip v' := by
  obtain ⟨⟨v1, i⟩, h1, h⟩ := bind_ok h
  obtain ⟨v2, h2, h⟩ := bind_ok h
  cases h
  exact .mk h1 (SameLinks.refl v1) h2

theorem install_addProg {data : List UInt8} (h : addProg mem v dir name data = .ok v') :
    ∃ ip, Install mem dir name v .file ip v' := by
  obtain ⟨⟨v1, i⟩, h1, h⟩ := bind_ok h
  obtain ⟨x, hg, h⟩ := bind_ok h
  obtain ⟨d, -, h⟩ := bind_ok h
  obtain ⟨d, c, rfl⟩ := igrow_meta hg
  dsimp only at h
  refine ⟨i, .mk h1 ?_ h⟩
  exact sameLinks_setInode rfl rfl rfl

theorem install_mkdev {rd : DevRead} {wr : DevWrite} (h : mkdev mem v dir name rd wr = .ok v') :
    ∃ ip, Install mem dir name v .dev ip v' := by
  obtain ⟨⟨v1, i⟩, h1, h⟩ := bind_ok h
  dsimp only at h
  refine ⟨i, .mk h1 ?_ h⟩
  exact sameLinks_setInode rfl rfl rfl

theorem install_mkproc {g : ProcGen} (h : mkproc mem v dir name g = .ok v') :
    ∃ ip, Install mem dir name v .proc ip v' := by
  obtain ⟨⟨v1, i⟩, h1, h⟩ := bind_ok h
  dsimp only at h
  refine ⟨i, .mk h1 ?_ h⟩
  exact sameLinks_setInode rfl rfl rfl

end

structure BootRule (mem : Nat → Mem) (P : List Nat → Vfs → Prop) : Prop where
  blank : P [] vfsBlank
  install : ∀ {roots v v' dir name type ip}, P roots v → dir < v.ninode → Install mem dir name v type ip v' →
    P roots v'
  root : ∀ {roots v v' ip}, P roots v → initInode mem v .dir = .ok (v', ip) → P (roots ++ [ip]) v'
  mount : ∀ {roots v path root}, P roots v → root ∈ roots → P roots (mount v path root)

/-- In the course of `vfs_init`: the mounts are `ms` and there are at least `n` inodes. -/
structure Booting (P : List Nat → Vfs → Prop) (roots : List Nat) (ms : List (List UInt8 × Nat)) (n : Nat)
    (v : Vfs) : Prop where
  inv : P roots v
  mounts : v.mounts = ms
  ninode : n ≤ v.ninode

section
variable {mem : Nat → Mem} {P : List Nat → Vfs → Prop} {roots : List Nat} {ms : List (List UInt8 × Nat)} {n : Nat}
variable {v v' : Vfs} (hP : BootRule mem P)
include hP

theorem Booting.install {dir ip : Nat} {name : List UInt8} {type : IType} (hb : Booting P roots ms n v) (hd : dir < n)
    (h : Install mem dir name v type ip v') : Booting P roots ms (n + 1) v' where
  inv := hP.install hb.inv (Nat.lt_of_lt_of_le hd hb.ninode) h
  mounts := (h.grown (Nat.lt_of_lt_of_le hd hb.ninode)).1.mounts.trans hb.mounts
  ninode := by
    rw [(h.grown (Nat.lt_of_lt_of_le hd hb.ninode)).1.ninode]
    exact Nat.succ_le_succ hb.ninode

theorem Booting.progs {bin : Nat} (hbin : bin < n) : ∀ {progs : List (List UInt8 × List UInt8)} {v : Vfs},
    Booting P roots ms n v → addProgs mem bin progs v = .ok v' → Booting P roots ms n v'
  | [], v, hb, h => by cases h; exact hb
  | (name, data) :: ps, v, hb, h => by
    obtain ⟨v1, h1, h⟩ := bind_ok h
    obtain ⟨ip, h1⟩ := install_addProg h1
    have hb1 := hb.install hP hbin h1
    exact Booting.progs hbin ⟨hb1.inv, hb1.mounts, Nat.le_of_succ_le hb1.ninode⟩ h

theorem Booting.root {ip : Nat} (hb : Booting P roots ms n v) (h : initInode mem v .dir = .ok (v', ip)) :
    Booting P (roots ++ [ip]) ms (v.ninode + 1) v' ∧ ip = v.ninode := by
  have hinv := hP.root hb.inv h
  obtain ⟨hip, rfl⟩ := ialloc_ok h
  exact ⟨⟨hinv, hb.mounts, Nat.le_refl _⟩, hip⟩

theorem Booting.mount {root : Nat} (hb : Booting P roots ms n v) (path : List UInt8) (hr : root ∈ roots) :
    Booting P roots (ms ++ [(path, root)]) n (mount v path root) :=
  ⟨hP.mount hb.inv hr, by rw [NjuOs.mount, hb.mounts], hb.ninode⟩

/-- The rule for `vfs_init`, with the mount table it leaves. -/
theorem vfsInit_rule {progs : List (List UInt8 × List UInt8)} (h : vfsInit mem progs = .ok v) :
    ∃ dev proc, P [0, dev, proc] v ∧ 0 < dev ∧ 0 < proc ∧
      v.mounts = [(bytes "/", 0), (bytes "/dev", dev), (bytes "/proc", proc)] := by
  obtain ⟨⟨v1, root⟩, h1, h⟩ := bind_ok h
  obtain ⟨⟨v2, i2⟩, h2, h⟩ := bind_ok h
  obtain ⟨⟨v3, bin⟩, h3, h⟩ := bind_ok h
  obtain ⟨⟨v4, i4⟩, h4, h⟩ := bind_ok h
  obtain ⟨⟨v5, i5⟩, h5, h⟩ := bind_ok h
  obtain ⟨v6, h6, h⟩ := bind_ok h
  obtain ⟨⟨v7, dev⟩, h7, h⟩ := bind_ok h
  obtain ⟨v8, h8, h⟩ := bind_ok h
  obtain ⟨v9, h9, h⟩ := bind_ok h
  obtain ⟨v10, h10, h⟩ := bind_ok h
  obtain ⟨v11, h11, h⟩ := bind_ok h
  obtain ⟨⟨v12, proc⟩, h12, h⟩ := bind_ok h
  obtain ⟨v13, h13, h⟩ := bind_ok h
  obtain ⟨v14, h14, h⟩ := bind_ok h
  obtain ⟨v15, h15, h⟩ := bind_ok h
  cases h
  obtain ⟨_, i8⟩ := install_mkdev h8
  obtain ⟨_, i9⟩ := install_mkdev h9
  obtain ⟨_, i10⟩ := install_mkdev h10
  obtain ⟨_, i11⟩ := install_mkdev h11
  obtain ⟨_, i13⟩ := install_mkproc h13
  obtain ⟨_, i14⟩ := install_mkproc h14
  obtain ⟨_, i15⟩ := install_mkproc h15
  have b0 : Booting P [] [] 0 vfsBlank := ⟨hP.blank, rfl, Nat.le_refl 0⟩
  -- the root directory
  obtain ⟨b1, hroot⟩ := b0.root hP h1
  obtain rfl : root = 0 := hroot
  have b1 := b1.mount hP (bytes "/") (mem_singleton_self 0)
  have b2 := b1.install hP (Nat.zero_lt_succ _) (install_addDir h2)
  have b3 := b2.install hP (Nat.zero_lt_succ _) (install_addDir h3)
  have b4 := b3.install hP (Nat.zero_lt_succ _) (install_addDir h4)
  have b5 := b4.install hP (Nat.zero_lt_succ _) (install_addDir h5)
  have g3 := ((install_addDir h3).grown (Nat.lt_of_lt_of_le (Nat.zero_lt_succ _) b2.ninode)).1
  have g4 := ((install_addDir h4).grown (Nat.lt_of_lt_of_le (Nat.zero_lt_succ _) b3.ninode)).1
  have g5 := ((install_addDir h5).grown (Nat.lt_of_lt_of_le (Nat.zero_lt_succ _) b4.ninode)).1
  have hbin := g3.number
  have n3 := g3.ninode
  have n4 := g4.ninode
  have n5 := g5.ninode
  have b5 : Booting P [0] [(bytes "/", 0)] v5.ninode v5 := ⟨b5.inv, b5.mounts, Nat.le_refl _⟩
  have b6 := b5.progs hP (by omega) h6
  have n6 := b6.ninode
  -- /dev
  obtain ⟨b7, hdev⟩ := b6.root hP h7
  have b8 := b7.install hP (by omega) i8
  have b9 := b8.install hP (by omega) i9
  have b10 := b9.install hP (by omega) i10
  have b11 := b10.install hP (by omega) i11
  have b11 := b11.mount hP (bytes "/dev") (mem_append_right [0] (mem_singleton_self dev))
  -- /proc
  obtain ⟨b12, hproc⟩ := b11.root hP h12
  have b13 := b12.install hP (by omega) i13
  have b14 := b13.install hP (by omega) i14
  have b15 := b14.install hP (by omega) i15
  have b16 := b15.mount hP (bytes "/proc") (mem_append_right [0, dev] (mem_singleton_self proc))
  have hpos : 0 < (mount v11 (bytes "/dev") dev).ninode := Nat.lt_of_lt_of_le (by omega) b11.ninode
  exact ⟨dev, proc, b16.inv, by omega, by omega, b16.mounts⟩

end

/-! ## Reachable states -/

structure Reached (v : Vfs) (hist : Hist) (dev proc : Nat) : Prop where
  files : FileInv v hist
  blank : v.Blank
  mounts : v.mounts = [(bytes "/", 0), (bytes "/dev", dev), (bytes "/proc", proc)]
  dev : 0 < dev
  proc : 0 < proc

theorem bootRule_blank (mem : Nat → Mem) : BootRule mem fun _ v => v.Blank where
  blank := fun _ _ => rfl
  install := fun hb hd h => (h.grown hd).1.blank hb hd
  root := by
    intro roots v v' ip hb h i hi
    obtain ⟨rfl, rfl⟩ := ialloc_ok h
    have hlt : v.ninode < i := hi
    exact (congrArg Inode.ent (setInode_ne v _ (by omega))).trans (hb i (by omega))
  mount := fun hb _ => hb

theorem run_reached {mem : Nat → Mem} {progs : List (List UInt8 × List UInt8)} {v : Vfs} {as : List VfsAct}
    {s : VfsSys} (hinit : vfsInit mem progs = .ok v) (hr : run VfsSys.step (VfsSys.init v) as = some s) :
    ∃ dev proc, Reached s.vfs s.hist dev proc := by
  obtain ⟨dev, proc, hb, hdev, hproc, hm⟩ := vfsInit_rule (bootRule_blank mem) hinit
  refine ⟨dev, proc, run_inv (I := fun s => Reached s.vfs s.hist dev proc) ?_ as _ s
    ⟨fileInv_init hinit, hb, hm, hdev, hproc⟩ hr⟩
  intro s a s' hs h
  have hd := step_dirs h
  exact ⟨fileInv_step hs.files h, hd.blank hs.files hs.blank, (hd.mounts hs.files).trans hs.mounts, hs.dev, hs.proc⟩

end NjuOs
