import Mathlib.Algebra.BigOperators.Group.Finset.Basic
import NjuOs.DirLemmas

/-!
# Link counts

`nlink` starts at one in `ialloc`, before the inode has an entry; every call that ends has made
up for it. The roots of the mounts are the inodes that never get an entry.
-/

namespace NjuOs

open List

def Vfs.refs (v : Vfs) (j : Nat) : Nat :=
  ∑ i ∈ Finset.range v.ninode, (v.inodes i).ent.countP fun e => e.2 = j

structure LinkInv (roots : List Nat) (v : Vfs) : Prop where
  ents : ∀ d, ∀ e ∈ (v.inodes d).ent, e.2 < v.ninode
  links : ∀ i, i < v.ninode → i ∉ roots → (v.inodes i).nlink = v.refs i

section
variable {v v' : Vfs} {dir ip : Nat} {name : List UInt8} {roots : List Nat}

theorem refs_congr (hn : v'.ninode = v.ninode) (he : ∀ i, (v'.inodes i).ent = (v.inodes i).ent) (j : Nat) :
    v'.refs j = v.refs j := by
  simp only [Vfs.refs, hn, he]

theorem sum_change {n : Nat} (hd : dir < n) (ho : ∀ i, i < n → i ≠ dir → (v'.inodes i).ent = (v.inodes i).ent)
    (j : Nat) :
    (∑ i ∈ Finset.range n, (v'.inodes i).ent.countP fun e => e.2 = j) +
        (v.inodes dir).ent.countP (fun e => e.2 = j) =
      (∑ i ∈ Finset.range n, (v.inodes i).ent.countP fun e => e.2 = j) +
        (v'.inodes dir).ent.countP fun e => e.2 = j := by
  have hmem : dir ∈ Finset.range n := Finset.mem_range.mpr hd
  have hrest : ∑ i ∈ (Finset.range n).erase dir, (v'.inodes i).ent.countP (fun e => e.2 = j) =
      ∑ i ∈ (Finset.range n).erase dir, (v.inodes i).ent.countP fun e => e.2 = j := by
    apply Finset.sum_congr rfl
    intro i hi
    rw [ho i (Finset.mem_range.mp (Finset.mem_of_mem_erase hi)) (Finset.ne_of_mem_erase hi)]
  rw [← Finset.add_sum_erase _ _ hmem, ← Finset.add_sum_erase _ (fun i => (v.inodes i).ent.countP _) hmem, hrest]
  omega

theorem countP_snoc (l : List (List UInt8 × Nat)) (name : List UInt8) (ip j : Nat) :
    (l ++ [(name, ip)]).countP (fun e => e.2 = j) = l.countP (fun e => e.2 = j) + if ip = j then 1 else 0 := by
  rw [countP_append, countP_singleton]
  simp

theorem refs_linked (h : LinkedTo dir name ip v v') (hn : v'.ninode = v.ninode) (hd : dir < v.ninode) (j : Nat) :
    v'.refs j = v.refs j + if ip = j then 1 else 0 := by
  have hc := sum_change hd (fun i _ => h.other i) j
  rw [h.self, countP_snoc] at hc
  unfold Vfs.refs
  rw [hn]
  omega

theorem refs_grown (h : Grown dir name ip v v') (hd : dir < v.ninode) (j : Nat) :
    v'.refs j = v.refs j + if ip = j then 1 else 0 := by
  have hip := h.number
  have hc := sum_change hd (fun i hi hne => h.other i hne (by omega)) j
  rw [h.self, countP_snoc] at hc
  -- the new inode has no entries of its own
  unfold Vfs.refs
  rw [h.ninode, Finset.sum_range_succ, ← hip, h.fresh, countP_nil]
  rw [← hip] at hc
  omega

theorem refs_unlinked {ent : List (List UInt8 × Nat)} (h : Unlinked dir name v v') (hn : v'.ninode = v.ninode)
    (hd : dir < v.ninode) (hself : (v'.inodes dir).ent = ent)
    (hperm : ((name, ip) :: ent).Perm (v.inodes dir).ent) (j : Nat) :
    v'.refs j + (if ip = j then 1 else 0) = v.refs j := by
  have hc := sum_change hd (fun i _ => h.other i) j
  have hp := hperm.countP_eq fun e => decide (e.2 = j)
  rw [countP_cons] at hp
  rw [hself, ← hp] at hc
  simp only [decide_eq_true_eq] at hc
  unfold Vfs.refs
  rw [hn]
  omega

theorem LinkInv.refs_fresh (h : LinkInv roots v) : v.refs v.ninode = 0 := by
  refine Finset.sum_eq_zero fun i _ => countP_eq_zero.mpr fun e he => ?_
  have hlt := h.ents i e he
  simp only [decide_eq_true_eq]
  omega

/-! ## Steps -/

theorem LinkInv.same (h : LinkInv roots v) (hs : SameLinks v v') : LinkInv roots v' where
  ents := by
    intro d e he
    rw [hs.ent] at he
    rw [hs.ninode]
    exact h.ents d e he
  links := by
    intro i hi hr
    rw [hs.nlink, refs_congr hs.ninode hs.ent]
    exact h.links i (hs.ninode ▸ hi) hr

theorem LinkInv.grown (h : LinkInv roots v) (hd : dir < v.ninode) (hg : Grown dir name ip v v') :
    LinkInv roots v' where
  ents := by
    have hip := hg.number
    intro d e he
    rw [hg.ninode]
    by_cases hdd : d = dir
    · rw [hdd, hg.self, mem_append, mem_singleton] at he
      rcases he with he | rfl
      · have := h.ents dir e he
        omega
      · exact hip ▸ Nat.lt_succ_self _
    · by_cases hdi : d = ip
      · rw [hdi, hg.fresh] at he
        cases he
      · rw [hg.other d hdd hdi] at he
        have := h.ents d e he
        omega
  links := by
    have hip := hg.number
    have hn := hg.ninode
    intro i hi hr
    rw [refs_grown hg hd]
    by_cases hi' : i = ip
    · rw [hi', hg.one, if_pos rfl, hip, h.refs_fresh]
      rfl
    · rw [hg.nlink i hi', if_neg (Ne.symm hi'), Nat.add_zero]
      exact h.links i (by omega) hr

theorem refs_rooted {mem : Nat → Mem} {type : IType} (hr : initInode mem v type = .ok (v', ip)) (j : Nat) :
    v'.refs j = v.refs j := by
  obtain ⟨hnew, hold⟩ := ialloc_inodes hr
  obtain ⟨hip, hv'⟩ := ialloc_ok hr
  have hn : v'.ninode = v.ninode + 1 := by rw [hv']
  have hent : (v'.inodes ip).ent = [] := congrArg Inode.ent hnew
  unfold Vfs.refs
  rw [hn, Finset.sum_range_succ, ← hip, hent, countP_nil, Nat.add_zero]
  refine Finset.sum_congr rfl fun i hi => ?_
  rw [hold i (Nat.ne_of_lt (Finset.mem_range.mp hi))]

theorem LinkInv.root {mem : Nat → Mem} (h : LinkInv roots v) (hr : initInode mem v .dir = .ok (v', ip)) :
    LinkInv (roots ++ [ip]) v' := by
  obtain ⟨hnew, hold⟩ := ialloc_inodes hr
  obtain ⟨hip, hv'⟩ := ialloc_ok hr
  have hn : v'.ninode = v.ninode + 1 := by rw [hv']
  constructor
  case ents =>
    intro d e he
    by_cases hd : d = ip
    · rw [hd, hnew] at he
      cases he
    · rw [hold d hd] at he
      have := h.ents d e he
      omega
  case links =>
    intro i hi hroot
    rw [mem_append, mem_singleton, not_or] at hroot
    rw [hold i hroot.2, refs_rooted hr]
    exact h.links i (by omega) hroot.1

theorem LinkInv.link {v1 : Vfs} (h : LinkInv roots v) (hd : dir < v.ninode) (hi : ip < v.ninode) {b : CStr}
    (hpar : nameiParent v b = some (dir, name)) (h1 : dirAdd v dir name ip = .ok v1)
    (h2 : v' = v1.setInode ip { v1.inodes ip with nlink := (v1.inodes ip).nlink + 1 }) : LinkInv roots v' := by
  have hl := linkedTo_link hpar h1 h2
  have hn := linked_ninode h1 h2
  have hnlink : ∀ i, (v1.inodes i).nlink = (v.inodes i).nlink := by
    intro i
    rw [dirAdd_ok h1]
    by_cases hid : i = dir
    · rw [hid, setInode_self]
    · rw [setInode_ne v _ hid]
  constructor
  case ents =>
    intro d e he
    rw [hn]
    by_cases hdd : d = dir
    · rw [hdd, hl.self, mem_append, mem_singleton] at he
      rcases he with he | rfl
      · exact h.ents dir e he
      · exact hi
    · rw [hl.other d hdd] at he
      exact h.ents d e he
  case links =>
    intro i hlt hr
    have hold := h.links i (hn ▸ hlt) hr
    rw [refs_linked hl hn hd, h2]
    by_cases hi' : i = ip
    · rw [hi', setInode_self, if_pos rfl, Nat.cast_add, ← hi', ← hold, ← hnlink]
      rfl
    · rw [setInode_ne v1 _ hi', hnlink, if_neg (Ne.symm hi'), hold, Nat.add_zero]

theorem LinkInv.unlink {v1 : Vfs} {ent : List (List UInt8 × Nat)} (h : LinkInv roots v) (hd : dir < v.ninode)
    (hperm : ((name, ip) :: ent).Perm (v.inodes dir).ent)
    (h1 : v1 = v.setInode ip { v.inodes ip with nlink := (v.inodes ip).nlink - 1 })
    (h2 : v' = v1.setInode dir { v1.inodes dir with ent := ent }) : LinkInv roots v' := by
  have hu := unlinked_of hperm h1 h2
  have hn := unlinked_ninode h1 h2
  have hself : (v'.inodes dir).ent = ent := by rw [h2, setInode_self]
  have hnlink : ∀ i, (v'.inodes i).nlink = (v1.inodes i).nlink := by
    intro i
    rw [h2]
    by_cases hid : i = dir
    · rw [hid, setInode_self]
    · rw [setInode_ne v1 _ hid]
  constructor
  case ents =>
    intro d e he
    rw [hn]
    by_cases hdd : d = dir
    · rw [hdd, hself] at he
      exact h.ents dir e (hperm.mem_iff.mp (mem_cons_of_mem _ he))
    · rw [hu.other d hdd] at he
      exact h.ents d e he
  case links =>
    intro i hlt hr
    have hold := h.links i (hn ▸ hlt) hr
    have hrefs := refs_unlinked hu hn hd hself hperm i
    rw [hnlink, h1]
    by_cases hi' : i = ip
    · rw [if_pos hi'.symm] at hrefs
      rw [hi', setInode_self, ← hi', hold, ← hrefs]
      simp
    · rw [if_neg (Ne.symm hi'), Nat.add_zero] at hrefs
      rw [setInode_ne v _ hi', hold, hrefs]

theorem LinkInv.move {hist : Hist} {a : VfsAct} (h : LinkInv roots v) (hf : FileInv v hist) (hm : DirMove v a v') :
    LinkInv roots v' := by
  cases hm with
  | same hs => exact h.same hs.sameLinks
  | create hc hs =>
    obtain ⟨dir, name, -, hpar, -, hg⟩ := hc.grown hf
    exact (h.grown (nameiParent_lt hf hpar) hg).same hs.sameLinks
  | link ha ht hpar h1 h2 => exact h.link (nameiParent_lt hf hpar) (hf.namei ha) hpar h1 h2
  | unlink hpar hperm h1 h2 => exact h.unlink (nameiParent_lt hf hpar) hperm h1 h2

/-! ## Directories are entered once -/

/-- The directories form trees under `roots`: `link` refuses them, so that the entry a directory
was made with stays its only one. -/
structure DirTree (roots : List Nat) (v : Vfs) : Prop extends LinkInv roots v where
  top : ∀ j ∈ roots, j < v.ninode ∧ (v.inodes j).type = .dir ∧ v.refs j = 0
  once : ∀ j, (v.inodes j).type = .dir → v.refs j ≤ 1

theorem DirTree.same (h : DirTree roots v) (hs : SameLinks v v') : DirTree roots v' := by
  have hrefs := refs_congr hs.ninode hs.ent
  refine ⟨h.toLinkInv.same hs, fun j hj => ?_, fun j hj => ?_⟩
  · rw [hs.ninode, hs.type, hrefs]
    exact h.top j hj
  · rw [hrefs]
    exact h.once j ((hs.type j).symm.trans hj)

theorem DirTree.grown (h : DirTree roots v) (hd : dir < v.ninode) (hg : Grown dir name ip v v') :
    DirTree roots v' := by
  have hip := hg.number
  refine ⟨h.toLinkInv.grown hd hg, fun j hj => ?_, fun j hj => ?_⟩
  · obtain ⟨hlt, ht, hr⟩ := h.top j hj
    have hne : j ≠ ip := by omega
    rw [hg.ninode, hg.type j hne, refs_grown hg hd, if_neg hne.symm]
    exact ⟨by omega, ht, hr⟩
  · rw [refs_grown hg hd]
    by_cases hj' : j = ip
    · rw [if_pos hj'.symm, hj', hip, h.refs_fresh]
    · rw [if_neg (Ne.symm hj')]
      exact h.once j ((hg.type j hj').symm.trans hj)

theorem DirTree.root {mem : Nat → Mem} (h : DirTree roots v) (hr : initInode mem v .dir = .ok (v', ip)) :
    DirTree (roots ++ [ip]) v' := by
  obtain ⟨hnew, hold⟩ := ialloc_inodes hr
  obtain ⟨hip, hv'⟩ := ialloc_ok hr
  have hn : v'.ninode = v.ninode + 1 := by rw [hv']
  have hfresh : v.refs ip = 0 := hip ▸ h.refs_fresh
  refine ⟨h.toLinkInv.root hr, fun j hj => ?_, fun j hj => ?_⟩
  · rw [refs_rooted hr, hn]
    rcases mem_append.mp hj with hj | hj
    · obtain ⟨hlt, ht, hr⟩ := h.top j hj
      rw [hold j (by omega)]
      exact ⟨by omega, ht, hr⟩
    · rw [mem_singleton.mp hj, hnew]
      exact ⟨by omega, rfl, hfresh⟩
  · rw [refs_rooted hr]
    by_cases hj' : j = ip
    · rw [hj', hfresh]
      exact Nat.zero_le 1
    · rw [hold j hj'] at hj
      exact h.once j hj

theorem DirTree.move {hist : Hist} {a : VfsAct} (h : DirTree roots v) (hf : FileInv v hist) (hm : DirMove v a v') :
    DirTree roots v' := by
  have hlinks := h.toLinkInv.move hf hm
  cases hm with
  | same hs => exact h.same hs.sameLinks
  | create hc hs =>
    obtain ⟨dir, name, -, hpar, -, hg⟩ := hc.grown hf
    exact (h.grown (nameiParent_lt hf hpar) hg).same hs.sameLinks
  | @link p ip dir a b name v1 _ ha ht hpar h1 h2 =>
    have hl := linkedTo_link hpar h1 h2
    have hn := linked_ninode h1 h2
    have hrefs : ∀ j, (v.inodes j).type = .dir → v'.refs j = v.refs j := by
      intro j hj
      rw [refs_linked hl hn (nameiParent_lt hf hpar), if_neg ?_, Nat.add_zero]
      rintro rfl
      exact ht hj
    refine ⟨hlinks, fun j hj => ?_, fun j hj => ?_⟩
    · obtain ⟨hlt, hd, hr⟩ := h.top j hj
      rw [hn, hl.type, hrefs j hd]
      exact ⟨hlt, hd, hr⟩
    · rw [hl.type] at hj
      rw [hrefs j hj]
      exact h.once j hj
  | @unlink _ path dir ip name ent v1 _ hpar hperm h1 h2 =>
    have hu := unlinked_of hperm h1 h2
    have hn := unlinked_ninode h1 h2
    have hrefs : ∀ j, v'.refs j ≤ v.refs j := by
      intro j
      have := refs_unlinked hu hn (nameiParent_lt hf hpar) (by rw [h2, setInode_self]) hperm j
      omega
    refine ⟨hlinks, fun j hj => ?_, fun j hj => ?_⟩
    · obtain ⟨hlt, hd, hr⟩ := h.top j hj
      rw [hn, hu.type]
      exact ⟨hlt, hd, Nat.le_zero.mp (hr ▸ hrefs j)⟩
    · rw [hu.type] at hj
      exact (hrefs j).trans (h.once j hj)

theorem eq_of_countP_le_one {α : Type} {p : α → Bool} {l : List α} (h : l.countP p ≤ 1) {a b : α} (ha : a ∈ l)
    (hb : b ∈ l) (hpa : p a = true) (hpb : p b = true) : a = b := by
  have ha := mem_filter.mpr ⟨ha, hpa⟩
  have hb := mem_filter.mpr ⟨hb, hpb⟩
  rw [countP_eq_length_filter] at h
  match hl : l.filter p with
  | [] => rw [hl] at ha; cases ha
  | [c] =>
    rw [hl, mem_singleton] at ha hb
    exact ha.trans hb.symm
  | _ :: _ :: _ => rw [hl] at h; simp at h

theorem dirLookup_entry (hb : v.Blank) {e j : Nat} (hl : dirLookup v e name = some j) :
    (v.inodes e).type = .dir ∧ (name, j) ∈ (v.inodes e).ent ∧ e ∈ Finset.range v.ninode := by
  have ht : (v.inodes e).type = .dir := by
    by_contra ht
    rw [dirLookup, if_pos ht] at hl
    cases hl
  rw [dirLookup_dir ht, Option.map_eq_some_iff] at hl
  obtain ⟨⟨key, i⟩, hfind, rfl⟩ := hl
  obtain rfl : key = name := by simpa using find?_some hfind
  have hmem := mem_of_find?_eq_some hfind
  refine ⟨ht, hmem, Finset.mem_range.mpr (Nat.lt_of_not_le fun hge => ?_)⟩
  rw [hb e hge] at hmem
  cases hmem

/-- Two lookups that find the same directory are one. -/
theorem DirTree.lookup_unique (h : DirTree roots v) (hb : v.Blank) {e e' j : Nat} {name' : List UInt8}
    (hj : (v.inodes j).type = .dir) (hl : dirLookup v e name = some j) (hl' : dirLookup v e' name' = some j) :
    e = e' ∧ name = name' := by
  obtain ⟨-, he, hlt⟩ := dirLookup_entry hb hl
  obtain ⟨-, he', hlt'⟩ := dirLookup_entry hb hl'
  have honce := h.once j hj
  unfold Vfs.refs at honce
  by_cases hee : e = e'
  · subst hee
    have hle := (Finset.single_le_sum (fun _ _ => Nat.zero_le _) hlt).trans honce
    exact ⟨rfl, congrArg Prod.fst (eq_of_countP_le_one hle he he' (decide_eq_true rfl) (decide_eq_true rfl))⟩
  · have hpair := Finset.sum_le_sum_of_subset (f := fun i => (v.inodes i).ent.countP fun x => x.2 = j)
      (Finset.insert_subset hlt (Finset.singleton_subset_iff.mpr hlt'))
    rw [Finset.sum_pair hee] at hpair
    have hpos : 0 < (v.inodes e).ent.countP fun x => x.2 = j :=
      countP_pos_iff.mpr ⟨_, he, decide_eq_true rfl⟩
    have hpos' : 0 < (v.inodes e').ent.countP fun x => x.2 = j :=
      countP_pos_iff.mpr ⟨_, he', decide_eq_true rfl⟩
    omega

theorem DirTree.not_root (h : DirTree roots v) (hb : v.Blank) {e j : Nat} (hj : j ∈ roots) :
    dirLookup v e name ≠ some j := by
  intro hl
  obtain ⟨-, he, hlt⟩ := dirLookup_entry hb hl
  have hnone := Finset.sum_eq_zero_iff.mp (h.top j hj).2.2 e hlt
  exact countP_eq_zero.mp hnone _ he (decide_eq_true rfl)

end

/-! ## Runs -/

theorem bootRule_links (mem : Nat → Mem) : BootRule mem LinkInv where
  blank := ⟨fun _ _ he => (nomatch he), fun _ hi => absurd hi (Nat.not_lt_zero _)⟩
  install := fun h hd hi => h.grown hd (hi.grown hd).1
  root := by
    intro roots v v' ip h hr
    exact h.root hr
  mount := fun h _ => ⟨h.ents, h.links⟩

theorem bootRule_dirTree (mem : Nat → Mem) : BootRule mem DirTree where
  blank := by
    refine ⟨(bootRule_links mem).blank, fun j hj => (nomatch hj), fun j _ => ?_⟩
    exact Nat.zero_le 1
  install := fun h hd hi => h.grown hd (hi.grown hd).1
  root := by
    intro roots v v' ip h hr
    exact h.root hr
  mount := fun h _ => ⟨⟨h.ents, h.links⟩, h.top, h.once⟩

theorem run_dirTree {mem : Nat → Mem} {progs : List (List UInt8 × List UInt8)} {v : Vfs} {as : List VfsAct}
    {s : VfsSys} (hinit : vfsInit mem progs = .ok v) (hr : run VfsSys.step (VfsSys.init v) as = some s) :
    ∃ dev proc, Reached s.vfs s.hist dev proc ∧ DirTree [0, dev, proc] s.vfs := by
  obtain ⟨dev, proc, htree, -, -, hm⟩ := vfsInit_rule (bootRule_dirTree mem) hinit
  have hinv := run_inv (I := fun s => FileInv s.vfs s.hist ∧ DirTree [0, dev, proc] s.vfs ∧
    s.vfs.mounts = [(bytes "/", 0), (bytes "/dev", dev), (bytes "/proc", proc)]) ?_ as _ s
    ⟨fileInv_init hinit, htree, hm⟩ hr
  · obtain ⟨-, htree, hm⟩ := hinv
    obtain ⟨dev', proc', hv⟩ := run_reached hinit hr
    have hms := hv.mounts.symm.trans hm
    simp only [List.cons.injEq, Prod.mk.injEq, true_and, and_true] at hms
    obtain ⟨rfl, rfl⟩ := hms
    exact ⟨dev', proc', hv, htree⟩
  · rintro s a s' ⟨hf, ht, hm⟩ h
    have hd := step_dirs h
    exact ⟨fileInv_step hf h, ht.move hf hd, (hd.mounts hf).trans hm⟩

/-- `nlink` is the number of entries, for every inode but the roots of the mounts. -/
theorem nlink_counts_entries {mem : Nat → Mem} {progs : List (List UInt8 × List UInt8)} {v : Vfs} {as : List VfsAct}
    {s : VfsSys} (hinit : vfsInit mem progs = .ok v) (hr : run VfsSys.step (VfsSys.init v) as = some s) {i : Nat}
    (hi : i < s.vfs.ninode) (hroot : i ∉ s.vfs.mounts.map Prod.snd) : (s.vfs.inodes i).nlink = s.vfs.refs i := by
  obtain ⟨dev, proc, hlinks, -, -, hm⟩ := vfsInit_rule (bootRule_links mem) hinit
  have hinv := run_inv (I := fun s => FileInv s.vfs s.hist ∧ LinkInv [0, dev, proc] s.vfs ∧
    s.vfs.mounts = [(bytes "/", 0), (bytes "/dev", dev), (bytes "/proc", proc)]) ?_ as _ s
    ⟨fileInv_init hinit, hlinks, hm⟩ hr
  · obtain ⟨-, hlinks, hm⟩ := hinv
    rw [hm] at hroot
    exact hlinks.links i hi hroot
  · rintro s a s' ⟨hf, hl, hm⟩ h
    have hd := step_dirs h
    exact ⟨fileInv_step hf h, hl.move hf hd, (hd.mounts hf).trans hm⟩

def relinkRun : List VfsAct :=
  [.spawn 1, .call 1 (.sysOpen (some fun _ => 0) ⟨bytes "/tmp/x", []⟩ oCreate),
    .call 1 (.sysMkdir (some fun _ => 0) ⟨bytes "/tmp/d", []⟩),
    .call 1 (.sysLink ⟨bytes "/tmp/x", []⟩ ⟨bytes "/tmp/d/y", []⟩), .call 1 (.sysUnlink ⟨bytes "/tmp/x", []⟩)]

theorem nlink_counts_relinked : ∃ s, run VfsSys.step (VfsSys.init bootVfs) relinkRun = some s ∧
    namei s.vfs ⟨bytes "/tmp/d/y", []⟩ = some 14 ∧ (s.vfs.inodes 14).nlink = s.vfs.refs 14 := by
  have hrun : ((run VfsSys.step (VfsSys.init bootVfs) relinkRun).any fun s =>
      namei s.vfs ⟨bytes "/tmp/d/y", []⟩ = some 14 ∧ 14 < s.vfs.ninode ∧ 14 ∉ s.vfs.mounts.map Prod.snd) = true := by
    decide +kernel
  obtain ⟨s, hs, h⟩ := (Option.any_eq_true _ _).mp hrun
  obtain ⟨hy, hlt, hroot⟩ := of_decide_eq_true h
  exact ⟨s, hs, hy, nlink_counts_entries vfsInit_boot hs hlt hroot⟩

end NjuOs
