import Mathlib.Data.List.MinMax
import NjuOs.PathSound

/-!
# Whole components

The reference for `namei` splits a path at its slashes and looks up each component as it is.
`nextcomp` copies at most `NAMELEN - 1` bytes of a component and goes on in the middle of it, so
that one long component is looked up like several nested ones.
-/

namespace NjuOs

open List

def components (p : List UInt8) : List (List UInt8) := (p.splitOn slash).filter (· ≠ [])

def longestMount (v : Vfs) (names : List (List UInt8)) : Option (List UInt8 × Nat) :=
  (v.mounts.filter fun m => components m.1 <+: names).argmax fun m => (components m.1).length

def behindMount (m : List UInt8 × Nat) (names : List (List UInt8)) : List (List UInt8) :=
  names.drop (components m.1).length

def referenceWalk (v : Vfs) (p : List UInt8) : Option Nat :=
  (longestMount v (components p)).bind fun m => walk v m.2 (behindMount m (components p))

def piecesLoop : Nat → List UInt8 → List (List UInt8)
  | 0, _ => []
  | fuel + 1, c => if c = [] then [] else c.take (nameLen - 1) :: piecesLoop fuel (c.drop (nameLen - 1))

def pieces (c : List UInt8) : List (List UInt8) := piecesLoop c.length c

/-! ## Components and pieces -/

section
variable {c p q t : List UInt8}

theorem components_single (h : slash ∉ c) (hne : c ≠ []) : components c = [c] := by
  unfold components
  rw [splitOn_eq_singleton h]
  simp [hne]

theorem components_slash (h : slash ∉ c) (q : List UInt8) :
    components (c ++ slash :: q) = components c ++ components q := by
  have hc : ∀ x ∈ c, (x == slash) = false := fun x hx => beq_false_of_ne fun he => h (he ▸ hx)
  unfold components List.splitOn
  rw [splitOnP_append_cons_of_forall_mem hc slash (beq_self_eq_true _), splitOnP_eq_singleton hc,
    ← filter_append, singleton_append]

theorem takeWhile_no_slash (h : slash ∉ c) : c.takeWhile (· ≠ slash) = c := by
  rw [takeWhile_eq_self_iff]
  exact fun x hx => decide_eq_true fun he => h (he ▸ hx)

theorem skipslash_no_slash (h : slash ∉ c) : skipslash c = c := by
  cases c with
  | nil => rfl
  | cons a c =>
    have ha : a ≠ slash := fun ha => h (ha ▸ mem_cons_self)
    simp [skipslash, ha]

theorem comps_pieces : ∀ (fuel : Nat) (c : List UInt8), slash ∉ c → c.length ≤ fuel → comps c = piecesLoop fuel c
  | 0, c, _, hl => by
    rw [length_eq_zero_iff.mp (Nat.le_zero.mp hl)]
    rfl
  | fuel + 1, c, h, hl => by
    have hs := skipslash_no_slash h
    rw [piecesLoop]
    split
    · next hc => rw [hc]; rfl
    · next hc =>
      have hpos := length_pos_iff.mpr hc
      have hnext : nextcomp c = (c.take (nameLen - 1), c.drop (nameLen - 1)) := by
        simp only [nextcomp, hs, takeWhile_no_slash h, Prod.mk.injEq, true_and, length_take]
        rw [← drop_eq_drop_min]
      rw [comps_cons (by rw [hs]; exact hc), hnext]
      refine congrArg _ (comps_pieces fuel _ (fun hm => h (mem_of_mem_drop hm)) ?_)
      rw [length_drop]
      have : 1 ≤ nameLen - 1 := by decide
      omega

/-- `nextcomp` sees the components, cut into pieces. -/
theorem comps_components : ∀ (n : Nat) (p : List UInt8), p.length ≤ n → comps p = (components p).flatMap pieces
  | n, p, hn => by
    by_cases h : slash ∈ p
    · obtain ⟨c, q, rfl, hc⟩ := eq_append_cons_of_mem h
      cases n with
      | zero => simp at hn
      | succ n =>
        simp only [length_append, length_cons] at hn
        rw [comps_append, components_slash hc, flatMap_append,
          comps_components n c (by omega), comps_components n q (by omega)]
    · by_cases hp : p = []
      · rw [hp]
        rfl
      · rw [components_single h hp, flatMap_singleton]
        exact comps_pieces _ p h (Nat.le_refl _)

theorem components_first (ht : t.head? ≠ some slash) (hne : t ≠ []) :
    components t = t.takeWhile (· ≠ slash) :: components (t.drop (t.takeWhile (· ≠ slash)).length) := by
  by_cases h : slash ∈ t
  · obtain ⟨c, q, rfl, hc⟩ := eq_append_cons_of_mem h
    have hcne : c ≠ [] := by
      rintro rfl
      exact ht rfl
    have hq : components (slash :: q) = components q := components_slash (not_mem_nil) q
    rw [takeWhile_append_slash, takeWhile_no_slash hc, drop_left, hq, components_slash hc,
      components_single hc hcne, singleton_append]
  · rw [takeWhile_no_slash h, drop_length, components_single h hne]
    rfl

theorem pieces_short (hne : c ≠ []) (hl : c.length ≤ nameLen - 1) : pieces c = [c] := by
  unfold pieces
  cases h : c.length with
  | zero => exact absurd (length_eq_zero_iff.mp h) hne
  | succ n =>
    have hnil : piecesLoop n [] = [] := by cases n <;> rfl
    rw [piecesLoop, if_neg hne, take_of_length_le hl, drop_of_length_le hl, hnil]

theorem ne_nil_of_mem_components (h : c ∈ components p) : c ≠ [] := by
  simpa using (mem_filter.mp h).2

theorem flatMap_pieces_short {names : List (List UInt8)} (hne : ∀ c ∈ names, c ≠ [])
    (hl : ∀ c ∈ names, c.length ≤ nameLen - 1) : names.flatMap pieces = names := by
  induction names with
  | nil => rfl
  | cons c names ih =>
    rw [flatMap_cons, pieces_short (hne c mem_cons_self) (hl c mem_cons_self),
      ih (fun d hd => hne d (mem_cons_of_mem c hd)) (fun d hd => hl d (mem_cons_of_mem c hd))]
    rfl

end

/-! ## Names in directories -/

/-- No directory holds a name that `dir_add` would have cut. -/
def Vfs.NamesFit (v : Vfs) : Prop := ∀ i, ∀ name ∈ v.names i, name.length ≤ nameLen - 1

section
variable {v v' : Vfs} {dir ip : Nat} {name : List UInt8}

theorem SameDirs.namesFit (h : SameDirs v v') (hv : v.NamesFit) : v'.NamesFit := by
  intro i
  rw [Vfs.names, h.ent]
  exact hv i

theorem Entered.namesFit (h : Entered dir name ip v v') (hl : name.length ≤ nameLen - 1) (hv : v.NamesFit) :
    v'.NamesFit := by
  intro i n hn
  by_cases hi : i = dir
  · subst hi
    rw [Vfs.names, h.self, map_append] at hn
    rcases mem_append.mp hn with hn | hn
    · exact hv i n hn
    · rw [mem_singleton.mp hn]
      exact hl
  · rcases h.other i hi with he | he
    · rw [Vfs.names, he] at hn
      exact hv i n hn
    · rw [Vfs.names, he] at hn
      cases hn

theorem Unlinked.namesFit (h : Unlinked dir name v v') (hv : v.NamesFit) : v'.NamesFit := by
  intro i n hn
  by_cases hi : i = dir
  · subst hi
    obtain ⟨ip, hperm⟩ := h.self
    exact hv i n ((hperm.map Prod.fst).mem_iff.mp (mem_cons_of_mem _ hn))
  · rw [Vfs.names, h.other i hi] at hn
    exact hv i n hn

theorem nameiParent_fits {path : CStr} (h : nameiParent v path = some (dir, name)) : name.length ≤ nameLen - 1 := by
  have hname : name.take (nameLen - 1) = name := nameiParent_name h
  rw [← hname]
  exact length_take_le ..

theorem DirMove.namesFit {a : VfsAct} {hist : Hist} (hf : FileInv v hist) (h : DirMove v a v') (hv : v.NamesFit) :
    v'.NamesFit := by
  cases h with
  | same h => exact h.sameLinks.toSameDirs.namesFit hv
  | create h hs =>
    obtain ⟨dir, name, -, hpar, -, hg⟩ := h.grown hf
    exact hs.sameLinks.toSameDirs.namesFit (hg.entered.namesFit (nameiParent_fits hpar) hv)
  | link ha ht hpar h1 h2 => exact (linkedTo_link hpar h1 h2).entered.namesFit (nameiParent_fits hpar) hv
  | unlink hpar hperm h1 h2 => exact (unlinked_of hperm h1 h2).namesFit hv

theorem bootRule_namesFit (mem : Nat → Mem) : BootRule mem fun _ v => v.NamesFit where
  blank := fun _ _ h => nomatch h
  install := fun hv hd h => (h.grown hd).1.entered.namesFit (length_take_le ..) hv
  root := by
    intro roots v v' ip hv h i n hn
    obtain ⟨hnew, hold⟩ := ialloc_inodes h
    by_cases hi : i = ip
    · rw [Vfs.names, hi, hnew] at hn
      cases hn
    · rw [Vfs.names, hold i hi] at hn
      exact hv i n hn
  mount := fun hv _ => hv

theorem dirLookup_long (hv : v.NamesFit) (hl : nameLen - 1 < name.length) : dirLookup v dir name = none := by
  unfold dirLookup
  split
  · rfl
  · rw [Option.map_eq_none_iff, find?_eq_none]
    intro e he hn
    have hfit := hv dir e.1 (mem_map_of_mem he)
    rw [of_decide_eq_true hn] at hfit
    omega

/-- No walk gets past a component that is too long to be an entry. -/
theorem walk_long (hv : v.NamesFit) {c : List UInt8} (hl : nameLen - 1 < c.length) :
    ∀ {names : List (List UInt8)} (ip : Nat), c ∈ names → walk v ip names = none
  | name :: names, ip, hc => by
    rw [walk_cons]
    rcases mem_cons.mp hc with rfl | hc
    · rw [dirLookup_long hv hl]
      rfl
    · cases dirLookup v ip name with
      | none => rfl
      | some j => exact walk_long hv hl j hc

end

/-! ## The walk of `namei` -/

section
variable {v : Vfs} {hist : Hist} {dev proc : Nat} {t : List UInt8}

theorem first_component (ht : t.head? ≠ some slash) {c : List UInt8} (hc : c ≠ []) :
    [c] <+: components t ↔ t.takeWhile (· ≠ slash) = c := by
  by_cases hne : t = []
  · rw [hne]
    exact iff_of_false (fun h => by cases prefix_nil.mp h) fun h => hc h.symm
  · rw [components_first ht hne, cons_prefix_cons]
    exact ⟨fun h => h.1.symm, fun h => ⟨h.symm, nil_prefix⟩⟩

theorem components_behind (ht : t.head? ≠ some slash) {c : List UInt8} (hc : c ≠ [])
    (h : t.takeWhile (· ≠ slash) = c) : (components t).drop 1 = components (t.drop c.length) := by
  have hne : t ≠ [] := by
    rintro rfl
    exact hc h.symm
  rw [components_first ht hne, h]
  rfl

/-- The components decide about the mount like the bytes do. -/
theorem Reached.mount_components (hv : Reached v hist dev proc) (ht : t.head? ≠ some slash) (after : List UInt8) :
    ∃ m, longestMount v (components (slash :: t)) = some m ∧ (resolveMount v ⟨slash :: t, after⟩).1 = m.2 ∧
      comps (resolveMount v ⟨slash :: t, after⟩).2 = (behindMount m (components (slash :: t))).flatMap pieces := by
  have hcomps : ∀ p, comps (skipslash p) = (components p).flatMap pieces := fun p =>
    (comps_skipslash p).trans (comps_components _ p (Nat.le_refl _))
  have hroot : components (slash :: t) = components t := components_slash not_mem_nil t
  have hpre : components (bytes "/") <+: components t := nil_prefix
  have hdev : components (bytes "/dev") <+: components t ↔ _ := first_component ht (c := bytes "dev") (by decide)
  have hproc : components (bytes "/proc") <+: components t ↔ _ := first_component ht (c := bytes "proc") (by decide)
  rw [hv.resolve, hroot]
  unfold longestMount
  rw [hv.mounts]
  simp only [filter_cons, filter_nil, hpre, hdev, hproc, decide_true, if_true]
  by_cases h1 : t.takeWhile (· ≠ slash) = bytes "dev"
  · have h2 : t.takeWhile (· ≠ slash) ≠ bytes "proc" := by
      rw [h1]
      decide
    refine ⟨(bytes "/dev", dev), ?_, ?_, ?_⟩
    · rw [if_pos (decide_eq_true h1), if_neg (by simpa using h2)]
      rfl
    · rw [if_pos h1]
    · rw [if_pos h1, hcomps]
      exact congrArg _ (components_behind ht (by decide) h1).symm
  · by_cases h2 : t.takeWhile (· ≠ slash) = bytes "proc"
    · refine ⟨(bytes "/proc", proc), ?_, ?_, ?_⟩
      · rw [if_neg (by simpa using h1), if_pos (decide_eq_true h2)]
        rfl
      · rw [if_neg h1, if_pos h2]
      · rw [if_neg h1, if_pos h2, hcomps]
        exact congrArg _ (components_behind ht (by decide) h2).symm
    · refine ⟨(bytes "/", 0), ?_, ?_, ?_⟩
      · rw [if_neg (by simpa using h1), if_neg (by simpa using h2)]
        rfl
      · rw [if_neg h1, if_neg h2]
      · rw [if_neg h1, if_neg h2, hcomps]
        rfl

theorem walk_pieces_iff (hv : v.NamesFit) {names : List (List UInt8)} (hne : ∀ c ∈ names, c ≠ []) (ip : Nat) :
    walk v ip (names.flatMap pieces) = walk v ip names ↔
      (∀ c ∈ names, c.length ≤ nameLen - 1) ∨ walk v ip (names.flatMap pieces) = none := by
  by_cases hl : ∀ c ∈ names, c.length ≤ nameLen - 1
  · rw [flatMap_pieces_short hne hl]
    exact iff_of_true rfl (Or.inl hl)
  · obtain ⟨c, hc, hlong⟩ : ∃ c ∈ names, nameLen - 1 < c.length := by
      simpa using hl
    rw [walk_long hv hlong ip hc]
    exact (or_iff_right hl).symm

end

theorem run_namesFit {mem : Nat → Mem} {progs : List (List UInt8 × List UInt8)} {v : Vfs} {as : List VfsAct}
    {s : VfsSys} (hinit : vfsInit mem progs = .ok v) (hr : run VfsSys.step (VfsSys.init v) as = some s) :
    s.vfs.NamesFit := by
  obtain ⟨-, -, hboot, -⟩ := vfsInit_rule (bootRule_namesFit mem) hinit
  have hfit : FileInv s.vfs s.hist ∧ s.vfs.NamesFit :=
    run_inv (I := fun s => FileInv s.vfs s.hist ∧ s.vfs.NamesFit)
      (fun s a s' hs h => ⟨fileInv_step hs.1 h, (step_dirs h).namesFit hs.1 hs.2⟩) as _ s
      ⟨fileInv_init hinit, hboot⟩ hr
  exact hfit.2

/-- `namei` finds what the reference finds iff no component behind the mount point is longer than an
entry, or the pieces of the components lead nowhere in the tree. -/
theorem namei_reference_iff {mem : Nat → Mem} {progs : List (List UInt8 × List UInt8)} {v : Vfs} {as : List VfsAct}
    {s : VfsSys} {t : List UInt8} (hinit : vfsInit mem progs = .ok v)
    (hr : run VfsSys.step (VfsSys.init v) as = some s) (ht : t.head? ≠ some slash) (after : List UInt8) :
    ∃ m, longestMount s.vfs (components (slash :: t)) = some m ∧
      (namei s.vfs ⟨slash :: t, after⟩ = referenceWalk s.vfs (slash :: t) ↔
        (∀ c ∈ behindMount m (components (slash :: t)), c.length ≤ nameLen - 1) ∨
        walk s.vfs m.2 ((behindMount m (components (slash :: t))).flatMap pieces) = none) := by
  obtain ⟨dev, proc, hreach⟩ := run_reached hinit hr
  obtain ⟨m, hm, hroot, hcomps⟩ := hreach.mount_components ht after
  refine ⟨m, hm, ?_⟩
  have hne : ∀ c ∈ behindMount m (components (slash :: t)), c ≠ [] := fun c hc =>
    ne_nil_of_mem_components (mem_of_mem_drop hc)
  rw [namei_walk, hroot, hcomps, referenceWalk, hm, Option.bind_some]
  exact walk_pieces_iff (run_namesFit hinit hr) hne m.2

theorem namei_reference_nested : ∃ s, run VfsSys.step (VfsSys.init bootVfs) (openRun "/tmp/x") = some s ∧
    (bytes "tmp/x").head? ≠ some slash ∧ ∃ m, longestMount s.vfs (components (slash :: bytes "tmp/x")) = some m ∧
      (∀ c ∈ behindMount m (components (slash :: bytes "tmp/x")), c.length ≤ nameLen - 1) ∧
      namei s.vfs ⟨slash :: bytes "tmp/x", []⟩ = referenceWalk s.vfs (slash :: bytes "tmp/x") := by
  have hs : (run VfsSys.step (VfsSys.init bootVfs) (openRun "/tmp/x")).any (fun s : VfsSys =>
      decide (∀ m ∈ longestMount s.vfs (components (slash :: bytes "tmp/x")),
        ∀ c ∈ behindMount m (components (slash :: bytes "tmp/x")), c.length ≤ nameLen - 1)) = true := by decide +kernel
  obtain ⟨s, hs, h⟩ := (Option.any_eq_true _ _).mp hs
  have ht : (bytes "tmp/x").head? ≠ some slash := by decide
  obtain ⟨m, hm, hiff⟩ := namei_reference_iff vfsInit_boot hs ht []
  have hshort := of_decide_eq_true h m hm
  exact ⟨s, hs, ht, m, hm, hshort, hiff.mpr (Or.inl hshort)⟩

def longRun : List VfsAct :=
  [.spawn 1, .call 1 (.sysMkdir (some fun _ => 0) ⟨bytes "/tmp/abcdefghijklmnopqrstuvwxyz0", []⟩),
    .call 1 (.sysOpen (some fun _ => 0) ⟨bytes "/tmp/abcdefghijklmnopqrstuvwxyz0/x", []⟩ oCreate)]

/-- One component of 28 bytes leads to the file, which has two components below `/tmp`. -/
theorem component_walked_twice : ∃ s, run VfsSys.step (VfsSys.init bootVfs) longRun = some s ∧
    namei s.vfs ⟨bytes "/tmp/abcdefghijklmnopqrstuvwxyz0x", []⟩ = some 15 ∧
    referenceWalk s.vfs (bytes "/tmp/abcdefghijklmnopqrstuvwxyz0x") = none ∧
    referenceWalk s.vfs (bytes "/tmp/abcdefghijklmnopqrstuvwxyz0/x") = some 15 := by
  have hs : (run VfsSys.step (VfsSys.init bootVfs) longRun).any (fun s =>
      namei s.vfs ⟨bytes "/tmp/abcdefghijklmnopqrstuvwxyz0x", []⟩ = some 15 ∧
      referenceWalk s.vfs (bytes "/tmp/abcdefghijklmnopqrstuvwxyz0x") = none ∧
      referenceWalk s.vfs (bytes "/tmp/abcdefghijklmnopqrstuvwxyz0/x") = some 15) = true := by decide +kernel
  obtain ⟨s, hs, h⟩ := (Option.any_eq_true _ _).mp hs
  exact ⟨s, hs, of_decide_eq_true h⟩

end NjuOs
