import Mathlib.Data.List.TakeWhile
import NjuOs.DirLemmas

/-!
# Paths as lists of names

Both walkers follow the names that `nextcomp` cuts out of a path; a component of more than
`NAMELEN - 1` bytes counts as several. `resolve_mount` compares bytes before any slash is
skipped, so that a path with two slashes in front of `dev` leads to the placeholder in `/`.
-/

namespace NjuOs

open List Option

def compsLoop : Nat → List UInt8 → List (List UInt8)
  | 0, _ => []
  | fuel + 1, p => if skipslash p = [] then [] else (nextcomp p).1 :: compsLoop fuel (nextcomp p).2

def comps (p : List UInt8) : List (List UInt8) := compsLoop p.length p

def walk (v : Vfs) (ip : Nat) (names : List (List UInt8)) : Option Nat := names.foldlM (dirLookup v) ip

def parentWalk (v : Vfs) (ip : Nat) (names : List (List UInt8)) : Option (Nat × List UInt8) :=
  names.getLast?.bind fun name => (walk v ip names.dropLast).map (·, name)

/-! ## Names -/

section
variable {p q : List UInt8}

theorem nextcomp_shorter (h : skipslash p ≠ []) : (nextcomp p).1 ≠ [] ∧ (nextcomp p).2.length < p.length := by
  have hsome := nextcomp_some (skipslash_idem p) h
  rw [nextcomp_skipslash] at hsome
  exact ⟨hsome.1, Nat.lt_of_lt_of_le hsome.2 (skipslash_length p)⟩

theorem compsLoop_fuel : ∀ (fuel fuel' : Nat) (p : List UInt8), p.length ≤ fuel → p.length ≤ fuel' →
    compsLoop fuel p = compsLoop fuel' p
  | 0, 0, _, _, _ => rfl
  | 0, fuel' + 1, p, h, _ => by
    rw [length_eq_zero_iff.mp (Nat.le_zero.mp h)]
    rfl
  | fuel + 1, 0, p, _, h => by
    rw [length_eq_zero_iff.mp (Nat.le_zero.mp h)]
    rfl
  | fuel + 1, fuel' + 1, p, h, h' => by
    rw [compsLoop, compsLoop]
    by_cases hs : skipslash p = []
    · rw [if_pos hs, if_pos hs]
    · have hlt := (nextcomp_shorter hs).2
      rw [if_neg hs, if_neg hs, compsLoop_fuel fuel fuel' _ (by omega) (by omega)]

theorem comps_slashes (h : skipslash p = []) : comps p = [] := by
  unfold comps
  cases hl : p.length with
  | zero => rfl
  | succ n => rw [compsLoop, if_pos h]

theorem comps_cons (h : skipslash p ≠ []) : comps p = (nextcomp p).1 :: comps (nextcomp p).2 := by
  have hlt := (nextcomp_shorter h).2
  unfold comps
  cases hl : p.length with
  | zero => omega
  | succ n => rw [compsLoop, if_neg h, compsLoop_fuel n _ _ (by omega) (Nat.le_refl _)]

theorem comps_skipslash (p : List UInt8) : comps (skipslash p) = comps p := by
  by_cases h : skipslash p = []
  · rw [comps_slashes h, comps_slashes (by rw [skipslash_idem]; exact h)]
  · rw [comps_cons h, comps_cons (by rw [skipslash_idem]; exact h), nextcomp_skipslash]

theorem comps_eq_nil : comps p = [] ↔ skipslash p = [] := by
  refine ⟨fun h => ?_, comps_slashes⟩
  by_contra hs
  rw [comps_cons hs] at h
  cases h

theorem skipslash_append (h : skipslash p ≠ []) (q : List UInt8) : skipslash (p ++ q) = skipslash p ++ q := by
  induction p with
  | nil => exact absurd rfl h
  | cons a p ih =>
    by_cases ha : a = slash
    · simp only [skipslash, cons_append, dropWhile_cons, ha, decide_true, if_true] at h ih ⊢
      exact ih h
    · simp only [skipslash, cons_append, dropWhile_cons, ha, decide_false, Bool.false_eq_true, if_false]

theorem skipslash_slashes (h : skipslash p = []) (q : List UInt8) : skipslash (p ++ q) = skipslash q := by
  induction p with
  | nil => rfl
  | cons a p ih =>
    by_cases ha : a = slash
    · simp only [skipslash, cons_append, dropWhile_cons, ha, decide_true, if_true] at h ih ⊢
      exact ih h
    · simp only [skipslash, dropWhile_cons, ha, decide_false, Bool.false_eq_true, if_false] at h
      cases h

theorem takeWhile_append_slash (p q : List UInt8) :
    (p ++ slash :: q).takeWhile (· ≠ slash) = p.takeWhile (· ≠ slash) := by
  induction p with
  | nil => simp
  | cons a p ih =>
    rw [cons_append, takeWhile_cons, takeWhile_cons, ih]

theorem nextcomp_append (h : skipslash p ≠ []) (q : List UInt8) :
    nextcomp (p ++ slash :: q) = ((nextcomp p).1, (nextcomp p).2 ++ slash :: q) := by
  have hname : (((skipslash p).takeWhile (· ≠ slash)).take (nameLen - 1)).length ≤ (skipslash p).length :=
    ((take_sublist ..).trans (takeWhile_sublist _)).length_le
  simp only [nextcomp, skipslash_append h, takeWhile_append_slash]
  rw [drop_append_of_le_length hname]

theorem comps_append_slash : ∀ (n : Nat) (p q : List UInt8), p.length ≤ n →
    comps (p ++ slash :: q) = comps p ++ comps q
  | n, p, q, hn => by
    by_cases h : skipslash p = []
    · have hq : skipslash (p ++ slash :: q) = skipslash q := skipslash_slashes h (slash :: q)
      rw [comps_slashes h, ← comps_skipslash, hq, comps_skipslash, nil_append]
    · have hne : skipslash (p ++ slash :: q) ≠ [] := by
        rw [skipslash_append h]
        exact append_ne_nil_of_left_ne_nil h _
      have hlt := (nextcomp_shorter h).2
      cases n with
      | zero => omega
      | succ n =>
        rw [comps_cons hne, comps_cons h, nextcomp_append h, cons_append,
          comps_append_slash n _ q (by omega)]

theorem comps_append (p q : List UInt8) : comps (p ++ slash :: q) = comps p ++ comps q :=
  comps_append_slash p.length p q (Nat.le_refl _)

theorem skipslash_eq_nil : skipslash p = [] ↔ p = List.replicate p.length slash := by
  rw [eq_replicate_length, skipslash, dropWhile_eq_nil_iff]
  simp only [decide_eq_true_eq]

theorem comps_run (p q : List UInt8) (n : Nat) :
    comps (p ++ List.replicate (n + 1) slash ++ q) = comps (p ++ slash :: q) := by
  have hrun : skipslash (List.replicate n slash) = [] := skipslash_eq_nil.mpr (by rw [length_replicate])
  have hrest : comps (List.replicate n slash ++ q) = comps q := by
    rw [← comps_skipslash, skipslash_slashes hrun, comps_skipslash]
  rw [append_assoc, replicate_succ, cons_append, comps_append, hrest, comps_append]

/-! ## The walkers -/

variable {v : Vfs}

theorem walk_cons (ip : Nat) (name : List UInt8) (names : List (List UInt8)) :
    walk v ip (name :: names) = (dirLookup v ip name).bind fun j => walk v j names := rfl

theorem walk_snoc (ip : Nat) (names : List (List UInt8)) (name : List UInt8) :
    walk v ip (names ++ [name]) = (walk v ip names).bind fun d => dirLookup v d name := by
  unfold walk
  rw [foldlM_append]
  cases names.foldlM (dirLookup v) ip with
  | none => rfl
  | some d => simp

theorem nameiLoop_walk : ∀ (fuel ip : Nat) (rest : List UInt8), rest.length ≤ fuel →
    nameiLoop v fuel ip rest = walk v ip (comps rest)
  | 0, ip, rest, h => by
    rw [length_eq_zero_iff.mp (Nat.le_zero.mp h)]
    rfl
  | fuel + 1, ip, rest, h => by
    by_cases hs : skipslash rest = []
    · rw [nameiLoop_slashes _ _ hs, comps_slashes hs]
      rfl
    · obtain ⟨hname, hlt⟩ := nextcomp_shorter hs
      have hne : rest ≠ [] := by
        rintro rfl
        exact hs rfl
      rw [nameiLoop_succ, if_neg (not_or.mpr ⟨hne, hname⟩), comps_cons hs, walk_cons]
      congr 1
      funext j
      exact nameiLoop_walk fuel j _ (by omega)

theorem namei_walk (path : CStr) :
    namei v path = walk v (resolveMount v path).1 (comps (resolveMount v path).2) :=
  nameiLoop_walk _ _ _ (Nat.le_refl _)

theorem parentWalk_cons (ip : Nat) (name : List UInt8) {names : List (List UInt8)} (h : names ≠ []) :
    parentWalk v ip (name :: names) = (dirLookup v ip name).bind fun j => parentWalk v j names := by
  unfold parentWalk
  rw [getLast?_cons, dropLast_cons_of_ne_nil h, walk_cons, getLast?_eq_some_getLast h]
  cases dirLookup v ip name <;> rfl

theorem nameiParentLoop_walk : ∀ (fuel ip : Nat) (rest : List UInt8), rest.length ≤ fuel → skipslash rest ≠ [] →
    nameiParentLoop v fuel ip rest = parentWalk v ip (comps rest)
  | 0, ip, rest, h, hs => by
    rw [length_eq_zero_iff.mp (Nat.le_zero.mp h)] at hs
    exact absurd rfl hs
  | fuel + 1, ip, rest, h, hs => by
    have hlt := (nextcomp_shorter hs).2
    rw [nameiParentLoop_succ, comps_cons hs]
    by_cases hlast : skipslash (nextcomp rest).2 = []
    · rw [if_pos hlast, comps_slashes hlast]
      rfl
    · have hle := skipslash_length (nextcomp rest).2
      have hmore : comps (nextcomp rest).2 ≠ [] := fun he => hlast (comps_eq_nil.mp he)
      rw [if_neg hlast, parentWalk_cons _ _ hmore, ← comps_skipslash]
      congr 1
      funext j
      exact nameiParentLoop_walk fuel j _ (by omega) (by rw [skipslash_idem]; exact hlast)

theorem nameiParent_walk (path : CStr) :
    nameiParent v path = parentWalk v (resolveMount v path).1 (comps (resolveMount v path).2) := by
  unfold nameiParent
  simp only
  by_cases hs : skipslash (resolveMount v path).2 = []
  · rw [if_pos hs, comps_slashes hs]
    rfl
  · rw [if_neg hs, ← comps_skipslash]
    exact nameiParentLoop_walk _ _ _ (Nat.le_refl _) (by rw [skipslash_idem]; exact hs)

theorem parentWalk_none {ip : Nat} {names : List (List UInt8)} (h : parentWalk v ip names = none) :
    names = [] ∨ walk v ip names = none := by
  rcases eq_nil_or_concat names with he | ⟨init, name, rfl⟩
  · exact Or.inl he
  · right
    unfold parentWalk at h
    rw [concat_eq_append, getLast?_concat, dropLast_concat, bind_some,
      map_eq_none_iff] at h
    rw [concat_eq_append, walk_snoc, h]
    rfl

/-! ## Mounts -/

theorem bestMount_spec (p : List UInt8) : ∀ (ms : List (List UInt8 × Nat)) (best : Nat × Nat),
    bestMount p ms best = best ∨ ∃ m ∈ ms, bestMount p ms best = (m.2, m.1.length) ∧ m.1 <+: p
  | [], best => Or.inl rfl
  | (mp, root) :: ms, (r, l) => by
    rw [bestMount]
    split
    · next h =>
      rcases bestMount_spec p ms (root, mp.length) with he | ⟨m, hm, he, hpre⟩
      · exact Or.inr ⟨(mp, root), mem_cons_self, he, h.1⟩
      · exact Or.inr ⟨m, mem_cons_of_mem _ hm, he, hpre⟩
    · rcases bestMount_spec p ms (r, l) with he | ⟨m, hm, he, hpre⟩
      · exact Or.inl he
      · exact Or.inr ⟨m, mem_cons_of_mem _ hm, he, hpre⟩

def MountRoot (v : Vfs) (p : List UInt8) : Prop := ∃ m ∈ v.mounts, ∃ n, p = m.1 ++ List.replicate n slash

variable {hist : Hist} {dev proc : Nat}

theorem Reached.mountRoot (hv : Reached v hist dev proc) {path : CStr} (hp : path.str.head? = some slash)
    (h : comps (resolveMount v path).2 = []) : MountRoot v path.str := by
  -- the mount point that was chosen, and what follows it
  have hroot : ∃ m ∈ v.mounts, m.1 <+: path.str ∧ (resolveMount v path).2 = skipslash (path.str.drop m.1.length) := by
    have hslash : bytes "/" <+: path.str := by
      cases hs : path.str with
      | nil => rw [hs] at hp; cases hp
      | cons a l =>
        rw [hs] at hp
        cases hp
        exact ⟨l, rfl⟩
    have hres : ∀ m ∈ v.mounts, m.1 <+: path.str →
        skipslash (path.advance m.1.length) = skipslash (path.str.drop m.1.length) := by
      intro m _ hpre
      rw [CStr.advance, if_pos hpre.length_le]
    unfold resolveMount
    rw [hv.mounts] at hres ⊢
    rcases bestMount_spec path.str [(bytes "/dev", dev), (bytes "/proc", proc)] (0, 1) with he | ⟨m, hm, he, hpre⟩
    · exact ⟨(bytes "/", 0), mem_cons_self, hslash, by simp only [he]; exact hres _ mem_cons_self hslash⟩
    · have hm := mem_cons_of_mem (bytes "/", 0) hm
      exact ⟨m, hm, hpre, by simp only [he]; exact hres m hm hpre⟩
  obtain ⟨m, hm, ⟨rest, hrest⟩, hskip⟩ := hroot
  have hnil := comps_eq_nil.mp h
  rw [hskip, skipslash_idem, ← hrest, drop_left] at hnil
  exact ⟨m, hm, rest.length, by rw [← hrest, ← skipslash_eq_nil.mp hnil]⟩

theorem mount_match {mp t : List UInt8} (hmp : slash ∉ mp) :
    (slash :: mp <+: slash :: t ∧ ((slash :: t).drop (mp.length + 1)).head?.all (· = slash)) ↔
      t.takeWhile (· ≠ slash) = mp := by
  have hall : ∀ x ∈ mp, decide (x ≠ slash) = true := fun x hx => decide_eq_true fun he => hmp (he ▸ hx)
  constructor
  · rintro ⟨hpre, hend⟩
    obtain ⟨rest, rfl⟩ := (cons_prefix_cons.mp hpre).2
    rw [drop_succ_cons, drop_left] at hend
    rw [takeWhile_append_of_pos hall]
    cases rest with
    | nil => simp
    | cons c rest => simp_all
  · intro h
    have hsplit := takeWhile_append_dropWhile (p := fun x => decide (x ≠ slash)) (l := t)
    rw [h] at hsplit
    have hend : (t.dropWhile fun x => decide (x ≠ slash)).head?.all (· = slash) = true := by
      cases hd : t.dropWhile fun x => decide (x ≠ slash) with
      | nil => rfl
      | cons c rest =>
        have hc := head_dropWhile_not (fun x => decide (x ≠ slash)) (l := t) (by rw [hd]; simp)
        simp only [hd, head_cons] at hc
        simpa using hc
    refine ⟨?_, ?_⟩
    · rw [← hsplit]
      exact cons_prefix_cons.mpr ⟨rfl, prefix_append _ _⟩
    · rw [drop_succ_cons, ← hsplit, drop_left]
      exact hend

theorem bestMount_cons {mp : List UInt8} (hmp : slash ∉ mp) (t : List UInt8) (ms : List (List UInt8 × Nat))
    (root r l : Nat) : bestMount (slash :: t) ((slash :: mp, root) :: ms) (r, l) =
      if t.takeWhile (· ≠ slash) = mp ∧ l < mp.length + 1 then bestMount (slash :: t) ms (root, mp.length + 1)
      else bestMount (slash :: t) ms (r, l) := by
  rw [bestMount]
  simp only [← and_assoc, mount_match hmp, length_cons]

/-- The first component decides about the mount. -/
theorem Reached.resolve (hv : Reached v hist dev proc) (t after : List UInt8) :
    resolveMount v ⟨slash :: t, after⟩ =
      if t.takeWhile (· ≠ slash) = bytes "dev" then (dev, skipslash (t.drop 3))
      else if t.takeWhile (· ≠ slash) = bytes "proc" then (proc, skipslash (t.drop 4))
      else (0, skipslash t) := by
  have hbest : bestMount (slash :: t) [(bytes "/dev", dev), (bytes "/proc", proc)] (0, 1) =
      if t.takeWhile (· ≠ slash) = bytes "dev" then (dev, 4)
      else if t.takeWhile (· ≠ slash) = bytes "proc" then (proc, 5) else (0, 1) := by
    have hdev := bestMount_cons (show slash ∉ bytes "dev" by decide) t [(bytes "/proc", proc)] dev 0 1
    have hproc := bestMount_cons (show slash ∉ bytes "proc" by decide) t [] proc
    rw [show bytes "/dev" = slash :: bytes "dev" by decide, hdev,
      show bytes "/proc" = slash :: bytes "proc" by decide]
    by_cases h1 : t.takeWhile (· ≠ slash) = bytes "dev"
    · rw [if_pos ⟨h1, by decide⟩, if_pos h1, hproc, if_neg (by rw [h1]; decide)]
      rfl
    · rw [if_neg fun h => h1 h.1, if_neg h1, hproc]
      by_cases h2 : t.takeWhile (· ≠ slash) = bytes "proc"
      · rw [if_pos ⟨h2, by decide⟩, if_pos h2]
        rfl
      · rw [if_neg fun h => h2 h.1, if_neg h2]
        rfl
  have hlen : (t.takeWhile fun x => decide (x ≠ slash)).length ≤ t.length := (takeWhile_sublist _).length_le
  unfold resolveMount
  rw [hv.mounts]
  simp only [hbest]
  split
  · next h =>
    have hlen : 3 ≤ t.length := by
      rw [h] at hlen
      exact hlen
    simp only [CStr.advance, length_cons]
    rw [if_pos (by omega)]
    rfl
  split
  · next h =>
    have hlen : 4 ≤ t.length := by
      rw [h] at hlen
      exact hlen
    simp only [CStr.advance, length_cons]
    rw [if_pos (by omega)]
    rfl
  · simp only [CStr.advance, length_cons]
    rw [if_pos (by omega)]
    rfl

/-! ## Slashes -/

structure SamePath (v : Vfs) (p q : CStr) : Prop where
  mount : (resolveMount v p).1 = (resolveMount v q).1
  inode : namei v p = namei v q
  parent : nameiParent v p = nameiParent v q

theorem samePath_of_comps {p q : CStr} (hm : (resolveMount v p).1 = (resolveMount v q).1)
    (hc : comps (resolveMount v p).2 = comps (resolveMount v q).2) : SamePath v p q :=
  ⟨hm, by rw [namei_walk, namei_walk, hm, hc], by rw [nameiParent_walk, nameiParent_walk, hm, hc]⟩

def MountName (p : List UInt8) : Prop :=
  p.takeWhile (· ≠ slash) = bytes "dev" ∨ p.takeWhile (· ≠ slash) = bytes "proc"

theorem Reached.resolve_root (hv : Reached v hist dev proc) {t : List UInt8} (h : ¬MountName t) (after : List UInt8) :
    resolveMount v ⟨slash :: t, after⟩ = (0, skipslash t) := by
  rw [hv.resolve, if_neg fun he => h (Or.inl he), if_neg fun he => h (Or.inr he)]

theorem Reached.resolve_mount (hv : Reached v hist dev proc) {t : List UInt8} (h : MountName t) (after : List UInt8) :
    (resolveMount v ⟨slash :: t, after⟩).1 ≠ 0 := by
  have hdev := hv.dev
  have hproc := hv.proc
  rw [hv.resolve]
  split
  · exact Nat.ne_of_gt hdev
  · rcases h with h | h
    · contradiction
    · rw [if_pos h]
      exact Nat.ne_of_gt hproc

/-- Behind the first byte, a run of slashes is as good as one. -/
theorem Reached.collapse_inner (hv : Reached v hist dev proc) (a b : List UInt8) (n : Nat) (after after' : List UInt8) :
    SamePath v ⟨slash :: (a ++ List.replicate (n + 1) slash ++ b), after⟩ ⟨slash :: (a ++ slash :: b), after'⟩ := by
  have hfirst : (a ++ List.replicate (n + 1) slash ++ b).takeWhile (· ≠ slash) = a.takeWhile (· ≠ slash) := by
    rw [append_assoc, replicate_succ, cons_append, takeWhile_append_slash]
  -- what is left of `a` behind a mount point of `k` bytes
  have hdrop : ∀ k c, k ≤ a.length → (a ++ c).drop k = a.drop k ++ c := fun k c hk => drop_append_of_le_length hk
  have hlen := (takeWhile_sublist (l := a) fun x => decide (x ≠ slash)).length_le
  have hcase : ∀ k, k ≤ a.length → comps (skipslash ((a ++ List.replicate (n + 1) slash ++ b).drop k)) =
      comps (skipslash ((a ++ slash :: b).drop k)) := by
    intro k hk
    rw [comps_skipslash, comps_skipslash, append_assoc, hdrop k _ hk, hdrop k _ hk, ← append_assoc, comps_run]
  apply samePath_of_comps
  · rw [hv.resolve, hv.resolve, hfirst, takeWhile_append_slash]
    split
    · rfl
    · split <;> rfl
  · rw [hv.resolve, hv.resolve, hfirst, takeWhile_append_slash]
    split
    · next h => exact hcase 3 (by rw [h] at hlen; exact hlen)
    split
    · next h => exact hcase 4 (by rw [h] at hlen; exact hlen)
    · exact hcase 0 (Nat.zero_le _)

/-- In front of the first component it is as good as one unless that is a mount point. -/
theorem Reached.collapse_front (hv : Reached v hist dev proc) (b : List UInt8) (n : Nat) (after after' : List UInt8) :
    SamePath v ⟨List.replicate (n + 1) slash ++ b, after⟩ ⟨slash :: b, after'⟩ ↔ ¬(0 < n ∧ MountName b) := by
  cases n with
  | zero =>
    have he : resolveMount v ⟨slash :: b, after⟩ = resolveMount v ⟨slash :: b, after'⟩ :=
      (hv.resolve b after).trans (hv.resolve b after').symm
    refine iff_of_true ?_ fun h => absurd h.1 (Nat.lt_irrefl 0)
    change SamePath v ⟨slash :: b, after⟩ ⟨slash :: b, after'⟩
    exact samePath_of_comps (by rw [he]) (by rw [he])
  | succ n =>
    have hfront : ¬MountName (List.replicate (n + 1) slash ++ b) := by
      rw [replicate_succ, cons_append, MountName, takeWhile_cons_of_neg (by simp)]
      rintro (h | h) <;> cases h
    have hroot := hv.resolve_root hfront after
    rw [show slash :: (List.replicate (n + 1) slash ++ b) = List.replicate (n + 1 + 1) slash ++ b from rfl] at hroot
    constructor
    · rintro h ⟨-, hb⟩
      have hm := h.mount
      rw [hroot] at hm
      exact hv.resolve_mount hb after' hm.symm
    · intro h
      have hb := hv.resolve_root (fun hb => h ⟨Nat.succ_pos n, hb⟩) after'
      apply samePath_of_comps
      · rw [hroot, hb]
      · rw [hroot, hb, comps_skipslash, comps_skipslash]
        exact (comps_run [] b n).trans (comps_append [] b)

/-! ## New entries -/

/-- The path leads to the inode that was made; every other lookup in a directory that was
there is answered as before. -/
structure NewEntry (v : Vfs) (path : CStr) (v' : Vfs) : Prop where
  found : namei v' path = some v.ninode
  kept : ∃ dir name, nameiParent v path = some (dir, name) ∧
    ∀ d n, d < v.ninode → (d, n) ≠ (dir, name) → dirLookup v' d n = dirLookup v d n

variable {v' : Vfs} {dir ip : Nat} {name : List UInt8} {path : CStr}

theorem SameDirs.dirLookup (h : SameDirs v v') : dirLookup v' = dirLookup v := by
  funext d n
  unfold NjuOs.dirLookup
  rw [h.type, h.ent]

theorem SameDirs.namei (h : SameDirs v v') (path : CStr) : namei v' path = namei v path := by
  rw [namei_walk, namei_walk, resolveMount_congr h.mounts]
  unfold walk
  rw [h.dirLookup]

theorem Grown.lookup (h : Grown dir name ip v v') {d : Nat} {n : List UInt8} (hd : d ≠ ip)
    (hne : (d, n) ≠ (dir, name)) : dirLookup v' d n = dirLookup v d n := by
  unfold dirLookup
  rw [h.type d hd]
  by_cases hdd : d = dir
  · subst hdd
    have hn : ¬name = n := fun he => hne (by rw [he])
    rw [h.self, find?_append]
    simp [hn]
  · rw [h.other d hdd hd]

theorem Grown.lookup_self (h : Grown dir name ip v v') (hd : dir ≠ ip) (ht : (v.inodes dir).type = .dir)
    (hfree : dirLookup v dir name = none) : dirLookup v' dir name = some ip := by
  rw [dirLookup_dir ht, map_eq_none_iff] at hfree
  rw [dirLookup_dir ((h.type dir hd).trans ht), h.self, find?_append, hfree]
  simp

theorem Created.newEntry (hv : Reached v hist dev proc) (h : Created v path v') : NewEntry v path v' := by
  obtain ⟨dir, name, hno, hpar, ht, hg⟩ := h.grown hv.files
  have hlt := nameiParent_lt hv.files hpar
  have hfree := (namei_eq_dirLookup hpar).symm.trans hno
  have hself := hg.lookup_self (Nat.ne_of_lt hlt) ht hfree
  refine ⟨?_, dir, name, hpar, fun d n hd hne => hg.lookup (Nat.ne_of_lt hd) hne⟩
  rw [← hself]
  refine namei_parent hg.mounts (fun d n j hj => Or.inl ?_) hpar
  -- the walk to the parent used neither the new inode nor the new entry
  have hd : d ≠ v.ninode := by
    rintro rfl
    unfold dirLookup at hj
    rw [hv.blank _ (Nat.le_refl _)] at hj
    split at hj <;> cases hj
  have hne : (d, n) ≠ (dir, name) := by
    intro he
    cases he
    rw [hfree] at hj
    cases hj
  rw [hg.lookup hd hne, hj]

theorem NewEntry.same {v'' : Vfs} (h : NewEntry v path v') (hs : SameDirs v' v'') : NewEntry v path v'' := by
  obtain ⟨dir, name, hpar, hk⟩ := h.kept
  refine ⟨(hs.namei path).trans h.found, dir, name, hpar, fun d n hd hne => ?_⟩
  rw [hs.dirLookup]
  exact hk d n hd hne

end

section
variable {mem : Nat → Mem} {progs : List (List UInt8 × List UInt8)} {v v' : Vfs} {as : List VfsAct} {s : VfsSys}

/-- The two walkers agree: `namei` finds what the directory from `namei_parent` has under the
last name, and a path that is opened or made a directory leads to the inode it got. -/
theorem walkers_agree (hinit : vfsInit mem progs = .ok v) (hr : run VfsSys.step (VfsSys.init v) as = some s)
    {path : CStr} (hp : path.str.head? = some slash) :
    (∀ d n, nameiParent s.vfs path = some (d, n) → namei s.vfs path = dirLookup s.vfs d n) ∧
    (nameiParent s.vfs path = none → MountRoot s.vfs path.str ∨ namei s.vfs path = none) ∧
    (∀ mem flags files v' files' r, vfsOpen s.vfs files mem path flags = .ok (v', files', r) →
      v'.ninode ≠ s.vfs.ninode → NewEntry s.vfs path v') ∧
    ∀ mem v', vfsMkdir s.vfs mem path = .ok (v', 0) → NewEntry s.vfs path v' := by
  obtain ⟨dev, proc, hv⟩ := run_reached hinit hr
  refine ⟨fun d n h => namei_eq_dirLookup h, fun h => ?_, ?_, ?_⟩
  · rw [nameiParent_walk] at h
    rcases parentWalk_none h with hnil | hwalk
    · exact Or.inl (hv.mountRoot hp hnil)
    · exact Or.inr ((namei_walk path).trans hwalk)
  · intro mem flags files v' files' r h hnew
    obtain ⟨v1, o, h1, hs⟩ := vfsOpen_ok h
    rcases openInode_ok h1 with rfl | hc
    · exact absurd hs.ninode hnew
    · exact (hc.newEntry hv).same hs.sameLinks.toSameDirs
  · intro mem v' h
    rcases vfsMkdir_ok h with ⟨h0, -⟩ | ⟨-, hc⟩
    · cases h0
    · exact hc.newEntry hv

def openRun (path : String) : List VfsAct := [.spawn 1, .call 1 (.sysOpen (some fun _ => 0) ⟨bytes path, []⟩ oCreate)]

theorem walkers_agree_nested : ∃ s v', run VfsSys.step (VfsSys.init bootVfs) (openRun "/tmp/x") = some s ∧
    vfsMkdir s.vfs (some fun _ => 0) ⟨bytes "/tmp//d/", []⟩ = .ok (v', 0) ∧
    namei v' ⟨bytes "/tmp//d/", []⟩ = some s.vfs.ninode := by
  have hrun : ((run VfsSys.step (VfsSys.init bootVfs) (openRun "/tmp/x")).any fun s =>
      (vfsMkdir s.vfs (some fun _ => 0) ⟨bytes "/tmp//d/", []⟩).toOption.any fun r => r.2 = 0) = true := by
    decide +kernel
  obtain ⟨s, hs, h⟩ := (any_eq_true _ _).mp hrun
  obtain ⟨⟨v', r⟩, hm, hr⟩ := (any_eq_true _ _).mp h
  obtain rfl : r = 0 := of_decide_eq_true hr
  have hm := toOption_some hm
  have hslash : (⟨bytes "/tmp//d/", []⟩ : CStr).str.head? = some slash := by decide
  have hagree := walkers_agree vfsInit_boot hs hslash
  exact ⟨s, v', hs, hm, (hagree.2.2.2 _ v' hm).found⟩

/-- A run of slashes may be replaced by one, unless it is at the start of the path, with the name
of a mount point behind it. -/
theorem slashes_collapse (hinit : vfsInit mem progs = .ok v) (hr : run VfsSys.step (VfsSys.init v) as = some s)
    {a : List UInt8} (hp : (a ++ [slash]).head? = some slash) (b : List UInt8) (n : Nat) (after after' : List UInt8) :
    SamePath s.vfs ⟨a ++ List.replicate (n + 1) slash ++ b, after⟩ ⟨a ++ slash :: b, after'⟩ ↔
      ¬(a = [] ∧ 0 < n ∧ MountName b) := by
  obtain ⟨dev, proc, hv⟩ := run_reached hinit hr
  cases a with
  | nil =>
    rw [nil_append, nil_append, hv.collapse_front]
    simp
  | cons c a =>
    cases hp
    refine iff_of_true (hv.collapse_inner a b n after after') fun h => ?_
    cases h.1

theorem slashes_collapse_inner : ∃ s, run VfsSys.step (VfsSys.init bootVfs) (openRun "/tmp/x") = some s ∧
    namei s.vfs ⟨bytes "/tmp///x", []⟩ = some 14 ∧ namei s.vfs ⟨bytes "/tmp/x", []⟩ = some 14 := by
  have hrun : ((run VfsSys.step (VfsSys.init bootVfs) (openRun "/tmp/x")).any fun s =>
      namei s.vfs ⟨bytes "/tmp/x", []⟩ = some 14) = true := by decide +kernel
  obtain ⟨s, hs, h⟩ := (any_eq_true _ _).mp hrun
  have hx := of_decide_eq_true h
  have hsame := (slashes_collapse vfsInit_boot hs (a := bytes "/tmp") (by decide) (bytes "x") 2 [] []).mpr
    fun h => absurd h.1 (by decide)
  exact ⟨s, hs, hsame.inode.trans hx, hx⟩

/-- `//dev/null` is looked for in the placeholder of `/`, which is empty. -/
theorem double_slash_misses_mount : vfsInit bootMem [] = .ok bootVfs ∧
    namei bootVfs ⟨bytes "//dev/null", []⟩ = none ∧ (namei bootVfs ⟨bytes "/dev/null", []⟩).isSome ∧
    (resolveMount bootVfs ⟨bytes "//dev/null", []⟩).1 ≠ (resolveMount bootVfs ⟨bytes "/dev/null", []⟩).1 := by
  refine ⟨vfsInit_boot, ?_⟩
  decide +kernel

end

end NjuOs
