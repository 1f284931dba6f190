import NjuOs.VfsLemmas
import NjuOs.WriteLog

/-!
# Contents of regular files

The log of a file's writes is an abstract file (`WriteLog`); an inode's buffer agrees
with it wherever the log says something (`InodeOk`), and every call keeps them in step.
-/

namespace NjuOs

open Function List Option

/-! ## Buffers -/

/-- A buffer is absent, or as long as its capacity, a doubling of 256 up to `2 ^ 30`. -/
def BufOk (ip : Inode) : Prop :=
  (ip.cap = 0 ∧ ip.data = none) ∨
    ∃ k ≤ 22, ip.cap = 256 * 2 ^ k ∧ ∃ d, ip.data = some d ∧ (d.length : Int) = ip.cap

structure InodeOk (ip : Inode) (log : List (Nat × List UInt8)) : Prop where
  buf : BufOk ip
  size : ip.size = writeEnd log
  le : ip.size ≤ ip.cap
  last : ∀ i b, lastByte log i = some b → (ip.data.getD [])[i]? = some b

section
variable {ip ip' : Inode} {log : List (Nat × List UInt8)} {mem : Mem} {need : Int}

theorem BufOk.length (h : BufOk ip) : ((ip.data.getD []).length : Int) = ip.cap := by
  rcases h with ⟨hc, hd⟩ | ⟨k, -, -, d, hd, hl⟩
  · rw [hc, hd]; rfl
  · rw [hd]; exact hl

theorem two_pow_le_of_le {k m : Nat} (h : k ≤ m) : (2 : Int) ^ k ≤ 2 ^ m := by
  exact_mod_cast Nat.pow_le_pow_right (by decide) h

theorem BufOk.cap_le (h : BufOk ip) : 0 ≤ ip.cap ∧ ip.cap ≤ 2 ^ 30 := by
  rcases h with ⟨hc, -⟩ | ⟨k, hk, hc, -⟩
  · rw [hc]; decide
  · have := two_pow_le_of_le hk
    have hpos : (0 : Int) < 2 ^ k := by positivity
    omega

theorem BufOk.congr (h : BufOk ip) (hd : ip'.data = ip.data) (hc : ip'.cap = ip.cap) : BufOk ip' := by
  unfold BufOk
  rw [hd, hc]; exact h

theorem InodeOk.congr (h : InodeOk ip log) (hd : ip'.data = ip.data) (hc : ip'.cap = ip.cap)
    (hs : ip'.size = ip.size) : InodeOk ip' log :=
  ⟨h.buf.congr hd hc, hs.trans h.size, by rw [hs, hc]; exact h.le, by rw [hd]; exact h.last⟩

theorem inodeOk_fresh (type : IType) (ino : Int) : InodeOk (freshInode type ino) [] :=
  ⟨Or.inl ⟨rfl, rfl⟩, rfl, Int.le_refl _, fun _ _ h => nomatch h⟩

/-- `O_TRUNC` keeps the buffer and forgets the log. -/
theorem InodeOk.trunc (h : InodeOk ip log) : InodeOk { ip with size := 0 } [] :=
  ⟨h.buf.congr rfl rfl, rfl, h.buf.cap_le.1, fun _ _ h => nomatch h⟩

/-- The doubling loop stays on the doublings of 256 and below `2 ^ 31`. -/
theorem growCap_ok : ∀ (fuel : Nat) {k : Nat} {c : Int}, k ≤ 22 →
    growCap need fuel (256 * 2 ^ k) = .ok c → ∃ m, k ≤ m ∧ m ≤ 22 ∧ c = 256 * 2 ^ m ∧ need ≤ c
  | 0, _, _, _, h => nomatch h
  | fuel + 1, k, c, hk, h => by
    unfold growCap at h
    split at h
    · obtain ⟨c', hc', h⟩ := bind_ok h
      obtain ⟨rfl, -, hlt⟩ := intOf_ok hc'
      have hk' : k + 1 ≤ 22 := by
        by_contra hc
        have := two_pow_le_of_le (show 22 ≤ k by omega)
        omega
      rw [show (256 * 2 ^ k * 2 : Int) = 256 * 2 ^ (k + 1) by rw [pow_succ]; ring] at h
      obtain ⟨m, h1, h2, h3⟩ := growCap_ok fuel hk' h
      exact ⟨m, by omega, h2, h3⟩
    · cases h
      exact ⟨k, Nat.le_refl k, hk, rfl, by omega⟩

theorem growCap_total (hn : need ≤ 2 ^ 30) : ∀ (fuel k : Nat), k ≤ 22 → 22 < k + fuel →
    ∃ c, growCap need fuel (256 * 2 ^ k) = .ok c
  | 0, k, hk, hf => by omega
  | fuel + 1, k, hk, hf => by
    unfold growCap
    by_cases h : 256 * 2 ^ k < need
    · have hk' : k + 1 ≤ 22 := by
        by_contra hc
        have := two_pow_le_of_le (show 22 ≤ k by omega)
        omega
      obtain ⟨c, hc⟩ := growCap_total hn fuel (k + 1) hk' (by omega)
      have hpow := two_pow_le_of_le hk'
      have hpos : (0 : Int) < 2 ^ k := by positivity
      have hdbl : (256 * 2 ^ k * 2 : Int) = 256 * 2 ^ (k + 1) := by rw [pow_succ]; ring
      refine ⟨c, ?_⟩
      rw [if_pos h, intOf_eq (by omega) (by omega), hdbl]
      exact hc
    · exact ⟨_, if_neg h⟩

theorem BufOk.start (h : BufOk ip) :
    ∃ k ≤ 22, (if ip.cap ≠ 0 then ip.cap else 256) = 256 * 2 ^ k ∧ ip.cap ≤ 256 * 2 ^ k := by
  rcases h with ⟨hc, -⟩ | ⟨k, hk, hc, -⟩
  · exact ⟨0, by decide, by simp [hc], by rw [hc]; decide⟩
  · have hpos : (0 : Int) < 2 ^ k := by positivity
    exact ⟨k, hk, by rw [if_pos (by omega), hc], by omega⟩

theorem igrow_ok (hb : BufOk ip) (hle : ip.size ≤ ip.cap) (h : igrow ip mem need = .ok ip') :
    BufOk ip' ∧ need ≤ ip'.cap ∧ ip.cap ≤ ip'.cap ∧
      ip' = { ip with data := ip'.data, cap := ip'.cap } ∧
      ∀ i : Nat, (i : Int) < ip.size → (ip'.data.getD [])[i]? = (ip.data.getD [])[i]? := by
  unfold igrow at h
  by_cases hn : need ≤ ip.cap
  · rw [if_pos hn] at h
    cases h
    exact ⟨hb, hn, Int.le_refl _, rfl, fun _ _ => rfl⟩
  rw [if_neg hn] at h
  obtain ⟨c, hc, h⟩ := bind_ok h
  obtain ⟨k, hk, hstart, hcap⟩ := hb.start
  rw [hstart] at hc
  obtain ⟨m, hkm, hm, rfl, hneed⟩ := growCap_ok 32 hk hc
  have hpow := two_pow_le_of_le hkm
  cases mem with
  | none => cases h
  | some junk =>
    simp only at h
    have hlen : (((List.range (256 * 2 ^ m : Int).toNat).map junk).length : Int) = 256 * 2 ^ m := by
      have hpos : (0 : Int) < 2 ^ m := by positivity
      rw [length_map, length_range]; omega
    cases hd : ip.data with
    | none =>
      simp only [hd] at h
      cases h
      refine ⟨Or.inr ⟨m, hm, rfl, _, rfl, hlen⟩, hneed, by simp only; omega, rfl, fun i hi => ?_⟩
      rcases hb with ⟨hc0, -⟩ | ⟨_, _, _, d, hd', _⟩
      · omega
      · rw [hd] at hd'; cases hd'
    | some d =>
      simp only [hd] at h
      obtain ⟨src, hsrc, h⟩ := bind_ok h
      obtain ⟨nd, hnd, h⟩ := bind_ok h
      cases h
      refine ⟨Or.inr ⟨m, hm, rfl, nd, rfl, by rw [length_blit hnd]; exact hlen⟩, hneed,
        by simp only; omega, rfl, fun i hi => ?_⟩
      have hsl : src.length = ip.size.toNat := by
        unfold slice at hsrc
        split at hsrc
        · rename_i hb
          cases hsrc
          rw [length_take, length_drop]
          omega
        · cases hsrc
      show nd[i]? = d[i]?
      rw [getElem?_blit hnd i, if_pos (by simp only [Int.toNat_zero]; omega), getElem?_slice hsrc,
        if_pos (by simp only [Int.toNat_zero]; omega)]
      simp

theorem igrow_total (hb : BufOk ip) (hle : ip.size ≤ ip.cap) (h0 : 0 ≤ ip.size) (hn : need ≤ 2 ^ 30)
    (junk : Nat → UInt8) : ∃ ip', igrow ip (some junk) need = .ok ip' := by
  unfold igrow
  by_cases hc : need ≤ ip.cap
  · exact ⟨ip, by rw [if_pos hc]; rfl⟩
  rw [if_neg hc]
  obtain ⟨k, hk, hstart, hcap⟩ := hb.start
  obtain ⟨c, hgrow⟩ := growCap_total hn 32 k hk (by omega)
  obtain ⟨m, hkm, hm, rfl, -⟩ := growCap_ok 32 hk hgrow
  have hpow := two_pow_le_of_le hkm
  have hpos : (0 : Int) < 2 ^ m := by positivity
  cases hd : ip.data with
  | none => exact ⟨{ ip with data := some _, cap := _ }, by rw [hstart, hgrow]; rfl⟩
  | some d =>
    have hlen := hb.length
    rw [hd, getD_some] at hlen
    have hs := slice_ok (d := d) (Int.le_refl 0) h0 (by omega)
    obtain ⟨nd, hnd⟩ : ∃ nd, blit ((List.range (256 * 2 ^ m : Int).toNat).map junk) 0
        ((d.drop (0 : Int).toNat).take ip.size.toNat) = .ok nd := by
      refine ⟨_, blit_ok (Int.le_refl 0) ?_⟩
      simp only [length_take, length_map, length_range]
      omega
    refine ⟨{ ip with data := some nd, cap := 256 * 2 ^ m }, ?_⟩
    rw [hstart, hgrow]
    simp only [bind, Except.bind, hs, hnd]
    rfl

/-- A write of `src` at `off`, into a buffer that has been grown for it. -/
theorem InodeOk.write {off : Int} {src d : List UInt8} (h : InodeOk ip log) (hoff : 0 ≤ off)
    (hg : igrow ip mem (off + src.length) = .ok ip') (hd : blit (ip'.data.getD []) off src = .ok d) :
    InodeOk { ip' with
      data := ip'.data.map fun _ => d
      size := if ip'.size < off + src.length then off + src.length else ip'.size }
      ((off.toNat, src) :: log) := by
  obtain ⟨hb, hneed, -, heq, hkeep⟩ := igrow_ok h.buf h.le hg
  have hsize : ip'.size = writeEnd log := by rw [heq]; exact h.size
  have hle : ip'.size ≤ ip'.cap := by
    obtain ⟨-, -, hcap, -, -⟩ := igrow_ok h.buf h.le hg
    have := h.le
    rw [← h.size] at hsize
    omega
  have hlen : (d.length : Int) = ip'.cap := by rw [length_blit hd]; exact hb.length
  have hdata : (ip'.data.map fun _ => d).getD [] = d := by
    rcases hb with ⟨hc, hn⟩ | ⟨_, _, _, d', hs, _⟩
    · rw [hn]
      have : d.length = 0 := by omega
      exact (length_eq_zero_iff.mp this).symm
    · rw [hs]; rfl
  refine ⟨?_, ?_, ?_, ?_⟩
  · rcases hb with ⟨hc, hn⟩ | ⟨k, hk, hc, d', hs, -⟩
    · exact Or.inl ⟨hc, by simp [hn]⟩
    · exact Or.inr ⟨k, hk, hc, d, by simp [hs], hlen⟩
  · rw [writeEnd_cons]
    simp only
    split <;> omega
  · simp only
    split <;> omega
  · intro i b hi
    simp only [hdata]
    rw [getElem?_blit hd]
    rw [lastByte_cons] at hi
    split
    · rename_i hr; rwa [if_pos hr] at hi
    · rename_i hr
      rw [if_neg hr] at hi
      have hlt := lt_writeEnd hi
      rw [hkeep i (by rw [h.size]; exact_mod_cast hlt)]
      exact h.last i b hi

end

/-! ## The invariant -/

structure VfsWf (v : Vfs) : Prop where
  ents : ∀ d, ∀ e ∈ (v.inodes d).ent, e.2 < v.ninode
  mounts : ∀ m ∈ v.mounts, m.2 < v.ninode
  ips : ∀ f i, (v.ftable f).ip = some i → i < v.ninode

structure FileInv (v : Vfs) (hist : Hist) : Prop where
  wf : VfsWf v
  pos : 0 < v.ninode
  inodes : ∀ i, InodeOk (v.inodes i) (hist i)
  fresh : ∀ i, v.ninode ≤ i → hist i = []
  offs : ∀ f, 0 ≤ (v.ftable f).off

section
variable {v v' : Vfs} {hist : Hist} (hv : FileInv v hist)
include hv

theorem FileInv.table (hi : v'.inodes = v.inodes) (hn : v'.ninode = v.ninode) (hm : v'.mounts = v.mounts)
    (hips : ∀ f i, (v'.ftable f).ip = some i → i < v.ninode) (hoff : ∀ f, 0 ≤ (v'.ftable f).off) :
    FileInv v' hist where
  wf := ⟨by rw [hi, hn]; exact hv.wf.ents, by rw [hm, hn]; exact hv.wf.mounts, by rw [hn]; exact hips⟩
  pos := by rw [hn]; exact hv.pos
  inodes := by rw [hi]; exact hv.inodes
  fresh := by rw [hn]; exact hv.fresh
  offs := hoff

theorem FileInv.setFile {f : Nat} {x : File} (hip : ∀ i, x.ip = some i → i < v.ninode) (hoff : 0 ≤ x.off) :
    FileInv (v.setFile f x) hist := by
  refine hv.table rfl rfl rfl (fun g i hg => ?_) (fun g => ?_)
  · by_cases he : g = f
    · subst he; rw [setFile_self] at hg; exact hip i hg
    · rw [setFile_ne v x he] at hg; exact hv.wf.ips g i hg
  · by_cases he : g = f
    · subst he; rw [setFile_self]; exact hoff
    · rw [setFile_ne v x he]; exact hv.offs g

theorem FileInv.setInode {i : Nat} {x : Inode} {log : List (Nat × List UInt8)} (hx : InodeOk x log)
    (hi : i < v.ninode) (he : ∀ e ∈ x.ent, e.2 < v.ninode) :
    FileInv (v.setInode i x) (update hist i log) := by
  refine ⟨⟨fun d e hd => ?_, hv.wf.mounts, hv.wf.ips⟩, hv.pos, fun j => ?_, fun j hj => ?_, hv.offs⟩
  · by_cases h : d = i
    · subst h; rw [setInode_self] at hd; exact he e hd
    · rw [setInode_ne v x h] at hd; exact hv.wf.ents d e hd
  · by_cases h : j = i
    · subst h; rw [setInode_self, update_self]; exact hx
    · rw [setInode_ne v x h, update_of_ne h]; exact hv.inodes j
  · have hj' : v.ninode ≤ j := hj
    rw [update_of_ne (by omega)]
    exact hv.fresh j hj'

theorem FileInv.setMeta {i : Nat} {x : Inode} (hd : x.data = (v.inodes i).data)
    (hc : x.cap = (v.inodes i).cap) (hs : x.size = (v.inodes i).size) (he : ∀ e ∈ x.ent, e.2 < v.ninode) :
    FileInv (v.setInode i x) hist := by
  refine ⟨⟨fun d e hd => ?_, hv.wf.mounts, hv.wf.ips⟩, hv.pos, fun j => ?_, hv.fresh, hv.offs⟩
  · by_cases h : d = i
    · subst h; rw [setInode_self] at hd; exact he e hd
    · rw [setInode_ne v x h] at hd; exact hv.wf.ents d e hd
  · by_cases h : j = i
    · subst h; rw [setInode_self]; exact (hv.inodes j).congr hd hc hs
    · rw [setInode_ne v x h]; exact hv.inodes j

theorem FileInv.ialloc {mem : Mem} {type : IType} {i : Nat} (h : ialloc v mem type = .ok (v', i)) :
    FileInv v' hist ∧ i < v'.ninode := by
  obtain ⟨rfl, rfl⟩ := ialloc_ok h
  refine ⟨⟨⟨fun d e hd => ?_, fun m hm => Nat.lt_succ_of_lt (hv.wf.mounts m hm),
    fun f i hf => Nat.lt_succ_of_lt (hv.wf.ips f i hf)⟩, Nat.succ_pos _, fun j => ?_, fun j hj => ?_, hv.offs⟩,
    Nat.lt_succ_self _⟩
  · have hd : e ∈ ((v.setInode v.ninode (freshInode type v.nextIno)).inodes d).ent := hd
    by_cases h : d = v.ninode
    · subst h; rw [setInode_self] at hd; cases hd
    · rw [setInode_ne v _ h] at hd; exact Nat.lt_succ_of_lt (hv.wf.ents d e hd)
  · show InodeOk ((v.setInode v.ninode (freshInode type v.nextIno)).inodes j) (hist j)
    by_cases h : j = v.ninode
    · subst h; rw [setInode_self, hv.fresh _ (Nat.le_refl _)]; exact inodeOk_fresh _ _
    · rw [setInode_ne v _ h]; exact hv.inodes j
  · exact hv.fresh j (Nat.le_of_succ_le hj)

theorem FileInv.dirAdd {dir ip : Nat} {name : List UInt8} (hip : ip < v.ninode)
    (h : dirAdd v dir name ip = .ok v') : FileInv v' hist := by
  rw [dirAdd_ok h]
  refine hv.setMeta ?_ ?_ ?_ fun e he => ?_
  · rfl
  · rfl
  · rfl
  rcases mem_append.mp he with he | he
  · exact hv.wf.ents dir e he
  · rw [mem_singleton.mp he]; exact hip

/-! ## Path resolution stays inside the table -/

theorem FileInv.dirLookup {dir ip : Nat} {name : List UInt8} (h : dirLookup v dir name = some ip) :
    ip < v.ninode := by
  unfold NjuOs.dirLookup at h
  split at h
  · cases h
  · obtain ⟨e, he, rfl⟩ := map_eq_some_iff.mp h
    exact hv.wf.ents dir e (mem_of_find?_eq_some he)

omit hv in
theorem bestMount_lt {n : Nat} (path : List UInt8) : ∀ (ms : List (List UInt8 × Nat)) (best : Nat × Nat),
    (∀ m ∈ ms, m.2 < n) → best.1 < n → (bestMount path ms best).1 < n
  | [], best, _, hb => hb
  | (mp, root) :: ms, (r, l), hm, hb => by
    have hm' : ∀ m ∈ ms, m.2 < n := fun m h => hm m (by simp [h])
    unfold bestMount
    simp only
    split
    · exact bestMount_lt path ms _ hm' (hm (mp, root) (by simp))
    · exact bestMount_lt path ms _ hm' hb

theorem FileInv.resolveMount (path : CStr) : (resolveMount v path).1 < v.ninode := by
  unfold NjuOs.resolveMount
  split
  · exact hv.pos
  · rename_i m root ms hm
    have h : ∀ x ∈ v.mounts, x.2 < v.ninode := hv.wf.mounts
    rw [hm] at h
    exact bestMount_lt path.str ms _ (fun x hx => h x (by simp [hx])) (h (m, root) (by simp))

theorem FileInv.nameiLoop : ∀ (fuel ip : Nat) (rest : List UInt8) (i : Nat), ip < v.ninode →
    nameiLoop v fuel ip rest = some i → i < v.ninode
  | 0, ip, rest, i, hip, h => by cases h; exact hip
  | fuel + 1, ip, rest, i, hip, h => by
    unfold NjuOs.nameiLoop at h
    split at h
    · cases h; exact hip
    simp only at h
    split at h
    · cases h; exact hip
    split at h
    · cases h
    split at h
    · cases h
    · rename_i j hj
      exact FileInv.nameiLoop fuel j _ i (hv.dirLookup hj) h

theorem FileInv.namei {path : CStr} {i : Nat} (h : namei v path = some i) : i < v.ninode :=
  hv.nameiLoop _ _ _ i (hv.resolveMount path) h

/-! ## Calls -/

omit hv in
theorem swapRemove_subset {α : Type*} {l : List α} {i : Nat} {a : α} (h : a ∈ swapRemove l i) : a ∈ l := by
  unfold swapRemove at h
  split at h
  · cases h
  · rename_i x hx
    rcases mem_or_eq_of_mem_set (mem_of_mem_dropLast h) with h | h
    · exact h
    · rw [h]; exact mem_of_getLast? hx

theorem FileInv.openInode {mem : Mem} {path : CStr} {flags : Nat} {r : Option Nat}
    (h : openInode v mem path flags = .ok (v', r)) : FileInv v' hist ∧ ∀ ip, r = some ip → ip < v'.ninode := by
  unfold NjuOs.openInode at h
  split at h
  · rename_i ip hn
    cases h
    exact ⟨hv, fun i hi => by cases hi; exact hv.namei hn⟩
  have hfail : FileInv v hist ∧ ∀ ip, none = some ip → ip < v.ninode := ⟨hv, fun _ hi => nomatch hi⟩
  split at h
  · cases h; exact hfail
  split at h
  · cases h; exact hfail
  split at h
  · cases h; exact hfail
  obtain ⟨⟨v1, ip⟩, h1, h⟩ := bind_ok h
  obtain ⟨v2, h2, h⟩ := bind_ok h
  cases h
  obtain ⟨hv1, hip⟩ := hv.ialloc h1
  refine ⟨hv1.dirAdd hip h2, fun i hi => ?_⟩
  cases hi
  rw [dirAdd_ok h2]; exact hip

theorem FileInv.falloc_some {f : Nat} (h : falloc v = (v', some f)) : FileInv v' hist := by
  obtain ⟨-, -, rfl⟩ := NjuOs.falloc_some h
  exact hv.setFile (fun _ h => nomatch h) (Int.le_refl 0)

theorem FileInv.openFile {p p' : Files} {ip flags : Nat} {r : Int} (hip : ip < v.ninode)
    (h : openFile v p ip flags = (v', p', r)) : FileInv v' hist := by
  unfold NjuOs.openFile at h
  split at h
  · rename_i v1 h1
    cases h
    rw [falloc_none h1]; exact hv
  · rename_i v1 f h1
    have hv1 := hv.falloc_some h1
    have hn : v1.ninode = v.ninode := by obtain ⟨-, -, rfl⟩ := NjuOs.falloc_some h1; rfl
    simp only at h
    split at h
    · cases h
      exact hv1.setFile (fun i hi => by cases hi; rw [hn]; exact hip) (Int.le_refl 0)
    · cases h
      exact hv1.setFile (fun i hi => by cases hi; rw [hn]; exact hip) (Int.le_refl 0)

theorem FileInv.vfsOpen {p p' : Files} {mem : Mem} {path : CStr} {flags : Nat} {r : Int}
    (h : vfsOpen v p mem path flags = .ok (v', p', r)) :
    FileInv v' (logCall v p hist (.sysOpen mem path flags)) := by
  obtain ⟨⟨v1, o⟩, h1, h⟩ := bind_ok h
  obtain ⟨hv1, hip⟩ := hv.openInode h1
  cases o with
  | none =>
    cases h
    simp only [logCall, h1]
    exact hv1
  | some ip =>
    simp only at h
    simp only [logCall, h1]
    split at h
    · rename_i hc
      cases h
      rw [if_pos hc]; exact hv1
    · rename_i hc
      rw [if_neg hc]
      have hopen := pure_eq_ok.mp h
      unfold truncInode at hopen
      split at hopen
      · rename_i ht
        rw [if_pos ht]
        refine FileInv.openFile ?_ ?_ hopen
        · exact hv1.setInode (hv1.inodes ip).trunc (hip ip rfl) (hv1.wf.ents ip)
        · exact hip ip rfl
      · rename_i ht
        rw [if_neg ht]
        exact hv1.openFile (hip ip rfl) hopen

theorem FileInv.advanceOff {f : Nat} {r : Int} (hr : 0 ≤ r) (h : advanceOff v f r = .ok v') :
    FileInv v' hist := by
  obtain ⟨o, ho, h⟩ := bind_ok h
  obtain ⟨rfl, -⟩ := intOf_ok ho
  cases h
  have := hv.offs f
  exact hv.setFile (hv.wf.ips f) (by simp only; omega)

theorem FileInv.vfsRead {p : Files} {e : ProcEnv} {fd n r : Int} {out : List UInt8}
    (h : vfsRead v p e fd n = .ok (v', r, out)) : FileInv v' hist := by
  unfold NjuOs.vfsRead at h
  split at h
  · cases h; exact hv
  split at h
  · cases h; exact hv
  rename_i hn
  obtain ⟨i, -, h⟩ := bind_ok h
  simp only at h
  split at h
  · split at h
    · cases h
    have hrng : ∀ rng, FileInv { v with rng := rng } hist := fun rng => hv.table rfl rfl rfl hv.wf.ips hv.offs
    split at h
    · rename_i hr
      obtain ⟨v1, h1, h⟩ := bind_ok h
      cases h
      exact (hrng _).advanceOff (Int.le_of_lt hr) h1
    · cases h; exact hrng _
  · split at h
    · cases h
    split at h
    · cases h; exact hv
    rename_i hoff
    obtain ⟨o, -, h⟩ := bind_ok h
    obtain ⟨v1, h1, h⟩ := bind_ok h
    cases h
    refine hv.advanceOff ?_ h1
    split <;> omega
  · split at h
    · cases h; exact hv
    rename_i hoff
    obtain ⟨o, -, h⟩ := bind_ok h
    obtain ⟨v1, h1, h⟩ := bind_ok h
    cases h
    refine hv.advanceOff ?_ h1
    split <;> omega
  · cases h; exact hv

theorem FileInv.writeFile {mem : Mem} {f i : Nat} {buf : Nat → UInt8} {n r : Int} (hn : 0 ≤ n)
    (hi : i < v.ninode) (h : writeFile v mem f i buf n = .ok (v', r)) :
    FileInv v' (update hist i
      (((v.ftable f).off.toNat, (List.range n.toNat).map buf) :: hist i)) := by
  obtain ⟨need, hneed, h⟩ := bind_ok h
  obtain ⟨ip, hg, h⟩ := bind_ok h
  obtain ⟨d, hd, h⟩ := bind_ok h
  obtain ⟨v1, h1, h⟩ := bind_ok h
  obtain ⟨rfl, -⟩ := intOf_ok hneed
  have hlen : (((List.range n.toNat).map buf).length : Int) = n := by
    rw [length_map, length_range]; omega
  rw [← hlen] at hg
  have hw := (hv.inodes i).write (hv.offs f) hg hd
  have hv1 := hv.advanceOff hn h1
  obtain ⟨o, ho, h1⟩ := bind_ok h1
  obtain ⟨rfl, -⟩ := intOf_ok ho
  cases h1
  cases h
  have hent : ip.ent = (v.inodes i).ent := by
    obtain ⟨-, -, -, heq, -⟩ := igrow_ok (hv.inodes i).buf (hv.inodes i).le hg
    rw [heq]
  rw [hlen] at hw
  refine hv1.setInode ?_ hi ?_
  · rw [setFile_self]
    simp only
    split
    · rename_i hlt; rw [if_pos hlt] at hw; exact hw
    · rename_i hlt; rw [if_neg hlt] at hw; exact hw
  · rw [setFile_self]
    intro e he
    have he : e ∈ ip.ent := by
      simp only at he
      split at he <;> exact he
    rw [hent] at he
    exact hv.wf.ents i e he

theorem FileInv.vfsWrite {p : Files} {mem : Mem} {fd n r : Int} {buf : Nat → UInt8}
    (h : vfsWrite v p mem fd buf n = .ok (v', r)) :
    FileInv v' (logCall v p hist (.sysWrite mem fd buf n)) := by
  unfold NjuOs.vfsWrite at h
  unfold logCall
  split at h
  · rename_i hf; cases h; simp only [hf]; exact hv
  rename_i f hf
  simp only [hf]
  split at h
  · rename_i hc
    cases h
    split
    · exact hv
    · rw [if_neg ?_]
      · exact hv
      · rintro ⟨h1, h2, -⟩
        rcases hc with hc | hc
        · rw [h1] at hc; cases hc
        · omega
  rename_i hc
  obtain ⟨i, hi, h⟩ := bind_ok h
  unfold inodeOf at hi
  split at hi
  · cases hi
  rename_i j hj
  cases hi
  simp only at h
  split at h
  · rename_i ht
    rw [if_neg (by rw [ht]; simp)]
    split at h
    · cases h
    have hcon : ∀ c, FileInv { v with console := c } hist := fun c => hv.table rfl rfl rfl hv.wf.ips hv.offs
    split at h
    · rename_i hr
      obtain ⟨v1, h1, h⟩ := bind_ok h
      cases h
      exact (hcon _).advanceOff (Int.le_of_lt hr) h1
    · cases h; exact hcon _
  · rename_i ht
    have hn : 0 ≤ n := by
      by_contra hneg
      exact hc (Or.inr (by omega))
    rw [if_pos ⟨by simpa using fun hw => hc (Or.inl hw), hn, ht⟩]
    exact hv.writeFile hn (hv.wf.ips f i hj) h
  · rename_i ht1 ht2
    cases h
    rw [if_neg fun hw => ht2 hw.2.2]
    exact hv

theorem FileInv.vfsLseek {p : Files} {fd off whence r : Int} (h : vfsLseek v p fd off whence = .ok (v', r)) :
    FileInv v' hist := by
  unfold NjuOs.vfsLseek at h
  split at h
  · cases h; exact hv
  obtain ⟨b, -, h⟩ := bind_ok h
  split at h
  · cases h; exact hv
  obtain ⟨np, -, h⟩ := bind_ok h
  split at h
  · cases h; exact hv
  · rename_i hnp
    cases h
    exact hv.setFile (hv.wf.ips _) (by simp only; omega)

theorem FileInv.fclose (f : Nat) : FileInv (fclose v f) hist := by
  refine hv.setFile (fun i hi => ?_) (hv.offs f)
  simp only at hi
  split at hi
  · cases hi
  · exact hv.wf.ips f i hi

theorem FileInv.fdup (f : Nat) : FileInv (fdup v f) hist := hv.setFile (hv.wf.ips f) (hv.offs f)

theorem FileInv.vfsMkdir {mem : Mem} {path : CStr} {r : Int} (h : vfsMkdir v mem path = .ok (v', r)) :
    FileInv v' hist := by
  unfold NjuOs.vfsMkdir at h
  split at h
  · cases h; exact hv
  split at h
  · cases h; exact hv
  split at h
  · cases h; exact hv
  obtain ⟨⟨v1, ip⟩, h1, h⟩ := bind_ok h
  obtain ⟨v2, h2, h⟩ := bind_ok h
  cases h
  obtain ⟨hv1, hip⟩ := hv.ialloc h1
  exact hv1.dirAdd hip h2

theorem FileInv.nlink (i : Nat) (k : Int) :
    FileInv (v.setInode i { v.inodes i with nlink := k }) hist := by
  refine hv.setMeta ?_ ?_ ?_ (hv.wf.ents i)
  · rfl
  · rfl
  · rfl

theorem FileInv.vfsLink {a b : CStr} {r : Int} (h : vfsLink v a b = .ok (v', r)) : FileInv v' hist := by
  unfold NjuOs.vfsLink at h
  split at h
  · cases h; exact hv
  rename_i ip hip
  split at h
  · cases h; exact hv
  split at h
  · cases h; exact hv
  obtain ⟨v1, h1, h⟩ := bind_ok h
  cases h
  exact (hv.dirAdd (hv.namei hip) h1).nlink _ _

theorem FileInv.vfsUnlink (path : CStr) : FileInv (vfsUnlink v path).1 hist := by
  unfold NjuOs.vfsUnlink
  split
  · exact hv
  rename_i dir name hp
  split
  · exact hv
  rename_i i hi
  split
  · exact hv
  rename_i n ip he
  have hv1 := hv.nlink ip ((v.inodes ip).nlink - 1)
  refine hv1.setMeta ?_ ?_ ?_ fun e hm => ?_
  · rfl
  · rfl
  · rfl
  · exact hv1.wf.ents dir e (swapRemove_subset hm)

theorem FileInv.vfsCall {p p' : Files} {c : VfsCall} {r : Int} (h : vfsCall v p c = .ok (v', p', r)) :
    FileInv v' (logCall v p hist c) := by
  cases c with
  | sysOpen mem path flags => exact hv.vfsOpen h
  | sysRead e fd n =>
    obtain ⟨⟨v1, r1, out⟩, h1, h⟩ := bind_ok h
    cases h
    exact hv.vfsRead h1
  | sysWrite mem fd buf n =>
    obtain ⟨⟨v1, r1⟩, h1, h⟩ := bind_ok h
    cases h
    exact hv.vfsWrite h1
  | sysClose fd =>
    have h : NjuOs.vfsClose v p fd = (v', p', r) := Except.ok.inj h
    unfold vfsClose at h
    split at h
    · cases h; exact hv
    · cases h; exact hv.fclose _
  | sysLseek fd off whence =>
    obtain ⟨⟨v1, r1⟩, h1, h⟩ := bind_ok h
    cases h
    exact hv.vfsLseek h1
  | sysFstat fd stNull =>
    obtain ⟨⟨r1, st⟩, h1, h⟩ := bind_ok h
    cases h
    exact hv
  | sysDup fd =>
    have h : NjuOs.vfsDup v p fd = (v', p', r) := Except.ok.inj h
    unfold vfsDup at h
    split at h
    · cases h; exact hv
    split at h
    · cases h; exact hv
    · cases h; exact hv.fdup _
  | sysMkdir mem path =>
    obtain ⟨⟨v1, r1⟩, h1, h⟩ := bind_ok h
    cases h
    exact hv.vfsMkdir h1
  | sysLink a b =>
    obtain ⟨⟨v1, r1⟩, h1, h⟩ := bind_ok h
    cases h
    exact hv.vfsLink h1
  | sysUnlink path =>
    cases h
    exact hv.vfsUnlink path
  | sysChdir path =>
    obtain ⟨rfl, -⟩ := Prod.mk.inj (Except.ok.inj h)
    exact hv

end

/-! ## Process hooks -/

theorem fileInv_closeFds {hist : Hist} : ∀ (fds : List Nat) (v : Vfs) (p : Files), FileInv v hist →
    FileInv (closeFds fds v p).1 hist
  | [], v, p, hv => hv
  | fd :: fds, v, p, hv => by
    unfold closeFds
    split
    · exact fileInv_closeFds fds v p hv
    · exact fileInv_closeFds fds _ _ (hv.fclose _)

theorem fileInv_forkRefs {hist : Hist} (parent : Files) : ∀ (fds : List Nat) (v : Vfs), FileInv v hist →
    FileInv (forkRefs parent fds v) hist
  | [], v, hv => hv
  | fd :: fds, v, hv => by
    unfold forkRefs
    split
    · exact fileInv_forkRefs parent fds v hv
    · exact fileInv_forkRefs parent fds _ (hv.fdup _)

theorem fileInv_stdioFds {hist : Hist} {tty : Nat} : ∀ (fds : List Nat) (v : Vfs) (p : Files), FileInv v hist →
    tty < v.ninode → FileInv (stdioFds tty fds v p).1 hist
  | [], v, p, hv, _ => hv
  | fd :: fds, v, p, hv, ht => by
    unfold stdioFds
    split
    · rename_i v1 h1
      rw [falloc_none h1]; exact hv
    · rename_i v1 f h1
      have hn : v1.ninode = v.ninode := by obtain ⟨-, -, rfl⟩ := NjuOs.falloc_some h1; rfl
      refine fileInv_stdioFds fds _ _ ((hv.falloc_some h1).setFile (fun i hi => ?_) (Int.le_refl 0)) ?_
      · cases hi; rw [hn]; exact ht
      · show tty < v1.ninode
        rw [hn]; exact ht

theorem fileInv_step {s s' : VfsSys} {a : VfsAct} (hs : FileInv s.vfs s.hist) (h : s.step a = some s') :
    FileInv s'.vfs s'.hist := by
  cases s.move h with
  | call _ hc => exact hs.vfsCall hc
  | spawn =>
    show FileInv (vfsSetupStdio s.vfs freshFiles).1 s.hist
    unfold vfsSetupStdio
    split
    · exact hs
    · rename_i tty ht
      exact fileInv_stdioFds _ _ _ hs (hs.namei ht)
  | @fork p => exact fileInv_forkRefs (s.files p) _ _ hs
  | closeAll => exact fileInv_closeFds _ _ _ hs
  | discard => exact hs

/-! ## From the initial state -/

structure InitOk (v : Vfs) : Prop where
  wf : VfsWf v
  inodes : ∀ i, InodeOk (v.inodes i) (initLog (v.inodes i))
  unused : ∀ i, v.ninode ≤ i → (v.inodes i).type ≠ .file
  offs : ∀ f, (v.ftable f).off = 0

theorem inodeOk_initLog_fresh (type : IType) (n : Int) :
    InodeOk (freshInode type n) (initLog (freshInode type n)) := by
  have h := inodeOk_fresh type n
  refine ⟨h.buf, ?_, h.le, fun i b hi => ?_⟩
  · unfold initLog
    split <;> rfl
  · unfold initLog at hi
    split at hi
    · simp [lastByte, freshInode] at hi
    · cases hi

theorem inodeOk_contents {ip ip' : Inode} {mem : Mem} {data d : List UInt8} {n : Int}
    (hfresh : ip = freshInode .file n) (hg : igrow ip mem (i32 data.length) = .ok ip')
    (hd : blit (ip'.data.getD []) 0 data = .ok d) :
    InodeOk { ip' with data := ip'.data.map fun _ => d, size := i32 data.length }
      (initLog { ip' with data := ip'.data.map fun _ => d, size := i32 data.length }) := by
  subst hfresh
  have h0 := inodeOk_fresh .file n
  obtain ⟨hb, -, -, heq, -⟩ := igrow_ok h0.buf h0.le hg
  obtain ⟨-, hle, hdeq⟩ := blit_inv hd
  have hcap := hb.cap_le
  rw [hb.length] at hle
  have hi32 : i32 data.length = data.length := by unfold i32; omega
  have hlen := length_blit hd
  have hget : (ip'.data.map fun _ => d).getD [] = d := by
    cases hc : ip'.data with
    | some d' => rfl
    | none =>
      rw [hc] at hlen
      exact (length_eq_zero_iff.mp hlen).symm
  have htake : d.take data.length = data := by
    rw [hdeq]; simp
  have hlog : initLog { ip' with data := ip'.data.map fun _ => d, size := i32 data.length } = [(0, data)] := by
    have ht : ip'.type = .file := by rw [heq]; rfl
    simp only [initLog, ht, ite_true, hget, hi32, Int.toNat_natCast, htake]
  rw [hi32, ← Int.zero_add (data.length : Int)] at hg
  have hw := h0.write (Int.le_refl 0) hg hd
  rw [hlog]
  have hsize : ip'.size = 0 := by rw [heq]; rfl
  have hif : (if ip'.size < 0 + (data.length : Int) then 0 + (data.length : Int) else ip'.size) =
      i32 data.length := by rw [hsize, hi32]; split <;> omega
  rw [hif] at hw
  exact hw

theorem InitOk.setInode {v : Vfs} (hv : InitOk v) {i : Nat} {x : Inode} (hx : InodeOk x (initLog x))
    (he : ∀ e ∈ x.ent, e.2 < v.ninode) (ht : v.ninode ≤ i → x.type ≠ .file) : InitOk (v.setInode i x) := by
  refine ⟨⟨fun d e hd => ?_, hv.wf.mounts, hv.wf.ips⟩, fun j => ?_, fun j hj => ?_, hv.offs⟩
  · by_cases hdi : d = i
    · subst hdi; rw [setInode_self] at hd; exact he e hd
    · rw [setInode_ne v x hdi] at hd; exact hv.wf.ents d e hd
  · by_cases hj : j = i
    · subst hj; rw [setInode_self]; exact hx
    · rw [setInode_ne v x hj]; exact hv.inodes j
  · by_cases hji : j = i
    · subst hji; rw [setInode_self]; exact ht hj
    · rw [setInode_ne v x hji]; exact hv.unused j hj

theorem InitOk.handlers {v : Vfs} (hv : InitOk v) (i : Nat) (rd : Option DevRead) (wr : Option DevWrite)
    (g : Option ProcGen) : InitOk (v.setInode i { v.inodes i with devRead := rd, devWrite := wr, procGen := g }) :=
  hv.setInode ((hv.inodes i).congr rfl rfl rfl) (hv.wf.ents i) (hv.unused i)

theorem InitOk.alloc {mem : Nat → Mem} {v v' : Vfs} {type : IType} {i : Nat} (hv : InitOk v)
    (h : initInode mem v type = .ok (v', i)) : InitOk v' := by
  obtain ⟨rfl, rfl⟩ := ialloc_ok h
  refine ⟨⟨fun d e hd => ?_, fun m hm => Nat.lt_succ_of_lt (hv.wf.mounts m hm),
    fun f i hf => Nat.lt_succ_of_lt (hv.wf.ips f i hf)⟩, fun j => ?_, fun j hj => ?_, hv.offs⟩
  · have hd : e ∈ ((v.setInode v.ninode (freshInode type v.nextIno)).inodes d).ent := hd
    by_cases hdn : d = v.ninode
    · subst hdn; rw [setInode_self] at hd; cases hd
    · rw [setInode_ne v _ hdn] at hd; exact Nat.lt_succ_of_lt (hv.wf.ents d e hd)
  · show InodeOk ((v.setInode v.ninode (freshInode type v.nextIno)).inodes j) (initLog _)
    by_cases hj : j = v.ninode
    · subst hj; rw [setInode_self]; exact inodeOk_initLog_fresh _ _
    · rw [setInode_ne v _ hj]; exact hv.inodes j
  · have hj : v.ninode + 1 ≤ j := hj
    show ((v.setInode v.ninode (freshInode type v.nextIno)).inodes j).type ≠ .file
    rw [setInode_ne v _ (by omega)]
    exact hv.unused j (by omega)

theorem InitOk.step {mem : Nat → Mem} {v v' : Vfs} (hv : InitOk v) (h : InitStep mem v v') : InitOk v' := by
  cases h with
  | alloc _ h => exact hv.alloc h
  | dev rd wr h => exact (hv.alloc h).handlers _ _ _ _
  | proc g h => exact (hv.alloc h).handlers _ _ _ _
  | @entry dir ip name _ hip h =>
    rw [dirAdd_ok h]
    refine hv.setInode ((hv.inodes dir).congr rfl rfl rfl) (fun e he => ?_) (hv.unused dir)
    rcases mem_append.mp he with he | he
    · exact hv.wf.ents dir e he
    · rw [mem_singleton.mp he]; exact hip
  | @contents i ip data d hi hfresh hg hd =>
    obtain ⟨n, hfresh⟩ := hfresh
    refine hv.setInode (inodeOk_contents hfresh hg hd) (fun e he => ?_) (fun hc => by omega)
    have h0 := inodeOk_fresh .file n
    rw [hfresh] at hg
    obtain ⟨-, -, -, heq, -⟩ := igrow_ok h0.buf h0.le hg
    have he : e ∈ ip.ent := he
    rw [heq] at he
    cases he
  | @mount path root h =>
    refine ⟨⟨hv.wf.ents, fun m hm => ?_, hv.wf.ips⟩, hv.inodes, hv.unused, hv.offs⟩
    rcases mem_append.mp hm with hm | hm
    · exact hv.wf.mounts m hm
    · rw [mem_singleton.mp hm]; exact h

theorem fileInv_init {mem : Nat → Mem} {progs : List (List UInt8 × List UInt8)} {v : Vfs}
    (h : vfsInit mem progs = .ok v) : FileInv v (VfsSys.init v).hist := by
  have h0 : InitOk vfsBlank := ⟨⟨fun _ _ he => (nomatch he), fun _ hm => (nomatch hm), fun _ _ hf => (nomatch hf)⟩,
    fun _ => inodeOk_initLog_fresh .dir 0, fun _ _ => by simp [vfsBlank, freshInode], fun _ => rfl⟩
  obtain ⟨hi, hm⟩ := vfsInit_inv (P := InitOk) (fun v v' hv hstep => hv.step hstep) h0 h
  refine ⟨hi.wf, ?_, hi.inodes, fun i hn => if_neg (hi.unused i hn), fun f => by rw [hi.offs f]⟩
  obtain ⟨m, hm⟩ := exists_mem_of_ne_nil _ hm
  exact Nat.lt_of_le_of_lt (Nat.zero_le _) (hi.wf.mounts m hm)

/-! ## What descriptors see -/

section
variable {v : Vfs} {hist : Hist} (hv : FileInv v hist) {p : Files} {fd : Int} {f i : Nat}
  (hf : getfile p fd = some f) (hi : (v.ftable f).ip = some i) (ht : (v.inodes i).type = .file)
include hv hf hi ht

theorem FileInv.read_file (hr : (v.ftable f).readable = true) (e : ProcEnv) {n c : Int} (hn : 0 ≤ n)
    (hc : c = min n (max 0 ((v.inodes i).size - (v.ftable f).off))) :
    ∃ out, NjuOs.vfsRead v p e fd n =
        .ok (v.setFile f { v.ftable f with off := (v.ftable f).off + c }, c, out) ∧ out.length = c ∧
      ∀ k b, k < out.length → lastByte (hist i) ((v.ftable f).off.toNat + k) = some b → out[k]? = some b := by
  have hok := hv.inodes i
  have hoff := hv.offs f
  have hcap := hok.buf.cap_le
  have hle := hok.le
  have hlen := hok.buf.length
  have hnr : ¬((v.ftable f).readable = false ∨ n < 0) := by
    rintro (h | h)
    · rw [hr] at h; cases h
    · omega
  have hinode : inodeOf v f = .ok i := by simp only [inodeOf, hi]
  by_cases hend : (v.inodes i).size ≤ (v.ftable f).off
  · have hc0 : c = 0 := by omega
    refine ⟨[], ?_, by rw [hc0]; rfl, fun k b hk => by simp at hk⟩
    rw [hc0]
    have hself : v.setFile f { v.ftable f with off := (v.ftable f).off + 0 } = v := by
      rw [Int.add_zero]
      show { v with ftable := update v.ftable f (v.ftable f) } = v
      rw [update_eq_self]
    rw [hself]
    simp only [NjuOs.vfsRead, hf, if_neg hnr, hinode, bind, Except.bind, ht, hend, ite_true]
    rfl
  · have hceq : (if n < (v.inodes i).size - (v.ftable f).off then n
        else (v.inodes i).size - (v.ftable f).off) = c := by split <;> omega
    have hslice : slice ((v.inodes i).data.getD []) (v.ftable f).off c =
        .ok ((((v.inodes i).data.getD []).drop (v.ftable f).off.toNat).take c.toNat) :=
      slice_ok hoff (by omega) (by omega)
    refine ⟨(((v.inodes i).data.getD []).drop (v.ftable f).off.toNat).take c.toNat, ?_, ?_,
      fun k b hk hb => ?_⟩
    · have hadv : NjuOs.advanceOff v f c =
          .ok (v.setFile f { v.ftable f with off := (v.ftable f).off + c }) := by
        simp only [NjuOs.advanceOff, bind, Except.bind, intOf_eq (x := (v.ftable f).off + c) (by omega) (by omega)]
        rfl
      simp only [NjuOs.vfsRead, hf, if_neg hnr, hinode, bind, Except.bind, ht, hend, ite_false, hceq, hslice, hadv]
      rfl
    · rw [length_take, length_drop]; omega
    · have hk' : k < c.toNat := by rw [length_take] at hk; omega
      rw [getElem?_take_of_lt hk', getElem?_drop]
      exact hok.last _ b hb

theorem FileInv.write_file (hw : (v.ftable f).writable = true) (junk buf : Nat → UInt8) {n : Int}
    (hn : 0 ≤ n) (hmax : (v.ftable f).off + n ≤ 2 ^ 30) :
    ∃ v', NjuOs.vfsWrite v p (some junk) fd buf n = .ok (v', n) := by
  have hok := hv.inodes i
  have hoff := hv.offs f
  have hnw : ¬((v.ftable f).writable = false ∨ n < 0) := by
    rintro (h | h)
    · rw [hw] at h; cases h
    · omega
  have hinode : inodeOf v f = .ok i := by simp only [inodeOf, hi]
  have hsz : 0 ≤ (v.inodes i).size := by rw [hok.size]; exact Int.natCast_nonneg _
  obtain ⟨ip, hg⟩ := igrow_total hok.buf hok.le hsz hmax junk
  obtain ⟨hb, hneed, -⟩ := igrow_ok hok.buf hok.le hg
  have hlen := hb.length
  obtain ⟨d, hd⟩ : ∃ d, blit (ip.data.getD []) (v.ftable f).off ((List.range n.toNat).map buf) = .ok d :=
    ⟨_, blit_ok hoff (by rw [length_map, length_range]; omega)⟩
  have hint := intOf_eq (x := (v.ftable f).off + n) (by omega) (by omega)
  simp only [NjuOs.vfsWrite, hf, if_neg hnw, hinode, bind, Except.bind, ht, NjuOs.writeFile, hint, hg, hd,
    NjuOs.advanceOff]
  exact ⟨_, rfl⟩

end

theorem file_contents (mem : Nat → Mem) (progs : List (List UInt8 × List UInt8)) (v : Vfs)
    (h : vfsInit mem progs = .ok v) (as : List VfsAct) (s : VfsSys)
    (hrun : run VfsSys.step (VfsSys.init v) as = some s) :
    (∀ i, (s.vfs.inodes i).size = writeEnd (s.hist i)) ∧
    ∀ p fd f i, getfile (s.files p) fd = some f → (s.vfs.ftable f).ip = some i →
      (s.vfs.inodes i).type = .file →
      ((s.vfs.ftable f).readable = true → ∀ (e : ProcEnv) (n c : Int), 0 ≤ n →
        c = min n (max 0 ((s.vfs.inodes i).size - (s.vfs.ftable f).off)) →
        ∃ out, vfsRead s.vfs (s.files p) e fd n =
            .ok (s.vfs.setFile f { s.vfs.ftable f with off := (s.vfs.ftable f).off + c }, c, out) ∧
          out.length = c ∧
          ∀ k b, k < out.length → lastByte (s.hist i) ((s.vfs.ftable f).off.toNat + k) = some b →
            out[k]? = some b) ∧
      ((s.vfs.ftable f).writable = true → ∀ (junk buf : Nat → UInt8) (n : Int), 0 ≤ n →
        (s.vfs.ftable f).off + n ≤ 2 ^ 30 →
        ∃ v', vfsWrite s.vfs (s.files p) (some junk) fd buf n = .ok (v', n)) := by
  have hs : FileInv s.vfs s.hist :=
    run_inv (I := fun s : VfsSys => FileInv s.vfs s.hist) (fun _ _ _ hi hstep => fileInv_step hi hstep) as _ s
      (fileInv_init h) hrun
  refine ⟨fun i => (hs.inodes i).size, fun p fd f i hf hi ht => ⟨?_, ?_⟩⟩
  · intro hr e n c hn hc
    exact hs.read_file hf hi ht hr e hn hc
  · intro hw junk buf n hn hmax
    exact hs.write_file hf hi ht hw junk buf hn hmax

def writeRun : List VfsAct :=
  [.spawn 1, .call 1 (.sysOpen (some fun _ => 0) ⟨bytes "/tmp/a", []⟩ (oCreate ||| oRdwr)),
    .call 1 (.sysWrite (some fun _ => 7) 3 (fun i => UInt8.ofNat (104 + i)) 2), .call 1 (.sysLseek 3 0 seekSet)]

theorem file_contents_small : ∃ s, run VfsSys.step (VfsSys.init bootVfs) writeRun = some s ∧
    ∃ v out, vfsRead s.vfs (s.files 1) ⟨0, 0, 0⟩ 3 10 = .ok (v, 2, out) ∧ out.length = 2 ∧
      out[0]? = some 104 := by
  have hs : (run VfsSys.step (VfsSys.init bootVfs) writeRun).isSome := by decide +kernel
  have hl : ∀ s ∈ run VfsSys.step (VfsSys.init bootVfs) writeRun,
      getfile (s.files 1) 3 = some 3 ∧ (s.vfs.ftable 3).ip = some 14 ∧ (s.vfs.inodes 14).type = .file ∧
      (s.vfs.ftable 3).readable = true ∧ (s.vfs.ftable 3).off = 0 ∧ (s.vfs.inodes 14).size = 2 ∧
      lastByte (s.hist 14) 0 = some 104 := by decide +kernel
  obtain ⟨s, hs⟩ := isSome_iff_exists.mp hs
  obtain ⟨h1, h2, h3, h4, h5, h6, h7⟩ := hl s hs
  obtain ⟨out, hr, hlen, hb⟩ := ((file_contents bootMem [] bootVfs vfsInit_boot writeRun s hs).2 1 3 3 14
    h1 h2 h3).1 h4 ⟨0, 0, 0⟩ 10 2 (by decide) (by rw [h5, h6]; decide)
  refine ⟨s, hs, _, out, hr, by omega, hb 0 104 (by omega) ?_⟩
  rw [h5]; exact h7

end NjuOs
