import NjuOs.OffsetSound

/-!
# Holes

A write past the end of a file leaves a hole: bytes below the new size that nobody wrote. What
they read as is what the buffer happened to hold, old contents of the file after an `O_TRUNC` or
whatever `pmm->alloc` returned; no code clears it.
-/

namespace NjuOs

open Function List Option

/-! ## Reading one byte -/

def ReadsZero (ip : Inode) (k : Nat) : Prop :=
  ∀ (v : Vfs) (p : Files) (e : ProcEnv) (fd : Int) (f i : Nat), getfile p fd = some f →
    (v.ftable f).ip = some i → v.inodes i = ip → (v.ftable f).off = k → (v.ftable f).readable = true →
      ∃ v', vfsRead v p e fd 1 = .ok (v', 1, [0])

section
variable {ip : Inode} {log : List (Nat × List UInt8)} {k : Nat}

theorem read_byte (h : InodeOk ip log) (ht : ip.type = .file) (hk : (k : Int) < ip.size) {v : Vfs} {p : Files}
    (e : ProcEnv) {fd : Int} {f i : Nat} (hf : getfile p fd = some f) (hi : (v.ftable f).ip = some i)
    (hip : v.inodes i = ip) (hoff : (v.ftable f).off = k) (hr : (v.ftable f).readable = true) :
    ∃ v' b, (ip.data.getD [])[k]? = some b ∧ vfsRead v p e fd 1 = .ok (v', 1, [b]) := by
  have hlen := h.buf.length
  have hle := h.le
  have hcap := h.buf.cap_le
  have hkd : k < (ip.data.getD []).length := by omega
  have hnr : ¬((v.ftable f).readable = false ∨ (1 : Int) < 0) := by simp [hr]
  have hinode : inodeOf v f = .ok i := by simp only [inodeOf, hi]
  have hend : ¬ip.size ≤ (k : Int) := by omega
  have hone : (if (1 : Int) < ip.size - k then 1 else ip.size - k) = 1 := by split <;> omega
  have hslice : slice (ip.data.getD []) k 1 = .ok [(ip.data.getD [])[k]] := by
    rw [slice_ok (by omega) (by omega) (by omega), Int.toNat_natCast, drop_eq_getElem_cons hkd]
    rfl
  have hint := intOf_eq (x := (k : Int) + 1) (by omega) (by omega)
  refine ⟨v.setFile f { v.ftable f with off := k + 1 }, (ip.data.getD [])[k], getElem?_eq_getElem hkd, ?_⟩
  simp only [vfsRead, hf, if_neg hnr, hinode, bind, Except.bind, hip, ht, hoff, hend, ite_false, hone, hslice,
    advanceOff, hint]
  rfl

theorem readsZero_iff (h : InodeOk ip log) (ht : ip.type = .file) (hk : (k : Int) < ip.size) :
    ReadsZero ip k ↔ (ip.data.getD [])[k]? = some 0 := by
  constructor
  · intro hz
    let v : Vfs := { vfsBlank with inodes := fun _ => ip, ftable := fun _ => ⟨some 0, k, true, false, 1⟩ }
    let p : Files := ⟨fun _ => some 0, []⟩
    have hf : getfile p 0 = some 0 := rfl
    obtain ⟨v', hread⟩ := hz v p ⟨0, 0, 0⟩ 0 0 0 hf rfl rfl rfl rfl
    obtain ⟨v'', b, hb, hread'⟩ := read_byte (v := v) h ht hk ⟨0, 0, 0⟩ hf rfl rfl rfl rfl
    rw [hread] at hread'
    cases hread'
    exact hb
  · intro hz v p e fd f i hf hi hip hoff hr
    obtain ⟨v', b, hb, hread⟩ := read_byte h ht hk e hf hi hip hoff hr
    rw [hz] at hb
    cases hb
    exact ⟨v', hread⟩

end

/-! ## What a write exposes -/

section
variable {ip ip' : Inode} {log : List (Nat × List UInt8)} {mem : Mem} {need : Int}

/-- Behind `size`, a grown buffer is the old buffer or fresh memory. -/
theorem igrow_behind (hb : BufOk ip) (hle : ip.size ≤ ip.cap) (h : igrow ip mem need = .ok ip') {k : Nat}
    (hk : ip.size ≤ k) (hneed : (k : Int) < need) :
    (ip'.data.getD [])[k]? =
      if need ≤ ip.cap then (ip.data.getD [])[k]? else mem.bind fun junk => some (junk k) := by
  obtain ⟨hb', hcap', -⟩ := igrow_ok hb hle h
  have hlen := hb'.length
  unfold igrow at h
  by_cases hn : need ≤ ip.cap
  · rw [if_pos hn] at h ⊢
    cases h
    rfl
  rw [if_neg hn] at h ⊢
  obtain ⟨c, hc, h⟩ := bind_ok h
  cases mem with
  | none => cases h
  | some junk =>
    simp only [bind_some]
    dsimp only at h
    split at h
    · cases h
      rw [getD_some, length_map, length_range] at hlen
      rw [getD_some, getElem?_map, getElem?_range (by omega)]
      rfl
    · next d hd =>
      obtain ⟨src, hsrc, h⟩ := bind_ok h
      obtain ⟨nd, hnd, h⟩ := bind_ok h
      cases h
      have hsl : src.length ≤ ip.size.toNat := by
        rw [slice_inv hsrc]
        exact length_take_le ..
      rw [getD_some, length_blit hnd, length_map, length_range] at hlen
      rw [getD_some, getElem?_blit hnd, if_neg (by simp only [Int.toNat_zero]; omega), getElem?_map,
        getElem?_range (by omega)]
      rfl

def ZeroHoles (ip : Inode) (log : List (Nat × List UInt8)) : Prop :=
  ∀ k : Nat, (k : Int) < ip.size → lastByte log k = none → (ip.data.getD [])[k]? = some 0

/-- The bytes between the end of the file and `off` are zero in the buffer that is written to. -/
def ZeroGap (ip : Inode) (mem : Mem) (off n : Int) : Prop :=
  ∀ k : Nat, ip.size ≤ k → (k : Int) < off →
    (if off + n ≤ ip.cap then (ip.data.getD [])[k]? else mem.bind fun junk => some (junk k)) = some 0

theorem zeroHoles_write {off : Int} {src d : List UInt8} {x : Inode} (h : InodeOk ip log) (hz : ZeroHoles ip log)
    (hoff : 0 ≤ off) (hg : igrow ip mem (off + src.length) = .ok ip') (hd : blit (ip'.data.getD []) off src = .ok d)
    (hx : x = { ip' with
      data := ip'.data.map fun _ => d
      size := if ip'.size < off + src.length then off + src.length else ip'.size }) :
    ZeroHoles x ((off.toNat, src) :: log) ↔ ZeroGap ip mem off src.length := by
  have hw := h.write hoff hg hd
  obtain ⟨hb, hneed, -, heq, hkeep⟩ := igrow_ok h.buf h.le hg
  have hsize : ip'.size = ip.size := by rw [heq]
  have hdata : ∀ k : Nat, (k : Int) < x.size → ¬(off.toNat ≤ k ∧ k < off.toNat + src.length) →
      (x.data.getD [])[k]? = (ip'.data.getD [])[k]? := by
    intro k hk hout
    have hlen := hw.buf.length
    have hle := hw.le
    rw [← hx] at hlen hle
    have hget : x.data.getD [] = d := by
      rw [hx] at hlen hle hk ⊢
      cases hc : ip'.data with
      | some d' => rfl
      | none =>
        simp only [hc, map_none, getD_none, length_nil] at hlen
        simp only at hk hle
        omega
    rw [hget, getElem?_blit hd, if_neg hout]
  have hunwritten : ∀ k, lastByte ((off.toNat, src) :: log) k = none ↔
      ¬(off.toNat ≤ k ∧ k < off.toNat + src.length) ∧ lastByte log k = none := by
    intro k
    rw [lastByte_cons]
    split
    · next hin =>
      have : src[k - off.toNat]? ≠ none := by
        rw [getElem?_eq_getElem (by omega)]
        exact some_ne_none _
      exact iff_of_false this fun hn => hn.1 hin
    · next hout => exact ⟨fun hl => ⟨hout, hl⟩, And.right⟩
  have hxsize : x.size = if ip.size < off + src.length then off + src.length else ip.size := by rw [hx, ← hsize]
  constructor
  · intro hz' k hk hlt
    have hkx : (k : Int) < x.size := by rw [hxsize]; split <;> omega
    have hout : ¬(off.toNat ≤ k ∧ k < off.toNat + src.length) := by omega
    have hnone : lastByte log k = none := by
      cases hl : lastByte log k with
      | none => rfl
      | some b =>
        have := lt_writeEnd hl
        have := h.size
        omega
    rw [← igrow_behind h.buf h.le hg hk (by omega), ← hdata k hkx hout]
    exact hz' k hkx ((hunwritten k).mpr ⟨hout, hnone⟩)
  · intro hgap k hk hnone
    obtain ⟨hout, hold⟩ := (hunwritten k).mp hnone
    rw [hdata k hk hout]
    by_cases hlt : (k : Int) < ip.size
    · rw [hkeep k hlt]
      exact hz k hlt hold
    · rw [hxsize] at hk
      have hkoff : (k : Int) < off := by split at hk <;> omega
      rw [igrow_behind h.buf h.le hg (by omega) (by omega)]
      exact hgap k (by omega) hkoff

end

/-! ## Calls that expose nothing -/

def BodyKept (v v' : Vfs) (hist hist' : Hist) : Prop :=
  ∀ i, (v'.inodes i).size = 0 ∨ (v'.inodes i).type = (v.inodes i).type ∧ (v'.inodes i).size = (v.inodes i).size ∧
    (v'.inodes i).data = (v.inodes i).data ∧ hist' i = hist i

section
variable {v v' : Vfs} {hist hist' : Hist} {p p' : Files}

theorem SameTree.bodyKept (h : SameTree v v') (hist : Hist) : BodyKept v v' hist hist := by
  intro i
  rw [h.inodes]
  exact Or.inr ⟨rfl, rfl, rfl, rfl⟩

theorem BodyKept.trans {v'' : Vfs} {hist'' : Hist} (h : BodyKept v v' hist hist') (h' : BodyKept v' v'' hist' hist'') :
    BodyKept v v'' hist hist'' := by
  intro i
  rcases h' i with h0 | ⟨ht, hs, hd, hh⟩
  · exact Or.inl h0
  rcases h i with h0 | ⟨ht', hs', hd', hh'⟩
  · exact Or.inl (hs.trans h0)
  · exact Or.inr ⟨ht.trans ht', hs.trans hs', hd.trans hd', hh.trans hh'⟩

theorem bodyKept_setInode (i : Nat) (nlink : Int) (ent : List (List UInt8 × Nat)) (hist : Hist) :
    BodyKept v (v.setInode i { v.inodes i with nlink := nlink, ent := ent }) hist hist := by
  intro j
  by_cases hj : j = i
  · subst hj
    rw [setInode_self]
    exact Or.inr ⟨rfl, rfl, rfl, rfl⟩
  · rw [setInode_ne v _ hj]
    exact Or.inr ⟨rfl, rfl, rfl, rfl⟩

theorem bodyKept_ialloc {mem : Mem} {type : IType} {ip : Nat} (h : ialloc v mem type = .ok (v', ip)) (hist : Hist) :
    BodyKept v v' hist hist := by
  obtain ⟨hnew, hold⟩ := ialloc_inodes h
  intro j
  by_cases hj : j = ip
  · rw [hj, hnew]
    exact Or.inl rfl
  · rw [hold j hj]
    exact Or.inr ⟨rfl, rfl, rfl, rfl⟩

theorem bodyKept_dirAdd {dir ip : Nat} {name : List UInt8} (h : dirAdd v dir name ip = .ok v') (hist : Hist) :
    BodyKept v v' hist hist := by
  rw [dirAdd_ok h]
  exact bodyKept_setInode dir _ _ hist

theorem Created.bodyKept {path : CStr} (h : Created v path v') (hist : Hist) : BodyKept v v' hist hist := by
  cases h with
  | mk hno hpar ht _ h1 h2 => exact (bodyKept_ialloc h1 hist).trans (bodyKept_dirAdd h2 hist)

theorem bodyKept_vfsOpen {mem : Mem} {path : CStr} {flags : Nat} {r : Int}
    (h : vfsOpen v p mem path flags = .ok (v', p', r)) (hist : Hist) :
    BodyKept v v' hist (logCall v p hist (.sysOpen mem path flags)) := by
  obtain ⟨⟨v1, o⟩, h1, h⟩ := bind_ok h
  have hv1 : BodyKept v v1 hist hist := by
    rcases openInode_ok h1 with rfl | hc
    · exact (SameTree.refl v1).bodyKept hist
    · exact hc.bodyKept hist
  cases o with
  | none =>
    cases h
    simp only [logCall, h1]
    exact hv1
  | some ip =>
    simp only at h
    simp only [logCall, h1]
    split at h
    · next hc =>
      cases h
      rw [if_pos hc]
      exact hv1
    · next hc =>
      rw [if_neg hc]
      have hopen := sameTree_openFile (pure_eq_ok.mp h)
      refine hv1.trans (BodyKept.trans ?_ (hopen.bodyKept _))
      unfold truncInode
      split
      · next ht =>
        -- the truncated file is empty, its log too
        intro j
        by_cases hj : j = ip
        · subst hj
          rw [setInode_self]
          exact Or.inl rfl
        · rw [setInode_ne v1 _ hj, update_of_ne hj]
          exact Or.inr ⟨rfl, rfl, rfl, rfl⟩
      · exact (SameTree.refl v1).bodyKept hist

/-- A call other than a write to a regular file. -/
theorem bodyKept_vfsCall {c : VfsCall} {r : Int} (h : vfsCall v p c = .ok (v', p', r)) (hist : Hist)
    (hno : ∀ mem fd buf n, c = .sysWrite mem fd buf n → ∀ f i, ¬WritesTo v p fd n f i) :
    BodyKept v v' hist (logCall v p hist c) := by
  cases c with
  | sysOpen mem path flags => exact bodyKept_vfsOpen h hist
  | sysWrite mem fd buf n =>
    obtain ⟨⟨v1, r1⟩, h1, h⟩ := bind_ok h
    cases h
    have hno := hno mem fd buf n rfl
    rcases vfsWrite_ok h1 with ⟨f, i, hw, -⟩ | ⟨hs, -⟩
    · exact absurd hw (hno f i)
    · rw [logCall_noWrite hno]
      exact hs.bodyKept hist
  | sysMkdir mem path =>
    obtain ⟨⟨v1, r1⟩, h1, h⟩ := bind_ok h
    cases h
    rcases vfsMkdir_ok h1 with ⟨-, rfl⟩ | ⟨-, hc⟩
    · exact (SameTree.refl v').bodyKept hist
    · exact hc.bodyKept hist
  | sysLink a b =>
    obtain ⟨⟨v1, r1⟩, h1, h⟩ := bind_ok h
    cases h
    rcases vfsLink_ok h1 with ⟨-, rfl⟩ | ⟨-, ip, dir, name, v2, -, -, -, h2, rfl⟩
    · exact (SameTree.refl v').bodyKept hist
    · exact (bodyKept_dirAdd h2 hist).trans (bodyKept_setInode ip _ _ hist)
  | sysUnlink path =>
    obtain ⟨rfl, -⟩ := Prod.mk.inj (Except.ok.inj h)
    rcases vfsUnlink_ok (Prod.mk.eta (p := vfsUnlink v path)).symm with
      ⟨-, he⟩ | ⟨-, dir, name, ip, ent, v1, -, -, h1, he⟩
    · rw [he]
      exact (SameTree.refl v).bodyKept hist
    · rw [he, h1]
      exact (bodyKept_setInode ip _ _ hist).trans (bodyKept_setInode dir _ _ hist)
  | _ => exact (sameTree_vfsCall h trivial).bodyKept hist

end

/-! ## Holes along a run -/

/-- Every byte below the end of a regular file that was not written since the file was made or
last truncated reads as zero. -/
def HolesReadZero (s : VfsSys) : Prop :=
  ∀ i k : Nat, (s.vfs.inodes i).type = .file → (k : Int) < (s.vfs.inodes i).size → lastByte (s.hist i) k = none →
    ReadsZero (s.vfs.inodes i) k

/-- A write to a regular file finds zeros between the end of the file and its offset. -/
def FillsZero (s : VfsSys) : VfsAct → Prop
  | .call p (.sysWrite mem fd _ n) => ∀ f i, WritesTo s.vfs (s.files p) fd n f i →
      ZeroGap (s.vfs.inodes i) mem (s.vfs.ftable f).off n
  | _ => True

theorem holesReadZero_iff {s : VfsSys} (hs : FileInv s.vfs s.hist) :
    HolesReadZero s ↔ ∀ i, (s.vfs.inodes i).type = .file → ZeroHoles (s.vfs.inodes i) (s.hist i) := by
  constructor
  · exact fun h i ht k hk hl => (readsZero_iff (hs.inodes i) ht hk).mp (h i k ht hk hl)
  · exact fun h i k ht hk hl => (readsZero_iff (hs.inodes i) ht hk).mpr (h i ht k hk hl)

theorem BodyKept.zeroHoles {v v' : Vfs} {hist hist' : Hist} (h : BodyKept v v' hist hist')
    (hz : ∀ i, (v.inodes i).type = .file → ZeroHoles (v.inodes i) (hist i)) (i : Nat)
    (ht : (v'.inodes i).type = .file) : ZeroHoles (v'.inodes i) (hist' i) := by
  intro k hk hl
  rcases h i with h0 | ⟨htype, hsize, hdata, hlog⟩
  · omega
  · rw [hsize] at hk
    rw [hlog] at hl
    rw [hdata]
    exact hz i (htype ▸ ht) k hk hl

theorem writeFile_ok {v v' : Vfs} {mem : Mem} {f i : Nat} {buf : Nat → UInt8} {n r : Int}
    (h : writeFile v mem f i buf n = .ok (v', r)) :
    ∃ ip d, igrow (v.inodes i) mem ((v.ftable f).off + n) = .ok ip ∧
      blit (ip.data.getD []) (v.ftable f).off ((List.range n.toNat).map buf) = .ok d ∧
      (∀ j, j ≠ i → v'.inodes j = v.inodes j) ∧
      v'.inodes i = { ip with
        data := ip.data.map fun _ => d
        size := if ip.size < (v.ftable f).off + n then (v.ftable f).off + n else ip.size } := by
  obtain ⟨need, hneed, h⟩ := bind_ok h
  obtain ⟨ip, hg, h⟩ := bind_ok h
  obtain ⟨d, hd, h⟩ := bind_ok h
  obtain ⟨v1, h1, h⟩ := bind_ok h
  obtain ⟨o, ho, h1⟩ := bind_ok h1
  obtain ⟨rfl, -⟩ := intOf_ok hneed
  obtain ⟨rfl, -⟩ := intOf_ok ho
  cases h1
  cases h
  refine ⟨ip, d, hg, hd, fun j hj => setInode_ne _ _ hj, ?_⟩
  rw [setInode_self, setFile_self]
  dsimp only
  split <;> rfl

/-- A write to a regular file exposes exactly the gap in front of it. -/
theorem holes_write {v v' : Vfs} {hist : Hist} {p : Files} {mem : Mem} {fd n r : Int} {buf : Nat → UInt8} {f i : Nat}
    (hv : FileInv v hist) (hz : ∀ i, (v.inodes i).type = .file → ZeroHoles (v.inodes i) (hist i))
    (hw : WritesTo v p fd n f i) (h : writeFile v mem f i buf n = .ok (v', r)) :
    (∀ j, (v'.inodes j).type = .file → ZeroHoles (v'.inodes j) (logCall v p hist (.sysWrite mem fd buf n) j)) ↔
      ZeroGap (v.inodes i) mem (v.ftable f).off n := by
  obtain ⟨ip, d, hg, hd, hother, hself⟩ := writeFile_ok h
  have hlen : (((List.range n.toNat).map buf).length : Int) = n := by
    have := hw.len
    rw [length_map, length_range]
    omega
  have htype : (v'.inodes i).type = .file := by rw [(sameMeta_writeFile h).sameLinks.type, hw.type]
  rw [← hlen] at hg hself
  have hiff := zeroHoles_write (hv.inodes i) (hz i hw.type) (hv.offs f) hg hd hself
  rw [hlen] at hiff
  rw [logCall_write hw, ← hiff]
  constructor
  · intro hall
    have hi := hall i htype
    rw [update_self] at hi
    exact hi
  · intro hi j ht
    by_cases hj : j = i
    · subst hj
      rw [update_self]
      exact hi
    · rw [hother j hj] at ht ⊢
      rw [update_of_ne hj]
      exact hz j ht

theorem holes_step {s s' : VfsSys} {a : VfsAct} (hs : FileInv s.vfs s.hist) (hz : HolesReadZero s)
    (h : s.step a = some s') : HolesReadZero s' ↔ FillsZero s a := by
  rw [holesReadZero_iff hs] at hz
  rw [holesReadZero_iff (fileInv_step hs h)]
  rcases step_call h with ⟨p, c, fs, r, rfl, -, hc, hlog⟩ | ⟨hcall, ht, hlog⟩
  · by_cases hw : ∃ mem fd buf n f i, c = .sysWrite mem fd buf n ∧ WritesTo s.vfs (s.files p) fd n f i
    · obtain ⟨mem, fd, buf, n, f, i, rfl, hw⟩ := hw
      obtain ⟨⟨v1, r1⟩, h1, hc⟩ := bind_ok hc
      cases hc
      rcases vfsWrite_ok h1 with ⟨f', i', hw', h1⟩ | ⟨-, hno⟩
      · obtain ⟨rfl, rfl⟩ := hw'.unique hw
        rw [hlog, holes_write hs hz hw h1]
        constructor
        · intro hgap f i hwr
          obtain ⟨rfl, rfl⟩ := hwr.unique hw
          exact hgap
        · exact fun hall => hall f' i' hw
      · exact absurd hw (hno f i)
    · have hno : ∀ mem fd buf n, c = .sysWrite mem fd buf n → ∀ f i, ¬WritesTo s.vfs (s.files p) fd n f i :=
        fun mem fd buf n he f i hwr => hw ⟨mem, fd, buf, n, f, i, he, hwr⟩
      have hkept := bodyKept_vfsCall hc s.hist hno
      rw [← hlog] at hkept
      refine iff_of_true (hkept.zeroHoles hz) ?_
      cases c with
      | sysWrite mem fd buf n => exact fun f i hwr => absurd hwr (hno mem fd buf n rfl f i)
      | _ => trivial
  · refine iff_of_true ?_ ?_
    · rw [hlog]
      exact (ht.bodyKept s.hist).zeroHoles hz
    · cases a with
      | call p c => exact absurd rfl (hcall p c)
      | _ => trivial

theorem holes_init {mem : Nat → Mem} {progs : List (List UInt8 × List UInt8)} {v : Vfs}
    (h : vfsInit mem progs = .ok v) : HolesReadZero (VfsSys.init v) := by
  have hv := fileInv_init h
  intro i k ht hk hl
  -- a program image is one write from the start to the end of the file
  have hok := hv.inodes i
  have hlog : (VfsSys.init v).hist i = [(0, ((v.inodes i).data.getD []).take (v.inodes i).size.toNat)] := if_pos ht
  have hsize := hok.size
  rw [hlog] at hl hsize
  have hk : (k : Int) < (v.inodes i).size := hk
  simp only [writeEnd_cons, writeEnd_nil, Nat.zero_add, Nat.max_zero] at hsize
  rw [lastByte_cons, if_pos ⟨Nat.zero_le k, by omega⟩, getElem?_eq_getElem (by omega)] at hl
  cases hl

/-- In a run of the file system all holes read as zero, in every state of the run, iff every write
of the run finds zeros behind the end of its file. -/
theorem holes_zero_iff {mem : Nat → Mem} {progs : List (List UInt8 × List UInt8)} {v : Vfs} {as : List VfsAct}
    {s : VfsSys} (hinit : vfsInit mem progs = .ok v) (hr : run VfsSys.step (VfsSys.init v) as = some s) :
    (∀ bs t, bs <+: as → run VfsSys.step (VfsSys.init v) bs = some t → HolesReadZero t) ↔
      Along VfsSys.step FillsZero (VfsSys.init v) as :=
  run_iff_along (I := fun s => FileInv s.vfs s.hist) (fun _ _ _ => fileInv_step) (fun _ _ _ => holes_step) as _ s
    (fileInv_init hinit) (holes_init hinit) hr

def writesInside (s : VfsSys) : VfsAct → Bool
  | .call p (.sysWrite _ fd _ _) => (getfile (s.files p) fd).all fun f => (s.vfs.ftable f).ip.all fun i =>
      (s.vfs.ftable f).off ≤ (s.vfs.inodes i).size
  | _ => true

/-- A write that starts at the end of the file or before it leaves no gap. -/
theorem fillsZero_of_inside {s : VfsSys} {a : VfsAct} (h : writesInside s a = true) : FillsZero s a := by
  unfold FillsZero
  split
  next p mem fd buf n =>
    intro f i hw k hsize hoff
    simp only [writesInside, hw.file, hw.inode, Option.all_some, decide_eq_true_eq] at h
    omega
  next => trivial

theorem holes_zero_written : ∃ s, run VfsSys.step (VfsSys.init bootVfs) writeRun = some s ∧
    Along VfsSys.step FillsZero (VfsSys.init bootVfs) writeRun ∧
    ∀ bs t, bs <+: writeRun → run VfsSys.step (VfsSys.init bootVfs) bs = some t → HolesReadZero t := by
  have hs : passes VfsSys.step writesInside (fun _ => true) (VfsSys.init bootVfs) writeRun = true := by decide +kernel
  obtain ⟨s, hs, hc, -⟩ := passes_run (fun _ _ => fillsZero_of_inside) hs
  exact ⟨s, hs, hc, (holes_zero_iff vfsInit_boot hs).mpr hc⟩

def junkRun : List VfsAct :=
  seekRun 4 ++ [.call 1 (.sysWrite (some fun _ => 7) 3 (fun _ => 1) 1), .call 1 (.sysLseek 3 0 seekSet)]

def truncRun : List VfsAct :=
  seekRun 0 ++ [.call 1 (.sysWrite (some fun _ => 0) 3 (fun _ => 9) 3),
    .call 1 (.sysOpen (some fun _ => 0) ⟨bytes "/tmp/a", []⟩ (oTrunc ||| oRdwr)),
    .call 1 (.sysLseek 4 2 seekSet), .call 1 (.sysWrite (some fun _ => 0) 4 (fun _ => 1) 1),
    .call 1 (.sysLseek 4 0 seekSet)]

/-- The first byte is below the end of the file and was not written, and it reads as a seven or a nine. -/
theorem hole_reads_junk :
    (∃ s v', run VfsSys.step (VfsSys.init bootVfs) junkRun = some s ∧ (s.vfs.inodes 14).size = 5 ∧
      lastByte (s.hist 14) 0 = none ∧ vfsRead s.vfs (s.files 1) ⟨0, 0, 0⟩ 3 1 = .ok (v', 1, [7])) ∧
    ∃ s v', run VfsSys.step (VfsSys.init bootVfs) truncRun = some s ∧ (s.vfs.inodes 14).size = 3 ∧
      lastByte (s.hist 14) 0 = none ∧ vfsRead s.vfs (s.files 1) ⟨0, 0, 0⟩ 4 1 = .ok (v', 1, [9]) := by
  have hjunk : (run VfsSys.step (VfsSys.init bootVfs) junkRun).any (fun s =>
      ((s.vfs.inodes 14).size = 5 ∧ lastByte (s.hist 14) 0 = none) ∧
      (vfsRead s.vfs (s.files 1) ⟨0, 0, 0⟩ 3 1).toOption.any fun r => r.2 = (1, [7])) = true := by decide +kernel
  have htrunc : (run VfsSys.step (VfsSys.init bootVfs) truncRun).any (fun s =>
      ((s.vfs.inodes 14).size = 3 ∧ lastByte (s.hist 14) 0 = none) ∧
      (vfsRead s.vfs (s.files 1) ⟨0, 0, 0⟩ 4 1).toOption.any fun r => r.2 = (1, [9])) = true := by decide +kernel
  constructor
  · obtain ⟨s, ⟨v', r⟩, hs, ⟨hsize, hlog⟩, hread, rfl⟩ := any_call hjunk
    exact ⟨s, v', hs, hsize, hlog, hread⟩
  · obtain ⟨s, ⟨v', r⟩, hs, ⟨hsize, hlog⟩, hread, rfl⟩ := any_call htrunc
    exact ⟨s, v', hs, hsize, hlog, hread⟩

end NjuOs
