import NjuOs.ImageSound
import NjuOs.WalkSound

/-!
# Programs for `exec`

`vfs_prog_data` cuts the name to what its path buffer holds, and `namei` looks up a long component
in pieces. Where that gives no buffer, `sys_exec` goes on with the embedded table, whether or not
there is a file system. The reference is the regular file `/bin/name` and nothing else.
-/

namespace NjuOs

open List Option

def Inode.contents (ip : Inode) : List UInt8 := (ip.data.getD []).take ip.size.toNat

def binFile (v : Vfs) (name : List UInt8) : Option Nat :=
  (referenceWalk v (bytes "/bin/" ++ name)).filter fun ip => (v.inodes ip).type = .file

def binContents (v : Vfs) (name : List UInt8) : Option (List UInt8) :=
  (binFile v name).map fun ip => (v.inodes ip).contents

def embedded (k : Kernel) (name : List UInt8) : Option (List UInt8) :=
  (k.uprogs.find? fun u => u.1 = name).map Prod.snd

structure ExecLoaded (p : TaskRef) (bin : List UInt8) (k k' : Kernel) : Prop
    extends ImageLoaded p bin bin.length (k.modify p fun x => { x with maps := [] }) k' where
  heapTop : (k'.tasks p).heapTop = userHeap
  entry : (k'.tasks p).context = ucontext (k'.tasks p) p userBase

def ExecEnd (p : TaskRef) (k : Kernel) (file : Option (List UInt8)) (r : Kernel × Bool) : Prop :=
  match file with
  | some c => r.2 = true ∧ ExecLoaded p c k r.1
  | none => r = (k, false)

def ImageFits (c : List UInt8) : Prop := imageSpan c.length + stkPages ≤ procMaxmap

/-! ## The call -/

def execBytes (k : Kernel) (name : List UInt8) : Option (List UInt8) :=
  (execImage k name).map fun r => r.1.take r.2

section
variable {A : Allocator} {k k0 k1 k' k'' : Kernel} {p : TaskRef} {bin : List UInt8} {len va : Nat} {path : CStr}

theorem ImageLoaded.take (hlen : len ≤ bin.length) (h : ImageLoaded p bin len k k') :
    ImageLoaded p (bin.take len) (bin.take len).length k k' := by
  rw [length_take, Nat.min_eq_left hlen]
  refine ⟨h.maps, fun i hi => ?_, h.stack⟩
  rw [h.image i hi]
  by_cases hl : i < len
  · rw [if_pos hl, if_pos hl, getD_eq_getElem?_getD, getD_eq_getElem?_getD, getElem?_take_of_lt hl]
  · rw [if_neg hl, if_neg hl]

/-- A load says nothing about the rest of the two kernels. -/
theorem ImageLoaded.congr (h : ImageLoaded p bin len k k') (h0 : (k0.tasks p).maps = (k.tasks p).maps)
    (h1 : (k''.tasks p).maps = (k'.tasks p).maps) (hpage : k''.page = k'.page) : ImageLoaded p bin len k0 k'' := by
  have hview : k''.view p = k'.view p := by
    funext a
    rw [Kernel.view, Kernel.view, Task.mapping, Task.mapping, h1, hpage]
  constructor
  · rw [h0, h1]
    exact h.maps
  · rw [hview]
    exact h.image
  · rw [hview]
    exact h.stack

theorem imagePages_file (h : len ≤ 2 ^ 30) : imagePages len = imageSpan len := by
  apply imagePages_small
  simp only [bssSlack, pgsize]
  omega

theorem sysExec_parts (hva : userOk va 1 = true) (hi : execImage k (progName path.str) = some (bin, len))
    {r : Kernel × Bool} (h : sysExec A k p va path = .ok r) : ∃ k1 k2, (k1.tasks p).maps = [] ∧
      (k1.tasks p).heapTop = userHeap ∧ procLoadImage A k1 p bin len = .ok k2 ∧
      r = (k2.modify p fun x => { x with context := ucontext x p userBase }, true) := by
  unfold sysExec at h
  rw [if_neg (by rw [hva]; nofun), hi] at h
  rcases pmmAlloc A k mapsBytes with ⟨k1, m⟩
  dsimp only at h
  obtain ⟨k2, h2, h⟩ := bind_ok h
  obtain ⟨k3, h3, h⟩ := bind_ok h
  cases h
  have hp := protect_mapped h2
  have hv := hp.vas
  have ht := hp.top
  rw [modify_tasks_self] at hv ht
  exact ⟨k2, k3, map_eq_nil_iff.mp hv, ht, h3, rfl⟩

theorem sysExec_end (hva : userOk va 1 = true)
    (hlen : ∀ bin len, execImage k (progName path.str) = some (bin, len) → len ≤ bin.length ∧ len ≤ 2 ^ 30)
    {r : Kernel × Bool} (h : sysExec A k p va path = .ok r) :
    ExecEnd p k (execBytes k (progName path.str)) r ∧ ∀ c ∈ execBytes k (progName path.str), ImageFits c := by
  unfold execBytes
  cases hi : execImage k (progName path.str) with
  | none =>
    unfold sysExec at h
    rw [if_neg (by rw [hva]; nofun), hi] at h
    cases h
    exact ⟨rfl, nofun⟩
  | some img =>
    obtain ⟨bin, len⟩ := img
    obtain ⟨hle, hsmall⟩ := hlen bin len hi
    obtain ⟨k1, k2, hmaps, htop, hload, rfl⟩ := sysExec_parts hva hi h
    have hm := procLoadImage_mapped hload
    have hvas : (k1.tasks p).vas = [] := congrArg (List.map Vmap.va) hmaps
    have hroom := hm.room (by rw [hvas]; exact Nat.zero_le _)
    have hspan := imagePages_file hsmall
    have hfit : imageSpan len + stkPages ≤ procMaxmap := by
      rwa [hm.vas, hvas, nil_append, length_append, length_map, length_map, length_range,
        length_range, hspan] at hroom
    have hclen : (bin.take len).length = len := by rw [length_take, Nat.min_eq_left hle]
    refine ⟨⟨rfl, ?_⟩, fun c hc => ?_⟩
    · constructor
      · refine ((imageLoaded hle hfit hload).take hle).congr ?_ ?_ rfl
        · rw [modify_tasks_self, hmaps]
        · rw [modify_tasks_self]
      · rw [modify_tasks_self]
        exact hm.top.trans htop
      · rw [modify_tasks_self]
        rfl
    · cases hc
      rw [ImageFits, hclen]
      exact hfit

theorem protect_returns (hA : ServesPages A) (k : Kernel) (p : TaskRef) : ∃ k', protect A k p = .ok k' ∧
    (k'.tasks p).mapsPtr = (k.tasks p).mapsPtr ∧ (k'.tasks p).maps = (k.tasks p).maps := by
  obtain ⟨a, -, -, ha⟩ := pmmAlloc_serves hA k
  refine ⟨_, by rw [protect, allocOr, ha]; rfl, ?_, ?_⟩
  · rw [modify_tasks_self]
  · rw [modify_tasks_self]

theorem sysExec_returns (hA : ServesPages A) (hm : ∀ h, A.alloc h mapsBytes ≠ none)
    (hlen : ∀ bin len, execImage k (progName path.str) = some (bin, len) → len ≤ bin.length)
    (hfit : ∀ c ∈ execBytes k (progName path.str), ImageFits c) : ∃ r, sysExec A k p va path = .ok r := by
  unfold sysExec
  split
  · exact ⟨_, rfl⟩
  cases hi : execImage k (progName path.str) with
  | none => exact ⟨_, rfl⟩
  | some img =>
    obtain ⟨bin, len⟩ := img
    have hle := hlen bin len hi
    have hspan : imageSpan len + stkPages ≤ procMaxmap := by
      have h := hfit (bin.take len) (by rw [execBytes, hi]; rfl)
      rwa [ImageFits, length_take, Nat.min_eq_left hle] at h
    obtain ⟨m, hm⟩ := ne_none_iff_exists'.mp (hm k.heap)
    have halloc : pmmAlloc A k mapsBytes =
        ({ k with heap := ⟨(m, mapsBytes) :: k.heap.live, k.heap.calls + 1⟩ }, some m) := by
      rw [pmmAlloc, hm]
    simp only [halloc]
    obtain ⟨k2, h2, hptr, hmaps⟩ := protect_returns hA
      (({ k with heap := ⟨(m, mapsBytes) :: k.heap.live, k.heap.calls + 1⟩ } : Kernel).modify p
        fun x => { x with mapsPtr := some m, maps := [], heapTop := userHeap }) p
    rw [modify_tasks_self] at hptr hmaps
    obtain ⟨k3, h3⟩ := procLoadImage_returns hA hle (by rw [hptr]; exact some_ne_none m) (k := k2) (p := p) (by
      rw [hmaps, length_nil, Nat.zero_add]
      exact hspan)
    exact ⟨_, ok_bind h2 (ok_bind h3 rfl)⟩

end

/-! ## The lookup -/

def progInode (v : Vfs) (name : List UInt8) : Option Nat :=
  (namei v ⟨bytes "/bin/" ++ name.take 58, []⟩).filter fun ip => (v.inodes ip).type = .file

section
variable {k : Kernel} {name : List UInt8}

theorem execBytes_eq (k : Kernel) (name : List UInt8) : execBytes k name =
    ((progInode k.vfs name).bind fun ip =>
      (k.vfs.inodes ip).data.map fun d => d.take (k.vfs.inodes ip).size.toNat).or (embedded k name) := by
  have hemb : ((k.uprogs.find? fun u => u.1 = name).map fun u => (u.2, u.2.length)).map
      (fun r : List UInt8 × Nat => r.1.take r.2) = embedded k name := by
    rw [Option.map_map, embedded]
    exact congrArg (Option.map · _) (funext fun u => take_length ..)
  unfold execBytes execImage vfsProgData progInode
  cases namei k.vfs ⟨bytes "/bin/" ++ name.take 58, []⟩ with
  | none => exact hemb
  | some ip =>
    by_cases ht : (k.vfs.inodes ip).type = .file
    · cases hd : (k.vfs.inodes ip).data with
      | none => simpa [ht, hd, filter_some] using hemb
      | some d => simp [ht, hd, filter_some]
    · simpa [ht, filter_some] using hemb

theorem execImage_short {bin : List UInt8} {len : Nat} {hist : Hist} (hv : FileInv k.vfs hist)
    (hprogs : ∀ u ∈ k.uprogs, u.2.length ≤ 2 ^ 30) (h : execImage k name = some (bin, len)) :
    len ≤ bin.length ∧ len ≤ 2 ^ 30 := by
  unfold execImage at h
  split at h
  · next d size hd =>
    cases h
    unfold vfsProgData at hd
    split at hd
    · cases hd
    next ip _ =>
    split at hd
    · cases hd
    obtain ⟨hdata, hsize⟩ := Prod.mk.inj (some.inj hd)
    have hok := hv.inodes ip
    have hlen := hok.buf.length
    have hcap := hok.buf.cap_le.2
    have hle := hok.le
    rw [hdata, getD_some] at hlen
    rw [hsize] at hle
    omega
  · obtain ⟨u, hu, he⟩ := map_eq_some_iff.mp h
    obtain ⟨rfl, rfl⟩ := Prod.mk.inj he
    exact ⟨Nat.le_refl _, hprogs u (mem_of_find?_eq_some hu)⟩

end

theorem addProgs_short {mem : Nat → Mem} {bin : Nat} : ∀ {progs : List (List UInt8 × List UInt8)} {v v' : Vfs},
    addProgs mem bin progs v = .ok v' → ∀ u ∈ progs, u.2.length ≤ 2 ^ 30
  | [], _, _, _, _, hu => nomatch hu
  | (name, data) :: progs, v, v', h, u, hu => by
    obtain ⟨v1, h1, h⟩ := bind_ok h
    rcases mem_cons.mp hu with rfl | hu
    · obtain ⟨⟨v2, f⟩, h2, h1⟩ := bind_ok h1
      obtain ⟨ip, hip, h1⟩ := bind_ok h1
      obtain ⟨d, hd, -⟩ := bind_ok h1
      obtain ⟨hnew, -⟩ := ialloc_inodes h2
      rw [hnew] at hip
      have hok := inodeOk_fresh .file v.nextIno
      obtain ⟨hbuf, -⟩ := igrow_ok hok.buf hok.le hip
      have hlen := hbuf.length
      have hcap := hbuf.cap_le.2
      have hfit := (blit_inv hd).2.1
      dsimp only at hfit ⊢
      omega
    · exact addProgs_short h u hu

theorem vfsInit_short {mem : Nat → Mem} {progs : List (List UInt8 × List UInt8)} {v : Vfs}
    (h : vfsInit mem progs = .ok v) : ∀ u ∈ progs, u.2.length ≤ 2 ^ 30 := by
  obtain ⟨⟨v1, root⟩, -, h⟩ := bind_ok h
  obtain ⟨⟨v2, i2⟩, -, h⟩ := bind_ok h
  obtain ⟨⟨v3, bin⟩, -, h⟩ := bind_ok h
  obtain ⟨⟨v4, i4⟩, -, h⟩ := bind_ok h
  obtain ⟨⟨v5, i5⟩, -, h⟩ := bind_ok h
  obtain ⟨v6, h6, -⟩ := bind_ok h
  exact addProgs_short h6

/-! ## Names in `/bin` -/

section
variable {v : Vfs} {hist : Hist} {dev proc : Nat} {name : List UInt8}

theorem bin_path (name : List UInt8) : bytes "/bin/" ++ name = slash :: (bytes "bin" ++ slash :: name) := by
  have h : bytes "/bin/" = slash :: bytes "bin" ++ [slash] := by decide
  rw [h, append_assoc]
  rfl

theorem components_bin (name : List UInt8) : components (bytes "/bin/" ++ name) = bytes "bin" :: components name := by
  have hroot := components_slash not_mem_nil (bytes "bin" ++ slash :: name)
  rw [bin_path]
  refine hroot.trans ?_
  rw [components_slash (by decide)]
  rfl

theorem flatMap_pieces_single (h : slash ∉ name) : (components name).flatMap pieces = pieces name := by
  by_cases hne : name = []
  · rw [hne]
    rfl
  · rw [components_single h hne, flatMap_singleton]

theorem Reached.namei_bin (hv : Reached v hist dev proc) (h : slash ∉ name) :
    namei v ⟨bytes "/bin/" ++ name, []⟩ = walk v 0 (bytes "bin" :: pieces name) := by
  have hroot : ¬MountName (bytes "bin" ++ slash :: name) := by
    unfold MountName
    rw [takeWhile_append_slash]
    decide
  rw [namei_walk, bin_path, hv.resolve_root hroot]
  dsimp only
  rw [comps_skipslash, comps_append, comps_components _ name le_rfl, flatMap_pieces_single h]
  rfl

theorem Reached.reference_bin (hv : Reached v hist dev proc) (name : List UInt8) :
    referenceWalk v (bytes "/bin/" ++ name) = walk v 0 (bytes "bin" :: components name) := by
  have hmount : longestMount v (bytes "bin" :: components name) = some (bytes "/", 0) := by
    have hdev : ¬components (bytes "/dev") <+: bytes "bin" :: components name := by
      rw [show components (bytes "/dev") = [bytes "dev"] by decide, cons_prefix_cons]
      exact fun h => absurd h.1 (by decide)
    have hproc : ¬components (bytes "/proc") <+: bytes "bin" :: components name := by
      rw [show components (bytes "/proc") = [bytes "proc"] by decide, cons_prefix_cons]
      exact fun h => absurd h.1 (by decide)
    have hpre : components (bytes "/") <+: bytes "bin" :: components name := nil_prefix
    unfold longestMount
    rw [hv.mounts]
    simp only [filter_cons, filter_nil, hpre, hdev, hproc, decide_true, decide_false, if_true]
    rfl
  rw [referenceWalk, components_bin, hmount]
  rfl

theorem progInode_short (hv : Reached v hist dev proc) (h : slash ∉ name) (hl : name.length ≤ nameLen - 1) :
    progInode v name = binFile v name := by
  have hcut : name.take 58 = name := take_of_length_le (by simp only [nameLen] at hl; omega)
  unfold progInode binFile
  rw [hcut, hv.namei_bin h, hv.reference_bin, ← flatMap_pieces_single h, flatMap_pieces_short]
  · exact fun c hc => ne_nil_of_mem_components hc
  · intro c hc
    by_cases hne : name = []
    · rw [hne] at hc
      cases hc
    · rw [components_single h hne] at hc
      rw [mem_singleton.mp hc]
      exact hl

/-- No entry has a name of more than 27 bytes. -/
theorem binFile_long (hv : Reached v hist dev proc) (hn : v.NamesFit) (h : slash ∉ name)
    (hl : nameLen - 1 < name.length) : binFile v name = none := by
  have hne : name ≠ [] := ne_nil_of_length_pos (by omega)
  have hmem : name ∈ bytes "bin" :: components name := by
    rw [components_single h hne]
    exact mem_cons_of_mem _ mem_cons_self
  rw [binFile, hv.reference_bin, walk_long hn hl 0 hmem]
  rfl

end

/-- Where the file exists, it has got a buffer, or the embedded program of its name has no byte; where
it does not, there is no embedded program of its name, and the pieces of a long name lead to no
regular file with a buffer. -/
def ExecDirect (k : Kernel) (name : List UInt8) : Prop :=
  match binFile k.vfs name with
  | some ip => (k.vfs.inodes ip).data = none → embedded k name = some []
  | none => embedded k name = none ∧ (nameLen - 1 < name.length →
      ∀ ip ∈ walk k.vfs 0 (bytes "bin" :: pieces (name.take 58)),
        (k.vfs.inodes ip).type = .file → (k.vfs.inodes ip).data = none)

section
variable {k : Kernel} {hist : Hist} {dev proc : Nat} {name : List UInt8}

theorem execDirect_iff (hv : Reached k.vfs hist dev proc) (hn : k.vfs.NamesFit) (h : slash ∉ name) :
    ExecDirect k name ↔ execBytes k name = binContents k.vfs name := by
  rw [execBytes_eq]
  unfold ExecDirect binContents
  by_cases hl : name.length ≤ nameLen - 1
  · rw [progInode_short hv h hl]
    cases hb : binFile k.vfs name with
    | none =>
      simp only [Option.bind_none, none_or, map_none]
      exact and_iff_left fun hlong => absurd hlong (Nat.not_lt.mpr hl)
    | some ip =>
      cases hd : (k.vfs.inodes ip).data with
      | none => simp [Inode.contents, hd]
      | some d => simp [Inode.contents, hd]
  · have hlong : nameLen - 1 < name.length := Nat.lt_of_not_le hl
    have hcut : slash ∉ name.take 58 := fun hm => h (mem_of_mem_take hm)
    rw [binFile_long hv hn h hlong, progInode, hv.namei_bin hcut]
    simp only [map_none, Option.or_eq_none_iff, Option.bind_eq_none_iff, map_eq_none_iff]
    rw [and_comm, forall_prop_of_true hlong]
    refine and_congr_left' (forall_congr' fun ip => ?_)
    rw [Option.filter_eq_some_iff, decide_eq_true_eq, and_imp]
    rfl

end

/-! ## The result -/

section
variable {mem : Nat → Mem} {progs : List (List UInt8 × List UInt8)} {v : Vfs} {as : List VfsAct} {s : VfsSys}
  {k : Kernel} {p : TaskRef} {va : Nat} {name : List UInt8}

theorem progName_bin (name : List UInt8) : progName (bytes "/bin/" ++ name) = name := by
  have h : bytes "/bin/" ++ name = slash :: (bytes "bin/" ++ name) := rfl
  rw [h, progName, if_pos rfl, if_pos (prefix_append ..)]
  rfl

/-- Two programs whose images take equally many pages, one of them empty. -/
theorem ExecLoaded.empty {k' : Kernel} {c : List UInt8} (h : ExecLoaded p c k k') (h0 : ExecLoaded p [] k k') :
    c = [] := by
  obtain ⟨new, hmaps, -, hvas⟩ := h.maps
  obtain ⟨new0, hmaps0, -, hvas0⟩ := h0.maps
  obtain rfl : new = new0 := append_cancel_left (hmaps.symm.trans hmaps0)
  have hlen := congrArg List.length (hvas.symm.trans hvas0)
  simp only [length_append, length_map, length_range, length_nil, Nat.add_right_cancel_iff] at hlen
  have hspan : ∀ n, imageSpan n = (n + bssSlack + pgsize - 1) / pgsize := fun n => Nat.ceilDiv_eq_add_pred_div ..
  rw [hspan, hspan] at hlen
  simp only [bssSlack, pgsize] at hlen
  exact length_eq_zero_iff.mp (by omega)

theorem ExecEnd.direct {hist : Hist} {dev proc : Nat} (hv : Reached k.vfs hist dev proc) (hn : k.vfs.NamesFit)
    (hs : slash ∉ name) {r : Kernel × Bool} (h : ExecEnd p k (execBytes k name) r)
    (href : ExecEnd p k (binContents k.vfs name) r) : ExecDirect k name := by
  cases hb : binFile k.vfs name with
  | none =>
    rw [execDirect_iff hv hn hs]
    have hcont : binContents k.vfs name = none := by rw [binContents, hb]; rfl
    rw [hcont] at href ⊢
    cases he : execBytes k name with
    | none => rfl
    | some c =>
      rw [he] at h
      rw [ExecEnd] at href
      rw [href] at h
      cases h.1
  | some ip =>
    unfold ExecDirect
    rw [hb]
    intro hd
    -- the buffer is missing, so the file is empty and the embedded program was loaded
    have hcont : binContents k.vfs name = some [] := by
      rw [binContents, hb, map_some, Inode.contents, hd, getD_none, take_nil]
    have hfall : execBytes k name = embedded k name := by
      have hl : name.length ≤ nameLen - 1 := by
        by_contra hl
        rw [binFile_long hv hn hs (Nat.lt_of_not_le hl)] at hb
        cases hb
      rw [execBytes_eq, progInode_short hv hs hl, hb, bind_some, hd]
      rfl
    rw [hcont] at href
    rw [hfall] at h
    cases he : embedded k name with
    | none =>
      rw [he, ExecEnd] at h
      rw [h] at href
      cases href.1
    | some c =>
      rw [he] at h
      rw [h.2.empty href.2]

variable (hinit : vfsInit mem progs = .ok v) (hr : run VfsSys.step (VfsSys.init v) as = some s) (hvfs : k.vfs = s.vfs)
  (hprogs : k.uprogs = progs) (hslash : slash ∉ name) (hva : userOk va 1 = true)
include hinit hr hvfs hprogs hslash hva

/-- `exec` of `/bin/name` loads that regular file, or fails where there is none, iff the lookup is
direct and the image fits; and every call that returns after a direct lookup is right. -/
theorem sys_exec_exact_iff (p : TaskRef) (after : List UInt8) :
    (∀ A r, ExecDirect k name → sysExec A k p va ⟨bytes "/bin/" ++ name, after⟩ = .ok r →
      ExecEnd p k (binContents k.vfs name) r) ∧
    ∀ A, ServesPages A → (∀ h, A.alloc h mapsBytes ≠ none) →
      ((∃ r, sysExec A k p va ⟨bytes "/bin/" ++ name, after⟩ = .ok r ∧ ExecEnd p k (binContents k.vfs name) r) ↔
        ExecDirect k name ∧ ∀ c ∈ binContents k.vfs name, ImageFits c) := by
  obtain ⟨dev, proc, hreach⟩ := run_reached hinit hr
  have hnames := run_namesFit hinit hr
  have hshort := vfsInit_short hinit
  rw [← hvfs] at hreach hnames
  rw [← hprogs] at hshort
  have hname := progName_bin name
  have hlen : ∀ bin len, execImage k name = some (bin, len) → len ≤ bin.length ∧ len ≤ 2 ^ 30 := fun bin len h =>
    execImage_short hreach.files hshort h
  have hiff := execDirect_iff hreach hnames hslash
  have hend : ∀ A r, sysExec A k p va ⟨bytes "/bin/" ++ name, after⟩ = .ok r →
      ExecEnd p k (execBytes k name) r ∧ ∀ c ∈ execBytes k name, ImageFits c := by
    intro A r h
    have := sysExec_end hva (by rw [hname]; exact hlen) h
    rwa [hname] at this
  constructor
  · intro A r hd h
    rw [← hiff.mp hd]
    exact (hend A r h).1
  · intro A hA hm
    constructor
    · rintro ⟨r, h, href⟩
      obtain ⟨he, hfits⟩ := hend A r h
      have hd := he.direct hreach hnames hslash href
      rw [← hiff.mp hd]
      exact ⟨hd, hfits⟩
    · rintro ⟨hd, hfits⟩
      rw [← hiff.mp hd] at hfits ⊢
      obtain ⟨r, h⟩ := @sysExec_returns A k p va ⟨bytes "/bin/" ++ name, after⟩ hA hm
        (by rw [hname]; exact fun bin len h => (hlen bin len h).1) (by rw [hname]; exact hfits)
      exact ⟨r, h, (hend A r h).1⟩

end

theorem sys_exec_exact_init : ∃ v k p r, vfsInit bootMem smallProgs = .ok v ∧ k.vfs = v ∧ k.uprogs = smallProgs ∧
    sysExec bumpAlloc k p userBase ⟨bytes "/bin/init", []⟩ = .ok r ∧ ExecEnd p k (some [0]) r := by
  have hboot : ((vfsInit bootMem smallProgs).toOption.any fun v =>
      binFile v (bytes "init") = some 5 ∧ (v.inodes 5).data ≠ none ∧ (v.inodes 5).contents = [0]) = true := by
    decide +kernel
  have hkernel : (smallKernel.any fun k => k.uprogs = smallProgs) = true := by decide +kernel
  obtain ⟨v, hv, h⟩ := (any_eq_true _ _).mp hboot
  obtain ⟨k, -, hk⟩ := (any_eq_true _ _).mp hkernel
  obtain ⟨hfile, hdata, hcont⟩ := of_decide_eq_true h
  have hinit := toOption_some hv
  have hbin : binContents v (bytes "init") = some [0] := by rw [binContents, hfile, map_some, hcont]
  have hexec := (@sys_exec_exact_iff bootMem smallProgs v [] (VfsSys.init v) { k with vfs := v } userBase (bytes "init")
    hinit rfl rfl (of_decide_eq_true hk) (by decide) (by decide) (.proc 0) []).2 bumpAlloc
    bumpAlloc_serves (fun h => nofun)
  have hpath : bytes "/bin/" ++ bytes "init" = bytes "/bin/init" := by decide
  have hdirect : ExecDirect { k with vfs := v } (bytes "init") := by
    rw [ExecDirect, hfile]
    exact fun hd => absurd hd hdata
  rw [hpath, hbin] at hexec
  have hfits : ImageFits [0] := by
    unfold ImageFits
    decide
  obtain ⟨r, hr, hend⟩ := hexec.mpr ⟨hdirect, fun c hc => some.inj hc ▸ hfits⟩
  exact ⟨v, { k with vfs := v }, .proc 0, r, hinit, rfl, of_decide_eq_true hk, hr, hend⟩

def unlinkInit : List VfsAct := [.spawn 1, .call 1 (.sysUnlink ⟨bytes "/bin/init", []⟩)]

/-- After its removal `/bin/init` is still executed, from the embedded table. -/
theorem exec_after_unlink : ∃ v s k p r, vfsInit bootMem smallProgs = .ok v ∧
    run VfsSys.step (VfsSys.init v) unlinkInit = some s ∧ smallKernel = some k ∧ k.initproc = some p ∧
    binFile s.vfs (bytes "init") = none ∧
    sysExec bumpAlloc { k with vfs := s.vfs } p userBase ⟨bytes "/bin/init", []⟩ = .ok r ∧ r.2 = true := by
  have h : ((vfsInit bootMem smallProgs).toOption.any fun v =>
      (run VfsSys.step (VfsSys.init v) unlinkInit).any fun s => smallKernel.any fun k => ∃ p ∈ k.initproc,
        binFile s.vfs (bytes "init") = none ∧
        (sysExec bumpAlloc { k with vfs := s.vfs } p userBase ⟨bytes "/bin/init", []⟩).toOption.any fun r => r.2) =
      true := by
    decide +kernel
  obtain ⟨v, hv, h⟩ := (any_eq_true _ _).mp h
  obtain ⟨s, hs, h⟩ := (any_eq_true _ _).mp h
  obtain ⟨k, hk, h⟩ := (any_eq_true _ _).mp h
  obtain ⟨p, hp, hnone, h⟩ := of_decide_eq_true h
  obtain ⟨r, hr, h⟩ := (any_eq_true _ _).mp h
  exact ⟨v, s, k, p, r, toOption_some hv, hs, hk, hp, hnone, toOption_some hr, h⟩

end NjuOs
