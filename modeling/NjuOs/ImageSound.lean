import Mathlib.Algebra.Order.Floor.Div
import NjuOs.PageFill

/-!
# Loading a program image

The image is copied page by page, the last one in part. What the process then sees is the flat
image with zeros behind it, and a zeroed stack below the end of the user range.
-/

namespace NjuOs

open List

def imageSpan (len : Nat) : Nat := (len + bssSlack) ⌈/⌉ pgsize

def imagePage (bin : List UInt8) (len i : Nat) : List UInt8 :=
  (List.range pgsize).map fun j => if i * pgsize + j < len then bin.getD (i * pgsize + j) 0 else 0

structure ImageLoaded (p : TaskRef) (bin : List UInt8) (len : Nat) (k k' : Kernel) : Prop where
  maps : ∃ new, (k'.tasks p).maps = (k.tasks p).maps ++ new ∧ (new.map Vmap.va).Nodup ∧
    new.map Vmap.va = (List.range (imageSpan len)).map (fun i => userBase + i * pgsize) ++
      (List.range stkPages).map fun i => userEnd - (i + 1) * pgsize
  image : ∀ i < imageSpan len * pgsize, k'.view p (userBase + i) =
    some (readWrite, some (if i < len then bin.getD i 0 else 0))
  stack : ∀ a, userEnd - stkPages * pgsize ≤ a → a < userEnd → k'.view p a = some (readWrite, some 0)

/-! ## One page -/

section
variable {bin : List UInt8} {len : Nat}

theorem imageChunk_eq (hlen : len ≤ bin.length) (i : Nat) : imageChunk bin len i = .ok (imagePage bin len i) := by
  unfold imageChunk
  split
  · next hi =>
    -- a whole page, or what is left of the image
    generalize hc : (if pgsize < len - i * pgsize then pgsize else len - i * pgsize) = c
    have hcle : c ≤ pgsize ∧ i * pgsize + c ≤ len ∧ ∀ j < pgsize, i * pgsize + j < len ↔ j < c := by
      subst hc
      split
      · exact ⟨le_rfl, by omega, fun j hj => by omega⟩
      · exact ⟨by omega, by omega, fun j hj => by omega⟩
    have hslice : slice bin (i * pgsize : Nat) c = .ok ((bin.drop (i * pgsize)).take c) :=
      slice_ok (Int.natCast_nonneg _) (Int.natCast_nonneg _) (by omega)
    have hpage : (bin.drop (i * pgsize)).take c ++ List.replicate (pgsize - c) 0 = imagePage bin len i := by
      refine ext_getElem ?_ fun j h1 h2 => ?_
      · simp only [imagePage, length_append, length_take, length_drop, length_replicate,
          length_map, length_range]
        omega
      · have hj : j < pgsize := by simpa [imagePage] using h2
        have hlt := hcle.2.2 j hj
        simp only [imagePage, getElem_map, getElem_range, getElem_append, length_take,
          length_drop, getElem_take, getElem_drop, getElem_replicate]
        by_cases hjc : j < c
        · have hb : i * pgsize + j < bin.length := by omega
          rw [dif_pos (by omega), if_pos (hlt.mpr hjc), getD_eq_getElem?_getD, getElem?_eq_getElem hb]
          rfl
        · rw [dif_neg (by omega), if_neg fun h => hjc (hlt.mp h)]
    simp only [hslice, bind, Except.bind, hpage]
    rfl
  · next hi =>
    refine congrArg Except.ok (ext_getElem ?_ fun j h1 h2 => ?_)
    · simp [imagePage]
    · simp only [imagePage, getElem_replicate, getElem_map, getElem_range]
      rw [if_neg (by omega)]

theorem imagePage_take (i : Nat) : imagePage (bin.take len) len i = imagePage bin len i := by
  refine map_congr_left fun j _ => ?_
  by_cases hj : i * pgsize + j < len
  · rw [if_pos hj, if_pos hj, getD_eq_getElem?_getD, getD_eq_getElem?_getD, getElem?_take_of_lt hj]
  · rw [if_neg hj, if_neg hj]

theorem imageChunk_take (hlen : len ≤ bin.length) (i : Nat) :
    imageChunk (bin.take len) len i = imageChunk bin len i := by
  rw [imageChunk_eq hlen, imageChunk_eq (by rw [length_take]; omega), imagePage_take]

end

/-! ## What is mapped -/

section
variable {A : Allocator} {k k' : Kernel} {p : TaskRef} {bin : List UInt8} {len : Nat}

theorem loadPages_take (hlen : len ≤ bin.length) : ∀ (is : List Nat) (k : Kernel),
    loadPages A (bin.take len) len p is k = loadPages A bin len p is k
  | [], _ => rfl
  | i :: is, k => by
    rw [loadPages, loadPages, imageChunk_take hlen]
    refine congrArg _ (funext fun r => ?_)
    dsimp only
    refine congrArg _ (funext fun d => ?_)
    exact congrArg _ (funext fun k2 => loadPages_take hlen is k2)

theorem imagePages_small (h : len + bssSlack + pgsize < 2 ^ 32) : imagePages len = imageSpan len := by
  have hspan : imageSpan len = (len + bssSlack + pgsize - 1) / pgsize := Nat.ceilDiv_eq_add_pred_div ..
  rw [hspan, imagePages, Nat.mod_eq_of_lt (by omega : len + bssSlack < 2 ^ 32), Nat.mod_eq_of_lt (by omega)]

theorem imagePages_eq (hfit : imageSpan len + stkPages ≤ procMaxmap) : imagePages len = imageSpan len := by
  have hspan : imageSpan len = (len + bssSlack + pgsize - 1) / pgsize := Nat.ceilDiv_eq_add_pred_div ..
  apply imagePages_small
  rw [hspan] at hfit
  simp only [stkPages, procMaxmap, pgsize, bssSlack] at *
  omega

def imageContents (bin : List UInt8) (len : Nat) : List (Nat × Nat × List UInt8) :=
  (List.range (imageSpan len)).map (fun i => (userBase + i * pgsize, readWrite, imagePage bin len i)) ++
    (List.range stkPages).map fun i => (userEnd - (i + 1) * pgsize, readWrite, zeroPage)

theorem imageContents_fst : (imageContents bin len).map Prod.fst =
    (List.range (imageSpan len)).map (fun i => userBase + i * pgsize) ++
      (List.range stkPages).map fun i => userEnd - (i + 1) * pgsize := by
  rw [imageContents, map_append, map_map, map_map]
  rfl

theorem procLoadImage_filled (hlen : len ≤ bin.length) (hfit : imageSpan len + stkPages ≤ procMaxmap)
    (h : procLoadImage A k p bin len = .ok k') :
    ∃ new, Filled p new k k' ∧ new.map NewPage.content = imageContents bin len := by
  obtain ⟨k1, h1, h⟩ := bind_ok h
  rw [imagePages_eq hfit] at h1
  have hchunk : ∀ i d, imageChunk bin len i = .ok d → d = imagePage bin len i := fun i d hd =>
    Except.ok.inj (hd.symm.trans (imageChunk_eq hlen i))
  obtain ⟨new, hf, hc⟩ := loadPages_filled (imagePage bin len) hchunk h1
  obtain ⟨new', hf', hc'⟩ := loadStack_filled h
  refine ⟨new ++ new', hf.trans hf', ?_⟩
  rw [map_append, hc, hc']
  rfl

theorem Filled.view_of_mem {new : List NewPage} {l : List (Nat × Nat × List UInt8)} (h : Filled p new k k')
    (hc : new.map NewPage.content = l) (hnd : (l.map Prod.fst).Nodup) {c : Nat × Nat × List UInt8} (hmem : c ∈ l)
    {a : Nat} (ha : vaPage a = c.1) : k'.view p a = some (c.2.1, c.2.2[a % pgsize]?) := by
  rw [h.view, hc, ha, find?_reverse_of_mem hnd hmem]
  rfl

theorem imageLoaded (hlen : len ≤ bin.length) (hfit : imageSpan len + stkPages ≤ procMaxmap)
    (h : procLoadImage A k p bin len = .ok k') : ImageLoaded p bin len k k' := by
  obtain ⟨new, hf, hc⟩ := procLoadImage_filled hlen hfit h
  have hnd : ((imageContents bin len).map Prod.fst).Nodup := by
    rw [imageContents_fst]
    exact imageVas_nodup hfit
  have hvas : (new.map Prod.fst).map Vmap.va = (imageContents bin len).map Prod.fst := by
    rw [← hc, map_map, map_map]
    rfl
  constructor
  case maps =>
    refine ⟨new.map Prod.fst, hf.maps, ?_, ?_⟩
    · rw [hvas]
      exact hnd
    · rw [hvas, imageContents_fst]
  case image =>
    intro i hi
    have hdiv : i / pgsize < imageSpan len := Nat.div_lt_of_lt_mul (Nat.mul_comm _ _ ▸ hi)
    have hmod : i % pgsize < pgsize := Nat.mod_lt _ pgsize_pos
    have hmem : (userBase + i / pgsize * pgsize, readWrite, imagePage bin len (i / pgsize)) ∈ imageContents bin len :=
      mem_append_left _ (mem_map_of_mem (mem_range.mpr hdiv))
    have hpage : vaPage (userBase + i) = userBase + i / pgsize * pgsize := by
      simp only [vaPage, userBase, pgsize]
      omega
    have hoff : (userBase + i) % pgsize = i % pgsize := by
      simp only [userBase, pgsize]
      omega
    have hsplit : i / pgsize * pgsize + i % pgsize = i := Nat.div_add_mod' ..
    rw [hf.view_of_mem hc hnd hmem hpage, hoff]
    simp only [imagePage, getElem?_map, getElem?_range hmod, Option.map_some, hsplit]
  case stack =>
    intro a hlo hhi
    have hj : (userEnd - 1 - a) / pgsize < stkPages := by
      simp only [userEnd, stkPages, pgsize] at *
      omega
    have hmem : (userEnd - ((userEnd - 1 - a) / pgsize + 1) * pgsize, readWrite, zeroPage) ∈ imageContents bin len :=
      mem_append_right _ (mem_map.mpr ⟨_, mem_range.mpr hj, rfl⟩)
    have hpage : vaPage a = userEnd - ((userEnd - 1 - a) / pgsize + 1) * pgsize := by
      simp only [vaPage, userEnd, stkPages, pgsize] at *
      omega
    rw [hf.view_of_mem hc hnd hmem hpage]
    simp only [zeroPage, getElem?_replicate, if_pos (Nat.mod_lt a pgsize_pos)]

/-! ## That it returns -/

def ServesPages (A : Allocator) : Prop := ∀ h, ∃ a, A.alloc h pgsize = some a ∧ a % pgsize = 0

theorem pmmAlloc_serves (hA : ServesPages A) (k : Kernel) :
    ∃ a, A.alloc k.heap pgsize = some a ∧ a % pgsize = 0 ∧
      pmmAlloc A k pgsize = ({ k with heap := ⟨(a, pgsize) :: k.heap.live, k.heap.calls + 1⟩ }, some a) := by
  obtain ⟨a, ha, hal⟩ := hA k.heap
  refine ⟨a, ha, hal, ?_⟩
  rw [pmmAlloc, ha]

theorem upMap_returns (hA : ServesPages A) {va pa : Nat} (prot : Nat) (hptr : (k.tasks p).mapsPtr ≠ none)
    (hroom : (k.tasks p).maps.length < procMaxmap) (hva : UserPage va) (hpa : pa % pgsize = 0) :
    ∃ k', upMap A k p va pa prot = .ok k' := by
  obtain ⟨m, hm⟩ := Option.ne_none_iff_exists'.mp hptr
  rw [upMap, if_neg (by omega), hm]
  simp only [amMap]
  rw [if_neg (not_not_intro ⟨hva.1, hva.2.1⟩), if_neg (not_not_intro hva.2.2), if_neg (not_not_intro hpa)]
  split
  · exact ⟨_, rfl⟩
  · obtain ⟨a, -, -, ha⟩ := pmmAlloc_serves hA (k.modify p fun x => { x with maps := x.maps ++ [⟨va, pa, prot⟩] })
    rw [ha]
    exact ⟨_, rfl⟩

theorem page_returns (hA : ServesPages A) {va : Nat} (prot : Nat) (d : List UInt8) (msg : String)
    (hptr : (k.tasks p).mapsPtr ≠ none) (hroom : (k.tasks p).maps.length < procMaxmap) (hva : UserPage va) :
    ∃ k1 pa k', allocOr A k pgsize msg = .ok (k1, pa) ∧ upMap A (k1.setPage pa d) p va pa prot = .ok k' ∧
      (k'.tasks p).mapsPtr ≠ none ∧ (k'.tasks p).maps.length = (k.tasks p).maps.length + 1 := by
  obtain ⟨a, -, hal, ha⟩ := pmmAlloc_serves hA k
  have halloc : allocOr A k pgsize msg =
      .ok ({ k with heap := ⟨(a, pgsize) :: k.heap.live, k.heap.calls + 1⟩ }, a) := by
    rw [allocOr, ha]
  obtain ⟨k', hk'⟩ := upMap_returns hA (p := p) prot
    (k := ({ k with heap := ⟨(a, pgsize) :: k.heap.live, k.heap.calls + 1⟩ } : Kernel).setPage a d) hptr hroom hva hal
  have hf := Filled.page ha hk'
  refine ⟨_, a, k', halloc, hk', ?_, ?_⟩
  · rw [hf.mapsPtr]
    exact hptr
  · rw [hf.maps, length_append]
    rfl

theorem loadPages_returns (hA : ServesPages A) (hlen : len ≤ bin.length) : ∀ (is : List Nat) (k : Kernel),
    (k.tasks p).mapsPtr ≠ none → (k.tasks p).maps.length + is.length ≤ procMaxmap →
    (∀ i ∈ is, UserPage (userBase + i * pgsize)) → ∃ k', loadPages A bin len p is k = .ok k' ∧
      (k'.tasks p).mapsPtr ≠ none ∧ (k'.tasks p).maps.length = (k.tasks p).maps.length + is.length
  | [], k, hptr, _, _ => ⟨k, rfl, hptr, rfl⟩
  | i :: is, k, hptr, hroom, hva => by
    rw [length_cons] at hroom
    obtain ⟨k1, pa, k2, h1, h2, hptr2, hlen2⟩ := page_returns hA readWrite
      (imagePage bin len i) "load: out of memory" hptr (by omega) (hva i mem_cons_self)
    obtain ⟨k', h', hptr', hlen'⟩ := loadPages_returns hA hlen is k2 hptr2 (by omega)
      fun j hj => hva j (mem_cons_of_mem _ hj)
    refine ⟨k', ?_, hptr', ?_⟩
    · exact ok_bind h1 (ok_bind (imageChunk_eq hlen i) (ok_bind h2 h'))
    · rw [hlen', hlen2, length_cons]
      omega

theorem loadStack_returns (hA : ServesPages A) : ∀ (is : List Nat) (k : Kernel),
    (k.tasks p).mapsPtr ≠ none → (k.tasks p).maps.length + is.length ≤ procMaxmap →
    (∀ i ∈ is, UserPage (userEnd - (i + 1) * pgsize)) → ∃ k', loadStack A p is k = .ok k'
  | [], k, _, _, _ => ⟨k, rfl⟩
  | i :: is, k, hptr, hroom, hva => by
    rw [length_cons] at hroom
    obtain ⟨k1, pa, k2, h1, h2, hptr2, hlen2⟩ := page_returns hA readWrite
      zeroPage "load: out of stack memory" hptr (by omega) (hva i mem_cons_self)
    obtain ⟨k', h'⟩ := loadStack_returns hA is k2 hptr2 (by omega) fun j hj => hva j (mem_cons_of_mem _ hj)
    exact ⟨k', ok_bind h1 (ok_bind h2 h')⟩

theorem procLoadImage_returns (hA : ServesPages A) (hlen : len ≤ bin.length) (hptr : (k.tasks p).mapsPtr ≠ none)
    (hfit : (k.tasks p).maps.length + imageSpan len + stkPages ≤ procMaxmap) :
    ∃ k', procLoadImage A k p bin len = .ok k' := by
  have hspan : imagePages len = imageSpan len := imagePages_eq (by omega)
  obtain ⟨k1, h1, hptr1, hlen1⟩ := loadPages_returns hA hlen (List.range (imageSpan len)) k hptr
    (by rw [length_range]; omega) (by
      intro i hi
      have hi := mem_range.mp hi
      simp only [UserPage, userBase, userEnd, pgsize, stkPages, procMaxmap] at *
      omega)
  obtain ⟨k2, h2⟩ := loadStack_returns hA (List.range stkPages) k1 hptr1
    (by rw [hlen1, length_range, length_range]; exact hfit) (by
      intro i hi
      have hi := mem_range.mp hi
      simp only [UserPage, userBase, userEnd, pgsize, stkPages] at *
      omega)
  refine ⟨k2, ?_⟩
  rw [procLoadImage, hspan, h1]
  exact h2

end

/-! ## The result -/

/-- An image whose pages fit is loaded as a flat image with zeros behind it and a zeroed stack, no
address twice; no byte behind the image is looked at; and where the allocator has pages, the load
returns. -/
theorem load_image_exact {A : Allocator} {k : Kernel} {p : TaskRef} {bin : List UInt8} {len : Nat}
    (hlen : len ≤ bin.length) (hfit : (k.tasks p).maps.length + imageSpan len + stkPages ≤ procMaxmap) :
    (∀ k', procLoadImage A k p bin len = .ok k' → ImageLoaded p bin len k k') ∧
    procLoadImage A k p bin len = procLoadImage A k p (bin.take len) len ∧
    ((k.tasks p).mapsPtr ≠ none → ServesPages A → ∃ k', procLoadImage A k p bin len = .ok k') := by
  refine ⟨fun k' h => imageLoaded hlen (by omega) h, ?_, fun hptr hA => procLoadImage_returns hA hlen hptr hfit⟩
  rw [procLoadImage, procLoadImage, loadPages_take hlen]

theorem bumpAlloc_serves : ServesPages bumpAlloc := by
  intro h
  have halloc : bumpAlloc.alloc h pgsize = some ((topOf h.live / pgsize + 1) * pgsize) := rfl
  exact ⟨_, halloc, Nat.mul_mod_left ..⟩

theorem load_image_exact_small : ∃ k p k', smallKernel = some k ∧ k.initproc = some p ∧
    procLoadImage bumpAlloc k p [1, 2, 3] 3 = .ok k' ∧ ImageLoaded p [1, 2, 3] 3 k k' := by
  have h : (smallKernel.any fun k => ∃ p ∈ k.initproc, (k.tasks p).mapsPtr ≠ none ∧
      (k.tasks p).maps.length + imageSpan 3 + stkPages ≤ procMaxmap) = true := by
    decide +kernel
  obtain ⟨k, hk, h⟩ := (Option.any_eq_true _ _).mp h
  obtain ⟨p, hp, hptr, hfit⟩ := of_decide_eq_true h
  obtain ⟨hload, -, hret⟩ := @load_image_exact bumpAlloc k p [1, 2, 3] 3 (by decide) hfit
  obtain ⟨k', hk'⟩ := hret hptr bumpAlloc_serves
  exact ⟨k, p, k', hk, hp, hk', hload k' hk'⟩

end NjuOs
