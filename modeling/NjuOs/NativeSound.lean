import NjuOs.NativeVme
import NjuOs.Linked
import NjuOs.MapSound

/-!
# Soundness of the native address spaces

The list of a space is in the order of the calls of `map`, latest first. A second `map` of an address
puts a node in front that is in the list already, and from then on a walk over the list has no end.
-/

namespace NjuOs.Native

open Function List

def Vme.next (n : Vme) (p : Nat) : Option Nat := (n.nodes p).next

def Vme.entry (n : Vme) (p : Nat) : Vmap := ⟨(n.nodes p).va, (n.nodes p).pa, (n.nodes p).prot⟩

def Vme.nodesOf (n : Vme) (h : Nat) : List Nat := (n.spaces h).hash.map Prod.snd

def PageMap.core (x : PageMap) : PageMap := { x with isMapped := false }

def MappedOnce (L : List Vmap) : Prop := (L.map Vmap.va).Nodup

instance (L : List Vmap) : Decidable (MappedOnce L) := inferInstanceAs (Decidable (List.Nodup _))

section
variable {n m m' : Vme} {p q : Nat}

theorem next_of_core (h : (m.nodes p).core = (n.nodes p).core) : m.next p = n.next p :=
  congrArg (fun x => x.next) h

theorem entry_of_core (h : (m.nodes p).core = (n.nodes p).core) : m.entry p = n.entry p :=
  congrArg (fun x => Vmap.mk x.va x.pa x.prot) h

theorem va_of_core (h : (m.nodes p).core = (n.nodes p).core) : (m.nodes p).va = (n.nodes p).va :=
  congrArg (fun x => x.va) h

theorem key_of_user {va : Nat} (h : UserPage va) : key va = va := by
  obtain ⟨-, h, -⟩ := h
  have he : userEnd ≤ 2 ^ 32 := by decide
  exact Nat.mod_eq_of_lt (h.trans_le he)

theorem mem_nodesOf {h : Nat} : p ∈ n.nodesOf h ↔ ∃ k, (k, p) ∈ (n.spaces h).hash := by
  simp [Vme.nodesOf]

end

/-! ## One space -/

structure Chain (n : Vme) (L : List Vmap) (h : Nat) : Prop where
  distinct : ((n.spaces h).hash.map Prod.fst).Nodup
  node : ∀ e ∈ (n.spaces h).hash, e.2 ∈ n.used ∧ UserPage e.1 ∧ e.1 = (n.nodes e.2).va
  keys : ∀ va, va ∈ (n.spaces h).hash.map Prod.fst ↔ va ∈ L.map Vmap.va
  head : ∀ p, (n.spaces h).head = some p → p ∈ n.nodesOf h
  closed : ∀ p ∈ n.nodesOf h, ∀ q, n.next p = some q → q ∈ n.nodesOf h
  entries : ∀ l, Linked n.next (n.spaces h).head l → l.map n.entry = L.reverse
  once : MappedOnce L ↔ ∃ l, Linked n.next (n.spaces h).head l

section
variable {n m : Vme} {L : List Vmap} {h p q va : Nat} {l : List Nat}

theorem Chain.subset (hc : Chain n L h) (hl : Linked n.next (n.spaces h).head l) : ∀ p ∈ l, p ∈ n.nodesOf h :=
  hl.within hc.closed hc.head

theorem Chain.used (hc : Chain n L h) (hp : p ∈ n.nodesOf h) : p ∈ n.used := by
  obtain ⟨k, hk⟩ := mem_nodesOf.mp hp
  exact (hc.node _ hk).1

theorem Chain.user (hc : Chain n L h) (hp : p ∈ n.nodesOf h) : UserPage (n.nodes p).va := by
  obtain ⟨k, hk⟩ := mem_nodesOf.mp hp
  obtain ⟨-, hu, he⟩ := hc.node _ hk
  rwa [← he]

theorem Chain.node_unique (hc : Chain n L h) (hp : p ∈ n.nodesOf h) (hq : q ∈ n.nodesOf h)
    (he : (n.nodes p).va = (n.nodes q).va) : p = q := by
  obtain ⟨j, hj⟩ := mem_nodesOf.mp hp
  obtain ⟨k, hk⟩ := mem_nodesOf.mp hq
  have hjk : j = k := (hc.node _ hj).2.2.trans (he.trans (hc.node _ hk).2.2.symm)
  exact congrArg Prod.snd (inj_on_of_nodup_map hc.distinct hj hk hjk)

theorem Chain.logged (hc : Chain n L h) (hp : p ∈ n.nodesOf h) : (n.nodes p).va ∈ L.map Vmap.va := by
  obtain ⟨k, hk⟩ := mem_nodesOf.mp hp
  have hk' := mem_map_of_mem (f := Prod.fst) hk
  rw [(hc.node _ hk).2.2] at hk'
  exact (hc.keys _).mp hk'

theorem Chain.listed (hc : Chain n L h) (hl : Linked n.next (n.spaces h).head l) (hp : p ∈ n.nodesOf h) : p ∈ l := by
  obtain ⟨v, hv, hva⟩ := mem_map.mp (hc.logged hp)
  have hr := mem_reverse.mpr hv
  rw [← hc.entries l hl] at hr
  obtain ⟨q, hq, rfl⟩ := mem_map.mp hr
  rwa [← hc.node_unique (hc.subset hl q hq) hp hva]

theorem Chain.length_le (hc : Chain n L h) (hl : Linked n.next (n.spaces h).head l) : l.length ≤ n.used.length :=
  (subperm_of_subset hl.nodup fun p hp => hc.used (hc.subset hl p hp)).length_le

theorem Chain.frame (hc : Chain n L h) (hs : m.spaces h = n.spaces h) (hu : n.used ⊆ m.used)
    (hn : ∀ p ∈ n.nodesOf h, (m.nodes p).core = (n.nodes p).core) : Chain m L h := by
  have hof : m.nodesOf h = n.nodesOf h := by rw [Vme.nodesOf, hs, Vme.nodesOf]
  have hclosed : ∀ p ∈ n.nodesOf h, ∀ q, m.next p = some q → q ∈ n.nodesOf h := fun p hp q hq =>
    hc.closed p hp q ((next_of_core (hn p hp)).symm.trans hq)
  have hback : ∀ {l}, Linked m.next (n.spaces h).head l → Linked n.next (n.spaces h).head l := fun hl =>
    hl.congr fun p hp => (next_of_core (hn p (hl.within hclosed hc.head p hp))).symm
  constructor
  · rw [hs]
    exact hc.distinct
  · intro e he
    rw [hs] at he
    obtain ⟨h1, h2, h3⟩ := hc.node e he
    refine ⟨hu h1, h2, h3.trans (va_of_core (hn e.2 ?_)).symm⟩
    exact mem_map_of_mem he
  · rw [hs]
    exact hc.keys
  · rw [hs, hof]
    exact hc.head
  · rw [hof]
    exact hclosed
  · intro l hl
    rw [hs] at hl
    have hl' := hback hl
    rw [← hc.entries l hl']
    exact map_congr_left fun p hp => entry_of_core (hn p (hc.subset hl' p hp))
  · rw [hs, hc.once]
    refine exists_congr fun l => ⟨fun hl => ?_, hback⟩
    exact hl.congr fun p hp => next_of_core (hn p (hc.subset hl p hp))

theorem chain_empty (hs : n.spaces h = ⟨none, [], 0⟩) : Chain n [] h := by
  constructor <;> simp [hs, Vme.nodesOf, MappedOnce]
  · intro l hl
    cases l with
    | nil => rfl
    | cons a l => cases hl.1
  · exact ⟨[], rfl⟩

end

/-! ## A call of `map` -/

section
variable {n n' : Vme} {L : List Vmap} {cpu h p va pa prot : Nat} {page : Option Nat}

structure Entered (n : Vme) (L : List Vmap) (h va p : Nat) : Prop where
  distinct : ((n.spaces h).hash.map Prod.fst).Nodup
  node : ∀ e ∈ (n.spaces h).hash, e.2 ∈ n.used ∧ UserPage e.1 ∧ e.1 = if e.2 = p then va else (n.nodes e.2).va
  keys : ∀ w, w ∈ (n.spaces h).hash.map Prod.fst ↔ w = va ∨ w ∈ L.map Vmap.va
  here : p ∈ n.nodesOf h
  head : ∀ q, (n.spaces h).head = some q → q ∈ n.nodesOf h
  closed : ∀ q ∈ n.nodesOf h, q ≠ p → ∀ r, n.next q = some r → r ∈ n.nodesOf h
  entries : ∀ l, Linked n.next (n.spaces h).head l → l.map n.entry = L.reverse
  once : MappedOnce L ↔ ∃ l, Linked n.next (n.spaces h).head l
  again : ∀ l, Linked n.next (n.spaces h).head l → (p ∈ l ↔ va ∈ L.map Vmap.va)

theorem findNode_ok (hf : findNode n h va page = .ok (n', p)) :
    (n' = n ∧ (key va, p) ∈ (n.spaces h).hash) ∨
    (key va ∉ (n.spaces h).hash.map Prod.fst ∧ page = some p ∧
      n' = { n.setSpace h { n.spaces h with
        hash := (key va, p) :: (n.spaces h).hash, nrPage := (n.spaces h).nrPage + 1 } with used := p :: n.used }) := by
  simp only [findNode] at hf
  split at hf
  · next e he =>
    cases hf
    have hk := find?_some he
    refine Or.inl ⟨rfl, ?_⟩
    rw [← of_decide_eq_true hk]
    exact mem_of_find?_eq_some he
  · next hnone =>
    split at hf
    · cases hf
    · split at hf
      · cases hf
      · cases hf
        refine Or.inr ⟨fun hk => ?_, rfl, rfl⟩
        obtain ⟨e, he, hek⟩ := mem_map.mp hk
        have hne := find?_eq_none.mp hnone e he
        exact hne (decide_eq_true hek)

theorem Chain.entered_old (hc : Chain n L h) (hp : (va, p) ∈ (n.spaces h).hash) : Entered n L h va p where
  distinct := hc.distinct
  node := fun e he => by
    obtain ⟨h1, h2, h3⟩ := hc.node e he
    refine ⟨h1, h2, ?_⟩
    split
    · next hep =>
      rw [h3, hep]
      exact (hc.node _ hp).2.2.symm
    · exact h3
  keys := fun w => by
    rw [hc.keys, or_iff_right_of_imp]
    rintro rfl
    exact (hc.keys w).mp (mem_map_of_mem (f := Prod.fst) hp)
  here := mem_nodesOf.mpr ⟨va, hp⟩
  head := hc.head
  closed := fun q hq _ => hc.closed q hq
  entries := hc.entries
  once := hc.once
  again := fun l hl => by
    refine iff_of_true (hc.listed hl (mem_nodesOf.mpr ⟨va, hp⟩)) ?_
    exact (hc.keys va).mp (mem_map_of_mem (f := Prod.fst) hp)

theorem Chain.entered_new (hc : Chain n L h) (hu : UserPage va) (hva : va ∉ (n.spaces h).hash.map Prod.fst)
    (hp : p ∉ n.used) (hs : n'.spaces h = { n.spaces h with
      hash := (va, p) :: (n.spaces h).hash, nrPage := (n.spaces h).nrPage + 1 }) (hused : n'.used = p :: n.used)
    (hn : n'.nodes = n.nodes) : Entered n' L h va p := by
  have hnext : n'.next = n.next := by
    unfold Vme.next
    rw [hn]
  have hentry : n'.entry = n.entry := by
    unfold Vme.entry
    rw [hn]
  have hof : n'.nodesOf h = p :: n.nodesOf h := by simp [Vme.nodesOf, hs]
  have hfresh : ∀ q ∈ n.nodesOf h, q ≠ p := fun q hq he => hp (he ▸ hc.used hq)
  constructor
  · rw [hs]
    exact nodup_cons.mpr ⟨hva, hc.distinct⟩
  · intro e he
    rw [hs] at he
    rw [hused, hn]
    rcases mem_cons.mp he with rfl | he
    · simpa using hu
    · obtain ⟨h1, h2, h3⟩ := hc.node e he
      rw [if_neg (hfresh e.2 (mem_map_of_mem he))]
      exact ⟨mem_cons_of_mem p h1, h2, h3⟩
  · intro w
    rw [hs, map_cons, mem_cons, hc.keys]
  · rw [hof]
    exact mem_cons_self
  · intro q hq
    rw [hs] at hq
    rw [hof]
    exact mem_cons_of_mem p (hc.head q hq)
  · intro q hq hne r hr
    rw [hof] at hq ⊢
    rw [hnext] at hr
    exact mem_cons_of_mem p (hc.closed q ((mem_cons.mp hq).resolve_left hne) r hr)
  · rw [hs, hnext, hentry]
    exact hc.entries
  · rw [hs, hnext]
    exact hc.once
  · intro l hl
    rw [hs, hnext] at hl
    refine iff_of_false (fun hpl => hfresh p (hc.subset hl p hpl) rfl) fun hL => hva ((hc.keys va).mpr hL)

/-- The node goes to the head of its list; the flag that it is mapped plays no part. -/
theorem Entered.linked (he : Entered n L h va p) (hh : (n'.spaces h).head = some p)
    (hhash : (n'.spaces h).hash = (n.spaces h).hash) (hused : n'.used = n.used)
    (hp : (n'.nodes p).core = ⟨va, pa, (n.spaces h).head, prot, false⟩)
    (hn : ∀ q, q ≠ p → n'.nodes q = n.nodes q) : Chain n' (L ++ [⟨va, pa, prot⟩]) h := by
  have hof : n'.nodesOf h = n.nodesOf h := by rw [Vme.nodesOf, hhash, Vme.nodesOf]
  have hnext : n'.next = update n.next p (n.spaces h).head := by
    funext q
    by_cases hq : q = p
    · subst hq
      rw [update_self]
      exact congrArg PageMap.next hp
    · rw [update_of_ne hq, Vme.next, hn q hq, Vme.next]
  have hpush : ∀ l, Linked n'.next (n'.spaces h).head l ↔
      ∃ l', l = p :: l' ∧ Linked n.next (n.spaces h).head l' ∧ p ∉ l' := fun l => by
    rw [hnext, hh]
    exact Linked.pushed
  constructor
  · rw [hhash]
    exact he.distinct
  · intro e hm
    rw [hhash] at hm
    obtain ⟨h1, h2, h3⟩ := he.node e hm
    refine ⟨hused ▸ h1, h2, h3.trans ?_⟩
    split
    · next hep =>
      rw [hep]
      exact (congrArg PageMap.va hp).symm
    · next hep => rw [hn _ hep]
  · intro w
    rw [hhash, he.keys]
    simp [or_comm]
  · intro q hq
    rw [hh] at hq
    cases hq
    rw [hof]
    exact he.here
  · intro q hq r hr
    rw [hof] at hq ⊢
    rw [hnext] at hr
    by_cases hqp : q = p
    · subst hqp
      rw [update_self] at hr
      exact he.head r hr
    · rw [update_of_ne hqp] at hr
      exact he.closed q hq hqp r hr
  · intro l hl
    obtain ⟨l', rfl, hl', hpl⟩ := (hpush l).mp hl
    have hfront : n'.entry p = ⟨va, pa, prot⟩ := congrArg (fun x => Vmap.mk x.va x.pa x.prot) hp
    have hrest : l'.map n'.entry = l'.map n.entry := map_congr_left fun q hq => by
      rw [Vme.entry, hn q (ne_of_mem_of_not_mem hq hpl), Vme.entry]
    rw [map_cons, hfront, hrest, he.entries l' hl', reverse_append]
    rfl
  · have hnew : MappedOnce (L ++ [⟨va, pa, prot⟩]) ↔ MappedOnce L ∧ va ∉ L.map Vmap.va := by
      unfold MappedOnce
      rw [map_append, map_singleton, ← concat_eq_append, nodup_concat, and_comm]
    rw [hnew, he.once]
    constructor
    · rintro ⟨⟨l, hl⟩, hva⟩
      exact ⟨p :: l, (hpush _).mpr ⟨l, rfl, hl, fun hp => hva ((he.again l hl).mp hp)⟩⟩
    · rintro ⟨l, hl⟩
      obtain ⟨l', -, hl', hpl⟩ := (hpush l).mp hl
      exact ⟨⟨l', hl'⟩, fun hva => hpl ((he.again l' hl').mpr hva)⟩

end

/-! ## All spaces -/

inductive Moved (s : Sys) : Act → Sys → Prop
  | init : Moved s .vmeInit { s with vme := vmeInit s.vme }
  | protect {h : Nat} (hu : h ∉ s.vme.used) (hh : h ∉ s.vme.heads) :
    Moved s (.protect (some h)) ⟨{ s.vme.setSpace h ⟨none, [], 0⟩ with heads := h :: s.vme.heads }, s.log⟩
  | map {cpu h va pa prot : Nat} {page : Option Nat} {m : Vme} (hh : h ∈ s.vme.heads) (hp : s.vme.fresh page = true)
    (hm : map s.vme cpu h va pa prot page = .ok m) :
    Moved s (.map cpu h va pa prot page) ⟨m, update s.log h (s.log h ++ [⟨va, pa, prot⟩])⟩
  | switch {cpu : Nat} {head : Option Nat} {m : Vme} (hh : ∀ h, head = some h → h ∈ s.vme.heads)
    (hm : amSwitch s.vme cpu head = .ok m) : Moved s (.switch cpu head) ⟨m, s.log⟩

theorem moved_step {s s' : Sys} {a : Act} (hs : s.step a = some s') : Moved s a s' := by
  cases a with
  | vmeInit =>
    cases hs
    exact .init
  | protect page =>
    obtain ⟨hp, hs⟩ := Option.ite_none_right_eq_some.mp hs
    obtain ⟨m, hm, rfl⟩ := Option.map_eq_some_iff.mp hs
    cases page with
    | none => cases hm
    | some h =>
      cases toOption_some hm
      obtain ⟨hu, hh⟩ : h ∉ s.vme.used ∧ h ∉ s.vme.heads := of_decide_eq_true hp
      exact .protect hu hh
  | map cpu h va pa prot page =>
    obtain ⟨⟨hh, hp⟩, hs⟩ := Option.ite_none_right_eq_some.mp hs
    obtain ⟨m, hm, rfl⟩ := Option.map_eq_some_iff.mp hs
    exact .map hh hp (toOption_some hm)
  | switch cpu head =>
    obtain ⟨hh, hs⟩ := Option.ite_none_right_eq_some.mp hs
    obtain ⟨m, hm, rfl⟩ := Option.map_eq_some_iff.mp hs
    refine .switch (fun h he => ?_) (toOption_some hm)
    rw [he] at hh
    exact of_decide_eq_true hh

structure SysInv (s : Sys) : Prop where
  chain : ∀ h ∈ s.vme.heads, Chain s.vme (s.log h) h
  apart : ∀ h ∈ s.vme.heads, ∀ h' ∈ s.vme.heads, h ≠ h' → ∀ p ∈ s.vme.nodesOf h, p ∉ s.vme.nodesOf h'
  unlogged : ∀ h, h ∉ s.vme.heads → s.log h = []
  active : ∀ c h, s.vme.vmHead c = some h → h ∈ s.vme.heads

structure Alike (n m : Vme) : Prop where
  core : ∀ p, (m.nodes p).core = (n.nodes p).core
  spaces : m.spaces = n.spaces
  used : m.used = n.used
  heads : m.heads = n.heads
  vmHead : m.vmHead = n.vmHead
  enable : m.vmeEnable = n.vmeEnable

section
variable {n m m' : Vme} {s s' : Sys} {L : List Vmap} {cpu h p va pa prot : Nat} {page head o : Option Nat}

theorem Alike.refl (n : Vme) : Alike n n := ⟨fun _ => rfl, rfl, rfl, rfl, rfl, rfl⟩

theorem Alike.trans (h1 : Alike n m) (h2 : Alike m m') : Alike n m' where
  core := fun p => (h2.core p).trans (h1.core p)
  spaces := h2.spaces.trans h1.spaces
  used := h2.used.trans h1.used
  heads := h2.heads.trans h1.heads
  vmHead := h2.vmHead.trans h1.vmHead
  enable := h2.enable.trans h1.enable

theorem Alike.nodesOf (h : Alike n m) : m.nodesOf = n.nodesOf := by
  unfold Vme.nodesOf
  rw [h.spaces]

theorem Alike.next (h : Alike n m) : m.next = n.next := funext fun p => next_of_core (h.core p)

theorem SysInv.alike (hi : SysInv s) (ha : Alike s.vme m) : SysInv ⟨m, s.log⟩ := by
  constructor
  · intro h hh
    have hh' : h ∈ s.vme.heads := ha.heads ▸ hh
    refine (hi.chain h hh').frame (congrFun ha.spaces h) ?_ fun p _ => ha.core p
    show s.vme.used ⊆ m.used
    rw [ha.used]
    exact List.Subset.refl _
  · show ∀ h ∈ m.heads, ∀ h' ∈ m.heads, h ≠ h' → ∀ p ∈ m.nodesOf h, p ∉ m.nodesOf h'
    rw [ha.heads, ha.nodesOf]
    exact hi.apart
  · show ∀ h, h ∉ m.heads → s.log h = []
    rw [ha.heads]
    exact hi.unlogged
  · show ∀ c h, m.vmHead c = some h → h ∈ m.heads
    rw [ha.heads, ha.vmHead]
    exact hi.active

theorem SysInv.setHead (hi : SysInv s) (hh : ∀ h, head = some h → h ∈ s.vme.heads) :
    SysInv ⟨{ s.vme with vmHead := update s.vme.vmHead cpu head }, s.log⟩ where
  chain := fun h hm => (hi.chain h hm).frame rfl (List.Subset.refl _) fun _ _ => rfl
  apart := hi.apart
  unlogged := hi.unlogged
  active := fun c h hc => by
    dsimp only at hc
    by_cases he : c = cpu
    · rw [he, update_self] at hc
      exact hh h hc
    · rw [update_of_ne he] at hc
      exact hi.active c h hc

/-! ## Walking over a list -/

section
variable {f : Vme → Nat → Except Halt Vme} {S : Nat → Prop}
variable (hf : ∀ m p, Alike n m → S p → ∃ m', f m p = .ok m' ∧ Alike m m')
include hf

theorem listForeach_ends : ∀ {l : List Nat} {o : Option Nat} {fuel : Nat} {m : Vme}, Alike n m →
    Linked n.next o l → (∀ p ∈ l, S p) → l.length ≤ fuel → ∃ m', listForeach f fuel o m = .ok m' ∧ Alike m m'
  | [], _, _, m, _, hl, _, _ => by
    cases hl
    exact ⟨m, by simp [listForeach], Alike.refl m⟩
  | p :: l, o, 0, m, _, _, _, hlen => absurd hlen (by simp)
  | p :: l, _, fuel + 1, m, ha, hl, hS, hlen => by
    obtain ⟨rfl, hl⟩ := hl
    obtain ⟨m1, hm1, ha1⟩ := hf m p ha (hS p mem_cons_self)
    have hnext : (m1.nodes p).next = n.next p := congrFun (ha.trans ha1).next p
    obtain ⟨m2, hm2, ha2⟩ := listForeach_ends (ha.trans ha1) hl (fun q hq => hS q (mem_cons_of_mem p hq))
      (Nat.le_of_succ_le_succ hlen)
    refine ⟨m2, ?_, ha1.trans ha2⟩
    rw [listForeach, hm1]
    show listForeach f fuel (m1.nodes p).next m1 = _
    rw [hnext, hm2]

theorem listForeach_hangs (hS : ∀ p, S p → ∀ q, n.next p = some q → S q) :
    ∀ {fuel : Nat} {o : Option Nat} {m : Vme}, Alike n m → (∀ p, o = some p → S p) → (¬∃ l, Linked n.next o l) →
      listForeach f fuel o m = .error .diverge
  | _, none, _, _, _, hl => absurd ⟨[], rfl⟩ hl
  | 0, some _, _, _, _, _ => rfl
  | fuel + 1, some p, m, ha, ho, hl => by
    obtain ⟨m1, hm1, ha1⟩ := hf m p ha (ho p rfl)
    have hnext : (m1.nodes p).next = n.next p := congrFun (ha.trans ha1).next p
    rw [listForeach, hm1]
    show listForeach f fuel (m1.nodes p).next m1 = _
    rw [hnext]
    refine listForeach_hangs hS (ha.trans ha1) (hS p (ho p rfl)) ?_
    rintro ⟨l, hl'⟩
    exact hl ⟨p :: l, rfl, hl'⟩

end

theorem alike_flag (n : Vme) (cpu va p : Nat) (y : Option HostPage) (b : Bool) :
    Alike n ((n.setHost cpu va y).setNode p { n.nodes p with isMapped := b }) := by
  refine ⟨fun q => ?_, rfl, rfl, rfl, rfl, rfl⟩
  by_cases hq : q = p
  · subst hq
    simp [Vme.setNode, PageMap.core]
  · simp [Vme.setNode, Vme.setHost, hq]

theorem unmapNode_ok (n : Vme) (cpu p : Nat) : ∃ m, unmapNode cpu n p = .ok m ∧ Alike n m := by
  unfold unmapNode
  dsimp only
  split
  · exact ⟨_, rfl, alike_flag n cpu _ p none false⟩
  · exact ⟨n, rfl, Alike.refl n⟩

theorem mapNode_eq (cpu : Nat) (hp : UserPage (n.nodes p).va) : mapNode cpu n p =
    .ok ((n.setHost cpu (n.nodes p).va (some (hostPage (n.nodes p).pa (n.nodes p).prot))).setNode p
      { n.nodes p with isMapped := true }) :=
  if_neg (not_not_intro ⟨hp.1, hp.2.1⟩)

/-- The walk over the list of a space ends exactly when no address was mapped twice in it. -/
theorem forSpace_cases {f : Vme → Nat → Except Halt Vme} (hi : SysInv s)
    (hf : ∀ h ∈ s.vme.heads, ∀ m p, Alike s.vme m → p ∈ s.vme.nodesOf h → ∃ m', f m p = .ok m' ∧ Alike m m')
    (hm : Alike s.vme m) (ho : ∀ h, o = some h → h ∈ s.vme.heads) :
    (∃ m', forSpace f m o = .ok m' ∧ Alike s.vme m' ∧ ∀ h, o = some h → MappedOnce (s.log h)) ∨
    (forSpace f m o = .error .diverge ∧ ∃ h, o = some h ∧ ¬MappedOnce (s.log h)) := by
  cases o with
  | none => exact Or.inl ⟨m, rfl, hm, by simp⟩
  | some h =>
    have hh := ho h rfl
    have hc := hi.chain h hh
    unfold forSpace
    rw [hm.spaces, hm.used]
    by_cases honce : MappedOnce (s.log h)
    · obtain ⟨l, hl⟩ := hc.once.mp honce
      obtain ⟨m', hm', ha⟩ := listForeach_ends (hf h hh) hm hl (hc.subset hl) (hc.length_le hl)
      exact Or.inl ⟨m', hm', hm.trans ha, by simpa using honce⟩
    · have hend : ¬∃ l, Linked s.vme.next (s.vme.spaces h).head l := fun hl => honce (hc.once.mpr hl)
      exact Or.inr ⟨listForeach_hangs (hf h hh) hc.closed hm hc.head hend, h, rfl, honce⟩

theorem amSwitch_cases (hi : SysInv s) (hen : s.vme.vmeEnable = true) (hne : head ≠ s.vme.vmHead cpu)
    (hh : ∀ h, head = some h → h ∈ s.vme.heads) :
    (∃ m, amSwitch s.vme cpu head = .ok { m with vmHead := update m.vmHead cpu head } ∧ Alike s.vme m ∧
      ∀ h, s.vme.vmHead cpu = some h ∨ head = some h → MappedOnce (s.log h)) ∨
    (amSwitch s.vme cpu head = .error .diverge ∧
      ∃ h, (s.vme.vmHead cpu = some h ∨ head = some h) ∧ ¬MappedOnce (s.log h)) := by
  have heq : amSwitch s.vme cpu head = (forSpace (unmapNode cpu) s.vme (s.vme.vmHead cpu) >>= fun m =>
      forSpace (mapNode cpu) m head >>= fun m =>
        pure { m with vmHead := update m.vmHead cpu head }) := by
    unfold amSwitch
    rw [if_neg (by simp [hen]), if_neg hne]
  rw [heq]
  rcases forSpace_cases hi (fun _ _ m p _ _ => unmapNode_ok m cpu p) (Alike.refl _) (hi.active cpu)
    with ⟨m1, h1, ha1, honce1⟩ | ⟨h1, h, hc, hn⟩
  · have huser : ∀ h ∈ s.vme.heads, ∀ m p, Alike s.vme m → p ∈ s.vme.nodesOf h →
        ∃ m', mapNode cpu m p = .ok m' ∧ Alike m m' := fun h hm m p ha hp => by
      have hu := (hi.chain h hm).user hp
      rw [← va_of_core (ha.core p)] at hu
      exact ⟨_, mapNode_eq cpu hu, alike_flag ..⟩
    rw [h1]
    rcases forSpace_cases hi huser ha1 hh with ⟨m2, h2, ha2, honce2⟩ | ⟨h2, h, hc, hn⟩
    · refine Or.inl ⟨m2, ?_, ha2, fun h hor => hor.elim (honce1 h) (honce2 h)⟩
      show (forSpace (mapNode cpu) m1 head >>= _) = _
      rw [h2]
      rfl
    · refine Or.inr ⟨?_, h, Or.inr hc, hn⟩
      show (forSpace (mapNode cpu) m1 head >>= _) = _
      rw [h2]
      rfl
  · refine Or.inr ⟨?_, h, Or.inl hc, hn⟩
    rw [h1]
    rfl

theorem amSwitch_same (hen : n.vmeEnable = true) (he : head = n.vmHead cpu) : amSwitch n cpu head = .ok n := by
  rw [amSwitch, if_neg (by simp [hen]), if_pos he]

theorem amSwitch_ok (hi : SysInv s) (hen : s.vme.vmeEnable = true) (hh : ∀ h, head = some h → h ∈ s.vme.heads)
    (hs : amSwitch s.vme cpu head = .ok m) :
    ∃ m2, Alike s.vme m2 ∧ m = { m2 with vmHead := update m2.vmHead cpu head } := by
  by_cases hne : head = s.vme.vmHead cpu
  · cases (amSwitch_same hen hne).symm.trans hs
    refine ⟨s.vme, Alike.refl _, ?_⟩
    rw [hne, update_eq_self]
  · rcases amSwitch_cases hi hen hne hh with ⟨m2, h2, ha, -⟩ | ⟨h2, -⟩
    · cases hs.symm.trans h2
      exact ⟨m2, ha, rfl⟩
    · cases hs.symm.trans h2

theorem SysInv.switched (hi : SysInv s) (hh : ∀ h, head = some h → h ∈ s.vme.heads)
    (hs : amSwitch s.vme cpu head = .ok m) : SysInv ⟨m, s.log⟩ := by
  by_cases hen : s.vme.vmeEnable = true
  · obtain ⟨m2, ha, rfl⟩ := amSwitch_ok hi hen hh hs
    exact SysInv.setHead (s := ⟨m2, s.log⟩) (hi.alike ha) (ha.heads.symm ▸ hh)
  · rw [amSwitch, if_pos (Bool.eq_false_iff.mpr hen)] at hs
    cases hs
    exact hi

/-! ## Every run -/

structure MapStep (n m : Vme) (cpu h p va pa prot : Nat) : Prop where
  nodes : m.nodes = update n.nodes p
    ⟨va, pa, (n.spaces h).head, prot, decide (n.vmHead cpu = some h)⟩
  host : m.host = if n.vmHead cpu = some h then
      update n.host cpu (update (n.host cpu) va (some (hostPage pa prot)))
    else n.host
  others : ∀ h', h' ≠ h → m.spaces h' = n.spaces h'
  heads : m.heads = n.heads
  vmHead : m.vmHead = n.vmHead
  enable : m.vmeEnable = n.vmeEnable

theorem MapStep.nodesOf (hst : MapStep n m cpu h p va pa prot) {h' : Nat} (hne : h' ≠ h) :
    m.nodesOf h' = n.nodesOf h' := by
  rw [Vme.nodesOf, hst.others h' hne, Vme.nodesOf]

theorem linkNode_step (n : Vme) (cpu h p va pa prot : Nat) :
    MapStep n (linkNode n cpu h p va pa prot) cpu h p va pa prot ∧
    (linkNode n cpu h p va pa prot).used = n.used ∧
    (linkNode n cpu h p va pa prot).spaces h = { n.spaces h with head := some p } := by
  unfold linkNode
  by_cases hv : n.vmHead cpu = some h
  all_goals
    simp only [Vme.setNode, Vme.setSpace, Vme.setHost, hv, if_true, if_false]
    refine ⟨⟨?_, by simp [hv], fun h' hne => update_of_ne hne _ _, rfl, rfl, rfl⟩, trivial, update_self ..⟩
    simp [hv]

/-- The node that `map` links was there for this address, or is a new one. -/
theorem SysInv.map_step (hi : SysInv s) (hh : h ∈ s.vme.heads) (hpage : s.vme.fresh page = true)
    (hm : map s.vme cpu h va pa prot page = .ok m) :
    ∃ p, MapStep s.vme m cpu h p va pa prot ∧ s.vme.used ⊆ m.used ∧ Chain m (s.log h ++ [⟨va, pa, prot⟩]) h ∧
      (∀ h' ∈ s.vme.heads, h' ≠ h → p ∉ s.vme.nodesOf h') ∧
      (∀ q ∈ m.nodesOf h, q = p ∨ q ∈ s.vme.nodesOf h) ∧ UserPage va := by
  have hc := hi.chain h hh
  unfold map at hm
  split at hm
  · cases hm
  · split at hm
    · cases hm
    · split at hm
      · cases hm
      · next hr ha _ =>
        have hu : UserPage va := ⟨(not_not.mp hr).1, (not_not.mp hr).2, not_not.mp ha⟩
        obtain ⟨⟨n1, p⟩, hf, hm⟩ := bind_ok hm
        cases hm
        obtain ⟨hst, hused, hsp⟩ := linkNode_step n1 cpu h p va pa prot
        have hlink : ∀ {L}, Entered n1 L h va p →
            Chain (linkNode n1 cpu h p va pa prot) (L ++ [⟨va, pa, prot⟩]) h := fun he => by
          refine he.linked (by rw [hsp]) (by rw [hsp]) hused ?_ fun q hq => ?_
          · rw [hst.nodes, update_self]
            rfl
          · rw [hst.nodes, update_of_ne hq]
        have hof : (linkNode n1 cpu h p va pa prot).nodesOf h = n1.nodesOf h := by
          rw [Vme.nodesOf, hsp, Vme.nodesOf]
        rcases findNode_ok hf with ⟨rfl, he⟩ | ⟨he, rfl, hn1⟩
        · rw [key_of_user hu] at he
          refine ⟨p, hst, hused ▸ List.Subset.refl _, hlink (hc.entered_old he), fun h' hh' hne => ?_, fun q hq => ?_, hu⟩
          · exact hi.apart h hh h' hh' hne.symm p (mem_nodesOf.mpr ⟨va, he⟩)
          · exact Or.inr (hof ▸ hq)
        · have hp : p ∉ s.vme.used := (of_decide_eq_true hpage : p ∉ s.vme.used ∧ p ∉ s.vme.heads).1
          rw [key_of_user hu] at he hn1
          have hs1 : n1.spaces h = { s.vme.spaces h with
              hash := (va, p) :: (s.vme.spaces h).hash, nrPage := (s.vme.spaces h).nrPage + 1 } := by
            rw [hn1]
            exact update_self ..
          have hstep : MapStep s.vme (linkNode n1 cpu h p va pa prot) cpu h p va pa prot := by
            refine ⟨?_, ?_, fun h' hne => ?_, ?_, ?_, ?_⟩
            · rw [hst.nodes, hs1, hn1]
              rfl
            · rw [hst.host, hn1]
              rfl
            · rw [hst.others h' hne, hn1]
              exact update_of_ne hne _ _
            · rw [hst.heads, hn1]
              rfl
            · rw [hst.vmHead, hn1]
              rfl
            · rw [hst.enable, hn1]
              rfl
          refine ⟨p, hstep, ?_, hlink (hc.entered_new hu he hp hs1 ?_ ?_), fun h' hh' _ hq => ?_, fun q hq => ?_, hu⟩
          · rw [hused, hn1]
            exact subset_cons_self p _
          · rw [hn1]
          · rw [hn1]
            rfl
          · exact hp ((hi.chain h' hh').used hq)
          · rw [hof, Vme.nodesOf, hs1] at hq
            exact mem_cons.mp hq

theorem SysInv.mapped (hi : SysInv s) (hh : h ∈ s.vme.heads) (hpage : s.vme.fresh page = true)
    (hm : map s.vme cpu h va pa prot page = .ok m) :
    SysInv ⟨m, update s.log h (s.log h ++ [⟨va, pa, prot⟩])⟩ := by
  obtain ⟨p, hst, hused, hchain, hp, hown, -⟩ := hi.map_step hh hpage hm
  have happart : ∀ h' ∈ s.vme.heads, h' ≠ h → ∀ q ∈ m.nodesOf h, q ∉ s.vme.nodesOf h' := fun h' hh' hne q hq => by
    rcases hown q hq with rfl | hq
    · exact hp h' hh' hne
    · exact hi.apart h hh h' hh' hne.symm q hq
  constructor
  · intro h' hh'
    have hh'' : h' ∈ s.vme.heads := hst.heads ▸ hh'
    by_cases hne : h' = h
    · subst hne
      dsimp only
      rw [update_self]
      exact hchain
    · dsimp only
      rw [update_of_ne hne]
      refine (hi.chain h' hh'').frame (hst.others h' hne) hused fun q hq => ?_
      rw [hst.nodes, update_of_ne (ne_of_mem_of_not_mem hq (hp h' hh'' hne))]
  · show ∀ h1 ∈ m.heads, ∀ h2 ∈ m.heads, h1 ≠ h2 → ∀ q ∈ m.nodesOf h1, q ∉ m.nodesOf h2
    rw [hst.heads]
    intro h1 hh1 h2 hh2 hne q hq
    by_cases he1 : h1 = h
    · subst he1
      rw [hst.nodesOf hne.symm]
      exact happart h2 hh2 hne.symm q hq
    · rw [hst.nodesOf he1] at hq
      by_cases he2 : h2 = h
      · subst he2
        exact fun hq' => happart h1 hh1 he1 q hq' hq
      · rw [hst.nodesOf he2]
        exact hi.apart h1 hh1 h2 hh2 hne q hq
  · intro h' hh'
    have hne : h' ≠ h := by
      rintro rfl
      exact hh' (hst.heads.symm ▸ hh)
    dsimp only
    rw [update_of_ne hne]
    exact hi.unlogged h' fun hm => hh' (hst.heads ▸ hm)
  · show ∀ c h, m.vmHead c = some h → h ∈ m.heads
    rw [hst.heads, hst.vmHead]
    exact hi.active

theorem SysInv.protected (hi : SysInv s) (hh : h ∉ s.vme.heads) :
    SysInv ⟨{ s.vme.setSpace h ⟨none, [], 0⟩ with heads := h :: s.vme.heads }, s.log⟩ := by
  have hempty : ∀ p, p ∉ Vme.nodesOf { s.vme.setSpace h ⟨none, [], 0⟩ with heads := h :: s.vme.heads } h := by
    simp [Vme.nodesOf, Vme.setSpace]
  have hof : ∀ h', h' ≠ h →
      Vme.nodesOf { s.vme.setSpace h ⟨none, [], 0⟩ with heads := h :: s.vme.heads } h' = s.vme.nodesOf h' := by
    intro h' hne
    simp [Vme.nodesOf, Vme.setSpace, hne]
  constructor
  · intro h' hh'
    rcases mem_cons.mp hh' with rfl | hh'
    · have hlog := hi.unlogged h' hh
      dsimp only
      rw [hlog]
      exact chain_empty (update_self ..)
    · have hne := ne_of_mem_of_not_mem hh' hh
      exact (hi.chain h' hh').frame (update_of_ne hne _ _) (List.Subset.refl _) fun _ _ => rfl
  · intro h1 hh1 h2 hh2 hne q hq
    rcases mem_cons.mp hh1 with rfl | hh1
    · exact absurd hq (hempty q)
    · rw [hof h1 (ne_of_mem_of_not_mem hh1 hh)] at hq
      rcases mem_cons.mp hh2 with rfl | hh2
      · exact hempty q
      · rw [hof h2 (ne_of_mem_of_not_mem hh2 hh)]
        exact hi.apart h1 hh1 h2 hh2 hne q hq
  · exact fun h' hh' => hi.unlogged h' fun hm => hh' (mem_cons_of_mem h hm)
  · exact fun c h' hc => mem_cons_of_mem h (hi.active c h' hc)

theorem sysInv_boot : SysInv Sys.boot := by
  constructor <;> simp [Sys.boot, Vme.boot]

theorem SysInv.step {a : Act} (hi : SysInv s) (hs : s.step a = some s') : SysInv s' := by
  cases moved_step hs with
  | init =>
    exact ⟨fun h hh => (hi.chain h hh).frame rfl (List.Subset.refl _) fun _ _ => rfl, hi.apart, hi.unlogged, hi.active⟩
  | protect _ hh => exact hi.protected hh
  | map hh hp hm => exact hi.mapped hh hp hm
  | switch hh hm => exact hi.switched hh hm

def twiceRun : List Act :=
  [.vmeInit, .protect (some 1), .protect (some 2), .map 0 1 userBase 0 1 (some 3), .map 0 2 userBase 0 1 (some 4),
    .switch 0 (some 1), .map 0 2 userBase pgsize 1 none]

def Sys.shown (s : Sys) (c va : Nat) : Option HostPage :=
  (s.vme.vmHead c).bind fun h => ((s.log h).find? (·.va = va)).map fun v => hostPage v.pa v.prot

/-- An address is mapped once in a space, and no other CPU is in the space that a call is about. -/
def Exclusive (ncpu : Nat) (s : Sys) : Act → Prop
  | .map cpu h va _ _ _ => cpu < ncpu ∧ va ∉ (s.log h).map Vmap.va ∧ ∀ c < ncpu, c ≠ cpu → s.vme.vmHead c ≠ some h
  | .switch cpu head => cpu < ncpu ∧ (head ≠ none → ∀ c < ncpu, c ≠ cpu → s.vme.vmHead c ≠ head)
  | _ => True

instance (ncpu : Nat) (s : Sys) (a : Act) : Decidable (Exclusive ncpu s a) := by
  unfold Exclusive
  exact a.casesOn (inferInstanceAs (Decidable True)) (fun _ => inferInstanceAs (Decidable True))
    (fun _ _ _ _ _ _ => inferInstanceAs (Decidable (_ ∧ _ ∧ _))) fun _ _ => inferInstanceAs (Decidable (_ ∧ _))

/-- Each node of `l` has been looked at once by CPU `cpu`: its page is `x` and its flag `b`. -/
structure Visited (n : Vme) (cpu : Nat) (b : Bool) (x : PageMap → Option HostPage) (l : List Nat) (m : Vme) :
    Prop where
  alike : Alike n m
  others : ∀ c, c ≠ cpu → m.host c = n.host c
  nodes : ∀ q, q ∉ l → m.nodes q = n.nodes q
  flag : ∀ q ∈ l, (m.nodes q).isMapped = b
  page : ∀ q ∈ l, m.host cpu (n.nodes q).va = x (n.nodes q)
  rest : ∀ va, va ∉ l.map (fun q => (n.nodes q).va) → m.host cpu va = n.host cpu va

theorem Visited.cons {l : List Nat} {b : Bool} {x : PageMap → Option HostPage} {m1 : Vme}
    (h1 : Visited n cpu b x [p] m1) (h2 : Visited m1 cpu b x l m) (hp : p ∉ l)
    (hva : (n.nodes p).va ∉ l.map fun q => (n.nodes q).va) : Visited n cpu b x (p :: l) m := by
  have hsame : ∀ q ∈ l, m1.nodes q = n.nodes q := fun q hq =>
    h1.nodes q (by simpa using ne_of_mem_of_not_mem hq hp)
  have hvas : l.map (fun q => (m1.nodes q).va) = l.map fun q => (n.nodes q).va :=
    map_congr_left fun q hq => by rw [hsame q hq]
  constructor
  · exact h1.alike.trans h2.alike
  · exact fun c hc => (h2.others c hc).trans (h1.others c hc)
  · intro q hq
    obtain ⟨hqp, hql⟩ := not_or.mp fun h => hq (mem_cons.mpr h)
    rw [h2.nodes q hql, h1.nodes q (by simpa using hqp)]
  · intro q hq
    rcases mem_cons.mp hq with rfl | hq
    · rw [h2.nodes q hp]
      exact h1.flag q (by simp)
    · exact h2.flag q hq
  · intro q hq
    rcases mem_cons.mp hq with rfl | hq
    · rw [h2.rest _ (by rwa [hvas])]
      exact h1.page q (by simp)
    · have := h2.page q hq
      rwa [hsame q hq] at this
  · intro va hv
    obtain ⟨hvp, hvl⟩ := not_or.mp fun h => hv (mem_cons.mpr h)
    rw [h2.rest va (by rwa [hvas]), h1.rest va (by simpa using hvp)]

theorem listForeach_visited {f : Vme → Nat → Except Halt Vme} {b : Bool} {x : PageMap → Option HostPage} :
    ∀ {l : List Nat} {o : Option Nat} {fuel : Nat} {n : Vme}, Linked n.next o l → l.length ≤ fuel →
      (∀ m, ∀ p ∈ l, m.nodes p = n.nodes p → ∃ m', f m p = .ok m' ∧ Visited m cpu b x [p] m') →
      (l.map fun q => (n.nodes q).va).Nodup → ∃ m, listForeach f fuel o n = .ok m ∧ Visited n cpu b x l m
  | [], o, _, n, hl, _, _, _ => by
    cases hl
    exact ⟨n, by simp [listForeach], Alike.refl n, fun _ _ => rfl, fun _ _ => rfl, by simp, by simp, fun _ _ => rfl⟩
  | p :: l, _, 0, n, _, hlen, _, _ => absurd hlen (by simp)
  | p :: l, _, fuel + 1, n, hl, hlen, hf, hnd => by
    obtain ⟨hpl, -⟩ := nodup_cons.mp hl.nodup
    obtain ⟨hva, hnd⟩ := nodup_cons.mp hnd
    obtain ⟨rfl, hl⟩ := hl
    obtain ⟨m1, hm1, hv1⟩ := hf n p mem_cons_self rfl
    have hsame : ∀ q ∈ l, m1.nodes q = n.nodes q := fun q hq =>
      hv1.nodes q (by simpa using ne_of_mem_of_not_mem hq hpl)
    have hnext := hv1.alike.next
    have hl1 : Linked m1.next (m1.next p) l := by
      rw [hnext]
      exact hl
    obtain ⟨m, hm, hv⟩ := listForeach_visited hl1 (Nat.le_of_succ_le_succ hlen)
      (fun m q hq he => hf m q (mem_cons_of_mem p hq) (he.trans (hsame q hq)))
      (by rwa [map_congr_left fun q hq => by rw [hsame q hq]])
    refine ⟨m, ?_, hv1.cons hv hpl hva⟩
    rw [listForeach, hm1]
    exact hm

theorem visited_one (n : Vme) (cpu p : Nat) (b : Bool) (x : PageMap → Option HostPage) :
    Visited n cpu b x [p]
      ((n.setHost cpu (n.nodes p).va (x (n.nodes p))).setNode p { n.nodes p with isMapped := b }) := by
  refine ⟨alike_flag .., ?_, ?_, ?_, ?_, ?_⟩ <;> simp +contextual [Vme.setNode, Vme.setHost]

/-! ## Isolation -/

variable {ncpu : Nat}

structure HostInv (ncpu : Nat) (s : Sys) : Prop extends SysInv s where
  once : ∀ h, MappedOnce (s.log h)
  single : ∀ c < ncpu, ∀ c' < ncpu, ∀ h, s.vme.vmHead c = some h → s.vme.vmHead c' = some h → c = c'
  flags : ∀ c < ncpu, ∀ h, s.vme.vmHead c = some h → ∀ p ∈ s.vme.nodesOf h, (s.vme.nodes p).isMapped = true
  host : ∀ c < ncpu, ∀ va, s.vme.host c va = s.shown c va

theorem MappedOnce.find? {v : Vmap} (hL : MappedOnce L) (hv : v ∈ L) : L.find? (·.va = v.va) = some v := by
  induction L with
  | nil => cases hv
  | cons w L ih =>
    obtain ⟨hw, hL⟩ := nodup_cons.mp hL
    rcases mem_cons.mp hv with rfl | hv
    · simp
    · have hne : w.va ≠ v.va := fun he => hw (he ▸ mem_map_of_mem hv)
      rw [find?_cons_of_neg (by simpa using hne)]
      exact ih hL hv

theorem find?_unmapped (hva : va ∉ L.map Vmap.va) : L.find? (·.va = va) = none :=
  find?_eq_none.mpr fun _ hv hd => hva (of_decide_eq_true hd ▸ mem_map_of_mem hv)

theorem HostInv.list (hi : HostInv ncpu s) (hh : h ∈ s.vme.heads) : ∃ l, Linked s.vme.next (s.vme.spaces h).head l ∧
    l.length ≤ s.vme.used.length ∧ l.map s.vme.entry = (s.log h).reverse ∧ (∀ q, q ∈ l ↔ q ∈ s.vme.nodesOf h) ∧
    (l.map fun q => (s.vme.nodes q).va).Nodup ∧
    ∀ va, va ∈ l.map (fun q => (s.vme.nodes q).va) ↔ va ∈ (s.log h).map Vmap.va := by
  have hc := hi.chain h hh
  obtain ⟨l, hl⟩ := hc.once.mp (hi.once h)
  have hent := hc.entries l hl
  have hvas : l.map (fun q => (s.vme.nodes q).va) = ((s.log h).map Vmap.va).reverse := by
    have := congrArg (List.map Vmap.va) hent
    rwa [map_map, map_reverse] at this
  refine ⟨l, hl, hc.length_le hl, hent, fun q => ⟨hc.subset hl q, hc.listed hl⟩, ?_, ?_⟩
  · rw [hvas]
    exact nodup_reverse.mpr (hi.once h)
  · intro va
    rw [hvas, mem_reverse]

theorem HostInv.unmapped (hi : HostInv ncpu s) (hcpu : cpu < ncpu) :
    ∃ m, forSpace (unmapNode cpu) s.vme (s.vme.vmHead cpu) = .ok m ∧ Alike s.vme m ∧
      (∀ c, c ≠ cpu → m.host c = s.vme.host c) ∧ (∀ va, m.host cpu va = none) ∧
      ∀ q, (∀ h, s.vme.vmHead cpu = some h → q ∉ s.vme.nodesOf h) → m.nodes q = s.vme.nodes q := by
  have hshown := hi.host cpu hcpu
  cases hv : s.vme.vmHead cpu with
  | none =>
    refine ⟨s.vme, rfl, Alike.refl _, fun _ _ => rfl, fun va => ?_, fun _ _ => rfl⟩
    rw [hshown, Sys.shown, hv]
    rfl
  | some h =>
    obtain ⟨l, hl, hlen, -, hmem, hnd, hvas⟩ := hi.list (hi.active cpu h hv)
    have hstep : ∀ m, ∀ p ∈ l, m.nodes p = s.vme.nodes p →
        ∃ m', unmapNode cpu m p = .ok m' ∧ Visited m cpu false (fun _ => none) [p] m' := fun m p hp he => by
      have hflag := hi.flags cpu hcpu h hv p ((hmem p).mp hp)
      rw [← he] at hflag
      exact ⟨_, if_pos hflag, visited_one m cpu p false _⟩
    obtain ⟨m, hm, hvis⟩ := listForeach_visited hl hlen hstep hnd
    refine ⟨m, hm, hvis.alike, hvis.others, fun va => ?_, fun q hq => hvis.nodes q fun hql => ?_⟩
    · by_cases hva : va ∈ l.map fun q => (s.vme.nodes q).va
      · obtain ⟨q, hq, rfl⟩ := mem_map.mp hva
        exact hvis.page q hq
      · rw [hvis.rest va hva, hshown, Sys.shown, hv, Option.bind_some, find?_unmapped fun h => hva ((hvas va).mpr h)]
        rfl
    · exact hq h rfl ((hmem q).mp hql)

theorem HostInv.remapped (hi : HostInv ncpu s) (hm : Alike s.vme m) (hh : ∀ h, head = some h → h ∈ s.vme.heads)
    (hnone : ∀ va, m.host cpu va = none) :
    ∃ m', forSpace (mapNode cpu) m head = .ok m' ∧ Alike m m' ∧ (∀ c, c ≠ cpu → m'.host c = m.host c) ∧
      (∀ va, m'.host cpu va =
        head.bind fun h => ((s.log h).find? (·.va = va)).map fun v => hostPage v.pa v.prot) ∧
      (∀ h, head = some h → ∀ q ∈ s.vme.nodesOf h, (m'.nodes q).isMapped = true) ∧
      ∀ q, (∀ h, head = some h → q ∉ s.vme.nodesOf h) → m'.nodes q = m.nodes q := by
  cases head with
  | none => exact ⟨m, rfl, Alike.refl m, fun _ _ => rfl, hnone, by simp, fun _ _ => rfl⟩
  | some h =>
    obtain ⟨l, hl, hlen, hent, hmem, hnd, hvas⟩ := hi.list (hh h rfl)
    have hva : ∀ q, (m.nodes q).va = (s.vme.nodes q).va := fun q => va_of_core (hm.core q)
    have hstep : ∀ m1, ∀ p ∈ l, m1.nodes p = m.nodes p → ∃ m', mapNode cpu m1 p = .ok m' ∧
        Visited m1 cpu true (fun y => some (hostPage y.pa y.prot)) [p] m' := fun m1 p hp he => by
      have hu := (hi.chain h (hh h rfl)).user ((hmem p).mp hp)
      rw [← hva p, ← he] at hu
      exact ⟨_, mapNode_eq cpu hu, visited_one m1 cpu p true _⟩
    have hlm : Linked m.next (s.vme.spaces h).head l := hm.next ▸ hl
    obtain ⟨m', hm', hvis⟩ := listForeach_visited hlm (hm.used ▸ hlen) hstep (by simpa only [hva] using hnd)
    refine ⟨m', ?_, hvis.alike, hvis.others, fun va => ?_, fun h' he q hq => ?_, fun q hq => hvis.nodes q fun hql => ?_⟩
    · unfold forSpace
      rw [hm.spaces]
      exact hm'
    · rw [Option.bind_some]
      by_cases hin : va ∈ l.map fun q => (s.vme.nodes q).va
      · obtain ⟨q, hq, rfl⟩ := mem_map.mp hin
        have hlog : m.entry q ∈ s.log h := by
          rw [entry_of_core (hm.core q), ← mem_reverse, ← hent]
          exact mem_map_of_mem hq
        have hpage := hvis.page q hq
        have hfind := (hi.once h).find? hlog
        rw [hva q] at hpage
        rw [show (m.entry q).va = (s.vme.nodes q).va from hva q] at hfind
        rw [hpage, hfind]
        rfl
      · rw [hvis.rest va (by simpa only [hva] using hin), hnone, find?_unmapped fun h => hin ((hvas va).mpr h)]
        rfl
    · cases he
      exact hvis.flag q ((hmem q).mpr hq)
    · exact hq h rfl ((hmem q).mp hql)

theorem HostInv.switched (hi : HostInv ncpu s) (hh : ∀ h, head = some h → h ∈ s.vme.heads)
    (hex : Exclusive ncpu s (.switch cpu head)) (hs : amSwitch s.vme cpu head = .ok m) : HostInv ncpu ⟨m, s.log⟩ := by
  have hinv := hi.toSysInv.switched hh hs
  obtain ⟨hcpu, hex⟩ := hex
  unfold amSwitch at hs
  split at hs
  · cases hs
    exact hi
  · split at hs
    · cases hs
      exact hi
    · obtain ⟨m1, h1, hs⟩ := bind_ok hs
      obtain ⟨m2, h2, hs⟩ := bind_ok hs
      cases hs
      obtain ⟨m1', h1', ha1, hoth1, hnone, hkeep1⟩ := hi.unmapped hcpu
      cases h1.symm.trans h1'
      obtain ⟨m2', h2', ha2, hoth2, hpages, hflags, hkeep2⟩ := hi.remapped ha1 hh hnone
      cases h2.symm.trans h2'
      have hof := (ha1.trans ha2).nodesOf
      have hvm := (ha1.trans ha2).vmHead
      have hmine : update m2.vmHead cpu head cpu = head := update_self ..
      have hother : ∀ c, c ≠ cpu → update m2.vmHead cpu head c = s.vme.vmHead c := fun c hc => by
        rw [update_of_ne hc, hvm]
      -- the space of another CPU is neither the one that is left nor the one that is entered
      have hfar : ∀ c < ncpu, ∀ h, c ≠ cpu → s.vme.vmHead c = some h →
          head ≠ some h ∧ s.vme.vmHead cpu ≠ some h := by
        intro c hlt h hc hv
        refine ⟨fun he => ?_, fun he => hc (hi.single c hlt cpu hcpu h hv he)⟩
        exact hex (by simp [he]) c hlt hc (hv.trans he.symm)
      refine { toSysInv := hinv, once := hi.once, single := ?_, flags := ?_, host := ?_ }
      · intro c hlt c' hlt' h hv hv'
        dsimp only at hv hv'
        by_cases hc : c = cpu
        · rw [hc, hmine] at hv
          by_contra hne
          have hc' : c' ≠ cpu := fun he => hne (hc.trans he.symm)
          rw [hother c' hc'] at hv'
          exact (hfar c' hlt' h hc' hv').1 hv
        · rw [hother c hc] at hv
          by_cases hc' : c' = cpu
          · rw [hc', hmine] at hv'
            exact absurd hv' (hfar c hlt h hc hv).1
          · rw [hother c' hc'] at hv'
            exact hi.single c hlt c' hlt' h hv hv'
      · intro c hlt h hv q hq
        have hq' : q ∈ s.vme.nodesOf h := hof ▸ hq
        dsimp only at hv ⊢
        by_cases hc : c = cpu
        · rw [hc, hmine] at hv
          exact hflags h hv q hq'
        · rw [hother c hc] at hv
          obtain ⟨hne2, hne1⟩ := hfar c hlt h hc hv
          have hact := hi.active c h hv
          rw [hkeep2 q fun h' he => hi.apart h hact h' (hh h' he) (fun e => hne2 (e ▸ he)) q hq',
            hkeep1 q fun h' he => hi.apart h hact h' (hi.active cpu h' he) (fun e => hne1 (e ▸ he)) q hq']
          exact hi.flags c hlt h hv q hq'
      · intro c hlt va
        by_cases hc : c = cpu
        · subst hc
          rw [Sys.shown]
          dsimp only
          rw [hmine, hpages]
        · have hbefore := hi.host c hlt va
          rw [Sys.shown] at hbefore ⊢
          dsimp only
          rw [hother c hc, hoth2 c hc, hoth1 c hc]
          exact hbefore

theorem HostInv.mapped (hi : HostInv ncpu s) (hh : h ∈ s.vme.heads) (hpage : s.vme.fresh page = true)
    (hex : Exclusive ncpu s (.map cpu h va pa prot page)) (hm : map s.vme cpu h va pa prot page = .ok m) :
    HostInv ncpu ⟨m, update s.log h (s.log h ++ [⟨va, pa, prot⟩])⟩ := by
  obtain ⟨-, hva, hfree⟩ := hex
  have hinv := hi.toSysInv.mapped hh hpage hm
  obtain ⟨p, hst, -, -, hp, hown, -⟩ := hi.toSysInv.map_step hh hpage hm
  have hmine : ∀ c < ncpu, s.vme.vmHead c = some h → c = cpu := fun c hlt hv => by
    by_contra hc
    exact hfree c hlt hc hv
  refine { toSysInv := hinv, once := fun h' => ?_, single := ?_, flags := ?_, host := ?_ }
  · dsimp only
    by_cases hne : h' = h
    · subst hne
      rw [update_self, MappedOnce, map_append, map_singleton, ← concat_eq_append,
        nodup_concat]
      exact ⟨hva, hi.once h'⟩
    · rw [update_of_ne hne]
      exact hi.once h'
  · show ∀ c < ncpu, ∀ c' < ncpu, ∀ h, m.vmHead c = some h → m.vmHead c' = some h → c = c'
    rw [hst.vmHead]
    exact hi.single
  · intro c hlt h' hv q hq
    dsimp only at hv hq ⊢
    rw [hst.vmHead] at hv
    rw [hst.nodes]
    by_cases hqp : q = p
    · subst hqp
      rw [update_self]
      by_cases hne : h' = h
      · subst hne
        simpa [hmine c hlt hv] using hv
      · rw [hst.nodesOf hne] at hq
        exact absurd hq (hp h' (hi.active c h' hv) hne)
    · rw [update_of_ne hqp]
      by_cases hne : h' = h
      · subst hne
        exact hi.flags c hlt h' hv q ((hown q hq).resolve_left hqp)
      · rw [hst.nodesOf hne] at hq
        exact hi.flags c hlt h' hv q hq
  · intro c hlt w
    have hbefore := hi.host c hlt w
    rw [Sys.shown] at hbefore ⊢
    dsimp only
    rw [hst.host, hst.vmHead]
    cases hv : s.vme.vmHead c with
    | none =>
      rw [hv] at hbefore
      have hc : ¬(s.vme.vmHead cpu = some h ∧ c = cpu) := by
        rintro ⟨he, rfl⟩
        cases hv.symm.trans he
      split
      · next he =>
        rw [update_of_ne fun e => hc ⟨he, e⟩]
        exact hbefore
      · exact hbefore
    | some h' =>
      rw [hv] at hbefore
      simp only [Option.bind_some] at hbefore ⊢
      by_cases hne : h' = h
      · subst hne
        cases hmine c hlt hv
        rw [if_pos hv, update_self, update_self, find?_append]
        by_cases hw : w = va
        · subst hw
          rw [update_self, find?_unmapped hva]
          simp
        · rw [update_of_ne hw, hbefore]
          have hnot : ¬va = w := fun e => hw e.symm
          simp [hnot]
      · rw [update_of_ne hne]
        split
        · next he =>
          have hc : c ≠ cpu := by
            rintro rfl
            cases hv.symm.trans he
            exact hne rfl
          rw [update_of_ne hc, hbefore]
        · exact hbefore

theorem hostInv_boot (ncpu : Nat) : HostInv ncpu Sys.boot where
  toSysInv := sysInv_boot
  once := fun _ => nodup_nil
  single := fun c _ c' _ h hv => by cases hv
  flags := fun c _ h hv => by cases hv
  host := fun _ _ _ => rfl

theorem HostInv.step {a : Act} (hi : HostInv ncpu s) (hex : Exclusive ncpu s a) (hs : s.step a = some s') :
    HostInv ncpu s' := by
  have hinv := hi.toSysInv.step hs
  cases moved_step hs with
  | init => exact ⟨hinv, hi.once, hi.single, hi.flags, hi.host⟩
  | @protect h _ hh =>
    refine ⟨hinv, hi.once, hi.single, fun c hlt h' hv q hq => ?_, hi.host⟩
    have hne : h' ≠ h := ne_of_mem_of_not_mem (hi.active c h' hv) hh
    refine hi.flags c hlt h' hv q ?_
    simpa [Vme.nodesOf, Vme.setSpace, hne] using hq
  | map hh hp hm => exact hi.mapped hh hp hex hm
  | switch hh hm => exact hi.switched hh hex hm

def isolatedRun : List Act :=
  [.vmeInit, .protect (some 1), .protect (some 2), .protect (some 3), .map 0 1 userBase 0 3 (some 4),
    .switch 0 (some 1), .map 0 1 (userBase + pgsize) pgsize 1 (some 5), .map 1 2 userBase (2 * pgsize) 1 (some 6),
    .switch 1 (some 2), .map 1 3 userBase (3 * pgsize) 3 (some 7), .switch 0 (some 3)]

end

end NjuOs.Native
