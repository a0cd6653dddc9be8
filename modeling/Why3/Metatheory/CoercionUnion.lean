import Why3.Metatheory.Coercion

/-!
Coercion maps put together by additions and unions.

A union adds the functions of its second map again, so a map assembled from
additions and unions is that of a run of `add` over the same functions, some of
them added several times. A run that succeeds shows that the graph of the
functions has no cycle and at most one path between two type symbols: every path
has an entry whose first function is the first one of the path. Conversely, when
no three functions follow each other, every entry is the composition of the one
path between its symbols, so no insertion fails and all runs find the same lists.
With three functions in a row the compositions depend on the order.
-/
namespace Why3
namespace Coercion

open Except (bind_eq_ok foldlM_total)

def Acyclic (fns : List LSymbol) : Prop :=
  ∀ ts l, ¬ CoercionPath fns ts l ts

def UniquePaths (fns : List LSymbol) : Prop :=
  ∀ ts₁ ts₂ l l', CoercionPath fns ts₁ l ts₂ → CoercionPath fns ts₁ l' ts₂ → l = l'

/-- No three of the functions follow each other. -/
def NoChain (fns : List LSymbol) : Prop :=
  ∀ f ∈ fns, ∀ g ∈ fns, ∀ h ∈ fns, ∀ ts₁ ts₂ ts₃ ts₄,
    ¬ (Coerces f ts₁ ts₂ ∧ Coerces g ts₂ ts₃ ∧ Coerces h ts₃ ts₄)

/-- A way to put a map together. -/
inductive Assembly where
  | empty
  | add (a : Assembly) (ls : LSymbol)
  | union (a₁ a₂ : Assembly)

namespace Assembly

def functions : Assembly → List LSymbol
  | .empty => []
  | .add a ls => ls :: a.functions
  | .union a₁ a₂ => a₁.functions ++ a₂.functions

def build : Assembly → Except Error Map
  | .empty => .ok .empty
  | .add a ls => do
    let m ← a.build
    Coercion.add m ls
  | .union a₁ a₂ => do
    let m₁ ← a₁.build
    let m₂ ← a₂.build
    Coercion.union m₁ m₂

end Assembly

/-! The functions that a union adds. -/

def leafOf (x : TySymbol × Coercion) : Option LSymbol :=
  match x.2.crcKind with
  | .crcLeaf ls => some ls
  | .crcComp _ _ => none

def leaves (m : Map) : List LSymbol :=
  m.bindings.flatMap fun x => x.2.bindings.filterMap leafOf

variable {ls : LSymbol} {m m' : Map} {fns : List LSymbol} {ts₁ ts₂ : TySymbol} {crc c : Coercion}
  {a : Assembly}

theorem mem_leaves : ls ∈ leaves m ↔ ∃ ts₁ ts₂, Found m ts₁ ts₂ (.crcLeaf ls) := by
  simp only [leaves, List.mem_flatMap, List.mem_filterMap]
  constructor
  · rintro ⟨⟨ts₁, m1⟩, hm1, ⟨ts₂, c⟩, hc, hls⟩
    refine ⟨ts₁, ts₂, c, findCrc_of_bindings hm1 (TagMap.mem_bindings.mp hc), ?_⟩
    rw [leafOf] at hls
    split at hls
    next hkind =>
      cases hls
      exact hkind
    next => cases hls
  · rintro ⟨ts₁, ts₂, c, hc, hkind⟩
    obtain ⟨m1, hm1, hc⟩ := exists_bindings_of_findCrc hc
    refine ⟨(ts₁, m1), hm1, (ts₂, c), TagMap.mem_bindings.mpr hc, ?_⟩
    simp only [leafOf, hkind]

/-- The coercions that are single functions are those of the functions, filed once each. -/
structure LeavesOf (fns : List LSymbol) (m : Map) : Prop where
  created : Entries (fun _ _ c => ∀ ls, c.crcKind = .crcLeaf ls →
    ls ∈ fns ∧ createCrc ls = .ok c) m
  found : ∀ ls ∈ fns, ∃ ts₁ ts₂, Found m ts₁ ts₂ (.crcLeaf ls)

theorem union_eq (hm : LeavesOf fns m) (m1 : Map) : union m1 m = (leaves m).foldlM add m1 := by
  rw [leaves, Except.foldlM_flatMap]
  refine Except.foldlM_congr (fun b x hx => ?_) m1
  rw [List.foldlM_filterMap]
  refine Except.foldlM_congr (fun b y hy => ?_) b
  rw [unionLeaf, leafOf]
  have hy : findCrc m x.1 y.1 = some y.2 := findCrc_of_bindings hx (TagMap.mem_bindings.mp hy)
  cases hkind : y.2.crcKind with
  | crcLeaf ls =>
    simp only [add, (hm.created _ _ _ hy ls hkind).2]
    rfl
  | crcComp k1 k2 => rfl

theorem add_leavesOf (hk : Keyed m) (hm : LeavesOf fns m)
    (h : add m ls = .ok m') : LeavesOf (ls :: fns) m' := by
  obtain ⟨crc, hcrc, h⟩ := bind_eq_ok.mp h
  obtain ⟨hkind, -, -⟩ := createCrc_ok hcrc
  constructor
  · refine (addCrc_entries h hk ?_ ?_ ?_ ?_ ?_).2
    · intro ts₁ ts₂ c hc f hf
      obtain ⟨hmem, hcreate⟩ := hm.created _ _ _ hc f hf
      exact ⟨List.mem_cons_of_mem _ hmem, hcreate⟩
    · intro f hf
      cases hkind.symm.trans hf
      exact ⟨List.mem_cons_self, hcrc⟩
    · exact fun _ _ _ _ hf => nomatch hf
    · exact fun _ _ _ _ hf => nomatch hf
    · exact fun _ _ _ _ _ _ _ hf => nomatch hf
  · intro f hf
    cases List.mem_cons.mp hf with
    | inl heq => exact ⟨_, _, heq ▸ hkind ▸ addCrc_found h⟩
    | inr hf =>
      obtain ⟨ts₁, ts₂, hfound⟩ := hm.found f hf
      exact ⟨ts₁, ts₂, hfound.keep (addCrc_keeps h)⟩

/-! Runs that succeed. -/

/-- What a successful run over the functions has established. -/
structure RunOf (fns : List LSymbol) (m : Map) : Prop where
  closure : ClosureOf fns m
  leaves : LeavesOf fns m
  acyclic : Acyclic fns
  headed : Headed fns m

theorem runOf_empty : RunOf [] .empty where
  closure := closureOf_empty
  leaves := ⟨fun _ _ _ h => (nomatch h), fun _ h => (nomatch h)⟩
  acyclic := fun _ _ => not_coercionPath_nil
  headed := headed_empty

theorem add_acyclic (hm : RunOf fns m) (hcrc : createCrc ls = .ok crc) (h : addCrc m crc = .ok m') :
    Acyclic (ls :: fns) := by
  intro ts l hl
  obtain ⟨-, hls, hne⟩ := createCrc_ok hcrc
  have hback := hm.closure.not_back h
  rcases hl.split hls hne hback with hold | ⟨l1, l2, -, hl1, hl2⟩
  · exact hm.acyclic ts l hold
  · rcases hl1 with ⟨-, rfl⟩ | hl1 <;> rcases hl2 with ⟨-, heq⟩ | hl2
    · exact hne heq
    · exact hback ⟨l2, hl2⟩
    · exact hback ⟨l1, heq ▸ hl1⟩
    · exact hback ⟨l2 ++ l1, hl2.append hl1⟩

theorem add_runOf (hm : RunOf fns m) (h : add m ls = .ok m') : RunOf (ls :: fns) m' := by
  obtain ⟨crc, hcrc, hadd⟩ := bind_eq_ok.mp h
  obtain ⟨hclosure, hheaded⟩ := add_closureOf ⟨hm.closure, hm.headed⟩ h
  exact ⟨hclosure, add_leavesOf hm.closure.keyed hm.leaves h, add_acyclic hm hcrc hadd, hheaded⟩

/-- All paths between two symbols begin with the same function, and so on along them. -/
theorem RunOf.uniquePaths (hm : RunOf fns m) : UniquePaths fns := by
  intro ts₁ ts₂ l l' h h'
  have hfirst {ts₁ ts₂ : TySymbol} {l l' : List LSymbol} (h : CoercionPath fns ts₁ l ts₂)
      (h' : CoercionPath fns ts₁ l' ts₂) : l.head? = l'.head? := by
    obtain ⟨c, hc, hl⟩ := hm.headed _ _ _ h
    obtain ⟨c', hc', hl'⟩ := hm.headed _ _ _ h'
    cases hc.symm.trans hc'
    exact hl.trans hl'.symm
  induction h generalizing l' with
  | single hf hab =>
    have hhead := hfirst (.single hf hab) h'
    cases h' with
    | single _ _ => exact congrArg (fun x => [x]) (Option.some.inj hhead)
    | cons _ hab' hrest =>
      cases Option.some.inj hhead
      obtain ⟨-, rfl⟩ := hab.unique hab'
      exact absurd hrest (hm.acyclic _ _)
  | cons hf hab hrest ih =>
    have hhead := hfirst (.cons hf hab hrest) h'
    cases h' with
    | single _ hab' =>
      cases Option.some.inj hhead
      obtain ⟨-, rfl⟩ := hab.unique hab'
      exact absurd hrest (hm.acyclic _ _)
    | cons _ hab' hrest' =>
      cases Option.some.inj hhead
      obtain ⟨-, rfl⟩ := hab.unique hab'
      rw [ih _ hrest']

/-! Every way to put a map together is a run of additions. -/

theorem RunOf.mem_leaves (hm : RunOf fns m) : ls ∈ Coercion.leaves m ↔ ls ∈ fns := by
  rw [Coercion.mem_leaves]
  constructor
  · rintro ⟨ts₁, ts₂, c, hc, hkind⟩
    exact (hm.leaves.created _ _ _ hc ls hkind).1
  · exact hm.leaves.found ls

theorem Assembly.exists_runOf (h : a.build = .ok m) :
    ∃ fns, (∀ ls, ls ∈ fns ↔ ls ∈ a.functions) ∧ RunOf fns m := by
  induction a generalizing m with
  | empty =>
    cases h
    exact ⟨[], fun _ => .rfl, runOf_empty⟩
  | add a ls ih =>
    obtain ⟨m1, h1, h⟩ := bind_eq_ok.mp h
    obtain ⟨fns, hfns, hrun⟩ := ih h1
    exact ⟨ls :: fns, fun f => by simp only [functions, List.mem_cons, hfns], add_runOf hrun h⟩
  | union a1 a2 ih1 ih2 =>
    obtain ⟨m1, h1, h⟩ := bind_eq_ok.mp h
    obtain ⟨m2, h2, h⟩ := bind_eq_ok.mp h
    obtain ⟨fns1, hfns1, hrun1⟩ := ih1 h1
    obtain ⟨fns2, hfns2, hrun2⟩ := ih2 h2
    rw [union_eq hrun2.leaves] at h
    refine ⟨_, fun f => ?_, Except.foldlM_accumulates add_runOf hrun1 h⟩
    rw [List.mem_append, List.mem_reverse, hrun2.mem_leaves, hfns1, hfns2, functions,
      List.mem_append, or_comm]

theorem Assembly.graph_of_build {S : List LSymbol} (h : a.build = .ok m)
    (hS : S ⊆ a.functions) : Acyclic S ∧ UniquePaths S := by
  obtain ⟨fns, hfns, hrun⟩ := exists_runOf h
  have hsub : S ⊆ fns := fun f hf => (hfns f).mpr (hS hf)
  exact ⟨fun _ _ hl => hrun.acyclic _ _ (hl.mono hsub),
    fun _ _ _ _ hl hl' => hrun.uniquePaths _ _ _ _ (hl.mono hsub) (hl'.mono hsub)⟩

/-! Graphs without three functions in a row. -/

/-- The coercion is that of one function or of two. -/
inductive Composes : List LSymbol → Coercion → Prop
  | single {f : LSymbol} {c : Coercion} (h : createCrc f = .ok c) : Composes [f] c
  | pair {f g : LSymbol} {c d : Coercion} (h : createCrc f = .ok c) (h' : createCrc g = .ok d) :
      Composes [f, g] (compose c d)

theorem Composes.unique {l : List LSymbol} {c' : Coercion} (h : Composes l c)
    (h' : Composes l c') : c = c' := by
  cases h with
  | single h =>
    cases h' with
    | single h' => exact Except.ok.inj (h.symm.trans h')
  | pair hf hg =>
    cases h' with
    | pair hf' hg' =>
      cases hf.symm.trans hf'
      cases hg.symm.trans hg'
      rfl

/-- The entry of a path of at most two functions, composed from them. -/
def Canonical (S : List LSymbol) (ts₁ ts₂ : TySymbol) (c : Coercion) : Prop :=
  (c.crcSrcTs = ts₁ ∧ c.crcTarTs = ts₂) ∧ ∃ l, CoercionPath S ts₁ l ts₂ ∧ Composes l c

/-- A graph in which the maps do not depend on the order of the additions. -/
structure Unordered (S : List LSymbol) : Prop where
  acyclic : Acyclic S
  unique : UniquePaths S
  noChain : NoChain S

section Canonical

variable {S : List LSymbol}

theorem Unordered.canonical_unique (hS : Unordered S) {c' : Coercion} (h : Canonical S ts₁ ts₂ c)
    (h' : Canonical S ts₁ ts₂ c') : c = c' := by
  obtain ⟨-, l, hl, hc⟩ := h
  obtain ⟨-, l', hl', hc'⟩ := h'
  cases hS.unique _ _ _ _ hl hl'
  exact hc.unique hc'

theorem canonical_createCrc (hls : ls ∈ S)
    (hcrc : createCrc ls = .ok crc) : Canonical S crc.crcSrcTs crc.crcTarTs crc :=
  ⟨⟨rfl, rfl⟩, [ls], .single hls (createCrc_ok hcrc).2.1, .single hcrc⟩

theorem insert_total (hS : Unordered S) (hcrc : Canonical S crc.crcSrcTs crc.crcTarTs crc)
    (hm : Entries (Canonical S) m) : ∃ m', insert crc m = .ok m' ∧ Entries (Canonical S) m' := by
  suffices hok : ∃ m', insert crc m = .ok m' by
    obtain ⟨m', h⟩ := hok
    exact ⟨m', h, insert_entries h hm hcrc⟩
  rw [insert]
  cases hback : findCrc m crc.crcTarTs crc.crcSrcTs with
  | some back =>
    obtain ⟨-, l, hl, -⟩ := hcrc
    obtain ⟨-, l', hl', -⟩ := hm _ _ _ hback
    exact absurd (hl.append hl') (hS.acyclic _ _)
  | none =>
    simp only [findCrc_getD]
    cases hold : findCrc m crc.crcSrcTs crc.crcTarTs with
    | some old =>
      cases hS.canonical_unique (hm _ _ _ hold) hcrc
      exact ⟨m, if_pos (ckEq_iff.mpr rfl)⟩
    | none => exact ⟨_, rfl⟩

theorem Canonical.one_or_two (h : Canonical S ts₁ ts₂ c) :
    (∃ f ∈ S, createCrc f = .ok c ∧ Coerces f ts₁ ts₂) ∨
      ∃ f ∈ S, ∃ g ∈ S, ∃ ts, Coerces f ts₁ ts ∧ Coerces g ts ts₂ := by
  obtain ⟨-, l, hl, hcomp⟩ := h
  cases hcomp with
  | single hcreate =>
    cases hl with
    | single hf hedge => exact .inl ⟨_, hf, hcreate, hedge⟩
    | cons _ _ hrest => nomatch hrest
  | pair _ _ =>
    cases hl with
    | cons hf hedge hrest =>
      cases hrest with
      | single hg hedge' => exact .inr ⟨_, hf, _, hg, _, hedge, hedge'⟩
      | cons _ _ hrest => nomatch hrest

variable (hS : Unordered S) (hls : ls ∈ S) (hcrc : createCrc ls = .ok crc)

include hS hls hcrc in
/-- What follows a function is one function. -/
theorem Unordered.canonical_right {ts : TySymbol} (hc : Canonical S crc.crcTarTs ts c) :
    ∃ f ∈ S, createCrc f = .ok c ∧ Coerces f crc.crcTarTs ts := by
  refine hc.one_or_two.resolve_right ?_
  rintro ⟨f, hf, g, hg, ts', hfedge, hgedge⟩
  exact hS.noChain _ hls _ hf _ hg _ _ _ _ ⟨(createCrc_ok hcrc).2.1, hfedge, hgedge⟩

include hS hls hcrc in
theorem Unordered.canonical_left {ts : TySymbol} (hc : Canonical S ts crc.crcSrcTs c) :
    ∃ f ∈ S, createCrc f = .ok c ∧ Coerces f ts crc.crcSrcTs := by
  refine hc.one_or_two.resolve_right ?_
  rintro ⟨f, hf, g, hg, ts', hfedge, hgedge⟩
  exact hS.noChain _ hf _ hg _ hls _ _ _ _ ⟨hfedge, hgedge, (createCrc_ok hcrc).2.1⟩

theorem canonical_compose {f g : LSymbol} {d : Coercion} (hf : f ∈ S) (hg : g ∈ S)
    (hc : createCrc f = .ok c) (hd : createCrc g = .ok d) (heq : c.crcTarTs = d.crcSrcTs) :
    Canonical S (compose c d).crcSrcTs (compose c d).crcTarTs (compose c d) := by
  refine ⟨⟨rfl, rfl⟩, [f, g], ?_, .pair hc hd⟩
  exact .cons hf (createCrc_ok hc).2.1 (.single hg (heq ▸ (createCrc_ok hd).2.1))

include hS hls hcrc in
theorem addCrc_total (hm : Entries (Canonical S) m)
    : ∃ m', addCrc m crc = .ok m' ∧ Entries (Canonical S) m' := by
  obtain ⟨uc1, h1, hm1⟩ := insert_total hS (canonical_createCrc hls hcrc) hm
  obtain ⟨uc2, h2, hm2⟩ := foldlM_total (f := closeRight crc) (Entries (Canonical S)) hm1
    (l := ((uc1.find? crc.crcTarTs).getD .empty).bindings) (by
      intro macc x hx hmacc
      have hx := hm1 _ _ _ (mem_getD_bindings.mp hx)
      obtain ⟨g, hg, hgcrc, -⟩ := hS.canonical_right hls hcrc hx
      exact insert_total hS (canonical_compose hls hg hcrc hgcrc hx.1.1.symm) hmacc)
  obtain ⟨m', h3, hm'⟩ := foldlM_total (f := closeLeftRight crc) (Entries (Canonical S)) hm2
    (l := uc2.bindings) (by
      intro macc x hx hmacc
      rw [closeLeftRight]
      cases hc1 : x.2.find? crc.crcSrcTs with
      | none => exact ⟨macc, rfl, hmacc⟩
      | some c1 =>
        have hx := hm2 _ _ _ (findCrc_of_bindings hx hc1)
        obtain ⟨g, hg, hgcrc, hgedge⟩ := hS.canonical_left hls hcrc hx
        refine foldlM_total _ hmacc fun macc' y hy hmacc' => ?_
        rcases mem_add_bindings.mp hy with ⟨-, heq⟩ | ⟨-, hy⟩
        · rw [closeRight, heq]
          exact insert_total hS (canonical_compose hg hls hgcrc hcrc hx.1.2) hmacc'
        · -- the function would stand between two others
          obtain ⟨h, hh, -, hhedge⟩ := hS.canonical_right hls hcrc (hmacc _ _ _ hy)
          exact absurd ⟨hgedge, (createCrc_ok hcrc).2.1, hhedge⟩
            (hS.noChain _ hg _ hls _ hh _ _ _ _))
  refine ⟨m', ?_, hm'⟩
  exact bind_eq_ok.mpr ⟨uc1, h1, bind_eq_ok.mpr ⟨uc2, h2, h3⟩⟩

section

variable (hS : Unordered S) (hfns : ∀ ls ∈ S, ∃ ts₁ ts₂, Coerces ls ts₁ ts₂)
include hS hfns

theorem add_total (hls : ls ∈ S) (hm : Entries (Canonical S) m) :
    ∃ m', add m ls = .ok m' ∧ Entries (Canonical S) m' := by
  obtain ⟨ts₁, ts₂, hedge⟩ := hfns ls hls
  have hne : ts₁ ≠ ts₂ := by
    rintro rfl
    exact hS.acyclic _ _ (.single hls hedge)
  obtain ⟨tl1, tl2, hargs, hvalue⟩ := hedge
  have hcrc : createCrc ls = .ok ⟨.crcLeaf ls, ts₁, tl1, ts₂, tl2⟩ := by
    rw [createCrc, hargs, hvalue]
    exact if_neg hne
  rw [add, hcrc]
  exact addCrc_total hS hls hcrc hm

theorem Assembly.build_total (ha : a.functions ⊆ S) :
    ∃ m, a.build = .ok m ∧ Entries (Canonical S) m := by
  induction a with
  | empty => exact ⟨.empty, rfl, fun _ _ _ h => nomatch h⟩
  | add a ls ih =>
    obtain ⟨hls, ha⟩ := List.cons_subset.mp ha
    obtain ⟨m, h, hm⟩ := ih ha
    rw [build, h]
    exact add_total hS hfns hls hm
  | union a1 a2 ih1 ih2 =>
    obtain ⟨ha1, ha2⟩ := List.append_subset.mp ha
    obtain ⟨m1, h1, hm1⟩ := ih1 ha1
    obtain ⟨m2, h2, -⟩ := ih2 ha2
    obtain ⟨fns, hfns2, hrun⟩ := exists_runOf h2
    rw [build, h1, h2]
    simp only [Except.ok_bind, union_eq hrun.leaves]
    refine foldlM_total _ hm1 fun m ls hls hm => add_total hS hfns ?_ hm
    exact ha2 ((hfns2 ls).mp (hrun.mem_leaves.mp hls))

/-- A map that covers the functions has the coercions of their paths. -/
theorem Assembly.findCrc_iff (ha : a.functions ⊆ S) (hcover : S ⊆ a.functions) (h : a.build = .ok m)
    (ts₁ ts₂ : TySymbol) (c : Coercion) : findCrc m ts₁ ts₂ = some c ↔ Canonical S ts₁ ts₂ c := by
  obtain ⟨m', h', hm⟩ := build_total hS hfns ha
  cases h.symm.trans h'
  refine ⟨fun hc => hm _ _ _ hc, fun hc => ?_⟩
  obtain ⟨fns, hmem, hrun⟩ := exists_runOf h
  obtain ⟨-, l, hl, -⟩ := id hc
  obtain ⟨c', hc'⟩ := hrun.closure.exists_crc (hl.mono fun f hf => (hmem f).mpr (hcover hf))
  rw [hc', hS.canonical_unique (hm _ _ _ hc') hc]

end

end Canonical

theorem find_congr (h : ∀ ts₁ ts₂, findCrc m ts₁ ts₂ = findCrc m' ts₁ ts₂)
    (ty1 ty2 : Ty) : find m ty1 ty2 = find m' ty1 ty2 := by
  cases ty1 with
  | tyvar v => rfl
  | tyapp ts₁ tl1 =>
    cases ty2 with
    | tyvar v => rfl
    | tyapp ts₂ tl2 => simp only [find, h]

/-- Over an acyclic graph with at most one path between two type symbols and no
three functions in a row, every way to put a map together from the functions
succeeds and all ways that cover them find the same lists. Over a graph with a
cycle or two paths every way that covers it fails. -/
theorem assembly_independent {S : List LSymbol} (hfns : ∀ ls ∈ S, ∃ ts₁ ts₂, Coerces ls ts₁ ts₂) :
    (Acyclic S → UniquePaths S → NoChain S →
      (∀ a : Assembly, a.functions ⊆ S → ∃ m, a.build = .ok m) ∧
      ∀ a b : Assembly, a.functions ⊆ S → S ⊆ a.functions → b.functions ⊆ S → S ⊆ b.functions →
        ∀ m m', a.build = .ok m → b.build = .ok m' → ∀ ty₁ ty₂, find m ty₁ ty₂ = find m' ty₁ ty₂) ∧
    (¬ (Acyclic S ∧ UniquePaths S) →
      ∀ a : Assembly, a.functions ⊆ S → S ⊆ a.functions → ∃ e, a.build = .error e) := by
  refine ⟨fun hacyclic hunique hnochain => ⟨fun a ha => ?_, ?_⟩, fun hgraph a _ hcover => ?_⟩
  · obtain ⟨m, h, -⟩ := a.build_total ⟨hacyclic, hunique, hnochain⟩ hfns ha
    exact ⟨m, h⟩
  · intro a b ha hacover hb hbcover m m' hm hm' ty₁ ty₂
    refine find_congr (fun ts₁ ts₂ => Option.ext fun c => ?_) ty₁ ty₂
    rw [a.findCrc_iff ⟨hacyclic, hunique, hnochain⟩ hfns ha hacover hm,
      b.findCrc_iff ⟨hacyclic, hunique, hnochain⟩ hfns hb hbcover hm']
  · cases h : a.build with
    | error e => exact ⟨e, rfl⟩
    | ok m => exact absurd (Assembly.graph_of_build h hcover) hgraph

def ofAdds (fns : List LSymbol) : Assembly := fns.foldl .add .empty

theorem chainLs_coerces {fns : List Nat} :
    ∀ ls ∈ fns.map chainLs, ∃ ts₁ ts₂, Coerces ls ts₁ ts₂ :=
  List.forall_mem_map.mpr fun _ _ => ⟨_, _, [], [], rfl, rfl⟩

/-- Two functions in a row, added from the right or put together from two maps. -/
theorem assembly_independent_two : ∃ m m', (ofAdds [chainLs 1, chainLs 0]).build = .ok m ∧
      (Assembly.union (ofAdds [chainLs 0]) (ofAdds [chainLs 1, chainLs 0])).build = .ok m' ∧
      ∀ ty₁ ty₂, find m ty₁ ty₂ = find m' ty₁ ty₂ := by
  have hrun : (ofAdds [chainLs 1, chainLs 0]).build = .ok (afterAdds [chainLs 1, chainLs 0]) := rfl
  obtain ⟨hacyclic, hunique⟩ := Assembly.graph_of_build hrun (S := [0, 1].map chainLs) (by decide)
  have hnochain : NoChain ([0, 1].map chainLs) := by
    intro f hf g hg h hh ts₁ ts₂ ts3 ts4 hchain
    obtain ⟨i, hi, rfl⟩ := List.mem_map.mp hf
    obtain ⟨j, hj, rfl⟩ := List.mem_map.mp hg
    obtain ⟨k, hk, rfl⟩ := List.mem_map.mp hh
    obtain ⟨hf, hg, hh⟩ := hchain
    have hij := (coerces_chainLs hf).2.symm.trans (coerces_chainLs hg).1
    have hjk := (coerces_chainLs hg).2.symm.trans (coerces_chainLs hh).1
    simp only [chainTs, TySymbol.mk.injEq, Ident.mk.injEq] at hij hjk
    simp only [List.mem_cons, List.not_mem_nil, or_false] at hi hk
    omega
  obtain ⟨htotal, hsame⟩ := (assembly_independent chainLs_coerces).1 hacyclic hunique hnochain
  obtain ⟨m, hm⟩ := htotal (ofAdds [chainLs 1, chainLs 0]) (by decide)
  obtain ⟨m', hm'⟩ :=
    htotal (.union (ofAdds [chainLs 0]) (ofAdds [chainLs 1, chainLs 0])) (by decide)
  exact ⟨m, m', hm, hm', hsame _ _ (by decide) (by decide) (by decide) (by decide) m m' hm hm'⟩

/-- With three functions in a row a function cannot be added again, and the list
found depends on the order of the additions. -/
theorem assembly_chain :
    Acyclic [chainLs 0, chainLs 1, chainLs 2] ∧ UniquePaths [chainLs 0, chainLs 1, chainLs 2] ∧
    (∃ crc, (ofAdds [chainLs 0, chainLs 1, chainLs 2, chainLs 0]).build =
      .error (.coercionAlreadyDefined crc)) ∧
    ∃ m m', (ofAdds [chainLs 0, chainLs 1, chainLs 2]).build = .ok m ∧
      (ofAdds [chainLs 0, chainLs 2, chainLs 1]).build = .ok m' ∧
      find m (.tyapp (chainTs 0) []) (.tyapp (chainTs 3) []) =
        .ok [chainLs 0, chainLs 1, chainLs 2] ∧
      find m' (.tyapp (chainTs 0) []) (.tyapp (chainTs 3) []) = .ok [chainLs 0, chainLs 2] := by
  have hrun : (ofAdds [chainLs 0, chainLs 1, chainLs 2]).build =
      .ok (afterAdds [chainLs 0, chainLs 1, chainLs 2]) := rfl
  obtain ⟨hacyclic, hunique⟩ := Assembly.graph_of_build hrun
    (S := [chainLs 0, chainLs 1, chainLs 2]) (by decide)
  exact ⟨hacyclic, hunique, ⟨_, rfl⟩, _, _, hrun, rfl, rfl, rfl⟩

end Coercion
end Why3
