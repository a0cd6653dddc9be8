import Mathlib

/-!
Doubly linked lists whose ends point to themselves.

The links of the nodes represent the list of the nodes from the left end to the right
one. Taking a node out of the links takes it out of the list.
-/

structure Linked (ν : Type) where
  prev : ν → ν
  next : ν → ν

namespace Linked

open Function (update update_of_ne update_self)
open List

variable {ν : Type} [DecidableEq ν]

/-- Nodes on their own. -/
def alone : Linked ν := ⟨id, id⟩

/-- The node `y` after `x`. -/
def link (l : Linked ν) (x y : ν) : Linked ν :=
  ⟨update l.prev y x, update l.next x y⟩

/-- A pass over the pairs of neighbours. -/
def iterPairs {σ : Type} (f : ν → ν → σ → σ) : List ν → σ → σ
  | x :: y :: xs, s => iterPairs f (y :: xs) (f x y s)
  | _, s => s

/-- The nodes one after the other. -/
def build (xs : List ν) : Linked ν := iterPairs (fun x y l => l.link x y) xs alone

def remove (l : Linked ν) (x : ν) : Linked ν :=
  let p := l.prev x
  let n := l.next x
  if p = x then { l with prev := update l.prev n n }
  else if n = x then { l with next := update l.next p p }
  else ⟨update l.prev n p, update l.next p n⟩

/-- The links of the nodes of the list. -/
structure Rep (l : Linked ν) (xs : List ν) : Prop where
  nodup : xs.Nodup
  next : ∀ {i x y}, xs[i]? = some x → xs[i + 1]? = some y → l.next x = y
  prev : ∀ {i x y}, xs[i]? = some x → xs[i + 1]? = some y → l.prev y = x
  first : ∀ {x}, xs[0]? = some x → l.prev x = x
  last : ∀ {i x}, xs[i]? = some x → xs[i + 1]? = none → l.next x = x

variable {l : Linked ν} {xs : List ν}

omit [DecidableEq ν] in
/-- The links as those of neighbours, and of the two ends. -/
theorem rep_iff : l.Rep xs ↔ xs.Nodup ∧ xs.IsChain (fun x y => l.next x = y ∧ l.prev y = x) ∧
    (∀ x ∈ xs.head?, l.prev x = x) ∧ ∀ x ∈ xs.getLast?, l.next x = x := by
  rw [isChain_iff_getElem, head?_eq_getElem?, getLast?_eq_getElem?]
  constructor
  · intro h
    refine ⟨h.nodup, fun i hi => ?_, fun x hx => h.first hx, fun x hx => h.last hx ?_⟩
    · have hx := List.getElem?_eq_getElem (Nat.lt_of_succ_lt hi)
      have hy := List.getElem?_eq_getElem hi
      exact ⟨h.next hx hy, h.prev hx hy⟩
    · exact List.getElem?_eq_none (by omega)
  · rintro ⟨hnd, hchain, hfirst, hlast⟩
    have hpair : ∀ {i x y}, xs[i]? = some x → xs[i + 1]? = some y →
        l.next x = y ∧ l.prev y = x := by
      intro i x y hx hy
      obtain ⟨_, rfl⟩ := List.getElem?_eq_some_iff.mp hx
      obtain ⟨hi, rfl⟩ := List.getElem?_eq_some_iff.mp hy
      exact hchain i hi
    refine ⟨hnd, fun hx hy => (hpair hx hy).1, fun hx hy => (hpair hx hy).2,
      fun hx => hfirst _ hx, fun {i x} hx hend => hlast x ?_⟩
    have hlt := (List.getElem?_eq_some_iff.mp hx).1
    rw [List.getElem?_eq_none_iff] at hend
    rwa [show xs.length - 1 = i by omega]

variable {a b : List ν} {x : ν}

omit [DecidableEq ν] in
theorem Rep.prev_append (h : l.Rep (a ++ x :: b)) : l.prev x = a.getLast?.getD x := by
  obtain ⟨-, hchain, hfirst, -⟩ := rep_iff.mp h
  obtain rfl | ⟨a, p, rfl⟩ := a.eq_nil_or_concat'
  · exact hfirst x rfl
  · rw [((isChain_append.mp hchain).2.2 p (by simp) x rfl).2, getLast?_concat]
    rfl

omit [DecidableEq ν] in
theorem Rep.next_append (h : l.Rep (a ++ x :: b)) : l.next x = b.head?.getD x := by
  obtain ⟨-, hchain, -, hlast⟩ := rep_iff.mp h
  cases b with
  | nil => exact hlast x (by simp)
  | cons n b => exact (isChain_append_cons_cons.mp hchain).2.1.1

/-- Every pair is linked and nothing else changes. -/
theorem iterPairs_link {xs : List ν} (hnd : xs.Nodup) (l : Linked ν) :
    xs.IsChain (fun x y => (iterPairs (fun x y l => link l x y) xs l).next x = y ∧
      (iterPairs (fun x y l => link l x y) xs l).prev y = x) ∧
    (∀ u, u ∉ xs.dropLast → (iterPairs (fun x y l => link l x y) xs l).next u = l.next u) ∧
    ∀ u, u ∉ xs.tail → (iterPairs (fun x y l => link l x y) xs l).prev u = l.prev u := by
  induction xs generalizing l with
  | nil => exact ⟨.nil, fun _ _ => rfl, fun _ _ => rfl⟩
  | cons x xs ih =>
    cases xs with
    | nil => exact ⟨.singleton x, fun _ _ => rfl, fun _ _ => rfl⟩
    | cons y xs =>
      obtain ⟨hx, hnd⟩ := nodup_cons.mp hnd
      obtain ⟨hchain, hnext, hprev⟩ := ih hnd (l.link x y)
      rw [iterPairs]
      refine ⟨isChain_cons_cons.mpr ⟨?_, hchain⟩, ?_, ?_⟩
      · rw [hnext x fun h => hx (dropLast_subset _ h), hprev y (nodup_cons.mp hnd).1]
        exact ⟨update_self _ _ _, update_self _ _ _⟩
      · intro u hu
        rw [dropLast_cons_cons, mem_cons, not_or] at hu
        rw [hnext u hu.2]
        exact update_of_ne hu.1 _ _
      · intro u hu
        rw [tail_cons, mem_cons, not_or] at hu
        rw [hprev u hu.2]
        exact update_of_ne hu.1 _ _

theorem rep_build (hnd : xs.Nodup) : (build xs).Rep xs := by
  obtain ⟨hchain, hnext, hprev⟩ := iterPairs_link hnd alone
  refine rep_iff.mpr ⟨hnd, hchain, fun x hx => hprev x ?_, fun x hx => hnext x ?_⟩
  · obtain ⟨xs, rfl⟩ := head?_eq_some_iff.mp hx
    exact (nodup_cons.mp hnd).1
  · obtain ⟨xs, rfl⟩ := getLast?_eq_some_iff.mp hx
    rw [dropLast_concat]
    exact fun h => (nodup_append.mp hnd).2.2 x h x mem_cons_self rfl

omit [DecidableEq ν] in
theorem isChain_imp {R S : ν → ν → Prop} (h : xs.IsChain R)
    (hRS : ∀ u v, u ∈ xs.dropLast → v ∈ xs.tail → R u v → S u v) : xs.IsChain S := by
  rw [isChain_iff_forall_rel_of_append_cons_cons] at h ⊢
  rintro u v a b rfl
  refine hRS u v (by simp) ?_ (h rfl)
  cases a <;> simp

omit [DecidableEq ν] in
/-- The links without a node, if only those of its neighbours change. -/
theorem Rep.join {l' : Linked ν} (h : l.Rep (a ++ x :: b))
    (hnext : ∀ u, a.getLast? ≠ some u → l'.next u = l.next u)
    (hprev : ∀ v, b.head? ≠ some v → l'.prev v = l.prev v)
    (hp : ∀ u, a.getLast? = some u → l'.next u = b.head?.getD u)
    (hn : ∀ v, b.head? = some v → l'.prev v = a.getLast?.getD v) : l'.Rep (a ++ b) := by
  obtain ⟨hnd, hchain, hfirst, hlast⟩ := rep_iff.mp h
  have hnd' : (a ++ b).Nodup := hnd.sublist ((sublist_cons_self x b).append_left a)
  obtain ⟨hda, hdb, hdab⟩ := nodup_append.mp hnd'
  refine rep_iff.mpr ⟨hnd', isChain_append.mpr ⟨?_, ?_, fun u hu v hv => ?_⟩, ?_, ?_⟩
  · refine isChain_imp hchain.left_of_append fun u v hu hv h => ?_
    rw [hnext, hprev]
    · exact h
    · exact fun hv' => hdab v (mem_of_mem_tail hv) v (mem_of_mem_head? hv') rfl
    · rintro hu'
      obtain ⟨a, rfl⟩ := getLast?_eq_some_iff.mp hu'
      rw [dropLast_concat] at hu
      exact (nodup_append.mp hda).2.2 u hu u mem_cons_self rfl
  · refine isChain_imp hchain.right_of_append.tail fun u v hu hv h => ?_
    rw [hnext, hprev]
    · exact h
    · rintro hv'
      obtain ⟨b, rfl⟩ := head?_eq_some_iff.mp hv'
      exact (nodup_cons.mp hdb).1 hv
    · exact fun hu' => hdab u (mem_of_mem_getLast? hu') u (dropLast_subset _ hu) rfl
  · rw [hp u hu, hn v hv, Option.mem_def.mp hu, Option.mem_def.mp hv]
    exact ⟨rfl, rfl⟩
  · intro y hy
    cases a with
    | nil => exact hn y hy
    | cons z a =>
      rw [hprev y fun hy' => hdab y (mem_of_mem_head? hy) y (mem_of_mem_head? hy') rfl]
      exact hfirst y hy
  · intro y hy
    cases b with
    | nil => exact hp y (by simpa using hy)
    | cons z b =>
      rw [getLast?_append_cons] at hy
      rw [hnext y fun hy' => hdab y (mem_of_mem_getLast? hy') y (mem_of_mem_getLast? hy) rfl]
      exact hlast y (by simpa using hy)

/-- Taking a node out. -/
theorem Rep.remove (h : l.Rep (a ++ x :: b)) : (l.remove x).Rep (a ++ b) := by
  have hp := h.prev_append
  have hn := h.next_append
  have hnot := (nodup_cons.mp (nodup_middle.mp h.nodup)).1
  have hpa : a.getLast? ≠ some x := fun he => hnot (mem_append_left b (mem_of_mem_getLast? he))
  have hnb : b.head? ≠ some x := fun he => hnot (mem_append_right a (mem_of_mem_head? he))
  have hao := a.getLast?.eq_none_or_eq_some
  have hbo := b.head?.eq_none_or_eq_some
  rw [Linked.remove]
  split_ifs with hpx hnx
  all_goals refine h.join ?_ ?_ ?_ ?_ <;> grind [Function.update_apply]

end Linked
