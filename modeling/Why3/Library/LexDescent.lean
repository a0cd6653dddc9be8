import Mathlib

/-!
Lexicographic descent.

A vector goes down along a list of positions when it goes down at one of them
and is unchanged at those before it. A relation with finitely many colours is
well-founded as soon as its transitive closure is so on each colour.
-/
namespace LexDescent

open Relation

section Positions

variable {α : Type} {r : α → α → Prop}

/-- The entries at a position are there and related. -/
def At (r : α → α → Prop) (i : Nat) (w v : List α) : Prop :=
  ∃ x y, w[i]? = some x ∧ v[i]? = some y ∧ r x y

def Lex (r : α → α → Prop) : List Nat → List α → List α → Prop
  | [], _, _ => False
  | i :: is, w, v => At r i w v ∨ (w[i]? = v[i]? ∧ Lex r is w v)

/-- The relation between entries that may be missing. -/
private def OptRel (r : α → α → Prop) (o p : Option α) : Prop :=
  ∃ x y, o = some x ∧ p = some y ∧ r x y

private theorem optRel_wellFounded (hr : WellFounded r) : WellFounded (OptRel r) := by
  have hnone : Acc (OptRel r) none := ⟨none, fun _ ⟨_, _, _, h, _⟩ => by cases h⟩
  have hsome : ∀ x, Acc (OptRel r) (some x) := by
    intro x
    induction x using hr.induction with
    | _ x ih =>
      refine ⟨some x, ?_⟩
      intro o h
      obtain ⟨y, x', rfl, hx, hyx⟩ := h
      cases hx
      exact ih y hyx
  refine ⟨fun o => ?_⟩
  cases o with
  | none => exact hnone
  | some x => exact hsome x

theorem lex_wellFounded (hr : WellFounded r) (is : List Nat) : WellFounded (Lex r is) := by
  induction is with
  | nil => exact ⟨fun v => ⟨v, fun _ h => h.elim⟩⟩
  | cons i is ih =>
    have hprod := (Prod.lex ⟨_, optRel_wellFounded hr⟩ ⟨_, ih⟩).wf
    refine Subrelation.wf ?_ (InvImage.wf (fun v : List α => (v[i]?, v)) hprod)
    intro w v h
    obtain h | ⟨heq, h⟩ := h
    · exact Prod.Lex.left _ _ h
    · change Prod.Lex _ _ (w[i]?, w) (v[i]?, v)
      rw [heq]
      exact Prod.Lex.right _ h

variable {v w : List α}

theorem At.trans [IsTrans α r] {i : Nat} {u : List α} (h : At r i u w) (h' : At r i w v) :
    At r i u v := by
  obtain ⟨x, y, hx, hy, hxy⟩ := h
  obtain ⟨y', z, hy', hz, hyz⟩ := h'
  rw [hy] at hy'
  cases hy'
  exact ⟨x, z, hx, hz, IsTrans.trans _ _ _ hxy hyz⟩

theorem Lex.trans [IsTrans α r] {is : List Nat} {u : List α} (h : Lex r is u w)
    (h' : Lex r is w v) : Lex r is u v := by
  induction is with
  | nil => exact h.elim
  | cons i is ih =>
    obtain h | ⟨heq, h⟩ := h
    · obtain h' | ⟨heq', -⟩ := h'
      · exact .inl (h.trans h')
      · obtain ⟨x, y, hx, hy, hxy⟩ := h
        exact .inl ⟨x, y, hx, heq' ▸ hy, hxy⟩
    · obtain h' | ⟨heq', h'⟩ := h'
      · obtain ⟨x, y, hx, hy, hxy⟩ := h'
        exact .inl ⟨x, y, heq ▸ hx, hy, hxy⟩
      · exact .inr ⟨heq.trans heq', ih h h'⟩

/-- It is enough not to go up before the position that goes down. -/
theorem lex_of_prefix {front back : List Nat} {i : Nat} (hfront : ∀ j ∈ front, At (ReflGen r) j w v)
    (hi : At r i w v) : Lex r (front ++ i :: back) w v := by
  induction front with
  | nil => exact .inl hi
  | cons j front ih =>
    have hrest := ih (List.forall_mem_cons.mp hfront).2
    obtain ⟨x, y, hx, hy, hxy⟩ := hfront j List.mem_cons_self
    cases hxy with
    | refl => exact .inr ⟨by rw [hx, hy], hrest⟩
    | single hxy => exact .inl ⟨x, y, hx, hy, hxy⟩

end Positions

section Colours

variable {α ι : Type} {r : α → α → Prop}

private theorem transGen_of_lt {f : ℕ → α} (hf : ∀ n, r (f (n + 1)) (f n)) {m n : ℕ}
    (h : m < n) : TransGen r (f n) (f m) := by
  induction h with
  | refl => exact .single (hf m)
  | step _ ih => exact .head (hf _) ih

theorem wellFounded_of_colour (colour : α → ι) (S : Finset ι) (hS : ∀ a b, r a b → colour b ∈ S)
    (h : ∀ i ∈ S, WellFounded fun a b => TransGen r a b ∧ colour a = i ∧ colour b = i) :
    WellFounded r := by
  rw [wellFounded_iff_isEmpty_descending_chain]
  refine ⟨?_⟩
  intro ⟨f, hf⟩
  -- Some colour comes back for ever along the chain.
  obtain ⟨⟨i, hi⟩, hinf⟩ :=
    Finite.exists_infinite_fiber fun n : ℕ => (⟨colour (f n), hS _ _ (hf n)⟩ : S)
  have hset : Set.Infinite {n : ℕ | colour (f n) = i} := by
    refine Set.infinite_coe_iff.mp (hinf.of_injective (fun n => ⟨n.1, ?_⟩) ?_)
    · exact congrArg Subtype.val n.2
    · intro m n hmn
      exact Subtype.ext (Subtype.mk.inj hmn)
  have hsub : ∀ n, colour (f (Nat.nth (fun n => colour (f n) = i) n)) = i :=
    fun n => Nat.nth_mem_of_infinite hset n
  have hchain := wellFounded_iff_isEmpty_descending_chain.mp (h i hi)
  refine hchain.false ⟨fun n => f (Nat.nth (fun n => colour (f n) = i) n), ?_⟩
  intro n
  exact ⟨transGen_of_lt hf (Nat.nth_strictMono hset (Nat.lt_succ_self n)), hsub _, hsub _⟩

end Colours

end LexDescent
