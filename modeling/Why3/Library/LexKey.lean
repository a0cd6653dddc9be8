import Why3.Library.Except

/-!
Comparison by exceptions.

A comparison walks two structures in parallel and raises an exception at the first
difference. It is right when it decides the lexicographic order of two keys; this is proved
piece by piece, as the keys are the concatenation of the keys of the parts.
-/
namespace Why3

/-- The keys differ at some position, where the first one is smaller: whatever follows does
not matter. -/
def Precedes {κ : Type} [LT κ] (l₁ l₂ : List κ) : Prop :=
  ∃ p a b s₁ s₂, l₁ = p ++ a :: s₁ ∧ l₂ = p ++ b :: s₂ ∧ a < b

namespace Precedes

variable {κ : Type} [LT κ] {l₁ l₂ : List κ}

theorem head {a b : κ} (h : a < b) (s1 s2 : List κ) : Precedes (a :: s1) (b :: s2) :=
  ⟨[], a, b, s1, s2, rfl, rfl, h⟩

theorem append (h : Precedes l₁ l₂) (m1 m2 : List κ) : Precedes (l₁ ++ m1) (l₂ ++ m2) := by
  obtain ⟨p, a, b, s1, s2, rfl, rfl, hlt⟩ := h
  refine ⟨p, a, b, s1 ++ m1, s2 ++ m2, ?_, ?_, hlt⟩
  · rw [List.append_assoc, List.cons_append]
  · rw [List.append_assoc, List.cons_append]

theorem prepend (h : Precedes l₁ l₂) (m : List κ) : Precedes (m ++ l₁) (m ++ l₂) := by
  obtain ⟨p, a, b, s1, s2, rfl, rfl, hlt⟩ := h
  refine ⟨m ++ p, a, b, s1, s2, ?_, ?_, hlt⟩
  · rw [List.append_assoc]
  · rw [List.append_assoc]

theorem lt (h : Precedes l₁ l₂) : l₁ < l₂ := by
  obtain ⟨p, a, b, s1, s2, rfl, rfl, hlt⟩ := h
  exact List.append_left_lt (List.Lex.rel hlt)

theorem ne {κ : Type} [Preorder κ] {l₁ l₂ : List κ} (h : Precedes l₁ l₂) : l₁ ≠ l₂ := by
  obtain ⟨p, a, b, s1, s2, rfl, rfl, hlt⟩ := h
  exact fun he => hlt.ne (List.cons.inj (List.append_cancel_left he)).1

end Precedes

/-- The result of a comparison of two structures with the keys `l₁` and `l₂`: a value with
the property `P` when the keys are equal, else the exception that says which is smaller. -/
inductive Compares {ε α κ : Type} [LT κ] (lt gt : ε) (P : α → Prop) :
    Except ε α → List κ → List κ → Prop
  | eq {a : α} (l : List κ) : P a → Compares lt gt P (.ok a) l l
  | lt {l₁ l₂ : List κ} : Precedes l₁ l₂ → Compares lt gt P (.error lt) l₁ l₂
  | gt {l₁ l₂ : List κ} : Precedes l₂ l₁ → Compares lt gt P (.error gt) l₁ l₂

namespace Compares

variable {ε α β κ : Type} [LT κ] {lt gt : ε} {P : α → Prop} {r : Except ε α} {l₁ l₂ : List κ}

section

variable (h : Compares lt gt P r l₁ l₂)
include h

theorem imp {P' : α → Prop} (hP : ∀ a, P a → P' a) : Compares lt gt P' r l₁ l₂ := by
  cases h with
  | eq _ ha => exact .eq _ (hP _ ha)
  | lt h => exact .lt h
  | gt h => exact .gt h

theorem prepend (m : List κ) : Compares lt gt P r (m ++ l₁) (m ++ l₂) := by
  cases h with
  | eq _ ha => exact .eq _ ha
  | lt h => exact .lt (h.prepend m)
  | gt h => exact .gt (h.prepend m)

theorem cons (a : κ) : Compares lt gt P r (a :: l₁) (a :: l₂) := h.prepend [a]

/-- The second comparison is made only when the first one finds no difference. -/
theorem bind {P' : β → Prop} {f : α → Except ε β} {m1 m2 : List κ}
    (hf : ∀ a, P a → Compares lt gt P' (f a) m1 m2) :
    Compares lt gt P' (r >>= f) (l₁ ++ m1) (l₂ ++ m2) := by
  cases h with
  | @eq a _ ha => exact (hf a ha).prepend _
  | lt h => exact .lt (h.append m1 m2)
  | gt h => exact .gt (h.append m2 m1)

/-- A computation after the comparison that finds no difference. -/
theorem andThen {P' : β → Prop} {f : α → Except ε β} (hf : ∀ a, P a → ∃ b, f a = .ok b ∧ P' b)
    : Compares lt gt P' (r >>= f) l₁ l₂ := by
  cases h with
  | @eq a _ ha =>
    obtain ⟨b, hb, hP⟩ := hf a ha
    change Compares lt gt P' (f a) _ _
    rw [hb]
    exact .eq _ hP
  | lt h => exact .lt h
  | gt h => exact .gt h

end

/-- What a comparison that finds no difference says. -/
theorem ok_iff {κ : Type} [Preorder κ] {p : Prop} {r : Except ε Unit} {l₁ l₂ : List κ}
    (h : Compares lt gt (fun _ => p) r l₁ l₂) (hp : p → l₁ = l₂) : r = .ok () ↔ p := by
  cases h with
  | eq _ h => exact iff_of_true rfl h
  | lt h => exact iff_of_false nofun fun hq => h.ne (hp hq)
  | gt h => exact iff_of_false nofun fun hq => h.ne (hp hq).symm

end Compares
end Why3
