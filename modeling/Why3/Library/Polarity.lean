import Mathlib

/-!
Propositions that follow each other in the direction of a polarity.

A positive polarity is an implication, a negative one its converse, and without a polarity
the propositions are equivalent. Each connective carries this from its arguments to the whole.
-/
namespace Why3

/-- `b` is above, below or equivalent to `a`. -/
def Follows : Option Bool → Prop → Prop → Prop
  | some true, a, b => a → b
  | some false, a, b => b → a
  | none, a, b => a ↔ b

namespace Follows

variable {pol : Option Bool} {a b c d : Prop}

theorem of_iff (h : a ↔ b) : Follows pol a b := by
  rcases pol with _ | _ | _
  · exact h
  · exact h.mpr
  · exact h.mp

theorem iff_of_both (h : Follows pol a b) (h' : Follows (pol.map Bool.not) a b) : a ↔ b := by
  rcases pol with _ | _ | _
  · exact h
  · exact ⟨h', h⟩
  · exact ⟨h, h'⟩

theorem and (h : Follows pol a b) (h' : Follows pol c d) : Follows pol (a ∧ c) (b ∧ d) := by
  rcases pol with _ | _ | _
  · exact and_congr h h'
  · exact And.imp h h'
  · exact And.imp h h'

theorem or (h : Follows pol a b) (h' : Follows pol c d) : Follows pol (a ∨ c) (b ∨ d) := by
  rcases pol with _ | _ | _
  · exact or_congr h h'
  · exact Or.imp h h'
  · exact Or.imp h h'

theorem imp (h : Follows (pol.map not) a b) (h' : Follows pol c d) :
    Follows pol (a → c) (b → d) := by
  rcases pol with _ | _ | _
  · exact imp_congr h h'
  · exact fun hbd ha => h' (hbd (h ha))
  · exact fun hac hb => h' (hac (h hb))

theorem not (h : Follows (pol.map Bool.not) a b) : Follows pol (¬ a) (¬ b) :=
  imp h (of_iff Iff.rfl)

theorem neg (h : Follows pol a b) : Follows (pol.map Bool.not) (¬ a) (¬ b) := by
  refine not ?_
  rcases pol with _ | _ | _
  · exact h
  · exact h
  · exact h

theorem all {ι : Sort*} {p q : ι → Prop} (h : ∀ i, Follows pol (p i) (q i)) :
    Follows pol (∀ i, p i) (∀ i, q i) := by
  rcases pol with _ | _ | _
  · exact forall_congr' h
  · exact forall_imp h
  · exact forall_imp h

theorem ex {ι : Sort*} {p q : ι → Prop} (h : ∀ i, Follows pol (p i) (q i)) :
    Follows pol (∃ i, p i) (∃ i, q i) := by
  rcases pol with _ | _ | _
  · exact exists_congr h
  · exact Exists.imp h
  · exact Exists.imp h

end Follows

end Why3
