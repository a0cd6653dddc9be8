import Mathlib
/-!
Imperative actions. An action changes a state and ends normally or with an
exception; after an exception the changes made so far stay. `Runs P a Q` says
that from a state with `P` the action ends normally in a state with `Q`.
-/

abbrev Procedure (ε σ : Type) := σ → Except ε Unit × σ

namespace Procedure

variable {α ε σ : Type} {P Q R : σ → Prop}

def skip : Procedure ε σ := fun s => (.ok (), s)

def raise (e : ε) : Procedure ε σ := fun s => (.error e, s)

def update (f : σ → σ) : Procedure ε σ := fun s => (.ok (), f s)

def andThen (a b : Procedure ε σ) : Procedure ε σ := fun s =>
  match a s with
  | (.ok (), s) => b s
  | (.error e, s) => (.error e, s)

/-- Exceptions that the handler has no action for are raised again. -/
def handle (a : Procedure ε σ) (h : ε → Option (Procedure ε σ)) : Procedure ε σ := fun s =>
  match a s with
  | (.ok (), s) => (.ok (), s)
  | (.error e, s) =>
    match h e with
    | some b => b s
    | none => (.error e, s)

def iter (f : α → Procedure ε σ) : List α → Procedure ε σ
  | [] => skip
  | x :: l => (f x).andThen (iter f l)

def Runs (P : σ → Prop) (a : Procedure ε σ) (Q : σ → Prop) : Prop :=
  ∀ s, P s → ∃ s', a s = (.ok (), s') ∧ Q s'

theorem runs_skip : Runs P (skip : Procedure ε σ) P := fun s hs => ⟨s, rfl, hs⟩

theorem runs_update {f : σ → σ} (h : ∀ s, P s → Q (f s)) : Runs P (update f : Procedure ε σ) Q :=
  fun s hs => ⟨f s, rfl, h s hs⟩

theorem runs_andThen {a b : Procedure ε σ} (ha : Runs P a Q) (hb : Runs Q b R) :
    Runs P (a.andThen b) R := by
  intro s hs
  obtain ⟨s1, h1, hs1⟩ := ha s hs
  obtain ⟨s2, h2, hs2⟩ := hb s1 hs1
  refine ⟨s2, ?_, hs2⟩
  simp only [andThen, h1]
  exact h2

theorem runs_handle {a : Procedure ε σ} {h : ε → Option (Procedure ε σ)} (ha : Runs P a Q) :
    Runs P (a.handle h) Q := by
  intro s hs
  obtain ⟨s1, h1, hs1⟩ := ha s hs
  exact ⟨s1, by simp only [handle, h1], hs1⟩

/-- An iteration goes through the states `I` assigns to the rests of the list. -/
theorem runs_iter {f : α → Procedure ε σ} (I : List α → σ → Prop)
    (step : ∀ x l, Runs (I (x :: l)) (f x) (I l)) (l : List α) : Runs (I l) (iter f l) (I []) := by
  induction l with
  | nil => exact runs_skip
  | cons x l ih => exact runs_andThen (step x l) ih

/-! However the action ends, the state has `Q`. -/

def Ends (P : σ → Prop) (a : Procedure ε σ) (Q : σ → Prop) : Prop := ∀ s, P s → Q (a s).2

abbrev Keeps (P : σ → Prop) (a : Procedure ε σ) : Prop := Ends P a P

variable {a b : Procedure ε σ}

theorem ends_andThen (ha : Ends P a Q) (hb : Keeps Q b) : Ends P (a.andThen b) Q := by
  intro s hs
  have h := ha s hs
  rw [andThen]
  split
  next heq => exact hb _ (by rwa [heq] at h)
  next heq => rwa [heq] at h

theorem ends_handle {h : ε → Option (Procedure ε σ)} (ha : Ends P a Q)
    (hb : ∀ e b, h e = some b → Keeps Q b) : Ends P (a.handle h) Q := by
  intro s hs
  have hq := ha s hs
  rw [handle]
  split
  next heq => rwa [heq] at hq
  next heq =>
    rw [heq] at hq
    split
    next hsome => exact hb _ _ hsome _ hq
    next => exact hq

theorem keeps_iter {f : α → Procedure ε σ} (step : ∀ x, Keeps P (f x)) (l : List α) :
    Keeps P (iter f l) := by
  induction l with
  | nil => exact fun s hs => hs
  | cons x l ih => exact ends_andThen (step x) ih

end Procedure
