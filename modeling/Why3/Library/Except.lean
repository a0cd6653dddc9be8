import Mathlib

/-!
Folds and iterations in the exception monad. A fold that returns has run its
body successfully on every element; the lemmas give back those runs.
-/
namespace Except

open List

variable {ε α β : Type}

theorem ok_bind (a : α) (f : α → Except ε β) : (.ok a >>= f) = f a := rfl

variable {b c : β} {l : List α} {γ : Type} {e : ε} {x : Except ε α} {f : α → Except ε β}

theorem bind_eq_ok : (x >>= f) = .ok b ↔ ∃ a, x = .ok a ∧ f a = .ok b := by
  cases x with
  | error e | ok a => simp [bind, Except.bind]

theorem map_eq_ok {f : α → β} : (f <$> x) = .ok b ↔ ∃ a, x = .ok a ∧ f a = b := by
  cases x with
  | error e | ok a => simp [Except.map]

theorem foldlM_cons_ok {f : β → α → Except ε β} {x : α} : foldlM f b (x :: l) = .ok c ↔
      ∃ b', f b x = .ok b' ∧ foldlM f b' l = .ok c := by
  rw [foldlM_cons, bind_eq_ok]

theorem foldlM_congr {f g : β → α → Except ε β} (h : ∀ b, ∀ x ∈ l, f b x = g b x)
    (b : β) : l.foldlM f b = l.foldlM g b := by
  induction l generalizing b with
  | nil => rfl
  | cons x l ih =>
    rw [foldlM_cons, h b x mem_cons_self]
    exact bind_congr fun b' => ih (fun b x hx => h b x (mem_cons_of_mem _ hx)) b'

/-- The computation returns a value with a property. -/
def returns (x : Except ε α) (p : α → Bool) : Bool :=
  match x with
  | .ok a => p a
  | .error _ => false

theorem exists_ok_of_returns {p : α → Bool} (h : x.returns p = true) :
    ∃ a, x = .ok a ∧ p a = true := by
  cases x with
  | error e => cases h
  | ok a => exact ⟨a, rfl, h⟩

/-- A property that every successful body run keeps holds at the end of the fold. -/
theorem foldlM_invariant {f : β → α → Except ε β} (P : β → Prop) (h : foldlM f b l = .ok c)
    (hb : P b) (step : ∀ b x b', x ∈ l → P b → f b x = .ok b' → P b') : P c := by
  induction l generalizing b with
  | nil =>
    cases h
    exact hb
  | cons x l ih =>
    obtain ⟨b', hx, hl⟩ := foldlM_cons_ok.mp h
    apply ih hl
    · exact step b x b' mem_cons_self hb hx
    · intro b x b' hx
      exact step b x b' (mem_cons_of_mem _ hx)

/-- A relation of the elements seen to the accumulator, the last one first. -/
theorem foldlM_accumulates {f : β → α → Except ε β} {P : List α → β → Prop}
    (step : ∀ {seen b x b'}, P seen b → f b x = .ok b' → P (x :: seen) b') {seen : List α}
    (hb : P seen b) (h : foldlM f b l = .ok c) : P (l.reverse ++ seen) c := by
  induction l generalizing b seen with
  | nil =>
    cases h
    exact hb
  | cons x l ih =>
    obtain ⟨b', hx, hl⟩ := foldlM_cons_ok.mp h
    rw [reverse_cons, append_assoc, singleton_append]
    exact ih (step hb hx) hl

/-- A fold whose bodies succeed under an invariant that they keep succeeds. -/
theorem foldlM_total {f : β → α → Except ε β} (P : β → Prop) (hb : P b)
    (step : ∀ b, ∀ x ∈ l, P b → ∃ b', f b x = .ok b' ∧ P b') : ∃ c, l.foldlM f b = .ok c ∧ P c := by
  induction l generalizing b with
  | nil => exact ⟨b, rfl, hb⟩
  | cons x l ih =>
    obtain ⟨b', hx, hb'⟩ := step b x mem_cons_self hb
    obtain ⟨c, hl, hc⟩ := ih hb' fun b y hy => step b y (mem_cons_of_mem _ hy)
    exact ⟨c, foldlM_cons_ok.mpr ⟨b', hx, hl⟩, hc⟩

theorem foldlM_flatMap (f : β → α → Except ε β) (g : γ → List α) (l : List γ) (b : β) :
    (l.flatMap g).foldlM f b = l.foldlM (fun b x => (g x).foldlM f b) b := by
  induction l generalizing b with
  | nil => rfl
  | cons x l ih =>
    rw [flatMap_cons, foldlM_append]
    exact bind_congr fun b' => ih b'

theorem foldlM_run_mem {f : β → α → Except ε β} (h : foldlM f b l = .ok c) {x : α} (hx : x ∈ l) :
    ∃ b1 b2, f b1 x = .ok b2 := by
  induction l generalizing b with
  | nil => cases hx
  | cons y l ih =>
    obtain ⟨b', hy, hl⟩ := foldlM_cons_ok.mp h
    rcases mem_cons.mp hx with rfl | hx
    · exact ⟨b, b', hy⟩
    · exact ih hl hx

/-- What one body run establishes from the invariant and the later ones keep is
there at the end. -/
theorem foldlM_establish_of {f : β → α → Except ε β} (I P : β → Prop)
    (h : foldlM f b l = .ok c) {x : α} (hx : x ∈ l) (hb : I b)
    (step : ∀ b y b', y ∈ l → I b → f b y = .ok b' → I b')
    (make : ∀ b b', I b → f b x = .ok b' → P b')
    (keep : ∀ b y b', y ∈ l → P b → f b y = .ok b' → P b') : P c := by
  induction l generalizing b with
  | nil => cases hx
  | cons y l ih =>
    obtain ⟨b', hy, hl⟩ := foldlM_cons_ok.mp h
    have keep' : ∀ b z b', z ∈ l → P b → f b z = .ok b' → P b' :=
      fun b z b' hz => keep b z b' (mem_cons_of_mem _ hz)
    rcases mem_cons.mp hx with rfl | hx
    · exact foldlM_invariant P hl (make b b' hb hy) keep'
    · exact ih hl hx (step b y b' mem_cons_self hb hy)
        (fun b z b' hz => step b z b' (mem_cons_of_mem _ hz)) keep'

theorem foldlM_establish {f : β → α → Except ε β} (P : β → Prop) (h : foldlM f b l = .ok c)
    {x : α} (hx : x ∈ l) (make : ∀ b b', f b x = .ok b' → P b')
    (keep : ∀ b y b', y ∈ l → P b → f b y = .ok b' → P b') : P c :=
  foldlM_establish_of (fun _ => True) P h hx trivial (fun _ _ _ _ _ _ => trivial)
    (fun b b' _ => make b b') keep

theorem bind_eq_error : (x >>= f) = .error e ↔ x = .error e ∨ ∃ a, x = .ok a ∧ f a = .error e := by
  cases x with
  | error e | ok a => simp [bind, Except.bind]

/-- The error of a fold is the error of one of its bodies. -/
theorem foldlM_eq_error {f : β → α → Except ε β}
    (h : foldlM f b l = .error e) : ∃ b', ∃ x ∈ l, f b' x = .error e := by
  induction l generalizing b with
  | nil => cases h
  | cons x l ih =>
    rw [foldlM_cons, bind_eq_error] at h
    obtain hx | ⟨b', -, hl⟩ := h
    · exact ⟨b, x, mem_cons_self, hx⟩
    · obtain ⟨b', y, hy, hf⟩ := ih hl
      exact ⟨b', y, mem_cons_of_mem _ hy, hf⟩

theorem forM_eq_error {f : α → Except ε Unit} (h : forM l f = .error e) :
    ∃ x ∈ l, f x = .error e := by
  induction l with
  | nil => nomatch h
  | cons x l ih =>
    rw [forM_cons, bind_eq_error] at h
    obtain hx | ⟨⟨⟩, -, hl⟩ := h
    · exact ⟨x, mem_cons_self, hx⟩
    · exact exists_mem_cons_of_exists (ih hl)

/-- A search that is cut short ends with what some element gave. -/
theorem exists_of_anyM {f : α → Except ε Bool} {r : Except ε Bool} (h : l.anyM f = r)
    (hr : r ≠ .ok false) : ∃ x ∈ l, f x = r := by
  induction l with
  | nil => exact absurd h.symm hr
  | cons x l ih =>
    rw [anyM] at h
    match hx : f x with
    | .ok false =>
      rw [hx] at h
      exact exists_mem_cons_of_exists (ih h)
    | .ok true | .error e =>
      rw [hx] at h
      exact ⟨x, mem_cons_self, hx.trans h⟩

theorem exists_of_allM {f : α → Except ε Bool} {r : Except ε Bool} (h : l.allM f = r)
    (hr : r ≠ .ok true) : ∃ x ∈ l, f x = r := by
  induction l with
  | nil => exact absurd h.symm hr
  | cons x l ih =>
    rw [allM] at h
    match hx : f x with
    | .ok true =>
      rw [hx] at h
      exact exists_mem_cons_of_exists (ih h)
    | .ok false | .error e =>
      rw [hx] at h
      exact ⟨x, mem_cons_self, hx.trans h⟩

theorem allM_eq_true {f : α → Except ε Bool} (h : l.allM f = .ok true) :
    ∀ x ∈ l, f x = .ok true := by
  induction l with
  | nil => simp
  | cons x l ih =>
    rw [allM, bind_eq_ok] at h
    obtain ⟨b, hx, hl⟩ := h
    cases b with
    | true => simpa using ⟨hx, ih hl⟩
    | false => nomatch hl

theorem forM_ok {f : α → Except ε Unit} : forM l f = .ok () ↔ ∀ x ∈ l, f x = .ok () := by
  induction l with
  | nil => simp [pure, Except.pure]
  | cons x l ih =>
    rw [forM_cons, bind_eq_ok]
    constructor
    · rintro ⟨⟨⟩, hx, hl⟩
      exact forall_mem_cons.mpr ⟨hx, ih.mp hl⟩
    · intro h
      exact ⟨⟨⟩, h x mem_cons_self, ih.mpr (forall_mem_cons.mp h).2⟩

theorem mapM_ok {l' : List β} (h : l.mapM f = .ok l') :
    (∀ y ∈ l', ∃ x ∈ l, f x = .ok y) ∧ ∀ x ∈ l, ∃ y ∈ l', f x = .ok y := by
  induction l generalizing l' with
  | nil =>
    cases h
    exact ⟨by simp, by simp⟩
  | cons x l ih =>
    rw [mapM_cons, bind_eq_ok] at h
    obtain ⟨y, hy, h⟩ := h
    obtain ⟨ys, hys, h⟩ := bind_eq_ok.mp h
    cases h
    obtain ⟨hleft, hright⟩ := ih hys
    exact ⟨forall_mem_cons.mpr
        ⟨⟨x, mem_cons_self, hy⟩, fun z hz => exists_mem_cons_of_exists (hleft z hz)⟩,
      forall_mem_cons.mpr
        ⟨⟨y, mem_cons_self, hy⟩, fun z hz => exists_mem_cons_of_exists (hright z hz)⟩⟩

theorem mapM_append_ok {l1 l2 : List α} {l' : List β} (h : (l1 ++ l2).mapM f = .ok l') :
    ∃ l1' l2', l' = l1' ++ l2' ∧ l1.mapM f = .ok l1' ∧ l2.mapM f = .ok l2' := by
  rw [mapM_append, bind_eq_ok] at h
  obtain ⟨l1', h1, h⟩ := h
  obtain ⟨l2', h2, h⟩ := bind_eq_ok.mp h
  cases h
  exact ⟨l1', l2', rfl, h1, h2⟩

theorem mapM_eq_error (h : l.mapM f = .error e) : ∃ x ∈ l, f x = .error e := by
  induction l with
  | nil => cases h
  | cons x l ih =>
    rw [mapM_cons, bind_eq_error] at h
    obtain hx | ⟨y, -, h⟩ := h
    · exact ⟨x, mem_cons_self, hx⟩
    · obtain h | ⟨ys, -, h⟩ := bind_eq_error.mp h
      · exact exists_mem_cons_of_exists (ih h)
      · cases h

/-- A fold that conses what its body returns, up to the first error. -/
theorem foldlM_cons_map_or {f : γ → Except ε α} {P : γ → α → Prop} {E : ε → Prop} (g : γ → α → β)
    {l : List γ} (h : ∀ c ∈ l, (∃ a, f c = .ok a ∧ P c a) ∨ ∃ e, f c = .error e ∧ E e)
    (base : List β) : (∃ acc, l.foldlM (fun acc c => do let a ← f c; .ok (g c a :: acc)) base =
        .ok acc ∧ ∃ bl : List (γ × α), bl.map Prod.fst = l ∧ (∀ x ∈ bl, P x.1 x.2) ∧
          acc = (bl.map fun x => g x.1 x.2).reverse ++ base) ∨
    ∃ e, l.foldlM (fun acc c => do let a ← f c; .ok (g c a :: acc)) base = .error e ∧ E e := by
  induction l generalizing base with
  | nil => exact .inl ⟨base, rfl, [], rfl, nofun, rfl⟩
  | cons c l ih =>
    rw [foldlM_cons]
    obtain ⟨⟨a, ha, hP⟩ | ⟨e, he, hE⟩, hl⟩ := forall_mem_cons.mp h
    · rw [ha]
      refine (ih hl (g c a :: base)).imp (fun ⟨acc, hfold, bl, hbl, hbP, hacc⟩ =>
        ⟨acc, hfold, (c, a) :: bl, by rw [map_cons, hbl], forall_mem_cons.mpr ⟨hP, hbP⟩, ?_⟩) id
      rw [hacc, map_cons, reverse_cons, append_assoc]
      rfl
    · exact .inr ⟨e, by rw [he]; rfl, hE⟩

end Except
