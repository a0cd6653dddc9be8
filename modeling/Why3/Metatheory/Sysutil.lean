import Why3.Util.Sysutil

/-!
A stored relative name leads back to the file where the session directory has no `.` and
`..` after what it has in common with the file, and no `..` of the rest of the file name
follows a `.` or `..` of it.
-/
namespace Why3
namespace Sysutil

open Filename List

variable {fs : FileSystem} {p b q : List String}

def Plain (x : String) : Prop := x ≠ currentDirName ∧ x ≠ parentDirName

/-- No `..` among the components `q`, read in the directory `dir`, follows a `.` or a `..`. -/
def Cancels : List String → List String → Prop
  | _, [] => True
  | dir, x :: q =>
    if x = parentDirName then (∀ y ∈ dir.getLast?, Plain y) ∧ Cancels dir.dropLast q
    else Cancels (dir ++ [x]) q

/-- The directories on the way to the components `l` exist. -/
def Exist (fs : FileSystem) (l : List String) : Prop :=
  ∀ d x, d ++ [x] <+: l → fs.isDir (fs.denote ⟨true, d⟩) = true

theorem pathOfFile_absolute (n : Nat) (l acc : List String) (hn : l.length ≤ n) :
    pathOfFile (n + 1) acc ⟨true, l⟩ = l ++ acc := by
  induction n generalizing l acc with
  | zero =>
    cases length_eq_zero_iff.mp (Nat.le_zero.mp hn)
    rfl
  | succ n ih =>
    rcases eq_nil_or_concat l with rfl | ⟨l, x, rfl⟩
    · rfl
    · rw [concat_eq_append] at hn ⊢
      have hd : dirname ⟨true, l ++ [x]⟩ = ⟨true, l⟩ := by simp [dirname]
      have hb : basename ⟨true, l ++ [x]⟩ = x := by simp [basename]
      rw [pathOfFile, hd, hb, if_neg (by simp), if_neg (by simp), ih l _ (by simpa using hn),
        append_assoc]
      rfl

theorem denote_cancel {dir : List String} (h : ∀ y ∈ dir.getLast?, Plain y) (l : List String) :
    fs.denote ⟨true, dir ++ parentDirName :: l⟩ = fs.denote ⟨true, dir.dropLast ++ l⟩ := by
  rcases eq_nil_or_concat dir with rfl | ⟨d, y, rfl⟩
  · rfl
  · rw [concat_eq_append] at h ⊢
    obtain ⟨h1, h2⟩ := h y getLast?_concat
    simp [FileSystem.denote, FileSystem.enter, h1, h2,
      show parentDirName ≠ currentDirName by decide]

theorem denote_descend (hq : Cancels p q)
    (hdirs : ∀ l x, l ++ [x] <+: q → fs.isDir (fs.denote ⟨true, p ++ l⟩) = true) :
    fs.denote (systemDependentAbsolutePath fs ⟨true, p⟩ q) = fs.denote ⟨true, p ++ q⟩ := by
  induction q generalizing p with
  | nil => rw [systemDependentAbsolutePath, append_nil]
  | cons x q ih =>
    rw [systemDependentAbsolutePath]
    rw [Cancels] at hq
    have hstep (l : List String) (y : String) (hl : l ++ [y] <+: q) :=
      hdirs (x :: l) y ((prefix_cons_inj x).mpr hl)
    by_cases hx : x = parentDirName
    · subst hx
      have hreg : isRegularDir fs ⟨true, p⟩ = true := by
        simpa [isRegularDir] using hdirs [] parentDirName (by simp)
      rw [if_pos ⟨rfl, hreg⟩, denote_cancel hq.1]
      refine ih hq.2 fun l y hl => ?_
      exact denote_cancel hq.1 l ▸ hstep l y hl
    · rw [if_neg hx] at hq
      rw [if_neg fun h => hx h.1, append_cons]
      refine ih hq fun l y hl => ?_
      rw [← append_cons]
      exact hstep l y hl

/-- The walk back from the session directory. -/
theorem climb (q : List String)
    (hdirs : ∀ l, l <+: p ++ b → fs.isDir (fs.denote ⟨true, l⟩) = true) :
    systemDependentAbsolutePath fs ⟨true, p ++ b⟩ (replicate b.length parentDirName ++ q) =
      systemDependentAbsolutePath fs ⟨true, p⟩ q := by
  induction b using List.reverseRecOn with
  | nil => rw [append_nil]; rfl
  | append_singleton b x ih =>
    rw [← append_assoc] at hdirs ⊢
    rw [length_append, length_singleton, replicate_succ, cons_append,
      systemDependentAbsolutePath, if_pos ⟨rfl, hdirs _ (prefix_refl _)⟩,
      ← ih fun l hl => hdirs l (hl.trans (prefix_append _ _))]
    simp [dirname]

theorem aux2_plain (abs rel : List String) (h : ∀ x ∈ b, Plain x) :
    aux2 abs rel b = replicate b.length parentDirName ++ rel := by
  induction b generalizing abs rel with
  | nil => rfl
  | cons x b ih =>
    obtain ⟨⟨h1, h2⟩, hb⟩ := forall_mem_cons.mp h
    simp only [aux2, if_neg h1, if_neg h2]
    rw [ih _ _ hb, length_cons, replicate_succ', append_assoc]
    rfl

theorem aux_prefix (abs p b q : List String) :
    aux abs (p ++ b) (p ++ q) = aux (p.reverse ++ abs) b q := by
  induction p generalizing abs with
  | nil => rfl
  | cons x p ih => simp [aux, ih]

theorem denote_aux (abs : List String) (hb : ∀ x ∈ b, Plain x) (hq : Cancels p q)
    (hbase : ∀ l, l <+: p ++ b → fs.isDir (fs.denote ⟨true, l⟩) = true)
    (hfile : ∀ l x, l ++ [x] <+: q → fs.isDir (fs.denote ⟨true, p ++ l⟩) = true) :
    fs.denote (systemDependentAbsolutePath fs ⟨true, p ++ b⟩ (aux abs b q)) =
      fs.denote ⟨true, p ++ q⟩ := by
  induction abs, b, q using aux.induct generalizing p with
  | case1 abs b x q ih =>
    -- one more component in common
    obtain ⟨hx, hb⟩ := forall_mem_cons.mp hb
    rw [Cancels, if_neg hx.2] at hq
    rw [aux, if_pos rfl]
    rw [append_cons p x b] at hbase ⊢
    rw [append_cons p x q]
    refine ih hb hq hbase fun l y hl => ?_
    rw [← append_cons]
    exact hfile (x :: l) y ((prefix_cons_inj x).mpr hl)
  | case2 abs x b y q hne =>
    rw [aux, if_neg hne, aux2_plain abs _ hb, climb _ hbase]
    exact denote_descend hq hfile
  | case3 abs b q hno =>
    rw [aux.eq_2 _ _ _ hno, aux2_plain abs _ hb, climb _ hbase]
    exact denote_descend hq hfile

end Sysutil
end Why3
