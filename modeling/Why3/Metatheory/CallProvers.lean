import Why3.Driver.CallProvers
import Why3.Library.Except

/-!
Delivery of prover updates.

The buffer holds, for each call, the answers that were not yet reported, the latest
first. Polls for all new results report them in the order in which they came; a poll for
one call takes the latest one.
-/
namespace Why3

open List
open MultiTable (add bindings bindings_cons find remove)

namespace CallProvers

open ProveClient

variable {F SaveData Result : Type}

def answerId : Answer F → Int
  | .started id => id
  | .finished a => a.id

def answersOf (id : Int) (answers : List (Answer F)) : List (Answer F) :=
  answers.filter fun a => answerId a = id

/-- Each call is started once and then finished once, or its answers are still to come. -/
def Orderly (answers : List (Answer F)) : Prop :=
  ∀ id, answersOf id answers = [] ∨ answersOf id answers = [.started id] ∨
    ∃ a, answersOf id answers = [.started id, .finished a]

def updatesOf (id : Int) (reported : List (ProverCall × ProverUpdate Result)) :
    List (ProverUpdate Result) :=
  (reported.filter fun x => x.1 = .serverCall id).map Prod.snd

/-- A sequence of polls, each with the answers that have come in since the last one. -/
def polls {α : Type} (poll : CallState SaveData Result → List (Answer F) →
      Except CallError (List α × CallState SaveData Result)) :
    CallState SaveData Result → List (List (Answer F)) →
      Except CallError (List α × CallState SaveData Result)
  | st, [] => .ok ([], st)
  | st, answers :: batches => do
    let (xs, st) ← poll st answers
    let (ys, st) ← polls poll st batches
    .ok (xs ++ ys, st)

/-- A poll for one call reports one update. -/
def queryPoll (parse : SaveData → FinalAnswer F → Result) (id : Int)
    (st : CallState SaveData Result) (answers : List (Answer F)) :
    Except CallError (List (ProverUpdate Result) × CallState SaveData Result) := do
  let (u, st) ← queryCall parse id st answers
  .ok ([u], st)

section

variable (parse : SaveData → FinalAnswer F → Result) (saved₀ : List (Int × SaveData))

/-- The result for an answer, with the data that were saved for the call. -/
def resultOf : Answer F → Int × Option Result
  | .started id => (id, none)
  | .finished a => (a.id, (find saved₀ a.id).map (parse · a))

def updateFor (a : Answer F) : ProverUpdate Result := updateOf (resultOf parse saved₀ a).2

def finishedId : Answer F → Option Int
  | .started _ => none
  | .finished a => some a.id

def finishedIds (answers : List (Answer F)) : List Int := answers.filterMap finishedId

/-- The data of the calls that are still to finish are there, once each. -/
structure Saved (saved : List (Int × SaveData)) (answers : List (Answer F)) : Prop where
  once : (finishedIds answers).Nodup
  found : ∀ id ∈ finishedIds answers, (find saved₀ id).isSome
  same : ∀ id ∈ finishedIds answers, find saved id = find saved₀ id

variable {saved₀}

theorem fst_resultOf (a : Answer F) : (resultOf parse saved₀ a).1 = answerId a := by
  cases a <;> rfl

theorem finishedIds_started (id : Int) (answers : List (Answer F)) :
    finishedIds (.started id :: answers) = finishedIds answers := rfl

theorem finishedIds_finished (a : FinalAnswer F) (answers : List (Answer F)) :
    finishedIds (.finished a :: answers) = a.id :: finishedIds answers := rfl

theorem answersOf_cons (id : Int) (a : Answer F) (answers : List (Answer F)) :
    answersOf id (a :: answers) =
      if answerId a = id then a :: answersOf id answers else answersOf id answers := by
  rw [answersOf, filter_cons]
  simp only [decide_eq_true_iff]
  rfl

theorem count_finishedIds (id : Int) (answers : List (Answer F)) :
    (finishedIds answers).count id = (finishedIds (answersOf id answers)).length := by
  induction answers with
  | nil => rfl
  | cons a answers ih =>
    rw [answersOf_cons]
    cases a with
    | started j =>
      rw [finishedIds_started, ih]
      split
      · rfl
      · rfl
    | finished a =>
      rw [finishedIds_finished, count_cons, ih, answerId]
      by_cases h : a.id = id
      · rw [if_pos h, if_pos (beq_iff_eq.mpr h), finishedIds_finished, length_cons]
      · rw [if_neg h, if_neg (by simpa using h), Nat.add_zero]

variable {answers rest : List (Answer F)} {st : CallState SaveData Result}
  {batches : List (List (Answer F))} {id : Int}

theorem Orderly.nodup_finishedIds (h : Orderly answers) : (finishedIds answers).Nodup := by
  rw [nodup_iff_count_le_one]
  intro id
  rw [count_finishedIds]
  rcases h id with h | h | ⟨a, h⟩
  · rw [h]
    exact Nat.zero_le 1
  · rw [h]
    exact Nat.zero_le 1
  · rw [h, finishedIds_started]
    exact Nat.le_refl 1

/-- The answers of a batch are handled, and the data of the other calls stay. -/
theorem waitForServerResult_ok {saved : List (Int × SaveData)}
    (h : Saved saved₀ saved (answers ++ rest)) :
    ∃ saved', waitForServerResult parse saved answers =
        .ok (answers.map (resultOf parse saved₀), saved') ∧ Saved saved₀ saved' rest := by
  induction answers generalizing saved with
  | nil => exact ⟨saved, rfl, h⟩
  | cons a answers ih =>
    cases a with
    | started id =>
      obtain ⟨saved', hwait, hsaved'⟩ := ih { h with }
      refine ⟨saved', ?_, hsaved'⟩
      rw [waitForServerResult, handleAnswer]
      simp only [bind, Except.bind, hwait]
      rfl
    | finished a =>
      have hmem : a.id ∈ finishedIds (.finished a :: answers ++ rest) := mem_cons_self
      have hnotMem := (nodup_cons.mp h.once).1
      obtain ⟨save, hsave⟩ := Option.isSome_iff_exists.mp (h.found a.id hmem)
      have hrest : Saved saved₀ (remove saved a.id) (answers ++ rest) := by
        refine ⟨(nodup_cons.mp h.once).2, fun id hid => h.found id ?_, fun id hid => ?_⟩
        · exact mem_cons_of_mem _ hid
        · have hne : id ≠ a.id := by
            rintro rfl
            exact hnotMem hid
          rw [MultiTable.find_remove_of_ne saved hne]
          exact h.same id (mem_cons_of_mem _ hid)
      obtain ⟨saved', hwait, hsaved'⟩ := ih hrest
      refine ⟨saved', ?_, hsaved'⟩
      rw [waitForServerResult, handleAnswer, h.same a.id hmem]
      simp only [bind, Except.bind, hwait, map_cons, resultOf, hsave, Option.map_some]

theorem bindings_foldl_add (rs : List (Int × Option Result))
    (buf : List (Int × ProverUpdate Result)) (id : Int) :
    bindings (rs.foldl (fun buf r => add buf r.1 (updateOf r.2)) buf) id =
      ((rs.filter fun r => r.1 = id).map fun r => updateOf r.2).reverse ++
        bindings buf id := by
  induction rs generalizing buf with
  | nil => rfl
  | cons r rs ih =>
    rw [foldl_cons, ih, add, bindings_cons]
    by_cases h : r.1 = id
    · simp [h]
    · simp [h]

/-- New answers come on top of those that were not yet reported. -/
theorem fetchNewResults_ok (h : Saved saved₀ st.savedData (answers ++ rest)) :
    ∃ st', fetchNewResults parse st answers = .ok st' ∧ Saved saved₀ st'.savedData rest ∧
      ∀ id, bindings st'.resultBuffer id =
        ((answersOf id answers).map (updateFor parse saved₀)).reverse ++
          bindings st.resultBuffer id := by
  obtain ⟨saved', hwait, hsaved'⟩ := waitForServerResult_ok parse h
  refine ⟨⟨saved', _⟩, by rw [fetchNewResults, hwait]; rfl, hsaved', fun id => ?_⟩
  have hfilter : ((answers.map (resultOf parse saved₀)).filter fun r => r.1 = id) =
      (answersOf id answers).map (resultOf parse saved₀) := by
    rw [filter_map, answersOf]
    simp only [Function.comp_def, fst_resultOf]
  rw [bindings_foldl_add, hfilter, map_map]
  rfl

/-! Polls for all new results. -/

theorem updatesOf_foldl (keep : ProverUpdate Result → Bool) (l : List (Int × ProverUpdate Result))
    (q : List (ProverCall × ProverUpdate Result)) (id : Int) :
    updatesOf id (l.foldl (fun q b => if keep b.2 then q else (.serverCall b.1, b.2) :: q) q) =
      ((bindings l id).filter fun u => !keep u).reverse ++ updatesOf id q := by
  induction l generalizing q with
  | nil => rfl
  | cons b l ih =>
    rw [foldl_cons, ih, bindings_cons]
    by_cases hid : b.1 = id
    · by_cases hkeep : keep b.2 = true
      · simp [hid, hkeep]
      · simp [hid, hkeep, updatesOf]
    · by_cases hkeep : keep b.2 = true
      · simp [hid, hkeep]
      · simp [hid, hkeep, updatesOf]

/-- What a poll reports of the answers that come in. -/
def Reportable (blocking : Bool) (u : ProverUpdate Result) : Bool := !(u.isStarted && blocking)

theorem getNewResults_ok (order : MultiTable.IterOrder Int (ProverUpdate Result)) (blocking : Bool)
    (hbuf : st.resultBuffer = []) (h : Saved saved₀ st.savedData (answers ++ rest)) :
    ∃ q st', getNewResults parse order blocking st answers = .ok (q, st') ∧
      Saved saved₀ st'.savedData rest ∧ st'.resultBuffer = [] ∧
      ∀ id, updatesOf id q =
        ((answersOf id answers).map (updateFor parse saved₀)).filter (Reportable blocking) := by
  obtain ⟨st', hfetch, hsaved', hbind⟩ := fetchNewResults_ok parse h
  refine ⟨_, { st' with resultBuffer := [] }, by rw [getNewResults, hfetch]; rfl, hsaved', rfl,
    fun id => ?_⟩
  have hq := updatesOf_foldl (fun u => u.isStarted && blocking) (order.visit st'.resultBuffer) [] id
  rw [hq, order.bindings_visit, hbind, hbuf, bindings, filter_nil, map_nil,
    append_nil, filter_reverse, reverse_reverse, updatesOf, filter_nil,
    map_nil, append_nil]
  rfl

theorem answersOf_append (id : Int) (answers answers' : List (Answer F)) :
    answersOf id (answers ++ answers') = answersOf id answers ++ answersOf id answers' :=
  filter_append ..

/-- All answers are reported, in the order in which they came. -/
theorem polls_getNewResults_ok
    (order : MultiTable.IterOrder Int (ProverUpdate Result)) (blocking : Bool)
    (hbuf : st.resultBuffer = []) (h : Saved saved₀ st.savedData batches.flatten) :
    ∃ reported st', polls (getNewResults parse order blocking) st batches = .ok (reported, st') ∧
      ∀ id, updatesOf id reported =
        ((answersOf id batches.flatten).map (updateFor parse saved₀)).filter
          (Reportable blocking) := by
  induction batches generalizing st with
  | nil => exact ⟨[], st, rfl, fun id => rfl⟩
  | cons answers batches ih =>
    obtain ⟨q, st1, hpoll, hsaved1, hbuf1, hq⟩ :=
      getNewResults_ok parse order blocking hbuf h
    obtain ⟨reported, st2, hpolls, hreported⟩ := ih hbuf1 hsaved1
    refine ⟨q ++ reported, st2, ?_, fun id => ?_⟩
    · simp only [polls, hpoll, bind, Except.bind, hpolls]
    · rw [flatten_cons, answersOf_append, map_append, filter_append, ← hq,
        ← hreported, updatesOf, filter_append, map_append]
      rfl

/-! Polls for one call. -/

/-- No answer is hidden by a later one of the same batch. -/
def Separate (id : Int) (batches : List (List (Answer F))) : Prop :=
  ∀ answers ∈ batches, ¬ (.started id ∈ answers ∧ ∃ a, a.id = id ∧ .finished a ∈ answers)

theorem length_answersOf_le
    (hsep : ¬ (.started id ∈ answers ∧ ∃ a, a.id = id ∧ .finished a ∈ answers))
    (hsub : ∃ pre post, Orderly (pre ++ answers ++ post)) : (answersOf id answers).length ≤ 1 := by
  obtain ⟨pre, post, hord⟩ := hsub
  have hsublist : (answersOf id answers).Sublist (answersOf id (pre ++ answers ++ post)) := by
    rw [answersOf_append, answersOf_append]
    exact (sublist_append_right _ _).trans (sublist_append_left _ _)
  rcases hord id with h | h | ⟨a, h⟩
  · rw [h] at hsublist
    exact Nat.le_trans hsublist.length_le (Nat.zero_le 1)
  · rw [h] at hsublist
    exact hsublist.length_le
  · rw [h] at hsublist
    by_contra hlen
    -- both answers are in the batch
    have heq : answersOf id answers = [.started id, .finished a] :=
      hsublist.eq_of_length_le (by simp only [length_cons, length_nil]; omega)
    have hmem : ∀ b ∈ [.started id, .finished a], b ∈ answers ∧ answerId b = id := by
      intro b hb
      rw [← heq, answersOf, mem_filter, decide_eq_true_iff] at hb
      exact hb
    exact hsep ⟨(hmem _ mem_cons_self).1, a, (hmem (.finished a) (by simp)).2,
      (hmem (.finished a) (by simp)).1⟩

def isUpdate : ProverUpdate Result → Bool
  | .noUpdates => false
  | _ => true

theorem isUpdate_updateFor (a : Answer F) : isUpdate (updateFor parse saved₀ a) = true := by
  rw [updateFor]
  cases (resultOf parse saved₀ a).2 <;> rfl

theorem queryPoll_ok (hbuf : bindings st.resultBuffer id = [])
    (h : Saved saved₀ st.savedData (answers ++ rest)) (hlen : (answersOf id answers).length ≤ 1) :
    ∃ u st', queryPoll parse id st answers = .ok ([u], st') ∧
      [u].filter isUpdate = (answersOf id answers).map (updateFor parse saved₀) ∧
      Saved saved₀ st'.savedData rest ∧ bindings st'.resultBuffer id = [] := by
  obtain ⟨st', hfetch, hsaved', hbind⟩ := fetchNewResults_ok parse h
  have hb := hbind id
  rw [hbuf] at hb
  have hquery : queryPoll parse id st answers =
      .ok ([(queryResultBuffer id st').1], (queryResultBuffer id st').2) := by
    rw [queryPoll, queryCall, hfetch]
    rfl
  rw [hquery, queryResultBuffer, MultiTable.find_eq_head?, hb]
  match hans : answersOf id answers with
  | [] =>
    rw [hans] at hb
    exact ⟨_, st', rfl, rfl, hsaved', hb⟩
  | [a] =>
    refine ⟨_, { st' with resultBuffer := remove st'.resultBuffer id }, rfl,
      filter_cons_of_pos (isUpdate_updateFor parse a), hsaved', ?_⟩
    rw [MultiTable.bindings_remove, if_pos rfl, hb, hans]
    rfl
  | a :: b :: l =>
    rw [hans, length_cons, length_cons] at hlen
    omega

/-- The updates that a sequence of polls for one call reports are its answers, in the order in
which they came. -/
theorem polls_queryPoll_ok (hbuf : bindings st.resultBuffer id = [])
    (h : Saved saved₀ st.savedData batches.flatten)
    (hlen : ∀ answers ∈ batches, (answersOf id answers).length ≤ 1) :
    ∃ reported st', polls (queryPoll parse id) st batches = .ok (reported, st') ∧
      reported.filter isUpdate = (answersOf id batches.flatten).map (updateFor parse saved₀) ∧
      bindings st'.resultBuffer id = [] := by
  induction batches generalizing st with
  | nil => exact ⟨[], st, rfl, rfl, hbuf⟩
  | cons answers batches ih =>
    obtain ⟨u, st1, hpoll, hu, hsaved1, hbuf1⟩ :=
      queryPoll_ok parse hbuf h (hlen answers mem_cons_self)
    obtain ⟨reported, st2, hpolls, hreported, hbuf2⟩ :=
      ih hbuf1 hsaved1 (forall_mem_cons.mp hlen).2
    refine ⟨[u] ++ reported, st2, ?_, ?_, hbuf2⟩
    · simp only [polls, hpoll, bind, Except.bind, hpolls]
    · rw [flatten_cons, answersOf_append, map_append, ← hu, ← hreported, filter_append]

theorem updateFor_finished {a : FinalAnswer F} {save : SaveData}
    (h : find saved₀ a.id = some save) :
    updateFor parse saved₀ (.finished a) = .proverFinished (parse save a) := by
  rw [updateFor, resultOf, h]
  rfl

theorem not_started_after_finished (hord : Orderly answers)
    {reported pre post : List (ProverUpdate Result)} {r : Result}
    (hreported : reported.filter isUpdate = (answersOf id answers).map (updateFor parse saved₀))
    (hsplit : reported = pre ++ .proverFinished r :: post) : .proverStarted ∉ post := by
  intro hmem
  have hsub : [.proverFinished r, .proverStarted].Sublist
      ((answersOf id answers).map (updateFor parse saved₀)) := by
    rw [← hreported, hsplit]
    have hpost : [.proverFinished r, .proverStarted].Sublist (pre ++ .proverFinished r :: post) :=
      ((singleton_sublist.mpr hmem).cons_cons _).trans (sublist_append_right _ _)
    exact hpost.filter isUpdate
  rcases hord id with h | h | ⟨a, h⟩
  · rw [h] at hsub
    cases hsub
  · rw [h] at hsub
    exact absurd hsub.length_le (Nat.not_succ_le_self 1)
  · rw [h] at hsub
    -- two updates of which the first is the start
    have heq := hsub.eq_of_length (by rfl)
    cases heq

end

/-- Updates are delivered in order. Polls for all new results report every answer once, in
the order in which it came; polls for one call do so if no batch has both of its answers. -/
theorem updates_delivered (parse : SaveData → FinalAnswer F → Result)
    (order : MultiTable.IterOrder Int (ProverUpdate Result)) (saved : List (Int × SaveData))
    (batches : List (List (Answer F))) (hord : Orderly batches.flatten)
    (hsaved : ∀ a, .finished a ∈ batches.flatten → (find saved a.id).isSome) :
    (∃ reported st, polls (getNewResults parse order false) ⟨saved, []⟩ batches =
        .ok (reported, st) ∧
      ∀ id a, answersOf id batches.flatten = [.started id, .finished a] →
        ∃ r, updatesOf id reported = [.proverStarted, .proverFinished r]) ∧
    (∃ reported st, polls (getNewResults parse order true) ⟨saved, []⟩ batches =
        .ok (reported, st) ∧
      ∀ id a, answersOf id batches.flatten = [.started id, .finished a] →
        ∃ r, updatesOf id reported = [.proverFinished r]) ∧
    ∀ id, Separate id batches →
      ∃ reported st, polls (queryPoll parse id) ⟨saved, []⟩ batches = .ok (reported, st) ∧
        (∀ pre post r, reported = pre ++ .proverFinished r :: post → .proverStarted ∉ post) ∧
        bindings st.resultBuffer id = [] := by
  have hready : Saved saved (⟨saved, []⟩ : CallState SaveData Result).savedData
      batches.flatten := by
    refine ⟨hord.nodup_finishedIds, fun id hid => ?_, fun id _ => rfl⟩
    obtain ⟨a, ha, hid⟩ := mem_filterMap.mp hid
    cases a with
    | started j => cases hid
    | finished a =>
      cases hid
      exact hsaved a ha
  -- the final answer of a call has the data saved for it
  have hfinal : ∀ id a, answersOf id batches.flatten = [.started id, .finished a] →
      ∃ r, updateFor parse saved (.finished a) = .proverFinished r := by
    intro id a hans
    have hmem : .finished a ∈ answersOf id batches.flatten := by
      rw [hans]
      exact mem_cons_of_mem _ mem_cons_self
    obtain ⟨save, hsave⟩ := Option.isSome_iff_exists.mp (hsaved a (mem_of_mem_filter hmem))
    exact ⟨parse save a, updateFor_finished parse hsave⟩
  have hall (blocking : Bool) : ∃ reported st,
      polls (getNewResults parse order blocking) ⟨saved, []⟩ batches = .ok (reported, st) ∧
      ∀ id a, answersOf id batches.flatten = [.started id, .finished a] → ∃ r,
        updatesOf id reported = [.proverStarted, .proverFinished r].filter (Reportable blocking) := by
    obtain ⟨reported, st, hpolls, hreported⟩ :=
      polls_getNewResults_ok parse order blocking rfl hready
    refine ⟨reported, st, hpolls, fun id a hans => ?_⟩
    obtain ⟨r, hr⟩ := hfinal id a hans
    refine ⟨r, ?_⟩
    rw [hreported, hans, map_cons, map_cons, hr]
    rfl
  refine ⟨hall false, hall true, fun id hsep => ?_⟩
  have hlen : ∀ answers ∈ batches, (answersOf id answers).length ≤ 1 := by
    intro answers hmem
    obtain ⟨pre, post, rfl⟩ := append_of_mem hmem
    refine length_answersOf_le (hsep answers hmem) ⟨pre.flatten, post.flatten, ?_⟩
    rwa [flatten_append, flatten_cons, ← append_assoc] at hord
  obtain ⟨reported, st, hpolls, hreported, hbuf⟩ := polls_queryPoll_ok parse rfl hready hlen
  exact ⟨reported, st, hpolls, fun pre post r =>
    not_started_after_finished parse hord hreported, hbuf⟩

/-- The bindings are visited as they stand in the table. -/
def tableOrder : MultiTable.IterOrder Int (ProverUpdate Int) := ⟨id, fun _ _ => rfl⟩

/-- The answer to the call 1. -/
def answerOne : FinalAnswer Unit := ⟨1, (), false, [], 0⟩

theorem orderly_answerOne : Orderly [.started 1, .finished answerOne] := by
  intro id
  by_cases hid : id = 1
  · subst hid
    exact .inr (.inr ⟨answerOne, rfl⟩)
  · have hne : (1 : Int) ≠ id := Ne.symm hid
    simp [answersOf, answerId, answerOne, hne]

theorem updates_delivered_two_batches : Separate 1 [[.started 1], [.finished answerOne]] ∧
      ∃ reported st, polls (queryPoll (fun _ a => a.exitCode) 1) ⟨[(1, ())], []⟩
          [[.started 1], [.finished answerOne]] = .ok (reported, st) ∧
        (∀ pre post r, reported = pre ++ .proverFinished r :: post → .proverStarted ∉ post) ∧
        bindings st.resultBuffer 1 = [] := by
  have hsep : Separate 1 [[.started 1], [.finished answerOne]] := by
    intro answers hmem
    simp only [mem_cons, not_mem_nil, or_false] at hmem
    rcases hmem with rfl | rfl
    · simp
    · simp
  refine ⟨hsep, (updates_delivered (fun _ a => a.exitCode) tableOrder [(1, ())]
    [[.started 1], [.finished answerOne]] orderly_answerOne ?_).2.2 1 hsep⟩
  intro a ha
  simp only [flatten_cons, flatten_nil, cons_append,
    nil_append, mem_cons, reduceCtorEq, Answer.finished.injEq, not_mem_nil, or_false,
    false_or] at ha
  subst ha
  decide

/-- When the start and the end of a call come in one batch, the end is reported first and
the start stays in the buffer. -/
theorem start_reported_after_finish : Orderly [.started 1, .finished answerOne] ∧
      polls (queryPoll (fun _ a => a.exitCode) 1) ⟨[(1, ())], []⟩
          [[.started 1, .finished answerOne]] =
        .ok ([.proverFinished 0], ⟨[], [(1, .proverStarted)]⟩) ∧
      polls (queryPoll (fun _ a => a.exitCode) 1) ⟨[(1, ())], []⟩
          [[.started 1, .finished answerOne], []] =
        .ok ([.proverFinished 0, .proverStarted], ⟨[], []⟩) :=
  ⟨orderly_answerOne, rfl, rfl⟩

end CallProvers
end Why3
