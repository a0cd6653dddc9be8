import Why3.Session.Scheduler

/-!
Accounting of the proof scheduler.

Between two handlers an attempt is in the queue, in the table of calls in
progress, or its callback was given one terminal status. Inside a handler its
callback may also be in the hands of the handler, so the invariant is stated for
a list of callbacks held; each primitive moves one callback from one place to
another. The counter of running provers is the number of calls in progress that
are started, because each call is reported started at most once.
-/
namespace Why3

open List
open Procedure (Ends Keeps Runs andThen ends_andThen ends_handle handle iter keeps_iter
  runs_andThen runs_iter runs_skip runs_update update)

namespace Scheduler

/-! Permutations of the table. -/

variable {l : List TasksProgRec} {ptp : TasksProgRec} {s : State} {held : List Callback}
  {reported : List Nat} {cb : Callback} {spa : SchedPaRec} {cfg : Config}

theorem perm_cons_filter {p : TasksProgRec} (hp : p ∈ l)
    (hl : (l.map (·.tpCall)).Nodup) : l.Perm (p :: l.filter fun q => q.tpCall ≠ p.tpCall) := by
  induction l with
  | nil => cases hp
  | cons q l ih =>
    obtain ⟨hq, hl⟩ := nodup_cons.mp hl
    cases mem_cons.mp hp with
    | inl heq =>
      subst heq
      have hall : ∀ r ∈ l, r.tpCall ≠ p.tpCall := fun r hr heq =>
        hq (mem_map.mpr ⟨r, hr, heq⟩)
      rw [filter_cons_of_neg (by simp), filter_eq_self.mpr (by simpa using hall)]
    | inr hp =>
      have hne : q.tpCall ≠ p.tpCall := fun heq =>
        hq (mem_map.mpr ⟨p, hp, heq.symm⟩)
      rw [filter_cons_of_pos (by simpa using hne)]
      exact ((ih hp hl).cons q).trans (List.Perm.swap _ _ _)

theorem findTask_mem {call : Nat}
    (h : findTask call s = some ptp) : ptp ∈ s.proverTasksInProgress ∧ ptp.tpCall = call :=
  ⟨mem_of_find?_eq_some h, by simpa using find?_some h⟩

/-! The parts of the invariant. -/

/-- The callbacks of the attempts that are not over. -/
def live (s : State) : List Callback :=
  s.scheduledProofAttempts.map (·.spaCallback) ++ s.proverTasksInProgress.map (·.tpCallback)

def terminals (log : List (Nat × Status)) (a : Nat) : Nat :=
  log.countP fun e => e.1 = a ∧ e.2.terminal = true

/-- Nothing is given to a callback after a terminal status. -/
def TerminalLast (log : List (Nat × Status)) : Prop :=
  log.Pairwise fun later earlier => earlier.1 = later.1 → earlier.2.terminal = false

/-- Each of the first `n` attempts is held once or was ended once, and the table
of running attempts of the controller has those that are held. -/
structure Accounts (n : Nat) (held : List Callback) (s : State) : Prop where
  attempts : s.nextAttempt = n
  located : ∀ a, ((live s ++ held).map (·.attempt)).count a + terminals s.log a =
    if a < n then 1 else 0
  terminalLast : TerminalLast s.log
  running : s.controllerRunningProofAttempts.Perm ((live s ++ held).map (·.panid))

/-- The table of calls in progress; `reported` are the calls reported started. -/
structure TableOk (reported : List Nat) (s : State) : Prop where
  distinct : (s.proverTasksInProgress.map (·.tpCall)).Nodup
  fresh : ∀ p ∈ s.proverTasksInProgress, p.tpCall ≤ s.nextCall
  counter : s.numberOfRunningProvers = s.proverTasksInProgress.countP (·.tpStarted)
  started : ∀ p ∈ s.proverTasksInProgress, p.tpStarted = true → p.tpCall ∈ reported

def ObservedOk (s : State) : Prop :=
  ∀ o ∈ s.observed, 0 ≤ o.1 ∧ 0 ≤ o.2.1 ∧ 0 ≤ o.2.2

/-- The same accounting for the editor calls. -/
structure EditionsOk (held : List EditorTask) (s : State) : Prop where
  located : ∀ a, ((s.proverTasksEdited ++ held).map (·.edCallback.attempt)).count a +
    terminals s.editLog a = if a < s.nextEdition then 1 else 0
  terminalLast : TerminalLast s.editLog

structure Inv n (reported : List Nat) (held : List Callback) (editors : List EditorTask)
    (s : State) : Prop where
  accounts : Accounts n held s
  table : TableOk reported s
  observed : ObservedOk s
  editions : EditionsOk editors s

theorem inv_init : Inv 0 [] [] [] State.init where
  accounts := ⟨rfl, by simp [live, terminals, State.init], .nil, .nil⟩
  table := ⟨.nil, by simp [State.init], rfl, by simp [State.init]⟩
  observed := by simp [ObservedOk, State.init]
  editions := ⟨by simp [terminals, State.init], .nil⟩

variable {n : Nat}

/-- What the accounts of the attempts do not look at. -/
def unaccounted (s : State) :=
  (s.proverTasksInProgress, s.nextCall, s.numberOfRunningProvers, s.observed,
    s.proverTasksEdited, s.editLog, s.nextEdition)

theorem Inv.frame {n' : Nat} {held' : List Callback} {editors : List EditorTask} {s' : State}
    (h : Inv n reported held editors s) (haccounts : Accounts n' held' s')
    (hsame : unaccounted s' = unaccounted s) : Inv n' reported held' editors s' := by
  simp only [unaccounted, Prod.mk.injEq] at hsame
  obtain ⟨htasks, hcall, hcounter, hobserved, hedited, hlog, hnext⟩ := hsame
  obtain ⟨⟨hdistinct, hfresh, hcount, hstarted⟩, hobs, hlocated, hlast⟩ :=
    And.intro h.table (And.intro h.observed h.editions)
  refine ⟨haccounts, ⟨?_, ?_, ?_, ?_⟩, ?_, ⟨?_, ?_⟩⟩
  · rwa [htasks]
  · rwa [htasks, hcall]
  · rwa [htasks, hcounter]
  · rwa [htasks]
  · rwa [ObservedOk, hobserved]
  · rwa [hedited, hlog, hnext]
  · rwa [hlog]

theorem TableOk.mono {reported' : List Nat} (h : TableOk reported s)
    (hsub : reported ⊆ reported') : TableOk reported' s :=
  { h with started := fun p hp hs => hsub (h.started p hp hs) }

/-- The accounts only depend on which callbacks are held and on the log. -/
theorem Accounts.move {held' : List Callback} {s' : State} (h : Accounts n held s)
    (hperm : (live s ++ held).Perm (live s' ++ held')) (hlog : s'.log = s.log)
    (hnext : s'.nextAttempt = s.nextAttempt)
    (hrun : s'.controllerRunningProofAttempts = s.controllerRunningProofAttempts) :
    Accounts n held' s' where
  attempts := hnext.trans h.attempts
  located := by
    intro a
    rw [hlog, ← h.located a]
    congr 1
    exact ((hperm.map _).count_eq a).symm
  terminalLast := hlog ▸ h.terminalLast
  running := hrun ▸ h.running.trans (hperm.map _)

/-- What the editor calls and the observer do not look at. -/
def unedited (s : State) :=
  (s.scheduledProofAttempts, s.proverTasksInProgress, s.nextAttempt, s.log,
    s.controllerRunningProofAttempts, s.nextCall, s.numberOfRunningProvers)

theorem Inv.edit {editors editors' : List EditorTask} {s' : State}
    (h : Inv n reported held editors s) (hsame : unedited s' = unedited s)
    (hobserved : ObservedOk s') (heditions : EditionsOk editors' s') :
    Inv n reported held editors' s' := by
  simp only [unedited, Prod.mk.injEq] at hsame
  obtain ⟨hqueue, htasks, hattempt, hlog, hrun, hcall, hcounter⟩ := hsame
  have hlive : live s' = live s := by rw [live, live, hqueue, htasks]
  obtain ⟨hdistinct, hfresh, hcount, hstarted⟩ := h.table
  refine ⟨h.accounts.move (by rw [hlive]) hlog hattempt hrun, ⟨?_, ?_, ?_, ?_⟩, hobserved,
    heditions⟩
  · rwa [htasks]
  · rwa [htasks, hcall]
  · rwa [htasks, hcounter]
  · rwa [htasks]

theorem terminals_cons (e : Nat × Status) (log : List (Nat × Status)) (a : Nat) :
    terminals (e :: log) a = terminals log a + if e.1 = a ∧ e.2.terminal = true then 1 else 0 := by
  unfold terminals
  rw [countP_cons]
  simp only [decide_eq_true_eq]

theorem terminals_cons_of_not_terminal {e : Nat × Status} (he : e.2.terminal = false)
    (log : List (Nat × Status)) (a : Nat) : terminals (e :: log) a = terminals log a := by
  rw [terminals_cons, he]
  simp

theorem terminal_of_terminals {log : List (Nat × Status)} {a : Nat} (h : terminals log a = 0) :
    ∀ e ∈ log, e.1 = a → e.2.terminal = false := by
  intro e he hea
  have hnone := countP_eq_zero.mp h e he
  simpa [hea] using hnone

theorem TerminalLast.cons {log : List (Nat × Status)} {a : Nat} (h : TerminalLast log)
    (ha : terminals log a = 0) (st : Status) : TerminalLast ((a, st) :: log) :=
  pairwise_cons.mpr ⟨terminal_of_terminals ha, h⟩

/-- Each number below `n` is in `ids` once or was ended once. -/
def Located (ids : List Nat) (log : List (Nat × Status)) (n : Nat) : Prop :=
  ∀ a, ids.count a + terminals log a = if a < n then 1 else 0

section Located
variable {ids ids' : List Nat} {log : List (Nat × Status)} {x : Nat} {st : Status}

theorem Located.terminals_of_mem (h : Located ids log n) (hx : x ∈ ids) : terminals log x = 0 := by
  have hlocated := h x
  have hpos := count_pos_iff.mpr hx
  split at hlocated <;> omega

theorem Located.terminals_next (h : Located ids log n) : terminals log n = 0 := by
  have hlocated := h n
  rw [if_neg (Nat.lt_irrefl _)] at hlocated
  omega

theorem Located.finish (h : Located ids log n) (hperm : ids.Perm (x :: ids'))
    (hst : st.terminal = true) : Located ids' ((x, st) :: log) n := by
  intro a
  have hlocated := h a
  rw [hperm.count_eq a, count_cons] at hlocated
  rw [terminals_cons, ← hlocated]
  simp only [hst, and_true, beq_iff_eq]
  omega

theorem Located.next (h : Located ids log n) (hperm : ids'.Perm (n :: ids))
    (hst : st.terminal = false) : Located ids' ((n, st) :: log) (n + 1) := by
  intro a
  have hlocated := h a
  rw [hperm.count_eq a, count_cons, terminals_cons_of_not_terminal hst]
  by_cases heq : n = a
  · subst heq
    rw [if_neg (Nat.lt_irrefl _)] at hlocated
    rw [if_pos (beq_self_eq_true _), if_pos (Nat.lt_succ_self _)]
    omega
  · rw [if_neg (by simpa using heq), Nat.add_zero, hlocated]
    split <;> split <;> omega

end Located

/-- An attempt that is held was not ended. -/
theorem Accounts.terminals_eq_zero (h : Accounts n held s)
    (hcb : cb ∈ live s ++ held) : terminals s.log cb.attempt = 0 :=
  Located.terminals_of_mem h.located (mem_map_of_mem hcb)

/-! Callbacks. -/

theorem live_append_cons (s : State) (cb : Callback) (held : List Callback) :
    (live s ++ cb :: held).Perm (cb :: (live s ++ held)) :=
  perm_middle

/-- The state after a callback is given a terminal status. -/
def finished (cb : Callback) (st : Status) (s : State) : State :=
  { s with
    controllerRunningProofAttempts := s.controllerRunningProofAttempts.erase cb.panid
    log := (cb.attempt, st) :: s.log }

theorem call_finish (cb : Callback) (st : Status) (s : State)
    (hst : st.terminal = true) (hdet : st ≠ .detached) :
    cb.call st s = (.ok (), finished cb st s) := by
  cases st with
  | done res => rfl
  | interrupted => rfl
  | internalFailure e => rfl
  | detached => exact absurd rfl hdet
  | undone | scheduled | running | uninstalled p | upgradeProver p | removed p => cases hst

theorem Accounts.finished (h : Accounts n (cb :: held) s) {st : Status} (hst : st.terminal = true) :
    Accounts n held (finished cb st s) where
  attempts := h.attempts
  located := Located.finish h.located ((live_append_cons s cb held).map (·.attempt)) hst
  terminalLast := h.terminalLast.cons (h.terminals_eq_zero (by simp)) st
  running := by
    have hperm := h.running.trans ((live_append_cons s cb held).map (·.panid))
    have herase := hperm.erase cb.panid
    rw [map_cons, erase_cons_head] at herase
    exact herase

theorem Accounts.running_log (h : Accounts n held s) (hcb : cb ∈ live s ++ held) :
    Accounts n held { s with log := (cb.attempt, .running) :: s.log } where
  attempts := h.attempts
  located := by
    intro a
    rw [terminals_cons_of_not_terminal rfl]
    exact h.located a
  terminalLast := h.terminalLast.cons (h.terminals_eq_zero hcb) .running
  running := h.running

/-! The queue. -/

theorem accounts_popScheduled {rest : List SchedPaRec} (h : Accounts n held s)
    (hs : s.scheduledProofAttempts = spa :: rest) :
    Accounts n (spa.spaCallback :: held) { s with scheduledProofAttempts := rest } := by
  refine h.move ?_ rfl rfl rfl
  simp only [live, hs]
  exact perm_middle.symm

/-- The state after an attempt is put in the queue and its callback told so. -/
def enqueued (spa : SchedPaRec) (s : State) : State :=
  { s with
    nextAttempt := s.nextAttempt + 1
    scheduledProofAttempts := s.scheduledProofAttempts ++ [spa]
    controllerRunningProofAttempts := spa.spaCallback.panid :: s.controllerRunningProofAttempts
    log := (spa.spaCallback.attempt, .scheduled) :: s.log
    idleHandlerRunning := true
    timeoutHandlerRunning := true }

theorem live_enqueued (spa : SchedPaRec) (s : State) :
    (live (enqueued spa s) ++ []).Perm (spa.spaCallback :: (live s ++ [])) := by
  simp only [live, enqueued, map_append,
    append_assoc]
  exact perm_middle

theorem Accounts.enqueued (h : Accounts n [] s) (hspa : spa.spaCallback.attempt = s.nextAttempt) :
    Accounts (n + 1) [] (enqueued spa s) := by
  have hnext : spa.spaCallback.attempt = n := hspa.trans h.attempts
  have hperm := (live_enqueued spa s).map (·.attempt)
  rw [map_cons, hnext] at hperm
  have hrunning := (live_enqueued spa s).map (·.panid)
  refine ⟨congrArg (· + 1) h.attempts, ?_, ?_, (h.running.cons _).trans hrunning.symm⟩
  · rw [Scheduler.enqueued, hnext]
    exact Located.next h.located hperm rfl
  · rw [Scheduler.enqueued, hnext]
    exact h.terminalLast.cons (Located.terminals_next h.located) .scheduled

/-! The table of calls in progress. -/

theorem nodup_filter_tpCall (p : TasksProgRec → Bool)
    (h : (l.map (·.tpCall)).Nodup) : ((l.filter p).map (·.tpCall)).Nodup :=
  h.sublist (filter_sublist.map _)

theorem countP_tpStarted_cons_filter {p : TasksProgRec} (hp : p ∈ l)
    (hl : (l.map (·.tpCall)).Nodup) : l.countP (·.tpStarted) =
      (l.filter fun q => q.tpCall ≠ p.tpCall).countP (·.tpStarted) +
        if p.tpStarted then 1 else 0 := by
  rw [(perm_cons_filter hp hl).countP_eq, countP_cons]

/-- The state after a call left the table. -/
def taskEnded (ptp : TasksProgRec) (s : State) : State :=
  if ptp.tpStarted then
    { removeTask ptp.tpCall s with numberOfRunningProvers := s.numberOfRunningProvers - 1 }
  else removeTask ptp.tpCall s

theorem taskEnded_eq (ptp : TasksProgRec) (s : State) : taskEnded ptp s = { s with
    proverTasksInProgress := s.proverTasksInProgress.filter fun p => p.tpCall ≠ ptp.tpCall
    numberOfRunningProvers := s.numberOfRunningProvers - if ptp.tpStarted then 1 else 0 } := by
  unfold taskEnded
  split <;> simp [removeTask]

theorem Accounts.taskEnded (h : Accounts n held s) (hmem : ptp ∈ s.proverTasksInProgress)
    (hdistinct : (s.proverTasksInProgress.map (·.tpCall)).Nodup) :
    Accounts n (ptp.tpCallback :: held) (taskEnded ptp s) := by
  rw [taskEnded_eq]
  refine h.move ?_ rfl rfl rfl
  have hperm := ((perm_cons_filter hmem hdistinct).map (·.tpCallback)).append_left
    (s.scheduledProofAttempts.map (·.spaCallback))
  rw [live, live]
  refine (hperm.append_right held).trans ?_
  simp only [map_cons, append_assoc, cons_append]
  refine (perm_middle.trans ?_)
  rw [← append_assoc, ← append_assoc]
  exact perm_middle.symm

theorem TableOk.taskEnded (h : TableOk reported s) (hmem : ptp ∈ s.proverTasksInProgress) :
    TableOk reported (taskEnded ptp s) := by
  rw [taskEnded_eq]
  refine ⟨nodup_filter_tpCall _ h.distinct, fun p hp => h.fresh p (mem_of_mem_filter hp), ?_,
    fun p hp => h.started p (mem_of_mem_filter hp)⟩
  rw [h.counter, countP_tpStarted_cons_filter hmem h.distinct]
  cases ptp.tpStarted <;> simp

theorem filter_tpCall_of_lt {n call : Nat} (hl : ∀ p ∈ l, p.tpCall ≤ n) (hlt : n < call) :
    (l.filter fun p => p.tpCall ≠ call) = l := by
  apply filter_eq_self.mpr
  intro p hp
  have hle := hl p hp
  simp only [decide_not, Bool.not_eq_true', decide_eq_false_iff_not]
  omega

theorem runs_startTask (spa : SchedPaRec) (skipped : Nat) :
    Runs (Inv n reported [spa.spaCallback] []) (startTask spa skipped)
      (Inv n reported [] []) := by
  apply runs_update
  intro s h
  have hfilter := filter_tpCall_of_lt h.table.fresh
    (show s.nextCall < s.nextCall + skipped + 1 by omega)
  simp only [replaceTask, hfilter]
  refine ⟨?_, ⟨?_, ?_, ?_, ?_⟩, h.observed, { h.editions with }⟩
  · refine h.accounts.move ?_ rfl rfl rfl
    simp only [live, append_nil]
    rw [append_assoc]
    exact List.Perm.append_left _ (perm_append_singleton _ _)
  · refine nodup_cons.mpr ⟨?_, h.table.distinct⟩
    intro hmem
    obtain ⟨p, hp, heq⟩ : ∃ p ∈ s.proverTasksInProgress,
        p.tpCall = s.nextCall + skipped + 1 := mem_map.mp hmem
    have hle := h.table.fresh p hp
    omega
  · intro p hp
    change p.tpCall ≤ s.nextCall + skipped + 1
    cases mem_cons.mp hp with
    | inl heq => rw [heq]
    | inr hp =>
      have hle := h.table.fresh p hp
      omega
  · rw [countP_cons_of_neg (by simp)]
    exact h.table.counter
  · exact forall_mem_cons.mpr ⟨nofun, h.table.started⟩

theorem runs_finish (cb : Callback) (st : Status)
    (hst : st.terminal = true) (hdet : st ≠ .detached) :
    Runs (Inv n reported [cb] []) (cb.call st) (Inv n reported [] []) := by
  intro s h
  exact ⟨finished cb st s, call_finish cb st s hst hdet, h.frame (h.accounts.finished hst) rfl⟩

theorem endTask_ok (h : Inv n reported [] [] s) (hmem : ptp ∈ s.proverTasksInProgress) (st : Status)
    (hst : st.terminal = true) (hdet : st ≠ .detached) :
    ∃ s', endTask ptp st s = (.ok (), s') ∧ Inv n reported [] [] s' := by
  have hheld : Inv n reported [ptp.tpCallback] [] (taskEnded ptp s) := by
    refine ⟨h.accounts.taskEnded hmem h.table.distinct, h.table.taskEnded hmem, ?_, ?_⟩
    · rw [taskEnded_eq]
      exact h.observed
    · rw [taskEnded_eq]
      exact { h.editions with }
  obtain ⟨s', hs', hinv⟩ := runs_finish ptp.tpCallback st hst hdet _ hheld
  refine ⟨s', ?_, hinv⟩
  rw [← hs']
  rfl

/-- The state after a call in progress is reported started. -/
def taskStarted (ptp : TasksProgRec) (s : State) : State :=
  replaceTask { ptp with tpStarted := true }
    { s with
      log := (ptp.tpCallback.attempt, .running) :: s.log
      numberOfRunningProvers := s.numberOfRunningProvers + 1 }

theorem inv_taskStarted (h : Inv n reported [] [] s) (hmem : ptp ∈ s.proverTasksInProgress)
    (hnot : ptp.tpStarted = false) :
    Inv n (reported ++ [ptp.tpCall]) [] [] (taskStarted ptp s) := by
  have hperm := perm_cons_filter hmem h.table.distinct
  refine ⟨?_, ⟨?_, ?_, ?_, ?_⟩, h.observed, { h.editions with }⟩
  · have hcb : ptp.tpCallback ∈ live s ++ [] := by
      rw [append_nil]
      exact mem_append_right _ (mem_map_of_mem hmem)
    refine (h.accounts.running_log hcb).move ?_ rfl rfl rfl
    have hmap := (hperm.map (·.tpCallback)).append_left (s.scheduledProofAttempts.map (·.spaCallback))
    exact hmap.append_right []
  · have hdistinct := (hperm.map (·.tpCall)).nodup_iff.mp h.table.distinct
    exact hdistinct
  · exact forall_mem_cons.mpr
      ⟨h.table.fresh ptp hmem, fun p hp => h.table.fresh p (mem_of_mem_filter hp)⟩
  · have hcount := countP_tpStarted_cons_filter hmem h.table.distinct
    have hcounter := h.table.counter
    rw [hnot] at hcount
    simp only [taskStarted, replaceTask, countP_cons_of_pos]
    simp only [Bool.false_eq_true, if_false] at hcount
    omega
  · exact forall_mem_cons.mpr ⟨fun _ => by simp,
      fun p hp hs => mem_append_left _ (h.table.started p (mem_of_mem_filter hp) hs)⟩

/-- The calls that a list of server results reports started. -/
def startedCalls (results : List (Nat × ProverUpdate)) : List Nat :=
  (results.filter fun r => r.2 = .proverStarted).map (·.1)

theorem handleUpdate_ok (h : Inv n reported [] [] s) (result : Nat × ProverUpdate)
    (hnew : ∀ c ∈ startedCalls [result], c ∉ reported) :
    ∃ s', handleUpdate result s = (.ok (), s') ∧
      Inv n (reported ++ startedCalls [result]) [] [] s' := by
  have hmono {s : State} (h : Inv n reported [] [] s) :
      Inv n (reported ++ startedCalls [result]) [] [] s :=
    { h with table := h.table.mono (subset_append_left _ _) }
  obtain ⟨call, update⟩ := result
  unfold handleUpdate
  cases hfind : findTask call s with
  | none => exact ⟨s, rfl, hmono h⟩
  | some ptp =>
    obtain ⟨hmem, rfl⟩ := findTask_mem hfind
    cases update with
    | noUpdates => exact ⟨s, rfl, hmono h⟩
    | proverStarted =>
      have hnot : ptp.tpStarted = false := by
        cases hs : ptp.tpStarted with
        | false => rfl
        | true => exact absurd (h.table.started ptp hmem hs) (hnew _ (by simp [startedCalls]))
      simp only [hnot]
      exact ⟨taskStarted ptp s, rfl, inv_taskStarted h hmem hnot⟩
    | proverFinished res =>
      exact (endTask_ok h hmem (.done _) rfl (by simp)).imp fun _ => .imp_right hmono
    | proverInterrupted =>
      exact (endTask_ok h hmem .interrupted rfl (by simp)).imp fun _ => .imp_right hmono
    | internalFailure e =>
      exact (endTask_ok h hmem (.internalFailure e) rfl (by simp)).imp fun _ => .imp_right hmono

theorem startedCalls_cons (result : Nat × ProverUpdate) (results : List (Nat × ProverUpdate)) :
    startedCalls (result :: results) = startedCalls [result] ++ startedCalls results := by
  unfold startedCalls
  rw [← map_append, ← filter_append, singleton_append]

/-- The results of one query: what they report started was not reported before. -/
theorem runs_handleUpdates (results : List (Nat × ProverUpdate))
    (hnew : (reported ++ startedCalls results).Nodup) :
    Runs (Inv n reported [] []) (iter handleUpdate results)
      (Inv n (reported ++ startedCalls results) [] []) := by
  induction results generalizing reported with
  | nil =>
    rw [show startedCalls [] = [] from rfl, append_nil]
    exact runs_skip
  | cons result results ih =>
    rw [startedCalls_cons, ← append_assoc] at hnew ⊢
    refine runs_andThen (fun s h => handleUpdate_ok h result ?_) (ih hnew)
    have hdisjoint := (nodup_append'.mp hnew.of_append_left).2.2
    exact fun c hc hr => hdisjoint hr hc

/-! Editor calls and the observer. -/

theorem runs_handleEditor (query : Nat → Option ProverResult)
    (c : EditorTask) (editors : List EditorTask) :
    Runs (Inv n reported [] (c :: editors)) (handleEditor query c)
      (Inv n reported [] editors) := by
  apply runs_update
  intro s h
  cases query c.edPid with
  | none =>
    refine h.edit rfl h.observed ⟨fun a => ?_, h.editions.terminalLast⟩
    rw [append_assoc]
    exact h.editions.located a
  | some res =>
    have hperm : (s.proverTasksEdited ++ c :: editors).Perm
        (c :: (s.proverTasksEdited ++ editors)) := perm_middle
    have hzero := Located.terminals_of_mem h.editions.located
      (mem_map_of_mem (hperm.mem_iff.mpr mem_cons_self))
    exact h.edit rfl h.observed
      ⟨Located.finish h.editions.located (hperm.map (·.edCallback.attempt)) rfl,
        h.editions.terminalLast.cons hzero _⟩

theorem runs_handleEditors (query : Nat → Option ProverResult)
    (editors : List EditorTask) :
    Runs (Inv n reported [] editors) (iter (handleEditor query) editors)
      (Inv n reported [] []) :=
  runs_iter (fun rest => Inv n reported [] rest)
    (fun c rest => runs_handleEditor query c rest) editors

theorem runs_updateObserver :
    Runs (Inv n reported [] []) updateObserver (Inv n reported [] []) := by
  apply runs_update
  intro s h
  refine h.edit rfl (forall_mem_cons.mpr ⟨?_, h.observed⟩) { h.editions with }
  have hle : s.proverTasksInProgress.countP (·.tpStarted) ≤ s.proverTasksInProgress.length :=
    countP_le_length
  have hcounter := h.table.counter
  simp only
  omega

/-! Handlers. -/

theorem runs_timeoutHandler (cfg : Config)
    (results : List (Nat × ProverUpdate)) (query : Nat → Option ProverResult)
    (hnew : (reported ++ startedCalls results).Nodup) :
    Runs (Inv n reported [] []) (timeoutHandler cfg results query)
      (Inv n (reported ++ startedCalls results) [] []) := by
  intro s h
  have hupdates : ∃ s', iter handleUpdate
      (if s.proverTasksInProgress.isEmpty then [] else results) s = (.ok (), s') ∧
      Inv n (reported ++ startedCalls results) [] [] s' := by
    split
    · exact ⟨s, rfl, { h with table := h.table.mono (subset_append_left _ _) }⟩
    · exact runs_handleUpdates results hnew s h
  obtain ⟨s1, h1, hinv1⟩ := hupdates
  have hsplit : Inv n (reported ++ startedCalls results) []
      (if cfg.blocking then [] else s1.proverTasksEdited)
      { s1 with proverTasksEdited := if cfg.blocking then s1.proverTasksEdited else [] } := by
    refine hinv1.edit rfl hinv1.observed ⟨fun a => ?_, hinv1.editions.terminalLast⟩
    have ha := hinv1.editions.located a
    cases cfg.blocking with
    | true | false => simpa using ha
  obtain ⟨s2, h2, hinv2⟩ := runs_andThen (runs_handleEditors query _)
    runs_updateObserver _ hsplit
  refine ⟨s2, ?_, hinv2⟩
  rw [← h2]
  simp only [timeoutHandler, andThen, h1]

/-- A call is built, its attempt is ended, or an exception leaves the attempt in
the hands of the idle handler. -/
theorem buildProverCall_ok (env : BuildEnv) (h : Inv n reported [spa.spaCallback] [] s) :
    (∃ s', buildProverCall env spa s = (.ok (), s') ∧ Inv n reported [] [] s') ∨
      ∃ e, buildProverCall env spa s = (.error e, s) := by
  have hprove : (∃ s', proveTask env spa s = (.ok (), s') ∧ Inv n reported [] [] s') ∨
      ∃ e, proveTask env spa s = (.error e, s) := by
    unfold proveTask
    cases env.getTask with
    | error e => exact .inr ⟨e, rfl⟩
    | ok u =>
      cases env.proveTask with
      | ok skipped => exact .inl (runs_startTask spa skipped s h)
      | error e =>
        cases e with
        | sysError msg => exact .inl (runs_finish spa.spaCallback _ rfl (by simp) s h)
        | notFound | queueEmpty | assertFailure | other name => exact .inr ⟨_, rfl⟩
  unfold buildProverCall
  cases env.command with
  | error e => exact .inr ⟨e, rfl⟩
  | ok u =>
    simp only [handle]
    cases hprove with
    | inl hok =>
      obtain ⟨s', hs', hinv⟩ := hok
      rw [hs']
      exact .inl ⟨s', rfl, hinv⟩
    | inr herr =>
      obtain ⟨e, he⟩ := herr
      rw [he]
      simp only
      by_cases hnf : e = .notFound
      · rw [if_pos hnf]
        exact .inr ⟨.assertFailure, rfl⟩
      · rw [if_neg hnf]
        exact .inr ⟨e, rfl⟩

theorem runs_popBuild (hst : cfg.stackTrace = false) (env : BuildEnv) :
    Runs (Inv n reported [] [])
      ((popScheduled fun spa => (buildProverCall env spa).handle fun e =>
          if cfg.stackTrace then none else some (spa.spaCallback.call (.internalFailure e))).handle
        fun e => if e = .queueEmpty then
          some (.update fun s => { s with idleHandlerRunning := false }) else none)
      (Inv n reported [] []) := by
  intro s h
  cases hq : s.scheduledProofAttempts with
  | nil =>
    refine ⟨{ s with idleHandlerRunning := false }, ?_, ?_⟩
    · simp [handle, popScheduled, hq, update]
    · exact h.frame (h.accounts.move (List.Perm.refl _) rfl rfl rfl) rfl
  | cons spa rest =>
    have hheld : Inv n reported [spa.spaCallback] []
        { s with scheduledProofAttempts := rest } :=
      h.frame (accounts_popScheduled h.accounts hq) rfl
    simp only [handle, popScheduled, hq, hst, Bool.false_eq_true, if_false]
    cases buildProverCall_ok env hheld with
    | inl hok =>
      obtain ⟨s', hs', hinv⟩ := hok
      rw [hs']
      exact ⟨s', rfl, hinv⟩
    | inr herr =>
      obtain ⟨e, he⟩ := herr
      rw [he]
      simp only
      obtain ⟨s', hs', hinv⟩ :=
        runs_finish spa.spaCallback (.internalFailure e) rfl (by simp) _ hheld
      rw [hs']
      exact ⟨s', rfl, hinv⟩

theorem runs_idleHandler (hst : cfg.stackTrace = false)
    (sessionMaxTasks : Nat) (env : BuildEnv) :
    Runs (Inv n reported [] []) (idleHandler cfg sessionMaxTasks env)
      (Inv n reported [] []) := by
  intro s h
  unfold idleHandler
  split
  · exact runs_andThen (runs_popBuild hst env) runs_updateObserver s h
  · exact runs_andThen (Procedure.runs_handle runs_skip)
      runs_updateObserver s h

/-- The state without its calls in progress. -/
def cleared (s : State) : State :=
  { s with proverTasksInProgress := [], numberOfRunningProvers := 0 }

/-- The callbacks of the calls in progress are held by the handler that drops
the table. -/
theorem inv_cleared (h : Inv n reported [] [] s) :
    Inv n reported (s.proverTasksInProgress.map (·.tpCallback)) [] (cleared s) := by
  refine ⟨h.accounts.move ?_ rfl rfl rfl, ⟨.nil, nofun, rfl, nofun⟩, h.observed,
    { h.editions with }⟩
  simp only [live, cleared, map_nil, append_nil]
  exact List.Perm.refl _

theorem runs_interruptTasks (queue : List SchedPaRec)
    (tasks : List TasksProgRec) :
    Runs (fun s => Inv n reported (tasks.map (·.tpCallback)) [] (cleared s) ∧
        s.scheduledProofAttempts = queue)
      (iter (fun e : TasksProgRec => e.tpCallback.call .interrupted) tasks)
      (fun s => Inv n reported [] [] (cleared s) ∧ s.scheduledProofAttempts = queue) := by
  refine runs_iter (fun rest s => Inv n reported (rest.map (·.tpCallback)) [] (cleared s) ∧
    s.scheduledProofAttempts = queue) (fun e rest s h => ?_) tasks
  exact ⟨finished e.tpCallback .interrupted s, rfl,
    h.1.frame (Accounts.finished (s := cleared s) h.1.accounts rfl) rfl, h.2⟩

variable (n reported) in
theorem runs_interruptScheduled (queue : List SchedPaRec) :
    Runs (fun s => Inv n reported [] [] s ∧ s.scheduledProofAttempts = queue ∧
        s.proverTasksInProgress = [])
      (iter (fun _ => popScheduled fun spa => spa.spaCallback.call .interrupted) queue)
      (fun s => Inv n reported [] [] s ∧ s.scheduledProofAttempts = [] ∧
        s.proverTasksInProgress = []) := by
  refine runs_iter (fun rest s => Inv n reported [] [] s ∧
    s.scheduledProofAttempts = rest ∧ s.proverTasksInProgress = []) ?_ queue
  rintro spa rest s ⟨h, hq, hempty⟩
  have hheld : Inv n reported [spa.spaCallback] [] { s with scheduledProofAttempts := rest } :=
    h.frame (accounts_popScheduled h.accounts hq) rfl
  refine ⟨finished spa.spaCallback .interrupted { s with scheduledProofAttempts := rest }, ?_,
    hheld.frame (hheld.accounts.finished rfl) rfl, rfl, hempty⟩
  simp only [popScheduled, hq]
  rfl

theorem runs_interrupt :
    Runs (Inv n reported [] []) interrupt (Inv n reported [] []) := by
  intro s h
  refine runs_andThen
    (runs_interruptTasks s.scheduledProofAttempts s.proverTasksInProgress)
    (runs_andThen (runs_update fun s1 h1 => ?_)
      (runs_andThen (runs_interruptScheduled reported n s.scheduledProofAttempts)
        (runs_update fun s2 h2 => ?_))) s ⟨inv_cleared h, rfl⟩
  · exact ⟨h1.1, h1.2, rfl⟩
  · obtain ⟨h2, -, -⟩ := h2
    exact h2.edit rfl (forall_mem_cons.mpr ⟨by simp, h2.observed⟩) { h2.editions with }

theorem runs_scheduleProofAttempt (r : Request) :
    Runs (Inv n reported [] []) (scheduleProofAttempt r) (Inv (n + 1) reported [] []) := by
  intro s h
  exact ⟨enqueued _ s, rfl, h.frame (h.accounts.enqueued rfl) rfl⟩

theorem runs_scheduleEdition (panid pid : Nat)
    (oldRes : Option ProverResult) :
    Runs (Inv n reported [] []) (scheduleEdition panid pid oldRes) (Inv n reported [] []) := by
  apply runs_update
  intro s h
  refine h.edit rfl h.observed ⟨Located.next h.editions.located ?_ rfl,
    h.editions.terminalLast.cons (Located.terminals_next h.editions.located) .running⟩
  rw [append_nil, append_nil, map_append]
  exact perm_append_singleton _ _

/-! Runs of the main loop. -/

/-- What the main loop fires, with what the handler learns from outside. -/
inductive Event where
  | schedule (r : Request)
  | edition (panid pid : Nat) (oldRes : Option ProverResult)
  | idle (sessionMaxTasks : Nat) (env : BuildEnv)
  | timeout (results : List (Nat × ProverUpdate)) (query : Nat → Option ProverResult)
  | interrupt

def Event.action (cfg : Config) : Event → Procedure Exn State
  | .schedule r => scheduleProofAttempt r
  | .edition panid pid oldRes => scheduleEdition panid pid oldRes
  | .idle sessionMaxTasks env => idleHandler cfg sessionMaxTasks env
  | .timeout results query => timeoutHandler cfg results query
  | .interrupt => Scheduler.interrupt

def Event.started : Event → List Nat
  | .timeout results _ => startedCalls results
  | _ => []

def Event.schedules : Event → Nat
  | .schedule _ => 1
  | _ => 0

theorem runs_event (hst : cfg.stackTrace = false) (event : Event)
    (hnew : (reported ++ event.started).Nodup) :
    Runs (Inv n reported [] []) (event.action cfg)
      (Inv (n + event.schedules) (reported ++ event.started) [] []) := by
  cases event with
  | timeout results query => exact runs_timeoutHandler cfg results query hnew
  | schedule r =>
    simp only [Event.started, append_nil]
    exact runs_scheduleProofAttempt r
  | edition panid pid oldRes =>
    simp only [Event.started, append_nil]
    exact runs_scheduleEdition panid pid oldRes
  | idle sessionMaxTasks env =>
    simp only [Event.started, append_nil]
    exact runs_idleHandler hst sessionMaxTasks env
  | interrupt =>
    simp only [Event.started, append_nil]
    exact runs_interrupt

theorem runs_events (hst : cfg.stackTrace = false) (events : List Event)
    (hnew : (reported ++ events.flatMap Event.started).Nodup) :
    Runs (Inv n reported [] []) (iter (Event.action cfg) events)
      (Inv (n + (events.map Event.schedules).sum)
        (reported ++ events.flatMap Event.started) [] []) := by
  induction events generalizing n reported with
  | nil =>
    rw [flatMap_nil, append_nil]
    exact runs_skip
  | cons event events ih =>
    rw [flatMap_cons, ← append_assoc] at hnew ⊢
    rw [map_cons, sum_cons, ← Nat.add_assoc]
    exact runs_andThen (runs_event hst event hnew.of_append_left) (ih hnew)

/-- The places an attempt can be in: the queue, the table of calls in progress,
and the statuses its callback was given. -/
def queued (s : State) (a : Nat) : Nat :=
  s.scheduledProofAttempts.countP fun spa => spa.spaCallback.attempt = a

def inProgress (s : State) (a : Nat) : Nat :=
  s.proverTasksInProgress.countP fun ptp => ptp.tpCallback.attempt = a

theorem count_live (s : State) (a : Nat) :
    ((live s).map (·.attempt)).count a = queued s a + inProgress s a := by
  unfold live queued inProgress
  rw [map_append, count_append, map_map, map_map, count_eq_countP,
    count_eq_countP, countP_map, countP_map]
  rfl

def request : Request where
  id := 0
  pr := "prover"
  saveTo := none
  limit := ⟨10, 1000, 0⟩
  panid := 0
  old := none
  scriptPath := id

/-- One attempt is scheduled, its call is made, reported started and interrupted
before the result arrives. -/
def lateResult : List Event :=
  [.schedule request, .idle 1 ⟨.ok (), .ok (), .ok 0⟩,
    .timeout [(1, .proverStarted)] fun _ => none, .interrupt,
    .timeout [(1, .proverFinished ⟨.valid, 1, 0⟩)] fun _ => none]

def AtMost (n : Nat) (s : State) : Prop := s.proverTasksInProgress.length ≤ n

theorem keeps_call (cb : Callback) (st : Status) : Keeps (AtMost n) (cb.call st) := by
  intro s h
  cases st <;> exact h

theorem keeps_endTask (ptp : TasksProgRec) (st : Status) : Keeps (AtMost n) (endTask ptp st) := by
  refine ends_andThen (fun s h => ?_) (keeps_call _ st)
  have hle : AtMost n (removeTask ptp.tpCall s) := (length_filter_le _ _).trans h
  dsimp only [update]
  split <;> exact hle

theorem keeps_handleUpdate (result : Nat × ProverUpdate) :
    Keeps (AtMost n) (handleUpdate result) := by
  intro s h
  rw [handleUpdate]
  split
  next => exact h
  next ptp hptp =>
    split
    next => exact h
    next =>
      split
      next => exact h
      next =>
        -- the new record of the call replaces the old one
        refine Nat.le_trans (Nat.succ_le_of_lt ?_) h
        exact length_filter_lt_length_iff_exists.mpr ⟨ptp, (findTask_mem hptp).1, by simp⟩
    all_goals exact keeps_endTask ptp _ s h

theorem keeps_timeoutHandler (results : List (Nat × ProverUpdate))
    (query : Nat → Option ProverResult) :
    Keeps (AtMost n) (timeoutHandler cfg results query) := by
  intro s h
  refine ends_andThen (keeps_iter keeps_handleUpdate _) (fun s h => ?_) s h
  refine ends_andThen (keeps_iter (fun c s h => ?_) _) (fun _ h => h) _ h
  dsimp only [handleEditor, update]
  split <;> exact h

/-- At most one call is made. -/
theorem ends_buildProverCall (env : BuildEnv) :
    Ends (AtMost n) (buildProverCall env spa) (AtMost (n + 1)) := by
  have hprove : Ends (AtMost n) (proveTask env spa) (AtMost (n + 1)) := by
    intro s h
    have h' : AtMost (n + 1) s := Nat.le_succ_of_le h
    rw [proveTask]
    cases env.getTask with
    | error e => exact h'
    | ok _ =>
      cases env.proveTask with
      | ok skipped => exact Nat.succ_le_succ ((length_filter_le _ _).trans h)
      | error e => cases e <;> exact h'
  rw [buildProverCall]
  split
  next => exact fun s h => Nat.le_succ_of_le h
  next =>
    refine ends_handle hprove fun e b hb => ?_
    split at hb <;> cases hb
    exact keeps_call _ _

theorem keeps_idleHandler (hblocking : cfg.blocking = false) {maxTasks : Nat}
    (hmax : cfg.multiplier * maxTasks ≤ n) (env : BuildEnv) :
    Keeps (AtMost n) (idleHandler cfg maxTasks env) := by
  intro s h
  rw [idleHandler, hblocking]
  refine ends_andThen (P := (s = ·)) (ends_handle ?_ fun e b hb => ?_) (fun _ h => h) s rfl
  · rintro _ rfl
    split
    next hroom =>
      have hroom : s.proverTasksInProgress.length < n :=
        Nat.lt_of_lt_of_le (by simpa using hroom) hmax
      obtain ⟨n, rfl⟩ := Nat.exists_eq_succ_of_ne_zero (Nat.ne_zero_of_lt hroom)
      rw [popScheduled]
      split
      next => exact h
      next spa rest _ =>
        refine ends_handle (ends_buildProverCall env) (fun e b hb => ?_)
          { s with scheduledProofAttempts := rest } (Nat.le_of_lt_succ hroom)
        split at hb <;> cases hb
        exact keeps_call _ _
    next => exact h
  · split at hb <;> cases hb
    exact fun _ h => h

theorem keeps_interrupt : Keeps (AtMost n) interrupt := by
  intro s h
  refine ends_andThen (keeps_iter (fun e => keeps_call _ _) _) (ends_andThen ?_
    (ends_andThen (keeps_iter (fun _ s h => ?_) _) fun _ h => h)) s h
  · exact fun _ _ => Nat.zero_le n
  · rw [popScheduled]
    split
    next => exact h
    next spa rest _ => exact keeps_call _ _ { s with scheduledProofAttempts := rest } h

/-- In every run of the handlers, also with exceptions, no more calls are in progress than the
multiplier allows for the largest limit met on the way. -/
theorem calls_bounded (cfg : Config) (hblocking : cfg.blocking = false) (events : List Event)
    {most : Nat} (hmost : ∀ maxTasks env, .idle maxTasks env ∈ events → maxTasks ≤ most) :
    (events.foldl (fun s event => (event.action cfg s).2) State.init).proverTasksInProgress.length ≤
      cfg.multiplier * most := by
  refine List.foldlRecOn (motive := AtMost (cfg.multiplier * most)) events _ (Nat.zero_le _)
    fun s hs event hevent => ?_
  cases event with
  | schedule r => exact hs
  | edition panid pid oldRes => exact hs
  | idle maxTasks env =>
    exact keeps_idleHandler hblocking (Nat.mul_le_mul_left _ (hmost _ _ hevent)) env s hs
  | timeout results query => exact keeps_timeoutHandler results query s hs
  | interrupt => exact keeps_interrupt s hs

theorem calls_bounded_two :
    let env : BuildEnv := ⟨.ok (), .ok (), .ok 0⟩
    ([.schedule request, .schedule request, .idle 1 env, .idle 1 env].foldl
      (fun s event => (Event.action ⟨false, 1, false⟩ event s).2)
      State.init).proverTasksInProgress.length ≤ 1 * 1 :=
  calls_bounded ⟨false, 1, false⟩ rfl _ (by simp +contextual)

end Scheduler
end Why3
