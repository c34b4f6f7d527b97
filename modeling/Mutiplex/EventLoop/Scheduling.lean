/-
# Nothing lost, nothing twice, everything in order

The invariant `Queues` splits the posted callbacks by the queue they went to:
each queue is first-in first-out, so that on either side what was posted is what
was executed followed by what still waits, in this order.  It holds for every
loop.  When the loop is run by the thread that constructed it, all posts of one
thread go to the same queue, and the order of each poster follows.
-/

import Mathlib.Algebra.Order.Group.Multiset
import Mutiplex.EventLoop.Basic

namespace Mutiplex

open Transition

namespace EventLoop

variable {τ κ : Type} [DecidableEq τ]
variable {s s' : EventLoop τ κ} {action : Action τ κ}

/-! ## The two queues -/

/-- Each queue is first-in first-out, and holds only its own kind. -/
structure Queues (s : EventLoop τ κ) : Prop where
  localOrder : s.posted.filter (·.onLoop) = s.executed.filter (·.onLoop) ++ s.localTasks
  foreignOrder :
    s.posted.filter (!·.onLoop) = s.executed.filter (!·.onLoop) ++ s.foreignTasks
  onLoop : ∀ entry ∈ s.taskQueue, entry.onLoop = true
  offLoop : ∀ entry ∈ s.foreignTasks, entry.onLoop = false
  batchOnly : s.callbacks ≠ [] → ∃ calling, s.phase = .batch calling
  frontKept : s.phase = .draining true → s.taskQueue ≠ []
  tickets : s.posted.map (·.ticket) = List.range s.posted.length

omit [DecidableEq τ] in
theorem queues_new (thread : τ) : (new thread : EventLoop τ κ).Queues where
  localOrder := rfl
  foreignOrder := rfl
  onLoop _ h := by simp [new] at h
  offLoop _ h := by simp [new, foreignTasks] at h
  batchOnly h := by simp [new] at h
  frontKept h := by simp [new] at h
  tickets := rfl

omit [DecidableEq τ] in
/-- A change of phase that neither enters nor leaves a call of a task keeps the
unfinished tasks. -/
theorem localTasks_of_phase (hphase : s'.phase ≠ .draining true)
    (hphase' : s.phase ≠ .draining true) (hqueue : s'.taskQueue = s.taskQueue) :
    s'.localTasks = s.localTasks := by
  rw [localTasks, localTasks, if_neg hphase, if_neg hphase', hqueue]

theorem posted_postCallback (thread : τ) (callback : κ) :
    (s.postCallback thread callback).posted = s.posted ++ [s.entry thread callback] := by
  unfold postCallback
  split <;> rfl

theorem executed_postCallback (thread : τ) (callback : κ) :
    (s.postCallback thread callback).executed = s.executed := by
  unfold postCallback
  split <;> rfl

theorem phase_postCallback (thread : τ) (callback : κ) :
    (s.postCallback thread callback).phase = s.phase := by
  unfold postCallback
  split <;> rfl

theorem callbacks_postCallback (thread : τ) (callback : κ) :
    (s.postCallback thread callback).callbacks = s.callbacks := by
  unfold postCallback
  split <;> rfl

/-- Posting appends to the one queue and leaves the other alone. -/
theorem tasks_postCallback (hkept : s.phase = .draining true → s.taskQueue ≠ [])
    (thread : τ) (callback : κ) :
    (s.entry thread callback).onLoop = true ∧
        (s.postCallback thread callback).localTasks =
          s.localTasks ++ [s.entry thread callback] ∧
        (s.postCallback thread callback).foreignTasks = s.foreignTasks ∨
      (s.entry thread callback).onLoop = false ∧
        (s.postCallback thread callback).localTasks = s.localTasks ∧
        (s.postCallback thread callback).foreignTasks =
          s.foreignTasks ++ [s.entry thread callback] := by
  by_cases hthread : s.pthreadId = thread
  · left
    refine ⟨by simp [entry, hthread], ?_, by simp [postCallback, hthread, foreignTasks]⟩
    by_cases hphase : s.phase = .draining true
    · simp [postCallback, hthread, localTasks, hphase, List.tail_append_of_ne_nil (hkept hphase)]
    · simp [postCallback, hthread, localTasks, hphase]
  · right
    refine ⟨by simp [entry, hthread], ?_, ?_⟩
    · simp [postCallback, hthread, localTasks, notifyEvent]
    · simp [postCallback, hthread, foreignTasks, notifyEvent]

theorem Queues.post (h : s.Queues) (thread : τ) (callback : κ) :
    (s.postCallback thread callback).Queues := by
  have htickets : (s.postCallback thread callback).posted.map (·.ticket) =
      List.range (s.postCallback thread callback).posted.length := by
    rw [posted_postCallback, List.map_append, h.tickets, List.length_append, List.length_cons,
      List.length_nil, List.range_succ]
    rfl
  have honLoop : ∀ entry ∈ (s.postCallback thread callback).taskQueue, entry.onLoop = true := by
    intro entry hentry
    by_cases hthread : s.pthreadId = thread
    · simp only [postCallback, hthread, if_true, List.mem_append, List.mem_singleton] at hentry
      rcases hentry with hold | rfl
      · exact h.onLoop entry hold
      · simp [EventLoop.entry, hthread]
    · simp only [postCallback, hthread, if_false, notifyEvent] at hentry
      exact h.onLoop entry hentry
  have hfront : (s.postCallback thread callback).phase = .draining true →
      (s.postCallback thread callback).taskQueue ≠ [] := by
    rw [phase_postCallback]
    intro hphase
    have := h.frontKept hphase
    unfold postCallback
    split <;> simp [notifyEvent, this]
  rcases tasks_postCallback h.frontKept thread callback with
    ⟨hon, hlocal, hforeign⟩ | ⟨hoff, hlocal, hforeign⟩
  · refine ⟨?_, ?_, honLoop, ?_, ?_, hfront, htickets⟩
    · rw [posted_postCallback, executed_postCallback, List.filter_append, h.localOrder, hlocal]
      simp [hon]
    · rw [posted_postCallback, executed_postCallback, List.filter_append, h.foreignOrder,
        hforeign]
      simp [hon]
    · rw [hforeign]
      exact h.offLoop
    · rw [callbacks_postCallback, phase_postCallback]
      exact h.batchOnly
  · refine ⟨?_, ?_, honLoop, ?_, ?_, hfront, htickets⟩
    · rw [posted_postCallback, executed_postCallback, List.filter_append, h.localOrder, hlocal]
      simp [hoff]
    · rw [posted_postCallback, executed_postCallback, List.filter_append, h.foreignOrder,
        hforeign]
      simp [hoff]
    · rw [hforeign]
      intro entry hentry
      rcases List.mem_append.mp hentry with hold | hnew
      · exact h.offLoop entry hold
      · rw [List.mem_singleton.mp hnew]
        exact hoff
    · rw [callbacks_postCallback, phase_postCallback]
      exact h.batchOnly

omit [DecidableEq τ] in
/-- Steps that only move the phase, or touch only the wake-up and stop fields. -/
theorem Queues.of_eq (h : s.Queues) (hposted : s'.posted = s.posted)
    (hexecuted : s'.executed = s.executed) (hqueue : s'.taskQueue = s.taskQueue)
    (hcallbacks : s'.callbacks = s.callbacks)
    (hpending : s'.pendingCallbacks = s.pendingCallbacks)
    (hphase : s'.phase = s.phase ∨
      s.callbacks = [] ∧ s'.phase ≠ .draining true ∧ s.phase ≠ .draining true) :
    s'.Queues := by
  have hlocal : s'.localTasks = s.localTasks := by
    rcases hphase with heq | ⟨-, hnew, hold⟩
    · rw [localTasks, localTasks, heq, hqueue]
    · exact localTasks_of_phase hnew hold hqueue
  have hforeign : s'.foreignTasks = s.foreignTasks := by
    rw [foreignTasks, foreignTasks, hcallbacks, hpending]
  refine ⟨?_, ?_, ?_, ?_, ?_, ?_, ?_⟩
  · rw [hposted, hexecuted, hlocal]
    exact h.localOrder
  · rw [hposted, hexecuted, hforeign]
    exact h.foreignOrder
  · rw [hqueue]
    exact h.onLoop
  · rw [hforeign]
    exact h.offLoop
  · rw [hcallbacks]
    intro hne
    rcases hphase with heq | ⟨hempty, -⟩
    · rw [heq]
      exact h.batchOnly hne
    · exact absurd hempty hne
  · intro hdraining
    rcases hphase with heq | ⟨-, hnew, -⟩
    · rw [hqueue]
      exact h.frontKept (heq ▸ hdraining)
    · exact absurd hdraining hnew
  · rw [hposted]
    exact h.tickets

omit [DecidableEq τ] in
/-- Outside the loop over the batch no callback of a batch waits. -/
theorem Queues.callbacks_eq_nil (h : s.Queues) (hphase : ∀ calling, s.phase ≠ .batch calling) :
    s.callbacks = [] := by
  by_contra hne
  obtain ⟨calling, heq⟩ := h.batchOnly hne
  exact hphase calling heq

omit [DecidableEq τ] in
/-- A step between two phases in which no callback is being called. -/
theorem Queues.change_phase (h : s.Queues) {phase : Phase}
    (hold : ∀ calling, s.phase ≠ .batch calling) (hnew : phase ≠ .draining true)
    (hidle : s.phase ≠ .draining true) (hposted : s'.posted = s.posted)
    (hexecuted : s'.executed = s.executed) (hqueue : s'.taskQueue = s.taskQueue)
    (hcallbacks : s'.callbacks = s.callbacks)
    (hpending : s'.pendingCallbacks = s.pendingCallbacks) (hphase : s'.phase = phase) :
    s'.Queues :=
  h.of_eq hposted hexecuted hqueue hcallbacks hpending
    (Or.inr ⟨h.callbacks_eq_nil hold, hphase ▸ hnew, hidle⟩)

/-- **Every step keeps the two queues in order.** -/
theorem Queues.move (h : s.Queues) (hmove : s.move action = some s') : s'.Queues := by
  cases moves_of_move hmove with
  | enterRun hphase hfree =>
      exact h.change_phase (by simp [hphase]) (by simp) (by simp [hphase]) rfl rfl rfl rfl rfl rfl
  | goOn hphase hrunning =>
      exact h.change_phase (by simp [hphase]) (by simp) (by simp [hphase]) rfl rfl rfl rfl rfl rfl
  | leave hphase hrunning =>
      exact h.change_phase (by simp [hphase]) (by simp) (by simp [hphase]) rfl rfl rfl rfl rfl rfl
  | waitFails hphase =>
      exact h.change_phase (by simp [hphase]) (by simp) (by simp [hphase]) rfl rfl rfl rfl rfl rfl
  | waitReturns hphase hcount =>
      exact h.change_phase (by simp [hphase]) (by simp) (by simp [hphase]) rfl rfl rfl rfl rfl rfl
  | readNotify hphase =>
      exact h.change_phase (by simp [hphase]) (by simp) (by simp [hphase]) rfl rfl rfl rfl rfl rfl
  | swapPending hphase =>
      have hnil := h.callbacks_eq_nil (by simp [hphase])
      have hforeign := h.foreignOrder
      have hoff := h.offLoop
      rw [foreignTasks, hnil, List.nil_append] at hforeign hoff
      refine ⟨?_, ?_, h.onLoop, ?_, fun _ => ⟨_, rfl⟩, by simp, h.tickets⟩
      · simpa [localTasks, hphase] using h.localOrder
      · simpa [foreignTasks] using hforeign
      · simpa [foreignTasks] using hoff
  | @callCallback entry rest hphase hcallbacks =>
      have hoff : entry.onLoop = false := h.offLoop entry (by simp [foreignTasks, hcallbacks])
      refine ⟨?_, ?_, h.onLoop, ?_, fun _ => ⟨_, rfl⟩, by simp, h.tickets⟩
      · simpa [localTasks, hphase, hoff] using h.localOrder
      · simpa [hoff, foreignTasks, hcallbacks] using h.foreignOrder
      · intro other hother
        apply h.offLoop
        simp only [foreignTasks, hcallbacks] at hother ⊢
        exact List.mem_cons_of_mem _ hother
  | callbackReturns hphase =>
      refine ⟨?_, h.foreignOrder, h.onLoop, h.offLoop, fun _ => ⟨_, rfl⟩, by simp, h.tickets⟩
      simpa [localTasks, hphase] using h.localOrder
  | endBatch hphase hcallbacks =>
      exact h.of_eq rfl rfl rfl rfl rfl (Or.inr ⟨hcallbacks, by simp, by simp [hphase]⟩)
  | @callTask entry rest hphase hqueue =>
      have hon : entry.onLoop = true := h.onLoop entry (by simp [hqueue])
      have hnil := h.callbacks_eq_nil (by simp [hphase])
      refine ⟨?_, ?_, h.onLoop, h.offLoop, fun hne => absurd hnil hne, by simp [hqueue],
        h.tickets⟩
      · simpa [localTasks, hphase, hqueue, hon] using h.localOrder
      · simpa [hon, foreignTasks] using h.foreignOrder
  | taskReturns hphase hqueue =>
      have hnil := h.callbacks_eq_nil (by simp [hphase])
      refine ⟨?_, h.foreignOrder, ?_, h.offLoop, fun hne => absurd hnil hne, by simp, h.tickets⟩
      · simpa [localTasks, hphase, hqueue] using h.localOrder
      · intro other hother
        exact h.onLoop other (by rw [hqueue]; exact List.mem_cons_of_mem _ hother)
  | endIteration hphase hqueue =>
      exact h.change_phase (by simp [hphase]) (by simp) (by simp [hphase]) rfl rfl rfl rfl rfl rfl
  | post hmay => exact h.post _ _
  | stopFlag hmay => exact h.of_eq rfl rfl rfl rfl rfl (Or.inl rfl)
  | stopNotify hmem => exact h.of_eq rfl rfl rfl rfl rfl (Or.inl rfl)

/-- The queues are in order in every reachable state. -/
theorem reach_queues {ok : EventLoop τ κ → Action τ κ → Prop} (h : machine.Reach ok s) :
    s.Queues := by
  refine h.invariant Queues ?_ ?_
  · rintro _ ⟨thread, rfl⟩
    exact queues_new thread
  · intro source action target _ hinv _ hstep
    exact hinv.move (move_of_step (step_eq_next.mp hstep))

/-! ## Conservation and order -/

omit [DecidableEq τ] in
/-- Whatever was posted was executed or waits in one of the queues, once. -/
theorem Queues.posted_eq (h : s.Queues) :
    (s.posted : Multiset (Posted τ κ)) =
      s.executed + s.pendingCallbacks + s.callbacks + s.localTasks := by
  have hsplit : ∀ l : List (Posted τ κ),
      (l : Multiset (Posted τ κ)) = l.filter (·.onLoop) + l.filter (!·.onLoop) := by
    intro l
    rw [Multiset.coe_add, Multiset.coe_eq_coe]
    exact (List.filter_append_perm (·.onLoop) l).symm
  calc (s.posted : Multiset (Posted τ κ))
      = s.posted.filter (·.onLoop) + s.posted.filter (!·.onLoop) := hsplit _
    _ = (s.executed.filter (·.onLoop) + s.localTasks) +
          (s.executed.filter (!·.onLoop) + (s.callbacks + s.pendingCallbacks)) := by
        rw [h.localOrder, h.foreignOrder, foreignTasks]
        simp only [Multiset.coe_add]
    _ = (s.executed.filter (·.onLoop) + s.executed.filter (!·.onLoop)) +
          s.pendingCallbacks + s.callbacks + s.localTasks := by
        ac_rfl
    _ = s.executed + s.pendingCallbacks + s.callbacks + s.localTasks := by
        rw [← hsplit s.executed]

omit [DecidableEq τ] in
theorem Queues.nodup_posted (h : s.Queues) : s.posted.Nodup := by
  apply List.Nodup.of_map (·.ticket)
  rw [h.tickets]
  exact List.nodup_range

omit [DecidableEq τ] in
theorem Queues.mem_posted_of_executed (h : s.Queues) {entry : Posted τ κ}
    (hentry : entry ∈ s.executed) : entry ∈ s.posted := by
  rw [← Multiset.mem_coe, h.posted_eq]
  simp only [Multiset.mem_add, Multiset.mem_coe]
  exact Or.inl (Or.inl (Or.inl hentry))

/-- A step posts one callback, or leaves the record of posts as it is; only
`run` sets the loop thread. -/
theorem move_frame (hmove : s.move action = some s') :
    (∃ thread callback, action = .post thread callback ∧
        s' = s.postCallback thread callback) ∨
      s'.posted = s.posted ∧
        (s'.pthreadId = s.pthreadId ∨ action = .enterRun s'.pthreadId) := by
  cases moves_of_move hmove with
  | post hmay => exact Or.inl ⟨_, _, rfl, rfl⟩
  | enterRun hphase hfree => exact Or.inr ⟨rfl, Or.inr rfl⟩
  | _ => exact Or.inr ⟨rfl, Or.inl rfl⟩

/-- A step calls the next callback, or leaves the record of calls as it is. -/
theorem executed_move (hmove : s.move action = some s') :
    (∃ entry, action.isCall = true ∧ s.nextEntry = some entry ∧
        s'.executed = s.executed ++ [entry]) ∨
      action.isCall = false ∧ s'.executed = s.executed := by
  cases moves_of_move hmove with
  | @callCallback entry rest hphase hcallbacks =>
      exact Or.inl ⟨entry, rfl, by simp [nextEntry, hphase, hcallbacks], rfl⟩
  | @callTask entry rest hphase hqueue =>
      exact Or.inl ⟨entry, rfl, by simp [nextEntry, hphase, hqueue], rfl⟩
  | post hmay => exact Or.inr ⟨rfl, executed_postCallback _ _⟩
  | _ => exact Or.inr ⟨rfl, rfl⟩

/-- What a step that posts nothing does to the callbacks that wait: it takes the
next one away, or leaves them all. -/
theorem tasks_move (h : s.Queues) (hmove : s.move action = some s')
    (hpost : action.isPost = false) :
    (∃ entry, action.isCall = true ∧ s.nextEntry = some entry ∧
        (s.localTasks = entry :: s'.localTasks ∧ s.foreignTasks = s'.foreignTasks ∨
          s.localTasks = s'.localTasks ∧ s.foreignTasks = entry :: s'.foreignTasks)) ∨
      action.isCall = false ∧ s.localTasks = s'.localTasks ∧ s.foreignTasks = s'.foreignTasks := by
  have h' := h.move hmove
  have hposted : s'.posted = s.posted := by
    rcases move_frame hmove with ⟨thread, callback, rfl, -⟩ | ⟨hposted, -⟩
    · cases hpost
    · exact hposted
  have hlocal := h'.localOrder
  have hforeign := h'.foreignOrder
  rw [hposted, h.localOrder] at hlocal
  rw [hposted, h.foreignOrder] at hforeign
  rcases executed_move hmove with ⟨entry, hcall, hnext, hexecuted⟩ | ⟨hcall, hexecuted⟩
  · refine Or.inl ⟨entry, hcall, hnext, ?_⟩
    rw [hexecuted, List.filter_append, List.append_assoc, List.append_cancel_left_eq] at hlocal
    rw [hexecuted, List.filter_append, List.append_assoc, List.append_cancel_left_eq] at hforeign
    cases hon : entry.onLoop with
    | true => exact Or.inl ⟨by simpa [hon] using hlocal, by simpa [hon] using hforeign⟩
    | false => exact Or.inr ⟨by simpa [hon] using hlocal, by simpa [hon] using hforeign⟩
  · rw [hexecuted, List.append_cancel_left_eq] at hlocal hforeign
    exact Or.inr ⟨hcall, hlocal, hforeign⟩

/-- A step that posts nothing puts nothing into the vectors of the loop. -/
theorem mem_entries_of_move (hmove : s.move action = some s') (hpost : action.isPost = false)
    {entry : Posted τ κ} (hentry : entry ∈ s'.entries) : entry ∈ s.entries := by
  cases moves_of_move hmove with
  | post hmay => cases hpost
  | _ =>
      simp only [entries, notifyEvent, List.mem_append] at hentry ⊢
      grind

theorem mem_unexecuted_of_move (h : s.Queues) (hmove : s.move action = some s')
    (hpost : action.isPost = false) {entry : Posted τ κ} (hentry : entry ∈ s'.unexecuted) :
    entry ∈ s.unexecuted := by
  unfold unexecuted at hentry ⊢
  rcases tasks_move h hmove hpost with
    ⟨called, -, -, ⟨hlocal, hforeign⟩ | ⟨hlocal, hforeign⟩⟩ | ⟨-, hlocal, hforeign⟩
  · rw [hlocal, hforeign]
    exact List.mem_cons_of_mem called hentry
  · rw [hlocal, hforeign]
    rcases List.mem_append.mp hentry with hleft | hright
    · exact List.mem_append_left _ hleft
    · exact List.mem_append_right _ (List.mem_cons_of_mem called hright)
  · rw [hlocal, hforeign]
    exact hentry

theorem mem_unexecuted_postCallback (h : s.Queues) (thread : τ) (callback : κ)
    {entry : Posted τ κ} (hentry : entry ∈ (s.postCallback thread callback).unexecuted) :
    entry ∈ s.unexecuted ∨ entry = s.entry thread callback := by
  unfold unexecuted at hentry ⊢
  rcases tasks_postCallback h.frontKept thread callback with
    ⟨-, hlocal, hforeign⟩ | ⟨-, hlocal, hforeign⟩
  · rw [hlocal, hforeign] at hentry
    grind
  · rw [hlocal, hforeign] at hentry
    grind

/-- A task waits until it is called. -/
theorem mem_localTasks_of_move (h : s.Queues) (hmove : s.move action = some s')
    (hpost : action.isPost = false) {entry : Posted τ κ} (hentry : entry ∈ s.localTasks) :
    entry ∈ s'.localTasks ∨ action.isCall = true ∧ s.nextEntry = some entry := by
  rcases tasks_move h hmove hpost with
    ⟨called, hcall, hnext, ⟨hlocal, -⟩ | ⟨hlocal, -⟩⟩ | ⟨-, hlocal, -⟩
  · rw [hlocal] at hentry
    rcases List.mem_cons.mp hentry with rfl | hrest
    · exact Or.inr ⟨hcall, hnext⟩
    · exact Or.inl hrest
  · exact Or.inl (hlocal ▸ hentry)
  · exact Or.inl (hlocal ▸ hentry)

theorem mem_localTasks_postCallback (h : s.Queues) (thread : τ) (callback : κ)
    {entry : Posted τ κ} (hentry : entry ∈ s.localTasks) :
    entry ∈ (s.postCallback thread callback).localTasks := by
  rcases tasks_postCallback h.frontKept thread callback with ⟨-, hlocal, -⟩ | ⟨-, hlocal, -⟩
  · rw [hlocal]
    exact List.mem_append_left _ hentry
  · rwa [hlocal]

/-- What the loop thread posts goes to the task queue. -/
theorem entry_mem_localTasks (h : s.Queues) (callback : κ) :
    s.entry s.pthreadId callback ∈ (s.postCallback s.pthreadId callback).localTasks := by
  rcases tasks_postCallback h.frontKept s.pthreadId callback with ⟨-, hlocal, -⟩ | ⟨hoff, -⟩
  · rw [hlocal]
    exact List.mem_append_right _ (List.mem_singleton_self _)
  · simp [entry] at hoff

omit [DecidableEq τ] in
/-- A callback that waits is still in one of the vectors of the loop. -/
theorem mem_entries_of_unexecuted {entry : Posted τ κ} (hentry : entry ∈ s.unexecuted) :
    entry ∈ s.entries := by
  simp only [unexecuted, foreignTasks, List.mem_append] at hentry
  simp only [entries, List.mem_append]
  rcases hentry with hlocal | hcallbacks | hpending
  · right
    unfold localTasks at hlocal
    split at hlocal
    · exact List.mem_of_mem_tail hlocal
    · exact hlocal
  · exact Or.inl (Or.inl (Or.inr hcallbacks))
  · exact Or.inl (Or.inl (Or.inl hpending))

omit [DecidableEq τ] in
theorem mem_unexecuted_of_nextEntry {entry : Posted τ κ} (h : s.nextEntry = some entry) :
    entry ∈ s.unexecuted := by
  unfold nextEntry at h
  simp only [unexecuted, localTasks, foreignTasks, List.mem_append]
  split at h
  · exact Or.inr (Or.inl (List.mem_of_mem_head? h))
  · rename_i hphase
    left
    rw [hphase, if_neg (by simp)]
    exact List.mem_of_mem_head? h
  · cases h

theorem mem_entries_postCallback (thread : τ) (callback : κ) {entry : Posted τ κ}
    (hentry : entry ∈ (s.postCallback thread callback).entries) :
    entry ∈ s.entries ∨ entry = s.entry thread callback := by
  unfold postCallback at hentry
  split at hentry
  · simp only [entries, List.mem_append, List.mem_singleton] at hentry ⊢
    grind
  · simp only [entries, notifyEvent, List.mem_append, List.mem_singleton] at hentry ⊢
    grind

omit [DecidableEq τ] in
/-- The next callback, if it was posted on the loop thread, is the front of the
task queue. -/
theorem Queues.localTasks_of_nextEntry (h : s.Queues) {entry : Posted τ κ}
    (hnext : s.nextEntry = some entry) (hon : entry.onLoop = true) :
    ∃ rest, s.localTasks = entry :: rest := by
  unfold nextEntry at hnext
  split at hnext
  · have hoff := h.offLoop entry (List.mem_append_left _ (List.mem_of_mem_head? hnext))
    rw [hon] at hoff
    cases hoff
  · rename_i hphase
    obtain ⟨rest, hqueue⟩ := List.head?_eq_some_iff.mp hnext
    exact ⟨rest, by rw [localTasks, hphase, if_neg (by simp), hqueue]⟩
  · cases hnext

omit [DecidableEq τ] in
/-- When a task that was posted on the loop thread is called, the posts that were
made there before it have been called. -/
theorem Queues.executed_of_before (h : s.Queues) {entry other : Posted τ κ}
    (hnext : s.nextEntry = some entry) (hon : entry.onLoop = true)
    {before after : List (Posted τ κ)}
    (hposted : s.posted = before ++ entry :: after) (hother : other ∈ before)
    (hotherOn : other.onLoop = true) : other ∈ s.executed := by
  obtain ⟨rest, hlocal⟩ := h.localTasks_of_nextEntry hnext hon
  have hnodup := h.nodup_posted
  rw [hposted, List.nodup_append, List.nodup_cons] at hnodup
  have horder := h.localOrder
  rw [hposted, hlocal, List.filter_append, List.filter_cons_of_pos hon,
    List.append_cons_inj_of_notMem] at horder
  · have hmem : other ∈ before.filter (·.onLoop) := List.mem_filter.mpr ⟨hother, hotherOn⟩
    rw [horder.1] at hmem
    exact List.mem_of_mem_filter hmem
  · exact fun hmem => hnodup.2.2 entry (List.mem_of_mem_filter hmem) entry List.mem_cons_self rfl
  · exact fun hmem => hnodup.2.1.1 (List.mem_of_mem_filter hmem)

theorem pthreadId_postCallback (thread : τ) (callback : κ) :
    (s.postCallback thread callback).pthreadId = s.pthreadId := by
  unfold postCallback
  split <;> rfl

/-- In a loop run by its owner the posts of the owner, and only those, are
posts on the loop thread. -/
theorem reach_owner (h : machine.Reach RunByOwner s) :
    ∀ entry ∈ s.posted, (entry.onLoop = true ↔ entry.thread = s.pthreadId) := by
  refine h.invariant
    (fun s => ∀ entry ∈ s.posted, (entry.onLoop = true ↔ entry.thread = s.pthreadId)) ?_ ?_
  · rintro _ ⟨thread, rfl⟩ entry hentry
    simp [new] at hentry
  · intro source action target _ hinv howner hstep entry hentry
    rcases move_frame (move_of_step (step_eq_next.mp hstep)) with
      ⟨thread, callback, rfl, rfl⟩ | ⟨hposted, hthread⟩
    · rw [posted_postCallback] at hentry
      rw [pthreadId_postCallback]
      rcases List.mem_append.mp hentry with hold | hnew
      · exact hinv entry hold
      · rw [List.mem_singleton.mp hnew]
        simp [EventLoop.entry, eq_comm]
    · have hsame : target.pthreadId = source.pthreadId := by
        rcases hthread with heq | rfl
        · exact heq
        · exact howner
      rw [hsame]
      exact hinv entry (hposted ▸ hentry)

/-- What one thread posted splits into what was executed of it and what still
waits, as far as all its posts went to the same queue. -/
theorem filter_thread_prefix (h : s.Queues) {thread : τ} (side : Bool)
    (hside : ∀ entry ∈ s.posted, entry.thread = thread → entry.onLoop = side) :
    s.executed.filter (·.thread = thread) <+: s.posted.filter (·.thread = thread) := by
  have hfilter : ∀ l : List (Posted τ κ), (∀ entry ∈ l, entry ∈ s.posted) →
      (l.filter (·.onLoop == side)).filter (·.thread = thread) =
        l.filter (·.thread = thread) := by
    intro l hl
    rw [List.filter_filter]
    apply List.filter_congr
    intro entry hentry
    by_cases hthread : entry.thread = thread
    · simp [hthread, hside entry (hl entry hentry) hthread]
    · simp [hthread]
  have horder : ∃ waiting, s.posted.filter (·.onLoop == side) =
      s.executed.filter (·.onLoop == side) ++ waiting := by
    cases side with
    | true => exact ⟨s.localTasks, by simpa using h.localOrder⟩
    | false => exact ⟨s.foreignTasks, by simpa using h.foreignOrder⟩
  obtain ⟨waiting, horder⟩ := horder
  rw [← hfilter s.posted fun _ h => h,
    ← hfilter s.executed fun _ => h.mem_posted_of_executed, horder, List.filter_append]
  exact List.prefix_append _ _

/-- **Callback scheduling loses and duplicates nothing and keeps every poster's
order.** In a loop run by the thread that constructed it, at every point of
every interleaving, the posted callbacks are all different and are, as a
multiset, the executed ones, the pending ones, the rest of the swapped batch and
the task queue without the task being executed; and each thread's callbacks were
executed in the order in which that thread posted them. -/
theorem callbacks_conserved_in_order (s : EventLoop τ κ) (h : machine.Reach RunByOwner s) :
    (s.posted : Multiset (Posted τ κ)) =
        s.executed + s.pendingCallbacks + s.callbacks + s.localTasks ∧
      s.posted.Nodup ∧
      ∀ thread, s.executed.filter (·.thread = thread) <+: s.posted.filter (·.thread = thread) := by
  have hqueues := reach_queues h
  have howner := reach_owner h
  refine ⟨hqueues.posted_eq, hqueues.nodup_posted, fun thread => ?_⟩
  by_cases hthread : thread = s.pthreadId
  · refine filter_thread_prefix hqueues true fun entry hentry heq => ?_
    exact (howner entry hentry).mpr (heq.trans hthread)
  · refine filter_thread_prefix hqueues false fun entry hentry heq => ?_
    rw [← Bool.not_eq_true, howner entry hentry]
    exact fun hloop => hthread (heq.symm.trans hloop)

/-- A run in which the owner posts before `run`, from a handler and from a
callback of the batch, and another thread posts while the loop waits. -/
theorem callbacks_conserved_in_order_of_two_threads :
    ∃ s : EventLoop ℕ Char, machine.Reach RunByOwner s ∧
      s.executed.map (·.callback) = ['x', 'a'] ∧
      s.executed.filter (·.thread = 0) <+: s.posted.filter (·.thread = 0) := by
  let x : Posted ℕ Char := ⟨1, 1, false, 'x'⟩
  let a : Posted ℕ Char := ⟨0, 0, true, 'a'⟩
  let b : Posted ℕ Char := ⟨0, 2, true, 'b'⟩
  let c : Posted ℕ Char := ⟨0, 3, true, 'c'⟩
  let s : EventLoop ℕ Char :=
    { pthreadId := 0, running := true, notifyCount := 0, pendingCallbacks := []
      taskQueue := [a, b, c], ran := [x], callbacks := [], phase := .draining true
      stopping := [], stopped := false, iteration := 1
      posted := [a, x, b, c], executed := [x, a] }
  have hreach : machine.Reach RunByOwner s :=
    (Machine.Reach.init ⟨0, rfl⟩ : machine.Reach RunByOwner (new 0)).runWithin
      [.post 0 'a', .enterRun 0, .testRunning, .post 1 'x', .epollWait (some true),
        .readNotify, .post 0 'b', .swapPending, .callCallback, .post 0 'c', .callbackReturns,
        .endBatch, .callTask] rfl
  exact ⟨s, hreach, rfl, (callbacks_conserved_in_order s hreach).2.2 0⟩

end EventLoop

end Mutiplex
