/-
# The end of the input

When `read` returns 0 the peer has shut down its side, and the socket stays
readable for ever.  The reading callback answers with `disable_reading`, and
nothing turns reading on again: a connection asks for `EPOLLIN` when it is
registered and not later.  So the end of the input is read once, the loop does
not spin on it, and it asks for one `close`.
-/

import Mutiplex.Connection.Noted
import Mutiplex.Connection.Output
import Mutiplex.Connection.Descriptors

namespace Mutiplex

open CMemory Transition

variable {τ : Type} [DecidableEq τ]

/-! ## The bit of `EPOLLIN` -/

@[simp]
theorem wants_in_remove_out (ops : UInt32) :
    wants (ops &&& ~~~epollOut) epollIn = wants ops epollIn := by
  rw [wants, wants, UInt32.and_assoc]
  rfl

@[simp]
theorem wants_in_or_out (ops : UInt32) : wants (ops ||| epollOut) epollIn = wants ops epollIn := by
  rw [wants, wants, or_and_of_disjoint rfl]

@[simp]
theorem wants_in_zero : wants 0 epollIn = false := rfl

namespace Connection

variable {conn : Connection} {c : ConnId} {table : Epoll ConnId} {registered : Bool} {job : Job}
  {effect : Effect}

/-- No job asks for `EPOLLIN`. -/
theorem Ran.wants_in (h : Ran conn c table registered job effect)
    (hwants : wants effect.conn.source.interestOps epollIn = true) :
    wants conn.source.interestOps epollIn = true ∧ job ≠ .read 0 := by
  cases h with
  | error => simp [errorCallback, withSource] at hwants
  | readEnds => simp [withSource, EventSource.disableReading] at hwants
  | writesLast =>
      exact ⟨by simpa [withSource, EventSource.disableWriting, afterWrite] using hwants, by simp⟩
  | writesAll =>
      exact ⟨by simpa [withSource, EventSource.disableWriting, afterWrite] using hwants, by simp⟩
  | appends => exact ⟨by simpa [withSource, EventSource.enableWriting] using hwants, by simp⟩
  | forceCloses => simp [EventSource.setInterestOps] at hwants
  | readFails hn =>
      refine ⟨hwants, ?_⟩
      rintro ⟨⟩
      exact absurd hn (by decide)
  | reads hn =>
      refine ⟨hwants, ?_⟩
      rintro ⟨⟩
      exact absurd hn (by decide)
  | _ => exact ⟨hwants, by simp⟩

end Connection

/-! ## Reading callbacks on the stack -/

/-- The connection whose reading callback a frame may still call. -/
def Frame.input : Frame → Option ConnId
  | .events c readyOps => if wants readyOps epollIn then some c else none
  | _ => none

theorem Frame.input_of_isIdle {frame : Frame} (h : frame.isIdle = true) : frame.input = none := by
  cases frame <;> first | rfl | cases h

theorem Shrinks.input {old new : List Frame} (h : Shrinks old new) :
    (new.filterMap Frame.input).Sublist (old.filterMap Frame.input) := by
  obtain ⟨idle, rest, rfl, hsuffix, hidle⟩ := h
  rw [List.filterMap_append, List.filterMap_eq_nil_iff.mpr, List.nil_append]
  · exact hsuffix.sublist.filterMap Frame.input
  · exact fun frame hframe => Frame.input_of_isIdle (hidle frame hframe)

theorem input_frameRest (frame : Frame) : (World.frameRest frame).filterMap Frame.input = [] := by
  cases frame with
  | events c readyOps =>
      simp only [World.frameRest]
      split <;> rfl
  | _ => rfl

namespace World

variable {w w' : World τ} {action : Action τ} {c : ConnId}

theorem input_apply {conn : Connection} {table : Epoll ConnId} {registered : Bool}
    {entry : Option (Posted τ Task)} {job : Job} {found : ConnState} {effect : Effect}
    (hran : conn.Ran c table registered job effect) :
    (w.apply entry c job found effect).stack.filterMap Frame.input =
      w.stack.filterMap Frame.input := by
  have hcalled :
      ((effect.called.map fun _ => Frame.inside (some c)).toList).filterMap Frame.input = [] := by
    cases effect.called <;> rfl
  have hafter : effect.after.filterMap Frame.input = [] := by
    refine List.filterMap_eq_nil_iff.mpr fun frame hframe => ?_
    rcases hran.after_eq hframe with rfl | rfl <;> rfl
  simp only [World.apply, List.filterMap_append, hcalled, hafter, List.nil_append]

/-- Reading callbacks come from `epoll_wait` only. -/
theorem Moves.input (hmoves : Moves w action w') :
    (w'.stack.filterMap Frame.input).Sublist (w.stack.filterMap Frame.input) ∨
      ∃ events, w.Reports events ∧ w'.stack = events.filterMap w.readyFrame := by
  cases hmoves with
  | loop hstep hpost hcall hstack => exact Or.inl hstack.input
  | epollWait hempty hreports => exact Or.inr ⟨_, hreports, rfl⟩
  | pointers hconnections howned hstack => exact Or.inl hstack.input
  | destroyed hlost hnot hheld hstack => exact Or.inl (by simpa using hstack.input)
  | posted => exact Or.inl (List.Sublist.refl _)
  | setCallbacks => exact Or.inl (List.Sublist.refl _)
  | fdClosed => exact Or.inl (List.Sublist.refl _)
  | @born fd callbacks =>
      have hinput : (w.onNewConnection fd callbacks).stack.filterMap Frame.input =
          w.stack.filterMap Frame.input := by
        simp only [onNewConnection, List.filterMap_append]
        cases w.connections.lookup fd <;>
          cases (Connection.registerEvent fd callbacks w.nextId w.epoll).1.userCallback
            .established <;> rfl
      exact Or.inl (hinput ▸ List.Sublist.refl _)
  | @exec _ frame rest _ _ _ _ hidle hstack hjob hconn hanswers hran =>
      left
      rw [input_apply hran, hstack, List.filterMap_append, input_frameRest, List.nil_append]
      exact (List.sublist_cons_self frame rest).filterMap Frame.input
  | call hempty hcall hnext hstep hjob hconn hanswers hran =>
      left
      rw [input_apply hran]

omit [DecidableEq τ] in
/-- The reading callbacks to come after `epoll_wait`. -/
theorem mem_input_readyFrame {events : List Ready}
    (hc : c ∈ (events.filterMap w.readyFrame).filterMap Frame.input) :
    ∃ fd readyOps entry, .source fd readyOps ∈ events ∧ w.epoll fd = some entry ∧
      entry.ptr = c ∧ wants readyOps epollIn = true := by
  obtain ⟨frame, hframe, hinput⟩ := List.mem_filterMap.mp hc
  rcases mem_readyFrame hframe with rfl | rfl | ⟨fd, readyOps, entry, hready, hentry, rfl⟩
  · cases hinput
  · cases hinput
  · simp only [Frame.input] at hinput
    split at hinput
    · rename_i hwants
      cases hinput
      exact ⟨fd, readyOps, entry, hready, hentry, rfl, hwants⟩
    · cases hinput

omit [DecidableEq τ] in
theorem nodup_input_readyFrame {events : List Ready} (hbacked : w.Backed)
    (hreports : w.Reports events) :
    ((events.filterMap w.readyFrame).filterMap Frame.input).Nodup := by
  obtain ⟨-, hnodup, -⟩ := hreports
  rw [List.Nodup, List.pairwise_filterMap] at hnodup
  rw [List.filterMap_filterMap, List.Nodup, List.pairwise_filterMap]
  refine hnodup.imp ?_
  intro first second hfds c hc c' hc' heq
  subst heq
  have hmem : ∀ ready : Ready, (w.readyFrame ready).bind Frame.input = some c →
      ∃ fd ops entry, ready = .source fd ops ∧ w.epoll fd = some entry ∧ entry.ptr = c := by
    intro ready hready
    have hin : c ∈ ([ready].filterMap w.readyFrame).filterMap Frame.input := by
      simp [List.filterMap_filterMap, hready]
    obtain ⟨fd, ops, entry, hmem, hentry, hptr, -⟩ := mem_input_readyFrame hin
    exact ⟨fd, ops, entry, (List.mem_singleton.mp hmem).symm, hentry, hptr⟩
  obtain ⟨fd, ops, entry, rfl, hentry, hptr⟩ := hmem first hc
  obtain ⟨fd', ops', entry', rfl, hentry', hptr'⟩ := hmem second hc'
  obtain ⟨conn, hconn, hfd⟩ := hbacked.of_entry hentry
  obtain ⟨conn', hconn', hfd'⟩ := hbacked.of_entry hentry'
  rw [hptr] at hconn
  rw [hptr'] at hconn'
  cases hconn.symm.trans hconn'
  exact hfds fd rfl fd' rfl (hfd.symm.trans hfd')

/-- In one round of events a connection is read from once. -/
theorem reach_nodup_input {ok : World τ → Action τ → Prop} (h : machine.Reach ok w) :
    (w.stack.filterMap Frame.input).Nodup := by
  refine reach_invariant (fun w => (w.stack.filterMap Frame.input).Nodup)
    (fun _ => List.nodup_nil) ?_ h
  intro source action target hreach hinv _ hmoves
  rcases hmoves.input with hsublist | ⟨events, hreports, hstack⟩
  · exact hinv.sublist hsublist
  · rw [hstack]
    exact nodup_input_readyFrame (reach_backed hreach) hreports

/-! ## Nothing is read behind the end -/

/-- Nothing will read from the connection: neither its event source nor the
kernel waits for `EPOLLIN`, and no reading callback is to come. -/
structure Deaf (c : ConnId) (w : World τ) : Prop where
  named : c < w.nextId
  source : ∀ conn, w.conns c = some conn → wants conn.source.interestOps epollIn = false
  kernel : ∀ fd entry, w.epoll fd = some entry → entry.ptr = c →
    wants entry.events epollIn = false
  frames : c ∉ w.stack.filterMap Frame.input

omit [DecidableEq τ] in
/-- Entries and event sources of other connections do not matter. -/
theorem Deaf.table (h : Deaf c w) {other : ConnId} (hne : c ≠ other) {events : UInt32}
    {entry : EpollEntry ConnId} {fd : ℤ} (hptr : entry.ptr = c)
    (hentry : w.epoll fd = some entry ∨ entry = ⟨events, other⟩) :
    wants entry.events epollIn = false := by
  rcases hentry with hold | rfl
  · exact h.kernel fd entry hold hptr
  · exact absurd hptr.symm hne

theorem Deaf.apply {entry : Option (Posted τ Task)} {other : ConnId} {job : Job}
    {found : ConnState} {conn : Connection} {effect : Effect} (h : Deaf c w)
    (hconn : w.conns other = some conn)
    (hran : conn.Ran other w.epoll (w.registered conn.fd) job effect)
    (hframes : c ∉ (w.apply entry other job found effect).stack.filterMap Frame.input) :
    Deaf c (w.apply entry other job found effect) := by
  refine ⟨h.named, fun conn' hconn' => ?_, fun fd e hentry hptr => ?_, hframes⟩
  · by_cases hc : c = other
    · subst hc
      cases (Function.update_self ..).symm.trans hconn'
      by_contra hwants
      have hbefore := (hran.wants_in (by simpa using hwants)).1
      rw [h.source conn hconn] at hbefore
      cases hbefore
    · have hsame : w.conns c = some conn' := (Function.update_of_ne hc ..).symm.trans hconn'
      exact h.source conn' hsame
  · by_cases hc : c = other
    · subst hc
      rcases hran.entry hentry with ⟨hold, -⟩ | rfl
      · exact h.kernel fd e hold hptr
      · by_contra hwants
        have hbefore := (hran.wants_in (by simpa using hwants)).1
        rw [h.source conn hconn] at hbefore
        cases hbefore
    · exact h.table hc hptr ((hran.entry hentry).imp And.left id)

theorem Deaf.moves (h : Deaf c w) (hmoves : Moves w action w') : Deaf c w' := by
  have hframes : c ∉ w'.stack.filterMap Frame.input := by
    intro hmem
    rcases hmoves.input with hsublist | ⟨events, hreports, hstack⟩
    · exact h.frames (hsublist.subset hmem)
    · rw [hstack] at hmem
      obtain ⟨fd, readyOps, entry, hready, hentry, hptr, hwants⟩ := mem_input_readyFrame hmem
      have hreported := hreports.1 _ hready
      simp only [Reportable, hentry, beq_iff_eq] at hreported
      have hasked := wants_of_reported rfl hwants hreported
      rw [h.kernel fd entry hentry hptr] at hasked
      cases hasked
  cases hmoves with
  | loop => exact ⟨h.named, h.source, h.kernel, hframes⟩
  | epollWait => exact ⟨h.named, h.source, h.kernel, hframes⟩
  | pointers => exact ⟨h.named, h.source, h.kernel, hframes⟩
  | posted => exact ⟨h.named, h.source, h.kernel, hframes⟩
  | fdClosed =>
      exact ⟨h.named, h.source, fun fd entry hentry => h.kernel fd entry (closeFd_eq_some.mp
        hentry).2, hframes⟩
  | @destroyed _ lost held stack =>
      refine ⟨by simpa using h.named, fun conn hconn => ?_, fun fd entry hentry hptr => ?_,
        hframes⟩
      · rw [conns_destroy] at hconn
        refine h.source conn ?_
        by_cases hc : c = lost
        · rw [hc, Function.update_self] at hconn
          cases hconn
        · rwa [Function.update_of_ne hc] at hconn
      · refine h.kernel fd entry ?_ hptr
        unfold destroy at hentry
        split at hentry
        · exact hentry
        · exact EventSource.entry_of_disableAll (closeFd_eq_some.mp hentry).2
  | @setCallbacks _ other conn callbacks hconn =>
      refine ⟨h.named, fun conn' hconn' => ?_, h.kernel, hframes⟩
      by_cases hc : c = other
      · subst hc
        cases (Function.update_self ..).symm.trans hconn'
        exact h.source conn hconn
      · have hsame : w.conns c = some conn' := (Function.update_of_ne hc ..).symm.trans hconn'
        exact h.source conn' hsame
  | @born fd callbacks =>
      have hc : c ≠ w.nextId := h.named.ne
      refine ⟨Nat.lt_succ_of_lt h.named, fun conn hconn => h.source conn ?_,
        fun fd' entry hentry hptr => h.table hc hptr (EventSource.entry_of_enableOps hentry),
        hframes⟩
      exact (Function.update_of_ne hc ..).symm.trans hconn
  | exec hidle hstack hjob hconn hanswers hran =>
      -- the frame that runs is gone, and none of those it leaves reads
      have hrest : Deaf c { w with stack := frameRest _ ++ _ } :=
        ⟨h.named, h.source, h.kernel, by rwa [input_apply hran] at hframes⟩
      exact hrest.apply hconn hran hframes
  | @call _ entry loop _ _ _ _ hempty hcall hnext hstep hjob hconn hanswers hran =>
      have hcalled : Deaf c { w with loop := loop } := ⟨h.named, h.source, h.kernel, h.frames⟩
      exact hcalled.apply hconn hran hframes

omit [DecidableEq τ] in
/-- Only the first half of `handle_events` reads. -/
theorem eq_events_of_frameJob {n m : ℤ} {frame : Frame}
    (h : frameJob n frame = some (c, .read m)) :
    ∃ readyOps, frame = .events c readyOps ∧ wants readyOps epollIn = true := by
  cases frame with
  | events other readyOps =>
      simp only [frameJob] at h
      split at h
      · cases h
      · split at h
        · rename_i hwants
          cases h
          exact ⟨readyOps, rfl, hwants⟩
        · cases h
  | writable other readyOps =>
      simp only [frameJob] at h
      split at h <;> cases h
  | _ => cases h

/-- A read is the first half of a handler on top of the stack. -/
theorem ran_of_read {n : ℤ} (h : w.step action = .next w')
    (hjob : w.job action = some (c, .read n)) :
    ∃ readyOps rest more conn effect, w.stack = .events c readyOps :: rest ∧
      wants readyOps epollIn = true ∧ w.conns c = some conn ∧
      conn.Ran c w.epoll (w.registered conn.fd) (.read n) effect ∧
      more.filterMap Frame.input = [] ∧
      w' = { w with stack := more ++ rest }.apply none c (.read n) conn.state effect := by
  cases branch_of_step h with
  | exec hidle hexec =>
      cases executed_of_exec hexec with
      | @job frame rest other own _ hstack hframe hrun =>
          cases hframe.symm.trans ((job_exec hstack).symm.trans hjob)
          obtain ⟨readyOps, rfl, hwants⟩ := eq_events_of_frameJob hframe
          obtain ⟨conn, effect, hconn, -, hran, rfl⟩ := runJob_eq_next hrun
          exact ⟨readyOps, rest, _, conn, effect, hstack, hwants, hconn, hran,
            input_frameRest (.events c readyOps), rfl⟩
      | readNotify hstack => cases (job_exec hstack).symm.trans hjob
      | removeConnection hstack => cases (job_exec hstack).symm.trans hjob
      | release hstack => cases (job_exec hstack).symm.trans hjob
  | call =>
      obtain ⟨entry, -, htask⟩ := Option.bind_eq_some_iff.mp hjob
      cases isTask_of_taskJob htask
  | _ => cases hjob

/-- A read that returns 0 is the last. -/
theorem deaf_of_end (hreach : machine.Reach Machine.anyStep w) (hstep : w.step action = .next w')
    (hjob : w.job action = some (c, .read 0)) : Deaf c w' := by
  obtain ⟨readyOps, rest, more, conn, effect, hstack, hwants, hconn, hran, hmore, rfl⟩ :=
    ran_of_read hstep hjob
  have hbacked := reach_backed hreach
  have hinterest : wants effect.conn.source.interestOps epollIn = false := by
    by_contra hasked
    exact (hran.wants_in (by simpa using hasked)).2 rfl
  refine ⟨(reach_numbered hreach).live c conn hconn, fun conn' hconn' => ?_,
    fun fd entry hentry hptr => ?_, ?_⟩
  · cases (Function.update_self ..).symm.trans hconn'
    exact hinterest
  · rcases hran.entry hentry with ⟨hold, hfd⟩ | rfl
    · -- an entry of the connection is the one of its descriptor
      obtain ⟨conn', hconn', hsame⟩ := hbacked.of_entry hold
      rw [hptr] at hconn'
      cases hconn.symm.trans hconn'
      exact absurd ((hbacked.conn c conn hconn).fd.trans hsame).symm (hfd rfl)
    · exact hinterest
  · have hnodup := reach_nodup_input hreach
    rw [hstack, List.filterMap_cons_some (by simp [Frame.input, hwants] :
      (Frame.events c readyOps).input = some c)] at hnodup
    rw [input_apply hran, List.filterMap_append, hmore, List.nil_append]
    exact (List.nodup_cons.mp hnodup).1

/-- The observer that records the results of `read`, newest first. -/
def reads (_ : Connection) (job : Job) (answers : List ℤ) : List ℤ :=
  match job with
  | .read n => n :: answers
  | _ => answers

end World

end Mutiplex
