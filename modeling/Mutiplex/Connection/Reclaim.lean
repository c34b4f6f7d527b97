/-
# Nothing leaks

A connection must not only live as long as something owns it: once the last
owner is gone it has to be destroyed, or its memory, its descriptor and its
entry in the epoll table are lost.  Every way an owner can go leads through the
end of a shared pointer, which is a frame of the loop thread until it has looked
for the other owners.  So a connection that exists is owned or has such a frame
to come, and between callbacks, when no frame is left, what exists is in use.
-/

import Mutiplex.Connection.Noted
import Mutiplex.Connection.Registry

namespace Mutiplex

open CMemory Transition

variable {τ : Type} [DecidableEq τ]

/-! ## The vectors of the loop -/

namespace EventLoop

variable {κ : Type} {s s' : EventLoop τ κ} {action : Action τ κ} {entry : Posted τ κ}

/-- A post takes nothing out. -/
theorem mem_entries_postCallback_of_mem {thread : τ} {callback : κ} (hentry : entry ∈ s.entries) :
    entry ∈ (s.postCallback thread callback).entries := by
  unfold postCallback
  split <;> simp only [entries, notifyEvent, List.mem_append] at hentry ⊢ <;> tauto

/-- A callback leaves the vectors of the loop when its task returns or the
iteration ends. -/
theorem mem_entries_move (h : s.Queues) (hmove : s.move action = some s')
    (hentry : entry ∈ s.entries) :
    entry ∈ s'.entries ∨ action = .taskReturns ∧ entry ∈ s.taskQueue.take 1 ∨
      action = .endIteration ∧ entry ∈ s.ran := by
  cases moves_of_move hmove with
  | @taskReturns front rest hphase hqueue =>
      simp only [entries, hqueue, List.mem_append, List.mem_cons] at hentry ⊢
      simp only [List.take_succ_cons, List.take_zero, List.mem_singleton]
      tauto
  | endIteration hphase hqueue =>
      simp only [entries, List.mem_append] at hentry ⊢
      tauto
  | swapPending hphase =>
      left
      have hnone : s.callbacks = [] := h.callbacks_eq_nil (by simp [hphase])
      simp only [entries, hnone, List.mem_append, List.not_mem_nil, or_false, false_or]
        at hentry ⊢
      exact hentry
  | post hmay => exact Or.inl (mem_entries_postCallback_of_mem hentry)
  | _ =>
      left
      simp only [entries, notifyEvent, List.mem_append] at hentry ⊢
      grind

/-- The callbacks that were run are kept as long as the iteration lasts. -/
def RanInside (s : EventLoop τ κ) : Prop :=
  s.ran ≠ [] → (∃ calling, s.phase = .batch calling) ∨ ∃ calling, s.phase = .draining calling

theorem RanInside.move (h : s.RanInside) (hmove : s.move action = some s') : s'.RanInside := by
  intro hne
  cases moves_of_move hmove with
  | callCallback => exact Or.inl ⟨true, rfl⟩
  | callbackReturns => exact Or.inl ⟨false, rfl⟩
  | swapPending => exact Or.inl ⟨false, rfl⟩
  | endBatch => exact Or.inr ⟨false, rfl⟩
  | callTask => exact Or.inr ⟨true, rfl⟩
  | taskReturns => exact Or.inr ⟨false, rfl⟩
  | endIteration => exact absurd rfl hne
  | post hmay =>
      rw [phase_postCallback]
      refine h fun hnil => hne ?_
      unfold postCallback
      split <;> exact hnil
  | stopFlag => exact h hne
  | stopNotify => exact h hne
  | _ =>
      rcases h hne with ⟨calling, hphase⟩ | ⟨calling, hphase⟩ <;> simp_all

theorem reach_ranInside {ok : EventLoop τ κ → Action τ κ → Prop}
    (h : EventLoop.machine.Reach ok s) : s.RanInside := by
  refine h.invariant RanInside ?_ fun _ _ _ _ hinv _ hstep =>
    hinv.move (move_of_step (step_eq_next.mp hstep))
  rintro _ ⟨thread, rfl⟩ hne
  exact absurd rfl hne

/-- Outside of `run` only the two queues hold callbacks. -/
theorem vectors_of_outside (h : EventLoop.machine.Reach Machine.anyStep s)
    (houtside : s.phase = .outside) : s.callbacks = [] ∧ s.ran = [] := by
  refine ⟨(reach_queues h).callbacks_eq_nil (by simp [houtside]), ?_⟩
  by_contra hne
  rcases reach_ranInside h hne with ⟨calling, hphase⟩ | ⟨calling, hphase⟩ <;>
    · rw [houtside] at hphase
      cases hphase

end EventLoop

namespace World

variable {w w' : World τ} {action : Action τ} {c : ConnId}

/-! ## What is accounted for -/

/-- Something owns the connection, or the end of a pointer to it is still to
come. -/
def Accounted (w : World τ) (c : ConnId) : Prop := w.Owned c ∨ Frame.release c ∈ w.stack

omit [DecidableEq τ] in
/-- Each owner is still there, or has left the end of its pointer. -/
theorem Accounted.mono (h : w.Accounted c)
    (hconnections : c ∈ w.connections.map Prod.snd → w'.Accounted c)
    (hheld : 0 < w.held c → 0 < w'.held c)
    (hinside : Frame.inside (some c) ∈ w.stack → w'.Accounted c)
    (hentries : ∀ entry ∈ w.loop.entries, entry.callback.captured = some c → w'.Accounted c)
    (hrelease : Frame.release c ∈ w.stack → w'.Accounted c) : w'.Accounted c := by
  rcases h with (hmap | hpos | hframe | ⟨entry, hentry, hcaptured⟩) | hframe
  · exact hconnections hmap
  · exact Or.inl (Or.inr (Or.inl (hheld hpos)))
  · exact hinside hframe
  · exact hentries entry hentry hcaptured
  · exact hrelease hframe

omit [DecidableEq τ] in
theorem Accounted.of_connections (h : c ∈ w.connections.map Prod.snd) : w.Accounted c :=
  Or.inl (Or.inl h)

omit [DecidableEq τ] in
theorem Accounted.of_inside (h : Frame.inside (some c) ∈ w.stack) : w.Accounted c :=
  Or.inl (Or.inr (Or.inr (Or.inl h)))

omit [DecidableEq τ] in
theorem Accounted.of_entry {entry : Posted τ Task} (h : entry ∈ w.loop.entries)
    (hcaptured : entry.callback.captured = some c) : w.Accounted c :=
  Or.inl (Or.inr (Or.inr (Or.inr ⟨entry, h, hcaptured⟩)))

omit [DecidableEq τ] in
/-- The frame on top may go if it is neither the owner nor the end of a
pointer. -/
theorem Accounted.pop {frame : Frame} {rest : List Frame} (h : w.Accounted c) (more : List Frame)
    (hstack : w.stack = frame :: rest) (hinside : frame ≠ .inside (some c))
    (hrelease : frame ≠ .release c) : { w with stack := more ++ rest }.Accounted c := by
  have hkept : ∀ other ∈ w.stack, other ≠ frame → other ∈ more ++ rest := by
    intro other hother hne
    rw [hstack] at hother
    exact List.mem_append_right _ ((List.mem_cons.mp hother).resolve_left hne)
  exact h.mono (fun hmap => .of_connections hmap) id
    (fun hframe => .of_inside (hkept _ hframe hinside.symm))
    (fun _ hentry hcaptured => .of_entry hentry hcaptured)
    fun hframe => Or.inr (hkept _ hframe hrelease.symm)

theorem Accounted.apply (h : w.Accounted c) (entry : Option (Posted τ Task)) (other : ConnId)
    (job : Job) (found : ConnState) (effect : Effect) :
    (w.apply entry other job found effect).Accounted c := by
  have hstack : ∀ frame ∈ w.stack, frame ∈ (w.apply entry other job found effect).stack :=
    fun frame hframe => List.mem_append_right _ hframe
  refine h.mono (fun hmap => .of_connections hmap) id (fun hframe => .of_inside (hstack _ hframe))
    (fun e he hcaptured => .of_entry ?_ hcaptured) fun hframe => Or.inr (hstack _ hframe)
  rcases loop_apply (w := w) entry other job found effect with heq | ⟨task, -, heq⟩
  · exact heq ▸ he
  · rw [heq]
    exact EventLoop.mem_entries_postCallback_of_mem he

/-- The loop moves by itself and no task returns. -/
theorem Accounted.loop {move : EventLoop.Action τ Task} {loop : EventLoop τ Task}
    (h : w.Accounted c) (hqueues : w.loop.Queues) (hmove : w.loop.step move = some loop)
    (htask : move ≠ .taskReturns) (hend : move ≠ .endIteration) :
    { w with loop := loop }.Accounted c := by
  refine h.mono (fun hmap => .of_connections hmap) id (fun hframe => .of_inside hframe)
    (fun e he hcaptured => ?_) fun hframe => Or.inr hframe
  rcases EventLoop.mem_entries_move hqueues (EventLoop.move_of_step hmove) he with
    hkept | ⟨heq, -⟩ | ⟨heq, -⟩
  · exact .of_entry hkept hcaptured
  · exact absurd heq htask
  · exact absurd heq hend

/-- The keys of `connections_` are distinct. -/
def Keyed (w : World τ) : Prop := (w.connections.map Prod.fst).Nodup

theorem Keyed.step (h : w.Keyed) (hstep : w.step action = .next w') : w'.Keyed := by
  cases registering_of_step hstep with
  | keeps hnext heq => exact (congrArg (fun l => (l.map Prod.fst).Nodup) heq).mpr h
  | erases hnext hstack heq =>
      rw [Keyed, heq]
      exact h.sublist (List.filter_sublist.map Prod.fst)
  | @adds fd callbacks haction heq =>
      rw [heq]
      show (((fd, w.nextId) :: w.connections.filter (·.1 != fd)).map Prod.fst).Nodup
      rw [List.map_cons, List.nodup_cons]
      refine ⟨fun hmem => ?_, h.sublist (List.filter_sublist.map Prod.fst)⟩
      obtain ⟨entry, hentry, rfl⟩ := List.mem_map.mp hmem
      simpa using (List.mem_filter.mp hentry).2

theorem reach_keyed {ok : World τ → Action τ → Prop} (h : machine.Reach ok w) : w.Keyed := by
  refine h.invariant Keyed ?_ fun _ _ _ _ hinv _ hstep => hinv.step hstep
  rintro _ ⟨thread, rfl⟩
  exact List.nodup_nil

omit [DecidableEq τ] in
/-- What a key leads to is the only entry that goes with the key. -/
theorem Keyed.lookup (h : w.Keyed) {fd : ℤ} (hmem : (fd, c) ∈ w.connections) :
    w.connections.lookup fd = some c := by
  unfold Keyed at h
  generalize w.connections = entries at h hmem ⊢
  induction entries with
  | nil => cases hmem
  | cons entry rest ih =>
      rw [List.map_cons, List.nodup_cons] at h
      rcases List.mem_cons.mp hmem with rfl | hrest
      · simp
      · have hne : fd ≠ entry.1 := fun heq => h.1 (heq ▸ List.mem_map_of_mem hrest)
        rw [List.lookup_cons, beq_false_of_ne hne]
        exact ih h.2 hrest

omit [DecidableEq τ] in
/-- An owner in `connections_` stays there unless its key is erased. -/
theorem Keyed.filter (h : w.Keyed) (fd : ℤ) (hmap : c ∈ w.connections.map Prod.snd) :
    c ∈ (w.connections.filter (·.1 != fd)).map Prod.snd ∨ w.connections.lookup fd = some c := by
  obtain ⟨⟨key, other⟩, hmem, rfl⟩ := List.mem_map.mp hmap
  by_cases hkey : key = fd
  · exact Or.inr (h.lookup (hkey ▸ hmem))
  · exact Or.inl (List.mem_map.mpr ⟨_, List.mem_filter.mpr ⟨hmem, by simpa using hkey⟩, rfl⟩)

/-! ## Every step accounts for its connections -/

omit [DecidableEq τ] in
/-- The last pointer goes, or is not the last. -/
theorem Accounted.release {other : ConnId} (h : c = other ∨ w.Accounted c) :
    (w.release other).Accounted c ∨ (w.release other).conns c = none := by
  unfold World.release
  split
  · rename_i howned
    exact Or.inl (h.elim (fun hc => hc ▸ Or.inl howned) id)
  · by_cases hc : c = other
    · exact Or.inr (by rw [conns_destroy, hc, Function.update_self])
    · left
      refine (h.resolve_left hc).mono (fun hmap => .of_connections ?_) ?_
        (fun hframe => .of_inside ?_) (fun _ hentry hcaptured => .of_entry ?_ hcaptured)
        fun hframe => Or.inr ?_
      · rwa [connections_destroy]
      · rw [held_destroy]
        exact id
      · rwa [stack_destroy]
      · rwa [loop_destroy]
      · rwa [stack_destroy]

omit [DecidableEq τ] in
theorem release_mem_releases {entries : List (Posted τ Task)} {entry : Posted τ Task}
    (hentry : entry ∈ entries) (hcaptured : entry.callback.captured = some c) :
    Frame.release c ∈ releases entries :=
  List.mem_map_of_mem (List.mem_filterMap.mpr ⟨entry, hentry, hcaptured⟩)

omit [DecidableEq τ] in
theorem Accounted.removeConnection {frame : Frame} {rest : List Frame} (h : w.Accounted c)
    (hkeyed : w.Keyed) (hstack : w.stack = frame :: rest) (hinside : frame ≠ .inside (some c))
    (hrelease : frame ≠ .release c) (fd : ℤ) :
    ({ w with stack := rest }.removeConnection fd).Accounted c := by
  have hpop : { w with stack := rest }.Accounted c := h.pop [] hstack hinside hrelease
  unfold World.removeConnection
  split
  · exact hpop
  · rename_i other hlookup
    have hkept : ∀ frame ∈ rest, frame ∈ Frame.release other :: rest :=
      fun _ hframe => List.mem_cons_of_mem _ hframe
    refine hpop.mono (fun hmap => ?_) id (fun hframe => .of_inside (hkept _ hframe))
      (fun _ hentry hcaptured => .of_entry hentry hcaptured) fun hframe => Or.inr (hkept _ hframe)
    rcases hkeyed.filter fd hmap with hmem | hgone
    · exact .of_connections hmem
    · cases hlookup.symm.trans hgone
      exact Or.inr List.mem_cons_self

omit [DecidableEq τ] in
theorem Accounted.onNewConnection (h : w.Accounted c) (hkeyed : w.Keyed) (fd : ℤ)
    (callbacks : Callbacks) (hc : c ≠ w.nextId) :
    (w.onNewConnection fd callbacks).Accounted c := by
  have hkept : ∀ frame ∈ w.stack, frame ∈ (w.onNewConnection fd callbacks).stack :=
    fun _ hframe => List.mem_append_right _ hframe
  refine h.mono (fun hmap => ?_) (fun hpos => ?_) (fun hframe => .of_inside (hkept _ hframe))
    (fun _ hentry hcaptured => .of_entry hentry hcaptured) fun hframe => Or.inr (hkept _ hframe)
  · rcases hkeyed.filter fd hmap with hmem | hgone
    · exact .of_connections (List.mem_cons_of_mem _ hmem)
    · exact Or.inr (by simp [World.onNewConnection, hgone])
  · simpa [World.onNewConnection, Function.update_of_ne hc] using hpos

theorem Accounted.runJob {before : World τ} {entry : Option (Posted τ Task)} {other : ConnId}
    {job : Job} (h : before.Accounted c) (hrun : before.runJob entry other job = .next w') :
    w'.Accounted c := by
  obtain ⟨conn, effect, -, -, -, rfl⟩ := runJob_eq_next hrun
  exact h.apply entry other job conn.state effect

theorem Accounted.exec {n : ℤ} (h : w.Accounted c) (hqueues : w.loop.Queues) (hkeyed : w.Keyed)
    (hexec : w.exec n = .next w') : w'.Accounted c ∨ w'.conns c = none := by
  cases executed_of_exec hexec with
  | @readNotify rest loop hstack hmove =>
      have hpop : { w with stack := rest }.Accounted c := h.pop [] hstack (by simp) (by simp)
      exact Or.inl (hpop.loop hqueues hmove (by simp) (by simp))
  | @removeConnection other fd rest hstack =>
      exact Or.inl (h.removeConnection hkeyed hstack (by simp) (by simp) fd)
  | @release other rest hstack =>
      refine Accounted.release (w := { w with stack := rest }) ?_
      by_cases hc : c = other
      · exact Or.inl hc
      · exact Or.inr (h.pop [] hstack (by simp) (by simpa using Ne.symm hc))
  | @job frame rest other job _ hstack hjob hrun =>
      refine Or.inl (.runJob (h.pop _ hstack ?_ ?_) hrun) <;>
        · rintro rfl
          cases hjob

theorem Accounted.userCall {thread : τ} {call : Call} (h : w.Accounted c) (hkeyed : w.Keyed)
    (hc : c ≠ w.nextId) (hcall : w.userCall thread call = .next w') :
    w'.Accounted c ∨ w'.conns c = none := by
  have hheld : ∀ held : ConnId → ℕ, (0 < w.held c → 0 < held c) →
      { w with held := held }.Accounted c := fun held hle =>
    h.mono (fun hmap => .of_connections hmap) hle (fun hframe => .of_inside hframe)
      (fun _ hentry hcaptured => .of_entry hentry hcaptured) Or.inr
  cases called_of_userCall hcall with
  | posts htask hpointer hopen =>
      exact Or.inl (h.mono (fun hmap => .of_connections hmap) id (fun hframe => .of_inside hframe)
        (fun _ hentry => .of_entry (EventLoop.mem_entries_postCallback_of_mem hentry)) Or.inr)
  | refused htask hwrite => exact Or.inl h
  | @share other hpointer =>
      refine Or.inl (hheld _ fun hpos => ?_)
      by_cases hother : c = other
      · rw [hother, Function.update_self]
        omega
      · rwa [Function.update_of_ne hother]
  | @drop other hpos =>
      refine Accounted.release ?_
      by_cases hother : c = other
      · exact Or.inl hother
      · exact Or.inr (hheld _ fun hpos => by rwa [Function.update_of_ne hother])
  | setBuffer => exact Or.inl h
  | setCallbacks hconn => exact Or.inl h
  | @onNewConnection fd callbacks hthread =>
      exact Or.inl (h.onNewConnection hkeyed fd callbacks hc)
  | allocateReceiveBuffer => exact Or.inl h
  | closeFd => exact Or.inl h

/-- With no frame on the stack, whatever is accounted for is owned; and what the
vectors of the loop lose at the end of a task or of an iteration, the new stack
releases. -/
theorem Accounted.of_releases (h : w.Accounted c) (hqueues : w.loop.Queues)
    (hempty : w.stack = []) {move : EventLoop.Action τ Task} {loop : EventLoop τ Task}
    (hmove : w.loop.step move = some loop) {stack : List Frame}
    (htask : move = .taskReturns → stack = releases (w.loop.taskQueue.take 1))
    (hend : move = .endIteration → stack = releases w.loop.ran) :
    { w with loop := loop, stack := stack }.Accounted c := by
  have hframe : ∀ {P : Prop} {frame : Frame}, frame ∈ w.stack → P := fun hframe =>
    absurd (hempty ▸ hframe) List.not_mem_nil
  refine h.mono (fun hmap => .of_connections hmap) id hframe (fun entry hentry hcaptured => ?_)
    hframe
  rcases EventLoop.mem_entries_move hqueues (EventLoop.move_of_step hmove) hentry with
    hkept | ⟨heq, hfront⟩ | ⟨heq, hran⟩
  · exact .of_entry hkept hcaptured
  · exact Or.inr (htask heq ▸ release_mem_releases hfront hcaptured)
  · exact Or.inr (hend heq ▸ release_mem_releases hran hcaptured)

/-- **A step that ends the last pointer to a connection destroys it, or leaves
that for the loop thread to do.** -/
theorem Accounted.step (h : w.Accounted c) (hqueues : w.loop.Queues) (hkeyed : w.Keyed)
    (hc : c ≠ w.nextId) (hstep : w.step action = .next w') :
    w'.Accounted c ∨ w'.conns c = none := by
  cases branch_of_step hstep with
  | loop hallows hmove =>
      refine Or.inl (h.loop hqueues hmove ?_ ?_) <;>
        · rintro rfl
          exact hallows
  | epollWait hempty hreports hmove =>
      exact Or.inl (h.of_releases hqueues hempty hmove (by simp) (by simp))
  | exec hidle hexec => exact h.exec hqueues hkeyed hexec
  | @returns argument rest hstack =>
      left
      by_cases hargument : argument = some c
      · subst hargument
        exact Or.inr List.mem_cons_self
      · refine h.pop _ hstack (by simpa using hargument) ?_
        cases argument <;> simp
  | @call move entry loop _ hempty hnext hcall hmove hentry =>
      left
      have htask : move ≠ .taskReturns := by
        rintro rfl
        cases hcall
      have hend : move ≠ .endIteration := by
        rintro rfl
        cases hcall
      unfold callEntry at hentry
      split at hentry
      · cases hentry
        exact h.of_releases hqueues hempty hmove (absurd · htask) (absurd · hend)
      · exact .runJob (h.loop hqueues hmove htask hend) hentry
  | callbackReturns hempty hmove => exact Or.inl (h.loop hqueues hmove (by simp) (by simp))
  | taskReturns hempty hmove =>
      exact Or.inl (h.of_releases hqueues hempty hmove (fun _ => rfl) (by simp))
  | endIteration hempty hmove =>
      exact Or.inl (h.of_releases hqueues hempty hmove (by simp) fun _ => rfl)
  | user hmay hcall => exact h.userCall hkeyed hc hcall

theorem reach_accounted {ok : World τ → Action τ → Prop} (h : machine.Reach ok w)
    {conn : Connection} (hconn : w.conns c = some conn) : w.Accounted c := by
  refine h.invariant (fun w => ∀ c conn, w.conns c = some conn → w.Accounted c) ?_ ?_ c conn hconn
  · rintro _ ⟨thread, rfl⟩ c conn hconn
    cases hconn
  · intro source action target hreach hinv hok hstep c conn' hconn'
    rcases (moves_of_step hstep).origin hreach.any hconn' with rfl | ⟨conn, hconn, -⟩
    · have hlt := (reach_numbered (hreach.step hok hstep)).live _ conn' hconn'
      cases registering_of_step hstep with
      | keeps hnext => exact absurd (hnext ▸ hlt) (Nat.lt_irrefl _)
      | erases hnext => exact absurd (hnext ▸ hlt) (Nat.lt_irrefl _)
      | adds haction heq =>
          rw [heq]
          exact .of_connections List.mem_cons_self
    · have hlt := (reach_numbered hreach).live c conn hconn
      rcases (hinv c conn hconn).step (reach_loop_queues hreach) (reach_keyed hreach) hlt.ne hstep
        with haccounted | hgone
      · exact haccounted
      · rw [hgone] at hconn'
        cases hconn'

/-! ## A closed connection is about to leave `connections_` -/

theorem exec_stack {n : ℤ} (h : w.exec n = .next w') :
    ∃ frame rest new, w.stack = frame :: rest ∧ w'.stack = new ++ rest := by
  cases executed_of_exec h with
  | @readNotify rest loop hstack hmove => exact ⟨_, rest, [], hstack, rfl⟩
  | @removeConnection c fd rest hstack =>
      unfold World.removeConnection
      split
      · exact ⟨_, rest, [], hstack, rfl⟩
      · exact ⟨_, rest, [_], hstack, rfl⟩
  | @release c rest hstack =>
      exact ⟨_, rest, [], hstack, stack_release (w := { w with stack := rest }) c⟩
  | @job frame rest c job _ hstack hjob hrun =>
      obtain ⟨conn, effect, -, -, -, rfl⟩ := runJob_eq_next hrun
      exact ⟨frame, rest, (effect.called.map fun _ => Frame.inside (some c)).toList ++
        effect.after ++ frameRest frame, hstack, by simp [World.apply]⟩

theorem userCall_stack {thread : τ} {call : Call} (h : w.userCall thread call = .next w') :
    ∃ new, w'.stack = new ++ w.stack := by
  cases called_of_userCall h with
  | drop hheld => exact ⟨[], stack_release _⟩
  | onNewConnection hthread => exact ⟨_, rfl⟩
  | _ => exact ⟨[], rfl⟩

/-- A frame leaves the stack when it is on top and the loop thread goes on with
it. -/
theorem frame_kept (h : w.step action = .next w') {frame : Frame} (hframe : frame ∈ w.stack) :
    frame ∈ w'.stack ∨ ∃ rest, w.stack = frame :: rest ∧
      ((∃ n, action = .exec n) ∨ action = .returns) := by
  have hrest : ∀ {top : Frame} {rest : List Frame} (new : List Frame), w.stack = top :: rest →
      w'.stack = new ++ rest → frame ∈ w'.stack ∨ w.stack = frame :: rest := by
    intro top rest new hstack hstack'
    rcases List.mem_cons.mp (hstack ▸ hframe) with rfl | hmem
    · exact Or.inr hstack
    · exact Or.inl (hstack' ▸ List.mem_append_right _ hmem)
  have hempty : w.stack ≠ [] := List.ne_nil_of_mem hframe
  cases branch_of_step h with
  | loop hallows hmove => exact Or.inl hframe
  | @exec n _ hidle hexec =>
      obtain ⟨top, rest, new, hstack, hstack'⟩ := exec_stack hexec
      exact (hrest new hstack hstack').imp id fun heq => ⟨rest, heq, Or.inl ⟨n, rfl⟩⟩
  | @returns argument rest hstack =>
      exact (hrest _ hstack rfl).imp id fun heq => ⟨rest, heq, Or.inr rfl⟩
  | user hmay hcall =>
      obtain ⟨new, hstack'⟩ := userCall_stack hcall
      exact Or.inl (hstack' ▸ List.mem_append_right _ hframe)
  | epollWait hnone => exact absurd hnone hempty
  | call hnone => exact absurd hnone hempty
  | callbackReturns hnone => exact absurd hnone hempty
  | taskReturns hnone => exact absurd hnone hempty
  | endIteration hnone => exact absurd hnone hempty

/-- A closed connection that `connections_` still holds is about to leave it. -/
def Leaving (w : World τ) : Prop :=
  ∀ c conn, w.conns c = some conn → conn.state = .closed → (conn.fd, c) ∈ w.connections →
    Frame.removeConnection c conn.fd ∈ w.stack

/-- The task that closes a registered connection takes it out. -/
theorem removes_of_closing {conn : Connection} {table : Epoll ConnId} {registered : Bool}
    {job : Job} {effect : Effect} (hran : conn.Ran c table registered job effect)
    (hopen : conn.state ≠ .closed) (hclosed : effect.conn.state = .closed)
    (hregistered : registered = true) : Frame.removeConnection c conn.fd ∈ effect.after := by
  subst hregistered
  cases hran with
  | closes => exact List.mem_cons_self
  | forceCloses => exact List.mem_cons_self
  | closeWaits => cases hclosed
  | _ => exact absurd hclosed hopen

/-- An entry of an old connection was there before the step. -/
theorem mem_connections_of_step (hstep : w.step action = .next w') (hc : c ≠ w.nextId) {fd : ℤ}
    (hmem : (fd, c) ∈ w'.connections) :
    (fd, c) ∈ w.connections ∧ ∀ other rest n, w.stack = .removeConnection other fd :: rest →
      action ≠ .exec n := by
  cases registering_of_step hstep with
  | keeps hnext heq =>
      refine ⟨heq ▸ hmem, ?_⟩
      rintro other rest n hstack rfl
      have hgone : (fd, c) ∉ w'.connections := by
        cases branch_of_step hstep with
        | exec hidle hexec =>
            simp only [exec, hstack] at hexec
            cases hexec
            unfold World.removeConnection
            split
            · rename_i hnone
              intro hmem
              simpa using List.lookup_eq_none_iff.mp hnone (fd, c) hmem
            · simp
      exact hgone hmem
  | @erases gone fd' rest' hnext hstack heq =>
      rw [heq, List.mem_filter] at hmem
      refine ⟨hmem.1, ?_⟩
      rintro other rest n hstack' rfl
      cases hstack.symm.trans hstack'
      simp at hmem
  | adds haction heq =>
      subst heq
      rcases mem_onNewConnection.mp hmem with ⟨-, hnew⟩ | ⟨hold, -⟩
      · exact absurd hnew hc
      · refine ⟨hold, fun other rest n _ hexec => ?_⟩
        cases haction.symm.trans hexec

theorem Leaving.step (h : w.Leaving) (hreach : machine.Reach Machine.anyStep w)
    (hstep : w.step action = .next w') : w'.Leaving := by
  intro c conn' hconn' hclosed' hmem'
  have hmoves := moves_of_step hstep
  rcases hmoves.origin hreach hconn' with rfl | ⟨conn, hconn, hfd, -⟩
  · -- a connection is born open
    have hlt := (reach_numbered (hreach.step trivial hstep)).live _ conn' hconn'
    cases registering_of_step hstep with
    | keeps hnext => exact absurd (hnext ▸ hlt) (Nat.lt_irrefl _)
    | erases hnext => exact absurd (hnext ▸ hlt) (Nat.lt_irrefl _)
    | adds haction heq =>
        subst heq
        cases (Function.update_self ..).symm.trans hconn'
        cases hclosed'
  · have hlt := (reach_numbered hreach).live c conn hconn
    obtain ⟨hmem, hnot⟩ := mem_connections_of_step hstep hlt.ne hmem'
    rw [hfd] at hmem hnot ⊢
    by_cases hclosed : conn.state = .closed
    · rcases frame_kept hstep (h c conn hconn hclosed hmem) with hkept | ⟨rest, hstack, hpops⟩
      · exact hkept
      · rcases hpops with ⟨n, hexec⟩ | hreturns
        · exact absurd hexec (hnot c rest n hstack)
        · subst hreturns
          simp only [step, hstack] at hstep
          split at hstep <;> cases hstep
    · cases hmoves.fate (reach_loop hreach).1 (reach_loop_queues hreach) c with
      | same heq =>
          cases hconn.symm.trans (heq.symm.trans hconn')
          exact absurd hclosed' hclosed
      | gone heq => cases heq.symm.trans hconn'
      | posted heq =>
          cases hconn.symm.trans (heq.symm.trans hconn')
          exact absurd hclosed' hclosed
      | callbacks hold heq =>
          cases hconn.symm.trans hold
          cases heq.symm.trans hconn'
          exact absurd hclosed' hclosed
      | born _ hc => exact absurd hc hlt.ne
      | ran hjob =>
          obtain ⟨entry, loop, stack, conn, effect, -, hold, -, hran, rfl⟩ :=
            ran_of_job hstep hjob
          cases hconn.symm.trans hold
          cases (Function.update_self ..).symm.trans hconn'
          have hlookup : w.connections.lookup conn.fd = some c := (reach_keyed hreach).lookup hmem
          have hframe := removes_of_closing hran hclosed hclosed' (by simp [registered, hlookup])
          exact List.mem_append_left _ (List.mem_append_right _ hframe)

theorem reach_leaving {ok : World τ → Action τ → Prop} (h : machine.Reach ok w) : w.Leaving := by
  refine h.invariant Leaving ?_ fun _ _ _ hreach hinv _ hstep => hinv.step hreach.any hstep
  rintro _ ⟨thread, rfl⟩ c conn hconn
  cases hconn

/-- **No connection is lost.** A connection that exists is owned, or the loop
thread is about to end a pointer to it and to look for the others.  Between
callbacks nothing is about to end: every connection that exists is open and
found in `connections_` under its descriptor, or user code has a pointer to it,
or a task that is still in a vector of the loop has captured one.  And each entry
of the epoll table leads to a connection that exists and has its descriptor. -/
theorem nothing_leaks (w : World τ) (h : machine.Reach Machine.anyStep w) :
    (∀ c conn, w.conns c = some conn → w.Owned c ∨ Frame.release c ∈ w.stack) ∧
      (w.stack = [] → ∀ c conn, w.conns c = some conn →
        conn.state ≠ .closed ∧ w.connections.lookup conn.fd = some c ∨ 0 < w.held c ∨
          ∃ entry ∈ w.loop.entries, entry.callback.captured = some c) ∧
      ∀ fd entry, w.epoll fd = some entry →
        ∃ conn, w.conns entry.ptr = some conn ∧ conn.fd = fd := by
  refine ⟨fun c conn hconn => reach_accounted h hconn, fun hempty c conn hconn => ?_,
    fun fd entry hentry => (reach_backed h).of_entry hentry⟩
  have hnone : ∀ frame, frame ∉ w.stack := fun frame hframe => by simp [hempty] at hframe
  rcases reach_accounted h hconn with (hmap | hheld | hinside | hentry) | hrelease
  · obtain ⟨⟨fd, other⟩, hmem, rfl⟩ := List.mem_map.mp hmap
    obtain ⟨conn', hconn', hfd⟩ := reach_entered h fd other hmem
    cases hconn.symm.trans hconn'
    subst hfd
    exact Or.inl ⟨fun hclosed => hnone _ (reach_leaving h other conn hconn hclosed hmem),
      (reach_keyed h).lookup hmem⟩
  · exact Or.inr (Or.inl hheld)
  · exact absurd hinside (hnone _)
  · exact Or.inr (Or.inr hentry)
  · exact absurd hrelease (hnone _)

/-- A connection that is closed while its owner and a second task still have
pointers: it exists until both are gone. -/
theorem nothing_leaks_of_close :
    ∃ w : World ℕ, machine.Reach Machine.anyStep w ∧ w.conns 0 ≠ none ∧ w.stack = [] ∧
      w.connections = [] ∧ w.held 0 = 0 ∧
      ∃ entry ∈ w.loop.entries, entry.callback.captured = some 0 := by
  have hnew : machine.Reach Machine.anyStep (new 0 : World ℕ) := .init ⟨0, rfl⟩
  obtain ⟨w, hreach, hempty, hnone, hheld, conn, hconn⟩ := hnew.exists_of_leads
    [.user 0 (.onNewConnection 5 ⟨false, false, false, false⟩), .user 0 (.close 0),
      .user 0 (.close 0), .user 0 (.drop 0), .loop (.enterRun 0), .loop .testRunning,
      .epollWait [], .loop .swapPending, .loop .endBatch, .call, .exec 0, .exec 0,
      .callReturns, .exec 0]
    (P := fun w => w.stack = [] ∧ w.connections = [] ∧ w.held 0 = 0 ∧
      ∃ conn ∈ w.conns 0, True)
    (by decide)
  have hlive : w.conns 0 = some conn := hconn.1
  refine ⟨w, hreach, by simp [hlive], hempty, hnone, hheld, ?_⟩
  rcases (nothing_leaks w hreach).2.1 hempty 0 conn hlive with ⟨-, hlookup⟩ | hpos | hentry
  · simp [hnone] at hlookup
  · omega
  · exact hentry

end World

end Mutiplex
