/-
# The end of a loop

`~EventLoop` empties `connections_` while the epoll descriptor is open, and
closes it afterwards.  The callbacks that are still queued go later, with the
members of the loop: a connection whose last pointer is a capture of one of them
has its event source taken out of a table that is closed already.  A connection
that user code points to outlives its loop.
-/

import Mutiplex.Connection.Reclaim

namespace Mutiplex

open CMemory Transition

variable {τ : Type} [DecidableEq τ]

/-- One of the callbacks keeps the connection alive. -/
def Captures (entries : List (Posted τ Task)) (c : ConnId) : Prop :=
  ∃ entry ∈ entries, entry.callback.captured = some c

instance (entries : List (Posted τ Task)) (c : ConnId) : Decidable (Captures entries c) :=
  inferInstanceAs (Decidable (∃ entry ∈ entries, _))

omit [DecidableEq τ] in
theorem captures_cons {entry : Posted τ Task} {rest : List (Posted τ Task)} {c : ConnId} :
    Captures (entry :: rest) c ↔ entry.callback.captured = some c ∨ Captures rest c := by
  simp [Captures]

namespace World

variable {w : World τ} {c : ConnId}

/-! ## The destructor -/

/-- `connections_.clear()`. -/
def clear (w : World τ) : World τ :=
  (w.connections.map Prod.snd).foldl release { w with connections := [] }

/-- The descriptors for which `~Connection` calls `epoll_ctl`. -/
def unregisters (w : World τ) (c : ConnId) : List ℤ :=
  match w.conns c with
  | none => []
  | some conn => if conn.source.state = .registered then [conn.source.fd] else []

/-- A shared pointer goes when `epoll_fd_` is closed; the second component is
what `epoll_ctl` is called for nevertheless. -/
def releaseLate (w : World τ) (c : ConnId) : World τ × List ℤ :=
  if w.Owned c then (w, []) else (w.destroy c, w.unregisters c)

/-- A queue is destroyed, front first; `keep` is the loop in which only some of
its callbacks are left. -/
def dropEntries (keep : List (Posted τ Task) → EventLoop τ Task) :
    List (Posted τ Task) → World τ → World τ × List ℤ
  | [], w => (w, [])
  | entry :: rest, w =>
      let w := { w with loop := keep rest }
      let (w, late) := match entry.callback.captured with
        | none => (w, [])
        | some c => w.releaseLate c
      let (w, later) := dropEntries keep rest w
      (w, late ++ later)

/-- `~EventLoop`: the body, which ends with closing `epoll_fd_`, and then the
members, of which `task_queue_` goes before `pending_callbacks_`. -/
def teardown (w : World τ) : World τ × List ℤ :=
  let closed := { w.clear with epoll := fun _ => none }
  let (drained, late) :=
    dropEntries (fun rest => { w.loop with taskQueue := rest }) w.loop.taskQueue closed
  let (gone, later) :=
    dropEntries (fun rest => { w.loop with taskQueue := [], pendingCallbacks := rest })
      w.loop.pendingCallbacks drained
  (gone, late ++ later)

/-! ## What it destroys -/

section Release

variable (cs : List ConnId)

omit [DecidableEq τ] in
theorem owned_release (d : ConnId) : (w.release d).Owned c ↔ w.Owned c := by
  simp only [Owned, loop_release, held_release, stack_release, connections_release]

omit [DecidableEq τ] in
theorem conns_release (d : ConnId) :
    (w.release d).conns c = if c = d ∧ ¬ w.Owned c then none else w.conns c := by
  unfold release
  by_cases howned : w.Owned d
  · rw [if_pos howned, if_neg]
    rintro ⟨rfl, hnot⟩
    exact hnot howned
  · rw [if_neg howned, conns_destroy]
    by_cases hc : c = d
    · rw [hc, Function.update_self, if_pos ⟨rfl, howned⟩]
    · rw [Function.update_of_ne hc, if_neg fun h => hc h.1]

omit [DecidableEq τ] in
/-- Pointers that go one after another take the connections with them that
nothing else owns. -/
theorem foldl_release_spec :
    (cs.foldl release w).loop = w.loop ∧ (cs.foldl release w).held = w.held ∧
      (cs.foldl release w).stack = w.stack ∧
      (cs.foldl release w).connections = w.connections ∧
      ∀ c, (cs.foldl release w).conns c =
        if c ∈ cs ∧ ¬ w.Owned c then none else w.conns c := by
  induction cs generalizing w with
  | nil => exact ⟨rfl, rfl, rfl, rfl, fun c => by simp⟩
  | cons d rest ih =>
      obtain ⟨hloop, hheld, hstack, hconnections, hconns⟩ := ih (w := w.release d)
      rw [List.foldl_cons]
      refine ⟨hloop.trans (loop_release d), hheld.trans (held_release d),
        hstack.trans (stack_release d), hconnections.trans (connections_release d), fun c => ?_⟩
      rw [hconns c]
      simp only [owned_release, conns_release]
      by_cases howned : w.Owned c
      · simp [howned]
      · by_cases hc : c = d
        · subst hc
          simp [howned]
        · simp [hc]

end Release

omit [DecidableEq τ] in
/-- Without frames and registered connections, the owners are user code and the
callbacks. -/
theorem owned_iff (hconnections : w.connections = []) (hstack : w.stack = []) :
    w.Owned c ↔ 0 < w.held c ∨ Captures w.loop.entries c := by
  simp [Owned, hconnections, hstack, Captures]

omit [DecidableEq τ] in
theorem releaseLate_spec (d : ConnId) :
    (w.releaseLate d).1 = w.release d ∧
      ((w.releaseLate d).2 = [] ↔ (¬ w.Owned d →
        ∀ conn, w.conns d = some conn → conn.source.state = .noEvent)) := by
  unfold releaseLate release
  by_cases howned : w.Owned d
  · simp [howned]
  · rw [if_neg howned, if_neg howned]
    refine ⟨rfl, ?_⟩
    unfold unregisters
    cases hconn : w.conns d with
    | none => simp
    | some conn => cases hstate : conn.source.state <;> simp [howned, hstate]

omit [DecidableEq τ] in
/-- A connection goes with the last callback that captures it, if nothing else
owns it, and asks for `epoll_ctl` if its event source is registered. -/
theorem dropEntries_spec (keep : List (Posted τ Task) → EventLoop τ Task)
    (others : List (Posted τ Task))
    (hkeep : ∀ rest entry, entry ∈ (keep rest).entries ↔ entry ∈ rest ∨ entry ∈ others)
    (entries : List (Posted τ Task)) (hconnections : w.connections = []) (hstack : w.stack = []) :
    (dropEntries keep entries w).1.connections = [] ∧ (dropEntries keep entries w).1.stack = [] ∧
      (dropEntries keep entries w).1.held = w.held ∧
      (∀ c, (dropEntries keep entries w).1.conns c =
        if Captures entries c ∧ w.held c = 0 ∧ ¬ Captures others c then none else w.conns c) ∧
      ((dropEntries keep entries w).2 = [] ↔ ∀ c conn, w.conns c = some conn →
        Captures entries c → w.held c = 0 → ¬ Captures others c →
          conn.source.state = .noEvent) := by
  induction entries generalizing w with
  | nil =>
      exact ⟨hconnections, hstack, rfl, fun c => by simp [dropEntries, Captures],
        by simp [dropEntries, Captures]⟩
  | cons entry rest ih =>
      let left : World τ := { w with loop := keep rest }
      cases hentry : entry.callback.captured with
      | none =>
          have hcons : ∀ c, Captures (entry :: rest) c ↔ Captures rest c := by
            simp [captures_cons, hentry]
          simp only [dropEntries, hentry, hcons, List.nil_append]
          exact ih (w := left) hconnections hstack
      | some d =>
          have hcons : ∀ c, Captures (entry :: rest) c ↔ d = c ∨ Captures rest c := by
            simp [captures_cons, hentry]
          have howned : left.Owned d ↔ 0 < w.held d ∨ Captures rest d ∨ Captures others d := by
            rw [owned_iff (w := left) hconnections hstack]
            simp only [left, Captures, hkeep, or_and_right, exists_or]
          obtain ⟨hrelease, hnothing⟩ := releaseLate_spec (w := left) d
          have hconns : ∀ c, (left.release d).conns c =
              if c = d ∧ ¬ left.Owned d then none else w.conns c := by
            intro c
            rw [conns_release]
            by_cases hc : c = d
            · subst hc
              rfl
            · simp [hc, left]
          obtain ⟨hc, hs, hh, hrest, hlater⟩ := ih (w := left.release d)
            ((connections_release d).trans hconnections) ((stack_release d).trans hstack)
          have hheld : (left.release d).held = w.held := held_release d
          rw [hheld] at hh hrest hlater
          have hdrop : dropEntries keep (entry :: rest) w =
              ((dropEntries keep rest (left.release d)).1,
                (left.releaseLate d).2 ++ (dropEntries keep rest (left.release d)).2) := by
            rw [← hrelease]
            simp only [dropEntries, hentry, left]
          rw [hdrop]
          refine ⟨hc, hs, hh, fun c => ?_, ?_⟩
          · rw [hrest c, hconns c]
            simp only [hcons, howned]
            by_cases hd : c = d
            · subst hd
              by_cases hpos : w.held c = 0 <;> by_cases hin : Captures rest c <;>
                by_cases hout : Captures others c <;> simp [hpos, hin, hout]
            · simp [hd, Ne.symm hd]
          · rw [List.append_eq_nil_iff, hnothing, hlater]
            constructor
            · rintro ⟨hlast, hlater⟩ c conn hconn hcaptured hzero hnot
              by_cases hin : Captures rest c
              · refine hlater c conn ?_ hin hzero hnot
                rw [hconns c, if_neg]
                · exact hconn
                · rintro ⟨rfl, hgone⟩
                  exact hgone (howned.mpr (Or.inr (Or.inl hin)))
              · obtain rfl := ((hcons c).mp hcaptured).resolve_right hin
                refine hlast (fun h => ?_) conn hconn
                rcases howned.mp h with hpos | hin' | hout
                · omega
                · exact hin hin'
                · exact hnot hout
            · refine fun h => ⟨fun hgone conn hconn => ?_, fun c conn hconn hin hzero hnot => ?_⟩
              · rw [howned] at hgone
                refine h d conn hconn ((hcons d).mpr (Or.inl rfl)) ?_ fun hout => ?_
                · omega
                · exact hgone (Or.inr (Or.inr hout))
              · rw [hconns c] at hconn
                split at hconn
                · cases hconn
                · exact h c conn hconn ((hcons c).mpr (Or.inr hin)) hzero hnot

omit [DecidableEq τ] in
/-- `connections_.clear()` destroys what only the map owns. -/
theorem clear_spec (hstack : w.stack = []) :
    w.clear.loop = w.loop ∧ w.clear.held = w.held ∧ w.clear.stack = [] ∧
      w.clear.connections = [] ∧ ∀ c, w.clear.conns c =
        if c ∈ w.connections.map Prod.snd ∧ ¬ (0 < w.held c ∨ Captures w.loop.entries c) then none
        else w.conns c := by
  obtain ⟨hloop, hheld, hstack', hconnections, hconns⟩ :=
    foldl_release_spec (w := { w with connections := [] }) (w.connections.map Prod.snd)
  refine ⟨hloop, hheld, hstack'.trans hstack, hconnections, fun c => (hconns c).trans ?_⟩
  have howned : { w with connections := [] }.Owned c ↔
      0 < w.held c ∨ Captures w.loop.entries c :=
    owned_iff (w := { w with connections := [] }) rfl hstack
  simp only [howned]

omit [DecidableEq τ] in
theorem backed_clear (h : w.Backed) : w.clear.Backed := by
  have hfold : ∀ (cs : List ConnId) (u : World τ), u.Backed → (cs.foldl release u).Backed := by
    intro cs
    induction cs with
    | nil => exact fun u hu => hu
    | cons d rest ih =>
        intro u hu
        refine ih (u.release d) ?_
        unfold release
        split
        · exact hu
        · exact hu.destroy d
  exact hfold _ _ ⟨h.conn, h.live, h.nonneg⟩

/-- Nothing is left for the members of the loop to do on the closed table, and no
connection survives its loop. -/
def CleanTeardown (w : World τ) : Prop :=
  w.teardown.2 = [] ∧ ∀ c, w.teardown.1.conns c = none

/-- The destructor leaves the connections that user code points to, and asks for
`epoll_ctl` on the closed table for those that only a queued callback owned. -/
theorem teardown_spec (h : machine.Reach Machine.anyStep w) (houtside : w.loop.phase = .outside)
    (hempty : w.stack = []) :
    (∀ c, w.teardown.1.conns c = if w.held c = 0 then none else w.conns c) ∧
      (w.teardown.2 = [] ↔ ∀ c conn, w.conns c = some conn → w.held c = 0 →
        Captures w.loop.entries c → conn.source.state = .noEvent) := by
  obtain ⟨hcallbacks, hran⟩ := EventLoop.vectors_of_outside (reach_loop h).2 houtside
  have hcaptures : ∀ c, Captures w.loop.entries c ↔
      Captures w.loop.taskQueue c ∨ Captures w.loop.pendingCallbacks c := by
    intro c
    simp only [Captures, EventLoop.entries, hcallbacks, hran, List.append_nil, List.mem_append,
      or_and_right, exists_or]
    exact or_comm
  obtain ⟨hloop, hheld, hstack, hconnections, hcleared⟩ := clear_spec hempty
  let closed : World τ := { w.clear with epoll := fun _ => none }
  obtain ⟨hconnections', hstack', hheld', hconns', hlate⟩ :=
    dropEntries_spec (w := closed) (fun rest => { w.loop with taskQueue := rest })
      w.loop.pendingCallbacks (by simp [EventLoop.entries, hcallbacks, hran, or_comm])
      w.loop.taskQueue hconnections hstack
  obtain ⟨-, -, -, hconns, hlater⟩ :=
    dropEntries_spec (fun rest => { w.loop with taskQueue := [], pendingCallbacks := rest })
      [] (by simp [EventLoop.entries, hcallbacks, hran]) w.loop.pendingCallbacks hconnections'
      hstack'
  have hzero : ∀ c, closed.held c = w.held c := fun c => congrFun hheld c
  have hnone : ∀ c, ¬ Captures ([] : List (Posted τ Task)) c := by simp [Captures]
  simp only [hheld', hzero, hnone, not_false_eq_true, and_true, forall_const]
    at hconns hlater hconns' hlate
  have hclosed : ∀ c, closed.conns c = w.clear.conns c := fun _ => rfl
  constructor
  · intro c
    refine (hconns c).trans ?_
    rw [hconns' c, hclosed c, hcleared c]
    simp only [hcaptures]
    by_cases hpos : w.held c = 0
    · cases hconn : w.conns c with
      | none => simp
      | some conn =>
          rcases reach_accounted h hconn with (hmap | hheld | hinside | hentry) | hrelease
          · by_cases htask : Captures w.loop.taskQueue c <;>
              by_cases hpending : Captures w.loop.pendingCallbacks c <;>
              simp [hpos, hmap, htask, hpending]
          · omega
          · simp [hempty] at hinside
          · rcases (hcaptures c).mp hentry with htask | hpending
            · by_cases hpending : Captures w.loop.pendingCallbacks c <;>
                simp [hpos, htask, hpending]
            · simp [hpos, hpending]
          · simp [hempty] at hrelease
    · have hheld : 0 < w.held c := Nat.pos_of_ne_zero hpos
      simp [hpos, hheld]
  · -- a captured connection is there until its last capture goes
    have hkept : ∀ c, Captures w.loop.entries c → w.clear.conns c = w.conns c := by
      intro c hcaptured
      rw [hcleared c, if_neg]
      exact fun hgone => hgone.2 (Or.inr hcaptured)
    show _ ++ _ = [] ↔ _
    rw [List.append_eq_nil_iff, hlate, hlater]
    constructor
    · rintro ⟨hlate, hlater⟩ c conn hconn hpos hcaptured
      by_cases hpending : Captures w.loop.pendingCallbacks c
      · refine hlater c conn ?_ hpending hpos
        rw [hconns' c, if_neg fun hgone => hgone.2.2 hpending, hclosed, hkept c hcaptured]
        exact hconn
      · have htask := ((hcaptures c).mp hcaptured).resolve_right hpending
        exact hlate c conn ((hkept c hcaptured).trans hconn) htask hpos hpending
    · refine fun hall => ⟨fun c conn hconn htask hpos _ => ?_, fun c conn hconn hpending hpos => ?_⟩
      · have hcaptured := (hcaptures c).mpr (Or.inl htask)
        exact hall c conn ((hkept c hcaptured).symm.trans hconn) hpos hcaptured
      · have hcaptured := (hcaptures c).mpr (Or.inr hpending)
        rw [hconns' c, if_neg fun hgone => hgone.2.2 hpending] at hconn
        exact hall c conn ((hkept c hcaptured).symm.trans hconn) hpos hcaptured

/-- **A loop goes cleanly if and only if nothing but the loop knows its
connections.** In every reachable state in which `run` is not being executed,
`~EventLoop` destroys every connection and asks for nothing on the table it has
closed exactly if user code points to no connection and each one that a queued
callback has captured has an event source that is not registered; and then the
table has no entry of a connection when it is closed. -/
theorem teardown_is_clean_iff (w : World τ) (h : machine.Reach Machine.anyStep w)
    (houtside : w.loop.phase = .outside) (hempty : w.stack = []) :
    (w.CleanTeardown ↔ ∀ c conn, w.conns c = some conn →
      w.held c = 0 ∧ (Captures w.loop.entries c → conn.source.state = .noEvent)) ∧
      (w.CleanTeardown → ∀ fd, w.clear.epoll fd = none) := by
  obtain ⟨hconns, hlate⟩ := teardown_spec h houtside hempty
  have hiff : w.CleanTeardown ↔ ∀ c conn, w.conns c = some conn →
      w.held c = 0 ∧ (Captures w.loop.entries c → conn.source.state = .noEvent) := by
    rw [CleanTeardown, hlate]
    constructor
    · rintro ⟨hsources, hgone⟩ c conn hconn
      have hpos : w.held c = 0 := by
        by_contra hne
        have hkept := hgone c
        rw [hconns c, if_neg hne, hconn] at hkept
        cases hkept
      exact ⟨hpos, hsources c conn hconn hpos⟩
    · refine fun hall => ⟨fun c conn hconn _ => (hall c conn hconn).2, fun c => ?_⟩
      rw [hconns c]
      cases hconn : w.conns c with
      | none => simp
      | some conn => simp [(hall c conn hconn).1]
  refine ⟨hiff, fun hclean fd => ?_⟩
  by_contra hentry
  obtain ⟨entry, hentry⟩ := Option.ne_none_iff_exists'.mp hentry
  have hbacked := backed_clear (reach_backed h)
  obtain ⟨conn, hconn⟩ := hbacked.live fd entry hentry
  obtain ⟨-, -, -, -, hcleared⟩ := clear_spec hempty
  have hold := hconn
  rw [hcleared] at hold
  split at hold
  · cases hold
  · rename_i hkept
    obtain ⟨hpos, hsource⟩ := hiff.mp hclean _ conn hold
    have hcaptured : Captures w.loop.entries entry.ptr := by
      rcases reach_accounted h hold with (hmap | hheld | hinside | hcaptured) | hrelease
      · by_contra hnot
        refine hkept ⟨hmap, ?_⟩
        rintro (hheld | hcaptured)
        · omega
        · exact hnot hcaptured
      · omega
      · simp [hempty] at hinside
      · exact hcaptured
      · simp [hempty] at hrelease
    have hstate := ((hbacked.conn _ conn hconn).source.entry fd entry hentry rfl).2
    rw [hsource hcaptured] at hstate
    cases hstate

/-- A loop that is stopped with a connection open goes cleanly; it does not when
another thread has posted a `close` after the last iteration. -/
theorem teardown_is_clean_iff_of_stop :
    (∃ w : World ℕ, machine.Reach Machine.anyStep w ∧ w.conns 0 ≠ none ∧ w.CleanTeardown ∧
      w.clear.epoll 5 = none) ∧
    ∃ w : World ℕ, machine.Reach Machine.anyStep w ∧ w.loop.phase = .outside ∧ w.stack = [] ∧
      w.held 0 = 0 ∧ ¬ w.CleanTeardown := by
  have hnew : machine.Reach Machine.anyStep (new 0 : World ℕ) := .init ⟨0, rfl⟩
  constructor
  · obtain ⟨w, hreach, hempty, houtside, hheld, hentries, hnext, conn, hconn⟩ :=
      hnew.exists_of_leads
        [.loop (.enterRun 0), .loop .testRunning, .epollWait [.other],
          .user 0 (.onNewConnection 5 ⟨false, true, false, false⟩), .user 0 (.drop 0), .returns,
          .loop (.stopFlag 1), .loop (.stopNotify 1), .loop .swapPending, .loop .endBatch,
          .endIteration, .loop .testRunning]
        (P := fun w => w.stack = [] ∧ w.loop.phase = .outside ∧ w.held 0 = 0 ∧
          w.loop.entries = [] ∧ w.nextId = 1 ∧ ∃ conn ∈ w.conns 0, conn.fd = 5)
        (by decide)
    obtain ⟨hiff, htable⟩ := teardown_is_clean_iff w hreach houtside hempty
    have hclean : w.CleanTeardown := by
      refine hiff.mpr fun c conn' hconn' => ⟨?_, fun hcaptured => ?_⟩
      · have hlt := (reach_numbered hreach).live c conn' hconn'
        rw [hnext] at hlt
        obtain rfl : c = 0 := Nat.lt_one_iff.mp hlt
        exact hheld
      · simp [Captures, hentries] at hcaptured
    have hlive : w.conns 0 = some conn := hconn.1
    exact ⟨w, hreach, by simp [hlive], hclean, htable hclean 5⟩
  · obtain ⟨w, hreach, hempty, houtside, hheld, hcaptured, conn, hconn, hstate⟩ :=
      hnew.exists_of_leads
        [.loop (.enterRun 0), .loop .testRunning, .epollWait [.other],
          .user 0 (.onNewConnection 5 ⟨false, true, false, false⟩), .returns,
          .loop (.stopFlag 1), .loop (.stopNotify 1), .loop .swapPending, .loop .endBatch,
          .endIteration, .loop .testRunning, .user 1 (.close 0), .user 1 (.drop 0)]
        (P := fun w => w.stack = [] ∧ w.loop.phase = .outside ∧ w.held 0 = 0 ∧
          Captures w.loop.entries 0 ∧ ∃ conn ∈ w.conns 0, conn.source.state = .registered)
        (by decide)
    refine ⟨w, hreach, houtside, hempty, hheld, fun hclean => ?_⟩
    have hall := (teardown_is_clean_iff w hreach houtside hempty).1.mp hclean
    rw [(hall 0 conn hconn).2 hcaptured] at hstate
    cases hstate

end World

end Mutiplex
