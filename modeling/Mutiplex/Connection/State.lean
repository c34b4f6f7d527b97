/-
# The state of a connection only moves forward

The tasks of `close` assign `Closed` or `Disconnecting` without looking at the
state they find.  That none of them takes a connection back from `Closed` rests
on the buffer: a closed connection has nothing left to write, so its `close`
tasks take the other branch, and `do_write` refuses to give it new bytes.
-/

import Mutiplex.Connection.Life

namespace Mutiplex

open Transition

variable {τ : Type} [DecidableEq τ]

/-- The place of a state in `New < Receiving < Disconnecting < Closed`. -/
def ConnState.rank : ConnState → ℕ
  | .new => 0
  | .receiving => 1
  | .disconnecting => 2
  | .closed => 3

theorem ConnState.rank_le_closed (state : ConnState) : state.rank ≤ ConnState.closed.rank := by
  cases state <;> decide

theorem ConnState.eq_closed_of_rank {state : ConnState} (h : ConnState.closed.rank ≤ state.rank) :
    state = .closed := by
  cases state <;> first | rfl | exact absurd h (by decide)

namespace Connection

variable {conn : Connection} {c : ConnId} {table : Epoll ConnId} {registered : Bool}
  {job : Job} {effect : Effect}

/-- The output buffer is null or empty. -/
def Drained (conn : Connection) : Prop := ∀ b, conn.bufferOut = some b → b.empty = true

theorem Settled.drained (h : conn.Settled) (hclosed : conn.state = .closed) : conn.Drained := by
  intro b hb
  have hbytes := hasBytesToWrite_eq_false.mpr (h hclosed)
  rw [hasBytesToWrite, hb] at hbytes
  simpa using hbytes

/-- A job never takes its connection back. -/
theorem Ran.rank_le (h : Ran conn c table registered job effect) (hsettled : conn.Settled) :
    conn.state.rank ≤ effect.conn.state.rank := by
  by_cases hclosed : conn.state = .closed
  · rw [h.closed hsettled hclosed, hclosed]
  · cases h with
    | closeWaits hbytes =>
        -- Only `Closed` lies above `Disconnecting`.
        show conn.state.rank ≤ ConnState.disconnecting.rank
        cases hstate : conn.state with
        | closed => exact absurd hstate hclosed
        | _ => decide
    | closes => exact conn.state.rank_le_closed
    | forceCloses => exact conn.state.rank_le_closed
    | _ => exact le_rfl

end Connection

namespace World

variable {w w' : World τ} {action : Action τ} {c : ConnId}

/-- A connection that exists after a step was just registered, or existed before
with the same descriptor and in a state no later than this one. -/
theorem Moves.origin (hmoves : Moves w action w') (hreach : machine.Reach Machine.anyStep w)
    {conn' : Connection} (hconn' : w'.conns c = some conn') :
    c = w.nextId ∨ ∃ conn, w.conns c = some conn ∧ conn'.fd = conn.fd ∧
      conn.state.rank ≤ conn'.state.rank := by
  cases hmoves.fate (reach_loop hreach).1 (reach_loop_queues hreach) c with
  | same heq => exact Or.inr ⟨conn', heq ▸ hconn', rfl, le_rfl⟩
  | gone heq =>
      rw [heq] at hconn'
      cases hconn'
  | posted heq => exact Or.inr ⟨conn', heq ▸ hconn', rfl, le_rfl⟩
  | callbacks hconn heq =>
      cases heq.symm.trans hconn'
      exact Or.inr ⟨_, hconn, rfl, le_rfl⟩
  | born hconn hc => exact Or.inl hc
  | ran hjob hbody hconn hanswers hran hposts heq =>
      cases heq.symm.trans hconn'
      exact Or.inr ⟨_, hconn, hran.fd_eq, hran.rank_le (reach_settled hreach hconn)⟩

/-- The connection was named, and if it still exists it has come at least so
far. -/
structure Beyond (c : ConnId) (state : ConnState) (w : World τ) : Prop where
  named : c < w.nextId
  rank_le : ∀ conn, w.conns c = some conn → state.rank ≤ conn.state.rank

theorem Beyond.moves {state : ConnState} (h : Beyond c state w)
    (hreach : machine.Reach Machine.anyStep w) (hmoves : Moves w action w') :
    Beyond c state w' := by
  refine ⟨Nat.lt_of_lt_of_le h.named hmoves.nextId_le, fun conn' hconn' => ?_⟩
  rcases hmoves.origin hreach hconn' with hc | ⟨conn, hconn, -, hle⟩
  · exact absurd (hc ▸ h.named) (Nat.lt_irrefl _)
  · exact (h.rank_le conn hconn).trans hle

/-- What a connection has come to, it has come to for the rest of the run. -/
theorem beyond_of_path {later : World τ} {conn : Connection}
    (h : machine.Reach Machine.anyStep w) (hconn : w.conns c = some conn)
    (hpath : machine.Path Machine.anyStep w later) : Beyond c conn.state later := by
  refine h.invariant_path (Beyond c conn.state) hpath ?_ ?_
  · refine ⟨(reach_numbered h).live c conn hconn, fun other hother => ?_⟩
    cases hconn.symm.trans hother
    exact le_rfl
  · exact fun _ _ _ hreach hinv _ hstep => hinv.moves hreach (moves_of_step hstep)

/-- **The state of a connection only moves forward, and `Closed` is final.**
Wherever a run takes a connection from any reachable state, it finds it in the
same state or a later one; and once a connection is closed its output buffer is
null or empty, then and in everything that follows, so that no task adds a byte
to it. -/
theorem state_only_moves_forward (w later : World τ) (h : machine.Reach Machine.anyStep w)
    (hpath : machine.Path Machine.anyStep w later) (c : ConnId) (conn conn' : Connection)
    (hconn : w.conns c = some conn) (hconn' : later.conns c = some conn') :
    conn.state.rank ≤ conn'.state.rank ∧
      (conn.state = .closed → conn.Drained ∧ conn'.state = .closed ∧ conn'.Drained) := by
  have hle := (beyond_of_path h hconn hpath).rank_le conn' hconn'
  refine ⟨hle, fun hclosed => ?_⟩
  have hclosed' : conn'.state = .closed := ConnState.eq_closed_of_rank (hclosed ▸ hle)
  exact ⟨(reach_settled h hconn).drained hclosed, hclosed',
    (reach_settled (h.path hpath) hconn').drained hclosed'⟩

/-- A connection that is closed while bytes wait, flushed, and then told to
close, to write and to close by force once more. -/
theorem state_only_moves_forward_of_close :
    ∃ w later : World ℕ, machine.Reach Machine.anyStep w ∧
      machine.Path Machine.anyStep w later ∧ ∃ conn conn', w.conns 0 = some conn ∧
        later.conns 0 = some conn' ∧ conn.state = .closed ∧ conn'.state = .closed ∧
        conn'.Drained := by
  have hnew : machine.Reach Machine.anyStep (new 0 : World ℕ) := .init ⟨0, rfl⟩
  obtain ⟨w, hreach, hw⟩ := hnew.exists_of_leads
    [.user 0 (.onNewConnection 5 ⟨false, false, false, false⟩), .user 0 (.writeData 0 [1, 2]),
      .user 0 (.close 0), .user 0 (.writeBuffer 0 0), .user 0 (.forceClose 0), .user 0 (.close 0),
      .loop (.enterRun 0), .loop .testRunning, .epollWait [], .loop .swapPending,
      .loop .endBatch, .call, .callReturns, .call, .callReturns, .exec 0, .call, .callReturns,
      .exec 0, .call, .exec 0, .exec 0, .callReturns, .exec 0]
    (P := fun w => ∃ conn ∈ w.conns 0, conn.state = .closed ∧
      ((machine.runWithin Machine.anyStep w [.call, .exec 0, .callReturns, .exec 0]).Leads
        fun later => (later.conns 0).isSome = true))
    (by decide)
  obtain ⟨conn, hconn, hclosed, hruns⟩ := hw
  obtain ⟨later, hpath, hlater⟩ := Machine.exists_path_of_leads _ hruns
  obtain ⟨conn', hconn'⟩ := Option.isSome_iff_exists.mp hlater
  obtain ⟨-, hfinal⟩ := state_only_moves_forward w later hreach hpath 0 conn conn' hconn hconn'
  exact ⟨w, later, hreach, hpath, conn, conn', hconn, hconn', hclosed, (hfinal hclosed).2⟩

end World

end Mutiplex
