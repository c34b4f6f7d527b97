/-
# What the peer is sent

An orderly program's peer is sent what the callbacks were told to write: the first
bytes at any time, and all of them when the connection is closed without an error.
-/

import Mutiplex.Service.Runs

namespace Mutiplex

open CMemory Transition

variable {τ : Type} [DecidableEq τ]

namespace Service

variable {program : Program} {e e' : Service τ} {action : Action τ} {c : ConnId}

/-- The bytes of the accepted writes whose tasks have not run. -/
def waiting (e : Service τ) (c : ConnId) : List UInt8 :=
  (e.world.loop.localTasks.filter (·.callback.target = some c)).flatMap (·.callback.bytes)

omit [DecidableEq τ] in
theorem flatMap_isWrite (tasks : List (Posted τ Task)) :
    (tasks.filter (·.callback.isWrite)).flatMap (·.callback.bytes) =
      tasks.flatMap (·.callback.bytes) := by
  induction tasks with
  | nil => rfl
  | cons task rest ih =>
      have hcons : (if task.callback.isWrite = true then task.callback.bytes else []) =
          task.callback.bytes := by
        cases task.callback <;> rfl
      rw [List.filter_cons, List.flatMap_cons, ← ih, ← hcons]
      split <;> simp [*]

/-- What a connection wrote are the bytes of the writes that ran. -/
theorem Kept.bytesOf_eq (h : Kept program c e)
    (hreach : World.machine.Reach Machine.anyStep e.world) :
    World.bytesOf (e.world.trail c) =
      ((World.chunksOf (e.world.trail c)).map (·.1)).flatMap (·.callback.bytes) := by
  have hordered := World.reach_ordered hreach c
  rw [World.bytesOf, List.flatMap_map]
  refine List.flatMap_congr fun chunk hchunk => ?_
  have hrun : chunk.1 ∈ (World.runsOf (e.world.trail c)).filter (·.callback.isWrite) :=
    hordered.first.subset (List.mem_map_of_mem hchunk)
  obtain ⟨hmem, hwrite⟩ := List.mem_filter.mp hrun
  obtain ⟨data, hdata⟩ := h.writes chunk.1
    (by rw [h.posts_eq hreach]; exact List.mem_append_left _ hmem) hwrite
  rcases hordered.payload chunk hchunk with hcallback | ⟨buffer, hcallback⟩
  · rw [hcallback, Task.bytes]
  · cases hdata.symm.trans hcallback

theorem Kept.posted_eq (h : Kept program c e)
    (hreach : World.machine.Reach Machine.anyStep e.world) :
    e.posted c = (World.runsOf (e.world.trail c)).flatMap (·.callback.bytes) ++ e.waiting c := by
  rw [posted, h.posts_eq hreach, List.flatMap_append]
  rfl

/-- What the callbacks were told to write is on the wire, in the output buffer, in
the tasks that wait and in the calls to come. -/
theorem wire_of_asked (horderly : program.Orderly)
    (h : (machine program).Reach (Keeps program c) e) :
    e.wire c <+: (e.asked c).map some ∧
      ∀ conn, e.world.conns c = some conn → Unforced (e.world.trail c) →
        e.wire c ++ conn.contents ++ (e.waiting c ++ e.dueFor c).map some =
            (e.asked c).map some ∧
          (conn.state = .closed → e.wire c = (e.asked c).map some) := by
  have hkept := reach_kept horderly h
  have hnoted := reach_noted h
  have hreach : World.machine.Reach Machine.anyStep e.world := (Machine.Watched.reach hnoted).any
  obtain ⟨hsent, hcontents⟩ := (World.Keeps.tracks hnoted).eq
  have hposted := hkept.posted_eq hreach
  constructor
  · have hwritten : World.bytesOf (e.world.trail c) <+: e.posted c := by
      rw [hkept.bytesOf_eq hreach, hposted, ← flatMap_isWrite (World.runsOf (e.world.trail c))]
      exact ((World.reach_ordered hreach c).first.flatMap _).trans (List.prefix_append _ _)
    exact hsent.trans ((hwritten.trans hkept.sent).map some)
  · intro conn hconn hnot
    have hwritten : World.bytesOf (e.world.trail c) =
        (World.runsOf (e.world.trail c)).flatMap (·.callback.bytes) := by
      rw [hkept.bytesOf_eq hreach, hkept.complete hnot, flatMap_isWrite]
    have hsplit : e.wire c ++ conn.contents ++ (e.waiting c ++ e.dueFor c).map some =
        (e.asked c).map some := by
      rw [hcontents conn hconn hnot, hwritten, ← List.map_append, ← List.append_assoc, ← hposted,
        hkept.all conn hconn hnot]
    refine ⟨hsplit, fun hclosed => ?_⟩
    obtain ⟨entry, hentry, hclose⟩ := hkept.closed conn hconn hnot hclosed
    have hbounded := (Machine.Watched.reach hnoted).mono fun _ _ hkeeps => hkeeps.bounded
    have hbuffer : conn.contents = [] :=
      (World.reach_sound hbounded hconn).contents_eq_nil (World.reach_settled hreach hconn hclosed)
    have hwaiting : e.waiting c = [] := by
      rw [waiting, ← flatMap_isWrite, List.filter_eq_nil_iff.mpr, List.flatMap_nil]
      intro task htask
      obtain ⟨hmem, htarget⟩ := List.mem_filter.mp htask
      simp [hkept.not_isWrite hreach hmem (by simpa using htarget) ⟨entry, hentry, hclose⟩]
    have hdue : e.dueFor c = [] := by
      refine Call.bytesTo_of_forall fun data hdata => hkept.due data hdata entry ?_ hclose
      rw [hkept.posts_eq hreach]
      exact List.mem_append_left _ hentry
    simpa [hbuffer, hwaiting, hdue] using hsplit

end Service

end Mutiplex
