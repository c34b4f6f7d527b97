/-
# Records of jobs

The history of the world keeps lengths and tasks, not bytes.  What a result
needs beyond that is kept by an observer: a record for each connection, to which
every job of the connection adds something.  `Noted.invariant` is the rule over
fates for connections, trails and records together.
-/

import Mutiplex.Connection.Life
import Mutiplex.Lib.Watch

namespace Mutiplex

open CMemory Transition

variable {τ : Type} [DecidableEq τ] {ω : Type}

namespace World

variable {w w' : World τ} {action : Action τ} {c : ConnId} {job : Job}

/-- The observer that lets `noting` add to the record of a connection whenever
one of its jobs runs. -/
def note (noting : Connection → Job → ω → ω) (w : World τ) (action : Action τ) (_ : World τ)
    (record : ConnId → ω) : ConnId → ω :=
  match w.job action with
  | none => record
  | some (c, job) =>
      match w.conns c with
      | none => record
      | some conn => Function.update record c (noting conn job (record c))

/-- The runs with a record for each connection, empty at first. -/
abbrev Noted (start : ω) (noting : Connection → Job → ω → ω) (ok : World τ → Action τ → Prop)
    (w : World τ) (record : ConnId → ω) : Prop :=
  machine.Watched (fun _ => start) (note noting) ok w record

section Note

variable {noting : Connection → Job → ω → ω} {record : ConnId → ω}

omit [DecidableEq τ] in
theorem note_of_job {conn : Connection} (hjob : w.job action = some (c, job))
    (hconn : w.conns c = some conn) :
    note noting w action w' record c = noting conn job (record c) := by
  simp [note, hjob, hconn]

omit [DecidableEq τ] in
/-- The record of a connection changes with its own jobs only. -/
theorem note_of_no_job (hnot : ∀ job, w.job action ≠ some (c, job)) :
    note noting w action w' record c = record c := by
  cases hjob : w.job action with
  | none => simp only [note, hjob]
  | some run =>
      obtain ⟨other, job⟩ := run
      have hne : c ≠ other := by
        rintro rfl
        exact hnot job hjob
      cases hconn : w.conns other with
      | none => simp only [note, hjob, hconn]
      | some conn => simp only [note, hjob, hconn, Function.update_of_ne hne]

end Note

/-- What a step does that runs a job. -/
theorem ran_of_job (h : w.step action = .next w') (hjob : w.job action = some (c, job)) :
    ∃ entry loop stack conn effect, w.BodyOf entry c job ∧ w.conns c = some conn ∧
      Answers conn job ∧ conn.Ran c w.epoll (w.registered conn.fd) job effect ∧
      w' = { w with loop := loop, stack := stack }.apply entry c job conn.state effect := by
  cases branch_of_step h with
  | exec hidle hexec =>
      cases executed_of_exec hexec with
      | @job frame rest other own _ hstack hframe hrun =>
          cases hframe.symm.trans ((job_exec hstack).symm.trans hjob)
          obtain ⟨conn, effect, hconn, hanswers, hran, rfl⟩ := runJob_eq_next hrun
          exact ⟨none, w.loop, frameRest frame ++ rest, conn, effect,
            Or.inl ⟨rfl, isTask_of_frameJob hframe⟩, hconn, hanswers, hran, rfl⟩
      | readNotify hstack => cases (job_exec hstack).symm.trans hjob
      | removeConnection hstack => cases (job_exec hstack).symm.trans hjob
      | release hstack => cases (job_exec hstack).symm.trans hjob
  | @call move entry loop _ hempty hnext hcall hmove hentry =>
      have htask : w.taskJob entry.callback = some (c, job) := (job_call hnext).symm.trans hjob
      have hrun : { w with loop := loop }.runJob (some entry) c job = .next w' := by
        have htask' : { w with loop := loop }.taskJob entry.callback = some (c, job) := htask
        simpa only [callEntry, htask'] using hentry
      obtain ⟨conn, effect, hconn, hanswers, hran, rfl⟩ := runJob_eq_next hrun
      exact ⟨some entry, loop, w.stack, conn, effect, Or.inr ⟨entry, rfl, hnext, htask⟩,
        hconn, hanswers, hran, rfl⟩
  | _ => cases hjob

/-- **The invariant rule for connections, trails and records.** What holds of a
connection that does not exist yet, with the empty record, and survives every
fate holds of every connection. -/
theorem Noted.invariant {ok : World τ → Action τ → Prop} {start : ω}
    {noting : Connection → Job → ω → ω} {record : ConnId → ω}
    (h : Noted start noting ok w record)
    (P : ConnId → Option Connection → List (Event τ) → ω → Prop)
    (hnone : ∀ c, P c none [] start)
    (hgone : ∀ c value trail note, P c value trail note → P c none trail note)
    (hposted : ∀ c value entry trail note, P c value trail note →
      entry.callback.target = some c → P c value (.posted entry :: trail) note)
    (hcallbacks : ∀ c conn callbacks trail note, P c (some conn) trail note →
      P c (some { conn with callbacks := callbacks }) trail note)
    (hborn : ∀ c fd callbacks table, P c (some (Connection.registerEvent fd callbacks c table).1)
      (((Connection.registerEvent fd callbacks c table).1.userCallback .established).map
        (Event.called c)).toList start)
    (hran : ∀ (source : World τ) action c job conn effect loop entry trail note,
      machine.Reach ok source → ok source action → source.job action = some (c, job) →
      source.BodyOf entry c job → source.conns c = some conn → Answers conn job →
      conn.Ran c source.epoll (source.registered conn.fd) job effect → P c (some conn) trail note →
      P c (some effect.conn) (records loop entry c job conn.state effect ++ trail)
        (noting conn job note))
    (c : ConnId) : P c (w.conns c) (w.trail c) (record c) := by
  refine (Machine.Watched.invariant h
    (fun w record => (∀ c, P c (w.conns c) (w.trail c) (record c)) ∧
      ∀ c, w.nextId ≤ c → record c = start) ?_ ?_).1 c
  · rintro _ ⟨thread, rfl⟩
    exact ⟨hnone, fun _ _ => rfl⟩
  · rintro source record action target hreach ⟨hinv, hfresh⟩ hok hstep
    have hnumbered := reach_numbered hreach
    have hmoves := moves_of_step hstep
    refine ⟨fun c => ?_, fun c hc => ?_⟩
    · have hold := hinv c
      by_cases hjob : ∃ job, source.job action = some (c, job)
      · obtain ⟨job, hjob⟩ := hjob
        obtain ⟨entry, loop, stack, conn, effect, hbody, hconn, hanswers, heffect, rfl⟩ :=
          ran_of_job hstep hjob
        have htarget : ∀ e, entry = some e → e.callback.target = some c := by
          rintro e rfl
          rcases hbody with ⟨hnone, -⟩ | ⟨task, htask, -, hbody⟩
          · cases hnone
          · cases htask
            exact target_of_taskJob hbody
        have htrail : ({ source with loop := loop, stack := stack }.apply entry c job conn.state
            effect).trail c = records loop entry c job conn.state effect ++ source.trail c :=
          trail_of_self rfl fun event => subject_of_records heffect htarget
        rw [note_of_job hjob hconn, htrail]
        simp only [apply, Function.update_self]
        exact hran source action c job conn effect loop entry _ _ hreach hok hjob hbody hconn
          hanswers heffect (hconn ▸ hold)
      · have hnot : ∀ job, source.job action ≠ some (c, job) := fun job h => hjob ⟨job, h⟩
        rw [note_of_no_job hnot]
        cases hmoves.fate (reach_loop hreach).1 (reach_loop_queues hreach) c with
        | same heq htrail => rwa [heq, htrail]
        | gone heq htrail =>
            rw [heq, htrail]
            exact hgone c _ _ _ hold
        | posted heq howned htarget hwrite htrail =>
            rw [heq, htrail]
            exact hposted c _ _ _ _ hold htarget
        | callbacks hconn heq htrail =>
            rw [heq, htrail]
            exact hcallbacks c _ _ _ _ (hconn ▸ hold)
        | born hconn hc hnext heq htrail =>
            have hempty : source.trail c = [] := by
              by_contra hne
              exact Nat.lt_irrefl _ (hc ▸ hnumbered.recorded c hne)
            rw [heq, htrail, hempty, List.append_nil, hconn, hfresh c (Nat.le_of_eq hc.symm)]
            exact hborn c _ _ _
        | ran hran => exact absurd hran (hnot _)
    · have hle : source.nextId ≤ c := Nat.le_trans hmoves.nextId_le hc
      rw [note_of_no_job fun job hjob => ?_, hfresh c hle]
      obtain ⟨_, _, _, conn, _, _, hconn, -⟩ := ran_of_job hstep hjob
      exact Nat.lt_irrefl _ (Nat.lt_of_lt_of_le (hnumbered.live c conn hconn) hle)

end World

end Mutiplex
