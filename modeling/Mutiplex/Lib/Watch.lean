/-
# Watching a machine

An observer keeps a record beside the state of a machine: it starts with a fixed
record and adds to it at every step, from the state, the action and the state
after it.  Observing changes nothing: every run of the machine is one of the
watched machine with some record, and the other way around.  So what a run did
can be spoken of in the state it reached although the machine keeps no account
of it.
-/

import Mutiplex.Lib.Transition

namespace Transition

universe u v w

theorem Outcome.andThen_eq_next {σ τ : Type u} {ε : Type v} {outcome : Outcome σ ε}
    {rest : σ → Outcome τ ε} {target : τ} :
    outcome.andThen rest = .next target ↔
      ∃ state, outcome = .next state ∧ rest state = .next target := by
  cases outcome <;> simp [Outcome.andThen]

namespace Machine

variable {σ ω : Type u} {α : Type v} {ε : Type w}

/-- The machine with an observer's record. -/
def watched (M : Machine σ α ε) (start : ω) (observe : σ → α → σ → ω → ω) :
    Machine (σ × ω) α ε where
  Init s := M.Init s.1 ∧ s.2 = start
  step s action := (M.step s.1 action).andThen fun target =>
    .next (target, observe s.1 action target s.2)

variable {M : Machine σ α ε} {start : ω} {observe : σ → α → σ → ω → ω} {ok : σ → α → Prop}

theorem watched_eq_next {source target : σ × ω} {action : α} :
    (M.watched start observe).step source action = .next target ↔
      M.step source.1 action = .next target.1 ∧
        target.2 = observe source.1 action target.1 source.2 := by
  simp only [watched, Outcome.andThen_eq_next, Outcome.next.injEq]
  constructor
  · rintro ⟨state, hstep, rfl⟩
    exact ⟨hstep, rfl⟩
  · rintro ⟨hstep, hrecord⟩
    exact ⟨target.1, hstep, by rw [← hrecord]⟩

/-- The runs of the watched machine that the side condition allows. -/
abbrev Watched (M : Machine σ α ε) (start : ω) (observe : σ → α → σ → ω → ω)
    (ok : σ → α → Prop) (state : σ) (record : ω) : Prop :=
  (M.watched start observe).Reach (fun s action => ok s.1 action) (state, record)

/-- The observer changes nothing. -/
theorem Watched.reach {state : σ} {record : ω} (h : M.Watched start observe ok state record) :
    M.Reach ok state := by
  refine Reach.invariant (M := M.watched start observe) (fun s => M.Reach ok s.1) ?_ ?_ h
  · exact fun s hinit => .init hinit.1
  · exact fun source action target _ hreach hok hnext =>
      .step hreach hok (watched_eq_next.mp hnext).1

/-- Every run can be observed. -/
theorem Reach.watched {state : σ} (h : M.Reach ok state) (start : ω)
    (observe : σ → α → σ → ω → ω) : ∃ record, M.Watched start observe ok state record := by
  induction h with
  | init hinit => exact ⟨start, .init ⟨hinit, rfl⟩⟩
  | @step source target action _ hok hstep ih =>
      obtain ⟨record, hrecord⟩ := ih
      exact ⟨observe source action target record,
        .step hrecord hok (watched_eq_next.mpr ⟨hstep, rfl⟩)⟩

/-- The invariant rule for states and records. -/
theorem Watched.invariant {state : σ} {record : ω} (h : M.Watched start observe ok state record)
    (Inv : σ → ω → Prop) (hinit : ∀ state, M.Init state → Inv state start)
    (hstep : ∀ source record action target, M.Reach ok source → Inv source record →
      ok source action → M.step source action = .next target →
        Inv target (observe source action target record)) : Inv state record := by
  refine Reach.invariant (M := M.watched start observe) (fun s => Inv s.1 s.2) ?_ ?_ h
  · rintro ⟨state, _⟩ ⟨hinit', rfl⟩
    exact hinit state hinit'
  · rintro ⟨source, record⟩ action ⟨target, record'⟩ hreach hinv hok hnext
    obtain ⟨hmachine, hrecord⟩ := watched_eq_next.mp hnext
    simp only at hmachine hrecord
    rw [hrecord]
    exact hstep source record action target (Watched.reach hreach) hinv hok hmachine

end Machine

end Transition
