/-
# Machines that block, fault or go on

A program step has three ways to end: the action is not possible in the state
at hand, it runs into an error the language gives no meaning to, or it yields
the next state.  `Machine` keeps the three apart, so that "this error is
unreachable" and "this action is never offered" stay different statements.

`Reach ok` collects the states of the runs all of whose steps satisfy `ok`.
With `ok` always true these are all reachable states; with a side condition
they are the states of the runs that keep to it.

A `Device` also answers.  Its runs are compared by what they answer, and the
lockstep rule shows two devices to agree from one step of each.
-/

import Mathlib.Logic.Relation

namespace Transition

universe u v w

/-- The three ways one step can end. -/
inductive Outcome (σ : Type u) (ε : Type v)
  | blocked
  | fault (error : ε)
  | next (state : σ)

namespace Outcome

variable {σ : Type u} {ε : Type v}

/-- A fallible computation as the outcome of a step that was possible. -/
def ofExcept : Except ε σ → Outcome σ ε
  | .ok state => .next state
  | .error error => .fault error

@[simp]
theorem ofExcept_eq_next {result : Except ε σ} {state : σ} :
    ofExcept result = .next state ↔ result = .ok state := by
  cases result <;> simp [ofExcept]

/-- A step that is possible or not, and cannot go wrong. -/
def ofOption : Option σ → Outcome σ ε
  | some state => .next state
  | none => .blocked

@[simp]
theorem ofOption_eq_next {result : Option σ} {state : σ} :
    (ofOption result : Outcome σ ε) = .next state ↔ result = some state := by
  cases result <;> simp [ofOption]

/-- The step was possible, went well, and led to a state with the property. -/
def Leads (P : σ → Prop) : Outcome σ ε → Prop
  | .next state => P state
  | _ => False

instance (P : σ → Prop) [DecidablePred P] : DecidablePred (Leads P : Outcome σ ε → Prop)
  | .next state => inferInstanceAs (Decidable (P state))
  | .blocked => isFalse id
  | .fault _ => isFalse id

theorem leads_iff {P : σ → Prop} {outcome : Outcome σ ε} :
    outcome.Leads P ↔ ∃ state, outcome = .next state ∧ P state := by
  cases outcome <;> simp [Leads]

/-- Go on with the result of a step, if there is one. -/
def andThen {τ : Type w} : Outcome σ ε → (σ → Outcome τ ε) → Outcome τ ε
  | .next state, rest => rest state
  | .fault error, _ => .fault error
  | .blocked, _ => .blocked

/-- Two outcomes of the same kind, with the same error or with related states. -/
inductive Matches {τ : Type w} (R : σ → τ → Prop) : Outcome σ ε → Outcome τ ε → Prop
  | blocked : Matches R .blocked .blocked
  | fault (error : ε) : Matches R (.fault error) (.fault error)
  | next {state : σ} {other : τ} : R state other → Matches R (.next state) (.next other)

end Outcome

/-- The one law of fallible sequencing the proofs need: a sequence that
succeeds is a first part that succeeds and a second part that does. -/
theorem bind_eq_ok {ε : Type v} {α β : Type u}
    {first : Except ε α} {rest : α → Except ε β} {result : β} :
    (first >>= rest) = .ok result ↔ ∃ a, first = .ok a ∧ rest a = .ok result := by
  cases first <;> simp [bind, Except.bind]

/-- A set of initial states and a step function. -/
structure Machine (σ : Type u) (α : Type v) (ε : Type w) where
  Init : σ → Prop
  step : σ → α → Outcome σ ε

namespace Machine

variable {σ : Type u} {α : Type v} {ε : Type w} (M : Machine σ α ε)

/-- The states of the runs whose every step satisfies `ok`. -/
inductive Reach (ok : σ → α → Prop) : σ → Prop
  | init {state : σ} : M.Init state → Reach ok state
  | step {source target : σ} {action : α} : Reach ok source → ok source action →
      M.step source action = .next target → Reach ok target

/-- Every run is allowed. -/
def anyStep : σ → α → Prop := fun _ _ => True

instance : DecidableRel (anyStep : σ → α → Prop) := fun _ _ => instDecidableTrue

variable {M} {ok ok' : σ → α → Prop}

/-- A weaker side condition allows more runs. -/
theorem Reach.mono (hle : ∀ source action, ok source action → ok' source action)
    {state : σ} (h : M.Reach ok state) : M.Reach ok' state := by
  induction h with
  | init hinit => exact .init hinit
  | step _ hok hstep ih => exact .step ih (hle _ _ hok) hstep

/-- Forgetting the side condition. -/
theorem Reach.any {state : σ} (h : M.Reach ok state) : M.Reach anyStep state :=
  h.mono fun _ _ _ => trivial

/-- The invariant rule: what holds initially and survives every allowed step
from a reachable state holds in every reachable state. -/
theorem Reach.invariant (Inv : σ → Prop) (hinit : ∀ state, M.Init state → Inv state)
    (hstep : ∀ source action target, M.Reach ok source → Inv source → ok source action →
      M.step source action = .next target → Inv target)
    {state : σ} (h : M.Reach ok state) : Inv state := by
  induction h with
  | init h => exact hinit _ h
  | step hreach hok hnext ih => exact hstep _ _ _ hreach ih hok hnext

variable (M) in
/-- One allowed step leads from the one state to the other. -/
def Next (ok : σ → α → Prop) (source target : σ) : Prop :=
  ∃ action, ok source action ∧ M.step source action = .next target

variable (M) in
/-- Allowed steps lead from the one state to the other. -/
def Path (ok : σ → α → Prop) : σ → σ → Prop := Relation.ReflTransGen (M.Next ok)

/-- A path that starts in a reachable state ends in one. -/
theorem Reach.path {source target : σ} (h : M.Reach ok source)
    (hpath : M.Path ok source target) : M.Reach ok target := by
  induction hpath with
  | refl => exact h
  | tail _ hnext ih =>
      obtain ⟨action, hok, hstep⟩ := hnext
      exact .step ih hok hstep

/-- What holds now and did not at first was brought about by a step. -/
theorem Reach.exists_step (P : σ → Prop) (hinit : ∀ state, M.Init state → ¬ P state)
    {state : σ} (h : M.Reach ok state) (hP : P state) :
    ∃ source action target, M.Reach ok source ∧ M.step source action = .next target ∧
      ¬ P source ∧ P target ∧ M.Path ok target state := by
  refine h.invariant (fun state => P state → ∃ source action target, M.Reach ok source ∧
    M.step source action = .next target ∧ ¬ P source ∧ P target ∧ M.Path ok target state)
    (fun state hstate hP => absurd hP (hinit state hstate)) ?_ hP
  intro last action next hreach ih hok hstep hnext
  by_cases hlast : P last
  · obtain ⟨source, earlier, target, hsource, hearlier, hnot, htarget, hpath⟩ := ih hlast
    exact ⟨source, earlier, target, hsource, hearlier, hnot, htarget,
      hpath.tail ⟨action, hok, hstep⟩⟩
  · exact ⟨last, action, next, hreach, hstep, hlast, hnext, .refl⟩

/-- The invariant rule for a part of a run. -/
theorem Path.invariant (Inv : σ → Prop) {source target : σ} (hpath : M.Path ok source target)
    (hinv : Inv source)
    (hstep : ∀ source action target, Inv source → ok source action →
      M.step source action = .next target → Inv target) : Inv target := by
  induction hpath with
  | refl => exact hinv
  | tail _ hnext ih =>
      obtain ⟨action, hok, hnext⟩ := hnext
      exact hstep _ _ _ ih hok hnext

/-- The invariant rule for the rest of a run: what holds in a reached state and
survives every allowed step holds in all that follows. -/
theorem Reach.invariant_path (Inv : σ → Prop) {source target : σ} (h : M.Reach ok source)
    (hpath : M.Path ok source target) (hinv : Inv source)
    (hstep : ∀ source action target, M.Reach ok source → Inv source → ok source action →
      M.step source action = .next target → Inv target) : Inv target := by
  refine (hpath.invariant (fun state => M.Reach ok state ∧ Inv state) ⟨h, hinv⟩ ?_).2
  rintro source action target ⟨hreach, hinv⟩ hok hnext
  exact ⟨.step hreach hok hnext, hstep _ _ _ hreach hinv hok hnext⟩

variable (M) in
/-- The allowed steps from the one state to the other, in their order. -/
inductive Trace (ok : σ → α → Prop) : σ → List α → σ → Prop
  | nil {state : σ} : Trace ok state [] state
  | cons {source middle target : σ} {action : α} {rest : List α} (hok : ok source action)
      (hstep : M.step source action = .next middle) (hrest : Trace ok middle rest target) :
      Trace ok source (action :: rest) target

theorem Trace.path {source target : σ} {actions : List α} (h : M.Trace ok source actions target) :
    M.Path ok source target := by
  induction h with
  | nil => exact .refl
  | @cons _ _ _ action _ hok hstep _ ih => exact .head ⟨action, hok, hstep⟩ ih

/-- A trace from a reachable state ends in one. -/
theorem Trace.reach {source target : σ} {actions : List α} (h : M.Trace ok source actions target)
    (hreach : M.Reach anyStep source) : M.Reach anyStep target :=
  h.path.invariant _ hreach fun _ _ _ hreach _ hstep => hreach.step trivial hstep

variable (M)

/-- Run a list of actions, blocking at the first one that `ok` does not allow. -/
def runWithin (ok : σ → α → Prop) [∀ s a, Decidable (ok s a)] : σ → List α → Outcome σ ε
  | state, [] => .next state
  | state, action :: rest =>
      if ok state action then
        match M.step state action with
        | .next target => runWithin ok target rest
        | .fault error => .fault error
        | .blocked => .blocked
      else .blocked

variable {M}

/-- Replaying a list of allowed actions leaves it as the trace. -/
theorem trace_of_runWithin [∀ s a, Decidable (ok s a)] {source target : σ} {actions : List α}
    (hrun : M.runWithin ok source actions = .next target) : M.Trace ok source actions target := by
  induction actions generalizing source with
  | nil =>
      simp only [Machine.runWithin, Outcome.next.injEq] at hrun
      exact hrun ▸ .nil
  | cons action rest ih =>
      simp only [Machine.runWithin] at hrun
      split at hrun
      · rename_i hok
        split at hrun
        · exact .cons hok ‹_› (ih hrun)
        · cases hrun
        · cases hrun
      · cases hrun

/-- Replaying a list of allowed actions walks a path to its end. -/
theorem path_of_runWithin [∀ s a, Decidable (ok s a)] {source target : σ} (actions : List α)
    (hrun : M.runWithin ok source actions = .next target) : M.Path ok source target :=
  (trace_of_runWithin hrun).path

/-- Replaying a list of allowed actions from a reached state reaches its end. -/
theorem Reach.runWithin [∀ s a, Decidable (ok s a)] {source target : σ}
    (h : M.Reach ok source) (actions : List α)
    (hrun : M.runWithin ok source actions = .next target) :
    M.Reach ok target :=
  h.path (path_of_runWithin actions hrun)

/-- A replay that ends in a state with a property, without naming the state. -/
theorem exists_trace_of_leads [∀ s a, Decidable (ok s a)] {source : σ} (actions : List α)
    {P : σ → Prop} (hrun : (M.runWithin ok source actions).Leads P) :
    ∃ target, M.Trace ok source actions target ∧ P target := by
  obtain ⟨target, hend, hP⟩ := Outcome.leads_iff.mp hrun
  exact ⟨target, trace_of_runWithin hend, hP⟩

@[inherit_doc exists_trace_of_leads]
theorem exists_path_of_leads [∀ s a, Decidable (ok s a)] {source : σ} (actions : List α)
    {P : σ → Prop} (hrun : (M.runWithin ok source actions).Leads P) :
    ∃ target, M.Path ok source target ∧ P target := by
  obtain ⟨target, htrace, hP⟩ := exists_trace_of_leads actions hrun
  exact ⟨target, htrace.path, hP⟩

@[inherit_doc exists_trace_of_leads]
theorem Reach.exists_of_leads [∀ s a, Decidable (ok s a)] {source : σ}
    (h : M.Reach ok source) (actions : List α) {P : σ → Prop}
    (hrun : (M.runWithin ok source actions).Leads P) :
    ∃ target, M.Reach ok target ∧ P target := by
  obtain ⟨target, hpath, hP⟩ := exists_path_of_leads actions hrun
  exact ⟨target, h.path hpath, hP⟩

end Machine

/-- A machine each of whose steps returns an answer. -/
structure Device (σ : Type u) (α : Type v) (ω : Type u) (ε : Type w) where
  step : σ → α → Outcome (σ × ω) ε

namespace Device

variable {σ τ ω : Type u} {α β : Type v} {ε : Type w}

/-- The answers to a list of actions; a run that is blocked or goes wrong
anywhere has none. -/
def answers (D : Device σ α ω ε) : σ → List α → Outcome (List ω) ε
  | _, [] => .next []
  | state, action :: rest =>
      (D.step state action).andThen fun result =>
        (D.answers result.1 rest).andThen fun later => .next (result.2 :: later)

/-- The lockstep rule: if related states answer alike and stay related, then
whole runs cannot be told apart. -/
theorem answers_eq_of_lockstep {D : Device σ α ω ε} {D' : Device τ β ω ε} (f : α → β)
    (R : σ → τ → Prop)
    (hstep : ∀ state other action, R state other →
      Outcome.Matches (fun result result' => R result.1 result'.1 ∧ result.2 = result'.2)
        (D.step state action) (D'.step other (f action)))
    (actions : List α) {state : σ} {other : τ} (h : R state other) :
    D.answers state actions = D'.answers other (actions.map f) := by
  induction actions generalizing state other with
  | nil => rfl
  | cons action rest ih =>
      have hmatch := hstep state other action h
      rw [List.map_cons, answers, answers]
      generalize D.step state action = outcome, D'.step other (f action) = outcome' at hmatch
      cases hmatch with
      | blocked => rfl
      | fault error => rfl
      | next hrelated =>
          obtain ⟨hstay, hanswer⟩ := hrelated
          simp only [Outcome.andThen, ih hstay, hanswer]

/-- A device whose steps never go wrong does not go wrong in any run. -/
theorem answers_ne_fault {D : Device σ α ω ε}
    (hstep : ∀ state action error, D.step state action ≠ .fault error)
    (actions : List α) (state : σ) (error : ε) : D.answers state actions ≠ .fault error := by
  induction actions generalizing state with
  | nil => simp [answers]
  | cons action rest ih =>
      rw [answers]
      cases hresult : D.step state action with
      | blocked => simp [Outcome.andThen]
      | fault error' => exact absurd hresult (hstep state action error')
      | next result =>
          simp only [Outcome.andThen]
          cases hlater : D.answers result.1 rest with
          | blocked => simp
          | fault error' =>
              intro heq
              cases heq
              exact ih _ hlater
          | next later => simp

end Device

end Transition
