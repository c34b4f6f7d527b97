/-
# Paying for steps

An amortized bound on the steps of a machine.  Some steps cost something and some
bring a credit; a potential of the state makes up the difference.  If no single
step costs more than it brings and takes out of the potential, then no run does,
whatever the order of its steps.
-/

import Mathlib.Algebra.BigOperators.Group.List.Basic
import Mathlib.Algebra.GroupWithZero.Nat
import Mutiplex.Lib.Transition

namespace Transition

universe u v w

/-- A constant price for the steps of one kind. -/
theorem sum_price {α : Type v} (p : α → Bool) (price : ℕ) (actions : List α) :
    (actions.map fun action => if p action then price else 0).sum =
      price * actions.countP p := by
  induction actions with
  | nil => rfl
  | cons action rest ih =>
      rw [List.map_cons, List.sum_cons, ih, List.countP_cons]
      split
      · rw [Nat.mul_add, Nat.mul_one, Nat.add_comm]
      · rw [Nat.zero_add, Nat.add_zero]

namespace Machine

variable {σ : Type u} {α : Type v} {ε : Type w} {M : Machine σ α ε} {ok : σ → α → Prop}
  {source target : σ} {actions : List α}

variable (M) in
/-- What a run costs, where the price of a step may depend on the state it is
taken in. -/
def total (price : σ → α → ℕ) : σ → List α → ℕ
  | _, [] => 0
  | source, action :: rest =>
      price source action +
        match M.step source action with
        | .next target => total price target rest
        | _ => 0

variable (M) in
/-- The number of steps of a run with a property. -/
def count (p : σ → α → Bool) : σ → List α → ℕ := M.total fun source action =>
  if p source action then 1 else 0

theorem total_add (price price' : σ → α → ℕ) (source : σ) (actions : List α) :
    M.total (fun source action => price source action + price' source action) source actions =
      M.total price source actions + M.total price' source actions := by
  induction actions generalizing source with
  | nil => rfl
  | cons action rest ih =>
      simp only [total]
      cases M.step source action with
      | next target =>
          simp only [ih target]
          omega
      | fault => simp
      | blocked => simp

/-- A constant price for the steps with a property. -/
theorem total_price (p : σ → α → Bool) (price : ℕ) (source : σ) (actions : List α) :
    M.total (fun source action => if p source action then price else 0) source actions =
      price * M.count p source actions := by
  induction actions generalizing source with
  | nil => rfl
  | cons action rest ih =>
      simp only [count, total, Nat.mul_add]
      congr 1
      · split <;> simp
      · cases M.step source action with
        | next target => exact ih target
        | fault => rfl
        | blocked => rfl

/-- The price of an action does not depend on the states of its run. -/
theorem Trace.total_eq (price : α → ℕ) (h : M.Trace ok source actions target) :
    M.total (fun _ action => price action) source actions = (actions.map price).sum := by
  induction h with
  | nil => rfl
  | @cons source middle target action rest hok hnext _ ih =>
      simp only [total, hnext, ih, List.map_cons, List.sum_cons]

/-- **The rule of amortized bounds.** What a run costs and the potential it ends
with are paid for by the potential it starts with and the credits. -/
theorem Trace.paid_total (Inv : σ → Prop) (potential : σ → ℕ) (cost credit : σ → α → ℕ)
    (hstep : ∀ source action target, Inv source → ok source action →
      M.step source action = .next target →
        Inv target ∧
          cost source action + potential target ≤ potential source + credit source action)
    (h : M.Trace ok source actions target) (hinv : Inv source) :
    M.total cost source actions + potential target ≤
      potential source + M.total credit source actions := by
  induction h with
  | nil => exact Nat.add_comm .. ▸ Nat.le_refl _
  | @cons source middle target action rest hok hnext _ ih =>
      obtain ⟨hinv', hpaid⟩ := hstep source action middle hinv hok hnext
      have hrest := ih hinv'
      simp only [total, hnext]
      omega

/-- The rule where prices and credits do not depend on the state. -/
theorem Trace.paid (Inv : σ → Prop) (potential : σ → ℕ) (cost credit : α → ℕ)
    (hstep : ∀ source action target, Inv source → ok source action →
      M.step source action = .next target →
        Inv target ∧ cost action + potential target ≤ potential source + credit action)
    (h : M.Trace ok source actions target) (hinv : Inv source) :
    (actions.map cost).sum + potential target ≤
      potential source + (actions.map credit).sum := by
  rw [← h.total_eq cost, ← h.total_eq credit]
  exact h.paid_total Inv potential (fun _ => cost) (fun _ => credit) hstep hinv

end Machine

end Transition
