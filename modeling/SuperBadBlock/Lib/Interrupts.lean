import Mathlib.Data.Nat.Init

namespace SuperBadBlock.Interrupts

variable {σ : Type}

-- A program that takes one step after another, and a handler that may run before
-- any of them; `due n` tells whether it runs before step `n`.
def run (step handler : σ → σ) (due : Nat → Bool) (start : σ) : Nat → σ
  | 0 => start
  | n + 1 =>
      let s := run step handler due start n
      step (if due n then handler s else s)

-- What neither a step nor the handler breaks.
structure Invariant (step handler : σ → σ) (Inv : σ → Prop) : Prop where
  step : ∀ s, Inv s → Inv (step s)
  handler : ∀ s, Inv s → Inv (handler s)

section Rules

variable {step handler : σ → σ} {due : Nat → Bool} {start : σ} {Inv : σ → Prop}

theorem run_succ_of_due {n : Nat} (h : due n = true) :
    run step handler due start (n + 1) = step (handler (run step handler due start n)) := by
  rw [run, if_pos h]

theorem run_succ_of_not_due {n : Nat} (h : due n = false) :
    run step handler due start (n + 1) = step (run step handler due start n) := by
  rw [run, if_neg (Bool.eq_false_iff.mp h)]

theorem Invariant.next (h : Invariant step handler Inv) {n : Nat}
    (hn : Inv (run step handler due start n)) : Inv (run step handler due start (n + 1)) := by
  cases hdue : due n with
  | true =>
      rw [run_succ_of_due hdue]
      exact h.step _ (h.handler _ hn)
  | false =>
      rw [run_succ_of_not_due hdue]
      exact h.step _ hn

-- An invariant holds from any moment on, whenever the handler runs.
theorem Invariant.run (h : Invariant step handler Inv) {n m : Nat}
    (hn : Inv (run step handler due start n)) (hnm : n ≤ m) :
    Inv (Interrupts.run step handler due start m) := by
  induction m, hnm using Nat.le_induction with
  | base => exact hn
  | succ m _ ih => exact h.next ih

-- What the handler brings about holds after every later step.
theorem Invariant.run_handled (h : Invariant step handler Inv) {n m : Nat} (hdue : due n = true)
    (hn : Inv (handler (Interrupts.run step handler due start n))) (hnm : n < m) :
    Inv (Interrupts.run step handler due start m) := by
  refine h.run ?_ (Nat.succ_le_of_lt hnm)
  rw [run_succ_of_due hdue]
  exact h.step _ hn

-- A rank that every step brings down and the handler does not bring up.
theorem Invariant.rank_run (h : Invariant step handler Inv) {rank : σ → Nat}
    (hstep : ∀ s, Inv s → rank (step s) ≤ rank s - 1)
    (hhandler : ∀ s, Inv s → rank (handler s) ≤ rank s)
    {n : Nat} (hn : Inv (Interrupts.run step handler due start n)) (k : Nat) :
    rank (Interrupts.run step handler due start (n + k)) ≤
      rank (Interrupts.run step handler due start n) - k := by
  induction k with
  | zero => exact Nat.le_refl _
  | succ k ih =>
      have hinv := h.run hn (Nat.le_add_right n k)
      have hlast : rank (Interrupts.run step handler due start (n + k + 1)) ≤
          rank (Interrupts.run step handler due start (n + k)) - 1 := by
        cases hdue : due (n + k) with
        | true =>
            rw [run_succ_of_due hdue]
            have hbefore := hhandler _ hinv
            have hafter := hstep _ (h.handler _ hinv)
            omega
        | false =>
            rw [run_succ_of_not_due hdue]
            exact hstep _ hinv
      rw [← Nat.add_assoc]
      omega

-- Where the handler never runs, the steps alone have to keep a property.
theorem run_undisturbed (hstep : ∀ s, Inv s → Inv (step s)) (hstart : Inv start) (n : Nat) :
    Inv (run step handler (fun _ => false) start n) := by
  induction n with
  | zero => exact hstart
  | succ n ih => exact hstep _ ih

end Rules

end SuperBadBlock.Interrupts
