import Mathlib.Logic.Basic

namespace SuperBadBlock

-- A computation together with the list of events it emitted, in order. The
-- events never influence the value; they only record what was done.
structure Traced (ε α : Type) where
  val : α
  log : List ε

namespace Traced

variable {ε α β σ : Type}

instance : Monad (Traced ε) where
  pure a := ⟨a, []⟩
  bind x f := ⟨(f x.val).val, x.log ++ (f x.val).log⟩

@[simp] theorem val_pure (a : α) : (pure a : Traced ε α).val = a := (rfl)

@[simp] theorem log_pure (a : α) : (pure a : Traced ε α).log = [] := (rfl)

@[simp] theorem val_bind (x : Traced ε α) (f : α → Traced ε β) :
    (x >>= f).val = (f x.val).val := (rfl)

@[simp] theorem log_bind (x : Traced ε α) (f : α → Traced ε β) :
    (x >>= f).log = x.log ++ (f x.val).log := (rfl)

@[simp] theorem val_ite (c : Prop) [Decidable c] (x y : Traced ε α) :
    (if c then x else y).val = if c then x.val else y.val := by split <;> rfl

@[simp] theorem log_ite (c : Prop) [Decidable c] (x y : Traced ε α) :
    (if c then x else y).log = if c then x.log else y.log := by split <;> rfl

@[simp] theorem val_foldlM (f : σ → α → Traced ε σ) (s : σ) (l : List α) :
    (l.foldlM f s).val = l.foldl (fun s x => (f s x).val) s := by
  induction l generalizing s with
  | nil => rfl
  | cons x l ih => simp only [List.foldlM_cons, val_bind, List.foldl_cons, ih]

-- Every emitted event satisfies `P`.
def Within (P : ε → Prop) (x : Traced ε α) : Prop := ∀ e ∈ x.log, P e

variable {P : ε → Prop}

instance [DecidablePred P] (x : Traced ε α) : Decidable (x.Within P) :=
  inferInstanceAs (Decidable (∀ e ∈ x.log, P e))

@[simp] theorem within_pure (a : α) : (pure a : Traced ε α).Within P := by
  simp [Within]

@[simp] theorem within_bind (x : Traced ε α) (f : α → Traced ε β) :
    (x >>= f).Within P ↔ x.Within P ∧ (f x.val).Within P := by
  simp only [Within, log_bind, List.mem_append, or_imp, forall_and]

theorem within_ite (c : Prop) [Decidable c] (x y : Traced ε α) :
    (if c then x else y).Within P ↔ (c → x.Within P) ∧ (¬c → y.Within P) := by
  split <;> simp_all

-- The invariant rule for loops: the states reached keep `Inv`, and under
-- `Inv` the events of one step are judged by the element alone.
theorem within_foldlM (f : σ → α → Traced ε σ) (Inv : σ → Prop) (Q : α → Prop)
    (l : List α) (s : σ) (hs : Inv s)
    (hstep : ∀ s, Inv s → ∀ x ∈ l, Inv (f s x).val)
    (hwithin : ∀ s, Inv s → ∀ x ∈ l, ((f s x).Within P ↔ Q x)) :
    (l.foldlM f s).Within P ↔ ∀ x ∈ l, Q x := by
  induction l generalizing s with
  | nil => simp
  | cons x l ih =>
      have hi := ih (f s x).val (hstep s hs x List.mem_cons_self)
        (fun s hs y hy => hstep s hs y (List.mem_cons_of_mem x hy))
        (fun s hs y hy => hwithin s hs y (List.mem_cons_of_mem x hy))
      rw [List.foldlM_cons, within_bind, hwithin s hs x List.mem_cons_self, hi,
        List.forall_mem_cons]

end Traced

end SuperBadBlock
