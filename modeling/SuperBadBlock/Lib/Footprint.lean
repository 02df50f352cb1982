import SuperBadBlock.Lib.Traced

namespace SuperBadBlock.Footprint

variable {M ε α β σ : Type} {Same : M → M → Prop} {P : ε → Prop}

-- A computation that does the same on two memories with the same footprint, as long as
-- its events stay in the footprint.
def Local (Same : M → M → Prop) (P : ε → Prop) (f : M → Traced ε α) : Prop :=
  ∀ ⦃mem mem' : M⦄, Same mem mem' → (f mem).Within P → f mem' = f mem

theorem Local.const (x : Traced ε α) : Local Same P fun _ => x := fun _ _ _ _ => rfl

-- The second computation is only ever judged by what the first one returned.
theorem Local.bind {f : M → Traced ε α} {g : M → α → Traced ε β} (hf : Local Same P f)
    (hg : ∀ a, Local Same P fun mem => g mem a) : Local Same P fun mem => f mem >>= g mem := by
  intro mem mem' hsame hwithin
  obtain ⟨hfirst, hsecond⟩ := (Traced.within_bind (f mem) (g mem)).mp hwithin
  dsimp only
  rw [hf hsame hfirst]
  have hrest := hg (f mem).val hsame hsecond
  exact congrArg (fun x : Traced ε β => (⟨x.val, (f mem).log ++ x.log⟩ : Traced ε β)) hrest

theorem Local.ite {c : Prop} [Decidable c] {f g : M → Traced ε α} (hf : Local Same P f)
    (hg : Local Same P g) : Local Same P fun mem => if c then f mem else g mem := by
  by_cases hc : c
  · simpa only [if_pos hc] using hf
  · simpa only [if_neg hc] using hg

theorem Local.foldlM {step : M → σ → α → Traced ε σ}
    (hstep : ∀ s x, Local Same P fun mem => step mem s x) (l : List α) (s : σ) :
    Local Same P fun mem => l.foldlM (step mem) s := by
  induction l generalizing s with
  | nil => exact .const (pure s)
  | cons x l ih => exact (hstep s x).bind fun s => ih s

end SuperBadBlock.Footprint
