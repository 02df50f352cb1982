import Mathlib.Logic.Function.Basic
import Mathlib.Data.List.Basic

namespace SuperBadBlock.KeyedFold

variable {κ V E : Type} [DecidableEq κ]

-- One event at one key of a store; every other key keeps its value.
def step (f : κ → V → E → V) (store : κ → V) (touch : κ × E) : κ → V :=
  Function.update store touch.1 (f touch.1 (store touch.1) touch.2)

def run (f : κ → V → E → V) (store : κ → V) (touches : List (κ × E)) : κ → V :=
  touches.foldl (step f) store

-- The events at one key, in order.
def eventsAt (key : κ) (touches : List (κ × E)) : List E :=
  touches.filterMap fun touch => if touch.1 = key then some touch.2 else none

@[simp] theorem eventsAt_nil (key : κ) : eventsAt key ([] : List (κ × E)) = [] := rfl

theorem eventsAt_cons (key : κ) (touch : κ × E) (touches : List (κ × E)) :
    eventsAt key (touch :: touches) =
      (if touch.1 = key then [touch.2] else []) ++ eventsAt key touches := by
  unfold eventsAt
  by_cases h : touch.1 = key
  · simp [h]
  · simp [h]

@[simp] theorem eventsAt_append (key : κ) (first second : List (κ × E)) :
    eventsAt key (first ++ second) = eventsAt key first ++ eventsAt key second :=
  List.filterMap_append

theorem eventsAt_flatMap {α : Type} (key : κ) (f : α → List (κ × E)) (l : List α) :
    eventsAt key (l.flatMap f) = l.flatMap fun x => eventsAt key (f x) := by
  induction l with
  | nil => rfl
  | cons x l ih => rw [List.flatMap_cons, eventsAt_append, ih, List.flatMap_cons]

theorem mem_eventsAt (key : κ) (event : E) (touches : List (κ × E)) :
    event ∈ eventsAt key touches ↔ (key, event) ∈ touches := by
  simp only [eventsAt, List.mem_filterMap, Option.ite_none_right_eq_some, Option.some.injEq]
  constructor
  · rintro ⟨⟨_, _⟩, hm, rfl, rfl⟩
    exact hm
  · intro hm
    exact ⟨_, hm, rfl, rfl⟩

-- What a run leaves at a key depends on the events at that key alone.
theorem run_apply (f : κ → V → E → V) (store : κ → V) (touches : List (κ × E)) (key : κ) :
    run f store touches key = (eventsAt key touches).foldl (f key) (store key) := by
  induction touches generalizing store with
  | nil => rfl
  | cons touch touches ih =>
      have hi := ih (step f store touch)
      rw [run, List.foldl_cons, ← run, hi, eventsAt_cons, List.foldl_append, step]
      by_cases h : touch.1 = key
      · subst h
        simp
      · simp [h, Function.update_of_ne (Ne.symm h)]

end SuperBadBlock.KeyedFold
