import Mathlib.Data.List.Induction
import Mathlib.Order.Lattice
import Mathlib.Tactic.Common

namespace SuperBadBlock.Generations

variable {α : Type}

-- A list that belongs to one version: a newer version clears it, the same
-- version appends, an older one is ignored.
def absorb (state : Nat × List α) (event : Nat × α) : Nat × List α :=
  if state.1 ≤ event.1 then
    (event.1, (if state.1 < event.1 then [] else state.2) ++ [event.2])
  else state

-- The highest version seen, 0 before any.
def newest : List (Nat × α) → Nat
  | [] => 0
  | event :: events => max event.1 (newest events)

theorem le_newest {event : Nat × α} {events : List (Nat × α)} (h : event ∈ events) :
    event.1 ≤ newest events := by
  induction events with
  | nil => cases h
  | cons first events ih =>
      rcases List.mem_cons.mp h with rfl | h
      · exact Nat.le_max_left _ _
      · exact Nat.le_trans (ih h) (Nat.le_max_right _ _)

theorem newest_mem {events : List (Nat × α)} (h : events ≠ []) :
    ∃ event ∈ events, event.1 = newest events := by
  induction events with
  | nil => exact absurd rfl h
  | cons first events ih =>
      by_cases hne : events = []
      · subst hne
        exact ⟨first, List.mem_cons_self, by simp [newest]⟩
      · obtain ⟨event, hm, he⟩ := ih hne
        rcases Nat.le_total first.1 (newest events) with hle | hle
        · exact ⟨event, List.mem_cons_of_mem _ hm, by rw [he, newest, Nat.max_eq_right hle]⟩
        · exact ⟨first, List.mem_cons_self, by rw [newest, Nat.max_eq_left hle]⟩

theorem newest_append (first second : List (Nat × α)) :
    newest (first ++ second) = max (newest first) (newest second) := by
  induction first with
  | nil => simp [newest]
  | cons event first ih => rw [List.cons_append, newest, ih, newest, Nat.max_assoc]

theorem newest_perm {first second : List (Nat × α)} (h : first.Perm second) :
    newest first = newest second := by
  induction h with
  | nil => rfl
  | cons event _ ih => rw [newest, newest, ih]
  | swap event event' events => exact Nat.max_left_comm _ _ _
  | trans _ _ ih ih' => exact ih.trans ih'

theorem newest_le_of_sublist {first second : List (Nat × α)} (h : first.Sublist second) :
    newest first ≤ newest second := by
  induction h with
  | slnil => exact Nat.le_refl _
  | cons _ _ ih => exact Nat.le_trans ih (Nat.le_max_right _ _)
  | cons_cons event _ ih => exact sup_le_sup_left ih event.1

-- Without some of the events the version is an older one, or it has fewer values.
theorem older_of_sublist {first second : List (Nat × α)} (h : first.Sublist second) :
    newest first < newest second ∨ newest first = newest second ∧
      ((first.filter fun event => event.1 = newest first).map Prod.snd).Sublist
        ((second.filter fun event => event.1 = newest second).map Prod.snd) := by
  rcases Nat.lt_or_eq_of_le (newest_le_of_sublist h) with hlt | heq
  · exact Or.inl hlt
  · rw [heq]
    exact Or.inr ⟨rfl, (h.filter _).map _⟩

-- Values of one version are all of the newest version.
theorem filter_newest_of_same (version : Nat) (values : List α) :
    ((values.map fun value => (version, value)).filter fun event =>
      event.1 = newest (values.map fun value => (version, value))).map Prod.snd = values := by
  have hall : ∀ event ∈ values.map fun value => (version, value),
      event.1 = newest (values.map fun value => (version, value)) := by
    intro event hm
    obtain ⟨other, hother, hnewest⟩ := newest_mem (List.ne_nil_of_mem hm)
    obtain ⟨value, -, rfl⟩ := List.mem_map.mp hm
    obtain ⟨value', -, rfl⟩ := List.mem_map.mp hother
    exact hnewest
  rw [List.filter_eq_self.mpr fun event hm => decide_eq_true (hall event hm), List.map_map]
  exact List.map_id values

-- The closed form: the version is the highest one seen, and the list holds
-- exactly the values of that version, in order.
theorem foldl_absorb (events : List (Nat × α)) :
    events.foldl absorb (0, []) =
      (newest events, (events.filter fun event => event.1 = newest events).map Prod.snd) := by
  induction events using List.reverseRecOn with
  | nil => rfl
  | append_singleton events event ih =>
      rw [List.foldl_append, ih, List.foldl_cons, List.foldl_nil, newest_append]
      simp only [absorb, newest, Nat.max_zero, List.filter_append, List.map_append]
      rcases Nat.lt_trichotomy (newest events) event.1 with hlt | heq | hgt
      · -- every earlier event is older than the new maximum
        have hnone : events.filter (fun old => decide (old.1 = event.1)) = [] := by
          rw [List.filter_eq_nil_iff]
          intro old hold he
          have hle := le_newest hold
          have := of_decide_eq_true he
          omega
        simp [hlt, hlt.le, hnone]
      · simp [heq]
      · simp [Nat.max_eq_left hgt.le, Nat.not_le.mpr hgt, Nat.ne_of_lt hgt]

theorem foldl_absorb_of_lt {version : Nat} (values : List α) (state : Nat × List α)
    (hlt : version < state.1) :
    (values.map fun value => (version, value)).foldl absorb state = state := by
  induction values with
  | nil => rfl
  | cons value values ih =>
      have hstep : absorb state (version, value) = state := if_neg (Nat.not_le.mpr hlt)
      rw [List.map_cons, List.foldl_cons, hstep, ih]

theorem foldl_absorb_of_eq {version : Nat} (values : List α) (list : List α) :
    (values.map fun value => (version, value)).foldl absorb (version, list) =
      (version, list ++ values) := by
  induction values generalizing list with
  | nil => simp
  | cons value values ih =>
      have hstep : absorb (version, list) (version, value) = (version, list ++ [value]) := by
        simp [absorb]
      rw [List.map_cons, List.foldl_cons, hstep, ih, List.append_assoc]
      rfl

-- Events of one version that are not ignored: their values are held, and of those
-- held before the ones of the same version, or all of them if there is no event.
theorem mem_foldl_absorb {version : Nat} (values : List α) (state : Nat × List α)
    (hle : state.1 ≤ version) (x : α) :
    x ∈ ((values.map fun value => (version, value)).foldl absorb state).2 ↔
      x ∈ values ∨ x ∈ state.2 ∧ (values = [] ∨ state.1 = version) := by
  cases values with
  | nil => simp
  | cons value values =>
      have hstep : absorb state (version, value) =
          (version, (if state.1 < version then [] else state.2) ++ [value]) := if_pos hle
      rw [List.map_cons, List.foldl_cons, hstep, foldl_absorb_of_eq]
      rcases Nat.lt_or_eq_of_le hle with hlt | heq
      · simp [hlt, Nat.ne_of_lt hlt]
      · simp only [heq, Nat.lt_irrefl, if_false, List.mem_append, List.mem_cons, List.not_mem_nil,
          or_false, or_true, and_true]
        tauto

-- Events of one version change nothing only if there are none, or if they are
-- ignored.
theorem foldl_absorb_eq_self_iff {version : Nat} (values : List α) (state : Nat × List α) :
    (values.map fun value => (version, value)).foldl absorb state = state ↔
      values = [] ∨ version < state.1 := by
  rcases Nat.lt_or_ge version state.1 with hlt | hle
  · rw [foldl_absorb_of_lt values state hlt]
    exact ⟨fun _ => Or.inr hlt, fun _ => rfl⟩
  · refine ⟨fun heq => Or.inl ?_, fun h => ?_⟩
    · cases values with
      | nil => rfl
      | cons value values =>
          have hstep : absorb state (version, value) =
              (version, (if state.1 < version then [] else state.2) ++ [value]) := if_pos hle
          rw [List.map_cons, List.foldl_cons, hstep, foldl_absorb_of_eq, Prod.ext_iff] at heq
          obtain ⟨hversion, hlist⟩ := heq
          have hlength := congrArg List.length hlist
          rw [if_neg (Nat.not_lt.mpr hversion.le), List.length_append, List.length_append,
            List.length_singleton] at hlength
          omega
    · rw [h.resolve_right (Nat.not_lt.mpr hle)]
      rfl

-- The same holds for events that are made a second time.
theorem foldl_absorb_twice_iff {version : Nat} (values : List α) (state : Nat × List α) :
    (values.map fun value => (version, value)).foldl absorb
        ((values.map fun value => (version, value)).foldl absorb state) =
      (values.map fun value => (version, value)).foldl absorb state ↔
    values = [] ∨ version < state.1 := by
  rw [foldl_absorb_eq_self_iff]
  refine or_congr_right' fun hne => ?_
  rcases Nat.lt_or_ge version state.1 with hlt | hle
  · rw [foldl_absorb_of_lt values state hlt]
  · cases values with
    | nil => exact absurd rfl hne
    | cons value values =>
        have hstep : absorb state (version, value) =
            (version, (if state.1 < version then [] else state.2) ++ [value]) := if_pos hle
        rw [List.map_cons, List.foldl_cons, hstep, foldl_absorb_of_eq]
        simp [Nat.not_lt.mpr hle]

end SuperBadBlock.Generations
