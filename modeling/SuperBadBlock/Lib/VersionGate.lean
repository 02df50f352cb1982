import Mathlib.Data.List.Basic
import Mathlib.Data.Nat.Basic
import Mathlib.Order.Bounds.Defs
import Mathlib.Tactic.Common

namespace SuperBadBlock.VersionGate

variable {α ι : Type}

-- A value behind one version number: a write older than the version is ignored,
-- any other raises the version and sets the value if it carries one.
def step (state : Nat × α) (write : Nat × Option α) : Nat × α :=
  if state.1 ≤ write.1 then (write.1, write.2.getD state.2) else state

theorem getLastD_append (first second : List α) (a : α) :
    (first ++ second).getLastD a = second.getLastD (first.getLastD a) := by
  induction first generalizing a with
  | nil => rfl
  | cons x first ih => rw [List.cons_append, List.getLastD_cons, ih, List.getLastD_cons]

theorem getLastD_mem {l : List α} (h : l ≠ []) (a : α) : l.getLastD a ∈ l := by
  rw [List.getLastD_eq_getLast?, List.getLast?_eq_some_getLast h]
  exact List.getLast_mem h

-- The writes of one batch carry one version. They are taken or ignored together.
theorem foldl_step_of_le {version : Nat} (writes : List (Option α)) (state : Nat × α)
    (hle : state.1 ≤ version) :
    (writes.map fun write => (version, write)).foldl step state =
      (if writes = [] then state.1 else version,
        (writes.filterMap id).getLastD state.2) := by
  induction writes generalizing state with
  | nil => rfl
  | cons write writes ih =>
      have hstep : step state (version, write) = (version, write.getD state.2) := if_pos hle
      rw [List.map_cons, List.foldl_cons, hstep, ih _ (Nat.le_refl version), ite_self,
        if_neg (List.cons_ne_nil _ _)]
      cases write with
      | none => rfl
      | some a =>
          have hcons : (some a :: writes).filterMap id = a :: writes.filterMap id := rfl
          rw [hcons, List.getLastD_cons]
          rfl

theorem foldl_step_of_lt {version : Nat} (writes : List (Option α)) (state : Nat × α)
    (hlt : version < state.1) :
    (writes.map fun write => (version, write)).foldl step state = state := by
  induction writes with
  | nil => rfl
  | cons write writes ih =>
      have hstep : step state (version, write) = state := if_neg (Nat.not_le.mpr hlt)
      rw [List.map_cons, List.foldl_cons, hstep, ih]

theorem getLastD_getLastD (l : List α) (a : α) : l.getLastD (l.getLastD a) = l.getLastD a := by
  cases l with
  | nil => rfl
  | cons x l => rw [List.getLastD_cons, List.getLastD_cons]

theorem eq_map_of_version {version : Nat} (events : List (Nat × Option α))
    (h : ∀ event ∈ events, event.1 = version) :
    events = (events.map Prod.snd).map fun write => (version, write) := by
  rw [List.map_map]
  conv_lhs => rw [← List.map_id events]
  exact List.map_congr_left fun event hm => Prod.ext (h event hm) rfl

-- Writes of one version change nothing exactly if there are none, if they are
-- ignored, or if they repeat what is there.
theorem foldl_step_eq_self_iff {version : Nat} (writes : List (Option α)) (state : Nat × α) :
    (writes.map fun write => (version, write)).foldl step state = state ↔
      writes = [] ∨ version < state.1 ∨
        version = state.1 ∧ (writes.filterMap id).getLastD state.2 = state.2 := by
  rcases Nat.lt_or_ge version state.1 with hlt | hle
  · rw [foldl_step_of_lt writes state hlt]
    exact ⟨fun _ => Or.inr (Or.inl hlt), fun _ => rfl⟩
  · rw [foldl_step_of_le writes state hle, Prod.ext_iff]
    by_cases hnil : writes = []
    · simp [hnil]
    · simp only [hnil, if_false, Nat.not_lt.mpr hle, false_or]

theorem le_foldl_step (writes : List (Nat × Option α)) (state : Nat × α) :
    state.1 ≤ (writes.foldl step state).1 := by
  induction writes generalizing state with
  | nil => exact Nat.le_refl _
  | cons write writes ih =>
      refine Nat.le_trans ?_ (ih (step state write))
      unfold step
      split_ifs with hle
      · exact hle
      · exact Nat.le_refl _

theorem version_le_foldl_step {writes : List (Nat × Option α)} {write : Nat × Option α}
    (h : write ∈ writes) (state : Nat × α) : write.1 ≤ (writes.foldl step state).1 := by
  induction writes generalizing state with
  | nil => cases h
  | cons first writes ih =>
      rcases List.mem_cons.mp h with rfl | h
      · refine Nat.le_trans ?_ (le_foldl_step writes (step state write))
        unfold step
        split_ifs with hle
        · exact Nat.le_refl _
        · omega
      · exact ih h (step state first)

theorem foldl_step_fst_cases (writes : List (Nat × Option α)) (state : Nat × α) :
    (writes.foldl step state).1 = state.1 ∨
      ∃ write ∈ writes, write.1 = (writes.foldl step state).1 := by
  induction writes generalizing state with
  | nil => exact Or.inl rfl
  | cons first writes ih =>
      rcases ih (step state first) with hsame | ⟨write, hm, heq⟩
      · rw [List.foldl_cons, hsame]
        unfold step
        split_ifs with hle
        · exact Or.inr ⟨first, List.mem_cons_self, rfl⟩
        · exact Or.inl rfl
      · exact Or.inr ⟨write, List.mem_cons_of_mem _ hm, heq⟩

-- From version 0 on, the version is the highest one written.
theorem isGreatest_foldl_step (writes : List (Nat × Option α)) (a : α) (hne : writes ≠ []) :
    IsGreatest {version | ∃ write ∈ writes, write.1 = version} (writes.foldl step (0, a)).1 := by
  constructor
  · rcases foldl_step_fst_cases writes (0, a) with hzero | hwrite
    · -- then nothing but version 0 was written
      obtain ⟨write, hm⟩ := List.exists_mem_of_ne_nil writes hne
      have hle := version_le_foldl_step hm (0, a)
      rw [hzero] at hle ⊢
      exact ⟨write, hm, Nat.le_zero.mp hle⟩
    · exact hwrite
  · intro version hversion
    obtain ⟨write, hm, rfl⟩ := hversion
    exact version_le_foldl_step hm (0, a)

-- Writes of one version, made a second time, change nothing.
theorem foldl_step_twice {version : Nat} (writes : List (Option α)) (state : Nat × α) :
    (writes.map fun write => (version, write)).foldl step
        ((writes.map fun write => (version, write)).foldl step state) =
      (writes.map fun write => (version, write)).foldl step state := by
  rcases Nat.lt_or_ge version state.1 with hlt | hle
  · rw [foldl_step_of_lt writes state hlt, foldl_step_of_lt writes state hlt]
  · rw [foldl_step_of_le writes state hle]
    by_cases hnil : writes = []
    · subst hnil
      rfl
    · rw [if_neg hnil, foldl_step_of_le writes _ (Nat.le_refl version), if_neg hnil,
        getLastD_getLastD]

-- Writes of one version are all taken.
theorem foldl_step_same {version : Nat} (events : List (Nat × Option α))
    (h : ∀ event ∈ events, event.1 = version) (state : Nat × α) (hle : state.1 ≤ version) :
    (events.foldl step state).2 = (events.filterMap Prod.snd).getLastD state.2 := by
  rw [eq_map_of_version events h, foldl_step_of_le _ _ hle, ← eq_map_of_version events h,
    List.filterMap_map]
  rfl

-- Where no write is newer than one version, and all values written under that version
-- are the same, this value stays, in whatever order the writes come.
theorem foldl_step_of_newest {version : Nat} {a : α} (writes : List (Nat × Option α))
    (state : Nat × α) (hstate : state.1 ≤ version) (hle : ∀ write ∈ writes, write.1 ≤ version)
    (hagree : ∀ b, (version, some b) ∈ writes → b = a)
    (hgiven : (version, some a) ∈ writes ∨ state = (version, a)) :
    writes.foldl step state = (version, a) := by
  induction writes generalizing state with
  | nil => exact hgiven.resolve_left (List.not_mem_nil)
  | cons write writes ih =>
      obtain ⟨hhead, htail⟩ := List.forall_mem_cons.mp hle
      have hnext : (step state write).1 ≤ version := by
        unfold step
        split_ifs
        · exact hhead
        · exact hstate
      refine ih (step state write) hnext htail (fun b hb => hagree b (List.mem_cons_of_mem _ hb)) ?_
      rcases hgiven with hgiven | rfl
      · rcases List.mem_cons.mp hgiven with rfl | hgiven
        · exact Or.inr (if_pos hstate)
        · exact Or.inl hgiven
      · -- the value is there: what comes under the same version repeats it
        right
        rw [step]
        split_ifs with hnewer
        · obtain ⟨v, value⟩ := write
          obtain rfl : v = version := Nat.le_antisymm hhead hnewer
          cases value with
          | none => rfl
          | some b => rw [hagree b List.mem_cons_self, Option.getD_some]
        · rfl

-- Writes without a value leave the value alone.
theorem foldl_step_snd_of_none (writes : List (Nat × Option α)) (state : Nat × α)
    (h : ∀ write ∈ writes, write.2 = none) : (writes.foldl step state).2 = state.2 := by
  induction writes generalizing state with
  | nil => rfl
  | cons write writes ih =>
      obtain ⟨hhead, htail⟩ := List.forall_mem_cons.mp h
      rw [List.foldl_cons, ih (step state write) htail, step, hhead]
      split_ifs <;> rfl

section Batches

variable (version : ι → Nat) (writes : ι → List (Option α))

-- The values a batch carries.
def values (b : ι) : List α := (writes b).filterMap id

-- The batches that no batch before them outranks. A batch without writes
-- outranks nothing.
def visible (before : List ι) : List ι → List ι
  | [] => []
  | b :: batches =>
      (if ∃ m ∈ before, writes m ≠ [] ∧ version b < version m then [] else [b]) ++
        visible (before ++ [b]) batches

-- The batch carries a value, and no batch of a higher version does.
def Newest (batches : List ι) (b : ι) : Prop :=
  b ∈ batches ∧ values writes b ≠ [] ∧
    ∀ m ∈ batches, values writes m ≠ [] → version m ≤ version b

def run (state : Nat × α) (batches : List ι) : Nat × α :=
  (batches.flatMap fun b => (writes b).map fun write => (version b, write)).foldl step state

variable {version writes}

theorem writes_ne_nil {b : ι} (h : values writes b ≠ []) : writes b ≠ [] := by
  intro hnil
  rw [values, hnil] at h
  exact h rfl

-- The closed form of a run: the last value of the batches that are not outranked.
theorem run_snd (batches before : List ι) (state : Nat × α)
    (hstate : ∀ x, state.1 ≤ x ↔ ∀ m ∈ before, writes m ≠ [] → version m ≤ x) :
    (run version writes state batches).2 =
      ((visible version writes before batches).flatMap (values writes)).getLastD state.2 := by
  induction batches generalizing before state with
  | nil => rfl
  | cons b batches ih =>
      have hfold : run version writes state (b :: batches) =
          run version writes (((writes b).map fun write => (version b, write)).foldl step state)
            batches := by
        rw [run, List.flatMap_cons, List.foldl_append]
        rfl
      rw [hfold, visible]
      split_ifs with hout
      · -- outranked: the whole batch is ignored
        obtain ⟨m, hm, hw, hlt⟩ := hout
        have hgt : version b < state.1 :=
          Nat.not_le.mp fun hle => Nat.not_le.mpr hlt ((hstate _).mp hle m hm hw)
        rw [foldl_step_of_lt _ _ hgt, List.nil_append]
        refine ih (before ++ [b]) state fun x => ?_
        rw [hstate, List.forall_mem_append, List.forall_mem_singleton]
        refine ⟨fun h => ⟨h, fun _ => ?_⟩, fun h => h.1⟩
        exact Nat.le_trans (Nat.le_of_lt hlt) (h m hm hw)
      · have hle : state.1 ≤ version b := (hstate _).mpr fun m hm hw =>
          Nat.not_lt.mp fun hlt => hout ⟨m, hm, hw, hlt⟩
        rw [foldl_step_of_le _ _ hle, ih (before ++ [b]), List.flatMap_append, getLastD_append,
          List.flatMap_singleton]
        · rfl
        · intro x
          rw [List.forall_mem_append, List.forall_mem_singleton, ← hstate]
          by_cases hnil : writes b = []
          · simp [hnil]
          · simp only [hnil, ite_false, not_false_eq_true, forall_const, ne_eq]
            exact ⟨fun h => ⟨Nat.le_trans hle h, h⟩, fun h => h.2⟩

variable (version writes) in
theorem visible_sublist (before batches : List ι) :
    (visible version writes before batches).Sublist batches := by
  induction batches generalizing before with
  | nil => exact List.Sublist.refl []
  | cons b batches ih =>
      rw [visible]
      split_ifs
      · exact (ih _).cons b
      · exact (ih _).cons_cons b

theorem le_of_mem_visible {before batches : List ι} {b m : ι}
    (hb : b ∈ visible version writes before batches) (hm : m ∈ before) (hw : writes m ≠ []) :
    version m ≤ version b := by
  induction batches generalizing before with
  | nil => cases hb
  | cons first batches ih =>
      rw [visible, List.mem_append] at hb
      rcases hb with hb | hb
      · split_ifs at hb with hout
        · cases hb
        · rw [List.mem_singleton.mp hb]
          exact Nat.not_lt.mp fun hlt => hout ⟨m, hm, hw, hlt⟩
      · exact ih hb (List.mem_append_left _ hm)

variable (version writes) in
-- Versions rise along the batches that are not outranked.
theorem visible_pairwise (before batches : List ι) :
    (visible version writes before batches).Pairwise
      fun first second => writes first ≠ [] → version first ≤ version second := by
  induction batches generalizing before with
  | nil => exact List.Pairwise.nil
  | cons b batches ih =>
      rw [visible]
      split_ifs
      · exact ih _
      · refine List.pairwise_cons.mpr ⟨fun m hm hw => ?_, ih _⟩
        exact le_of_mem_visible hm (List.mem_append_right _ (List.mem_singleton_self b)) hw

-- If the newest batch is not outranked, the value that stays is one of its own.
theorem getLastD_mem_of_visible {batches : List ι} {b : ι}
    (hnodup : (batches.map version).Nodup) (hnewest : Newest version writes batches b)
    (hvisible : b ∈ visible version writes [] batches) (a : α) :
    ((visible version writes [] batches).flatMap (values writes)).getLastD a ∈ values writes b := by
  obtain ⟨first, last, hsplit⟩ := List.append_of_mem hvisible
  have hsub := visible_sublist version writes [] batches
  have hpair := visible_pairwise version writes [] batches
  have hdistinct := hnodup.sublist (hsub.map version)
  rw [hsplit] at hpair hdistinct hsub
  have hnone : last.flatMap (values writes) = [] := by
    rw [List.flatMap_eq_nil_iff]
    intro m hm
    by_contra hvalues
    have hmem : m ∈ batches :=
      hsub.subset (List.mem_append_right _ (List.mem_cons_of_mem _ hm))
    have hle := hnewest.2.2 m hmem hvalues
    have hge := (List.pairwise_cons.mp (List.pairwise_append.mp hpair).2.1).1 m hm
      (writes_ne_nil hnewest.2.1)
    rw [List.map_append, List.map_cons] at hdistinct
    have hne := (List.nodup_cons.mp (List.nodup_append.mp hdistinct).2.1).1
    exact hne (List.mem_map.mpr ⟨m, hm, Nat.le_antisymm hle hge⟩)
  rw [hsplit, List.flatMap_append, List.flatMap_cons, hnone, List.append_nil, getLastD_append]
  exact getLastD_mem hnewest.2.1 _

-- The value that stays is one of the newest batch exactly if that batch is not
-- outranked, or the value that stays in its place happens to be among its own.
theorem run_mem_iff {batches : List ι} {b : ι} (hnodup : (batches.map version).Nodup)
    (hnewest : Newest version writes batches b) (a : α) :
    (run version writes (0, a) batches).2 ∈ values writes b ↔
      b ∈ visible version writes [] batches ∨
      ((visible version writes [] batches).flatMap (values writes)).getLastD a ∈
        values writes b := by
  rw [run_snd batches [] (0, a) (by simp)]
  exact ⟨Or.inr, fun h => h.elim (fun hv => getLastD_mem_of_visible hnodup hnewest hv a) id⟩

end Batches

end SuperBadBlock.VersionGate
