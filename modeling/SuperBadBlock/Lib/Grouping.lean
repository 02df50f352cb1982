import Mathlib.Order.Lattice
import Mathlib.Data.List.Induction
import Mathlib.Data.List.SplitBy

namespace SuperBadBlock.Grouping

variable {κ α β : Type} [LinearOrder κ]

-- Find or insert the group of `key`, then push `value` to its end. Groups are
-- kept in ascending order of their keys.
def push (key : κ) (value : α) : List (κ × List α) → List (κ × List α)
  | [] => [(key, [value])]
  | (other, values) :: groups =>
      if key < other then (key, [value]) :: (other, values) :: groups
      else if key = other then (other, values ++ [value]) :: groups
      else (other, values) :: push key value groups

def group (key : α → κ) (values : List α) : List (κ × List α) :=
  values.foldl (fun groups value => push (key value) value groups) []

theorem group_append_singleton (key : α → κ) (values : List α) (value : α) :
    group key (values ++ [value]) = push (key value) value (group key values) := by
  unfold group
  rw [List.foldl_append]
  rfl

-- Every value sits in the group of its own key.
def Keyed (key : α → κ) (groups : List (κ × List α)) : Prop :=
  ∀ entry ∈ groups, ∀ value ∈ entry.2, key value = entry.1

theorem keyed_push (key : α → κ) (value : α) (groups : List (κ × List α))
    (h : Keyed key groups) : Keyed key (push (key value) value groups) := by
  induction groups with
  | nil => simp [push, Keyed]
  | cons entry groups ih =>
      obtain ⟨other, values⟩ := entry
      obtain ⟨hhead, htail⟩ := List.forall_mem_cons.mp h
      simp only [push]
      split_ifs with hlt heq
      · exact List.forall_mem_cons.mpr ⟨by simp, h⟩
      · refine List.forall_mem_cons.mpr ⟨?_, htail⟩
        intro x hx
        rcases List.mem_append.mp hx with hx | hx
        · exact hhead x hx
        · rw [List.mem_singleton.mp hx, heq]
      · exact List.forall_mem_cons.mpr ⟨hhead, ih htail⟩

theorem keyed_group (key : α → κ) (values : List α) : Keyed key (group key values) := by
  induction values using List.reverseRecOn with
  | nil => simp [group, Keyed]
  | append_singleton values value ih =>
      rw [group_append_singleton]
      exact keyed_push key value _ ih

theorem push_perm (key : κ) (value : α) (groups : List (κ × List α)) :
    ((push key value groups).flatMap Prod.snd).Perm (groups.flatMap Prod.snd ++ [value]) := by
  induction groups with
  | nil => exact List.Perm.refl _
  | cons entry groups ih =>
      obtain ⟨other, values⟩ := entry
      simp only [push]
      split_ifs with hlt heq
      · simp only [List.flatMap_cons]
        exact List.perm_append_comm
      · simp only [List.flatMap_cons, List.append_assoc]
        exact List.Perm.append_left values List.perm_append_comm
      · simp only [List.flatMap_cons, List.append_assoc]
        exact ih.append_left values

-- Grouping only reorders.
theorem group_perm (key : α → κ) (values : List α) :
    ((group key values).flatMap Prod.snd).Perm values := by
  induction values using List.reverseRecOn with
  | nil => exact List.Perm.refl _
  | append_singleton values value ih =>
      rw [group_append_singleton]
      exact (push_perm _ value _).trans (ih.append_right [value])

def mapValues (f : α → β) (groups : List (κ × List α)) : List (κ × List β) :=
  groups.map fun entry => (entry.1, entry.2.map f)

theorem mapValues_push (f : α → β) (key : κ) (value : α) (groups : List (κ × List α)) :
    mapValues f (push key value groups) = push key (f value) (mapValues f groups) := by
  induction groups with
  | nil => rfl
  | cons entry groups ih =>
      obtain ⟨other, values⟩ := entry
      simp only [push, mapValues, List.map_cons]
      split_ifs with hlt heq
      · rfl
      · simp
      · exact congrArg _ ih

-- Grouping only looks at the keys.
theorem group_map (f : α → β) (key : β → κ) (values : List α) :
    group key (values.map f) = mapValues f (group (key ∘ f) values) := by
  induction values using List.reverseRecOn with
  | nil => rfl
  | append_singleton values value ih =>
      rw [List.map_append, List.map_singleton, group_append_singleton, group_append_singleton, ih]
      exact (mapValues_push f _ value _).symm

def Sorted (groups : List (κ × List α)) : Prop :=
  groups.Pairwise fun first second => first.1 < second.1

theorem mem_push_key {key : κ} {value : α} {groups : List (κ × List α)} {entry : κ × List α}
    (h : entry ∈ push key value groups) : entry.1 = key ∨ ∃ old ∈ groups, old.1 = entry.1 := by
  induction groups with
  | nil => exact Or.inl (by rw [List.mem_singleton.mp h])
  | cons first groups ih =>
      obtain ⟨other, values⟩ := first
      simp only [push] at h
      split_ifs at h with hlt heq
      · rcases List.mem_cons.mp h with rfl | h
        · exact Or.inl rfl
        · exact Or.inr ⟨entry, h, rfl⟩
      · rcases List.mem_cons.mp h with rfl | h
        · exact Or.inl heq.symm
        · exact Or.inr ⟨entry, List.mem_cons_of_mem _ h, rfl⟩
      · rcases List.mem_cons.mp h with rfl | h
        · exact Or.inr ⟨_, List.mem_cons_self, rfl⟩
        · rcases ih h with hk | ⟨old, hold, hk⟩
          · exact Or.inl hk
          · exact Or.inr ⟨old, List.mem_cons_of_mem _ hold, hk⟩

theorem sorted_push (key : κ) (value : α) (groups : List (κ × List α)) (h : Sorted groups) :
    Sorted (push key value groups) := by
  induction groups with
  | nil => exact List.pairwise_singleton _ _
  | cons first groups ih =>
      obtain ⟨other, values⟩ := first
      obtain ⟨hhead, htail⟩ := List.pairwise_cons.mp h
      simp only [push]
      split_ifs with hlt heq
      · refine List.pairwise_cons.mpr ⟨fun entry hm => ?_, h⟩
        rcases List.mem_cons.mp hm with rfl | hm
        · exact hlt
        · exact lt_trans hlt (hhead entry hm)
      · exact List.pairwise_cons.mpr ⟨hhead, htail⟩
      · refine List.pairwise_cons.mpr ⟨fun entry hm => ?_, ih htail⟩
        rcases mem_push_key hm with hk | ⟨old, hold, hk⟩
        · rw [hk]
          exact lt_of_le_of_ne (not_lt.mp hlt) (Ne.symm heq)
        · rw [← hk]
          exact hhead old hold

theorem sorted_group (key : α → κ) (values : List α) : Sorted (group key values) := by
  induction values using List.reverseRecOn with
  | nil => exact List.Pairwise.nil
  | append_singleton values value ih =>
      rw [group_append_singleton]
      exact sorted_push _ value _ ih

-- The values of one group, none if the key has no group.
def lookup (key : κ) : List (κ × List α) → List α
  | [] => []
  | (other, values) :: groups => if key = other then values else lookup key groups

theorem lookup_eq_nil {key : κ} {groups : List (κ × List α)}
    (h : ∀ entry ∈ groups, key < entry.1) : lookup key groups = [] := by
  induction groups with
  | nil => rfl
  | cons first groups ih =>
      obtain ⟨hhead, htail⟩ := List.forall_mem_cons.mp h
      rw [lookup, if_neg (ne_of_lt hhead), ih htail]

theorem mem_keys_of_lookup {key : κ} {groups : List (κ × List α)} (h : lookup key groups ≠ []) :
    key ∈ groups.map Prod.fst := by
  induction groups with
  | nil => exact absurd rfl h
  | cons first groups ih =>
      rw [lookup] at h
      split_ifs at h with heq
      · rw [heq]
        exact List.mem_cons_self
      · exact List.mem_cons_of_mem _ (ih h)

theorem lookup_push (wanted key : κ) (value : α) (groups : List (κ × List α)) (h : Sorted groups) :
    lookup wanted (push key value groups) =
      lookup wanted groups ++ if key = wanted then [value] else [] := by
  induction groups with
  | nil => simp [push, lookup, eq_comm]
  | cons first groups ih =>
      obtain ⟨other, values⟩ := first
      obtain ⟨hhead, htail⟩ := List.pairwise_cons.mp h
      simp only [push]
      split_ifs with hlt hw heq hw hw
      · subst hw
        have hnone : lookup key ((other, values) :: groups) = [] := lookup_eq_nil (fun entry hm => by
          rcases List.mem_cons.mp hm with rfl | hm
          · exact hlt
          · exact lt_trans hlt (hhead entry hm))
        rw [hnone]
        simp [lookup]
      · rw [lookup, if_neg (Ne.symm hw), List.append_nil]
      · subst heq hw
        simp [lookup]
      · subst heq
        simp [lookup, Ne.symm hw]
      · subst hw
        simp [lookup, heq, ih htail]
      · simp [lookup, ih htail, hw]

-- A group holds the values of its key, in their original order.
theorem lookup_group (wanted : κ) (key : α → κ) (values : List α) :
    lookup wanted (group key values) = values.filter fun value => key value = wanted := by
  induction values using List.reverseRecOn with
  | nil => rfl
  | append_singleton values value ih =>
      rw [group_append_singleton, lookup_push _ _ _ _ (sorted_group key values), ih, List.filter_append]
      by_cases h : key value = wanted
      · simp [h]
      · simp [h]

-- A traversal that only the group of one key contributes to.
theorem flatMap_of_key {groups : List (κ × List α)} (h : Sorted groups) (key : κ)
    (f : κ × List α → List β) (hother : ∀ entry ∈ groups, entry.1 ≠ key → f entry = [])
    (hnil : f (key, []) = []) : groups.flatMap f = f (key, lookup key groups) := by
  induction groups with
  | nil => exact hnil.symm
  | cons first groups ih =>
      obtain ⟨other, values⟩ := first
      obtain ⟨hhead, htail⟩ := List.pairwise_cons.mp h
      obtain ⟨hfirst, hrest⟩ := List.forall_mem_cons.mp hother
      have hi := ih htail hrest
      rw [List.flatMap_cons, hi, lookup]
      split_ifs with heq
      · subst heq
        rw [lookup_eq_nil hhead, hnil, List.append_nil]
      · rw [hfirst (Ne.symm heq), List.nil_append]

theorem lookup_of_mem {groups : List (κ × List α)} (h : Sorted groups) {entry : κ × List α}
    (hm : entry ∈ groups) : lookup entry.1 groups = entry.2 := by
  induction groups with
  | nil => cases hm
  | cons first groups ih =>
      obtain ⟨hhead, htail⟩ := List.pairwise_cons.mp h
      rcases List.mem_cons.mp hm with rfl | hm
      · exact if_pos rfl
      · have hne : entry.1 ≠ first.1 := ne_of_gt (hhead entry hm)
        rw [lookup, if_neg hne, ih htail hm]

theorem mem_group_key {key : α → κ} {values : List α} {entry : κ × List α}
    (h : entry ∈ group key values) : ∃ value ∈ values, key value = entry.1 := by
  induction values using List.reverseRecOn generalizing entry with
  | nil => cases h
  | append_singleton values value ih =>
      rw [group_append_singleton] at h
      rcases mem_push_key h with hk | ⟨old, hold, hk⟩
      · exact ⟨value, List.mem_append_right _ (List.mem_singleton_self value), hk.symm⟩
      · obtain ⟨other, hm, ho⟩ := ih hold
        exact ⟨other, List.mem_append_left _ hm, ho.trans hk⟩

theorem flatMap_push_of_le {key : κ} {groups : List (κ × List α)} (hs : Sorted groups)
    (h : ∀ entry ∈ groups, entry.1 ≤ key) (value : α) :
    (push key value groups).flatMap Prod.snd = groups.flatMap Prod.snd ++ [value] := by
  induction groups with
  | nil => rfl
  | cons first groups ih =>
      obtain ⟨other, values⟩ := first
      obtain ⟨hhead, htail⟩ := List.pairwise_cons.mp hs
      obtain ⟨hle, hrest⟩ := List.forall_mem_cons.mp h
      simp only [push, if_neg (not_lt.mpr hle)]
      split_ifs with heq
      · have hnil : groups = [] := by
          rw [List.eq_nil_iff_forall_not_mem]
          intro entry hm
          exact absurd (heq ▸ hrest entry hm) (not_le.mpr (hhead entry hm))
        rw [hnil]
        simp
      · rw [List.flatMap_cons, ih htail hrest, List.flatMap_cons, List.append_assoc]

-- Values that come in ascending order of their keys keep their order.
theorem flatMap_group_of_sorted {key : α → κ} {values : List α}
    (h : values.Pairwise fun first second => key first ≤ key second) :
    (group key values).flatMap Prod.snd = values := by
  induction values using List.reverseRecOn with
  | nil => rfl
  | append_singleton values value ih =>
      obtain ⟨hfirst, -, hlast⟩ := List.pairwise_append.mp h
      have hle : ∀ entry ∈ group key values, entry.1 ≤ key value := by
        intro entry hm
        obtain ⟨other, ho, hk⟩ := mem_group_key hm
        exact hk ▸ hlast other ho value (List.mem_singleton_self value)
      rw [group_append_singleton, flatMap_push_of_le (sorted_group key values) hle, ih hfirst]

theorem ne_nil_of_mem_group {key : α → κ} {values : List α} {entry : κ × List α}
    (h : entry ∈ group key values) : entry.2 ≠ [] := by
  obtain ⟨value, hm, hkey⟩ := mem_group_key h
  rw [← lookup_of_mem (sorted_group key values) h, lookup_group]
  exact List.ne_nil_of_mem (List.mem_filter.mpr ⟨hm, decide_eq_true hkey⟩)

theorem mem_of_lookup {key : κ} {groups : List (κ × List α)} (h : lookup key groups ≠ []) :
    (key, lookup key groups) ∈ groups := by
  induction groups with
  | nil => exact absurd rfl h
  | cons first groups ih =>
      rw [lookup] at h ⊢
      split_ifs at h ⊢ with heq
      · subst heq
        exact List.mem_cons_self
      · exact List.mem_cons_of_mem _ (ih h)

theorem nodup_of_sorted {groups : List (κ × List α)} (h : Sorted groups) : groups.Nodup :=
  h.imp fun hlt heq => absurd (congrArg Prod.fst heq) (ne_of_lt hlt)

-- Grouping depends on nothing but the values of each key, in their order.
theorem group_eq_of_filter {key : α → κ} {values values' : List α}
    (h : ∀ k, (values.filter fun value => key value = k) =
      values'.filter fun value => key value = k) :
    group key values = group key values' := by
  have hlookup (k : κ) : lookup k (group key values) = lookup k (group key values') := by
    rw [lookup_group, lookup_group, h k]
  have hmem {xs ys : List α} (hxy : ∀ k, lookup k (group key xs) = lookup k (group key ys))
      {entry : κ × List α} (hm : entry ∈ group key xs) : entry ∈ group key ys := by
    have hlook := lookup_of_mem (sorted_group key xs) hm
    have hne := ne_nil_of_mem_group hm
    rw [hxy] at hlook
    rw [← hlook] at hne
    have hfound := mem_of_lookup hne
    rw [hlook] at hfound
    exact hfound
  have hperm : (group key values).Perm (group key values') := by
    rw [List.perm_ext_iff_of_nodup (nodup_of_sorted (sorted_group key values))
      (nodup_of_sorted (sorted_group key values'))]
    exact fun entry => ⟨hmem hlookup, hmem fun k => (hlookup k).symm⟩
  exact hperm.eq_of_pairwise (fun _ _ _ _ hab hba => absurd hab (not_lt_of_gt hba))
    (sorted_group key values) (sorted_group key values')

-- The comparison of the stable sort by key.
def keyLE (key : α → κ) (first second : α) : Bool := decide (key first ≤ key second)

theorem keyLE_trans (key : α → κ) (a b c : α) (hab : keyLE key a b) (hbc : keyLE key b c) :
    keyLE key a c :=
  decide_eq_true ((of_decide_eq_true hab).trans (of_decide_eq_true hbc))

theorem keyLE_total (key : α → κ) (a b : α) : keyLE key a b || keyLE key b a := by
  simpa [keyLE] using le_total (key a) (key b)

theorem pairwise_mergeSort_keyLE (key : α → κ) (values : List α) :
    (values.mergeSort (keyLE key)).Pairwise fun first second => key first ≤ key second := by
  have hsorted := List.pairwise_mergeSort (keyLE_trans key) (keyLE_total key) values
  exact hsorted.imp of_decide_eq_true

-- Stability: the sort leaves the values of one key in their order.
theorem filter_mergeSort_keyLE (key : α → κ) (values : List α) (k : κ) :
    ((values.mergeSort (keyLE key)).filter fun value => key value = k) =
      values.filter fun value => key value = k := by
  have hsame : (values.filter fun value => key value = k).Pairwise fun a b => keyLE key a b = true := by
    refine List.pairwise_of_forall_mem_list fun a ha b hb => ?_
    have hka : key a = k := of_decide_eq_true (List.mem_filter.mp ha).2
    have hkb : key b = k := of_decide_eq_true (List.mem_filter.mp hb).2
    exact decide_eq_true (le_of_eq (hka.trans hkb.symm))
  have hsub := List.sublist_mergeSort (keyLE_trans key) (keyLE_total key) hsame List.filter_sublist
  have hfilter := hsub.filter fun value => decide (key value = k)
  rw [List.filter_filter] at hfilter
  simp only [Bool.and_self] at hfilter
  exact (hfilter.eq_of_length ((List.mergeSort_perm values (keyLE key)).filter _).length_eq.symm).symm

theorem group_mergeSort (key : α → κ) (values : List α) :
    group key (values.mergeSort (keyLE key)) = group key values :=
  group_eq_of_filter (filter_mergeSort_keyLE key values)

-- Going through the groups is going through the stable sort by key.
theorem flatMap_group (key : α → κ) (values : List α) :
    (group key values).flatMap Prod.snd = values.mergeSort (keyLE key) := by
  rw [← group_mergeSort, flatMap_group_of_sorted (pairwise_mergeSort_keyLE key values)]

-- The groups are the runs of one key in the stable sort.
theorem map_snd_group (key : α → κ) (values : List α) :
    (group key values).map Prod.snd =
      (values.mergeSort (keyLE key)).splitBy fun first second => decide (key first = key second) := by
  have hkeyed := keyed_group key values
  refine (List.splitBy_eq_iff.mpr ⟨?_, ?_, ?_, ?_⟩).symm
  · rw [← flatMap_group, List.flatMap_def]
  · intro hnil
    obtain ⟨entry, hm, hempty⟩ := List.mem_map.mp hnil
    exact ne_nil_of_mem_group hm hempty
  · refine List.forall_mem_map.mpr fun entry hm => List.Pairwise.isChain ?_
    refine List.pairwise_of_forall_mem_list fun a ha b hb => ?_
    exact decide_eq_true ((hkeyed entry hm a ha).trans (hkeyed entry hm b hb).symm)
  · refine List.Pairwise.isChain (List.pairwise_map.mpr ?_)
    refine (sorted_group key values).imp_of_mem fun {a b} ha hb hlt => ?_
    refine ⟨ne_nil_of_mem_group ha, ne_nil_of_mem_group hb, decide_eq_false fun heq => ?_⟩
    rw [hkeyed a ha _ (List.getLast_mem _), hkeyed b hb _ (List.head_mem _)] at heq
    exact absurd heq (ne_of_lt hlt)

-- Every element stands in relation `T` to the elements before it.
def Along {α : Type} (T : List α → α → Prop) (l : List α) : Prop :=
  ∀ before x after, l = before ++ x :: after → T before x

@[simp] theorem along_nil {α : Type} (T : List α → α → Prop) : Along T [] := by
  intro before x after h
  cases before <;> cases h

theorem along_congr {α : Type} {T T' : List α → α → Prop} {l : List α}
    (h : ∀ before x after, l = before ++ x :: after → (T before x ↔ T' before x)) :
    Along T l ↔ Along T' l :=
  forall_congr' fun before => forall_congr' fun x => forall_congr' fun after =>
    forall_congr' fun hl => h before x after hl

theorem along_cons {α : Type} (T : List α → α → Prop) (x : α) (l : List α) :
    Along T (x :: l) ↔ T [] x ∧ Along (fun before => T (x :: before)) l := by
  constructor
  · intro h
    exact ⟨h [] x l rfl, fun before y after hl => h (x :: before) y after (by rw [hl]; rfl)⟩
  · rintro ⟨hfirst, hrest⟩ before y after hl
    cases before with
    | nil =>
        cases hl
        exact hfirst
    | cons z before =>
        cases hl
        exact hrest before y after rfl

theorem along_append_singleton {α : Type} (T : List α → α → Prop) (l : List α) (x : α) :
    Along T (l ++ [x]) ↔ Along T l ∧ T l x := by
  constructor
  · intro h
    exact ⟨fun before y after hl => h before y (after ++ [x]) (by rw [hl]; simp), h l x [] rfl⟩
  · rintro ⟨hl, hx⟩ before y after heq
    induction after using List.reverseRecOn with
    | nil =>
        obtain ⟨rfl, hy⟩ := List.append_inj' heq rfl
        cases hy
        exact hx
    | append_singleton after z _ =>
        have hassoc : l ++ [x] = (before ++ y :: after) ++ [z] := by simpa using heq
        exact hl before y after (List.append_inj' hassoc rfl).1

theorem along_map_range {α : Type} (T : List α → α → Prop) (f : Nat → α) (n : Nat) :
    Along T ((List.range n).map f) ↔ ∀ i < n, T ((List.range i).map f) (f i) := by
  induction n with
  | zero => simp
  | succ n ih =>
      rw [List.range_succ, List.map_append, List.map_singleton, along_append_singleton, ih,
        Nat.forall_lt_succ_right]

theorem along_push (T : List α → α → Prop) (key : κ) (value : α) (groups : List (κ × List α))
    (hs : Sorted groups) :
    (∀ entry ∈ push key value groups, Along T entry.2) ↔
      (∀ entry ∈ groups, Along T entry.2) ∧ T (lookup key groups) value := by
  induction groups with
  | nil => simp [push, lookup, along_cons]
  | cons first groups ih =>
      obtain ⟨other, values⟩ := first
      obtain ⟨hhead, htail⟩ := List.pairwise_cons.mp hs
      simp only [push]
      split_ifs with hlt heq
      · have hnone : lookup key ((other, values) :: groups) = [] := lookup_eq_nil (fun entry hm => by
          rcases List.mem_cons.mp hm with rfl | hm
          · exact hlt
          · exact lt_trans hlt (hhead entry hm))
        rw [List.forall_mem_cons, along_cons, hnone]
        simp [and_comm]
      · rw [List.forall_mem_cons, List.forall_mem_cons, along_append_singleton, lookup, if_pos heq]
        tauto
      · rw [List.forall_mem_cons, List.forall_mem_cons, ih htail, lookup, if_neg heq]
        tauto

-- A relation that only looks at the earlier elements of the same key may be
-- checked group by group.
theorem along_group (key : α → κ) (T : List α → α → Prop)
    (hT : ∀ before x, T (before.filter fun y => key y = key x) x ↔ T before x) (l : List α) :
    (∀ entry ∈ group key l, Along T entry.2) ↔ Along T l := by
  induction l using List.reverseRecOn with
  | nil => simp [group]
  | append_singleton l x ih =>
      rw [group_append_singleton, along_push _ _ _ _ (sorted_group key l), ih, lookup_group, hT,
        along_append_singleton]

end SuperBadBlock.Grouping
