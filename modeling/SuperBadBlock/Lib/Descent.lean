import Mathlib.Data.List.Nodup
import Mathlib.Data.List.Perm.Subperm
import Mathlib.Logic.Relation

namespace SuperBadBlock.Descent

open Relation

variable {κ : Type}

-- What `visit` lists for each of these nodes, in turn.
def visitAll (visit : κ → Option (List κ)) : List κ → Option (List κ)
  | [] => some []
  | i :: rest => (visit i).bind fun first => (visitAll visit rest).map fun others => first ++ others

-- Depth first, and without a set of visited nodes: a node, and then all that is below
-- each of its children. `fuel` bounds the depth.
def visit (children : κ → List κ) : Nat → κ → Option (List κ)
  | 0, _ => none
  | fuel + 1, i => (visitAll (visit children fuel) (children i)).map fun below => i :: below

def Child (children : κ → List κ) (i j : κ) : Prop := j ∈ children i

section Lists

variable {f : κ → Option (List κ)}

theorem visitAll_cons_eq_some {i : κ} {rest xs : List κ} :
    visitAll f (i :: rest) = some xs ↔
      ∃ first others, f i = some first ∧ visitAll f rest = some others ∧ first ++ others = xs := by
  simp [visitAll, Option.bind_eq_some_iff]

theorem eq_some_of_visitAll {is xs : List κ} (h : visitAll f is = some xs) {i : κ} (hi : i ∈ is) :
    ∃ ys, f i = some ys := by
  induction is generalizing xs with
  | nil => cases hi
  | cons first rest ih =>
      obtain ⟨ys, others, hfirst, hrest, -⟩ := visitAll_cons_eq_some.mp h
      rcases List.mem_cons.mp hi with rfl | hi
      · exact ⟨ys, hfirst⟩
      · exact ih hrest hi

theorem visitAll_isSome {is : List κ} (h : ∀ i ∈ is, ∃ ys, f i = some ys) :
    ∃ xs, visitAll f is = some xs := by
  induction is with
  | nil => exact ⟨[], rfl⟩
  | cons first rest ih =>
      obtain ⟨hfirst, hrest⟩ := List.forall_mem_cons.mp h
      obtain ⟨ys, hys⟩ := hfirst
      obtain ⟨zs, hzs⟩ := ih hrest
      exact ⟨ys ++ zs, visitAll_cons_eq_some.mpr ⟨ys, zs, hys, hzs, rfl⟩⟩

theorem mem_of_visitAll {is xs : List κ} (h : visitAll f is = some xs) {x : κ} (hx : x ∈ xs) :
    ∃ i ∈ is, ∃ ys, f i = some ys ∧ x ∈ ys := by
  induction is generalizing xs with
  | nil =>
      obtain rfl := Option.some.inj h
      cases hx
  | cons first rest ih =>
      obtain ⟨ys, others, hfirst, hrest, rfl⟩ := visitAll_cons_eq_some.mp h
      rcases List.mem_append.mp hx with hx | hx
      · exact ⟨first, List.mem_cons_self, ys, hfirst, hx⟩
      · obtain ⟨i, hi, hmem⟩ := ih hrest hx
        exact ⟨i, List.mem_cons_of_mem first hi, hmem⟩

theorem mem_visitAll {is xs : List κ} (h : visitAll f is = some xs) {i : κ} (hi : i ∈ is)
    {ys : List κ} (hys : f i = some ys) : ∀ x ∈ ys, x ∈ xs := by
  induction is generalizing xs with
  | nil => cases hi
  | cons first rest ih =>
      obtain ⟨zs, others, hfirst, hrest, rfl⟩ := visitAll_cons_eq_some.mp h
      rcases List.mem_cons.mp hi with rfl | hi
      · obtain rfl := Option.some.inj (hys.symm.trans hfirst)
        exact fun x hx => List.mem_append_left others hx
      · exact fun x hx => List.mem_append_right zs (ih hrest hi x hx)

theorem visitAll_nodup {is xs : List κ} (h : visitAll f is = some xs) (his : is.Nodup)
    (hnodup : ∀ i ∈ is, ∀ ys, f i = some ys → ys.Nodup)
    (hapart : ∀ i ∈ is, ∀ j ∈ is, ∀ x ys zs, f i = some ys → f j = some zs → x ∈ ys → x ∈ zs → i = j) :
    xs.Nodup := by
  induction is generalizing xs with
  | nil =>
      obtain rfl := Option.some.inj h
      exact List.nodup_nil
  | cons first rest ih =>
      obtain ⟨ys, others, hfirst, hrest, rfl⟩ := visitAll_cons_eq_some.mp h
      obtain ⟨hnew, htail⟩ := List.nodup_cons.mp his
      refine List.nodup_append'.mpr ⟨hnodup first List.mem_cons_self ys hfirst, ?_, ?_⟩
      · exact ih hrest htail (fun i hi => hnodup i (List.mem_cons_of_mem first hi))
          fun i hi j hj => hapart i (List.mem_cons_of_mem first hi) j (List.mem_cons_of_mem first hj)
      · intro x hx hother
        obtain ⟨i, hi, zs, hzs, hmem⟩ := mem_of_visitAll hrest hother
        have heq := hapart first List.mem_cons_self i (List.mem_cons_of_mem first hi) x ys zs
          hfirst hzs hx hmem
        exact hnew (heq ▸ hi)

end Lists

variable {children : κ → List κ}

theorem visit_succ_eq_some {fuel : Nat} {i : κ} {xs : List κ} :
    visit children (fuel + 1) i = some xs ↔
      ∃ below, visitAll (visit children fuel) (children i) = some below ∧ i :: below = xs := by
  rw [visit, Option.map_eq_some_iff]

-- A visit that ends has visited every node below with less fuel.
theorem visit_below {fuel : Nat} {i j : κ} {xs : List κ} (h : visit children fuel i = some xs)
    (hj : TransGen (Child children) i j) : ∃ less < fuel, ∃ ys, visit children less j = some ys := by
  induction hj with
  | single hchild =>
      cases fuel with
      | zero => cases h
      | succ fuel =>
          obtain ⟨below, hbelow, -⟩ := visit_succ_eq_some.mp h
          exact ⟨fuel, Nat.lt_succ_self fuel, eq_some_of_visitAll hbelow hchild⟩
  | tail _ hchild ih =>
      obtain ⟨less, hless, ys, hys⟩ := ih
      cases less with
      | zero => cases hys
      | succ less =>
          obtain ⟨below, hbelow, -⟩ := visit_succ_eq_some.mp hys
          exact ⟨less, Nat.lt_of_succ_lt hless, eq_some_of_visitAll hbelow hchild⟩

-- So it does not end on a cycle.
theorem not_cycle_of_visit {fuel : Nat} {i : κ} {xs : List κ} (h : visit children fuel i = some xs) :
    ¬TransGen (Child children) i i := by
  intro hcycle
  induction fuel using Nat.strongRecOn generalizing xs with
  | ind fuel ih =>
      obtain ⟨less, hless, ys, hys⟩ := visit_below h hcycle
      exact ih less hless hys

theorem reachable_of_visit {fuel : Nat} {i x : κ} {xs : List κ} (h : visit children fuel i = some xs)
    (hx : x ∈ xs) : ReflTransGen (Child children) i x := by
  induction fuel generalizing i xs with
  | zero => cases h
  | succ fuel ih =>
      obtain ⟨below, hbelow, rfl⟩ := visit_succ_eq_some.mp h
      rcases List.mem_cons.mp hx with rfl | hx
      · exact .refl
      · obtain ⟨j, hj, ys, hys, hmem⟩ := mem_of_visitAll hbelow hx
        exact .head hj (ih hys hmem)

-- A visit that ends visits all that is in reach.
theorem mem_visit_of_reachable {fuel : Nat} {i x : κ} {xs : List κ}
    (h : visit children fuel i = some xs) (hx : ReflTransGen (Child children) i x) : x ∈ xs := by
  induction fuel generalizing i xs with
  | zero => cases h
  | succ fuel ih =>
      obtain ⟨below, hbelow, rfl⟩ := visit_succ_eq_some.mp h
      rcases hx.cases_head with rfl | ⟨j, hj, hpath⟩
      · exact List.mem_cons_self
      · obtain ⟨ys, hys⟩ := eq_some_of_visitAll hbelow hj
        exact List.mem_cons_of_mem i (mem_visitAll hbelow hj hys x (ih hys hpath))

-- Among finitely many nodes, and without a cycle in reach, there is enough fuel: the
-- nodes above the one that is visited are all different.
theorem visit_of_acyclic {nodes above : List κ} (hnodes : ∀ i j, Child children i j → j ∈ nodes)
    {fuel : Nat} {i : κ} (hi : i ∈ nodes) (hnodup : above.Nodup) (hsub : above ⊆ nodes)
    (habove : ∀ a ∈ above, TransGen (Child children) a i)
    (hacyclic : ∀ j, ReflTransGen (Child children) i j → ¬TransGen (Child children) j j)
    (hfuel : nodes.length < fuel + above.length) : ∃ xs, visit children fuel i = some xs := by
  induction fuel generalizing i above with
  | zero =>
      have hlength := (List.subperm_of_subset hnodup hsub).length_le
      omega
  | succ fuel ih =>
      have hbelow (j : κ) (hj : j ∈ children i) : ∃ ys, visit children fuel j = some ys := by
        have hdistinct : (i :: above).Nodup :=
          List.nodup_cons.mpr ⟨fun hmem => hacyclic i .refl (habove i hmem), hnodup⟩
        apply ih (hnodes i j hj) hdistinct (List.cons_subset.mpr ⟨hi, hsub⟩)
        · intro a ha
          rcases List.mem_cons.mp ha with rfl | ha
          · exact .single hj
          · exact (habove a ha).tail hj
        · exact fun k hk => hacyclic k (.head hj hk)
        · rw [List.length_cons]
          omega
      obtain ⟨below, hall⟩ := visitAll_isSome hbelow
      exact ⟨i :: below, visit_succ_eq_some.mpr ⟨below, hall, rfl⟩⟩

section SingleParent

variable (hparent : ∀ i j k, Child children i k → Child children j k → i = j)

include hparent

-- The only way into a cycle is along it: one that is in reach goes through the root.
theorem cycle_through_root {root i : κ} (hroot : ReflTransGen (Child children) root i)
    (hcycle : TransGen (Child children) i i) : TransGen (Child children) root root := by
  induction hroot with
  | refl => exact hcycle
  | tail _ hchild ih =>
      obtain ⟨last, hpath, hlast⟩ := TransGen.tail'_iff.mp hcycle
      obtain rfl := hparent _ _ _ hlast hchild
      exact ih (.head' hchild hpath)

theorem cycle_of_siblings {i j k : κ} (hj : Child children i j) (hk : Child children i k)
    (hne : j ≠ k) (hpath : ReflTransGen (Child children) j k) : TransGen (Child children) i i := by
  rcases hpath.cases_tail with heq | ⟨last, hlast, hchild⟩
  · exact absurd heq.symm hne
  · obtain rfl := hparent _ _ _ hchild hk
    exact .head' hj hlast

-- Without a cycle, nothing is below two children of one node.
theorem eq_of_common_descendant {i j k x : κ} (hj : Child children i j) (hk : Child children i k)
    (hjx : ReflTransGen (Child children) j x) (hkx : ReflTransGen (Child children) k x)
    (hacyclic : ¬TransGen (Child children) i i) : j = k := by
  have hunique : Relator.RightUnique (Function.swap (Child children)) :=
    fun _ _ _ h h' => hparent _ _ _ h h'
  by_contra hne
  rcases ReflTransGen.total_of_right_unique hunique hjx.swap hkx.swap with hpath | hpath
  · exact hacyclic (cycle_of_siblings hparent hk hj (Ne.symm hne) (reflTransGen_swap.mp hpath))
  · exact hacyclic (cycle_of_siblings hparent hj hk hne (reflTransGen_swap.mp hpath))

variable (hchildren : ∀ i, (children i).Nodup)

include hchildren

-- A visit that ends visits no node twice.
theorem visit_nodup {fuel : Nat} {i : κ} {xs : List κ} (h : visit children fuel i = some xs) :
    xs.Nodup := by
  have hacyclic := not_cycle_of_visit h
  induction fuel generalizing i xs with
  | zero => cases h
  | succ fuel ih =>
      obtain ⟨below, hbelow, rfl⟩ := visit_succ_eq_some.mp h
      refine List.nodup_cons.mpr ⟨fun hmem => ?_, ?_⟩
      · obtain ⟨j, hj, ys, hys, hi⟩ := mem_of_visitAll hbelow hmem
        exact hacyclic (.head' hj (reachable_of_visit hys hi))
      · apply visitAll_nodup hbelow (hchildren i)
        · exact fun j _ ys hys => ih hys (not_cycle_of_visit hys)
        · intro j hj k hk x ys zs hys hzs hx hx'
          exact eq_of_common_descendant hparent hj hk (reachable_of_visit hys hx)
            (reachable_of_visit hzs hx') hacyclic

-- A visit from the root ends, and visits no node twice, exactly if the root is not
-- below itself.
theorem visit_ends_iff {nodes : List κ} (hnodes : ∀ i j, Child children i j → j ∈ nodes) (root : κ) :
    (∃ fuel xs, visit children fuel root = some xs ∧ xs.Nodup) ↔
      ¬TransGen (Child children) root root := by
  constructor
  · rintro ⟨fuel, xs, h, -⟩
    exact not_cycle_of_visit h
  · intro hroot
    have hacyclic (j : κ) (hj : ReflTransGen (Child children) root j) :
        ¬TransGen (Child children) j j := fun hcycle => hroot (cycle_through_root hparent hj hcycle)
    have hmem (i j : κ) (hj : Child children i j) : j ∈ root :: nodes :=
      List.mem_cons_of_mem root (hnodes i j hj)
    obtain ⟨xs, h⟩ := visit_of_acyclic hmem List.mem_cons_self List.nodup_nil (List.nil_subset _)
      (fun a ha => by cases ha) hacyclic (Nat.lt_succ_self _)
    exact ⟨_, xs, h, visit_nodup hparent hchildren h⟩

end SingleParent

end SuperBadBlock.Descent
