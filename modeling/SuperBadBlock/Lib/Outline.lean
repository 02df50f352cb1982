import Mathlib.Data.List.Chain
import Mathlib.Data.List.DropRight
import SuperBadBlock.Lib.Descent

namespace SuperBadBlock.Outline

open Relation

variable {α κ : Type}

-- The lines of an outline, each with its level, read back: the chain of a line goes from it
-- up to the first level, through the last line above it of each lower level.
def spelled (above : List α) : List (Nat × α) → List (List α)
  | [] => []
  | (level, x) :: rest => (x :: above.rtake level) :: spelled (x :: above.rtake level) rest

-- A tree whose nodes may be shared, as the tree of the chains in it. A chain begins with the
-- node it leads to.
def extend (children : κ → List κ) : List κ → List (List κ)
  | [] => []
  | i :: above => (children i).map fun j => j :: i :: above

-- A line may stand below another one where the chain above it is part of the chain of that.
def Follows (chain next : List κ) : Prop := next.tail <:+ chain

section Print

variable {children : κ → List κ}

theorem child_extend_iff {chain next : List κ} :
    Descent.Child (extend children) chain next ↔
      ∃ i j above, chain = i :: above ∧ next = j :: i :: above ∧ j ∈ children i := by
  cases chain with
  | nil =>
      constructor
      · intro h
        cases h
      · rintro ⟨i, j, above, hchain, -⟩
        cases hchain
  | cons i above =>
      rw [Descent.Child, extend, List.mem_map]
      constructor
      · rintro ⟨j, hj, rfl⟩
        exact ⟨i, j, above, rfl, rfl, hj⟩
      · rintro ⟨_, j, _, heq, rfl, hj⟩
        obtain ⟨rfl, rfl⟩ := List.cons.inj heq
        exact ⟨j, hj, rfl⟩

theorem follows_visitAll {f : List κ → Option (List (List κ))} {chain : List κ}
    {nexts below : List (List κ)} (h : Descent.visitAll f nexts = some below)
    (hnexts : ∀ next ∈ nexts, next.tail = chain)
    (hf : ∀ next ∈ nexts, ∀ xs, f next = some xs →
      (∃ rest, xs = next :: rest) ∧ xs.IsChain Follows ∧ ∀ x ∈ xs, next <:+ x)
    {last : List κ} (hlast : chain <:+ last) :
    (last :: below).IsChain Follows ∧ ∀ x ∈ below, chain <:+ x := by
  induction nexts generalizing below last with
  | nil =>
      obtain rfl := Option.some.inj h
      exact ⟨.singleton last, by simp⟩
  | cons next nexts ih =>
      obtain ⟨xs, others, hxs, hothers, rfl⟩ := Descent.visitAll_cons_eq_some.mp h
      obtain ⟨hnext, hnexts⟩ := List.forall_mem_cons.mp hnexts
      obtain ⟨hfirst, hrest⟩ := List.forall_mem_cons.mp hf
      obtain ⟨⟨rest, rfl⟩, hchain, hsuffix⟩ := hfirst xs hxs
      have htail : chain <:+ next := hnext ▸ List.tail_suffix next
      have hbelow : ∀ x ∈ next :: rest, chain <:+ x := fun x hx => htail.trans (hsuffix x hx)
      obtain ⟨hothersChain, hothersBelow⟩ := ih hothers hnexts hrest
        (hbelow _ (List.getLast_mem (List.cons_ne_nil next rest)))
      refine ⟨List.isChain_cons_cons.mpr ⟨?_, ?_⟩, List.forall_mem_append.mpr ⟨hbelow, hothersBelow⟩⟩
      · rw [Follows, hnext]
        exact hlast
      · refine List.isChain_append.mpr ⟨hchain, (List.isChain_cons.mp hothersChain).2, fun x hx y hy => ?_⟩
        rw [List.getLast?_eq_getLast_of_ne_nil (List.cons_ne_nil next rest)] at hx
        obtain rfl := Option.some.inj hx
        exact (List.isChain_cons.mp hothersChain).1 y hy

-- Depth first, each chain follows the one before.
theorem follows_visit {fuel : Nat} {chain : List κ} {chains : List (List κ)}
    (h : Descent.visit (extend children) fuel chain = some chains) :
    (∃ rest, chains = chain :: rest) ∧ chains.IsChain Follows ∧ ∀ x ∈ chains, chain <:+ x := by
  induction fuel generalizing chain chains with
  | zero => cases h
  | succ fuel ih =>
      obtain ⟨below, hbelow, rfl⟩ := Descent.visit_succ_eq_some.mp h
      have hnexts : ∀ next ∈ extend children chain, next.tail = chain := by
        intro next hnext
        obtain ⟨i, j, above, rfl, rfl, -⟩ := child_extend_iff.mp hnext
        rfl
      obtain ⟨hchain, hsuffix⟩ := follows_visitAll hbelow hnexts (fun next _ xs hxs => ih hxs)
        (List.suffix_refl chain)
      exact ⟨⟨below, rfl⟩, hchain, List.forall_mem_cons.mpr ⟨List.suffix_refl chain, hsuffix⟩⟩

-- Each chain is visited once.
theorem nodup_visit (hchildren : ∀ i, (children i).Nodup) {fuel : Nat} {chain : List κ}
    {chains : List (List κ)} (h : Descent.visit (extend children) fuel chain = some chains) :
    chains.Nodup := by
  refine Descent.visit_nodup (fun first second next hfirst hsecond => ?_) (fun chain => ?_) h
  · obtain ⟨i, j, above, rfl, rfl, -⟩ := child_extend_iff.mp hfirst
    obtain ⟨i', j', above', rfl, heq, -⟩ := child_extend_iff.mp hsecond
    exact (List.cons.inj heq).2
  · cases chain with
    | nil => exact List.nodup_nil
    | cons i above => exact (hchildren i).map fun j j' heq => (List.cons.inj heq).1

end Print

section Read

variable {R : α → κ → Prop}

-- The line of a chain: its level is the length of the chain above it.
structure Line (R : α → κ → Prop) (line : Nat × α) (chain : List κ) : Prop where
  level : chain.length = line.1 + 1
  label : ∀ i ∈ chain.head?, R line.2 i

theorem rtake_of_suffix {above chain : List κ} (h : above <:+ chain) :
    chain.rtake above.length = above := by
  obtain ⟨front, rfl⟩ := h
  rw [List.rtake, List.length_append, Nat.add_sub_cancel, List.drop_left]

theorem forall₂_rtake {xs : List α} {chain : List κ} (h : List.Forall₂ R xs chain) (n : Nat) :
    List.Forall₂ R (xs.rtake n) (chain.rtake n) := by
  rw [List.rtake, List.rtake, h.length_eq]
  exact List.forall₂_drop _ h

-- What has been printed in this order is read back.
theorem spelled_of_follows {lines : List (Nat × α)} {chains : List (List κ)}
    (hlines : List.Forall₂ (Line R) lines chains) {above : List α} {last : List κ}
    (habove : List.Forall₂ R above last) (hfollows : (last :: chains).IsChain Follows) :
    List.Forall₂ (List.Forall₂ R) (spelled above lines) chains := by
  induction hlines generalizing above last with
  | nil => exact .nil
  | @cons line chain lines chains hline _ ih =>
      obtain ⟨hfirst, hrest⟩ := List.isChain_cons_cons.mp hfollows
      obtain ⟨level, x⟩ := line
      cases chain with
      | nil => cases hline.level
      | cons i chain =>
          have hlevel : chain.length = level := Nat.succ.inj hline.level
          have hsuffix : last.rtake level = chain := hlevel ▸ rtake_of_suffix hfirst
          have htake := forall₂_rtake habove level
          rw [hsuffix] at htake
          have hchain : List.Forall₂ R (x :: above.rtake level) (i :: chain) :=
            .cons (hline.label i rfl) htake
          exact .cons hchain (ih hchain hrest)

end Read

-- The outline of a tree, printed depth first, spells out every chain of the tree, and each
-- of them once.
theorem spelled_visit {R : α → κ → Prop} {children : κ → List κ} (hchildren : ∀ i, (children i).Nodup)
    {fuel : Nat} {root : κ} {chains : List (List κ)}
    (h : Descent.visit (extend children) fuel [root] = some chains) {lines : List (Nat × α)}
    (hlines : List.Forall₂ (Line R) lines chains) :
    List.Forall₂ (List.Forall₂ R) (spelled [] lines) chains ∧ chains.Nodup ∧
      ∀ chain, chain ∈ chains ↔ ReflTransGen (Descent.Child (extend children)) [root] chain := by
  obtain ⟨⟨rest, hrest⟩, hfollows, -⟩ := follows_visit h
  have hstart : ([] :: chains).IsChain Follows := by
    rw [hrest] at hfollows ⊢
    exact List.isChain_cons_cons.mpr ⟨List.suffix_refl [], hfollows⟩
  exact ⟨spelled_of_follows hlines .nil hstart, nodup_visit hchildren h, fun chain =>
    ⟨Descent.reachable_of_visit h, Descent.mem_visit_of_reachable h⟩⟩

end SuperBadBlock.Outline
