import Mathlib.Data.List.Find
import Mathlib.Data.List.Nodup

namespace SuperBadBlock.NamedTree

variable {ρ κ ν : Type} [DecidableEq κ] [DecidableEq ν] (parent key : ρ → κ) (name : ρ → ν)

-- A path is followed from `dir` on: each part goes to the first row with that
-- parent and that name.
def resolve (rows : List ρ) : κ → List ν → Option κ
  | dir, [] => some dir
  | dir, part :: parts =>
      match rows.find? fun row => parent row = dir ∧ name row = part with
      | some row => resolve rows (key row) parts
      | none => none

-- The keys in the tree below `root`, as far as it is made of proper names.
inductive Under (proper : ν → Prop) (rows : List ρ) (root : κ) : κ → Prop
  | root : Under proper rows root root
  | child {row : ρ} : Under proper rows root (parent row) → row ∈ rows → proper (name row) →
      Under proper rows root (key row)

-- The same walk from row to row.
def descend (rows : List ρ) : ρ → List ν → Option ρ
  | row, [] => some row
  | row, part :: parts =>
      match rows.find? fun next => parent next = key row ∧ name next = part with
      | some next => descend rows next parts
      | none => none

-- Each row of a chain has the key of the one before as its parent and the next part
-- of the path as its name.
inductive Chain (rows : List ρ) : ρ → List ν → ρ → Prop
  | nil (row : ρ) : Chain rows row [] row
  | cons {row next last : ρ} {part : ν} {parts : List ν} : next ∈ rows → parent next = key row →
      name next = part → Chain rows next parts last → Chain rows row (part :: parts) last

variable {parent key name}

theorem resolve_append (rows : List ρ) (dir : κ) (first second : List ν) :
    resolve parent key name rows dir (first ++ second) =
      (resolve parent key name rows dir first).bind fun d =>
        resolve parent key name rows d second := by
  induction first generalizing dir with
  | nil => rfl
  | cons part first ih =>
      rw [List.cons_append, resolve, resolve]
      cases rows.find? fun row => decide (parent row = dir ∧ name row = part) with
      | none => rfl
      | some row => exact ih (key row)

theorem find?_spec {rows : List ρ} {dir : κ} {part : ν} {row : ρ}
    (h : rows.find? (fun row => parent row = dir ∧ name row = part) = some row) :
    row ∈ rows ∧ parent row = dir ∧ name row = part :=
  ⟨List.mem_of_find?_eq_some h, of_decide_eq_true
    (List.find?_some (p := fun row => decide (parent row = dir ∧ name row = part)) h)⟩

theorem under_of_resolve {proper : ν → Prop} {rows : List ρ} {root dir d : κ} {parts : List ν}
    (hdir : Under parent key name proper rows root dir) (hparts : ∀ part ∈ parts, proper part)
    (h : resolve parent key name rows dir parts = some d) :
    Under parent key name proper rows root d := by
  induction parts generalizing dir with
  | nil =>
      cases h
      exact hdir
  | cons part parts ih =>
      obtain ⟨hhead, htail⟩ := List.forall_mem_cons.mp hparts
      rw [resolve] at h
      cases hf : rows.find? fun row => decide (parent row = dir ∧ name row = part) with
      | none =>
          rw [hf] at h
          cases h
      | some row =>
          obtain ⟨hrow, rfl, rfl⟩ := find?_spec hf
          rw [hf] at h
          exact ih (.child hdir hrow hhead) htail h

-- Where the names of a directory are distinct, a row is found under its name.
theorem find?_of_nodup {rows : List ρ} {row : ρ} (hrow : row ∈ rows)
    (h : ((rows.filter fun r => parent r = parent row).map name).Nodup) :
    rows.find? (fun r => parent r = parent row ∧ name r = name row) = some row := by
  cases hf : rows.find? fun r => decide (parent r = parent row ∧ name r = name row) with
  | none =>
      rw [List.find?_eq_none] at hf
      exact absurd (decide_eq_true ⟨rfl, rfl⟩) (hf row hrow)
  | some other =>
      obtain ⟨hother, hparent, hname⟩ := find?_spec hf
      have hmem : other ∈ rows.filter fun r => parent r = parent row :=
        List.mem_filter.mpr ⟨hother, decide_eq_true hparent⟩
      have hmem' : row ∈ rows.filter fun r => parent r = parent row :=
        List.mem_filter.mpr ⟨hrow, decide_eq_true rfl⟩
      rw [List.inj_on_of_nodup_map h hmem hmem' hname]

-- Where no two rows share parent and name, there is one row to find.
theorem find?_eq_some_iff {rows : List ρ} (h : (rows.map fun row => (parent row, name row)).Nodup)
    {dir : κ} {part : ν} {row : ρ} :
    rows.find? (fun row => parent row = dir ∧ name row = part) = some row ↔
      row ∈ rows ∧ parent row = dir ∧ name row = part := by
  refine ⟨find?_spec, ?_⟩
  rintro ⟨hrow, rfl, rfl⟩
  cases hf : rows.find? fun r => decide (parent r = parent row ∧ name r = name row) with
  | none =>
      rw [List.find?_eq_none] at hf
      exact absurd (decide_eq_true ⟨rfl, rfl⟩) (hf row hrow)
  | some other =>
      obtain ⟨hother, hparent, hname⟩ := find?_spec hf
      rw [List.inj_on_of_nodup_map h hother hrow (Prod.ext hparent hname)]

-- Then the walk goes along the chains, and along nothing else.
theorem descend_eq_some_iff {rows : List ρ}
    (h : (rows.map fun row => (parent row, name row)).Nodup) {row last : ρ} {parts : List ν} :
    descend parent key name rows row parts = some last ↔
      Chain parent key name rows row parts last := by
  induction parts generalizing row with
  | nil =>
      constructor
      · intro heq
        obtain rfl := Option.some.inj heq
        exact .nil row
      · intro hchain
        cases hchain
        rfl
  | cons part parts ih =>
      rw [descend]
      constructor
      · intro heq
        cases hf : rows.find? fun next => decide (parent next = key row ∧ name next = part) with
        | none =>
            rw [hf] at heq
            cases heq
        | some next =>
            rw [hf] at heq
            obtain ⟨hnext, hparent, hname⟩ := find?_spec hf
            exact .cons hnext hparent hname (ih.mp heq)
      · intro hchain
        cases hchain with
        | cons hnext hparent hname hrest =>
            rw [(find?_eq_some_iff h).mpr ⟨hnext, hparent, hname⟩]
            exact ih.mpr hrest

-- The order of the rows is of no account to it.
theorem descend_perm {rows rows' : List ρ} (h : (rows.map fun row => (parent row, name row)).Nodup)
    (hperm : rows'.Perm rows) (row : ρ) (parts : List ν) :
    descend parent key name rows' row parts = descend parent key name rows row parts := by
  induction parts generalizing row with
  | nil => rfl
  | cons part parts ih =>
      have hfind : (rows.find? fun next => decide (parent next = key row ∧ name next = part)) =
          rows'.find? fun next => decide (parent next = key row ∧ name next = part) := by
        refine List.find?_eq_find?_of_perm hperm.symm ?_
        rintro first ⟨hfirst, hp⟩ second ⟨hsecond, hq⟩
        obtain ⟨hparent, hname⟩ := of_decide_eq_true hp
        obtain ⟨hparent', hname'⟩ := of_decide_eq_true hq
        exact List.inj_on_of_nodup_map h hfirst hsecond
          (Prod.ext (hparent.trans hparent'.symm) (hname.trans hname'.symm))
      rw [descend, descend, hfind]
      cases rows'.find? fun next => decide (parent next = key row ∧ name next = part) with
      | none => rfl
      | some next => exact ih next

omit [DecidableEq κ] [DecidableEq ν] in
theorem mem_of_chain {rows : List ρ} {row last : ρ} {parts : List ν} (hrow : row ∈ rows)
    (h : Chain parent key name rows row parts last) : last ∈ rows := by
  induction h with
  | nil => exact hrow
  | cons hnext _ _ _ ih => exact ih hnext

theorem mem_of_descend {rows : List ρ} {row last : ρ} {parts : List ν} (hrow : row ∈ rows)
    (h : descend parent key name rows row parts = some last) : last ∈ rows := by
  induction parts generalizing row with
  | nil =>
      obtain rfl := Option.some.inj h
      exact hrow
  | cons part parts ih =>
      rw [descend] at h
      cases hf : rows.find? fun next => decide (parent next = key row ∧ name next = part) with
      | none =>
          rw [hf] at h
          cases h
      | some next =>
          rw [hf] at h
          exact ih (List.mem_of_find?_eq_some hf) h

omit [DecidableEq κ] [DecidableEq ν] in
theorem Chain.snoc {rows : List ρ} {row dir next : ρ} {parts : List ν}
    (h : Chain parent key name rows row parts dir) (hnext : next ∈ rows)
    (hparent : parent next = key dir) :
    Chain parent key name rows row (parts ++ [name next]) next := by
  induction h with
  | nil row => exact .cons hnext hparent rfl (.nil next)
  | cons hm hp hname _ ih => exact .cons hm hp hname (ih hparent)

omit [DecidableEq κ] [DecidableEq ν] in
-- A chain in one table is a chain in any other that has a partner for each of its rows.
theorem Chain.transfer {ρ' : Type} {parent' key' : ρ' → κ} {name' : ρ' → ν} {R : ρ → ρ' → Prop}
    (hkey : ∀ row row', R row row' → key' row' = key row)
    (hparent : ∀ row row', R row row' → parent' row' = parent row)
    (hname : ∀ row row', R row row' → name' row' = name row) {rows : List ρ} {rows' : List ρ'}
    (hrows : ∀ row ∈ rows, ∃ row' ∈ rows', R row row') {row last : ρ} {parts : List ν}
    (h : Chain parent key name rows row parts last) {row' : ρ'} (hrow : R row row') :
    ∃ last', R last last' ∧ Chain parent' key' name' rows' row' parts last' := by
  induction h generalizing row' with
  | nil row => exact ⟨row', hrow, .nil row'⟩
  | @cons row next last part parts hnext hnextParent hnextName _ ih =>
      obtain ⟨next', hnext', hR⟩ := hrows next hnext
      obtain ⟨last', hlast, hchain⟩ := ih hR
      refine ⟨last', hlast, .cons hnext' ?_ ?_ hchain⟩
      · rw [hparent next next' hR, hkey row row' hrow, hnextParent]
      · rw [hname next next' hR, hnextName]

end SuperBadBlock.NamedTree
