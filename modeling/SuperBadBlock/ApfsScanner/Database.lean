import SuperBadBlock.ApfsScanner.Runs
import SuperBadBlock.FileSystem.Reopen

namespace SuperBadBlock

-- After any scan the database alone gives back the scanned store.
theorem scanBlocks_reopen (blocks : List ScannedBlock) :
    let fs := (scanBlocks {} blocks).fileSystem
    (∀ i, (fs.entry.filter fun row => row.inode = i).length =
      if (fs.diskEntries i).isSome then 1 else 0) ∧
    (∀ i e, fs.cached i = some e → e.isNew = false ∧ e.extentsUpdated = false) ∧
    (∀ i, (fs.cached i = none ∧ (fs.reopen.findByInode i).1 = none) ∨
      ∃ e q, fs.cached i = some e ∧ (fs.reopen.findByInode i).1 = some q ∧
        SameFile e ((fs.reopen.findByInode i).2.heap q)) ∧
    (∀ parent, (∀ q ∈ (fs.reopen.findByParentInode parent).1, ∃ i e, fs.cached i = some e ∧
        e.parentId = parent ∧ SameFile e ((fs.reopen.findByParentInode parent).2.heap q)) ∧
      (∀ i e, fs.cached i = some e → e.parentId = parent →
        ∃ q ∈ (fs.reopen.findByParentInode parent).1,
          SameFile e ((fs.reopen.findByParentInode parent).2.heap q))) ∧
    (∀ parent name, (∀ q, (fs.reopen.findByName parent name).1 = some q → ∃ i e,
        fs.cached i = some e ∧ e.parentId = parent ∧ e.name = name ∧
        SameFile e ((fs.reopen.findByName parent name).2.heap q)) ∧
      (∀ i e, fs.cached i = some e → e.parentId = parent → e.name = name →
        (fs.reopen.findByName parent name).1.isSome)) := by
  intro fs
  have h : fs.Consistent := Reachable.consistent ⟨blocks, rfl⟩
  refine ⟨?_, ?_, ?_, h.reopen_findByParentInode, h.reopen_findByName⟩
  · intro i
    rw [h.count_rows i, FileSystem.cached, Option.isSome_map]
  · intro i e he
    have hsettle := h.cached_settle he
    exact ⟨hsettle ▸ rfl, hsettle ▸ rfl⟩
  · intro i
    cases he : fs.cached i with
    | none => exact Or.inl ⟨rfl, h.reopen_findByInode_none he⟩
    | some e =>
        obtain ⟨q, hq, hsame⟩ := h.reopen_findByInode he
        exact Or.inr ⟨e, q, rfl, hq, hsame⟩

end SuperBadBlock
