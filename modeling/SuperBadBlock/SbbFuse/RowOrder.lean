import SuperBadBlock.SbbFuse.Sessions

namespace SuperBadBlock

open FileSystem

-- The same rows, in whatever order the queries give them out.
structure SameRowSets (store store' : FileSystem) : Prop where
  entry : store'.entry.Perm store.entry
  extent : store'.extent.Perm store.extent

-- Tables that a query by inode or by name finds one row in at most, and in which the extents
-- of an inode begin at different addresses.
structure Keyed (store : FileSystem) : Prop where
  inodes : (store.entry.map EntryRow.inode).Nodup
  names : (store.entry.map fun row => (row.parent_inode, row.name)).Nodup
  addresses : ∀ i,
    ((store.extent.filter fun row => row.inode = i).map ExtentRow.logical_address).Nodup

namespace Mount

-- The same reply, but for the order in which a directory is listed.
inductive Reply.Like : Reply → Reply → Prop
  | same (reply : Reply) : Reply.Like reply reply
  | readdir {names names' : List (List UInt8)} (result : Int) (perm : names'.Perm names) :
      Reply.Like (.readdir result names) (.readdir result names')

theorem Reply.Like.result_eq {reply reply' : Option Reply} (h : Option.Rel Reply.Like reply reply') :
    reply'.map Reply.result = reply.map Reply.result := by
  cases h with
  | none => rfl
  | some hlike =>
      cases hlike with
      | same _ => rfl
      | readdir _ _ => rfl

end Mount

variable {store store' : FileSystem}

theorem Keyed.perm (h : Keyed store) (hrows : SameRowSets store store') : Keyed store' where
  inodes := (hrows.entry.map _).nodup_iff.mpr h.inodes
  names := (hrows.entry.map _).nodup_iff.mpr h.names
  addresses i := ((hrows.extent.filter _).map _).nodup_iff.mpr (h.addresses i)

namespace TableServer

section Lookups

variable (h : Keyed store) (hrows : SameRowSets store store')

include h hrows

theorem find?_root_perm : (store'.entry.find? fun row => row.inode = 2) =
    store.entry.find? fun row => row.inode = 2 := by
  refine (List.find?_eq_find?_of_perm hrows.entry.symm ?_).symm
  rintro first ⟨hfirst, hp⟩ second ⟨hsecond, hq⟩
  exact List.inj_on_of_nodup_map h.inodes hfirst hsecond
    ((of_decide_eq_true hp).trans (of_decide_eq_true hq).symm)

theorem lookup_perm (parts : List (List UInt8)) : lookup store' parts = lookup store parts := by
  simp only [lookup, find?_root_perm h hrows, descend, NamedTree.descend_perm h.names hrows.entry]

omit h in
theorem readdir_perm (row : EntryRow) : (readdir store' row).1 = (readdir store row).1 ∧
    (readdir store' row).2.Perm (readdir store row).2 :=
  ⟨rfl, (((hrows.entry.filter _).map _).cons _).cons _⟩

theorem read_perm (std : ExtentSort) (device : Device) (fileBuffer buf : Memory) (size : Nat)
    (offset : Int) (row : EntryRow) :
    read std device store' fileBuffer buf size offset row =
      read std device store fileBuffer buf size offset row := by
  have hextents : (loaded store'.extent row).extents.Perm (loaded store.extent row).extents :=
    (hrows.extent.filter _).map _
  have hsort : std.sort (loaded store'.extent row).extents = std.sort (loaded store.extent row).extents := by
    refine std.sort_eq_of_perm hextents ?_
    rw [loaded, List.map_map]
    exact h.addresses row.inode
  let fs : FileSystem := { heap := fun _ => loaded store.extent row }
  let fs' : FileSystem := { heap := fun _ => loaded store'.extent row }
  have hlength : (fs'.heap 0).length = (fs.heap 0).length := rfl
  obtain ⟨hn, hbuf⟩ := val_read_congr fs 0 device hlength hsort fileBuffer buf offset size
  exact Prod.ext (congrArg toInt hn) hbuf

theorem reply_perm (splitString : List UInt8 → UInt8 → List (List UInt8)) (std : ExtentSort)
    (device : Device) (request : Mount.Request) :
    Option.Rel Mount.Reply.Like (reply splitString std device store request)
      (reply splitString std device store' request) := by
  cases request with
  | getattr path stbuf =>
      rw [reply, reply, lookup_perm h hrows]
      cases lookup store (splitString path slash) with
      | none => exact .none
      | some found => exact .some (.same _)
  | readdir path =>
      rw [reply, reply, lookup_perm h hrows]
      cases lookup store (splitString path slash) with
      | none => exact .none
      | some found =>
          cases found with
          | none => exact .some (.same _)
          | some row => exact .some (.readdir _ (readdir_perm hrows row).2)
  | «open» path flags =>
      rw [reply, reply, lookup_perm h hrows]
      cases lookup store (splitString path slash) with
      | none => exact .none
      | some found => exact .some (.same _)
  | read path fileBuffer buf size offset =>
      rw [reply, reply, lookup_perm h hrows]
      cases lookup store (splitString path slash) with
      | none => exact .none
      | some found =>
          cases found with
          | none => exact .some (.same _)
          | some row =>
              simp only [Option.map_some, Option.elim_some, read_perm h hrows]
              exact .some (.same _)

end Lookups

end TableServer

namespace Mount

-- The queries leave the order of the rows to the database. Two mounts over the same rows, each
-- in any state it gets to, give the same replies, but for the order of a listing; also with
-- different bytes in the arrays of `read`, as far as results go, and altogether where the file
-- is whole.
theorem replies_blind_to_row_order (splitString : List UInt8 → UInt8 → List (List UInt8))
    (std : ExtentSort) (device : Device) (store store' : FileSystem) (h : Keyed store)
    (hrows : SameRowSets store store') (m m' : Mount) (hm : Mounted splitString std device store m)
    (hm' : Mounted splitString std device store' m') (request : Request) (fileBuffer : Memory) :
    let reply := (m.reply splitString std device request).1
    let reply' := fun request => (m'.reply splitString std device request).1
    Option.Rel Reply.Like reply (reply' request) ∧
    reply.map Reply.result = (reply' (request.withArray fileBuffer)).map Reply.result ∧
    (request.InRange →
      (∀ row, TableServer.lookup store (splitString request.path slash) = some (some row) →
        TableServer.Whole device store row) →
      Option.Rel Reply.Like reply (reply' (request.withArray fileBuffer))) := by
  intro reply reply'
  have h' := h.perm hrows
  have hreply : reply = TableServer.reply splitString std device store request :=
    reply_eq_tables hm.coherent.1 h.inodes (h.addresses 2) request
  have hreply' (other : Request) : Option.Rel Reply.Like
      (TableServer.reply splitString std device store other) (reply' other) := by
    rw [show reply' other = _ from reply_eq_tables hm'.coherent.1 h'.inodes (h'.addresses 2) other]
    exact TableServer.reply_perm h hrows splitString std device other
  rw [hreply]
  refine ⟨hreply' request, ?_, fun hrange hwhole => ?_⟩
  · rw [Reply.Like.result_eq (hreply' _)]
    exact (TableServer.result_withArray splitString request fileBuffer).symm
  · rw [← TableServer.reply_withArray splitString request fileBuffer hrange hwhole]
    exact hreply' _

-- The rows of the tree the other way round.
theorem replies_blind_to_row_order_of_treeStore :
    let reversed : FileSystem := { entry := treeStore.entry.reverse, extent := treeStore.extent.reverse }
    let request : Request := .getattr [97, 47, 98] {}
    Option.Rel Reply.Like
      (({ fileSystem := treeStore.reopen } : Mount).reply splitPath insertionSort wholeDevice request).1
      (({ fileSystem := reversed.reopen } : Mount).reply splitPath insertionSort wholeDevice request).1 := by
  intro reversed request
  have hkeyed : Keyed treeStore := by
    refine ⟨by decide, by decide, fun i => ?_⟩
    have hall : (treeStore.extent.map ExtentRow.logical_address).Nodup := by decide
    exact hall.sublist (List.filter_sublist.map _)
  exact (replies_blind_to_row_order splitPath insertionSort wholeDevice treeStore reversed hkeyed
    ⟨List.reverse_perm _, List.reverse_perm _⟩ _ _ .start .start request fun _ => 0).1

end Mount

end SuperBadBlock
