import SuperBadBlock.ApfsScanner.Runs

namespace SuperBadBlock

open KeyedFold

def Event.extent? : Event → Option (Nat × EntryExtent)
  | extent xid added => some (xid, added)
  | _ => none

-- An extent event never comes first: an entry is there by then.
def Grounded : Bool → List Event → Prop
  | _, [] => True
  | found, .extent _ _ :: events => found = true ∧ Grounded found events
  | _, _ :: events => Grounded true events

theorem Grounded.mono {events : List Event} {found : Bool} (h : Grounded found events) :
    Grounded true events := by
  cases events with
  | nil => trivial
  | cons event events =>
      cases event with
      | extent xid added => exact ⟨rfl, h.1 ▸ h.2⟩
      | inode xid parentId length => exact h
      | dirRec xid parentId name type => exact h

theorem Grounded.append {first second : List Event} {found : Bool} (h : Grounded found first)
    (hs : Grounded (found || !first.isEmpty) second) : Grounded found (first ++ second) := by
  induction first generalizing found with
  | nil => simpa using hs
  | cons event events ih =>
      cases event with
      | extent xid added =>
          obtain ⟨rfl, h⟩ := h
          exact ⟨rfl, ih h (by simpa using hs)⟩
      | inode xid parentId length => exact ih h (by simpa using hs)
      | dirRec xid parentId name type => exact ih h (by simpa using hs)

-- The first event makes the entry, so it is no extent.
theorem Grounded.exists_mem {events : List Event} (h : Grounded false events) (hne : events ≠ []) :
    ∃ event ∈ events, event.extent? = none := by
  cases events with
  | nil => exact absurd rfl hne
  | cons event events =>
      cases event with
      | extent xid added => exact absurd h.1 Bool.false_ne_true
      | inode xid parentId length => exact ⟨_, List.mem_cons_self, rfl⟩
      | dirRec xid parentId name type => exact ⟨_, List.mem_cons_self, rfl⟩

theorem isSome_absorb (i : Nat) (old : Option Entry) (event : Event)
    (h : event.extent? ≠ none → old.isSome) : (event.absorb i old).isSome := by
  cases event with
  | inode xid parentId length => rfl
  | dirRec xid parentId name type => rfl
  | extent xid added => simpa [Event.absorb] using h (by simp [Event.extent?])

-- An entry, once there, stays.
theorem isSome_foldl (i : Nat) (events : List Event) (old : Option Entry) (h : old.isSome) :
    (events.foldl (fun old event => event.absorb i old) old).isSome := by
  induction events generalizing old with
  | nil => exact h
  | cons event events ih => exact ih _ (isSome_absorb i old event fun _ => h)

theorem isSome_foldl_grounded (i : Nat) (events : List Event) (h : Grounded false events)
    (hne : events ≠ []) :
    (events.foldl (fun old event => event.absorb i old) none).isSome := by
  cases events with
  | nil => exact absurd rfl hne
  | cons event events =>
      refine isSome_foldl i events _ (isSome_absorb i none event fun hx => ?_)
      cases event with
      | extent xid added => exact absurd h.1 Bool.false_ne_true
      | inode xid parentId length => exact absurd rfl hx
      | dirRec xid parentId name type => exact absurd rfl hx

theorem grounded_groupTouches {i xid id : Nat} (attached found : Bool) (records : List Record)
    (h : ∀ record ∈ records, record.id = id) (hfound : id = i → attached = true → found = true) :
    Grounded found (eventsAt i (groupTouches xid attached records)) := by
  induction records generalizing attached found with
  | nil => trivial
  | cons record records ih =>
      obtain ⟨hhead, htail⟩ := List.forall_mem_cons.mp h
      rw [groupTouches, eventsAt_append]
      have hnext (attached' found' : Bool) (hf : id = i → attached' = true → found' = true) :=
        ih attached' found' htail hf
      cases record with
      | inode id' parentId length =>
          obtain rfl : id' = id := hhead
          by_cases hi : id' = i
          · subst hi
            exact Grounded.append (by simp [Record.touch, eventsAt, Grounded])
              (hnext _ _ (by simp [Record.touch, eventsAt]))
          · exact Grounded.append (by simp [Record.touch, eventsAt, Grounded, hi])
              (hnext _ _ (fun he => absurd he hi))
      | fileExtent id' extent =>
          obtain rfl : id' = id := hhead
          by_cases hi : id' = i
          · subst hi
            cases attached with
            | false => exact hnext _ _ (by simp [Record.isInode])
            | true =>
                obtain rfl := hfound rfl rfl
                exact Grounded.append (by simp [Record.touch, eventsAt, Grounded])
                  (hnext _ _ (by simp))
          · refine Grounded.append ?_ (hnext _ _ (fun he => absurd he hi))
            cases attached <;> simp [Record.touch, eventsAt, Grounded, hi]
      | dirRec id' fileId name type =>
          refine Grounded.append ?_ (hnext _ _ fun he ha => ?_)
          · by_cases hf : fileId = i <;> simp [Record.touch, eventsAt, Grounded, hf]
          · rw [hfound he (by simpa [Record.isInode] using ha), Bool.true_or]
      | other id' =>
          exact hnext _ _ fun he ha => hfound he (by simpa [Record.isInode] using ha)

theorem grounded_flatMap {α : Type} (f : α → List Event) (l : List α)
    (h : ∀ x ∈ l, Grounded false (f x)) (found : Bool) : Grounded found (l.flatMap f) := by
  induction l generalizing found with
  | nil => trivial
  | cons x l ih =>
      obtain ⟨hhead, htail⟩ := List.forall_mem_cons.mp h
      rw [List.flatMap_cons]
      refine Grounded.append ?_ (ih htail _)
      cases found with
      | false => exact hhead
      | true => exact hhead.mono

theorem grounded_eventsOf (i : Nat) (nodes : List Node) : Grounded false (eventsOf i nodes) := by
  rw [eventsOf, eventsAt_flatMap]
  refine grounded_flatMap _ _ (fun node _ => ?_) _
  rw [Node.touches, eventsAt_flatMap]
  refine grounded_flatMap _ _ (fun entry hm => ?_) _
  exact grounded_groupTouches false false entry.2
    (fun record hr => Grouping.keyed_group _ _ entry hm record hr) (by simp)

theorem xid_of_touch {record : Record} {xid : Nat} {attached : Bool} {touch : Nat × Event}
    (h : record.touch xid attached = some touch) : touch.2.xid = xid := by
  cases record with
  | inode id parentId length =>
      cases h
      rfl
  | fileExtent id extent =>
      cases attached with
      | false => cases h
      | true =>
          cases h
          rfl
  | dirRec id fileId name type =>
      cases h
      rfl
  | other id => cases h

theorem xid_of_mem_groupTouches {xid : Nat} {attached : Bool} {records : List Record}
    {touch : Nat × Event} (h : touch ∈ groupTouches xid attached records) : touch.2.xid = xid := by
  induction records generalizing attached with
  | nil => cases h
  | cons record records ih =>
      rw [groupTouches, List.mem_append, Option.mem_toList] at h
      rcases h with h | h
      · exact xid_of_touch h
      · exact ih h

theorem xid_of_mem_touches {node : Node} {touch : Nat × Event} (h : touch ∈ node.touches) :
    touch.2.xid = node.xid := by
  obtain ⟨entry, -, hm⟩ := List.mem_flatMap.mp h
  exact xid_of_mem_groupTouches hm

end SuperBadBlock
