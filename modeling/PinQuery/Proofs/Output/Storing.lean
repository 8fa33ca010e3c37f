import PinQuery.Proofs.Output.FileTree

/-!
# Storing files

* `FileTree.Admits` says where the file of a path text may be put; a file is moved to such places
  only (`FileTree.admits_of_movePath`).
* `FileTree.isOccupied_of_movePath` and `FileTree.movePath_of_isOccupied`: what is in the way of a
  file that replaces nothing is what stands at its path text.
* `FileTree.storeInSteps` stores a file as it is done step by step: a draft is made and filled, then
  moved, and taken away again if it cannot be moved. It answers as `FileTree.store` does and leaves
  the same tree, so no draft is left behind (`FileTree.storeInSteps_eq`).
-/

namespace PinQuery

namespace FileTree

variable {tree tree' : FileTree}

/-! ## Places for files -/

/-- The place to which the file of a path text is moved from its draft. -/
def movePath (tree : FileTree) (path : String) (replace : Bool) : Except StoreFailure Path := do
  let directory ← (tree.directoryOf path).mapError .failed
  match (lastName? path).filter isEntryName with
  | none => .error (if replace then .failed .busy else .exists_)
  | some name => tree.place directory name (endsInSlash path) replace

/-- Storing is drafting and moving. -/
theorem storePath_eq (tree : FileTree) (path : String) (replace : Bool) :
    tree.storePath path replace =
      ((tree.resolve (tree.draftText path)).mapError .failed).bind fun _ =>
        tree.movePath path replace :=
  rfl

/-- A path where the file of a path text may be put: it is where the names of the text lead, it
stands in a directory, and nothing stands there but a file that may be replaced. -/
structure Admits (tree : FileTree) (path : String) (replace : Bool) (place : Path) : Prop where
  locate : tree.locate path = .ok place
  slash : endsInSlash path = false
  ne_nil : place ≠ []
  directory : tree.get? place.dropLast = some .directory
  free : tree.get? place = none ∨ replace = true ∧ ∃ bytes, tree.get? place = some (.file bytes)

section

variable {path name : String} {directory place : Path} {slash replace : Bool}

theorem place_eq_ok (h : tree.place directory name slash replace = .ok place) :
    checkName name = .ok () ∧ slash = false ∧ place = directory ++ [name] ∧
      (tree.get? place = none ∨
        replace = true ∧ ∃ bytes, tree.get? place = some (.file bytes)) := by
  unfold FileTree.place at h
  split at h
  next => cases h
  next hname hget =>
    split at h
    next => cases h
    next hslash =>
      cases h
      exact ⟨hname, by simpa using hslash, rfl, .inl hget⟩
  next node hname hget =>
    split at h
    next => cases h
    next hreplace =>
      split at h
      next => cases h
      next hslash =>
        cases node with
        | directory => cases h
        | file bytes =>
          cases h
          exact ⟨hname, by simpa using hslash, rfl, .inr ⟨by simpa using hreplace, bytes, hget⟩⟩

theorem place_eq_exists (h : tree.place directory name slash replace = .error .exists_) :
    checkName name = .ok () ∧ replace = false ∧
      ∃ node, tree.get? (directory ++ [name]) = some node := by
  unfold FileTree.place at h
  split at h
  next => cases h
  next => split at h <;> cases h
  next node hname hget =>
    split at h
    next hreplace => exact ⟨hname, by simpa using hreplace, node, hget⟩
    next =>
      split at h
      next => cases h
      next => cases node <;> cases h

theorem place_of_get? {node : FileNode} (hname : checkName name = .ok ())
    (hget : tree.get? (directory ++ [name]) = some node) :
    tree.place directory name slash false = .error .exists_ := by
  unfold FileTree.place
  rw [hname, hget]
  rfl

theorem lastName?_ne_empty (h : lastName? path = some name) : name ≠ "" := by
  have hmem := List.mem_of_getLast? h
  simpa using (List.mem_filter.1 hmem).2

theorem descend_eq_ok_iff (hne : name ≠ "") (hentry : isEntryName name = true) :
    descend directory name = .ok place ↔ checkName name = .ok () ∧ place = directory ++ [name] := by
  have hdots : name ≠ "." ∧ name ≠ ".." := by simpa [isEntryName] using hentry
  cases hname : checkName name with
  | error failure => simp [descend, hne, hdots, hname, Except.map]
  | ok _ => simp [descend, hne, hdots, hname, Except.map, eq_comm (a := place)]

/-- A dot leads to the directory itself, and two lead to the one above. -/
theorem exists_descend_of_dots (htree : tree.WellFormed) (hentry : isEntryName name = false)
    (hdirectory : tree.get? directory = some .directory) :
    ∃ place, descend directory name = .ok place ∧ tree.get? place = some .directory := by
  by_cases hdot : name = "."
  · exact ⟨directory, by simp [descend, hdot], hdirectory⟩
  · have hdots : name = ".." := by simpa [isEntryName, hdot] using hentry
    exact ⟨directory.dropLast, by simp [descend, hdots],
      wellFormed_iff.1 htree directory .directory hdirectory⟩

theorem movePath_of_directoryOf (h : tree.directoryOf path = .ok directory) :
    tree.movePath path replace =
      match (lastName? path).filter isEntryName with
      | none => .error (if replace then .failed .busy else .exists_)
      | some name => tree.place directory name (endsInSlash path) replace := by
  unfold movePath
  rw [h]
  rfl

theorem exists_directoryOf (h : ∀ failure, tree.movePath path replace ≠ .error (.failed failure)) :
    ∃ directory, tree.directoryOf path = .ok directory := by
  cases hdirectory : tree.directoryOf path with
  | error failure =>
    refine absurd ?_ (h failure)
    unfold movePath
    rw [hdirectory]
    rfl
  | ok directory => exact ⟨directory, rfl⟩

/-- A file is moved to places that admit it only. -/
theorem admits_of_movePath (h : tree.movePath path replace = .ok place) :
    tree.Admits path replace place := by
  have hfailed : ∀ failure, tree.movePath path replace ≠ .error (.failed failure) := by simp [h]
  obtain ⟨directory, hdirectory⟩ := exists_directoryOf hfailed
  rw [movePath_of_directoryOf hdirectory] at h
  split at h
  next => cases h
  next name hname =>
    obtain ⟨hlast, hentry⟩ := Option.filter_eq_some_iff.1 hname
    obtain ⟨hcheck, hslash, rfl, hfree⟩ := place_eq_ok h
    have hlocate := (locate_of_lastName? hlast).2 ⟨directory, hdirectory,
      (descend_eq_ok_iff (lastName?_ne_empty hlast) hentry).2 ⟨hcheck, rfl⟩⟩
    refine ⟨hlocate, hslash, by simp, ?_, hfree⟩
    rw [List.dropLast_concat]
    exact (directoryOf_eq_ok_iff.1 hdirectory).2.2

/-- Where something is in the way, something stands at the path text. -/
theorem isOccupied_of_movePath (htree : tree.WellFormed)
    (h : tree.movePath path replace = .error .exists_) : tree.isOccupied path = true := by
  have hfailed : ∀ failure, tree.movePath path replace ≠ .error (.failed failure) := by simp [h]
  obtain ⟨directory, hdirectory⟩ := exists_directoryOf hfailed
  obtain ⟨htext, -, hget⟩ := directoryOf_eq_ok_iff.1 hdirectory
  rw [movePath_of_directoryOf hdirectory] at h
  refine isOccupied_eq_true_iff.2 ?_
  cases hlast : lastName? path with
  | none => exact ⟨[], .directory, locate_of_lastName?_eq_none hlast htext, by simp⟩
  | some name =>
    cases hentry : isEntryName name with
    | false =>
      obtain ⟨place, hdescend, hplace⟩ := exists_descend_of_dots htree hentry hget
      exact ⟨place, .directory, (locate_of_lastName? hlast).2 ⟨directory, hdirectory, hdescend⟩,
        hplace⟩
    | true =>
      simp only [hlast, Option.filter_some, hentry, if_true] at h
      obtain ⟨hcheck, -, node, hnode⟩ := place_eq_exists h
      have hdescend : descend directory name = .ok (directory ++ [name]) :=
        (descend_eq_ok_iff (lastName?_ne_empty hlast) hentry).2 ⟨hcheck, rfl⟩
      exact ⟨_, node, (locate_of_lastName? hlast).2 ⟨directory, hdirectory, hdescend⟩, hnode⟩

/-- What stands at a path text is in the way, unless a look-up finds it at once. -/
theorem movePath_of_isOccupied (htree : tree.WellFormed) (h : tree.isOccupied path = true)
    (hcontains : tree.contains path = false) : tree.movePath path false = .error .exists_ := by
  obtain ⟨place, node, hlocate, hget⟩ := isOccupied_eq_true_iff.1 h
  have hfile : tree.get? place ≠ some .directory := fun hplace => by
    have hresolve := resolve_of_locate hlocate (.inr hplace)
    rw [contains_eq_true_iff.2 ⟨place, node, hresolve, hget⟩] at hcontains
    cases hcontains
  cases hlast : lastName? path with
  | none =>
    obtain ⟨htext, -⟩ := locate_eq_ok_iff.1 hlocate
    rw [locate_of_lastName?_eq_none hlast htext] at hlocate
    cases hlocate
    exact absurd (get?_nil tree) hfile
  | some name =>
    obtain ⟨directory, hdirectory, hdescend⟩ := (locate_of_lastName? hlast).1 hlocate
    cases hentry : isEntryName name with
    | false =>
      obtain ⟨_, -, hdirectory'⟩ := directoryOf_eq_ok_iff.1 hdirectory
      obtain ⟨place', hdescend', hplace'⟩ := exists_descend_of_dots htree hentry hdirectory'
      rw [hdescend'] at hdescend
      cases hdescend
      exact absurd hplace' hfile
    | true =>
      obtain ⟨hcheck, rfl⟩ := (descend_eq_ok_iff (lastName?_ne_empty hlast) hentry).1 hdescend
      rw [movePath_of_directoryOf hdirectory]
      simp only [hlast, Option.filter_some, hentry, if_true]
      exact place_of_get? hcheck hget

theorem movePath_true_ne_exists : tree.movePath path true ≠ .error .exists_ := by
  intro h
  have hfailed : ∀ failure, tree.movePath path true ≠ .error (.failed failure) := by simp [h]
  obtain ⟨directory, hdirectory⟩ := exists_directoryOf hfailed
  rw [movePath_of_directoryOf hdirectory] at h
  split at h
  next => cases h
  next => cases (place_eq_exists h).2.1

end

/-! ## Storing -/

/-- Drafts can be made wherever the directory of a path text is there. -/
def DraftsIn (tree : FileTree) (path : String) : Prop :=
  ∀ directory, tree.directoryOf path = .ok directory →
    ∃ draft, tree.resolve (tree.draftText path) = .ok draft

section

variable {path : String} {replace : Bool} {place : Path}

theorem movePath_of_storePath {result : Except StoreFailure Path}
    (h : tree.storePath path replace = result)
    (hfailed : ∀ failure, result ≠ .error (.failed failure)) :
    tree.movePath path replace = result := by
  rw [storePath_eq] at h
  cases hdraft : tree.resolve (tree.draftText path) with
  | error failure =>
    rw [hdraft] at h
    exact absurd h.symm (hfailed failure)
  | ok draft =>
    rw [hdraft] at h
    exact h

theorem admits_of_storePath (h : tree.storePath path replace = .ok place) :
    tree.Admits path replace place :=
  admits_of_movePath (movePath_of_storePath h (by simp))

/-- Only a file that replaces nothing is refused for what is in its way. -/
theorem isOccupied_of_storePath (htree : tree.WellFormed)
    (h : tree.storePath path replace = .error .exists_) :
    replace = false ∧ tree.isOccupied path = true := by
  have hmove := movePath_of_storePath h (by simp)
  refine ⟨?_, isOccupied_of_movePath htree hmove⟩
  cases replace with
  | false => rfl
  | true => exact absurd hmove movePath_true_ne_exists

/-- What stands at a path text is in the way of a file that replaces nothing. -/
theorem storePath_of_isOccupied (htree : tree.WellFormed)
    (hdrafts : endsInSlash path = true → tree.DraftsIn path) (h : tree.isOccupied path = true)
    (hcontains : tree.contains path = false) : tree.storePath path false = .error .exists_ := by
  have hmove := movePath_of_isOccupied htree h hcontains
  have hfailed : ∀ failure, tree.movePath path false ≠ .error (.failed failure) := by simp [hmove]
  obtain ⟨directory, hdirectory⟩ := exists_directoryOf hfailed
  obtain ⟨draft, hdraft⟩ := hdrafts (endsInSlash_of_isOccupied h hcontains) directory hdirectory
  rw [storePath_eq, hdraft]
  exact hmove

theorem exists_admits_of_store {bytes : ByteArray}
    (h : tree.store path bytes replace = .ok tree') :
    ∃ place, tree.Admits path replace place ∧ tree' = tree.put place (.file bytes) := by
  unfold store at h
  cases hplace : tree.storePath path replace with
  | error failure => rw [hplace] at h; cases h
  | ok place =>
    rw [hplace] at h
    cases h
    exact ⟨place, admits_of_storePath hplace, rfl⟩

end

namespace Admits

variable {path : String} {replace : Bool} {place : Path}

theorem not_directory (h : tree.Admits path replace place) : tree.get? place ≠ some .directory := by
  rcases h.free with hnone | ⟨-, bytes, hfile⟩
  · simp [hnone]
  · simp [hfile]

theorem get?_eq_none (h : tree.Admits path false place) : tree.get? place = none := by
  simpa using h.free

theorem isOccupied_eq_false (h : tree.Admits path false place) : tree.isOccupied path = false := by
  rw [isOccupied, h.locate]
  simp [h.get?_eq_none]

/-- Storing a file that replaces nothing keeps every entry. -/
theorem get?_put_of_some (h : tree.Admits path false place) (node : FileNode) {other : Path}
    {node' : FileNode} (hother : tree.get? other = some node') :
    (tree.put place node).get? other = some node' := by
  rw [get?_put tree h.ne_nil, if_neg]
  · exact hother
  · rintro rfl
    rw [h.get?_eq_none] at hother
    cases hother

/-- Storing a file keeps the directories. -/
theorem directory_put (h : tree.Admits path replace place) (node : FileNode) {other : Path}
    (hother : tree.get? other = some .directory) :
    (tree.put place node).get? other = some .directory := by
  have hne : other ≠ place := fun heq => h.not_directory (heq ▸ hother)
  rw [get?_put tree h.ne_nil, if_neg hne]
  exact hother

/-- The stored file stands at the path text. -/
theorem node_put (h : tree.Admits path replace place) (node : FileNode) :
    (tree.put place node).node path = .ok node := by
  obtain ⟨htext, hfollow⟩ := resolve_eq_ok_iff.1 (resolve_of_locate h.locate (.inl h.slash))
  refine node_eq_ok_iff.2 ⟨place, resolve_eq_ok_iff.2 ⟨htext, ?_⟩, ?_⟩
  · exact follow_mono (fun other => h.directory_put node) hfollow
  · rw [get?_put tree h.ne_nil, if_pos rfl]

theorem wellFormed_put (h : tree.Admits path replace place) (htree : tree.WellFormed)
    (node : FileNode) : (tree.put place node).WellFormed := by
  rw [wellFormed_iff] at htree ⊢
  intro other node' hother
  refine h.directory_put node ?_
  rw [get?_put tree h.ne_nil] at hother
  split at hother
  next heq => rw [heq]; exact h.directory
  next => exact htree other node' hother

end Admits

/-! ## Storing step by step -/

/-- The path of a draft with a given name for the file of a path text. -/
def draftPath (tree : FileTree) (path name : String) : Except FileFailure Path :=
  (tree.resolve (tree.draftText path)).map fun place => place.dropLast ++ [name]

/-- The tree with an entry moved to a path text. -/
def move (tree : FileTree) (source : Path) (path : String) (replace : Bool) :
    Except StoreFailure FileTree :=
  match tree.get? source with
  | none => .error (.failed .notFound)
  | some node => (tree.movePath path replace).map fun place => (tree.erase source).put place node

/-- Storing a file step by step, and the tree that is left: an empty draft is made, filled and moved
to the path text. A draft that cannot be moved is taken away. -/
def storeInSteps (tree : FileTree) (path : String) (bytes : ByteArray) (replace : Bool)
    (name : String) : Except StoreFailure Unit × FileTree :=
  match tree.draftPath path name with
  | .error failure => (.error (.failed failure), tree)
  | .ok draft =>
    let made := tree.put draft (.file .empty)
    let filled := made.put draft (.file bytes)
    match filled.move draft path replace with
    | .error failure => (.error failure, filled.erase draft)
    | .ok moved => (.ok (), moved)

/-- A name for a draft that is on no way to the path text, and under which nothing stands where the
draft is made. -/
structure IsFreshName (tree : FileTree) (path name : String) : Prop where
  not_mem_pathNames : name ∉ pathNames path
  not_mem_workingDirectory : name ∉ tree.workingDirectory
  free : ∀ draft, tree.draftPath path name = .ok draft → tree.get? draft = none

section

variable {path mark : String} {replace : Bool}

theorem put_put (tree : FileTree) (place : Path) (node node' : FileNode) :
    (tree.put place node).put place node' = tree.put place node' := by
  simp only [put, insertBy_insertBy]

/-- Trees that agree off a name have the same directory for a path text without it. -/
theorem directoryOf_congr (hagree : ∀ path, mark ∉ path → tree'.get? path = tree.get? path)
    (hworking : tree'.workingDirectory = tree.workingDirectory)
    (hmark : mark ∉ tree.workingDirectory) (hnames : mark ∉ pathNames path) :
    tree'.directoryOf path = tree.directoryOf path ∧
      ∀ directory, tree.directoryOf path = .ok directory → mark ∉ directory := by
  have hstart : tree'.startOf path = tree.startOf path := by rw [startOf, startOf, hworking]
  have hmark' : mark ∉ tree.startOf path := by
    unfold startOf
    split
    next => simp
    next => exact hmark
  have hnames' : mark ∉ ((pathNames path).filter (· != "")).dropLast :=
    fun hmem => hnames (List.mem_filter.1 (List.dropLast_subset _ hmem)).1
  obtain ⟨hfollow, hplace⟩ := follow_congr hagree hmark' hnames'
  constructor
  · unfold directoryOf
    dsimp only
    rw [hstart, hfollow]
    cases checkText path with
    | error e => rfl
    | ok _ =>
      cases hlast :
          tree.follow (tree.startOf path) ((pathNames path).filter (· != "")).dropLast with
      | error e => rfl
      | ok last =>
        simp only [bind, Except.bind, enter, hagree last (hplace last hlast)]
  · intro directory hdirectory
    obtain ⟨-, hlast, -⟩ := directoryOf_eq_ok_iff.1 hdirectory
    exact hplace directory hlast

/-- Trees that agree off a name are not told apart when a file is moved to a path text without
it. -/
theorem movePath_congr (hagree : ∀ path, mark ∉ path → tree'.get? path = tree.get? path)
    (hworking : tree'.workingDirectory = tree.workingDirectory)
    (hmark : mark ∉ tree.workingDirectory) (hnames : mark ∉ pathNames path) :
    tree'.movePath path replace = tree.movePath path replace := by
  obtain ⟨hsame, hmem⟩ := directoryOf_congr hagree hworking hmark hnames
  unfold movePath
  rw [hsame]
  cases hdirectory : tree.directoryOf path with
  | error e => rfl
  | ok directory =>
    cases hname : (lastName? path).filter isEntryName with
    | none => rfl
    | some name =>
      have hlast := (Option.filter_eq_some_iff.1 hname).1
      have hne : mark ≠ name := by
        rintro rfl
        exact hnames (List.mem_filter.1 (List.mem_of_getLast? hlast)).1
      have hplace : mark ∉ directory ++ [name] := by simp [hmem directory hdirectory, hne]
      change tree'.place directory name _ _ = tree.place directory name _ _
      unfold FileTree.place
      rw [hagree _ hplace]

/-- **Storing a file step by step leaves nothing but the file behind**: the answer and the tree are
those of storing it in one step. -/
theorem storeInSteps_eq {name : String} (hname : tree.IsFreshName path name) (bytes : ByteArray)
    (replace : Bool) :
    tree.storeInSteps path bytes replace name =
      ((tree.store path bytes replace).map fun _ => (),
        (tree.store path bytes replace).toOption.getD tree) := by
  unfold storeInSteps store
  rw [storePath_eq]
  have hfree := hname.free
  unfold draftPath at hfree ⊢
  cases hdraft : tree.resolve (tree.draftText path) with
  | error failure => rfl
  | ok place =>
    rw [hdraft] at hfree
    have hfree : tree.get? (place.dropLast ++ [name]) = none := hfree _ rfl
    simp only [Except.map, put_put]
    generalize hdraft' : place.dropLast ++ [name] = draft at hfree
    have hne : draft ≠ [] := by simp [← hdraft']
    have hget : (tree.put draft (.file bytes)).get? draft = some (.file bytes) := by
      rw [get?_put tree hne, if_pos rfl]
    -- The way to the path text does not lead past the draft.
    have hmove : (tree.put draft (.file bytes)).movePath path replace =
        tree.movePath path replace := by
      refine movePath_congr (fun other hother => ?_) rfl hname.not_mem_workingDirectory
        hname.not_mem_pathNames
      rw [get?_put tree hne, if_neg]
      rintro rfl
      exact hother (by simp [← hdraft'])
    simp only [move, hget, hmove, erase_put hfree]
    cases tree.movePath path replace with
    | error failure => rfl
    | ok place' => rfl

end

end FileTree

end PinQuery
