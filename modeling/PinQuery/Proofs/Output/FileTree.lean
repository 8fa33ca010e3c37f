import PinQuery.Output.FileTree
import PinQuery.Proofs.Text.Split

/-!
# Looking up in file trees

* `FileTree.get?_put` and `FileTree.erase_put`: what stands where after an entry was put into a tree
  or taken out of it again.
* `FileTree.follow_mono` and `FileTree.follow_congr`: names lead to where they led if the
  directories on the way are kept, and names do not notice entries under another name.
* `FileTree.locate` is the path that the names of a path text lead to, and `FileTree.isOccupied`
  tells whether something stands there. Unlike `FileTree.contains`, it does not mind a slash behind
  the name of a file.
* `FileTree.WellFormed` are the trees in which every entry stands in a directory.
-/

namespace PinQuery

namespace FileTree

variable {tree tree' : FileTree}

/-! ## Entries -/

@[simp] theorem get?_nil (tree : FileTree) : tree.get? [] = some .directory := if_pos rfl

theorem get?_put (tree : FileTree) {place : Path} (hplace : place ≠ []) (node : FileNode)
    (path : Path) :
    (tree.put place node).get? path = if path = place then some node else tree.get? path := by
  by_cases hpath : path = []
  · simp [hpath, hplace.symm]
  · simp only [get?, put, if_neg hpath]
    rw [find?_insertBy]
    by_cases hplace' : place = path
    · simp [hplace']
    · simp [hplace', Ne.symm hplace']

/-- The tree without the entry at a path. -/
def erase (tree : FileTree) (path : Path) : FileTree :=
  { tree with
    entries := tree.entries.filter (·.1 != path)
    increasing := tree.increasing.filter _ }

theorem ne_of_get?_eq_none {path : Path} (h : tree.get? path = none) :
    ∀ entry ∈ tree.entries, entry.1 ≠ path := by
  intro entry hentry heq
  unfold get? at h
  split at h
  next => cases h
  next =>
    have hfind := List.find?_eq_none.1 (Option.map_eq_none_iff.1 h) entry hentry
    exact hfind (by simpa using heq)

/-- An entry at a free path can be taken out again. -/
theorem erase_put {path : Path} (h : tree.get? path = none) (node : FileNode) :
    (tree.put path node).erase path = tree := by
  obtain ⟨workingDirectory, entries, increasing⟩ := tree
  have hentries : (insertBy Prod.fst (path, node) entries).filter (·.1 != path) = entries :=
    filter_insertBy (x := (path, node)) (ne_of_get?_eq_none h)
  simp only [erase, put, hentries]

/-! ## Following names -/

/-- Where a name leads from a directory. -/
def descend (path : Path) (name : String) : Except FileFailure Path :=
  if name == "" || name == "." then .ok path
  else if name == ".." then .ok path.dropLast
  else (checkName name).map fun _ => path ++ [name]

theorem enter_of_directory {path : Path} (h : tree.get? path = some .directory) (name : String) :
    tree.enter path name = descend path name := by
  unfold enter
  rw [h]
  rfl

theorem directory_of_enter {path place : Path} {name : String}
    (h : tree.enter path name = .ok place) : tree.get? path = some .directory := by
  unfold enter at h
  split at h
  next => cases h
  next => cases h
  next hget => exact hget

theorem follow_cons (tree : FileTree) (start : Path) (name : String) (names : List String) :
    tree.follow start (name :: names) = (tree.enter start name).bind (tree.follow · names) :=
  List.foldlM_cons

theorem follow_append (tree : FileTree) (start : Path) (names more : List String) :
    tree.follow start (names ++ more) = (tree.follow start names).bind (tree.follow · more) :=
  List.foldlM_append

theorem follow_cons_eq_ok_iff {start place : Path} {name : String} {names : List String} :
    tree.follow start (name :: names) = .ok place ↔
      ∃ next, tree.enter start name = .ok next ∧ tree.follow next names = .ok place := by
  rw [follow_cons]
  cases tree.enter start name with
  | error e => simp [Except.bind]
  | ok next => simp [Except.bind]

theorem follow_append_singleton_eq_ok_iff {start place : Path} {name : String}
    {names : List String} :
    tree.follow start (names ++ [name]) = .ok place ↔
      ∃ directory, tree.follow start names = .ok directory ∧
        tree.enter directory name = .ok place := by
  rw [follow_append]
  cases tree.follow start names with
  | error e => simp [Except.bind]
  | ok directory => simp [Except.bind, follow]

/-- Where directories stay directories, names lead to where they led. -/
theorem follow_mono (hkeep : ∀ path, tree.get? path = some .directory →
      tree'.get? path = some .directory) {start place : Path} {names : List String}
    (h : tree.follow start names = .ok place) : tree'.follow start names = .ok place := by
  induction names generalizing start with
  | nil => exact h
  | cons name names ih =>
    obtain ⟨next, hnext, hrest⟩ := follow_cons_eq_ok_iff.1 h
    have hstart := directory_of_enter hnext
    refine follow_cons_eq_ok_iff.2 ⟨next, ?_, ih hrest⟩
    rw [enter_of_directory (hkeep start hstart), ← enter_of_directory hstart]
    exact hnext

theorem not_mem_of_descend {path place : Path} {name mark : String} (hpath : mark ∉ path)
    (hname : mark ≠ name) (h : descend path name = .ok place) : mark ∉ place := by
  unfold descend at h
  split at h
  next => cases h; exact hpath
  next =>
    split at h
    next =>
      cases h
      exact fun hmem => hpath (List.dropLast_subset _ hmem)
    next =>
      cases hcheck : checkName name with
      | error e => rw [hcheck] at h; cases h
      | ok _ =>
        rw [hcheck] at h
        cases h
        simp [hpath, hname]

/-- Trees that agree off a name are not told apart by paths without it. -/
theorem follow_congr {mark : String}
    (hagree : ∀ path, mark ∉ path → tree'.get? path = tree.get? path) {start : Path}
    (hstart : mark ∉ start) {names : List String} (hnames : mark ∉ names) :
    tree'.follow start names = tree.follow start names ∧
      ∀ place, tree.follow start names = .ok place → mark ∉ place := by
  induction names generalizing start with
  | nil =>
    refine ⟨rfl, ?_⟩
    rintro _ ⟨⟩
    exact hstart
  | cons name names ih =>
    simp only [List.mem_cons, not_or] at hnames
    have henter : tree'.enter start name = tree.enter start name := by
      unfold enter
      rw [hagree start hstart]
    rw [follow_cons, follow_cons, henter]
    cases hnext : tree.enter start name with
    | error e => exact ⟨rfl, by simp [Except.bind]⟩
    | ok next =>
      have hdescend : descend start name = .ok next := by
        rw [← enter_of_directory (directory_of_enter hnext), hnext]
      exact ih (not_mem_of_descend hstart hnames.1 hdescend) hnames.2

/-! ## Names that change nothing -/

theorem follow_filter {start place : Path} {names : List String}
    (h : tree.follow start names = .ok place) :
    tree.follow start (names.filter (· != "")) = .ok place := by
  induction names generalizing start with
  | nil => exact h
  | cons name names ih =>
    obtain ⟨next, hnext, hrest⟩ := follow_cons_eq_ok_iff.1 h
    by_cases hname : name = ""
    · subst hname
      rw [enter_of_directory (directory_of_enter hnext)] at hnext
      cases hnext
      exact ih hrest
    · rw [List.filter_cons_of_pos (by simpa using hname)]
      exact follow_cons_eq_ok_iff.2 ⟨next, hnext, ih hrest⟩

/-- Slashes in a row are one, and slashes at the end are none where they follow a directory. -/
theorem follow_of_filter {start place : Path} {names : List String}
    (h : tree.follow start (names.filter (· != "")) = .ok place)
    (hlast : names.getLast? ≠ some "" ∨ tree.get? place = some .directory) :
    tree.follow start names = .ok place := by
  induction names generalizing start with
  | nil => exact h
  | cons name names ih =>
    have hlast' : names.getLast? ≠ some "" ∨ tree.get? place = some .directory := by
      refine hlast.imp_left fun hne heq => hne ?_
      rw [List.getLast?_cons, heq]
      rfl
    by_cases hname : name = ""
    · subst hname
      -- The directory is entered by the next name, or else it is the place itself.
      have hstart : tree.get? start = some .directory := by
        rw [List.filter_cons_of_neg (by simp)] at h
        cases hnames : names.filter (· != "") with
        | nil =>
          rw [hnames] at h
          cases h
          refine hlast.resolve_left fun hne => hne ?_
          have hall : ∀ name ∈ names, name = "" := by simpa using hnames
          cases hlast : names.getLast? with
          | none => simp [List.getLast?_cons, hlast]
          | some last => simp [List.getLast?_cons, hlast, hall last (List.mem_of_getLast? hlast)]
        | cons next rest =>
          rw [hnames] at h
          obtain ⟨_, hnext, -⟩ := follow_cons_eq_ok_iff.1 h
          exact directory_of_enter hnext
      refine follow_cons_eq_ok_iff.2 ⟨start, ?_, ih h hlast'⟩
      rw [enter_of_directory hstart]
      rfl
    · rw [List.filter_cons_of_pos (by simpa using hname)] at h
      obtain ⟨next, hnext, hrest⟩ := follow_cons_eq_ok_iff.1 h
      exact follow_cons_eq_ok_iff.2 ⟨next, hnext, ih hrest hlast'⟩

theorem getLast?_pathNames {path : String} (h : path ≠ "") :
    (pathNames path).getLast? = some "" ↔ endsInSlash path = true := by
  have hne : path.toList ≠ [] := by simpa using h
  have hempty : ∀ cs : List Char, String.ofList cs = "" ↔ cs = [] := by simp
  simp [pathNames, endsInSlash, ← Text.getLast?_split hne, List.getLast?_map, hempty]

/-- A path text of slashes starts from the root. -/
theorem isAbsolute_of_filter {path : String} (h : path ≠ "")
    (hnames : (pathNames path).filter (· != "") = []) : isAbsolute path = true := by
  have hall : ∀ piece ∈ Text.split '/' path.toList, piece = [] := by
    simpa [pathNames] using hnames
  have hne : path.toList ≠ [] := by simpa using h
  obtain ⟨c, cs, htext⟩ := List.exists_cons_of_ne_nil hne
  by_cases hc : c = '/'
  · simp [isAbsolute, htext, hc]
  · obtain ⟨piece, rest, -, hsplit⟩ := Text.split_cons_of_ne hc cs
    rw [htext, hsplit] at hall
    cases hall (c :: piece) (by simp)

/-! ## What stands at a path text -/

/-- The path that the names of a path text lead to, whatever slashes stand between and behind
them. -/
def locate (tree : FileTree) (path : String) : Except FileFailure Path := do
  checkText path
  tree.follow (tree.startOf path) ((pathNames path).filter (· != ""))

/-- Whether something stands at the names of a path text. -/
def isOccupied (tree : FileTree) (path : String) : Bool :=
  match tree.locate path with
  | .ok place => (tree.get? place).isSome
  | .error _ => false

section

variable {path : String} {place directory : Path}

theorem locate_eq_ok_iff : tree.locate path = .ok place ↔ checkText path = .ok () ∧
    tree.follow (tree.startOf path) ((pathNames path).filter (· != "")) = .ok place := by
  unfold locate
  cases checkText path with
  | error e => simp [bind, Except.bind]
  | ok _ => simp [bind, Except.bind]

theorem resolve_eq_ok_iff : tree.resolve path = .ok place ↔ checkText path = .ok () ∧
    tree.follow (tree.startOf path) (pathNames path) = .ok place := by
  unfold resolve
  cases checkText path with
  | error e => simp [bind, Except.bind]
  | ok _ => simp [bind, Except.bind]

theorem directoryOf_eq_ok_iff : tree.directoryOf path = .ok directory ↔ checkText path = .ok () ∧
    tree.follow (tree.startOf path) ((pathNames path).filter (· != "")).dropLast = .ok directory ∧
    tree.get? directory = some .directory := by
  unfold directoryOf
  dsimp only
  cases checkText path with
  | error e => simp [bind, Except.bind]
  | ok _ =>
    cases tree.follow (tree.startOf path) ((pathNames path).filter (· != "")).dropLast with
    | error e => simp [bind, Except.bind]
    | ok last =>
      simp only [bind, Except.bind, Except.ok.injEq, true_and]
      constructor
      · intro h
        have hlast := directory_of_enter h
        rw [enter_of_directory hlast] at h
        cases h
        exact ⟨rfl, hlast⟩
      · rintro ⟨rfl, hlast⟩
        rw [enter_of_directory hlast]
        rfl

theorem ne_empty_of_checkText (h : checkText path = .ok ()) : path ≠ "" := by
  rintro rfl
  cases h

theorem locate_of_resolve (h : tree.resolve path = .ok place) : tree.locate path = .ok place := by
  obtain ⟨htext, hfollow⟩ := resolve_eq_ok_iff.1 h
  exact locate_eq_ok_iff.2 ⟨htext, follow_filter hfollow⟩

theorem resolve_of_locate (h : tree.locate path = .ok place)
    (hslash : endsInSlash path = false ∨ tree.get? place = some .directory) :
    tree.resolve path = .ok place := by
  obtain ⟨htext, hfollow⟩ := locate_eq_ok_iff.1 h
  refine resolve_eq_ok_iff.2 ⟨htext, follow_of_filter hfollow (hslash.imp_left fun hslash => ?_)⟩
  rw [ne_eq, getLast?_pathNames (ne_empty_of_checkText htext), hslash]
  simp

/-- A path text with names leads where the last name leads from the directory of the text. -/
theorem locate_of_lastName? {name : String} (h : lastName? path = some name) :
    tree.locate path = .ok place ↔
      ∃ directory, tree.directoryOf path = .ok directory ∧ descend directory name = .ok place := by
  have hnames : (pathNames path).filter (· != "") =
      ((pathNames path).filter (· != "")).dropLast ++ [name] := by
    obtain ⟨names, hnames⟩ := List.getLast?_eq_some_iff.1 h
    rw [hnames, List.dropLast_concat]
  rw [locate_eq_ok_iff, hnames, follow_append_singleton_eq_ok_iff]
  constructor
  · rintro ⟨htext, directory, hfollow, henter⟩
    have hdirectory := directory_of_enter henter
    rw [enter_of_directory hdirectory] at henter
    exact ⟨directory, directoryOf_eq_ok_iff.2 ⟨htext, hfollow, hdirectory⟩, henter⟩
  · rintro ⟨directory, hdirectory, hdescend⟩
    obtain ⟨htext, hfollow, hdirectory⟩ := directoryOf_eq_ok_iff.1 hdirectory
    refine ⟨htext, directory, hfollow, ?_⟩
    rw [enter_of_directory hdirectory]
    exact hdescend

/-- A path text without names leads to the root. -/
theorem locate_of_lastName?_eq_none (h : lastName? path = none) (htext : checkText path = .ok ()) :
    tree.locate path = .ok [] := by
  have hnames : (pathNames path).filter (· != "") = [] := List.getLast?_eq_none_iff.1 h
  have habsolute := isAbsolute_of_filter (ne_empty_of_checkText htext) hnames
  refine locate_eq_ok_iff.2 ⟨htext, ?_⟩
  rw [hnames, startOf, if_pos habsolute]
  rfl

theorem node_eq_ok_iff {node : FileNode} : tree.node path = .ok node ↔
    ∃ place, tree.resolve path = .ok place ∧ tree.get? place = some node := by
  unfold FileTree.node
  cases tree.resolve path with
  | error e => simp [bind, Except.bind]
  | ok place =>
    simp only [bind, Except.bind, Except.ok.injEq, exists_eq_left']
    cases tree.get? place with
    | none => simp
    | some node => simp

theorem contains_eq_true_iff : tree.contains path = true ↔
    ∃ place node, tree.resolve path = .ok place ∧ tree.get? place = some node := by
  unfold contains
  cases hnode : tree.node path with
  | error e =>
    refine iff_of_false (by simp [Except.isOk, Except.toBool]) ?_
    rintro ⟨place, node, h⟩
    rw [node_eq_ok_iff.2 ⟨place, h⟩] at hnode
    cases hnode
  | ok node =>
    obtain ⟨place, h⟩ := node_eq_ok_iff.1 hnode
    exact iff_of_true rfl ⟨place, node, h⟩

theorem isOccupied_eq_true_iff : tree.isOccupied path = true ↔
    ∃ place node, tree.locate path = .ok place ∧ tree.get? place = some node := by
  unfold isOccupied
  cases tree.locate path with
  | error e => simp
  | ok place => simp [Option.isSome_iff_exists]

theorem isOccupied_of_contains (h : tree.contains path = true) : tree.isOccupied path = true := by
  obtain ⟨place, node, hresolve, hget⟩ := contains_eq_true_iff.1 h
  exact isOccupied_eq_true_iff.2 ⟨place, node, locate_of_resolve hresolve, hget⟩

/-- Only behind a slash a look-up misses what stands at a path text. -/
theorem endsInSlash_of_isOccupied (h : tree.isOccupied path = true)
    (hcontains : tree.contains path = false) : endsInSlash path = true := by
  obtain ⟨place, node, hlocate, hget⟩ := isOccupied_eq_true_iff.1 h
  cases hslash : endsInSlash path with
  | true => rfl
  | false =>
    have hresolve := resolve_of_locate hlocate (.inl hslash)
    rw [contains_eq_true_iff.2 ⟨place, node, hresolve, hget⟩] at hcontains
    cases hcontains

end

/-! ## Well-formed trees -/

/-- Every entry stands in a directory. -/
def WellFormed (tree : FileTree) : Prop :=
  ∀ entry ∈ tree.entries, tree.get? entry.1.dropLast = some .directory

theorem wellFormed_iff : tree.WellFormed ↔ ∀ path node, tree.get? path = some node →
    tree.get? path.dropLast = some .directory := by
  constructor
  · intro h path node hget
    unfold get? at hget
    split at hget
    next hpath => simp [hpath]
    next =>
      obtain ⟨entry, hfind, -⟩ := Option.map_eq_some_iff.1 hget
      have hentry : entry.1 = path := by simpa using List.find?_some hfind
      rw [← hentry]
      exact h entry (List.mem_of_find?_eq_some hfind)
  · intro h entry hentry
    cases hget : tree.get? entry.1 with
    | none => exact absurd rfl (ne_of_get?_eq_none hget entry hentry)
    | some node => exact h _ node hget

end FileTree

end PinQuery
