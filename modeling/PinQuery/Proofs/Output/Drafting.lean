import Mathlib.Data.List.DropRight
import PinQuery.Proofs.Output.Storing

/-!
# Where drafts are made

The file of a path text is drafted in the directory of the text, and the path of the draft is
written out from the root. In a tree that is grounded this leads to the directory in which the last
name of the path text is looked up, so there is a place for the draft whenever its text is not too
long.

* `FileTree.Grounded`: the working directory is there and can be written out.
* `FileTree.essential` are the names of a path text that lead anywhere.
  `FileTree.follow_essential_iff`: on the way to a directory the others do nothing.
* `FileTree.essential_draftNames`: the directory of a draft has the essential names of the path text
  but the last.
* `FileTree.Grounded.resolve_draftText`: where drafts are made.
-/

namespace PinQuery

namespace FileTree

variable {tree : FileTree}

/-! ## Names that lead anywhere -/

/-- A name that changes nothing. -/
def isIdle (name : String) : Bool := name == "" || name == "."

/-- The names that lead anywhere. -/
def essential (names : List String) : List String := names.filter (!isIdle ·)

@[simp] theorem essential_append (names more : List String) :
    essential (names ++ more) = essential names ++ essential more :=
  List.filter_append ..

theorem enter_of_isIdle {name : String} {path : Path} (hname : isIdle name = true)
    (hpath : tree.get? path = some .directory) : tree.enter path name = .ok path := by
  rw [enter_of_directory hpath, descend, if_pos]
  simpa [isIdle] using hname

theorem directory_of_follow {start place : Path} {names : List String}
    (h : tree.follow start names = .ok place) (hplace : tree.get? place = some .directory) :
    tree.get? start = some .directory := by
  cases names with
  | nil =>
    cases h
    exact hplace
  | cons name names =>
    obtain ⟨next, hnext, -⟩ := follow_cons_eq_ok_iff.1 h
    exact directory_of_enter hnext

/-- **On the way to a directory only the essential names count.** -/
theorem follow_essential_iff {start place : Path} {names : List String}
    (hplace : tree.get? place = some .directory) :
    tree.follow start (essential names) = .ok place ↔ tree.follow start names = .ok place := by
  induction names generalizing start with
  | nil => rfl
  | cons name names ih =>
    cases hname : isIdle name with
    | true =>
      have hessential : essential (name :: names) = essential names := by
        simp [essential, hname]
      rw [hessential, follow_cons_eq_ok_iff, ih]
      constructor
      · intro h
        exact ⟨start, enter_of_isIdle hname (directory_of_follow h hplace), h⟩
      · rintro ⟨next, hnext, h⟩
        rw [enter_of_isIdle hname (directory_of_enter hnext)] at hnext
        cases hnext
        exact h
    | false =>
      have hessential : essential (name :: names) = name :: essential names := by
        simp [essential, hname]
      simp only [hessential, follow_cons_eq_ok_iff, ih]

/-! ## The directory of a draft -/

theorem trimIdle_cons (first : String) (rest : List String) :
    trimIdle (first :: rest) =
      if rest.rdropWhile isIdle = [] then if first = "" then [] else [first]
      else first :: rest.rdropWhile isIdle := by
  have hdrop : (rest.reverse.dropWhile fun name => name == "" || name == ".").reverse =
      rest.rdropWhile isIdle := rfl
  rw [trimIdle, hdrop]
  cases rest.rdropWhile isIdle with
  | nil => simp
  | cons next kept => simp

theorem essential_rdropWhile (names : List String) :
    essential (names.rdropWhile isIdle) = essential names := by
  induction names using List.reverseRecOn with
  | nil => rfl
  | append_singleton names last ih =>
    rw [List.rdropWhile_concat]
    split
    next hlast =>
      rw [ih, essential_append]
      simp [essential, hlast]
    next => rfl

theorem essential_trimIdle (names : List String) : essential (trimIdle names) = essential names := by
  cases names with
  | nil => rfl
  | cons first rest =>
    have hrest := essential_rdropWhile rest
    have hcons (names : List String) : essential (first :: names) =
        essential [first] ++ essential names :=
      essential_append [first] names
    rw [trimIdle_cons, hcons, ← hrest]
    split
    next hnil =>
      rw [hnil]
      by_cases hfirst : first = "" <;> simp [hfirst, essential, isIdle]
    next => rw [hcons]

theorem isPrefix_trimIdle (names : List String) : trimIdle names <+: names := by
  cases names with
  | nil => exact List.prefix_refl _
  | cons first rest =>
    rw [trimIdle_cons]
    split
    next =>
      split
      next => exact List.nil_prefix
      next => exact List.prefix_append [first] rest
    next =>
      have hinitial : rest.rdropWhile isIdle <+: rest := List.rdropWhile_prefix _ _
      exact (List.prefix_cons_inj first).2 hinitial

theorem trimIdle_ne_singleton_empty (names : List String) : trimIdle names ≠ [""] := by
  cases names with
  | nil => simp [trimIdle]
  | cons first rest =>
    rw [trimIdle_cons]
    split
    next => split <;> simp_all
    next hne => simp [hne]

/-- Only a name that opens the text is left at the end though it changes nothing. -/
theorem eq_nil_of_trimIdle {names before : List String} {last : String}
    (h : trimIdle names = before ++ [last]) (hlast : isIdle last = true) : before = [] := by
  cases names with
  | nil => simp [trimIdle] at h
  | cons first rest =>
    rw [trimIdle_cons] at h
    split at h
    next =>
      have hlength := congrArg List.length h
      split at hlength
      next => simp at hlength
      next => simpa using hlength
    next hne =>
      have hkept := congrArg List.getLast? h
      rw [List.getLast?_cons, List.getLast?_eq_some_getLast hne, List.getLast?_concat] at hkept
      have hkept : (rest.rdropWhile isIdle).getLast hne = last := Option.some.inj hkept
      exact absurd (hkept ▸ hlast) (List.rdropWhile_last_not isIdle rest hne)

/-- **A draft is made where the names of the path text lead but for the last.** -/
theorem essential_draftNames {path name : String} (h : lastName? path = some name)
    (hentry : isEntryName name = true) :
    essential (trimIdle (trimIdle (pathNames path)).dropLast) =
      essential ((pathNames path).filter (· != "")).dropLast := by
  obtain ⟨before, hnames⟩ := List.getLast?_eq_some_iff.1 h
  have hname : isIdle name = false := by
    have hne := lastName?_ne_empty h
    have hdots : name ≠ "." ∧ name ≠ ".." := by simpa [isEntryName] using hentry
    simp [isIdle, hne, hdots]
  have hessential : essential (trimIdle (pathNames path)) = essential before ++ [name] := by
    have hfilter : essential (pathNames path) = essential ((pathNames path).filter (· != "")) := by
      rw [essential, essential, List.filter_filter]
      refine List.filter_congr fun other _ => ?_
      by_cases hother : other = "" <;> simp [isIdle, hother]
    rw [essential_trimIdle, hfilter, hnames, essential_append]
    simp [essential, hname]
  rw [essential_trimIdle, hnames, List.dropLast_concat]
  rcases List.eq_nil_or_concat (trimIdle (pathNames path)) with hnil | ⟨kept, last, hkept⟩
  · rw [hnil] at hessential
    simp [essential] at hessential
  · rw [List.concat_eq_append] at hkept
    have hlast : isIdle last = false := by
      by_contra hidle
      rw [Bool.not_eq_false] at hidle
      rw [hkept, eq_nil_of_trimIdle hkept hidle] at hessential
      simp [essential, hidle] at hessential
    rw [hkept, essential_append] at hessential
    rw [hkept, List.dropLast_concat]
    refine (List.append_inj' hessential ?_).1
    simp [essential, hlast]

/-! ## Texts of paths -/

theorem pathNames_append_slash (text text' : String) :
    pathNames (text ++ "/" ++ text') = pathNames text ++ pathNames text' := by
  simp [pathNames, ← List.map_append, ← Text.split_append]

theorem pathNames_of_not_mem {name : String} (h : '/' ∉ name.toList) : pathNames name = [name] := by
  simp [pathNames, Text.split_of_not_mem h]

theorem not_mem_of_mem_pathNames {path name : String} (h : name ∈ pathNames path) :
    '/' ∉ name.toList ∧ ∀ c ∈ name.toList, c ∈ path.toList := by
  obtain ⟨piece, hpiece, rfl⟩ := List.mem_map.1 h
  simpa using Text.not_mem_of_mem_split hpiece

theorem pathNames_intercalate {names : List String} (hne : names ≠ [])
    (h : ∀ name ∈ names, '/' ∉ name.toList) : pathNames ("/".intercalate names) = names := by
  induction names with
  | nil => exact absurd rfl hne
  | cons name names ih =>
    have hname := pathNames_of_not_mem (h name (by simp))
    by_cases hnil : names = []
    · subst hnil
      rw [String.intercalate_singleton]
      exact hname
    · rw [String.intercalate_cons_of_ne_nil hnil, pathNames_append_slash, hname,
        ih hnil fun other hother => h other (by simp [hother])]
      rfl

/-- A text starts from the root where its first name is empty. -/
theorem isAbsolute_iff {path : String} (h : path ≠ "") :
    isAbsolute path = true ↔ (pathNames path).head? = some "" := by
  have hne : path.toList ≠ [] := by simpa using h
  obtain ⟨c, cs, htext⟩ := List.exists_cons_of_ne_nil hne
  by_cases hc : c = '/'
  · simp [isAbsolute, pathNames, htext, hc, Text.split]
  · obtain ⟨piece, rest, -, hsplit⟩ := Text.split_cons_of_ne hc cs
    simp [isAbsolute, pathNames, htext, hc, hsplit]

theorem isAbsolute_append {text : String} (h : isAbsolute text = true) (text' : String) :
    isAbsolute (text ++ text') = true := by
  unfold isAbsolute at h ⊢
  cases htext : text.toList with
  | nil => simp [htext] at h
  | cons c cs => simpa [htext] using h

theorem isAbsolute_joinText {text : String} (h : isAbsolute text = true) (name : String) :
    isAbsolute (joinText text name) = true := by
  unfold joinText
  split
  next => exact isAbsolute_append h name
  next =>
    rw [String.append_assoc]
    exact isAbsolute_append h _

/-- What is joined to a text goes behind the names that are there. -/
theorem exists_pathNames_joinText (text text' : String) :
    ∃ names, pathNames (joinText text text') = names ++ pathNames text' ∧
      essential names = essential (pathNames text) := by
  unfold joinText
  split
  next hslash =>
    obtain ⟨cs, hcs⟩ : ∃ cs, text.toList = cs ++ ['/'] :=
      List.getLast?_eq_some_iff.1 (by simpa [endsInSlash] using hslash)
    have htext : text = String.ofList cs ++ "/" ++ "" := by
      rw [← String.toList_inj]
      simp [hcs]
    have hempty : pathNames "" = [""] := rfl
    refine ⟨pathNames (String.ofList cs), ?_, ?_⟩
    · have hjoin : text ++ text' = String.ofList cs ++ "/" ++ text' := by
        rw [← String.toList_inj]
        simp [hcs]
      rw [hjoin, pathNames_append_slash]
    · rw [htext, pathNames_append_slash, essential_append, hempty]
      simp [essential, isIdle]
  next => exact ⟨pathNames text, pathNames_append_slash text text', rfl⟩

theorem essential_joinText (text text' : String) :
    essential (pathNames (joinText text text')) =
      essential (pathNames text) ++ essential (pathNames text') := by
  obtain ⟨names, hnames, hessential⟩ := exists_pathNames_joinText text text'
  rw [hnames, essential_append, hessential]

section

variable {path : String}

/-- The names of the directory of a draft, and the names that are left of a path text. -/
theorem pathNames_draftDirectory (path : String) :
    pathNames (draftDirectory path) = trimIdle (trimIdle (pathNames path)).dropLast ∨
      trimIdle (trimIdle (pathNames path)).dropLast = [] ∧
        draftDirectory path = if isAbsolute path then "/" else "." := by
  unfold draftDirectory
  cases hnames : trimIdle (trimIdle (pathNames path)).dropLast with
  | nil => exact .inr ⟨rfl, rfl⟩
  | cons first rest =>
    refine .inl (pathNames_intercalate (by simp) fun name hname => ?_)
    rw [← hnames] at hname
    exact (not_mem_of_mem_pathNames ((isPrefix_trimIdle _).subset
      (List.dropLast_subset _ ((isPrefix_trimIdle _).subset hname)))).1

theorem essential_draftDirectory (path : String) : essential (pathNames (draftDirectory path)) =
    essential (trimIdle (trimIdle (pathNames path)).dropLast) := by
  rcases pathNames_draftDirectory path with hnames | ⟨hnil, htext⟩
  · rw [hnames]
  · rw [hnil, htext]
    cases isAbsolute path <;> rfl

/-- The directory of a draft starts where the path text starts. -/
theorem isAbsolute_draftDirectory (h : path ≠ "") :
    isAbsolute (draftDirectory path) = isAbsolute path := by
  rcases pathNames_draftDirectory path with hnames | ⟨-, htext⟩
  · have hinitial : pathNames (draftDirectory path) <+: pathNames path := by
      have hlast (names : List String) : names.dropLast <+: names := List.dropLast_prefix names
      rw [hnames]
      exact (isPrefix_trimIdle _).trans ((hlast _).trans (isPrefix_trimIdle _))
    have hne : draftDirectory path ≠ "" := by
      intro hempty
      rw [hempty] at hnames
      exact trimIdle_ne_singleton_empty _ hnames.symm
    obtain ⟨first, rest, hcons⟩ : ∃ first rest, pathNames (draftDirectory path) = first :: rest := by
      obtain ⟨piece, rest, hsplit⟩ := Text.exists_split_eq_cons '/' (draftDirectory path).toList
      exact ⟨_, _, by rw [pathNames, hsplit, List.map_cons]⟩
    obtain ⟨more, hmore⟩ := hinitial
    rw [Bool.eq_iff_iff, isAbsolute_iff hne, isAbsolute_iff h, ← hmore, hcons]
    rfl
  · rw [htext]
    cases isAbsolute path <;> rfl

end

/-! ## Grounded trees -/

/-- A name that an entry of a directory can have. -/
structure IsOrdinary (name : String) : Prop where
  essential : isIdle name = false
  up : name ≠ ".."
  slash : '/' ∉ name.toList
  nul : '\x00' ∉ name.toList
  short : Text.byteLength name.toList ≤ maxName

/-- The tree is well-formed, and its working directory is there under ordinary names. -/
structure Grounded (tree : FileTree) : Prop where
  wellFormed : tree.WellFormed
  directory : tree.get? tree.workingDirectory = some .directory
  ordinary : ∀ name ∈ tree.workingDirectory, IsOrdinary name

theorem IsOrdinary.enter {name : String} {path : Path} (h : IsOrdinary name)
    (hpath : tree.get? path = some .directory) : tree.enter path name = .ok (path ++ [name]) := by
  have hidle : (name == "" || name == ".") = false := h.essential
  have hup : (name == "..") = false := by simpa using h.up
  have hcheck : checkName name = .ok () := by
    rw [checkName, if_neg]
    have := h.short
    omega
  rw [enter_of_directory hpath, descend, hidle, hup, hcheck]
  rfl

/-- The names of a directory lead to it. -/
theorem follow_ordinary (htree : tree.WellFormed) {path : Path}
    (hpath : tree.get? path = some .directory) (h : ∀ name ∈ path, IsOrdinary name) :
    tree.follow [] path = .ok path := by
  induction path using List.reverseRecOn with
  | nil => rfl
  | append_singleton path name ih =>
    have houter : tree.get? path = some .directory := by
      simpa using wellFormed_iff.1 htree _ _ hpath
    refine follow_append_singleton_eq_ok_iff.2 ⟨path, ?_, (h name (by simp)).enter houter⟩
    exact ih houter fun other hother => h other (by simp [hother])

/-! ## The place of a draft -/

theorem isOrdinary_draftName : IsOrdinary draftName :=
  ⟨by decide, by decide, by decide, by decide, by decide⟩

/-- The working directory written out. -/
theorem Grounded.essential_workingDirectory (htree : tree.Grounded) :
    essential (pathNames ("/" ++ "/".intercalate tree.workingDirectory)) =
      tree.workingDirectory := by
  have hslash : ("/" ++ "/".intercalate tree.workingDirectory) =
      "" ++ "/" ++ "/".intercalate tree.workingDirectory := by simp
  have hordinary : essential tree.workingDirectory = tree.workingDirectory :=
    List.filter_eq_self.2 fun name hname => by simp [(htree.ordinary name hname).essential]
  have hempty : essential (pathNames "") = [] := rfl
  rw [hslash, pathNames_append_slash, essential_append, hempty, List.nil_append]
  by_cases hnil : tree.workingDirectory = []
  · rw [hnil]
    rfl
  · rw [pathNames_intercalate hnil fun name hname => (htree.ordinary name hname).slash, hordinary]

/-- The text of the directory of a draft, from the root. -/
def draftStart (tree : FileTree) (path : String) : String :=
  let directory := draftDirectory path
  if isAbsolute directory then directory
  else joinText ("/" ++ "/".intercalate tree.workingDirectory) directory

theorem draftText_eq (tree : FileTree) (path : String) :
    tree.draftText path = joinText (tree.draftStart path) draftName :=
  rfl

theorem isAbsolute_draftText (tree : FileTree) (path : String) :
    isAbsolute (tree.draftText path) = true := by
  have hstart : isAbsolute (tree.draftStart path) = true := by
    rw [draftStart]
    split
    next habsolute => exact habsolute
    next =>
      have hslash : isAbsolute "/" = true := rfl
      exact isAbsolute_joinText (isAbsolute_append hslash _) _
  rw [draftText_eq]
  exact isAbsolute_joinText hstart draftName

/-- The directory of a draft is the one in which the last name of the path text is looked up. -/
theorem Grounded.follow_draftStart (htree : tree.Grounded) {path name : String} {directory : Path}
    (hdirectory : tree.directoryOf path = .ok directory) (hname : lastName? path = some name)
    (hentry : isEntryName name = true) :
    tree.follow [] (essential (pathNames (tree.draftStart path))) = .ok directory := by
  obtain ⟨htext, hfollow, hget⟩ := directoryOf_eq_ok_iff.1 hdirectory
  have hessential := (essential_draftDirectory path).trans (essential_draftNames hname hentry)
  rw [← follow_essential_iff hget, ← hessential] at hfollow
  have habsolute := isAbsolute_draftDirectory (ne_empty_of_checkText htext)
  rw [startOf] at hfollow
  by_cases hpath : isAbsolute path = true
  · have hstart : tree.draftStart path = draftDirectory path := if_pos (habsolute.trans hpath)
    rw [if_pos hpath] at hfollow
    rw [hstart, hfollow]
  · have hstart : tree.draftStart path =
        joinText ("/" ++ "/".intercalate tree.workingDirectory) (draftDirectory path) :=
      if_neg (habsolute ▸ hpath)
    rw [if_neg hpath] at hfollow
    rw [hstart, essential_joinText, htree.essential_workingDirectory, follow_append,
      follow_ordinary htree.wellFormed htree.directory htree.ordinary]
    simpa only [Except.bind] using hfollow

theorem mem_intercalate {names : List String} {c : Char}
    (h : c ∈ ("/".intercalate names).toList) : c = '/' ∨ ∃ name ∈ names, c ∈ name.toList := by
  induction names with
  | nil => simp at h
  | cons name names ih =>
    by_cases hnil : names = []
    · subst hnil
      rw [String.intercalate_singleton] at h
      exact .inr ⟨name, by simp, h⟩
    · rw [String.intercalate_cons_of_ne_nil hnil, String.toList_append, String.toList_append,
        List.mem_append, List.mem_append] at h
      rcases h with (h | h) | h
      · exact .inr ⟨name, by simp, h⟩
      · exact .inl (by simpa using h)
      · refine (ih h).imp_right ?_
        rintro ⟨other, hother, hc⟩
        exact ⟨other, by simp [hother], hc⟩

theorem mem_joinText {text text' : String} {c : Char} (h : c ∈ (joinText text text').toList) :
    c = '/' ∨ c ∈ text.toList ∨ c ∈ text'.toList := by
  unfold joinText at h
  split at h
  next =>
    rw [String.toList_append, List.mem_append] at h
    exact .inr h
  next =>
    rw [String.toList_append, String.toList_append, List.mem_append, List.mem_append] at h
    rcases h with (h | h) | h
    · exact .inr (.inl h)
    · exact .inl (by simpa using h)
    · exact .inr (.inr h)

theorem mem_draftDirectory {path : String} {c : Char} (h : c ∈ (draftDirectory path).toList) :
    c = '/' ∨ c = '.' ∨ c ∈ path.toList := by
  unfold draftDirectory at h
  split at h
  next =>
    split at h
    next => exact .inl (by simpa using h)
    next => exact .inr (.inl (by simpa using h))
  next =>
    refine (mem_intercalate h).imp_right ?_
    rintro ⟨name, hname, hc⟩
    exact .inr ((not_mem_of_mem_pathNames ((isPrefix_trimIdle _).subset
      (List.dropLast_subset _ ((isPrefix_trimIdle _).subset hname)))).2 c hc)

theorem checkText_eq_ok_iff {path : String} : checkText path = .ok () ↔
    path ≠ "" ∧ '\x00' ∉ path.toList ∧ Text.byteLength path.toList ≤ maxText := by
  unfold checkText
  split
  next hempty => simp_all
  next hempty =>
    split
    next hnul => simp_all
    next hnul =>
      have hnul : '\x00' ∉ path.toList := by simpa using hnul
      have hempty : path ≠ "" := by simpa using hempty
      split
      next hlong => simp [hlong]
      next hshort => simp [hempty, hnul, Nat.le_of_not_lt hshort]

theorem Grounded.checkText_draftText (htree : tree.Grounded) {path : String}
    (htext : checkText path = .ok ())
    (hfits : Text.byteLength (tree.draftText path).toList ≤ maxText) :
    checkText (tree.draftText path) = .ok () := by
  have hempty : tree.draftText path ≠ "" := by
    intro hempty
    have habsolute := tree.isAbsolute_draftText path
    rw [hempty] at habsolute
    cases habsolute
  have hnul : '\x00' ∉ (tree.draftText path).toList := by
    have hdirectory : '\x00' ∉ (draftDirectory path).toList := by
      intro hmem
      rcases mem_draftDirectory hmem with h | h | h
      · cases h
      · cases h
      · exact (checkText_eq_ok_iff.1 htext).2.1 h
    intro hmem
    rw [draftText_eq] at hmem
    rcases mem_joinText hmem with h | h | h
    · cases h
    · rw [draftStart] at h
      split at h
      next => exact hdirectory h
      next =>
        rcases mem_joinText h with h | h | h
        · cases h
        · rw [String.toList_append, List.mem_append] at h
          rcases h with h | h
          · cases List.mem_singleton.1 h
          · rcases mem_intercalate h with h | ⟨name, hname, hc⟩
            · cases h
            · exact (htree.ordinary name hname).nul hc
        · exact hdirectory h
    · exact isOrdinary_draftName.nul h
  exact checkText_eq_ok_iff.2 ⟨hempty, hnul, hfits⟩

/-- **A draft is made in the directory in which the last name of the path text is looked up**, if
its text is not too long. -/
theorem Grounded.resolve_draftText (htree : tree.Grounded) {path name : String} {directory : Path}
    (hdirectory : tree.directoryOf path = .ok directory) (hname : lastName? path = some name)
    (hentry : isEntryName name = true)
    (hfits : Text.byteLength (tree.draftText path).toList ≤ maxText) :
    tree.resolve (tree.draftText path) = .ok (directory ++ [draftName]) := by
  obtain ⟨htext, -, hget⟩ := directoryOf_eq_ok_iff.1 hdirectory
  obtain ⟨names, hnames, hessential⟩ := exists_pathNames_joinText (tree.draftStart path) draftName
  refine resolve_eq_ok_iff.2 ⟨htree.checkText_draftText htext hfits, ?_⟩
  rw [startOf, if_pos (tree.isAbsolute_draftText path), draftText_eq, hnames,
    pathNames_of_not_mem isOrdinary_draftName.slash]
  refine follow_append_singleton_eq_ok_iff.2 ⟨directory, ?_, isOrdinary_draftName.enter hget⟩
  rw [← follow_essential_iff hget, hessential]
  exact htree.follow_draftStart hdirectory hname hentry

/-! ## Paths that can be written -/

/-- A place that admits a file is a name in the directory of the path text. -/
theorem Admits.exists_directoryOf {path : String} {replace : Bool} {place : Path}
    (h : tree.Admits path replace place) (htree : tree.WellFormed) :
    ∃ name directory, lastName? path = some name ∧ isEntryName name = true ∧
      tree.directoryOf path = .ok directory ∧ checkName name = .ok () ∧
      place = directory ++ [name] := by
  cases hlast : lastName? path with
  | none =>
    have hroot : tree.locate path = .ok [] :=
      locate_of_lastName?_eq_none hlast (locate_eq_ok_iff.1 h.locate).1
    rw [h.locate] at hroot
    exact absurd (Except.ok.inj hroot) h.ne_nil
  | some name =>
    obtain ⟨directory, hdirectory, hdescend⟩ := (locate_of_lastName? hlast).1 h.locate
    cases hentry : isEntryName name with
    | false =>
      obtain ⟨place', hdescend', hplace'⟩ :=
        exists_descend_of_dots htree hentry (directoryOf_eq_ok_iff.1 hdirectory).2.2
      rw [hdescend] at hdescend'
      cases hdescend'
      exact absurd hplace' h.not_directory
    | true =>
      obtain ⟨hcheck, hplace⟩ :=
        (descend_eq_ok_iff (lastName?_ne_empty hlast) hentry).1 hdescend
      exact ⟨name, directory, rfl, hentry, hdirectory, hcheck, hplace⟩

/-- A draft is moved to the place that admits it. -/
theorem Admits.movePath {path : String} {replace : Bool} {place : Path}
    (h : tree.Admits path replace place) (htree : tree.WellFormed) :
    tree.movePath path replace = .ok place := by
  obtain ⟨name, directory, hlast, hentry, hdirectory, hcheck, rfl⟩ := h.exists_directoryOf htree
  rw [movePath_of_directoryOf hdirectory]
  simp only [hlast, Option.filter_some, hentry, if_true, h.slash]
  rw [FileTree.place, hcheck]
  rcases h.free with hnone | ⟨rfl, bytes, hfile⟩
  · rw [hnone]
    rfl
  · rw [hfile]
    rfl

/-- **A file can be stored where a place admits it and its draft has a text that is not too long.** -/
theorem Grounded.storePath_eq_ok_iff (htree : tree.Grounded) {path : String} {replace : Bool}
    {place : Path} :
    tree.storePath path replace = .ok place ↔ tree.Admits path replace place ∧
      Text.byteLength (tree.draftText path).toList ≤ maxText := by
  constructor
  · intro h
    refine ⟨admits_of_storePath h, ?_⟩
    rw [storePath_eq] at h
    cases hdraft : tree.resolve (tree.draftText path) with
    | error failure => rw [hdraft] at h; cases h
    | ok draft => exact (checkText_eq_ok_iff.1 (resolve_eq_ok_iff.1 hdraft).1).2.2
  · rintro ⟨hadmits, hfits⟩
    obtain ⟨name, directory, hlast, hentry, hdirectory, -, -⟩ :=
      hadmits.exists_directoryOf htree.wellFormed
    rw [storePath_eq, htree.resolve_draftText hdirectory hlast hentry hfits]
    exact hadmits.movePath htree.wellFormed

end FileTree

end PinQuery
