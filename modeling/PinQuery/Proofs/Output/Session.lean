import Mathlib.Data.List.Induction
import PinQuery.Output.Basic
import PinQuery.Proofs.Output.Storing

/-!
# Sessions

A session is an output at work on a file tree: programs are generated and written, in any order and
as often as wanted.

* `Session.content_run`: after any calls the output holds the program of the last plan that was
  generated, and nothing if that plan has no renderer.
* `Output.obstacles` lists what is in the way of a write, in the order in which it is checked. A
  write fails with the first of them (`Output.write_reports_first_obstacle`).
* `Output.exists_admits_of_write`: a write that succeeds puts one file into the tree.
* `Output.writeInSteps` is a write as it is done step by step, by way of a draft. It answers the
  same and leaves the same tree (`Output.writeInSteps_eq`).
* `session_consistent`: what can be relied on in every state that calls lead to. Trees stay
  well-formed along the way (`Session.wellFormed_run`).
-/

namespace PinQuery

/-! ## Calls -/

/-- What can be asked of a session. -/
inductive Call
  | generate (plan : Plan)
  | write (path : Option String) (overwrite : Bool)

/-- Whether a call generates nothing. -/
def Call.isWrite : Call → Bool
  | .generate _ => false
  | .write _ _ => true

/-- An output and the file tree it writes to. -/
structure Session where
  output : Output
  tree : FileTree

namespace Session

/-- Nothing generated yet. -/
def new (registry : Registry) (tree : FileTree) : Session := ⟨.new registry, tree⟩

/-- The session after one call. A write that fails has no tree to go on with. -/
def step (session : Session) : Call → Session
  | .generate plan => { session with output := (session.output.generate plan).2 }
  | .write path overwrite =>
    match session.output.write session.tree path overwrite with
    | .ok tree => { session with tree }
    | .error _ => session

/-- The session after some calls. -/
def run (session : Session) (calls : List Call) : Session := calls.foldl step session

theorem run_append_singleton (session : Session) (calls : List Call) (call : Call) :
    session.run (calls ++ [call]) = (session.run calls).step call := by
  rw [run, List.foldl_append]
  rfl

/-- What holds at first and is kept by every call holds after any calls. -/
theorem run_induction {P : Session → Prop}
    (hstep : ∀ session call, P session → P (session.step call)) {session : Session}
    (h : P session) (calls : List Call) : P (session.run calls) := by
  induction calls generalizing session with
  | nil => exact h
  | cons call calls ih => exact ih (hstep session call h)

theorem output_step_write (session : Session) (path : Option String) (overwrite : Bool) :
    (session.step (.write path overwrite)).output = session.output := by
  simp only [step]
  split <;> rfl

end Session

/-! ## What was generated -/

/-- A registry gives the renderer that was registered last under a name. -/
theorem Registry.get?_register (registry : Registry) (renderer : Renderer) (name : String) :
    (registry.register renderer).get? name =
      if renderer.name = name then some renderer else registry.get? name := by
  simp only [get?, register, find?_insertBy, beq_iff_eq]

namespace Output

theorem registry_generate (output : Output) (plan : Plan) :
    (output.generate plan).2.registry = output.registry := by
  unfold generate
  split <;> rfl

/-- A plan is rendered by the renderer under the name of its target. -/
theorem generate_eq_ok_iff {output : Output} {plan : Plan} {text : String} :
    (output.generate plan).1 = .ok text ↔
      ∃ renderer, output.registry.get? plan.target = some renderer ∧
        renderer.render plan = text := by
  unfold generate
  cases output.registry.get? plan.target with
  | none => simp
  | some renderer => simp

/-- What is kept is the program, and after a failure nothing. -/
theorem content_generate_iff {output : Output} {plan : Plan} {text : String} :
    (output.generate plan).2.content = some text ↔ (output.generate plan).1 = .ok text := by
  unfold generate
  cases output.registry.get? plan.target with
  | none => simp
  | some renderer => simp

end Output

/-- The last generation among some calls succeeded with a text: no other follows it. -/
def LastGenerated (session : Session) (calls : List Call) (text : String) : Prop :=
  ∃ before plan after, calls = before ++ .generate plan :: after ∧
    (∀ call ∈ after, call.isWrite = true) ∧
    ((session.run before).output.generate plan).1 = .ok text

namespace LastGenerated

variable {session : Session} {calls : List Call} {text : String}

theorem append_generate {plan : Plan} :
    LastGenerated session (calls ++ [.generate plan]) text ↔
      ((session.run calls).output.generate plan).1 = .ok text := by
  constructor
  · rintro ⟨before, plan', after, hcalls, hafter, htext⟩
    rcases List.eq_nil_or_concat after with rfl | ⟨rest, last, rfl⟩
    · obtain ⟨rfl, hlast⟩ := List.append_inj' hcalls rfl
      cases hlast
      exact htext
    · rw [List.concat_eq_append, ← List.cons_append, ← List.append_assoc] at hcalls
      obtain ⟨-, hlast⟩ := List.append_inj' hcalls rfl
      cases hlast
      cases hafter (.generate plan) (by simp)
  · intro htext
    exact ⟨calls, plan, [], rfl, by simp, htext⟩

theorem append_write {path : Option String} {overwrite : Bool} :
    LastGenerated session (calls ++ [.write path overwrite]) text ↔
      LastGenerated session calls text := by
  constructor
  · rintro ⟨before, plan, after, hcalls, hafter, htext⟩
    rcases List.eq_nil_or_concat after with rfl | ⟨rest, last, rfl⟩
    · obtain ⟨-, hlast⟩ := List.append_inj' hcalls rfl
      cases hlast
    · rw [List.concat_eq_append, ← List.cons_append, ← List.append_assoc] at hcalls
      obtain ⟨hcalls, -⟩ := List.append_inj' hcalls rfl
      exact ⟨before, plan, rest, hcalls, fun call hcall => hafter call (by simp [hcall]), htext⟩
  · rintro ⟨before, plan, after, rfl, hafter, htext⟩
    refine ⟨before, plan, after ++ [.write path overwrite], by simp, fun call hcall => ?_, htext⟩
    rcases List.mem_append.1 hcall with hcall | hcall
    · exact hafter call hcall
    · rw [List.mem_singleton.1 hcall]
      rfl

end LastGenerated

namespace Session

theorem registry_run (session : Session) (calls : List Call) :
    (session.run calls).output.registry = session.output.registry := by
  refine run_induction (P := fun s => s.output.registry = session.output.registry) ?_ rfl calls
  intro s call h
  cases call with
  | generate plan => exact (s.output.registry_generate plan).trans h
  | write path overwrite => rw [output_step_write]; exact h

/-- **After any calls the output holds what was generated last**, and nothing if that failed or if
nothing was generated. -/
theorem content_run (registry : Registry) (tree : FileTree) (calls : List Call) (text : String) :
    ((new registry tree).run calls).output.content = some text ↔
      LastGenerated (new registry tree) calls text := by
  induction calls using List.reverseRecOn with
  | nil =>
    refine iff_of_false (by simp [run, new, Output.new]) ?_
    rintro ⟨before, plan, after, hcalls, -⟩
    cases before <;> cases hcalls
  | append_singleton calls call ih =>
    rw [run_append_singleton]
    cases call with
    | generate plan =>
      rw [LastGenerated.append_generate]
      exact Output.content_generate_iff
    | write path overwrite =>
      rw [output_step_write, LastGenerated.append_write]
      exact ih

end Session

/-! ## One write -/

namespace Output

variable {output : Output} {tree tree' : FileTree} {path : Option String} {overwrite : Bool}

/-- What is in the way of a write, in the order in which it is checked. -/
def obstacles (output : Output) (tree : FileTree) (path : Option String) (overwrite : Bool) :
    List OutputError :=
  (if output.content.isNone then [.noContent] else []) ++
    match path.filter (!·.isEmpty) with
    | none => [.noPath]
    | some path =>
      (if !overwrite && tree.isOccupied path then [.fileExists path] else []) ++
        match tree.storePath path overwrite with
        | .error (.failed failure) => [.failed failure]
        | _ => []

/-- What a write comes to once there is a program and a path. -/
theorem write_eq_store {text file : String} (hcontent : output.content = some text)
    (hfile : file.isEmpty = false) :
    output.write tree (some file) overwrite =
      if !overwrite && tree.contains file then .error (.fileExists file)
      else
        match tree.store file text.toUTF8 overwrite with
        | .ok tree => .ok tree
        | .error .exists_ => .error (.fileExists file)
        | .error (.failed failure) => .error (.failed failure) := by
  unfold write
  rw [hcontent]
  cases hstore : tree.store file text.toUTF8 overwrite with
  | ok stored => simp only [hfile, hstore, Bool.false_eq_true, if_false]
  | error failure => cases failure <;> simp only [hfile, hstore, Bool.false_eq_true, if_false]

theorem obstacles_eq {text file : String} (hcontent : output.content = some text)
    (hfile : file.isEmpty = false) :
    output.obstacles tree (some file) overwrite =
      (if !overwrite && tree.isOccupied file then [.fileExists file] else []) ++
        match tree.storePath file overwrite with
        | .error (.failed failure) => [.failed failure]
        | _ => [] := by
  simp only [obstacles, hcontent, Option.filter_some, hfile, Option.isNone_some, Bool.not_false,
    Bool.false_eq_true, if_false, if_true, List.nil_append]

/-- Looking the path up and then storing finds the first obstacle of the file tree. -/
theorem store_reports_first_obstacle {text file : String} (hcontent : output.content = some text)
    (hfile : file.isEmpty = false) (htree : tree.WellFormed)
    (hdrafts : FileTree.endsInSlash file = true → tree.DraftsIn file) (error : OutputError) :
    output.write tree (some file) overwrite = .error error ↔
      (output.obstacles tree (some file) overwrite).head? = some error := by
  rw [write_eq_store hcontent hfile, obstacles_eq hcontent hfile, FileTree.store]
  cases hstore : tree.storePath file overwrite with
  | ok place =>
    have hadmits := FileTree.admits_of_storePath hstore
    have hoccupied : (!overwrite && tree.isOccupied file) = false := by
      cases overwrite with
      | true => rfl
      | false => exact hadmits.isOccupied_eq_false
    have hcontains : (!overwrite && tree.contains file) = false := by
      by_contra h
      simp only [Bool.not_eq_false, Bool.and_eq_true] at h
      simp [h.1, FileTree.isOccupied_of_contains h.2] at hoccupied
    simp [hoccupied, hcontains, Except.map]
  | error failure =>
    cases failure with
    | exists_ =>
      obtain ⟨rfl, hoccupied⟩ := FileTree.isOccupied_of_storePath htree hstore
      simp [hoccupied, Except.map]
    | failed failure =>
      cases hcontains : (!overwrite && tree.contains file) with
      | true =>
        simp only [Bool.and_eq_true] at hcontains
        simp [hcontains.1, FileTree.isOccupied_of_contains hcontains.2]
      | false =>
        have hoccupied : (!overwrite && tree.isOccupied file) = false := by
          by_contra h
          simp only [Bool.not_eq_false, Bool.and_eq_true, Bool.not_eq_true'] at h
          obtain ⟨rfl, hoccupied⟩ := h
          rw [FileTree.storePath_of_isOccupied htree hdrafts hoccupied hcontains] at hstore
          cases hstore
        simp [hoccupied, Except.map]

/-- **A write fails with the first obstacle**, and succeeds if there is none. -/
theorem write_reports_first_obstacle (htree : tree.WellFormed)
    (hdrafts : ∀ file ∈ path, FileTree.endsInSlash file = true → tree.DraftsIn file)
    (error : OutputError) :
    output.write tree path overwrite = .error error ↔
      (output.obstacles tree path overwrite).head? = some error := by
  cases hcontent : output.content with
  | none => simp [write, obstacles, hcontent]
  | some text =>
    cases path with
    | none => simp [write, obstacles, hcontent]
    | some file =>
      cases hfile : file.isEmpty with
      | true => simp [write, obstacles, hcontent, hfile, Option.filter_some]
      | false =>
        exact store_reports_first_obstacle hcontent hfile htree (hdrafts file rfl) error

/-- A write that succeeds puts the program at one place that admits it. -/
theorem exists_admits_of_write (h : output.write tree path overwrite = .ok tree') :
    ∃ text file place, output.content = some text ∧ path = some file ∧
      tree.Admits file overwrite place ∧ tree' = tree.put place (.file text.toUTF8) := by
  cases hcontent : output.content with
  | none => simp [write, hcontent] at h
  | some text =>
    cases path with
    | none => simp [write, hcontent] at h
    | some file =>
      cases hfile : file.isEmpty with
      | true => simp [write, hcontent, hfile] at h
      | false =>
        rw [write_eq_store hcontent hfile] at h
        split at h
        next => cases h
        next =>
          cases hstore : tree.store file text.toUTF8 overwrite with
          | error failure =>
            rw [hstore] at h
            cases failure <;> cases h
          | ok stored =>
            simp only [hstore, Except.ok.injEq] at h
            obtain ⟨place, hadmits, hput⟩ := FileTree.exists_admits_of_store hstore
            exact ⟨text, file, place, rfl, rfl, hadmits, h ▸ hput⟩

/-- Writing step by step, and the tree that is left: the checks, and then a draft that is moved to
the path. -/
def writeInSteps (output : Output) (tree : FileTree) (path : Option String) (overwrite : Bool)
    (name : String) : Except OutputError Unit × FileTree :=
  match output.content, path with
  | none, _ => (.error .noContent, tree)
  | some _, none => (.error .noPath, tree)
  | some content, some path =>
    if path.isEmpty then (.error .noPath, tree)
    else if !overwrite && tree.contains path then (.error (.fileExists path), tree)
    else
      match tree.storeInSteps path content.toUTF8 overwrite name with
      | (.ok _, left) => (.ok (), left)
      | (.error .exists_, left) => (.error (.fileExists path), left)
      | (.error (.failed failure), left) => (.error (.failed failure), left)

theorem writeInSteps_eq {name : String} (hname : ∀ file ∈ path, tree.IsFreshName file name) :
    output.writeInSteps tree path overwrite name =
      ((output.write tree path overwrite).map fun _ => (),
        (output.write tree path overwrite).toOption.getD tree) := by
  cases hcontent : output.content with
  | none => simp [writeInSteps, write, hcontent, Except.map, Except.toOption]
  | some text =>
    cases path with
    | none => simp [writeInSteps, write, hcontent, Except.map, Except.toOption]
    | some file =>
      unfold writeInSteps write
      rw [hcontent]
      dsimp only
      rw [FileTree.storeInSteps_eq (hname file rfl)]
      split
      next => rfl
      next =>
        split
        next => rfl
        next =>
          cases tree.store file text.toUTF8 overwrite with
          | ok stored => rfl
          | error failure => cases failure <;> rfl

end Output

/-! ## Runs -/

namespace Session

theorem wellFormed_step {session : Session} (h : session.tree.WellFormed) (call : Call) :
    (session.step call).tree.WellFormed := by
  cases call with
  | generate plan => exact h
  | write path overwrite =>
    simp only [step]
    split
    next tree hwrite =>
      obtain ⟨text, file, place, -, -, hadmits, rfl⟩ := Output.exists_admits_of_write hwrite
      exact hadmits.wellFormed_put h _
    next => exact h

/-- Well-formed trees stay well-formed. -/
theorem wellFormed_run {session : Session} (h : session.tree.WellFormed) (calls : List Call) :
    (session.run calls).tree.WellFormed :=
  run_induction (P := fun session => session.tree.WellFormed)
    (fun _ call h => wellFormed_step h call) h calls

/-- What can be relied on when a session writes. -/
structure WritesSafely (session : Session) (path : Option String) (overwrite : Bool) : Prop where
  /-- What was generated stays. -/
  output : (session.step (.write path overwrite)).output = session.output
  /-- The error is the first obstacle. A file behind whose name the path has a slash is found only
  when a draft is moved there, so drafts are then to be possible where the directory is there. -/
  error : (∀ file ∈ path, FileTree.endsInSlash file = true → session.tree.DraftsIn file) →
    ∀ error, session.output.write session.tree path overwrite = .error error ↔
      (session.output.obstacles session.tree path overwrite).head? = some error
  /-- A write that fails changes nothing. -/
  unchanged : ∀ error, session.output.write session.tree path overwrite = .error error →
    (session.step (.write path overwrite)).tree = session.tree
  /-- A write that succeeds changes the place of its path only, and puts the bytes there. -/
  stored : ∀ tree, session.output.write session.tree path overwrite = .ok tree →
    (session.step (.write path overwrite)).tree = tree ∧
    ∃ text file place, session.output.content = some text ∧ path = some file ∧
      session.tree.locate file = .ok place ∧ tree.node file = .ok (.file text.toUTF8) ∧
      tree.workingDirectory = session.tree.workingDirectory ∧
      ∀ other, other ≠ place → tree.get? other = session.tree.get? other
  /-- What stands in the tree is replaced only if it may be. -/
  kept : overwrite = false → ∀ place node, session.tree.get? place = some node →
    (session.step (.write path overwrite)).tree.get? place = some node
  /-- Writing by way of a draft gives the same answer and leaves the same tree: no draft is left
  behind, whether the write succeeds or not. -/
  drafted : ∀ name, (∀ file ∈ path, session.tree.IsFreshName file name) →
    session.output.writeInSteps session.tree path overwrite name =
      ((session.output.write session.tree path overwrite).map fun _ => (),
        (session.step (.write path overwrite)).tree)

theorem writesSafely {session : Session} (htree : session.tree.WellFormed) (path : Option String)
    (overwrite : Bool) : session.WritesSafely path overwrite where
  output := session.output_step_write path overwrite
  error hdrafts := Output.write_reports_first_obstacle htree hdrafts
  unchanged error herror := by simp only [step, herror]
  stored tree hwrite := by
    refine ⟨by simp only [step, hwrite], ?_⟩
    obtain ⟨text, file, place, hcontent, hpath, hadmits, rfl⟩ :=
      Output.exists_admits_of_write hwrite
    refine ⟨text, file, place, hcontent, hpath, hadmits.locate, hadmits.node_put _, rfl, ?_⟩
    intro other hother
    rw [FileTree.get?_put _ hadmits.ne_nil, if_neg hother]
  kept hoverwrite place node hnode := by
    subst hoverwrite
    simp only [step]
    split
    next tree hwrite =>
      obtain ⟨text, file, target, -, -, hadmits, rfl⟩ := Output.exists_admits_of_write hwrite
      exact hadmits.get?_put_of_some _ hnode
    next => exact hnode
  drafted name hname := by
    rw [Output.writeInSteps_eq hname]
    simp only [step]
    split
    next tree hwrite => simp [hwrite, Except.toOption]
    next error hwrite => simp [hwrite, Except.toOption]

end Session

/-- **Whatever was called before, a session holds what it generated last and writes all or
nothing.** What it generates is what the renderer for the plan's target makes of the plan, and that
is the renderer registered last under this name. -/
theorem session_consistent (registry : Registry) (tree : FileTree) (htree : tree.WellFormed)
    (calls : List Call) :
    (∀ text, ((Session.new registry tree).run calls).output.content = some text ↔
      LastGenerated (Session.new registry tree) calls text) ∧
    (∀ plan text, (((Session.new registry tree).run calls).output.generate plan).1 = .ok text ↔
      ∃ renderer, registry.get? plan.target = some renderer ∧ renderer.render plan = text) ∧
    (∀ renderer name, (registry.register renderer).get? name =
      if renderer.name = name then some renderer else registry.get? name) ∧
    ∀ path overwrite, ((Session.new registry tree).run calls).WritesSafely path overwrite := by
  refine ⟨Session.content_run registry tree calls, fun plan text => ?_, registry.get?_register,
    fun path overwrite => ?_⟩
  · rw [Output.generate_eq_ok_iff, Session.registry_run]
    rfl
  · exact Session.writesSafely (Session.wellFormed_run htree calls) path overwrite

/-- A tree with one file in its working directory. -/
def oneFileTree : FileTree := (FileTree.emptyAt ["work"]).add "old.txt" (.file "old".toUTF8)

theorem wellFormed_oneFileTree : oneFileTree.WellFormed := by
  have hentries : oneFileTree.entries =
      [(["work"], .directory), (["work", "old.txt"], .file "old".toUTF8)] := rfl
  intro entry hentry
  rw [hentries] at hentry
  rcases List.mem_cons.1 hentry with rfl | hentry
  · rfl
  · rw [List.mem_singleton.1 hentry]
    rfl

/-- Only the second of these calls succeeds: the first has nothing to write, and the third would
replace a file. -/
def echoCalls : List Call :=
  [.write (some "old.txt") true,
    .generate ⟨.empty, ⟨.empty, .empty, .empty, .empty⟩, .always, .none, defaultBaud, "echo"⟩,
    .write (some "old.txt") false]

/-- A registry whose only renderer gives the name of the target. -/
def echoRegistry : Registry := Registry.empty.register ⟨"echo", "txt", fun plan => plan.target⟩

/-- The session after these calls. -/
def echoSession : Session := (Session.new echoRegistry oneFileTree).run echoCalls

/-- A slash behind its name does not hide the file, and where it may be replaced, the draft is moved
to its place. -/
theorem session_consistent_echo :
    echoSession.output.content = some "echo" ∧
      echoSession.output.write echoSession.tree (some "old.txt/") false =
        .error (.fileExists "old.txt/") ∧
      (echoSession.output.writeInSteps echoSession.tree (some "old.txt") true ".draft-1").1 =
        .ok () := by
  obtain ⟨hcontent, -, -, hwrite⟩ :=
    session_consistent echoRegistry oneFileTree wellFormed_oneFileTree echoCalls
  have hdrafts : ∀ file ∈ some "old.txt/", FileTree.endsInSlash file = true →
      echoSession.tree.DraftsIn file := by
    rintro file ⟨⟩ - directory -
    exact ⟨["work", ".draft-new"], by decide +kernel⟩
  have hfresh : ∀ file ∈ some "old.txt", echoSession.tree.IsFreshName file ".draft-1" := by
    rintro file ⟨⟩
    have hdraft : echoSession.tree.draftPath "old.txt" ".draft-1" = .ok ["work", ".draft-1"] := by
      decide +kernel
    refine ⟨by decide +kernel, by decide +kernel, fun draft hdraft' => ?_⟩
    rw [hdraft] at hdraft'
    cases hdraft'
    rfl
  have hanswer : (echoSession.output.write echoSession.tree (some "old.txt") true).map
      (fun _ => ()) = .ok () := by decide +kernel
  refine ⟨?_, ?_, ?_⟩
  · exact (hcontent "echo").2 ⟨[.write (some "old.txt") true], _, [.write (some "old.txt") false],
      rfl, by simp [Call.isWrite], rfl⟩
  · exact ((hwrite (some "old.txt/") false).error hdrafts _).2 (by decide +kernel)
  · rw [← hanswer]
    exact congrArg Prod.fst ((hwrite (some "old.txt") true).drafted ".draft-1" hfresh)

end PinQuery
