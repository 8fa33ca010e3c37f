import PinQuery.CommandLine.Run
import PinQuery.Proofs.Compile
import PinQuery.Proofs.Output.Drafting
import PinQuery.Proofs.Plan.Document

/-!
# A query command is compiling and one write

The command line runs the stages itself, so that it can show the plan before anything is written.
What it comes to is compiling the source and writing the program. The plan that is shown can be read
from the output again.

* `FileTree.IsWritable`: the paths at which a program can be written.
* `Output.write_eq_ok_iff`: a program is written where the path can be, and nothing else changes.
* `runQuery_of_compile` and `runQuery_of_compile_error`: a run, by what compiling the source gives.
* `runsPipeline`: when a run succeeds, and what it leaves in the file tree and on its output.
-/

namespace PinQuery

/-! ## Writing -/

/-- A path text at which a program can be written: a place admits it, so that nothing stands there
or a file that may be replaced, and the text of its draft is not too long. -/
def FileTree.IsWritable (tree : FileTree) (path : String) (replace : Bool) : Prop :=
  (∃ place, tree.Admits path replace place) ∧
    Text.byteLength (tree.draftText path).toList ≤ maxText

/-- **A program is written where the path can be written, and changes that place only.** -/
theorem Output.write_eq_ok_iff {output : Output} {tree tree' : FileTree} {path : Option String}
    {overwrite : Bool} {text : String} (htree : tree.Grounded)
    (hcontent : output.content = some text) :
    output.write tree path overwrite = .ok tree' ↔ ∃ file place, path = some file ∧
      tree.Admits file overwrite place ∧
      Text.byteLength (tree.draftText file).toList ≤ FileTree.maxText ∧
      tree' = tree.put place (.file text.toUTF8) := by
  cases path with
  | none => simp [write, hcontent]
  | some file =>
    cases hfile : file.isEmpty with
    | true =>
      have hwrite : output.write tree (some file) overwrite = .error .noPath := by
        simp [write, hcontent, hfile]
      rw [hwrite]
      constructor
      · rintro ⟨⟩
      · rintro ⟨_, place, ⟨⟩, hadmits, -⟩
        exact absurd (String.isEmpty_iff.1 hfile)
          (FileTree.ne_empty_of_checkText (FileTree.locate_eq_ok_iff.1 hadmits.locate).1)
    | false =>
      rw [write_eq_store hcontent hfile]
      constructor
      · intro h
        split at h
        next => cases h
        next =>
          cases hplace : tree.storePath file overwrite with
          | error failure =>
            rw [FileTree.store, hplace] at h
            cases failure <;> cases h
          | ok place =>
            rw [FileTree.store, hplace] at h
            cases h
            obtain ⟨hadmits, hfits⟩ := htree.storePath_eq_ok_iff.1 hplace
            exact ⟨file, place, rfl, hadmits, hfits, rfl⟩
      · rintro ⟨_, place, ⟨⟩, hadmits, hfits, rfl⟩
        have hcontains : (!overwrite && tree.contains file) = false := by
          cases overwrite with
          | true => rfl
          | false =>
            by_contra hcontains
            have hoccupied := FileTree.isOccupied_of_contains (by simpa using hcontains)
            rw [hadmits.isOccupied_eq_false] at hoccupied
            cases hoccupied
        rw [hcontains, FileTree.store, htree.storePath_eq_ok_iff.2 ⟨hadmits, hfits⟩]
        rfl

namespace CommandLine

variable {options : QueryOptions} {colours : Bool} {tree : FileTree} {source : String}

/-! ## The stages of a run -/

/-- The program that is written is that of compiling. -/
theorem emit_of_compile {compiled : Compiled} (h : compile .builtin source = .ok compiled) :
    emit options tree compiled.plan =
      (((Output.new .builtin).generate compiled.plan).2.write tree options.output
        options.force).mapError .output := by
  have hgenerate := (Output.generate_of_compile h).1
  unfold emit
  generalize (Output.new .builtin).generate compiled.plan = generated at hgenerate ⊢
  obtain ⟨result, output⟩ := generated
  cases hgenerate
  rfl

/-- What a run shows of a plan. -/
def planText (options : QueryOptions) (plan : Plan) : String :=
  if options.ir then plan.document.indented ++ "\n" else ""

/-- A run on a source that is compiled: the plan is shown, and the program is written or not. -/
theorem runQuery_of_compile {compiled : Compiled} (hread : readQuery options tree = .ok source)
    (h : compile .builtin source = .ok compiled) :
    runQuery options colours tree =
      match ((Output.new .builtin).generate compiled.plan).2.write tree options.output
        options.force with
      | .ok tree' => ⟨0, planText options compiled.plan, "", tree'⟩
      | .error error => ⟨1, planText options compiled.plan,
          failureText options colours source (.output error), tree⟩ := by
  obtain ⟨hparse, hplan, -⟩ := compile_eq_ok_iff.1 h
  have hplanned := planSource_eq_ok_iff.2 ⟨hparse, hplan⟩
  simp only [runQuery, hread, hplanned, emit_of_compile h, planText]
  cases ((Output.new .builtin).generate compiled.plan).2.write tree options.output
    options.force <;> rfl

/-- A run on a source that is not compiled shows the error of compiling it. -/
theorem runQuery_of_compile_error {error : CompileError}
    (hread : readQuery options tree = .ok source) (h : compile .builtin source = .error error) :
    runQuery options colours tree =
      ⟨1, "", failureText options colours source error, tree⟩ := by
  simp only [runQuery, hread, compile_eq_error_iff.1 h]

theorem runQuery_of_readQuery_error {message : String}
    (hread : readQuery options tree = .error message) :
    runQuery options colours tree = ⟨1, "", message, tree⟩ := by
  simp only [runQuery, hread]

/-! ## Runs -/

/-- What a query command comes to. -/
structure RunsPipeline (options : QueryOptions) (colours : Bool) (tree : FileTree) : Prop where
  /-- A run succeeds where the source can be read and compiled and there is a path for the program
  that can be written. -/
  succeeds_iff : (runQuery options colours tree).code = 0 ↔
    (∃ source compiled, readQuery options tree = .ok source ∧
      compile .builtin source = .ok compiled) ∧
    ∃ path, options.output = some path ∧ path ≠ "" ∧ tree.IsWritable path options.force
  /-- A run that succeeds leaves the program that compiling gives at the path, and changes nothing
  else. -/
  written : ∀ source compiled, readQuery options tree = .ok source →
    compile .builtin source = .ok compiled → (runQuery options colours tree).code = 0 →
      ∃ path place, options.output = some path ∧ tree.Admits path options.force place ∧
        (runQuery options colours tree).tree.node path = .ok (.file compiled.content.toUTF8) ∧
        (runQuery options colours tree).tree.get? place =
          some (.file compiled.content.toUTF8) ∧
        (runQuery options colours tree).tree.workingDirectory = tree.workingDirectory ∧
        ∀ other, other ≠ place →
          (runQuery options colours tree).tree.get? other = tree.get? other
  /-- The program goes through a draft, of which nothing is left whether the run succeeds or not. -/
  drafted : ∀ source compiled name, readQuery options tree = .ok source →
    compile .builtin source = .ok compiled →
    (∀ file ∈ options.output, tree.IsFreshName file name) →
      (((Output.new .builtin).generate compiled.plan).2.writeInSteps tree options.output
        options.force name).2 = (runQuery options colours tree).tree
  /-- A run that fails leaves the file tree as it was. -/
  unchanged : (runQuery options colours tree).code ≠ 0 →
    (runQuery options colours tree).code = 1 ∧ (runQuery options colours tree).tree = tree
  /-- A source that is not compiled is shown with the error of compiling it. -/
  error : ∀ source error, readQuery options tree = .ok source →
    compile .builtin source = .error error →
      (runQuery options colours tree).stderr = failureText options colours source error
  /-- The plan is shown if asked for, whether the program can be written or not: the output is a
  document with one item a line, from which the plan can be read. -/
  shown : ∀ source query plan, options.ir = true → readQuery options tree = .ok source →
    Query.parse source = .ok query → Plan.ofQuery Registry.builtin.names query = .ok plan →
      (runQuery options colours tree).stdout = plan.document.indented ++ "\n" ∧
        plan.IsShownBy plan.document.indented
  /-- Nothing else is shown. -/
  silent : (options.ir = true → ¬∃ source query plan, readQuery options tree = .ok source ∧
      Query.parse source = .ok query ∧ Plan.ofQuery Registry.builtin.names query = .ok plan) →
    (runQuery options colours tree).stdout = ""

/-- The three ways a run can go. -/
theorem runQuery_cases (options : QueryOptions) (tree : FileTree) :
    (∃ message, readQuery options tree = .error message) ∨
    (∃ source error, readQuery options tree = .ok source ∧
      compile .builtin source = .error error) ∨
    ∃ source compiled, readQuery options tree = .ok source ∧
      compile .builtin source = .ok compiled := by
  cases hread : readQuery options tree with
  | error message => exact .inl ⟨message, rfl⟩
  | ok source =>
    cases hcompile : compile .builtin source with
    | error error => exact .inr (.inl ⟨source, error, rfl, hcompile⟩)
    | ok compiled => exact .inr (.inr ⟨source, compiled, rfl, hcompile⟩)

section

variable (htree : tree.Grounded) {compiled : Compiled}
  (hread : readQuery options tree = .ok source) (hcompile : compile .builtin source = .ok compiled)
include htree hread hcompile

/-- A run that succeeds has put the program at a place that admits it. -/
theorem code_eq_zero_iff : (runQuery options colours tree).code = 0 ↔
    ∃ path, options.output = some path ∧ tree.IsWritable path options.force := by
  have hcontent := (Output.generate_of_compile hcompile).2
  rw [runQuery_of_compile hread hcompile]
  cases hwrite : ((Output.new .builtin).generate compiled.plan).2.write tree options.output
      options.force with
  | ok tree' =>
    obtain ⟨path, place, hpath, hadmits, hfits, -⟩ :=
      (Output.write_eq_ok_iff htree hcontent).1 hwrite
    exact iff_of_true rfl ⟨path, hpath, ⟨place, hadmits⟩, hfits⟩
  | error error =>
    refine iff_of_false nofun ?_
    rintro ⟨path, hpath, ⟨place, hadmits⟩, hfits⟩
    have hwrite' := (Output.write_eq_ok_iff htree hcontent).2
      ⟨path, place, hpath, hadmits, hfits, rfl⟩
    rw [hwrite] at hwrite'
    cases hwrite'

theorem exists_put_of_code (hcode : (runQuery options colours tree).code = 0) :
    ∃ path place, options.output = some path ∧ tree.Admits path options.force place ∧
      (runQuery options colours tree).tree =
        tree.put place (.file compiled.content.toUTF8) := by
  have hcontent := (Output.generate_of_compile hcompile).2
  rw [runQuery_of_compile hread hcompile] at hcode ⊢
  cases hwrite : ((Output.new .builtin).generate compiled.plan).2.write tree options.output
      options.force with
  | ok tree' =>
    obtain ⟨path, place, hpath, hadmits, -, htree'⟩ :=
      (Output.write_eq_ok_iff htree hcontent).1 hwrite
    exact ⟨path, place, hpath, hadmits, htree'⟩
  | error error =>
    rw [hwrite] at hcode
    cases hcode

end

theorem grounded_oneFileTree : oneFileTree.Grounded where
  wellFormed := wellFormed_oneFileTree
  directory := rfl
  ordinary name hname := by
    rw [List.mem_singleton.1 hname]
    exact ⟨by decide, by decide, by decide, by decide, by decide⟩

/-- A query for a new file in the tree with one file. -/
def newFileOptions : QueryOptions :=
  ⟨some "SELECT din1 FROM board WHERE ain2 > 3", none, some "new.ino", false, true⟩

/-- What is shown of its plan. -/
def newFileDocument : String :=
  "\n".intercalate
    ["\x7b",
      "  \"pins\": \x7b",
      "    \"referenced\": [",
      "      \"ain2\",",
      "      \"din1\"",
      "    ],",
      "    \"outputs\": [",
      "      \"din1\"",
      "    ]",
      "  \x7d,",
      "  \"digital_in\": [",
      "    1",
      "  ],",
      "  \"analog_in\": [",
      "    2",
      "  ],",
      "  \"digital_out\": [",
      "    1",
      "  ],",
      "  \"analog_out\": [],",
      "  \"condition\": \"ain2 > 3\",",
      "  \"sleep\": \x7b",
      "    \"seconds\": 0,",
      "    \"milliseconds\": 0,",
      "    \"positive\": false",
      "  \x7d,",
      "  \"speed\": \x7b",
      "    \"baud\": 9600",
      "  \x7d,",
      "  \"target\": \"board\"",
      "\x7d"]

end CommandLine

end PinQuery
