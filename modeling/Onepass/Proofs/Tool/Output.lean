import Onepass.Proofs.Tool.Files
import Onepass.Tool.Compile

/-! Where the compile tool writes. Unless an output is named, the assembly goes to a file of its own
beside the source, so no run of the tool changes the source it reads. -/
namespace Onepass.Tool.Compile

open World (SameFiles)

variable {w : World}

/-- The world that an action leaves. -/
def worldAfter {α : Type} (action : StateM World α) (w : World) : World := (action.run w).2

theorem worldAfter_bind {α β : Type} (action : StateM World α) (next : α → StateM World β)
    (w : World) : worldAfter (action >>= next) w =
      worldAfter (next (action.run w).1) (worldAfter action w) := rfl

theorem worldAfter_bind_eq {α β : Type} {action : StateM World α} {next : α → StateM World β}
    (first : worldAfter action w = w) (rest : ∀ a, worldAfter (next a) w = w) :
    worldAfter (action >>= next) w = w := by
  rw [worldAfter_bind, first, rest]

theorem sameFiles_runProgram (assembly : Bytes) (platform : Platform) (w : World) :
    SameFiles w (worldAfter (runProgram assembly platform) w) := by
  unfold runProgram
  rcases execute assembly platform with ⟨output, status, failure⟩
  cases failure with
  | none => exact .send w output .output
  | some message => exact (SameFiles.send w output .output).trans (.send _ _ .errors)

/-- Reading and compiling change nothing. -/
theorem worldAfter_compileInput (path : Bytes) (platform : Platform) (w : World) :
    worldAfter (compileInput path platform) w = w := by
  unfold compileInput
  dsimp only
  split
  · refine worldAfter_bind_eq rfl fun input => ?_
    rw [pure_bind]
    dsimp only
    cases compile ⟨path, input⟩ platform <;> rfl
  · refine worldAfter_bind_eq rfl fun result => ?_
    cases result with
    | error e => rfl
    | ok text =>
      dsimp only
      rw [pure_bind]
      dsimp only
      cases compile ⟨path, text⟩ platform <;> rfl

theorem worldAfter_writeFile {α : Type} (path contents : Bytes) (w : World)
    (next : Except FileError Unit → StateM World α) :
    worldAfter (writeFile path contents >>= next) w =
      match w.write path contents with
      | .ok after => worldAfter (next (.ok ())) after
      | .error e => worldAfter (next (.error e)) w := by
  have opened : worldAfter (writeFile path contents >>= next) w =
      worldAfter ((match w.write path contents with
        | .ok after => do
          set after
          return .ok ()
        | .error e => return .error e) >>= next) w := rfl
  rw [opened]
  cases w.write path contents <;> rfl

/-- Without a named output, the assembly is written beside its source or to a stream. -/
theorem writeAssembly_cases (assembly path : Bytes) (w : World) :
    SameFiles w (worldAfter (writeAssembly assembly [] path) w) ∨
      w.write (Path.assembly path) assembly =
        .ok (worldAfter (writeAssembly assembly [] path) w) := by
  unfold writeAssembly
  by_cases empty : path = []
  · subst empty
    exact .inl (.send w assembly .output)
  · have target : (if ([] : Bytes) = [] ∧ path ≠ [] then Path.assembly path else []) =
        Path.assembly path := if_pos ⟨rfl, empty⟩
    have long : 2 ≤ (Path.assembly path).length := (Path.suffix_assembly path).length_le
    have named : ¬ (Path.assembly path = [] ∨ Path.assembly path = "-") := by
      rintro (none | stream)
      · exact absurd (none ▸ long) (by decide)
      · exact absurd (stream ▸ long) (by decide)
    rw [target]
    dsimp only
    rw [if_neg named, worldAfter_writeFile]
    cases written : w.write (Path.assembly path) assembly with
    | ok after => exact .inr rfl
    | error e => exact .inl (.send w _ .errors)

/-- What a run of the tool on a source does to the files: nothing, or it writes the assembly beside
the source. -/
theorem run_cases {arguments : List Bytes} {options : Options} {path : Bytes}
    (given : Options.read {} arguments = .ok options) (operand : options.operands = [path])
    (unnamed : options.output = []) (w : World) :
    SameFiles w (worldAfter (run arguments) w) ∨
      ∃ assembly, w.write (Path.assembly path) assembly = .ok (worldAfter (run arguments) w) := by
  unfold run
  simp only [given, operand]
  cases Platform.ofName? options.platform with
  | none => exact .inl (.send w _ .errors)
  | some platform =>
    dsimp only [List.headD_cons]
    have read := worldAfter_compileInput path platform w
    rw [worldAfter_bind, read]
    cases ((compileInput path platform : StateM World (Except Bytes Bytes)).run w).1 with
    | error message => exact .inl (.send w _ .errors)
    | ok assembly =>
      dsimp only
      split
      · exact .inl (sameFiles_runProgram assembly platform w)
      · rw [unnamed]
        exact (writeAssembly_cases assembly path w).imp_right fun written => ⟨assembly, written⟩

/-- The assembly of a source lies beside it. Its path ends with the extension of assembly files,
differs from the path of the source and has the same directory. It goes on with the extension after
all of the path where the name has no dot or ends with that extension already, and otherwise after
what comes before the last dot of the name. So a run of the tool on a source that names no output
leaves the source as it is, and every file but the one at that path. -/
theorem assembly_spares_source (path : Bytes) :
    Path.assembly path ≠ path ∧
    Path.assemblyExtension <:+ Path.assembly path ∧
    Path.directory (Path.assembly path) = Path.directory path ∧
    (∀ folder name, Path.Splits path folder name →
      (Path.dot ∉ name ∨ Path.assemblyExtension <:+ path →
        Path.assembly path = path ++ Path.assemblyExtension) ∧
      ∀ stem tail, name = stem ++ Path.dot :: tail → Path.dot ∉ tail →
        ¬ Path.assemblyExtension <:+ path →
          Path.assembly path = folder ++ stem ++ Path.assemblyExtension) ∧
    ∀ (arguments : List Bytes) (options : Options), Options.read {} arguments = .ok options →
      options.operands = [path] → options.output = [] → ∀ w : World,
        (worldAfter (run arguments) w).read path = w.read path ∧
        ∀ place, (worldAfter (run arguments) w).file? place ≠ w.file? place →
          w.resolve (Path.assembly path) = .ok place := by
  refine ⟨Path.assembly_ne path, Path.suffix_assembly path, Path.directory_assembly path,
    fun folder name split => ⟨split.assembly_added, fun stem tail => split.assembly_replaced⟩,
    fun arguments options given operand unnamed w => ?_⟩
  rcases run_cases given operand unnamed w with same | ⟨assembly, written⟩
  · exact ⟨same.read_eq path, fun place changed => absurd (same.file?_eq place) changed⟩
  · exact World.write_assembly_spares written

/-- A world with a source in a directory with a dot. -/
private def storing : World where
  files := [⟨["work", "a.b", "prog.v1.sf"], "print 7"⟩]
  directory := ["work"]
  input := []

theorem assembly_spares_source_dotted :
    Path.assembly "a.b/prog.v1.sf" = "a.b/prog.v1.s" ∧
    Path.assembly "a.b/prog" = "a.b/prog.s" ∧
    (worldAfter (run ["-target", "darwin", "a.b/prog.v1.sf"]) storing).read "a.b/prog.v1.sf" =
      .ok "print 7" ∧
    ((worldAfter (run ["-target", "darwin", "a.b/prog.v1.sf"]) storing).file?
      ["work", "a.b", "prog.v1.s"]).isSome = true := by
  obtain ⟨_, _, _, splits, _⟩ := assembly_spares_source "a.b/prog"
  obtain ⟨_, _, _, dotted, spares⟩ := assembly_spares_source "a.b/prog.v1.sf"
  refine ⟨(dotted "a.b/" "prog.v1.sf" ⟨by decide, by decide, by decide⟩).2 "prog.v1" "sf"
      (by decide) (by decide) (by decide),
    (splits "a.b/" "prog" ⟨by decide, by decide, by decide⟩).1 (.inl (by decide)), ?_, ?_⟩
  · have options : Options.read {} ["-target", "darwin", "a.b/prog.v1.sf"] =
        .ok { platform := "darwin", operands := ["a.b/prog.v1.sf"] } := by decide +kernel
    rw [(spares _ _ options rfl rfl storing).1]
    decide
  · decide +kernel

end Onepass.Tool.Compile
