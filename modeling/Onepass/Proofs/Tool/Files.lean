import Onepass.Proofs.Action
import Onepass.Proofs.Tool.Paths
import Onepass.Tool.World

/-! Files under their places. A file is put where its parent is a directory already, so putting it
makes no new directory and moves no other path: what is read elsewhere stays the same. -/
namespace Onepass

namespace Bytes

theorem splitOn_of_not_mem {mark : UInt8} {text : Bytes} (absent : mark ∉ text) :
    splitOn mark text = [text] := by
  induction text with
  | nil => rfl
  | cons b rest ih =>
    obtain ⟨other, later⟩ := not_or.mp (mt List.mem_cons.mpr absent)
    rw [splitOn, if_neg (Ne.symm other), ih later]

/-- The part after the last mark stands by itself. -/
theorem splitOn_append {mark : UInt8} {name : Bytes} (absent : mark ∉ name) (before : Bytes) :
    splitOn mark (before ++ mark :: name) = splitOn mark before ++ [name] := by
  induction before with
  | nil => simp [splitOn, splitOn_of_not_mem absent]
  | cons b rest ih =>
    have some_part := splitOn_ne_nil mark rest
    simp only [List.cons_append, splitOn, ih]
    split
    · rfl
    · cases cut : splitOn mark rest with
      | nil => exact absurd cut some_part
      | cons part parts => rfl

end Bytes

namespace Path

/-- The elements of a path are those of its folder and its name. -/
theorem Splits.splitOn_eq {path folder name : Bytes} (split : Splits path folder name) :
    Bytes.splitOn slash path = (Bytes.splitOn slash folder).dropLast ++ [name] := by
  rw [split.whole]
  rcases split.closed with rfl | last
  · exact Bytes.splitOn_of_not_mem split.plain
  · obtain ⟨before, rfl⟩ := List.getLast?_eq_some_iff.mp last
    rw [List.append_assoc, Bytes.splitOn_append List.not_mem_nil, List.dropLast_concat]
    exact Bytes.splitOn_append split.plain before

theorem Splits.isAbsolute_eq {path folder name : Bytes} (split : Splits path folder name) :
    isAbsolute path = isAbsolute folder := by
  rw [split.whole]
  cases folder with
  | cons b rest => rfl
  | nil =>
    cases name with
    | nil => rfl
    | cons b rest =>
      have other : b ≠ slash := fun same => split.plain (by simp [same])
      simpa [isAbsolute] using other

end Path

namespace Tool.World

variable {w after : World} {place parent q target : List Bytes} {path contents : Bytes}

/-- A file with new contents if it is at a place. -/
private def replaced (place : List Bytes) (contents : Bytes) (file : StoredFile) : StoredFile :=
  if file.path = place then ⟨place, contents⟩ else file

private theorem path_replaced (file : StoredFile) :
    (replaced place contents file).path = file.path := by
  unfold replaced
  split
  · exact Eq.symm ‹_›
  · rfl

private theorem put_of_some {file : StoredFile} (found : w.file? place = some file)
    (contents : Bytes) :
    w.put place contents = { w with files := w.files.map (replaced place contents) } := by
  rw [put, found]
  rfl

private theorem put_of_none (absent : w.file? place = none) (contents : Bytes) :
    w.put place contents = { w with files := w.files ++ [⟨place, contents⟩] } := by
  rw [put, absent]

@[simp] theorem directory_put (w : World) (place : List Bytes) (contents : Bytes) :
    (w.put place contents).directory = w.directory := by
  unfold put
  split <;> rfl

@[simp] theorem input_put (w : World) (place : List Bytes) (contents : Bytes) :
    (w.put place contents).input = w.input := by
  unfold put
  split <;> rfl

theorem path_of_file? {file : StoredFile} (found : w.file? place = some file) :
    file.path = place := by
  simpa using List.find?_some found

/-- Only the place where a file is put holds something else. -/
theorem file?_put (w : World) (place q : List Bytes) (contents : Bytes) :
    (w.put place contents).file? q =
      if q = place then some ⟨place, contents⟩ else w.file? q := by
  cases found : w.file? place with
  | none =>
    rw [put_of_none found, file?, List.find?_append]
    by_cases same : q = place
    · subst same
      rw [file?] at found
      simp [found]
    · simp [file?, same, Ne.symm same]
  | some file =>
    have unmoved : (fun file : StoredFile => decide (file.path = q)) ∘ replaced place contents =
        fun file => decide (file.path = q) := by
      funext file
      rw [Function.comp_apply, path_replaced]
    rw [put_of_some found, file?, List.find?_map, unmoved]
    change (w.file? q).map _ = _
    by_cases same : q = place
    · subst same
      rw [if_pos rfl, found, Option.map_some, replaced, if_pos (path_of_file? found)]
    · rw [if_neg same]
      cases there : w.file? q with
      | none => rfl
      | some other =>
        rw [Option.map_some, replaced, if_neg (by rwa [path_of_file? there])]

/-- The paths of the files are the old ones and the place of the new one. -/
theorem exists_mem_put (P : List Bytes → Prop) :
    (∃ file ∈ (w.put place contents).files, P file.path) ↔
      (∃ file ∈ w.files, P file.path) ∨ P place := by
  cases found : w.file? place with
  | none =>
    rw [put_of_none found]
    simp [or_and_right, exists_or]
  | some file =>
    have there : P place → ∃ file ∈ w.files, P file.path := fun holds =>
      ⟨file, List.mem_of_find?_eq_some found, path_of_file? found ▸ holds⟩
    rw [put_of_some found, or_iff_left_of_imp there]
    simp [path_replaced]

theorem isDirectory_iff : w.isDirectory q = true ↔ q <+: w.directory ∨
    (∃ name ∈ systemDirectories, q = [name]) ∨
    ∃ file ∈ w.files, q <+: file.path ∧ q ≠ file.path := by
  simp [isDirectory, or_assoc]

/-- What lies above a directory is a directory. -/
theorem isDirectory_of_below (above : q <+: place) (directory : w.isDirectory place = true) :
    w.isDirectory q = true := by
  rw [isDirectory_iff] at directory ⊢
  rcases directory with working | ⟨name, listed, rfl⟩ | ⟨file, stored, inside, other⟩
  · exact .inl (above.trans working)
  · rcases List.prefix_cons_iff.mp above with rfl | ⟨rest, rfl, empty⟩
    · exact .inl (List.nil_prefix)
    · exact .inr (.inl ⟨name, listed, by rw [List.prefix_nil.mp empty]⟩)
  · refine .inr (.inr ⟨file, stored, above.trans inside, ?_⟩)
    rintro rfl
    exact other (inside.eq_of_length (le_antisymm inside.length_le above.length_le))

/-- Putting a file into a directory makes no other directory. -/
theorem isDirectory_put (inside : w.isDirectory parent = true) (name contents : Bytes)
    (q : List Bytes) :
    (w.put (parent ++ [name]) contents).isDirectory q = w.isDirectory q := by
  have above (holds : q <+: parent ++ [name] ∧ q ≠ parent ++ [name]) :
      w.isDirectory q = true := by
    obtain ⟨before, other⟩ := holds
    exact isDirectory_of_below ((List.prefix_concat_iff.mp before).resolve_left other) inside
  rw [Bool.eq_iff_iff, isDirectory_iff, directory_put,
    exists_mem_put fun path => q <+: path ∧ q ≠ path]
  have merged := or_iff_left_of_imp above
  simpa only [isDirectory_iff, or_assoc] using merged

/-- The place that a name leads to from a directory. -/
def enter (place : List Bytes) (name : Bytes) : List Bytes :=
  if name = [] ∨ name = "." then place
  else if name = ".." then place.dropLast
  else place ++ [name]

theorem walk_cons (w : World) (place : List Bytes) (name : Bytes) (names : List Bytes) :
    w.walk place (name :: names) = (w.walk place [name] >>= fun next => w.walk next names) := by
  simp only [walk]
  split
  · split
    · rfl
    · rfl
  · split <;> rfl

theorem walk_append (w : World) (place : List Bytes) (names more : List Bytes) :
    w.walk place (names ++ more) = (w.walk place names >>= fun next => w.walk next more) := by
  induction names generalizing place with
  | nil => rfl
  | cons name names ih =>
    rw [List.cons_append, walk_cons, walk_cons w place name names]
    cases w.walk place [name] with
    | error reason => rfl
    | ok next => exact ih next

/-- A name is followed from directories only. -/
theorem walk_singleton (directory : w.isDirectory place = true) (name : Bytes) :
    w.walk place [name] =
      if maxNameLength < name.length then .error .nameTooLong else .ok (enter place name) := by
  simp only [walk, directory, if_true]
  rfl

theorem walk_singleton_eq_ok {name : Bytes} (reached : w.walk place [name] = .ok target) :
    w.isDirectory place = true ∧ target = enter place name := by
  cases directory : w.isDirectory place with
  | false =>
    rw [walk, if_neg (by simp [directory])] at reached
    split at reached <;> cases reached
  | true =>
    rw [walk_singleton directory] at reached
    split at reached
    · cases reached
    · exact ⟨rfl, (Except.ok.inj reached).symm⟩

/-- Where the directories are the same, names lead to the same places. -/
theorem walk_congr (same : ∀ q, after.isDirectory q = w.isDirectory q) {names : List Bytes}
    (reached : w.walk place names = .ok target) : after.walk place names = .ok target := by
  induction names generalizing place with
  | nil => exact reached
  | cons name names ih =>
    rw [walk_cons] at reached ⊢
    obtain ⟨next, first, rest⟩ := bind_eq_ok.mp reached
    obtain ⟨directory, _⟩ := walk_singleton_eq_ok first
    have again : after.walk place [name] = .ok next := by
      rw [walk_singleton directory] at first
      rw [walk_singleton (by rw [same, directory]), first]
    rw [again]
    exact ih rest

/-- The place of a folder. -/
def enclosing (w : World) (folder : Bytes) : Except FileError.Reason (List Bytes) :=
  w.walk (if Path.isAbsolute folder then [] else w.directory)
    (Bytes.splitOn Path.slash folder).dropLast

section

variable {folder name : Bytes} (split : Path.Splits path folder name)

include split

/-- A path is resolved by its folder first, and then by its name. -/
theorem resolve_eq (w : World) : w.resolve path =
    if path = [] then .error .notFound
    else if maxPathLength < path.length then .error .nameTooLong
    else w.enclosing folder >>= fun parent => w.walk parent [name] := by
  rw [resolve, split.isAbsolute_eq, split.splitOn_eq, walk_append]
  rfl

theorem resolve_eq_ok (found : w.resolve path = .ok place) : ∃ parent,
    w.enclosing folder = .ok parent ∧ w.isDirectory parent = true ∧ place = enter parent name := by
  rw [resolve_eq split] at found
  split at found
  · cases found
  split at found
  · cases found
  obtain ⟨parent, reached, entered⟩ := bind_eq_ok.mp found
  exact ⟨parent, reached, walk_singleton_eq_ok entered⟩

end

/-- A name with the extension of assembly files leads into the directory. -/
theorem enter_assembly (parent : List Bytes) (other : Bytes) :
    enter parent (other ++ Path.assemblyExtension) =
      parent ++ [other ++ Path.assemblyExtension] := by
  have last : (other ++ Path.assemblyExtension).getLast? = some (Bytes.code 's') := by
    rw [List.getLast?_append]
    rfl
  have named {text : Bytes} (differs : text.getLast? ≠ some (Bytes.code 's')) :
      other ++ Path.assemblyExtension ≠ text := fun same => differs (same ▸ last)
  rw [enter, if_neg (not_or.mpr ⟨named (by decide), named (by decide)⟩), if_neg (named (by decide))]

/-- What a name leads to from a directory is no other file in it. -/
theorem enter_ne {name other : Bytes} (different : other ≠ name) :
    enter parent name ≠ parent ++ [other] := by
  unfold enter
  intro same
  split at same
  · simp at same
  split at same
  · have length := congrArg List.length same
    rw [List.length_dropLast, List.length_append, List.length_singleton] at length
    omega
  · exact different (List.singleton_injective (List.append_cancel_left same)).symm

/-- What a path gives depends on where it leads and on what is there. -/
theorem read_congr (resolved : after.resolve path = w.resolve path)
    (input : after.input = w.input) (kept : ∀ place, w.resolve path = .ok place →
      after.isDirectory place = w.isDirectory place ∧ after.file? place = w.file? place) :
    after.read path = w.read path := by
  have received (device : Device) : after.receive device = w.receive device := by
    cases device with
    | input => exact input
    | null => rfl
    | output => rfl
    | errors => rfl
  rw [read, read, resolved]
  cases found : w.resolve path with
  | error reason => rfl
  | ok place =>
    obtain ⟨directory, file⟩ := kept place found
    simp only [directory, file, received]

/-- Worlds with the same files, whatever was written to the streams. -/
structure SameFiles (w after : World) : Prop where
  files : after.files = w.files
  directory : after.directory = w.directory
  input : after.input = w.input

namespace SameFiles

theorem trans {middle : World} (first : SameFiles w middle) (second : SameFiles middle after) :
    SameFiles w after :=
  ⟨second.files.trans first.files, second.directory.trans first.directory,
    second.input.trans first.input⟩

/-- Writing to a stream touches no file. -/
theorem send (w : World) (text : Bytes) (device : Device) : SameFiles w (w.send text device) := by
  cases device <;> exact ⟨rfl, rfl, rfl⟩

variable (same : SameFiles w after)

include same

theorem file?_eq (q : List Bytes) : after.file? q = w.file? q := by
  rw [file?, file?, same.files]

theorem isDirectory_eq (q : List Bytes) : after.isDirectory q = w.isDirectory q := by
  rw [isDirectory, isDirectory, same.files, same.directory]

theorem walk_eq (names : List Bytes) : after.walk place names = w.walk place names := by
  induction names generalizing place with
  | nil => rfl
  | cons name names ih =>
    rw [walk, walk, ih, same.isDirectory_eq, hasFile, same.file?_eq]
    rfl

theorem read_eq (path : Bytes) : after.read path = w.read path := by
  have resolved : after.resolve path = w.resolve path := by
    rw [resolve, resolve, same.walk_eq, same.directory]
  exact read_congr resolved same.input fun place _ =>
    ⟨same.isDirectory_eq place, same.file?_eq place⟩

end SameFiles

/-- Writing ends with the contents at the place of the path or in a stream. -/
theorem write_eq_ok (unclosed : path.getLast? ≠ some Path.slash)
    (written : w.write path contents = .ok after) :
    ∃ place, w.resolve path = .ok place ∧
      (after = w.put place contents ∨ SameFiles w after) := by
  have whole : Bytes.dropTrailing Path.slash path = path := by
    rw [← List.head?_reverse] at unclosed
    rw [Bytes.dropTrailing]
    cases backwards : path.reverse with
    | nil => rw [List.reverse_eq_nil_iff.mp backwards]; rfl
    | cons b rest =>
      rw [backwards] at unclosed
      have other : b ≠ Path.slash := by simpa using unclosed
      rw [List.dropWhile_cons_of_neg (by simpa using other), ← backwards, List.reverse_reverse]
  rw [write, whole] at written
  simp only [ite_self] at written
  cases found : w.resolve path with
  | error reason =>
    rw [found] at written
    cases written
  | ok place =>
    refine ⟨place, rfl, ?_⟩
    simp only [found] at written
    split at written
    · cases written
    cases device : Device.ofPlace? place with
    | none =>
      simp only [device] at written
      exact .inl (Except.ok.inj written).symm
    | some d =>
      simp only [device] at written
      exact .inr (Except.ok.inj written ▸ .send w contents d)

/-- Writing the assembly beside a source leaves the source as it is, and every other file. -/
theorem write_assembly_spares (written : w.write (Path.assembly path) contents = .ok after) :
    after.read path = w.read path ∧
      ∀ place, after.file? place ≠ w.file? place →
        w.resolve (Path.assembly path) = .ok place := by
  obtain ⟨folder, name, split⟩ := Path.exists_splits path
  obtain ⟨other, beside, different⟩ := split.assembly_splits
  have unclosed : (Path.assembly path).getLast? ≠ some Path.slash := by
    rw [beside.whole, ← List.append_assoc, List.getLast?_append]
    exact (by decide : some (Bytes.code 's') ≠ some Path.slash)
  obtain ⟨target, found, rfl | same⟩ := write_eq_ok unclosed written
  · -- Both paths have one parent, in which the new file has a place of its own.
    obtain ⟨parent, reached, inside, rfl⟩ := resolve_eq_ok beside found
    rw [enter_assembly] at found ⊢
    have directories := isDirectory_put inside (other ++ Path.assemblyExtension) contents
    have again : (w.put (parent ++ [other ++ Path.assemblyExtension]) contents).enclosing folder =
        .ok parent := by
      rw [enclosing, directory_put]
      exact walk_congr directories reached
    constructor
    · refine read_congr ?_ (input_put ..) fun place led => ⟨directories place, ?_⟩
      · rw [resolve_eq split, resolve_eq split, again, reached, ok_bind, ok_bind,
          walk_singleton inside, walk_singleton (by rw [directories, inside])]
      · obtain ⟨_, reached', _, rfl⟩ := resolve_eq_ok split led
        obtain rfl := Except.ok.inj (reached.symm.trans reached')
        rw [file?_put, if_neg (enter_ne different)]
    · intro place changed
      rw [file?_put] at changed
      rw [found, (ite_ne_right_iff.mp changed).1]
  · exact ⟨same.read_eq path, fun place changed => absurd (same.file?_eq place) changed⟩

end Tool.World

end Onepass
