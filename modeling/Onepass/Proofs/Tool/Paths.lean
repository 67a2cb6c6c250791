import Mathlib
import Onepass.Path

/-! Paths by their last element. A path is a folder followed by a name without slashes, and the name
of the assembly file differs from that of the source in what follows its last dot. -/
namespace Onepass.Path

def dot : UInt8 := Bytes.code '.'

/-- Whether a path is a folder, which ends with a slash unless it is empty, and a name in it. -/
structure Splits (path folder name : Bytes) : Prop where
  whole : path = folder ++ name
  plain : slash ∉ name
  closed : folder = [] ∨ folder.getLast? = some slash

theorem exists_splits (path : Bytes) : ∃ folder name, Splits path folder name := by
  refine ⟨(path.reverse.dropWhile (· ≠ slash)).reverse, (path.reverse.takeWhile (· ≠ slash)).reverse,
    ?_, ?_, ?_⟩
  · rw [← List.reverse_append, List.takeWhile_append_dropWhile, List.reverse_reverse]
  · intro member
    simpa using List.mem_takeWhile_imp (List.mem_reverse.mp member)
  · rw [List.getLast?_reverse, List.reverse_eq_nil_iff]
    cases rest : path.reverse.dropWhile (· ≠ slash) with
    | nil => exact .inl rfl
    | cons b before =>
      have stopped := List.head?_dropWhile_not (· ≠ slash) path.reverse
      rw [rest] at stopped
      exact .inr (by simpa using stopped)

section

variable {mark : UInt8} {text : Bytes} (absent : mark ∉ text)

include absent

private theorem takeWhile_ne_self : text.takeWhile (· ≠ mark) = text := by
  rw [List.takeWhile_eq_self_iff]
  intro b member
  exact decide_eq_true fun same => absent (same ▸ member)

private theorem takeWhile_ne_append (rest : Bytes) :
    (text ++ mark :: rest).takeWhile (· ≠ mark) = text := by
  rw [List.takeWhile_append, takeWhile_ne_self absent, if_pos rfl,
    List.takeWhile_cons_of_neg (by simp), List.append_nil]

end

namespace Splits

variable {path folder name : Bytes} (split : Splits path folder name)

include split

theorem takeWhile_reverse : path.reverse.takeWhile (· ≠ slash) = name.reverse := by
  have absent : slash ∉ name.reverse := mt List.mem_reverse.mp split.plain
  rw [split.whole, List.reverse_append]
  rcases split.closed with rfl | last
  · rw [List.reverse_nil, List.append_nil]
    exact takeWhile_ne_self absent
  · obtain ⟨before, rfl⟩ := List.getLast?_eq_some_iff.mp last
    rw [List.reverse_append]
    exact takeWhile_ne_append absent _

theorem dropWhile_reverse : path.reverse.dropWhile (· ≠ slash) = folder.reverse := by
  have whole := List.takeWhile_append_dropWhile (p := (· ≠ slash)) (l := path.reverse)
  rw [split.takeWhile_reverse] at whole
  exact List.append_cancel_left (whole.trans (by rw [split.whole, List.reverse_append]))

/-- The directory of a path is its folder. -/
theorem directory_eq : directory path = clean folder := by
  rw [directory, split.dropWhile_reverse, List.reverse_reverse]

/-- A name without a dot has no extension. -/
theorem extension_of_not_mem (absent : dot ∉ name) : extension path = [] := by
  have all : name.reverse.takeWhile (· ≠ Bytes.code '.') = name.reverse :=
    takeWhile_ne_self (mt List.mem_reverse.mp absent)
  unfold extension
  dsimp only
  rw [split.takeWhile_reverse, all]
  exact if_neg (lt_irrefl _)

/-- The extension of a path starts at the last dot of its name. -/
theorem extension_eq {stem tail : Bytes} (cut : name = stem ++ dot :: tail) (last : dot ∉ tail) :
    extension path = dot :: tail := by
  have backwards : name.reverse = tail.reverse ++ dot :: stem.reverse := by
    rw [cut]
    simp
  have found : name.reverse.takeWhile (· ≠ Bytes.code '.') = tail.reverse := by
    rw [backwards]
    exact takeWhile_ne_append (mt List.mem_reverse.mp last) _
  have shorter : tail.reverse.length < name.reverse.length := by
    rw [backwards]
    simp
  unfold extension
  dsimp only
  rw [split.takeWhile_reverse, found, if_pos shorter, List.reverse_reverse]
  rfl

end Splits

/-- The last dot of a name. -/
theorem exists_last_dot {name : Bytes} (present : dot ∈ name) :
    ∃ stem tail, name = stem ++ dot :: tail ∧ dot ∉ tail := by
  obtain ⟨tail, stem, cut, first⟩ := List.eq_append_cons_of_mem (List.mem_reverse.mpr present)
  refine ⟨stem.reverse, tail.reverse, ?_, by simpa using first⟩
  rw [← List.reverse_reverse name, cut]
  simp

/-- A path has the extension of assembly files if it ends with it. -/
theorem extension_eq_iff {path : Bytes} :
    extension path = assemblyExtension ↔ assemblyExtension <:+ path := by
  constructor
  · intro same
    obtain ⟨folder, name, split⟩ := exists_splits path
    by_cases present : dot ∈ name
    · obtain ⟨stem, tail, cut, last⟩ := exists_last_dot present
      rw [split.extension_eq cut last] at same
      exact ⟨folder ++ stem, by rw [split.whole, cut, ← same, List.append_assoc]⟩
    · rw [split.extension_of_not_mem present] at same
      cases same
  · rintro ⟨before, rfl⟩
    obtain ⟨folder, stem, split⟩ := exists_splits before
    have longer : Splits (before ++ assemblyExtension) folder (stem ++ assemblyExtension) := by
      refine ⟨by rw [split.whole, List.append_assoc], ?_, split.closed⟩
      rw [List.mem_append, not_or]
      exact ⟨split.plain, by decide⟩
    have cut : stem ++ assemblyExtension = stem ++ dot :: [Bytes.code 's'] := rfl
    exact longer.extension_eq cut (by decide)

namespace Splits

variable {path folder name : Bytes} (split : Splits path folder name)

include split

/-- Without a dot in the name, or where the extension is there already, the extension is added. -/
theorem assembly_added (kept : dot ∉ name ∨ assemblyExtension <:+ path) :
    assembly path = path ++ assemblyExtension := by
  unfold assembly
  dsimp only
  by_cases there : extension path = assemblyExtension
  · rw [if_pos there]
  · have absent := kept.resolve_right (mt extension_eq_iff.mpr there)
    rw [if_neg there, split.extension_of_not_mem absent, List.length_nil, Nat.sub_zero,
      List.take_length]

/-- Any other extension is replaced. -/
theorem assembly_replaced {stem tail : Bytes} (cut : name = stem ++ dot :: tail)
    (last : dot ∉ tail) (other : ¬ assemblyExtension <:+ path) :
    assembly path = folder ++ stem ++ assemblyExtension := by
  have whole : path = folder ++ stem ++ dot :: tail := by
    rw [split.whole, cut, List.append_assoc]
  unfold assembly
  dsimp only
  rw [if_neg (mt extension_eq_iff.mp other), split.extension_eq cut last, whole,
    List.length_append, Nat.add_sub_cancel, List.take_left]

/-- The assembly file lies in the folder of the source, under another name. -/
theorem assembly_splits : ∃ other, Splits (assembly path) folder (other ++ assemblyExtension) ∧
    other ++ assemblyExtension ≠ name := by
  have closing {stem : Bytes} (plain : slash ∉ stem) : slash ∉ stem ++ assemblyExtension := by
    rw [List.mem_append, not_or]
    exact ⟨plain, by decide⟩
  by_cases kept : dot ∉ name ∨ assemblyExtension <:+ path
  · refine ⟨name, ⟨?_, closing split.plain, split.closed⟩, fun same => ?_⟩
    · rw [split.assembly_added kept, split.whole, List.append_assoc]
    · exact absurd (List.append_right_eq_self.mp same) (by decide)
  · obtain ⟨present, other⟩ := not_or.mp kept
    obtain ⟨stem, tail, cut, last⟩ := exists_last_dot (not_not.mp present)
    refine ⟨stem, ⟨?_, closing fun member => ?_, split.closed⟩, fun same => ?_⟩
    · rw [split.assembly_replaced cut last other, List.append_assoc]
    · exact split.plain (by simp [cut, member])
    · exact other ⟨folder ++ stem, by rw [split.whole, ← same, List.append_assoc]⟩

end Splits

theorem assembly_ne (path : Bytes) : assembly path ≠ path := by
  obtain ⟨folder, name, split⟩ := exists_splits path
  obtain ⟨other, beside, different⟩ := split.assembly_splits
  intro same
  rw [beside.whole, split.whole] at same
  exact different (List.append_cancel_left same)

theorem suffix_assembly (path : Bytes) : assemblyExtension <:+ assembly path := by
  obtain ⟨folder, name, split⟩ := exists_splits path
  obtain ⟨other, beside, _⟩ := split.assembly_splits
  exact ⟨folder ++ other, by rw [beside.whole, List.append_assoc]⟩

theorem directory_assembly (path : Bytes) : directory (assembly path) = directory path := by
  obtain ⟨folder, name, split⟩ := exists_splits path
  obtain ⟨other, beside, _⟩ := split.assembly_splits
  rw [beside.directory_eq, split.directory_eq]

end Onepass.Path
