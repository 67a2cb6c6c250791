import Mathlib.Tactic.Common
import Onepass.Text.Utf8

/-! Reading UTF-8 takes back what writing it gives, and whatever the bytes are, those of ASCII
characters are always read as such. -/
namespace Onepass.Utf8

theorem toNat_ofNat {n : Nat} (small : n < 256) : (UInt8.ofNat n).toNat = n := by
  rw [UInt8.toNat_ofNat', Nat.mod_eq_of_lt small]

/-- A continuation byte gives its bits back. -/
theorem continuation?_ofNat {n : Nat} (small : n < 64) :
    continuation? (UInt8.ofNat (n + 128)) = some n := by
  have value : (UInt8.ofNat (n + 128)).toNat = n + 128 := toNat_ofNat (by omega)
  have low : (0x80 : UInt8) ≤ UInt8.ofNat (n + 128) := by
    rw [UInt8.le_iff_toNat_le, value]
    exact Nat.le_add_left ..
  have high : UInt8.ofNat (n + 128) ≤ (0xBF : UInt8) := by
    rw [UInt8.le_iff_toNat_le, value]
    have top : (0xBF : UInt8).toNat = 191 := rfl
    omega
  rw [continuation?, if_pos ⟨low, high⟩, value, Nat.add_sub_cancel]

section

variable {a x y z : Nat} (rest : Bytes)

theorem head?_one (small : a < 0x80) :
    head? (UInt8.ofNat a :: rest) = some (Char.ofNat a, 1) := by
  have value := toNat_ofNat (show a < 256 by omega)
  simp only [head?, value, if_pos small]

theorem head?_two (low : 2 ≤ a) (high : a < 32) (second : x < 64) :
    head? (UInt8.ofNat (a + 192) :: UInt8.ofNat (x + 128) :: rest) =
      some (Char.ofNat (a * 64 + x), 2) := by
  have value := toNat_ofNat (show a + 192 < 256 by omega)
  simp only [head?, value]
  rw [if_neg (by omega), if_pos (by omega), Nat.add_sub_cancel]
  simp only [List.getElem?_cons_zero, continuation?_ofNat second, Option.bind_eq_bind,
    Option.bind_some]
  rfl

theorem head?_three (high : a < 16) (second : x < 64) (third : y < 64)
    (long : 0x800 ≤ (a * 64 + x) * 64 + y)
    (scalar : (a * 64 + x) * 64 + y < 0xD800 ∨ 0xDFFF < (a * 64 + x) * 64 + y) :
    head? (UInt8.ofNat (a + 224) :: UInt8.ofNat (x + 128) :: UInt8.ofNat (y + 128) :: rest) =
      some (Char.ofNat ((a * 64 + x) * 64 + y), 3) := by
  have value := toNat_ofNat (show a + 224 < 256 by omega)
  simp only [head?, value]
  rw [if_neg (by omega), if_neg (by omega), if_pos (by omega), Nat.add_sub_cancel]
  simp only [List.getElem?_cons_zero, List.getElem?_cons_succ, continuation?_ofNat second,
    continuation?_ofNat third, Option.bind_eq_bind, Option.bind_some]
  rw [if_pos (by omega)]
  rfl

theorem head?_four (high : a < 5) (second : x < 64) (third : y < 64) (fourth : z < 64)
    (long : 0x10000 ≤ ((a * 64 + x) * 64 + y) * 64 + z)
    (top : ((a * 64 + x) * 64 + y) * 64 + z ≤ 0x10FFFF) :
    head? (UInt8.ofNat (a + 240) :: UInt8.ofNat (x + 128) :: UInt8.ofNat (y + 128) ::
      UInt8.ofNat (z + 128) :: rest) = some (Char.ofNat (((a * 64 + x) * 64 + y) * 64 + z), 4) := by
  have value := toNat_ofNat (show a + 240 < 256 by omega)
  simp only [head?, value]
  rw [if_neg (by omega), if_neg (by omega), if_neg (by omega), if_pos (by omega),
    Nat.add_sub_cancel]
  simp only [List.getElem?_cons_zero, List.getElem?_cons_succ, continuation?_ofNat second,
    continuation?_ofNat third, continuation?_ofNat fourth, Option.bind_eq_bind, Option.bind_some]
  rw [if_pos (by omega)]
  rfl

end

/-- A character at the head of a text is read back, with the number of its bytes. -/
theorem head?_encodeChar (c : Char) (rest : Bytes) :
    head? (encodeChar c ++ rest) = some (c, (encodeChar c).length) := by
  have valid : c.val.toNat < 0xD800 ∨ 0xDFFF < c.val.toNat ∧ c.val.toNat < 0x110000 := c.valid
  have read {n width : Nat} (same : n = c.val.toNat) :
      some (Char.ofNat n, width) = some (c, width) := by
    rw [same]
    exact congrArg (fun d => some (d, width)) c.ofNat_toNat
  unfold encodeChar String.utf8EncodeChar
  dsimp only
  split
  · exact (head?_one rest (by omega)).trans (read rfl)
  split
  · exact (head?_two rest (by omega) (by omega) (by omega)).trans (read (by omega))
  split
  · exact (head?_three rest (by omega) (by omega) (by omega) (by omega) (by omega)).trans
      (read (by omega))
  · exact (head?_four rest (by omega) (by omega) (by omega) (by omega) (by omega) (by omega)).trans
      (read (by omega))

theorem segmentsFrom_append (skipped rest : Bytes) :
    segmentsFrom skipped.length (skipped ++ rest) = segmentsFrom 0 rest := by
  induction skipped with
  | nil => rfl
  | cons b skipped ih => simpa [segmentsFrom] using ih

/-! Bytes below 128 are characters wherever they stand. -/

theorem continuation?_le {b : UInt8} {x : Nat} (found : continuation? b = some x) : x < 64 := by
  unfold continuation? at found
  split at found
  · rename_i within
    have high : b.toNat ≤ 0xBF := within.2
    have same := Option.some.inj found
    omega
  · cases found

/-- What is read at the head of a text: an ASCII byte, or a longer character outside of ASCII. -/
theorem head?_eq_some {b : UInt8} {rest : Bytes} {c : Char} {width : Nat}
    (found : head? (b :: rest) = some (c, width)) :
    width ≤ rest.length + 1 ∧ (c.toNat < 0x80 → c.toNat = b.toNat) := by
  have value {n : Nat} (valid : n.isValidChar) : (Char.ofNat n).toNat = n := by
    rw [Char.ofNat, dif_pos valid]
    rfl
  have here {i : Nat} {x : UInt8} (present : rest[i]? = some x) : i < rest.length :=
    (List.getElem?_eq_some_iff.mp present).1
  simp only [head?, Option.bind_eq_bind, Option.pure_def] at found
  by_cases small : b.toNat < 0x80
  · rw [if_pos small] at found
    obtain ⟨rfl, rfl⟩ := Prod.mk.inj (Option.some.inj found)
    exact ⟨Nat.le_add_left .., fun _ => value (.inl (by omega))⟩
  rw [if_neg small] at found
  by_cases pair : 0xC2 ≤ b.toNat ∧ b.toNat ≤ 0xDF
  · rw [if_pos pair] at found
    obtain ⟨_, first, x, one, same⟩ := by simpa only [Option.bind_eq_some_iff] using found
    obtain ⟨rfl, rfl⟩ := Prod.mk.inj (Option.some.inj same)
    have low := continuation?_le one
    rw [value (.inl (by omega))]
    exact ⟨Nat.succ_le_succ (here first), fun _ => by omega⟩
  rw [if_neg pair] at found
  by_cases triple : 0xE0 ≤ b.toNat ∧ b.toNat ≤ 0xEF
  · rw [if_pos triple] at found
    obtain ⟨_, first, _, second, x, one, y, two, same⟩ := by
      simpa only [Option.bind_eq_some_iff] using found
    obtain ⟨valid, same⟩ := Option.ite_none_right_eq_some.mp same
    obtain ⟨rfl, rfl⟩ := Prod.mk.inj (Option.some.inj same)
    have low := continuation?_le one
    have lower := continuation?_le two
    rw [value (by unfold Nat.isValidChar; omega)]
    exact ⟨Nat.succ_le_succ (here second), fun _ => by omega⟩
  rw [if_neg triple] at found
  by_cases quadruple : 0xF0 ≤ b.toNat ∧ b.toNat ≤ 0xF4
  · rw [if_pos quadruple] at found
    obtain ⟨_, first, _, second, _, third, x, one, y, two, z, three, same⟩ := by
      simpa only [Option.bind_eq_some_iff] using found
    obtain ⟨valid, same⟩ := Option.ite_none_right_eq_some.mp same
    obtain ⟨rfl, rfl⟩ := Prod.mk.inj (Option.some.inj same)
    have low := continuation?_le one
    have lower := continuation?_le two
    have lowest := continuation?_le three
    rw [value (by unfold Nat.isValidChar; omega)]
    exact ⟨Nat.succ_le_succ (here third), fun _ => by omega⟩
  · rw [if_neg quadruple] at found
    cases found

section

variable {b : UInt8} (ascii : b < 0x80)

include ascii

theorem head?_ascii (rest : Bytes) : head? (b :: rest) = some (Char.ofNat b.toNat, 1) := by
  have small : b.toNat < 0x80 := ascii
  simp [head?, small]

/-- An ASCII byte is no part of a longer character, so what comes before it is read without it. -/
theorem head?_append_ascii (a : UInt8) (rest after : Bytes) :
    head? (a :: (rest ++ b :: after)) = head? (a :: rest) := by
  have low : ¬ (0x80 ≤ b ∧ b ≤ 0xBF) := fun high => absurd ascii (UInt8.not_lt.mpr high.1)
  have outside : continuation? b = none := if_neg low
  rcases rest with _ | ⟨x, _ | ⟨y, _ | ⟨z, rest⟩⟩⟩
  case cons.cons.cons => rfl
  all_goals simp only [head?, List.cons_append, List.nil_append, List.getElem?_cons_zero,
    List.getElem?_cons_succ, List.getElem?_nil, Option.bind_eq_bind, Option.bind_some,
    Option.bind_none, outside, Option.bind_fun_none]

theorem segmentsFrom_append_ascii {skip : Nat} {before : Bytes} (few : skip ≤ before.length)
    (after : Bytes) : segmentsFrom skip (before ++ b :: after) =
      segmentsFrom skip before ++ (Char.ofNat b.toNat, [b]) :: segmentsFrom 0 after := by
  induction before generalizing skip with
  | nil =>
    obtain rfl := Nat.le_zero.mp few
    simp only [List.nil_append, segmentsFrom, head?_ascii ascii]
    rfl
  | cons a rest ih =>
    cases skip with
    | succ skip => exact ih (Nat.le_of_succ_le_succ few)
    | zero =>
      simp only [List.cons_append, segmentsFrom, head?_append_ascii ascii]
      cases found : head? (a :: rest) with
      | none => exact congrArg (List.cons _) (ih (Nat.zero_le _))
      | some read =>
        obtain ⟨c, width⟩ := read
        have short := (head?_eq_some found).1
        have taken : ((a :: rest) ++ b :: after).take width = (a :: rest).take width :=
          List.take_append_of_le_length short
        rw [List.cons_append] at taken
        simp only [taken, List.cons_append]
        exact congrArg (List.cons _) (ih (by omega))

/-- ASCII bytes cut a text for its characters as they cut it for its bytes. -/
theorem decode_append_ascii (before after : Bytes) :
    decode (before ++ b :: after) = decode before ++ Char.ofNat b.toNat :: decode after := by
  simp [decode, segments, segmentsFrom_append_ascii ascii (Nat.zero_le before.length)]

end

/-- A character is an ASCII byte by itself, or lies outside of ASCII with all of its bytes. -/
def IsWhole : Char × Bytes → Prop
  | (c, bytes) => (∃ b < 0x80, bytes = [b] ∧ c = Char.ofNat b.toNat) ∨
      0x80 ≤ c.toNat ∧ bytes ≠ [] ∧ ∀ b ∈ bytes, 0x80 ≤ b

theorem isWhole_of_head? {b : UInt8} {rest : Bytes} {c : Char} {width : Nat}
    (found : head? (b :: rest) = some (c, width)) : IsWhole (c, (b :: rest).take width) := by
  by_cases ascii : b < 0x80
  · obtain ⟨rfl, rfl⟩ := Prod.mk.inj (Option.some.inj (found.symm.trans (head?_ascii ascii rest)))
    exact .inl ⟨b, ascii, rfl, rfl⟩
  · obtain ⟨n, rfl⟩ := Nat.exists_eq_succ_of_ne_zero (Nat.ne_of_gt (width_pos_of_head? found))
    rw [List.take_succ_cons]
    refine .inr ⟨?_, List.cons_ne_nil _ _, fun x member => ?_⟩
    · by_contra small
      have same := (head?_eq_some found).2 (Nat.lt_of_not_le small)
      exact ascii (UInt8.lt_iff_toNat_lt.mpr (same ▸ Nat.lt_of_not_le small))
    · by_contra low
      -- An ASCII byte after the first would not be taken: the character is read without it.
      rw [List.mem_cons] at member
      rcases member with rfl | later
      · exact ascii (UInt8.not_le.mp low)
      · obtain ⟨before, after, cut⟩ := List.append_of_mem later
        have whole : rest = before ++ x :: (after ++ rest.drop n) := by
          rw [← List.cons_append, ← List.append_assoc, ← cut, List.take_append_drop]
        rw [whole, head?_append_ascii (UInt8.not_le.mp low)] at found
        have short := (head?_eq_some found).1
        have long := congrArg List.length cut
        rw [List.length_append, List.length_cons] at long
        have most := List.length_take_le n rest
        omega

theorem isWhole_of_mem_segmentsFrom {skip : Nat} {bytes : Bytes} {segment : Char × Bytes}
    (member : segment ∈ segmentsFrom skip bytes) : IsWhole segment := by
  fun_induction segmentsFrom skip bytes with
  | case1 => cases member
  | case2 skip b rest ih => exact ih member
  | case3 b rest c width found ih =>
    rcases List.mem_cons.mp member with rfl | later
    · exact isWhole_of_head? found
    · exact ih later
  | case4 b rest absent ih =>
    rcases List.mem_cons.mp member with rfl | later
    · refine .inr ⟨by decide, List.cons_ne_nil _ _, fun x only => ?_⟩
      rw [List.mem_singleton.mp only, ← UInt8.not_lt]
      intro ascii
      rw [head?_ascii ascii] at absent
      cases absent
    · exact ih later

theorem mem_of_mem_segmentsFrom {skip : Nat} {bytes taken : Bytes} {c : Char}
    (ascii : c.toNat < 0x80) (member : (c, taken) ∈ segmentsFrom skip bytes) :
    UInt8.ofNat c.toNat ∈ bytes := by
  fun_induction segmentsFrom skip bytes with
  | case1 => cases member
  | case2 skip b rest ih => exact List.mem_cons_of_mem _ (ih member)
  | case3 b rest d width found ih =>
    rcases List.mem_cons.mp member with same | later
    · obtain ⟨rfl, _⟩ := Prod.mk.inj same
      rw [(head?_eq_some found).2 ascii, UInt8.ofNat_toNat]
      exact List.mem_cons_self
    · exact List.mem_cons_of_mem _ (ih later)
  | case4 b rest absent ih =>
    rcases List.mem_cons.mp member with same | later
    · obtain ⟨rfl, _⟩ := Prod.mk.inj same
      exact absurd ascii (by decide)
    · exact List.mem_cons_of_mem _ (ih later)

/-- ASCII characters are read from their bytes only. -/
theorem mem_of_mem_decode {bytes : Bytes} {c : Char} (ascii : c.toNat < 0x80)
    (member : c ∈ decode bytes) : UInt8.ofNat c.toNat ∈ bytes := by
  obtain ⟨⟨_, taken⟩, inside, rfl⟩ := List.mem_map.mp member
  exact mem_of_mem_segmentsFrom ascii inside

/-- ASCII bytes are characters by themselves. -/
theorem segments_ascii {bytes : Bytes} (ascii : ∀ b ∈ bytes, b < 0x80) :
    segments bytes = bytes.map fun b => (Char.ofNat b.toNat, [b]) := by
  unfold segments
  induction bytes with
  | nil => rfl
  | cons b rest ih =>
    simp only [segmentsFrom, head?_ascii (ascii b List.mem_cons_self), List.map_cons]
    rw [ih fun c member => ascii c (by simp [member])]
    rfl

theorem encode_append (first second : List Char) :
    encode (first ++ second) = encode first ++ encode second :=
  List.flatMap_append

/-- Characters are read back from their bytes, each with its own. -/
theorem segments_encode (text : List Char) :
    segments (encode text) = text.map fun c => (c, encodeChar c) := by
  induction text with
  | nil => rfl
  | cons c text ih =>
    have read := head?_encodeChar c (encode text)
    have whole : encode (c :: text) = encodeChar c ++ encode text := List.flatMap_cons
    rw [segments] at ih ⊢
    rw [whole]
    cases bytes : encodeChar c with
    | nil =>
      have width := width_pos_of_head? read
      simp [bytes] at width
    | cons b more =>
      rw [bytes] at read
      rw [List.cons_append] at read ⊢
      rw [segmentsFrom, read]
      simp only [List.length_cons, Nat.add_sub_cancel, segmentsFrom_append, List.map_cons, bytes]
      rw [ih, ← List.cons_append, ← List.length_cons, List.take_left]

theorem decode_encode (text : List Char) : decode (encode text) = text := by
  rw [decode, segments_encode, List.map_map]
  exact List.map_id _

/-- A character takes at most four bytes. -/
theorem length_encode_le (text : List Char) : (encode text).length ≤ 4 * text.length := by
  induction text with
  | nil => exact Nat.le_refl _
  | cons c text ih =>
    have width : (encodeChar c).length ≤ 4 := by
      rw [encodeChar, String.length_utf8EncodeChar]
      exact c.utf8Size_le_four
    have whole : encode (c :: text) = encodeChar c ++ encode text := List.flatMap_cons
    rw [whole, List.length_append, List.length_cons]
    omega

/-- Only the character zero has a byte zero. -/
theorem ne_zero_of_mem_encodeChar {c : Char} (other : c ≠ '\x00') : ∀ b ∈ encodeChar c, b ≠ 0 := by
  have positive : c.val.toNat ≠ 0 := fun zero => other (Char.ext (UInt32.toNat_inj.mp zero))
  have nonzero {n : Nat} (positive : 0 < n) (small : n < 256) : UInt8.ofNat n ≠ 0 := by
    intro same
    have value := toNat_ofNat small
    rw [same] at value
    exact absurd value (Nat.ne_of_lt positive)
  unfold encodeChar String.utf8EncodeChar
  dsimp only
  intro b member
  split at member
  · rw [List.mem_singleton.mp member]
    exact nonzero (by omega) (by omega)
  split at member
  · simp only [List.mem_cons, List.not_mem_nil, or_false] at member
    rcases member with rfl | rfl <;> exact nonzero (by omega) (by omega)
  split at member
  · simp only [List.mem_cons, List.not_mem_nil, or_false] at member
    rcases member with rfl | rfl | rfl <;> exact nonzero (by omega) (by omega)
  · simp only [List.mem_cons, List.not_mem_nil, or_false] at member
    rcases member with rfl | rfl | rfl | rfl <;> exact nonzero (by omega) (by omega)

theorem ne_zero_of_mem_encode {text : List Char} (others : ∀ c ∈ text, c ≠ '\x00') :
    ∀ b ∈ encode text, b ≠ 0 := by
  intro b member
  obtain ⟨c, inside, byte⟩ := List.mem_flatMap.mp member
  exact ne_zero_of_mem_encodeChar (others c inside) b byte

end Onepass.Utf8
