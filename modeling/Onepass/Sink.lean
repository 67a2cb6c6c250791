import Onepass.Text.Bytes

/-! Where output goes. A sink may have room for a limited number of bytes only; a write that does
not fit is cut off. -/
namespace Onepass

structure Sink where
  /-- What was written, latest first. -/
  pieces : List Bytes := []
  /-- The bytes that still fit, or no limit. -/
  room : Option Nat := none
deriving DecidableEq

namespace Sink

/-- Everything that was written. -/
def written (s : Sink) : Bytes := s.pieces.reverse.flatten

/-- The part of a text that the sink takes. -/
def accepted (s : Sink) (text : Bytes) : Bytes :=
  match s.room with
  | none => text
  | some room => text.take room

/-- Writes as much of a text as fits. -/
def write (s : Sink) (text : Bytes) : Sink :=
  ⟨s.accepted text :: s.pieces, s.room.map (· - text.length)⟩

/-- Whether a text fits as a whole. -/
def fits (s : Sink) (text : Bytes) : Bool :=
  match s.room with
  | none => true
  | some room => text.length ≤ room

theorem written_write (s : Sink) (text : Bytes) :
    (s.write text).written = s.written ++ s.accepted text := by
  simp [written, write]

theorem accepted_of_fits {s : Sink} {text : Bytes} (whole : s.fits text = true) :
    s.accepted text = text := by
  unfold fits at whole
  unfold accepted
  split at whole
  · rfl
  · exact List.take_of_length_le (by simpa using whole)

end Sink

end Onepass
