/-! Machine words and their bytes, least significant first. -/
namespace Onepass.Machine

/-- A 32-bit machine word. -/
abbrev Word := UInt32

namespace Word

/-- The word read as a signed number. -/
def toInt (w : Word) : Int := w.toInt32.toInt

/-- The word that keeps the low 32 bits of a number. -/
def ofInt (n : Int) : Word := (Int32.ofInt n).toUInt32

/-- Whether the word is negative as a signed number. -/
def isNegative (w : Word) : Bool := w >>> 31 != 0

/-- The four bytes of a word. -/
def bytes (w : Word) : List UInt8 :=
  [w.toUInt8, (w >>> 8).toUInt8, (w >>> 16).toUInt8, (w >>> 24).toUInt8]

/-- The word with these four bytes. -/
def ofBytes (b₀ b₁ b₂ b₃ : UInt8) : Word :=
  b₀.toUInt32 ||| (b₁.toUInt32 <<< 8) ||| (b₂.toUInt32 <<< 16) ||| (b₃.toUInt32 <<< 24)

end Word

end Onepass.Machine
