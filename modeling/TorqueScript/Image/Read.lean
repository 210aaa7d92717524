import TorqueScript.Error
import TorqueScript.Image

/-!
# Reading compiled files

A `Reader` takes what it wants from the front of a list of bytes and leaves the rest, or fails. Words
are little-endian. A code word below 255 is one byte; any code word may be written as the byte 255 and
four more. `Image.read` reads the sections of a file in their order and returns the bytes after them.
-/

namespace TorqueScript

/-- Takes a value from the front of the input. -/
abbrev Reader := StateT (List UInt8) (Except Error)

namespace Reader

/-- One byte. -/
def byte : Reader UInt8 := fun
  | b :: bs => .ok (b, bs)
  | [] => .error .endOfInput

/-- The number with the given little-endian bytes. -/
def ofBytes (a b c d : UInt8) : UInt32 :=
  UInt32.ofNat (a.toNat + 256 * (b.toNat + 256 * (c.toNat + 256 * d.toNat)))

/-- Four bytes as a number. -/
def word : Reader UInt32 := fun
  | a :: b :: c :: d :: bs => .ok (ofBytes a b c d, bs)
  | _ => .error .endOfInput

/-- Eight bytes as a floating point number. -/
def double : Reader Binary64 := do
  let low ← word
  let high ← word
  pure ⟨UInt64.ofNat (low.toNat + 4294967296 * high.toNat)⟩

/-- A run of `n` bytes. -/
def bytes (n : Nat) : Reader (List UInt8) := fun bs =>
  if n ≤ bs.length then .ok (bs.take n, bs.drop n) else .error .endOfInput

/-- Reads `n` times. -/
def times {α : Type} (n : Nat) (read : Reader α) : Reader (List α) :=
  match n with
  | 0 => pure []
  | n + 1 => do
    let a ← read
    let as ← times n read
    pure (a :: as)

/-- A string pool, after its size. -/
def stringPool : Reader StringPool := do
  let size ← word
  let bs ← bytes size.toNat
  pure ⟨bs⟩

/-- Floating point numbers, after their count. -/
def floats : Reader (List Binary64) := do
  let count ← word
  times count.toNat double

/-- Strings, then floating point numbers. -/
def pools : Reader Pools := do
  let strings ← stringPool
  let floats ← floats
  pure ⟨strings, floats⟩

/-- A code word, in its short or its long form. -/
def codeWord : Reader UInt32 := do
  let b ← byte
  if b = 255 then word else pure (UInt32.ofNat b.toNat)

/-- A source line and the address of its code. -/
def lineBreak : Reader LineBreak := do
  let line ← word
  let addr ← word
  pure ⟨line.toNat, addr.toNat⟩

/-- One reference of the identifier `name`: the code word to patch, which must exist. -/
def patch (name : String) (codeLength : Nat) : Reader (Addr × String) := do
  let ip ← word
  if ip.toNat < codeLength then pure (ip.toNat, name) else throw (.patchOutsideCode ip.toNat codeLength)

/-- An identifier and its references. -/
def identifier (strings : StringPool) (codeLength : Nat) : Reader (List (Addr × String)) := do
  let offset ← word
  match strings.get? offset.toNat with
  | none => throw (.invalidStringOffset offset.toNat)
  | some name =>
    let count ← word
    times count.toNat (patch name codeLength)

/-- All identifiers, after their count; the patches in the order of the file. -/
def identifiers (strings : StringPool) (codeLength : Nat) : Reader (List (Addr × String)) := do
  let count ← word
  let entries ← times count.toNat (identifier strings codeLength)
  pure entries.flatten

/-- All sections of a file. -/
def image : Reader Image := do
  let version ← word
  let outer ← pools
  let inner ← pools
  let codeLength ← word
  let lineBreakCount ← word
  let code ← times codeLength.toNat codeWord
  let lineBreaks ← times lineBreakCount.toNat lineBreak
  let patches ← identifiers outer.strings code.length
  pure { version, outer, inner, code, lineBreaks, patches := patches.reverse }

end Reader

namespace Image

/-- Reads a compiled file; also gives the bytes that follow its last section. -/
def read (bytes : List UInt8) : Except Error (Image × List UInt8) :=
  Reader.image.run bytes

end Image

end TorqueScript
