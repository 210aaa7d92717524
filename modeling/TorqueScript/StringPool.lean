/-!
# String pools

A string pool is a run of bytes in which strings lie one after the other, each ended by a zero byte.
A string is addressed by the offset of its first byte, which may be in the middle of another string.
Every byte stands for the character with its code.
-/

namespace TorqueScript

/-- Strings in one run of bytes, each ended by a zero byte. -/
structure StringPool where
  bytes : List UInt8
  deriving DecidableEq, Repr, Inhabited

namespace StringPool

/-- The characters of a string, one for each byte. -/
def decode (bytes : List UInt8) : String :=
  String.ofList (bytes.map fun b => Char.ofNat b.toNat)

/-- The string that begins at `offset` and ends before the next zero byte or with the pool. -/
def get? (pool : StringPool) (offset : Nat) : Option String :=
  if offset < pool.bytes.length then
    some (decode ((pool.bytes.drop offset).takeWhile (· != 0)))
  else none

/-- An offset names a string exactly if it lies inside the pool. -/
theorem get?_isSome (pool : StringPool) (offset : Nat) :
    (pool.get? offset).isSome = true ↔ offset < pool.bytes.length := by
  unfold get?
  split <;> simp_all

end StringPool

end TorqueScript
