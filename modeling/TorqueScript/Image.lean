import TorqueScript.Address
import TorqueScript.Binary64
import TorqueScript.StringPool

/-!
# Compiled files

An `Image` holds the sections of a compiled script file: two pairs of pools, one for code outside
functions and one for code inside them, the code words, the addresses at which source lines begin,
and the identifiers that the engine patches into code words when it loads the file.
-/

namespace TorqueScript

/-- A source line and the address at which its code begins. -/
structure LineBreak where
  line : Nat
  addr : Addr
  deriving DecidableEq, Repr, Inhabited

/-- Strings and numbers that instructions refer to. -/
structure Pools where
  strings : StringPool
  floats : List Binary64
  deriving DecidableEq, Repr, Inhabited

/-- The sections of a compiled file. -/
structure Image where
  version : UInt32
  /-- Pools of the code outside functions. -/
  outer : Pools
  /-- Pools of the code inside functions. -/
  inner : Pools
  code : List UInt32
  lineBreaks : List LineBreak
  /-- The identifiers patched into code words, the latest patch first. -/
  patches : List (Addr × String)
  deriving DecidableEq, Repr, Inhabited

namespace Image

/-- The identifier patched into the code word at `ip`; the latest patch counts. -/
def identifier? (image : Image) (ip : Addr) : Option String :=
  image.patches.lookup ip

end Image

end TorqueScript
