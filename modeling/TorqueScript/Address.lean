/-!
# Addresses

An instruction's address is the index of its first code word. Addresses are thirty-two bits wide in a
file; here they are natural numbers, and `Addr.last` is the greatest one that fits.
-/

namespace TorqueScript

/-- The index of a code word. -/
abbrev Addr := Nat

namespace Addr

/-- The greatest address that fits into a code word. -/
def last : Addr := 4294967295

/-- The address after `a`, if there is one that fits, and `last` otherwise. -/
def next (a : Addr) : Addr := min (a + 1) last

end Addr

end TorqueScript
