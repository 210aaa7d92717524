import Mathlib.Data.List.Basic
import Mathlib.Order.Monotone.Basic
import TorqueScript.Instruction

/-!
# Fragments of code

Compiling says which operations follow each other and where the jumps among them lead; it leaves open
at which addresses they end up.  A `Placement` settles the rest: the address of every position, the
size and the opcode of the instruction there, and the type of the value it moves.  Addresses increase
with positions, and that is all that is asked of them.

A `Fragment` is code that can be put at any position.  It knows its size beforehand, so a jump over it
knows where to lead, and its instructions lie at the addresses of the positions it covers
(`Fragment.addrs`).  A jump out of the loop around a fragment leads to an address that only the loop
knows; the fragment is given it as `exit`.

* `Fragment.skip`: code behind a jump over it, the shape of `&&`, `||` and of a choice without `else`.
* `Fragment.either`: two pieces of code of which the first jumps over the second.
* `Fragment.back`: code with a jump back to its beginning, the only fragment that sets an exit.
-/

namespace TorqueScript

/-- Addresses and other details of the instructions at all positions. -/
structure Placement where
  addr : Nat → Addr
  size : Nat → Nat
  opcode : Nat → Opcode
  /-- The type of the value that the instruction moves, if it moves one. -/
  type : Nat → ValueType
  increasing : StrictMono addr

namespace Placement

/-- The instruction at a position. -/
def instr (L : Placement) (pos : Nat) (operation : Operation) : Instruction :=
  ⟨L.addr pos, L.size pos, L.opcode pos, operation⟩

@[simp] theorem addr_instr (L : Placement) (pos : Nat) (o : Operation) :
    (L.instr pos o).addr = L.addr pos := rfl

@[simp] theorem operation_instr (L : Placement) (pos : Nat) (o : Operation) :
    (L.instr pos o).operation = o := rfl

@[simp] theorem addr_lt_iff (L : Placement) {i j : Nat} : L.addr i < L.addr j ↔ i < j :=
  L.increasing.lt_iff_lt

@[simp] theorem addr_le_iff (L : Placement) {i j : Nat} : L.addr i ≤ L.addr j ↔ i ≤ j :=
  L.increasing.le_iff_le

@[simp] theorem addr_inj (L : Placement) {i j : Nat} : L.addr i = L.addr j ↔ i = j :=
  L.increasing.injective.eq_iff

/-- Instructions of one word each, from the first address on. -/
def consecutive : Placement where
  addr := id
  size _ := 1
  opcode _ := default
  type _ := default
  increasing := strictMono_id

end Placement

/-- Code for any position. -/
structure Fragment where
  size : Nat
  /-- The instructions at a position, with the address behind the loop around them. -/
  code (L : Placement) (exit : Addr) (pos : Nat) : List Instruction
  addrs : ∀ L exit pos, (code L exit pos).map (·.addr) = (List.range' pos size).map L.addr

namespace Fragment

/-- A fragment is as long as it says, wherever it is placed. -/
@[simp] theorem length_code (f : Fragment) (L : Placement) (exit : Addr) (pos : Nat) :
    (f.code L exit pos).length = f.size := by
  simpa using congrArg List.length (f.addrs L exit pos)

/-- An instruction of a fragment lies at one of its positions. -/
theorem addr_of_mem {f : Fragment} {L : Placement} {exit : Addr} {pos : Nat} {ins : Instruction}
    (h : ins ∈ f.code L exit pos) : ∃ i, pos ≤ i ∧ i < pos + f.size ∧ ins.addr = L.addr i := by
  have hmem : ins.addr ∈ (List.range' pos f.size).map L.addr :=
    f.addrs L exit pos ▸ List.mem_map_of_mem h
  obtain ⟨i, hi, e⟩ := List.mem_map.mp hmem
  obtain ⟨hlo, hhi⟩ := List.mem_range'_1.mp hi
  exact ⟨i, hlo, hhi, e.symm⟩

/-! ### Building fragments -/

/-- No code. -/
def empty : Fragment where
  size := 0
  code _ _ _ := []
  addrs _ _ _ := rfl

/-- One instruction that moves a value of the type found at its position. -/
def typed (operation : ValueType → Operation) : Fragment where
  size := 1
  code L _ pos := [L.instr pos (operation (L.type pos))]
  addrs _ _ _ := rfl

/-- One instruction. -/
def op (operation : Operation) : Fragment :=
  typed fun _ => operation

/-- Code and the code behind it. -/
def append (f g : Fragment) : Fragment where
  size := f.size + g.size
  code L exit pos := f.code L exit pos ++ g.code L exit (pos + f.size)
  addrs L exit pos := by
    rw [List.map_append, f.addrs, g.addrs, ← List.map_append, List.range'_append_1]

/-- One fragment after another, with the jumps of each leading on from its own place. -/
instance : Append Fragment := ⟨append⟩

/-- A jump of the given kind over code. -/
def skip (kind : JumpKind) (f : Fragment) : Fragment where
  size := 1 + f.size
  code L exit pos :=
    L.instr pos (.jump kind (L.addr (pos + 1 + f.size))) :: f.code L exit (pos + 1)
  addrs L exit pos := by
    rw [List.map_cons, f.addrs, Nat.add_comm 1, List.range'_succ, List.map_cons, Placement.addr_instr]

/-- A jump over `body` to `alternative`; behind `body` a jump over `alternative`. -/
def either (body alternative : Fragment) : Fragment where
  size := 1 + body.size + (1 + alternative.size)
  code L exit pos :=
    L.instr pos (.jump .ifNot (L.addr (pos + 1 + body.size + 1))) :: body.code L exit (pos + 1) ++
      (alternative.skip .always).code L exit (pos + 1 + body.size)
  addrs L exit pos := by
    rw [List.map_append, List.map_cons, body.addrs, (alternative.skip .always).addrs,
      Placement.addr_instr, ← List.map_cons, ← List.range'_succ, ← List.map_append, Nat.add_comm 1 body.size,
      Nat.add_assoc pos 1, Nat.add_comm 1 body.size, List.range'_append_1]
    rfl

/-- A jump out of the loop. -/
def leave : Fragment where
  size := 1
  code L exit pos := [L.instr pos (.jump .always exit)]
  addrs _ _ _ := rfl

/-- A jump back to the beginning of the code in front of it, which is a loop. -/
def back (f : Fragment) : Fragment where
  size := f.size + 1
  code L _ pos :=
    f.code L (L.addr (pos + f.size + 1)) pos ++ [L.instr (pos + f.size) (.jump .ifTrue (L.addr pos))]
  addrs L exit pos := by
    rw [List.map_append, f.addrs, List.range'_1_concat, List.map_append]
    rfl

/-! ### Sizes and code of what is built -/

@[simp] theorem size_empty : empty.size = 0 := rfl
@[simp] theorem size_typed (o : ValueType → Operation) : (typed o).size = 1 := rfl
@[simp] theorem size_op (o : Operation) : (op o).size = 1 := rfl
@[simp] theorem size_append (f g : Fragment) : (f ++ g).size = f.size + g.size := rfl
@[simp] theorem size_skip (kind : JumpKind) (f : Fragment) : (f.skip kind).size = 1 + f.size := rfl
@[simp] theorem size_either (f g : Fragment) : (either f g).size = 1 + f.size + (1 + g.size) := rfl
@[simp] theorem size_leave : leave.size = 1 := rfl
@[simp] theorem size_back (f : Fragment) : f.back.size = f.size + 1 := rfl

variable (L : Placement) (exit : Addr) (pos : Nat)

@[simp] theorem code_empty : empty.code L exit pos = [] := rfl

@[simp] theorem code_typed (o : ValueType → Operation) :
    (typed o).code L exit pos = [L.instr pos (o (L.type pos))] := rfl

@[simp] theorem code_op (o : Operation) : (op o).code L exit pos = [L.instr pos o] := rfl

@[simp] theorem code_append (f g : Fragment) :
    (f ++ g).code L exit pos = f.code L exit pos ++ g.code L exit (pos + f.size) := rfl

@[simp] theorem code_skip (kind : JumpKind) (f : Fragment) : (f.skip kind).code L exit pos =
    L.instr pos (.jump kind (L.addr (pos + 1 + f.size))) :: f.code L exit (pos + 1) := rfl

end Fragment

end TorqueScript
