import TorqueScript.Block
import TorqueScript.Error
import TorqueScript.Instruction

/-!
# Nesting of blocks

Each conditional jump makes a block: from the jump to the instruction before its target if it leads
forward, from its target to the jump if it leads back (`Stream.blocks`). One scan over the instructions
nests them. It keeps the blocks that are open at the current address, the innermost one apart
(`Nesting`); a block is closed, and put inside the one around it, as soon as the scan is past its end.
A block that would outlast the one around it is refused.
-/

namespace TorqueScript

/-! ### Neighbours in a stream -/

namespace Stream

/-- The position of the last instruction with the given address. -/
def lastIndex? (addr : Addr) : List Instruction → Option Nat
  | [] => none
  | ins :: rest =>
    match lastIndex? addr rest with
    | some i => some (i + 1)
    | none => if ins.addr = addr then some 0 else none

/-- The address of the instruction in front of the one at `addr`. -/
def before? (instrs : List Instruction) (addr : Addr) : Option Addr :=
  match lastIndex? addr instrs with
  | some (i + 1) => (instrs[i]?).map (·.addr)
  | _ => none

/-- The address of the instruction behind the one at `addr`. -/
def after? (instrs : List Instruction) (addr : Addr) : Option Addr :=
  match lastIndex? addr instrs with
  | some i => (instrs[i + 1]?).map (·.addr)
  | none => none

/-- The block that the jump at `addr` makes. -/
def blockOfJump? (instrs : List Instruction) (id : Nat) (addr : Addr) (kind : JumpKind)
    (target : Addr) : Option Block :=
  if !kind.makesBlock then none
  else if target ≤ addr then some (.fresh id .loop target addr)
  else some (.fresh id .conditional addr ((before? instrs target).getD addr))

/-- The blocks that the jumps of `rest`, a part of the stream, make, numbered from `id`. Every jump must
lead to an instruction. -/
def blocksFrom (instrs : List Instruction) (id : Nat) : List Instruction → Except Error (List Block)
  | [] => pure []
  | ins :: rest =>
    match ins.jump? with
    | none => blocksFrom instrs id rest
    | some (kind, target) =>
      if (lastIndex? target instrs).isNone then throw (.branchTargetMissing ins.addr target)
      else match blockOfJump? instrs id ins.addr kind target with
        | none => blocksFrom instrs id rest
        | some block => do
          let blocks ← blocksFrom instrs (id + 1) rest
          pure (block :: blocks)

/-- The blocks that the jumps of a stream make, the root apart. -/
def blocks (instrs : List Instruction) : Except Error (List Block) :=
  blocksFrom instrs 1 instrs

/-- The address of the first instruction. -/
def first (instrs : List Instruction) : Addr :=
  (instrs.head?.map (·.addr)).getD 0

/-- The address of the last instruction. -/
def last (instrs : List Instruction) : Addr :=
  (instrs.getLast?.map (·.addr)).getD 0

end Stream

/-! ### The scan -/

/-- The blocks that are open and those still to come. -/
structure Nesting where
  /-- The innermost open block. -/
  top : Block
  /-- The open blocks around it, inner ones first; the last is the root. -/
  outer : List Block
  /-- The blocks not yet opened, in the order of opening. -/
  pending : List Block
  deriving Repr

namespace Nesting

/-- The order of opening: by start, and of two blocks with the same start the longer one first. -/
def opensFirst (a b : Block) : Bool :=
  a.start < b.start || (a.start == b.start && b.stop ≤ a.stop)

/-- Before the first instruction only the root is open. -/
def start (root : Block) (blocks : List Block) : Nesting where
  top := root
  outer := []
  pending := blocks.mergeSort opensFirst

/-- Closes open blocks that end before `addr`, from the innermost. -/
def closeBefore (addr : Addr) (top : Block) : List Block → Block × List Block
  | [] => (top, [])
  | parent :: outer =>
    if top.stop < addr then closeBefore addr (parent.adopt top) outer else (top, parent :: outer)

/-- Opens the blocks that begin at `addr`. -/
def openAt (addr : Addr) (top : Block) (outer : List Block) : List Block → Except Error Nesting
  | [] => pure ⟨top, outer, []⟩
  | next :: pending =>
    if next.start ≠ addr then pure ⟨top, outer, next :: pending⟩
    else if top.stop < next.stop then throw (.overlappingBlocks next.start next.stop top.stop)
    else openAt addr next (top :: outer) pending

/-- An unconditional jump belongs to the innermost open block. -/
def record (n : Nesting) (ins : Instruction) : Nesting :=
  match ins.jump? with
  | some (.always, target) => { n with top := n.top.own ⟨ins.addr, target, .alternative⟩ }
  | _ => n

/-- Moves the scan to an instruction. -/
def step (n : Nesting) (ins : Instruction) : Except Error Nesting := do
  let (top, outer) := closeBefore ins.addr n.top n.outer
  let n ← openAt ins.addr top outer n.pending
  pure (n.record ins)

/-- Moves the scan over instructions. -/
def scan (n : Nesting) : List Instruction → Except Error Nesting
  | [] => pure n
  | ins :: rest => do
    let n ← n.step ins
    n.scan rest

/-- The root behind the last instruction, when every block has been opened and closed. -/
def finish (n : Nesting) (last : Addr) : Except Error Block :=
  let (top, outer) := closeBefore (last + 1) n.top n.outer
  if outer.isEmpty && n.pending.isEmpty then pure top
  else throw (.unbalancedBlocks (outer.length + 1))

end Nesting

namespace Stream

/-- The root of a stream, before anything is put inside it. -/
def root (instrs : List Instruction) : Block :=
  .fresh 0 .root (first instrs) (last instrs)

/-- The blocks of a stream as a tree; every jump counts as one over an `else` part. -/
def nest (instrs : List Instruction) : Except Error Block := do
  let blocks ← blocks instrs
  let n ← (Nesting.start (root instrs) blocks).scan instrs
  n.finish (last instrs)

end Stream

end TorqueScript
