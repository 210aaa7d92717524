import TorqueScript.Address

/-!
# Blocks

The block structure of an instruction stream is a tree. Its root is the whole stream; every other block
is a range of addresses that a conditional jump skips (`conditional`) or jumps back over (`loop`).
A block owns the unconditional jumps that lie in it and in none of its children, each with a class: the
jump over an `else` part, or out of the loop around it, or to the loop's next round.

Blocks carry a number: the root has 0, the others count in the order of the jumps that made them.
-/

namespace TorqueScript

/-- What makes a range of addresses a block. -/
inductive BlockKind where
  | root
  | conditional
  | loop
  deriving DecidableEq, Repr, Inhabited

/-- The class of an unconditional jump. -/
inductive BranchKind where
  | alternative
  | nextRound
  | leave
  deriving DecidableEq, Repr, Inhabited

/-- An unconditional jump. -/
structure Branch where
  addr : Addr
  target : Addr
  kind : BranchKind
  deriving DecidableEq, Repr, Inhabited

namespace Branch

/-- Adds a jump to jumps in the order of their addresses, in place of one with the same address. -/
def insert (b : Branch) : List Branch → List Branch
  | [] => [b]
  | c :: cs =>
    if b.addr < c.addr then b :: c :: cs
    else if b.addr = c.addr then b :: cs
    else c :: insert b cs

/-- The jump at an address. -/
def find? (addr : Addr) (bs : List Branch) : Option Branch :=
  List.find? (·.addr == addr) bs

end Branch

/-- A range of addresses with the blocks and jumps inside it. -/
structure Block where
  id : Nat
  kind : BlockKind
  start : Addr
  /-- The address of the last instruction. -/
  stop : Addr
  /-- The jumps the block owns, in the order of their addresses. -/
  branches : List Branch
  /-- Where a loop's next round begins, if a jump leads there. -/
  continuePoint : Option Addr
  /-- The blocks directly inside, in the order in which they end. -/
  children : List Block
  deriving Repr, Inhabited

namespace Block

/-- A block with nothing inside. -/
def fresh (id : Nat) (kind : BlockKind) (start stop : Addr) : Block :=
  { id, kind, start, stop, branches := [], continuePoint := none, children := [] }

/-- The address lies in the block. -/
def contains (b : Block) (addr : Addr) : Bool :=
  b.start ≤ addr && addr ≤ b.stop

/-- Puts a block inside, behind those that are there. -/
def adopt (parent child : Block) : Block :=
  { parent with children := parent.children ++ [child] }

/-- Makes the block own a jump. -/
def own (b : Block) (branch : Branch) : Block :=
  { b with branches := branch.insert b.branches }

/-- The jump at an address that the block owns. -/
def branchAt? (b : Block) (addr : Addr) : Option Branch :=
  Branch.find? addr b.branches

/-- The block directly inside that begins at an address. -/
def childAt? (b : Block) (addr : Addr) : Option Block :=
  b.children.find? (·.start == addr)

/-- The jump over an `else` part at the end of the block. -/
def alternative? (b : Block) : Option Branch :=
  (b.branchAt? b.stop).filter (·.kind == .alternative)

/-! ### Flat views -/

/-- A block and the number of the block around it. -/
structure Entry where
  block : Block
  parent : Option Nat
  deriving Repr

mutual

/-- The block and all blocks inside it, each before those inside it. -/
def entries (parent : Option Nat) : Block → List Entry
  | b@⟨id, _, _, _, _, _, children⟩ => ⟨b, parent⟩ :: listEntries id children

/-- The blocks of a list of children. -/
def listEntries (parent : Nat) : List Block → List Entry
  | [] => []
  | b :: bs => entries (some parent) b ++ listEntries parent bs

end

/-- All blocks of a tree, each before those inside it. -/
def preorder (tree : Block) : List Block :=
  (tree.entries none).map (·.block)

/-- All blocks of a tree in the order of their numbers. -/
def numbered (tree : Block) : List Entry :=
  (tree.entries none).mergeSort (fun a b => a.block.id ≤ b.block.id)

/-- The blocks that begin at an address, outer ones first. -/
def startingAt (tree : Block) (addr : Addr) : List Block :=
  tree.preorder.filter (·.start == addr)

/-- All jumps of a tree in the order of their addresses. Of several jumps with the same address the last
in the order of blocks counts. -/
def allBranches (tree : Block) : List Branch :=
  (tree.preorder.flatMap (·.branches)).foldl (fun bs b => b.insert bs) []

end Block

end TorqueScript
