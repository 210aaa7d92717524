import TorqueScript.Block.Nest

/-!
# Classes of jumps

Which class an unconditional jump has depends on the block that owns it and on the nearest loop around
it. In a loop itself, a jump leads back or ahead to the next round, or out. In a conditional block
inside a loop, a jump to the instruction behind the loop leaves it; a jump before the block's end, or
past the end of the conditional block around it, starts the next round; any other jump skips an `else`
part.

The first jump found to start the next round tells where that round begins, the loop's continue point.
A jump that seemed to skip an `else` part but leads there is counted among them after all. Blocks are
visited in preorder, so the continue point of the nearest loop is handed from block to block.
-/

namespace TorqueScript

/-- The nearest loop around a block, by the address behind it. -/
structure LoopFrame where
  exit : Option Addr
  deriving DecidableEq, Repr

namespace Branch

/-- The class of a jump by the block that owns it: its kind and end, the end of the conditional block
around it, and the nearest loop. -/
def classify (kind : BlockKind) (stop : Addr) (aroundStop : Option Addr) (frame : Option LoopFrame)
    (b : Branch) : BranchKind :=
  match kind, frame with
  | .loop, _ => if b.target ≤ stop then .nextRound else .leave
  | _, none => .alternative
  | _, some loop =>
    if loop.exit = some b.target then .leave
    else if b.addr < stop then .nextRound
    else if aroundStop.any (· < b.target) then .nextRound
    else .alternative

/-- A jump to the continue point starts the next round. -/
def settle (continuePoint : Option Addr) (b : Branch) : Branch :=
  if b.kind = .alternative ∧ continuePoint = some b.target then { b with kind := .nextRound } else b

end Branch

namespace Block

/-- The target of the first jump to the next round. -/
def firstRound? (bs : List Branch) : Option Addr :=
  (bs.find? (·.kind == .nextRound)).map (·.target)

mutual

/-- Classifies the jumps of a block and of the blocks inside it. `point` is the continue point of the
nearest loop around the block as known so far; the one known afterwards is returned. -/
def classify (exit : Addr → Option Addr) (frame : Option LoopFrame) (aroundStop : Option Addr)
    (point : Option Addr) : Block → Block × Option Addr
  | ⟨id, .loop, start, stop, branches, _, children⟩ =>
    let frame := some ⟨exit stop⟩
    let branches := branches.map fun b => { b with kind := b.classify .loop stop aroundStop frame }
    let (children, inner) := classifyAll exit frame none (firstRound? branches) children
    (⟨id, .loop, start, stop, branches, inner, children⟩, point)
  | ⟨id, kind, start, stop, branches, continuePoint, children⟩ =>
    let branches := branches.map fun b => { b with kind := b.classify kind stop aroundStop frame }
    let point := point.or (firstRound? branches)
    let branches := branches.map (·.settle point)
    let inside := if kind = .conditional then some stop else none
    let (children, point) := classifyAll exit frame inside point children
    (⟨id, kind, start, stop, branches, continuePoint, children⟩, point)

/-- Classifies the jumps of neighbouring blocks. -/
def classifyAll (exit : Addr → Option Addr) (frame : Option LoopFrame) (aroundStop : Option Addr)
    (point : Option Addr) : List Block → List Block × Option Addr
  | [] => ([], point)
  | b :: bs =>
    let (b, point) := classify exit frame aroundStop point b
    let (bs, point) := classifyAll exit frame aroundStop point bs
    (b :: bs, point)

end

end Block

namespace Stream

/-- The block tree of a stream, with classified jumps. -/
def blockTree (instrs : List Instruction) : Except Error Block := do
  let tree ← nest instrs
  pure (tree.classify (after? instrs) none none none).1

end Stream

end TorqueScript
