import TorqueScript.Rebuild.Step
import TorqueScript.Region

/-!
# Rebuilding statements

`Rebuild.run` runs the regions of a stream: plain instructions one after the other, the parts of a
choice or a loop each on a stack of their own, whose contents become the statements of the part.

A loop behind a conditional jump with the same condition is a `while` loop, or a `for` loop if its next
round begins with a single expression; then an assignment in front of it, to something that the
condition reads, becomes its first part. Any other loop is a `do` loop.
-/

namespace TorqueScript

namespace Rebuild

/-- The condition under which the code behind a conditional jump is run. -/
def fallThrough (ins : Instruction) (kind : JumpKind) : Rebuild Node := do
  let condition ← pop ins
  pure (if kind.whenTrue then condition.negate else condition)

/-- Turns an unconditional jump into a statement. -/
def leave (ins : Instruction) : BranchKind → Rebuild Unit
  | .leave => push .breakLoop
  | .nextRound => push .continueLoop
  | .alternative => throw (.unstructuredBranch ins.addr)

/-! ### Loops -/

/-- The parts of a rebuilt loop. -/
structure LoopParts where
  condition : Node
  body : List Node
  /-- What the next round begins with. -/
  step : List Node

/-- Ends a loop at its jump back, which closes the last part of it. -/
def endLoop (stop : Addr) (back : Option (Instruction × JumpKind)) : Rebuild (Node × List Node) :=
  match back with
  | none => throw (.unstructuredBranch stop)
  | some (ins, kind) => do
    foldLogic ins.addr
    let condition ← pop ins
    let rest ← closePart ins.addr
    pure (if kind.whenTrue then condition else condition.negate, rest)

/-- Rebuilds a loop from the computations that rebuild its parts. -/
def loopParts (stop : Addr) (body : Rebuild Unit) (split : Bool) (step : Rebuild Unit)
    (back : Option (Instruction × JumpKind)) : Rebuild LoopParts := do
  openPart
  body
  if split then do
    let body ← closePart stop
    openPart
    step
    let (condition, step) ← endLoop stop back
    pure { condition, body, step }
  else do
    let (condition, body) ← endLoop stop back
    pure { condition, body, step := [] }

/-- A loop that tests its condition at the end. -/
def LoopParts.doWhile (parts : LoopParts) : Node :=
  .loop .doWhile none parts.condition none (parts.body ++ parts.step)

/-- Takes an assignment to something that `condition` reads off the stack. -/
def takeInit (condition : Node) : Rebuild (Option Node) := fun s =>
  match s.operands with
  | .node (.assign target op value) :: operands =>
    if condition.contains target then .ok (some (.assign target op value), { s with operands })
    else .ok (none, s)
  | _ => .ok (none, s)

/-- A loop behind a conditional jump. -/
def guardedLoop (guard : Node) (parts : LoopParts) : Rebuild Unit :=
  if parts.condition ≠ guard then push (.ifElse guard [parts.doWhile] [])
  else match parts.step with
    | [step] =>
      if step.isStatement then
        push (.loop .whileLoop none parts.condition none (parts.body ++ parts.step))
      else do
        let init ← takeInit parts.condition
        push (.loop .forLoop init parts.condition (some step) parts.body)
    | _ => push (.loop .whileLoop none parts.condition none (parts.body ++ parts.step))

/-! ### Regions -/

mutual

/-- Runs a region. -/
def run : Region → Rebuild Unit
  | .plain ins => do
    enter ins.addr
    step ins
  | .jump ins kind => do
    enter ins.addr
    leave ins kind
  | .broken addr => throw (.unstructuredBranch addr)
  | .choice head kind stop body => do
    enter head.addr
    let condition ← fallThrough head kind
    openPart
    runAll body
    let thenBody ← closePart stop
    push (.ifElse condition thenBody [])
  | .choiceElse head kind stop body separator alternative => do
    enter head.addr
    let condition ← fallThrough head kind
    openPart
    runAll body
    let thenBody ← closePart stop
    openPart
    runAll alternative
    let elseBody ← closePart separator
    push (.ifElse condition thenBody elseBody)
  | .loop start stop body split step back => do
    enter start
    let parts ← loopParts stop (runAll body) split (runAll step) back
    push parts.doWhile
  | .guarded head kind stop body split step back => do
    enter head.addr
    let guard ← fallThrough head kind
    let parts ← loopParts stop (runAll body) split (runAll step) back
    guardedLoop guard parts

/-- Runs regions one after the other. -/
def runAll : List Region → Rebuild Unit
  | [] => pure ()
  | region :: regions => do
    run region
    runAll regions

end

/-! ### The end of a stream -/

/-- Puts the functions of a package that follow each other into one block. -/
def groupPackages : List Node → List Node
  | [] => []
  | n :: ns =>
    match n with
    | .function { package := some name, .. } _ =>
      match groupPackages ns with
      | .package name' functions :: rest =>
        if name = name' then .package name (n :: functions) :: rest
        else .package name [n] :: .package name' functions :: rest
      | rest => .package name [n] :: rest
    | _ => n :: groupPackages ns

/-- Ends the stream: no part and no object may be open. -/
def close (last : Addr) : Rebuild Unit := do
  endFunction Addr.last
  let s ← get
  if !s.saved.isEmpty then throw (.unstructuredBranch last)
  else if s.objectDepth ≠ 0 then throw (.unterminatedObject s.objectDepth)
  else pure ()

/-- The statements of a stream that has ended. -/
def program (last : Addr) (s : State) : Except Error (List Node) := do
  let nodes ← statements last s.operands
  pure (groupPackages nodes)

end Rebuild

end TorqueScript
