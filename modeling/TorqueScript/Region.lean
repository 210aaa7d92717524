import TorqueScript.Block
import TorqueScript.Instruction

/-!
# Regions

Block tree and instruction stream together say how the stream falls into statements: which
instructions are executed one after the other, which belong to the parts of a choice or the body of a
loop, and which only hold these parts together. A list of `Region`s says just this; no instruction is
interpreted yet. Where the stream does not fit the tree, a region marks the place, and nothing behind
the mark counts.

Every region takes at least one instruction from the front of the stream, and a block's regions are
read inside the block, so reading them ends: the stream gets shorter, or stays as it is while the block
gets smaller.
-/

namespace TorqueScript

/-- A piece of an instruction stream. -/
inductive Region where
  /-- An instruction to execute. -/
  | plain (ins : Instruction)
  /-- An unconditional jump of the given class. One over an `else` part has no place of its own. -/
  | jump (ins : Instruction) (kind : BranchKind)
  /-- Here the stream does not fit the block tree. -/
  | broken (addr : Addr)
  /-- The conditional jump `head` over `body`, which ends at `stop`. -/
  | choice (head : Instruction) (kind : JumpKind) (stop : Addr) (body : List Region)
  /-- The same, with a jump at `separator` over the alternative. -/
  | choiceElse (head : Instruction) (kind : JumpKind) (stop : Addr) (body : List Region)
      (separator : Addr) (alternative : List Region)
  /-- A loop from `start` to `stop`. With `split`, `step` is what its next round begins with. The jump
  back is missing if the stream has something else at `stop`. -/
  | loop (start stop : Addr) (body : List Region) (split : Bool) (step : List Region)
      (back : Option (Instruction × JumpKind))
  /-- The conditional jump `head` over a loop that ends at `stop`. -/
  | guarded (head : Instruction) (kind : JumpKind) (stop : Addr) (body : List Region) (split : Bool)
      (step : List Region) (back : Option (Instruction × JumpKind))
  deriving Repr, Inhabited

/-- The parts of a loop. -/
structure LoopRegions where
  body : List Region
  split : Bool
  step : List Region
  back : Option (Instruction × JumpKind)

namespace Block

/-- The address before which the body of a conditional block ends. -/
def bodyStop (b : Block) : Addr :=
  if b.alternative?.isSome then b.stop else Addr.next b.stop

/-- The address before which an alternative inside the block ends: it never runs into the block's own
jump back or jump over an `else` part. -/
def alternativeStop (b : Block) : Addr :=
  if b.kind = .loop ∨ b.alternative?.isSome then b.stop else Addr.next b.stop

/-- Where a loop's body is split: its continue point, unless it lies in a block inside the loop. -/
def splitPoint? (b : Block) : Option Addr :=
  b.continuePoint.filter fun point =>
    b.start < point && point ≤ b.stop &&
      !b.children.any fun child => child.start < point && point ≤ child.stop

/-- The loop that begins right behind the head of a conditional block and ends with it; `rest` is the
stream behind the head. -/
def guardedLoop? (b : Block) (rest : List Instruction) : Option Block :=
  match rest with
  | [] => none
  | ins :: _ =>
    b.children.find? fun child => child.kind == .loop && child.start == ins.addr && child.stop == b.stop

theorem sizeOf_lt_of_mem_children {b child : Block} (h : child ∈ b.children) :
    sizeOf child < sizeOf b := by
  cases b
  have := List.sizeOf_lt_of_mem h
  simp at this ⊢
  omega

theorem sizeOf_childAt? {b child : Block} {addr : Addr} (h : b.childAt? addr = some child) :
    sizeOf child < sizeOf b :=
  sizeOf_lt_of_mem_children (List.mem_of_find?_eq_some h)

end Block

namespace Region

/-- The jump back of a loop that ends at `stop`, at the front of the stream. -/
def back? (stop : Addr) (instrs : List Instruction) : Option (Instruction × JumpKind) :=
  match instrs with
  | [] => none
  | ins :: _ => if ins.addr = stop then ins.jump?.map fun (kind, _) => (ins, kind) else none

/-- The stream behind a jump back; nothing behind a missing one counts. -/
def behind (back : Option (Instruction × JumpKind)) (instrs : List Instruction) : List Instruction :=
  if back.isSome then instrs.tail else []

theorem length_behind_le (back : Option (Instruction × JumpKind)) (instrs : List Instruction) :
    (behind back instrs).length ≤ instrs.length - 1 := by
  unfold behind
  split <;> simp

mutual

/-- The regions of a block up to the address `stop`, and the rest of the stream. -/
def read (block : Block) (stop : Addr) (instrs : List Instruction) :
    List Region × { rest : List Instruction // rest.length ≤ instrs.length } :=
  match instrs with
  | [] => ([], ⟨[], Nat.le_refl _⟩)
  | ins :: tail =>
    if stop ≤ ins.addr then ([], ⟨ins :: tail, Nat.le_refl _⟩)
    else match h : block.childAt? ins.addr with
      | some child =>
        have := Block.sizeOf_childAt? h
        let (region, ⟨rest, hrest⟩) := readChild block child ins tail
        let (regions, ⟨rest', hrest'⟩) := read block stop rest
        (region :: regions, ⟨rest', Nat.le_succ_of_le (Nat.le_trans hrest' hrest)⟩)
      | none =>
        let region := match block.branchAt? ins.addr with
          | some branch => .jump ins branch.kind
          | none => .plain ins
        let (regions, ⟨rest, hrest⟩) := read block stop tail
        (region :: regions, ⟨rest, Nat.le_succ_of_le hrest⟩)
  termination_by (instrs.length, sizeOf block, 0)

/-- The region of a block inside `parent`, whose first instruction is `ins`. -/
def readChild (parent child : Block) (ins : Instruction) (tail : List Instruction) :
    Region × { rest : List Instruction // rest.length ≤ tail.length } :=
  match child.kind, ins.jump? with
  | .loop, _ =>
    let (parts, ⟨rest, hrest⟩) := readLoop child (ins :: tail)
    (.loop child.start child.stop parts.body parts.split parts.step parts.back,
      ⟨rest, hrest⟩)
  | .conditional, some (kind, _) =>
    match child.guardedLoop? tail with
    | some inner =>
      let (parts, ⟨rest, hrest⟩) := readLoop inner tail
      (.guarded ins kind inner.stop parts.body parts.split parts.step parts.back, ⟨rest, by omega⟩)
    | none =>
      let (body, ⟨rest, hrest⟩) := read child child.bodyStop tail
      match child.alternative? with
      | none => (.choice ins kind child.stop body, ⟨rest, hrest⟩)
      | some branch =>
        match rest, hrest with
        | separator :: rest, hrest =>
          if separator.addr = branch.addr then
            have : rest.length < tail.length := hrest
            let (alternative, ⟨rest', hrest'⟩) :=
              read parent (min branch.target parent.alternativeStop) rest
            (.choiceElse ins kind child.stop body branch.addr alternative, ⟨rest', by omega⟩)
          else
            (.choiceElse ins kind child.stop body branch.addr [.broken branch.addr], ⟨[], Nat.zero_le _⟩)
        | [], _ =>
          (.choiceElse ins kind child.stop body branch.addr [.broken branch.addr], ⟨[], Nat.zero_le _⟩)
  | _, _ => (.jump ins .alternative, ⟨[], Nat.zero_le _⟩)
  termination_by (tail.length + 1, sizeOf child, 2)

/-- The parts of a loop at the front of the stream. -/
def readLoop (block : Block) (instrs : List Instruction) :
    LoopRegions × { rest : List Instruction // rest.length ≤ instrs.length - 1 } :=
  let (body, ⟨rest, hrest⟩) := read block (block.splitPoint?.getD block.stop) instrs
  if block.splitPoint?.isSome then
    let (step, ⟨rest', hrest'⟩) := read block block.stop rest
    let back := back? block.stop rest'
    (⟨body, true, step, back⟩,
      ⟨behind back rest', Nat.le_trans (length_behind_le _ _) (by omega)⟩)
  else
    let back := back? block.stop rest
    (⟨body, false, [], back⟩,
      ⟨behind back rest, Nat.le_trans (length_behind_le _ _) (by omega)⟩)
  termination_by (instrs.length, sizeOf block, 1)
  decreasing_by
    · exact .right _ (.right _ (by omega))
    · rcases Nat.lt_or_eq_of_le hrest with hlt | heq
      · exact .left _ _ hlt
      · exact heq ▸ .right _ (.right _ (by omega))

end

/-- The regions of a whole stream. Instructions left over do not fit. -/
def ofStream (tree : Block) (instrs : List Instruction) : List Region :=
  let (regions, rest) := read tree Addr.last instrs
  match rest.val with
  | [] => regions
  | ins :: _ => regions ++ [.broken ins.addr]

end Region

end TorqueScript
