import TorqueScript.Proofs.BlockIndexes
import TorqueScript.Proofs.Framing

/-!
# Rebuilding by positions

Statements are rebuilt in one walk over the instructions (`Builder.walk`).  It knows the position where it is
and the number of the block in which it is, and whatever it needs to know of a block is looked up in an index.
Regions are not read before they are run: what is found at a position is run at once.

`Builder.Performs` says that a walk, if it is given enough steps, runs the regions of a block and gives the
position behind them.  That is what it does wherever these regions are taken (`Builder.walk_performs`), so the
walk over a whole stream rebuilds what its regions say (`Builder.build_ends`).
-/

namespace TorqueScript

/-- A computation on the state of rebuilding that may slip. -/
abbrev Builder := StateT Rebuild.State Checked

namespace Builder

variable {α β : Type}

/-- A step of rebuilding.  It uses no position. -/
def lift (x : Rebuild α) : Builder α :=
  fun s => Checked.of (x s)

section

variable (I : BlockIndex) (instrs : List Instruction) (walk : Nat → Nat → Addr → Builder Nat)

/-- Rebuilds the parts of a loop that begins at position `i`; gives also the position behind it. -/
def loopParts (id i : Nat) : Builder (Rebuild.LoopParts × Nat) := do
  let r ← I.block id
  let split ← I.splitPoint? r
  lift Rebuild.openPart
  let j ← walk id i (split.getD r.stop)
  if split.isSome then do
    let body ← lift (Rebuild.closePart r.stop)
    lift Rebuild.openPart
    let k ← walk id j r.stop
    let (condition, step) ← lift (Rebuild.endLoop r.stop (Region.back? r.stop (instrs.drop k)))
    pure ({ condition, body, step }, k + 1)
  else do
    let (condition, body) ← lift (Rebuild.endLoop r.stop (Region.back? r.stop (instrs.drop j)))
    pure ({ condition, body, step := [] }, j + 1)

/-- Rebuilds what stands behind the body of a conditional block: the alternative, which is part of the block
around it. -/
def alternative (r : BlockRecord) (condition : Node) (thenBody : List Node) (j : Nat) : Builder Nat :=
  match r.alone.alternative? with
  | none => do
    lift (Rebuild.push (.ifElse condition thenBody []))
    pure j
  | some branch =>
    if (instrs[j]?).map (·.addr) ≠ some branch.addr then throw (.unstructuredBranch branch.addr)
    else match r.parent with
      | none => throw (.unstructuredBranch branch.addr)
      | some parent => do
        let around ← I.block parent
        lift Rebuild.openPart
        let k ← walk parent (j + 1) (min branch.target around.alone.alternativeStop)
        let elseBody ← lift (Rebuild.closePart branch.addr)
        lift (Rebuild.push (.ifElse condition thenBody elseBody))
        pure k

/-- Rebuilds a conditional block that begins at position `i`. -/
def conditional (id i : Nat) : Builder Nat := do
  let r ← I.block id
  let ins ← Checked.get instrs i
  match ins.jump? with
  | none => throw (.unstructuredBranch ins.addr)
  | some (kind, _) => do
    let condition ← lift (Rebuild.fallThrough ins kind)
    match ← I.guardedLoop? instrs (i + 1) r with
    | some inner => do
      let (parts, j) ← loopParts I instrs walk inner (i + 1)
      lift (Rebuild.guardedLoop condition parts)
      pure j
    | none => do
      lift Rebuild.openPart
      let j ← walk id (i + 1) r.alone.bodyStop
      let thenBody ← lift (Rebuild.closePart r.stop)
      alternative I instrs walk r condition thenBody j

/-- Rebuilds a block that begins at position `i`. -/
def child (id i : Nat) : Builder Nat := do
  let r ← I.block id
  match r.kind with
  | .conditional => conditional I instrs walk id i
  | .loop => do
    let (parts, j) ← loopParts I instrs walk id i
    lift (Rebuild.push parts.doWhile)
    pure j
  | .root => throw (.unstructuredBranch r.start)

end

/-- Rebuilds an instruction that belongs to the block itself. -/
def own (r : BlockRecord) (ins : Instruction) : Rebuild Unit :=
  match r.alone.branchAt? ins.addr with
  | some branch => Rebuild.leave ins branch.kind
  | none => Rebuild.step ins

/-- Rebuilds the instructions of a block from position `i` up to the address `stop`; gives the position behind
them. -/
def walk (I : BlockIndex) (instrs : List Instruction) : Nat → Nat → Nat → Addr → Builder Nat
  | 0, _, _, _ => Checked.slip .outOfSteps
  | steps + 1, id, i, stop =>
    match instrs[i]? with
    | none => pure i
    | some ins =>
      if stop ≤ ins.addr then pure i
      else do
        lift (Rebuild.enter ins.addr)
        match ← I.childAt? id ins.addr with
        | some c => do
          let j ← child I instrs (walk I instrs steps) c i
          walk I instrs steps id j stop
        | none => do
          let r ← I.block id
          lift (own r ins)
          walk I instrs steps id (i + 1) stop

/-- Rebuilds a whole stream. -/
def build (I : BlockIndex) (instrs : List Instruction) (steps : Nat) : Builder Unit := do
  let j ← walk I instrs steps 0 0 Addr.last
  if j = instrs.length then lift (Rebuild.close (Stream.last instrs))
  else throw (.unstructuredBranch (((instrs[j]?).map (·.addr)).getD 0))

/-! ### Steps of rebuilding -/

theorem lift_pure (a : α) : lift (pure a) = pure a := rfl

theorem lift_throw (e : Error) : (lift (throw e) : Builder α) = throw e := rfl

theorem throw_bind (e : Error) (f : α → Builder β) : (throw e >>= f : Builder β) = throw e := rfl

theorem lift_bind (x : Rebuild α) (f : α → Rebuild β) : lift (x >>= f) = lift x >>= fun a => lift (f a) := by
  funext s
  show Checked.of (x s >>= fun p => f p.1 p.2) = _
  rw [Checked.of_bind]
  rfl

theorem lift_loopParts (stop : Addr) (body step : Rebuild Unit) (back : Option (Instruction × JumpKind)) :
    lift (Rebuild.loopParts stop body false step back) = lift Rebuild.openPart >>= fun _ => lift body >>= fun _ =>
      lift (Rebuild.endLoop stop back) >>= fun p => pure ⟨p.1, p.2, []⟩ := by
  simp only [Rebuild.loopParts, Bool.false_eq_true, if_false, lift_bind, lift_pure]

theorem lift_loopParts_split (stop : Addr) (body step : Rebuild Unit) (back : Option (Instruction × JumpKind)) :
    lift (Rebuild.loopParts stop body true step back) = lift Rebuild.openPart >>= fun _ => lift body >>= fun _ =>
      lift (Rebuild.closePart stop) >>= fun body => lift Rebuild.openPart >>= fun _ => lift step >>= fun _ =>
        lift (Rebuild.endLoop stop back) >>= fun p => pure ⟨p.1, body, p.2⟩ := by
  simp only [Rebuild.loopParts, if_true, lift_bind, lift_pure]

/-- What is looked up and found does not change the state. -/
theorem found_bind {x : Checked α} {a : α} (h : x = pure a) (f : α → Builder β) :
    (liftM x >>= f : Builder β) = f a := by
  rw [h]
  rfl

open Filter in
/-- With enough steps the computation does what rebuilding does, and gives `result` of its value. -/
def Performs (x : Nat → Builder β) (y : Rebuild α) (result : α → β) : Prop :=
  ∀ᶠ steps in atTop, x steps = lift y >>= fun a => pure (result a)

theorem Performs.succ {x : Nat → Builder β} {y : Rebuild α} {result : α → β}
    (h : Performs (fun steps => x (steps + 1)) y result) : Performs x y result := by
  rw [Performs, ← Filter.map_add_atTop_eq_nat 1]
  exact Filter.eventually_map.mpr h

/-! ### Walks -/

section Walks

open Region

variable {I : BlockIndex} {instrs : List Instruction} {tree : Block}

/-- A block begins at the position. -/
theorem walk_of_child {block c : Block} {stop : Addr} {i : Nat} {ins : Instruction} (h : I.Of tree)
    (hblock : block ∈ tree.preorder) (hi : instrs[i]? = some ins) (hstop : ins.addr < stop)
    (hchild : block.childAt? ins.addr = some c) (steps : Nat) :
    walk I instrs (steps + 1) block.id i stop =
      (lift (Rebuild.enter ins.addr) >>= fun _ => child I instrs (walk I instrs steps) c.id i) >>= fun j =>
        walk I instrs steps block.id j stop := by
  have hfound := h.childAt?_eq hblock ins.addr
  rw [hchild] at hfound
  rw [walk, hi, bind_assoc]
  dsimp only
  rw [if_neg (Nat.not_le.mpr hstop)]
  simp only [found_bind hfound]
  rfl

/-- The instruction at the position belongs to the block. -/
theorem walk_of_own {block : Block} {stop : Addr} {i : Nat} {ins : Instruction} {x : Rebuild Unit} (h : I.Of tree)
    (hblock : block ∈ tree.preorder) (hi : instrs[i]? = some ins) (hstop : ins.addr < stop)
    (hchild : block.childAt? ins.addr = none) (hown : ∀ parent, own (.of block parent) ins = x) (steps : Nat) :
    walk I instrs (steps + 1) block.id i stop =
      lift (Rebuild.enter ins.addr >>= fun _ => x) >>= fun _ => walk I instrs steps block.id (i + 1) stop := by
  have hfound := h.childAt?_eq hblock ins.addr
  obtain ⟨parent, hget⟩ := h.exists_block hblock
  rw [hchild] at hfound
  rw [walk, hi, lift_bind, bind_assoc, ← hown parent]
  dsimp only
  rw [if_neg (Nat.not_le.mpr hstop)]
  simp only [found_bind hfound, Option.map_none, found_bind hget]

theorem own_of_branch {block : Block} {parent : Option Nat} {ins : Instruction} {branch : Branch}
    (h : block.branchAt? ins.addr = some branch) : own (.of block parent) ins = Rebuild.leave ins branch.kind := by
  have halone : (BlockRecord.of block parent).alone.branchAt? ins.addr = block.branchAt? ins.addr := rfl
  rw [own, halone, h]

theorem own_of_none {block : Block} {parent : Option Nat} {ins : Instruction}
    (h : block.branchAt? ins.addr = none) : own (.of block parent) ins = Rebuild.step ins := by
  have halone : (BlockRecord.of block parent).alone.branchAt? ins.addr = block.branchAt? ins.addr := rfl
  rw [own, halone, h]

theorem back?_drop {stop : Addr} {j : Nat} {back : Instruction} {kind : JumpKind} {target : Addr}
    (hj : instrs[j]? = some back) (haddr : back.addr = stop) (hjump : back.jump? = some (kind, target)) :
    back? stop (instrs.drop j) = some (back, kind) := by
  rw [drop_eq_cons hj, back?, if_pos haddr, hjump]
  rfl

section Blocks

variable {block around inner : Block} {outer parent : Option Nat} {i j : Nat} {ins : Instruction} {kind : JumpKind}
  {target : Addr} {branch : Branch} {condition : Node} {thenBody : List Node}
  {walk : Nat → Nat → Addr → Builder Nat}

theorem child_of_loop (hget : I.block block.id = pure (.of block parent)) (hkind : block.kind = .loop) :
    child I instrs walk block.id i = loopParts I instrs walk block.id i >>= fun p =>
      lift (Rebuild.push p.1.doWhile) >>= fun _ => pure p.2 := by
  have hkind : (BlockRecord.of block parent).kind = .loop := hkind
  simp only [child, found_bind hget, hkind]

theorem child_of_conditional (hget : I.block block.id = pure (.of block parent)) (hkind : block.kind = .conditional) :
    child I instrs walk block.id i = conditional I instrs walk block.id i := by
  have hkind : (BlockRecord.of block parent).kind = .conditional := hkind
  simp only [child, found_bind hget, hkind]

/-- A block that is no loop begins with a jump. -/
theorem child_of_noHead (hget : I.block block.id = pure (.of block parent)) (hi : instrs[i]? = some ins)
    (hstart : block.start = ins.addr) (hkind : block.kind ≠ .loop)
    (hjump : block.kind = .conditional → ins.jump? = none) :
    child I instrs walk block.id i = throw (.unstructuredBranch ins.addr) := by
  cases hblock : block.kind with
  | loop => exact absurd hblock hkind
  | conditional =>
      simp only [child_of_conditional hget hblock, conditional, found_bind hget, found_bind (Checked.get_eq hi),
        hjump hblock]
  | root =>
      have hblock : (BlockRecord.of block parent).kind = .root := hblock
      have hstart : (BlockRecord.of block parent).start = ins.addr := hstart
      simp only [child, found_bind hget, hblock, hstart]

/-- The conditional jump is in front of a loop. -/
theorem conditional_of_some (hget : I.block block.id = pure (.of block parent)) (hi : instrs[i]? = some ins)
    (hjump : ins.jump? = some (kind, target))
    (hloop : I.guardedLoop? instrs (i + 1) (.of block parent) = pure (some inner.id)) :
    conditional I instrs walk block.id i = lift (Rebuild.fallThrough ins kind) >>= fun condition =>
      loopParts I instrs walk inner.id (i + 1) >>= fun p =>
        lift (Rebuild.guardedLoop condition p.1) >>= fun _ => pure p.2 := by
  simp only [conditional, found_bind hget, found_bind (Checked.get_eq hi), hjump, found_bind hloop]

theorem conditional_of_none (hget : I.block block.id = pure (.of block parent)) (hi : instrs[i]? = some ins)
    (hjump : ins.jump? = some (kind, target))
    (hloop : I.guardedLoop? instrs (i + 1) (.of block parent) = pure none) :
    conditional I instrs walk block.id i = lift (Rebuild.fallThrough ins kind) >>= fun condition =>
      lift Rebuild.openPart >>= fun _ => walk block.id (i + 1) block.bodyStop >>= fun j =>
        lift (Rebuild.closePart block.stop) >>= fun thenBody =>
          alternative I instrs walk (.of block parent) condition thenBody j := by
  simp only [conditional, found_bind hget, found_bind (Checked.get_eq hi), hjump, found_bind hloop]
  rfl

theorem alternative_of_none (helse : block.alternative? = none) :
    alternative I instrs walk (.of block parent) condition thenBody j =
      lift (Rebuild.push (.ifElse condition thenBody [])) >>= fun _ => pure j := by
  have helse : (BlockRecord.of block parent).alone.alternative? = none := helse
  rw [alternative, helse]

/-- The alternative is part of the block around. -/
theorem alternative_of_some (helse : block.alternative? = some branch) (hj : instrs[j]? = some ins)
    (haddr : ins.addr = branch.addr) (haround : I.block around.id = pure (.of around outer)) :
    alternative I instrs walk (.of block (some around.id)) condition thenBody j =
      lift Rebuild.openPart >>= fun _ => walk around.id (j + 1) (min branch.target around.alternativeStop) >>= fun k =>
        lift (Rebuild.closePart branch.addr) >>= fun elseBody =>
          lift (Rebuild.push (.ifElse condition thenBody elseBody)) >>= fun _ => pure k := by
  have helse : (BlockRecord.of block (some around.id)).alone.alternative? = some branch := helse
  have hparent : (BlockRecord.of block (some around.id)).parent = some around.id := rfl
  have hfound : ¬ (instrs[j]?).map (·.addr) ≠ some branch.addr := by
    rw [hj, Option.map_some, haddr]
    exact not_not_intro rfl
  rw [alternative, helse]
  dsimp only
  rw [if_neg hfound, hparent]
  simp only [found_bind haround]
  rfl

theorem alternative_of_missing (helse : block.alternative? = some branch)
    (hj : ∀ ins, instrs[j]? = some ins → ins.addr ≠ branch.addr) :
    alternative I instrs walk (.of block parent) condition thenBody j = throw (.unstructuredBranch branch.addr) := by
  have helse : (BlockRecord.of block parent).alone.alternative? = some branch := helse
  have hmissing : (instrs[j]?).map (·.addr) ≠ some branch.addr := by
    intro heq
    obtain ⟨ins, hins, haddr⟩ := Option.map_eq_some_iff.mp heq
    exact hj ins hins haddr
  rw [alternative, helse]
  exact if_pos hmissing

theorem loopParts_of_none (h : I.Of tree) (hblock : block ∈ tree.preorder) (hsplit : block.splitPoint? = none) :
    loopParts I instrs walk block.id i = lift Rebuild.openPart >>= fun _ => walk block.id i block.stop >>= fun j =>
      lift (Rebuild.endLoop block.stop (back? block.stop (instrs.drop j))) >>= fun p =>
        pure (⟨p.1, p.2, []⟩, j + 1) := by
  obtain ⟨parent, hget⟩ := h.exists_block hblock
  simp only [loopParts, found_bind hget, found_bind (h.splitPoint?_eq hblock parent), hsplit]
  rfl

/-- The next round of the loop begins at `point`. -/
theorem loopParts_of_some {point : Addr} (h : I.Of tree) (hblock : block ∈ tree.preorder)
    (hsplit : block.splitPoint? = some point) :
    loopParts I instrs walk block.id i = lift Rebuild.openPart >>= fun _ => walk block.id i point >>= fun j =>
      lift (Rebuild.closePart block.stop) >>= fun body => lift Rebuild.openPart >>= fun _ =>
        walk block.id j block.stop >>= fun k =>
          lift (Rebuild.endLoop block.stop (back? block.stop (instrs.drop k))) >>= fun p =>
            pure (⟨p.1, body, p.2⟩, k + 1) := by
  obtain ⟨parent, hget⟩ := h.exists_block hblock
  simp only [loopParts, found_bind hget, found_bind (h.splitPoint?_eq hblock parent), hsplit]
  rfl

/-- What is known of a block that begins at an instruction. -/
theorem found_child (h : I.Of tree) (haround : around ∈ tree.preorder)
    (hchild : around.childAt? ins.addr = some block) :
    block ∈ tree.preorder ∧ block.start = ins.addr ∧ I.block block.id = pure (.of block (some around.id)) := by
  obtain ⟨hmem, hstart⟩ := mem_preorder_child haround hchild
  exact ⟨hmem, hstart, h.block_child haround (List.mem_of_find?_eq_some hchild)⟩

/-- Whether there is a loop behind the head of a block. -/
theorem found_loop (h : I.Of tree) (hblock : block ∈ tree.preorder) {found : Option Block}
    (hloop : block.guardedLoop? (instrs.drop (i + 1)) = found) :
    I.guardedLoop? instrs (i + 1) (.of block parent) = pure (found.map (·.id)) := by
  rw [h.guardedLoop?_eq hblock, hloop]

end Blocks

mutual

/-- **A walk** runs the regions that it takes. -/
theorem walk_performs (h : I.Of tree) {block : Block} {stop : Addr} {i j : Nat} {regions : List Region}
    {used : List Nat} : Walks instrs block stop i regions used j → block ∈ tree.preorder →
      Performs (fun steps => walk I instrs steps block.id i stop) (Rebuild.runAll regions) fun _ => j
  | .nothing hi, hblock => by
      refine .succ (.of_forall fun steps => ?_)
      simp only [walk, hi]
      rfl
  | .halt hi hstop, hblock => by
      refine .succ (.of_forall fun steps => ?_)
      simp only [walk, hi, if_pos hstop]
      rfl
  | .inner hi hstop hchild hregion hrest, hblock => by
      refine .succ ?_
      filter_upwards [child_performs h hregion hblock hi hchild, walk_performs h hrest hblock] with steps hregion hrest
      rw [walk_of_child h hblock hi hstop hchild, hregion, Rebuild.runAll, lift_bind]
      simp only [bind_assoc, pure_bind, hrest]
  | .jump hi hstop hchild hbranch hrest, hblock => by
      refine .succ ?_
      filter_upwards [walk_performs h hrest hblock] with steps hrest
      rw [walk_of_own h hblock hi hstop hchild fun _ => own_of_branch hbranch, hrest]
      simp only [Rebuild.runAll, Rebuild.run, lift_bind, bind_assoc]
  | .plain hi hstop hchild hbranch hrest, hblock => by
      refine .succ ?_
      filter_upwards [walk_performs h hrest hblock] with steps hrest
      rw [walk_of_own h hblock hi hstop hchild fun _ => own_of_none hbranch, hrest]
      simp only [Rebuild.runAll, Rebuild.run, lift_bind, bind_assoc]

/-- The block at a position is run as its region says. -/
theorem child_performs (h : I.Of tree) {parent block : Block} {i j : Nat} {region : Region} {used : List Nat}
    {ins : Instruction} : WalksChild instrs parent block i region used j → parent ∈ tree.preorder →
      instrs[i]? = some ins → parent.childAt? ins.addr = some block →
      Performs (fun steps => lift (Rebuild.enter ins.addr) >>= fun _ =>
        child I instrs (walk I instrs steps) block.id i) (Rebuild.run region) fun _ => j
  | .loop hkind hloop, hparent, hi, hchild => by
      obtain ⟨hmem, hstart, hget⟩ := found_child h hparent hchild
      filter_upwards [loopParts_performs h hloop hmem] with steps hloop
      simp only [child_of_loop hget hkind, hloop, Rebuild.run, hstart, lift_bind, bind_assoc, pure_bind]
  | .guarded hi' hkind hjump hinner hloop, hparent, hi, hchild => by
      obtain ⟨hmem, -, hget⟩ := found_child h hparent hchild
      obtain rfl := Option.some.inj (hi'.symm.trans hi)
      obtain ⟨_, -, hinside, -⟩ := guardedLoop?_eq_some hinner
      have hinside := Block.mem_preorder_trans hmem (Block.mem_preorder_of_mem_children hinside)
      filter_upwards [loopParts_performs h hloop hinside] with steps hloop
      rw [child_of_conditional hget hkind, conditional_of_some hget hi hjump (found_loop h hmem hinner), hloop]
      simp only [Rebuild.run, lift_bind, bind_assoc, pure_bind]
  | .choice hi' hkind hjump hinner helse hbody, hparent, hi, hchild => by
      obtain ⟨hmem, -, hget⟩ := found_child h hparent hchild
      obtain rfl := Option.some.inj (hi'.symm.trans hi)
      filter_upwards [walk_performs h hbody hmem] with steps hbody
      rw [child_of_conditional hget hkind, conditional_of_none hget hi hjump (found_loop h hmem hinner), hbody]
      simp only [alternative_of_none helse, Rebuild.run, lift_bind, bind_assoc, pure_bind]
  | .choiceElse hi' hkind hjump hinner helse hbody hj haddr halt, hparent, hi, hchild => by
      obtain ⟨hmem, -, hget⟩ := found_child h hparent hchild
      obtain ⟨outer, haround⟩ := h.exists_block hparent
      obtain rfl := Option.some.inj (hi'.symm.trans hi)
      filter_upwards [walk_performs h hbody hmem, walk_performs h halt hparent] with steps hbody halt
      rw [child_of_conditional hget hkind, conditional_of_none hget hi hjump (found_loop h hmem hinner), hbody]
      simp only [alternative_of_some helse hj haddr haround, halt, Rebuild.run, lift_bind, bind_assoc, pure_bind]
  | .noSeparator hi' hkind hjump hinner helse hbody hj, hparent, hi, hchild => by
      obtain ⟨hmem, -, hget⟩ := found_child h hparent hchild
      obtain rfl := Option.some.inj (hi'.symm.trans hi)
      filter_upwards [walk_performs h hbody hmem] with steps hbody
      rw [child_of_conditional hget hkind, conditional_of_none hget hi hjump (found_loop h hmem hinner), hbody]
      simp only [alternative_of_missing helse hj, Rebuild.run, Rebuild.runAll, lift_bind, bind_assoc, pure_bind,
        lift_throw, throw_bind]
      -- the part that is opened for the alternative does not matter
      rfl
  | .noHead hi' hkind hjump, hparent, hi, hchild => by
      obtain ⟨-, hstart, hget⟩ := found_child h hparent hchild
      obtain rfl := Option.some.inj (hi'.symm.trans hi)
      refine .of_forall fun steps => ?_
      simp only [child_of_noHead hget hi hstart hkind hjump, Rebuild.run, Rebuild.leave, lift_bind, bind_assoc,
        lift_throw, throw_bind]

/-- The parts of a loop are run. -/
theorem loopParts_performs (h : I.Of tree) {block : Block} {i j : Nat} {parts : LoopRegions} {used : List Nat} :
    WalksLoop instrs block i parts used j → block ∈ tree.preorder →
      Performs (fun steps => loopParts I instrs (walk I instrs steps) block.id i)
        (Rebuild.loopParts block.stop (Rebuild.runAll parts.body) parts.split (Rebuild.runAll parts.step) parts.back)
        fun p => (p, j)
  | .whole hsplit hbody hj haddr hjump, hblock => by
      filter_upwards [walk_performs h hbody hblock] with steps hbody
      rw [loopParts_of_none h hblock hsplit, hbody, lift_loopParts]
      simp only [back?_drop hj haddr hjump, bind_assoc, pure_bind]
  | .split hsplit hbody hstep hk haddr hjump, hblock => by
      filter_upwards [walk_performs h hbody hblock, walk_performs h hstep hblock] with steps hbody hstep
      rw [loopParts_of_some h hblock hsplit, hbody, lift_loopParts_split]
      simp only [hstep, back?_drop hk haddr hjump, bind_assoc, pure_bind]
  | .wholeNoBack hsplit hbody hj, hblock => by
      filter_upwards [walk_performs h hbody hblock] with steps hbody
      rw [loopParts_of_none h hblock hsplit, hbody, lift_loopParts]
      simp only [hj, Rebuild.endLoop, lift_throw, bind_assoc, pure_bind, throw_bind]
  | .splitNoBack hsplit hbody hstep hk, hblock => by
      filter_upwards [walk_performs h hbody hblock, walk_performs h hstep hblock] with steps hbody hstep
      rw [loopParts_of_some h hblock hsplit, hbody, lift_loopParts_split]
      simp only [hstep, hk, Rebuild.endLoop, lift_throw, bind_assoc, pure_bind, throw_bind]

end

/-! ### Whole streams -/

theorem lift_runAll_append (rs rs' : List Region) :
    lift (Rebuild.runAll (rs ++ rs')) = lift (Rebuild.runAll rs) >>= fun _ => lift (Rebuild.runAll rs') := by
  induction rs with
  | nil => rfl
  | cons r rs ih => rw [List.cons_append, Rebuild.runAll, Rebuild.runAll, lift_bind, lift_bind, bind_assoc, ih]

theorem ofStream_of_reads {regions : List Region} {rest : List Instruction}
    (h : Reads tree Addr.last instrs regions rest) :
    ofStream tree instrs = regions ++ rest.head?.toList.map fun ins => .broken ins.addr := by
  rw [Reads] at h
  rw [ofStream]
  generalize read tree Addr.last instrs = result at h
  obtain ⟨regions', rest', hle⟩ := result
  obtain ⟨rfl, rfl⟩ := h
  cases rest' with
  | nil => exact (List.append_nil _).symm
  | cons ins rest => rfl

/-- **A stream** is rebuilt as its regions say. -/
theorem build_ends (h : I.Of tree) (hid : tree.id = 0) (s : Rebuild.State) :
    Checked.Ends (fun steps => build I instrs steps s) (Checked.of (Stream.run tree instrs s)) := by
  obtain ⟨regions, used, j, hwalk⟩ := exists_walks instrs tree Addr.last 0
  obtain ⟨-, hj⟩ := hwalk.le (Nat.zero_le _)
  have hregions := ofStream_of_reads (Stream.reads_of_walks hwalk)
  rw [List.head?_drop] at hregions
  have hrun := walk_performs h hwalk tree.self_mem_preorder
  rw [hid] at hrun
  refine Filter.eventually_atTop.mp ?_
  filter_upwards [hrun] with steps hrun
  show build I instrs steps s = lift (Stream.run tree instrs) s
  rw [build, hrun, Stream.run, hregions, lift_bind, lift_runAll_append, bind_assoc, bind_assoc]
  simp only [pure_bind]
  by_cases hend : j = instrs.length
  · rw [if_pos hend, hend, List.getElem?_length]
    rfl
  · -- an instruction is left over
    have hlt : j < instrs.length := Nat.lt_of_le_of_ne hj hend
    rw [if_neg hend, List.getElem?_eq_getElem hlt]
    rfl

end Walks

end Builder

end TorqueScript
