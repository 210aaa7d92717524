import TorqueScript.Proofs.Decoding
import TorqueScript.Proofs.Framing
import TorqueScript.Proofs.Visits

/-!
# Functions while decoding and rebuilding

Decoding and rebuilding each keep the end of the function that was declared last, and leave the function
where its end is reached.  Decoding looks at every instruction, while rebuilding does not enter the jumps
that only hold parts together.  But none of these declares a function, so both tell the same addresses: what
the state of rebuilding keeps tells from the next position on what lies in a body (`Rebuild.Knows`).

* `Rebuild.Moves`: a computation gets from one position to another, in this sense.
* `Region.Walks.moves`: running the regions that a walk takes gets from the beginning of the walk to its end.
* `Region.Walks.visits`: and each instruction is visited with a function being declared if and only if it
  lies in a body.

**Function contexts** (`Image.function_iff_of_visit`).  While the stream of an image is rebuilt, a function is
being declared at an instruction if and only if decoding has read this instruction with the pools of functions.
-/

namespace TorqueScript

/-- A jump declares no body. -/
theorem Instruction.bodyStop?_of_jump? {ins : Instruction} {kind : JumpKind} {target : Addr}
    (h : ins.jump? = some (kind, target)) : ins.operation.bodyStop? = none := by
  cases hoperation : ins.operation with
  | declareFunction signature hasBody stop =>
      rw [Instruction.jump?, hoperation] at h
      cases h
  | _ => rfl

namespace Rebuild

open Operation

variable {α β : Type} {instrs : List Instruction} {i j k : Nat} {s t : State} {ins : Instruction}

/-! ### The function being declared -/

/-- What leaves parts and functions alone keeps the open function. -/
theorem Still.function_eq {x : Rebuild α} (h : Still x) {a : α} (hx : x s = .ok (a, t)) :
    t.function = s.function :=
  (h s.saved s.function s a t ⟨rfl, rfl⟩ hx).1.2

theorem function_openPart {u : Unit} (h : openPart s = .ok (u, t)) : t.function = s.function := by
  cases h
  rfl

theorem function_closePart {addr : Addr} {ns : List Node} (h : closePart addr s = .ok (ns, t)) :
    t.function = s.function := by
  obtain ⟨outer, saved, -, -, rfl⟩ := closePart_eq_ok h
  rfl

/-- A function whose end has been reached is left. -/
theorem function_enter {addr : Addr} {u : Unit} (h : enter addr s = .ok (u, t)) :
    t.function = s.function.filter (addr < ·.stop) := by
  obtain ⟨_, s₁, hclose, hfold⟩ := bind_eq_ok h
  rw [(still_foldLogic addr).function_eq hfold]
  exact function_closeFunction hclose

/-- A function with a body is declared where there is none yet. -/
theorem function_step {u : Unit} (h : step ins s = .ok (u, t)) :
    t.function.map (·.stop) = ins.operation.bodyStop?.or (s.function.map (·.stop)) := by
  by_cases hdeclares : ∃ signature stop, ins.operation = .declareFunction signature true stop
  · obtain ⟨signature, stop, hoperation⟩ := hdeclares
    rw [step, hoperation] at h
    obtain ⟨_, _, ⟨⟩, h⟩ := bind_eq_ok h
    split at h
    · cases h
    · rw [if_pos rfl] at h
      obtain ⟨_, _, ⟨⟩, h⟩ := bind_eq_ok h
      cases h
      rw [hoperation]
      rfl
  · have hstill : Still (step ins) := still_step fun signature stop h => hdeclares ⟨signature, stop, h⟩
    have hnone : ins.operation.bodyStop? = none := by
      cases hoperation : ins.operation with
      | declareFunction signature hasBody stop =>
          cases hasBody with
          | true => exact absurd ⟨signature, stop, hoperation⟩ hdeclares
          | false => rfl
      | _ => rfl
    rw [hstill.function_eq h, hnone]
    rfl

/-! ### Positions -/

/-- The operations in front of a position. -/
def operationsBefore (instrs : List Instruction) (i : Nat) : List Operation :=
  (instrs.take i).map (·.operation)

/-- Behind an instruction its operation is among those before. -/
theorem operationsBefore_succ (h : instrs[i]? = some ins) :
    operationsBefore instrs (i + 1) = operationsBefore instrs i ++ [ins.operation] := by
  rw [operationsBefore, List.take_add_one, h, List.map_append]
  rfl

/-- From the position on, the function being declared tells what lies in a body. -/
def Knows (instrs : List Instruction) (i : Nat) (s : State) : Prop :=
  ∀ ins, instrs[i]? = some ins → Bounds (s.function.map (·.stop)) (operationsBefore instrs i) ins.addr

/-- What a state knows depends on its open function only. -/
theorem Knows.congr (h : Knows instrs i s) (hfunction : t.function = s.function) : Knows instrs i t := by
  intro ins hi
  rw [hfunction]
  exact h ins hi

/-- What is known at an instruction is known behind it, together with the body that it declares. -/
theorem Knows.succ (hincreasing : Stream.Increasing instrs) (hi : instrs[i]? = some ins)
    (h : Knows instrs i s)
    (hfunction : t.function.map (·.stop) = ins.operation.bodyStop?.or (s.function.map (·.stop))) :
    Knows instrs (i + 1) t := by
  intro next hnext
  rw [hfunction, operationsBefore_succ hi]
  exact ((h ins hi).append ins.operation).mono (hincreasing.addr_lt hi hnext (Nat.lt_succ_self i)).le

/-- An instruction that declares no body may be left out. -/
theorem Knows.skip (hincreasing : Stream.Increasing instrs) (hi : instrs[i]? = some ins)
    (h : Knows instrs i s) (hnone : ins.operation.bodyStop? = none) : Knows instrs (i + 1) s :=
  h.succ hincreasing hi (by rw [hnone]; rfl)

/-- **Entering an address closes the functions that end before it**, so the state still knows its position. -/
theorem Knows.enter (hi : instrs[i]? = some ins) (h : Knows instrs i s) {u : Unit}
    (henter : Rebuild.enter ins.addr s = .ok (u, t)) : Knows instrs i t := by
  intro ins' hi'
  obtain rfl := Option.some.inj (hi.symm.trans hi')
  have hfunction : t.function.map (·.stop) = (s.function.map (·.stop)).filter (ins.addr < ·) := by
    rw [function_enter henter, Option.filter_map]
    rfl
  rw [hfunction]
  exact (h ins hi).filter

/-- At an instruction that has been entered, a function is being declared exactly in a body. -/
theorem Knows.isSome_enter (hi : instrs[i]? = some ins) (h : Knows instrs i s) {u : Unit}
    (henter : Rebuild.enter ins.addr s = .ok (u, t)) :
    t.function.isSome = inBody (operationsBefore instrs i) ins.addr := by
  rw [function_enter henter, ← (h ins hi).isSome_filter, Option.filter_map, Option.isSome_map]
  rfl

/-! ### Computations between positions -/

/-- The computation gets from one position to another: what is known at the first is known at the second. -/
def Moves (instrs : List Instruction) (i : Nat) (x : Rebuild α) (j : Nat) : Prop :=
  ∀ s a t, Knows instrs i s → x s = .ok (a, t) → Knows instrs j t

namespace Moves

variable {x : Rebuild α} {f : α → Rebuild β}

/-- Movements compose. -/
theorem bind (hx : Moves instrs i x j) (hf : ∀ a, Moves instrs j (f a) k) : Moves instrs i (x >>= f) k := by
  intro s b u hs h
  obtain ⟨a, t, hxa, hfa⟩ := bind_eq_ok h
  exact hf a t b u (hx s a t hs hxa) hfa

theorem throw (e : Error) : Moves instrs i (throwThe Error e : Rebuild α) j :=
  nofun

/-- What keeps the open function does not move. -/
theorem of_function_eq (h : ∀ s a t, x s = .ok (a, t) → t.function = s.function) : Moves instrs i x i :=
  fun s a t hs hx => hs.congr (h s a t hx)

theorem still (h : Still x) : Moves instrs i x i :=
  of_function_eq fun _ _ _ => h.function_eq

/-- A step that takes one position more. -/
theorem skip (hincreasing : Stream.Increasing instrs) (hj : instrs[j]? = some ins)
    (hnone : ins.operation.bodyStop? = none) (h : Moves instrs i x j) : Moves instrs i x (j + 1) :=
  fun s a t hs hx => (h s a t hs hx).skip hincreasing hj hnone

end Moves

theorem moves_openPart : Moves instrs i openPart i :=
  .of_function_eq fun _ _ _ => function_openPart

theorem moves_closePart (addr : Addr) : Moves instrs i (closePart addr) i :=
  .of_function_eq fun _ _ _ => function_closePart

theorem moves_enter (hi : instrs[i]? = some ins) : Moves instrs i (enter ins.addr) i :=
  fun _ _ _ hs henter => hs.enter hi henter

/-- **A step moves behind its instruction.** -/
theorem moves_step (hincreasing : Stream.Increasing instrs) (hi : instrs[i]? = some ins) :
    Moves instrs i (step ins) (i + 1) :=
  fun _ _ _ hs hstep => hs.succ hincreasing hi (function_step hstep)

theorem moves_endLoop (stop : Addr) (back : Option (Instruction × JumpKind)) :
    Moves instrs i (endLoop stop back) i := by
  cases back with
  | none => exact .throw _
  | some p =>
      exact (Moves.still (still_foldLogic p.1.addr)).bind fun _ => (Moves.still still_pop).bind fun _ =>
        (moves_closePart p.1.addr).bind fun _ => .still (.pure _)

/-- The jump at the head of a choice is used for its test. -/
theorem moves_test (hincreasing : Stream.Increasing instrs) (hi : instrs[i]? = some ins) {kind : JumpKind}
    {target : Addr} (hjump : ins.jump? = some (kind, target)) : Moves instrs i (test ins kind) (i + 1) := by
  have hnone := Instruction.bodyStop?_of_jump? hjump
  exact (moves_enter hi).bind fun _ =>
    ((Moves.still (still_fallThrough kind)).skip hincreasing hi hnone).bind fun _ => .still (.pure _)

/-- A loop without a step moves to the end of its body. -/
theorem moves_wholeLoop {body step : Rebuild Unit} (stop : Addr) (back : Option (Instruction × JumpKind))
    (hbody : Moves instrs i body j) : Moves instrs i (loopParts stop body false step back) j :=
  moves_openPart.bind fun _ => hbody.bind fun _ => (moves_endLoop stop back).bind fun _ => .still (.pure _)

/-- A loop with a step moves to the end of the step. -/
theorem moves_splitLoop {body step : Rebuild Unit} (stop : Addr) (back : Option (Instruction × JumpKind))
    (hbody : Moves instrs i body j) (hstep : Moves instrs j step k) :
    Moves instrs i (loopParts stop body true step back) k :=
  moves_openPart.bind fun _ => hbody.bind fun _ => (moves_closePart stop).bind fun _ =>
    moves_openPart.bind fun _ => hstep.bind fun _ => (moves_endLoop stop back).bind fun _ => .still (.pure _)

/-- A loop without its jump back is not rebuilt. -/
theorem moves_noBack {body step : Rebuild Unit} (stop : Addr) (split : Bool) :
    Moves instrs i (loopParts stop body split step none) j := by
  intro s a t _ h
  exact absurd (loopParts_eq_ok h).2.2 Bool.false_ne_true

end Rebuild

namespace Region

open Rebuild Operation

variable {instrs : List Instruction} {tree : Block} {ins : Instruction}

/-- What this needs of a stream and its block tree: the branches in the tree are jumps. -/
structure Ordered (instrs : List Instruction) (tree : Block) : Prop where
  increasing : Stream.Increasing instrs
  always : ∀ b ∈ tree.preorder, ∀ branch ∈ b.branches, ∀ ins ∈ instrs, ins.addr = branch.addr →
    ∃ target, ins.jump? = some (.always, target)

/-- A jump of a block is no declaration with a body. -/
theorem Ordered.bodyStop?_eq (h : Ordered instrs tree) {b : Block} (hb : b ∈ tree.preorder) {branch : Branch}
    (hbranch : branch ∈ b.branches) {i : Nat} (hi : instrs[i]? = some ins) (haddr : ins.addr = branch.addr) :
    ins.operation.bodyStop? = none := by
  obtain ⟨target, hjump⟩ := h.always b hb branch hbranch ins (List.mem_of_getElem? hi) haddr
  exact Instruction.bodyStop?_of_jump? hjump

mutual

/-- **Running regions** gets from the beginning of their walk to its end. -/
theorem Walks.moves (hordered : Ordered instrs tree) {block : Block} {stop : Addr} {i j : Nat}
    {regions : List Region} {used : List Nat} (hblock : block ∈ tree.preorder) :
    Walks instrs block stop i regions used j → Moves instrs i (runAll regions) j
  | .nothing _ | .halt _ _ => by
      rw [runAll]
      exact .still (.pure _)
  | .inner hi _ hchild h hrest => by
      obtain ⟨hmem, hstart⟩ := mem_preorder_child hblock hchild
      rw [runAll]
      exact (h.moves hordered hblock hmem hi hstart).bind fun _ => hrest.moves hordered hblock
  | .jump hi _ _ hbranch hrest => by
      obtain ⟨hmem, haddr⟩ := mem_of_branchAt? hbranch
      have hnone := hordered.bodyStop?_eq hblock hmem hi haddr.symm
      rw [runAll, run]
      exact ((moves_enter hi).bind fun _ => (Moves.still (still_leave _)).skip hordered.increasing hi hnone).bind
        fun _ => hrest.moves hordered hblock
  | .plain hi _ _ _ hrest => by
      rw [runAll, run]
      exact ((moves_enter hi).bind fun _ => moves_step hordered.increasing hi).bind fun _ =>
        hrest.moves hordered hblock

/-- **A child moves to where its walk ends.** -/
theorem WalksChild.moves (hordered : Ordered instrs tree) {parent child : Block} {i j : Nat} {region : Region}
    {used : List Nat} {first : Instruction} (hparent : parent ∈ tree.preorder) (hchild : child ∈ tree.preorder)
    (hi : instrs[i]? = some first) (hstart : child.start = first.addr) :
    WalksChild instrs parent child i region used j → Moves instrs i (run region) j
  | .loop _ h => by
      rw [run, hstart]
      exact (moves_enter hi).bind fun _ => (h.moves hordered hchild).bind fun _ => .still (still_push _)
  | .guarded hi' _ hjump hloop h => by
      obtain ⟨_, -, hmem, -⟩ := guardedLoop?_eq_some hloop
      have hinner := Block.mem_preorder_trans hchild (Block.mem_preorder_of_mem_children hmem)
      have hnone := Instruction.bodyStop?_of_jump? hjump
      rw [run]
      exact (moves_enter hi').bind fun _ =>
        ((Moves.still (still_fallThrough _)).skip hordered.increasing hi' hnone).bind fun _ =>
        (h.moves hordered hinner).bind fun _ => .still (still_guardedLoop _ _)
  | .choice hi' _ hjump _ _ h => by
      have hnone := Instruction.bodyStop?_of_jump? hjump
      rw [run]
      exact (moves_enter hi').bind fun _ =>
        ((Moves.still (still_fallThrough _)).skip hordered.increasing hi' hnone).bind fun _ =>
        moves_openPart.bind fun _ => (h.moves hordered hchild).bind fun _ => (moves_closePart _).bind fun _ =>
        .still (still_push _)
  | .choiceElse hi' _ hjump _ helse h hj haddr halt => by
      have hnone := Instruction.bodyStop?_of_jump? hjump
      have hseparator := hordered.bodyStop?_eq hchild (mem_of_alternative? helse).1 hj haddr
      rw [run]
      exact (moves_enter hi').bind fun _ =>
        ((Moves.still (still_fallThrough _)).skip hordered.increasing hi' hnone).bind fun _ =>
        moves_openPart.bind fun _ => (h.moves hordered hchild).bind fun _ => (moves_closePart _).bind fun _ =>
        (moves_openPart.skip hordered.increasing hj hseparator).bind fun _ =>
        (halt.moves hordered hparent).bind fun _ => (moves_closePart _).bind fun _ => .still (still_push _)
  | .noSeparator .. => fun _ _ _ _ h => ((unbroken_of_run _ h).2.1).elim
  | .noHead .. => fun _ _ _ _ h => absurd rfl (unbroken_of_run _ h)

/-- So does a loop. -/
theorem WalksLoop.moves (hordered : Ordered instrs tree) {block : Block} {i j : Nat} {parts : LoopRegions}
    {used : List Nat} (hblock : block ∈ tree.preorder) : WalksLoop instrs block i parts used j →
      Moves instrs i (loopParts block.stop (runAll parts.body) parts.split (runAll parts.step) parts.back) j
  | .whole _ h hj _ hjump =>
      (moves_wholeLoop _ _ (h.moves hordered hblock)).skip hordered.increasing hj
        (Instruction.bodyStop?_of_jump? hjump)
  | .split _ h hstep hk _ hjump =>
      (moves_splitLoop _ _ (h.moves hordered hblock) (hstep.moves hordered hblock)).skip hordered.increasing hk
        (Instruction.bodyStop?_of_jump? hjump)
  | .wholeNoBack .. | .splitNoBack .. => moves_noBack _ _

end

end Region

/-! ### Visits -/

namespace Rebuild

open Operation

variable {α : Type} {instrs : List Instruction} {i j k : Nat} {front body : Rebuild Unit}
  {inside : State → List (Instruction × State)}

/-- The instruction is visited with a function being declared exactly if it lies in a body. -/
def Placed (instrs : List Instruction) (p : Instruction × State) : Prop :=
  ∃ k, instrs[k]? = some p.1 ∧ p.2.function.isSome = inBody (operationsBefore instrs k) p.1.addr

/-- What is listed from a state of the position is placed. -/
def Lists (instrs : List Instruction) (i : Nat) (f : State → List (Instruction × State)) : Prop :=
  ∀ s, Knows instrs i s → ∀ p ∈ f s, Placed instrs p

namespace Lists

theorem nil : Lists instrs i fun _ => [] :=
  fun _ _ _ h => nomatch h

theorem broken (addr : Addr) : Lists instrs i (visitsAll [.broken addr]) := by
  rw [← List.nil_append [_], visitsAll_broken]
  exact .nil

/-- Lists of visits at one position are joined. -/
theorem append {f g : State → List (Instruction × State)} (hf : Lists instrs i f) (hg : Lists instrs i g) :
    Lists instrs i fun s => f s ++ g s :=
  fun s hs p hp => (List.mem_append.mp hp).elim (hf s hs p) (hg s hs p)

/-- Visits behind a movement are at the position it ends at. -/
theorem behind {x : Rebuild α} (hx : Moves instrs i x j) (hinside : Lists instrs j inside) :
    Lists instrs i (Rebuild.behind x inside) := by
  intro s hs p hp
  obtain ⟨a, t, hxt, hp⟩ := mem_behind.mp hp
  exact hinside t (hx s a t hs hxt) p hp

/-- Visits in a first part are at the position before it. -/
theorem firstPart (hfront : Moves instrs i front j) (hinside : Lists instrs j inside) :
    Lists instrs i (Rebuild.firstPart front inside) :=
  .behind (hfront.bind fun _ => moves_openPart) hinside

/-- Visits in a second part are at the position behind the first. -/
theorem secondPart {stop : Addr} {l : Nat} (hfront : Moves instrs i front j) (hbody : Moves instrs j body k)
    (hopen : Moves instrs k openPart l) (hinside : Lists instrs l inside) :
    Lists instrs i (Rebuild.secondPart front body stop inside) :=
  .behind (hfront.bind fun _ => moves_openPart.bind fun _ => hbody.bind fun _ => (moves_closePart stop).bind
    fun _ => hopen) hinside

/-- The parts of a loop. -/
theorem loop {stop : Addr} {split : Bool} {inside' : State → List (Instruction × State)}
    (hfront : Moves instrs i front j) (hinside : Lists instrs j inside)
    (hsplit : split = true → ∃ k, Moves instrs j body k ∧ Lists instrs k inside') :
    Lists instrs i fun s => Rebuild.firstPart front inside s ++
      if split then Rebuild.secondPart front body stop inside' s else [] := by
  refine (firstPart hfront hinside).append ?_
  cases split with
  | false => exact .nil
  | true =>
      obtain ⟨k, hbody, hinside'⟩ := hsplit rfl
      exact secondPart hfront hbody moves_openPart hinside'

end Lists

end Rebuild

namespace Region

open Rebuild Operation

variable {instrs : List Instruction} {tree : Block}

mutual

/-- **Visits** are placed. -/
theorem Walks.lists (hordered : Ordered instrs tree) {block : Block} {stop : Addr} {i j : Nat}
    {regions : List Region} {used : List Nat} (hblock : block ∈ tree.preorder) :
    Walks instrs block stop i regions used j → Lists instrs i (visitsAll regions)
  | .nothing _ | .halt _ _ => .nil
  | .inner hi _ hchild h hrest => by
      obtain ⟨hmem, hstart⟩ := mem_preorder_child hblock hchild
      exact (h.lists hordered hblock hmem hi hstart).append
        (.behind (h.moves hordered hblock hmem hi hstart) (hrest.lists hordered hblock))
  | .jump hi _ _ hbranch hrest => by
      obtain ⟨hmem, haddr⟩ := mem_of_branchAt? hbranch
      have hnone := hordered.bodyStop?_eq hblock hmem hi haddr.symm
      refine Lists.nil.append (.behind ?_ (hrest.lists hordered hblock))
      rw [run]
      exact (moves_enter hi).bind fun _ => (Moves.still (still_leave _)).skip hordered.increasing hi hnone
  | .plain hi _ _ _ hrest => by
      refine Lists.append (fun s hs p hp => ?_) (.behind ?_ (hrest.lists hordered hblock))
      · obtain ⟨_, t, henter, hp⟩ := mem_behind.mp hp
        obtain rfl := List.mem_singleton.mp hp
        exact ⟨_, hi, hs.isSome_enter hi henter⟩
      · rw [run]
        exact (moves_enter hi).bind fun _ => moves_step hordered.increasing hi

/-- **The visits inside a child are at their own positions.** -/
theorem WalksChild.lists (hordered : Ordered instrs tree) {parent child : Block} {i j : Nat} {region : Region}
    {used : List Nat} {first : Instruction} (hparent : parent ∈ tree.preorder) (hchild : child ∈ tree.preorder)
    (hi : instrs[i]? = some first) (hstart : child.start = first.addr) :
    WalksChild instrs parent child i region used j → Lists instrs i (visits region)
  | .loop _ h => by
      have henter := moves_enter hi
      rw [← hstart] at henter
      exact .loop henter (h.lists_body hordered hchild) (h.lists_step hordered hchild)
  | .guarded hi' _ hjump hloop h => by
      obtain ⟨_, -, hmem, -⟩ := guardedLoop?_eq_some hloop
      have hinner := Block.mem_preorder_trans hchild (Block.mem_preorder_of_mem_children hmem)
      exact .loop (moves_test hordered.increasing hi' hjump) (h.lists_body hordered hinner)
        (h.lists_step hordered hinner)
  | .choice hi' _ hjump _ _ h =>
      .firstPart (moves_test hordered.increasing hi' hjump) (h.lists hordered hchild)
  | .choiceElse hi' _ hjump _ helse h hj haddr halt => by
      have htest := moves_test hordered.increasing hi' hjump
      have hseparator := hordered.bodyStop?_eq hchild (mem_of_alternative? helse).1 hj haddr
      exact (Lists.firstPart htest (h.lists hordered hchild)).append
        (.secondPart htest (h.moves hordered hchild) (moves_openPart.skip hordered.increasing hj hseparator)
          (halt.lists hordered hparent))
  | .noSeparator hi' _ hjump _ _ h _ => by
      have htest := moves_test hordered.increasing hi' hjump
      exact (Lists.firstPart htest (h.lists hordered hchild)).append
        (.secondPart htest (h.moves hordered hchild) moves_openPart (.broken _))
  | .noHead .. => .nil

/-- So are those in the body of a loop. -/
theorem WalksLoop.lists_body (hordered : Ordered instrs tree) {block : Block} {i j : Nat} {parts : LoopRegions}
    {used : List Nat} (hblock : block ∈ tree.preorder) :
    WalksLoop instrs block i parts used j → Lists instrs i (visitsAll parts.body)
  | .whole _ h _ _ _ | .split _ h _ _ _ _ | .wholeNoBack _ h _ | .splitNoBack _ h _ _ => h.lists hordered hblock

/-- And those in its step, behind the body. -/
theorem WalksLoop.lists_step (hordered : Ordered instrs tree) {block : Block} {i j : Nat} {parts : LoopRegions}
    {used : List Nat} (hblock : block ∈ tree.preorder) : WalksLoop instrs block i parts used j →
      parts.split = true → ∃ k, Moves instrs i (runAll parts.body) k ∧ Lists instrs k (visitsAll parts.step)
  | .whole .. | .wholeNoBack .. => nofun
  | .split _ h hstep _ _ _ | .splitNoBack _ h hstep _ => fun _ =>
      ⟨_, h.moves hordered hblock, hstep.lists hordered hblock⟩

end

end Region

namespace Image

open Operation

variable {image : Image} {table : Opcode.Table} {instrs : List Instruction} {tree : Block}

/-- The messages aside, decoding gives the instructions. -/
theorem outcome_decode (image : Image) (table : Opcode.Table) :
    (image.decode table).outcome.1 = image.instructions table := by
  rw [decode]
  cases image.instructions table <;> rfl

/-- The regions of a stream are those that are read, and perhaps a mark of failure. -/
theorem ofStream_of_reads {regions : List Region} {rest : List Instruction}
    (h : Region.Reads tree Addr.last instrs regions rest) :
    Region.ofStream tree instrs = regions ∨
      ∃ addr, Region.ofStream tree instrs = regions ++ [.broken addr] := by
  rw [Region.Reads] at h
  rw [Region.ofStream]
  generalize Region.read tree Addr.last instrs = result at h
  obtain ⟨regions', rest', hle⟩ := result
  obtain ⟨rfl, rfl⟩ := h
  cases rest' with
  | nil => exact .inl rfl
  | cons x rest => exact .inr ⟨x.addr, rfl⟩

/-- What is visited in a stream is placed, also if the stream does not fit the tree. -/
theorem lists_ofStream (hordered : Region.Ordered instrs tree) :
    Rebuild.Lists instrs 0 (Rebuild.visitsAll (Region.ofStream tree instrs)) := by
  obtain ⟨regions, used, j, hwalk⟩ := Region.exists_walks instrs tree Addr.last 0
  have hlists := hwalk.lists hordered (Block.self_mem_preorder tree)
  intro s hs p hp
  rcases ofStream_of_reads (Stream.reads_of_walks hwalk) with heq | ⟨addr, heq⟩
  · rw [heq] at hp
    exact hlists s hs p hp
  · rw [heq, Rebuild.visitsAll_broken] at hp
    exact hlists s hs p hp

/-- The tree of an increasing stream is ordered. -/
theorem ordered_of_analyze (hincreasing : Stream.Increasing instrs)
    (htree : (Stream.analyze instrs).outcome.1 = .ok tree) : Region.Ordered instrs tree where
  increasing := hincreasing
  always b hb branch hbranch ins hins haddr := by
    rw [Stream.outcome_analyze] at htree
    obtain ⟨made, -, -, hcomplete⟩ := Stream.complete_of_blockTree hincreasing htree
    obtain ⟨x, hx, hxaddr, hjump⟩ := hcomplete.mem_branches_iff.mp ⟨b, hb, branch, hbranch, rfl, rfl⟩
    rw [hincreasing.eq_of_addr_eq hins hx (haddr.trans hxaddr.symm)]
    exact ⟨_, hjump⟩

/-- **Function contexts.**  While a stream is rebuilt, each instruction that is run has been decoded, and it is
run inside a function exactly if it was decoded inside one. -/
theorem function_iff_of_visit (hdecode : (image.decode table).outcome.1 = .ok instrs)
    (htree : (Stream.analyze instrs).outcome.1 = .ok tree) (ins : Instruction) (s : Rebuild.State)
    (hvisit : (ins, s) ∈ Rebuild.visitsAll (Region.ofStream tree instrs) {}) :
    (∃ d, Decoder.Reads image table {} 0 image.code d ins) ∧
      ∀ d, Decoder.Reads image table {} 0 image.code d ins → (s.function.isSome ↔ d.functionStop.isSome) := by
  rw [outcome_decode] at hdecode
  obtain ⟨hincreasing, -⟩ := Decoder.increasing_of_instructions hdecode
  have hknows : Rebuild.Knows instrs 0 {} := fun x _ => .nil x.addr
  obtain ⟨k, hk, hfunction⟩ := lists_ofStream (ordered_of_analyze hincreasing htree) {} hknows _ hvisit
  refine ⟨Decoder.exists_reads hdecode (List.mem_of_getElem? hk), fun d hreads => ?_⟩
  obtain ⟨k', hk', hstop⟩ := hreads.inBody hdecode (.nil 0)
  -- both look at the same position, because addresses differ
  obtain rfl : k' = k := hincreasing.index_unique hk' hk rfl
  rw [hfunction, hstop]
  rfl

/-- A function that ends in the middle of the words of its only instruction, and a choice behind it. -/
def shortFunction : Image where
  version := 33
  outer := ⟨⟨[]⟩, []⟩
  inner := ⟨⟨[]⟩, []⟩
  code := [0, 0, 0, 0, 1, 8, 0, 1, 5, 1, 1, 3, 14, 2, 2]
  lineBreaks := []
  patches := [(1, "f")]

/-- A numbering of the opcodes of `shortFunction`. -/
def shortFunctionTable : Opcode.Table :=
  ⟨[.funcDecl, .loadImmedUint, .ret, .jmpIfNot]⟩

/-- The stream of `shortFunction`. -/
def shortFunctionStream : List Instruction :=
  [⟨0, 7, .funcDecl, .declareFunction ⟨"f", none, none, []⟩ true 8⟩, ⟨7, 2, .loadImmedUint, .immediateUint 5⟩,
    ⟨9, 2, .loadImmedUint, .immediateUint 1⟩, ⟨11, 2, .jmpIfNot, .jump .ifNot 14⟩, ⟨13, 1, .ret, .ret false⟩,
    ⟨14, 1, .ret, .ret false⟩]

/-- The block tree of `shortFunction`. -/
def shortFunctionTree : Block :=
  ⟨0, .root, 0, 14, [], none, [⟨1, .conditional, 11, 13, [], none, []⟩]⟩

/-- The instruction in the body of a short function is read and rebuilt within it. -/
theorem function_iff_of_visit_shortFunction :
    (∀ d, Decoder.Reads shortFunction shortFunctionTable {} 0 shortFunction.code d
        ⟨7, 2, .loadImmedUint, .immediateUint 5⟩ → d.functionStop.isSome) ∧
      ∀ d, Decoder.Reads shortFunction shortFunctionTable {} 0 shortFunction.code d
        ⟨13, 1, .ret, .ret false⟩ → ¬ d.functionStop.isSome := by
  have hdecode : (shortFunction.decode shortFunctionTable).outcome.1 = .ok shortFunctionStream := by cbv
  have htree : (Stream.analyze shortFunctionStream).outcome.1 = .ok shortFunctionTree := by cbv
  have hvisits : (Rebuild.visitsAll (Region.ofStream shortFunctionTree shortFunctionStream) {}).map
      (fun p => (p.1, p.2.function.isSome)) =
        [(⟨0, 7, .funcDecl, .declareFunction ⟨"f", none, none, []⟩ true 8⟩, false),
          (⟨7, 2, .loadImmedUint, .immediateUint 5⟩, true), (⟨9, 2, .loadImmedUint, .immediateUint 1⟩, false),
          (⟨13, 1, .ret, .ret false⟩, false), (⟨14, 1, .ret, .ret false⟩, false)] := by cbv
  have hvisit : ∀ ins b,
      (ins, b) ∈ (Rebuild.visitsAll (Region.ofStream shortFunctionTree shortFunctionStream) {}).map
        (fun p => (p.1, p.2.function.isSome)) →
      ∀ d, Decoder.Reads shortFunction shortFunctionTable {} 0 shortFunction.code d ins →
        b = d.functionStop.isSome := by
    rintro _ _ hmem d hd
    obtain ⟨⟨ins, s⟩, hvisited, ⟨⟩⟩ := List.mem_map.mp hmem
    exact Bool.eq_iff_iff.mpr ((function_iff_of_visit hdecode htree ins s hvisited).2 d hd)
  rw [hvisits] at hvisit
  refine ⟨fun d hd => ?_, fun d hd => ?_⟩
  · rw [← hvisit _ true (by simp) d hd]
  · rw [← hvisit _ false (by simp) d hd]
    exact Bool.false_ne_true

end Image

end TorqueScript
