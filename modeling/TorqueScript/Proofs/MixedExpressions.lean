import TorqueScript.Proofs.AheadJumps
import TorqueScript.Proofs.Stages

/-!
# Choices between values and their code

A choice `c ? a : b` is compiled like a choice between statements: a jump over `a` to `b`, and behind `a` a
jump over `b`.  It is also rebuilt like one, with `a` and `b` on stacks of their own, and becomes an expression
when its value is asked for.  Here are the expressions in which choices, `&&`, `||` and other binary operators are
put together in any way (`Node.Mixed`), their code and regions, and the states that it is run between.

A `&&` or `||` is completed when the instruction behind its right operand is entered (`Rebuild.Due`).  If there is no
value on top of the stack by then, nothing can be run any more (`Rebuild.Stuck`).
-/

namespace TorqueScript

namespace BinaryOp

/-- The jump over the right operand of `&&` and `||`. -/
def jump? : BinaryOp → Option JumpKind
  | and => some .ifNotKeep
  | or => some .ifKeep
  | _ => none

/-- The jump of a logical operator is a short circuit, and stands for that operator. -/
theorem shortCircuit_of_jump? {o : BinaryOp} {kind : JumpKind} (h : o.jump? = some kind) :
    kind.isShortCircuit ∧ Node.shortCircuit kind = o := by
  cases o <;> cases h <;> exact ⟨rfl, rfl⟩

end BinaryOp

theorem Constant.isJump_operation (c : Constant) : c.operation.isJump = false := by
  cases c <;> rfl

namespace Node

open Fragment

/-- A `&&` or `||`. -/
def isLogic : Node → Bool
  | binary o _ _ => o.jump?.isSome
  | _ => false

/-- One of the two values of a choice in the expression is a `&&` or `||`. -/
def picksLogic : Node → Bool
  | binary _ left right => picksLogic left || picksLogic right
  | conditional condition thenValue elseValue =>
    picksLogic condition || thenValue.isLogic || picksLogic thenValue || elseValue.isLogic ||
      picksLogic elseValue
  | _ => false

/-- The code of an expression with choices between values. -/
def valueCode : Node → Fragment
  | binary o left right =>
    match o.jump? with
    | some kind => valueCode left ++ (valueCode right).skip kind
    | none => valueCode left ++ valueCode right ++ op (.binary o)
  | conditional condition thenValue elseValue =>
    valueCode condition ++ either (valueCode thenValue) (valueCode elseValue)
  | n => n.code .read

/-- The regions of the code. -/
def valueRegions : Node → Placement → Addr → Nat → List Region
  | binary o left right => fun L exit pos =>
    let mid := pos + left.valueCode.size
    match o.jump? with
    | some kind =>
      valueRegions left L exit pos ++
        .plain (L.instr mid (.jump kind (L.addr (mid + 1 + right.valueCode.size)))) ::
          valueRegions right L exit (mid + 1)
    | none =>
      valueRegions left L exit pos ++ valueRegions right L exit mid ++
        [.plain (L.instr (pos + (left.valueCode.size + right.valueCode.size)) (.binary o))]
  | conditional condition thenValue elseValue => fun L exit pos =>
    let head := pos + condition.valueCode.size
    let gap := head + 1 + thenValue.valueCode.size
    valueRegions condition L exit pos ++
      [.choiceElse (L.instr head (.jump .ifNot (L.addr (gap + 1)))) .ifNot (L.addr gap)
        (valueRegions thenValue L exit (head + 1)) (L.addr gap) (valueRegions elseValue L exit (gap + 1))]
  | n => fun L exit pos => ((n.code .read).code L exit pos).map .plain

/-- An expression of variables, literals, binary operators and choices between values. -/
inductive Mixed : Node → Prop where
  | constant (c : Constant) : Mixed (constant c)
  | var (name : String) : Mixed (var name none)
  | binary (o : BinaryOp) {left right : Node} : Mixed left → Mixed right → Mixed (binary o left right)
  | conditional {condition thenValue elseValue : Node} : Mixed condition → Mixed thenValue →
      Mixed elseValue → Mixed (conditional condition thenValue elseValue)

section Layout

variable {n left right : Node} {o : BinaryOp} {kind : JumpKind}

/-- The code of a logical operation skips the right side. -/
theorem valueCode_logic (h : o.jump? = some kind) :
    (binary o left right).valueCode = left.valueCode ++ right.valueCode.skip kind := by
  rw [valueCode, h]

/-- The code of any other operation comes behind that of both sides. -/
theorem valueCode_plain (h : o.jump? = none) :
    (binary o left right).valueCode = left.valueCode ++ right.valueCode ++ op (.binary o) := by
  rw [valueCode, h]

/-- The regions of a logical operation have the jump between those of the sides. -/
theorem valueRegions_logic (h : o.jump? = some kind) :
    (Node.binary o left right).valueRegions = fun L exit pos => left.valueRegions L exit pos ++
      .plain (L.instr (pos + left.valueCode.size)
        (.jump kind (L.addr (pos + left.valueCode.size + 1 + right.valueCode.size)))) ::
      right.valueRegions L exit (pos + left.valueCode.size + 1) := by
  rw [valueRegions, h]

/-- The regions of any other operation end with it. -/
theorem valueRegions_plain (h : o.jump? = none) :
    (Node.binary o left right).valueRegions = fun L exit pos =>
      left.valueRegions L exit pos ++ right.valueRegions L exit (pos + left.valueCode.size) ++
        [.plain (L.instr (pos + (left.valueCode.size + right.valueCode.size)) (.binary o))] := by
  rw [valueRegions, h]

theorem size_logic (h : o.jump? = some kind) : (binary o left right).valueCode.size =
    left.valueCode.size + 1 + right.valueCode.size := by
  rw [valueCode_logic h, size_append, size_skip, Nat.add_assoc]

theorem size_plain (h : o.jump? = none) : (binary o left right).valueCode.size =
    left.valueCode.size + right.valueCode.size + 1 := by
  rw [valueCode_plain h, size_append, size_append, size_op]

theorem size_conditional (condition thenValue elseValue : Node) :
    (conditional condition thenValue elseValue).valueCode.size =
      condition.valueCode.size + 1 + thenValue.valueCode.size + 1 + elseValue.valueCode.size := by
  rw [valueCode, size_append, size_either]
  omega

/-- An expression has some code. -/
theorem Mixed.size_pos (h : Mixed n) : 0 < n.valueCode.size := by
  induction h with
  | constant c => exact Nat.one_pos
  | var name => exact Nat.two_pos
  | @binary o left right _ _ ihl _ =>
      cases hjump : o.jump? with
      | some kind =>
          rw [size_logic hjump]
          omega
      | none => exact (size_plain hjump).symm ▸ Nat.succ_pos _
  | conditional _ _ _ ihc _ _ =>
      rw [size_conditional]
      omega

/-- All jumps in the code lead ahead. -/
theorem Mixed.ahead (h : Mixed n) : n.valueCode.Ahead := by
  induction h with
  | constant c => exact .op c.isJump_operation
  | var name => exact (Ahead.op rfl).append (.typed fun _ => rfl)
  | @binary o left right _ _ ihl ihr =>
      cases hjump : o.jump? with
      | some kind =>
          rw [valueCode_logic hjump]
          refine ihl.append (ihr.skip ?_)
          rw [JumpKind.makesBlock, (BinaryOp.shortCircuit_of_jump? hjump).1, Bool.not_true, Bool.and_false]
      | none =>
          rw [valueCode_plain hjump]
          exact (ihl.append ihr).append (.op rfl)
  | conditional _ _ he ihc iht ihe =>
      rw [valueCode]
      exact ihc.append (iht.either ihe he.size_pos)

/-- The regions that the code is read as. -/
theorem Mixed.readsAs (h : Mixed n) : n.valueCode.ReadsAs n.valueRegions := by
  induction h with
  | constant c => exact ReadsAs.typed (o := fun _ => c.operation) fun _ => c.isJump_operation
  | var name => exact ReadsAs.append (.typed fun _ => rfl) (.typed fun _ => rfl) (.op rfl)
  | @binary o left right hl hr ihl ihr =>
      cases hjump : o.jump? with
      | some kind =>
          rw [valueCode_logic hjump, valueRegions_logic hjump]
          exact ihl.append (ihr.skip (BinaryOp.shortCircuit_of_jump? hjump).1) hl.ahead
      | none =>
          rw [valueCode_plain hjump, valueRegions_plain hjump]
          exact (ihl.append ihr hl.ahead).append (.typed fun _ => rfl) (hl.ahead.append hr.ahead)
  | conditional hc ht _ ihc iht ihe => exact ihc.append (iht.either ihe ht.ahead) hc.ahead

end Layout

/-! ### Values on the stack -/

/-- What stands on the stack for an expression: a choice is not yet taken for a value. -/
def held : Node → Node
  | conditional condition thenValue elseValue => ifElse condition [held thenValue] [held elseValue]
  | n => n

/-- What the stack holds of an expression is that expression again. -/
theorem Mixed.asExpression_held {n : Node} (h : Mixed n) : n.held.asExpression = .ok n := by
  induction h with
  | constant | var => rfl
  | binary o => cases o <;> rfl
  | conditional _ _ _ _ iht ihe =>
      rw [held, asExpression, iht, ihe]
      rfl

/-- A choice has no value if what its alternative leaves behind is not one value. -/
theorem asExpression_ifElse_ne_ok {condition : Node} {thenBody elseBody : List Node}
    (h : ∀ e, elseBody = [e] → ∀ m, e.asExpression ≠ .ok m) (n : Node) :
    (ifElse condition thenBody elseBody).asExpression ≠ .ok n := by
  intro hn
  unfold asExpression at hn
  split at hn
  · next _ thenValue elseValue heq =>
      cases heq
      cases ht : thenValue.asExpression with
      | error => rw [ht] at hn; cases hn
      | ok t =>
          rw [ht] at hn
          cases he : elseValue.asExpression with
          | error => rw [he] at hn; cases hn
          | ok e => exact h elseValue rfl e he
  · have hstatement : (ifElse condition thenBody elseBody).isStatement = true := rfl
    rw [if_pos hstatement] at hn
    cases hn

end Node

namespace Rebuild

variable {s t u : State} {n : Node} {a b : Addr}

/-- The state in which one more operator waits for its right operand. -/
def State.await (s : State) (p : Pending) : State :=
  { s with pending := p :: s.pending }

/-- A wait for a later address leaves a state quiet before it. -/
theorem Quiet.await {p : Pending} (h : Quiet b s) (hp : b ≤ p.target) : Quiet b (s.await p) :=
  ⟨h.1, List.forall_mem_cons.mpr ⟨hp, h.2⟩⟩

theorem Quiet.push (h : Quiet b s) (n : Node) : Quiet b (s.push n) :=
  ⟨h.1, h.2⟩

/-! ### States that nothing is run from -/

/-- A `&&` or `||` is to be completed at `b`, where its right operand ends. -/
structure Due (b : Addr) (s : State) : Prop where
  function : s.function = none
  pending : ∃ p ps, s.pending = p :: ps ∧ p.target ≤ b

/-- A `&&` or `||` is to be completed, and there is no value on top of the stack. -/
structure Stuck (b : Addr) (s : State) : Prop extends Due b s where
  top : ∀ n, s.operands.head? = some (.node n) → ∀ m, n.asExpression ≠ .ok m

/-- Nothing is popped where what stands on top is no expression. -/
theorem pop_ne_ok {ins : Instruction} (h : ∀ n, s.operands.head? = some (.node n) → ∀ m, n.asExpression ≠ .ok m)
    (r : Node × State) : pop ins s ≠ .ok r := by
  intro hr
  obtain ⟨operand, t, hpop, hvalue⟩ := bind_eq_ok hr
  cases hs : s.operands with
  | nil =>
      simp only [popOperand, hs] at hpop
      cases hpop
  | cons o os =>
      simp only [popOperand, hs] at hpop
      cases hpop
      cases operand with
      | accumulator => cases hvalue
      | node n =>
          cases hn : n.asExpression with
          | error =>
              simp only [hn] at hvalue
              cases hvalue
          | ok m => exact h n (by rw [hs]; rfl) m hn

/-- A stuck state can not enter the address it is stuck at. -/
theorem Stuck.enter_ne_ok (h : Stuck b s) (hab : b ≤ a) (r : Unit × State) : enter a s ≠ .ok r := by
  intro hr
  obtain ⟨p, ps, hpending, htarget⟩ := h.pending
  have hfold : foldPending a s.pending s = .ok r := (enter_eq_foldLogic h.function).symm.trans hr
  rw [hpending, foldPending, if_pos (htarget.trans hab)] at hfold
  obtain ⟨_, t, hmodify, hfold⟩ := bind_eq_ok hfold
  cases hmodify
  obtain ⟨right, t, hpop, -⟩ := bind_eq_ok hfold
  exact pop_ne_ok (s := { s with pending := ps }) h.top _ hpop

/-- No region that begins at `b` or behind it is run. -/
theorem Stuck.runAll_ne_ok {region : Region} {x : Rebuild Unit} (h : Stuck b s) (hab : b ≤ a)
    (hregion : run region = (do enter a; x)) (regions : List Region) (r : Unit × State) :
    runAll (region :: regions) s ≠ .ok r := by
  intro hr
  rw [runAll_cons, hregion] at hr
  obtain ⟨_, t, hrun, -⟩ := bind_eq_ok hr
  obtain ⟨_, t, henter, -⟩ := bind_eq_ok hrun
  exact h.enter_ne_ok hab _ henter

/-- A run over two lists goes over the first to some state and from there over the second. -/
theorem runAll_append_eq_ok {rs rs' : List Region} (h : runAll (rs ++ rs') s = .ok ((), t)) :
    ∃ u, runAll rs s = .ok ((), u) ∧ runAll rs' u = .ok ((), t) := by
  induction rs generalizing s with
  | nil => exact ⟨s, rfl, h⟩
  | cons r rs ih =>
      rw [List.cons_append, runAll_cons] at h
      obtain ⟨⟨⟩, v, hr, hrest⟩ := bind_eq_ok h
      obtain ⟨u, hrs, hrs'⟩ := ih hrest
      refine ⟨u, ?_, hrs'⟩
      rw [runAll_cons, bind_ok hr, hrs]

/-- The state at the beginning of a part. -/
def State.inner (s : State) : State :=
  { s with operands := [], saved := s.operands :: s.saved }

theorem Quiet.inner (h : Quiet b s) : Quiet b s.inner :=
  ⟨h.1, h.2⟩

/-- A part that leaves one node behind. -/
theorem bind_valuePart {α : Type} {rs : List Region} (h : runAll rs s.inner = .ok ((), s.inner.push n))
    (a : Addr) (k : List Node → Rebuild α) :
    (do openPart; runAll rs; let body ← closePart a; k body) s = k [n] s := by
  rw [bind_ok (a := ()) (t := s.inner) rfl, bind_ok h]
  rfl

end Rebuild

end TorqueScript
