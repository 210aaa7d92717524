import TorqueScript.Node.Shape
import TorqueScript.Proofs.Fragment

/-!
# Straight-line code

The code of an expression evaluates its operands from left to right and leaves one value behind.  A
variable or a field is selected first and then read, or written if it is the target of an assignment;
`&&` and `||` jump over their right operand.

`Node.Normal` are the expressions in the form in which code can be told apart: a comparison of strings
is never negated, since the opposite comparison has the same code, and what can be written as a
compound assignment is.  `Node.Simple` adds the returns.

The only jumps in such code are those of `&&` and `||`, and they lead no further than to the
instruction behind it (`Node.Simple.straight`).
-/

namespace TorqueScript

namespace Join

/-- The operation that makes the left half of a concatenation. -/
def operation : Join → Operation
  | plain => .advanceStr
  | space => .advanceStrAppend ' '
  | tab => .advanceStrAppend '\t'
  | newLine => .advanceStrAppend '\n'

end Join

namespace Constant

/-- The operation that loads a literal. -/
def operation : Constant → Operation
  | uint v => .immediateUint v
  | float x => .immediateFloat x
  | str s => .immediateStr s
  | ident s => .immediateIdent s
  | tagged s => .immediateTag s

end Constant

/-- What is done with a variable or a field that has been selected. -/
inductive Access where
  | read
  | write
  deriving DecidableEq, Repr

namespace Access

/-- A variable is created when it is written. -/
def creates : Access → Bool
  | read => false
  | write => true

/-- Reads or writes the selected variable. -/
def var : Access → Fragment
  | read => .typed .loadVar
  | write => .typed .saveVar

/-- Reads or writes the selected field. -/
def field : Access → Fragment
  | read => .typed .loadField
  | write => .typed .saveField

end Access

namespace Node

open Fragment

mutual

/-- The code of an expression. -/
def code (access : Access) : Node → Fragment
  | constant c => op c.operation
  | var name none => op (.selectVar name access.creates) ++ access.var
  | var name (some index) =>
    op (.immediateIdent name) ++ op .advanceStr ++ code .read index ++ op .rewindStr ++
      op (.selectVarArray access.creates) ++ access.var
  | field (some owner) name none =>
    code .read owner ++ op .selectObject ++ op (.selectField name) ++ access.field
  | field (some owner) name (some index) =>
    code .read index ++ op .advanceStr ++
      (code .read owner ++ op .selectObject ++ op (.selectField name)) ++
      op .terminateRewindStr ++ op .selectFieldArray ++ access.field
  | unary o operand => code .read operand ++ op (.unary o)
  | binary .and left right => code .read left ++ (code .read right).skip .ifNotKeep
  | binary .or left right => code .read left ++ (code .read right).skip .ifKeep
  | binary o left right => code .read left ++ code .read right ++ op (.binary o)
  | compare .equal left right =>
    code .read left ++ op .advanceStrNul ++ code .read right ++ op .compareStr
  | compare .notEqual left right =>
    code .read left ++ op .advanceStrNul ++ code .read right ++ op .compareStr ++ op (.unary .not)
  | concat join left right =>
    code .read left ++ op join.operation ++ code .read right ++ op .rewindStr
  | comma left right =>
    code .read left ++ op .advanceStrComma ++ code .read right ++ op .rewindStr
  | call name nameSpace callType args =>
    op .pushFrame ++ argumentCode args ++ op (.call name nameSpace callType false)
  | assign target none value => code .read value ++ code .write target
  | assign target (some o) value =>
    code .read target ++ code .read value ++ op (.binary o) ++ code .write target
  | _ => empty

/-- The code of the arguments of a call. -/
def argumentCode : List Node → Fragment
  | [] => empty
  | n :: ns => code .read n ++ op .push ++ argumentCode ns

end

/-- The code of a return or of an expression whose value is dropped. -/
def simpleCode : Node → Fragment
  | ret none => op (.ret false)
  | ret (some value) => value.code .read ++ op (.ret true)
  | n => n.code .read ++ typed fun type => .convert type none

/-! ### Normal forms -/

/-- Variables and fields, which can be assigned to. -/
def isPlace : Node → Bool
  | var .. | field .. => true
  | _ => false

/-- An expression in normal form. -/
inductive Normal : Node → Prop where
  | constant (c : Constant) : Normal (constant c)
  | var (name : String) : Normal (var name none)
  | element (name : String) {index : Node} : Normal index → Normal (var name (some index))
  | field (name : String) {owner : Node} : Normal owner → Normal (field (some owner) name none)
  | fieldElement (name : String) {owner index : Node} :
      Normal owner → Normal index → Normal (field (some owner) name (some index))
  | unary (o : UnaryOp) {operand : Node} : Normal operand →
      (o = .not → ∀ c l r, operand ≠ compare c l r) → Normal (unary o operand)
  | binary (o : BinaryOp) {left right : Node} : Normal left → Normal right → Normal (binary o left right)
  | compare (o : StringOp) {left right : Node} :
      Normal left → Normal right → Normal (compare o left right)
  | concat (join : Join) {left right : Node} :
      Normal left → Normal right → Normal (concat join left right)
  | comma {left right : Node} : Normal left → Normal right → Normal (comma left right)
  | call (name : String) (nameSpace : Option String) (callType : CallType) {args : List Node} :
      (∀ a ∈ args, Normal a) → Normal (call name nameSpace callType args)
  | assign {target value : Node} : target.isPlace → Normal target → Normal value →
      (assign target none value).compound? = none → Normal (assign target none value)
  | compound {target value : Node} (o : BinaryOp) : target.isPlace → Normal target → Normal value →
      o.isCompound → Normal (assign target (some o) value)

/-- A statement without parts: a return, or an expression whose value is dropped. -/
inductive Simple : Node → Prop where
  | expression {n : Node} : Normal n → Simple n
  | ret : Simple (ret none)
  | retValue {value : Node} : Normal value → Simple (ret (some value))

theorem Normal.isStatement_eq {n : Node} (h : Normal n) : n.isStatement = false := by
  cases h with
  | binary o _ _ => cases o <;> rfl
  | call _ _ callType _ => cases callType <;> rfl
  | _ => rfl

end Node

/-! ### Jumps in straight-line code -/

/-- The operation is a jump. -/
def Operation.isJump : Operation → Bool
  | .jump .. => true
  | _ => false

namespace Fragment

/-- The only jumps in the code are those of `&&` and `||`, and they lead less than `room` positions
past its last instruction. -/
def Straight (room : Nat) (f : Fragment) : Prop :=
  ∀ L exit pos, ∀ ins ∈ f.code L exit pos, ∀ kind target, ins.jump? = some (kind, target) →
    kind.isShortCircuit ∧ ∃ i < pos + f.size + room, target = L.addr i

theorem Straight.empty {room : Nat} : empty.Straight room := by
  intro L exit pos ins h
  simp at h

theorem Straight.typed {room : Nat} {o : ValueType → Operation} (ho : ∀ type, (o type).isJump = false) :
    (typed o).Straight room := by
  intro L exit pos ins h kind target hj
  obtain rfl := List.mem_singleton.mp h
  have := ho (L.type pos)
  unfold Instruction.jump? at hj
  split at hj
  · next e => rw [Placement.operation_instr] at e; rw [e] at this; cases this
  · cases hj

theorem Straight.op {room : Nat} {o : Operation} (ho : o.isJump = false) : (op o).Straight room :=
  .typed fun _ => ho

/-- What lies behind code is room for its jumps. -/
theorem Straight.append {room inner : Nat} {f g : Fragment} (hf : f.Straight inner)
    (hg : g.Straight room) (hroom : inner ≤ g.size + room) : (f ++ g).Straight room := by
  intro L exit pos ins h kind target hj
  rcases List.mem_append.mp h with h | h
  · obtain ⟨hk, i, hi, rfl⟩ := hf L exit pos ins h kind target hj
    exact ⟨hk, i, by simp; omega, rfl⟩
  · obtain ⟨hk, i, hi, rfl⟩ := hg L exit _ ins h kind target hj
    exact ⟨hk, i, by simp; omega, rfl⟩

theorem Straight.skip {kind : JumpKind} {f : Fragment} (hk : kind.isShortCircuit)
    (hf : f.Straight 1) : (f.skip kind).Straight 1 := by
  intro L exit pos ins h kind' target hj
  rcases List.mem_cons.mp h with rfl | h
  · cases hj
    exact ⟨hk, pos + 1 + f.size, by simp; omega, rfl⟩
  · obtain ⟨hk', i, hi, rfl⟩ := hf L exit _ ins h kind' target hj
    exact ⟨hk', i, by simp; omega, rfl⟩

/-- With room for one instruction nothing is asked of the code behind. -/
theorem Straight.join {f g : Fragment} (hf : f.Straight 1) (hg : g.Straight 1) :
    (f ++ g).Straight 1 :=
  hf.append hg (Nat.le_add_left 1 g.size)

end Fragment

namespace Node

open Fragment

theorem Normal.size_pos {n : Node} (h : Normal n) (access : Access) : 0 < (n.code access).size := by
  induction h generalizing access with
  | binary o _ _ => cases o <;> exact Nat.pos_of_ne_zero (by simp [code])
  | compare o _ _ => cases o <;> simp [code]
  | assign _ _ _ _ _ ihv =>
      have := ihv .read
      simp only [code, size_append]
      omega
  | _ => exact Nat.pos_of_ne_zero (by simp [code])

theorem Straight.access (access : Access) : access.var.Straight 1 ∧ access.field.Straight 1 := by
  cases access
  · exact ⟨.typed fun _ => rfl, .typed fun _ => rfl⟩
  · exact ⟨.typed fun _ => rfl, .typed fun _ => rfl⟩

theorem Straight.argumentCode {args : List Node} (h : ∀ a ∈ args, (a.code .read).Straight 1) :
    (argumentCode args).Straight 1 := by
  induction args with
  | nil => exact .empty
  | cons a args ih =>
      obtain ⟨ha, hargs⟩ := List.forall_mem_cons.mp h
      exact (ha.join (.op rfl)).join (ih hargs)

/-- The jumps in the code of an expression lead at most to the instruction behind it. -/
theorem Normal.straight {n : Node} (h : Normal n) (access : Access) : (n.code access).Straight 1 := by
  have hvar := fun access => (Straight.access access).1
  have hfield := fun access => (Straight.access access).2
  have hop : ∀ {o : Operation}, o.isJump = false → (op o).Straight 1 := .op
  induction h generalizing access with
  | constant c => cases c <;> exact .op rfl
  | binary o _ _ ihl ihr =>
    cases o <;> simp only [code] <;> apply_rules [Straight.join, Straight.skip]
  | compare o _ _ ihl ihr => cases o <;> simp only [code] <;> apply_rules [Straight.join]
  | concat join _ _ ihl ihr => cases join <;> simp only [code] <;> apply_rules [Straight.join]
  | call name nameSpace callType _ ih =>
    simp only [code]
    have := Straight.argumentCode fun a ha => ih a ha .read
    apply_rules [Straight.join]
  | _ => simp only [code]; apply_rules [Straight.join]

/-- The jumps in the code of a statement without parts stay inside it. -/
theorem Simple.straight {n : Node} (h : Simple n) : n.simpleCode.Straight 0 := by
  cases h with
  | ret => exact .op rfl
  | retValue hv => exact (hv.straight .read).append (.op rfl) (Nat.le_refl 1)
  | expression hn =>
    have hconvert : (typed fun type => .convert type none).Straight 0 := .typed fun _ => rfl
    have := (hn.straight .read).append hconvert (Nat.le_refl 1)
    cases hn <;> exact this

theorem Simple.size_pos {n : Node} (h : Simple n) : 0 < n.simpleCode.size := by
  cases h with
  | ret => exact Nat.one_pos
  | retValue _ => simp [simpleCode]
  | expression hn => cases hn <;> simp [simpleCode]

end Node

end TorqueScript
