import TorqueScript.Proofs.Objects

/-!
# Calls are neither lost nor repeated

A call may do anything, so none may vanish from a rebuilt script and none may be written twice.  Here the calls
in the state of rebuilding are counted: those on the current stack and on the stacks around it, left halves of
string operations included, and those in the argument frames (`Rebuild.State.calls`).

An instruction takes nodes out of the state and puts a node made of them back.  In between, what it has taken
out is held, and calls in the state and calls held are as many together as there were calls in the state before
(`Rebuild.Weighs`).  A call adds one.  An assignment may leave out a part of its value, the one that a compound
form does not repeat, and is not looked at here.

**Conservation of calls** (`Rebuild.calls_step`).  The number of calls changes by the call that is made, and by
the calls in the list that the instruction replaces (`Rebuild.overwritten`).  Such a list is replaced when an
object gets its fields or the objects inside it.  It is empty the first time.  But an object can be added or
ended once more, and then what it had is gone (`Rebuild.call_lost_addedTwice`).
-/

namespace TorqueScript

namespace Node

variable {n l r : Node}

/-! ### Calls in a tree -/

/-- A call of a function. -/
def isCall : Node → Bool
  | call .. => true
  | _ => false

/-- The number of calls in the node. -/
def calls (n : Node) : Nat :=
  n.subnodes.countP isCall

/-- The number of calls in nodes. -/
def listCalls (ns : List Node) : Nat :=
  (ns.map calls).sum

@[simp] theorem listCalls_nil : listCalls [] = 0 := rfl

@[simp] theorem listCalls_cons (n : Node) (ns : List Node) : listCalls (n :: ns) = n.calls + listCalls ns := by
  simp [listCalls]

@[simp] theorem listCalls_append (ns ms : List Node) : listCalls (ns ++ ms) = listCalls ns + listCalls ms := by
  simp [listCalls]

@[simp] theorem listCalls_reverse (ns : List Node) : listCalls ns.reverse = listCalls ns := by
  simp [listCalls, List.sum_reverse]

/-- The calls of a node are those of its children and, for a call, one more. -/
theorem calls_eq (n : Node) : n.calls = listCalls n.children + if n.isCall then 1 else 0 := by
  rw [calls, subnodes_eq, List.countP_cons, List.countP_flatMap]
  rfl

/-- What is no call itself has the calls of the nodes below it. -/
theorem calls_of_children (hn : n.isCall = false) : n.calls = listCalls n.children := by
  rw [calls_eq, hn]
  rfl

/-- A node with two children has the calls of both. -/
theorem calls_pair (hn : n.isCall = false) (hchildren : n.children = [l, r]) : n.calls = l.calls + r.calls := by
  rw [calls_of_children hn, hchildren]
  simp

/-- Negation keeps the calls. -/
theorem calls_negate (n : Node) : n.negate.calls = n.calls := by
  unfold negate
  split
  · rw [calls_of_children (n := unary ..) rfl]
    simp [children]
  · rw [calls_pair (n := compare ..) rfl rfl, calls_pair (n := compare ..) rfl rfl]
  · rw [calls_of_children (n := unary ..) rfl]
    simp [children]

/-- A choice between values has the calls that its parts have. -/
theorem calls_asExpression {m : Node} (h : n.asExpression = .ok m) : m.calls = n.calls := by
  refine asExpression_induction (P := fun n m => m.calls = n.calls) h (fun c t e t' e' iht ihe => ?_) fun _ _ => rfl
  rw [calls_of_children (n := conditional ..) rfl, calls_of_children (n := ifElse ..) rfl]
  simp [children, iht, ihe]

end Node

namespace Rebuild

open Node (listCalls)

variable {α β : Type} {total held : Nat} {ins : Instruction} {s t : State}

/-! ### Calls in the state -/

/-- The number of calls in an operand. -/
def Operand.calls : Operand → Nat
  | .node n => n.calls
  | .accumulator left _ => left.calls

/-- The number of calls on a stack. -/
def stackCalls (os : List Operand) : Nat :=
  (os.map Operand.calls).sum

/-- The number of calls in the state. -/
def State.calls (s : State) : Nat :=
  stackCalls s.operands + (s.saved.map stackCalls).sum + (s.frames.map listCalls).sum

@[simp] theorem stackCalls_cons (o : Operand) (os : List Operand) :
    stackCalls (o :: os) = o.calls + stackCalls os := by
  simp [stackCalls]

@[simp] theorem stackCalls_reverse (os : List Operand) : stackCalls os.reverse = stackCalls os := by
  simp [stackCalls, List.sum_reverse]

/-- Cutting the stack in two loses no call. -/
theorem stackCalls_takeWhile_add_dropWhile (p : Operand → Bool) (os : List Operand) :
    stackCalls (os.takeWhile p) + stackCalls (os.dropWhile p) = stackCalls os := by
  rw [stackCalls, stackCalls, ← List.sum_append, ← List.map_append, List.takeWhile_append_dropWhile, stackCalls]

/-- From a state with `total` calls, `held` calls included that are in no state any more, the computation gets
to a state with as many, those of its result included. -/
def Weighs (total held : Nat) (x : Rebuild α) (out : α → Nat) : Prop :=
  ∀ s a t, s.calls + held = total → x s = .ok (a, t) → t.calls + out a = total

namespace Weighs

/-- **Weighing passes through sequences**: what the first part holds is what the second starts with. -/
theorem bind {x : Rebuild α} {f : α → Rebuild β} {between : α → Nat} {out : β → Nat}
    (hx : Weighs total held x between) (hf : ∀ a, Weighs total (between a) (f a) out) :
    Weighs total held (x >>= f) out := by
  intro s b u hs h
  obtain ⟨a, t, hxa, hfa⟩ := bind_eq_ok h
  exact hf a t b u (hx s a t hs hxa) hfa

theorem pure {out : α → Nat} {a : α} (h : out a = held) : Weighs total held (Pure.pure a : Rebuild α) out := by
  rintro s _ _ hs ⟨⟩
  rw [h]
  exact hs

theorem throw {out : α → Nat} (e : Error) : Weighs total held (throwThe Error e : Rebuild α) out :=
  nofun

/-- A computation that looks at its state first. -/
theorem look {f : State → Rebuild α} {out : α → Nat}
    (h : ∀ s, s.calls + held = total → Weighs total held (f s) out) :
    Weighs total held (MonadState.get >>= f) out := by
  intro s a t hs hf
  obtain ⟨_, _, ⟨⟩, hf⟩ := bind_eq_ok hf
  exact h s hs s a t hs hf

theorem set {t : State} {k : Nat} (h : t.calls + k = total) :
    Weighs total held (MonadState.set t : Rebuild PUnit) fun _ => k := by
  rintro s _ _ - ⟨⟩
  exact h

/-- A change of the state weighs what it takes out of the state or puts into it. -/
theorem update {f : State → State} {k : Nat} (h : ∀ s : State, (f s).calls + k = s.calls + held) :
    Weighs total held (modify f : Rebuild PUnit) fun _ => k := by
  rintro s _ _ hs ⟨⟩
  exact (h s).trans hs

end Weighs

/-! ### Operands and frames -/

/-- An operand put on the stack is no longer held. -/
theorem weighs_pushOperand {o : Operand} {k : Nat} (h : k + o.calls = held) :
    Weighs total held (pushOperand o) fun _ => k :=
  .update fun s => by
    simp only [State.calls, stackCalls_cons]
    omega

/-- Pushing a node gives up the calls held in it. -/
theorem weighs_push {n : Node} {k : Nat} (h : k + n.calls = held) :
    Weighs total held (push n) fun _ => k :=
  weighs_pushOperand h

theorem weighs_popOperand : Weighs total held (popOperand ins) fun o => held + o.calls := by
  intro s o t hs h
  obtain ⟨os, hos, rfl⟩ := popOperand_eq_ok h
  simp only [State.calls, hos, stackCalls_cons] at hs ⊢
  omega

/-- Popping an expression takes its calls in hand. -/
theorem weighs_pop : Weighs total held (pop ins) fun n => held + n.calls := by
  refine .bind weighs_popOperand fun o => ?_
  cases o with
  | node n =>
      dsimp only
      split
      · next m hm => exact .pure (congrArg (held + ·) (Node.calls_asExpression hm))
      · exact .throw _
  | accumulator => exact .throw _

/-- Popping an accumulation takes the calls of its left text. -/
theorem weighs_popAccumulator : Weighs total held (popAccumulator ins) fun p => held + p.1.calls := by
  refine .bind weighs_popOperand fun o => ?_
  cases o with
  | node n => exact .throw _
  | accumulator left kind => exact .pure rfl

/-- Popping a frame takes the calls of its arguments. -/
theorem weighs_popFrame : Weighs total held (popFrame ins) fun ns => held + listCalls ns := by
  intro s ns t hs h
  obtain ⟨frame, frames, hframes, rfl, rfl⟩ := popFrame_eq_ok h
  simp only [State.calls, hframes, List.map_cons, List.sum_cons, Node.listCalls_reverse] at hs ⊢
  omega

/-- An argument goes from the stack into a frame. -/
theorem weighs_pushArgument : Weighs total 0 (pushArgument ins) fun _ => 0 := by
  refine .bind weighs_pop fun value => .look fun s hs => ?_
  split
  · next frame frames hframes =>
      refine .set ?_
      simp only [State.calls, hframes, List.map_cons, List.sum_cons, Node.listCalls_cons] at hs ⊢
      omega
  · exact .throw _

/-- Opening a part moves calls within the state. -/
theorem weighs_openPart : Weighs total held openPart fun _ => held :=
  .update fun s => by
    simp only [State.calls, stackCalls, List.map_nil, List.sum_nil, List.map_cons, List.sum_cons]
    omega

/-! ### Instructions -/

theorem weighs_advance (kind : Accumulation) : Weighs total 0 (advance ins kind) fun _ => 0 :=
  .bind weighs_pop fun _ => weighs_pushOperand rfl

/-- Rewinding joins two texts and keeps their calls. -/
theorem weighs_rewind : Weighs total 0 (rewind ins) fun _ => 0 := by
  refine .bind weighs_pop fun right => .bind weighs_popAccumulator fun p => ?_
  obtain ⟨left, kind⟩ := p
  dsimp only
  cases kind with
  | join j =>
      refine weighs_push ?_
      rw [Node.calls_pair rfl rfl]
      omega
  | comma =>
      refine weighs_push ?_
      rw [Node.calls_pair rfl rfl]
      omega
  | compare => exact .throw _

theorem weighs_compareStrings : Weighs total 0 (compareStrings ins) fun _ => 0 := by
  refine .bind weighs_pop fun right => .bind weighs_popAccumulator fun p => ?_
  obtain ⟨left, kind⟩ := p
  dsimp only
  split
  · refine weighs_push ?_
    rw [Node.calls_pair rfl rfl]
    omega
  · exact .throw _

/-- Ending the accumulation keeps both texts. -/
theorem weighs_terminate : Weighs total 0 (terminate ins) fun _ => 0 := by
  refine .bind weighs_popOperand fun o => ?_
  cases o with
  | accumulator left kind => exact weighs_push rfl
  | node top =>
      refine .bind weighs_popAccumulator fun p => .bind (weighs_push (k := p.1.calls) ?_) fun _ => ?_
      · simp only [Operand.calls]
        omega
      · exact weighs_push (Nat.zero_add _)

/-- The calls of an element of an array are those of its index. -/
theorem calls_indexed (name : String) (index : Node) : (Node.var name (some index)).calls = index.calls := by
  rw [Node.calls_of_children rfl]
  simp [Node.children]

/-- A name has no calls, and no more has a variable without an index. -/
theorem weighs_indexVariable : Weighs total 0 (indexVariable ins) fun _ => 0 := by
  have hname : ∀ c : Constant, (Node.constant c).calls = 0 := fun _ => rfl
  refine .bind weighs_pop fun n => ?_
  split
  · refine weighs_push ?_
    rw [calls_indexed, Node.calls_pair (n := .concat ..) rfl rfl, hname]
    omega
  · refine weighs_push ?_
    rw [calls_indexed, Node.calls_pair (n := .concat ..) rfl rfl, hname]
    omega
  · refine .bind weighs_pop fun v => ?_
    split
    · refine weighs_push ?_
      rw [calls_indexed, Node.calls_of_children (n := .var ..) rfl]
      simp [Node.children]
    · exact .throw _

theorem weighs_selectField (name : String) : Weighs total 0 (selectField ins name) fun _ => 0 := by
  refine .look fun s hs => .bind (.set (k := 0) hs) fun _ => ?_
  have hbare : (Node.field none name none).calls = 0 := Node.calls_of_children rfl
  split
  · refine .bind weighs_pop fun owner => weighs_push ?_
    rw [Node.calls_of_children (n := .field ..) rfl]
    simp [Node.children]
  · exact weighs_push (by rw [hbare])
  · exact weighs_push (by rw [hbare])

theorem weighs_indexField : Weighs total 0 (indexField ins) fun _ => 0 := by
  refine .bind weighs_pop fun index => .bind weighs_pop fun n => ?_
  split
  · refine weighs_push ?_
    rw [Node.calls_of_children (n := .field ..) rfl, Node.calls_of_children (n := .field ..) rfl]
    simp only [Node.children, Option.toList_some, Option.toList_none, List.append_nil, Node.listCalls_append,
      Node.listCalls_cons, Node.listCalls_nil]
    omega
  · exact .throw _

/-- A name that counts as none is the empty text. -/
theorem listCalls_objectName? (name : Option Node) :
    listCalls (objectName? name).toList = listCalls name.toList := by
  unfold objectName?
  split <;> rfl

/-- A new object holds the calls of its arguments. -/
theorem weighs_createObject (parent : Option String) (isDatablock : Bool) :
    Weighs total 0 (createObject ins parent isDatablock) fun _ => 0 := by
  refine .bind weighs_popFrame fun args => ?_
  split
  · exact .throw _
  · next className rest =>
      refine .look fun s hs => .bind (weighs_push (k := 0) ?_) fun _ => .update fun _ => rfl
      rw [Node.calls_of_children (n := .object ..) rfl]
      simp only [Node.children, Node.listCalls_append, Node.listCalls_cons, Node.listCalls_nil,
        listCalls_objectName?]
      cases rest <;> simp [Nat.add_assoc]

/-- A declared function holds no calls yet. -/
theorem weighs_declareFunction (signature : Signature) (hasBody : Bool) (stop : Addr) :
    Weighs total 0 (declareFunction ins signature hasBody stop) fun _ => 0 := by
  refine .look fun s hs => ?_
  split
  · exact .throw _
  · split
    · exact .bind (.set (k := 0) hs) fun _ => weighs_openPart
    · refine weighs_push ?_
      rw [Node.calls_of_children (n := .function ..) rfl]
      rfl

/-- A unary operation has the calls of its operand. -/
theorem calls_unaryNode (op : UnaryOp) (operand : Node) : (unaryNode op operand).calls = operand.calls := by
  unfold unaryNode
  split
  · exact Node.calls_negate _
  · rw [Node.calls_of_children (n := .unary ..) rfl]
    simp [Node.children]

/-! ### Objects -/

/-- Taking nodes off the stack loses none of their calls. -/
theorem weighs_popWhile {p : Operand → Bool} (hp : ∀ o, p o = true → ∃ n, o = .node n) :
    Weighs total held (popWhile p) fun os => held + listCalls (nodes os) := by
  have hnodes : ∀ os : List Operand, (∀ o ∈ os, ∃ n, o = .node n) → listCalls (nodes os) = stackCalls os := by
    intro os hos
    induction os with
    | nil => rfl
    | cons o os ih =>
        obtain ⟨⟨n, rfl⟩, hrest⟩ := List.forall_mem_cons.mp hos
        show listCalls (n :: nodes os) = _
        rw [Node.listCalls_cons, stackCalls_cons, ih hrest]
        rfl
  refine .look fun s hs => .bind (.set (k := held + stackCalls (s.operands.takeWhile p)) ?_) fun _ => .pure ?_
  · have hsum := stackCalls_takeWhile_add_dropWhile p s.operands
    simp only [State.calls] at hs ⊢
    omega
  · rw [hnodes, stackCalls_reverse]
    intro o ho
    exact hp o (List.mem_takeWhile_imp (List.mem_reverse.mp ho))

/-- An operand that is a field of the object is a node. -/
theorem exists_node_of_isOwnField {o : Operand} (h : isOwnField o = true) : ∃ n, o = .node n := by
  unfold isOwnField at h
  split at h
  · exact ⟨_, rfl⟩
  · cases h

/-- An operand that is an object of the depth is a node. -/
theorem exists_node_of_isObjectAt {depth : Nat} {o : Operand} (h : isObjectAt depth o = true) :
    ∃ n, o = .node n := by
  unfold isObjectAt at h
  split at h
  · exact ⟨_, rfl⟩
  · cases h

/-- A zero has no calls. -/
theorem weighs_popPlaceholder : Weighs total held (popPlaceholder ins) fun _ => held := by
  refine .bind weighs_pop fun n => ?_
  split
  · split
    · exact .pure rfl
    · exact .throw _
  · exact .throw _

/-- The fields of an object. -/
def objectFields : Node → List Node
  | .object _ _ _ _ _ fields _ _ => fields
  | _ => []

/-- The objects inside an object. -/
def objectChildren : Node → List Node
  | .object _ _ _ _ _ _ children _ => children
  | _ => []

/-- A list of the node on top of a stack. -/
def listOnTop (list : Node → List Node) : List Operand → List Node
  | .node n :: _ => list n
  | _ => []

/-- The list that an operation replaces: fields, or objects, of the object that is added or ended.  It lies on
the stack below what is put into it. -/
def overwritten (s : State) : Operation → List Node
  | .addObject _ => listOnTop objectFields (s.operands.dropWhile isOwnField)
  | .endObject _ => listOnTop objectChildren (s.operands.dropWhile (isObjectAt s.objectDepth))
  | _ => []

/-- The fields that an object gets take the place of those it had. -/
theorem calls_withFields (fields : List Node) {n : Node} {depth : Nat} (h : isObjectAt depth (.node n) = true) :
    (withFields fields n).calls + listCalls (objectFields n) = n.calls + listCalls fields := by
  cases n with
  | object className name parent isDatablock args old children depth =>
      rw [withFields, objectFields, Node.calls_of_children (n := .object ..) rfl,
        Node.calls_of_children (n := .object ..) rfl]
      simp only [Node.children, Node.listCalls_append]
      omega
  | _ => cases h

/-- The children that an object gets take the place of those it had. -/
theorem calls_withChildren (inner : List Node) {n : Node} {depth : Nat} (h : isObjectAt depth (.node n) = true) :
    (withChildren inner n).calls + listCalls (objectChildren n) = n.calls + listCalls inner := by
  cases n with
  | object className name parent isDatablock args fields old depth =>
      rw [withChildren, objectChildren, Node.calls_of_children (n := .object ..) rfl,
        Node.calls_of_children (n := .object ..) rfl]
      simp only [Node.children, Node.listCalls_append]
      omega
  | _ => cases h

/-- An object is taken for a value only as itself. -/
theorem eq_of_asExpression_object {n m : Node} {depth : Nat} (hm : isObjectAt depth (.node m) = true)
    (h : n.asExpression = .ok m) : n = m :=
  Node.asExpression_induction (P := fun n m => isObjectAt depth (.node m) = true → n = m) h
    (fun _ _ _ _ _ _ _ hm => nomatch hm) (fun _ _ _ => rfl) hm

/-- What is popped stood on top of the stack as a node. -/
theorem pop_eq_ok {n : Node} (h : pop ins s = .ok (n, t)) :
    ∃ m rest, s.operands = .node m :: rest ∧ m.asExpression = .ok n := by
  obtain ⟨o, s₁, htop, h⟩ := bind_eq_ok h
  obtain ⟨rest, hoperands, rfl⟩ := popOperand_eq_ok htop
  cases o with
  | accumulator => cases h
  | node m =>
      refine ⟨m, rest, hoperands, ?_⟩
      cases hm : m.asExpression with
      | error => simp only [hm] at h; cases h
      | ok => simp only [hm] at h; cases h; rfl

/-- The object on top of the stack is the one that is changed. -/
theorem calls_updateObject {depth : Nat} {between : Rebuild Unit} {update : Node → Node}
    (hbetween : ∀ total held, Weighs total held between fun _ => held)
    (h : updateObject ins depth between update s = .ok ((), t)) :
    ∃ n rest, s.operands = .node n :: rest ∧ isObjectAt depth (.node n) = true ∧
      t.calls + n.calls = s.calls + (update n).calls := by
  obtain ⟨n, s₁, hpop, h⟩ := bind_eq_ok h
  have hheld : s₁.calls + (0 + n.calls) = s.calls := weighs_pop s n s₁ rfl hpop
  obtain ⟨m, rest, hoperands, hm⟩ := pop_eq_ok hpop
  split at h
  · next className name parent isDatablock args fields children d =>
      split at h
      · next hdepth =>
          have hobject : isObjectAt depth (.node (.object className name parent isDatablock args fields children d)) =
            true := beq_iff_eq.mpr hdepth
          obtain rfl := eq_of_asExpression_object hobject hm
          obtain ⟨_, s₂, hrun, hpush⟩ := bind_eq_ok h
          have hbefore : s₂.calls + 0 = s₁.calls := hbetween _ 0 s₁ () s₂ rfl hrun
          have hafter : t.calls + 0 = _ := weighs_push (Nat.zero_add _) s₂ () t rfl hpush
          exact ⟨_, rest, hoperands, hobject, by omega⟩
      · cases h
  · cases h

/-- **Adding an object loses the calls of the fields it had before.** -/
theorem calls_addObject {atRoot : Bool} (h : addObject ins atRoot s = .ok ((), t)) :
    t.calls + listCalls (overwritten s (.addObject atRoot)) = s.calls := by
  cases hdepth : s.objectDepth with
  | zero =>
      rw [addObject, bind_ok rfl] at h
      simp only [hdepth] at h
      cases h
  | succ depth =>
      rw [addObject_eq hdepth] at h
      obtain ⟨fields, s₁, hfields, h⟩ := bind_eq_ok h
      have hheld : s₁.calls + (0 + listCalls (nodes fields)) = s.calls :=
        weighs_popWhile (fun _ => exists_node_of_isOwnField) s fields s₁ rfl hfields
      have hbetween : ∀ total held, Weighs total held (if atRoot then popPlaceholder ins else pure ())
          fun _ => held := by
        intro total held
        split
        · exact weighs_popPlaceholder
        · exact .pure rfl
      obtain ⟨n, rest, hoperands, hobject, hcalls⟩ := calls_updateObject hbetween h
      have hreplaced := calls_withFields (nodes fields) hobject
      cases hfields
      rw [overwritten, show s.operands.dropWhile isOwnField = _ from hoperands, listOnTop]
      omega

/-- **Ending an object loses the calls of the children it had before.** -/
theorem calls_endObject {atRoot : Bool} (h : endObject ins s = .ok ((), t)) :
    t.calls + listCalls (overwritten s (.endObject atRoot)) = s.calls := by
  cases hdepth : s.objectDepth with
  | zero =>
      rw [endObject, bind_ok rfl] at h
      simp only [hdepth] at h
      cases h
  | succ depth =>
      rw [endObject_eq hdepth] at h
      obtain ⟨inner, s₁, hinner, h⟩ := bind_eq_ok h
      have hheld : s₁.calls + (0 + listCalls (nodes inner)) = s.calls :=
        weighs_popWhile (p := isObjectAt (depth + 1)) (fun _ => exists_node_of_isObjectAt)
          { s with objectDepth := depth } inner s₁ rfl hinner
      obtain ⟨n, rest, hoperands, hobject, hcalls⟩ := calls_updateObject (fun _ _ => .pure rfl) h
      have hreplaced := calls_withChildren (nodes inner) hobject
      cases hinner
      rw [overwritten, hdepth, show s.operands.dropWhile (isObjectAt (depth + 1)) = _ from hoperands, listOnTop]
      omega

/-! ### All instructions -/

/-- A call adds itself to the calls of its arguments. -/
theorem calls_call {name : String} {nameSpace : Option String} {callType : CallType}
    (h : (do let args ← popFrame ins; push (.call name nameSpace callType args)) s = .ok ((), t)) :
    t.calls = s.calls + 1 := by
  obtain ⟨args, s₁, hargs, hpush⟩ := bind_eq_ok h
  have hheld : s₁.calls + (0 + listCalls args) = s.calls := weighs_popFrame s args s₁ rfl hargs
  have hafter : t.calls + 0 = _ := weighs_push (Nat.zero_add _) s₁ () t rfl hpush
  rw [Node.calls_eq, Node.isCall, Node.children, if_pos rfl] at hafter
  omega

/-- The operation makes a call. -/
def isCallOperation : Operation → Bool
  | .call .. => true
  | _ => false

/-- Assigning to a variable or a field. -/
def isSave : Operation → Bool
  | .saveVar _ | .saveField _ => true
  | _ => false

/-- Instructions that make no call and replace no list. -/
theorem weighs_step (hsave : isSave ins.operation = false) (hcall : isCallOperation ins.operation = false)
    (hadd : ∀ atRoot, ins.operation ≠ .addObject atRoot) (hend : ∀ atRoot, ins.operation ≠ .endObject atRoot) :
    Weighs total 0 (step ins) fun _ => 0 := by
  unfold step
  split
  · exact weighs_declareFunction _ _ _
  · exact weighs_createObject _ _
  · next heq => exact absurd heq (hadd _)
  · next heq => exact absurd heq (hend _)
  · split
    · exact .update fun _ => rfl
    · exact .throw _
  · refine .bind weighs_pop fun value => weighs_push ?_
    rw [Node.calls_of_children (n := .ret _) rfl]
    simp [Node.children]
  · exact weighs_push rfl
  · refine .bind weighs_pop fun right => .bind weighs_pop fun left => weighs_push ?_
    rw [Node.calls_pair (n := .binary ..) rfl rfl]
    omega
  · refine .bind weighs_pop fun operand => weighs_push ?_
    rw [calls_unaryNode]
  · exact weighs_push rfl
  · exact weighs_indexVariable
  · exact .pure rfl
  · exact .pure rfl
  · exact .pure rfl
  · exact .pure rfl
  · next heq => rw [heq] at hsave; cases hsave
  · next heq => rw [heq] at hsave; cases hsave
  · exact .update fun _ => rfl
  · exact .update fun _ => rfl
  · exact weighs_selectField _
  · exact weighs_indexField
  · exact weighs_push rfl
  · exact weighs_push rfl
  · exact weighs_push rfl
  · exact weighs_push rfl
  · exact weighs_push rfl
  · next heq => rw [heq] at hcall; cases hcall
  · exact weighs_advance _
  · split
    · exact weighs_advance _
    · exact .throw _
  · exact weighs_advance _
  · exact weighs_advance _
  · exact weighs_rewind
  · exact weighs_terminate
  · exact weighs_compareStrings
  · exact weighs_pushArgument
  · exact .update fun s => by simp [State.calls]

/-- **Conservation of calls.**  An instruction, assignments apart, adds the call that it makes to the calls in
the state.  It takes away those in the list that it replaces, and no others. -/
theorem calls_step (hsave : isSave ins.operation = false) (h : step ins s = .ok ((), t)) :
    t.calls + listCalls (overwritten s ins.operation) =
      s.calls + if isCallOperation ins.operation then 1 else 0 := by
  cases hoperation : ins.operation with
  | addObject atRoot =>
      rw [step, hoperation] at h
      exact calls_addObject h
  | endObject atRoot =>
      rw [step, hoperation] at h
      exact calls_endObject h
  | call name nameSpace callType resolve =>
      rw [step, hoperation] at h
      exact calls_call h
  | _ =>
      rw [hoperation] at hsave
      exact weighs_step (by rw [hoperation]; exact hsave) (by rw [hoperation]; rfl)
        (by rw [hoperation]; exact nofun) (by rw [hoperation]; exact nofun) s () t rfl h

/-- `new ScriptObject() { x = f(); };`, up to the end of its fields. -/
def objectWithCall : List Instruction :=
  [⟨0, 1, .pushFrame, .pushFrame⟩, ⟨1, 1, .loadImmedIdent, .immediateIdent "ScriptObject"⟩, ⟨2, 1, .push, .push⟩,
    ⟨3, 1, .loadImmedStr, .immediateStr ""⟩, ⟨4, 1, .push, .push⟩,
    ⟨5, 1, .createObject, .createObject none false 0⟩, ⟨6, 1, .pushFrame, .pushFrame⟩,
    ⟨7, 1, .callFuncResolve, .call "f" none .function true⟩, ⟨8, 1, .setCurObjectNew, .selectNewObject⟩,
    ⟨9, 1, .setCurField, .selectField "x"⟩, ⟨10, 1, .saveFieldStr, .saveField .str⟩,
    ⟨11, 1, .addObject, .addObject false⟩]

/-- The same object is added once more. -/
def addAgain : Instruction :=
  ⟨12, 1, .addObject, .addObject false⟩

/-- A script with `objectWithCall` and `addAgain`. -/
def addedTwice : List Instruction :=
  objectWithCall ++ addAgain :: [⟨13, 1, .endObject, .endObject false⟩, ⟨14, 1, .ret, .ret false⟩]

/-- `new SimGroup() { new ScriptObject("", f()); };`, and the beginning of another object that is an argument. -/
def groupWithCall : List Instruction :=
  [⟨0, 1, .pushFrame, .pushFrame⟩, ⟨1, 1, .loadImmedIdent, .immediateIdent "SimGroup"⟩, ⟨2, 1, .push, .push⟩,
    ⟨3, 1, .loadImmedStr, .immediateStr ""⟩, ⟨4, 1, .push, .push⟩,
    ⟨5, 1, .createObject, .createObject none false 0⟩, ⟨6, 1, .pushFrame, .pushFrame⟩,
    ⟨7, 1, .loadImmedIdent, .immediateIdent "ScriptObject"⟩, ⟨8, 1, .push, .push⟩,
    ⟨9, 1, .loadImmedStr, .immediateStr ""⟩, ⟨10, 1, .push, .push⟩, ⟨11, 1, .pushFrame, .pushFrame⟩,
    ⟨12, 1, .callFuncResolve, .call "f" none .function true⟩, ⟨13, 1, .push, .push⟩,
    ⟨14, 1, .createObject, .createObject none false 0⟩, ⟨15, 1, .addObject, .addObject false⟩,
    ⟨16, 1, .endObject, .endObject false⟩, ⟨17, 1, .endObject, .endObject false⟩, ⟨18, 1, .pushFrame, .pushFrame⟩,
    ⟨19, 1, .pushFrame, .pushFrame⟩, ⟨20, 1, .loadImmedIdent, .immediateIdent "SimObject"⟩, ⟨21, 1, .push, .push⟩,
    ⟨22, 1, .createObject, .createObject none false 0⟩, ⟨23, 1, .push, .push⟩]

/-- The end of the second object ends the first one once more. -/
def endAgain : Instruction :=
  ⟨24, 1, .endObject, .endObject false⟩

/-- A script with `groupWithCall` and `endAgain`. -/
def endedTwice : List Instruction :=
  groupWithCall ++ endAgain ::
    [⟨25, 1, .callFuncResolve, .call "g" none .function true⟩, ⟨26, 1, .ret, .ret false⟩]

/-- When the stream is rebuilt, the instruction is run in the given state, outside of choices and loops. -/
def RunsIn (instrs : List Instruction) (ins : Instruction) (s : State) : Prop :=
  ∃ tree front rest, Stream.blockTree instrs = .ok tree ∧
    Region.ofStream tree instrs = front ++ .plain ins :: rest ∧
    (do runAll front; enter ins.addr) {} = .ok ((), s)

/-- The second of two additions loses the field that calls. -/
theorem calls_step_addAgain : ∃ s t, RunsIn addedTwice addAgain s ∧ step addAgain s = .ok ((), t) ∧
    t.calls + listCalls (overwritten s addAgain.operation) = s.calls := by
  refine ⟨_, _, ⟨_, objectWithCall.map .plain, _, by cbv, by cbv, by cbv⟩, by cbv, ?_⟩
  exact calls_step (show isSave addAgain.operation = false from rfl) (by cbv)

/-- **Lost calls.**  An object with a call in its fields is added twice, or one with a call in an object inside it
is ended twice.  The second time, the call is gone, and the script is rebuilt without it. -/
theorem call_lost_addedTwice :
    (∃ s t, RunsIn addedTwice addAgain s ∧ step addAgain s = .ok ((), t) ∧ s.calls = 1 ∧ t.calls = 0) ∧
    (Stream.statements addedTwice).outcome.1 =
      .ok [.object (.constant (.ident "ScriptObject")) none none false [] [] [] 0, .ret none] ∧
    (∃ s t, RunsIn endedTwice endAgain s ∧ step endAgain s = .ok ((), t) ∧ s.calls = 1 ∧ t.calls = 0) ∧
    (Stream.statements endedTwice).outcome.1 =
      .ok [.object (.constant (.ident "SimGroup")) none none false [] [] [] 0,
        .call "g" none .function [.object (.constant (.ident "SimObject")) none none false [] [] [] 0],
        .ret none] := by
  refine ⟨⟨_, _, ⟨_, objectWithCall.map .plain, _, by cbv, by cbv, by cbv⟩, by cbv, by cbv, by cbv⟩, by cbv, ?_⟩
  exact ⟨⟨_, _, ⟨_, groupWithCall.map .plain, _, by cbv, by cbv, by cbv⟩, by cbv, by cbv, by cbv⟩, by cbv⟩

end Rebuild

end TorqueScript
