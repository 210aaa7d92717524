import TorqueScript.Proofs.Coverage

/-!
# Invariants of rebuilding

An invariant of the state of rebuilding is carried through a computation by `Rebuild.Keeps`, which has one
rule for each way to compose computations.

Many invariants give a property to every node in the state: `V` to the values, which are the collected
arguments and the left halves of string operations, and `N` to the nodes on the stack
(`Rebuild.State.Carries`).  Whether instructions keep such an invariant does not depend on the state but on
what rebuilding does with nodes.  It takes values off the stack, makes values of values, takes operands of a
value for values again, and puts values and return statements on the stack.  `Rebuild.Carried` says that
the properties survive this, and nothing else is needed:

**Instructions** (`Rebuild.Carried.step`).  Every instruction keeps the invariant if declarations of
functions do.  The others leave the parts around and the function being declared alone, so the invariant may
also say something about these.
-/

namespace TorqueScript

namespace Node

/-! ### Places for expressions -/

/-- The nodes directly below in whose place an expression belongs. -/
def slots : Node → List Node
  | ret value => value.toList
  | ifElse condition _ _ => [condition]
  | loop _ init condition step _ => init.toList ++ condition :: step.toList
  | unary _ operand => [operand]
  | binary _ left right | compare _ left right | concat _ left right | comma left right => [left, right]
  | conditional condition thenValue elseValue => [condition, thenValue, elseValue]
  | field owner _ index => owner.toList ++ index.toList
  | var _ index => index.toList
  | assign target _ value => [target, value]
  | object className name _ _ args _ _ _ => className :: name.toList ++ args
  | call _ _ _ args => args
  | breakLoop | continueLoop | constant _ | function .. | package .. => []

/-- The nodes directly below that are statements of a body. -/
def bodies : Node → List Node
  | ifElse _ thenBody elseBody => thenBody ++ elseBody
  | loop _ _ _ _ body => body
  | object _ _ _ _ _ fields children _ => fields ++ children
  | function _ body => body
  | package _ functions => functions
  | _ => []

/-- A child stands in the place of an expression or in a body. -/
theorem mem_children_iff {n c : Node} : c ∈ n.children ↔ c ∈ n.slots ∨ c ∈ n.bodies := by
  cases n <;> simp [children, slots, bodies, or_assoc, or_comm, or_left_comm]

@[simp] theorem isStatement_binary (op : BinaryOp) (l r : Node) : (binary op l r).isStatement = false := by
  cases op <;> rfl

@[simp] theorem isStatement_call (name : String) (nameSpace : Option String) (callType : CallType)
    (args : List Node) : (call name nameSpace callType args).isStatement = false := by
  cases callType <;> rfl

/-! ### Nodes as values -/

/-- A node is taken for itself, or it is a choice and both sides are taken for values. -/
theorem asExpression_induction {P : Node → Node → Prop} {n m : Node} (h : n.asExpression = .ok m)
    (choice : ∀ c t e t' e', P t t' → P e e' → P (ifElse c [t] [e]) (conditional c t' e'))
    (value : ∀ n, n.isStatement = false → P n n) : P n m := by
  fun_induction asExpression n generalizing m with
  | case1 c t e iht ihe =>
      cases ht : t.asExpression with
      | error => rw [ht] at h; cases h
      | ok t' =>
          cases he : e.asExpression with
          | error => rw [ht, he] at h; cases h
          | ok e' =>
              rw [ht, he] at h
              cases h
              exact choice c t e t' e' (iht ht) (ihe he)
  | case2 => cases h
  | case3 n _ hn =>
      cases h
      exact value n (by simpa using hn)

/-- What is no statement is its own value. -/
theorem asExpression_of_isStatement {n : Node} (h : n.isStatement = false) : n.asExpression = .ok n := by
  fun_cases asExpression n with
  | case1 => cases h
  | case2 _ _ hn => exact absurd hn (by simp [h])
  | case3 => rfl

end Node

namespace Rebuild

variable {I J : State → Prop} {α β : Type}

/-! ### Invariants -/

/-- If the computation succeeds from a state with the invariant, it keeps the invariant, and its result has
the property. -/
def Keeps (I : State → Prop) (x : Rebuild α) (P : α → Prop) : Prop :=
  ∀ s a t, I s → x s = .ok (a, t) → I t ∧ P a

/-- One after the other, if what comes second does so for every result of the first. -/
theorem Keeps.bind {x : Rebuild α} {f : α → Rebuild β} {P : α → Prop} {Q : β → Prop} (hx : Keeps I x P)
    (hf : ∀ a, P a → Keeps I (f a) Q) : Keeps I (x >>= f) Q := by
  intro s b u hs h
  obtain ⟨a, t, hxa, hfa⟩ := bind_eq_ok h
  obtain ⟨ht, ha⟩ := hx s a t hs hxa
  exact hf a ha t b u ht hfa

/-- A result that has the property. -/
theorem Keeps.pure {P : α → Prop} {a : α} (h : P a) : Keeps I (Pure.pure a : Rebuild α) P := by
  rintro s _ _ hs ⟨⟩
  exact ⟨hs, h⟩

/-- What fails keeps everything. -/
theorem Keeps.throw {P : α → Prop} (e : Error) : Keeps I (throwThe Error e : Rebuild α) P :=
  nofun

/-- The state itself has the invariant. -/
theorem Keeps.get : Keeps I (MonadState.get : Rebuild State) I := by
  rintro s _ _ hs ⟨⟩
  exact ⟨hs, hs⟩

theorem Keeps.set {t : State} (h : I t) : Keeps I (MonadState.set t : Rebuild PUnit) fun _ => True := by
  rintro s _ _ - ⟨⟩
  exact ⟨h, trivial⟩

/-- Changing the state in a way that keeps the invariant. -/
theorem Keeps.update {f : State → State} (h : ∀ s, I s → I (f s)) :
    Keeps I (modify f : Rebuild PUnit) fun _ => True := by
  rintro s _ _ hs ⟨⟩
  exact ⟨h s hs, trivial⟩

/-- Invariants that hold of the same states are kept by the same computations. -/
theorem Keeps.congr {x : Rebuild α} {P : α → Prop} (h : Keeps I x P) (hIJ : ∀ s, I s ↔ J s) : Keeps J x P := by
  intro s a t hs hx
  obtain ⟨ht, ha⟩ := h s a t ((hIJ s).mpr hs) hx
  exact ⟨(hIJ t).mp ht, ha⟩

/-- Reaching the end of a function is nothing but ending the function, if it is the time for that. -/
theorem Keeps.closeFunction {addr : Addr} (hend : Keeps I (endFunction addr) fun _ => True) :
    Keeps I (Rebuild.closeFunction addr) fun _ => True := by
  refine .bind .get fun s hs => ?_
  split
  · split
    · exact .pure trivial
    · exact hend
  · exact .pure trivial

/-- Before an instruction a function may end, and short circuits are completed. -/
theorem Keeps.enter {addr : Addr} (hend : Keeps I (endFunction addr) fun _ => True)
    (hfold : Keeps I (foldLogic addr) fun _ => True) : Keeps I (Rebuild.enter addr) fun _ => True :=
  .bind (.closeFunction hend) fun _ _ => hfold

/-! ### What taking from the stacks does -/

variable {ins : Instruction} {s t : State}

/-- Something is taken off a stack that was not empty. -/
theorem popOperand_eq_ok {o : Operand} (h : popOperand ins s = .ok (o, t)) :
    ∃ os, s.operands = o :: os ∧ t = { s with operands := os } := by
  unfold popOperand at h
  split at h
  · next os hos =>
      cases h
      exact ⟨os, hos, rfl⟩
  · cases h

/-- The arguments of the innermost call, in the order in which they were pushed. -/
theorem popFrame_eq_ok {ns : List Node} (h : popFrame ins s = .ok (ns, t)) :
    ∃ frame frames, s.frames = frame :: frames ∧ ns = frame.reverse ∧ t = { s with frames } := by
  unfold popFrame at h
  split at h
  · next frame frames hframes =>
      cases h
      exact ⟨frame, frames, hframes, rfl, rfl⟩
  · cases h

/-- What begins a `for` is an assignment to something in its condition, or nothing. -/
theorem takeInit_eq_ok {condition : Node} {init : Option Node} (h : takeInit condition s = .ok (init, t)) :
    (init = none ∧ t = s) ∨
      ∃ target op value os, s.operands = .node (.assign target op value) :: os ∧
        condition.contains target = true ∧ init = some (.assign target op value) ∧
        t = { s with operands := os } := by
  unfold takeInit at h
  split at h
  · next target op value os hos =>
      split at h
      · next hcontains =>
          cases h
          exact .inr ⟨target, op, value, os, hos, hcontains, rfl, rfl⟩
      · cases h
        exact .inl ⟨rfl, rfl⟩
  · cases h
    exact .inl ⟨rfl, rfl⟩

/-- A part that is closed leaves its statements, and the stack around it is back. -/
theorem closePart_eq_ok {addr : Addr} {ns : List Node} (h : closePart addr s = .ok (ns, t)) :
    ∃ outer saved, s.saved = outer :: saved ∧ statements addr s.operands = .ok ns ∧
      t = { s with operands := outer, saved } := by
  unfold closePart at h
  split at h
  · cases h
  · next outer saved hsaved =>
      cases hbody : statements addr s.operands with
      | error => rw [hbody] at h; cases h
      | ok ns =>
          rw [hbody] at h
          cases h
          exact ⟨outer, saved, hsaved, rfl, rfl⟩

/-- The statements on a stack are all that lies there, from the bottom up. -/
theorem eq_of_statements {addr : Addr} {os : List Operand} {ns : List Node}
    (h : statements addr os = .ok ns) : os.reverse = ns.map .node := by
  unfold statements at h
  generalize os.reverse = os at h ⊢
  induction os generalizing ns with
  | nil => cases h; rfl
  | cons o os ih =>
      cases o with
      | accumulator => rw [List.mapM_cons] at h; cases h
      | node n =>
          simp only [List.mapM_cons, bind, Except.bind] at h
          split at h
          · cases h
          · next ms hms =>
              cases h
              rw [ih hms, List.map_cons]

/-- A name that does not count as one is left out. -/
theorem mem_of_objectName? {name : Option Node} {n : Node} (h : n ∈ objectName? name) : n ∈ name := by
  unfold objectName? at h
  split at h
  · cases h
  · exact h

/-- Stores to own fields are no statements. -/
theorem isStatement_of_isOwnField {n : Node} (h : isOwnField (.node n) = true) : n.isStatement = false := by
  unfold isOwnField at h
  split at h
  · next heq => cases heq; rfl
  · cases h

/-- And neither are objects. -/
theorem isStatement_of_isObjectAt {depth : Nat} {n : Node} (h : isObjectAt depth (.node n) = true) :
    n.isStatement = false := by
  unfold isObjectAt at h
  split at h
  · next heq => cases heq; rfl
  · cases h

/-! ### Properties of nodes -/

/-- A property of values and one of nodes on the stack that survive what rebuilding does with nodes. -/
structure Carried (V N : Node → Prop) : Prop where
  node : ∀ {n : Node}, V n → N n
  taken : ∀ {n m : Node}, N n → n.asExpression = .ok m → V m
  slot : ∀ {n v : Node}, V n → v ∈ n.slots → V v
  make : ∀ {n : Node}, n.isStatement = false → n.bodies = [] → (∀ v ∈ n.slots, V v) → V n
  fields : ∀ {n : Node} {fields : List Node}, V n → (∀ f ∈ fields, V f) → V (withFields fields n)
  children : ∀ {n : Node} {children : List Node}, V n → (∀ c ∈ children, V c) → V (withChildren children n)
  ret : ∀ {value : Option Node}, (∀ v ∈ value, V v) → N (.ret value)

/-- A node with the one property, or a left half with the other. -/
def Operand.Carries (V N : Node → Prop) : Operand → Prop
  | .node n => N n
  | .accumulator left _ => V left

/-- The operands of the current part and the collected arguments have the properties, and the stacks of the
parts around and the function being declared are as `A` says. -/
structure State.Carries (V N : Node → Prop) (A : List (List Operand) → Option FunctionFrame → Prop)
    (s : State) : Prop where
  operands : ∀ o ∈ s.operands, o.Carries V N
  frames : ∀ f ∈ s.frames, ∀ n ∈ f, V n
  around : A s.saved s.function

namespace Carried

variable {V N : Node → Prop} {A : List (List Operand) → Option FunctionFrame → Prop} (h : Carried V N)

include h

/-! ### Making values -/

/-- An expression on the stack is a value. -/
theorem value {n : Node} (hn : N n) (hstatement : n.isStatement = false) : V n :=
  h.taken hn (Node.asExpression_of_isStatement hstatement)

/-- A node with two expressions in it. -/
theorem pair {n l r : Node} (hn : n.isStatement = false) (hbodies : n.bodies = []) (hslots : n.slots = [l, r])
    (hl : V l) (hr : V r) : V n :=
  h.make hn hbodies (by rw [hslots]; simp [hl, hr])

/-- Negating a value, which takes a negation away or changes a comparison. -/
theorem negate {n : Node} (hn : V n) : V n.negate := by
  unfold Node.negate
  split
  · exact h.slot hn (by simp [Node.slots])
  · exact h.pair rfl rfl rfl (h.slot hn (by simp [Node.slots])) (h.slot hn (by simp [Node.slots]))
  · exact h.make rfl rfl (by simpa [Node.slots] using hn)

/-- A sign or a negation in front of a value. -/
theorem unaryNode (op : UnaryOp) {operand : Node} (hoperand : V operand) : V (unaryNode op operand) := by
  unfold Rebuild.unaryNode
  split
  · exact h.negate hoperand
  · exact h.make rfl rfl (by simpa [Node.slots] using hoperand)

/-- **Assignments**: the compound ones have a part of the value in them. -/
theorem assignment {target value : Node} (htarget : V target) (hvalue : V value) :
    V (assignment target value) := by
  have hplain : V (.assign target none value) := h.pair rfl rfl rfl htarget hvalue
  unfold Rebuild.assignment
  split
  · split
    · exact h.pair rfl rfl rfl htarget (h.slot hvalue (by simp [Node.slots]))
    · exact hplain
  · exact hplain

/-- A variable with an index. -/
theorem indexed {name : String} {index : Node} (hindex : V index) : V (.var name (some index)) :=
  h.make rfl rfl (by simpa [Node.slots] using hindex)

/-- What is put into an object is an expression. -/
theorem value_of_popWhile {p : Operand → Bool} {os : List Operand} {n : Node}
    (hp : ∀ m, p (.node m) = true → m.isStatement = false) (hos : ∀ o ∈ os, o.Carries V N ∧ p o = true)
    (hn : n ∈ nodes os) : V n := by
  obtain ⟨o, ho, hon⟩ := List.mem_filterMap.mp hn
  cases o with
  | node m =>
      cases hon
      exact h.value (hos _ ho).1 (hp n (hos _ ho).2)
  | accumulator => cases hon

/-! ### Stacks -/

omit h in
theorem pushOperand {o : Operand} (ho : o.Carries V N) :
    Keeps (State.Carries V N A) (pushOperand o) fun _ => True :=
  .update fun _ hs => { hs with operands := List.forall_mem_cons.mpr ⟨ho, hs.operands⟩ }

omit h in
/-- Any node may go on the stack that has the property of nodes. -/
theorem pushNode {n : Node} (hn : N n) : Keeps (State.Carries V N A) (push n) fun _ => True :=
  pushOperand hn

/-- So may a value. -/
theorem push {n : Node} (hn : V n) : Keeps (State.Carries V N A) (push n) fun _ => True :=
  pushOperand (h.node hn)

omit h in
theorem popOperand : Keeps (State.Carries V N A) (popOperand ins) (Operand.Carries V N) := by
  intro s o t hs h
  obtain ⟨os, hos, rfl⟩ := popOperand_eq_ok h
  obtain ⟨ho, hrest⟩ := List.forall_mem_cons.mp (hos ▸ hs.operands)
  exact ⟨{ hs with operands := hrest }, ho⟩

/-- A value comes off the stack, whatever was there. -/
theorem pop : Keeps (State.Carries V N A) (pop ins) V := by
  refine .bind popOperand fun o ho => ?_
  cases o with
  | node n =>
      dsimp only
      split
      · next m hm => exact .pure (h.taken ho hm)
      · exact .throw _
  | accumulator => exact .throw _

omit h in
/-- The left half of a string operation. -/
theorem popAccumulator : Keeps (State.Carries V N A) (popAccumulator ins) fun p => V p.1 := by
  refine .bind popOperand fun o ho => ?_
  cases o with
  | node n => exact .throw _
  | accumulator left kind => exact .pure ho

omit h in
/-- Operands that are taken together. -/
theorem popWhile (p : Operand → Bool) :
    Keeps (State.Carries V N A) (popWhile p) fun os => ∀ o ∈ os, o.Carries V N ∧ p o = true := by
  refine .bind .get fun s hs => .bind (.set ?_) fun _ _ => .pure fun o ho => ?_
  · exact { hs with operands := fun o ho => hs.operands o ((List.dropWhile_sublist p).subset ho) }
  · have ho := List.mem_reverse.mp ho
    exact ⟨hs.operands o ((List.takeWhile_sublist p).subset ho), List.mem_takeWhile_imp ho⟩

omit h in
/-- The arguments of a call. -/
theorem popFrame : Keeps (State.Carries V N A) (popFrame ins) fun ns => ∀ n ∈ ns, V n := by
  intro s ns t hs h
  obtain ⟨frame, frames, hframes, rfl, rfl⟩ := popFrame_eq_ok h
  obtain ⟨hframe, hrest⟩ := List.forall_mem_cons.mp (hframes ▸ hs.frames)
  exact ⟨{ hs with frames := hrest }, fun n hn => hframe n (List.mem_reverse.mp hn)⟩

/-- An argument is a value. -/
theorem pushArgument : Keeps (State.Carries V N A) (pushArgument ins) fun _ => True := by
  refine .bind h.pop fun value hvalue => .bind .get fun s hs => ?_
  split
  · next frame frames hframes =>
      obtain ⟨hframe, hrest⟩ := List.forall_mem_cons.mp (hframes ▸ hs.frames)
      exact .set { hs with frames := List.forall_mem_cons.mpr ⟨List.forall_mem_cons.mpr ⟨hvalue, hframe⟩, hrest⟩ }
  · exact .throw _

/-- A loop behind a conditional jump may take the assignment in front of it. -/
theorem takeInit (condition : Node) :
    Keeps (State.Carries V N A) (takeInit condition) fun init => ∀ n ∈ init, V n := by
  intro s init t hs hx
  obtain ⟨rfl, rfl⟩ | ⟨target, op, value, os, hos, -, rfl, rfl⟩ := takeInit_eq_ok hx
  · exact ⟨hs, nofun⟩
  · obtain ⟨hassign, hrest⟩ := List.forall_mem_cons.mp (hos ▸ hs.operands)
    refine ⟨{ hs with operands := hrest }, fun n hn => ?_⟩
    cases hn
    exact h.value hassign rfl

/-- The condition behind a jump. -/
theorem fallThrough (kind : JumpKind) : Keeps (State.Carries V N A) (fallThrough ins kind) V := by
  refine .bind h.pop fun condition hcondition => .pure ?_
  split
  · exact h.negate hcondition
  · exact hcondition

/-- **Pending operators** get the values that are on the stack by then. -/
theorem foldPending (addr : Addr) (ps : List Pending) :
    Keeps (State.Carries V N A) (foldPending addr ps) fun _ => True := by
  induction ps with
  | nil => exact .pure trivial
  | cons p ps ih =>
      rw [Rebuild.foldPending]
      split
      · refine .bind (.update fun s hs => { hs with }) fun _ _ => ?_
        refine .bind h.pop fun right hright => .bind h.pop fun left hleft => ?_
        exact .bind (h.push (h.pair (by simp) rfl rfl hleft hright)) fun _ _ => ih
      · exact .pure trivial

theorem foldLogic (addr : Addr) : Keeps (State.Carries V N A) (foldLogic addr) fun _ => True :=
  .bind .get fun _ _ => h.foldPending addr _

/-! ### Strings, variables and fields -/

theorem advance (kind : Accumulation) : Keeps (State.Carries V N A) (advance ins kind) fun _ => True :=
  .bind h.pop fun _ hleft => pushOperand hleft

theorem rewind : Keeps (State.Carries V N A) (rewind ins) fun _ => True := by
  refine .bind h.pop fun right hright => .bind popAccumulator fun p hp => ?_
  obtain ⟨left, kind⟩ := p
  cases kind with
  | join j => exact h.push (h.pair rfl rfl rfl hp hright)
  | comma => exact h.push (h.pair rfl rfl rfl hp hright)
  | compare => exact .throw _

theorem compareStrings : Keeps (State.Carries V N A) (compareStrings ins) fun _ => True := by
  refine .bind h.pop fun right hright => .bind popAccumulator fun p hp => ?_
  obtain ⟨left, kind⟩ := p
  dsimp only
  split
  · exact h.push (h.pair rfl rfl rfl hp hright)
  · exact .throw _

theorem terminate : Keeps (State.Carries V N A) (terminate ins) fun _ => True := by
  refine .bind popOperand fun o ho => ?_
  cases o with
  | accumulator left kind => exact h.push ho
  | node top => exact .bind popAccumulator fun p hp => .bind (pushNode ho) fun _ _ => h.push hp

theorem indexVariable : Keeps (State.Carries V N A) (indexVariable ins) fun _ => True := by
  refine .bind h.pop fun n hn => ?_
  split
  · exact h.push (h.indexed (h.slot hn (by simp [Node.slots])))
  · exact h.push (h.indexed (h.slot hn (by simp [Node.slots])))
  · refine .bind h.pop fun v _ => ?_
    split
    · exact h.push (h.indexed hn)
    · exact .throw _

theorem selectField (name : String) : Keeps (State.Carries V N A) (selectField ins name) fun _ => True := by
  refine .bind .get fun s hs => .bind (.set { hs with }) fun _ _ => ?_
  have hbare : V (.field none name none) := h.make rfl rfl (List.forall_mem_nil _)
  split
  · refine .bind h.pop fun owner howner => h.push (h.make rfl rfl ?_)
    simpa [Node.slots] using howner
  · exact h.push hbare
  · exact h.push hbare

theorem indexField : Keeps (State.Carries V N A) (indexField ins) fun _ => True := by
  refine .bind h.pop fun index hindex => .bind h.pop fun n hn => ?_
  split
  · refine h.push (h.make rfl rfl fun v hv => ?_)
    rcases List.mem_append.mp hv with hv | hv
    · exact h.slot hn (List.mem_append_left _ hv)
    · exact List.mem_singleton.mp hv ▸ hindex
  · exact .throw _

theorem saveVariable : Keeps (State.Carries V N A) (saveVariable ins) fun _ => True := by
  refine .bind h.pop fun target htarget => ?_
  split
  · exact .bind h.pop fun value hvalue => h.push (h.assignment htarget hvalue)
  · exact .throw _

theorem saveField : Keeps (State.Carries V N A) (saveField ins) fun _ => True := by
  refine .bind h.pop fun target htarget => ?_
  split
  · exact .bind h.pop fun value hvalue => h.push (h.assignment htarget hvalue)
  · exact .throw _

/-! ### Objects -/

/-- An object is made of its class, its name and its arguments. -/
theorem createObject (parent : Option String) (isDatablock : Bool) :
    Keeps (State.Carries V N A) (createObject ins parent isDatablock) fun _ => True := by
  refine .bind popFrame fun args hargs => ?_
  split
  · exact .throw _
  · next className rest =>
      obtain ⟨hclass, hrest⟩ := List.forall_mem_cons.mp hargs
      refine .bind .get fun s hs => .bind (h.push ?_) fun _ _ => .update fun s hs => { hs with }
      refine h.make rfl rfl fun v hv => ?_
      simp only [Node.slots, List.cons_append, List.mem_cons, List.mem_append, Option.mem_toList] at hv
      rcases hv with rfl | hv | hv
      · exact hclass
      · exact hrest v (List.mem_of_mem_head? (mem_of_objectName? hv))
      · exact hrest v (List.mem_of_mem_tail hv)

/-- An object is changed in a way that keeps values. -/
theorem updateObject (depth : Nat) {between : Rebuild Unit} {update : Node → Node}
    (hbetween : Keeps (State.Carries V N A) between fun _ => True) (hupdate : ∀ n, V n → V (update n)) :
    Keeps (State.Carries V N A) (updateObject ins depth between update) fun _ => True := by
  refine .bind h.pop fun n hn => ?_
  split
  · split
    · exact .bind hbetween fun _ _ => h.push (hupdate _ hn)
    · exact .throw _
  · exact .throw _

theorem popPlaceholder : Keeps (State.Carries V N A) (popPlaceholder ins) fun _ => True := by
  refine .bind h.pop fun n _ => ?_
  split
  · split
    · exact .pure trivial
    · exact .throw _
  · exact .throw _

/-- What an object gets as its fields are values on the stack. -/
theorem addObject (atRoot : Bool) : Keeps (State.Carries V N A) (addObject ins atRoot) fun _ => True := by
  refine .bind .get fun s hs => ?_
  split
  · exact .throw _
  · refine .bind (popWhile _) fun fields hfields => h.updateObject _ ?_ fun n hn =>
      h.fields hn fun f hf => h.value_of_popWhile (fun _ => isStatement_of_isOwnField) hfields hf
    split
    · exact h.popPlaceholder
    · exact .pure trivial

/-- And so is what it gets as its children. -/
theorem endObject : Keeps (State.Carries V N A) (endObject ins) fun _ => True := by
  refine .bind .get fun s hs => ?_
  split
  · exact .throw _
  · refine .bind (.set { hs with }) fun _ _ => .bind (popWhile _) fun children hchildren => ?_
    exact h.updateObject _ (.pure trivial) fun n hn =>
      h.children hn fun c hc => h.value_of_popWhile (fun _ => isStatement_of_isObjectAt) hchildren hc

/-! ### All instructions -/

omit h in
/-- A function without a body is put on the stack at once. -/
theorem declareFunction {signature : Signature} (stop : Addr) (hfunction : N (.function signature [])) :
    Keeps (State.Carries V N A) (declareFunction ins signature false stop) fun _ => True := by
  refine .bind .get fun s hs => ?_
  split
  · exact .throw _
  · exact pushNode hfunction

/-- **Instructions** keep an invariant of this kind if declarations of functions do. -/
theorem step (hdeclare : ∀ signature hasBody stop, ins.operation = .declareFunction signature hasBody stop →
      Keeps (State.Carries V N A) (Rebuild.declareFunction ins signature hasBody stop) fun _ => True) :
    Keeps (State.Carries V N A) (step ins) fun _ => True := by
  have hconstant : ∀ c, V (.constant c) := fun c => h.make rfl rfl (List.forall_mem_nil _)
  unfold Rebuild.step
  split
  · next heq => exact hdeclare _ _ _ heq
  · exact h.createObject _ _
  · exact h.addObject _
  · exact h.endObject
  · split
    · exact .update fun s hs => { hs with }
    · exact .throw _
  · exact .bind h.pop fun value hvalue => pushNode (h.ret (by simpa using hvalue))
  · exact pushNode (h.ret nofun)
  · exact .bind h.pop fun right hright => .bind h.pop fun left hleft =>
      h.push (h.pair (by simp) rfl rfl hleft hright)
  · exact .bind h.pop fun operand hoperand => h.push (h.unaryNode _ hoperand)
  · exact h.push (h.make rfl rfl (List.forall_mem_nil _))
  · exact h.indexVariable
  · exact .pure trivial
  · exact .pure trivial
  · exact .pure trivial
  · exact .pure trivial
  · exact h.saveVariable
  · exact h.saveField
  · exact .update fun s hs => { hs with }
  · exact .update fun s hs => { hs with }
  · exact h.selectField _
  · exact h.indexField
  · exact h.push (hconstant _)
  · exact h.push (hconstant _)
  · exact h.push (hconstant _)
  · exact h.push (hconstant _)
  · exact h.push (hconstant _)
  · exact .bind popFrame fun args hargs => h.push (h.make (by simp) rfl hargs)
  · exact h.advance _
  · split
    · exact h.advance _
    · exact .throw _
  · exact h.advance _
  · exact h.advance _
  · exact h.rewind
  · exact h.terminate
  · exact h.compareStrings
  · exact h.pushArgument
  · exact .update fun s hs => { hs with frames := List.forall_mem_cons.mpr ⟨List.forall_mem_nil _, hs.frames⟩ }

end Carried

end Rebuild

end TorqueScript
