import TorqueScript.Proofs.Layers
import TorqueScript.Proofs.PrintedPieces

/-!
# Compound assignments written out

A compound assignment is unfolded to a plain one, everywhere in a tree and from below (`Node.unfolded`).  Both are
written in the same way where they stand.  But writing asks of a plain assignment whether its value begins with its
target, not only to choose the form: an assignment with a compound form is put in parentheses as a value, and `++`
stands for adding one.  The answer could change when both sides are unfolded.

* `Node.tokens_unfolded`: if no answer changes (`Node.Discerned`), the same is written.
* `Node.PlainTargets.discerned`: none changes if no target has an assignment in it, since such a target is the
  unfolded form of itself and of nothing else.
-/

namespace TorqueScript

namespace Node

/-! ### Changing a tree from below -/

/-- The node with other nodes directly below it. -/
def mapChildren (f : Node → Node) : Node → Node
  | ret value => ret (value.map f)
  | ifElse condition thenBody elseBody => ifElse (f condition) (thenBody.map f) (elseBody.map f)
  | loop kind init condition step body => loop kind (init.map f) (f condition) (step.map f) (body.map f)
  | breakLoop => breakLoop
  | continueLoop => continueLoop
  | unary op operand => unary op (f operand)
  | binary op left right => binary op (f left) (f right)
  | compare op left right => compare op (f left) (f right)
  | concat join left right => concat join (f left) (f right)
  | comma left right => comma (f left) (f right)
  | conditional condition thenValue elseValue => conditional (f condition) (f thenValue) (f elseValue)
  | field owner name index => field (owner.map f) name (index.map f)
  | var name index => var name (index.map f)
  | constant c => constant c
  | assign target op value => assign (f target) op (f value)
  | object className name parent isDatablock args fields children depth =>
    object (f className) (name.map f) parent isDatablock (args.map f) (fields.map f) (children.map f) depth
  | call name nameSpace callType args => call name nameSpace callType (args.map f)
  | function signature body => function signature (body.map f)
  | package name functions => package name (functions.map f)

mutual

/-- Changes the nodes of a tree one by one, each behind those below it. -/
def rewrite (f : Node → Node) : Node → Node
  | ret value => f (ret (optionRewrite f value))
  | ifElse condition thenBody elseBody =>
    f (ifElse (rewrite f condition) (listRewrite f thenBody) (listRewrite f elseBody))
  | loop kind init condition step body =>
    f (loop kind (optionRewrite f init) (rewrite f condition) (optionRewrite f step) (listRewrite f body))
  | breakLoop => f breakLoop
  | continueLoop => f continueLoop
  | unary op operand => f (unary op (rewrite f operand))
  | binary op left right => f (binary op (rewrite f left) (rewrite f right))
  | compare op left right => f (compare op (rewrite f left) (rewrite f right))
  | concat join left right => f (concat join (rewrite f left) (rewrite f right))
  | comma left right => f (comma (rewrite f left) (rewrite f right))
  | conditional condition thenValue elseValue =>
    f (conditional (rewrite f condition) (rewrite f thenValue) (rewrite f elseValue))
  | field owner name index => f (field (optionRewrite f owner) name (optionRewrite f index))
  | var name index => f (var name (optionRewrite f index))
  | constant c => f (constant c)
  | assign target op value => f (assign (rewrite f target) op (rewrite f value))
  | object className name parent isDatablock args fields children depth =>
    f (object (rewrite f className) (optionRewrite f name) parent isDatablock (listRewrite f args)
      (listRewrite f fields) (listRewrite f children) depth)
  | call name nameSpace callType args => f (call name nameSpace callType (listRewrite f args))
  | function signature body => f (function signature (listRewrite f body))
  | package name functions => f (package name (listRewrite f functions))

/-- Changes a tree that may be missing. -/
def optionRewrite (f : Node → Node) : Option Node → Option Node
  | none => none
  | some n => some (rewrite f n)

/-- Changes a list of trees. -/
def listRewrite (f : Node → Node) : List Node → List Node
  | [] => []
  | n :: ns => rewrite f n :: listRewrite f ns

end

variable {f g : Node → Node} {n : Node}

/-- Something optional is rewritten in place. -/
theorem optionRewrite_eq (f : Node → Node) (n : Option Node) : optionRewrite f n = n.map (rewrite f) := by
  cases n <;> rfl

theorem listRewrite_eq (f : Node → Node) (ns : List Node) : listRewrite f ns = ns.map (rewrite f) := by
  induction ns with
  | nil => rfl
  | cons n ns ih => rw [listRewrite, ih, List.map_cons]

/-- Rewriting goes from below: first what is inside, and then the node. -/
theorem rewrite_eq (f : Node → Node) (n : Node) : n.rewrite f = f (n.mapChildren (rewrite f)) := by
  cases n <;> simp only [rewrite, mapChildren, optionRewrite_eq, listRewrite_eq]

/-- The children are changed one by one. -/
theorem children_mapChildren (f : Node → Node) (n : Node) : (n.mapChildren f).children = n.children.map f := by
  cases n <;> simp [mapChildren, children, Option.toList_map]

/-- Changing children twice. -/
theorem mapChildren_mapChildren (f g : Node → Node) (n : Node) :
    (n.mapChildren f).mapChildren g = n.mapChildren (g ∘ f) := by
  cases n <;> simp [mapChildren]

/-- Only what is done with the children counts. -/
theorem mapChildren_congr (h : ∀ c ∈ n.children, f c = g c) : n.mapChildren f = n.mapChildren g := by
  have hoption : ∀ {o : Option Node}, o.map f = o.map g ↔ ∀ c ∈ o.toList, f c = g c := by
    rintro (_ | n) <;> simp
  cases n <;> simp only [children, List.forall_mem_cons, List.forall_mem_append] at h <;>
    simp only [mapChildren] <;> congr 1 <;> first
    | exact List.map_inj_left.mpr (by tauto)
    | exact hoption.mpr (by tauto)
    | tauto

theorem mapChildren_id (n : Node) : n.mapChildren id = n := by
  cases n <;> simp [mapChildren]

/-! ### Compound assignments -/

/-- The target of an assignment. -/
def target? : Node → Option Node
  | assign target _ _ => some target
  | _ => none

/-- A compound assignment as a plain one. -/
def expandAssign : Node → Node
  | assign target (some op) value =>
    if op.isCompound then assign target none (binary op target value) else assign target (some op) value
  | n => n

/-- The node with all compound assignments, in it and below it, written as plain ones. -/
def unfolded (n : Node) : Node :=
  n.rewrite expandAssign

/-- Unfolding goes from below, too. -/
theorem unfolded_eq (n : Node) : n.unfolded = (n.mapChildren unfolded).expandAssign :=
  rewrite_eq expandAssign n

/-- Only assignments are changed by themselves. -/
theorem unfolded_of_target? (h : n.target? = none) : n.unfolded = n.mapChildren unfolded := by
  rw [unfolded_eq]
  cases n <;> first | rfl | cases h

/-- An operator stays between its operands. -/
theorem unfolded_binary (op : BinaryOp) (left right : Node) :
    (binary op left right).unfolded = binary op left.unfolded right.unfolded := rfl

theorem unfolded_plain (target value : Node) :
    (assign target none value).unfolded = assign target.unfolded none value.unfolded := rfl

/-- A compound assignment becomes a plain one of the target with the operator. -/
theorem unfolded_compound {op : BinaryOp} (hop : op.isCompound = true) (target value : Node) :
    (assign target (some op) value).unfolded =
      assign target.unfolded none (binary op target.unfolded value.unfolded) := by
  rw [unfolded_eq, mapChildren, expandAssign, if_pos hop]

/-- Adding and taking one away are no compound assignments of this kind, so they stay. -/
theorem unfolded_other {op : BinaryOp} (hop : op.isCompound = false) (target value : Node) :
    (assign target (some op) value).unfolded = assign target.unfolded (some op) value.unfolded := by
  rw [unfolded_eq, mapChildren, expandAssign, if_neg (by simp [hop])]

/-- Assignments stay assignments, and other nodes stay what they are. -/
theorem target?_unfolded (n : Node) : n.unfolded.target? = n.target?.map unfolded := by
  cases n with
  | assign target op value =>
      cases op with
      | none => rfl
      | some op =>
          cases hop : op.isCompound with
          | true => rw [unfolded_compound hop]; rfl
          | false => rw [unfolded_other hop]; rfl
  | _ => rfl

/-- Only operators between operands unfold to such. -/
theorem exists_binary_of_unfolded {op : BinaryOp} {left right : Node} (h : n.unfolded = binary op left right) :
    ∃ op left right, n = binary op left right := by
  cases n with
  | binary op left right => exact ⟨op, left, right, rfl⟩
  | assign target op value =>
      have htarget := target?_unfolded (assign target op value)
      rw [h] at htarget
      cases htarget
  | _ => cases h

/-- What depends on no node below, and is the same for all assignments, stays the same. -/
theorem apply_unfolded {α : Type} (f : Node → α) (hmap : ∀ n : Node, f (n.mapChildren unfolded) = f n)
    (hassign : ∀ t op v t' op' v', f (assign t op v) = f (assign t' op' v')) (n : Node) :
    f n.unfolded = f n := by
  cases htarget : n.target? with
  | none => rw [unfolded_of_target? htarget, hmap]
  | some target =>
      have h := target?_unfolded n
      rw [htarget] at h
      cases n with
      | assign t op v =>
          cases hunfolded : (assign t op v).unfolded with
          | assign => exact hassign ..
          | _ => rw [hunfolded] at h; cases h
      | _ => cases htarget

/-- What an assignment becomes binds as tightly as it did. -/
@[simp] theorem precedence_unfolded (n : Node) : n.unfolded.precedence = n.precedence := by
  refine apply_unfolded precedence (fun n => ?_) (fun _ _ _ _ _ _ => rfl) n
  cases n with
  | call _ _ callType _ => cases callType <;> rfl
  | _ => rfl

@[simp] theorem kindName_unfolded (n : Node) : n.unfolded.kindName = n.kindName :=
  apply_unfolded kindName (by rintro ⟨⟩ <;> rfl) (fun _ _ _ _ _ _ => rfl) n

@[simp] theorem isStatement_unfolded (n : Node) : n.unfolded.isStatement = n.isStatement := by
  rw [isStatement, isStatement, precedence_unfolded]

@[simp] theorem isIf_unfolded (n : Node) : n.unfolded.isIf = n.isIf :=
  apply_unfolded isIf (by rintro ⟨⟩ <;> rfl) (fun _ _ _ _ _ _ => rfl) n

@[simp] theorem isOne_unfolded (n : Node) : Source.isOne n.unfolded = Source.isOne n :=
  apply_unfolded Source.isOne (by rintro ⟨⟩ <;> rfl) (fun _ _ _ _ _ _ => rfl) n

@[simp] theorem bareName?_unfolded (n : Node) : Source.bareName? n.unfolded = Source.bareName? n :=
  apply_unfolded Source.bareName? (by rintro ⟨⟩ <;> rfl) (fun _ _ _ _ _ _ => rfl) n

@[simp] theorem standsApart_unfolded (n : Node) : Source.standsApart n.unfolded = Source.standsApart n :=
  apply_unfolded Source.standsApart (by rintro ⟨⟩ <;> rfl) (fun _ _ _ _ _ _ => rfl) n

@[simp] theorem wrapsOperand_unfolded (op : UnaryOp) (n : Node) :
    Source.wrapsOperand op n.unfolded = Source.wrapsOperand op n := by
  refine apply_unfolded (Source.wrapsOperand op) (fun n => ?_) (fun _ _ _ _ _ _ => rfl) n
  cases n with
  | call _ _ callType _ => cases callType <;> rfl
  | _ => rfl

@[simp] theorem associatesWith_unfolded (child parent : Node) :
    child.unfolded.associatesWith parent.unfolded = child.associatesWith parent := by
  have hchild : ∀ parent, child.unfolded.associatesWith parent = child.associatesWith parent := fun parent =>
    apply_unfolded (associatesWith · parent) (by rintro ⟨⟩ <;> cases parent <;> rfl)
      (fun _ _ _ _ _ _ => by cases parent <;> rfl) child
  rw [hchild]
  exact apply_unfolded (child.associatesWith ·) (by rintro ⟨⟩ <;> cases child <;> rfl)
    (fun _ _ _ _ _ _ => by cases child <;> rfl) parent

/-! ### Plain assignments that have a compound form -/

/-- No plain assignment in the tree gets or loses a compound form when the tree is unfolded. -/
def Discerned (n : Node) : Prop :=
  ∀ target value, assign target none value ∈ n.subnodes →
    (assign target.unfolded none value.unfolded).compound?.isSome = (assign target none value).compound?.isSome

/-- What is written in a discerned node is discerned. -/
theorem Discerned.of_written {c : Node} (h : n.Discerned) (hc : c ∈ n.written) : c.Discerned :=
  fun target value hmem => h target value ((below_of_mem_written hc).2 _ hmem)

/-- A discerned assignment has a compound form before and after. -/
theorem isSome_compound?_unfolded (h : n.Discerned) : n.unfolded.compound?.isSome = n.compound?.isSome := by
  cases n with
  | assign target op value =>
      cases op with
      | none => exact h target value (mem_subnodes.mpr (.inl rfl))
      | some op =>
          cases hop : op.isCompound with
          | true =>
              rw [unfolded_compound hop]
              simp [compound?, hop]
          | false =>
              rw [unfolded_other hop]
              rfl
  | _ => rfl

end Node

namespace Source

open Node

/-! ### What is written around a node -/

/-- Parentheses are put around operands by what stands at the top, which unfolding leaves as it is. -/
@[simp] theorem wrapsLeft_unfolded (parent child : Node) :
    wrapsLeft parent.unfolded child.unfolded = wrapsLeft parent child := by
  simp [wrapsLeft]

@[simp] theorem wrapsRight_unfolded (parent child : Node) :
    wrapsRight parent.unfolded child.unfolded = wrapsRight parent child := by
  simp [wrapsRight]

/-- So an operator and its operands are put together in the same way. -/
theorem infixTokens_unfolded (n left right : Node) (op : String) (l r : List String) :
    infixTokens n.unfolded left.unfolded right.unfolded op l r = infixTokens n left right op l r := by
  simp [infixTokens]

theorem assignedTokens_unfolded {value : Node} (h : value.Discerned) (ts : List String) :
    assignedTokens value.unfolded ts = assignedTokens value ts := by
  rw [assignedTokens, assignedTokens, isSome_compound?_unfolded h]

theorem compoundTokens_unfolded {value : Node} (h : value.Discerned) (op : BinaryOp) (ts : List String) :
    compoundTokens op value.unfolded ts = compoundTokens op value ts := by
  rw [compoundTokens.eq_def, compoundTokens.eq_def, isSome_compound?_unfolded h, isOne_unfolded]

end Source

namespace Node

open Source

variable {f : Node → Node} {ns : List Node}

/-! ### Lists of nodes -/

/-- Statements that are written alike one by one are written alike. -/
theorem statementTokens_map (h : ∀ n ∈ ns, (f n).tokens .statement = n.tokens .statement) :
    statementTokens (ns.map f) = statementTokens ns := by
  induction ns with
  | nil => rfl
  | cons n ns ih =>
      obtain ⟨hn, hns⟩ := List.forall_mem_cons.mp h
      rw [List.map_cons, statementTokens, statementTokens, hn, ih hns]

theorem restTokens_map (h : ∀ n ∈ ns, (f n).tokens .expression = n.tokens .expression) :
    restTokens (ns.map f) = restTokens ns := by
  induction ns with
  | nil => rfl
  | cons n ns ih =>
      obtain ⟨hn, hns⟩ := List.forall_mem_cons.mp h
      rw [List.map_cons, restTokens, restTokens, hn, ih hns]

theorem argumentTokens_map (h : ∀ n ∈ ns, (f n).tokens .expression = n.tokens .expression) :
    argumentTokens (ns.map f) = argumentTokens ns := by
  cases ns with
  | nil => rfl
  | cons n ns =>
      obtain ⟨hn, hns⟩ := List.forall_mem_cons.mp h
      rw [List.map_cons, argumentTokens, argumentTokens, hn, restTokens_map hns]

theorem packageTokens_map (h : ∀ n ∈ ns, (f n).tokens .statement = n.tokens .statement) :
    packageTokens (ns.map f) = packageTokens ns := by
  induction ns with
  | nil => rfl
  | cons n ns ih =>
      obtain ⟨hn, hns⟩ := List.forall_mem_cons.mp h
      rw [List.map_cons, packageTokens, packageTokens, hn, ih hns, List.isEmpty_map]

/-- What follows an `else` depends on whether it is another `if`. -/
theorem elseTokens_unfolded (h : ∀ n ∈ ns, n.unfolded.tokens .statement = n.tokens .statement) :
    elseTokens (ns.map unfolded) = elseTokens ns := by
  cases ns with
  | nil => rfl
  | cons n ns =>
      obtain ⟨hn, hns⟩ := List.forall_mem_cons.mp h
      rw [List.map_cons, elseTokens, elseTokens, hn, statementTokens_map hns, isIf_unfolded, List.isEmpty_map]

variable {o : Option Node}

theorem optionTokens_map (h : ∀ n ∈ o, (f n).tokens .expression = n.tokens .expression) :
    optionTokens (o.map f) = optionTokens o := by
  cases o with
  | none => rfl
  | some n => rw [Option.map_some, optionTokens, optionTokens, h n rfl]

theorem indexTokens_map (h : ∀ n ∈ o, (f n).tokens .expression = n.tokens .expression) :
    indexTokens (o.map f) = indexTokens o := by
  cases o with
  | none => rfl
  | some n => rw [Option.map_some, indexTokens, indexTokens, h n rfl]

theorem nameTokens_unfolded (h : ∀ n ∈ o, n.unfolded.tokens .expression = n.tokens .expression) :
    nameTokens (o.map unfolded) = nameTokens o := by
  cases o with
  | none => rfl
  | some n => rw [Option.map_some, nameTokens, nameTokens, h n rfl, bareName?_unfolded]

/-- The receiver of a method is put in parentheses in the same way. -/
theorem callTokens_unfolded (n : Node) (name : String) (nameSpace : Option String) (callType : CallType)
    (h : ∀ n ∈ ns, n.unfolded.tokens .expression = n.tokens .expression) :
    callTokens n.unfolded name nameSpace callType (ns.map unfolded) = callTokens n name nameSpace callType ns := by
  cases ns with
  | nil => rfl
  | cons a as =>
      obtain ⟨ha, has⟩ := List.forall_mem_cons.mp h
      rw [List.map_cons, callTokens, callTokens, ha]
      cases callType with
      | method => simp only [argumentTokens_map has, wrapsLeft_unfolded]
      | function | parent => simp only [restTokens_map has]

/-! ### Whole nodes -/

variable {n : Node} {pos : Position}

/-- The nodes written in the node are written in the same way when they are unfolded. -/
def WrittenAlike (n : Node) : Prop :=
  ∀ c ∈ n.written, ∀ pos, c.unfolded.tokens pos = c.tokens pos

/-- The two operands of an operator are written alike. -/
theorem WrittenAlike.pair {left right : Node} (h : n.WrittenAlike) (hwritten : n.written = [left, right]) :
    left.unfolded.tokens .expression = left.tokens .expression ∧
      right.unfolded.tokens .expression = right.tokens .expression :=
  ⟨h left (by simp [hwritten]) _, h right (by simp [hwritten]) _⟩

/-- Unfolding keeps the operator and what is in parentheses around it. -/
theorem tokens_unfolded_infix {left right : Node} {op : String} (h : n.WrittenAlike)
    (hparts : n.written = [left, right])
    (htokens : n.tokens pos = do
      let l ← left.tokens .expression
      let r ← right.tokens .expression
      pure (pos.value (infixTokens n left right op l r)))
    (hunfolded : n.unfolded.tokens pos = do
      let l ← left.unfolded.tokens .expression
      let r ← right.unfolded.tokens .expression
      pure (pos.value (infixTokens n.unfolded left.unfolded right.unfolded op l r))) :
    n.unfolded.tokens pos = n.tokens pos := by
  obtain ⟨hleft, hright⟩ := h.pair hparts
  rw [hunfolded, htokens, hleft, hright]
  simp only [infixTokens_unfolded]

/-- A field is written alike if its owner and its index are. -/
theorem tokens_unfolded_field {owner : Option Node} {name : String} {index : Option Node}
    (h : (field owner name index).WrittenAlike) :
    (field owner name index).unfolded.tokens pos = (field owner name index).tokens pos := by
  have hindex : indexTokens (index.map unfolded) = indexTokens index :=
    indexTokens_map fun n hn => h n (by simp [written, children, Option.mem_def.mp hn]) .expression
  cases owner with
  | none => rw [unfolded_of_target? rfl, mapChildren, Option.map_none, tokens, tokens, hindex]
  | some owner =>
      have howner := h owner (by simp [written, children]) .expression
      have hwraps := wrapsLeft_unfolded (field (some owner) name index) owner
      rw [unfolded_of_target? (n := field (some owner) name index) rfl, mapChildren, Option.map_some]
        at hwraps ⊢
      rw [tokens, tokens, howner, hindex]
      simp only [hwraps]

/-- A loop is, if its head and its statements are. -/
theorem tokens_unfolded_loop {kind : LoopKind} {init step : Option Node} {condition : Node} {body : List Node}
    (h : (loop kind init condition step body).WrittenAlike) :
    (loop kind init condition step body).unfolded.tokens pos = (loop kind init condition step body).tokens pos := by
  have hcondition := h condition (by cases kind <;> simp [written, children]) .expression
  have hbody : statementTokens (body.map unfolded) = statementTokens body :=
    statementTokens_map fun n hn => h n (by cases kind <;> simp [written, children, hn]) .statement
  rw [unfolded_of_target? rfl, mapChildren]
  cases kind with
  | whileLoop | doWhile => rw [tokens, tokens, hcondition, hbody]; rfl
  | forLoop =>
      have hinit : optionTokens (init.map unfolded) = optionTokens init :=
        optionTokens_map fun n hn => h n (by simp [written, children, Option.mem_def.mp hn]) .expression
      have hstep : optionTokens (step.map unfolded) = optionTokens step :=
        optionTokens_map fun n hn => h n (by simp [written, children, Option.mem_def.mp hn]) .expression
      rw [tokens, tokens, hcondition, hbody, hinit, hstep]
      rfl

/-- And an object, if its name, its arguments, its fields and its children are. -/
theorem tokens_unfolded_object {className : Node} {name : Option Node} {parent : Option String} {isDatablock : Bool}
    {args fields children : List Node} {depth : Nat}
    (h : (object className name parent isDatablock args fields children depth).WrittenAlike) :
    (object className name parent isDatablock args fields children depth).unfolded.tokens pos =
      (object className name parent isDatablock args fields children depth).tokens pos := by
  have hclass := h className (by simp [written, Node.children]) .expression
  have hname : nameTokens (name.map unfolded) = nameTokens name :=
    nameTokens_unfolded fun n hn => h n (by simp [written, Node.children, Option.mem_def.mp hn]) .expression
  have hargs : restTokens (args.map unfolded) = restTokens args :=
    restTokens_map fun n hn => h n (by simp [written, Node.children, hn]) .expression
  have hfields : statementTokens (fields.map unfolded) = statementTokens fields :=
    statementTokens_map fun n hn => h n (by simp [written, Node.children, hn]) .statement
  have hchildren : statementTokens (children.map unfolded) = statementTokens children :=
    statementTokens_map fun n hn => h n (by simp [written, Node.children, hn]) .statement
  rw [unfolded_of_target? rfl, mapChildren, tokens.eq_def, tokens.eq_def pos (object ..)]
  dsimp only
  rw [hclass, hname, hargs, hfields, hchildren, bareName?_unfolded, List.isEmpty_map, List.isEmpty_map,
    List.isEmpty_map]
  cases name <;> rfl

/-- **Assignments** are written alike if the question for a compound form has the same answer. -/
theorem tokens_unfolded_assign {target value : Node} {op : Option BinaryOp}
    (hdiscerned : (assign target op value).Discerned) (h : (assign target op value).WrittenAlike) :
    (assign target op value).unfolded.tokens pos = (assign target op value).tokens pos := by
  have htarget := h target (by cases op <;> cases value <;> simp [written, children]) .expression
  by_cases hbinary : op = none ∧ ∃ op l r, value = binary op l r
  · -- the operands of the value are written in its place
    obtain ⟨rfl, op, left, right, rfl⟩ := hbinary
    have hleft := h left (by simp [written]) .expression
    have hright := h right (by simp [written]) .expression
    have hform : (op.isCompound && left.unfolded == target.unfolded) = (op.isCompound && left == target) := by
      have hform := hdiscerned target (binary op left right) (mem_subnodes.mpr (.inl rfl))
      rw [unfolded_binary, compound?, compound?] at hform
      grind
    have hvalue : (binary op left right).Discerned := fun t v hmem =>
      hdiscerned t v (mem_subnodes.mpr (.inr ⟨binary op left right, by simp [children], hmem⟩))
    have hassigned := assignedTokens_unfolded hvalue
    have haround := infixTokens_unfolded (binary op left right) left right
    rw [unfolded_binary] at hassigned haround
    rw [unfolded_plain, unfolded_binary, tokens, tokens, htarget, hleft, hright, hform]
    simp only [hassigned, haround, compoundTokens_unfolded (hdiscerned.of_written (c := right) (by simp [written]))]
  · have hwritten : (assign target op value).written = [target, value] := written_assign hbinary
    have hvalue := h value (by simp [hwritten]) .expression
    have hbelow : value.Discerned := hdiscerned.of_written (by simp [hwritten])
    cases op with
    | none =>
        rw [unfolded_plain, tokens, tokens, htarget, hvalue]
        · simp only [assignedTokens_unfolded hbelow]
        · exact fun op l r h => hbinary ⟨rfl, op, l, r, h⟩
        · exact fun op l r h => hbinary ⟨rfl, exists_binary_of_unfolded h⟩
    | some op =>
        cases hop : op.isCompound with
        | false =>
            rw [unfolded_other hop, tokens, tokens, htarget, hvalue]
            simp only [compoundTokens_unfolded hbelow]
        | true =>
            rw [unfolded_compound hop, tokens, tokens, htarget, hvalue]
            simp only [hop, beq_self_eq_true, Bool.and_self, if_true, compoundTokens_unfolded hbelow]
            cases target.tokens .expression <;> rfl

/-- **Unfolding** compound assignments does not change what is written. -/
theorem tokens_unfolded (h : n.Discerned) (pos : Position) : n.unfolded.tokens pos = n.tokens pos := by
  induction n using writtenInduction generalizing pos with
  | h n ih =>
      have ih : n.WrittenAlike := fun c hc pos => ih c hc (h.of_written hc) pos
      cases n with
      | ret value =>
          cases value with
          | none => rfl
          | some value =>
              have hvalue := ih value (by simp [written, children]) .expression
              rw [unfolded_of_target? rfl, mapChildren, Option.map_some, tokens, tokens, hvalue]
              rfl
      | ifElse condition thenBody elseBody =>
          have hcondition := ih condition (by simp [written, children]) .expression
          have hthen : statementTokens (thenBody.map unfolded) = statementTokens thenBody :=
            statementTokens_map fun n hn => ih n (by simp [written, children, hn]) .statement
          have helse : elseTokens (elseBody.map unfolded) = elseTokens elseBody :=
            elseTokens_unfolded fun n hn => ih n (by simp [written, children, hn]) .statement
          rw [unfolded_of_target? rfl, mapChildren, tokens, tokens, hcondition, hthen, helse]
          rfl
      | loop => exact tokens_unfolded_loop ih
      | breakLoop | continueLoop | constant => rfl
      | unary op operand =>
          have hoperand := ih operand (by simp [written, children]) .expression
          rw [unfolded_of_target? rfl, mapChildren, tokens, tokens, hoperand, wrapsOperand_unfolded]
      | binary op left right =>
          exact tokens_unfolded_infix ih rfl (by rw [tokens]) (by rw [unfolded_binary, tokens])
      | compare | concat =>
          exact tokens_unfolded_infix ih rfl (by rw [tokens])
            (by rw [unfolded_of_target? rfl, mapChildren, tokens])
      | comma left right =>
          obtain ⟨hleft, hright⟩ := ih.pair rfl
          have hwraps := wrapsLeft_unfolded (comma left right) left
          have hwraps' := wrapsRight_unfolded (comma left right) right
          rw [unfolded_of_target? (n := comma left right) rfl, mapChildren] at hwraps hwraps' ⊢
          rw [tokens, tokens, hleft, hright]
          simp only [hwraps, hwraps']
      | conditional condition thenValue elseValue =>
          have hcondition := ih condition (by simp [written, children]) .expression
          have hthen := ih thenValue (by simp [written, children]) .expression
          have helse := ih elseValue (by simp [written, children]) .expression
          rw [unfolded_of_target? rfl, mapChildren, tokens, tokens, hcondition, hthen, helse]
          simp only [precedence_unfolded]
      | field => exact tokens_unfolded_field ih
      | var name index =>
          have hindex : indexTokens (index.map unfolded) = indexTokens index :=
            indexTokens_map fun n hn => ih n (by simp [written, children, Option.mem_def.mp hn]) .expression
          rw [unfolded_of_target? rfl, mapChildren, tokens, tokens, hindex]
      | assign => exact tokens_unfolded_assign h ih
      | object => exact tokens_unfolded_object ih
      | call name nameSpace callType args =>
          have hargs : ∀ n ∈ args, n.unfolded.tokens .expression = n.tokens .expression :=
            fun n hn => ih n (by simp [written, children, hn]) .expression
          have hcall := callTokens_unfolded (call name nameSpace callType args) name nameSpace callType hargs
          rw [unfolded_of_target? (n := call name nameSpace callType args) rfl, mapChildren] at hcall ⊢
          rw [tokens, tokens, hcall]
      | function signature body =>
          have hbody : statementTokens (body.map unfolded) = statementTokens body :=
            statementTokens_map fun n hn => ih n (by simp [written, children, hn]) .statement
          rw [unfolded_of_target? rfl, mapChildren, tokens, tokens, hbody]
          rfl
      | package name functions =>
          have hfunctions : packageTokens (functions.map unfolded) = packageTokens functions :=
            packageTokens_map fun n hn => ih n (by simp [written, children, hn]) .statement
          rw [unfolded_of_target? rfl, mapChildren, tokens, tokens, hfunctions]
          rfl

/-! ### Targets without assignments -/

/-- A plain assignment has a compound form if its value begins with its target. -/
theorem isSome_compound?_plain {target value : Node} : (assign target none value).compound?.isSome = true ↔
    ∃ op left right, value = binary op left right ∧ op.isCompound = true ∧ left = target := by
  cases value <;> simp [compound?]
  grind

/-- Unfolding makes no other left operand the target of an assignment. -/
theorem discerned_of_operands (h : ∀ target op left right, assign target none (binary op left right) ∈ n.subnodes →
    left.unfolded = target.unfolded → left = target) : n.Discerned := by
  intro target value hmem
  rw [Bool.eq_iff_iff, isSome_compound?_plain, isSome_compound?_plain]
  constructor
  · rintro ⟨op, left, right, hvalue, hop, hleft⟩
    obtain ⟨op', left', right', rfl⟩ := exists_binary_of_unfolded hvalue
    obtain ⟨rfl, rfl, rfl⟩ := binary.inj hvalue
    exact ⟨_, _, _, rfl, hop, h _ _ _ _ hmem hleft⟩
  · rintro ⟨op, left, right, rfl, hop, rfl⟩
    exact ⟨op, _, _, rfl, hop, rfl⟩

/-- The node is an assignment. -/
def isAssign (n : Node) : Bool :=
  n.target?.isSome

/-- No target of an assignment in the tree has an assignment in it. -/
def PlainTargets (n : Node) : Prop :=
  ∀ m ∈ n.subnodes, ∀ target ∈ m.target?, target.Free isAssign

instance (n : Node) : Decidable n.PlainTargets :=
  inferInstanceAs (Decidable (∀ m ∈ n.subnodes, ∀ target ∈ m.target?, ∀ k ∈ target.subnodes, k.isAssign = false))

/-- Without assignments there is nothing to unfold. -/
theorem unfolded_of_free (h : n.Free isAssign) : n.unfolded = n := by
  induction n using childrenInduction with
  | h n ih =>
      obtain ⟨hn, hchildren⟩ := free_iff.mp h
      rw [unfolded_of_target? (by simpa [isAssign] using hn)]
      exact (mapChildren_congr (g := id) fun c hc => ih c hc (hchildren c hc)).trans n.mapChildren_id

/-- Unfolding leaves an assignment in the place of each. -/
theorem free_of_unfolded (h : n.unfolded.Free isAssign) : n.Free isAssign := by
  induction n using childrenInduction with
  | h n ih =>
      obtain ⟨hn, hchildren⟩ := free_iff.mp h
      have htarget : n.target? = none := by simpa [isAssign, target?_unfolded] using hn
      rw [unfolded_of_target? htarget, children_mapChildren] at hchildren
      exact free_iff.mpr ⟨by simp [isAssign, htarget], fun c hc => ih c hc (hchildren _ (List.mem_map_of_mem hc))⟩

/-- **Plain targets** answer the same before and after. -/
theorem PlainTargets.discerned (h : n.PlainTargets) : n.Discerned := by
  refine discerned_of_operands fun target op left right hmem heq => ?_
  have htarget : target.Free isAssign := h _ hmem target rfl
  rw [unfolded_of_free htarget] at heq
  -- the operand has no assignment in it either
  rw [← heq, unfolded_of_free (free_of_unfolded (heq ▸ htarget))]

end Node

namespace Source

open Node

/-! ### Scripts -/

variable {nodes : List Node}

/-- Statements that follow others, with blank lines between some of them. -/
theorem followingTokens_unfolded (h : ∀ n ∈ nodes, n.Discerned) (previous : Node) :
    followingTokens previous.unfolded (nodes.map unfolded) = followingTokens previous nodes := by
  induction nodes generalizing previous with
  | nil => rfl
  | cons n nodes ih =>
      obtain ⟨hn, hnodes⟩ := List.forall_mem_cons.mp h
      rw [List.map_cons, followingTokens, followingTokens, tokens_unfolded hn, ih hnodes, standsApart_unfolded,
        standsApart_unfolded]

/-- **Scripts** are written alike. -/
theorem program_unfolded (h : ∀ n ∈ nodes, n.Discerned) : program (nodes.map unfolded) = program nodes := by
  cases nodes with
  | nil => rfl
  | cons n nodes =>
      obtain ⟨hn, hnodes⟩ := List.forall_mem_cons.mp h
      rw [program, program, List.map_cons, programTokens, programTokens, tokens_unfolded hn,
        followingTokens_unfolded hnodes]

end Source

end TorqueScript
