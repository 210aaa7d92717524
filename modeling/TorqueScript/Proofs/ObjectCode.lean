import TorqueScript.Proofs.Conditionals

/-!
# Code of object declarations

An `ObjectTree` is an object declaration without the depths that its nodes carry: class, name, arguments,
stores to its own fields and the objects declared inside it.  A stored value may be an object again.
`ObjectTree.code` compiles a tree, and `ObjectTree.node` is the node that the code stands for, with the depth
of every declaration.

All declarations share one counter of depths and one stack, from which the fields and the objects inside are
taken back by their looks.  `ObjectTree.performs` says that this works: wherever it is run, the code puts just
its node on the stack and leaves the counter as it was.
-/

namespace TorqueScript

/-! ### Trees and their code -/

/-- An expression in normal form. -/
def Expression := { n : Node // n.Normal }

/-- The name of an object: an expression, but no empty string. -/
def ObjectName := { n : Node // n.Normal ∧ n ≠ .constant (.str "") }

/-- What is pushed behind the class of an object: nothing at all, or a name and arguments. -/
inductive NameSlot where
  | absent
  | present (name : Option ObjectName) (args : List Expression)

namespace NameSlot

/-- The values that are pushed; an empty string stands for a missing name. -/
def pushed : NameSlot → List Node
  | absent => []
  | present name args => (name.map (·.1)).getD (.constant (.str "")) :: args.map (·.1)

/-- The name of the object. -/
def name? : NameSlot → Option Node
  | absent => none
  | present name _ => name.map (·.1)

/-- The arguments of the object. -/
def args : NameSlot → List Node
  | absent => []
  | present _ args => args.map (·.1)

end NameSlot

/-- A field of the object that is being declared. -/
structure OwnField where
  name : String
  index : Option Expression

/-- The operator of a compound assignment. -/
def CompoundOp := { o : BinaryOp // o.isCompound }

mutual

/-- An object declaration. -/
inductive ObjectTree where
  | object (className : Expression) (slot : NameSlot) (parent : Option String) (isDatablock : Bool)
      (fields : List FieldStore) (children : List ObjectTree)

/-- A store to a field of the object around it, with an operator or without. -/
inductive FieldStore where
  | expression (field : OwnField) (op : Option CompoundOp) (value : Expression)
  | object (field : OwnField) (op : Option CompoundOp) (value : ObjectTree)

end

namespace OwnField

/-- The field as a node. -/
def node (field : OwnField) : Node :=
  .field none field.name (field.index.map (·.1))

open Fragment

/-- Selects the field. -/
def code (field : OwnField) : Fragment :=
  match field.index with
  | none => op .selectNewObject ++ op (.selectField field.name)
  | some index =>
    index.1.code .read ++ op .advanceStr ++ (op .selectNewObject ++ op (.selectField field.name)) ++
      op .terminateRewindStr ++ op .selectFieldArray

/-- The code of a store; with an operator the field is read first. -/
def storeCode (field : OwnField) (update : Option CompoundOp) (value : Fragment) : Fragment :=
  match update with
  | none => value ++ field.code ++ typed .saveField ++ typed fun type => .convert type none
  | some o =>
    field.code ++ typed .loadField ++ value ++ op (.binary o.1) ++ field.code ++ typed .saveField ++
      typed fun type => .convert type none

end OwnField

/-- Begins an object declaration.  Where the machine goes on if it fails may depend on the position. -/
def Fragment.create (fail : Nat → Addr) (parent : Option String) (isDatablock : Bool) : Fragment where
  size := 1
  code L _ pos := [L.instr pos (.createObject parent isDatablock (fail pos))]
  addrs _ _ _ := rfl

section Code

open Fragment

variable (fail : Nat → Addr)

mutual

/-- The code of an object declaration.  A zero stands in front of those that are not inside another one. -/
def ObjectTree.code (outermost : Bool) : ObjectTree → Fragment
  | .object className slot parent isDatablock fields children =>
    (if outermost then op (.immediateUint 0) else empty) ++
      (op .pushFrame ++ Node.argumentCode (className.1 :: slot.pushed) ++ create fail parent isDatablock) ++
      fieldsCode fields ++ op (.addObject outermost) ++ childrenCode children ++ op (.endObject outermost)

/-- The code of a store to a field. -/
def FieldStore.code : FieldStore → Fragment
  | .expression field update value => field.storeCode update (value.1.code .read)
  | .object field update value => field.storeCode update (value.code true)

/-- The code of stores that follow each other. -/
def fieldsCode : List FieldStore → Fragment
  | [] => empty
  | store :: stores => store.code ++ fieldsCode stores

/-- The code of the objects inside an object. -/
def childrenCode : List ObjectTree → Fragment
  | [] => empty
  | child :: children => child.code false ++ childrenCode children

end

/-- The code of an object declaration as a statement. -/
def ObjectTree.statementCode (tree : ObjectTree) : Fragment :=
  tree.code fail true ++ typed fun type => .convert type none

end Code

mutual

/-- The node of an object declaration at a depth. -/
def ObjectTree.node (depth : Nat) : ObjectTree → Node
  | .object className slot parent isDatablock fields children =>
    .object className.1 slot.name? parent isDatablock slot.args (fieldNodes (depth + 1) fields)
      (childNodes (depth + 1) children) depth

/-- The node of a store to a field; an object that is stored is declared at the given depth. -/
def FieldStore.node (depth : Nat) : FieldStore → Node
  | .expression field update value => .assign field.node (update.map (·.1)) value.1
  | .object field update value => .assign field.node (update.map (·.1)) (value.node depth)

/-- The nodes of stores that follow each other. -/
def fieldNodes (depth : Nat) : List FieldStore → List Node
  | [] => []
  | store :: stores => store.node depth :: fieldNodes depth stores

/-- The nodes of objects at a depth. -/
def childNodes (depth : Nat) : List ObjectTree → List Node
  | [] => []
  | child :: children => child.node depth :: childNodes depth children

end

/-! ### Running the code -/

namespace Rebuild

namespace State

/-- The state with nodes on its stack, the last one on top. -/
def pushAll (s : State) (ns : List Node) : State :=
  { s with operands := (ns.map .node).reverse ++ s.operands }

theorem pushAll_cons (s : State) (n : Node) (ns : List Node) : s.pushAll (n :: ns) = (s.push n).pushAll ns := by
  simp [pushAll, push]

theorem pushAll_concat (s : State) (ns : List Node) (n : Node) :
    s.pushAll (ns ++ [n]) = (s.pushAll ns).push n := by
  simp [pushAll, push]

end State

variable {s t : State} {ins : Instruction}

/-- What has a property is taken off the stack, down to a node that does not have it. -/
theorem popWhile_pushAll {p : Operand → Bool} {ns : List Node} {m : Node} (hns : ∀ n ∈ ns, p (.node n))
    (hm : p (.node m) = false) :
    popWhile p ((s.push m).pushAll ns) = .ok (ns.map .node, s.push m) := by
  have hall : ∀ o ∈ (ns.map Operand.node).reverse, p o := by
    simpa using hns
  have htake : ((ns.map Operand.node).reverse ++ Operand.node m :: s.operands).takeWhile p =
      (ns.map Operand.node).reverse := by
    rw [List.takeWhile_append_of_pos hall, List.takeWhile_cons_of_neg (by simp [hm]), List.append_nil]
  have hdrop : ((ns.map Operand.node).reverse ++ Operand.node m :: s.operands).dropWhile p =
      .node m :: s.operands := by
    rw [List.dropWhile_append_of_pos hall, List.dropWhile_cons_of_neg (by simp [hm])]
  have hpop : ∀ s : State, popWhile p s =
    .ok ((s.operands.takeWhile p).reverse, { s with operands := s.operands.dropWhile p }) := fun _ => rfl
  rw [hpop, State.pushAll, State.push]
  dsimp only
  rw [htake, hdrop, List.reverse_reverse]

/-- The nodes among operands that are all nodes. -/
theorem nodes_map (ns : List Node) : nodes (ns.map .node) = ns := by
  induction ns with
  | nil => rfl
  | cons n ns ih => exact congrArg (n :: ·) ih

section Objects

variable {className : Node} {name : Option Node} {parent : Option String} {isDatablock : Bool}
  {args fields children : List Node} {depth : Nat}

/-- The object being declared gets back from the stack changed, if it has the right depth. -/
theorem updateObject_push {between : Rebuild Unit} {update : Node → Node} (hbetween : between s = .ok ((), t)) :
    updateObject ins depth between update
        (s.push (.object className name parent isDatablock args fields children depth)) =
      .ok ((), t.push (update (.object className name parent isDatablock args fields children depth))) := by
  rw [updateObject, bind_ok (pop_push rfl)]
  dsimp only
  rw [if_pos rfl, bind_ok hbetween, push_apply]

/-- The placeholder is popped where it was pushed. -/
theorem popPlaceholder_push : popPlaceholder ins (s.push (.constant (.uint 0))) = .ok ((), s) := by
  rw [popPlaceholder, bind_ok (pop_push rfl)]
  rfl

/-- The state with the zero that stands before an outermost declaration. -/
def State.placed (s : State) (outermost : Bool) : State :=
  if outermost then s.push (.constant (.uint 0)) else s

/-- **Creating an object takes its arguments from the frame** and leaves it on the stack. -/
theorem step_createObject {fail : Addr} {slot : NameSlot}
    (hins : ins.operation = .createObject parent isDatablock fail) :
    step ins { s with frames := ((className :: slot.pushed).reverse ++ []) :: s.frames } =
      .ok ((), { s.push (.object className slot.name? parent isDatablock slot.args [] [] s.objectDepth) with
        objectDepth := s.objectDepth + 1 }) := by
  have hname : objectName? slot.pushed.head? = slot.name? := by
    cases slot with
    | absent => rfl
    | present name args =>
        cases name with
        | none => rfl
        | some name =>
            show objectName? (some name.1) = some name.1
            unfold objectName?
            split
            · next h => exact absurd (Option.some.inj h) name.2.2
            · rfl
  have hargs : slot.pushed.tail = slot.args := by
    cases slot <;> rfl
  simp only [step, hins]
  rw [createObject, bind_ok (t := s) (a := className :: slot.pushed) (by simp [popFrame])]
  show Except.ok _ = _
  rw [hname, hargs]
  rfl

/-- Adding an object takes the fields off the stack and gives them to it. -/
theorem addObject_eq {outermost : Bool} (h : s.objectDepth = depth + 1) :
    addObject ins outermost s = (do
      let fields ← popWhile isOwnField
      updateObject ins depth (if outermost then popPlaceholder ins else pure ())
        (withFields (nodes fields))) s := by
  rw [addObject, bind_ok rfl]
  simp only [h]

/-- Ending an object takes the children off the stack and gives them to it. -/
theorem endObject_eq (h : s.objectDepth = depth + 1) :
    endObject ins s = (do
      let children ← popWhile (isObjectAt (depth + 1))
      updateObject ins depth (pure ()) (withChildren (nodes children))) { s with objectDepth := depth } := by
  rw [endObject, bind_ok rfl]
  simp only [h]
  rfl

/-- **The fields of an object** are the stores on top of it. -/
theorem step_addObject {outermost : Bool} {stores : List Node} (hins : ins.operation = .addObject outermost)
    (hstores : ∀ n ∈ stores, isOwnField (.node n)) (hdepth : s.objectDepth = depth + 1) :
    step ins (((s.placed outermost).push
        (.object className name parent isDatablock args fields children depth)).pushAll stores) =
      .ok ((), s.push (.object className name parent isDatablock args stores children depth)) := by
  have hplaced : (s.placed outermost).objectDepth = depth + 1 := by
    cases outermost <;> exact hdepth
  have hbetween : (if outermost then popPlaceholder ins else pure ()) (s.placed outermost) = .ok ((), s) := by
    cases outermost with
    | false => rfl
    | true => exact popPlaceholder_push
  simp only [step, hins]
  refine (addObject_eq (by exact hplaced)).trans ?_
  rw [bind_ok (popWhile_pushAll hstores rfl), updateObject_push hbetween, nodes_map]
  rfl

/-- **The objects inside an object** are those on top of it that are declared one level deeper. -/
theorem step_endObject {outermost : Bool} {inner : List Node} (hins : ins.operation = .endObject outermost)
    (hinner : ∀ n ∈ inner, isObjectAt (depth + 1) (.node n)) (hdepth : s.objectDepth = depth) :
    step ins ((({ s with objectDepth := depth + 1 } : State).push
        (.object className name parent isDatablock args fields children depth)).pushAll inner) =
      .ok ((), s.push (.object className name parent isDatablock args fields inner depth)) := by
  have hself : isObjectAt (depth + 1) (.node
      (.object className name parent isDatablock args fields children depth)) = false := by
    simp [isObjectAt]
  have hs : ({ s with objectDepth := depth } : State) = s := by rw [← hdepth]
  simp only [step, hins]
  rw [endObject_eq rfl]
  change (popWhile _ >>= _) ((({ s with objectDepth := depth } : State).push _).pushAll inner) = _
  rw [hs, bind_ok (popWhile_pushAll hinner hself), updateObject_push rfl, nodes_map]
  rfl

end Objects

/-- Without an object selected, a field is one of the object being created. -/
theorem step_selectOwnField {name : String} (hins : ins.operation = .selectField name)
    (hs : s.fieldOwner = .implicit) :
    step ins { s with fieldOwner := .newObject } = .ok ((), s.push (.field none name none)) := by
  have e : ({ s with fieldOwner := .implicit } : State) = s := by rw [← hs]
  simp only [step, hins]
  show Except.ok ((), ({ s with fieldOwner := .implicit } : State).push _) = _
  rw [e]

/-- Its index comes from the stack. -/
theorem step_selectOwnFieldArray {name : String} {index : Node} (hins : ins.operation = .selectFieldArray)
    (hi : index.asExpression = .ok index) :
    step ins ((s.push (.field none name none)).push index) = .ok ((), s.push (.field none name (some index))) := by
  simp only [step, hins]
  rw [indexField, bind_ok (pop_push hi), bind_ok (pop_push rfl)]
  rfl

end Rebuild

open Rebuild

namespace OwnField

variable {s : State}

/-- The code of a field of the object being declared selects it. -/
theorem performs_code (field : OwnField) (hs : s.fieldOwner = .implicit) :
    Performs field.code s (s.push field.node) := by
  obtain ⟨name, index⟩ := field
  have hselect : ∀ s : State, s.fieldOwner = .implicit →
      Performs (.op .selectNewObject ++ .op (.selectField name)) s (s.push (.field none name none)) := by
    intro s hs
    have hnew : Performs (.op .selectNewObject) s { s with fieldOwner := .newObject } := by
      refine .op rfl rfl fun ins h => ?_
      simp only [step, h]
      rfl
    exact hnew.append (.op rfl rfl fun ins h => step_selectOwnField h hs)
  cases index with
  | none => exact hselect s hs
  | some index =>
      have hi := index.2.asExpression_eq
      have hhold : Performs (.op .advanceStr) (s.push index.1) (s.hold index.1 (.join .plain)) :=
        .op rfl rfl fun ins h => step_join .plain h hi
      have hswap : Performs (.op .terminateRewindStr)
          ((s.hold index.1 (.join .plain)).push (.field none name none))
          ((s.push (.field none name none)).push index.1) :=
        .op rfl rfl fun ins h => step_terminate h
      have hindexed := (((index.2.performs_access.1 s hs).append hhold).append (hselect _ hs)).append hswap
      exact hindexed.append (.op rfl rfl fun ins h => step_selectOwnFieldArray h hi)

/-- A store of a value that does not begin with the field itself. -/
theorem performs_storeCode (field : OwnField) (update : Option CompoundOp) {value : Fragment} {v : Node}
    (hv : v.asExpression = .ok v) (hplain : assignment field.node v = .assign field.node none v)
    (h : ∀ t : State, t.fieldOwner = .implicit → t.objectDepth = s.objectDepth → Performs value t (t.push v))
    (hs : s.fieldOwner = .implicit) :
    Performs (field.storeCode update value) s (s.push (.assign field.node (update.map (·.1)) v)) := by
  have hsave : ∀ w, w.asExpression = .ok w → Performs (.typed .saveField) ((s.push w).push field.node)
      (s.push (assignment field.node w)) :=
    fun w hw => .typed rfl rfl fun ins type h => step_saveField h hw
  have hdrop : ∀ n, Performs (.typed fun type => .convert type none) (s.push n) (s.push n) := by
    intro n
    refine .typed rfl rfl fun ins type h => ?_
    simp only [step, h]
    rfl
  cases update with
  | none =>
      have hrun := (((h s hs rfl).append (field.performs_code hs)).append (hsave v hv)).append (hdrop _)
      rwa [hplain] at hrun
  | some o =>
      -- the field is read, the operator applied, and the field written
      have hbinary : (Node.binary o.1 field.node v).asExpression = .ok (.binary o.1 field.node v) := by
        cases o.1 <;> rfl
      have hassign : assignment field.node (.binary o.1 field.node v) = .assign field.node (some o.1) v := by
        simp [assignment, o.2]
      have hload : Performs (.typed .loadField) (s.push field.node) (s.push field.node) := by
        refine .typed rfl rfl fun ins type h => ?_
        simp only [step, h]
        rfl
      have hvalue := ((field.performs_code hs).append hload).append (h (s.push field.node) hs rfl)
      have hop : Performs (.op (.binary o.1)) ((s.push field.node).push v) (s.push (.binary o.1 field.node v)) :=
        .op rfl rfl fun ins h => step_binary h rfl hv
      have hwrite := ((hvalue.append hop).append (field.performs_code hs)).append (hsave _ hbinary)
      have hrun := hwrite.append (hdrop _)
      rwa [hassign] at hrun

/-- No expression reads a field of the object being declared. -/
theorem assignment_eq (field : OwnField) {v : Node} (hv : v.Normal) :
    assignment field.node v = .assign field.node none v := by
  unfold assignment
  split
  · next o l r =>
      refine if_neg fun h => ?_
      simp only [Bool.and_eq_true, beq_iff_eq] at h
      cases hv with
      | binary _ hl _ =>
          rw [h.2] at hl
          cases hl
  · rfl

end OwnField

section Run

variable {fail : Nat → Addr} {s : State}

/-- The class and the name of an object are normal. -/
theorem normal_of_mem (className : Expression) (slot : NameSlot) : ∀ a ∈ className.1 :: slot.pushed, a.Normal := by
  refine List.forall_mem_cons.mpr ⟨className.2, ?_⟩
  cases slot with
  | absent => exact List.forall_mem_nil _
  | present name args =>
      refine List.forall_mem_cons.mpr ⟨?_, fun a ha => ?_⟩
      · cases name with
        | none => exact .constant _
        | some name => exact name.2.1
      · obtain ⟨arg, -, rfl⟩ := List.mem_map.mp ha
        exact arg.2

/-- The frame of an object is collected, and the object begins. -/
theorem performs_create (fail : Nat → Addr) (className : Expression) (slot : NameSlot) (parent : Option String)
    (isDatablock : Bool) (hs : s.fieldOwner = .implicit) :
    Performs (.op .pushFrame ++ Node.argumentCode (className.1 :: slot.pushed) ++
        .create fail parent isDatablock) s
      { s.push (.object className.1 slot.name? parent isDatablock slot.args [] [] s.objectDepth) with
        objectDepth := s.objectDepth + 1 } := by
  have hnormal := normal_of_mem className slot
  have hframe : Performs (.op .pushFrame) s { s with frames := [] :: s.frames } := by
    refine .op rfl rfl fun ins h => ?_
    simp only [step, h]
    rfl
  have hargs := Node.performs_argumentCode (fun a ha => (hnormal a ha).asExpression_eq)
    (fun a ha => (hnormal a ha).performs_access.1) hs [] s.frames
  refine (hframe.append hargs).append ⟨⟨rfl, rfl⟩, fun L exit pos hq => ?_⟩
  exact (Finishes.region (run_plain L pos _) hq (by simp [Fragment.create]) (step_createObject rfl)).leads _

/-- The nodes of field stores are fields of the object. -/
theorem isOwnField_of_mem {depth : Nat} : ∀ {stores : List FieldStore}, ∀ n ∈ fieldNodes depth stores,
    isOwnField (.node n)
  | [], n, h => by simp [fieldNodes] at h
  | store :: stores, n, h => by
      rw [fieldNodes, List.mem_cons] at h
      rcases h with rfl | h
      · cases store <;> simp [FieldStore.node, OwnField.node, isOwnField]
      · exact isOwnField_of_mem n h

/-- The nodes of children are objects one level deeper. -/
theorem isObjectAt_of_mem {depth : Nat} : ∀ {children : List ObjectTree}, ∀ n ∈ childNodes depth children,
    isObjectAt depth (.node n)
  | [], n, h => by simp [childNodes] at h
  | child :: children, n, h => by
      rw [childNodes, List.mem_cons] at h
      rcases h with rfl | h
      · cases child
        simp [ObjectTree.node, isObjectAt]
      · exact isObjectAt_of_mem n h

mutual

/-- **The code of an object declaration** puts its node on the stack, at the depth it finds. -/
theorem ObjectTree.performs (outermost : Bool) : ∀ (tree : ObjectTree) (s : State), s.fieldOwner = .implicit →
    Performs (tree.code fail outermost) s (s.push (tree.node s.objectDepth))
  | .object className slot parent isDatablock fields children, s, hs => by
      let start : Node := .object className.1 slot.name? parent isDatablock slot.args [] [] s.objectDepth
      let stored : Node := .object className.1 slot.name? parent isDatablock slot.args
        (fieldNodes (s.objectDepth + 1) fields) [] s.objectDepth
      -- inside the declaration the counter is one higher
      let inside : State := { s with objectDepth := s.objectDepth + 1 }
      have hplaced : (s.placed outermost).fieldOwner = .implicit ∧
          (s.placed outermost).objectDepth = s.objectDepth := by
        cases outermost <;> exact ⟨hs, rfl⟩
      have hplace : Performs (if outermost then .op (.immediateUint 0) else .empty) s (s.placed outermost) := by
        cases outermost with
        | false => exact .empty
        | true =>
            refine .op rfl rfl fun ins h => ?_
            simp only [step, h]
            rfl
      have hcreate : Performs (.op .pushFrame ++ Node.argumentCode (className.1 :: slot.pushed) ++
          .create fail parent isDatablock) (s.placed outermost) ((inside.placed outermost).push start) := by
        have hrun := performs_create fail className slot parent isDatablock hplaced.1
        rw [hplaced.2] at hrun
        cases outermost <;> exact hrun
      have hstart : ((inside.placed outermost).push start).fieldOwner = .implicit ∧
          ((inside.placed outermost).push start).objectDepth = s.objectDepth + 1 := by
        cases outermost <;> exact ⟨hs, rfl⟩
      have hfields := performs_fieldsCode fields ((inside.placed outermost).push start) hstart.1
      rw [hstart.2] at hfields
      have hadd : Performs (.op (.addObject outermost))
          (((inside.placed outermost).push start).pushAll (fieldNodes (s.objectDepth + 1) fields))
          (inside.push stored) := by
        refine .op ?_ ?_ fun ins h => step_addObject h isOwnField_of_mem rfl
        · cases outermost <;> rfl
        · cases outermost <;> rfl
      have hchildren := performs_childrenCode children (inside.push stored) hs
      have hend : Performs (.op (.endObject outermost))
          ((inside.push stored).pushAll (childNodes (s.objectDepth + 1) children))
          (s.push ((ObjectTree.object className slot parent isDatablock fields children).node s.objectDepth)) :=
        .op rfl rfl fun ins h => step_endObject h isObjectAt_of_mem rfl
      exact ((((hplace.append hcreate).append hfields).append hadd).append hchildren).append hend

/-- The code of a store puts it on the stack. -/
theorem FieldStore.performs : ∀ (store : FieldStore) (s : State), s.fieldOwner = .implicit →
    Performs (store.code fail) s (s.push (store.node s.objectDepth))
  | .expression field update value, s, hs => by
      exact field.performs_storeCode update value.2.asExpression_eq (field.assignment_eq value.2)
        (fun t ht _ => value.2.performs_access.1 t ht) hs
  | .object field update value, s, hs => by
      refine field.performs_storeCode update ?_ ?_ (fun t ht hdepth => ?_) hs
      · cases value; rfl
      · cases value; rfl
      · rw [← hdepth]
        exact value.performs true t ht

/-- **Field stores perform one after the other.** -/
theorem performs_fieldsCode : ∀ (stores : List FieldStore) (s : State), s.fieldOwner = .implicit →
    Performs (fieldsCode fail stores) s (s.pushAll (fieldNodes s.objectDepth stores))
  | [], s, _ => .empty
  | store :: stores, s, hs => by
      rw [fieldsCode, fieldNodes, State.pushAll_cons]
      exact (store.performs s hs).append (performs_fieldsCode stores (s.push _) hs)

/-- **Children perform one after the other.** -/
theorem performs_childrenCode : ∀ (children : List ObjectTree) (s : State), s.fieldOwner = .implicit →
    Performs (childrenCode fail children) s (s.pushAll (childNodes s.objectDepth children))
  | [], s, _ => .empty
  | child :: children, s, hs => by
      rw [childrenCode, childNodes, State.pushAll_cons]
      exact (child.performs false s hs).append (performs_childrenCode children (s.push _) hs)

end

end Run

end TorqueScript
