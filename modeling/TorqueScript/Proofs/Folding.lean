import TorqueScript.Proofs.Compounds
import TorqueScript.Proofs.Evaluation
import TorqueScript.Proofs.Packages

/-!
# Compound assignments of rebuilt trees

Rebuilding assigns to variables and fields, and makes a compound assignment as soon as the value begins with the
target.  A tree is settled if all its assignments are like that (`Node.Settled`).

**Folding** (`Node.folded_unfolded`).  A settled tree comes back from its unfolded form, so different settled trees
have different unfolded forms (`Node.unfolded_inj`).  Hence what rebuilding asks of trees has the same answer for
the unfolded ones: whether two of them are the same, and whether one contains a variable or a field
(`Node.contains_unfolded`).  And what rebuilding makes of settled trees is settled, and is made of their unfolded
forms in the same way, but for assignments: there the unfolded form is the plain one
(`Rebuild.assignment_unfolded`).
-/

namespace TorqueScript

namespace Node

variable {n m : Node}

/-! ### Folding back -/

/-- A plain assignment as rebuilding makes it. -/
def contractAssign : Node → Node
  | assign target none value => Rebuild.assignment target value
  | n => n

/-- The node with all plain assignments, in it and below it, as rebuilding makes them. -/
def folded (n : Node) : Node :=
  n.rewrite contractAssign

/-- An assignment that rebuilding does not make: to something else than a variable or a field, or a plain one that
has a compound form. -/
def isForeign : Node → Bool
  | assign target op value => !target.isPlace || op.isNone && (assign target op value).compound?.isSome
  | _ => false

/-- All assignments in the tree are as rebuilding makes them. -/
abbrev Settled (n : Node) : Prop :=
  n.Free isForeign

/-- Only an assignment can be foreign. -/
theorem isForeign_of_target? (h : n.target? = none) : n.isForeign = false := by
  cases n <;> first | rfl | cases h

/-- Only variables and fields are assigned to. -/
theorem Settled.isPlace {target value : Node} {op : Option BinaryOp} (h : (assign target op value).Settled) :
    target.isPlace = true := by
  have h := (free_iff.mp h).1
  simp only [isForeign, Bool.or_eq_false_iff, Bool.not_eq_false'] at h
  exact h.1

/-- Folding an assignment folds its sides and contracts the whole. -/
theorem folded_assign (target : Node) (op : Option BinaryOp) (value : Node) :
    (assign target op value).folded = (assign target.folded op value.folded).contractAssign := rfl

/-- A store of an operation on its own target contracts. -/
theorem contractAssign_compound {op : BinaryOp} (hop : op.isCompound = true) (target value : Node) :
    (assign target none (binary op target value)).contractAssign = assign target (some op) value := by
  simp [contractAssign, Rebuild.assignment, hop]

/-- A store that is not foreign does not. -/
theorem contractAssign_plain {target value : Node} (h : (assign target none value).isForeign = false) :
    (assign target none value).contractAssign = assign target none value := by
  simp only [isForeign, Option.isNone_none, Bool.true_and, Bool.or_eq_false_iff,
    Option.isSome_eq_false_iff, Option.isNone_iff_eq_none] at h
  exact assignment_eq h.2

/-- **Folding** takes unfolding back on what rebuilding makes. -/
theorem folded_unfolded (h : n.Settled) : n.unfolded.folded = n := by
  induction n using childrenInduction with
  | h n ih =>
      obtain ⟨hn, hchildren⟩ := free_iff.mp h
      have ih : ∀ c ∈ n.children, c.unfolded.folded = c := fun c hc => ih c hc (hchildren c hc)
      cases n with
      | assign target op value =>
          have htarget := ih target (by simp [children])
          have hvalue := ih value (by simp [children])
          cases op with
          | none => rw [unfolded_plain, folded_assign, htarget, hvalue, contractAssign_plain hn]
          | some op =>
              cases hop : op.isCompound with
              | true =>
                  have hbinary : (binary op target.unfolded value.unfolded).folded =
                      binary op target.unfolded.folded value.unfolded.folded := rfl
                  rw [unfolded_compound hop, folded_assign, hbinary, htarget, hvalue, contractAssign_compound hop]
              | false =>
                  rw [unfolded_other hop, folded_assign, htarget, hvalue]
                  rfl
      | _ =>
          rw [unfolded_of_target? rfl, folded, rewrite_eq, mapChildren_mapChildren]
          exact congrArg contractAssign ((mapChildren_congr (g := id) ih).trans (mapChildren_id _))

/-- **On settled nodes unfolding is injective.** -/
theorem unfolded_inj (hn : n.Settled) (hm : m.Settled) : n.unfolded = m.unfolded ↔ n = m :=
  ⟨fun h => by rw [← folded_unfolded hn, h, folded_unfolded hm], congrArg _⟩

/-- A part of a tree is free of what the tree is free of. -/
theorem Free.below {p : Node → Bool} (h : n.Free p) (hm : m ∈ n.subnodes) : m.Free p := by
  induction n using childrenInduction with
  | h n ih =>
      rcases mem_subnodes.mp hm with rfl | ⟨c, hc, hm⟩
      · exact h
      · exact ih c hc (h.child hc) hm

/-- Settled nodes are discerned. -/
theorem Settled.discerned (h : n.Settled) : n.Discerned := by
  refine discerned_of_operands fun target op left right hmem => ?_
  have hassign := h.below hmem
  have hvalue : (binary op left right).Settled := hassign.child (by simp [children])
  exact (unfolded_inj (hvalue.child (by simp [children])) (hassign.child (by simp [children]))).mp

/-! ### What rebuilding asks of nodes -/

/-- A node that is unfolded to something else than an assignment has it below it in the same place. -/
theorem mapChildren_of_unfolded (h : n.unfolded = m) (hm : m.target? = none) : n.mapChildren unfolded = m := by
  have htarget : n.target? = none := by simpa [h, hm] using (target?_unfolded n).symm
  rw [← h, unfolded_of_target? htarget]

/-- The node is a variable. -/
def isVar : Node → Bool
  | var .. => true
  | _ => false

/-- The node is a field. -/
def isField : Node → Bool
  | field .. => true
  | _ => false

theorem isPlace_of_isVar (h : n.isVar = true) : n.isPlace = true := by
  cases n <;> first | rfl | cases h

theorem isPlace_of_isField (h : n.isField = true) : n.isPlace = true := by
  cases n <;> first | rfl | cases h

theorem isVar_unfolded (n : Node) : n.unfolded.isVar = n.isVar :=
  apply_unfolded isVar (by rintro ⟨⟩ <;> rfl) (fun _ _ _ _ _ _ => rfl) n

theorem isField_unfolded (n : Node) : n.unfolded.isField = n.isField :=
  apply_unfolded isField (by rintro ⟨⟩ <;> rfl) (fun _ _ _ _ _ _ => rfl) n

/-- Unfolding keeps the function a node is declared in. -/
@[simp] theorem declaredIn?_unfolded (n : Node) : n.unfolded.declaredIn? = n.declaredIn? :=
  apply_unfolded declaredIn? (by rintro ⟨⟩ <;> rfl) (fun _ _ _ _ _ _ => rfl) n

@[simp] theorem packageName?_unfolded (n : Node) : n.unfolded.packageName? = n.packageName? :=
  apply_unfolded packageName? (by rintro ⟨⟩ <;> rfl) (fun _ _ _ _ _ _ => rfl) n

/-! A node of a certain form comes from one of the same form. -/

/-- A join with a constant comes from a join with the same constant. -/
theorem joined_of_unfolded {join : Join} {c : Constant} {index : Node}
    (h : n.unfolded = concat join (constant c) index) : ∃ index, n = concat join (constant c) index := by
  have hn := mapChildren_of_unfolded h rfl
  cases n with
  | concat join left index =>
      obtain ⟨rfl, hleft, -⟩ := concat.inj hn
      have hleft := mapChildren_of_unfolded hleft rfl
      cases left with
      | constant => cases hleft; exact ⟨index, rfl⟩
      | _ => cases hleft
  | _ => cases hn

/-- A variable comes from a variable. -/
theorem var_of_unfolded {name : String} {index : Option Node} (h : n.unfolded = var name index) :
    ∃ index', n = var name index' ∧ index'.map unfolded = index := by
  have hn := mapChildren_of_unfolded h rfl
  cases n with
  | var => cases hn; exact ⟨_, rfl, rfl⟩
  | _ => cases hn

/-- A field comes from a field. -/
theorem field_of_unfolded {owner index : Option Node} {name : String} (h : n.unfolded = field owner name index) :
    ∃ owner' index', n = field owner' name index' ∧ index'.map unfolded = index := by
  have hn := mapChildren_of_unfolded h rfl
  cases n with
  | field => cases hn; exact ⟨_, _, rfl, rfl⟩
  | _ => cases hn

theorem constant_of_unfolded {c : Constant} (h : n.unfolded = constant c) : n = constant c := by
  have hn := mapChildren_of_unfolded h rfl
  cases n with
  | constant => exact hn
  | _ => cases hn

/-- An assignment unfolds to an assignment of the same target. -/
theorem exists_unfolded_assign (target : Node) (op : Option BinaryOp) (value : Node) :
    ∃ op' value', (assign target op value).unfolded = assign target.unfolded op' value' := by
  have h := target?_unfolded (assign target op value)
  cases hunfolded : (assign target op value).unfolded with
  | assign => rw [hunfolded] at h; cases h; exact ⟨_, _, rfl⟩
  | _ => rw [hunfolded] at h; cases h

/-- A conditional expression comes from one. -/
theorem ifElse_of_unfolded {c t e : Node} (h : n.unfolded = ifElse c [t] [e]) : ∃ c t e, n = ifElse c [t] [e] := by
  have hn := mapChildren_of_unfolded h rfl
  cases n with
  | ifElse c thenBody elseBody =>
      obtain ⟨-, hthen, helse⟩ := ifElse.inj hn
      obtain ⟨t, rfl, -⟩ := List.map_eq_singleton_iff.mp hthen
      obtain ⟨e, rfl, -⟩ := List.map_eq_singleton_iff.mp helse
      exact ⟨c, t, e, rfl⟩
  | _ => cases hn

/-- Any other node is an expression exactly if it is after unfolding. -/
theorem asExpression_other (h : ∀ c t e, n ≠ ifElse c [t] [e]) :
    n.unfolded.asExpression = if n.isStatement then throw n.kindName else pure n.unfolded := by
  rw [asExpression, isStatement_unfolded, kindName_unfolded]
  intro c t e hn
  obtain ⟨c, t, e, rfl⟩ := ifElse_of_unfolded hn
  exact h c t e rfl

/-- **Taking a node as an expression commutes with unfolding.** -/
theorem asExpression_unfolded (n : Node) : n.unfolded.asExpression = n.asExpression.map unfolded := by
  fun_induction asExpression n with
  | case1 c t e iht ihe =>
      have hchoice : (ifElse c [t] [e]).unfolded = ifElse c.unfolded [t.unfolded] [e.unfolded] := rfl
      rw [hchoice, asExpression, iht, ihe]
      cases t.asExpression with
      | error => rfl
      | ok t => cases e.asExpression <;> rfl
  | case2 n hother hn => rw [asExpression_other hother, if_pos hn]; rfl
  | case3 n hother hn => rw [asExpression_other hother, if_neg hn]; rfl

/-- So does negation. -/
theorem negate_unfolded (n : Node) : n.negate.unfolded = n.unfolded.negate := by
  cases n with
  | unary op operand => cases op <;> rfl
  | assign target op value =>
      cases op with
      | none => rfl
      | some op =>
          have hnegate : (assign target (some op) value).negate = unary .not (assign target (some op) value) := rfl
          have hunary : ∀ n : Node, (unary .not n).unfolded = unary .not n.unfolded := fun _ => rfl
          rw [hnegate, hunary]
          cases hop : op.isCompound with
          | true => rw [unfolded_compound hop]; rfl
          | false => rw [unfolded_other hop]; rfl
  | _ => rfl

/-- Other nodes than binary ones occur in the unfolded tree where they do in the tree. -/
theorem mem_subnodes_unfolded {k : Node} (hk : ∀ op l r, k ≠ binary op l r) :
    k ∈ n.unfolded.subnodes ↔ ∃ m ∈ n.subnodes, m.unfolded = k := by
  induction n using childrenInduction with
  | h n ih =>
      have hbelow : (∃ c ∈ n.unfolded.children, k ∈ c.subnodes) ↔ ∃ c ∈ n.children, k ∈ c.unfolded.subnodes := by
        cases n with
        | assign target op value =>
            cases op with
            | none => simp [unfolded_plain, children]
            | some op =>
                cases hop : op.isCompound with
                | true => simp [unfolded_compound hop, children, mem_subnodes (n := binary ..), hk]
                | false => simp [unfolded_other hop, children]
        | _ => rw [unfolded_of_target? rfl, children_mapChildren]; simp
      rw [mem_subnodes, hbelow]
      constructor
      · rintro (rfl | ⟨c, hc, hmem⟩)
        · exact ⟨n, mem_subnodes.mpr (.inl rfl), rfl⟩
        · obtain ⟨m, hm, hmk⟩ := (ih c hc).mp hmem
          exact ⟨m, mem_subnodes.mpr (.inr ⟨c, hc, hm⟩), hmk⟩
      · rintro ⟨m, hm, rfl⟩
        rcases mem_subnodes.mp hm with rfl | ⟨c, hc, hm⟩
        · exact .inl rfl
        · exact .inr ⟨c, hc, (ih c hc).mpr ⟨m, hm, rfl⟩⟩

/-- Whether a variable or a field occurs in a tree. -/
theorem contains_unfolded {target : Node} (hn : n.Settled) (htarget : target.Settled)
    (hplace : target.isPlace = true) : n.unfolded.contains target.unfolded = n.contains target := by
  have hbinary : ∀ op l r, target.unfolded ≠ binary op l r := by
    intro op l r h
    obtain ⟨op, l, r, rfl⟩ := exists_binary_of_unfolded h
    cases hplace
  rw [Bool.eq_iff_iff, contains, contains, List.contains_iff_mem, List.contains_iff_mem, mem_subnodes_unfolded hbinary]
  constructor
  · rintro ⟨m, hm, heq⟩
    rwa [← (unfolded_inj (hn.below hm) htarget).mp heq]
  · exact fun h => ⟨target, h, rfl⟩

/-! ### What rebuilding makes of nodes -/

/-- A node other than an assignment, made of nodes that rebuilding makes. -/
theorem settled_of_target? (hn : n.target? = none) (h : ∀ c ∈ n.children, c.Settled) : n.Settled :=
  free_iff.mpr ⟨isForeign_of_target? hn, h⟩

/-- Negation keeps nodes settled. -/
theorem settled_negate (h : n.Settled) : n.negate.Settled := by
  unfold negate
  split
  · exact h.child (by simp [children])
  · exact settled_of_target? rfl fun c hc => h.child hc
  · exact settled_of_target? rfl (by simpa [children] using h)

theorem settled_asExpression (h : n.Settled) (hm : n.asExpression = .ok m) : m.Settled := by
  refine asExpression_induction (P := fun n m => n.Settled → m.Settled) hm (fun c t e t' e' iht ihe h => ?_)
    (fun _ _ h => h) h
  have hc : c.Settled := h.child (by simp [children])
  have ht' := iht (h.child (by simp [children]))
  have he' := ihe (h.child (by simp [children]))
  exact settled_of_target? rfl (by simp [children, hc, ht', he'])

end Node

namespace Rebuild

open Node (isForeign)

/-! ### Assignments -/

/-- An assignment that is made unfolds to the plain assignment of what its sides unfold to. -/
theorem assignment_unfolded (target value : Node) :
    (assignment target value).unfolded = .assign target.unfolded none value.unfolded := by
  unfold assignment
  split
  · next op left right =>
      split
      · next h =>
          obtain ⟨hop, hleft⟩ := Bool.and_eq_true_iff.mp h
          obtain rfl := beq_iff_eq.mp hleft
          exact Node.unfolded_compound hop left right
      · rfl
  · rfl

/-- An assignment that is made of settled sides is settled. -/
theorem settled_assignment {target value : Node} (hplace : target.isPlace = true) (htarget : target.Settled)
    (hvalue : value.Settled) : (assignment target value).Settled := by
  unfold assignment
  split
  · next op left right =>
      split
      · have hright : right.Settled := hvalue.child (by simp [Node.children])
        exact Node.free_iff.mpr ⟨by simp [isForeign, hplace], by simp [Node.children, htarget, hright]⟩
      · next h =>
          refine Node.free_iff.mpr ⟨?_, by simp [Node.children, htarget, hvalue]⟩
          simp [isForeign, hplace, Node.compound?, h]
  · next h =>
      refine Node.free_iff.mpr ⟨?_, by simp [Node.children, htarget, hvalue]⟩
      have hcompound : (Node.assign target none value).compound? = none := by
        cases value with
        | binary op left right => exact absurd rfl (h op left right)
        | _ => rfl
      simp [isForeign, hplace, hcompound]

/-! ### Objects and packages -/

/-- The name of an object is found before unfolding and after. -/
theorem objectName?_unfolded (name : Option Node) :
    objectName? (name.map Node.unfolded) = (objectName? name).map Node.unfolded := by
  cases name with
  | none => rfl
  | some n =>
      unfold objectName?
      split
      · next h =>
          obtain rfl := Node.constant_of_unfolded (Option.some.inj h)
          rfl
      · next h =>
          split
          · next hn => cases hn; exact absurd rfl h
          · rfl

/-- Making a unary operation commutes with unfolding. -/
theorem unaryNode_unfolded (op : UnaryOp) (n : Node) : (unaryNode op n).unfolded = unaryNode op n.unfolded := by
  cases n with
  | assign target value' value =>
      obtain ⟨_, _, h⟩ := Node.exists_unfolded_assign target value' value
      have hunary : (unaryNode op (.assign target value' value)).unfolded =
          .unary op (Node.assign target value' value).unfolded := by cases op <;> rfl
      rw [hunary, h]
      cases op <;> rfl
  | _ => cases op <;> rfl

theorem settled_unaryNode (op : UnaryOp) {n : Node} (h : n.Settled) : (unaryNode op n).Settled := by
  unfold unaryNode
  split
  · exact Node.settled_negate h
  · exact Node.settled_of_target? rfl (by simpa [Node.children] using h)

/-- An object is settled if its parts are. -/
theorem settled_object {className : Node} {name : Option Node} {parent : Option String} {isDatablock : Bool}
    {args fields children : List Node} {depth : Nat} :
    (Node.object className name parent isDatablock args fields children depth).Settled ↔
      className.Settled ∧ (∀ n ∈ name, n.Settled) ∧ (∀ n ∈ args, n.Settled) ∧ (∀ n ∈ fields, n.Settled) ∧
        ∀ n ∈ children, n.Settled := by
  simp only [Node.Settled, Node.free_iff (n := .object ..), isForeign, Node.children, true_and, and_assoc,
    List.forall_mem_append, List.forall_mem_cons, Option.mem_toList, Option.mem_def]

/-- Only the fields of an object are replaced. -/
theorem withFields_unfolded {n : Node} (htarget : n.target? = none) (fields : List Node) :
    (withFields fields n).unfolded = withFields (fields.map Node.unfolded) n.unfolded := by
  cases n with
  | object =>
      rw [Node.unfolded_of_target? rfl, withFields, Node.unfolded_of_target? rfl]
      rfl
  | assign => cases htarget
  | _ => rfl

theorem settled_withFields {n : Node} (hn : n.Settled) {fields : List Node} (h : ∀ f ∈ fields, f.Settled) :
    (withFields fields n).Settled := by
  cases n with
  | object =>
      obtain ⟨hclass, hname, hargs, -, hchildren⟩ := settled_object.mp hn
      exact settled_object.mpr ⟨hclass, hname, hargs, h, hchildren⟩
  | _ => exact hn

/-- Giving an object its children commutes with unfolding. -/
theorem withChildren_unfolded {n : Node} (htarget : n.target? = none) (children : List Node) :
    (withChildren children n).unfolded = withChildren (children.map Node.unfolded) n.unfolded := by
  cases n with
  | object =>
      rw [Node.unfolded_of_target? rfl, withChildren, Node.unfolded_of_target? rfl]
      rfl
  | assign => cases htarget
  | _ => rfl

theorem settled_withChildren {n : Node} (hn : n.Settled) {children : List Node} (h : ∀ c ∈ children, c.Settled) :
    (withChildren children n).Settled := by
  cases n with
  | object =>
      obtain ⟨hclass, hname, hargs, hfields, -⟩ := settled_object.mp hn
      exact settled_object.mpr ⟨hclass, hname, hargs, hfields, h⟩
  | _ => exact hn

theorem package_unfolded (name : String) (functions : List Node) :
    (Node.package name functions).unfolded = .package name (functions.map Node.unfolded) :=
  Node.unfolded_of_target? rfl

/-- Packages are grouped the same after unfolding. -/
theorem groupPackages_unfolded (ns : List Node) :
    groupPackages (ns.map Node.unfolded) = (groupPackages ns).map Node.unfolded := by
  refine groupPackages_induction (motive := fun ns grouped =>
    groupPackages (ns.map Node.unfolded) = grouped.map Node.unfolded) rfl ?_ ?_ ?_ ns
  · intro n ns grouped hin ih
    rw [List.map_cons, groupPackages_other (n.declaredIn?_unfolded.trans hin), ih, List.map_cons]
  · intro name n ns grouped hin hnext ih
    rw [List.map_cons, groupPackages_first (n.declaredIn?_unfolded.trans hin), ih, List.map_cons, package_unfolded]
    · rfl
    · rw [ih, List.head?_map]
      simpa using hnext
  · intro name n ns functions rest hin ih
    rw [List.map_cons, package_unfolded] at ih
    rw [List.map_cons, groupPackages_further (n.declaredIn?_unfolded.trans hin) ih, List.map_cons, package_unfolded,
      List.map_cons]

/-- Grouping keeps nodes settled. -/
theorem settled_groupPackages {ns : List Node} (h : ∀ n ∈ ns, n.Settled) :
    ∀ n ∈ groupPackages ns, n.Settled := by
  refine groupPackages_induction (motive := fun ns grouped => (∀ n ∈ ns, n.Settled) → ∀ n ∈ grouped, n.Settled)
    (fun h => h) ?_ ?_ ?_ ns h
  · intro n ns grouped _ ih h
    obtain ⟨hn, hns⟩ := List.forall_mem_cons.mp h
    exact List.forall_mem_cons.mpr ⟨hn, ih hns⟩
  · intro name n ns grouped _ _ ih h
    obtain ⟨hn, hns⟩ := List.forall_mem_cons.mp h
    exact List.forall_mem_cons.mpr ⟨Node.settled_of_target? rfl (List.forall_mem_singleton.mpr hn), ih hns⟩
  · intro name n ns functions rest _ ih h
    obtain ⟨hn, hns⟩ := List.forall_mem_cons.mp h
    obtain ⟨hpackage, hrest⟩ := List.forall_mem_cons.mp (ih hns)
    have hfunctions : ∀ f ∈ n :: functions, f.Settled :=
      List.forall_mem_cons.mpr ⟨hn, fun f hf => hpackage.child hf⟩
    exact List.forall_mem_cons.mpr ⟨Node.settled_of_target? rfl hfunctions, hrest⟩

end Rebuild

end TorqueScript
