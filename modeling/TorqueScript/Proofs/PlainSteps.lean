import TorqueScript.Proofs.Folding
import TorqueScript.Proofs.Visits

/-!
# Instructions without compound assignments

Instructions can be run so that they make plain assignments only (`Rebuild.stepWith`).  This goes in lockstep with
running them as they are (`Rebuild.Unfolds`): from a settled state and from its unfolded form, the two come to a
settled state and its unfolded form, or fail for the same reason.  One rule for each way to compose computations
carries this from the single changes of a state to the instructions (`Rebuild.unfolds_step`).
-/

namespace TorqueScript

namespace Rebuild

/-! ### States -/

/-- The operand with its node unfolded. -/
def Operand.unfolded : Operand → Operand
  | .node n => .node n.unfolded
  | .accumulator left kind => .accumulator left.unfolded kind

/-- The operand has assignments in it as rebuilding makes them. -/
def Operand.Settled : Operand → Prop
  | .node n => n.Settled
  | .accumulator left _ => left.Settled

/-- The state with all its nodes unfolded. -/
def State.unfolded (s : State) : State :=
  { s with
    operands := s.operands.map Operand.unfolded
    saved := s.saved.map (List.map Operand.unfolded)
    frames := s.frames.map (List.map Node.unfolded) }

/-- The state has assignments in it as rebuilding makes them. -/
structure State.Settled (s : State) : Prop where
  operands : ∀ o ∈ s.operands, o.Settled
  saved : ∀ os ∈ s.saved, ∀ o ∈ os, Operand.Settled o
  frames : ∀ f ∈ s.frames, ∀ n ∈ f, Node.Settled n

variable {α β γ δ : Type} {u : α → β} {v : γ → δ} {P : α → Prop} {Q : γ → Prop}

/-- Run on the unfolded state, the second computation does what the first one does on the state, with unfolded
nodes; and the first one keeps assignments as rebuilding makes them. -/
structure Unfolds (u : α → β) (P : α → Prop) (x : Rebuild α) (y : Rebuild β) : Prop where
  keeps : Keeps State.Settled x P
  run : ∀ s : State, s.Settled → y s.unfolded = (x s).map (Prod.map u State.unfolded)

/-- Computations without a result of their own. -/
abbrev UnfoldsUnit (x y : Rebuild Unit) : Prop :=
  Unfolds id (fun _ => True) x y

namespace Unfolds

/-- One after the other, as long as what comes second does so for every settled result. -/
theorem bind {x : Rebuild α} {y : Rebuild β} {f : α → Rebuild γ} {g : β → Rebuild δ} (hx : Unfolds u P x y)
    (hf : ∀ a, P a → Unfolds v Q (f a) (g (u a))) : Unfolds v Q (x >>= f) (y >>= g) where
  keeps := hx.keeps.bind fun a ha => (hf a ha).keeps
  run s hs := by
    have hy := hx.run s hs
    cases hxs : x s with
    | error e =>
        rw [hxs] at hy
        rw [bind_error hxs, bind_error hy]
        rfl
    | ok p =>
        obtain ⟨a, t⟩ := p
        rw [hxs] at hy
        obtain ⟨ht, ha⟩ := hx.keeps s a t hs hxs
        rw [bind_ok hxs, bind_ok hy]
        exact (hf a ha).run t ht

/-- A settled result stands for its unfolded form. -/
theorem pure {a : α} {b : β} (ha : P a) (hb : b = u a) : Unfolds u P (Pure.pure a) (Pure.pure b) where
  keeps := .pure ha
  run _ _ := hb ▸ rfl

/-- A failure is the same on both sides. -/
theorem throw (e : Error) : Unfolds u P (throwThe Error e : Rebuild α) (throwThe Error e : Rebuild β) where
  keeps := .throw e
  run _ _ := rfl

/-- The state itself, as far as it is settled. -/
theorem get : Unfolds State.unfolded State.Settled (MonadState.get : Rebuild State) MonadState.get where
  keeps := .get
  run _ _ := rfl

theorem set {t t' : State} (ht : t.Settled) (ht' : t' = t.unfolded) :
    Unfolds id (fun _ => True) (MonadState.set t : Rebuild PUnit) (MonadState.set t') where
  keeps := .set ht
  run _ _ := ht' ▸ rfl

/-- Changing the state in a way that unfolding goes through. -/
theorem update {f g : State → State} (hf : ∀ s, s.Settled → (f s).Settled)
    (hg : ∀ s, g s.unfolded = (f s).unfolded) : UnfoldsUnit (modify f) (modify g) where
  keeps := .update hf
  run s _ := by
    change Except.ok ((), g s.unfolded) = _
    rw [hg]
    rfl

end Unfolds

/-! ### Operands -/

variable {ins : Instruction}

/-- A settled operand goes on the stack. -/
theorem unfolds_pushOperand {o : Operand} (h : o.Settled) : UnfoldsUnit (pushOperand o) (pushOperand o.unfolded) :=
  .update (fun _ hs => { hs with operands := List.forall_mem_cons.mpr ⟨h, hs.operands⟩ }) fun _ => rfl

/-- And so does a settled node. -/
theorem unfolds_push {n m : Node} (h : n.Settled) (hm : m = n.unfolded) : UnfoldsUnit (push n) (push m) :=
  hm ▸ unfolds_pushOperand h

/-- Making a node other than an assignment. -/
theorem unfolds_make {n : Node} (hn : n.target? = none) (h : ∀ c ∈ n.children, c.Settled) :
    UnfoldsUnit (push n) (push (n.mapChildren Node.unfolded)) :=
  unfolds_push (Node.settled_of_target? hn h) (Node.unfolded_of_target? hn).symm

/-- Making a node with nothing below it. -/
theorem unfolds_leaf {n : Node} (hn : n.target? = none) (h : n.children = []) : UnfoldsUnit (push n) (push n) := by
  have hchildren : ∀ c ∈ n.children, c.unfolded = id c := h ▸ List.forall_mem_nil _
  have hsame : n.unfolded = n := by rw [Node.unfolded_of_target? hn, Node.mapChildren_congr hchildren, n.mapChildren_id]
  exact unfolds_push (Node.settled_of_target? hn (h ▸ List.forall_mem_nil _)) hsame.symm

/-- What is taken off the stack is settled. -/
theorem unfolds_popOperand : Unfolds Operand.unfolded Operand.Settled (popOperand ins) (popOperand ins) := by
  refine ⟨?_, fun s _ => ?_⟩
  · rintro s o t hs h
    obtain ⟨os, hos, rfl⟩ := popOperand_eq_ok h
    obtain ⟨ho, hrest⟩ := List.forall_mem_cons.mp (hos ▸ hs.operands)
    exact ⟨{ hs with operands := hrest }, ho⟩
  · obtain ⟨operands⟩ := s
    cases operands <;> rfl

/-- **Values** are taken off the stack: a choice becomes a conditional on both sides or on none. -/
theorem unfolds_pop : Unfolds Node.unfolded (Node.Settled) (pop ins) (pop ins) := by
  refine .bind unfolds_popOperand fun o ho => ?_
  cases o with
  | node n =>
      dsimp only [Operand.unfolded]
      rw [n.asExpression_unfolded]
      cases hn : n.asExpression with
      | ok m => exact .pure (Node.settled_asExpression ho hn) rfl
      | error => exact .throw _
  | accumulator => exact .throw _

theorem unfolds_popAccumulator : Unfolds (Prod.map Node.unfolded id) (fun p => p.1.Settled)
    (popAccumulator ins) (popAccumulator ins) := by
  refine .bind unfolds_popOperand fun o ho => ?_
  cases o with
  | node n =>
      dsimp only [Operand.unfolded]
      rw [Node.kindName_unfolded]
      exact .throw _
  | accumulator => exact .pure ho rfl

/-- Operands are taken by their looks, which unfolding does not change. -/
theorem unfolds_popWhile {p : Operand → Bool} (hp : ∀ o : Operand, p o.unfolded = p o) :
    Unfolds (List.map Operand.unfolded) (fun os => ∀ o ∈ os, o.Settled) (popWhile p) (popWhile p) := by
  have hcomp : p ∘ Operand.unfolded = p := funext hp
  refine .bind .get fun s hs => .bind (.set ?_ ?_) fun _ _ => .pure ?_ ?_
  · exact { hs with operands := fun o ho => hs.operands o ((List.dropWhile_sublist p).subset ho) }
  · simp [State.unfolded, List.dropWhile_map, hcomp]
  · exact fun o ho => hs.operands o ((List.takeWhile_sublist p).subset (List.mem_reverse.mp ho))
  · simp [State.unfolded, List.takeWhile_map, hcomp]

/-! ### Parts of the stream -/

/-- Statements are asked for before or after unfolding. -/
theorem statements_unfolded (addr : Addr) (os : List Operand) :
    statements addr (os.map Operand.unfolded) = (statements addr os).map (List.map Node.unfolded) := by
  rw [statements, statements, ← List.map_reverse]
  generalize os.reverse = os
  induction os with
  | nil => rfl
  | cons o os ih =>
      rw [List.map_cons, List.mapM_cons, List.mapM_cons, ih]
      cases o with
      | accumulator => rfl
      | node n => cases os.mapM (m := Except Error) _ <;> rfl

/-- The statements of settled operands are settled. -/
theorem settled_of_statements {addr : Addr} {os : List Operand} {ns : List Node} (hos : ∀ o ∈ os, o.Settled)
    (h : statements addr os = .ok ns) : ∀ n ∈ ns, n.Settled := by
  intro n hn
  have hmem : Operand.node n ∈ os.reverse := eq_of_statements h ▸ List.mem_map_of_mem hn
  exact hos _ (List.mem_reverse.mp hmem)

/-- A part begins with an empty stack. -/
theorem unfolds_openPart : UnfoldsUnit openPart openPart :=
  .update (fun _ hs =>
    { hs with
      operands := List.forall_mem_nil _
      saved := List.forall_mem_cons.mpr ⟨hs.operands, hs.saved⟩ }) fun _ => rfl

/-- The statements of a part. -/
theorem unfolds_closePart (addr : Addr) : Unfolds (List.map Node.unfolded) (fun ns => ∀ n ∈ ns, n.Settled)
    (closePart addr) (closePart addr) := by
  refine ⟨fun s ns t hs h => ?_, fun s _ => ?_⟩
  · obtain ⟨outer, saved, hsaved, hbody, rfl⟩ := closePart_eq_ok h
    obtain ⟨houter, hrest⟩ := List.forall_mem_cons.mp (hsaved ▸ hs.saved)
    exact ⟨{ hs with operands := houter, saved := hrest }, settled_of_statements hs.operands hbody⟩
  · obtain ⟨operands, saved⟩ := s
    cases saved with
    | nil => rfl
    | cons outer saved =>
        simp only [closePart, State.unfolded, List.map_cons, statements_unfolded]
        cases statements addr operands <;> rfl

/-- Pending operators are folded at the same address. -/
theorem unfolds_foldPending (addr : Addr) (ps : List Pending) :
    UnfoldsUnit (foldPending addr ps) (foldPending addr ps) := by
  induction ps with
  | nil => exact .pure trivial rfl
  | cons p ps ih =>
      rw [foldPending]
      split
      · refine .bind (.update (fun s hs => { hs with }) fun _ => rfl) fun _ _ => ?_
        refine .bind unfolds_pop fun right hright => .bind unfolds_pop fun left hleft => ?_
        exact .bind (unfolds_make rfl (by simp [Node.children, hleft, hright])) fun _ _ => ih
      · exact .pure trivial rfl

theorem unfolds_foldLogic (addr : Addr) : UnfoldsUnit (foldLogic addr) (foldLogic addr) :=
  .bind .get fun s _ => unfolds_foldPending addr s.pending

theorem unfolds_endFunction (addr : Addr) : UnfoldsUnit (endFunction addr) (endFunction addr) := by
  refine .bind .get fun s hs => ?_
  simp only [State.unfolded, List.length_map]
  split
  · exact .pure trivial rfl
  · split
    · exact .throw _
    · refine .bind (.set { hs with } rfl) fun _ _ => .bind (unfolds_closePart addr) fun body hbody => ?_
      exact unfolds_make rfl hbody

/-- A function ends at the same address. -/
theorem unfolds_closeFunction (addr : Addr) : UnfoldsUnit (closeFunction addr) (closeFunction addr) := by
  refine .bind .get fun s hs => ?_
  simp only [State.unfolded]
  split
  · split
    · exact .pure trivial rfl
    · exact unfolds_endFunction addr
  · exact .pure trivial rfl

/-- **Entering an address** ends functions and operators. -/
theorem unfolds_enter (addr : Addr) : UnfoldsUnit (enter addr) (enter addr) :=
  .bind (unfolds_closeFunction addr) fun _ _ => unfolds_foldLogic addr

/-! ### Strings -/

theorem unfolds_advance (kind : Accumulation) : UnfoldsUnit (advance ins kind) (advance ins kind) :=
  .bind unfolds_pop fun _ hleft => unfolds_pushOperand hleft

theorem unfolds_rewind : UnfoldsUnit (rewind ins) (rewind ins) := by
  refine .bind unfolds_pop fun right hright => .bind unfolds_popAccumulator fun p hp => ?_
  obtain ⟨left, kind⟩ := p
  cases kind with
  | join | comma => exact unfolds_make rfl (by simp [Node.children, hp, hright])
  | compare => exact .throw _

/-- Joining texts makes no assignment, and the same holds of comparing them. -/
theorem unfolds_compareStrings : UnfoldsUnit (compareStrings ins) (compareStrings ins) := by
  refine .bind unfolds_pop fun right hright => .bind unfolds_popAccumulator fun p hp => ?_
  obtain ⟨left, kind⟩ := p
  dsimp only [Prod.map, id]
  split
  · exact unfolds_make rfl (by simp [Node.children, hp, hright])
  · exact .throw _

theorem unfolds_terminate : UnfoldsUnit (terminate ins) (terminate ins) := by
  refine .bind unfolds_popOperand fun o ho => ?_
  cases o with
  | accumulator => exact unfolds_push ho rfl
  | node =>
      refine .bind unfolds_popAccumulator fun _ hleft => ?_
      exact .bind (unfolds_push ho rfl) fun _ _ => unfolds_push hleft rfl

/-! ### Variables and fields -/

/-- A variable takes an index. -/
theorem unfolds_indexVariable : UnfoldsUnit (indexVariable ins) (indexVariable ins) := by
  refine .bind unfolds_pop fun n hn => ?_
  split
  · next name index => exact unfolds_make rfl (by simpa [Node.children] using hn.child (c := index))
  · next name index => exact unfolds_make rfl (by simpa [Node.children] using hn.child (c := index))
  · next hstr hident =>
      -- the unfolded index looks like no name joined to something either
      split
      · next h => obtain ⟨index, rfl⟩ := Node.joined_of_unfolded h; exact absurd rfl (hstr _ _)
      · next h => obtain ⟨index, rfl⟩ := Node.joined_of_unfolded h; exact absurd rfl (hident _ _)
      · refine .bind unfolds_pop fun other _ => ?_
        split
        · exact unfolds_make rfl (by simpa [Node.children] using hn)
        · next hother =>
            split
            · next h =>
                obtain ⟨index, rfl, hindex⟩ := Node.var_of_unfolded h
                obtain rfl := Option.map_eq_none_iff.mp hindex
                exact absurd rfl (hother _)
            · rw [Node.kindName_unfolded]; exact .throw _

/-- A field is selected on a value or on the object that is open. -/
theorem unfolds_selectField (name : String) : UnfoldsUnit (selectField ins name) (selectField ins name) := by
  refine .bind .get fun s hs => .bind (.set { hs with } rfl) fun _ _ => ?_
  have hfield : UnfoldsUnit (push (.field none name none)) (push (.field none name none)) :=
    unfolds_leaf rfl rfl
  dsimp only [State.unfolded]
  split
  · refine .bind unfolds_pop fun owner howner => ?_
    exact unfolds_make rfl (by simp [Node.children, howner])
  · exact hfield
  · exact hfield

/-- A selected field takes an index. -/
theorem unfolds_indexField : UnfoldsUnit (indexField ins) (indexField ins) := by
  refine .bind unfolds_pop fun index hindex => .bind unfolds_pop fun n hn => ?_
  split
  · next owner name =>
      have howner : ∀ c ∈ owner.toList, c.Settled := fun c hc => hn.child (List.mem_append_left _ hc)
      rw [Node.unfolded_of_target? (n := .field owner name none) rfl]
      exact unfolds_make (n := .field owner name (some index)) rfl
        (List.forall_mem_append.mpr ⟨howner, List.forall_mem_singleton.mpr hindex⟩)
  · next hfield =>
      split
      · next h =>
          obtain ⟨owner, index, rfl, hindex⟩ := Node.field_of_unfolded h
          obtain rfl := Option.map_eq_none_iff.mp hindex
          exact absurd rfl (hfield _ _)
      · rw [Node.kindName_unfolded]; exact .throw _

/-- Assigns to a variable or a field, and makes the assignment in a way of one's own. -/
def saveWith (make : Node → Node → Node) (isTarget : Node → Bool) (expected : String) (ins : Instruction) :
    Rebuild Unit := do
  let target ← pop ins
  if isTarget target then do
    let value ← pop ins
    push (make target value)
  else throw (unexpected ins expected target.kindName)

/-- Saving to a variable is an assignment to something that looks like one. -/
theorem saveVariable_eq (ins : Instruction) : saveVariable ins = saveWith assignment Node.isVar "variable" ins :=
  bind_congr fun target => by cases target <;> rfl

/-- And likewise for a field. -/
theorem saveField_eq (ins : Instruction) : saveField ins = saveWith assignment Node.isField "field" ins :=
  bind_congr fun target => by cases target <;> rfl

/-- **Saving** makes an assignment that may be a compound one, or else the plain one that it unfolds to. -/
theorem unfolds_saveWith {isTarget : Node → Bool} {expected : String}
    (hplace : ∀ n, isTarget n = true → n.isPlace = true) (hsame : ∀ n : Node, isTarget n.unfolded = isTarget n) :
    UnfoldsUnit (saveWith assignment isTarget expected ins) (saveWith (.assign · none ·) isTarget expected ins) := by
  refine .bind unfolds_pop fun target htarget => ?_
  rw [hsame, Node.kindName_unfolded]
  split
  · next h =>
      refine .bind unfolds_pop fun value hvalue => ?_
      exact unfolds_push (settled_assignment (hplace target h) htarget hvalue) (assignment_unfolded target value).symm
  · exact .throw _

/-! ### Calls and objects -/

/-- The arguments of a call. -/
theorem unfolds_popFrame : Unfolds (List.map Node.unfolded) (fun ns => ∀ n ∈ ns, n.Settled)
    (popFrame ins) (popFrame ins) := by
  refine ⟨fun s ns t hs h => ?_, fun s _ => ?_⟩
  · obtain ⟨frame, frames, hframes, rfl, rfl⟩ := popFrame_eq_ok h
    obtain ⟨hframe, hrest⟩ := List.forall_mem_cons.mp (hframes ▸ hs.frames)
    exact ⟨{ hs with frames := hrest }, fun n hn => hframe n (List.mem_reverse.mp hn)⟩
  · obtain ⟨_, _, frames⟩ := s
    cases frames with
    | nil => rfl
    | cons frame frames => simp [popFrame, State.unfolded, Except.map, Prod.map]

theorem unfolds_pushArgument : UnfoldsUnit (pushArgument ins) (pushArgument ins) := by
  refine .bind unfolds_pop fun value hvalue => .bind .get fun s hs => ?_
  obtain ⟨_, _, frames⟩ := s
  cases frames with
  | nil => exact .throw _
  | cons frame frames =>
      obtain ⟨hframe, hframes⟩ := List.forall_mem_cons.mp hs.frames
      refine .set ?_ rfl
      exact { hs with frames := List.forall_mem_cons.mpr ⟨List.forall_mem_cons.mpr ⟨hvalue, hframe⟩, hframes⟩ }

/-- An object is created from its arguments. -/
theorem unfolds_createObject (parent : Option String) (isDatablock : Bool) :
    UnfoldsUnit (createObject ins parent isDatablock) (createObject ins parent isDatablock) := by
  refine .bind unfolds_popFrame fun args hargs => ?_
  cases args with
  | nil => exact .throw _
  | cons className rest =>
      obtain ⟨hclass, hrest⟩ := List.forall_mem_cons.mp hargs
      refine .bind .get fun s hs => ?_
      rw [List.head?_map, objectName?_unfolded, ← List.map_tail]
      refine .bind (unfolds_make rfl ?_) fun _ _ => .update (fun _ hs => { hs with }) fun _ => rfl
      have hname : ∀ n ∈ objectName? rest.head?, n.Settled := fun n hn =>
        hrest n (List.mem_of_head? (mem_of_objectName? hn))
      have htail : ∀ n ∈ rest.tail, n.Settled := fun n hn => hrest n (List.mem_of_mem_tail hn)
      exact (Node.free_iff.mp (settled_object.mpr ⟨hclass, hname, htail, by simp, by simp⟩)).2

/-- An object is changed in a place where no assignment is looked at. -/
theorem unfolds_updateObject (depth : Nat) {between : Rebuild Unit} {update update' : Node → Node}
    (hbetween : UnfoldsUnit between between) (hsettled : ∀ n, n.Settled → (update n).Settled)
    (hupdate : ∀ n, n.target? = none → (update n).unfolded = update' n.unfolded) :
    UnfoldsUnit (updateObject ins depth between update) (updateObject ins depth between update') := by
  refine .bind unfolds_pop fun n hn => ?_
  split
  · next className name parent isDatablock args fields children d =>
      have hunfolded := hupdate (.object className name parent isDatablock args fields children d) rfl
      rw [Node.unfolded_of_target? (n := .object ..) rfl] at hunfolded ⊢
      dsimp only [Node.mapChildren]
      split
      · exact .bind hbetween fun _ _ => unfolds_push (hsettled _ hn) hunfolded.symm
      · exact .throw _
  · next hobject =>
      split
      · next h =>
          have hn := Node.mapChildren_of_unfolded h rfl
          cases n with
          | object => exact absurd rfl (hobject _ _ _ _ _ _ _ _)
          | _ => cases hn
      · rw [Node.kindName_unfolded]; exact .throw _

/-- The mark that an object was begun with. -/
theorem unfolds_popPlaceholder : UnfoldsUnit (popPlaceholder ins) (popPlaceholder ins) := by
  refine .bind unfolds_pop fun n _ => ?_
  split
  · change UnfoldsUnit _ (if _ then _ else _)
    split
    · exact .pure trivial rfl
    · exact .throw _
  · next hconstant =>
      split
      · next h => exact absurd (Node.constant_of_unfolded h) (hconstant _)
      · rw [Node.kindName_unfolded]; exact .throw _

/-- Stores to own fields are told by their targets, which stay as they are. -/
theorem isOwnField_unfolded (o : Operand) : isOwnField o.unfolded = isOwnField o := by
  cases o with
  | accumulator => rfl
  | node n =>
      cases n with
      | assign target op value =>
          obtain ⟨op', value', h⟩ := Node.exists_unfolded_assign target op value
          have htarget : ∀ (t : Node) (op : Option BinaryOp) (value : Node),
              isOwnField (.node (.assign t op value)) = isOwnField (.node (.assign t none .breakLoop)) :=
            fun t _ _ => by cases t with | field owner => cases owner <;> rfl | _ => rfl
          rw [Operand.unfolded, h, htarget, htarget target]
          refine Node.apply_unfolded (fun t => isOwnField (.node (.assign t none .breakLoop))) (fun t => ?_)
            (fun _ _ _ _ _ _ => rfl) target
          cases t with
          | field owner => cases owner <;> rfl
          | _ => rfl
      | _ => rfl

/-- Objects are told by their depth. -/
theorem isObjectAt_unfolded (depth : Nat) (o : Operand) : isObjectAt depth o.unfolded = isObjectAt depth o := by
  cases o with
  | accumulator => rfl
  | node n =>
      exact Node.apply_unfolded (fun n => isObjectAt depth (.node n)) (by rintro ⟨⟩ <;> rfl)
        (fun _ _ _ _ _ _ => rfl) n

/-- The nodes among operands, before or after unfolding. -/
theorem nodes_unfolded (os : List Operand) : nodes (os.map Operand.unfolded) = (nodes os).map Node.unfolded := by
  rw [nodes, nodes, List.filterMap_map, List.map_filterMap]
  refine List.filterMap_congr fun o _ => ?_
  cases o <;> rfl

theorem settled_nodes {os : List Operand} (h : ∀ o ∈ os, o.Settled) : ∀ n ∈ nodes os, n.Settled := by
  intro n hn
  obtain ⟨o, ho, hon⟩ := List.mem_filterMap.mp hn
  cases o with
  | node => cases hon; exact h _ ho
  | accumulator => cases hon

/-- An object gets the stores in front of it as its fields. -/
theorem unfolds_addObject (atRoot : Bool) : UnfoldsUnit (addObject ins atRoot) (addObject ins atRoot) := by
  refine .bind .get fun s hs => ?_
  simp only [State.unfolded]
  split
  · exact .throw _
  · refine .bind (unfolds_popWhile isOwnField_unfolded) fun fields hfields => ?_
    rw [nodes_unfolded]
    refine unfolds_updateObject _ ?_ (fun n hn => settled_withFields hn (settled_nodes hfields))
      fun n hn => withFields_unfolded hn _
    split
    · exact unfolds_popPlaceholder
    · exact .pure trivial rfl

/-- And it gets the objects behind it as its children. -/
theorem unfolds_endObject : UnfoldsUnit (endObject ins) (endObject ins) := by
  refine .bind .get fun s hs => ?_
  simp only [State.unfolded]
  split
  · exact .throw _
  · refine .bind (.set { hs with } rfl) fun _ _ => ?_
    refine .bind (unfolds_popWhile (isObjectAt_unfolded _)) fun children hchildren => ?_
    rw [nodes_unfolded]
    exact unfolds_updateObject _ (.pure trivial rfl) (fun n hn => settled_withChildren hn (settled_nodes hchildren))
      fun n hn => withChildren_unfolded hn _

/-! ### All instructions -/

/-- A declaration goes on the stack with an empty body. -/
theorem unfolds_declareFunction (signature : Signature) (hasBody : Bool) (stop : Addr) :
    UnfoldsUnit (declareFunction ins signature hasBody stop) (declareFunction ins signature hasBody stop) := by
  refine .bind .get fun s hs => ?_
  simp only [State.unfolded, List.length_map]
  split
  · exact .throw _
  · split
    · exact .bind (.set { hs with } rfl) fun _ _ => unfolds_openPart
    · exact unfolds_leaf rfl rfl

/-- Runs an instruction, and makes assignments in a way of one's own. -/
def stepWith (make : Node → Node → Node) (ins : Instruction) : Rebuild Unit :=
  match ins.operation with
  | .saveVar _ => saveWith make Node.isVar "variable" ins
  | .saveField _ => saveWith make Node.isField "field" ins
  | _ => step ins

/-- With compound assignments, instructions are run as they are. -/
theorem stepWith_assignment (ins : Instruction) : stepWith assignment ins = step ins := by
  rw [stepWith, ← saveVariable_eq, ← saveField_eq, step]
  cases ins.operation <;> rfl

/-- **Instructions.**  With plain assignments, an instruction does to unfolded nodes what it does to the nodes with
compound ones. -/
theorem unfolds_step : UnfoldsUnit (step ins) (stepWith (.assign · none ·) ins) := by
  rw [stepWith, step]
  generalize ins.operation = op
  cases op with
  | declareFunction signature hasBody stop => exact unfolds_declareFunction signature hasBody stop
  | createObject parent isDatablock => exact unfolds_createObject parent isDatablock
  | addObject atRoot => exact unfolds_addObject atRoot
  | endObject => exact unfolds_endObject
  | jump kind target =>
      dsimp only
      split
      · exact .update (fun s hs => { hs with }) fun _ => rfl
      · exact .throw _
  | ret hasValue =>
      cases hasValue with
      | true => exact .bind unfolds_pop fun value hvalue => unfolds_make rfl (List.forall_mem_singleton.mpr hvalue)
      | false => exact unfolds_leaf rfl rfl
  | binary op =>
      refine .bind unfolds_pop fun right hright => .bind unfolds_pop fun left hleft => ?_
      exact unfolds_make rfl (by simp [Node.children, hleft, hright])
  | unary op =>
      refine .bind unfolds_pop fun n hn => ?_
      exact unfolds_push (settled_unaryNode op hn) (unaryNode_unfolded op n).symm
  | selectVar | immediateUint | immediateFloat | immediateStr | immediateIdent | immediateTag =>
      exact unfolds_leaf rfl rfl
  | selectVarArray => exact unfolds_indexVariable
  | loadVar | loadField | convert | debugBreak => exact .pure trivial rfl
  | saveVar =>
      rw [saveVariable_eq]
      exact unfolds_saveWith (fun _ => Node.isPlace_of_isVar) Node.isVar_unfolded
  | saveField =>
      rw [saveField_eq]
      exact unfolds_saveWith (fun _ => Node.isPlace_of_isField) Node.isField_unfolded
  | selectObject | selectNewObject => exact .update (fun s hs => { hs with }) fun _ => rfl
  | selectField name => exact unfolds_selectField name
  | selectFieldArray => exact unfolds_indexField
  | call => exact .bind unfolds_popFrame fun args hargs => unfolds_make rfl hargs
  | advanceStr | advanceStrComma | advanceStrNul => exact unfolds_advance _
  | advanceStrAppend c =>
      dsimp only
      split
      · exact unfolds_advance _
      · exact .throw _
  | rewindStr => exact unfolds_rewind
  | terminateRewindStr => exact unfolds_terminate
  | compareStr => exact unfolds_compareStrings
  | push => exact unfolds_pushArgument
  | pushFrame =>
      refine .update (fun s hs => ?_) fun _ => rfl
      exact { hs with frames := List.forall_mem_cons.mpr ⟨List.forall_mem_nil _, hs.frames⟩ }

end Rebuild

end TorqueScript
