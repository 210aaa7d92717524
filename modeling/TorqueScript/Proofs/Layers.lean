import TorqueScript.Proofs.Scopes
import TorqueScript.Proofs.Stages

/-!
# Expressions below statements

Rebuilding makes statements out of expressions and other statements, but never an expression out of a
statement.  So a rebuilt tree has two layers (`Node.Layered`): no statement stands below an expression, or
where an expression belongs.

This is an invariant of the state of rebuilding, and more can be carried along with it.  Let a property of
nodes hold of all expressions, and of a statement as soon as it holds of the statements in its parts
(`Rebuild.Composes`; in the body of a loop another property may be asked for).  Such a property survives what
rebuilding does with nodes (`Rebuild.Composes.carried`).  So if the statements on the stack have it
(`Rebuild.State.Holds`), then they have it after every instruction but the declaration of a function
(`Rebuild.holds_step`), and so do the statements that choices and loops become.
-/

namespace TorqueScript

namespace Node

variable {n : Node} {p q : Node → Bool}

/-! ### Trees without some nodes -/

/-- What holds of all nodes of a tree, through its children. -/
theorem forall_subnodes_iff {R : Node → Prop} :
    (∀ m ∈ n.subnodes, R m) ↔ R n ∧ ∀ c ∈ n.children, ∀ m ∈ c.subnodes, R m := by
  simp only [subnodes_eq n, List.forall_mem_cons, List.mem_flatMap]
  exact and_congr_right fun _ => ⟨fun h c hc m hm => h m ⟨c, hc, hm⟩, fun h m ⟨c, hc, hm⟩ => h c hc m hm⟩

/-- The node and the nodes below it do not have the property. -/
def Free (p : Node → Bool) (n : Node) : Prop :=
  ∀ m ∈ n.subnodes, p m = false

/-- A tree is free of some nodes if its root is no such node and its children are free of them. -/
theorem free_iff : n.Free p ↔ p n = false ∧ ∀ c ∈ n.children, c.Free p :=
  forall_subnodes_iff

/-- What is free of some nodes is free of fewer. -/
theorem Free.mono (h : n.Free p) (hpq : ∀ m, q m = true → p m = true) : n.Free q := fun m hm =>
  Bool.eq_false_iff.mpr fun hq => Bool.eq_false_iff.mp (h m hm) (hpq m hq)

theorem Free.child {c : Node} (h : n.Free p) (hc : c ∈ n.children) : c.Free p :=
  (free_iff.mp h).2 c hc

theorem Free.slot {v : Node} (h : n.Free p) (hv : v ∈ n.slots) : v.Free p :=
  h.child (mem_children_iff.mpr (.inl hv))

/-- An expression made of expressions. -/
theorem free_of_slots (hn : n.isStatement = false) (hbodies : n.bodies = [])
    (hslots : ∀ v ∈ n.slots, v.Free isStatement) : n.Free isStatement := by
  refine free_iff.mpr ⟨hn, fun c hc => ?_⟩
  rcases mem_children_iff.mp hc with hc | hc
  · exact hslots c hc
  · rw [hbodies] at hc
    cases hc

/-! ### Layers -/

/-- No statement stands below an expression or in the place of one. -/
def Layered (n : Node) : Prop :=
  ∀ m ∈ n.subnodes, (m.isStatement = false → m.Free isStatement) ∧ ∀ v ∈ m.slots, v.Free isStatement

/-- A node is layered if its slots are free of statements, and its children are layered. -/
theorem layered_iff : n.Layered ↔
    ((n.isStatement = false → n.Free isStatement) ∧ ∀ v ∈ n.slots, v.Free isStatement) ∧
      ∀ c ∈ n.children, c.Layered :=
  forall_subnodes_iff

theorem Layered.slot {v : Node} (h : n.Layered) (hv : v ∈ n.slots) : v.Free isStatement :=
  (layered_iff.mp h).1.2 v hv

/-- The statements in the bodies of a layered node are layered. -/
theorem Layered.body {c : Node} (h : n.Layered) (hc : c ∈ n.bodies) : c.Layered :=
  (layered_iff.mp h).2 c (mem_children_iff.mpr (.inr hc))

/-- An expression in a tree with layers. -/
theorem Layered.free (h : n.Layered) (hn : n.isStatement = false) : n.Free isStatement :=
  (layered_iff.mp h).1.1 hn

/-- A node without statements is layered. -/
theorem Free.layered (h : n.Free isStatement) : n.Layered := by
  induction n using childrenInduction with
  | h n ih => exact layered_iff.mpr ⟨⟨fun _ => h, fun v hv => h.slot hv⟩, fun c hc => ih c hc (h.child hc)⟩

/-- A statement made of expressions and statements. -/
theorem layered_of_bodies (hn : n.isStatement = true) (hslots : ∀ v ∈ n.slots, v.Free isStatement)
    (hbodies : ∀ c ∈ n.bodies, c.Layered) : n.Layered := by
  refine layered_iff.mpr ⟨⟨fun h => absurd (hn.symm.trans h) (by decide), hslots⟩, fun c hc => ?_⟩
  rcases mem_children_iff.mp hc with hc | hc
  · exact (hslots c hc).layered
  · exact hbodies c hc

/-- Only an expression is taken for one, or a choice between expressions. -/
theorem Layered.asExpression {m : Node} (h : n.Layered) (hm : n.asExpression = .ok m) : m.Free isStatement := by
  refine asExpression_induction (P := fun n m => n.Layered → m.Free isStatement) hm
    (fun c t e t' e' iht ihe h => ?_) (fun n hn h => h.free hn) h
  have ht' := iht (h.body (by simp [bodies]))
  have he' := ihe (h.body (by simp [bodies]))
  refine free_of_slots rfl rfl ?_
  simpa [slots] using ⟨h.slot (by simp [slots]), ht', he'⟩

/-- A statement that is made of expressions and statements. -/
def isComposite : Node → Bool
  | ret _ | ifElse .. | loop .. => true
  | _ => false

/-- A composite is a statement. -/
theorem isStatement_of_isComposite (h : n.isComposite = true) : n.isStatement = true := by
  cases n <;> first | rfl | cases h

end Node

namespace Rebuild

/-! ### Properties of statements -/

/-- Expressions have the property, and so has a statement made of expressions and of statements with the
property.  In a loop it is made of statements with the property `L`. -/
structure Composes (L P : Node → Prop) : Prop where
  expression : ∀ n : Node, n.Free Node.isStatement → P n
  composite : ∀ n : Node, n.isComposite = true → (∀ v ∈ n.slots, v.Free Node.isStatement) →
    (∀ c ∈ n.bodies, if n.isLoop then L c else P c) → P n

/-- A statement with the property, or a left half that is an expression. -/
def Operand.Holds (P : Node → Prop) : Operand → Prop
  | .node n => n.Layered ∧ P n
  | .accumulator left _ => left.Free Node.isStatement

/-- The statements of the current part have the property. -/
structure State.Holds (P : Node → Prop) (s : State) : Prop where
  operands : ∀ o ∈ s.operands, o.Holds P
  frames : ∀ f ∈ s.frames, ∀ n ∈ f, Node.Free Node.isStatement n

/-- The parts of a loop, with statements of the property `L`. -/
structure LoopParts.Holds (L : Node → Prop) (parts : LoopParts) : Prop where
  condition : parts.condition.Free Node.isStatement
  body : ∀ n ∈ parts.body, n.Layered ∧ L n
  step : ∀ n ∈ parts.step, n.Layered ∧ L n

/-- What an operand holds may be weakened. -/
theorem Operand.Holds.mono {P Q : Node → Prop} {o : Operand} (h : o.Holds P) (hPQ : ∀ n, P n → Q n) :
    o.Holds Q := by
  cases o with
  | node n => exact ⟨h.1, hPQ n h.2⟩
  | accumulator left kind => exact h

section Steps

variable {L P : Node → Prop} {ins : Instruction}

theorem State.holds_iff {s : State} :
    s.Carries (Node.Free Node.isStatement) (fun n => n.Layered ∧ P n) (fun _ _ => True) ↔ s.Holds P :=
  ⟨fun h => ⟨h.operands, h.frames⟩, fun h => ⟨h.operands, h.frames, trivial⟩⟩

/-- What carries layered statements with a property keeps it. -/
theorem holds_of_carries {α : Type} {x : Rebuild α} {R : α → Prop}
    (h : Keeps (State.Carries (Node.Free Node.isStatement) (fun n => n.Layered ∧ P n) fun _ _ => True) x R) :
    Keeps (State.Holds P) x R :=
  h.congr fun _ => State.holds_iff

/-- Pushing a layered node with the property keeps the state. -/
theorem holds_push {n : Node} (hn : n.Layered) (hP : P n) : Keeps (State.Holds P) (push n) fun _ => True :=
  holds_of_carries (Carried.pushNode ⟨hn, hP⟩)

/-- The statements of a part are layered and have the property. -/
theorem holds_of_statements {addr : Addr} {os : List Operand} {ns : List Node} (hos : ∀ o ∈ os, o.Holds P)
    (h : statements addr os = .ok ns) : ∀ n ∈ ns, n.Layered ∧ P n := by
  intro n hn
  have hmem : Operand.node n ∈ os.reverse := eq_of_statements h ▸ List.mem_map_of_mem hn
  exact hos _ (List.mem_reverse.mp hmem)

/-- An object that gets fields without statements has none. -/
theorem free_withFields {fields : List Node} {n : Node} (h : n.Free Node.isStatement)
    (hfields : ∀ f ∈ fields, f.Free Node.isStatement) : (withFields fields n).Free Node.isStatement := by
  unfold withFields
  split
  · refine Node.free_iff.mpr ⟨rfl, fun c hc => ?_⟩
    rcases List.mem_append.mp hc with hc | hc
    · rcases List.mem_append.mp hc with hc | hc
      · exact h.child (List.mem_append_left _ (List.mem_append_left _ hc))
      · exact hfields c hc
    · exact h.child (List.mem_append_right _ hc)
  · exact h

/-- An object that gets children without statements has none. -/
theorem free_withChildren {children : List Node} {n : Node} (h : n.Free Node.isStatement)
    (hchildren : ∀ c ∈ children, c.Free Node.isStatement) : (withChildren children n).Free Node.isStatement := by
  unfold withChildren
  split
  · refine Node.free_iff.mpr ⟨rfl, fun c hc => ?_⟩
    rcases List.mem_append.mp hc with hc | hc
    · exact h.child (List.mem_append_left _ hc)
    · exact hchildren c hc
  · exact h

/-- Layers survive what rebuilding does with nodes. -/
theorem carried_layered : Carried (Node.Free Node.isStatement) Node.Layered where
  node := Node.Free.layered
  taken := Node.Layered.asExpression
  slot := Node.Free.slot
  make := Node.free_of_slots
  fields := free_withFields
  children := free_withChildren
  ret h := Node.layered_of_bodies rfl (by simpa [Node.slots] using h) (List.forall_mem_nil _)

/-! ### Instructions -/

variable (hP : Composes L P)
include hP

/-- What has the property survives what rebuilding does with nodes. -/
theorem Composes.carried : Carried (Node.Free Node.isStatement) fun n => n.Layered ∧ P n where
  node h := ⟨h.layered, hP.expression _ h⟩
  taken h := h.1.asExpression
  slot := carried_layered.slot
  make := carried_layered.make
  fields := carried_layered.fields
  children := carried_layered.children
  ret {value} h := ⟨carried_layered.ret h, hP.composite (.ret value) rfl (by simpa [Node.slots] using h)
    (List.forall_mem_nil _)⟩

/-- What is popped holds no statement. -/
theorem holds_pop : Keeps (State.Holds P) (pop ins) (Node.Free Node.isStatement) :=
  holds_of_carries hP.carried.pop

theorem holds_takeInit (condition : Node) :
    Keeps (State.Holds P) (takeInit condition) fun init => ∀ n ∈ init, n.Free Node.isStatement :=
  holds_of_carries (hP.carried.takeInit condition)

theorem holds_fallThrough (kind : JumpKind) :
    Keeps (State.Holds P) (fallThrough ins kind) (Node.Free Node.isStatement) :=
  holds_of_carries (hP.carried.fallThrough kind)

theorem holds_foldLogic (addr : Addr) : Keeps (State.Holds P) (foldLogic addr) fun _ => True :=
  holds_of_carries (hP.carried.foldLogic addr)

/-- **Instructions** other than declarations of functions keep a property of the statements on the stack. -/
theorem holds_step (h : ∀ signature hasBody stop, ins.operation ≠ .declareFunction signature hasBody stop) :
    Keeps (State.Holds P) (step ins) fun _ => True :=
  holds_of_carries (hP.carried.step fun signature hasBody stop heq => absurd heq (h signature hasBody stop))

/-- What is made of statements on the stack may be put there. -/
theorem Composes.pushComposite {n : Node} (hn : n.isComposite = true)
    (hslots : ∀ v ∈ n.slots, v.Free Node.isStatement)
    (hbodies : ∀ c ∈ n.bodies, c.Layered ∧ if n.isLoop then L c else P c) :
    Keeps (State.Holds P) (push n) fun _ => True :=
  holds_push (Node.layered_of_bodies (Node.isStatement_of_isComposite hn) hslots fun c hc => (hbodies c hc).1)
    (hP.composite n hn hslots fun c hc => (hbodies c hc).2)

/-- **A choice is pushed as a composite of what its parts hold.** -/
theorem Composes.pushChoice {condition : Node} {thenBody elseBody : List Node}
    (hcondition : condition.Free Node.isStatement) (hthen : ∀ n ∈ thenBody, n.Layered ∧ P n)
    (helse : ∀ n ∈ elseBody, n.Layered ∧ P n) :
    Keeps (State.Holds P) (push (.ifElse condition thenBody elseBody)) fun _ => True :=
  hP.pushComposite rfl (by simpa [Node.slots] using hcondition) (List.forall_mem_append.mpr ⟨hthen, helse⟩)

/-! ### Loops -/

/-- **So is a loop.** -/
theorem Composes.pushLoop {parts : LoopParts} (h : parts.Holds L) (kind : LoopKind) :
    Keeps (State.Holds P) (push (.loop kind none parts.condition none (parts.body ++ parts.step))) fun _ => True :=
  hP.pushComposite rfl (by simpa [Node.slots] using h.condition)
    (List.forall_mem_append.mpr ⟨h.body, h.step⟩)

/-- And a loop under its guard. -/
theorem holds_guardedLoop {guard : Node} {parts : LoopParts} (hguard : guard.Free Node.isStatement)
    (hparts : parts.Holds L) : Keeps (State.Holds P) (guardedLoop guard parts) fun _ => True := by
  have hwhole : ∀ n ∈ parts.body ++ parts.step, n.Layered ∧ L n :=
    List.forall_mem_append.mpr ⟨hparts.body, hparts.step⟩
  unfold guardedLoop
  split
  · -- the loop is a statement of its own in a choice
    have hslots : ∀ v ∈ parts.doWhile.slots, v.Free Node.isStatement := by
      simpa [LoopParts.doWhile, Node.slots] using hparts.condition
    have hloop : parts.doWhile.Layered ∧ P parts.doWhile :=
      ⟨Node.layered_of_bodies rfl hslots fun c hc => (hwhole c hc).1,
        hP.composite _ rfl hslots fun c hc => (hwhole c hc).2⟩
    exact hP.pushChoice hguard (by simpa using hloop) (List.forall_mem_nil _)
  · split
    · next step hstep =>
        have hlayered := (hparts.step step (by simp [hstep])).1
        split
        · exact hP.pushLoop hparts _
        · next hvalue =>
            refine .bind (holds_takeInit hP _) fun init hinit => hP.pushComposite rfl (fun v hv => ?_) hparts.body
            simp only [Node.slots, List.mem_append, Option.mem_toList, List.mem_cons] at hv
            rcases hv with hv | rfl | ⟨⟨⟩⟩
            · exact hinit v hv
            · exact hparts.condition
            · exact hlayered.free (by simpa using hvalue)
    · exact hP.pushLoop hparts _

end Steps

/-! ### Parts -/

/-- A rule for the parts of choices and loops.  `I ns` is the invariant while the statements `ns` are held
aside, and what is `Inner`, with a property of its result, may be run inside of a part. -/
structure PartRule (I : List Node → State → Prop) (Inner : {β : Type} → Rebuild β → (β → Prop) → Prop) :
    Prop where
  part : ∀ {α β : Type} {x : Rebuild β} {f : β → List Node → Rebuild α} {R : β → Prop} {P : α → Prop}
    {held : List Node} (addr : Addr), Inner x R → (∀ b ns, R b → Keeps (I (held ++ ns)) (f b ns) P) →
      Keeps (I held) (do openPart; let b ← x; let ns ← closePart addr; f b ns) P
  /-- The condition of a loop is tested at the end of its last part. -/
  test : ∀ {x : Rebuild Unit} (ins : Instruction), Inner x (fun _ => True) →
    Inner (do x; foldLogic ins.addr; pop ins) (Node.Free Node.isStatement)

namespace PartRule

variable {I : List Node → State → Prop} {Inner : {β : Type} → Rebuild β → (β → Prop) → Prop} {α : Type}
  {held : List Node} {body step : Rebuild Unit}

/-- The last part of a loop, which ends with its jump back. -/
theorem lastPart {f : Node × List Node → Rebuild α} {P : α → Prop} (h : PartRule I Inner) (stop : Addr)
    (back : Option (Instruction × JumpKind)) (hbody : Inner body fun _ => True)
    (hf : ∀ condition ns, condition.Free Node.isStatement → Keeps (I (held ++ ns)) (f (condition, ns)) P) :
    Keeps (I held) (do openPart; body; let p ← endLoop stop back; f p) P := by
  cases back with
  | none =>
      intro s a t hs hrun
      obtain ⟨_, _, -, hrun⟩ := bind_eq_ok hrun
      obtain ⟨_, _, -, hrun⟩ := bind_eq_ok hrun
      cases hrun
  | some back =>
      have hsame : (do openPart; body; let p ← endLoop stop (some back); f p) = (do
          openPart
          let condition ← (do body; foldLogic back.1.addr; pop back.1)
          let ns ← closePart back.1.addr
          f (if back.2.whenTrue then condition else condition.negate, ns)) := by
        simp only [endLoop, bind_assoc, pure_bind]
      rw [hsame]
      refine h.part _ (h.test back.1 hbody) fun condition ns hcondition => hf _ ns ?_
      split
      · exact hcondition
      · exact carried_layered.negate hcondition

/-- A loop and the statement that is made of it. -/
theorem loop {f : LoopParts → Rebuild Unit} (h : PartRule I Inner) (stop : Addr) (split : Bool)
    (back : Option (Instruction × JumpKind)) (hbody : Inner body fun _ => True)
    (hstep : split = true → Inner step fun _ => True) (hf : ∀ parts : LoopParts,
      parts.condition.Free Node.isStatement → Keeps (I (parts.body ++ parts.step)) (f parts) fun _ => True) :
    Keeps (I []) (loopParts stop body split step back >>= f) fun _ => True := by
  cases split with
  | true =>
      simp only [loopParts, bind_assoc, pure_bind, if_true]
      refine h.part stop hbody fun _ ns _ => ?_
      exact h.lastPart stop back (hstep rfl) fun condition ms hcondition => hf ⟨condition, ns, ms⟩ hcondition
  | false =>
      simp only [loopParts, bind_assoc, pure_bind, Bool.false_eq_true, if_false]
      refine h.lastPart stop back hbody fun condition ns hcondition => ?_
      have hlast := hf ⟨condition, ns, []⟩ hcondition
      rwa [List.append_nil] at hlast

end PartRule

end Rebuild

end TorqueScript
