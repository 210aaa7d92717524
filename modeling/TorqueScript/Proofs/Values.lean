import TorqueScript.Proofs.Invariants

/-!
# Values in rebuilt trees

A node is printable if everywhere in it an expression stands where one belongs, and if only `for` loops
have a first part and a step (`Node.Printable`).  Rebuilding makes no other nodes.  This holds because of
an invariant of its state: the operands are printable, and the left halves of string operations and the
collected arguments are expressions as well (`Rebuild.State.Printable`).  Printable nodes survive what
rebuilding does with nodes (`Rebuild.carried_printable`), so every instruction keeps the invariant
(`Rebuild.keeps_step`), then every region (`Rebuild.keeps_run`), and so:

**Rebuilt trees** (`Stream.printable_of_rebuild`).  The statements rebuilt from any stream are printable.
-/

namespace TorqueScript

namespace Node

/-! ### Places for expressions -/

/-- Only a `for` loop has a first part and a step. -/
def ForParts : Node → Prop
  | loop .forLoop .. => True
  | loop _ init _ step _ => init = none ∧ step = none
  | _ => True

/-- Expressions stand in their places, in the node and everywhere below it. -/
def Printable (n : Node) : Prop :=
  ∀ m ∈ n.subnodes, (∀ v ∈ m.slots, v.isStatement = false) ∧ m.ForParts

/-- A printable expression. -/
def IsValue (n : Node) : Prop :=
  n.Printable ∧ n.isStatement = false

/-- A node is printable if its slots hold values, its bodies printable statements, and its parts fit a loop. -/
theorem printable_iff {n : Node} :
    n.Printable ↔ (∀ v ∈ n.slots, v.IsValue) ∧ (∀ c ∈ n.bodies, c.Printable) ∧ n.ForParts := by
  have hbelow : n.Printable ↔ ((∀ v ∈ n.slots, v.isStatement = false) ∧ n.ForParts) ∧
      ∀ c ∈ n.children, c.Printable := by
    simp only [Printable, subnodes_eq n, List.forall_mem_cons, List.mem_flatMap]
    exact and_congr_right fun _ => ⟨fun h c hc m hm => h m ⟨c, hc, hm⟩, fun h m ⟨c, hc, hm⟩ => h c hc m hm⟩
  rw [hbelow]
  simp only [mem_children_iff]
  constructor
  · rintro ⟨⟨hslots, hparts⟩, hchildren⟩
    exact ⟨fun v hv => ⟨hchildren v (.inl hv), hslots v hv⟩, fun c hc => hchildren c (.inr hc), hparts⟩
  · rintro ⟨hslots, hbodies, hparts⟩
    exact ⟨⟨fun v hv => (hslots v hv).2, hparts⟩,
      fun c hc => hc.elim (fun h => (hslots c h).1) (hbodies c)⟩

/-- An expression is printable as soon as what is below it is. -/
theorem isValue_iff {n : Node} :
    n.IsValue ↔ ((∀ v ∈ n.slots, v.IsValue) ∧ (∀ c ∈ n.bodies, c.Printable) ∧ n.ForParts) ∧
      n.isStatement = false := by
  rw [IsValue, printable_iff]

/-! ### Turning nodes into expressions -/

/-- **What is taken as an expression is a value.** -/
theorem isValue_of_asExpression {n m : Node} (h : n.Printable) (hm : n.asExpression = .ok m) :
    m.IsValue := by
  refine asExpression_induction (P := fun n m => n.Printable → m.IsValue) hm (fun c t e t' e' iht ihe h => ?_)
    (fun n hn h => ⟨h, hn⟩) h
  obtain ⟨hc, hbodies, -⟩ := printable_iff.mp h
  have ht' := iht (hbodies t (by simp [bodies]))
  have he' := ihe (hbodies e (by simp [bodies]))
  refine isValue_iff.mpr ⟨⟨?_, List.forall_mem_nil _, trivial⟩, rfl⟩
  simpa [slots] using ⟨hc c (by simp [slots]), ht', he'⟩

/-- Making a node from expressions alone. -/
theorem printable_of_slots {n : Node} (hslots : ∀ v ∈ n.slots, v.IsValue) (hbodies : n.bodies = [])
    (hparts : n.ForParts) : n.Printable :=
  printable_iff.mpr ⟨hslots, by rw [hbodies]; exact List.forall_mem_nil _, hparts⟩

theorem forParts_of_isStatement {n : Node} (h : n.isStatement = false) : n.ForParts := by
  cases n <;> trivial

/-- An object stays a value when it gets its fields. -/
theorem IsValue.withFields {n : Node} {fields : List Node} (h : n.IsValue)
    (hfields : ∀ f ∈ fields, f.IsValue) : (Rebuild.withFields fields n).IsValue := by
  unfold Rebuild.withFields
  split
  · obtain ⟨hslots, hbodies, -⟩ := printable_iff.mp h.1
    exact isValue_iff.mpr ⟨⟨hslots, List.forall_mem_append.mpr ⟨fun f hf => (hfields f hf).1,
      (List.forall_mem_append.mp hbodies).2⟩, trivial⟩, rfl⟩
  · exact h

/-- And when it gets its children. -/
theorem IsValue.withChildren {n : Node} {children : List Node} (h : n.IsValue)
    (hchildren : ∀ c ∈ children, c.IsValue) : (Rebuild.withChildren children n).IsValue := by
  unfold Rebuild.withChildren
  split
  · obtain ⟨hslots, hbodies, -⟩ := printable_iff.mp h.1
    exact isValue_iff.mpr ⟨⟨hslots, List.forall_mem_append.mpr ⟨(List.forall_mem_append.mp hbodies).1,
      fun c hc => (hchildren c hc).1⟩, trivial⟩, rfl⟩
  · exact h

end Node

namespace Rebuild

variable {ins : Instruction} {s : State}

/-! ### The state -/

/-- A printable node, or a left half that is an expression. -/
def Operand.Printable : Operand → Prop
  | .node n => n.Printable
  | .accumulator left _ => left.IsValue

/-- All that is held in the state can be printed in its place. -/
structure State.Printable (s : State) : Prop where
  operands : ∀ o ∈ s.operands, o.Printable
  saved : ∀ os ∈ s.saved, ∀ o ∈ os, Operand.Printable o
  frames : ∀ f ∈ s.frames, ∀ n ∈ f, Node.IsValue n

/-- Printable nodes survive what rebuilding does with nodes. -/
theorem carried_printable : Carried Node.IsValue Node.Printable where
  node h := h.1
  taken := Node.isValue_of_asExpression
  slot h := (Node.printable_iff.mp h.1).1 _
  make hn hbodies hslots :=
    ⟨Node.printable_of_slots hslots hbodies (Node.forParts_of_isStatement hn), hn⟩
  fields := Node.IsValue.withFields
  children := Node.IsValue.withChildren
  ret h := Node.printable_of_slots (by simpa [Node.slots] using h) rfl trivial

theorem State.printable_iff : s.Carries Node.IsValue Node.Printable
    (fun saved _ => ∀ os ∈ saved, ∀ o ∈ os, o.Printable) ↔ s.Printable :=
  ⟨fun h => ⟨h.operands, h.around, h.frames⟩, fun h => ⟨h.operands, h.frames, h.saved⟩⟩

/-- What carries values and printable statements keeps the state printable. -/
theorem keeps_of_carries {α : Type} {x : Rebuild α} {P : α → Prop}
    (h : Keeps (State.Carries Node.IsValue Node.Printable fun saved _ => ∀ os ∈ saved, ∀ o ∈ os, o.Printable)
      x P) : Keeps State.Printable x P :=
  h.congr fun _ => State.printable_iff

theorem keeps_push {n : Node} (h : n.Printable) : Keeps State.Printable (push n) fun _ => True :=
  keeps_of_carries (Carried.pushNode h)

theorem keeps_pop : Keeps State.Printable (pop ins) Node.IsValue :=
  keeps_of_carries carried_printable.pop

theorem keeps_foldLogic (addr : Addr) : Keeps State.Printable (foldLogic addr) fun _ => True :=
  keeps_of_carries (carried_printable.foldLogic addr)

/-- The statements of a part are printable. -/
theorem printable_of_statements {addr : Addr} {os : List Operand} {ns : List Node}
    (hos : ∀ o ∈ os, o.Printable) (h : statements addr os = .ok ns) : ∀ n ∈ ns, n.Printable := by
  intro n hn
  have hmem : Operand.node n ∈ os.reverse := eq_of_statements h ▸ List.mem_map_of_mem hn
  exact hos _ (List.mem_reverse.mp hmem)

theorem keeps_openPart : Keeps State.Printable openPart fun _ => True :=
  .update fun _ hs => { hs with operands := nofun, saved := List.forall_mem_cons.mpr ⟨hs.operands, hs.saved⟩ }

/-- A part that is closed gives printable statements. -/
theorem keeps_closePart (addr : Addr) :
    Keeps State.Printable (closePart addr) fun ns => ∀ n ∈ ns, n.Printable := by
  intro s ns t hs h
  obtain ⟨outer, saved, hsaved, hbody, rfl⟩ := closePart_eq_ok h
  have hall := hs.saved
  rw [hsaved] at hall
  obtain ⟨houter, hrest⟩ := List.forall_mem_cons.mp hall
  exact ⟨{ hs with operands := houter, saved := hrest }, printable_of_statements hs.operands hbody⟩

/-- Ending a function keeps the state printable. -/
theorem keeps_endFunction (addr : Addr) : Keeps State.Printable (endFunction addr) fun _ => True := by
  refine .bind .get fun s hs => ?_
  split
  · exact .pure trivial
  · split
    · exact .throw _
    · refine .bind (.set { hs with }) fun _ _ => .bind (keeps_closePart addr) fun body hbody => ?_
      exact keeps_push (Node.printable_iff.mpr ⟨nofun, hbody, trivial⟩)

/-- So does entering an address. -/
theorem keeps_enter (addr : Addr) : Keeps State.Printable (enter addr) fun _ => True :=
  .enter (keeps_endFunction addr) (keeps_foldLogic addr)

/-! ### Instructions -/

theorem keeps_declareFunction (signature : Signature) (hasBody : Bool) (stop : Addr) :
    Keeps State.Printable (declareFunction ins signature hasBody stop) fun _ => True := by
  refine .bind .get fun s hs => ?_
  split
  · exact .throw _
  · split
    · exact .bind (.set { hs with }) fun _ _ => keeps_openPart
    · exact keeps_push (Node.printable_iff.mpr ⟨nofun, nofun, trivial⟩)

/-- **Instructions** keep the state printable. -/
theorem keeps_step (ins : Instruction) : Keeps State.Printable (step ins) fun _ => True :=
  keeps_of_carries <| carried_printable.step fun signature hasBody stop _ =>
    (keeps_declareFunction signature hasBody stop).congr fun _ => State.printable_iff.symm

/-! ### Regions -/

theorem keeps_fallThrough (kind : JumpKind) : Keeps State.Printable (fallThrough ins kind) Node.IsValue :=
  keeps_of_carries (carried_printable.fallThrough kind)

theorem keeps_leave (kind : BranchKind) : Keeps State.Printable (leave ins kind) fun _ => True := by
  cases kind with
  | leave => exact keeps_push (Node.printable_of_slots nofun rfl trivial)
  | nextRound => exact keeps_push (Node.printable_of_slots nofun rfl trivial)
  | alternative => exact .throw _

/-- The end of a loop gives a value for its condition. -/
theorem keeps_endLoop (stop : Addr) (back : Option (Instruction × JumpKind)) :
    Keeps State.Printable (endLoop stop back) fun p => p.1.IsValue ∧ ∀ n ∈ p.2, n.Printable := by
  unfold endLoop
  split
  · exact .throw _
  · next ins kind =>
      refine .bind (keeps_foldLogic _) fun _ _ => .bind keeps_pop fun condition hcondition => ?_
      refine .bind (keeps_closePart _) fun rest hrest => .pure ⟨?_, hrest⟩
      dsimp only
      split
      · exact hcondition
      · exact carried_printable.negate hcondition

/-- The parts of a loop can be printed in their places. -/
structure LoopParts.Printable (parts : LoopParts) : Prop where
  condition : parts.condition.IsValue
  body : ∀ n ∈ parts.body, n.Printable
  step : ∀ n ∈ parts.step, n.Printable

/-- A loop has printable parts if its body and its step keep the state printable. -/
theorem keeps_loopParts (stop : Addr) {body step : Rebuild Unit} (split : Bool)
    (back : Option (Instruction × JumpKind)) (hbody : Keeps State.Printable body fun _ => True)
    (hstep : Keeps State.Printable step fun _ => True) :
    Keeps State.Printable (loopParts stop body split step back) LoopParts.Printable := by
  refine .bind keeps_openPart fun _ _ => .bind hbody fun _ _ => ?_
  cases split with
  | true =>
      refine .bind (keeps_closePart stop) fun b hb => .bind keeps_openPart fun _ _ => ?_
      exact .bind hstep fun _ _ => .bind (keeps_endLoop stop back) fun p hp => .pure ⟨hp.1, hb, hp.2⟩
  | false => exact .bind (keeps_endLoop stop back) fun p hp => .pure ⟨hp.1, hp.2, nofun⟩

namespace LoopParts.Printable

variable {parts : LoopParts}

/-- The body and the step of a loop are printable statements together. -/
theorem whole (h : parts.Printable) : ∀ n ∈ parts.body ++ parts.step, n.Printable :=
  List.forall_mem_append.mpr ⟨h.body, h.step⟩

/-- A loop without a first part. -/
theorem loop (h : parts.Printable) {kind : LoopKind} :
    (Node.loop kind none parts.condition none (parts.body ++ parts.step)).Printable := by
  refine Node.printable_iff.mpr ⟨by simpa [Node.slots] using h.condition, h.whole, ?_⟩
  cases kind <;> simp [Node.ForParts]

/-- The parts of a `for` loop make a printable node. -/
theorem forLoop (h : parts.Printable) {init : Option Node} {step : Node} (hinit : ∀ n ∈ init, n.IsValue)
    (hstep : step.IsValue) : (Node.loop .forLoop init parts.condition (some step) parts.body).Printable := by
  refine Node.printable_iff.mpr ⟨fun v hv => ?_, h.body, trivial⟩
  simp only [Node.slots, List.mem_append, Option.mem_toList, List.mem_cons] at hv
  rcases hv with hv | rfl | ⟨⟨⟩⟩
  · exact hinit v hv
  · exact h.condition
  · exact hstep

end LoopParts.Printable

theorem keeps_takeInit (condition : Node) :
    Keeps State.Printable (takeInit condition) fun init => ∀ n ∈ init, n.IsValue :=
  keeps_of_carries (carried_printable.takeInit condition)

/-- A guarded loop is pushed as a printable node. -/
theorem keeps_guardedLoop {guard : Node} {parts : LoopParts} (hguard : guard.IsValue)
    (hparts : parts.Printable) : Keeps State.Printable (guardedLoop guard parts) fun _ => True := by
  unfold guardedLoop
  split
  · refine keeps_push (Node.printable_iff.mpr ⟨by simpa [Node.slots] using hguard, ?_, trivial⟩)
    simpa [Node.bodies, LoopParts.doWhile] using hparts.loop
  · split
    · next step hstep =>
        have hprintable := hparts.step step (by simp [hstep])
        split
        · exact keeps_push hparts.loop
        · next hvalue =>
            refine .bind (keeps_takeInit _) fun init hinit => keeps_push (hparts.forLoop hinit ⟨hprintable, ?_⟩)
            simpa using hvalue
    · exact keeps_push hparts.loop

/-- A choice of printable bodies is printable. -/
theorem printable_ifElse {condition : Node} {thenBody elseBody : List Node} (hcondition : condition.IsValue)
    (hthen : ∀ n ∈ thenBody, n.Printable) (helse : ∀ n ∈ elseBody, n.Printable) :
    (Node.ifElse condition thenBody elseBody).Printable :=
  Node.printable_iff.mpr ⟨by simpa [Node.slots] using hcondition,
    List.forall_mem_append.mpr ⟨hthen, helse⟩, trivial⟩

mutual

/-- **Regions** keep the state printable. -/
theorem keeps_run (r : Region) : Keeps State.Printable (run r) fun _ => True := by
  cases r with
  | plain ins => exact .bind (keeps_enter _) fun _ _ => keeps_step ins
  | jump ins kind => exact .bind (keeps_enter _) fun _ _ => keeps_leave kind
  | broken addr => exact .throw _
  | choice head kind stop body =>
      refine .bind (keeps_enter _) fun _ _ => .bind (keeps_fallThrough kind) fun c hc => ?_
      refine .bind keeps_openPart fun _ _ => .bind (keeps_runAll body) fun _ _ => ?_
      exact .bind (keeps_closePart stop) fun t ht => keeps_push (printable_ifElse hc ht nofun)
  | choiceElse head kind stop body separator alternative =>
      refine .bind (keeps_enter _) fun _ _ => .bind (keeps_fallThrough kind) fun c hc => ?_
      refine .bind keeps_openPart fun _ _ => .bind (keeps_runAll body) fun _ _ => ?_
      refine .bind (keeps_closePart stop) fun t ht => .bind keeps_openPart fun _ _ => ?_
      refine .bind (keeps_runAll alternative) fun _ _ => .bind (keeps_closePart separator) fun e he => ?_
      exact keeps_push (printable_ifElse hc ht he)
  | loop start stop body split step back =>
      refine .bind (keeps_enter _) fun _ _ => ?_
      refine .bind (keeps_loopParts stop split back (keeps_runAll body) (keeps_runAll step)) fun parts h => ?_
      exact keeps_push h.loop
  | guarded head kind stop body split step back =>
      refine .bind (keeps_enter _) fun _ _ => .bind (keeps_fallThrough kind) fun c hc => ?_
      refine .bind (keeps_loopParts stop split back (keeps_runAll body) (keeps_runAll step)) fun parts h => ?_
      exact keeps_guardedLoop hc h

/-- **Regions keep the state printable.** -/
theorem keeps_runAll (rs : List Region) : Keeps State.Printable (runAll rs) fun _ => True := by
  cases rs with
  | nil => exact .pure trivial
  | cons r rs => exact .bind (keeps_run r) fun _ _ => keeps_runAll rs

end

/-! ### Whole streams -/

theorem keeps_close (last : Addr) : Keeps State.Printable (close last) fun _ => True := by
  refine .bind (keeps_endFunction _) fun _ _ => .bind .get fun s hs => ?_
  split
  · exact .throw _
  · split
    · exact .throw _
    · exact .pure trivial

/-- Packages of printable declarations are printable. -/
theorem printable_groupPackages {ns : List Node} (h : ∀ n ∈ ns, n.Printable) :
    ∀ n ∈ groupPackages ns, n.Printable := by
  have hpackage : ∀ name (functions : List Node), (Node.package name functions).Printable ↔
      ∀ f ∈ functions, f.Printable := fun name functions => by
    simp [Node.printable_iff (n := .package name functions), Node.slots, Node.bodies, Node.ForParts]
  fun_induction groupPackages ns with
  | case1 => exact h
  | case2 ns _ _ _ _ name functions rest heq ih =>
      obtain ⟨hn, hns⟩ := List.forall_mem_cons.mp h
      have hgrouped := ih hns
      rw [heq] at hgrouped
      obtain ⟨hfirst, hrest⟩ := List.forall_mem_cons.mp hgrouped
      have hfunctions := (hpackage name functions).mp hfirst
      exact List.forall_mem_cons.mpr ⟨(hpackage _ _).mpr (List.forall_mem_cons.mpr ⟨hn, hfunctions⟩), hrest⟩
  | case3 ns _ _ _ _ _ _ _ _ heq _ ih =>
      obtain ⟨hn, hns⟩ := List.forall_mem_cons.mp h
      exact List.forall_mem_cons.mpr ⟨(hpackage _ _).mpr (List.forall_mem_singleton.mpr hn), heq ▸ ih hns⟩
  | case4 ns _ _ _ _ _ _ ih =>
      obtain ⟨hn, hns⟩ := List.forall_mem_cons.mp h
      exact List.forall_mem_cons.mpr ⟨(hpackage _ _).mpr (List.forall_mem_singleton.mpr hn), ih hns⟩
  | case5 n ns _ ih =>
      obtain ⟨hn, hns⟩ := List.forall_mem_cons.mp h
      exact List.forall_mem_cons.mpr ⟨hn, ih hns⟩

end Rebuild

namespace Stream

/-- **Rebuilt trees** have expressions where expressions belong. -/
theorem printable_of_rebuild {instrs : List Instruction} {tree : Block} {s : Rebuild.State}
    {nodes : List Node} (hrun : StateT.run (run tree instrs) {} = .ok ((), s))
    (hprogram : Rebuild.program (last instrs) s = .ok nodes) : ∀ n ∈ nodes, n.Printable := by
  have hkeeps : Rebuild.Keeps Rebuild.State.Printable (run tree instrs) fun _ => True :=
    .bind (Rebuild.keeps_runAll _) fun _ _ => Rebuild.keeps_close _
  have hs : s.Printable := (hkeeps {} () s ⟨nofun, nofun, nofun⟩ hrun).1
  cases hstatements : Rebuild.statements (last instrs) s.operands with
  | error e => rw [Rebuild.program, hstatements] at hprogram; cases hprogram
  | ok ns =>
      rw [Rebuild.program, hstatements] at hprogram
      cases hprogram
      exact Rebuild.printable_groupPackages (Rebuild.printable_of_statements hs.operands hstatements)

end Stream

end TorqueScript
