import TorqueScript.Proofs.FunctionNesting
import TorqueScript.Proofs.Uncrossed

/-!
# Loops around jumps

A jump becomes `break` or `continue` only if the block that owns it lies in a loop.  The statement is put on the
stack of the current part, and the part becomes the body of a loop, or of a choice in one: `Node.Anchored` says
that there is a loop around every `break` and `continue`, without a function in between.

Inside of a part this is kept as long as no function begins or ends there (`Event.Quiet`, `Rebuild.inside_run`).
If no jump crosses a function's declaration or its end, then functions begin and end outside of all parts, where
all stacks hold anchored statements (`Rebuild.State.Rooted`, `Rebuild.rooted_runAll`).

**Well-formed trees** (`Stream.nesting_of_statements`).  In the tree of any stream, no function stands in another
one, and packages stand outside of everything.  If no jump crosses a declaration, then every `break` and
`continue` stands in a loop, and in the same function as this loop.
-/

namespace TorqueScript

namespace Node

variable {n : Node} {around : Bool}

/-! ### Anchored statements -/

/-- A `break` or a `continue`. -/
def isJump : Node → Bool
  | breakLoop | continueLoop => true
  | _ => false

/-- Whether the children of the node lie in a loop, if they are not told apart by a function. -/
def inLoop (around : Bool) : Node → Bool
  | loop .. => true
  | function .. => false
  | _ => around

/-- Every jump in the node lies in a loop, without a function in between; `around` tells whether the node lies in
one itself. -/
inductive Anchored : Bool → Node → Prop where
  | mk {around : Bool} {n : Node} (jump : n.isJump = true → around = true)
      (children : ∀ c ∈ n.children, Anchored (n.inLoop around) c) : Anchored around n

/-- A node without statements is no jump. -/
theorem Free.isJump (h : n.Free isStatement) : n.isJump = false := by
  have hn := (free_iff.mp h).1
  cases n <;> first | rfl | cases hn

/-- There are no jumps in expressions. -/
theorem Free.anchored (h : n.Free isStatement) (around : Bool) : n.Anchored around := by
  induction n using childrenInduction generalizing around with
  | h n ih =>
      exact .mk (fun hjump => absurd (hjump.symm.trans h.isJump) (by decide)) fun c hc => ih c hc (h.child hc) _

/-- Inside of a composite one is in a loop if it is one, or if one was before. -/
theorem inLoop_of_isComposite (h : n.isComposite = true) : n.inLoop around = (n.isLoop || around) := by
  cases n <;> first | rfl | cases h

/-- What is in a loop below a node that is none was in it before. -/
theorem inLoop_eq_true (hloop : n.isLoop = false) (h : n.inLoop around = true) :
    n.isFunction = false ∧ around = true := by
  cases n with
  | loop => cases hloop
  | function => cases h
  | _ => exact ⟨rfl, h⟩

/-- A composite is no jump. -/
theorem isJump_of_isComposite (h : n.isComposite = true) : n.isJump = false := by
  cases n <;> first | rfl | cases h

end Node

namespace Rebuild

variable {α : Type} {s t : State} {function : Option FunctionFrame} {saved : List (List Operand)} {around : Bool}
  {instrs : List Instruction} {ins : Instruction}

/-- Anchored statements compose. -/
theorem composes_anchored (around : Bool) : Composes (Node.Anchored true) (Node.Anchored around) where
  expression _ h := h.anchored around
  composite n hn hslots hbodies := by
    refine .mk (fun h => absurd (h.symm.trans (Node.isJump_of_isComposite hn)) (by decide)) fun c hc => ?_
    rcases Node.mem_children_iff.mp hc with hc | hc
    · exact (hslots c hc).anchored _
    · have hbody := hbodies c hc
      rw [Node.inLoop_of_isComposite hn]
      cases hloop : n.isLoop with
      | true =>
          rw [hloop, if_pos rfl] at hbody
          exact hbody
      | false =>
          rw [hloop, if_neg Bool.false_ne_true] at hbody
          exact hbody

/-- A function may stand anywhere; what is in it is on its own. -/
theorem anchored_function (signature : Signature) {body : List Node} (h : ∀ n ∈ body, n.Anchored false) :
    (Node.function signature body).Anchored around :=
  .mk nofun h

/-! ### Inside of parts -/

/-- The current part holds statements with the property, and what is around it is as given. -/
structure State.Inside (P : Node → Prop) (saved : List (List Operand)) (function : Option FunctionFrame)
    (s : State) : Prop where
  current : s.Holds P
  around : Around saved function s

/-- What leaves parts and functions alone works inside of a part. -/
theorem Still.inside {P : Node → Prop} {R : α → Prop} {x : Rebuild α} (hstill : Still x)
    (hx : Keeps (State.Holds P) x R) : Keeps (State.Inside P saved function) x R := by
  intro s a t hs h
  obtain ⟨ht, ha⟩ := hx s a t hs.current h
  exact ⟨⟨ht, (hstill saved function s a t hs.around h).1⟩, ha⟩

/-- A part, its end, and what comes then.  The part may hold statements with another property. -/
theorem inside_part {β : Type} {L P : Node → Prop} {R : β → Prop} {Q : α → Prop} {x : Rebuild β}
    {f : β → List Node → Rebuild α} (addr : Addr) (hx : ∀ saved, Keeps (State.Inside L saved function) x R)
    (hf : ∀ b ns, R b → (∀ n ∈ ns, n.Layered ∧ L n) → Keeps (State.Inside P saved function) (f b ns) Q) :
    Keeps (State.Inside P saved function) (do openPart; let b ← x; let ns ← closePart addr; f b ns) Q := by
  intro s a t hs h
  obtain ⟨_, s₁, ⟨⟩, h⟩ := bind_eq_ok h
  obtain ⟨b, s₂, hbody, h⟩ := bind_eq_ok h
  obtain ⟨ns, s₃, hclose, h⟩ := bind_eq_ok h
  obtain ⟨hcurrent, rfl, rfl⟩ := hs
  have hopened : State.Inside L (s.operands :: s.saved) s.function
      { s with operands := [], saved := s.operands :: s.saved } :=
    ⟨⟨nofun, hcurrent.frames⟩, rfl, rfl⟩
  obtain ⟨⟨hcurrent₂, hsaved₂, hfunction₂⟩, hb⟩ := hx _ _ b s₂ hopened hbody
  obtain ⟨outer, saved', hsaved, hstatements, rfl⟩ := closePart_eq_ok hclose
  obtain ⟨rfl, rfl⟩ := List.cons.inj (hsaved₂.symm.trans hsaved)
  have hclosed : State.Inside P s.saved s.function { s₂ with operands := s.operands, saved := s.saved } :=
    ⟨⟨hcurrent.operands, hcurrent₂.frames⟩, rfl, hfunction₂⟩
  exact hf b ns hb (holds_of_statements hcurrent₂.operands hstatements) _ a t hclosed h

/-- The same, while statements of another part are held aside. -/
structure State.Holding (L P : Node → Prop) (saved : List (List Operand)) (function : Option FunctionFrame)
    (held : List Node) (s : State) : Prop extends s.Inside P saved function where
  held : ∀ n ∈ held, n.Layered ∧ L n

/-- A part may rest on what is held beside it. -/
theorem keeps_holding {L P : Node → Prop} {R : α → Prop} {x : Rebuild α} {held : List Node}
    (h : (∀ n ∈ held, n.Layered ∧ L n) → Keeps (State.Inside P saved function) x R) :
    Keeps (State.Holding L P saved function held) x R := by
  intro s a t hs hx
  obtain ⟨ht, ha⟩ := h hs.held s a t hs.toInside hx
  exact ⟨⟨ht, hs.held⟩, ha⟩

/-- **What is true inside of parts passes through them.** -/
theorem partRule_inside {K L P : Node → Prop} (hL : Composes K L) :
    PartRule (State.Holding L P saved function) fun x R => ∀ saved, Keeps (State.Inside L saved function) x R where
  part addr hx hf := keeps_holding fun hheld => inside_part addr hx fun b ns hb hns s a t hs h =>
    let ⟨ht, ha⟩ := hf b ns hb s a t ⟨hs, List.forall_mem_append.mpr ⟨hheld, hns⟩⟩ h
    ⟨ht.toInside, ha⟩
  test _ hx saved := (hx saved).bind fun _ _ =>
    ((still_foldLogic _).inside (holds_foldLogic hL _)).bind fun _ _ => still_pop.inside (holds_pop hL)

/-- A loop and the statement that is made of it. -/
theorem inside_loop {K L P : Node → Prop} {body step : Rebuild Unit} {f : LoopParts → Rebuild Unit}
    (hL : Composes K L) (stop : Addr) (split : Bool) (back : Option (Instruction × JumpKind))
    (hbody : ∀ saved, Keeps (State.Inside L saved function) body fun _ => True)
    (hstep : split = true → ∀ saved, Keeps (State.Inside L saved function) step fun _ => True)
    (hf : ∀ parts : LoopParts, parts.Holds L → Keeps (State.Inside P saved function) (f parts) fun _ => True) :
    Keeps (State.Inside P saved function) (loopParts stop body split step back >>= f) fun _ => True := by
  have hloop : Keeps (State.Holding L P saved function []) (loopParts stop body split step back >>= f)
      fun _ => True := by
    refine (partRule_inside hL).loop stop split back hbody hstep fun parts hcondition =>
      keeps_holding fun hheld => ?_
    obtain ⟨hbody, hstep⟩ := List.forall_mem_append.mp hheld
    exact hf parts ⟨hcondition, hbody, hstep⟩
  intro s a t hs h
  obtain ⟨ht, ha⟩ := hloop s a t ⟨hs, nofun⟩ h
  exact ⟨ht.toInside, ha⟩

end Rebuild

/-! ### Quiet regions -/

/-- The event neither begins nor ends a function. -/
def Event.Quiet (function : Option Rebuild.FunctionFrame) : Event → Prop
  | .enter a => ∀ frame ∈ function, a < frame.stop
  | .declare .. => False
  | _ => True

namespace Rebuild

/-- No function is closed before its end. -/
theorem closeFunction_of_lt {addr : Addr} (h : ∀ frame ∈ s.function, addr < frame.stop) :
    closeFunction addr s = .ok ((), s) := by
  unfold closeFunction
  rw [get_bind]
  cases hframe : s.function with
  | none => rfl
  | some frame =>
      dsimp only
      rw [if_pos (h frame hframe)]
      rfl

/-- Quiet addresses close no function, so they may be entered inside of a part. -/
theorem inside_enter {P L : Node → Prop} (hP : Composes L P) {addr : Addr}
    (hquiet : (Event.enter addr).Quiet function) :
    Keeps (State.Inside P saved function) (enter addr) fun _ => True := by
  refine .bind (P := fun _ => True) ?_ fun _ _ => (still_foldLogic _).inside (holds_foldLogic hP _)
  intro s _ t hs h
  rw [closeFunction_of_lt (by rw [hs.around.2]; exact hquiet)] at h
  cases h
  exact ⟨hs, trivial⟩

/-- A step that declares no body keeps statements anchored. -/
theorem anchored_step (h : ∀ stop, ¬ ins.Declares stop) :
    Keeps (State.Holds (Node.Anchored around)) (step ins) fun _ => True := by
  refine holds_of_carries ((composes_anchored around).carried.step fun signature hasBody stop heq => ?_)
  cases hasBody with
  | true => exact absurd ⟨signature, heq⟩ (h stop)
  | false =>
      exact Carried.declareFunction stop ⟨Node.layered_of_bodies rfl nofun nofun, anchored_function signature nofun⟩

/-- In a loop, jumps become statements. -/
theorem inside_leave {kind : BranchKind} (h : around = false → kind = .alternative) :
    Keeps (State.Inside (Node.Anchored around) saved function) (leave ins kind) fun _ => True := by
  refine (still_leave kind).inside ?_
  have hloop : kind ≠ .alternative → around = true := fun hkind => by
    cases around with
    | true => rfl
    | false => exact absurd (h rfl) hkind
  cases kind with
  | leave => exact holds_push (Node.layered_of_bodies rfl nofun nofun) (.mk (fun _ => hloop nofun) nofun)
  | nextRound => exact holds_push (Node.layered_of_bodies rfl nofun nofun) (.mk (fun _ => hloop nofun) nofun)
  | alternative => exact .throw _

theorem inside_fallThrough {P L : Node → Prop} (hP : Composes L P) (kind : JumpKind) :
    Keeps (State.Inside P saved function) (fallThrough ins kind) (Node.Free Node.isStatement) :=
  (still_fallThrough kind).inside (holds_fallThrough hP kind)

/-- What is quiet with its part is quiet inside. -/
theorem quiet_part {es : List Event} (h : ∀ e ∈ Region.partEvents es, e.Quiet function) :
    ∀ e ∈ es, e.Quiet function :=
  fun e he => h e (List.mem_cons_of_mem _ (List.mem_append_left _ he))

theorem quiet_step {split : Bool} {es : List Event} (hsplit : split = true)
    (h : ∀ e ∈ if split then Region.partEvents es else [], e.Quiet function) : ∀ e ∈ es, e.Quiet function := by
  rw [if_pos hsplit] at h
  exact quiet_part h

mutual

/-- **Quiet regions** keep statements anchored.  Outside of loops, this needs that jumps become no statements. -/
theorem inside_run (around : Bool) (r : Region) (hquiet : ∀ e ∈ r.events, e.Quiet function)
    (hgrounded : around = false → r.Grounded) (saved : List (List Operand)) :
    Keeps (State.Inside (Node.Anchored around) saved function) (run r) fun _ => True := by
  have hcomposes := composes_anchored around
  cases r with
  | plain ins =>
      have hundeclared : ∀ stop, ¬ ins.Declares stop := by
        rintro stop ⟨signature, hoperation⟩
        exact hquiet (.declare ins.addr stop) (by simp [Region.events, Instruction.events, hoperation])
      refine .bind (inside_enter hcomposes (hquiet _ List.mem_cons_self)) fun _ _ => ?_
      exact (still_step fun signature stop heq => hundeclared stop ⟨signature, heq⟩).inside
        (anchored_step hundeclared)
  | jump ins kind =>
      exact .bind (inside_enter hcomposes (hquiet _ List.mem_cons_self)) fun _ _ => inside_leave hgrounded
  | broken addr => exact .throw _
  | choice head kind stop body =>
      obtain ⟨hhead, hbody⟩ := List.forall_mem_cons.mp hquiet
      refine .bind (inside_enter hcomposes hhead) fun _ _ => .bind (inside_fallThrough hcomposes kind) fun c hc => ?_
      refine inside_part stop (inside_runAll around body (quiet_part hbody) hgrounded) fun _ t _ ht => ?_
      exact (still_push _).inside (hcomposes.pushChoice hc ht nofun)
  | choiceElse head kind stop body separator alternative =>
      obtain ⟨hhead, hparts⟩ := List.forall_mem_cons.mp hquiet
      obtain ⟨hbody, halternative⟩ := List.forall_mem_append.mp hparts
      refine .bind (inside_enter hcomposes hhead) fun _ _ => .bind (inside_fallThrough hcomposes kind) fun c hc => ?_
      refine inside_part stop (inside_runAll around body (quiet_part hbody) fun h => (hgrounded h).1)
        fun _ t _ ht => ?_
      refine inside_part separator (inside_runAll around alternative (quiet_part halternative)
        fun h => (hgrounded h).2) fun _ e _ he => ?_
      exact (still_push _).inside (hcomposes.pushChoice hc ht he)
  | loop start stop body split step back =>
      obtain ⟨hhead, hparts⟩ := List.forall_mem_cons.mp hquiet
      obtain ⟨hbody, hstep⟩ := List.forall_mem_append.mp hparts
      refine .bind (inside_enter hcomposes hhead) fun _ _ => ?_
      refine inside_loop (composes_anchored true) stop split back
        (inside_runAll true body (quiet_part hbody) nofun)
        (fun hsplit => inside_runAll true step (quiet_step hsplit hstep) nofun) fun parts hparts => ?_
      exact (still_push _).inside (hcomposes.pushLoop hparts _)
  | guarded head kind stop body split step back =>
      obtain ⟨hhead, hparts⟩ := List.forall_mem_cons.mp hquiet
      obtain ⟨hbody, hstep⟩ := List.forall_mem_append.mp hparts
      refine .bind (inside_enter hcomposes hhead) fun _ _ => .bind (inside_fallThrough hcomposes kind) fun c hc => ?_
      refine inside_loop (composes_anchored true) stop split back
        (inside_runAll true body (quiet_part hbody) nofun)
        (fun hsplit => inside_runAll true step (quiet_step hsplit hstep) nofun) fun parts hparts => ?_
      exact (still_guardedLoop c parts).inside (holds_guardedLoop hcomposes hc hparts)

/-- **Quiet regions keep their statements inside of the part.** -/
theorem inside_runAll (around : Bool) (rs : List Region) (hquiet : ∀ e ∈ Region.listEvents rs, e.Quiet function)
    (hgrounded : around = false → Region.ListGrounded rs) (saved : List (List Operand)) :
    Keeps (State.Inside (Node.Anchored around) saved function) (runAll rs) fun _ => True := by
  cases rs with
  | nil => exact .pure trivial
  | cons r rs =>
      obtain ⟨hr, hrs⟩ := List.forall_mem_append.mp hquiet
      exact .bind (inside_run around r hr (fun h => (hgrounded h).1) saved) fun _ _ =>
        inside_runAll around rs hrs (fun h => (hgrounded h).2) saved

end

/-! ### Outside of parts -/

/-- A region that begins with an instruction first closes the function that ends there. -/
theorem run_eq_closeFunction {r : Region} {head : Addr} {es : List Event} (h : r.events = .enter head :: es) :
    ∃ rest : Rebuild Unit, run r = closeFunction head >>= fun _ => rest := by
  cases r with
  | broken addr => cases h
  | plain ins | jump ins kind | choice head kind stop body | choiceElse head kind stop body separator alternative
  | loop start stop body split step back | guarded head kind stop body split step back =>
      cases h
      exact ⟨_, bind_assoc _ _ _⟩

/-- The same region, run where this function has been closed. -/
theorem exists_closed {r : Region} {head : Addr} {es : List Event} (hevents : r.events = .enter head :: es)
    (h : run r s = .ok ((), t)) :
    ∃ s', closeFunction head s = .ok ((), s') ∧ (∀ frame ∈ s'.function, head < frame.stop) ∧
      run r s' = .ok ((), t) := by
  obtain ⟨rest, hrest⟩ := run_eq_closeFunction hevents
  rw [hrest] at h ⊢
  obtain ⟨_, s', hclose, h⟩ := bind_eq_ok h
  have hlt : ∀ frame ∈ s'.function, head < frame.stop := by
    intro frame hframe
    rw [function_closeFunction hclose, Option.mem_filter_iff] at hframe
    exact of_decide_eq_true hframe.2
  refine ⟨s', hclose, hlt, ?_⟩
  show (closeFunction head s' >>= fun p => rest p.2) = _
  rw [closeFunction_of_lt hlt]
  exact h

/-- Outside of parts: all stacks hold anchored statements, and the function was declared in the stream. -/
structure State.Rooted (instrs : List Instruction) (s : State) : Prop where
  current : s.Holds (Node.Anchored false)
  around : ∀ os ∈ s.saved, ∀ o ∈ os, o.Holds (Node.Anchored false)
  declared : ∀ frame ∈ s.function, ∃ ins ∈ instrs, ins.Declares frame.stop

/-- Outside of parts, what leaves functions alone keeps the roots anchored. -/
theorem Still.rooted {R : α → Prop} {x : Rebuild α} (hstill : Still x)
    (hx : Keeps (State.Holds (Node.Anchored false)) x R) : Keeps (State.Rooted instrs) x R := by
  intro s a t hs h
  obtain ⟨hsaved, hfunction⟩ := (hstill s.saved s.function s a t ⟨rfl, rfl⟩ h).1
  obtain ⟨ht, ha⟩ := hx s a t hs.current h
  exact ⟨⟨ht, hsaved ▸ hs.around, hfunction ▸ hs.declared⟩, ha⟩

/-- Ending a function keeps the roots anchored. -/
theorem rooted_endFunction (addr : Addr) : Keeps (State.Rooted instrs) (endFunction addr) fun _ => True := by
  intro s _ t hs h
  cases hframe : s.function with
  | none =>
      rw [endFunction_of_none hframe] at h
      cases h
      exact ⟨hs, trivial⟩
  | some frame =>
      obtain ⟨body, outer, saved, hsaved, -, hstatements, rfl⟩ := endFunction_eq hframe h
      obtain ⟨hcurrent, haround, -⟩ := hs
      rw [hsaved] at haround
      obtain ⟨houter, hrest⟩ := List.forall_mem_cons.mp haround
      have hbody := holds_of_statements hcurrent.operands hstatements
      have hfunction : Operand.Holds (Node.Anchored false) (.node (.function frame.signature body)) :=
        ⟨Node.layered_of_bodies rfl nofun fun c hc => (hbody c hc).1,
          anchored_function _ fun c hc => (hbody c hc).2⟩
      exact ⟨⟨⟨List.forall_mem_cons.mpr ⟨hfunction, houter⟩, hcurrent.frames⟩, hrest, nofun⟩, trivial⟩

/-- So does entering an address. -/
theorem rooted_enter (addr : Addr) : Keeps (State.Rooted instrs) (enter addr) fun _ => True :=
  .enter (rooted_endFunction addr) <|
    (still_foldLogic addr).rooted (holds_foldLogic (composes_anchored false) addr)

/-- The body of a function is a stack of its own. -/
theorem rooted_declareFunction {signature : Signature} {stop : Addr} (hins : ins ∈ instrs)
    (hoperation : ins.operation = .declareFunction signature true stop) :
    Keeps (State.Rooted instrs) (declareFunction ins signature true stop) fun _ => True := by
  refine .bind .get fun s hs => ?_
  split
  · exact .throw _
  · refine .bind (.set ⟨⟨hs.current.operands, hs.current.frames⟩, hs.around, ?_⟩) fun _ _ =>
      .update fun s hs => ⟨⟨nofun, hs.current.frames⟩, ?_, hs.declared⟩
    · rintro _ ⟨⟩
      exact ⟨ins, hins, signature, hoperation⟩
    · exact List.forall_mem_cons.mpr ⟨hs.current.operands, hs.around⟩

/-- So does a step. -/
theorem rooted_step (hins : ins ∈ instrs) : Keeps (State.Rooted instrs) (step ins) fun _ => True := by
  by_cases hdeclares : ∃ stop, ins.Declares stop
  · obtain ⟨stop, signature, hoperation⟩ := hdeclares
    rw [step, hoperation]
    exact rooted_declareFunction hins hoperation
  · have hother : ∀ stop, ¬ ins.Declares stop := fun stop h => hdeclares ⟨stop, h⟩
    exact (still_step fun signature stop heq => hother stop ⟨signature, heq⟩).rooted (anchored_step hother)

/-- A calm region is quiet as soon as the function that ends at its head is closed. -/
theorem quiet_of_calm {head : Addr} {e : Event} (h : Region.Calm instrs head e)
    (hfunction : ∀ frame ∈ function, head < frame.stop ∧ Stream.Uncrossed instrs frame.stop) :
    e.Quiet function := by
  cases e with
  | enter a => exact fun frame hframe => h.lt a rfl _ (hfunction frame hframe).2 (hfunction frame hframe).1
  | declare a stop => exact h.undeclared a stop rfl
  | stray | opens | closes => trivial

/-- A region that crosses no end of a function keeps them too. -/
theorem rooted_calm (hends : ∀ ins ∈ instrs, ∀ stop, ins.Declares stop → Stream.Uncrossed instrs stop)
    {r : Region} {head : Addr} {es : List Event} (hevents : r.events = .enter head :: es)
    (hcalm : ∀ e ∈ es, Region.Calm instrs head e) (hgrounded : r.Grounded) :
    Keeps (State.Rooted instrs) (run r) fun _ => True := by
  intro s _ t hs h
  obtain ⟨s', hclose, hlt, hrun⟩ := exists_closed hevents h
  have hs' := (Keeps.closeFunction (rooted_endFunction head) s () s' hs hclose).1
  have hquiet : ∀ e ∈ r.events, e.Quiet s'.function := by
    rw [hevents]
    refine List.forall_mem_cons.mpr ⟨hlt, fun e he => quiet_of_calm (hcalm e he) fun frame hframe => ?_⟩
    obtain ⟨ins, hins, hdeclares⟩ := hs'.declared frame hframe
    exact ⟨hlt frame hframe, hends ins hins _ hdeclares⟩
  obtain ⟨hcurrent, hsaved, hfunction⟩ :=
    (inside_run false r hquiet (fun _ => hgrounded) s'.saved s' () t ⟨hs'.current, rfl, rfl⟩ hrun).1
  exact ⟨⟨hcurrent, hsaved ▸ hs'.around, hfunction ▸ hs'.declared⟩, trivial⟩

/-- **Outside of parts**, single instructions and calm regions keep statements anchored. -/
theorem rooted_runAll (hends : ∀ ins ∈ instrs, ∀ stop, ins.Declares stop → Stream.Uncrossed instrs stop)
    (rs : List Region) (hgrounded : Region.ListGrounded rs)
    (h : ∀ r ∈ rs, (∃ ins ∈ instrs, r = .plain ins) ∨
      ∃ head es, r.events = .enter head :: es ∧ ∀ e ∈ es, Region.Calm instrs head e) :
    Keeps (State.Rooted instrs) (runAll rs) fun _ => True := by
  induction rs with
  | nil => exact .pure trivial
  | cons r rs ih =>
      obtain ⟨hr, hrs⟩ := List.forall_mem_cons.mp h
      refine .bind (P := fun _ => True) ?_ fun _ _ => ih hgrounded.2 hrs
      rcases hr with ⟨ins, hins, rfl⟩ | ⟨head, es, hevents, hcalm⟩
      · exact .bind (rooted_enter _) fun _ _ => rooted_step hins
      · exact rooted_calm hends hevents hcalm hgrounded.1

end Rebuild

/-! ### Places in trees -/

namespace Node

/-- The node occurs among the trees, below the nodes of the path.  The innermost of them comes first. -/
inductive Occurs (ns : List Node) : List Node → Node → Prop where
  | top {n : Node} (h : n ∈ ns) : Occurs ns [] n
  | child {path : List Node} {n c : Node} (h : Occurs ns path n) (hc : c ∈ n.children) : Occurs ns (n :: path) c

namespace Occurs

variable {ns : List Node} {path : List Node} {n : Node}

/-- A jump among anchored trees lies in a loop, and in the same function as the loop. -/
theorem anchored (h : Occurs ns path n) (hns : ∀ m ∈ ns, m.Anchored false) :
    ∃ around, n.Anchored around ∧ (around = true → ∃ inner l outer, path = inner ++ l :: outer ∧
      l.isLoop = true ∧ ∀ k ∈ inner, k.isFunction = false) := by
  induction h with
  | top h => exact ⟨false, hns _ h, nofun⟩
  | @child path p c _ hc ih =>
      obtain ⟨around, ⟨-, hchildren⟩, hloop⟩ := ih
      refine ⟨p.inLoop around, hchildren c hc, fun hin => ?_⟩
      rcases hp : p.isLoop with _ | _
      · obtain ⟨hfunction, rfl⟩ := inLoop_eq_true hp hin
        obtain ⟨inner, l, outer, rfl, hl, hinner⟩ := hloop rfl
        exact ⟨p :: inner, l, outer, rfl, hl, List.forall_mem_cons.mpr ⟨hfunction, hinner⟩⟩
      · exact ⟨[], p, path, rfl, hp, nofun⟩

/-- What is not on top lies in a tree without nested functions. -/
theorem unnested {roots : List Node} (h : Occurs ns path n) (hns : ∀ m ∈ ns, Rebuild.Grouped roots m)
    (hroots : ∀ m ∈ roots, m.Unnested) :
    (n.Unnested ∨ path = [] ∧ ∃ name functions, n = .package name functions ∧ functions ⊆ roots) ∧
      ∀ p ∈ path, p.isFunction = true → n.Free isFunction := by
  induction h with
  | top h => exact ⟨(hns _ h).imp (hroots _) fun hpackage => ⟨rfl, hpackage⟩, nofun⟩
  | @child path p c _ hc ih =>
      obtain ⟨hplace, hfree⟩ := ih
      have hbelow : c.Unnested ∧ (p.isFunction = true → c.Free isFunction) := by
        rcases hplace with hp | ⟨-, name, functions, rfl, hsub⟩
        · obtain ⟨⟨-, hfunction⟩, hchildren⟩ := unnested_iff.mp hp
          exact ⟨hchildren c hc, fun h => hfunction h c hc⟩
        · exact ⟨hroots c (hsub hc), nofun⟩
      refine ⟨.inl hbelow.1, List.forall_mem_cons.mpr ⟨hbelow.2, fun k hk hfunction => ?_⟩⟩
      exact (hfree k hk hfunction).child hc

end Occurs

/-- The members of a package are anchored as they were before. -/
theorem anchored_of_grouped {ns : List Node} {n : Node} (hns : ∀ m ∈ ns, m.Anchored false)
    (h : Rebuild.Grouped ns n) : n.Anchored false := by
  rcases h with hmem | ⟨name, functions, rfl, hsub⟩
  · exact hns n hmem
  · exact .mk nofun fun c hc => hns c (hsub hc)

end Node

namespace Stream

variable {instrs : List Instruction} {tree : Block} {nodes ns : List Node}

/-- **Anchored statements.**  If no jump crosses a declaration, then all jumps lie in loops. -/
theorem anchored_of_run {t t' : Rebuild.State} (h : Increasing instrs) (htree : blockTree instrs = .ok tree)
    (huncrossed : ∀ ins ∈ instrs, ∀ stop, ins.Declares stop →
      Uncrossed instrs (ins.addr + 1) ∧ Uncrossed instrs stop)
    (hnodes : (rebuild tree instrs).outcome.1 = .ok nodes)
    (hrun : Rebuild.runAll (Region.ofStream tree instrs) {} = .ok ((), t))
    (hend : Rebuild.endFunction Addr.last t = .ok ((), t'))
    (hstatements : Rebuild.statements (last instrs) t'.operands = .ok ns) : ∀ n ∈ ns, n.Anchored false := by
  obtain ⟨-, used, hwalks⟩ := walks_of_rebuild hnodes
  have hcalm := hwalks.calm (Region.made_of_blockTree h htree)
    (fun ins hins stop hdeclares => (huncrossed ins hins stop hdeclares).1) tree.self_mem_preorder
  have hgrounded := hwalks.grounded (grounded_of_blockTree h htree)
  have hstart : Rebuild.State.Rooted instrs {} := ⟨⟨nofun, nofun⟩, nofun, nofun⟩
  have ht := (Rebuild.rooted_runAll (fun ins hins stop hdeclares => (huncrossed ins hins stop hdeclares).2) _
    hgrounded hcalm {} () t hstart hrun).1
  have ht' := (Rebuild.rooted_endFunction Addr.last t () t' ht hend).1
  exact fun n hn => (Rebuild.holds_of_statements ht'.current.operands hstatements n hn).2

/-- Statements come from a tree that was rebuilt. -/
theorem exists_tree_of_statements (h : (statements instrs).outcome.1 = .ok nodes) :
    ∃ tree, blockTree instrs = .ok tree ∧ (rebuild tree instrs).outcome.1 = .ok nodes := by
  rw [statements, Logged.outcome_bind (steady_analyze instrs) fun tree => steady_rebuild tree instrs,
    outcome_analyze] at h
  exact bind_eq_ok_iff.mp h

/-- **Well-formed trees.**  In the tree of any stream, no function stands in another one, and packages stand
outside of everything.  If no jump crosses a declaration or the end of its function, then every `break` and
`continue` stands in a loop, and in the same function as this loop. -/
theorem nesting_of_statements (hnodes : (statements instrs).outcome.1 = .ok nodes) :
    (∀ path n, Node.Occurs nodes path n →
      (n.isFunction = true → ∀ p ∈ path, p.isFunction = false) ∧ (n.isPackage = true → path = [])) ∧
    (Increasing instrs →
      (∀ ins ∈ instrs, ∀ stop, ins.Declares stop → Uncrossed instrs (ins.addr + 1) ∧ Uncrossed instrs stop) →
      ∀ path n, Node.Occurs nodes path n → n.isJump = true →
        ∃ inner l outer, path = inner ++ l :: outer ∧ l.isLoop = true ∧ ∀ k ∈ inner, k.isFunction = false) := by
  obtain ⟨tree, htree, hrebuild⟩ := exists_tree_of_statements hnodes
  obtain ⟨t, t', ns, hrun, hend, hstatements, rfl⟩ := exists_of_rebuild hrebuild
  have hunnested := unnested_of_run hrun hend hstatements
  have hgrouped := Rebuild.grouped_groupPackages fun n hn => (Node.unnested_iff.mp (hunnested n hn)).1.1
  refine ⟨fun path n hn => ?_, fun hincreasing huncrossed path n hn hjump => ?_⟩
  · obtain ⟨hplace, hfree⟩ := hn.unnested hgrouped hunnested
    refine ⟨fun hfunction p hp => ?_, fun hpackage => ?_⟩
    · cases hp' : p.isFunction with
      | false => rfl
      | true => exact absurd (hfunction.symm.trans (Node.free_iff.mp (hfree p hp hp')).1) (by decide)
    · rcases hplace with hplace | ⟨hpath, -⟩
      · exact absurd (hpackage.symm.trans (Node.unnested_iff.mp hplace).1.1) (by decide)
      · exact hpath
  · have hanchored := anchored_of_run hincreasing htree huncrossed hrebuild hrun hend hstatements
    obtain ⟨around, ⟨haround, -⟩, hloop⟩ := hn.anchored fun m hm => Node.anchored_of_grouped hanchored (hgrouped m hm)
    exact hloop (haround hjump)

/-- A loop in a function of a package, with a `break` in a choice. -/
def breakInFunction : List Instruction :=
  [⟨0, 1, .funcDecl, .declareFunction ⟨"f", none, some "P", []⟩ true 7⟩, ⟨1, 1, .loadImmedUint, .immediateUint 1⟩,
    ⟨2, 1, .jmpIfNot, .jump .ifNot 4⟩, ⟨3, 1, .jmp, .jump .always 6⟩, ⟨4, 1, .loadImmedUint, .immediateUint 2⟩,
    ⟨5, 1, .jmpIf, .jump .ifTrue 1⟩, ⟨6, 1, .ret, .ret false⟩, ⟨7, 1, .ret, .ret false⟩]

/-- The statements of `breakInFunction`. -/
def breakInFunctionNodes : List Node :=
  [.package "P" [.function ⟨"f", none, some "P", []⟩ [.loop .doWhile none (.constant (.uint 2)) none
    [.ifElse (.constant (.uint 1)) [.breakLoop] []], .ret none]], .ret none]

/-- A break in a loop in a function stands within that loop. -/
theorem nesting_of_statements_breakInFunction :
    (statements breakInFunction).outcome.1 = .ok breakInFunctionNodes ∧ Increasing breakInFunction ∧
      (∀ ins ∈ breakInFunction, ∀ stop, ins.Declares stop →
        Uncrossed breakInFunction (ins.addr + 1) ∧ Uncrossed breakInFunction stop) ∧
      (∃ path, Node.Occurs breakInFunctionNodes path .breakLoop) ∧
      ∀ path, Node.Occurs breakInFunctionNodes path .breakLoop →
        ∃ inner l outer, path = inner ++ l :: outer ∧ l.isLoop = true ∧ ∀ k ∈ inner, k.isFunction = false := by
  have hnodes : (statements breakInFunction).outcome.1 = .ok breakInFunctionNodes := by cbv
  have hincreasing : Increasing breakInFunction := by
    unfold Increasing breakInFunction
    decide
  have huncrossed : ∀ ins ∈ breakInFunction, ∀ stop, ins.Declares stop →
      Uncrossed breakInFunction (ins.addr + 1) ∧ Uncrossed breakInFunction stop := by
    simp [breakInFunction, Instruction.Declares, Uncrossed, Instruction.jump?]
  have hpath : ∃ path, Node.Occurs breakInFunctionNodes path .breakLoop :=
    ⟨_, .child (.child (.child (.child (.top List.mem_cons_self) List.mem_cons_self) List.mem_cons_self)
      (List.mem_cons_of_mem _ List.mem_cons_self)) (List.mem_cons_of_mem _ List.mem_cons_self)⟩
  refine ⟨hnodes, hincreasing, huncrossed, hpath, fun path hbreak => ?_⟩
  exact (nesting_of_statements hnodes).2 hincreasing huncrossed path _ hbreak rfl

end Stream

end TorqueScript
