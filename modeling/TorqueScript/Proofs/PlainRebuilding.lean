import TorqueScript.Proofs.PlainSteps

/-!
# Rebuilding without compound assignments

From instructions the lockstep is carried on to regions (`Rebuild.unfolds_run`), with parts that have states of
their own, and to the end of the stream.

**Compound assignments** (`Stream.compounds_writtenAlike`).  Source is written in the same way with compound
assignments and without them, and so it does not matter to the source of a stream that rebuilding makes some.
-/

namespace TorqueScript

namespace Rebuild

variable {ins : Instruction}

/-! ### Regions -/

/-- The condition under which one goes on behind a jump. -/
theorem unfolds_fallThrough (kind : JumpKind) :
    Unfolds Node.unfolded (Node.Settled) (fallThrough ins kind) (fallThrough ins kind) := by
  refine .bind unfolds_pop fun condition h => ?_
  split
  · exact .pure (Node.settled_negate h) condition.negate_unfolded.symm
  · exact .pure h rfl

/-- A jump becomes a statement without anything in it. -/
theorem unfolds_leave (kind : BranchKind) : UnfoldsUnit (leave ins kind) (leave ins kind) := by
  cases kind with
  | leave | nextRound => exact unfolds_leaf rfl rfl
  | alternative => exact .throw _

/-- The parts of a loop with their nodes unfolded. -/
def LoopParts.unfolded (parts : LoopParts) : LoopParts where
  condition := parts.condition.unfolded
  body := parts.body.map Node.unfolded
  step := parts.step.map Node.unfolded

/-- The parts of a loop have assignments in them as rebuilding makes them. -/
structure LoopParts.Settled (parts : LoopParts) : Prop where
  condition : parts.condition.Settled
  body : ∀ n ∈ parts.body, n.Settled
  step : ∀ n ∈ parts.step, n.Settled

/-- All statements of the parts of a settled loop are settled. -/
theorem LoopParts.Settled.whole {parts : LoopParts} (h : parts.Settled) :
    ∀ n ∈ parts.body ++ parts.step, n.Settled :=
  List.forall_mem_append.mpr ⟨h.body, h.step⟩

/-- The end of a loop gives its condition and what stands in front of it. -/
theorem unfolds_endLoop (stop : Addr) (back : Option (Instruction × JumpKind)) :
    Unfolds (Prod.map Node.unfolded (List.map Node.unfolded))
      (fun p => p.1.Settled ∧ ∀ n ∈ p.2, n.Settled) (endLoop stop back) (endLoop stop back) := by
  cases back with
  | none => exact .throw _
  | some p =>
      obtain ⟨ins, kind⟩ := p
      refine .bind (unfolds_foldLogic ins.addr) fun _ _ => .bind unfolds_pop fun condition hcondition => ?_
      refine .bind (unfolds_closePart ins.addr) fun rest hrest => ?_
      cases kind.whenTrue with
      | true => exact .pure ⟨hcondition, hrest⟩ rfl
      | false => exact .pure ⟨Node.settled_negate hcondition, hrest⟩ (by simp [Node.negate_unfolded])

/-- **The parts of a loop** are run on stacks of their own. -/
theorem unfolds_loopParts (stop : Addr) {body body' step step' : Rebuild Unit} (split : Bool)
    (back : Option (Instruction × JumpKind)) (hbody : UnfoldsUnit body body') (hstep : UnfoldsUnit step step') :
    Unfolds LoopParts.unfolded LoopParts.Settled (loopParts stop body split step back)
      (loopParts stop body' split step' back) := by
  refine .bind unfolds_openPart fun _ _ => .bind hbody fun _ _ => ?_
  cases split with
  | true =>
      refine .bind (unfolds_closePart stop) fun body hbody => .bind unfolds_openPart fun _ _ => ?_
      refine .bind hstep fun _ _ => .bind (unfolds_endLoop stop back) fun p hp => ?_
      exact .pure ⟨hp.1, hbody, hp.2⟩ rfl
  | false => exact .bind (unfolds_endLoop stop back) fun p hp => .pure ⟨hp.1, hp.2, List.forall_mem_nil _⟩ rfl

/-- The loop that a part of a stream becomes when it has neither a first part nor a step. -/
theorem unfolds_wholeLoop (kind : LoopKind) {parts : LoopParts} (h : parts.Settled) :
    UnfoldsUnit (push (.loop kind none parts.condition none (parts.body ++ parts.step)))
      (push (.loop kind none parts.unfolded.condition none (parts.unfolded.body ++ parts.unfolded.step))) := by
  have hloop := unfolds_make (n := .loop kind none parts.condition none (parts.body ++ parts.step)) rfl
    (List.forall_mem_cons.mpr ⟨h.condition, h.whole⟩)
  rwa [Node.mapChildren, List.map_append] at hloop

/-- Taking the first part of a loop tests whether the condition reads the target of an assignment. -/
theorem unfolds_takeInit {condition : Node} (hcondition : condition.Settled) :
    Unfolds (Option.map Node.unfolded) (fun init => ∀ n ∈ init, n.Settled) (takeInit condition)
      (takeInit condition.unfolded) := by
  refine ⟨fun s init t hs h => ?_, fun s hs => ?_⟩
  · obtain ⟨rfl, rfl⟩ | ⟨target, op, value, os, hos, -, rfl, rfl⟩ := takeInit_eq_ok h
    · exact ⟨hs, by rintro _ ⟨⟩⟩
    · obtain ⟨hassign, hrest⟩ := List.forall_mem_cons.mp (hos ▸ hs.operands)
      exact ⟨{ hs with operands := hrest }, fun n hn => Option.some.inj hn ▸ hassign⟩
  · obtain ⟨operands⟩ := s
    match operands with
    | [] | .accumulator .. :: _ => rfl
    | .node n :: os =>
        cases n with
        | assign target op value =>
            have hassign : (Node.assign target op value).Settled := hs.operands _ (List.mem_cons_self)
            have hcontains := Node.contains_unfolded hcondition (hassign.child (by simp [Node.children]))
              hassign.isPlace
            obtain ⟨op', value', h⟩ := Node.exists_unfolded_assign target op value
            simp only [takeInit, State.unfolded, List.map_cons, Operand.unfolded, h, hcontains]
            split
            · rw [← h]; rfl
            · simp only [← h]; rfl
        | _ => rfl

/-- A loop is put together with its guard. -/
theorem unfolds_guardedLoop {guard : Node} (hguard : guard.Settled) {parts : LoopParts} (h : parts.Settled) :
    UnfoldsUnit (guardedLoop guard parts) (guardedLoop guard.unfolded parts.unfolded) := by
  have hsame : parts.unfolded.condition = guard.unfolded ↔ parts.condition = guard :=
    Node.unfolded_inj h.condition hguard
  simp only [guardedLoop, ne_eq, hsame]
  split
  · -- a loop with another condition is the only statement behind the jump
    have hloop : parts.doWhile.Settled :=
      Node.settled_of_target? rfl (List.forall_mem_cons.mpr ⟨h.condition, h.whole⟩)
    have hunfolded : parts.doWhile.unfolded = parts.unfolded.doWhile := by
      rw [Node.unfolded_of_target? rfl, LoopParts.doWhile, Node.mapChildren, List.map_append]
      rfl
    rw [← hunfolded]
    exact unfolds_make rfl (by simp [Node.children, hguard, hloop])
  · obtain ⟨condition, body, step⟩ := parts
    cases step with
    | nil => exact unfolds_wholeLoop .whileLoop h
    | cons step steps =>
        cases steps with
        | cons => exact unfolds_wholeLoop .whileLoop h
        | nil =>
            change UnfoldsUnit (if step.isStatement then _ else _) (if step.unfolded.isStatement then _ else _)
            rw [Node.isStatement_unfolded]
            split
            · exact unfolds_wholeLoop .whileLoop h
            · refine .bind (unfolds_takeInit h.condition) fun init hinit => ?_
              refine unfolds_make (n := .loop .forLoop init condition (some step) body) rfl ?_
              have hcondition : condition.Settled := h.condition
              have hbody : ∀ n ∈ body, n.Settled := h.body
              have hstep : step.Settled := h.step step (List.mem_singleton_self step)
              simp only [Node.children, Option.toList_some, List.forall_mem_append, List.forall_mem_cons,
                Option.mem_toList]
              exact ⟨⟨hinit, hcondition, hstep, List.forall_mem_nil _⟩, hbody⟩

mutual

/-- **Regions** do the same with plain assignments. -/
theorem unfolds_run : ∀ r : Region, UnfoldsUnit (run r) (runWith (stepWith (.assign · none ·)) r)
  | .plain ins => by
      rw [run, runWith]
      exact .bind (unfolds_enter _) fun _ _ => unfolds_step
  | .jump ins kind => by
      rw [run, runWith]
      exact .bind (unfolds_enter _) fun _ _ => unfolds_leave kind
  | .broken addr => by
      rw [run, runWith]
      exact .throw _
  | .choice head kind stop body => by
      rw [run, runWith]
      refine .bind (unfolds_enter _) fun _ _ => .bind (unfolds_fallThrough kind) fun condition hcondition => ?_
      refine .bind unfolds_openPart fun _ _ => .bind (unfolds_runAll body) fun _ _ => ?_
      refine .bind (unfolds_closePart stop) fun thenBody hthen => ?_
      exact unfolds_make rfl (by simpa [Node.children, hcondition] using hthen)
  | .choiceElse head kind stop body separator alternative => by
      rw [run, runWith]
      refine .bind (unfolds_enter _) fun _ _ => .bind (unfolds_fallThrough kind) fun condition hcondition => ?_
      refine .bind unfolds_openPart fun _ _ => .bind (unfolds_runAll body) fun _ _ => ?_
      refine .bind (unfolds_closePart stop) fun thenBody hthen => .bind unfolds_openPart fun _ _ => ?_
      refine .bind (unfolds_runAll alternative) fun _ _ => .bind (unfolds_closePart separator) fun elseBody helse => ?_
      refine unfolds_make rfl (List.forall_mem_cons.mpr ⟨hcondition, List.forall_mem_append.mpr ⟨hthen, helse⟩⟩)
  | .loop start stop body split step back => by
      rw [run, runWith]
      refine .bind (unfolds_enter _) fun _ _ => ?_
      refine .bind (unfolds_loopParts stop split back (unfolds_runAll body) (unfolds_runAll step)) fun parts h => ?_
      exact unfolds_wholeLoop .doWhile h
  | .guarded head kind stop body split step back => by
      rw [run, runWith]
      refine .bind (unfolds_enter _) fun _ _ => .bind (unfolds_fallThrough kind) fun guard hguard => ?_
      refine .bind (unfolds_loopParts stop split back (unfolds_runAll body) (unfolds_runAll step)) fun parts h => ?_
      exact unfolds_guardedLoop hguard h

/-- Regions that follow each other. -/
theorem unfolds_runAll : ∀ rs : List Region, UnfoldsUnit (runAll rs) (runAllWith (stepWith (.assign · none ·)) rs)
  | [] => .pure trivial rfl
  | r :: rs => by
      rw [runAll, runAllWith]
      exact .bind (unfolds_run r) fun _ _ => unfolds_runAll rs

end

/-! ### The end of a stream -/

/-- At the end of the stream, functions and operators must have ended. -/
theorem unfolds_close (last : Addr) : UnfoldsUnit (close last) (close last) := by
  refine .bind (unfolds_endFunction _) fun _ _ => .bind .get fun s hs => ?_
  dsimp only [State.unfolded]
  rw [List.isEmpty_map]
  split
  · exact .throw _
  · split
    · exact .throw _
    · exact .pure trivial rfl

/-- The program is asked for before or after unfolding. -/
theorem program_unfolded (last : Addr) (s : State) :
    program last s.unfolded = (program last s).map (List.map Node.unfolded) := by
  have hstatements := statements_unfolded last s.operands
  rw [program, program]
  change (statements last (s.operands.map Operand.unfolded) >>= _) = _
  rw [hstatements]
  cases statements last s.operands with
  | error => rfl
  | ok ns => exact congrArg Except.ok (groupPackages_unfolded ns)

/-- The program of a settled state is settled. -/
theorem settled_of_program {last : Addr} {s : State} {nodes : List Node} (hs : s.Settled)
    (h : program last s = .ok nodes) : ∀ n ∈ nodes, n.Settled := by
  obtain ⟨ns, hns, h⟩ := TorqueScript.bind_eq_ok_iff.mp h
  cases h
  exact settled_groupPackages (settled_of_statements hs.operands hns)

end Rebuild

namespace Stream

open Logged

/-- The source of a stream, with assignments made in a way of one's own. -/
def sourceWith (make : Node → Node → Node) (instrs : List Instruction) : Logged String := do
  let tree ← analyze instrs
  let ((), s) ← silent (StateT.run (do
    Rebuild.runAllWith (Rebuild.stepWith make) (Region.ofStream tree instrs)
    Rebuild.close (last instrs)) {})
  tellCount s.frames.length .openFrames
  tellCount s.pending.length .openLogic
  let nodes ← silent (Rebuild.program (last instrs) s)
  tell (.built nodes.length)
  let tokens ← silent (Source.program nodes)
  pure (Source.text tokens)

/-- With compound assignments, regions are run as they are. -/
theorem runAllWith_assignment (rs : List Region) :
    Rebuild.runAllWith (Rebuild.stepWith Rebuild.assignment) rs = Rebuild.runAll rs :=
  funext fun _ => Rebuild.runAllWith_eq_runAll rs fun p _ => congrFun (Rebuild.stepWith_assignment p.1) p.2

/-- With compound assignments, this is the source of a stream. -/
theorem sourceWith_assignment (lineBreaks : List LineBreak) (instrs : List Instruction) :
    sourceWith Rebuild.assignment instrs = text .source lineBreaks instrs := by
  simp only [sourceWith, runAllWith_assignment, text, statements, rebuild, run, bind_assoc, pure_bind]

/-- A result that is changed, and the change makes no difference later. -/
theorem silent_map_bind {α β γ : Type} {x : Except Error α} {u : α → β} {f : α → Logged γ} {g : β → Logged γ}
    (h : ∀ a, x = .ok a → g (u a) = f a) : (silent (x.map u) >>= g) = (silent x >>= f) := by
  cases x with
  | error => rfl
  | ok a => exact h a rfl

/-- The source is the same with plain assignments. -/
theorem sourceWith_plain (instrs : List Instruction) :
    sourceWith (.assign · none ·) instrs = sourceWith Rebuild.assignment instrs := by
  refine bind_congr fun tree => ?_
  have hrun : Rebuild.UnfoldsUnit
      (do Rebuild.runAll (Region.ofStream tree instrs); Rebuild.close (last instrs))
      (do Rebuild.runAllWith (Rebuild.stepWith (.assign · none ·)) (Region.ofStream tree instrs)
          Rebuild.close (last instrs)) :=
    (Rebuild.unfolds_runAll _).bind fun _ _ => Rebuild.unfolds_close _
  have hinitial : Rebuild.State.Settled {} :=
    ⟨List.forall_mem_nil _, List.forall_mem_nil _, List.forall_mem_nil _⟩
  rw [runAllWith_assignment]
  refine (congrArg (silent · >>= _) (hrun.run {} hinitial)).trans (silent_map_bind fun p hp => ?_)
  obtain ⟨⟨⟩, s⟩ := p
  have hs : s.Settled := (hrun.keeps _ _ _ hinitial hp).1
  have hframes : s.unfolded.frames.length = s.frames.length := List.length_map _
  dsimp only [Prod.map]
  rw [hframes]
  refine bind_congr fun _ => bind_congr fun _ => ?_
  rw [Rebuild.program_unfolded]
  refine silent_map_bind fun nodes hnodes => ?_
  have hdiscerned : ∀ n ∈ nodes, n.Discerned := fun n hn =>
    (Rebuild.settled_of_program hs hnodes n hn).discerned
  rw [List.length_map, Source.program_unfolded hdiscerned]

/-- **Compound assignments** are written alike in both forms, if no target has an assignment in it; and the source of
a stream is the same, messages and failures included, if rebuilding makes no compound assignments. -/
theorem compounds_writtenAlike {nodes : List Node} (h : ∀ n ∈ nodes, n.PlainTargets) (lineBreaks : List LineBreak)
    (instrs : List Instruction) :
    Source.program (nodes.map Node.unfolded) = Source.program nodes ∧
      sourceWith (.assign · none ·) instrs = text .source lineBreaks instrs :=
  ⟨Source.program_unfolded fun n hn => (h n hn).discerned,
    (sourceWith_plain instrs).trans (sourceWith_assignment lineBreaks instrs)⟩

/-- `%a += (%b -= 2);`, `%o.x[%i] *= 3;` and `return %i++;`. -/
def nestedCompounds : List Node :=
  [.assign (.var "%a" none) (some .add) (.assign (.var "%b" none) (some .sub) (.constant (.uint 2))),
    .assign (.field (some (.var "%o" none)) "x" (some (.var "%i" none))) (some .mul) (.constant (.uint 3)),
    .ret (some (.assign (.var "%i" none) (some .add) (.constant (.uint 1))))]

/-- `%a = %a + (%b = %b - 1);`. -/
def nestedSums : List Instruction :=
  [⟨0, 2, .setCurVar, .selectVar "%a" false⟩, ⟨2, 1, .loadVarFloat, .loadVar .float⟩,
    ⟨3, 2, .setCurVar, .selectVar "%b" false⟩, ⟨5, 1, .loadVarFloat, .loadVar .float⟩,
    ⟨6, 2, .loadImmedUint, .immediateUint 1⟩, ⟨8, 1, .sub, .binary .sub⟩,
    ⟨9, 2, .setCurVarCreate, .selectVar "%b" true⟩, ⟨11, 1, .saveVarFloat, .saveVar .float⟩,
    ⟨12, 1, .add, .binary .add⟩, ⟨13, 2, .setCurVarCreate, .selectVar "%a" true⟩,
    ⟨15, 1, .saveVarFloat, .saveVar .float⟩, ⟨16, 1, .ret, .ret false⟩]

/-- Compound assignments inside of each other, and at the places where more than the value is looked at. -/
theorem compounds_writtenAlike_nested :
    (∀ n ∈ nestedCompounds, n.PlainTargets) ∧
      Source.program (nestedCompounds.map Node.unfolded) =
        .ok (["%a", " ", "+=", " ", "(", "%b", " ", "-=", " ", "2", ")", ";", "\n"] ++
          ["%o", ".", "x", "[", "%i", "]", " ", "*=", " ", "3", ";", "\n", "return", " ", "%i", "++", ";", "\n"]) ∧
      (sourceWith (.assign · none ·) nestedSums).outcome.1 = .ok "%a += (%b--);\nreturn;\n" := by
  have htargets : ∀ n ∈ nestedCompounds, n.PlainTargets := by decide
  obtain ⟨hprogram, htext⟩ := compounds_writtenAlike htargets [] nestedSums
  exact ⟨htargets, hprogram.trans (by cbv), htext ▸ (by cbv)⟩

end Stream

end TorqueScript
