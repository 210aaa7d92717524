import TorqueScript.Proofs.Acceptance
import TorqueScript.Proofs.RenamedRegions
import TorqueScript.Proofs.Stages

/-!
# Only the order of addresses matters

Rebuilding statements asks for addresses in three places: where a function ends, where the right operand of `&&`
or `||` ends, and in its errors.  So two states are as good as each other if they are the same up to related
addresses (`Rebuild.State.Renamed`), and running the same regions on them gives the same nodes, or errors that
differ in their addresses only (`Rebuild.Mirrors`).

**Only the order counts** (`Stream.statements_rename`).  If the addresses of a stream, the targets of its jumps and
the ends of its functions are renamed in a way that keeps their order, then the same statements are rebuilt, or the
stream is refused for the same reason.
-/

namespace TorqueScript

namespace Rebuild

/-! ### Related states -/

/-- The same `&&` or `||`, up to related addresses. -/
structure Pending.Renamed (R : Addr → Addr → Prop) (p p' : Pending) : Prop where
  target : R p.target p'.target
  op : p.op = p'.op
  opcode : p.source.opcode = p'.source.opcode

/-- The same function, up to related addresses. -/
structure FunctionFrame.Renamed (R : Addr → Addr → Prop) (frame frame' : FunctionFrame) : Prop where
  signature : frame.signature = frame'.signature
  stop : R frame.stop frame'.stop
  depth : frame.depth = frame'.depth

/-- The states are the same up to related addresses. -/
structure State.Renamed (R : Addr → Addr → Prop) (s s' : State) : Prop where
  operands : s.operands = s'.operands
  saved : s.saved = s'.saved
  frames : s.frames = s'.frames
  function : Option.Rel (FunctionFrame.Renamed R) s.function s'.function
  objectDepth : s.objectDepth = s'.objectDepth
  fieldOwner : s.fieldOwner = s'.fieldOwner
  pending : List.Forall₂ (Pending.Renamed R) s.pending s'.pending

/-- A function is being declared on both sides or on none. -/
theorem State.Renamed.function_cases {R : Addr → Addr → Prop} {s s' : State} (h : s.Renamed R s') :
    (s.function = none ∧ s'.function = none) ∨
    ∃ frame frame', s.function = some frame ∧ s'.function = some frame' ∧ frame.Renamed R frame' := by
  cases hfunction : s.function with
  | none => exact .inl ⟨rfl, eq_none_of_rel h.function hfunction⟩
  | some frame =>
      obtain ⟨frame', hfunction', hframe⟩ := exists_of_rel h.function hfunction
      exact .inr ⟨frame, frame', rfl, hfunction', hframe⟩

/-- Run on related states, both computations end with related results in related states, or with errors that differ
in their addresses only. -/
def Mirrors {α β : Type} (R : Addr → Addr → Prop) (Q : α → β → Prop) (x : Rebuild α) (y : Rebuild β) : Prop :=
  ∀ s s', s.Renamed R s' → EndsAlike (fun p q => Q p.1 q.1 ∧ p.2.Renamed R q.2) (x s) (y s')

variable {α β γ δ : Type} {R : Addr → Addr → Prop} {P : α → β → Prop} {Q : γ → δ → Prop}

namespace Mirrors

/-- Computations that mirror each other may go on with computations that do. -/
theorem bind {x : Rebuild α} {y : Rebuild β} {f : α → Rebuild γ} {g : β → Rebuild δ} (h : Mirrors R P x y)
    (hfg : ∀ a b, P a b → Mirrors R Q (f a) (g b)) : Mirrors R Q (x >>= f) (y >>= g) :=
  fun s s' hs => (h s s' hs).bind fun p q hpq => hfg p.1 q.1 hpq.1 p.2 q.2 hpq.2

/-- The same result on both sides. -/
theorem seq {x y : Rebuild α} {f : α → Rebuild γ} {g : α → Rebuild δ} (h : Mirrors R Eq x y)
    (hfg : ∀ a, Mirrors R Q (f a) (g a)) : Mirrors R Q (x >>= f) (y >>= g) :=
  h.bind fun a _ hab => hab ▸ hfg a

theorem pure {a : α} {b : β} (h : P a b) : Mirrors R P (Pure.pure a) (Pure.pure b) :=
  fun _ _ hs => .ok ⟨h, hs⟩

theorem throw {e e' : Error} (h : e.unplaced = e'.unplaced) :
    Mirrors R P (throwThe Error e : Rebuild α) (throwThe Error e' : Rebuild β) :=
  fun _ _ _ => .error h

theorem get : Mirrors R (State.Renamed R) (MonadState.get : Rebuild State) MonadState.get :=
  fun _ _ hs => .ok ⟨hs, hs⟩

theorem set {t t' : State} (h : t.Renamed R t') : Mirrors R Eq (MonadState.set t : Rebuild PUnit) (MonadState.set t') :=
  fun _ _ _ => .ok ⟨rfl, h⟩

theorem update {f g : State → State} (h : ∀ s s', s.Renamed R s' → (f s).Renamed R (g s')) :
    Mirrors R Eq (modify f : Rebuild PUnit) (modify g) :=
  fun s s' hs => .ok ⟨rfl, h s s' hs⟩

end Mirrors

/-! ### Operands -/

/-- Operands have no addresses, so what is put on the stack is the same. -/
theorem mirrors_pushOperand (o : Operand) : Mirrors R Eq (pushOperand o) (pushOperand o) :=
  .update fun _ _ hs => { hs with operands := congrArg (o :: ·) hs.operands }

theorem mirrors_push (n : Node) : Mirrors R Eq (push n) (push n) :=
  mirrors_pushOperand _

/-- Nor does it depend on an address which operands are taken from the stack. -/
theorem mirrors_popWhile (p : Operand → Bool) : Mirrors R Eq (popWhile p) (popWhile p) := by
  refine .bind .get fun s s' hs => .seq (.set ?_) fun _ => .pure (by rw [hs.operands])
  exact { hs with operands := by rw [hs.operands] }

section Instructions

variable {ins ins' : Instruction} (h : ins.opcode = ins'.opcode)

include h

theorem mirrors_popOperand : Mirrors R Eq (popOperand ins) (popOperand ins') := by
  intro s s' hs
  rw [popOperand, popOperand, ← hs.operands]
  split
  · exact .ok ⟨rfl, { hs with operands := rfl }⟩
  · exact .error (by rw [underflow, underflow, Error.unplaced, Error.unplaced, h])

theorem mirrors_unexpected {α : Type} (expected found : String) :
    Mirrors R (Eq (α := α)) (throwThe Error (unexpected ins expected found))
      (throwThe Error (unexpected ins' expected found)) :=
  .throw (by rw [unexpected, unexpected, Error.unplaced, Error.unplaced, h])

/-- Taking a value from the stack fails on both sides or on none. -/
theorem mirrors_pop : Mirrors R Eq (pop ins) (pop ins') := by
  refine (mirrors_popOperand h).seq fun o => ?_
  cases o with
  | node n =>
      dsimp only
      split
      · exact .pure rfl
      · exact mirrors_unexpected h _ _
  | accumulator => exact mirrors_unexpected h _ _

/-- Taking the left half of a string operation, too. -/
theorem mirrors_popAccumulator : Mirrors R Eq (popAccumulator ins) (popAccumulator ins') := by
  refine (mirrors_popOperand h).seq fun o => ?_
  cases o with
  | node => exact mirrors_unexpected h _ _
  | accumulator => exact .pure rfl

/-! ### Strings -/

theorem mirrors_advance (kind : Accumulation) : Mirrors R Eq (advance ins kind) (advance ins' kind) :=
  (mirrors_pop h).seq fun _ => mirrors_pushOperand _

theorem mirrors_rewind : Mirrors R Eq (rewind ins) (rewind ins') := by
  refine (mirrors_pop h).seq fun right => (mirrors_popAccumulator h).seq fun p => ?_
  obtain ⟨left, kind⟩ := p
  cases kind with
  | join | comma => exact mirrors_push _
  | compare => exact mirrors_unexpected h _ _

theorem mirrors_compareStrings : Mirrors R Eq (compareStrings ins) (compareStrings ins') := by
  refine (mirrors_pop h).seq fun right => (mirrors_popAccumulator h).seq fun p => ?_
  obtain ⟨left, kind⟩ := p
  dsimp only
  split
  · exact mirrors_push _
  · exact mirrors_unexpected h _ _

theorem mirrors_terminate : Mirrors R Eq (terminate ins) (terminate ins') := by
  refine (mirrors_popOperand h).seq fun o => ?_
  cases o with
  | accumulator => exact mirrors_push _
  | node => exact (mirrors_popAccumulator h).seq fun _ => (mirrors_push _).seq fun _ => mirrors_push _

/-! ### Variables and fields -/

theorem mirrors_indexVariable : Mirrors R Eq (indexVariable ins) (indexVariable ins') := by
  refine (mirrors_pop h).seq fun n => ?_
  split
  · exact mirrors_push _
  · exact mirrors_push _
  · refine (mirrors_pop h).seq fun v => ?_
    split
    · exact mirrors_push _
    · exact mirrors_unexpected h _ _

theorem mirrors_selectField (name : String) : Mirrors R Eq (selectField ins name) (selectField ins' name) := by
  refine .bind .get fun s s' hs => .seq (.set { hs with fieldOwner := rfl }) fun _ => ?_
  rw [hs.fieldOwner]
  split
  · exact (mirrors_pop h).seq fun _ => mirrors_push _
  · exact mirrors_push _
  · exact mirrors_push _

theorem mirrors_indexField : Mirrors R Eq (indexField ins) (indexField ins') := by
  refine (mirrors_pop h).seq fun index => (mirrors_pop h).seq fun n => ?_
  split
  · exact mirrors_push _
  · exact mirrors_unexpected h _ _

theorem mirrors_saveVariable : Mirrors R Eq (saveVariable ins) (saveVariable ins') := by
  refine (mirrors_pop h).seq fun target => ?_
  split
  · exact (mirrors_pop h).seq fun _ => mirrors_push _
  · exact mirrors_unexpected h _ _

theorem mirrors_saveField : Mirrors R Eq (saveField ins) (saveField ins') := by
  refine (mirrors_pop h).seq fun target => ?_
  split
  · exact (mirrors_pop h).seq fun _ => mirrors_push _
  · exact mirrors_unexpected h _ _

/-! ### Calls and objects -/

theorem mirrors_popFrame : Mirrors R Eq (popFrame ins) (popFrame ins') := by
  intro s s' hs
  rw [popFrame, popFrame, ← hs.frames]
  split
  · exact .ok ⟨rfl, { hs with frames := rfl }⟩
  · exact .error (by rw [frameUnderflow, frameUnderflow, Error.unplaced, Error.unplaced, h])

theorem mirrors_pushArgument : Mirrors R Eq (pushArgument ins) (pushArgument ins') := by
  refine (mirrors_pop h).seq fun value => .bind .get fun s s' hs => ?_
  rw [← hs.frames]
  split
  · exact .set { hs with frames := rfl }
  · exact .throw (by rw [frameUnderflow, frameUnderflow, Error.unplaced, Error.unplaced, h])

theorem mirrors_createObject (parent : Option String) (isDatablock : Bool) :
    Mirrors R Eq (createObject ins parent isDatablock) (createObject ins' parent isDatablock) := by
  refine (mirrors_popFrame h).seq fun args => ?_
  split
  · exact .throw (by rw [underflow, underflow, Error.unplaced, Error.unplaced, h])
  · refine .bind .get fun s s' hs => ?_
    rw [hs.objectDepth]
    exact (mirrors_push _).seq fun _ =>
      .update fun _ _ ht => { ht with objectDepth := congrArg (· + 1) ht.objectDepth }

/-- Changing an object at some depth, with some computation in between. -/
theorem mirrors_updateObject (depth : Nat) {between between' : Rebuild Unit} (update : Node → Node)
    (hbetween : Mirrors R Eq between between') :
    Mirrors R Eq (updateObject ins depth between update) (updateObject ins' depth between' update) := by
  refine (mirrors_pop h).seq fun n => ?_
  split
  · split
    · exact hbetween.seq fun _ => mirrors_push _
    · exact mirrors_unexpected h _ _
  · exact mirrors_unexpected h _ _

theorem mirrors_popPlaceholder : Mirrors R Eq (popPlaceholder ins) (popPlaceholder ins') := by
  refine (mirrors_pop h).seq fun n => ?_
  split
  · split
    · exact .pure rfl
    · exact mirrors_unexpected h _ _
  · exact mirrors_unexpected h _ _

theorem mirrors_addObject (atRoot : Bool) : Mirrors R Eq (addObject ins atRoot) (addObject ins' atRoot) := by
  refine .bind .get fun s s' hs => ?_
  rw [hs.objectDepth]
  split
  · exact .throw rfl
  · refine (mirrors_popWhile _).seq fun fields => mirrors_updateObject h _ _ ?_
    cases atRoot with
    | true => exact mirrors_popPlaceholder h
    | false => exact .pure rfl

theorem mirrors_endObject : Mirrors R Eq (endObject ins) (endObject ins') := by
  refine .bind .get fun s s' hs => ?_
  rw [hs.objectDepth]
  split
  · exact .throw rfl
  · refine .seq (.set { hs with objectDepth := rfl }) fun _ => (mirrors_popWhile _).seq fun children => ?_
    exact mirrors_updateObject h _ _ (.pure rfl)

end Instructions

/-! ### Parts of the stream -/

/-- Statements are asked for only their kind, and the address is told in errors. -/
theorem statements_alike (addr addr' : Addr) (os : List Operand) :
    EndsAlike Eq (statements addr os) (statements addr' os) := by
  rw [statements, statements]
  generalize os.reverse = os
  induction os with
  | nil => exact .ok rfl
  | cons o os ih =>
      rw [List.mapM_cons, List.mapM_cons]
      cases o with
      | node n => exact ih.bind fun ns ns' hns => .ok (by rw [hns])
      | accumulator => exact .error rfl

/-- Parts are opened in the same way. -/
theorem mirrors_openPart : Mirrors R Eq openPart openPart := by
  refine .update fun s s' hs => ?_
  exact { hs with operands := rfl, saved := by rw [hs.operands, hs.saved] }

/-- And closed in the same way. -/
theorem mirrors_closePart (addr addr' : Addr) : Mirrors R Eq (closePart addr) (closePart addr') := by
  intro s s' hs
  rw [closePart, closePart, ← hs.saved, ← hs.operands]
  split
  · exact .error rfl
  · refine (statements_alike addr addr' _).bind fun ns ns' hns => .ok ⟨hns, ?_⟩
    exact { hs with operands := rfl, saved := rfl }

/-- **Pending operators** are folded if they end at the address or in front of it, and related addresses agree on
this. -/
theorem mirrors_foldPending (hR : Addr.KeepsOrder R) {addr addr' : Addr} (ha : R addr addr') {ps ps' : List Pending}
    (h : List.Forall₂ (Pending.Renamed R) ps ps') : Mirrors R Eq (foldPending addr ps) (foldPending addr' ps') := by
  induction h with
  | nil => exact .pure rfl
  | @cons p p' ps ps' hp hps ih =>
      rw [foldPending, foldPending, hp.op]
      simp only [hR.le_iff hp.target ha]
      split
      · refine .seq (.update fun s s' hs => { hs with pending := hps }) fun _ => ?_
        refine (mirrors_pop hp.opcode).seq fun right => (mirrors_pop hp.opcode).seq fun left => ?_
        exact (mirrors_push _).seq fun _ => ih
      · exact .pure rfl

theorem mirrors_foldLogic (hR : Addr.KeepsOrder R) {addr addr' : Addr} (ha : R addr addr') :
    Mirrors R Eq (foldLogic addr) (foldLogic addr') :=
  .bind .get fun _ _ hs => mirrors_foldPending hR ha hs.pending

/-- A function is ended with the statements that it has. -/
theorem mirrors_endFunction (addr addr' : Addr) : Mirrors R Eq (endFunction addr) (endFunction addr') := by
  refine .bind .get fun s s' hs => ?_
  obtain ⟨hnone, hnone'⟩ | ⟨frame, frame', hsome, hsome', hframe⟩ := hs.function_cases
  · rw [hnone, hnone']
    exact .pure rfl
  · simp only [hsome, hsome', hs.saved, hframe.depth, hframe.signature]
    split
    · exact .throw rfl
    · refine .seq (.set { hs with function := .none, saved := rfl }) fun _ => ?_
      exact (mirrors_closePart addr addr').seq fun _ => mirrors_push _

/-- **The end of a function** is reached at related addresses. -/
theorem mirrors_closeFunction (hR : Addr.KeepsOrder R) {addr addr' : Addr} (ha : R addr addr') :
    Mirrors R Eq (closeFunction addr) (closeFunction addr') := by
  refine .bind .get fun s s' hs => ?_
  obtain ⟨hnone, hnone'⟩ | ⟨frame, frame', hsome, hsome', hframe⟩ := hs.function_cases
  · rw [hnone, hnone']
    exact .pure rfl
  · simp only [hsome, hsome', hR.lt_iff ha hframe.stop]
    split
    · exact .pure rfl
    · exact mirrors_endFunction addr addr'

/-- Entering related addresses. -/
theorem mirrors_enter (hR : Addr.KeepsOrder R) {addr addr' : Addr} (ha : R addr addr') :
    Mirrors R Eq (enter addr) (enter addr') :=
  (mirrors_closeFunction hR ha).seq fun _ => mirrors_foldLogic hR ha

/-! ### All instructions -/

variable {ins ins' : Instruction}

/-- Declaring functions with related ends. -/
theorem mirrors_declareFunction (signature : Signature) (hasBody : Bool) {stop stop' : Addr} (h : R stop stop') :
    Mirrors R Eq (declareFunction ins signature hasBody stop) (declareFunction ins' signature hasBody stop') := by
  refine .bind .get fun s s' hs => ?_
  obtain ⟨hnone, hnone'⟩ | ⟨frame, frame', hsome, hsome', -⟩ := hs.function_cases
  · rw [hnone, hnone', hs.saved]
    cases hasBody with
    | true => exact .seq (.set { hs with function := .some ⟨rfl, h, rfl⟩, saved := rfl }) fun _ => mirrors_openPart
    | false => exact mirrors_push _
  · rw [hsome, hsome']
    exact .throw rfl

/-- **Instructions** do the same to related states. -/
theorem mirrors_step (h : ins.Renamed R ins') : Mirrors R Eq (step ins) (step ins') := by
  have hop := h.opcode
  have hoperation := h.operation
  rw [step, step]
  generalize ins.operation = op at hoperation
  generalize ins'.operation = op' at hoperation
  cases hoperation with
  | declareFunction signature hasBody hstop => exact mirrors_declareFunction _ _ hstop
  | createObject => exact mirrors_createObject hop _ _
  | jump kind htarget =>
      dsimp only
      split
      · exact .update fun s s' hs => { hs with pending := .cons ⟨htarget, rfl, hop⟩ hs.pending }
      · exact .throw rfl
  | same hmark =>
      cases op with
      | declareFunction | jump => cases hmark
      | createObject => exact mirrors_createObject hop _ _
      | addObject => exact mirrors_addObject hop _
      | endObject => exact mirrors_endObject hop
      | ret hasValue =>
          cases hasValue with
          | true => exact (mirrors_pop hop).seq fun _ => mirrors_push _
          | false => exact mirrors_push _
      | binary => exact (mirrors_pop hop).seq fun _ => (mirrors_pop hop).seq fun _ => mirrors_push _
      | unary => exact (mirrors_pop hop).seq fun _ => mirrors_push _
      | selectVar | immediateUint | immediateFloat | immediateStr | immediateIdent | immediateTag =>
          exact mirrors_push _
      | selectVarArray => exact mirrors_indexVariable hop
      | loadVar | loadField | convert | debugBreak => exact .pure rfl
      | saveVar => exact mirrors_saveVariable hop
      | saveField => exact mirrors_saveField hop
      | selectObject | selectNewObject => exact .update fun s s' hs => { hs with fieldOwner := rfl }
      | selectField => exact mirrors_selectField hop _
      | selectFieldArray => exact mirrors_indexField hop
      | call => exact (mirrors_popFrame hop).seq fun _ => mirrors_push _
      | advanceStr | advanceStrComma | advanceStrNul => exact mirrors_advance hop _
      | advanceStrAppend c =>
          dsimp only
          split
          · exact mirrors_advance hop _
          · exact .throw rfl
      | rewindStr => exact mirrors_rewind hop
      | terminateRewindStr => exact mirrors_terminate hop
      | compareStr => exact mirrors_compareStrings hop
      | push => exact mirrors_pushArgument hop
      | pushFrame => exact .update fun s s' hs => { hs with frames := congrArg ([] :: ·) hs.frames }

/-! ### Regions -/

theorem mirrors_fallThrough (h : ins.opcode = ins'.opcode) (kind : JumpKind) :
    Mirrors R Eq (fallThrough ins kind) (fallThrough ins' kind) :=
  (mirrors_pop h).seq fun _ => .pure rfl

theorem mirrors_leave (kind : BranchKind) : Mirrors R Eq (leave ins kind) (leave ins' kind) := by
  cases kind with
  | leave | nextRound => exact mirrors_push _
  | alternative => exact .throw rfl

/-- The condition of a loop is told by the jump back. -/
theorem mirrors_endLoop (hR : Addr.KeepsOrder R) (stop stop' : Addr) {back back' : Option (Instruction × JumpKind)}
    (h : Region.BackRel R back back') : Mirrors R Eq (endLoop stop back) (endLoop stop' back') := by
  cases h with
  | none => exact .throw rfl
  | @some p p' h =>
      obtain ⟨ins, kind⟩ := p
      obtain ⟨ins', kind'⟩ := p'
      obtain ⟨hins, rfl⟩ := h
      refine (mirrors_foldLogic hR hins.addr).seq fun _ => (mirrors_pop hins.opcode).seq fun condition => ?_
      exact (mirrors_closePart _ _).seq fun rest => .pure rfl

/-- The parts of a loop. -/
theorem mirrors_loopParts (hR : Addr.KeepsOrder R) (stop stop' : Addr) {body body' step step' : Rebuild Unit}
    (split : Bool) {back back' : Option (Instruction × JumpKind)} (hbody : Mirrors R Eq body body')
    (hstep : Mirrors R Eq step step') (hback : Region.BackRel R back back') :
    Mirrors R Eq (loopParts stop body split step back) (loopParts stop' body' split step' back') := by
  refine mirrors_openPart.seq fun _ => hbody.seq fun _ => ?_
  cases split with
  | true =>
      refine (mirrors_closePart _ _).seq fun _ => mirrors_openPart.seq fun _ => hstep.seq fun _ => ?_
      exact (mirrors_endLoop hR stop stop' hback).seq fun _ => .pure rfl
  | false => exact (mirrors_endLoop hR stop stop' hback).seq fun _ => .pure rfl

theorem mirrors_takeInit (condition : Node) : Mirrors R Eq (takeInit condition) (takeInit condition) := by
  intro s s' hs
  rw [takeInit, takeInit, ← hs.operands]
  split
  · split
    · exact .ok ⟨rfl, { hs with operands := rfl }⟩
    · exact .ok ⟨rfl, hs⟩
  · exact .ok ⟨rfl, hs⟩

/-- A loop is put together with its guard in the same way. -/
theorem mirrors_guardedLoop (guard : Node) (parts : LoopParts) :
    Mirrors R Eq (guardedLoop guard parts) (guardedLoop guard parts) := by
  rw [guardedLoop]
  split
  · exact mirrors_push _
  · split
    · split
      · exact mirrors_push _
      · exact (mirrors_takeInit _).seq fun _ => mirrors_push _
    · exact mirrors_push _

mutual

/-- **Regions** do the same to related states. -/
theorem mirrors_run (hR : Addr.KeepsOrder R) :
    ∀ {r r' : Region}, r.Renamed R r' → Mirrors R Eq (run r) (run r')
  | .plain _, _, h => by
      cases h with
      | plain hins => exact (mirrors_enter hR hins.addr).seq fun _ => mirrors_step hins
  | .jump _ _, _, h => by
      cases h with
      | jump hins => exact (mirrors_enter hR hins.addr).seq fun _ => mirrors_leave _
  | .broken _, _, h => by
      cases h with
      | broken => exact .throw rfl
  | .choice _ _ _ _, _, h => by
      cases h with
      | choice hhead _ _ _ hbody =>
          refine (mirrors_enter hR hhead.addr).seq fun _ => (mirrors_fallThrough hhead.opcode _).seq fun _ => ?_
          refine mirrors_openPart.seq fun _ => (mirrors_runAll hR hbody).seq fun _ => ?_
          exact (mirrors_closePart _ _).seq fun _ => mirrors_push _
  | .choiceElse _ _ _ _ _ _, _, h => by
      cases h with
      | choiceElse hhead _ _ _ _ _ hbody halternative =>
          refine (mirrors_enter hR hhead.addr).seq fun _ => (mirrors_fallThrough hhead.opcode _).seq fun _ => ?_
          refine mirrors_openPart.seq fun _ => (mirrors_runAll hR hbody).seq fun _ => ?_
          refine (mirrors_closePart _ _).seq fun _ => mirrors_openPart.seq fun _ => ?_
          refine (mirrors_runAll hR halternative).seq fun _ => ?_
          exact (mirrors_closePart _ _).seq fun _ => mirrors_push _
  | .loop _ _ _ _ _ _, _, h => by
      cases h with
      | loop hstart _ _ _ hbody hstep hback =>
          refine (mirrors_enter hR hstart).seq fun _ => ?_
          refine (mirrors_loopParts hR _ _ _ ?_ ?_ hback).seq fun _ => mirrors_push _
          · exact mirrors_runAll hR hbody
          · exact mirrors_runAll hR hstep
  | .guarded _ _ _ _ _ _ _, _, h => by
      cases h with
      | guarded hhead _ _ _ _ hbody hstep hback =>
          refine (mirrors_enter hR hhead.addr).seq fun _ => (mirrors_fallThrough hhead.opcode _).seq fun _ => ?_
          refine (mirrors_loopParts hR _ _ _ ?_ ?_ hback).seq fun _ => mirrors_guardedLoop _ _
          · exact mirrors_runAll hR hbody
          · exact mirrors_runAll hR hstep

/-- **Regions that follow each other** mirror each other if they are related. -/
theorem mirrors_runAll (hR : Addr.KeepsOrder R) :
    ∀ {rs rs' : List Region}, List.Forall₂ (Region.Renamed R) rs rs' → Mirrors R Eq (runAll rs) (runAll rs')
  | [], _, h => by
      cases h with
      | nil => exact .pure rfl
  | _ :: _, _, h => by
      cases h with
      | cons hr hrs => exact (mirrors_run hR hr).seq fun _ => mirrors_runAll hR hrs

end

/-! ### The end of a stream -/

/-- Closing the stream. -/
theorem mirrors_close (last last' : Addr) : Mirrors R Eq (close last) (close last') := by
  refine (mirrors_endFunction _ _).seq fun _ => .bind .get fun s s' hs => ?_
  rw [hs.saved, hs.objectDepth]
  split
  · exact .throw rfl
  · split
    · exact .throw rfl
    · exact .pure rfl

/-- The statements that are left make the same program. -/
theorem program_alike (last last' : Addr) {s s' : State} (h : s.operands = s'.operands) :
    EndsAlike Eq (program last s) (program last' s') := by
  rw [program, program, h]
  exact (statements_alike last last' _).bind fun _ _ hnodes => .ok (congrArg groupPackages hnodes)

/-- A run begins in related states. -/
theorem State.Renamed.initial : State.Renamed R {} {} :=
  ⟨rfl, rfl, rfl, .none, rfl, rfl, .nil⟩

end Rebuild

/-! ### Streams -/

/-- The operation with its addresses renamed. -/
def Operation.rename (f : Addr → Addr) : Operation → Operation
  | jump kind target => jump kind (f target)
  | declareFunction signature hasBody stop => declareFunction signature hasBody (f stop)
  | createObject parent isDatablock failTarget => createObject parent isDatablock (f failTarget)
  | op => op

/-- The instruction with its addresses renamed. -/
def Instruction.rename (f : Addr → Addr) (ins : Instruction) : Instruction :=
  { ins with addr := f ins.addr, operation := ins.operation.rename f }

/-- Renaming the marks of an operation gives a related one. -/
theorem Operation.renamed_rename {R : Addr → Addr → Prop} {f : Addr → Addr} (op : Operation)
    (h : ∀ a, op.mark? = some a → R a (f a)) : op.Renamed R (op.rename f) := by
  cases op with
  | jump kind target => exact .jump kind (h target rfl)
  | declareFunction signature hasBody stop => exact .declareFunction signature hasBody (h stop rfl)
  | createObject => exact .createObject _ _ _ _
  | _ => exact .same rfl

namespace Stream

/-- The addresses that count: those of the instructions, the targets of the jumps and the ends of the functions. -/
def marks (instrs : List Instruction) : Set Addr :=
  {a | ∃ ins ∈ instrs, ins.addr = a ∨ ins.operation.mark? = some a}

variable {R : Addr → Addr → Prop} {instrs instrs' : List Instruction}

/-- The stages that statements are rebuilt in. -/
theorem outcome_statements (instrs : List Instruction) : (statements instrs).outcome.1 =
    blockTree instrs >>= fun tree => (run tree instrs {} >>= fun p => Rebuild.program (last instrs) p.2) := by
  rw [statements, Logged.outcome_bind (steady_analyze instrs) fun tree => steady_rebuild tree instrs, outcome_analyze]
  exact congrArg (blockTree instrs >>= ·) (funext fun tree => outcome_rebuild tree instrs)

/-- Related streams have the same statements. -/
theorem statements_renamed (hR : Addr.KeepsOrder R) (h : List.Forall₂ (Instruction.Renamed R) instrs instrs') :
    EndsAlike Eq (statements instrs).outcome.1 (statements instrs').outcome.1 := by
  by_cases hne : instrs = []
  · subst hne
    obtain rfl := List.forall₂_nil_left_iff.mp h
    exact .refl _
  · rw [outcome_statements, outcome_statements]
    refine (blockTree_renamed hR h hne).bind fun tree tree' htree => ?_
    have hrun : Rebuild.Mirrors R Eq (run tree instrs) (run tree' instrs') :=
      (Rebuild.mirrors_runAll hR (Region.ofStream_renamed hR htree h)).seq fun _ => Rebuild.mirrors_close _ _
    exact (hrun {} {} .initial).bind fun p q hpq => Rebuild.program_alike _ _ hpq.2.operands

/-- **Only the order counts.**  If all addresses that count are renamed and keep their order, then the statements
stay the same, or the same is wrong with the stream. -/
theorem statements_rename {f : Addr → Addr} (hf : StrictMonoOn f (marks instrs))
    (hlast : ∀ ins ∈ instrs, ins.addr < Addr.last ∧ f ins.addr < Addr.last) :
    EndsAlike Eq (statements instrs).outcome.1 (statements (instrs.map (Instruction.rename f))).outcome.1 := by
  let R : Addr → Addr → Prop := fun a b => a ∈ marks instrs ∧ b = f a
  have hR : Addr.KeepsOrder R := by
    refine ⟨?_⟩
    rintro a a' _ _ ⟨ha, rfl⟩ ⟨ha', rfl⟩
    exact (hf.lt_iff_lt ha ha').symm
  refine statements_renamed hR (List.forall₂_map_right_iff.mpr (List.forall₂_same.mpr fun ins hins => ?_))
  exact ⟨⟨⟨ins, hins, .inl rfl⟩, rfl⟩, hlast ins hins, rfl,
    ins.operation.renamed_rename fun a ha => ⟨⟨ins, hins, .inr ha⟩, rfl⟩⟩

/-- Squaring keeps the order of the marks, and the choice is rebuilt as it was. -/
theorem statements_rename_squares :
    StrictMonoOn (fun a => a * a) (marks choiceWithElse) ∧
    (statements (choiceWithElse.map (Instruction.rename fun a => a * a))).outcome.1 =
      .ok [.ifElse (.constant (.uint 1)) [.ret none] [.ret none], .ret none] := by
  have hmono : StrictMonoOn (fun a : Addr => a * a) (marks choiceWithElse) :=
    fun _ _ _ _ hlt => Nat.mul_self_lt_mul_self hlt
  have hnodes : (statements choiceWithElse).outcome.1 =
      .ok [.ifElse (.constant (.uint 1)) [.ret none] [.ret none], .ret none] := by cbv
  refine ⟨hmono, ?_⟩
  have hsame := statements_rename hmono (by decide)
  rw [hnodes] at hsame
  exact hsame.eq_ok

end Stream

end TorqueScript
