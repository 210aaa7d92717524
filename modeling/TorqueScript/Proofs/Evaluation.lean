import TorqueScript.Proofs.Straight
import TorqueScript.Rebuild.Run

/-!
# Rebuilding straight-line code

A `&&` or `||` is completed only when the instruction behind its right operand is reached, so the state
behind the code of an expression is in general not the one that holds the expression on its stack: it
becomes that state as soon as the pending operators are completed.  `Settles a s t` says so: from the
address `a` on, `s` and `t` are the same to whatever comes.

`Leads a rs s t b`: regions that begin at `a`, run from a state that settles to `s`, end in one that
settles to `t` from `b` on.  These statements compose without further conditions (`Leads.append`).
`Performs f s t` says the same of a fragment at every position.

**Evaluation** (`Node.Normal.performs_access`).  The code of an expression in normal form puts the expression
on the stack and changes nothing else: the operands below it, the open argument frames, the pending
operators and the object of the next field are as before.
-/

namespace TorqueScript

namespace Rebuild

/-! ### Computations at a state -/

/-- A step whose result is known can be taken. -/
theorem bind_ok {α β : Type} {x : Rebuild α} {f : α → Rebuild β} {s t : State} {a : α}
    (h : x s = .ok (a, t)) : (x >>= f) s = f a t := by
  show (x s >>= fun p => f p.1 p.2) = f a t
  rw [h]
  rfl

namespace State

/-- The state with a node on its stack. -/
def push (s : State) (n : Node) : State :=
  { s with operands := .node n :: s.operands }

/-- The state with the left half of a string operation on its stack. -/
def hold (s : State) (left : Node) (kind : Accumulation) : State :=
  { s with operands := .accumulator left kind :: s.operands }

end State

variable {s t u : State} {n m : Node} {ins : Instruction}

/-- Pushing always succeeds. -/
theorem push_apply (n : Node) (s : State) : Rebuild.push n s = .ok ((), s.push n) := rfl

/-- What was pushed last is popped, in the form an expression needs. -/
theorem pop_push (h : n.asExpression = .ok m) : pop ins (s.push n) = .ok (m, s) := by
  rw [pop, bind_ok (t := s) (a := .node n) rfl]
  simp only [h]
  rfl

/-- The accumulation that was started last is the one that is popped. -/
theorem popAccumulator_hold {left : Node} {kind : Accumulation} :
    popAccumulator ins (s.hold left kind) = .ok ((left, kind), s) := rfl

/-! ### States that are the same from an address on -/

/-- From `a` on, `s` is `t` up to completing pending operators. -/
def Settles (a : Addr) (s t : State) : Prop :=
  s.function = t.function ∧ ∀ b, a ≤ b → foldLogic b s = foldLogic b t

theorem Settles.refl (a : Addr) (s : State) : Settles a s s :=
  ⟨rfl, fun _ _ => rfl⟩

/-- Settling from an address on composes. -/
theorem Settles.trans {a : Addr} (h₁ : Settles a s t) (h₂ : Settles a t u) : Settles a s u :=
  ⟨h₁.1.trans h₂.1, fun b hb => (h₁.2 b hb).trans (h₂.2 b hb)⟩

/-- No pending operator is completed before `b`, and no function is being declared. -/
def Quiet (b : Addr) (s : State) : Prop :=
  s.function = none ∧ ∀ p ∈ s.pending, b ≤ p.target

/-- A state that is quiet before an address is quiet before every earlier one. -/
theorem Quiet.mono {a b : Addr} (h : Quiet b s) (hab : a ≤ b) : Quiet a s :=
  ⟨h.1, fun p hp => hab.trans (h.2 p hp)⟩

/-- Nothing is folded while the open operands wait for later addresses. -/
theorem foldLogic_quiet {a b : Addr} (h : Quiet b s) (hab : a < b) : foldLogic a s = .ok ((), s) := by
  show foldPending a s.pending s = .ok ((), s)
  cases hp : s.pending with
  | nil => rfl
  | cons p ps =>
      have : ¬ p.target ≤ a := Nat.not_le.mpr (hab.trans_le (h.2 p (hp ▸ List.mem_cons_self)))
      rw [foldPending, if_neg this]
      rfl

/-- An operator whose right operand is complete has been completed, for all that comes. -/
theorem Settles.complete {l r left right : Node} {p : Pending} (hl : left.asExpression = .ok l)
    (hr : right.asExpression = .ok r) :
    Settles p.target (({ s with pending := p :: s.pending } : State).push left |>.push right)
      (s.push (.binary p.op l r)) := by
  refine ⟨rfl, fun b hb => ?_⟩
  show foldPending b (p :: s.pending) _ = foldPending b s.pending _
  rw [foldPending, if_pos hb, bind_ok (t := (s.push left).push right) rfl, bind_ok (pop_push hr),
    bind_ok (pop_push hl), bind_ok (push_apply _ _)]

/-! ### Runs -/

/-- The regions `rs` lead from `s` at `a` to `t` at `b`. -/
def Leads (a : Addr) (rs : List Region) (s t : State) (b : Addr) : Prop :=
  ∀ s₀, Settles a s₀ s → ∃ t₀, runAll rs s₀ = .ok ((), t₀) ∧ Settles b t₀ t

/-- Regions run one after another. -/
theorem runAll_cons (r : Region) (rs : List Region) : runAll (r :: rs) = (do run r; runAll rs) := by
  rw [runAll]

/-- A run over the first of two lists goes on with the second. -/
theorem runAll_append_ok {rs rs' : List Region} (h : runAll rs s = .ok ((), t)) :
    runAll (rs ++ rs') s = runAll rs' t := by
  induction rs generalizing s with
  | nil => cases h; rfl
  | cons r rs ih =>
      rw [runAll_cons] at h
      cases hr : run r s with
      | error e =>
          have : (run r >>= fun _ => runAll rs) s = .error e := by
            show (run r s >>= fun p => runAll rs p.2) = _
            rw [hr]; rfl
          rw [this] at h; cases h
      | ok p =>
          rw [bind_ok (t := p.2) (a := p.1) (by rw [hr])] at h
          rw [List.cons_append, runAll_cons, bind_ok (t := p.2) (a := p.1) (by rw [hr])]
          exact ih h

theorem Leads.nil (a : Addr) (s : State) : Leads a [] s s a :=
  fun s₀ h => ⟨s₀, rfl, h⟩

/-- Leading from one state to another composes. -/
theorem Leads.append {a b c : Addr} {rs rs' : List Region} (h₁ : Leads a rs s t b)
    (h₂ : Leads b rs' t u c) : Leads a (rs ++ rs') s u c := by
  intro s₀ hs
  obtain ⟨t₀, hrun, ht⟩ := h₁ s₀ hs
  obtain ⟨u₀, hrun', hu⟩ := h₂ t₀ ht
  exact ⟨u₀, (runAll_append_ok hrun).trans hrun', hu⟩

/-- What is left to settle can be settled at the end. -/
theorem Leads.settle {a b : Addr} {rs : List Region} (h : Leads a rs s t b) (ht : Settles b t u) :
    Leads a rs s u b := by
  intro s₀ hs
  obtain ⟨t₀, hrun, ht'⟩ := h s₀ hs
  exact ⟨t₀, hrun, ht'.trans ht⟩

/-- Outside of functions, to enter an address is to fold what ends there. -/
theorem enter_eq_foldLogic {a : Addr} (h : s.function = none) : enter a s = foldLogic a s := by
  have hclose : closeFunction a s = .ok ((), s) := by
    rw [closeFunction, bind_ok (a := s) (t := s) rfl]
    simp only [h]
    rfl
  rw [enter, bind_ok hclose]

/-- Before an instruction everything settles that can. -/
theorem enter_settles {a b : Addr} {s₀ : State} (hs : Settles a s₀ s) (hq : Quiet b s) (hab : a < b) :
    enter a s₀ = .ok ((), s) := by
  rw [enter_eq_foldLogic (hs.1.trans hq.1), hs.2 a (Nat.le_refl a), foldLogic_quiet hq hab]

/-- The regions `rs` lead from `s` at `a` to `t`, and nothing is left to be completed. -/
def Finishes (a : Addr) (rs : List Region) (s t : State) : Prop :=
  ∀ s₀, Settles a s₀ s → runAll rs s₀ = .ok ((), t)

/-- A run that leads to a state finishes if the rest does from there. -/
theorem Leads.finish {a b : Addr} {rs rs' : List Region} (h : Leads a rs s t b)
    (h' : Finishes b rs' t u) : Finishes a (rs ++ rs') s u := by
  intro s₀ hs
  obtain ⟨t₀, hrun, ht⟩ := h s₀ hs
  exact (runAll_append_ok hrun).trans (h' t₀ ht)

/-- One region that begins with the instruction at `a`. -/
theorem Finishes.region {a b : Addr} {r : Region} {x : Rebuild Unit} (hr : run r = (do enter a; x))
    (hq : Quiet b s) (hab : a < b) (h : x s = .ok ((), t)) : Finishes a [r] s t := by
  intro s₀ hs
  rw [runAll_cons, hr, bind_ok (a := ()) (t := t)]
  · rfl
  · rw [bind_ok (enter_settles hs hq hab), h]

theorem Finishes.leads {a : Addr} {rs : List Region} (h : Finishes a rs s t) (b : Addr) :
    Leads a rs s t b :=
  fun s₀ hs => ⟨t, h s₀ hs, .refl b t⟩

/-- A plain region enters its address and takes the step of its instruction. -/
theorem run_plain (L : Placement) (pos : Nat) (o : Operation) :
    run (.plain (L.instr pos o)) = (do enter (L.addr pos); step (L.instr pos o)) := by
  rw [run, Placement.addr_instr]

/-- A fragment leads from `s` to `t`, wherever it is put. -/
def Performs (f : Fragment) (s t : State) : Prop :=
  (t.function = s.function ∧ t.pending = s.pending) ∧
    ∀ L exit pos, Quiet (L.addr (pos + f.size)) s →
      Leads (L.addr pos) ((f.code L exit pos).map .plain) s t (L.addr (pos + f.size))

/-- Fragments that perform one after the other perform as one. -/
theorem Performs.append {f g : Fragment} (hf : Performs f s t) (hg : Performs g t u) :
    Performs (f ++ g) s u := by
  refine ⟨⟨hg.1.1.trans hf.1.1, hg.1.2.trans hf.1.2⟩, fun L exit pos hq => ?_⟩
  rw [Fragment.size_append, ← Nat.add_assoc] at hq ⊢
  rw [Fragment.code_append, List.map_append]
  have hmid : L.addr (pos + f.size) ≤ L.addr (pos + f.size + g.size) := by simp
  have hq' : Quiet (L.addr (pos + f.size + g.size)) t :=
    ⟨hf.1.1.trans hq.1, fun p hp => hq.2 p (hf.1.2 ▸ hp)⟩
  exact (hf.2 L exit pos (hq.mono hmid)).append (hg.2 L exit _ hq')

theorem Performs.empty : Performs .empty s s :=
  ⟨⟨rfl, rfl⟩, fun L _ pos _ => .nil (L.addr pos) s⟩

/-- An instruction with a type performs what its step does at every type. -/
theorem Performs.typed {o : ValueType → Operation} (hf : t.function = s.function)
    (hp : t.pending = s.pending)
    (h : ∀ (ins : Instruction) (type : ValueType), ins.operation = o type → step ins s = .ok ((), t)) :
    Performs (.typed o) s t := by
  refine ⟨⟨hf, hp⟩, fun L exit pos hq => ?_⟩
  exact (Finishes.region (run_plain L pos _) hq (by simp) (h _ _ rfl)).leads _

/-- An instruction without a type performs what its step does. -/
theorem Performs.op {o : Operation} (hf : t.function = s.function) (hp : t.pending = s.pending)
    (h : ∀ ins : Instruction, ins.operation = o → step ins s = .ok ((), t)) :
    Performs (.op o) s t :=
  .typed hf hp fun ins _ => h ins

/-- A last operation leaves nothing to be completed. -/
theorem Performs.finishes_typed {f : Fragment} {o : ValueType → Operation} (hf : Performs f s t)
    (h : ∀ (ins : Instruction) (type : ValueType), ins.operation = o type → step ins t = .ok ((), u))
    (L : Placement) (exit : Addr) (pos : Nat) (hq : Quiet (L.addr (pos + (f ++ .typed o).size)) s) :
    Finishes (L.addr pos) (((f ++ .typed o).code L exit pos).map .plain) s u := by
  rw [Fragment.size_append, ← Nat.add_assoc] at hq
  rw [Fragment.code_append, List.map_append]
  have hlast : L.addr (pos + f.size) < L.addr (pos + f.size + 1) := by simp
  have hq' : Quiet (L.addr (pos + f.size + 1)) t :=
    ⟨hf.1.1.trans hq.1, fun p hp => hq.2 p (hf.1.2 ▸ hp)⟩
  exact (hf.2 L exit pos (hq.mono hlast.le)).finish (.region (run_plain L _ _) hq' hlast (h _ _ rfl))

/-! ### Single operations -/

section Steps

variable {l r left right index owner target value : Node} {name : String}

/-- A binary operation takes its operands from the stack, the right one first. -/
theorem step_binary {o : BinaryOp} (h : ins.operation = .binary o) (hl : left.asExpression = .ok l)
    (hr : right.asExpression = .ok r) :
    step ins ((s.push left).push right) = .ok ((), s.push (.binary o l r)) := by
  simp only [step, h]
  rw [bind_ok (pop_push hr), bind_ok (pop_push hl), push_apply]

/-- A unary operation takes its operand from the stack. -/
theorem step_unary {o : UnaryOp} (h : ins.operation = .unary o) (hn : n.asExpression = .ok n) :
    step ins (s.push n) = .ok ((), s.push (unaryNode o n)) := by
  simp only [step, h]
  rw [bind_ok (pop_push hn), push_apply]

/-- Advancing moves the top of the stack to the open accumulations. -/
theorem advance_push {kind : Accumulation} (hn : n.asExpression = .ok n) :
    advance ins kind (s.push n) = .ok ((), s.hold n kind) := by
  rw [advance, bind_ok (pop_push hn)]
  rfl

theorem step_join (join : Join) (h : ins.operation = join.operation) (hn : n.asExpression = .ok n) :
    step ins (s.push n) = .ok ((), s.hold n (.join join)) := by
  cases join <;> simp only [Join.operation] at h <;> simp only [step, h] <;> exact advance_push hn

/-- Rewinding after a join pushes the joined text. -/
theorem step_rewind {join : Join} (h : ins.operation = .rewindStr) (hr : r.asExpression = .ok r) :
    step ins ((s.hold l (.join join)).push r) = .ok ((), s.push (.concat join l r)) := by
  simp only [step, h]
  rw [rewind, bind_ok (pop_push hr), bind_ok popAccumulator_hold]
  rfl

/-- Rewinding after a comma pushes the joined index. -/
theorem step_rewind_comma (h : ins.operation = .rewindStr) (hr : r.asExpression = .ok r) :
    step ins ((s.hold l .comma).push r) = .ok ((), s.push (.comma l r)) := by
  simp only [step, h]
  rw [rewind, bind_ok (pop_push hr), bind_ok popAccumulator_hold]
  rfl

/-- Comparing two texts pushes the comparison. -/
theorem step_compare (h : ins.operation = .compareStr) (hr : r.asExpression = .ok r) :
    step ins ((s.hold l .compare).push r) = .ok ((), s.push (.compare .equal l r)) := by
  simp only [step, h]
  rw [compareStrings, bind_ok (pop_push hr), bind_ok popAccumulator_hold]
  rfl

/-- Ending the accumulation for a call leaves both texts, the later one below. -/
theorem step_terminate {kind : Accumulation} (h : ins.operation = .terminateRewindStr) :
    step ins ((s.hold l kind).push n) = .ok ((), (s.push n).push l) := by
  simp only [step, h]
  rfl

/-- An index that was joined to a name selects the element of the array. -/
theorem step_selectVarArray {create : Bool} (h : ins.operation = .selectVarArray create) :
    step ins (s.push (.concat .plain (.constant (.ident name)) index)) =
      .ok ((), s.push (.var name (some index))) := by
  simp only [step, h]
  rw [indexVariable, bind_ok (pop_push rfl)]
  rfl

/-- Selecting a field uses up the object that was selected. -/
theorem step_selectField (h : ins.operation = .selectField name) (ho : owner.asExpression = .ok owner)
    (hs : s.fieldOwner = .implicit) :
    step ins { s.push owner with fieldOwner := .operand } =
      .ok ((), s.push (.field (some owner) name none)) := by
  simp only [step, h]
  have e : ({ s with fieldOwner := .implicit } : State) = s := by rw [← hs]
  show (pop ins >>= fun owner => push (.field (some owner) name none))
    (({ s with fieldOwner := .implicit } : State).push owner) = _
  rw [bind_ok (pop_push ho), push_apply, e]

theorem step_selectFieldArray (h : ins.operation = .selectFieldArray)
    (hi : index.asExpression = .ok index) :
    step ins ((s.push (.field (some owner) name none)).push index) =
      .ok ((), s.push (.field (some owner) name (some index))) := by
  simp only [step, h]
  rw [indexField, bind_ok (pop_push hi), bind_ok (pop_push rfl)]
  rfl

/-- A store into a variable pushes the assignment, which is contracted where it can be. -/
theorem step_saveVar {type : ValueType} {i : Option Node} (h : ins.operation = .saveVar type)
    (hv : n.asExpression = .ok value) :
    step ins ((s.push n).push (.var name i)) =
      .ok ((), s.push (assignment (.var name i) value)) := by
  simp only [step, h]
  rw [saveVariable, bind_ok (pop_push rfl)]
  exact (bind_ok (pop_push hv)).trans (push_apply _ _)

/-- A store into a field does the same. -/
theorem step_saveField {type : ValueType} {o i : Option Node} (h : ins.operation = .saveField type)
    (hv : value.asExpression = .ok value) :
    step ins ((s.push value).push (.field o name i)) =
      .ok ((), s.push (assignment (.field o name i) value)) := by
  simp only [step, h]
  rw [saveField, bind_ok (pop_push rfl)]
  exact (bind_ok (pop_push hv)).trans (push_apply _ _)

/-- An argument moves from the stack to the innermost frame of arguments. -/
theorem step_push {frame : List Node} {frames : List (List Node)} (h : ins.operation = .push)
    (hn : n.asExpression = .ok n) :
    step ins (({ s with frames := frame :: frames } : State).push n) =
      .ok ((), { s with frames := (n :: frame) :: frames }) := by
  simp only [step, h]
  rw [pushArgument, bind_ok (pop_push hn)]
  rfl

end Steps

end Rebuild

namespace Node

open Rebuild

theorem Normal.asExpression_eq {n : Node} (h : Normal n) : n.asExpression = .ok n := by
  have hs := h.isStatement_eq
  cases h <;> simp only [asExpression, hs] <;> rfl

section Parts

variable {s : State} {f g : Fragment} {l r : Node}

/-- Reading a selected variable or field leaves it as it is. -/
theorem performs_read {target : Node} (hf : Performs f s (s.push target)) :
    Performs (f ++ Access.read.var) s (s.push target) ∧
      Performs (f ++ Access.read.field) s (s.push target) := by
  refine ⟨hf.append (.typed rfl rfl ?_), hf.append (.typed rfl rfl ?_)⟩
  · intro ins type h
    simp only [step, h]
    rfl
  · intro ins type h
    simp only [step, h]
    rfl

/-- A joined text performs as its parts with the join between them. -/
theorem performs_concat (join : Join) (hl : l.asExpression = .ok l) (hr : r.asExpression = .ok r)
    (hf : Performs f s (s.push l))
    (hg : Performs g (s.hold l (.join join)) ((s.hold l (.join join)).push r)) :
    Performs (f ++ .op join.operation ++ g ++ .op .rewindStr) s (s.push (.concat join l r)) := by
  have hhold : Performs (.op join.operation) (s.push l) (s.hold l (.join join)) :=
    .op rfl rfl fun ins h => step_join join h hl
  exact ((hf.append hhold).append hg).append (.op rfl rfl fun ins h => step_rewind h hr)

theorem performs_comma (hl : l.asExpression = .ok l) (hr : r.asExpression = .ok r)
    (hf : Performs f s (s.push l)) (hg : Performs g (s.hold l .comma) ((s.hold l .comma).push r)) :
    Performs (f ++ .op .advanceStrComma ++ g ++ .op .rewindStr) s (s.push (.comma l r)) := by
  have hhold : Performs (.op .advanceStrComma) (s.push l) (s.hold l .comma) := by
    refine .op rfl rfl fun ins h => ?_
    simp only [step, h]
    exact advance_push hl
  exact ((hf.append hhold).append hg).append (.op rfl rfl fun ins h => step_rewind_comma h hr)

theorem performs_compare (hl : l.asExpression = .ok l) (hr : r.asExpression = .ok r)
    (hf : Performs f s (s.push l)) (hg : Performs g (s.hold l .compare) ((s.hold l .compare).push r)) :
    Performs (f ++ .op .advanceStrNul ++ g ++ .op .compareStr) s (s.push (.compare .equal l r)) := by
  have hhold : Performs (.op .advanceStrNul) (s.push l) (s.hold l .compare) := by
    refine .op rfl rfl fun ins h => ?_
    simp only [step, h]
    exact advance_push hl
  exact ((hf.append hhold).append hg).append (.op rfl rfl fun ins h => step_compare h hr)

/-- The name of an indexed variable is joined to its index. -/
theorem performs_element (name : String) (create : Bool) (hr : r.asExpression = .ok r)
    (hg : ∀ s : State, s.fieldOwner = .implicit → Performs g s (s.push r))
    (hs : s.fieldOwner = .implicit) :
    Performs (.op (.immediateIdent name) ++ .op .advanceStr ++ g ++ .op .rewindStr ++
      .op (.selectVarArray create)) s (s.push (.var name (some r))) := by
  have hname : Performs (.op (.immediateIdent name)) s (s.push (.constant (.ident name))) := by
    refine .op rfl rfl fun ins h => ?_
    simp only [step, h]
    rfl
  exact (performs_concat .plain rfl hr hname (hg _ hs)).append
    (.op rfl rfl fun ins h => step_selectVarArray h)

/-- A field of an object performs as the object, its selection and the name. -/
theorem performs_field (name : String) (hl : l.asExpression = .ok l) (hf : Performs f s (s.push l))
    (hs : s.fieldOwner = .implicit) :
    Performs (f ++ .op .selectObject ++ .op (.selectField name)) s
      (s.push (.field (some l) name none)) := by
  have hselect : Performs (.op .selectObject) (s.push l)
      { s.push l with fieldOwner := .operand } := by
    refine .op rfl rfl fun ins h => ?_
    simp only [step, h]
    rfl
  exact (hf.append hselect).append (.op rfl rfl fun ins h => step_selectField h hl hs)

/-- The index waits as the left half of a string operation that is given up. -/
theorem performs_fieldElement (name : String) (hl : l.asExpression = .ok l) (hr : r.asExpression = .ok r)
    (hf : Performs f s (s.push r))
    (hg : Performs g (s.hold r (.join .plain)) ((s.hold r (.join .plain)).push l))
    (hs : s.fieldOwner = .implicit) :
    Performs (f ++ .op .advanceStr ++ (g ++ .op .selectObject ++ .op (.selectField name)) ++
      .op .terminateRewindStr ++ .op .selectFieldArray) s (s.push (.field (some l) name (some r))) := by
  have hhold : Performs (.op .advanceStr) (s.push r) (s.hold r (.join .plain)) :=
    .op rfl rfl fun ins h => step_join .plain h hr
  have hfield := (hf.append hhold).append (performs_field name hl hg hs)
  have hswap : Performs (.op .terminateRewindStr)
      ((s.hold r (.join .plain)).push (.field (some l) name none))
      ((s.push (.field (some l) name none)).push r) :=
    .op rfl rfl fun ins h => step_terminate h
  exact (hfield.append hswap).append (.op rfl rfl fun ins h => step_selectFieldArray h hr)

/-- A unary operation performs after its operand. -/
theorem performs_unary {o : UnaryOp} (hl : l.asExpression = .ok l) (hf : Performs f s (s.push l)) :
    Performs (f ++ .op (.unary o)) s (s.push (unaryNode o l)) :=
  hf.append (.op rfl rfl fun _ h => step_unary h hl)

/-- A binary operation performs after its operands. -/
theorem performs_binary {o : BinaryOp} (hl : l.asExpression = .ok l) (hr : r.asExpression = .ok r)
    (hf : Performs f s (s.push l)) (hg : Performs g (s.push l) ((s.push l).push r)) :
    Performs (f ++ g ++ .op (.binary o)) s (s.push (.binary o l r)) :=
  (hf.append hg).append (.op rfl rfl fun _ h => step_binary h hl hr)

/-- The operator of a jump over a right operand. -/
def shortCircuit (kind : JumpKind) : BinaryOp :=
  if kind.whenTrue then .or else .and

/-- The right operand is evaluated while the operator waits for it. -/
theorem performs_skip {kind : JumpKind} (hk : kind.isShortCircuit) (hl : l.asExpression = .ok l)
    (hr : r.asExpression = .ok r) (hf : Performs f s (s.push l))
    (hg : ∀ s : State, s.fieldOwner = .implicit → Performs g s (s.push r))
    (hs : s.fieldOwner = .implicit) :
    Performs (f ++ g.skip kind) s (s.push (.binary (shortCircuit kind) l r)) := by
  refine hf.append ⟨⟨rfl, rfl⟩, fun L exit pos hq => ?_⟩
  rw [Fragment.size_skip, ← Nat.add_assoc] at hq ⊢
  let ins := L.instr pos (.jump kind (L.addr (pos + 1 + g.size)))
  let p : Pending := ⟨L.addr (pos + 1 + g.size), shortCircuit kind, ins⟩
  let t : State := { s with pending := p :: s.pending }
  have hjump : Leads (L.addr pos) [.plain ins] (s.push l) (t.push l) (L.addr (pos + 1)) := by
    refine (Finishes.region (run_plain L pos _) hq (by simp; omega) ?_).leads _
    simp only [step, Placement.operation_instr, if_pos hk]
    rfl
  have hq' : Quiet (L.addr (pos + 1 + g.size)) (t.push l) := by
    refine ⟨hq.1, fun p' hp' => ?_⟩
    rcases List.mem_cons.mp hp' with rfl | hp'
    · exact Nat.le_refl _
    · exact hq.2 p' hp'
  have hright := (hg (t.push l) hs).2 L exit (pos + 1) hq'
  exact (hjump.append hright).settle (.complete hl hr)

/-- Arguments are added to the open frame, the last one first. -/
theorem performs_argumentCode {args : List Node} (hn : ∀ a ∈ args, a.asExpression = .ok a)
    (h : ∀ a ∈ args, ∀ s : State, s.fieldOwner = .implicit → Performs (a.code .read) s (s.push a))
    (hs : s.fieldOwner = .implicit) (frame : List Node) (frames : List (List Node)) :
    Performs (argumentCode args) { s with frames := frame :: frames }
      { s with frames := (args.reverse ++ frame) :: frames } := by
  induction args generalizing frame with
  | nil => exact .empty
  | cons a args ih =>
      obtain ⟨ha, hargs⟩ := List.forall_mem_cons.mp h
      obtain ⟨hna, hnargs⟩ := List.forall_mem_cons.mp hn
      have hpush : Performs (.op .push) (({ s with frames := frame :: frames } : State).push a)
          { s with frames := (a :: frame) :: frames } :=
        .op rfl rfl fun ins hi => step_push hi hna
      have := ((ha { s with frames := frame :: frames } hs).append hpush).append
        (ih hnargs hargs (a :: frame))
      simpa [argumentCode] using this

/-- **A call performs if its arguments do**: the frame is opened, filled from the left and taken by the call. -/
theorem performs_call (name : String) (nameSpace : Option String) (callType : CallType) {args : List Node}
    (hn : ∀ a ∈ args, a.asExpression = .ok a)
    (h : ∀ a ∈ args, ∀ s : State, s.fieldOwner = .implicit → Performs (a.code .read) s (s.push a))
    (hs : s.fieldOwner = .implicit) :
    Performs (.op .pushFrame ++ argumentCode args ++ .op (.call name nameSpace callType false)) s
      (s.push (.call name nameSpace callType args)) := by
  have hframe : Performs (.op .pushFrame) s { s with frames := [] :: s.frames } := by
    refine .op rfl rfl fun ins h => ?_
    simp only [step, h]
    rfl
  have hcall : Performs (.op (.call name nameSpace callType false))
      { s with frames := (args.reverse ++ []) :: s.frames }
      (s.push (.call name nameSpace callType args)) := by
    refine .op rfl rfl fun ins h => ?_
    simp only [step, h]
    rw [bind_ok rfl, push_apply]
    simp [State.push]
  exact (hframe.append (performs_argumentCode hn h hs [] s.frames)).append hcall

end Parts

/-- An assignment that is no compound is left as it stands. -/
theorem assignment_eq {target value : Node} (h : (assign target none value).compound? = none) :
    assignment target value = .assign target none value := by
  unfold assignment
  split
  · next o l r =>
      simp only [compound?, ite_eq_right_iff, reduceCtorEq, imp_false] at h
      exact if_neg h
  · rfl

/-- **Evaluation.**  The code of an expression in normal form puts the expression on the stack; written
as a target, it assigns the value on the stack. -/
theorem Normal.performs_access {n : Node} (h : Normal n) :
    (∀ s : State, s.fieldOwner = .implicit → Performs (n.code .read) s (s.push n)) ∧
    (n.isPlace → ∀ (s : State) (value : Node), value.asExpression = .ok value →
      s.fieldOwner = .implicit → Performs (n.code .write) (s.push value) (s.push (assignment n value))) := by
  induction h with
  | constant c =>
      refine ⟨fun s _ => .op rfl rfl fun ins hi => ?_, nofun⟩
      cases c <;> simp only [Constant.operation] at hi <;> simp only [step, hi] <;> rfl
  | var name =>
      have hselect : ∀ (s : State) (create : Bool),
          Performs (.op (.selectVar name create)) s (s.push (.var name none)) := by
        refine fun s create => .op rfl rfl fun ins hi => ?_
        simp only [step, hi]
        rfl
      refine ⟨fun s _ => (performs_read (hselect s false)).1, fun _ s value hv _ => ?_⟩
      exact (hselect (s.push value) true).append (.typed rfl rfl fun ins type hi => step_saveVar hi hv)
  | element name hi ih =>
      refine ⟨fun s hs => (performs_read (performs_element name false hi.asExpression_eq ih.1 hs)).1,
        fun _ s value hv hs => ?_⟩
      exact (performs_element (s := s.push value) name true hi.asExpression_eq ih.1 hs).append
        (.typed rfl rfl fun ins type ho => step_saveVar ho hv)
  | field name ho iho =>
      refine ⟨fun s hs => (performs_read (performs_field name ho.asExpression_eq (iho.1 s hs) hs)).2,
        fun _ s value hv hs => ?_⟩
      exact (performs_field name ho.asExpression_eq (iho.1 (s.push value) hs) hs).append
        (.typed rfl rfl fun ins type ho => step_saveField ho hv)
  | fieldElement name ho hi iho ihi =>
      refine ⟨fun s hs => (performs_read (performs_fieldElement name ho.asExpression_eq hi.asExpression_eq
        (ihi.1 s hs) (iho.1 _ hs) hs)).2, fun _ s value hv hs => ?_⟩
      exact (performs_fieldElement name ho.asExpression_eq hi.asExpression_eq (ihi.1 (s.push value) hs)
        (iho.1 _ hs) hs).append (.typed rfl rfl fun ins type ho => step_saveField ho hv)
  | @unary o operand hn hc ih =>
      refine ⟨fun s hs => ?_, nofun⟩
      have hnode : unaryNode o operand = .unary o operand := by
        unfold unaryNode
        split
        · exact absurd rfl (hc rfl _ _ _)
        · rfl
      have hrun := performs_unary (o := o) hn.asExpression_eq (ih.1 s hs)
      rwa [hnode] at hrun
  | @binary o l r hl hr ihl ihr =>
      refine ⟨fun s hs => ?_, nofun⟩
      -- only these two have a jump in their code
      cases o with
      | and => exact performs_skip rfl hl.asExpression_eq hr.asExpression_eq (ihl.1 s hs) ihr.1 hs
      | or => exact performs_skip rfl hl.asExpression_eq hr.asExpression_eq (ihl.1 s hs) ihr.1 hs
      | _ => exact performs_binary hl.asExpression_eq hr.asExpression_eq (ihl.1 s hs) (ihr.1 _ hs)
  | @compare o l r hl hr ihl ihr =>
      refine ⟨fun s hs => ?_, nofun⟩
      have hequal := performs_compare hl.asExpression_eq hr.asExpression_eq (ihl.1 s hs) (ihr.1 _ hs)
      cases o with
      | equal => exact hequal
      | notEqual => exact performs_unary rfl hequal
  | concat join hl hr ihl ihr =>
      exact ⟨fun s hs => performs_concat join hl.asExpression_eq hr.asExpression_eq (ihl.1 s hs)
        (ihr.1 _ hs), nofun⟩
  | comma hl hr ihl ihr =>
      exact ⟨fun s hs => performs_comma hl.asExpression_eq hr.asExpression_eq (ihl.1 s hs)
        (ihr.1 _ hs), nofun⟩
  | call name nameSpace callType hargs ih =>
      exact ⟨fun s hs => performs_call name nameSpace callType (fun a ha => (hargs a ha).asExpression_eq)
        (fun a ha => (ih a ha).1) hs, nofun⟩
  | @assign target value hp ht hv hc iht ihv =>
      refine ⟨fun s hs => ?_, nofun⟩
      have hrun := (ihv.1 s hs).append (iht.2 hp s value hv.asExpression_eq hs)
      rwa [assignment_eq hc] at hrun
  | @compound target value o hp ht hv ho iht ihv =>
      refine ⟨fun s hs => ?_, nofun⟩
      -- the place is read, the operator applied, and the place written
      have hnode : assignment target (.binary o target value) = .assign target (some o) value := by
        simp [assignment, ho]
      have hvalue := performs_binary (o := o) ht.asExpression_eq hv.asExpression_eq (iht.1 s hs)
        (ihv.1 _ hs)
      have hrun := hvalue.append (iht.2 hp s _ (Normal.binary o ht hv).asExpression_eq hs)
      rwa [hnode] at hrun

/-- **Statements.**  A return or an expression whose value is dropped stays on the stack. -/
theorem Simple.finishes {n : Node} (h : Simple n) {s : State} (hs : s.fieldOwner = .implicit)
    (L : Placement) (exit : Addr) (pos : Nat) (hq : Quiet (L.addr (pos + n.simpleCode.size)) s) :
    Finishes (L.addr pos) ((n.simpleCode.code L exit pos).map .plain) s (s.push n) := by
  cases h with
  | ret =>
      exact .region (run_plain L pos _) hq (by simp [simpleCode]) rfl
  | @retValue value hv =>
      refine (hv.performs_access.1 s hs).finishes_typed (fun ins _ hi => ?_) L exit pos hq
      simp only [step, hi]
      rw [bind_ok (pop_push hv.asExpression_eq), push_apply]
  | expression hn =>
      have hdrop : ∀ (ins : Instruction) (type : ValueType), ins.operation = .convert type none →
          step ins (s.push n) = .ok ((), s.push n) := by
        intro ins type hi
        simp only [step, hi]
        rfl
      have := (hn.performs_access.1 s hs).finishes_typed hdrop L exit pos
      cases hn <;> exact this hq

end Node

end TorqueScript
