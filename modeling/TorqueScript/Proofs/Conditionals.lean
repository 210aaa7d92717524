import TorqueScript.Proofs.MixedExpressions

/-!
# Choices between values

This module tells what becomes of expressions in which choices, `&&`, `||` and other binary operators are put
together in any way (`Node.Mixed`).  If a `&&` or `||` is one of the two values of a choice (`Node.picksLogic`), its
stack has been put away by the time that it is completed.  Behind the first value, its operands are not found on the
stack of the second; behind the second value, they have become two statements.

* `Node.Mixed.evaluates`: without such a value, the code of an expression leaves the expression on the stack.
* `Node.Mixed.jams`: with such a value, the code is not run to its end, or the instruction behind it is not run.
* `Stream.stored_outcome`: the code that stores an expression in a variable is decompiled to the assignment
  in the first case, and refused in the second.
-/

namespace TorqueScript

namespace Node

open Rebuild

variable {n left right condition thenValue elseValue : Node} {s t : State} {o : BinaryOp} {b : Addr}

/-! ### Running the code of an expression -/

/-- What is left behind at `b`: the value, or the operands of a `&&` or `||` that is to be completed there. -/
structure Leaves (b : Addr) (n : Node) (s t : State) : Prop where
  settles : Settles b t (s.push n.held)
  value : n.isLogic = false → t = s.push n.held
  logic : n.isLogic → Due b t ∧ s.operands.length + 2 ≤ t.operands.length

/-- The code of the expression is run everywhere and leaves its value behind. -/
def Evaluates (n : Node) : Prop :=
  ∀ (L : Placement) (exit : Addr) (pos : Nat) (s : State), Quiet (L.addr (pos + n.valueCode.size)) s →
    ∃ t, Finishes (L.addr pos) (n.valueRegions L exit pos) s t ∧ Leaves (L.addr (pos + n.valueCode.size)) n s t

/-- A value is left on the stack as it is held. -/
theorem Leaves.of_value (h : n.isLogic = false) : Leaves b n s (s.push n.held) :=
  ⟨.refl b _, fun _ => rfl, fun hlogic => absurd hlogic (by simp [h])⟩

/-- What evaluates leads from its first address to the one behind its code. -/
theorem Evaluates.leads (h : Evaluates n) (L : Placement) (exit : Addr) (pos : Nat)
    (hq : Quiet (L.addr (pos + n.valueCode.size)) s) :
    Leads (L.addr pos) (n.valueRegions L exit pos) s (s.push n.held) (L.addr (pos + n.valueCode.size)) := by
  obtain ⟨t, hrun, hleaves⟩ := h L exit pos s hq
  exact (hrun.leads _).settle hleaves.settles

theorem evaluates_constant (c : Constant) : Evaluates (constant c) := by
  intro L exit pos s hq
  refine ⟨_, ?_, .of_value rfl⟩
  refine Finishes.region (run_plain L pos c.operation) hq (L.addr_lt_iff.mpr (Nat.lt_succ_self pos)) ?_
  cases c <;> rfl

theorem evaluates_var (name : String) : Evaluates (var name none) := by
  intro L exit pos s hq
  refine ⟨_, ?_, .of_value rfl⟩
  have hselect : Performs (.op (.selectVar name false)) s (s.push (var name none)) := by
    refine .op rfl rfl fun ins hi => ?_
    simp only [step, hi]
    rfl
  refine hselect.finishes_typed (fun ins type hi => ?_) L exit pos hq
  simp only [step, hi]
  rfl

/-- Operators that evaluate both operands first. -/
theorem evaluates_plain (ho : o.jump? = none) (hl : Evaluates left) (hr : Evaluates right)
    (hleft : left.held.asExpression = .ok left) (hright : right.held.asExpression = .ok right) :
    Evaluates (binary o left right) := by
  intro L exit pos s hq
  have hlogic : (binary o left right).isLogic = false := by rw [isLogic, ho]; rfl
  refine ⟨_, ?_, .of_value hlogic⟩
  rw [size_plain ho] at hq
  rw [valueRegions_plain ho]
  have hfirst := hl.leads L exit pos (hq.mono (L.addr_le_iff.mpr (by omega)))
  have hsecond := hr.leads L exit (pos + left.valueCode.size)
    ((hq.push left.held).mono (L.addr_le_iff.mpr (by omega)))
  rw [Nat.add_assoc] at hsecond
  exact (hfirst.append hsecond).finish (Finishes.region (run_plain L _ _) ((hq.push _).push _)
    (L.addr_lt_iff.mpr (by omega)) (step_binary rfl hleft hright))

/-- An operator at position `mid` that waits for its right operand, which ends at `stop`. -/
def waiting (L : Placement) (o : BinaryOp) (kind : JumpKind) (mid stop : Nat) : Pending :=
  ⟨L.addr stop, o, L.instr mid (.jump kind (L.addr stop))⟩

/-- The left operand of `&&` and `||`, and the jump over the right one. -/
theorem leads_waiting {kind : JumpKind} (ho : o.jump? = some kind) (hl : Evaluates left) {L : Placement}
    {pos stop : Nat} (hq : Quiet (L.addr stop) s) (hstop : pos + left.valueCode.size < stop) (exit : Addr) :
    Leads (L.addr pos) (left.valueRegions L exit pos ++ [.plain (L.instr (pos + left.valueCode.size)
        (.jump kind (L.addr stop)))]) s
      ((s.await (waiting L o kind (pos + left.valueCode.size) stop)).push left.held)
      (L.addr (pos + left.valueCode.size + 1)) := by
  obtain ⟨hkind, hop⟩ := BinaryOp.shortCircuit_of_jump? ho
  have hlt : L.addr (pos + left.valueCode.size) < L.addr stop := L.addr_lt_iff.mpr hstop
  refine (hl.leads L exit pos (hq.mono hlt.le)).append
    ((Finishes.region (run_plain L _ _) (hq.push _) hlt ?_).leads _)
  simp only [step, Placement.operation_instr, if_pos hkind]
  rw [← shortCircuit, hop]
  rfl

/-- The right operand of `&&` and `||` is evaluated while the operator waits for it. -/
theorem evaluates_logic {kind : JumpKind} (ho : o.jump? = some kind) (hl : Evaluates left) (hr : Evaluates right)
    (hleft : left.held.asExpression = .ok left) (hright : right.held.asExpression = .ok right) :
    Evaluates (binary o left right) := by
  intro L exit pos s hq
  rw [size_logic ho, ← Nat.add_assoc, ← Nat.add_assoc] at hq ⊢
  rw [valueRegions_logic ho]
  have hmid : pos + left.valueCode.size < pos + left.valueCode.size + 1 + right.valueCode.size := by omega
  have hawait := hq.await (p := waiting L o kind (pos + left.valueCode.size) _) le_rfl
  obtain ⟨t, hsecond, hleaves⟩ := hr L exit _ _ (hawait.push left.held)
  have hrun := (leads_waiting ho hl hq hmid exit).finish hsecond
  rw [List.append_assoc] at hrun
  have hlogic : (binary o left right).isLogic = true := by rw [isLogic, ho]; rfl
  refine ⟨t, hrun, hleaves.settles.trans (.complete hleft hright), fun hvalue => ?_, fun _ => ?_⟩
  · rw [hlogic] at hvalue
    cases hvalue
  · cases hright : right.isLogic with
    | true =>
        obtain ⟨hdue, hlength⟩ := hleaves.logic hright
        exact ⟨hdue, (Nat.add_le_add_right (Nat.le_succ _) 2).trans hlength⟩
    | false =>
        rw [hleaves.value hright]
        exact ⟨⟨hq.1, _, s.pending, rfl, le_rfl⟩, le_rfl⟩

/-- A choice of values evaluates if its condition and its branches do. -/
theorem evaluates_conditional (hc : Evaluates condition) (ht : Evaluates thenValue) (he : Evaluates elseValue)
    (hcondition : condition.held.asExpression = .ok condition) (hthen : thenValue.isLogic = false)
    (helse : elseValue.isLogic = false) : Evaluates (conditional condition thenValue elseValue) := by
  intro L exit pos s hq
  refine ⟨_, ?_, .of_value rfl⟩
  rw [size_conditional] at hq
  have hfirst := hc.leads L exit pos (hq.mono (L.addr_le_iff.mpr (by omega)))
  obtain ⟨_, hthenRun, hleaves⟩ := ht L exit (pos + condition.valueCode.size + 1) s.inner
    (hq.inner.mono (L.addr_le_iff.mpr (by omega)))
  obtain rfl := hleaves.value hthen
  obtain ⟨_, helseRun, hleaves⟩ := he L exit (pos + condition.valueCode.size + 1 + thenValue.valueCode.size + 1)
    s.inner (hq.inner.mono (L.addr_le_iff.mpr (by omega)))
  obtain rfl := hleaves.value helse
  refine hfirst.finish (Finishes.region (by rw [run, Placement.addr_instr]) (hq.push _)
    (L.addr_lt_iff.mpr (by omega)) ?_)
  rw [bind_ok (fallThrough_push hcondition), bind_valuePart (hthenRun _ (.refl _ _)),
    bind_valuePart (helseRun _ (.refl _ _)), push_apply]
  rfl

/-- **Evaluation.**  If no choice has a `&&` or `||` for a value, the code of the expression is run and leaves
the expression behind. -/
theorem Mixed.evaluates (h : Mixed n) (hpicks : n.picksLogic = false) : Evaluates n := by
  induction h with
  | constant c => exact evaluates_constant c
  | var name => exact evaluates_var name
  | @binary o left right hl hr ihl ihr =>
      simp only [picksLogic, Bool.or_eq_false_iff] at hpicks
      cases ho : o.jump? with
      | none => exact evaluates_plain ho (ihl hpicks.1) (ihr hpicks.2) hl.asExpression_held hr.asExpression_held
      | some kind =>
          exact evaluates_logic ho (ihl hpicks.1) (ihr hpicks.2) hl.asExpression_held hr.asExpression_held
  | conditional hc _ _ ihc iht ihe =>
      simp only [picksLogic, Bool.or_eq_false_iff] at hpicks
      obtain ⟨⟨⟨⟨hcondition, hthen⟩, hthenPicks⟩, helse⟩, helsePicks⟩ := hpicks
      exact evaluates_conditional (ihc hcondition) (iht hthenPicks) (ihe helsePicks) hc.asExpression_held hthen
        helse

/-! ### Choices with a `&&` or `||` for a value -/

/-- Where the code of the expression is run to its end, nothing is run behind it. -/
def Jams (n : Node) : Prop :=
  ∀ ⦃L : Placement⦄ ⦃exit : Addr⦄ ⦃pos : Nat⦄ ⦃s s₀ t : State⦄, Quiet (L.addr (pos + n.valueCode.size)) s →
    Settles (L.addr pos) s₀ s → runAll (n.valueRegions L exit pos) s₀ = .ok ((), t) →
      Stuck (L.addr (pos + n.valueCode.size)) t

/-- The code of an expression begins with the instruction at its position. -/
theorem Mixed.exists_first (h : Mixed n) (L : Placement) (exit : Addr) (pos : Nat) :
    ∃ region regions x, n.valueRegions L exit pos = region :: regions ∧
      run region = (do enter (L.addr pos); x) := by
  induction h with
  | constant c => exact ⟨_, _, _, rfl, run_plain L pos _⟩
  | var name => exact ⟨_, _, _, rfl, run_plain L pos _⟩
  | @binary o left right _ _ ihl _ =>
      obtain ⟨region, regions, x, hregions, hrun⟩ := ihl
      cases ho : o.jump? with
      | none =>
          simp only [valueRegions_plain ho, hregions, List.append_assoc]
          exact ⟨region, _, x, rfl, hrun⟩
      | some kind =>
          simp only [valueRegions_logic ho, hregions]
          exact ⟨region, _, x, rfl, hrun⟩
  | conditional _ _ _ ihc _ _ =>
      obtain ⟨region, regions, x, hregions, hrun⟩ := ihc
      simp only [valueRegions, hregions]
      exact ⟨region, _, x, rfl, hrun⟩

/-- **A jam is passed on**: no run goes on over a region behind it. -/
theorem Jams.runAll_ne_ok (h : Jams n) {L : Placement} {exit : Addr} {pos : Nat} {s₀ : State}
    (hq : Quiet (L.addr (pos + n.valueCode.size)) s) (hs : Settles (L.addr pos) s₀ s) {region : Region}
    {x : Rebuild Unit} (hregion : run region = (do enter (L.addr (pos + n.valueCode.size)); x))
    (regions : List Region) : runAll (n.valueRegions L exit pos ++ region :: regions) s₀ ≠ .ok ((), t) := by
  intro hrun
  obtain ⟨u, hfirst, hsecond⟩ := runAll_append_eq_ok hrun
  exact (h hq hs hfirst).runAll_ne_ok le_rfl hregion regions _ hsecond

/-- A jam in the left operand jams the operation. -/
theorem jams_plain_left (ho : o.jump? = none) (hl : Jams left) (hright : Mixed right) :
    Jams (binary o left right) := by
  intro L exit pos s s₀ t hq hs hrun
  obtain ⟨region, regions, x, hregions, hregion⟩ := hright.exists_first L exit (pos + left.valueCode.size)
  rw [size_plain ho] at hq
  simp only [valueRegions_plain ho, hregions, List.append_assoc, List.cons_append] at hrun
  exact absurd hrun (hl.runAll_ne_ok (hq.mono (L.addr_le_iff.mpr (by omega))) hs hregion _)

/-- So does one in the right operand. -/
theorem jams_plain_right (ho : o.jump? = none) (hl : Evaluates left) (hr : Jams right) :
    Jams (binary o left right) := by
  intro L exit pos s s₀ t hq hs hrun
  rw [size_plain ho] at hq
  simp only [valueRegions_plain ho, List.append_assoc] at hrun
  obtain ⟨u, hfirst, hu⟩ := hl.leads L exit pos (hq.mono (L.addr_le_iff.mpr (by omega))) s₀ hs
  rw [runAll_append_ok hfirst, ← Nat.add_assoc] at hrun
  exact absurd hrun (hr.runAll_ne_ok ((hq.push left.held).mono (L.addr_le_iff.mpr (by omega))) hu
    (run_plain L _ _) _)

/-- A jam in the left side of a logical operation jams it. -/
theorem jams_logic_left {kind : JumpKind} (ho : o.jump? = some kind) (hl : Jams left) :
    Jams (binary o left right) := by
  intro L exit pos s s₀ t hq hs hrun
  rw [size_logic ho] at hq
  rw [valueRegions_logic ho] at hrun
  exact absurd hrun (hl.runAll_ne_ok (hq.mono (L.addr_le_iff.mpr (by omega))) hs (run_plain L _ _) _)

/-- So does one in its right side. -/
theorem jams_logic_right {kind : JumpKind} (ho : o.jump? = some kind) (hl : Evaluates left) (hr : Jams right) :
    Jams (binary o left right) := by
  intro L exit pos s s₀ t hq hs hrun
  rw [size_logic ho, ← Nat.add_assoc, ← Nat.add_assoc] at hq ⊢
  simp only [valueRegions_logic ho] at hrun
  rw [List.append_cons] at hrun
  have hmid : pos + left.valueCode.size < pos + left.valueCode.size + 1 + right.valueCode.size := by omega
  have hawait := hq.await (p := waiting L o kind (pos + left.valueCode.size) _) le_rfl
  obtain ⟨u, hfirst, hu⟩ := leads_waiting ho hl hq hmid exit s₀ hs
  rw [runAll_append_ok hfirst] at hrun
  exact hr (hawait.push left.held) hu hrun

/-- A value of a choice that is not completed on the stack of its own. -/
theorem unfinished {L : Placement} {exit : Addr} {pos : Nat} (h : Jams n ∨ Evaluates n ∧ n.isLogic)
    (hq : Quiet (L.addr (pos + n.valueCode.size)) s) (hrun : runAll (n.valueRegions L exit pos) s = .ok ((), t)) :
    Due (L.addr (pos + n.valueCode.size)) t ∧
      ∀ e, t.operands = [.node e] → ∀ m, e.asExpression ≠ .ok m := by
  rcases h with hjams | ⟨heval, hlogic⟩
  · have hstuck := hjams hq (.refl _ s) hrun
    exact ⟨hstuck.toDue, fun e he => hstuck.top e (by rw [he]; rfl)⟩
  · obtain ⟨u, hu, hleaves⟩ := heval L exit pos s hq
    cases hrun.symm.trans (hu s (.refl _ s))
    obtain ⟨hdue, hlength⟩ := hleaves.logic hlogic
    refine ⟨hdue, fun e he => ?_⟩
    rw [he, List.length_singleton] at hlength
    omega

/-- What is run where a choice is run to its end. -/
theorem choice_eq_ok {L : Placement} {exit : Addr} {pos : Nat} {s₀ : State} (hc : Evaluates condition)
    (hcondition : condition.held.asExpression = .ok condition)
    (hq : Quiet (L.addr (pos + (conditional condition thenValue elseValue).valueCode.size)) s)
    (hs : Settles (L.addr pos) s₀ s)
    (h : runAll ((conditional condition thenValue elseValue).valueRegions L exit pos) s₀ = .ok ((), t)) :
    let head := pos + condition.valueCode.size
    let gap := head + 1 + thenValue.valueCode.size
    ∃ thenBody s₁ s₂, runAll (thenValue.valueRegions L exit (head + 1)) s.inner = .ok ((), s₁) ∧
      closePart (L.addr gap) s₁ = .ok (thenBody, s₂) ∧
      ∃ elseBody s₃ s₄, runAll (elseValue.valueRegions L exit (gap + 1)) s₂.inner = .ok ((), s₃) ∧
        closePart (L.addr gap) s₃ = .ok (elseBody, s₄) ∧ t = s₄.push (ifElse condition thenBody elseBody) := by
  rw [size_conditional] at hq
  simp only [valueRegions] at h
  obtain ⟨u, hfirst, hu⟩ := hc.leads L exit pos (hq.mono (L.addr_le_iff.mpr (by omega))) s₀ hs
  have henter := enter_settles hu (hq.push _) (L.addr_lt_iff.mpr (by omega))
  rw [runAll_append_ok hfirst, runAll_cons] at h
  obtain ⟨⟨⟩, _, hrun, ⟨⟩⟩ := bind_eq_ok h
  rw [run, Placement.addr_instr, bind_ok henter, bind_ok (fallThrough_push hcondition)] at hrun
  obtain ⟨_, _, ⟨⟩, hrun⟩ := bind_eq_ok hrun
  obtain ⟨⟨⟩, s₁, hbody, hrun⟩ := bind_eq_ok hrun
  obtain ⟨thenBody, s₂, hclose, hrun⟩ := bind_eq_ok hrun
  obtain ⟨_, _, ⟨⟩, hrun⟩ := bind_eq_ok hrun
  obtain ⟨⟨⟩, s₃, halternative, hrun⟩ := bind_eq_ok hrun
  obtain ⟨elseBody, s₄, hclose', ⟨⟩⟩ := bind_eq_ok hrun
  exact ⟨thenBody, s₁, s₂, hbody, hclose, elseBody, s₃, s₄, halternative, hclose', rfl⟩

/-- A jam in the condition jams the choice. -/
theorem jams_condition (hc : Jams condition) : Jams (conditional condition thenValue elseValue) := by
  intro L exit pos s s₀ t hq hs hrun
  rw [size_conditional] at hq
  exact absurd hrun (hc.runAll_ne_ok (hq.mono (L.addr_le_iff.mpr (by omega))) hs
    (by rw [run, Placement.addr_instr]) _)

/-- The first value is put away, and the operands that it has left behind are missing in front of the second. -/
theorem jams_then (hc : Evaluates condition) (hcondition : condition.held.asExpression = .ok condition)
    (ht : Jams thenValue ∨ Evaluates thenValue ∧ thenValue.isLogic) (he : Mixed elseValue) :
    Jams (conditional condition thenValue elseValue) := by
  intro L exit pos s s₀ t hq hs hrun
  obtain ⟨thenBody, s₁, s₂, hbody, hclose, elseBody, s₃, s₄, halternative, -⟩ :=
    choice_eq_ok hc hcondition hq hs hrun
  rw [size_conditional] at hq
  obtain ⟨hdue, -⟩ := unfinished ht (hq.inner.mono (L.addr_le_iff.mpr (by omega))) hbody
  obtain ⟨outer, saved, -, -, rfl⟩ := closePart_eq_ok hclose
  have hstuck : Stuck (L.addr (pos + condition.valueCode.size + 1 + thenValue.valueCode.size))
      (State.inner { s₁ with operands := outer, saved }) := ⟨⟨hdue.function, hdue.pending⟩, nofun⟩
  obtain ⟨region, regions, x, hregions, hregion⟩ := he.exists_first L exit
    (pos + condition.valueCode.size + 1 + thenValue.valueCode.size + 1)
  rw [hregions] at halternative
  exact absurd halternative (hstuck.runAll_ne_ok (L.addr_le_iff.mpr (Nat.le_succ _)) hregion regions _)

/-- The second value is put away, and what has become of it is no value. -/
theorem jams_else (hc : Evaluates condition) (hcondition : condition.held.asExpression = .ok condition)
    (ht : Evaluates thenValue) (hthen : thenValue.isLogic = false)
    (he : Jams elseValue ∨ Evaluates elseValue ∧ elseValue.isLogic) :
    Jams (conditional condition thenValue elseValue) := by
  intro L exit pos s s₀ t hq hs hrun
  obtain ⟨thenBody, s₁, s₂, hbody, hclose, elseBody, s₃, s₄, halternative, hclose', rfl⟩ :=
    choice_eq_ok hc hcondition hq hs hrun
  rw [size_conditional, ← Nat.add_assoc, ← Nat.add_assoc, ← Nat.add_assoc, ← Nat.add_assoc] at hq ⊢
  -- the second value is run from the same state as the first
  obtain ⟨v, hv, hleaves⟩ := ht L exit (pos + condition.valueCode.size + 1) s.inner
    (hq.inner.mono (L.addr_le_iff.mpr (by omega)))
  cases hbody.symm.trans (hv _ (.refl _ _))
  obtain rfl := hleaves.value hthen
  obtain ⟨outer, saved, hsaved, -, rfl⟩ := closePart_eq_ok hclose
  cases hsaved
  obtain ⟨hdue, hvalue⟩ := unfinished he hq.inner halternative
  obtain ⟨outer, saved, -, hstatements, rfl⟩ := closePart_eq_ok hclose'
  refine ⟨⟨hdue.function, hdue.pending⟩, ?_⟩
  rintro _ ⟨⟩
  refine asExpression_ifElse_ne_ok fun e he => hvalue e ?_
  have hoperands := eq_of_statements hstatements
  rw [he] at hoperands
  exact List.reverse_eq_iff.mp hoperands

/-- An expression jams, or is left as an open logical operation, or evaluates to a value without such branches. -/
theorem Mixed.unfinished_or (h : Mixed n) (hjams : n.picksLogic → Jams n) :
    (Jams n ∨ Evaluates n ∧ n.isLogic) ∨ Evaluates n ∧ n.isLogic = false ∧ n.picksLogic = false := by
  cases hpicks : n.picksLogic with
  | true => exact .inl (.inl (hjams hpicks))
  | false =>
      cases hlogic : n.isLogic with
      | true => exact .inl (.inr ⟨h.evaluates hpicks, rfl⟩)
      | false => exact .inr ⟨h.evaluates hpicks, rfl, rfl⟩

/-- **No evaluation.**  If a choice has a `&&` or `||` for a value, rebuilding fails in the code of the
expression or at the instruction behind it. -/
theorem Mixed.jams (h : Mixed n) (hpicks : n.picksLogic) : Jams n := by
  induction h with
  | constant | var => cases hpicks
  | @binary o left right hl hr ihl ihr =>
      cases hleft : left.picksLogic with
      | true =>
          cases ho : o.jump? with
          | none => exact jams_plain_left ho (ihl hleft) hr
          | some kind => exact jams_logic_left ho (ihl hleft)
      | false =>
          rw [picksLogic, hleft, Bool.false_or] at hpicks
          cases ho : o.jump? with
          | none => exact jams_plain_right ho (hl.evaluates hleft) (ihr hpicks)
          | some kind => exact jams_logic_right ho (hl.evaluates hleft) (ihr hpicks)
  | @conditional condition thenValue elseValue hc ht he ihc iht ihe =>
      cases hcondition : condition.picksLogic with
      | true => exact jams_condition (ihc hcondition)
      | false =>
          have hceval := hc.evaluates hcondition
          rcases ht.unfinished_or iht with hthen | ⟨hteval, hthen, hthenPicks⟩
          · exact jams_then hceval hc.asExpression_held hthen he
          rcases he.unfinished_or ihe with helse | ⟨-, helse, helsePicks⟩
          · exact jams_else hceval hc.asExpression_held hteval hthen helse
          · rw [picksLogic, hcondition, hthen, hthenPicks, helse, helsePicks] at hpicks
            cases hpicks

/-! ### Storing the value in a variable -/

/-- The value on the stack is stored in a variable and dropped. -/
def storeCode (name : String) : Fragment :=
  (var name none).code .write ++ .typed fun type => .convert type none

/-- The code of `name = n;`. -/
def storedCode (name : String) (n : Node) : Fragment :=
  n.valueCode ++ storeCode name

/-- A store has no jumps. -/
theorem jump?_storeCode {name : String} {L : Placement} {exit : Addr} {pos : Nat} :
    ∀ ins ∈ (storeCode name).code L exit pos, ins.jump? = none := by
  intro ins hins
  have hcode : (storeCode name).code L exit pos = [L.instr pos (.selectVar name true),
    L.instr (pos + 1) (.saveVar (L.type (pos + 1))), L.instr (pos + 2) (.convert (L.type (pos + 2)) none)] := rfl
  rw [hcode] at hins
  simp only [List.mem_cons, List.not_mem_nil, or_false] at hins
  rcases hins with rfl | rfl | rfl <;> rfl

/-- The store finishes with the assignment of what was held. -/
theorem finishes_storeCode (name : String) (hn : n.held.asExpression = .ok n) (L : Placement) (exit : Addr)
    (pos : Nat) (hq : Quiet (L.addr (pos + (storeCode name).size)) s) :
    Finishes (L.addr pos) (((storeCode name).code L exit pos).map .plain) (s.push n.held)
      (s.push (assignment (var name none) n)) := by
  have hselect : Performs (.op (.selectVar name true)) (s.push n.held) ((s.push n.held).push (var name none)) := by
    refine .op rfl rfl fun ins hi => ?_
    simp only [step, hi]
    rfl
  have hsave : Performs (.typed .saveVar) ((s.push n.held).push (var name none))
      (s.push (assignment (var name none) n)) :=
    .typed rfl rfl fun ins type hi => step_saveVar hi hn
  refine (hselect.append hsave).finishes_typed (fun ins type hi => ?_) L exit pos (hq.push _)
  simp only [step, hi]
  rfl

/-- A value that does not contain the target makes no compound assignment. -/
theorem assignment_of_not_contains {target value : Node} (h : value.contains target = false) :
    assignment target value = .assign target none value := by
  refine assignment_eq ?_
  cases value with
  | binary op left right =>
      have hne : left ≠ target := by
        rintro rfl
        have hmem : left ∈ (binary op left right).subnodes :=
          mem_subnodes.mpr (.inr ⟨left, List.mem_cons_self, mem_subnodes.mpr (.inl rfl)⟩)
        rw [contains, List.contains_eq_mem, decide_eq_false_iff_not] at h
        exact h hmem
      rw [compound?, if_neg]
      simp [hne]
  | _ => rfl

end Node

namespace Stream

open Node Rebuild

variable {n : Node} {name : String} {L : Placement}

/-- The stored expression is analyzed, and its regions are those of the expression and of the store. -/
theorem ofStream_storedCode (h : Mixed n) (hbound : ∀ i < (storedCode name n).size, L.addr i < Addr.last) :
    ∃ tree, blockTree ((storedCode name n).code L 0 0) = .ok tree ∧
      Region.ofStream tree ((storedCode name n).code L 0 0) =
        n.valueRegions L 0 0 ++ ((storeCode name).code L 0 n.valueCode.size).map .plain :=
  Fragment.ofStream_of_ahead h.ahead h.readsAs (Nat.succ_pos 2) jump?_storeCode hbound

/-- **Without a logical operation as a branch, the assignment of the expression is given back.** -/
theorem statements_storedCode (h : Mixed n) (hpicks : n.picksLogic = false)
    (hname : n.contains (.var name none) = false)
    (hbound : ∀ i < (storedCode name n).size, L.addr i < Addr.last) :
    (statements ((storedCode name n).code L 0 0)).outcome.1 = .ok [.assign (.var name none) none n] := by
  obtain ⟨tree, htree, hregions⟩ := ofStream_storedCode h hbound
  have hidle : State.Idle {} := ⟨rfl, rfl, rfl⟩
  have hvalue := (h.evaluates hpicks).leads L 0 0 (hidle.quiet _)
  rw [Nat.zero_add] at hvalue
  have hstored := hvalue.finish (finishes_storeCode name h.asExpression_held L 0 _ (hidle.quiet _))
  have hrun : StateT.run (run tree ((storedCode name n).code L 0 0)) {} =
      .ok ((), State.push {} (.assign (.var name none) none n)) := by
    rw [run, hregions]
    refine (bind_ok (hstored {} (.refl _ {}))).trans ?_
    rw [assignment_of_not_contains hname]
    rfl
  have hprogram : ∀ last, program last (State.push {} (.assign (.var name none) none n)) =
      .ok [.assign (.var name none) none n] := fun _ => rfl
  exact congrArg Prod.fst (Piece.outcome_statements htree hrun rfl rfl (hprogram _))

/-- **With one, no statements are given.** -/
theorem statements_storedCode_ne_ok (h : Mixed n) (hpicks : n.picksLogic)
    (hbound : ∀ i < (storedCode name n).size, L.addr i < Addr.last) (nodes : List Node) :
    (statements ((storedCode name n).code L 0 0)).outcome.1 ≠ .ok nodes := by
  obtain ⟨tree, htree, hregions⟩ := ofStream_storedCode h hbound
  intro hok
  rw [statements, Logged.outcome_bind (steady_analyze _) fun tree => steady_rebuild tree _, outcome_analyze,
    htree] at hok
  obtain ⟨t, hrun⟩ := run_of_rebuild hok
  rw [hregions] at hrun
  have hidle : State.Idle {} := ⟨rfl, rfl, rfl⟩
  exact (h.jams hpicks).runAll_ne_ok (hidle.quiet _) (.refl _ {}) (by rw [Nat.zero_add]; exact run_plain L _ _) _
    hrun

/-- **Choices and short circuits.**  Code that stores an expression in a variable which does not occur in it is
decompiled to the assignment of this expression, unless one of the two values of a choice is a `&&` or `||`. -/
theorem stored_outcome (h : Mixed n) (hname : n.contains (.var name none) = false)
    (hbound : ∀ i < (storedCode name n).size, L.addr i < Addr.last) :
    (n.picksLogic = false →
      (statements ((storedCode name n).code L 0 0)).outcome.1 = .ok [.assign (.var name none) none n]) ∧
    (n.picksLogic = true → ∃ e, (statements ((storedCode name n).code L 0 0)).outcome.1 = .error e) := by
  refine ⟨fun hpicks => statements_storedCode h hpicks hname hbound, fun hpicks => ?_⟩
  cases houtcome : (statements ((storedCode name n).code L 0 0)).outcome.1 with
  | ok nodes => exact absurd houtcome (statements_storedCode_ne_ok h hpicks hbound nodes)
  | error e => exact ⟨e, rfl⟩

/-- `%a && ((%b || 1) ? %c + 2 : ((%a && %c) ? 3 : %b))`. -/
def choiceOfChoices : Node :=
  .binary .and (.var "%a" none) (.conditional (.binary .or (.var "%b" none) (.constant (.uint 1)))
    (.binary .add (.var "%c" none) (.constant (.uint 2)))
    (.conditional (.binary .and (.var "%a" none) (.var "%c" none)) (.constant (.uint 3)) (.var "%b" none)))

/-- A choice between choices is given back. -/
theorem stored_outcome_choiceOfChoices :
    choiceOfChoices.Mixed ∧ choiceOfChoices.contains (.var "%x" none) = false ∧
      choiceOfChoices.picksLogic = false ∧
      (statements ((storedCode "%x" choiceOfChoices).code .consecutive 0 0)).outcome.1 =
        .ok [.assign (.var "%x" none) none choiceOfChoices] := by
  have hmixed : choiceOfChoices.Mixed :=
    .binary _ (.var _) (.conditional (.binary _ (.var _) (.constant _)) (.binary _ (.var _) (.constant _))
      (.conditional (.binary _ (.var _) (.var _)) (.constant _) (.var _)))
  have hname : choiceOfChoices.contains (.var "%x" none) = false := by decide
  have hbound : ∀ i < (storedCode "%x" choiceOfChoices).size, Placement.consecutive.addr i < Addr.last :=
    fun i hi => hi.trans (by decide)
  exact ⟨hmixed, hname, rfl, (stored_outcome hmixed hname hbound).1 rfl⟩

/-- `1 ? 2 && 3 : 4`. -/
def logicFirst : Node :=
  .conditional (.constant (.uint 1)) (.binary .and (.constant (.uint 2)) (.constant (.uint 3)))
    (.constant (.uint 4))

/-- `1 ? 2 : 3 && 4`. -/
def logicSecond : Node :=
  .conditional (.constant (.uint 1)) (.constant (.uint 2))
    (.binary .and (.constant (.uint 3)) (.constant (.uint 4)))

/-- A `&&` in either place is refused: its operands are missing, or they are taken for two statements. -/
theorem stored_logicValues :
    (logicFirst.Mixed ∧ logicFirst.contains (.var "%x" none) = false ∧
      (statements ((storedCode "%x" logicFirst).code .consecutive 0 0)).outcome.1 =
        .error (.stackUnderflow 3 default)) ∧
    (logicSecond.Mixed ∧ logicSecond.contains (.var "%x" none) = false ∧
      (statements ((storedCode "%x" logicSecond).code .consecutive 0 0)).outcome.1 =
        .error (.unexpectedOperand 5 default "expression" "if")) := by
  refine ⟨⟨.conditional (.constant _) (.binary _ (.constant _) (.constant _)) (.constant _), by decide, ?_⟩,
    ⟨.conditional (.constant _) (.constant _) (.binary _ (.constant _) (.constant _)), by decide, ?_⟩⟩
  · cbv
  · cbv

end Stream

end TorqueScript
