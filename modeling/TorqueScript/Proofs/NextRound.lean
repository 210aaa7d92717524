import TorqueScript.Proofs.RoundTrip

/-!
# Jumps that nobody wrote

A program without `break` and `continue` has unconditional jumps in its code all the same, over its
`else` parts.  Decompiling it never fails, and never makes a `break` of such a jump; it makes a
`continue` of one exactly if some loop of the program contains an `if` without `else` whose body ends
with an `if` with `else` (`Stream.jumps_of_compile`).

What a piece adds to the statements is told by `Piece.adds`; that it says the truth about
`Piece.rebuilt` is `Piece.Sound.addsWell`, for splits of a loop's body and `for` loops as well.
-/

namespace TorqueScript

namespace Node

variable {P : Node → Prop} {n : Node} {ns : List Node}

theorem has_singleton : Has P [n] ↔ P n ∨ Has P n.children := by
  simp only [Has, listSubnodes_eq, List.flatMap_cons, List.flatMap_nil, List.append_nil, subnodes_eq n,
    List.mem_cons, or_and_right, exists_or, exists_eq_left]

end Node

namespace Piece

open Node

/-- A jump as a statement. -/
def IsJump (n : Node) : Prop :=
  n = .breakLoop ∨ n = .continueLoop

section Adds

variable {jump : Node} {inLoop tail : Bool} {pos : Nat}

theorem IsJump.not_has (h : IsJump jump) {n : Node} (hn : n.Simple) : ¬ Has (· = jump) [n] := by
  refine not_has_simple ?_ hn
  rintro m hm rfl
  rcases h with rfl | rfl
  · cases hm with
    | expression hm => cases hm
  · cases hm with
    | expression hm => cases hm

/-- A choice has a jump in one of its bodies. -/
theorem IsJump.has_choice (h : IsJump jump) {c : Node} (hc : c.Normal) (t e : List Node) :
    Has (· = jump) [.ifElse c t e] ↔ Has (· = jump) t ∨ Has (· = jump) e := by
  have hself : Node.ifElse c t e ≠ jump := by rcases h with rfl | rfl <;> exact nofun
  have hnone : ¬ Has (· = jump) [c] := h.not_has (.expression hc)
  rw [has_singleton, children, List.cons_append, has_cons, has_append]
  simp only [hself, hnone, false_or]

/-- A loop has it in its body. -/
theorem IsJump.has_loop (h : IsJump jump) {c : Node} (hc : c.Normal) (kind : LoopKind)
    (init step : Option Node) (body : List Node) : Has (· = jump) [.loop kind init c step body] ↔
      Has (· = jump) init.toList ∨ Has (· = jump) (body ++ step.toList) := by
  have hself : Node.loop kind init c step body ≠ jump := by rcases h with rfl | rfl <;> exact nofun
  have hnone : ¬ Has (· = jump) [c] := h.not_has (.expression hc)
  rw [has_singleton, children, List.append_assoc, has_append, List.cons_append, has_cons, has_append,
    has_append, or_comm (a := Has _ body)]
  simp only [hself, hnone, false_or]

/-- The effect adds the jump or not. -/
def Adds (jump : Node) (effect : Effect) (b : Bool) : Prop :=
  ∀ stack, Has (· = jump) (effect stack) ↔ Has (· = jump) stack ∨ b

/-- Effects that are applied one after the other add what each of them adds. -/
theorem has_applyAll {effects : List Effect} {bs : List Bool} (h : List.Forall₂ (Adds jump) effects bs)
    (stack : List Node) : Has (· = jump) (applyAll effects stack) ↔ Has (· = jump) stack ∨ bs.any id := by
  induction h generalizing stack with
  | nil => simp [applyAll]
  | @cons e b es bs he _ ih =>
      have := ih (e stack)
      rw [he stack] at this
      rw [List.any_cons, Bool.or_eq_true, ← or_assoc]
      exact this

theorem has_part {effects : List Effect} {bs : List Bool} (h : List.Forall₂ (Adds jump) effects bs) :
    Has (· = jump) (part effects) ↔ bs.any id := by
  rw [part, has_reverse, has_applyAll h]
  simp [has_nil]

theorem has_loopParts {effects : List Effect} {bs : List Bool} (h : List.Forall₂ (Adds jump) effects bs)
    (body : List Piece) (c : Node) :
    Has (· = jump) ((loopParts pos body c effects).body ++ (loopParts pos body c effects).step) ↔ bs.any id := by
  rw [has_append, loopParts]
  cases cut? pos body with
  | none => simp [has_part h, has_nil]
  | some k =>
      simp only
      rw [has_part (List.forall₂_take k h), has_part (List.forall₂_drop k h), ← Bool.or_eq_true,
        ← List.any_append, List.take_append_drop]

/-- What is taken off the stack is put into the loop. -/
theorem has_takeInit (c : Node) (stack : List Node) : Has (· = jump) stack ↔
    Has (· = jump) (takeInit c stack).1.toList ∨ Has (· = jump) (takeInit c stack).2 := by
  unfold takeInit
  split
  · split
    · rw [has_cons]
      rfl
    · simp [has_nil]
  · simp [has_nil]

/-- A guarded loop has the jumps of its parts. -/
theorem IsJump.adds_guarded (h : IsJump jump) {guard : Node} {parts : Rebuild.LoopParts} {b : Bool}
    (hguard : guard.Normal) (hcondition : parts.condition.Normal)
    (hparts : Has (· = jump) (parts.body ++ parts.step) ↔ b) : Adds jump (guarded guard parts) b := by
  intro stack
  obtain ⟨condition, body, step⟩ := parts
  change condition.Normal at hcondition
  change Has (· = jump) (body ++ step) ↔ b at hparts
  have hwhile : Has (· = jump) (.loop .whileLoop none condition none (body ++ step) :: stack) ↔
      Has (· = jump) stack ∨ b := by
    rw [has_cons, h.has_loop hcondition]
    simp [has_nil, hparts, or_comm]
  rw [guarded]
  by_cases hsame : condition = guard
  · -- a `while` loop, or a `for` loop that takes over the statement in front of it
    simp only [hsame, ne_eq, not_true, if_false]
    subst hsame
    match step with
    | [] | _ :: _ :: _ => exact hwhile
    | [step] =>
      by_cases hstep : step.isStatement
      · simp only [if_pos hstep]
        exact hwhile
      · simp only [if_neg hstep]
        rw [has_cons, h.has_loop hcondition, has_takeInit condition stack, Option.toList_some, hparts]
        tauto
  · simp only [ne_eq, hsame, not_false_eq_true, if_true]
    rw [has_cons, h.has_choice hguard, Rebuild.LoopParts.doWhile, h.has_loop hcondition]
    simp [has_nil, hparts, or_comm]

/-- What the piece adds to the statements is what the outline tells. -/
def AddsWell (jump : Node) (inLoop : Bool) (p : Piece) : Prop :=
  ∀ (tail : Bool) (pos : Nat), Adds jump (rebuilt inLoop tail pos p) (adds jump inLoop tail p)

/-- Pieces that add well one by one do so one after the other. -/
theorem listAddsWell {ps : List Piece} (h : ∀ p ∈ ps, AddsWell jump inLoop p) (tail : Bool) (pos : Nat) :
    ∃ bs, List.Forall₂ (Adds jump) (listRebuilt inLoop tail pos ps) bs ∧
      bs.any id = listAdds jump inLoop tail ps := by
  induction ps generalizing pos with
  | nil => exact ⟨[], by rw [listRebuilt]; exact .nil, by rw [listAdds]; rfl⟩
  | cons p ps ih =>
      obtain ⟨hp, hps⟩ := List.forall_mem_cons.mp h
      obtain ⟨bs, hbs, hany⟩ := ih hps (pos + p.size)
      refine ⟨adds jump inLoop (tail && ps.isEmpty) p :: bs, ?_, ?_⟩
      · rw [listRebuilt]
        exact .cons (hp _ _) hbs
      · rw [List.any_cons, hany, listAdds]
        rfl

theorem IsJump.addsWell_choiceElse (h : IsJump jump) {c : Node} {body alternative : List Piece}
    (hc : c.Normal) (ih : ∀ p ∈ body, AddsWell jump inLoop p)
    (ih' : ∀ p ∈ alternative, AddsWell jump inLoop p) :
    AddsWell jump inLoop (choiceElse c body alternative) := by
  intro tail pos stack
  obtain ⟨bs, hbs, hany⟩ := listAddsWell ih false (pos + testSize c + 1)
  obtain ⟨bs', hbs', hany'⟩ := listAddsWell ih' tail (pos + testSize c + 1 + listSize body + 1)
  simp only [rebuilt]
  by_cases hround : (inLoop && tail) = true
  · -- the jump over the alternative is added to the body, and the alternative follows the choice
    rw [if_pos hround, adds, hround, has_applyAll hbs', has_cons, h.has_choice hc, has_append, has_part hbs,
      hany, hany', has_singleton]
    simp only [children, has_nil, or_false, Bool.true_and, Bool.or_eq_true, beq_iff_eq,
      eq_comm (a := jump)]
    tauto
  · rw [if_neg hround, adds, Bool.not_eq_true _ |>.mp hround, has_cons, h.has_choice hc, has_part hbs,
      has_part hbs', hany, hany']
    simp only [Bool.false_and, Bool.false_or, Bool.or_eq_true]
    tauto

theorem loopParts_condition (body : List Piece) (c : Node) (effects : List Effect) :
    (loopParts pos body c effects).condition = c := by
  rw [loopParts]
  split <;> rfl

/-- **What is added** to the statements is what the outline tells, for both kinds of jump. -/
theorem Sound.addsWell (hjump : IsJump jump) {p : Piece} (h : Sound inLoop p) : AddsWell jump inLoop p := by
  induction h using Sound.guardedInduction with
  | plain hn =>
      intro tail pos stack
      rw [rebuilt, adds, has_cons]
      simp [hjump.not_has hn]
  | leave =>
      intro tail pos stack
      rw [rebuilt, adds, has_cons, has_singleton, children, beq_iff_eq, eq_comm (a := jump)]
      simp [has_nil, or_comm]
  | @guarded inLoop c c' body hc hc' _ ih =>
      intro tail pos
      obtain ⟨bs, hbs, hany⟩ := listAddsWell ih false (pos + testSize c + 1)
      rw [rebuilt, adds, listAdds, listAdds, Bool.or_false, adds, ← hany]
      exact hjump.adds_guarded hc (by rw [loopParts_condition]; exact hc') (has_loopParts hbs body c')
  | @choice inLoop c body hc _ hloop ih =>
      intro tail pos stack
      obtain ⟨bs, hbs, hany⟩ := listAddsWell ih true (pos + testSize c + 1)
      rw [rebuilt, adds, has_cons, hjump.has_choice hc, has_part hbs, hany]
      · simp [has_nil, or_comm]
      · exact hloop
  | choiceElse hc _ _ _ ih ih' => exact hjump.addsWell_choiceElse hc ih ih'
  | @loop inLoop c body hc _ ih =>
      intro tail pos stack
      obtain ⟨bs, hbs, hany⟩ := listAddsWell ih false pos
      rw [rebuilt, adds, has_cons, Rebuild.LoopParts.doWhile, loopParts_condition, hjump.has_loop hc,
        Option.toList_none, List.append_nil, has_loopParts hbs, hany]
      simp [has_nil, or_comm]

end Adds

end Piece

/-! ### Whole programs -/

namespace Stream

open Node Piece

variable {L : Placement} {p : List Node} {v : Option Node}

/-- The jumps that are rebuilt from a program. -/
theorem has_jump_iff {jump : Node} (hjump : IsJump jump) {ps : List Piece}
    (h : ∀ q ∈ ps, Sound false q) :
    jump ∈ listSubnodes (part (listRebuilt false false 0 ps)) ↔ listAdds jump false false ps := by
  obtain ⟨bs, hbs, hany⟩ := listAddsWell (fun q hq => (h q hq).addsWell hjump) false 0
  rw [← hany, ← has_part hbs]
  simp [Has]

/-- **No jump is invented** outside of one shape.  A structured program without `break` that is followed
by a return is decompiled, the result has no `break`, and it has a `continue` if and only if some loop
of the program contains an `if` without `else` whose body ends with an `if` with `else`. -/
theorem jumps_of_compile (hp : ∀ m ∈ p, m.Structured false) (hbreak : ∀ m ∈ listSubnodes p, m ≠ .breakLoop)
    (hv : (ret v).Simple) (hbound : ∀ ins ∈ compile L (p ++ [.ret v]), ins.addr < Addr.last) :
    ∃ q, (statements (compile L (p ++ [.ret v]))).outcome.1 = .ok q ∧
      (∀ m ∈ listSubnodes q, m ≠ .breakLoop) ∧
      (.continueLoop ∈ listSubnodes q ↔
        ∃ l ∈ listSubnodes p, l.isLoop ∧ ∃ m ∈ l.subnodes, m.endsWithElse) := by
  have hall : ∀ m ∈ p ++ [ret v], m.Structured false := by
    intro m hm
    rcases List.mem_append.mp hm with hm | hm
    · exact hp m hm
    · exact List.mem_singleton.mp hm ▸ .simple hv
  have hsound := forall_sound_outlines fun m hm => (hall m hm).sound
  refine ⟨_, congrArg Prod.fst (outcome_compile hall hv hbound), ?_, ?_⟩
  · rintro m hm rfl
    have hadds := (has_jump_iff (.inl rfl) hsound).mp hm
    rcases has_append.mp (has_break_of_forall (fun n hn => (hall n hn).has_break) false hadds) with hb | hb
    · obtain ⟨m, hm, e⟩ := hb
      exact hbreak m hm e
    · exact IsJump.not_has (.inl rfl) hv hb
  · rw [has_jump_iff (.inr rfl) hsound, listAdds_outlines_iff hall, LoopEndsWithElse, has_append]
    have hnone := not_has_simple (fun m hm => Simple.not_isLoop hm) hv
    simp only [hnone, or_false]
    simp only [Has, listSubnodes, List.append_nil]

/-- A loop with an `if` without `else` that ends with an `if` with `else`. -/
def elseAtEnd : List Node :=
  [.loop .whileLoop none (.var "%c" none) none
    [.ifElse (.var "%p" none)
      [.ifElse (.var "%a" none) [.assign (.var "%x" none) none (.constant (.uint 1))]
        [.assign (.var "%y" none) none (.constant (.uint 2))]] [],
     .assign (.var "%z" none) none (.constant (.uint 3))]]

theorem structured_elseAtEnd : ∀ m ∈ elseAtEnd, m.Structured false := by
  have hset : ∀ name k, ((Node.var name none).assign none (.constant (.uint k))).Structured true :=
    fun name k => .simple (.expression (.assign rfl (.var name) (.constant _) rfl))
  have hinner := Structured.ifElse (.var "%a") (List.forall_mem_singleton.mpr (hset "%x" 1))
    (List.forall_mem_singleton.mpr (hset "%y" 2))
  refine List.forall_mem_singleton.mpr (.whileLoop (.var _) (List.forall_mem_cons.mpr ⟨?_,
    List.forall_mem_singleton.mpr (hset "%z" 3)⟩))
  exact .ifElse (.var _) (List.forall_mem_singleton.mpr hinner) (List.forall_mem_nil _)

/-- The jump over the `else` part is rebuilt as a `continue`, in a program that has none. -/
theorem continue_of_elseAtEnd :
    (∀ m ∈ elseAtEnd, m.Structured false) ∧
    (∀ m ∈ listSubnodes elseAtEnd, m ≠ .breakLoop ∧ m ≠ .continueLoop) ∧
    (statements (compile .consecutive (elseAtEnd ++ [.ret none]))).outcome.1 =
      .ok [.loop .forLoop none (.var "%c" none) (some (.assign (.var "%z" none) none (.constant (.uint 3))))
        [.ifElse (.var "%p" none)
          [.ifElse (.var "%a" none)
            [.assign (.var "%x" none) none (.constant (.uint 1)), .continueLoop] [],
           .assign (.var "%y" none) none (.constant (.uint 2))] []],
        .ret none] := by
  have hall : ∀ m ∈ elseAtEnd ++ [ret none], m.Structured false :=
    List.forall_mem_append.mpr ⟨structured_elseAtEnd, List.forall_mem_singleton.mpr (.simple .ret)⟩
  refine ⟨structured_elseAtEnd, by decide, ?_⟩
  rw [outcome_compile hall .ret (lt_last_of_consecutive (by decide))]
  rfl

/-- The choice with an alternative at the end of a loop is given a `continue` in addition. -/
theorem jumps_of_elseAtEnd : ∃ q,
    (statements (compile .consecutive (elseAtEnd ++ [.ret none]))).outcome.1 = .ok q ∧
      (∀ m ∈ listSubnodes q, m ≠ .breakLoop) ∧
      (.continueLoop ∈ listSubnodes q ↔
        ∃ l ∈ listSubnodes elseAtEnd, l.isLoop ∧ ∃ m ∈ l.subnodes, m.endsWithElse) :=
  jumps_of_compile structured_elseAtEnd (by decide) .ret (lt_last_of_consecutive (by decide))

end Stream

end TorqueScript
