import Mathlib.Data.List.Forall2
import TorqueScript.Decompile
import TorqueScript.Proofs.Evaluation
import TorqueScript.Proofs.ChoiceRegions

/-!
# Rebuilding compiled code

Between statements nothing is pending, no function is declared and the stack holds the statements of
the current part, so the state is idle (`State.Idle`) and all that changes is the stack.  What a region
does to it is its effect (`Acts`), and the regions of a piece have the effect that the outline tells
(`Piece.Sound.rebuildsWell`).

Conditions are the one place where regions do not meet in an idle state: a `&&` or `||` in a condition
is completed only at the conditional jump behind it.  So a condition is run together with the region
that its jump begins (`runAll_test`), or with the jump back of its loop (`endLoop_test`).
-/

namespace TorqueScript

namespace Rebuild

/-- Nothing is pending. -/
structure State.Idle (s : State) : Prop where
  function : s.function = none
  pending : s.pending = []
  fieldOwner : s.fieldOwner = .implicit

/-- The state with the given statements on its stack, the last one first. -/
def State.stacked (s : State) (stack : List Node) : State :=
  { s with operands := stack.map .node }

/-- The effect of regions on the stack of an idle state. -/
def Acts (rs : List Region) (effect : Piece.Effect) : Prop :=
  ∀ (s : State) (stack : List Node), s.Idle → runAll rs (s.stacked stack) = .ok ((), s.stacked (effect stack))

variable {s : State} {stack : List Node} {c : Node} {L : Placement} {exit : Addr} {pos : Nat}

theorem State.Idle.stacked (hs : s.Idle) (stack : List Node) : (s.stacked stack).Idle :=
  ⟨hs.1, hs.2, hs.3⟩

theorem State.Idle.quiet (hs : s.Idle) (b : Addr) : Quiet b s :=
  ⟨hs.1, by simp [hs.2]⟩

/-- Acting is done region by region. -/
theorem Acts.append {rs rs' : List Region} {e e' : Piece.Effect} (h : Acts rs e) (h' : Acts rs' e') :
    Acts (rs ++ rs') fun stack => e' (e stack) := by
  intro s stack hs
  rw [runAll_append_ok (h s stack hs)]
  exact h' s (e stack) hs

/-- Parts that act act one after the other. -/
theorem acts_flatten {parts : List (List Region)} {effects : List Piece.Effect}
    (h : List.Forall₂ Acts parts effects) : Acts parts.flatten (Piece.applyAll effects) := by
  induction h with
  | nil =>
      intro s stack _
      rw [List.flatten_nil, runAll]
      rfl
  | cons hfirst _ ih => exact hfirst.append ih

/-- A region that begins with the instruction at `a`. -/
theorem acts_region {r : Region} {a : Addr} {x : Rebuild Unit} {e : Piece.Effect}
    (hr : run r = (do enter a; x))
    (hx : ∀ (s : State) (stack : List Node), s.Idle → x (s.stacked stack) = .ok ((), s.stacked (e stack))) :
    Acts [r] e := by
  intro s stack hs
  have hq := (hs.stacked stack).quiet (a + 1)
  exact Finishes.region hr hq (Nat.lt_succ_self a) (hx s stack hs) _ (.refl a _)

/-- A plain statement acts by being pushed. -/
theorem acts_simple {n : Node} (hn : n.Simple) :
    Acts ((n.simpleCode.code L exit pos).map .plain) fun stack => n :: stack := by
  intro s stack hs
  exact hn.finishes (hs.stacked stack).fieldOwner L exit pos ((hs.stacked stack).quiet _) _ (.refl _ _)

/-! ### Parts -/

/-- The statements of a stack are its nodes in order. -/
theorem statements_nodes (a : Addr) (stack : List Node) :
    statements a (stack.map .node) = .ok stack.reverse := by
  rw [statements, ← List.map_reverse]
  generalize stack.reverse = ns
  induction ns with
  | nil => rfl
  | cons n ns ih =>
      rw [List.map_cons, List.mapM_cons, ih]
      rfl

/-- A part on a stack of its own gives its statements. -/
theorem bind_part {α : Type} {rs : List Region} {e : Piece.Effect} (h : Acts rs e) (hs : s.Idle) (a : Addr)
    (k : List Node → Rebuild α) :
    (do openPart; runAll rs; let body ← closePart a; k body) s = k (e []).reverse s := by
  let inner : State := { s with saved := s.operands :: s.saved }
  have hopen : openPart s = .ok ((), inner.stacked []) := rfl
  have hinner : inner.Idle := ⟨hs.1, hs.2, hs.3⟩
  have hclose : closePart a (inner.stacked (e [])) = .ok ((e []).reverse, s) := by
    show (statements a ((e []).map .node) >>= fun body => _) = _
    rw [statements_nodes]
    rfl
  rw [bind_ok hopen, bind_ok (h inner [] hinner), bind_ok hclose]

/-! ### Conditions -/

/-- A condition leads to the state that holds it. -/
theorem leads_test (hc : c.Normal) (hs : s.Idle) :
    Leads (L.addr pos) ((Piece.testInstrs L exit pos c).map .plain) s (s.push c)
      (L.addr (pos + Piece.testSize c)) :=
  (hc.performs_access.1 s hs.fieldOwner).2 L exit pos (hs.quiet _)

/-- A condition that is tested is popped. -/
theorem fallThrough_push {ins : Instruction} {n : Node} (hc : n.asExpression = .ok c) :
    fallThrough ins .ifNot (s.push n) = .ok (c, s) := by
  rw [fallThrough, bind_ok (pop_push hc)]
  rfl

/-- A condition is run together with the region that its jump begins. -/
theorem runAll_test (hc : c.Normal) (hs : s.Idle) {r : Region} {head : Instruction}
    {x : Node → Rebuild Unit} {t : State} (hhead : head.addr = L.addr (pos + Piece.testSize c))
    (hr : run r = (do enter head.addr; let condition ← fallThrough head .ifNot; x condition))
    (hx : x c s = .ok ((), t)) :
    runAll ((Piece.testInstrs L exit pos c).map .plain ++ [r]) s = .ok ((), t) := by
  rw [hhead] at hr
  have hpush : (s.push c).Idle := ⟨hs.1, hs.2, hs.3⟩
  refine (leads_test hc hs).finish (Finishes.region hr (hpush.quiet _) (Nat.lt_succ_self _) ?_) s (.refl _ s)
  rw [bind_ok (fallThrough_push hc.asExpression_eq), hx]

/-- The condition of a loop is run together with the jump back. -/
theorem bind_endLoop {α : Type} {rs : List Region} {e : Piece.Effect} {jump : Instruction} (h : Acts rs e)
    (hc : c.Normal) (hs : s.Idle) (stop : Addr) (hjump : jump.addr = L.addr (pos + Piece.testSize c))
    (k : Node × List Node → Rebuild α) :
    (do
      openPart
      runAll (rs ++ (Piece.testInstrs L exit pos c).map Region.plain)
      let parts ← endLoop stop (some (jump, .ifTrue))
      k parts) s = k (c, (e []).reverse) s := by
  let inner : State := { s with saved := s.operands :: s.saved }
  have hopen : openPart s = .ok ((), inner.stacked []) := rfl
  have hinner : inner.Idle := ⟨hs.1, hs.2, hs.3⟩
  have hpush : ((inner.stacked (e [])).push c).Idle := ⟨hs.1, hs.2, hs.3⟩
  have hleads : Leads (L.addr pos) ((Piece.testInstrs L exit pos c).map .plain) (inner.stacked (e []))
      ((inner.stacked (e [])).push c) (L.addr (pos + Piece.testSize c)) :=
    leads_test hc (hinner.stacked (e []))
  obtain ⟨t, htest, ht⟩ := hleads _ (.refl _ _)
  have hbody : runAll (rs ++ (Piece.testInstrs L exit pos c).map .plain) (inner.stacked []) = .ok ((), t) :=
    (runAll_append_ok (h inner [] hinner)).trans htest
  have hfold : foldLogic jump.addr t = .ok ((), (inner.stacked (e [])).push c) := by
    rw [ht.2 _ hjump.ge, foldLogic_quiet (hpush.quiet (jump.addr + 1)) (Nat.lt_succ_self _)]
  have hclose : closePart jump.addr (inner.stacked (e [])) = .ok ((e []).reverse, s) := by
    show (statements jump.addr ((e []).map .node) >>= fun body => _) = _
    rw [statements_nodes]
    rfl
  have hend : endLoop stop (some (jump, .ifTrue)) t = .ok ((c, (e []).reverse), s) := by
    rw [endLoop, bind_ok hfold, bind_ok (pop_push hc.asExpression_eq), bind_ok hclose]
    rfl
  rw [bind_ok hopen, bind_ok hbody, bind_ok hend]

/-! ### Loops -/

/-- The regions of a loop give its parts. -/
theorem loopParts_eq {body : List Piece} {parts : List (List Region)} {effects : List Piece.Effect}
    (h : List.Forall₂ Acts parts effects) (hc : c.Normal) (hs : s.Idle) (stop : Addr) :
    loopParts stop (runAll (Piece.loopRegions L pos body c parts).body)
      (Piece.loopRegions L pos body c parts).split (runAll (Piece.loopRegions L pos body c parts).step)
      (Piece.loopRegions L pos body c parts).back s = .ok (Piece.loopParts pos body c effects, s) := by
  rw [loopParts, Piece.loopRegions, Piece.loopParts]
  cases Piece.cut? pos body with
  | none =>
      simp only [Bool.false_eq_true, if_false]
      rw [bind_endLoop (acts_flatten h) hc hs stop rfl]
      rfl
  | some k =>
      simp only [if_true]
      rw [bind_part (acts_flatten (List.forall₂_take k h)) hs,
        bind_endLoop (acts_flatten (List.forall₂_drop k h)) hc hs stop rfl]
      rfl

/-- The start of a `for` loop is taken from the stack. -/
theorem takeInit_stacked (c : Node) (stack : List Node) : takeInit c (s.stacked stack) =
    .ok ((Piece.takeInit c stack).1, s.stacked (Piece.takeInit c stack).2) := by
  cases stack with
  | nil => rfl
  | cons n stack =>
      cases n with
      | assign target op value =>
          show (if _ then _ else _) = _
          rw [Piece.takeInit]
          split <;> rfl
      | _ => rfl

/-- A guarded loop is what its guard and its parts make. -/
theorem guardedLoop_stacked (guard : Node) (parts : LoopParts) (stack : List Node) :
    guardedLoop guard parts (s.stacked stack) = .ok ((), s.stacked (Piece.guarded guard parts stack)) := by
  obtain ⟨condition, body, step⟩ := parts
  rw [guardedLoop, Piece.guarded]
  by_cases hguard : condition ≠ guard
  · simp only [if_pos hguard]
    rfl
  · simp only [if_neg hguard]
    rcases step with _ | ⟨step, _ | ⟨_, _⟩⟩
    · rfl
    · by_cases hstep : step.isStatement
      · simp only [if_pos hstep]
        rfl
      · simp only [if_neg hstep]
        rw [bind_ok (takeInit_stacked condition stack)]
        rfl
    · rfl

end Rebuild

/-! ### Pieces -/

namespace Piece

open Rebuild

variable {L : Placement} {inLoop : Bool} {c : Node} {body alternative : List Piece}

/-- The regions of the piece have the effect that its outline tells. -/
def RebuildsWell (L : Placement) (inLoop : Bool) (p : Piece) : Prop :=
  ∀ (tail : Bool) (exit : Addr) (pos : Nat), Acts (regions L inLoop tail exit pos p) (rebuilt inLoop tail pos p)

/-- Pieces that rebuild well one by one do so one after the other. -/
theorem listRebuilds {ps : List Piece} (h : ∀ p ∈ ps, RebuildsWell L inLoop p) (tail : Bool) (exit : Addr)
    (pos : Nat) :
    List.Forall₂ Acts (listRegions L inLoop tail exit pos ps) (listRebuilt inLoop tail pos ps) := by
  induction ps generalizing pos with
  | nil => simp [listRegions, listRebuilt]
  | cons p ps ih =>
      obtain ⟨hp, hps⟩ := List.forall_mem_cons.mp h
      rw [listRegions, listRebuilt]
      exact .cons (hp _ _ _) (ih hps _)

/-- A loop rebuilds if its body does. -/
theorem rebuildsWell_loop (hc : c.Normal) (ih : ∀ p ∈ body, RebuildsWell L true p) :
    RebuildsWell L inLoop (loop body c) := by
  intro tail exit pos
  rw [regions, rebuilt]
  refine acts_region (by rw [run]) fun s stack hs => ?_
  rw [bind_ok (loopParts_eq (listRebuilds ih _ _ _) hc (hs.stacked stack) _)]
  rfl

/-- **A choice whose body is one loop** rebuilds as the loop under its guard. -/
theorem rebuildsWell_guarded {c' : Node} (hc : c.Normal) (hc' : c'.Normal)
    (ih : ∀ p ∈ body, RebuildsWell L true p) : RebuildsWell L inLoop (choice c [loop body c']) := by
  intro tail exit pos s stack hs
  rw [regions, rebuilt]
  refine runAll_test hc (hs.stacked stack) rfl (by rw [run]) ?_
  rw [bind_ok (loopParts_eq (listRebuilds ih _ _ _) hc' (hs.stacked stack) _)]
  exact guardedLoop_stacked _ _ _

/-- Any other choice rebuilds as itself. -/
theorem rebuildsWell_choice (hc : c.Normal) (hloop : ∀ b c', body ≠ [loop b c'])
    (ih : ∀ p ∈ body, RebuildsWell L inLoop p) : RebuildsWell L inLoop (choice c body) := by
  intro tail exit pos s stack hs
  rw [regions, rebuilt]
  · refine runAll_test hc (hs.stacked stack) rfl (by rw [run]) ?_
    rw [bind_part (acts_flatten (listRebuilds ih _ _ _)) (hs.stacked stack)]
    rfl
  · exact hloop
  · exact hloop

/-- With an alternative it rebuilds if both bodies do. -/
theorem rebuildsWell_choiceElse (hc : c.Normal) (ih : ∀ p ∈ body, RebuildsWell L inLoop p)
    (ih' : ∀ p ∈ alternative, RebuildsWell L inLoop p) :
    RebuildsWell L inLoop (choiceElse c body alternative) := by
  intro tail exit pos s stack hs
  rw [regions, rebuilt]
  have hfirst := acts_flatten (listRebuilds ih false exit (pos + testSize c + 1))
  have hsecond := acts_flatten
    (listRebuilds ih' tail exit (pos + testSize c + 1 + listSize body + 1))
  by_cases hround : (inLoop && tail) = true
  · simp only [if_pos hround]
    have hjump := acts_region (e := fun stack => .continueLoop :: stack)
      (r := .jump (L.instr (pos + testSize c + 1 + listSize body) (.jump .always
        (L.addr (pos + testSize c + 1 + listSize body + 1 + listSize alternative)))) .nextRound)
      (by rw [run]) fun s stack _ => rfl
    rw [List.append_cons, runAll_append_ok]
    · exact hsecond s _ hs
    · refine runAll_test hc (hs.stacked stack) rfl (by rw [run]) ?_
      rw [bind_part (hfirst.append hjump) (hs.stacked stack), List.reverse_cons]
      rfl
  · simp only [if_neg hround]
    refine runAll_test hc (hs.stacked stack) rfl (by rw [run]) ?_
    rw [bind_part hfirst (hs.stacked stack), bind_part hsecond (hs.stacked stack)]
    rfl

/-- **Rebuilding a piece** has the effect that the outline tells. -/
theorem Sound.rebuildsWell {p : Piece} (h : Sound inLoop p) : RebuildsWell L inLoop p := by
  induction h using Sound.guardedInduction with
  | plain hn =>
      intro tail exit pos
      rw [regions, rebuilt, instrs, code]
      exact acts_simple hn
  | leave =>
      intro tail exit pos
      rw [regions, rebuilt]
      exact acts_region (by rw [run]) fun s stack _ => rfl
  | guarded hc hc' _ ih => exact rebuildsWell_guarded hc hc' ih
  | choice hc _ hloop ih => exact rebuildsWell_choice hc hloop ih
  | choiceElse hc _ _ _ ih ih' => exact rebuildsWell_choiceElse hc ih ih'
  | loop hc _ ih => exact rebuildsWell_loop hc ih

/-! ### Whole streams -/

/-- No statement of the list declares a function, so none belongs to a package. -/
def FunctionFree (ns : List Node) : Prop :=
  ∀ n ∈ ns, ∀ signature body, n ≠ .function signature body

/-- Without functions there is nothing to group. -/
theorem groupPackages_eq {ns : List Node} (h : FunctionFree ns) : groupPackages ns = ns := by
  induction ns with
  | nil => rw [groupPackages]
  | cons n ns ih =>
      obtain ⟨hn, hns⟩ := List.forall_mem_cons.mp h
      rw [groupPackages, ih hns]
      rintro name _ _ _ body rfl
      exact hn _ _ rfl

theorem FunctionFree.cons {n : Node} {ns : List Node} (hn : ∀ signature body, n ≠ .function signature body)
    (h : FunctionFree ns) : FunctionFree (n :: ns) :=
  List.forall_mem_cons.mpr ⟨hn, h⟩

theorem FunctionFree.guarded {stack : List Node} (h : FunctionFree stack) (guard : Node)
    (parts : Rebuild.LoopParts) : FunctionFree (guarded guard parts stack) := by
  have hinit : FunctionFree (takeInit parts.condition stack).2 := by
    unfold takeInit
    split
    · split
      · exact (List.forall_mem_cons.mp h).2
      · exact h
    · exact h
  -- an `if` around a `do` loop, a `while` loop, or a `for` loop that takes a statement off the stack
  unfold Piece.guarded
  split
  · exact h.cons nofun
  · split
    · split
      · exact h.cons nofun
      · exact hinit.cons nofun
    · exact h.cons nofun

theorem FunctionFree.applyAll {ps : List Piece} {stack : List Node} {tail : Bool} {pos : Nat}
    (ih : ∀ p ∈ ps, ∀ (tail : Bool) (pos : Nat) (stack : List Node), FunctionFree stack →
      FunctionFree (rebuilt inLoop tail pos p stack)) (h : FunctionFree stack) :
    FunctionFree (applyAll (listRebuilt inLoop tail pos ps) stack) := by
  induction ps generalizing pos stack with
  | nil => simpa [listRebuilt, Piece.applyAll] using h
  | cons p ps ih' =>
      obtain ⟨hp, hps⟩ := List.forall_mem_cons.mp ih
      rw [listRebuilt]
      exact ih' hps (hp _ _ _ h)

/-- Rebuilding adds no functions. -/
theorem Sound.functionFree {p : Piece} (h : Sound inLoop p) (tail : Bool) (pos : Nat) (stack : List Node)
    (hstack : FunctionFree stack) : FunctionFree (rebuilt inLoop tail pos p stack) := by
  induction h using Sound.guardedInduction generalizing tail pos stack with
  | plain hn =>
      rw [rebuilt]
      refine hstack.cons ?_
      rintro signature body rfl
      cases hn with
      | expression hn => cases hn
  | leave => rw [rebuilt]; exact hstack.cons nofun
  | guarded => rw [rebuilt]; exact hstack.guarded _ _
  | choice _ _ hloop => rw [rebuilt]; exacts [hstack.cons nofun, hloop]
  | choiceElse _ _ _ _ _ ih =>
      simp only [rebuilt]
      split
      · exact .applyAll ih (hstack.cons nofun)
      · exact hstack.cons nofun
  | loop => rw [rebuilt]; exact hstack.cons nofun

/-- What is told on the way when nothing is left open. -/
theorem outcome_statements {instrs : List Instruction} {tree : Block} {s : State} {nodes : List Node}
    (htree : Stream.blockTree instrs = .ok tree)
    (hrun : StateT.run (Stream.run tree instrs) {} = .ok ((), s)) (hframes : s.frames = [])
    (hpending : s.pending = []) (hprogram : program (Stream.last instrs) s = .ok nodes) :
    (Stream.statements instrs).outcome = (.ok nodes,
      [.controlFlow tree.preorder.length tree.allBranches.length, .built nodes.length]) := by
  have hanalyze : Stream.statements instrs = (do
      Logged.silent (.ok tree) >>= fun tree => do
        Logged.tell (.controlFlow tree.preorder.length tree.allBranches.length)
        pure tree) >>= fun tree => Stream.rebuild tree instrs := by
    rw [Stream.statements, Stream.analyze, htree]
  have hrebuild : (Stream.rebuild tree instrs).run.run
      [.controlFlow tree.preorder.length tree.allBranches.length] = (.ok nodes,
      [.controlFlow tree.preorder.length tree.allBranches.length, .built nodes.length]) := by
    rw [Stream.rebuild, hrun]
    show (ExceptT.run (Logged.tellCount s.frames.length _ >>= fun _ =>
      Logged.tellCount s.pending.length _ >>= _)).run _ = _
    rw [hframes, hpending]
    simp only [hprogram]
    rfl
  rw [hanalyze]
  exact hrebuild

/-- **Decompiling compiled code** succeeds, gives what the outline tells, and warns of nothing. -/
theorem statements_listInstrs {init : List Piece} {n : Node} (hsound : ∀ p ∈ init ++ [plain n], Sound false p)
    (hbound : ∀ i < listSize (init ++ [plain n]), L.addr i < Addr.last) :
    (Stream.statements (listInstrs L 0 0 (init ++ [plain n]))).outcome =
      (.ok (part (listRebuilt false false 0 (init ++ [plain n]))),
        [.controlFlow (wholeTree L init n).preorder.length (wholeTree L init n).allBranches.length,
          .built (part (listRebuilt false false 0 (init ++ [plain n]))).length]) := by
  have hn : n.Simple := by
    cases hsound (plain n) (by simp) with
    | plain hn => exact hn
  have htree := blockTree_listInstrs (L := L) (fun p hp => hsound p (List.mem_append_left _ hp)) hn
  have hrun : StateT.run (Stream.run (wholeTree L init n) (listInstrs L 0 0 (init ++ [plain n]))) {} =
      .ok ((), State.stacked {} (Piece.applyAll (listRebuilt false false 0 (init ++ [plain n])) [])) := by
    rw [Stream.run, ofStream_listInstrs hsound hbound]
    exact bind_ok (acts_flatten (listRebuilds (fun p hp => (hsound p hp).rebuildsWell) false 0 0) {} []
      ⟨rfl, rfl, rfl⟩)
  have hfree : FunctionFree (part (listRebuilt false false 0 (init ++ [plain n]))) := by
    intro m hm
    exact FunctionFree.applyAll (fun p hp => (hsound p hp).functionFree) (List.forall_mem_nil _) m
      (List.mem_reverse.mp hm)
  have hprogram : ∀ last : Addr, program last
      (State.stacked {} (Piece.applyAll (listRebuilt false false 0 (init ++ [plain n])) [])) =
      .ok (part (listRebuilt false false 0 (init ++ [plain n]))) := by
    intro last
    show (statements last (List.map _ _) >>= fun nodes => pure (groupPackages nodes)) = _
    rw [statements_nodes]
    exact congrArg Except.ok (groupPackages_eq hfree)
  exact outcome_statements htree hrun rfl rfl (hprogram _)

end Piece

end TorqueScript
