import TorqueScript.Proofs.Straight
import TorqueScript.Rebuild.Run

/-!
# Outlines of programs

A program with structured control flow is compiled in two steps.  Its outline (`Node.outline`) keeps
statements without parts and conditions as they are and says how code for them is put together: behind
a jump over it (`Piece.choice`), in front of a jump over the alternative (`Piece.choiceElse`), or in
front of a jump back (`Piece.loop`).  `Piece.code` then writes the code.

* `if (c) t` is `c`, a jump over `t` unless `c` holds, `t`.
* `if (c) t else e` is `c`, a jump to `e` unless `c` holds, `t`, a jump over `e`, `e`.
* `do b while (c)` is `b`, `c`, a jump back to `b` if `c` holds.
* `while (c) b` is `c`, a jump over the rest unless `c` holds, `b`, `c`, a jump back to `b` if `c` holds.
* `break` is a jump to the instruction behind the jump back of the loop around it.

A `while` loop has no piece of its own: its code is that of a choice around a `do` loop with the same
condition.

What becomes of an outline when its code is rebuilt is said by `Piece.rebuilt`, which has no addresses
in it: it is given the statements rebuilt so far in the part around the piece, the last one first, and
adds to them.  A jump over an alternative that ends at the same instruction as a choice without `else`
inside a loop (`tail`) is taken for a jump to the loop's next round; where the first of these leads is
where the loop's body is split in two (`Piece.cut?`).
-/

namespace TorqueScript

/-- A piece of a program as it is laid out. -/
inductive Piece where
  /-- A statement without parts. -/
  | plain (n : Node)
  /-- A jump out of the loop. -/
  | leave
  | choice (condition : Node) (body : List Piece)
  | choiceElse (condition : Node) (body alternative : List Piece)
  | loop (body : List Piece) (condition : Node)
  deriving Repr, Inhabited

namespace Piece

open Fragment

mutual

/-- The code of a piece. -/
def code : Piece → Fragment
  | plain n => n.simpleCode
  | leave => .leave
  | choice c body => c.code .read ++ (listCode body).skip .ifNot
  | choiceElse c body alternative => c.code .read ++ either (listCode body) (listCode alternative)
  | loop body c => (listCode body ++ c.code .read).back

/-- The code of pieces that follow each other. -/
def listCode : List Piece → Fragment
  | [] => empty
  | p :: ps => p.code ++ listCode ps

end

/-- The number of instructions of a piece. -/
def size (p : Piece) : Nat :=
  p.code.size

/-- The number of instructions of pieces that follow each other. -/
def listSize (ps : List Piece) : Nat :=
  (listCode ps).size

/-- The number of instructions of a condition. -/
def testSize (condition : Node) : Nat :=
  (condition.code .read).size

section Sizes

variable (n c : Node) (body alternative : List Piece) (p : Piece) (ps : List Piece)

@[simp] theorem size_leave : leave.size = 1 := by rw [size, code]; rfl

@[simp] theorem size_choice : (choice c body).size = testSize c + 1 + listSize body := by
  rw [size, code, size_append, size_skip, Nat.add_assoc]; rfl

@[simp] theorem size_choiceElse : (choiceElse c body alternative).size =
    testSize c + 1 + listSize body + 1 + listSize alternative := by
  rw [size, code, size_append, size_either]
  simp only [testSize, listSize]
  omega

@[simp] theorem size_loop : (loop body c).size = listSize body + testSize c + 1 := by
  rw [size, code, size_back, size_append]; rfl

@[simp] theorem listSize_nil : listSize [] = 0 := by rw [listSize, listCode]; rfl

@[simp] theorem listSize_cons : listSize (p :: ps) = p.size + listSize ps := by
  rw [listSize, listCode, size_append]; rfl

@[simp] theorem listSize_append (qs : List Piece) :
    listSize (ps ++ qs) = listSize ps + listSize qs := by
  induction ps with
  | nil => simp
  | cons p ps ih => rw [List.cons_append, listSize_cons, listSize_cons, ih, Nat.add_assoc]

end Sizes

/-! ### Instructions -/

section Instructions

variable (L : Placement) (exit : Addr) (pos : Nat)

/-- The instructions of a piece at `pos`. -/
def instrs (p : Piece) : List Instruction :=
  p.code.code L exit pos

/-- The instructions of pieces that follow each other from `pos` on. -/
def listInstrs (ps : List Piece) : List Instruction :=
  (listCode ps).code L exit pos

/-- The instructions of a condition. -/
def testInstrs (condition : Node) : List Instruction :=
  (condition.code .read).code L exit pos

variable (c : Node) (body alternative : List Piece) (p : Piece) (ps : List Piece)

theorem instrs_leave : instrs L exit pos leave = [L.instr pos (.jump .always exit)] := by
  rw [instrs, code]; rfl

theorem instrs_choice : instrs L exit pos (choice c body) = testInstrs L exit pos c ++
    L.instr (pos + testSize c) (.jump .ifNot (L.addr (pos + testSize c + 1 + listSize body))) ::
      listInstrs L exit (pos + testSize c + 1) body := by
  rw [instrs, code]; rfl

theorem instrs_choiceElse : instrs L exit pos (choiceElse c body alternative) =
    testInstrs L exit pos c ++
    L.instr (pos + testSize c) (.jump .ifNot (L.addr (pos + testSize c + 1 + listSize body + 1))) ::
      (listInstrs L exit (pos + testSize c + 1) body ++
      L.instr (pos + testSize c + 1 + listSize body) (.jump .always
        (L.addr (pos + testSize c + 1 + listSize body + 1 + listSize alternative))) ::
      listInstrs L exit (pos + testSize c + 1 + listSize body + 1) alternative) := by
  rw [instrs, code]; rfl

theorem instrs_loop : instrs L exit pos (loop body c) =
    listInstrs L (L.addr (pos + listSize body + testSize c + 1)) pos body ++
    (testInstrs L (L.addr (pos + listSize body + testSize c + 1)) (pos + listSize body) c ++
    [L.instr (pos + listSize body + testSize c) (.jump .ifTrue (L.addr pos))]) := by
  rw [instrs, code, ← List.append_assoc]
  simp only [listInstrs, testInstrs, listSize, testSize, Nat.add_assoc]
  rfl

theorem listInstrs_nil : listInstrs L exit pos [] = [] := by
  rw [listInstrs, listCode]; rfl

theorem listInstrs_cons : listInstrs L exit pos (p :: ps) =
    instrs L exit pos p ++ listInstrs L exit (pos + p.size) ps := by
  rw [listInstrs, listCode]; rfl

theorem listInstrs_append (qs : List Piece) : listInstrs L exit pos (ps ++ qs) =
    listInstrs L exit pos ps ++ listInstrs L exit (pos + listSize ps) qs := by
  induction ps generalizing pos with
  | nil => simp [listInstrs_nil]
  | cons p ps ih =>
      rw [List.cons_append, listInstrs_cons, listInstrs_cons, ih, listSize_cons, List.append_assoc,
        Nat.add_assoc]

theorem listInstrs_singleton : listInstrs L exit pos [p] = instrs L exit pos p := by
  rw [listInstrs_cons, listInstrs_nil, List.append_nil]

theorem addrs_listInstrs : (listInstrs L exit pos ps).map (·.addr) =
    (List.range' pos (listSize ps)).map L.addr :=
  (listCode ps).addrs L exit pos

end Instructions

/-- A piece that can be compiled: `else` parts are not empty, and loops are left from inside. -/
inductive Sound : Bool → Piece → Prop where
  | plain {inLoop : Bool} {n : Node} : n.Simple → Sound inLoop (plain n)
  | leave : Sound true leave
  | choice {inLoop : Bool} {c : Node} {body : List Piece} : c.Normal →
      (∀ p ∈ body, Sound inLoop p) → Sound inLoop (choice c body)
  | choiceElse {inLoop : Bool} {c : Node} {body alternative : List Piece} : c.Normal →
      (∀ p ∈ body, Sound inLoop p) → alternative ≠ [] → (∀ p ∈ alternative, Sound inLoop p) →
      Sound inLoop (choiceElse c body alternative)
  | loop {inLoop : Bool} {c : Node} {body : List Piece} : c.Normal →
      (∀ p ∈ body, Sound true p) → Sound inLoop (loop body c)

theorem Sound.size_pos {inLoop : Bool} {p : Piece} (h : Sound inLoop p) : 0 < p.size := by
  cases h with
  | plain hn => rw [size, code]; exact hn.size_pos
  | leave => simp
  | choice _ _ => rw [size_choice]; omega
  | choiceElse _ _ _ _ => rw [size_choiceElse]; omega
  | loop _ _ => rw [size_loop]; omega

theorem testSize_pos {c : Node} (h : c.Normal) : 0 < testSize c :=
  h.size_pos .read

/-- Induction over pieces that takes a choice around a single loop together with the loop, since the two
are read and rebuilt together. -/
@[elab_as_elim]
theorem Sound.guardedInduction {motive : ∀ (inLoop : Bool) (p : Piece), Sound inLoop p → Prop}
    (plain : ∀ {inLoop : Bool} {n : Node} (hn : n.Simple), motive inLoop (Piece.plain n) (.plain hn))
    (leave : motive true Piece.leave .leave)
    (guarded : ∀ {inLoop : Bool} {c c' : Node} {body : List Piece} (_ : c.Normal) (_ : c'.Normal)
      (hbody : ∀ p ∈ body, Sound true p), (∀ p (hp : p ∈ body), motive true p (hbody p hp)) →
      ∀ h, motive inLoop (Piece.choice c [Piece.loop body c']) h)
    (choice : ∀ {inLoop : Bool} {c : Node} {body : List Piece} (hc : c.Normal)
      (hbody : ∀ p ∈ body, Sound inLoop p), (∀ b c', body ≠ [Piece.loop b c']) →
      (∀ p (hp : p ∈ body), motive inLoop p (hbody p hp)) →
      motive inLoop (Piece.choice c body) (.choice hc hbody))
    (choiceElse : ∀ {inLoop : Bool} {c : Node} {body alternative : List Piece} (hc : c.Normal)
      (hbody : ∀ p ∈ body, Sound inLoop p) (hne : alternative ≠ [])
      (halternative : ∀ p ∈ alternative, Sound inLoop p),
      (∀ p (hp : p ∈ body), motive inLoop p (hbody p hp)) →
      (∀ p (hp : p ∈ alternative), motive inLoop p (halternative p hp)) →
      motive inLoop (Piece.choiceElse c body alternative) (.choiceElse hc hbody hne halternative))
    (loop : ∀ {inLoop : Bool} {c : Node} {body : List Piece} (hc : c.Normal)
      (hbody : ∀ p ∈ body, Sound true p), (∀ p (hp : p ∈ body), motive true p (hbody p hp)) →
      motive inLoop (Piece.loop body c) (.loop hc hbody))
    {inLoop : Bool} {p : Piece} (h : Sound inLoop p) : motive inLoop p h := by
  -- of a loop it is remembered that its pieces have the property
  suffices hboth : motive inLoop p h ∧ ∀ b c', p = Piece.loop b c' →
      c'.Normal ∧ ∃ hb : ∀ q ∈ b, Sound true q, ∀ q (hq : q ∈ b), motive true q (hb q hq) from hboth.1
  induction h with
  | plain hn => exact ⟨plain hn, nofun⟩
  | leave => exact ⟨leave, nofun⟩
  | @choice inLoop c body hc hbody ih =>
      refine ⟨?_, nofun⟩
      by_cases hloop : ∃ b c', body = [Piece.loop b c']
      · obtain ⟨b, c', rfl⟩ := hloop
        obtain ⟨hc', hb, hmotive⟩ := (ih _ List.mem_cons_self).2 b c' rfl
        exact guarded hc hc' hb hmotive _
      · exact choice hc hbody (fun b c' e => hloop ⟨b, c', e⟩) fun p hp => (ih p hp).1
  | choiceElse hc hbody hne halternative ih ih' =>
      exact ⟨choiceElse hc hbody hne halternative (fun p hp => (ih p hp).1) fun p hp => (ih' p hp).1, nofun⟩
  | loop hc hbody ih =>
      refine ⟨loop hc hbody fun p hp => (ih p hp).1, ?_⟩
      rintro _ _ ⟨⟩
      exact ⟨hc, hbody, fun q hq => (ih q hq).1⟩

/-! ### Where the next round begins -/

mutual

/-- Where the first jump in a piece at `pos` leads that is taken for one to the next round of the loop
around it.  With `tail`, the piece ends together with a choice without `else`. -/
def round? (tail : Bool) (pos : Nat) : Piece → Option Nat
  | plain _ | leave | loop _ _ => none
  | choice c body => listRound? true (pos + testSize c + 1) body
  | choiceElse c body alternative =>
    if tail then some (pos + testSize c + 1 + listSize body + 1 + listSize alternative)
    else (listRound? false (pos + testSize c + 1) body).or
      (listRound? false (pos + testSize c + 1 + listSize body + 1) alternative)

/-- The same for pieces that follow each other. -/
def listRound? (tail : Bool) (pos : Nat) : List Piece → Option Nat
  | [] => none
  | p :: ps => (round? (tail && ps.isEmpty) pos p).or (listRound? tail (pos + p.size) ps)

end

mutual

/-- A position lies in a block of a piece at `pos`, behind its first instruction. -/
def encloses (point pos : Nat) : Piece → Bool
  | plain _ | leave => false
  | choice c body => pos + testSize c < point && point ≤ pos + testSize c + listSize body
  | choiceElse c body alternative =>
    pos + testSize c < point && point ≤ pos + testSize c + 1 + listSize body ||
      listEncloses point (pos + testSize c + 1 + listSize body + 1) alternative
  | loop body c => pos < point && point ≤ pos + listSize body + testSize c

/-- The same for pieces that follow each other. -/
def listEncloses (point pos : Nat) : List Piece → Bool
  | [] => false
  | p :: ps => encloses point pos p || listEncloses point (pos + p.size) ps

end

/-- How many of the pieces that follow each other from `pos` on begin before a position. -/
def startsBefore (point pos : Nat) : List Piece → Nat
  | [] => 0
  | p :: ps => if pos < point then startsBefore point (pos + p.size) ps + 1 else 0

/-- How many pieces of a loop's body come before its next round, if the body is split there. -/
def cut? (pos : Nat) (body : List Piece) : Option Nat :=
  ((listRound? false pos body).filter fun point => !listEncloses point pos body).map
    fun point => startsBefore point pos body

/-! ### What is rebuilt -/

/-- What is done to the statements of a part, the last one first. -/
abbrev Effect := List Node → List Node

/-- One effect after the other. -/
def applyAll (effects : List Effect) (stack : List Node) : List Node :=
  effects.foldl (fun stack effect => effect stack) stack

/-- The statements of a part with the given effects. -/
def part (effects : List Effect) : List Node :=
  (applyAll effects []).reverse

/-- The parts of a loop at `pos` whose body has the given effects. -/
def loopParts (pos : Nat) (body : List Piece) (condition : Node) (effects : List Effect) :
    Rebuild.LoopParts :=
  match cut? pos body with
  | none => ⟨condition, part effects, []⟩
  | some k => ⟨condition, part (effects.take k), part (effects.drop k)⟩

/-- Takes an assignment to something that `condition` reads off the statements. -/
def takeInit (condition : Node) : List Node → Option Node × List Node
  | .assign target op value :: stack =>
    if condition.contains target then (some (.assign target op value), stack)
    else (none, .assign target op value :: stack)
  | stack => (none, stack)

/-- A loop behind a jump over it. -/
def guarded (guard : Node) (parts : Rebuild.LoopParts) : Effect := fun stack =>
  if parts.condition ≠ guard then .ifElse guard [parts.doWhile] [] :: stack
  else match parts.step with
    | [step] =>
      if step.isStatement then
        .loop .whileLoop none parts.condition none (parts.body ++ parts.step) :: stack
      else
        .loop .forLoop (takeInit parts.condition stack).1 parts.condition (some step) parts.body ::
          (takeInit parts.condition stack).2
    | _ => .loop .whileLoop none parts.condition none (parts.body ++ parts.step) :: stack

mutual

/-- What a piece at `pos` is rebuilt to. -/
def rebuilt (inLoop tail : Bool) (pos : Nat) : Piece → Effect
  | plain n => fun stack => n :: stack
  | leave => fun stack => .breakLoop :: stack
  | choice c [loop body c'] =>
    guarded c (loopParts (pos + testSize c + 1) body c'
      (listRebuilt true false (pos + testSize c + 1) body))
  | choice c body => fun stack =>
    .ifElse c (part (listRebuilt inLoop true (pos + testSize c + 1) body)) [] :: stack
  | choiceElse c body alternative => fun stack =>
    let inner := part (listRebuilt inLoop false (pos + testSize c + 1) body)
    let outer := listRebuilt inLoop tail (pos + testSize c + 1 + listSize body + 1) alternative
    if inLoop && tail then applyAll outer (.ifElse c (inner ++ [.continueLoop]) [] :: stack)
    else .ifElse c inner (part outer) :: stack
  | loop body c => fun stack =>
    (loopParts pos body c (listRebuilt true false pos body)).doWhile :: stack

/-- What pieces that follow each other are rebuilt to, one by one. -/
def listRebuilt (inLoop tail : Bool) (pos : Nat) : List Piece → List Effect
  | [] => []
  | p :: ps => rebuilt inLoop (tail && ps.isEmpty) pos p :: listRebuilt inLoop tail (pos + p.size) ps

end

end Piece

namespace Node

mutual

/-- The outline of a statement. -/
def outline : Node → Piece
  | breakLoop => .leave
  | ifElse c t e => if e.isEmpty then .choice c (outlines t) else .choiceElse c (outlines t) (outlines e)
  | loop .whileLoop _ c _ body => .choice c [.loop (outlines body) c]
  | loop .doWhile _ c _ body => .loop (outlines body) c
  | n => .plain n

/-- The outlines of statements that follow each other. -/
def outlines : List Node → List Piece
  | [] => []
  | n :: ns => outline n :: outlines ns

end

end Node

/-- The code of a program, with its instructions placed from the first position on. -/
def Stream.compile (L : Placement) (program : List Node) : List Instruction :=
  (Piece.listCode (Node.outlines program)).code L 0 0

end TorqueScript
