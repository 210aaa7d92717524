import TorqueScript.Proofs.Outline

/-!
# Structured programs

`Node.Structured` are the statements that are compiled through their outlines: statements without
parts, `if` with and without `else`, `while` and `do` loops, and `break` inside of loops.

The outline of such a program leaves two things open, and both can be read off the program.

* **A jump over an `else` part** that ends a choice inside of a loop is taken for a jump to the next
  round.  `Piece.adds .continueLoop` follows the outline to such a jump; on programs it says that some
  loop contains an `if` without `else` whose body ends with an `if` with `else`
  (`Node.listAdds_outlines_iff`).
* **A `do` loop behind its own condition** has the code of a `while` loop (`Node.guardsItself`).
-/

namespace TorqueScript

namespace Node

/-! ### Programs -/

/-- A statement of a structured program. -/
inductive Structured : Bool → Node → Prop where
  | simple {inLoop : Bool} {n : Node} : n.Simple → Structured inLoop n
  | breakLoop : Structured true breakLoop
  | ifElse {inLoop : Bool} {c : Node} {t e : List Node} : c.Normal → (∀ n ∈ t, Structured inLoop n) →
      (∀ n ∈ e, Structured inLoop n) → Structured inLoop (ifElse c t e)
  | whileLoop {inLoop : Bool} {c : Node} {body : List Node} : c.Normal →
      (∀ n ∈ body, Structured true n) → Structured inLoop (loop .whileLoop none c none body)
  | doWhile {inLoop : Bool} {c : Node} {body : List Node} : c.Normal →
      (∀ n ∈ body, Structured true n) → Structured inLoop (loop .doWhile none c none body)

/-- An `if` with an `else` part. -/
def hasElse : Node → Bool
  | ifElse _ _ (_ :: _) => true
  | _ => false

/-- An `if` without `else` whose body ends with an `if` with `else`. -/
def endsWithElse : Node → Bool
  | ifElse _ body [] => body.getLast?.any hasElse
  | _ => false

/-- A loop of any kind. -/
def isLoop : Node → Bool
  | loop .. => true
  | _ => false

/-- An `if` without `else` around nothing but a `do` loop with the same condition. -/
def guardsItself : Node → Bool
  | ifElse c [loop .doWhile _ c' _ _] [] => c == c'
  | _ => false

/-! ### Outlines of programs -/

theorem outlines_eq_map (ns : List Node) : outlines ns = ns.map outline := by
  induction ns with
  | nil => rw [outlines]; rfl
  | cons n ns ih => rw [outlines, ih]; rfl

/-- A plain statement is its own outline. -/
theorem Simple.outline_eq {n : Node} (h : Simple n) : n.outline = .plain n := by
  cases h with
  | expression hn => cases hn <;> rw [outline] <;> nofun
  | _ => rw [outline] <;> nofun

/-- Statements with sound outlines have them together. -/
theorem forall_sound_outlines {inLoop : Bool} {ns : List Node}
    (h : ∀ n ∈ ns, Piece.Sound inLoop n.outline) : ∀ p ∈ outlines ns, Piece.Sound inLoop p := by
  rw [outlines_eq_map]
  exact fun p hp => by obtain ⟨n, hn, rfl⟩ := List.mem_map.mp hp; exact h n hn

/-- Structured programs can be compiled. -/
theorem Structured.sound {inLoop : Bool} {n : Node} (h : Structured inLoop n) :
    Piece.Sound inLoop n.outline := by
  induction h with
  | simple hn => rw [hn.outline_eq]; exact .plain hn
  | breakLoop => rw [outline]; exact .leave
  | @ifElse inLoop c t e hc _ _ iht ihe =>
      rw [outline]
      cases e with
      | nil => exact .choice hc (forall_sound_outlines iht)
      | cons n ns =>
          refine .choiceElse hc (forall_sound_outlines iht) ?_ (forall_sound_outlines ihe)
          rw [outlines]
          exact List.cons_ne_nil _ _
  | whileLoop hc _ ih =>
      rw [outline]
      exact .choice hc fun p hp => List.mem_singleton.mp hp ▸ .loop hc (forall_sound_outlines ih)
  | doWhile hc _ ih =>
      rw [outline]
      exact .loop hc (forall_sound_outlines ih)

/-! ### Nodes of expressions -/

/-- The subnodes of a list are those of its nodes. -/
theorem mem_listSubnodes {m : Node} {ns : List Node} :
    m ∈ listSubnodes ns ↔ ∃ n ∈ ns, m ∈ n.subnodes := by
  rw [listSubnodes_eq, List.mem_flatMap]

/-- A subnode is the node itself or a subnode of a child. -/
theorem mem_subnodes {m n : Node} : m ∈ n.subnodes ↔ m = n ∨ ∃ k ∈ n.children, m ∈ k.subnodes := by
  rw [subnodes_eq, List.mem_cons, List.mem_flatMap]

/-- All nodes of an expression in normal form are expressions in normal form. -/
theorem Normal.normal_of_mem {n : Node} (h : Normal n) : ∀ m ∈ n.subnodes, Normal m := by
  have hstep : ∀ {n : Node}, Normal n → (∀ k ∈ n.children, ∀ m ∈ k.subnodes, Normal m) →
      ∀ m ∈ n.subnodes, Normal m := by
    intro n hn hchildren m hm
    rcases mem_subnodes.mp hm with rfl | ⟨k, hk, hm⟩
    · exact hn
    · exact hchildren k hk m hm
  induction h with
  | call name nameSpace callType hargs ih => exact hstep (.call name nameSpace callType hargs) ih
  | _ =>
      refine hstep (by constructor <;> assumption) ?_
      simp_all [children]

/-- A statement without parts has no statements below it. -/
theorem Simple.eq_or_normal {n : Node} (h : Simple n) : ∀ m ∈ n.subnodes, m = n ∨ Normal m := by
  intro m hm
  cases h with
  | expression hn => exact .inr (hn.normal_of_mem m hm)
  | ret => exact .inl (by simpa [subnodes, optionSubnodes] using hm)
  | retValue hv =>
      rw [subnodes, optionSubnodes, List.mem_cons] at hm
      exact hm.imp_right (hv.normal_of_mem m)

end Node

/-! ### Jumps that are rebuilt -/

namespace Piece

mutual

/-- Rebuilding the piece adds the given statement, a `break` or a `continue`. -/
def adds (jump : Node) (inLoop tail : Bool) : Piece → Bool
  | plain _ => false
  | leave => jump == .breakLoop
  | choice _ body => listAdds jump inLoop true body
  | choiceElse _ body alternative =>
    inLoop && tail && jump == .continueLoop ||
      (listAdds jump inLoop false body || listAdds jump inLoop tail alternative)
  | loop body _ => listAdds jump true false body

/-- The same for pieces that follow each other. -/
def listAdds (jump : Node) (inLoop tail : Bool) : List Piece → Bool
  | [] => false
  | p :: ps => adds jump inLoop (tail && ps.isEmpty) p || listAdds jump inLoop tail ps

end

end Piece

namespace Node

open Piece

section Has

/-- Some node of the list, at any depth, has a property. -/
def Has (P : Node → Prop) (ns : List Node) : Prop :=
  ∃ m ∈ listSubnodes ns, P m

variable {P : Node → Prop} {n c : Node} {ns t e body : List Node}

theorem has_nil : ¬ Has P [] := by
  simp [Has, listSubnodes]

theorem has_cons : Has P (n :: ns) ↔ Has P [n] ∨ Has P ns := by
  simp only [Has, listSubnodes, List.mem_append, List.append_nil, or_and_right, exists_or]

theorem has_append {ms : List Node} : Has P (ns ++ ms) ↔ Has P ns ∨ Has P ms := by
  simp only [Has, listSubnodes_eq, List.flatMap_append, List.mem_append, or_and_right, exists_or]

theorem has_reverse : Has P ns.reverse ↔ Has P ns := by
  simp only [Has, mem_listSubnodes, List.mem_reverse]

/-- A property of statements with parts is not one of statements without. -/
theorem not_has_simple (hP : ∀ m, Simple m → ¬ P m) (h : Simple n) : ¬ Has P [n] := by
  rintro ⟨m, hm, hp⟩
  rw [listSubnodes, listSubnodes, List.append_nil] at hm
  rcases h.eq_or_normal m hm with rfl | hm
  · exact hP m h hp
  · exact hP m (.expression hm) hp

/-- A choice has what it is and what is in its bodies. -/
theorem has_ifElse (hP : ∀ m, Simple m → ¬ P m) (hc : c.Normal) :
    Has P [ifElse c t e] ↔ P (ifElse c t e) ∨ Has P t ∨ Has P e := by
  have hnone : ¬ ∃ m ∈ c.subnodes, P m := fun ⟨m, hm, hp⟩ => hP m (.expression (hc.normal_of_mem m hm)) hp
  simp only [Has, listSubnodes, subnodes, List.append_nil, List.mem_cons, List.mem_append, or_and_right,
    exists_or, exists_eq_left, or_assoc, hnone, false_or]

/-- A loop has what it is and what is in its body. -/
theorem has_loop (hP : ∀ m, Simple m → ¬ P m) (hc : c.Normal) (kind : LoopKind) :
    Has P [loop kind none c none body] ↔ P (loop kind none c none body) ∨ Has P body := by
  have hnone : ¬ ∃ m ∈ c.subnodes, P m := fun ⟨m, hm, hp⟩ => hP m (.expression (hc.normal_of_mem m hm)) hp
  simp only [Has, listSubnodes, subnodes, optionSubnodes, List.append_nil, List.nil_append, List.mem_cons,
    List.mem_append, or_and_right, exists_or, exists_eq_left, hnone, false_or]

end Has

section Invented

variable {inLoop tail : Bool} {n : Node} {ns : List Node}

/-- Some loop of the program contains an `if` without `else` whose body ends with an `if` with `else`. -/
def LoopEndsWithElse (ns : List Node) : Prop :=
  Has (fun l => l.isLoop ∧ Has (endsWithElse ·) [l]) ns

/-- A plain statement has no alternative at its end. -/
theorem Simple.not_endsWithElse (h : Simple n) : ¬ n.endsWithElse := by
  cases h with
  | expression hn => cases hn <;> exact nofun
  | _ => exact nofun

theorem Simple.not_isLoop (h : Simple n) : ¬ (n.isLoop ∧ Has (endsWithElse ·) [n]) := by
  cases h with
  | expression hn => cases hn <;> exact nofun
  | _ => exact nofun

/-- What `adds` says of a statement's outline. -/
def Invents (inLoop tail : Bool) (n : Node) : Prop :=
  inLoop ∧ (tail ∧ n.hasElse ∨ Has (endsWithElse ·) [n]) ∨ LoopEndsWithElse [n]

/-- Statements add a jump together if one of them does. -/
theorem listAdds_iff_of_forall
    (h : ∀ n ∈ ns, ∀ tail, adds .continueLoop inLoop tail n.outline ↔ Invents inLoop tail n) (tail : Bool) :
    listAdds .continueLoop inLoop tail (outlines ns) ↔
      inLoop ∧ (tail ∧ ns.getLast?.any hasElse ∨ Has (endsWithElse ·) ns) ∨ LoopEndsWithElse ns := by
  induction ns with
  | nil => simp [outlines, listAdds, LoopEndsWithElse, has_nil]
  | cons n ns ih =>
      obtain ⟨hn, hns⟩ := List.forall_mem_cons.mp h
      have hcons : ∀ P, Has P (n :: ns) ↔ Has P [n] ∨ Has P ns := fun P => has_cons
      rw [outlines, listAdds, Bool.or_eq_true, hn, ih hns, Invents, LoopEndsWithElse, LoopEndsWithElse,
        LoopEndsWithElse, hcons, hcons]
      -- only the last statement ends together with what is around it
      cases ns with
      | nil => simp [outlines, has_nil]
      | cons m ms =>
          simp only [outlines, List.isEmpty_cons, Bool.and_false, List.getLast?_cons_cons]
          tauto

/-- **A statement adds a `continue` exactly if it invents one.** -/
theorem Structured.adds_iff (h : Structured inLoop n) (tail : Bool) :
    adds .continueLoop inLoop tail n.outline ↔ Invents inLoop tail n := by
  have hends : ∀ m, Simple m → ¬ m.endsWithElse := fun m hm => hm.not_endsWithElse
  have hloop : ∀ m : Node, Simple m → ¬ (m.isLoop ∧ Has (endsWithElse ·) [m]) := fun m hm => hm.not_isLoop
  induction h generalizing tail with
  | @simple inLoop n hn =>
      have helse : n.hasElse = false := by
        cases hn with
        | expression hn => cases hn <;> rfl
        | _ => rfl
      rw [hn.outline_eq, adds, Invents, LoopEndsWithElse]
      simp [helse, not_has_simple hends hn, not_has_simple hloop hn]
  | breakLoop =>
      simp [outline, adds, Invents, LoopEndsWithElse, Has, listSubnodes, subnodes, hasElse, endsWithElse,
        isLoop]
  | @ifElse inLoop c t e hc _ _ iht ihe =>
      have ht := fun tail => listAdds_iff_of_forall iht tail
      have he := fun tail => listAdds_iff_of_forall ihe tail
      simp only [LoopEndsWithElse] at ht he
      rw [outline, Invents, LoopEndsWithElse, has_ifElse hends hc, has_ifElse hloop hc]
      cases e with
      | nil =>
          rw [List.isEmpty_nil, if_pos rfl, adds, ht]
          simp only [hasElse, endsWithElse, isLoop, has_nil]
          tauto
      | cons m ms =>
          rw [List.isEmpty_cons, if_neg Bool.false_ne_true, adds]
          simp only [Bool.or_eq_true, ht, he, hasElse, endsWithElse, isLoop, Bool.and_eq_true]
          tauto
  | whileLoop hc _ ih =>
      rw [outline, adds, listAdds, listAdds, Bool.or_false, adds, listAdds_iff_of_forall ih, Invents,
        LoopEndsWithElse, LoopEndsWithElse, has_loop hends hc, has_loop hloop hc, has_loop hends hc]
      simp only [hasElse, endsWithElse, isLoop]
      tauto
  | doWhile hc _ ih =>
      rw [outline, adds, listAdds_iff_of_forall ih, Invents, LoopEndsWithElse, LoopEndsWithElse,
        has_loop hends hc, has_loop hloop hc, has_loop hends hc]
      simp only [hasElse, endsWithElse, isLoop]
      tauto

/-- **Invented jumps.**  A `continue` is rebuilt where a loop of the program contains an `if` without
`else` whose body ends with an `if` with `else`. -/
theorem listAdds_outlines_iff (h : ∀ n ∈ ns, Structured false n) :
    listAdds .continueLoop false false (outlines ns) ↔ LoopEndsWithElse ns := by
  rw [listAdds_iff_of_forall (fun n hn => (h n hn).adds_iff)]
  simp

theorem has_break_of_forall (h : ∀ n ∈ ns, ∀ tail, adds .breakLoop inLoop tail n.outline →
    Has (· = .breakLoop) [n]) (tail : Bool) (ha : listAdds .breakLoop inLoop tail (outlines ns)) :
    Has (· = .breakLoop) ns := by
  induction ns with
  | nil => simp [outlines, listAdds] at ha
  | cons n ns ih =>
      obtain ⟨hn, hns⟩ := List.forall_mem_cons.mp h
      rw [outlines, listAdds, Bool.or_eq_true] at ha
      exact has_cons.mpr (ha.imp (hn _) (ih hns))

/-- Every `break` that is rebuilt was there. -/
theorem Structured.has_break (h : Structured inLoop n) (tail : Bool)
    (ha : adds .breakLoop inLoop tail n.outline) : Has (· = .breakLoop) [n] := by
  have hbreak : ∀ m, Simple m → m ≠ Node.breakLoop := by
    rintro _ hm rfl
    cases hm with
    | expression hn => cases hn
  induction h generalizing tail with
  | simple hn => simp [hn.outline_eq, adds] at ha
  | breakLoop => exact ⟨.breakLoop, by simp [listSubnodes, subnodes], rfl⟩
  | @ifElse inLoop c t e hc _ _ iht ihe =>
      rw [has_ifElse hbreak hc]
      rw [outline] at ha
      cases e with
      | nil =>
          rw [List.isEmpty_nil, if_pos rfl, adds] at ha
          exact .inr (.inl (has_break_of_forall iht _ ha))
      | cons m ms =>
          rw [List.isEmpty_cons, if_neg Bool.false_ne_true, adds, Bool.or_eq_true, Bool.or_eq_true] at ha
          rcases ha with ha | ha | ha
          · -- the jump over the alternative may be taken for a `continue`, never for a `break`
            simp at ha
          · exact .inr (.inl (has_break_of_forall iht _ ha))
          · exact .inr (.inr (has_break_of_forall ihe _ ha))
  | whileLoop hc _ ih =>
      rw [outline, adds, listAdds, listAdds, Bool.or_false, adds] at ha
      exact (has_loop hbreak hc _).mpr (.inr (has_break_of_forall ih _ ha))
  | doWhile hc _ ih =>
      rw [outline, adds] at ha
      exact (has_loop hbreak hc _).mpr (.inr (has_break_of_forall ih _ ha))

end Invented

end Node

end TorqueScript
