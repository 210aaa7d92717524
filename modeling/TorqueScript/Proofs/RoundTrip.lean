import TorqueScript.Proofs.Rebuilding
import TorqueScript.Proofs.Structured

/-!
# Decompiling undoes compiling

A structured program that ends with a return is compiled to code from which it is rebuilt exactly
(`Stream.statements_compile`), unless it has one of two shapes whose code is that of another program:
inside of a loop, an `if` without `else` whose body ends with an `if` with `else`, and an `if` around a
`do` loop with the same condition, which is a `while` loop.

Straight-line programs have neither shape (`Stream.statements_compile_simple`).
-/

namespace TorqueScript

namespace Piece

/-! ### Loops without a next round -/

mutual

/-- A piece that adds no `continue` has no next round. -/
theorem round?_eq_none : ∀ (p : Piece) (tail : Bool) (pos : Nat), adds .continueLoop true tail p = false →
    round? tail pos p = none
  | plain _, _, _, _ | leave, _, _, _ | loop _ _, _, _, _ => by rw [round?]
  | choice _ body, _, _, h => by
    rw [adds] at h
    rw [round?]
    exact listRound?_eq_none body _ _ h
  | choiceElse _ body alternative, tail, _, h => by
    simp only [adds, Bool.true_and, Bool.or_eq_false_iff] at h
    obtain ⟨htail, hbody, halternative⟩ := h
    obtain rfl : tail = false := by simpa using htail
    rw [round?, if_neg Bool.false_ne_true, listRound?_eq_none body _ _ hbody,
      listRound?_eq_none alternative _ _ halternative]
    rfl

/-- Without a jump that is taken for one to the next round, no round is found. -/
theorem listRound?_eq_none : ∀ (ps : List Piece) (tail : Bool) (pos : Nat),
    listAdds .continueLoop true tail ps = false → listRound? tail pos ps = none
  | [], _, _, _ => by rw [listRound?]
  | p :: ps, _, _, h => by
    rw [listAdds, Bool.or_eq_false_iff] at h
    rw [listRound?, round?_eq_none p _ _ h.1, listRound?_eq_none ps _ _ h.2]
    rfl

end

/-- A loop without such pieces is rebuilt from its body as it is. -/
theorem loopParts_eq {pos : Nat} {body : List Piece} (h : listAdds .continueLoop true false body = false)
    (c : Node) (effects : List Effect) : loopParts pos body c effects = ⟨c, part effects, []⟩ := by
  rw [loopParts, cut?, listRound?_eq_none body _ _ h]
  rfl

theorem applyAll_map_cons (ns stack : List Node) :
    applyAll (ns.map fun n stack => n :: stack) stack = ns.reverse ++ stack := by
  induction ns generalizing stack with
  | nil => rfl
  | cons n ns ih =>
      rw [List.map_cons, List.reverse_cons, List.append_assoc]
      exact ih (n :: stack)

theorem part_map_cons (ns : List Node) : part (ns.map fun n stack => n :: stack) = ns := by
  rw [part, applyAll_map_cons, List.append_nil, List.reverse_reverse]

end Piece

namespace Node

open Piece

/-- The statement is rebuilt as it is, wherever it stands. -/
def Returns (inLoop : Bool) (n : Node) : Prop :=
  ∀ (tail : Bool) (pos : Nat), adds .continueLoop inLoop tail n.outline = false →
    rebuilt inLoop tail pos n.outline = fun stack => n :: stack

/-- Statements that return one by one return together. -/
theorem listRebuilt_outlines {inLoop : Bool} {ns : List Node} (h : ∀ n ∈ ns, Returns inLoop n) (tail : Bool)
    (pos : Nat) (ha : listAdds .continueLoop inLoop tail (outlines ns) = false) :
    listRebuilt inLoop tail pos (outlines ns) = ns.map fun n stack => n :: stack := by
  induction ns generalizing pos with
  | nil => rw [outlines, listRebuilt]; rfl
  | cons n ns ih =>
      obtain ⟨hn, hns⟩ := List.forall_mem_cons.mp h
      rw [outlines, listAdds, Bool.or_eq_false_iff] at ha
      rw [outlines, listRebuilt, hn _ _ ha.1, ih hns _ ha.2, List.map_cons]

theorem Simple.not_guardsItself {n : Node} (h : Simple n) : ¬ n.guardsItself := by
  cases h with
  | expression hn => cases hn <;> exact nofun
  | _ => exact nofun

/-- Only a `do` loop has a loop as its outline. -/
theorem Structured.of_outline_eq_loop {inLoop : Bool} {n c : Node} {body : List Piece}
    (h : Structured inLoop n) (he : n.outline = .loop body c) : ∃ b, n = loop .doWhile none c none b := by
  cases h with
  | simple hn => rw [hn.outline_eq] at he; cases he
  | breakLoop => rw [outline] at he; cases he
  | @ifElse _ c t e hc ht he' =>
      rw [outline] at he
      split at he <;> cases he
  | whileLoop => rw [outline] at he; cases he
  | doWhile => rw [outline] at he; cases he; exact ⟨_, rfl⟩

/-- A choice returns if its statements do and it guards no loop of its own condition. -/
theorem returns_choice {inLoop : Bool} {c : Node} {t : List Node} (ht : ∀ n ∈ t, Structured inLoop n)
    (hself : ¬ (ifElse c t []).guardsItself) (ih : ∀ n ∈ t, Returns inLoop n) :
    Returns inLoop (ifElse c t []) := by
  intro tail pos ha
  have houtline : (ifElse c t []).outline = .choice c (outlines t) := by rw [outline]; rfl
  rw [houtline, adds] at ha
  rw [houtline]
  by_cases hloop : ∃ b c', outlines t = [.loop b c']
  · -- the body is a single `do` loop, and its condition is another one
    obtain ⟨b, c', he⟩ := hloop
    rw [he, listAdds, listAdds, Bool.or_false] at ha
    rw [outlines_eq_map] at he
    obtain ⟨n, rfl, hn⟩ := List.map_eq_singleton_iff.mp he
    obtain ⟨body, rfl⟩ := (ht n List.mem_cons_self).of_outline_eq_loop hn
    have hne : c' ≠ c := fun e => hself (by simp [guardsItself, e])
    have hreturns := congrFun (ih _ List.mem_cons_self true (pos + testSize c + 1) (hn ▸ ha)) []
    rw [hn, rebuilt] at hreturns
    funext stack
    rw [outlines_eq_map, List.map_singleton, hn, rebuilt, guarded]
    have hcondition : (loopParts (pos + testSize c + 1) b c'
        (listRebuilt true false (pos + testSize c + 1) b)).condition = c' := by
      rw [loopParts]
      split <;> rfl
    rw [hcondition, if_pos hne, (List.cons.inj hreturns).1]
  · rw [rebuilt, listRebuilt_outlines ih _ _ ha, part_map_cons]
    exact fun b c' e => hloop ⟨b, c', e⟩

/-- So does a choice with an alternative. -/
theorem returns_choiceElse {inLoop : Bool} {c m : Node} {t ms : List Node}
    (ih : ∀ n ∈ t, Returns inLoop n) (ih' : ∀ n ∈ m :: ms, Returns inLoop n) :
    Returns inLoop (ifElse c t (m :: ms)) := by
  intro tail pos ha
  have houtline : (ifElse c t (m :: ms)).outline = .choiceElse c (outlines t) (outlines (m :: ms)) := by
    rw [outline]; rfl
  rw [houtline, adds, Bool.or_eq_false_iff, Bool.or_eq_false_iff] at ha
  obtain ⟨htail, hbody, halternative⟩ := ha
  have hplain : (inLoop && tail) = false := by simpa using htail
  rw [houtline, rebuilt]
  simp only [hplain, Bool.false_eq_true, if_false]
  rw [listRebuilt_outlines ih _ _ hbody, listRebuilt_outlines ih' _ _ halternative, part_map_cons,
    part_map_cons]

/-- **Rebuilding undoes outlining** where no jump is invented and no `do` loop guarded by its own
condition. -/
theorem Structured.returns {inLoop : Bool} {n : Node} (h : Structured inLoop n)
    (hguard : ¬ Has (guardsItself ·) [n]) : Returns inLoop n := by
  have hsimple : ∀ m, Simple m → ¬ m.guardsItself := fun m hm => hm.not_guardsItself
  have hmem : ∀ {ns : List Node}, ¬ Has (guardsItself ·) ns → ∀ n ∈ ns, ¬ Has (guardsItself ·) [n] := by
    rintro ns hns n hn ⟨m, hm, hg⟩
    rw [listSubnodes, listSubnodes, List.append_nil] at hm
    exact hns ⟨m, mem_listSubnodes.mpr ⟨n, hn, hm⟩, hg⟩
  induction h with
  | simple hn =>
      intro tail pos _
      rw [hn.outline_eq, rebuilt]
  | breakLoop =>
      intro tail pos _
      rw [outline, rebuilt]
  | @ifElse inLoop c t e hc ht he iht ihe =>
      rw [has_ifElse hsimple hc, not_or, not_or] at hguard
      obtain ⟨hself, hgt, hge⟩ := hguard
      have iht' := fun n hn => iht n hn (hmem hgt n hn)
      have ihe' := fun n hn => ihe n hn (hmem hge n hn)
      cases e with
      | nil => exact returns_choice ht hself iht'
      | cons m ms => exact returns_choiceElse iht' ihe'
  | @whileLoop inLoop c body hc _ ih =>
      rw [has_loop hsimple hc, not_or] at hguard
      intro tail pos ha
      rw [outline, adds, listAdds, listAdds, Bool.or_false, adds] at ha
      -- without a next round nothing is split off, so the loop is not taken for a `for` loop
      rw [outline, rebuilt, loopParts_eq ha,
        listRebuilt_outlines (fun n hn => ih n hn (hmem hguard.2 n hn)) _ _ ha, part_map_cons]
      funext stack
      simp [guarded]
  | @doWhile inLoop c body hc _ ih =>
      rw [has_loop hsimple hc, not_or] at hguard
      intro tail pos ha
      rw [outline, adds] at ha
      rw [outline, rebuilt, loopParts_eq ha,
        listRebuilt_outlines (fun n hn => ih n hn (hmem hguard.2 n hn)) _ _ ha, part_map_cons]
      simp [Rebuild.LoopParts.doWhile]

end Node

/-! ### Whole programs -/

namespace Stream

open Node Piece

variable {L : Placement} {p init : List Node} {n : Node}

/-- A compiled program uses the addresses of its positions. -/
theorem bound_of_compile (h : ∀ ins ∈ compile L p, ins.addr < Addr.last) :
    ∀ i < listSize (outlines p), L.addr i < Addr.last := by
  intro i hi
  have hmem : L.addr i ∈ (compile L p).map (·.addr) := by
    have haddrs : (compile L p).map (·.addr) = (List.range' 0 (listSize (outlines p))).map L.addr :=
      addrs_listInstrs L 0 0 (outlines p)
    rw [haddrs]
    exact List.mem_map_of_mem (List.mem_range'_1.mpr ⟨Nat.zero_le i, by omega⟩)
  obtain ⟨ins, hins, e⟩ := List.mem_map.mp hmem
  exact e ▸ h ins hins

/-- Placed in a row, a program stays below the last address. -/
theorem lt_last_of_consecutive {p : List Node} (h : listSize (outlines p) ≤ Addr.last) :
    ∀ ins ∈ compile .consecutive p, ins.addr < Addr.last := by
  intro ins hins
  obtain ⟨i, -, hi, e⟩ := Fragment.addr_of_mem hins
  rw [e]
  exact hi.trans_le (by rw [Nat.zero_add]; exact h)

/-- What is rebuilt from a program that ends with a statement without parts. -/
theorem outcome_compile (hp : ∀ m ∈ init ++ [n], m.Structured false) (hn : n.Simple)
    (hbound : ∀ ins ∈ compile L (init ++ [n]), ins.addr < Addr.last) :
    (statements (compile L (init ++ [n]))).outcome =
      (.ok (part (listRebuilt false false 0 (outlines (init ++ [n])))),
        [.controlFlow (wholeTree L (outlines init) n).preorder.length
            (wholeTree L (outlines init) n).allBranches.length,
          .built (part (listRebuilt false false 0 (outlines (init ++ [n])))).length]) := by
  have houtlines : outlines (init ++ [n]) = outlines init ++ [.plain n] := by
    rw [outlines_eq_map, outlines_eq_map, List.map_append, List.map_singleton, hn.outline_eq]
  have hsound := forall_sound_outlines fun m hm => (hp m hm).sound
  have hbound' := bound_of_compile hbound
  rw [houtlines] at hsound hbound' ⊢
  have hcompile : compile L (init ++ [n]) = listInstrs L 0 0 (outlines init ++ [.plain n]) := by
    rw [compile, houtlines]
    rfl
  rw [hcompile]
  exact statements_listInstrs hsound hbound'

/-- **Decompiling undoes compiling** a structured program that ends with a return, if inside of loops no
`if` without `else` ends with an `if` with `else`, and no `if` guards a `do` loop with the loop's own
condition. -/
theorem statements_compile (hp : ∀ m ∈ p, m.Structured false) (hret : ∃ v, p.getLast? = some (.ret v))
    (helse : ∀ l ∈ listSubnodes p, l.isLoop → ∀ m ∈ l.subnodes, ¬ m.endsWithElse)
    (hguard : ∀ m ∈ listSubnodes p, ¬ m.guardsItself)
    (hbound : ∀ ins ∈ compile L p, ins.addr < Addr.last) : ∃ blocks branches,
    (statements (compile L p)).outcome = (.ok p, [.controlFlow blocks branches, .built p.length]) := by
  obtain ⟨v, hv⟩ := hret
  obtain ⟨init, rfl⟩ := List.getLast?_eq_some_iff.mp hv
  have hn : (ret v).Simple := by
    cases hp (.ret v) (by simp) with
    | simple hn => exact hn
  have hadds : listAdds .continueLoop false false (outlines (init ++ [ret v])) = false := by
    rw [← Bool.not_eq_true, listAdds_outlines_iff hp]
    rintro ⟨l, hl, hloop, m, hm, hends⟩
    rw [listSubnodes, listSubnodes, List.append_nil] at hm
    exact helse l hl hloop m hm hends
  have hreturns : ∀ m ∈ init ++ [ret v], Returns false m := by
    refine fun m hm => (hp m hm).returns ?_
    rintro ⟨k, hk, hg⟩
    rw [listSubnodes, listSubnodes, List.append_nil] at hk
    exact hguard k (mem_listSubnodes.mpr ⟨m, hm, hk⟩) hg
  have houtcome := outcome_compile hp hn hbound
  rw [listRebuilt_outlines hreturns _ _ hadds, part_map_cons] at houtcome
  exact ⟨_, _, houtcome⟩

/-- A loop that begins a loop's body and is left in the `else` part of an `if`. -/
def nestedLoops : List Node :=
  [.loop .whileLoop none (.var "%c" none) none
    [.loop .doWhile none (.var "%d" none) none
      [.ifElse (.var "%a" none) [.assign (.var "%x" none) none (.constant (.uint 1))] [.breakLoop]],
     .assign (.var "%i" none) (some .add) (.constant (.uint 1))],
   .ret none]

theorem structured_nestedLoops : ∀ m ∈ nestedLoops, m.Structured false := by
  have hset : ((Node.var "%x" none).assign none (.constant (.uint 1))).Simple :=
    .expression (.assign rfl (.var _) (.constant _) rfl)
  have hadd : ((Node.var "%i" none).assign (some .add) (.constant (.uint 1))).Simple :=
    .expression (.compound _ rfl (.var _) (.constant _) rfl)
  have hchoice : (Node.ifElse (.var "%a" none) [.assign (.var "%x" none) none (.constant (.uint 1))]
      [.breakLoop]).Structured true :=
    .ifElse (.var _) (List.forall_mem_singleton.mpr (.simple hset))
      (List.forall_mem_singleton.mpr .breakLoop)
  refine List.forall_mem_cons.mpr ⟨.whileLoop (.var _) ?_, List.forall_mem_singleton.mpr (.simple .ret)⟩
  exact List.forall_mem_cons.mpr ⟨.doWhile (.var _) (List.forall_mem_singleton.mpr hchoice),
    List.forall_mem_singleton.mpr (.simple hadd)⟩

/-- Nested loops are given back. -/
theorem statements_compile_nestedLoops : ∃ blocks branches,
    (statements (compile .consecutive nestedLoops)).outcome =
      (.ok nestedLoops, [.controlFlow blocks branches, .built 2]) :=
  statements_compile structured_nestedLoops ⟨none, rfl⟩ (by decide) (by decide)
    (lt_last_of_consecutive (by decide))

/-- Straight-line programs have no blocks. -/
theorem listTrees_simple (h : ∀ m ∈ p, m.Simple) (settled inLoop tail : Bool) (exit : Addr) (id pos : Nat) :
    listTrees L settled inLoop tail exit id pos (outlines p) = [] := by
  induction p generalizing id pos with
  | nil => rw [outlines, listTrees]
  | cons n p ih =>
      obtain ⟨hn, hp⟩ := List.forall_mem_cons.mp h
      rw [outlines, listTrees, ih hp, hn.outline_eq, trees, List.append_nil]

theorem listAdds_simple (h : ∀ m ∈ p, m.Simple) (jump : Node) (inLoop tail : Bool) :
    listAdds jump inLoop tail (outlines p) = false := by
  induction p with
  | nil => rw [outlines, listAdds]
  | cons n p ih =>
      obtain ⟨hn, hp⟩ := List.forall_mem_cons.mp h
      rw [outlines, listAdds, ih hp, hn.outline_eq, adds]
      rfl

/-- The empty stream has nothing but its root. -/
theorem outcome_nil : (statements []).outcome = (.ok [], [.controlFlow 1 0, .built 0]) := by
  let tree : Block := .fresh 0 .root 0 0
  have htree : blockTree [] = .ok tree := by
    have hnest : nest [] = .ok tree := by
      have hblocks : blocks [] = .ok [] := rfl
      have hstart : Nesting.start (root []) [] = ⟨tree, [], []⟩ := by
        rw [Nesting.start, List.mergeSort_nil]
        rfl
      rw [nest, hblocks]
      show ((Nesting.start (root []) []).scan [] >>= fun n => n.finish (last [])) = _
      rw [hstart]
      rfl
    rw [blockTree, hnest]
    rfl
  have hregions : Region.ofStream tree [] = [] := Region.Reads.nil.ofStream_eq
  have hrun : StateT.run (run tree []) {} = .ok ((), {}) := by
    rw [run, hregions, Rebuild.runAll]
    rfl
  exact outcome_statements htree hrun rfl rfl rfl

/-- **Decompiling undoes compiling** a straight-line program: nothing is changed, no block is found and
nothing is left open. -/
theorem statements_compile_simple (hp : ∀ m ∈ p, m.Simple)
    (hbound : ∀ ins ∈ compile L p, ins.addr < Addr.last) :
    (statements (compile L p)).outcome = (.ok p, [.controlFlow 1 0, .built p.length]) := by
  rcases List.eq_nil_or_concat p with rfl | ⟨init, n, rfl⟩
  · exact outcome_nil
  · rw [List.concat_eq_append] at hp hbound ⊢
    have hreturns : ∀ m ∈ init ++ [n], Returns false m := by
      intro m hm tail pos _
      rw [(hp m hm).outline_eq, rebuilt]
    have houtcome := outcome_compile (fun m hm => .simple (hp m hm)) (hp n (by simp)) hbound
    rw [listRebuilt_outlines hreturns _ _ (listAdds_simple hp _ _ _), part_map_cons, wholeTree,
      listTrees_simple fun m hm => hp m (List.mem_append_left _ hm)] at houtcome
    exact houtcome

/-- A concatenation with a call and a field in it that is compared, and a conjunction that is returned. -/
def greeting : List Node :=
  [.assign (.var "%t" (some (.comma (.var "%i" none) (.var "%j" none)))) none
    (.concat .space (.call "getName" none .function [.binary .or (.var "%a" none) (.constant (.uint 1))])
      (.field (some (.var "%o" none)) "last" none)),
   .ret (some (.binary .and (.compare .equal (.var "%t" none) (.constant (.str "x")))
    (.unary .not (.var "%b" none))))]

/-- A greeting is given back. -/
theorem statements_compile_greeting : (statements (compile .consecutive greeting)).outcome =
    (.ok greeting, [.controlFlow 1 0, .built 2]) := by
  refine statements_compile_simple (List.forall_mem_cons.mpr ⟨?_, List.forall_mem_singleton.mpr ?_⟩)
    (lt_last_of_consecutive (by decide))
  · refine .expression (.assign rfl (.element _ (.comma (.var _) (.var _))) (.concat _ ?_ ?_) rfl)
    · exact .call _ _ _ (List.forall_mem_singleton.mpr (.binary _ (.var _) (.constant _)))
    · exact .field _ (.var _)
  · exact .retValue (.binary _ (.compare _ (.var _) (.constant _)) (.unary _ (.var _) nofun))

end Stream

end TorqueScript
