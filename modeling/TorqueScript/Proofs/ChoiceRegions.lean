import TorqueScript.Proofs.LoopRegions

/-!
# Regions of choices and of whole streams

The conditional jump behind a condition begins a block, and this is read as a choice with or without an
alternative, or together with the loop that it guards.  Where each of the parts ends is told by the jump over
the alternative, if there is one.

* `Piece.passes_test`: a condition and the block that begins behind it.
* `Piece.readsWell_choice`, `Piece.readsWell_guarded`, `Piece.readsWell_choiceElse`: the three kinds of choices
  are read correctly if their pieces are.
* `Piece.Sound.readsWell`: so is every piece, and hence every stream (`Piece.ofStream_listInstrs`).
-/

namespace TorqueScript

namespace Piece

open Region TorqueScript.Stream Fragment

variable {L : Placement}

/-! ### Reading choices -/

/-- What does not lie behind an address lies in front of the next one. -/
theorem lt_next {a b : Addr} (hab : a ≤ b) (hb : b < Addr.last) : a < Addr.next b :=
  Nat.lt_min.mpr ⟨Nat.lt_succ_of_le hab, hab.trans_lt hb⟩

theorem next_le {a b : Addr} (h : a < b) : Addr.next a ≤ b :=
  (Nat.min_le_left _ _).trans h

/-- A jump of another class is not taken for one over an alternative. -/
theorem alternative?_eq_none {b : Block} (h : ∀ j ∈ b.branches, j.kind ≠ .alternative) :
    b.alternative? = none := by
  rw [Block.alternative?, Option.filter_eq_none_iff]
  intro j hj
  have := h j (List.mem_of_find?_eq_some hj)
  simpa using this

/-- A conditional block without a jump over an alternative is read to its end. -/
theorem bodyStop_eq {b : Block} (h : b.alternative? = none) : b.bodyStop = Addr.next b.stop := by
  simp [Block.bodyStop, h]

/-- Around a block without an alternative, another one may be read to the end. -/
theorem alternativeStop_eq {b : Block} (hkind : b.kind = .conditional) (h : b.alternative? = none) :
    b.alternativeStop = Addr.next b.stop := by
  simp [Block.alternativeStop, hkind, h]

section Choice

variable {inLoop tail : Bool} {exit stop target : Addr} {id pos last : Nat} {block child : Block}
  {c : Node} {body alternative : List Piece} {rest : List Instruction}

/-- A condition and the block that begins with the jump behind it. -/
theorem passes_test (exit : Addr) {children : List Block} {branches : List Branch}
    {code : List Instruction} {region : Region} (h : Within L block pos last (child :: children) branches)
    (hlast : pos + testSize c < last) (hstart : child.start = L.addr (pos + testSize c))
    (hchildren : ∀ b ∈ children, L.addr (pos + testSize c) < b.start)
    (hbranches : ∀ b ∈ branches, L.addr (pos + testSize c) < b.addr)
    (hstop : ∀ i < pos + (testSize c + 1), L.addr i < stop)
    (hread : ReadsChild block child (L.instr (pos + testSize c) (.jump .ifNot target)) (code ++ rest)
      region rest) :
    Passes block stop
      (testInstrs L exit pos c ++ L.instr (pos + testSize c) (.jump .ifNot target) :: code)
      ((testInstrs L exit pos c).map .plain ++ [region]) rest := by
  have htest : Within L block pos (pos + testSize c) [] [] := by
    rw [← List.nil_append (child :: children), ← List.nil_append branches] at h
    refine h.left hlast.le ?_ fun b hb => (hbranches b hb).le
    exact List.forall_mem_cons.mpr ⟨hstart.ge, fun b hb => (hchildren b hb).le⟩
  refine .append (passes_code (fun i hi => hstop i (Nat.lt_succ_of_lt hi)) htest) ?_
  intro regions' rest' hrest
  refine Reads.inner (hstop _ (by omega)) ?_ hread hrest
  rw [Placement.addr_instr, h.child _ (Nat.le_add_right _ _) hlast, List.find?_cons_of_pos]
  simp [hstart]

/-- Without a loop that begins right behind it and ends with it, a jump guards no loop. -/
theorem guardedLoop?_eq_none {b : Block} {code : List Instruction} (hcode : Begins L pos code)
    (h : ∀ child ∈ b.children, child.kind = .loop → child.start = L.addr pos → child.stop ≠ b.stop) :
    b.guardedLoop? code = none := by
  cases code with
  | nil => rfl
  | cons ins code =>
      rw [Block.guardedLoop?]
      refine List.find?_eq_none.mpr fun child hchild => ?_
      have haddr := hcode ins rfl
      have := h child hchild
      simp only [Bool.and_eq_true, beq_iff_eq, not_and]
      exact fun hkind => this hkind.1 (hkind.2.trans haddr)

/-- A simple statement is read instruction by instruction. -/
theorem readsWell_plain {n : Node} : ReadsWell L inLoop (plain n) := by
  intro tail exit id pos block stop rest hhost hstop hrest
  have hwithin := hhost.toWithin
  rw [trees, jumps] at hwithin
  rw [regions]
  have hsize : (plain n).size = n.simpleCode.size := by rw [size, code]
  rw [reach, hsize] at hstop
  rw [hsize] at hwithin
  rw [instrs, code]
  exact passes_code hstop hwithin

/-- A `break` is a single jump. -/
theorem readsWell_leave : ReadsWell L true leave := by
  intro tail exit id pos block stop rest hhost hstop hrest regions' rest' hreads
  have hchild := hhost.child pos le_rfl (by simp)
  have hbranch := hhost.branch pos le_rfl (by simp)
  rw [trees] at hchild
  rw [jumps, List.find?_cons_of_pos (by simp)] at hbranch
  rw [instrs_leave, regions]
  exact Reads.jump ⟨L.addr pos, exit, .leave⟩ (hstop pos (by simp [reach])) hchild hbranch hreads

/-- A piece has a first instruction, and this lies at its position. -/
theorem exists_cons_instrs {p : Piece} (hp : 0 < p.size) (exit : Addr) (pos : Nat) :
    ∃ ins code, instrs L exit pos p = ins :: code ∧ ins.addr = L.addr pos := by
  have haddrs := p.code.addrs L exit pos
  obtain ⟨size, hsize⟩ := Nat.exists_eq_succ_of_ne_zero hp.ne'
  change p.code.size = _ at hsize
  rw [hsize, List.range'_succ] at haddrs
  cases hcode : instrs L exit pos p with
  | nil => rw [instrs] at hcode; rw [hcode] at haddrs; cases haddrs
  | cons ins code =>
      rw [instrs] at hcode
      rw [hcode] at haddrs
      exact ⟨ins, code, rfl, (List.cons.inj haddrs).1⟩

/-- The block of a loop. -/
theorem exists_loop (inLoop tail : Bool) (exit : Addr) (id pos : Nat) (body : List Piece) (c : Node) :
    ∃ b, trees L true inLoop tail exit id pos (loop body c) = [b] ∧ IsLoop L id pos body c b :=
  ⟨_, by rw [trees], rfl, rfl, rfl, rfl, rfl, rfl⟩

/-- A loop is read in its own block. -/
theorem readsWell_loop (hc : c.Normal) (ih : ∀ p ∈ body, ReadsWell L true p) :
    ReadsWell L inLoop (loop body c) := by
  intro tail exit id pos block stop rest hhost hstop hrest regions' rest' hreads
  have hsize := size_loop c body
  obtain ⟨ins, code, hcode, haddr⟩ := exists_cons_instrs (L := L) (show 0 < (loop body c).size by omega) exit pos
  obtain ⟨b, htrees, hb⟩ := exists_loop (L := L) inLoop tail exit id pos body c
  have hchild := hhost.child pos le_rfl (by omega)
  rw [htrees, List.find?_cons_of_pos (by simp [hb.start])] at hchild
  have hloop := hb.reads hc (fun i hi => hhost.bounded i (by omega)) ih exit rest
  rw [hcode, List.cons_append] at hloop
  rw [hcode, regions, ← hb.start, ← hb.stop]
  refine Reads.inner ?_ (haddr ▸ hchild) (.loop hb.kind hloop) hreads
  rw [haddr]
  exact hstop pos (by simp [reach])

/-- The block of a choice whose jump is at `head`, with the jumps `extra` besides those of its body. -/
structure IsChoice (L : Placement) (inLoop tail : Bool) (exit : Addr) (id head stop : Nat)
    (body : List Piece) (extra : List Branch) (block : Block) : Prop where
  kind : block.kind = .conditional
  start : block.start = L.addr head
  stop : block.stop = L.addr stop
  branches : block.branches = listJumps L inLoop exit (head + 1) body ++ extra
  children : block.children = listTrees L true inLoop tail exit id (head + 1) body

/-- The first part of a choice is read in the block of the choice. -/
theorem IsChoice.host {head last : Nat} {extra : List Branch}
    (h : IsChoice L inLoop tail exit id head last body extra child)
    (hfits : ∀ i < head + 1 + listSize body, L.addr i < child.alternativeStop)
    (hbounded : ∀ i < head + 1 + listSize body, L.addr i < Addr.last)
    (hover : ∀ b ∈ extra, L.addr (head + 1 + listSize body) ≤ b.addr) :
    Host L child (head + 1) (head + 1 + listSize body)
      (listTrees L true inLoop tail exit id (head + 1) body) (listJumps L inLoop exit (head + 1) body) := by
  have hself := within_self (L := L) child (head + 1) (head + 1 + listSize body)
  rw [h.children, h.branches, ← List.append_nil (listTrees _ _ _ _ _ _ _ _)] at hself
  exact ⟨hself.left le_rfl (List.forall_mem_nil _) hover, hfits, hbounded⟩

/-- A choice without an alternative. -/
theorem readsWell_choice (hsound : ∀ p ∈ body, Sound inLoop p)
    (hloop : ∀ b c', body ≠ [loop b c']) (ih : ∀ p ∈ body, ReadsWell L inLoop p) :
    ReadsWell L inLoop (choice c body) := by
  intro tail exit id pos block stop rest hhost hstop hrest
  obtain ⟨b, htrees, hb⟩ : ∃ b, trees L true inLoop tail exit id pos (choice c body) = [b] ∧
      IsChoice L inLoop true exit (id + 1) (pos + testSize c) (pos + testSize c + listSize body) body [] b :=
    ⟨_, by rw [trees], rfl, rfl, rfl, (List.append_nil _).symm, rfl⟩
  have hbounded := hhost.bounded
  have hwithin := hhost.toWithin
  rw [htrees, jumps] at hwithin
  rw [size_choice, ← Nat.add_assoc, ← Nat.add_assoc] at hrest hbounded hwithin
  have helse : b.alternative? = none := by
    refine alternative?_eq_none fun j hj => ?_
    rw [hb.branches, List.append_nil] at hj
    rw [leave_of_mem_listJumps hsound j hj]
    decide
  have hfits : ∀ i < pos + testSize c + 1 + listSize body, L.addr i < Addr.next b.stop := by
    intro i hi
    rw [hb.stop]
    exact lt_next (L.addr_le_iff.mpr (by omega)) (hbounded _ (by omega))
  have hinner := hb.host (by rwa [alternativeStop_eq hb.kind helse]) hbounded (List.forall_mem_nil _)
  have hbody : Reads b b.bodyStop (listInstrs L exit (pos + testSize c + 1) body ++ rest)
      (listRegions L inLoop true exit (pos + testSize c + 1) body).flatten rest := by
    rw [bodyStop_eq helse]
    refine (listReads ih hinner hfits hrest).reads fun ins hins => ?_
    rw [hrest ins hins, hb.stop]
    exact next_le (L.addr_lt_iff.mpr (by omega))
  -- a loop that begins and ends with the body would be all of it
  have hnone : b.guardedLoop? (listInstrs L exit (pos + testSize c + 1) body ++ rest) = none := by
    refine guardedLoop?_eq_none (begins_listInstrs _ hrest) fun child hchild hkind hstart hend => ?_
    rw [hb.children] at hchild
    rw [hb.stop] at hend
    obtain ⟨b, c', e⟩ := loop_of_mem_listTrees hsound hchild hkind hstart
      (hend.trans (congrArg L.addr (by omega)))
    exact hloop b c' e
  rw [instrs_choice, regions]
  · refine passes_test _ hwithin (by omega) hb.start (List.forall_mem_nil _) (List.forall_mem_nil _) hstop ?_
    rw [← hb.stop]
    exact .choice hb.kind rfl hnone helse hbody
  · exact hloop

/-- A loop right behind the jump over it is read together with the jump. -/
theorem readsWell_guarded {c' : Node} (hc' : c'.Normal) (ih : ∀ p ∈ body, ReadsWell L true p) :
    ReadsWell L inLoop (choice c [loop body c']) := by
  intro tail exit id pos block stop rest hhost hstop hrest
  have hbounded := hhost.bounded
  have hwithin := hhost.toWithin
  rw [size_choice, listSize_cons, listSize_nil, size_loop] at hbounded hwithin
  obtain ⟨inner, hloop, hinner⟩ := exists_loop (L := L) inLoop true exit (id + 1) (pos + testSize c + 1)
    body c'
  obtain ⟨b, htrees, hb, hchildren⟩ : ∃ b,
      trees L true inLoop tail exit id pos (choice c [loop body c']) = [b] ∧
      (b.kind = .conditional ∧ b.start = L.addr (pos + testSize c) ∧
        b.stop = L.addr (pos + testSize c + 1 + listSize body + testSize c')) ∧ b.children = [inner] := by
    refine ⟨_, by rw [trees], ⟨rfl, rfl, ?_⟩, ?_⟩
    · rw [listSize_cons, listSize_nil, size_loop]
      exact congrArg L.addr (by omega)
    · simp [listTrees, hloop]
  obtain ⟨ins, code, hcode, haddr⟩ := exists_cons_instrs (L := L)
    (show 0 < (loop body c').size by rw [size_loop]; omega) exit (pos + testSize c + 1)
  have hguarded : b.guardedLoop? (instrs L exit (pos + testSize c + 1) (loop body c') ++ rest) = some inner := by
    rw [hcode, List.cons_append, Block.guardedLoop?, hchildren, List.find?_cons_of_pos]
    simp [hinner.kind, hinner.start, hinner.stop, haddr, hb.2.2]
  have hreads := hinner.reads hc' (fun i hi => hbounded i (by omega)) ih exit rest
  rw [htrees, jumps] at hwithin
  have hsum : pos + testSize c + 1 + listSize [loop body c'] =
      pos + testSize c + 1 + listSize body + testSize c' + 1 := by
    rw [listSize_cons, listSize_nil, size_loop]
    omega
  rw [instrs_choice, listInstrs_singleton, hsum, regions, ← hinner.stop]
  exact passes_test _ hwithin (by omega) hb.2.1 (List.forall_mem_nil _) (List.forall_mem_nil _) hstop
    (.guarded hb.1 rfl hguarded hreads)

/-- The block of a choice with an alternative. -/
theorem exists_choiceElse (inLoop tail : Bool) (exit : Addr) (id pos : Nat) (c : Node)
    (body alternative : List Piece) : ∃ b,
    trees L true inLoop tail exit id pos (choiceElse c body alternative) = b ::
      listTrees L true inLoop tail exit (id + 1 + listCount body)
        (pos + testSize c + 1 + listSize body + 1) alternative ∧
    IsChoice L inLoop false exit (id + 1) (pos + testSize c) (pos + testSize c + 1 + listSize body) body
      [⟨L.addr (pos + testSize c + 1 + listSize body),
        L.addr (pos + testSize c + 1 + listSize body + 1 + listSize alternative),
        if inLoop && tail then .nextRound else .alternative⟩] b :=
  ⟨_, by rw [trees], rfl, rfl, rfl, rfl, rfl⟩

/-- A choice whose pieces are not just a loop guards none. -/
theorem IsChoice.guardedLoop?_eq {head : Nat} {extra : List Branch} {code : List Instruction}
    (h : IsChoice L inLoop tail exit id head (head + 1 + listSize body) body extra child)
    (hcode : Begins L (head + 1) code) : child.guardedLoop? code = none := by
  refine guardedLoop?_eq_none hcode fun b hb _ _ hend => ?_
  rw [h.children] at hb
  obtain ⟨i, j, -, -, hj, -, e⟩ := spans_listTrees body _ _ _ b hb
  rw [e, h.stop, L.addr_inj] at hend
  omega

/-- The jump over an alternative is found, and no block begins there. -/
theorem IsChoice.lookup_over {head : Nat} {extra : Branch}
    (h : IsChoice L inLoop tail exit id head (head + 1 + listSize body) body [extra] child)
    (hover : extra.addr = L.addr (head + 1 + listSize body)) :
    child.childAt? extra.addr = none ∧ child.branchAt? extra.addr = some extra := by
  constructor
  · refine List.find?_eq_none.mpr fun b hb => ?_
    rw [h.children] at hb
    obtain ⟨i, j, -, hij, hj, e, -⟩ := spans_listTrees body _ _ _ b hb
    have hne : i ≠ head + 1 + listSize body := by omega
    simp [e, hover, hne]
  · have hnone : (listJumps L inLoop exit (head + 1) body).find? (·.addr == extra.addr) = none := by
      refine List.find?_eq_none.mpr fun b hb => ?_
      obtain ⟨-, i, -, hi, e⟩ := addr_of_mem_listJumps inLoop exit body _ b hb
      have hne : i ≠ head + 1 + listSize body := by omega
      simp [e, hover, hne]
    rw [Block.branchAt?, Branch.find?, h.branches, List.find?_append, hnone]
    simp

/-- An alternative whose jump counts as one to the next round is read as what follows the choice. -/
theorem IsChoice.reads_nextRound (block : Block) {head : Nat} {target : Addr} {rest : List Instruction}
    (h : IsChoice L inLoop false exit id head (head + 1 + listSize body) body
      [⟨L.addr (head + 1 + listSize body), target, .nextRound⟩] child)
    (hsound : ∀ p ∈ body, Sound inLoop p) (ih : ∀ p ∈ body, ReadsWell L inLoop p)
    (hbounded : ∀ i ≤ head + 1 + listSize body, L.addr i < Addr.last)
    (hrest : Begins L (head + 1 + listSize body + 1) rest) :
    ReadsChild block child (L.instr head (.jump .ifNot (L.addr (head + 1 + listSize body + 1))))
      (listInstrs L exit (head + 1) body ++
        [L.instr (head + 1 + listSize body) (.jump .always target)] ++ rest)
      (.choice (L.instr head (.jump .ifNot (L.addr (head + 1 + listSize body + 1)))) .ifNot
        (L.addr (head + 1 + listSize body)) ((listRegions L inLoop false exit (head + 1) body).flatten ++
          [.jump (L.instr (head + 1 + listSize body) (.jump .always target)) .nextRound])) rest := by
  have helse : child.alternative? = none := by
    refine alternative?_eq_none fun j hj => ?_
    rw [h.branches, List.mem_append, List.mem_singleton] at hj
    rcases hj with hj | rfl
    · rw [leave_of_mem_listJumps hsound j hj]
      decide
    · exact nofun
  have hfits : ∀ i < head + 1 + listSize body + 1, L.addr i < Addr.next child.stop := by
    intro i hi
    rw [h.stop]
    exact lt_next (L.addr_le_iff.mpr (by omega)) (hbounded _ le_rfl)
  have hinner := h.host
    (fun i hi => by rw [alternativeStop_eq h.kind helse]; exact hfits i (by omega))
    (fun i hi => hbounded i hi.le) (by simp)
  obtain ⟨hchild, hbranch⟩ := h.lookup_over rfl
  have hjump : Passes child (Addr.next child.stop)
      [L.instr (head + 1 + listSize body) (.jump .always target)]
      [.jump (L.instr (head + 1 + listSize body) (.jump .always target)) .nextRound] rest := by
    intro regions' rest' hreads
    exact Reads.jump ⟨L.addr (head + 1 + listSize body), target, .nextRound⟩
      (hfits _ (Nat.lt_succ_self _)) hchild hbranch hreads
  have hover : Begins L (head + 1 + listSize body)
      ([L.instr (head + 1 + listSize body) (.jump .always target)] ++ rest) := begins_cons rfl
  have hbody := listReads ih hinner (fun i hi => hfits i (by omega)) hover
  have hreads := (hbody.append hjump).reads fun ins hins => by
    rw [hrest ins hins, h.stop]
    exact next_le (L.addr_lt_iff.mpr (by omega))
  rw [← bodyStop_eq helse] at hreads
  rw [← h.stop]
  refine .choice h.kind rfl (h.guardedLoop?_eq ?_) helse hreads
  rw [List.append_assoc]
  exact begins_listInstrs _ (begins_cons rfl)

/-- The body of a choice with an alternative ends at the jump over the alternative. -/
theorem IsChoice.reads_body {head : Nat} {target : Addr} (rest : List Instruction)
    (h : IsChoice L inLoop false exit id head (head + 1 + listSize body) body
      [⟨L.addr (head + 1 + listSize body), target, .alternative⟩] child)
    (ih : ∀ p ∈ body, ReadsWell L inLoop p)
    (hbounded : ∀ i ≤ head + 1 + listSize body, L.addr i < Addr.last) :
    child.alternative? = some ⟨L.addr (head + 1 + listSize body), target, .alternative⟩ ∧
    Reads child child.bodyStop
      (listInstrs L exit (head + 1) body ++
        L.instr (head + 1 + listSize body) (.jump .always target) :: rest)
      (listRegions L inLoop false exit (head + 1) body).flatten
      (L.instr (head + 1 + listSize body) (.jump .always target) :: rest) := by
  have helse : child.alternative? = some ⟨L.addr (head + 1 + listSize body), target, .alternative⟩ := by
    rw [Block.alternative?, h.stop, (h.lookup_over rfl).2]
    rfl
  refine ⟨helse, ?_⟩
  have hfits : ∀ i < head + 1 + listSize body, L.addr i < child.stop := by
    intro i hi
    rw [h.stop]
    exact L.addr_lt_iff.mpr hi
  have hinner := h.host
    (fun i hi => by rw [Block.alternativeStop, if_pos (.inr (by rw [helse]; rfl))]; exact hfits i hi)
    (fun i hi => hbounded i hi.le) (by simp)
  rw [Block.bodyStop, if_pos (by rw [helse]; rfl)]
  refine (listReads ih hinner hfits (begins_cons rfl)).reads fun ins hins => ?_
  cases hins
  exact h.stop.le

/-- A choice with an alternative, whose jump may also start the next round. -/
theorem readsWell_choiceElse (hsound : ∀ p ∈ body, Sound inLoop p)
    (ih : ∀ p ∈ body, ReadsWell L inLoop p) (ih' : ∀ p ∈ alternative, ReadsWell L inLoop p) :
    ReadsWell L inLoop (choiceElse c body alternative) := by
  intro tail exit id pos block stop rest hhost hstop hrest
  obtain ⟨b, htrees, hb⟩ := exists_choiceElse (L := L) inLoop tail exit id pos c body alternative
  have hsize := size_choiceElse c body alternative
  have hbounded := hhost.bounded
  have hend : pos + (choiceElse c body alternative).size =
      pos + testSize c + 1 + listSize body + 1 + listSize alternative := by omega
  rw [htrees, jumps, hend] at hhost
  rw [hend] at hrest
  have hfirst : ∀ k ∈ [b], k.start < L.addr (pos + testSize c + 1 + listSize body + 1) :=
    List.forall_mem_singleton.mpr (by rw [hb.start, L.addr_lt_iff]; omega)
  rw [← List.singleton_append, ← List.nil_append (listJumps _ _ _ _ _)] at hhost
  have halternative := hhost.right (by omega) hfirst (List.forall_mem_nil _)
  rw [List.singleton_append, List.nil_append] at hhost
  have hkids : ∀ k ∈ listTrees L true inLoop tail exit (id + 1 + listCount body)
      (pos + testSize c + 1 + listSize body + 1) alternative, L.addr (pos + testSize c) < k.start := fun k hk =>
    (L.addr_lt_iff.mpr (by omega)).trans_le ((spans_listTrees alternative _ _ _ k hk).le_start le_rfl)
  have hjumps : ∀ j ∈ listJumps L inLoop exit (pos + testSize c + 1 + listSize body + 1) alternative,
      L.addr (pos + testSize c) < j.addr := by
    intro j hj
    obtain ⟨-, i, hi, -, e⟩ := addr_of_mem_listJumps inLoop exit alternative _ j hj
    rw [e, L.addr_lt_iff]
    omega
  have hbehind := begins_listInstrs exit hrest
  rw [instrs_choiceElse, regions]
  by_cases hround : (inLoop && tail) = true
  · -- the alternative is read up to where the piece itself is read
    rw [if_pos hround]
    rw [if_pos hround] at hb
    rw [reach, if_pos hround, hend] at hstop
    have hread := hb.reads_nextRound block hsound ih (fun i hi => hbounded i (by omega)) hbehind
    have htest := passes_test exit hhost.toWithin (by omega) hb.start hkids hjumps
      (fun i hi => hstop i (by omega)) hread
    simpa using htest.append (listReads ih' halternative hstop hrest)
  · -- the alternative is read up to the target of the jump over it
    rw [if_neg hround]
    rw [if_neg hround] at hb
    rw [reach, if_neg hround] at hstop
    obtain ⟨helse, hbody⟩ := hb.reads_body (listInstrs L exit
      (pos + testSize c + 1 + listSize body + 1) alternative ++ rest) ih (fun i hi => hbounded i (by omega))
    have hbelow : ∀ i < pos + testSize c + 1 + listSize body + 1 + listSize alternative, L.addr i <
        min (L.addr (pos + testSize c + 1 + listSize body + 1 + listSize alternative))
          block.alternativeStop :=
      fun i hi => Nat.lt_min.mpr ⟨L.addr_lt_iff.mpr hi, hhost.fits i hi⟩
    have hsecond := (listReads ih' halternative hbelow hrest).reads
      fun ins hins => (Nat.min_le_left _ _).trans (hrest ins hins).ge
    refine passes_test _ hhost.toWithin (by omega) hb.start hkids hjumps hstop ?_
    rw [List.append_assoc, List.cons_append]
    nth_rewrite 1 [← hb.stop]
    refine .choiceElse hb.kind rfl (hb.guardedLoop?_eq ?_) helse rfl hbody hsecond
    exact begins_listInstrs _ (begins_cons rfl)

/-- **Regions.**  The code of a piece is read as the regions of the piece. -/
theorem Sound.readsWell {p : Piece} (h : Sound inLoop p) : ReadsWell L inLoop p := by
  induction h using Sound.guardedInduction with
  | plain => exact readsWell_plain
  | leave => exact readsWell_leave
  | guarded _ hc' _ ih => exact readsWell_guarded hc' ih
  | choice _ hbody hloop ih => exact readsWell_choice hbody hloop ih
  | choiceElse _ hbody _ _ ih ih' => exact readsWell_choiceElse hbody ih ih'
  | loop hc _ ih => exact readsWell_loop hc ih

end Choice

/-! ### Whole streams -/

/-- A last statement has no blocks. -/
theorem listTrees_concat_plain {settled inLoop : Bool} {exit : Addr} (id pos : Nat) (init : List Piece)
    (n : Node) : listTrees L settled inLoop false exit id pos (init ++ [plain n]) =
      listTrees L settled inLoop false exit id pos init := by
  induction init generalizing id pos with
  | nil => simp [listTrees, trees]
  | cons p ps ih => rw [List.cons_append, listTrees, listTrees, Bool.false_and, Bool.false_and, ih]

/-- The pieces of a whole stream are read in the root. -/
theorem host_wholeTree {init : List Piece} {n : Node} (hinit : ∀ p ∈ init ++ [plain n], Sound false p)
    (hbound : ∀ i < listSize (init ++ [plain n]), L.addr i < Addr.last) :
    Host L (wholeTree L init n) 0 (0 + listSize (init ++ [plain n]))
      (listTrees L true false false 0 1 0 (init ++ [plain n]))
      (listJumps L false 0 0 (init ++ [plain n])) := by
  have helse : (wholeTree L init n).alternative? = none := alternative?_eq_none (List.forall_mem_nil _)
  have hlast : listSize (init ++ [plain n]) = listSize init + n.simpleCode.size := by simp [size, code]
  rw [listTrees_concat_plain, listJumps_eq_nil hinit, Nat.zero_add]
  refine ⟨within_self (wholeTree L init n) _ _, fun i hi => ?_, hbound⟩
  have hstop : (wholeTree L init n).alternativeStop =
      Addr.next (L.addr (listSize init + n.simpleCode.size - 1)) := by
    rw [Block.alternativeStop, helse]
    rfl
  rw [hstop]
  exact lt_next (L.addr_le_iff.mpr (by omega)) (hbound _ (by omega))

/-- The regions of a compiled stream are those of its pieces. -/
theorem ofStream_listInstrs {init : List Piece} {n : Node} (hinit : ∀ p ∈ init ++ [plain n], Sound false p)
    (hbound : ∀ i < listSize (init ++ [plain n]), L.addr i < Addr.last) :
    ofStream (wholeTree L init n) (listInstrs L 0 0 (init ++ [plain n])) =
      (listRegions L false false 0 0 (init ++ [plain n])).flatten := by
  have hpass : Passes (wholeTree L init n) Addr.last (listInstrs L 0 0 (init ++ [plain n]))
      (listRegions L false false 0 0 (init ++ [plain n])).flatten [] :=
    listReads (fun p hp => (hinit p hp).readsWell) (host_wholeTree hinit hbound)
      (fun i hi => hbound i (by omega)) (by simp [Begins])
  have hreads := hpass.reads (by simp)
  rw [List.append_nil] at hreads
  exact hreads.ofStream_eq

end Piece

end TorqueScript
