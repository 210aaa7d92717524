import TorqueScript.Proofs.Framing

/-!
# What the class of a jump tells

The class of an unconditional jump is given by the block that owns it, by the nearest loop and by the conditional
block around it.  It is not kept anywhere else, so this is told for a tree from its root down.

* `Block.Classed`: the classes of all jumps are those given by their blocks, the nearest loops and the
  conditional blocks around them, except that jumps to a continue point start the next round.
* `Block.Judged.leave`, `Block.Judged.alternative`: what a class tells of the target.
-/

namespace TorqueScript

/-- The jump has the class, or it starts the next round in place of leading over an alternative. -/
def Branch.HasClass (j : Branch) (kind : BranchKind) : Prop :=
  j.kind = kind ∨ kind = .alternative ∧ j.kind = .nextRound

/-- Settling does not change what class a jump is given. -/
theorem Branch.classify_settle (kind : BlockKind) (stop : Addr) (around : Option Addr)
    (frame : Option LoopFrame) (point : Option Addr) (j : Branch) :
    (j.settle point).classify kind stop around frame = j.classify kind stop around frame := by
  rw [settle]
  split <;> rfl

theorem Branch.hasClass_settle {j : Branch} {kind : BranchKind} (point : Option Addr) (h : j.kind = kind) :
    (j.settle point).HasClass kind := by
  rw [settle]
  split
  · next hsettle => exact .inr ⟨h ▸ hsettle.1, rfl⟩
  · exact .inl h

/-- Outside of the jumps that a loop owns, leaving means to lead right behind the nearest loop. -/
theorem Branch.exit_of_leave {kind : BlockKind} {stop : Addr} {around : Option Addr} {frame : Option LoopFrame}
    {j : Branch} (hkind : kind ≠ .loop) (h : j.classify kind stop around frame = .leave) :
    ∃ inner, frame = some inner ∧ inner.exit = some j.target := by
  unfold classify at h
  split at h
  · exact absurd rfl hkind
  · cases h
  · next inner _ =>
      refine ⟨inner, rfl, ?_⟩
      by_contra hne
      rw [if_neg hne] at h
      split at h
      · cases h
      · split at h <;> cases h

namespace Block

variable {exit : Addr → Option Addr} {frame : Option LoopFrame} {around : Option Addr} {tree b c : Block}
  {j : Branch}

/-! ### Classes and what they are given by -/

/-- The nearest loop around the blocks inside the block. -/
def frameInside (exit : Addr → Option Addr) (frame : Option LoopFrame) (b : Block) : Option LoopFrame :=
  if b.kind = .loop then some ⟨exit b.stop⟩ else frame

/-- The end of the conditional block right around the blocks inside the block. -/
def stopInside (b : Block) : Option Addr :=
  if b.kind = .conditional then some b.stop else none

/-- The jumps of the block and of the blocks inside it have the classes that they are given. -/
inductive Classed (exit : Addr → Option Addr) : Option LoopFrame → Option Addr → Block → Prop where
  | mk {frame : Option LoopFrame} {around : Option Addr} {b : Block}
      (branches : ∀ j ∈ b.branches, j.HasClass (j.classify b.kind b.stop around frame))
      (children : ∀ c ∈ b.children, Classed exit (b.frameInside exit frame) b.stopInside c) :
      Classed exit frame around b

/-- Children have their classes together. -/
theorem classed_classifyAll {bs : List Block}
    (h : ∀ b ∈ bs, ∀ frame around point, (b.classify exit frame around point).1.Classed exit frame around)
    (frame : Option LoopFrame) (around point : Option Addr) :
    ∀ c ∈ (classifyAll exit frame around point bs).1, c.Classed exit frame around := by
  induction bs generalizing point with
  | nil => exact nofun
  | cons b bs ih =>
      obtain ⟨hb, hbs⟩ := List.forall_mem_cons.mp h
      exact List.forall_mem_cons.mpr ⟨hb _ _ _, ih hbs _⟩

/-- **Classifying gives all jumps their classes.** -/
theorem classed_classify (exit : Addr → Option Addr) (b : Block) (frame : Option LoopFrame)
    (around point : Option Addr) : (b.classify exit frame around point).1.Classed exit frame around := by
  induction b using childrenInduction generalizing frame around point with
  | h b ih =>
      obtain ⟨id, kind, start, stop, branches, continuePoint, children⟩ := b
      cases kind with
      | loop =>
          rw [classify]
          refine .mk (fun j hj => ?_) (classed_classifyAll ih _ _ _)
          obtain ⟨i, -, rfl⟩ := List.mem_map.mp hj
          exact .inl rfl
      | root | conditional =>
          rw [classify]
          · refine .mk (fun j hj => ?_) (classed_classifyAll ih _ _ _)
            -- a jump is given its class, and then it may be settled
            obtain ⟨i, hi, rfl⟩ := List.mem_map.mp hj
            obtain ⟨i, -, rfl⟩ := List.mem_map.mp hi
            rw [Branch.classify_settle]
            exact Branch.hasClass_settle _ rfl
          · exact BlockKind.noConfusion

/-! ### Nearest loops -/

/-- The frame tells of the nearest loop around the block. -/
def Nearest (exit : Addr → Option Addr) (tree b : Block) : Option LoopFrame → Prop
  | none => ∀ l ∈ tree.preorder, l.kind = .loop → ¬ l.Surrounds b
  | some frame => ∃ l ∈ tree.preorder, l.kind = .loop ∧ l.Surrounds b ∧ frame.exit = exit l.stop ∧
      ∀ q ∈ tree.preorder, q.kind = .loop → q.Surrounds b → q = l ∨ q.Surrounds l

/-- The loop around a child is the block, if this is a loop, or else the loop around it. -/
theorem Nearest.inside (htidy : tree.Tidy) (hb : b ∈ tree.preorder) (hc : c ∈ b.children)
    (h : Nearest exit tree b frame) : Nearest exit tree c (b.frameInside exit frame) := by
  have hbc := (htidy b hb).surrounds c hc
  rw [frameInside]
  split
  · next hloop => exact ⟨b, hb, hloop, hbc, rfl, fun q hq _ hqc => htidy.innermost hb hc hq hqc⟩
  · next hloop =>
      -- the block itself is none, so a loop around its child is one around it
      have hout : ∀ q ∈ tree.preorder, q.kind = .loop → q.Surrounds c → q.Surrounds b := by
        intro q hq hkind hqc
        rcases htidy.innermost hb hc hq hqc with rfl | hqb
        · exact absurd hkind hloop
        · exact hqb
      cases frame with
      | none => exact fun l hl hkind hlc => h l hl hkind (hout l hl hkind hlc)
      | some frame =>
          obtain ⟨l, hl, hkind, hlb, hexit, hinner⟩ := h
          exact ⟨l, hl, hkind, hlb.trans hbc, hexit, fun q hq hkind hqc => hinner q hq hkind (hout q hq hkind hqc)⟩

/-- What is known about the jumps of a block. -/
structure Judged (exit : Addr → Option Addr) (tree b : Block) (frame : Option LoopFrame)
    (around : Option Addr) : Prop where
  mem : b ∈ tree.preorder
  nearest : Nearest exit tree b frame
  classed : b.Classed exit frame around

/-- A child of a judged block is judged by the loop around it. -/
theorem Judged.child (h : Judged exit tree b frame around) (htidy : tree.Tidy) (hc : c ∈ b.children) :
    Judged exit tree c (b.frameInside exit frame) b.stopInside where
  mem := mem_preorder_trans h.mem (mem_preorder_of_mem_children hc)
  nearest := h.nearest.inside htidy h.mem hc
  classed := by
    obtain ⟨-, hchildren⟩ := h.classed
    exact hchildren c hc

/-- So is every block below. -/
theorem Judged.exists_of_mem (h : Judged exit tree b frame around) (htidy : tree.Tidy) (hc : c ∈ b.preorder) :
    ∃ frame around, Judged exit tree c frame around := by
  induction b using childrenInduction generalizing frame around with
  | h b ih =>
      rcases mem_preorder.mp hc with rfl | ⟨d, hd, hc⟩
      · exact ⟨frame, around, h⟩
      · exact ih d hd (h.child htidy hd) hc

/-- The root is judged without a loop. -/
theorem judged_root (htidy : tree.Tidy) (h : tree.Classed exit none none) : Judged exit tree tree none none where
  mem := tree.self_mem_preorder
  nearest l hl _ hsurrounds := by
    rcases htidy.eq_or_surrounds l hl with rfl | htree
    · exact Surrounds.irrefl _ hsurrounds
    · exact hsurrounds.asymm htree
  classed := h

/-- The innermost loop that contains an address. -/
structure InnermostLoop (tree l : Block) (a : Addr) : Prop where
  mem : l ∈ tree.preorder
  kind_eq : l.kind = .loop
  contains : l.contains a
  innermost : ∀ q ∈ tree.preorder, q.kind = .loop → q.contains a → q = l ∨ q.Surrounds l

/-- A loop with a jump of a block that is none lies around the block. -/
theorem surrounds_of_loop (htidy : tree.Tidy) (hb : b ∈ tree.preorder) (hkind : b.kind ≠ .loop)
    (hj : j ∈ b.branches) {q : Block} (hq : q ∈ tree.preorder) (hloop : q.kind = .loop)
    (hcontains : q.contains j.addr) : q.Surrounds b := by
  rcases htidy.innermost_of_mem_branches hb hq hj hcontains with rfl | hsurrounds
  · exact absurd hloop hkind
  · exact hsurrounds

/-- **Jumps out of a loop** leave the innermost one.  They lead right behind it, or belong to the loop itself. -/
theorem Judged.leave (h : Judged exit tree b frame around) (htidy : tree.Tidy) (hj : j ∈ b.branches)
    (hkind : j.kind = .leave) : ∃ l, tree.InnermostLoop l j.addr ∧
      (l = b ∧ l.stop < j.target ∨ exit l.stop = some j.target) := by
  obtain ⟨hclass, -⟩ := h.classed
  have hclass : j.classify b.kind b.stop around frame = .leave := by
    rcases hclass j hj with heq | ⟨-, hround⟩
    · exact heq.symm.trans hkind
    · cases hround.symm.trans hkind
  have hcontains := ((htidy b h.mem).owned j hj).1
  by_cases hloop : b.kind = .loop
  · refine ⟨b, ⟨h.mem, hloop, hcontains, fun q hq _ hqj => ?_⟩, .inl ⟨rfl, ?_⟩⟩
    · exact htidy.innermost_of_mem_branches h.mem hq hj hqj
    · rw [hloop, Branch.classify] at hclass
      split at hclass
      · cases hclass
      · next hle => exact Nat.not_le.mp hle
  · obtain ⟨inner, rfl, hexit⟩ := Branch.exit_of_leave hloop hclass
    obtain ⟨l, hl, hlkind, hlb, hexit', hinner⟩ := h.nearest
    obtain ⟨hstart, hstop⟩ := contains_iff.mp hcontains
    have hlj : l.contains j.addr := contains_iff.mpr ⟨hlb.start_le.trans hstart, hstop.trans hlb.stop_le⟩
    refine ⟨l, ⟨hl, hlkind, hlj, fun q hq hqkind hqj => ?_⟩, .inr (hexit'.symm.trans hexit)⟩
    exact hinner q hq hqkind (surrounds_of_loop htidy h.mem hloop hj hq hqkind hqj)

/-- **Jumps over an alternative** past the end of the block around the choice stand in a loop and do not lead right
behind it, or they stand in no loop. -/
theorem Judged.alternative (h : Judged exit tree b frame around) (htidy : tree.Tidy) (hc : c ∈ b.children)
    (hroot : b.kind ≠ .root) (hkind : c.kind = .conditional) (hj : j ∈ c.branches) (hclass : j.kind = .alternative)
    (hstop : b.stop < j.target) :
    b.kind = .loop ∧ exit b.stop ≠ some j.target ∨
      ∀ l ∈ tree.preorder, l.kind = .loop → ¬ l.contains j.addr := by
  have hchild := h.child htidy hc
  have hnearest := hchild.nearest
  obtain ⟨hgiven, -⟩ := hchild.classed
  have hgiven : j.classify .conditional c.stop b.stopInside (b.frameInside exit frame) = .alternative := by
    rcases hgiven j hj with heq | ⟨-, hround⟩
    · exact hkind ▸ heq.symm.trans hclass
    · cases hround.symm.trans hclass
  have hnotLoop : c.kind ≠ .loop := by rw [hkind]; decide
  cases hframe : b.frameInside exit frame with
  | none =>
      rw [hframe] at hnearest
      exact .inr fun l hl hloop hlj =>
        hnearest l hl hloop (surrounds_of_loop htidy hchild.mem hnotLoop hj hl hloop hlj)
  | some inner =>
      rw [hframe] at hgiven
      simp only [Branch.classify] at hgiven
      have hexit : inner.exit ≠ some j.target := fun heq => by simp [heq] at hgiven
      cases hb : b.kind with
      | root => exact absurd hb hroot
      | conditional =>
          -- such a jump would start the next round
          rw [stopInside, if_pos hb] at hgiven
          simp only [hexit, if_false, Option.any_some, hstop, decide_true, if_true, ite_self] at hgiven
          cases hgiven
      | loop =>
          rw [frameInside, if_pos hb] at hframe
          cases hframe
          exact .inl ⟨rfl, hexit⟩

end Block

namespace Stream

variable {instrs : List Instruction} {tree : Block}

theorem Increasing.lastIndex?_eq (h : Increasing instrs) {i : Nat} {x : Instruction} (hi : instrs[i]? = some x) :
    lastIndex? x.addr instrs = some i := by
  have hsome : (lastIndex? x.addr instrs).isSome := isSome_lastIndex?.mpr ⟨x, List.mem_of_getElem? hi, rfl⟩
  obtain ⟨j, hj⟩ := Option.isSome_iff_exists.mp hsome
  obtain ⟨y, hy, hyx⟩ := getElem?_lastIndex? hj
  rw [hj, h.index_unique hy hi hyx]

/-- In an increasing stream the address behind an instruction is that of the next one. -/
theorem Increasing.after?_eq (h : Increasing instrs) {i : Nat} {x : Instruction} (hi : instrs[i]? = some x) :
    after? instrs x.addr = (instrs[i + 1]?).map (·.addr) := by
  rw [after?, h.lastIndex?_eq hi]

theorem Increasing.lt_of_after? (h : Increasing instrs) {a b : Addr} (hab : after? instrs a = some b) : a < b := by
  rw [after?] at hab
  split at hab
  · next i hi =>
      obtain ⟨x, hx, rfl⟩ := getElem?_lastIndex? hi
      obtain ⟨y, hy, rfl⟩ := Option.map_eq_some_iff.mp hab
      exact h.addr_lt hx hy (Nat.lt_succ_self i)
  · cases hab

/-- In a stream with a block tree every jump leads to an instruction. -/
theorem lands_of_blockTree (htree : blockTree instrs = .ok tree) : ∀ ins ∈ instrs, Lands instrs ins := by
  by_contra hland
  obtain ⟨front, ins, back, heq, hfront, kind, target, hjump, hstray⟩ := exists_first_stray hland
  rw [blockTree_of_nest_error (nest_of_stray heq hfront hjump hstray)] at htree
  cases htree

/-- A block but the root ends at an instruction. -/
theorem MakesBlock.occurs_stop {ins : Instruction} {kind : BlockKind} {start stop : Addr} (hins : ins ∈ instrs)
    (h : MakesBlock instrs ins kind start stop) : Occurs instrs stop := by
  cases h with
  | loop => exact ⟨ins, hins, rfl⟩
  | conditional _ _ _ hstop => exact hstop.occurs

end Stream

end TorqueScript
