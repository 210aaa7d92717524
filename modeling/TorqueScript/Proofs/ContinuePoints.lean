import TorqueScript.Proofs.JumpTargets

/-!
# Classes of jumps and continue points

The jumps of a block belong to a loop (`Block.OwnerLoop`): to the block itself if it is one, and otherwise to
the nearest loop that is met on the way from parent to parent.  Giving classes to jumps hands the continue
point of this loop from block to block, and each block may set it or use it.

What comes of this does not depend on when a class was given.  The blocks whose jumps belong to a loop are
those reached from it without passing another one (`Block.domain`), and the continue point that is handed
on is the target of the first jump to the next round among the jumps of these blocks, as they are classed in
the end (`Block.point_classify`, `Block.continuePoint_of_classify`).  A jump that is counted as one to the
next round only because it leads to the continue point makes no difference to this
(`Block.firstRound?_settle`).

**Classes** (`Stream.classes_of_analyze`).  Outside of loops jumps lead over alternatives; in a loop the
target decides; in the blocks inside of it a jump leaves if and only if it leads right behind the loop, and
only at the end of a block can it lead over an alternative.  A loop has a continue point if and only if a
jump to its next round belongs to it, and then it is the target of the first of them.
-/

namespace TorqueScript

namespace Block

variable {exit : Addr → Option Addr} {frame : Option LoopFrame} {around point : Option Addr}
  {tree b c l : Block} {j : Branch}

/-! ### Loops and the blocks that belong to them -/

/-- The nearest loop around a block, on the way from parent to parent. -/
inductive LoopAround (tree : Block) : Block → Block → Prop where
  | parent {b p : Block} (hp : p ∈ tree.preorder) (hb : b ∈ p.children) (hkind : p.kind = .loop) :
      LoopAround tree b p
  | above {b p l : Block} (hp : p ∈ tree.preorder) (hb : b ∈ p.children) (hkind : p.kind ≠ .loop)
      (h : LoopAround tree p l) : LoopAround tree b l

/-- The loop that the jumps of a block belong to. -/
def OwnerLoop (tree b l : Block) : Prop :=
  b.kind = .loop ∧ l = b ∨ b.kind ≠ .loop ∧ tree.LoopAround b l

mutual

/-- The block and the blocks inside it, each before those inside it, apart from loops and what they contain. -/
def domain : Block → List Block
  | ⟨_, .loop, _, _, _, _, _⟩ => []
  | b@⟨_, _, _, _, _, _, children⟩ => b :: listDomain children

/-- The blocks of a list of children that are not in loops. -/
def listDomain : List Block → List Block
  | [] => []
  | b :: bs => domain b ++ listDomain bs

end

theorem listDomain_eq (bs : List Block) : listDomain bs = bs.flatMap domain := by
  induction bs with
  | nil => rfl
  | cons b bs ih => rw [listDomain, ih, List.flatMap_cons]

/-- A loop does not belong to the loop around it, and neither does what it contains. -/
theorem domain_of_loop (h : b.kind = .loop) : b.domain = [] := by
  cases b
  subst h
  rfl

/-- Any other block belongs to the loop around it, with all that belongs there inside it. -/
theorem domain_of_ne_loop (h : b.kind ≠ .loop) : b.domain = b :: b.children.flatMap domain := by
  obtain ⟨id, kind, start, stop, branches, continuePoint, children⟩ := b
  rw [domain, listDomain_eq]
  exact h

/-- A block belongs where its parent does, unless it is a loop. -/
theorem mem_domain : c ∈ b.domain ↔ b.kind ≠ .loop ∧ (c = b ∨ ∃ d ∈ b.children, c ∈ d.domain) := by
  by_cases h : b.kind = .loop
  · simp [domain_of_loop h, h]
  · simp [domain_of_ne_loop h, h]

/-- The blocks that belong to a loop are listed in the order of the tree. -/
theorem domain_sublist (b : Block) : b.domain.Sublist b.preorder := by
  induction b using childrenInduction with
  | h b ih =>
      by_cases h : b.kind = .loop
      · rw [domain_of_loop h]
        exact List.nil_sublist _
      · rw [domain_of_ne_loop h, preorder_eq]
        exact (List.Sublist.flatMap_right _ ih).cons_cons b

theorem preorder_sublist (h : b ∈ tree.preorder) : b.preorder.Sublist tree.preorder := by
  induction tree using childrenInduction with
  | h tree ih =>
      rcases mem_preorder.mp h with rfl | ⟨c, hc, hb⟩
      · exact .refl _
      · rw [preorder_eq tree, List.flatMap_def]
        exact .cons _ ((ih c hc hb).trans (List.sublist_flatten_of_mem (List.mem_map_of_mem hc)))

namespace LoopAround

/-- The loop around a block is a loop of the tree. -/
theorem mem (h : tree.LoopAround b l) : l ∈ tree.preorder ∧ l.kind = .loop := by
  induction h with
  | parent hp _ hkind => exact ⟨hp, hkind⟩
  | above _ _ _ _ ih => exact ih

/-- It surrounds the block. -/
theorem surrounds (htidy : tree.Tidy) (h : tree.LoopAround b l) : l.Surrounds b := by
  induction h with
  | parent hp hb _ => exact (htidy _ hp).surrounds _ hb
  | above hp hb _ _ ih => exact ih.trans ((htidy _ hp).surrounds _ hb)

/-- **It is the innermost of those that do.** -/
theorem innermost (htidy : tree.Tidy) (h : tree.LoopAround b l) {q : Block} (hq : q ∈ tree.preorder)
    (hloop : q.kind = .loop) (hqb : q.Surrounds b) : q = l ∨ q.Surrounds l := by
  induction h with
  | parent hp hb _ => exact htidy.innermost hp hb hq hqb
  | above hp hb hkind _ ih =>
      rcases htidy.innermost hp hb hq hqb with rfl | hqp
      · exact absurd hloop hkind
      · exact ih hqp

/-- A block has one loop around it at most. -/
theorem unique (htidy : tree.Tidy) (h : tree.LoopAround b l) (h' : tree.LoopAround b c) : l = c := by
  rcases h'.innermost htidy h.mem.1 h.mem.2 (h.surrounds htidy) with heq | hlc
  · exact heq
  rcases h.innermost htidy h'.mem.1 h'.mem.2 (h'.surrounds htidy) with heq | hcl
  · exact heq.symm
  · exact absurd hlc hcl.asymm

end LoopAround

/-- And one loop that owns its jumps. -/
theorem OwnerLoop.unique (htidy : tree.Tidy) (h : tree.OwnerLoop b l) (h' : tree.OwnerLoop b c) : l = c := by
  rcases h with ⟨hkind, rfl⟩ | ⟨hkind, h⟩
  · rcases h' with ⟨-, rfl⟩ | ⟨hne, -⟩
    · rfl
    · exact absurd hkind hne
  · rcases h' with ⟨heq, -⟩ | ⟨-, h'⟩
    · exact absurd heq hkind
    · exact h.unique htidy h'

/-- What belongs where a block does has the same loop around it. -/
theorem loopAround_of_mem_domain (hb : b ∈ tree.preorder) (h : tree.LoopAround b l) (hc : c ∈ b.domain) :
    c ∈ tree.preorder ∧ c.kind ≠ .loop ∧ tree.LoopAround c l := by
  induction b using childrenInduction with
  | h b ih =>
      obtain ⟨hkind, rfl | ⟨d, hd, hc⟩⟩ := mem_domain.mp hc
      · exact ⟨hb, hkind, h⟩
      · have hmem : d ∈ tree.preorder := mem_preorder_trans hb (mem_preorder_of_mem_children hd)
        exact ih d hd hmem (.above hb hd hkind h) hc

/-- The child of a block that belongs to a loop belongs to it too. -/
theorem mem_domain_of_child {p : Block} (hp : p ∈ b.domain) (hc : c ∈ p.children) (hkind : c.kind ≠ .loop) :
    c ∈ b.domain := by
  induction b using childrenInduction with
  | h b ih =>
      obtain ⟨hb, rfl | ⟨d, hd, hp⟩⟩ := mem_domain.mp hp
      · exact mem_domain.mpr ⟨hb, .inr ⟨c, hc, mem_domain.mpr ⟨hkind, .inl rfl⟩⟩⟩
      · exact mem_domain.mpr ⟨hb, .inr ⟨d, hd, ih d hd hp⟩⟩

/-- A block belongs to the loop around it. -/
theorem LoopAround.mem_domain (h : tree.LoopAround b l) (hkind : b.kind ≠ .loop) :
    ∃ d ∈ l.children, b ∈ d.domain := by
  induction h with
  | @parent b _ _ hb _ => exact ⟨b, hb, Block.mem_domain.mpr ⟨hkind, .inl rfl⟩⟩
  | above _ hb hp _ ih =>
      obtain ⟨d, hd, hmem⟩ := ih hp
      exact ⟨d, hd, mem_domain_of_child hmem hb hkind⟩

/-- The blocks whose jumps belong to a loop, each before those inside it. -/
def served (l : Block) : List Block :=
  l :: l.children.flatMap domain

/-- **The blocks of a loop** are those reached from it without passing another one. -/
theorem mem_served (hl : l ∈ tree.preorder) (hkind : l.kind = .loop) :
    b ∈ l.served ↔ b ∈ tree.preorder ∧ tree.OwnerLoop b l := by
  rw [served, List.mem_cons, List.mem_flatMap]
  constructor
  · rintro (rfl | ⟨d, hd, hb⟩)
    · exact ⟨hl, .inl ⟨hkind, rfl⟩⟩
    · have hmem : d ∈ tree.preorder := mem_preorder_trans hl (mem_preorder_of_mem_children hd)
      obtain ⟨hb, hne, haround⟩ := loopAround_of_mem_domain hmem (.parent hl hd hkind) hb
      exact ⟨hb, .inr ⟨hne, haround⟩⟩
  · rintro ⟨-, ⟨-, rfl⟩ | ⟨hne, haround⟩⟩
    · exact .inl rfl
    · exact .inr (haround.mem_domain hne)

/-- The blocks that a loop serves are blocks of the tree, in its order. -/
theorem served_sublist (hl : l ∈ tree.preorder) : l.served.Sublist tree.preorder := by
  refine List.Sublist.trans ?_ (preorder_sublist hl)
  rw [served, preorder_eq]
  exact (List.Sublist.flatMap_right _ fun d _ => d.domain_sublist).cons_cons l

/-! ### Continue points -/

/-- The first round jump of two lists is that of the first, or else that of the second. -/
theorem firstRound?_append (bs cs : List Branch) :
    firstRound? (bs ++ cs) = (firstRound? bs).or (firstRound? cs) := by
  rw [firstRound?, List.find?_append, Option.map_or]
  rfl

/-- Jumps that lead to the continue point do not change it. -/
theorem firstRound?_settle (bs : List Branch) :
    firstRound? (bs.map (·.settle (firstRound? bs))) = firstRound? bs := by
  -- up to the first jump to the next round, what is settled leads where that one leads
  suffices h : ∀ point, (∀ p, point = some p → firstRound? bs = some p) →
      (point = none → firstRound? bs = none) → firstRound? (bs.map (·.settle point)) = firstRound? bs from
    h _ (fun _ hp => hp) fun hnone => hnone
  intro point hsome hnone
  cases point with
  | none =>
      have hsettle : ∀ i : Branch, i.settle none = i := fun i => if_neg (by simp)
      simp only [hsettle, List.map_id']
  | some p =>
      have hfirst := hsome p rfl
      clear hsome hnone
      induction bs with
      | nil => rfl
      | cons i bs ih =>
          by_cases hround : i.kind = .nextRound
          · have hsettle : i.settle (some p) = i := if_neg (by simp [hround])
            rw [List.map_cons, hsettle]
            simp [firstRound?, hround]
          · have hrest : firstRound? (i :: bs) = firstRound? bs := by simp [firstRound?, hround]
            rw [hrest] at hfirst ⊢
            by_cases hsettled : i.kind = .alternative ∧ some p = some i.target
            · rw [List.map_cons, Branch.settle, if_pos hsettled, hfirst, hsettled.2]
              simp [firstRound?]
            · rw [List.map_cons, Branch.settle, if_neg hsettled, ← ih hfirst]
              simp [firstRound?, hround]

/-- All jumps of blocks. -/
def jumpsOf (bs : List Block) : List Branch :=
  bs.flatMap (·.branches)

/-- The first round jump of several blocks is that of the first block, or else of the rest. -/
theorem firstRound?_cons (b : Block) (bs : List Block) :
    firstRound? (jumpsOf (b :: bs)) = (firstRound? b.branches).or (firstRound? (jumpsOf bs)) := by
  rw [jumpsOf, List.flatMap_cons, firstRound?_append]
  rfl

theorem jumpsOf_append (bs cs : List Block) : jumpsOf (bs ++ cs) = jumpsOf bs ++ jumpsOf cs :=
  List.flatMap_append

/-- Children that leave the first of their round jumps behind do so together. -/
theorem point_classifyAll {bs : List Block}
    (h : ∀ b ∈ bs, ∀ frame around point, (b.classify exit frame around point).2 =
      point.or (firstRound? (jumpsOf (b.classify exit frame around point).1.domain)))
    (frame : Option LoopFrame) (around point : Option Addr) :
    (classifyAll exit frame around point bs).2 =
      point.or (firstRound? (jumpsOf ((classifyAll exit frame around point bs).1.flatMap domain))) := by
  induction bs generalizing point with
  | nil => exact (Option.or_none).symm
  | cons b bs ih =>
      obtain ⟨hb, hbs⟩ := List.forall_mem_cons.mp h
      rw [classifyAll]
      simp only [List.flatMap_cons, jumpsOf_append, firstRound?_append, ← Option.or_assoc, ← hb]
      exact ih hbs _

/-- **The continue point** that is handed on is the one that was known, or the target of the first jump to the
next round in the block and in the blocks inside it that are in no other loop. -/
theorem point_classify (exit : Addr → Option Addr) (b : Block) (frame : Option LoopFrame)
    (around point : Option Addr) : (b.classify exit frame around point).2 =
      point.or (firstRound? (jumpsOf (b.classify exit frame around point).1.domain)) := by
  induction b using childrenInduction generalizing frame around point with
  | h b ih =>
      have hchildren := fun frame around point => point_classifyAll ih frame around point
      obtain ⟨id, kind, start, stop, branches, continuePoint, children⟩ := b
      cases kind with
      | loop =>
          rw [classify, domain_of_loop rfl]
          exact (Option.or_none).symm
      | root | conditional =>
          rw [classify, domain_of_ne_loop BlockKind.noConfusion, firstRound?_cons, ← Option.or_assoc]
          · refine (hchildren _ _ _).trans (congrArg (Option.or · _) ?_)
            dsimp only
            cases point with
            | some p => rfl
            | none => exact (firstRound?_settle _).symm
          · exact BlockKind.noConfusion

/-- The continue points of loops below are those of their own jumps. -/
theorem continuePoint_of_classifyAll {bs : List Block}
    (h : ∀ b ∈ bs, ∀ frame around point, ∀ l ∈ (b.classify exit frame around point).1.preorder,
      l.kind = .loop → l.continuePoint = firstRound? (jumpsOf l.served))
    (frame : Option LoopFrame) (around point : Option Addr) :
    ∀ c ∈ (classifyAll exit frame around point bs).1, ∀ l ∈ c.preorder, l.kind = .loop →
      l.continuePoint = firstRound? (jumpsOf l.served) := by
  induction bs generalizing point with
  | nil => exact nofun
  | cons b bs ih =>
      obtain ⟨hb, hbs⟩ := List.forall_mem_cons.mp h
      exact List.forall_mem_cons.mpr ⟨hb _ _ _, ih hbs _⟩

/-- The continue point of a loop is the target of the first jump to its next round. -/
theorem continuePoint_of_classify (exit : Addr → Option Addr) (b : Block) (frame : Option LoopFrame)
    (around point : Option Addr) : ∀ l ∈ (b.classify exit frame around point).1.preorder,
      l.kind = .loop → l.continuePoint = firstRound? (jumpsOf l.served) := by
  induction b using childrenInduction generalizing frame around point with
  | h b ih =>
      intro l hl hkind
      rcases mem_preorder.mp hl with rfl | ⟨c, hc, hlc⟩
      · obtain ⟨id, kind, start, stop, branches, continuePoint, children⟩ := b
        cases kind with
        | loop =>
            rw [classify, served, firstRound?_cons]
            exact point_classifyAll (fun c _ => point_classify exit c) _ _ _
        | root | conditional => cases hkind
      · clear hl
        obtain ⟨id, kind, start, stop, branches, continuePoint, children⟩ := b
        cases kind with
        | loop =>
            rw [classify] at hc
            exact continuePoint_of_classifyAll ih _ _ _ c hc l hlc hkind
        | root | conditional =>
            rw [classify] at hc
            · exact continuePoint_of_classifyAll ih _ _ _ c hc l hlc hkind
            · exact BlockKind.noConfusion

/-- A jump to the next round of a loop, and the block that owns it. -/
structure RoundJump (tree l b : Block) (j : Branch) : Prop where
  mem : b ∈ tree.preorder
  owner : tree.OwnerLoop b l
  branch : j ∈ b.branches
  kind_eq : j.kind = .nextRound

/-- The first of the jumps to the next round of a loop, by the blocks of the tree in preorder and by the
addresses in a block. -/
structure FirstRoundJump (tree l b : Block) (j : Branch) : Prop extends RoundJump tree l b j where
  first : ∀ c i, RoundJump tree l c i → c = b ∧ j.addr ≤ i.addr ∨ [b, c].Sublist tree.preorder

/-- A round jump of a loop is a jump of its own class in a block that it serves. -/
theorem roundJump_iff (hl : l ∈ tree.preorder) (hkind : l.kind = .loop) :
    RoundJump tree l b j ↔ b ∈ l.served ∧ j ∈ b.branches ∧ j.kind = .nextRound := by
  rw [mem_served hl hkind]
  exact ⟨fun h => ⟨⟨h.mem, h.owner⟩, h.branch, h.kind_eq⟩, fun ⟨⟨hb, howner⟩, hj, hround⟩ => ⟨hb, howner, hj, hround⟩⟩

/-- A loop has a first round jump exactly if it has one at all. -/
theorem isSome_firstRound?_served (hl : l ∈ tree.preorder) (hkind : l.kind = .loop) :
    (firstRound? (jumpsOf l.served)).isSome ↔ ∃ b j, RoundJump tree l b j := by
  rw [firstRound?, Option.isSome_map, List.find?_isSome]
  constructor
  · rintro ⟨j, hj, hround⟩
    obtain ⟨b, hb, hj⟩ := List.mem_flatMap.mp hj
    exact ⟨b, j, (roundJump_iff hl hkind).mpr ⟨hb, hj, eq_of_beq hround⟩⟩
  · rintro ⟨b, j, h⟩
    obtain ⟨hb, hj, hround⟩ := (roundJump_iff hl hkind).mp h
    exact ⟨j, List.mem_flatMap.mpr ⟨b, hb, hj⟩, beq_iff_eq.mpr hround⟩

/-- What is found first comes before all other jumps to the next round. -/
theorem exists_firstRoundJump (htidy : tree.Tidy) (hl : l ∈ tree.preorder) (hkind : l.kind = .loop) {p : Addr}
    (h : firstRound? (jumpsOf l.served) = some p) : ∃ b j, FirstRoundJump tree l b j ∧ j.target = p := by
  obtain ⟨j, hfind, rfl⟩ := Option.map_eq_some_iff.mp h
  rw [jumpsOf, List.find?_flatMap, List.findSome?_eq_some_iff] at hfind
  obtain ⟨front, b, back, hserved, hfind, hfront⟩ := hfind
  obtain ⟨hround, before, behind, hbranches, hbefore⟩ := List.find?_eq_some_iff_append.mp hfind
  have hb : b ∈ l.served := hserved ▸ List.mem_append_right _ List.mem_cons_self
  have hj : j ∈ b.branches := hbranches ▸ List.mem_append_right _ List.mem_cons_self
  have hjump := (roundJump_iff hl hkind).mpr ⟨hb, hj, eq_of_beq hround⟩
  refine ⟨b, j, ⟨hjump, fun c i hi => ?_⟩, rfl⟩
  obtain ⟨hc, hi, hiround⟩ := (roundJump_iff hl hkind).mp hi
  rw [hserved, List.mem_append, List.mem_cons] at hc
  rcases hc with hc | rfl | hc
  · exact absurd (beq_iff_eq.mpr hiround) (List.find?_eq_none.mp (hfront c hc) i hi)
  · have hsorted := (htidy c hjump.mem).sorted
    rw [hbranches, List.pairwise_append, List.pairwise_cons] at hsorted
    rw [hbranches, List.mem_append, List.mem_cons] at hi
    rcases hi with hi | rfl | hi
    · exact absurd (beq_iff_eq.mpr hiround) (by simpa using hbefore i hi)
    · exact .inl ⟨rfl, le_rfl⟩
    · exact .inl ⟨rfl, (hsorted.2.1.1 i hi).le⟩
  · refine .inr (List.Sublist.trans ?_ (served_sublist hl))
    rw [hserved]
    exact ((List.singleton_sublist.mpr hc).cons_cons b).trans (List.sublist_append_right front _)

/-! ### Classes by loops -/

/-- Outside of loops all jumps lead over alternatives, and so a block with another jump is in a loop. -/
theorem grounded_or_loopAround {top : Block} (htop : top ∈ tree.preorder)
    (h : top.kind ≠ .loop → top.Grounded ∨ ∃ l, tree.LoopAround top l) (hb : b ∈ top.preorder)
    (hkind : b.kind ≠ .loop) : b.Grounded ∨ ∃ l, tree.LoopAround b l := by
  induction top using childrenInduction with
  | h top ih =>
      rcases mem_preorder.mp hb with rfl | ⟨c, hc, hb⟩
      · exact h hkind
      refine ih c hc (mem_preorder_trans htop (mem_preorder_of_mem_children hc)) (fun hnotLoop => ?_) hb
      by_cases hloop : top.kind = .loop
      · exact .inr ⟨top, .parent htop hc hloop⟩
      rcases h hloop with hgrounded | ⟨l, hl⟩
      · obtain ⟨-, hchildren⟩ := hgrounded
        exact .inl (hchildren c hc hnotLoop)
      · exact .inr ⟨l, .above htop hc hloop hl⟩

/-- A jump in the head of a loop goes round if it leads back. -/
theorem Judged.kind_of_loop (h : Judged exit tree b frame around) (hkind : b.kind = .loop) (hj : j ∈ b.branches) :
    j.kind = if j.target ≤ b.stop then .nextRound else .leave := by
  obtain ⟨hclass, -⟩ := h.classed
  rw [hkind] at hclass
  rcases hclass j hj with heq | ⟨halternative, -⟩
  · exact heq
  · rw [Branch.classify] at halternative
    split at halternative <;> cases halternative

/-- The frame of a block inside of a loop is the one of the nearest loop around it. -/
theorem Nearest.frame_eq (h : Nearest exit tree b frame) (htidy : tree.Tidy) (hl : tree.LoopAround b l) :
    frame = some ⟨exit l.stop⟩ := by
  cases frame with
  | none => exact absurd (hl.surrounds htidy) (h l hl.mem.1 hl.mem.2)
  | some inner =>
      obtain ⟨q, hq, hloop, hqb, hexit, hinner⟩ := h
      obtain rfl : l = q := by
        rcases hinner l hl.mem.1 hl.mem.2 (hl.surrounds htidy) with heq | hlq
        · exact heq
        rcases hl.innermost htidy hq hloop hqb with heq | hql
        · exact heq.symm
        · exact absurd hlq hql.asymm
      rw [← hexit]

/-- **Inside a loop a jump leaves exactly if it leads behind the loop.** -/
theorem Judged.kind_inside (h : Judged exit tree b frame around) (htidy : tree.Tidy) (hkind : b.kind ≠ .loop)
    (hl : tree.LoopAround b l) (hj : j ∈ b.branches) :
    (j.kind = .leave ↔ exit l.stop = some j.target) ∧ (j.kind = .alternative → j.addr = b.stop) := by
  obtain ⟨hclass, -⟩ := h.classed
  have hclass := hclass j hj
  rw [h.nearest.frame_eq htidy hl] at hclass
  have hstop := (contains_iff.mp ((htidy b h.mem).owned j hj).1).2
  -- what the class of a jump depends on, with the loop known
  have hgiven : j.classify b.kind b.stop around (some ⟨exit l.stop⟩) =
      if exit l.stop = some j.target then .leave
      else if j.addr < b.stop then .nextRound
      else if around.any (· < j.target) then .nextRound
      else .alternative := by
    cases hb : b.kind with
    | loop => exact absurd hb hkind
    | root | conditional => rfl
  rw [hgiven] at hclass
  by_cases hexit : exit l.stop = some j.target
  · rw [if_pos hexit] at hclass
    rcases hclass with heq | ⟨hne, -⟩
    · exact ⟨iff_of_true heq hexit, fun halternative => by cases heq.symm.trans halternative⟩
    · cases hne
  · rw [if_neg hexit] at hclass
    by_cases hbefore : j.addr < b.stop
    · rw [if_pos hbefore] at hclass
      rcases hclass with heq | ⟨hne, -⟩
      · exact ⟨iff_of_false (by simp [heq]) hexit, fun halternative => by cases heq.symm.trans halternative⟩
      · cases hne
    · refine ⟨iff_of_false (fun hleave => ?_) hexit, fun _ => le_antisymm hstop (Nat.not_lt.mp hbefore)⟩
      rw [if_neg hbefore] at hclass
      rcases hclass with heq | ⟨-, heq⟩
      · rw [hleave] at heq
        split at heq <;> cases heq
      · cases hleave.symm.trans heq

end Block

namespace Stream

open Block

variable {instrs : List Instruction} {tree : Block}

/-- The classes of the jumps in a block tree, by the loops that they belong to. -/
structure Classes (instrs : List Instruction) (tree : Block) : Prop where
  /-- The jumps of a block belong to one loop at most. -/
  owner : ∀ b l l', tree.OwnerLoop b l → tree.OwnerLoop b l' → l = l'
  outside : ∀ b ∈ tree.preorder, (¬ ∃ l, tree.OwnerLoop b l) → ∀ j ∈ b.branches, j.kind = .alternative
  own : ∀ b ∈ tree.preorder, b.kind = .loop → ∀ j ∈ b.branches,
    j.kind = if j.target ≤ b.stop then .nextRound else .leave
  inside : ∀ b ∈ tree.preorder, b.kind ≠ .loop → ∀ l, tree.OwnerLoop b l → ∀ j ∈ b.branches,
    (j.kind = .leave ↔ after? instrs l.stop = some j.target) ∧ (j.kind = .alternative → j.addr = b.stop)
  /-- A loop has a continue point if a jump leads to its next round, and then it is where the first one leads. -/
  point : ∀ l ∈ tree.preorder, l.kind = .loop →
    (l.continuePoint.isSome ↔ ∃ b j, RoundJump tree l b j) ∧
    ∀ p, l.continuePoint = some p → ∃ b j, FirstRoundJump tree l b j ∧ j.target = p

/-- **Classes of jumps** in the block tree of a stream with increasing addresses. -/
theorem classes_of_analyze (h : Increasing instrs) (htree : (analyze instrs).outcome.1 = .ok tree) :
    Classes instrs tree := by
  rw [outcome_analyze] at htree
  obtain ⟨htidy, hroot⟩ := judged_of_blockTree h htree
  have hgrounded := grounded_of_blockTree h htree
  obtain ⟨made, nested, -, -, -, -, heq⟩ := assembles_of_blockTree h htree
  refine { owner := fun b l l' hl hl' => hl.unique htidy hl', outside := ?_, own := ?_, inside := ?_, point := ?_ }
  · intro b hb hnone
    have hkind : b.kind ≠ .loop := fun hloop => hnone ⟨b, .inl ⟨hloop, rfl⟩⟩
    rcases grounded_or_loopAround tree.self_mem_preorder (fun _ => .inl hgrounded) hb hkind with hb | ⟨l, hl⟩
    · obtain ⟨hbranches, -⟩ := hb
      exact hbranches
    · exact absurd ⟨l, .inr ⟨hkind, hl⟩⟩ hnone
  · intro b hb hkind j hj
    obtain ⟨frame, around, hjudged⟩ := hroot.exists_of_mem htidy hb
    exact hjudged.kind_of_loop hkind hj
  · rintro b hb hkind l (⟨hloop, -⟩ | ⟨-, hl⟩) j hj
    · exact absurd hloop hkind
    · obtain ⟨frame, around, hjudged⟩ := hroot.exists_of_mem htidy hb
      exact hjudged.kind_inside htidy hkind hl hj
  · intro l hl hkind
    have hpoint : l.continuePoint = firstRound? (jumpsOf l.served) :=
      continuePoint_of_classify (after? instrs) nested none none none l (heq ▸ hl) hkind
    rw [hpoint]
    exact ⟨isSome_firstRound?_served hl hkind, fun p hp => exists_firstRoundJump htidy hl hkind hp⟩

/-- `do { if (1) { continue; continue; } if (1) break; } while (1);`, where the first jump to the next round makes
the second one another, and a jump behind the loop. -/
def roundsAndBreak : List Instruction :=
  [⟨0, 1, .jmpIfNot, .jump .ifNot 3⟩, ⟨1, 1, .jmp, .jump .always 6⟩, ⟨2, 1, .jmp, .jump .always 6⟩,
    ⟨3, 1, .jmpIfNot, .jump .ifNot 6⟩, ⟨4, 1, .loadImmedUint, .immediateUint 1⟩, ⟨5, 1, .jmp, .jump .always 8⟩,
    ⟨6, 1, .loadImmedUint, .immediateUint 1⟩, ⟨7, 1, .jmpIf, .jump .ifTrue 0⟩, ⟨8, 1, .jmp, .jump .always 9⟩,
    ⟨9, 1, .ret, .ret false⟩]

/-- The block tree of `roundsAndBreak`. -/
def roundsAndBreakTree : Block :=
  let rounds : Block := ⟨1, .conditional, 0, 2, [⟨1, 6, .nextRound⟩, ⟨2, 6, .nextRound⟩], none, []⟩
  let leaving : Block := ⟨2, .conditional, 3, 5, [⟨5, 8, .leave⟩], none, []⟩
  ⟨0, .root, 0, 9, [⟨8, 9, .alternative⟩], none, [⟨3, .loop, 0, 7, [], some 6, [rounds, leaving]⟩]⟩

/-- A loop with two round jumps and a break is given all classes. -/
theorem classes_of_analyze_roundsAndBreak :
    Increasing roundsAndBreak ∧ (analyze roundsAndBreak).outcome.1 = .ok roundsAndBreakTree ∧
      Classes roundsAndBreak roundsAndBreakTree := by
  have hincreasing : Increasing roundsAndBreak := by
    unfold Increasing roundsAndBreak
    decide
  have htree : (analyze roundsAndBreak).outcome.1 = .ok roundsAndBreakTree := by cbv
  exact ⟨hincreasing, htree, classes_of_analyze hincreasing htree⟩

end Stream

end TorqueScript
