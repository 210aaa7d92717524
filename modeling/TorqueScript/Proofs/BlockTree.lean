import Mathlib
import TorqueScript.Proofs.Acceptance

/-!
# The shape of a block tree

What the scan puts together is in order, and giving classes to jumps changes neither blocks nor addresses
(`Block.Recast`), so the block tree of a stream with increasing addresses is in order and has all blocks
and jumps of the stream.  `Stream.Shape` says what follows for those who use the tree: every block is
reached from the root in one way, its parent is the innermost block around it, a jump belongs to the
innermost block that contains it, and the flat views of the tree (`Block.entries`, `Block.childAt?`,
`Block.allBranches`, `Block.startingAt`) show just these blocks and jumps.
-/

namespace TorqueScript

/-- Where a jump is and where it leads. -/
def Branch.ends (j : Branch) : Addr × Addr :=
  (j.addr, j.target)

namespace Branch

/-! ### Jumps in the order of their addresses -/

/-- Inserting a jump adds it. -/
theorem insert_perm {j : Branch} {bs : List Branch} (h : ∀ c ∈ bs, c.addr ≠ j.addr) :
    (j.insert bs).Perm (j :: bs) := by
  induction bs with
  | nil => exact .refl _
  | cons c cs ih =>
      obtain ⟨hc, hcs⟩ := List.forall_mem_cons.mp h
      rw [insert]
      split
      · exact .refl _
      · rw [if_neg (Ne.symm hc)]
        exact ((ih hcs).cons c).trans (.swap j c cs)

/-- Inserting a jump keeps the order of the addresses. -/
theorem pairwise_insert {j : Branch} {bs : List Branch} (hbs : bs.Pairwise (·.addr < ·.addr))
    (h : ∀ c ∈ bs, c.addr ≠ j.addr) : (j.insert bs).Pairwise (·.addr < ·.addr) := by
  induction bs with
  | nil => exact List.pairwise_singleton _ _
  | cons c cs ih =>
      obtain ⟨hc, hcs⟩ := List.forall_mem_cons.mp h
      obtain ⟨hlt, hpairwise⟩ := List.pairwise_cons.mp hbs
      rw [insert]
      split
      · next hjc =>
          refine List.pairwise_cons.mpr ⟨List.forall_mem_cons.mpr ⟨hjc, fun d hd => ?_⟩, hbs⟩
          exact Nat.lt_trans hjc (hlt d hd)
      · next hjc =>
          rw [if_neg (Ne.symm hc)]
          refine List.pairwise_cons.mpr ⟨fun d hd => ?_, ih hpairwise hcs⟩
          rcases List.mem_cons.mp ((insert_perm hcs).mem_iff.mp hd) with rfl | hd
          · exact Nat.lt_of_le_of_ne (Nat.not_lt.mp hjc) hc
          · exact hlt d hd

/-- Jumps with different addresses are all kept. -/
theorem foldl_insert (js : List Branch) {acc : List Branch} (hacc : acc.Pairwise (·.addr < ·.addr))
    (h : (js ++ acc).Pairwise (·.addr ≠ ·.addr)) :
    (js.foldl (fun bs b => b.insert bs) acc).Perm (js ++ acc) ∧
      (js.foldl (fun bs b => b.insert bs) acc).Pairwise (·.addr < ·.addr) := by
  induction js generalizing acc with
  | nil => exact ⟨.refl _, hacc⟩
  | cons j js ih =>
      obtain ⟨hj, hrest⟩ := List.pairwise_cons.mp h
      have hfresh : ∀ c ∈ acc, c.addr ≠ j.addr := fun c hc => (hj c (List.mem_append_right _ hc)).symm
      have hperm : (js ++ j.insert acc).Perm (j :: (js ++ acc)) :=
        ((insert_perm hfresh).append_left js).trans List.perm_middle
      obtain ⟨hall, hsorted⟩ := ih (pairwise_insert hacc hfresh)
        ((hperm.pairwise_iff fun hne => hne.symm).mpr h)
      exact ⟨hall.trans hperm, hsorted⟩

end Branch

namespace Block

/-! ### Classes change neither blocks nor addresses -/

/-- The second block is the first one with other classes of jumps. -/
def Recast (b c : Block) : Prop :=
  ∃ exit frame around point, c = (b.classify exit frame around point).1

/-- Children are recast one by one. -/
theorem forall₂_classifyAll (exit : Addr → Option Addr) (frame : Option LoopFrame)
    (around point : Option Addr) (bs : List Block) :
    List.Forall₂ Recast bs (classifyAll exit frame around point bs).1 := by
  induction bs generalizing point with
  | nil => exact .nil
  | cons b bs ih => exact .cons ⟨exit, frame, around, point, rfl⟩ (ih _)

/-- Settling changes no jump but in its class. -/
theorem map_ends_settle (point : Option Addr) (js : List Branch) :
    (js.map (·.settle point)).map (·.ends) = js.map (·.ends) := by
  rw [List.map_map]
  refine List.map_congr_left fun j _ => ?_
  rw [Function.comp_apply, Branch.settle]
  split <;> rfl

theorem map_ends_kind (f : Branch → BranchKind) (js : List Branch) :
    (js.map fun j => { j with kind := f j }).map (·.ends) = js.map (·.ends) := by
  rw [List.map_map]
  rfl

/-- Everything that a change of classes keeps. -/
theorem Recast.same {b c : Block} (h : b.Recast c) :
    b.bare = c.bare ∧ b.branches.map (·.ends) = c.branches.map (·.ends) ∧
      List.Forall₂ Recast b.children c.children := by
  obtain ⟨exit, frame, around, point, rfl⟩ := h
  obtain ⟨id, kind, start, stop, branches, continuePoint, children⟩ := b
  cases kind with
  | loop =>
      -- in a loop classes are given once, elsewhere they may change when the continue point is known
      refine ⟨rfl, ?_, forall₂_classifyAll _ _ _ _ _⟩
      rw [classify]
      exact (map_ends_kind _ branches).symm
  | root | conditional =>
      refine ⟨rfl, ?_, forall₂_classifyAll _ _ _ _ _⟩
      rw [classify, map_ends_settle]
      · exact (map_ends_kind _ branches).symm
      · exact BlockKind.noConfusion

theorem Recast.map_bare_children {b c : Block} (h : b.Recast c) :
    b.children.map bare = c.children.map bare := by
  refine List.forall₂_eq_eq_eq ▸ List.forall₂_map_left_iff.mpr (List.forall₂_map_right_iff.mpr ?_)
  exact h.same.2.2.imp fun _ _ hcd => hcd.same.1

/-- **A recast block is as neat as it was.** -/
theorem Recast.neat {b c : Block} (h : b.Recast c) (hb : b.Neat) : c.Neat := by
  obtain ⟨hbare, hends, hchildren⟩ := h.same
  have hback : ∀ d ∈ c.children, ∃ e ∈ b.children, e.bare = d.bare := by
    intro d hd
    have hmem : d.bare ∈ b.children.map bare := h.map_bare_children ▸ List.mem_map_of_mem hd
    exact List.mem_map.mp hmem
  refine ⟨?_, ?_, ?_, ?_, ?_⟩
  · exact (congrArg (fun x : Block => x.start ≤ x.stop) hbare).mp hb.start_le_stop
  · intro d hd
    obtain ⟨e, he, hed⟩ := hback d hd
    exact (hb.surrounds e he).congr hbare hed
  · have hapart : (b.children.map bare).Pairwise (·.stop < ·.start) := List.pairwise_map.mpr hb.apart
    rw [h.map_bare_children] at hapart
    exact List.pairwise_map.mp hapart
  · have hsorted : (b.branches.map (·.ends)).Pairwise (·.1 < ·.1) := List.pairwise_map.mpr hb.sorted
    rw [hends, List.pairwise_map] at hsorted
    exact hsorted
  · intro j hj
    have hmem : j.ends ∈ b.branches.map (·.ends) := hends ▸ List.mem_map_of_mem hj
    obtain ⟨i, hi, hij⟩ := List.mem_map.mp hmem
    have haddr : i.addr = j.addr := congrArg Prod.fst hij
    obtain ⟨hcontains, hnot⟩ := hb.owned i hi
    refine ⟨?_, fun d hd => ?_⟩
    · rw [← contains_congr hbare, ← haddr]
      exact hcontains
    · obtain ⟨e, he, hed⟩ := hback d hd
      rw [← contains_congr hed, ← haddr]
      exact hnot e he

/-- Its blocks are recast in their order. -/
theorem Recast.preorder {b c : Block} (h : b.Recast c) : List.Forall₂ Recast b.preorder c.preorder := by
  induction b using childrenInduction generalizing c with
  | h b ih =>
      rw [preorder_eq, preorder_eq c]
      refine .cons h ?_
      -- the children of both are gone through side by side
      have hchildren := h.same.2.2
      generalize b.children = bs at ih hchildren
      generalize c.children = cs at hchildren
      induction hchildren with
      | nil => exact .nil
      | cons hbc _ ihs =>
          obtain ⟨ih, ihrest⟩ := List.forall_mem_cons.mp ih
          rw [List.flatMap_cons, List.flatMap_cons]
          exact List.rel_append (ih hbc) (ihs ihrest)

/-- What changes of classes keep of single blocks they keep of all blocks inside. -/
theorem Recast.forall_preorder {P : Block → Prop} {b c : Block} (h : b.Recast c)
    (hkeeps : ∀ b c : Block, b.Recast c → P b → P c) (hb : ∀ d ∈ b.preorder, P d) : ∀ d ∈ c.preorder, P d := by
  have hpre := h.preorder
  generalize b.preorder = bs at hb hpre
  generalize c.preorder = cs at hpre
  induction hpre with
  | nil => exact List.forall_mem_nil _
  | cons hbc _ ih =>
      obtain ⟨hb, hbs⟩ := List.forall_mem_cons.mp hb
      exact List.forall_mem_cons.mpr ⟨hkeeps _ _ hbc hb, ih hbs⟩

/-- A recast tree is as tidy as it was. -/
theorem Recast.tidy {b c : Block} (h : b.Recast c) (hb : b.Tidy) : c.Tidy :=
  h.forall_preorder (fun _ _ hbc => hbc.neat) hb

theorem Recast.map_bare_preorder {b c : Block} (h : b.Recast c) :
    b.preorder.map bare = c.preorder.map bare := by
  refine List.forall₂_eq_eq_eq ▸ List.forall₂_map_left_iff.mpr (List.forall₂_map_right_iff.mpr ?_)
  exact h.preorder.imp fun _ _ hcd => hcd.same.1

/-- It has the same jumps. -/
theorem Recast.map_ends_preorder {b c : Block} (h : b.Recast c) :
    (b.preorder.flatMap (·.branches)).map (·.ends) = (c.preorder.flatMap (·.branches)).map (·.ends) := by
  have hpre := h.preorder
  generalize b.preorder = bs at hpre
  generalize c.preorder = cs at hpre
  induction hpre with
  | nil => rfl
  | cons hbc _ ih =>
      rw [List.flatMap_cons, List.flatMap_cons, List.map_append, List.map_append, ih, hbc.same.2.1]

/-! ### Classes outside of loops -/

/-- All jumps of the block and of the blocks inside it lead over an alternative, apart from those in loops. -/
inductive Grounded : Block → Prop where
  | mk {b : Block} (branches : ∀ j ∈ b.branches, j.kind = .alternative)
      (children : ∀ c ∈ b.children, c.kind ≠ .loop → c.Grounded) : Grounded b

/-- Without a loop around, children leave no continue point behind. -/
theorem grounded_classifyAll {exit : Addr → Option Addr} {bs : List Block}
    (h : ∀ b ∈ bs, ∀ around, (b.classify exit none around none).2 = none ∧
      ((b.classify exit none around none).1.kind ≠ .loop → (b.classify exit none around none).1.Grounded))
    (around : Option Addr) : (classifyAll exit none around none bs).2 = none ∧
      ∀ c ∈ (classifyAll exit none around none bs).1, c.kind ≠ .loop → c.Grounded := by
  induction bs with
  | nil => exact ⟨rfl, nofun⟩
  | cons b bs ih =>
      obtain ⟨hb, hbs⟩ := List.forall_mem_cons.mp h
      rw [classifyAll]
      simp only [(hb around).1]
      exact ⟨(ih hbs).1, List.forall_mem_cons.mpr ⟨(hb around).2, (ih hbs).2⟩⟩

/-- Outside of loops, every jump is taken to lead over an alternative. -/
theorem grounded_classify (exit : Addr → Option Addr) (b : Block) (around : Option Addr) :
    (b.classify exit none around none).2 = none ∧
      ((b.classify exit none around none).1.kind ≠ .loop → (b.classify exit none around none).1.Grounded) := by
  induction b using childrenInduction generalizing around with
  | h b ih =>
      have hchildren := fun around => grounded_classifyAll ih around
      obtain ⟨id, kind, start, stop, branches, continuePoint, children⟩ := b
      cases kind with
      | loop =>
          rw [classify]
          exact ⟨rfl, fun h => absurd rfl h⟩
      | root | conditional =>
          have hround : firstRound? (branches.map fun j => { j with kind := BranchKind.alternative }) = none := by
            rw [firstRound?, Option.map_eq_none_iff, List.find?_eq_none]
            intro j hj
            obtain ⟨i, -, rfl⟩ := List.mem_map.mp hj
            exact Bool.false_ne_true
          rw [classify]
          · simp only [Branch.classify, hround, Option.or_none]
            refine ⟨(hchildren _).1, fun _ => .mk (fun j hj => ?_) (hchildren _).2⟩
            obtain ⟨i, hi, rfl⟩ := List.mem_map.mp hj
            obtain ⟨k, -, rfl⟩ := List.mem_map.mp hi
            rfl
          · exact BlockKind.noConfusion

/-- Without loops every jump belongs to an alternative. -/
theorem Grounded.alternative {b : Block} (h : b.Grounded) (hnoLoop : ∀ c ∈ b.preorder, c.kind ≠ .loop) :
    ∀ c ∈ b.preorder, ∀ j ∈ c.branches, j.kind = .alternative := by
  induction h with
  | @mk b hbranches _ ih =>
      intro c hc
      rcases mem_preorder.mp hc with rfl | ⟨d, hd, hc⟩
      · exact hbranches
      · exact ih d hd (hnoLoop d (mem_preorder_of_mem_children hd))
          (fun e he => hnoLoop e (mem_preorder.mpr (.inr ⟨d, hd, he⟩))) c hc

/-! ### Flat views -/

/-- An entry tells the parent of its block. -/
theorem mem_entries {b : Block} {e : Entry} {parent : Option Nat} :
    e ∈ b.entries parent ↔
      e = ⟨b, parent⟩ ∨ ∃ p ∈ b.preorder, e.block ∈ p.children ∧ e.parent = some p.id := by
  induction b using childrenInduction generalizing parent with
  | h b ih =>
      rw [entries_eq, List.mem_cons, List.mem_flatMap]
      refine or_congr_right ⟨?_, ?_⟩
      · rintro ⟨c, hc, he⟩
        rcases (ih c hc).mp he with rfl | ⟨p, hp, he⟩
        · exact ⟨b, b.self_mem_preorder, hc, rfl⟩
        · exact ⟨p, mem_preorder.mpr (.inr ⟨c, hc, hp⟩), he⟩
      · rintro ⟨p, hp, hchild, hparent⟩
        rcases mem_preorder.mp hp with rfl | ⟨c, hc, hp⟩
        · exact ⟨e.block, hchild, (ih e.block hchild).mpr (.inl (by rw [← hparent]))⟩
        · exact ⟨c, hc, (ih c hc).mpr (.inr ⟨p, hp, hchild, hparent⟩)⟩

/-- Every block but the root of a tree is a child. -/
theorem exists_parent {b c : Block} (hc : c ∈ b.preorder) (hne : c ≠ b) :
    ∃ p ∈ b.preorder, c ∈ p.children := by
  rw [← map_block_entries none, List.mem_map] at hc
  obtain ⟨e, he, rfl⟩ := hc
  rcases mem_entries.mp he with rfl | ⟨p, hp, hchild, -⟩
  · exact absurd rfl hne
  · exact ⟨p, hp, hchild⟩

namespace Tidy

variable {tree : Block}

/-- A block has one parent. -/
theorem parent_unique (h : tree.Tidy) {p q c : Block} (hp : p ∈ tree.preorder) (hpc : c ∈ p.children)
    (hq : q ∈ tree.preorder) (hqc : c ∈ q.children) : q = p := by
  rcases h.innermost hp hpc hq ((h q hq).surrounds c hqc) with heq | hqp
  · exact heq
  rcases h.innermost hq hqc hp ((h p hp).surrounds c hpc) with heq | hpq
  · exact heq.symm
  · exact absurd hqp hpq.asymm

/-- The root is no child. -/
theorem not_mem_children (h : tree.Tidy) {p : Block} (hp : p ∈ tree.preorder) : tree ∉ p.children := by
  intro hchild
  have hsurrounds := (h p hp).surrounds tree hchild
  rcases h.eq_or_surrounds p hp with rfl | htree
  · exact Surrounds.irrefl _ hsurrounds
  · exact hsurrounds.asymm htree

/-- Children of one block start at different addresses. -/
theorem child_unique (h : tree.Tidy) {b c d : Block} (hb : b ∈ tree.preorder) (hc : c ∈ b.children)
    (hd : d ∈ b.children) (heq : d.start = c.start) : d = c := by
  by_contra hne
  have hle : ∀ e ∈ b.children, e.start ≤ e.stop := fun e he =>
    (h e (mem_preorder_trans hb (mem_preorder_of_mem_children he))).start_le_stop
  have hc' := hle c hc
  have hd' := hle d hd
  rcases (h b hb).apart_of_ne hd hc hne with hlt | hlt
  · exact Nat.not_le.mpr hlt (heq ▸ hd')
  · exact Nat.not_le.mpr hlt (heq ▸ hc')

/-- A child is found at the address where it starts. -/
theorem childAt?_start (h : tree.Tidy) {b c : Block} (hb : b ∈ tree.preorder) (hc : c ∈ b.children) :
    b.childAt? c.start = some c := by
  have hsome : (b.childAt? c.start).isSome := List.find?_isSome.mpr ⟨c, hc, by simp⟩
  obtain ⟨d, hd⟩ := Option.isSome_iff_exists.mp hsome
  have hstart : d.start = c.start := by simpa using List.find?_some hd
  rw [hd, h.child_unique hb hc (List.mem_of_find?_eq_some hd) hstart]

/-- Blocks that begin at one address lie one inside the other. -/
theorem pairwise_startingAt (h : tree.Tidy) (a : Addr) : (tree.startingAt a).Pairwise Surrounds := by
  have hpairwise := (List.Pairwise.and_mem.mp h.pairwise_preorder).filter (·.start == a)
  refine (List.Pairwise.and_mem.mp hpairwise).imp fun {b c} hbc => ?_
  obtain ⟨hb, hc, hbtree, -, hbc⟩ := hbc
  have hb : b.start = a := by simpa using (List.mem_filter.mp hb).2
  have hc : c.start = a := by simpa using (List.mem_filter.mp hc).2
  rcases hbc with hsurrounds | hlt
  · exact hsurrounds
  · exact absurd (h b hbtree).start_le_stop (Nat.not_le.mpr (hb.trans hc.symm ▸ hlt))

end Tidy

/-- The blocks that start at an address are listed with the tree. -/
theorem mem_startingAt {tree b : Block} {a : Addr} :
    b ∈ tree.startingAt a ↔ b ∈ tree.preorder ∧ b.start = a := by
  rw [startingAt, List.mem_filter, beq_iff_eq]

/-- Jumps with different addresses all stand in the list of jumps. -/
theorem allBranches_perm {tree : Block}
    (h : (tree.preorder.flatMap (·.branches)).Pairwise (·.addr ≠ ·.addr)) :
    tree.allBranches.Perm (tree.preorder.flatMap (·.branches)) ∧
      tree.allBranches.Pairwise (·.addr < ·.addr) := by
  have hfold := Branch.foldl_insert (tree.preorder.flatMap (·.branches)) .nil (by rwa [List.append_nil])
  rwa [List.append_nil] at hfold

end Block

namespace Stream

open Block

variable {instrs : List Instruction} {tree : Block}

/-! ### Block trees of streams -/

/-- The shape of a block tree. -/
structure Shape (instrs : List Instruction) (tree : Block) : Prop where
  /-- The blocks of the tree are the root and those that jumps make, each of them once. -/
  blocks : ∃ made, Stream.blocks instrs = .ok made ∧ (tree.preorder.map bare).Perm (root instrs :: made)
  /-- Different blocks have different numbers. -/
  numbers : (tree.preorder.map (·.id)).Nodup
  /-- Every block but the root is a child of one block. -/
  parent : (∀ p ∈ tree.preorder, tree ∉ p.children) ∧
    ∀ c ∈ tree.preorder, c ≠ tree → ∃! p, p ∈ tree.preorder ∧ c ∈ p.children
  /-- The parents that are told of blocks are those whose children they are. -/
  links : ∀ c ∈ tree.preorder, ∀ number, ⟨c, number⟩ ∈ tree.entries none ↔
    c = tree ∧ number = none ∨ ∃ p ∈ tree.preorder, c ∈ p.children ∧ number = some p.id
  /-- Of two blocks one lies around the other, or they are apart. -/
  nested : ∀ a ∈ tree.preorder, ∀ b ∈ tree.preorder,
    a = b ∨ a.Surrounds b ∨ b.Surrounds a ∨ a.stop < b.start ∨ b.stop < a.start
  /-- The parent is the innermost block around its child. -/
  innermost : ∀ p ∈ tree.preorder, ∀ c ∈ p.children, p.Surrounds c ∧
    ∀ q ∈ tree.preorder, q.Surrounds c → q = p ∨ q.Surrounds p
  /-- Children follow each other and are apart. -/
  children : ∀ b ∈ tree.preorder, b.start ≤ b.stop ∧ b.children.Pairwise (·.stop < ·.start)
  /-- A child is the only one that begins where it does, and it is found there. -/
  childAt : ∀ b ∈ tree.preorder, ∀ c ∈ b.children, b.childAt? c.start = some c ∧
    ∀ d ∈ b.children, d.start = c.start → d = c
  /-- An unconditional jump belongs to one block, the innermost one that contains it. -/
  jumps : ∀ ins ∈ instrs, ∀ target, ins.jump? = some (.always, target) →
    ∃ b ∈ tree.preorder, (∃ j ∈ b.branches, j.addr = ins.addr ∧ j.target = target) ∧
      b.contains ins.addr ∧ (∀ c ∈ tree.preorder, c.contains ins.addr → c = b ∨ c.Surrounds b) ∧
      ∀ c ∈ tree.preorder, ∀ j ∈ c.branches, j.addr = ins.addr → c = b
  /-- Blocks own only unconditional jumps of the stream, and one at an address. -/
  branches : ∀ b ∈ tree.preorder, b.branches.Pairwise (·.addr < ·.addr) ∧
    ∀ j ∈ b.branches, ∃ ins ∈ instrs, ins.addr = j.addr ∧ ins.jump? = some (.always, j.target)
  /-- The jumps of the whole tree are those of its blocks, and one at an address. -/
  allBranches : tree.allBranches.Pairwise (·.addr < ·.addr) ∧
    ∀ j, j ∈ tree.allBranches ↔ ∃ b ∈ tree.preorder, j ∈ b.branches
  /-- The blocks that begin at an address, outer ones first. -/
  startingAt : ∀ a, (tree.startingAt a).Pairwise Surrounds ∧
    ∀ b, b ∈ tree.startingAt a ↔ b ∈ tree.preorder ∧ b.start = a

/-- The jump that an instruction may leave is unconditional. -/
theorem branch?_eq_some {ins : Instruction} {j : Branch} :
    ins.branch? = some j ↔
      ins.jump? = some (.always, j.target) ∧ j.addr = ins.addr ∧ j.kind = .alternative := by
  constructor
  · intro h
    unfold Instruction.branch? at h
    split at h
    · next target heq =>
        cases h
        exact ⟨heq, rfl, rfl⟩
    · cases h
  · obtain ⟨addr, target, kind⟩ := j
    rintro ⟨hjump, rfl, rfl⟩
    rw [Instruction.branch?, hjump]

/-- The jumps of a stream are its unconditional ones. -/
theorem mem_map_ends {a target : Addr} : (a, target) ∈ (instrs.filterMap (·.branch?)).map (·.ends) ↔
    ∃ ins ∈ instrs, ins.addr = a ∧ ins.jump? = some (.always, target) := by
  rw [List.mem_map]
  constructor
  · rintro ⟨j, hj, heq⟩
    obtain ⟨ins, hins, hbranch⟩ := List.mem_filterMap.mp hj
    obtain ⟨hjump, haddr, -⟩ := branch?_eq_some.mp hbranch
    cases heq
    exact ⟨ins, hins, haddr.symm, hjump⟩
  · rintro ⟨ins, hins, rfl, hjump⟩
    refine ⟨⟨ins.addr, target, .alternative⟩, List.mem_filterMap.mpr ⟨ins, hins, ?_⟩, rfl⟩
    exact branch?_eq_some.mpr ⟨hjump, rfl, rfl⟩

/-- They come in the order of their addresses. -/
theorem Increasing.pairwise_branches (h : Increasing instrs) :
    (instrs.filterMap (·.branch?)).Pairwise (·.addr < ·.addr) := by
  refine List.pairwise_filterMap.mpr (h.imp fun {x y} hlt j hj k hk => ?_)
  rw [(branch?_eq_some.mp hj).2.1, (branch?_eq_some.mp hk).2.1]
  exact hlt

/-- The tree is in order and has the given blocks and all unconditional jumps, whatever their classes. -/
structure Complete (instrs : List Instruction) (made : List Block) (tree : Block) : Prop where
  tidy : tree.Tidy
  blocks_perm : (tree.preorder.map bare).Perm (root instrs :: made)
  ends_perm : ((tree.preorder.flatMap (·.branches)).map (·.ends)).Perm
    ((instrs.filterMap (·.branch?)).map (·.ends))

/-- **What a scan has put together is complete**, and stays so when it is recast. -/
theorem Assembles.complete {made : List Block} {tree' : Block} (h : Assembles instrs made tree)
    (hrecast : tree.Recast tree') : Complete instrs made tree' where
  tidy := hrecast.tidy h.tidy
  blocks_perm := hrecast.map_bare_preorder ▸ h.blocks_perm
  ends_perm := hrecast.map_ends_preorder ▸ h.jumps_perm.map _

/-- The tree of a stream is what the scan puts together, with the classes of its jumps. -/
theorem assembles_of_blockTree (h : Increasing instrs) (htree : blockTree instrs = .ok tree) :
    ∃ made nested, blocks instrs = .ok made ∧ Seeds instrs instrs 1 made ∧ nest instrs = .ok nested ∧
      Assembles instrs made nested ∧ tree = (nested.classify (after? instrs) none none none).1 := by
  by_cases hland : ∀ ins ∈ instrs, Lands instrs ins
  · obtain ⟨made, hmade, hseeds⟩ := blocks_eq_ok h hland
    rcases nest_outcome h hland hmade hseeds with ⟨nested, hnested, hassembles⟩ | ⟨c, -, b, -, -, herror⟩
    · rw [blockTree_of_nest_ok hnested] at htree
      exact ⟨made, nested, hmade, hseeds, hnested, hassembles, (Except.ok.inj htree).symm⟩
    · rw [blockTree_of_nest_error herror] at htree
      cases htree
  · obtain ⟨front, ins, back, heq, hfront, kind, target, hjump, hstray⟩ := exists_first_stray hland
    rw [blockTree_of_nest_error (nest_of_stray heq hfront hjump hstray)] at htree
    cases htree

/-- The block tree of a stream has all that the jumps of the stream make. -/
theorem complete_of_blockTree (h : Increasing instrs) (htree : blockTree instrs = .ok tree) :
    ∃ made, blocks instrs = .ok made ∧ Seeds instrs instrs 1 made ∧ Complete instrs made tree := by
  obtain ⟨made, nested, hmade, hseeds, -, hassembles, rfl⟩ := assembles_of_blockTree h htree
  exact ⟨made, hmade, hseeds, hassembles.complete ⟨_, _, _, _, rfl⟩⟩

/-- The root lies outside of loops. -/
theorem grounded_of_blockTree (h : Increasing instrs) (htree : blockTree instrs = .ok tree) : tree.Grounded := by
  obtain ⟨made, nested, -, -, -, hassembles, rfl⟩ := assembles_of_blockTree h htree
  have hrecast : nested.Recast (nested.classify (after? instrs) none none none).1 := ⟨_, _, _, _, rfl⟩
  have hroot : (nested.classify (after? instrs) none none none).1.kind = .root :=
    congrArg (·.kind) (hrecast.same.1.symm.trans hassembles.bare_eq)
  exact (grounded_classify _ _ _).2 (by rw [hroot]; decide)

namespace Complete

variable {made : List Block}

/-- No two blocks have a jump at one address. -/
theorem pairwise_branches (h : Complete instrs made tree) (hinstrs : Increasing instrs) :
    (tree.preorder.flatMap (·.branches)).Pairwise (·.addr ≠ ·.addr) := by
  have hends : ((instrs.filterMap (·.branch?)).map (·.ends)).Pairwise (·.1 ≠ ·.1) :=
    List.pairwise_map.mpr (hinstrs.pairwise_branches.imp fun hlt => Nat.ne_of_lt hlt)
  have hpairwise := (h.ends_perm.pairwise_iff fun hne => hne.symm).mpr hends
  rw [List.pairwise_map] at hpairwise
  exact hpairwise

/-- The jumps of a complete tree are the unconditional jumps of its stream. -/
theorem mem_branches_iff (h : Complete instrs made tree) {a target : Addr} :
    (∃ b ∈ tree.preorder, ∃ j ∈ b.branches, j.addr = a ∧ j.target = target) ↔
      ∃ ins ∈ instrs, ins.addr = a ∧ ins.jump? = some (.always, target) := by
  rw [← mem_map_ends, ← h.ends_perm.mem_iff, List.mem_map]
  constructor
  · rintro ⟨b, hb, j, hj, rfl, rfl⟩
    exact ⟨j, List.mem_flatMap.mpr ⟨b, hb, hj⟩, rfl⟩
  · rintro ⟨j, hj, heq⟩
    obtain ⟨b, hb, hj⟩ := List.mem_flatMap.mp hj
    cases heq
    exact ⟨b, hb, j, hj, rfl, rfl⟩

/-- Every block has a number of its own. -/
theorem nodup_numbers (h : Complete instrs made tree) (hseeds : Seeds instrs instrs 1 made) :
    (tree.preorder.map (·.id)).Nodup := by
  have hperm := h.blocks_perm.map (·.id)
  rw [List.map_map] at hperm
  refine hperm.nodup_iff.mpr ?_
  rw [List.map_cons, hseeds.numbered]
  show (0 :: List.range' 1 made.length).Nodup
  exact List.nodup_cons.mpr ⟨by simp, List.nodup_range'⟩

end Complete

/-- **The block tree of a stream** with increasing addresses. -/
theorem shape_of_analyze (h : Increasing instrs) (htree : (analyze instrs).outcome.1 = .ok tree) :
    Shape instrs tree := by
  rw [outcome_analyze] at htree
  obtain ⟨made, hmade, hseeds, hcomplete⟩ := complete_of_blockTree h htree
  have htidy := hcomplete.tidy
  obtain ⟨hperm, hsorted⟩ := allBranches_perm (hcomplete.pairwise_branches h)
  refine { blocks := ⟨made, hmade, hcomplete.blocks_perm⟩, numbers := hcomplete.nodup_numbers hseeds
           parent := ⟨fun p hp => htidy.not_mem_children hp, ?_⟩, links := ?_
           nested := fun a ha b hb => htidy.surrounds_or_apart ha hb
           innermost := ?_, children := fun b hb => ⟨(htidy b hb).start_le_stop, (htidy b hb).apart⟩
           childAt := ?_, jumps := ?_, branches := ?_, allBranches := ⟨hsorted, fun j => ?_⟩
           startingAt := fun a => ⟨htidy.pairwise_startingAt a, fun b => mem_startingAt⟩ }
  · intro c hc hne
    obtain ⟨p, hp, hpc⟩ := exists_parent hc hne
    exact ⟨p, ⟨hp, hpc⟩, fun q hq => htidy.parent_unique hp hpc hq.1 hq.2⟩
  · intro c _ number
    rw [mem_entries, Block.Entry.mk.injEq]
  · intro p hp c hc
    exact ⟨(htidy p hp).surrounds c hc, fun q hq hqc => htidy.innermost hp hc hq hqc⟩
  · intro b hb c hc
    exact ⟨htidy.childAt?_start hb hc, fun d hd heq => htidy.child_unique hb hc hd heq⟩
  · intro ins hins target hjump
    obtain ⟨b, hb, j, hj, haddr, htarget⟩ := hcomplete.mem_branches_iff.mpr ⟨ins, hins, rfl, hjump⟩
    have hcontains := ((htidy b hb).owned j hj).1
    rw [haddr] at hcontains
    have hinner : ∀ c ∈ tree.preorder, c.contains ins.addr → c = b ∨ c.Surrounds b := fun c hc hca =>
      htidy.innermost_of_mem_branches hb hc hj (haddr.symm ▸ hca)
    refine ⟨b, hb, ⟨j, hj, haddr, htarget⟩, hcontains, hinner, fun c hc i hi haddr' => ?_⟩
    -- each of two owners would lie around the other
    rcases hinner c hc (haddr' ▸ ((htidy c hc).owned i hi).1) with heq | hcb
    · exact heq
    rcases htidy.innermost_of_mem_branches hc hb hi (haddr'.symm ▸ hcontains) with heq | hbc
    · exact heq.symm
    · exact absurd hcb hbc.asymm
  · intro b hb
    exact ⟨(htidy b hb).sorted, fun j hj => hcomplete.mem_branches_iff.mp ⟨b, hb, j, hj, rfl, rfl⟩⟩
  · rw [hperm.mem_iff, List.mem_flatMap]

/-- A conditional block and a loop with the same range, and a jump in them. -/
def loopInChoice : List Instruction :=
  [⟨0, 2, .jmpIfNot, .jump .ifNot 6⟩, ⟨2, 2, .jmp, .jump .always 6⟩, ⟨4, 2, .jmpIf, .jump .ifTrue 0⟩,
    ⟨6, 1, .ret, .ret false⟩]

/-- The block tree of `loopInChoice`. -/
def loopInChoiceTree : Block :=
  let loop : Block := ⟨2, .loop, 0, 4, [⟨2, 6, .leave⟩], none, []⟩
  let choice : Block := ⟨1, .conditional, 0, 4, [], none, [loop]⟩
  ⟨0, .root, 0, 6, [], none, [choice]⟩

/-- A loop within a choice has the shape that was told. -/
theorem shape_of_analyze_loopInChoice :
    Increasing loopInChoice ∧ (analyze loopInChoice).outcome.1 = .ok loopInChoiceTree ∧
      Shape loopInChoice loopInChoiceTree := by
  have hincreasing : Increasing loopInChoice := by
    unfold Increasing loopInChoice
    decide
  have htree : (analyze loopInChoice).outcome.1 = .ok loopInChoiceTree := by cbv
  exact ⟨hincreasing, htree, shape_of_analyze hincreasing htree⟩

end Stream

end TorqueScript
