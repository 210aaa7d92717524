import TorqueScript.Proofs.OpenBlocks

/-!
# Which streams have a block tree

A scan either ends with a tree in order that has all blocks and all jumps, or it is refused because of two blocks
that cross (`Stream.nest_outcome`).  And the blocks are there to be nested if all jumps lead to instructions.

**Acceptance** (`Stream.analyze_outcome`).  A stream with increasing addresses has a block tree if and only if all
its jumps lead to instructions and no two of the blocks that its jumps make cross each other.
-/

namespace TorqueScript

namespace Stream

open Block

variable {instrs : List Instruction} {blocks : List Block}

/-! ### Whole streams -/

/-- The tree is in order and has the given blocks and all unconditional jumps of the stream. -/
structure Assembles (instrs : List Instruction) (blocks : List Block) (tree : Block) : Prop where
  tidy : tree.Tidy
  bare_eq : tree.bare = root instrs
  blocks_perm : (tree.preorder.map bare).Perm (root instrs :: blocks)
  jumps_perm : (tree.preorder.flatMap (·.branches)).Perm (instrs.filterMap (·.branch?))

/-- The first address of a stream is not behind the last. -/
theorem Increasing.first_le_last (h : Increasing instrs) : first instrs ≤ last instrs := by
  cases instrs with
  | nil => exact le_rfl
  | cons x rest => exact h.le_last ⟨x, List.mem_cons_self, rfl⟩

/-- **A block that is seeded lies within the stream**: it starts at an instruction and ends at or behind its start. -/
theorem Seeds.bounds (h : Increasing instrs) (hland : ∀ ins ∈ instrs, Lands instrs ins) {id : Nat}
    (hseeds : Seeds instrs instrs id blocks) {b : Block} (hb : b ∈ blocks) :
    Occurs instrs b.start ∧ b.start ≤ b.stop ∧ b.stop ≤ last instrs := by
  obtain ⟨ins, hins, hmade⟩ := hseeds.made b hb
  exact hmade.bounds h hins (hland ins hins)

/-- The root is opened before all other blocks. -/
theorem Seeds.root_opensBefore (h : Increasing instrs) (hland : ∀ ins ∈ instrs, Lands instrs ins) {id : Nat}
    (hseeds : Seeds instrs instrs id blocks) {b : Block} (hb : b ∈ blocks) : (root instrs).OpensBefore b := by
  obtain ⟨hstart, -, hstop⟩ := hseeds.bounds h hland hb
  obtain ⟨ins, -, hmade⟩ := hseeds.made b hb
  rcases Nat.lt_or_eq_of_le (h.first_le hstart) with hlt | heq
  · exact .inl hlt
  · refine .inr ⟨heq, ?_⟩
    rcases Nat.lt_or_eq_of_le hstop with hlt | heq'
    · exact .inl hlt
    · refine .inr ⟨heq', ?_⟩
      rcases hmade.kind_eq with hkind | hkind <;> rw [hkind]
      · exact (by decide : BlockKind.root.rank < BlockKind.loop.rank)
      · exact (by decide : BlockKind.root.rank < BlockKind.conditional.rank)

/-- Before the first instruction. -/
theorem Seeds.fits_start (h : Increasing instrs) (hland : ∀ ins ∈ instrs, Lands instrs ins) {id : Nat}
    (hseeds : Seeds instrs instrs id blocks) :
    (Nesting.start (root instrs) blocks).Fits (root instrs) (first instrs) := by
  have hmem : ∀ b, b ∈ (Nesting.start (root instrs) blocks).pending ↔ b ∈ blocks :=
    fun b => List.mem_mergeSort
  refine { tidy := ?_, past := ?_, awaits := List.pairwise_singleton _ _, bottom := rfl
           ahead := ?_, whole := ?_, sorted := ?_, order := ?_ }
  · exact List.forall_mem_singleton.mpr (tidy_bare (b := root instrs) h.first_le_last)
  · exact List.forall_mem_singleton.mpr ⟨le_rfl, List.forall_mem_nil _, List.forall_mem_nil _⟩
  · exact fun b hb => h.first_le (hseeds.bounds h hland ((hmem b).mp hb)).1
  · exact fun b hb => ⟨hseeds.bare b ((hmem b).mp hb), (hseeds.bounds h hland ((hmem b).mp hb)).2⟩
  · exact hseeds.pairwise_mergeSort fun b hb => (hseeds.bounds h hland hb).2.1
  · exact List.forall_mem_singleton.mpr fun b hb => hseeds.root_opensBefore h hland ((hmem b).mp hb)

/-- At the start of the scan there are the root and the blocks that were seeded. -/
theorem Seeds.inventory_start {id : Nat} (hseeds : Seeds instrs instrs id blocks) :
    (Nesting.start (root instrs) blocks).inventory.Perm (root instrs :: blocks) := by
  have hbare : blocks.map Block.bare = blocks := by
    rw [List.map_congr_left hseeds.bare, List.map_id']
  have hheld : (Nesting.start (root instrs) blocks).held = [root instrs] := by
    show [root instrs].flatMap preorder = [root instrs]
    rw [List.flatMap_singleton]
    exact preorder_bare (root instrs)
  rw [Nesting.inventory, hheld, List.map_append]
  refine List.Perm.cons _ ?_
  nth_rewrite 2 [← hbare]
  exact (List.mergeSort_perm _ _).map _

/-- **Nesting.**  The blocks of a stream are put together, or two of them cross each other. -/
theorem nest_outcome (h : Increasing instrs) (hland : ∀ ins ∈ instrs, Lands instrs ins)
    (hblocks : Stream.blocks instrs = .ok blocks) (hseeds : Seeds instrs instrs 1 blocks) :
    (∃ tree, nest instrs = .ok tree ∧ Assembles instrs blocks tree) ∨
    ∃ c ∈ blocks, ∃ b ∈ blocks, c.Crosses b ∧
      nest instrs = .error (.overlappingBlocks b.start b.stop c.stop) := by
  have hfits := hseeds.fits_start h hland
  have hstart := hseeds.inventory_start
  rw [nest, hblocks]
  show (∃ tree, (Nesting.scan _ _ >>= _) = _ ∧ _) ∨
    ∃ c ∈ blocks, ∃ b ∈ blocks, _ ∧ (Nesting.scan _ _ >>= _) = _
  rcases hfits.scan (h.first_le_last.trans (Nat.le_succ _)) h
      (fun ins hins => ⟨h.first_le ⟨ins, hins, rfl⟩, h.le_last ⟨ins, hins, rfl⟩⟩)
      (fun b hb => (hseeds.bounds h hland (List.mem_mergeSort.mp hb)).1) with
    ⟨m, hm, hfits, hnil, hperm, hjumps⟩ | ⟨e, he, c, hc, b, hb, hcross, rfl⟩
  · obtain ⟨tree, htree, htidy, hbare, hblocks, hbranches⟩ := hfits.finish hnil
    rw [hm]
    exact .inl ⟨tree, htree, htidy, hbare, hblocks.trans (hperm.trans hstart), hbranches.trans hjumps⟩
  · -- the root contains all blocks, so it is none of the two
    have hc := List.mem_cons.mp (hstart.mem_iff.mp hc)
    have hb := List.mem_cons.mp (hstart.mem_iff.mp hb)
    obtain ⟨hcb, -, hstop⟩ := id hcross
    rw [he]
    refine .inr ⟨c, hc.resolve_left ?_, b, hb.resolve_left ?_, hcross, rfl⟩
    · rintro rfl
      rcases hb with rfl | hb
      · exact Nat.lt_irrefl _ hstop
      · exact Nat.not_le.mpr hstop (hseeds.bounds h hland hb).2.2
    · rintro rfl
      rcases hc with rfl | hc
      · exact Nat.lt_irrefl _ hcb
      · exact Nat.not_le.mpr hcb (h.first_le (hseeds.bounds h hland hc).1)

/-- Two blocks of the stream cross each other. -/
def Tangled (instrs : List Instruction) : Prop :=
  ∃ kind start stop kind' start' stop', HasBlock instrs kind start stop ∧ HasBlock instrs kind' start' stop' ∧
    start < start' ∧ start' ≤ stop ∧ stop < stop'

/-- The blocks of a stream are the blocks that were seeded for it. -/
theorem Seeds.hasBlock_iff {id : Nat} (hseeds : Seeds instrs instrs id blocks) {kind : BlockKind}
    {start stop : Addr} :
    HasBlock instrs kind start stop ↔ ∃ b ∈ blocks, b.kind = kind ∧ b.start = start ∧ b.stop = stop := by
  constructor
  · rintro ⟨ins, hins, hmade⟩
    exact hseeds.all ins hins kind start stop hmade
  · rintro ⟨b, hb, rfl, rfl, rfl⟩
    exact hseeds.made b hb

/-- Blocks that are put together do not cross. -/
theorem Assembles.not_tangled {tree : Block} {id : Nat} (h : Assembles instrs blocks tree)
    (hseeds : Seeds instrs instrs id blocks) : ¬ Tangled instrs := by
  rintro ⟨kind, start, stop, kind', start', stop', hblock, hblock', hlt, hle, hlt'⟩
  have hmem : ∀ b ∈ blocks, ∃ c ∈ tree.preorder, c.start = b.start ∧ c.stop = b.stop := by
    intro b hb
    obtain ⟨c, hc, rfl⟩ := List.mem_map.mp (h.blocks_perm.mem_iff.mpr (List.mem_cons_of_mem _ hb))
    exact ⟨c, hc, rfl, rfl⟩
  obtain ⟨b, hb, -, rfl, rfl⟩ := hseeds.hasBlock_iff.mp hblock
  obtain ⟨b', hb', -, rfl, rfl⟩ := hseeds.hasBlock_iff.mp hblock'
  obtain ⟨c, hc, hstart, hstop⟩ := hmem b hb
  obtain ⟨c', hc', hstart', hstop'⟩ := hmem b' hb'
  rw [← hstart, ← hstart'] at hlt
  rw [← hstart', ← hstop] at hle
  rw [← hstop, ← hstop'] at hlt'
  have hle' := (h.tidy c hc).start_le_stop
  rcases h.tidy.surrounds_or_apart hc hc' with rfl | hcc | hcc | hcc | hcc
  · exact Nat.lt_irrefl _ hlt
  · exact Nat.not_le.mpr hlt' hcc.stop_le
  · exact Nat.not_le.mpr hlt hcc.start_le
  · exact Nat.not_le.mpr hcc hle
  · exact Nat.not_le.mpr hcc (hle'.trans hlt'.le)

/-- The messages aside, the analysis is the tree of blocks. -/
theorem outcome_analyze (instrs : List Instruction) : (analyze instrs).outcome.1 = blockTree instrs := by
  unfold analyze
  cases h : blockTree instrs with
  | ok tree => rfl
  | error e => rfl

/-- A tree that nests is classified and kept. -/
theorem blockTree_of_nest_ok {tree : Block} (h : nest instrs = .ok tree) :
    blockTree instrs = .ok (tree.classify (after? instrs) none none none).1 := by
  rw [blockTree, h]
  rfl

/-- An error in nesting is the error of the analysis. -/
theorem blockTree_of_nest_error {e : Error} (h : nest instrs = .error e) : blockTree instrs = .error e := by
  rw [blockTree, h]
  rfl

/-- The first jump that leads out of the stream stops the seeding, before a block is nested. -/
theorem nest_of_stray {front back : List Instruction} {ins : Instruction} {kind : JumpKind} {target : Addr}
    (heq : instrs = front ++ ins :: back) (hfront : ∀ x ∈ front, Lands instrs x)
    (hjump : ins.jump? = some (kind, target)) (hstray : ¬ Occurs instrs target) :
    nest instrs = .error (.branchTargetMissing ins.addr target) := by
  have hblocks := blocksFrom_eq_error hfront hjump hstray back 1
  rw [← heq] at hblocks
  rw [nest, Stream.blocks, hblocks]
  rfl

/-- **Acceptance.**  A stream with increasing addresses has a block tree just if its jumps lead to
instructions and its blocks do not cross each other.  Otherwise the error tells of the first jump that leads
nowhere, or else of a block and of the end of one that it crosses. -/
theorem analyze_outcome (h : Increasing instrs) :
    ((∃ tree, (analyze instrs).outcome.1 = .ok tree) ↔
      (∀ ins ∈ instrs, Lands instrs ins) ∧ ¬ Tangled instrs) ∧
    ((¬ ∀ ins ∈ instrs, Lands instrs ins) →
      ∃ front ins back kind target, instrs = front ++ ins :: back ∧ (∀ x ∈ front, Lands instrs x) ∧
        ins.jump? = some (kind, target) ∧ ¬ Occurs instrs target ∧
        (analyze instrs).outcome.1 = .error (.branchTargetMissing ins.addr target)) ∧
    ((∀ ins ∈ instrs, Lands instrs ins) → Tangled instrs →
      ∃ kind start stop kind' start' stop', HasBlock instrs kind start stop ∧
        HasBlock instrs kind' start' stop' ∧ start < start' ∧ start' ≤ stop ∧ stop < stop' ∧
        (analyze instrs).outcome.1 = .error (.overlappingBlocks start' stop' stop)) ∧
    ∀ openBlocks, (analyze instrs).outcome.1 ≠ .error (.unbalancedBlocks openBlocks) := by
  rw [outcome_analyze]
  by_cases hland : ∀ ins ∈ instrs, Lands instrs ins
  · obtain ⟨blocks, hblocks, hseeds⟩ := blocks_eq_ok h hland
    rcases nest_outcome h hland hblocks hseeds with ⟨tree, htree, hassembles⟩ | ⟨c, hc, b, hb, hcross, herror⟩
    · have hok := blockTree_of_nest_ok htree
      have huntangled := hassembles.not_tangled hseeds
      refine ⟨⟨fun _ => ⟨hland, huntangled⟩, fun _ => ⟨_, hok⟩⟩, absurd hland,
        fun _ => (absurd · huntangled), ?_⟩
      intro openBlocks heq
      rw [hok] at heq
      cases heq
    · have herror := blockTree_of_nest_error herror
      have hc : HasBlock instrs c.kind c.start c.stop := hseeds.hasBlock_iff.mpr ⟨c, hc, rfl, rfl, rfl⟩
      have hb : HasBlock instrs b.kind b.start b.stop := hseeds.hasBlock_iff.mpr ⟨b, hb, rfl, rfl, rfl⟩
      have htangled : Tangled instrs := ⟨_, _, _, _, _, _, hc, hb, hcross⟩
      rw [herror]
      refine ⟨⟨?_, fun hfine => absurd htangled hfine.2⟩, absurd hland, fun _ _ => ?_, ?_⟩
      · rintro ⟨tree, heq⟩
        cases heq
      · exact ⟨_, _, _, _, _, _, hc, hb, hcross.1, hcross.2.1, hcross.2.2, rfl⟩
      · intro openBlocks heq
        cases heq
  · obtain ⟨front, ins, back, heq, hfront, kind, target, hjump, hstray⟩ := exists_first_stray hland
    rw [blockTree_of_nest_error (nest_of_stray heq hfront hjump hstray)]
    refine ⟨⟨?_, fun hfine => absurd hfine.1 hland⟩, fun _ => ?_, (absurd · hland), ?_⟩
    · rintro ⟨tree, htree⟩
      cases htree
    · exact ⟨front, ins, back, kind, target, heq, hfront, hjump, hstray, rfl⟩
    · intro openBlocks herror
      cases herror

/-- Two conditional jumps; the second one lies in the block of the first and leads out of it. -/
def crossingJumps : List Instruction :=
  [⟨0, 2, .jmpIfNot, .jump .ifNot 4⟩, ⟨2, 2, .jmpIfNot, .jump .ifNot 6⟩, ⟨4, 2, .jmp, .jump .always 6⟩,
    ⟨6, 1, .ret, .ret false⟩]

/-- Two blocks that cross each other are refused and named. -/
theorem analyze_outcome_crossingJumps :
    Increasing crossingJumps ∧ (¬ ∃ tree, (analyze crossingJumps).outcome.1 = .ok tree) ∧
      ∃ start stop start' stop', start < start' ∧ start' ≤ stop ∧ stop < stop' ∧
        (analyze crossingJumps).outcome.1 = .error (.overlappingBlocks start' stop' stop) := by
  have hincreasing : Increasing crossingJumps := by
    unfold Increasing crossingJumps
    decide
  have hland : ∀ ins ∈ crossingJumps, Lands crossingJumps ins := by
    simp [crossingJumps, Lands, Occurs, Instruction.jump?]
  have hfirst : HasBlock crossingJumps .conditional 0 2 :=
    ⟨_, List.mem_cons_self, .conditional rfl rfl (by decide) ⟨[_], _, _, [_], rfl, rfl, rfl⟩⟩
  have hsecond : HasBlock crossingJumps .conditional 2 4 :=
    ⟨_, List.mem_cons_of_mem _ List.mem_cons_self,
      .conditional rfl rfl (by decide) ⟨[_, _], _, _, [], rfl, rfl, rfl⟩⟩
  have htangled : Tangled crossingJumps :=
    ⟨_, _, _, _, _, _, hfirst, hsecond, by decide, by decide, by decide⟩
  obtain ⟨haccept, -, hrefuse, -⟩ := analyze_outcome hincreasing
  obtain ⟨-, start, stop, -, start', stop', -, -, hlt, hle, hlt', herror⟩ := hrefuse hland htangled
  refine ⟨hincreasing, fun hok => (haccept.mp hok).2 htangled, ?_⟩
  exact ⟨start, stop, start', stop', hlt, hle, hlt', herror⟩

end Stream

end TorqueScript
