import TorqueScript.Proofs.Enclosure
import TorqueScript.Proofs.PieceBlocks

/-!
# Blocks made by jumps

In a stream with increasing addresses every jump that makes a block makes one range of addresses
(`Stream.MakesBlock`): back to its target, or ahead up to the instruction in front of its target.  If all
jumps lead to instructions, `Stream.blocks` lists just these ranges, numbered in the order of the jumps
(`Stream.Seeds`); otherwise the first jump that leads nowhere is refused.

Sorting puts the blocks into the order of opening.  Two blocks with the same range are a conditional
block and a loop, made by the first and the last of its instructions, so a sort that keeps the order of
equal elements puts the conditional block first (`Stream.Seeds.pairwise_mergeSort`).
-/

namespace TorqueScript

/-! ### Addresses of a stream -/

namespace Stream

variable {instrs : List Instruction}

/-- The addresses of a stream increase. -/
def Increasing (instrs : List Instruction) : Prop :=
  instrs.Pairwise (·.addr < ·.addr)

/-- An instruction of the stream has the address. -/
def Occurs (instrs : List Instruction) (addr : Addr) : Prop :=
  ∃ ins ∈ instrs, ins.addr = addr

/-- The instruction leads to another one, if it is a jump. -/
def Lands (instrs : List Instruction) (ins : Instruction) : Prop :=
  ∀ kind target, ins.jump? = some (kind, target) → Occurs instrs target

/-- The instructions at two addresses follow each other. -/
def Neighbours (instrs : List Instruction) (a b : Addr) : Prop :=
  ∃ front x y back, instrs = front ++ x :: y :: back ∧ x.addr = a ∧ y.addr = b

theorem isSome_lastIndex? {addr : Addr} : (lastIndex? addr instrs).isSome ↔ Occurs instrs addr := by
  induction instrs with
  | nil => simp [lastIndex?, Occurs]
  | cons ins rest ih =>
      rw [lastIndex?, Occurs, List.exists_mem_cons_iff, ← Occurs, ← ih]
      cases lastIndex? addr rest with
      | none => by_cases h : ins.addr = addr <;> simp [h]
      | some i => simp

theorem getElem?_lastIndex? {addr : Addr} {i : Nat} (h : lastIndex? addr instrs = some i) :
    ∃ ins, instrs[i]? = some ins ∧ ins.addr = addr := by
  induction instrs generalizing i with
  | nil => cases h
  | cons ins rest ih =>
      rw [lastIndex?] at h
      cases hrest : lastIndex? addr rest with
      | some j =>
          rw [hrest] at h
          cases h
          simpa using ih hrest
      | none =>
          rw [hrest] at h
          dsimp only at h
          split at h
          · cases h
            exact ⟨ins, rfl, ‹_›⟩
          · cases h

/-- A position is known by its address. -/
theorem Increasing.index_unique (h : Increasing instrs) {i j : Nat} {x y : Instruction}
    (hi : instrs[i]? = some x) (hj : instrs[j]? = some y) (hxy : x.addr = y.addr) : i = j := by
  obtain ⟨hilt, rfl⟩ := List.getElem?_eq_some_iff.mp hi
  obtain ⟨hjlt, rfl⟩ := List.getElem?_eq_some_iff.mp hj
  have hlt := List.pairwise_iff_getElem.mp h
  rcases Nat.lt_trichotomy i j with hij | heq | hji
  · exact absurd hxy (Nat.ne_of_lt (hlt i j hilt hjlt hij))
  · exact heq
  · exact absurd hxy (Nat.ne_of_gt (hlt j i hjlt hilt hji))

theorem Increasing.before?_of_neighbours (h : Increasing instrs) {a b : Addr} (hab : Neighbours instrs a b) :
    before? instrs b = some a := by
  obtain ⟨front, x, y, back, rfl, rfl, rfl⟩ := hab
  have hy : (front ++ x :: y :: back)[front.length + 1]? = some y := by simp
  have hsome : (lastIndex? y.addr (front ++ x :: y :: back)).isSome :=
    isSome_lastIndex?.mpr ⟨y, by simp, rfl⟩
  obtain ⟨i, hi⟩ := Option.isSome_iff_exists.mp hsome
  obtain ⟨z, hz, hzy⟩ := getElem?_lastIndex? hi
  obtain rfl := h.index_unique hz hy hzy
  rw [before?, hi]
  simp

theorem Increasing.neighbours_unique (h : Increasing instrs) {a a' b : Addr} (ha : Neighbours instrs a b)
    (ha' : Neighbours instrs a' b) : a = a' :=
  Option.some.inj ((h.before?_of_neighbours ha).symm.trans (h.before?_of_neighbours ha'))

/-- What lies before the second of two neighbours does not lie behind the first. -/
theorem Increasing.le_of_neighbours (h : Increasing instrs) {a b : Addr} (hab : Neighbours instrs a b)
    {ins : Instruction} (hins : ins ∈ instrs) (hlt : ins.addr < b) : ins.addr ≤ a := by
  obtain ⟨front, x, y, back, rfl, rfl, rfl⟩ := hab
  obtain ⟨-, hxy, hfront⟩ := List.pairwise_append.mp h
  obtain ⟨-, hback⟩ := List.pairwise_cons.mp hxy
  rcases List.mem_append.mp hins with hmem | hmem
  · exact (hfront ins hmem x List.mem_cons_self).le
  · rcases List.mem_cons.mp hmem with rfl | hmem
    · exact le_rfl
    · rcases List.mem_cons.mp hmem with rfl | hmem
      · exact absurd hlt (Nat.lt_irrefl _)
      · exact absurd ((List.pairwise_cons.mp hback).1 ins hmem) (Nat.lt_asymm hlt)

/-- What does not come first has something in front of it. -/
theorem Increasing.exists_neighbours (h : Increasing instrs) {ins : Instruction} {target : Addr}
    (hins : ins ∈ instrs) (hlt : ins.addr < target) (htarget : Occurs instrs target) :
    ∃ stop, Neighbours instrs stop target := by
  obtain ⟨y, hy, rfl⟩ := htarget
  obtain ⟨front, back, rfl⟩ := List.append_of_mem hy
  obtain ⟨-, hback, -⟩ := List.pairwise_append.mp h
  rcases List.eq_nil_or_concat front with rfl | ⟨front, x, rfl⟩
  · rcases List.mem_cons.mp hins with rfl | hmem
    · exact absurd hlt (Nat.lt_irrefl _)
    · exact absurd ((List.pairwise_cons.mp hback).1 ins hmem) (Nat.lt_asymm hlt)
  · exact ⟨x.addr, front, x, y, back, by simp, rfl, rfl⟩

theorem Neighbours.occurs {a b : Addr} (h : Neighbours instrs a b) : Occurs instrs a := by
  obtain ⟨front, x, y, back, rfl, rfl, rfl⟩ := h
  exact ⟨x, by simp, rfl⟩

theorem Increasing.le_last (h : Increasing instrs) {addr : Addr} (haddr : Occurs instrs addr) :
    addr ≤ last instrs := by
  obtain ⟨ins, hins, rfl⟩ := haddr
  rcases List.eq_nil_or_concat instrs with rfl | ⟨front, x, rfl⟩
  · cases hins
  · rw [List.concat_eq_append] at *
    obtain ⟨-, -, hfront⟩ := List.pairwise_append.mp h
    have hlast : last (front ++ [x]) = x.addr := by simp [last]
    rw [hlast]
    rcases List.mem_append.mp hins with hmem | hmem
    · exact (hfront ins hmem x List.mem_cons_self).le
    · obtain rfl := List.mem_singleton.mp hmem
      exact le_rfl

theorem Increasing.first_le (h : Increasing instrs) {addr : Addr} (haddr : Occurs instrs addr) :
    first instrs ≤ addr := by
  obtain ⟨ins, hins, rfl⟩ := haddr
  cases instrs with
  | nil => cases hins
  | cons x rest =>
      have hfirst : first (x :: rest) = x.addr := rfl
      rw [hfirst]
      rcases List.mem_cons.mp hins with rfl | hmem
      · exact le_rfl
      · exact ((List.pairwise_cons.mp h).1 ins hmem).le

/-! ### The blocks of single jumps -/

/-- A jump makes a block with the given kind, start and end. -/
inductive MakesBlock (instrs : List Instruction) (ins : Instruction) : BlockKind → Addr → Addr → Prop where
  | loop {kind : JumpKind} {target : Addr} (hjump : ins.jump? = some (kind, target))
      (hkind : kind.makesBlock) (hback : target ≤ ins.addr) : MakesBlock instrs ins .loop target ins.addr
  -- the target itself lies behind the block
  | conditional {kind : JumpKind} {target stop : Addr} (hjump : ins.jump? = some (kind, target))
      (hkind : kind.makesBlock) (hahead : ins.addr < target) (hstop : Neighbours instrs stop target) :
      MakesBlock instrs ins .conditional ins.addr stop

/-- Some jump of the stream makes a block with the given kind, start and end. -/
def HasBlock (instrs : List Instruction) (kind : BlockKind) (start stop : Addr) : Prop :=
  ∃ ins ∈ instrs, MakesBlock instrs ins kind start stop

end Stream

namespace Block

/-- The address of the jump that makes the block. -/
def jumpAddr (b : Block) : Addr :=
  if b.kind = .loop then b.stop else b.start

/-- The block is opened before another one. -/
def OpensBefore (a b : Block) : Prop :=
  a.start < b.start ∨
    a.start = b.start ∧ (b.stop < a.stop ∨ b.stop = a.stop ∧ a.kind.rank < b.kind.rank)

end Block

namespace Stream

variable {instrs : List Instruction} {ins : Instruction} {kind : BlockKind} {start stop : Addr}

theorem MakesBlock.unique (h : Increasing instrs) {kind' : BlockKind} {start' stop' : Addr}
    (hb : MakesBlock instrs ins kind start stop) (hb' : MakesBlock instrs ins kind' start' stop') :
    kind = kind' ∧ start = start' ∧ stop = stop' := by
  cases hb with
  | loop hjump _ hback =>
      cases hb' with
      | loop hjump' =>
          obtain ⟨-, rfl⟩ := Prod.mk.inj (Option.some.inj (hjump.symm.trans hjump'))
          exact ⟨rfl, rfl, rfl⟩
      | conditional hjump' _ hahead =>
          obtain ⟨-, rfl⟩ := Prod.mk.inj (Option.some.inj (hjump.symm.trans hjump'))
          exact absurd hahead (Nat.not_lt.mpr hback)
  | conditional hjump _ hahead hstop =>
      cases hb' with
      | loop hjump' _ hback =>
          obtain ⟨-, rfl⟩ := Prod.mk.inj (Option.some.inj (hjump.symm.trans hjump'))
          exact absurd hahead (Nat.not_lt.mpr hback)
      | conditional hjump' _ _ hstop' =>
          obtain ⟨-, rfl⟩ := Prod.mk.inj (Option.some.inj (hjump.symm.trans hjump'))
          exact ⟨rfl, rfl, h.neighbours_unique hstop hstop'⟩

theorem MakesBlock.jump_eq (hb : MakesBlock instrs ins kind start stop) :
    ∃ jump target, ins.jump? = some (jump, target) ∧ jump.makesBlock := by
  cases hb with
  | loop hjump hkind => exact ⟨_, _, hjump, hkind⟩
  | conditional hjump hkind => exact ⟨_, _, hjump, hkind⟩

theorem MakesBlock.kind_eq (hb : MakesBlock instrs ins kind start stop) :
    kind = .loop ∨ kind = .conditional := by
  cases hb with
  | loop => exact .inl rfl
  | conditional => exact .inr rfl

/-- A block begins and ends at instructions, and it begins before it ends. -/
theorem MakesBlock.bounds (h : Increasing instrs) (hins : ins ∈ instrs) (hland : Lands instrs ins)
    (hb : MakesBlock instrs ins kind start stop) :
    Occurs instrs start ∧ start ≤ stop ∧ stop ≤ last instrs := by
  cases hb with
  | loop hjump _ hback => exact ⟨hland _ _ hjump, hback, h.le_last ⟨ins, hins, rfl⟩⟩
  | conditional _ _ hahead hstop =>
      exact ⟨⟨ins, hins, rfl⟩, h.le_of_neighbours hstop hins hahead, h.le_last hstop.occurs⟩

theorem jumpAddr_of_makesBlock {b : Block} (hb : MakesBlock instrs ins b.kind b.start b.stop) :
    b.jumpAddr = ins.addr := by
  obtain ⟨id, kind, start, stop, branches, point, children⟩ := b
  dsimp only at hb
  cases hb <;> simp [Block.jumpAddr]

/-- The block that a jump makes is the one that is listed for it. -/
theorem blockOfJump?_eq_some (h : Increasing instrs) (hins : ins ∈ instrs) {jump : JumpKind} {target : Addr}
    (hjump : ins.jump? = some (jump, target)) (htarget : Occurs instrs target) (hkind : jump.makesBlock)
    (id : Nat) :
    ∃ b, blockOfJump? instrs id ins.addr jump target = some b ∧ b.bare = b ∧ b.id = id ∧
      MakesBlock instrs ins b.kind b.start b.stop := by
  by_cases hback : target ≤ ins.addr
  · refine ⟨.fresh id .loop target ins.addr, ?_, rfl, rfl, .loop hjump hkind hback⟩
    simp [blockOfJump?, hkind, hback]
  · have hahead := Nat.not_le.mp hback
    obtain ⟨stop, hstop⟩ := h.exists_neighbours hins hahead htarget
    refine ⟨.fresh id .conditional ins.addr stop, ?_, rfl, rfl, .conditional hjump hkind hahead hstop⟩
    simp [blockOfJump?, hkind, hback, h.before?_of_neighbours hstop]

theorem blockOfJump?_eq_none {jump : JumpKind} (hkind : jump.makesBlock = false) (id : Nat)
    (addr target : Addr) : blockOfJump? instrs id addr jump target = none := by
  simp [blockOfJump?, hkind]

/-! ### The blocks of a stream -/

/-- The blocks are those that the jumps of `rest` make, numbered from `id`. -/
structure Seeds (instrs rest : List Instruction) (id : Nat) (blocks : List Block) : Prop where
  bare : ∀ b ∈ blocks, b.bare = b
  made : ∀ b ∈ blocks, ∃ ins ∈ rest, MakesBlock instrs ins b.kind b.start b.stop
  all : ∀ ins ∈ rest, ∀ kind start stop, MakesBlock instrs ins kind start stop →
    ∃ b ∈ blocks, b.kind = kind ∧ b.start = start ∧ b.stop = stop
  numbered : blocks.map (·.id) = List.range' id blocks.length
  inOrder : blocks.Pairwise (·.jumpAddr < ·.jumpAddr)

/-- An instruction that makes no block changes nothing. -/
theorem Seeds.skip {rest : List Instruction} {id : Nat} {bs : List Block} (h : Seeds instrs rest id bs)
    (hins : ∀ kind start stop, ¬ MakesBlock instrs ins kind start stop) :
    Seeds instrs (ins :: rest) id bs where
  bare := h.bare
  made b hb := by
    obtain ⟨ins', hmem, hmade⟩ := h.made b hb
    exact ⟨ins', List.mem_cons_of_mem _ hmem, hmade⟩
  all ins' hmem kind start stop hmade := by
    rcases List.mem_cons.mp hmem with rfl | hmem
    · exact absurd hmade (hins kind start stop)
    · exact h.all ins' hmem kind start stop hmade
  numbered := h.numbered
  inOrder := h.inOrder

/-- An instruction that makes a block puts it in front of the others. -/
theorem Seeds.cons {rest : List Instruction} {id : Nat} {b : Block} {bs : List Block}
    (hinstrs : Increasing instrs) (hrest : ∀ ins' ∈ rest, ins.addr < ins'.addr)
    (h : Seeds instrs rest (id + 1) bs) (hbare : b.bare = b) (hid : b.id = id)
    (hmade : MakesBlock instrs ins b.kind b.start b.stop) : Seeds instrs (ins :: rest) id (b :: bs) where
  bare := List.forall_mem_cons.mpr ⟨hbare, h.bare⟩
  made := by
    refine List.forall_mem_cons.mpr ⟨⟨ins, List.mem_cons_self, hmade⟩, fun c hc => ?_⟩
    obtain ⟨ins', hmem, hmade⟩ := h.made c hc
    exact ⟨ins', List.mem_cons_of_mem _ hmem, hmade⟩
  all ins' hmem kind start stop hmade' := by
    rcases List.mem_cons.mp hmem with rfl | hmem
    · exact ⟨b, List.mem_cons_self, hmade.unique hinstrs hmade'⟩
    · obtain ⟨c, hc, heq⟩ := h.all ins' hmem kind start stop hmade'
      exact ⟨c, List.mem_cons_of_mem _ hc, heq⟩
  numbered := by rw [List.map_cons, h.numbered, hid, List.length_cons, List.range'_succ]
  inOrder := by
    -- the order of the jumps is that of their addresses
    refine List.pairwise_cons.mpr ⟨fun c hc => ?_, h.inOrder⟩
    obtain ⟨ins', hmem, hmade'⟩ := h.made c hc
    rw [jumpAddr_of_makesBlock hmade, jumpAddr_of_makesBlock hmade']
    exact hrest ins' hmem

theorem blocksFrom_eq_ok (h : Increasing instrs) {rest : List Instruction} (hrest : rest.Sublist instrs)
    (hland : ∀ ins ∈ rest, Lands instrs ins) (id : Nat) :
    ∃ bs, blocksFrom instrs id rest = .ok bs ∧ Seeds instrs rest id bs := by
  induction rest generalizing id with
  | nil =>
      exact ⟨[], rfl, List.forall_mem_nil _, List.forall_mem_nil _, List.forall_mem_nil _, rfl, .nil⟩
  | cons ins rest ih =>
      have hins : ins ∈ instrs := hrest.subset List.mem_cons_self
      have hlt := (List.pairwise_cons.mp (h.sublist hrest)).1
      obtain ⟨hland, hlands⟩ := List.forall_mem_cons.mp hland
      have ih := ih ((List.sublist_cons_self _ _).trans hrest) hlands
      cases hjump : ins.jump? with
      | none =>
          obtain ⟨bs, hbs, hseeds⟩ := ih id
          rw [blocksFrom, hjump]
          refine ⟨bs, hbs, hseeds.skip fun kind start stop hmade => ?_⟩
          obtain ⟨jump', target', hjump', -⟩ := hmade.jump_eq
          rw [hjump] at hjump'
          cases hjump'
      | some jump =>
          obtain ⟨jump, target⟩ := jump
          have htarget := hland jump target hjump
          have hsome : ¬ (lastIndex? target instrs).isNone := by
            rw [← Option.not_isSome, isSome_lastIndex?.mpr htarget]
            decide
          rw [blocksFrom, hjump]
          dsimp only
          rw [if_neg hsome]
          cases hkind : jump.makesBlock with
          | false =>
              obtain ⟨bs, hbs, hseeds⟩ := ih id
              rw [blockOfJump?_eq_none hkind]
              refine ⟨bs, hbs, hseeds.skip fun kind start stop hmade => ?_⟩
              obtain ⟨jump', target', hjump', hkind'⟩ := hmade.jump_eq
              rw [hjump] at hjump'
              cases hjump'
              exact absurd hkind' (Bool.eq_false_iff.mp hkind)
          | true =>
              obtain ⟨b, hb, hbare, hid, hmade⟩ := blockOfJump?_eq_some h hins hjump htarget hkind id
              obtain ⟨bs, hbs, hseeds⟩ := ih (id + 1)
              rw [hb]
              dsimp only
              rw [hbs]
              exact ⟨b :: bs, rfl, hseeds.cons h hlt hbare hid hmade⟩

/-- **Blocks of a stream.**  If all jumps lead to instructions, the blocks are listed. -/
theorem blocks_eq_ok (h : Increasing instrs) (hland : ∀ ins ∈ instrs, Lands instrs ins) :
    ∃ bs, blocks instrs = .ok bs ∧ Seeds instrs instrs 1 bs :=
  blocksFrom_eq_ok h (List.Sublist.refl _) hland 1

/-- **Stray jumps.**  The first jump that leads to no instruction is refused. -/
theorem blocksFrom_eq_error {front : List Instruction} (hfront : ∀ x ∈ front, Lands instrs x)
    {jump : JumpKind} {target : Addr} (hjump : ins.jump? = some (jump, target))
    (htarget : ¬ Occurs instrs target) (back : List Instruction) (id : Nat) :
    blocksFrom instrs id (front ++ ins :: back) = .error (.branchTargetMissing ins.addr target) := by
  induction front generalizing id with
  | nil =>
      have hnone : (lastIndex? target instrs).isNone := by
        rw [← Option.not_isSome, Bool.not_eq_true']
        exact Bool.eq_false_iff.mpr (mt isSome_lastIndex?.mp htarget)
      rw [List.nil_append, blocksFrom, hjump]
      dsimp only
      rw [if_pos hnone]
      rfl
  | cons x front ih =>
      obtain ⟨hx, hfront⟩ := List.forall_mem_cons.mp hfront
      have ih := ih hfront
      rw [List.cons_append, blocksFrom]
      cases hjump' : x.jump? with
      | none => exact ih id
      | some jump' =>
          obtain ⟨jump', target'⟩ := jump'
          have hsome : ¬ (lastIndex? target' instrs).isNone := by
            rw [← Option.not_isSome, isSome_lastIndex?.mpr (hx jump' target' hjump')]
            decide
          dsimp only
          rw [if_neg hsome]
          cases blockOfJump? instrs id x.addr jump' target' with
          | none => exact ih id
          | some b =>
              dsimp only
              rw [ih (id + 1)]
              rfl

/-- One of the jumps that lead nowhere is the first. -/
theorem exists_first_stray (h : ¬ ∀ ins ∈ instrs, Lands instrs ins) :
    ∃ front ins back, instrs = front ++ ins :: back ∧ (∀ x ∈ front, Lands instrs x) ∧
      ∃ kind target, ins.jump? = some (kind, target) ∧ ¬ Occurs instrs target := by
  classical
  obtain ⟨x, hx, hstray⟩ : ∃ x ∈ instrs, ¬ Lands instrs x := by simpa using h
  have hsome : (instrs.find? fun x => decide (¬ Lands instrs x)).isSome :=
    List.find?_isSome.mpr ⟨x, hx, decide_eq_true hstray⟩
  obtain ⟨ins, hins⟩ := Option.isSome_iff_exists.mp hsome
  obtain ⟨hins, front, back, heq, hfront⟩ := List.find?_eq_some_iff_append.mp hins
  refine ⟨front, ins, back, heq, fun y hy => by simpa using hfront y hy, ?_⟩
  have hins := of_decide_eq_true hins
  simpa [Lands] using hins

/-! ### The order of opening -/

theorem pair_sublist_of_mergeSort {bs : List Block} {a b : Block}
    (h : [a, b].Sublist (bs.mergeSort Nesting.opensFirst)) (hstart : a.start = b.start)
    (hstop : a.stop = b.stop) : [a, b].Sublist bs := by
  -- sorting leaves the blocks with one range in their order
  let p (c : Block) : Bool := c.start == a.start && c.stop == a.stop
  have hp : ∀ c, p c ↔ c.start = a.start ∧ c.stop = a.stop := fun c => by simp [p]
  have hsame : (bs.filter p).Pairwise fun c d => Nesting.opensFirst c d := by
    refine List.pairwise_of_forall_mem_list fun c hc d hd => ?_
    obtain ⟨hc₁, hc₂⟩ := (hp c).mp (List.mem_filter.mp hc).2
    obtain ⟨hd₁, hd₂⟩ := (hp d).mp (List.mem_filter.mp hd).2
    exact Piece.opensFirst_iff.mpr (.inr ⟨hc₁.trans hd₁.symm, (hd₂.trans hc₂.symm).le⟩)
  have hsorted : (bs.filter p).Sublist (bs.mergeSort Nesting.opensFirst) :=
    List.sublist_mergeSort Piece.opensFirst_trans Piece.opensFirst_total hsame List.filter_sublist
  have hfilter : bs.filter p = (bs.mergeSort Nesting.opensFirst).filter p := by
    have hsub := hsorted.filter p
    rw [List.filter_filter, List.filter_congr (fun c _ => Bool.and_self (p c))] at hsub
    exact hsub.eq_of_length ((List.mergeSort_perm bs _).filter p).length_eq.symm
  have hpair := h.filter p
  rw [← hfilter, List.filter_cons_of_pos ((hp a).mpr ⟨rfl, rfl⟩),
    List.filter_cons_of_pos ((hp b).mpr ⟨hstart.symm, hstop.symm⟩), List.filter_nil] at hpair
  exact hpair.trans List.filter_sublist

/-- Of two blocks with the same range, the one whose jump comes first is a conditional block and the other
one a loop. -/
theorem Seeds.rank_lt {rest : List Instruction} {id : Nat} {bs : List Block} (h : Seeds instrs rest id bs)
    {a b : Block} (ha : a ∈ bs) (hb : b ∈ bs) (hlt : a.jumpAddr < b.jumpAddr) (hle : a.start ≤ a.stop)
    (hstart : a.start = b.start) (hstop : b.stop = a.stop) : a.kind.rank < b.kind.rank := by
  obtain ⟨ins, -, hma⟩ := h.made a ha
  obtain ⟨ins', -, hmb⟩ := h.made b hb
  unfold Block.jumpAddr at hlt
  dsimp only [Addr] at *
  -- one jump would end both loops or begin both conditional blocks; and a loop ends with its jump
  rcases hma.kind_eq with ha | ha <;> rcases hmb.kind_eq with hb | hb <;> rw [ha, hb] at hlt
  · rw [if_pos rfl, if_pos rfl] at hlt
    omega
  · rw [if_pos rfl, if_neg (by decide)] at hlt
    omega
  · rw [ha, hb]
    decide
  · rw [if_neg (by decide), if_neg (by decide)] at hlt
    omega

/-- **Sorted blocks.** -/
theorem Seeds.pairwise_mergeSort {rest : List Instruction} {id : Nat} {bs : List Block}
    (h : Seeds instrs rest id bs) (hle : ∀ b ∈ bs, b.start ≤ b.stop) :
    (bs.mergeSort Nesting.opensFirst).Pairwise Block.OpensBefore := by
  rw [List.pairwise_iff_forall_sublist]
  intro a b hab
  have hsorted := List.pairwise_mergeSort Piece.opensFirst_trans Piece.opensFirst_total bs
  have hfirst := Piece.opensFirst_iff.mp (List.pairwise_iff_forall_sublist.mp hsorted hab)
  rcases hfirst with hlt | ⟨hstart, hstop⟩
  · exact .inl hlt
  · refine .inr ⟨hstart, ?_⟩
    rcases Nat.lt_or_eq_of_le hstop with hlt | heq
    · exact .inl hlt
    · have hsub := pair_sublist_of_mergeSort hab hstart heq.symm
      have ha : a ∈ bs := hsub.subset List.mem_cons_self
      have hb : b ∈ bs := hsub.subset (by simp)
      exact .inr ⟨heq, h.rank_lt ha hb (List.pairwise_iff_forall_sublist.mp h.inOrder hsub) (hle a ha)
        hstart heq⟩

end Stream

end TorqueScript
