import Mathlib.Data.List.Pairwise
import Mathlib.Order.Nat
import TorqueScript.Block.Classify
import TorqueScript.Region

/-!
# Blocks around blocks

A tree of blocks is in order (`Block.Tidy`) if every block lies around its children, the children of a
block follow each other without touching, and the jumps of a block lie in it but in none of its
children.  These are conditions on a block and its children only (`Block.Neat`).  What they say about
any two blocks of the tree is proved here:

* `Tidy.pairwise_preorder`: of two blocks in preorder, the first lies around the second or ends before
  it, so blocks never cross.
* `Tidy.innermost`: the parent of a block is the innermost block around it.
* `Tidy.innermost_of_mem_branches`: a jump belongs to the innermost block that contains it.

"Around" (`Block.Surrounds`) is a strict order on blocks.  Two blocks may have the same range, and then
their kinds decide.
-/

namespace TorqueScript

namespace BlockKind

/-- Of two blocks with the same range, the one of the lower rank is the outer one. -/
def rank : BlockKind → Nat
  | root => 0
  | conditional => 1
  | loop => 2

end BlockKind

namespace Block

/-! ### Preorder -/

/-- The entries of children are those of each child. -/
theorem listEntries_eq (parent : Nat) (bs : List Block) :
    listEntries parent bs = bs.flatMap (entries (some parent)) := by
  induction bs with
  | nil => rfl
  | cons b bs ih => rw [listEntries, ih, List.flatMap_cons]

/-- A block is listed before what it contains. -/
theorem entries_eq (parent : Option Nat) (b : Block) :
    b.entries parent = ⟨b, parent⟩ :: b.children.flatMap (entries (some b.id)) := by
  cases b
  rw [entries, listEntries_eq]

/-- The blocks of the entries are those in preorder. -/
theorem map_block_entries (parent : Option Nat) (b : Block) :
    (b.entries parent).map (·.block) = b.preorder := by
  rw [preorder, entries_eq, entries_eq none, List.map_cons, List.map_cons]

theorem preorder_eq (b : Block) : b.preorder = b :: b.children.flatMap preorder := by
  rw [preorder, entries_eq, List.map_cons, List.map_flatMap]
  simp only [map_block_entries]

/-- A block in preorder is the root or below a child. -/
theorem mem_preorder {b c : Block} : c ∈ b.preorder ↔ c = b ∨ ∃ d ∈ b.children, c ∈ d.preorder := by
  rw [preorder_eq, List.mem_cons, List.mem_flatMap]

theorem self_mem_preorder (b : Block) : b ∈ b.preorder :=
  mem_preorder.mpr (.inl rfl)

theorem mem_preorder_of_mem_children {b c : Block} (h : c ∈ b.children) : c ∈ b.preorder :=
  mem_preorder.mpr (.inr ⟨c, h, c.self_mem_preorder⟩)

/-- What holds of a block if it holds of its children holds of all blocks. -/
theorem childrenInduction {P : Block → Prop} (h : ∀ b, (∀ c ∈ b.children, P c) → P b) (b : Block) : P b :=
  h b fun c _ => childrenInduction h c
  termination_by sizeOf b
  decreasing_by exact sizeOf_lt_of_mem_children ‹_›

/-- What is below a block below another is below that. -/
theorem mem_preorder_trans {a b c : Block} (hab : b ∈ a.preorder) (hbc : c ∈ b.preorder) :
    c ∈ a.preorder := by
  induction a using childrenInduction with
  | h a ih =>
      rcases mem_preorder.mp hab with rfl | ⟨d, hd, hb⟩
      · exact hbc
      · exact mem_preorder.mpr (.inr ⟨d, hd, ih d hd hb⟩)

/-! ### Blocks around blocks -/

/-- The block without what is inside it. -/
def bare (b : Block) : Block :=
  .fresh b.id b.kind b.start b.stop

/-- A block lies around another one.  Of two blocks with the same range, the root lies around all others,
and a conditional block around a loop. -/
structure Surrounds (a b : Block) : Prop where
  start_le : a.start ≤ b.start
  stop_le : b.stop ≤ a.stop
  rank_lt : a.start = b.start → b.stop = a.stop → a.kind.rank < b.kind.rank

namespace Surrounds

variable {a b c : Block}

theorem irrefl (a : Block) : ¬ a.Surrounds a :=
  fun h => Nat.lt_irrefl _ (h.rank_lt rfl rfl)

theorem trans (hab : a.Surrounds b) (hbc : b.Surrounds c) : a.Surrounds c where
  start_le := hab.start_le.trans hbc.start_le
  stop_le := hbc.stop_le.trans hab.stop_le
  rank_lt hstart hstop :=
    (hab.rank_lt (le_antisymm hab.start_le (hstart ▸ hbc.start_le))
      (le_antisymm hab.stop_le (hstop ▸ hbc.stop_le))).trans
      (hbc.rank_lt (le_antisymm hbc.start_le (hstart ▸ hab.start_le))
        (le_antisymm hbc.stop_le (hstop ▸ hab.stop_le)))

/-- Blocks do not surround each other. -/
theorem asymm (hab : a.Surrounds b) : ¬ b.Surrounds a :=
  fun hba => irrefl a (hab.trans hba)

/-- What is inside of blocks does not matter. -/
theorem congr {a' b' : Block} (h : a.Surrounds b) (ha : a.bare = a'.bare) (hb : b.bare = b'.bare) :
    a'.Surrounds b' := by
  obtain ⟨-, hkind, hstart, hstop⟩ := by simpa [bare, fresh] using ha
  obtain ⟨-, hkind', hstart', hstop'⟩ := by simpa [bare, fresh] using hb
  obtain ⟨h₁, h₂, h₃⟩ := h
  rw [hstart, hstart'] at h₁
  rw [hstop, hstop'] at h₂
  rw [hstart, hstart', hstop, hstop', hkind, hkind'] at h₃
  exact ⟨h₁, h₂, h₃⟩

end Surrounds

/-- The block is in order, apart from what lies inside its children: it lies around its children, they
follow each other without touching, and the jumps it owns lie in it and in none of them. -/
structure Neat (b : Block) : Prop where
  start_le_stop : b.start ≤ b.stop
  surrounds : ∀ c ∈ b.children, b.Surrounds c
  apart : b.children.Pairwise (·.stop < ·.start)
  sorted : b.branches.Pairwise (·.addr < ·.addr)
  owned : ∀ j ∈ b.branches, b.contains j.addr ∧ ∀ c ∈ b.children, ¬ c.contains j.addr

/-- Children are apart. -/
theorem Neat.apart_of_ne {b c d : Block} (h : b.Neat) (hc : c ∈ b.children) (hd : d ∈ b.children)
    (hne : c ≠ d) : c.stop < d.start ∨ d.stop < c.start := by
  let Apart (c d : Block) : Prop := c.stop < d.start ∨ d.stop < c.start
  have : Std.Symm Apart := ⟨fun _ _ h => h.symm⟩
  exact (h.apart.imp .inl : b.children.Pairwise Apart).forall hc hd hne

/-- All blocks of a tree are in order. -/
def Tidy (tree : Block) : Prop :=
  ∀ b ∈ tree.preorder, b.Neat

theorem contains_iff {b : Block} {addr : Addr} : b.contains addr ↔ b.start ≤ addr ∧ addr ≤ b.stop := by
  rw [contains, Bool.and_eq_true, decide_eq_true_eq, decide_eq_true_eq]

/-- Where a block starts and stops decides which addresses it contains. -/
theorem contains_congr {b c : Block} (h : b.bare = c.bare) (addr : Addr) :
    b.contains addr = c.contains addr := by
  show b.bare.contains addr = c.bare.contains addr
  rw [h]

/-- A block is tidy if it is neat and its children are tidy. -/
theorem tidy_iff {b : Block} : b.Tidy ↔ b.Neat ∧ ∀ c ∈ b.children, c.Tidy := by
  constructor
  · intro h
    exact ⟨h b b.self_mem_preorder, fun c hc d hd => h d (mem_preorder.mpr (.inr ⟨c, hc, hd⟩))⟩
  · rintro ⟨hb, hchildren⟩ d hd
    rcases mem_preorder.mp hd with rfl | ⟨c, hc, hd⟩
    · exact hb
    · exact hchildren c hc d hd

namespace Tidy

variable {tree : Block}

theorem neat (h : tree.Tidy) : tree.Neat := h tree tree.self_mem_preorder

/-- Every block of a tidy tree is tidy. -/
theorem of_mem {b : Block} (h : tree.Tidy) (hb : b ∈ tree.preorder) : b.Tidy :=
  fun c hc => h c (mem_preorder_trans hb hc)

/-- A tree lies around its blocks. -/
theorem eq_or_surrounds (h : tree.Tidy) : ∀ b ∈ tree.preorder, b = tree ∨ tree.Surrounds b := by
  induction tree using childrenInduction with
  | h tree ih =>
      obtain ⟨hneat, hchildren⟩ := tidy_iff.mp h
      intro b hb
      rcases mem_preorder.mp hb with rfl | ⟨c, hc, hb⟩
      · exact .inl rfl
      · rcases ih c hc (hchildren c hc) b hb with rfl | hcb
        · exact .inr (hneat.surrounds b hc)
        · exact .inr ((hneat.surrounds c hc).trans hcb)

/-- **Every block of a tidy tree lies within its root.** -/
theorem bounds (h : tree.Tidy) {b : Block} (hb : b ∈ tree.preorder) :
    tree.start ≤ b.start ∧ b.start ≤ b.stop ∧ b.stop ≤ tree.stop := by
  have hle := (h b hb).start_le_stop
  rcases h.eq_or_surrounds b hb with rfl | hsurrounds
  · exact ⟨le_rfl, hle, le_rfl⟩
  · exact ⟨hsurrounds.start_le, hle, hsurrounds.stop_le⟩

/-- **Of two blocks in preorder** the first lies around the second or ends before it. -/
theorem pairwise_preorder (h : tree.Tidy) :
    tree.preorder.Pairwise fun a b => a.Surrounds b ∨ a.stop < b.start := by
  induction tree using childrenInduction with
  | h tree ih =>
      obtain ⟨hneat, hchildren⟩ := tidy_iff.mp h
      rw [preorder_eq, List.pairwise_cons, List.pairwise_flatMap]
      refine ⟨fun b hb => ?_, fun c hc => ih c hc (hchildren c hc), ?_⟩
      · obtain ⟨c, hc, hb⟩ := List.mem_flatMap.mp hb
        rcases (hchildren c hc).eq_or_surrounds b hb with rfl | hcb
        · exact .inl (hneat.surrounds b hc)
        · exact .inl ((hneat.surrounds c hc).trans hcb)
      · -- blocks of different children are as far apart as these
        refine hneat.apart.imp_of_mem fun {c d} hc hd hcd a ha b hb => .inr ?_
        have ha := (hchildren c hc).bounds ha
        have hb := (hchildren d hd).bounds hb
        exact (ha.2.2.trans_lt hcd).trans_le hb.1

/-- Two blocks lie one inside the other or apart. -/
theorem surrounds_or_apart (h : tree.Tidy) {a b : Block} (ha : a ∈ tree.preorder) (hb : b ∈ tree.preorder) :
    a = b ∨ a.Surrounds b ∨ b.Surrounds a ∨ a.stop < b.start ∨ b.stop < a.start := by
  by_cases hne : a = b
  · exact .inl hne
  let Placed (a b : Block) : Prop := (a.Surrounds b ∨ a.stop < b.start) ∨ (b.Surrounds a ∨ b.stop < a.start)
  have : Std.Symm Placed := ⟨fun _ _ h => h.symm⟩
  have hplaced : Placed a b := (h.pairwise_preorder.imp .inl).forall ha hb hne
  rcases hplaced with (hab | hab) | (hba | hba)
  · exact .inr (.inl hab)
  · exact .inr (.inr (.inr (.inl hab)))
  · exact .inr (.inr (.inl hba))
  · exact .inr (.inr (.inr (.inr hba)))

/-- A block inside another one is found there. -/
theorem mem_preorder_of_surrounds (h : tree.Tidy) {a b : Block} (ha : a ∈ tree.preorder)
    (hb : b ∈ tree.preorder) (hab : a.Surrounds b) : b ∈ a.preorder := by
  induction tree using childrenInduction with
  | h tree ih =>
      obtain ⟨hneat, hchildren⟩ := tidy_iff.mp h
      rcases mem_preorder.mp ha with rfl | ⟨c, hc, ha'⟩
      · exact hb
      rcases mem_preorder.mp hb with rfl | ⟨d, hd, hb'⟩
      · rcases h.eq_or_surrounds a ha with rfl | hba
        · exact absurd hab (Surrounds.irrefl a)
        · exact absurd hab hba.asymm
      by_cases hcd : c = d
      · subst hcd
        exact ih c hc (hchildren c hc) ha' hb'
      -- the two blocks would be apart
      have hac := (hchildren c hc).bounds ha'
      have hbd := (hchildren d hd).bounds hb'
      have hstart := hab.start_le
      have hstop := hab.stop_le
      have hapart := hneat.apart_of_ne hc hd hcd
      dsimp only [Addr] at *
      omega

/-- Blocks that share an address lie one inside the other. -/
theorem surrounds_of_contains (h : tree.Tidy) {a b : Block} (ha : a ∈ tree.preorder) (hb : b ∈ tree.preorder)
    {addr : Addr} (haddr : a.contains addr) (haddr' : b.contains addr) :
    a = b ∨ a.Surrounds b ∨ b.Surrounds a := by
  obtain ⟨ha₁, ha₂⟩ := contains_iff.mp haddr
  obtain ⟨hb₁, hb₂⟩ := contains_iff.mp haddr'
  rcases h.surrounds_or_apart ha hb with heq | hab | hba | hapart | hapart
  · exact .inl heq
  · exact .inr (.inl hab)
  · exact .inr (.inr hba)
  · exact absurd (hb₁.trans ha₂) (Nat.not_le.mpr hapart)
  · exact absurd (ha₁.trans hb₂) (Nat.not_le.mpr hapart)

/-- What lies inside a block lies inside one of its children. -/
theorem exists_child (h : tree.Tidy) {p q : Block} (hp : p ∈ tree.preorder) (hq : q ∈ tree.preorder)
    (hpq : p.Surrounds q) : ∃ c ∈ p.children, q = c ∨ c.Surrounds q := by
  rcases mem_preorder.mp (h.mem_preorder_of_surrounds hp hq hpq) with rfl | ⟨c, hc, hqc⟩
  · exact absurd hpq (Surrounds.irrefl q)
  · have hmem : c ∈ tree.preorder := mem_preorder_trans hp (mem_preorder_of_mem_children hc)
    exact ⟨c, hc, (h.of_mem hmem).eq_or_surrounds q hqc⟩

/-- **The parent is the innermost block around its child.** -/
theorem innermost (h : tree.Tidy) {p c q : Block} (hp : p ∈ tree.preorder) (hc : c ∈ p.children)
    (hq : q ∈ tree.preorder) (hqc : q.Surrounds c) : q = p ∨ q.Surrounds p := by
  have hpc : p.Surrounds c := (h p hp).surrounds c hc
  have hcmem : c ∈ tree.preorder := mem_preorder_trans hp (mem_preorder_of_mem_children hc)
  have hle := (h c hcmem).start_le_stop
  have hqcontains : q.contains c.start := contains_iff.mpr ⟨hqc.start_le, hle.trans hqc.stop_le⟩
  have hpcontains : p.contains c.start := contains_iff.mpr ⟨hpc.start_le, hle.trans hpc.stop_le⟩
  rcases h.surrounds_of_contains hq hp hqcontains hpcontains with heq | hqp | hpq
  · exact .inl heq
  · exact .inr hqp
  · -- between the parent and its child there is no room
    obtain ⟨d, hd, hdq⟩ := h.exists_child hp hq hpq
    have hdc : d.Surrounds c := by
      rcases hdq with rfl | hdq
      · exact hqc
      · exact hdq.trans hqc
    have hne : d ≠ c := by
      rintro rfl
      exact Surrounds.irrefl d hdc
    rcases (h p hp).apart_of_ne hd hc hne with hapart | hapart
    · exact absurd (hle.trans hdc.stop_le) (Nat.not_le.mpr hapart)
    · exact absurd (hdc.start_le.trans hle) (Nat.not_le.mpr hapart)

/-- **A jump belongs to the innermost block that contains it.** -/
theorem innermost_of_mem_branches (h : tree.Tidy) {b c : Block} (hb : b ∈ tree.preorder)
    (hc : c ∈ tree.preorder) {j : Branch} (hj : j ∈ b.branches) (hcontains : c.contains j.addr) :
    c = b ∨ c.Surrounds b := by
  obtain ⟨hbj, howned⟩ := (h b hb).owned j hj
  rcases h.surrounds_of_contains hc hb hcontains hbj with heq | hcb | hbc
  · exact .inl heq
  · exact .inr hcb
  · -- otherwise it would lie in a child
    obtain ⟨d, hd, hdc⟩ := h.exists_child hb hc hbc
    refine absurd ?_ (howned d hd)
    rcases hdc with rfl | hdc
    · exact hcontains
    · obtain ⟨hstart, hstop⟩ := contains_iff.mp hcontains
      exact contains_iff.mpr ⟨hdc.start_le.trans hstart, hstop.trans hdc.stop_le⟩

end Tidy

end Block

end TorqueScript
