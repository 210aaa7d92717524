import TorqueScript.Decompile
import TorqueScript.Proofs.JumpBlocks

/-!
# Open blocks during a scan

Of a block that is opened, the scan looks at the innermost open block only.  That is enough because of what holds
at every address (`Nesting.Fits`): the open blocks lie one around the other, what was put into them ends
before that address, and the blocks to come are opened later than all of them.

Closing a block, opening one and recording a jump each keep this (`Fits.adopt`, `Fits.opened`,
`Fits.record`), or the block to be opened crosses the innermost open one.  None of them loses a block or
a jump: up to the order, the blocks in sight are the same all the time (`Nesting.inventory`), and the
jumps in sight are those of the instructions scanned (`Nesting.jumps`).
-/

namespace TorqueScript

namespace Block

/-! ### Putting blocks and jumps inside -/

@[simp] theorem bare_adopt (p c : Block) : (p.adopt c).bare = p.bare := rfl
@[simp] theorem bare_own (b : Block) (j : Branch) : (b.own j).bare = b.bare := rfl
@[simp] theorem children_adopt (p c : Block) : (p.adopt c).children = p.children ++ [c] := rfl

/-- An adopted block comes last in its parent. -/
theorem preorder_adopt (p c : Block) :
    (p.adopt c).preorder = p.adopt c :: (p.children.flatMap preorder ++ c.preorder) := by
  rw [preorder_eq, children_adopt, List.flatMap_append, List.flatMap_singleton]

/-- A jump that is recorded changes the head of the order alone. -/
theorem preorder_own (b : Block) (j : Branch) :
    (b.own j).preorder = b.own j :: b.children.flatMap preorder :=
  preorder_eq _

/-- A block without its contents comes alone. -/
theorem preorder_bare (b : Block) : b.bare.preorder = [b.bare] :=
  preorder_eq _

/-- A block with nothing inside is in order. -/
theorem tidy_bare {b : Block} (h : b.start ≤ b.stop) : b.bare.Tidy := by
  rw [tidy_iff]
  exact ⟨⟨h, List.forall_mem_nil _, .nil, .nil, List.forall_mem_nil _⟩, List.forall_mem_nil _⟩

/-- What is inside the block lies before an address. -/
structure Past (a : Addr) (b : Block) : Prop where
  start_le : b.start ≤ a
  children_lt : ∀ c ∈ b.children, c.stop < a
  branches_lt : ∀ j ∈ b.branches, j.addr < a

/-- A block that has ended has ended at every later address. -/
theorem Past.mono {a a' : Addr} {b : Block} (h : b.Past a) (ha : a ≤ a') : b.Past a' :=
  ⟨h.start_le.trans ha, fun c hc => (h.children_lt c hc).trans_le ha,
    fun j hj => (h.branches_lt j hj).trans_le ha⟩

/-- The block lies around another one, and what is inside it lies before that one. -/
structure Awaits (p c : Block) : Prop where
  surrounds : p.Surrounds c
  children_lt : ∀ d ∈ p.children, d.stop < c.start
  branches_lt : ∀ j ∈ p.branches, j.addr < c.start

/-- What a block awaits is decided by where the other starts and stops. -/
theorem Awaits.congr {p c c' : Block} (h : p.Awaits c) (hc : c.bare = c'.bare) : p.Awaits c' := by
  have hstart : c.bare.start = c'.bare.start := congrArg start hc
  exact ⟨h.surrounds.congr rfl hc, hstart ▸ h.children_lt, hstart ▸ h.branches_lt⟩

/-- **Adopting an awaited block keeps a block tidy.** -/
theorem Tidy.adopt {p c : Block} (hp : p.Tidy) (hc : c.Tidy) (hpc : p.Awaits c) : (p.adopt c).Tidy := by
  obtain ⟨hneat, hchildren⟩ := tidy_iff.mp hp
  refine tidy_iff.mpr ⟨⟨hneat.start_le_stop, ?_, ?_, hneat.sorted, ?_⟩, ?_⟩
  · intro d hd
    rcases List.mem_append.mp hd with hd | hd
    · exact (hneat.surrounds d hd).congr rfl rfl
    · obtain rfl := List.mem_singleton.mp hd
      exact hpc.surrounds.congr rfl rfl
  · refine List.pairwise_append.mpr ⟨hneat.apart, List.pairwise_singleton _ _, fun d hd e he => ?_⟩
    obtain rfl := List.mem_singleton.mp he
    exact hpc.children_lt d hd
  · intro j hj
    obtain ⟨hcontains, hnot⟩ := hneat.owned j hj
    refine ⟨hcontains, fun d hd => ?_⟩
    rcases List.mem_append.mp hd with hd | hd
    · exact hnot d hd
    · obtain rfl := List.mem_singleton.mp hd
      rw [contains_iff]
      exact fun h => Nat.not_le.mpr (hpc.branches_lt j hj) h.1
  · intro d hd
    rcases List.mem_append.mp hd with hd | hd
    · exact hchildren d hd
    · obtain rfl := List.mem_singleton.mp hd
      exact hc

/-- So does recording a jump that comes after its contents. -/
theorem Tidy.own {b : Block} {j : Branch} (hb : b.Tidy) (hpast : b.Past j.addr) (hstop : j.addr ≤ b.stop) :
    (b.own j).Tidy := by
  obtain ⟨hneat, hchildren⟩ := tidy_iff.mp hb
  rw [own_eq_grow hpast.branches_lt]
  have hsame : (b.grow [] [j]).children = b.children := List.append_nil _
  refine tidy_iff.mpr ⟨⟨hneat.start_le_stop, ?_, ?_, ?_, ?_⟩, ?_⟩
  · intro d hd
    exact (hneat.surrounds d (hsame ▸ hd)).congr rfl rfl
  · rw [hsame]
    exact hneat.apart
  · refine List.pairwise_append.mpr ⟨hneat.sorted, List.pairwise_singleton _ _, fun i hi k hk => ?_⟩
    obtain rfl := List.mem_singleton.mp hk
    exact hpast.branches_lt i hi
  · intro i hi
    rw [hsame]
    rcases List.mem_append.mp hi with hi | hi
    · exact hneat.owned i hi
    · obtain rfl := List.mem_singleton.mp hi
      refine ⟨contains_iff.mpr ⟨hpast.start_le, hstop⟩, fun d hd => ?_⟩
      rw [contains_iff]
      exact fun h => Nat.not_le.mpr (hpast.children_lt d hd) h.2
  · rw [hsame]
    exact hchildren

/-- The second block begins in the first one and outlasts it. -/
def Crosses (a b : Block) : Prop :=
  a.start < b.start ∧ b.start ≤ a.stop ∧ a.stop < b.stop

end Block

namespace Instruction

/-- An unconditional jump, its class being open. -/
def branch? (ins : Instruction) : Option Branch :=
  match ins.jump? with
  | some (.always, target) => some ⟨ins.addr, target, .alternative⟩
  | _ => none

end Instruction

namespace Nesting

open Block

/-! ### What holds during a scan -/

/-- The open blocks, inner ones first. -/
def stack (n : Nesting) : List Block :=
  n.top :: n.outer

/-- The open blocks and what is inside them. -/
def held (n : Nesting) : List Block :=
  n.stack.flatMap preorder

/-- All blocks, those to come included. -/
def inventory (n : Nesting) : List Block :=
  (n.held ++ n.pending).map bare

/-- All jumps that were recorded. -/
def jumps (n : Nesting) : List Branch :=
  n.held.flatMap (·.branches)

/-- The scan is at an address: open blocks lie one around the other, the last of them is the root, and
what is inside them lies before the address; blocks to come lie behind it. -/
structure Fits (root : Block) (a : Addr) (n : Nesting) : Prop where
  tidy : ∀ b ∈ n.stack, b.Tidy
  past : ∀ b ∈ n.stack, b.Past a
  awaits : n.stack.Pairwise fun inner outer => outer.Awaits inner
  bottom : (n.stack.map bare).getLast? = some root
  ahead : ∀ b ∈ n.pending, a ≤ b.start
  whole : ∀ b ∈ n.pending, b.bare = b ∧ b.start ≤ b.stop ∧ b.stop ≤ root.stop
  sorted : n.pending.Pairwise OpensBefore
  order : ∀ b ∈ n.stack, ∀ c ∈ n.pending, b.OpensBefore c

/-- A refusal tells of two blocks that cross each other. -/
def Refuses (n : Nesting) (e : Error) : Prop :=
  ∃ c ∈ n.inventory, ∃ b ∈ n.inventory, c.Crosses b ∧ e = .overlappingBlocks b.start b.stop c.stop

/-- An error depends on which blocks there are, not on their order. -/
theorem Refuses.of_perm {n m : Nesting} {e : Error} (h : m.Refuses e) (hperm : m.inventory.Perm n.inventory) :
    n.Refuses e := by
  obtain ⟨c, hc, b, hb, hcross⟩ := h
  exact ⟨c, hperm.mem_iff.mp hc, b, hperm.mem_iff.mp hb, hcross⟩

section

variable {root top next parent : Block} {outer pending : List Block} {a a' : Addr} {n : Nesting}

/-- An invariant at an address holds at every later one up to the next block. -/
theorem Fits.move (h : Fits root a n) (hle : a ≤ a') (hahead : ∀ b ∈ n.pending, a' ≤ b.start) :
    Fits root a' n :=
  { h with
    past := fun b hb => (h.past b hb).mono hle
    ahead := hahead }

/-- Every open block ends within the root. -/
theorem Fits.stop_le (h : Fits root a n) {b : Block} (hb : b ∈ n.stack) : b.stop ≤ root.stop := by
  have hbottom := h.bottom
  have hawaits := h.awaits
  generalize n.stack = stack at hb hbottom hawaits
  rcases List.eq_nil_or_concat stack with rfl | ⟨front, x, rfl⟩
  · cases hb
  · rw [List.concat_eq_append] at *
    rw [List.map_append, List.map_singleton, List.getLast?_append_cons, List.getLast?_singleton,
      Option.some_inj] at hbottom
    rcases List.mem_append.mp hb with hb | hb
    · have := (List.pairwise_append.mp hawaits).2.2 b hb x List.mem_cons_self
      exact hbottom ▸ this.surrounds.stop_le
    · obtain rfl := List.mem_singleton.mp hb
      exact hbottom ▸ le_rfl

/-! ### Closing -/

/-- The state with all blocks closed that end before an address. -/
def close (a : Addr) (n : Nesting) : Nesting where
  top := (closeBefore a n.top n.outer).1
  outer := (closeBefore a n.top n.outer).2
  pending := n.pending

/-- What holds of a state holds of what closing makes of it, if closing one block keeps it. -/
theorem close_induction {P : Nesting → Prop} {a : Addr}
    (hstep : ∀ top parent outer pending, top.stop < a → P ⟨top, parent :: outer, pending⟩ →
      P ⟨parent.adopt top, outer, pending⟩) (h : P n) : P (n.close a) := by
  obtain ⟨top, outer, pending⟩ := n
  induction outer generalizing top with
  | nil => exact h
  | cons parent outer ih =>
      unfold close
      dsimp only
      rw [closeBefore]
      split
      · next hlt => exact ih (parent.adopt top) (hstep _ _ _ _ hlt h)
      · exact h

/-- A closed block is put inside the block around it. -/
theorem Fits.adopt (h : Fits root a ⟨top, parent :: outer, pending⟩) (hstop : top.stop < a) :
    Fits root a ⟨parent.adopt top, outer, pending⟩ := by
  obtain ⟨htidy, htidy', htidys⟩ := by simpa only [stack, List.forall_mem_cons] using h.tidy
  obtain ⟨-, hpast, hpasts⟩ := by simpa only [stack, List.forall_mem_cons] using h.past
  obtain ⟨hawaits, hawaits'⟩ := List.pairwise_cons.mp h.awaits
  obtain ⟨hparent, houter⟩ := List.pairwise_cons.mp hawaits'
  obtain ⟨-, horder, horders⟩ := by simpa only [stack, List.forall_mem_cons] using h.order
  refine { tidy := ?_, past := ?_, awaits := ?_, bottom := ?_, ahead := h.ahead, whole := h.whole
           sorted := h.sorted, order := ?_ }
  · exact List.forall_mem_cons.mpr ⟨htidy'.adopt htidy (hawaits parent List.mem_cons_self), htidys⟩
  · refine List.forall_mem_cons.mpr ⟨⟨hpast.start_le, fun c hc => ?_, hpast.branches_lt⟩, hpasts⟩
    rcases List.mem_append.mp hc with hc | hc
    · exact hpast.children_lt c hc
    · obtain rfl := List.mem_singleton.mp hc
      exact hstop
  · exact List.pairwise_cons.mpr ⟨fun b hb => (hparent b hb).congr rfl, houter⟩
  · simpa [stack] using h.bottom
  · exact List.forall_mem_cons.mpr ⟨horder, horders⟩

/-- **Closing blocks keeps the invariant.** -/
theorem Fits.close (h : Fits root a n) : Fits root a (n.close a) :=
  close_induction (fun _ _ _ _ hstop h => h.adopt hstop) h

/-- Closing loses nothing that does not depend on what is inside a block. -/
theorem held_close_perm {β : Type} {f : Block → List β} (hf : ∀ p c, f (p.adopt c) = f p) (a : Addr)
    (n : Nesting) : ((n.close a).held.flatMap f).Perm (n.held.flatMap f) := by
  refine close_induction (P := fun m => (m.held.flatMap f).Perm (n.held.flatMap f)) ?_ (.refl _)
  intro top parent outer pending _ h
  refine List.Perm.trans ?_ h
  simp only [held, stack, List.flatMap_cons, preorder_adopt, preorder_eq parent, List.flatMap_append,
    List.append_assoc, hf]
  refine List.Perm.trans ?_ (List.perm_append_comm_assoc _ _ _)
  exact List.Perm.append_left _ (List.perm_append_comm_assoc _ _ _)

/-- Closing moves blocks and loses none. -/
theorem inventory_close_perm (a : Addr) (n : Nesting) : (n.close a).inventory.Perm n.inventory := by
  have h := held_close_perm (f := fun b => [b.bare]) (fun _ _ => rfl) a n
  rw [← List.map_eq_flatMap, ← List.map_eq_flatMap] at h
  rw [inventory, inventory, List.map_append, List.map_append]
  exact h.append_right _

/-- Closing keeps the recorded jumps too. -/
theorem jumps_close_perm (a : Addr) (n : Nesting) : (n.close a).jumps.Perm n.jumps :=
  held_close_perm (fun _ _ => rfl) a n

/-- After closing, the innermost open block does not end before the address, unless it is the root. -/
theorem Fits.le_stop_close (h : Fits root a n) (ha : a ≤ root.stop) : a ≤ (n.close a).top.stop := by
  obtain ⟨top, outer, pending⟩ := n
  unfold Nesting.close
  dsimp only
  induction outer generalizing top with
  | nil =>
      -- the root is never closed
      have hbottom : top.bare = root := by simpa [stack] using h.bottom
      rw [← hbottom] at ha
      exact ha
  | cons parent outer ih =>
      rw [closeBefore]
      split
      · next hlt => exact ih _ (h.adopt hlt)
      · next hlt => exact Nat.not_lt.mp hlt

/-- Behind the root everything is closed. -/
theorem closeBefore_all (h : ∀ b ∈ top :: outer, b.stop < a) : (closeBefore a top outer).2 = [] := by
  induction outer generalizing top with
  | nil => rfl
  | cons parent outer ih =>
      obtain ⟨htop, hrest⟩ := List.forall_mem_cons.mp h
      obtain ⟨hparent, houter⟩ := List.forall_mem_cons.mp hrest
      rw [closeBefore, if_pos htop]
      exact ih (List.forall_mem_cons.mpr ⟨hparent, houter⟩)

/-! ### Opening -/

/-- A block that begins at the address and does not outlast the innermost open one is opened. -/
theorem Fits.opened (h : Fits root a ⟨top, outer, next :: pending⟩) (hstart : next.start = a)
    (hstop : next.stop ≤ top.stop) : Fits root a ⟨next, top :: outer, pending⟩ := by
  obtain ⟨⟨hbare, hle, -⟩, hwhole⟩ := List.forall_mem_cons.mp h.whole
  obtain ⟨hnext, hsorted⟩ := List.pairwise_cons.mp h.sorted
  -- the innermost open block was opened first, so equal ranges are no obstacle
  have htop : top.Surrounds next := by
    have hbefore := h.order top List.mem_cons_self next List.mem_cons_self
    have hpast := h.past top List.mem_cons_self
    refine ⟨hstart ▸ hpast.start_le, hstop, fun heq heq' => ?_⟩
    rcases hbefore with hlt | ⟨-, hlt | ⟨-, hrank⟩⟩
    · exact absurd heq (Nat.ne_of_lt hlt)
    · exact absurd heq' (Nat.ne_of_lt hlt)
    · exact hrank
  refine { tidy := ?_, past := ?_, awaits := ?_, bottom := ?_, ahead := ?_, whole := hwhole
           sorted := hsorted, order := ?_ }
  · exact List.forall_mem_cons.mpr ⟨hbare ▸ tidy_bare hle, h.tidy⟩
  · refine List.forall_mem_cons.mpr ⟨⟨hstart.le, ?_, ?_⟩, h.past⟩
    · rw [← hbare]
      exact List.forall_mem_nil _
    · rw [← hbare]
      exact List.forall_mem_nil _
  · refine List.pairwise_cons.mpr ⟨fun b hb => ?_, h.awaits⟩
    have hpast := h.past b hb
    have hsurrounds : b.Surrounds next := by
      rcases List.mem_cons.mp hb with rfl | hb
      · exact htop
      · exact ((List.pairwise_cons.mp h.awaits).1 b hb).surrounds.trans htop
    exact ⟨hsurrounds, hstart ▸ hpast.children_lt, hstart ▸ hpast.branches_lt⟩
  · simpa [stack] using h.bottom
  · exact fun b hb => h.ahead b (List.mem_cons_of_mem _ hb)
  · refine List.forall_mem_cons.mpr ⟨hnext, fun b hb c hc => ?_⟩
    exact h.order b hb c (List.mem_cons_of_mem _ hc)

/-- Opening moves a block from the pending ones to the open ones. -/
theorem inventory_opened_perm (hbare : next.bare = next) :
    (inventory ⟨next, top :: outer, pending⟩).Perm (inventory ⟨top, outer, next :: pending⟩) := by
  have hnext : next.preorder = [next] := hbare ▸ preorder_bare next
  refine List.Perm.map _ ?_
  simp only [held, stack, List.flatMap_cons, hnext]
  exact List.perm_middle.symm

theorem jumps_opened (hbare : next.bare = next) :
    jumps ⟨next, top :: outer, pending⟩ = jumps ⟨top, outer, next :: pending⟩ := by
  have hnext : next.preorder = [next] := hbare ▸ preorder_bare next
  have hbranches : next.branches = [] := by rw [← hbare]; rfl
  simp [jumps, held, stack, hnext, hbranches]

/-- **Opening.**  Blocks that begin at the address are opened, up to one that crosses the innermost open
block. -/
theorem Fits.openAt (h : Fits root a ⟨top, outer, pending⟩) (ha : a ≤ top.stop) :
    (∃ m, Nesting.openAt a top outer pending = .ok m ∧ Fits root a m ∧ a ≤ m.top.stop ∧
      (∀ b ∈ m.pending, a < b.start) ∧ m.pending.Sublist pending ∧
      m.inventory.Perm (inventory ⟨top, outer, pending⟩) ∧ m.jumps = jumps ⟨top, outer, pending⟩) ∨
    ∃ e, Nesting.openAt a top outer pending = .error e ∧ Refuses ⟨top, outer, pending⟩ e := by
  induction pending generalizing top outer with
  | nil => exact .inl ⟨_, rfl, h, ha, List.forall_mem_nil _, .refl _, .refl _, rfl⟩
  | cons next pending ih =>
      obtain ⟨⟨hbare, hle, hroot⟩, -⟩ := List.forall_mem_cons.mp h.whole
      have hnext := h.ahead next List.mem_cons_self
      rw [Nesting.openAt]
      by_cases hstart : next.start = a
      · rw [if_neg (not_not_intro hstart)]
        by_cases hstop : top.stop < next.stop
        · -- the two blocks cross
          rw [if_pos hstop]
          refine .inr ⟨_, rfl, top.bare, ?_, next.bare, ?_, ⟨?_, hstart.trans_le ha, hstop⟩, rfl⟩
          · refine List.mem_map_of_mem (List.mem_append_left _ ?_)
            exact List.mem_flatMap.mpr ⟨top, List.mem_cons_self, top.self_mem_preorder⟩
          · exact List.mem_map_of_mem (List.mem_append_right _ List.mem_cons_self)
          · rcases h.order top List.mem_cons_self next List.mem_cons_self with hlt | ⟨-, hlt | ⟨heq, -⟩⟩
            · exact hlt
            · exact absurd hstop (Nat.lt_asymm hlt)
            · exact absurd hstop (Nat.not_lt.mpr heq.le)
        · rw [if_neg hstop]
          have hopened := h.opened hstart (Nat.not_lt.mp hstop)
          rcases ih hopened (hstart ▸ hle) with
            ⟨m, hm, hfits, hma, hahead, hsub, hperm, hjumps⟩ | ⟨e, he, hrefuses⟩
          · exact .inl ⟨m, hm, hfits, hma, hahead, hsub.trans (List.sublist_cons_self _ _),
              hperm.trans (inventory_opened_perm hbare), hjumps.trans (jumps_opened hbare)⟩
          · exact .inr ⟨e, he, hrefuses.of_perm (inventory_opened_perm hbare)⟩
      · rw [if_pos hstart]
        have hlt := Nat.lt_of_le_of_ne hnext (Ne.symm hstart)
        -- the blocks to come are sorted, so none behind this one begins here either
        refine .inl ⟨_, rfl, h, ha, List.forall_mem_cons.mpr ⟨hlt, fun b hb => ?_⟩, .refl _, .refl _, rfl⟩
        rcases (List.pairwise_cons.mp h.sorted).1 b hb with hb | ⟨hb, -⟩
        · exact hlt.trans hb
        · exact hb ▸ hlt

/-! ### Recording jumps -/

/-- A jump that is no seed of a block is recorded in the innermost open block. -/
theorem record_of_branch? {ins : Instruction} {j : Branch} (hj : ins.branch? = some j) :
    n.record ins = { n with top := n.top.own j } ∧ j.addr = ins.addr := by
  cases hjump : ins.jump? with
  | none =>
      rw [Instruction.branch?, hjump] at hj
      cases hj
  | some jump =>
      obtain ⟨kind, target⟩ := jump
      rw [Instruction.branch?, hjump] at hj
      cases kind with
      | always =>
          cases hj
          rw [Nesting.record, hjump]
          exact ⟨rfl, rfl⟩
      | _ => cases hj

/-- Nothing is recorded for an instruction that is no such jump. -/
theorem record_of_branch?_eq_none {ins : Instruction} (hj : ins.branch? = none) : n.record ins = n := by
  refine record_of_jump fun target heq => ?_
  rw [Instruction.branch?, heq] at hj
  cases hj

/-- **Recording.** -/
theorem Fits.record {ins : Instruction} (h : Fits root ins.addr n) (ha : ins.addr ≤ n.top.stop)
    (hahead : ∀ b ∈ n.pending, ins.addr < b.start) :
    Fits root (ins.addr + 1) (n.record ins) ∧ (n.record ins).pending = n.pending ∧
      (n.record ins).inventory = n.inventory ∧
      (n.record ins).jumps.Perm (n.jumps ++ ins.branch?.toList) := by
  cases hj : ins.branch? with
  | none =>
      rw [record_of_branch?_eq_none hj, Option.toList_none, List.append_nil]
      exact ⟨h.move (Nat.le_succ _) hahead, rfl, rfl, .refl _⟩
  | some j =>
      obtain ⟨top, outer, pending⟩ := n
      obtain ⟨hrecord, haddr⟩ := record_of_branch? (n := ⟨top, outer, pending⟩) hj
      rw [hrecord]
      have hpast := h.past top List.mem_cons_self
      have hbranches : (top.own j).branches = top.branches ++ [j] := by
        rw [own_eq_grow (haddr ▸ hpast.branches_lt), branches_grow]
      have htidy : (top.own j).Tidy := (h.tidy top List.mem_cons_self).own (haddr ▸ hpast) (haddr ▸ ha)
      obtain ⟨hawaits, houter⟩ := List.pairwise_cons.mp h.awaits
      refine ⟨{ tidy := ?_, past := ?_, awaits := ?_, bottom := ?_, ahead := hahead, whole := h.whole
                sorted := h.sorted, order := ?_ }, rfl, ?_, ?_⟩
      · exact List.forall_mem_cons.mpr ⟨htidy, (List.forall_mem_cons.mp h.tidy).2⟩
      · have hmono := fun b hb => (h.past b hb).mono (Nat.le_succ ins.addr)
        refine List.forall_mem_cons.mpr ⟨?_, (List.forall_mem_cons.mp hmono).2⟩
        refine ⟨(hmono top List.mem_cons_self).start_le, (hmono top List.mem_cons_self).children_lt, ?_⟩
        intro i hi
        rw [hbranches] at hi
        rcases List.mem_append.mp hi with hi | hi
        · exact (hmono top List.mem_cons_self).branches_lt i hi
        · obtain rfl := List.mem_singleton.mp hi
          exact haddr ▸ Nat.lt_succ_self _
      · exact List.pairwise_cons.mpr ⟨fun b hb => (hawaits b hb).congr rfl, houter⟩
      · simpa [stack] using h.bottom
      · exact List.forall_mem_cons.mpr (List.forall_mem_cons.mp h.order)
      · simp [inventory, held, stack, preorder_own, preorder_eq top]
      · simp only [jumps, held, stack, List.flatMap_cons, preorder_own, preorder_eq top, List.cons_append,
          Option.toList_some, hbranches, List.append_assoc, List.nil_append]
        exact List.Perm.append_left _ (List.perm_append_singleton _ _).symm

/-! ### Steps and scans -/

/-- **A step.** -/
theorem Fits.step {ins : Instruction} (h : Fits root a n) (ha : a ≤ ins.addr) (hroot : ins.addr ≤ root.stop)
    (hahead : ∀ b ∈ n.pending, ins.addr ≤ b.start) :
    (∃ m, n.step ins = .ok m ∧ Fits root (ins.addr + 1) m ∧ m.pending.Sublist n.pending ∧
      (∀ b ∈ m.pending, ins.addr < b.start) ∧
      m.inventory.Perm n.inventory ∧ m.jumps.Perm (n.jumps ++ ins.branch?.toList)) ∨
    ∃ e, n.step ins = .error e ∧ n.Refuses e := by
  have hmove := h.move ha hahead
  rw [step_eq, enter]
  rcases hmove.close.openAt (hmove.le_stop_close hroot) with
    ⟨m, hm, hfits, hstop, hlt, hsub, hperm, hjumps⟩ | ⟨e, he, hrefuses⟩
  · obtain ⟨hfits, hpending, hinventory, hjumps'⟩ := hfits.record hstop hlt
    refine .inl ⟨m.record ins, ?_, hfits, hpending ▸ hsub, hpending ▸ hlt, ?_, ?_⟩
    · rw [hm]
      rfl
    · exact hinventory ▸ hperm.trans (inventory_close_perm ins.addr n)
    · refine hjumps'.trans (List.Perm.append_right _ ?_)
      exact hjumps ▸ jumps_close_perm ins.addr n
  · refine .inr ⟨e, ?_, hrefuses.of_perm (inventory_close_perm ins.addr n)⟩
    rw [he]
    rfl

/-- **A scan.**  It opens every block and records every jump, or it is refused. -/
theorem Fits.scan {rest : List Instruction} (h : Fits root a n) (ha : a ≤ root.stop + 1)
    (hrest : Stream.Increasing rest) (hbounds : ∀ ins ∈ rest, a ≤ ins.addr ∧ ins.addr ≤ root.stop)
    (hpending : ∀ b ∈ n.pending, Stream.Occurs rest b.start) :
    (∃ m, n.scan rest = .ok m ∧ Fits root (root.stop + 1) m ∧ m.pending = [] ∧
      m.inventory.Perm n.inventory ∧ m.jumps.Perm (n.jumps ++ rest.filterMap (·.branch?))) ∨
    ∃ e, n.scan rest = .error e ∧ n.Refuses e := by
  induction rest generalizing n a with
  | nil =>
      have hnil : n.pending = [] := by
        refine List.eq_nil_iff_forall_not_mem.mpr fun b hb => ?_
        obtain ⟨ins, hins, -⟩ := hpending b hb
        cases hins
      exact .inl ⟨n, rfl, h.move ha (hnil ▸ List.forall_mem_nil _), hnil, .refl _, by simp⟩
  | cons ins rest ih =>
      obtain ⟨hins, hrest⟩ := List.pairwise_cons.mp hrest
      obtain ⟨⟨hle, hroot⟩, hbounds⟩ := List.forall_mem_cons.mp hbounds
      -- blocks begin at instructions, and those of the stream before this one are past
      have hahead : ∀ b ∈ n.pending, ins.addr ≤ b.start := by
        intro b hb
        obtain ⟨x, hx, heq⟩ := hpending b hb
        rcases List.mem_cons.mp hx with rfl | hx
        · exact heq.le
        · exact heq ▸ (hins x hx).le
      rw [Nesting.scan]
      rcases h.step hle hroot hahead with ⟨m, hm, hfits, hsub, hlt, hperm, hjumps⟩ | ⟨e, he, hrefuses⟩
      · rw [hm]
        have hoccurs : ∀ b ∈ m.pending, Stream.Occurs rest b.start := by
          intro b hb
          obtain ⟨x, hx, heq⟩ := hpending b (hsub.subset hb)
          rcases List.mem_cons.mp hx with rfl | hx
          · exact absurd heq (Nat.ne_of_lt (hlt b hb))
          · exact ⟨x, hx, heq⟩
        have hbounds : ∀ x ∈ rest, ins.addr + 1 ≤ x.addr ∧ x.addr ≤ root.stop :=
          fun x hx => ⟨hins x hx, (hbounds x hx).2⟩
        rcases ih hfits (Nat.succ_le_succ hroot) hrest hbounds hoccurs with
          ⟨m', hm', hfits', hnil, hperm', hjumps'⟩ | ⟨e, he, hrefuses⟩
        · refine .inl ⟨m', hm', hfits', hnil, hperm'.trans hperm, ?_⟩
          refine hjumps'.trans ((hjumps.append_right _).trans ?_)
          rw [List.append_assoc, List.filterMap_cons]
          cases ins.branch? <;> exact .refl _
        · exact .inr ⟨e, he, hrefuses.of_perm hperm⟩
      · rw [he]
        exact .inr ⟨e, rfl, hrefuses⟩

/-- **The end.**  Behind the last instruction only the root is left. -/
theorem Fits.finish (h : Fits root (root.stop + 1) n) (hnil : n.pending = []) :
    ∃ tree, n.finish root.stop = .ok tree ∧ tree.Tidy ∧ tree.bare = root ∧
      (tree.preorder.map bare).Perm n.inventory ∧ (tree.preorder.flatMap (·.branches)).Perm n.jumps := by
  have houter : (n.close (root.stop + 1)).outer = [] :=
    closeBefore_all fun b hb => Nat.lt_succ_of_le (h.stop_le hb)
  have hfits := h.close
  have hheld : (n.close (root.stop + 1)).held = (n.close (root.stop + 1)).top.preorder := by
    rw [held, stack, houter, List.flatMap_singleton]
  refine ⟨(n.close (root.stop + 1)).top, ?_, hfits.tidy _ List.mem_cons_self, ?_, ?_, ?_⟩
  · have houter' : (closeBefore (root.stop + 1) n.top n.outer).2 = [] := houter
    simp [Nesting.finish, houter', hnil, Nesting.close, pure, Except.pure]
  · have hbottom := hfits.bottom
    rw [stack, houter, List.map_singleton, List.getLast?_singleton] at hbottom
    exact Option.some.inj hbottom
  · have hperm := inventory_close_perm (root.stop + 1) n
    rw [inventory, hheld, show (n.close (root.stop + 1)).pending = [] from hnil, List.append_nil] at hperm
    exact hperm
  · exact hheld ▸ jumps_close_perm (root.stop + 1) n

end

end Nesting

end TorqueScript
