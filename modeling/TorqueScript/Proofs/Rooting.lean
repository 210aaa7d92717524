import TorqueScript.Proofs.BlockTree
import TorqueScript.Proofs.Stages

/-!
# The root of a block tree

The root of a block tree is put together from blocks that jumps make, and none of these is a root itself.  So no
block has a root inside it (`Block.RootAlone`).  Other than the order of blocks this does not depend on the order of
addresses: it holds of all streams that have a block tree (`Stream.rootAlone_of_blockTree`).
-/

namespace TorqueScript

namespace Block

/-- No block has a root inside it. -/
def RootAlone (tree : Block) : Prop :=
  ∀ b ∈ tree.preorder, ∀ c ∈ b.children, c.kind ≠ .root

/-- A block without children has no root inside. -/
theorem RootAlone.of_childless {b : Block} (h : b.children = []) : b.RootAlone := by
  intro c hc d hd
  rw [preorder_eq, h] at hc
  obtain rfl := List.mem_singleton.mp hc
  rw [h] at hd
  cases hd

/-- Adopting anything but a root keeps the root alone. -/
theorem RootAlone.adopt {p c : Block} (hp : p.RootAlone) (hc : c.RootAlone) (hkind : c.kind ≠ .root) :
    (p.adopt c).RootAlone := by
  intro b hb d hd
  rw [preorder_adopt, List.mem_cons, List.mem_append] at hb
  rcases hb with rfl | hb | hb
  · rw [children_adopt, List.mem_append, List.mem_singleton] at hd
    rcases hd with hd | rfl
    · exact hp p p.self_mem_preorder d hd
    · exact hkind
  · exact hp b (by rw [preorder_eq]; exact List.mem_cons_of_mem _ hb) d hd
  · exact hc b hb d hd

theorem RootAlone.own {b : Block} {j : Branch} (h : b.RootAlone) : (b.own j).RootAlone := by
  intro c hc d hd
  rw [preorder_own, List.mem_cons] at hc
  rcases hc with rfl | hc
  · exact h b b.self_mem_preorder d hd
  · exact h c (by rw [preorder_eq]; exact List.mem_cons_of_mem _ hc) d hd

/-- Recasting keeps the root alone. -/
theorem Recast.rootAlone {b c : Block} (h : b.Recast c) (hb : b.RootAlone) : c.RootAlone := by
  refine h.forall_preorder (fun b c hrecast hb d hd => ?_) hb
  have hbare : d.bare ∈ b.children.map bare := hrecast.map_bare_children ▸ List.mem_map_of_mem hd
  obtain ⟨d', hd', heq⟩ := List.mem_map.mp hbare
  have hkind : d'.kind = d.kind := congrArg (·.kind) heq
  exact hkind ▸ hb d' hd'

end Block

namespace Nesting

open Block

/-- Only the outermost open block can be a root. -/
structure RootBelow (n : Nesting) : Prop where
  alone : ∀ b ∈ n.stack, b.RootAlone
  inner : ∀ b ∈ n.stack.dropLast, b.kind ≠ .root
  pending : ∀ b ∈ n.pending, b.kind ≠ .root ∧ b.RootAlone

variable {n m : Nesting}

/-- Closing blocks keeps the root at the bottom. -/
theorem RootBelow.close (h : n.RootBelow) (addr : Addr) : (n.close addr).RootBelow := by
  refine close_induction (fun top parent outer pending _ h => ?_) h
  obtain ⟨halone, hinner, hpending⟩ := h
  obtain ⟨htop, hparent, houter⟩ := by simpa only [stack, List.forall_mem_cons] using halone
  obtain ⟨hkind, hinner⟩ := by simpa only [stack, List.dropLast_cons_cons, List.forall_mem_cons] using hinner
  refine ⟨List.forall_mem_cons.mpr ⟨hparent.adopt htop hkind, houter⟩, ?_, hpending⟩
  cases outer with
  | nil => exact List.forall_mem_nil _
  | cons b outer => exact List.forall_mem_cons.mpr (List.forall_mem_cons.mp hinner)

/-- So does opening. -/
theorem RootBelow.openAt {addr : Addr} {top : Block} {outer pending : List Block}
    (h : RootBelow ⟨top, outer, pending⟩) (hm : openAt addr top outer pending = .ok m) : m.RootBelow := by
  induction pending generalizing top outer with
  | nil =>
      cases hm
      exact h
  | cons next pending ih =>
      rw [Nesting.openAt] at hm
      split at hm
      · cases hm
        exact h
      · split at hm
        · cases hm
        · obtain ⟨⟨hkind, hnext⟩, hpending⟩ := List.forall_mem_cons.mp h.pending
          refine ih ⟨?_, ?_, hpending⟩ hm
          · exact List.forall_mem_cons.mpr ⟨hnext, h.alone⟩
          · exact List.forall_mem_cons.mpr ⟨hkind, h.inner⟩

theorem RootBelow.record (h : n.RootBelow) (ins : Instruction) : (n.record ins).RootBelow := by
  unfold Nesting.record
  split
  · obtain ⟨htop, houter⟩ := List.forall_mem_cons.mp h.alone
    refine ⟨List.forall_mem_cons.mpr ⟨htop.own, houter⟩, ?_, h.pending⟩
    have hinner := h.inner
    obtain ⟨top, outer, pending⟩ := n
    cases outer with
    | nil => exact List.forall_mem_nil _
    | cons b outer => exact List.forall_mem_cons.mpr (List.forall_mem_cons.mp hinner)
  · exact h

/-- **So does a scan.** -/
theorem RootBelow.scan {instrs : List Instruction} (h : n.RootBelow) (hm : n.scan instrs = .ok m) : m.RootBelow := by
  induction instrs generalizing n with
  | nil =>
      cases hm
      exact h
  | cons ins instrs ih =>
      obtain ⟨n', hstep, hm⟩ := bind_eq_ok_iff.mp hm
      obtain ⟨n'', hopen, ⟨⟩⟩ := bind_eq_ok_iff.mp hstep
      exact ih (((h.close ins.addr).openAt hopen).record ins) hm

end Nesting

namespace Stream

open Block

variable {instrs : List Instruction} {tree : Block}

/-- The blocks that jumps make are no roots, and nothing is inside them yet. -/
theorem blocksFrom_childless {rest : List Instruction} {id : Nat} {bs : List Block}
    (h : blocksFrom instrs id rest = .ok bs) : ∀ b ∈ bs, b.kind ≠ .root ∧ b.children = [] := by
  induction rest generalizing id bs with
  | nil =>
      cases h
      exact List.forall_mem_nil _
  | cons ins rest ih =>
      rw [blocksFrom] at h
      split at h
      · exact ih h
      · split at h
        · cases h
        · split at h
          · exact ih h
          · next block hblock =>
              obtain ⟨blocks, hblocks, ⟨⟩⟩ := bind_eq_ok_iff.mp h
              refine List.forall_mem_cons.mpr ⟨?_, ih hblocks⟩
              unfold blockOfJump? at hblock
              split at hblock
              · cases hblock
              · split at hblock <;> cases hblock <;> exact ⟨by rintro ⟨⟩, rfl⟩

/-- No block of a block tree has a root inside it. -/
theorem rootAlone_of_blockTree (htree : blockTree instrs = .ok tree) : tree.RootAlone := by
  obtain ⟨nested, hnest, ⟨⟩⟩ := bind_eq_ok_iff.mp htree
  obtain ⟨made, hmade, hnest⟩ := bind_eq_ok_iff.mp hnest
  obtain ⟨n, hscan, hfinish⟩ := bind_eq_ok_iff.mp hnest
  have hstart : (Nesting.start (root instrs) made).RootBelow := by
    refine ⟨List.forall_mem_singleton.mpr (.of_childless rfl), List.forall_mem_nil _, fun b hb => ?_⟩
    obtain ⟨hkind, hchildren⟩ := blocksFrom_childless hmade b (List.mem_mergeSort.mp hb)
    exact ⟨hkind, .of_childless hchildren⟩
  have hclose := (hstart.scan hscan).close (last instrs + 1)
  have hnested : nested.RootAlone := by
    unfold Nesting.finish at hfinish
    dsimp only at hfinish
    split at hfinish
    · cases hfinish
      exact hclose.alone _ List.mem_cons_self
    · cases hfinish
  exact Recast.rootAlone ⟨_, _, _, _, rfl⟩ hnested

end Stream

end TorqueScript
