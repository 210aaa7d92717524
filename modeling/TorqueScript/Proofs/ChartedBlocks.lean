import TorqueScript.Proofs.Framing
import TorqueScript.Proofs.Regions

/-!
# Blocks of code whose jumps lead ahead

Expressions are compiled to code in which every jump leads ahead: over the right operand of `&&` or `||`, to
the alternative of a choice, or over it.  Such code has no loops, and its blocks lie inside each other or
apart (`Fragment.Ahead`).  The rules for it follow the ways to put fragments together, whatever the code is
for.

* `Stream.LeadsAhead.exists_tree`: the block tree of such a stream has one conditional block for each jump that
  makes one, and all its other jumps are taken to lead over an alternative (`Stream.Charted`).
* `Stream.Seat`: what a block has to know about code that lies in it is where other blocks end; those that are
  open where the code begins lie around it.
-/

namespace TorqueScript

namespace Fragment

variable {f g : Fragment} {L : Placement} {exit : Addr} {pos : Nat} {ins : Instruction}

theorem bounds_of_mem (h : ins ∈ f.code L exit pos) : L.addr pos ≤ ins.addr ∧ ins.addr < L.addr (pos + f.size) := by
  obtain ⟨i, hlo, hhi, haddr⟩ := addr_of_mem h
  rw [haddr]
  exact ⟨L.addr_le_iff.mpr hlo, L.addr_lt_iff.mpr hhi⟩

theorem jump?_instr {o : Operation} (ho : o.isJump = false) (L : Placement) (pos : Nat) :
    (L.instr pos o).jump? = none := by
  unfold Instruction.jump?
  split
  · next heq =>
      rw [Placement.operation_instr] at heq
      rw [heq] at ho
      cases ho
  · rfl

/-- Behind the head of a choice come the first piece and a jump over the second. -/
theorem code_either (f g : Fragment) (L : Placement) (exit : Addr) (pos : Nat) :
    (either f g).code L exit pos = L.instr pos (.jump .ifNot (L.addr (pos + 1 + f.size + 1))) ::
      (f ++ g.skip .always).code L exit (pos + 1) := rfl

/-- All jumps in the code lead ahead, at most to the instruction behind it.  Those that make blocks lead to an
instruction of the code, and the blocks do not cross each other. -/
structure Ahead (f : Fragment) : Prop where
  jumps : ∀ {L exit pos ins}, ins ∈ f.code L exit pos → ∀ {kind target}, ins.jump? = some (kind, target) →
    ∃ i, target = L.addr i ∧ ins.addr < target ∧ i ≤ pos + f.size ∧ (kind.makesBlock → i < pos + f.size)
  nested : ∀ {L exit pos x y}, x ∈ f.code L exit pos → y ∈ f.code L exit pos →
    ∀ {kind kind' target target'}, x.jump? = some (kind, target) → kind.makesBlock →
      y.jump? = some (kind', target') → kind'.makesBlock → x.addr < y.addr → y.addr < target → target' ≤ target

namespace Ahead

/-- One instruction that is no jump. -/
theorem typed {o : ValueType → Operation} (ho : ∀ type, (o type).isJump = false) : (typed o).Ahead := by
  refine ⟨fun {L exit pos ins} h _ _ hjump => ?_, fun {L exit pos x y} h _ _ _ _ _ hjump => ?_⟩
  · rw [List.mem_singleton.mp h, jump?_instr (ho _)] at hjump
    cases hjump
  · rw [List.mem_singleton.mp h, jump?_instr (ho _)] at hjump
    cases hjump

theorem op {o : Operation} (ho : o.isJump = false) : (op o).Ahead :=
  .typed fun _ => ho

theorem append (hf : f.Ahead) (hg : g.Ahead) : (f ++ g).Ahead where
  jumps {L exit pos ins} h kind target hjump := by
    rw [size_append]
    rcases List.mem_append.mp h with h | h
    · obtain ⟨i, rfl, hlt, hle, hmakes⟩ := hf.jumps h hjump
      exact ⟨i, rfl, hlt, by omega, fun hkind => by have := hmakes hkind; omega⟩
    · obtain ⟨i, rfl, hlt, hle, hmakes⟩ := hg.jumps h hjump
      exact ⟨i, rfl, hlt, by omega, fun hkind => by have := hmakes hkind; omega⟩
  nested {L exit pos x y} hx hy kind kind' target target' hjump hkind hjump' hkind' hxy hytarget := by
    rcases List.mem_append.mp hx with hx | hx
    · rcases List.mem_append.mp hy with hy | hy
      · exact hf.nested hx hy hjump hkind hjump' hkind' hxy hytarget
      · -- the block of the first ends before the second
        obtain ⟨i, rfl, -, -, hmakes⟩ := hf.jumps hx hjump
        have hlo := (bounds_of_mem hy).1
        exact absurd (hlo.trans_lt hytarget) (Nat.not_lt.mpr (L.addr_le_iff.mpr (hmakes hkind).le))
    · rcases List.mem_append.mp hy with hy | hy
      · have hlt := (bounds_of_mem hy).2.trans_le (bounds_of_mem hx).1
        exact absurd hxy (Nat.lt_asymm hlt)
      · exact hg.nested hx hy hjump hkind hjump' hkind' hxy hytarget

/-- Behind a jump over it that makes no block. -/
theorem skip {kind : JumpKind} (hkind : kind.makesBlock = false) (hf : f.Ahead) : (f.skip kind).Ahead where
  jumps {L exit pos ins} h kind' target hjump := by
    rw [size_skip]
    rcases List.mem_cons.mp h with rfl | h
    · cases hjump
      refine ⟨pos + 1 + f.size, rfl, L.addr_lt_iff.mpr (by omega), by omega, fun hmakes => ?_⟩
      rw [hkind] at hmakes
      cases hmakes
    · obtain ⟨i, rfl, hlt, hle, hmakes⟩ := hf.jumps h hjump
      exact ⟨i, rfl, hlt, by omega, fun hkind => by have := hmakes hkind; omega⟩
  nested {L exit pos x y} hx hy k k' target target' hjump hk hjump' hk' hxy hytarget := by
    rcases List.mem_cons.mp hx with rfl | hx
    · cases hjump
      rw [hkind] at hk
      cases hk
    rcases List.mem_cons.mp hy with rfl | hy
    · cases hjump'
      rw [hkind] at hk'
      cases hk'
    exact hf.nested hx hy hjump hk hjump' hk' hxy hytarget

/-- A choice between two pieces of code, of which the second one is not empty. -/
theorem either (hf : f.Ahead) (hg : g.Ahead) (hsize : 0 < g.size) : (either f g).Ahead := by
  have hinner : (f ++ g.skip .always).Ahead := hf.append (hg.skip rfl)
  constructor
  · intro L exit pos ins h kind target hjump
    rw [size_either]
    rw [code_either] at h
    rcases List.mem_cons.mp h with rfl | h
    · cases hjump
      exact ⟨pos + 1 + f.size + 1, rfl, L.addr_lt_iff.mpr (by omega), by omega, fun _ => by omega⟩
    · obtain ⟨i, rfl, hlt, hle, hmakes⟩ := hinner.jumps h hjump
      rw [size_append, size_skip] at hle hmakes
      exact ⟨i, rfl, hlt, by omega, fun hkind => by have := hmakes hkind; omega⟩
  · intro L exit pos x y hx hy kind kind' target target' hjump hkind hjump' hkind' hxy hytarget
    rw [code_either] at hx hy
    rcases List.mem_cons.mp hx with rfl | hx
    · cases hjump
      rcases List.mem_cons.mp hy with rfl | hy
      · exact absurd hxy (Nat.lt_irrefl _)
      rcases List.mem_append.mp hy with hy | hy
      · obtain ⟨i, rfl, -, -, hmakes⟩ := hf.jumps hy hjump'
        have := hmakes hkind'
        exact L.addr_le_iff.mpr (by omega)
      rcases List.mem_cons.mp hy with rfl | hy
      · cases hjump'
        cases hkind'
      · exact absurd hytarget (Nat.not_lt.mpr (bounds_of_mem hy).1)
    · rcases List.mem_cons.mp hy with rfl | hy
      · have hlo := (bounds_of_mem hx).1
        rw [Placement.addr_instr] at hxy
        exact absurd (hlo.trans_lt hxy) (Nat.not_lt.mpr (L.addr_le_iff.mpr (Nat.le_succ pos)))
      · exact hinner.nested hx hy hjump hkind hjump' hkind' hxy hytarget

end Ahead

end Fragment

namespace Block

/-- Without loops, every jump is taken to lead over an alternative. -/
theorem classify_of_no_loop (exit : Addr → Option Addr) (b : Block) (around : Option Addr)
    (h : ∀ c ∈ b.preorder, c.kind ≠ .loop) :
    ∀ c ∈ (b.classify exit none around none).1.preorder, ∀ j ∈ c.branches, j.kind = .alternative := by
  have hrecast : b.Recast (b.classify exit none around none).1 := ⟨exit, none, around, none, rfl⟩
  have hnoLoop : ∀ c ∈ (b.classify exit none around none).1.preorder, c.kind ≠ .loop := by
    intro c hc hloop
    have hmem : c.bare ∈ b.preorder.map bare := hrecast.map_bare_preorder ▸ List.mem_map_of_mem hc
    obtain ⟨d, hd, hdc⟩ := List.mem_map.mp hmem
    have hkind : d.bare.kind = c.bare.kind := congrArg Block.kind hdc
    exact h d hd (hkind.trans hloop)
  exact ((grounded_classify exit b around).2 (hnoLoop _ (self_mem_preorder _))).alternative hnoLoop

end Block

namespace Stream

variable {instrs : List Instruction} {tree : Block}

/-- All jumps of a stream lead ahead, and no two of the blocks they make cross each other. -/
structure LeadsAhead (instrs : List Instruction) : Prop where
  jumps : ∀ ins ∈ instrs, ∀ kind target, ins.jump? = some (kind, target) →
    Occurs instrs target ∧ ins.addr < target
  nested : ∀ x ∈ instrs, ∀ y ∈ instrs, ∀ kind kind' target target', x.jump? = some (kind, target) →
    kind.makesBlock → y.jump? = some (kind', target') → kind'.makesBlock → x.addr < y.addr →
      y.addr < target → target' ≤ target

/-- A block that is made by a jump ahead. -/
def MadeAhead (instrs : List Instruction) (b : Block) : Prop :=
  b.kind = .conditional ∧ ∃ ins ∈ instrs, ∃ kind target, ins.jump? = some (kind, target) ∧ kind.makesBlock ∧
    ins.addr = b.start ∧ Neighbours instrs b.stop target

/-- What is known of the block tree of a stream whose jumps all lead ahead. -/
structure Charted (L : Placement) (instrs : List Instruction) (tree : Block) : Prop where
  increasing : Increasing instrs
  placed : ∀ ins ∈ instrs, ∃ i, ins.addr = L.addr i
  tidy : tree.Tidy
  le_stop : ∀ ins ∈ instrs, ins.addr ≤ tree.stop
  stop_le : tree.stop ≤ Addr.last
  /-- Every block but the root is made by a jump. -/
  made : ∀ b ∈ tree.preorder, b ≠ tree → MadeAhead instrs b
  /-- Every jump that makes a block has made one. -/
  found : ∀ ins ∈ instrs, ∀ kind target, ins.jump? = some (kind, target) → kind.makesBlock →
    ∃ b ∈ tree.preorder, b ≠ tree ∧ b.start = ins.addr
  /-- Blocks own unconditional jumps, which lead over alternatives. -/
  branch : ∀ b ∈ tree.preorder, ∀ j ∈ b.branches, j.kind = .alternative ∧
    ∃ ins ∈ instrs, ins.addr = j.addr ∧ ins.jump? = some (.always, j.target)
  /-- Every unconditional jump is owned by a block. -/
  owner : ∀ ins ∈ instrs, ∀ target, ins.jump? = some (.always, target) →
    ∃ b ∈ tree.preorder, ∃ j ∈ b.branches, j.addr = ins.addr ∧ j.target = target

theorem LeadsAhead.madeAhead (h : LeadsAhead instrs) {id : Nat} {made : List Block}
    (hseeds : Seeds instrs instrs id made) {b : Block} (hb : b ∈ made) : MadeAhead instrs b := by
  obtain ⟨ins, hins, hmakes⟩ := hseeds.made b hb
  rw [MadeAhead]
  generalize b.kind = kind at hmakes ⊢
  generalize b.start = start at hmakes ⊢
  generalize b.stop = stop at hmakes ⊢
  cases hmakes with
  | loop hjump _ hback => exact absurd (h.jumps ins hins _ _ hjump).2 (Nat.not_lt.mpr hback)
  | conditional hjump hkind _ hstop => exact ⟨rfl, ins, hins, _, _, hjump, hkind, rfl, hstop⟩

/-- Of two blocks that have an instruction in common, the second one ends with the first at the latest. -/
theorem LeadsAhead.not_crosses (hahead : LeadsAhead instrs) (h : Increasing instrs) {b c : Block}
    (hc : MadeAhead instrs c) (hb : MadeAhead instrs b) : ¬ c.Crosses b := by
  rintro ⟨hcb, hbc, hlt⟩
  obtain ⟨-, x, hx, kind, target, hjump, hkind, hxc, hstop⟩ := hc
  obtain ⟨-, y, hy, kind', target', hjump', hkind', hyb, hstop'⟩ := hb
  have hle := hahead.nested x hx y hy kind kind' target target' hjump hkind hjump' hkind' (hxc ▸ hyb ▸ hcb)
    (hyb ▸ hbc.trans_lt (h.lt_of_neighbours hstop))
  obtain ⟨z, hz, hzb⟩ := hstop'.occurs
  have hlt' := (h.lt_of_neighbours hstop').trans_le hle
  exact absurd (h.le_of_neighbours hstop hz (hzb ▸ hlt')) (Nat.not_le.mpr (hzb ▸ hlt))

/-- A tree with all blocks and jumps of the stream, in which all jumps lead over alternatives. -/
theorem LeadsAhead.charted {L : Placement} (hahead : LeadsAhead instrs) (h : Increasing instrs)
    (hplaced : ∀ ins ∈ instrs, ∃ i, ins.addr = L.addr i) (hlast : last instrs ≤ Addr.last) {made : List Block}
    (hseeds : Seeds instrs instrs 1 made) (hcomplete : Complete instrs made tree) (hroot : tree.bare = root instrs)
    (hkinds : ∀ b ∈ tree.preorder, ∀ j ∈ b.branches, j.kind = .alternative) : Charted L instrs tree := by
  have hstop : tree.stop = last instrs := congrArg Block.stop hroot
  refine { increasing := h, placed := hplaced, tidy := hcomplete.tidy, stop_le := hstop.trans_le hlast
           le_stop := fun ins hins => hstop.symm ▸ h.le_last ⟨ins, hins, rfl⟩, made := fun b hb hne => ?_
           found := fun ins hins kind target hjump hkind => ?_
           branch := fun b hb j hj => ⟨hkinds b hb j hj, hcomplete.mem_branches_iff.mp ⟨b, hb, j, hj, rfl, rfl⟩⟩
           owner := fun ins hins target hjump => hcomplete.mem_branches_iff.mpr ⟨ins, hins, rfl, hjump⟩ }
  · have hmem : b.bare ∈ root instrs :: made := hcomplete.blocks_perm.mem_iff.mp (List.mem_map_of_mem hb)
    rcases List.mem_cons.mp hmem with heq | hmem
    · -- the tree would lie around a root
      have hsurrounds := (hcomplete.tidy.eq_or_surrounds b hb).resolve_left hne
      exact absurd (hsurrounds.congr (hroot.trans heq.symm) rfl) (Block.Surrounds.irrefl b)
    · have hmade : MadeAhead instrs b.bare := hahead.madeAhead hseeds hmem
      exact hmade
  · obtain ⟨htarget, hlt⟩ := hahead.jumps ins hins kind target hjump
    obtain ⟨stop, hstop⟩ := h.exists_neighbours hins hlt htarget
    obtain ⟨b, hb, hbkind, hstart, -⟩ := hseeds.all ins hins _ _ _ (.conditional hjump hkind hlt hstop)
    obtain ⟨c, hc, rfl⟩ := List.mem_map.mp (hcomplete.blocks_perm.mem_iff.mpr (List.mem_cons_of_mem _ hb))
    refine ⟨c, hc, ?_, hstart⟩
    rintro rfl
    rw [hroot] at hbkind
    cases hbkind

/-- **Streams whose jumps lead ahead** have a block tree, without loops. -/
theorem LeadsAhead.exists_tree {L : Placement} (hahead : LeadsAhead instrs) (h : Increasing instrs)
    (hplaced : ∀ ins ∈ instrs, ∃ i, ins.addr = L.addr i) (hlast : last instrs ≤ Addr.last) :
    ∃ tree, blockTree instrs = .ok tree ∧ Charted L instrs tree := by
  have hland : ∀ ins ∈ instrs, Lands instrs ins := fun ins hins kind target hjump =>
    (hahead.jumps ins hins kind target hjump).1
  obtain ⟨made, hmade, hseeds⟩ := blocks_eq_ok h hland
  rcases nest_outcome h hland hmade hseeds with ⟨nested, hnest, hassembles⟩ | ⟨c, hc, b, hb, hcross, -⟩
  · have hnoLoop : ∀ c ∈ nested.preorder, c.kind ≠ .loop := by
      intro c hc
      have hmem : c.bare ∈ root instrs :: made := hassembles.blocks_perm.mem_iff.mp (List.mem_map_of_mem hc)
      rcases List.mem_cons.mp hmem with heq | hmem
      · rw [show c.kind = .root from congrArg Block.kind heq]
        decide
      · rw [show c.kind = .conditional from (hahead.madeAhead hseeds hmem).1]
        decide
    have hrecast : nested.Recast (nested.classify (after? instrs) none none none).1 := ⟨_, _, _, _, rfl⟩
    exact ⟨_, blockTree_of_nest_ok hnest, hahead.charted h hplaced hlast hseeds (hassembles.complete hrecast)
      (hrecast.same.1.symm.trans hassembles.bare_eq)
      (Block.classify_of_no_loop (after? instrs) nested none hnoLoop)⟩
  · exact absurd hcross (hahead.not_crosses h (hahead.madeAhead hseeds hc) (hahead.madeAhead hseeds hb))

/-! ### Where code lies in the tree -/

/-- Code from position `lo` up to position `hi` lies in the block, and of the blocks that are open where the
code begins this one is the innermost. -/
structure Seat (L : Placement) (tree block : Block) (lo hi : Nat) : Prop where
  mem : block ∈ tree.preorder
  start : block = tree ∨ block.start < L.addr lo
  stop : L.addr hi ≤ block.stop
  around : ∀ c ∈ tree.preorder, c.start < L.addr lo → L.addr lo ≤ c.stop → c = block ∨ c.Surrounds block

namespace Charted

variable {L : Placement} {block : Block} {lo mid hi : Nat} {ins : Instruction} {kind : JumpKind}
  {target : Addr}

/-- The instruction at the start of a block is the jump that makes it. -/
theorem made_by (h : Charted L instrs tree) {b : Block} (hb : b ∈ tree.preorder) (hne : b ≠ tree)
    (hins : ins ∈ instrs) (haddr : ins.addr = b.start) :
    ∃ kind target, ins.jump? = some (kind, target) ∧ kind.makesBlock ∧ Neighbours instrs b.stop target := by
  obtain ⟨-, x, hx, kind, target, hjump, hkind, hstart, hstop⟩ := h.made b hb hne
  obtain rfl := h.increasing.eq_of_addr_eq hx hins (hstart.trans haddr.symm)
  exact ⟨kind, target, hjump, hkind, hstop⟩

/-- No two blocks have the same start. -/
theorem not_surrounds_of_start_eq (h : Charted L instrs tree) {b c : Block} (hb : b ∈ tree.preorder)
    (hbne : b ≠ tree) (hc : c ∈ tree.preorder) (hcne : c ≠ tree) (hstart : c.start = b.start) :
    ¬ c.Surrounds b := by
  intro hsurrounds
  obtain ⟨hckind, x, hx, -, -, -, -, haddr, -⟩ := h.made c hc hcne
  obtain ⟨_, _, hjump, -, hstop⟩ := h.made_by hc hcne hx haddr
  obtain ⟨_, _, hjump', -, hstop'⟩ := h.made_by hb hbne hx (haddr.trans hstart)
  cases Option.some.inj (hjump.symm.trans hjump')
  have hrank := hsurrounds.rank_lt hstart (h.increasing.neighbours_unique hstop' hstop)
  rw [hckind, (h.made b hb hbne).1] at hrank
  exact Nat.lt_irrefl _ hrank

/-- Code that begins at the first position lies in the root. -/
theorem seat (h : Charted L instrs tree) (hfirst : ∀ ins ∈ instrs, L.addr 0 ≤ ins.addr)
    (hhi : ∃ ins ∈ instrs, ins.addr = L.addr hi) : Seat L tree tree 0 hi where
  mem := tree.self_mem_preorder
  start := .inl rfl
  stop := by
    obtain ⟨ins, hins, haddr⟩ := hhi
    exact haddr ▸ h.le_stop ins hins
  around c hc hlt _ := by
    by_cases hne : c = tree
    · exact .inl hne
    · obtain ⟨-, ins, hins, -, -, -, -, haddr, -⟩ := h.made c hc hne
      exact absurd (hfirst ins hins) (Nat.not_le.mpr (haddr ▸ hlt))

/-- Behind code in which all blocks end that begin there. -/
theorem next (h : Charted L instrs tree) (hseat : Seat L tree block lo hi) (hle : lo ≤ mid)
    (hends : ∀ ins ∈ instrs, L.addr lo ≤ ins.addr → ins.addr < L.addr mid → ∀ kind target,
      ins.jump? = some (kind, target) → kind.makesBlock → target ≤ L.addr mid) :
    Seat L tree block mid hi where
  mem := hseat.mem
  start := hseat.start.imp_right fun hlt => hlt.trans_le (L.addr_le_iff.mpr hle)
  stop := hseat.stop
  around c hc hlt hstop := by
    rcases Nat.lt_or_ge c.start (L.addr lo) with hbefore | hge
    · exact hseat.around c hc hbefore ((L.addr_le_iff.mpr hle).trans hstop)
    by_cases hne : c = tree
    · rw [hne]
      exact (h.tidy.eq_or_surrounds block hseat.mem).imp_left Eq.symm
    · obtain ⟨-, ins, hins, kind, target, hjump, hkind, haddr, hneighbours⟩ := h.made c hc hne
      have htarget := hends ins hins (haddr ▸ hge) (haddr ▸ hlt) kind target hjump hkind
      exact absurd hstop (Nat.not_le.mpr ((h.increasing.lt_of_neighbours hneighbours).trans_le htarget))

/-! ### Looking up blocks and jumps -/

theorem childAt?_eq_none (h : Charted L instrs tree) (hblock : block ∈ tree.preorder) (hins : ins ∈ instrs)
    (hjump : ∀ kind target, ins.jump? = some (kind, target) → kind.makesBlock = false) :
    block.childAt? ins.addr = none := by
  cases hchild : block.childAt? ins.addr with
  | none => rfl
  | some c =>
      have hmem : c ∈ block.children := List.mem_of_find?_eq_some hchild
      obtain ⟨hc, hstart⟩ := Region.mem_preorder_child hblock hchild
      have hne : c ≠ tree := fun heq => h.tidy.not_mem_children hblock (heq ▸ hmem)
      obtain ⟨kind, target, hj, hkind, -⟩ := h.made_by hc hne hins hstart.symm
      rw [hjump kind target hj] at hkind
      cases hkind

theorem branchAt?_eq_none (h : Charted L instrs tree) (hblock : block ∈ tree.preorder) (hins : ins ∈ instrs)
    (hjump : ∀ target, ins.jump? ≠ some (.always, target)) : block.branchAt? ins.addr = none := by
  cases hbranch : block.branchAt? ins.addr with
  | none => rfl
  | some j =>
      obtain ⟨hmem, haddr⟩ := Region.mem_of_branchAt? hbranch
      obtain ⟨-, x, hx, hxaddr, hj⟩ := h.branch block hblock j hmem
      obtain rfl := h.increasing.eq_of_addr_eq hx hins (hxaddr.trans haddr)
      exact absurd hj (hjump j.target)

/-- A block that begins where code begins lies in the block of the code. -/
theorem surrounds_of_seat (h : Charted L instrs tree) (hseat : Seat L tree block lo hi) (hle : lo ≤ hi) {b : Block}
    (hb : b ∈ tree.preorder) (hne : b ≠ tree) (hstart : b.start = L.addr lo) : block.Surrounds b := by
  rcases hseat.start with rfl | hlt
  · exact (h.tidy.eq_or_surrounds b hb).resolve_left hne
  have hbefore : block.start < b.start := hlt.trans_eq hstart.symm
  have hcontains : block.contains b.start := by
    rw [hstart] at hbefore ⊢
    exact Block.contains_iff.mpr ⟨hbefore.le, (L.addr_le_iff.mpr hle).trans hseat.stop⟩
  have hself : b.contains b.start := Block.contains_iff.mpr ⟨le_rfl, (h.tidy b hb).start_le_stop⟩
  rcases h.tidy.surrounds_of_contains hseat.mem hb hcontains hself with rfl | hblock | hblock
  · exact absurd hbefore (Nat.lt_irrefl _)
  · exact hblock
  · exact absurd hblock.start_le (Nat.not_le.mpr hbefore)

/-- The block that a jump makes is a child of the block in which the jump lies. -/
theorem exists_child (h : Charted L instrs tree) (hseat : Seat L tree block lo hi) (hle : lo ≤ hi)
    (hins : ins ∈ instrs) (haddr : ins.addr = L.addr lo) (hjump : ins.jump? = some (kind, target))
    (hkind : kind.makesBlock) :
    ∃ b ∈ tree.preorder, b ≠ tree ∧ block.childAt? ins.addr = some b ∧ b.start = ins.addr ∧
      b.kind = .conditional ∧ Neighbours instrs b.stop target ∧ block.Surrounds b := by
  obtain ⟨b, hb, hne, hstart⟩ := h.found ins hins kind target hjump hkind
  obtain ⟨kind', target', hjump', -, hstop⟩ := h.made_by hb hne hins hstart.symm
  cases Option.some.inj (hjump.symm.trans hjump')
  have hbstop := (h.tidy b hb).start_le_stop
  have hsurrounds := h.surrounds_of_seat hseat hle hb hne (hstart.trans haddr)
  obtain ⟨c, hc, heq⟩ := h.tidy.exists_child hseat.mem hb hsurrounds
  obtain rfl : b = c := by
    refine heq.resolve_right fun hcb => ?_
    have hcmem := Block.mem_preorder_trans hseat.mem (Block.mem_preorder_of_mem_children hc)
    have hcne : c ≠ tree := fun heq => h.tidy.not_mem_children hseat.mem (heq ▸ hc)
    have hblock := (h.tidy block hseat.mem).surrounds c hc
    rcases Nat.lt_or_eq_of_le hcb.start_le with hlt | hstart'
    · -- a block that is open here lies around the one in which the jump lies
      rw [hstart, haddr] at hlt hbstop
      rcases hseat.around c hcmem hlt (hbstop.trans hcb.stop_le) with rfl | hcblock
      · exact Block.Surrounds.irrefl _ hblock
      · exact hblock.asymm hcblock
    · exact h.not_surrounds_of_start_eq hb hne hcmem hcne hstart' hcb
  refine ⟨b, hb, hne, ?_, hstart, (h.made b hb hne).1, hstop, hsurrounds⟩
  rw [← hstart]
  exact h.tidy.childAt?_start hseat.mem hc

/-- A block ends in front of the target of its jump. -/
theorem stop_eq (h : Charted L instrs tree) {stop : Addr} {gap : Nat}
    (hneighbours : Neighbours instrs stop (L.addr (gap + 1))) (hins : ins ∈ instrs)
    (haddr : ins.addr = L.addr gap) : stop = L.addr gap := by
  obtain ⟨x, hx, rfl⟩ := hneighbours.occurs
  obtain ⟨i, hi⟩ := h.placed x hx
  have hlt := h.increasing.lt_of_neighbours hneighbours
  rw [hi, L.addr_lt_iff] at hlt
  refine le_antisymm ?_ ?_
  · rw [hi]
    exact L.addr_le_iff.mpr (Nat.le_of_lt_succ hlt)
  · rw [← haddr]
    exact h.increasing.le_of_neighbours hneighbours hins (haddr ▸ L.addr_lt_iff.mpr (Nat.lt_succ_self gap))

theorem succ_le (h : Charted L instrs tree) (hins : ins ∈ instrs) (hlt : L.addr lo < ins.addr) :
    L.addr (lo + 1) ≤ ins.addr := by
  obtain ⟨i, hi⟩ := h.placed ins hins
  rw [hi, L.addr_lt_iff] at hlt
  rw [hi]
  exact L.addr_le_iff.mpr hlt

/-- Behind the head of a choice, code lies in the block that the head makes. -/
theorem inside (h : Charted L instrs tree) (hseat : Seat L tree block lo hi) {b : Block} (hb : b ∈ tree.preorder)
    (hne : b ≠ tree) (hstart : b.start = L.addr lo) (hsurrounds : block.Surrounds b) {gap : Nat}
    (hstop : b.stop = L.addr gap) : Seat L tree b (lo + 1) gap where
  mem := hb
  start := .inr (hstart ▸ L.addr_lt_iff.mpr (Nat.lt_succ_self lo))
  stop := hstop.ge
  around c hc hlt hcstop := by
    by_cases hctree : c = tree
    · rw [hctree]
      exact .inr ((h.tidy.eq_or_surrounds b hb).resolve_left hne)
    obtain ⟨-, x, hx, -, -, -, -, haddr, -⟩ := h.made c hc hctree
    obtain ⟨i, hi⟩ := h.placed x hx
    rw [← haddr, hi, L.addr_lt_iff] at hlt
    rcases Nat.lt_or_eq_of_le (Nat.le_of_lt_succ hlt) with hilo | rfl
    · -- it is open already where the choice begins
      have hbefore : c.start < L.addr lo := by rw [← haddr, hi]; exact L.addr_lt_iff.mpr hilo
      have hle : L.addr lo ≤ c.stop := (L.addr_le_iff.mpr (Nat.le_succ lo)).trans hcstop
      rcases hseat.around c hc hbefore hle with rfl | hcblock
      · exact .inr hsurrounds
      · exact .inr (hcblock.trans hsurrounds)
    · have heq : c.start = b.start := by rw [← haddr, hi, hstart]
      have hcontains : c.contains b.start :=
        Block.contains_iff.mpr ⟨heq.le, heq ▸ (h.tidy c hc).start_le_stop⟩
      rcases h.tidy.surrounds_of_contains hc hb hcontains
        (Block.contains_iff.mpr ⟨le_rfl, (h.tidy b hb).start_le_stop⟩) with rfl | hcb | hbc
      · exact .inl rfl
      · exact .inr hcb
      · exact absurd hbc (h.not_surrounds_of_start_eq hc hctree hb hne heq.symm)

theorem le_alternativeStop (h : Charted L instrs tree) (hblock : block ∈ tree.preorder) :
    block.stop ≤ block.alternativeStop := by
  rw [Block.alternativeStop]
  split
  · exact le_rfl
  · exact le_min (Nat.le_succ _) ((h.tidy.bounds hblock).2.2.trans h.stop_le)

/-- No block is taken for the condition of a loop. -/
theorem guardedLoop?_eq_none (h : Charted L instrs tree) (hblock : block ∈ tree.preorder)
    (rest : List Instruction) : block.guardedLoop? rest = none := by
  cases rest with
  | nil => rfl
  | cons ins rest =>
      rw [Block.guardedLoop?, List.find?_eq_none]
      intro c hc
      have hcmem := Block.mem_preorder_trans hblock (Block.mem_preorder_of_mem_children hc)
      have hcne : c ≠ tree := fun heq => h.tidy.not_mem_children hblock (heq ▸ hc)
      simp [(h.made c hcmem hcne).1]

/-- A jump at the end of a block leads over its alternative, if no block inside ends there as well. -/
theorem exists_alternative (h : Charted L instrs tree) {b : Block} (hb : b ∈ tree.preorder) (hne : b ≠ tree)
    (hins : ins ∈ instrs) (haddr : ins.addr = b.stop) (hjump : ins.jump? = some (.always, target))
    (hends : ∀ x ∈ instrs, b.start < x.addr → x.addr < b.stop → ∀ kind target, x.jump? = some (kind, target) →
      kind.makesBlock → target ≤ b.stop) :
    ∃ branch, b.alternative? = some branch ∧ branch.addr = b.stop ∧ branch.target = target := by
  obtain ⟨c, hc, j, hj, hjaddr, -⟩ := h.owner ins hins target hjump
  have hle := (h.tidy b hb).start_le_stop
  have hcontains : b.contains j.addr := by
    rw [hjaddr, haddr]
    exact Block.contains_iff.mpr ⟨hle, le_rfl⟩
  have hown := ((h.tidy c hc).owned j hj).1
  obtain rfl : b = c := by
    refine (h.tidy.innermost_of_mem_branches hc hb hj hcontains).resolve_right fun hbc => ?_
    have hcne : c ≠ tree := by
      rintro rfl
      exact hbc.asymm ((h.tidy.eq_or_surrounds b hb).resolve_left hne)
    obtain ⟨-, x, hx, kind, target', hxjump, hkind, hxaddr, hstop⟩ := h.made c hc hcne
    rw [hjaddr, haddr] at hown
    have hcstop : c.stop = b.stop := le_antisymm hbc.stop_le (Block.contains_iff.mp hown).2
    have hlt : b.start < x.addr := by
      refine Nat.lt_of_le_of_ne (hxaddr ▸ hbc.start_le) fun heq => ?_
      exact h.not_surrounds_of_start_eq hc hcne hb hne (heq.trans hxaddr) hbc
    -- it would begin in front of the jump or be made by it
    rcases Nat.lt_or_eq_of_le (hxaddr ▸ (Block.contains_iff.mp hown).1) with hxlt | hxeq
    · have htarget := hends x hx hlt hxlt kind target' hxjump hkind
      exact absurd (h.increasing.lt_of_neighbours hstop) (Nat.not_lt.mpr (hcstop ▸ htarget))
    · obtain rfl := h.increasing.eq_of_addr_eq hx hins (hxeq.trans haddr.symm)
      rw [hjump] at hxjump
      cases hxjump
      cases hkind
  have hsome : (b.branchAt? b.stop).isSome := List.find?_isSome.mpr ⟨j, hj, by simp [hjaddr, haddr]⟩
  obtain ⟨branch, hbranch⟩ := Option.isSome_iff_exists.mp hsome
  obtain ⟨hmem, hbaddr⟩ := Region.mem_of_branchAt? hbranch
  obtain ⟨hkind, x, hx, hxaddr, hxjump⟩ := h.branch b hb branch hmem
  obtain rfl := h.increasing.eq_of_addr_eq hx hins (hxaddr.trans (hbaddr.trans haddr.symm))
  rw [hjump] at hxjump
  cases hxjump
  refine ⟨branch, ?_, hbaddr, rfl⟩
  rw [Block.alternative?, hbranch, Option.filter_some, hkind]
  rfl

end Charted

end Stream

end TorqueScript
