import TorqueScript.Proofs.ChartedBlocks

/-!
# Code whose jumps lead ahead

* `Fragment.ReadsAs`: the regions that code is read as, in whatever block it lies.  There is one rule for each way
  to put fragments together.
* `Fragment.ofStream_of_ahead`: the regions of a stream that consists of such code and of code without jumps
  behind it.
-/

namespace TorqueScript

namespace Fragment

open Region

variable {f g : Fragment} {L : Placement} {instrs : List Instruction} {tree block : Block} {exit : Addr}
  {pos lo hi : Nat} {ins : Instruction}

theorem occurs_code {i : Nat} (hlo : pos ≤ i) (hhi : i < pos + f.size) :
    Stream.Occurs (f.code L exit pos) (L.addr i) := by
  have hmem : L.addr i ∈ (f.code L exit pos).map (·.addr) := by
    rw [f.addrs]
    exact List.mem_map_of_mem (List.mem_range'_1.mpr ⟨hlo, hhi⟩)
  exact List.mem_map.mp hmem

/-- An instruction between the first and the last one of code is one of the code. -/
theorem mem_code (h : Stream.Charted L instrs tree) (hcode : f.code L exit pos ⊆ instrs) (hins : ins ∈ instrs)
    (hlo : L.addr pos ≤ ins.addr) (hhi : ins.addr < L.addr (pos + f.size)) : ins ∈ f.code L exit pos := by
  obtain ⟨i, haddr⟩ := h.placed ins hins
  rw [haddr] at hlo hhi
  obtain ⟨x, hx, hxaddr⟩ := occurs_code (L.addr_le_iff.mp hlo) (L.addr_lt_iff.mp hhi)
  rwa [h.increasing.eq_of_addr_eq hins (hcode hx) (haddr.trans hxaddr.symm)]

/-- The blocks that begin in code whose jumps lead ahead end there. -/
theorem Ahead.ends (hf : f.Ahead) (h : Stream.Charted L instrs tree) (hcode : f.code L exit pos ⊆ instrs) :
    ∀ ins ∈ instrs, L.addr pos ≤ ins.addr → ins.addr < L.addr (pos + f.size) → ∀ kind target,
      ins.jump? = some (kind, target) → kind.makesBlock → target ≤ L.addr (pos + f.size) := by
  intro ins hins hlo hhi kind target hjump _
  obtain ⟨i, rfl, -, hle, -⟩ := hf.jumps (mem_code h hcode hins hlo hhi) hjump
  exact L.addr_le_iff.mpr hle

/-- The regions that code is read as, wherever it lies. -/
structure ReadsAs (f : Fragment) (regions : Placement → Addr → Nat → List Region) : Prop where
  passes : ∀ {L : Placement} {instrs : List Instruction} {tree : Block}, Stream.Charted L instrs tree →
    ∀ {exit : Addr} {pos : Nat} {block : Block} {stop : Addr} {rest : List Instruction},
      f.code L exit pos ⊆ instrs → Stream.Seat L tree block pos (pos + f.size) →
      L.addr (pos + f.size) ≤ stop → Stream.Begins L (pos + f.size) rest →
        Passes block stop (f.code L exit pos) (regions L exit pos) rest

/-- An instruction that belongs to no block but the one around it. -/
theorem passes_plain (h : Stream.Charted L instrs tree) (hblock : block ∈ tree.preorder) (hins : ins ∈ instrs)
    (hjump : ∀ kind target, ins.jump? = some (kind, target) → kind.isShortCircuit) {stop : Addr}
    (hstop : ins.addr < stop) (rest : List Instruction) : Passes block stop [ins] [.plain ins] rest := by
  intro regions left hleft
  refine .plain hstop (h.childAt?_eq_none hblock hins fun kind target hj => ?_)
    (h.branchAt?_eq_none hblock hins fun target hj => ?_) hleft
  · rw [JumpKind.makesBlock, hjump kind target hj, Bool.not_true, Bool.and_false]
  · cases hjump _ _ hj

namespace ReadsAs

variable {regions regions' : Placement → Addr → Nat → List Region}

theorem typed {o : ValueType → Operation} (ho : ∀ type, (o type).isJump = false) :
    (typed o).ReadsAs fun L _ pos => [.plain (L.instr pos (o (L.type pos)))] := by
  constructor
  intro L instrs tree h exit pos block stop rest hcode hseat hstop _
  have hlt : L.addr pos < L.addr (pos + 1) := L.addr_lt_iff.mpr (Nat.lt_succ_self pos)
  refine passes_plain h hseat.mem (hcode List.mem_cons_self) (fun kind target hjump => ?_)
    (hlt.trans_le hstop) rest
  rw [jump?_instr (ho _)] at hjump
  cases hjump

theorem append (hf : f.ReadsAs regions) (hg : g.ReadsAs regions') (hahead : f.Ahead) :
    (f ++ g).ReadsAs fun L exit pos => regions L exit pos ++ regions' L exit (pos + f.size) := by
  constructor
  intro L instrs tree h exit pos block stop rest hcode hseat hstop hrest
  rw [size_append, ← Nat.add_assoc] at hseat hstop hrest
  have hfcode : f.code L exit pos ⊆ instrs := fun x hx => hcode (List.mem_append_left _ hx)
  have hgcode : g.code L exit (pos + f.size) ⊆ instrs := fun x hx => hcode (List.mem_append_right _ hx)
  have hmid : L.addr (pos + f.size) ≤ L.addr (pos + f.size + g.size) := L.addr_le_iff.mpr (Nat.le_add_right _ _)
  have hfirst : Stream.Seat L tree block pos (pos + f.size) := { hseat with stop := hmid.trans hseat.stop }
  have hsecond := h.next hseat (Nat.le_add_right pos f.size) (hahead.ends h hfcode)
  exact (hf.passes h hfcode hfirst (hmid.trans hstop) (Piece.begins_code hrest)).append
    (hg.passes h hgcode hsecond hstop hrest)

theorem skip {kind : JumpKind} (hkind : kind.isShortCircuit) (hf : f.ReadsAs regions) :
    (f.skip kind).ReadsAs fun L exit pos =>
      .plain (L.instr pos (.jump kind (L.addr (pos + 1 + f.size)))) :: regions L exit (pos + 1) := by
  constructor
  intro L instrs tree h exit pos block stop rest hcode hseat hstop hrest
  rw [size_skip, ← Nat.add_assoc] at hseat hstop hrest
  obtain ⟨hhead, hfcode⟩ := List.cons_subset.mp hcode
  have hlt : L.addr pos < L.addr (pos + 1 + f.size) := L.addr_lt_iff.mpr (by omega)
  have hsecond : Stream.Seat L tree block (pos + 1) (pos + 1 + f.size) := by
    refine h.next hseat (Nat.le_succ pos) fun x hx hlo hhi kind' target hjump hmakes => ?_
    obtain ⟨i, haddr⟩ := h.placed x hx
    rw [haddr, L.addr_le_iff] at hlo
    rw [haddr, L.addr_lt_iff] at hhi
    obtain rfl : i = pos := by omega
    obtain rfl := h.increasing.eq_of_addr_eq hx hhead haddr
    cases hjump
    rw [JumpKind.makesBlock, hkind] at hmakes
    simp at hmakes
  refine Passes.append (passes_plain h hseat.mem hhead (fun kind' target hjump => ?_) (hlt.trans_le hstop) _)
    (hf.passes h hfcode hsecond hstop hrest)
  cases hjump
  exact hkind

/-- Behind the first piece of a choice and the jump over the second, all blocks that begin there have ended. -/
theorem seat_behind (h : Stream.Charted L instrs tree) (hahead : f.Ahead)
    (hseat : Stream.Seat L tree block pos hi) (hfcode : f.code L exit (pos + 1) ⊆ instrs) {target : Addr}
    (hhead : L.instr pos (.jump .ifNot (L.addr (pos + 1 + f.size + 1))) ∈ instrs)
    (hseparator : L.instr (pos + 1 + f.size) (.jump .always target) ∈ instrs) :
    Stream.Seat L tree block (pos + 1 + f.size + 1) hi := by
  refine h.next hseat (by omega) fun x hx hlo hhi kind target hjump hmakes => ?_
  obtain ⟨i, hi⟩ := h.placed x hx
  rw [hi, L.addr_le_iff] at hlo
  rw [hi, L.addr_lt_iff] at hhi
  -- the head, an instruction of the first piece, or the jump over the second one
  rcases Nat.eq_or_lt_of_le hlo with rfl | hlo
  · obtain rfl := h.increasing.eq_of_addr_eq hx hhead hi
    cases hjump
    exact le_rfl
  rcases Nat.eq_or_lt_of_le (Nat.le_of_lt_succ hhi) with rfl | hhi
  · obtain rfl := h.increasing.eq_of_addr_eq hx hseparator hi
    cases hjump
    cases hmakes
  · have hle := hahead.ends h hfcode x hx (hi ▸ L.addr_le_iff.mpr hlo) (hi ▸ L.addr_lt_iff.mpr hhi) kind target
      hjump hmakes
    exact hle.trans (L.addr_le_iff.mpr (Nat.le_succ _))

/-- The block of a choice: its first piece lies in the block, and a jump over the second one ends it. -/
theorem exists_choice (h : Stream.Charted L instrs tree) (hahead : f.Ahead)
    (hseat : Stream.Seat L tree block pos hi) (hle : pos ≤ hi) (hfcode : f.code L exit (pos + 1) ⊆ instrs)
    {target : Addr} (hhead : L.instr pos (.jump .ifNot (L.addr (pos + 1 + f.size + 1))) ∈ instrs)
    (hseparator : L.instr (pos + 1 + f.size) (.jump .always target) ∈ instrs) :
    ∃ b branch, b ∈ tree.preorder ∧ block.childAt? (L.addr pos) = some b ∧ b.kind = .conditional ∧
      b.stop = L.addr (pos + 1 + f.size) ∧ Stream.Seat L tree b (pos + 1) (pos + 1 + f.size) ∧
      b.alternative? = some branch ∧ branch.addr = L.addr (pos + 1 + f.size) ∧ branch.target = target := by
  obtain ⟨b, hb, hne, hchild, hstart, hkind, hneighbours, hsurrounds⟩ := h.exists_child hseat hle hhead rfl rfl rfl
  have hstop : b.stop = L.addr (pos + 1 + f.size) := h.stop_eq hneighbours hseparator rfl
  obtain ⟨branch, helse, haddr, htarget⟩ := h.exists_alternative hb hne hseparator hstop.symm rfl
    fun x hx hlo hhi kind target hjump hmakes => by
      rw [hstop] at hhi ⊢
      rw [hstart] at hlo
      exact hahead.ends h hfcode x hx (h.succ_le hx hlo) hhi kind target hjump hmakes
  exact ⟨b, branch, hb, hchild, hkind, hstop, h.inside hseat hb hne hstart hsurrounds hstop, helse,
    haddr.trans hstop, htarget⟩

/-- A choice between two pieces of code. -/
theorem either (hf : f.ReadsAs regions) (hg : g.ReadsAs regions') (hahead : f.Ahead) :
    (either f g).ReadsAs fun L exit pos =>
      [.choiceElse (L.instr pos (.jump .ifNot (L.addr (pos + 1 + f.size + 1)))) .ifNot
        (L.addr (pos + 1 + f.size)) (regions L exit (pos + 1)) (L.addr (pos + 1 + f.size))
        (regions' L exit (pos + 1 + f.size + 1))] := by
  constructor
  intro L instrs tree h exit pos block stop rest hcode hseat hstop hrest
  have hsize : pos + (Fragment.either f g).size = pos + 1 + f.size + 1 + g.size := by
    rw [size_either]
    omega
  rw [hsize] at hseat hstop hrest
  rw [code_either] at hcode ⊢
  obtain ⟨hhead, hinner⟩ := List.cons_subset.mp hcode
  obtain ⟨hfcode, hgap⟩ := List.append_subset.mp hinner
  obtain ⟨hseparator, hgcode⟩ := List.cons_subset.mp hgap
  obtain ⟨b, branch, hb, hchild, hkind, hbstop, hinside, helse, hbaddr, hbtarget⟩ :=
    exists_choice h hahead hseat (by omega) hfcode hhead hseparator
  have hbody : b.bodyStop = L.addr (pos + 1 + f.size) := by
    rw [Block.bodyStop, helse, Option.isSome_some, if_pos rfl, hbstop]
  have hmin : min branch.target block.alternativeStop = L.addr (pos + 1 + f.size + 1 + g.size) := by
    rw [hbtarget]
    exact min_eq_left (hseat.stop.trans (h.le_alternativeStop hseat.mem))
  have hbegins : Stream.Begins L (pos + 1 + f.size)
      ((g.skip .always).code L exit (pos + 1 + f.size) ++ rest) :=
    Piece.begins_code (by rwa [size_skip, ← Nat.add_assoc])
  have hfirst := hf.passes h hfcode hinside hbody.ge hbegins
  have hsecond := hg.passes h hgcode (seat_behind h hahead hseat hfcode hhead hseparator) hmin.ge hrest
  have hjump : (L.instr pos (.jump .ifNot (L.addr (pos + 1 + f.size + 1)))).jump? =
    some (.ifNot, L.addr (pos + 1 + f.size + 1)) := rfl
  have hregion := ReadsChild.choiceElse hkind hjump (h.guardedLoop?_eq_none hb _) helse hbaddr.symm
    (hfirst.reads fun ins hins => by cases hins; exact hbody.le)
    (hsecond.reads fun ins hins => hmin.le.trans (hrest ins hins).ge)
  rw [hbaddr, hbstop] at hregion
  intro later left hlater
  have hlt : L.addr pos < L.addr (pos + 1 + f.size + 1 + g.size) := L.addr_lt_iff.mpr (by omega)
  have hreads := Reads.inner (hlt.trans_le hstop) hchild hregion hlater
  rwa [← List.append_assoc] at hreads

end ReadsAs

/-! ### Streams -/

theorem increasing_code (f : Fragment) (L : Placement) (exit : Addr) (pos : Nat) :
    Stream.Increasing (f.code L exit pos) := by
  have haddrs : ((f.code L exit pos).map (·.addr)).Pairwise (· < ·) := by
    rw [f.addrs, List.pairwise_map]
    exact List.Pairwise.imp L.addr_lt_iff.mpr List.pairwise_lt_range'
  exact List.pairwise_map.mp haddrs

/-- Instructions without jumps are read one by one. -/
theorem passes_plains (h : Stream.Charted L instrs tree) (hblock : block ∈ tree.preorder)
    {code : List Instruction} (hcode : code ⊆ instrs) (hjump : ∀ ins ∈ code, ins.jump? = none) {stop : Addr}
    (hstop : ∀ ins ∈ code, ins.addr < stop) (rest : List Instruction) :
    Passes block stop code (code.map .plain) rest := by
  induction code with
  | nil => exact .nil
  | cons ins code ih =>
      obtain ⟨hins, hcode⟩ := List.cons_subset.mp hcode
      obtain ⟨hfirst, hjump⟩ := List.forall_mem_cons.mp hjump
      obtain ⟨hlt, hstop⟩ := List.forall_mem_cons.mp hstop
      have hplain : ∀ kind target, ins.jump? = some (kind, target) → kind.isShortCircuit := by
        intro kind target hj
        rw [hfirst] at hj
        cases hj
      exact (passes_plain h hblock hins hplain hlt _).append (ih hcode hjump hstop)

/-- Code whose jumps lead ahead has a block tree, if code without jumps lies behind it. -/
theorem Ahead.charted (hf : f.Ahead) (hsize : 0 < g.size)
    (hplain : ∀ ins ∈ g.code L exit f.size, ins.jump? = none)
    (hbound : ∀ i < f.size + g.size, L.addr i < Addr.last) :
    ∃ tree, Stream.blockTree ((f ++ g).code L exit 0) = .ok tree ∧
      Stream.Charted L ((f ++ g).code L exit 0) tree := by
  have hjumps : ∀ ins ∈ (f ++ g).code L exit 0, ∀ kind target, ins.jump? = some (kind, target) →
      ins ∈ f.code L exit 0 := by
    intro ins hins kind target hjump
    rcases List.mem_append.mp hins with hins | hins
    · exact hins
    · rw [Nat.zero_add] at hins
      rw [hplain ins hins] at hjump
      cases hjump
  have hlast : Stream.last ((f ++ g).code L exit 0) ≤ Addr.last := by
    rw [Stream.last]
    cases hlast : ((f ++ g).code L exit 0).getLast? with
    | none => exact Nat.zero_le _
    | some ins =>
        obtain ⟨i, -, hi, haddr⟩ := addr_of_mem (List.mem_of_getLast? hlast)
        rw [size_append, Nat.zero_add] at hi
        exact haddr.trans_le (hbound i hi).le
  have hahead : Stream.LeadsAhead ((f ++ g).code L exit 0) := by
    constructor
    · intro ins hins kind target hjump
      obtain ⟨i, rfl, hlt, hle, -⟩ := hf.jumps (hjumps ins hins kind target hjump) hjump
      refine ⟨occurs_code (Nat.zero_le i) ?_, hlt⟩
      rw [size_append]
      omega
    · intro x hx y hy kind kind' target target' hjump hkind hjump' hkind' hxy hytarget
      exact hf.nested (hjumps x hx kind target hjump) (hjumps y hy kind' target' hjump') hjump hkind hjump'
        hkind' hxy hytarget
  refine hahead.exists_tree (increasing_code _ L exit 0) (fun ins hins => ?_) hlast
  obtain ⟨i, -, -, haddr⟩ := addr_of_mem hins
  exact ⟨i, haddr⟩

/-- **Reading code whose jumps lead ahead**, in front of code without jumps. -/
theorem ofStream_of_ahead {regions : Placement → Addr → Nat → List Region} (hf : f.Ahead)
    (hreads : f.ReadsAs regions) (hsize : 0 < g.size)
    (hplain : ∀ ins ∈ g.code L exit f.size, ins.jump? = none)
    (hbound : ∀ i < f.size + g.size, L.addr i < Addr.last) :
    ∃ tree, Stream.blockTree ((f ++ g).code L exit 0) = .ok tree ∧
      Region.ofStream tree ((f ++ g).code L exit 0) =
        regions L exit 0 ++ (g.code L exit f.size).map .plain := by
  obtain ⟨tree, htree, h⟩ := hf.charted hsize hplain hbound
  refine ⟨tree, htree, Reads.ofStream_eq ?_⟩
  have hstart : Stream.Occurs ((f ++ g).code L exit 0) (L.addr (0 + f.size)) := by
    refine occurs_code (Nat.zero_le _) ?_
    rw [size_append]
    omega
  have hseat : Stream.Seat L tree tree 0 (0 + f.size) := by
    refine h.seat (fun ins hins => ?_) hstart
    obtain ⟨i, -, -, haddr⟩ := addr_of_mem hins
    exact haddr ▸ L.addr_le_iff.mpr (Nat.zero_le i)
  have hnil : Stream.Begins L (0 + f.size + g.size) [] := by
    intro ins hins
    cases hins
  have hbegins : Stream.Begins L (0 + f.size) (g.code L exit (0 + f.size) ++ []) := Piece.begins_code hnil
  have hfirst := hreads.passes h (fun x hx => List.mem_append_left _ hx) hseat
    (hbound (0 + f.size) (by omega)).le hbegins
  rw [Nat.zero_add] at hfirst
  have hgcode : g.code L exit f.size ⊆ (f ++ g).code L exit 0 := by
    rw [code_append, Nat.zero_add]
    exact List.subset_append_right _ _
  have hgstop : ∀ ins ∈ g.code L exit f.size, ins.addr < Addr.last := by
    intro ins hins
    obtain ⟨i, -, hi, haddr⟩ := addr_of_mem hins
    exact haddr.trans_lt (hbound i hi)
  have hboth := hfirst.append (passes_plains h tree.self_mem_preorder hgcode hplain hgstop [])
  rw [code_append, Nat.zero_add]
  simpa using hboth.reads (by simp)

end Fragment

end TorqueScript
