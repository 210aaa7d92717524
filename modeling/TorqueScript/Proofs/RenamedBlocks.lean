import TorqueScript.Proofs.Renaming

/-!
# Renamed block trees

Scanning and classifying compare addresses and do nothing else with them, so they end alike on related streams.

* `Nesting.Renamed.scan`: related scans go on as related scans.
* `Stream.nest_renamed`: the blocks are nested in the same way.
* `Stream.blockTree_renamed`: the jumps have the same classes.
-/

namespace TorqueScript

/-! ### The scan -/

/-- The scans are the same up to related addresses. -/
structure Nesting.Renamed (R : Addr → Addr → Prop) (n n' : Nesting) : Prop where
  top : n.top.Renamed R n'.top
  outer : List.Forall₂ (Block.Renamed R) n.outer n'.outer
  pending : List.Forall₂ (Block.Renamed R) n.pending n'.pending

namespace Nesting

open Addr

variable {R : Addr → Addr → Prop} {n n' : Nesting} {top top' : Block} {outer outer' pending pending' : List Block}
  {a a' : Addr} {ins ins' : Instruction} {instrs instrs' : List Instruction}

/-- A scan starts alike: the blocks are opened in the same order. -/
theorem start_renamed (hR : KeepsOrder R) {root root' : Block} (hroot : root.Renamed R root')
    (h : List.Forall₂ (Block.Renamed R) pending pending') :
    Renamed R (start root pending) (start root' pending') where
  top := hroot
  outer := .nil
  pending := by
    refine forall₂_mergeSort (fun b b' hb c c' hc => ?_) h
    rw [opensFirst, opensFirst]
    have hlt := hR.lt_iff hb.start_rel hc.start_rel
    have heq := hR.eq_iff hb.start_rel hc.start_rel
    have hle := hR.le_iff hc.stop_rel hb.stop_rel
    simp only [hlt, hle, Bool.beq_eq_decide_eq, heq]

/-- Two addresses behind the same blocks. -/
theorem closeBefore_renamed (hcut : ∀ {b b' : Addr}, R b b' → (b < a ↔ b' < a')) (htop : top.Renamed R top')
    (h : List.Forall₂ (Block.Renamed R) outer outer') :
    (closeBefore a top outer).1.Renamed R (closeBefore a' top' outer').1 ∧
      List.Forall₂ (Block.Renamed R) (closeBefore a top outer).2 (closeBefore a' top' outer').2 := by
  induction h generalizing top top' with
  | nil => exact ⟨htop, .nil⟩
  | cons hparent houter ih =>
      rw [closeBefore, closeBefore]
      simp only [hcut htop.stop_rel]
      split
      · exact ih (hparent.adopt htop)
      · exact ⟨htop, .cons hparent houter⟩

/-- Opening blocks at related addresses, which is refused on both sides or on none. -/
theorem openAt_renamed (hR : KeepsOrder R) (ha : R a a') (htop : top.Renamed R top')
    (houter : List.Forall₂ (Block.Renamed R) outer outer')
    (h : List.Forall₂ (Block.Renamed R) pending pending') :
    EndsAlike (Renamed R) (openAt a top outer pending) (openAt a' top' outer' pending') := by
  induction h generalizing top top' outer outer' with
  | nil => exact .ok ⟨htop, houter, .nil⟩
  | cons hnext hpending ih =>
      rw [openAt, openAt]
      simp only [ne_eq, hR.eq_iff hnext.start_rel ha, hR.lt_iff htop.stop_rel hnext.stop_rel]
      split
      · exact .ok ⟨htop, houter, .cons hnext hpending⟩
      · split
        · exact .error rfl
        · exact ih hnext (.cons htop houter)

/-- Recording related jumps. -/
theorem Renamed.record (hR : KeepsOrder R) (h : n.Renamed R n') (hins : ins.Renamed R ins') :
    (n.record ins).Renamed R (n'.record ins') := by
  have hjump := Stream.rel_jump? hins
  rw [Nesting.record, Nesting.record]
  generalize ins.jump? = jump at hjump
  generalize ins'.jump? = jump' at hjump
  cases hjump with
  | none => exact h
  | @some jump jump' hjump =>
      obtain ⟨kind, target⟩ := jump
      obtain ⟨kind', target'⟩ := jump'
      obtain ⟨rfl, htarget⟩ : kind = kind' ∧ R target target' := hjump
      cases kind with
      | always => exact ⟨h.top.own hR ⟨hins.addr, htarget, rfl⟩, h.outer, h.pending⟩
      | _ => exact h

/-- One step of related scans. -/
theorem Renamed.step (hR : KeepsOrder R) (h : n.Renamed R n') (hins : ins.Renamed R ins') :
    EndsAlike (Renamed R) (n.step ins) (n'.step ins') := by
  obtain ⟨htop, houter⟩ := closeBefore_renamed (fun hb => hR.lt_iff hb hins.addr) h.top h.outer
  exact (openAt_renamed hR hins.addr htop houter h.pending).bind fun _ _ hn => .ok (hn.record hR hins)

/-- **Related scans** go on as related scans. -/
theorem Renamed.scan (hR : KeepsOrder R) (h : n.Renamed R n')
    (hinstrs : List.Forall₂ (Instruction.Renamed R) instrs instrs') :
    EndsAlike (Renamed R) (n.scan instrs) (n'.scan instrs') := by
  induction hinstrs generalizing n n' with
  | nil => exact .ok h
  | cons hins _ ih => exact (h.step hR hins).bind fun _ _ hn => ih hn

/-- What is open at the end is closed alike. -/
theorem Renamed.finish (hR : KeepsOrder R) (h : n.Renamed R n') (ha : R a a') :
    EndsAlike (Block.Renamed R) (n.finish a) (n'.finish a') := by
  have hcut : ∀ {b b' : Addr}, R b b' → (b < a + 1 ↔ b' < a' + 1) := fun hb => by
    rw [Nat.lt_succ_iff, Nat.lt_succ_iff, hR.le_iff hb ha]
  obtain ⟨htop, houter⟩ := closeBefore_renamed hcut h.top h.outer
  rw [Nesting.finish, Nesting.finish]
  have hempty : ∀ {bs bs' : List Block}, List.Forall₂ (Block.Renamed R) bs bs' → bs.isEmpty = bs'.isEmpty := by
    intro bs bs' hbs
    cases hbs <;> rfl
  simp only [hempty houter, hempty h.pending, houter.length_eq]
  split
  · exact .ok htop
  · exact .error rfl

end Nesting

namespace Stream

open Addr

variable {R : Addr → Addr → Prop} {instrs instrs' : List Instruction}

/-- **The blocks are nested in the same way.** -/
theorem nest_renamed (hR : KeepsOrder R) (h : List.Forall₂ (Instruction.Renamed R) instrs instrs')
    (hne : instrs ≠ []) : EndsAlike (Block.Renamed R) (nest instrs) (nest instrs') := by
  obtain ⟨hlast, hroot⟩ := root_renamed h hne
  refine (blocksFrom_renamed hR h h 1).bind fun _ _ hblocks => ?_
  refine ((Nesting.start_renamed hR hroot hblocks).scan hR h).bind fun _ _ hn => ?_
  exact hn.finish hR hlast

end Stream

/-! ### Classes -/

namespace Block

open Addr

variable {R : Addr → Addr → Prop} {b b' : Block} {bs bs' : List Block} {j j' : Branch} {js js' : List Branch}
  {exit exit' : Addr → Option Addr} {frame frame' : Option LoopFrame} {around around' point point' : Option Addr}
  {stop stop' : Addr}

/-- The frames tell of loops with related addresses behind them. -/
def FrameRel (R : Addr → Addr → Prop) : Option LoopFrame → Option LoopFrame → Prop :=
  Option.Rel fun frame frame' => Option.Rel R frame.exit frame'.exit

/-- The class of a jump is found by comparing addresses, so related jumps have the same class. -/
theorem classify_branch_eq (hR : KeepsOrder R) (kind : BlockKind) (hj : j.Renamed R j') (hstop : R stop stop')
    (haround : Option.Rel R around around') (hframe : FrameRel R frame frame') :
    j.classify kind stop around frame = j'.classify kind stop' around' frame' := by
  have hle := hR.le_iff hj.target hstop
  have hlt := hR.lt_iff hj.addr hstop
  have hany : around.any (· < j.target) = around'.any (· < j'.target) := by
    cases haround with
    | none => rfl
    | some h => simp only [Option.any_some, hR.lt_iff h hj.target]
  cases hframe with
  | none =>
      cases kind with
      | loop => simp only [Branch.classify, hle]
      | _ => rfl
  | some hexit =>
      cases kind with
      | loop => simp only [Branch.classify, hle]
      | _ => simp only [Branch.classify, hR.some_eq_iff hexit hj.target, hlt, hany]

theorem map_classify_renamed (hR : KeepsOrder R) (kind : BlockKind) (hjs : List.Forall₂ (Branch.Renamed R) js js')
    (hstop : R stop stop') (haround : Option.Rel R around around') (hframe : FrameRel R frame frame') :
    List.Forall₂ (Branch.Renamed R) (js.map fun j => { j with kind := j.classify kind stop around frame })
      (js'.map fun j => { j with kind := j.classify kind stop' around' frame' }) :=
  List.forall₂_map_left_iff.mpr (List.forall₂_map_right_iff.mpr (hjs.imp fun _ _ hj =>
    ⟨hj.addr, hj.target, classify_branch_eq hR kind hj hstop haround hframe⟩))

/-- A jump to the continue point is settled on both sides or on none. -/
theorem settle_renamed (hR : KeepsOrder R) (hpoint : Option.Rel R point point') (hj : j.Renamed R j') :
    (j.settle point).Renamed R (j'.settle point') := by
  rw [Branch.settle, Branch.settle]
  simp only [hj.kind, hR.some_eq_iff hpoint hj.target]
  split
  · exact ⟨hj.addr, hj.target, rfl⟩
  · exact hj

theorem map_settle_renamed (hR : KeepsOrder R) (hpoint : Option.Rel R point point')
    (hjs : List.Forall₂ (Branch.Renamed R) js js') :
    List.Forall₂ (Branch.Renamed R) (js.map (·.settle point)) (js'.map (·.settle point')) :=
  List.forall₂_map_left_iff.mpr (List.forall₂_map_right_iff.mpr (hjs.imp fun _ _ hj => settle_renamed hR hpoint hj))

/-- The first jump to the next round leads to related targets. -/
theorem firstRound?_renamed (hjs : List.Forall₂ (Branch.Renamed R) js js') :
    Option.Rel R (firstRound? js) (firstRound? js') :=
  rel_map (fun _ _ hj => hj.target) (rel_find? (fun _ _ hj => by rw [hj.kind]) hjs)

theorem rel_or {x x' y y' : Option Addr} (h : Option.Rel R x x') (h' : Option.Rel R y y') :
    Option.Rel R (x.or y) (x'.or y') := by
  cases h with
  | none => exact h'
  | some h => exact .some h

/-- What the classes in related blocks, and the continue points known behind them, have to do with each other. -/
def ClassifiesAlike (R : Addr → Addr → Prop) (exit exit' : Addr → Option Addr) (b b' : Block) : Prop :=
  ∀ {frame frame' around around' point point'}, FrameRel R frame frame' → Option.Rel R around around' →
    Option.Rel R point point' →
    (b.classify exit frame around point).1.Renamed R (b'.classify exit' frame' around' point').1 ∧
      Option.Rel R (b.classify exit frame around point).2 (b'.classify exit' frame' around' point').2

/-- Blocks that follow each other are classified one after the other, with the continue point handed on. -/
theorem classifyAll_renamed (h : List.Forall₂ (ClassifiesAlike R exit exit') bs bs')
    (hframe : FrameRel R frame frame') (haround : Option.Rel R around around') (hpoint : Option.Rel R point point') :
    List.Forall₂ (Block.Renamed R) (classifyAll exit frame around point bs).1
        (classifyAll exit' frame' around' point' bs').1 ∧
      Option.Rel R (classifyAll exit frame around point bs).2 (classifyAll exit' frame' around' point' bs').2 := by
  induction h generalizing point point' with
  | nil => exact ⟨.nil, hpoint⟩
  | cons hb _ ih =>
      obtain ⟨hblock, hpoint⟩ := hb hframe haround hpoint
      obtain ⟨hblocks, hpoint⟩ := ih hpoint
      exact ⟨.cons hblock hblocks, hpoint⟩

/-- **Jumps have the same classes.** -/
theorem classify_renamed (hR : KeepsOrder R) (hexit : ∀ {a a'}, R a a' → Option.Rel R (exit a) (exit' a'))
    (h : b.Renamed R b') : ClassifiesAlike R exit exit' b b' := by
  induction b using childrenInduction generalizing b' with
  | h b ih =>
      intro frame frame' around around' point point' hframe haround hpoint
      obtain ⟨hid, hkind, hstart, hstop, hbranches, hcontinue, hchildren⟩ := h
      have hall : List.Forall₂ (ClassifiesAlike R exit exit') b.children b'.children :=
        List.forall₂_iff_zip.mpr ⟨hchildren.length_eq, fun {c c'} hmem =>
          ih c (List.of_mem_zip hmem).1 ((List.forall₂_iff_zip.mp hchildren).2 hmem)⟩
      obtain ⟨id, kind, start, stop, branches, continuePoint, children⟩ := b
      obtain ⟨id', kind', start', stop', branches', continuePoint', children'⟩ := b'
      obtain rfl : id = id' := hid
      obtain rfl : kind = kind' := hkind
      cases kind with
      | loop =>
          have hframe : FrameRel R (some ⟨exit stop⟩) (some ⟨exit' stop'⟩) := .some (hexit hstop)
          have hjumps := map_classify_renamed hR .loop hbranches hstop haround hframe
          obtain ⟨hblocks, hinner⟩ := classifyAll_renamed hall hframe .none (firstRound?_renamed hjumps)
          exact ⟨.mk rfl rfl hstart hstop hjumps hinner hblocks, hpoint⟩
      | root =>
          have hjumps := map_classify_renamed hR .root hbranches hstop haround hframe
          have hpoint := rel_or hpoint (firstRound?_renamed hjumps)
          obtain ⟨hblocks, hpoint'⟩ := classifyAll_renamed hall hframe .none hpoint
          exact ⟨.mk rfl rfl hstart hstop (map_settle_renamed hR hpoint hjumps) hcontinue hblocks, hpoint'⟩
      | conditional =>
          have hjumps := map_classify_renamed hR .conditional hbranches hstop haround hframe
          have hpoint := rel_or hpoint (firstRound?_renamed hjumps)
          obtain ⟨hblocks, hpoint'⟩ := classifyAll_renamed hall hframe (.some hstop) hpoint
          exact ⟨.mk rfl rfl hstart hstop (map_settle_renamed hR hpoint hjumps) hcontinue hblocks, hpoint'⟩

end Block

namespace Stream

open Addr

variable {R : Addr → Addr → Prop} {instrs instrs' : List Instruction}

/-- **Block trees** of streams that differ in their addresses. -/
theorem blockTree_renamed (hR : KeepsOrder R) (h : List.Forall₂ (Instruction.Renamed R) instrs instrs')
    (hne : instrs ≠ []) : EndsAlike (Block.Renamed R) (blockTree instrs) (blockTree instrs') :=
  (nest_renamed hR h hne).bind fun _ _ htree =>
    .ok (Block.classify_renamed hR (after?_renamed hR h) htree .none .none .none).1

end Stream

end TorqueScript
