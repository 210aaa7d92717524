import TorqueScript.Proofs.RenamedBlocks
import TorqueScript.Proofs.Coverage

/-!
# Renamed regions

Walks through related streams use the same positions for the same regions (`Region.Walks.renamed`).  Here a walk
may stop at an address that no instruction has, such as the one behind the end of a block; it is enough that
both walks stop in front of the same instructions (`Addr.Cuts`).
-/

namespace TorqueScript

/-! ### Looking into blocks -/

namespace Block

open Addr

variable {R : Addr → Addr → Prop} {b b' : Block} {a a' : Addr}

/-- Related blocks have related blocks inside at related addresses. -/
theorem Renamed.childAt? (hR : KeepsOrder R) (h : b.Renamed R b') (ha : R a a') :
    Option.Rel (Block.Renamed R) (b.childAt? a) (b'.childAt? a') := by
  obtain ⟨-, -, -, -, -, -, hchildren⟩ := h
  refine rel_find? (fun c c' hc => ?_) hchildren
  rw [Bool.beq_eq_decide_eq, Bool.beq_eq_decide_eq]
  exact decide_eq_decide.mpr (hR.eq_iff hc.start_rel ha)

/-- And related jumps. -/
theorem Renamed.branchAt? (hR : KeepsOrder R) (h : b.Renamed R b') (ha : R a a') :
    Option.Rel (Branch.Renamed R) (b.branchAt? a) (b'.branchAt? a') := by
  obtain ⟨-, -, -, -, hbranches, -, -⟩ := h
  refine rel_find? (fun j j' hj => ?_) hbranches
  rw [Bool.beq_eq_decide_eq, Bool.beq_eq_decide_eq]
  exact decide_eq_decide.mpr (hR.eq_iff hj.addr ha)

/-- The jump over an alternative is found on both sides or on none. -/
theorem Renamed.alternative? (hR : KeepsOrder R) (h : b.Renamed R b') :
    Option.Rel (Branch.Renamed R) b.alternative? b'.alternative? := by
  have hbranch := h.branchAt? hR h.stop_rel
  rw [Block.alternative?, Block.alternative?]
  generalize b.branchAt? b.stop = x at hbranch
  generalize b'.branchAt? b'.stop = y at hbranch
  cases hbranch with
  | none => exact .none
  | some hj =>
      rw [Option.filter_some, Option.filter_some, hj.kind]
      split
      · exact .some hj
      · exact .none

theorem Renamed.isSome_alternative? (hR : KeepsOrder R) (h : b.Renamed R b') :
    b.alternative?.isSome = b'.alternative?.isSome := by
  have halternative := h.alternative? hR
  generalize b.alternative? = x at halternative
  generalize b'.alternative? = y at halternative
  cases halternative <;> rfl

/-- The body of a choice ends at the same cut. -/
theorem Renamed.bodyStop (hR : KeepsOrder R) (h : b.Renamed R b') : Cuts R b.bodyStop b'.bodyStop := by
  rw [Block.bodyStop, Block.bodyStop, h.isSome_alternative? hR]
  split
  · exact hR.cuts h.stop_rel
  · exact hR.cuts_next h.stop_rel

/-- And so does its alternative. -/
theorem Renamed.alternativeStop (hR : KeepsOrder R) (h : b.Renamed R b') :
    Cuts R b.alternativeStop b'.alternativeStop := by
  rw [Block.alternativeStop, Block.alternativeStop, h.isSome_alternative? hR, h.kind_eq]
  split
  · exact hR.cuts h.stop_rel
  · exact hR.cuts_next h.stop_rel

/-- Loops are split at related addresses. -/
theorem Renamed.splitPoint? (hR : KeepsOrder R) (h : b.Renamed R b') :
    Option.Rel R b.splitPoint? b'.splitPoint? := by
  obtain ⟨-, -, hstart, hstop, -, hpoint, hchildren⟩ := h
  rw [Block.splitPoint?, Block.splitPoint?]
  generalize b.continuePoint = x at hpoint
  generalize b'.continuePoint = y at hpoint
  cases hpoint with
  | none => exact .none
  | @some point point' hpoint =>
      have hany : b.children.any (fun child => child.start < point && point ≤ child.stop) =
          b'.children.any (fun child => child.start < point' && point' ≤ child.stop) := by
        refine any_eq_of_forall₂ (fun c c' hc => ?_) hchildren
        simp only [hR.lt_iff hc.start_rel hpoint, hR.le_iff hpoint hc.stop_rel]
      rw [Option.filter_some, Option.filter_some]
      simp only [hany, hR.lt_iff hstart hpoint, hR.le_iff hpoint hstop]
      split
      · exact .some hpoint
      · exact .none

/-- A loop is guarded on both sides or on none. -/
theorem Renamed.guardedLoop? (hR : KeepsOrder R) (h : b.Renamed R b') {rest rest' : List Instruction}
    (hrest : List.Forall₂ (Instruction.Renamed R) rest rest') :
    Option.Rel (Block.Renamed R) (b.guardedLoop? rest) (b'.guardedLoop? rest') := by
  obtain ⟨-, -, -, hstop, -, -, hchildren⟩ := h
  cases hrest with
  | nil => exact .none
  | cons hins _ =>
      refine rel_find? (fun c c' hc => ?_) hchildren
      simp only [hc.kind_eq, Bool.beq_eq_decide_eq, hR.eq_iff hc.start_rel hins.addr,
        hR.eq_iff hc.stop_rel hstop]

end Block

/-! ### Regions -/

namespace Region

open Addr

/-- Missing jumps back, or ones that are the same up to related addresses. -/
def BackRel (R : Addr → Addr → Prop) : Option (Instruction × JumpKind) → Option (Instruction × JumpKind) → Prop :=
  Option.Rel fun back back' => back.1.Renamed R back'.1 ∧ back.2 = back'.2

/-- The regions are the same up to related addresses.  Of addresses that only errors tell, nothing is asked. -/
inductive Renamed (R : Addr → Addr → Prop) : Region → Region → Prop where
  | plain {ins ins' : Instruction} (h : ins.Renamed R ins') : Renamed R (.plain ins) (.plain ins')
  | jump {ins ins' : Instruction} (h : ins.Renamed R ins') (kind : BranchKind) :
      Renamed R (.jump ins kind) (.jump ins' kind)
  | broken (addr addr' : Addr) : Renamed R (.broken addr) (.broken addr')
  | choice {head head' : Instruction} {body body' : List Region} (h : head.Renamed R head') (kind : JumpKind)
      (stop stop' : Addr) (hbody : List.Forall₂ (Renamed R) body body') :
      Renamed R (.choice head kind stop body) (.choice head' kind stop' body')
  | choiceElse {head head' : Instruction} {body body' alternative alternative' : List Region}
      (h : head.Renamed R head') (kind : JumpKind) (stop stop' separator separator' : Addr)
      (hbody : List.Forall₂ (Renamed R) body body')
      (halternative : List.Forall₂ (Renamed R) alternative alternative') :
      Renamed R (.choiceElse head kind stop body separator alternative)
        (.choiceElse head' kind stop' body' separator' alternative')
  | loop {start start' : Addr} {body body' step step' : List Region}
      {back back' : Option (Instruction × JumpKind)} (h : R start start') (stop stop' : Addr) (split : Bool)
      (hbody : List.Forall₂ (Renamed R) body body') (hstep : List.Forall₂ (Renamed R) step step')
      (hback : BackRel R back back') :
      Renamed R (.loop start stop body split step back) (.loop start' stop' body' split step' back')
  | guarded {head head' : Instruction} {body body' step step' : List Region}
      {back back' : Option (Instruction × JumpKind)} (h : head.Renamed R head') (kind : JumpKind)
      (stop stop' : Addr) (split : Bool) (hbody : List.Forall₂ (Renamed R) body body')
      (hstep : List.Forall₂ (Renamed R) step step') (hback : BackRel R back back') :
      Renamed R (.guarded head kind stop body split step back)
        (.guarded head' kind stop' body' split step' back')

/-- The parts of loops are the same up to related addresses. -/
structure PartsRenamed (R : Addr → Addr → Prop) (parts parts' : LoopRegions) : Prop where
  body : List.Forall₂ (Renamed R) parts.body parts'.body
  split : parts.split = parts'.split
  step : List.Forall₂ (Renamed R) parts.step parts'.step
  back : BackRel R parts.back parts'.back

section Walks

variable {R : Addr → Addr → Prop} {instrs instrs' : List Instruction} (hR : KeepsOrder R)
  (hinstrs : List.Forall₂ (Instruction.Renamed R) instrs instrs')

/-- The jump back of a loop is there on both sides or on none. -/
theorem back?_renamed (hR : KeepsOrder R) {stop stop' : Addr} (hstop : R stop stop') {rest rest' : List Instruction}
    (h : List.Forall₂ (Instruction.Renamed R) rest rest') : BackRel R (back? stop rest) (back? stop' rest') := by
  cases h with
  | nil => exact .none
  | cons hins _ =>
      rw [back?, back?]
      simp only [hR.eq_iff hins.addr hstop]
      split
      · exact rel_map (fun _ _ hjump => ⟨hins, hjump.1⟩) (Stream.rel_jump? hins)
      · exact .none

include hR hinstrs

mutual

/-- **Walks through renamed streams** use the same positions for the same regions. -/
theorem Walks.renamed {block block' : Block} {stop stop' : Addr} {i j : Nat} {regions : List Region}
    {used : List Nat} (hblock : block.Renamed R block') (hstop : Cuts R stop stop') :
    Walks instrs block stop i regions used j →
      ∃ regions', List.Forall₂ (Renamed R) regions regions' ∧ Walks instrs' block' stop' i regions' used j
  | .nothing hi => ⟨[], .nil, .nothing (eq_none_of_rel (rel_getElem? hinstrs i) hi)⟩
  | .halt hi hle => by
      obtain ⟨ins', hi', hins⟩ := exists_of_rel (rel_getElem? hinstrs i) hi
      exact ⟨[], .nil, .halt hi' ((hins.le_iff hstop).mp hle)⟩
  | .inner hi hlt hchild h hrest => by
      obtain ⟨ins', hi', hins⟩ := exists_of_rel (rel_getElem? hinstrs i) hi
      obtain ⟨child', hchild', hrenamed⟩ := exists_of_rel (hblock.childAt? hR hins.addr) hchild
      obtain ⟨region', hregion, h'⟩ := h.renamed hblock hrenamed
      obtain ⟨regions', hregions, hrest'⟩ := hrest.renamed hblock hstop
      exact ⟨_, .cons hregion hregions, .inner hi' ((hins.lt_iff hstop).mp hlt) hchild' h' hrest'⟩
  | .jump hi hlt hchild hbranch hrest => by
      obtain ⟨ins', hi', hins⟩ := exists_of_rel (rel_getElem? hinstrs i) hi
      have hchild' := eq_none_of_rel (hblock.childAt? hR hins.addr) hchild
      obtain ⟨branch', hbranch', hj⟩ := exists_of_rel (hblock.branchAt? hR hins.addr) hbranch
      obtain ⟨regions', hregions, hrest'⟩ := hrest.renamed hblock hstop
      exact ⟨_, .cons (hj.kind ▸ .jump hins _) hregions,
        .jump hi' ((hins.lt_iff hstop).mp hlt) hchild' hbranch' hrest'⟩
  | .plain hi hlt hchild hbranch hrest => by
      obtain ⟨ins', hi', hins⟩ := exists_of_rel (rel_getElem? hinstrs i) hi
      have hchild' := eq_none_of_rel (hblock.childAt? hR hins.addr) hchild
      have hbranch' := eq_none_of_rel (hblock.branchAt? hR hins.addr) hbranch
      obtain ⟨regions', hregions, hrest'⟩ := hrest.renamed hblock hstop
      exact ⟨_, .cons (.plain hins) hregions, .plain hi' ((hins.lt_iff hstop).mp hlt) hchild' hbranch' hrest'⟩

/-- Walks through related blocks inside a block. -/
theorem WalksChild.renamed {parent parent' child child' : Block} {i j : Nat} {region : Region} {used : List Nat}
    (hparent : parent.Renamed R parent') (hchild : child.Renamed R child') :
    WalksChild instrs parent child i region used j →
      ∃ region', region.Renamed R region' ∧ WalksChild instrs' parent' child' i region' used j
  | .loop hkind h => by
      obtain ⟨parts', hparts, h'⟩ := h.renamed hchild
      refine ⟨_, ?_, .loop (hchild.kind_eq ▸ hkind) h'⟩
      exact hparts.split ▸ .loop hchild.start_rel _ _ _ hparts.body hparts.step hparts.back
  | .guarded hi hkind hjump hloop h => by
      obtain ⟨ins', hi', hins⟩ := exists_of_rel (rel_getElem? hinstrs i) hi
      obtain ⟨⟨kind', target'⟩, hjump', heq, -⟩ := exists_of_rel (Stream.rel_jump? hins) hjump
      obtain ⟨inner', hloop', hinner⟩ :=
        exists_of_rel (hchild.guardedLoop? hR (List.forall₂_drop (i + 1) hinstrs)) hloop
      obtain ⟨parts', hparts, h'⟩ := h.renamed hinner
      refine ⟨_, ?_, .guarded hi' (hchild.kind_eq ▸ hkind) hjump' hloop' h'⟩
      obtain rfl := heq
      exact hparts.split ▸ .guarded hins _ _ _ _ hparts.body hparts.step hparts.back
  | .choice hi hkind hjump hloop helse h => by
      obtain ⟨ins', hi', hins⟩ := exists_of_rel (rel_getElem? hinstrs i) hi
      obtain ⟨⟨kind', target'⟩, hjump', heq, -⟩ := exists_of_rel (Stream.rel_jump? hins) hjump
      have hloop' := eq_none_of_rel (hchild.guardedLoop? hR (List.forall₂_drop (i + 1) hinstrs)) hloop
      have helse' := eq_none_of_rel (hchild.alternative? hR) helse
      obtain ⟨body', hbody, h'⟩ := h.renamed hchild (hchild.bodyStop hR)
      refine ⟨_, ?_, .choice hi' (hchild.kind_eq ▸ hkind) hjump' hloop' helse' h'⟩
      obtain rfl := heq
      exact .choice hins _ _ _ hbody
  | .choiceElse hi hkind hjump hloop helse h hj haddr halt => by
      obtain ⟨ins', hi', hins⟩ := exists_of_rel (rel_getElem? hinstrs i) hi
      obtain ⟨⟨kind', target'⟩, hjump', heq, -⟩ := exists_of_rel (Stream.rel_jump? hins) hjump
      have hloop' := eq_none_of_rel (hchild.guardedLoop? hR (List.forall₂_drop (i + 1) hinstrs)) hloop
      obtain ⟨branch', helse', hbranch⟩ := exists_of_rel (hchild.alternative? hR) helse
      obtain ⟨body', hbody, h'⟩ := h.renamed hchild (hchild.bodyStop hR)
      obtain ⟨separator', hj', hseparator⟩ := exists_of_rel (rel_getElem? hinstrs _) hj
      obtain ⟨alternative', halternative, halt'⟩ :=
        halt.renamed hparent ((hR.cuts hbranch.target).min (hparent.alternativeStop hR))
      refine ⟨_, ?_, .choiceElse hi' (hchild.kind_eq ▸ hkind) hjump' hloop' helse' h' hj'
        ((hR.eq_iff hseparator.addr hbranch.addr).mp haddr) halt'⟩
      obtain rfl := heq
      exact .choiceElse hins _ _ _ _ _ hbody halternative
  | .noSeparator hi hkind hjump hloop helse h hj => by
      obtain ⟨ins', hi', hins⟩ := exists_of_rel (rel_getElem? hinstrs i) hi
      obtain ⟨⟨kind', target'⟩, hjump', heq, -⟩ := exists_of_rel (Stream.rel_jump? hins) hjump
      have hloop' := eq_none_of_rel (hchild.guardedLoop? hR (List.forall₂_drop (i + 1) hinstrs)) hloop
      obtain ⟨branch', helse', hbranch⟩ := exists_of_rel (hchild.alternative? hR) helse
      obtain ⟨body', hbody, h'⟩ := h.renamed hchild (hchild.bodyStop hR)
      rw [hinstrs.length_eq]
      refine ⟨_, ?_, .noSeparator hi' (hchild.kind_eq ▸ hkind) hjump' hloop' helse' h' ?_⟩
      · obtain rfl := heq
        exact .choiceElse hins _ _ _ _ _ hbody (.cons (.broken _ _) .nil)
      · intro separator' hj' haddr
        obtain ⟨separator, hj'', hseparator⟩ := exists_of_rel (rel_getElem? hinstrs.flip _) hj'
        exact hj separator hj'' ((hR.eq_iff hseparator.addr hbranch.addr).mpr haddr)
  | .noHead hi hkind hjump => by
      obtain ⟨ins', hi', hins⟩ := exists_of_rel (rel_getElem? hinstrs i) hi
      rw [hinstrs.length_eq]
      refine ⟨_, .jump hins _, .noHead hi' (hchild.kind_eq ▸ hkind) fun hkind => ?_⟩
      exact eq_none_of_rel (Stream.rel_jump? hins) (hjump (hchild.kind_eq ▸ hkind))

/-- Walks through related loops. -/
theorem WalksLoop.renamed {block block' : Block} {i j : Nat} {parts : LoopRegions} {used : List Nat}
    (hblock : block.Renamed R block') :
    WalksLoop instrs block i parts used j →
      ∃ parts', PartsRenamed R parts parts' ∧ WalksLoop instrs' block' i parts' used j
  | .whole hsplit h hj haddr hjump => by
      obtain ⟨body', hbody, h'⟩ := h.renamed hblock (hR.cuts hblock.stop_rel)
      obtain ⟨back', hj', hback⟩ := exists_of_rel (rel_getElem? hinstrs _) hj
      obtain ⟨⟨kind', target'⟩, hjump', rfl, -⟩ := exists_of_rel (Stream.rel_jump? hback) hjump
      refine ⟨_, ?_, .whole (eq_none_of_rel (hblock.splitPoint? hR) hsplit) h' hj'
        ((hR.eq_iff hback.addr hblock.stop_rel).mp haddr) hjump'⟩
      exact ⟨hbody, rfl, .nil, .some ⟨hback, rfl⟩⟩
  | .split hsplit h hstep hk haddr hjump => by
      obtain ⟨point', hsplit', hpoint⟩ := exists_of_rel (hblock.splitPoint? hR) hsplit
      obtain ⟨body', hbody, h'⟩ := h.renamed hblock (hR.cuts hpoint)
      obtain ⟨step', hstep, hstep'⟩ := hstep.renamed hblock (hR.cuts hblock.stop_rel)
      obtain ⟨back', hk', hback⟩ := exists_of_rel (rel_getElem? hinstrs _) hk
      obtain ⟨⟨kind', target'⟩, hjump', rfl, -⟩ := exists_of_rel (Stream.rel_jump? hback) hjump
      refine ⟨_, ?_, .split hsplit' h' hstep' hk' ((hR.eq_iff hback.addr hblock.stop_rel).mp haddr) hjump'⟩
      exact ⟨hbody, rfl, hstep, .some ⟨hback, rfl⟩⟩
  | .wholeNoBack hsplit h hj => by
      obtain ⟨body', hbody, h'⟩ := h.renamed hblock (hR.cuts hblock.stop_rel)
      have hj' := eq_none_of_rel (back?_renamed hR hblock.stop_rel (List.forall₂_drop _ hinstrs)) hj
      rw [hinstrs.length_eq]
      refine ⟨_, ?_, .wholeNoBack (eq_none_of_rel (hblock.splitPoint? hR) hsplit) h' hj'⟩
      exact ⟨hbody, rfl, .nil, .none⟩
  | .splitNoBack hsplit h hstep hk => by
      obtain ⟨point', hsplit', hpoint⟩ := exists_of_rel (hblock.splitPoint? hR) hsplit
      obtain ⟨body', hbody, h'⟩ := h.renamed hblock (hR.cuts hpoint)
      obtain ⟨step', hstep, hstep'⟩ := hstep.renamed hblock (hR.cuts hblock.stop_rel)
      have hk' := eq_none_of_rel (back?_renamed hR hblock.stop_rel (List.forall₂_drop _ hinstrs)) hk
      rw [hinstrs.length_eq]
      refine ⟨_, ?_, .splitNoBack hsplit' h' hstep' hk'⟩
      exact ⟨hbody, rfl, hstep, .none⟩

end

end Walks

/-- What is read of a stream, and a mark of failure if something is left. -/
theorem ofStream_eq_of_reads {tree : Block} {instrs rest : List Instruction} {regions : List Region}
    (h : Reads tree Addr.last instrs regions rest) :
    ofStream tree instrs = regions ++ (rest.head?.map fun ins => .broken ins.addr).toList := by
  rw [Reads] at h
  rw [ofStream]
  generalize read tree Addr.last instrs = result at h
  obtain ⟨regions', rest', hle⟩ := result
  obtain ⟨rfl, rfl⟩ := h
  cases rest' with
  | nil => exact (List.append_nil _).symm
  | cons ins rest => rfl

/-- **Regions of renamed streams.** -/
theorem ofStream_renamed {R : Addr → Addr → Prop} (hR : KeepsOrder R) {tree tree' : Block} (htree : tree.Renamed R tree')
    {instrs instrs' : List Instruction} (h : List.Forall₂ (Instruction.Renamed R) instrs instrs') :
    List.Forall₂ (Renamed R) (ofStream tree instrs) (ofStream tree' instrs') := by
  obtain ⟨regions, used, j, hwalks⟩ := exists_walks instrs tree Addr.last 0
  obtain ⟨regions', hregions, hwalks'⟩ := hwalks.renamed hR h htree cuts_last
  rw [ofStream_eq_of_reads (Stream.reads_of_walks hwalks), ofStream_eq_of_reads (Stream.reads_of_walks hwalks')]
  refine List.rel_append hregions ?_
  -- what is left over does not fit in both streams
  have hrest := List.forall₂_drop j h
  generalize instrs.drop j = rest at hrest
  generalize instrs'.drop j = rest' at hrest
  cases hrest with
  | nil => exact .nil
  | cons => exact .cons (.broken _ _) .nil

end Region

end TorqueScript
