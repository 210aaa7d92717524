import TorqueScript.Proofs.JumpClasses

/-!
# Where rebuilt jumps lead

An unconditional jump has a place in the rebuilt statements by its class: it becomes a `break`, or it divides
the two parts of a choice.

* `Region.Walks.origins`: the jumps and choices among the regions of a stream come from jumps and blocks of
  the tree, and a walk through a block ends in front of the jump that ends the block.

**Targets** (`Stream.targets_of_rebuild`).  A `break` leads past the innermost loop around it, and right behind
this loop if it stands in a choice inside of it.  A jump over an alternative that leads ahead, and not into the
alternative, leads right behind the alternative, unless the alternative is cut off at the end of the block
around the choice.  Of the jumps that lead back or into the alternative this is not so
(`Stream.rebuild_unguardedJumps`).
-/

namespace TorqueScript

namespace Region

/-! ### Regions inside regions -/

mutual

/-- The region and all regions inside it, each before those inside it. -/
def preorder : Region → List Region
  | plain ins => [plain ins]
  | jump ins kind => [jump ins kind]
  | broken addr => [broken addr]
  | choice head kind stop body => choice head kind stop body :: listPreorder body
  | choiceElse head kind stop body separator alternative =>
    choiceElse head kind stop body separator alternative :: (listPreorder body ++ listPreorder alternative)
  | loop start stop body split step back =>
    loop start stop body split step back :: (listPreorder body ++ listPreorder step)
  | guarded head kind stop body split step back =>
    guarded head kind stop body split step back :: (listPreorder body ++ listPreorder step)

/-- Regions that follow each other and all regions inside them. -/
def listPreorder : List Region → List Region
  | [] => []
  | region :: regions => region.preorder ++ listPreorder regions

end

variable {instrs : List Instruction} {tree : Block}

/-- The instruction that ends a loop, or the first part of a choice, comes at the position or behind it. -/
def Bounded (instrs : List Instruction) (b : Block) (i : Nat) : Prop :=
  b.kind ≠ .root → b.kind = .loop ∨ b.alternative?.isSome →
    ∃ m x, i ≤ m ∧ instrs[m]? = some x ∧ x.addr = b.stop

theorem Bounded.mono {b : Block} {i j : Nat} (h : Bounded instrs b j) (hij : i ≤ j) : Bounded instrs b i := by
  intro hroot hend
  obtain ⟨m, x, hjm, hm⟩ := h hroot hend
  exact ⟨m, x, hij.trans hjm, hm⟩

theorem bounded_of_get {b : Block} {i : Nat} {x : Instruction} (hi : instrs[i]? = some x) (hx : x.addr = b.stop) :
    Bounded instrs b i :=
  fun _ _ => ⟨i, x, le_rfl, hi, hx⟩

/-- The alternative of the choice `child`, which is divided by the jump `branch` at position `i` and read inside
`parent`, up to position `k`. -/
structure Divides (instrs : List Instruction) (tree parent child : Block) (branch : Branch) (i k : Nat)
    (alternative : List Region) : Prop where
  parent_mem : parent ∈ tree.preorder
  child_mem : child ∈ parent.children
  kind_eq : child.kind = .conditional
  branch_eq : child.alternative? = some branch
  get : ∃ x, instrs[i]? = some x ∧ x.addr = branch.addr
  walks : ∃ used, Walks instrs parent (min branch.target parent.alternativeStop) (i + 1) alternative used k
  unbroken : ListUnbroken alternative
  bounded : Bounded instrs parent k

/-- What a jump or a choice with an alternative comes from. -/
def Origin (instrs : List Instruction) (tree : Block) : Region → Prop
  | jump ins kind => ins ∈ instrs ∧ ∃ b ∈ tree.preorder, ∃ j ∈ b.branches, j.addr = ins.addr ∧ j.kind = kind
  | choiceElse head _ stop _ separator alternative =>
    ∃ parent child branch i k, child.start = head.addr ∧ child.stop = stop ∧ branch.addr = separator ∧
      Divides instrs tree parent child branch i k alternative
  | _ => True

mutual

/-- **Regions of a walk** come from the jumps and blocks of the tree. -/
theorem Walks.origins {block : Block} {stop : Addr} {i j : Nat} {regions : List Region} {used : List Nat}
    (hblock : block ∈ tree.preorder) :
    Walks instrs block stop i regions used j → i ≤ instrs.length → ListUnbroken regions → Bounded instrs block j →
      ∀ r ∈ listPreorder regions, Origin instrs tree r
  | .nothing _, _, _, _ | .halt _ _, _, _, _ => nofun
  | .inner hget _ hchild h hrest, _, hunbroken, hbounded => by
      obtain ⟨-, hj⟩ := h.lt (lt_length hget)
      have hregion := h.origins hblock hchild hget hunbroken.1 (hbounded.mono (hrest.le hj).1)
      exact List.forall_mem_append.mpr ⟨hregion, hrest.origins hblock hj hunbroken.2 hbounded⟩
  | .jump hget _ _ hbranch hrest, _, hunbroken, hbounded => by
      obtain ⟨hmem, haddr⟩ := mem_of_branchAt? hbranch
      refine List.forall_mem_cons.mpr ⟨?_, hrest.origins hblock (lt_length hget) hunbroken.2 hbounded⟩
      exact ⟨List.mem_of_getElem? hget, block, hblock, _, hmem, haddr, rfl⟩
  | .plain hget _ _ _ hrest, _, hunbroken, hbounded =>
      List.forall_mem_cons.mpr ⟨trivial, hrest.origins hblock (lt_length hget) hunbroken.2 hbounded⟩

theorem WalksChild.origins {parent child : Block} {i j : Nat} {ins : Instruction} {region : Region}
    {used : List Nat} (hparent : parent ∈ tree.preorder) (hchild : parent.childAt? ins.addr = some child)
    (hi : instrs[i]? = some ins) :
    WalksChild instrs parent child i region used j → region.Unbroken → Bounded instrs parent j →
      ∀ r ∈ region.preorder, Origin instrs tree r
  | .loop _ h, hunbroken, _ => by
      have hmem := (mem_preorder_child hparent hchild).1
      exact List.forall_mem_cons.mpr ⟨trivial, h.origins hmem (lt_length hi).le hunbroken⟩
  | .guarded _ _ _ hloop h, hunbroken, _ => by
      have hmem := (mem_preorder_child hparent hchild).1
      obtain ⟨_, _, hinner, -⟩ := guardedLoop?_eq_some hloop
      have hinner := Block.mem_preorder_trans hmem (Block.mem_preorder_of_mem_children hinner)
      exact List.forall_mem_cons.mpr ⟨trivial, h.origins hinner (lt_length hi) hunbroken⟩
  | .choice _ hkind _ _ helse h, hunbroken, _ => by
      have hmem := (mem_preorder_child hparent hchild).1
      refine List.forall_mem_cons.mpr ⟨trivial, h.origins hmem (lt_length hi) hunbroken fun _ hend => ?_⟩
      -- nothing holds the end of such a choice back
      rcases hend with hloop | hend
      · rw [hkind] at hloop
        cases hloop
      · rw [helse] at hend
        cases hend
  | .choiceElse hi' hkind _ _ helse h hj haddr halt, hunbroken, hbounded => by
      cases Option.some.inj (hi.symm.trans hi')
      obtain ⟨hmem, hstart⟩ := mem_preorder_child hparent hchild
      have hbody := h.origins hmem (lt_length hi) hunbroken.1
        (bounded_of_get hj (haddr.trans (mem_of_alternative? helse).2))
      have hrest := halt.origins hparent (lt_length hj) hunbroken.2 hbounded
      refine List.forall_mem_cons.mpr ⟨?_, List.forall_mem_append.mpr ⟨hbody, hrest⟩⟩
      exact ⟨parent, child, _, _, _, hstart, rfl, rfl, {
        parent_mem := hparent
        child_mem := List.mem_of_find?_eq_some hchild
        kind_eq := hkind
        branch_eq := helse
        get := ⟨_, hj, haddr⟩
        walks := ⟨_, halt⟩
        unbroken := hunbroken.2
        bounded := hbounded }⟩
  | .noSeparator .., hunbroken, _ => hunbroken.2.1.elim
  | .noHead .., hunbroken, _ => absurd rfl hunbroken

theorem WalksLoop.origins {block : Block} {i j : Nat} {parts : LoopRegions} {used : List Nat}
    (hblock : block ∈ tree.preorder) :
    WalksLoop instrs block i parts used j → i ≤ instrs.length → UnbrokenParts parts →
      ∀ r ∈ listPreorder parts.body ++ listPreorder parts.step, Origin instrs tree r
  | .whole _ h hj haddr _, hi, hunbroken =>
      List.forall_mem_append.mpr ⟨h.origins hblock hi hunbroken.1 (bounded_of_get hj haddr), nofun⟩
  | .split _ h hstep hk haddr _, hi, hunbroken => by
      obtain ⟨-, hj⟩ := h.le hi
      have hbounded := bounded_of_get hk haddr
      exact List.forall_mem_append.mpr ⟨h.origins hblock hi hunbroken.1 (hbounded.mono (hstep.le hj).1),
        hstep.origins hblock hj (hunbroken.2.1 rfl) hbounded⟩
  | .wholeNoBack .., _, hunbroken | .splitNoBack .., _, hunbroken => absurd hunbroken.2.2 Bool.false_ne_true

end

/-! ### Where an alternative ends -/

section Ends

variable {block parent child : Block} {branch : Branch} {stop : Addr} {i j k : Nat} {regions alternative : List Region}
  {used : List Nat}

/-- A walk takes the instructions that it passes. -/
theorem Walks.mem_addrs (h : Walks instrs block stop i regions used j) (hi : i ≤ instrs.length)
    (hunbroken : ListUnbroken regions) {n : Nat} {x : Instruction} (hin : i ≤ n) (hnj : n < j)
    (hn : instrs[n]? = some x) : x.addr ∈ listAddrs regions := by
  have hat := h.at_addrs hunbroken
  rw [h.covers hi hunbroken, At] at hat
  have hmem : some x.addr ∈ (List.Ico i j).map fun n => (instrs[n]?).map (·.addr) :=
    List.mem_map.mpr ⟨n, List.Ico.mem.mpr ⟨hin, hnj⟩, by rw [hn]; rfl⟩
  rw [hat] at hmem
  simpa using hmem

/-- Behind the last instruction that a walk takes comes the one where it ends. -/
theorem Walks.after?_last (hinstrs : Stream.Increasing instrs) (h : Walks instrs block stop (i + 1) regions used j)
    (hunbroken : ListUnbroken regions) {x : Instruction} (hi : instrs[i]? = some x) :
    Stream.after? instrs ((listAddrs regions).getLastD x.addr) = (instrs[j]?).map (·.addr) := by
  obtain ⟨hij, -⟩ := h.le (lt_length hi)
  have hat := (h.at_addrs hunbroken).cons hi
  obtain ⟨m, rfl⟩ : ∃ m, j = m + 1 := ⟨j - 1, by omega⟩
  rw [h.covers (lt_length hi) hunbroken, ← List.Ico.eq_cons hij, List.Ico.succ_top (by omega), At] at hat
  -- the last of the positions is that of the last address
  have hlast := congrArg List.getLast? hat
  rw [List.map_append, List.map_singleton, List.getLast?_concat, List.getLast?_map, List.getLast?_cons] at hlast
  obtain ⟨y, hy, heq⟩ := Option.map_eq_some_iff.mp (Option.some.inj hlast)
  rw [List.getLastD_eq_getLast?, ← heq, hinstrs.after?_eq hy]

theorem le_alternativeStop {b : Block} {a : Addr} (ha : a ≤ b.stop) (hlast : a ≤ Addr.last) :
    a ≤ b.alternativeStop := by
  rw [Block.alternativeStop]
  split
  · exact ha
  · exact le_min (Nat.le_succ_of_le ha) hlast

/-- An alternative that reaches up to the target of the jump over it. -/
theorem Divides.reaches (hinstrs : Stream.Increasing instrs)
    (h : Divides instrs tree parent child branch i k alternative) (hland : Stream.Occurs instrs branch.target)
    (hahead : branch.addr < branch.target) (hout : branch.target ∉ listAddrs alternative)
    (hle : branch.target ≤ parent.alternativeStop) :
    (instrs[k]?).map (·.addr) = some branch.target := by
  obtain ⟨x, hi, haddr⟩ := h.get
  obtain ⟨used, hwalks⟩ := h.walks
  obtain ⟨y, hy, htarget⟩ := hland
  obtain ⟨n, hn⟩ := List.mem_iff_getElem?.mp hy
  have hin : i < n := hinstrs.lt_of_addr_lt hi hn (by rw [haddr, htarget]; exact hahead)
  have hkn : k ≤ n := by
    by_contra hlt
    exact hout (htarget ▸ hwalks.mem_addrs (lt_length hi) h.unbroken hin (Nat.not_le.mp hlt) hn)
  have hk := List.getElem?_eq_getElem (hkn.trans_lt (lt_length hn))
  have hstop := hwalks.stop_le hk
  rw [min_eq_left hle] at hstop
  rw [hk, Option.map_some, le_antisymm (htarget ▸ hinstrs.addr_le hk hn hkn) hstop]

/-- An alternative that is cut off at the end of the block around the choice. -/
theorem Divides.cut (hfits : Fits instrs tree) (h : Divides instrs tree parent child branch i k alternative)
    (hroot : parent.kind ≠ .root) (hoccurs : Stream.Occurs instrs parent.stop)
    (hlt : parent.alternativeStop < branch.target) :
    (instrs[k]?).map (·.addr) = if parent.kind = .loop ∨ parent.alternative?.isSome then some parent.stop
      else Stream.after? instrs parent.stop := by
  have hinstrs := hfits.increasing
  obtain ⟨x, hi, haddr⟩ := h.get
  obtain ⟨used, hwalks⟩ := h.walks
  have hstop : ∀ y, instrs[k]? = some y → parent.alternativeStop ≤ y.addr := fun y hy => by
    have hle := hwalks.stop_le hy
    rwa [min_eq_right hlt.le] at hle
  by_cases hend : parent.kind = .loop ∨ parent.alternative?.isSome
  · rw [if_pos hend]
    rw [Block.alternativeStop, if_pos hend] at hstop
    obtain ⟨m, y, hkm, hm, hy⟩ := h.bounded hroot hend
    have hk := List.getElem?_eq_getElem (hkm.trans_lt (lt_length hm))
    rw [hk, Option.map_some, le_antisymm (hy ▸ hinstrs.addr_le hk hm hkm) (hstop _ hk)]
  · rw [if_neg hend]
    have hkind : parent.kind = .conditional := by
      cases hkind : parent.kind with
      | root => exact absurd hkind hroot
      | conditional => rfl
      | loop => exact absurd (.inl hkind) hend
    have hnext : parent.alternativeStop = parent.stop + 1 := by
      rw [Block.alternativeStop, if_neg hend]
      exact min_eq_left (hfits.stop_lt parent h.parent_mem hkind)
    -- the walk stays in the block, and it ends behind it
    have hseparator : x.addr ≤ parent.stop := by
      rw [haddr, (mem_of_alternative? h.branch_eq).2]
      exact ((hfits.tidy parent h.parent_mem).surrounds child h.child_mem).stop_le
    have hupto := hwalks.upto hfits h.parent_mem ((min_le_right _ _).trans hnext.le) h.unbroken
      (upto_succ hinstrs hi hseparator)
    obtain ⟨y, hy, hyaddr⟩ := hoccurs
    obtain ⟨m, hm⟩ := List.mem_iff_getElem?.mp hy
    have hmk : m < k := by
      by_contra hkm
      have hk := List.getElem?_eq_getElem ((Nat.not_lt.mp hkm).trans_lt (lt_length hm))
      have hle := (hstop _ hk).trans (hinstrs.addr_le hk hm (Nat.not_lt.mp hkm))
      rw [hnext, hyaddr] at hle
      exact Nat.not_succ_le_self _ hle
    obtain rfl : k = m + 1 := by
      refine le_antisymm (Nat.le_of_not_lt fun hlt => ?_) hmk
      have hnext := List.getElem?_eq_getElem (hlt.trans_le (hwalks.le (lt_length hi)).2)
      have hgt := hinstrs.addr_lt hm hnext (Nat.lt_succ_self m)
      exact Nat.not_le.mpr (hyaddr ▸ hgt) (hupto (m + 1) _ hlt hnext)
    rw [← hyaddr, hinstrs.after?_eq hm]

end Ends

end Region

namespace Stream

open Region

variable {instrs : List Instruction} {tree : Block} {nodes : List Node}

/-! ### Whole streams -/

/-- The jump leads past the innermost loop around it, and right behind this loop unless the loop itself owns it. -/
def LeavesLoop (instrs : List Instruction) (tree : Block) (ins : Instruction) : Prop :=
  ∃ target l, ins.jump? = some (.always, target) ∧ tree.InnermostLoop l ins.addr ∧ l.stop < target ∧
    ((∀ j ∈ l.branches, j.addr ≠ ins.addr) → after? instrs l.stop = some target)

/-- The alternative of a choice inside `parent` ends with this block, in front of its jump back or its own jump over
an alternative, and the jump over the alternative leads farther. -/
structure CutOff (instrs : List Instruction) (tree parent : Block) (separator target : Addr)
    (behind : Option Addr) : Prop where
  stop_lt : parent.stop < target
  behind_eq : behind = if parent.kind = .loop ∨ parent.alternative?.isSome then some parent.stop
    else after? instrs parent.stop
  loops : parent.kind = .loop ∧ after? instrs parent.stop ≠ some target ∨
    ∀ l ∈ tree.preorder, l.kind = .loop → ¬ l.contains separator

/-- The jump at `separator` leads over the alternative.  If it leads ahead, but not into the alternative, then it
leads right behind the alternative, or this is cut off. -/
def LeadsOver (instrs : List Instruction) (tree : Block) (head : Instruction) (separator : Addr)
    (alternative : List Region) : Prop :=
  ∃ ins ∈ instrs, ∃ target, ins.addr = separator ∧ ins.jump? = some (.always, target) ∧
    ∃ parent ∈ tree.preorder, ∃ child ∈ parent.children, child.kind = .conditional ∧
      child.start = head.addr ∧ child.stop = separator ∧
      (separator < target → target ∉ listAddrs alternative →
        let behind := after? instrs ((listAddrs alternative).getLastD separator)
        behind = some target ∨ CutOff instrs tree parent separator target behind)

theorem stop_of_root {made : List Block} (hseeds : Seeds instrs instrs 1 made)
    (hcomplete : Complete instrs made tree) {b : Block} (hb : b ∈ tree.preorder) (hroot : b.kind = .root) :
    b.stop = last instrs := by
  have hmem : b.bare ∈ root instrs :: made := hcomplete.blocks_perm.mem_iff.mp (List.mem_map_of_mem hb)
  rcases List.mem_cons.mp hmem with heq | hmem
  · exact congrArg Block.stop heq
  · obtain ⟨ins, -, hmade⟩ := hseeds.made b.bare hmem
    have hroot : b.bare.kind = .root := hroot
    rw [hroot] at hmade
    cases hmade

/-- The jumps of the tree have the classes that they are given. -/
theorem judged_of_blockTree (h : Increasing instrs) (htree : blockTree instrs = .ok tree) :
    tree.Tidy ∧ Block.Judged (after? instrs) tree tree none none := by
  obtain ⟨made, nested, -, -, -, hassembles, heq⟩ := assembles_of_blockTree h htree
  have htidy := (hassembles.complete ⟨_, _, _, _, heq⟩).tidy
  exact ⟨htidy, Block.judged_root htidy (heq ▸ Block.classed_classify _ _ _ _ _)⟩

theorem leavesLoop_of_origin (h : Increasing instrs) (htree : blockTree instrs = .ok tree) {ins : Instruction}
    (horigin : Origin instrs tree (.jump ins .leave)) : LeavesLoop instrs tree ins := by
  obtain ⟨hins, b, hb, j, hj, haddr, hkind⟩ := horigin
  obtain ⟨htidy, hroot⟩ := judged_of_blockTree h htree
  obtain ⟨made, -, -, hcomplete⟩ := complete_of_blockTree h htree
  obtain ⟨ins', hins', haddr', hjump⟩ := hcomplete.mem_branches_iff.mp ⟨b, hb, j, hj, rfl, rfl⟩
  obtain rfl := h.eq_of_addr_eq hins' hins (haddr'.trans haddr)
  obtain ⟨frame, around, hjudged⟩ := hroot.exists_of_mem htidy hb
  obtain ⟨l, hinner, htarget⟩ := hjudged.leave htidy hj hkind
  refine ⟨j.target, l, hjump, haddr ▸ hinner, ?_⟩
  rcases htarget with ⟨rfl, hlt⟩ | hexit
  · exact ⟨hlt, fun hnone => absurd haddr (hnone j hj)⟩
  · exact ⟨h.lt_of_after? hexit, fun _ => hexit⟩

theorem leadsOver_of_origin (h : Increasing instrs) (hlast : ∀ ins ∈ instrs, ins.addr ≤ Addr.last)
    (htree : blockTree instrs = .ok tree) {head : Instruction} {kind : JumpKind} {stop separator : Addr}
    {body alternative : List Region}
    (horigin : Origin instrs tree (.choiceElse head kind stop body separator alternative)) :
    LeadsOver instrs tree head separator alternative := by
  obtain ⟨parent, child, branch, i, k, hstart, -, rfl, hdivides⟩ := horigin
  obtain ⟨htidy, hroot⟩ := judged_of_blockTree h htree
  obtain ⟨made, -, hseeds, hcomplete⟩ := complete_of_blockTree h htree
  have hfits := fits_of_complete h hlast hseeds hcomplete
  have hchild := Block.mem_preorder_trans hdivides.parent_mem (Block.mem_preorder_of_mem_children hdivides.child_mem)
  obtain ⟨hbranch, hstop⟩ := mem_of_alternative? hdivides.branch_eq
  obtain ⟨ins, hins, haddr, hjump⟩ := hcomplete.mem_branches_iff.mp ⟨child, hchild, branch, hbranch, rfl, rfl⟩
  refine ⟨ins, hins, branch.target, haddr, hjump, parent, hdivides.parent_mem, child, hdivides.child_mem,
    hdivides.kind_eq, hstart, hstop.symm, fun hahead hout => ?_⟩
  have hland : Occurs instrs branch.target := lands_of_blockTree htree ins hins _ _ hjump
  have hbehind : after? instrs ((listAddrs alternative).getLastD branch.addr) = (instrs[k]?).map (·.addr) := by
    obtain ⟨x, hi, hx⟩ := hdivides.get
    obtain ⟨used, hwalks⟩ := hdivides.walks
    exact hx ▸ hwalks.after?_last h hdivides.unbroken hi
  rw [hbehind]
  by_cases hle : branch.target ≤ parent.alternativeStop
  · exact .inl (hdivides.reaches h hland hahead hout hle)
  · have htarget : branch.target ≤ Addr.last := by
      obtain ⟨x, hx, heq⟩ := hland
      exact heq ▸ hlast x hx
    have hlt : parent.stop < branch.target := Nat.not_le.mp fun hstop => hle (le_alternativeStop hstop htarget)
    -- nothing comes behind the root
    have hnotRoot : parent.kind ≠ .root := fun hkind => by
      rw [stop_of_root hseeds hcomplete hdivides.parent_mem hkind] at hlt
      exact Nat.not_le.mpr hlt (h.le_last hland)
    obtain ⟨maker, hmaker, hmade⟩ := exists_maker hseeds hcomplete hdivides.parent_mem hnotRoot
    obtain ⟨frame, around, hjudged⟩ := hroot.exists_of_mem htidy hdivides.parent_mem
    have halternative : branch.kind = .alternative := by
      simpa using (Option.filter_eq_some_iff.mp hdivides.branch_eq).2
    exact .inr ⟨hlt, hdivides.cut hfits hnotRoot (hmade.occurs_stop hmaker) (Nat.not_le.mp hle),
      hjudged.alternative htidy hdivides.child_mem hnotRoot hdivides.kind_eq hbranch halternative hlt⟩

/-- **Where rebuilt jumps lead.**  The jumps that become `break` leave their loops, and the jumps between the two
parts of a choice lead over its alternative. -/
theorem targets_of_rebuild (h : Increasing instrs) (hlast : ∀ ins ∈ instrs, ins.addr ≤ Addr.last)
    (htree : (analyze instrs).outcome.1 = .ok tree) (hnodes : (rebuild tree instrs).outcome.1 = .ok nodes) :
    (∀ ins, .jump ins .leave ∈ listPreorder (ofStream tree instrs) → LeavesLoop instrs tree ins) ∧
    ∀ head kind stop body separator alternative,
      .choiceElse head kind stop body separator alternative ∈ listPreorder (ofStream tree instrs) →
        LeadsOver instrs tree head separator alternative := by
  rw [outcome_analyze] at htree
  obtain ⟨made, nested, -, -, -, hassembles, heq⟩ := assembles_of_blockTree h htree
  have hkind : tree.kind = .root := by
    have hrecast : nested.Recast tree := ⟨_, _, _, _, heq⟩
    exact congrArg (·.kind) (hrecast.same.1.symm.trans hassembles.bare_eq)
  obtain ⟨hunbroken, used, hwalks⟩ := walks_of_rebuild hnodes
  have horigins := hwalks.origins tree.self_mem_preorder (Nat.zero_le _) hunbroken
    fun hroot => absurd hkind hroot
  exact ⟨fun ins hins => leavesLoop_of_origin h htree (horigins _ hins),
    fun _ _ _ _ _ _ hchoice => leadsOver_of_origin h hlast htree (horigins _ hchoice)⟩

/-- `do { if (1) break; if (1) return; else return; } while (1);` and a last `return`. -/
def breakAndElse : List Instruction :=
  [⟨0, 1, .loadImmedUint, .immediateUint 1⟩, ⟨1, 1, .jmpIfNot, .jump .ifNot 3⟩, ⟨2, 1, .jmp, .jump .always 10⟩,
    ⟨3, 1, .loadImmedUint, .immediateUint 1⟩, ⟨4, 1, .jmpIfNot, .jump .ifNot 7⟩, ⟨5, 1, .ret, .ret false⟩,
    ⟨6, 1, .jmp, .jump .always 8⟩, ⟨7, 1, .ret, .ret false⟩, ⟨8, 1, .loadImmedUint, .immediateUint 1⟩,
    ⟨9, 1, .jmpIf, .jump .ifTrue 0⟩, ⟨10, 1, .ret, .ret false⟩]

/-- The block tree of `breakAndElse`. -/
def breakAndElseTree : Block :=
  let leaving : Block := ⟨1, .conditional, 1, 2, [⟨2, 10, .leave⟩], none, []⟩
  let choice : Block := ⟨2, .conditional, 4, 6, [⟨6, 8, .alternative⟩], none, []⟩
  ⟨0, .root, 0, 10, [], none, [⟨3, .loop, 0, 9, [], none, [leaving, choice]⟩]⟩

theorem targets_of_rebuild_breakAndElse :
    Increasing breakAndElse ∧ (analyze breakAndElse).outcome.1 = .ok breakAndElseTree ∧
      LeavesLoop breakAndElse breakAndElseTree ⟨2, 1, .jmp, .jump .always 10⟩ ∧
      LeadsOver breakAndElse breakAndElseTree ⟨4, 1, .jmpIfNot, .jump .ifNot 7⟩ 6
        [.plain ⟨7, 1, .ret, .ret false⟩] := by
  have hincreasing : Increasing breakAndElse := by
    unfold Increasing breakAndElse
    decide
  have hlast : ∀ ins ∈ breakAndElse, ins.addr ≤ Addr.last := by
    unfold breakAndElse
    decide
  have htree : (analyze breakAndElse).outcome.1 = .ok breakAndElseTree := by cbv
  have hnodes : (rebuild breakAndElseTree breakAndElse).outcome.1 =
      .ok [.loop .doWhile none (.constant (.uint 1)) none
        [.ifElse (.constant (.uint 1)) [.breakLoop] [], .ifElse (.constant (.uint 1)) [.ret none] [.ret none]],
        .ret none] := by cbv
  obtain ⟨hleave, hover⟩ := targets_of_rebuild hincreasing hlast htree hnodes
  refine ⟨hincreasing, htree, hleave _ (List.mem_of_getElem? (i := 3) (by cbv)), ?_⟩
  exact hover _ .ifNot 6 [.plain ⟨5, 1, .ret, .ret false⟩] _ _ (List.mem_of_getElem? (i := 5) (by cbv))

/-- A loop with a jump that leads farther than right behind it. -/
def leavingFar : List Instruction :=
  [⟨0, 1, .jmp, .jump .always 4⟩, ⟨1, 1, .loadImmedUint, .immediateUint 1⟩, ⟨2, 1, .jmpIf, .jump .ifTrue 0⟩,
    ⟨3, 1, .ret, .ret false⟩, ⟨4, 1, .ret, .ret false⟩]

/-- The loop of `leavingFar`. -/
def leavingFarLoop : Block :=
  ⟨1, .loop, 0, 2, [⟨0, 4, .leave⟩], none, []⟩

/-- A choice inside of another one, with a jump over its alternative that leads farther than right behind it. -/
def leadingFar : List Instruction :=
  [⟨0, 1, .loadImmedUint, .immediateUint 1⟩, ⟨1, 1, .jmpIfNot, .jump .ifNot 7⟩,
    ⟨2, 1, .loadImmedUint, .immediateUint 1⟩, ⟨3, 1, .jmpIfNot, .jump .ifNot 6⟩, ⟨4, 1, .ret, .ret false⟩,
    ⟨5, 1, .jmp, .jump .always 8⟩, ⟨6, 1, .ret, .ret false⟩, ⟨7, 1, .ret, .ret false⟩, ⟨8, 1, .ret, .ret false⟩]

/-- The block tree of `leadingFar`. -/
def leadingFarTree : Block :=
  let choice : Block := ⟨2, .conditional, 3, 5, [⟨5, 8, .alternative⟩], none, []⟩
  ⟨0, .root, 0, 8, [], none, [⟨1, .conditional, 1, 6, [], none, [choice]⟩]⟩

/-- Jumps that lead past other instructions are rebuilt all the same: a `break` to address 4 where address 3 comes
right behind the loop, and a jump over an alternative to address 8 where a `return` at address 7 comes right behind
the alternative. -/
theorem rebuild_farJumps :
    (Increasing leavingFar ∧ ∃ tree, (analyze leavingFar).outcome.1 = .ok tree ∧
      (rebuild tree leavingFar).outcome.1 =
        .ok [.loop .doWhile none (.constant (.uint 1)) none [.breakLoop], .ret none, .ret none] ∧
      .jump ⟨0, 1, .jmp, .jump .always 4⟩ .leave ∈ listPreorder (ofStream tree leavingFar) ∧
      tree.InnermostLoop leavingFarLoop 0 ∧ after? leavingFar leavingFarLoop.stop = some 3) ∧
    Increasing leadingFar ∧ (analyze leadingFar).outcome.1 = .ok leadingFarTree ∧
      (rebuild leadingFarTree leadingFar).outcome.1 =
        .ok [.ifElse (.constant (.uint 1)) [.ifElse (.constant (.uint 1)) [.ret none] [.ret none]] [],
          .ret none, .ret none] ∧
      .choiceElse ⟨3, 1, .jmpIfNot, .jump .ifNot 6⟩ .ifNot 5 [.plain ⟨4, 1, .ret, .ret false⟩] 5
        [.plain ⟨6, 1, .ret, .ret false⟩] ∈ listPreorder (ofStream leadingFarTree leadingFar) ∧
      ⟨5, 1, .jmp, .jump .always 8⟩ ∈ leadingFar ∧ after? leadingFar 6 = some 7 ∧
      ⟨7, 1, .ret, .ret false⟩ ∈ leadingFar := by
  have hincreasing : Increasing leavingFar := by
    unfold Increasing leavingFar
    decide
  have hincreasing' : Increasing leadingFar := by
    unfold Increasing leadingFar
    decide
  have hinner : Block.InnermostLoop ⟨0, .root, 0, 4, [], none, [leavingFarLoop]⟩ leavingFarLoop 0 := by
    refine ⟨List.mem_of_getElem? (i := 1) (by cbv), rfl, rfl, fun q hq hkind _ => ?_⟩
    rcases Block.mem_preorder.mp hq with rfl | ⟨d, hd, hq⟩
    · cases hkind
    · cases List.mem_singleton.mp hd
      rcases Block.mem_preorder.mp hq with rfl | ⟨e, he, -⟩
      · exact .inl rfl
      · cases he
  refine ⟨⟨hincreasing, _, by cbv, by cbv, List.mem_of_getElem? (i := 1) (by cbv), hinner, by cbv⟩, hincreasing',
    by cbv, by cbv, List.mem_of_getElem? (i := 3) (by cbv), ?_, by cbv, ?_⟩
  · simp [leadingFar]
  · simp [leadingFar]

/-- A choice whose jump over the alternative leads back, in front of the choice. -/
def leadingBack : List Instruction :=
  [⟨0, 1, .ret, .ret false⟩, ⟨1, 1, .loadImmedUint, .immediateUint 1⟩, ⟨2, 1, .jmpIfNot, .jump .ifNot 5⟩,
    ⟨3, 1, .ret, .ret false⟩, ⟨4, 1, .jmp, .jump .always 0⟩, ⟨5, 1, .ret, .ret false⟩]

/-- A choice whose jump over the alternative leads into the alternative. -/
def leadingInside : List Instruction :=
  [⟨0, 1, .loadImmedUint, .immediateUint 1⟩, ⟨1, 1, .jmpIfNot, .jump .ifNot 4⟩, ⟨2, 1, .ret, .ret false⟩,
    ⟨3, 1, .jmp, .jump .always 7⟩, ⟨4, 1, .loadImmedUint, .immediateUint 1⟩, ⟨5, 1, .jmpIfNot, .jump .ifNot 9⟩,
    ⟨6, 1, .ret, .ret false⟩, ⟨7, 1, .ret, .ret false⟩, ⟨8, 1, .ret, .ret false⟩, ⟨9, 1, .ret, .ret false⟩]

/-- The alternative that `leadingInside` leads into. -/
def insideAlternative : List Region :=
  [.plain ⟨4, 1, .loadImmedUint, .immediateUint 1⟩, .choice ⟨5, 1, .jmpIfNot, .jump .ifNot 9⟩ .ifNot 8
    [.plain ⟨6, 1, .ret, .ret false⟩, .plain ⟨7, 1, .ret, .ret false⟩, .plain ⟨8, 1, .ret, .ret false⟩]]

/-- **Neither guard of `LeadsOver` can go.**  A jump over an alternative that leads back, and one that leads into the
alternative, are rebuilt all the same, and their statements go on right behind the alternative.  Both choices stand in
the root, so nothing is cut off. -/
theorem rebuild_unguardedJumps :
    (Increasing leadingBack ∧ ∃ tree, (analyze leadingBack).outcome.1 = .ok tree ∧
      (rebuild tree leadingBack).outcome.1 =
        .ok [.ret none, .ifElse (.constant (.uint 1)) [.ret none] [], .ret none] ∧
      .choiceElse ⟨2, 1, .jmpIfNot, .jump .ifNot 5⟩ .ifNot 4 [.plain ⟨3, 1, .ret, .ret false⟩] 4 [] ∈
        listPreorder (ofStream tree leadingBack) ∧
      ⟨4, 1, .jmp, .jump .always 0⟩ ∈ leadingBack ∧ after? leadingBack 4 = some 5) ∧
    Increasing leadingInside ∧ ∃ tree, (analyze leadingInside).outcome.1 = .ok tree ∧
      (rebuild tree leadingInside).outcome.1 =
        .ok [.ifElse (.constant (.uint 1)) [.ret none]
          [.ifElse (.constant (.uint 1)) [.ret none, .ret none, .ret none] []], .ret none] ∧
      .choiceElse ⟨1, 1, .jmpIfNot, .jump .ifNot 4⟩ .ifNot 3 [.plain ⟨2, 1, .ret, .ret false⟩] 3 insideAlternative ∈
        listPreorder (ofStream tree leadingInside) ∧
      ⟨3, 1, .jmp, .jump .always 7⟩ ∈ leadingInside ∧ 7 ∈ listAddrs insideAlternative ∧
      after? leadingInside ((listAddrs insideAlternative).getLastD 3) = some 9 := by
  have hback : Increasing leadingBack := by
    unfold Increasing leadingBack
    decide
  have hinside : Increasing leadingInside := by
    unfold Increasing leadingInside
    decide
  refine ⟨⟨hback, _, by cbv, by cbv, List.mem_of_getElem? (i := 2) (by cbv), ?_, by cbv⟩, hinside, _, by cbv, by cbv,
    List.mem_of_getElem? (i := 1) (by cbv), ?_, ?_, by cbv⟩
  · simp [leadingBack]
  · simp [leadingInside]
  · have haddrs : listAddrs insideAlternative = [4, 5, 6, 7, 8] := by cbv
    rw [haddrs]
    decide

end Stream

end TorqueScript
