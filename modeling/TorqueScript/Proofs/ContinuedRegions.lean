import TorqueScript.Proofs.Continuation

/-!
# Regions in front of more code

The front of two streams that go on in different ways falls into the same regions, and what follows is plain
(`Stream.Continues.ofStream_eq`).  A walk through the first stream passes instructions that both streams have, and
then the one where the other stream goes on.

* `Region.Walks.front`: as far as it stays in the front, it is a walk through the other stream too.
* `Region.EndsBefore`: there all blocks but the root have come to an end, so what follows is read instruction by
  instruction.
-/

namespace TorqueScript

/-! ### Regions -/

namespace Region

/-- In front of `a` end all blocks of a tree but the root, and there lie its jumps, which lead no further. -/
structure EndsBefore (a : Addr) (tree : Block) : Prop where
  tidy : tree.Tidy
  kind_eq : tree.kind = .root
  le_stop : a ≤ tree.stop
  stop_lt : ∀ b ∈ tree.preorder, b ≠ tree → b.stop < a
  branches : ∀ b ∈ tree.preorder, ∀ j ∈ b.branches, j.addr < a ∧ j.target ≤ a

/-- To what lies in front of `a`, both blocks are the same. -/
structure Alike (a : Addr) (b b' : Block) : Prop where
  children : b'.children = b.children
  branches : b'.branches = b.branches
  alternativeStop : ∀ target ≤ a, min target b'.alternativeStop = min target b.alternativeStop

theorem Alike.refl (a : Addr) (b : Block) : Alike a b b :=
  ⟨rfl, rfl, fun _ _ => rfl⟩

/-- Up to the address both blocks have the same children. -/
theorem Alike.childAt?_eq {a : Addr} {b b' : Block} (h : Alike a b b') (addr : Addr) :
    b'.childAt? addr = b.childAt? addr := by
  rw [Block.childAt?, h.children, Block.childAt?]

/-- And the same jumps. -/
theorem Alike.branchAt?_eq {a : Addr} {b b' : Block} (h : Alike a b b') (addr : Addr) :
    b'.branchAt? addr = b.branchAt? addr := by
  rw [Block.branchAt?, h.branches, Block.branchAt?]

variable {front code : List Instruction} {x y : Instruction} {tree : Block} {a : Addr}

namespace EndsBefore

/-- A child of a block that ends before an address does so too. -/
theorem child (h : EndsBefore a tree) {block child : Block} (hblock : block ∈ tree.preorder)
    (hchild : child ∈ block.children) : child ∈ tree.preorder ∧ child.stop < a := by
  have hmem := Block.mem_preorder_trans hblock (Block.mem_preorder_of_mem_children hchild)
  refine ⟨hmem, h.stop_lt child hmem ?_⟩
  rintro rfl
  exact h.tidy.not_mem_children hblock hchild

/-- No child is found behind. -/
theorem childAt?_eq_none (h : EndsBefore a tree) {addr : Addr} (haddr : a ≤ addr) : tree.childAt? addr = none := by
  refine List.find?_eq_none.mpr fun child hchild => ?_
  obtain ⟨hmem, hstop⟩ := h.child tree.self_mem_preorder hchild
  have hlt := (h.tidy child hmem).start_le_stop.trans_lt hstop
  simpa using (hlt.trans_le haddr).ne

/-- Nor is a jump. -/
theorem branchAt?_eq_none (h : EndsBefore a tree) {addr : Addr} (haddr : a ≤ addr) :
    tree.branchAt? addr = none := by
  refine List.find?_eq_none.mpr fun j hj => ?_
  simpa using ((h.branches tree tree.self_mem_preorder j hj).1.trans_le haddr).ne

/-- An alternative that ends in front of `a` is not cut off by the end of the root, wherever it is. -/
theorem min_alternativeStop (h : EndsBefore a tree) (ha : a ≤ Addr.last) {stop target : Addr} (hstop : a ≤ stop)
    (htarget : target ≤ a) : min target (Block.alternativeStop { tree with stop }) = target := by
  have hnone : Block.alternative? { tree with stop } = none := by
    have hbranch : Block.branchAt? { tree with stop } stop = none := h.branchAt?_eq_none hstop
    rw [Block.alternative?, hbranch]
    rfl
  rw [Block.alternativeStop, hnone]
  have hkind : ¬ (tree.kind = .loop ∨ (none : Option Branch).isSome) := by
    rw [h.kind_eq]
    simp
  rw [if_neg hkind]
  exact min_eq_left (htarget.trans (le_min (Nat.le_succ_of_le hstop) ha))

/-- A tree whose blocks end before an address is like one whose root is stretched. -/
theorem alike (h : EndsBefore a tree) (ha : a ≤ Addr.last) {stop : Addr} (hstop : a ≤ stop) :
    Alike a tree { tree with stop } where
  children := rfl
  branches := rfl
  alternativeStop _ htarget :=
    (h.min_alternativeStop ha hstop htarget).trans (h.min_alternativeStop ha h.le_stop htarget).symm

end EndsBefore

/-- The instructions in front are the same in both streams. -/
theorem getElem?_front {i : Nat} {ins : Instruction} (hi : i < front.length)
    (hget : (front ++ [x])[i]? = some ins) : (front ++ y :: code)[i]? = some ins := by
  rwa [List.getElem?_append_left hi] at hget ⊢

/-- Nothing is read behind the end. -/
theorem Walks.eq_nil {instrs : List Instruction} {block : Block} {stop : Addr} {i j : Nat} {regions : List Region}
    {used : List Nat} (h : Walks instrs block stop i regions used j) (hi : instrs.length ≤ i) : regions = [] := by
  cases h with
  | nothing | halt => rfl
  | inner hget | jump hget | plain hget => exact absurd (lt_length hget) (Nat.not_lt.mpr hi)

/-- Instructions at which no block begins and which are no jumps of the block are read one by one. -/
theorem reads_plain {block : Block} {stop : Addr} (hstop : ∀ ins ∈ code, ins.addr < stop)
    (hnone : ∀ ins ∈ code, block.childAt? ins.addr = none ∧ block.branchAt? ins.addr = none) :
    Reads block stop code (code.map .plain) [] := by
  induction code with
  | nil => exact .nil
  | cons ins code ih =>
      obtain ⟨hlt, hstop⟩ := List.forall_mem_cons.mp hstop
      obtain ⟨⟨hchild, hbranch⟩, hnone⟩ := List.forall_mem_cons.mp hnone
      exact .plain hlt hchild hbranch (ih hstop hnone)

section Front

variable (hstreams : Stream.Continues front x y code)

include hstreams

/-- An instruction that comes before the probe stands in front. -/
theorem getElem?_of_lt {i : Nat} {ins : Instruction} (hi : (front ++ [x])[i]? = some ins)
    (hlt : ins.addr < x.addr) : i < front.length ∧ (front ++ y :: code)[i]? = some ins := by
  have hx : (front ++ [x])[front.length]? = some x := by simp
  have hifront := hstreams.increasing_probe.lt_of_addr_lt hi hx hlt
  exact ⟨hifront, getElem?_front hifront hi⟩

/-- A guarded loop in front is told from the same instructions. -/
theorem guardedLoop?_front (b : Block) {i : Nat} (hi : i ≤ front.length) :
    b.guardedLoop? ((front ++ y :: code).drop i) = b.guardedLoop? ((front ++ [x]).drop i) := by
  rw [List.drop_append_of_le_length hi, List.drop_append_of_le_length hi]
  cases front.drop i with
  | nil => rw [List.nil_append, List.nil_append, Block.guardedLoop?, Block.guardedLoop?, hstreams.addr_eq]
  | cons ins rest => rfl

mutual

/-- A walk that ends in the front is a walk through the longer stream. -/
theorem Walks.front (hends : EndsBefore x.addr tree) {block block' : Block} {stop : Addr} {i j : Nat}
    {regions : List Region} {used : List Nat} (hblock : block ∈ tree.preorder) (halike : Alike x.addr block block')
    (hstop : stop ≤ x.addr) (hi : i ≤ front.length) :
    Walks (front ++ [x]) block stop i regions used j → ListUnbroken regions →
      j ≤ front.length ∧ Walks (front ++ y :: code) block' stop i regions used j
  | .nothing hget, _ => by
      rw [List.getElem?_eq_none_iff, List.length_append, List.length_singleton] at hget
      omega
  | .halt hget hle, _ => by
      rcases Nat.lt_or_eq_of_le hi with hlt | rfl
      · rw [List.getElem?_append_left hlt] at hget
        exact ⟨hi, .halt (by rw [List.getElem?_append_left hlt, hget]) hle⟩
      · have hy : (front ++ y :: code)[front.length]? = some y := by simp
        exact ⟨hi, .halt hy (hstop.trans_eq hstreams.addr_eq)⟩
  | .inner hget hlt hchild h hrest, hunbroken => by
      obtain ⟨hi, hget'⟩ := getElem?_of_lt hstreams hget (hlt.trans_le hstop)
      obtain ⟨hj, h'⟩ := h.front hends hblock halike (List.mem_of_find?_eq_some hchild) hi hunbroken.1
      obtain ⟨hk, hrest'⟩ := hrest.front hends hblock halike hstop hj hunbroken.2
      exact ⟨hk, .inner hget' hlt ((halike.childAt?_eq _).trans hchild) h' hrest'⟩
  | .jump hget hlt hchild hbranch hrest, hunbroken => by
      obtain ⟨hi, hget'⟩ := getElem?_of_lt hstreams hget (hlt.trans_le hstop)
      obtain ⟨hk, hrest'⟩ := hrest.front hends hblock halike hstop hi hunbroken.2
      exact ⟨hk, .jump hget' hlt ((halike.childAt?_eq _).trans hchild) ((halike.branchAt?_eq _).trans hbranch)
        hrest'⟩
  | .plain hget hlt hchild hbranch hrest, hunbroken => by
      obtain ⟨hi, hget'⟩ := getElem?_of_lt hstreams hget (hlt.trans_le hstop)
      obtain ⟨hk, hrest'⟩ := hrest.front hends hblock halike hstop hi hunbroken.2
      exact ⟨hk, .plain hget' hlt ((halike.childAt?_eq _).trans hchild) ((halike.branchAt?_eq _).trans hbranch)
        hrest'⟩

/-- **A walk over a child in front is a walk in the longer stream.** -/
theorem WalksChild.front (hends : EndsBefore x.addr tree) {parent parent' child : Block} {i j : Nat}
    {region : Region} {used : List Nat} (hparent : parent ∈ tree.preorder) (halike : Alike x.addr parent parent')
    (hchild : child ∈ parent.children) (hi : i < front.length) :
    WalksChild (front ++ [x]) parent child i region used j → region.Unbroken →
      j ≤ front.length ∧ WalksChild (front ++ y :: code) parent' child i region used j
  | .loop hkind h, hunbroken => by
      obtain ⟨hmem, hstop⟩ := hends.child hparent hchild
      obtain ⟨hj, h'⟩ := h.front hends hmem hstop hi.le hunbroken
      exact ⟨hj, .loop hkind h'⟩
  | .guarded hget hkind hjump hloop h, hunbroken => by
      obtain ⟨hmem, -⟩ := hends.child hparent hchild
      obtain ⟨-, -, hinner, -, -, -⟩ := guardedLoop?_eq_some hloop
      obtain ⟨hmem', hstop⟩ := hends.child hmem hinner
      obtain ⟨hj, h'⟩ := h.front hends hmem' hstop hi hunbroken
      exact ⟨hj, .guarded (getElem?_front hi hget) hkind hjump
        ((guardedLoop?_front hstreams child hi).trans hloop) h'⟩
  | .choice hget hkind hjump hloop helse h, hunbroken => by
      obtain ⟨hmem, hstop⟩ := hends.child hparent hchild
      obtain ⟨hj, h'⟩ := h.front hends hmem (.refl _ child) ((bodyStop_le child).trans hstop) hi hunbroken
      exact ⟨hj, .choice (getElem?_front hi hget) hkind hjump
        ((guardedLoop?_front hstreams child hi).trans hloop) helse h'⟩
  | .choiceElse hget hkind hjump hloop helse h hj haddr halt, hunbroken => by
      obtain ⟨hmem, hstop⟩ := hends.child hparent hchild
      obtain ⟨-, h'⟩ := h.front hends hmem (.refl _ child) ((bodyStop_le child).trans hstop) hi hunbroken.1
      obtain ⟨hbranch, htarget⟩ := hends.branches child hmem _ (mem_of_alternative? helse).1
      obtain ⟨hjlt, hj'⟩ := getElem?_of_lt hstreams hj (haddr.trans_lt hbranch)
      -- the alternative is read in the parent, which may be the root
      obtain ⟨hk, halt'⟩ := halt.front hends hparent halike ((min_le_left _ _).trans htarget) hjlt hunbroken.2
      rw [← halike.alternativeStop _ htarget] at halt'
      exact ⟨hk, .choiceElse (getElem?_front hi hget) hkind hjump
        ((guardedLoop?_front hstreams child hi).trans hloop) helse h' hj' haddr halt'⟩
  | .noSeparator .., hunbroken => hunbroken.2.1.elim
  | .noHead .., hunbroken => absurd rfl hunbroken

/-- So is a walk over a loop. -/
theorem WalksLoop.front (hends : EndsBefore x.addr tree) {block : Block} {i j : Nat} {parts : LoopRegions}
    {used : List Nat} (hblock : block ∈ tree.preorder) (hstop : block.stop < x.addr) (hi : i ≤ front.length) :
    WalksLoop (front ++ [x]) block i parts used j → UnbrokenParts parts →
      j ≤ front.length ∧ WalksLoop (front ++ y :: code) block i parts used j
  | .whole hsplit h hj haddr hjump, hunbroken => by
      obtain ⟨-, h'⟩ := h.front hends hblock (.refl _ block) hstop.le hi hunbroken.1
      obtain ⟨hjlt, hj'⟩ := getElem?_of_lt hstreams hj (haddr.trans_lt hstop)
      exact ⟨hjlt, .whole hsplit h' hj' haddr hjump⟩
  | .split hsplit h hstep hk haddr hjump, hunbroken => by
      have hpoint := (splitPoint_le hsplit).trans hstop.le
      obtain ⟨hj, h'⟩ := h.front hends hblock (.refl _ block) hpoint hi hunbroken.1
      obtain ⟨-, hstep'⟩ := hstep.front hends hblock (.refl _ block) hstop.le hj (hunbroken.2.1 rfl)
      obtain ⟨hklt, hk'⟩ := getElem?_of_lt hstreams hk (haddr.trans_lt hstop)
      exact ⟨hklt, .split hsplit h' hstep' hk' haddr hjump⟩
  | .wholeNoBack .., hunbroken | .splitNoBack .., hunbroken => absurd hunbroken.2.2 Bool.false_ne_true

end

/-- A walk through all of the shorter stream reads the front and ends with the instruction behind it. -/
theorem Walks.reads_continued (hends : EndsBefore x.addr tree) {tree' : Block} (halike : Alike x.addr tree tree')
    {stop : Addr} (hstop : ∀ ins ∈ y :: code, ins.addr < stop) {i j : Nat} {regions : List Region}
    {used : List Nat} (hi : i ≤ front.length) :
    Walks (front ++ [x]) tree stop i regions used j → ListUnbroken regions →
      ∃ fronts, regions = fronts ++ [.plain x] ∧
        Reads tree' stop ((front ++ y :: code).drop i) (fronts ++ (y :: code).map .plain) []
  | .nothing hget, _ => by
      rw [List.getElem?_eq_none_iff, List.length_append, List.length_singleton] at hget
      omega
  | .halt hget hle, _ => by
      have hxstop : x.addr < stop := hstreams.addr_eq.trans_lt (hstop y List.mem_cons_self)
      refine absurd hle (Nat.not_le.mpr ?_)
      rcases List.mem_append.mp (List.mem_of_getElem? hget) with hins | hins
      · exact (hstreams.front_lt hins).trans hxstop
      · rwa [List.mem_singleton.mp hins]
  | .inner hget hlt hchild h hrest, hunbroken => by
      have hltx : _ < x.addr := Nat.lt_of_not_le fun hle => by
        rw [hends.childAt?_eq_none hle] at hchild
        cases hchild
      obtain ⟨hi, hget'⟩ := getElem?_of_lt hstreams hget hltx
      obtain ⟨hj, h'⟩ := h.front hstreams hends tree.self_mem_preorder halike (List.mem_of_find?_eq_some hchild) hi
        hunbroken.1
      obtain ⟨fronts, rfl, hreads⟩ := hrest.reads_continued hends halike hstop hj hunbroken.2
      refine ⟨_ :: fronts, rfl, ?_⟩
      rw [drop_eq_cons hget']
      exact .inner hlt ((halike.childAt?_eq _).trans hchild) (h'.reads hget') hreads
  | .jump hget hlt hchild hbranch hrest, hunbroken => by
      have hltx : _ < x.addr := Nat.lt_of_not_le fun hle => by
        rw [hends.branchAt?_eq_none hle] at hbranch
        cases hbranch
      obtain ⟨hi, hget'⟩ := getElem?_of_lt hstreams hget hltx
      obtain ⟨fronts, rfl, hreads⟩ := hrest.reads_continued hends halike hstop hi hunbroken.2
      refine ⟨_ :: fronts, rfl, ?_⟩
      rw [drop_eq_cons hget']
      exact .jump _ hlt ((halike.childAt?_eq _).trans hchild) ((halike.branchAt?_eq _).trans hbranch) hreads
  | .plain hget hlt hchild hbranch hrest, hunbroken => by
      rcases Nat.lt_or_eq_of_le hi with hi | rfl
      · have hget' : (front ++ y :: code)[i]? = some _ := getElem?_front hi hget
        obtain ⟨fronts, rfl, hreads⟩ := hrest.reads_continued hends halike hstop hi hunbroken.2
        refine ⟨_ :: fronts, rfl, ?_⟩
        rw [drop_eq_cons hget']
        exact .plain hlt ((halike.childAt?_eq _).trans hchild) ((halike.branchAt?_eq _).trans hbranch) hreads
      · -- the last instruction of the shorter stream
        have hx : (front ++ [x])[front.length]? = some x := by simp
        cases Option.some.inj (hx.symm.trans hget)
        have hnil := hrest.eq_nil (by simp)
        refine ⟨[], by rw [hnil, List.nil_append], ?_⟩
        rw [List.drop_left]
        refine reads_plain hstop fun ins hins => ?_
        have hle : x.addr ≤ ins.addr := by
          rcases List.mem_cons.mp hins with rfl | hins
          · exact hstreams.addr_eq.le
          · exact (hstreams.code_gt hins).le
        rw [halike.childAt?_eq, halike.branchAt?_eq]
        exact ⟨hends.childAt?_eq_none hle, hends.branchAt?_eq_none hle⟩

end Front

end Region

namespace Stream.Continues

variable {front code : List Instruction} {x y : Instruction} {tree : Block}

/-- All blocks of the first stream end before the probe. -/
theorem endsBefore (h : Continues front x y code) (htree : blockTree (front ++ [x]) = .ok tree) :
    Region.EndsBefore x.addr tree := by
  obtain ⟨made, nested, hmade, hseeds, -, hassembles, htree'⟩ :=
    assembles_of_blockTree h.increasing_probe htree
  have hrecast : nested.Recast tree := ⟨_, _, _, _, htree'⟩
  have hcomplete := hassembles.complete hrecast
  have hbare : tree.bare = root (front ++ [x]) := hrecast.same.1.symm.trans hassembles.bare_eq
  refine { tidy := hcomplete.tidy, kind_eq := congrArg (·.kind) hbare, le_stop := ?_, stop_lt := ?_
           branches := ?_ }
  · have hstop : tree.stop = last (front ++ [x]) := congrArg (·.stop) hbare
    rw [hstop, last_concat]
  · intro b hb hne
    have hmem : b.bare ∈ root (front ++ [x]) :: made :=
      hcomplete.blocks_perm.mem_iff.mp (List.mem_map_of_mem hb)
    rcases List.mem_cons.mp hmem with heq | hmem
    · -- a second root would surround itself
      rcases hcomplete.tidy.eq_or_surrounds b hb with rfl | hsurrounds
      · exact absurd rfl hne
      · exact absurd (hsurrounds.congr rfl (heq.trans hbare.symm)) (Block.Surrounds.irrefl tree)
    · obtain ⟨ins, hins, hmade⟩ := hseeds.made b.bare hmem
      exact h.stop_lt_of_made hins hmade
  · intro b hb j hj
    obtain ⟨ins, hins, haddr, hjump⟩ := hcomplete.mem_branches_iff.mp ⟨b, hb, j, hj, rfl, rfl⟩
    rcases List.mem_append.mp hins with hins | hins
    · exact ⟨haddr.symm.trans_lt (h.front_lt hins), h.target_le hmade hins hjump⟩
    · rw [List.mem_singleton.mp hins, h.plain] at hjump
      cases hjump

/-- **Going on.**  The regions of the front are the same in both streams, and what follows is plain. -/
theorem ofStream_eq (h : Continues front x y code) (hlast : last (front ++ y :: code) < Addr.last)
    (htree : blockTree (front ++ [x]) = .ok tree)
    (hunbroken : Region.ListUnbroken (Region.ofStream tree (front ++ [x]))) :
    ∃ regions, Region.ofStream tree (front ++ [x]) = regions ++ [.plain x] ∧
      Region.ofStream { tree with stop := last (front ++ y :: code) } (front ++ y :: code) =
        regions ++ (y :: code).map .plain := by
  have hle : ∀ ins ∈ y :: code, ins.addr ≤ last (front ++ y :: code) := fun ins hins =>
    h.increasing.le_last ⟨ins, List.mem_append_right _ hins, rfl⟩
  have hxlast : x.addr ≤ last (front ++ y :: code) := h.addr_eq.trans_le (hle y List.mem_cons_self)
  obtain ⟨regions, used, j, hwalks⟩ := Region.exists_walks (front ++ [x]) tree Addr.last 0
  obtain ⟨-, hregions⟩ := ofStream_of_unbroken (reads_of_walks hwalks) hunbroken
  rw [hregions] at hunbroken ⊢
  have hends := h.endsBefore htree
  obtain ⟨fronts, rfl, hreads⟩ := hwalks.reads_continued h hends (hends.alike (hxlast.trans hlast.le) hxlast)
    (fun ins hins => (hle ins hins).trans_lt hlast) (Nat.zero_le _) hunbroken
  exact ⟨fronts, rfl, hreads.ofStream_eq⟩

end Stream.Continues

end TorqueScript
