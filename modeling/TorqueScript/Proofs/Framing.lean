import TorqueScript.Proofs.ToldEvents

/-!
# Blocks among the events of a stream

Each block of the tree is found among the events of a stream.

* `Region.Walks.told`: the regions that a walk takes tell of the positions that it passes.  This is an induction
  over the walk, with one lemma for each kind of block.
* `Stream.told_of_rebuild`: so the regions of a stream from which statements are rebuilt tell of all its
  instructions, and `Stream.framed_of_rebuild`: every block of its tree is found among their events.
-/

namespace TorqueScript

namespace Region

open Event

variable {instrs : List Instruction} {tree : Block} {es es' : List Event} {ins : Instruction}

/-! ### Instructions outside of blocks -/

/-- A jump of the block tells of itself. -/
theorem told_jump (hfits : Fits instrs tree) {block : Block} {branch : Branch} {i : Nat}
    (hblock : block ∈ tree.preorder) (hi : instrs[i]? = some ins)
    (hbranch : block.branchAt? ins.addr = some branch) : Told instrs tree i (i + 1) [.enter ins.addr] := by
  obtain ⟨hmem, haddr⟩ := mem_of_branchAt? hbranch
  obtain ⟨target, hjump⟩ := hfits.always block hblock branch hmem ins (List.mem_of_getElem? hi) haddr.symm
  refine .enter hfits.increasing hi (Nat.lt_succ_self i) (.nil (i + 1)) (Nat.le_succ i) le_rfl ?_
  intro n x hin hn _ hx
  obtain rfl : n = i := by omega
  cases Option.some.inj (hi.symm.trans hx)
  exact used_of_always hjump (.inl List.mem_cons_self)

/-- What a plain instruction does has its address. -/
theorem addr_of_mem_events {e : Event} {a : Addr} (he : e ∈ Event.enter ins.addr :: ins.events) (ha : a ∈ e.addr?) :
    a = ins.addr := by
  rcases List.mem_cons.mp he with rfl | he
  · exact (Option.some.inj ha).symm
  unfold Instruction.events at he
  split at he
  · cases List.mem_singleton.mp he
    exact (Option.some.inj ha).symm
  · split at he
    · cases he
    · cases List.mem_singleton.mp he
      exact (Option.some.inj ha).symm
  · cases he

/-- A plain instruction is used by its events. -/
theorem used_plain : Used instrs tree (.enter ins.addr :: ins.events) ins where
  entered := .inl List.mem_cons_self
  declared stop hdeclares := by
    obtain ⟨signature, h⟩ := hdeclares
    simp [Instruction.events, h]
  framed kind target hjump hkind := by
    have hoperation : ins.operation = .jump kind target := by
      unfold Instruction.jump? at hjump
      split at hjump
      · cases hjump
        assumption
      · cases hjump
    rw [JumpKind.makesBlock, Bool.and_eq_true, Bool.not_eq_true'] at hkind
    exact .inl (by simp [Instruction.events, hoperation, hkind.2])

/-- A plain instruction is told of by its own events. -/
theorem told_plain {i : Nat} (hi : instrs[i]? = some ins) :
    Told instrs tree i (i + 1) (.enter ins.addr :: ins.events) where
  within e he a ha := ⟨i, ins, le_rfl, Nat.lt_succ_self i, hi, (addr_of_mem_events he ha).symm⟩
  ordered := by
    refine List.pairwise_cons.mpr ⟨fun f hf a ha b hb => ⟨?_, fun stop h => by cases h⟩, ?_⟩
    · rw [addr_of_mem_events List.mem_cons_self ha, addr_of_mem_events (List.mem_cons_of_mem _ hf) hb]
    · -- besides being entered, an instruction does one thing at most
      unfold Instruction.events
      split
      · exact List.pairwise_singleton _ _
      · split
        · exact .nil
        · exact List.pairwise_singleton _ _
      · exact .nil
  used n x hin hn hx := by
    obtain rfl : n = i := by omega
    cases Option.some.inj (hi.symm.trans hx)
    exact used_plain

/-! ### Blocks -/

section Parts

variable {child : Block} {i j : Nat} {parts : LoopRegions} {kind : JumpKind} {target : Addr}

/-- The parts of a loop tell of its instructions, up to the jump back at its end. -/
def ToldLoop (instrs : List Instruction) (tree block : Block) (i j : Nat) (parts : LoopRegions) : Prop :=
  ∃ k back kind target, j = k + 1 ∧ i ≤ k ∧ instrs[k]? = some back ∧ back.addr = block.stop ∧
    back.jump? = some (kind, target) ∧ Told instrs tree i k (loopEvents parts)

/-- What a conditional block begins with. -/
structure Heads (instrs : List Instruction) (tree child : Block) (i : Nat) (ins : Instruction) : Prop where
  get : instrs[i]? = some ins
  mem : child ∈ tree.preorder
  start_eq : child.start = ins.addr

/-- A child that is found at an address is headed by the instruction there. -/
theorem heads_of_childAt? {parent : Block} (hparent : parent ∈ tree.preorder)
    (hchild : parent.childAt? ins.addr = some child) (hi : instrs[i]? = some ins) :
    Heads instrs tree child i ins where
  get := hi
  mem := (mem_preorder_child hparent hchild).1
  start_eq := (mem_preorder_child hparent hchild).2

/-- Nothing comes between the start of a block and itself. -/
theorem Heads.undeclared (h : Heads instrs tree child i ins) :
    ∀ x ∈ instrs, ins.addr ≤ x.addr → x.addr < child.start → ∀ stop, ¬ x.Declares stop :=
  fun _ _ hle hlt => absurd (h.start_eq ▸ hle) (Nat.not_le.mpr hlt)

/-- The jump at the head of a choice, beside the choice. -/
theorem Heads.used (h : Heads instrs tree child i ins) (hkind : child.kind = .conditional)
    (hjump : ins.jump? = some (kind, target)) {inside : List Event}
    (hencloses : Encloses instrs tree ins.addr inside child) (after : List Event) :
    Used instrs tree (.enter ins.addr :: (inside ++ after)) ins := by
  refine used_of_encloses hjump h.mem (by rw [hkind]; decide) ?_ hencloses after (.inl List.mem_cons_self)
  rw [Block.jumpAddr, if_neg (by rw [hkind]; decide), h.start_eq]

/-- A loop, or a choice around a loop, is enclosed by what the parts of the loop tell. -/
theorem encloses_loopEvents (hinstrs : Stream.Increasing instrs) {i' k : Nat} {b : Block}
    (htold : Told instrs tree i' k (loopEvents parts)) (hi : instrs[i]? = some ins) (hi' : i' ≤ i + 1)
    (hstart : ins.addr ≤ b.start)
    (hundeclared : ∀ x ∈ instrs, ins.addr ≤ x.addr → x.addr < b.start → ∀ stop, ¬ x.Declares stop)
    {back : Instruction} (hk : instrs[k]? = some back) (haddr : back.addr = b.stop)
    (hjump : back.jump? = some (kind, target)) (hskips : tree.Skips back.addr) :
    Encloses instrs tree ins.addr (loopEvents parts) b := by
  refine htold.encloses hinstrs (sealed_loopEvents parts) hi hi' hstart hundeclared ?_ ?_
  · exact fun n x hn hx => (hinstrs.addr_lt hx hk hn).le.trans haddr.le
  · intro n x hkn hx hxle
    -- only the jump back is left
    have hnk : n ≤ k := Nat.le_of_not_lt fun hlt => Nat.not_le.mpr (hinstrs.addr_lt hk hx hlt) (haddr ▸ hxle)
    obtain rfl := le_antisymm hkn hnk
    cases Option.some.inj (hk.symm.trans hx)
    exact shows_of_jump hjump (.inr hskips)

/-- A loop tells of what is inside and frames itself. -/
theorem told_loop (hinstrs : Stream.Increasing instrs) (hhead : Heads instrs tree child i ins)
    (hkind : child.kind = .loop) (h : ToldLoop instrs tree child i j parts) :
    Told instrs tree i j (.enter child.start :: loopEvents parts) := by
  obtain ⟨k, back, kind, target, rfl, hik, hk, haddr, hjump, htold⟩ := h
  have hskips : tree.Skips back.addr := ⟨child, hhead.mem, haddr.symm, .inl hkind⟩
  have hencloses := encloses_loopEvents hinstrs htold hhead.get (Nat.le_succ i) hhead.start_eq.ge
    hhead.undeclared hk haddr hjump hskips
  rw [hhead.start_eq]
  refine htold.enter hinstrs hhead.get (Nat.lt_succ_of_le hik) le_rfl (Nat.le_succ k) fun n x _ _ hout hx => ?_
  obtain rfl : n = k := by omega
  cases Option.some.inj (hk.symm.trans hx)
  have hused := used_of_encloses hjump hhead.mem (by rw [hkind]; decide)
    (by rw [Block.jumpAddr, if_pos hkind, haddr]) hencloses [] (.inr hskips)
  rwa [List.append_nil] at hused

/-- A guarded loop is framed with its guard, which is told of with it. -/
theorem told_guarded (hfits : Fits instrs tree) {inner : Block} (hhead : Heads instrs tree child i ins)
    (hkind : child.kind = .conditional) (hjump : ins.jump? = some (kind, target))
    (hloop : child.guardedLoop? (instrs.drop (i + 1)) = some inner)
    (h : ToldLoop instrs tree inner (i + 1) j parts) :
    Told instrs tree i j (.enter ins.addr :: loopEvents parts) := by
  have hinstrs := hfits.increasing
  obtain ⟨first, hfirst, hchild, hinner, hstart, hstop⟩ := guardedLoop?_eq_some hloop
  obtain ⟨k, back, kind', target', rfl, hik, hk, haddr, hjump', htold⟩ := h
  have hmem := Block.mem_preorder_trans hhead.mem (Block.mem_preorder_of_mem_children hchild)
  have hskips : tree.Skips back.addr := ⟨inner, hmem, haddr.symm, .inl hinner⟩
  have hlt := hinstrs.addr_lt hhead.get hfirst (Nat.lt_succ_self i)
  -- the choice begins at the head, the loop right behind it
  have hchoice := encloses_loopEvents hinstrs htold hhead.get le_rfl hhead.start_eq.ge hhead.undeclared hk
    (haddr.trans hstop) hjump' hskips
  have hundeclared : ∀ x ∈ instrs, ins.addr ≤ x.addr → x.addr < inner.start → ∀ stop, ¬ x.Declares stop := by
    intro x hx hle hxlt stop hdeclares
    obtain ⟨n, hn⟩ := List.mem_iff_getElem?.mp hx
    have hni := hinstrs.lt_of_addr_lt hn hfirst (hstart ▸ hxlt)
    obtain rfl : n = i := by
      refine le_antisymm (Nat.le_of_lt_succ hni) (Nat.le_of_not_lt fun hlt => ?_)
      exact Nat.not_le.mpr (hinstrs.addr_lt hn hhead.get hlt) hle
    cases Option.some.inj (hhead.get.symm.trans hn)
    rw [hdeclares.jump?_eq] at hjump
    cases hjump
  have hencloses := encloses_loopEvents hinstrs htold hhead.get le_rfl (hlt.le.trans hstart.ge) hundeclared hk
    haddr hjump' hskips
  refine htold.enter hinstrs hhead.get (by omega) (Nat.le_succ i) (Nat.le_succ k) fun n x _ _ hout hx => ?_
  rw [← List.append_nil (loopEvents parts)]
  rcases Nat.lt_or_ge i n with hin | hni
  · obtain rfl : n = k := by omega
    cases Option.some.inj (hk.symm.trans hx)
    exact used_of_encloses hjump' hmem (by rw [hinner]; decide)
      (by rw [Block.jumpAddr, if_pos hinner, haddr]) hencloses [] (.inr hskips)
  · obtain rfl : n = i := by omega
    cases Option.some.inj (hhead.get.symm.trans hx)
    exact hhead.used hkind hjump hchoice []

/-- The events of the body of a choice enclose it. -/
theorem encloses_partEvents (hinstrs : Stream.Increasing instrs) (hhead : Heads instrs tree child i ins)
    {body : List Region} (htold : Told instrs tree (i + 1) j (listEvents body)) (hupto : Upto instrs child.stop j)
    (hbehind : ∀ n x, j ≤ n → instrs[n]? = some x → x.addr ≤ child.stop →
      Shows tree (partEvents (listEvents body)) x) :
    Encloses instrs tree ins.addr (partEvents (listEvents body)) child :=
  htold.part.encloses hinstrs (.part (balanced_listEvents body)) hhead.get le_rfl hhead.start_eq.ge
    hhead.undeclared hupto hbehind

/-- A conditional without an alternative tells of its body and frames itself. -/
theorem told_choice (hfits : Fits instrs tree) (hhead : Heads instrs tree child i ins)
    (hkind : child.kind = .conditional) (hjump : ins.jump? = some (kind, target))
    (helse : child.alternative? = none) {body : List Region} (hij : i < j)
    (htold : Told instrs tree (i + 1) j (listEvents body)) (hupto : Upto instrs child.stop j)
    (hstop : ∀ x, instrs[j]? = some x → child.bodyStop ≤ x.addr) :
    Told instrs tree i j (.enter ins.addr :: partEvents (listEvents body)) := by
  have hencloses := encloses_partEvents hfits.increasing hhead htold hupto fun n x hjn hx hle => by
    have hlt : j < instrs.length := hjn.trans_lt (lt_length hx)
    have hj := List.getElem?_eq_getElem hlt
    have hbody := (hstop _ hj).trans (hfits.increasing.addr_le hj hx hjn)
    rw [bodyStop_eq hfits hhead.mem hkind helse] at hbody
    exact absurd hle (Nat.not_le.mpr hbody)
  refine htold.part.enter hfits.increasing hhead.get hij (Nat.le_succ i) le_rfl fun n x _ _ hout hx => ?_
  obtain rfl : n = i := by omega
  cases Option.some.inj (hhead.get.symm.trans hx)
  rw [← List.append_nil (partEvents _)]
  exact hhead.used hkind hjump hencloses []

/-- With an alternative it tells of both, and of the jump between them. -/
theorem told_choiceElse (hfits : Fits instrs tree) (hhead : Heads instrs tree child i ins)
    (hkind : child.kind = .conditional) (hjump : ins.jump? = some (kind, target)) {branch : Branch}
    (helse : child.alternative? = some branch) {body alternative : List Region} {k : Nat}
    {separator : Instruction} (hij : i < j) (htold : Told instrs tree (i + 1) j (listEvents body))
    (hj : instrs[j]? = some separator) (haddr : separator.addr = branch.addr) (hjk : j < k)
    (halternative : Told instrs tree (j + 1) k (listEvents alternative)) :
    Told instrs tree i k
      (.enter ins.addr :: (partEvents (listEvents body) ++ partEvents (listEvents alternative))) := by
  have hinstrs := hfits.increasing
  obtain ⟨hbranch, hend⟩ := mem_of_alternative? helse
  obtain ⟨target', hjump'⟩ := hfits.always child hhead.mem branch hbranch separator (List.mem_of_getElem? hj) haddr
  have hskips : tree.Skips separator.addr :=
    ⟨child, hhead.mem, (haddr.trans hend).symm, .inr ⟨hkind, by rw [helse]; rfl⟩⟩
  have hupto : Upto instrs child.stop j := fun n x hn hx =>
    (hinstrs.addr_lt hx hj hn).le.trans (haddr.trans hend).le
  have hencloses := encloses_partEvents hinstrs hhead htold hupto fun n x hjn hx hle => by
    -- only the jump over the alternative is left
    have hnj : n ≤ j := Nat.le_of_not_lt fun hlt =>
      Nat.not_le.mpr (hinstrs.addr_lt hj hx hlt) ((haddr.trans hend) ▸ hle)
    obtain rfl := le_antisymm hjn hnj
    cases Option.some.inj (hj.symm.trans hx)
    exact shows_of_jump hjump' (.inr hskips)
  have hbody := htold.part.skip hj (used_of_always hjump' (.inr hskips))
  have hboth := hbody.append hinstrs halternative.part (by omega) hjk
  refine hboth.enter hinstrs hhead.get (by omega) (Nat.le_succ i) le_rfl fun n x _ _ hout hx => ?_
  obtain rfl : n = i := by omega
  cases Option.some.inj (hhead.get.symm.trans hx)
  exact hhead.used hkind hjump hencloses _

end Parts

mutual

/-- **A walk tells of what it passes.** -/
theorem Walks.told (hfits : Fits instrs tree) {block : Block} {stop : Addr} {i j : Nat}
    {regions : List Region} {used : List Nat} (hblock : block ∈ tree.preorder) :
    Walks instrs block stop i regions used j → i ≤ instrs.length → ListUnbroken regions →
      Told instrs tree i j (listEvents regions)
  | .nothing _, _, _ | .halt _ _, _, _ => .nil _
  | .inner hget _ hchild h hrest, _, hunbroken => by
      obtain ⟨hij, hj⟩ := h.lt (lt_length hget)
      have hregion := h.told hfits hblock hchild hget hunbroken.1
      exact hregion.append hfits.increasing (hrest.told hfits hblock hj hunbroken.2) hij.le (hrest.le hj).1
  | .jump hget _ _ hbranch hrest, _, hunbroken => by
      have hregion := told_jump hfits hblock hget hbranch
      have hlater := hrest.told hfits hblock (lt_length hget) hunbroken.2
      exact hregion.append hfits.increasing hlater (Nat.le_succ _) (hrest.le (lt_length hget)).1
  | .plain hget _ _ _ hrest, _, hunbroken => by
      have hlater := hrest.told hfits hblock (lt_length hget) hunbroken.2
      exact (told_plain hget).append hfits.increasing hlater (Nat.le_succ _) (hrest.le (lt_length hget)).1

/-- **What a child walks over is told of.** -/
theorem WalksChild.told (hfits : Fits instrs tree) {parent child : Block} {i j : Nat} {ins : Instruction}
    {region : Region} {used : List Nat} (hparent : parent ∈ tree.preorder)
    (hchild : parent.childAt? ins.addr = some child) (hi : instrs[i]? = some ins) :
    WalksChild instrs parent child i region used j → region.Unbroken → Told instrs tree i j region.events
  | .loop hkind h, hunbroken =>
      have hhead := heads_of_childAt? hparent hchild hi
      told_loop hfits.increasing hhead hkind (h.told hfits hhead.mem (lt_length hi).le hunbroken)
  | .guarded hi' hkind hjump hloop h, hunbroken => by
      cases Option.some.inj (hi.symm.trans hi')
      have hhead := heads_of_childAt? hparent hchild hi
      obtain ⟨_, _, hinner, -⟩ := guardedLoop?_eq_some hloop
      have hmem := Block.mem_preorder_trans hhead.mem (Block.mem_preorder_of_mem_children hinner)
      exact told_guarded hfits hhead hkind hjump hloop (h.told hfits hmem (lt_length hi) hunbroken)
  | .choice hi' hkind hjump _ helse h, hunbroken => by
      cases Option.some.inj (hi.symm.trans hi')
      have hhead := heads_of_childAt? hparent hchild hi
      have hle := hhead.start_eq ▸ (hfits.tidy child hhead.mem).start_le_stop
      have hupto := h.upto hfits hhead.mem (bodyStop_le child) hunbroken (upto_succ hfits.increasing hi hle)
      exact told_choice hfits hhead hkind hjump helse (h.le (lt_length hi)).1
        (h.told hfits hhead.mem (lt_length hi) hunbroken) hupto fun x hx => h.stop_le hx
  | .choiceElse hi' hkind hjump _ helse h hj haddr halt, hunbroken => by
      cases Option.some.inj (hi.symm.trans hi')
      have hhead := heads_of_childAt? hparent hchild hi
      exact told_choiceElse hfits hhead hkind hjump helse (h.le (lt_length hi)).1
        (h.told hfits hhead.mem (lt_length hi) hunbroken.1) hj haddr (halt.le (lt_length hj)).1
        (halt.told hfits hparent (lt_length hj) hunbroken.2)
  | .noSeparator .., hunbroken => hunbroken.2.1.elim
  | .noHead .., hunbroken => absurd rfl hunbroken

/-- So is what a loop walks over. -/
theorem WalksLoop.told (hfits : Fits instrs tree) {block : Block} {i j : Nat} {parts : LoopRegions}
    {used : List Nat} (hblock : block ∈ tree.preorder) :
    WalksLoop instrs block i parts used j → i ≤ instrs.length → UnbrokenParts parts →
      ToldLoop instrs tree block i j parts
  | .whole _ h hj haddr hjump, hi, hunbroken => by
      have hbody := (h.told hfits hblock hi hunbroken.1).part
      have hij := (h.le hi).1
      exact ⟨_, _, _, _, rfl, hij, hj, haddr, hjump, hbody.append hfits.increasing (.nil _) hij le_rfl⟩
  | .split _ h hstep hk haddr hjump, hi, hunbroken => by
      obtain ⟨hij, hj⟩ := h.le hi
      have hjk := (hstep.le hj).1
      have hbody := (h.told hfits hblock hi hunbroken.1).part
      have hsecond := (hstep.told hfits hblock hj (hunbroken.2.1 rfl)).part
      exact ⟨_, _, _, _, rfl, hij.trans hjk, hk, haddr, hjump, hbody.append hfits.increasing hsecond hij hjk⟩
  | .wholeNoBack .., _, hunbroken | .splitNoBack .., _, hunbroken => absurd hunbroken.2.2 Bool.false_ne_true

end

end Region

namespace Watch

/-- A jump that holds nothing together is refused. -/
theorem stray_not_mem {w w' : Watch} {es : List Event} (h : w.run es = some w') (a : Addr) : .stray a ∉ es := by
  intro hmem
  obtain ⟨p, q, rfl⟩ := List.append_of_mem hmem
  rw [run_append] at h
  obtain ⟨v, -, hv⟩ := Option.bind_eq_some_iff.mp h
  cases hv

end Watch

namespace Stream

variable {instrs : List Instruction} {tree : Block} {nodes : List Node}

/-! ### Whole streams -/

/-- Every block but the root is made by a jump. -/
theorem exists_maker {made : List Block} (hseeds : Seeds instrs instrs 1 made)
    (hcomplete : Complete instrs made tree) {b : Block} (hb : b ∈ tree.preorder) (hroot : b.kind ≠ .root) :
    ∃ ins ∈ instrs, MakesBlock instrs ins b.kind b.start b.stop := by
  have hmem : b.bare ∈ root instrs :: made :=
    hcomplete.blocks_perm.mem_iff.mp (List.mem_map_of_mem hb)
  rcases List.mem_cons.mp hmem with heq | hmem
  · exact absurd (congrArg Block.kind heq) hroot
  · exact hseeds.made b.bare hmem

/-- Behind a conditional block comes the target of its jump. -/
theorem MakesBlock.stop_lt_last (h : Increasing instrs) (hlast : ∀ ins ∈ instrs, ins.addr ≤ Addr.last)
    {ins : Instruction} {start stop : Addr} (hmade : MakesBlock instrs ins .conditional start stop) :
    stop < Addr.last := by
  cases hmade with
  | conditional _ _ _ hstop =>
      have hlt := h.lt_of_neighbours hstop
      obtain ⟨front, x, y, back, rfl, rfl, rfl⟩ := hstop
      exact hlt.trans_le (hlast y (by simp))

/-- A tree that holds all seeded blocks and all jumps fits its stream. -/
theorem fits_of_complete (h : Increasing instrs) (hlast : ∀ ins ∈ instrs, ins.addr ≤ Addr.last)
    {made : List Block} (hseeds : Seeds instrs instrs 1 made) (hcomplete : Complete instrs made tree) :
    Region.Fits instrs tree where
  increasing := h
  tidy := hcomplete.tidy
  stop_lt b hb hkind := by
    obtain ⟨ins, -, hmade⟩ := exists_maker hseeds hcomplete hb (by rw [hkind]; decide)
    exact (hkind ▸ hmade).stop_lt_last h hlast
  always b hb branch hbranch ins hins haddr := by
    obtain ⟨x, hx, hxaddr, hjump⟩ := hcomplete.mem_branches_iff.mp ⟨b, hb, branch, hbranch, rfl, rfl⟩
    rw [h.eq_of_addr_eq hins hx (haddr.trans hxaddr.symm)]
    exact ⟨_, hjump⟩

/-- The regions of a stream from which statements are rebuilt are taken by a walk through all of it. -/
theorem walks_of_rebuild (hnodes : (rebuild tree instrs).outcome.1 = .ok nodes) :
    Region.ListUnbroken (Region.ofStream tree instrs) ∧
      ∃ used, Region.Walks instrs tree Addr.last 0 (Region.ofStream tree instrs) used instrs.length := by
  obtain ⟨t, hrun⟩ := run_of_rebuild hnodes
  have hunbroken := Rebuild.listUnbroken_of_runAll _ hrun
  obtain ⟨regions, used, j, h⟩ := Region.exists_walks instrs tree Addr.last 0
  obtain ⟨hrest, hregions⟩ := ofStream_of_unbroken (reads_of_walks h) hunbroken
  have hj : j = instrs.length := le_antisymm (h.le (Nat.zero_le _)).2 (List.drop_eq_nil_iff.mp hrest)
  exact ⟨hunbroken, used, by rwa [hregions, ← hj]⟩

/-- **The events of a stream** from which statements are rebuilt tell of all its instructions. -/
theorem told_of_rebuild (hfits : Region.Fits instrs tree) (hnodes : (rebuild tree instrs).outcome.1 = .ok nodes) :
    Region.Told instrs tree 0 instrs.length (Region.listEvents (Region.ofStream tree instrs)) := by
  obtain ⟨hunbroken, used, hwalks⟩ := walks_of_rebuild hnodes
  exact hwalks.told hfits tree.self_mem_preorder (Nat.zero_le _) hunbroken

/-- **Blocks among the events.**  The jump that makes a block is refused if it holds nothing together, so it
holds the block together that it makes. -/
theorem framed_of_rebuild (h : Increasing instrs) (hlast : ∀ ins ∈ instrs, ins.addr ≤ Addr.last)
    {made : List Block} (hseeds : Seeds instrs instrs 1 made) (hcomplete : Complete instrs made tree)
    (hnodes : (rebuild tree instrs).outcome.1 = .ok nodes) {b : Block} (hb : b ∈ tree.preorder)
    (hroot : b.kind ≠ .root) :
    Region.Framed instrs tree (Region.listEvents (Region.ofStream tree instrs)) b := by
  have htold := told_of_rebuild (fits_of_complete h hlast hseeds hcomplete) hnodes
  obtain ⟨w, hwatch, -⟩ := watch_of_rebuild hnodes
  obtain ⟨ins, hins, hmade⟩ := exists_maker hseeds hcomplete hb hroot
  obtain ⟨kind, target, hjump, hkind⟩ := hmade.jump_eq
  obtain ⟨n, hn⟩ := List.mem_iff_getElem?.mp hins
  have hused := htold.used n ins (Nat.zero_le n) (Region.lt_length hn) hn
  rcases hused.framed kind target hjump hkind with hstray | ⟨c, hc, hroot', haddr, hframed⟩
  · exact absurd hstray (Watch.stray_not_mem hwatch ins.addr)
  -- both blocks are made by the jump, so they have the same range
  obtain ⟨ins', hins', hmade'⟩ := exists_maker hseeds hcomplete hc hroot'
  obtain rfl := h.eq_of_addr_eq hins' hins ((jumpAddr_of_makesBlock hmade').symm.trans haddr)
  obtain ⟨-, hstart, hstop⟩ := hmade'.unique h hmade
  obtain ⟨start, before, inside, after, heq, hencloses⟩ := hframed
  exact ⟨start, before, inside, after, heq, { hencloses with
    start_le := hstart ▸ hencloses.start_le
    undeclared := hstart ▸ hencloses.undeclared
    le_stop := hstop ▸ hencloses.le_stop
    shows := hstop ▸ hencloses.shows }⟩

end Stream

end TorqueScript
