import TorqueScript.Proofs.Framing

/-!
# Boundaries that no jump crosses

Blocks are made by jumps, and an alternative ends where a jump leads.  So what begins in front of a boundary
that no jump crosses (`Stream.Uncrossed`) ends in front of it as well, and a walk stays on its side of the
boundary (`Region.Walks.stays`).

If no jump crosses the boundary right behind a declaration of a function, then the function is declared outside
of all parts.  If no jump crosses the end of the function either, then it ends outside of all parts.  So behind
its first instruction a region without a place for a declaration of its own is calm (`Region.Calm`,
`Region.Walks.calm`).

Outside of loops, no jump becomes a statement (`Region.Grounded`, `Region.Walks.grounded`).
-/

namespace TorqueScript

namespace Stream

variable {instrs : List Instruction} {ins : Instruction} {c : Addr}

/-- No jump of the stream leads across the boundary in front of the address. -/
def Uncrossed (instrs : List Instruction) (c : Addr) : Prop :=
  ∀ ins ∈ instrs, ∀ kind target, ins.jump? = some (kind, target) → (ins.addr < c ↔ target < c)

/-- A block that begins in front of a boundary ends there; what follows a conditional block does so, too. -/
theorem MakesBlock.lt_of_uncrossed (h : Increasing instrs) {kind : BlockKind} {start stop : Addr}
    (hmade : MakesBlock instrs ins kind start stop) (hins : ins ∈ instrs) (hc : Uncrossed instrs c)
    (hstart : start < c) : stop < c ∧ (kind = .conditional → stop + 1 < c) := by
  cases hmade with
  | loop hjump => exact ⟨(hc ins hins _ _ hjump).mpr hstart, nofun⟩
  | conditional hjump _ _ hstop =>
      have htarget := (hc ins hins _ _ hjump).mp hstart
      have hlt : stop + 1 < c := Nat.lt_of_le_of_lt (h.lt_of_neighbours hstop) htarget
      exact ⟨Nat.lt_of_succ_lt hlt, fun _ => hlt⟩

end Stream

namespace Region

variable {instrs : List Instruction} {tree : Block} {e : Event} {es : List Event}

/-- What is needed of a stream and its block tree: blocks and branches in the tree come from jumps. -/
structure Made (instrs : List Instruction) (tree : Block) : Prop where
  increasing : Stream.Increasing instrs
  tidy : tree.Tidy
  blocks : ∀ b ∈ tree.preorder, b.kind ≠ .root →
    ∃ ins ∈ instrs, Stream.MakesBlock instrs ins b.kind b.start b.stop
  branches : ∀ b ∈ tree.preorder, ∀ j ∈ b.branches,
    ∃ ins ∈ instrs, ins.addr = j.addr ∧ ins.jump? = some (.always, j.target)

/-- The tree of an increasing stream is made from its jumps. -/
theorem made_of_blockTree (h : Stream.Increasing instrs) (htree : Stream.blockTree instrs = .ok tree) :
    Made instrs tree := by
  obtain ⟨made, -, hseeds, hcomplete⟩ := Stream.complete_of_blockTree h htree
  exact ⟨h, hcomplete.tidy, fun b hb hroot => Stream.exists_maker hseeds hcomplete hb hroot, fun b hb j hj =>
    hcomplete.mem_branches_iff.mp ⟨b, hb, j, hj, rfl, rfl⟩⟩

namespace Made

variable {b : Block} {c : Addr}

/-- **No block crosses an end that nothing crosses.** -/
theorem stop_lt (h : Made instrs tree) (hb : b ∈ tree.preorder) (hroot : b.kind ≠ .root)
    (hc : Stream.Uncrossed instrs c) (hstart : b.start < c) : b.stop < c := by
  obtain ⟨ins, hins, hmade⟩ := h.blocks b hb hroot
  exact (hmade.lt_of_uncrossed h.increasing hins hc hstart).1

theorem bodyStop_lt (h : Made instrs tree) (hb : b ∈ tree.preorder) (hkind : b.kind = .conditional)
    (hc : Stream.Uncrossed instrs c) (hstart : b.start < c) : b.bodyStop < c := by
  obtain ⟨ins, hins, hmade⟩ := h.blocks b hb (by rw [hkind]; decide)
  exact (bodyStop_le b).trans_lt ((hmade.lt_of_uncrossed h.increasing hins hc hstart).2 hkind)

/-- Neither does the jump to the end of an alternative. -/
theorem target_lt (h : Made instrs tree) (hb : b ∈ tree.preorder) {branch : Branch}
    (helse : b.alternative? = some branch) (hc : Stream.Uncrossed instrs c) (hstop : b.stop < c) :
    branch.target < c := by
  obtain ⟨hmem, haddr⟩ := mem_of_alternative? helse
  obtain ⟨ins, hins, hins', hjump⟩ := h.branches b hb branch hmem
  exact (hc ins hins _ _ hjump).mp (by rwa [hins', haddr])

end Made

/-! ### Walks stay on their side -/

/-- The event comes from an instruction from position `i` on, and lies in front of every uncrossed boundary
behind `stop`. -/
def Stays (instrs : List Instruction) (i : Nat) (stop : Addr) (e : Event) : Prop :=
  ∀ a ∈ e.addr?, ∃ n ins, i ≤ n ∧ instrs[n]? = some ins ∧ e ∈ Event.enter ins.addr :: ins.events ∧
    ins.addr = a ∧ ∀ c, Stream.Uncrossed instrs c → stop < c → a + 1 < c

/-- What stays on its side does so from an earlier start and up to a later stop. -/
theorem Stays.mono {i i' : Nat} {stop stop' : Addr} (h : Stays instrs i' stop' e) (hi : i ≤ i')
    (hstop : ∀ c, Stream.Uncrossed instrs c → stop < c → stop' < c) : Stays instrs i stop e := by
  intro a ha
  obtain ⟨n, ins, hn, hget, he, haddr, hlt⟩ := h a ha
  exact ⟨n, ins, hi.trans hn, hget, he, haddr, fun c hc hc' => hlt c hc (hstop c hc hc')⟩

theorem stays_own {i : Nat} {ins : Instruction} {stop : Addr} (hi : instrs[i]? = some ins) (hlt : ins.addr < stop)
    (he : e ∈ Event.enter ins.addr :: ins.events) : Stays instrs i stop e := by
  intro a ha
  obtain rfl := addr_of_mem_events he ha
  exact ⟨i, ins, le_rfl, hi, he, rfl, fun c _ hc => Nat.lt_of_le_of_lt hlt hc⟩

theorem stays_partEvents {i : Nat} {stop : Addr} (h : ∀ e ∈ es, Stays instrs i stop e) :
    ∀ e ∈ partEvents es, Stays instrs i stop e := by
  intro e he
  rcases List.mem_cons.mp he with rfl | he
  · exact nofun
  · rcases List.mem_append.mp he with he | he
    · exact h e he
    · rw [List.mem_singleton.mp he]
      exact nofun

mutual

/-- **A walk stays on its side** of a boundary that no jump crosses. -/
theorem Walks.stays (hmade : Made instrs tree) {block : Block} {stop : Addr} {i j : Nat}
    {regions : List Region} {used : List Nat} (hblock : block ∈ tree.preorder) :
    Walks instrs block stop i regions used j → i ≤ instrs.length →
      ∀ e ∈ listEvents regions, Stays instrs i stop e
  | .nothing _, _ | .halt _ _, _ => nofun
  | .inner hi hlt hchild h hrest, _ => by
      obtain ⟨hmem, hstart⟩ := mem_preorder_child hblock hchild
      obtain ⟨hij, hj⟩ := h.lt (lt_length hi)
      obtain ⟨es, hevents, hes⟩ := h.stays hmade hblock hmem hi hstart
      intro e he
      rw [listEvents, hevents] at he
      rcases List.mem_append.mp he with he | he
      · rcases List.mem_cons.mp he with rfl | he
        · exact stays_own hi hlt List.mem_cons_self
        · exact (hes e he).mono le_rfl fun c _ hc => hlt.trans hc
      · exact (hrest.stays hmade hblock hj e he).mono hij.le fun _ _ hc => hc
  | .jump hi hlt _ _ hrest, _ => by
      intro e he
      rcases List.mem_cons.mp he with rfl | he
      · exact stays_own hi hlt List.mem_cons_self
      · exact (hrest.stays hmade hblock (lt_length hi) e he).mono (Nat.le_succ _) fun _ _ hc => hc
  | .plain hi hlt _ _ hrest, _ => by
      intro e he
      rcases List.mem_append.mp he with he | he
      · exact stays_own hi hlt he
      · exact (hrest.stays hmade hblock (lt_length hi) e he).mono (Nat.le_succ _) fun _ _ hc => hc

/-- **A child stays on the side of an end that it starts on.** -/
theorem WalksChild.stays (hmade : Made instrs tree) {parent child : Block} {i j : Nat} {region : Region}
    {used : List Nat} {first : Instruction} (hparent : parent ∈ tree.preorder) (hchild : child ∈ tree.preorder)
    (hi : instrs[i]? = some first) (hstart : child.start = first.addr) :
    WalksChild instrs parent child i region used j →
      ∃ es, region.events = .enter first.addr :: es ∧ ∀ e ∈ es, Stays instrs i first.addr e
  | .loop hkind h => by
      refine ⟨_, by rw [events, hstart], fun e he => ?_⟩
      exact hstart ▸ h.stays hmade hchild hkind (lt_length hi).le e he
  | .guarded hi' hkind hjump hloop h => by
      cases Option.some.inj (hi.symm.trans hi')
      obtain ⟨_, -, hmem, hinner, -, hstop⟩ := guardedLoop?_eq_some hloop
      have hpre := Block.mem_preorder_trans hchild (Block.mem_preorder_of_mem_children hmem)
      refine ⟨_, rfl, fun e he => ?_⟩
      refine (h.stays hmade hpre hinner (lt_length hi) e he).mono (Nat.le_succ _) fun c hc hlt => ?_
      have hlt := hmade.stop_lt hchild (by rw [hkind]; decide) hc (hstart ▸ hlt)
      exact (hmade.tidy _ hpre).start_le_stop.trans_lt (hstop.trans_lt hlt)
  | .choice hi' hkind hjump _ _ h => by
      cases Option.some.inj (hi.symm.trans hi')
      refine ⟨_, rfl, stays_partEvents fun e he => ?_⟩
      exact (h.stays hmade hchild (lt_length hi) e he).mono (Nat.le_succ _) fun c hc hlt =>
        hmade.bodyStop_lt hchild hkind hc (hstart ▸ hlt)
  | .choiceElse hi' hkind hjump _ helse h hj _ halt => by
      cases Option.some.inj (hi.symm.trans hi')
      have hij := (h.le (lt_length hi)).1
      refine ⟨_, rfl, List.forall_mem_append.mpr ⟨stays_partEvents fun e he => ?_,
        stays_partEvents fun e he => ?_⟩⟩
      · exact (h.stays hmade hchild (lt_length hi) e he).mono (Nat.le_succ _) fun c hc hlt =>
          hmade.bodyStop_lt hchild hkind hc (hstart ▸ hlt)
      · refine (halt.stays hmade hparent (lt_length hj) e he).mono (by omega) fun c hc hlt => ?_
        have hstop := hmade.stop_lt hchild (by rw [hkind]; decide) hc (hstart ▸ hlt)
        exact (min_le_left _ _).trans_lt (hmade.target_lt hchild helse hc hstop)
  | .noSeparator hi' hkind _ _ _ h _ => by
      cases Option.some.inj (hi.symm.trans hi')
      refine ⟨_, rfl, List.forall_mem_append.mpr ⟨stays_partEvents fun e he => ?_, stays_partEvents nofun⟩⟩
      exact (h.stays hmade hchild (lt_length hi) e he).mono (Nat.le_succ _) fun c hc hlt =>
        hmade.bodyStop_lt hchild hkind hc (hstart ▸ hlt)
  | .noHead hi' _ _ => by
      cases Option.some.inj (hi.symm.trans hi')
      exact ⟨[], rfl, nofun⟩

/-- So does a loop. -/
theorem WalksLoop.stays (hmade : Made instrs tree) {block : Block} {i j : Nat} {parts : LoopRegions}
    {used : List Nat} (hblock : block ∈ tree.preorder) (hkind : block.kind = .loop) :
    WalksLoop instrs block i parts used j → i ≤ instrs.length →
      ∀ e ∈ loopEvents parts, Stays instrs i block.start e
  | .whole _ h _ _ _, hi | .wholeNoBack _ h _, hi => by
      have hroot : block.kind ≠ .root := by rw [hkind]; decide
      refine List.forall_mem_append.mpr ⟨stays_partEvents fun e he => ?_, nofun⟩
      exact (h.stays hmade hblock hi e he).mono le_rfl fun c hc hlt => hmade.stop_lt hblock hroot hc hlt
  | .split hsplit h hstep _ _ _, hi | .splitNoBack hsplit h hstep _, hi => by
      have hroot : block.kind ≠ .root := by rw [hkind]; decide
      obtain ⟨hij, hj⟩ := h.le hi
      refine List.forall_mem_append.mpr ⟨stays_partEvents fun e he => ?_, stays_partEvents fun e he => ?_⟩
      · refine (h.stays hmade hblock hi e he).mono le_rfl fun c hc hlt => ?_
        exact (splitPoint_le hsplit).trans_lt (hmade.stop_lt hblock hroot hc hlt)
      · exact (hstep.stays hmade hblock hj e he).mono hij fun c hc hlt => hmade.stop_lt hblock hroot hc hlt

end

/-! ### Calm regions -/

theorem declares_of_mem_events {ins : Instruction} {a stop : Addr} (h : .declare a stop ∈ ins.events) :
    ins.Declares stop := by
  unfold Instruction.events at h
  split at h
  · next signature stop' heq =>
      cases List.mem_singleton.mp h
      exact ⟨signature, heq⟩
  · split at h
    · cases h
    · cases List.mem_singleton.mp h
  · cases h

/-- The event declares no function, and it lies in front of every uncrossed boundary behind `head`. -/
structure Calm (instrs : List Instruction) (head : Addr) (e : Event) : Prop where
  undeclared : ∀ a stop, e ≠ .declare a stop
  lt : ∀ a ∈ e.addr?, ∀ c, Stream.Uncrossed instrs c → head < c → a < c

/-- An instruction that declares a function would be its own boundary. -/
theorem Stays.calm (hincreasing : Stream.Increasing instrs)
    (hdeclared : ∀ ins ∈ instrs, ∀ stop, ins.Declares stop → Stream.Uncrossed instrs (ins.addr + 1)) {i : Nat}
    {first : Instruction} (hi : instrs[i]? = some first) (h : Stays instrs i first.addr e) :
    Calm instrs first.addr e where
  undeclared := by
    rintro a stop rfl
    obtain ⟨n, ins, hn, hget, he, rfl, hlt⟩ := h a rfl
    have hdeclares : ins.Declares stop := by
      rcases List.mem_cons.mp he with heq | he
      · cases heq
      · exact declares_of_mem_events he
    have hfirst := Nat.lt_succ_of_le (hincreasing.addr_le hi hget hn)
    exact absurd (hlt _ (hdeclared ins (List.mem_of_getElem? hget) stop hdeclares) hfirst) (Nat.lt_irrefl _)
  lt a ha c hc hlt := by
    obtain ⟨_, _, -, -, -, -, hlt'⟩ := h a ha
    exact Nat.lt_of_succ_lt (hlt' c hc hlt)

/-- **Functions outside of parts.**  If no jump crosses the boundary right behind a declaration, then every
region of a walk is a single instruction, or it is calm behind its first instruction. -/
theorem Walks.calm (hmade : Made instrs tree)
    (hdeclared : ∀ ins ∈ instrs, ∀ stop, ins.Declares stop → Stream.Uncrossed instrs (ins.addr + 1))
    {block : Block} {stop : Addr} {i j : Nat} {regions : List Region} {used : List Nat}
    (hblock : block ∈ tree.preorder) (h : Walks instrs block stop i regions used j) :
    ∀ r ∈ regions, (∃ ins ∈ instrs, r = .plain ins) ∨
      ∃ head es, r.events = .enter head :: es ∧ ∀ e ∈ es, Calm instrs head e := by
  match h with
  | .nothing _ | .halt _ _ => exact List.forall_mem_nil _
  | .plain hi _ _ _ hrest =>
      exact List.forall_mem_cons.mpr ⟨.inl ⟨_, List.mem_of_getElem? hi, rfl⟩, hrest.calm hmade hdeclared hblock⟩
  | .jump _ _ _ _ hrest =>
      exact List.forall_mem_cons.mpr ⟨.inr ⟨_, [], rfl, List.forall_mem_nil _⟩, hrest.calm hmade hdeclared hblock⟩
  | .inner hi _ hchild h hrest =>
      obtain ⟨hmem, hstart⟩ := mem_preorder_child hblock hchild
      obtain ⟨es, hevents, hes⟩ := h.stays hmade hblock hmem hi hstart
      refine List.forall_mem_cons.mpr ⟨.inr ⟨_, es, hevents, fun e he => ?_⟩, hrest.calm hmade hdeclared hblock⟩
      exact (hes e he).calm hmade.increasing hdeclared hi

/-! ### Jumps outside of loops -/

mutual

/-- Outside of loops, no jump of the region becomes a statement. -/
def Grounded : Region → Prop
  | jump _ kind => kind = .alternative
  | choice _ _ _ body => ListGrounded body
  | choiceElse _ _ _ body _ alternative => ListGrounded body ∧ ListGrounded alternative
  | plain _ | broken _ | loop .. | guarded .. => True

/-- The same for regions that follow each other. -/
def ListGrounded : List Region → Prop
  | [] => True
  | region :: regions => region.Grounded ∧ ListGrounded regions

end

theorem listGrounded_broken (a : Addr) : ListGrounded [.broken a] := by
  rw [ListGrounded, ListGrounded, Grounded]
  exact ⟨trivial, trivial⟩

theorem grounded_child {block child : Block} {a : Addr} (h : block.Grounded)
    (hchild : block.childAt? a = some child) : child.kind ≠ .loop → child.Grounded := by
  obtain ⟨-, hchildren⟩ := h
  exact hchildren child (List.mem_of_find?_eq_some hchild)

mutual

/-- A walk outside of loops leaves no loop. -/
theorem Walks.grounded {block : Block} {stop : Addr} {i j : Nat} {regions : List Region} {used : List Nat}
    (hblock : block.Grounded) : Walks instrs block stop i regions used j → ListGrounded regions
  | .nothing _ | .halt _ _ => trivial
  | .inner _ _ hchild h hrest => ⟨h.grounded hblock (grounded_child hblock hchild), hrest.grounded hblock⟩
  | .jump _ _ _ hbranch hrest => by
      refine ⟨?_, hrest.grounded hblock⟩
      obtain ⟨hbranches, -⟩ := hblock
      exact hbranches _ (mem_of_branchAt? hbranch).1
  | .plain _ _ _ _ hrest => ⟨trivial, hrest.grounded hblock⟩

theorem WalksChild.grounded {parent child : Block} {i j : Nat} {region : Region} {used : List Nat}
    (hparent : parent.Grounded) (hchild : child.kind ≠ .loop → child.Grounded) :
    WalksChild instrs parent child i region used j → region.Grounded
  | .loop .. | .guarded .. => trivial
  | .choice _ hkind _ _ _ h => h.grounded (hchild (by rw [hkind]; decide))
  | .choiceElse _ hkind _ _ _ h _ _ halt =>
      ⟨h.grounded (hchild (by rw [hkind]; decide)), halt.grounded hparent⟩
  | .noSeparator _ hkind _ _ _ h _ => ⟨h.grounded (hchild (by rw [hkind]; decide)), listGrounded_broken _⟩
  | .noHead .. => rfl

end

end Region

end TorqueScript
