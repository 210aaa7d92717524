import TorqueScript.Proofs.Framing

/-!
# Functions and blocks

A function ends before the first instruction that is entered at or behind its end, and this is accepted if
as many parts are open there as around its declaration.  Among the events of the stream this says that the
body of the function (`Event.bodyOf`) closes as many parts as it opens (`Watch.level_bodyOf`).

The number alone does not keep functions and blocks apart: a part around the declaration may end in the
body, if another one begins in the body and goes on behind it.  And an instruction that only holds parts
together is not entered, so no function ends there.  Apart from these two cases the number is enough:

**Functions and blocks** (`Stream.function_block_nested`).  If the body closes no part that is open around
the declaration, and the first instruction behind it is entered, then every block lies inside the function,
around it, or apart from it.  A function that is declared outside of all parts closes none of them.
-/

namespace TorqueScript

namespace Event

/-- The event lies in the body of a function that ends at `stop`. -/
def below (stop : Addr) : Event → Bool
  | enter addr => addr < stop
  | _ => true

/-- The events of the body of a function that is declared at `addr` and ends at `stop`. -/
def bodyOf (addr stop : Addr) (es : List Event) : List Event :=
  ((es.dropWhile (· != .declare addr stop)).drop 1).takeWhile (below stop)

/-- The events in front of the declaration of a function. -/
def frontOf (addr stop : Addr) (es : List Event) : List Event :=
  es.takeWhile (· != .declare addr stop)

/-- Events that close no part that is open in front of them. -/
def ClosesOwn (es : List Event) : Prop :=
  ∀ p, p <+: es → 0 ≤ level p

instance (es : List Event) : Decidable (ClosesOwn es) :=
  decidable_of_iff (∀ p ∈ es.inits, 0 ≤ level p) (by simp only [List.mem_inits, ClosesOwn])

variable {p q : List Event} {addr stop : Addr}

/-- In events in order, a declaration is found once. -/
theorem declare_not_mem_front (h : (p ++ .declare addr stop :: q).Pairwise Precedes) :
    .declare addr stop ∉ p := fun hmem =>
  Nat.lt_irrefl addr (((List.pairwise_append.mp h).2.2 _ hmem _ List.mem_cons_self addr rfl addr rfl).2 stop rfl)

theorem bodyOf_append (h : (p ++ .declare addr stop :: q).Pairwise Precedes) :
    bodyOf addr stop (p ++ .declare addr stop :: q) = q.takeWhile (below stop) := by
  have hp : ∀ e ∈ p, (e != .declare addr stop) = true := by
    intro e he
    exact bne_iff_ne.mpr fun heq => declare_not_mem_front h (heq ▸ he)
  rw [bodyOf, List.dropWhile_append_of_pos hp, List.dropWhile_cons_of_neg (by simp), List.drop_one, List.tail_cons]

theorem frontOf_append (h : (p ++ .declare addr stop :: q).Pairwise Precedes) :
    frontOf addr stop (p ++ .declare addr stop :: q) = p := by
  have hp : ∀ e ∈ p, (e != .declare addr stop) = true := by
    intro e he
    exact bne_iff_ne.mpr fun heq => declare_not_mem_front h (heq ▸ he)
  rw [frontOf, List.takeWhile_append_of_pos hp, List.takeWhile_cons_of_neg (by simp), List.append_nil]

/-- A function declared outside of all parts closes none that is open around it. -/
theorem closesOwn_bodyOf (hbalanced : Balanced (p ++ .declare addr stop :: q)) (hp : level p = 0) :
    ClosesOwn (q.takeWhile (below stop)) := by
  intro r hr
  obtain ⟨t, rfl⟩ := hr.trans (List.takeWhile_prefix _)
  have hnonneg := hbalanced.nonneg (p ++ .declare addr stop :: r) t (by simp)
  simpa [hp, delta] using hnonneg

end Event

namespace Watch

open Event

theorem leave_eq {w : Watch} {stop : Addr} {depth : Nat} (hw : w.function = some (stop, depth)) (addr : Addr) :
    w.leave addr = if addr < stop then some w
      else if w.depth = depth then some { w with function := none } else none := by
  rw [leave, hw]

/-- The body of a function goes on while what is entered lies below its end. -/
theorem function_run {w w' : Watch} {es : List Event} {stop : Addr} {depth : Nat} (h : w.run es = some w')
    (hw : w.function = some (stop, depth)) (hes : ∀ e ∈ es, e.below stop) :
    w'.function = some (stop, depth) := by
  induction es generalizing w with
  | nil =>
      cases h
      exact hw
  | cons e es ih =>
      obtain ⟨he, hes⟩ := List.forall_mem_cons.mp hes
      obtain ⟨v, hstep, hrun⟩ := Option.bind_eq_some_iff.mp h
      refine ih hrun ?_ hes
      cases e with
      | enter addr =>
          have he : addr < stop := by simpa [below] using he
          rw [step, leave_eq hw, if_pos he] at hstep
          cases hstep
          exact hw
      | declare addr stop' =>
          rw [step, hw] at hstep
          cases hstep
      | stray addr => cases hstep
      | opens =>
          cases hstep
          exact hw
      | closes =>
          rw [step] at hstep
          split at hstep
          · cases hstep
          · cases hstep
            exact hw

/-- **The end of a function** is accepted at the depth of its declaration. -/
theorem level_bodyOf {w w' : Watch} {p q : List Event} {addr stop : Addr}
    (h : w.run (p ++ .declare addr stop :: q) = some w') (hw' : ∀ f ∈ w'.function, w'.depth = f.2) :
    level (q.takeWhile (below stop)) = 0 := by
  rw [run_append] at h
  obtain ⟨w₁, -, h⟩ := Option.bind_eq_some_iff.mp h
  rw [run_cons] at h
  obtain ⟨w₂, hdeclare, h⟩ := Option.bind_eq_some_iff.mp h
  obtain rfl : w₂ = { w₁ with function := some (stop, w₁.depth) } := by
    rw [step] at hdeclare
    split at hdeclare
    · cases hdeclare
    · exact (Option.some.inj hdeclare).symm
  rw [← List.takeWhile_append_dropWhile (p := below stop) (l := q), run_append] at h
  obtain ⟨w₃, hbody, h⟩ := Option.bind_eq_some_iff.mp h
  have hfunction := function_run hbody rfl (List.all_eq_true.mp List.all_takeWhile)
  have hdepth : (w₃.depth : Int) = w₁.depth + level (q.takeWhile (below stop)) := (depth_run hbody :)
  suffices w₃.depth = w₁.depth by omega
  cases hrest : q.dropWhile (below stop) with
  | nil =>
      rw [hrest] at h
      cases h
      exact hw' _ hfunction
  | cons e rest =>
      rw [hrest] at h
      obtain ⟨w₄, hstep, -⟩ := Option.bind_eq_some_iff.mp h
      have he : e.below stop = false := by
        have := List.head?_dropWhile_not (below stop) q
        rw [hrest] at this
        simpa using this
      cases e with
      | enter c =>
          have he : ¬ c < stop := by simpa [below] using he
          rw [step, leave_eq hfunction, if_neg he] at hstep
          split at hstep
          · assumption
          · cases hstep
      | declare | stray | opens | closes => cases he

end Watch

namespace Region.Encloses

open Event

variable {instrs : List Instruction} {tree b : Block} {ins : Instruction} {start stop : Addr}
  {before inside after : List Event}

/-- A block that begins before a function and ends in its body closes a part around the declaration. -/
theorem not_closesOwn (h : Encloses instrs tree start inside b)
    (hordered : (before ++ .enter start :: (inside ++ after)).Pairwise Precedes) (hins : ins ∈ instrs)
    (hdeclares : ins.Declares stop) (hstart : start < ins.addr) (hle : ins.addr ≤ b.stop)
    (hstop : b.stop < stop) :
    ¬ ClosesOwn (bodyOf ins.addr stop (before ++ .enter start :: (inside ++ after))) := by
  have hsealed := h.isSealed
  have hbelow := h.le_stop
  obtain ⟨front, back, rfl⟩ := List.append_of_mem ((h.shows ins hins hstart hle).declared stop hdeclares)
  have heq : before ++ .enter start :: (front ++ .declare ins.addr stop :: back ++ after) =
      (before ++ .enter start :: front) ++ .declare ins.addr stop :: (back ++ after) := by simp
  rw [heq] at hordered ⊢
  have hback : ∀ e ∈ back, e.below stop := by
    intro e he
    cases e with
    | enter a =>
        have ha := hbelow (.enter a) (by simp [he]) a rfl
        simpa [below] using ha.trans_lt hstop
    | declare | stray | opens | closes => rfl
  rw [bodyOf_append hordered, List.takeWhile_append_of_pos hback]
  intro hown
  have hnonneg := hown back (List.prefix_append _ _)
  have hpos := hsealed.pos (by rintro ⟨⟩)
  have hlevel := hsealed.level_eq
  simp only [level_append, level_cons, delta] at hlevel
  omega

/-- A block that begins in the body of a function and goes on behind it leaves a part open. -/
theorem level_pos (h : Encloses instrs tree start inside b)
    (hordered : (before ++ .enter start :: (inside ++ after)).Pairwise Precedes) {addr c : Addr}
    (hdeclare : .declare addr stop ∈ before ++ .enter start :: (inside ++ after)) (haddr : addr < start)
    (hstart : start < stop) (hc : .enter c ∈ inside) (hle : stop ≤ c)
    (hown : ClosesOwn (bodyOf addr stop (before ++ .enter start :: (inside ++ after)))) :
    0 < level (bodyOf addr stop (before ++ .enter start :: (inside ++ after))) := by
  obtain ⟨hbefore, hrest, hacross⟩ := List.pairwise_append.mp hordered
  have hmem : .declare addr stop ∈ before := by
    rcases List.mem_append.mp hdeclare with hmem | hmem
    · exact hmem
    rcases List.mem_cons.mp hmem with heq | hmem
    · cases heq
    · have hprecedes := (List.pairwise_cons.mp hrest).1 _ hmem start rfl addr rfl
      exact absurd hprecedes.1 (Nat.not_le.mpr haddr)
  obtain ⟨front, mid, rfl⟩ := List.append_of_mem hmem
  -- the body goes up to the first event in the block that lies behind the function
  have hsome : (inside.find? fun e => !e.below stop).isSome :=
    List.find?_isSome.mpr ⟨.enter c, hc, by simp [below, hle]⟩
  obtain ⟨e, hfind⟩ := Option.isSome_iff_exists.mp hsome
  obtain ⟨he, own, other, rfl, hownBelow⟩ := List.find?_eq_some_iff_append.mp hfind
  have hmid : ∀ f ∈ mid, f.below stop := by
    intro f hf
    cases f with
    | enter a =>
        have ha := (hacross (.enter a) (by simp [hf]) (.enter start) List.mem_cons_self a rfl start rfl).1
        simpa [below] using ha.trans_lt hstart
    | declare | stray | opens | closes => rfl
  have hbody : bodyOf addr stop (front ++ .declare addr stop :: mid ++
      .enter start :: (own ++ e :: other ++ after)) = mid ++ .enter start :: own := by
    have heq : front ++ .declare addr stop :: mid ++ .enter start :: (own ++ e :: other ++ after) =
        front ++ .declare addr stop :: (mid ++ (.enter start :: own) ++ (e :: other ++ after)) := by simp
    rw [heq] at hordered ⊢
    have hall : ∀ f ∈ mid ++ .enter start :: own, f.below stop := by
      intro f hf
      rcases List.mem_append.mp hf with hf | hf
      · exact hmid f hf
      rcases List.mem_cons.mp hf with rfl | hf
      · simpa [below] using hstart
      · simpa using hownBelow f hf
    rw [bodyOf_append hordered, List.takeWhile_append_of_pos hall, List.cons_append,
      List.takeWhile_cons_of_neg (by simpa using he), List.append_nil]
  rw [hbody] at hown ⊢
  have hnonneg := hown mid (List.prefix_append _ _)
  have hne : e ≠ .opens := by
    rintro rfl
    cases he
  have hpos := h.isSealed.pos hne
  simp only [level_append, level_cons, delta]
  omega

end Region.Encloses

namespace Stream

open Event

variable {instrs : List Instruction} {tree : Block} {nodes : List Node}

/-- The events of a stream. -/
def events (tree : Block) (instrs : List Instruction) : List Event :=
  Region.listEvents (Region.ofStream tree instrs)

/-- The first instruction from an address on. -/
theorem exists_find?_le (h : Increasing instrs) {z : Instruction} {stop : Addr} (hz : z ∈ instrs)
    (hle : stop ≤ z.addr) :
    ∃ c, instrs.find? (stop ≤ ·.addr) = some c ∧ c ∈ instrs ∧ stop ≤ c.addr ∧ c.addr ≤ z.addr := by
  have hsome : (instrs.find? (stop ≤ ·.addr)).isSome := List.find?_isSome.mpr ⟨z, hz, by simpa using hle⟩
  obtain ⟨c, hc⟩ := Option.isSome_iff_exists.mp hsome
  obtain ⟨hcstop, front, back, rfl, hfront⟩ := List.find?_eq_some_iff_append.mp hc
  refine ⟨c, hc, by simp, by simpa using hcstop, ?_⟩
  rcases List.mem_append.mp hz with hmem | hmem
  · exact absurd hle (by simpa using hfront z hmem)
  rcases List.mem_cons.mp hmem with rfl | hmem
  · exact le_rfl
  · exact ((List.pairwise_cons.mp (List.pairwise_append.mp h).2.1).1 z hmem).le

/-- The declaration and the body of a function. -/
def functionInstrs (instrs : List Instruction) (addr stop : Addr) : Set Instruction :=
  {x | x ∈ instrs ∧ addr ≤ x.addr ∧ x.addr < stop}

/-- The instructions of a block. -/
def blockInstrs (instrs : List Instruction) (b : Block) : Set Instruction :=
  {x | x ∈ instrs ∧ b.start ≤ x.addr ∧ x.addr ≤ b.stop}

instance (x : Instruction) (addr stop : Addr) : Decidable (x ∈ functionInstrs instrs addr stop) :=
  inferInstanceAs (Decidable (x ∈ instrs ∧ addr ≤ x.addr ∧ x.addr < stop))

instance (x : Instruction) (b : Block) : Decidable (x ∈ blockInstrs instrs b) :=
  inferInstanceAs (Decidable (x ∈ instrs ∧ b.start ≤ x.addr ∧ x.addr ≤ b.stop))

/-- If a function and a block are not nested, the block holds the declaration and ends in the body, or it
begins in the body and goes on behind it. -/
theorem nested_or_straddles (instrs : List Instruction) (b : Block) (addr stop : Addr) :
    (Disjoint (functionInstrs instrs addr stop) (blockInstrs instrs b) ∨
      functionInstrs instrs addr stop ⊆ blockInstrs instrs b ∨
      blockInstrs instrs b ⊆ functionInstrs instrs addr stop) ∨
    (b.start < addr ∧ addr ≤ b.stop ∧ b.stop < stop) ∨
    (addr < b.start ∧ b.start < stop ∧ ∃ z ∈ instrs, stop ≤ z.addr ∧ z.addr ≤ b.stop) := by
  by_cases hdisjoint : Disjoint (functionInstrs instrs addr stop) (blockInstrs instrs b)
  · exact .inl (.inl hdisjoint)
  by_cases hleft : functionInstrs instrs addr stop ⊆ blockInstrs instrs b
  · exact .inl (.inr (.inl hleft))
  by_cases hright : blockInstrs instrs b ⊆ functionInstrs instrs addr stop
  · exact .inl (.inr (.inr hright))
  obtain ⟨x, ⟨-, hx⟩, -, hx'⟩ := Set.not_disjoint_iff.mp hdisjoint
  obtain ⟨y, ⟨hy, hyF⟩, hyB⟩ := Set.not_subset.mp hleft
  obtain ⟨z, ⟨hz, hzB⟩, hzF⟩ := Set.not_subset.mp hright
  have hyB : ¬ (b.start ≤ y.addr ∧ y.addr ≤ b.stop) := fun hle => hyB ⟨hy, hle⟩
  have hzF : ¬ (addr ≤ z.addr ∧ z.addr < stop) := fun hle => hzF ⟨hz, hle⟩
  dsimp only [Addr] at *
  rcases Nat.lt_or_ge z.addr addr with hlt | hge
  · exact .inr (.inl (by omega))
  · exact .inr (.inr ⟨by omega, by omega, z, hz, by omega, by omega⟩)

/-- **Functions and blocks.**  In a stream that is rebuilt, the body of a function ends as many parts as it
begins.  If it ends none that was open before it, as is the case outside of all parts, and the instruction
behind it is entered, then the function and every choice or loop lie apart or one inside the other. -/
theorem function_block_nested (h : Increasing instrs) (hlast : ∀ ins ∈ instrs, ins.addr ≤ Addr.last)
    (htree : (analyze instrs).outcome.1 = .ok tree) (hnodes : (rebuild tree instrs).outcome.1 = .ok nodes)
    {ins : Instruction} (hins : ins ∈ instrs) {stop : Addr} (hdeclares : ins.Declares stop) :
    level (bodyOf ins.addr stop (events tree instrs)) = 0 ∧
      (level (frontOf ins.addr stop (events tree instrs)) = 0 →
        ClosesOwn (bodyOf ins.addr stop (events tree instrs))) ∧
      (ClosesOwn (bodyOf ins.addr stop (events tree instrs)) →
        (∀ x ∈ instrs.find? (stop ≤ ·.addr), ¬ tree.Skips x.addr) →
          ∀ b ∈ tree.preorder, b.kind ≠ .root →
            Disjoint (functionInstrs instrs ins.addr stop) (blockInstrs instrs b) ∨
              functionInstrs instrs ins.addr stop ⊆ blockInstrs instrs b ∨
              blockInstrs instrs b ⊆ functionInstrs instrs ins.addr stop) := by
  rw [outcome_analyze] at htree
  obtain ⟨made, -, hseeds, hcomplete⟩ := complete_of_blockTree h htree
  have htold := told_of_rebuild (fits_of_complete h hlast hseeds hcomplete) hnodes
  obtain ⟨n, hn⟩ := List.mem_iff_getElem?.mp hins
  have hdeclare := (htold.used n ins (Nat.zero_le n) (Region.lt_length hn) hn).declared stop hdeclares
  obtain ⟨front, back, hsplit⟩ := List.append_of_mem hdeclare
  have hordered := hsplit ▸ htold.ordered
  obtain ⟨w, hwatch, hend⟩ := watch_of_rebuild hnodes
  have hlevel : level (bodyOf ins.addr stop (events tree instrs)) = 0 := by
    rw [events, hsplit, bodyOf_append hordered]
    exact Watch.level_bodyOf (hsplit ▸ hwatch) hend
  refine ⟨hlevel, fun hfront => ?_, fun hown hskips b hb hroot => ?_⟩
  · rw [events, hsplit, frontOf_append hordered] at hfront
    rw [events, hsplit, bodyOf_append hordered]
    exact closesOwn_bodyOf (hsplit ▸ Region.balanced_listEvents _) hfront
  · obtain ⟨start, before, inside, after, heq, hencloses⟩ :=
      framed_of_rebuild h hlast hseeds hcomplete hnodes hb hroot
    have hordered := htold.ordered
    rw [events, heq] at hown hlevel
    rw [heq] at hordered hdeclare
    have hstart := hencloses.start_le
    rcases nested_or_straddles instrs b ins.addr stop with
      hnested | ⟨hbefore, hle, hstop⟩ | ⟨hafter, hlt, z, hz, hzstop, hzle⟩
    · exact hnested
    · exact absurd hown
        (hencloses.not_closesOwn hordered hins hdeclares (hstart.trans_lt hbefore) hle hstop)
    · -- the function is declared before the block is entered, and the block goes on with what comes behind it
      have haddr : ins.addr < start := Nat.lt_of_not_le fun hge =>
        hencloses.undeclared ins hins hge hafter stop hdeclares
      have hlt := hstart.trans_lt hlt
      obtain ⟨c, hc, hmem, hcstop, hcz⟩ := exists_find?_le h hz hzstop
      have hentered := (hencloses.shows c hmem (hlt.trans_le hcstop) (hcz.trans hzle)).entered
      have hpos := hencloses.level_pos hordered hdeclare haddr hlt (hentered.resolve_right (hskips c hc)) hcstop hown
      exact absurd hlevel hpos.ne'

/-- A function without arguments, `function f()`. -/
def plainSignature : Signature :=
  ⟨"f", none, none, []⟩

/-- A function inside a choice, with a choice in its body. -/
def functionInChoice : List Instruction :=
  [⟨0, 1, .loadImmedUint, .immediateUint 1⟩, ⟨1, 1, .jmpIfNot, .jump .ifNot 8⟩,
    ⟨2, 1, .funcDecl, .declareFunction plainSignature true 7⟩, ⟨3, 1, .loadImmedUint, .immediateUint 2⟩,
    ⟨4, 1, .jmpIfNot, .jump .ifNot 6⟩, ⟨5, 1, .ret, .ret false⟩, ⟨6, 1, .ret, .ret false⟩,
    ⟨7, 1, .ret, .ret false⟩, ⟨8, 1, .ret, .ret false⟩]

/-- The block tree of `functionInChoice`. -/
def functionInChoiceTree : Block :=
  ⟨0, .root, 0, 8, [], none, [⟨1, .conditional, 1, 7, [], none, [⟨2, .conditional, 4, 5, [], none, []⟩]⟩]⟩

theorem function_block_nested_inChoice :
    Increasing functionInChoice ∧ (analyze functionInChoice).outcome.1 = .ok functionInChoiceTree ∧
      (∃ nodes, (rebuild functionInChoiceTree functionInChoice).outcome.1 = .ok nodes) ∧
      ClosesOwn (bodyOf 2 7 (events functionInChoiceTree functionInChoice)) ∧
      ∀ b ∈ functionInChoiceTree.preorder, b.kind ≠ .root →
        Disjoint (functionInstrs functionInChoice 2 7) (blockInstrs functionInChoice b) ∨
          functionInstrs functionInChoice 2 7 ⊆ blockInstrs functionInChoice b ∨
          blockInstrs functionInChoice b ⊆ functionInstrs functionInChoice 2 7 := by
  have hincreasing : Increasing functionInChoice := by
    unfold Increasing functionInChoice
    decide
  have htree : (analyze functionInChoice).outcome.1 = .ok functionInChoiceTree := by cbv
  have hnodes : (rebuild functionInChoiceTree functionInChoice).outcome.1 =
      .ok [.ifElse (.constant (.uint 1)) [.function plainSignature
        [.ifElse (.constant (.uint 2)) [.ret none] [], .ret none], .ret none] [], .ret none] := by cbv
  have hevents : bodyOf 2 7 (events functionInChoiceTree functionInChoice) =
      [.enter 3, .enter 4, .opens, .enter 5, .closes, .enter 6] := by cbv
  have hown : ClosesOwn (bodyOf 2 7 (events functionInChoiceTree functionInChoice)) := by
    rw [hevents]
    decide
  refine ⟨hincreasing, htree, ⟨_, hnodes⟩, hown, ?_⟩
  have hlast : ∀ ins ∈ functionInChoice, ins.addr ≤ Addr.last := by decide
  have hmem : ⟨2, 1, .funcDecl, .declareFunction plainSignature true 7⟩ ∈ functionInChoice := by decide
  have hskips : ∀ x ∈ functionInChoice.find? (7 ≤ ·.addr), ¬ functionInChoiceTree.Skips x.addr := by decide
  exact (function_block_nested hincreasing hlast htree hnodes hmem ⟨_, rfl⟩).2.2 hown hskips

theorem not_nested {A B : Set Instruction} {x y z : Instruction} (hx : x ∈ A) (hx' : x ∈ B) (hy : y ∈ A)
    (hy' : y ∉ B) (hz : z ∈ B) (hz' : z ∉ A) : ¬ (Disjoint A B ∨ A ⊆ B ∨ B ⊆ A) := by
  rintro (h | h | h)
  · exact Set.disjoint_left.mp h hx hx'
  · exact hy' (h hy)
  · exact hz' (h hz)

/-- A loop that begins in the body of a function and ends behind it.  Its jump back is the first instruction
behind the body. -/
def loopAcross : List Instruction :=
  [⟨0, 1, .funcDecl, .declareFunction plainSignature true 2⟩, ⟨1, 1, .loadImmedUint, .immediateUint 1⟩,
    ⟨2, 1, .jmpIf, .jump .ifTrue 1⟩, ⟨3, 1, .ret, .ret false⟩]

/-- The block tree of `loopAcross`. -/
def loopAcrossTree : Block :=
  ⟨0, .root, 0, 3, [], none, [⟨1, .loop, 1, 2, [], none, []⟩]⟩

/-- A loop around the declaration of a function that ends in its body, and a choice that begins in the body
and ends behind it. -/
def loopThenChoice : List Instruction :=
  [⟨0, 1, .ret, .ret false⟩, ⟨1, 1, .funcDecl, .declareFunction plainSignature true 7⟩,
    ⟨2, 1, .loadImmedUint, .immediateUint 1⟩, ⟨3, 1, .jmpIf, .jump .ifTrue 0⟩,
    ⟨4, 1, .loadImmedUint, .immediateUint 2⟩, ⟨5, 1, .jmpIfNot, .jump .ifNot 8⟩, ⟨6, 1, .ret, .ret false⟩,
    ⟨7, 1, .ret, .ret false⟩, ⟨8, 1, .ret, .ret false⟩]

/-- The block tree of `loopThenChoice`. -/
def loopThenChoiceTree : Block :=
  ⟨0, .root, 0, 8, [], none, [⟨1, .loop, 0, 3, [], none, []⟩, ⟨2, .conditional, 5, 7, [], none, []⟩]⟩

/-- Both cases that the depth at the end of a function does not show. -/
theorem straddling_functions :
    (Increasing loopAcross ∧ (analyze loopAcross).outcome.1 = .ok loopAcrossTree ∧
      (rebuild loopAcrossTree loopAcross).outcome.1 = .ok [.function plainSignature
        [.loop .doWhile none (.constant (.uint 1)) none []], .ret none] ∧
      ∃ b ∈ loopAcrossTree.preorder, b.kind = .loop ∧
        ¬ (Disjoint (functionInstrs loopAcross 0 2) (blockInstrs loopAcross b) ∨
          functionInstrs loopAcross 0 2 ⊆ blockInstrs loopAcross b ∨
          blockInstrs loopAcross b ⊆ functionInstrs loopAcross 0 2)) ∧
    (Increasing loopThenChoice ∧ (analyze loopThenChoice).outcome.1 = .ok loopThenChoiceTree ∧
      (rebuild loopThenChoiceTree loopThenChoice).outcome.1 = .ok [.ifElse (.constant (.uint 2))
        [.ret none, .loop .doWhile none (.constant (.uint 1)) none [], .function plainSignature [.ret none],
          .ret none] [], .ret none] ∧
      ∀ b ∈ loopThenChoiceTree.preorder, b.kind ≠ .root →
        ¬ (Disjoint (functionInstrs loopThenChoice 1 7) (blockInstrs loopThenChoice b) ∨
          functionInstrs loopThenChoice 1 7 ⊆ blockInstrs loopThenChoice b ∨
          blockInstrs loopThenChoice b ⊆ functionInstrs loopThenChoice 1 7)) := by
  constructor
  · have hpreorder : loopAcrossTree.preorder = [loopAcrossTree, ⟨1, .loop, 1, 2, [], none, []⟩] := by cbv
    refine ⟨by unfold Increasing loopAcross; decide, by cbv, by cbv, ?_⟩
    rw [hpreorder]
    refine ⟨_, List.mem_cons_of_mem _ List.mem_cons_self, rfl, ?_⟩
    exact not_nested (x := ⟨1, 1, .loadImmedUint, .immediateUint 1⟩) (by decide) (by decide)
      (y := ⟨0, 1, .funcDecl, .declareFunction plainSignature true 2⟩) (by decide) (by decide)
      (z := ⟨2, 1, .jmpIf, .jump .ifTrue 1⟩) (by decide) (by decide)
  · have hpreorder : loopThenChoiceTree.preorder = [loopThenChoiceTree, ⟨1, .loop, 0, 3, [], none, []⟩,
        ⟨2, .conditional, 5, 7, [], none, []⟩] := by cbv
    refine ⟨by unfold Increasing loopThenChoice; decide, by cbv, by cbv, ?_⟩
    rw [hpreorder]
    refine List.forall_mem_cons.mpr ⟨fun h => absurd rfl h, List.forall_mem_cons.mpr ⟨fun _ => ?_,
      List.forall_mem_singleton.mpr fun _ => ?_⟩⟩
    · exact not_nested (x := ⟨2, 1, .loadImmedUint, .immediateUint 1⟩) (by decide) (by decide)
        (y := ⟨6, 1, .ret, .ret false⟩) (by decide) (by decide)
        (z := ⟨0, 1, .ret, .ret false⟩) (by decide) (by decide)
    · exact not_nested (x := ⟨6, 1, .ret, .ret false⟩) (by decide) (by decide)
        (y := ⟨2, 1, .loadImmedUint, .immediateUint 1⟩) (by decide) (by decide)
        (z := ⟨7, 1, .ret, .ret false⟩) (by decide) (by decide)

end Stream

end TorqueScript
