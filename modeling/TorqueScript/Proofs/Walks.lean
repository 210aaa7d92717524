import Mathlib
import TorqueScript.Proofs.Rebuilding

/-!
# Walks through a stream

`Region.Walks` says how regions are taken from a stream position by position: which positions are used for
the regions of a block, in which order, and where one goes on.  A position is used for an instruction that
is executed, for a jump that becomes a statement, for the conditional jump at the head of a choice, for the
jump over an alternative, or for the jump back of a loop.

* `Region.Walks.le`: a walk does not go back.
* `Region.exists_walks`: there is a walk from every position, in every block.  It gets on with the
  stream, or it stays where it is and goes into a smaller block.
-/

namespace TorqueScript

namespace Region

section Walks

variable (instrs : List Instruction)

mutual

/-- The regions of a block from position `i` up to the address `stop`, the positions used for them, and
the position behind them. -/
inductive Walks : Block → Addr → Nat → List Region → List Nat → Nat → Prop where
  -- no position is used where the walk ends
  | nothing {block : Block} {stop : Addr} {i : Nat} (hi : instrs[i]? = none) : Walks block stop i [] [] i
  | halt {block : Block} {stop : Addr} {i : Nat} {ins : Instruction} (hi : instrs[i]? = some ins)
      (hstop : stop ≤ ins.addr) : Walks block stop i [] [] i
  | inner {block child : Block} {stop : Addr} {i j k : Nat} {ins : Instruction} {region : Region}
      {regions : List Region} {used later : List Nat} (hi : instrs[i]? = some ins) (hstop : ins.addr < stop)
      (hchild : block.childAt? ins.addr = some child) (h : WalksChild block child i region used j)
      (hrest : Walks block stop j regions later k) : Walks block stop i (region :: regions) (used ++ later) k
  | jump {block : Block} {branch : Branch} {stop : Addr} {i k : Nat} {ins : Instruction}
      {regions : List Region} {later : List Nat} (hi : instrs[i]? = some ins) (hstop : ins.addr < stop)
      (hchild : block.childAt? ins.addr = none) (hbranch : block.branchAt? ins.addr = some branch)
      (hrest : Walks block stop (i + 1) regions later k) :
      Walks block stop i (.jump ins branch.kind :: regions) (i :: later) k
  | plain {block : Block} {stop : Addr} {i k : Nat} {ins : Instruction} {regions : List Region}
      {later : List Nat} (hi : instrs[i]? = some ins) (hstop : ins.addr < stop)
      (hchild : block.childAt? ins.addr = none) (hbranch : block.branchAt? ins.addr = none)
      (hrest : Walks block stop (i + 1) regions later k) :
      Walks block stop i (.plain ins :: regions) (i :: later) k

/-- The region of a block inside `parent` that begins at position `i`.  Nothing behind a mark of failure
counts. -/
inductive WalksChild : Block → Block → Nat → Region → List Nat → Nat → Prop where
  -- a loop has no head: its first instruction belongs to its body
  | loop {parent child : Block} {i j : Nat} {parts : LoopRegions} {used : List Nat}
      (hkind : child.kind = .loop) (h : WalksLoop child i parts used j) :
      WalksChild parent child i
        (.loop child.start child.stop parts.body parts.split parts.step parts.back) used j
  | guarded {parent child inner : Block} {i j : Nat} {ins : Instruction} {kind : JumpKind} {target : Addr}
      {parts : LoopRegions} {used : List Nat} (hi : instrs[i]? = some ins) (hkind : child.kind = .conditional)
      (hjump : ins.jump? = some (kind, target))
      (hloop : child.guardedLoop? (instrs.drop (i + 1)) = some inner)
      (h : WalksLoop inner (i + 1) parts used j) :
      WalksChild parent child i (.guarded ins kind inner.stop parts.body parts.split parts.step parts.back)
        (i :: used) j
  | choice {parent child : Block} {i j : Nat} {ins : Instruction} {kind : JumpKind} {target : Addr}
      {body : List Region} {used : List Nat} (hi : instrs[i]? = some ins) (hkind : child.kind = .conditional)
      (hjump : ins.jump? = some (kind, target)) (hloop : child.guardedLoop? (instrs.drop (i + 1)) = none)
      (helse : child.alternative? = none) (h : Walks child child.bodyStop (i + 1) body used j) :
      WalksChild parent child i (.choice ins kind child.stop body) (i :: used) j
  -- the alternative is read in the block around the choice
  | choiceElse {parent child : Block} {branch : Branch} {i j k : Nat} {ins separator : Instruction}
      {kind : JumpKind} {target : Addr} {body alternative : List Region} {used later : List Nat}
      (hi : instrs[i]? = some ins) (hkind : child.kind = .conditional)
      (hjump : ins.jump? = some (kind, target)) (hloop : child.guardedLoop? (instrs.drop (i + 1)) = none)
      (helse : child.alternative? = some branch) (h : Walks child child.bodyStop (i + 1) body used j)
      (hj : instrs[j]? = some separator) (haddr : separator.addr = branch.addr)
      (halt : Walks parent (min branch.target parent.alternativeStop) (j + 1) alternative later k) :
      WalksChild parent child i (.choiceElse ins kind child.stop body branch.addr alternative)
        (i :: used ++ j :: later) k
  | noSeparator {parent child : Block} {branch : Branch} {i j : Nat} {ins : Instruction} {kind : JumpKind}
      {target : Addr} {body : List Region} {used : List Nat} (hi : instrs[i]? = some ins)
      (hkind : child.kind = .conditional) (hjump : ins.jump? = some (kind, target))
      (hloop : child.guardedLoop? (instrs.drop (i + 1)) = none) (helse : child.alternative? = some branch)
      (h : Walks child child.bodyStop (i + 1) body used j)
      (hj : ∀ separator, instrs[j]? = some separator → separator.addr ≠ branch.addr) :
      WalksChild parent child i (.choiceElse ins kind child.stop body branch.addr [.broken branch.addr])
        (i :: used) instrs.length
  | noHead {parent child : Block} {i : Nat} {ins : Instruction} (hi : instrs[i]? = some ins)
      (hkind : child.kind ≠ .loop) (hjump : child.kind = .conditional → ins.jump? = none) :
      WalksChild parent child i (.jump ins .alternative) [] instrs.length

/-- The parts of a loop that begins at position `i`. -/
inductive WalksLoop : Block → Nat → LoopRegions → List Nat → Nat → Prop where
  -- the jump back is not part of the body; it is used after it
  | whole {block : Block} {i j : Nat} {back : Instruction} {kind : JumpKind} {target : Addr}
      {body : List Region} {used : List Nat} (hsplit : block.splitPoint? = none)
      (h : Walks block block.stop i body used j) (hj : instrs[j]? = some back)
      (haddr : back.addr = block.stop) (hjump : back.jump? = some (kind, target)) :
      WalksLoop block i ⟨body, false, [], some (back, kind)⟩ (used ++ [j]) (j + 1)
  | split {block : Block} {point : Addr} {i j k : Nat} {back : Instruction} {kind : JumpKind} {target : Addr}
      {body step : List Region} {used later : List Nat} (hsplit : block.splitPoint? = some point)
      (h : Walks block point i body used j) (hstep : Walks block block.stop j step later k)
      (hk : instrs[k]? = some back) (haddr : back.addr = block.stop)
      (hjump : back.jump? = some (kind, target)) :
      WalksLoop block i ⟨body, true, step, some (back, kind)⟩ (used ++ later ++ [k]) (k + 1)
  | wholeNoBack {block : Block} {i j : Nat} {body : List Region} {used : List Nat}
      (hsplit : block.splitPoint? = none) (h : Walks block block.stop i body used j)
      (hj : back? block.stop (instrs.drop j) = none) :
      WalksLoop block i ⟨body, false, [], none⟩ used instrs.length
  | splitNoBack {block : Block} {point : Addr} {i j k : Nat} {body step : List Region} {used later : List Nat}
      (hsplit : block.splitPoint? = some point) (h : Walks block point i body used j)
      (hstep : Walks block block.stop j step later k) (hk : back? block.stop (instrs.drop k) = none) :
      WalksLoop block i ⟨body, true, step, none⟩ (used ++ later) instrs.length

end

end Walks

variable {instrs : List Instruction}

/-! ### Walks get on -/

theorem lt_length {i : Nat} {ins : Instruction} (h : instrs[i]? = some ins) : i < instrs.length :=
  (List.getElem?_eq_some_iff.mp h).1

mutual

/-- **A walk goes forward and stays within the stream.** -/
theorem Walks.le {block : Block} {stop : Addr} {i j : Nat} {regions : List Region} {used : List Nat} :
    Walks instrs block stop i regions used j → i ≤ instrs.length → i ≤ j ∧ j ≤ instrs.length
  | .nothing _, hi | .halt _ _, hi => ⟨le_rfl, hi⟩
  | .inner hget _ _ h hrest, _ =>
      have hchild := h.lt (lt_length hget)
      have hrest := hrest.le hchild.2
      ⟨hchild.1.le.trans hrest.1, hrest.2⟩
  | .jump hget _ _ _ hrest, _ | .plain hget _ _ _ hrest, _ =>
      have hrest := hrest.le (lt_length hget)
      ⟨Nat.le_of_succ_le hrest.1, hrest.2⟩

/-- A walk over a child uses at least its first instruction. -/
theorem WalksChild.lt {parent child : Block} {i j : Nat} {region : Region} {used : List Nat} :
    WalksChild instrs parent child i region used j → i < instrs.length → i < j ∧ j ≤ instrs.length
  | .loop _ h, hi =>
      have hloop := h.le hi.le
      ⟨hloop.2.2 hi, hloop.2.1⟩
  | .guarded _ _ _ _ h, hi =>
      have hloop := h.le hi
      ⟨hloop.1, hloop.2.1⟩
  | .choice _ _ _ _ _ h, hi => h.le hi
  | .choiceElse _ _ _ _ _ h hj _ halt, hi =>
      have hbody := h.le hi
      have halt := halt.le (lt_length hj)
      ⟨hbody.1.trans (Nat.le_of_succ_le halt.1), halt.2⟩
  | .noSeparator .., hi | .noHead .., hi => ⟨hi, le_rfl⟩

/-- A walk over a loop goes forward. -/
theorem WalksLoop.le {block : Block} {i j : Nat} {parts : LoopRegions} {used : List Nat} :
    WalksLoop instrs block i parts used j → i ≤ instrs.length →
      i ≤ j ∧ j ≤ instrs.length ∧ (i < instrs.length → i < j)
  | .whole _ h hj _ _, hi =>
      have hbody := h.le hi
      ⟨Nat.le_succ_of_le hbody.1, lt_length hj, fun _ => Nat.lt_succ_of_le hbody.1⟩
  | .split _ h hstep hk _ _, hi =>
      have hbody := h.le hi
      have hstep := hstep.le hbody.2
      have hik := hbody.1.trans hstep.1
      ⟨Nat.le_succ_of_le hik, lt_length hk, fun _ => Nat.lt_succ_of_le hik⟩
  | .wholeNoBack .., hi | .splitNoBack .., hi => ⟨hi, le_rfl, id⟩

end

/-! ### There are walks -/

/-- Behind a body there is a jump back or there is none. -/
theorem exists_back (instrs : List Instruction) (stop : Addr) (j : Nat) :
    (∃ back kind target, instrs[j]? = some back ∧ back.addr = stop ∧ back.jump? = some (kind, target)) ∨
      back? stop (instrs.drop j) = none := by
  cases hj : instrs[j]? with
  | none =>
      refine .inr ?_
      rw [List.drop_eq_nil_of_le (List.getElem?_eq_none_iff.mp hj)]
      rfl
  | some back =>
      obtain ⟨hlt, rfl⟩ := List.getElem?_eq_some_iff.mp hj
      rw [List.drop_eq_getElem_cons hlt, back?]
      by_cases haddr : instrs[j].addr = stop
      · cases hjump : instrs[j].jump? with
        | none => exact .inr (by rw [if_pos haddr, Option.map_none])
        | some jump => exact .inl ⟨_, jump.1, jump.2, rfl, haddr, hjump⟩
      · exact .inr (if_neg haddr)

mutual

/-- **A walk ends.**  Either its position gets on or its block gets smaller. -/
theorem exists_walks (instrs : List Instruction) (block : Block) (stop : Addr) (i : Nat) :
    ∃ regions used j, Walks instrs block stop i regions used j := by
  cases hget : instrs[i]? with
  | none => exact ⟨_, _, _, .nothing hget⟩
  | some ins =>
      have hlt := lt_length hget
      by_cases hstop : stop ≤ ins.addr
      · exact ⟨_, _, _, .halt hget hstop⟩
      have hstop := Nat.not_le.mp hstop
      cases hchild : block.childAt? ins.addr with
      | some child =>
          -- into the child with the position as it is, and on behind it
          have := Block.sizeOf_childAt? hchild
          obtain ⟨region, used, j, h⟩ := exists_walksChild instrs block child hget
          have hij := (h.lt hlt).1
          obtain ⟨regions, later, k, hrest⟩ := exists_walks instrs block stop j
          exact ⟨_, _, _, .inner hget hstop hchild h hrest⟩
      | none =>
          obtain ⟨regions, later, k, hrest⟩ := exists_walks instrs block stop (i + 1)
          cases hbranch : block.branchAt? ins.addr with
          | some branch => exact ⟨_, _, _, .jump hget hstop hchild hbranch hrest⟩
          | none => exact ⟨_, _, _, .plain hget hstop hchild hbranch hrest⟩
  termination_by (instrs.length - i, sizeOf block, 0)

/-- **A child is walked over in some way.** -/
theorem exists_walksChild (instrs : List Instruction) (parent child : Block) {i : Nat} {ins : Instruction}
    (hi : instrs[i]? = some ins) : ∃ region used j, WalksChild instrs parent child i region used j := by
  have hlt := lt_length hi
  by_cases hkind : child.kind = .loop
  · obtain ⟨parts, used, j, h⟩ := exists_walksLoop instrs child hlt.le
    exact ⟨_, _, _, .loop hkind h⟩
  by_cases hhead : child.kind = .conditional → ins.jump? = none
  · exact ⟨_, _, _, .noHead hi hkind hhead⟩
  obtain ⟨hkind, hjump⟩ := Classical.not_imp.mp hhead
  obtain ⟨⟨kind, target⟩, hjump⟩ := Option.ne_none_iff_exists'.mp hjump
  cases hloop : child.guardedLoop? (instrs.drop (i + 1)) with
  | some inner =>
      obtain ⟨parts, used, j, h⟩ := exists_walksLoop instrs inner hlt
      exact ⟨_, _, _, .guarded hi hkind hjump hloop h⟩
  | none =>
      obtain ⟨body, used, j, h⟩ := exists_walks instrs child child.bodyStop (i + 1)
      cases helse : child.alternative? with
      | none => exact ⟨_, _, _, .choice hi hkind hjump hloop helse h⟩
      | some branch =>
          by_cases hseparator : ∃ separator, instrs[j]? = some separator ∧ separator.addr = branch.addr
          · obtain ⟨separator, hj, haddr⟩ := hseparator
            -- back in the parent, but behind the head and the separator
            have hij := (h.le hlt).1
            have hjlt := lt_length hj
            obtain ⟨alternative, later, k, halt⟩ :=
              exists_walks instrs parent (min branch.target parent.alternativeStop) (j + 1)
            exact ⟨_, _, _, .choiceElse hi hkind hjump hloop helse h hj haddr halt⟩
          · refine ⟨_, _, _, .noSeparator hi hkind hjump hloop helse h fun separator hj haddr => ?_⟩
            exact hseparator ⟨separator, hj, haddr⟩
  termination_by (instrs.length - i, sizeOf child, 2)

/-- So is a loop. -/
theorem exists_walksLoop (instrs : List Instruction) (block : Block) {i : Nat} (hi : i ≤ instrs.length) :
    ∃ parts used j, WalksLoop instrs block i parts used j := by
  cases hsplit : block.splitPoint? with
  | none =>
      obtain ⟨body, used, j, h⟩ := exists_walks instrs block block.stop i
      rcases exists_back instrs block.stop j with ⟨back, kind, target, hj, haddr, hjump⟩ | hback
      · exact ⟨_, _, _, .whole hsplit h hj haddr hjump⟩
      · exact ⟨_, _, _, .wholeNoBack hsplit h hback⟩
  | some point =>
      obtain ⟨body, used, j, h⟩ := exists_walks instrs block point i
      -- the first part may be empty, and then the second one begins where the first did
      obtain ⟨hij, hj⟩ := h.le hi
      obtain ⟨step, later, k, hstep⟩ := exists_walks instrs block block.stop j
      rcases exists_back instrs block.stop k with ⟨back, kind, target, hk, haddr, hjump⟩ | hback
      · exact ⟨_, _, _, .split hsplit h hstep hk haddr hjump⟩
      · exact ⟨_, _, _, .splitNoBack hsplit h hstep hback⟩
  termination_by (instrs.length - i, sizeOf block, 1)
  decreasing_by
    · exact .right _ (.right _ (by omega))
    · exact .right _ (.right _ (by omega))
    · rcases Nat.lt_or_eq_of_le hij with hlt | rfl
      · exact .left _ _ (by omega)
      · exact .right _ (.right _ (by omega))

end

end Region

end TorqueScript
