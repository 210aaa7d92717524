import TorqueScript.Proofs.Classes
import TorqueScript.Region

/-!
# Regions of compiled code

Which regions compiled code falls into is told by its outline (`Piece.regions`), given its block tree:
straight-line code and a condition are read instruction by instruction, the conditional jump behind the
condition begins a choice, and a loop is read as a whole, in two parts if it has a continue point that
lies in none of its blocks.

`Reads` says what is read from a stream up to an address, and `Passes` what code in front of a stream
adds to it.  A block is asked for the blocks and jumps at the addresses of the stream, so code is read
correctly in any block that knows those of its pieces (`Within`).  Where these lie is seen from the pieces
(`Piece.spans_trees`).
-/

namespace TorqueScript

namespace Piece

section Regions

variable (L : Placement)

/-- The regions of a loop at `pos` whose pieces have the given regions. -/
def loopRegions (pos : Nat) (body : List Piece) (c : Node) (parts : List (List Region)) : LoopRegions :=
  let back := pos + listSize body + testSize c
  let test := (testInstrs L (L.addr (back + 1)) (pos + listSize body) c).map Region.plain
  let jump := some (L.instr back (.jump .ifTrue (L.addr pos)), .ifTrue)
  match cut? pos body with
  | none => ⟨parts.flatten ++ test, false, [], jump⟩
  | some k => ⟨(parts.take k).flatten, true, (parts.drop k).flatten ++ test, jump⟩

mutual

/-- The regions of a piece at `pos`. -/
def regions (inLoop tail : Bool) (exit : Addr) (pos : Nat) : Piece → List Region
  | plain n => (instrs L exit pos (plain n)).map .plain
  | leave => [.jump (L.instr pos (.jump .always exit)) .leave]
  | choice c [loop body c'] =>
    let head := pos + testSize c
    let stop := head + 1 + listSize body + testSize c'
    let parts := loopRegions L (head + 1) body c'
      (listRegions true false (L.addr (stop + 1)) (head + 1) body)
    (testInstrs L exit pos c).map .plain ++
      [.guarded (L.instr head (.jump .ifNot (L.addr (stop + 1)))) .ifNot (L.addr stop) parts.body
        parts.split parts.step parts.back]
  | choice c body =>
    let head := pos + testSize c
    (testInstrs L exit pos c).map .plain ++
      [.choice (L.instr head (.jump .ifNot (L.addr (head + 1 + listSize body)))) .ifNot
        (L.addr (head + listSize body)) (listRegions inLoop true exit (head + 1) body).flatten]
  | choiceElse c body alternative =>
    let head := pos + testSize c
    let gap := head + 1 + listSize body
    let jump := L.instr gap (.jump .always (L.addr (gap + 1 + listSize alternative)))
    let first := (listRegions inLoop false exit (head + 1) body).flatten
    let second := (listRegions inLoop tail exit (gap + 1) alternative).flatten
    (testInstrs L exit pos c).map .plain ++
      if inLoop && tail then
        .choice (L.instr head (.jump .ifNot (L.addr (gap + 1)))) .ifNot (L.addr gap)
          (first ++ [.jump jump .nextRound]) :: second
      else
        [.choiceElse (L.instr head (.jump .ifNot (L.addr (gap + 1)))) .ifNot (L.addr gap) first
          (L.addr gap) second]
  | loop body c =>
    let back := pos + listSize body + testSize c
    let parts := loopRegions L pos body c (listRegions true false (L.addr (back + 1)) pos body)
    [.loop (L.addr pos) (L.addr back) parts.body parts.split parts.step parts.back]

/-- The regions of pieces that follow each other, piece by piece. -/
def listRegions (inLoop tail : Bool) (exit : Addr) (pos : Nat) : List Piece → List (List Region)
  | [] => []
  | p :: ps =>
    regions inLoop (tail && ps.isEmpty) exit pos p :: listRegions inLoop tail exit (pos + p.size) ps

end

end Regions

/-- How many instructions of a piece are compared with the address up to which is read. -/
def reach (inLoop tail : Bool) (p : Piece) : Nat :=
  match p with
  | plain _ | leave => p.size
  | choice c _ => testSize c + 1
  | choiceElse c _ _ => if inLoop && tail then p.size else testSize c + 1
  | loop _ _ => 1

/-- No more is compared than there is. -/
theorem reach_le_size (inLoop tail : Bool) (p : Piece) : reach inLoop tail p ≤ p.size := by
  cases p with
  | plain | leave => exact le_rfl
  | choice c body => rw [reach, size_choice]; omega
  | choiceElse c body alternative =>
      rw [reach]
      split
      · exact le_rfl
      · rw [size_choiceElse]
        omega
  | loop body c => rw [reach, size_loop]; omega

end Piece

/-! ### Reading -/

namespace Region

/-- What is read from a stream in a block up to `stop`, and what is left. -/
def Reads (block : Block) (stop : Addr) (instrs : List Instruction) (regions : List Region)
    (rest : List Instruction) : Prop :=
  (read block stop instrs).1 = regions ∧ (read block stop instrs).2.val = rest

/-- What is read as the block `child`, which begins with `ins`. -/
def ReadsChild (block child : Block) (ins : Instruction) (instrs : List Instruction) (region : Region)
    (rest : List Instruction) : Prop :=
  (readChild block child ins instrs).1 = region ∧ (readChild block child ins instrs).2.val = rest

/-- What is read as a loop. -/
def ReadsLoop (block : Block) (instrs : List Instruction) (parts : LoopRegions)
    (rest : List Instruction) : Prop :=
  (readLoop block instrs).1 = parts ∧ (readLoop block instrs).2.val = rest

variable {block child : Block} {stop : Addr} {ins : Instruction} {instrs rest rest' : List Instruction}
  {regions : List Region} {region : Region}

/-- Nothing is read of an empty stream. -/
theorem Reads.nil : Reads block stop [] [] [] := by
  rw [Reads, read]
  exact ⟨rfl, rfl⟩

/-- A stream that is read to its end is nothing but its regions. -/
theorem Reads.ofStream_eq (h : Reads block Addr.last instrs regions []) :
    ofStream block instrs = regions := by
  rw [Reads] at h
  rw [ofStream]
  generalize read block Addr.last instrs = result at h
  obtain ⟨regions', rest, hle⟩ := result
  obtain ⟨rfl, rfl⟩ := h
  rfl

/-- Reading stops in front of the first instruction that does not lie in front of the end. -/
theorem Reads.halt (h : stop ≤ ins.addr) : Reads block stop (ins :: instrs) [] (ins :: instrs) := by
  rw [Reads, read, if_pos h]
  exact ⟨rfl, rfl⟩

/-- A block inside the block is read as one region. -/
theorem Reads.inner (hstop : ins.addr < stop) (hchild : block.childAt? ins.addr = some child)
    (h : ReadsChild block child ins instrs region rest) (hrest : Reads block stop rest regions rest') :
    Reads block stop (ins :: instrs) (region :: regions) rest' := by
  obtain ⟨rfl, rfl⟩ := h
  obtain ⟨rfl, rfl⟩ := hrest
  rw [Reads, read, if_neg (Nat.not_le.mpr hstop)]
  split
  · next child' h' =>
      obtain rfl : child = child' := Option.some.inj (hchild.symm.trans h')
      exact ⟨rfl, rfl⟩
  · next h' => rw [hchild] at h'; cases h'

/-- An instruction that begins no block and is no jump of the block stays as it is. -/
theorem Reads.plain (hstop : ins.addr < stop) (hchild : block.childAt? ins.addr = none)
    (hbranch : block.branchAt? ins.addr = none) (hrest : Reads block stop instrs regions rest) :
    Reads block stop (ins :: instrs) (.plain ins :: regions) rest := by
  obtain ⟨rfl, rfl⟩ := hrest
  rw [Reads, read, if_neg (Nat.not_le.mpr hstop)]
  split
  · next h' => rw [hchild] at h'; cases h'
  · exact ⟨by simp only [hbranch], rfl⟩

/-- An unconditional jump of the block becomes a region with its class. -/
theorem Reads.jump (branch : Branch) (hstop : ins.addr < stop) (hchild : block.childAt? ins.addr = none)
    (hbranch : block.branchAt? ins.addr = some branch) (hrest : Reads block stop instrs regions rest) :
    Reads block stop (ins :: instrs) (.jump ins branch.kind :: regions) rest := by
  obtain ⟨rfl, rfl⟩ := hrest
  rw [Reads, read, if_neg (Nat.not_le.mpr hstop)]
  split
  · next h' => rw [hchild] at h'; cases h'
  · exact ⟨by simp only [hbranch], rfl⟩

section Child

variable {kind : JumpKind} {target : Addr} {parts : LoopRegions} {body alternative : List Region}

/-- A loop inside the block. -/
theorem ReadsChild.loop (hkind : child.kind = .loop) (h : ReadsLoop child (ins :: instrs) parts rest) :
    ReadsChild block child ins instrs
      (.loop child.start child.stop parts.body parts.split parts.step parts.back) rest := by
  obtain ⟨rfl, rfl⟩ := h
  rw [ReadsChild, readChild, hkind]
  exact ⟨rfl, rfl⟩

/-- A loop behind its guard. -/
theorem ReadsChild.guarded {inner : Block} (hkind : child.kind = .conditional)
    (hjump : ins.jump? = some (kind, target)) (hloop : child.guardedLoop? instrs = some inner)
    (h : ReadsLoop inner instrs parts rest) :
    ReadsChild block child ins instrs
      (.guarded ins kind inner.stop parts.body parts.split parts.step parts.back) rest := by
  obtain ⟨rfl, rfl⟩ := h
  rw [ReadsChild, readChild, hkind, hjump]
  simp only
  split
  · next inner' h' =>
      obtain rfl : inner = inner' := Option.some.inj (hloop.symm.trans h')
      exact ⟨rfl, rfl⟩
  · next h' => rw [hloop] at h'; cases h'

/-- A choice without an alternative is read to its end. -/
theorem ReadsChild.choice (hkind : child.kind = .conditional) (hjump : ins.jump? = some (kind, target))
    (hloop : child.guardedLoop? instrs = none) (helse : child.alternative? = none)
    (h : Reads child child.bodyStop instrs body rest) :
    ReadsChild block child ins instrs (.choice ins kind child.stop body) rest := by
  obtain ⟨rfl, rfl⟩ := h
  rw [ReadsChild, readChild, hkind, hjump]
  simp only
  split
  · next h' => rw [hloop] at h'; cases h'
  · split
    · exact ⟨rfl, rfl⟩
    · next h' => rw [helse] at h'; cases h'

/-- A choice with an alternative: the jump over it is looked for behind the first part. -/
theorem ReadsChild.choiceElse {branch : Branch} {separator : Instruction}
    (hkind : child.kind = .conditional) (hjump : ins.jump? = some (kind, target))
    (hloop : child.guardedLoop? instrs = none) (helse : child.alternative? = some branch)
    (hseparator : separator.addr = branch.addr)
    (h : Reads child child.bodyStop instrs body (separator :: rest))
    (h' : Reads block (min branch.target block.alternativeStop) rest alternative rest') :
    ReadsChild block child ins instrs
      (.choiceElse ins kind child.stop body branch.addr alternative) rest' := by
  obtain ⟨rfl, hleft⟩ := h
  obtain ⟨rfl, rfl⟩ := h'
  rw [ReadsChild, readChild, hkind, hjump]
  simp only
  split
  · next h' => rw [hloop] at h'; cases h'
  · rw [helse]
    generalize (read child child.bodyStop instrs) = result at hleft
    obtain ⟨body, left, hlength⟩ := result
    obtain rfl : left = separator :: rest := hleft
    simp only [hseparator, if_true]
    exact ⟨trivial, trivial⟩

/-- The jump back of a loop at the front of a stream. -/
theorem back?_eq (haddr : ins.addr = stop) (hjump : ins.jump? = some (kind, target)) :
    back? stop (ins :: instrs) = some (ins, kind) := by
  rw [back?, if_pos haddr, hjump]
  rfl

/-- A loop that is read as a whole. -/
theorem ReadsLoop.whole {back : Instruction} (hsplit : block.splitPoint? = none)
    (haddr : back.addr = block.stop) (hjump : back.jump? = some (kind, target))
    (h : Reads block block.stop instrs body (back :: rest)) :
    ReadsLoop block instrs ⟨body, false, [], some (back, kind)⟩ rest := by
  rw [ReadsLoop, readLoop, hsplit]
  obtain ⟨rfl, hleft⟩ := h
  simp only [Option.getD_none, Option.isSome_none, Bool.false_eq_true, if_false, hleft,
    back?_eq haddr hjump]
  exact ⟨trivial, rfl⟩

/-- A loop that is split at its continue point. -/
theorem ReadsLoop.split {back : Instruction} {point : Addr} {mid : List Instruction} {step : List Region}
    (hsplit : block.splitPoint? = some point) (haddr : back.addr = block.stop)
    (hjump : back.jump? = some (kind, target)) (h : Reads block point instrs body mid)
    (h' : Reads block block.stop mid step (back :: rest)) :
    ReadsLoop block instrs ⟨body, true, step, some (back, kind)⟩ rest := by
  rw [ReadsLoop, readLoop, hsplit]
  obtain ⟨rfl, rfl⟩ := h
  obtain ⟨rfl, hleft⟩ := h'
  simp only [Option.getD_some, Option.isSome_some, if_true, hleft, back?_eq haddr hjump]
  exact ⟨trivial, rfl⟩

end Child

/-! ### Code in front of a stream -/

/-- Code in front of `rest` adds `regions` to what is read. -/
def Passes (block : Block) (stop : Addr) (code : List Instruction) (regions : List Region)
    (rest : List Instruction) : Prop :=
  ∀ regions' rest', Reads block stop rest regions' rest' →
    Reads block stop (code ++ rest) (regions ++ regions') rest'

theorem Passes.nil : Passes block stop [] [] rest :=
  fun _ _ h => h

/-- Code in front of code adds its regions in front. -/
theorem Passes.append {code code' : List Instruction} {regions' : List Region}
    (h : Passes block stop code regions (code' ++ rest)) (h' : Passes block stop code' regions' rest) :
    Passes block stop (code ++ code') (regions ++ regions') rest := by
  intro later left hlater
  rw [List.append_assoc, List.append_assoc]
  exact h _ _ (h' _ _ hlater)

/-- Reading up to an address that the rest of the stream does not begin before. -/
theorem Passes.reads {code : List Instruction} (h : Passes block stop code regions rest)
    (hrest : ∀ ins ∈ rest.head?, stop ≤ ins.addr) : Reads block stop (code ++ rest) regions rest := by
  have hhalt : Reads block stop rest [] rest := by
    cases rest with
    | nil => exact .nil
    | cons ins rest => exact .halt (hrest ins rfl)
  simpa using h [] rest hhalt

end Region

/-- A stream begins at the address of a position, if it does not end there. -/
def Stream.Begins (L : Placement) (pos : Nat) (instrs : List Instruction) : Prop :=
  ∀ ins ∈ instrs.head?, ins.addr = L.addr pos

namespace Piece

open Region TorqueScript.Stream Fragment

variable {L : Placement}

/-- A stream begins where its first instruction is. -/
theorem begins_cons {pos : Nat} {ins : Instruction} {instrs : List Instruction}
    (h : ins.addr = L.addr pos) : Begins L pos (ins :: instrs) := by
  intro ins' hins'
  cases hins'
  exact h

/-- What comes first in a fragment in front of a stream. -/
theorem begins_code {pos : Nat} {exit : Addr} {f : Fragment} {rest : List Instruction}
    (h : Begins L (pos + f.size) rest) : Begins L pos (f.code L exit pos ++ rest) := by
  have haddrs := f.addrs L exit pos
  cases hcode : f.code L exit pos with
  | nil =>
      have hsize : f.size = 0 := by rw [← f.length_code L exit pos, hcode]; rfl
      rwa [hsize] at h
  | cons ins code =>
      rw [hcode] at haddrs
      refine begins_cons ?_
      cases hsize : f.size with
      | zero => rw [hsize] at haddrs; cases haddrs
      | succ size =>
          rw [hsize, List.range'_succ] at haddrs
          exact (List.cons.inj haddrs).1

/-! ### Looking up blocks and jumps -/

/-- From `pos` up to `stop`, a block knows the given blocks and jumps. -/
structure Within (L : Placement) (block : Block) (pos stop : Nat) (children : List Block)
    (branches : List Branch) : Prop where
  child : ∀ i, pos ≤ i → i < stop → block.childAt? (L.addr i) = children.find? (·.start == L.addr i)
  branch : ∀ i, pos ≤ i → i < stop → block.branchAt? (L.addr i) = branches.find? (·.addr == L.addr i)

/-- The first part of the positions, if the other blocks and jumps lie behind it. -/
theorem Within.left {block : Block} {pos mid stop : Nat} {cs ds : List Block} {bs es : List Branch}
    (h : Within L block pos stop (cs ++ ds) (bs ++ es)) (hmid : mid ≤ stop)
    (hds : ∀ d ∈ ds, L.addr mid ≤ d.start) (hes : ∀ e ∈ es, L.addr mid ≤ e.addr) :
    Within L block pos mid cs bs := by
  refine ⟨fun i hpos hi => ?_, fun i hpos hi => ?_⟩
  · have hnone : ds.find? (·.start == L.addr i) = none := by
      refine List.find?_eq_none.mpr fun d hd => ?_
      have : L.addr i < d.start := (L.addr_lt_iff.mpr hi).trans_le (hds d hd)
      simpa using Nat.ne_of_gt this
    rw [h.child i hpos (by omega), List.find?_append, hnone, Option.or_none]
  · have hnone : es.find? (·.addr == L.addr i) = none := by
      refine List.find?_eq_none.mpr fun e he => ?_
      have : L.addr i < e.addr := (L.addr_lt_iff.mpr hi).trans_le (hes e he)
      simpa using Nat.ne_of_gt this
    rw [h.branch i hpos (by omega), List.find?_append, hnone, Option.or_none]

/-- The second part, if the other blocks and jumps lie in front of it. -/
theorem Within.right {block : Block} {pos mid stop : Nat} {cs ds : List Block} {bs es : List Branch}
    (h : Within L block pos stop (cs ++ ds) (bs ++ es)) (hmid : pos ≤ mid)
    (hcs : ∀ c ∈ cs, c.start < L.addr mid) (hbs : ∀ b ∈ bs, b.addr < L.addr mid) :
    Within L block mid stop ds es := by
  refine ⟨fun i hpos hi => ?_, fun i hpos hi => ?_⟩
  · have hnone : cs.find? (·.start == L.addr i) = none := by
      refine List.find?_eq_none.mpr fun c hc => ?_
      have : c.start < L.addr i := (hcs c hc).trans_le (L.addr_le_iff.mpr hpos)
      simpa using Nat.ne_of_lt this
    rw [h.child i (by omega) hi, List.find?_append, hnone, Option.none_or]
  · have hnone : bs.find? (·.addr == L.addr i) = none := by
      refine List.find?_eq_none.mpr fun b hb => ?_
      have : b.addr < L.addr i := (hbs b hb).trans_le (L.addr_le_iff.mpr hpos)
      simpa using Nat.ne_of_lt this
    rw [h.branch i (by omega) hi, List.find?_append, hnone, Option.none_or]

/-- Fewer positions. -/
theorem Within.mono {block : Block} {pos pos' stop stop' : Nat} {cs : List Block} {bs : List Branch}
    (h : Within L block pos stop cs bs) (hpos : pos ≤ pos') (hstop : stop' ≤ stop) :
    Within L block pos' stop' cs bs :=
  ⟨fun i hi hi' => h.child i (by omega) (by omega), fun i hi hi' => h.branch i (by omega) (by omega)⟩

/-- Straight-line code where there are no blocks and jumps. -/
theorem passes_code {pos : Nat} {exit stop : Addr} {f : Fragment} {block : Block}
    {rest : List Instruction} (hstop : ∀ i < pos + f.size, L.addr i < stop)
    (h : Within L block pos (pos + f.size) [] []) :
    Passes block stop (f.code L exit pos) ((f.code L exit pos).map .plain) rest := by
  have haddrs := f.addrs L exit pos
  generalize f.code L exit pos = code at haddrs
  generalize f.size = size at hstop h haddrs
  induction code generalizing pos size with
  | nil => exact .nil
  | cons ins code ih =>
      cases size with
      | zero => simp at haddrs
      | succ size =>
          rw [List.range'_succ, List.map_cons, List.map_cons, List.cons.injEq] at haddrs
          obtain ⟨hins, hcode⟩ := haddrs
          rw [← Nat.add_assoc, Nat.add_right_comm] at hstop h
          intro regions' rest' hrest
          refine Reads.plain ?_ ?_ ?_ (ih size hstop (h.mono (by omega) le_rfl) hcode _ _ hrest)
          · rw [hins]
            exact hstop pos (by omega)
          · rw [hins]
            exact h.child pos le_rfl (by omega)
          · rw [hins]
            exact h.branch pos le_rfl (by omega)

/-! ### Where the blocks of a piece lie -/

mutual

/-- The blocks of a piece lie at its positions, and so do those of pieces that follow each other. -/
theorem spans_trees {settled inLoop : Bool} {exit : Addr} : ∀ (p : Piece) (tail : Bool) (id pos : Nat),
    ∀ b ∈ trees L settled inLoop tail exit id pos p, Spans L pos (pos + p.size) b
  | plain _, _, _, _, _, h | leave, _, _, _, _, h => by simp [trees] at h
  | choice c body, _, id, pos, b, h => by
    rw [trees, List.mem_singleton] at h
    rw [h, size_choice]
    exact ⟨_, _, by omega, by omega, by omega, rfl, rfl⟩
  | choiceElse c body alternative, _, id, pos, b, h => by
    rw [trees, List.mem_cons] at h
    rw [size_choiceElse]
    rcases h with rfl | h
    · exact ⟨_, _, by omega, by omega, by omega, rfl, rfl⟩
    · exact (spans_listTrees alternative _ _ _ b h).mono (by omega) (by omega)
  | loop body c, _, id, pos, b, h => by
    rw [trees, List.mem_singleton] at h
    rw [h, size_loop]
    exact ⟨_, _, le_rfl, by omega, by omega, rfl, rfl⟩

theorem spans_listTrees {settled inLoop : Bool} {exit : Addr} : ∀ (ps : List Piece) (tail : Bool)
    (id pos : Nat), ∀ b ∈ listTrees L settled inLoop tail exit id pos ps, Spans L pos (pos + listSize ps) b
  | [], _, _, _, _, h => by simp [listTrees] at h
  | p :: ps, tail, id, pos, b, h => by
    rw [listTrees, List.mem_append] at h
    rw [listSize_cons]
    rcases h with h | h
    · exact (spans_trees p _ _ _ b h).mono (by omega) (by omega)
    · exact (spans_listTrees ps _ _ _ b h).mono (by omega) (by omega)

end

mutual

/-- An address lies in one of the blocks of a piece exactly if the piece encloses it. -/
theorem any_trees (settled inLoop tail : Bool) (exit : Addr) (id pos r : Nat) : ∀ p : Piece,
    (trees L settled inLoop tail exit id pos p).any
      (fun child => child.start < L.addr r && L.addr r ≤ child.stop) = encloses r pos p
  | plain _ | leave => by simp [trees, encloses]
  | choice _ _ | loop _ _ => by simp [trees, encloses]
  | choiceElse _ _ alternative => by
    simp [trees, encloses, any_listTrees settled inLoop tail exit _ _ r alternative]

/-- A position lies in a block of pieces. -/
theorem any_listTrees (settled inLoop tail : Bool) (exit : Addr) (id pos r : Nat) : ∀ ps : List Piece,
    (listTrees L settled inLoop tail exit id pos ps).any
      (fun child => child.start < L.addr r && L.addr r ≤ child.stop) = listEncloses r pos ps
  | [] => by simp [listTrees, listEncloses]
  | p :: ps => by
    rw [listTrees, List.any_append, any_trees, any_listTrees, listEncloses]

end

/-- Only a loop that is all of `ps` begins and ends with them. -/
theorem loop_of_mem_listTrees {settled inLoop tail : Bool} {exit : Addr} {id pos : Nat} {ps : List Piece}
    {b : Block} (hsound : ∀ p ∈ ps, Sound inLoop p)
    (hb : b ∈ listTrees L settled inLoop tail exit id pos ps) (hkind : b.kind = .loop)
    (hstart : b.start = L.addr pos) (hstop : b.stop = L.addr (pos + listSize ps - 1)) :
    ∃ body c, ps = [loop body c] := by
  cases ps with
  | nil => simp [listTrees] at hb
  | cons p ps =>
      obtain ⟨hp, hps⟩ := List.forall_mem_cons.mp hsound
      have hsize := hp.size_pos
      rw [listTrees, List.mem_append] at hb
      rcases hb with hb | hb
      · -- the first piece is the loop, since all else in it that begins with it is no loop
        cases p with
        | plain | leave => simp [trees] at hb
        | choice c body =>
            rw [trees, List.mem_singleton] at hb
            rw [hb] at hkind
            cases hkind
        | choiceElse c body alternative =>
            rw [trees, List.mem_cons] at hb
            rcases hb with rfl | hb
            · cases hkind
            · have := (spans_listTrees alternative _ _ _ b hb).le_start le_rfl
              rw [hstart, L.addr_le_iff] at this
              omega
        | loop body c =>
            rw [trees, List.mem_singleton] at hb
            rw [hb, L.addr_inj, listSize_cons, size_loop] at hstop
            cases ps with
            | nil => exact ⟨body, c, rfl⟩
            | cons q qs =>
                have := (hps q List.mem_cons_self).size_pos
                rw [listSize_cons] at hstop
                omega
      · have := (spans_listTrees ps _ _ _ b hb).le_start le_rfl
        rw [hstart, L.addr_le_iff] at this
        omega

end Piece

end TorqueScript
