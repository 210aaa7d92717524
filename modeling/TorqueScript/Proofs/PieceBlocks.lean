import TorqueScript.Proofs.PieceScans

/-!
# The blocks that jumps make

The jumps of compiled code make the blocks of its pieces, each where an instruction and the one in front of it
say (`Stream.Neighbours`), and sorted they are in the order in which a scan opens them.

* `Piece.Sound.makesBlocks`: the jumps of a piece make its `Piece.ranges`.
* `Piece.mergeSort_listRanges`: sorted, these are in the order of opening.
* `Piece.nest_listInstrs`: so the blocks of a whole stream are nested as its pieces are.
-/

namespace TorqueScript

/-! ### Neighbours in compiled code -/

namespace Stream

/-- The addresses of the positions up to `last` are those of a stream, in this order. -/
structure Covers (L : Placement) (all : List Instruction) (last : Nat) : Prop where
  found : ∀ i ≤ last, (lastIndex? (L.addr i) all).isSome
  before : ∀ i < last, before? all (L.addr (i + 1)) = some (L.addr i)
  after : ∀ i < last, after? all (L.addr i) = some (L.addr (i + 1))

/-- In code placed in a row, an address that ends a block is looked up to its own position. -/
theorem lastIndex?_of_addrs {L : Placement} {all : List Instruction} {lo size : Nat}
    (h : all.map (·.addr) = (List.range' lo size).map L.addr) (i : Nat) :
    lastIndex? (L.addr i) all = if lo ≤ i ∧ i < lo + size then some (i - lo) else none := by
  induction all generalizing lo size with
  | nil =>
      obtain rfl : 0 = size := by simpa using congrArg List.length h
      rw [lastIndex?, if_neg (by omega)]
  | cons ins all ih =>
      cases size with
      | zero => simp at h
      | succ size =>
          rw [List.range'_succ, List.map_cons, List.map_cons, List.cons.injEq] at h
          rw [lastIndex?, ih h.2, h.1]
          -- one of the later positions, the first one, or none of them
          by_cases hlater : lo + 1 ≤ i ∧ i < lo + 1 + size
          · have hhere : lo ≤ i ∧ i < lo + (size + 1) := by omega
            simp only [if_pos hlater, if_pos hhere, Option.some.injEq]
            omega
          · simp only [if_neg hlater, L.addr_inj]
            by_cases hfirst : lo = i
            · have hhere : lo ≤ i ∧ i < lo + (size + 1) := by omega
              simp only [if_pos hfirst, if_pos hhere, Option.some.injEq]
              omega
            · have hhere : ¬ (lo ≤ i ∧ i < lo + (size + 1)) := by omega
              simp only [if_neg hfirst, if_neg hhere]

/-- Code placed in a row covers its positions. -/
theorem covers_of_addrs {L : Placement} {all : List Instruction} {size : Nat}
    (h : all.map (·.addr) = (List.range' 0 (size + 1)).map L.addr) : Covers L all size := by
  have hindex : ∀ i ≤ size, lastIndex? (L.addr i) all = some i := by
    intro i hi
    rw [lastIndex?_of_addrs h, if_pos (by omega), Nat.sub_zero]
  have haddr : ∀ i ≤ size, (all[i]?).map (·.addr) = some (L.addr i) := by
    intro i hi
    rw [← List.getElem?_map, h, List.getElem?_map, List.getElem?_range' (by omega)]
    simp
  refine ⟨fun i hi => ?_, fun i hi => ?_, fun i hi => ?_⟩
  · rw [hindex i hi, Option.isSome_some]
  · rw [before?, hindex (i + 1) hi]
    exact haddr i hi.le
  · rw [after?, hindex i hi.le]
    exact haddr (i + 1) hi

end Stream

/-! ### The blocks that jumps make -/

namespace Piece

open TorqueScript.Stream Fragment

variable {L : Placement} {all : List Instruction} {last : Nat}

/-- Straight-line code makes no blocks. -/
theorem blocksFrom_straight {room pos : Nat} {exit : Addr} {f : Fragment} (hf : f.Straight room)
    (hall : Covers L all last) (hlast : pos + f.size + room ≤ last + 1) (id : Nat)
    (rest : List Instruction) :
    blocksFrom all id (f.code L exit pos ++ rest) = blocksFrom all id rest := by
  have hcode := hf L exit pos
  generalize f.code L exit pos = code at hcode
  induction code with
  | nil => rfl
  | cons ins code ih =>
      obtain ⟨hins, hcode⟩ := List.forall_mem_cons.mp hcode
      rw [List.cons_append, blocksFrom]
      cases hj : ins.jump? with
      | none => exact ih hcode
      | some j =>
          -- only `&&` and `||` jump here
          obtain ⟨hk, i, hi, ht⟩ := hins j.1 j.2 hj
          have hfound : (lastIndex? j.2 all).isNone = false := by
            rw [ht, Option.isNone_eq_false_iff]
            exact hall.found i (by omega)
          have hblock : blockOfJump? all id ins.addr j.1 j.2 = none := by
            have : j.1.makesBlock = false := by
              cases hkind : j.1 <;> rw [hkind] at hk <;> first | rfl | cases hk
            rw [blockOfJump?, this]
            rfl
          simp only [hfound, hblock]
          exact ih hcode

/-- The jumps of the piece make its blocks. -/
def MakesBlocks (L : Placement) (all : List Instruction) (last : Nat) (inLoop : Bool) (p : Piece) : Prop :=
  ∀ (id pos : Nat) (exit : Addr) (rest : List Instruction), pos + p.size ≤ last →
    (inLoop → (lastIndex? exit all).isSome) →
    blocksFrom all id (instrs L exit pos p ++ rest) =
      (blocksFrom all (id + p.count) rest).map (ranges L true id pos p ++ ·)

/-- Pieces that make their blocks one by one make them one after the other. -/
theorem listMakesBlocks {inLoop : Bool} {ps : List Piece} (h : ∀ p ∈ ps, MakesBlocks L all last inLoop p)
    (id pos : Nat) (exit : Addr) (rest : List Instruction) (hlast : pos + listSize ps ≤ last)
    (hexit : inLoop → (lastIndex? exit all).isSome) :
    blocksFrom all id (listInstrs L exit pos ps ++ rest) =
      (blocksFrom all (id + listCount ps) rest).map (listRanges L true id pos ps ++ ·) := by
  induction ps generalizing id pos with
  | nil =>
      rw [listInstrs_nil, listCount]
      simp only [listRanges, List.nil_append, Nat.add_zero]
      cases blocksFrom all id rest <;> rfl
  | cons p ps ih =>
      obtain ⟨hp, hps⟩ := List.forall_mem_cons.mp h
      rw [listSize_cons] at hlast
      rw [listInstrs_cons, List.append_assoc, hp id pos exit _ (by omega) hexit,
        ih hps _ _ (by omega), listCount, ← Nat.add_assoc]
      simp only [listRanges, List.append_assoc]
      cases blocksFrom all (id + p.count + listCount ps) rest <;> rfl

/-- A jump ahead makes a block up to the instruction before its target. -/
theorem blocksFrom_ahead (hall : Covers L all last) {pos stop : Nat} (hpos : pos ≤ stop)
    (hstop : stop < last) (id : Nat) (rest : List Instruction) :
    blocksFrom all id (L.instr pos (.jump .ifNot (L.addr (stop + 1))) :: rest) =
      (blocksFrom all (id + 1) rest).map (.fresh id .conditional (L.addr pos) (L.addr stop) :: ·) := by
  have hfound := hall.found (stop + 1) hstop
  have hahead : ¬ L.addr (stop + 1) ≤ L.addr pos := by
    rw [L.addr_le_iff]
    omega
  have hblock : blockOfJump? all id (L.addr pos) .ifNot (L.addr (stop + 1)) =
      some (.fresh id .conditional (L.addr pos) (L.addr stop)) := by
    rw [blockOfJump?, if_neg (by decide), if_neg hahead, hall.before stop hstop, Option.getD_some]
  rw [blocksFrom]
  simp only [Instruction.jump?, Placement.operation_instr, Placement.addr_instr, hblock,
    Option.isNone_eq_false_iff.mpr hfound]
  cases blocksFrom all (id + 1) rest <;> rfl

/-- A jump back makes a block up to itself. -/
theorem blocksFrom_back (hall : Covers L all last) {pos stop : Nat} (hpos : pos ≤ stop)
    (hstop : stop < last) (id : Nat) (rest : List Instruction) :
    blocksFrom all id (L.instr stop (.jump .ifTrue (L.addr pos)) :: rest) =
      (blocksFrom all (id + 1) rest).map (.fresh id .loop (L.addr pos) (L.addr stop) :: ·) := by
  have hfound := hall.found pos (by omega)
  have hblock : blockOfJump? all id (L.addr stop) .ifTrue (L.addr pos) =
      some (.fresh id .loop (L.addr pos) (L.addr stop)) := by
    rw [blockOfJump?, if_neg (by decide), if_pos (L.addr_le_iff.mpr hpos)]
  rw [blocksFrom]
  simp only [Instruction.jump?, Placement.operation_instr, Placement.addr_instr, hblock,
    Option.isNone_eq_false_iff.mpr hfound]
  cases blocksFrom all (id + 1) rest <;> rfl

/-- An unconditional jump makes no block. -/
theorem blocksFrom_always {pos : Nat} {target : Addr} (h : (lastIndex? target all).isSome) (id : Nat)
    (rest : List Instruction) :
    blocksFrom all id (L.instr pos (.jump .always target) :: rest) = blocksFrom all id rest := by
  rw [blocksFrom]
  simp only [Instruction.jump?, Placement.operation_instr, Option.isNone_eq_false_iff.mpr h]
  rfl

/-- The jumps of a test make one block each. -/
theorem blocksFrom_test {c : Node} (hc : c.Normal) (hall : Covers L all last) {exit : Addr} {pos : Nat}
    (hlast : pos + testSize c ≤ last) (id : Nat) (rest : List Instruction) :
    blocksFrom all id (testInstrs L exit pos c ++ rest) = blocksFrom all id rest :=
  blocksFrom_straight (hc.straight .read) hall (Nat.succ_le_succ hlast) id rest

/-- **The blocks of a piece** are made by its jumps. -/
theorem Sound.makesBlocks {inLoop : Bool} {p : Piece} (h : Sound inLoop p) (hall : Covers L all last) :
    MakesBlocks L all last inLoop p := by
  induction h with
  | plain hn =>
      intro id pos exit rest hlast hexit
      rw [size, code] at hlast
      rw [instrs, code, blocksFrom_straight hn.straight hall (by omega), count]
      simp only [ranges, List.nil_append]
      cases blocksFrom all id rest <;> rfl
  | leave =>
      intro id pos exit rest hlast hexit
      rw [instrs_leave, List.singleton_append, blocksFrom_always (hexit rfl), count]
      simp only [ranges, List.nil_append]
      cases blocksFrom all id rest <;> rfl
  | @choice inLoop c body hc _ ih =>
      intro id pos exit rest hlast hexit
      rw [size_choice] at hlast
      rw [instrs_choice, List.append_assoc, blocksFrom_test hc hall (by omega), List.cons_append,
        Nat.add_right_comm, blocksFrom_ahead hall (by omega) (by omega),
        listMakesBlocks ih _ _ _ _ (by omega) hexit, count]
      simp only [ranges, List.cons_append, ← Nat.add_assoc]
      cases blocksFrom all (id + 1 + listCount body) rest <;> rfl
  | @choiceElse inLoop c body alternative hc _ _ _ ih ih' =>
      intro id pos exit rest hlast hexit
      rw [size_choiceElse] at hlast
      simp only [instrs_choiceElse, List.append_assoc, List.cons_append]
      rw [blocksFrom_test hc hall (by omega), blocksFrom_ahead hall (by omega) (by omega),
        listMakesBlocks ih _ _ _ _ (by omega) hexit, blocksFrom_always (hall.found _ (by omega)),
        listMakesBlocks ih' _ _ _ _ (by omega) hexit, count]
      simp only [ranges, List.cons_append, List.append_assoc, ← Nat.add_assoc]
      cases blocksFrom all (id + 1 + listCount body + listCount alternative) rest <;> rfl
  | @loop inLoop c body hc _ ih =>
      intro id pos exit rest hlast hexit
      rw [size_loop] at hlast
      simp only [instrs_loop, List.append_assoc, List.singleton_append]
      rw [listMakesBlocks ih _ _ _ _ (by omega) (fun _ => hall.found _ (by omega)),
        blocksFrom_test hc hall (by omega), blocksFrom_back hall (by omega) (by omega), count,
        ← Nat.add_assoc]
      simp only [ranges, if_true, List.append_assoc, List.singleton_append]
      cases blocksFrom all (id + listCount body + 1) rest <;> rfl

/-! ### The order of opening -/

/-- A block is opened before another one. -/
def Precedes (a b : Block) : Prop :=
  a.start < b.start ∨ a.start = b.start ∧ b.stop < a.stop

mutual

/-- The order of the jumps and the order of opening list the same blocks. -/
theorem ranges_perm : ∀ (p : Piece) (id pos : Nat), (ranges L true id pos p).Perm (ranges L false id pos p)
  | plain _, _, _ | leave, _, _ => by simp [ranges]
  | choice _ body, _, _ => by
    simp only [ranges]
    exact (listRanges_perm body _ _).cons _
  | choiceElse _ body alternative, _, _ => by
    simp only [ranges]
    exact ((listRanges_perm body _ _).append (listRanges_perm alternative _ _)).cons _
  | loop body _, _, _ => by
    simp only [ranges, if_true, Bool.false_eq_true, if_false]
    exact (List.perm_append_singleton _ _).trans ((listRanges_perm body _ _).cons _)

/-- Blocks are made in another order than that of opening, but they are the same. -/
theorem listRanges_perm : ∀ (ps : List Piece) (id pos : Nat),
    (listRanges L true id pos ps).Perm (listRanges L false id pos ps)
  | [], _, _ => by simp [listRanges]
  | p :: ps, _, _ => by
    simp only [listRanges]
    exact (ranges_perm p _ _).append (listRanges_perm ps _ _)

end

/-- Blocks that lie behind another one's first instruction are opened after it. -/
theorem Spans.precedes {lo hi i : Nat} {a b : Block} (h : Spans L lo hi b) (ha : a.start = L.addr i)
    (hi : i < lo) : Precedes a b := by
  refine .inl ?_
  rw [ha]
  exact (L.addr_lt_iff.mpr hi).trans_le (h.le_start le_rfl)

mutual

/-- **The blocks of a piece are listed in the order they open.** -/
theorem pairwise_ranges : ∀ (p : Piece) (id pos : Nat), (ranges L false id pos p).Pairwise Precedes
  | plain _, _, _ | leave, _, _ => by simp [ranges]
  | choice c body, id, pos => by
    rw [ranges, List.pairwise_cons]
    exact ⟨fun b hb => (spans_listRanges false body _ _ b hb).precedes rfl (by omega),
      pairwise_listRanges body _ _⟩
  | choiceElse c body alternative, id, pos => by
    rw [ranges, List.pairwise_cons, List.pairwise_append]
    refine ⟨fun b hb => ?_, pairwise_listRanges body _ _, pairwise_listRanges alternative _ _,
      fun a ha b hb => ?_⟩
    · rcases List.mem_append.mp hb with hb | hb
      · exact (spans_listRanges false body _ _ b hb).precedes rfl (by omega)
      · exact (spans_listRanges false alternative _ _ b hb).precedes rfl (by omega)
    · obtain ⟨i, j, -, hij, hj, e, -⟩ := spans_listRanges false body _ _ a ha
      exact (spans_listRanges false alternative _ _ b hb).precedes e (by omega)
  | loop body c, id, pos => by
    rw [ranges, if_neg Bool.false_ne_true, List.pairwise_cons]
    refine ⟨fun b hb => ?_, pairwise_listRanges body _ _⟩
    -- a block at the loop's first instruction ends before the loop does
    obtain ⟨i, j, hi, hij, hj, hstart, hstop⟩ := spans_listRanges false body _ _ b hb
    rcases Nat.eq_or_lt_of_le hi with rfl | hi
    · exact .inr ⟨hstart.symm, hstop ▸ L.addr_lt_iff.mpr (by omega)⟩
    · exact .inl (hstart ▸ L.addr_lt_iff.mpr hi)

/-- So are the blocks of several pieces. -/
theorem pairwise_listRanges : ∀ (ps : List Piece) (id pos : Nat),
    (listRanges L false id pos ps).Pairwise Precedes
  | [], _, _ => by simp [listRanges]
  | p :: ps, id, pos => by
    rw [listRanges, List.pairwise_append]
    refine ⟨pairwise_ranges p _ _, pairwise_listRanges ps _ _, fun a ha b hb => ?_⟩
    obtain ⟨i, j, -, hij, hj, e, -⟩ := spans_ranges false p _ _ a ha
    exact (spans_listRanges false ps _ _ b hb).precedes e (by omega)

end

/-- Of two blocks the earlier one opens first, and of two that start together the longer one. -/
theorem opensFirst_iff {a b : Block} : Nesting.opensFirst a b = true ↔
    a.start < b.start ∨ a.start = b.start ∧ b.stop ≤ a.stop := by
  simp [Nesting.opensFirst]

theorem opensFirst_trans (a b c : Block) (hab : Nesting.opensFirst a b) (hbc : Nesting.opensFirst b c) :
    Nesting.opensFirst a c := by
  rw [opensFirst_iff] at *
  dsimp only [Addr] at *
  omega

theorem opensFirst_total (a b : Block) : Nesting.opensFirst a b || Nesting.opensFirst b a := by
  rw [Bool.or_eq_true, opensFirst_iff, opensFirst_iff]
  dsimp only [Addr]
  omega

/-- Sorting puts the blocks of pieces into the order of opening. -/
theorem mergeSort_listRanges (id pos : Nat) (ps : List Piece) :
    (listRanges L true id pos ps).mergeSort Nesting.opensFirst = listRanges L false id pos ps := by
  have hperm := (List.mergeSort_perm (listRanges L true id pos ps) Nesting.opensFirst).trans
    (listRanges_perm ps id pos)
  have hstrict := pairwise_listRanges (L := L) ps id pos
  have hsorted := List.pairwise_mergeSort
    opensFirst_trans opensFirst_total (listRanges L true id pos ps)
  refine hperm.eq_of_pairwise (fun a b ha hb hab hba => ?_) hsorted
    (hstrict.imp fun h => opensFirst_iff.mpr (h.imp_right fun h => ⟨h.1, h.2.le⟩))
  -- two different blocks are never opened both before each other
  by_contra hne
  let Apart (a b : Block) : Prop := Precedes a b ∨ Precedes b a
  have : Std.Symm Apart := ⟨fun _ _ h => h.symm⟩
  have hone : Apart a b := (hstrict.imp .inl).forall (hperm.mem_iff.mp ha) hb hne
  rw [opensFirst_iff] at hab hba
  simp only [Apart, Precedes] at hone
  dsimp only [Addr] at *
  omega

/-! ### Whole streams -/

section Whole

variable {init : List Piece} {n : Node}

/-- There is a last instruction. -/
theorem exists_listSize_eq (init : List Piece) (hn : n.Simple) :
    ∃ size, listSize (init ++ [plain n]) = size + 1 := by
  refine Nat.exists_eq_succ_of_ne_zero ?_
  have : 0 < n.simpleCode.size := hn.size_pos
  simp only [listSize_append, listSize_cons, size, code]
  omega

/-- A program starts at the first address of its placement. -/
theorem first_listInstrs (hn : n.Simple) :
    first (listInstrs L 0 0 (init ++ [plain n])) = L.addr 0 := by
  have haddrs := addrs_listInstrs L 0 0 (init ++ [plain n])
  obtain ⟨size, hsize⟩ := exists_listSize_eq init hn
  rw [first, ← List.head?_map, haddrs, hsize, List.range'_succ]
  rfl

/-- It ends at the last. -/
theorem last_listInstrs (hn : n.Simple) :
    Stream.last (listInstrs L 0 0 (init ++ [plain n])) = L.addr (listSize (init ++ [plain n]) - 1) := by
  have haddrs := addrs_listInstrs L 0 0 (init ++ [plain n])
  obtain ⟨size, hsize⟩ := exists_listSize_eq init hn
  rw [Stream.last, ← List.getLast?_map, haddrs, hsize, List.range'_1_concat]
  simp

/-- The position of the last instruction. -/
theorem covers_listInstrs (init : List Piece) (hn : n.Simple) :
    Covers L (listInstrs L 0 0 (init ++ [plain n])) (listSize init + n.simpleCode.size - 1) := by
  have hsize := hn.size_pos
  refine covers_of_addrs ?_
  rw [addrs_listInstrs, Nat.sub_add_cancel (by omega)]
  simp [size, code]

/-- Its root spans all of it. -/
theorem root_listInstrs (hn : n.Simple) : root (listInstrs L 0 0 (init ++ [plain n])) =
    .fresh 0 .root (L.addr 0) (L.addr (listSize init + n.simpleCode.size - 1)) := by
  rw [root, first_listInstrs hn, last_listInstrs hn]
  simp [size, code]

/-- **Nesting.**  The block tree of a compiled stream has the blocks of its pieces as children. -/
theorem nest_listInstrs (hinit : ∀ p ∈ init, Sound false p) (hn : n.Simple) :
    nest (listInstrs L 0 0 (init ++ [plain n])) =
      .ok ((root (listInstrs L 0 0 (init ++ [plain n]))).grow (listTrees L false false false 0 1 0 init)
        (listJumps L false 0 0 init)) := by
  have hsize : 0 < n.simpleCode.size := hn.size_pos
  have hall := covers_listInstrs (L := L) init hn
  have hcode : listInstrs L 0 0 (init ++ [plain n]) =
      listInstrs L 0 0 init ++ n.simpleCode.code L 0 (listSize init) := by
    rw [listInstrs_append, listInstrs_singleton, instrs, code, Nat.zero_add]
  have hblocks : blocks (listInstrs L 0 0 (init ++ [plain n])) = .ok (listRanges L true 1 0 init) := by
    rw [blocks]
    nth_rewrite 2 [hcode]
    rw [listMakesBlocks (fun p hp => (hinit p hp).makesBlocks hall) 1 0 0 _ (by omega)
        (absurd · Bool.false_ne_true),
      ← List.append_nil (n.simpleCode.code _ _ _), blocksFrom_straight hn.straight hall (by omega)]
    simp [blocksFrom, Except.map, pure, Except.pure]
  obtain ⟨m, hscan, hm⟩ := listScans (fun p hp => (hinit p hp).scansWell) false 0 1 0
    (root (listInstrs L 0 0 (init ++ [plain n]))) [] []
    (by rw [root_listInstrs hn]; exact room_fresh (List.forall_mem_nil _) (by omega)) _ rfl
  rw [Nat.zero_add] at hm
  have hrest : m.scan (n.simpleCode.code L 0 (listSize init)) = .ok ⟨_, [], []⟩ :=
    Nesting.scan_straight_of_enter hn.straight hsize
      (by intro i hi; rw [root_listInstrs hn]; exact L.addr_le_iff.mpr (by omega)) (List.forall_mem_nil _) hm
  have hstart : Nesting.start (root (listInstrs L 0 0 (init ++ [plain n]))) (listRanges L true 1 0 init) =
      ⟨root (listInstrs L 0 0 (init ++ [plain n])), [], listRanges L false 1 0 init ++ []⟩ := by
    rw [Nesting.start, mergeSort_listRanges, List.append_nil]
  -- behind the pieces only the root is open, and the last statement opens nothing
  have hwhole := (Nesting.scan_append hscan).trans hrest
  rw [← hcode, ← hstart] at hwhole
  rw [nest, hblocks]
  show (Nesting.scan _ _ >>= _) = _
  rw [hwhole]
  rfl

end Whole

end Piece

end TorqueScript
