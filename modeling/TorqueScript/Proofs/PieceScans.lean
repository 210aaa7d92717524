import TorqueScript.Proofs.Nesting

/-!
# Scans over pieces

A scan over the code of a piece opens and closes its blocks and puts `Piece.trees` and `Piece.jumps` into the
block around it (`Piece.Sound.scansWell`).  It does so wherever the piece lies, as long as the blocks that are
open around it leave room (`Piece.Room`), and up to the address behind it.
-/

namespace TorqueScript

namespace Piece

open Nesting Fragment

variable {L : Placement}

/-! ### Where blocks and jumps lie -/

/-- A block lies at the positions from `lo` up to `hi`. -/
def Spans (L : Placement) (lo hi : Nat) (b : Block) : Prop :=
  ∃ i j, lo ≤ i ∧ i ≤ j ∧ j < hi ∧ b.start = L.addr i ∧ b.stop = L.addr j

/-- What lies within a range lies within a wider one. -/
theorem Spans.mono {lo lo' hi hi' : Nat} {b : Block} (h : Spans L lo hi b) (hlo : lo' ≤ lo)
    (hhi : hi ≤ hi') : Spans L lo' hi' b := by
  obtain ⟨i, j, h₁, h₂, h₃, e⟩ := h
  exact ⟨i, j, by omega, h₂, by omega, e⟩

/-- A block starts no earlier than its range. -/
theorem Spans.le_start {lo hi k : Nat} {b : Block} (h : Spans L lo hi b) (hk : k ≤ lo) :
    L.addr k ≤ b.start := by
  obtain ⟨i, j, h₁, h₂, h₃, e, -⟩ := h
  rw [e, L.addr_le_iff]
  omega

mutual

/-- **The blocks of a piece lie within its code.** -/
theorem spans_ranges (byJump : Bool) : ∀ (p : Piece) (id pos : Nat), ∀ b ∈ ranges L byJump id pos p,
    Spans L pos (pos + p.size) b
  | plain _, _, _, _, h => by simp [ranges] at h
  | leave, _, _, _, h => by simp [ranges] at h
  | choice c body, id, pos, b, h => by
    rw [ranges, List.mem_cons] at h
    rw [size_choice]
    rcases h with rfl | h
    · exact ⟨_, _, by omega, by omega, by omega, rfl, rfl⟩
    · exact (spans_listRanges byJump body _ _ b h).mono (by omega) (by omega)
  | choiceElse c body alternative, id, pos, b, h => by
    rw [ranges, List.mem_cons, List.mem_append] at h
    rw [size_choiceElse]
    rcases h with rfl | h | h
    · exact ⟨_, _, by omega, by omega, by omega, rfl, rfl⟩
    · exact (spans_listRanges byJump body _ _ b h).mono (by omega) (by omega)
    · exact (spans_listRanges byJump alternative _ _ b h).mono (by omega) (by omega)
  | loop body c, id, pos, b, h => by
    -- the loop's own block is made last and opened first
    have h' : b ∈ listRanges L byJump id pos body ∨ b = .fresh (id + listCount body) .loop
        (L.addr pos) (L.addr (pos + listSize body + testSize c)) := by
      rw [ranges] at h
      cases byJump
      · simpa [or_comm] using h
      · simpa using h
    rw [size_loop]
    rcases h' with h | rfl
    · exact (spans_listRanges byJump body _ _ b h).mono (by omega) (by omega)
    · exact ⟨_, _, by omega, by omega, by omega, rfl, rfl⟩

/-- The blocks of pieces lie at their positions. -/
theorem spans_listRanges (byJump : Bool) : ∀ (ps : List Piece) (id pos : Nat),
    ∀ b ∈ listRanges L byJump id pos ps, Spans L pos (pos + listSize ps) b
  | [], _, _, _, h => by simp [listRanges] at h
  | p :: ps, id, pos, b, h => by
    rw [listRanges, List.mem_append] at h
    rw [listSize_cons]
    rcases h with h | h
    · exact (spans_ranges byJump p _ _ b h).mono (by omega) (by omega)
    · exact (spans_listRanges byJump ps _ _ b h).mono (by omega) (by omega)

end

mutual

/-- The jumps out of a piece lie within its code and lead to the exit. -/
theorem addr_of_mem_jumps (inLoop : Bool) (exit : Addr) : ∀ (p : Piece) (pos : Nat),
    ∀ b ∈ jumps L inLoop exit pos p, b.target = exit ∧ ∃ i, pos ≤ i ∧ i < pos + p.size ∧ b.addr = L.addr i
  | plain _, _, _, h => by simp [jumps] at h
  | choice _ _, _, _, h => by simp [jumps] at h
  | loop _ _, _, _, h => by simp [jumps] at h
  | leave, pos, b, h => by
    rw [jumps, List.mem_singleton] at h
    subst h
    exact ⟨rfl, pos, le_rfl, by simp, rfl⟩
  | choiceElse c body alternative, pos, b, h => by
    rw [jumps] at h
    obtain ⟨ht, i, h₁, h₂, e⟩ := addr_of_mem_listJumps inLoop exit alternative _ b h
    rw [size_choiceElse]
    exact ⟨ht, i, by omega, by omega, e⟩

/-- The jumps of pieces lie at their positions and lead out of the loop. -/
theorem addr_of_mem_listJumps (inLoop : Bool) (exit : Addr) : ∀ (ps : List Piece) (pos : Nat),
    ∀ b ∈ listJumps L inLoop exit pos ps,
      b.target = exit ∧ ∃ i, pos ≤ i ∧ i < pos + listSize ps ∧ b.addr = L.addr i
  | [], _, _, h => by simp [listJumps] at h
  | p :: ps, pos, b, h => by
    rw [listJumps, List.mem_append] at h
    rw [listSize_cons]
    rcases h with h | h
    · obtain ⟨ht, i, h₁, h₂, e⟩ := addr_of_mem_jumps inLoop exit p _ b h
      exact ⟨ht, i, by omega, by omega, e⟩
    · obtain ⟨ht, i, h₁, h₂, e⟩ := addr_of_mem_listJumps inLoop exit ps _ b h
      exact ⟨ht, i, by omega, by omega, e⟩

end

/-! ### The scan over a piece -/

/-- A block has room for what lies from `pos` up to `stop`, and the blocks that follow lie behind. -/
structure Room (L : Placement) (top : Block) (rest : List Block) (pos stop : Nat) : Prop where
  inside : ∀ i < stop, L.addr i ≤ top.stop
  owned : ∀ b ∈ top.branches, b.addr < L.addr pos
  behind : ∀ b ∈ rest, L.addr stop ≤ b.start

/-- Room for pieces in front of others. -/
theorem Room.left {top : Block} {rest : List Block} {byJump : Bool} {id pos mid stop : Nat}
    {ps : List Piece} (h : Room L top rest pos stop) (hmid : mid ≤ stop) :
    Room L top (listRanges L byJump id mid ps ++ rest) pos mid := by
  refine ⟨fun i hi => h.inside i (by omega), h.owned, fun b hb => ?_⟩
  rcases List.mem_append.mp hb with hb | hb
  · exact (spans_listRanges byJump ps id mid b hb).le_start le_rfl
  · exact (L.addr_le_iff.mpr hmid).trans (h.behind b hb)

/-- Room for what follows when a block has grown. -/
theorem Room.right {top : Block} {rest : List Block} {pos mid stop : Nat} {cs : List Block}
    {bs : List Branch} (h : Room L top rest pos stop) (hmid : pos ≤ mid)
    (hbs : ∀ b ∈ bs, b.addr < L.addr mid) : Room L (top.grow cs bs) rest mid stop := by
  refine ⟨h.inside, fun b hb => ?_, h.behind⟩
  rcases List.mem_append.mp hb with hb | hb
  · exact (h.owned b hb).trans_le (L.addr_le_iff.mpr hmid)
  · exact hbs b hb

/-- A scan over the piece puts its blocks and jumps into the block around it. -/
def ScansWell (L : Placement) (p : Piece) : Prop :=
  ∀ (tail : Bool) (exit : Addr) (id pos : Nat) (top : Block) (outer rest : List Block),
    Room L top rest pos (pos + p.size) →
    Scans (L.addr pos) (instrs L exit pos p) ⟨top, outer, ranges L false id pos p ++ rest⟩
      ⟨top.grow (trees L false false tail exit id pos p) (jumps L false exit pos p), outer, rest⟩
      (L.addr (pos + p.size))

/-- Pieces that scan well one by one scan well one after the other. -/
theorem listScans {ps : List Piece} (h : ∀ p ∈ ps, ScansWell L p) (tail : Bool) (exit : Addr)
    (id pos : Nat) (top : Block) (outer rest : List Block) (hroom : Room L top rest pos (pos + listSize ps)) :
    Scans (L.addr pos) (listInstrs L exit pos ps) ⟨top, outer, listRanges L false id pos ps ++ rest⟩
      ⟨top.grow (listTrees L false false tail exit id pos ps) (listJumps L false exit pos ps), outer, rest⟩
      (L.addr (pos + listSize ps)) := by
  induction ps generalizing id pos top with
  | nil => simpa [listInstrs_nil, listRanges, listTrees, listJumps] using Scans.nil rfl
  | cons p ps ih =>
      obtain ⟨hp, hps⟩ := List.forall_mem_cons.mp h
      rw [listSize_cons, ← Nat.add_assoc] at hroom ⊢
      have hfirst := hp (tail && ps.isEmpty) exit id pos top outer
        (listRanges L false (id + p.count) (pos + p.size) ps ++ rest) (hroom.left (by omega))
      have hgrown : Room L (top.grow (trees L false false (tail && ps.isEmpty) exit id pos p)
          (jumps L false exit pos p)) rest (pos + p.size) (pos + p.size + listSize ps) := by
        refine hroom.right (by omega) fun b hb => ?_
        obtain ⟨-, i, -, hi, e⟩ := addr_of_mem_jumps false exit p pos b hb
        rw [e, L.addr_lt_iff]
        exact hi
      have hrest := ih hps (id + p.count) (pos + p.size) _ hgrown
      rw [Block.grow_grow] at hrest
      rw [listInstrs_cons, listRanges, listTrees, listJumps, List.append_assoc]
      exact hfirst.append hrest

/-- A plain statement has no blocks. -/
theorem scansWell_plain {n : Node} (hn : n.Simple) : ScansWell L (plain n) := by
  intro tail exit id pos top outer rest hroom
  simp only [instrs, ranges, trees, jumps, size, code] at hroom ⊢
  rw [Block.grow_nil]
  exact .straight hn.straight hroom.inside hroom.behind

/-- A jump out of the loop is recorded in the block around it. -/
theorem scansWell_leave : ScansWell L leave := by
  intro tail exit id pos top outer rest hroom
  rw [size_leave] at hroom ⊢
  have hbehind : ∀ b ∈ rest, L.addr pos < b.start := fun b hb =>
    (L.addr_lt_iff.mpr (Nat.lt_succ_self pos)).trans_le (hroom.behind b hb)
  let branch : Branch := ⟨L.addr pos, exit, .alternative⟩
  have hown : top.own branch = top.grow [] [branch] := Block.own_eq_grow hroom.owned
  have hsingle : Scans (L.addr pos) [L.instr pos (.jump .always exit)] ⟨top, outer, rest⟩
      ⟨top.own branch, outer, rest⟩ (L.addr (pos + 1)) :=
    .single rfl (hroom.inside pos (Nat.lt_succ_self pos)) hbehind
  rw [hown] at hsingle
  rw [instrs_leave, ranges, trees, jumps]
  exact hsingle

/-- A block that is freshly opened has room up to its stop. -/
theorem room_fresh {id start lo hi stop : Nat} {kind : BlockKind} {rest : List Block}
    (h : ∀ b ∈ rest, L.addr hi ≤ b.start) (hstop : hi ≤ stop + 1) :
    Room L (.fresh id kind (L.addr start) (L.addr stop)) rest lo hi :=
  ⟨fun _ _ => L.addr_le_iff.mpr (by omega), fun _ hb => absurd hb List.not_mem_nil, h⟩

/-- A condition and the jump that begins the block behind it. -/
theorem scans_test {c : Node} (exit target : Addr) {pos : Nat} (id : Nat) {stop : Nat} {top : Block}
    (outer : List Block) {pending : List Block} (hc : c.Normal) (hstop : pos + testSize c ≤ stop)
    (hinside : ∀ i ≤ stop, L.addr i ≤ top.stop)
    (hpending : ∀ b ∈ pending, L.addr (pos + testSize c + 1) ≤ b.start) :
    Scans (L.addr pos) (testInstrs L exit pos c ++ [L.instr (pos + testSize c) (.jump .ifNot target)])
      ⟨top, outer, .fresh id .conditional (L.addr (pos + testSize c)) (L.addr stop) :: pending⟩
      ⟨.fresh id .conditional (L.addr (pos + testSize c)) (L.addr stop), top :: outer, pending⟩
      (L.addr (pos + testSize c + 1)) := by
  have hbehind : ∀ b ∈ pending, L.addr (pos + testSize c) < b.start := fun b hb =>
    (L.addr_lt_iff.mpr (Nat.lt_succ_self _)).trans_le (hpending b hb)
  have htest : ∀ i < pos + testSize c, L.addr i ≤ top.stop := fun i hi => hinside i (by omega)
  refine (Scans.straight (hc.straight .read) htest ?_).append
    (.of_enter (enter_open rfl (L.addr_le_iff.mpr hstop) (hinside stop le_rfl)) ?_)
  · exact List.forall_mem_cons.mpr ⟨le_rfl, fun b hb => (hbehind b hb).le⟩
  · exact .single rfl (L.addr_le_iff.mpr hstop) hbehind

/-- A conditional opens its block, scans its body and closes again. -/
theorem scansWell_choice {c : Node} {body : List Piece} (hc : c.Normal)
    (hbody : ∀ p ∈ body, ScansWell L p) : ScansWell L (choice c body) := by
  intro tail exit id pos top outer rest hroom
  rw [size_choice, ← Nat.add_assoc, ← Nat.add_assoc] at hroom ⊢
  have hpending : ∀ b ∈ listRanges L false (id + 1) (pos + testSize c + 1) body ++ rest,
      L.addr (pos + testSize c + 1) ≤ b.start := (hroom.left (by omega)).behind
  have htest := scans_test exit (L.addr (pos + testSize c + 1 + listSize body)) id outer hc
    (Nat.le_add_right _ (listSize body)) (fun i hi => hroom.inside i (by omega)) hpending
  have hinner := listScans hbody true exit (id + 1) (pos + testSize c + 1)
    (.fresh id .conditional (L.addr (pos + testSize c)) (L.addr (pos + testSize c + listSize body)))
    (top :: outer) rest (room_fresh hroom.behind (by omega))
  have hclosed := hinner.to_enter (enter_close (L.addr_lt_iff.mpr (by omega)))
  rw [Block.adopt_eq_grow] at hclosed
  rw [instrs_choice, ranges, trees, jumps, List.append_cons]
  exact htest.append hclosed

/-- With an alternative it opens two blocks, one behind the other. -/
theorem scansWell_choiceElse {c : Node} {body alternative : List Piece} (hc : c.Normal)
    (hbody : ∀ p ∈ body, ScansWell L p) (halternative : ∀ p ∈ alternative, ScansWell L p) :
    ScansWell L (choiceElse c body alternative) := by
  intro tail exit id pos top outer rest hroom
  rw [size_choiceElse] at hroom ⊢
  simp only [← Nat.add_assoc] at hroom ⊢
  rw [instrs_choiceElse, ranges, trees, jumps]
  generalize hover : pos + testSize c + 1 + listSize body = gap at hroom ⊢
  -- the block ends with the jump over the alternative, whose blocks belong to the block around it
  let block := Block.fresh id .conditional (L.addr (pos + testSize c)) (L.addr gap)
  let later := listRanges L false (id + 1 + listCount body) (gap + 1) alternative ++ rest
  have hlater : ∀ b ∈ later, L.addr (gap + 1) ≤ b.start := (hroom.left (by omega)).behind
  have hbehind : ∀ b ∈ later, L.addr gap < b.start := fun b hb =>
    (L.addr_lt_iff.mpr (Nat.lt_succ_self gap)).trans_le (hlater b hb)
  have hroom' : Room L block later (pos + testSize c + 1) gap :=
    room_fresh (fun b hb => (hbehind b hb).le) (Nat.le_succ gap)
  have hpending : ∀ b ∈ listRanges L false (id + 1) (pos + testSize c + 1) body ++ later,
      L.addr (pos + testSize c + 1) ≤ b.start := (hroom'.left (by omega)).behind
  have htest := scans_test exit (L.addr (gap + 1)) id outer hc (show pos + testSize c ≤ gap by omega)
    (fun i hi => hroom.inside i (by omega)) hpending
  have hinner := listScans hbody false exit (id + 1) (pos + testSize c + 1) block (top :: outer) later
    (by rw [hover]; exact hroom')
  rw [hover] at hinner
  let grown := block.grow (listTrees L false false false exit (id + 1) (pos + testSize c + 1) body)
    (listJumps L false exit (pos + testSize c + 1) body)
  let jump : Branch := ⟨L.addr gap, L.addr (gap + 1 + listSize alternative), .alternative⟩
  have hown : grown.own jump = grown.grow [] [jump] := by
    refine Block.own_eq_grow fun b hb => ?_
    obtain ⟨-, i, -, hi, e⟩ := addr_of_mem_listJumps false exit body _ b hb
    rw [e, L.addr_lt_iff]
    omega
  have hjump : Scans (L.addr gap) [L.instr gap (.jump .always jump.target)]
      ⟨grown, top :: outer, later⟩ ⟨top.grow [grown.grow [] [jump]] [], outer, later⟩
      (L.addr (gap + 1)) := by
    rw [← hown, ← Block.adopt_eq_grow]
    refine .to_enter (.single rfl le_rfl hbehind) (enter_close ?_)
    exact L.addr_lt_iff.mpr (Nat.lt_succ_self gap)
  have hlast := listScans halternative tail exit (id + 1 + listCount body) (gap + 1)
    (top.grow [grown.grow [] [jump]] []) outer rest (hroom.right (by omega) (by simp))
  rw [Block.grow_grow] at hlast
  rw [List.append_cons, List.append_cons (listInstrs _ _ _ body), List.cons_append, List.append_assoc]
  simpa [grown, jump, block, Block.grow, Block.fresh] using htest.append (hinner.append (hjump.append hlast))

/-- A loop opens its block, scans its body and closes behind its test. -/
theorem scansWell_loop {c : Node} {body : List Piece} (hc : c.Normal)
    (hbody : ∀ p ∈ body, ScansWell L p) : ScansWell L (loop body c) := by
  intro tail exit id pos top outer rest hroom
  rw [size_loop, ← Nat.add_assoc, ← Nat.add_assoc] at hroom ⊢
  generalize hback : pos + listSize body + testSize c = back at hroom ⊢
  -- the first piece of the body may begin with a block of its own, so nothing is entered in between
  let block := Block.fresh (id + listCount body) .loop (L.addr pos) (L.addr back)
  have hopen : enter (L.addr pos) ⟨top, outer, block :: (listRanges L false id pos body ++ rest)⟩ =
      enter (L.addr pos) ⟨block, top :: outer, listRanges L false id pos body ++ rest⟩ :=
    enter_open rfl (L.addr_le_iff.mpr (by omega)) (hroom.inside back (Nat.lt_succ_self back))
  have hbehind : ∀ b ∈ rest, L.addr back < b.start := fun b hb =>
    (L.addr_lt_iff.mpr (Nat.lt_succ_self back)).trans_le (hroom.behind b hb)
  have hinner := listScans hbody false (L.addr (back + 1)) id pos block (top :: outer) rest
    (room_fresh (fun b hb => (L.addr_le_iff.mpr (by omega)).trans (hbehind b hb).le) (by omega))
  let grown := block.grow (listTrees L false false false (L.addr (back + 1)) id pos body)
    (listJumps L false (L.addr (back + 1)) pos body)
  have htest : Scans (L.addr (pos + listSize body))
      (testInstrs L (L.addr (back + 1)) (pos + listSize body) c) ⟨grown, top :: outer, rest⟩
      ⟨grown, top :: outer, rest⟩ (L.addr (pos + listSize body + testSize c)) := by
    refine .straight (hc.straight .read) (fun i hi => L.addr_le_iff.mpr ?_) fun b hb => ?_
    · change i < pos + listSize body + testSize c at hi
      omega
    · exact hback ▸ (hbehind b hb).le
  rw [hback] at htest
  have hjump : Scans (L.addr back) [L.instr back (.jump .ifTrue (L.addr pos))]
      ⟨grown, top :: outer, rest⟩ ⟨top.grow [grown] [], outer, rest⟩ (L.addr (back + 1)) := by
    rw [← Block.adopt_eq_grow]
    refine .to_enter (.single rfl le_rfl hbehind) (enter_close ?_)
    exact L.addr_lt_iff.mpr (Nat.lt_succ_self back)
  rw [instrs_loop, ranges, trees, jumps, hback]
  exact .of_enter hopen (hinner.append (htest.append hjump))

/-- **Scanning a piece** opens and closes its blocks. -/
theorem Sound.scansWell {inLoop : Bool} {p : Piece} (h : Sound inLoop p) : ScansWell L p := by
  induction h with
  | plain hn => exact scansWell_plain hn
  | leave => exact scansWell_leave
  | choice hc _ ih => exact scansWell_choice hc ih
  | choiceElse hc _ _ _ ih ih' => exact scansWell_choiceElse hc ih ih'
  | loop hc _ ih => exact scansWell_loop hc ih

end Piece

end TorqueScript
