import Mathlib.Data.List.Pairwise
import TorqueScript.Block.Classify
import TorqueScript.Proofs.Outline

/-!
# Nesting of compiled code

The blocks of compiled code are nested as the pieces of its outline are.  `Piece.ranges` lists the
blocks of a piece by themselves, in the order of the jumps that make them or in the order in which they
are opened; the two differ for loops, whose jump is their last instruction.  `Piece.trees` are the same
blocks with what lies inside them, and `Piece.jumps` the unconditional jumps that belong to the block
around the piece.

Two states of a scan are the same at an address if what is closed and opened there makes them equal
(`Nesting.enter`).  So a block that ends in front of an address is as good as closed, and one that
begins there as good as open, and statements about a scan compose (`Nesting.Scans.append`).
-/

namespace TorqueScript

/-! ### Blocks of a piece -/

namespace Piece

mutual

/-- The number of blocks of a piece. -/
def count : Piece → Nat
  | plain _ | leave => 0
  | choice _ body => 1 + listCount body
  | choiceElse _ body alternative => 1 + listCount body + listCount alternative
  | loop body _ => listCount body + 1

/-- The number of blocks of pieces that follow each other. -/
def listCount : List Piece → Nat
  | [] => 0
  | p :: ps => p.count + listCount ps

end

section Blocks

variable (L : Placement)

mutual

/-- The blocks of a piece at `pos`, numbered from `id`, in the order of their jumps or of opening. -/
def ranges (byJump : Bool) (id pos : Nat) : Piece → List Block
  | plain _ | leave => []
  | choice c body =>
    .fresh id .conditional (L.addr (pos + testSize c)) (L.addr (pos + testSize c + listSize body)) ::
      listRanges byJump (id + 1) (pos + testSize c + 1) body
  | choiceElse c body alternative =>
    .fresh id .conditional (L.addr (pos + testSize c))
        (L.addr (pos + testSize c + 1 + listSize body)) ::
      (listRanges byJump (id + 1) (pos + testSize c + 1) body ++
        listRanges byJump (id + 1 + listCount body)
          (pos + testSize c + 1 + listSize body + 1) alternative)
  | loop body c =>
    let block := .fresh (id + listCount body) .loop (L.addr pos)
      (L.addr (pos + listSize body + testSize c))
    if byJump then listRanges byJump id pos body ++ [block] else block :: listRanges byJump id pos body

/-- The blocks of pieces that follow each other. -/
def listRanges (byJump : Bool) (id pos : Nat) : List Piece → List Block
  | [] => []
  | p :: ps => ranges byJump id pos p ++ listRanges byJump (id + p.count) (pos + p.size) ps

end

mutual

/-- The jumps of a piece at `pos` that belong to the block around it.  They leave the loop, if it is
known that there is one. -/
def jumps (inLoop : Bool) (exit : Addr) (pos : Nat) : Piece → List Branch
  | plain _ | choice .. | loop .. => []
  | leave => [⟨L.addr pos, exit, if inLoop then .leave else .alternative⟩]
  | choiceElse c body alternative =>
    listJumps inLoop exit (pos + testSize c + 1 + listSize body + 1) alternative

/-- The jumps of pieces that follow each other. -/
def listJumps (inLoop : Bool) (exit : Addr) (pos : Nat) : List Piece → List Branch
  | [] => []
  | p :: ps => jumps inLoop exit pos p ++ listJumps inLoop exit (pos + p.size) ps

end

mutual

/-- The blocks of a piece with what lies inside them.  With `settled`, jumps have their classes and
loops their continue points; without it, every jump counts as one over an `else` part. -/
def trees (settled inLoop tail : Bool) (exit : Addr) (id pos : Nat) : Piece → List Block
  | plain _ | leave => []
  | choice c body =>
    [{ id, kind := .conditional
       start := L.addr (pos + testSize c)
       stop := L.addr (pos + testSize c + listSize body)
       branches := listJumps L inLoop exit (pos + testSize c + 1) body
       continuePoint := none
       children := listTrees settled inLoop true exit (id + 1) (pos + testSize c + 1) body }]
  | choiceElse c body alternative =>
    { id, kind := .conditional
      start := L.addr (pos + testSize c)
      stop := L.addr (pos + testSize c + 1 + listSize body)
      branches := listJumps L inLoop exit (pos + testSize c + 1) body ++
        [⟨L.addr (pos + testSize c + 1 + listSize body),
          L.addr (pos + testSize c + 1 + listSize body + 1 + listSize alternative),
          if inLoop && tail then .nextRound else .alternative⟩]
      continuePoint := none
      children := listTrees settled inLoop false exit (id + 1) (pos + testSize c + 1) body } ::
    listTrees settled inLoop tail exit (id + 1 + listCount body)
      (pos + testSize c + 1 + listSize body + 1) alternative
  | loop body c =>
    [{ id := id + listCount body, kind := .loop
       start := L.addr pos
       stop := L.addr (pos + listSize body + testSize c)
       branches := listJumps L settled (L.addr (pos + listSize body + testSize c + 1)) pos body
       continuePoint := if settled then (listRound? false pos body).map L.addr else none
       children := listTrees settled settled false (L.addr (pos + listSize body + testSize c + 1))
         id pos body }]

/-- The blocks of pieces that follow each other with what lies inside them. -/
def listTrees (settled inLoop tail : Bool) (exit : Addr) (id pos : Nat) : List Piece → List Block
  | [] => []
  | p :: ps =>
    trees settled inLoop (tail && ps.isEmpty) exit id pos p ++
      listTrees settled inLoop tail exit (id + p.count) (pos + p.size) ps

end

end Blocks

end Piece

/-! ### Scans -/

namespace Nesting

/-- What is closed and opened at an address. -/
def enter (a : Addr) (n : Nesting) : Except Error Nesting :=
  openAt a (closeBefore a n.top n.outer).1 (closeBefore a n.top n.outer).2 n.pending

/-- A step enters the address and records what is there. -/
theorem step_eq (n : Nesting) (ins : Instruction) :
    n.step ins = (n.enter ins.addr).map fun m => m.record ins := by
  rw [step, enter]
  show (openAt _ _ _ _ >>= _) = _
  cases openAt ins.addr (closeBefore ins.addr n.top n.outer).1
    (closeBefore ins.addr n.top n.outer).2 n.pending <;> rfl

/-- Code at `a` leads from `n` to `m`, the scan being at `b` then. -/
def Scans (a : Addr) (code : List Instruction) (n m : Nesting) (b : Addr) : Prop :=
  ∀ n₀, enter a n₀ = enter a n → ∃ m₀, n₀.scan code = .ok m₀ ∧ enter b m₀ = enter b m

/-- A scan of one list goes on with the next. -/
theorem scan_append {n m : Nesting} {code rest : List Instruction} (h : n.scan code = .ok m) :
    n.scan (code ++ rest) = m.scan rest := by
  induction code generalizing n with
  | nil => cases h; rfl
  | cons ins code ih =>
      rw [scan] at h
      rw [List.cons_append, scan]
      cases hs : n.step ins with
      | error e => rw [hs] at h; cases h
      | ok k => rw [hs] at h; exact ih h

/-- Scans compose. -/
theorem Scans.append {a b c : Addr} {code rest : List Instruction} {n m k : Nesting}
    (h₁ : Scans a code n m b) (h₂ : Scans b rest m k c) : Scans a (code ++ rest) n k c := by
  intro n₀ hn
  obtain ⟨m₀, hscan, hm⟩ := h₁ n₀ hn
  obtain ⟨k₀, hscan', hk⟩ := h₂ m₀ hm
  exact ⟨k₀, (scan_append hscan).trans hscan', hk⟩

theorem Scans.nil {a : Addr} {n m : Nesting} (h : enter a n = enter a m) : Scans a [] n m a :=
  fun n₀ hn => ⟨n₀, rfl, hn.trans h⟩

/-- What entering an address does may be done before a scan. -/
theorem Scans.of_enter {a b : Addr} {code : List Instruction} {n n' m : Nesting}
    (h : enter a n = enter a n') (hs : Scans a code n' m b) : Scans a code n m b :=
  fun n₀ hn => hs n₀ (hn.trans h)

/-- It may be done at the end of a scan too. -/
theorem Scans.to_enter {a b : Addr} {code : List Instruction} {n m m' : Nesting}
    (hs : Scans a code n m b) (h : enter b m = enter b m') : Scans a code n m' b := by
  simpa using hs.append (.nil h)

/-- Nothing ends in front of `a`, and nothing begins there. -/
theorem enter_idle {a : Addr} {top : Block} {outer pending : List Block} (hstop : a ≤ top.stop)
    (hpending : ∀ b ∈ pending, a < b.start) :
    enter a ⟨top, outer, pending⟩ = .ok ⟨top, outer, pending⟩ := by
  have hclose : closeBefore a top outer = (top, outer) := by
    cases outer with
    | nil => rfl
    | cons parent outer => rw [closeBefore, if_neg (Nat.not_lt.mpr hstop)]
  rw [enter, hclose]
  cases pending with
  | nil => rfl
  | cons b pending =>
      have : b.start ≠ a := Nat.ne_of_gt (hpending b List.mem_cons_self)
      rw [openAt, if_pos this]
      rfl

/-- A block that begins at `a` is as good as open there. -/
theorem enter_open {a : Addr} {top b : Block} {outer pending : List Block} (hstart : b.start = a)
    (hb : a ≤ b.stop) (hstop : b.stop ≤ top.stop) :
    enter a ⟨top, outer, b :: pending⟩ = enter a ⟨b, top :: outer, pending⟩ := by
  have hclose : closeBefore a top outer = (top, outer) := by
    cases outer with
    | nil => rfl
    | cons parent outer => rw [closeBefore, if_neg (Nat.not_lt.mpr (hb.trans hstop))]
  rw [enter, hclose, enter, closeBefore, if_neg (Nat.not_lt.mpr hb), openAt,
    if_neg (not_not_intro hstart), if_neg (Nat.not_lt.mpr hstop)]

/-- A block that ends in front of `a` is as good as closed there. -/
theorem enter_close {a : Addr} {top parent : Block} {outer pending : List Block} (h : top.stop < a) :
    enter a ⟨top, parent :: outer, pending⟩ = enter a ⟨parent.adopt top, outer, pending⟩ := by
  rw [enter, closeBefore, if_pos h, enter]

/-- An instruction at which nothing begins or ends. -/
theorem Scans.single {a b : Addr} {ins : Instruction} {top : Block} {outer pending : List Block}
    (ha : ins.addr = a) (hstop : a ≤ top.stop) (hpending : ∀ b ∈ pending, a < b.start) :
    Scans a [ins] ⟨top, outer, pending⟩ (record ⟨top, outer, pending⟩ ins) b := by
  intro n₀ hn
  refine ⟨_, ?_, rfl⟩
  rw [scan, step_eq, ha, hn, enter_idle hstop hpending]
  rfl

/-- Only unconditional jumps are recorded. -/
theorem record_of_jump {n : Nesting} {ins : Instruction}
    (h : ∀ target, ins.jump? ≠ some (.always, target)) : n.record ins = n := by
  unfold record
  split
  · next target e => exact absurd e (h target)
  · rfl

end Nesting

namespace Block

/-- Puts blocks and jumps into a block, behind those that are there. -/
def grow (b : Block) (children : List Block) (branches : List Branch) : Block :=
  { b with children := b.children ++ children, branches := b.branches ++ branches }

@[simp] theorem stop_grow (b : Block) (cs : List Block) (bs : List Branch) :
    (b.grow cs bs).stop = b.stop := rfl

@[simp] theorem branches_grow (b : Block) (cs : List Block) (bs : List Branch) :
    (b.grow cs bs).branches = b.branches ++ bs := rfl

@[simp] theorem grow_nil (b : Block) : b.grow [] [] = b := by
  cases b
  simp [grow]

@[simp] theorem grow_grow (b : Block) (cs ds : List Block) (bs es : List Branch) :
    (b.grow cs bs).grow ds es = b.grow (cs ++ ds) (bs ++ es) := by
  simp [grow]

/-- Adopting a block is growing by it. -/
theorem adopt_eq_grow (parent child : Block) : parent.adopt child = parent.grow [child] [] := by
  simp [adopt, grow]

/-- A jump behind those that a block owns. -/
theorem own_eq_grow {b : Block} {branch : Branch} (h : ∀ c ∈ b.branches, c.addr < branch.addr) :
    b.own branch = b.grow [] [branch] := by
  have hinsert : ∀ bs : List Branch, (∀ c ∈ bs, c.addr < branch.addr) →
      branch.insert bs = bs ++ [branch] := by
    intro bs
    induction bs with
    | nil => intro _; rfl
    | cons c cs ih =>
        intro h
        obtain ⟨hc, hcs⟩ := List.forall_mem_cons.mp h
        rw [Branch.insert, if_neg (Nat.lt_asymm hc), if_neg (Nat.ne_of_gt hc), ih hcs,
          List.cons_append]
  rw [own, hinsert b.branches h]
  simp [grow]

end Block

namespace Nesting

section Straight

variable {room pos : Nat} {L : Placement} {exit : Addr} {f : Fragment} {top : Block}
  {outer pending : List Block}

/-- Nothing happens in straight-line code. -/
theorem scan_straight (hf : f.Straight room) (hstop : ∀ i < pos + f.size, L.addr i ≤ top.stop)
    (hpending : ∀ b ∈ pending, L.addr (pos + f.size) ≤ b.start) :
    scan ⟨top, outer, pending⟩ (f.code L exit pos) = .ok ⟨top, outer, pending⟩ := by
  have hjump : ∀ ins ∈ f.code L exit pos, ∀ target, ins.jump? ≠ some (.always, target) := by
    intro ins hins target hj
    exact absurd (hf L exit pos ins hins _ _ hj).1 (by decide)
  have haddrs := f.addrs L exit pos
  generalize f.code L exit pos = code at hjump haddrs
  generalize f.size = size at hstop hpending haddrs
  -- the instructions are gone through one by one, from the first position on
  induction code generalizing pos size with
  | nil => rfl
  | cons ins code ih =>
      cases size with
      | zero => simp at haddrs
      | succ size =>
          rw [List.range'_succ, List.map_cons, List.map_cons, List.cons.injEq] at haddrs
          rw [← Nat.add_assoc, Nat.add_right_comm] at hstop hpending
          obtain ⟨hins, hcode⟩ := List.forall_mem_cons.mp hjump
          have hfirst : ∀ b ∈ pending, L.addr pos < b.start := fun b hb =>
            (L.addr_lt_iff.mpr (by omega)).trans_le (hpending b hb)
          rw [scan, step_eq, haddrs.1, enter_idle (hstop pos (by omega)) hfirst, Except.map,
            record_of_jump hins]
          exact ih hcode size hstop hpending haddrs.2

/-- The same from any state that becomes such a one at the first instruction. -/
theorem scan_straight_of_enter {n : Nesting} (hf : f.Straight room) (hsize : 0 < f.size)
    (hstop : ∀ i < pos + f.size, L.addr i ≤ top.stop)
    (hpending : ∀ b ∈ pending, L.addr (pos + f.size) ≤ b.start)
    (hn : enter (L.addr pos) n = enter (L.addr pos) ⟨top, outer, pending⟩) :
    n.scan (f.code L exit pos) = .ok ⟨top, outer, pending⟩ := by
  have hscan : scan ⟨top, outer, pending⟩ (f.code L exit pos) = .ok ⟨top, outer, pending⟩ :=
    scan_straight hf hstop hpending
  have haddrs := f.addrs L exit pos
  obtain ⟨size, hsize⟩ := Nat.exists_eq_succ_of_ne_zero hsize.ne'
  rw [hsize, List.range'_succ, List.map_cons] at haddrs
  cases hcode : f.code L exit pos with
  | nil => rw [hcode] at haddrs; cases haddrs
  | cons ins code =>
      rw [hcode] at haddrs hscan
      have hins : ins.addr = L.addr pos := (List.cons.inj haddrs).1
      rw [scan, step_eq, hins] at hscan ⊢
      rwa [hn]

/-- **Straight code opens and closes nothing.** -/
theorem Scans.straight (hf : f.Straight room) (hstop : ∀ i < pos + f.size, L.addr i ≤ top.stop)
    (hpending : ∀ b ∈ pending, L.addr (pos + f.size) ≤ b.start) :
    Scans (L.addr pos) (f.code L exit pos) ⟨top, outer, pending⟩ ⟨top, outer, pending⟩
      (L.addr (pos + f.size)) := by
  intro n hn
  rcases Nat.eq_zero_or_pos f.size with hsize | hsize
  · have hcode : f.code L exit pos = [] := List.eq_nil_of_length_eq_zero (by simp [hsize])
    rw [hcode, hsize]
    exact ⟨n, rfl, hn⟩
  · exact ⟨_, scan_straight_of_enter hf hsize hstop hpending hn, rfl⟩

end Straight

end Nesting

end TorqueScript
