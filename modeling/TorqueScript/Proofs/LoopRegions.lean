import TorqueScript.Proofs.Regions

/-!
# Regions of pieces and loops

A piece is read correctly (`ReadsWell`) in any block that knows its blocks and jumps, up to any address behind
its instructions, or at least behind those that are compared with it (`reach`): a loop's body may be split
inside an alternative, which is then read to its end all the same.

* `Piece.listReads`: pieces that are read correctly follow each other.
* `Piece.readsWell_loop`: a loop is read correctly if its pieces are, as a whole or split at its continue point.
-/

namespace TorqueScript

namespace Piece

open Region TorqueScript.Stream Fragment

variable {L : Placement}

/-! ### Reading pieces -/

/-- A block is read in which pieces from `pos` up to `stop` lie. -/
structure Host (L : Placement) (block : Block) (pos stop : Nat) (children : List Block)
    (branches : List Branch) : Prop extends Within L block pos stop children branches where
  fits : ∀ i < stop, L.addr i < block.alternativeStop
  bounded : ∀ i < stop, L.addr i < Addr.last

/-- The pieces in front are read in the same block. -/
theorem Host.left {block : Block} {pos mid stop : Nat} {cs ds : List Block} {bs es : List Branch}
    (h : Host L block pos stop (cs ++ ds) (bs ++ es)) (hmid : mid ≤ stop)
    (hds : ∀ d ∈ ds, L.addr mid ≤ d.start) (hes : ∀ e ∈ es, L.addr mid ≤ e.addr) :
    Host L block pos mid cs bs :=
  ⟨h.toWithin.left hmid hds hes, fun i hi => h.fits i (by omega), fun i hi => h.bounded i (by omega)⟩

/-- The pieces behind are, too. -/
theorem Host.right {block : Block} {pos mid stop : Nat} {cs ds : List Block} {bs es : List Branch}
    (h : Host L block pos stop (cs ++ ds) (bs ++ es)) (hmid : pos ≤ mid)
    (hcs : ∀ c ∈ cs, c.start < L.addr mid) (hbs : ∀ b ∈ bs, b.addr < L.addr mid) :
    Host L block mid stop ds es :=
  ⟨h.toWithin.right hmid hcs hbs, h.fits, h.bounded⟩

/-- The piece is read as its regions. -/
def ReadsWell (L : Placement) (inLoop : Bool) (p : Piece) : Prop :=
  ∀ {tail : Bool} {exit : Addr} {id pos : Nat} {block : Block} {stop : Addr} {rest : List Instruction},
    Host L block pos (pos + p.size) (trees L true inLoop tail exit id pos p) (jumps L inLoop exit pos p) →
    (∀ i < pos + reach inLoop tail p, L.addr i < stop) → Begins L (pos + p.size) rest →
    Passes block stop (instrs L exit pos p) (regions L inLoop tail exit pos p) rest

section Lists

variable {inLoop tail : Bool} {exit : Addr} {id pos : Nat} {block : Block} {stop : Addr}
  {rest : List Instruction} {p : Piece} {ps : List Piece}

/-- The first of several pieces. -/
theorem Host.first (h : Host L block pos (pos + listSize (p :: ps))
      (listTrees L true inLoop tail exit id pos (p :: ps)) (listJumps L inLoop exit pos (p :: ps))) :
    Host L block pos (pos + p.size) (trees L true inLoop (tail && ps.isEmpty) exit id pos p)
      (jumps L inLoop exit pos p) := by
  rw [listTrees, listJumps, listSize_cons] at h
  refine h.left (by omega) (fun d hd => ?_) fun e he => ?_
  · exact (spans_listTrees ps _ _ _ d hd).le_start le_rfl
  · obtain ⟨-, i, hi, -, e⟩ := addr_of_mem_listJumps inLoop exit ps _ e he
    rw [e, L.addr_le_iff]
    exact hi

/-- The pieces behind the first one. -/
theorem Host.later (h : Host L block pos (pos + listSize (p :: ps))
      (listTrees L true inLoop tail exit id pos (p :: ps)) (listJumps L inLoop exit pos (p :: ps))) :
    Host L block (pos + p.size) (pos + p.size + listSize ps)
      (listTrees L true inLoop tail exit (id + p.count) (pos + p.size) ps)
      (listJumps L inLoop exit (pos + p.size) ps) := by
  rw [listTrees, listJumps, listSize_cons, ← Nat.add_assoc] at h
  refine h.right (by omega) (fun c hc => ?_) fun b hb => ?_
  · obtain ⟨i, j, -, hij, hj, e, -⟩ := spans_trees p _ _ _ c hc
    rw [e, L.addr_lt_iff]
    omega
  · obtain ⟨-, i, -, hi, e⟩ := addr_of_mem_jumps inLoop exit p _ b hb
    rw [e, L.addr_lt_iff]
    exact hi

/-- A stream that pieces stand in front of begins where they begin. -/
theorem begins_listInstrs (exit : Addr) (h : Begins L (pos + listSize ps) rest) :
    Begins L pos (listInstrs L exit pos ps ++ rest) :=
  begins_code h

/-- **Pieces that follow each other** are read correctly if each of them is. -/
theorem listReads (h : ∀ p ∈ ps, ReadsWell L inLoop p)
    (hhost : Host L block pos (pos + listSize ps) (listTrees L true inLoop tail exit id pos ps)
      (listJumps L inLoop exit pos ps))
    (hstop : ∀ i < pos + listSize ps, L.addr i < stop) (hrest : Begins L (pos + listSize ps) rest) :
    Passes block stop (listInstrs L exit pos ps) (listRegions L inLoop tail exit pos ps).flatten rest := by
  induction ps generalizing id pos with
  | nil =>
      rw [listInstrs_nil, listRegions]
      exact .nil
  | cons p ps ih =>
      obtain ⟨hp, hps⟩ := List.forall_mem_cons.mp h
      have hsize := listSize_cons p ps
      have hreach := reach_le_size inLoop (tail && ps.isEmpty) p
      rw [hsize, ← Nat.add_assoc] at hrest
      rw [listInstrs_cons, listRegions, List.flatten_cons]
      refine .append (hp hhost.first (fun i hi => hstop i (by omega)) (begins_listInstrs _ hrest)) ?_
      exact ih hps hhost.later (fun i hi => hstop i (by omega)) hrest

/-- A piece that begins in front of the next round is compared with it before the round begins. -/
theorem reach_le_round {r : Nat} (h : round? false pos p = some r) : pos + reach inLoop false p ≤ r := by
  cases p with
  | plain | leave | loop => simp [round?] at h
  | choice c body =>
      rw [round?] at h
      have := listRound?_bounds body _ _ r h
      rw [reach]
      omega
  | choiceElse c body alternative =>
      rw [round?, if_neg Bool.false_ne_true] at h
      rw [reach, Bool.and_false, if_neg Bool.false_ne_true]
      rcases Option.or_eq_some_iff.mp h with h | ⟨-, h⟩
      · have := listRound?_bounds body _ _ r h
        omega
      · have := listRound?_bounds alternative _ _ r h
        omega

/-- Reading up to the next round ends with the last piece that begins in front of it. -/
theorem readsBefore {r : Nat} (h : ∀ p ∈ ps, ReadsWell L inLoop p)
    (hhost : Host L block pos (pos + listSize ps) (listTrees L true inLoop false exit id pos ps)
      (listJumps L inLoop exit pos ps))
    (hround : r ≤ pos ∨ listRound? false pos ps = some r) (hrest : Begins L (pos + listSize ps) rest) :
    Reads block (L.addr r) (listInstrs L exit pos ps ++ rest)
      ((listRegions L inLoop false exit pos ps).take (startsBefore r pos ps)).flatten
      (listInstrs L exit (pos + listSize (ps.take (startsBefore r pos ps)))
        (ps.drop (startsBefore r pos ps)) ++ rest) := by
  -- past the next round, nothing is read
  have hnone : ∀ {pos : Nat} {code : List Instruction}, r ≤ pos → Begins L pos code →
      Reads block (L.addr r) code [] code := by
    intro pos code hr hcode
    refine Passes.nil.reads fun ins hins => ?_
    rw [hcode ins hins]
    exact L.addr_le_iff.mpr hr
  induction ps generalizing id pos with
  | nil =>
      have hr : r ≤ pos := hround.resolve_right (by simp [listRound?])
      simpa [startsBefore, listInstrs_nil] using hnone hr hrest
  | cons p ps ih =>
      have hsize := listSize_cons p ps
      rw [startsBefore]
      by_cases hpos : pos < r
      · obtain ⟨hp, hps⟩ := List.forall_mem_cons.mp h
        have hfound := hround.resolve_left (Nat.not_le.mpr hpos)
        rw [listRound?, Bool.false_and] at hfound
        rw [hsize, ← Nat.add_assoc] at hrest
        have hfirst := hhost.first
        rw [Bool.false_and] at hfirst
        -- the round begins in this piece or behind it, or later on
        have hcases : pos + reach inLoop false p ≤ r ∧
            (r ≤ pos + p.size ∨ listRound? false (pos + p.size) ps = some r) := by
          rcases Option.or_eq_some_iff.mp hfound with hfound | ⟨-, hfound⟩
          · exact ⟨reach_le_round hfound, .inl (round?_bounds p _ _ r hfound).2⟩
          · have hbounds := listRound?_bounds ps _ _ r hfound
            have hreach := reach_le_size inLoop false p
            exact ⟨by omega, .inr hfound⟩
        have hbefore : ∀ i < pos + reach inLoop false p, L.addr i < L.addr r := fun i hi =>
          L.addr_lt_iff.mpr (by omega)
        have hpass := hp hfirst hbefore (begins_listInstrs exit hrest)
        rw [if_pos hpos, listRegions, Bool.false_and, List.take_succ_cons, List.flatten_cons,
          List.take_succ_cons, List.drop_succ_cons, listSize_cons, ← Nat.add_assoc, listInstrs_cons,
          List.append_assoc]
        exact hpass _ _ (ih hps hhost.later hcases.2 hrest)
      · rw [if_neg hpos]
        exact hnone (Nat.not_lt.mp hpos) (begins_listInstrs _ hrest)

/-- The regions of the pieces behind some others. -/
theorem drop_listRegions (k : Nat) : (listRegions L inLoop tail exit pos ps).drop k =
    listRegions L inLoop tail exit (pos + listSize (ps.take k)) (ps.drop k) := by
  induction ps generalizing k pos with
  | nil => simp [listRegions]
  | cons p ps ih =>
      cases k with
      | zero => simp
      | succ k =>
          rw [listRegions, List.drop_succ_cons, List.drop_succ_cons, List.take_succ_cons, ih,
            listSize_cons, Nat.add_assoc]

/-- The pieces behind some others are read in the same block, with their blocks numbered from somewhere. -/
theorem Host.drop (k : Nat) (h : Host L block pos (pos + listSize ps)
      (listTrees L true inLoop tail exit id pos ps) (listJumps L inLoop exit pos ps)) :
    ∃ id', Host L block (pos + listSize (ps.take k))
      (pos + listSize (ps.take k) + listSize (ps.drop k))
      (listTrees L true inLoop tail exit id' (pos + listSize (ps.take k)) (ps.drop k))
      (listJumps L inLoop exit (pos + listSize (ps.take k)) (ps.drop k)) := by
  induction ps generalizing k id pos with
  | nil => exact ⟨id, by simpa using h⟩
  | cons p ps ih =>
      cases k with
      | zero => exact ⟨id, by simpa using h⟩
      | succ k =>
          obtain ⟨id', h'⟩ := ih k h.later
          rw [List.take_succ_cons, List.drop_succ_cons, listSize_cons, ← Nat.add_assoc]
          exact ⟨id', h'⟩

theorem listSize_take_add_drop (k : Nat) (ps : List Piece) :
    listSize (ps.take k) + listSize (ps.drop k) = listSize ps := by
  rw [← listSize_append, List.take_append_drop]

end Lists

/-! ### Reading loops -/

/-- A block knows its own children and jumps. -/
theorem within_self (block : Block) (pos stop : Nat) :
    Within L block pos stop block.children block.branches :=
  ⟨fun _ _ _ => rfl, fun _ _ _ => rfl⟩

section Loop

variable {body : List Piece} {c : Node} {id pos : Nat} {block : Block}

/-- The block of a loop at `pos`. -/
structure IsLoop (L : Placement) (id pos : Nat) (body : List Piece) (c : Node) (block : Block) : Prop where
  kind : block.kind = .loop
  start : block.start = L.addr pos
  stop : block.stop = L.addr (pos + listSize body + testSize c)
  point : block.continuePoint = (listRound? false pos body).map L.addr
  branches : block.branches = listJumps L true (L.addr (pos + listSize body + testSize c + 1)) pos body
  children : block.children =
    listTrees L true true false (L.addr (pos + listSize body + testSize c + 1)) id pos body

/-- A loop is split at the first jump to the next round, unless this lies in one of its blocks. -/
theorem IsLoop.splitPoint?_eq (h : IsLoop L id pos body c block) : block.splitPoint? =
    ((listRound? false pos body).filter fun r => !listEncloses r pos body).map L.addr := by
  rw [Block.splitPoint?, h.point, h.start, h.stop, h.children]
  cases hround : listRound? false pos body with
  | none => rfl
  | some r =>
      have hbounds := listRound?_bounds body _ _ r hround
      have hlo : L.addr pos < L.addr r := L.addr_lt_iff.mpr hbounds.1
      have hhi : L.addr r ≤ L.addr (pos + listSize body + testSize c) := L.addr_le_iff.mpr (by omega)
      simp only [Option.map_some, Option.filter_some, decide_eq_true hlo, decide_eq_true hhi,
        Bool.true_and, any_listTrees]
      split <;> rfl

/-- The pieces of a loop are read in its block. -/
theorem IsLoop.host (h : IsLoop L id pos body c block) (hc : c.Normal)
    (hbound : ∀ i ≤ pos + listSize body + testSize c, L.addr i < Addr.last) :
    Host L block pos (pos + listSize body)
      (listTrees L true true false (L.addr (pos + listSize body + testSize c + 1)) id pos body)
      (listJumps L true (L.addr (pos + listSize body + testSize c + 1)) pos body) := by
  have hpos := testSize_pos hc
  refine ⟨h.children ▸ h.branches ▸ within_self block _ _, fun i hi => ?_, fun i hi => hbound i (by omega)⟩
  rw [Block.alternativeStop, if_pos (.inl h.kind), h.stop]
  exact L.addr_lt_iff.mpr (by omega)

/-- The condition of a loop is straight-line code in its block. -/
theorem IsLoop.passes_test (h : IsLoop L id pos body c block) {rest : List Instruction} :
    Passes block block.stop
      (testInstrs L (L.addr (pos + listSize body + testSize c + 1)) (pos + listSize body) c)
      ((testInstrs L (L.addr (pos + listSize body + testSize c + 1)) (pos + listSize body) c).map .plain)
      rest := by
  have hself := within_self (L := L) block pos (pos + listSize body + testSize c)
  rw [← List.append_nil block.children, ← List.append_nil block.branches] at hself
  refine passes_code (fun i hi => ?_) (hself.right (Nat.le_add_right _ _) (fun b hb => ?_) fun b hb => ?_)
  · rw [h.stop]
    exact L.addr_lt_iff.mpr hi
  · rw [h.children] at hb
    obtain ⟨i, j, -, hij, hj, e, -⟩ := spans_listTrees body _ _ _ b hb
    rw [e, L.addr_lt_iff]
    omega
  · rw [h.branches] at hb
    obtain ⟨-, i, -, hi, e⟩ := addr_of_mem_listJumps true _ body _ b hb
    rw [e, L.addr_lt_iff]
    exact hi

/-- **A loop is read as its pieces are**, as a whole or in two parts. -/
theorem IsLoop.reads (h : IsLoop L id pos body c block) (hc : c.Normal)
    (hbound : ∀ i ≤ pos + listSize body + testSize c, L.addr i < Addr.last)
    (ih : ∀ p ∈ body, ReadsWell L true p) (exit : Addr) (rest : List Instruction) :
    ReadsLoop block (instrs L exit pos (loop body c) ++ rest)
      (loopRegions L pos body c (listRegions L true false
        (L.addr (pos + listSize body + testSize c + 1)) pos body)) rest := by
  have hhost := h.host hc hbound
  have hsplit := h.splitPoint?_eq
  let jump := L.instr (pos + listSize body + testSize c) (.jump .ifTrue (L.addr pos))
  have htest : Begins L (pos + listSize body) (testInstrs L
      (L.addr (pos + listSize body + testSize c + 1)) (pos + listSize body) c ++ jump :: rest) :=
    begins_code (begins_cons rfl)
  have hback : ∀ ins ∈ (jump :: rest).head?, block.stop ≤ ins.addr := by
    intro ins hins
    cases hins
    exact h.stop.le
  have hbody : ∀ i < pos + listSize body, L.addr i < block.stop := by
    intro i hi
    rw [h.stop]
    exact L.addr_lt_iff.mpr (by omega)
  rw [instrs_loop, List.append_assoc, List.append_assoc, List.singleton_append, loopRegions, cut?]
  cases hround : (listRound? false pos body).filter fun r => !listEncloses r pos body with
  | none =>
      rw [hround] at hsplit
      refine .whole hsplit h.stop.symm rfl ?_
      rw [← List.append_assoc]
      exact ((listReads ih hhost hbody htest).append h.passes_test).reads hback
  | some r =>
      -- the pieces before the split and those behind it are read one after the other
      rw [hround] at hsplit
      have hfound := (Option.filter_eq_some_iff.mp hround).1
      obtain ⟨id', hdrop⟩ := hhost.drop (startsBefore r pos body)
      have hsum := listSize_take_add_drop (startsBefore r pos body) body
      have hstep := listReads (fun p hp => ih p (List.mem_of_mem_drop hp)) hdrop
        (fun i hi => hbody i (by omega)) (by rw [Nat.add_assoc, hsum]; exact htest)
      refine .split hsplit h.stop.symm rfl (readsBefore ih hhost (.inr hfound) htest) ?_
      rw [← List.append_assoc, drop_listRegions]
      exact (hstep.append h.passes_test).reads hback

end Loop

end Piece

end TorqueScript
