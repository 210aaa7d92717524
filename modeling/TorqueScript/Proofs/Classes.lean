import TorqueScript.Proofs.PieceBlocks

/-!
# Classes of jumps in compiled code

Which class a jump of compiled code gets can be read off the outline.  A jump out of a loop is known by
where it leads.  A jump over an alternative is one of two things: if it leads past the end of a choice
without `else` that is itself inside a loop, it counts as a jump to the loop's next round, and otherwise
it counts as what it is (`Piece.Sound.classifiesWell`).

The first jump to the next round sets the loop's continue point, and any other jump that leads there is
taken for one as well.  That this changes nothing here is what `Context.clear` is for: a continue point
lies in front of a piece, or behind it, or is where a piece ends that is a `tail`.
-/

namespace TorqueScript

namespace Piece

variable {L : Placement}

/-! ### Where the next round begins -/

mutual

/-- The next round begins inside of the piece or right behind it. -/
theorem round?_bounds : ∀ (p : Piece) (tail : Bool) (pos r : Nat), round? tail pos p = some r →
    pos < r ∧ r ≤ pos + p.size
  | plain _, _, _, _, h | leave, _, _, _, h | loop _ _, _, _, _, h => by simp [round?] at h
  | choice c body, tail, pos, r, h => by
    rw [round?] at h
    have := listRound?_bounds body _ _ r h
    rw [size_choice]
    omega
  | choiceElse c body alternative, tail, pos, r, h => by
    rw [round?] at h
    rw [size_choiceElse]
    split at h
    · cases h
      omega
    · rcases Option.or_eq_some_iff.mp h with h | ⟨-, h⟩
      · have := listRound?_bounds body _ _ r h
        omega
      · have := listRound?_bounds alternative _ _ r h
        omega

/-- The next round begins inside the pieces or right behind them. -/
theorem listRound?_bounds : ∀ (ps : List Piece) (tail : Bool) (pos r : Nat),
    listRound? tail pos ps = some r → pos < r ∧ r ≤ pos + listSize ps
  | [], _, _, _, h => by simp [listRound?] at h
  | p :: ps, tail, pos, r, h => by
    rw [listRound?] at h
    rw [listSize_cons]
    rcases Option.or_eq_some_iff.mp h with h | ⟨-, h⟩
    · have := round?_bounds p _ _ r h
      omega
    · have := listRound?_bounds ps _ _ r h
      omega

end

/-- The address of the next round, if there is a loop. -/
def known (L : Placement) (inLoop : Bool) (round : Option Nat) : Option Addr :=
  if inLoop then round.map L.addr else none

/-- What is known of two points is known of the first that is there. -/
theorem known_or (inLoop : Bool) (a b : Option Nat) :
    known L inLoop (a.or b) = (known L inLoop a).or (known L inLoop b) := by
  cases inLoop
  · rfl
  · exact Option.map_or

/-! ### Jumps out of a loop -/

theorem listJumps_eq_nil_of_forall {inLoop : Bool} {exit : Addr} {ps : List Piece}
    (h : ∀ p ∈ ps, ∀ pos, jumps L inLoop exit pos p = []) (pos : Nat) :
    listJumps L inLoop exit pos ps = [] := by
  induction ps generalizing pos with
  | nil => rw [listJumps]
  | cons p ps ih =>
      obtain ⟨hp, hps⟩ := List.forall_mem_cons.mp h
      rw [listJumps, hp, ih hps, List.nil_append]

/-- Outside of loops a sound piece has no jump out. -/
theorem jumps_eq_nil {inLoop : Bool} {p : Piece} (h : Sound inLoop p) (hfree : inLoop = false)
    (marked : Bool) (exit : Addr) (pos : Nat) : jumps L marked exit pos p = [] := by
  induction h generalizing pos with
  | leave => cases hfree
  | choiceElse _ _ _ _ _ ih =>
      rw [jumps]
      exact listJumps_eq_nil_of_forall (fun p hp pos => ih p hp hfree pos) _
  | _ => rw [jumps]

/-- Outside of loops there are no jumps out of them. -/
theorem listJumps_eq_nil {ps : List Piece} (h : ∀ p ∈ ps, Sound false p) (marked : Bool) (exit : Addr)
    (pos : Nat) : listJumps L marked exit pos ps = [] :=
  listJumps_eq_nil_of_forall (fun p hp => jumps_eq_nil (h p hp) rfl marked exit) pos

mutual

theorem map_jumps {f : Branch → Branch} {exit : Addr}
    (hf : ∀ addr, f ⟨addr, exit, .alternative⟩ = ⟨addr, exit, .leave⟩) : ∀ (p : Piece) (pos : Nat),
    (jumps L false exit pos p).map f = jumps L true exit pos p
  | plain _, _ | choice .., _ | loop .., _ => by simp [jumps]
  | leave, _ => by simpa [jumps] using hf _
  | choiceElse _ _ alternative, _ => by
    simp only [jumps]
    exact map_listJumps hf alternative _

/-- What takes every jump to `exit` for one out of the loop gives the jumps their classes. -/
theorem map_listJumps {f : Branch → Branch} {exit : Addr}
    (hf : ∀ addr, f ⟨addr, exit, .alternative⟩ = ⟨addr, exit, .leave⟩) : ∀ (ps : List Piece) (pos : Nat),
    (listJumps L false exit pos ps).map f = listJumps L true exit pos ps
  | [], _ => by simp [listJumps]
  | p :: ps, _ => by
    simp only [listJumps, List.map_append]
    rw [map_jumps hf p, map_listJumps hf ps]

end

mutual

/-- The jumps out of a loop leave it. -/
theorem kind_of_mem_jumps {exit : Addr} : ∀ (p : Piece) (pos : Nat), ∀ b ∈ jumps L true exit pos p,
    b.kind = .leave
  | plain _, _, _, h | choice .., _, _, h | loop .., _, _, h => by simp [jumps] at h
  | leave, _, b, h => by
    rw [jumps, List.mem_singleton] at h
    rw [h]
    rfl
  | choiceElse _ _ alternative, _, b, h => by
    rw [jumps] at h
    exact kind_of_mem_listJumps alternative _ b h

theorem kind_of_mem_listJumps {exit : Addr} : ∀ (ps : List Piece) (pos : Nat),
    ∀ b ∈ listJumps L true exit pos ps, b.kind = .leave
  | [], _, _, h => by simp [listJumps] at h
  | p :: ps, _, b, h => by
    rw [listJumps, List.mem_append] at h
    exact h.elim (kind_of_mem_jumps p _ b) (kind_of_mem_listJumps ps _ b)

end

/-- Jumps that leave are no round jumps. -/
theorem firstRound?_append {bs : List Branch} (cs : List Branch) (h : ∀ b ∈ bs, b.kind = .leave) :
    Block.firstRound? (bs ++ cs) = Block.firstRound? cs := by
  have : bs.find? (·.kind == .nextRound) = none := by
    rw [List.find?_eq_none]
    intro b hb
    rw [h b hb]
    decide
  rw [Block.firstRound?, List.find?_append, this]
  rfl

/-- Settling keeps them. -/
theorem map_settle {point : Option Addr} {bs : List Branch} (h : ∀ b ∈ bs, b.kind = .leave) :
    bs.map (·.settle point) = bs := by
  have hsettle : ∀ b ∈ bs, b.settle point = id b := by
    intro b hb
    rw [Branch.settle, if_neg]
    · rfl
    · rw [h b hb]
      exact fun hb => nomatch hb.1
  rw [List.map_congr_left hsettle, List.map_id]

/-! ### Classifying blocks -/

section Classify

variable {inLoop tail : Bool} {exit : Addr} {frame : Option LoopFrame} {around point : Option Addr}
  {pos stop id : Nat} {all : List Instruction} {last : Nat}

/-- What is known around pieces from `pos` up to `stop`: whether they are in a loop and where it ends,
whether they end with a choice, and that the continue point is not where an alternative ends. -/
structure Context (L : Placement) (inLoop tail : Bool) (exit : Addr) (frame : Option LoopFrame)
    (around point : Option Addr) (pos stop : Nat) : Prop where
  loop : inLoop = true → frame = some ⟨some exit⟩ ∧ L.addr stop < exit
  free : inLoop = false → frame = none ∧ point = none
  tailed : tail = true → ∃ j, j + 1 = stop ∧ around = some (L.addr j)
  inner : tail = false → ∀ a ∈ around, L.addr stop ≤ a
  clear : ∀ c ∈ point, c ≤ L.addr pos ∨ if tail then L.addr stop ≤ c else L.addr stop < c

/-- Pieces in front of others do not end together with what is around them. -/
theorem Context.front {mid : Nat} (h : Context L inLoop tail exit frame around point pos stop)
    (hmid : mid < stop) : Context L inLoop false exit frame around point pos mid := by
  have hlt : L.addr mid < L.addr stop := L.addr_lt_iff.mpr hmid
  refine ⟨fun hin => ⟨(h.loop hin).1, hlt.trans (h.loop hin).2⟩, h.free, nofun, fun _ a ha => ?_, ?_⟩
  · cases tail with
    | false => exact hlt.le.trans (h.inner rfl a ha)
    | true =>
        obtain ⟨j, hj, rfl⟩ := h.tailed rfl
        cases ha
        exact L.addr_le_iff.mpr (by omega)
  · refine fun c hc => (h.clear c hc).imp_right fun hb => ?_
    cases tail with
    | false => exact hlt.trans hb
    | true => exact hlt.trans_le hb

/-- Pieces that lie in another block, which does not end before them. -/
theorem Context.inside {lo : Nat} {around' : Option Addr}
    (h : Context L inLoop false exit frame around point pos stop) (hlo : pos ≤ lo)
    (haround : ∀ a ∈ around', L.addr stop ≤ a) :
    Context L inLoop false exit frame around' point lo stop :=
  ⟨h.loop, h.free, nofun, fun _ => haround, fun c hc =>
    (h.clear c hc).imp_left fun hle => hle.trans (L.addr_le_iff.mpr hlo)⟩

/-- Behind pieces more is known of the continue point. -/
theorem Context.rest {mid : Nat} {round : Option Nat}
    (h : Context L inLoop tail exit frame around point pos stop) (hmid : pos ≤ mid)
    (hround : ∀ r ∈ round, r ≤ mid ∨ tail = true ∧ r = stop) :
    Context L inLoop tail exit frame around (point.or (known L inLoop round)) mid stop := by
  refine ⟨h.loop, fun hfree => ⟨(h.free hfree).1, ?_⟩, h.tailed, h.inner, fun c hc => ?_⟩
  · rw [(h.free hfree).2, hfree]
    rfl
  · rcases Option.or_eq_some_iff.mp hc with hc | ⟨-, hc⟩
    · exact (h.clear c hc).imp_left fun hle => hle.trans (L.addr_le_iff.mpr hmid)
    · cases inLoop with
      | false => cases hc
      | true =>
          obtain ⟨r, hr, rfl⟩ := Option.map_eq_some_iff.mp hc
          rcases hround r hr with hle | ⟨rfl, rfl⟩
          · exact .inl (L.addr_le_iff.mpr hle)
          · exact .inr le_rfl

/-- The blocks of the piece get the classes and continue points that its outline tells. -/
def ClassifiesWell (L : Placement) (all : List Instruction) (last : Nat) (inLoop : Bool) (p : Piece) : Prop :=
  ∀ {tail : Bool} {exit : Addr} {frame : Option LoopFrame} {around point : Option Addr} {pos : Nat}
    (id : Nat), Context L inLoop tail exit frame around point pos (pos + p.size) →
    pos + p.size ≤ last →
    Block.classifyAll (Stream.after? all) frame around point (trees L false false tail exit id pos p) =
      (trees L true inLoop tail exit id pos p, point.or (known L inLoop (round? tail pos p)))

/-- Children are classified from the first to the last. -/
theorem classifyAll_append (exit : Addr → Option Addr) (bs cs : List Block) :
    Block.classifyAll exit frame around point (bs ++ cs) =
      ((Block.classifyAll exit frame around point bs).1 ++
        (Block.classifyAll exit frame around (Block.classifyAll exit frame around point bs).2 cs).1,
      (Block.classifyAll exit frame around (Block.classifyAll exit frame around point bs).2 cs).2) := by
  induction bs generalizing point with
  | nil => simp [Block.classifyAll]
  | cons b bs ih => simp [Block.classifyAll, ih]

/-- **Pieces that classify well one by one do so one after the other.** -/
theorem listClassifies {ps : List Piece} (hsound : ∀ p ∈ ps, Sound inLoop p)
    (h : ∀ p ∈ ps, ClassifiesWell L all last inLoop p) (id : Nat)
    (hctx : Context L inLoop tail exit frame around point pos (pos + listSize ps))
    (hlast : pos + listSize ps ≤ last) :
    Block.classifyAll (Stream.after? all) frame around point (listTrees L false false tail exit id pos ps) =
      (listTrees L true inLoop tail exit id pos ps,
        point.or (known L inLoop (listRound? tail pos ps))) := by
  induction ps generalizing id pos point with
  | nil => cases inLoop <;> simp [listTrees, listRound?, Block.classifyAll, known]
  | cons p ps ih =>
      obtain ⟨hp, hps⟩ := List.forall_mem_cons.mp h
      obtain ⟨hsp, hsps⟩ := List.forall_mem_cons.mp hsound
      rw [listSize_cons, ← Nat.add_assoc] at hctx hlast
      -- only the last piece ends together with what is around
      have hhead : Context L inLoop (tail && ps.isEmpty) exit frame around point pos (pos + p.size) := by
        cases ps with
        | nil => simpa using hctx
        | cons q qs =>
            have := (hsps q List.mem_cons_self).size_pos
            rw [listSize_cons] at hctx
            simpa using hctx.front (by omega)
      have hround : ∀ r ∈ round? (tail && ps.isEmpty) pos p, r ≤ pos + p.size ∨
          tail = true ∧ r = pos + p.size + listSize ps :=
        fun r hr => .inl (round?_bounds p _ _ r hr).2
      have hrest := ih hsps hps (id + p.count) (hctx.rest (Nat.le_add_right _ _) hround) hlast
      rw [listTrees, classifyAll_append, hp id hhead (by omega), hrest, listTrees, listRound?, known_or,
        Option.or_assoc]

theorem leave_of_mem_listJumps {ps : List Piece} (hsound : ∀ p ∈ ps, Sound inLoop p) :
    ∀ b ∈ listJumps L inLoop exit pos ps, b.kind = .leave := by
  cases inLoop with
  | false => simp [listJumps_eq_nil hsound]
  | true => exact kind_of_mem_listJumps ps pos

/-- The jumps that a conditional block owns besides the one at its end leave the loop. -/
theorem classify_listJumps {ps : List Piece} (around : Option Addr) (stop : Addr) (pos : Nat)
    (hsound : ∀ p ∈ ps, Sound inLoop p) (hframe : inLoop = true → frame = some ⟨some exit⟩) :
    (listJumps L false exit pos ps).map
        (fun b => { b with kind := b.classify .conditional stop around frame }) =
      listJumps L inLoop exit pos ps := by
  cases inLoop with
  | false => simp [listJumps_eq_nil hsound]
  | true =>
      refine map_listJumps (fun addr => ?_) ps pos
      simp [Branch.classify, hframe rfl]

/-- A conditional block with the jumps `bs`, the continue point being as known behind them. -/
theorem classify_conditional {after : Addr → Option Addr} {bs cs : List Branch} {start stop : Addr}
    {children : List Block}
    (hbs : bs.map (fun b => { b with kind := b.classify .conditional stop around frame }) = cs)
    (hcs : cs.map (·.settle (point.or (Block.firstRound? cs))) = cs) :
    Block.classify after frame around point ⟨id, .conditional, start, stop, bs, none, children⟩ =
      let inner := Block.classifyAll after frame (some stop) (point.or (Block.firstRound? cs)) children
      (⟨id, .conditional, start, stop, cs, none, inner.1⟩, inner.2) := by
  rw [Block.classify]
  · simp only [hbs, hcs, if_true]
  · nofun

/-- A choice classifies well if its body does. -/
theorem classifiesWell_choice {c : Node} {body : List Piece} (hsound : ∀ p ∈ body, Sound inLoop p)
    (ih : ∀ p ∈ body, ClassifiesWell L all last inLoop p) :
    ClassifiesWell L all last inLoop (choice c body) := by
  intro tail exit frame around point pos id hctx hlast
  rw [size_choice, ← Nat.add_assoc, ← Nat.add_assoc] at hctx hlast
  have hleave : ∀ b ∈ listJumps L inLoop exit (pos + testSize c + 1) body, b.kind = .leave :=
    leave_of_mem_listJumps hsound
  have hjumps := classify_listJumps (L := L) around (L.addr (pos + testSize c + listSize body))
    (pos + testSize c + 1) hsound (fun hin => (hctx.loop hin).1)
  have hround : Block.firstRound? (listJumps L inLoop exit (pos + testSize c + 1) body) = none := by
    rw [← List.append_nil (listJumps L inLoop exit _ body), firstRound?_append _ hleave]
    rfl
  have hinner : Context L inLoop true exit frame (some (L.addr (pos + testSize c + listSize body))) point
      (pos + testSize c + 1) (pos + testSize c + 1 + listSize body) := by
    refine ⟨hctx.loop, hctx.free, fun _ => ⟨_, by omega, rfl⟩, nofun, fun c' hc' => ?_⟩
    rcases hctx.clear c' hc' with hle | hge
    · exact .inl (hle.trans (L.addr_le_iff.mpr (by omega)))
    · refine .inr ?_
      cases tail with
      | false => exact Nat.le_of_lt hge
      | true => exact hge
  rw [trees, Block.classifyAll, classify_conditional hjumps (map_settle hleave), hround, Option.or_none,
    listClassifies hsound ih (id + 1) hinner hlast, trees, round?]
  rfl

/-- A loop does, as the loop around its body. -/
theorem classifiesWell_loop {c : Node} {body : List Piece} (hc : c.Normal)
    (hall : Stream.Covers L all last) (hsound : ∀ p ∈ body, Sound true p)
    (ih : ∀ p ∈ body, ClassifiesWell L all last true p) :
    ClassifiesWell L all last inLoop (loop body c) := by
  intro tail exit frame around point pos id hctx hlast
  rw [size_loop, ← Nat.add_assoc, ← Nat.add_assoc] at hlast
  generalize hback : pos + listSize body + testSize c = back at hlast
  have htest : 0 < testSize c := testSize_pos hc
  have hjumps : (listJumps L false (L.addr (back + 1)) pos body).map (fun b =>
      { b with kind := b.classify .loop (L.addr back) around (some ⟨some (L.addr (back + 1))⟩) }) =
      listJumps L true (L.addr (back + 1)) pos body := by
    refine map_listJumps (fun addr => ?_) body pos
    simp [Branch.classify]
  have hround : Block.firstRound? (listJumps L true (L.addr (back + 1)) pos body) = none := by
    rw [← List.append_nil (listJumps L true _ pos body), firstRound?_append _ (kind_of_mem_listJumps body pos)]
    rfl
  have hinner : Context L true false (L.addr (back + 1)) (some ⟨some (L.addr (back + 1))⟩) none none pos
      (pos + listSize body) :=
    ⟨fun _ => ⟨rfl, L.addr_lt_iff.mpr (by omega)⟩, nofun, nofun, fun _ _ h => (nomatch h),
      fun _ h => (nomatch h)⟩
  rw [trees, hback, Block.classifyAll, Block.classify, hall.after back (by omega)]
  simp only [hjumps, hround, listClassifies hsound ih id hinner (by omega)]
  rw [trees, hback, round?]
  cases inLoop <;> simp [Block.classifyAll, known]

/-- The class of the jump over an alternative, which is the last instruction of its block. -/
theorem classify_over {gap : Nat} (hctx : Context L inLoop tail exit frame around point pos stop) :
    Branch.classify .conditional (L.addr gap) around frame ⟨L.addr gap, L.addr stop, .alternative⟩ =
      if inLoop && tail then .nextRound else .alternative := by
  cases inLoop with
  | false => simp [Branch.classify, (hctx.free rfl).1]
  | true =>
      obtain ⟨hframe, hexit⟩ := hctx.loop rfl
      have hne : exit ≠ L.addr stop := Nat.ne_of_gt hexit
      cases tail with
      | true =>
          obtain ⟨j, hj, rfl⟩ := hctx.tailed rfl
          have : j < stop := by omega
          simp [Branch.classify, hframe, hne, this]
      | false =>
          have : around.any (· < L.addr stop) = false := by
            cases haround : around with
            | none => rfl
            | some a => simpa using hctx.inner rfl a haround
          simp [Branch.classify, hframe, hne, this]

/-- The jump over an alternative keeps its class. -/
theorem settle_over {gap : Nat} (hctx : Context L inLoop tail exit frame around point pos stop)
    (hpos : pos < stop) (kind : BranchKind) (hkind : kind = if inLoop && tail then .nextRound else .alternative) :
    Branch.settle (point.or (Block.firstRound? [⟨L.addr gap, L.addr stop, kind⟩]))
      ⟨L.addr gap, L.addr stop, kind⟩ = ⟨L.addr gap, L.addr stop, kind⟩ := by
  refine if_neg fun h => ?_
  obtain ⟨halt, hpoint⟩ := h
  obtain rfl : kind = .alternative := halt
  have hnone : Block.firstRound? [⟨L.addr gap, L.addr stop, .alternative⟩] = none := rfl
  rw [hnone, Option.or_none] at hpoint
  have hfree : ¬ (inLoop && tail) := by
    intro hin
    rw [if_pos hin] at hkind
    cases hkind
  -- a continue point is known in loops only, so the piece is not a tail
  cases inLoop with
  | false => rw [(hctx.free rfl).2] at hpoint; cases hpoint
  | true =>
      cases tail with
      | true => exact hfree rfl
      | false =>
          rcases hctx.clear _ hpoint with hle | hlt
          · exact absurd (L.addr_le_iff.mp hle) (by omega)
          · exact absurd hlt (Nat.lt_irrefl _)

/-- A choice with an alternative does, and its separating jump is the jump to the alternative's end. -/
theorem classifiesWell_choiceElse {c : Node} {body alternative : List Piece}
    (hsound : ∀ p ∈ body, Sound inLoop p) (hsound' : ∀ p ∈ alternative, Sound inLoop p)
    (ih : ∀ p ∈ body, ClassifiesWell L all last inLoop p)
    (ih' : ∀ p ∈ alternative, ClassifiesWell L all last inLoop p) :
    ClassifiesWell L all last inLoop (choiceElse c body alternative) := by
  intro tail exit frame around point pos id hctx hlast
  rw [size_choiceElse] at hctx hlast
  simp only [← Nat.add_assoc] at hctx hlast
  rw [trees, trees, round?, Bool.false_and, if_neg Bool.false_ne_true]
  generalize hover : pos + testSize c + 1 + listSize body = gap at hctx hlast ⊢
  generalize hstop : gap + 1 + listSize alternative = stop at hctx hlast ⊢
  generalize hkind : (if (inLoop && tail) = true then BranchKind.nextRound else .alternative) = kind
  let jump : Branch := ⟨L.addr gap, L.addr stop, kind⟩
  have hleave : ∀ b ∈ listJumps L inLoop exit (pos + testSize c + 1) body, b.kind = .leave :=
    leave_of_mem_listJumps hsound
  have hjumps := classify_listJumps (L := L) around (L.addr gap) (pos + testSize c + 1) hsound
    (fun hin => (hctx.loop hin).1)
  have hall : (listJumps L false exit (pos + testSize c + 1) body ++
      [(⟨L.addr gap, L.addr stop, .alternative⟩ : Branch)]).map
        (fun b => { b with kind := b.classify .conditional (L.addr gap) around frame }) =
      listJumps L inLoop exit (pos + testSize c + 1) body ++ [jump] := by
    rw [List.map_append, hjumps, List.map_singleton, classify_over hctx, hkind]
  have hround := firstRound?_append [jump] hleave
  -- the round that the jump itself begins, if it begins one
  have hfirst : Block.firstRound? [jump] = known L inLoop (if tail then some stop else none) := by
    simp only [jump, ← hkind]
    cases inLoop <;> cases tail <;> rfl
  have hsettled : (listJumps L inLoop exit (pos + testSize c + 1) body ++ [jump]).map (·.settle
      (point.or (Block.firstRound? (listJumps L inLoop exit (pos + testSize c + 1) body ++ [jump])))) =
      listJumps L inLoop exit (pos + testSize c + 1) body ++ [jump] := by
    rw [List.map_append, map_settle hleave, hround, List.map_singleton,
      settle_over hctx (by omega) kind hkind.symm]
  have hknown : Context L inLoop tail exit frame around
      (point.or (known L inLoop (if tail then some stop else none))) pos stop := hctx.rest le_rfl
    (by intro r hr; cases tail <;> cases hr; exact .inr ⟨rfl, rfl⟩)
  rw [Block.classifyAll, classify_conditional hall hsettled, hround, hfirst]
  generalize hpoint : point.or (known L inLoop (if tail then some stop else none)) = point' at hknown ⊢
  have hinner : Context L inLoop false exit frame (some (L.addr gap)) point' (pos + testSize c + 1)
      (pos + testSize c + 1 + listSize body) := by
    rw [hover]
    exact (hknown.front (by omega)).inside (by omega) fun a ha => (Option.some.inj ha).le
  have hbehind : Context L inLoop tail exit frame around
      (point'.or (known L inLoop (listRound? false (pos + testSize c + 1) body))) (gap + 1)
      (gap + 1 + listSize alternative) := by
    rw [hstop]
    exact hknown.rest (by omega) fun r hr => .inl ((listRound?_bounds body _ _ r hr).2.trans (by omega))
  simp only [listClassifies hsound ih (id + 1) hinner (by omega),
    listClassifies hsound' ih' (id + 1 + listCount body) hbehind (by omega), Prod.mk.injEq, true_and, jump]
  rw [← hpoint]
  cases tail with
  | false => cases inLoop <;> simp [known, Option.or_assoc, Option.map_or]
  | true => cases inLoop <;> cases point <;> simp [known]

/-- **Classification.**  Only a jump over an alternative that ends together with a choice inside a loop
is taken for something else. -/
theorem Sound.classifiesWell {p : Piece} (h : Sound inLoop p) (hall : Stream.Covers L all last) :
    ClassifiesWell L all last inLoop p := by
  induction h with
  | @plain inLoop =>
      intro tail exit frame around point pos id hctx hlast
      cases inLoop <;> simp [trees, round?, Block.classifyAll, known]
  | leave =>
      intro tail exit frame around point pos id hctx hlast
      simp [trees, round?, Block.classifyAll, known]
  | choice _ hbody ih => exact classifiesWell_choice hbody ih
  | choiceElse _ hbody _ halternative ih ih' => exact classifiesWell_choiceElse hbody halternative ih ih'
  | loop hc hbody ih => exact classifiesWell_loop hc hall hbody ih

end Classify

/-! ### Whole streams -/

/-- The block tree of pieces and a last statement. -/
def wholeTree (L : Placement) (init : List Piece) (n : Node) : Block where
  id := 0
  kind := .root
  start := L.addr 0
  stop := L.addr (listSize init + n.simpleCode.size - 1)
  branches := []
  continuePoint := none
  children := listTrees L true false false 0 1 0 init

/-- **Analysis** of compiled code finds the blocks and the jumps of its outline. -/
theorem blockTree_listInstrs {init : List Piece} {n : Node} (hinit : ∀ p ∈ init, Sound false p)
    (hn : n.Simple) : Stream.blockTree (listInstrs L 0 0 (init ++ [plain n])) = .ok (wholeTree L init n) := by
  have hsize := hn.size_pos
  have hall := covers_listInstrs (L := L) init hn
  have hctx : Context L false false 0 none none none 0 (0 + listSize init) :=
    ⟨nofun, fun _ => ⟨rfl, rfl⟩, nofun, fun _ _ h => (nomatch h), fun _ h => (nomatch h)⟩
  have hchildren := listClassifies hinit (fun p hp => (hinit p hp).classifiesWell hall) 1 hctx (by omega)
  rw [Stream.blockTree, nest_listInstrs hinit hn, root_listInstrs hn, listJumps_eq_nil hinit]
  show Except.ok (Block.classify _ none none none ⟨0, .root, _, _, [], none, [] ++ _⟩).1 = _
  rw [Block.classify, List.nil_append]
  · simp only [List.map_nil, Block.firstRound?, List.find?_nil, Option.map_none, Option.or_none,
      reduceCtorEq, if_false, hchildren]
    rfl
  · nofun

end Piece

end TorqueScript
