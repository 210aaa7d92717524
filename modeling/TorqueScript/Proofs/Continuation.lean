import TorqueScript.Proofs.Framing

/-!
# Going on behind complete statements

What stands in front of straight-line code is read in the same way whatever that code is, even where a
jump leads to its first instruction.  `Stream.Continues` compares two streams with the same front: one ends
with a single instruction, the other goes on at the same address with code whose jumps stay inside it.

* `Stream.Continues.blocks_eq`: both have the same blocks.
* `Stream.Continues.nest_eq` and `Stream.Continues.blockTree_eq`: their trees are the same up to the end of
  the root.  A scan closes no root, so it does the same with a root that ends later (`Nesting.Stretched`).
-/

namespace TorqueScript

namespace Stream

/-- The jumps of the code are those of `&&` and `||`, and they lead to instructions of the code. -/
def Closed (code : List Instruction) : Prop :=
  ∀ ins ∈ code, ∀ kind target, ins.jump? = some (kind, target) → kind.isShortCircuit ∧ Occurs code target

/-- Behind `front` stands `x` in one stream, and `y` with code behind it in the other. -/
structure Continues (front : List Instruction) (x y : Instruction) (code : List Instruction) : Prop where
  increasing : Increasing (front ++ y :: code)
  addr_eq : x.addr = y.addr
  plain : x.jump? = none
  closed : Closed (y :: code)

variable {front code : List Instruction} {x y : Instruction} {a : Addr}

/-! ### Positions and blocks -/

/-- The last position of an address is looked for in the second list first. -/
theorem lastIndex?_append (xs ys : List Instruction) :
    lastIndex? a (xs ++ ys) = ((lastIndex? a ys).map (xs.length + ·)).or (lastIndex? a xs) := by
  induction xs with
  | nil => simp [lastIndex?]
  | cons ins xs ih =>
      rw [List.cons_append, lastIndex?, ih, lastIndex?]
      cases lastIndex? a ys with
      | none => rfl
      | some i => simp [Nat.add_right_comm]

/-- A position that is found is one of the stream. -/
theorem lastIndex?_lt {instrs : List Instruction} {i : Nat} (h : lastIndex? a instrs = some i) :
    i < instrs.length := by
  obtain ⟨ins, hi, -⟩ := getElem?_lastIndex? h
  exact Region.lt_length hi

theorem last_concat (front : List Instruction) (x : Instruction) : last (front ++ [x]) = x.addr := by
  simp [last]

namespace Continues

variable (h : Continues front x y code)

include h

/-- What stands before the probe comes before it. -/
theorem front_lt {ins : Instruction} (hins : ins ∈ front) : ins.addr < x.addr := by
  rw [h.addr_eq]
  exact (List.pairwise_append.mp h.increasing).2.2 ins hins y List.mem_cons_self

/-- What is appended comes behind it. -/
theorem code_gt {ins : Instruction} (hins : ins ∈ code) : x.addr < ins.addr := by
  rw [h.addr_eq]
  exact (List.pairwise_cons.mp (List.pairwise_append.mp h.increasing).2.1).1 ins hins

/-- The stream up to the probe is increasing. -/
theorem increasing_probe : Increasing (front ++ [x]) := by
  refine List.pairwise_append.mpr ⟨(List.pairwise_append.mp h.increasing).1, List.pairwise_singleton _ _, ?_⟩
  intro ins hins ins' hins'
  rw [List.mem_singleton.mp hins']
  exact h.front_lt hins

/-- Both streams start alike. -/
theorem first_eq : first (front ++ y :: code) = first (front ++ [x]) := by
  cases front with
  | nil => exact h.addr_eq.symm
  | cons ins front => rfl

/-- Up to the last instruction of the one stream, positions are the same in both. -/
theorem lastIndex?_eq (ha : a ≤ x.addr) : lastIndex? a (front ++ y :: code) = lastIndex? a (front ++ [x]) := by
  have hcode : lastIndex? a code = none := by
    rw [← Option.not_isSome_iff_eq_none, isSome_lastIndex?]
    rintro ⟨ins, hins, rfl⟩
    exact Nat.not_le.mpr (h.code_gt hins) ha
  rw [lastIndex?_append, lastIndex?_append, lastIndex?, hcode, lastIndex?, lastIndex?, h.addr_eq]

/-- Up to the probe the address before another is the same in both. -/
theorem before?_eq (ha : a ≤ x.addr) : before? (front ++ y :: code) a = before? (front ++ [x]) a := by
  rw [before?, before?, h.lastIndex?_eq ha]
  cases hi : lastIndex? a (front ++ [x]) with
  | none => rfl
  | some i =>
      cases i with
      | zero => rfl
      | succ i =>
          have hlt : i < front.length := by simpa using lastIndex?_lt hi
          simp only [List.getElem?_append_left hlt]

/-- Before the probe the address behind another is the same in both. -/
theorem after?_eq (ha : a < x.addr) : after? (front ++ y :: code) a = after? (front ++ [x]) a := by
  rw [after?, after?, h.lastIndex?_eq ha.le]
  cases hi : lastIndex? a (front ++ [x]) with
  | none => rfl
  | some i =>
      obtain ⟨ins, hget, haddr⟩ := getElem?_lastIndex? hi
      have hlt : i < front.length := by
        have hx : (front ++ [x])[front.length]? = some x := by simp
        exact h.increasing_probe.lt_of_addr_lt hget hx (haddr.trans_lt ha)
      -- behind the front both go on at the same address
      rcases Nat.lt_or_eq_of_le hlt with hlt | heq
      · simp only [List.getElem?_append_left hlt]
      · have hnext : ∀ z rest, (front ++ z :: rest)[i + 1]? = some z := by
          intro z rest
          rw [show i + 1 = front.length from heq]
          simp
        simp only [hnext, Option.map_some, h.addr_eq]

end Continues

/-- Blocks depend on where the jumps lead, not on the stream they are looked up in. -/
theorem blocksFrom_congr {instrs instrs' : List Instruction} {rest : List Instruction}
    (h : ∀ ins ∈ rest, ∀ kind target, ins.jump? = some (kind, target) →
      lastIndex? target instrs = lastIndex? target instrs' ∧ before? instrs target = before? instrs' target)
    (id : Nat) : blocksFrom instrs id rest = blocksFrom instrs' id rest := by
  induction rest generalizing id with
  | nil => rfl
  | cons ins rest ih =>
      obtain ⟨hins, hrest⟩ := List.forall_mem_cons.mp h
      have ih := ih hrest
      rw [blocksFrom, blocksFrom]
      cases hjump : ins.jump? with
      | none => exact ih id
      | some jump =>
          obtain ⟨kind, target⟩ := jump
          obtain ⟨hindex, hbefore⟩ := hins kind target hjump
          have hblock : blockOfJump? instrs id ins.addr kind target =
              blockOfJump? instrs' id ins.addr kind target := by
            rw [blockOfJump?, blockOfJump?, hbefore]
          simp only [hindex, hblock, ih]

/-- Closed code adds no blocks. -/
theorem blocksFrom_append_closed {instrs : List Instruction} (hclosed : Closed code) (hcode : code ⊆ instrs)
    (rest : List Instruction) (id : Nat) : blocksFrom instrs id (rest ++ code) = blocksFrom instrs id rest := by
  have hnone : ∀ (tail : List Instruction), tail ⊆ code → ∀ id, blocksFrom instrs id tail = .ok [] := by
    intro tail
    induction tail with
    | nil => intro _ _; rfl
    | cons ins tail ih =>
        intro htail id
        obtain ⟨hins, htail⟩ := List.cons_subset.mp htail
        rw [blocksFrom]
        cases hjump : ins.jump? with
        | none => exact ih htail id
        | some jump =>
            obtain ⟨kind, target⟩ := jump
            obtain ⟨hkind, z, hz, hzaddr⟩ := hclosed ins hins kind target hjump
            have hsome := isSome_lastIndex?.mpr ⟨z, hcode hz, hzaddr⟩
            have hmakes : kind.makesBlock = false := by simp [JumpKind.makesBlock, hkind]
            have hnone : ¬ (lastIndex? target instrs).isNone := by
              rw [← Option.not_isSome, hsome]
              decide
            dsimp only
            rw [if_neg hnone, blockOfJump?_eq_none hmakes]
            exact ih htail id
  induction rest generalizing id with
  | nil => exact hnone code (List.Subset.refl code) id
  | cons ins rest ih => rw [List.cons_append, blocksFrom, blocksFrom, ih, ih]

/-- The jumps of a stream with blocks lead to instructions. -/
theorem lands_of_blocks {instrs : List Instruction} {made : List Block} (h : blocks instrs = .ok made) :
    ∀ ins ∈ instrs, Lands instrs ins := by
  by_contra hstray
  obtain ⟨front, ins, back, heq, hfront, kind, target, hjump, hstray⟩ := exists_first_stray hstray
  have herror := blocksFrom_eq_error hfront hjump hstray back 1
  rw [← heq, ← blocks, h] at herror
  cases herror

/-- A jump in the first stream leads no further than the probe. -/
theorem Continues.target_le (h : Continues front x y code) {made : List Block}
    (hmade : blocks (front ++ [x]) = .ok made) {ins : Instruction} (hins : ins ∈ front) {kind : JumpKind}
    {target : Addr} (hjump : ins.jump? = some (kind, target)) : target ≤ x.addr := by
  have hland := lands_of_blocks hmade ins (List.mem_append_left _ hins) kind target hjump
  exact (h.increasing_probe.le_last hland).trans_eq (last_concat front x)

/-- **The blocks are the same.** -/
theorem Continues.blocks_eq (h : Continues front x y code) {made : List Block}
    (hmade : blocks (front ++ [x]) = .ok made) : blocks (front ++ y :: code) = .ok made := by
  have hx : Closed [x] := by
    intro ins hins kind target hjump
    rw [List.mem_singleton.mp hins, h.plain] at hjump
    cases hjump
  have hcongr : blocksFrom (front ++ y :: code) 1 front = blocksFrom (front ++ [x]) 1 front := by
    refine blocksFrom_congr (fun ins hins kind target hjump => ?_) 1
    have hle := h.target_le hmade hins hjump
    exact ⟨h.lastIndex?_eq hle, h.before?_eq hle⟩
  rw [blocks, blocksFrom_append_closed h.closed (List.subset_append_right _ _), hcongr,
    ← blocksFrom_append_closed hx (List.subset_append_right _ _)]
  exact hmade

end Stream

/-! ### The scan -/

namespace Nesting

/-- The open blocks of two scans are the same, but the root ends at `stop` in the second one. -/
inductive Stretched (stop : Addr) : Block → List Block → Block → List Block → Prop where
  | root {b : Block} (hle : b.stop ≤ stop) : Stretched stop b [] { b with stop } []
  | inner {top parent parent' : Block} {outer outer' : List Block}
      (h : Stretched stop parent outer parent' outer') :
      Stretched stop top (parent :: outer) top (parent' :: outer')

namespace Stretched

variable {stop a : Addr} {top top' : Block} {outer outer' pending : List Block}

/-- What is put into the innermost block does not change its end. -/
theorem update {f : Block → Block} (hstop : ∀ b, (f b).stop = b.stop)
    (hf : ∀ b stop, f { b with stop } = { f b with stop }) (h : Stretched stop top outer top' outer') :
    Stretched stop (f top) outer (f top') outer' := by
  cases h with
  | root hle =>
      rw [hf]
      exact .root ((hstop top).trans_le hle)
  | inner h => exact .inner h

/-- A stretched block ends no earlier. -/
theorem stop_le (h : Stretched stop top outer top' outer') : top.stop ≤ top'.stop := by
  cases h with
  | root hle => exact hle
  | inner => exact le_rfl

/-- **Closing blocks keeps the outer ones stretched.** -/
theorem closeBefore (h : Stretched stop top outer top' outer') (a : Addr) :
    Stretched stop (closeBefore a top outer).1 (closeBefore a top outer).2 (closeBefore a top' outer').1
      (closeBefore a top' outer').2 := by
  induction outer generalizing top top' outer' with
  | nil =>
      cases h with
      | root hle => exact .root hle
  | cons parent outer ih =>
      cases h with
      | inner h =>
          rw [Nesting.closeBefore, Nesting.closeBefore]
          split
          · exact ih (h.update (f := (·.adopt top)) (fun _ => rfl) (fun _ _ => rfl))
          · exact .inner h

/-- So does opening a block. -/
theorem openAt {n : Nesting} (h : Stretched stop top outer top' outer')
    (hn : Nesting.openAt a top outer pending = .ok n) :
    ∃ n', Nesting.openAt a top' outer' pending = .ok n' ∧ n'.pending = n.pending ∧
      Stretched stop n.top n.outer n'.top n'.outer := by
  induction pending generalizing top outer top' outer' with
  | nil =>
      cases hn
      exact ⟨_, rfl, rfl, h⟩
  | cons next pending ih =>
      rw [Nesting.openAt] at hn ⊢
      split at hn
      · next hstart =>
          cases hn
          rw [if_pos hstart]
          exact ⟨_, rfl, rfl, h⟩
      · next hstart =>
          rw [if_neg hstart]
          split at hn
          · cases hn
          · next hlt =>
              rw [if_neg (mt h.stop_le.trans_lt hlt)]
              exact ih (.inner h) hn

end Stretched

/-- Two scans that do the same, but the root ends at `stop` in the second one. -/
def StretchedTo (stop : Addr) (n m : Nesting) : Prop :=
  m.pending = n.pending ∧ Stretched stop n.top n.outer m.top m.outer

/-- **A step keeps the root stretched.** -/
theorem StretchedTo.step {stop : Addr} {n n' m : Nesting} {ins : Instruction} (h : StretchedTo stop n m)
    (hn : n.step ins = .ok n') : ∃ m', m.step ins = .ok m' ∧ StretchedTo stop n' m' := by
  obtain ⟨hpending, hopen⟩ := h
  rw [step_eq, enter] at hn
  rw [step_eq, enter, hpending]
  cases hk : openAt ins.addr (closeBefore ins.addr n.top n.outer).1 (closeBefore ins.addr n.top n.outer).2
      n.pending with
  | error e =>
      rw [hk] at hn
      cases hn
  | ok k =>
      rw [hk] at hn
      cases hn
      obtain ⟨k', hk', hpending', hopen'⟩ := (hopen.closeBefore ins.addr).openAt hk
      rw [hk']
      refine ⟨_, rfl, ?_⟩
      unfold record
      split
      · exact ⟨hpending', hopen'.update (f := (·.own _)) (fun _ => rfl) (fun _ _ => rfl)⟩
      · exact ⟨hpending', hopen'⟩

/-- So does a scan. -/
theorem StretchedTo.scan {stop : Addr} {n n' m : Nesting} {instrs : List Instruction} (h : StretchedTo stop n m)
    (hn : n.scan instrs = .ok n') : ∃ m', m.scan instrs = .ok m' ∧ StretchedTo stop n' m' := by
  induction instrs generalizing n m with
  | nil =>
      cases hn
      exact ⟨m, rfl, h⟩
  | cons ins instrs ih =>
      rw [Nesting.scan] at hn
      cases hstep : n.step ins with
      | error e =>
          rw [hstep] at hn
          cases hn
      | ok k =>
          rw [hstep] at hn
          obtain ⟨k', hk', hstretched⟩ := h.step hstep
          rw [Nesting.scan, hk']
          exact ih hstretched hn

/-- What is closed at an address is closed later on. -/
theorem closeBefore_of_le {a b : Addr} (hab : a ≤ b) {top tree : Block} {outer : List Block}
    (h : closeBefore a top outer = (tree, [])) : closeBefore b top outer = (tree, []) := by
  induction outer generalizing top with
  | nil => exact h
  | cons parent outer ih =>
      rw [closeBefore] at h ⊢
      split at h
      · next hlt =>
          rw [if_pos (hlt.trans_le hab)]
          exact ih h
      · cases h

/-- When all blocks are opened and end before `a`, closed code from `a` on adds nothing. -/
theorem finish_scan_closed {n : Nesting} {a last : Addr} {tree : Block} {code : List Instruction}
    (hpending : n.pending = []) (hclose : closeBefore a n.top n.outer = (tree, []))
    (hjump : ∀ ins ∈ code, ∀ target, ins.jump? ≠ some (.always, target)) (hcode : ∀ ins ∈ code, a ≤ ins.addr)
    (hlast : a ≤ last + 1) : (n.scan code >>= fun m => m.finish last) = .ok tree := by
  induction code generalizing n with
  | nil =>
      show n.finish last = _
      rw [finish, closeBefore_of_le hlast hclose, hpending]
      rfl
  | cons ins code ih =>
      obtain ⟨hins, hcode⟩ := List.forall_mem_cons.mp hcode
      obtain ⟨hfirst, hjump⟩ := List.forall_mem_cons.mp hjump
      have hstep : n.step ins = .ok ⟨tree, [], []⟩ := by
        rw [step_eq, enter, closeBefore_of_le hins hclose, hpending, openAt]
        exact congrArg Except.ok (record_of_jump hfirst)
      rw [scan, hstep]
      exact ih rfl rfl hjump hcode

/-- When nothing is left open, the last block of the stack is the tree. -/
theorem finish_eq_ok {n : Nesting} {last : Addr} {tree : Block} (h : n.finish last = .ok tree) :
    n.pending = [] ∧ closeBefore (last + 1) n.top n.outer = (tree, []) := by
  rw [finish] at h
  dsimp only at h
  split at h
  · next hempty =>
      simp only [Bool.and_eq_true, List.isEmpty_iff] at hempty
      cases h
      exact ⟨hempty.2, Prod.ext rfl hempty.1⟩
  · cases h

/-- To the scan, instructions at one address that are no unconditional jumps are the same. -/
theorem scan_concat_congr {x y : Instruction} (haddr : x.addr = y.addr)
    (hx : ∀ target, x.jump? ≠ some (.always, target)) (hy : ∀ target, y.jump? ≠ some (.always, target))
    (n : Nesting) (front : List Instruction) : n.scan (front ++ [x]) = n.scan (front ++ [y]) := by
  induction front generalizing n with
  | nil =>
      have hstep : n.step x = n.step y := by
        rw [step_eq, step_eq, haddr]
        simp only [record_of_jump hx, record_of_jump hy]
      rw [List.nil_append, List.nil_append, scan, scan, hstep]
  | cons ins front ih => simp only [List.cons_append, scan, ih]

end Nesting

namespace Block

/-! ### Classes -/

/-- The classes of jumps depend on the addresses behind loops only. -/
theorem classify_congr {exit exit' : Addr → Option Addr} (b : Block)
    (h : ∀ c ∈ b.preorder, c.kind = .loop → exit c.stop = exit' c.stop) (frame : Option LoopFrame)
    (around point : Option Addr) : b.classify exit frame around point = b.classify exit' frame around point := by
  induction b using childrenInduction generalizing frame around point with
  | h b ih =>
      have hchildren : ∀ frame around point, classifyAll exit frame around point b.children =
          classifyAll exit' frame around point b.children := by
        have hall : ∀ c ∈ b.children, ∀ frame around point,
            c.classify exit frame around point = c.classify exit' frame around point :=
          fun c hc => ih c hc fun d hd => h d (mem_preorder.mpr (.inr ⟨c, hc, hd⟩))
        generalize b.children = cs at hall
        induction cs with
        | nil => intro frame around point; rfl
        | cons c cs ihs =>
            intro frame around point
            obtain ⟨hc, hcs⟩ := List.forall_mem_cons.mp hall
            simp only [classifyAll, hc, ihs hcs]
      have hself := h b b.self_mem_preorder
      obtain ⟨id, kind, start, stop, branches, continuePoint, children⟩ := b
      cases kind with
      | loop =>
          rw [classify, classify, hself rfl]
          simp only [hchildren]
      | root | conditional =>
          rw [classify, classify]
          · simp only [hchildren]
          · exact BlockKind.noConfusion
          · exact BlockKind.noConfusion

/-- The end of the root plays no part. -/
theorem classify_stretch {b : Block} (hkind : b.kind = .root) (exit : Addr → Option Addr) (stop : Addr) :
    (classify exit none none none { b with stop }).1 = { (b.classify exit none none none).1 with stop } := by
  obtain ⟨id, kind, start, stop', branches, continuePoint, children⟩ := b
  obtain rfl : kind = .root := hkind
  rfl

end Block

namespace Stream

variable {front code : List Instruction} {x y : Instruction} {a : Addr}

/-- Appended code holds no jump. -/
theorem Closed.ne_always (h : Closed code) {ins : Instruction} (hins : ins ∈ code) (target : Addr) :
    ins.jump? ≠ some (.always, target) :=
  fun hjump => absurd (h ins hins .always target hjump).1 (by decide)

/-- A stream that nests has blocks, and a scan of them that finishes. -/
theorem nest_eq_ok {instrs : List Instruction} {tree : Block} (h : nest instrs = .ok tree) :
    ∃ made n, blocks instrs = .ok made ∧ (Nesting.start (root instrs) made).scan instrs = .ok n ∧
      n.finish (last instrs) = .ok tree := by
  rw [nest] at h
  cases hmade : blocks instrs with
  | error e =>
      rw [hmade] at h
      cases h
  | ok made =>
      rw [hmade] at h
      change (Nesting.scan _ _ >>= fun n => n.finish _) = _ at h
      cases hscan : (Nesting.start (root instrs) made).scan instrs with
      | error e =>
          rw [hscan] at h
          cases h
      | ok n =>
          rw [hscan] at h
          exact ⟨made, n, rfl, hscan, h⟩

namespace Continues

variable (h : Continues front x y code)

include h

/-- **The blocks are nested in the same way.** -/
theorem nest_eq {tree : Block} (htree : nest (front ++ [x]) = .ok tree) :
    nest (front ++ y :: code) = .ok { tree with stop := last (front ++ y :: code) } := by
  obtain ⟨made, n, hmade, hscan, hfinish⟩ := nest_eq_ok htree
  obtain ⟨hpending, hclose⟩ := Nesting.finish_eq_ok hfinish
  rw [last_concat] at hclose
  have hx : ∀ target, x.jump? ≠ some (.always, target) := by
    rw [h.plain]
    exact fun target => nofun
  rw [Nesting.scan_concat_congr h.addr_eq hx (h.closed.ne_always List.mem_cons_self)] at hscan
  -- up to `y` only the roots differ
  have hlast : x.addr ≤ last (front ++ y :: code) := h.increasing.le_last ⟨y, by simp, h.addr_eq.symm⟩
  have hstart : Nesting.StretchedTo (last (front ++ y :: code))
      (Nesting.start (root (front ++ [x])) made) (Nesting.start (root (front ++ y :: code)) made) := by
    rw [root, root, h.first_eq]
    exact ⟨rfl, .root ((last_concat front x).trans_le hlast)⟩
  obtain ⟨m, hm, hpending', hopen⟩ := hstart.scan hscan
  have hclosed := hopen.closeBefore (x.addr + 1)
  rw [hclose] at hclosed
  -- behind `y` all blocks are closed
  have hclose' : Nesting.closeBefore (x.addr + 1) m.top m.outer =
      ({ tree with stop := last (front ++ y :: code) }, []) := by
    generalize Nesting.closeBefore (x.addr + 1) m.top m.outer = closed at hclosed
    obtain ⟨top, outer⟩ := closed
    cases hclosed with
    | root => rfl
  have hrun : (Nesting.start (root (front ++ y :: code)) made).scan (front ++ y :: code) = m.scan code := by
    rw [List.append_cons front y code] at hm ⊢
    exact Nesting.scan_append hm
  rw [nest, h.blocks_eq hmade]
  change (Nesting.scan _ _ >>= fun n => n.finish _) = _
  rw [hrun]
  exact Nesting.finish_scan_closed (hpending'.trans hpending) hclose'
    (fun ins hins => h.closed.ne_always (List.mem_cons_of_mem _ hins)) (fun ins hins => h.code_gt hins)
    (Nat.succ_le_succ hlast)

/-- A block that a jump of the shorter stream makes ends in the front. -/
theorem stop_lt_of_made {ins : Instruction} (hins : ins ∈ front ++ [x]) {kind : BlockKind} {start stop : Addr}
    (hmade : MakesBlock (front ++ [x]) ins kind start stop) : stop < x.addr := by
  cases hmade with
  | loop hjump _ _ =>
      rcases List.mem_append.mp hins with hins | hins
      · exact h.front_lt hins
      · rw [List.mem_singleton.mp hins, h.plain] at hjump
        cases hjump
  | conditional _ _ _ hstop =>
      refine (h.increasing_probe.lt_of_neighbours hstop).trans_le ?_
      obtain ⟨before, z, z', after, heq, -, rfl⟩ := hstop
      exact (h.increasing_probe.le_last ⟨z', by simp [heq], rfl⟩).trans_eq (last_concat front x)

/-- **The block trees are the same**, up to the end of the root. -/
theorem blockTree_eq {tree : Block} (htree : blockTree (front ++ [x]) = .ok tree) :
    blockTree (front ++ y :: code) = .ok { tree with stop := last (front ++ y :: code) } := by
  obtain ⟨made, nested, -, hseeds, hnest, hassembles, rfl⟩ := assembles_of_blockTree h.increasing_probe htree
  have hexit : ∀ b ∈ nested.preorder, b.kind = .loop →
      after? (front ++ y :: code) b.stop = after? (front ++ [x]) b.stop := by
    intro b hb hkind
    have hmem : b.bare ∈ root (front ++ [x]) :: made :=
      hassembles.blocks_perm.mem_iff.mp (List.mem_map_of_mem hb)
    rcases List.mem_cons.mp hmem with heq | hmem
    · have hroot : b.kind = .root := congrArg (·.kind) heq
      cases hkind.symm.trans hroot
    · obtain ⟨ins, hins, hmade⟩ := hseeds.made b.bare hmem
      exact h.after?_eq (h.stop_lt_of_made hins hmade)
  have hkind : nested.kind = .root := congrArg Block.kind hassembles.bare_eq
  rw [blockTree_of_nest_ok (h.nest_eq hnest), Block.classify_stretch hkind, Block.classify_congr nested hexit]

end Continues

end Stream

end TorqueScript
