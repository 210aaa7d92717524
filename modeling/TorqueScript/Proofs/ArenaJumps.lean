import TorqueScript.Proofs.Arena
import TorqueScript.Proofs.ContinuePoints

/-!
# Classes of the jumps of a block in an arena

Classifying jumps in an arena (`Arena.classify`) goes from block to block by their numbers.  The nearest loop
around a block is found by going from parent to parent, a jump is looked up by its address among those of its
block, and the first jump to the next round is written down in the record of the loop at once.

`Arena.Changes` says what a computation writes into the records.  What the jumps of one block write is what
classifying them together says (`Arena.ownJumps_changes`).
-/

namespace TorqueScript

namespace Branch

/-- Changes the class of the jump at an address. -/
def setKind (addr : Addr) (kind : BranchKind) (bs : List Branch) : List Branch :=
  bs.map fun b => if b.addr = addr then { b with kind } else b

/-- The jump with the class that its block and the nearest loop give it. -/
def judge (kind : BlockKind) (stop : Addr) (aroundStop : Option Addr) (frame : Option LoopFrame) (b : Branch) :
    Branch :=
  { b with kind := b.classify kind stop aroundStop frame }

end Branch

namespace Arena

/-- Does something for each number, in their order. -/
def each (f : Nat → Arena Unit) : List Nat → Arena Unit
  | [] => pure ()
  | i :: is => do
    f i
    each f is

/-- The nearest loop from a block on outwards. -/
def loopFrom : Nat → Option Nat → Arena (Option Nat)
  | 0, _ => Checked.slip .outOfSteps
  | _ + 1, none => pure none
  | steps + 1, some id => do
    let r ← fetch id
    if r.kind = .loop then pure (some id) else loopFrom steps r.parent

/-- The end of a block if it is conditional. -/
def stopAround : Option Nat → Arena (Option Addr)
  | none => pure none
  | some id => do
    let r ← fetch id
    pure (if r.kind = .conditional then some r.stop else none)

/-- What the class of a jump depends on of the nearest loop. -/
def frameOf (exit : Addr → Option Addr) : Option Nat → Arena (Option LoopFrame)
  | none => pure none
  | some id => do
    let r ← fetch id
    pure (some ⟨exit r.stop⟩)

/-- The jump of a block at an address. -/
def jumpAt (id : Nat) (addr : Addr) : Arena Branch := do
  let r ← fetch id
  match Branch.find? addr r.branches with
  | some b => pure b
  | none => Checked.slip .outOfRange

/-- Writes down where the next round of a loop begins, if that is not known yet. -/
def note (target : Addr) : Option Nat → Arena Unit
  | none => pure ()
  | some id => update id fun r => { r with continuePoint := r.continuePoint.or (some target) }

/-- Classifies the jump of a block at an address. -/
def classifyJump (exit : Addr → Option Addr) (id : Nat) (kind : BlockKind) (stop : Addr) (aroundStop : Option Addr)
    (owner : Option Nat) (addr : Addr) : Arena Unit := do
  let b ← jumpAt id addr
  let frame ← frameOf exit owner
  let found := b.classify kind stop aroundStop frame
  update id fun r => { r with branches := Branch.setKind addr found r.branches }
  if found = .nextRound then note b.target owner else pure ()

/-- Counts jumps to the continue point of the nearest loop among those to its next round. -/
def settle (id : Nat) : Option Nat → Arena Unit
  | none => pure ()
  | some owner => do
    let r ← fetch owner
    update id fun s => { s with branches := s.branches.map (·.settle r.continuePoint) }

/-- Classifies the jumps of a block, and visits the blocks inside it. -/
def classifyInside (visit : Nat → Arena Unit) (exit : Addr → Option Addr) (id : Nat) (r : BlockRecord)
    (aroundStop : Option Addr) (owner : Option Nat) : Arena Unit := do
  each (classifyJump exit id r.kind r.stop aroundStop owner) (r.branches.map (·.addr))
  settle id owner
  let r ← fetch id
  each visit r.children

/-- Classifies the jumps of a block and of the blocks inside it. -/
def classify (exit : Addr → Option Addr) : Nat → Nat → Arena Unit
  | 0, _ => Checked.slip .outOfSteps
  | steps + 1, id => do
    let r ← fetch id
    let aroundStop ← stopAround r.parent
    let owner ← if r.kind = .loop then pure (some id) else loopFrom steps r.parent
    classifyInside (classify exit steps) exit id r aroundStop owner

/-! ### What is written -/

/-- The computation changes each record as told. -/
def Changes (x : Arena Unit) (records : List BlockRecord) (f : Nat → BlockRecord → BlockRecord) : Prop :=
  ∃ records', x records = pure ((), records') ∧ ∀ k, records'[k]? = records[k]?.map (f k)

namespace Changes

variable {x y : Arena Unit} {records : List BlockRecord} {f g : Nat → BlockRecord → BlockRecord}

theorem pure (records : List BlockRecord) : Changes (Pure.pure ()) records fun _ r => r :=
  ⟨records, rfl, fun k => by rw [Option.map_id']⟩

theorem congr (h : Changes x records f) (hfg : ∀ k r, records[k]? = some r → f k r = g k r) :
    Changes x records g := by
  obtain ⟨records', hx, hget⟩ := h
  refine ⟨records', hx, fun k => (hget k).trans ?_⟩
  cases hk : records[k]? with
  | none => rfl
  | some r => rw [Option.map_some, Option.map_some, hfg k r hk]

/-- What is changed twice is changed one after the other. -/
theorem bind (hx : Changes x records f)
    (hy : ∀ records', (∀ k, records'[k]? = records[k]?.map (f k)) → Changes y records' g) :
    Changes (x >>= fun _ => y) records fun k r => g k (f k r) := by
  obtain ⟨records', hx, hget⟩ := hx
  obtain ⟨records'', hy, hget'⟩ := hy records' hget
  refine ⟨records'', ?_, fun k => ?_⟩
  · rw [bind_apply, hx, pure_bind]
    exact hy
  · rw [hget', hget, Option.map_map]
    rfl

/-- An update changes the record of its block. -/
theorem update {id : Nat} {r : BlockRecord} (h : records[id]? = some r) (f : BlockRecord → BlockRecord) :
    Changes (update id f) records fun k r => if k = id then f r else r := by
  refine ⟨_, update_eq h f, fun k => ?_⟩
  by_cases hk : k = id
  · subst hk
    simp only [if_true]
    rw [List.getElem?_set_self (List.getElem?_eq_some_iff.mp h).1, h, Option.map_some]
  · simp only [if_neg hk]
    rw [List.getElem?_set_ne (Ne.symm hk), Option.map_id']

/-- What is only read changes nothing. -/
theorem read {α : Type} {x : Arena α} {f : α → Arena Unit} {records : List BlockRecord} {a : α}
    {g : Nat → BlockRecord → BlockRecord} (hx : x records = Pure.pure (a, records)) (hf : Changes (f a) records g) :
    Changes (x >>= f) records g := by
  obtain ⟨records', hf, hget⟩ := hf
  refine ⟨records', ?_, hget⟩
  rw [bind_apply, hx, pure_bind]
  exact hf

end Changes

/-! ### The jumps of one block -/

section Jumps

open Block (firstRound?)

variable {exit : Addr → Option Addr} {records records' : List BlockRecord} {id : Nat} {r : BlockRecord}
  {owner : Option Nat} {frame : Option LoopFrame} {point p : Option Addr} {kind : BlockKind} {stop : Addr}
  {aroundStop : Option Addr} {b : Branch} {pre bs branches : List Branch}

/-- The nearest loop, what it tells about jumps, and its continue point as known so far. -/
inductive Serves (exit : Addr → Option Addr) (records : List BlockRecord) :
    Option Nat → Option LoopFrame → Option Addr → Prop where
  | nowhere : Serves exit records none none none
  | loop {id : Nat} {r : BlockRecord} (h : records[id]? = some r) :
      Serves exit records (some id) (some ⟨exit r.stop⟩) r.continuePoint

/-- The record of a block gets new jumps, and that of the nearest loop a continue point, if it has none. -/
def written (id : Nat) (owner : Option Nat) (branches : List Branch) (point : Option Addr) (k : Nat)
    (r : BlockRecord) : BlockRecord :=
  { r with
    branches := if k = id then branches else r.branches
    continuePoint := if owner = some k then r.continuePoint.or point else r.continuePoint }

/-- What is written twice is as the second time, with the first continue point. -/
theorem written_written (branches' : List Branch) (k : Nat) (r : BlockRecord) :
    written id owner branches' p k (written id owner branches point k r) =
      written id owner branches' (point.or p) k r := by
  unfold written
  split <;> split <;> simp [Option.or_assoc]

/-- A frame serves after writing as before. -/
theorem Serves.written (h : Serves exit records owner frame point)
    (hget : ∀ k, records'[k]? = records[k]?.map (written id owner branches p k)) (hp : owner = none → p = none) :
    Serves exit records' owner frame (point.or p) := by
  cases h with
  | nowhere =>
      rw [hp rfl]
      exact .nowhere
  | @loop owner r hr =>
      have hr' : records'[owner]? = some (Arena.written id (some owner) branches p owner r) := by
        rw [hget, hr, Option.map_some]
      have hpoint : (Arena.written id (some owner) branches p owner r).continuePoint = r.continuePoint.or p :=
        if_pos rfl
      rw [← hpoint]
      exact .loop hr'

/-- The frame of a loop is read from its record. -/
theorem frameOf_eq (h : Serves exit records owner frame point) : frameOf exit owner records = pure (frame, records) := by
  cases h with
  | nowhere => rfl
  | loop hr =>
      rw [frameOf, bind_apply, fetch_eq hr, pure_bind]
      rfl

/-- A jump is read from the record of its block. -/
theorem jumpAt_eq {addr : Addr} (hr : records[id]? = some r) (hb : Branch.find? addr r.branches = some b) :
    jumpAt id addr records = pure (b, records) := by
  rw [jumpAt, bind_apply, fetch_eq hr, pure_bind]
  dsimp only
  rw [hb]
  rfl

/-- A continue point is noted in the record of the loop. -/
theorem note_changes (h : Serves exit records owner frame point) (target : Addr) :
    Changes (note target owner) records fun k r =>
      if owner = some k then { r with continuePoint := r.continuePoint.or (some target) } else r := by
  cases h with
  | nowhere => exact (Changes.pure records).congr fun k r _ => by simp
  | loop hr =>
      refine (Changes.update hr _).congr fun k r _ => ?_
      simp only [Option.some.injEq, eq_comm]

/-- Outside of loops a jump is never judged a round jump. -/
theorem firstRound?_judge (hkind : kind ≠ .loop) (bs : List Branch) :
    firstRound? (bs.map (Branch.judge kind stop aroundStop none)) = none := by
  rw [firstRound?, Option.map_eq_none_iff, List.find?_eq_none]
  intro j hj
  obtain ⟨i, -, rfl⟩ := List.mem_map.mp hj
  cases kind with
  | loop => exact absurd rfl hkind
  | root | conditional => exact Bool.false_ne_true

theorem firstRound?_singleton (b : Branch) :
    firstRound? [b] = if b.kind = .nextRound then some b.target else none := by
  by_cases h : b.kind = .nextRound <;> simp [firstRound?, h]

/-- Updating the branches of a block writes them. -/
theorem update_branches (owner : Option Nat) (hr : records[id]? = some r) (f : List Branch → List Branch) :
    Changes (update id fun r => { r with branches := f r.branches }) records
      (written id owner (f r.branches) none) := by
  refine (Changes.update hr _).congr fun k s hs => ?_
  unfold written
  by_cases hk : k = id
  · subst hk
    obtain rfl := Option.some.inj (hr.symm.trans hs)
    simp
  · simp [hk]

/-- One jump gets its class. -/
theorem classifyJump_changes (hr : records[id]? = some r) (hb : Branch.find? b.addr r.branches = some b)
    (hserves : Serves exit records owner frame point) :
    Changes (classifyJump exit id kind stop aroundStop owner b.addr) records
      (written id owner (Branch.setKind b.addr (b.classify kind stop aroundStop frame) r.branches)
        (firstRound? [b.judge kind stop aroundStop frame])) := by
  refine .read (jumpAt_eq hr hb) (.read (frameOf_eq hserves) ?_)
  have hupdate := update_branches owner hr (Branch.setKind b.addr (b.classify kind stop aroundStop frame))
  have hround : firstRound? [b.judge kind stop aroundStop frame] =
      if b.classify kind stop aroundStop frame = .nextRound then some b.target else none := firstRound?_singleton _
  rw [hround]
  by_cases hfound : b.classify kind stop aroundStop frame = .nextRound
  · simp only [if_pos hfound]
    refine (hupdate.bind fun records' hget => note_changes (hserves.written hget fun _ => rfl) b.target).congr ?_
    intro k s _
    unfold written
    split <;> simp
  · simp only [if_neg hfound]
    exact hupdate.bind fun records' _ => .pure records'

theorem each_cons (f : Nat → Arena Unit) (i : Nat) (is : List Nat) : each f (i :: is) = f i >>= fun _ => each f is := rfl

theorem find?_append_cons (hpre : ∀ c ∈ pre, c.addr ≠ b.addr) : Branch.find? b.addr (pre ++ b :: bs) = some b := by
  have hnone : pre.find? (·.addr == b.addr) = none := List.find?_eq_none.mpr fun c hc => by simpa using hpre c hc
  rw [Branch.find?, List.find?_append, hnone, Option.none_or, List.find?_cons_of_pos (by simp)]

theorem setKind_append_cons (hpre : ∀ c ∈ pre, c.addr ≠ b.addr) (hbs : ∀ c ∈ bs, c.addr ≠ b.addr)
    (found : BranchKind) : Branch.setKind b.addr found (pre ++ b :: bs) = pre ++ { b with kind := found } :: bs := by
  have hsame : ∀ cs : List Branch, (∀ c ∈ cs, c.addr ≠ b.addr) → Branch.setKind b.addr found cs = cs := by
    intro cs hcs
    exact (List.map_congr_left fun c hc => if_neg (hcs c hc)).trans (List.map_id' cs)
  rw [Branch.setKind, List.map_append, List.map_cons, if_pos rfl]
  exact congrArg₂ _ (hsame pre hpre) (congrArg _ (hsame bs hbs))

/-- All jumps of a block get their classes.  Those of `pre` have them already. -/
theorem each_classifyJump (hr : records[id]? = some r)
    (hbranches : r.branches = pre.map (Branch.judge kind stop aroundStop frame) ++ bs)
    (hsorted : (pre ++ bs).Pairwise (·.addr < ·.addr)) (hserves : Serves exit records owner frame point)
    (hkind : owner = none → kind ≠ .loop) :
    Changes (each (classifyJump exit id kind stop aroundStop owner) (bs.map (·.addr))) records
      (written id owner ((pre ++ bs).map (Branch.judge kind stop aroundStop frame))
        (firstRound? (bs.map (Branch.judge kind stop aroundStop frame)))) := by
  induction bs generalizing pre records r point with
  | nil =>
      refine (Changes.pure records).congr fun k s hs => ?_
      rw [List.append_nil] at hbranches ⊢
      unfold written
      by_cases hk : k = id
      · subst hk
        obtain rfl := Option.some.inj (hr.symm.trans hs)
        simp [← hbranches, firstRound?]
      · simp [hk, firstRound?]
  | cons b bs ih =>
      obtain ⟨-, hrest, hpre⟩ := List.pairwise_append.mp hsorted
      have hpre : ∀ c ∈ pre.map (Branch.judge kind stop aroundStop frame), c.addr ≠ b.addr :=
        List.forall_mem_map.mpr fun c hc => Nat.ne_of_lt (hpre c hc b List.mem_cons_self)
      have hbs : ∀ c ∈ bs, c.addr ≠ b.addr := fun c hc => Nat.ne_of_gt ((List.pairwise_cons.mp hrest).1 c hc)
      have hfind : Branch.find? b.addr r.branches = some b := by
        rw [hbranches]
        exact find?_append_cons hpre
      have hset : Branch.setKind b.addr (b.classify kind stop aroundStop frame) r.branches =
          (pre ++ [b]).map (Branch.judge kind stop aroundStop frame) ++ bs := by
        rw [hbranches, setKind_append_cons hpre hbs, List.map_append, List.append_assoc]
        rfl
      have hfirst : owner = none → firstRound? [b.judge kind stop aroundStop frame] = none := by
        rintro rfl
        cases hserves
        exact firstRound?_judge (hkind rfl) [b]
      have hstep : Changes (classifyJump exit id kind stop aroundStop owner b.addr) records _ :=
        classifyJump_changes hr hfind hserves
      rw [hset] at hstep
      rw [List.append_cons] at hsorted ⊢
      rw [List.map_cons, each_cons, List.map_cons]
      have hnext : ∀ records', (∀ k, records'[k]? = records[k]?.map (written id owner
          ((pre ++ [b]).map (Branch.judge kind stop aroundStop frame) ++ bs)
          (firstRound? [b.judge kind stop aroundStop frame]) k)) → Changes
          (each (classifyJump exit id kind stop aroundStop owner) (bs.map (·.addr))) records'
          (written id owner ((pre ++ [b] ++ bs).map (Branch.judge kind stop aroundStop frame))
            (firstRound? (bs.map (Branch.judge kind stop aroundStop frame)))) := by
        intro records' hget
        have hr' := hget id
        rw [hr, Option.map_some] at hr'
        exact ih hr' (if_pos rfl) hsorted (hserves.written hget hfirst)
      refine (hstep.bind hnext).congr fun k s _ => ?_
      rw [written_written, ← Block.firstRound?_append [b.judge kind stop aroundStop frame]]
      rfl

/-- Settling a block writes its jumps with the continue point known by then. -/
theorem settle_changes (hr : records[id]? = some r) (hserves : Serves exit records owner frame point) :
    Changes (settle id owner) records (written id owner (r.branches.map (·.settle point)) none) := by
  cases hserves with
  | nowhere =>
      have hsettle : ∀ b : Branch, b.settle none = b := fun b => if_neg (by simp)
      refine (Changes.pure records).congr fun k s hs => ?_
      unfold written
      by_cases hk : k = id
      · subst hk
        obtain rfl := Option.some.inj (hr.symm.trans hs)
        simp [hsettle]
      · simp [hk]
  | loop hl => exact .read (fetch_eq hl) (update_branches _ hr _)

/-- The jumps of a block with the classes that it and the nearest loop give them. -/
def judged (r : BlockRecord) (aroundStop : Option Addr) (frame : Option LoopFrame) : List Branch :=
  r.branches.map (Branch.judge r.kind r.stop aroundStop frame)

/-- Without a loop around, no judged jump is a round jump. -/
theorem firstRound?_judged (hserves : Serves exit records owner frame point) (hkind : owner = none → r.kind ≠ .loop)
    (howner : owner = none) : firstRound? (judged r aroundStop frame) = none := by
  subst howner
  cases hserves
  exact firstRound?_judge (hkind rfl) _

/-- The jumps of a block get their classes, and the nearest loop its continue point. -/
theorem ownJumps_changes (aroundStop : Option Addr) (hr : records[id]? = some r)
    (hsorted : r.branches.Pairwise (·.addr < ·.addr))
    (hserves : Serves exit records owner frame point) (hkind : owner = none → r.kind ≠ .loop) :
    Changes (each (classifyJump exit id r.kind r.stop aroundStop owner) (r.branches.map (·.addr)) >>= fun _ =>
        settle id owner) records
      (written id owner
        ((judged r aroundStop frame).map (·.settle (point.or (firstRound? (judged r aroundStop frame)))))
        (firstRound? (judged r aroundStop frame))) := by
  have hbranches : r.branches = ([] : List Branch).map (Branch.judge r.kind r.stop aroundStop frame) ++ r.branches := rfl
  have hjumps : Changes (each (classifyJump exit id r.kind r.stop aroundStop owner) (r.branches.map (·.addr)))
      records (written id owner (judged r aroundStop frame) (firstRound? (judged r aroundStop frame))) :=
    each_classifyJump hr hbranches hsorted hserves hkind
  have hsettle : ∀ records', (∀ k, records'[k]? = records[k]?.map
      (written id owner (judged r aroundStop frame) (firstRound? (judged r aroundStop frame)) k)) →
      Changes (settle id owner) records' (written id owner
        ((judged r aroundStop frame).map (·.settle (point.or (firstRound? (judged r aroundStop frame))))) none) := by
    intro records' hget
    have hr' := hget id
    rw [hr, Option.map_some] at hr'
    have hsettle := settle_changes hr' (hserves.written hget (firstRound?_judged hserves hkind))
    have hbranches : (written id owner (judged r aroundStop frame) (firstRound? (judged r aroundStop frame)) id
        r).branches = judged r aroundStop frame := if_pos rfl
    rwa [hbranches] at hsettle
  refine (hjumps.bind hsettle).congr fun k s _ => ?_
  rw [written_written, Option.or_none]

end Jumps

end Arena

end TorqueScript
