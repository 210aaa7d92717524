import TorqueScript.Proofs.Rooting
import TorqueScript.Proofs.Scopes

/-!
# Accounts of parts

A run opens and closes parts of the stream in many places, and declares functions in between, whose bodies are one
more stack.  Here a book is kept of a run, also of one that fails (`Kept`): it counts the parts that were opened and
closed, and it lists the points that the run passes, each with what is done next (`Point`).

* `Rebuild.accounts_runAll`: the book is kept of what is run (`Rebuild.Accounts`), and at each of its points the
  accounts are in order: the saved stacks are those of the open parts, and one more if a function is open
  (`Point.Sound`).

**Accounts** (`Stream.accounts_of_analyze`).  At each point of the run on a stream with a block tree the accounts
are in order.  So a part can be closed whenever one is to be closed, nothing is left open when the end looks for it,
and the run meets no root inside a block.
-/

namespace TorqueScript

namespace Rebuild

variable {α β : Type}

/-! ### Keeping the book -/

/-- What a run does next. -/
inductive Deed where
  /-- Work inside the current part. -/
  | works
  /-- Opens a part. -/
  | opens
  /-- Closes the current part. -/
  | closes
  /-- Ends the function being declared, if there is one to end. -/
  | ends
  /-- Looks for what is left open at the end of the stream. -/
  | finishes
  deriving DecidableEq, Repr

/-- The parts that are opened. -/
def Deed.opened : Deed → Nat
  | opens => 1
  | _ => 0

/-- The parts that are closed. -/
def Deed.closed : Deed → Nat
  | closes => 1
  | _ => 0

/-- A point of a run: the parts opened and closed before it, the state, and what is done next. -/
structure Point where
  opened : Nat
  closed : Nat
  state : State
  next : Deed

/-- The book of a run: the parts opened and closed so far, the state, and the points passed, the last one first. -/
structure Ledger where
  opened : Nat := 0
  closed : Nat := 0
  state : State := {}
  points : List Point := []

end Rebuild

open Rebuild in
/-- A computation of which a book is kept, also if it fails. -/
abbrev Kept := ExceptT Error (StateM Ledger)

namespace Kept

open Rebuild

variable {α : Type}

/-- Enters a point in the book and goes on. -/
def act (next : Deed) (x : Rebuild α) : Kept α := fun L =>
  let L := { L with points := ⟨L.opened, L.closed, L.state, next⟩ :: L.points }
  match x L.state with
  | .ok (a, s) => (.ok a, { L with state := s, opened := L.opened + next.opened, closed := L.closed + next.closed })
  | .error e => (.error e, L)

/-- The computation without its book. -/
def erased (x : Kept α) : Except Error (α × State) :=
  match x {} with
  | (.ok a, L) => .ok (a, L.state)
  | (.error e, _) => .error e

/-- The points that the computation passes, the last one first. -/
def points (x : Kept α) : List Point :=
  (x {}).2.points

theorem bind_eq {β : Type} (x : Kept α) (f : α → Kept β) (L : Ledger) :
    (x >>= f) L = match x L with
      | (.ok a, M) => f a M
      | (.error e, M) => (.error e, M) := by
  show (match x L with | (r, M) => ExceptT.bindCont f r M) = _
  rcases x L with ⟨_ | _, M⟩ <;> rfl

/-! The definitions of a run, with a book. -/

/-- What happens before every instruction. -/
def enter (addr : Addr) : Kept Unit := do
  act .ends (closeFunction addr)
  act .works (foldLogic addr)

/-- Ends a loop at its jump back. -/
def endLoop (stop : Addr) (back : Option (Instruction × JumpKind)) : Kept (Node × List Node) :=
  match back with
  | none => act .works (throw (.unstructuredBranch stop))
  | some (ins, kind) => do
    act .works (foldLogic ins.addr)
    let condition ← act .works (pop ins)
    let rest ← act .closes (closePart ins.addr)
    pure (if kind.whenTrue then condition else condition.negate, rest)

/-- Rebuilds a loop from the computations that rebuild its parts. -/
def loopParts (stop : Addr) (body : Kept Unit) (split : Bool) (step : Kept Unit)
    (back : Option (Instruction × JumpKind)) : Kept LoopParts := do
  act .opens openPart
  body
  if split then do
    let body ← act .closes (closePart stop)
    act .opens openPart
    step
    let (condition, step) ← endLoop stop back
    pure { condition, body, step }
  else do
    let (condition, body) ← endLoop stop back
    pure { condition, body, step := [] }

mutual

/-- Runs a region. -/
def run : Region → Kept Unit
  | .plain ins => do
    enter ins.addr
    act .works (step ins)
  | .jump ins kind => do
    enter ins.addr
    act .works (leave ins kind)
  | .broken addr => act .works (throw (.unstructuredBranch addr))
  | .choice head kind stop body => do
    enter head.addr
    let condition ← act .works (fallThrough head kind)
    act .opens openPart
    runAll body
    let thenBody ← act .closes (closePart stop)
    act .works (push (.ifElse condition thenBody []))
  | .choiceElse head kind stop body separator alternative => do
    enter head.addr
    let condition ← act .works (fallThrough head kind)
    act .opens openPart
    runAll body
    let thenBody ← act .closes (closePart stop)
    act .opens openPart
    runAll alternative
    let elseBody ← act .closes (closePart separator)
    act .works (push (.ifElse condition thenBody elseBody))
  | .loop start stop body split step back => do
    enter start
    let parts ← loopParts stop (runAll body) split (runAll step) back
    act .works (push parts.doWhile)
  | .guarded head kind stop body split step back => do
    enter head.addr
    let guard ← act .works (fallThrough head kind)
    let parts ← loopParts stop (runAll body) split (runAll step) back
    act .works (guardedLoop guard parts)

/-- Runs regions one after the other. -/
def runAll : List Region → Kept Unit
  | [] => pure ()
  | region :: regions => do
    run region
    runAll regions

end

end Kept

namespace Rebuild

/-- Looks for what is left open. -/
def checkClosed (last : Addr) : Rebuild Unit := do
  let s ← get
  if !s.saved.isEmpty then throw (.unstructuredBranch last)
  else if s.objectDepth ≠ 0 then throw (.unterminatedObject s.objectDepth)
  else pure ()

end Rebuild

/-- Ends the stream. -/
def Kept.close (last : Addr) : Kept Unit := do
  act .ends (Rebuild.endFunction Addr.last)
  act .finishes (Rebuild.checkClosed last)

/-- Runs the regions of a stream to its end. -/
def Kept.runStream (tree : Block) (instrs : List Instruction) : Kept Unit := do
  runAll (Region.ofStream tree instrs)
  close (Stream.last instrs)

namespace Rebuild

/-! ### Accounts in order -/

/-- There is one saved stack for each of `d` parts, and one more if a function is open. -/
def State.Saves (d : Nat) (s : State) : Prop :=
  s.saved.length = d + if s.function.isSome then 1 else 0

/-- The accounts are in order: the saved stacks are those of the parts opened and not yet closed, and one more if a
function is open.  A part that is to be closed is there, and at the end none is left. -/
structure Point.Sound (p : Point) : Prop where
  closed_le : p.closed ≤ p.opened
  saves : p.state.Saves (p.opened - p.closed)
  closes : p.next = .closes → p.state.saved ≠ []
  ends : p.next = .ends → p.state.function.isSome → p.state.saved ≠ []
  finishes : p.next = .finishes → p.state.saved = []

/-- The book is in order, with `d` open parts. -/
structure Ledger.Holds (d : Nat) (L : Ledger) : Prop where
  opened_eq : L.opened = L.closed + d
  saves : L.state.Saves d
  points : ∀ p ∈ L.points, p.Sound

/-- From the given book the first computation does what the second one does, and the book stays in order; `d` parts
are open behind it. -/
def AccountsAt (d : Nat) (x : Kept α) (y : Rebuild α) (L : Ledger) : Prop :=
  match y L.state with
  | .ok (a, s) => ∃ M, x L = (.ok a, M) ∧ M.state = s ∧ M.Holds d
  | .error e => ∃ M, x L = (.error e, M) ∧ ∀ p ∈ M.points, p.Sound

theorem AccountsAt.bind {d d' : Nat} {x : Kept α} {y : Rebuild α} {f : α → Kept β} {g : α → Rebuild β} {L : Ledger}
    (hx : AccountsAt d x y L)
    (hf : ∀ a M, y L.state = .ok (a, M.state) → M.Holds d → AccountsAt d' (f a) (g a) M) :
    AccountsAt d' (x >>= f) (y >>= g) L := by
  change match y L.state >>= fun p => g p.1 p.2 with
    | .ok (b, s) => ∃ M, (x >>= f) L = (.ok b, M) ∧ M.state = s ∧ M.Holds d'
    | .error e => ∃ M, (x >>= f) L = (.error e, M) ∧ ∀ p ∈ M.points, p.Sound
  unfold AccountsAt at hx
  rw [Kept.bind_eq]
  cases hy : y L.state with
  | error e =>
      rw [hy] at hx
      obtain ⟨M, hx, hpoints⟩ := hx
      rw [hx]
      exact ⟨M, rfl, hpoints⟩
  | ok p =>
      obtain ⟨a, s⟩ := p
      rw [hy] at hx
      obtain ⟨M, hx, rfl, hM⟩ := hx
      rw [hx]
      exact hf a M hy hM

/-- What is done enters its point in the book; it must keep the number of saved stacks. -/
theorem AccountsAt.act {d d' : Nat} {next : Deed} {y : Rebuild α} {L : Ledger} (hL : L.Holds d)
    (hparts : d' + next.closed = d + next.opened) (hkeeps : ∀ a t, y L.state = .ok (a, t) → t.Saves d')
    (hsound : Point.Sound ⟨L.opened, L.closed, L.state, next⟩) : AccountsAt d' (Kept.act next y) y L := by
  have hpoints : ∀ p ∈ (⟨L.opened, L.closed, L.state, next⟩ :: L.points : List Point), p.Sound :=
    List.forall_mem_cons.mpr ⟨hsound, hL.points⟩
  unfold AccountsAt Kept.act
  dsimp only
  cases hy : y L.state with
  | error e => exact ⟨_, rfl, hpoints⟩
  | ok p =>
      refine ⟨_, rfl, rfl, ?_, hkeeps _ _ hy, hpoints⟩
      have hopened := hL.opened_eq
      dsimp only
      omega

/-- From every book in order with `d` open parts the first computation does what the second one does, and the book
stays in order, with `d'` open parts. -/
def Accounts (d d' : Nat) (x : Kept α) (y : Rebuild α) : Prop :=
  ∀ L : Ledger, L.Holds d → AccountsAt d' x y L

namespace Accounts

variable {d d' d'' : Nat}

theorem pure (a : α) : Accounts d d (Pure.pure a) (Pure.pure a) :=
  fun L hL => ⟨L, rfl, rfl, hL⟩

theorem bind {x : Kept α} {y : Rebuild α} {f : α → Kept β} {g : α → Rebuild β} (hx : Accounts d d' x y)
    (hf : ∀ a, Accounts d' d'' (f a) (g a)) : Accounts d d'' (x >>= f) (y >>= g) :=
  fun L hL => (hx L hL).bind fun a M _ hM => hf a M hM

end Accounts

section

variable {d d' : Nat} {y : Rebuild α} {es : List Event} {L : Ledger} {s t : State} {a : α}

theorem State.Saves.ne_nil (h : s.Saves d) (hpos : 0 < d ∨ s.function.isSome) : s.saved ≠ [] := by
  intro hnil
  rw [State.Saves, hnil, List.length_nil] at h
  split at h
  · omega
  · next hfunction => exact absurd (hpos.resolve_left (by omega)) hfunction

/-- A watch follows the number of saved stacks. -/
theorem Tracks.saves (h : Tracks d y es) (hlevel : (d' : Int) = d + Event.level es) (hs : s.Saves d)
    (hy : y s = .ok (a, t)) : t.Saves d' := by
  obtain ⟨w, hrun, hw⟩ :=
    h s a t ⟨d, s.function.map fun frame => (frame.stop, frame.depth)⟩ ⟨hs, rfl⟩ le_rfl hy
  have hdepth := Watch.depth_run hrun
  have hdepth : w.depth = d' := Int.ofNat_inj.mp (hdepth.trans hlevel.symm)
  exact hdepth ▸ hw.length_saved

/-- A book in order is so at its next point, unless the end looks for open parts. -/
theorem Ledger.Holds.sound {next : Deed} (h : L.Holds d) (hcloses : next = .closes → 0 < d)
    (hfinishes : next ≠ .finishes) : Point.Sound ⟨L.opened, L.closed, L.state, next⟩ where
  closed_le := h.opened_eq ▸ Nat.le_add_right ..
  saves := by
    have hopen : L.opened - L.closed = d := by rw [h.opened_eq, Nat.add_sub_cancel_left]
    exact hopen ▸ h.saves
  closes hnext := h.saves.ne_nil (.inl (hcloses hnext))
  ends _ hfunction := h.saves.ne_nil (.inr hfunction)
  finishes hnext := absurd hnext hfinishes

end

namespace Accounts

variable {d d' : Nat} {y : Rebuild α} {es : List Event}

/-- What a watch can follow keeps the accounts in order. -/
theorem act {next : Deed} (h : Tracks d y es) (hlevel : (d' : Int) = d + Event.level es)
    (hparts : d' + next.closed = d + next.opened) (hcloses : next = .closes → 0 < d)
    (hfinishes : next ≠ .finishes) : Accounts d d' (Kept.act next y) y :=
  fun _ hL => .act hL hparts (fun _ _ => h.saves hlevel hL.saves) (hL.sound hcloses hfinishes)

theorem works (h : Tracks 0 y es) (hlevel : Event.level es = 0) : Accounts d d (Kept.act .works y) y :=
  act (h.mono (Nat.zero_le d)) (by rw [hlevel, Int.add_zero]) rfl (fun hnext => nomatch hnext) (by decide)

theorem still (h : Still y) : Accounts d d (Kept.act .works y) y :=
  works h.tracks rfl

theorem throw (e : Error) : Accounts d d' (Kept.act .works (throwThe Error e) : Kept α) (throwThe Error e) :=
  fun _ hL => ⟨_, rfl, List.forall_mem_cons.mpr ⟨hL.sound (fun hnext => nomatch hnext) (by decide), hL.points⟩⟩

theorem ends (addr : Addr) : Accounts d d (Kept.act .ends (closeFunction addr)) (closeFunction addr) :=
  act ((tracks_closeFunction addr).mono (Nat.zero_le d)) (Int.add_zero _).symm rfl (fun hnext => nomatch hnext)
    (by decide)

theorem opens : Accounts d (d + 1) (Kept.act .opens openPart) openPart :=
  act (tracks_openPart.mono (Nat.zero_le d)) rfl rfl (fun hnext => nomatch hnext) (by decide)

theorem closes (addr : Addr) : Accounts (d + 1) d (Kept.act .closes (closePart addr)) (closePart addr) :=
  act ((tracks_closePart addr).mono (Nat.le_add_left 1 d)) (by simp [Event.delta]) rfl (fun _ => Nat.succ_pos d)
    (by decide)

theorem enter (addr : Addr) : Accounts d d (Kept.enter addr) (Rebuild.enter addr) :=
  (ends addr).bind fun _ => still (still_foldLogic addr)

/-- A part: what is run in it, its end, and what comes then. -/
theorem part {γ : Type} {x : Kept Unit} {y : Rebuild Unit} {c : Kept γ} {c' : Rebuild γ} {f : γ → Kept α}
    {g : γ → Rebuild α} (hx : Accounts (d + 1) (d + 1) x y) (hc : Accounts (d + 1) d c c')
    (hf : ∀ b, Accounts d d (f b) (g b)) :
    Accounts d d (do Kept.act .opens openPart; x; let b ← c; f b) (do openPart; y; let b ← c'; g b) :=
  opens.bind fun _ => hx.bind fun _ => hc.bind hf

theorem endLoop (stop : Addr) (back : Option (Instruction × JumpKind)) :
    Accounts (d + 1) d (Kept.endLoop stop back) (Rebuild.endLoop stop back) := by
  cases back with
  | none => exact throw _
  | some p =>
      exact (still (still_foldLogic _)).bind fun _ => (still still_pop).bind fun _ =>
        (closes _).bind fun _ => .pure _

theorem loopParts {body step : Kept Unit} {body' step' : Rebuild Unit} (stop : Addr) (split : Bool)
    (back : Option (Instruction × JumpKind)) (hbody : Accounts (d + 1) (d + 1) body body')
    (hstep : Accounts (d + 1) (d + 1) step step') :
    Accounts d d (Kept.loopParts stop body split step back) (Rebuild.loopParts stop body' split step' back) := by
  cases split with
  | true => exact part hbody (closes stop) fun _ => part hstep (endLoop stop back) fun _ => .pure _
  | false => exact part hbody (endLoop stop back) fun _ => .pure _

end Accounts

mutual

/-- **Regions** are run with accounts in order. -/
theorem accounts_run : ∀ (r : Region) (d : Nat), Accounts d d (Kept.run r) (run r)
  | .plain _, _ => (Accounts.enter _).bind fun _ => .works (tracks_step _) (Region.balanced_instruction _).level_eq
  | .jump _ kind, _ => (Accounts.enter _).bind fun _ => .still (still_leave kind)
  | .broken _, _ => .throw _
  | .choice _ kind stop body, d =>
      (Accounts.enter _).bind fun _ => (Accounts.still (still_fallThrough kind)).bind fun _ =>
        .part (accounts_runAll body (d + 1)) (.closes stop) fun _ => .still (still_push _)
  | .choiceElse _ kind stop body separator alternative, d =>
      (Accounts.enter _).bind fun _ => (Accounts.still (still_fallThrough kind)).bind fun _ =>
        .part (accounts_runAll body (d + 1)) (.closes stop) fun _ =>
          .part (accounts_runAll alternative (d + 1)) (.closes separator) fun _ => .still (still_push _)
  | .loop _ stop body split step back, d =>
      (Accounts.enter _).bind fun _ => (Accounts.loopParts stop split back (accounts_runAll body (d + 1))
        (accounts_runAll step (d + 1))).bind fun _ => .still (still_push _)
  | .guarded _ kind stop body split step back, d =>
      (Accounts.enter _).bind fun _ => (Accounts.still (still_fallThrough kind)).bind fun guard =>
        (Accounts.loopParts stop split back (accounts_runAll body (d + 1))
          (accounts_runAll step (d + 1))).bind fun parts => .still (still_guardedLoop guard parts)

theorem accounts_runAll : ∀ (rs : List Region) (d : Nat), Accounts d d (Kept.runAll rs) (runAll rs)
  | [], _ => .pure ()
  | r :: rs, d => (accounts_run r d).bind fun _ => accounts_runAll rs d

end

/-- Ending the function being declared takes one saved stack, and no function is open afterwards. -/
theorem saves_endFunction {addr : Addr} {d : Nat} {s t : State} (hs : s.Saves d)
    (h : endFunction addr s = .ok ((), t)) : t.Saves d ∧ t.function = none := by
  cases hfunction : s.function with
  | none =>
      cases (endFunction_of_none hfunction).symm.trans h
      exact ⟨hs, hfunction⟩
  | some frame =>
      obtain ⟨-, hlength, hnone⟩ := endFunction_eq_ok hfunction h
      rw [State.Saves, hfunction, Option.isSome_some, if_pos rfl] at hs
      refine ⟨?_, hnone⟩
      rw [State.Saves, hnone, Option.isSome_none, if_neg Bool.false_ne_true]
      omega

theorem checkClosed_eq_ok {last : Addr} {s t : State} (h : checkClosed last s = .ok ((), t)) : t = s := by
  unfold checkClosed at h
  rw [get_bind] at h
  split at h
  · cases h
  · split at h
    · cases h
    · cases h
      rfl

/-- The end of a stream looks for open parts when none is left. -/
theorem accounts_close (last : Addr) : Accounts 0 0 (Kept.close last) (close last) := by
  intro L hL
  have hend : AccountsAt 0 (Kept.act .ends (endFunction Addr.last)) (endFunction Addr.last) L :=
    .act hL rfl (fun _ _ h => (saves_endFunction hL.saves h).1) (hL.sound (fun hnext => nomatch hnext) (by decide))
  refine hend.bind fun _ M hM hholds => .act hholds rfl (fun _ _ h => checkClosed_eq_ok h ▸ hholds.saves) ?_
  have hnone : M.state.saved = [] := by
    have hsaves := hholds.saves
    rw [State.Saves, (saves_endFunction hL.saves hM).2] at hsaves
    exact List.eq_nil_of_length_eq_zero hsaves
  have hsound : Point.Sound ⟨M.opened, M.closed, M.state, .works⟩ :=
    hholds.sound (fun hnext => nomatch hnext) (by decide)
  exact ⟨hsound.closed_le, hsound.saves, nofun, nofun, fun _ => hnone⟩

/-- **Streams** are run with accounts in order. -/
theorem accounts_runStream (tree : Block) (instrs : List Instruction) :
    Accounts 0 0 (Kept.runStream tree instrs) (Stream.run tree instrs) :=
  (accounts_runAll _ 0).bind fun _ => accounts_close _

/-- The book of a run is one of just this run, and all its points are in order. -/
theorem Accounts.outcome {d : Nat} {x : Kept α} {y : Rebuild α} (h : Accounts 0 d x y) :
    x.erased = y {} ∧ ∀ p ∈ x.points, p.Sound := by
  have h := h {} ⟨rfl, rfl, nofun⟩
  unfold AccountsAt at h
  unfold Kept.erased Kept.points
  split at h
  · next hy =>
      obtain ⟨M, hx, rfl, hM⟩ := h
      rw [hx]
      exact ⟨hy.symm, hM.points⟩
  · next hy =>
      obtain ⟨M, hx, hpoints⟩ := h
      rw [hx]
      exact ⟨hy.symm, hpoints⟩

end Rebuild

namespace Stream

variable {instrs : List Instruction} {tree : Block}

/-- **Accounts.**  At each point of the run on a stream with a block tree, also if it fails, the saved stacks are
those of the parts opened and not yet closed, and one more if a function is open; a part that is to be closed is
there, and none is left when the end looks for open parts.  And no block that the run meets inside another one is a
root. -/
theorem accounts_of_analyze (htree : (analyze instrs).outcome.1 = .ok tree) :
    (Kept.runStream tree instrs).erased = run tree instrs {} ∧
      (∀ p ∈ (Kept.runStream tree instrs).points, p.Sound) ∧
      ∀ b ∈ tree.preorder, ∀ addr c, b.childAt? addr = some c → c.kind ≠ .root := by
  rw [outcome_analyze] at htree
  obtain ⟨herased, hpoints⟩ := (Rebuild.accounts_runStream tree instrs).outcome
  exact ⟨herased, hpoints, fun b hb addr c hc =>
    rootAlone_of_blockTree htree b hb c (List.mem_of_find?_eq_some hc)⟩

/-- A function in a conditional block, with an addition in it that has no operands. -/
def failsInFunction : List Instruction :=
  [⟨0, 1, .loadImmedUint, .immediateUint 1⟩, ⟨1, 1, .jmpIfNot, .jump .ifNot 5⟩,
    ⟨2, 1, .funcDecl, .declareFunction ⟨"f", none, none, []⟩ true 4⟩, ⟨3, 1, .add, .binary .add⟩,
    ⟨4, 1, .ret, .ret false⟩, ⟨5, 1, .ret, .ret false⟩]

/-- The block tree of `failsInFunction`. -/
def failsInFunctionTree : Block :=
  ⟨0, .root, 0, 5, [], none, [⟨1, .conditional, 1, 4, [], none, []⟩]⟩

/-- Where the addition fails, one part is open and so is the function, and two stacks are saved. -/
theorem accounts_of_analyze_failsInFunction :
    (analyze failsInFunction).outcome.1 = .ok failsInFunctionTree ∧
      (Kept.runStream failsInFunctionTree failsInFunction).erased = .error (.stackUnderflow 3 .add) ∧
      ((Kept.runStream failsInFunctionTree failsInFunction).points.head?.map fun p =>
        (p.opened, p.closed, p.state.function.isSome, p.state.saved.length)) = some (1, 0, true, 2) ∧
      ∀ p ∈ (Kept.runStream failsInFunctionTree failsInFunction).points, p.Sound := by
  have htree : (analyze failsInFunction).outcome.1 = .ok failsInFunctionTree := by cbv
  obtain ⟨herased, hpoints, -⟩ := accounts_of_analyze htree
  exact ⟨htree, herased.trans (by cbv), by cbv, hpoints⟩

end Stream

end TorqueScript
