import TorqueScript.Proofs.Coverage

/-!
# What a run visits

Running regions runs instructions one after the other, each in the state that it finds.
`Rebuild.visitsAll` lists the instructions with these states, also if the run fails at the end.

* `Rebuild.run_eq_error_of_visit`: what is listed is run: where a listed instruction fails in its state, the
  run fails for the same reason.
* `Rebuild.runWith_eq_run`: and nothing else is run: if instructions are run in another way
  (`Rebuild.runWith`) that makes no difference to the listed ones in their states, the run is the same.
-/

namespace TorqueScript

namespace Rebuild

variable {α β γ : Type}

/-! ### Visits -/

/-- What is listed from the state behind a computation, if it succeeds. -/
def behind (x : Rebuild α) (f : State → List β) (s : State) : List β :=
  match x s with
  | .ok (_, t) => f t
  | .error _ => []

/-- A visit behind a computation is one in the state that this leaves. -/
theorem mem_behind {x : Rebuild α} {f : State → List β} {s : State} {b : β} :
    b ∈ behind x f s ↔ ∃ a t, x s = .ok (a, t) ∧ b ∈ f t := by
  unfold behind
  split
  · next a t h => simp [h]
  · next e h => simp [h]

/-- What is run in front of the parts of a choice. -/
def test (head : Instruction) (kind : JumpKind) : Rebuild Unit := do
  enter head.addr
  let _ ← fallThrough head kind

/-- What is listed from the beginning of a part. -/
def firstPart (front : Rebuild Unit) (inside : State → List β) : State → List β :=
  behind (do front; openPart) inside

/-- What is listed from the beginning of a part that follows another one. -/
def secondPart (front body : Rebuild Unit) (stop : Addr) (inside : State → List β) : State → List β :=
  behind (do front; openPart; body; let _ ← closePart stop; openPart) inside

mutual

/-- The instructions that are run in a region, each with the state that it finds. -/
def visits : Region → State → List (Instruction × State)
  | .plain ins => behind (enter ins.addr) fun t => [(ins, t)]
  | .jump .. | .broken _ => fun _ => []
  | .choice head kind _ body => firstPart (test head kind) (visitsAll body)
  | .choiceElse head kind stop body _ alternative => fun s =>
    firstPart (test head kind) (visitsAll body) s ++
      secondPart (test head kind) (runAll body) stop (visitsAll alternative) s
  | .loop start stop body split step _ => fun s =>
    firstPart (enter start) (visitsAll body) s ++
      if split then secondPart (enter start) (runAll body) stop (visitsAll step) s else []
  | .guarded head kind stop body split step _ => fun s =>
    firstPart (test head kind) (visitsAll body) s ++
      if split then secondPart (test head kind) (runAll body) stop (visitsAll step) s else []

/-- The instructions that are run in regions one after the other. -/
def visitsAll : List Region → State → List (Instruction × State)
  | [] => fun _ => []
  | region :: regions => fun s => visits region s ++ behind (run region) (visitsAll regions) s

end

/-- Nothing is visited at a mark of failure. -/
theorem visitsAll_broken (rs : List Region) (addr : Addr) : visitsAll (rs ++ [.broken addr]) = visitsAll rs := by
  induction rs with
  | nil =>
      funext s
      show [] ++ behind _ _ s = []
      rw [List.nil_append, behind]
      rfl
  | cons r rs ih =>
      funext s
      rw [List.cons_append, visitsAll, visitsAll, ih]

variable {front body : Rebuild Unit} {stop : Addr} {inside : State → List β} {b : β} {s : State}

theorem test_eq_ok {head : Instruction} {kind : JumpKind} {t : State} (h : test head kind s = .ok ((), t)) :
    ∃ s₁ condition, enter head.addr s = .ok ((), s₁) ∧ fallThrough head kind s₁ = .ok (condition, t) := by
  obtain ⟨_, s₁, henter, h⟩ := bind_eq_ok h
  obtain ⟨condition, s₂, hcondition, ⟨⟩⟩ := bind_eq_ok h
  exact ⟨s₁, condition, henter, hcondition⟩

/-- A visit in a first part is one after the front is run and the part opened. -/
theorem exists_of_mem_firstPart (h : b ∈ firstPart front inside s) :
    ∃ s₁ s₂, front s = .ok ((), s₁) ∧ openPart s₁ = .ok ((), s₂) ∧ b ∈ inside s₂ := by
  obtain ⟨_, s₂, hx, hb⟩ := mem_behind.mp h
  obtain ⟨_, s₁, hfront, hopen⟩ := bind_eq_ok hx
  exact ⟨s₁, s₂, hfront, hopen, hb⟩

/-- A visit in a second part is one after the body has been closed as well. -/
theorem exists_of_mem_secondPart (h : b ∈ secondPart front body stop inside s) :
    ∃ s₁ s₂ s₃ ns s₄ s₅, front s = .ok ((), s₁) ∧ openPart s₁ = .ok ((), s₂) ∧ body s₂ = .ok ((), s₃) ∧
      closePart stop s₃ = .ok (ns, s₄) ∧ openPart s₄ = .ok ((), s₅) ∧ b ∈ inside s₅ := by
  obtain ⟨_, s₅, hx, hb⟩ := mem_behind.mp h
  obtain ⟨_, s₁, hfront, hx⟩ := bind_eq_ok hx
  obtain ⟨_, s₂, hopen, hx⟩ := bind_eq_ok hx
  obtain ⟨_, s₃, hbody, hx⟩ := bind_eq_ok hx
  obtain ⟨ns, s₄, hclose, hx⟩ := bind_eq_ok hx
  exact ⟨s₁, s₂, s₃, ns, s₄, s₅, hfront, hopen, hbody, hclose, hx, hb⟩

/-! ### Visited instructions are run -/

theorem bind_error {x : Rebuild α} {f : α → Rebuild γ} {s : State} {e : Error} (h : x s = .error e) :
    (x >>= f) s = .error e := by
  change (x s >>= fun p => f p.1 p.2) = _
  rw [h]
  rfl

/-- An error in the body of a loop is the error of the loop. -/
theorem loopParts_of_body {step : Rebuild Unit} {split : Bool} {back : Option (Instruction × JumpKind)}
    {s₁ s₂ : State} {e : Error} (hopen : openPart s₁ = .ok ((), s₂)) (h : body s₂ = .error e) :
    loopParts stop body split step back s₁ = .error e := by
  rw [loopParts, bind_ok hopen, bind_error h]

/-- So is an error in its step. -/
theorem loopParts_of_step {step : Rebuild Unit} {back : Option (Instruction × JumpKind)}
    {s₁ s₂ s₃ s₄ s₅ : State} {ns : List Node} {e : Error} (hopen : openPart s₁ = .ok ((), s₂))
    (hbody : body s₂ = .ok ((), s₃)) (hclose : closePart stop s₃ = .ok (ns, s₄))
    (hopen' : openPart s₄ = .ok ((), s₅)) (h : step s₅ = .error e) :
    loopParts stop body true step back s₁ = .error e := by
  rw [loopParts, bind_ok hopen, bind_ok hbody, if_pos rfl, bind_ok hclose, bind_ok hopen',
    bind_error h]

mutual

/-- Where a visited instruction fails in the state that it finds, so does the region. -/
theorem run_eq_error_of_visit {p : Instruction × State} {e : Error} (he : step p.1 p.2 = .error e) :
    ∀ (r : Region) {s : State}, p ∈ visits r s → run r s = .error e
  | .plain ins, s, h => by
      obtain ⟨_, t, henter, hp⟩ := mem_behind.mp h
      obtain rfl := List.mem_singleton.mp hp
      rw [run, bind_ok henter]
      exact he
  | .jump .., _, h | .broken _, _, h => nomatch h
  | .choice head kind stop body, s, h => by
      obtain ⟨s₁, s₂, htest, hopen, hp⟩ := exists_of_mem_firstPart h
      obtain ⟨s₀, condition, henter, hcondition⟩ := test_eq_ok htest
      rw [run, bind_ok henter, bind_ok hcondition, bind_ok hopen,
        bind_error (runAll_eq_error_of_visit he body hp)]
  | .choiceElse head kind stop body separator alternative, s, h => by
      rcases List.mem_append.mp h with h | h
      · obtain ⟨s₁, s₂, htest, hopen, hp⟩ := exists_of_mem_firstPart h
        obtain ⟨s₀, condition, henter, hcondition⟩ := test_eq_ok htest
        rw [run, bind_ok henter, bind_ok hcondition, bind_ok hopen,
          bind_error (runAll_eq_error_of_visit he body hp)]
      · obtain ⟨s₁, s₂, s₃, ns, s₄, s₅, htest, hopen, hbody, hclose, hopen', hp⟩ := exists_of_mem_secondPart h
        obtain ⟨s₀, condition, henter, hcondition⟩ := test_eq_ok htest
        rw [run, bind_ok henter, bind_ok hcondition, bind_ok hopen, bind_ok hbody,
          bind_ok hclose, bind_ok hopen', bind_error (runAll_eq_error_of_visit he alternative hp)]
  | .loop start stop body split step back, s, h => by
      rcases List.mem_append.mp h with h | h
      · obtain ⟨s₁, s₂, henter, hopen, hp⟩ := exists_of_mem_firstPart h
        rw [run, bind_ok henter,
          bind_error (loopParts_of_body hopen (runAll_eq_error_of_visit he body hp))]
      · cases split with
        | false => nomatch h
        | true =>
            obtain ⟨s₁, s₂, s₃, ns, s₄, s₅, henter, hopen, hbody, hclose, hopen', hp⟩ :=
              exists_of_mem_secondPart h
            rw [run, bind_ok henter, bind_error
              (loopParts_of_step hopen hbody hclose hopen' (runAll_eq_error_of_visit he step hp))]
  | .guarded head kind stop body split step back, s, h => by
      rcases List.mem_append.mp h with h | h
      · obtain ⟨s₁, s₂, htest, hopen, hp⟩ := exists_of_mem_firstPart h
        obtain ⟨s₀, condition, henter, hcondition⟩ := test_eq_ok htest
        rw [run, bind_ok henter, bind_ok hcondition,
          bind_error (loopParts_of_body hopen (runAll_eq_error_of_visit he body hp))]
      · cases split with
        | false => nomatch h
        | true =>
            obtain ⟨s₁, s₂, s₃, ns, s₄, s₅, htest, hopen, hbody, hclose, hopen', hp⟩ :=
              exists_of_mem_secondPart h
            obtain ⟨s₀, condition, henter, hcondition⟩ := test_eq_ok htest
            rw [run, bind_ok henter, bind_ok hcondition, bind_error
              (loopParts_of_step hopen hbody hclose hopen' (runAll_eq_error_of_visit he step hp))]

/-- **An error at a visit is the error of the run.** -/
theorem runAll_eq_error_of_visit {p : Instruction × State} {e : Error} (he : step p.1 p.2 = .error e) :
    ∀ (rs : List Region) {s : State}, p ∈ visitsAll rs s → runAll rs s = .error e
  | [], _, h => nomatch h
  | r :: rs, s, h => by
      rcases List.mem_append.mp h with h | h
      · rw [runAll, bind_error (run_eq_error_of_visit he r h)]
      · obtain ⟨_, t, hrun, hp⟩ := mem_behind.mp h
        rw [runAll, bind_ok hrun]
        exact runAll_eq_error_of_visit he rs hp

end

/-! ### Nothing else is run -/

mutual

/-- Runs a region as `run` does, but its instructions in a way of one's own. -/
def runWith (act : Instruction → Rebuild Unit) : Region → Rebuild Unit
  | .plain ins => do
    enter ins.addr
    act ins
  | .jump ins kind => do
    enter ins.addr
    leave ins kind
  | .broken addr => throw (.unstructuredBranch addr)
  | .choice head kind stop body => do
    enter head.addr
    let condition ← fallThrough head kind
    openPart
    runAllWith act body
    let thenBody ← closePart stop
    push (.ifElse condition thenBody [])
  | .choiceElse head kind stop body separator alternative => do
    enter head.addr
    let condition ← fallThrough head kind
    openPart
    runAllWith act body
    let thenBody ← closePart stop
    openPart
    runAllWith act alternative
    let elseBody ← closePart separator
    push (.ifElse condition thenBody elseBody)
  | .loop start stop body split step back => do
    enter start
    let parts ← loopParts stop (runAllWith act body) split (runAllWith act step) back
    push parts.doWhile
  | .guarded head kind stop body split step back => do
    enter head.addr
    let guard ← fallThrough head kind
    let parts ← loopParts stop (runAllWith act body) split (runAllWith act step) back
    guardedLoop guard parts

/-- Runs regions one after the other. -/
def runAllWith (act : Instruction → Rebuild Unit) : List Region → Rebuild Unit
  | [] => pure ()
  | region :: regions => do
    runWith act region
    runAllWith act regions

end

/-- Computations that begin alike and go on alike behind their beginning. -/
theorem bind_congr_at {x y : Rebuild α} {f g : α → Rebuild γ} (hx : x s = y s)
    (hf : ∀ a t, y s = .ok (a, t) → f a t = g a t) : (x >>= f) s = (y >>= g) s := by
  cases hy : y s with
  | error e => rw [bind_error hy, bind_error (hx.trans hy)]
  | ok r =>
      obtain ⟨a, t⟩ := r
      rw [bind_ok hy, bind_ok (hx.trans hy), hf a t hy]

/-- A loop depends on what its body and its step do where they are run. -/
theorem loopParts_congr_at {body' step step' : Rebuild Unit} {split : Bool}
    {back : Option (Instruction × JumpKind)} (hbody : ∀ t, openPart s = .ok ((), t) → body t = body' t)
    (hstep : split = true → ∀ t, (do openPart; body'; let _ ← closePart stop; openPart) s = .ok ((), t) →
      step t = step' t) :
    loopParts stop body split step back s = loopParts stop body' split step' back s := by
  refine bind_congr_at rfl fun _ t hopen => bind_congr_at (hbody t hopen) fun _ u hbody' => ?_
  cases split with
  | false => rfl
  | true =>
      refine bind_congr_at rfl fun _ v hclose => bind_congr_at rfl fun _ w hopen' => ?_
      refine bind_congr_at (hstep rfl w ?_) fun _ _ _ => rfl
      rw [bind_ok hopen, bind_ok hbody', bind_ok hclose, hopen']

section RunWith

variable {act : Instruction → Rebuild Unit}

/-- The parts of a loop whose instructions make no difference. -/
theorem loopParts_runWith {body step : List Region} {split : Bool} {back : Option (Instruction × JumpKind)}
    {s₁ : State} (hfront : front s = .ok ((), s₁))
    (h : ∀ p ∈ firstPart front (visitsAll body) s ++
        if split then secondPart front (runAll body) stop (visitsAll step) s else [],
      act p.1 p.2 = Rebuild.step p.1 p.2)
    (hbody : ∀ t, (∀ p ∈ visitsAll body t, act p.1 p.2 = Rebuild.step p.1 p.2) →
      runAllWith act body t = runAll body t)
    (hstep : ∀ t, (∀ p ∈ visitsAll step t, act p.1 p.2 = Rebuild.step p.1 p.2) →
      runAllWith act step t = runAll step t) :
    loopParts stop (runAllWith act body) split (runAllWith act step) back s₁ =
      loopParts stop (runAll body) split (runAll step) back s₁ := by
  refine loopParts_congr_at (fun t hopen => hbody t fun p hp => h p (List.mem_append_left _ ?_))
    fun hsplit t hparts => hstep t fun p hp => h p (List.mem_append_right _ ?_)
  · exact mem_behind.mpr ⟨(), t, by rw [bind_ok hfront, hopen], hp⟩
  · rw [if_pos hsplit]
    exact mem_behind.mpr ⟨(), t, by rw [bind_ok hfront, hparts], hp⟩

mutual

/-- **Visits.**  If running instructions in another way makes no difference to the visited ones in the states
that they find, it makes no difference to the region. -/
theorem runWith_eq_run : ∀ (r : Region) {s : State},
    (∀ p ∈ visits r s, act p.1 p.2 = step p.1 p.2) → runWith act r s = run r s
  | .plain ins, s, h => by
      rw [runWith, run]
      refine bind_congr_at rfl fun _ t henter => h (ins, t) ?_
      exact mem_behind.mpr ⟨(), t, henter, List.mem_singleton_self _⟩
  | .jump .., _, _ | .broken _, _, _ => by rw [runWith, run]
  | .choice head kind stop body, s, h => by
      rw [runWith, run]
      refine bind_congr_at rfl fun _ s₁ henter => bind_congr_at rfl fun condition s₂ hcondition => ?_
      have htest : test head kind s = .ok ((), s₂) := by rw [test, bind_ok henter, bind_ok hcondition]; rfl
      refine bind_congr_at rfl fun _ s₃ hopen => bind_congr_at (runAllWith_eq_runAll body fun p hp => h p ?_)
        fun _ _ _ => rfl
      exact mem_behind.mpr ⟨(), s₃, by rw [bind_ok htest, hopen], hp⟩
  | .choiceElse head kind stop body separator alternative, s, h => by
      rw [runWith, run]
      refine bind_congr_at rfl fun _ s₁ henter => bind_congr_at rfl fun condition s₂ hcondition => ?_
      have htest : test head kind s = .ok ((), s₂) := by rw [test, bind_ok henter, bind_ok hcondition]; rfl
      refine bind_congr_at rfl fun _ s₃ hopen => bind_congr_at (runAllWith_eq_runAll body fun p hp =>
        h p (List.mem_append_left _ ?_)) fun _ s₄ hbody => ?_
      · exact mem_behind.mpr ⟨(), s₃, by rw [bind_ok htest, hopen], hp⟩
      refine bind_congr_at rfl fun _ s₅ hclose => bind_congr_at rfl fun _ s₆ hopen' => bind_congr_at
        (runAllWith_eq_runAll alternative fun p hp => h p (List.mem_append_right _ ?_)) fun _ _ _ => rfl
      exact mem_behind.mpr
        ⟨(), s₆, by rw [bind_ok htest, bind_ok hopen, bind_ok hbody, bind_ok hclose, hopen'], hp⟩
  | .loop start stop body split step back, s, h => by
      rw [runWith, run]
      refine bind_congr_at rfl fun _ s₁ henter => bind_congr_at ?_ fun _ _ _ => rfl
      exact loopParts_runWith henter h (fun _ => runAllWith_eq_runAll body) fun _ => runAllWith_eq_runAll step
  | .guarded head kind stop body split step back, s, h => by
      rw [runWith, run]
      refine bind_congr_at rfl fun _ s₁ henter => bind_congr_at rfl fun condition s₂ hcondition => ?_
      have htest : test head kind s = .ok ((), s₂) := by rw [test, bind_ok henter, bind_ok hcondition]; rfl
      refine bind_congr_at ?_ fun _ _ _ => rfl
      exact loopParts_runWith htest h (fun _ => runAllWith_eq_runAll body) fun _ => runAllWith_eq_runAll step

/-- **A run takes no step but at its visits.** -/
theorem runAllWith_eq_runAll : ∀ (rs : List Region) {s : State},
    (∀ p ∈ visitsAll rs s, act p.1 p.2 = step p.1 p.2) → runAllWith act rs s = runAll rs s
  | [], _, _ => rfl
  | r :: rs, s, h => by
      rw [runAllWith, runAll]
      refine bind_congr_at (runWith_eq_run r fun p hp => h p (List.mem_append_left _ hp)) fun _ t hrun => ?_
      exact runAllWith_eq_runAll rs fun p hp => h p (List.mem_append_right _ (mem_behind.mpr ⟨(), t, hrun, hp⟩))

end

end RunWith

end Rebuild

end TorqueScript
