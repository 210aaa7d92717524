import TorqueScript.Proofs.Values

/-!
# Parts and functions during a run

Running regions opens and closes parts of the stream, and the body of a function is one more stack on top
of those of the parts.  `Region.events` tells what a region does in this respect: where instructions are
entered, functions declared, and parts opened and closed.  A `Watch` follows such events with two things:
the number of open parts, and the end of the function being declared with the number of parts around its
declaration.  It refuses what a run refuses: a function that ends at another depth than its own, a function
inside another one, and a jump that holds no part together.

* `Rebuild.tracks_runAll`: what is run successfully is not refused by the watch, and at every point the
  number of saved stacks is that of the open parts, and one more inside a function (`Watch.Sees`).
* `Stream.watch_of_rebuild`: so the watch follows the events of every stream from which statements are
  rebuilt, to its end.
-/

namespace TorqueScript

/-- What running regions does to parts and functions. -/
inductive Event where
  /-- The instruction at the address comes next. -/
  | enter (addr : Addr)
  /-- A function with a body that ends at `stop`. -/
  | declare (addr stop : Addr)
  /-- A jump that is neither a short circuit nor part of the structure. -/
  | stray (addr : Addr)
  | opens
  | closes
  deriving DecidableEq, Repr

namespace Event

/-- The parts that an event opens, less those that it closes. -/
def delta : Event → Int
  | opens => 1
  | closes => -1
  | _ => 0

/-- The parts that events open, less those that they close. -/
def level (es : List Event) : Int :=
  (es.map delta).sum

@[simp] theorem level_nil : level [] = 0 := rfl

@[simp] theorem level_cons (e : Event) (es : List Event) : level (e :: es) = e.delta + level es := by
  simp [level]

@[simp] theorem level_append (es es' : List Event) : level (es ++ es') = level es + level es' := by
  simp [level]

/-- Events that close the parts they open, and no others. -/
structure Balanced (es : List Event) : Prop where
  level_eq : level es = 0
  nonneg : ∀ p q, p ++ q = es → 0 ≤ level p

namespace Balanced

variable {es es' : List Event}

theorem nil : Balanced [] where
  level_eq := rfl
  nonneg p q h := by rw [(List.append_eq_nil_iff.mp h).1]; exact Int.le_refl 0

/-- Balanced events may follow one another. -/
theorem append (h : Balanced es) (h' : Balanced es') : Balanced (es ++ es') where
  level_eq := by rw [level_append, h.level_eq, h'.level_eq]; rfl
  nonneg p q hpq := by
    rcases List.append_eq_append_iff.mp hpq with ⟨r, hr, -⟩ | ⟨r, rfl, hr⟩
    · exact h.nonneg p r hr.symm
    · rw [level_append, h.level_eq, Int.zero_add]
      exact h'.nonneg r q hr.symm

/-- An event that has nothing to do with parts. -/
theorem cons {e : Event} (he : e.delta = 0) (h : Balanced es) : Balanced (e :: es) where
  level_eq := by rw [level_cons, he, h.level_eq]; rfl
  nonneg p q hpq := by
    cases p with
    | nil => exact Int.le_refl 0
    | cons e' p =>
        obtain ⟨rfl, rfl⟩ := List.cons.inj hpq
        rw [level_cons, he, Int.zero_add]
        exact h.nonneg p q rfl

end Balanced

end Event

/-- What an instruction does besides being entered. -/
def Instruction.events (ins : Instruction) : List Event :=
  match ins.operation with
  | .declareFunction _ true stop => [.declare ins.addr stop]
  | .jump kind _ => if kind.isShortCircuit then [] else [.stray ins.addr]
  | _ => []

namespace Region

/-- The events of a part. -/
def partEvents (inside : List Event) : List Event :=
  .opens :: inside ++ [.closes]

mutual

/-- What running a region does. -/
def events : Region → List Event
  | plain ins => .enter ins.addr :: ins.events
  | jump ins _ => [.enter ins.addr]
  | broken _ => []
  | choice head _ _ body => .enter head.addr :: partEvents (listEvents body)
  | choiceElse head _ _ body _ alternative =>
    .enter head.addr :: (partEvents (listEvents body) ++ partEvents (listEvents alternative))
  | loop start _ body split step _ =>
    .enter start :: (partEvents (listEvents body) ++ if split then partEvents (listEvents step) else [])
  | guarded head _ _ body split step _ =>
    .enter head.addr :: (partEvents (listEvents body) ++ if split then partEvents (listEvents step) else [])

/-- What running regions one after the other does. -/
def listEvents : List Region → List Event
  | [] => []
  | region :: regions => region.events ++ listEvents regions

end

/-- The events of a part are level if those inside are. -/
theorem level_partEvents (inside : List Event) : Event.level (partEvents inside) = Event.level inside := by
  simp only [partEvents, Event.level_append, Event.level_cons, Event.level_nil, Event.delta]
  omega

/-- A part is balanced if what is inside is. -/
theorem balanced_partEvents {inside : List Event} (h : Event.Balanced inside) :
    Event.Balanced (partEvents inside) where
  level_eq := by rw [level_partEvents, h.level_eq]
  nonneg p q hpq := by
    cases p with
    | nil => exact Int.le_refl 0
    | cons e p =>
        have hinside : p ++ q = inside ++ [.closes] := (List.cons.inj hpq).2
        obtain rfl : e = .opens := (List.cons.inj hpq).1
        have hp : -1 ≤ Event.level p := by
          rcases List.append_eq_append_iff.mp hinside with ⟨r, hr, -⟩ | ⟨r, rfl, hr⟩
          · have := h.nonneg p r hr.symm
            omega
          · rw [Event.level_append, h.level_eq]
            cases r with
            | nil => decide
            | cons e' r =>
                have hnil : r ++ q = [] := (List.cons.inj hr).2.symm
                rw [← (List.cons.inj hr).1, (List.append_eq_nil_iff.mp hnil).1]
                decide
        rw [Event.level_cons, Event.delta]
        omega

/-- The events of an instruction are balanced. -/
theorem balanced_instruction (ins : Instruction) : Event.Balanced ins.events := by
  unfold Instruction.events
  split
  · exact .cons rfl .nil
  · split
    · exact .nil
    · exact .cons rfl .nil
  · exact .nil

/-- A loop is balanced, its step in a part of its own or not. -/
theorem balanced_loopEvents {es es' : List Event} (split : Bool) (h : Event.Balanced es)
    (h' : Event.Balanced es') :
    Event.Balanced (partEvents es ++ if split then partEvents es' else []) := by
  cases split with
  | true => exact (balanced_partEvents h).append (balanced_partEvents h')
  | false => exact (balanced_partEvents h).append .nil

mutual

/-- A region closes the parts that it opens. -/
theorem balanced_events : ∀ r : Region, Event.Balanced r.events
  | plain ins => .cons rfl (balanced_instruction ins)
  | jump .. => .cons rfl .nil
  | broken _ => .nil
  | choice _ _ _ body => .cons rfl (balanced_partEvents (balanced_listEvents body))
  | choiceElse _ _ _ body _ alternative =>
      .cons rfl ((balanced_partEvents (balanced_listEvents body)).append
        (balanced_partEvents (balanced_listEvents alternative)))
  | loop _ _ body split step _ =>
      .cons rfl (balanced_loopEvents split (balanced_listEvents body) (balanced_listEvents step))
  | guarded _ _ _ body split step _ =>
      .cons rfl (balanced_loopEvents split (balanced_listEvents body) (balanced_listEvents step))

/-- So is a list of regions. -/
theorem balanced_listEvents : ∀ rs : List Region, Event.Balanced (listEvents rs)
  | [] => .nil
  | r :: rs => (balanced_events r).append (balanced_listEvents rs)

end

/-- The events of a region end at the level they begin at. -/
theorem level_events (r : Region) : Event.level r.events = 0 :=
  (balanced_events r).level_eq

theorem level_listEvents (rs : List Region) : Event.level (listEvents rs) = 0 :=
  (balanced_listEvents rs).level_eq

end Region

/-! ### The watch -/

/-- The number of open parts, and the function being declared: its end and the number of parts around its
declaration. -/
structure Watch where
  depth : Nat
  function : Option (Addr × Nat)
  deriving DecidableEq, Repr

namespace Watch

/-- A function ends before an address that its body does not reach; no part in it may be open. -/
def leave (w : Watch) (addr : Addr) : Option Watch :=
  match w.function with
  | some (stop, depth) =>
    if addr < stop then some w
    else if w.depth = depth then some { w with function := none } else none
  | none => some w

/-- Follows an event. -/
def step (w : Watch) : Event → Option Watch
  | .enter addr => w.leave addr
  | .declare _ stop => if w.function.isSome then none else some { w with function := some (stop, w.depth) }
  | .stray _ => none
  | .opens => some { w with depth := w.depth + 1 }
  | .closes => match w.depth with
    | 0 => none
    | depth + 1 => some { w with depth }

/-- Follows events. -/
def run (w : Watch) (events : List Event) : Option Watch :=
  events.foldlM step w

@[simp] theorem run_nil (w : Watch) : w.run [] = some w := rfl

@[simp] theorem run_cons (w : Watch) (e : Event) (es : List Event) :
    w.run (e :: es) = (w.step e).bind (·.run es) := rfl

/-- The watch goes over one list and then over the next. -/
theorem run_append (w : Watch) (es es' : List Event) : w.run (es ++ es') = (w.run es).bind (·.run es') := by
  rw [run, List.foldlM_append]
  rfl

/-- The depth of the watch follows the events. -/
theorem depth_step {w w' : Watch} {e : Event} (h : w.step e = some w') : (w'.depth : Int) = w.depth + e.delta := by
  cases e with
  | enter addr =>
      simp only [step, leave] at h
      split at h
      · split at h
        · cases h; simp [Event.delta]
        · split at h
          · cases h; simp [Event.delta]
          · cases h
      · cases h; simp [Event.delta]
  | declare addr stop =>
      simp only [step] at h
      split at h
      · cases h
      · cases h; simp [Event.delta]
  | stray addr => cases h
  | opens => cases h; simp [Event.delta]
  | closes =>
      simp only [step] at h
      split at h
      · cases h
      · next depth hdepth =>
          cases h
          simp only [Event.delta]
          omega

/-- The depth follows the level of the events. -/
theorem depth_run {w w' : Watch} {es : List Event} (h : w.run es = some w') :
    (w'.depth : Int) = w.depth + Event.level es := by
  induction es generalizing w with
  | nil => cases h; simp
  | cons e es ih =>
      obtain ⟨w₁, hstep, hrun⟩ := Option.bind_eq_some_iff.mp h
      rw [ih hrun, depth_step hstep, Event.level_cons, Int.add_assoc]

/-- The watch knows the state of rebuilding. -/
structure Sees (w : Watch) (s : Rebuild.State) : Prop where
  length_saved : s.saved.length = w.depth + if s.function.isSome then 1 else 0
  function_eq : s.function.map (fun frame => (frame.stop, frame.depth)) = w.function

end Watch

namespace Rebuild

variable {α β : Type}

/-! ### What leaves parts and functions alone -/

/-- The stacks around the current part and the function being declared are as given. -/
def Around (saved : List (List Operand)) (function : Option FunctionFrame) (s : State) : Prop :=
  s.saved = saved ∧ s.function = function

/-- The computation changes neither the stacks around the current part nor the function being declared. -/
def Still (x : Rebuild α) : Prop :=
  ∀ saved function, Keeps (Around saved function) x fun _ => True

namespace Still

/-- Computations that leave parts and functions alone may follow one another. -/
theorem bind {x : Rebuild α} {f : α → Rebuild β} (hx : Still x) (hf : ∀ a, Still (f a)) : Still (x >>= f) :=
  fun saved function => (hx saved function).bind fun a _ => hf a saved function

theorem pure (a : α) : Still (Pure.pure a) :=
  fun _ _ => .pure trivial

theorem throw (e : Error) : Still (throwThe Error e : Rebuild α) :=
  fun _ _ => .throw e

end Still

variable {ins : Instruction}

/-- Nothing about nodes is needed to know that the stacks around stay as they are. -/
theorem carried_true : Carried (fun _ => True) fun _ => True where
  node _ := trivial
  taken _ _ := trivial
  slot _ _ := trivial
  make _ _ _ := trivial
  fields _ _ := trivial
  children _ _ := trivial
  ret _ := trivial

/-- To be around given parts and a given function is to carry them through. -/
theorem around_iff {saved : List (List Operand)} {function : Option FunctionFrame} {s : State} :
    s.Carries (fun _ => True) (fun _ => True) (fun os f => os = saved ∧ f = function) ↔
      Around saved function s :=
  ⟨State.Carries.around, fun h => ⟨fun o _ => by cases o <;> trivial, fun _ _ _ _ => trivial, h⟩⟩

/-- What carries every choice of parts and functions leaves them alone. -/
theorem still_of_carries {x : Rebuild α} {P : α → Prop} (h : ∀ saved function, Keeps
    (State.Carries (fun _ => True) (fun _ => True) fun os f => os = saved ∧ f = function) x P) : Still x := by
  intro saved function s a t hs hx
  exact ⟨((h saved function).congr (fun _ => around_iff) s a t hs hx).1, trivial⟩

theorem still_push (n : Node) : Still (push n) :=
  still_of_carries fun _ _ => carried_true.push trivial

theorem still_pop : Still (pop ins) :=
  still_of_carries fun _ _ => carried_true.pop

theorem still_foldLogic (addr : Addr) : Still (foldLogic addr) :=
  still_of_carries fun _ _ => carried_true.foldLogic addr

/-- Only a declaration of a function with a body begins something. -/
theorem still_step (h : ∀ signature stop, ins.operation ≠ .declareFunction signature true stop) :
    Still (step ins) := by
  refine still_of_carries fun _ _ => carried_true.step fun signature hasBody stop heq => ?_
  cases hasBody with
  | true => exact absurd heq (h signature stop)
  | false => exact Carried.declareFunction stop trivial

/-! ### What is run is watched -/

/-- From a depth of at least `d`, a successful computation does what the events tell. -/
def Tracks (d : Nat) (x : Rebuild α) (events : List Event) : Prop :=
  ∀ s a t w, Watch.Sees w s → d ≤ w.depth → x s = .ok (a, t) → ∃ w', w.run events = some w' ∧ w'.Sees t

namespace Tracks

variable {d d' : Nat} {x : Rebuild α} {f : α → Rebuild β} {es es' : List Event}

/-- A part that may go as deep as some level may go deeper. -/
theorem mono (h : Tracks d x es) (hle : d ≤ d') : Tracks d' x es :=
  fun s a t w hw hd => h s a t w hw (hle.trans hd)

/-- **Tracked computations follow one another**, the second from the level where the first ends. -/
theorem bind (hx : Tracks d x es) (hf : ∀ a, Tracks d' (f a) es') (hlevel : (d' : Int) ≤ d + Event.level es) :
    Tracks d (x >>= f) (es ++ es') := by
  intro s b u w hw hd h
  obtain ⟨a, t, hxa, hfa⟩ := bind_eq_ok h
  obtain ⟨w', hrun, hw'⟩ := hx s a t w hw hd hxa
  have hdepth := Watch.depth_run hrun
  obtain ⟨w'', hrun', hw''⟩ := hf a t b u w' hw' (by omega) hfa
  refine ⟨w'', ?_, hw''⟩
  rw [Watch.run_append, hrun]
  exact hrun'

theorem throw (e : Error) : Tracks d (throwThe Error e : Rebuild α) es := by
  intro s a t w _ _ h
  cases h

end Tracks

/-- What leaves parts and functions alone has no events. -/
theorem Still.tracks {x : Rebuild α} (h : Still x) : Tracks 0 x [] := by
  intro s a t w hw _ hx
  obtain ⟨hsaved, hfunction⟩ := (h s.saved s.function s a t ⟨rfl, rfl⟩ hx).1
  refine ⟨w, rfl, ?_, ?_⟩
  · rw [hsaved, hfunction, hw.length_saved]
  · rw [hfunction, hw.function_eq]

/-- Opening a part is the opening event. -/
theorem tracks_openPart : Tracks 0 openPart [.opens] := by
  rintro s _ _ w hw - ⟨⟩
  refine ⟨{ w with depth := w.depth + 1 }, rfl, ?_, hw.function_eq⟩
  show s.saved.length + 1 = _
  rw [hw.length_saved, Nat.add_right_comm]

/-- Closing a part is the closing event, one level in. -/
theorem tracks_closePart (addr : Addr) : Tracks 1 (closePart addr) [.closes] := by
  intro s ns t w hw hd h
  obtain ⟨outer, saved, hsaved, -, rfl⟩ := closePart_eq_ok h
  obtain ⟨depth, function⟩ := w
  cases depth with
  | zero => cases hd
  | succ depth =>
      refine ⟨⟨depth, function⟩, rfl, ?_, hw.function_eq⟩
      have hlength := hw.length_saved
      rw [hsaved, List.length_cons] at hlength
      dsimp only at hlength ⊢
      omega

/-- What a function leaves when it ends. -/
theorem endFunction_eq {addr : Addr} {s t : State} {frame : FunctionFrame} (hframe : s.function = some frame)
    (h : endFunction addr s = .ok ((), t)) :
    ∃ body outer saved, s.saved = outer :: saved ∧ saved.length = frame.depth ∧
      statements addr s.operands = .ok body ∧
      t = { s with function := none, operands := .node (.function frame.signature body) :: outer, saved } := by
  obtain ⟨_, _, ⟨⟩, h⟩ := bind_eq_ok h
  rw [hframe] at h
  dsimp only at h
  split at h
  · cases h
  · next hdepth =>
      obtain ⟨_, _, ⟨⟩, h⟩ := bind_eq_ok h
      obtain ⟨body, _, hclose, ⟨⟩⟩ := bind_eq_ok h
      obtain ⟨outer, saved, hsaved, hstatements, rfl⟩ := closePart_eq_ok hclose
      have hsaved : s.saved = outer :: saved := hsaved
      rw [not_not, hsaved, List.length_cons] at hdepth
      exact ⟨body, outer, saved, hsaved, Nat.succ.inj hdepth, hstatements, rfl⟩

/-- Outside of functions there is none to end. -/
theorem endFunction_of_none {addr : Addr} {s : State} (h : s.function = none) :
    endFunction addr s = .ok ((), s) := by
  unfold endFunction
  rw [get_bind, h]
  rfl

/-- A function ends at the depth of its declaration. -/
theorem endFunction_eq_ok {addr : Addr} {s t : State} {frame : FunctionFrame} (hframe : s.function = some frame)
    (h : endFunction addr s = .ok ((), t)) :
    s.saved.length = frame.depth + 1 ∧ t.saved.length + 1 = s.saved.length ∧ t.function = none := by
  obtain ⟨body, outer, saved, hsaved, hdepth, -, rfl⟩ := endFunction_eq hframe h
  rw [hsaved, List.length_cons, hdepth]
  exact ⟨rfl, rfl, rfl⟩

/-- A function whose end has been reached is left. -/
theorem function_closeFunction {addr : Addr} {s t : State} (h : closeFunction addr s = .ok ((), t)) :
    t.function = s.function.filter (addr < ·.stop) := by
  obtain ⟨_, _, ⟨⟩, h⟩ := bind_eq_ok h
  cases hframe : s.function with
  | none =>
      rw [hframe] at h
      cases h
      exact hframe
  | some frame =>
      rw [hframe] at h
      dsimp only at h
      split at h
      · next hlt =>
          cases h
          rw [hframe, Option.filter_some, if_pos (decide_eq_true hlt)]
      · next hlt =>
          rw [(endFunction_eq_ok hframe h).2.2, Option.filter_some, if_neg (by simpa using hlt)]

/-- A function is closed as an address is entered. -/
theorem tracks_closeFunction (addr : Addr) : Tracks 0 (closeFunction addr) [.enter addr] := by
  intro s _ t w hw _ h
  obtain ⟨_, s₁, ⟨⟩, h⟩ := bind_eq_ok h
  have hfunction := hw.function_eq
  have hlength := hw.length_saved
  cases hframe : s.function with
  | none =>
      rw [hframe] at h hfunction
      cases h
      refine ⟨w, ?_, hw⟩
      rw [Watch.run_cons, Watch.step, Watch.leave, ← hfunction]
      rfl
  | some frame =>
      rw [hframe] at h hfunction hlength
      dsimp only at h
      rw [Watch.run_cons, Watch.step, Watch.leave, ← hfunction]
      dsimp only [Option.map_some]
      split at h
      · next hlt =>
          cases h
          rw [if_pos hlt]
          exact ⟨w, rfl, hw⟩
      · next hlt =>
          obtain ⟨hdepth, hsaved, hnone⟩ := endFunction_eq_ok hframe h
          simp only [Option.isSome_some, if_true] at hlength
          rw [if_neg hlt, if_pos (by omega)]
          refine ⟨{ w with function := none }, rfl, ?_, by rw [hnone]; rfl⟩
          rw [hnone]
          simp only [Option.isSome_none, Bool.false_eq_true, if_false]
          omega

/-- To enter an address is the entering event. -/
theorem tracks_enter (addr : Addr) : Tracks 0 (enter addr) [.enter addr] :=
  (tracks_closeFunction addr).bind (fun _ => (still_foldLogic addr).tracks) (by simp [Event.level, Event.delta])

/-- **A step has the events of its instruction.** -/
theorem tracks_step (ins : Instruction) : Tracks 0 (step ins) ins.events := by
  by_cases hdeclares : ∃ signature stop, ins.operation = .declareFunction signature true stop
  · obtain ⟨signature, stop, hoperation⟩ := hdeclares
    intro s _ t w hw _ h
    rw [step, hoperation] at h
    obtain ⟨_, s₁, ⟨⟩, h⟩ := bind_eq_ok h
    have hfunction := hw.function_eq
    have hlength := hw.length_saved
    split at h
    · cases h
    · next hnone =>
        rw [if_pos rfl] at h
        obtain ⟨_, s₂, ⟨⟩, h⟩ := bind_eq_ok h
        cases h
        have hnone : s.function = none := by simpa using hnone
        rw [hnone] at hfunction hlength
        rw [Instruction.events, hoperation, Watch.run_cons, Watch.step, ← hfunction]
        refine ⟨{ w with function := some (stop, w.depth) }, rfl, ?_, ?_⟩
        · show s.saved.length + 1 = _
          rw [hlength]
          rfl
        · show some (stop, s.saved.length) = _
          rw [hlength]
          rfl
  · have hstill : Still (step ins) := still_step fun signature stop h => hdeclares ⟨signature, stop, h⟩
    unfold Instruction.events
    split
    · next h => exact absurd ⟨_, _, h⟩ hdeclares
    · next kind target h =>
        split
        · exact hstill.tracks
        · next hkind =>
            rw [step, h]
            dsimp only
            rw [if_neg hkind]
            exact .throw _
    · exact hstill.tracks

/-! ### Regions -/

theorem still_fallThrough (kind : JumpKind) : Still (fallThrough ins kind) :=
  still_pop.bind fun _ => .pure _

theorem still_leave (kind : BranchKind) : Still (leave ins kind) := by
  cases kind with
  | leave | nextRound => exact still_push _
  | alternative => exact .throw _

theorem still_takeInit (condition : Node) : Still (takeInit condition) :=
  still_of_carries fun _ _ => carried_true.takeInit condition

theorem still_guardedLoop (guard : Node) (parts : LoopParts) : Still (guardedLoop guard parts) := by
  unfold guardedLoop
  split
  · exact still_push _
  · split
    · split
      · exact still_push _
      · exact (still_takeInit _).bind fun _ => still_push _
    · exact still_push _

/-- A part: what is run in it, its end, and what comes then. -/
theorem tracks_part {γ : Type} {x : Rebuild Unit} {c : Rebuild γ} {f : γ → Rebuild α} {es es' : List Event}
    (hx : Tracks 0 x es) (hes : Event.level es = 0) (hc : Tracks 1 c [.closes])
    (hf : ∀ a, Tracks 0 (f a) es') :
    Tracks 0 (do openPart; x; let a ← c; f a) (Region.partEvents es ++ es') := by
  have hclose := hc.bind hf (by simp [Event.delta])
  have hbody := (hx.mono (Nat.zero_le 1)).bind (fun _ => hclose) (by simp [hes])
  have hopen := tracks_openPart.bind (fun _ => hbody) (by simp [Event.delta])
  simpa [Region.partEvents] using hopen

/-- A part behind which nothing happens to parts and functions. -/
theorem tracks_lastPart {γ : Type} {x : Rebuild Unit} {c : Rebuild γ} {f : γ → Rebuild α} {es : List Event}
    (hx : Tracks 0 x es) (hes : Event.level es = 0) (hc : Tracks 1 c [.closes]) (hf : ∀ a, Still (f a)) :
    Tracks 0 (do openPart; x; let a ← c; f a) (Region.partEvents es) := by
  have h := tracks_part hx hes hc fun a => (hf a).tracks
  rwa [List.append_nil] at h

theorem tracks_endLoop (stop : Addr) (back : Option (Instruction × JumpKind)) :
    Tracks 1 (endLoop stop back) [.closes] := by
  cases back with
  | none => exact .throw _
  | some p =>
      have hfold := (still_foldLogic p.1.addr).tracks.mono (Nat.zero_le 1)
      have hpop : Tracks 1 (pop p.1) [] := still_pop.tracks.mono (Nat.zero_le 1)
      exact hfold.bind (fun _ => hpop.bind (fun _ => (tracks_closePart p.1.addr).bind
        (fun _ => (Still.pure _).tracks) (by simp [Event.delta])) (by simp)) (by simp)

/-- The parts of a loop are tracked if its body and its step are. -/
theorem tracks_loopParts {body step : Rebuild Unit} {es es' : List Event} (stop : Addr) (split : Bool)
    (back : Option (Instruction × JumpKind)) (hbody : Tracks 0 body es) (hstep : Tracks 0 step es')
    (hes : Event.level es = 0) (hes' : Event.level es' = 0) :
    Tracks 0 (loopParts stop body split step back)
      (Region.partEvents es ++ if split then Region.partEvents es' else []) := by
  cases split with
  | true =>
      exact tracks_part hbody hes (tracks_closePart stop) fun _ =>
        tracks_lastPart hstep hes' (tracks_endLoop stop back) fun _ => .pure _
  | false =>
      rw [if_neg Bool.false_ne_true, List.append_nil]
      exact tracks_lastPart hbody hes (tracks_endLoop stop back) fun _ => .pure _

/-- A loop and the statement that is made of it. -/
theorem tracks_loop {body step : List Region} {f : LoopParts → Rebuild α} (stop : Addr) (split : Bool)
    (back : Option (Instruction × JumpKind)) (hbody : Tracks 0 (runAll body) (Region.listEvents body))
    (hstep : Tracks 0 (runAll step) (Region.listEvents step)) (hf : ∀ parts, Still (f parts)) :
    Tracks 0 (loopParts stop (runAll body) split (runAll step) back >>= f)
      (Region.partEvents (Region.listEvents body) ++
        if split then Region.partEvents (Region.listEvents step) else []) := by
  have hes := Region.level_listEvents body
  have hes' := Region.level_listEvents step
  have h := (tracks_loopParts stop split back hbody hstep hes hes').bind (fun parts => (hf parts).tracks) (by
    cases split <;> simp [Region.level_partEvents, hes, hes'])
  rwa [List.append_nil] at h

mutual

/-- **Regions** do what their events tell. -/
theorem tracks_run (r : Region) : Tracks 0 (run r) r.events := by
  cases r with
  | plain ins => exact (tracks_enter _).bind (fun _ => tracks_step ins) (by simp [Event.delta])
  | jump ins kind => exact (tracks_enter _).bind (fun _ => (still_leave kind).tracks) (by simp [Event.delta])
  | broken addr => exact .throw _
  | choice head kind stop body =>
      exact (tracks_enter _).bind (fun _ => (still_fallThrough kind).tracks.bind (fun _ =>
        tracks_lastPart (tracks_runAll body) (Region.level_listEvents body) (tracks_closePart stop) fun _ =>
          still_push _) (by simp)) (by simp [Event.delta])
  | choiceElse head kind stop body separator alternative =>
      exact (tracks_enter _).bind (fun _ => (still_fallThrough kind).tracks.bind (fun _ =>
        tracks_part (tracks_runAll body) (Region.level_listEvents body) (tracks_closePart stop) fun _ =>
          tracks_lastPart (tracks_runAll alternative) (Region.level_listEvents alternative)
            (tracks_closePart separator) fun _ => still_push _) (by simp)) (by simp [Event.delta])
  | loop start stop body split step back =>
      exact (tracks_enter _).bind (fun _ => tracks_loop stop split back (tracks_runAll body)
        (tracks_runAll step) fun _ => still_push _) (by simp [Event.delta])
  | guarded head kind stop body split step back =>
      exact (tracks_enter _).bind (fun _ => (still_fallThrough kind).tracks.bind (fun _ =>
        tracks_loop stop split back (tracks_runAll body) (tracks_runAll step) fun parts =>
          still_guardedLoop _ parts) (by simp)) (by simp [Event.delta])

/-- A list of regions is tracked by the events of its regions. -/
theorem tracks_runAll (rs : List Region) : Tracks 0 (runAll rs) (Region.listEvents rs) := by
  cases rs with
  | nil => exact (Still.pure _).tracks
  | cons r rs => exact (tracks_run r).bind (fun _ => tracks_runAll rs) (by simp [Region.level_events])

end

end Rebuild

namespace Stream

variable {instrs : List Instruction} {tree : Block} {nodes : List Node}

/-- **Streams** from which statements are rebuilt are watched to their end, where a function that is still
being declared has no part around it. -/
theorem watch_of_rebuild (h : (rebuild tree instrs).outcome.1 = .ok nodes) :
    ∃ w, Watch.run ⟨0, none⟩ (Region.listEvents (Region.ofStream tree instrs)) = some w ∧
      ∀ p ∈ w.function, w.depth = p.2 := by
  cases hrun : StateT.run (run tree instrs) {} with
  | error e =>
      rw [rebuild, hrun] at h
      cases h
  | ok p =>
      obtain ⟨_, t, hall, hclose⟩ := Rebuild.bind_eq_ok (x := Rebuild.runAll _) hrun
      obtain ⟨w, hw, hsees⟩ := Rebuild.tracks_runAll _ {} () t ⟨0, none⟩ ⟨rfl, rfl⟩ (Nat.zero_le 0) hall
      refine ⟨w, hw, fun q hq => ?_⟩
      rw [← hsees.function_eq] at hq
      obtain ⟨frame, hframe, rfl⟩ := Option.map_eq_some_iff.mp hq
      obtain ⟨_, t', hend, -⟩ := Rebuild.bind_eq_ok (x := Rebuild.endFunction _) hclose
      obtain ⟨hdepth, -, -⟩ := Rebuild.endFunction_eq_ok hframe hend
      have hlength := hsees.length_saved
      rw [hframe, Option.isSome_some, if_pos rfl] at hlength
      omega

end Stream

end TorqueScript
