import TorqueScript.Proofs.Layers

/-!
# Functions in rebuilt trees

Parts of the stream are put together by position: whatever part is open last is closed first, and a function
is closed when an instruction behind its end comes up.  So the body of a function may end up in another part
than the one it was declared in.  All the same it never gets a function into it.

While a function is being declared, no other one can be, and the stacks above that of its declaration were
opened after it.  So these stacks hold no functions, and a function is made of what one of them holds.  This is
`Rebuild.State.Apart`: the stacks around the current one are graded by their number (`Rebuild.Grade`,
`Rebuild.Graded`).  What has been taken out of one part and waits for another one has to be graded as well,
because a function may be declared in between.  But such a function has a stack that lies above the one where
the waiting statements are put in the end (`Watch.function_of_run`, `Rebuild.watched_part`).

**Functions in rebuilt trees** (`Stream.unnested_of_run`).  Statements are rebuilt without functions inside
of functions, and then grouped into packages.
-/

namespace TorqueScript

namespace Node

variable {n : Node}

/-- The declaration of a function. -/
def isFunction : Node → Bool
  | function .. => true
  | _ => false

/-- A package. -/
def isPackage : Node → Bool
  | package .. => true
  | _ => false

/-- There is no package in the node, and no function in a function. -/
def Unnested (n : Node) : Prop :=
  ∀ m ∈ n.subnodes, m.isPackage = false ∧ (m.isFunction = true → ∀ c ∈ m.children, c.Free isFunction)

/-- A node is unnested if it is no package, has no function within a function, and its children are unnested. -/
theorem unnested_iff : n.Unnested ↔
    (n.isPackage = false ∧ (n.isFunction = true → ∀ c ∈ n.children, c.Free isFunction)) ∧
      ∀ c ∈ n.children, c.Unnested :=
  forall_subnodes_iff

theorem isStatement_of_isFunction (h : n.isFunction = true) : n.isStatement = true := by
  cases n <;> first | rfl | cases h

theorem isStatement_of_isPackage (h : n.isPackage = true) : n.isStatement = true := by
  cases n <;> first | rfl | cases h

/-- A composite is no function. -/
theorem isFunction_of_isComposite (h : n.isComposite = true) : n.isFunction = false := by
  cases n <;> first | rfl | cases h

/-- Nor is it a package. -/
theorem isPackage_of_isComposite (h : n.isComposite = true) : n.isPackage = false := by
  cases n <;> first | rfl | cases h

/-- There are no functions in expressions. -/
theorem Free.isFunction (h : n.Free isStatement) : n.Free isFunction :=
  h.mono fun _ => isStatement_of_isFunction

/-- A node without statements is unnested. -/
theorem Free.unnested (h : n.Free isStatement) : n.Unnested := fun m hm =>
  ⟨h.mono (fun _ => isStatement_of_isPackage) m hm, fun hfunction =>
    absurd (hfunction.symm.trans (h.isFunction m hm)) (by decide)⟩

end Node

namespace Watch

open Event

variable {w w' : Watch} {es : List Event} {base : Nat}

/-- Following an event, the function is the same as before, or it is declared at the present depth. -/
theorem function_of_step {e : Event} (h : w.step e = some w') :
    ∀ f ∈ w'.function, f ∈ w.function ∨ f.2 = w.depth := by
  intro f hf
  cases e with
  | enter addr =>
      simp only [step, leave] at h
      split at h
      · split at h
        · cases h; exact .inl hf
        · split at h
          · cases h; cases hf
          · cases h
      · cases h; exact .inl hf
  | declare addr stop =>
      simp only [step] at h
      split at h
      · cases h
      · cases h
        cases hf
        exact .inr rfl
  | stray addr => cases h
  | opens => cases h; exact .inl hf
  | closes =>
      simp only [step] at h
      split at h
      · cases h
      · cases h; exact .inl hf

/-- Where the depth never falls below `base`, no function is declared below it. -/
theorem function_of_run (h : w.run es = some w') (hbase : ∀ p q, p ++ q = es → (base : Int) ≤ w.depth + level p) :
    ∀ f ∈ w'.function, f ∈ w.function ∨ base ≤ f.2 := by
  induction es generalizing w with
  | nil =>
      cases h
      exact fun f hf => .inl hf
  | cons e es ih =>
      obtain ⟨v, hstep, hrun⟩ := Option.bind_eq_some_iff.mp h
      have hdepth := depth_step hstep
      intro f hf
      have hv := ih hrun (fun p q hpq => by
        have := hbase (e :: p) q (by rw [List.cons_append, hpq])
        rw [level_cons] at this
        omega) f hf
      rcases hv with hv | hv
      · refine (function_of_step hstep f hv).imp_right fun heq => ?_
        have := hbase [] (e :: es) rfl
        rw [level_nil] at this
        omega
      · exact .inr hv

end Watch

namespace Rebuild

variable {α β : Type} {function : Option FunctionFrame} {level : Nat} {n : Node} {held : List Node} {s : State}

/-! ### Graded stacks -/

/-- What the stack with the given number of stacks below it may hold: nothing is nested, and there are no
functions at all if the stack lies above that of the declaration. -/
structure Grade (function : Option FunctionFrame) (level : Nat) (n : Node) : Prop where
  unnested : n.Unnested
  free : ∀ frame ∈ function, frame.depth < level → n.Free Node.isFunction

/-- A lower grade may be asked of a node. -/
theorem Grade.mono {level' : Nat} (h : Grade function level n) (hle : level' ≤ level) :
    Grade function level' n where
  unnested := h.unnested
  free frame hframe hlt := h.free frame hframe (hlt.trans_le hle)

/-- Below the declaration of a function it does not matter. -/
theorem Grade.below {function' : Option FunctionFrame} (h : Grade function level n)
    (hfunction' : ∀ frame ∈ function', level ≤ frame.depth) : Grade function' level n where
  unnested := h.unnested
  free frame hframe hlt := absurd (hfunction' frame hframe) (Nat.not_le.mpr hlt)

/-- Grades compose. -/
theorem composes_grade (function : Option FunctionFrame) (level : Nat) :
    Composes (Grade function level) (Grade function level) where
  expression _ h := ⟨h.unnested, fun _ _ _ => h.isFunction⟩
  composite n hn hslots hbodies := by
    have hchildren : ∀ c ∈ n.children, Grade function level c := by
      intro c hc
      rcases Node.mem_children_iff.mp hc with hc | hc
      · exact ⟨(hslots c hc).unnested, fun _ _ _ => (hslots c hc).isFunction⟩
      · simpa using hbodies c hc
    have hfunction := Node.isFunction_of_isComposite hn
    refine ⟨Node.unnested_iff.mpr ⟨⟨Node.isPackage_of_isComposite hn, fun h => ?_⟩, fun c hc => ?_⟩, ?_⟩
    · exact absurd (h.symm.trans hfunction) (by decide)
    · exact (hchildren c hc).unnested
    · exact fun frame hframe hlt =>
        Node.free_iff.mpr ⟨hfunction, fun c hc => (hchildren c hc).free frame hframe hlt⟩

/-- Stacks, the uppermost first, hold what they may hold. -/
def Graded (function : Option FunctionFrame) : List (List Operand) → Prop
  | [] => True
  | os :: rest => (∀ o ∈ os, o.Holds (Grade function rest.length)) ∧ Graded function rest

/-- Piles that are graded stay so when a function starts no higher than they are. -/
theorem Graded.below {function' : Option FunctionFrame} {piles : List (List Operand)}
    (h : Graded function piles) (hfunction' : ∀ frame ∈ function', piles.length ≤ frame.depth + 1) :
    Graded function' piles := by
  induction piles with
  | nil => trivial
  | cons os rest ih =>
      have hrest : ∀ frame ∈ function', rest.length ≤ frame.depth := fun frame hframe =>
        Nat.le_of_succ_le_succ (hfunction' frame hframe)
      exact ⟨fun o ho => (h.1 o ho).mono fun _ hn => hn.below hrest,
        ih h.2 fun frame hframe => (hrest frame hframe).trans (Nat.le_succ _)⟩

/-- All stacks hold what they may hold, and the statements held aside may be put on the current one. -/
structure State.Apart (held : List Node) (s : State) : Prop where
  current : s.Holds (Grade s.function s.saved.length)
  around : Graded s.function s.saved
  held : ∀ n ∈ held, n.Layered ∧ Grade s.function s.saved.length n

/-- What leaves parts and functions alone, and keeps the grade of the current stack. -/
theorem Still.apart {x : Rebuild α} {P : α → Prop} (hstill : Still x)
    (hx : ∀ function level, (∀ n ∈ held, n.Layered ∧ Grade function level n) →
      Keeps (State.Holds (Grade function level)) x P) :
    Keeps (State.Apart held) x P := by
  intro s a t hs h
  obtain ⟨hsaved, hfunction⟩ := (hstill s.saved s.function s a t ⟨rfl, rfl⟩ h).1
  obtain ⟨ht, ha⟩ := hx s.function s.saved.length hs.held s a t hs.current h
  refine ⟨⟨?_, ?_, ?_⟩, ha⟩
  · rwa [hsaved, hfunction]
  · rw [hsaved, hfunction]
    exact hs.around
  · rw [hsaved, hfunction]
    exact hs.held

/-! ### Functions -/

/-- The stack of a function holds no functions, so the function may be put on the one below it. -/
theorem apart_endFunction (addr : Addr) : Keeps (State.Apart []) (endFunction addr) fun _ => True := by
  intro s _ t hs h
  cases hframe : s.function with
  | none =>
      rw [endFunction_of_none hframe] at h
      cases h
      exact ⟨hs, trivial⟩
  | some frame =>
      obtain ⟨body, outer, saved, hsaved, hdepth, hstatements, rfl⟩ := endFunction_eq hframe h
      obtain ⟨hcurrent, haround, -⟩ := hs
      rw [hframe, hsaved] at hcurrent haround
      have hbody : ∀ c ∈ body, c.Layered ∧ Grade (some frame) (saved.length + 1) c :=
        holds_of_statements hcurrent.operands hstatements
      have hfunction : Grade none saved.length (.function frame.signature body) := by
        refine ⟨Node.unnested_iff.mpr ⟨⟨rfl, fun _ c hc => ?_⟩, fun c hc => (hbody c hc).2.unnested⟩, nofun⟩
        exact (hbody c hc).2.free frame rfl (Nat.lt_succ_of_le hdepth.ge)
      have hlayered := Node.layered_of_bodies (n := .function frame.signature body) rfl nofun fun c hc =>
        (hbody c hc).1
      have hoperand : Operand.Holds (Grade none saved.length) (.node (.function frame.signature body)) :=
        ⟨hlayered, hfunction⟩
      have hbelow : Graded none (outer :: saved) := haround.below nofun
      have hoperands := List.forall_mem_cons.mpr ⟨hoperand, hbelow.1⟩
      exact ⟨⟨⟨hoperands, hcurrent.frames⟩, hbelow.2, nofun⟩, trivial⟩

/-- Entering an address outside of parts keeps functions apart. -/
theorem apart_enter (addr : Addr) : Keeps (State.Apart []) (enter addr) fun _ => True :=
  .enter (apart_endFunction addr) <|
    (still_foldLogic addr).apart fun _ _ _ => holds_foldLogic (composes_grade _ _) addr

/-- The stack of a function begins empty. -/
theorem apart_declareFunction (ins : Instruction) (signature : Signature) (hasBody : Bool) (stop : Addr) :
    Keeps (State.Apart []) (declareFunction ins signature hasBody stop) fun _ => True := by
  intro s _ t hs h
  obtain ⟨_, _, ⟨⟩, h⟩ := bind_eq_ok h
  split at h
  · cases h
  · next hnone =>
      have hnone : s.function = none := by simpa using hnone
      obtain ⟨hcurrent, haround, -⟩ := hs
      rw [hnone] at hcurrent haround
      cases hasBody with
      | true =>
          rw [if_pos rfl] at h
          obtain ⟨_, _, ⟨⟩, ⟨⟩⟩ := bind_eq_ok h
          have hbelow : Graded none (s.operands :: s.saved) := ⟨hcurrent.operands, haround⟩
          refine ⟨⟨⟨nofun, hcurrent.frames⟩, hbelow.below ?_, nofun⟩, trivial⟩
          rintro _ ⟨⟩
          exact le_rfl
      | false =>
          rw [if_neg Bool.false_ne_true] at h
          cases h
          have hgrade : Grade none s.saved.length (.function signature []) :=
            ⟨Node.unnested_iff.mpr ⟨⟨rfl, fun _ => nofun⟩, nofun⟩, nofun⟩
          refine ⟨⟨⟨?_, hcurrent.frames⟩, ?_, nofun⟩, trivial⟩
          · show ∀ o ∈ _ :: s.operands, o.Holds (Grade s.function s.saved.length)
            rw [hnone]
            exact List.forall_mem_cons.mpr ⟨⟨Node.layered_of_bodies rfl nofun nofun, hgrade⟩, hcurrent.operands⟩
          · show Graded s.function s.saved
            rwa [hnone]

/-- So does a step. -/
theorem apart_step (ins : Instruction) : Keeps (State.Apart []) (step ins) fun _ => True := by
  by_cases hdeclares : ∃ signature hasBody stop, ins.operation = .declareFunction signature hasBody stop
  · obtain ⟨signature, hasBody, stop, hoperation⟩ := hdeclares
    rw [step, hoperation]
    exact apart_declareFunction ins signature hasBody stop
  · have hother : ∀ signature hasBody stop, ins.operation ≠ .declareFunction signature hasBody stop :=
      fun signature hasBody stop h => hdeclares ⟨signature, hasBody, stop, h⟩
    exact (still_step fun signature stop => hother signature true stop).apart fun _ _ _ =>
      holds_step (composes_grade _ _) hother

/-! ### Parts -/

/-- The computation closes the parts that it opens. -/
def Closes (x : Rebuild α) : Prop :=
  ∃ es, Event.Balanced es ∧ Tracks 0 x es

/-- A balanced computation may be followed by one that leaves parts alone. -/
theorem Closes.still {x : Rebuild α} {f : α → Rebuild β} (hx : Closes x) (hf : ∀ a, Still (f a)) :
    Closes (x >>= f) := by
  obtain ⟨es, hes, htracks⟩ := hx
  have hbind := htracks.bind (fun a => (hf a).tracks) (by rw [hes.level_eq]; rfl)
  rw [List.append_nil] at hbind
  exact ⟨es, hes, hbind⟩

/-- Regions are balanced. -/
theorem closes_runAll (rs : List Region) : Closes (runAll rs) :=
  ⟨_, Region.balanced_listEvents rs, tracks_runAll rs⟩

/-- The state is watched, and functions are apart in it. -/
structure State.Watched (held : List Node) (s : State) : Prop extends s.Apart held where
  watched : ∃ w : Watch, w.Sees s

/-- **What keeps functions apart and is tracked keeps the state watched.** -/
theorem Keeps.watched {x : Rebuild α} {P : α → Prop} {es : List Event} (h : Keeps (State.Apart held) x P)
    (htracks : Tracks 0 x es) : Keeps (State.Watched held) x P := by
  intro s a t hs hx
  obtain ⟨ht, ha⟩ := h s a t hs.toApart hx
  obtain ⟨w, hw⟩ := hs.watched
  obtain ⟨w', -, hw'⟩ := htracks s a t w hw (Nat.zero_le _) hx
  exact ⟨⟨ht, w', hw'⟩, ha⟩

/-- Less may be held. -/
theorem State.Watched.mono {held' : List Node} (h : s.Watched held) (hsub : held' ⊆ held) : s.Watched held' :=
  { h with held := fun n hn => h.held n (hsub hn) }

/-- Behind a part, the watch has the depth that it had in front of it.  The function is the same as before, or
it was declared in the part. -/
theorem watch_of_part {x : Rebuild β} {w : Watch} {s₁ s₂ t : State} {b : β} {addr : Addr} {ns : List Node}
    (hw : w.Sees s) (hcloses : Closes x) (hopen : openPart s = .ok ((), s₁)) (hx : x s₁ = .ok (b, s₂))
    (hclose : closePart addr s₂ = .ok (ns, t)) :
    ∃ w' : Watch, w'.Sees t ∧ w'.depth = w.depth ∧ ∀ f ∈ w'.function, f ∈ w.function ∨ w.depth < f.2 := by
  obtain ⟨es, hes, htracks⟩ := hcloses
  obtain ⟨w₁, ⟨⟩, hw₁⟩ := tracks_openPart s () s₁ w hw (Nat.zero_le _) hopen
  obtain ⟨w₂, hrun, hw₂⟩ := htracks s₁ b s₂ _ hw₁ (Nat.zero_le _) hx
  have hdepth := Watch.depth_run hrun
  rw [hes.level_eq] at hdepth
  dsimp only at hdepth
  obtain ⟨w₃, hrun₃, hw₃⟩ := tracks_closePart addr s₂ ns t w₂ hw₂ (by omega) hclose
  have hdepth₃ := Watch.depth_run hrun₃
  simp only [Event.level_cons, Event.level_nil, Event.delta] at hdepth₃
  refine ⟨w₃, hw₃, by omega, fun f hf => ?_⟩
  have hsame : w₃.function = w₂.function := by
    rw [← hw₃.function_eq, ← hw₂.function_eq]
    obtain ⟨outer, saved, -, -, rfl⟩ := closePart_eq_ok hclose
    rfl
  refine Watch.function_of_run hrun (fun p q hpq => ?_) f (hsame ▸ hf)
  have := hes.nonneg p q hpq
  dsimp only
  omega

/-- **What is held aside** while another part is rebuilt can still be put on the stack when that part is closed:
the stack of a function declared in the part lies above it. -/
theorem Grade.across {w w' : Watch} {t : State} (h : Grade s.function s.saved.length n) (hw : w.Sees s)
    (hw' : w'.Sees t) (hdepth : w'.depth = w.depth)
    (hfunction : ∀ f ∈ w'.function, f ∈ w.function ∨ w.depth < f.2) : Grade t.function t.saved.length n where
  unnested := h.unnested
  free frame hframe hlt := by
    have hlength := hw'.length_saved
    rw [Option.mem_def.mp hframe, Option.isSome_some, if_pos rfl] at hlength
    have hmem : (frame.stop, frame.depth) ∈ w'.function := by
      rw [← hw'.function_eq, Option.mem_def.mp hframe]
      rfl
    rcases hfunction _ hmem with hsame | hnew
    · -- the function was being declared before the part was opened
      rw [← hw.function_eq] at hsame
      obtain ⟨frame', hframe', heq⟩ := Option.map_eq_some_iff.mp hsame
      have hlength' := hw.length_saved
      rw [hframe', Option.isSome_some, if_pos rfl] at hlength'
      have hdepth' : frame'.depth = frame.depth := (Prod.mk.inj heq).2
      exact h.free frame' hframe' (by omega)
    · exact absurd hnew (by dsimp only; omega)

/-- The statements of a part may be put on the stack below it. -/
theorem State.Apart.close {t : State} {addr : Addr} {ns : List Node} (h : s.Apart [])
    (hclose : closePart addr s = .ok (ns, t)) : t.Apart ns := by
  obtain ⟨outer, saved, hsaved, hstatements, rfl⟩ := closePart_eq_ok hclose
  have haround := h.around
  have hns := holds_of_statements h.current.operands hstatements
  rw [hsaved] at haround hns
  exact ⟨⟨haround.1, h.current.frames⟩, haround.2, fun n hn => ⟨(hns n hn).1, (hns n hn).2.mono (Nat.le_succ _)⟩⟩

/-- A part, its end, and what comes then. -/
theorem watched_part {x : Rebuild β} {f : β → List Node → Rebuild α} {R : β → Prop} {P : α → Prop} (addr : Addr)
    (hx : Keeps (State.Watched []) x R) (hcloses : Closes x)
    (hf : ∀ b ns, R b → Keeps (State.Watched (held ++ ns)) (f b ns) P) :
    Keeps (State.Watched held) (do openPart; let b ← x; let ns ← closePart addr; f b ns) P := by
  intro s a t hs h
  obtain ⟨_, s₁, hopen, h⟩ := bind_eq_ok h
  obtain ⟨b, s₂, hbody, h⟩ := bind_eq_ok h
  obtain ⟨ns, s₃, hclose, h⟩ := bind_eq_ok h
  obtain ⟨w, hw⟩ := hs.watched
  obtain ⟨w₁, -, hw₁⟩ := tracks_openPart s () s₁ w hw (Nat.zero_le _) hopen
  have h₁ : s₁.Watched [] := by
    cases hopen
    exact ⟨⟨⟨nofun, hs.current.frames⟩, ⟨hs.current.operands, hs.around⟩, nofun⟩, w₁, hw₁⟩
  obtain ⟨h₂, hb⟩ := hx s₁ b s₂ h₁ hbody
  obtain ⟨w₃, hw₃, hdepth, hfunction⟩ := watch_of_part hw hcloses hopen hbody hclose
  have hclosed := h₂.toApart.close hclose
  have hheld : ∀ n ∈ held, n.Layered ∧ Grade s₃.function s₃.saved.length n := fun n hn =>
    ⟨(hs.held n hn).1, (hs.held n hn).2.across hw hw₃ hdepth hfunction⟩
  have h₃ : s₃.Watched (held ++ ns) :=
    ⟨{ hclosed with held := List.forall_mem_append.mpr ⟨hheld, hclosed.held⟩ }, w₃, hw₃⟩
  obtain ⟨ht, ha⟩ := hf b ns hb s₃ a t h₃ h
  exact ⟨ht.mono (List.subset_append_left _ _), ha⟩

/-- Parts keep what is watched. -/
theorem partRule_watched :
    PartRule State.Watched fun x R => Keeps (State.Watched []) x R ∧ Closes x where
  part addr hx hf := watched_part addr hx.1 hx.2 hf
  test ins hx := by
    have hfold : Keeps (State.Apart []) (foldLogic ins.addr) fun _ => True :=
      (still_foldLogic _).apart fun _ _ _ => holds_foldLogic (composes_grade _ _) _
    have hpop : Keeps (State.Apart []) (pop ins) (Node.Free Node.isStatement) :=
      still_pop.apart fun _ _ _ => holds_pop (composes_grade _ _)
    refine ⟨hx.1.bind fun _ _ => (hfold.watched (still_foldLogic _).tracks).bind fun _ _ =>
      hpop.watched still_pop.tracks, ?_⟩
    exact hx.2.still fun _ => (still_foldLogic _).bind fun _ => still_pop

/-- The statement of a loop whose parts are held aside. -/
theorem watched_loop {parts : LoopParts} {x : Rebuild Unit} (hcondition : parts.condition.Free Node.isStatement)
    (hstill : Still x)
    (hx : ∀ {P : Node → Prop}, Composes P P → parts.Holds P → Keeps (State.Holds P) x fun _ => True) :
    Keeps (State.Watched (parts.body ++ parts.step)) x fun _ => True := by
  refine (hstill.apart fun _ _ hheld => ?_).watched hstill.tracks
  obtain ⟨hbody, hstep⟩ := List.forall_mem_append.mp hheld
  exact hx (composes_grade _ _) ⟨hcondition, hbody, hstep⟩

/-! ### Regions -/

/-- Leaving a loop keeps functions apart. -/
theorem apart_leave (ins : Instruction) (kind : BranchKind) :
    Keeps (State.Apart []) (leave ins kind) fun _ => True := by
  refine (still_leave kind).apart fun function level _ => ?_
  have hgrade : ∀ n : Node, n.children = [] → n.isPackage = false → n.isFunction = false →
      Grade function level n := fun n hchildren hpackage hfunction =>
    ⟨Node.unnested_iff.mpr ⟨⟨hpackage, fun h => absurd (h.symm.trans hfunction) (by decide)⟩, by
      rw [hchildren]; exact List.forall_mem_nil _⟩, fun _ _ _ => Node.free_iff.mpr ⟨hfunction, by
      rw [hchildren]; exact List.forall_mem_nil _⟩⟩
  cases kind with
  | leave =>
      refine holds_push (Node.layered_of_bodies rfl ?_ ?_) (hgrade _ rfl rfl rfl)
      all_goals exact List.forall_mem_nil _
  | nextRound =>
      refine holds_push (Node.layered_of_bodies rfl ?_ ?_) (hgrade _ rfl rfl rfl)
      all_goals exact List.forall_mem_nil _
  | alternative => exact .throw _

theorem watched_enter (addr : Addr) : Keeps (State.Watched []) (enter addr) fun _ => True :=
  (apart_enter addr).watched (tracks_enter addr)

theorem watched_fallThrough (ins : Instruction) (kind : JumpKind) :
    Keeps (State.Watched []) (fallThrough ins kind) (Node.Free Node.isStatement) :=
  ((still_fallThrough kind).apart fun _ _ _ => holds_fallThrough (composes_grade _ _) kind).watched
    (still_fallThrough kind).tracks

/-- The statement of a choice whose parts are held aside. -/
theorem watched_choice {condition : Node} (hcondition : condition.Free Node.isStatement)
    (thenBody elseBody : List Node) :
    Keeps (State.Watched (thenBody ++ elseBody)) (push (.ifElse condition thenBody elseBody)) fun _ => True := by
  refine ((still_push _).apart fun _ _ hheld => ?_).watched (still_push _).tracks
  obtain ⟨hthen, helse⟩ := List.forall_mem_append.mp hheld
  exact (composes_grade _ _).pushChoice hcondition hthen helse

mutual

/-- **Regions** keep functions apart. -/
theorem watched_run (r : Region) : Keeps (State.Watched []) (run r) fun _ => True := by
  cases r with
  | plain ins => exact .bind (watched_enter _) fun _ _ => (apart_step ins).watched (tracks_step ins)
  | jump ins kind =>
      exact .bind (watched_enter _) fun _ _ => (apart_leave ins kind).watched (still_leave kind).tracks
  | broken addr => exact .throw _
  | choice head kind stop body =>
      refine .bind (watched_enter _) fun _ _ => .bind (watched_fallThrough head kind) fun c hc => ?_
      refine watched_part stop (watched_runAll body) (closes_runAll body) fun _ t _ => ?_
      have hchoice := watched_choice hc t []
      rwa [List.append_nil] at hchoice
  | choiceElse head kind stop body separator alternative =>
      refine .bind (watched_enter _) fun _ _ => .bind (watched_fallThrough head kind) fun c hc => ?_
      refine watched_part stop (watched_runAll body) (closes_runAll body) fun _ t _ => ?_
      exact watched_part separator (watched_runAll alternative) (closes_runAll alternative) fun _ e _ =>
        watched_choice hc t e
  | loop start stop body split step back =>
      refine .bind (watched_enter _) fun _ _ => ?_
      exact partRule_watched.loop stop split back ⟨watched_runAll body, closes_runAll body⟩
        (fun _ => ⟨watched_runAll step, closes_runAll step⟩) fun parts hcondition =>
          watched_loop hcondition (still_push _) fun hP hparts => hP.pushLoop hparts _
  | guarded head kind stop body split step back =>
      refine .bind (watched_enter _) fun _ _ => .bind (watched_fallThrough head kind) fun c hc => ?_
      exact partRule_watched.loop stop split back ⟨watched_runAll body, closes_runAll body⟩
        (fun _ => ⟨watched_runAll step, closes_runAll step⟩) fun parts hcondition =>
          watched_loop hcondition (still_guardedLoop c parts) fun hP hparts => holds_guardedLoop hP hc hparts

/-- **Regions keep the state watched.** -/
theorem watched_runAll (rs : List Region) : Keeps (State.Watched []) (runAll rs) fun _ => True := by
  cases rs with
  | nil => exact .pure trivial
  | cons r rs => exact .bind (watched_run r) fun _ _ => watched_runAll rs

end

/-! ### Packages -/

/-- The node is one of the given ones, or a package of some of them. -/
def Grouped (ns : List Node) (n : Node) : Prop :=
  n ∈ ns ∨ ∃ name functions, n = .package name functions ∧ functions ⊆ ns

theorem Grouped.cons {ns : List Node} (h : Grouped ns n) (m : Node) : Grouped (m :: ns) n := by
  rcases h with hmem | ⟨name, functions, rfl, hsub⟩
  · exact .inl (List.mem_cons_of_mem _ hmem)
  · exact .inr ⟨name, functions, rfl, List.subset_cons_of_subset _ hsub⟩

/-- Grouping puts statements into packages, and leaves the others as they are. -/
theorem grouped_groupPackages {ns : List Node} (h : ∀ n ∈ ns, n.isPackage = false) :
    ∀ n ∈ groupPackages ns, Grouped ns n := by
  have hnew : ∀ (m : Node) ms name, Grouped (m :: ms) (.package name [m]) := fun m ms name =>
    .inr ⟨name, [m], rfl, by simp⟩
  fun_induction groupPackages ns with
  | case1 => exact List.forall_mem_nil _
  | case2 ns _ _ _ _ name functions rest heq ih =>
      have hns := (List.forall_mem_cons.mp h).2
      have hrest := ih hns
      rw [heq] at hrest
      obtain ⟨hfirst, hrest⟩ := List.forall_mem_cons.mp hrest
      refine List.forall_mem_cons.mpr ⟨?_, fun n hn => (hrest n hn).cons _⟩
      -- the package that is extended was made here
      rcases hfirst with hmem | ⟨_, _, ⟨⟩, hsub⟩
      · exact absurd (hns _ hmem).symm Bool.false_ne_true
      · exact .inr ⟨_, _, rfl, List.cons_subset_cons _ hsub⟩
  | case3 ns _ _ _ _ _ _ _ _ heq _ ih =>
      have hrest := ih (List.forall_mem_cons.mp h).2
      rw [heq] at hrest
      exact List.forall_mem_cons.mpr ⟨hnew _ _ _, fun n hn => (hrest n hn).cons _⟩
  | case4 ns _ _ _ _ _ _ ih =>
      exact List.forall_mem_cons.mpr ⟨hnew _ _ _, fun n hn => (ih (List.forall_mem_cons.mp h).2 n hn).cons _⟩
  | case5 n ns _ ih =>
      exact List.forall_mem_cons.mpr ⟨.inl List.mem_cons_self, fun m hm =>
        (ih (List.forall_mem_cons.mp h).2 m hm).cons _⟩

end Rebuild

namespace Stream

variable {instrs : List Instruction} {tree : Block} {nodes : List Node}

/-- What is left on the stack at the end of a stream is grouped. -/
theorem exists_of_rebuild (h : (rebuild tree instrs).outcome.1 = .ok nodes) :
    ∃ t t' ns, Rebuild.runAll (Region.ofStream tree instrs) {} = .ok ((), t) ∧
      Rebuild.endFunction Addr.last t = .ok ((), t') ∧ Rebuild.statements (last instrs) t'.operands = .ok ns ∧
      nodes = Rebuild.groupPackages ns := by
  rw [outcome_rebuild] at h
  obtain ⟨⟨⟨⟩, s⟩, hrun, hprogram⟩ := bind_eq_ok_iff.mp h
  obtain ⟨_, t, hall, hclose⟩ := Rebuild.bind_eq_ok (x := Rebuild.runAll _) hrun
  obtain ⟨_, t', hend, hclose⟩ := Rebuild.bind_eq_ok (x := Rebuild.endFunction _) hclose
  obtain ⟨_, _, ⟨⟩, hclose⟩ := Rebuild.bind_eq_ok hclose
  have hsame : s = t' := by
    split at hclose
    · cases hclose
    · split at hclose
      · cases hclose
      · cases hclose; rfl
  subst hsame
  obtain ⟨ns, hstatements, ⟨⟩⟩ := bind_eq_ok_iff.mp hprogram
  exact ⟨t, s, ns, hall, hend, hstatements, rfl⟩

/-- **Functions in rebuilt trees.**  Before grouping there is no package, and no function in a function. -/
theorem unnested_of_run {t t' : Rebuild.State} {ns : List Node}
    (hrun : Rebuild.runAll (Region.ofStream tree instrs) {} = .ok ((), t))
    (hend : Rebuild.endFunction Addr.last t = .ok ((), t'))
    (hstatements : Rebuild.statements (last instrs) t'.operands = .ok ns) : ∀ n ∈ ns, n.Unnested := by
  have hstart : Rebuild.State.Watched [] {} := ⟨⟨⟨nofun, nofun⟩, trivial, nofun⟩, ⟨0, none⟩, rfl, rfl⟩
  have ht := (Rebuild.watched_runAll _ {} () t hstart hrun).1
  have ht' := (Rebuild.apart_endFunction Addr.last t () t' ht.toApart hend).1
  exact fun n hn => (Rebuild.holds_of_statements ht'.current.operands hstatements n hn).2.unnested

end Stream

end TorqueScript
