import TorqueScript.Proofs.Pieces

/-!
# Tokens piece by piece

A property of texts that is kept by the ways to put them together (`Piecewise`) holds of the tokens of every node
(`Piecewise.tokens`), by induction over what is written in the node, and of the tokens of a script
(`Piecewise.programTokens`).  There is one lemma for each part of a node that has tokens of its own.
-/

namespace TorqueScript

namespace Source

open Node

namespace Piecewise

variable {W L : String → Prop} {E : Node → Prop} {R : Prop → List String → Prop} (h : Piecewise W L E R)
  {F G H : Prop} {t : String} {ts us l r : List String}

include h

/-! ### Tokens of nodes -/

variable {n : Node} {ns : List Node} {o : Option Node}

/-- A literal is one piece, a negation exactly if its number is negative. -/
theorem literal {c : Constant} (hc : ∀ s ∈ (constant c).names, W s) :
    Gives (R ((constant c).HasNegation E) ∘ fun t => [t]) (Source.literal c) := by
  intro t ht
  have hpiece : R False [t] := by
    by_cases hident : ∃ s, c = .ident s
    · obtain ⟨s, rfl⟩ := hident
      cases ht
      exact h.name (hc t (List.mem_singleton.mpr rfl))
    · exact h.token (literal_not_special (fun s hs => hident ⟨s, hs⟩) ht)
  simpa using hpiece

/-- A text that can be written without quotes stands for a constant. -/
theorem bare {s : String} (hs : bareName? n = some s) : R (n.HasNegation E) [s] := by
  unfold bareName? at hs
  split at hs
  · next c =>
      have hname : isName s := (Option.filter_eq_some_iff.mp hs).2
      simpa using h.token (isName_not_special hname)
  · cases hs

/-- An optional node is printed as the node that is there. -/
theorem optionTokens (ho : ∀ n ∈ o, Gives (R (n.HasNegation E)) (n.tokens .expression)) :
    Gives (R (∃ n ∈ o, n.HasNegation E)) (Node.optionTokens o) := by
  cases o with
  | none => exact .pure (by simpa using h.nil)
  | some n => simpa [Node.optionTokens] using ho n rfl

theorem nameTokens (ho : ∀ n ∈ o, Gives (R (n.HasNegation E)) (n.tokens .expression)) :
    Gives (R (∃ n ∈ o, n.HasNegation E)) (Node.nameTokens o) := by
  cases o with
  | none => exact .pure (by simpa using h.nil)
  | some n =>
      refine (ho n rfl).bind fun ts hts => ?_
      split
      · next s hs => exact .pure (by simpa using h.bare hs)
      · exact .pure (by simpa using hts)

theorem indexTokens (ho : ∀ n ∈ o, Gives (R (n.HasNegation E)) (n.tokens .expression)) :
    Gives (R (∃ n ∈ o, n.HasNegation E)) (Node.indexTokens o) := by
  cases o with
  | none => exact .pure (by simpa using h.nil)
  | some n =>
      refine (ho n rfl).bind fun ts hts => .pure ?_
      simpa using h.back (a := ["]"]) (h.cons (t := "[") (by decide) hts) (by decide)

/-- The statements of a block are printed one after the other. -/
theorem statementTokens (hns : ∀ n ∈ ns, Gives (R (n.HasNegation E)) (n.tokens .statement)) :
    Gives (R (∃ n ∈ ns, n.HasNegation E)) (Node.statementTokens ns) := by
  induction ns with
  | nil => exact .pure (by simpa using h.nil)
  | cons n ns ih =>
      obtain ⟨hn, hns⟩ := List.forall_mem_cons.mp hns
      refine hn.bind fun ts hts => (ih hns).bind fun us hus => .pure ?_
      simpa using h.append hts hus

theorem elseTokens (hns : ∀ n ∈ ns, Gives (R (n.HasNegation E)) (n.tokens .statement)) :
    Gives (R (∃ n ∈ ns, n.HasNegation E)) (Node.elseTokens ns) := by
  cases ns with
  | nil => exact .pure (by simpa using h.nil)
  | cons n ns =>
      obtain ⟨hn, hns⟩ := List.forall_mem_cons.mp hns
      refine hn.bind fun ts hts => (h.statementTokens hns).bind fun us hus => .pure ?_
      split
      · next hif =>
          obtain rfl : ns = [] := by simpa using (Bool.and_eq_true_iff.mp hif).2
          simpa using h.front (a := ["else", " "]) (by decide) hts
      · simpa using h.front (a := ["else", "\n"]) (by decide) (h.block (h.append hts hus))

theorem packageTokens (hns : ∀ n ∈ ns, Gives (R (n.HasNegation E)) (n.tokens .statement)) :
    Gives (R (∃ n ∈ ns, n.HasNegation E)) (Node.packageTokens ns) := by
  induction ns with
  | nil => exact .pure (by simpa using h.nil)
  | cons n ns ih =>
      obtain ⟨hn, hns⟩ := List.forall_mem_cons.mp hns
      refine hn.bind fun ts hts => (ih hns).bind fun us hus => .pure ?_
      split
      · next hempty =>
          obtain rfl : ns = [] := by simpa using hempty
          simpa using hts
      · simpa using h.append hts (h.cons (t := "\n") (by decide) hus)

/-- Further arguments come behind commas. -/
theorem restTokens (hns : ∀ n ∈ ns, Gives (R (n.HasNegation E)) (n.tokens .expression)) :
    Gives (R (∃ n ∈ ns, n.HasNegation E)) (Node.restTokens ns) := by
  induction ns with
  | nil => exact .pure (by simpa using h.nil)
  | cons n ns ih =>
      obtain ⟨hn, hns⟩ := List.forall_mem_cons.mp hns
      refine hn.bind fun ts hts => (ih hns).bind fun us hus => .pure ?_
      simpa using h.append (h.front (a := [",", " "]) (by decide) hts) hus

omit h in
/-- Arguments behind the first begin with a comma. -/
theorem restTokens_head (hts : Node.restTokens ns = .ok ts) : ts = [] ∨ ∃ us, ts = "," :: us := by
  cases ns with
  | nil => cases hts; exact .inl rfl
  | cons n ns =>
      obtain ⟨ls, -, hts⟩ := bind_eq_ok_iff.mp hts
      obtain ⟨us, -, hts⟩ := bind_eq_ok_iff.mp hts
      cases hts
      exact .inr ⟨_, rfl⟩

/-- The class of an object is printed bare if it is a name and in parentheses otherwise. -/
theorem className (hts : R (n.HasNegation E) ts) :
    R (n.HasNegation E) (match bareName? n with
      | some s => [s]
      | none => Source.parens true ts) := by
  split
  · next s hs => exact h.bare hs
  · exact h.parens true hts

/-- The name of an object is left out only where nothing follows it. -/
theorem objectName (args : List Node) : R (∃ n ∈ o, n.HasNegation E) ts →
    R (∃ n ∈ o, n.HasNegation E) (match o with
      | none => if args.isEmpty then [] else ["\"\""]
      | some _ => ts) := by
  intro hts
  cases o with
  | none =>
      dsimp only
      split
      · simpa using h.nil
      · simpa using h.token (t := "\"\"") (by decide)
  | some n => exact hts

/-- The body of an object stands in braces if there is one. -/
theorem objectBody {fields children : List Node} (hl : R (∃ n ∈ fields, n.HasNegation E) l)
    (hr : R (∃ n ∈ children, n.HasNegation E) r) :
    R ((∃ n ∈ fields, n.HasNegation E) ∨ ∃ n ∈ children, n.HasNegation E)
      (if fields.isEmpty && children.isEmpty then []
        else ["\n", openBrace, "\n"] ++ l ++ r ++ [closeBrace]) := by
  split
  · next hempty =>
      obtain ⟨rfl, rfl⟩ : fields = [] ∧ children = [] := by simpa using hempty
      simpa using h.nil
  · simpa using h.cons (t := "\n") (by decide) (h.braces (h.append hl hr))

/-- A parent stands in front of the arguments of an object or of their end. -/
theorem parent {parent : Option String} (hcomma : ts = [] ∨ ∃ us, ts = "," :: us) (hts : R F ts) :
    (∀ s ∈ parent, L s) →
      R F ((match parent with | some s => [" ", ":", " ", s] | none => []) ++ (ts ++ [")"])) := by
  intro hparent
  have hend : R F (ts ++ [")"]) := h.back hts (by decide)
  cases parent with
  | none => exact hend
  | some s =>
      have hlabel : R F (s :: (ts ++ [")"])) := by
        rcases hcomma with rfl | ⟨us, rfl⟩
        · exact h.label (hparent s rfl) (by decide) hend
        · exact h.label (hparent s rfl) (by decide) hend
      exact h.front (a := [" ", ":", " "]) (by decide) hlabel

/-- The arguments of a call stand between commas. -/
theorem argumentTokens (hns : ∀ n ∈ ns, Gives (R (n.HasNegation E)) (n.tokens .expression)) :
    Gives (R (∃ n ∈ ns, n.HasNegation E)) (Node.argumentTokens ns) := by
  cases ns with
  | nil => exact .pure (by simpa using h.nil)
  | cons n ns =>
      obtain ⟨hn, hns⟩ := List.forall_mem_cons.mp hns
      refine hn.bind fun ts hts => (h.restTokens hns).bind fun us hus => .pure ?_
      simpa using h.append hts hus

/-- A namespace that is given is a word and a separator. -/
theorem qualifier {nameSpace : Option String} (hname : ∀ s ∈ nameSpace, W s) :
    R False (Source.qualifier nameSpace) := by
  cases nameSpace with
  | none => exact h.nil
  | some s => exact h.back (a := ["::"]) (h.name (hname s rfl)) (by decide)

/-- **A call is printed in pieces if its arguments are.** -/
theorem callTokens (m : Node) {name : String} {nameSpace : Option String} (callType : CallType)
    (hname : W name) (hnameSpace : ∀ s ∈ nameSpace, W s)
    (hns : ∀ n ∈ ns, Gives (R (n.HasNegation E)) (n.tokens .expression)) :
    Gives (R (∃ n ∈ ns, n.HasNegation E)) (Node.callTokens m name nameSpace callType ns) := by
  have hopen : R False [name, "("] := h.back (a := ["("]) (h.name hname) (by decide)
  have hcall : R False (Source.qualifier nameSpace ++ [name, "("]) := by
    simpa using h.append (h.qualifier hnameSpace) hopen
  cases ns with
  | nil =>
      refine .pure ?_
      cases callType with
      | function => simpa using h.back (a := [")"]) hcall (by decide)
      | method => simpa using h.back (a := [")"]) hopen (by decide)
      | parent =>
          simpa using h.front (a := ["Parent", "::"]) (by decide) (h.back (a := [")"]) hopen (by decide))
  | cons a as =>
      obtain ⟨ha, has⟩ := List.forall_mem_cons.mp hns
      refine ha.bind fun ts hts => ?_
      cases callType with
      | method =>
          refine (h.argumentTokens has).bind fun us hus => .pure ?_
          have hargs := h.back (a := [")"]) (h.append hopen hus) (by decide)
          simpa using h.append (h.parens (wrapsLeft m a) hts) (h.cons (t := ".") (by decide) hargs)
      | function =>
          refine (h.restTokens has).bind fun us hus => .pure ?_
          simpa using h.back (a := [")"]) (h.append (h.append hcall hts) hus) (by decide)
      | parent =>
          refine (h.restTokens has).bind fun us hus => .pure ?_
          have hargs := h.back (a := [")"]) (h.append (h.append hopen hts) hus) (by decide)
          simpa using h.front (a := ["Parent", "::"]) (by decide) hargs

/-- Labels in front of the rest of a line. -/
theorem labels {ss : List String} (hss : ∀ s ∈ ss, L s) :
    R False (Source.names ss ++ [")", "\n"]) := by
  have hend : R False [")", "\n"] := h.tokens_of (by decide)
  induction ss with
  | nil => exact hend
  | cons s ss ih =>
      obtain ⟨hs, hss⟩ := List.forall_mem_cons.mp hss
      cases ss with
      | nil => exact h.label hs (by decide) hend
      | cons s' ss =>
          exact h.label hs (by decide) (h.front (a := [",", " "]) (by decide) (ih hss))

/-- The signature of a function holds words and labels only. -/
theorem signature {s : Signature} (hnames : ∀ t ∈ s.name :: s.nameSpace.toList, W t)
    (hlabels : ∀ t ∈ s.args, L t) : R False (Source.signature s) := by
  obtain ⟨hname, hnameSpace⟩ := List.forall_mem_cons.mp hnames
  have hopen : R False [s.name, "("] := h.back (a := ["("]) (h.name hname) (by decide)
  have hhead := h.append (h.qualifier (by simpa using hnameSpace)) hopen
  have hfront := h.front (a := ["function", " "]) (by decide) hhead
  simpa [Source.signature] using h.append hfront (h.labels hlabels)

/-- The assigned value comes behind the sign of assignment. -/
theorem assignedTokens (value : Node) (hts : R F ts) : R F (Source.assignedTokens value ts) :=
  h.front (by decide) (h.parens _ hts)

theorem compoundTokens (op : BinaryOp) (value : Node) (hts : R (value.HasNegation E) ts) :
    R (value.HasNegation E) (Source.compoundTokens op value ts) := by
  have hone : isOne value = true → ¬ value.HasNegation E := by
    cases value <;> simp [isOne]
  have hop : op.token ++ "=" ∉ special := by cases op <;> decide
  unfold Source.compoundTokens
  split
  · next h₁ => simpa [hone h₁] using h.token (t := "++") (by decide)
  · next h₁ => simpa [hone h₁] using h.token (t := "--") (by decide)
  · have hmark := h.append (h.between hop) (h.parens value.compound?.isSome hts)
    simpa using hmark

omit h in
/-- Where a node may stand does not change what it is printed as. -/
theorem only {pos : Position} {P : List String → Prop} {x : Except Error (List String)} (hx : Gives P x) :
    Gives P (pos.only n x) := by
  cases pos with
  | statement => exact hx
  | expression => exact nofun

omit h in
theorem congr {x : Except Error (List String)} (hx : Gives (R F) x) (hFG : F ↔ G) : Gives (R G) x :=
  propext hFG ▸ hx

/-- Of a loop, in either form, every written part is printed in place. -/
theorem of_loop {kind : LoopKind} {init step : Option Node} {c : Node} {body : List Node} {pos : Position}
    (hwritten : ∀ m ∈ (Node.loop kind init c step body).written, ∀ pos,
      Gives (R (m.HasNegation E)) (m.tokens pos)) :
    Gives (R ((Node.loop kind init c step body).HasNegation E))
      ((Node.loop kind init c step body).tokens pos) := by
  have hnegation := hasNegation_iff (E := E) (n := .loop kind init c step body)
  have hc := hwritten c (by cases kind <;> simp [written, children]) .expression
  have hb : Gives (R (∃ n ∈ body, n.HasNegation E)) (Node.statementTokens body) :=
    h.statementTokens fun n hn => hwritten n (by cases kind <;> simp [written, children, hn]) .statement
  cases kind with
  | forLoop =>
      have hi : Gives (R (∃ n ∈ init, n.HasNegation E)) (Node.optionTokens init) :=
        h.optionTokens fun n hn => hwritten n (by simp [written, children, Option.mem_def.mp hn]) .expression
      have hs : Gives (R (∃ n ∈ step, n.HasNegation E)) (Node.optionTokens step) :=
        h.optionTokens fun n hn => hwritten n (by simp [written, children, Option.mem_def.mp hn]) .expression
      rw [tokens]
      refine only (congr (hi.bind fun is his => hc.bind fun cs hcs => hs.bind fun ss hss =>
        hb.bind fun bs hbs => .pure (h.append (h.back (h.append (h.back (h.append
          (h.back (h.front (by decide) his) (by decide)) hcs) (by decide)) hss) (by decide)) (h.block hbs))) ?_)
      simp [hnegation, written, children, or_and_right, exists_or, or_assoc]
  | whileLoop =>
      rw [tokens]
      refine only (congr (hc.bind fun cs hcs => hb.bind fun bs hbs => .pure
        (h.append (h.back (h.front (by decide) hcs) (by decide)) (h.block hbs))) ?_)
      simp [hnegation, written]
  | doWhile =>
      rw [tokens]
      refine only (congr (hb.bind fun bs hbs => hc.bind fun cs hcs => .pure
        (h.back (h.append (h.back (h.front (a := ["do", "\n"]) (by decide) (h.block hbs))
          (a := ["while", " ", "("]) (by decide)) hcs) (by decide))) ?_)
      simp [hnegation, written, or_comm]

/-- Of an assignment so are both sides, or the target and the right operand of the compound. -/
theorem of_assign {target value : Node} {op : Option BinaryOp} {pos : Position}
    (hwritten : ∀ m ∈ (Node.assign target op value).written, ∀ pos,
      Gives (R (m.HasNegation E)) (m.tokens pos)) :
    Gives (R ((Node.assign target op value).HasNegation E)) ((Node.assign target op value).tokens pos) := by
  have hnegation := hasNegation_iff (E := E) (n := .assign target op value)
  by_cases hbinary : op = none ∧ ∃ op l r, value = .binary op l r
  · -- the operands of the value are written in its place
    obtain ⟨rfl, op, l, r, rfl⟩ := hbinary
    have ht := hwritten target (by simp [written]) .expression
    have hl := hwritten l (by simp [written]) .expression
    have hr := hwritten r (by simp [written]) .expression
    rw [tokens]
    refine congr (F := target.HasNegation E ∨ l.HasNegation E ∨ r.HasNegation E) (ht.bind fun ts hts =>
      hl.bind fun ls hls => hr.bind fun rs hrs => .pure (h.value pos ?_)) (by simp [hnegation, written])
    split
    · next hcompound =>
        obtain rfl : l = target := by simpa using (Bool.and_eq_true_iff.mp hcompound).2
        simpa using h.append hts (h.compoundTokens op r hrs)
    · exact h.append hts (h.assignedTokens _ (h.infixTokens _ _ _ (h.binary op) hls hrs))
  · have hparts : (assign target op value).written = [target, value] := written_assign hbinary
    have ht := hwritten target (by simp [hparts]) .expression
    have hv := hwritten value (by simp [hparts]) .expression
    cases op with
    | some op =>
        rw [tokens]
        refine congr (ht.bind fun ts hts => hv.bind fun vs hvs => .pure (h.value pos
          (h.append hts (h.compoundTokens op value hvs)))) ?_
        simp [hnegation, hparts]
    | none =>
        rw [tokens]
        · refine congr (ht.bind fun ts hts => hv.bind fun vs hvs => .pure (h.value pos
            (h.append hts (h.assignedTokens value hvs)))) ?_
          simp [hnegation, hparts]
        · exact fun op l r h => hbinary ⟨rfl, op, l, r, h⟩

/-- Of an object so are its class, its name, its arguments, its fields and its children. -/
theorem of_object {className : Node} {name : Option Node} {parent : Option String} {isDatablock : Bool}
    {args fields children : List Node} {depth : Nat} {pos : Position}
    (hlabels : ∀ s ∈ parent.toList, L s)
    (hwritten : ∀ m ∈ (Node.object className name parent isDatablock args fields children depth).written,
      ∀ pos, Gives (R (m.HasNegation E)) (m.tokens pos)) :
    Gives (R ((Node.object className name parent isDatablock args fields children depth).HasNegation E))
      ((Node.object className name parent isDatablock args fields children depth).tokens pos) := by
  have hnegation := hasNegation_iff (E := E)
    (n := .object className name parent isDatablock args fields children depth)
  have hc := hwritten className (by simp [written, Node.children]) .expression
  have hn : Gives (R (∃ n ∈ name, n.HasNegation E)) (Node.nameTokens name) :=
    h.nameTokens fun n hn => hwritten n (by simp [written, Node.children, Option.mem_def.mp hn]) .expression
  have ha : Gives (fun as => (as = [] ∨ ∃ us, as = "," :: us) ∧ R (∃ n ∈ args, n.HasNegation E) as)
      (Node.restTokens args) := fun as has => ⟨restTokens_head has,
    h.restTokens (fun n hn => hwritten n (by simp [written, Node.children, hn]) .expression) as has⟩
  have hf : Gives (R (∃ n ∈ fields, n.HasNegation E)) (Node.statementTokens fields) :=
    h.statementTokens fun n hn => hwritten n (by simp [written, Node.children, hn]) .statement
  have hch : Gives (R (∃ n ∈ children, n.HasNegation E)) (Node.statementTokens children) :=
    h.statementTokens fun n hn => hwritten n (by simp [written, Node.children, hn]) .statement
  rw [tokens.eq_def]
  refine congr (F := className.HasNegation E ∨ (∃ n ∈ name, n.HasNegation E) ∨
    (∃ n ∈ args, n.HasNegation E) ∨ (∃ n ∈ fields, n.HasNegation E) ∨
    ∃ n ∈ children, n.HasNegation E)
    (hc.bind fun cs hcs => hn.bind fun ns hns => ha.bind fun as has => hf.bind fun fs hfs =>
      hch.bind fun chs hchs => .pure (h.value pos ?_)) ?_
  · have hkind : R False [if isDatablock then "datablock" else "new", " "] := by
      cases isDatablock <;> exact h.tokens_of (by decide)
    have hparent : ∀ s ∈ parent, L s := fun s hs => hlabels s (Option.mem_toList.mpr hs)
    have hend := h.append (h.parent has.1 has.2 hparent) (h.objectBody hfs hchs)
    have hopen := h.back (a := ["("]) (h.append hkind (h.className hcs)) (by decide)
    have hhead := h.append hopen (h.objectName args hns)
    have hwhole := h.append hhead hend
    simp only [List.append_assoc, List.cons_append, List.nil_append, or_assoc, false_or] at hwhole ⊢
    exact hwhole
  · simp [hnegation, written, Node.children, or_and_right, exists_or]

/-- An operator with white space around it, between its operands. -/
theorem of_infix {l r : Node} {op : String} {pos : Position} (hop : R False [" ", op, " "])
    (hparts : n.written = [l, r]) (hsign : ∀ operand, n ≠ .unary .neg operand)
    (htokens : n.tokens pos = do
      let ls ← l.tokens .expression
      let rs ← r.tokens .expression
      pure (pos.value (Source.infixTokens n l r op ls rs)))
    (hwritten : ∀ m ∈ n.written, ∀ pos, Gives (R (m.HasNegation E)) (m.tokens pos)) :
    Gives (R (n.HasNegation E)) (n.tokens pos) := by
  have hl := hwritten l (by simp [hparts]) .expression
  have hr := hwritten r (by simp [hparts]) .expression
  have hnegation : n.HasNegation E ↔ l.HasNegation E ∨ r.HasNegation E := by
    rw [hasNegation_iff, hparts]
    simp [hsign]
  rw [htokens]
  exact congr (hl.bind fun ls hls => hr.bind fun rs hrs => .pure (h.value pos
    (h.infixTokens _ _ _ hop hls hrs))) hnegation.symm

/-- An operator in front of its operand; the minus sign is the one a property may ask more of. -/
theorem of_unary {op : UnaryOp} {operand : Node} {pos : Position} (hoperand : operand.Named W L)
    (hwritten : ∀ m ∈ (Node.unary op operand).written, ∀ pos, Gives (R (m.HasNegation E)) (m.tokens pos)) :
    Gives (R ((Node.unary op operand).HasNegation E)) ((Node.unary op operand).tokens pos) := by
  have hnegation := hasNegation_iff (E := E) (n := .unary op operand)
  rw [tokens]
  intro ts hts
  obtain ⟨xs, hxs, hts⟩ := bind_eq_ok_iff.mp hts
  have hx := hwritten operand (by simp [written, children]) .expression xs hxs
  cases hts
  refine h.value pos ?_
  cases op with
  | neg => simpa [hnegation, written, children, UnaryOp.token] using h.negation hoperand hxs hx
  | not => simpa [hnegation, written, children, UnaryOp.token] using h.cons (t := "!") (by decide) (h.parens _ hx)
  | complement =>
      simpa [hnegation, written, children, UnaryOp.token] using h.cons (t := "~") (by decide) (h.parens _ hx)

theorem of_field {owner : Option Node} {name : String} {index : Option Node} {pos : Position}
    (hname : R False [name])
    (hwritten : ∀ m ∈ (Node.field owner name index).written, ∀ pos,
      Gives (R (m.HasNegation E)) (m.tokens pos)) :
    Gives (R ((Node.field owner name index).HasNegation E)) ((Node.field owner name index).tokens pos) := by
  have hnegation := hasNegation_iff (E := E) (n := .field owner name index)
  have hi : Gives (R (∃ n ∈ index, n.HasNegation E)) (Node.indexTokens index) :=
    h.indexTokens fun n hn => hwritten n (by simp [written, children, Option.mem_def.mp hn]) .expression
  cases owner with
  | none =>
      rw [tokens]
      refine congr (hi.bind fun is his => .pure (h.value pos (h.append hname his))) ?_
      simp [hnegation, written, children]
  | some owner =>
      have ho := hwritten owner (by simp [written, children]) .expression
      rw [tokens]
      refine congr (ho.bind fun os hos => hi.bind fun is his => .pure (h.value pos
        (h.append (h.parens _ hos) (h.cons (t := ".") (by decide) (h.append hname his))))) ?_
      simp [hnegation, written, children]

/-- The property holds of the text of a node if it holds of the texts that are written in it. -/
theorem of_written {pos : Position} (hnamed : n.Named W L)
    (hwritten : ∀ c ∈ n.written, ∀ pos, Gives (R (c.HasNegation E)) (c.tokens pos)) :
    Gives (R (n.HasNegation E)) (n.tokens pos) := by
  have hnegation : n.HasNegation E ↔ (∃ operand, n = .unary .neg operand ∧ E operand) ∨
      ∃ c ∈ n.written, c.HasNegation E := hasNegation_iff
  obtain ⟨hnames, hlabels⟩ := hnamed n (mem_subnodes.mpr (.inl rfl))
  cases n with
  | constant c =>
      rw [tokens]
      exact (h.literal hnames).bind fun t ht => .pure (h.value pos ht)
  | ret value =>
      cases value with
      | none =>
          rw [tokens]
          exact only (congr (.pure (h.tokens_of (by decide))) (by simp [hnegation, written, children]))
      | some value =>
          have hv := hwritten value (by simp [written, children]) .expression
          rw [tokens]
          refine only (congr (F := value.HasNegation E) (hv.bind fun ts hts => .pure ?_)
            (by simp [hnegation, written, children]))
          exact h.back (h.front (a := ["return", " "]) (by decide) hts) (by decide)
  | breakLoop | continueLoop =>
      rw [tokens]
      exact only (congr (.pure (h.tokens_of (by decide))) (by simp [hnegation, written, children]))
  | ifElse c t e =>
      have hc := hwritten c (by simp [written, children]) .expression
      have ht : Gives (R (∃ n ∈ t, n.HasNegation E)) (Node.statementTokens t) :=
        h.statementTokens fun n hn => hwritten n (by simp [written, children, hn]) .statement
      have he : Gives (R (∃ n ∈ e, n.HasNegation E)) (Node.elseTokens e) :=
        h.elseTokens fun n hn => hwritten n (by simp [written, children, hn]) .statement
      rw [tokens]
      refine only (congr (hc.bind fun cs hcs => ht.bind fun ts hts => he.bind fun es hes => .pure
        (h.append (h.append (h.back (h.front (by decide) hcs) (by decide)) (h.block hts)) hes)) ?_)
      simp [hnegation, written, children, or_and_right, exists_or, or_assoc]
  | loop kind init c step body => exact h.of_loop hwritten
  | function s body =>
      have hb : Gives (R (∃ n ∈ body, n.HasNegation E)) (Node.statementTokens body) :=
        h.statementTokens fun n hn => hwritten n hn .statement
      rw [tokens]
      refine only (congr (hb.bind fun bs hbs => .pure (h.append (h.signature hnames hlabels) (h.block hbs))) ?_)
      simp [hnegation, written, children]
  | package name functions =>
      have hf : Gives (R (∃ n ∈ functions, n.HasNegation E)) (Node.packageTokens functions) :=
        h.packageTokens fun n hn => hwritten n hn .statement
      have hhead : R False (["package", " ", name, "\n"]) :=
        h.front (a := ["package", " "]) (by decide)
          (h.label (hlabels name (List.mem_singleton.mpr rfl)) (by decide) (h.token (by decide)))
      rw [tokens]
      refine only (congr (F := ∃ n ∈ functions, n.HasNegation E) (hf.bind fun fs hfs => .pure ?_)
        (by simp [hnegation, written, children]))
      simpa using h.append hhead (h.back (a := [";", "\n"]) (h.braces hfs) (by decide))
  | unary op operand => exact h.of_unary (hnamed.of_written (by simp [written, children])) hwritten
  | binary op l r => exact h.of_infix (h.binary op) rfl (by simp) (by rw [tokens]) hwritten
  | compare op l r =>
      have hop : op.token ∉ special := by cases op <;> decide
      exact h.of_infix (h.between hop) rfl (by simp) (by rw [tokens]) hwritten
  | concat join l r =>
      have hjoin : join.token ∉ special := by cases join <;> decide
      exact h.of_infix (h.between hjoin) rfl (by simp) (by rw [tokens]) hwritten
  | comma l r =>
      have hl := hwritten l (by simp [written, children]) .expression
      have hr := hwritten r (by simp [written, children]) .expression
      rw [tokens]
      refine congr (hl.bind fun ls hls => hr.bind fun rs hrs => .pure (h.value pos
        (h.append (h.back (h.parens _ hls) (by decide)) (h.parens _ hrs)))) ?_
      simp [hnegation, written, children]
  | conditional c t e =>
      have hc := hwritten c (by simp [written, children]) .expression
      have ht := hwritten t (by simp [written, children]) .expression
      have he := hwritten e (by simp [written, children]) .expression
      rw [tokens]
      refine congr (hc.bind fun cs hcs => ht.bind fun ts hts => he.bind fun es hes => .pure (h.value pos
        (h.infixed (h.parens _ hcs) (h.between (by decide)) (h.infixed (h.parens _ hts)
          (h.between (by decide)) (h.parens _ hes))))) ?_
      simp [hnegation, written, children]
  | field owner name index => exact h.of_field (h.name (hnames name (List.mem_singleton.mpr rfl))) hwritten
  | var name index =>
      have hi : Gives (R (∃ n ∈ index, n.HasNegation E)) (Node.indexTokens index) :=
        h.indexTokens fun n hn => hwritten n (by simp [written, children, Option.mem_def.mp hn]) .expression
      have hname : R False [name] := h.name (hnames name (List.mem_singleton.mpr rfl))
      rw [tokens]
      refine congr (hi.bind fun is his => .pure (h.value pos (h.append hname his))) ?_
      simp [hnegation, written, children]
  | assign target op value => exact h.of_assign hwritten
  | object className name parent isDatablock args fields children depth => exact h.of_object hlabels hwritten
  | call name nameSpace callType args =>
      obtain ⟨hname, hnameSpace⟩ := List.forall_mem_cons.mp hnames
      rw [tokens]
      refine congr ((h.callTokens _ callType hname (by simpa using hnameSpace) fun n hn =>
        hwritten n hn .expression).bind fun ts hts => .pure (h.value pos hts)) ?_
      simp [hnegation, written, children]

/-- **Texts.**  The property holds of the tokens of every node in which the names and labels are as the
property has them. -/
theorem tokens (n : Node) (hn : n.Named W L) (pos : Position) :
    Gives (R (n.HasNegation E)) (n.tokens pos) := by
  induction n using writtenInduction generalizing pos with
  | h n ih => exact h.of_written hn fun c hc => ih c hc (hn.of_written hc)

section Script

variable (hnames : ∀ n ∈ ns, n.Named W L)

include hnames

/-- Statements that follow another are printed in place too. -/
theorem followingTokens (previous : Node) :
    Gives (R (∃ n ∈ ns, n.HasNegation E)) (Source.followingTokens previous ns) := by
  induction ns generalizing previous with
  | nil => exact .pure (by simpa using h.nil)
  | cons n ns ih =>
      obtain ⟨hn, hns⟩ := List.forall_mem_cons.mp hnames
      refine (h.tokens n hn .statement).bind fun ts hts => (ih hns n).bind fun us hus => .pure ?_
      have happend := h.append hts hus
      split
      · simpa using h.cons (t := "\n") (by decide) happend
      · simpa using happend

/-- The property holds of the tokens of a script. -/
theorem programTokens : Gives (R (∃ n ∈ ns, n.HasNegation E)) (Source.programTokens ns) := by
  cases ns with
  | nil => exact .pure (by simpa using h.nil)
  | cons n ns =>
      obtain ⟨hn, hns⟩ := List.forall_mem_cons.mp hnames
      refine (h.tokens n hn .statement).bind fun ts hts =>
        (h.followingTokens hns n).bind fun us hus => .pure ?_
      simpa using h.append hts hus

end Script

end Piecewise

end Source

end TorqueScript
