import TorqueScript.Proofs.PrintedPieces

/-!
# Minus signs

A negation is written as a minus sign in front of its operand, and two minus signs in a row are read as one
operator.  Operands that begin with an operator of their own stand in parentheses, and so does a number below
zero.  But the sign of a number may come first in a longer expression, in front of a dot, and negative zero has
a sign and is not below zero (`Node.exposesSign`).

* `SignsApart`: no minus sign stands in front of a token that begins with another one.
* `signsApart_indented`: indentation does not matter.
* `head_tokens`: which operands that bind tightly begin with a minus sign.
* `Signed.negation`: what a minus sign in front of an operand meets.

**Signs** (`program_signsApart`).  In the text of a script, minus signs stand apart exactly if no negation
exposes the sign of a number.
-/

namespace TorqueScript

namespace Node

/-- The text of the node begins with the sign of a number. -/
def showsSign : Node → Bool
  | constant (.float x) => x.isNegative
  | field (some owner) _ _ => owner.showsSign
  | call _ _ .method (receiver :: _) => receiver.showsSign
  | _ => false

/-- As the operand of a negation, the node is written without parentheses and begins with a sign: it is
negative zero, or a field or a method call that begins with the sign of a number. -/
def exposesSign : Node → Bool
  | constant (.float x) => x.isNegative && x.isZero
  | n => n.showsSign

end Node

namespace Source

/-- The token begins with a minus sign. -/
def beginsWithMinus (t : String) : Bool :=
  t.toList.head? == some '-'

/-- No minus sign stands in front of a token that begins with another one. -/
def SignsApart (ts : List String) : Prop :=
  ts.IsChain fun t u => t = "-" → beginsWithMinus u = false

instance : DecidablePred SignsApart := fun ts =>
  inferInstanceAs (Decidable (ts.IsChain fun t u => t = "-" → beginsWithMinus u = false))

open Node

/-! ### Texts -/

section Texts

variable {t : String} {ts us : List String}

/-- Behind a token that is no minus sign everything may follow. -/
theorem signsApart_append (h : ts.getLast? ≠ some "-") :
    SignsApart (ts ++ us) ↔ SignsApart ts ∧ SignsApart us := by
  have hseam : ∀ t ∈ ts.getLast?, ∀ u ∈ us.head?, t = "-" → beginsWithMinus u = false := by
    rintro t ht u - rfl
    exact absurd ht h
  rw [SignsApart, List.isChain_append]
  exact ⟨fun ⟨hts, hus, _⟩ => ⟨hts, hus⟩, fun ⟨hts, hus⟩ => ⟨hts, hus, hseam⟩⟩

theorem signsApart_cons (h : t ≠ "-") : SignsApart (t :: us) ↔ SignsApart us := by
  have happend : SignsApart ([t] ++ us) ↔ SignsApart [t] ∧ SignsApart us :=
    signsApart_append (by simpa using h)
  simpa [SignsApart] using happend

/-- Indents may be written in front of a line. -/
theorem signsApart_replicate (k : Nat) : SignsApart (List.replicate k indent ++ ts) ↔ SignsApart ts := by
  induction k with
  | zero => rfl
  | succ k ih =>
      rw [List.replicate_succ, List.cons_append, signsApart_cons (by decide), ih]

/-- Nothing is put in front of what goes on with a line. -/
theorem head_indented {layout : Layout} (h : layout.atLineStart = false) :
    (layout.indented ts).head? = ts.head? := by
  cases ts with
  | nil => rfl
  | cons t ts => simp [Layout.indented, Layout.place, h]

/-- Indentation does not bring minus signs together, and does not take them apart. -/
theorem signsApart_indented (layout : Layout) : SignsApart (layout.indented ts) ↔ SignsApart ts := by
  induction ts generalizing layout with
  | nil => rfl
  | cons t ts ih =>
      have hplace : SignsApart (layout.indented (t :: ts)) ↔
          SignsApart (t :: ((layout.before t).after t).indented ts) := by
        rw [Layout.indented, Layout.place]
        split
        · rw [List.append_assoc, signsApart_replicate]
          rfl
        · rfl
      by_cases ht : t = "-"
      · -- the next token stands in the same line, so nothing is put in between
        subst ht
        have hhead : (((layout.before "-").after "-").indented ts).head? = ts.head? := head_indented rfl
        have hrest := ih ((layout.before "-").after "-")
        simp only [SignsApart] at hplace hrest ⊢
        rw [hplace, List.isChain_cons, List.isChain_cons, hhead, hrest]
      · rw [hplace, signsApart_cons ht, signsApart_cons ht, ih]

end Texts

variable {n : Node} {ts us : List String}

/-- No name of an identifier, a variable, a field, a function or a name space begins with a minus sign. -/
def SignFree (n : Node) : Prop :=
  n.Named (fun s => beginsWithMinus s = false) fun _ => True

instance : DecidablePred SignFree := fun n =>
  inferInstanceAs (Decidable (n.Named (fun s => beginsWithMinus s = false) fun _ => True))

theorem precedence_of_showsSign (h : n.showsSign) : n.precedence ≤ Precedence.member := by
  unfold showsSign at h
  split at h
  · exact Nat.zero_le _
  · exact le_rfl
  · exact le_rfl
  · cases h

theorem beginsWithMinus_literal {c : Constant} {t : String} (hc : SignFree (constant c))
    (h : literal c = .ok t) : beginsWithMinus t = (constant c).showsSign := by
  by_cases hident : ∃ s, c = .ident s
  · obtain ⟨s, rfl⟩ := hident
    cases h
    exact (hc _ (mem_subnodes.mpr (.inl rfl))).1 t (List.mem_singleton.mpr rfl)
  · rcases literal_cases (fun s hs => hident ⟨s, hs⟩) h with
      ⟨x, rfl, hx, d, ds, ht⟩ | ⟨hx, d, ds, ht, hd⟩
    · simp [beginsWithMinus, ht, showsSign, hx]
    · have hbegin : beginsWithMinus t = false := by
        rw [beginsWithMinus, ht]
        rcases hd with hd | rfl | rfl
        · have hne : d ≠ '-' := by
            rintro rfl
            exact absurd hd (by decide)
          simpa using hne
        · rfl
        · rfl
      rw [hbegin]
      cases c with
      | float x => simp [showsSign, hx x rfl]
      | _ => rfl

/-- The left operand of a dot begins with a sign exactly if it shows one: in parentheses it does not. -/
theorem head_dotted {parent : Node} (hparent : parent.precedence = Precedence.member)
    (h : n.precedence ≤ Precedence.member → ts.head?.map beginsWithMinus = some n.showsSign) :
    (parens (wrapsLeft parent n) ts ++ us).head?.map beginsWithMinus = some n.showsSign := by
  rw [wrapsLeft, hparent]
  by_cases htight : n.precedence ≤ Precedence.member
  · have hhead := h htight
    cases ts with
    | nil => cases hhead
    | cons t ts => simpa [parens, not_lt.mpr htight] using hhead
  · have hsign : n.showsSign = false := by
      by_contra hsign
      exact htight (precedence_of_showsSign (by simpa using hsign))
    rw [parens, if_pos (by simpa using htight), hsign]
    rfl

/-- A call begins with a name, except behind its receiver. -/
theorem head_callTokens {name : String} {nameSpace : Option String} {callType : CallType} {args : List Node}
    (hnames : ∀ s ∈ name :: nameSpace.toList, beginsWithMinus s = false)
    (hreceiver : ∀ receiver rest, args = receiver :: rest → receiver.precedence ≤ Precedence.member →
      ∀ ts, receiver.tokens .expression = .ok ts → ts.head?.map beginsWithMinus = some receiver.showsSign)
    (h : callTokens (call name nameSpace callType args) name nameSpace callType args = .ok ts) :
    ts.head?.map beginsWithMinus = some (call name nameSpace callType args).showsSign := by
  obtain ⟨hname, hnameSpace⟩ := List.forall_mem_cons.mp hnames
  have hfunction : ∀ us,
      ((qualifier nameSpace ++ [name, "("]) ++ us).head?.map beginsWithMinus = some false := by
    intro us
    cases nameSpace with
    | none => exact congrArg some hname
    | some s => exact congrArg some (hnameSpace s (List.mem_singleton.mpr rfl))
  cases args with
  | nil =>
      cases h
      cases callType with
      | function => simpa [showsSign] using hfunction [")"]
      | method => exact congrArg some hname
      | parent => rfl
  | cons a as =>
      obtain ⟨us, hus, h⟩ := bind_eq_ok_iff.mp h
      cases callType with
      | method =>
          obtain ⟨vs, -, h⟩ := bind_eq_ok_iff.mp h
          cases h
          rw [List.append_assoc, List.append_assoc]
          exact head_dotted rfl fun htight => hreceiver a as rfl htight us hus
      | function =>
          obtain ⟨vs, -, h⟩ := bind_eq_ok_iff.mp h
          cases h
          simpa [showsSign] using hfunction (us ++ vs ++ [")"])
      | parent =>
          obtain ⟨vs, -, h⟩ := bind_eq_ok_iff.mp h
          cases h
          rfl

/-- The first token of a node that binds tightly begins with a minus sign exactly if the node shows one. -/
theorem head_tokens (hn : SignFree n) (htight : n.precedence ≤ Precedence.member)
    (h : n.tokens .expression = .ok ts) : ts.head?.map beginsWithMinus = some n.showsSign := by
  induction n using writtenInduction generalizing ts with
  | h n ih =>
      have hnames := (hn n (mem_subnodes.mpr (.inl rfl))).1
      cases n with
      | constant c =>
          rw [tokens] at h
          obtain ⟨t, ht, h⟩ := bind_eq_ok_iff.mp h
          cases h
          exact congrArg some (beginsWithMinus_literal hn ht)
      | var name index =>
          rw [tokens] at h
          obtain ⟨is, -, h⟩ := bind_eq_ok_iff.mp h
          cases h
          exact congrArg some (hnames name (List.mem_singleton.mpr rfl))
      | field owner name index =>
          cases owner with
          | none =>
              rw [tokens] at h
              obtain ⟨is, -, h⟩ := bind_eq_ok_iff.mp h
              cases h
              exact congrArg some (hnames name (List.mem_singleton.mpr rfl))
          | some owner =>
              have howner : owner ∈ (field (some owner) name index).written := by simp [written, children]
              rw [tokens] at h
              obtain ⟨os, hos, h⟩ := bind_eq_ok_iff.mp h
              obtain ⟨is, -, h⟩ := bind_eq_ok_iff.mp h
              cases h
              exact head_dotted rfl fun htight => ih owner howner (hn.of_written howner) htight hos
      | call name nameSpace callType args =>
          rw [tokens] at h
          obtain ⟨cs, hcs, h⟩ := bind_eq_ok_iff.mp h
          cases h
          refine head_callTokens hnames (fun receiver rest hargs htight ts hts => ?_) hcs
          have hreceiver : receiver ∈ (call name nameSpace callType args).written := by
            simp [written, children, hargs]
          exact ih receiver hreceiver (hn.of_written hreceiver) htight hts
      | object className name parent isDatablock args fields children depth =>
          rw [tokens.eq_def] at h
          obtain ⟨cs, -, h⟩ := bind_eq_ok_iff.mp h
          obtain ⟨ns, -, h⟩ := bind_eq_ok_iff.mp h
          obtain ⟨as, -, h⟩ := bind_eq_ok_iff.mp h
          obtain ⟨fs, -, h⟩ := bind_eq_ok_iff.mp h
          obtain ⟨chs, -, h⟩ := bind_eq_ok_iff.mp h
          cases h
          cases isDatablock <;> rfl
      | binary op l r =>
          have hop : ¬ op.precedence ≤ Precedence.member := by cases op <;> decide
          exact absurd htight hop
      | _ => exact absurd htight (by simp [precedence, Precedence.member, Precedence.unary, Precedence.concat,
          Precedence.conditional, Precedence.assignment, Precedence.comma, Precedence.statement])

/-! ### Negations -/

theorem hasNegation_neg {E : Node → Prop} : (unary .neg n).HasNegation E ↔ E n ∨ n.HasNegation E := by
  simp [hasNegation_iff (n := unary .neg n), written, children]

/-- An operand in parentheses exposes no sign. -/
theorem exposesSign_of_wraps (h : wrapsOperand .neg n) : n.exposesSign = false := by
  unfold exposesSign
  split
  · next x =>
      have hbelow : x.isBelowZero := by simpa [wrapsOperand, precedence, Precedence.primary] using h
      rw [Binary64.isBelowZero] at hbelow
      cases hzero : x.isZero <;> simp_all
  · next hfloat =>
      by_contra hsign
      have htight := precedence_of_showsSign (by simpa using hsign)
      unfold wrapsOperand at h
      split at h
      · exact hsign rfl
      · next x => exact hfloat x rfl
      · have hloose : Precedence.unary < n.precedence := by simpa using h
        exact absurd (hloose.trans_le htight) (by decide)

/-- An operand without parentheses binds tightly, and exposes the sign that it shows. -/
theorem exposesSign_of_not_wraps (h : wrapsOperand .neg n = false) (hok : n.tokens .expression = .ok ts) :
    n.precedence ≤ Precedence.member ∧ n.exposesSign = n.showsSign := by
  obtain ⟨hunary, hkind⟩ := Bool.or_eq_false_iff.mp h
  have hprecedence : n.precedence ≤ Precedence.unary := by simpa using hunary
  cases n with
  | constant c =>
      refine ⟨Nat.zero_le _, ?_⟩
      cases c with
      | float x =>
          rw [tokens] at hok
          obtain ⟨t, ht, -⟩ := bind_eq_ok_iff.mp hok
          have hbelow : x.isBelowZero = false := by simpa using hkind
          rw [Binary64.isBelowZero, (literal_float ht).2.1] at hbelow
          change (x.isNegative && x.isZero) = x.isNegative
          cases hsign : x.isNegative <;> simp_all
      | _ => rfl
  | unary op operand => cases hkind
  | binary op l r =>
      have hop : ¬ op.precedence ≤ Precedence.unary := by cases op <;> decide
      exact absurd hprecedence hop
  | field => exact ⟨le_rfl, rfl⟩
  | var => exact ⟨Nat.zero_le _, rfl⟩
  | object => exact ⟨Nat.zero_le _, rfl⟩
  | call name nameSpace callType args =>
      cases callType <;> exact ⟨by simp [precedence, Precedence.primary], rfl⟩
  | _ => exact absurd hprecedence (by simp [precedence, Precedence.unary, Precedence.concat,
      Precedence.conditional, Precedence.assignment, Precedence.comma, Precedence.statement])

/-! ### Scripts -/

/-- The text does not end with a minus sign, and the signs in it stand apart unless `F`. -/
def Signed (F : Prop) (ts : List String) : Prop :=
  ts.getLast? ≠ some "-" ∧ (SignsApart ts ↔ ¬F)

namespace Signed

variable {F G : Prop} {t : String}

theorem of_ne (ht : t ≠ "-") : Signed False [t] :=
  ⟨by simpa using ht, by simp [SignsApart]⟩

theorem append (hts : Signed F ts) (hus : Signed G us) : Signed (F ∨ G) (ts ++ us) := by
  refine ⟨?_, by rw [signsApart_append hts.1, hts.2, hus.2, not_or]⟩
  rw [List.getLast?_append]
  cases hlast : us.getLast? with
  | none => exact hts.1
  | some t => exact fun h => hus.1 (hlast.trans h)

/-- A minus sign in front of a text meets its first token. -/
theorem behindMinus (hts : Signed F (t :: ts)) : Signed (beginsWithMinus t ∨ F) ("-" :: t :: ts) := by
  refine ⟨by simpa using hts.1, ?_⟩
  have hapart : SignsApart ("-" :: t :: ts) ↔ beginsWithMinus t = false ∧ SignsApart (t :: ts) := by
    simp [SignsApart, List.isChain_cons_cons]
  rw [hapart, hts.2, not_or, Bool.not_eq_true]

theorem negation (hn : SignFree n) (hok : n.tokens .expression = .ok ts) (hts : Signed F ts) :
    Signed (n.exposesSign ∨ F) ("-" :: parens (wrapsOperand .neg n) ts) := by
  cases hwrap : wrapsOperand .neg n with
  | true =>
      have hparens := ((of_ne (t := "(") (by decide)).append hts).append (of_ne (t := ")") (by decide))
      have hbegin : beginsWithMinus "(" = false := by decide
      simpa [parens, hbegin, exposesSign_of_wraps hwrap] using hparens.behindMinus
  | false =>
      obtain ⟨htight, hsign⟩ := exposesSign_of_not_wraps hwrap hok
      have hhead := head_tokens hn htight hok
      cases ts with
      | nil => cases hhead
      | cons t ts =>
          have ht : beginsWithMinus t = n.showsSign := by simpa using hhead
          rw [hsign, ← ht]
          exact hts.behindMinus

/-- The ways to put texts together keep signs apart, except for the negations that expose one. -/
theorem piecewise : Piecewise (fun s => beginsWithMinus s = false) (fun _ => True)
    (fun operand => operand.exposesSign) Signed where
  nil := ⟨by simp, by simp [SignsApart]⟩
  append := append
  token ht := of_ne fun h => ht (h ▸ List.mem_cons_self)
  minus := by
    have hblank : Signed False [" "] := of_ne (by decide)
    have hbegin : beginsWithMinus " " = false := by decide
    simpa [hbegin] using hblank.append hblank.behindMinus
  name {s} hs := of_ne (by rintro rfl; exact absurd hs (by decide))
  label {s t F ts} _ ht hts := by
    refine ⟨by simpa using hts.1, ?_⟩
    have hmark : beginsWithMinus t = false := by
      simp only [List.mem_cons, List.not_mem_nil, or_false] at ht
      rcases ht with rfl | rfl | rfl <;> decide
    rw [← hts.2, SignsApart, List.isChain_cons_cons]
    exact and_iff_right fun _ => hmark
  negation := negation
  braces {F ts} hts := by
    have hopen := (of_ne (t := openBrace) (by decide)).append (of_ne (t := "\n") (by decide))
    simpa using (hopen.append hts).append (of_ne (t := closeBrace) (by decide))

end Signed

/-- **Signs.**  In the text of a script, minus signs stand apart exactly if no negation exposes the sign of a
number. -/
theorem program_signsApart {nodes : List Node} {tokens : List String} (hnames : ∀ n ∈ nodes, SignFree n)
    (h : program nodes = .ok tokens) :
    SignsApart tokens ↔ ¬ ∃ n ∈ nodes, n.HasNegation fun operand => operand.exposesSign := by
  obtain ⟨ts, hts, h⟩ := bind_eq_ok_iff.mp h
  cases h
  rw [signsApart_indented]
  exact (Signed.piecewise.programTokens hnames ts hts).2

/-- `return -(-(-1.5));` -/
def nestedSigns : List Node :=
  [.ret (some (.unary .neg (.unary .neg (.constant (.float ⟨0xbff8000000000000⟩)))))]

theorem program_signsApart_nestedSigns :
    ∃ tokens, (∀ n ∈ nestedSigns, SignFree n) ∧ program nestedSigns = .ok tokens ∧
      SignsApart tokens := by
  have hnames : ∀ n ∈ nestedSigns, SignFree n := by decide
  have hwritten : program nestedSigns =
      .ok ["return", " ", "-", "(", "-", "(", "-1.5", ")", ")", ";", "\n"] := by decide +kernel
  refine ⟨_, hnames, hwritten, (program_signsApart hnames hwritten).mpr ?_⟩
  simp only [nestedSigns, List.mem_singleton, exists_eq_left]
  intro h
  -- the return holds a negation, which holds another one, which holds a number below zero
  obtain ⟨_, heq, -⟩ | ⟨c, hc, h⟩ := hasNegation_iff.mp h
  · cases heq
  obtain rfl := List.mem_singleton.mp hc
  obtain h | h := hasNegation_neg.mp h
  · cases h
  obtain h | h := hasNegation_neg.mp h
  · exact absurd h (by decide)
  · exact not_hasNegation_constant _ h

/-- Negations of negative zero, of a field and of the result of a method. -/
def exposedSigns : List Node :=
  [.unary .neg (.constant (.float ⟨0x8000000000000000⟩)),
    .unary .neg (.field (some (.constant (.float ⟨0xbff8000000000000⟩))) "x" none),
    .unary .neg (.call "f" none .method [.constant (.float ⟨0xbff8000000000000⟩)])]

/-- They are written as `--0;`, `--1.5.x;` and `--1.5.f();`. -/
theorem not_signsApart_exposedSigns :
    (∀ n ∈ exposedSigns, SignFree n) ∧
      ∃ zero field call, program exposedSigns = .ok (zero ++ field ++ call) ∧
        ¬ SignsApart zero ∧ ¬ SignsApart field ∧ ¬ SignsApart call ∧
        ¬ SignsApart (zero ++ field ++ call) := by
  refine ⟨by decide, ["-", "-0", ";", "\n"], ["-", "-1.5", ".", "x", ";", "\n"],
    ["-", "-1.5", ".", "f", "(", ")", ";", "\n"], ?_, ?_, ?_, ?_, ?_⟩
  · decide +kernel
  all_goals decide

end Source

end TorqueScript
