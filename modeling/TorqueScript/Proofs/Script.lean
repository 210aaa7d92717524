import TorqueScript.Proofs.Legible

/-!
# Scripts that are read back

Statements are told apart by their first word, and a statement ends by itself, at a semicolon or a
closing brace.  The one that does not is a choice without an alternative: what follows it must not be
`else`.  So a statement is read back in front of everything else (`ReadsStatement`), and since no
statement begins with that word, a list of statements is (`ReadsStatements`).  An alternative that
consists of one more choice is written without braces, and read back as a list of one.

White space is left out before reading, so indentation and empty lines do not matter
(`Source.solid_indented`).

`Source.readScript_program` puts it together: a script of legible statements is written without failing,
and reading its tokens gives back the very statements.
-/

namespace TorqueScript

namespace Grammar

open Source

/-! ### Reading statements -/

/-- Statements end here: at a closing brace or with the script. -/
def Ends (rest : List String) : Prop :=
  ∀ t ∈ rest.head?, t = closeBrace

/-- The tokens are read as the statement, unless an alternative follows. -/
structure ReadsStatement (n : Node) (ts : List String) : Prop where
  starts : ∃ t us, ts = t :: us ∧ t ≠ "else" ∧ t ≠ closeBrace ∧ (n.isIf → t = "if")
  reads {rest : List String} : rest.head? ≠ some "else" → readStatement (ts ++ rest) = some (n, rest)

/-- The tokens are read as statements up to their end. -/
def ReadsStatements (ns : List Node) (ts : List String) : Prop :=
  ∀ rest, Ends rest → (ts ++ rest).head? ≠ some "else" ∧ readStatements (ts ++ rest) = some (ns, rest)

section Statements

variable {n : Node} {ns : List Node} {ts us rest : List String}

theorem readsStatements_nil : ReadsStatements [] [] := by
  intro rest hrest
  rw [List.nil_append]
  cases rest with
  | nil => exact ⟨nofun, by rw [readStatements]⟩
  | cons t rest =>
      obtain rfl := hrest t rfl
      exact ⟨fun h => absurd (Option.some.inj h) (by decide), by rw [readStatements, if_pos rfl]⟩

/-- A statement and the statements behind it are read one after the other. -/
theorem ReadsStatement.cons (h : ReadsStatement n ts) (hns : ReadsStatements ns us) :
    ReadsStatements (n :: ns) (ts ++ us) := by
  intro rest hrest
  obtain ⟨hhead, hread⟩ := hns rest hrest
  have hfirst := h.reads hhead
  obtain ⟨t, ts', rfl, helse, hbrace, -⟩ := h.starts
  rw [List.append_assoc]
  refine ⟨fun h => helse (Option.some.inj h), ?_⟩
  rw [List.cons_append] at hfirst ⊢
  rw [readStatements, if_neg hbrace]
  simp only [hfirst, shorter?_append, hread, Option.bind_eq_bind, Option.bind_some]

/-- A block is read up to its brace. -/
theorem ReadsStatements.block (h : ReadsStatements ns ts) :
    readBlock (openBrace :: (ts ++ closeBrace :: rest)) = some (ns, rest) := by
  have hend : Ends (closeBrace :: rest) := fun t ht => (Option.mem_some.mp ht).symm
  rw [readBlock]
  simp only [expect_self, shorter?_cons, (h _ hend).2, Option.bind_eq_bind, Option.bind_some]

/-- The block of a body is its text in braces. -/
theorem solid_block (ts : List String) : solid (block ts) = openBrace :: (solid ts ++ [closeBrace]) := by
  simp (disch := decide) only [block, List.cons_append, solid_cons, solid_blank, solid_append, solid_nil]

/-- A word that no expression begins with begins a statement of its own. -/
theorem readsStatement_keyword {t : String} (hopen : opener? t = none) (ht : t ≠ "else" ∧ t ≠ closeBrace)
    (hif : n.isIf → t = "if")
    (h : ∀ rest, rest.head? ≠ some "else" → ¬ begins (t :: (us ++ rest)) →
      readStatement (t :: (us ++ rest)) = some (n, rest)) : ReadsStatement n (t :: us) :=
  ⟨⟨t, us, rfl, ht.1, ht.2, hif⟩, fun {rest} hrest => h rest hrest (by simp [begins, hopen])⟩

/-- A statement ends with a semicolon. -/
theorem solid_statement (ts : List String) : solid (Position.statement.value ts) = solid ts ++ [";"] := by
  simp (disch := decide) only [Position.value, solid_append, solid_cons, solid_blank, solid_nil]

/-- An expression with a semicolon behind it is a statement. -/
theorem readsStatement_expression (hif : n.isIf = false) (hbegins : begins ts)
    (hreads : ∀ rest, Clear Precedence.assignment rest →
      read Precedence.assignment (ts ++ rest) = some (n, rest)) : ReadsStatement n (ts ++ [";"]) := by
  cases ts with
  | nil => cases hbegins
  | cons t us =>
      have hopen : (opener? t).isSome = true := hbegins
      refine ⟨⟨t, us ++ [";"], rfl, ?_, ?_, by simp [hif]⟩, fun {rest} _ => ?_⟩
      · rintro rfl
        revert hopen
        decide
      · rintro rfl
        revert hopen
        decide
      · have hread := hreads (";" :: rest) (clear_cons (by decide) (by decide) rest)
        rw [List.append_assoc, List.cons_append, List.singleton_append]
        rw [List.cons_append] at hread
        rw [readStatement, if_pos (by exact hopen)]
        simp only [hread, expect_self, Option.bind_eq_bind, Option.bind_some]

end Statements

end Grammar

namespace Node

open Source Grammar

/-- An expression that is no list. -/
structure LegibleValue (n : Node) : Prop where
  legible : n.Legible
  single : n.precedence ≤ Precedence.assignment

/-- A statement that can be read back from its tokens. -/
inductive LegibleStatement : Node → Prop where
  | expression {n : Node} : n.LegibleValue → LegibleStatement n
  | ret {value : Option Node} : (∀ v ∈ value, v.LegibleValue) → LegibleStatement (ret value)
  | breakLoop : LegibleStatement breakLoop
  | continueLoop : LegibleStatement continueLoop
  | ifElse {c : Node} {t e : List Node} : c.LegibleValue → (∀ n ∈ t, LegibleStatement n) →
      (∀ n ∈ e, LegibleStatement n) → LegibleStatement (ifElse c t e)
  | whileLoop {c : Node} {body : List Node} : c.LegibleValue → (∀ n ∈ body, LegibleStatement n) →
      LegibleStatement (loop .whileLoop none c none body)
  | doWhile {c : Node} {body : List Node} : c.LegibleValue → (∀ n ∈ body, LegibleStatement n) →
      LegibleStatement (loop .doWhile none c none body)
  | forLoop {c : Node} {init step : Option Node} {body : List Node} : (∀ i ∈ init, i.LegibleValue) →
      c.LegibleValue → (∀ s ∈ step, s.LegibleValue) → (∀ n ∈ body, LegibleStatement n) →
      LegibleStatement (loop .forLoop init c step body)
  | function {s : Signature} {body : List Node} : isIdentifier s.name →
      (∀ nameSpace ∈ s.nameSpace, isIdentifier nameSpace) → s.package = none →
      (∀ a ∈ s.args, isVariable a) → (∀ n ∈ body, LegibleStatement n) → LegibleStatement (function s body)

/-! ### Expressions inside of statements -/

/-- A legible value is read from its own text, whatever follows it. -/
theorem LegibleValue.reads {n : Node} (h : n.LegibleValue) : ∃ ts, (∀ pos, n.tokens pos = .ok (pos.value ts)) ∧
    begins (solid ts) ∧ ∀ rest, Clear Precedence.assignment rest →
      read Precedence.assignment (solid ts ++ rest) = some (n, rest) := by
  obtain ⟨ts, hts, hreads⟩ := h.legible.readable
  exact ⟨ts, hts, hreads.begins, fun rest hrest => hreads.done h.single hrest⟩

/-- As a statement it is read with its semicolon. -/
theorem LegibleValue.readsStatement {n : Node} (h : n.LegibleValue) :
    ∃ ts, n.tokens .statement = .ok ts ∧ ReadsStatement n (solid ts) := by
  obtain ⟨ts, hts, hbegins, hreads⟩ := h.reads
  refine ⟨_, hts .statement, ?_⟩
  have hif : n.isIf = false := by
    cases h.legible <;> rfl
  rw [solid_statement]
  exact readsStatement_expression hif hbegins hreads

/-- A condition is read from between its parentheses. -/
theorem reads_condition {c : Node} (h : c.LegibleValue) : ∃ cs, c.tokens .expression = .ok cs ∧
    ∀ rest, readCondition ("(" :: (solid cs ++ ")" :: rest)) = some (c, rest) := by
  obtain ⟨cs, hcs, -, hreads⟩ := h.reads
  refine ⟨cs, hcs .expression, fun rest => ?_⟩
  have hread := hreads (")" :: rest) (clear_cons (by decide) (by decide) rest)
  rw [readCondition]
  simp only [expect_self, hread, Option.bind_eq_bind, Option.bind_some]

/-- An expression that may be missing, in front of a token that does not go on with it. -/
theorem reads_option {n : Option Node} (h : ∀ m ∈ n, m.LegibleValue) : ∃ ts, optionTokens n = .ok ts ∧
    ∀ {t : String}, t ≠ "[" ∧ t ≠ "(" → Operator.ofToken? t = none → opener? t = none →
      ∀ rest, readOptional (solid ts ++ t :: rest) = some (n, t :: rest) := by
  cases n with
  | none =>
      refine ⟨[], rfl, fun _ _ hopen rest => ?_⟩
      rw [solid_nil, List.nil_append, readOptional, if_neg (by simp [begins, hopen])]
  | some m =>
      obtain ⟨ts, hts, hbegins, hreads⟩ := (h m rfl).reads
      refine ⟨ts, hts .expression, fun ht hoperator _ rest => ?_⟩
      rw [readOptional, if_pos (begins_append hbegins _)]
      simp only [hreads _ (clear_cons ht hoperator rest), Option.bind_eq_bind, Option.bind_some]

/-! ### Statements -/

/-- The statement is written, and read back. -/
def ReadableStatement (n : Node) : Prop :=
  ∃ ts, n.tokens .statement = .ok ts ∧ ReadsStatement n (solid ts)

/-- Readable statements are read one after the other. -/
theorem readable_statements {ns : List Node} (h : ∀ n ∈ ns, n.ReadableStatement) :
    ∃ ts, statementTokens ns = .ok ts ∧ ReadsStatements ns (solid ts) := by
  induction ns with
  | nil => exact ⟨[], rfl, readsStatements_nil⟩
  | cons n ns ih =>
      obtain ⟨hn, hns⟩ := List.forall_mem_cons.mp h
      obtain ⟨ts, hts, hreads⟩ := hn
      obtain ⟨us, hus, hreads'⟩ := ih hns
      refine ⟨ts ++ us, by rw [statementTokens, hts, hus]; rfl, ?_⟩
      rw [solid_append]
      exact hreads.cons hreads'

/-- The alternative of a choice, as a chain or as a block. -/
theorem readable_else {e : List Node} (h : ∀ n ∈ e, n.ReadableStatement) :
    ∃ es, elseTokens e = .ok es ∧ ∀ rest, rest.head? ≠ some "else" →
      readElse (solid es ++ rest) = some (e, rest) := by
  cases e with
  | nil =>
      refine ⟨[], rfl, fun rest hrest => ?_⟩
      rw [solid_nil, List.nil_append, readElse]
      cases rest with
      | nil => rfl
      | cons t rest => rw [expect_ne fun ht => hrest (congrArg some ht)]
  | cons n ns =>
      obtain ⟨hn, hns⟩ := List.forall_mem_cons.mp h
      obtain ⟨ts, hts, hreads⟩ := hn
      obtain ⟨us, hus, hreads'⟩ := readable_statements hns
      refine ⟨_, by rw [elseTokens, hts, hus]; rfl, fun rest hrest => ?_⟩
      by_cases hchain : n.isIf && ns.isEmpty
      · -- a chain: the reader tells it from a block by the word that follows
        rw [if_pos hchain]
        obtain ⟨hif, hempty⟩ := Bool.and_eq_true_iff.mp hchain
        obtain rfl := List.isEmpty_iff.mp hempty
        have hread := hreads.reads hrest
        obtain ⟨t, ts', hsolid, -, -, ht⟩ := hreads.starts
        obtain rfl := ht hif
        simp (disch := decide) only [solid_cons, solid_blank, List.cons_append]
        rw [hsolid] at hread ⊢
        rw [readElse, expect_self]
        rw [List.cons_append] at hread ⊢
        simp only [shorter?_cons, List.head?_cons, if_true, hread, Option.bind_eq_bind, Option.bind_some]
      · rw [if_neg hchain]
        simp (disch := decide) only [solid_cons, solid_blank, solid_block, solid_append, List.cons_append,
          List.append_assoc]
        have hbrace : some openBrace ≠ some "if" := by decide
        rw [readElse, expect_self]
        simp only [shorter?_cons, List.head?_cons, hbrace, if_false, Option.bind_eq_bind, Option.bind_some]
        rw [← List.append_assoc]
        exact (hreads.cons hreads').block

/-! ### Heads of functions -/

theorem names_cons_cons (a b : String) (as : List String) :
    names (a :: b :: as) = a :: "," :: " " :: names (b :: as) := by
  simp [names]

/-- Parameters are read up to the closing parenthesis. -/
theorem read_names {a : String} {as : List String} (h : ∀ b ∈ a :: as, isVariable b) (rest : List String) :
    ∃ us, solid (names (a :: as)) ++ ")" :: rest = a :: us ∧ readParameters us = some (as, rest) := by
  induction as generalizing a with
  | nil =>
      refine ⟨")" :: rest, ?_, by unfold readParameters; exact if_pos rfl⟩
      have ha := opener?_variable (h a List.mem_cons_self)
      show solid [a] ++ _ = _
      rw [solid_opener ha]
      rfl
  | cons b as ih =>
      obtain ⟨ha, htail⟩ := List.forall_mem_cons.mp h
      obtain ⟨us, hus, hread⟩ := ih htail
      refine ⟨"," :: b :: us, ?_, ?_⟩
      · rw [names_cons_cons, solid_opener (opener?_variable ha)]
        simp (disch := decide) only [solid_cons, solid_blank, List.cons_append, hus]
      · rw [readParameters, if_neg (by decide)]
        simp only [htail b List.mem_cons_self, and_self, if_true, hread, Option.bind_eq_bind, Option.bind_some]

/-- **A signature is read back from the head of a function.** -/
theorem read_signature {s : Signature} (hname : isIdentifier s.name)
    (hnameSpace : ∀ nameSpace ∈ s.nameSpace, isIdentifier nameSpace) (hpackage : s.package = none)
    (hargs : ∀ a ∈ s.args, isVariable a) : ∃ us, solid (signature s) = "function" :: us ∧
      ∀ rest, readSignature (us ++ rest) = some (s, rest) := by
  obtain ⟨name, nameSpace, package, args⟩ := s
  obtain rfl : package = none := hpackage
  have hread : ∀ us, readName (solid (qualifier nameSpace) ++ name :: "(" :: us) =
      some (nameSpace, name, "(" :: us) := by
    intro us
    rw [readName]
    cases nameSpace with
    | none =>
        simp only [qualifier, solid_nil, List.nil_append, word?_cons hname, expect_ne (by decide : "(" ≠ "::"),
          Option.bind_eq_bind, Option.bind_some]
    | some nameSpace =>
        have hopen := opener?_identifier (hnameSpace nameSpace rfl)
        simp (disch := decide) only [qualifier, solid_opener hopen, solid_cons, solid_nil, List.cons_append,
          List.nil_append, word?_cons (hnameSpace nameSpace rfl), expect_self, word?_cons hname,
          Option.bind_eq_bind, Option.bind_some]
  refine ⟨solid (qualifier nameSpace) ++ name :: "(" :: (solid (names args) ++ [")"]), ?_, fun rest => ?_⟩
  · simp (disch := decide) only [signature, List.append_assoc, List.cons_append, List.nil_append, solid_cons,
      solid_blank, solid_append, solid_opener (opener?_identifier hname), solid_nil]
  · rw [List.append_assoc, List.cons_append, List.cons_append, List.append_assoc, List.singleton_append,
      readSignature]
    simp only [hread, expect_self, Option.bind_eq_bind, Option.bind_some]
    cases args with
    | nil =>
        show (if isVariable ")" = true then _ else _) = _
        rw [if_neg (by decide)]
        rfl
    | cons a as =>
        obtain ⟨us, hus, hparameters⟩ := read_names hargs rest
        rw [hus]
        simp only [hargs a List.mem_cons_self, if_true, hparameters, Option.bind_some]

/-! ### Kinds of statements -/

section Kinds

variable {c : Node} {body : List Node}

/-- A return is read back, with its value or without one. -/
theorem readable_ret {value : Option Node} (h : ∀ v ∈ value, v.LegibleValue) :
    (ret value).ReadableStatement := by
  obtain ⟨ts, hts, hreads⟩ := reads_option h
  obtain ⟨us, hus, hsolid⟩ : ∃ us, (ret value).tokens .statement = .ok us ∧
      solid us = "return" :: (solid ts ++ [";"]) := by
    cases value with
    | none => cases hts; exact ⟨_, by rw [tokens]; rfl, rfl⟩
    | some v =>
        rw [optionTokens] at hts
        refine ⟨_, by rw [tokens, hts]; rfl, ?_⟩
        simp (disch := decide) only [List.cons_append, solid_cons, solid_blank, solid_append, solid_nil]
  refine ⟨us, hus, hsolid ▸ readsStatement_keyword (by decide) (by decide) (by simp [isIf])
    fun rest _ hnot => ?_⟩
  have hkeyword : Keyword.ofToken? "return" = some .ret := by decide
  have hread := hreads (by decide : ";" ≠ "[" ∧ ";" ≠ "(") (by decide) (by decide) rest
  rw [readStatement, if_neg hnot, hkeyword]
  simp only [List.append_assoc, List.singleton_append, hread, expect_self, Option.bind_eq_bind, Option.bind_some]

theorem readable_breakLoop : breakLoop.ReadableStatement := by
  have hreads : ReadsStatement breakLoop ["break", ";"] := by
    refine readsStatement_keyword (by decide) (by decide) (by simp [isIf]) fun rest _ hnot => ?_
    have hkeyword : Keyword.ofToken? "break" = some .breakLoop := by decide
    rw [readStatement, if_neg hnot, hkeyword]
    rfl
  exact ⟨["break", ";", "\n"], by rw [tokens]; rfl, hreads⟩

theorem readable_continueLoop : continueLoop.ReadableStatement := by
  have hreads : ReadsStatement continueLoop ["continue", ";"] := by
    refine readsStatement_keyword (by decide) (by decide) (by simp [isIf]) fun rest _ hnot => ?_
    have hkeyword : Keyword.ofToken? "continue" = some .continueLoop := by decide
    rw [readStatement, if_neg hnot, hkeyword]
    rfl
  exact ⟨["continue", ";", "\n"], by rw [tokens]; rfl, hreads⟩

/-- A choice is read back if its condition and its statements are. -/
theorem readable_ifElse {t e : List Node} (hc : c.LegibleValue) (ht : ∀ n ∈ t, n.ReadableStatement)
    (he : ∀ n ∈ e, n.ReadableStatement) : (ifElse c t e).ReadableStatement := by
  obtain ⟨cs, hcs, hcondition⟩ := reads_condition hc
  obtain ⟨ts, hts, hthen⟩ := readable_statements ht
  obtain ⟨es, hes, helse⟩ := readable_else he
  refine ⟨_, by rw [tokens, hcs, hts, hes]; rfl, ?_⟩
  simp (disch := decide) only [List.cons_append, List.nil_append, List.append_assoc, solid_cons, solid_blank,
    solid_append, solid_block]
  refine readsStatement_keyword (by decide) (by decide) (fun _ => rfl) fun rest hrest hnot => ?_
  have hkeyword : Keyword.ofToken? "if" = some .ifElse := by decide
  rw [readStatement, if_neg hnot, hkeyword]
  simp (disch := simp +arith only [List.length_cons, List.length_append]) only [List.cons_append,
    List.append_assoc, hcondition, hthen.block, helse rest hrest, shorter?_eq, Option.bind_eq_bind,
    Option.bind_some]

/-- A `while` loop is read back from its condition and its body. -/
theorem readable_whileLoop (hc : c.LegibleValue) (hbody : ∀ n ∈ body, n.ReadableStatement) :
    (loop .whileLoop none c none body).ReadableStatement := by
  obtain ⟨cs, hcs, hcondition⟩ := reads_condition hc
  obtain ⟨bs, hbs, hblock⟩ := readable_statements hbody
  refine ⟨_, by rw [tokens, hcs, hbs]; rfl, ?_⟩
  simp (disch := decide) only [List.cons_append, List.nil_append, List.append_assoc, solid_cons, solid_blank,
    solid_append, solid_block]
  refine readsStatement_keyword (by decide) (by decide) (by simp [isIf]) fun rest _ hnot => ?_
  have hkeyword : Keyword.ofToken? "while" = some .whileLoop := by decide
  rw [readStatement, if_neg hnot, hkeyword]
  simp (disch := simp +arith only [List.length_cons, List.length_append]) only [List.cons_append,
    List.append_assoc, List.nil_append, hcondition, hblock.block, shorter?_eq, Option.bind_eq_bind,
    Option.bind_some]

/-- A `do` loop from its body and its condition. -/
theorem readable_doWhile (hc : c.LegibleValue) (hbody : ∀ n ∈ body, n.ReadableStatement) :
    (loop .doWhile none c none body).ReadableStatement := by
  obtain ⟨cs, hcs, hcondition⟩ := reads_condition hc
  obtain ⟨bs, hbs, hblock⟩ := readable_statements hbody
  refine ⟨_, by rw [tokens, hcs, hbs]; rfl, ?_⟩
  simp (disch := decide) only [List.cons_append, List.nil_append, List.append_assoc, solid_cons, solid_blank,
    solid_append, solid_block, solid_nil]
  refine readsStatement_keyword (by decide) (by decide) (by simp [isIf]) fun rest _ hnot => ?_
  have hkeyword : Keyword.ofToken? "do" = some .doWhile := by decide
  rw [readStatement, if_neg hnot, hkeyword]
  simp only [List.cons_append, List.append_assoc, List.nil_append, hblock.block, expect_self, hcondition,
    Option.bind_eq_bind, Option.bind_some]

/-- A `for` loop from its three parts, any of which may be missing, and its body. -/
theorem readable_forLoop {init step : Option Node} (hinit : ∀ i ∈ init, i.LegibleValue) (hc : c.LegibleValue)
    (hstep : ∀ s ∈ step, s.LegibleValue) (hbody : ∀ n ∈ body, n.ReadableStatement) :
    (loop .forLoop init c step body).ReadableStatement := by
  obtain ⟨is, his, hinit⟩ := reads_option hinit
  obtain ⟨cs, hcs, -, hcondition⟩ := hc.reads
  obtain ⟨ss, hss, hstep⟩ := reads_option hstep
  obtain ⟨bs, hbs, hblock⟩ := readable_statements hbody
  have hcs : c.tokens .expression = .ok cs := hcs .expression
  refine ⟨_, by rw [tokens, his, hcs, hss, hbs]; rfl, ?_⟩
  simp (disch := decide) only [List.cons_append, List.nil_append, List.append_assoc, solid_cons, solid_blank,
    solid_append, solid_block]
  refine readsStatement_keyword (by decide) (by decide) (by simp [isIf]) fun rest _ hnot => ?_
  have hkeyword : Keyword.ofToken? "for" = some .forLoop := by decide
  have hsemicolon : ∀ {k : Nat} us, Clear k (";" :: us) := fun us => clear_cons (by decide) (by decide) us
  rw [readStatement, if_neg hnot, hkeyword]
  simp (disch := simp +arith only [List.length_cons, List.length_append]) only [List.cons_append,
    List.append_assoc, List.nil_append, expect_self,
    hinit (by decide : ";" ≠ "[" ∧ ";" ≠ "(") (by decide) (by decide), hcondition _ (hsemicolon _),
    hstep (by decide : ")" ≠ "[" ∧ ")" ≠ "(") (by decide) (by decide), hblock.block, shorter?_eq,
    Option.bind_eq_bind, Option.bind_some]

/-- A function from its head and its body. -/
theorem readable_function {s : Signature} (hname : isIdentifier s.name)
    (hnameSpace : ∀ nameSpace ∈ s.nameSpace, isIdentifier nameSpace) (hpackage : s.package = none)
    (hargs : ∀ a ∈ s.args, isVariable a) (hbody : ∀ n ∈ body, n.ReadableStatement) :
    (function s body).ReadableStatement := by
  obtain ⟨us, hus, hsignature⟩ := read_signature hname hnameSpace hpackage hargs
  obtain ⟨bs, hbs, hblock⟩ := readable_statements hbody
  refine ⟨_, by rw [tokens, hbs]; rfl, ?_⟩
  rw [solid_append, hus, solid_block, List.cons_append]
  refine readsStatement_keyword (by decide) (by decide) (by simp [isIf]) fun rest _ hnot => ?_
  have hkeyword : Keyword.ofToken? "function" = some .function := by decide
  rw [readStatement, if_neg hnot, hkeyword]
  simp (disch := simp +arith only [List.length_cons, List.length_append]) only [List.cons_append,
    List.append_assoc, List.nil_append, hsignature, hblock.block, shorter?_eq, Option.bind_eq_bind,
    Option.bind_some]

end Kinds

/-- Statements are read back. -/
theorem LegibleStatement.readable {n : Node} (h : LegibleStatement n) : n.ReadableStatement := by
  induction h with
  | expression h => exact h.readsStatement
  | ret h => exact readable_ret h
  | breakLoop => exact readable_breakLoop
  | continueLoop => exact readable_continueLoop
  | ifElse hc _ _ iht ihe => exact readable_ifElse hc iht ihe
  | whileLoop hc _ ih => exact readable_whileLoop hc ih
  | doWhile hc _ ih => exact readable_doWhile hc ih
  | forLoop hinit hc hstep _ ih => exact readable_forLoop hinit hc hstep ih
  | function hname hnameSpace hpackage hargs _ ih => exact readable_function hname hnameSpace hpackage hargs ih

end Node

/-! ### Layout -/

namespace Source

open Grammar

/-- Indentation is white space. -/
theorem solid_place (layout : Layout) (t : String) : solid (layout.place t) = solid [t] := by
  have hindent : isBlank indent = true := by decide
  rw [Layout.place]
  split
  · rw [solid_append]
    simp [solid, hindent]
  · rfl

/-- Indentation is nothing that is read. -/
theorem solid_indented (layout : Layout) (ts : List String) : solid (layout.indented ts) = solid ts := by
  induction ts generalizing layout with
  | nil => rfl
  | cons t ts ih =>
      rw [Layout.indented, solid_append, solid_place, ih, ← solid_append, List.singleton_append]

/-- Empty lines between statements are white space. -/
theorem readable_following {previous : Node} {ns : List Node} (h : ∀ n ∈ ns, n.ReadableStatement) :
    ∃ ts, followingTokens previous ns = .ok ts ∧ ReadsStatements ns (solid ts) := by
  induction ns generalizing previous with
  | nil => exact ⟨[], rfl, readsStatements_nil⟩
  | cons n ns ih =>
      obtain ⟨hn, hns⟩ := List.forall_mem_cons.mp h
      obtain ⟨ts, hts, hreads⟩ := hn
      obtain ⟨us, hus, hreads'⟩ := ih hns
      refine ⟨_, by rw [followingTokens, hts, hus]; rfl, ?_⟩
      have hgap : solid (if standsApart n || standsApart previous then ["\n"] else []) = [] := by
        split
        · decide
        · rfl
      rw [solid_append, solid_append, hgap, List.nil_append]
      exact hreads.cons hreads'

/-- A program of readable statements is read as these statements. -/
theorem readable_program {ns : List Node} (h : ∀ n ∈ ns, n.ReadableStatement) :
    ∃ ts, programTokens ns = .ok ts ∧ ReadsStatements ns (solid ts) := by
  cases ns with
  | nil => exact ⟨[], rfl, readsStatements_nil⟩
  | cons n ns =>
      obtain ⟨hn, hns⟩ := List.forall_mem_cons.mp h
      obtain ⟨ts, hts, hreads⟩ := hn
      obtain ⟨us, hus, hreads'⟩ := readable_following hns
      refine ⟨ts ++ us, by rw [programTokens, hts, hus]; rfl, ?_⟩
      rw [solid_append]
      exact hreads.cons hreads'

/-- **Scripts are read back** from their tokens, white space left out. -/
theorem readScript_program {p : List Node} (h : ∀ n ∈ p, n.LegibleStatement) :
    ∃ ts, program p = .ok ts ∧ readScript (solid ts) = some p := by
  obtain ⟨ts, hts, hreads⟩ := readable_program fun n hn => (h n hn).readable
  refine ⟨({} : Layout).indented ts, by rw [program, hts]; rfl, ?_⟩
  obtain ⟨-, hread⟩ := hreads [] (fun _ ht => nomatch ht)
  rw [List.append_nil] at hread
  rw [solid_indented, readScript, hread]
  rfl

/-- A loop over ammunition, with a chain of choices in it. -/
def turretScript : List Node :=
  [.function ⟨"fire", some "Turret", none, ["%this", "%n"]⟩
    [.loop .forLoop (some (.assign (.var "%i" none) none (.constant (.uint 0))))
      (.binary .less (.var "%i" none) (.var "%n" none))
      (some (.assign (.var "%i" none) (some .add) (.constant (.uint 1))))
      [.ifElse (.compare .equal (.field (some (.var "%this" none)) "ammo"
          (some (.comma (.var "%i" none) (.constant (.uint 1))))) (.constant (.str "")))
        [.continueLoop]
        [.ifElse (.unary .not (.call "isLoaded" none .method [.var "%this" none])) [.breakLoop]
          [.assign (.var "%out" none) none (.concat .space
            (.binary .mul (.var "%n" none) (.binary .sub (.var "%i" none) (.constant (.uint 2))))
            (.call "fire" none .parent [.var "%this" none]))]]],
     .ret (some (.var "%out" none))]]

/-- The script of a turret is legible. -/
theorem legible_turretScript : ∀ n ∈ turretScript, n.LegibleStatement := by
  have hsome : ∀ {P : Node → Prop} {m : Node}, P m → ∀ k ∈ some m, P k := by
    rintro P m h k ⟨⟩
    exact h
  have hvar : ∀ name, isVariable name → (Node.var name none).Legible := fun name h => .var h nofun
  have huint : ∀ v, (Node.constant (.uint v)).Legible := fun v => .constant nofun nofun
  have hthis := hvar "%this" (by decide)
  have hi := hvar "%i" (by decide)
  have hn := hvar "%n" (by decide)
  have hout := hvar "%out" (by decide)
  have hstart : (Node.assign (.var "%i" none) none (.constant (.uint 0))).LegibleValue :=
    ⟨.assign rfl hi (huint 0) (by decide) rfl, by decide⟩
  have hstep : (Node.assign (.var "%i" none) (some .add) (.constant (.uint 1))).LegibleValue :=
    ⟨.compound rfl hi (huint 1) (by decide) rfl, by decide⟩
  have hammo : (Node.field (some (.var "%this" none)) "ammo"
      (some (.comma (.var "%i" none) (.constant (.uint 1))))).Legible :=
    .field hthis (by decide) (hsome (.comma hi (huint 1)))
  have hproduct : (Node.binary .mul (.var "%n" none) (.binary .sub (.var "%i" none)
      (.constant (.uint 2)))).Legible :=
    .binary .mul hn (.binary .sub hi (huint 2) (by decide)) (by decide)
  have hempty : (Node.constant (.str "")).Legible := .constant nofun nofun
  have hparent : (Node.call "fire" none .parent [.var "%this" none]).Legible :=
    .parent (by decide) (List.forall_mem_singleton.mpr hthis) (by decide)
  have hloaded : (Node.call "isLoaded" none .method [.var "%this" none]).Legible :=
    .method hthis (by decide) nofun nofun
  have hassign := Node.LegibleStatement.expression
    ⟨.assign rfl hout (.concat .space hproduct hparent (by decide)) (by decide) rfl, by decide⟩
  have hinner := Node.LegibleStatement.ifElse ⟨.unary .not hloaded, by decide⟩
    (List.forall_mem_singleton.mpr .breakLoop) (List.forall_mem_singleton.mpr hassign)
  have houter := Node.LegibleStatement.ifElse
    ⟨.compare .equal hammo hempty, by decide⟩
    (List.forall_mem_singleton.mpr .continueLoop) (List.forall_mem_singleton.mpr hinner)
  have hloop := Node.LegibleStatement.forLoop (hsome hstart)
    ⟨.binary .less hi hn (by decide), by decide⟩ (hsome hstep)
    (List.forall_mem_singleton.mpr houter)
  refine List.forall_mem_singleton.mpr (.function (by decide) (by decide) rfl (by decide) ?_)
  exact List.forall_mem_cons.mpr ⟨hloop, List.forall_mem_singleton.mpr
    (.ret (hsome ⟨hout, by decide⟩))⟩

/-- It is read back from its text. -/
theorem readScript_turretScript :
    ∃ ts, program turretScript = .ok ts ∧ readScript (solid ts) = some turretScript :=
  readScript_program legible_turretScript

end Source

end TorqueScript
