import TorqueScript.Proofs.Stages

/-!
# Texts piece by piece

The tokens of a node are put together from fixed tokens, from names and literals, and from the tokens of
the nodes that are written in it (`Node.written`).  A property of texts that is kept by the ways to put
them together therefore holds of everything that is printed.  `Piecewise` lists these ways: texts one after
the other, single tokens, statements between braces, and a minus sign in front of its operand.

A property may also say that something occurs in the tree exactly if something is seen in the text.  So it is
stated of a text together with a proposition; for the tokens of a node this says that a negation of some
kind is written in the node (`Node.HasNegation`).

* `literal_cases`: how a literal begins.
-/

namespace TorqueScript

namespace Node

/-! ### What is written in a node -/

/-- The names in a node of identifiers, variables, fields, functions and name spaces. -/
def names : Node → List String
  | constant (.ident s) => [s]
  | var name _ | field _ name _ => [name]
  | call name nameSpace _ _ => name :: nameSpace.toList
  | function s _ => s.name :: s.nameSpace.toList
  | _ => []

/-- The other names in a node: of parameters, of packages, and of what an object takes after. -/
def labels : Node → List String
  | function s _ => s.args
  | object _ _ parent _ _ _ _ _ => parent.toList
  | package name _ => [name]
  | _ => []

/-- The nodes whose tokens the text of a node is put together from.  The value of a plain assignment may be
written as its operands only, and only a `for` loop writes a first part and a step. -/
def written : Node → List Node
  | loop .whileLoop _ condition _ body | loop .doWhile _ condition _ body => condition :: body
  | assign target none (binary _ left right) => [target, left, right]
  | n => n.children

/-- The names and the labels in the node, and everywhere below it, have the properties. -/
def Named (W L : String → Prop) (n : Node) : Prop :=
  ∀ m ∈ n.subnodes, (∀ s ∈ m.names, W s) ∧ ∀ s ∈ m.labels, L s

instance {W L : String → Prop} [DecidablePred W] [DecidablePred L] : DecidablePred (Named W L) := fun n =>
  inferInstanceAs (Decidable (∀ m ∈ n.subnodes, (∀ s ∈ m.names, W s) ∧ ∀ s ∈ m.labels, L s))

/-- A negation of an operand with the property is written in the node. -/
inductive HasNegation (E : Node → Prop) : Node → Prop where
  | here {operand : Node} (h : E operand) : HasNegation E (unary .neg operand)
  | inside {n c : Node} (hc : c ∈ n.written) (h : HasNegation E c) : HasNegation E n

variable {E : Node → Prop} {n c : Node}

/-- A node has a negation if it is one or if a part that is written has one. -/
theorem hasNegation_iff : n.HasNegation E ↔
    (∃ operand, n = unary .neg operand ∧ E operand) ∨ ∃ c ∈ n.written, c.HasNegation E := by
  constructor
  · intro h
    cases h with
    | here h => exact .inl ⟨_, rfl, h⟩
    | inside hc h => exact .inr ⟨_, hc, h⟩
  · rintro (⟨_, rfl, h⟩ | ⟨_, hc, h⟩)
    · exact .here h
    · exact .inside hc h

@[simp] theorem not_hasNegation_constant (c : Constant) : ¬ (constant c).HasNegation E := by
  intro h
  cases h with
  | inside hc _ => nomatch hc

/-- What is written in a node is smaller than the node, and has no nodes that the node does not have. -/
theorem below_of_mem_written (h : c ∈ n.written) :
    sizeOf c < sizeOf n ∧ ∀ m ∈ c.subnodes, m ∈ n.subnodes := by
  have hchild : ∀ {n c : Node}, c ∈ n.children →
      sizeOf c < sizeOf n ∧ ∀ m ∈ c.subnodes, m ∈ n.subnodes :=
    fun h => ⟨sizeOf_lt_of_mem_children h, fun m hm => mem_subnodes.mpr (.inr ⟨_, h, hm⟩)⟩
  unfold written at h
  split at h
  · exact hchild (by simp only [children, List.mem_append, List.mem_cons] at h ⊢; tauto)
  · exact hchild (by simp only [children, List.mem_append, List.mem_cons] at h ⊢; tauto)
  · next target op left right =>
      have hvalue : binary op left right ∈ (assign target none (binary op left right)).children := by
        simp [children]
      rcases List.mem_cons.mp h with rfl | h
      · exact hchild (by simp [children])
      · have hoperand : c ∈ (binary op left right).children := h
        exact ⟨(hchild hoperand).1.trans (hchild hvalue).1,
          fun m hm => (hchild hvalue).2 m ((hchild hoperand).2 m hm)⟩
  · exact hchild h

/-- Only the value of a plain assignment may be written as its operands. -/
theorem written_assign {target value : Node} {op : Option BinaryOp}
    (h : ¬ (op = none ∧ ∃ op l r, value = binary op l r)) : written (assign target op value) = [target, value] := by
  unfold written
  split
  · contradiction
  · contradiction
  · next heq => cases heq; exact absurd ⟨rfl, _, _, _, rfl⟩ h
  · rfl

/-- The names of a written part are among those of the node. -/
theorem Named.of_written {W L : String → Prop} (hn : n.Named W L) (hc : c ∈ n.written) : c.Named W L :=
  fun m hm => hn m ((below_of_mem_written hc).2 m hm)

/-- What holds of a node if it holds of what is written in it holds of all nodes. -/
theorem writtenInduction {P : Node → Prop} (h : ∀ n, (∀ c ∈ n.written, P c) → P n) (n : Node) : P n :=
  h n fun c _ => writtenInduction h c
  termination_by sizeOf n
  decreasing_by exact (below_of_mem_written ‹_›).1

end Node

/-! ### What computations give -/

/-- What the computation gives, if it gives anything, has the property. -/
def Gives {α : Type} (P : α → Prop) (x : Except Error α) : Prop :=
  ∀ a, x = .ok a → P a

namespace Gives

variable {α β : Type} {P : α → Prop} {Q : β → Prop} {x : Except Error α} {f : α → Except Error β}

theorem pure {a : α} (h : P a) : Gives P (Pure.pure a) := by
  rintro _ ⟨⟩
  exact h

/-- What each part gives holds of the sequence. -/
theorem bind (hx : Gives P x) (hf : ∀ a, P a → Gives Q (f a)) : Gives Q (x >>= f) := by
  intro b hb
  obtain ⟨a, ha, hb⟩ := bind_eq_ok_iff.mp hb
  exact hf a (hx a ha) b hb

/-- What comes first does not matter. -/
theorem after (hf : ∀ a, Gives Q (f a)) : Gives Q (x >>= f) :=
  bind (P := fun _ => True) (fun _ _ => trivial) fun a _ => hf a

end Gives

namespace Source

open Node

/-! ### Literals -/

/-- The text of a decimal begins with a digit. -/
theorem positional_head (d : Decimal) : ∃ c cs, (d.positional "").toList = c :: cs ∧ c.isDigit := by
  have hdigits : ∃ c cs, d.digitChars = c :: cs ∧ c.isDigit := by
    cases h : d.digitChars with
    | nil => exact absurd h Nat.toDigits_ne_nil
    | cons c cs =>
        have hc : c ∈ d.digitChars := h ▸ List.mem_cons_self
        exact ⟨c, cs, rfl, Nat.isDigit_of_mem_toDigits (by decide) (by decide) hc⟩
  obtain ⟨c, cs, h, hc⟩ := hdigits
  rw [Decimal.positional, h]
  split_ifs
  · exact ⟨c, _, by simp; rfl, hc⟩
  · exact ⟨c, _, by simp; rfl, hc⟩
  · exact ⟨'0', _, by simp; rfl, rfl⟩

/-- A number with a literal is finite, and its literal is its text. -/
theorem literal_float {x : Binary64} {t : String} (h : literal (.float x) = .ok t) :
    x.isFinite ∧ x.isNaN = false ∧ t = x.sourceText := by
  rw [literal] at h
  split at h
  · next hfinite =>
      cases h
      refine ⟨hfinite, ?_, rfl⟩
      simp only [Binary64.isFinite, bne_iff_ne] at hfinite
      simp [Binary64.isNaN, hfinite]
  · cases h

/-- How a literal begins: with a quote or a digit, or else it is a number with a sign. -/
theorem literal_cases {c : Constant} {t : String} (hc : ∀ s, c ≠ .ident s) (h : literal c = .ok t) :
    (∃ x, c = .float x ∧ x.isNegative ∧ ∃ d ds, t.toList = '-' :: d :: ds) ∨
    (∀ x, c = .float x → x.isNegative = false) ∧ ∃ d ds, t.toList = d :: ds ∧
      (d.isDigit ∨ d = '"' ∨ d = '\'') := by
  cases c with
  | ident s => exact absurd rfl (hc s)
  | uint v =>
      cases h
      refine .inr ⟨nofun, ?_⟩
      have hlist : (toString v.toNat).toList = Nat.toDigits 10 v.toNat := Nat.toList_repr
      rw [hlist]
      cases hdigits : Nat.toDigits 10 v.toNat with
      | nil => exact absurd hdigits Nat.toDigits_ne_nil
      | cons d ds =>
          have hd : d ∈ Nat.toDigits 10 v.toNat := hdigits ▸ List.mem_cons_self
          exact ⟨d, ds, rfl, .inl (Nat.isDigit_of_mem_toDigits (by decide) (by decide) hd)⟩
  | str s =>
      cases h
      exact .inr ⟨nofun, '"', _, String.toList_ofList, .inr (.inl rfl)⟩
  | tagged s =>
      cases h
      exact .inr ⟨nofun, '\'', _, String.toList_ofList, .inr (.inr rfl)⟩
  | float x =>
      obtain ⟨hfinite, hnumber, rfl⟩ := literal_float h
      obtain ⟨d, ds, hpositional, hd⟩ := positional_head (Decimal.shortest .away x)
      rw [Binary64.sourceText, hnumber, hfinite]
      cases hsign : x.isNegative with
      | true => exact .inl ⟨x, rfl, hsign, d, ds, by simp [hpositional]⟩
      | false =>
          exact .inr ⟨fun _ hx => by cases hx; exact hsign, d, ds, by simp [hpositional], .inl hd⟩

/-- The tokens that a text is not made of like the others. -/
def special : List String := ["-", openBrace, closeBrace, indent]

/-- A literal that is no name is an ordinary text. -/
theorem literal_not_special {c : Constant} {t : String} (hc : ∀ s, c ≠ .ident s) (h : literal c = .ok t) :
    t ∉ special := by
  intro ht
  simp only [special, openBrace, closeBrace, indent, List.mem_cons, List.not_mem_nil, or_false] at ht
  rcases literal_cases hc h with ⟨x, -, -, d, ds, hlist⟩ | ⟨-, d, ds, hlist, hd⟩
  · rcases ht with rfl | rfl | rfl | rfl <;> exact absurd hlist (by simp)
  · rcases ht with rfl | rfl | rfl | rfl <;>
      · obtain ⟨rfl, -⟩ := List.cons.inj hlist.symm
        revert hd
        decide

/-- A name is an ordinary text. -/
theorem isName_not_special {s : String} (h : isName s) : s ∉ special := by
  intro hs
  simp only [special, List.mem_cons, List.not_mem_nil, or_false] at hs
  rcases hs with rfl | rfl | rfl | rfl <;> exact absurd h (by decide)

/-! ### Properties of texts -/

/-- A property of texts that is kept by the ways to put tokens together.  It is told of a text together with
a proposition, which for the tokens of a node says that a negation of the kind `E` is written in it.  `W` says
what names there are, and `L` what labels; a label stands in front of a comma, a parenthesis or a line end. -/
structure Piecewise (W L : String → Prop) (E : Node → Prop) (R : Prop → List String → Prop) : Prop where
  nil : R False []
  append {F G : Prop} {ts us : List String} : R F ts → R G us → R (F ∨ G) (ts ++ us)
  token {t : String} : t ∉ special → R False [t]
  minus : R False [" ", "-", " "]
  name {s : String} : W s → R False [s]
  label {s t : String} {F : Prop} {ts : List String} :
    L s → t ∈ [",", ")", "\n"] → R F (t :: ts) → R F (s :: t :: ts)
  negation {n : Node} {ts : List String} : n.Named W L → n.tokens .expression = .ok ts →
    R (n.HasNegation E) ts → R (E n ∨ n.HasNegation E) ("-" :: parens (wrapsOperand .neg n) ts)
  braces {F : Prop} {ts : List String} : R F ts → R F (openBrace :: "\n" :: (ts ++ [closeBrace]))

namespace Piecewise

variable {W L : String → Prop} {E : Node → Prop} {R : Prop → List String → Prop} (h : Piecewise W L E R)
  {F G H : Prop} {t : String} {ts us l r : List String}

include h

/-- Ordinary texts are pieces without a negation. -/
theorem tokens_of (hts : ∀ t ∈ ts, t ∉ special) : R False ts := by
  induction ts with
  | nil => exact h.nil
  | cons t ts ih =>
      obtain ⟨ht, hts⟩ := List.forall_mem_cons.mp hts
      simpa using h.append (h.token ht) (ih hts)

theorem front {a : List String} (ha : ∀ t ∈ a, t ∉ special) (hts : R F ts) : R F (a ++ ts) := by
  simpa using h.append (h.tokens_of ha) hts

theorem back {a : List String} (hts : R F ts) (ha : ∀ t ∈ a, t ∉ special) : R F (ts ++ a) := by
  simpa using h.append hts (h.tokens_of ha)

theorem cons (ht : t ∉ special) (hts : R F ts) : R F (t :: ts) :=
  h.front (a := [t]) (by simpa using ht) hts

/-- Parentheses neither add a negation nor take one away. -/
theorem parens (wrap : Bool) (hts : R F ts) : R F (Source.parens wrap ts) := by
  cases wrap with
  | false => exact hts
  | true => exact h.back (h.cons (by decide) hts) (by decide)

/-- Nor does the block of a body. -/
theorem block (hts : R F ts) : R F (Source.block ts) := by
  have hblock := h.back (a := ["\n"]) (h.braces hts) (by decide)
  simpa [Source.block] using hblock

theorem value (pos : Position) (hts : R F ts) : R F (pos.value ts) := by
  cases pos with
  | statement => exact h.back hts (by decide)
  | expression => exact hts

/-- Two parts with an operator between have a negation if one of them does. -/
theorem infixed {op : String} (hl : R F l) (hop : R False [" ", op, " "]) (hr : R G r) :
    R (F ∨ G) (Source.infixed l op r) := by
  have hfront : R F (l ++ [" ", op, " "]) := by simpa using h.append hl hop
  exact h.append hfront hr

theorem infixTokens (m left right : Node) {op : String} (hop : R False [" ", op, " "]) (hl : R F l) (hr : R G r) :
    R (F ∨ G) (Source.infixTokens m left right op l r) :=
  h.infixed (h.parens _ hl) hop (h.parens _ hr)

theorem between {op : String} (hop : op ∉ special) : R False [" ", op, " "] :=
  h.tokens_of (by simpa using ⟨by decide, hop, by decide⟩)

theorem binary (op : BinaryOp) : R False [" ", op.token, " "] := by
  cases op with
  | sub => exact h.minus
  | _ => exact h.between (by decide)

end Piecewise

end Source

end TorqueScript
