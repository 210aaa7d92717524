import TorqueScript.Source.Literal
import Mathlib.Data.List.Basic

/-!
# Words of the language

What can be told of a token by looking at it alone.  A token that stands at the beginning of an
expression is a parenthesis, an operator in front of its operand, a literal, a variable, or the name of
a function; `opener?` says which, and reads the literals.

Each of these is known by its first character: a quote, a digit, the sign of a variable, a letter.
Names must not be keywords.  `Parent`, which calls the function that a package has replaced, counts as
one of them, and so do the words that join strings.

* `opener?_literal`: a literal is read back from how it is written.  For text between quotes that is
  `unquote_quoted`, character by character.
* `not_isBlank_of_opener?`: none of these tokens is white space.
-/

namespace TorqueScript

namespace Grammar

open Source

/-! ### Names -/

/-- The words with a meaning of their own. -/
def keywords : List String :=
  ["return", "break", "continue", "if", "else", "while", "for", "do", "function", "package", "new",
    "datablock", "Parent", "SPC", "TAB", "NL"]

/-- The name of a function, a method, a field or a name space. -/
def isIdentifier (s : String) : Bool :=
  isName s && !keywords.contains s

/-- The sign that a variable begins with: `%` if it is local, `$` if it is global. -/
def isSigil (c : Char) : Bool :=
  c == '%' || c == '$'

/-- The name of a variable, with its sign. -/
def isVariable (s : String) : Bool :=
  match s.toList with
  | [] => false
  | c :: cs => isSigil c && !cs.isEmpty && cs.all fun c => isNamePart c || c == ':'

/-- A token of nothing but white space. -/
def isBlank (t : String) : Bool :=
  t.toList.all Char.isWhitespace

/-- An identifier starts as a name may. -/
theorem isIdentifier.exists_cons {s : String} (h : isIdentifier s) :
    ∃ c cs, s.toList = c :: cs ∧ isNameStart c := by
  rw [isIdentifier, isName, Bool.and_eq_true] at h
  cases hs : s.toList with
  | nil => simp [hs] at h
  | cons c cs => exact ⟨c, cs, rfl, by simp_all⟩

/-- A variable starts with its sigil. -/
theorem isVariable.exists_cons {s : String} (h : isVariable s) :
    ∃ c cs, s.toList = c :: cs ∧ isSigil c := by
  rw [isVariable] at h
  cases hs : s.toList with
  | nil => simp [hs] at h
  | cons c cs => exact ⟨c, cs, rfl, by simp_all⟩

/-! ### Text between quotes -/

/-- The value of a hexadecimal digit. -/
def unhex? (c : Char) : Option Nat :=
  (List.range 16).find? (Text.hexDigit · == c)

/-- The character that is written behind a backslash. -/
def unescape (c : Char) : Char :=
  if c = 'n' then '\n' else if c = 'r' then '\r' else if c = 't' then '\t' else c

/-- Reads text up to the quote that ends it, which must be the last character. -/
def unquote (quote : Char) : List Char → Option (List Char)
  | [] => none
  | '\\' :: 'x' :: high :: low :: cs => do
    let h ← unhex? high
    let l ← unhex? low
    (Char.ofNat (16 * h + l) :: ·) <$> unquote quote cs
  | '\\' :: c :: cs => (unescape c :: ·) <$> unquote quote cs
  | c :: cs =>
    if c = quote then if cs.isEmpty then some [] else none
    else (c :: ·) <$> unquote quote cs

theorem unhex?_hexDigit {n : Nat} (h : n < 16) : unhex? (Text.hexDigit n) = some n := by
  have : ∀ n : Fin 16, unhex? (Text.hexDigit n) = some n.val := by decide
  exact this ⟨n, h⟩

/-- A pair of hexadecimal digits stands for its character. -/
theorem unquote_hexPair (quote : Char) {c : Char} (hc : c.toNat < 256) (cs : List Char) :
    unquote quote ('\\' :: 'x' :: (Text.hexPair c.toNat ++ cs)) = (c :: ·) <$> unquote quote cs := by
  have hpair : 16 * (c.toNat / 16 % 16) + c.toNat % 16 = c.toNat := by omega
  rw [Text.hexPair, List.cons_append, List.cons_append, List.nil_append, unquote,
    unhex?_hexDigit (Nat.mod_lt _ (by decide)), unhex?_hexDigit (Nat.mod_lt _ (by decide))]
  simp only [Option.bind_eq_bind, Option.bind_some, hpair, Char.ofNat_toNat]

/-- A character behind the escape stands for what it escapes. -/
theorem unquote_escape (quote : Char) {c : Char} (hc : c ≠ 'x') (cs : List Char) :
    unquote quote ('\\' :: c :: cs) = (unescape c :: ·) <$> unquote quote cs := by
  rw [unquote]
  rintro _ _ _ rfl
  exact absurd rfl hc

/-- Any other character stands for itself. -/
theorem unquote_bare {quote c : Char} (hescape : c ≠ '\\') (hquote : c ≠ quote) (cs : List Char) :
    unquote quote (c :: cs) = (c :: ·) <$> unquote quote cs := by
  rw [unquote, if_neg hquote]
  · rintro _ _ _ rfl
    exact absurd rfl hescape
  · rintro _ _ rfl
    exact absurd rfl hescape

/-- One character of a literal is read back. -/
theorem unquote_escapeChar {quote : Char} (hquote : quote ≠ 'x' ∧ unescape quote = quote) (c : Char)
    (cs : List Char) : unquote quote (escapeChar quote c ++ cs) = (c :: ·) <$> unquote quote cs := by
  unfold escapeChar
  split_ifs with h₁ h₂ h₃ h₄ h₅ h₆
  · subst h₁
    exact unquote_escape quote (by decide) cs
  · subst h₂
    exact unquote_escape quote (by decide) cs
  · subst h₃
    exact unquote_escape quote (by decide) cs
  · subst h₄
    exact unquote_escape quote (by decide) cs
  · subst h₅
    rw [List.cons_append, List.singleton_append, unquote_escape c hquote.1, hquote.2]
  · refine unquote_hexPair quote ?_ cs
    simp only [Bool.or_eq_true, Bool.and_eq_true, decide_eq_true_eq] at h₆
    omega
  · exact unquote_bare h₁ h₅ cs

/-- Text between quotes is read back. -/
theorem unquote_quoted (quote : Char) (hquote : quote ≠ 'x' ∧ unescape quote = quote)
    (hescape : quote ≠ '\\') (cs : List Char) :
    unquote quote (cs.flatMap (escapeChar quote) ++ [quote]) = some cs := by
  induction cs with
  | nil =>
      rw [List.flatMap_nil, List.nil_append, unquote, if_pos rfl]
      · rfl
      · exact fun _ _ _ h _ => hescape h
      · exact fun _ _ h _ => hescape h
  | cons c cs ih => rw [List.flatMap_cons, List.append_assoc, unquote_escapeChar hquote, ih]; rfl

/-! ### Tokens at the beginning of an expression -/

/-- What a token begins. -/
inductive Opener where
  | group
  | unary (op : UnaryOp)
  | constant (value : Constant)
  | var
  | name
  | parent
  deriving DecidableEq, Repr

/-- What a token begins where an expression begins, if it can stand there. -/
def opener? (t : String) : Option Opener :=
  match t.toList with
  | [] => none
  | c :: cs =>
    if c = '"' then (unquote c cs).map fun s => .constant (.str (String.ofList s))
    else if c = '\'' then (unquote c cs).map fun s => .constant (.tagged (String.ofList s))
    else if c.isDigit then
      let v := Nat.ofDigitChars 10 (c :: cs) 0
      if cs.all Char.isDigit && v < UInt32.size then some (.constant (.uint (.ofNat v))) else none
    else if isVariable t then some .var
    else if isIdentifier t then some .name
    else if t = "Parent" then some .parent
    else if t = "(" then some .group
    else (UnaryOp.all.find? (·.token == t)).map .unary

theorem opener?_group : opener? "(" = some .group := by decide

theorem opener?_parent : opener? "Parent" = some .parent := by decide

theorem opener?_unary (op : UnaryOp) : opener? op.token = some (.unary op) := by
  cases op <;> decide

/-- The signs of variables are told from the beginnings of literals. -/
theorem not_isDigit_of_isSigil {c : Char} (h : isSigil c) : c ≠ '"' ∧ c ≠ '\'' ∧ c.isDigit = false := by
  rw [isSigil, Bool.or_eq_true, beq_iff_eq, beq_iff_eq] at h
  rcases h with rfl | rfl
  · decide
  · decide

/-- So are letters. -/
theorem not_isDigit_of_isNameStart {c : Char} (h : isNameStart c) :
    c ≠ '"' ∧ c ≠ '\'' ∧ c.isDigit = false ∧ isSigil c = false := by
  refine ⟨?_, ?_, ?_, ?_⟩
  · rintro rfl
    revert h
    decide
  · rintro rfl
    revert h
    decide
  · rw [isNameStart, Bool.or_eq_true, beq_iff_eq] at h
    rcases h with h | rfl
    · have hletter : 65 ≤ c.toNat := by
        rcases Bool.or_eq_true_iff.mp h with hupper | hlower
        · exact UInt32.le_iff_toNat_le.mp (of_decide_eq_true hupper).1
        · have hle : 97 ≤ c.toNat :=
            UInt32.le_iff_toNat_le.mp (of_decide_eq_true (Bool.and_eq_true_iff.mp hlower).1)
          omega
      refine Bool.eq_false_iff.mpr fun hdigit => ?_
      have hrange : c.toNat ≤ 57 := (Char.isDigit_iff_toNat.mp hdigit).2
      omega
    · decide
  · rw [isSigil, Bool.or_eq_false_iff, beq_eq_false_iff_ne, beq_eq_false_iff_ne]
    constructor
    · rintro rfl
      revert h
      decide
    · rintro rfl
      revert h
      decide

theorem opener?_variable {s : String} (h : isVariable s) : opener? s = some .var := by
  obtain ⟨c, cs, hs, hc⟩ := isVariable.exists_cons h
  obtain ⟨hdouble, hsingle, hdigit⟩ := not_isDigit_of_isSigil hc
  simp [opener?, hs, hdouble, hsingle, hdigit, h]

theorem opener?_identifier {s : String} (h : isIdentifier s) : opener? s = some .name := by
  obtain ⟨c, cs, hs, hc⟩ := isIdentifier.exists_cons h
  obtain ⟨hdouble, hsingle, hdigit, hsigil⟩ := not_isDigit_of_isNameStart hc
  have hvar : isVariable s = false := by simp [isVariable, hs, hsigil]
  simp [opener?, hs, hdouble, hsingle, hdigit, hvar, h]

/-- A number opens a constant. -/
theorem opener?_uint (v : UInt32) : opener? (toString v.toNat) = some (.constant (.uint v)) := by
  have hlist : (toString v.toNat).toList = Nat.toDigits 10 v.toNat := Nat.toList_repr
  have hdigits : ∀ c ∈ Nat.toDigits 10 v.toNat, c.isDigit := fun c hc =>
    Nat.isDigit_of_mem_toDigits (by decide) (by decide) hc
  have hvalue : Nat.ofDigitChars 10 (Nat.toDigits 10 v.toNat) 0 = v.toNat := Nat.ofDigitChars_ten_toDigits
  rw [opener?, hlist]
  cases hcs : Nat.toDigits 10 v.toNat with
  | nil => exact absurd hcs Nat.toDigits_ne_nil
  | cons c cs =>
      rw [hcs] at hdigits hvalue
      obtain ⟨hc, htail⟩ := List.forall_mem_cons.mp hdigits
      have hdouble : c ≠ '"' := by rintro rfl; revert hc; decide
      have hsingle : c ≠ '\'' := by rintro rfl; revert hc; decide
      have hall : cs.all Char.isDigit = true := List.all_eq_true.mpr htail
      simp only [hdouble, hsingle, hc, hall, hvalue, if_false, if_true, Bool.true_and, v.toNat_lt_size,
        decide_true, UInt32.ofNat_toNat]

/-- **Literals** of whole numbers and of text are read back. -/
theorem opener?_literal {c : Constant} (h : ∀ x, c ≠ .float x) (h' : ∀ s, c ≠ .ident s) :
    ∃ t, literal c = .ok t ∧ opener? t = some (.constant c) := by
  cases c with
  | uint v => exact ⟨_, rfl, opener?_uint v⟩
  | float x => exact absurd rfl (h x)
  | str s =>
      refine ⟨_, rfl, ?_⟩
      rw [opener?, quoted, String.toList_ofList]
      simp only [if_true, unquote_quoted '"' (by decide) (by decide)]
      simp
  | ident s => exact absurd rfl (h' s)
  | tagged s =>
      refine ⟨_, rfl, ?_⟩
      rw [opener?, quoted, String.toList_ofList]
      simp only [unquote_quoted '\'' (by decide) (by decide)]
      simp

/-! ### White space -/

/-- Characters of a kind to which no white space belongs. -/
theorem not_isWhitespace {P : Char → Bool}
    (hP : P ' ' = false ∧ P '\t' = false ∧ P '\r' = false ∧ P '\n' = false) {c : Char} (h : P c = true) :
    c.isWhitespace = false := by
  rw [Bool.eq_false_iff]
  intro hc
  have hcases : c = ' ' ∨ c = '\t' ∨ c = '\r' ∨ c = '\n' := by simpa [Char.isWhitespace, or_assoc] using hc
  rcases hcases with rfl | rfl | rfl | rfl
  · exact absurd h (by simp [hP])
  · exact absurd h (by simp [hP])
  · exact absurd h (by simp [hP])
  · exact absurd h (by simp [hP])

theorem not_isBlank_of_opener? {t : String} {o : Opener} (h : opener? t = some o) : isBlank t = false := by
  cases hs : t.toList with
  | nil => rw [opener?, hs] at h; cases h
  | cons c cs =>
      -- it is enough to know the first character
      by_cases hc : c.isWhitespace = false
      · simp [isBlank, hs, hc]
      rw [opener?, hs] at h
      dsimp only at h
      have hdouble : c ≠ '"' := by rintro rfl; exact hc (by decide)
      have hsingle : c ≠ '\'' := by rintro rfl; exact hc (by decide)
      have hdigit : ¬ c.isDigit := fun h => hc (not_isWhitespace (by decide) h)
      have hvar : ¬ isVariable t := by
        intro hvar
        obtain ⟨c', cs', hs', hc'⟩ := isVariable.exists_cons hvar
        obtain ⟨rfl, -⟩ := List.cons.inj (hs.symm.trans hs')
        exact hc (not_isWhitespace (by decide) hc')
      have hname : ¬ isIdentifier t := by
        intro hname
        obtain ⟨c', cs', hs', hc'⟩ := isIdentifier.exists_cons hname
        obtain ⟨rfl, -⟩ := List.cons.inj (hs.symm.trans hs')
        exact hc (not_isWhitespace (by decide) hc')
      rw [if_neg hdouble, if_neg hsingle, if_neg hdigit, if_neg hvar, if_neg hname] at h
      by_cases hparent : t = "Parent"
      · subst hparent
        decide
      rw [if_neg hparent] at h
      by_cases hgroup : t = "("
      · subst hgroup
        decide
      rw [if_neg hgroup] at h
      obtain ⟨op, hop, -⟩ := Option.map_eq_some_iff.mp h
      obtain rfl : op.token = t := by simpa using List.find?_some hop
      cases op <;> decide

end Grammar

end TorqueScript
