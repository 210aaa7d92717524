import TorqueScript.Proofs.Words

/-!
# Text between quotes

A literal is read character by character, and where it ends is known only when its closing quote is
reached: a quote behind a backslash does not end it, a backslash behind a backslash escapes nothing, and
two hexadecimal digits may be followed by more digits that stand for themselves.  Every character is
written so that none of this depends on its neighbours.

* `readLiteral`: the text of a literal, and what stands behind it.
* `Spells`: the ways to write a character.  Each of them is read as this character, whatever follows
  (`Spells.readText_append`), and holds no quote that would end the literal (`Spells.underEscapes_append`).

**Literals** (`quoted_literal`).  A literal is read back as its text and ends at its last character.  This is
the only quote behind the first one that is not escaped, and all characters are printable or above the first
256.  So literals of different texts differ.
-/

namespace TorqueScript

namespace Grammar

open Source

/-! ### Reading -/

/-- The character that is written as a backslash and another character. -/
def unescape? (quote c : Char) : Option Char :=
  if c = '\\' then some '\\'
  else if c = 'n' then some '\n'
  else if c = 'r' then some '\r'
  else if c = 't' then some '\t'
  else if c = quote then some quote
  else none

/-- Reads text up to the quote that ends it; also gives what stands behind that quote. -/
def readText (quote : Char) : List Char → Option (List Char × List Char)
  | [] => none
  | '\\' :: 'x' :: high :: low :: cs => do
    let h ← unhex? high
    let l ← unhex? low
    let (text, rest) ← readText quote cs
    pure (Char.ofNat (16 * h + l) :: text, rest)
  | '\\' :: c :: cs => do
    let c ← unescape? quote c
    let (text, rest) ← readText quote cs
    pure (c :: text, rest)
  | c :: cs =>
    if c = quote then some ([], cs)
    else if c = '\\' then none
    else do
      let (text, rest) ← readText quote cs
      pure (c :: text, rest)

/-- Reads a literal between two quotes; also gives what stands behind it. -/
def readLiteral (quote : Char) : List Char → Option (List Char × List Char)
  | [] => none
  | c :: cs => if c = quote then readText quote cs else none

/-- The characters of a text, each with whether a backslash escapes it; the first one is escaped or not. -/
def underEscapes : Bool → List Char → List (Char × Bool)
  | _, [] => []
  | escaped, c :: cs => (c, escaped) :: underEscapes (!escaped && decide (c = '\\')) cs

/-- The two characters that literals stand between. -/
def IsQuote (quote : Char) : Prop :=
  quote = '"' ∨ quote = '\''

/-- Neither a control character nor one of the upper half of the first 256 characters. -/
def IsPlain (c : Char) : Prop :=
  32 ≤ c.toNat ∧ (c.toNat < 127 ∨ 256 ≤ c.toNat)

instance (c : Char) : Decidable (IsPlain c) :=
  inferInstanceAs (Decidable (_ ∧ _))

variable {quote c d : Char} {text : List Char}

/-- Quotes are told from backslashes and from digits. -/
theorem IsQuote.bounds (h : IsQuote quote) : quote ≠ '\\' ∧ 32 ≤ quote.toNat ∧ quote.toNat < 48 := by
  rcases h with rfl | rfl
  · decide
  · decide

/-- An escaped quote stands for itself. -/
theorem IsQuote.unescape?_self (h : IsQuote quote) : unescape? quote quote = some quote := by
  rcases h with rfl | rfl
  · decide
  · decide

theorem IsQuote.isPlain (h : IsQuote quote) : IsPlain quote :=
  ⟨h.bounds.2.1, .inl (Nat.lt_trans h.bounds.2.2 (by decide))⟩

theorem hexDigit_bounds {n : Nat} (h : n < 16) :
    48 ≤ (Text.hexDigit n).toNat ∧ IsPlain (Text.hexDigit n) ∧ Text.hexDigit n ≠ '\\' := by
  have hall : ∀ n : Fin 16, 48 ≤ (Text.hexDigit n).toNat ∧ IsPlain (Text.hexDigit n) ∧
      Text.hexDigit n ≠ '\\' := by decide
  exact hall ⟨n, h⟩

theorem IsQuote.ne_hexDigit (h : IsQuote quote) {n : Nat} (hn : n < 16) : Text.hexDigit n ≠ quote := by
  rintro rfl
  exact absurd h.bounds.2.2 (Nat.not_lt.mpr (hexDigit_bounds hn).1)

/-! ### Characters of a literal -/

/-- The ways to write a character between two quotes. -/
inductive Spells (quote c : Char) : List Char → Prop where
  | short {d : Char} (value : unescape? quote d = some c) (ne : d ≠ 'x') (plain : IsPlain d) :
      Spells quote c ['\\', d]
  | hex (lt : c.toNat < 256) : Spells quote c ('\\' :: 'x' :: Text.hexPair c.toNat)
  | bare (ne : c ≠ '\\') (ne' : c ≠ quote) (plain : IsPlain c) : Spells quote c [c]

/-- **Every character is spelled as itself or by an escape**, and read back. -/
theorem spells_escapeChar (h : IsQuote quote) (c : Char) : Spells quote c (escapeChar quote c) := by
  unfold escapeChar
  split_ifs with h₁ h₂ h₃ h₄ h₅ h₆
  · subst h₁
    exact .short rfl (by decide) (by decide)
  · subst h₂
    exact .short rfl (by decide) (by decide)
  · subst h₃
    exact .short rfl (by decide) (by decide)
  · subst h₄
    exact .short rfl (by decide) (by decide)
  · subst h₅
    exact .short h.unescape?_self (by rintro rfl; exact absurd h.bounds.2.2 (by decide)) h.isPlain
  · simp only [Bool.or_eq_true, Bool.and_eq_true, decide_eq_true_eq] at h₆
    exact .hex (by omega)
  · simp only [Bool.or_eq_true, Bool.and_eq_true, decide_eq_true_eq, not_or, not_and] at h₆
    exact .bare h₁ h₅ ⟨by omega, by omega⟩

/-- The text ends at the first quote. -/
theorem readText_quote (h : IsQuote quote) (rest : List Char) :
    readText quote (quote :: rest) = some ([], rest) := by
  rw [readText, if_pos rfl]
  · rintro _ _ _ rfl
    exact absurd rfl h.bounds.1
  · rintro _ _ rfl
    exact absurd rfl h.bounds.1

/-- A character is read back, whatever follows it. -/
theorem Spells.readText_append (h : Spells quote c text) (cs : List Char) :
    readText quote (text ++ cs) = (readText quote cs).map fun p => (c :: p.1, p.2) := by
  cases h with
  | @short d hvalue hne _ =>
      rw [List.cons_append, List.singleton_append, readText, hvalue]
      · cases readText quote cs <;> rfl
      · rintro _ _ _ rfl
        exact absurd rfl hne
  | hex hlt =>
      have hpair : 16 * (c.toNat / 16 % 16) + c.toNat % 16 = c.toNat := by omega
      rw [Text.hexPair, List.cons_append, List.cons_append, List.cons_append, List.cons_append,
        List.nil_append, readText, unhex?_hexDigit (Nat.mod_lt _ (by decide)),
        unhex?_hexDigit (Nat.mod_lt _ (by decide))]
      simp only [Option.bind_eq_bind, Option.bind_some, hpair, Char.ofNat_toNat]
      cases readText quote cs <;> rfl
  | bare hescape hquote _ =>
      rw [List.singleton_append, readText, if_neg hquote, if_neg hescape]
      · cases readText quote cs <;> rfl
      · rintro _ _ _ rfl
        exact absurd rfl hescape
      · rintro _ _ rfl
        exact absurd rfl hescape

/-- No quote of a character is bare, and nothing behind it is escaped. -/
theorem Spells.underEscapes_append (hquote : IsQuote quote) (h : Spells quote c text) (cs : List Char) :
    ∃ front, underEscapes false (text ++ cs) = front ++ underEscapes false cs ∧
      front.length = text.length ∧ (quote, false) ∉ front := by
  have hbackslash := hquote.bounds.1
  cases h with
  | @short d _ _ _ =>
      exact ⟨[('\\', false), (d, true)], by simp [underEscapes], rfl, by simp [hbackslash]⟩
  | hex hlt =>
      have hhigh : c.toNat / 16 % 16 < 16 := Nat.mod_lt _ (by decide)
      have hlow : c.toNat % 16 < 16 := Nat.mod_lt _ (by decide)
      refine ⟨[('\\', false), ('x', true), (Text.hexDigit (c.toNat / 16 % 16), false),
        (Text.hexDigit (c.toNat % 16), false)], ?_, rfl, ?_⟩
      · simp [Text.hexPair, underEscapes, (hexDigit_bounds hhigh).2.2, (hexDigit_bounds hlow).2.2]
      · simp [hbackslash, (hquote.ne_hexDigit hhigh).symm, (hquote.ne_hexDigit hlow).symm]
  | bare hescape hne _ =>
      exact ⟨[(c, false)], by simp [underEscapes, hescape], rfl, by simp [hne.symm]⟩

/-- A character is spelled in plain characters. -/
theorem Spells.isPlain (h : Spells quote c text) : ∀ d ∈ text, IsPlain d := by
  cases h with
  | short _ _ hplain => simp [hplain, (by decide : IsPlain '\\')]
  | hex hlt =>
      have hhigh : c.toNat / 16 % 16 < 16 := Nat.mod_lt _ (by decide)
      have hlow : c.toNat % 16 < 16 := Nat.mod_lt _ (by decide)
      simp [Text.hexPair, (hexDigit_bounds hhigh).2.1, (hexDigit_bounds hlow).2.1,
        (by decide : IsPlain '\\'), (by decide : IsPlain 'x')]
  | bare _ _ hplain => simpa using hplain

/-! ### Literals -/

/-- A literal is its escaped characters between quotes. -/
theorem toList_quoted (s : String) :
    (quoted quote s).toList = quote :: (s.toList.flatMap (escapeChar quote) ++ [quote]) :=
  String.toList_ofList

variable (hquote : IsQuote quote)

include hquote

/-- **Escaped characters are read up to the closing quote.** -/
theorem readText_flatMap (cs rest : List Char) :
    readText quote (cs.flatMap (escapeChar quote) ++ quote :: rest) = some (cs, rest) := by
  induction cs with
  | nil => exact readText_quote hquote rest
  | cons c cs ih =>
      rw [List.flatMap_cons, List.append_assoc, (spells_escapeChar hquote c).readText_append, ih]
      rfl

theorem underEscapes_flatMap (cs rest : List Char) :
    ∃ front, underEscapes false (cs.flatMap (escapeChar quote) ++ rest) = front ++ underEscapes false rest ∧
      front.length = (cs.flatMap (escapeChar quote)).length ∧ (quote, false) ∉ front := by
  induction cs with
  | nil => exact ⟨[], rfl, rfl, List.not_mem_nil⟩
  | cons c cs ih =>
      obtain ⟨front, heq, hlength, hfront⟩ := ih
      obtain ⟨first, heq', hlength', hfirst⟩ := (spells_escapeChar hquote c).underEscapes_append hquote
        (cs.flatMap (escapeChar quote) ++ rest)
      refine ⟨first ++ front, ?_, ?_, ?_⟩
      · rw [List.flatMap_cons, List.append_assoc, heq', heq, List.append_assoc]
      · rw [List.flatMap_cons, List.length_append, List.length_append, hlength, hlength']
      · exact fun h => (List.mem_append.mp h).elim hfirst hfront

theorem readLiteral_quoted (s : String) (rest : List Char) :
    readLiteral quote ((quoted quote s).toList ++ rest) = some (s.toList, rest) := by
  rw [toList_quoted, List.cons_append, List.append_assoc, List.singleton_append, readLiteral, if_pos rfl,
    readText_flatMap hquote]

/-- The quotes that are not escaped are the first and the last character. -/
theorem underEscapes_quoted (s : String) (i : Nat) :
    (underEscapes false (quoted quote s).toList)[i]? = some (quote, false) ↔
      i = 0 ∨ i = (quoted quote s).toList.length - 1 := by
  obtain ⟨front, heq, hlength, hfront⟩ := underEscapes_flatMap hquote s.toList [quote]
  have hunder : underEscapes false (quoted quote s).toList = (quote, false) :: (front ++ [(quote, false)]) := by
    rw [toList_quoted, underEscapes]
    simp [hquote.bounds.1, heq, underEscapes]
  have hlast : (quoted quote s).toList.length - 1 = front.length + 1 := by
    rw [toList_quoted]
    simp [hlength]
  rw [hunder, hlast]
  cases i with
  | zero => simp
  | succ i =>
      rw [List.getElem?_cons_succ]
      rcases Nat.lt_trichotomy i front.length with hlt | rfl | hlt
      · rw [List.getElem?_append_left hlt]
        have hne : front[i]? ≠ some (quote, false) := fun h => hfront (List.mem_of_getElem? h)
        simp [hne, Nat.ne_of_lt hlt]
      · simp
      · rw [List.getElem?_eq_none (by simpa using Nat.succ_le_of_lt hlt)]
        simp [(Nat.ne_of_lt hlt).symm]

/-- A literal holds plain characters only. -/
theorem isPlain_quoted (s : String) {c : Char} (hc : c ∈ (quoted quote s).toList) : IsPlain c := by
  rw [toList_quoted] at hc
  simp only [List.mem_cons, List.mem_append, List.mem_flatMap, List.not_mem_nil, or_false] at hc
  rcases hc with rfl | ⟨d, -, hd⟩ | rfl
  · exact hquote.isPlain
  · exact (spells_escapeChar hquote d).isPlain c hd
  · exact hquote.isPlain

/-- **Literals** are read back: what is written for a text is read as this text, up to its last character and
whatever stands behind it.  The first and the last character are the only quotes that are not escaped, and
there are no control characters and no others from code 127 to 255.  So different texts have different
literals. -/
theorem quoted_literal (s : String) :
    let written := (quoted quote s).toList
    (∀ rest, readLiteral quote (written ++ rest) = some (s.toList, rest)) ∧
      (∀ i, (underEscapes false written)[i]? = some (quote, false) ↔ i = 0 ∨ i = written.length - 1) ∧
      (∀ c ∈ written, 32 ≤ c.toNat ∧ ¬ (127 ≤ c.toNat ∧ c.toNat ≤ 255)) ∧
      ∀ t, quoted quote t = quoted quote s → t = s := by
  refine ⟨readLiteral_quoted hquote s, underEscapes_quoted hquote s, fun c hc => ?_, fun t ht => ?_⟩
  · obtain ⟨hlow, hhigh⟩ := isPlain_quoted hquote s hc
    exact ⟨hlow, by omega⟩
  · -- equal literals are read as the same text
    have h := readLiteral_quoted hquote t []
    rw [ht, readLiteral_quoted hquote s []] at h
    exact String.toList_inj.mp (congrArg Prod.fst (Option.some.inj h)).symm

omit hquote

/-- A quote, a line break and a digit behind an escape are read back. -/
theorem quoted_literal_mixed :
    IsQuote '\'' ∧ (quoted '\'' "it's\n\x7f0\\").toList = "'it\\'s\\n\\x7f0\\\\'".toList ∧
      ∀ rest, readLiteral '\'' ("'it\\'s\\n\\x7f0\\\\'".toList ++ rest) =
        some ("it's\n\x7f0\\".toList, rest) := by
  have hquote : IsQuote '\'' := .inr rfl
  have hwritten : (quoted '\'' "it's\n\x7f0\\").toList = "'it\\'s\\n\\x7f0\\\\'".toList := by decide
  refine ⟨hquote, hwritten, fun rest => ?_⟩
  rw [← hwritten]
  exact (quoted_literal hquote "it's\n\x7f0\\").1 rest

end Grammar

end TorqueScript
