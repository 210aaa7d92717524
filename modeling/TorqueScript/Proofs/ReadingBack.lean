import TorqueScript.Proofs.Grammar

/-!
# Reading back what is printed

The induction that shows expressions to be read back says nothing about where an expression ends (`Reads`):
reading its tokens in front of any others is the same as having read the expression and going on from there,
with its own precedence as the floor.  That holds in front of everything that does not take a part of the
expression for itself.  A following operator does, if it binds tighter than the last operator of the
expression; for an operator that groups to the right it is enough that it binds as tightly.  `reach` is that
bound, and `Clear` says that the tokens that follow respect it.

An operand that stands bare binds tightly enough for the floor and respects the bound of its operator,
and one in parentheses does so whatever it is (`Reads.operand`).  There is one lemma of this kind for each kind
of expression.
-/

namespace TorqueScript

namespace Grammar

open Source

/-! ### Tokens without white space -/

/-- The tokens that are not white space. -/
def solid (ts : List String) : List String :=
  ts.filter (!isBlank ·)

@[simp] theorem solid_nil : solid [] = [] := rfl

@[simp] theorem solid_append (ts us : List String) : solid (ts ++ us) = solid ts ++ solid us :=
  List.filter_append ts us

/-- A token that is no white space stays. -/
theorem solid_cons {t : String} (h : isBlank t = false) (ts : List String) :
    solid (t :: ts) = t :: solid ts := by
  simp [solid, h]

/-- White space goes. -/
theorem solid_blank {t : String} (h : isBlank t = true) (ts : List String) : solid (t :: ts) = solid ts := by
  simp [solid, h]

@[simp] theorem solid_parens (wrap : Bool) (ts : List String) :
    solid (parens wrap ts) = parens wrap (solid ts) := by
  cases wrap with
  | false => rfl
  | true =>
      simp (disch := decide) only [parens, if_true, List.cons_append, solid_cons, solid_append, solid_nil]

/-- What begins an expression is no white space. -/
theorem solid_opener {t : String} {o : Opener} (h : opener? t = some o) (ts : List String) :
    solid (t :: ts) = t :: solid ts :=
  solid_cons (not_isBlank_of_opener? h) ts

/-- No operator is white space. -/
theorem not_isBlank_between (d : Between) : isBlank d.token = false := by
  have hall : ∀ d ∈ Between.all, isBlank d.token = false := by decide
  exact hall d d.mem_all

/-! ### What follows an expression -/

namespace Operator

/-- An operator between operands is known by its token. -/
theorem ofToken?_between (d : Between) : ofToken? d.token = some (.between d) := by
  have hall : ∀ d ∈ Between.all, ofToken? d.token = some (.between d) := by decide
  exact hall d d.mem_all

/-- And so is an assignment with an operator. -/
theorem ofToken?_compound {op : BinaryOp} (h : op.isCompound) :
    ofToken? (op.token ++ "=") = some (.assign (some op)) := by
  cases op <;> first | decide | cases h

end Operator

/-- The tokens do not go on with an index, with arguments, or with an operator that binds as tightly as
`k`. -/
def Clear (k : Nat) (rest : List String) : Prop :=
  ∀ t ∈ rest.head?, t ≠ "[" ∧ t ≠ "(" ∧ ∀ o, Operator.ofToken? t = some o → k < o.precedence

/-- A higher bound is easier to respect. -/
theorem Clear.mono {j k : Nat} {rest : List String} (h : Clear k rest) (hjk : j ≤ k) : Clear j rest :=
  fun t ht => ⟨(h t ht).1, (h t ht).2.1, fun o ho => hjk.trans_lt ((h t ht).2.2 o ho)⟩

/-- What is no operator ends an expression. -/
theorem clear_cons {k : Nat} {t : String} (h : t ≠ "[" ∧ t ≠ "(") (ht : Operator.ofToken? t = none)
    (rest : List String) : Clear k (t :: rest) := by
  rintro t' ht'
  obtain rfl := Option.mem_some.mp ht'
  exact ⟨h.1, h.2, fun o ho => by rw [ht] at ho; cases ho⟩

/-- So does an operator that binds less tightly. -/
theorem clear_operator {k : Nat} {t : String} {o : Operator} (h : t ≠ "[" ∧ t ≠ "(")
    (ht : Operator.ofToken? t = some o) (hk : k < o.precedence) (rest : List String) :
    Clear k (t :: rest) := by
  rintro t' ht'
  obtain rfl := Option.mem_some.mp ht'
  exact ⟨h.1, h.2, fun o' ho => by rw [ht] at ho; cases ho; exact hk⟩

/-- Nothing is read behind an expression that cannot go on. -/
theorem climb_clear {floor limit : Nat} {left : Node} {rest : List String} (h : Clear limit rest) :
    climb floor limit left rest = some (left, rest) := by
  cases rest with
  | nil => rw [climb]
  | cons t rest =>
      have hnone : ((Operator.ofToken? t).filter
          fun o => floor ≤ o.precedence && o.precedence ≤ limit) = none := by
        rw [Option.filter_eq_none_iff]
        intro o ho
        have := (h t rfl).2.2 o ho
        simp only [Bool.and_eq_true, decide_eq_true_eq, not_and]
        omega
      rw [climb, hnone]

/-- An operator that may follow is found. -/
theorem filter_ofToken? {floor limit : Nat} {t : String} {o : Operator} (h : Operator.ofToken? t = some o)
    (hfloor : floor ≤ o.precedence) (hlimit : o.precedence ≤ limit) :
    ((Operator.ofToken? t).filter fun o => floor ≤ o.precedence && o.precedence ≤ limit) = some o := by
  rw [h, Option.filter_some, if_pos (by simp [hfloor, hlimit])]

section Shorter

variable {tokens rest : List String}

/-- The reader notes that tokens were taken. -/
theorem shorter?_eq (h : rest.length < tokens.length) : shorter? tokens rest = some ⟨rest, h⟩ :=
  dif_pos h

theorem shorter?_cons (t : String) (rest : List String) :
    shorter? (t :: rest) rest = some ⟨rest, Nat.lt_succ_self _⟩ :=
  shorter?_eq _

theorem length_lt_cons_append (t : String) (us rest : List String) :
    rest.length < (t :: (us ++ rest)).length := by
  rw [List.length_cons, List.length_append]
  omega

theorem shorter?_append (t : String) (us rest : List String) :
    shorter? (t :: (us ++ rest)) rest = some ⟨rest, length_lt_cons_append t us rest⟩ :=
  shorter?_eq _

end Shorter

/-- **An operator between operands** is taken if it binds tightly enough, and then its right operand is read. -/
theorem climb_between {floor limit : Nat} {d : Between} (hfloor : floor ≤ d.precedence)
    (hlimit : d.precedence ≤ limit) {right : Node} {rs rest : List String}
    (hright : read (d.precedence - 1) (rs ++ rest) = some (right, rest)) (left : Node) :
    climb floor limit left (d.token :: (rs ++ rest)) =
      climb d.precedence limit (d.node left right) rest := by
  rw [climb, filter_ofToken? (Operator.ofToken?_between d) hfloor hlimit]
  simp only [hright, shorter?_append, Option.bind_eq_bind, Option.bind_some]

/-- A token that is asked for is taken. -/
theorem expect_self (t : String) (rest : List String) : expect t (t :: rest) = some rest :=
  if_pos rfl

theorem expect_ne {t t' : String} (h : t' ≠ t) (rest : List String) : expect t (t' :: rest) = none :=
  if_neg h

/-! ### Reading back -/

/-- How tightly an operator must not bind that follows the node, or else it takes what the node ends
with. -/
def reach : Node → Nat
  | .unary .. => Precedence.unary
  | .conditional .. => Precedence.conditional
  | .assign .. => Precedence.assignment
  | n => n.precedence - 1

/-- An expression does not reach farther than it binds. -/
theorem reach_le (n : Node) : reach n ≤ n.precedence := by
  unfold reach
  split
  · exact le_rfl
  · exact le_rfl
  · exact le_rfl
  · exact Nat.sub_le _ _

/-- An operator that groups to the left leaves an operand alone that binds as tightly. -/
theorem reach_lt {n : Node} {p : Nat} (h : n.precedence ≤ p) (hp : 0 < p)
    (hgroups : p ∉ [Precedence.unary, Precedence.conditional, Precedence.assignment]) : reach n < p := by
  simp only [List.mem_cons, List.not_mem_nil, or_false, not_or] at hgroups
  unfold reach
  split
  · exact lt_of_le_of_ne h (Ne.symm hgroups.1)
  · exact lt_of_le_of_ne h (Ne.symm hgroups.2.1)
  · exact lt_of_le_of_ne h (Ne.symm hgroups.2.2)
  · omega

/-- The tokens are read as the node, in front of anything that does not take a part of it. -/
structure Reads (n : Node) (ts : List String) : Prop where
  begins : begins ts
  climbs {limit : Nat} {rest : List String} : n.precedence ≤ limit → Clear (reach n) rest →
    read limit (ts ++ rest) = climb n.precedence limit n rest

section Reads

variable {n left right : Node} {ts ls rs : List String} {limit : Nat} {rest : List String}

/-- **An expression is read to its end** in front of tokens that take nothing of it. -/
theorem Reads.done (h : Reads n ts) (hlimit : n.precedence ≤ limit) (hrest : Clear limit rest) :
    read limit (ts ++ rest) = some (n, rest) := by
  rw [h.climbs hlimit (hrest.mono ((reach_le n).trans hlimit)), climb_clear hrest]

/-- In parentheses, an expression counts as one that binds most tightly. -/
theorem Reads.group (h : Reads n ts) (hn : n.precedence ≤ Precedence.comma) :
    read limit ("(" :: (ts ++ ")" :: rest)) = climb Precedence.primary limit n rest := by
  have hrest : Clear Precedence.comma (")" :: rest) := clear_cons (by decide) (by decide) rest
  have hlt : rest.length < ("(" :: (ts ++ ")" :: rest)).length := by simp +arith
  rw [read, opener?_group]
  simp only [h.done hn hrest, expect_self, shorter?_eq hlt, Option.bind_eq_bind, Option.bind_some]

/-- An operand that stands alone or in parentheses. -/
theorem Reads.operand (h : Reads n ts) (hn : n.precedence ≤ Precedence.comma) {wrap : Bool}
    (hwrap : wrap = false → n.precedence ≤ limit ∧ Clear (reach n) rest) :
    read limit (parens wrap ts ++ rest) =
      climb (if wrap then Precedence.primary else n.precedence) limit n rest := by
  cases wrap with
  | true => simpa [parens] using h.group hn
  | false => exact h.climbs (hwrap rfl).1 (hwrap rfl).2

/-- An operand is read to its end, with parentheses or without. -/
theorem Reads.operand_done (h : Reads n ts) (hn : n.precedence ≤ Precedence.comma) {wrap : Bool}
    (hwrap : wrap = false → n.precedence ≤ limit) (hrest : Clear limit rest) :
    read limit (parens wrap ts ++ rest) = some (n, rest) := by
  rw [h.operand hn fun hw => ⟨hwrap hw, hrest.mono ((reach_le n).trans (hwrap hw))⟩, climb_clear hrest]

/-- Whether an expression begins is seen from the first token. -/
theorem begins_append (h : Grammar.begins ts) (us : List String) : Grammar.begins (ts ++ us) := by
  cases ts with
  | nil => cases h
  | cons t ts => exact h

theorem begins_parens (wrap : Bool) (h : Grammar.begins ts) : Grammar.begins (parens wrap ts) := by
  cases wrap with
  | true => exact (by decide : Grammar.begins ["("])
  | false => exact h

/-- Constants are single tokens. -/
theorem Reads.constant {t : String} {c : Constant} (h : opener? t = some (.constant c)) :
    Reads (.constant c) [t] := by
  refine ⟨by simp [Grammar.begins, h], fun _ _ => ?_⟩
  rw [List.singleton_append, read, h]
  rfl

/-- The tokens are read as an index, or as none. -/
def ReadsIndex (index : Option Node) (is : List String) : Prop :=
  ∀ rest, Clear 0 rest → (is ++ rest).head? ≠ some "(" ∧ readIndex (is ++ rest) = some (index, rest)

/-- There need be no index. -/
theorem readsIndex_none : ReadsIndex none [] := by
  intro rest hrest
  rw [List.nil_append, readIndex]
  cases rest with
  | nil => exact ⟨nofun, rfl⟩
  | cons t rest =>
      rw [expect_ne (hrest t rfl).1]
      exact ⟨fun h => (hrest t rfl).2.1 (Option.some.inj h), rfl⟩

/-- An index is an expression in brackets. -/
theorem Reads.index (h : Reads n ts) (hn : n.precedence ≤ Precedence.comma) :
    ReadsIndex (some n) ("[" :: ts ++ ["]"]) := by
  intro rest _
  have hrest : Clear Precedence.comma ("]" :: rest) := clear_cons (by decide) (by decide) rest
  rw [List.cons_append, List.cons_append, List.append_assoc, List.singleton_append, readIndex, expect_self]
  refine ⟨fun hhead => absurd (Option.some.inj hhead) (by decide), ?_⟩
  simp only [h.done hn hrest, expect_self, shorter?_cons, Option.bind_eq_bind, Option.bind_some]

/-- A variable with its index. -/
theorem Reads.var {name : String} {index : Option Node} {is : List String} (hname : isVariable name)
    (h : ReadsIndex index is) : Reads (.var name index) (name :: is) := by
  have hopen := opener?_variable hname
  refine ⟨by simp [Grammar.begins, hopen], fun {limit rest} _ hrest => ?_⟩
  rw [List.cons_append, read, hopen]
  simp only [(h rest hrest).2, shorter?_append, Option.bind_eq_bind, Option.bind_some]
  rfl

/-- A name is taken where a word is asked for. -/
theorem word?_cons {name : String} (h : isIdentifier name) (rest : List String) :
    word? (name :: rest) = some (name, rest) := if_pos h

section Member

variable {floor : Nat} {name : String} (hfloor : floor ≤ Precedence.member)
  (hlimit : Precedence.member ≤ limit) (hname : isIdentifier name)

include hfloor hlimit hname

/-- A dot goes on behind an operand that binds tightly enough. -/
theorem climb_field {index : Option Node} {is : List String} (hhead : (is ++ rest).head? ≠ some "(")
    (hindex : readIndex (is ++ rest) = some (index, rest)) :
    climb floor limit left ("." :: name :: (is ++ rest)) =
      climb Precedence.member limit (.field (some left) name index) rest := by
  have hdot : Operator.ofToken? "." = some .member := by decide
  have hname' : (is ++ rest).length < ("." :: name :: (is ++ rest)).length := by simp +arith
  have hrest : rest.length < ("." :: name :: (is ++ rest)).length := by simp +arith
  rw [climb, filter_ofToken? hdot hfloor hlimit]
  simp only [word?_cons hname, shorter?_eq hname', hhead, hindex, shorter?_eq hrest, Option.bind_eq_bind,
    Option.bind_some, if_false]

/-- A name with arguments behind a dot is a method. -/
theorem climb_method {args : List Node} {as : List String}
    (hargs : readArguments ("(" :: (as ++ rest)) = some (args, rest)) :
    climb floor limit left ("." :: name :: "(" :: (as ++ rest)) =
      climb Precedence.member limit (.call name none .method (left :: args)) rest := by
  have hdot : Operator.ofToken? "." = some .member := by decide
  have hname' : ("(" :: (as ++ rest)).length < ("." :: name :: "(" :: (as ++ rest)).length := by simp +arith
  have hrest : rest.length < ("." :: name :: "(" :: (as ++ rest)).length := by simp +arith
  rw [climb, filter_ofToken? hdot hfloor hlimit]
  simp only [word?_cons hname, shorter?_eq hname', List.head?_cons, hargs, shorter?_eq hrest,
    Option.bind_eq_bind, Option.bind_some, if_true]

end Member

/-- What stands in front of a dot. -/
theorem Reads.owner (h : Reads n ts) (hn : n.precedence ≤ Precedence.comma)
    (hlimit : Precedence.member ≤ limit) (rest : List String) :
    ∃ floor ≤ Precedence.member, read limit (parens (Precedence.member < n.precedence) ts ++ "." :: rest) =
      climb floor limit n ("." :: rest) := by
  have hdot : Operator.ofToken? "." = some .member := by decide
  refine ⟨_, ?_, h.operand hn ?_⟩
  · split
    · exact Nat.zero_le _
    · next hwrap => simpa using hwrap
  · intro hwrap
    have hprecedence : n.precedence ≤ Precedence.member := by simpa using hwrap
    exact ⟨hprecedence.trans hlimit, clear_operator (by decide) hdot
      (reach_lt hprecedence (by decide) (by decide)) _⟩

/-- A field of an expression, which is put in parentheses if it does not bind tightly. -/
theorem Reads.field (h : Reads n ts) (hn : n.precedence ≤ Precedence.comma) {name : String}
    (hname : isIdentifier name) {index : Option Node} {is : List String} (hindex : ReadsIndex index is) :
    Reads (.field (some n) name index) (parens (Precedence.member < n.precedence) ts ++ "." :: name :: is) := by
  refine ⟨begins_append (begins_parens _ h.begins) _, fun {limit rest} hlimit hrest => ?_⟩
  obtain ⟨hhead, hread⟩ := hindex rest hrest
  obtain ⟨floor, hfloor, howner⟩ := h.owner hn hlimit (name :: (is ++ rest))
  rw [List.append_assoc, List.cons_append, List.cons_append, howner,
    climb_field hfloor hlimit hname hhead hread]
  rfl

/-- The tokens are read as arguments, parentheses included. -/
def ReadsArguments (args : List Node) (as : List String) : Prop :=
  ∀ rest, readArguments (as ++ rest) = some (args, rest)

/-- Behind an argument comes another one or the closing parenthesis. -/
theorem readRest_flatten (rest : List String) {args : List Node} {as : List (List String)}
    (h : List.Forall₂ (fun a ts => Reads a ts ∧ a.precedence ≤ Precedence.assignment) args as) :
    readRest ((as.map ("," :: ·)).flatten ++ ")" :: rest) = some (args, rest) ∧
      Clear Precedence.assignment ((as.map ("," :: ·)).flatten ++ ")" :: rest) := by
  induction h with
  | nil =>
      refine ⟨?_, clear_cons (by decide) (by decide) rest⟩
      rw [List.map_nil, List.flatten_nil, List.nil_append, readRest, expect_ne (by decide)]
      simp only [expect_self, Option.bind_eq_bind, Option.bind_some]
  | cons hhead _ ih =>
      have hcomma : Operator.ofToken? "," = some (.between .comma) := by decide
      refine ⟨?_, clear_operator (by decide) hcomma (by decide) _⟩
      rw [List.map_cons, List.flatten_cons, List.append_assoc, List.cons_append, readRest, expect_self]
      simp only [shorter?_cons, hhead.1.done hhead.2 ih.2, shorter?_append, ih.1, Option.bind_eq_bind,
        Option.bind_some]

/-- There need be no arguments. -/
theorem readsArguments_nil : ReadsArguments [] ["(", ")"] := by
  intro rest
  have hbegins : Grammar.begins (")" :: rest) = false := (by decide : Grammar.begins [")"] = false)
  rw [readArguments]
  simp only [List.cons_append, List.nil_append, expect_self, hbegins, Option.bind_eq_bind, Option.bind_some,
    Bool.false_eq_true, if_false]

/-- Arguments are divided by commas, and none of them takes a comma for itself. -/
theorem readsArguments_cons {args : List Node} {as : List (List String)} (h : Reads n ts)
    (hn : n.precedence ≤ Precedence.assignment)
    (hargs : List.Forall₂ (fun a ts => Reads a ts ∧ a.precedence ≤ Precedence.assignment) args as) :
    ReadsArguments (n :: args) ("(" :: (ts ++ (as.map ("," :: ·)).flatten ++ [")"])) := by
  intro rest
  obtain ⟨hrest, hclear⟩ := readRest_flatten rest hargs
  have hbegins := begins_append h.begins ((as.map ("," :: ·)).flatten ++ ")" :: rest)
  rw [List.cons_append, List.append_assoc, List.append_assoc, List.singleton_append, readArguments]
  simp only [expect_self, hbegins, shorter?_cons, h.done hn hclear, shorter?_append, hrest,
    Option.bind_eq_bind, Option.bind_some, if_true]

/-- The operand of a sign or of a negation. -/
theorem Reads.unary (op : UnaryOp) (h : Reads n ts) (hn : n.precedence ≤ Precedence.comma) {wrap : Bool}
    (hwrap : wrap = false → n.precedence ≤ Precedence.unary) :
    Reads (.unary op n) (op.token :: parens wrap ts) := by
  refine ⟨by simp [Grammar.begins, opener?_unary], fun {limit rest} _ hrest => ?_⟩
  rw [List.cons_append, read, opener?_unary]
  simp only [h.operand_done hn hwrap hrest, shorter?_append, Option.bind_eq_bind, Option.bind_some]
  rfl

/-- An operator groups to the left, so its right operand must bind more tightly. -/
theorem reach_between (d : Between) (left right : Node) : reach (d.node left right) = d.precedence - 1 := by
  cases d <;> rfl

theorem clear_between {k : Nat} {d : Between} (h : k < d.precedence) (rest : List String) :
    Clear k (d.token :: rest) := by
  have hall : ∀ d ∈ Between.all, d.token ≠ "[" ∧ d.token ≠ "(" := by decide
  exact clear_operator (hall d d.mem_all) (Operator.ofToken?_between d) h rest

/-- Operators between operands bind at levels of their own. -/
theorem groups_between (d : Between) :
    0 < d.precedence ∧ d.precedence ∉ [Precedence.unary, Precedence.conditional, Precedence.assignment] := by
  have hall : ∀ d ∈ Between.all, 0 < d.precedence ∧
      d.precedence ∉ [Precedence.unary, Precedence.conditional, Precedence.assignment] := by decide
  exact hall d d.mem_all

/-- **An operator between its operands** is read back, if the right operand is not of the kind that
groups either way. -/
theorem Reads.between (d : Between) (hl : Reads left ls) (hleft : left.precedence ≤ Precedence.comma)
    (hr : Reads right rs) (hright : right.precedence ≤ Precedence.comma)
    (hassoc : ¬ right.associatesWith (d.node left right)) :
    Reads (d.node left right) (parens (wrapsLeft (d.node left right) left) ls ++
      d.token :: parens (wrapsRight (d.node left right) right) rs) := by
  obtain ⟨hpos, hgroups⟩ := groups_between d
  refine ⟨begins_append (begins_parens _ hl.begins) _, fun {limit rest} hlimit hrest => ?_⟩
  rw [Between.precedence_node] at hlimit ⊢
  rw [reach_between] at hrest
  rw [List.append_assoc, List.cons_append, hl.operand hleft,
    climb_between ?_ hlimit (hr.operand_done hright ?_ hrest)]
  · split
    · exact Nat.zero_le _
    · next hwrap => simpa [wrapsLeft] using hwrap
  · -- bare, the right operand binds tighter
    intro hwrap
    simp only [wrapsRight, Between.precedence_node, Bool.not_eq_true _ |>.mp hassoc, Bool.not_false, Bool.and_true,
      Bool.or_eq_false_iff, decide_eq_false_iff_not, beq_eq_false_iff_ne] at hwrap
    omega
  · intro hwrap
    have hprecedence : left.precedence ≤ d.precedence := by simpa [wrapsLeft] using hwrap
    exact ⟨hprecedence.trans hlimit, clear_between (reach_lt hprecedence hpos hgroups) _⟩

/-- **A choice**: the condition must bind more tightly, and the two values may not take a comma. -/
theorem Reads.conditional {c t e : Node} {cs es : List String} (hc : Reads c cs)
    (hcondition : c.precedence ≤ Precedence.comma) (ht : Reads t ts) (hthen : t.precedence ≤ Precedence.comma)
    (he : Reads e es) (helse : e.precedence ≤ Precedence.comma) :
    Reads (.conditional c t e) (parens (Precedence.conditional ≤ c.precedence) cs ++
      "?" :: (parens (Precedence.conditional < t.precedence) ts ++
        ":" :: parens (Precedence.conditional < e.precedence) es)) := by
  have hmark : Operator.ofToken? "?" = some .choice := by decide
  refine ⟨begins_append (begins_parens _ hc.begins) _, fun {limit rest} hlimit hrest => ?_⟩
  rw [List.append_assoc, List.cons_append, List.append_assoc, List.cons_append, hc.operand hcondition, climb,
    filter_ofToken? hmark ?_ hlimit]
  · -- both values group to the right, so neither sees the operator behind it
    have hcolon : Clear Precedence.conditional
        (":" :: (parens (Precedence.conditional < e.precedence) es ++ rest)) :=
      clear_cons (by decide) (by decide) _
    have hbare : ∀ m : Node, decide (Precedence.conditional < m.precedence) = false →
        m.precedence ≤ Precedence.conditional := fun m hm => by simpa using hm
    have hlt : (parens (Precedence.conditional < e.precedence) es ++ rest).length <
        ("?" :: (parens (Precedence.conditional < t.precedence) ts ++
          ":" :: (parens (Precedence.conditional < e.precedence) es ++ rest))).length := by simp +arith
    have hlt' : rest.length < ("?" :: (parens (Precedence.conditional < t.precedence) ts ++
        ":" :: (parens (Precedence.conditional < e.precedence) es ++ rest))).length := by simp +arith
    simp only [ht.operand_done hthen (hbare t) hcolon, expect_self, shorter?_eq hlt,
      he.operand_done helse (hbare e) hrest, shorter?_eq hlt', Option.bind_eq_bind, Option.bind_some]
    rfl
  · split
    · exact Nat.zero_le _
    · next hwrap => exact (by simpa using hwrap : c.precedence < Precedence.conditional).le
  · intro hwrap
    have hprecedence : c.precedence < Precedence.conditional := by simpa using hwrap
    exact ⟨hprecedence.le.trans hlimit,
      clear_operator (by decide) hmark ((reach_le c).trans_lt hprecedence) _⟩

/-- Variables and fields bind tightly. -/
theorem precedence_le_of_isPlace (h : n.isPlace) : n.precedence ≤ Precedence.member := by
  cases n with
  | field => exact le_rfl
  | var => exact Nat.zero_le _
  | _ => cases h

/-- What is assigned to is read up to the sign of assignment. -/
theorem Reads.target (h : Reads n ts) (hplace : n.isPlace) (hlimit : Precedence.assignment ≤ limit) {t : String}
    {o : Operator} (ht : t ≠ "[" ∧ t ≠ "(") (ho : Operator.ofToken? t = some o)
    (hprecedence : o.precedence = Precedence.assignment) :
    read limit (ts ++ t :: rest) = climb n.precedence limit n (t :: rest) ∧
      ((Operator.ofToken? t).filter fun o => n.precedence ≤ o.precedence && o.precedence ≤ limit) = some o := by
  have hn := precedence_le_of_isPlace hplace
  have hclear : Clear (reach n) (t :: rest) := by
    refine clear_operator ht ho ?_ rest
    exact ((reach_le n).trans hn).trans_lt (hprecedence ▸ by decide)
  refine ⟨h.climbs (hn.trans (le_trans (by decide) hlimit)) hclear, filter_ofToken? ho ?_ (hprecedence ▸ hlimit)⟩
  exact hn.trans (hprecedence ▸ by decide)

/-- **An assignment** groups to the right. -/
theorem Reads.assign (h : Reads n ts) (hplace : n.isPlace) {op : Option BinaryOp} {t : String}
    (ht : t ≠ "[" ∧ t ≠ "(") (ho : Operator.ofToken? t = some (.assign op)) {value : Node} {vs : List String}
    (hv : Reads value vs) (hvalue : value.precedence ≤ Precedence.assignment) (wrap : Bool) :
    Reads (.assign n op value) (ts ++ t :: parens wrap vs) := by
  refine ⟨begins_append h.begins _, fun {limit rest} hlimit hrest => ?_⟩
  obtain ⟨hread, hfilter⟩ := h.target hplace hlimit ht ho rfl
  rw [List.append_assoc, List.cons_append, hread, climb, hfilter]
  simp only [hplace, if_true, hv.operand_done (hvalue.trans (by decide)) (fun _ => hvalue) hrest,
    shorter?_append, Option.bind_eq_bind, Option.bind_some]
  rfl

/-- Adding one and taking one away are written behind the target. -/
theorem Reads.step (h : Reads n ts) (hplace : n.isPlace) {op : BinaryOp} {t : String}
    (ht : t ≠ "[" ∧ t ≠ "(") (ho : Operator.ofToken? t = some (.step op)) :
    Reads (.assign n (some op) (.constant (.uint 1))) (ts ++ [t]) := by
  refine ⟨begins_append h.begins _, fun {limit rest} hlimit _ => ?_⟩
  obtain ⟨hread, hfilter⟩ := h.target hplace hlimit ht ho rfl
  rw [List.append_assoc, List.singleton_append, hread, climb, hfilter]
  simp only [hplace, if_true]
  rfl

section Calls

variable {name : String} {args : List Node} {as : List String}

/-- A call of a function. -/
theorem Reads.call (hname : isIdentifier name) (h : ReadsArguments args ("(" :: as)) :
    Reads (.call name none .function args) (name :: "(" :: as) := by
  have hopen := opener?_identifier hname
  refine ⟨by simp [Grammar.begins, hopen], fun {limit rest} _ _ => ?_⟩
  have hargs := h rest
  rw [List.cons_append] at hargs
  have hlt : rest.length < (name :: "(" :: (as ++ rest)).length := by simp +arith
  rw [List.cons_append, List.cons_append, read, hopen]
  simp only [expect_ne (by decide : "(" ≠ "::"), hargs, shorter?_eq hlt, Option.bind_eq_bind, Option.bind_some]
  rfl

/-- A call of a function in a name space. -/
theorem Reads.call_qualified {nameSpace : String} (hnameSpace : isIdentifier nameSpace)
    (hname : isIdentifier name) (h : ReadsArguments args ("(" :: as)) :
    Reads (.call name (some nameSpace) .function args) (nameSpace :: "::" :: name :: "(" :: as) := by
  have hopen := opener?_identifier hnameSpace
  refine ⟨by simp [Grammar.begins, hopen], fun {limit rest} _ _ => ?_⟩
  have hargs := h rest
  rw [List.cons_append] at hargs
  have hlt : ("(" :: (as ++ rest)).length < (nameSpace :: "::" :: name :: "(" :: (as ++ rest)).length := by
    simp +arith
  have hlt' : rest.length < (nameSpace :: "::" :: name :: "(" :: (as ++ rest)).length := by simp +arith
  rw [List.cons_append, List.cons_append, List.cons_append, List.cons_append, read, hopen]
  simp only [expect_self, word?_cons hname, shorter?_eq hlt, hargs, shorter?_eq hlt', Option.bind_eq_bind,
    Option.bind_some]
  rfl

/-- A call of the function of the same name in the package around. -/
theorem Reads.parent (hname : isIdentifier name) (h : ReadsArguments args ("(" :: as)) :
    Reads (.call name none .parent args) ("Parent" :: "::" :: name :: "(" :: as) := by
  refine ⟨by simp [Grammar.begins, opener?_parent], fun {limit rest} _ _ => ?_⟩
  have hargs := h rest
  rw [List.cons_append] at hargs
  have hlt : ("(" :: (as ++ rest)).length < ("Parent" :: "::" :: name :: "(" :: (as ++ rest)).length := by
    simp +arith
  have hlt' : rest.length < ("Parent" :: "::" :: name :: "(" :: (as ++ rest)).length := by simp +arith
  rw [List.cons_append, List.cons_append, List.cons_append, List.cons_append, read, opener?_parent]
  simp only [expect_self, word?_cons hname, shorter?_eq hlt, hargs, shorter?_eq hlt', Option.bind_eq_bind,
    Option.bind_some]
  rfl

/-- A call of a method, on an expression that is put in parentheses if it does not bind tightly. -/
theorem Reads.method (h : Reads n ts) (hn : n.precedence ≤ Precedence.comma) (hname : isIdentifier name)
    (hargs : ReadsArguments args ("(" :: as)) :
    Reads (.call name none .method (n :: args))
      (parens (Precedence.member < n.precedence) ts ++ "." :: name :: "(" :: as) := by
  refine ⟨begins_append (begins_parens _ h.begins) _, fun {limit rest} hlimit _ => ?_⟩
  have hread := hargs rest
  rw [List.cons_append] at hread
  obtain ⟨floor, hfloor, howner⟩ := h.owner hn hlimit (name :: "(" :: (as ++ rest))
  rw [List.append_assoc, List.cons_append, List.cons_append, List.cons_append, howner,
    climb_method hfloor hlimit hname hread]
  rfl

end Calls

end Reads

end Grammar

end TorqueScript
