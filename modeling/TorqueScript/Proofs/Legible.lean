import TorqueScript.Proofs.ReadingBack

/-!
# Expressions that are read back

Printing puts parentheses where precedence asks for them and leaves them out elsewhere; this file proves
that it leaves out none that the grammar needs.

* `Node.Legible`: the expressions that are read back.  Constants are whole numbers and text, names are
  names, an assignment has a variable or a field on its left and is written with its operator if it has
  one, and the right operand of an operator is not one that groups either way, which is written without
  parentheses on purpose.
* `Node.Legible.readable`: they are.
-/

namespace TorqueScript

/-! ### Legible expressions -/

namespace Node

open Source Grammar

/-- An expression that can be read back from its tokens.  Lists stand in indices; as operands they are in
parentheses. -/
inductive Legible : Node → Prop where
  | constant {c : Constant} : (∀ x, c ≠ .float x) → (∀ s, c ≠ .ident s) → Legible (constant c)
  | var {name : String} {index : Option Node} : isVariable name → (∀ i ∈ index, Legible i) →
      Legible (var name index)
  | field {owner : Node} {name : String} {index : Option Node} : Legible owner → isIdentifier name →
      (∀ i ∈ index, Legible i) → Legible (field (some owner) name index)
  | call {name : String} {nameSpace : Option String} {args : List Node} : isIdentifier name →
      (∀ s ∈ nameSpace, isIdentifier s) → (∀ a ∈ args, Legible a) →
      (∀ a ∈ args, a.precedence ≤ Precedence.assignment) → Legible (call name nameSpace .function args)
  | method {receiver : Node} {name : String} {args : List Node} : Legible receiver → isIdentifier name →
      (∀ a ∈ args, Legible a) → (∀ a ∈ args, a.precedence ≤ Precedence.assignment) →
      Legible (call name none .method (receiver :: args))
  | parent {name : String} {args : List Node} : isIdentifier name → (∀ a ∈ args, Legible a) →
      (∀ a ∈ args, a.precedence ≤ Precedence.assignment) → Legible (call name none .parent args)
  | unary (op : UnaryOp) {operand : Node} : Legible operand → Legible (unary op operand)
  | binary (op : BinaryOp) {left right : Node} : Legible left → Legible right →
      ¬ right.associatesWith (binary op left right) → Legible (binary op left right)
  | compare (op : StringOp) {left right : Node} : Legible left → Legible right →
      Legible (compare op left right)
  | concat (join : Join) {left right : Node} : Legible left → Legible right →
      ¬ right.associatesWith (concat join left right) → Legible (concat join left right)
  | comma {left right : Node} : Legible left → Legible right → Legible (comma left right)
  | conditional {c t e : Node} : Legible c → Legible t → Legible e → Legible (conditional c t e)
  | assign {target value : Node} : target.isPlace → Legible target → Legible value →
      value.precedence ≤ Precedence.assignment → (assign target none value).compound? = none →
      Legible (assign target none value)
  | compound {target value : Node} {op : BinaryOp} : target.isPlace → Legible target → Legible value →
      value.precedence ≤ Precedence.assignment → op.isCompound → Legible (assign target (some op) value)

/-- No legible expression binds less tightly than a comma. -/
theorem Legible.precedence_le {n : Node} (h : Legible n) : n.precedence ≤ Precedence.comma := by
  cases h with
  | binary op => rw [precedence]; cases op <;> decide
  | _ => simp only [precedence]; decide

/-- The node is written, as an expression or followed by a semicolon, and read back. -/
def Readable (n : Node) : Prop :=
  ∃ ts, (∀ pos, n.tokens pos = .ok (pos.value ts)) ∧ Reads n (solid ts)

/-- An index is printed and read back, if there is one. -/
theorem readable_index {index : Option Node} (h : ∀ i ∈ index, i.Readable)
    (hindex : ∀ i ∈ index, i.precedence ≤ Precedence.comma) :
    ∃ is, indexTokens index = .ok is ∧ ReadsIndex index (solid is) := by
  cases index with
  | none => exact ⟨[], rfl, readsIndex_none⟩
  | some i =>
      obtain ⟨ts, hts, hreads⟩ := h i rfl
      refine ⟨"[" :: ts ++ ["]"], by rw [indexTokens, hts .expression]; rfl, ?_⟩
      simpa (disch := decide) only [List.cons_append, solid_cons, solid_append, solid_nil] using
        hreads.index (hindex i rfl)

/-- The arguments behind the first one. -/
theorem readable_rest {args : List Node} (h : ∀ a ∈ args, a.Readable)
    (hargs : ∀ a ∈ args, a.precedence ≤ Precedence.assignment) :
    ∃ rs as, restTokens args = .ok rs ∧ solid rs = (as.map ("," :: ·)).flatten ∧
      List.Forall₂ (fun a ts => Reads a ts ∧ a.precedence ≤ Precedence.assignment) args as := by
  induction args with
  | nil => exact ⟨[], [], rfl, rfl, .nil⟩
  | cons a args ih =>
      obtain ⟨hhead, htail⟩ := List.forall_mem_cons.mp h
      obtain ⟨ha, hargs⟩ := List.forall_mem_cons.mp hargs
      obtain ⟨ts, hts, hreads⟩ := hhead
      obtain ⟨rs, as, hrs, hsolid, hall⟩ := ih htail hargs
      refine ⟨"," :: " " :: ts ++ rs, solid ts :: as, by rw [restTokens, hts .expression, hrs]; rfl, ?_,
        .cons ⟨hreads, ha⟩ hall⟩
      simp (disch := decide) only [List.cons_append, solid_cons, solid_blank, solid_append, hsolid, List.map_cons,
        List.flatten_cons]

/-- All arguments. -/
theorem readable_arguments {args : List Node} (h : ∀ a ∈ args, a.Readable)
    (hargs : ∀ a ∈ args, a.precedence ≤ Precedence.assignment) :
    ∃ as, argumentTokens args = .ok as ∧ ReadsArguments args ("(" :: (solid as ++ [")"])) := by
  cases args with
  | nil => exact ⟨[], rfl, readsArguments_nil⟩
  | cons a args =>
      obtain ⟨hhead, htail⟩ := List.forall_mem_cons.mp h
      obtain ⟨ha, hargs⟩ := List.forall_mem_cons.mp hargs
      obtain ⟨ts, hts, hreads⟩ := hhead
      obtain ⟨rs, as, hrs, hsolid, hall⟩ := readable_rest htail hargs
      refine ⟨ts ++ rs, by rw [argumentTokens, hts .expression, hrs]; rfl, ?_⟩
      rw [solid_append, hsolid]
      exact readsArguments_cons hreads ha hall

/-- A call has its arguments in parentheses, however many they are. -/
theorem callTokens_eq (n : Node) (name : String) (nameSpace : Option String) {args : List Node}
    {as : List String} (h : argumentTokens args = .ok as) :
    callTokens n name nameSpace .function args = .ok (qualifier nameSpace ++ name :: "(" :: (as ++ [")"])) ∧
      callTokens n name nameSpace .parent args = .ok ("Parent" :: "::" :: name :: "(" :: (as ++ [")"])) := by
  cases args with
  | nil =>
      cases h
      exact ⟨rfl, rfl⟩
  | cons a args =>
      rw [argumentTokens] at h
      rw [callTokens, callTokens]
      cases ht : a.tokens .expression with
      | error e => rw [ht] at h; cases h
      | ok t =>
          cases hts : restTokens args with
          | error e => rw [ht, hts] at h; cases h
          | ok ts =>
              rw [ht, hts] at h
              cases h
              refine ⟨congrArg Except.ok ?_, congrArg Except.ok ?_⟩
              · simp
              · simp

/-- An operator stands between its operands, with white space that does not matter. -/
theorem tokens_between (d : Between) {left right : Node} {ls rs : List String}
    (hl : left.tokens .expression = .ok ls) (hr : right.tokens .expression = .ok rs) :
    ∃ ts, (∀ pos, (d.node left right).tokens pos = .ok (pos.value ts)) ∧
      solid ts = parens (wrapsLeft (d.node left right) left) (solid ls) ++
        d.token :: parens (wrapsRight (d.node left right) right) (solid rs) := by
  have hsolid := solid_cons (not_isBlank_between d)
  cases d with
  | comma =>
      refine ⟨_, fun pos => by rw [Between.node, tokens, hl, hr]; rfl, ?_⟩
      simp (disch := decide) only [solid_append, solid_parens, solid_cons, solid_blank, solid_nil,
        List.append_assoc, List.singleton_append]
      rfl
  | _ =>
      refine ⟨_, fun pos => by rw [Between.node, tokens, hl, hr]; rfl, ?_⟩
      simp only [Between.token] at hsolid
      simp (disch := decide) only [infixTokens, infixed, solid_append, solid_parens, hsolid,
        solid_blank, solid_nil, List.append_assoc, List.singleton_append]
      rfl

/-- Two operands and the operator between them, if no parentheses are left out on purpose. -/
theorem Readable.between (d : Between) {left right : Node} (hl : left.Readable)
    (hleft : left.precedence ≤ Precedence.comma) (hr : right.Readable)
    (hright : right.precedence ≤ Precedence.comma) (hassoc : ¬ right.associatesWith (d.node left right)) :
    (d.node left right).Readable := by
  obtain ⟨ls, hls, hl⟩ := hl
  obtain ⟨rs, hrs, hr⟩ := hr
  obtain ⟨ts, hts, hsolid⟩ := tokens_between d (hls .expression) (hrs .expression)
  exact ⟨ts, hts, hsolid ▸ hl.between d hleft hr hright hassoc⟩

/-- A plain assignment that has no other form. -/
theorem tokens_assign {target value : Node} {ts vs : List String}
    (hcompound : (assign target none value).compound? = none) (ht : target.tokens .expression = .ok ts)
    (hv : value.tokens .expression = .ok vs) (pos : Position) :
    (assign target none value).tokens pos = .ok (pos.value (ts ++ assignedTokens value vs)) := by
  cases value with
  | binary op left right =>
      rw [tokens] at hv
      rw [tokens]
      cases hl : left.tokens .expression with
      | error e => rw [hl] at hv; cases hv
      | ok ls =>
          cases hr : right.tokens .expression with
          | error e => rw [hl, hr] at hv; cases hv
          | ok rs =>
              rw [hl, hr] at hv
              cases hv
              have hplain : ¬ (op.isCompound && left == target) = true := by
                intro h
                rw [compound?, if_pos h] at hcompound
                cases hcompound
              rw [ht]
              show Except.ok (pos.value (ts ++ if _ then _ else _)) = _
              rw [if_neg hplain]
              rfl
  | _ =>
      rw [tokens, ht, hv]
      · rfl
      · nofun

/-- The only number one that is legible is a whole number. -/
theorem Legible.eq_of_isOne {n : Node} (h : Legible n) (hone : isOne n) : n = .constant (.uint 1) := by
  cases h with
  | @constant c hfloat hident =>
      cases c with
      | uint v => rw [beq_iff_eq.mp hone]
      | float x => exact absurd rfl (hfloat x)
      | _ => cases hone
  | _ => cases hone

/-- The right side of a compound assignment, unless it adds or subtracts one. -/
theorem compoundTokens_eq {op : BinaryOp} {value : Node} (h : isOne value → op ≠ .add ∧ op ≠ .sub)
    (vs : List String) : compoundTokens op value vs =
      [" ", op.token ++ "=", " "] ++ parens value.compound?.isSome vs := by
  unfold compoundTokens
  split
  · next hone => exact absurd rfl (h hone).1
  · next hone => exact absurd rfl (h hone).2
  · rfl

/-- A compound assignment, which adds or takes away one without naming it. -/
theorem reads_compound {target value : Node} {ts vs : List String} {op : BinaryOp}
    (h : Reads target ts) (hplace : target.isPlace) (hop : op.isCompound) (hvalue : Legible value)
    (hv : Reads value (solid vs)) (hsingle : value.precedence ≤ Precedence.assignment) :
    Reads (assign target (some op) value) (ts ++ solid (compoundTokens op value vs)) := by
  by_cases hstep : isOne value = true ∧ (op = .add ∨ op = .sub)
  · obtain ⟨hone, rfl | rfl⟩ := hstep
    · obtain rfl := hvalue.eq_of_isOne hone
      exact h.step hplace (by decide) (by decide)
    · obtain rfl := hvalue.eq_of_isOne hone
      exact h.step hplace (by decide) (by decide)
  · have htoken : op.token ++ "=" ≠ "[" ∧ op.token ++ "=" ≠ "(" ∧ isBlank (op.token ++ "=") = false := by
      cases op <;> decide
    rw [compoundTokens_eq fun hone => not_or.mp fun h => hstep ⟨hone, h⟩]
    simp (disch := first | decide | exact htoken.2.2) only [solid_append, solid_parens, solid_cons, solid_blank,
      solid_nil, List.singleton_append]
    exact h.assign hplace ⟨htoken.1, htoken.2.1⟩ (Operator.ofToken?_compound hop) hv hsingle _

/-- **Legible expressions are read back.** -/
theorem Legible.readable {n : Node} (h : Legible n) : n.Readable := by
  induction h with
  | constant hfloat hident =>
      obtain ⟨t, ht, hopen⟩ := opener?_literal hfloat hident
      refine ⟨[t], fun pos => by rw [tokens, ht]; rfl, ?_⟩
      rw [solid_opener hopen]
      exact .constant hopen
  | var hname hindex ih =>
      obtain ⟨is, his, hreads⟩ := readable_index ih fun i hi => (hindex i hi).precedence_le
      refine ⟨_ :: is, fun pos => by rw [tokens, his]; rfl, ?_⟩
      rw [solid_opener (opener?_variable hname)]
      exact .var hname hreads
  | field howner hname hindex iho ihi =>
      obtain ⟨os, hos, hreads⟩ := iho
      obtain ⟨is, his, hreads'⟩ := readable_index ihi fun i hi => (hindex i hi).precedence_le
      refine ⟨_, fun pos => by rw [tokens, hos .expression, his]; rfl, ?_⟩
      rw [solid_append, solid_parens, solid_cons (by decide),
        solid_opener (opener?_identifier hname)]
      exact hreads.field howner.precedence_le hname hreads'
  | @call name nameSpace args hname hnameSpace _ hsingle ih =>
      obtain ⟨as, has, hreads⟩ := readable_arguments ih hsingle
      refine ⟨_, fun pos => by rw [tokens, (callTokens_eq _ name nameSpace has).1]; rfl, ?_⟩
      cases nameSpace with
      | none =>
          simp (disch := decide) only [qualifier, List.nil_append,
            solid_opener (opener?_identifier hname), solid_cons, solid_append, solid_nil]
          exact .call hname hreads
      | some s =>
          simp (disch := decide) only [qualifier, List.cons_append, List.nil_append,
            solid_opener (opener?_identifier hname), solid_opener (opener?_identifier (hnameSpace s rfl)),
            solid_cons, solid_append, solid_nil]
          exact .call_qualified (hnameSpace s rfl) hname hreads
  | @method receiver name args hreceiver hname _ hsingle ihr iha =>
      obtain ⟨os, hos, hreads⟩ := ihr
      obtain ⟨as, has, hreads'⟩ := readable_arguments iha hsingle
      refine ⟨_, fun pos => by rw [tokens, callTokens, hos .expression]; simp only [has]; rfl, ?_⟩
      simp (disch := decide) only [solid_append, solid_parens, solid_cons,
        solid_opener (opener?_identifier hname), solid_nil, List.append_assoc, List.cons_append, List.nil_append]
      exact hreads.method hreceiver.precedence_le hname hreads'
  | @parent name args hname _ hsingle ih =>
      obtain ⟨as, has, hreads⟩ := readable_arguments ih hsingle
      refine ⟨_, fun pos => by rw [tokens, (callTokens_eq _ name none has).2]; rfl, ?_⟩
      simp (disch := decide) only [solid_opener (opener?_identifier hname), solid_cons,
        solid_append, solid_nil]
      exact .parent hname hreads
  | @unary op operand hoperand ih =>
      obtain ⟨xs, hxs, hreads⟩ := ih
      refine ⟨_, fun pos => by rw [tokens, hxs .expression]; rfl, ?_⟩
      rw [solid_opener (opener?_unary op), solid_parens]
      refine hreads.unary op hoperand.precedence_le fun hwrap => ?_
      simp only [wrapsOperand, Bool.or_eq_false_iff, decide_eq_false_iff_not] at hwrap
      exact Nat.not_lt.mp hwrap.1
  | binary op hl hr hassoc ihl ihr =>
      exact ihl.between (.binary op) hl.precedence_le ihr hr.precedence_le hassoc
  | compare op hl hr ihl ihr =>
      refine ihl.between (.compare op) hl.precedence_le ihr hr.precedence_le ?_
      cases hr <;> exact Bool.false_ne_true
  | concat join hl hr hassoc ihl ihr =>
      exact ihl.between (.concat join) hl.precedence_le ihr hr.precedence_le hassoc
  | comma hl hr ihl ihr =>
      refine ihl.between .comma hl.precedence_le ihr hr.precedence_le ?_
      cases hr <;> exact Bool.false_ne_true
  | conditional hc ht he ihc iht ihe =>
      obtain ⟨cs, hcs, hcondition⟩ := ihc
      obtain ⟨ts, hts, hthen⟩ := iht
      obtain ⟨es, hes, helse⟩ := ihe
      refine ⟨_, fun pos => by rw [tokens, hcs .expression, hts .expression, hes .expression]; rfl, ?_⟩
      simp (disch := decide) only [infixed, solid_append, solid_parens, solid_cons, solid_blank,
        solid_nil, List.append_assoc, List.singleton_append]
      exact hcondition.conditional hc.precedence_le hthen ht.precedence_le helse he.precedence_le
  | assign hplace _ _ hsingle hcompound iht ihv =>
      obtain ⟨ts, hts, htarget⟩ := iht
      obtain ⟨vs, hvs, hvalue⟩ := ihv
      refine ⟨_, tokens_assign hcompound (hts .expression) (hvs .expression), ?_⟩
      simp (disch := decide) only [assignedTokens, solid_append, solid_parens, solid_cons, solid_blank,
        solid_nil, List.singleton_append]
      exact htarget.assign hplace (by decide) (by decide) hvalue hsingle _
  | @compound target value op hplace _ hvalue hsingle hop iht ihv =>
      obtain ⟨ts, hts, htarget⟩ := iht
      obtain ⟨vs, hvs, hreads⟩ := ihv
      refine ⟨_, fun pos => by rw [tokens, hts .expression, hvs .expression]; rfl, ?_⟩
      rw [solid_append]
      exact reads_compound htarget hplace hop hvalue hreads hsingle

end Node

end TorqueScript
