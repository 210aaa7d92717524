import Mathlib.Data.Option.NAry
import TorqueScript.Proofs.Script

/-!
# Parentheses that are left out

Printing leaves out the parentheses around a right operand that groups with its operator, `a + (b + c)`
being written `a + b + c`.  A reader groups such a run to the left, so what is read back is another tree.
This file says which tree it is.

The reader takes what stands in front of the operator into the right operand: behind the first operator of
as tight a binding that it meets there (`graft`).  Done everywhere in an expression that is
`Node.regrouped`, and `Node.Formula.readScript` says that this is the tree that is read.
-/

namespace TorqueScript

open Grammar Source

/-! ### Operators and their operands -/

namespace Node

/-- Goes through the operators at the top of an expression.  `operator` is given the operands and what has
been made of them, `other` what stands between the operators. -/
def foldOperators {β : Type} (other : Node → β) (operator : Between → Node → Node → β → β → β) : Node → β
  | binary op l r =>
    operator (.binary op) l r (foldOperators other operator l) (foldOperators other operator r)
  | compare op l r =>
    operator (.compare op) l r (foldOperators other operator l) (foldOperators other operator r)
  | concat join l r =>
    operator (.concat join) l r (foldOperators other operator l) (foldOperators other operator r)
  | comma l r => operator .comma l r (foldOperators other operator l) (foldOperators other operator r)
  | n => other n

/-- Folding over the operators of an expression sees the operator of a node between its operands. -/
theorem foldOperators_node {β : Type} {other : Node → β} {operator : Between → Node → Node → β → β → β}
    (d : Between) (l r : Node) : (d.node l r).foldOperators other operator =
      operator d l r (l.foldOperators other operator) (r.foldOperators other operator) := by
  cases d <;> rfl

/-- Variables and whole numbers, combined by operators between two operands. -/
inductive Formula : Node → Prop where
  | var {name : String} : isVariable name → Formula (var name none)
  | uint (v : UInt32) : Formula (constant (.uint v))
  | between {d : Between} {l r : Node} : d ≠ .comma → Formula l → Formula r → Formula (d.node l r)

end Node

namespace Grammar

namespace Between

/-- Operators that group either way. -/
def groupsWith : Between → Between → Bool
  | concat _, concat _ => true
  | binary a, binary b => a == b && a.isAssociative
  | _, _ => false

/-- Whether the parent groups a right operand depends on the two operators. -/
theorem associatesWith_node (d e : Between) (l r a b : Node) :
    (e.node a b).associatesWith (d.node l r) = e.groupsWith d := by
  cases d <;> cases e <;> rfl

/-- Only an associative operator and itself, and two concatenations, group with each other. -/
theorem groupsWith_cases {d e : Between} (h : e.groupsWith d) :
    (∃ op, op.isAssociative ∧ d = binary op ∧ e = binary op) ∨ ∃ j k, d = concat j ∧ e = concat k := by
  cases d with
  | binary op =>
      cases e with
      | binary op' =>
          obtain ⟨rfl, hop⟩ : op' = op ∧ op'.isAssociative = true := by simpa [groupsWith] using h
          exact .inl ⟨op', hop, rfl, rfl⟩
      | _ => cases h
  | concat j =>
      cases e with
      | concat k => exact .inr ⟨j, k, rfl, rfl⟩
      | _ => cases h
  | _ => cases e <;> cases h

/-- An operator that groups with another groups with itself. -/
theorem groupsWith_self {d e : Between} (h : e.groupsWith d) : d.groupsWith d := by
  obtain ⟨op, hop, rfl, rfl⟩ | ⟨j, k, rfl, rfl⟩ := groupsWith_cases h
  · exact h
  · rfl

/-- Operators that group with each other group with the same ones. -/
theorem groupsWith_congr {d e : Between} (h : e.groupsWith d) (c : Between) :
    c.groupsWith e = c.groupsWith d := by
  obtain ⟨op, hop, rfl, rfl⟩ | ⟨j, k, rfl, rfl⟩ := groupsWith_cases h
  · rfl
  · cases c <;> rfl

/-- Operators that group have one precedence. -/
theorem precedence_eq {d e : Between} (h : e.groupsWith d) : e.precedence = d.precedence := by
  obtain ⟨op, hop, rfl, rfl⟩ | ⟨j, k, rfl, rfl⟩ := groupsWith_cases h
  · rfl
  · rfl

end Between

/-- The tree that is read from `left`, an operator and an operand without parentheses. -/
def graft (d : Between) (left : Node) : Node → Node :=
  Node.foldOperators (d.node left) fun e a b grafted _ =>
    if e.precedence = d.precedence then e.node grafted b else d.node left (e.node a b)

/-- The tree that is read from `left`, an operator and an operand with or without parentheses. -/
def attach (d : Between) (wrap : Bool) (left right : Node) : Node :=
  if wrap then d.node left right else graft d left right

section Graft

variable {d e : Between} {left n : Node}

/-- Grafting goes down the left side while the precedence stays. -/
theorem graft_node (h : e.precedence = d.precedence) (left a b : Node) :
    graft d left (e.node a b) = e.node (graft d left a) b := by
  rw [graft, Node.foldOperators_node, if_pos h]

/-- It stops where the precedence changes. -/
theorem graft_of_ne (hn : n.Formula) (h : n.precedence ≠ d.precedence) (left : Node) :
    graft d left n = d.node left n := by
  cases hn with
  | between =>
      rw [Between.precedence_node] at h
      rw [graft, Node.foldOperators_node, if_neg h]
  | _ => rfl

/-- A grafted operand has the precedence of the operator. -/
theorem precedence_graft (hn : n.Formula) : (graft d left n).precedence = d.precedence := by
  by_cases h : n.precedence = d.precedence
  · cases hn with
    | between =>
        rw [Between.precedence_node] at h
        rw [graft_node h, Between.precedence_node, h]
    | _ => exact absurd h (groups_between d).1.ne
  · rw [graft_of_ne hn h, Between.precedence_node]

/-- Grafting goes to the first operand, wherever that comes from. -/
theorem graft_graft (h : e.precedence = d.precedence) (left a : Node) (hn : n.Formula) :
    graft d left (graft e a n) = graft e (graft d left a) n := by
  induction hn with
  | @between c x y _ hx hy ihx _ =>
      by_cases hc : c.precedence = e.precedence
      · rw [graft_node hc, graft_node (hc.trans h), ihx, graft_node hc]
      · have hne : (c.node x y).precedence ≠ e.precedence := by rwa [Between.precedence_node]
        rw [graft_of_ne (.between ‹_› hx hy) hne, graft_of_ne (.between ‹_› hx hy) hne, graft_node h]
  | _ => exact graft_node h _ _ _

/-- Grafting and attaching may be exchanged. -/
theorem graft_attach (h : e.precedence = d.precedence) (left a : Node) (hn : n.Formula) (wrap : Bool) :
    graft d left (attach e wrap a n) = attach e wrap (graft d left a) n := by
  cases wrap with
  | true => exact graft_node h left a n
  | false => exact graft_graft h left a hn

/-- A grafted formula is a formula. -/
theorem formula_graft (hd : d ≠ .comma) (hl : left.Formula) (hn : n.Formula) : (graft d left n).Formula := by
  induction hn with
  | @between c x y hc hx hy ihx _ =>
      by_cases h : c.precedence = d.precedence
      · rw [graft_node h]
        exact .between hc ihx hy
      · rw [graft_of_ne (.between hc hx hy) (by rwa [Between.precedence_node])]
        exact .between hd hl (.between hc hx hy)
  | var hname => exact .between hd hl (.var hname)
  | uint v => exact .between hd hl (.uint v)

/-- So is an attached one. -/
theorem formula_attach (hd : d ≠ .comma) (hl : left.Formula) (hn : n.Formula) (wrap : Bool) :
    (attach d wrap left n).Formula := by
  cases wrap with
  | true => exact .between hd hl hn
  | false => exact formula_graft hd hl hn

/-- An attached operand has the precedence of the operator. -/
theorem precedence_attach (hn : n.Formula) (wrap : Bool) :
    (attach d wrap left n).precedence = d.precedence := by
  cases wrap with
  | true => exact Between.precedence_node d left n
  | false => exact precedence_graft hn

end Graft

end Grammar

namespace Node

/-- **The tree that is read back** from an expression. -/
def regrouped : Node → Node :=
  foldOperators id fun d l r left right => attach d (wrapsRight (d.node l r) r) left right

/-- No operator that binds as tightly as `d` stands at the left end of the expression and does not group
with it. -/
def uniform (d : Between) : Node → Bool :=
  foldOperators (fun _ => true) fun e _ _ left _ =>
    e.precedence != d.precedence || (e.groupsWith d && left)

/-- No operand without parentheses is taken apart by the operator in front of it. -/
def regular : Node → Bool :=
  foldOperators (fun _ => true) fun d l r left right =>
    left && right && (wrapsRight (d.node l r) r || uniform d r)

/-- A node is regrouped by attaching the regrouped operands. -/
theorem regrouped_node (d : Between) (l r : Node) : (d.node l r).regrouped =
    attach d (wrapsRight (d.node l r) r) l.regrouped r.regrouped :=
  foldOperators_node d l r

/-- Being uniform for an operator concerns the operators of its precedence only. -/
theorem uniform_node {d e : Between} {a b : Node} : (e.node a b).uniform d ↔
    (e.precedence = d.precedence → e.groupsWith d ∧ a.uniform d) := by
  have h : (e.node a b).uniform d =
      (e.precedence != d.precedence || (e.groupsWith d && a.uniform d)) := foldOperators_node e a b
  rw [h, Bool.or_eq_true, Bool.and_eq_true, bne_iff_ne, imp_iff_not_or]

/-- An expression of another precedence is uniform. -/
theorem uniform_of_ne {d : Between} {n : Node} (hn : n.Formula) (h : n.precedence ≠ d.precedence) :
    n.uniform d := by
  cases hn with
  | between => exact uniform_node.mpr fun he => absurd he (by rwa [Between.precedence_node] at h)
  | _ => rfl

/-- A node is regular if its operands are and a bare right operand is uniform. -/
theorem regular_node {d : Between} {l r : Node} : (d.node l r).regular ↔
    l.regular ∧ r.regular ∧ (wrapsRight (d.node l r) r = false → r.uniform d) := by
  have h : (d.node l r).regular =
      (l.regular && r.regular && (wrapsRight (d.node l r) r || r.uniform d)) := foldOperators_node d l r
  rw [h, Bool.and_eq_true, Bool.and_eq_true, and_assoc, Bool.or_eq_true, ← Bool.not_eq_true, imp_iff_not_or,
    not_not]

/-- Regrouping keeps formulas. -/
theorem Formula.regrouped {n : Node} (h : n.Formula) : n.regrouped.Formula := by
  induction h with
  | var hname => exact .var hname
  | uint v => exact .uint v
  | between hd _ _ ihl ihr =>
      rw [regrouped_node]
      exact formula_attach hd ihl ihr _

/-- Regrouping keeps the precedence. -/
theorem Formula.precedence_regrouped {n : Node} (h : n.Formula) : n.regrouped.precedence = n.precedence := by
  cases h with
  | between _ _ hr => rw [regrouped_node, precedence_attach hr.regrouped, Between.precedence_node]
  | _ => rfl

theorem Formula.precedence_le_assignment {n : Node} (h : n.Formula) :
    n.precedence ≤ Precedence.assignment := by
  cases h with
  | @between d _ _ hd =>
      have hall : ∀ d ∈ Between.all, d ≠ .comma → d.precedence ≤ Precedence.assignment := by decide
      rw [Between.precedence_node]
      exact hall d d.mem_all hd
  | _ => exact Nat.zero_le _

theorem Formula.precedence_le {n : Node} (h : n.Formula) : n.precedence ≤ Precedence.comma :=
  h.precedence_le_assignment.trans (by decide)

/-- A formula is no conditional expression. -/
theorem Formula.isIf_eq {n : Node} (h : n.Formula) : n.isIf = false := by
  cases h with
  | @between d => cases d <;> rfl
  | _ => rfl

/-- A formula reaches as far as its own precedence. -/
theorem Formula.reach_eq {n : Node} (h : n.Formula) : reach n = n.precedence - 1 := by
  cases h with
  | @between d l r => rw [reach_between, Between.precedence_node]
  | _ => rfl

end Node

/-! ### Reading -/

namespace Grammar

/-- The tokens are read as the regrouped expression, at the beginning or behind an operator. -/
structure ReadsRegrouped (n : Node) (ts : List String) : Prop where
  reads : Reads n.regrouped ts
  follows {d : Between} {floor limit : Nat} {before : Node} {rest : List String} :
    n.precedence ≤ d.precedence → floor ≤ d.precedence → d.precedence ≤ limit →
    Clear (d.precedence - 1) rest →
    climb floor limit before (d.token :: (ts ++ rest)) =
      climb d.precedence limit (graft d before n.regrouped) rest

section Reading

variable {d : Between} {n l r before : Node} {ts ls rs rest : List String} {floor limit : Nat}

/-- Behind an operator that binds less tightly, or in parentheses, an operand is read as a whole. -/
theorem climb_operand (wrap : Bool) (hn : n.Formula) (h : Reads n ts) (hne : n.precedence ≠ d.precedence)
    (hwrap : wrap = false → n.precedence ≤ d.precedence) (hfloor : floor ≤ d.precedence)
    (hlimit : d.precedence ≤ limit) (hrest : Clear (d.precedence - 1) rest) :
    climb floor limit before (d.token :: (parens wrap ts ++ rest)) =
      climb d.precedence limit (graft d before n) rest := by
  have hbare : wrap = false → n.precedence ≤ d.precedence - 1 := fun hw => by
    have := hwrap hw
    omega
  rw [climb_between hfloor hlimit (h.operand_done hn.precedence_le hbare hrest), graft_of_ne hn hne]

/-- An operator and its right operand. -/
theorem ReadsRegrouped.right (h : ReadsRegrouped r rs) (hr : r.Formula) (l : Node)
    (hfloor : floor ≤ d.precedence) (hlimit : d.precedence ≤ limit) (hrest : Clear (d.precedence - 1) rest) :
    climb floor limit before (d.token :: (parens (wrapsRight (d.node l r) r) rs ++ rest)) =
      climb d.precedence limit (attach d (wrapsRight (d.node l r) r) before r.regrouped) rest := by
  cases hwrap : wrapsRight (d.node l r) r with
  | true =>
      have hgroup : read (d.precedence - 1) (parens true rs ++ rest) = some (r.regrouped, rest) :=
        h.reads.operand_done hr.regrouped.precedence_le (absurd · Bool.false_ne_true.symm) hrest
      exact climb_between hfloor hlimit hgroup before
  | false =>
      have hle : r.precedence ≤ d.precedence := by
        simp only [wrapsRight, Between.precedence_node, Bool.or_eq_false_iff, decide_eq_false_iff_not] at hwrap
        exact Nat.not_lt.mp hwrap.1
      exact h.follows hle hfloor hlimit hrest

/-- The left operand of an operator, behind another one that binds as tightly. -/
theorem ReadsRegrouped.left (h : ReadsRegrouped l ls) (hl : l.Formula) {e : Between} (r : Node)
    (he : e.precedence = d.precedence) (hfloor : floor ≤ d.precedence) (hlimit : d.precedence ≤ limit)
    (hrest : Clear (d.precedence - 1) rest) :
    climb floor limit before (d.token :: (parens (wrapsLeft (e.node l r) l) ls ++ rest)) =
      climb d.precedence limit (graft d before l.regrouped) rest := by
  cases hwrap : wrapsLeft (e.node l r) l with
  | true =>
      have hlt : d.precedence < l.precedence := by simpa [wrapsLeft, he] using hwrap
      refine climb_operand true hl.regrouped h.reads ?_ (absurd · Bool.false_ne_true.symm) hfloor hlimit hrest
      rw [hl.precedence_regrouped]
      exact hlt.ne'
  | false =>
      have hle : l.precedence ≤ d.precedence := by simpa [wrapsLeft, he] using hwrap
      exact h.follows hle hfloor hlimit hrest

/-- What binds more tightly than every operator stays as it is. -/
theorem readsRegrouped_leaf (hn : n.Formula) (hleaf : n.precedence = Precedence.primary)
    (hregrouped : n.regrouped = n) (h : Reads n ts) : ReadsRegrouped n ts := by
  refine ⟨by rwa [hregrouped], fun {d _ _ _ _} hle hfloor hlimit hrest => ?_⟩
  have hne : n.precedence ≠ d.precedence := by
    rw [hleaf]
    exact (groups_between d).1.ne
  rw [hregrouped]
  exact climb_operand false hn h hne (fun _ => hle) hfloor hlimit hrest

/-- **An operator between two operands is read as the regrouped node.** -/
theorem reads_regrouped_node (hn : (d.node l r).Formula) (hl : l.Formula) (hreadl : ReadsRegrouped l ls) (hr : r.Formula)
    (hreadr : ReadsRegrouped r rs) : Reads (d.node l r).regrouped
      (parens (wrapsLeft (d.node l r) l) ls ++ d.token :: parens (wrapsRight (d.node l r) r) rs) := by
  obtain ⟨hpos, hgroups⟩ := groups_between d
  have hprecedence : (d.node l r).regrouped.precedence = d.precedence := by
    rw [hn.precedence_regrouped, Between.precedence_node]
  refine ⟨begins_append (begins_parens _ hreadl.reads.begins) _, fun {limit rest} hlimit hrest => ?_⟩
  rw [hn.regrouped.reach_eq, hprecedence] at hrest
  rw [hprecedence] at hlimit ⊢
  have hbare : wrapsLeft (d.node l r) l = false → l.regrouped.precedence ≤ d.precedence := by
    rw [hl.precedence_regrouped]
    intro hwrap
    simpa [wrapsLeft] using hwrap
  rw [List.append_assoc, List.cons_append, hreadl.reads.operand hl.regrouped.precedence_le fun hwrap =>
    ⟨(hbare hwrap).trans hlimit, clear_between (reach_lt (hbare hwrap) hpos hgroups) _⟩,
    hreadr.right hr l ?_ hlimit hrest, Node.regrouped_node]
  split
  · exact Nat.zero_le _
  · next hwrap => exact hbare (Bool.not_eq_true _ |>.mp hwrap)

/-- **An operator between its operands** is read back, with the operands that stand bare regrouped. -/
theorem ReadsRegrouped.node (hn : (d.node l r).Formula) (hl : l.Formula) (hreadl : ReadsRegrouped l ls)
    (hr : r.Formula) (hreadr : ReadsRegrouped r rs) :
    ReadsRegrouped (d.node l r) (parens (wrapsLeft (d.node l r) l) ls ++
      d.token :: parens (wrapsRight (d.node l r) r) rs) := by
  have hreads := reads_regrouped_node hn hl hreadl hr hreadr
  refine ⟨hreads, fun {c floor limit before rest} hle hfloor hlimit hrest => ?_⟩
  rw [Between.precedence_node] at hle
  rcases Nat.lt_or_eq_of_le hle with hlt | heq
  · -- an operator that binds less tightly takes the whole expression
    have hprecedence : (d.node l r).regrouped.precedence = d.precedence := by
      rw [hn.precedence_regrouped, Between.precedence_node]
    exact climb_operand false hn.regrouped hreads (by omega) (fun _ => by omega) hfloor hlimit hrest
  · -- one that binds as tightly takes the first operand, and the rest is read behind it
    have hpos : c.precedence - 1 < d.precedence := by
      have := (groups_between c).1
      omega
    rw [List.append_assoc, List.cons_append, hreadl.left hl r heq hfloor hlimit (clear_between hpos _),
      Node.regrouped_node, graft_attach heq _ _ hr.regrouped, ← heq]
    rw [← heq] at hlimit hrest
    exact hreadr.right hr l le_rfl hlimit hrest

end Reading

end Grammar

namespace Node

/-- Expressions are written, and read back regrouped. -/
theorem Formula.readsRegrouped {n : Node} (h : n.Formula) :
    ∃ ts, (∀ pos, n.tokens pos = .ok (pos.value ts)) ∧ ReadsRegrouped n (solid ts) := by
  induction h with
  | @var name hname =>
      refine ⟨[name], fun pos => by rw [tokens]; rfl, ?_⟩
      rw [solid_opener (opener?_variable hname)]
      exact readsRegrouped_leaf (.var hname) rfl rfl (.var hname readsIndex_none)
  | uint v =>
      have hopen := opener?_uint v
      refine ⟨[toString v.toNat], fun pos => by rw [tokens]; rfl, ?_⟩
      rw [solid_opener hopen]
      exact readsRegrouped_leaf (.uint v) rfl rfl (.constant hopen)
  | @between d l r hd hl hr ihl ihr =>
      obtain ⟨ls, hls, hreadl⟩ := ihl
      obtain ⟨rs, hrs, hreadr⟩ := ihr
      obtain ⟨ts, hts, hsolid⟩ := tokens_between d (hls .expression) (hrs .expression)
      exact ⟨ts, hts, hsolid ▸ hreadl.node (.between hd hl hr) hl hr hreadr⟩

end Node

end TorqueScript
