import TorqueScript.Proofs.Regrouping

/-!
# Values of regrouped expressions

An `Interpretation` gives meanings to variables and operators; those that count as associative are
associative in it, and concatenation joins texts.  Grafting keeps the value if all operators that the left
operand passes on its way group with the one it comes from (`Interpretation.value_graft`).  One that binds as
tightly but does not group with it, as the remainder in `a * (b % c * d)`, takes the left operand for its
own.  An expression is `Node.regular` if this happens nowhere.

* `Source.readScript_value_iff`: an expression is read back with the same value under every interpretation
  exactly if it is regular.  That it must be is seen from a single interpretation, in which an operator that
  does not group counts its left operand twice (`Interpretation.doubling`): regrouping can only make values
  longer there.
* `Source.value_productOfRemainder`: that value, 2 in ordinary arithmetic, becomes 0.
-/

namespace TorqueScript

open Grammar Source

/-! ### Meaning -/

namespace Join

/-- What stands between the two texts that are joined. -/
def separator : Join → String
  | plain => ""
  | space => " "
  | tab => "\t"
  | newLine => "\n"

end Join

/-- Values for variables, numbers and operators.  Concatenation joins the texts of its operands. -/
structure Interpretation (α : Type) where
  var : String → α
  uint : UInt32 → α
  binary : BinaryOp → α → α → α
  compare : StringOp → α → α → α
  text : α → String
  ofText : String → α
  binary_assoc : ∀ op, op.isAssociative → ∀ a b c, binary op (binary op a b) c = binary op a (binary op b c)
  text_ofText : ∀ s, text (ofText s) = s

namespace Interpretation

variable {α : Type} (I : Interpretation α)

def concat (join : Join) (a b : α) : α :=
  I.ofText (I.text a ++ join.separator ++ I.text b)

/-- The value of an operator with its operands.  A list of indices has none. -/
def apply : Between → Option α → Option α → Option α
  | .binary op => Option.map₂ (I.binary op)
  | .compare op => Option.map₂ (I.compare op)
  | .concat join => Option.map₂ (I.concat join)
  | .comma => fun _ _ => none

/-- The value of what stands between operators. -/
def leafValue : Node → Option α
  | .var name none => some (I.var name)
  | .constant (.uint v) => some (I.uint v)
  | _ => none

/-- **The value of an expression.** -/
def value : Node → Option α :=
  Node.foldOperators I.leafValue fun d _ _ => I.apply d

/-- The value of a node is the operation applied to the values of its operands. -/
theorem value_node (d : Between) (l r : Node) : I.value (d.node l r) = I.apply d (I.value l) (I.value r) :=
  Node.foldOperators_node d l r

/-- Joining texts is associative, whatever stands between them. -/
theorem concat_assoc (j k : Join) (a b c : α) :
    I.concat k (I.concat j a b) c = I.concat j a (I.concat k b c) := by
  simp only [concat, I.text_ofText, String.append_assoc]

/-- Operators that group with each other are associative. -/
theorem apply_assoc {d e : Between} (h : e.groupsWith d) (x y z : Option α) :
    I.apply e (I.apply d x y) z = I.apply d x (I.apply e y z) := by
  obtain ⟨op, hop, rfl, rfl⟩ | ⟨j, k, rfl, rfl⟩ := Between.groupsWith_cases h
  · exact Option.map₂_assoc (I.binary_assoc op hop)
  · exact Option.map₂_assoc (I.concat_assoc j k)

/-- **Grafting keeps the value** if all operators on the way group with the one that is grafted. -/
theorem value_graft {d : Between} {n : Node} (left : Node) (hn : n.Formula) (h : n.uniform d) :
    I.value (graft d left n) = I.apply d (I.value left) (I.value n) := by
  induction hn with
  | @between e a b he ha hb iha _ =>
      by_cases hp : e.precedence = d.precedence
      · obtain ⟨hgroups, ha⟩ := Node.uniform_node.mp h hp
        rw [graft_node hp, value_node, iha ha, I.apply_assoc hgroups, value_node]
      · rw [graft_of_ne (.between he ha hb) (by rwa [Between.precedence_node]), value_node]
  | _ => exact I.value_node d left _

end Interpretation

namespace Node

/-- Operators that group have the same uniform expressions. -/
theorem uniform_congr {d e : Between} (h : e.groupsWith d) {n : Node} (hn : n.Formula) :
    n.uniform e ↔ n.uniform d := by
  induction hn with
  | between _ _ _ iha _ =>
      rw [uniform_node, uniform_node, Between.precedence_eq h, Between.groupsWith_congr h, iha]
  | _ => rfl

/-- The operators that an operand passes are those of the graft's two parts. -/
theorem uniform_graft {d e : Between} (hp : e.precedence = d.precedence) (left : Node) {n : Node}
    (hn : n.Formula) :
    (graft e left n).uniform d ↔ n.uniform d ∧ e.groupsWith d ∧ left.uniform d := by
  induction hn with
  | @between c a b hc ha hb iha _ =>
      by_cases hcp : c.precedence = e.precedence
      · rw [graft_node hcp, uniform_node, uniform_node, iha]
        have := hcp.trans hp
        tauto
      · have hne : ¬ c.precedence = d.precedence := hp ▸ hcp
        rw [graft_of_ne (.between hc ha hb) (by rwa [Between.precedence_node]), uniform_node, uniform_node]
        tauto
  | _ => exact uniform_node.trans ⟨fun h => ⟨rfl, h hp⟩, fun h _ => h.2⟩

/-- An expression is uniform if it is so after regrouping. -/
theorem uniform_regrouped {d : Between} {n : Node} (hn : n.Formula) (h : n.regrouped.uniform d) :
    n.uniform d := by
  induction hn with
  | @between e a b he ha hb iha _ =>
      refine uniform_node.mpr fun hp => ?_
      rw [regrouped_node] at h
      cases hwrap : wrapsRight (e.node a b) b with
      | true =>
          rw [hwrap] at h
          obtain ⟨hgroups, ha⟩ := uniform_node.mp h hp
          exact ⟨hgroups, iha ha⟩
      | false =>
          rw [hwrap] at h
          obtain ⟨-, hgroups, ha⟩ := (uniform_graft hp _ hb.regrouped).mp h
          exact ⟨hgroups, iha ha⟩
  | _ => rfl

/-- A regular expression stays uniform when it is regrouped. -/
theorem uniform_regrouped_of_regular {d : Between} {n : Node} (hn : n.Formula) (hregular : n.regular)
    (h : n.uniform d) : n.regrouped.uniform d := by
  induction hn generalizing d with
  | @between e a b he ha hb iha ihb =>
      obtain ⟨hrega, hregb, hbare⟩ := regular_node.mp hregular
      by_cases hp : e.precedence = d.precedence
      · obtain ⟨hgroups, hua⟩ := uniform_node.mp h hp
        rw [regrouped_node]
        cases hwrap : wrapsRight (e.node a b) b with
        | true => exact uniform_node.mpr fun _ => ⟨hgroups, iha hrega hua⟩
        | false =>
            have hub : b.regrouped.uniform d :=
              (uniform_congr hgroups hb.regrouped).mp (ihb hregb (hbare hwrap))
            exact (uniform_graft hp _ hb.regrouped).mpr ⟨hub, hgroups, iha hrega hua⟩
      · have hn : (e.node a b).Formula := .between he ha hb
        refine uniform_of_ne hn.regrouped ?_
        rwa [hn.precedence_regrouped, Between.precedence_node]
  | _ => rfl

end Node

namespace Interpretation

/-- **Regular expressions are read back with their value.** -/
theorem value_regrouped {α : Type} (I : Interpretation α) {n : Node} (hn : n.Formula) (h : n.regular) :
    I.value n.regrouped = I.value n := by
  induction hn with
  | @between d l r hd hl hr ihl ihr =>
      obtain ⟨hregl, hregr, hbare⟩ := Node.regular_node.mp h
      rw [Node.regrouped_node, value_node, ← ihl hregl, ← ihr hregr]
      cases hwrap : wrapsRight (d.node l r) r with
      | true => exact I.value_node d _ _
      | false => exact I.value_graft _ hr.regrouped (Node.uniform_regrouped_of_regular hr hregr (hbare hwrap))
  | _ => rfl

/-! ### Values that tell expressions apart -/

/-- Texts in which an operator that does not group counts its left operand twice. -/
def doubling : Interpretation String where
  var _ := "x"
  uint _ := "x"
  binary op a b := if op.isAssociative then a ++ b else a ++ a ++ b
  compare _ a b := a ++ a ++ b
  text := id
  ofText := id
  binary_assoc op h a b c := by simp only [h, if_true, String.append_assoc]
  text_ofText _ := rfl

end Interpretation

namespace Grammar.Between

/-- What an operator adds to the lengths of its operands. -/
def gap : Between → Nat
  | concat join => join.separator.length
  | _ => 0

/-- The length of an operator's value, by those of its operands. -/
def weigh (d : Between) (a b : Nat) : Nat :=
  (if d.groupsWith d then a else a + a) + d.gap + b

section Weigh

variable {d e : Between}

/-- Operators that bind as tightly as each other and group at all group with each other. -/
theorem groupsWith_of_precedence_eq (h : e.precedence = d.precedence) (hd : d.groupsWith d)
    (he : e.groupsWith e) : e.groupsWith d := by
  have hall : ∀ d ∈ all, ∀ e ∈ all, e.precedence = d.precedence → d.groupsWith d → e.groupsWith e →
      e.groupsWith d := by decide
  exact hall d d.mem_all e e.mem_all h hd he

/-- A heavier operand makes a heavier whole. -/
theorem weigh_mono {a a' b b' : Nat} (ha : a ≤ a') (hb : b ≤ b') : d.weigh a b ≤ d.weigh a' b' := by
  unfold weigh
  split <;> omega

/-- A whole is as heavy as before only if both operands are. -/
theorem eq_of_weigh_eq {a a' b b' : Nat} (ha : a ≤ a') (hb : b ≤ b') (h : d.weigh a' b' = d.weigh a b) :
    a' = a ∧ b' = b := by
  unfold weigh at h
  split at h <;> omega

/-- Operators that group weigh the same either way. -/
theorem weigh_assoc (h : e.groupsWith d) (x y z : Nat) :
    e.weigh (d.weigh x y) z = d.weigh x (e.weigh y z) := by
  have hd : d.groupsWith d := groupsWith_self h
  have he : e.groupsWith e := by rwa [groupsWith_congr h]
  simp only [weigh, hd, he, if_true]
  omega

/-- An operator that does not group with `d` counts twice what is grafted behind it. -/
theorem weigh_lt (hp : e.precedence = d.precedence) (hd : d.groupsWith d) (h : ¬ e.groupsWith d) {x : Nat}
    (hx : 0 < x) (y z : Nat) : d.weigh x (e.weigh y z) < e.weigh (d.weigh x y) z := by
  have he : ¬ e.groupsWith e := fun he => h (groupsWith_of_precedence_eq hp hd he)
  simp only [weigh, hd, he, if_true, if_false, Bool.false_eq_true]
  omega

end Weigh

end Grammar.Between

/-- Doubling gives texts of the length that is weighed. -/
theorem Interpretation.length_doubling {d : Between} (hd : d ≠ .comma) (a b : String) :
    ∃ s, doubling.apply d (some a) (some b) = some s ∧ s.length = d.weigh a.length b.length := by
  cases d with
  | binary op =>
      refine ⟨_, rfl, ?_⟩
      cases hop : op.isAssociative with
      | true => simp [doubling, Between.weigh, Between.groupsWith, Between.gap, hop]
      | false => simp [doubling, Between.weigh, Between.groupsWith, Between.gap, hop]
  | compare op => exact ⟨_, rfl, by simp [doubling, Between.weigh, Between.groupsWith, Between.gap]⟩
  | concat j => exact ⟨_, rfl, by simp [concat, doubling, Between.weigh, Between.groupsWith, Between.gap]⟩
  | comma => exact absurd rfl hd

namespace Node

/-- The length of an expression's value. -/
def weight : Node → Nat :=
  foldOperators (fun _ => 1) fun d _ _ => d.weigh

theorem weight_node (d : Between) (l r : Node) : (d.node l r).weight = d.weigh l.weight r.weight :=
  foldOperators_node d l r

/-- The value of a formula under doubling is as long as its weight. -/
theorem Formula.value_doubling {n : Node} (h : n.Formula) :
    ∃ s, Interpretation.doubling.value n = some s ∧ s.length = n.weight := by
  induction h with
  | @between d l r hd _ _ ihl ihr =>
      obtain ⟨a, ha, hla⟩ := ihl
      obtain ⟨b, hb, hlb⟩ := ihr
      rw [Interpretation.value_node, ha, hb, weight_node, ← hla, ← hlb]
      exact Interpretation.length_doubling hd a b
  | _ => exact ⟨"x", rfl, rfl⟩

theorem Formula.weight_pos {n : Node} (h : n.Formula) : 0 < n.weight := by
  induction h with
  | @between d l r _ _ _ ihl ihr =>
    rw [weight_node, Between.weigh]
    omega
  | _ => exact Nat.one_pos

/-- Grafting never makes a value shorter, and it makes it longer where an operator on the way does not
group. -/
theorem weight_graft {d : Between} (hd : d.groupsWith d) {left n : Node} (hleft : 0 < left.weight)
    (hn : n.Formula) : d.weigh left.weight n.weight ≤ (graft d left n).weight ∧
      ((graft d left n).weight = d.weigh left.weight n.weight → n.uniform d) := by
  induction hn with
  | @between e a b he ha hb iha _ =>
      by_cases hp : e.precedence = d.precedence
      · obtain ⟨hle, huniform⟩ := iha
        have hmono : e.weigh (d.weigh left.weight a.weight) b.weight ≤ e.weigh (graft d left a).weight b.weight :=
          Between.weigh_mono hle le_rfl
        rw [graft_node hp, weight_node, weight_node]
        by_cases hgroups : e.groupsWith d
        · rw [← Between.weigh_assoc hgroups]
          refine ⟨hmono, fun heq => uniform_node.mpr fun _ => ⟨hgroups, ?_⟩⟩
          exact huniform (Between.eq_of_weigh_eq hle le_rfl heq).1
        · have hlt := Between.weigh_lt hp hd hgroups hleft a.weight b.weight
          exact ⟨hlt.le.trans hmono, fun heq => absurd heq (hlt.trans_le hmono).ne'⟩
      · rw [graft_of_ne (.between he ha hb) (by rwa [Between.precedence_node]), weight_node d]
        exact ⟨le_rfl, fun _ => uniform_node.mpr (absurd · hp)⟩
  | _ => exact ⟨(weight_node d left _).ge, fun _ => rfl⟩

/-- A right operand that stands bare behind an operator of as tight a binding groups with it. -/
theorem groupsWith_of_bare {d : Between} {l r : Node} (hr : r.Formula)
    (hwrap : wrapsRight (d.node l r) r = false) (h : r.precedence = d.precedence) : d.groupsWith d := by
  cases hr with
  | @between e a b _ _ _ =>
      refine Between.groupsWith_self (e := e) ?_
      rw [Between.precedence_node] at h
      simpa [wrapsRight, h, Between.associatesWith_node] using hwrap
  | _ => exact absurd h (groups_between d).1.ne

/-- Attaching never makes an expression lighter, and keeps its weight only if an operand that stands bare is uniform. -/
theorem weight_attach {d : Between} {l r left : Node} (hr : r.Formula) (hleft : 0 < left.weight) :
    d.weigh left.weight r.regrouped.weight ≤
        (attach d (wrapsRight (d.node l r) r) left r.regrouped).weight ∧
      ((attach d (wrapsRight (d.node l r) r) left r.regrouped).weight =
        d.weigh left.weight r.regrouped.weight → wrapsRight (d.node l r) r = false → r.uniform d) := by
  cases hwrap : wrapsRight (d.node l r) r with
  | true => exact ⟨(weight_node d left _).ge, nofun⟩
  | false =>
      by_cases hp : r.precedence = d.precedence
      · obtain ⟨hle, huniform⟩ := weight_graft (groupsWith_of_bare hr hwrap hp) hleft hr.regrouped
        exact ⟨hle, fun heq _ => uniform_regrouped hr (huniform heq)⟩
      · have hgraft : graft d left r.regrouped = d.node left r.regrouped :=
          graft_of_ne hr.regrouped (by rwa [hr.precedence_regrouped]) left
        exact ⟨(hgraft ▸ weight_node d left _).ge, fun _ _ => uniform_of_ne hr hp⟩

/-- Regrouping never makes a value shorter, and it makes it longer unless the expression is regular. -/
theorem Formula.weight_regrouped {n : Node} (hn : n.Formula) :
    n.weight ≤ n.regrouped.weight ∧ (n.regrouped.weight = n.weight → n.regular) := by
  induction hn with
  | @between d l r hd hl hr ihl ihr =>
      obtain ⟨hle, huniform⟩ := weight_attach (d := d) (l := l) hr hl.regrouped.weight_pos
      have hmono : d.weigh l.weight r.weight ≤ d.weigh l.regrouped.weight r.regrouped.weight :=
        Between.weigh_mono ihl.1 ihr.1
      rw [regrouped_node, weight_node]
      refine ⟨hmono.trans hle, fun heq => ?_⟩
      -- nothing got longer on the way
      have hparts : d.weigh l.regrouped.weight r.regrouped.weight = d.weigh l.weight r.weight :=
        le_antisymm (heq ▸ hle) hmono
      obtain ⟨hlw, hrw⟩ := Between.eq_of_weigh_eq ihl.1 ihr.1 hparts
      exact regular_node.mpr ⟨ihl.2 hlw, ihr.2 hrw, huniform (heq.trans hparts.symm)⟩
  | _ => exact ⟨le_rfl, fun _ => rfl⟩

/-- **An expression that keeps its value under doubling is regular.** -/
theorem Formula.regular_of_value {n : Node} (hn : n.Formula)
    (h : Interpretation.doubling.value n.regrouped = Interpretation.doubling.value n) : n.regular := by
  obtain ⟨s, hs, hlength⟩ := hn.value_doubling
  obtain ⟨t, ht, hlength'⟩ := hn.regrouped.value_doubling
  rw [hs, ht] at h
  obtain rfl := Option.some.inj h
  exact hn.weight_regrouped.2 (hlength'.symm.trans hlength)

end Node

/-! ### Scripts -/

namespace Source

/-- A script of one expression is read back regrouped. -/
theorem readScript_regrouped {n : Node} (h : n.Formula) :
    ∃ ts, program [n] = .ok ts ∧ readScript (solid ts) = some [n.regrouped] := by
  obtain ⟨ts, hts, hreads⟩ := h.readsRegrouped
  have hstatement : ReadsStatements [n.regrouped] ((solid ts ++ [";"]) ++ []) :=
    (readsStatement_expression h.regrouped.isIf_eq hreads.reads.begins fun rest hrest =>
      hreads.reads.done h.regrouped.precedence_le_assignment hrest).cons readsStatements_nil
  obtain ⟨-, hread⟩ := hstatement [] fun _ ht => nomatch ht
  refine ⟨_, by rw [program, programTokens, hts .statement]; rfl, ?_⟩
  rw [List.append_nil, List.append_nil] at hread
  rw [solid_indented, solid_append, solid_statement, readScript, solid_nil, List.append_nil, hread]
  rfl

/-- **Parentheses that are left out.**  An expression is written and read back, and what is read has the
same value under every interpretation exactly if the expression is regular. -/
theorem readScript_value_iff {n : Node} (h : n.Formula) :
    ∃ ts m, program [n] = .ok ts ∧ readScript (solid ts) = some [m] ∧
      ((∀ (α : Type) (I : Interpretation α), I.value m = I.value n) ↔ n.regular) := by
  obtain ⟨ts, hts, hread⟩ := readScript_regrouped h
  refine ⟨ts, n.regrouped, hts, hread, fun hvalue => ?_, fun hregular α I => I.value_regrouped h hregular⟩
  exact h.regular_of_value (hvalue String .doubling)

/-- `%a + (%b + %c * 2) @ (%d SPC 1)`, written without any parentheses. -/
def labelledSum : Node :=
  .concat .plain
    (.binary .add (.var "%a" none)
      (.binary .add (.var "%b" none) (.binary .mul (.var "%c" none) (.constant (.uint 2)))))
    (.concat .space (.var "%d" none) (.constant (.uint 1)))

/-- A sum behind a label is read back with its value, though in other groups. -/
theorem readScript_value_labelledSum :
    labelledSum.Formula ∧ labelledSum.regular ∧
      ∃ ts m, program [labelledSum] = .ok ts ∧ readScript (solid ts) = some [m] ∧
        ∀ (α : Type) (I : Interpretation α), I.value m = I.value labelledSum := by
  have hproduct : (Node.binary .mul (.var "%c" none) (.constant (.uint 2))).Formula :=
    .between (d := .binary .mul) nofun (.var (by decide)) (.uint 2)
  have hsum : (Node.binary .add (.var "%a" none) (.binary .add (.var "%b" none)
      (.binary .mul (.var "%c" none) (.constant (.uint 2))))).Formula :=
    .between (d := .binary .add) nofun (.var (by decide))
      (.between (d := .binary .add) nofun (.var (by decide)) hproduct)
  have hlabel : (Node.concat .space (.var "%d" none) (.constant (.uint 1))).Formula :=
    .between (d := .concat .space) nofun (.var (by decide)) (.uint 1)
  have hformula : labelledSum.Formula := .between (d := .concat .plain) nofun hsum hlabel
  have hregular : labelledSum.regular := by decide
  obtain ⟨ts, m, hts, hread, hvalue⟩ := readScript_value_iff hformula
  exact ⟨hformula, hregular, ts, m, hts, hread, hvalue.mpr hregular⟩

end Source

/-! ### Arithmetic -/

namespace BinaryOp

/-- The operator on whole numbers; what is true is one. -/
def onNat : BinaryOp → Nat → Nat → Nat
  | equal, a, b => (a == b).toNat
  | greater, a, b => (decide (b < a)).toNat
  | greaterEqual, a, b => (decide (b ≤ a)).toNat
  | less, a, b => (decide (a < b)).toNat
  | lessEqual, a, b => (decide (a ≤ b)).toNat
  | notEqual, a, b => (a != b).toNat
  | xor, a, b => a ^^^ b
  | mod, a, b => a % b
  | bitAnd, a, b => a &&& b
  | bitOr, a, b => a ||| b
  | shr, a, b => a >>> b
  | shl, a, b => a <<< b
  | and, a, b => (a != 0 && b != 0).toNat
  | or, a, b => (a != 0 || b != 0).toNat
  | add, a, b => a + b
  | sub, a, b => a - b
  | mul, a, b => a * b
  | div, a, b => a / b

/-- The associative operators are associative on numbers. -/
theorem onNat_assoc {op : BinaryOp} (h : op.isAssociative) (a b c : Nat) :
    op.onNat (op.onNat a b) c = op.onNat a (op.onNat b c) := by
  cases op with
  | xor => exact Nat.xor_assoc a b c
  | bitAnd => exact Nat.and_assoc a b c
  | bitOr => exact Nat.or_assoc a b c
  | and => simp only [onNat]; cases h1 : a != 0 <;> cases h2 : b != 0 <;> cases h3 : c != 0 <;> simp_all
  | or => simp only [onNat]; cases h1 : a != 0 <;> cases h2 : b != 0 <;> cases h3 : c != 0 <;> simp_all
  | add => exact Nat.add_assoc a b c
  | mul => exact Nat.mul_assoc a b c
  | _ => cases h

end BinaryOp

namespace Interpretation

/-- The number that a text or a number stands for. -/
def number : Nat ⊕ String → Nat
  | .inl n => n
  | .inr s => s.toNat?.getD 0

/-- The text of a text or a number. -/
def written : Nat ⊕ String → String
  | .inl n => toString n
  | .inr s => s

/-- Values are numbers and texts, and each serves as the other. -/
def arithmetic (var : String → Nat) : Interpretation (Nat ⊕ String) where
  var name := .inl (var name)
  uint v := .inl v.toNat
  binary op a b := .inl (op.onNat (number a) (number b))
  compare op a b := .inl ((written a == written b) == (op == .equal)).toNat
  text := written
  ofText := .inr
  binary_assoc _ h a b c := congrArg Sum.inl (BinaryOp.onNat_assoc h (number a) (number b) (number c))
  text_ofText _ := rfl

end Interpretation

namespace Source

/-- `%a * (%b % %c * %d)`. -/
def productOfRemainder : Node :=
  .binary .mul (.var "%a" none)
    (.binary .mul (.binary .mod (.var "%b" none) (.var "%c" none)) (.var "%d" none))

/-- It is read back as `%a * %b % %c * %d`, and if the variables are 2, 3, 2 and 1, its value is 0 then
instead of 2. -/
theorem value_productOfRemainder :
    ∃ ts m, program [productOfRemainder] = .ok ts ∧ readScript (solid ts) = some [m] ∧
      ∃ var, (Interpretation.arithmetic var).value productOfRemainder = some (.inl 2) ∧
        (Interpretation.arithmetic var).value m = some (.inl 0) := by
  have hremainder : (Node.binary .mod (.var "%b" none) (.var "%c" none)).Formula :=
    .between (d := .binary .mod) nofun (.var (by decide)) (.var (by decide))
  have hformula : productOfRemainder.Formula :=
    .between (d := .binary .mul) nofun (.var (by decide))
      (.between (d := .binary .mul) nofun hremainder (.var (by decide)))
  obtain ⟨ts, hts, hread⟩ := readScript_regrouped hformula
  refine ⟨ts, _, hts, hread, fun name => if name = "%b" then 3 else if name = "%d" then 1 else 2, ?_, ?_⟩
  · decide
  · decide

end Source

end TorqueScript
