import TorqueScript.Proofs.Structured
import TorqueScript.Proofs.Values

/-!
# Stages of decompiling

A rebuilt tree is printed unless it holds a number that has no literal.  `Prints x F` says this of the
tokens `x` of a piece of a tree in which the numbers with the property `F` occur: the piece is printed and
all of them are finite, or one that is not is told.  A printable node is printed in this sense
(`Node.prints_tokens`), by induction over the nodes below it, and with it every script (`Source.prints_program`).

What a computation returns does not depend on the log in front of it (`Logged.Steady`).  So the results of
the stages follow each other, and the three forms of output share the stages that they have in common.

**Stages** (`decompile_stages`).  Printing what has been rebuilt fails exactly for a number that is not
finite.  Hence a file has source text if and only if it has a tree without such a number, a file without a
tree has no source text for the same reason, and a file without a listing has neither.
-/

namespace TorqueScript

namespace Node

/-! ### Numbers in a tree -/

/-- The number occurs in the node. -/
def HasFloat (n : Node) (v : Binary64) : Prop :=
  constant (.float v) ∈ n.subnodes

/-- A number occurs in a node that is that number and in a node with a child it occurs in. -/
theorem hasFloat_iff {n : Node} {v : Binary64} :
    n.HasFloat v ↔ n = constant (.float v) ∨ ∃ c ∈ n.children, c.HasFloat v := by
  rw [HasFloat, mem_subnodes, eq_comm]
  rfl

/-- The children of a node are smaller than the node, which is what the induction on children rests on. -/
theorem sizeOf_lt_of_mem_children {n c : Node} (h : c ∈ n.children) : sizeOf c < sizeOf n := by
  have hlist : ∀ {l : List Node}, c ∈ l → sizeOf c < sizeOf l := List.sizeOf_lt_of_mem
  have hoption : ∀ {o : Option Node}, c ∈ o → sizeOf c < sizeOf o := by
    rintro _ ⟨⟩
    simp
  cases n <;> simp [children] at h <;> grind

/-- What holds of a node if it holds of its children holds of all nodes. -/
theorem childrenInduction {P : Node → Prop} (h : ∀ n, (∀ c ∈ n.children, P c) → P n) (n : Node) : P n :=
  h n fun c _ => childrenInduction h c
  termination_by sizeOf n
  decreasing_by exact sizeOf_lt_of_mem_children ‹_›

end Node

/-! ### Printing with failures -/

/-- The computation succeeds and all numbers with the property are finite, or it fails because of one that
is not. -/
def Prints {α : Type} (x : Except Error α) (F : Binary64 → Prop) : Prop :=
  match x with
  | .ok _ => ∀ v, F v → v.isFinite = true
  | .error e => ∃ v, F v ∧ v.isFinite = false ∧ e = .nonFiniteFloat v

namespace Prints

variable {α β γ : Type} {x : Except Error α} {y : Except Error β} {F G : Binary64 → Prop}

theorem pure (a : α) : Prints (Pure.pure a : Except Error α) fun _ => False :=
  nofun

/-- A failure comes from the first part or from the rest, so the numbers at fault are those of both. -/
theorem bind {f : α → Except Error β} (hx : Prints x F) (hf : ∀ a, Prints (f a) G) :
    Prints (x >>= f) fun v => F v ∨ G v := by
  cases x with
  | error e =>
      obtain ⟨v, hv, hfinite, rfl⟩ := hx
      exact ⟨v, .inl hv, hfinite, rfl⟩
  | ok a =>
      have hfa := hf a
      show Prints (f a) _
      cases hb : f a with
      | error e =>
          rw [hb] at hfa
          obtain ⟨v, hv, hfinite, rfl⟩ := hfa
          exact ⟨v, .inr hv, hfinite, rfl⟩
      | ok b =>
          rw [hb] at hfa
          exact fun v hv => hv.elim (hx v) (hfa v)

/-- Only the extension of the numbers at fault matters. -/
theorem congr (h : Prints x F) (hFG : ∀ v, F v ↔ G v) : Prints x G := by
  obtain rfl : F = G := funext fun v => propext (hFG v)
  exact h

/-- **Printing succeeds exactly if every number at fault is finite.** -/
theorem ok_iff (h : Prints x F) : (∃ a, x = .ok a) ↔ ∀ v, F v → v.isFinite = true := by
  cases x with
  | ok a => exact ⟨fun _ => h, fun _ => ⟨a, rfl⟩⟩
  | error e =>
      obtain ⟨v, hv, hfinite, -⟩ := h
      refine ⟨nofun, fun hall => ?_⟩
      rw [hall v hv] at hfinite
      cases hfinite

/-- Printing fails on a number exactly if one of the numbers at fault is not finite. -/
theorem error_iff (h : Prints x F) :
    (∃ v, x = .error (.nonFiniteFloat v)) ↔ ¬ ∀ v, F v → v.isFinite = true := by
  cases x with
  | ok a => exact ⟨nofun, fun hall => absurd h hall⟩
  | error e =>
      obtain ⟨v, hv, hfinite, rfl⟩ := h
      refine ⟨fun _ hall => ?_, fun _ => ⟨v, rfl⟩⟩
      rw [hall v hv] at hfinite
      cases hfinite

/-- Printing never fails on a statement that stands in an expression. -/
theorem ne_statementInExpression (h : Prints x F) (kind : String) : x ≠ .error (.statementInExpression kind) := by
  rintro rfl
  obtain ⟨v, -, -, ⟨⟩⟩ := h

/-- What is made of two results does not matter. -/
theorem remap {f g : α → β → γ} (h : Prints (x >>= fun a => y >>= fun b => Pure.pure (f a b)) F) :
    Prints (x >>= fun a => y >>= fun b => Pure.pure (g a b)) F := by
  cases x with
  | error e => exact h
  | ok a =>
      cases y with
      | error e => exact h
      | ok b => exact h

end Prints

namespace Node

open Source

variable {ns : List Node} {o : Option Node}

/-! ### Printing nodes -/

/-- A literal fails on the number it writes alone. -/
theorem prints_literal (c : Constant) : Prints (literal c) (constant c).HasFloat := by
  cases c with
  | float x =>
      rw [literal]
      split
      · next h => exact fun v hv => by cases List.mem_singleton.mp hv; exact h
      · next h => exact ⟨x, List.mem_singleton.mpr rfl, by simpa using h, rfl⟩
  | _ => exact fun v hv => nomatch List.mem_singleton.mp hv

/-- Keeping statements out of expressions costs nothing where none stands in one. -/
theorem prints_only {pos : Position} {n : Node} {x : Except Error (List String)} {F : Binary64 → Prop}
    (h : Prints x F) (hpos : pos = .expression → n.isStatement = false) (hn : n.isStatement = true) :
    Prints (pos.only n x) F := by
  cases pos with
  | statement => exact h
  | expression => rw [hpos rfl] at hn; cases hn

/-- An optional node contributes the numbers of the node that is there. -/
theorem prints_optionTokens (h : ∀ n ∈ o, Prints (n.tokens .expression) n.HasFloat) :
    Prints (optionTokens o) fun v => ∃ n ∈ o, n.HasFloat v := by
  cases o with
  | none => exact (Prints.pure _).congr (by simp)
  | some n => exact (h n rfl).congr (by simp)

theorem prints_nameTokens (h : ∀ n ∈ o, Prints (n.tokens .expression) n.HasFloat) :
    Prints (nameTokens o) fun v => ∃ n ∈ o, n.HasFloat v := by
  cases o with
  | none => exact (Prints.pure _).congr (by simp)
  | some n =>
      refine ((h n rfl).bind (G := fun _ => False) fun ts => ?_).congr (by simp)
      split <;> exact .pure _

theorem prints_indexTokens (h : ∀ n ∈ o, Prints (n.tokens .expression) n.HasFloat) :
    Prints (indexTokens o) fun v => ∃ n ∈ o, n.HasFloat v := by
  cases o with
  | none => exact (Prints.pure _).congr (by simp)
  | some n => exact ((h n rfl).bind fun _ => .pure _).congr (by simp)

/-- The statements of a block contribute the numbers of each statement. -/
theorem prints_statementTokens (h : ∀ n ∈ ns, Prints (n.tokens .statement) n.HasFloat) :
    Prints (statementTokens ns) fun v => ∃ n ∈ ns, n.HasFloat v := by
  induction ns with
  | nil => exact (Prints.pure _).congr (by simp)
  | cons n ns ih =>
      obtain ⟨hn, hns⟩ := List.forall_mem_cons.mp h
      exact (hn.bind fun _ => (ih hns).bind fun _ => .pure _).congr (by simp)

theorem prints_elseTokens (h : ∀ n ∈ ns, Prints (n.tokens .statement) n.HasFloat) :
    Prints (elseTokens ns) fun v => ∃ n ∈ ns, n.HasFloat v := by
  cases ns with
  | nil => exact (Prints.pure _).congr (by simp)
  | cons n ns =>
      obtain ⟨hn, hns⟩ := List.forall_mem_cons.mp h
      exact (hn.bind fun _ => (prints_statementTokens hns).bind fun _ => .pure _).congr (by simp)

theorem prints_packageTokens (h : ∀ n ∈ ns, Prints (n.tokens .statement) n.HasFloat) :
    Prints (packageTokens ns) fun v => ∃ n ∈ ns, n.HasFloat v := by
  induction ns with
  | nil => exact (Prints.pure _).congr (by simp)
  | cons n ns ih =>
      obtain ⟨hn, hns⟩ := List.forall_mem_cons.mp h
      exact (hn.bind fun _ => (ih hns).bind fun _ => .pure _).congr (by simp)

theorem prints_restTokens (h : ∀ n ∈ ns, Prints (n.tokens .expression) n.HasFloat) :
    Prints (restTokens ns) fun v => ∃ n ∈ ns, n.HasFloat v := by
  induction ns with
  | nil => exact (Prints.pure _).congr (by simp)
  | cons n ns ih =>
      obtain ⟨hn, hns⟩ := List.forall_mem_cons.mp h
      exact (hn.bind fun _ => (ih hns).bind fun _ => .pure _).congr (by simp)

/-- The arguments of a call contribute the numbers of each argument. -/
theorem prints_argumentTokens (h : ∀ n ∈ ns, Prints (n.tokens .expression) n.HasFloat) :
    Prints (argumentTokens ns) fun v => ∃ n ∈ ns, n.HasFloat v := by
  cases ns with
  | nil => exact (Prints.pure _).congr (by simp)
  | cons n ns =>
      obtain ⟨hn, hns⟩ := List.forall_mem_cons.mp h
      exact (hn.bind fun _ => (prints_restTokens hns).bind fun _ => .pure _).congr (by simp)

/-- A call contributes the numbers of its arguments: its name, namespace and form have none. -/
theorem prints_callTokens (n : Node) (name : String) (nameSpace : Option String) (callType : CallType)
    (h : ∀ n ∈ ns, Prints (n.tokens .expression) n.HasFloat) :
    Prints (callTokens n name nameSpace callType ns) fun v => ∃ n ∈ ns, n.HasFloat v := by
  cases ns with
  | nil => exact (Prints.pure _).congr (by simp)
  | cons a as =>
      obtain ⟨ha, has⟩ := List.forall_mem_cons.mp h
      refine (ha.bind (G := fun v => ∃ n ∈ as, n.HasFloat v) fun _ => ?_).congr (by simp)
      cases callType with
      | method => exact ((prints_argumentTokens has).bind fun _ => .pure _).congr (by simp)
      | function => exact ((prints_restTokens has).bind fun _ => .pure _).congr (by simp)
      | parent => exact ((prints_restTokens has).bind fun _ => .pure _).congr (by simp)

/-- A loop contributes the numbers of its slots and of its body, in either form it is written in. -/
theorem prints_loop {kind : LoopKind} {init step : Option Node} {c : Node} {body : List Node} {pos : Position}
    (hpos : pos = .expression → (loop kind init c step body).isStatement = false)
    (hparts : (loop kind init c step body).ForParts)
    (hvalue : ∀ m ∈ (loop kind init c step body).slots, Prints (m.tokens .expression) m.HasFloat)
    (hbody : ∀ m ∈ body, Prints (m.tokens .statement) m.HasFloat) :
    Prints ((loop kind init c step body).tokens pos) (loop kind init c step body).HasFloat := by
  have hfloat := fun v => hasFloat_iff (n := loop kind init c step body) (v := v)
  have hc := hvalue c (by simp [slots])
  have hb := prints_statementTokens hbody
  cases kind with
  | forLoop =>
      have hi := prints_optionTokens fun n (hn : n ∈ init) => hvalue n (by simp [slots, Option.mem_def.mp hn])
      have hs := prints_optionTokens fun n (hn : n ∈ step) => hvalue n (by simp [slots, Option.mem_def.mp hn])
      rw [tokens]
      exact prints_only ((hi.bind fun _ => hc.bind fun _ => hs.bind fun _ => hb.bind fun _ =>
        .pure _).congr (by simp [hfloat, children, or_and_right, exists_or])) hpos rfl
  | whileLoop =>
      obtain ⟨rfl, rfl⟩ := hparts
      rw [tokens]
      exact prints_only ((hc.bind fun _ => hb.bind fun _ => .pure _).congr
        (by simp [hfloat, children])) hpos rfl
  | doWhile =>
      obtain ⟨rfl, rfl⟩ := hparts
      rw [tokens]
      exact prints_only ((hb.bind fun _ => hc.bind fun _ => .pure _).congr
        (by simp [hfloat, children, or_comm])) hpos rfl

/-- A field contributes the numbers of its owner and of its index. -/
theorem prints_field {owner : Option Node} {name : String} {index : Option Node} {pos : Position}
    (hvalue : ∀ m ∈ (field owner name index).slots, Prints (m.tokens .expression) m.HasFloat) :
    Prints ((field owner name index).tokens pos) (field owner name index).HasFloat := by
  have hfloat := fun v => hasFloat_iff (n := field owner name index) (v := v)
  have hi := prints_indexTokens fun n (hn : n ∈ index) => hvalue n (by simp [slots, Option.mem_def.mp hn])
  cases owner with
  | none =>
      rw [tokens]
      exact (hi.bind fun _ => .pure _).congr (by simp [hfloat, children])
  | some owner =>
      have ho := hvalue owner (by simp [slots])
      rw [tokens]
      exact (ho.bind fun _ => hi.bind fun _ => .pure _).congr (by simp [hfloat, children])

/-- An assignment contributes the numbers of both sides, also where it is written as a compound. -/
theorem prints_assign {target value : Node} {op : Option BinaryOp} {pos : Position}
    (ht : Prints (target.tokens .expression) target.HasFloat)
    (hv : Prints (value.tokens .expression) value.HasFloat) :
    Prints ((assign target op value).tokens pos) (assign target op value).HasFloat := by
  have hfloat := fun v => hasFloat_iff (n := assign target op value) (v := v)
  cases op with
  | some op =>
      rw [tokens]
      exact (ht.bind fun _ => hv.bind fun _ => .pure _).congr (by simp [hfloat, children])
  | none =>
      by_cases hbinary : ∃ op l r, value = binary op l r
      · -- the operands of the value are printed in its place
        obtain ⟨op, l, r, rfl⟩ := hbinary
        rw [tokens.eq_def] at hv
        rw [tokens]
        exact (ht.bind fun _ => hv.remap).congr (by simp [hfloat, children])
      · rw [tokens]
        · exact (ht.bind fun _ => hv.bind fun _ => .pure _).congr (by simp [hfloat, children])
        · exact fun op l r h => hbinary ⟨op, l, r, h⟩

/-- A node is printed if the nodes below it are printed in their places. -/
theorem prints_of_parts {n : Node} {pos : Position} (hpos : pos = .expression → n.isStatement = false)
    (hparts : n.ForParts) (hvalue : ∀ c ∈ n.slots, Prints (c.tokens .expression) c.HasFloat)
    (hbody : ∀ c ∈ n.bodies, Prints (c.tokens .statement) c.HasFloat) :
    Prints (n.tokens pos) n.HasFloat := by
  have hfloat : ∀ v, n.HasFloat v ↔ n = constant (.float v) ∨ ∃ c ∈ n.children, c.HasFloat v :=
    fun v => hasFloat_iff
  cases n with
  | constant c =>
      rw [tokens]
      exact ((prints_literal c).bind fun _ => .pure _).congr (by simp)
  | ret value =>
      cases value with
      | none =>
          rw [tokens]
          exact prints_only ((Prints.pure _).congr (by simp [hfloat, children])) hpos rfl
      | some value =>
          have hv := hvalue value (by simp [slots])
          rw [tokens]
          exact prints_only ((hv.bind fun _ => .pure _).congr (by simp [hfloat, children])) hpos rfl
  | breakLoop | continueLoop =>
      rw [tokens]
      exact prints_only ((Prints.pure _).congr (by simp [hfloat, children])) hpos rfl
  | ifElse c t e =>
      have hc := hvalue c (by simp [slots])
      have ht := prints_statementTokens fun n hn => hbody n (List.mem_append_left _ hn)
      have he := prints_elseTokens fun n hn => hbody n (List.mem_append_right _ hn)
      rw [tokens]
      exact prints_only ((hc.bind fun _ => ht.bind fun _ => he.bind fun _ => .pure _).congr
        (by simp [hfloat, children, or_and_right, exists_or])) hpos rfl
  | loop => exact prints_loop hpos hparts hvalue hbody
  | function s body =>
      rw [tokens]
      exact prints_only (((prints_statementTokens hbody).bind fun _ => .pure _).congr
        (by simp [hfloat, children, bodies])) hpos rfl
  | package name functions =>
      rw [tokens]
      exact prints_only (((prints_packageTokens hbody).bind fun _ => .pure _).congr
        (by simp [hfloat, children, bodies])) hpos rfl
  | unary op operand =>
      have hx := hvalue operand (by simp [slots])
      rw [tokens]
      exact (hx.bind fun _ => .pure _).congr (by simp [hfloat, children])
  | binary _ l r | compare _ l r | concat _ l r | comma l r =>
      have hl := hvalue l (by simp [slots])
      have hr := hvalue r (by simp [slots])
      rw [tokens]
      exact (hl.bind fun _ => hr.bind fun _ => .pure _).congr (by simp [hfloat, children])
  | conditional c t e =>
      have hc := hvalue c (by simp [slots])
      have ht := hvalue t (by simp [slots])
      have he := hvalue e (by simp [slots])
      rw [tokens]
      exact (hc.bind fun _ => ht.bind fun _ => he.bind fun _ => .pure _).congr
        (by simp [hfloat, children])
  | field => exact prints_field hvalue
  | var name index =>
      have hi := prints_indexTokens fun n (hn : n ∈ index) => hvalue n (by simp [slots, Option.mem_def.mp hn])
      rw [tokens]
      exact (hi.bind fun _ => .pure _).congr (by simp [hfloat, children])
  | assign target _ value =>
      exact prints_assign (hvalue target (by simp [slots])) (hvalue value (by simp [slots]))
  | object className name parent isDatablock args fields children depth =>
      have hc := hvalue className (by simp [slots])
      have hn := prints_nameTokens fun n (hn : n ∈ name) => hvalue n (by simp [slots, Option.mem_def.mp hn])
      have ha := prints_restTokens fun n (hn : n ∈ args) => hvalue n (by simp [slots, hn])
      have hf := prints_statementTokens fun n hn => hbody n (List.mem_append_left _ hn)
      have hch := prints_statementTokens fun n hn => hbody n (List.mem_append_right _ hn)
      rw [tokens.eq_def]
      exact (hc.bind fun _ => hn.bind fun _ => ha.bind fun _ => hf.bind fun _ => hch.bind fun _ =>
        .pure _).congr (by simp [hfloat, Node.children, or_and_right, exists_or])
  | call name nameSpace callType args =>
      rw [tokens]
      exact ((prints_callTokens _ name nameSpace callType hvalue).bind fun _ => .pure _).congr
        (by simp [hfloat, children, slots])

/-- **Printing** a printable node fails only for a number without a literal. -/
theorem prints_tokens (n : Node) (h : n.Printable) (pos : Position)
    (hpos : pos = .expression → n.isStatement = false) : Prints (n.tokens pos) n.HasFloat := by
  induction n using childrenInduction generalizing pos with
  | h n ih =>
      obtain ⟨hslots, hbodies, hparts⟩ := printable_iff.mp h
      refine prints_of_parts hpos hparts (fun c hc => ?_) (fun c hc => ?_)
      · exact ih c (mem_children_iff.mpr (.inl hc)) (hslots c hc).1 _ fun _ => (hslots c hc).2
      · exact ih c (mem_children_iff.mpr (.inr hc)) (hbodies c hc) _ nofun

/-- **A printable statement prints, and fails on the numbers that occur in it alone.** -/
theorem prints_statement {n : Node} (h : n.Printable) : Prints (n.tokens .statement) n.HasFloat :=
  prints_tokens n h _ nofun

end Node

namespace Source

/-- So do the statements that follow another, blank lines between them or not. -/
theorem prints_followingTokens {ns : List Node} (h : ∀ n ∈ ns, n.Printable) (previous : Node) :
    Prints (followingTokens previous ns) fun v => ∃ n ∈ ns, n.HasFloat v := by
  induction ns generalizing previous with
  | nil => exact (Prints.pure _).congr (by simp)
  | cons n ns ih =>
      obtain ⟨hn, hns⟩ := List.forall_mem_cons.mp h
      exact ((Node.prints_statement hn).bind fun _ => (ih hns n).bind fun _ => .pure _).congr (by simp)

/-- A script is printed, or one of its numbers is told. -/
theorem prints_program {ns : List Node} (h : ∀ n ∈ ns, n.Printable) :
    Prints (program ns) fun v => ∃ n ∈ ns, n.HasFloat v := by
  have htokens : Prints (programTokens ns) fun v => ∃ n ∈ ns, n.HasFloat v := by
    cases ns with
    | nil => exact (Prints.pure _).congr (by simp)
    | cons n ns =>
        obtain ⟨hn, hns⟩ := List.forall_mem_cons.mp h
        exact ((Node.prints_statement hn).bind fun _ => (prints_followingTokens hns n).bind fun _ =>
          .pure _).congr (by simp)
  exact (htokens.bind fun _ => .pure _).congr (by simp)

end Source

/-! ### Results of logged computations -/

/-- The parts of a computation that succeeds. -/
theorem bind_eq_ok_iff {α β : Type} {x : Except Error α} {f : α → Except Error β} {b : β} :
    (x >>= f) = .ok b ↔ ∃ a, x = .ok a ∧ f a = .ok b := by
  cases x with
  | error e => exact ⟨nofun, nofun⟩
  | ok a => exact ⟨fun h => ⟨a, rfl, h⟩, fun ⟨_, e, h⟩ => by cases e; exact h⟩

namespace Logged

variable {α β : Type} {x : Logged α} {f : α → Logged β}

/-- The result does not depend on what has been told before. -/
def Steady (x : Logged α) : Prop :=
  ∀ log, (x.run.run log).1 = x.outcome.1

/-- The result of a sequence of steady computations is the sequence of their results, whatever was logged before. -/
theorem run_bind (hx : Steady x) (hf : ∀ a, Steady (f a)) (log : List Message) :
    ((x >>= f).run.run log).1 = x.outcome.1 >>= fun a => (f a).outcome.1 := by
  show (ExceptT.bindCont f (x.run.run log).1 (x.run.run log).2).1 = _
  rw [hx log]
  cases x.outcome.1 with
  | error e => rfl
  | ok a => exact hf a _

/-- Results follow each other as if nothing were told. -/
theorem outcome_bind (hx : Steady x) (hf : ∀ a, Steady (f a)) :
    (x >>= f).outcome.1 = x.outcome.1 >>= fun a => (f a).outcome.1 :=
  run_bind hx hf []

namespace Steady

/-- Steadiness passes through sequences. -/
theorem bind (hx : Steady x) (hf : ∀ a, Steady (f a)) : Steady (x >>= f) :=
  fun log => (run_bind hx hf log).trans (outcome_bind hx hf).symm

theorem silent (r : Except Error α) : Steady (Logged.silent r) :=
  fun _ => rfl

theorem pure (a : α) : Steady (Pure.pure a) :=
  fun _ => rfl

theorem throw (e : Error) : Steady (throwThe Error e : Logged α) :=
  fun _ => rfl

theorem tell (m : Message) : Steady (Logged.tell m) :=
  fun _ => rfl

theorem tellCount (count : Nat) (m : Nat → Message) : Steady (Logged.tellCount count m) := by
  unfold Logged.tellCount
  split
  · exact .pure _
  · exact .tell _

end Steady

/-- Messages that are counted out have no result of their own. -/
theorem outcome_tellCount (count : Nat) (m : Nat → Message) : (tellCount count m).outcome.1 = pure () := by
  unfold tellCount
  split <;> rfl

end Logged

open Logged

/-- All numbers in a tree have literals. -/
def AllFinite (nodes : List Node) : Prop :=
  ∀ v, .constant (.float v) ∈ Node.listSubnodes nodes → v.isFinite = true

namespace Stream

/-- Reporting on the blocks does not depend on the log. -/
theorem steady_analyze (instrs : List Instruction) : Steady (analyze instrs) :=
  .bind (.silent _) fun _ => .bind (.tell _) fun _ => .pure _

/-- What is told and returned at the end of rebuilding. -/
theorem steady_built (r : Except Error (List Node)) :
    Steady (do let nodes ← silent r; tell (.built nodes.length); pure nodes) :=
  .bind (.silent _) fun _ => .bind (.tell _) fun _ => .pure _

/-- Nor does rebuilding. -/
theorem steady_rebuild (tree : Block) (instrs : List Instruction) : Steady (rebuild tree instrs) :=
  .bind (.silent _) fun _ => .bind (.tellCount _ _) fun _ => .bind (.tellCount _ _) fun _ => steady_built _

theorem steady_statements (instrs : List Instruction) : Steady (statements instrs) :=
  .bind (steady_analyze instrs) fun tree => steady_rebuild tree instrs

/-- Nor does writing a listing, a tree or a source. -/
theorem steady_text (mode : Mode) (lineBreaks : List LineBreak) (instrs : List Instruction) :
    Steady (text mode lineBreaks instrs) := by
  cases mode with
  | source => exact .bind (steady_statements instrs) fun _ => .bind (.silent _) fun _ => .pure _
  | listing => exact .bind (steady_analyze instrs) fun _ => .pure _
  | tree => exact .bind (steady_statements instrs) fun _ => .pure _

variable {instrs : List Instruction} {nodes : List Node}

/-- Without its messages, rebuilding is the run over the tree, followed by the making of the program. -/
theorem outcome_rebuild (tree : Block) (instrs : List Instruction) : (rebuild tree instrs).outcome.1 =
    StateT.run (run tree instrs) {} >>= fun p => Rebuild.program (last instrs) p.2 := by
  rw [rebuild, outcome_bind (.silent _) fun _ => .bind (.tellCount _ _) fun _ =>
    .bind (.tellCount _ _) fun _ => steady_built _]
  refine congrArg (StateT.run (run tree instrs) {} >>= ·) (funext fun p => ?_)
  rw [outcome_bind (.tellCount _ _) fun _ => .bind (.tellCount _ _) fun _ => steady_built _,
    outcome_tellCount, pure_bind, outcome_bind (.tellCount _ _) fun _ => steady_built _,
    outcome_tellCount, pure_bind]
  cases Rebuild.program (last instrs) p.2 <;> rfl

/-- The statements of every stream are printable. -/
theorem printable_of_statements (h : (statements instrs).outcome.1 = .ok nodes) :
    ∀ n ∈ nodes, n.Printable := by
  rw [statements, outcome_bind (steady_analyze instrs) fun tree => steady_rebuild tree instrs] at h
  obtain ⟨tree, -, h⟩ := bind_eq_ok_iff.mp h
  rw [outcome_rebuild] at h
  obtain ⟨⟨⟨⟩, s⟩, hrun, hprogram⟩ := bind_eq_ok_iff.mp h
  exact printable_of_rebuild hrun hprogram

/-- The statements of a stream are printed, or one of their numbers is told. -/
theorem prints_statements (h : (statements instrs).outcome.1 = .ok nodes) :
    Prints (Source.program nodes) fun v => .constant (.float v) ∈ Node.listSubnodes nodes :=
  (Source.prints_program (printable_of_statements h)).congr fun _ => Node.mem_listSubnodes.symm

/-- The three forms of output of a stream. -/
theorem text_stages (lineBreaks : List LineBreak) (instrs : List Instruction) :
    let output mode := (text mode lineBreaks instrs).outcome.1
    let tree := (statements instrs).outcome.1
    output .tree = tree.map (fun nodes => (Json.list (Node.listToJson nodes)).pretty) ∧
    ((∃ text, output .source = .ok text) ↔ ∃ nodes, tree = .ok nodes ∧ AllFinite nodes) ∧
    (∀ e, output .tree = .error e → output .source = .error e) ∧
    ∀ e, output .listing = .error e → output .source = .error e ∧ output .tree = .error e := by
  intro output tree
  have htree : output .tree = tree >>= fun nodes => pure (Json.list (Node.listToJson nodes)).pretty :=
    outcome_bind (steady_statements instrs) fun _ => .pure _
  have hsource : output .source = tree >>= fun nodes => Source.program nodes >>= fun tokens =>
      pure (Source.text tokens) := by
    refine (outcome_bind (steady_statements instrs) fun _ => .bind (.silent _) fun _ => .pure _).trans ?_
    refine congrArg (tree >>= ·) (funext fun nodes => ?_)
    exact outcome_bind (.silent _) fun _ => .pure _
  have hlisting : output .listing = (analyze instrs).outcome.1 >>= fun tree =>
      pure (Listing.text tree lineBreaks instrs) := outcome_bind (steady_analyze instrs) fun _ => .pure _
  have hanalyze : tree = (analyze instrs).outcome.1 >>= fun tree => (rebuild tree instrs).outcome.1 :=
    outcome_bind (steady_analyze instrs) fun tree => steady_rebuild tree instrs
  refine ⟨htree, ?_, ?_, ?_⟩
  · rw [hsource]
    constructor
    · rintro ⟨text, h⟩
      obtain ⟨nodes, hnodes, h⟩ := bind_eq_ok_iff.mp h
      obtain ⟨tokens, htokens, -⟩ := bind_eq_ok_iff.mp h
      exact ⟨nodes, hnodes, (prints_statements hnodes).ok_iff.mp ⟨tokens, htokens⟩⟩
    · rintro ⟨nodes, hnodes, hfinite⟩
      obtain ⟨tokens, htokens⟩ := (prints_statements hnodes).ok_iff.mpr hfinite
      exact ⟨_, bind_eq_ok_iff.mpr ⟨nodes, hnodes, bind_eq_ok_iff.mpr ⟨tokens, htokens, rfl⟩⟩⟩
  · intro e h
    rw [htree] at h
    rw [hsource]
    cases htree' : tree with
    | error e' => rw [htree'] at h; exact h
    | ok nodes => rw [htree'] at h; cases h
  · intro e h
    rw [hlisting] at h
    rw [hsource, htree, hanalyze]
    cases htree' : (analyze instrs).outcome.1 with
    | error e' => rw [htree'] at h; exact ⟨h, h⟩
    | ok tree => rw [htree'] at h; cases h

end Stream

/-! ### Files -/

/-- The instructions of a file, and the addresses at which its lines begin. -/
def fileInstructions (options : Options) (bytes : List UInt8) : Logged (List LineBreak × List Instruction) := do
  let image ← Image.load bytes
  image.checkVersion options
  let instrs ← image.decode options.table
  pure (image.lineBreaks, instrs)

/-- The statements of a file. -/
def fileStatements (options : Options) (bytes : List UInt8) : Logged (List Node) := do
  let p ← fileInstructions options bytes
  Stream.statements p.2

section

variable (options : Options) (bytes : List UInt8)

/-- Loading a file does not depend on the log. -/
theorem steady_load : Steady (Image.load bytes) :=
  .bind (.silent _) fun _ => .bind (.tellCount _ _) fun _ => .pure _

theorem steady_checkVersion (image : Image) : Steady (image.checkVersion options) := by
  unfold Image.checkVersion
  split
  · exact .pure _
  · split
    · exact .tell _
    · exact .throw _

theorem steady_decode (table : Opcode.Table) (image : Image) : Steady (image.decode table) :=
  .bind (.silent _) fun _ => .bind (.tell _) fun _ => .pure _

/-- Nor does reading the instructions of a file. -/
theorem steady_fileInstructions : Steady (fileInstructions options bytes) :=
  .bind (steady_load bytes) fun image => .bind (steady_checkVersion options image) fun _ =>
    .bind (steady_decode options.table image) fun _ => .pure _

/-- The statements of a file are those of the stream it is read as. -/
theorem outcome_fileStatements : (fileStatements options bytes).outcome.1 =
    (fileInstructions options bytes).outcome.1 >>= fun p => (Stream.statements p.2).outcome.1 :=
  outcome_bind (steady_fileInstructions options bytes) fun p => Stream.steady_statements p.2

/-- Every form of output is made of the instructions of the file. -/
theorem outcome_decompile (mode : Mode) : (decompile { options with mode } bytes).outcome.1 =
    (fileInstructions options bytes).outcome.1 >>= fun p => (Stream.text mode p.1 p.2).outcome.1 := by
  have hparts : decompile { options with mode } bytes =
      fileInstructions options bytes >>= fun p => Stream.text mode p.1 p.2 := by
    simp only [decompile, fileInstructions, bind_assoc, pure_bind]
    rfl
  rw [hparts]
  exact outcome_bind (steady_fileInstructions options bytes) fun p => Stream.steady_text mode p.1 p.2

end

/-- **Stages.**  Printing the statements of a stream never meets a statement in the place of an expression;
it fails for a number that is not finite, if there is one, and succeeds otherwise.  So a file has source
text exactly if it has a tree and all numbers in it are finite; without a tree there is no source text for
the same reason, and without a listing there is neither. -/
theorem decompile_stages :
    (∀ instrs nodes, (Stream.statements instrs).outcome.1 = .ok nodes →
      (∀ kind, Source.program nodes ≠ .error (.statementInExpression kind)) ∧
      ((∃ v, Source.program nodes = .error (.nonFiniteFloat v)) ↔ ¬ AllFinite nodes) ∧
      ((∃ tokens, Source.program nodes = .ok tokens) ↔ AllFinite nodes)) ∧
    ∀ options bytes,
      let output mode := (decompile { options with mode } bytes).outcome.1
      let tree := (fileStatements options bytes).outcome.1
      output .tree = tree.map (fun nodes => (Json.list (Node.listToJson nodes)).pretty) ∧
      ((∃ text, output .source = .ok text) ↔ ∃ nodes, tree = .ok nodes ∧ AllFinite nodes) ∧
      (∀ e, output .tree = .error e → output .source = .error e) ∧
      ∀ e, output .listing = .error e → output .source = .error e ∧ output .tree = .error e := by
  refine ⟨fun instrs nodes h => ?_, fun options bytes => ?_⟩
  · have hprints := Stream.prints_statements h
    exact ⟨hprints.ne_statementInExpression, hprints.error_iff, hprints.ok_iff⟩
  · simp only [outcome_decompile, outcome_fileStatements]
    cases (fileInstructions options bytes).outcome.1 with
    | error e => exact ⟨rfl, ⟨nofun, nofun⟩, fun _ h => h, fun _ h => ⟨h, h⟩⟩
    | ok p => exact Stream.text_stages p.1 p.2

/-- `return` with the number infinity. -/
def returnInfinity : List Instruction :=
  [⟨0, 2, .loadImmedFloat, .immediateFloat ⟨0x7ff0000000000000⟩⟩, ⟨2, 1, .ret, .ret true⟩]

/-- A program that returns an infinity is rebuilt and then refused on the number it returns. -/
theorem decompile_stages_returnInfinity :
    (Stream.statements returnInfinity).outcome.1 =
      .ok [.ret (some (.constant (.float ⟨0x7ff0000000000000⟩)))] ∧
    ∃ v, Source.program [.ret (some (.constant (.float ⟨0x7ff0000000000000⟩)))] = .error (.nonFiniteFloat v) := by
  have hnodes : (Stream.statements returnInfinity).outcome.1 =
      .ok [.ret (some (.constant (.float ⟨0x7ff0000000000000⟩)))] := by cbv
  refine ⟨hnodes, (decompile_stages.1 _ _ hnodes).2.1.mpr fun hfinite => ?_⟩
  exact absurd (hfinite ⟨0x7ff0000000000000⟩ (by simp [Node.listSubnodes, Node.subnodes, Node.optionSubnodes]))
    (by decide)

end TorqueScript
