import Mathlib
import TorqueScript.Proofs.Enclosure

/-!
# Renamed addresses

Two streams that differ in their addresses only, and have them in the same order, make the same blocks.  This is
stated for a relation `R` between the addresses of the one stream and those of the other that keeps their order
(`Addr.KeepsOrder`).  Instructions and blocks are related (`Renamed`) if they are the same up to addresses
related by `R`; of addresses that only errors tell, nothing is asked.  What is done with related things ends
with related results, or with errors that differ in their addresses (`EndsAlike`).

* `Stream.blocksFrom_renamed`: the jumps of related streams make related blocks.
-/

namespace TorqueScript

/-! ### Errors without their addresses -/

/-- The error without the addresses that it tells. -/
def Error.unplaced : Error → Error
  | endOfInput => endOfInput
  | unsupportedVersion version => unsupportedVersion version
  | invalidStringOffset offset => invalidStringOffset offset
  | invalidFloatIndex index => invalidFloatIndex index
  | patchOutsideCode _ codeLength => patchOutsideCode 0 codeLength
  | unreadableTable fault => unreadableTable fault
  | emptyTable => emptyTable
  | invalidOpcode _ word => invalidOpcode 0 word
  | truncatedOperand _ opcode => truncatedOperand 0 opcode
  | unresolvedIdentifier _ _ => unresolvedIdentifier 0 0
  | invalidCallType _ value => invalidCallType 0 value
  | invalidAppendChar _ value => invalidAppendChar 0 value
  | branchTargetMissing _ _ => branchTargetMissing 0 0
  | overlappingBlocks _ _ _ => overlappingBlocks 0 0 0
  | unbalancedBlocks openBlocks => unbalancedBlocks openBlocks
  | stackUnderflow _ opcode => stackUnderflow 0 opcode
  | unexpectedOperand _ opcode expected found => unexpectedOperand 0 opcode expected found
  | frameUnderflow _ opcode => frameUnderflow 0 opcode
  | nestedFunction _ => nestedFunction 0
  | unbalancedFunction _ _ => unbalancedFunction 0 0
  | objectDepthUnderflow _ => objectDepthUnderflow 0
  | unterminatedObject depth => unterminatedObject depth
  | unclosedAccumulator _ => unclosedAccumulator 0
  | unstructuredBranch _ => unstructuredBranch 0
  | statementInExpression kind => statementInExpression kind
  | nonFiniteFloat value => nonFiniteFloat value

/-- Both computations end with related results, or both fail, with errors that differ in their addresses only. -/
inductive EndsAlike {α β : Type} (Q : α → β → Prop) : Except Error α → Except Error β → Prop where
  | ok {a : α} {b : β} (h : Q a b) : EndsAlike Q (.ok a) (.ok b)
  | error {e e' : Error} (h : e.unplaced = e'.unplaced) : EndsAlike Q (.error e) (.error e')

/-- Ends that are alike stay so when the results go on alike. -/
theorem EndsAlike.bind {α β γ δ : Type} {P : α → β → Prop} {Q : γ → δ → Prop} {x : Except Error α}
    {y : Except Error β} {f : α → Except Error γ} {g : β → Except Error δ} (h : EndsAlike P x y)
    (hfg : ∀ a b, P a b → EndsAlike Q (f a) (g b)) : EndsAlike Q (x >>= f) (y >>= g) := by
  cases h with
  | ok h => exact hfg _ _ h
  | error h => exact .error h

theorem EndsAlike.refl {α : Type} (x : Except Error α) : EndsAlike Eq x x := by
  cases x with
  | ok => exact .ok rfl
  | error => exact .error rfl

/-- What ends like a result is the same result. -/
theorem EndsAlike.eq_ok {α : Type} {a : α} {y : Except Error α} (h : EndsAlike Eq (.ok a) y) : y = .ok a := by
  cases h with
  | ok h => rw [h]

/-! ### Addresses -/

namespace Addr

/-- The relation keeps the order of addresses. -/
structure KeepsOrder (R : Addr → Addr → Prop) : Prop where
  lt_iff : ∀ {a a' b b' : Addr}, R a b → R a' b' → (a < a' ↔ b < b')

namespace KeepsOrder

variable {R : Addr → Addr → Prop} {a a' b b' : Addr}

/-- An order that is kept one way is kept both ways. -/
theorem le_iff (hR : KeepsOrder R) (h : R a b) (h' : R a' b') : a ≤ a' ↔ b ≤ b' := by
  rw [← Nat.not_lt, ← Nat.not_lt, hR.lt_iff h' h]

/-- Related addresses are equal on the one side exactly if they are on the other. -/
theorem eq_iff (hR : KeepsOrder R) (h : R a b) (h' : R a' b') : a = a' ↔ b = b' := by
  rw [le_antisymm_iff, le_antisymm_iff, hR.le_iff h h', hR.le_iff h' h]

theorem some_eq_iff (hR : KeepsOrder R) {x y : Option Addr} (h : Option.Rel R x y) (h' : R a b) :
    x = some a ↔ y = some b := by
  cases h with
  | none => simp
  | some h => rw [Option.some_inj, Option.some_inj, hR.eq_iff h h']

end KeepsOrder

/-- Both addresses come in front of the same instructions. -/
def Cuts (R : Addr → Addr → Prop) (stop stop' : Addr) : Prop :=
  ∀ a b : Addr, R a b → a < last → b < last → (stop ≤ a ↔ stop' ≤ b)

variable {R : Addr → Addr → Prop} {stop stop' : Addr}

/-- Related addresses cut their streams at the same place. -/
theorem KeepsOrder.cuts (hR : KeepsOrder R) (h : R stop stop') : Cuts R stop stop' :=
  fun _ _ hab _ _ => hR.le_iff h hab

/-- So do the addresses behind them. -/
theorem KeepsOrder.cuts_next (hR : KeepsOrder R) (h : R stop stop') : Cuts R (next stop) (next stop') := by
  intro a b hab ha hb
  have hle : ∀ {stop a : Addr}, a < last → (next stop ≤ a ↔ stop < a) := by
    intro stop a ha
    rw [next, min_le_iff]
    exact or_iff_left (Nat.not_le.mpr ha)
  rw [hle ha, hle hb, hR.lt_iff h hab]

/-- No address lies behind the last one, on either side. -/
theorem cuts_last : Cuts R last last :=
  fun _ _ _ ha hb => ⟨fun h => absurd h (Nat.not_le.mpr ha), fun h => absurd h (Nat.not_le.mpr hb)⟩

/-- Of two places where both streams are cut alike, the first one is such a place too. -/
theorem Cuts.min {other other' : Addr} (h : Cuts R stop stop') (h' : Cuts R other other') :
    Cuts R (min stop other) (min stop' other') := by
  intro a b hab ha hb
  rw [min_le_iff, min_le_iff, h a b hab ha hb, h' a b hab ha hb]

end Addr

/-! ### Lists of related things -/

section Lists

variable {α β : Type} {Q : α → β → Prop} {xs : List α} {ys : List β}

/-- What is related to something is something. -/
theorem exists_of_rel {x : Option α} {y : Option β} (h : Option.Rel Q x y) {a : α} (hx : x = some a) :
    ∃ b, y = some b ∧ Q a b := by
  cases h with
  | none => cases hx
  | some h => exact ⟨_, rfl, Option.some.inj hx ▸ h⟩

theorem eq_none_of_rel {x : Option α} {y : Option β} (h : Option.Rel Q x y) (hx : x = none) : y = none := by
  cases h with
  | none => rfl
  | some => cases hx

theorem rel_map {γ δ : Type} {P : γ → δ → Prop} {f : α → γ} {g : β → δ} {x : Option α} {y : Option β}
    (hfg : ∀ a b, Q a b → P (f a) (g b)) (h : Option.Rel Q x y) : Option.Rel P (x.map f) (y.map g) := by
  cases h with
  | none => exact .none
  | some h => exact .some (hfg _ _ h)

/-- Related lists are related at every index. -/
theorem rel_getElem? (h : List.Forall₂ Q xs ys) (i : Nat) : Option.Rel Q xs[i]? ys[i]? := by
  induction h generalizing i with
  | nil => exact .none
  | cons hxy _ ih =>
      cases i with
      | zero => exact .some hxy
      | succ i => exact ih i

theorem rel_getLast? (h : List.Forall₂ Q xs ys) : Option.Rel Q xs.getLast? ys.getLast? := by
  rw [List.getLast?_eq_getElem?, List.getLast?_eq_getElem?, ← h.length_eq]
  exact rel_getElem? h _

/-- Searching related lists for the same thing finds related elements, or nothing in both. -/
theorem rel_find? {p : α → Bool} {q : β → Bool} (hpq : ∀ a b, Q a b → p a = q b) (h : List.Forall₂ Q xs ys) :
    Option.Rel Q (xs.find? p) (ys.find? q) := by
  induction h with
  | nil => exact .none
  | @cons a b _ _ hab _ ih =>
      rw [List.find?_cons, List.find?_cons, hpq a b hab]
      cases q b with
      | true => exact .some hab
      | false => exact ih

theorem any_eq_of_forall₂ {p : α → Bool} {q : β → Bool} (hpq : ∀ a b, Q a b → p a = q b)
    (h : List.Forall₂ Q xs ys) : xs.any p = ys.any q := by
  induction h with
  | nil => rfl
  | @cons a b _ _ hab _ ih => rw [List.any_cons, List.any_cons, hpq a b hab, ih]

/-- Lists are sorted in the same way if the same is decided about related pairs. -/
theorem forall₂_mergeSort {p : α → α → Bool} {q : β → β → Bool}
    (hpq : ∀ a b, Q a b → ∀ a' b', Q a' b' → p a a' = q b b') (h : List.Forall₂ Q xs ys) :
    List.Forall₂ Q (xs.mergeSort p) (ys.mergeSort q) := by
  -- both are the sides of one sorted list of pairs
  obtain ⟨zs, hzs, rfl, rfl⟩ : ∃ zs : List (α × β), (∀ z ∈ zs, Q z.1 z.2) ∧ zs.map (·.1) = xs ∧
      zs.map (·.2) = ys := by
    induction h with
    | nil => exact ⟨[], nofun, rfl, rfl⟩
    | @cons a b _ _ hab _ ih =>
        obtain ⟨zs, hzs, rfl, rfl⟩ := ih
        exact ⟨(a, b) :: zs, List.forall_mem_cons.mpr ⟨hab, hzs⟩, rfl, rfl⟩
  rw [← List.map_mergeSort (r := fun z z' => p z.1 z'.1) fun _ _ _ _ => rfl,
    ← List.map_mergeSort (r := fun z z' => p z.1 z'.1)
      fun z hz z' hz' => hpq _ _ (hzs z hz) _ _ (hzs z' hz')]
  refine List.forall₂_map_left_iff.mpr (List.forall₂_map_right_iff.mpr (List.forall₂_same.mpr fun z hz => ?_))
  exact hzs z (List.mem_mergeSort.mp hz)

end Lists

/-! ### Instructions -/

/-- The address that the operation names and that counts: where it jumps to, or where a function ends. -/
def Operation.mark? : Operation → Option Addr
  | jump _ target => some target
  | declareFunction _ _ stop => some stop
  | _ => none

/-- The operations are the same up to related addresses. -/
inductive Operation.Renamed (R : Addr → Addr → Prop) : Operation → Operation → Prop where
  | jump {target target' : Addr} (kind : JumpKind) (h : R target target') :
      Renamed R (.jump kind target) (.jump kind target')
  | declareFunction {stop stop' : Addr} (signature : Signature) (hasBody : Bool) (h : R stop stop') :
      Renamed R (.declareFunction signature hasBody stop) (.declareFunction signature hasBody stop')
  -- where the machine goes on if no object can be created plays no part
  | createObject (parent : Option String) (isDatablock : Bool) (failTarget failTarget' : Addr) :
      Renamed R (.createObject parent isDatablock failTarget) (.createObject parent isDatablock failTarget')
  | same {op : Operation} (h : op.mark? = none) : Renamed R op op

/-- The instructions are the same up to related addresses. -/
structure Instruction.Renamed (R : Addr → Addr → Prop) (ins ins' : Instruction) : Prop where
  addr : R ins.addr ins'.addr
  lt_last : ins.addr < Addr.last ∧ ins'.addr < Addr.last
  opcode : ins.opcode = ins'.opcode
  operation : ins.operation.Renamed R ins'.operation

/-- Whether an instruction lies behind a cut does not depend on its side. -/
theorem Instruction.Renamed.le_iff {R : Addr → Addr → Prop} {ins ins' : Instruction} (h : ins.Renamed R ins')
    {stop stop' : Addr} (hstop : Addr.Cuts R stop stop') : stop ≤ ins.addr ↔ stop' ≤ ins'.addr :=
  hstop _ _ h.addr h.lt_last.1 h.lt_last.2

theorem Instruction.Renamed.lt_iff {R : Addr → Addr → Prop} {ins ins' : Instruction} (h : ins.Renamed R ins')
    {stop stop' : Addr} (hstop : Addr.Cuts R stop stop') : ins.addr < stop ↔ ins'.addr < stop' := by
  rw [← Nat.not_le, ← Nat.not_le, h.le_iff hstop]

namespace Stream

open Addr

variable {R : Addr → Addr → Prop} {ins ins' : Instruction} {instrs instrs' : List Instruction} {a a' : Addr}

/-- Related instructions jump to related targets, and in the same way. -/
theorem rel_jump? (h : ins.Renamed R ins') :
    Option.Rel (fun j j' => j.1 = j'.1 ∧ R j.2 j'.2) ins.jump? ins'.jump? := by
  have hoperation := h.operation
  rw [Instruction.jump?, Instruction.jump?]
  generalize ins.operation = op at hoperation
  generalize ins'.operation = op' at hoperation
  cases hoperation with
  | jump kind h => exact .some ⟨rfl, h⟩
  | declareFunction | createObject => exact .none
  | same h =>
      cases op with
      | jump => cases h
      | _ => exact .none

/-- Related addresses stand at the same position. -/
theorem lastIndex?_renamed (hR : KeepsOrder R) (h : List.Forall₂ (Instruction.Renamed R) instrs instrs')
    (ha : R a a') : lastIndex? a instrs = lastIndex? a' instrs' := by
  induction h with
  | nil => rfl
  | cons hins _ ih =>
      rw [lastIndex?, lastIndex?, ih]
      simp only [hR.eq_iff hins.addr ha]

theorem rel_addr (h : List.Forall₂ (Instruction.Renamed R) instrs instrs') (i : Nat) :
    Option.Rel R ((instrs[i]?).map (·.addr)) ((instrs'[i]?).map (·.addr)) :=
  rel_map (fun _ _ hins => hins.addr) (rel_getElem? h i)

/-- What comes right in front of related addresses is related. -/
theorem before?_renamed (hR : KeepsOrder R) (h : List.Forall₂ (Instruction.Renamed R) instrs instrs')
    (ha : R a a') : Option.Rel R (before? instrs a) (before? instrs' a') := by
  rw [before?, before?, ← lastIndex?_renamed hR h ha]
  cases lastIndex? a instrs with
  | none => exact .none
  | some i =>
      cases i with
      | zero => exact .none
      | succ i => exact rel_addr h i

/-- And so is what comes right behind them. -/
theorem after?_renamed (hR : KeepsOrder R) (h : List.Forall₂ (Instruction.Renamed R) instrs instrs')
    (ha : R a a') : Option.Rel R (after? instrs a) (after? instrs' a') := by
  rw [after?, after?, ← lastIndex?_renamed hR h ha]
  cases lastIndex? a instrs with
  | none => exact .none
  | some i => exact rel_addr h (i + 1)

end Stream

/-! ### Blocks -/

/-- The jumps are the same up to related addresses. -/
structure Branch.Renamed (R : Addr → Addr → Prop) (j j' : Branch) : Prop where
  addr : R j.addr j'.addr
  target : R j.target j'.target
  kind : j.kind = j'.kind

/-- The blocks are the same up to related addresses. -/
inductive Block.Renamed (R : Addr → Addr → Prop) : Block → Block → Prop where
  | mk {b b' : Block} (id : b.id = b'.id) (kind : b.kind = b'.kind) (start : R b.start b'.start)
      (stop : R b.stop b'.stop) (branches : List.Forall₂ (Branch.Renamed R) b.branches b'.branches)
      (continuePoint : Option.Rel R b.continuePoint b'.continuePoint)
      (children : List.Forall₂ (Block.Renamed R) b.children b'.children) : Block.Renamed R b b'

namespace Block

variable {R : Addr → Addr → Prop} {b b' c c' : Block}

/-- Blocks without anything inside are related as their ends are. -/
theorem renamed_fresh (id : Nat) (kind : BlockKind) {start start' stop stop' : Addr} (hstart : R start start')
    (hstop : R stop stop') : (fresh id kind start stop).Renamed R (fresh id kind start' stop') :=
  .mk rfl rfl hstart hstop .nil .none .nil

theorem Renamed.stop_rel (h : b.Renamed R b') : R b.stop b'.stop := by
  obtain ⟨-, -, -, hstop, -, -, -⟩ := h
  exact hstop

theorem Renamed.start_rel (h : b.Renamed R b') : R b.start b'.start := by
  obtain ⟨-, -, hstart, -, -, -, -⟩ := h
  exact hstart

theorem Renamed.kind_eq (h : b.Renamed R b') : b.kind = b'.kind := by
  obtain ⟨-, hkind, -, -, -, -, -⟩ := h
  exact hkind

/-- Putting related blocks into related blocks. -/
theorem Renamed.adopt (h : b.Renamed R b') (hc : c.Renamed R c') : (b.adopt c).Renamed R (b'.adopt c') := by
  obtain ⟨hid, hkind, hstart, hstop, hbranches, hpoint, hchildren⟩ := h
  exact .mk hid hkind hstart hstop hbranches hpoint (List.rel_append hchildren (.cons hc .nil))

/-- Jumps are put in order of their addresses, which is the same on both sides. -/
theorem insert_renamed (hR : Addr.KeepsOrder R) {j j' : Branch} (hj : j.Renamed R j') {bs bs' : List Branch}
    (h : List.Forall₂ (Branch.Renamed R) bs bs') :
    List.Forall₂ (Branch.Renamed R) (j.insert bs) (j'.insert bs') := by
  induction h with
  | nil => exact .cons hj .nil
  | cons hc hcs ih =>
      rw [Branch.insert, Branch.insert]
      simp only [hR.lt_iff hj.addr hc.addr, hR.eq_iff hj.addr hc.addr]
      split
      · exact .cons hj (.cons hc hcs)
      · split
        · exact .cons hj hcs
        · exact .cons hc ih

/-- Giving related jumps to related blocks. -/
theorem Renamed.own (hR : Addr.KeepsOrder R) (h : b.Renamed R b') {j j' : Branch} (hj : j.Renamed R j') :
    (b.own j).Renamed R (b'.own j') := by
  obtain ⟨hid, hkind, hstart, hstop, hbranches, hpoint, hchildren⟩ := h
  exact .mk hid hkind hstart hstop (insert_renamed hR hj hbranches) hpoint hchildren

end Block

namespace Stream

open Addr

variable {R : Addr → Addr → Prop} {instrs instrs' rest rest' : List Instruction} {a a' target target' : Addr}

/-- Related jumps make related blocks, or none. -/
theorem blockOfJump?_renamed (hR : KeepsOrder R) (h : List.Forall₂ (Instruction.Renamed R) instrs instrs') (id : Nat)
    (kind : JumpKind) (ha : R a a') (htarget : R target target') :
    Option.Rel (Block.Renamed R) (blockOfJump? instrs id a kind target) (blockOfJump? instrs' id a' kind target') := by
  rw [blockOfJump?, blockOfJump?]
  split
  · exact .none
  · simp only [hR.le_iff htarget ha]
    split
    · exact .some (Block.renamed_fresh id _ htarget ha)
    · refine .some (Block.renamed_fresh id _ ha ?_)
      -- the block ends in front of the target
      have hbefore := before?_renamed hR h htarget
      generalize before? instrs target = x at hbefore
      generalize before? instrs' target' = y at hbefore
      cases hbefore with
      | none => exact ha
      | some hstop => exact hstop

/-- **The blocks that jumps make** are related, or a jump is refused on both sides. -/
theorem blocksFrom_renamed (hR : KeepsOrder R) (h : List.Forall₂ (Instruction.Renamed R) instrs instrs')
    (hrest : List.Forall₂ (Instruction.Renamed R) rest rest') (id : Nat) :
    EndsAlike (List.Forall₂ (Block.Renamed R)) (blocksFrom instrs id rest) (blocksFrom instrs' id rest') := by
  induction hrest generalizing id with
  | nil => exact .ok .nil
  | @cons ins ins' rest rest' hins _ ih =>
      rw [blocksFrom, blocksFrom]
      have hjump := rel_jump? hins
      generalize ins.jump? = jump at hjump
      generalize ins'.jump? = jump' at hjump
      cases hjump with
      | none => exact ih id
      | @some jump jump' hjump =>
          obtain ⟨kind, target⟩ := jump
          obtain ⟨kind', target'⟩ := jump'
          obtain ⟨rfl, htarget⟩ : kind = kind' ∧ R target target' := hjump
          simp only [lastIndex?_renamed hR h htarget]
          split
          · exact .error rfl
          · have hblock := blockOfJump?_renamed hR h id kind hins.addr htarget
            generalize blockOfJump? instrs id ins.addr kind target = x at hblock
            generalize blockOfJump? instrs' id ins'.addr kind target' = y at hblock
            cases hblock with
            | none => exact ih id
            | some hblock => exact (ih (id + 1)).bind fun _ _ hblocks => .ok (.cons hblock hblocks)

/-- Related streams have related roots. -/
theorem root_renamed (h : List.Forall₂ (Instruction.Renamed R) instrs instrs') (hne : instrs ≠ []) :
    R (last instrs) (last instrs') ∧ (root instrs).Renamed R (root instrs') := by
  have hlast := rel_getLast? h
  cases h with
  | nil => exact absurd rfl hne
  | @cons ins ins' rest rest' hins _ =>
      rw [List.getLast?_cons, List.getLast?_cons] at hlast
      cases hlast with
      | some hlast =>
          have hlast : R (last (ins :: rest)) (last (ins' :: rest')) := by
            rw [last, last, List.getLast?_cons, List.getLast?_cons]
            exact hlast.addr
          exact ⟨hlast, Block.renamed_fresh 0 .root hins.addr hlast⟩

end Stream

end TorqueScript
