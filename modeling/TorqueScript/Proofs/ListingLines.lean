import TorqueScript.Listing
import TorqueScript.Proofs.JumpTargets

/-!
# Lines of a listing

A listing is meant to have one line for each instruction, and in front of it one line for each block that begins
with the instruction (`Listing.Lists`).  Strings and characters are shown in quotes with their line breaks
escaped, and numbers and opcodes have none.  Names are shown as they are, and so are tagged strings.

So the lines can be counted (`Listing.splitOn_text`): each instruction has one, and each line break in a tagged
string makes one more (`Listing.breaks_operands`).

**Lines** (`Stream.rows_of_text`).  The listing of a stream has the lines that it should have if and only if
no tagged string has a line break.
-/

namespace TorqueScript

namespace Text

/-! ### Line breaks -/

/-- The number of line breaks in a text. -/
def breaks (s : String) : Nat :=
  s.toList.count '\n'

@[simp] theorem breaks_append (s t : String) : breaks (s ++ t) = breaks s + breaks t := by
  simp [breaks]

theorem append_breaks {s t : String} (hs : breaks s = 0) (ht : breaks t = 0) : breaks (s ++ t) = 0 := by
  rw [breaks_append, hs, ht]

@[simp] theorem breaks_ofList (cs : List Char) : breaks (String.ofList cs) = cs.count '\n' := by
  simp [breaks]

theorem count_toDigits {b : Nat} (hb : 1 < b) (n : Nat) : (Nat.toDigits b n).count '\n' = 0 := by
  induction n using Nat.strongRecOn with
  | ind n ih =>
      have hdigit : ∀ k, [Nat.digitChar k].count '\n' = 0 := fun k =>
        List.count_cons_of_ne (Nat.digitChar_ne '\n' rfl)
      rw [Nat.toDigits_eq_if hb]
      split
      · exact hdigit n
      · rw [List.count_append, hdigit, ih (n / b) (Nat.div_lt_self (by omega) hb)]

@[simp] theorem breaks_repr (n : Nat) : breaks n.repr = 0 := by
  rw [Nat.repr_eq_ofList_toDigits, breaks_ofList, count_toDigits (by decide)]

@[simp] theorem breaks_toString (s : String) : breaks (toString s) = breaks s := rfl

/-- Between quotes, line breaks are escaped. -/
theorem count_showChar {quote : Char} (hquote : quote ≠ '\n') (c : Char) : (showChar quote c).count '\n' = 0 := by
  have hhex := count_toDigits (b := 16) (by decide) c.toNat
  unfold showChar hexDigits
  grind

/-- A text that is shown has its line breaks escaped. -/
theorem breaks_shown {quote : Char} (hquote : quote ≠ '\n') (cs : List Char) : breaks (shown quote cs) = 0 := by
  have hinside : (cs.flatMap (showChar quote)).count '\n' = 0 := by
    simp [List.count_flatMap, Function.comp_def, count_showChar hquote]
  rw [shown, breaks_ofList, List.count_cons_of_ne hquote, List.count_append, hinside, Nat.zero_add]
  exact List.count_cons_of_ne hquote

/-- Parts without line breaks are joined without one. -/
theorem breaks_intercalate {sep : String} {ss : List String} (hsep : breaks sep = 0) (h : ∀ s ∈ ss, breaks s = 0) :
    breaks (sep.intercalate ss) = 0 := by
  unfold breaks at *
  rw [String.toList_intercalate]
  induction ss with
  | nil => rfl
  | cons s ss ih =>
      obtain ⟨hs, hss⟩ := List.forall_mem_cons.mp h
      cases ss with
      | nil => simpa [List.intercalate] using hs
      | cons t ss =>
          rw [List.map_cons, List.map_cons, List.intercalate_cons_cons, List.count_append, List.count_append, hs, hsep,
            Nat.zero_add]
          exact ih hss

end Text

namespace Decimal

theorem breaks_positional (d : Decimal) : Text.breaks (d.positional "") = 0 := by
  have hdigits : d.digitChars.count '\n' = 0 := Text.count_toDigits (by decide) d.digits
  have htake : ∀ n, (d.digitChars.take n).count '\n' = 0 := fun n =>
    Nat.eq_zero_of_le_zero (hdigits ▸ (List.take_sublist n d.digitChars).count_le _)
  have hdrop : ∀ n, (d.digitChars.drop n).count '\n' = 0 := fun n =>
    Nat.eq_zero_of_le_zero (hdigits ▸ (List.drop_sublist n d.digitChars).count_le _)
  have hzeros : ∀ n, (List.replicate n '0').count '\n' = 0 := fun n => by simp [List.count_replicate]
  unfold positional
  dsimp only
  split
  · simp [hdigits, hzeros]
  · split
    · simp [Text.breaks, htake, hdrop]
    · simp [Text.breaks, hdigits, hzeros]

end Decimal

/-- The text of a number has no line break. -/
theorem Binary64.breaks_sourceText (x : Binary64) : Text.breaks x.sourceText = 0 := by
  unfold Binary64.sourceText
  have hsign : Text.breaks (if x.isNegative then "-" else "") = 0 := by split <;> rfl
  split
  · rfl
  · dsimp only
    rw [Text.breaks_append, hsign]
    split
    · exact (Nat.zero_add _).trans (Decimal.breaks_positional _)
    · rfl

theorem Opcode.breaks_label (op : Opcode) : Text.breaks op.label = 0 := by
  rw [Opcode.label, Text.breaks_append]
  cases op <;> decide

/-! ### What an instruction shows -/

namespace Operation

/-- The names in an operation. -/
def names : Operation → List String
  | declareFunction s _ _ => s.name :: s.nameSpace.toList ++ s.args ++ s.package.toList
  | createObject parent _ _ => parent.toList
  | selectVar name _ | selectField name | immediateIdent name => [name]
  | call name nameSpace _ _ => name :: nameSpace.toList
  | _ => []

/-- The line breaks that an operation shows as they are. -/
def breaks : Operation → Nat
  | immediateTag s => Text.breaks s
  | _ => 0

end Operation

namespace Listing

open Text

theorem breaks_flag (b : Bool) : breaks (flag b) = 0 := by
  cases b <;> rfl

theorem breaks_callName (callType : CallType) : breaks (callName callType) = 0 := by
  cases callType <;> rfl

/-- A name and its namespace have none if they had none. -/
theorem breaks_qualified {nameSpace : Option String} {name : String}
    (h : ∀ s ∈ name :: nameSpace.toList, breaks s = 0) : breaks (qualified nameSpace name) = 0 := by
  cases nameSpace with
  | none => exact h name List.mem_cons_self
  | some s =>
      have hs : breaks s = 0 := h s (by simp)
      have hname : breaks name = 0 := h name (by simp)
      have hcolons : breaks "::" = 0 := rfl
      simp [qualified, hs, hname, hcolons]

/-- What is shown of the package of a function. -/
def packageText : Option String → String
  | some p => " package=" ++ p
  | none => ""

/-- Of all operands only tagged strings are shown with the line breaks that they have. -/
theorem breaks_operands {op : Operation} (h : ∀ name ∈ op.names, breaks name = 0) :
    breaks (operands op) = op.breaks := by
  cases op with
  | declareFunction s hasBody stop =>
      obtain ⟨hname, hargs, hpackage⟩ : (∀ name ∈ s.name :: s.nameSpace.toList, breaks name = 0) ∧
          (∀ name ∈ s.args, breaks name = 0) ∧ ∀ name ∈ s.package.toList, breaks name = 0 := by
        simpa only [Operation.names, List.forall_mem_append, and_assoc] using h
      have hpackage : breaks (packageText s.package) = 0 := by
        cases hp : s.package with
        | none => rfl
        | some p => simp +decide [packageText, hpackage p (by simp [hp])]
      have hstop : breaks (if hasBody then s!" end={stop}" else "") = 0 := by
        cases hasBody <;> simp +decide
      have hhead : breaks (qualified s.nameSpace s.name ++ "(" ++ ", ".intercalate s.args ++ ")") = 0 := by
        simp +decide [breaks_qualified hname, @breaks_intercalate ", " _ rfl hargs]
      exact append_breaks (append_breaks hhead hpackage) hstop
  | createObject parent isDatablock failTarget =>
      have hparent : breaks (parent.getD "-") = 0 := by
        cases parent with
        | none => rfl
        | some p => exact h p List.mem_cons_self
      show breaks ("parent=" ++ parent.getD "-" ++ " datablock=" ++ flag isDatablock ++ s!" fail={failTarget}") = 0
      simp +decide [hparent, breaks_flag]
  | addObject atRoot | endObject atRoot =>
      show breaks ("root=" ++ flag atRoot) = 0
      simp +decide [breaks_flag]
  | jump _ target => exact breaks_repr target
  | selectVar name _ | selectField name | immediateIdent name => exact h name List.mem_cons_self
  | immediateUint v => exact breaks_repr v.toNat
  | immediateFloat x => exact x.breaks_sourceText
  | immediateStr s => exact breaks_shown (by decide) s.toList
  | advanceStrAppend c => exact breaks_shown (by decide) [c]
  | immediateTag s =>
      have hquote : breaks "'" = 0 := rfl
      show breaks ("'" ++ s ++ "'") = breaks s
      rw [breaks_append, breaks_append, hquote, Nat.zero_add, Nat.add_zero]
  | call name nameSpace callType _ =>
      show breaks (qualified nameSpace name ++ " (" ++ callName callType ++ ")") = 0
      simp +decide [breaks_qualified h, breaks_callName]
  | ret hasValue => cases hasValue <;> rfl
  | _ => rfl

/-! ### Lines -/

/-- What the line of an instruction begins with. -/
def lineHead (ins : Instruction) : String :=
  padLeft 5 '0' (toString ins.addr) ++ " " ++ padRight 24 ' ' ins.opcode.label

/-- What the line in front of a block begins with. -/
def blockHead (b : Block) : String :=
  let label := match b.kind with
    | .loop => "loop"
    | _ => "conditional"
  s!"      ; {label} [{b.start}, {b.stop}]"

/-- The line begins with the text. -/
def Begins (head : String) (row : List Char) : Prop :=
  head.toList <+: row

theorem begins_append {head s : String} : Begins head (head ++ s).toList := by
  rw [Begins, String.toList_append]
  exact List.prefix_append _ _

theorem breaks_padLeft (width : Nat) (s : String) : breaks (padLeft width '0' s) = breaks s := by
  simp [padLeft, List.count_replicate]

theorem breaks_padRight (width : Nat) (s : String) : breaks (padRight width ' ' s) = breaks s := by
  simp [padRight, List.count_replicate]

/-- What is shown of a point at which a loop goes on. -/
def pointText : Option Addr → String
  | some point => s!" continue={point}"
  | none => ""

/-- Blocks other than the root have a header of one line. -/
theorem exists_header {b : Block} (h : b.kind ≠ .root) :
    ∃ s, header b = some (blockHead b ++ s ++ "\n") ∧ breaks (blockHead b ++ s) = 0 := by
  have hpoint : breaks (pointText b.continuePoint) = 0 := by
    cases b.continuePoint <;> simp +decide [pointText]
  have hhead : breaks (blockHead b) = 0 := by
    unfold blockHead
    cases b.kind <;> simp +decide
  refine ⟨pointText b.continuePoint, ?_, append_breaks hhead hpoint⟩
  unfold header blockHead
  cases hkind : b.kind with
  | root => exact absurd hkind h
  | conditional | loop => rfl

theorem breaks_lineHead (ins : Instruction) : breaks (lineHead ins) = 0 := by
  have haddr : breaks (padLeft 5 '0' (toString ins.addr)) = 0 :=
    (breaks_padLeft _ _).trans (breaks_repr ins.addr)
  have hlabel : breaks (padRight 24 ' ' ins.opcode.label) = 0 := by
    rw [breaks_padRight, ins.opcode.breaks_label]
  exact append_breaks (append_breaks haddr rfl) hlabel

/-- What the line of an instruction shows behind the opcode. -/
def lineTail (branches : List Branch) (lineBreaks : List LineBreak) (ins : Instruction) : String :=
  (if (operands ins.operation).isEmpty then "" else " " ++ operands ins.operation) ++
    (match Branch.find? ins.addr branches with
      | some branch => "       ; " ++ className branch.kind
      | none => "") ++
    (match sourceLine? lineBreaks ins.addr with
      | some n => s!"       ; line {n}"
      | none => "")

/-- A line is its head and its tail, and ends with a line break. -/
theorem line_eq (branches : List Branch) (lineBreaks : List LineBreak) (ins : Instruction) :
    line branches lineBreaks ins = lineHead ins ++ lineTail branches lineBreaks ins ++ "\n" := by
  unfold line lineHead lineTail
  cases Branch.find? ins.addr branches <;> cases sourceLine? lineBreaks ins.addr <;>
    simp only [String.append_assoc]

/-- A line has the breaks of its operation, apart from the one at its end. -/
theorem breaks_lineTail (branches : List Branch) (lineBreaks : List LineBreak) {ins : Instruction}
    (h : ∀ name ∈ ins.operation.names, breaks name = 0) :
    breaks (lineTail branches lineBreaks ins) = ins.operation.breaks := by
  have hshown : breaks (if (operands ins.operation).isEmpty then "" else " " ++ operands ins.operation) =
      ins.operation.breaks := by
    rw [← breaks_operands h]
    split
    · next hempty => rw [String.isEmpty_iff.mp hempty]
    · exact (breaks_append _ _).trans (Nat.zero_add _)
  have hclass : breaks (match Branch.find? ins.addr branches with
      | some branch => "       ; " ++ className branch.kind
      | none => "") = 0 := by
    cases Branch.find? ins.addr branches with
    | none => rfl
    | some branch =>
        obtain ⟨_, _, kind⟩ := branch
        cases kind <;> simp +decide [className]
  have hsource : breaks (match sourceLine? lineBreaks ins.addr with
      | some n => s!"       ; line {n}"
      | none => "") = 0 := by
    cases sourceLine? lineBreaks ins.addr <;> simp +decide
  rw [lineTail, breaks_append, breaks_append, hshown, hclass, hsource, Nat.add_zero]

/-- The block is not the whole stream. -/
def isInner (b : Block) : Bool :=
  b.kind != .root

/-- The rows have one for each instruction, in the order of the stream, and in front of it one for each block that
begins with the instruction, in the order of the tree. -/
inductive Lists (tree : Block) : List Instruction → List (List Char) → Prop where
  | nil : Lists tree [] []
  | cons {ins : Instruction} {instrs : List Instruction} {headers rows : List (List Char)} {row : List Char}
      (hheaders : List.Forall₂ (fun b => Begins (blockHead b)) ((tree.startingAt ins.addr).filter isInner) headers)
      (hrow : Begins (lineHead ins) row) (hrows : Lists tree instrs rows) :
      Lists tree (ins :: instrs) (headers ++ row :: rows)

/-- **There is one row for each instruction and one for each block that starts at it.** -/
theorem Lists.length_rows {tree : Block} {instrs : List Instruction} {rows : List (List Char)}
    (h : Lists tree instrs rows) : rows.length =
      instrs.length + (instrs.map fun ins => ((tree.startingAt ins.addr).filter isInner).length).sum := by
  induction h with
  | nil => rfl
  | cons hheaders _ _ ih =>
      rw [List.length_append, List.length_cons, ih, ← hheaders.length_eq, List.length_cons, List.map_cons,
        List.sum_cons]
      omega

/-! ### Splitting the text -/

/-- Splitting at line breaks gives one row more than there are breaks. -/
theorem length_splitOn (cs : List Char) : (cs.splitOn '\n').length = cs.count '\n' + 1 := by
  unfold List.splitOn
  induction cs with
  | nil => rfl
  | cons c cs ih =>
      rw [List.splitOnP_cons_eq_if_modifyHead, List.count_cons]
      split <;> simp [ih]

/-- A line is split off before the rest. -/
theorem splitOn_line (s : String) (rest : List Char) :
    ((s ++ "\n").toList ++ rest).splitOn '\n' = s.toList.splitOn '\n' ++ rest.splitOn '\n' := by
  rw [String.toList_append, List.append_assoc]
  exact List.splitOn_append_cons_self s.toList rest

theorem splitOn_of_breaks {s : String} (h : breaks s = 0) : s.toList.splitOn '\n' = [s.toList] :=
  List.splitOn_eq_singleton (List.count_eq_zero.mp h)

/-- The lines in front of an instruction are one for each of the blocks. -/
theorem splitOn_headers (bs : List Block) :
    ∃ headers, List.Forall₂ (fun b => Begins (blockHead b)) (bs.filter isInner) headers ∧
      ∀ rest, ((String.join (bs.filterMap header)).toList ++ rest).splitOn '\n' =
        headers ++ rest.splitOn '\n' := by
  induction bs with
  | nil => exact ⟨[], .nil, fun _ => rfl⟩
  | cons b bs ih =>
      obtain ⟨headers, hheaders, hrest⟩ := ih
      by_cases hroot : b.kind = .root
      · have hinner : isInner b = false := by simp [isInner, hroot]
        have hheader : header b = none := by simp [header, hroot]
        rw [List.filter_cons_of_neg (by simp [hinner]), List.filterMap_cons_none hheader]
        exact ⟨headers, hheaders, hrest⟩
      · have hinner : isInner b = true := by simpa [isInner] using hroot
        obtain ⟨s, hheader, hbreaks⟩ := exists_header hroot
        rw [List.filter_cons_of_pos hinner, List.filterMap_cons_some hheader]
        refine ⟨(blockHead b ++ s).toList :: headers, .cons begins_append hheaders, fun rest => ?_⟩
        rw [String.join_cons, String.toList_append, List.append_assoc, splitOn_line, splitOn_of_breaks hbreaks, hrest]
        rfl

/-- Each instruction has its rows in the listing: those of its blocks and its own, which the breaks of its operation
divide. -/
theorem splitOn_text (tree : Block) (lineBreaks : List LineBreak) {instrs : List Instruction}
    (h : ∀ ins ∈ instrs, ∀ name ∈ ins.operation.names, breaks name = 0) :
    ∃ rows, (text tree lineBreaks instrs).toList.splitOn '\n' = rows ++ [[]] ∧
      rows.length = instrs.length +
        (instrs.map fun ins => ((tree.startingAt ins.addr).filter isInner).length).sum +
        (instrs.map (·.operation.breaks)).sum ∧
      ((∀ ins ∈ instrs, ins.operation.breaks = 0) → Lists tree instrs rows) := by
  induction instrs with
  | nil => exact ⟨[], rfl, rfl, fun _ => .nil⟩
  | cons ins instrs ih =>
      obtain ⟨hins, hinstrs⟩ := List.forall_mem_cons.mp h
      obtain ⟨rows, htext, hlength, hlists⟩ := ih hinstrs
      obtain ⟨headers, hheaders, hsplit⟩ := splitOn_headers (tree.startingAt ins.addr)
      have hbreaks : breaks (lineHead ins ++ lineTail tree.allBranches lineBreaks ins) = ins.operation.breaks := by
        rw [breaks_append, breaks_lineHead, Nat.zero_add, breaks_lineTail _ _ hins]
      refine ⟨headers ++ ((lineHead ins ++ lineTail tree.allBranches lineBreaks ins).toList.splitOn '\n' ++ rows),
        ?_, ?_, fun hall => ?_⟩
      · have hcons : text tree lineBreaks (ins :: instrs) =
            String.join ((tree.startingAt ins.addr).filterMap header) ++
              (line tree.allBranches lineBreaks ins ++ text tree lineBreaks instrs) := by
          simp [text, lines]
        rw [hcons, String.toList_append, hsplit, String.toList_append, line_eq, splitOn_line, htext,
          List.append_assoc, List.append_assoc]
      · rw [List.length_append, List.length_append, ← hheaders.length_eq, length_splitOn, hlength, List.map_cons,
          List.map_cons, List.sum_cons, List.sum_cons, List.length_cons]
        change _ + (breaks _ + 1 + _) = _
        rw [hbreaks]
        omega
      · obtain ⟨hnone, hall⟩ := List.forall_mem_cons.mp hall
        rw [splitOn_of_breaks (hbreaks.trans hnone)]
        exact .cons hheaders begins_append (hlists hall)

end Listing

namespace Stream

open Listing

variable {instrs : List Instruction} {tree : Block}

/-! ### The listing of a stream -/

/-- If blocks begin at instructions, each of them is counted at one instruction. -/
theorem sum_length_filter_start (h : Increasing instrs) {bs : List Block}
    (hbs : ∀ b ∈ bs, Occurs instrs b.start) :
    (instrs.map fun ins => (bs.filter (·.start == ins.addr)).length).sum = bs.length := by
  induction instrs generalizing bs with
  | nil =>
      cases bs with
      | nil => rfl
      | cons b bs =>
          obtain ⟨ins, hins, -⟩ := hbs b List.mem_cons_self
          cases hins
  | cons ins instrs ih =>
      obtain ⟨hlt, hrest⟩ := List.pairwise_cons.mp h
      have hothers : ∀ b ∈ bs.filter (!·.start == ins.addr), Occurs instrs b.start := by
        intro b hb
        obtain ⟨hb, hne⟩ := List.mem_filter.mp hb
        obtain ⟨ins', hins', haddr⟩ := hbs b hb
        rcases List.mem_cons.mp hins' with rfl | hins'
        · simp [haddr] at hne
        · exact ⟨ins', hins', haddr⟩
      have hsame : ∀ ins' ∈ instrs, (bs.filter (·.start == ins'.addr)).length =
          ((bs.filter (!·.start == ins.addr)).filter (·.start == ins'.addr)).length := by
        intro ins' hins'
        rw [List.filter_filter]
        congr 1
        refine List.filter_congr fun b _ => ?_
        have hne := (hlt ins' hins').ne'
        grind
      rw [List.map_cons, List.sum_cons, List.map_congr_left hsame, ih hrest hothers,
        ← List.length_eq_length_filter_add]

/-- Every block but the root is listed at the instruction where it starts. -/
theorem sum_startingAt (h : Increasing instrs) (htree : blockTree instrs = .ok tree) :
    (instrs.map fun ins => ((tree.startingAt ins.addr).filter isInner).length).sum =
      (tree.preorder.filter isInner).length := by
  obtain ⟨made, -, hseeds, hcomplete⟩ := complete_of_blockTree h htree
  have hoccurs : ∀ b ∈ tree.preorder.filter isInner, Occurs instrs b.start := by
    intro b hb
    obtain ⟨hb, hinner⟩ := List.mem_filter.mp hb
    rcases List.mem_cons.mp (hcomplete.blocks_perm.mem_iff.mp (List.mem_map_of_mem hb)) with hroot | hmade
    · have hkind : b.kind = .root := congrArg (·.kind) hroot
      simp [isInner, hkind] at hinner
    · exact (hseeds.bounds h (lands_of_blockTree htree) hmade).1
  rw [← sum_length_filter_start h hoccurs]
  simp only [Block.startingAt, List.filter_filter, Bool.and_comm]

/-- **Lines of a listing.**  The listing of a stream whose names have no line breaks is a sequence of lines: one for
each instruction and each inner block, and one more for each line break in a tagged string.  They are the lines that
it should have just if no tagged string has a line break.  The blocks that begin with an instruction are listed outer
ones first, each of them once. -/
theorem rows_of_text (h : Increasing instrs) (htree : (analyze instrs).outcome.1 = .ok tree)
    (hnames : ∀ ins ∈ instrs, ∀ name ∈ ins.operation.names, Text.breaks name = 0) (lineBreaks : List LineBreak) :
    ∃ rows, (Listing.text tree lineBreaks instrs).toList.splitOn '\n' = rows ++ [[]] ∧
      rows.length = instrs.length + (tree.preorder.filter isInner).length +
        (instrs.map (·.operation.breaks)).sum ∧
      (Lists tree instrs rows ↔ ∀ ins ∈ instrs, ins.operation.breaks = 0) ∧
      ∀ a, (tree.startingAt a).Pairwise Block.Surrounds ∧
        ∀ b, b ∈ tree.startingAt a ↔ b ∈ tree.preorder ∧ b.start = a := by
  rw [outcome_analyze] at htree
  obtain ⟨_, -, -, hcomplete⟩ := complete_of_blockTree h htree
  obtain ⟨rows, htext, hlength, hlists⟩ := splitOn_text tree lineBreaks hnames
  refine ⟨rows, htext, hlength.trans (by rw [sum_startingAt h htree]), ⟨fun hrows => ?_, hlists⟩, fun a =>
    ⟨hcomplete.tidy.pairwise_startingAt a, fun b => Block.mem_startingAt⟩⟩
  have hsum : (instrs.map (·.operation.breaks)).sum = 0 := by
    have hrows := hrows.length_rows
    omega
  exact fun ins hins => List.sum_eq_zero_iff.mp hsum _ (List.mem_map_of_mem hins)

/-- A loop in a conditional block, with line breaks in a string and in an appended character. -/
def quotedBreaks : List Instruction :=
  [⟨0, 2, .jmpIfNot, .jump .ifNot 8⟩, ⟨2, 2, .loadImmedStr, .immediateStr "a\nb"⟩,
    ⟨4, 2, .advanceStrAppendChar, .advanceStrAppend '\n'⟩, ⟨6, 2, .jmpIf, .jump .ifTrue 0⟩, ⟨8, 1, .ret, .ret false⟩]

/-- The block tree of `quotedBreaks`. -/
def quotedBreaksTree : Block :=
  let loop : Block := ⟨2, .loop, 0, 6, [], none, []⟩
  let choice : Block := ⟨1, .conditional, 0, 6, [], none, [loop]⟩
  ⟨0, .root, 0, 8, [], none, [choice]⟩

/-- Line breaks that are quoted add no rows. -/
theorem rows_of_text_quotedBreaks :
    (analyze quotedBreaks).outcome.1 = .ok quotedBreaksTree ∧
      ∃ rows, (Listing.text quotedBreaksTree [⟨0, 1⟩] quotedBreaks).toList.splitOn '\n' = rows ++ [[]] ∧
        rows.length = 7 ∧ Lists quotedBreaksTree quotedBreaks rows := by
  have hincreasing : Increasing quotedBreaks := by
    unfold Increasing quotedBreaks
    decide
  have htree : (analyze quotedBreaks).outcome.1 = .ok quotedBreaksTree := by cbv
  obtain ⟨rows, htext, hlength, hlists, -⟩ := rows_of_text hincreasing htree (by decide) [⟨0, 1⟩]
  exact ⟨htree, rows, htext, hlength, hlists.mpr (by decide)⟩

/-- A tagged string with a line break. -/
def taggedBreak : List Instruction :=
  [⟨0, 2, .tagToStr, .immediateTag "a\nb"⟩]

/-- The listing of `taggedBreak` has two lines for one instruction. -/
theorem not_lists_taggedBreak :
    Increasing taggedBreak ∧ ∃ tree, (analyze taggedBreak).outcome.1 = .ok tree ∧
      (∀ ins ∈ taggedBreak, ∀ name ∈ ins.operation.names, Text.breaks name = 0) ∧
      ¬ ∃ rows, (Listing.text tree [] taggedBreak).toList.splitOn '\n' = rows ++ [[]] ∧
        Lists tree taggedBreak rows := by
  refine ⟨List.pairwise_singleton _ _, ⟨0, .root, 0, 0, [], none, []⟩, by cbv, by decide, ?_⟩
  rintro ⟨rows, htext, hrows⟩
  have htwo : rows.length + 1 = 3 := by
    rw [← List.length_singleton, ← List.length_append, ← htext]
    decide
  have hone : rows.length = 1 := hrows.length_rows
  omega

end Stream

end TorqueScript
