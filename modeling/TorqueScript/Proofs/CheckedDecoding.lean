import TorqueScript.Proofs.CheckedReading
import TorqueScript.Proofs.Decoding
import TorqueScript.Proofs.FileLayout

/-!
# Decoding with checks

Operands are read here at an address (`Pointer`), not from a list of the words that follow the opcode.  Moving
the address on may overflow, an opcode that is known but not allowed is told with the word that is looked up
at its address, and the size of an instruction is a difference of two addresses.

None of this slips.  The address is always that of the next operand word and at most the number of code words
(`Site.At`), because it is moved only behind a word that has been found.  This is kept by each way of reading an
operand (`Pointer.mirrors_word` and the lemmas after it), and so by every opcode
(`Pointer.mirrors_operation`).  And the number of code words is written in a word of the file
(`Image.length_code_le`).

**Decoding** (`Checked.instructions_ends`).  Whatever the code words are, decoding with checks has the outcome
of decoding, and the address behind every instruction fits into a word.
-/

namespace TorqueScript

/-- Where the operands of an instruction are read. -/
structure Spot where
  image : Image
  /-- The pools that string and number operands refer to. -/
  pools : Pools
  addr : Addr
  opcode : Opcode

/-- Reads operands of an instruction.  The state is the address of the next code word. -/
abbrev Pointer := ReaderT Spot (StateT Addr Checked)

namespace Pointer

variable {α β : Type}

/-- The next operand word. -/
def word : Pointer UInt32 := fun spot ip =>
  match spot.image.code[ip]? with
  | none => throw (.truncatedOperand spot.addr spot.opcode)
  | some w => do
    let next ← Checked.add ip 1
    pure (w, next)

/-- An address operand. -/
def address : Pointer Addr := do
  let w ← word
  pure w.toNat

/-- An operand that is false if it is zero. -/
def flag : Pointer Bool := do
  let w ← word
  pure (w != 0)

/-- An identifier that may be missing. -/
def identifier? : Pointer (Option String) := do
  let spot ← read
  let ip ← get
  let w ← word
  match spot.image.identifier? ip with
  | some name => pure (some name)
  | none => if w = 0 then pure none else throw (.unresolvedIdentifier spot.addr ip)

/-- An identifier that must be there. -/
def identifier : Pointer String := do
  let spot ← read
  let ip ← get
  match ← identifier? with
  | some name => pure name
  | none => throw (.unresolvedIdentifier spot.addr ip)

/-- A list of `n` identifiers. -/
def identifiers : Nat → Pointer (List String)
  | 0 => pure []
  | n + 1 => do
    let name ← identifier
    let names ← identifiers n
    pure (name :: names)

/-- A string of the pool. -/
def string : Pointer String := do
  let spot ← read
  let offset ← word
  match ← Cursor.string? spot.pools.strings offset.toNat with
  | some s => pure s
  | none => throw (.invalidStringOffset offset.toNat)

/-- A number of the pool. -/
def float : Pointer Binary64 := do
  let spot ← read
  let index ← word
  match spot.pools.floats[index.toNat]? with
  | some x => pure x
  | none => throw (.invalidFloatIndex index.toNat)

/-- How a call finds its function. -/
def callType : Pointer CallType := do
  let spot ← read
  let w ← word
  match w.toNat with
  | 0 => pure .function
  | 1 => pure .method
  | 2 => pure .parent
  | v => throw (.invalidCallType spot.addr v)

/-- A character given by its code. -/
def char : Pointer Char := do
  let spot ← read
  let w ← word
  if w.toNat.isValidChar then pure (Char.ofNat w.toNat)
  else throw (.invalidAppendChar spot.addr w.toNat)

/-- A jump of a given kind. -/
def jump (kind : JumpKind) : Pointer Operation := do
  let target ← address
  pure (.jump kind target)

/-- A call. -/
def call (resolve : Bool) : Pointer Operation := do
  let name ← identifier
  let nameSpace ← identifier?
  let type ← callType
  pure (.call name nameSpace type resolve)

/-- A function declaration. -/
def declaration : Pointer Operation := do
  let name ← identifier
  let nameSpace ← identifier?
  let package ← identifier?
  let hasBody ← flag
  let stop ← address
  let count ← word
  let args ← identifiers count.toNat
  pure (.declareFunction { name, nameSpace, package, args } hasBody stop)

/-- The operation of an opcode without operands.  Nothing of the file is looked at. -/
def bare (opcode : Opcode) (live : Bool) : Pointer Operation :=
  let site : Site := { image := default, pools := default, addr := 0, opcode, word := 0, words := [] }
  Checked.of (Prod.fst <$> Operands.operation live site 0)

/-- The operation of an opcode with its operands. -/
def operation (live : Bool) : Pointer Operation := do
  let spot ← read
  match spot.opcode with
  | .funcDecl => declaration
  | .createObject => do
    let parent ← identifier?
    let isDatablock ← flag
    let failTarget ← address
    pure (.createObject parent isDatablock failTarget)
  | .addObject => do pure (.addObject (← flag))
  | .endObject => do pure (.endObject (← flag))
  | .jmpIfFloatNot => jump .ifFloatNot
  | .jmpIfNot => jump .ifNot
  | .jmpIfFloat => jump .ifFloat
  | .jmpIf => jump .ifTrue
  | .jmpIfNotNp => jump .ifNotKeep
  | .jmpIfNp => jump .ifKeep
  | .jmp => jump .always
  | .setCurVar => do pure (.selectVar (← identifier) false)
  | .setCurVarCreate => do pure (.selectVar (← identifier) true)
  | .setCurField => do pure (.selectField (← identifier))
  | .loadImmedUint => do pure (.immediateUint (← word))
  | .loadImmedFloat => do pure (.immediateFloat (← float))
  | .tagToStr => do pure (.immediateTag (Operands.untag (← string)))
  | .loadImmedStr => do pure (.immediateStr (← string))
  | .loadImmedIdent => do pure (.immediateIdent (← identifier))
  | .callFuncResolve => call true
  | .callFunc => call false
  | .advanceStrAppendChar => do pure (.advanceStrAppend (← char))
  | .invalid => do
    let w ← Checked.get spot.image.code spot.addr
    throw (.invalidOpcode spot.addr w.toNat)
  | opcode => bare opcode live

end Pointer

namespace Checked

/-- Decodes the instruction at an address; also gives the address behind it. -/
def instruction (image : Image) (table : Opcode.Table) (d : Decoder) (ip : Addr) :
    Checked (Instruction × Addr) := do
  let word ← get image.code ip
  match table.lookup word.toNat with
  | none => throw (.invalidOpcode ip word.toNat)
  | some opcode => do
    let next ← add ip 1
    let (operation, next) ← Pointer.operation d.live { image, pools := d.pools image, addr := ip, opcode } next
    let size ← sub next ip
    pure ({ addr := ip, size, opcode, operation }, next)

/-- Decodes the code words from an address on. -/
def instructionsFrom (image : Image) (table : Opcode.Table) : Nat → Decoder → Addr → Checked (List Instruction)
  | 0, _, _ => slip .outOfSteps
  | steps + 1, d, ip =>
    if ip < image.code.length then do
      let d := d.enter ip
      let (ins, next) ← instruction image table d ip
      -- the address behind an instruction fits
      let _ ← add ins.addr ins.size
      let rest ← instructionsFrom image table steps (d.after ins.operation) next
      pure (ins :: rest)
    else pure []

/-- Decodes all code words of a file. -/
def instructions (image : Image) (table : Opcode.Table) (steps : Nat) : Checked (List Instruction) :=
  instructionsFrom image table steps {} 0

end Checked

namespace Site

/-- The site without the words of the instruction. -/
def spot (site : Site) : Spot :=
  { image := site.image, pools := site.pools, addr := site.addr, opcode := site.opcode }

/-- The words of the site are those of its file from its address on. -/
structure Placed (site : Site) : Prop where
  word_eq : site.image.code[site.addr]? = some site.word
  words_eq : site.words = site.image.code.drop (site.addr + 1)
  length_le : site.image.code.length ≤ Addr.last

/-- The address of the next operand word. -/
def At (site : Site) (ip used : Nat) : Prop :=
  ip = site.addr + (used + 1) ∧ ip ≤ site.image.code.length

end Site

namespace Pointer

/-- What is read at an address is what is read behind the opcode. -/
def Mirrors (p : Pointer α) (o : Operands α) : Prop :=
  ∀ site : Site, site.Placed → Checked.Mirrors site.At (p site.spot) (o site)

namespace Mirrors

variable {α β : Type} {p : Pointer α} {o : Operands α} {f : α → Pointer β} {g : α → Operands β}

theorem pure (a : α) : Mirrors (Pure.pure a) (Pure.pure a) :=
  fun _ _ => .pure a

theorem throw (e : Error) : Mirrors (throw e : Pointer α) (throw e) :=
  fun _ _ => .throw e

theorem bind (h : Mirrors p o) (hfg : ∀ a, Mirrors (f a) (g a)) : Mirrors (p >>= f) (o >>= g) :=
  fun site hsite => (h site hsite).bind fun a => hfg a site hsite

/-- The site is known from here on. -/
theorem read {f : Spot → Pointer β} {g : Site → Operands β}
    (h : ∀ site : Site, site.Placed → Mirrors (f site.spot) (g site)) :
    Mirrors (MonadReader.read >>= f) (MonadReader.read >>= g) :=
  fun site hsite => h site hsite site hsite

end Mirrors

theorem mirrors_position : Mirrors get Operands.position := by
  rintro site - ip used ⟨rfl, hip⟩
  have haddr : site.addr + 1 + used = site.addr + (used + 1) := Nat.succ_add_eq_add_succ _ _
  rw [Operands.position, haddr]
  exact .pure ⟨rfl, rfl, hip⟩

theorem mirrors_word : Mirrors word Operands.word := by
  rintro site hsite ip used ⟨rfl, hip⟩
  have hwords : site.words[used]? = site.image.code[site.addr + (used + 1)]? := by
    rw [hsite.words_eq, List.getElem?_drop, Nat.succ_add_eq_add_succ]
  have hsame : site.spot.image.code = site.image.code := rfl
  simp only [Operands.word, word, hwords, hsame]
  cases hw : site.image.code[site.addr + (used + 1)]? with
  | none => exact .inl ⟨_, rfl, rfl⟩
  | some w =>
      have hlt := (List.getElem?_eq_some_iff.mp hw).1
      refine .inr ⟨(w, site.addr + (used + 1) + 1), (w, used + 1), rfl, ?_, rfl, rfl, hlt⟩
      dsimp only
      rw [Checked.add_eq (Nat.le_trans hlt hsite.length_le), pure_bind]

theorem mirrors_address : Mirrors address Operands.address :=
  .bind mirrors_word fun _ => .pure _

theorem mirrors_flag : Mirrors flag Operands.flag :=
  .bind mirrors_word fun _ => .pure _

theorem mirrors_identifier? : Mirrors identifier? Operands.identifier? := by
  refine .read fun site hsite => .bind mirrors_position fun ip => .bind mirrors_word fun w => ?_
  show Mirrors _ _
  have hsame : site.spot.image.identifier? ip = site.image.identifier? ip := rfl
  rw [hsame]
  cases site.image.identifier? ip with
  | some name => exact .pure _
  | none =>
      dsimp only
      split
      · exact .pure _
      · exact .throw _

theorem mirrors_identifier : Mirrors identifier Operands.identifier := by
  refine .read fun site hsite => .bind mirrors_position fun ip => .bind mirrors_identifier? fun name => ?_
  cases name with
  | some name => exact .pure _
  | none => exact .throw _

theorem mirrors_identifiers (n : Nat) : Mirrors (identifiers n) (Operands.identifiers n) := by
  induction n with
  | zero => exact .pure _
  | succ n ih => exact .bind mirrors_identifier fun _ => ih.bind fun _ => .pure _

theorem mirrors_string : Mirrors string Operands.string := by
  refine .read fun site hsite => .bind mirrors_word fun offset => ?_
  rw [Cursor.string?_eq]
  have hsame : site.spot.pools.strings.get? offset.toNat = site.pools.strings.get? offset.toNat := rfl
  rw [hsame]
  cases site.pools.strings.get? offset.toNat with
  | some s => exact .pure _
  | none => exact .throw _

theorem mirrors_float : Mirrors float Operands.float := by
  refine .read fun site hsite => .bind mirrors_word fun index => ?_
  have hsame : site.spot.pools.floats[index.toNat]? = site.pools.floats[index.toNat]? := rfl
  rw [hsame]
  cases site.pools.floats[index.toNat]? with
  | some s => exact .pure _
  | none => exact .throw _

theorem mirrors_callType : Mirrors callType Operands.callType := by
  refine .read fun site hsite => .bind mirrors_word fun w => ?_
  generalize w.toNat = v
  match v with
  | 0 | 1 | 2 => exact .pure _
  | v + 3 => exact .throw _

theorem mirrors_char : Mirrors char Operands.char := by
  refine .read fun site hsite => .bind mirrors_word fun w => ?_
  split
  · exact .pure _
  · exact .throw _

theorem mirrors_jump (kind : JumpKind) : Mirrors (jump kind) (Operands.jump kind) :=
  .bind mirrors_address fun _ => .pure _

theorem mirrors_call (resolve : Bool) : Mirrors (call resolve) (Operands.call resolve) :=
  .bind mirrors_identifier fun _ => .bind mirrors_identifier? fun _ => .bind mirrors_callType fun _ => .pure _

theorem mirrors_declaration : Mirrors declaration Operands.declaration :=
  .bind mirrors_identifier fun _ => .bind mirrors_identifier? fun _ => .bind mirrors_identifier? fun _ =>
    .bind mirrors_flag fun _ => .bind mirrors_address fun _ => .bind mirrors_word fun _ =>
      .bind (mirrors_identifiers _) fun _ => .pure _

theorem mirrors_operation (live : Bool) : Mirrors (operation live) (Operands.operation live) := by
  refine .read fun site hsite => ?_
  obtain ⟨image, pools, addr, opcode, word, words⟩ := site
  cases opcode with
  | funcDecl => exact mirrors_declaration
  | createObject =>
      exact .bind mirrors_identifier? fun _ => .bind mirrors_flag fun _ => .bind mirrors_address fun _ => .pure _
  | addObject | endObject => exact .bind mirrors_flag fun _ => .pure _
  | jmpIfFloatNot | jmpIfNot | jmpIfFloat | jmpIf | jmpIfNotNp | jmpIfNp | jmp => exact mirrors_jump _
  | setCurVar | setCurVarCreate | setCurField | loadImmedIdent => exact .bind mirrors_identifier fun _ => .pure _
  | loadImmedUint => exact .bind mirrors_word fun _ => .pure _
  | loadImmedFloat => exact .bind mirrors_float fun _ => .pure _
  | tagToStr | loadImmedStr => exact .bind mirrors_string fun _ => .pure _
  | callFuncResolve | callFunc => exact mirrors_call _
  | advanceStrAppendChar => exact .bind mirrors_char fun _ => .pure _
  | invalid =>
      -- the word of the opcode lies in the code, because the opcode was read there
      have hget : Checked.get image.code addr = pure word := Checked.get_eq hsite.word_eq
      show Mirrors (liftM (Checked.get image.code addr) >>= _) _
      rw [hget]
      exact .throw _
  | _ => exact fun _ _ ip used h => .inr ⟨(_, ip), (_, used), rfl, rfl, rfl, h⟩

end Pointer

namespace Checked

variable {image : Image} {table : Opcode.Table} {d : Decoder} {ip : Addr}

/-- An instruction that begins inside the code ends there, or it is refused. -/
theorem instruction_tracks (hlength : image.code.length ≤ Addr.last) (hip : ip < image.code.length) :
    Tracks (fun p ins => p = (ins, ip + ins.size) ∧ ip + ins.size ≤ image.code.length)
      (instruction image table d ip) (d.instruction image table ip image.code[ip] (image.code.drop (ip + 1))) := by
  have hget : get image.code ip = pure image.code[ip] := get_eq (List.getElem?_eq_getElem hip)
  rw [instruction, hget, pure_bind, Decoder.instruction]
  cases hopcode : table.lookup image.code[ip].toNat with
  | none => exact .throw _
  | some opcode =>
      let site : Site := { image, pools := d.pools image, addr := ip, opcode, word := image.code[ip]
                           words := image.code.drop (ip + 1) }
      have hplaced : site.Placed := ⟨List.getElem?_eq_getElem hip, rfl, hlength⟩
      have hat : site.At (ip + 1) 0 := ⟨rfl, hip⟩
      dsimp only
      rw [add_eq (Nat.le_trans hip hlength), pure_bind]
      refine (Pointer.mirrors_operation d.live site hplaced (ip + 1) 0 hat).bind ?_
      rintro ⟨op, next⟩ ⟨_, used⟩ ⟨rfl, hused, hnext⟩
      dsimp only at hused hnext
      subst hused
      have hsize : sub (ip + (used + 1)) ip = pure (used + 1) := by
        rw [sub_eq (Nat.le_add_right _ _), Nat.add_sub_cancel_left]
      show Tracks _ (sub (ip + (used + 1)) ip >>= _) _
      rw [hsize, pure_bind]
      exact .pure ⟨rfl, hnext⟩

theorem instructionsFrom_ends (hlength : image.code.length ≤ Addr.last) (hip : ip ≤ image.code.length) :
    Ends (fun steps => instructionsFrom image table steps d ip)
      (of (d.instructions image table ip (image.code.drop ip))) := by
  induction hleft : image.code.length - ip using Nat.strongRecOn generalizing d ip with
  | ind left ih =>
      subst hleft
      refine .succ ?_
      by_cases hlt : ip < image.code.length
      · simp only [instructionsFrom, if_pos hlt]
        rw [List.drop_eq_getElem_cons hlt, Decoder.instructions]
        rcases instruction_tracks hlength hlt with ⟨e, hmodel, hchecked⟩ | ⟨_, ins, hmodel, hchecked, rfl, hle⟩
        · rw [hmodel, hchecked]
          exact .const _
        · obtain ⟨haddr, hsize⟩ := Decoder.instruction_eq_ok hmodel
          have hrest : (image.code.drop (ip + 1)).drop (ins.size - 1) = image.code.drop (ip + ins.size) := by
            rw [List.drop_drop]
            congr 1
            omega
          simp only [hmodel, hchecked, pure_bind, haddr, add_eq (hle.trans hlength)]
          show Ends _ (of (Decoder.instructions _ _ _ _ _ >>= _))
          rw [hrest]
          have hless := Nat.sub_lt_sub_left hlt (Nat.lt_add_of_pos_right hsize (n := ip))
          exact (ih _ hless hle rfl).bind_of fun rest _ => .const _
      · have hnil : image.code.drop ip = [] := List.drop_eq_nil_of_le (Nat.not_lt.mp hlt)
        simp only [instructionsFrom, if_neg hlt]
        rw [hnil, Decoder.instructions_nil]
        exact .const _

/-- **Decoding** stays inside the code, and the address behind each instruction fits into a word. -/
theorem instructions_ends (hlength : image.code.length ≤ Addr.last) :
    Ends (instructions image table) (of (image.instructions table)) := by
  have hends : Ends (instructions image table) _ := instructionsFrom_ends hlength (Nat.zero_le _)
  rwa [List.drop_zero] at hends

end Checked

/-- The number of code words of a file fits into a word. -/
theorem Image.length_code_le {image : Image} {bytes rest : List UInt8}
    (h : Image.read bytes = .ok (image, rest)) : image.code.length ≤ Addr.last := by
  obtain ⟨S, -, rfl, -⟩ := (Reader.takes_image bytes image rest).mp h
  rw [Sections.image, List.length_map]
  exact Nat.le_of_lt_succ S.code_countFits

end TorqueScript
