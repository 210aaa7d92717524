import TorqueScript.Proofs.Decoding

/-!
# Instructions and the code they cover

The size of an instruction depends on its operands, and what an operand means depends on the instructions
before.  Still the instructions of a file lie one behind the other from the first code word to the last
(`Tiles`), and cutting the code off does not change those in front of the cut.

An operand is read from the words it takes and from nothing behind them, and too few words are told as such,
whatever else could be wrong (`Operands.Exact`).  This is kept from one operand to the next
(`Operands.Exact.bind`) and so holds of every opcode (`Operands.exact_operation`).  Decoding takes the
instructions in turn, so it finds those in front of a cut (`Decoder.instructions_front`) and refuses the one
that the cut goes through (`Decoder.instructions_through`).

**Tiling** (`Image.instructions_of_cut`).  Decoded instructions cover the code.  Code that is cut between two
of them is decoded as those in front of the cut, and code that is cut inside one of them is refused there.
-/

namespace TorqueScript

/-- The file with only the first code words. -/
def Image.cut (image : Image) (length : Nat) : Image :=
  { image with code := image.code.take length }

/-- The site in a file that is cut off, with so many words left for operands. -/
def Site.cut (site : Site) (length left : Nat) : Site :=
  { site with image := site.image.cut length, words := site.words.take left }

namespace Operands

variable {α β : Type} {m : Operands α} {f : α → Operands β}

/-- What is read takes words that are read the same whatever follows, and if there are too few of them the
operand is told to be cut off. -/
def Exact (m : Operands α) : Prop :=
  ∀ site used a used', m site used = .ok (a, used') → used ≤ used' ∧
    ∀ length left, (used' ≤ left → m (site.cut length left) used = .ok (a, used')) ∧
      (used ≤ left → left < used' →
        m (site.cut length left) used = .error (.truncatedOperand site.addr site.opcode))

namespace Exact

theorem pure (a : α) : Exact (Pure.pure a : Operands α) := by
  rintro site used _ _ ⟨⟩
  exact ⟨le_rfl, fun _ _ => ⟨fun _ => rfl, fun hle hlt => absurd hle (Nat.not_le.mpr hlt)⟩⟩

theorem throw (e : Error) : Exact (throw e : Operands α) :=
  fun _ _ _ _ h => nomatch h

/-- **One operand after the other.**  A cut goes through what the first one takes or through what the second
one does. -/
theorem bind (hm : Exact m) (hf : ∀ a, Exact (f a)) : Exact (m >>= f) := by
  intro site used b used' h
  rw [bind_apply] at h
  obtain ⟨⟨a, mid⟩, hfirst, hsecond⟩ := bind_eq_ok_iff.mp h
  obtain ⟨hle, hcut⟩ := hm _ _ _ _ hfirst
  obtain ⟨hle', hcut'⟩ := hf a _ _ _ _ hsecond
  refine ⟨hle.trans hle', fun length left => ⟨fun hleft => ?_, fun hleft hlt => ?_⟩⟩
  · rw [bind_apply, (hcut length left).1 (hle'.trans hleft)]
    exact (hcut' length left).1 hleft
  · rw [bind_apply]
    by_cases hmid : mid ≤ left
    · rw [(hcut length left).1 hmid]
      exact (hcut' length left).2 hmid hlt
    · rw [(hcut length left).2 hleft (Nat.not_le.mp hmid)]
      rfl

/-- The site is known from here on, but nothing may depend on how much code there is. -/
theorem read {f : Site → Operands β} (hcut : ∀ site length left, f (site.cut length left) = f site)
    (hf : ∀ site, Exact (f site)) : Exact (MonadReader.read >>= f) := by
  intro site used b used' h
  obtain ⟨hle, h'⟩ := hf site site used b used' h
  refine ⟨hle, fun length left => ?_⟩
  have heq : (MonadReader.read >>= f) (site.cut length left) used = f site (site.cut length left) used := by
    rw [← hcut site length left]
    rfl
  rw [heq]
  exact h' length left

end Exact

/-! ### Operands -/

theorem exact_word : Exact word := by
  intro site used w used' h
  rw [word] at h
  cases hw : site.words[used]? with
  | none => rw [hw] at h; cases h
  | some v =>
      rw [hw] at h
      cases h
      refine ⟨Nat.le_succ used, fun length left => ⟨fun hle => ?_, fun hle hlt => ?_⟩⟩
      · simp only [word, Site.cut, List.getElem?_take, if_pos (Nat.lt_of_succ_le hle), hw]
      · simp only [word, Site.cut, List.getElem?_take, if_neg (Nat.not_lt.mpr (Nat.le_of_lt_succ hlt))]

theorem exact_position : Exact position := by
  rintro site used _ _ ⟨⟩
  exact ⟨le_rfl, fun _ _ => ⟨fun _ => rfl, fun hle hlt => absurd hle (Nat.not_le.mpr hlt)⟩⟩

theorem exact_address : Exact address :=
  .bind exact_word fun _ => .pure _

theorem exact_flag : Exact flag :=
  .bind exact_word fun _ => .pure _

theorem exact_identifier? : Exact identifier? := by
  refine .read (fun _ _ _ => rfl) fun site => .bind exact_position fun ip => .bind exact_word fun w => ?_
  split
  · exact .pure _
  · split
    · exact .pure _
    · exact .throw _

theorem exact_identifier : Exact identifier := by
  refine .read (fun _ _ _ => rfl) fun site => .bind exact_position fun ip =>
    .bind exact_identifier? fun name => ?_
  cases name with
  | some name => exact .pure _
  | none => exact .throw _

/-- Names are taken exactly, in their count. -/
theorem exact_identifiers (n : Nat) : Exact (identifiers n) := by
  induction n with
  | zero => exact .pure _
  | succ n ih => exact .bind exact_identifier fun _ => ih.bind fun _ => .pure _

theorem exact_string : Exact string := by
  refine .read (fun _ _ _ => rfl) fun site => .bind exact_word fun offset => ?_
  split
  · exact .pure _
  · exact .throw _

theorem exact_float : Exact float := by
  refine .read (fun _ _ _ => rfl) fun site => .bind exact_word fun index => ?_
  split
  · exact .pure _
  · exact .throw _

theorem exact_callType : Exact callType := by
  refine .read (fun _ _ _ => rfl) fun site => .bind exact_word fun w => ?_
  split
  · exact .pure _
  · exact .pure _
  · exact .pure _
  · exact .throw _

theorem exact_char : Exact char := by
  refine .read (fun _ _ _ => rfl) fun site => .bind exact_word fun w => ?_
  split
  · exact .pure _
  · exact .throw _

theorem exact_jump (kind : JumpKind) : Exact (jump kind) :=
  .bind exact_address fun _ => .pure _

theorem exact_call (resolve : Bool) : Exact (call resolve) :=
  .bind exact_identifier fun _ => .bind exact_identifier? fun _ => .bind exact_callType fun _ => .pure _

/-- So is a declaration, with its name, its flag, its end and its parameters. -/
theorem exact_declaration : Exact declaration :=
  .bind exact_identifier fun _ => .bind exact_identifier? fun _ => .bind exact_identifier? fun _ =>
    .bind exact_flag fun _ => .bind exact_address fun _ => .bind exact_word fun _ =>
      .bind (exact_identifiers _) fun _ => .pure _

/-- **Every opcode** takes its operands from the words behind it and from nothing more. -/
theorem exact_operation (live : Bool) : Exact (operation live) := by
  refine .read (fun _ _ _ => rfl) fun site => ?_
  cases site.opcode with
  | funcDecl => exact exact_declaration
  | createObject =>
      exact .bind exact_identifier? fun _ => .bind exact_flag fun _ => .bind exact_address fun _ => .pure _
  | addObject | endObject => exact .bind exact_flag fun _ => .pure _
  | jmpIfFloatNot | jmpIfNot | jmpIfFloat | jmpIf | jmpIfNotNp | jmpIfNp | jmp => exact exact_jump _
  | setCurVar | setCurVarCreate | setCurField | loadImmedIdent => exact .bind exact_identifier fun _ => .pure _
  | loadImmedUint => exact .bind exact_word fun _ => .pure _
  | loadImmedFloat => exact .bind exact_float fun _ => .pure _
  | tagToStr | loadImmedStr => exact .bind exact_string fun _ => .pure _
  | callFuncResolve | callFunc => exact exact_call _
  | advanceStrAppendChar => exact .bind exact_char fun _ => .pure _
  | invalid => exact .throw _
  | _ => exact .pure _

end Operands

/-- The instructions lie one behind the other, from the first address up to the second. -/
inductive Tiles : Addr → List Instruction → Addr → Prop where
  | nil (addr : Addr) : Tiles addr [] addr
  | cons {ins : Instruction} {rest : List Instruction} {stop : Addr} (size_pos : 0 < ins.size)
      (tiles : Tiles (ins.addr + ins.size) rest stop) : Tiles ins.addr (ins :: rest) stop

namespace Tiles

variable {start mid stop : Addr} {before after instrs : List Instruction} {ins : Instruction}

/-- A tiling goes forward. -/
theorem le (h : Tiles start instrs stop) : start ≤ stop := by
  induction h with
  | nil => exact le_rfl
  | cons _ _ ih => exact (Nat.le_add_right _ _).trans ih

/-- A tiling may be cut between two instructions. -/
theorem exists_mid (h : Tiles start (before ++ after) stop) :
    ∃ mid, Tiles start before mid ∧ Tiles mid after stop := by
  induction before generalizing start with
  | nil => exact ⟨start, .nil start, h⟩
  | cons ins before ih =>
      cases h with
      | cons hsize hrest =>
          obtain ⟨mid, hbefore, hafter⟩ := ih hrest
          exact ⟨mid, .cons hsize hbefore, hafter⟩

/-- Every instruction starts before the end. -/
theorem addr_lt (h : Tiles start instrs stop) (hins : ins ∈ instrs) : ins.addr < stop := by
  induction h with
  | nil => nomatch hins
  | cons hsize hrest ih =>
      rcases List.mem_cons.mp hins with rfl | hins
      · exact (Nat.lt_add_of_pos_right hsize).trans_le hrest.le
      · exact ih hins

end Tiles

namespace Decoder

variable {image : Image} {table : Opcode.Table} {d : Decoder} {addr mid : Addr} {word : UInt32}
  {words : List UInt32} {ins : Instruction} {instrs before after : List Instruction}

/-- An instruction is its operation with the words that this took. -/
theorem instruction_eq_bind {opcode : Opcode} (h : table.lookup word.toNat = some opcode) :
    d.instruction image table addr word words =
      Operands.operation d.live { image, pools := d.pools image, addr, opcode, word, words } 0 >>= fun p =>
        pure { addr, size := p.2 + 1, opcode, operation := p.1 } := by
  rw [instruction, h]
  rfl

/-- An instruction is decoded from as many words as its size says, and fewer words are too few. -/
theorem instruction_cut (h : d.instruction image table addr word words = .ok ins) :
    table.lookup word.toNat = some ins.opcode ∧ ins.size ≤ words.length + 1 ∧
      ∀ length left,
        (ins.size ≤ left + 1 →
          d.instruction (image.cut length) table addr word (words.take left) = .ok ins) ∧
        (left + 1 < ins.size → d.instruction (image.cut length) table addr word (words.take left) =
          .error (.truncatedOperand ins.addr ins.opcode)) := by
  cases hopcode : table.lookup word.toNat with
  | none => rw [instruction, hopcode] at h; cases h
  | some opcode =>
      rw [instruction_eq_bind hopcode] at h
      obtain ⟨⟨op, used⟩, hop, hins⟩ := bind_eq_ok_iff.mp h
      cases hins
      obtain ⟨-, hexact⟩ := Operands.exact_operation _ _ _ _ _ hop
      refine ⟨rfl, Nat.succ_le_succ ?_, fun length left => ⟨fun hle => ?_, fun hlt => ?_⟩⟩
      · -- with all its words, the operand is not cut off
        by_contra hlt
        have hcut := (hexact image.code.length words.length).2 (Nat.zero_le _) (Nat.not_le.mp hlt)
        simp only [Site.cut, Image.cut, List.take_length] at hcut
        rw [hop] at hcut
        cases hcut
      · rw [instruction_eq_bind hopcode]
        exact congrArg (· >>= _) ((hexact length left).1 (Nat.le_of_succ_le_succ hle))
      · rw [instruction_eq_bind hopcode]
        exact congrArg (· >>= _) ((hexact length left).2 (Nat.zero_le _) (Nat.lt_of_succ_lt_succ hlt))

/-- Decoding covers the words, and each instruction has the opcode of the word at its address. -/
theorem tiles_instructions (h : d.instructions image table addr words = .ok instrs) :
    Tiles addr instrs (addr + words.length) ∧
      ∀ ins ∈ instrs, ∃ i w, ins.addr = addr + i ∧ words[i]? = some w ∧
        table.lookup w.toNat = some ins.opcode := by
  induction instrs generalizing d addr words with
  | nil =>
      cases words with
      | nil => exact ⟨.nil addr, List.forall_mem_nil _⟩
      | cons word words => obtain ⟨_, _, -, -, ⟨⟩⟩ := instructions_cons_eq_ok.mp h
  | cons first rest ih =>
      cases words with
      | nil => rw [instructions_nil] at h; cases h
      | cons word words =>
          obtain ⟨_, _, hfirst, hrest, ⟨⟩⟩ := instructions_cons_eq_ok.mp h
          obtain ⟨rfl, hsize⟩ := instruction_eq_ok hfirst
          obtain ⟨hopcode, hlength, -⟩ := instruction_cut hfirst
          obtain ⟨htiles, hopcodes⟩ := ih hrest
          refine ⟨.cons hsize ?_,
            List.forall_mem_cons.mpr ⟨⟨0, word, rfl, rfl, hopcode⟩, fun ins hins => ?_⟩⟩
          · rw [List.length_drop] at htiles
            have hlength' : first.size + (words.length - (first.size - 1)) = words.length + 1 := by omega
            rwa [Nat.add_assoc, hlength'] at htiles
          · obtain ⟨i, w, haddr, hw, hopcode⟩ := hopcodes ins hins
            refine ⟨first.size + i, w, haddr.trans (Nat.add_assoc _ _ _), ?_, hopcode⟩
            rw [List.getElem?_drop] at hw
            obtain ⟨k, hk⟩ := Nat.exists_eq_add_of_lt hsize
            rw [hk] at hw ⊢
            rw [show 0 + k + 1 + i = k + i + 1 by omega, List.getElem?_cons_succ]
            simpa using hw

/-- The words that a cut leaves behind the opcode of the first instruction. -/
theorem length_cut {addr size mid : Nat} (hsize : 0 < size) (hle : addr + size ≤ mid) (left : Nat) :
    mid - addr + left = size - 1 + (mid - (addr + size) + left) + 1 := by
  omega

/-- Behind the instructions in front of it, a cut is a cut in what is left of the code. -/
theorem instructions_cut (h : d.instructions image table addr words = .ok (before ++ after))
    (htiles : Tiles addr before mid) :
    ∃ (e : Decoder) (behind : List UInt32), e.instructions image table mid behind = .ok after ∧
      ∀ length left, d.instructions (image.cut length) table addr (words.take (mid - addr + left)) =
        (before ++ ·) <$> e.instructions (image.cut length) table mid (behind.take left) := by
  induction before generalizing d addr words with
  | nil =>
      cases htiles
      refine ⟨d, words, h, fun length left => ?_⟩
      rw [Nat.sub_self, Nat.zero_add]
      exact (id_map _).symm
  | cons first before ih =>
      cases words with
      | nil => rw [instructions_nil] at h; cases h
      | cons word words =>
          cases htiles with
          | cons hsize hrest =>
              obtain ⟨_, _, hfirst, hbehind, ⟨⟩⟩ := instructions_cons_eq_ok.mp h
              obtain ⟨e, behind, hafter, hcut⟩ := ih hbehind hrest
              refine ⟨e, behind, hafter, fun length left => ?_⟩
              have hlength := length_cut hsize hrest.le left
              have hcut₁ := ((instruction_cut hfirst).2.2 length
                (first.size - 1 + (mid - (first.addr + first.size) + left))).1 (by omega)
              have hdrop : (words.take (first.size - 1 + (mid - (first.addr + first.size) + left))).drop
                  (first.size - 1) =
                  (words.drop (first.size - 1)).take (mid - (first.addr + first.size) + left) := by
                rw [List.drop_take, Nat.add_sub_cancel_left]
              rw [hlength, List.take_succ_cons, instructions, hcut₁]
              show (Decoder.instructions _ _ _ _ _ >>= _) = _
              rw [hdrop, hcut]
              cases e.instructions (image.cut length) table mid (behind.take left) <;> rfl

/-- The instruction that a cut goes through is refused. -/
theorem instructions_through (h : d.instructions image table addr words = .ok (ins :: after))
    {left : Nat} (hpos : 0 < left) (hlt : left < ins.size) (length : Nat) :
    d.instructions (image.cut length) table addr (words.take left) =
      .error (.truncatedOperand ins.addr ins.opcode) := by
  cases words with
  | nil => rw [instructions_nil] at h; cases h
  | cons word words =>
      obtain ⟨_, _, hfirst, -, ⟨⟩⟩ := instructions_cons_eq_ok.mp h
      obtain ⟨left, rfl⟩ := Nat.exists_eq_succ_of_ne_zero hpos.ne'
      rw [List.take_succ_cons, instructions, ((instruction_cut hfirst).2.2 length left).2 hlt]
      rfl

end Decoder

namespace Image

variable {image : Image} {table : Opcode.Table} {instrs before after : List Instruction} {mid : Addr}

/-- **Tiling.**  The instructions of a file lie one behind the other from the first code word to the last, at
addresses below the greatest one, and each has the opcode of the word at its address.  If only the code in
front of an instruction is left, or all of it, the instructions in front are decoded and no others.  If the
code ends inside an instruction, its operands are told to be cut off. -/
theorem instructions_of_cut (hlength : image.code.length < 2 ^ 32)
    (h : image.instructions table = .ok instrs) :
    Tiles 0 instrs image.code.length ∧
      (∀ ins ∈ instrs, ins.addr < Addr.last ∧
        ∃ w, image.code[ins.addr]? = some w ∧ table.lookup w.toNat = some ins.opcode) ∧
      (∀ before after, instrs = before ++ after → ∃ mid, Tiles 0 before mid ∧
        Tiles mid after image.code.length ∧ (image.cut mid).instructions table = .ok before) ∧
      ∀ before ins after, instrs = before ++ ins :: after → ∀ k, ins.addr < k → k < ins.addr + ins.size →
        (image.cut k).instructions table = .error (.truncatedOperand ins.addr ins.opcode) := by
  obtain ⟨htiles, hopcodes⟩ := Decoder.tiles_instructions h
  rw [Nat.zero_add] at htiles
  refine ⟨htiles, fun ins hins => ⟨?_, ?_⟩, ?_, ?_⟩
  · exact (htiles.addr_lt hins).trans_le (Nat.le_of_lt_succ hlength)
  · obtain ⟨i, w, haddr, hw, hopcode⟩ := hopcodes ins hins
    rw [Nat.zero_add] at haddr
    exact ⟨w, haddr ▸ hw, hopcode⟩
  · rintro before after rfl
    obtain ⟨mid, hbefore, hafter⟩ := htiles.exists_mid
    obtain ⟨e, behind, -, hcut⟩ := Decoder.instructions_cut h hbefore
    have hfront := hcut mid 0
    rw [List.take_zero, Decoder.instructions_nil] at hfront
    exact ⟨mid, hbefore, hafter, hfront.trans (congrArg Except.ok (List.append_nil before))⟩
  · rintro before ins after rfl k hk hlt
    obtain ⟨mid, hbefore, hafter⟩ := htiles.exists_mid
    obtain ⟨e, behind, hthrough, hcut⟩ := Decoder.instructions_cut h hbefore
    cases hafter with
    | cons hsize hrest =>
        have hfront := hcut k (k - ins.addr)
        rw [Nat.sub_zero, Nat.add_sub_cancel' hk.le] at hfront
        refine hfront.trans ?_
        rw [Decoder.instructions_through hthrough (Nat.sub_pos_of_lt hk) (Nat.sub_lt_left_of_lt_add hk.le hlt)]
        rfl

/-- A function with a parameter that returns a string of its own pool. -/
def returningFunction : Image where
  version := 33
  outer := ⟨⟨[0x66, 0]⟩, []⟩
  inner := ⟨⟨[0x68, 0x69, 0]⟩, []⟩
  code := [0, 0, 0, 0, 1, 11, 1, 0, 1, 0, 2]
  lineBreaks := []
  patches := [(7, "%a"), (1, "f")]

/-- The instructions of `returningFunction`. -/
def returningInstructions : List Instruction :=
  [⟨0, 8, .funcDecl, .declareFunction ⟨"f", none, none, ["%a"]⟩ true 11⟩,
    ⟨8, 2, .loadImmedStr, .immediateStr "hi"⟩,
    ⟨10, 1, .ret, .ret true⟩]

/-- A function that returns is cut inside its last instruction. -/
theorem instructions_of_cut_returningFunction :
    let table : Opcode.Table := ⟨[.funcDecl, .loadImmedStr, .ret]⟩
    returningFunction.code.length < 2 ^ 32 ∧
      returningFunction.instructions table = .ok returningInstructions ∧
      Tiles 0 returningInstructions 11 ∧
      (∃ mid, Tiles 0 (returningInstructions.take 1) mid ∧ Tiles mid (returningInstructions.drop 1) 11 ∧
        (returningFunction.cut mid).instructions table = .ok (returningInstructions.take 1)) ∧
      (returningFunction.cut 5).instructions table = .error (.truncatedOperand 0 .funcDecl) ∧
      (returningFunction.cut 9).instructions table = .error (.truncatedOperand 8 .loadImmedStr) := by
  intro table
  have hlength : returningFunction.code.length < 2 ^ 32 := by decide
  have h : returningFunction.instructions table = .ok returningInstructions := by cbv
  obtain ⟨htiles, -, hfront, hthrough⟩ := instructions_of_cut hlength h
  exact ⟨hlength, h, htiles, hfront _ _ (List.take_append_drop 1 _).symm,
    hthrough [] _ _ rfl 5 (by decide) (by decide),
    hthrough [_] _ _ rfl 9 (by decide) (by decide)⟩

end Image

end TorqueScript
