import TorqueScript.Proofs.AssemblyLines

/-!
# Decoding lines

Reading the operands of an operation takes what its cells say (`Operands.Takes`), and this is put together
from the single operands as the reading is.  Along the lines the decoder and the layout agree on what lies
in a body, so that both mean the same pools.  So decoding an image that holds lines takes one after the other
(`Image.Lays.instructions_eq`).
-/

namespace TorqueScript

/-! ### Reading operands -/

namespace Operands

variable {α β : Type} {m : Operands α} {f : α → Operands β} {cs cs' : List Cell} {a : α} {b : β}

/-- Where the words stand for the cells, reading takes them for the result. -/
def Takes (m : Operands α) (cs : List Cell) (a : α) : Prop :=
  ∀ site used, Cell.Laid site.image site.pools (site.addr + 1 + used) (site.words.drop used) cs →
    m site used = .ok (a, used + cs.length)

/-- Reading a word and going on leaves the count of words used to the rest. -/
theorem read_bind (f : Site → Operands α) (site : Site) (used : Nat) :
    (read >>= f) site used = f site site used := rfl

/-- The position is the address behind the words used so far. -/
theorem position_bind (f : Addr → Operands α) (site : Site) (used : Nat) :
    (position >>= f) site used = f (site.addr + 1 + used) site used := rfl

namespace Takes

theorem pure (a : α) : Takes (Pure.pure a) [] a :=
  fun _ _ _ => rfl

/-- What takes some cells and then some more takes both. -/
theorem bind (hm : Takes m cs a) (hf : Takes (f a) cs' b) : Takes (m >>= f) (cs ++ cs') b := by
  intro site used h
  obtain ⟨h, h'⟩ := Cell.laid_append.mp h
  rw [List.drop_drop, Nat.add_assoc] at h'
  rw [bind_apply, hm site used h]
  show f a site _ = _
  rw [hf site _ h', List.length_append, Nat.add_assoc]

/-- What is made of a value that was taken takes the same cells. -/
theorem map (hm : Takes m cs a) (g : α → β) : Takes (m >>= fun a => Pure.pure (g a)) cs (g a) := by
  have h : Takes (m >>= fun a => Pure.pure (g a)) (cs ++ []) (g a) := hm.bind (Takes.pure (g a))
  rwa [List.append_nil] at h

/-- Laid behind the opcode, the cells of an operand are read and counted. -/
theorem first {site : Site} (hm : Takes m cs a)
    (h : Cell.Laid site.image site.pools (site.addr + 1) site.words cs) : m site 0 = .ok (a, cs.length) := by
  rw [hm site 0 h, Nat.zero_add]

end Takes

/-- Where a cell is laid, its word is read. -/
theorem word_of_laid {site : Site} {used : Nat} {c : Cell}
    (h : Cell.Laid site.image site.pools (site.addr + 1 + used) (site.words.drop used) (c :: cs)) :
    ∃ w, word site used = .ok (w, used + 1) ∧ c.Written site.image site.pools (site.addr + 1 + used) w ∧
      Cell.Laid site.image site.pools (site.addr + 1 + (used + 1)) (site.words.drop (used + 1)) cs := by
  cases hdrop : site.words.drop used with
  | nil =>
      rw [hdrop] at h
      exact h.elim
  | cons w ws =>
      rw [hdrop] at h
      have hw : site.words[used]? = some w := by rw [← List.head?_drop, hdrop, List.head?_cons]
      have hws : site.words.drop (used + 1) = ws := by rw [← List.tail_drop, hdrop, List.tail_cons]
      refine ⟨w, by rw [word, hw], h.1, ?_⟩
      rw [hws]
      exact h.2

/-- A reader of one word that makes the result of every word that stands for the cell. -/
theorem takes_of_word {c : Cell} {g : Site → UInt32 → Operands α}
    (h : ∀ site used w, c.Written site.image site.pools (site.addr + 1 + used) w →
      g site w site (used + 1) = .ok (a, used + 1)) :
    Takes (do let site ← read; let w ← word; g site w) [c] a := by
  intro site used hlaid
  obtain ⟨w, hword, hc, -⟩ := word_of_laid hlaid
  have hread : (do let site ← read; let w ← word; g site w : Operands α) site used =
      (word site used >>= fun r => g site r.1 site r.2) := rfl
  rw [hread, hword]
  exact h site used w hc

/-- An address is one cell. -/
theorem takes_address (n : Nat) : Takes address [.number n] n := by
  refine takes_of_word (g := fun _ w => Pure.pure w.toNat) fun _ used w hn => ?_
  obtain rfl : w.toNat = n := hn
  rfl

/-- What is read behind a word may depend on it. -/
theorem takes_word_bind {n : Nat} {f : UInt32 → Operands α}
    (h : ∀ w, w.toNat = n → Takes (f w) cs a) : Takes (word >>= f) (.number n :: cs) a := by
  intro site used hlaid
  obtain ⟨w, hword, hn, hcs⟩ := word_of_laid hlaid
  rw [bind_apply, hword]
  show f w site (used + 1) = _
  rw [h w hn site (used + 1) hcs, List.length_cons, Nat.add_assoc, Nat.add_comm 1]

/-- A flag is one cell. -/
theorem takes_flag (b : Bool) : Takes flag [.flag b] b := by
  refine takes_of_word (g := fun _ w => Pure.pure (w != 0)) fun _ used w hb => ?_
  obtain rfl : (w != 0) = b := Bool.eq_iff_iff.mpr (bne_iff_ne.trans hb)
  rfl

/-- A name that may be absent is one cell, patched by the identifiers of the file. -/
theorem takes_identifier? (name : Option String) : Takes identifier? [.name name] name := by
  intro site used hlaid
  obtain ⟨w, hword, hname, -⟩ := word_of_laid hlaid
  unfold identifier?
  rw [read_bind, position_bind, bind_apply, hword]
  cases name with
  | some name =>
      rw [show site.image.identifier? _ = some name from hname]
      rfl
  | none =>
      obtain ⟨hname, rfl⟩ : site.image.identifier? _ = none ∧ w = 0 := hname
      rw [hname]
      rfl

/-- A name is one cell. -/
theorem takes_identifier (name : String) : Takes identifier [.name (some name)] name := by
  intro site used h
  unfold identifier
  rw [read_bind, position_bind, bind_apply, takes_identifier? (some name) site used h]
  rfl

/-- Names are one cell each. -/
theorem takes_identifiers (names : List String) :
    Takes (identifiers names.length) (names.map fun name => .name (some name)) names := by
  induction names with
  | nil => exact .pure []
  | cons name names ih => exact (takes_identifier name).bind (ih.map _)

/-- A string is one cell, an offset into the pool of its line. -/
theorem takes_string (s : String) : Takes string [.text s] s := by
  refine takes_of_word fun site used w hs => ?_
  have hget : site.pools.strings.get? w.toNat = some s := by
    rw [StringPool.get?, if_pos hs.1, StringPool.spells_iff.mp hs.2]
  rw [hget]
  rfl

/-- A number is one cell, an offset into the pool of its line. -/
theorem takes_float (x : Binary64) : Takes float [.float x] x := by
  refine takes_of_word fun site used w hx => ?_
  rw [show site.pools.floats[w.toNat]? = some x from hx]
  rfl

/-- The form of a call is one cell. -/
theorem takes_callType (type : CallType) : Takes callType [.number type.number] type := by
  refine takes_of_word fun site used w hn => ?_
  rw [show w.toNat = type.number from hn]
  cases type <;> rfl

/-- A character is one cell. -/
theorem takes_char (c : Char) : Takes char [.number c.toNat] c := by
  refine takes_of_word fun site used w hn => ?_
  rw [show w.toNat = c.toNat from hn, if_pos (show c.toNat.isValidChar from c.valid), Char.ofNat_toNat]
  rfl

/-- A jump is the cell of its target. -/
theorem takes_jump (kind : JumpKind) (target : Addr) : Takes (jump kind) [.number target] (.jump kind target) :=
  (takes_address target).map _

/-- A call is the cells of its name, namespace and form. -/
theorem takes_call (name : String) (nameSpace : Option String) (type : CallType) (resolve : Bool) :
    Takes (call resolve) (Operation.call name nameSpace type resolve).cells
      (.call name nameSpace type resolve) :=
  (takes_identifier name).bind <| (takes_identifier? nameSpace).bind <| (takes_callType type).map _

theorem takes_immediateUint (value : UInt32) :
    Takes (do pure (.immediateUint (← word))) [.number value.toNat] (Operation.immediateUint value) := by
  refine takes_word_bind fun w hw => ?_
  obtain rfl : w = value := UInt32.toNat_inj.mp hw
  exact .pure _

/-- **A declaration is read from its cells**: the names, the flag, the end and the parameters in their count. -/
theorem takes_declaration (signature : Signature) (hasBody : Bool) (stop : Addr) :
    Takes declaration (Operation.declareFunction signature hasBody stop).cells
      (.declareFunction signature hasBody stop) := by
  refine (takes_identifier signature.name).bind <| (takes_identifier? signature.nameSpace).bind <|
    (takes_identifier? signature.package).bind <| (takes_flag hasBody).bind <| (takes_address stop).bind <|
    takes_word_bind fun count hcount => ?_
  rw [hcount]
  exact (takes_identifiers signature.args).map _

/-- The creation of an object is read from its three cells. -/
theorem takes_creation (parent : Option String) (isDatablock : Bool) (failTarget : Addr) :
    Takes (do let p ← identifier?; let d ← flag; let a ← address; pure (.createObject p d a))
      (Operation.createObject parent isDatablock failTarget).cells
      (Operation.createObject parent isDatablock failTarget) :=
  (takes_identifier? parent).bind <| (takes_flag isDatablock).bind <| (takes_address failTarget).map _

/-- The operands of an operation are read under each of its opcodes. -/
theorem takes_operation {op : Operation} {site : Site} (live : Bool) (hop : site.opcode ∈ op.opcodes)
    (h : Cell.Laid site.image site.pools (site.addr + 1) site.words op.cells) :
    operation live site 0 = .ok (op.settle live, op.cells.length) := by
  obtain ⟨image, pools, addr, opcode, word, words⟩ := site
  cases op with
  | declareFunction signature hasBody stop =>
      obtain rfl := List.mem_singleton.mp hop
      exact (takes_declaration signature hasBody stop).first h
  | createObject parent isDatablock failTarget =>
      obtain rfl := List.mem_singleton.mp hop
      exact (takes_creation parent isDatablock failTarget).first h
  | addObject atRoot =>
      obtain rfl := List.mem_singleton.mp hop
      exact ((takes_flag atRoot).map Operation.addObject).first h
  | endObject atRoot =>
      obtain rfl := List.mem_singleton.mp hop
      exact ((takes_flag atRoot).map Operation.endObject).first h
  | jump kind target =>
      obtain rfl := List.mem_singleton.mp hop
      cases kind <;> exact (takes_jump _ target).first h
  | selectVar name create =>
      cases create <;> obtain rfl := List.mem_singleton.mp hop <;>
        exact ((takes_identifier name).map fun s => Operation.selectVar s _).first h
  | selectField name =>
      obtain rfl := List.mem_singleton.mp hop
      exact ((takes_identifier name).map Operation.selectField).first h
  | immediateIdent name =>
      obtain rfl := List.mem_singleton.mp hop
      exact ((takes_identifier name).map Operation.immediateIdent).first h
  | immediateUint value =>
      obtain rfl := List.mem_singleton.mp hop
      exact (takes_immediateUint value).first h
  | immediateFloat value =>
      obtain rfl := List.mem_singleton.mp hop
      exact ((takes_float value).map Operation.immediateFloat).first h
  | immediateStr value =>
      obtain rfl := List.mem_singleton.mp hop
      exact ((takes_string value).map Operation.immediateStr).first h
  | immediateTag value =>
      obtain rfl := List.mem_singleton.mp hop
      exact ((takes_string value).map fun s => Operation.immediateTag (untag s)).first h
  | call name nameSpace type resolve =>
      cases resolve <;> obtain rfl := List.mem_singleton.mp hop <;>
        exact (takes_call name nameSpace type _).first h
  | advanceStrAppend char =>
      obtain rfl := List.mem_singleton.mp hop
      exact ((takes_char char).map Operation.advanceStrAppend).first h
  | binary op =>
      obtain rfl := List.mem_singleton.mp hop
      cases op <;> rfl
  | unary op =>
      cases op with
      | not => rcases List.mem_pair.mp hop with rfl | rfl <;> rfl
      | complement | neg =>
          obtain rfl := List.mem_singleton.mp hop
          rfl
  | selectVarArray create => cases create <;> obtain rfl := List.mem_singleton.mp hop <;> rfl
  | loadVar type | saveVar type | loadField type | saveField type =>
      cases type <;> obtain rfl := List.mem_singleton.mp hop <;> rfl
  | convert source target =>
      cases source <;> rcases target with _ | (_ | _ | _) <;> first
        | exact absurd hop List.not_mem_nil
        | obtain rfl := List.mem_singleton.mp hop
          rfl
  | ret | selectObject | selectNewObject | selectFieldArray | advanceStr | advanceStrComma | advanceStrNul
  | rewindStr | terminateRewindStr | compareStr | push | pushFrame | debugBreak =>
      obtain rfl := List.mem_singleton.mp hop
      rfl

end Operands

/-! ### Decoding lines -/

namespace Image

/-- The pools of the code in a body or outside. -/
def pools (image : Image) (inBody : Bool) : Pools :=
  if inBody then image.inner else image.outer

/-- The words hold the lines, the first at the address and behind the operations `before`. -/
inductive Lays (image : Image) (table : Opcode.Table) :
    List Operation → Addr → List UInt32 → List Line → Prop where
  | nil {before : List Operation} {addr : Addr} : Lays image table before addr [] []
  | cons {before : List Operation} {addr : Addr} {word : UInt32} {words : List UInt32} {l : Line}
      {ls : List Line} (hopcode : table.lookup word.toNat = some l.opcode)
      (hcells : Cell.Laid image (image.pools (Operation.inBody before addr)) (addr + 1) words l.operation.cells)
      (hwords : Lays image table (before ++ [l.operation]) (addr + l.size)
        (words.drop l.operation.cells.length) ls) :
      Lays image table before addr (word :: words) (l :: ls)

/-- The code of the image holds the lines. -/
def Holds (image : Image) (table : Opcode.Table) (lines : List Line) : Prop :=
  image.Lays table [] 0 image.code lines

variable {image : Image} {table : Opcode.Table}

/-- The decoder uses the pools of the code in a body where the address lies in one. -/
theorem instruction_of_laid {d : Decoder} {before : List Operation} {addr : Addr} {word : UInt32}
    {words : List UInt32} {l : Line} (hd : Operation.Bounds d.functionStop before addr)
    (hopcode : table.lookup word.toNat = some l.opcode)
    (hcells : Cell.Laid image (image.pools (Operation.inBody before addr)) (addr + 1) words l.operation.cells) :
    (d.enter addr).instruction image table addr word words = .ok (l.instruction d.live addr) := by
  have hpools : (d.enter addr).pools image = image.pools (Operation.inBody before addr) := by
    rw [← hd.isSome_filter]
    rfl
  have htakes : Operands.operation (d.enter addr).live
      ⟨image, image.pools (Operation.inBody before addr), addr, l.opcode, word, words⟩ 0 =
        .ok (l.operation.settle d.live, l.operation.cells.length) :=
    Operands.takes_operation d.live l.mem_opcodes hcells
  rw [Decoder.instruction, hopcode, hpools]
  simp only [ReaderT.run, StateT.run, htakes]
  rfl

/-- **Lines that are laid out are decoded as they are**, with the address, the size and the return flag of each. -/
theorem Lays.instructions_eq {before : List Operation} {addr : Addr} {words : List UInt32} {ls : List Line}
    (h : image.Lays table before addr words ls) {d : Decoder}
    (hd : Operation.Bounds d.functionStop before addr) :
    d.instructions image table addr words = .ok (Line.instructions d.live addr ls) := by
  induction h generalizing d with
  | nil => exact Decoder.instructions_nil
  | @cons before addr word words l ls hopcode hcells _ ih =>
      refine Decoder.instructions_cons_eq_ok.mpr ⟨_, _, instruction_of_laid hd hopcode hcells, ih ?_, ?_⟩
      · rw [Decoder.functionStop_after, Line.instruction, Operation.bodyStop?_settle]
        exact (hd.filter.append l.operation).mono (Nat.le_add_right addr _)
      · simp [Line.instructions, Line.instruction, Decoder.after]

end Image

end TorqueScript
