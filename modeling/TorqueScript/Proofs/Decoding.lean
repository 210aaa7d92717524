import TorqueScript.Proofs.JumpBlocks
import TorqueScript.Proofs.Stages

/-!
# Bodies in decoding

Code inside the body of a function uses pools of its own, so decoding keeps the end of the body that was
declared last until it is reached.  An address lies in a body if the nearest declaration of a body before it
ends above it (`Operation.inBody`).  What is kept may differ from the end that the nearest declaration
gives, but it tells the same addresses from there on (`Operation.Bounds`), because an end that has been
reached is never above an address again.

* `Decoder.Reads`: decoding reads an instruction, with what it carries at this point.
* `Decoder.Reads.inBody`: an instruction is read with the pools of functions if and only if it lies in a
  body.
* `Decoder.increasing_of_instructions`: instructions are returned in the order of their addresses.
-/

namespace TorqueScript

namespace Operation

/-- The end of the body that the operation declares. -/
def bodyStop? : Operation → Option Addr
  | declareFunction _ true stop => some stop
  | _ => none

/-- The end of the body that the last of the operations with a body declares. -/
def lastStop? (before : List Operation) : Option Addr :=
  before.reverse.findSome? bodyStop?

/-- The nearest declaration of a body before the address ends above it. -/
def inBody (before : List Operation) (addr : Addr) : Bool :=
  (lastStop? before).any (addr < ·)

/-- From the address on, the end tells what lies in a body. -/
def Bounds (stop? : Option Addr) (before : List Operation) (addr : Addr) : Prop :=
  ∀ a, addr ≤ a → stop?.any (a < ·) = inBody before a

@[simp] theorem lastStop?_nil : lastStop? [] = none := rfl

/-- The last body that was declared decides. -/
@[simp] theorem lastStop?_append (before : List Operation) (op : Operation) :
    lastStop? (before ++ [op]) = op.bodyStop?.or (lastStop? before) := by
  rw [lastStop?, List.reverse_append, List.reverse_singleton, List.singleton_append, List.findSome?_cons]
  cases op.bodyStop? <;> rfl

variable {stop? : Option Addr} {before : List Operation} {addr addr' : Addr}

namespace Bounds

theorem nil (addr : Addr) : Bounds none [] addr :=
  fun _ _ => rfl

theorem mono (h : Bounds stop? before addr) (hle : addr ≤ addr') : Bounds stop? before addr' :=
  fun a ha => h a (hle.trans ha)

/-- A declaration sets the bound, and any other operation keeps it. -/
theorem append (h : Bounds stop? before addr) (op : Operation) :
    Bounds (op.bodyStop?.or stop?) (before ++ [op]) addr := by
  intro a ha
  rw [inBody, lastStop?_append]
  cases op.bodyStop? with
  | none => exact h a ha
  | some stop => rfl

/-- An end that has been reached does not matter any more. -/
theorem filter (h : Bounds stop? before addr) : Bounds (stop?.filter (addr < ·)) before addr := by
  intro a ha
  rw [← h a ha]
  cases stop? with
  | none => rfl
  | some stop =>
      rw [Option.filter_some]
      split
      · rfl
      · next hstop =>
          have hle : stop ≤ addr := by simpa using hstop
          simp [hle.trans ha]

/-- The bound that is still ahead tells whether the body goes on. -/
theorem isSome_filter (h : Bounds stop? before addr) :
    (stop?.filter (addr < ·)).isSome = inBody before addr := by
  rw [Option.isSome_filter, h addr le_rfl]

end Bounds

end Operation

theorem Operands.bind_apply {α β : Type} (m : Operands α) (f : α → Operands β) (site : Site) (used : Nat) :
    (m >>= f) site used = (m site used >>= fun r => f r.1 site r.2) := rfl

namespace Decoder

open Operation

variable {image : Image} {table : Opcode.Table} {d e : Decoder} {addr : Addr} {word : UInt32}
  {words : List UInt32} {ins : Instruction} {instrs : List Instruction}

/-- The decoder remembers the end of a body that was declared. -/
theorem functionStop_after (d : Decoder) (op : Operation) :
    (d.after op).functionStop = op.bodyStop?.or d.functionStop := by
  cases op with
  | declareFunction signature hasBody stop => cases hasBody <;> rfl
  | _ => rfl

/-- What the decoder keeps tells the addresses behind one more instruction. -/
theorem bounds_after {before : List Operation} (h : Bounds d.functionStop before addr) (op : Operation)
    (size : Nat) : Bounds ((d.enter addr).after op).functionStop (before ++ [op]) (addr + size) := by
  rw [functionStop_after]
  exact (h.filter.append op).mono (Nat.le_add_right addr size)

theorem instructions_nil : d.instructions image table addr [] = .ok [] := by
  rw [instructions]
  rfl

/-- A stream is its first instruction and the rest, each of which must be read. -/
theorem instructions_cons_eq_ok : d.instructions image table addr (word :: words) = .ok instrs ↔
    ∃ ins rest, (d.enter addr).instruction image table addr word words = .ok ins ∧
      ((d.enter addr).after ins.operation).instructions image table (addr + ins.size)
        (words.drop (ins.size - 1)) = .ok rest ∧ instrs = ins :: rest := by
  rw [instructions]
  simp only [bind_eq_ok_iff, pure, Except.pure, Except.ok.injEq]
  constructor
  · rintro ⟨ins, hins, rest, hrest, h⟩
    exact ⟨ins, rest, hins, hrest, h.symm⟩
  · rintro ⟨ins, rest, hins, hrest, h⟩
    exact ⟨ins, hins, rest, hrest, h.symm⟩

/-- An instruction stands at the address at which it is read, and takes a word for its opcode. -/
theorem instruction_eq_ok (h : d.instruction image table addr word words = .ok ins) :
    ins.addr = addr ∧ 0 < ins.size := by
  rw [instruction] at h
  split at h
  · cases h
  · obtain ⟨⟨operation, used⟩, -, h⟩ := bind_eq_ok_iff.mp h
    cases h
    exact ⟨rfl, Nat.succ_pos used⟩

/-- Decoding the words reads the instruction, with the decoder `e` at its address. -/
inductive Reads (image : Image) (table : Opcode.Table) :
    Decoder → Addr → List UInt32 → Decoder → Instruction → Prop where
  | here {d : Decoder} {addr : Addr} {word : UInt32} {words : List UInt32} {ins : Instruction}
      (h : (d.enter addr).instruction image table addr word words = .ok ins) :
      Reads image table d addr (word :: words) (d.enter addr) ins
  | later {d e : Decoder} {addr : Addr} {word : UInt32} {words : List UInt32} {first ins : Instruction}
      (h : (d.enter addr).instruction image table addr word words = .ok first)
      (hrest : Reads image table ((d.enter addr).after first.operation) (addr + first.size)
        (words.drop (first.size - 1)) e ins) :
      Reads image table d addr (word :: words) e ins

/-- Each instruction that decoding returns has been read. -/
theorem exists_reads (h : d.instructions image table addr words = .ok instrs) (hins : ins ∈ instrs) :
    ∃ e, Reads image table d addr words e ins := by
  induction instrs generalizing d addr words with
  | nil => nomatch hins
  | cons first rest ih =>
      cases words with
      | nil => rw [instructions_nil] at h; cases h
      | cons word words =>
          obtain ⟨_, _, hfirst, hrest, ⟨⟩⟩ := instructions_cons_eq_ok.mp h
          rcases List.mem_cons.mp hins with rfl | hins
          · exact ⟨_, .here hfirst⟩
          · obtain ⟨e, he⟩ := ih hrest hins
            exact ⟨e, .later hfirst he⟩

/-- An instruction is one of those that decoding returns, and it is read with the pools of functions if and
only if it lies in a body. -/
theorem Reads.inBody {before : List Operation} (hreads : Reads image table d addr words e ins)
    (h : d.instructions image table addr words = .ok instrs) (hd : Bounds d.functionStop before addr) :
    ∃ k, instrs[k]? = some ins ∧
      e.functionStop.isSome = inBody (before ++ (instrs.take k).map (·.operation)) ins.addr := by
  induction hreads generalizing instrs before with
  | here hfirst =>
      obtain ⟨_, rest, hfirst', -, rfl⟩ := instructions_cons_eq_ok.mp h
      obtain rfl := Except.ok.inj (hfirst.symm.trans hfirst')
      refine ⟨0, rfl, ?_⟩
      rw [(instruction_eq_ok hfirst).1, List.take_zero, List.map_nil, List.append_nil]
      exact hd.isSome_filter
  | @later _ _ _ _ _ first _ hfirst _ ih =>
      obtain ⟨_, rest, hfirst', hrest, rfl⟩ := instructions_cons_eq_ok.mp h
      obtain rfl := Except.ok.inj (hfirst.symm.trans hfirst')
      obtain ⟨k, hk, hbody⟩ := ih hrest (bounds_after hd first.operation first.size)
      refine ⟨k + 1, hk, ?_⟩
      rwa [List.take_succ_cons, List.map_cons, List.append_cons]

/-- Decoding returns instructions from the address on, each behind the one before. -/
theorem increasing_of_instructions (h : d.instructions image table addr words = .ok instrs) :
    Stream.Increasing instrs ∧ ∀ ins ∈ instrs, addr ≤ ins.addr := by
  induction instrs generalizing d addr words with
  | nil => exact ⟨.nil, List.forall_mem_nil _⟩
  | cons first rest ih =>
      cases words with
      | nil => rw [instructions_nil] at h; cases h
      | cons word words =>
          obtain ⟨_, _, hfirst, hrest, ⟨⟩⟩ := instructions_cons_eq_ok.mp h
          obtain ⟨rfl, hsize⟩ := instruction_eq_ok hfirst
          obtain ⟨hincreasing, hle⟩ := ih hrest
          refine ⟨.cons (fun x hx => ?_) hincreasing, fun x hx => ?_⟩
          · exact (Nat.lt_add_of_pos_right hsize).trans_le (hle x hx)
          · rcases List.mem_cons.mp hx with rfl | hx
            · exact le_rfl
            · exact (Nat.le_add_right _ _).trans (hle x hx)

end Decoder

end TorqueScript
