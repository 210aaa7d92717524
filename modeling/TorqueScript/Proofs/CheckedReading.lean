import TorqueScript.Image.Read
import TorqueScript.Proofs.Checked

/-!
# Reading with checks

A `Reader` takes bytes from the front of a list and leaves the rest.  A `Cursor` keeps the whole list and the
position of the next byte, as a program does that reads from a buffer, and looks up what it reads by position.
Before each access it compares what is left with what it needs, and that is enough: reading at a position is
the same as taking from the front of what follows it (`Cursor.Mirrors`), for runs of bytes
(`Cursor.mirrors_bytes`) and so for all that is read in several steps.

**Reading** (`Checked.load_eq`).  A file is read, or refused for the same reason, without a look beyond its
end.
-/

namespace TorqueScript

/-- Reads from bytes.  The state is the position of the next byte. -/
abbrev Cursor := ReaderT (List UInt8) (StateT Nat Checked)

namespace Cursor

variable {α β : Type}

/-- The next `n` bytes. -/
def bytes (n : Nat) : Cursor (List UInt8) := do
  let buffer ← read
  let pos ← get
  if buffer.length - pos < n then throw .endOfInput
  else do
    let bs ← Checked.slice buffer pos n
    set (pos + n)
    pure bs

/-- One byte. -/
def byte : Cursor UInt8 := do
  let buffer ← read
  let pos ← get
  if buffer.length - pos < 1 then throw .endOfInput
  else do
    let b ← Checked.get buffer pos
    set (pos + 1)
    pure b

/-- Four bytes as a number. -/
def word : Cursor UInt32 := do
  match ← bytes 4 with
  | [a, b, c, d] => pure (Reader.ofBytes a b c d)
  | _ => Checked.slip .outOfRange

/-- Eight bytes as a floating point number. -/
def double : Cursor Binary64 := do
  match ← bytes 8 with
  | [a, b, c, d, e, f, g, h] =>
    let low := Reader.ofBytes a b c d
    let high := Reader.ofBytes e f g h
    pure ⟨UInt64.ofNat (low.toNat + 4294967296 * high.toNat)⟩
  | _ => Checked.slip .outOfRange

/-- Reads `n` times. -/
def times (n : Nat) (c : Cursor α) : Cursor (List α) :=
  match n with
  | 0 => pure []
  | n + 1 => do
    let a ← c
    let as ← times n c
    pure (a :: as)

/-- The string of a pool at an offset. -/
def string? (pool : StringPool) (offset : Nat) : Checked (Option String) :=
  if pool.bytes.length ≤ offset then pure none
  else do
    let rest ← Checked.slice pool.bytes offset (pool.bytes.length - offset)
    let bs ← Checked.slice rest 0 (rest.takeWhile (· != 0)).length
    pure (some (StringPool.decode bs))

/-- A string pool, after its size. -/
def stringPool : Cursor StringPool := do
  let size ← word
  let bs ← bytes size.toNat
  pure ⟨bs⟩

/-- Floating point numbers, after their count. -/
def floats : Cursor (List Binary64) := do
  let count ← word
  times count.toNat double

/-- Strings, then floating point numbers. -/
def pools : Cursor Pools := do
  let strings ← stringPool
  let floats ← floats
  pure ⟨strings, floats⟩

/-- A code word, in its short or its long form. -/
def codeWord : Cursor UInt32 := do
  let b ← byte
  if b = 255 then word else pure (UInt32.ofNat b.toNat)

/-- A source line and the address of its code. -/
def lineBreak : Cursor LineBreak := do
  let line ← word
  let addr ← word
  pure ⟨line.toNat, addr.toNat⟩

/-- One reference of an identifier. -/
def patch (name : String) (codeLength : Nat) : Cursor (Addr × String) := do
  let ip ← word
  if ip.toNat < codeLength then pure (ip.toNat, name) else throw (.patchOutsideCode ip.toNat codeLength)

/-- An identifier and its references. -/
def identifier (strings : StringPool) (codeLength : Nat) : Cursor (List (Addr × String)) := do
  let offset ← word
  match ← string? strings offset.toNat with
  | none => throw (.invalidStringOffset offset.toNat)
  | some name =>
    let count ← word
    times count.toNat (patch name codeLength)

/-- All identifiers, after their count. -/
def identifiers (strings : StringPool) (codeLength : Nat) : Cursor (List (Addr × String)) := do
  let count ← word
  let entries ← times count.toNat (identifier strings codeLength)
  pure entries.flatten

/-- All sections of a file. -/
def image : Cursor Image := do
  let version ← word
  let outer ← pools
  let inner ← pools
  let codeLength ← word
  let lineBreakCount ← word
  let code ← times codeLength.toNat codeWord
  let lineBreaks ← times lineBreakCount.toNat lineBreak
  let patches ← identifiers outer.strings code.length
  pure { version, outer, inner, code, lineBreaks, patches := patches.reverse }

/-! ### The same as taking bytes from the front -/

/-- The bytes from the position on are those that are left. -/
def At (buffer : List UInt8) (pos : Nat) (bs : List UInt8) : Prop :=
  pos ≤ buffer.length ∧ bs = buffer.drop pos

/-- What is read at a position is taken from the front of the bytes that follow. -/
def Mirrors (c : Cursor α) (r : Reader α) : Prop :=
  ∀ buffer, Checked.Mirrors (At buffer) (c buffer) r

namespace Mirrors

variable {c : Cursor α} {r : Reader α} {f : α → Cursor β} {g : α → Reader β}

theorem pure (a : α) : Mirrors (Pure.pure a) (Pure.pure a) :=
  fun _ => .pure a

theorem throw (e : Error) : Mirrors (throw e : Cursor α) (throw e) :=
  fun _ => .throw e

/-- **Sequences mirror each other if their parts do.** -/
theorem bind (h : Mirrors c r) (hfg : ∀ a, Mirrors (f a) (g a)) : Mirrors (c >>= f) (r >>= g) :=
  fun buffer => (h buffer).bind fun a => hfg a buffer

/-- So do repetitions. -/
theorem times (h : Mirrors c r) (n : Nat) : Mirrors (Cursor.times n c) (Reader.times n r) := by
  induction n with
  | zero => exact .pure []
  | succ n ih => exact h.bind fun a => ih.bind fun as => .pure (a :: as)

end Mirrors

variable {buffer front rest : List UInt8} {pos n : Nat}

/-- Bytes that are not there end the input. -/
theorem bytes_of_short (h : (buffer.drop pos).length < n) : bytes n buffer pos = throw .endOfInput := by
  rw [List.length_drop] at h
  show (ite (buffer.length - pos < n) _ _ : Cursor (List UInt8)) buffer pos = _
  rw [if_pos h]
  rfl

/-- Bytes that are there are read behind the position. -/
theorem bytes_of_append (hpos : pos ≤ buffer.length) (h : buffer.drop pos = front ++ rest)
    (hn : front.length = n) : bytes n buffer pos = pure (front, pos + n) := by
  have hlength := congrArg List.length h
  rw [List.length_drop, List.length_append, hn] at hlength
  have hslice : Checked.slice buffer pos n = pure front := by
    rw [Checked.slice_eq (by omega), h, ← hn, List.take_left]
  show (ite (buffer.length - pos < n) _ _ : Cursor (List UInt8)) buffer pos = _
  rw [if_neg (by omega), hslice]
  rfl

/-- Behind a run of bytes the rest is left. -/
theorem at_append (hpos : pos ≤ buffer.length) (h : buffer.drop pos = front ++ rest)
    (hn : front.length = n) : At buffer (pos + n) rest := by
  have hlength := congrArg List.length h
  rw [List.length_drop, List.length_append, hn] at hlength
  refine ⟨by omega, ?_⟩
  rw [← List.drop_drop, h, ← hn, List.drop_left]

theorem mirrors_bytes (n : Nat) : Mirrors (bytes n) (Reader.bytes n) := by
  rintro buffer pos _ ⟨hpos, rfl⟩
  by_cases h : n ≤ (buffer.drop pos).length
  · have happend := (List.take_append_drop n (buffer.drop pos)).symm
    have hlength : ((buffer.drop pos).take n).length = n := List.length_take_of_le h
    exact .inr ⟨_, _, if_pos h, bytes_of_append hpos happend hlength, rfl, at_append hpos happend hlength⟩
  · exact .inl ⟨_, if_neg h, bytes_of_short (Nat.not_le.mp h)⟩

/-- A sequence on a cursor goes on where the first part has got to. -/
theorem bind_apply (c : Cursor α) (f : α → Cursor β) (buffer : List UInt8) (pos : Nat) :
    (c >>= f) buffer pos = c buffer pos >>= fun p => f p.1 buffer p.2 := rfl

theorem mirrors_byte : Mirrors byte Reader.byte := by
  rintro buffer pos _ ⟨hpos, rfl⟩
  have hbyte : byte buffer pos = (ite (buffer.length - pos < 1) _ _ : Cursor UInt8) buffer pos := rfl
  have hlength := List.length_drop (i := pos) (l := buffer)
  cases h : buffer.drop pos with
  | nil =>
      rw [h, List.length_nil] at hlength
      rw [hbyte, if_pos (by omega)]
      exact .inl ⟨_, rfl, rfl⟩
  | cons b rest =>
      rw [h, List.length_cons] at hlength
      have hget : Checked.get buffer pos = pure b := by
        refine Checked.get_eq ?_
        rw [← List.head?_drop, h, List.head?_cons]
      have happend : buffer.drop pos = [b] ++ rest := h
      rw [hbyte, if_neg (by omega), hget]
      exact .inr ⟨(b, pos + 1), (b, rest), rfl, rfl, rfl, at_append hpos happend rfl⟩

/-- A number is read the same with a cursor. -/
theorem mirrors_word : Mirrors word Reader.word := by
  rintro buffer pos _ ⟨hpos, rfl⟩
  match h : buffer.drop pos with
  | a :: b :: c :: d :: rest =>
      have happend : buffer.drop pos = [a, b, c, d] ++ rest := h
      have hbytes : bytes 4 buffer pos = _ := bytes_of_append hpos happend rfl
      refine .inr ⟨(_, _), _, rfl, ?_, rfl, at_append hpos happend rfl⟩
      rw [word, bind_apply, hbytes]
      rfl
  | [] | [_] | [_, _] | [_, _, _] =>
      refine .inl ⟨_, rfl, ?_⟩
      rw [word, bind_apply, bytes_of_short (by rw [h]; simp)]
      rfl

theorem mirrors_double : Mirrors double Reader.double := by
  rintro buffer pos _ ⟨hpos, rfl⟩
  match h : buffer.drop pos with
  | a :: b :: c :: d :: e :: f :: g :: i :: rest =>
      have happend : buffer.drop pos = [a, b, c, d, e, f, g, i] ++ rest := h
      have hbytes : bytes 8 buffer pos = _ := bytes_of_append hpos happend rfl
      refine .inr ⟨(_, _), _, rfl, ?_, rfl, at_append hpos happend rfl⟩
      rw [double, bind_apply, hbytes]
      rfl
  | [] | [_] | [_, _] | [_, _, _] | [_, _, _, _] | [_, _, _, _, _] | [_, _, _, _, _, _]
  | [_, _, _, _, _, _, _] =>
      refine .inl ⟨_, rfl, ?_⟩
      rw [double, bind_apply, bytes_of_short (by rw [h]; simp)]
      rfl

/-- A string is looked up without a slip. -/
theorem string?_eq (pool : StringPool) (offset : Nat) : string? pool offset = pure (pool.get? offset) := by
  unfold string? StringPool.get?
  by_cases h : offset < pool.bytes.length
  · have hrest : Checked.slice pool.bytes offset (pool.bytes.length - offset) =
        pure (pool.bytes.drop offset) := by
      rw [Checked.slice_eq (by omega), List.take_of_length_le (by simp)]
    have hstring : (pool.bytes.drop offset).takeWhile (· != 0) <+: pool.bytes.drop offset :=
      List.takeWhile_prefix _
    rw [if_neg (Nat.not_le.mpr h), if_pos h, hrest, pure_bind,
      Checked.slice_eq (by rw [Nat.zero_add]; exact hstring.length_le), List.drop_zero,
      ← List.prefix_iff_eq_take.mp hstring, pure_bind]
  · rw [if_pos (Nat.not_lt.mp h), if_neg h]

theorem mirrors_stringPool : Mirrors stringPool Reader.stringPool :=
  .bind mirrors_word fun _ => (mirrors_bytes _).bind fun _ => .pure _

theorem mirrors_floats : Mirrors floats Reader.floats :=
  .bind mirrors_word fun _ => .times mirrors_double _

theorem mirrors_pools : Mirrors pools Reader.pools :=
  .bind mirrors_stringPool fun _ => .bind mirrors_floats fun _ => .pure _

theorem mirrors_codeWord : Mirrors codeWord Reader.codeWord := by
  refine .bind mirrors_byte fun b => ?_
  split
  · exact mirrors_word
  · exact .pure _

theorem mirrors_lineBreak : Mirrors lineBreak Reader.lineBreak :=
  .bind mirrors_word fun _ => .bind mirrors_word fun _ => .pure _

/-- A patch is read the same with a cursor. -/
theorem mirrors_patch (name : String) (codeLength : Nat) :
    Mirrors (patch name codeLength) (Reader.patch name codeLength) := by
  refine .bind mirrors_word fun ip => ?_
  split
  · exact .pure _
  · exact .throw _

theorem mirrors_identifier (strings : StringPool) (codeLength : Nat) :
    Mirrors (identifier strings codeLength) (Reader.identifier strings codeLength) := by
  refine .bind mirrors_word fun offset => ?_
  rw [string?_eq]
  cases strings.get? offset.toNat with
  | none => exact .throw _
  | some name => exact .bind mirrors_word fun _ => (mirrors_patch name codeLength).times _

theorem mirrors_identifiers (strings : StringPool) (codeLength : Nat) :
    Mirrors (identifiers strings codeLength) (Reader.identifiers strings codeLength) :=
  .bind mirrors_word fun _ => ((mirrors_identifier strings codeLength).times _).bind fun _ => .pure _

/-- **So is a whole image.** -/
theorem mirrors_image : Mirrors image Reader.image :=
  .bind mirrors_word fun _ => .bind mirrors_pools fun _ => .bind mirrors_pools fun _ =>
    .bind mirrors_word fun _ => .bind mirrors_word fun _ => .bind (.times mirrors_codeWord _) fun _ =>
      .bind (.times mirrors_lineBreak _) fun _ => (mirrors_identifiers _ _).bind fun _ => .pure _

end Cursor

/-- Reads a compiled file. -/
def Checked.load (bytes : List UInt8) : Checked Image :=
  Prod.fst <$> Cursor.image bytes 0

/-- **A file is read** without looking beyond its end. -/
theorem Checked.load_eq (bytes : List UInt8) :
    load bytes = of (Prod.fst <$> Image.read bytes) :=
  (Cursor.mirrors_image bytes).outcome ⟨Nat.zero_le _, rfl⟩

end TorqueScript
