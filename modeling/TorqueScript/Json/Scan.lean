import TorqueScript.Json.Fault

/-!
# Scanning JSON text

A `Scan` takes what it wants from the front of a list of bytes and leaves the rest, or stops for a
reason. Where it stops is told by the bytes that are left, so the place of the fault is found from the
whole text at the end (`Stop.fault`). A scan that meets a wrong byte stops after that byte; a scan that
has taken a wrong thing stops where that thing ends.
-/

namespace TorqueScript

namespace Json

/-- A reason and the bytes after the place where it shows. -/
structure Stop where
  reason : Reason
  rest : List UInt8

/-- The fault in the whole text. -/
def Stop.fault (whole : List UInt8) (s : Stop) : Fault :=
  ⟨s.reason, .after (whole.take (whole.length - s.rest.length))⟩

/-- Takes a value from the front of the input. -/
abbrev Scan := StateT (List UInt8) (Except Stop)

namespace Scan

/-- Stops here. -/
def stop {α : Type} (reason : Reason) : Scan α := fun bs => .error ⟨reason, bs⟩

/-- Stops after the next byte, if there is one. -/
def stopAfter {α : Type} (reason : Reason) : Scan α := fun bs => .error ⟨reason, bs.tail⟩

/-- The next byte as a character. It is not taken. -/
def peek : Scan (Option Char) := fun bs => .ok (bs.head?.map Char.ofUInt8, bs)

/-- Leaves out the next byte. -/
def skip : Scan Unit := fun bs => .ok ((), bs.tail)

/-- Takes the next byte as a character. -/
def next : Scan (Option Char) := do
  let c ← peek
  skip
  pure c

/-- Bytes that may stand between values. -/
def isBlank (b : UInt8) : Bool :=
  [' ', '\t', '\n', '\r'].contains (Char.ofUInt8 b)

/-- Leaves out blanks; the next byte after them, which is not taken. -/
def peekPastBlanks : Scan (Option Char) := do
  modify (·.dropWhile isBlank)
  peek

/-- Takes the letters of a word. -/
def letters : List Char → Scan Unit
  | [] => pure ()
  | c :: cs => do
    match ← next with
    | none => stop .endInValue
    | some found => if found = c then letters cs else stop .expectedWord

/-! ### Strings -/

/-- The value of a hexadecimal digit, in either case. -/
def hexValue? (b : UInt8) : Option Nat :=
  let c := Char.ofUInt8 b
  if '0' ≤ c && c ≤ '9' then some (c.toNat - '0'.toNat)
  else if 'a' ≤ c && c ≤ 'f' then some (c.toNat - 'a'.toNat + 10)
  else if 'A' ≤ c && c ≤ 'F' then some (c.toNat - 'A'.toNat + 10)
  else none

/-- The number with four hexadecimal digits. -/
def unit? (a b c d : UInt8) : Option Nat := do
  let a ← hexValue? a
  let b ← hexValue? b
  let c ← hexValue? c
  let d ← hexValue? d
  some (((a * 16 + b) * 16 + c) * 16 + d)

/-- The first half of a pair that stands for one character. -/
def isLead (unit : Nat) : Bool :=
  0xd800 ≤ unit && unit ≤ 0xdbff

/-- The second half of a pair that stands for one character. -/
def isTrail (unit : Nat) : Bool :=
  0xdc00 ≤ unit && unit ≤ 0xdfff

/-- The code of the character for which a pair stands. -/
def pairCode (lead trail : Nat) : Nat :=
  (lead - 0xd800) * 0x400 + (trail - 0xdc00) + 0x10000

/-- The character of an escape of one letter. -/
def escaped? (b : UInt8) : Option Char :=
  match Char.ofUInt8 b with
  | '"' => some '"'
  | '\\' => some '\\'
  | '/' => some '/'
  | 'b' => some '\x08'
  | 'f' => some '\x0c'
  | 'n' => some '\n'
  | 'r' => some '\r'
  | 't' => some '\t'
  | _ => none

/-- The bytes of a character before those `read`, which are in reverse. -/
def pushChar (c : Char) (read : List UInt8) : List UInt8 :=
  (String.utf8EncodeChar c).reverse ++ read

/-- The rest of a string whose beginning is `read`, in reverse, with the closing quote. After the first
half of a pair, `lead` holds it, and the other half has to follow at once. -/
def stringBytes (lead : Option Nat) (read : List UInt8) :
    List UInt8 → Except Stop (List UInt8 × List UInt8)
  | [] => .error ⟨.endInString, []⟩
  | b :: bs =>
    if Char.ofUInt8 b = '\\' then
      match bs with
      | [] => .error ⟨.endInString, []⟩
      | e :: bs =>
        if Char.ofUInt8 e = 'u' then
          match bs with
          | h₁ :: h₂ :: h₃ :: h₄ :: bs =>
            match unit? h₁ h₂ h₃ h₄, lead with
            | none, _ => .error ⟨.invalidEscape, bs⟩
            | some unit, none =>
              if isTrail unit then .error ⟨.loneSurrogate, bs⟩
              else if isLead unit then stringBytes (some unit) read bs
              else stringBytes none (pushChar (Char.ofNat unit) read) bs
            | some unit, some lead =>
              if isTrail unit then stringBytes none (pushChar (Char.ofNat (pairCode lead unit)) read) bs
              else .error ⟨.loneSurrogate, bs⟩
          | _ => .error ⟨.endInString, []⟩
        else if lead.isSome then .error ⟨.cutSurrogate, bs⟩
        else match escaped? e with
          | some c => stringBytes none (pushChar c read) bs
          | none => .error ⟨.invalidEscape, bs⟩
    else if lead.isSome then .error ⟨.cutSurrogate, bs⟩
    else if Char.ofUInt8 b = '"' then .ok (read.reverse, bs)
    else if b < 32 then .error ⟨.controlCharacter, bs⟩
    else stringBytes none (b :: read) bs

/-- A string whose opening quote has been taken. -/
def string : Scan String := fun bs => do
  let (read, rest) ← stringBytes none [] bs
  .ok ((String.fromUTF8? ⟨read.toArray⟩).getD "", rest)

/-! ### Numbers -/

/-- The byte is a decimal digit. -/
def isDigit (b : UInt8) : Bool :=
  (Char.ofUInt8 b).isDigit

/-- Takes the digits that come next. -/
def digits : Scan (List UInt8) := fun bs => .ok (bs.takeWhile isDigit, bs.dropWhile isDigit)

/-- Puts digits behind the number `n` as long as it stays below `limit`; also the digits for which there
is no room. -/
def appendDigits (limit n : Nat) : List UInt8 → Nat × List UInt8
  | [] => (n, [])
  | d :: ds =>
    let m := 10 * n + (d.toNat - '0'.toNat)
    if m < limit then appendDigits limit m ds else (n, d :: ds)

/-- Significands stay below this. -/
def significandLimit : Nat := 1 <<< 64

/-- Written exponents stay below this. -/
def exponentLimit : Nat := 1 <<< 31

/-- The number `x · 10 ^ e`, by one product or quotient for each 308 places, or nothing if it is too large. -/
def scaled (x : Float) (e : Int) : Option Float :=
  if e.natAbs ≤ 308 then
    let power := Float.ofScientific 1 false e.natAbs
    let y := if 0 ≤ e then x * power else x / power
    if y.isInf then none else some y
  else if x == 0 then some x
  else if 0 ≤ e then none
  else scaled (x / 1e308) (e + 308)
termination_by e.natAbs

/-- The written exponent, whose mark has been taken. An exponent with no room is `none` if it makes the
number zero; `isZero` says that the significand is. -/
def exponent (isZero : Bool) : Scan (Option Int) := do
  let sign ← peek
  if sign = some '+' || sign = some '-' then skip
  match ← peek with
  | none => stop .endInValue
  | some c => if !c.isDigit then stopAfter .invalidNumber
  let start ← get
  let ds ← digits
  let (n, left) := appendDigits exponentLimit 0 ds
  if left.isEmpty then
    pure (some (if sign = some '-' then -n else n))
  else if !isZero && sign ≠ some '-' then
    throw ⟨.numberOutOfRange, start.drop (ds.length - left.length + 1)⟩
  else pure none

/-- A number without its sign. Whole numbers of at most sixty-four bits are kept as they are. -/
def number (isNegative : Bool) : Scan Found := do
  let start ← get
  match start with
  | [] => stop .endInValue
  | b :: bs =>
    if !isDigit b then stopAfter .invalidNumber
    else if Char.ofUInt8 b = '0' && bs.head?.any isDigit then throw ⟨.invalidNumber, bs.tail⟩
  let (n, left) := appendDigits significandLimit 0 (← digits)
  let mut significand := n
  let mut power : Int := left.length
  let mut isWhole := left.isEmpty
  if (← peek) = some '.' then
    skip
    let ds ← digits
    if ds.isEmpty then
      stopAfter (if (← peek).isNone then .endInValue else .invalidNumber)
    let (n, left) := appendDigits significandLimit significand ds
    power := power - (ds.length - left.length : Nat)
    significand := n
    isWhole := false
  let mut exponent? : Option Int := some 0
  if (← peek) = some 'e' || (← peek) = some 'E' then
    skip
    exponent? ← exponent (significand = 0)
    isWhole := false
  if isWhole && !isNegative then pure (.int significand)
  else if isWhole && 0 < significand && significand ≤ 1 <<< 63 then pure (.int (-significand))
  else
    let magnitude := match exponent? with
      | some e => scaled (UInt64.ofNat significand).toFloat (power + e)
      | none => some 0
    match magnitude with
    | none => stop .numberOutOfRange
    | some x => pure (.float ⟨(if isNegative then -x else x).toBits⟩)

/-! ### Values of the wrong kind -/

/-- Stops because the value that stands next is of another kind than the one wanted. A list or an object
is not looked into. -/
def mismatch {α : Type} (wanted : Wanted) : Scan α := do
  let found : Found ← match ← peek with
    | some 'n' => do
      skip
      letters ['u', 'l', 'l']
      pure .null
    | some 't' => do
      skip
      letters ['r', 'u', 'e']
      pure (.bool true)
    | some 'f' => do
      skip
      letters ['a', 'l', 's', 'e']
      pure (.bool false)
    | some '-' => do
      skip
      number true
    | some '"' => do
      skip
      let s ← string
      pure (.str s)
    | some '[' => pure .list
    | some '\x7b' => pure .object
    | some c => if c.isDigit then number false else stopAfter .expectedValue
    | none => stopAfter .expectedValue
  stop (.unexpected found wanted)

/-- The word `null`. -/
def null : Scan Unit := do
  match ← peekPastBlanks with
  | none => stop .endInValue
  | some 'n' => do
    skip
    letters ['u', 'l', 'l']
  | some _ => mismatch .null

end Scan

end Json

end TorqueScript
