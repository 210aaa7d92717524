import Mathlib
import TorqueScript.Decompile

/-!
# Layout of compiled files

`Sections` are the contents of a compiled file as it is written: every list is short enough for its length
to be counted in a word, a code word has its short or its long form, an identifier lies in the string pool
of the code outside functions, and its references lie in the code.  `Sections.bytes` writes them one after
the other, and `Sections.image` is the image that they stand for.

A reader takes what is written for one of the things of a kind, and nothing else (`Reader.Takes`).  Such
statements compose along the sections (`Reader.Takes.times`, `Reader.Takes.counted`), up to the whole file
(`Reader.takes_image`):

**Format** (`Image.load_layout`).  A file is read if and only if it begins with the bytes of some
sections, whatever follows them, and it is read as the image of these sections.  In the image a code word
has the text of the last entry that refers to it (`Sections.identifier?_image`).
-/

namespace TorqueScript

namespace Image

/-! ### Numbers -/

/-- The bytes of a number, the lowest one first. -/
def littleEndian (size n : Nat) : List UInt8 :=
  (List.range size).map fun i => UInt8.ofNat (n / 256 ^ i)

/-- The bytes of a word. -/
def wordBytes (w : UInt32) : List UInt8 :=
  littleEndian 4 w.toNat

/-- The bytes of a floating point number. -/
def doubleBytes (x : Binary64) : List UInt8 :=
  littleEndian 8 x.bits.toNat

/-- A number of things, and the things. -/
def countedBytes {α : Type} (bytes : α → List UInt8) (as : List α) : List UInt8 :=
  wordBytes (UInt32.ofNat as.length) ++ as.flatMap bytes

/-- The number of things can be written in a word. -/
def CountFits {α : Type} (as : List α) : Prop :=
  as.length < 4294967296

end Image

open Image

/-! ### Sections -/

namespace Pools

/-- The bytes of a pool of strings and a pool of numbers. -/
def bytes (p : Pools) : List UInt8 :=
  wordBytes (UInt32.ofNat p.strings.bytes.length) ++ (p.strings.bytes ++ countedBytes doubleBytes p.floats)

/-- Both pools can be counted. -/
def Fits (p : Pools) : Prop :=
  CountFits p.strings.bytes ∧ CountFits p.floats

end Pools

/-- A code word as it is written. -/
inductive CodeWord where
  | short (b : UInt8) (h : b ≠ 255)
  | long (w : UInt32)

namespace CodeWord

/-- The word itself. -/
def value : CodeWord → UInt32
  | short b _ => UInt32.ofNat b.toNat
  | long w => w

/-- One byte, or five of which the first is 255. -/
def bytes : CodeWord → List UInt8
  | short b _ => [b]
  | long w => 255 :: wordBytes w

/-- The shorter form of a word, if there is a choice. -/
def shortest (w : UInt32) : CodeWord :=
  if h : w.toNat < 255 then short (UInt8.ofNat w.toNat) (by
    intro e
    have := congrArg UInt8.toNat e
    simp only [UInt8.toNat_ofNat', UInt8.reduceToNat] at this
    omega)
  else long w

@[simp] theorem value_shortest (w : UInt32) : (shortest w).value = w := by
  unfold shortest
  split
  · next h =>
      rw [value, ← UInt32.toNat_inj, UInt32.toNat_ofNat', UInt8.toNat_ofNat']
      omega
  · rfl

end CodeWord

/-- An identifier by its place in the string pool, and the code words that refer to it. -/
structure Entry where
  offset : UInt32
  references : List UInt32
  countFits : CountFits references

namespace Entry

/-- The bytes of an identifier. -/
def bytes (e : Entry) : List UInt8 :=
  wordBytes e.offset ++ countedBytes wordBytes e.references

/-- The identifier lies in the pool, and its references in code of the given length. -/
structure Fits (strings : StringPool) (codeLength : Nat) (e : Entry) : Prop where
  offset_lt : e.offset.toNat < strings.bytes.length
  references_lt : ∀ ip ∈ e.references, ip.toNat < codeLength

/-- The text of the identifier. -/
def text (strings : StringPool) (e : Entry) : String :=
  (strings.get? e.offset.toNat).getD ""

/-- What is patched into the code words that refer to the identifier. -/
def patches (strings : StringPool) (e : Entry) : List (Addr × String) :=
  e.references.map fun ip => (ip.toNat, e.text strings)

end Entry

/-- The contents of a compiled file as they are written. -/
structure Sections where
  version : UInt32
  outer : Pools
  inner : Pools
  code : List CodeWord
  lineBreaks : List (UInt32 × UInt32)
  identifiers : List Entry
  outer_fits : outer.Fits
  inner_fits : inner.Fits
  code_countFits : CountFits code
  lineBreaks_countFits : CountFits lineBreaks
  identifiers_countFits : CountFits identifiers
  identifiers_fit : ∀ e ∈ identifiers, e.Fits outer.strings code.length

namespace Sections

/-- The bytes of a line break. -/
def lineBreakBytes (b : UInt32 × UInt32) : List UInt8 :=
  wordBytes b.1 ++ wordBytes b.2

/-- All sections in the order of the file. -/
def bytes (S : Sections) : List UInt8 :=
  wordBytes S.version ++ (S.outer.bytes ++ (S.inner.bytes ++
    (wordBytes (UInt32.ofNat S.code.length) ++ (wordBytes (UInt32.ofNat S.lineBreaks.length) ++
      (S.code.flatMap CodeWord.bytes ++ (S.lineBreaks.flatMap lineBreakBytes ++
        countedBytes Entry.bytes S.identifiers))))))

/-- The image that the sections stand for. -/
def image (S : Sections) : Image where
  version := S.version
  outer := S.outer
  inner := S.inner
  code := S.code.map CodeWord.value
  lineBreaks := S.lineBreaks.map fun b => ⟨b.1.toNat, b.2.toNat⟩
  patches := (S.identifiers.flatMap fun e => e.patches S.outer.strings).reverse

end Sections

namespace Image

/-! ### Bytes and numbers -/

@[simp] theorem littleEndian_four (n : Nat) : littleEndian 4 n =
    [UInt8.ofNat n, UInt8.ofNat (n / 256), UInt8.ofNat (n / 65536), UInt8.ofNat (n / 16777216)] := by
  simp [littleEndian, List.range_succ]

/-- Four bytes that are read as a number are its bytes. -/
theorem wordBytes_ofBytes (a b c d : UInt8) : wordBytes (Reader.ofBytes a b c d) = [a, b, c, d] := by
  have ha := a.toNat_lt
  have hb := b.toNat_lt
  have hc := c.toNat_lt
  have hd := d.toNat_lt
  simp only [wordBytes, littleEndian_four, Reader.ofBytes, UInt32.toNat_ofNat', List.cons.injEq,
    and_true, ← UInt8.toNat_inj, UInt8.toNat_ofNat']
  omega

/-- The bytes of a number are read as the number. -/
theorem word_wordBytes (w : UInt32) (rest : List UInt8) :
    Reader.word (wordBytes w ++ rest) = .ok (w, rest) := by
  have hw := w.toNat_lt
  simp only [wordBytes, littleEndian_four, List.cons_append, List.nil_append, Reader.word,
    Except.ok.injEq, Prod.mk.injEq, and_true]
  rw [← UInt32.toNat_inj, Reader.ofBytes, UInt32.toNat_ofNat']
  simp only [UInt8.toNat_ofNat']
  omega

/-- A floating point number is written as two words, the lower one first. -/
theorem doubleBytes_eq (low high : UInt32) :
    doubleBytes ⟨UInt64.ofNat (low.toNat + 4294967296 * high.toNat)⟩ = wordBytes low ++ wordBytes high := by
  have hlow := low.toNat_lt
  have hhigh := high.toNat_lt
  simp only [doubleBytes, littleEndian, List.range_succ, wordBytes, UInt64.toNat_ofNat', List.range_zero,
    List.nil_append, List.map_cons, List.map_nil, List.cons_append, List.cons.injEq,
    ← UInt8.toNat_inj, UInt8.toNat_ofNat', Nat.reducePow, and_true]
  omega

/-- A length that fits a count is kept by it. -/
theorem toNat_ofNat_length {α : Type} {as : List α} (h : CountFits as) :
    (UInt32.ofNat as.length).toNat = as.length := by
  rw [UInt32.toNat_ofNat']
  exact Nat.mod_eq_of_lt h

/-- What is as long as a count fits one. -/
theorem countFits_of_length {α : Type} {as : List α} {count : UInt32} (h : as.length = count.toNat) :
    CountFits as := by
  rw [CountFits, h]
  exact count.toNat_lt

theorem ofNat_length {α : Type} {as : List α} {count : UInt32} (h : as.length = count.toNat) :
    UInt32.ofNat as.length = count := by
  rw [h]
  exact UInt32.ofNat_toNat

end Image

namespace Reader

/-! ### Readers -/

/-- The reader takes from the front of its input what is written for one of the things with the property
`C`, and gives its value. -/
def Takes {α ι : Type} (r : Reader α) (C : ι → Prop) (value : ι → α) (bytes : ι → List UInt8) : Prop :=
  ∀ bs a rest, r bs = .ok (a, rest) ↔ ∃ i, C i ∧ value i = a ∧ bytes i ++ rest = bs

variable {α β ι : Type} {r : Reader α} {C : ι → Prop} {value : ι → α} {bytes : ι → List UInt8}

/-- The parts of a reading that succeeds. -/
theorem bind_eq_ok_iff {f : α → Reader β} {bs rest : List UInt8} {b : β} :
    (r >>= f) bs = .ok (b, rest) ↔ ∃ a mid, r bs = .ok (a, mid) ∧ f a mid = .ok (b, rest) := by
  show (r bs >>= fun p => f p.1 p.2) = .ok (b, rest) ↔ _
  cases r bs with
  | error e => exact ⟨nofun, fun ⟨_, _, h, _⟩ => nomatch h⟩
  | ok p => exact ⟨fun h => ⟨p.1, p.2, rfl, h⟩, fun ⟨_, _, e, h⟩ => by cases e; exact h⟩

theorem pure_eq_ok_iff {a b : α} {bs rest : List UInt8} :
    (pure a : Reader α) bs = .ok (b, rest) ↔ a = b ∧ bs = rest := by
  show Except.ok (a, bs) = .ok (b, rest) ↔ _
  simp

/-- What is taken in front of any rest. -/
theorem Takes.run (h : Takes r C value bytes) {i : ι} (hi : C i) (rest : List UInt8) :
    r (bytes i ++ rest) = .ok (value i, rest) :=
  (h _ _ _).mpr ⟨i, hi, rfl, rfl⟩

/-- **A number is read exactly from its bytes.** -/
theorem word_eq_ok_iff {w : UInt32} {bs rest : List UInt8} :
    word bs = .ok (w, rest) ↔ bs = wordBytes w ++ rest := by
  constructor
  · intro h
    unfold word at h
    split at h
    · next a b c d bs =>
        cases h
        exact (congrArg (· ++ rest) (wordBytes_ofBytes a b c d)).symm
    · cases h
  · rintro rfl
    exact word_wordBytes w rest

/-- A double is read from eight bytes. -/
theorem takes_double : Takes double (fun _ => True) (fun x => x) doubleBytes := by
  intro bs x rest
  constructor
  · intro h
    obtain ⟨low, bs₁, hlow, h⟩ := bind_eq_ok_iff.mp h
    obtain ⟨high, bs₂, hhigh, h⟩ := bind_eq_ok_iff.mp h
    obtain ⟨rfl, rfl⟩ := pure_eq_ok_iff.mp h
    obtain rfl := word_eq_ok_iff.mp hlow
    obtain rfl := word_eq_ok_iff.mp hhigh
    exact ⟨_, trivial, rfl, by rw [doubleBytes_eq, List.append_assoc]⟩
  · rintro ⟨⟨bits⟩, -, rfl, rfl⟩
    -- every number is made of two words
    have hbits := bits.toNat_lt
    obtain ⟨low, high, rfl⟩ : ∃ low high : UInt32,
        bits = UInt64.ofNat (low.toNat + 4294967296 * high.toNat) := by
      refine ⟨UInt32.ofNat bits.toNat, UInt32.ofNat (bits.toNat / 4294967296), ?_⟩
      rw [← UInt64.toNat_inj, UInt64.toNat_ofNat', UInt32.toNat_ofNat', UInt32.toNat_ofNat']
      omega
    rw [doubleBytes_eq, List.append_assoc]
    exact bind_eq_ok_iff.mpr ⟨low, _, word_wordBytes low _,
      bind_eq_ok_iff.mpr ⟨high, _, word_wordBytes high _, rfl⟩⟩

/-- A reader that is used several times takes the things one after the other. -/
theorem Takes.times (h : Takes r C value bytes) (n : Nat) :
    Takes (Reader.times n r) (fun is => is.length = n ∧ ∀ i ∈ is, C i) (List.map value)
      (List.flatMap bytes) := by
  induction n with
  | zero =>
      intro bs as rest
      rw [Reader.times, pure_eq_ok_iff]
      constructor
      · rintro ⟨rfl, rfl⟩
        exact ⟨[], ⟨rfl, List.forall_mem_nil _⟩, rfl, rfl⟩
      · rintro ⟨is, ⟨hlength, -⟩, rfl, rfl⟩
        obtain rfl := List.eq_nil_of_length_eq_zero hlength
        exact ⟨rfl, rfl⟩
  | succ n ih =>
      intro bs as rest
      rw [Reader.times, bind_eq_ok_iff]
      constructor
      · rintro ⟨a, bs₁, hfirst, hrest⟩
        obtain ⟨as, bs₂, hlater, hpure⟩ := bind_eq_ok_iff.mp hrest
        obtain ⟨rfl, rfl⟩ := pure_eq_ok_iff.mp hpure
        obtain ⟨i, hi, rfl, rfl⟩ := (h _ _ _).mp hfirst
        obtain ⟨is, ⟨rfl, his⟩, rfl, rfl⟩ := (ih _ _ _).mp hlater
        exact ⟨i :: is, ⟨rfl, List.forall_mem_cons.mpr ⟨hi, his⟩⟩, rfl, by simp⟩
      · rintro ⟨_ | ⟨i, is⟩, ⟨hlength, his⟩, rfl, rfl⟩
        · cases hlength
        · obtain ⟨hi, his⟩ := List.forall_mem_cons.mp his
          rw [List.flatMap_cons, List.append_assoc]
          exact ⟨_, _, h.run hi _, bind_eq_ok_iff.mpr
            ⟨_, _, ih.run ⟨Nat.succ.inj hlength, his⟩ rest, rfl⟩⟩

/-- A list after its length. -/
theorem Takes.counted (h : Takes r C value bytes) :
    Takes (word >>= fun count => Reader.times count.toNat r) (fun is => CountFits is ∧ ∀ i ∈ is, C i)
      (List.map value) (countedBytes bytes) := by
  intro bs as rest
  rw [bind_eq_ok_iff]
  constructor
  · rintro ⟨count, bs₁, hcount, hlist⟩
    obtain rfl := word_eq_ok_iff.mp hcount
    obtain ⟨is, ⟨hlength, his⟩, rfl, rfl⟩ := (h.times _ _ _ _).mp hlist
    refine ⟨is, ⟨countFits_of_length hlength, his⟩, rfl, ?_⟩
    rw [countedBytes, ofNat_length hlength, List.append_assoc]
  · rintro ⟨is, ⟨hcountFits, his⟩, rfl, rfl⟩
    rw [countedBytes, List.append_assoc]
    refine ⟨_, _, word_wordBytes _ _, ?_⟩
    rw [toNat_ofNat_length hcountFits]
    exact (h.times _).run ⟨rfl, his⟩ rest

/-! ### Sections -/

/-- Bytes are read as they are. -/
theorem takes_bytes (n : Nat) : Takes (Reader.bytes n) (fun bs => bs.length = n) (fun bs => bs) (fun bs => bs) := by
  intro bs as rest
  unfold Reader.bytes
  constructor
  · intro h
    split at h
    · next hn =>
        cases h
        exact ⟨bs.take n, List.length_take_of_le hn, rfl, List.take_append_drop n bs⟩
    · cases h
  · rintro ⟨as, rfl, rfl, rfl⟩
    simp

/-- Pools are read from their sizes and contents. -/
theorem takes_pools : Takes pools Pools.Fits (fun p => p) Pools.bytes := by
  intro bs p rest
  have hfloats : Takes floats (fun xs => CountFits xs ∧ ∀ x ∈ xs, True) (List.map id)
    (countedBytes doubleBytes) := takes_double.counted
  constructor
  · intro h
    obtain ⟨strings, bs₁, hstrings, h⟩ := bind_eq_ok_iff.mp h
    obtain ⟨numbers, bs₂, hnumbers, h⟩ := bind_eq_ok_iff.mp h
    obtain ⟨rfl, rfl⟩ := pure_eq_ok_iff.mp h
    obtain ⟨size, bs₃, hsize, hstrings⟩ := bind_eq_ok_iff.mp hstrings
    obtain ⟨pool, bs₄, hpool, hstrings⟩ := bind_eq_ok_iff.mp hstrings
    obtain ⟨rfl, rfl⟩ := pure_eq_ok_iff.mp hstrings
    obtain rfl := word_eq_ok_iff.mp hsize
    obtain ⟨pool, hlength, rfl, rfl⟩ := (takes_bytes _ _ _ _).mp hpool
    obtain ⟨numbers, ⟨hcountFits, -⟩, rfl, rfl⟩ := (hfloats _ _ _).mp hnumbers
    refine ⟨⟨⟨pool⟩, numbers⟩, ⟨countFits_of_length hlength, hcountFits⟩, by simp, ?_⟩
    simp [Pools.bytes, ofNat_length hlength]
  · rintro ⟨⟨⟨pool⟩, numbers⟩, ⟨hpool, hnumbers⟩, rfl, rfl⟩
    have hrun := hfloats.run ⟨hnumbers, fun _ _ => trivial⟩ rest
    rw [List.map_id] at hrun
    simp only [Pools.bytes, List.append_assoc]
    refine bind_eq_ok_iff.mpr ⟨⟨pool⟩, _, ?_, bind_eq_ok_iff.mpr ⟨numbers, _, hrun, rfl⟩⟩
    refine bind_eq_ok_iff.mpr ⟨_, _, word_wordBytes _ _, ?_⟩
    rw [toNat_ofNat_length hpool]
    exact bind_eq_ok_iff.mpr ⟨pool, _, (takes_bytes pool.length).run rfl _, rfl⟩

/-- A word of code is read from one byte, or from five where it is long. -/
theorem takes_codeWord : Takes codeWord (fun _ => True) CodeWord.value CodeWord.bytes := by
  intro bs w rest
  constructor
  · intro h
    obtain ⟨b, bs₁, hbyte, hword⟩ := bind_eq_ok_iff.mp h
    unfold byte at hbyte
    split at hbyte
    · next b bs =>
        cases hbyte
        split at hword
        · next hb =>
            obtain rfl := word_eq_ok_iff.mp hword
            exact ⟨.long w, trivial, rfl, by rw [hb]; rfl⟩
        · next hb =>
            obtain ⟨rfl, rfl⟩ := pure_eq_ok_iff.mp hword
            exact ⟨.short b hb, trivial, rfl, rfl⟩
    · cases hbyte
  · rintro ⟨⟨b, hb⟩ | ⟨w⟩, -, rfl, rfl⟩
    · exact bind_eq_ok_iff.mpr ⟨b, rest, rfl, by rw [if_neg hb]; rfl⟩
    · exact bind_eq_ok_iff.mpr ⟨255, _, rfl, word_wordBytes w rest⟩

/-- A line break is read from two numbers. -/
theorem takes_lineBreak : Takes lineBreak (fun _ => True) (fun b => ⟨b.1.toNat, b.2.toNat⟩)
    Sections.lineBreakBytes := by
  intro bs b rest
  constructor
  · intro h
    obtain ⟨line, bs₁, hline, h⟩ := bind_eq_ok_iff.mp h
    obtain ⟨addr, bs₂, haddr, h⟩ := bind_eq_ok_iff.mp h
    obtain ⟨rfl, rfl⟩ := pure_eq_ok_iff.mp h
    obtain rfl := word_eq_ok_iff.mp hline
    obtain rfl := word_eq_ok_iff.mp haddr
    exact ⟨(line, addr), trivial, rfl, List.append_assoc _ _ _⟩
  · rintro ⟨⟨line, addr⟩, -, rfl, rfl⟩
    rw [Sections.lineBreakBytes, List.append_assoc]
    exact bind_eq_ok_iff.mpr ⟨line, _, word_wordBytes line _,
      bind_eq_ok_iff.mpr ⟨addr, _, word_wordBytes addr rest, rfl⟩⟩

/-- A patch is read from its address, which lies within the code. -/
theorem takes_patch (name : String) (codeLength : Nat) :
    Takes (patch name codeLength) (fun ip => ip.toNat < codeLength) (fun ip => (ip.toNat, name))
      wordBytes := by
  intro bs p rest
  constructor
  · intro h
    obtain ⟨ip, bs₁, hip, h⟩ := bind_eq_ok_iff.mp h
    split at h
    · next hlt =>
        obtain ⟨rfl, rfl⟩ := pure_eq_ok_iff.mp h
        exact ⟨ip, hlt, rfl, (word_eq_ok_iff.mp hip).symm⟩
    · cases h
  · rintro ⟨ip, hip, rfl, rfl⟩
    exact bind_eq_ok_iff.mpr ⟨ip, _, word_wordBytes ip rest, by rw [if_pos hip]; rfl⟩

/-- **An identifier is read from its offset and its patches.** -/
theorem takes_identifier (strings : StringPool) (codeLength : Nat) :
    Takes (identifier strings codeLength) (Entry.Fits strings codeLength) (Entry.patches strings)
      Entry.bytes := by
  intro bs ps rest
  have hcounted := fun name => (takes_patch name codeLength).counted
  constructor
  · intro h
    obtain ⟨offset, bs₁, hoffset, hpatches⟩ := bind_eq_ok_iff.mp h
    obtain rfl := word_eq_ok_iff.mp hoffset
    cases hname : strings.get? offset.toNat with
    | none => rw [hname] at hpatches; cases hpatches
    | some name =>
        rw [hname] at hpatches
        obtain ⟨ips, ⟨hcountFits, hips⟩, rfl, rfl⟩ := (hcounted name _ _ _).mp hpatches
        have hoffset := (strings.get?_isSome _).mp (by rw [hname]; rfl)
        refine ⟨⟨offset, ips, hcountFits⟩, ⟨hoffset, hips⟩, ?_, List.append_assoc _ _ _⟩
        simp [Entry.patches, Entry.text, hname]
  · rintro ⟨⟨offset, ips, hcountFits⟩, ⟨hoffset, hips⟩, rfl, rfl⟩
    obtain ⟨name, hname⟩ := Option.isSome_iff_exists.mp ((strings.get?_isSome _).mpr hoffset)
    rw [Entry.bytes, List.append_assoc]
    refine bind_eq_ok_iff.mpr ⟨offset, _, word_wordBytes offset _, ?_⟩
    rw [hname]
    have hrun := (hcounted name).run ⟨hcountFits, hips⟩ rest
    simpa [Entry.patches, Entry.text, hname] using hrun

/-- Identifiers are read from their count and one after the other. -/
theorem takes_identifiers (strings : StringPool) (codeLength : Nat) :
    Takes (identifiers strings codeLength)
      (fun es => CountFits es ∧ ∀ e ∈ es, Entry.Fits strings codeLength e)
      (List.flatMap (Entry.patches strings)) (countedBytes Entry.bytes) := by
  intro bs ps rest
  have hcounted := (takes_identifier strings codeLength).counted
  have hread : identifiers strings codeLength =
      (word >>= fun count => Reader.times count.toNat (identifier strings codeLength)) >>=
        fun entries => pure entries.flatten := by
    rw [bind_assoc]
    rfl
  rw [hread, bind_eq_ok_iff]
  constructor
  · rintro ⟨entries, bs₁, hentries, h⟩
    obtain ⟨rfl, rfl⟩ := pure_eq_ok_iff.mp h
    obtain ⟨es, hes, rfl, rfl⟩ := (hcounted _ _ _).mp hentries
    exact ⟨es, hes, List.flatMap_def .., rfl⟩
  · rintro ⟨es, hes, rfl, rfl⟩
    exact ⟨_, _, hcounted.run hes rest, by rw [List.flatMap_def]; rfl⟩

/-- **Files.**  Reading takes the bytes of sections and gives their image. -/
theorem takes_image : Takes image (fun _ => True) Sections.image Sections.bytes := by
  intro bs image rest
  constructor
  · intro h
    obtain ⟨version, bs₁, hversion, h⟩ := bind_eq_ok_iff.mp h
    obtain ⟨outer, bs₂, houter, h⟩ := bind_eq_ok_iff.mp h
    obtain ⟨inner, bs₃, hinner, h⟩ := bind_eq_ok_iff.mp h
    obtain ⟨codeLength, bs₄, hlength, h⟩ := bind_eq_ok_iff.mp h
    obtain ⟨lineBreakCount, bs₅, hcount, h⟩ := bind_eq_ok_iff.mp h
    obtain ⟨code, bs₆, hcode, h⟩ := bind_eq_ok_iff.mp h
    obtain ⟨lineBreaks, bs₇, hbreaks, h⟩ := bind_eq_ok_iff.mp h
    obtain ⟨patches, bs₈, hpatches, h⟩ := bind_eq_ok_iff.mp h
    obtain ⟨rfl, rfl⟩ := pure_eq_ok_iff.mp h
    obtain rfl := word_eq_ok_iff.mp hversion
    obtain ⟨_, hfitsOuter, rfl, rfl⟩ := (takes_pools _ _ _).mp houter
    obtain ⟨_, hfitsInner, rfl, rfl⟩ := (takes_pools _ _ _).mp hinner
    obtain rfl := word_eq_ok_iff.mp hlength
    obtain rfl := word_eq_ok_iff.mp hcount
    obtain ⟨code, ⟨hcodeLength, -⟩, rfl, rfl⟩ := (takes_codeWord.times _ _ _ _).mp hcode
    obtain ⟨lineBreaks, ⟨hbreakCount, -⟩, rfl, rfl⟩ := (takes_lineBreak.times _ _ _ _).mp hbreaks
    obtain ⟨es, ⟨hcountFits, hes⟩, rfl, rfl⟩ := (takes_identifiers _ _ _ _ _).mp hpatches
    rw [List.length_map] at hes
    refine ⟨⟨version, _, _, code, lineBreaks, es, hfitsOuter, hfitsInner, countFits_of_length hcodeLength,
      countFits_of_length hbreakCount, hcountFits, hes⟩, trivial, rfl, ?_⟩
    simp only [Sections.bytes, ofNat_length hcodeLength, ofNat_length hbreakCount, List.append_assoc]
  · rintro ⟨S, -, rfl, rfl⟩
    have hidentifiers := (takes_identifiers S.outer.strings (S.code.map CodeWord.value).length).run
      ⟨S.identifiers_countFits, by rw [List.length_map]; exact S.identifiers_fit⟩ rest
    have hcode := (takes_codeWord.times S.code.length).run ⟨rfl, fun _ _ => trivial⟩
    have hbreaks := (takes_lineBreak.times S.lineBreaks.length).run ⟨rfl, fun _ _ => trivial⟩
    rw [← toNat_ofNat_length S.code_countFits] at hcode
    rw [← toNat_ofNat_length S.lineBreaks_countFits] at hbreaks
    simp only [Sections.bytes, List.append_assoc]
    refine bind_eq_ok_iff.mpr ⟨_, _, word_wordBytes _ _, ?_⟩
    refine bind_eq_ok_iff.mpr ⟨_, _, takes_pools.run S.outer_fits _, ?_⟩
    refine bind_eq_ok_iff.mpr ⟨_, _, takes_pools.run S.inner_fits _, ?_⟩
    refine bind_eq_ok_iff.mpr ⟨_, _, word_wordBytes _ _, ?_⟩
    refine bind_eq_ok_iff.mpr ⟨_, _, word_wordBytes _ _, ?_⟩
    refine bind_eq_ok_iff.mpr ⟨_, _, hcode _, ?_⟩
    refine bind_eq_ok_iff.mpr ⟨_, _, hbreaks _, ?_⟩
    exact bind_eq_ok_iff.mpr ⟨_, _, hidentifiers, rfl⟩

end Reader

/-! ### Identifiers -/

namespace StringPool

/-- From the offset on, the pool holds the characters of the text and then a zero byte or its end. -/
def Spells (pool : StringPool) (offset : Nat) (text : String) : Prop :=
  ∃ chars rest, pool.bytes.drop offset = chars ++ rest ∧ 0 ∉ chars ∧ (∀ b ∈ rest.head?, b = 0) ∧
    text = decode chars

/-- A pool spells the text that starts at an offset and goes on to the next zero. -/
theorem spells_iff {pool : StringPool} {offset : Nat} {text : String} :
    pool.Spells offset text ↔ text = decode ((pool.bytes.drop offset).takeWhile (· != 0)) := by
  constructor
  · rintro ⟨chars, rest, hdrop, hchars, hrest, rfl⟩
    have hnonzero : ∀ b ∈ chars, (b != 0) = true := fun b hb => bne_iff_ne.mpr fun h => hchars (h ▸ hb)
    rw [hdrop, List.takeWhile_append_of_pos hnonzero]
    cases rest with
    | nil => simp
    | cons b rest => simp [hrest b rfl]
  · rintro rfl
    refine ⟨_, (pool.bytes.drop offset).dropWhile (· != 0), List.takeWhile_append_dropWhile.symm, ?_, ?_, rfl⟩
    · intro h
      simpa using List.all_eq_true.mp List.all_takeWhile _ h
    · intro b hb
      have hfirst := List.head?_dropWhile_not (· != 0) (pool.bytes.drop offset)
      rw [Option.mem_def.mp hb] at hfirst
      simpa using hfirst

end StringPool

namespace Entry

variable {strings : StringPool} {e : Entry}

/-- The entry refers to a code word. -/
def Names (e : Entry) (ip : Addr) : Prop :=
  ∃ r ∈ e.references, r.toNat = ip

/-- An entry spells its own text. -/
theorem spells_text {codeLength : Nat} {text : String} (h : e.Fits strings codeLength) :
    strings.Spells e.offset.toNat text ↔ e.text strings = text := by
  rw [StringPool.spells_iff, Entry.text, StringPool.get?, if_pos h.offset_lt, Option.getD_some, eq_comm]

/-- The patches of an entry are the addresses that it names. -/
theorem mem_patches {ip : Addr} {text : String} :
    (ip, text) ∈ e.patches strings ↔ e.Names ip ∧ e.text strings = text := by
  simp only [patches, Names, List.mem_map, Prod.mk.injEq]
  exact ⟨fun ⟨r, hr, hip, htext⟩ => ⟨⟨r, hr, hip⟩, htext⟩, fun ⟨⟨r, hr, hip⟩, htext⟩ => ⟨r, hr, hip, htext⟩⟩

/-- An address is not patched by an entry that does not name it. -/
theorem lookup_patches_eq_none {ip : Addr} :
    (e.patches strings).reverse.lookup ip = none ↔ ¬ e.Names ip := by
  simp only [List.lookup_eq_none_iff, List.mem_reverse, bne_iff_ne, Prod.forall, mem_patches]
  exact ⟨fun h hnames => h ip _ ⟨hnames, rfl⟩ rfl, fun h a _ hmem e => h (e ▸ hmem.1)⟩

/-- All patches of an entry are the same text. -/
theorem lookup_patches_eq_some {ip : Addr} {text : String} :
    (e.patches strings).reverse.lookup ip = some text ↔ e.Names ip ∧ e.text strings = text := by
  have hmem : ∀ t, (e.patches strings).reverse.lookup ip = some t → (ip, t) ∈ e.patches strings := by
    intro t h
    obtain ⟨l₁, l₂, h, -⟩ := List.lookup_eq_some_iff.mp h
    exact List.mem_reverse.mp (h ▸ List.mem_append_right l₁ List.mem_cons_self)
  constructor
  · intro h
    exact mem_patches.mp (hmem _ h)
  · rintro ⟨hnames, rfl⟩
    obtain ⟨t, ht⟩ := Option.ne_none_iff_exists'.mp fun h => lookup_patches_eq_none.mp h hnames
    rw [ht, (mem_patches.mp (hmem t ht)).2]

end Entry

namespace Image

/-- Among several lists the first that knows an address decides. -/
theorem lookup_flatMap {α : Type} (f : α → List (Addr × String)) (as : List α) (ip : Addr) :
    (as.flatMap f).lookup ip = as.findSome? fun a => (f a).lookup ip := by
  induction as with
  | nil => rfl
  | cons a as ih =>
      rw [List.flatMap_cons, List.lookup_append, List.findSome?_cons, ih]
      cases (f a).lookup ip <;> rfl

end Image

namespace Sections

/-- The last entry that refers to the code word spells the text. -/
def Identifies (S : Sections) (ip : Addr) (text : String) : Prop :=
  ∃ earlier e later, S.identifiers = earlier ++ e :: later ∧ e.Names ip ∧ (∀ l ∈ later, ¬ l.Names ip) ∧
    S.outer.strings.Spells e.offset.toNat text

/-- The latest patch of a code word is that of the last entry. -/
theorem identifier?_image (S : Sections) (ip : Addr) (text : String) :
    S.image.identifier? ip = some text ↔ S.Identifies ip text := by
  rw [Image.identifier?, image, List.reverse_flatMap, lookup_flatMap, List.findSome?_eq_some_iff]
  simp only [Function.comp_apply, Entry.lookup_patches_eq_some, Entry.lookup_patches_eq_none]
  constructor
  · rintro ⟨later, e, earlier, hsplit, ⟨hnames, htext⟩, hlater⟩
    have hsplit : S.identifiers = earlier.reverse ++ e :: later.reverse := by
      rw [← List.reverse_reverse S.identifiers, hsplit]
      simp
    have he := S.identifiers_fit e (by rw [hsplit]; simp)
    exact ⟨_, e, _, hsplit, hnames, fun l hl => hlater l (List.mem_reverse.mp hl),
      (Entry.spells_text he).mpr htext⟩
  · rintro ⟨earlier, e, later, hsplit, hnames, hlater, htext⟩
    have he := S.identifiers_fit e (by rw [hsplit]; simp)
    refine ⟨later.reverse, e, earlier.reverse, by rw [hsplit]; simp,
      ⟨hnames, (Entry.spells_text he).mp htext⟩, fun l hl => hlater l (List.mem_reverse.mp hl)⟩

/-- The same sections with every code word in its shorter form. -/
def compact (S : Sections) : Sections where
  __ := S
  code := S.code.map fun w => .shortest w.value
  code_countFits := by
    rw [CountFits, List.length_map]
    exact S.code_countFits
  identifiers_fit := by
    rw [List.length_map]
    exact S.identifiers_fit

@[simp] theorem image_compact (S : Sections) : S.compact.image = S.image := by
  simp [image, compact]

end Sections

namespace Image

/-- A load is a reading, with a warning if bytes are left. -/
theorem load_outcome (bs : List UInt8) :
    (load bs).outcome = match read bs with
      | .ok (image, rest) => (.ok image, if rest.length = 0 then [] else [.trailingBytes rest.length])
      | .error e => (.error e, []) := by
  rw [load]
  cases read bs with
  | error e => rfl
  | ok p =>
      show (Logged.tellCount p.2.length .trailingBytes >>= fun _ => pure p.1).outcome = _
      by_cases hrest : p.2.length = 0
      · simp only [Logged.tellCount, hrest, if_true]
        rfl
      · simp only [Logged.tellCount, hrest, if_false]
        rfl

/-- **Format.**  A file is read if and only if it begins with the bytes of some sections, and then as the
image of these sections.  The image gives a code word the text of the last entry that refers to it, and
no text if there is none.  A file that holds nothing else, with its code words in their shorter forms, is
read back without a message. -/
theorem load_layout :
    (∀ bs image, (load bs).outcome.1 = .ok image ↔
      ∃ S : Sections, ∃ rest, bs = S.bytes ++ rest ∧ image = S.image) ∧
    (∀ (S : Sections) ip text, S.image.identifier? ip = some text ↔ S.Identifies ip text) ∧
    ∀ S : Sections, (load S.compact.bytes).outcome = (.ok S.image, []) := by
  refine ⟨fun bs image => ?_, Sections.identifier?_image, fun S => ?_⟩
  · constructor
    · intro h
      rw [load_outcome] at h
      cases hread : read bs with
      | error e => rw [hread] at h; cases h
      | ok p =>
          rw [hread] at h
          obtain ⟨S, -, himage, rfl⟩ := (Reader.takes_image _ _ _).mp hread
          exact ⟨S, p.2, rfl, (Except.ok.inj h).symm.trans himage.symm⟩
    · rintro ⟨S, rest, rfl, rfl⟩
      have hread : read (S.bytes ++ rest) = .ok (S.image, rest) := Reader.takes_image.run trivial rest
      rw [load_outcome, hread]
  · have hread : read S.compact.bytes = .ok (S.image, []) := by
      rw [← S.image_compact, ← List.append_nil S.compact.bytes]
      exact Reader.takes_image.run trivial []
    rw [load_outcome, hread]
    rfl

end Image

end TorqueScript
