import TorqueScript.Proofs.FileLayout

/-!
# Files that are cut off

How many bytes a file has is nowhere said: each section tells how much belongs to it when its turn comes.
All the same no part of a file is taken for the whole.  What a reader takes from the front of its input
(`Reader.Exact`) does not depend on what follows, and an input that ends inside of it is found to be too
short, wherever the cut is.

Words and runs of bytes are read in this way (`Reader.exact_word`, `Reader.exact_bytes`), and so is what is
read in several steps, each of which may depend on those before it (`Reader.Exact.bind`,
`Reader.Exact.times`).

**Truncation** (`Image.load_of_cut`).  A file is read as the same image whatever follows the bytes that
were taken from it, and each shorter part of these bytes is refused because it ends too early.
-/

namespace TorqueScript

namespace Reader

variable {α β : Type} {r : Reader α} {f : α → Reader β}

/-- What the reader takes is taken from every input that begins with it, and an input that ends inside of it
is too short. -/
def Exact (r : Reader α) : Prop :=
  ∀ bs a rest, r bs = .ok (a, rest) → ∃ taken, bs = taken ++ rest ∧
    (∀ other, r (taken ++ other) = .ok (a, other)) ∧
    ∀ short, short <+: taken → short ≠ taken → r short = .error .endOfInput

/-- After a reading that succeeds the rest is read. -/
theorem bind_of_eq_ok {bs rest : List UInt8} {a : α} (h : r bs = .ok (a, rest)) : (r >>= f) bs = f a rest := by
  show (r bs >>= fun p => f p.1 p.2) = _
  rw [h]
  rfl

theorem bind_of_eq_error {bs : List UInt8} {e : Error} (h : r bs = .error e) : (r >>= f) bs = .error e := by
  show (r bs >>= fun p => f p.1 p.2) = _
  rw [h]
  rfl

/-! ### Steps -/

theorem exact_pure (a : α) : Exact (pure a : Reader α) := by
  intro bs b rest h
  obtain ⟨rfl, rfl⟩ := pure_eq_ok_iff.mp h
  exact ⟨[], rfl, fun _ => rfl, fun short hshort hne => absurd (List.prefix_nil.mp hshort) hne⟩

theorem exact_throw (e : Error) : Exact (throw e : Reader α) :=
  fun _ _ _ h => nomatch h

/-- **One step after the other.**  A cut falls into what the first step takes or into what the second one
does. -/
theorem Exact.bind (hr : r.Exact) (hf : ∀ a, (f a).Exact) : (r >>= f).Exact := by
  intro bs b rest h
  obtain ⟨a, mid, hfirst, hsecond⟩ := bind_eq_ok_iff.mp h
  obtain ⟨taken, rfl, hwhole, hshort⟩ := hr _ _ _ hfirst
  obtain ⟨later, rfl, hwhole', hshort'⟩ := hf a _ _ _ hsecond
  refine ⟨taken ++ later, (List.append_assoc ..).symm, fun other => ?_, fun short hpre hne => ?_⟩
  · rw [List.append_assoc, bind_of_eq_ok (hwhole _)]
    exact hwhole' other
  · obtain ⟨cut, heq⟩ := hpre
    rcases List.append_eq_append_iff.mp heq with ⟨front, rfl, -⟩ | ⟨back, rfl, rfl⟩
    · by_cases hfront : front = []
      · -- between the two steps
        subst hfront
        rw [List.append_nil] at hne hwhole
        rw [bind_of_eq_ok (by simpa using hwhole [])]
        refine hshort' [] List.nil_prefix fun hnil => hne ?_
        rw [← hnil, List.append_nil]
      · exact bind_of_eq_error (hshort short (List.prefix_append short front) (by simpa using hfront))
    · rw [bind_of_eq_ok (hwhole back)]
      exact hshort' back (List.prefix_append back cut) fun heq => hne (congrArg (taken ++ ·) heq)

/-- **Repetition is exact if what is repeated is.** -/
theorem Exact.times (hr : r.Exact) (n : Nat) : (Reader.times n r).Exact := by
  induction n with
  | zero => exact exact_pure []
  | succ n ih => exact hr.bind fun a => ih.bind fun as => exact_pure (a :: as)

/-! ### Sections -/

/-- A part that is cut off is shorter. -/
theorem length_lt_of_cut {short taken : List UInt8} (h : short <+: taken) (hne : short ≠ taken) :
    short.length < taken.length :=
  h.length_le.lt_of_ne fun heq => hne (h.eq_of_length heq)

theorem exact_byte : byte.Exact := by
  intro bs b rest h
  cases bs with
  | nil => cases h
  | cons c cs =>
      cases h
      refine ⟨[b], rfl, fun _ => rfl, fun short hpre hne => ?_⟩
      obtain rfl := List.eq_nil_of_length_eq_zero (Nat.lt_one_iff.mp (length_lt_of_cut hpre hne))
      rfl

theorem exact_bytes (n : Nat) : (Reader.bytes n).Exact := by
  intro bs as rest h
  obtain ⟨_, hlength, rfl, rfl⟩ := (takes_bytes n _ _ _).mp h
  refine ⟨_, rfl, fun other => (takes_bytes n).run hlength other, fun short hpre hne => ?_⟩
  have hlt : short.length < n := hlength ▸ length_lt_of_cut hpre hne
  exact if_neg (Nat.not_le.mpr hlt)

/-- A word is a run of four bytes. -/
theorem word_eq_bytes : word = Reader.bytes 4 >>= fun
    | [a, b, c, d] => pure (ofBytes a b c d)
    | _ => throw .endOfInput := by
  funext bs
  match bs with
  | [] | [_] | [_, _] | [_, _, _] | _ :: _ :: _ :: _ :: _ => rfl

theorem exact_word : word.Exact := by
  rw [word_eq_bytes]
  refine (exact_bytes 4).bind fun bs => ?_
  split
  · exact exact_pure _
  · exact exact_throw _

theorem exact_double : double.Exact :=
  .bind exact_word fun _ => .bind exact_word fun _ => exact_pure _

/-- The pools are read exactly. -/
theorem exact_pools : pools.Exact := by
  refine Exact.bind ?_ fun strings => Exact.bind ?_ fun floats => exact_pure _
  · exact .bind exact_word fun size => (exact_bytes _).bind fun _ => exact_pure _
  · exact .bind exact_word fun count => .times exact_double _

/-- The first byte of a code word says whether four more belong to it. -/
theorem exact_codeWord : codeWord.Exact := by
  refine .bind exact_byte fun b => ?_
  split
  · exact exact_word
  · exact exact_pure _

theorem exact_lineBreak : lineBreak.Exact :=
  .bind exact_word fun _ => .bind exact_word fun _ => exact_pure _

theorem exact_patch (name : String) (codeLength : Nat) : (patch name codeLength).Exact := by
  refine .bind exact_word fun ip => ?_
  split
  · exact exact_pure _
  · exact exact_throw _

/-- So are the identifiers. -/
theorem exact_identifiers (strings : StringPool) (codeLength : Nat) :
    (identifiers strings codeLength).Exact := by
  refine .bind exact_word fun count => Exact.bind (Exact.times ?_ _) fun _ => exact_pure _
  refine .bind exact_word fun offset => ?_
  split
  · exact exact_throw _
  · exact .bind exact_word fun count => (exact_patch _ _).times _

/-- **Sections** follow each other, and the earlier ones tell how long the later ones are. -/
theorem exact_image : image.Exact :=
  .bind exact_word fun _ => .bind exact_pools fun _ => .bind exact_pools fun _ => .bind exact_word fun _ =>
    .bind exact_word fun _ => .bind (.times exact_codeWord _) fun _ => .bind (.times exact_lineBreak _) fun _ =>
      (exact_identifiers _ _).bind fun _ => exact_pure _

end Reader

namespace Image

/-- A file that loads has been read, up to some rest. -/
theorem exists_read_of_load {bytes : List UInt8} {image : Image} (h : (load bytes).outcome.1 = .ok image) :
    ∃ rest, read bytes = .ok (image, rest) := by
  rw [load_outcome] at h
  cases hread : read bytes with
  | error e => rw [hread] at h; cases h
  | ok p =>
      rw [hread] at h
      cases h
      exact ⟨p.2, rfl⟩

/-- **Truncation.**  Of a file that is read as an image, some first bytes are taken.  Every file that begins
with them is read as this image, and every file that is a shorter part of them ends too early. -/
theorem load_of_cut {bytes : List UInt8} {image : Image} (h : (load bytes).outcome.1 = .ok image) :
    ∃ n ≤ bytes.length, read bytes = .ok (image, bytes.drop n) ∧
      (∀ other, bytes.take n <+: other → (load other).outcome.1 = .ok image) ∧
      ∀ k < n, (load (bytes.take k)).outcome.1 = .error .endOfInput := by
  obtain ⟨rest, hread⟩ := exists_read_of_load h
  obtain ⟨taken, rfl, hwhole, hshort⟩ := Reader.exact_image _ _ _ hread
  refine ⟨taken.length, by simp, by simpa using hread, fun other hother => ?_, fun k hk => ?_⟩
  · rw [List.take_left] at hother
    obtain ⟨more, rfl⟩ := hother
    have hread : read (taken ++ more) = .ok (image, more) := hwhole more
    rw [load_outcome, hread]
  · rw [List.take_append_of_le_length hk.le]
    have hne : taken.take k ≠ taken := fun heq => absurd (congrArg List.length heq) (by simp; omega)
    have hread : read (taken.take k) = .error .endOfInput := hshort _ (List.take_prefix k taken) hne
    rw [load_outcome, hread]

/-- A file with an identifier, a code word in its long form, and a byte behind the last section. -/
def wideWordFile : List UInt8 :=
  [0x21, 0, 0, 0, 3, 0, 0, 0, 0x25, 0x61, 0, 0, 0, 0, 0, 0, 0, 0, 0, 0, 0, 0, 0, 2, 0, 0, 0, 0, 0, 0, 0,
    0x2c, 0xff, 0, 0, 0, 0, 1, 0, 0, 0, 0, 0, 0, 0, 1, 0, 0, 0, 1, 0, 0, 0, 7]

/-- The image of `wideWordFile`. -/
def wideWordImage : Image where
  version := 33
  outer := ⟨⟨[0x25, 0x61, 0]⟩, []⟩
  inner := ⟨⟨[]⟩, []⟩
  code := [0x2c, 0]
  lineBreaks := []
  patches := [(1, "%a")]

/-- A file with a wide word loads from its own bytes only. -/
theorem load_of_cut_wideWord : (load wideWordFile).outcome.1 = .ok wideWordImage ∧
    ∃ n ≤ wideWordFile.length, read wideWordFile = .ok (wideWordImage, wideWordFile.drop n) ∧
      (∀ other, wideWordFile.take n <+: other → (load other).outcome.1 = .ok wideWordImage) ∧
      ∀ k < n, (load (wideWordFile.take k)).outcome.1 = .error .endOfInput := by
  have hload : (load wideWordFile).outcome.1 = .ok wideWordImage := by cbv
  exact ⟨hload, load_of_cut hload⟩

end Image

end TorqueScript
