import TorqueScript.Proofs.LineDecoding

/-!
# Assembling

`Image.assemble` lays out the lines of some code: names are patched into their words, and what a line says of
strings and numbers goes to the end of its pools.  Pools only grow (`Image.Grows`), so what a line finds there
stays.

**Assembly** (`Image.decode_assembly`).  Decoding an image that holds some lines returns them, each at the
index of its first word and with as many words as it takes.  A return has a value if and only if the line
before it leaves a string, and a tagged string has lost its marker.  An image that is assembled holds its
lines.
-/

namespace TorqueScript

/-! ### Laying out lines -/

/-- The bytes of a string, one for each character. -/
def StringPool.encode (s : String) : List UInt8 :=
  s.toList.map fun c => UInt8.ofNat c.toNat

/-- A string of characters that fit into a byte and are not the one that ends a string. -/
def StringPool.Encodable (s : String) : Prop :=
  ∀ c ∈ s.toList, 0 < c.toNat ∧ c.toNat < 256

/-- A character below 256 is kept by its byte. -/
theorem StringPool.toNat_encode {c : Char} (h : c.toNat < 256) : (UInt8.ofNat c.toNat).toNat = c.toNat := by
  rw [UInt8.toNat_ofNat', Nat.mod_eq_of_lt h]

/-- An encodable string is decoded from its bytes. -/
theorem StringPool.decode_encode {s : String} (h : Encodable s) : decode (encode s) = s := by
  have hchars : (encode s).map (fun b => Char.ofNat b.toNat) = s.toList := by
    rw [encode, List.map_map]
    refine (List.map_congr_left fun c hc => ?_).trans s.toList.map_id
    rw [Function.comp_apply, toNat_encode (h c hc).2, Char.ofNat_toNat]
    rfl
  rw [decode, hchars, String.ofList_toList]

/-- No byte of an encodable string ends it. -/
theorem StringPool.zero_not_mem_encode {s : String} (h : Encodable s) : 0 ∉ encode s := by
  intro hmem
  obtain ⟨c, hc, hzero⟩ := List.mem_map.mp hmem
  have hnat := congrArg UInt8.toNat hzero
  rw [toNat_encode (h c hc).2] at hnat
  exact (h c hc).1.ne' hnat

/-- A string that lies in a pool with its end is found there however the pool grows. -/
theorem StringPool.spells_append {s : String} (h : Encodable s) (front rest : List UInt8) :
    Spells ⟨front ++ encode s ++ [0] ++ rest⟩ front.length s := by
  refine ⟨encode s, 0 :: rest, ?_, zero_not_mem_encode h, ?_, (decode_encode h).symm⟩
  · simp
  · simp

namespace Cell

/-- The word that is laid out for a cell. -/
def word (pools : Pools) : Cell → UInt32
  | number n => UInt32.ofNat n
  | flag b => if b then 1 else 0
  | name _ => 0
  | text _ => UInt32.ofNat pools.strings.bytes.length
  | float _ => UInt32.ofNat pools.floats.length

/-- The pools with what the cell refers to. -/
def extend (pools : Pools) : Cell → Pools
  | text s => { pools with strings := ⟨pools.strings.bytes ++ StringPool.encode s ++ [0]⟩ }
  | float x => { pools with floats := pools.floats ++ [x] }
  | _ => pools

/-- What is patched into the word of a cell. -/
def patches (ip : Addr) : Cell → List (Addr × String)
  | name (some s) => [(ip, s)]
  | _ => []

/-- A cell patches its own word only. -/
theorem lookup_patches {ip ip' : Addr} {c : Cell} (h : ip' ≠ ip) : (c.patches ip).lookup ip' = none := by
  rw [List.lookup_eq_none_iff]
  intro p hp
  cases c with
  | name s? =>
      cases s? with
      | none => nomatch hp
      | some s =>
          obtain rfl := List.mem_singleton.mp hp
          exact bne_iff_ne.mpr h
  | _ => nomatch hp

/-- A number fits into a word, and the characters of a string into bytes. -/
def Fits : Cell → Prop
  | number n => n < 4294967296
  | text s => StringPool.Encodable s
  | _ => True

end Cell

namespace Image

/-- An image without code. -/
def empty : Image where
  version := UInt32.ofNat supportedVersion
  outer := ⟨⟨[]⟩, []⟩
  inner := ⟨⟨[]⟩, []⟩
  code := []
  lineBreaks := []
  patches := []

/-- The image with one more word, for a cell of code in a body or outside. -/
def put (inBody : Bool) (image : Image) (c : Cell) : Image where
  version := image.version
  outer := if inBody then image.outer else c.extend image.outer
  inner := if inBody then c.extend image.inner else image.inner
  code := image.code ++ [c.word (image.pools inBody)]
  lineBreaks := image.lineBreaks
  patches := c.patches image.code.length ++ image.patches

/-- The image with one more line. -/
def putLine (number : Opcode → UInt32) (inBody : Bool) (image : Image) (l : Line) : Image :=
  l.operation.cells.foldl (put inBody) { image with code := image.code ++ [number l.opcode] }

/-- The image with more lines behind the operations `before`. -/
def putLines (number : Opcode → UInt32) : List Operation → Image → List Line → Image
  | _, image, [] => image
  | before, image, l :: ls =>
    putLines number (before ++ [l.operation])
      (image.putLine number (Operation.inBody before image.code.length) l) ls

/-- The image of some lines, with opcodes numbered in a given way. -/
def assemble (number : Opcode → UInt32) (lines : List Line) : Image :=
  empty.putLines number [] lines

/-- What one image holds is not changed in the other. -/
structure Grows (image image' : Image) : Prop where
  code : image.code <+: image'.code
  identifier?_eq : ∀ ip < image.code.length, image'.identifier? ip = image.identifier? ip
  strings : ∀ b, (image.pools b).strings.bytes <+: (image'.pools b).strings.bytes
  floats : ∀ b, (image.pools b).floats <+: (image'.pools b).floats

namespace Grows

variable {image image' image'' : Image}

theorem refl (image : Image) : Grows image image where
  code := List.prefix_rfl
  identifier?_eq _ _ := rfl
  strings _ := List.prefix_rfl
  floats _ := List.prefix_rfl

theorem trans (h : Grows image image') (h' : Grows image' image'') : Grows image image'' where
  code := h.code.trans h'.code
  identifier?_eq ip hip :=
    (h'.identifier?_eq ip (hip.trans_le h.code.length_le)).trans (h.identifier?_eq ip hip)
  strings b := (h.strings b).trans (h'.strings b)
  floats b := (h.floats b).trans (h'.floats b)

end Grows

/-- A cell extends the pools of its side alone. -/
theorem pools_put (inBody b : Bool) (image : Image) (c : Cell) :
    (image.put inBody c).pools b = if b = inBody then c.extend (image.pools b) else image.pools b := by
  cases inBody <;> cases b <;> rfl

/-- **What an image holds stays when a cell is put behind it.** -/
theorem grows_put (inBody : Bool) (image : Image) (c : Cell) : Grows image (image.put inBody c) where
  code := List.prefix_append _ _
  identifier?_eq ip hip := by
    have hpatches : (c.patches image.code.length).lookup ip = none := Cell.lookup_patches hip.ne
    show (c.patches image.code.length ++ image.patches).lookup ip = _
    rw [List.lookup_append, hpatches]
    rfl
  strings b := by
    rw [pools_put]
    split
    · cases c with
      | text s => simp [Cell.extend, List.append_assoc]
      | _ => exact List.prefix_rfl
    · exact List.prefix_rfl
  floats b := by
    rw [pools_put]
    split
    · cases c with
      | float x => exact List.prefix_append _ _
      | _ => exact List.prefix_rfl
    · exact List.prefix_rfl

/-- So it does for several cells. -/
theorem grows_putCells (inBody : Bool) (image : Image) (cs : List Cell) :
    Grows image (cs.foldl (put inBody) image) := by
  induction cs generalizing image with
  | nil => exact .refl image
  | cons c cs ih => exact (grows_put inBody image c).trans (ih _)

theorem grows_opcode (image : Image) (w : UInt32) : Grows image { image with code := image.code ++ [w] } where
  code := List.prefix_append _ _
  identifier?_eq _ _ := rfl
  strings _ := List.prefix_rfl
  floats _ := List.prefix_rfl

/-- And for a whole line. -/
theorem grows_putLine (number : Opcode → UInt32) (inBody : Bool) (image : Image) (l : Line) :
    Grows image (image.putLine number inBody l) :=
  (grows_opcode image _).trans (grows_putCells inBody _ _)

/-- And for all lines that follow. -/
theorem grows_putLines (number : Opcode → UInt32) (before : List Operation) (image : Image) (ls : List Line) :
    Grows image (image.putLines number before ls) := by
  induction ls generalizing before image with
  | nil => exact .refl image
  | cons l ls ih => exact (grows_putLine number _ image l).trans (ih _ _)

/-- The patches lie in the code, and there is a word of code for each number. -/
structure Tight (image : Image) : Prop where
  identifier?_eq : ∀ ip, image.code.length ≤ ip → image.identifier? ip = none
  floats_le : ∀ b, (image.pools b).floats.length ≤ image.code.length

namespace Tight

variable {image : Image}

theorem empty : Tight Image.empty where
  identifier?_eq _ _ := rfl
  floats_le b := by cases b <;> rfl

theorem opcode (h : Tight image) (w : UInt32) : Tight { image with code := image.code ++ [w] } where
  identifier?_eq ip hip := h.identifier?_eq ip ((List.length_append ▸ Nat.le_add_right _ _).trans hip)
  floats_le b := (h.floats_le b).trans (List.length_append ▸ Nat.le_add_right _ _)

/-- A cell leaves no word of the code unaccounted for. -/
theorem put (h : Tight image) (inBody : Bool) (c : Cell) : Tight (image.put inBody c) where
  identifier?_eq ip hip := by
    have hlt : image.code.length < ip := by simpa [Image.put, Nat.succ_le_iff] using hip
    have hpatches : (c.patches image.code.length).lookup ip = none := Cell.lookup_patches hlt.ne'
    show (c.patches image.code.length ++ image.patches).lookup ip = none
    rw [List.lookup_append, hpatches]
    exact h.identifier?_eq ip hlt.le
  floats_le b := by
    have hle := h.floats_le b
    have hlength : (image.put inBody c).code.length = image.code.length + 1 := by simp [Image.put]
    rw [hlength, pools_put]
    split
    · cases c <;> simp only [Cell.extend, List.length_append, List.length_singleton] <;> omega
    · omega

theorem putCells (h : Tight image) (inBody : Bool) (cs : List Cell) :
    Tight (cs.foldl (Image.put inBody) image) := by
  induction cs generalizing image with
  | nil => exact h
  | cons c cs ih => exact ih (h.put inBody c)

/-- Neither do lines. -/
theorem putLines (h : Tight image) (number : Opcode → UInt32) (before : List Operation) (ls : List Line) :
    Tight (image.putLines number before ls) := by
  induction ls generalizing before image with
  | nil => exact h
  | cons l ls ih => exact ih ((h.opcode _).putCells _ _) _

end Tight

/-- Code and strings of the image can be counted in a word. -/
structure Countable (image : Image) : Prop where
  code : CountFits image.code
  strings : ∀ b, CountFits (image.pools b).strings.bytes

/-- A word that has been put for a cell stands for it, however the image grows. -/
theorem written_put {inBody : Bool} {image final : Image} {c : Cell} (hc : c.Fits) (himage : Tight image)
    (hfinal : final.Countable) (h : Grows (image.put inBody c) final) :
    c.Written final (final.pools inBody) image.code.length (c.word (image.pools inBody)) := by
  have hpools : (image.put inBody c).pools inBody = c.extend (image.pools inBody) := by
    rw [pools_put, if_pos rfl]
  have hname : final.identifier? image.code.length =
      (c.patches image.code.length ++ image.patches).lookup image.code.length :=
    h.identifier?_eq _ (by simp [put])
  cases c with
  | number n =>
      show (UInt32.ofNat n).toNat = n
      rw [UInt32.toNat_ofNat', Nat.mod_eq_of_lt hc]
  | flag b => cases b <;> simp [Cell.Written, Cell.word]
  | name s? =>
      cases s? with
      | some s =>
          show final.identifier? _ = some s
          rw [hname]
          simp [Cell.patches]
      | none => exact ⟨hname.trans (himage.identifier?_eq _ le_rfl), rfl⟩
  | text s =>
      obtain ⟨rest, hrest⟩ := h.strings inBody
      rw [hpools] at hrest
      -- the zero byte behind the string keeps its offset inside the pool
      have hlt : (image.pools inBody).strings.bytes.length < (final.pools inBody).strings.bytes.length := by
        simp only [← hrest, Cell.extend, List.length_append, List.length_singleton]
        omega
      have hoffset : (Cell.word (image.pools inBody) (.text s)).toNat =
          (image.pools inBody).strings.bytes.length := by
        rw [Cell.word, UInt32.toNat_ofNat', Nat.mod_eq_of_lt (hlt.trans (hfinal.strings inBody))]
      have hstrings : (final.pools inBody).strings =
          ⟨(image.pools inBody).strings.bytes ++ StringPool.encode s ++ [0] ++ rest⟩ :=
        congrArg StringPool.mk hrest.symm
      refine ⟨hoffset ▸ hlt, ?_⟩
      rw [hoffset, hstrings]
      exact StringPool.spells_append hc _ rest
  | float x =>
      obtain ⟨rest, hrest⟩ := h.floats inBody
      rw [hpools] at hrest
      have hlt : (image.pools inBody).floats.length < 4294967296 :=
        (himage.floats_le inBody).trans_lt (h.code.length_le.trans_lt' (by simp [put]) |>.trans hfinal.code)
      have hindex : (Cell.word (image.pools inBody) (.float x)).toNat = (image.pools inBody).floats.length := by
        rw [Cell.word, UInt32.toNat_ofNat', Nat.mod_eq_of_lt hlt]
      show (final.pools inBody).floats[_]? = some x
      rw [hindex, ← hrest]
      simp [Cell.extend]

/-- The cells of a line are laid where they have been put. -/
theorem laid_putCells {inBody : Bool} {image final : Image} {cs : List Cell} (hcs : ∀ c ∈ cs, c.Fits)
    (himage : Tight image) (hfinal : final.Countable) (h : Grows (cs.foldl (put inBody) image) final) :
    Cell.Laid final (final.pools inBody) image.code.length (final.code.drop image.code.length) cs := by
  induction cs generalizing image with
  | nil => simp [Cell.Laid]
  | cons c cs ih =>
      have hgrows : Grows (image.put inBody c) final := (grows_putCells inBody _ cs).trans h
      obtain ⟨rest, hrest⟩ := hgrows.code
      have hlength : (image.put inBody c).code.length = image.code.length + 1 := by simp [put]
      have hrestLaid := ih (fun c hc => hcs c (List.mem_cons_of_mem _ hc)) (himage.put inBody c) h
      have hdrop : final.code.drop image.code.length =
          c.word (image.pools inBody) :: final.code.drop (image.code.length + 1) := by
        rw [← hrest, ← hlength, List.drop_left]
        simp [put]
      rw [hlength] at hrestLaid
      rw [hdrop]
      exact ⟨written_put (hcs c List.mem_cons_self) himage hfinal hgrows, hrestLaid⟩

/-- Cells take one word each. -/
theorem length_putCells (inBody : Bool) (image : Image) (cs : List Cell) :
    (cs.foldl (put inBody) image).code.length = image.code.length + cs.length := by
  induction cs generalizing image with
  | nil => rfl
  | cons c cs ih => rw [List.foldl_cons, ih, List.length_cons]; simp [put]; omega

/-- Lines that have been put one after the other are held. -/
theorem lays_putLines {number : Opcode → UInt32} {table : Opcode.Table} {before : List Operation}
    {image final : Image} {ls : List Line}
    (hnumber : ∀ l ∈ ls, table.lookup (number l.opcode).toNat = some l.opcode)
    (hls : ∀ l ∈ ls, ∀ c ∈ l.operation.cells, c.Fits) (himage : Tight image) (hfinal : final.Countable)
    (h : image.putLines number before ls = final) :
    final.Lays table before image.code.length (final.code.drop image.code.length) ls := by
  induction ls generalizing before image with
  | nil =>
      obtain rfl : image = final := h
      rw [List.drop_length]
      exact .nil
  | cons l ls ih =>
      let opened : Image := { image with code := image.code ++ [number l.opcode] }
      have hopened : opened.code.length = image.code.length + 1 := by simp [opened]
      have hgrows : Grows (image.putLine number (Operation.inBody before image.code.length) l) final :=
        h ▸ grows_putLines number _ _ ls
      have hlength : (image.putLine number (Operation.inBody before image.code.length) l).code.length =
          image.code.length + l.size := by
        rw [putLine, length_putCells, hopened, Line.size, Nat.add_assoc, Nat.add_comm 1]
      have hcells := laid_putCells (hls l List.mem_cons_self) (himage.opcode (number l.opcode)) hfinal hgrows
      have hwords := ih (fun l hl => hnumber l (List.mem_cons_of_mem _ hl))
        (fun l hl => hls l (List.mem_cons_of_mem _ hl)) ((himage.opcode _).putCells _ _) h
      have hdrop : final.code.drop image.code.length =
          number l.opcode :: final.code.drop (image.code.length + 1) := by
        obtain ⟨rest, hrest⟩ := (grows_putCells _ opened l.operation.cells).trans hgrows |>.code
        rw [← hrest, ← hopened, List.drop_left]
        simp [opened]
      rw [hdrop]
      refine .cons (hnumber l List.mem_cons_self) (hopened ▸ hcells) ?_
      rw [List.drop_drop, Nat.add_assoc, Nat.add_comm 1, ← Line.size, ← hlength]
      exact hwords

/-- An image that is assembled holds its lines. -/
theorem holds_assemble {number : Opcode → UInt32} {table : Opcode.Table} {lines : List Line}
    (hnumber : ∀ l ∈ lines, table.lookup (number l.opcode).toNat = some l.opcode)
    (hlines : ∀ l ∈ lines, ∀ c ∈ l.operation.cells, c.Fits) (hcount : (assemble number lines).Countable) :
    (assemble number lines).Holds table lines :=
  lays_putLines hnumber hlines .empty hcount rfl

/-- **Assembly.**  Decoding an image that holds some lines returns these lines, and so does decoding the
image that is assembled from them, if everything in it fits into words and bytes. -/
theorem decode_assembly (table : Opcode.Table) (lines : List Line) :
    (∀ image : Image, image.Holds table lines → (image.decode table).outcome =
        (.ok (Line.instructions false 0 lines), [.decoded lines.length image.code.length])) ∧
      ∀ number : Opcode → UInt32, (∀ l ∈ lines, table.lookup (number l.opcode).toNat = some l.opcode) →
        (∀ l ∈ lines, ∀ c ∈ l.operation.cells, c.Fits) → (assemble number lines).Countable →
        ((assemble number lines).decode table).outcome =
          (.ok (Line.instructions false 0 lines),
            [.decoded lines.length (assemble number lines).code.length]) := by
  have hdecode : ∀ image : Image, image.Holds table lines → (image.decode table).outcome =
      (.ok (Line.instructions false 0 lines), [.decoded lines.length image.code.length]) := by
    intro image h
    have hinstructions : image.instructions table = .ok (Line.instructions false 0 lines) :=
      Lays.instructions_eq h (.nil 0)
    rw [decode, hinstructions, ← Line.length_instructions false 0 lines]
    rfl
  exact ⟨hdecode, fun number hnumber hlines hcount => hdecode _ (holds_assemble hnumber hlines hcount)⟩

/-- A function that returns a tagged string, followed by a return without a value.  The string of the
function and the one behind it lie in different pools, and the body ends between two lines. -/
def taggedReturn : List Line :=
  [⟨.funcDecl, .declareFunction ⟨"greet", none, some "Chat", ["%who"]⟩ true 11, by decide⟩,
    ⟨.tagToStr, .immediateTag "\x01hello", by decide⟩,
    ⟨.ret, .ret false, by decide⟩,
    ⟨.loadImmedStr, .immediateStr "bye", by decide⟩,
    ⟨.strToNone, .convert .str none, by decide⟩,
    ⟨.ret, .ret true, by decide⟩]

/-- A numbering of the opcodes of `taggedReturn`. -/
def taggedReturnTable : Opcode.Table :=
  ⟨[.ret, .invalid, .funcDecl, .tagToStr, .loadImmedStr, .strToNone]⟩

/-- A function that returns a tagged text is decoded as it was assembled. -/
theorem decode_assembly_taggedReturn :
    ((assemble (fun op => UInt32.ofNat (taggedReturnTable.opcodes.idxOf op)) taggedReturn).decode
        taggedReturnTable).outcome =
      (.ok
        [⟨0, 8, .funcDecl, .declareFunction ⟨"greet", none, some "Chat", ["%who"]⟩ true 11⟩,
          ⟨8, 2, .tagToStr, .immediateTag "hello"⟩,
          ⟨10, 1, .ret, .ret true⟩,
          ⟨11, 2, .loadImmedStr, .immediateStr "bye"⟩,
          ⟨13, 1, .strToNone, .convert .str none⟩,
          ⟨14, 1, .ret, .ret false⟩],
        [.decoded 6 15]) := by
  have hcount : (assemble (fun op => UInt32.ofNat (taggedReturnTable.opcodes.idxOf op)) taggedReturn).Countable :=
    ⟨show _ < _ by decide +kernel, fun b => by cases b <;> (show _ < _; decide +kernel)⟩
  have hfits : ∀ l ∈ taggedReturn, ∀ c ∈ l.operation.cells, c.Fits := by
    simp [taggedReturn, Operation.cells, Cell.Fits, StringPool.Encodable]
  exact (decode_assembly taggedReturnTable taggedReturn).2 _ (by decide +kernel) hfits hcount

end Image

end TorqueScript
