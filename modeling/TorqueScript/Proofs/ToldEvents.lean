import TorqueScript.Proofs.BlockTree
import TorqueScript.Proofs.Scopes

/-!
# What events tell of

The events of a stream follow the order of its addresses.  An instruction is entered, and then come the events of
the block that its jump makes, all of them inside parts that are opened and closed there (`Event.Sealed`).  The
first instruction of a block is entered in front of these parts, and the rest of its instructions in them, except
for those that only hold parts together and are not entered at all (`Block.Skips`).  `Region.Encloses` says all
this about one block.

* `Region.Told`: events tell of the instructions at some positions, in their order, and of the blocks that
  jumps among these instructions make.  This goes from parts of the events to the whole (`Region.Told.append`).
* `Region.Walks.upto`: a walk through a block stays in it.
-/

namespace TorqueScript

namespace Event

/-- The address of an event. -/
def addr? : Event → Option Addr
  | enter addr | declare addr _ | stray addr => some addr
  | opens | closes => none

/-- The events are in the order of their addresses.  Nothing else at its address follows a declaration. -/
def Precedes (e f : Event) : Prop :=
  ∀ a ∈ e.addr?, ∀ b ∈ f.addr?, a ≤ b ∧ ∀ stop, e = .declare a stop → a < b

/-- An event whose addresses all come first precedes the other. -/
theorem Precedes.of_lt {e f : Event} (h : ∀ a ∈ e.addr?, ∀ b ∈ f.addr?, a < b) : e.Precedes f :=
  fun a ha b hb => ⟨(h a ha b hb).le, fun _ _ => h a ha b hb⟩

/-- Events that lie inside parts opened and closed among them. -/
structure Sealed (es : List Event) : Prop where
  level_eq : level es = 0
  covered : ∀ p e q, p ++ e :: q = es → 0 ≤ level p ∧ (level p = 0 → e = .opens)

namespace Sealed

variable {es es' : List Event}

theorem nil : Sealed [] where
  level_eq := rfl
  covered p e q h := by simp at h

/-- Sealed events may follow one another. -/
theorem append (h : Sealed es) (h' : Sealed es') : Sealed (es ++ es') where
  level_eq := by rw [level_append, h.level_eq, h'.level_eq]; rfl
  covered p e q hpq := by
    rcases List.append_eq_append_iff.mp hpq with ⟨r, hr, hq⟩ | ⟨r, rfl, hr⟩
    · cases r with
      | nil =>
          rw [List.append_nil] at hr
          rw [← hr, h.level_eq]
          exact ⟨le_rfl, fun _ => (h'.covered [] e q hq).2 rfl⟩
      | cons f r =>
          obtain ⟨rfl, -⟩ := List.cons.inj hq
          exact h.covered p e r hr.symm
    · rw [level_append, h.level_eq, Int.zero_add]
      exact h'.covered r e q hr.symm

/-- Balanced events are sealed in a part. -/
theorem part {inside : List Event} (h : Balanced inside) : Sealed (Region.partEvents inside) where
  level_eq := by rw [Region.level_partEvents, h.level_eq]
  covered p e q hpq := by
    cases p with
    | nil => exact ⟨le_rfl, fun _ => (List.cons.inj hpq).1⟩
    | cons f p =>
        have hinside : p ++ e :: q = inside ++ [.closes] := (List.cons.inj hpq).2
        obtain rfl : f = .opens := (List.cons.inj hpq).1
        -- behind the opening no prefix but the whole part gets back to the level around it
        have hp : 0 ≤ level p := by
          rcases List.append_eq_append_iff.mp hinside with ⟨r, hr, -⟩ | ⟨r, rfl, hr⟩
          · exact h.nonneg p r hr.symm
          · obtain rfl : r = [] := by
              have hlength := congrArg List.length hr
              simp only [List.length_append, List.length_cons, List.length_nil] at hlength
              exact List.length_eq_zero_iff.mp (by omega)
            rw [List.append_nil, h.level_eq]
        rw [level_cons, delta]
        exact ⟨by omega, fun hzero => absurd hzero (by omega)⟩

/-- In front of an event that opens no part, some part is open. -/
theorem pos {p q : List Event} {e : Event} (h : Sealed (p ++ e :: q)) (he : e ≠ .opens) : 0 < level p := by
  obtain ⟨hnonneg, hopens⟩ := h.covered p e q rfl
  exact lt_of_le_of_ne hnonneg fun hzero => he (hopens hzero.symm)

end Sealed

end Event

/-- The instruction at the address is not entered: it is the jump back of a loop or the jump over an
alternative. -/
def Block.Skips (tree : Block) (addr : Addr) : Prop :=
  ∃ b ∈ tree.preorder, b.stop = addr ∧ (b.kind = .loop ∨ b.kind = .conditional ∧ b.alternative?.isSome)

instance (tree : Block) (addr : Addr) : Decidable (tree.Skips addr) :=
  inferInstanceAs (Decidable (∃ b ∈ tree.preorder, _))

/-- The instruction declares a function whose body ends at `stop`. -/
def Instruction.Declares (ins : Instruction) (stop : Addr) : Prop :=
  ∃ signature, ins.operation = .declareFunction signature true stop

/-- A declaration is no jump. -/
theorem Instruction.Declares.jump?_eq {ins : Instruction} {stop : Addr} (h : ins.Declares stop) :
    ins.jump? = none := by
  obtain ⟨signature, h⟩ := h
  rw [Instruction.jump?, h]

namespace Stream

variable {instrs : List Instruction}

/-- In an increasing stream positions and addresses are in one order. -/
theorem Increasing.addr_lt (h : Increasing instrs) {i j : Nat} {x y : Instruction} (hi : instrs[i]? = some x)
    (hj : instrs[j]? = some y) (hij : i < j) : x.addr < y.addr := by
  obtain ⟨hilt, rfl⟩ := List.getElem?_eq_some_iff.mp hi
  obtain ⟨hjlt, rfl⟩ := List.getElem?_eq_some_iff.mp hj
  exact List.pairwise_iff_getElem.mp h i j hilt hjlt hij

theorem Increasing.addr_le (h : Increasing instrs) {i j : Nat} {x y : Instruction} (hi : instrs[i]? = some x)
    (hj : instrs[j]? = some y) (hij : i ≤ j) : x.addr ≤ y.addr := by
  rcases Nat.lt_or_eq_of_le hij with hlt | rfl
  · exact (h.addr_lt hi hj hlt).le
  · rw [Option.some.inj (hi.symm.trans hj)]

theorem Increasing.lt_of_addr_lt (h : Increasing instrs) {i j : Nat} {x y : Instruction}
    (hi : instrs[i]? = some x) (hj : instrs[j]? = some y) (hxy : x.addr < y.addr) : i < j :=
  Nat.lt_of_not_le fun hji => Nat.not_le.mpr hxy (h.addr_le hj hi hji)

/-- An address is that of one instruction only. -/
theorem Increasing.eq_of_addr_eq (h : Increasing instrs) {x y : Instruction} (hx : x ∈ instrs) (hy : y ∈ instrs)
    (hxy : x.addr = y.addr) : x = y := by
  obtain ⟨i, hi⟩ := List.mem_iff_getElem?.mp hx
  obtain ⟨j, hj⟩ := List.mem_iff_getElem?.mp hy
  obtain rfl := h.index_unique hi hj hxy
  exact Option.some.inj (hi.symm.trans hj)

/-- Of two neighbours the second comes later. -/
theorem Increasing.lt_of_neighbours (h : Increasing instrs) {a b : Addr} (hab : Neighbours instrs a b) : a < b := by
  obtain ⟨front, x, y, back, rfl, rfl, rfl⟩ := hab
  exact (List.pairwise_cons.mp (List.pairwise_append.mp h).2.1).1 y List.mem_cons_self

end Stream

namespace Region

open Event

/-! ### Blocks among events -/

section Told

variable (instrs : List Instruction) (tree : Block)

/-- The events show an instruction: it is entered, unless it only holds parts together, and a function that
it declares is declared. -/
structure Shows (es : List Event) (ins : Instruction) : Prop where
  entered : .enter ins.addr ∈ es ∨ tree.Skips ins.addr
  declared : ∀ stop, ins.Declares stop → .declare ins.addr stop ∈ es

/-- The events `inside` are those of a block, behind the entering of the instruction at `start`.  This is
the first instruction of the block or the head of a choice right in front of it. -/
structure Encloses (start : Addr) (inside : List Event) (b : Block) : Prop where
  isSealed : Sealed inside
  start_le : start ≤ b.start
  undeclared : ∀ ins ∈ instrs, start ≤ ins.addr → ins.addr < b.start → ∀ stop, ¬ ins.Declares stop
  le_stop : ∀ e ∈ inside, ∀ a ∈ e.addr?, a ≤ b.stop
  shows : ∀ ins ∈ instrs, start < ins.addr → ins.addr ≤ b.stop → Shows tree inside ins

/-- The block is found among the events. -/
def Framed (es : List Event) (b : Block) : Prop :=
  ∃ start before inside after, es = before ++ .enter start :: (inside ++ after) ∧
    Encloses instrs tree start inside b

/-- The events show an instruction, and the block that it makes is found among them. -/
structure Used (es : List Event) (ins : Instruction) : Prop extends Shows tree es ins where
  framed : ∀ kind target, ins.jump? = some (kind, target) → kind.makesBlock →
    .stray ins.addr ∈ es ∨
      ∃ b ∈ tree.preorder, b.kind ≠ .root ∧ b.jumpAddr = ins.addr ∧ Framed instrs tree es b

/-- The events tell of the instructions from position `i` up to position `j`. -/
structure Told (i j : Nat) (es : List Event) : Prop where
  within : ∀ e ∈ es, ∀ a ∈ e.addr?, ∃ n ins, i ≤ n ∧ n < j ∧ instrs[n]? = some ins ∧ ins.addr = a
  ordered : es.Pairwise Precedes
  used : ∀ n ins, i ≤ n → n < j → instrs[n]? = some ins → Used instrs tree es ins

end Told

variable {instrs : List Instruction} {tree : Block} {es es' : List Event} {ins : Instruction}

/-- What is shown among some events is shown among more. -/
theorem Shows.mono (h : Shows tree es ins) (hes : es ⊆ es') : Shows tree es' ins where
  entered := h.entered.imp_left fun hmem => hes hmem
  declared stop hdeclares := hes (h.declared stop hdeclares)

/-- A block that is framed by some events is framed among more. -/
theorem Framed.among {b : Block} (h : Framed instrs tree es b) (p q : List Event) :
    Framed instrs tree (p ++ es ++ q) b := by
  obtain ⟨start, before, inside, after, rfl, hencloses⟩ := h
  exact ⟨start, p ++ before, inside, after ++ q, by simp, hencloses⟩

/-- So is an instruction that is used. -/
theorem Used.among (h : Used instrs tree es ins) (p q : List Event) : Used instrs tree (p ++ es ++ q) ins where
  toShows := h.toShows.mono fun e he => List.mem_append_left q (List.mem_append_right p he)
  framed kind target hjump hkind := by
    rcases h.framed kind target hjump hkind with hstray | ⟨b, hb, hroot, haddr, hframed⟩
    · exact .inl (List.mem_append_left q (List.mem_append_right p hstray))
    · exact .inr ⟨b, hb, hroot, haddr, hframed.among p q⟩

/-- A jump declares no function. -/
theorem shows_of_jump {kind : JumpKind} {target : Addr} (hjump : ins.jump? = some (kind, target))
    (h : .enter ins.addr ∈ es ∨ tree.Skips ins.addr) : Shows tree es ins where
  entered := h
  declared stop hdeclares := by
    rw [hdeclares.jump?_eq] at hjump
    cases hjump

/-- An unconditional jump makes no block. -/
theorem used_of_always {target : Addr} (hjump : ins.jump? = some (.always, target))
    (h : .enter ins.addr ∈ es ∨ tree.Skips ins.addr) : Used instrs tree es ins where
  toShows := shows_of_jump hjump h
  framed kind target' hjump' hkind := by
    cases Option.some.inj (hjump.symm.trans hjump')
    cases hkind

/-- The jump that makes a block, beside the block. -/
theorem used_of_encloses {kind : JumpKind} {target start : Addr} {inside : List Event} {b : Block}
    (hjump : ins.jump? = some (kind, target)) (hb : b ∈ tree.preorder) (hroot : b.kind ≠ .root)
    (haddr : b.jumpAddr = ins.addr) (h : Encloses instrs tree start inside b) (after : List Event)
    (hentered : .enter ins.addr ∈ Event.enter start :: (inside ++ after) ∨ tree.Skips ins.addr) :
    Used instrs tree (.enter start :: (inside ++ after)) ins where
  toShows := shows_of_jump hjump hentered
  framed _ _ _ _ := .inr ⟨b, hb, hroot, haddr, start, [], inside, after, rfl, h⟩

namespace Told

variable {i j k : Nat}

theorem nil (i : Nat) : Told instrs tree i i [] where
  within _ he := by cases he
  ordered := .nil
  used n _ hi hj := absurd hi (Nat.not_le.mpr hj)

/-- **What two lists tell of follows one another**: each instruction is shown by its own events. -/
theorem append (hinstrs : Stream.Increasing instrs) (h : Told instrs tree i j es) (h' : Told instrs tree j k es')
    (hij : i ≤ j) (hjk : j ≤ k) : Told instrs tree i k (es ++ es') where
  within e he a ha := by
    rcases List.mem_append.mp he with he | he
    · obtain ⟨n, ins, hin, hnj, hn⟩ := h.within e he a ha
      exact ⟨n, ins, hin, hnj.trans_le hjk, hn⟩
    · obtain ⟨n, ins, hjn, hnk, hn⟩ := h'.within e he a ha
      exact ⟨n, ins, hij.trans hjn, hnk, hn⟩
  ordered := by
    refine List.pairwise_append.mpr ⟨h.ordered, h'.ordered, fun e he f hf => .of_lt fun a ha b hb => ?_⟩
    obtain ⟨n, x, -, hnj, hx, rfl⟩ := h.within e he a ha
    obtain ⟨m, y, hjm, -, hy, rfl⟩ := h'.within f hf b hb
    exact hinstrs.addr_lt hx hy (hnj.trans_le hjm)
  used n ins hin hnk hn := by
    rcases Nat.lt_or_ge n j with hnj | hjn
    · simpa using (h.used n ins hin hnj hn).among [] es'
    · simpa using (h'.used n ins hjn hnk hn).among es []

/-- A part tells what is in it. -/
theorem part (h : Told instrs tree i j es) : Told instrs tree i j (partEvents es) where
  within e he a ha := by
    rcases List.mem_cons.mp he with rfl | he
    · cases ha
    rcases List.mem_append.mp he with he | he
    · exact h.within e he a ha
    · cases List.mem_singleton.mp he
      cases ha
  ordered := by
    rw [partEvents, List.cons_append]
    refine List.pairwise_cons.mpr ⟨fun f _ a ha => ?_, ?_⟩
    · cases ha
    refine List.pairwise_append.mpr ⟨h.ordered, List.pairwise_singleton _ _, fun e _ f hf a _ b hb => ?_⟩
    cases List.mem_singleton.mp hf
    cases hb
  used n ins hin hnj hn := (h.used n ins hin hnj hn).among [.opens] [.closes]

/-- One more instruction, which is not entered. -/
theorem skip (h : Told instrs tree i j es) (hj : instrs[j]? = some ins) (hins : Used instrs tree es ins) :
    Told instrs tree i (j + 1) es where
  within e he a ha := by
    obtain ⟨n, x, hin, hnj, hn⟩ := h.within e he a ha
    exact ⟨n, x, hin, Nat.lt_succ_of_lt hnj, hn⟩
  ordered := h.ordered
  used n x hin hnj hn := by
    rcases Nat.lt_or_eq_of_le (Nat.le_of_lt_succ hnj) with hlt | rfl
    · exact h.used n x hin hlt hn
    · cases Option.some.inj (hj.symm.trans hn)
      exact hins

/-- An instruction is entered; what follows tells of others from it on. -/
theorem enter {i' j' : Nat} (hinstrs : Stream.Increasing instrs) (hi : instrs[i]? = some ins) (hij : i < j)
    (h : Told instrs tree i' j' es) (hi' : i ≤ i') (hj' : j' ≤ j)
    (hothers : ∀ n x, i ≤ n → n < j → n < i' ∨ j' ≤ n → instrs[n]? = some x →
      Used instrs tree (.enter ins.addr :: es) x) : Told instrs tree i j (.enter ins.addr :: es) where
  within e he a ha := by
    rcases List.mem_cons.mp he with rfl | he
    · exact ⟨i, ins, le_rfl, hij, hi, Option.some.inj ha⟩
    · obtain ⟨n, x, hin, hnj, hn⟩ := h.within e he a ha
      exact ⟨n, x, hi'.trans hin, hnj.trans_le hj', hn⟩
  ordered := by
    refine List.pairwise_cons.mpr ⟨fun f hf a ha b hb => ⟨?_, fun stop h => by cases h⟩, h.ordered⟩
    obtain ⟨n, x, hin, -, hn, rfl⟩ := h.within f hf b hb
    cases ha
    exact hinstrs.addr_le hi hn (hi'.trans hin)
  used n x hin hnj hn := by
    by_cases hmid : i' ≤ n ∧ n < j'
    · simpa using (h.used n x hmid.1 hmid.2 hn).among [.enter ins.addr] []
    · exact hothers n x hin hnj (by omega) hn

/-- What tells of the instructions of a block encloses it. -/
theorem encloses {i' : Nat} {b : Block} (hinstrs : Stream.Increasing instrs) (h : Told instrs tree i' j es)
    (hsealed : Sealed es) (hi : instrs[i]? = some ins) (hi' : i' ≤ i + 1) (hstart : ins.addr ≤ b.start)
    (hundeclared : ∀ x ∈ instrs, ins.addr ≤ x.addr → x.addr < b.start → ∀ stop, ¬ x.Declares stop)
    (hstop : ∀ n x, n < j → instrs[n]? = some x → x.addr ≤ b.stop)
    (hbehind : ∀ n x, j ≤ n → instrs[n]? = some x → x.addr ≤ b.stop → Shows tree es x) :
    Encloses instrs tree ins.addr es b where
  isSealed := hsealed
  start_le := hstart
  undeclared := hundeclared
  le_stop e he a ha := by
    obtain ⟨n, x, -, hnj, hn, rfl⟩ := h.within e he a ha
    exact hstop n x hnj hn
  shows x hx hlt hle := by
    obtain ⟨n, hn⟩ := List.mem_iff_getElem?.mp hx
    have hin := hinstrs.lt_of_addr_lt hi hn hlt
    rcases Nat.lt_or_ge n j with hnj | hjn
    · exact (h.used n x (by omega) hnj hn).toShows
    · exact hbehind n x hjn hn hle

end Told

/-! ### Walks tell of what they pass -/

/-- What is known of a stream and its block tree. -/
structure Fits (instrs : List Instruction) (tree : Block) : Prop where
  increasing : Stream.Increasing instrs
  tidy : tree.Tidy
  stop_lt : ∀ b ∈ tree.preorder, b.kind = .conditional → b.stop < Addr.last
  always : ∀ b ∈ tree.preorder, ∀ branch ∈ b.branches, ∀ ins ∈ instrs, ins.addr = branch.addr →
    ∃ target, ins.jump? = some (.always, target)

/-- The events of the parts of a loop. -/
def loopEvents (parts : LoopRegions) : List Event :=
  partEvents (listEvents parts.body) ++ if parts.split then partEvents (listEvents parts.step) else []

/-- The events of a loop are sealed. -/
theorem sealed_loopEvents (parts : LoopRegions) : Sealed (loopEvents parts) := by
  have hbody := Sealed.part (balanced_listEvents parts.body)
  rw [loopEvents]
  split
  · exact hbody.append (.part (balanced_listEvents parts.step))
  · exact hbody.append .nil

/-- A child that is found at an address is a block of the tree that starts there. -/
theorem mem_preorder_child {block child : Block} {addr : Addr} (hblock : block ∈ tree.preorder)
    (h : block.childAt? addr = some child) : child ∈ tree.preorder ∧ child.start = addr := by
  have hmem : child ∈ block.children := List.mem_of_find?_eq_some h
  exact ⟨Block.mem_preorder_trans hblock (Block.mem_preorder_of_mem_children hmem), by
    simpa using List.find?_some h⟩

/-- A branch that ends a block is found at its end. -/
theorem mem_of_alternative? {b : Block} {branch : Branch} (h : b.alternative? = some branch) :
    branch ∈ b.branches ∧ branch.addr = b.stop := by
  obtain ⟨h, -⟩ := Option.filter_eq_some_iff.mp h
  exact ⟨List.mem_of_find?_eq_some h, by simpa using List.find?_some h⟩

/-- A jump that is found at an address is one of the block, at that address. -/
theorem mem_of_branchAt? {b : Block} {branch : Branch} {addr : Addr} (h : b.branchAt? addr = some branch) :
    branch ∈ b.branches ∧ branch.addr = addr :=
  ⟨List.mem_of_find?_eq_some h, by simpa using List.find?_some h⟩

theorem guardedLoop?_eq_some {b inner : Block} {i : Nat} (h : b.guardedLoop? (instrs.drop i) = some inner) :
    ∃ x, instrs[i]? = some x ∧ inner ∈ b.children ∧ inner.kind = .loop ∧ inner.start = x.addr ∧
      inner.stop = b.stop := by
  cases hi : instrs[i]? with
  | none =>
      rw [List.drop_eq_nil_of_le (List.getElem?_eq_none_iff.mp hi)] at h
      cases h
  | some x =>
      rw [drop_eq_cons hi] at h
      obtain ⟨hmem, hinner⟩ := And.intro (List.mem_of_find?_eq_some h) (List.find?_some h)
      simp only [Bool.and_eq_true, beq_iff_eq] at hinner
      exact ⟨x, rfl, hmem, hinner.1.1, hinner.1.2, hinner.2⟩

/-- A walk ends at its stop. -/
theorem Walks.stop_le {block : Block} {stop : Addr} {i j : Nat} {regions : List Region} {used : List Nat}
    (h : Walks instrs block stop i regions used j) (hj : instrs[j]? = some ins) : stop ≤ ins.addr := by
  match h with
  | .nothing hi => rw [hi] at hj; cases hj
  | .halt hi hstop =>
      cases Option.some.inj (hi.symm.trans hj)
      exact hstop
  | .inner _ _ _ _ hrest | .jump _ _ _ _ hrest | .plain _ _ _ _ hrest => exact hrest.stop_le hj

/-- The positions in front of one have addresses up to `stop`. -/
def Upto (instrs : List Instruction) (stop : Addr) (j : Nat) : Prop :=
  ∀ n ins, n < j → instrs[n]? = some ins → ins.addr ≤ stop

/-- A walk that has used an instruction up to an address stays up to it. -/
theorem upto_succ (hinstrs : Stream.Increasing instrs) {stop : Addr} {i : Nat} (hi : instrs[i]? = some ins)
    (hle : ins.addr ≤ stop) : Upto instrs stop (i + 1) :=
  fun _ _ hn hget => (hinstrs.addr_le hget hi (Nat.le_of_lt_succ hn)).trans hle

/-- Being up to an address is being up to every later one. -/
theorem Upto.mono {stop stop' : Addr} {j : Nat} (h : Upto instrs stop j) (hle : stop ≤ stop') :
    Upto instrs stop' j :=
  fun n ins hn hget => (h n ins hn hget).trans hle

/-- The body of a block ends within it. -/
theorem bodyStop_le (b : Block) : b.bodyStop ≤ b.stop + 1 := by
  rw [Block.bodyStop]
  split
  · exact Nat.le_succ _
  · exact min_le_left _ _

/-- So does its alternative. -/
theorem alternativeStop_le (b : Block) : b.alternativeStop ≤ b.stop + 1 := by
  rw [Block.alternativeStop]
  split
  · exact Nat.le_succ _
  · exact min_le_left _ _

/-- A loop is split within itself. -/
theorem splitPoint_le {b : Block} {point : Addr} (h : b.splitPoint? = some point) : point ≤ b.stop := by
  obtain ⟨-, h⟩ := Option.filter_eq_some_iff.mp h
  simp only [Bool.and_eq_true, decide_eq_true_eq] at h
  exact h.1.2

/-- A conditional without an alternative has its body up to its end. -/
theorem bodyStop_eq (hfits : Fits instrs tree) {b : Block} (hb : b ∈ tree.preorder)
    (hkind : b.kind = .conditional) (helse : b.alternative? = none) : b.bodyStop = b.stop + 1 := by
  rw [Block.bodyStop, helse, if_neg (by decide)]
  exact min_eq_left (hfits.stop_lt b hb hkind)

/-- A loop ends with its jump back. -/
theorem WalksLoop.exists_back {block : Block} {i j : Nat} {parts : LoopRegions} {used : List Nat}
    (h : WalksLoop instrs block i parts used j) (hunbroken : UnbrokenParts parts) :
    ∃ k back kind target, j = k + 1 ∧ instrs[k]? = some back ∧ back.addr = block.stop ∧
      back.jump? = some (kind, target) := by
  cases h with
  | whole _ _ hj haddr hjump => exact ⟨_, _, _, _, rfl, hj, haddr, hjump⟩
  | split _ _ _ hk haddr hjump => exact ⟨_, _, _, _, rfl, hk, haddr, hjump⟩
  | wholeNoBack | splitNoBack => exact absurd hunbroken.2.2 Bool.false_ne_true

/-- A loop walks to its end. -/
theorem WalksLoop.upto (hinstrs : Stream.Increasing instrs) {block : Block} {i j : Nat} {parts : LoopRegions}
    {used : List Nat} (h : WalksLoop instrs block i parts used j) (hunbroken : UnbrokenParts parts) :
    Upto instrs block.stop j := by
  obtain ⟨k, back, -, -, rfl, hk, haddr, -⟩ := h.exists_back hunbroken
  exact upto_succ hinstrs hk haddr.le

mutual

/-- A walk through a block stays in it. -/
theorem Walks.upto (hfits : Fits instrs tree) {block : Block} {stop : Addr} {i j : Nat}
    {regions : List Region} {used : List Nat} (hblock : block ∈ tree.preorder) (hstop : stop ≤ block.stop + 1) :
    Walks instrs block stop i regions used j → ListUnbroken regions → Upto instrs block.stop i →
      Upto instrs block.stop j
  | .nothing _, _, hi | .halt _ _, _, hi => hi
  | .inner hget _ hchild h hrest, hunbroken, hi => by
      have hj := h.upto hfits hblock hchild hget hunbroken.1
      exact hrest.upto hfits hblock hstop hunbroken.2 hj
  | .jump hget hlt _ _ hrest, hunbroken, _ | .plain hget hlt _ _ hrest, hunbroken, _ => by
      have hle := Nat.le_of_lt_succ (hlt.trans_le hstop)
      exact hrest.upto hfits hblock hstop hunbroken.2 (upto_succ hfits.increasing hget hle)

/-- **A child walks to its own end and no further.** -/
theorem WalksChild.upto (hfits : Fits instrs tree) {parent child : Block} {i j : Nat} {ins : Instruction}
    {region : Region} {used : List Nat} (hparent : parent ∈ tree.preorder)
    (hchild : parent.childAt? ins.addr = some child) (hi : instrs[i]? = some ins) :
    WalksChild instrs parent child i region used j → region.Unbroken → Upto instrs parent.stop j := by
  obtain ⟨hmem, hstart⟩ := mem_preorder_child hparent hchild
  have hstop := ((hfits.tidy parent hparent).surrounds child (List.mem_of_find?_eq_some hchild)).stop_le
  have hle : ins.addr ≤ child.stop := hstart ▸ (hfits.tidy child hmem).start_le_stop
  intro h hunbroken
  match h with
  | .loop _ h => exact (h.upto hfits.increasing hunbroken).mono hstop
  | .guarded _ _ _ hloop h =>
      obtain ⟨_, _, _, _, _, heq⟩ := guardedLoop?_eq_some hloop
      exact (h.upto hfits.increasing hunbroken).mono (heq.le.trans hstop)
  | .choice _ _ _ _ _ h =>
      have hbody := h.upto hfits hmem (bodyStop_le child) hunbroken (upto_succ hfits.increasing hi hle)
      exact hbody.mono hstop
  | .choiceElse _ _ _ _ helse _ hj haddr halt =>
      have hseparator := haddr.trans (mem_of_alternative? helse).2
      have hfirst := upto_succ hfits.increasing hj (hseparator.le.trans hstop)
      exact halt.upto hfits hparent ((min_le_right _ _).trans (alternativeStop_le parent)) hunbroken.2 hfirst
  | .noSeparator .. => exact hunbroken.2.1.elim
  | .noHead .. => exact absurd rfl hunbroken

end

end Region

end TorqueScript
