import TorqueScript.Proofs.Checked
import TorqueScript.Proofs.Framing

/-!
# Nesting blocks in an arena

A tree of blocks may be kept in a list: the record of a block stands at the position that is its number, and
blocks are told by their numbers.  Nesting works on such an arena (`Checked.nested`).  The blocks that are open
and those still to come are numbers, and to put a block inside another one changes both records.

`Block.Stores` says that an arena has the records of a tree.  The open blocks and those still to come have
different numbers (`Arena.Holds`), so what is written for one of them leaves the others as they are.  This is
kept by every step of the scan:

* `Arena.closeWhile_eq`: blocks are closed, and there is a block to put them into.
* `Arena.openAt_tracks`: blocks are opened inside the innermost open one.
* `Arena.record_eq`: a jump is given to the innermost open block.

**Nesting** (`Checked.nested_tracks`).  In a stream with increasing addresses every jump ahead leads behind
itself, so there is an instruction in front of its target, and some block is open whenever the innermost one
is asked for.
-/

namespace TorqueScript

/-- What is kept of a block: other blocks are told by their numbers. -/
structure BlockRecord where
  kind : BlockKind
  start : Addr
  stop : Addr
  parent : Option Nat
  children : List Nat
  branches : List Branch
  continuePoint : Option Addr
  deriving DecidableEq, Repr

namespace BlockRecord

/-- The record of a block with nothing inside. -/
def fresh (kind : BlockKind) (start stop : Addr) : BlockRecord :=
  { kind, start, stop, parent := none, children := [], branches := [], continuePoint := none }

/-- The record of a block with a parent. -/
def of (b : Block) (parent : Option Nat) : BlockRecord where
  kind := b.kind
  start := b.start
  stop := b.stop
  parent
  children := b.children.map (·.id)
  branches := b.branches
  continuePoint := b.continuePoint

theorem of_adopt (parent child : Block) (around : Option Nat) :
    of (parent.adopt child) around =
      { of parent around with children := (of parent around).children ++ [child.id] } := by
  rw [of, Block.adopt, List.map_append]
  rfl

/-- The order of opening. -/
def opensFirst (a b : BlockRecord) : Bool :=
  a.start < b.start || (a.start == b.start && b.stop ≤ a.stop)

end BlockRecord

/-- A computation on the records of blocks. -/
abbrev Arena := StateT (List BlockRecord) Checked

namespace Arena

/-- The record of a block. -/
def fetch (id : Nat) : Arena BlockRecord := do
  let records ← get
  Checked.get records id

/-- Changes the record of a block. -/
def update (id : Nat) (f : BlockRecord → BlockRecord) : Arena Unit := do
  let r ← fetch id
  modify (·.set id (f r))

/-- Puts a block inside another one, behind those that are there. -/
def attach (child parent : Nat) : Arena Unit := do
  update child fun r => { r with parent := some parent }
  update parent fun r => { r with children := r.children ++ [child] }

/-- The innermost open block. -/
def top : List Nat → Arena Nat
  | [] => Checked.slip .emptyStack
  | id :: _ => pure id

/-- Closes open blocks that are over, from the innermost; the root stays open. -/
def closeWhile (ended : Addr → Bool) : List Nat → Arena (List Nat)
  | [] => pure []
  | id :: outer =>
    if outer.isEmpty then pure [id]
    else do
      let r ← fetch id
      if ended r.stop then do
        let around ← top outer
        attach id around
        closeWhile ended outer
      else pure (id :: outer)

/-- Opens the blocks that begin at `addr`; gives the open blocks and those still to come. -/
def openAt (addr : Addr) (stack : List Nat) : List Nat → Arena (List Nat × List Nat)
  | [] => pure (stack, [])
  | next :: pending => do
    let r ← fetch next
    if r.start ≠ addr then pure (stack, next :: pending)
    else do
      let around ← fetch (← top stack)
      if around.stop < r.stop then throw (.overlappingBlocks r.start r.stop around.stop)
      else openAt addr (next :: stack) pending

/-- Gives an unconditional jump to the innermost open block. -/
def record (stack : List Nat) (ins : Instruction) : Arena Unit :=
  match ins.jump? with
  | some (.always, target) => do
    update (← top stack) fun r => { r with branches := Branch.insert ⟨ins.addr, target, .alternative⟩ r.branches }
  | _ => pure ()

/-- Moves the scan over instructions. -/
def scan (stack pending : List Nat) : List Instruction → Arena (List Nat × List Nat)
  | [] => pure (stack, pending)
  | ins :: rest => do
    let stack ← closeWhile (· < ins.addr) stack
    let (stack, pending) ← openAt ins.addr stack pending
    record stack ins
    scan stack pending rest

/-- Blocks with their records. -/
def fetchAll : List Nat → Arena (List (Nat × BlockRecord))
  | [] => pure []
  | id :: ids => do
    let r ← fetch id
    let rs ← fetchAll ids
    pure ((id, r) :: rs)

/-- All blocks but the root in the order of opening. -/
def order : Arena (List Nat) := do
  let records ← get
  let entries ← fetchAll (List.range' 1 (records.length - 1))
  pure ((entries.mergeSort fun a b => a.2.opensFirst b.2).map (·.1))

/-- Puts all blocks inside each other. -/
def nest (instrs : List Instruction) : Arena Unit := do
  let pending ← order
  let (stack, pending) ← scan [0] pending instrs
  let stack ← closeWhile (· ≤ Stream.last instrs) stack
  if stack.length = 1 ∧ pending.isEmpty then pure () else throw (.unbalancedBlocks stack.length)

end Arena

namespace Checked

/-- The records of the blocks that jumps make; `i` is the position of the first instruction of `rest`. -/
def seedsFrom (instrs : List Instruction) (i : Nat) : List Instruction → Checked (List BlockRecord)
  | [] => pure []
  | ins :: rest =>
    match ins.jump? with
    | none => seedsFrom instrs (i + 1) rest
    | some (kind, target) =>
      match Stream.lastIndex? target instrs with
      | none => throw (.branchTargetMissing ins.addr target)
      | some j =>
        if !kind.makesBlock then seedsFrom instrs (i + 1) rest
        else if target ≤ ins.addr then do
          let records ← seedsFrom instrs (i + 1) rest
          pure (.fresh .loop target ins.addr :: records)
        else do
          require (i < j) .notAhead
          let before ← get instrs (← sub j 1)
          let records ← seedsFrom instrs (i + 1) rest
          pure (.fresh .conditional ins.addr before.addr :: records)

/-- The records of the blocks of a stream, put inside each other. -/
def nested (instrs : List Instruction) : Checked (List BlockRecord) := do
  let seeds ← seedsFrom instrs 0 instrs
  Prod.snd <$> Arena.nest instrs (.fresh .root (Stream.first instrs) (Stream.last instrs) :: seeds)

end Checked

/-! ### Trees in an arena -/

namespace Block

variable {records records' : List BlockRecord} {parent : Option Nat} {b c : Block}

/-- The numbers of a block and of all blocks inside it. -/
def ids (b : Block) : List Nat :=
  b.preorder.map (·.id)

/-- The records of the block and of all blocks inside it are in the arena. -/
def Stores (records : List BlockRecord) (parent : Option Nat) (b : Block) : Prop :=
  ∀ e ∈ b.entries parent, records[e.block.id]? = some (.of e.block e.parent)

theorem ids_eq (b : Block) : b.ids = b.id :: b.children.flatMap ids := by
  rw [ids, preorder_eq, List.map_cons, List.map_flatMap]
  rfl

theorem id_mem_ids (b : Block) : b.id ∈ b.ids :=
  List.mem_map_of_mem b.self_mem_preorder

theorem stores_iff : Stores records parent b ↔
    records[b.id]? = some (.of b parent) ∧ ∀ c ∈ b.children, Stores records (some b.id) c := by
  rw [Stores, entries_eq, List.forall_mem_cons, List.forall_mem_flatMap]
  rfl

/-- Only the records of the blocks of a tree count. -/
theorem Stores.congr (h : Stores records parent b) (hsame : ∀ i ∈ b.ids, records'[i]? = records[i]?) :
    Stores records' parent b := by
  intro e he
  rw [hsame, h e he]
  rw [ids, ← map_block_entries parent, List.map_map]
  exact List.mem_map_of_mem he

end Block

/-! ### One step on records -/

namespace Arena

variable {records : List BlockRecord} {id : Nat} {r : BlockRecord}

theorem fetch_eq (h : records[id]? = some r) : fetch id records = pure (r, records) := by
  show (Checked.get records id >>= fun r => pure (r, records) : Checked _) = _
  rw [Checked.get_eq h, pure_bind]

theorem update_eq (h : records[id]? = some r) (f : BlockRecord → BlockRecord) :
    update id f records = pure ((), records.set id (f r)) := by
  show (fetch id records >>= fun p => pure ((), p.2.set id (f p.1)) : Checked _) = _
  rw [fetch_eq h, pure_bind]

theorem bind_apply {α β : Type} (x : Arena α) (f : α → Arena β) (records : List BlockRecord) :
    (x >>= f) records = x records >>= fun p => f p.1 p.2 := rfl

/-- The blocks are in the arena, none of them inside another one, and they have different numbers.  No
continue point is known yet. -/
structure Holds (records : List BlockRecord) (bs : List Block) : Prop where
  stored : ∀ b ∈ bs, b.Stores records none
  apart : (bs.flatMap Block.ids).Nodup
  unset : ∀ r ∈ records, r.continuePoint = none

variable {child parent b : Block} {bs bs' : List Block}

theorem Holds.perm (h : Holds records bs) (hperm : bs.Perm bs') : Holds records bs' where
  stored b hb := h.stored b (hperm.mem_iff.mpr hb)
  apart := (hperm.flatMap_right _).nodup_iff.mp h.apart
  unset := h.unset

theorem Holds.get (h : Holds records bs) (hb : b ∈ bs) : records[b.id]? = some (.of b none) :=
  (Block.stores_iff.mp (h.stored b hb)).1

theorem Holds.unset_set (h : Holds records bs) (hb : b ∈ bs) (hr : r.continuePoint = b.continuePoint) :
    ∀ s ∈ records.set b.id r, s.continuePoint = none := by
  intro s hs
  rcases List.mem_or_eq_of_mem_set hs with hs | rfl
  · exact h.unset s hs
  · exact hr.trans (h.unset (.of b none) (List.mem_of_getElem? (h.get hb)))

/-- What is written for one block leaves the others as they are. -/
theorem Holds.set (h : Holds records (b :: bs)) (r : BlockRecord) :
    (∀ c ∈ b.children, c.Stores (records.set b.id r) (some b.id)) ∧
      ∀ c ∈ bs, c.Stores (records.set b.id r) none := by
  have hapart := h.apart
  rw [List.flatMap_cons, Block.ids_eq, List.cons_append, List.nodup_cons, List.mem_append, not_or] at hapart
  obtain ⟨⟨hchildren, hbs⟩, -⟩ := hapart
  constructor
  · intro c hc
    refine ((Block.stores_iff.mp (h.stored b List.mem_cons_self)).2 c hc).congr fun i hi => ?_
    refine List.getElem?_set_ne ?_
    rintro rfl
    exact hchildren (List.mem_flatMap.mpr ⟨c, hc, hi⟩)
  · intro c hc
    refine (h.stored c (List.mem_cons_of_mem _ hc)).congr fun i hi => List.getElem?_set_ne ?_
    rintro rfl
    exact hbs (List.mem_flatMap.mpr ⟨c, hc, hi⟩)

theorem ids_adopt (parent child : Block) : (parent.adopt child).ids = parent.ids ++ child.ids := by
  rw [Block.ids_eq, Block.ids_eq parent, Block.adopt, List.flatMap_append, List.flatMap_singleton]
  rfl

/-- A block is put inside another one. -/
theorem attach_eq (h : Holds records (child :: parent :: bs)) :
    ∃ records', attach child.id parent.id records = pure ((), records') ∧
      Holds records' (parent.adopt child :: bs) := by
  have hchild := h.get List.mem_cons_self
  have hapart := h.apart
  rw [List.flatMap_cons, List.nodup_append] at hapart
  obtain ⟨-, hparent, hdisjoint⟩ := hapart
  -- the child's record is written first
  obtain ⟨hinside, hrest⟩ := h.set (.of child (some parent.id))
  have h₁ : Holds (records.set child.id (.of child (some parent.id))) (parent :: bs) :=
    ⟨hrest, hparent, h.unset_set List.mem_cons_self rfl⟩
  have hchild₁ : child.Stores (records.set child.id (.of child (some parent.id))) (some parent.id) :=
    Block.stores_iff.mpr ⟨List.getElem?_set_self (List.getElem?_eq_some_iff.mp hchild).1, hinside⟩
  have hget := h₁.get List.mem_cons_self
  obtain ⟨hinside₁, hrest₁⟩ := h₁.set (.of (parent.adopt child) none)
  refine ⟨(records.set child.id (.of child (some parent.id))).set parent.id (.of (parent.adopt child) none), ?_, ?_⟩
  · rw [attach, bind_apply, update_eq hchild, pure_bind, BlockRecord.of_adopt]
    exact update_eq hget _
  · refine ⟨List.forall_mem_cons.mpr ⟨Block.stores_iff.mpr ⟨?_, ?_⟩, hrest₁⟩, ?_, h₁.unset_set List.mem_cons_self rfl⟩
    · exact List.getElem?_set_self (List.getElem?_eq_some_iff.mp hget).1
    · refine List.forall_mem_append.mpr ⟨hinside₁, List.forall_mem_singleton.mpr ?_⟩
      refine hchild₁.congr fun i hi => List.getElem?_set_ne ?_
      rintro rfl
      exact hdisjoint _ hi _ (List.mem_flatMap.mpr ⟨parent, List.mem_cons_self, parent.id_mem_ids⟩) rfl
    · rw [List.flatMap_cons, ids_adopt]
      have hperm : (child.ids ++ (parent.ids ++ bs.flatMap Block.ids)).Perm
          (parent.ids ++ child.ids ++ bs.flatMap Block.ids) := by
        rw [← List.append_assoc]
        exact List.perm_append_comm.append_right _
      exact hperm.nodup_iff.mp h.apart

/-- A block is given a jump. -/
theorem own_eq (h : Holds records (b :: bs)) (branch : Branch) :
    ∃ records', update b.id (fun r => { r with branches := branch.insert r.branches }) records =
      pure ((), records') ∧ Holds records' (b.own branch :: bs) := by
  have hget := h.get List.mem_cons_self
  obtain ⟨hinside, hrest⟩ := h.set (.of (b.own branch) none)
  refine ⟨_, update_eq hget _, List.forall_mem_cons.mpr ⟨Block.stores_iff.mpr ⟨?_, hinside⟩, hrest⟩, ?_,
    h.unset_set List.mem_cons_self rfl⟩
  · exact List.getElem?_set_self (List.getElem?_eq_some_iff.mp hget).1
  · have hids : (b.own branch).ids = b.ids := by
      rw [Block.ids_eq, Block.ids_eq]
      rfl
    rw [List.flatMap_cons, hids]
    exact h.apart

/-! ### The scan -/

/-- The stack and the arena of a scan, and the numbers of the blocks still to come. -/
structure Follows (n : Nesting) (p : (List Nat × List Nat) × List BlockRecord) : Prop where
  stack_eq : p.1.1 = (n.top :: n.outer).map (·.id)
  pending_eq : p.1.2 = n.pending.map (·.id)
  holds : Holds p.2 (n.top :: n.outer ++ n.pending)

variable {top : Block} {outer pending : List Block} {addr : Addr}

/-- **Closing.**  Whenever a block is closed there is one to put it into. -/
theorem closeWhile_eq {ended : Addr → Bool} (hended : ∀ a, ended a = decide (a < addr))
    (h : Holds records (top :: outer ++ pending)) :
    ∃ records', closeWhile ended ((top :: outer).map (·.id)) records =
        pure (((Nesting.closeBefore addr top outer).1 :: (Nesting.closeBefore addr top outer).2).map (·.id), records') ∧
      Holds records'
        ((Nesting.closeBefore addr top outer).1 :: (Nesting.closeBefore addr top outer).2 ++ pending) := by
  induction outer generalizing top records with
  | nil => exact ⟨records, rfl, h⟩
  | cons around outer ih =>
      have hget := h.get List.mem_cons_self
      rw [List.map_cons, closeWhile, if_neg (by simp), bind_apply, fetch_eq hget, pure_bind, Nesting.closeBefore]
      by_cases hlt : top.stop < addr
      · obtain ⟨records₁, hattach, h₁⟩ := attach_eq h
        rw [if_pos hlt]
        obtain ⟨records', hclose, h'⟩ := ih h₁
        refine ⟨records', ?_, h'⟩
        rw [if_pos (by rw [hended]; exact decide_eq_true hlt)]
        show (attach top.id around.id records >>= fun p => closeWhile ended _ p.2 : Checked _) = _
        rw [hattach, pure_bind]
        exact hclose
      · rw [if_neg hlt, if_neg (by rw [hended]; exact fun h => hlt (of_decide_eq_true h))]
        exact ⟨records, rfl, h⟩

/-- **Opening.**  A block is opened inside the innermost open one. -/
theorem openAt_tracks (h : Holds records (top :: outer ++ pending)) :
    Checked.Tracks (fun p n => Follows n p)
      (openAt addr ((top :: outer).map (·.id)) (pending.map (·.id)) records)
      (Nesting.openAt addr top outer pending) := by
  induction pending generalizing top outer with
  | nil => exact .pure ⟨rfl, rfl, h⟩
  | cons next pending ih =>
      have hget := h.get (List.mem_append_right _ List.mem_cons_self)
      have htop := h.get (List.mem_append_left _ List.mem_cons_self)
      show Checked.Tracks _ (openAt addr _ (next.id :: pending.map (·.id)) records) _
      rw [openAt, bind_apply, fetch_eq hget, pure_bind, Nesting.openAt]
      show Checked.Tracks _ ((ite (next.start ≠ addr) _ _ : Arena (List Nat × List Nat)) records) _
      by_cases hstart : next.start = addr
      · rw [if_neg (not_not_intro hstart), if_neg (not_not_intro hstart)]
        show Checked.Tracks _ (fetch top.id records >>= _) _
        rw [fetch_eq htop, pure_bind]
        show Checked.Tracks _ ((ite (top.stop < next.stop) _ _ : Arena (List Nat × List Nat)) records) _
        by_cases hstop : top.stop < next.stop
        · rw [if_pos hstop, if_pos hstop]
          exact .throw _
        · rw [if_neg hstop, if_neg hstop]
          exact ih (h.perm List.perm_middle)
      · rw [if_pos hstart, if_pos hstart]
        exact .pure ⟨rfl, rfl, h⟩

/-- A jump is given to the innermost open block. -/
theorem record_eq {n : Nesting} {p : (List Nat × List Nat) × List BlockRecord} (h : Follows n p) (ins : Instruction) :
    ∃ records', record p.1.1 ins p.2 = pure ((), records') ∧ Follows (n.record ins) (p.1, records') := by
  obtain ⟨hstack, hpending, hholds⟩ := h
  by_cases hjump : ∃ target, ins.jump? = some (.always, target)
  · obtain ⟨target, hjump⟩ := hjump
    obtain ⟨records', hown, h'⟩ := own_eq hholds ⟨ins.addr, target, .alternative⟩
    rw [record, Nesting.record, hjump, hstack]
    exact ⟨records', hown, hstack, hpending, h'⟩
  · have hjump := not_exists.mp hjump
    have hrecord : record p.1.1 ins = pure () := by
      unfold record
      split
      · next target heq => exact absurd heq (hjump target)
      · rfl
    rw [hrecord, Nesting.record_of_jump hjump]
    exact ⟨p.2, rfl, hstack, hpending, hholds⟩

theorem scan_tracks {n : Nesting} {p : (List Nat × List Nat) × List BlockRecord} (h : Follows n p)
    (instrs : List Instruction) :
    Checked.Tracks (fun p n => Follows n p) (scan p.1.1 p.1.2 instrs p.2) (n.scan instrs) := by
  induction instrs generalizing n p with
  | nil => exact .pure h
  | cons ins rest ih =>
      obtain ⟨⟨stack, pending⟩, records⟩ := p
      obtain ⟨rfl, rfl, hholds⟩ := h
      obtain ⟨records₁, hclose, h₁⟩ := closeWhile_eq (fun _ => rfl) hholds
      rw [scan, Nesting.scan, bind_apply, hclose, pure_bind, bind_apply]
      show Checked.Tracks _ _ ((Nesting.openAt _ _ _ _ >>= fun n => pure (n.record ins)) >>= _)
      rw [bind_assoc]
      refine (openAt_tracks h₁).bind fun p n hpn => ?_
      obtain ⟨records₂, hrecord, h₂⟩ := record_eq hpn ins
      rw [pure_bind]
      show Checked.Tracks _ (record p.1.1 ins p.2 >>= fun q => scan p.1.1 p.1.2 rest q.2) _
      rw [hrecord, pure_bind]
      exact ih h₂

/-! ### All blocks -/

theorem fetchAll_eq (h : ∀ b ∈ bs, records[b.id]? = some (.of b none)) :
    fetchAll (bs.map (·.id)) records = pure (bs.map fun b => (b.id, .of b none), records) := by
  induction bs with
  | nil => rfl
  | cons b bs ih =>
      obtain ⟨hb, hbs⟩ := List.forall_mem_cons.mp h
      rw [List.map_cons, fetchAll, bind_apply, fetch_eq hb, pure_bind, bind_apply, ih hbs, pure_bind]
      rfl

/-- Blocks without anything inside that are numbered from 0 on. -/
theorem holds_seeds (hbare : ∀ b ∈ bs, b.bare = b) (hnumbered : bs.map (·.id) = List.range bs.length) :
    Holds (bs.map (.of · none)) bs := by
  have hchildren : ∀ b ∈ bs, b.children = [] := by
    intro b hb
    rw [← hbare b hb]
    rfl
  have hids : bs.flatMap Block.ids = bs.map (·.id) := by
    rw [List.map_eq_flatMap]
    refine List.flatMap_congr fun b hb => ?_
    rw [Block.ids_eq, hchildren b hb, List.flatMap_nil]
  refine ⟨fun b hb => Block.stores_iff.mpr ⟨?_, ?_⟩, ?_, ?_⟩
  · -- a block stands at its number
    obtain ⟨k, hk⟩ := List.mem_iff_getElem?.mp hb
    have hnumber : (bs.map (·.id))[k]? = some b.id := by rw [List.getElem?_map, hk, Option.map_some]
    rw [hnumbered, List.getElem?_range (List.getElem?_eq_some_iff.mp hk).1] at hnumber
    rw [← Option.some.inj hnumber, List.getElem?_map, hk, Option.map_some]
  · rw [hchildren b hb]
    exact nofun
  · rw [hids, hnumbered]
    exact List.nodup_range
  · intro r hr
    obtain ⟨b, hb, rfl⟩ := List.mem_map.mp hr
    show b.continuePoint = none
    rw [← hbare b hb]
    rfl

theorem order_eq {root : Block} (h : Holds (.of root none :: bs.map (.of · none)) (root :: bs))
    (hnumbered : bs.map (·.id) = List.range' 1 bs.length) :
    order (.of root none :: bs.map (.of · none)) =
      pure ((bs.mergeSort Nesting.opensFirst).map (·.id), .of root none :: bs.map (.of · none)) := by
  have hfetch := fetchAll_eq fun b hb => h.get (List.mem_cons_of_mem _ hb)
  have hsort : (bs.mergeSort Nesting.opensFirst).map (fun b => (b.id, BlockRecord.of b none)) =
      (bs.map fun b => (b.id, BlockRecord.of b none)).mergeSort fun a b => a.2.opensFirst b.2 :=
    List.map_mergeSort fun _ _ _ _ => rfl
  show (fetchAll (List.range' 1 (_ - 1)) _ >>= _ : Checked _) = _
  rw [List.length_cons, List.length_map, Nat.add_sub_cancel, ← hnumbered, hfetch, pure_bind]
  dsimp only
  rw [← hsort, List.map_map]
  rfl

/-- The innermost open block, the root behind the last instruction. -/
theorem nest_tracks {root : Block} {instrs : List Instruction}
    (h : Holds (.of root none :: bs.map (.of · none)) (root :: bs)) (hid : root.id = 0)
    (hnumbered : bs.map (·.id) = List.range' 1 bs.length) :
    Checked.Tracks (fun p tree => Holds p.2 [tree]) (nest instrs (.of root none :: bs.map (.of · none)))
      ((Nesting.start root bs).scan instrs >>= fun n => n.finish (Stream.last instrs)) := by
  have hstart : Follows (.start root bs)
      ((([0] : List Nat), (bs.mergeSort Nesting.opensFirst).map (·.id)), .of root none :: bs.map (.of · none)) := by
    refine ⟨?_, rfl, h.perm ?_⟩
    · show [0] = [root.id]
      rw [hid]
    · exact ((List.mergeSort_perm bs Nesting.opensFirst).symm.cons root)
  rw [nest, bind_apply, order_eq h hnumbered, pure_bind, bind_apply]
  refine (scan_tracks hstart instrs).bind ?_
  rintro ⟨⟨stack, pending⟩, records⟩ n ⟨rfl, rfl, hholds⟩
  have hended : ∀ a, decide (a ≤ Stream.last instrs) = decide (a < Stream.last instrs + 1) := fun a =>
    decide_eq_decide.mpr Nat.lt_succ_iff.symm
  obtain ⟨records', hclose, h'⟩ := closeWhile_eq hended hholds
  dsimp only
  rw [bind_apply, hclose, pure_bind, Nesting.finish]
  generalize Nesting.closeBefore (Stream.last instrs + 1) n.top n.outer = closed at h'
  obtain ⟨top, outer⟩ := closed
  dsimp only at h' ⊢
  have hend : (((top :: outer).map (·.id)).length = 1 ∧ (n.pending.map (·.id)).isEmpty) ↔
      (outer.isEmpty && n.pending.isEmpty) = true := by simp
  by_cases hclosed : (outer.isEmpty && n.pending.isEmpty) = true
  · rw [if_pos hclosed, if_pos (hend.mpr hclosed)]
    obtain ⟨houter, hpending⟩ := Bool.and_eq_true_iff.mp hclosed
    rw [List.isEmpty_iff.mp houter, List.isEmpty_iff.mp hpending] at h'
    exact .pure h'
  · rw [if_neg hclosed, if_neg (hend.not.mpr hclosed), List.length_map, List.length_cons]
    exact .throw _

end Arena

namespace Checked

variable {instrs : List Instruction}

/-- The records of the blocks that jumps make are those of the blocks of the stream. -/
theorem seedsFrom_eq (hincreasing : Stream.Increasing instrs) {rest : List Instruction} (id : Nat) {i : Nat}
    (hrest : instrs.drop i = rest) : seedsFrom instrs i rest =
      of ((fun bs => bs.map (.of · none)) <$> Stream.blocksFrom instrs id rest) := by
  induction rest generalizing id i with
  | nil => rfl
  | cons ins rest ih =>
      have hi : instrs[i]? = some ins := by rw [← List.head?_drop, hrest, List.head?_cons]
      have hrest' : instrs.drop (i + 1) = rest := by rw [← List.tail_drop, hrest, List.tail_cons]
      rw [seedsFrom, Stream.blocksFrom]
      cases hjump : ins.jump? with
      | none => exact ih id hrest'
      | some jump =>
          obtain ⟨kind, target⟩ := jump
          dsimp only
          cases hj : Stream.lastIndex? target instrs with
          | none => rfl
          | some j =>
              obtain ⟨y, hy, hyaddr⟩ := Stream.getElem?_lastIndex? hj
              simp only [Option.isNone_some, Bool.false_eq_true, if_false, Stream.blockOfJump?]
              by_cases hkind : kind.makesBlock
              · simp only [hkind, Bool.not_true, Bool.false_eq_true, if_false]
                by_cases hback : target ≤ ins.addr
                · rw [if_pos hback, if_pos hback, ih (id + 1) hrest']
                  cases Stream.blocksFrom instrs (id + 1) rest <;> rfl
                · -- the target lies behind the jump, so there is something in front of it
                  have hij : i < j := hincreasing.lt_of_addr_lt hi hy (hyaddr.symm ▸ Nat.not_le.mp hback)
                  obtain ⟨k, rfl⟩ := Nat.exists_eq_succ_of_ne_zero (Nat.ne_zero_of_lt hij)
                  have hk : k < instrs.length := Nat.lt_of_succ_lt (List.getElem?_eq_some_iff.mp hy).1
                  have hget := List.getElem?_eq_getElem hk
                  have hbefore : Stream.before? instrs target = some instrs[k].addr := by
                    rw [Stream.before?, hj]
                    dsimp only
                    rw [hget, Option.map_some]
                  rw [if_neg hback, if_neg hback, require_eq hij, pure_bind, sub_eq (Nat.succ_pos k), pure_bind,
                    Nat.succ_sub_one, get_eq hget, pure_bind, ih (id + 1) hrest', hbefore, Option.getD_some]
                  cases Stream.blocksFrom instrs (id + 1) rest <;> rfl
              · simp only [hkind, Bool.not_false, if_true]
                exact ih id hrest'

/-- **Nesting** in an arena never slips, and afterwards the arena has the records of the tree. -/
theorem nested_tracks (hincreasing : Stream.Increasing instrs) :
    Tracks (fun records tree => Arena.Holds records [tree]) (nested instrs) (Stream.nest instrs) := by
  have hseeds : seedsFrom instrs 0 instrs = of ((fun bs => bs.map (.of · none)) <$> Stream.blocks instrs) :=
    seedsFrom_eq hincreasing 1 rfl
  rw [nested, Stream.nest, hseeds]
  by_cases hland : ∀ ins ∈ instrs, Stream.Lands instrs ins
  · obtain ⟨made, hmade, hseeds⟩ := Stream.blocks_eq_ok hincreasing hland
    have hbare : ∀ b ∈ Stream.root instrs :: made, b.bare = b := List.forall_mem_cons.mpr ⟨rfl, hseeds.bare⟩
    have hnumbered : (Stream.root instrs :: made).map (·.id) = List.range (Stream.root instrs :: made).length := by
      rw [List.map_cons, hseeds.numbered, List.length_cons, List.range_eq_range', List.range'_succ]
      rfl
    rw [hmade]
    exact (Arena.nest_tracks (Arena.holds_seeds hbare hnumbered) rfl hseeds.numbered).map fun _ _ h => h
  · obtain ⟨front, ins, back, heq, hfront, kind, target, hjump, hstray⟩ := Stream.exists_first_stray hland
    have hblocks := Stream.blocksFrom_eq_error hfront hjump hstray back 1
    rw [← heq] at hblocks
    rw [Stream.blocks, hblocks]
    exact .throw _

end Checked

end TorqueScript
