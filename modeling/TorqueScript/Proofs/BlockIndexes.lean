import TorqueScript.Listing
import TorqueScript.Proofs.ArenaClasses

/-!
# Looking up blocks in an arena

A `BlockIndex` has the records of blocks, the numbers of the blocks that begin at an address, and all jumps.
It is made in a walk over the arena that keeps the blocks still to come (`Checked.index`).

`BlockIndex.Of` says that it is the index of a tree (`Checked.index_ends`).  Then every number that is met
while something is looked up has a record, and what is found is what the tree says:

* `BlockIndex.Of.childAt?_eq`: the child of a block that begins at an address is found among all blocks that
  begin there.
* `BlockIndex.Of.guardedLoop?_eq` and `BlockIndex.Of.splitPoint?_eq`: what depends on the children of a block.
* `BlockIndex.Of.lines_eq`: the lines of a listing.
-/

namespace TorqueScript

/-- The block without what lies inside it. -/
def BlockRecord.alone (r : BlockRecord) : Block where
  id := 0
  kind := r.kind
  start := r.start
  stop := r.stop
  branches := r.branches
  continuePoint := r.continuePoint
  children := []

/-- The records of blocks, and where they begin. -/
structure BlockIndex where
  records : List BlockRecord
  /-- The first addresses of the blocks and their numbers, outer blocks first. -/
  starts : List (Addr × Nat)
  /-- All jumps in the order of their addresses. -/
  branches : List Branch

namespace Checked

/-- The blocks with the given numbers and the blocks inside them, each before those inside it. -/
def visit (records : List BlockRecord) : Nat → List Nat → Checked (List (Nat × BlockRecord))
  | 0, _ => slip .outOfSteps
  | _ + 1, [] => pure []
  | steps + 1, id :: pending => do
    let r ← get records id
    let found ← visit records steps (r.children ++ pending)
    pure ((id, r) :: found)

/-- The index of the blocks in an arena. -/
def index (records : List BlockRecord) (steps : Nat) : Checked BlockIndex := do
  let found ← visit records steps [0]
  pure
    { records
      starts := found.map fun p => (p.2.start, p.1)
      branches := (found.flatMap (·.2.branches)).foldl (fun bs b => b.insert bs) [] }

end Checked

namespace BlockIndex

/-- The record of a block. -/
def block (I : BlockIndex) (id : Nat) : Checked BlockRecord :=
  Checked.get I.records id

/-- The blocks that begin at an address. -/
def blocksAt (I : BlockIndex) (addr : Addr) : List Nat :=
  (I.starts.filter (·.1 == addr)).map (·.2)

/-- The first of the given blocks with a property. -/
def find? (I : BlockIndex) (p : BlockRecord → Bool) : List Nat → Checked (Option Nat)
  | [] => pure none
  | id :: ids => do
    let r ← I.block id
    if p r then pure (some id) else I.find? p ids

/-- The block inside `parent` that begins at an address. -/
def childAt? (I : BlockIndex) (parent : Nat) (addr : Addr) : Checked (Option Nat) :=
  I.find? (fun r => r.parent == some parent) (I.blocksAt addr)

/-- The loop that begins with the instruction at position `i` and ends with the block around it. -/
def guardedLoop? (I : BlockIndex) (instrs : List Instruction) (i : Nat) (r : BlockRecord) : Checked (Option Nat) :=
  match instrs[i]? with
  | none => pure none
  | some ins => I.find? (fun c => c.kind == .loop && c.start == ins.addr && c.stop == r.stop) r.children

/-- Where the body of a loop is split. -/
def splitPoint? (I : BlockIndex) (r : BlockRecord) : Checked (Option Addr) :=
  match r.continuePoint with
  | none => pure none
  | some point =>
    if r.start < point ∧ point ≤ r.stop then do
      let inside ← I.find? (fun c => c.start < point && point ≤ c.stop) r.children
      pure (if inside.isSome then none else some point)
    else pure none

/-- The lines in front of the given blocks. -/
def headers (I : BlockIndex) : List Nat → Checked (List String)
  | [] => pure []
  | id :: ids => do
    let r ← I.block id
    let rest ← I.headers ids
    pure ((Listing.header r.alone).toList ++ rest)

/-- The lines of a listing. -/
def lines (I : BlockIndex) (lineBreaks : List LineBreak) : List Instruction → Checked (List String)
  | [] => pure []
  | ins :: instrs => do
    let before ← I.headers (I.blocksAt ins.addr)
    let rest ← I.lines lineBreaks instrs
    pure (before ++ [Listing.line I.branches lineBreaks ins] ++ rest)

/-- The index of a tree whose blocks have different numbers. -/
structure Of (I : BlockIndex) (tree : Block) : Prop where
  stores : tree.Stores I.records none
  starts_eq : I.starts = (tree.entries none).map fun e => (e.block.start, e.block.id)
  branches_eq : I.branches = tree.allBranches
  tidy : tree.Tidy
  apart : tree.ids.Nodup

end BlockIndex

/-! ### The walk over an arena -/

namespace Checked

variable {records : List BlockRecord} {tree : Block} {es : List Block.Entry}

/-- All blocks of some trees are visited. -/
theorem visit_ends (h : ∀ e ∈ es, e.block.Stores records e.parent) :
    Ends (fun steps => visit records steps (es.map (·.block.id)))
      (pure ((es.flatMap fun e => e.block.entries e.parent).map fun e => (e.block.id, .of e.block e.parent))) := by
  induction hlength : (es.flatMap fun e => e.block.entries e.parent).length using Nat.strongRecOn generalizing es with
  | ind n ih =>
      subst hlength
      refine .succ ?_
      cases es with
      | nil => exact .const _
      | cons e es =>
          obtain ⟨he, hes⟩ := List.forall_mem_cons.mp h
          obtain ⟨hget, hchildren⟩ := Block.stores_iff.mp he
          -- the children of the block are the next ones
          obtain ⟨next, hnext⟩ : ∃ next, next = e.block.children.map (Block.Entry.mk · (some e.block.id)) ++ es :=
            ⟨_, rfl⟩
          have hids : (BlockRecord.of e.block e.parent).children ++ es.map (·.block.id) = next.map (·.block.id) := by
            rw [hnext, List.map_append, List.map_map]
            rfl
          have hentries : (e :: es).flatMap (fun e => e.block.entries e.parent) =
              e :: next.flatMap fun e => e.block.entries e.parent := by
            rw [hnext, List.flatMap_cons, Block.entries_eq, List.flatMap_append, List.flatMap_map]
            rfl
          have hstores : ∀ e ∈ next, e.block.Stores records e.parent := by
            rw [hnext]
            exact List.forall_mem_append.mpr ⟨List.forall_mem_map.mpr hchildren, hes⟩
          simp only [List.map_cons, visit, get_eq hget, pure_bind, hids]
          rw [hentries] at ih ⊢
          exact (ih _ (Nat.lt_succ_self _) hstores rfl).map _

/-- **The index of a tree** is made of its records. -/
theorem index_ends (hstores : tree.Stores records none) (hid : tree.id = 0) (htidy : tree.Tidy)
    (hapart : tree.ids.Nodup) : ∃ I : BlockIndex, Ends (index records) (pure I) ∧ I.Of tree := by
  have hvisit := visit_ends (List.forall_mem_singleton.mpr hstores : ∀ e ∈ [Block.Entry.mk tree none], _)
  rw [List.map_singleton, List.flatMap_singleton, hid] at hvisit
  refine ⟨_, hvisit.map _, hstores, ?_, ?_, htidy, hapart⟩
  · exact List.map_map
  · show ((List.map _ _).flatMap _).foldl _ _ = _
    rw [List.flatMap_map, Block.allBranches, Block.preorder, List.flatMap_map]
    rfl

end Checked

/-! ### What is looked up -/

namespace BlockIndex

variable {I : BlockIndex} {tree b c : Block}

theorem find?_eq {p : BlockRecord → Bool} {es : List Block.Entry}
    (h : ∀ e ∈ es, I.records[e.block.id]? = some (.of e.block e.parent)) :
    I.find? p (es.map (·.block.id)) = pure ((es.find? fun e => p (.of e.block e.parent)).map (·.block.id)) := by
  induction es with
  | nil => rfl
  | cons e es ih =>
      obtain ⟨he, hes⟩ := List.forall_mem_cons.mp h
      rw [List.map_cons, find?, block, Checked.get_eq he, pure_bind, ih hes, List.find?_cons]
      cases p (.of e.block e.parent) <;> rfl

theorem headers_eq {es : List Block.Entry} (h : ∀ e ∈ es, I.records[e.block.id]? = some (.of e.block e.parent)) :
    I.headers (es.map (·.block.id)) = pure ((es.map (·.block)).filterMap Listing.header) := by
  induction es with
  | nil => rfl
  | cons e es ih =>
      obtain ⟨he, hes⟩ := List.forall_mem_cons.mp h
      have hheader : Listing.header (BlockRecord.of e.block e.parent).alone = Listing.header e.block := rfl
      rw [List.map_cons, headers, block, Checked.get_eq he, pure_bind, ih hes, pure_bind, hheader, List.map_cons,
        List.filterMap_cons]
      cases Listing.header e.block <;> rfl

namespace Of

/-- Every block of the tree has its record. -/
theorem exists_block (h : I.Of tree) (hb : b ∈ tree.preorder) : ∃ parent, I.block b.id = pure (.of b parent) := by
  rw [← Block.map_block_entries none, List.mem_map] at hb
  obtain ⟨e, he, rfl⟩ := hb
  exact ⟨e.parent, Checked.get_eq (h.stores e he)⟩

theorem getElem?_child (h : I.Of tree) (hb : b ∈ tree.preorder) (hc : c ∈ b.children) :
    I.records[c.id]? = some (.of c (some b.id)) :=
  h.stores ⟨c, some b.id⟩ (Block.mem_entries.mpr (.inr ⟨b, hb, hc, rfl⟩))

/-- The record of a child tells its parent. -/
theorem block_child (h : I.Of tree) (hb : b ∈ tree.preorder) (hc : c ∈ b.children) :
    I.block c.id = pure (.of c (some b.id)) :=
  Checked.get_eq (h.getElem?_child hb hc)

theorem find?_children (h : I.Of tree) (hb : b ∈ tree.preorder) (p : BlockRecord → Bool) :
    I.find? p (b.children.map (·.id)) = pure ((b.children.find? fun c => p (.of c (some b.id))).map (·.id)) := by
  have hfind := find?_eq (p := p) (List.forall_mem_map.mpr fun c hc => h.getElem?_child hb hc :
    ∀ e ∈ b.children.map (Block.Entry.mk · (some b.id)), _)
  rw [List.map_map, List.find?_map, Option.map_map] at hfind
  exact hfind

theorem blocksAt_eq (h : I.Of tree) (addr : Addr) :
    I.blocksAt addr = ((tree.entries none).filter (·.block.start == addr)).map (·.block.id) := by
  rw [blocksAt, h.starts_eq, List.filter_map, List.map_map]
  rfl

theorem getElem?_filter (h : I.Of tree) (addr : Addr) :
    ∀ e ∈ (tree.entries none).filter (·.block.start == addr),
      I.records[e.block.id]? = some (.of e.block e.parent) :=
  fun e he => h.stores e (List.mem_filter.mp he).1

/-- Blocks have different numbers. -/
theorem eq_of_id (h : I.Of tree) (hb : b ∈ tree.preorder) (hc : c ∈ tree.preorder) (hid : b.id = c.id) : b = c :=
  List.inj_on_of_nodup_map h.apart hb hc hid

/-- **Children** are found among the blocks that begin at their addresses. -/
theorem childAt?_eq (h : I.Of tree) (hb : b ∈ tree.preorder) (addr : Addr) :
    I.childAt? b.id addr = pure ((b.childAt? addr).map (·.id)) := by
  rw [childAt?, h.blocksAt_eq, find?_eq (h.getElem?_filter addr)]
  refine congrArg _ ?_
  have hchild : ∀ e ∈ (tree.entries none).filter (·.block.start == addr), e.parent = some b.id →
      e.block ∈ b.children ∧ e.block.start = addr := by
    intro e he hparent
    obtain ⟨he, hstart⟩ := List.mem_filter.mp he
    rcases Block.mem_entries.mp he with rfl | ⟨p, hp, hmem, hparent'⟩
    · cases hparent
    · obtain rfl := h.eq_of_id hp hb (Option.some.inj (hparent'.symm.trans hparent))
      exact ⟨hmem, eq_of_beq hstart⟩
  cases hfind : ((tree.entries none).filter (·.block.start == addr)).find?
      fun e => (BlockRecord.of e.block e.parent).parent == some b.id with
  | some e =>
      have hparent := List.find?_some hfind
      obtain ⟨hmem, rfl⟩ := hchild e (List.mem_of_find?_eq_some hfind) (eq_of_beq hparent)
      rw [h.tidy.childAt?_start hb hmem]
      rfl
  | none =>
      cases hb' : b.childAt? addr with
      | none => rfl
      | some c =>
          have hc : c ∈ b.children := List.mem_of_find?_eq_some hb'
          have hstart := List.find?_some hb'
          have hmem : ⟨c, some b.id⟩ ∈ (tree.entries none).filter (·.block.start == addr) :=
            List.mem_filter.mpr ⟨Block.mem_entries.mpr (.inr ⟨b, hb, hc, rfl⟩), hstart⟩
          exact absurd (beq_self_eq_true (some b.id)) (List.find?_eq_none.mp hfind _ hmem)

theorem guardedLoop?_eq (h : I.Of tree) (hb : b ∈ tree.preorder) (instrs : List Instruction) (i : Nat)
    (parent : Option Nat) :
    I.guardedLoop? instrs i (.of b parent) = pure ((b.guardedLoop? (instrs.drop i)).map (·.id)) := by
  rw [guardedLoop?, ← List.head?_drop]
  cases instrs.drop i with
  | nil => rfl
  | cons ins rest => exact h.find?_children hb _

theorem splitPoint?_eq (h : I.Of tree) (hb : b ∈ tree.preorder) (parent : Option Nat) :
    I.splitPoint? (.of b parent) = pure b.splitPoint? := by
  have hpoint : (BlockRecord.of b parent).continuePoint = b.continuePoint := rfl
  rw [splitPoint?, Block.splitPoint?, hpoint]
  cases b.continuePoint with
  | none => rfl
  | some point =>
      show (ite (b.start < point ∧ point ≤ b.stop) _ _ : Checked (Option Addr)) = _
      have hinside : I.find? (fun c => c.start < point && point ≤ c.stop) (BlockRecord.of b parent).children =
          pure ((b.children.find? fun c => c.start < point && point ≤ c.stop).map (·.id)) := h.find?_children hb _
      have hany : ∀ q : Block → Bool, (b.children.find? q).isSome = b.children.any q := fun q => by
        rw [Bool.eq_iff_iff, List.find?_isSome, List.any_eq_true]
      rw [hinside, pure_bind, Option.isSome_map, hany, Option.filter_some]
      have hrange : (b.start < point && point ≤ b.stop) = decide (b.start < point ∧ point ≤ b.stop) :=
        (Bool.decide_and _ _).symm
      rw [hrange]
      by_cases h : b.start < point ∧ point ≤ b.stop
      · rw [if_pos h, decide_eq_true h, Bool.true_and]
        cases b.children.any fun c => c.start < point && point ≤ c.stop <;> rfl
      · rw [if_neg h, decide_eq_false h]
        rfl

/-- **Listings** are those of the tree. -/
theorem lines_eq (h : I.Of tree) (lineBreaks : List LineBreak) (instrs : List Instruction) :
    I.lines lineBreaks instrs = pure (Listing.lines tree lineBreaks instrs) := by
  induction instrs with
  | nil => rfl
  | cons ins instrs ih =>
      rw [lines, h.blocksAt_eq, headers_eq (h.getElem?_filter ins.addr), pure_bind, ih, pure_bind, h.branches_eq]
      have hstarting : ((tree.entries none).filter (·.block.start == ins.addr)).map (·.block) =
          tree.startingAt ins.addr := by
        rw [Block.startingAt, Block.preorder, List.filter_map]
        rfl
      rw [hstarting, Listing.lines, Listing.lines, List.flatMap_cons]

end Of

end BlockIndex

end TorqueScript
