import TorqueScript.Proofs.ArenaJumps

/-!
# Classes of jumps in an arena

The blocks inside a block follow one after the other (`Arena.classifyAll_settles`): what is written for one of
them stays inside it, but for the continue point of the nearest loop.  So a whole tree is classified, block by
block (`Arena.classifies`).

* `Checked.blockTable_ends`: the arena of a stream ends up with the records of its block tree, or the stream is
  refused as it would be without an arena.
-/

namespace TorqueScript

namespace Arena

/-! ### Around a block -/

section Around

variable {exit : Addr → Option Addr} {records records' : List BlockRecord} {parent owner : Option Nat}
  {frame : Option LoopFrame} {aroundStop point : Option Addr} {f : Nat → BlockRecord → BlockRecord}

/-- The nearest loop from a block on outwards. -/
inductive Climbs (records : List BlockRecord) : Option Nat → Option Nat → Prop where
  | out : Climbs records none none
  | here {id : Nat} {r : BlockRecord} (h : records[id]? = some r) (hkind : r.kind = .loop) :
      Climbs records (some id) (some id)
  | up {id : Nat} {r : BlockRecord} {owner : Option Nat} (h : records[id]? = some r) (hkind : r.kind ≠ .loop)
      (howner : Climbs records r.parent owner) : Climbs records (some id) owner

/-- The end of the block, if it is conditional. -/
inductive Around (records : List BlockRecord) : Option Nat → Option Addr → Prop where
  | out : Around records none none
  | block {id : Nat} {r : BlockRecord} (h : records[id]? = some r) :
      Around records (some id) (if r.kind = .conditional then some r.stop else none)

/-- Only jumps and continue points have changed. -/
def Keeps (records records' : List BlockRecord) : Prop :=
  ∀ (k : Nat) (r : BlockRecord), records[k]? = some r → ∃ r' : BlockRecord, records'[k]? = some r' ∧
    r'.kind = r.kind ∧ r'.stop = r.stop ∧ r'.parent = r.parent

/-- Records that keep the shape of the tree may be changed again. -/
theorem Keeps.trans {records'' : List BlockRecord} (h : Keeps records records') (h' : Keeps records' records'') :
    Keeps records records'' := by
  intro k r hr
  obtain ⟨r', hr', hkind, hstop, hparent⟩ := h k r hr
  obtain ⟨r'', hr'', hkind', hstop', hparent'⟩ := h' k r' hr'
  exact ⟨r'', hr'', hkind'.trans hkind, hstop'.trans hstop, hparent'.trans hparent⟩

/-- Writing the jumps of one block keeps the shape of the tree. -/
theorem keeps_of_written {id : Nat} {branches : List Branch} {p : Option Addr}
    (hget : ∀ k, records'[k]? = records[k]?.map (written id owner branches p k)) : Keeps records records' := by
  intro k r hr
  exact ⟨written id owner branches p k r, by rw [hget, hr, Option.map_some], rfl, rfl, rfl⟩

/-- A climb to the loop is the same climb after changes that keep the shape. -/
theorem Climbs.keep (h : Climbs records parent owner) (hkeeps : Keeps records records') :
    Climbs records' parent owner := by
  induction h with
  | out => exact .out
  | here hr hkind =>
      obtain ⟨r', hr', hkind', -, -⟩ := hkeeps _ _ hr
      exact .here hr' (hkind'.trans hkind)
  | up hr hkind _ ih =>
      obtain ⟨r', hr', hkind', -, hparent⟩ := hkeeps _ _ hr
      exact .up hr' (hkind' ▸ hkind) (hparent ▸ ih)

/-- What is around a block is around it after such changes. -/
theorem Around.keep (h : Around records parent aroundStop) (hkeeps : Keeps records records') :
    Around records' parent aroundStop := by
  cases h with
  | out => exact .out
  | block hr =>
      obtain ⟨r', hr', hkind, hstop, -⟩ := hkeeps _ _ hr
      rw [← hkind, ← hstop]
      exact .block hr'

/-- The climb to the loop ends, and at the owner. -/
theorem loopFrom_ends (h : Climbs records parent owner) :
    Checked.Ends (fun steps => loopFrom steps parent records) (pure (owner, records)) := by
  induction h with
  | out => exact .succ (.const _)
  | here hr hkind =>
      refine .succ ?_
      simp only [loopFrom, bind_apply, fetch_eq hr, pure_bind, hkind, if_true]
      exact .const _
  | up hr hkind _ ih =>
      refine .succ ?_
      simp only [loopFrom, bind_apply, fetch_eq hr, pure_bind, hkind, if_false]
      exact ih

/-- The end of the block around is read from the records. -/
theorem stopAround_eq (h : Around records parent aroundStop) :
    stopAround parent records = pure (aroundStop, records) := by
  cases h with
  | out => rfl
  | block hr =>
      rw [stopAround, bind_apply, fetch_eq hr, pure_bind]
      rfl

/-- The record of the nearest loop gets the continue point. -/
def served (owner : Option Nat) (point : Option Addr) (k : Nat) (r : BlockRecord) : BlockRecord :=
  { r with continuePoint := if owner = some k then point else r.continuePoint }

/-- Blocks other than the owner are served nothing. -/
theorem served_of_ne {k : Nat} (h : owner ≠ some k) (r : BlockRecord) : served owner point k r = r := by
  rw [served, if_neg h]

theorem map_served_of_ne {k : Nat} (h : owner ≠ some k) (r : Option BlockRecord) :
    r.map (served owner point k) = r := by
  rw [Option.map_congr fun s _ => served_of_ne h s, Option.map_id']

/-- Serving twice is serving once. -/
theorem served_served {p : Option Addr} (k : Nat) (r : BlockRecord) :
    served owner p k (served owner point k r) = served owner p k r := by
  unfold served
  split <;> rfl

/-- What the owner is served and what is written to another block may be exchanged. -/
theorem served_written {id : Nat} {branches : List Branch} {first p : Option Addr} {k : Nat} (hk : k ≠ id)
    (r : BlockRecord) : served owner p k (written id owner branches first k r) = served owner p k r := by
  rw [served, served, written, if_neg hk]
  split <;> rfl

/-- What is written to one block is not seen in others, the owner aside. -/
theorem written_of_ne {id : Nat} {branches : List Branch} {first : Option Addr} {k : Nat} (hk : k ≠ id)
    (howner : owner ≠ some k) (r : BlockRecord) : written id owner branches first k r = r := by
  rw [written, if_neg hk, if_neg howner]

/-- What is known already is written down. -/
theorem Serves.map_served (h : Serves exit records owner frame point) (k : Nat) :
    records[k]?.map (served owner point k) = records[k]? := by
  cases h with
  | nowhere =>
      have hne : (none : Option Nat) ≠ some k := nofun
      exact map_served_of_ne hne _
  | @loop id r hr =>
      by_cases hk : k = id
      · subst hk
        rw [hr, Option.map_some, served, if_pos rfl]
      · exact map_served_of_ne (fun h => hk (Option.some.inj h).symm) _

/-- What is written down for the nearest loop is known afterwards. -/
theorem Serves.served {ids : List Nat} {p : Option Addr} (h : Serves exit records owner frame point)
    (howner : ∀ id ∈ owner, id ∉ ids) (hp : owner = none → p = none)
    (hget : ∀ k, k ∉ ids → records'[k]? = records[k]?.map (Arena.served owner p k)) :
    Serves exit records' owner frame p := by
  cases h with
  | nowhere =>
      rw [hp rfl]
      exact .nowhere
  | @loop id r hr =>
      have hr' := hget id (howner id rfl)
      rw [hr, Option.map_some] at hr'
      have hpoint : (Arena.served (some id) p id r).continuePoint = p := if_pos rfl
      have hserves : Serves exit records' (some id) (some ⟨exit r.stop⟩) (Arena.served (some id) p id r).continuePoint :=
        .loop hr'
      rwa [hpoint] at hserves

/-- What is known of a block when its turn comes. -/
structure Reached (exit : Addr → Option Addr) (records : List BlockRecord) (parent owner : Option Nat)
    (frame : Option LoopFrame) (aroundStop point : Option Addr) : Prop where
  climbs : Climbs records parent owner
  around : Around records parent aroundStop
  serves : Serves exit records owner frame point

/-- The blocks get into the arena, and outside of the given numbers only the continue point of the nearest loop
changes. -/
def Settles (x : Nat → Arena Unit) (records : List BlockRecord) (ids : List Nat) (parent owner : Option Nat)
    (bs : List Block) (point : Option Addr) : Prop :=
  ∃ records', Checked.Ends (fun steps => x steps records) (pure ((), records')) ∧
    (∀ b ∈ bs, b.Stores records' parent) ∧
    (∀ k, k ∉ ids → records'[k]? = records[k]?.map (served owner point k)) ∧ Keeps records records'

end Around

/-! ### Trees -/

/-- Nothing is known of the block and of the blocks inside it but where they are, and they have different
numbers. -/
structure Fresh (b : Block) : Prop where
  nodup : b.ids.Nodup
  unset : ∀ c ∈ b.preorder, c.continuePoint = none
  sorted : ∀ c ∈ b.preorder, c.branches.Pairwise (·.addr < ·.addr)

/-- The children of a block with fresh identifiers have fresh ones, and other ones than the block. -/
theorem Fresh.children {b : Block} (h : Fresh b) : (b.children.flatMap Block.ids).Nodup ∧
    b.id ∉ b.children.flatMap Block.ids ∧ ∀ c ∈ b.children, Fresh c := by
  have hnodup := h.nodup
  rw [Block.ids_eq, List.nodup_cons] at hnodup
  refine ⟨hnodup.2, hnodup.1, fun c hc => ⟨?_, fun d hd => h.unset d ?_, fun d hd => h.sorted d ?_⟩⟩
  · exact (List.nodup_flatMap.mp hnodup.2).1 c hc
  · exact Block.mem_preorder.mpr (.inr ⟨c, hc, hd⟩)
  · exact Block.mem_preorder.mpr (.inr ⟨c, hc, hd⟩)

/-- A block is classified whenever its turn comes. -/
def Classifies (exit : Addr → Option Addr) (b : Block) : Prop :=
  ∀ {records : List BlockRecord} {parent owner : Option Nat} {frame : Option LoopFrame} {aroundStop point : Option Addr},
    Reached exit records parent owner frame aroundStop point → b.Stores records parent → Fresh b →
    (∀ id ∈ owner, id ∉ b.ids) →
    Settles (fun steps => classify exit steps b.id) records b.ids parent owner
      [(b.classify exit frame aroundStop point).1] (b.classify exit frame aroundStop point).2

section Trees

variable {exit : Addr → Option Addr} {records : List BlockRecord} {parent owner : Option Nat}
  {frame : Option LoopFrame} {aroundStop point : Option Addr} {b : Block} {bs : List Block}

/-- Classifying keeps the identifiers of a tree. -/
theorem ids_classify (b : Block) : (b.classify exit frame aroundStop point).1.ids = b.ids := by
  have hrecast : b.Recast (b.classify exit frame aroundStop point).1 := ⟨_, _, _, _, rfl⟩
  have hids := congrArg (List.map (·.id)) hrecast.map_bare_preorder
  rw [List.map_map, List.map_map] at hids
  exact hids.symm

theorem map_id_classifyAll (bs : List Block) :
    (Block.classifyAll exit frame aroundStop point bs).1.map (·.id) = bs.map (·.id) := by
  induction bs generalizing point with
  | nil => rfl
  | cons b bs ih =>
      have hrecast : b.Recast (b.classify exit frame aroundStop point).1 := ⟨_, _, _, _, rfl⟩
      have hid : b.id = (b.classify exit frame aroundStop point).1.id := congrArg (·.id) hrecast.same.1
      rw [List.map_cons, hid, ← ih]
      rfl

/-- Outside of loops no block leaves a continue point behind. -/
theorem point_classify_of_none (h : Serves exit records owner frame point) (b : Block) (howner : owner = none) :
    (b.classify exit frame aroundStop point).2 = none := by
  subst howner
  cases h
  exact (Block.grounded_classify exit b aroundStop).1

/-- **Neighbours.**  What is written for one block leaves the blocks beside it as they are. -/
theorem classifyAll_settles (h : ∀ b ∈ bs, Classifies exit b)
    (hreached : Reached exit records parent owner frame aroundStop point)
    (hstores : ∀ b ∈ bs, b.Stores records parent) (hfresh : ∀ b ∈ bs, Fresh b)
    (hnodup : (bs.flatMap Block.ids).Nodup) (howner : ∀ id ∈ owner, id ∉ bs.flatMap Block.ids) :
    Settles (fun steps => each (classify exit steps) (bs.map (·.id))) records (bs.flatMap Block.ids) parent owner
      (Block.classifyAll exit frame aroundStop point bs).1 (Block.classifyAll exit frame aroundStop point bs).2 := by
  induction bs generalizing records point with
  | nil =>
      exact ⟨records, .const _, nofun, fun k _ => (hreached.serves.map_served k).symm, fun k r hr =>
        ⟨r, hr, rfl, rfl, rfl⟩⟩
  | cons b bs ih =>
      obtain ⟨hb, hbs⟩ := List.forall_mem_cons.mp h
      obtain ⟨hbstores, hbsstores⟩ := List.forall_mem_cons.mp hstores
      obtain ⟨hbfresh, hbsfresh⟩ := List.forall_mem_cons.mp hfresh
      rw [List.flatMap_cons] at hnodup howner
      obtain ⟨-, hnodup', hdisjoint⟩ := List.nodup_append.mp hnodup
      have howner₁ : ∀ id ∈ owner, id ∉ b.ids := fun id hid h => howner id hid (List.mem_append_left _ h)
      have howner₂ : ∀ id ∈ owner, id ∉ bs.flatMap Block.ids := fun id hid h => howner id hid (List.mem_append_right _ h)
      obtain ⟨records₁, hends, hstored, hsame, hkeeps⟩ := hb hreached hbstores hbfresh howner₁
      have hserves := hreached.serves.served howner₁ (point_classify_of_none hreached.serves b) hsame
      have hreached₁ : Reached exit records₁ parent owner frame aroundStop (b.classify exit frame aroundStop point).2 :=
        ⟨hreached.climbs.keep hkeeps, hreached.around.keep hkeeps, hserves⟩
      have hstores₁ : ∀ c ∈ bs, c.Stores records₁ parent := by
        intro c hc
        refine (hbsstores c hc).congr fun k hk => ?_
        have hmem : k ∈ bs.flatMap Block.ids := List.mem_flatMap.mpr ⟨c, hc, hk⟩
        rw [hsame k fun hkb => hdisjoint k hkb k hmem rfl]
        exact map_served_of_ne (fun h => howner₂ k h hmem) _
      obtain ⟨records₂, hends', hstored', hsame', hkeeps'⟩ := ih hbs hreached₁ hstores₁ hbsfresh hnodup' howner₂
      refine ⟨records₂, ?_, ?_, ?_, hkeeps.trans hkeeps'⟩
      · exact hends.bind hends'
      · refine List.forall_mem_cons.mpr ⟨?_, hstored'⟩
        refine (hstored _ List.mem_cons_self).congr fun k hk => ?_
        rw [ids_classify] at hk
        rw [hsame' k fun hmem => hdisjoint k hk k hmem rfl]
        exact map_served_of_ne (fun h => howner₁ k h hk) _
      · intro k hk
        rw [List.flatMap_cons, List.mem_append, not_or] at hk
        rw [hsame' k hk.2, hsame k hk.1, Option.map_map]
        exact Option.map_congr fun r _ => served_served k r

/-- The jumps of a block and the blocks inside it are classified. -/
theorem classifyInside_ends (aroundStop : Option Addr) (h : ∀ c ∈ b.children, Classifies exit c)
    (hstores : b.Stores records parent) (hfresh : Fresh b) (hserves : Serves exit records owner frame point)
    (hkind : owner = none → b.kind ≠ .loop)
    (hclimbs : ∀ records', Keeps records records' → Climbs records' (some b.id) owner)
    (howner : ∀ id ∈ owner, id ∉ b.children.flatMap Block.ids) {branches : List Branch} {first : Option Addr}
    (hfirst : first = Block.firstRound? (judged (.of b parent) aroundStop frame))
    (hbranches : branches = (judged (.of b parent) aroundStop frame).map (·.settle (point.or first)))
    {classified : List Block × Option Addr}
    (hclassified : classified = Block.classifyAll exit frame b.stopInside (point.or first) b.children) :
    ∃ records', Checked.Ends (fun steps =>
        classifyInside (classify exit steps) exit b.id (.of b parent) aroundStop owner records) (pure ((), records')) ∧
      (∀ c ∈ classified.1, c.Stores records' (some b.id)) ∧
      (∀ k, k ∉ b.children.flatMap Block.ids → records'[k]? =
        (records[k]?.map (written b.id owner branches first k)).map (served owner classified.2 k)) ∧
      Keeps records records' := by
  obtain ⟨hget, hchildren⟩ := Block.stores_iff.mp hstores
  obtain ⟨hnodup, hself, hfreshes⟩ := hfresh.children
  have hsorted : b.branches.Pairwise (·.addr < ·.addr) := hfresh.sorted b b.self_mem_preorder
  obtain ⟨records₁, hown, hsame⟩ := ownJumps_changes aroundStop hget hsorted hserves hkind
  rw [← hfirst] at hsame
  rw [← hbranches] at hsame
  have hkeeps := keeps_of_written hsame
  have hget₁ := hsame b.id
  rw [hget, Option.map_some] at hget₁
  have hreached : Reached exit records₁ (some b.id) owner frame b.stopInside (point.or first) := by
    refine ⟨hclimbs records₁ hkeeps, .block hget₁, hserves.written hsame fun hnone => ?_⟩
    rw [hfirst]
    exact firstRound?_judged hserves hkind hnone
  have hstores₁ : ∀ c ∈ b.children, c.Stores records₁ (some b.id) := by
    intro c hc
    refine (hchildren c hc).congr fun k hk => ?_
    have hmem : k ∈ b.children.flatMap Block.ids := List.mem_flatMap.mpr ⟨c, hc, hk⟩
    have hne : k ≠ b.id := fun heq => hself (heq ▸ hmem)
    rw [hsame, Option.map_congr fun r _ => written_of_ne hne (fun h => howner k h hmem) r, Option.map_id']
  obtain ⟨records₂, hends, hstored, hrest, hkeeps'⟩ :=
    classifyAll_settles h hreached hstores₁ hfreshes hnodup howner
  rw [← hclassified] at hstored hrest
  refine ⟨records₂, ?_, hstored, fun k hk => (hrest k hk).trans (by rw [hsame]), hkeeps.trans hkeeps'⟩
  have hrun : ∀ visit : Nat → Arena Unit,
      classifyInside visit exit b.id (.of b parent) aroundStop owner records =
        each visit (b.children.map (·.id)) records₁ := by
    intro visit
    show (each _ _ >>= fun _ => settle b.id owner >>= fun _ => fetch b.id >>= fun r => each visit r.children) _ = _
    rw [← bind_assoc, bind_apply, hown, pure_bind, bind_apply, fetch_eq hget₁, pure_bind]
    rfl
  exact hends.congr fun steps => hrun (classify exit steps)

/-- A block that is no loop is classified within the loop around it. -/
theorem classify_of_ne_loop (hkind : b.kind ≠ .loop) {first : Option Addr}
    (hfirst : first = Block.firstRound? (judged (.of b parent) aroundStop frame))
    {classified : List Block × Option Addr}
    (hclassified : classified = Block.classifyAll exit frame b.stopInside (point.or first) b.children) :
    b.classify exit frame aroundStop point =
      ({ b with
          branches := (judged (.of b parent) aroundStop frame).map (·.settle (point.or first))
          children := classified.1 }, classified.2) := by
  subst hclassified hfirst
  obtain ⟨id, kind, start, stop, branches, continuePoint, children⟩ := b
  cases kind with
  | loop => exact absurd rfl hkind
  | root | conditional =>
      rw [Block.classify]
      · rfl
      · exact BlockKind.noConfusion

/-- A jump of a loop never leads over an alternative. -/
theorem settle_judge_loop {stop : Addr} (p : Option Addr) (j : Branch) :
    (j.judge .loop stop aroundStop frame).settle p = j.judge .loop stop aroundStop frame := by
  refine if_neg fun h => ?_
  have hkind : (if j.target ≤ stop then BranchKind.nextRound else .leave) = .alternative := h.1
  split at hkind <;> cases hkind

/-- A loop is classified as a loop of its own. -/
theorem classify_of_loop (hkind : b.kind = .loop) {first : Option Addr}
    (hfirst : first = Block.firstRound? (judged (.of b parent) aroundStop (some ⟨exit b.stop⟩)))
    {classified : List Block × Option Addr}
    (hclassified : classified = Block.classifyAll exit (some ⟨exit b.stop⟩) b.stopInside first b.children) :
    b.classify exit frame aroundStop point =
      ({ b with
          branches := (judged (.of b parent) aroundStop (some ⟨exit b.stop⟩)).map (·.settle first)
          continuePoint := classified.2
          children := classified.1 }, point) := by
  subst hclassified hfirst
  obtain ⟨id, kind, start, stop, branches, continuePoint, children⟩ := b
  cases hkind
  have hsettle : ∀ p : Option Addr, (branches.map (Branch.judge .loop stop aroundStop (some ⟨exit stop⟩))).map
      (·.settle p) = branches.map (Branch.judge .loop stop aroundStop (some ⟨exit stop⟩)) := by
    intro p
    rw [List.map_map]
    exact List.map_congr_left fun j _ => settle_judge_loop p j
  rw [Block.classify]
  exact congrArg (fun bs => (({ id, kind := .loop, start, stop, branches := bs, .. } : Block), point))
    (hsettle _).symm

/-- The record of a classified block is that of the block with its jumps and continue point replaced. -/
theorem of_classified {branches : List Branch} {first : Option Addr} {children : List Block} (parent : Option Nat)
    (h : children.map (·.id) = b.children.map (·.id)) :
    BlockRecord.of { b with branches, continuePoint := first, children } parent =
      { BlockRecord.of b parent with branches, continuePoint := first } := by
  rw [BlockRecord.of, h]
  rfl

/-- One call of the classification looks up the owner, treats the jumps and goes on to the children. -/
theorem classify_succ (hget : records[b.id]? = some (.of b parent)) (haround : Around records parent aroundStop)
    (steps : Nat) : classify exit (steps + 1) b.id records =
      (if b.kind = .loop then pure (some b.id) else loopFrom steps parent : Arena (Option Nat)) records >>= fun p =>
        classifyInside (classify exit steps) exit b.id (.of b parent) aroundStop p.1 p.2 := by
  rw [classify, bind_apply, fetch_eq hget, pure_bind, bind_apply]
  show (stopAround parent records >>= _) = _
  rw [stopAround_eq haround, pure_bind]
  show (ite (b.kind = .loop) _ _ : Arena Unit) records = _
  by_cases hkind : b.kind = .loop
  · rw [if_pos hkind, if_pos hkind]
    rfl
  · rw [if_neg hkind, if_neg hkind]
    rfl

/-- **Classes.**  Whenever the turn of a block comes, it and the blocks inside it are classified. -/
theorem classifies (exit : Addr → Option Addr) (b : Block) : Classifies exit b := by
  induction b using Block.childrenInduction with
  | h b ih =>
      intro records parent owner frame aroundStop point hreached hstores hfresh howner
      obtain ⟨hget, -⟩ := Block.stores_iff.mp hstores
      obtain ⟨-, hself, -⟩ := hfresh.children
      have hinside : ∀ k, k ∉ b.ids → k ≠ b.id ∧ k ∉ b.children.flatMap Block.ids := by
        intro k hk
        rwa [Block.ids_eq, List.mem_cons, not_or] at hk
      by_cases hkind : b.kind = .loop
      · -- a loop is the nearest one for its own jumps
        have howner' : ∀ id ∈ some b.id, id ∉ b.children.flatMap Block.ids := fun id hid => Option.some.inj hid ▸ hself
        have hclimbs : ∀ records', Keeps records records' → Climbs records' (some b.id) (some b.id) := by
          intro records' hkeeps
          obtain ⟨r, hr, hkind', -, -⟩ := hkeeps _ _ hget
          exact .here hr (hkind'.trans hkind)
        have hserves : Serves exit records (some b.id) (some ⟨exit b.stop⟩) none := by
          rw [← hfresh.unset b b.self_mem_preorder]
          exact .loop hget
        obtain ⟨first, hfirst⟩ : ∃ first,
          first = Block.firstRound? (judged (.of b parent) aroundStop (some ⟨exit b.stop⟩)) := ⟨_, rfl⟩
        obtain ⟨classified, hclassified⟩ : ∃ classified, classified =
          Block.classifyAll exit (some ⟨exit b.stop⟩) b.stopInside first b.children := ⟨_, rfl⟩
        obtain ⟨records', hends, hstored, hrest, hkeeps⟩ := classifyInside_ends aroundStop ih hstores hfresh
          hserves (fun h => nomatch h) hclimbs howner' hfirst rfl hclassified
        rw [classify_of_loop hkind hfirst hclassified]
        refine ⟨records', .succ ?_, List.forall_mem_singleton.mpr (Block.stores_iff.mpr ⟨?_, hstored⟩), ?_, hkeeps⟩
        · simp only [classify_succ hget hreached.around, if_pos hkind]
          exact hends
        · refine (hrest b.id hself).trans ?_
          rw [of_classified parent (hclassified ▸ map_id_classifyAll b.children), hget]
          simp only [Option.map_some, served, written, if_true, Option.none_or]
        · intro k hk
          have hne : some b.id ≠ some k := fun h => (hinside k hk).1 (Option.some.inj h).symm
          rw [hrest k (hinside k hk).2, map_served_of_ne hne,
            Option.map_congr fun r _ => written_of_ne (hinside k hk).1 hne r, Option.map_id']
          exact (hreached.serves.map_served k).symm
      · have hne : owner ≠ some b.id := fun h => howner b.id h b.id_mem_ids
        have howner' : ∀ id ∈ owner, id ∉ b.children.flatMap Block.ids := fun id hid => (hinside id (howner id hid)).2
        have hclimbs : ∀ records', Keeps records records' → Climbs records' (some b.id) owner := by
          intro records' hkeeps
          obtain ⟨r, hr, hkind', -, hparent⟩ := hkeeps _ _ hget
          exact .up hr (hkind' ▸ hkind) (hparent ▸ hreached.climbs.keep hkeeps)
        obtain ⟨first, hfirst⟩ : ∃ first, first = Block.firstRound? (judged (.of b parent) aroundStop frame) := ⟨_, rfl⟩
        obtain ⟨classified, hclassified⟩ : ∃ classified, classified =
          Block.classifyAll exit frame b.stopInside (point.or first) b.children := ⟨_, rfl⟩
        obtain ⟨records', hends, hstored, hrest, hkeeps⟩ := classifyInside_ends aroundStop ih hstores hfresh
          hreached.serves (fun _ => hkind) hclimbs howner' hfirst rfl hclassified
        rw [classify_of_ne_loop hkind hfirst hclassified]
        refine ⟨records', .succ ?_, List.forall_mem_singleton.mpr (Block.stores_iff.mpr ⟨?_, hstored⟩), ?_, hkeeps⟩
        · simp only [classify_succ hget hreached.around, if_neg hkind]
          exact (loopFrom_ends hreached.climbs).bind hends
        · refine (hrest b.id hself).trans ?_
          rw [of_classified parent (hclassified ▸ map_id_classifyAll b.children), hget, Option.map_some,
            Option.map_some, served_of_ne hne, written, if_pos rfl, if_neg hne]
          rfl
        · intro k hk
          rw [hrest k (hinside k hk).2, Option.map_map]
          exact Option.map_congr fun r _ => served_written (hinside k hk).1 r

end Trees

end Arena

namespace Checked

/-- The records of the blocks of a stream, with classified jumps. -/
def blockTable (instrs : List Instruction) (steps : Nat) : Checked (List BlockRecord) := do
  let records ← nested instrs
  Prod.snd <$> Arena.classify (Stream.after? instrs) steps 0 records

/-- The arena ends up with the records of the block tree, or the stream is refused for the same reason. -/
theorem blockTable_ends {instrs : List Instruction} (hincreasing : Stream.Increasing instrs) :
    (∃ e, Stream.blockTree instrs = .error e ∧ ∀ steps, blockTable instrs steps = throw e) ∨
      ∃ tree records, Stream.blockTree instrs = .ok tree ∧ Ends (blockTable instrs) (pure records) ∧
        tree.Stores records none := by
  rcases nested_tracks hincreasing with ⟨e, hnest, hnested⟩ | ⟨records, tree, hnest, hnested, hholds⟩
  · refine .inl ⟨e, Stream.blockTree_of_nest_error hnest, fun steps => ?_⟩
    rw [blockTable, hnested]
    rfl
  · have htree := Stream.blockTree_of_nest_ok hnest
    obtain ⟨made, nested', -, -, hnest', hassembles, -⟩ := Stream.assembles_of_blockTree hincreasing htree
    obtain rfl : nested' = tree := Except.ok.inj (hnest'.symm.trans hnest)
    have hstores := hholds.stored nested' List.mem_cons_self
    have hfresh : Arena.Fresh nested' := by
      refine ⟨by simpa using hholds.apart, fun c hc => ?_, fun c hc => (hassembles.tidy c hc).sorted⟩
      rw [← Block.map_block_entries none, List.mem_map] at hc
      obtain ⟨entry, hentry, rfl⟩ := hc
      exact hholds.unset _ (List.mem_of_getElem? (hstores entry hentry))
    obtain ⟨records', hends, hstored, -, -⟩ := Arena.classifies (Stream.after? instrs) nested' ⟨.out, .out, .nowhere⟩
      hstores hfresh (fun _ h => nomatch h)
    have hid : nested'.id = 0 := congrArg (·.id) hassembles.bare_eq
    rw [hid] at hends
    refine .inr ⟨_, records', htree, ?_, hstored _ List.mem_cons_self⟩
    refine (hends.map Prod.snd).congr fun steps => ?_
    rw [blockTable, hnested, pure_bind]

end Checked

end TorqueScript
