import TorqueScript.Proofs.ObjectCode
import TorqueScript.Proofs.ContinuedRegions

/-!
# Object declarations

The jumps in the code of an object declaration stay inside it, so it is read as what it is behind everything that
comes to an end.  `Stream.Completes` says that a stream consists of complete statements.

**Declarations** (`ObjectTree.statements_object`).  Behind any complete statements a compiled declaration is read as
its node, with depth zero.
-/

namespace TorqueScript

open Rebuild

/-! ### Jumps in the code -/

section Jumps

open Fragment

variable {fail : Nat → Addr}

/-- The jump that creation is given leads nowhere in the code. -/
theorem Fragment.Straight.create (parent : Option String) (isDatablock : Bool) :
    (create fail parent isDatablock).Straight 1 := by
  intro L exit pos ins h kind target hjump
  obtain rfl := List.mem_singleton.mp h
  cases hjump

/-- The code of a field is straight. -/
theorem OwnField.straight_code (field : OwnField) : field.code.Straight 1 := by
  have hop : ∀ {o : Operation}, o.isJump = false → (op o).Straight 1 := .op
  unfold OwnField.code
  split
  · apply_rules [Straight.join]
  · next index _ =>
      have hindex := index.2.straight .read
      apply_rules [Straight.join]

/-- The code of a store is straight if that of its value is. -/
theorem OwnField.straight_storeCode (field : OwnField) (update : Option CompoundOp) {value : Fragment}
    (h : value.Straight 1) : (field.storeCode update value).Straight 1 := by
  have hop : ∀ {o : Operation}, o.isJump = false → (op o).Straight 1 := .op
  have htyped : ∀ {o : ValueType → Operation}, (∀ type, (o type).isJump = false) → (typed o).Straight 1 := .typed
  have hfield := field.straight_code
  unfold OwnField.storeCode
  split
  · apply_rules [Straight.join]
  · apply_rules [Straight.join]

mutual

/-- The only jumps in the code of an object declaration are those of `&&` and `||`. -/
theorem ObjectTree.straight (outermost : Bool) : ∀ tree : ObjectTree, (tree.code fail outermost).Straight 1
  | .object className slot parent isDatablock fields children => by
      have hop : ∀ {o : Operation}, o.isJump = false → (op o).Straight 1 := .op
      have hplace : (if outermost then op (.immediateUint 0) else empty).Straight 1 := by
        split
        · exact .op rfl
        · exact .empty
      have hargs : (Node.argumentCode (className.1 :: slot.pushed)).Straight 1 :=
        Node.Straight.argumentCode fun a ha => (normal_of_mem className slot a ha).straight .read
      have hcreate : (create fail parent isDatablock).Straight 1 := .create parent isDatablock
      have hfields := straight_fieldsCode fields
      have hchildren := straight_childrenCode children
      rw [ObjectTree.code]
      apply_rules [Straight.join]

/-- Field stores are straight. -/
theorem FieldStore.straight : ∀ store : FieldStore, (store.code fail).Straight 1
  | .expression field update value => field.straight_storeCode update (value.2.straight .read)
  | .object field update value => field.straight_storeCode update (value.straight true)

/-- So are several of them. -/
theorem straight_fieldsCode : ∀ stores : List FieldStore, (fieldsCode fail stores).Straight 1
  | [] => .empty
  | store :: stores => store.straight.join (straight_fieldsCode stores)

/-- Children are straight. -/
theorem straight_childrenCode : ∀ children : List ObjectTree, (childrenCode fail children).Straight 1
  | [] => .empty
  | child :: children => (child.straight false).join (straight_childrenCode children)

end

/-- **An object is straight as a whole.** -/
theorem ObjectTree.straight_statementCode (tree : ObjectTree) : (tree.statementCode fail).Straight 0 :=
  (tree.straight true).append (.typed fun _ => rfl) (Nat.le_refl 1)

/-- Straight-line code at the first position is closed. -/
theorem Fragment.Straight.closed {f : Fragment} (h : f.Straight 0) (L : Placement) (exit : Addr) :
    Stream.Closed (f.code L exit 0) := by
  intro ins hins kind target hjump
  obtain ⟨hkind, i, hi, rfl⟩ := h L exit 0 ins hins kind target hjump
  exact ⟨hkind, occurs_code (Nat.zero_le i) hi⟩

end Jumps

/-! ### Complete statements -/

namespace Stream

/-- An instruction that does nothing. -/
def idle (a : Addr) : Instruction :=
  ⟨a, 1, default, .debugBreak⟩

/-- The instructions are the statements `nodes`, complete in front of the address `a`: when an instruction there
that does nothing has been run, the statements are on the stack, and nothing is open or waits for something. -/
structure Completes (front : List Instruction) (a : Addr) (nodes : List Node) : Prop where
  increasing : Increasing (front ++ [idle a])
  rebuilt : ∃ tree, blockTree (front ++ [idle a]) = .ok tree ∧
    runAll (Region.ofStream tree (front ++ [idle a])) {} = .ok ((), ({} : State).pushAll nodes)

variable {front code : List Instruction} {nodes : List Node} {a : Addr} {y : Instruction}

/-- Behind complete statements closed code is run with just the statements on the stack. -/
theorem Completes.runAll_continued (h : Completes front a nodes) (hcontinues : Continues front (idle a) y code)
    (hlast : last (front ++ y :: code) < Addr.last) {t : State}
    (hrun : runAll ((y :: code).map .plain) (({} : State).pushAll nodes) = .ok ((), t)) :
    ∃ tree, blockTree (front ++ y :: code) = .ok tree ∧
      runAll (Region.ofStream tree (front ++ y :: code)) {} = .ok ((), t) := by
  obtain ⟨tree, htree, hrebuilt⟩ := h.rebuilt
  obtain ⟨regions, hregions, hcontinued⟩ := hcontinues.ofStream_eq hlast htree (listUnbroken_of_runAll _ hrebuilt)
  rw [hregions] at hrebuilt
  obtain ⟨u, hfirst, hidle⟩ := runAll_append_eq_ok hrebuilt
  -- what happens before the idle instruction happens before `y` as well
  have henter : enter y.addr u = .ok ((), ({} : State).pushAll nodes) := by
    rw [runAll_cons] at hidle
    obtain ⟨_, v, hplain, hnil⟩ := bind_eq_ok hidle
    obtain ⟨_, w, henter, hstep⟩ := bind_eq_ok (x := enter a) hplain
    cases hstep
    cases hnil
    rw [← hcontinues.addr_eq]
    exact henter
  have hself : enter y.addr (({} : State).pushAll nodes) = .ok ((), ({} : State).pushAll nodes) := rfl
  have hsame : Rebuild.run (.plain y) u = Rebuild.run (.plain y) (({} : State).pushAll nodes) := by
    rw [Rebuild.run, bind_ok henter, bind_ok hself]
  refine ⟨_, hcontinues.blockTree_eq htree, ?_⟩
  rw [hcontinued, runAll_append_ok hfirst, List.map_cons, runAll_cons]
  rw [List.map_cons, runAll_cons] at hrun
  obtain ⟨_, v, hy, hrest⟩ := bind_eq_ok hrun
  rw [bind_ok (hsame.trans hy), hrest]

/-- A run that leaves statements on the stack gives these statements. -/
theorem outcome_of_pushAll {instrs : List Instruction} {tree : Block} (htree : blockTree instrs = .ok tree)
    (hrun : runAll (Region.ofStream tree instrs) {} = .ok ((), ({} : State).pushAll nodes)) :
    (statements instrs).outcome.1 = .ok (groupPackages nodes) := by
  have hclose : StateT.run (run tree instrs) {} = .ok ((), ({} : State).pushAll nodes) := by
    rw [run]
    exact (bind_ok hrun).trans rfl
  have hprogram : program (last instrs) (({} : State).pushAll nodes) = .ok (groupPackages nodes) := by
    have hoperands : (({} : State).pushAll nodes).operands = nodes.reverse.map .node := by
      simp [State.pushAll]
    rw [program, hoperands, statements_nodes, List.reverse_reverse]
    rfl
  rw [Piece.outcome_statements htree hclose rfl rfl hprogram]

end Stream

/-- A statement that is neither a function nor a package stays apart from those in front of it. -/
theorem groupPackages_concat {n : Node} (hfunction : ∀ signature body, n ≠ .function signature body)
    (hpackage : ∀ name functions, n ≠ .package name functions) (ns : List Node) :
    groupPackages (ns ++ [n]) = groupPackages ns ++ [n] := by
  have hself : groupPackages [n] = [n] := by
    exact Piece.groupPackages_eq (List.forall_mem_singleton.mpr hfunction)
  induction ns with
  | nil => exact hself
  | cons m ns ih =>
      rw [List.cons_append]
      unfold groupPackages
      rw [ih]
      split
      · cases groupPackages ns with
        | nil =>
            cases n with
            | package name functions => exact absurd rfl (hpackage name functions)
            | _ => rfl
        | cons g gs =>
            cases g with
            | package name functions =>
                dsimp only [List.cons_append]
                split <;> rfl
            | _ => rfl
      · rfl

theorem Stream.last_of_append (front : List Instruction) (y : Instruction) (code : List Instruction) :
    ∃ ins ∈ y :: code, last (front ++ y :: code) = ins.addr := by
  refine ⟨(y :: code).getLast (by simp), List.getLast_mem _, ?_⟩
  rw [last, List.getLast?_append_of_ne_nil _ (by simp), List.getLast?_eq_some_getLast (by simp)]
  rfl

/-- Code behind complete statements continues them. -/
theorem Stream.Completes.continues {front code : List Instruction} {nodes : List Node} {y : Instruction}
    (h : Completes front y.addr nodes) (hcode : Increasing (y :: code)) (hclosed : Closed (y :: code)) :
    Continues front (idle y.addr) y code where
  increasing := by
    obtain ⟨hfront, -, hlt⟩ := List.pairwise_append.mp h.increasing
    refine List.pairwise_append.mpr ⟨hfront, hcode, fun x hx z hz => ?_⟩
    have hxy : x.addr < y.addr := hlt x hx (idle y.addr) List.mem_cons_self
    rcases List.mem_cons.mp hz with rfl | hz
    · exact hxy
    · exact hxy.trans ((List.pairwise_cons.mp hcode).1 z hz)
  addr_eq := rfl
  plain := rfl
  closed := hclosed

/-- The object is left behind the statements before it. -/
theorem ObjectTree.runAll_statementCode (tree : ObjectTree) (fail : Nat → Addr) (L : Placement) (exit : Addr)
    (nodes : List Node) :
    runAll (((tree.statementCode fail).code L exit 0).map .plain) (({} : State).pushAll nodes) =
      .ok ((), ({} : State).pushAll (nodes ++ [tree.node 0])) := by
  have hdrop : ∀ (ins : Instruction) (type : ValueType), ins.operation = .convert type none →
      step ins ((({} : State).pushAll nodes).push (tree.node 0)) =
        .ok ((), (({} : State).pushAll nodes).push (tree.node 0)) := by
    intro ins type hi
    simp only [step, hi]
    rfl
  have hquiet : ∀ b, Quiet b (({} : State).pushAll nodes) := fun b => ⟨rfl, by simp [State.pushAll]⟩
  have hperforms : Performs (tree.code fail true) (({} : State).pushAll nodes)
    ((({} : State).pushAll nodes).push (tree.node 0)) := tree.performs true _ rfl
  rw [State.pushAll_concat]
  exact hperforms.finishes_typed hdrop L exit 0 (hquiet _) _ (.refl _ _)

/-- **Object declarations round trip.**  Behind complete statements, the code of an object declaration is read as
the declaration, which has depth zero. -/
theorem ObjectTree.statements_object (tree : ObjectTree) (fail : Nat → Addr) (L : Placement) (exit : Addr)
    {front : List Instruction} {nodes : List Node} (h : Stream.Completes front (L.addr 0) nodes)
    (hbound : ∀ i < (tree.statementCode fail).size, L.addr i < Addr.last) :
    (Stream.statements (front ++ (tree.statementCode fail).code L exit 0)).outcome.1 =
      .ok (groupPackages nodes ++ [tree.node 0]) := by
  have hclosed : Stream.Closed ((tree.statementCode fail).code L exit 0) :=
    tree.straight_statementCode.closed L exit
  have hincreasing := (tree.statementCode fail).increasing_code L exit 0
  have hrun := tree.runAll_statementCode fail L exit nodes
  have hlast : ∀ ins ∈ (tree.statementCode fail).code L exit 0, ins.addr < Addr.last := by
    intro ins hins
    obtain ⟨i, -, hi, haddr⟩ := Fragment.addr_of_mem hins
    exact haddr ▸ hbound i (Nat.zero_add (tree.statementCode fail).size ▸ hi)
  have haddrs := (tree.statementCode fail).addrs L exit 0
  have hsize : (tree.statementCode fail).size = (tree.code fail true).size + 1 := rfl
  rw [hsize, List.range'_succ, List.map_cons] at haddrs
  generalize (tree.statementCode fail).code L exit 0 = code at *
  cases code with
  | nil => cases haddrs
  | cons y code =>
      have hy : y.addr = L.addr 0 := (List.cons.inj haddrs).1
      rw [← hy] at h
      have hbehind : Stream.last (front ++ y :: code) < Addr.last := by
        obtain ⟨ins, hins, heq⟩ := Stream.last_of_append front y code
        exact heq ▸ hlast ins hins
      obtain ⟨tree', htree, hrebuilt⟩ := h.runAll_continued (h.continues hincreasing hclosed) hbehind hrun
      rw [Stream.outcome_of_pushAll htree hrebuilt, groupPackages_concat]
      · cases tree
        exact fun _ _ => nofun
      · cases tree
        exact fun _ _ => nofun

/-- `new ScriptObject(Foo, 2) { bar = 1; kind[0] = new SimObject() { }; new SimObject(Child) { }; };` -/
def scriptObject : ObjectTree :=
  let simObject : Expression := ⟨.constant (.ident "SimObject"), .constant _⟩
  .object ⟨.constant (.ident "ScriptObject"), .constant _⟩
    (.present (some ⟨.constant (.ident "Foo"), .constant _, nofun⟩) [⟨.constant (.uint 2), .constant _⟩])
    none false
    [.expression ⟨"bar", none⟩ none ⟨.constant (.uint 1), .constant _⟩,
      .object ⟨"kind", some ⟨.constant (.uint 0), .constant _⟩⟩ none (.object simObject .absent none false [] [])]
    [.object simObject (.present (some ⟨.constant (.ident "Child"), .constant _, nofun⟩) []) none false [] []]

/-- `if (1) return;` in front of the address 3. -/
def earlyReturn : List Instruction :=
  [⟨0, 1, .loadImmedUint, .immediateUint 1⟩, ⟨1, 1, .jmpIfNot, .jump .ifNot 3⟩, ⟨2, 1, .ret, .ret false⟩]

/-- Instructions of one word each, from the address 3 on. -/
def Placement.fromThree : Placement where
  addr i := i + 3
  size _ := 1
  opcode _ := default
  type _ := default
  increasing := fun _ _ h => Nat.add_lt_add_right h 3

/-- A script object with a function and a child is given back behind an early return. -/
theorem ObjectTree.statements_object_scriptObject :
    Stream.Completes earlyReturn 3 [.ifElse (.constant (.uint 1)) [.ret none] []] ∧
      (Stream.statements (earlyReturn ++ (scriptObject.statementCode fun _ => 0).code .fromThree 0 0)).outcome.1 =
        .ok [.ifElse (.constant (.uint 1)) [.ret none] [],
          .object (.constant (.ident "ScriptObject")) (some (.constant (.ident "Foo"))) none false
            [.constant (.uint 2)]
            [.assign (.field none "bar" none) none (.constant (.uint 1)),
              .assign (.field none "kind" (some (.constant (.uint 0)))) none
                (.object (.constant (.ident "SimObject")) none none false [] [] [] 1)]
            [.object (.constant (.ident "SimObject")) (some (.constant (.ident "Child"))) none false [] [] [] 1]
            0] := by
  have hcompletes : Stream.Completes earlyReturn 3 [.ifElse (.constant (.uint 1)) [.ret none] []] := by
    refine ⟨?_, ⟨0, .root, 0, 3, [], none, [⟨1, .conditional, 1, 2, [], none, []⟩]⟩, by cbv, by cbv⟩
    unfold Stream.Increasing earlyReturn
    decide
  refine ⟨hcompletes, ?_⟩
  have hsize : (scriptObject.statementCode fun _ => 0).size = 40 := by cbv
  refine (scriptObject.statements_object (fun _ => 0) .fromThree 0 hcompletes fun i hi => ?_).trans ?_
  · rw [hsize] at hi
    show i + 3 < 4294967295
    omega
  · rfl

end TorqueScript
