import TorqueScript.Proofs.FunctionNesting

/-!
# Runs of functions of one package

Functions of a package are declared one after the other at the top level.  Grouping puts each run of functions
of the same package into a block of its own, and leaves everything else as it is.

`Rebuild.Grouping` says what a grouped list is: written out it is the list that was grouped, its packages hold
functions of their own, no such function stands outside, and no two neighbours are blocks of the same package.
There is only one such list (`Rebuild.Grouping.unique`), because a run is cut where its package ends
(`Rebuild.groupPackages_run`).

**Grouping** (`Rebuild.grouping_groupPackages`).  A list without packages is grouped in this way, and it makes
no difference if its members are taken from the front and each is put into the last block or behind it
(`Rebuild.gather`).
-/

namespace TorqueScript

namespace Node

/-- The package of a function that is declared in one. -/
def declaredIn? : Node → Option String
  | function s _ => s.package
  | _ => none

/-- The name of a package. -/
def packageName? : Node → Option String
  | package name _ => some name
  | _ => none

/-- The functions of a package; any other node by itself. -/
def members : Node → List Node
  | package _ functions => functions
  | n => [n]

variable {n : Node} {name : String}

theorem packageName?_eq_none (h : n.isPackage = false) : n.packageName? = none := by
  cases n <;> first | rfl | cases h

theorem members_eq (h : n.isPackage = false) : n.members = [n] := by
  cases n <;> first | rfl | cases h

theorem declaredIn?_eq_some (h : n.declaredIn? = some name) :
    ∃ s body, n = .function s body ∧ s.package = some name := by
  cases n with
  | function s body => exact ⟨s, body, rfl, h⟩
  | _ => cases h

theorem exists_of_isPackage (h : n.isPackage = true) : ∃ name functions, n = .package name functions := by
  cases n with
  | package name functions => exact ⟨name, functions, rfl⟩
  | _ => cases h

end Node

namespace Rebuild

open Node (declaredIn? packageName? members isPackage)

/-- The nodes are not blocks of the same package. -/
def Apart (a b : Node) : Prop :=
  ∀ name, a.packageName? = some name → b.packageName? ≠ some name

/-- A list of nodes with the runs of functions of one package put into blocks. -/
structure Grouping (nodes grouped : List Node) : Prop where
  members_eq : grouped.flatMap members = nodes
  inside : ∀ name functions, .package name functions ∈ grouped →
    functions ≠ [] ∧ ∀ f ∈ functions, f.declaredIn? = some name
  outside : ∀ n ∈ grouped, n.declaredIn? = none
  maximal : grouped.IsChain Apart

variable {name : String} {n : Node} {ns nodes grouped functions : List Node}

/-! ### Grouping one more node in front -/

theorem groupPackages_other (h : n.declaredIn? = none) : groupPackages (n :: ns) = n :: groupPackages ns := by
  rw [groupPackages]
  rintro name nameSpace package args body rfl
  cases h

theorem groupPackages_function (h : n.declaredIn? = some name) : groupPackages (n :: ns) =
    match groupPackages ns with
    | .package name' functions :: rest =>
      if name = name' then .package name (n :: functions) :: rest
      else .package name [n] :: .package name' functions :: rest
    | rest => .package name [n] :: rest := by
  obtain ⟨s, body, rfl, hs⟩ := Node.declaredIn?_eq_some h
  obtain ⟨_, _, _, _⟩ := s
  cases hs
  exact groupPackages.eq_def _

/-- In front of something else, a function makes a block of its own. -/
theorem groupPackages_first (h : n.declaredIn? = some name)
    (hns : ∀ m ∈ (groupPackages ns).head?, m.packageName? ≠ some name) :
    groupPackages (n :: ns) = .package name [n] :: groupPackages ns := by
  rw [groupPackages_function h]
  split
  · next name' functions rest heq =>
      rw [heq] at hns
      rw [heq, if_neg fun hname => hns _ rfl (congrArg some hname.symm)]
  · rfl

/-- In front of its package, a function is put into it. -/
theorem groupPackages_further {rest : List Node} (h : n.declaredIn? = some name)
    (hns : groupPackages ns = .package name functions :: rest) :
    groupPackages (n :: ns) = .package name (n :: functions) :: rest := by
  rw [groupPackages_function h, hns]
  exact if_pos rfl

/-- A block of the package stands at one end of a list. -/
theorem exists_block {m? : Option Node} (h : ¬ ∀ m ∈ m?, m.packageName? ≠ some name) :
    ∃ functions, m? = some (.package name functions) := by
  obtain ⟨m, rfl, hm⟩ : ∃ m, m? = some m ∧ m.packageName? = some name := by simpa using h
  cases m with
  | package _ functions => cases hm; exact ⟨functions, rfl⟩
  | _ => cases hm

/-- Grouping goes from the back to the front: a node is kept, makes a block of its own, or is put into the first
block. -/
theorem groupPackages_induction {motive : List Node → List Node → Prop} (nil : motive [] [])
    (other : ∀ n ns grouped, n.declaredIn? = none → motive ns grouped → motive (n :: ns) (n :: grouped))
    (first : ∀ name n ns grouped, n.declaredIn? = some name →
      (∀ m ∈ grouped.head?, m.packageName? ≠ some name) → motive ns grouped →
      motive (n :: ns) (.package name [n] :: grouped))
    (further : ∀ name n ns functions rest, n.declaredIn? = some name →
      motive ns (.package name functions :: rest) → motive (n :: ns) (.package name (n :: functions) :: rest))
    (nodes : List Node) : motive nodes (groupPackages nodes) := by
  induction nodes with
  | nil => exact nil
  | cons n ns ih =>
      cases hin : n.declaredIn? with
      | none => exact groupPackages_other hin ▸ other n ns _ hin ih
      | some name =>
          by_cases hnext : ∀ m ∈ (groupPackages ns).head?, m.packageName? ≠ some name
          · exact groupPackages_first hin hnext ▸ first name n ns _ hin hnext ih
          · obtain ⟨functions, hfunctions⟩ := exists_block hnext
            obtain ⟨rest, hrest⟩ := List.head?_eq_some_iff.mp hfunctions
            exact groupPackages_further hin hrest ▸ further name n ns functions rest hin (hrest ▸ ih)

/-- A run of functions of one package becomes one block, if something else comes behind it. -/
theorem groupPackages_run (hne : functions ≠ []) (h : ∀ f ∈ functions, f.declaredIn? = some name)
    (hns : ∀ m ∈ (groupPackages ns).head?, m.packageName? ≠ some name) :
    groupPackages (functions ++ ns) = .package name functions :: groupPackages ns := by
  induction functions with
  | nil => exact absurd rfl hne
  | cons f functions ih =>
      obtain ⟨hf, hfunctions⟩ := List.forall_mem_cons.mp h
      cases functions with
      | nil => exact groupPackages_first hf hns
      | cons g functions => exact groupPackages_further hf (ih (List.cons_ne_nil _ _) hfunctions)

/-! ### What grouping makes -/

namespace Grouping

variable {xs ys gx gy : List Node}

/-- Grouped lists, one behind the other, with no run that goes on from one to the other. -/
theorem append (hx : Grouping xs gx) (hy : Grouping ys gy) (h : ∀ a ∈ gx.getLast?, ∀ b ∈ gy.head?, Apart a b) :
    Grouping (xs ++ ys) (gx ++ gy) where
  members_eq := by rw [List.flatMap_append, hx.members_eq, hy.members_eq]
  inside name functions hmem := (List.mem_append.mp hmem).elim (hx.inside name functions) (hy.inside name functions)
  outside := List.forall_mem_append.mpr ⟨hx.outside, hy.outside⟩
  maximal := List.isChain_append.mpr ⟨hx.maximal, hy.maximal, h⟩

/-- The parts of a grouped list. -/
theorem exists_append (h : Grouping nodes (gx ++ gy)) : ∃ xs ys, nodes = xs ++ ys ∧ Grouping xs gx ∧ Grouping ys gy ∧
    ∀ a ∈ gx.getLast?, ∀ b ∈ gy.head?, Apart a b := by
  obtain ⟨hx, hy, hseam⟩ := List.isChain_append.mp h.maximal
  obtain ⟨houtside, houtside'⟩ := List.forall_mem_append.mp h.outside
  refine ⟨gx.flatMap members, gy.flatMap members, ?_, ⟨rfl, ?_, houtside, hx⟩, ⟨rfl, ?_, houtside', hy⟩, hseam⟩
  · rw [← h.members_eq, List.flatMap_append]
  · exact fun name functions hmem => h.inside name functions (List.mem_append_left _ hmem)
  · exact fun name functions hmem => h.inside name functions (List.mem_append_right _ hmem)

/-- A node of no package stands by itself. -/
theorem single (hn : n.isPackage = false) (hin : n.declaredIn? = none) : Grouping [n] [n] where
  members_eq := by rw [List.flatMap_singleton, Node.members_eq hn]
  inside name functions hmem := by
    rw [List.mem_singleton.mp hmem |>.symm] at hn
    cases hn
  outside := List.forall_mem_singleton.mpr hin
  maximal := .singleton n

/-- Functions of a package make a block. -/
theorem run (hne : functions ≠ []) (h : ∀ f ∈ functions, f.declaredIn? = some name) :
    Grouping functions [.package name functions] where
  members_eq := List.flatMap_singleton ..
  inside name' functions' hmem := by
    cases List.mem_singleton.mp hmem
    exact ⟨hne, h⟩
  outside := List.forall_mem_singleton.mpr rfl
  maximal := .singleton _

theorem apart_of_isPackage {a b : Node} (h : a.isPackage = false ∨ b.isPackage = false) : Apart a b := by
  intro name ha hb
  rcases h with h | h
  · rw [Node.packageName?_eq_none h] at ha
    cases ha
  · rw [Node.packageName?_eq_none h] at hb
    cases hb

/-- A function in front of its block is put into it. -/
theorem further (hin : n.declaredIn? = some name) (h : Grouping ns (.package name functions :: grouped)) :
    Grouping (n :: ns) (.package name (n :: functions) :: grouped) := by
  rw [← List.singleton_append] at h
  obtain ⟨xs, ys, rfl, hx, hy, hseam⟩ := exists_append h
  have hfunctions := (hx.inside name functions List.mem_cons_self).2
  have hrun := run (List.cons_ne_nil n functions) (List.forall_mem_cons.mpr ⟨hin, hfunctions⟩)
  have hxs : functions = xs := (List.flatMap_singleton ..).symm.trans hx.members_eq
  refine hxs ▸ hrun.append hy fun a ha b hb => ?_
  cases ha
  exact hseam (.package name functions) rfl b hb

/-- A function behind its block is put into it. -/
theorem furtherBehind (hin : n.declaredIn? = some name) (h : Grouping ns (grouped ++ [.package name functions])) :
    Grouping (ns ++ [n]) (grouped ++ [.package name (functions ++ [n])]) := by
  obtain ⟨xs, ys, rfl, hx, hy, hseam⟩ := exists_append h
  have hfunctions := (hy.inside name functions List.mem_cons_self).2
  have hrun := run (List.concat_ne_nil n functions)
    (List.forall_mem_append.mpr ⟨hfunctions, List.forall_mem_singleton.mpr hin⟩)
  have hys : functions = ys := (List.flatMap_singleton ..).symm.trans hy.members_eq
  rw [List.append_assoc, ← hys]
  refine hx.append hrun fun a ha b hb => ?_
  cases hb
  exact hseam a ha (.package name functions) rfl

/-- Nothing gets lost, packages hold their own functions, and runs are maximal. -/
theorem of_groupPackages (h : ∀ n ∈ nodes, n.isPackage = false) : Grouping nodes (groupPackages nodes) := by
  refine groupPackages_induction (motive := fun nodes grouped => (∀ n ∈ nodes, n.isPackage = false) →
    Grouping nodes grouped) (fun _ => ⟨rfl, nofun, nofun, .nil⟩) ?_ ?_ ?_ nodes h
  · intro n ns grouped hin ih h
    obtain ⟨hn, hns⟩ := List.forall_mem_cons.mp h
    exact (single hn hin).append (ih hns) fun a ha b _ => apart_of_isPackage (.inl (by cases ha; exact hn))
  · intro name n ns grouped hin hnext ih h
    obtain ⟨-, hns⟩ := List.forall_mem_cons.mp h
    refine (run (List.cons_ne_nil n []) (List.forall_mem_singleton.mpr hin)).append (ih hns) fun a ha b hb => ?_
    cases ha
    rintro _ ⟨⟩
    exact hnext b hb
  · intro name n ns functions rest hin ih h
    obtain ⟨-, hns⟩ := List.forall_mem_cons.mp h
    exact (ih hns).further hin

end Grouping

/-- **Only one list** is grouped in this way. -/
theorem Grouping.unique (h : Grouping nodes grouped) : grouped = groupPackages nodes := by
  obtain ⟨rfl, hinside, houtside, hmaximal⟩ := h
  induction grouped with
  | nil => rfl
  | cons m grouped ih =>
      obtain ⟨hm, hothers⟩ := List.forall_mem_cons.mp houtside
      have ih := ih (fun name functions hmem => hinside name functions (List.mem_cons_of_mem _ hmem)) hothers
        hmaximal.tail
      rw [List.flatMap_cons]
      cases hpackage : m.isPackage with
      | false => rw [Node.members_eq hpackage, List.singleton_append, groupPackages_other hm, ← ih]
      | true =>
          obtain ⟨name, functions, rfl⟩ := Node.exists_of_isPackage hpackage
          obtain ⟨hne, hfunctions⟩ := hinside name functions List.mem_cons_self
          have hnext : ∀ m ∈ (groupPackages (grouped.flatMap members)).head?, m.packageName? ≠ some name := by
            rw [← ih]
            exact fun m hm => hmaximal.rel_head? hm name rfl
          show _ = groupPackages (functions ++ _)
          rw [groupPackages_run hne hfunctions hnext, ← ih]

/-! ### Grouping one more node behind -/

/-- Puts a node into the last block, if that is the block of its package, and behind it if not. -/
def gather (grouped : List Node) (n : Node) : List Node :=
  match n.declaredIn? with
  | none => grouped ++ [n]
  | some name =>
    match grouped.getLast? with
    | some (.package name' functions) =>
      if name' = name then grouped.dropLast ++ [.package name (functions ++ [n])]
      else grouped ++ [.package name [n]]
    | _ => grouped ++ [.package name [n]]

variable {front : List Node}

/-- A function in front of the end of a list that does not end with a block of its package. -/
theorem gather_first (hin : n.declaredIn? = some name)
    (hlast : ∀ m ∈ grouped.getLast?, m.packageName? ≠ some name) :
    gather grouped n = grouped ++ [.package name [n]] := by
  rw [gather, hin]
  dsimp only
  split
  · next name' functions heq =>
      rw [heq] at hlast
      exact if_neg fun hname => hlast _ rfl (congrArg some hname)
  · rfl

theorem gather_further (hin : n.declaredIn? = some name) :
    gather (front ++ [.package name functions]) n = front ++ [.package name (functions ++ [n])] := by
  rw [gather, hin]
  dsimp only
  rw [List.getLast?_concat, List.dropLast_concat]
  exact if_pos rfl

theorem Grouping.gather (hn : n.isPackage = false) (h : Grouping ns grouped) :
    Grouping (ns ++ [n]) (gather grouped n) := by
  cases hin : n.declaredIn? with
  | none =>
      rw [Rebuild.gather, hin]
      exact h.append (single hn hin) fun a _ b hb => apart_of_isPackage (.inr (by cases hb; exact hn))
  | some name =>
      by_cases hlast : ∀ m ∈ grouped.getLast?, m.packageName? ≠ some name
      · rw [gather_first hin hlast]
        refine h.append (run (List.cons_ne_nil n []) (List.forall_mem_singleton.mpr hin)) fun a ha b hb => ?_
        cases hb
        rintro _ hname ⟨⟩
        exact hlast a ha hname
      · obtain ⟨functions, hfunctions⟩ := exists_block hlast
        obtain ⟨front, rfl⟩ := List.getLast?_eq_some_iff.mp hfunctions
        rw [gather_further hin]
        exact h.furtherBehind hin

/-- Taking the nodes from the front leads to the same list. -/
theorem foldl_gather (h : ∀ n ∈ nodes, n.isPackage = false) : nodes.foldl gather [] = groupPackages nodes := by
  refine Grouping.unique ?_
  induction nodes using List.reverseRecOn with
  | nil => exact ⟨rfl, nofun, nofun, .nil⟩
  | append_singleton nodes n ih =>
      obtain ⟨hnodes, hn⟩ := List.forall_mem_append.mp h
      rw [List.foldl_append]
      exact (ih hnodes).gather (hn n (List.mem_singleton_self n))

/-- **Grouping.**  A list without packages is put into blocks: written out it is the list itself, each block has
functions of its own package only and at least one, no such function stands outside, and no two neighbours are
blocks of the same package.  It is the only list of this kind, and the one that is made by taking the nodes from
the front. -/
theorem grouping_groupPackages (h : ∀ n ∈ nodes, n.isPackage = false) :
    Grouping nodes (groupPackages nodes) ∧ (∀ grouped, Grouping nodes grouped → grouped = groupPackages nodes) ∧
      nodes.foldl gather [] = groupPackages nodes :=
  ⟨.of_groupPackages h, fun _ => Grouping.unique, foldl_gather h⟩

/-- Two runs of the package `P` with a statement between them, and one function of the package `Q` behind. -/
theorem grouping_groupPackages_twoRuns :
    let inside (name package : String) : Node := .function ⟨name, none, some package, []⟩ []
    let outside : Node := .function ⟨"main", none, none, []⟩ []
    let nodes := [inside "a" "P", inside "b" "P", outside, inside "c" "P", inside "d" "Q", .ret none]
    (∀ n ∈ nodes, n.isPackage = false) ∧
      groupPackages nodes = [.package "P" [inside "a" "P", inside "b" "P"], outside, .package "P" [inside "c" "P"],
        .package "Q" [inside "d" "Q"], .ret none] ∧
      Grouping nodes (groupPackages nodes) :=
  ⟨by decide, by decide, (grouping_groupPackages (by decide)).1⟩

end Rebuild

namespace Stream

/-- There are no packages before grouping, so the statements rebuilt from any stream are grouped. -/
theorem grouping_of_rebuild {instrs : List Instruction} {tree : Block} {nodes : List Node}
    (h : (rebuild tree instrs).outcome.1 = .ok nodes) : ∃ ns, Rebuild.Grouping ns nodes := by
  obtain ⟨t, t', ns, hrun, hend, hstatements, rfl⟩ := exists_of_rebuild h
  have hunnested := unnested_of_run hrun hend hstatements
  exact ⟨ns, .of_groupPackages fun n hn => (Node.unnested_iff.mp (hunnested n hn)).1.1⟩

end Stream

end TorqueScript
