import TorqueScript.Proofs.Walks

/-!
# Every instruction is used once

A walk takes the regions that are read, and what it uses is all that it passes.

* `Region.Walks.reads`: a walk takes the regions that are read.
* `Region.Walks.covers`: a walk whose regions have no mark of failure uses the positions it passes one
  after the other, without leaving one out or coming back to it.

Running regions fails at such marks (`Rebuild.unbroken_of_run`), so whenever statements are rebuilt from a
stream, all its positions were used in their order, each of them once.
-/

namespace TorqueScript

namespace Region

variable {instrs : List Instruction}

/-! ### Walks take what is read -/

section Reads

variable {block child : Block} {stop : Addr} {ins : Instruction} {rest left : List Instruction}
  {kind : JumpKind} {target point : Addr} {body step : List Region}

/-- An alternative whose separating jump does not follow the body is marked as broken. -/
theorem ReadsChild.noSeparator {branch : Branch} (hkind : child.kind = .conditional)
    (hjump : ins.jump? = some (kind, target)) (hloop : child.guardedLoop? rest = none)
    (helse : child.alternative? = some branch) (h : Reads child child.bodyStop rest body left)
    (hleft : ∀ separator ∈ left.head?, separator.addr ≠ branch.addr) :
    ReadsChild block child ins rest
      (.choiceElse ins kind child.stop body branch.addr [.broken branch.addr]) [] := by
  obtain ⟨rfl, hrest⟩ := h
  rw [ReadsChild, readChild, hkind, hjump]
  simp only
  split
  · next h' => rw [hloop] at h'; cases h'
  · rw [helse]
    generalize (read child child.bodyStop rest) = result at hrest
    obtain ⟨body, left', hlength⟩ := result
    obtain rfl : left' = left := hrest
    cases left' with
    | nil => exact ⟨rfl, rfl⟩
    | cons separator left =>
        simp only [hleft separator rfl, if_false]
        exact ⟨trivial, trivial⟩

/-- A block without the jump that should start it is read as a separator out of place. -/
theorem ReadsChild.noHead (hkind : child.kind ≠ .loop)
    (hjump : child.kind = .conditional → ins.jump? = none) :
    ReadsChild block child ins rest (.jump ins .alternative) [] := by
  rw [ReadsChild, readChild]
  cases hchild : child.kind with
  | loop => exact absurd hchild hkind
  | root => exact ⟨rfl, rfl⟩
  | conditional =>
      rw [hjump hchild]
      exact ⟨rfl, rfl⟩

/-- A loop may be read without a jump back. -/
theorem ReadsLoop.wholeNoBack (hsplit : block.splitPoint? = none) (h : Reads block block.stop rest body left)
    (hback : back? block.stop left = none) : ReadsLoop block rest ⟨body, false, [], none⟩ [] := by
  rw [ReadsLoop, readLoop, hsplit]
  obtain ⟨rfl, rfl⟩ := h
  simp only [Option.getD_none, Option.isSome_none, Bool.false_eq_true, if_false, hback]
  exact ⟨trivial, rfl⟩

/-- So may a loop with a step. -/
theorem ReadsLoop.splitNoBack {mid : List Instruction} (hsplit : block.splitPoint? = some point)
    (h : Reads block point rest body mid) (h' : Reads block block.stop mid step left)
    (hback : back? block.stop left = none) : ReadsLoop block rest ⟨body, true, step, none⟩ [] := by
  rw [ReadsLoop, readLoop, hsplit]
  obtain ⟨rfl, rfl⟩ := h
  obtain ⟨rfl, rfl⟩ := h'
  simp only [Option.getD_some, Option.isSome_some, if_true, hback]
  exact ⟨trivial, rfl⟩

end Reads

theorem drop_eq_cons {i : Nat} {ins : Instruction} (h : instrs[i]? = some ins) :
    instrs.drop i = ins :: instrs.drop (i + 1) := by
  obtain ⟨hlt, rfl⟩ := List.getElem?_eq_some_iff.mp h
  exact List.drop_eq_getElem_cons hlt

mutual

/-- **A walk takes the regions that are read.** -/
theorem Walks.reads {block : Block} {stop : Addr} {i j : Nat} {regions : List Region} {used : List Nat} :
    Walks instrs block stop i regions used j → Reads block stop (instrs.drop i) regions (instrs.drop j)
  | .nothing hi => by
      rw [List.drop_eq_nil_of_le (List.getElem?_eq_none_iff.mp hi)]
      exact .nil
  | .halt hi hstop => by
      rw [drop_eq_cons hi]
      exact .halt hstop
  | .inner hi hstop hchild h hrest => by
      rw [drop_eq_cons hi]
      exact .inner hstop hchild (h.reads hi) hrest.reads
  | .jump hi hstop hchild hbranch hrest => by
      rw [drop_eq_cons hi]
      exact .jump _ hstop hchild hbranch hrest.reads
  | .plain hi hstop hchild hbranch hrest => by
      rw [drop_eq_cons hi]
      exact .plain hstop hchild hbranch hrest.reads

/-- **The walk over a child is what is read.** -/
theorem WalksChild.reads {parent child : Block} {i j : Nat} {ins : Instruction} {region : Region}
    {used : List Nat} : WalksChild instrs parent child i region used j → instrs[i]? = some ins →
      ReadsChild parent child ins (instrs.drop (i + 1)) region (instrs.drop j)
  | .loop hkind h, hi => by
      have hloop := h.reads
      rw [drop_eq_cons hi] at hloop
      exact .loop hkind hloop
  | .guarded hi' hkind hjump hloop h, hi => by
      cases Option.some.inj (hi.symm.trans hi')
      exact .guarded hkind hjump hloop h.reads
  | .choice hi' hkind hjump hloop helse h, hi => by
      cases Option.some.inj (hi.symm.trans hi')
      exact .choice hkind hjump hloop helse h.reads
  | .choiceElse hi' hkind hjump hloop helse h hj haddr halt, hi => by
      cases Option.some.inj (hi.symm.trans hi')
      have hbody := h.reads
      rw [drop_eq_cons hj] at hbody
      exact .choiceElse hkind hjump hloop helse haddr hbody halt.reads
  | .noSeparator hi' hkind hjump hloop helse h hj, hi => by
      cases Option.some.inj (hi.symm.trans hi')
      rw [List.drop_length]
      refine .noSeparator hkind hjump hloop helse h.reads fun separator hmem => hj separator ?_
      rwa [List.head?_drop] at hmem
  | .noHead hi' hkind hjump, hi => by
      cases Option.some.inj (hi.symm.trans hi')
      rw [List.drop_length]
      exact .noHead hkind hjump

/-- So is the walk over a loop. -/
theorem WalksLoop.reads {block : Block} {i j : Nat} {parts : LoopRegions} {used : List Nat} :
    WalksLoop instrs block i parts used j → ReadsLoop block (instrs.drop i) parts (instrs.drop j)
  | .whole hsplit h hj haddr hjump => by
      have hbody := h.reads
      rw [drop_eq_cons hj] at hbody
      exact .whole hsplit haddr hjump hbody
  | .split hsplit h hstep hk haddr hjump => by
      have hlast := hstep.reads
      rw [drop_eq_cons hk] at hlast
      exact .split hsplit haddr hjump h.reads hlast
  | .wholeNoBack hsplit h hj => by
      rw [List.drop_length]
      exact .wholeNoBack hsplit h.reads hj
  | .splitNoBack hsplit h hstep hk => by
      rw [List.drop_length]
      exact .splitNoBack hsplit h.reads hstep.reads hk

end

/-! ### Walks without marks of failure -/

mutual

/-- The region has no mark of failure. -/
def Unbroken : Region → Prop
  | plain _ => True
  | jump _ kind => kind ≠ .alternative
  | broken _ => False
  | choice _ _ _ body => ListUnbroken body
  | choiceElse _ _ _ body _ alternative => ListUnbroken body ∧ ListUnbroken alternative
  | loop _ _ body split step back | guarded _ _ _ body split step back =>
    ListUnbroken body ∧ (split → ListUnbroken step) ∧ back.isSome

/-- None of the regions has a mark of failure. -/
def ListUnbroken : List Region → Prop
  | [] => True
  | region :: regions => region.Unbroken ∧ ListUnbroken regions

end

/-- The parts of a loop have no mark of failure. -/
def UnbrokenParts (parts : LoopRegions) : Prop :=
  ListUnbroken parts.body ∧ (parts.split → ListUnbroken parts.step) ∧ parts.back.isSome

mutual

/-- **A walk leaves nothing out.**  It uses the positions that it passes one after the other. -/
theorem Walks.covers {block : Block} {stop : Addr} {i j : Nat} {regions : List Region} {used : List Nat} :
    Walks instrs block stop i regions used j → i ≤ instrs.length → ListUnbroken regions → used = List.Ico i j
  | .nothing _, _, _ | .halt _ _, _, _ => List.Ico.self_empty.symm
  | .inner hget _ _ h hrest, _, hunbroken => by
      obtain ⟨hij, hj⟩ := h.lt (lt_length hget)
      rw [h.covers (lt_length hget) hunbroken.1, hrest.covers hj hunbroken.2]
      exact List.Ico.append_consecutive hij.le (hrest.le hj).1
  | .jump hget _ _ _ hrest, _, hunbroken | .plain hget _ _ _ hrest, _, hunbroken => by
      rw [hrest.covers (lt_length hget) hunbroken.2]
      exact (List.Ico.eq_cons (hrest.le (lt_length hget)).1).symm

/-- **A walk over an unbroken child uses each instruction once, in order.** -/
theorem WalksChild.covers {parent child : Block} {i j : Nat} {region : Region} {used : List Nat} :
    WalksChild instrs parent child i region used j → i < instrs.length → region.Unbroken → used = List.Ico i j
  | .loop _ h, hi, hunbroken => h.covers hi.le hunbroken
  | .guarded _ _ _ _ h, hi, hunbroken => by
      rw [h.covers hi hunbroken]
      exact (List.Ico.eq_cons (h.le hi).1).symm
  | .choice _ _ _ _ _ h, hi, hunbroken => by
      rw [h.covers hi hunbroken]
      exact (List.Ico.eq_cons (h.le hi).1).symm
  | .choiceElse _ _ _ _ _ h hj _ halt, hi, hunbroken => by
      obtain ⟨hij, -⟩ := h.le hi
      obtain ⟨hjk, -⟩ := halt.le (lt_length hj)
      rw [h.covers hi hunbroken.1, halt.covers (lt_length hj) hunbroken.2, ← List.Ico.eq_cons hij,
        ← List.Ico.eq_cons hjk]
      exact List.Ico.append_consecutive (Nat.le_of_succ_le hij) (Nat.le_of_succ_le hjk)
  | .noSeparator .., _, hunbroken => hunbroken.2.1.elim
  | .noHead .., _, hunbroken => absurd rfl hunbroken

/-- So does a walk over an unbroken loop. -/
theorem WalksLoop.covers {block : Block} {i j : Nat} {parts : LoopRegions} {used : List Nat} :
    WalksLoop instrs block i parts used j → i ≤ instrs.length → UnbrokenParts parts → used = List.Ico i j
  | .whole _ h _ _ _, hi, hunbroken => by
      rw [h.covers hi hunbroken.1]
      exact (List.Ico.succ_top (h.le hi).1).symm
  | .split _ h hstep _ _ _, hi, hunbroken => by
      obtain ⟨hij, hj⟩ := h.le hi
      obtain ⟨hjk, -⟩ := hstep.le hj
      rw [h.covers hi hunbroken.1, hstep.covers hj (hunbroken.2.1 rfl), List.Ico.append_consecutive hij hjk]
      exact (List.Ico.succ_top (hij.trans hjk)).symm
  | .wholeNoBack .., _, hunbroken | .splitNoBack .., _, hunbroken => absurd hunbroken.2.2 Bool.false_ne_true

end

/-! ### Positions and instructions -/

mutual

/-- The addresses of the instructions of a region, in the order in which they are taken. -/
def addrs : Region → List Addr
  | plain ins | jump ins _ => [ins.addr]
  | broken _ => []
  | choice head _ _ body => head.addr :: listAddrs body
  | choiceElse head _ _ body separator alternative =>
    head.addr :: listAddrs body ++ separator :: listAddrs alternative
  | loop _ _ body _ step back => listAddrs body ++ listAddrs step ++ back.toList.map (·.1.addr)
  | guarded head _ _ body _ step back =>
    head.addr :: (listAddrs body ++ listAddrs step ++ back.toList.map (·.1.addr))

/-- The addresses of the instructions of regions that follow each other. -/
def listAddrs : List Region → List Addr
  | [] => []
  | region :: regions => region.addrs ++ listAddrs regions

end

/-- The addresses of the instructions of a loop. -/
def partsAddrs (parts : LoopRegions) : List Addr :=
  listAddrs parts.body ++ listAddrs parts.step ++ parts.back.toList.map (·.1.addr)

/-- The instructions at the given positions have the given addresses. -/
def At (instrs : List Instruction) (used : List Nat) (as : List Addr) : Prop :=
  used.map (fun i => (instrs[i]?).map (·.addr)) = as.map some

theorem At.cons {i : Nat} {ins : Instruction} {used : List Nat} {as : List Addr} (hi : instrs[i]? = some ins)
    (h : At instrs used as) : At instrs (i :: used) (ins.addr :: as) := by
  rw [At, List.map_cons, List.map_cons, hi, h]
  rfl

/-- Positions and addresses are joined together. -/
theorem At.append {used later : List Nat} {as bs : List Addr} (h : At instrs used as)
    (h' : At instrs later bs) : At instrs (used ++ later) (as ++ bs) := by
  rw [At, List.map_append, List.map_append, h, h']

mutual

/-- **The positions used are those of the instructions taken.** -/
theorem Walks.at_addrs {block : Block} {stop : Addr} {i j : Nat} {regions : List Region} {used : List Nat} :
    Walks instrs block stop i regions used j → ListUnbroken regions → At instrs used (listAddrs regions)
  | .nothing _, _ | .halt _ _, _ => rfl
  | .inner _ _ _ h hrest, hunbroken => (h.at_addrs hunbroken.1).append (hrest.at_addrs hunbroken.2)
  | .jump hi _ _ _ hrest, hunbroken | .plain hi _ _ _ hrest, hunbroken => (hrest.at_addrs hunbroken.2).cons hi

/-- The addresses of a child are those of the instructions it uses. -/
theorem WalksChild.at_addrs {parent child : Block} {i j : Nat} {region : Region} {used : List Nat} :
    WalksChild instrs parent child i region used j → region.Unbroken → At instrs used region.addrs
  | .loop _ h, hunbroken => h.at_addrs hunbroken
  | .guarded hi _ _ _ h, hunbroken => (h.at_addrs hunbroken).cons hi
  | .choice hi _ _ _ _ h, hunbroken => (h.at_addrs hunbroken).cons hi
  | .choiceElse hi _ _ _ _ h hj haddr halt, hunbroken =>
      ((h.at_addrs hunbroken.1).cons hi).append (haddr ▸ (halt.at_addrs hunbroken.2).cons hj)
  | .noSeparator .., hunbroken => hunbroken.2.1.elim
  | .noHead .., hunbroken => absurd rfl hunbroken

/-- So are the addresses of a loop. -/
theorem WalksLoop.at_addrs {block : Block} {i j : Nat} {parts : LoopRegions} {used : List Nat} :
    WalksLoop instrs block i parts used j → UnbrokenParts parts → At instrs used (partsAddrs parts)
  | .whole _ h hj _ _, hunbroken => by
      have hbody := h.at_addrs hunbroken.1
      rw [partsAddrs, listAddrs, List.append_nil]
      exact hbody.append (.cons hj rfl)
  | .split _ h hstep hk _ _, hunbroken =>
      ((h.at_addrs hunbroken.1).append (hstep.at_addrs (hunbroken.2.1 rfl))).append (.cons hk rfl)
  | .wholeNoBack .., hunbroken | .splitNoBack .., hunbroken => absurd hunbroken.2.2 Bool.false_ne_true

end

/-- What is at all positions in order is the list of all addresses. -/
theorem eq_of_at_range {as : List Addr} (h : At instrs (List.range instrs.length) as) :
    as = instrs.map (·.addr) := by
  have hrange : (List.range instrs.length).map (fun i => (instrs[i]?).map (·.addr)) =
      (instrs.map (·.addr)).map some := by
    refine List.ext_getElem (by simp) fun i hi _ => ?_
    have hi : i < instrs.length := by simpa using hi
    simp [List.getElem?_eq_getElem hi]
  exact List.map_injective_iff.mpr (fun _ _ => Option.some.inj) (h.symm.trans hrange)

/-- Regions are unbroken if all of them are. -/
theorem listUnbroken_append {rs rs' : List Region} :
    ListUnbroken (rs ++ rs') ↔ ListUnbroken rs ∧ ListUnbroken rs' := by
  induction rs with
  | nil => simp [ListUnbroken]
  | cons r rs ih => rw [List.cons_append, ListUnbroken, ListUnbroken, ih, and_assoc]

end Region

namespace Rebuild

/-! ### Running regions fails at marks -/

/-- The parts of a run that succeeds. -/
theorem bind_eq_ok {α β : Type} {x : Rebuild α} {f : α → Rebuild β} {s : State} {r : β × State}
    (h : (x >>= f) s = .ok r) : ∃ a t, x s = .ok (a, t) ∧ f a t = .ok r := by
  change (x s >>= fun p => f p.1 p.2) = .ok r at h
  cases hx : x s with
  | error e => rw [hx] at h; cases h
  | ok p => exact ⟨p.1, p.2, rfl, by rwa [hx] at h⟩

theorem get_bind {α : Type} (f : State → Rebuild α) (s : State) : (get >>= f) s = f s s := rfl

/-- The parts of a loop that is rebuilt are run, and it has a jump back. -/
theorem loopParts_eq_ok {stop : Addr} {body step : Rebuild Unit} {split : Bool}
    {back : Option (Instruction × JumpKind)} {s : State} {r : LoopParts × State}
    (h : loopParts stop body split step back s = .ok r) :
    (∃ t t', body t = .ok ((), t')) ∧ (split → ∃ t t', step t = .ok ((), t')) ∧ back.isSome := by
  have hback : ∀ {t r}, endLoop stop back t = .ok r → back.isSome := by
    intro t r hend
    cases back with
    | none => cases hend
    | some => rfl
  obtain ⟨_, s₁, -, h⟩ := bind_eq_ok h
  obtain ⟨_, s₂, hbody, h⟩ := bind_eq_ok h
  refine ⟨⟨s₁, s₂, hbody⟩, ?_⟩
  cases split with
  | false =>
      obtain ⟨_, _, hend, -⟩ := bind_eq_ok h
      exact ⟨(absurd · Bool.false_ne_true), hback hend⟩
  | true =>
      obtain ⟨_, s₃, -, h⟩ := bind_eq_ok h
      obtain ⟨_, s₄, -, h⟩ := bind_eq_ok h
      obtain ⟨_, s₅, hstep, h⟩ := bind_eq_ok h
      obtain ⟨_, _, hend, -⟩ := bind_eq_ok h
      exact ⟨fun _ => ⟨s₄, s₅, hstep⟩, hback hend⟩

open Region in
mutual

/-- A region that is run to its end has no mark of failure. -/
theorem unbroken_of_run : ∀ (r : Region) {s t : State}, run r s = .ok ((), t) → r.Unbroken
  | .plain _, _, _, _ => trivial
  | .jump ins kind, s, t, h => by
      rw [run] at h
      obtain ⟨_, _, -, h⟩ := bind_eq_ok h
      rintro rfl
      cases h
  | .broken addr, s, t, h => by
      rw [run] at h
      cases h
  | .choice head kind stop body, s, t, h => by
      rw [run] at h
      obtain ⟨_, _, -, h⟩ := bind_eq_ok h
      obtain ⟨_, _, -, h⟩ := bind_eq_ok h
      obtain ⟨_, _, -, h⟩ := bind_eq_ok h
      obtain ⟨_, _, hbody, -⟩ := bind_eq_ok h
      exact listUnbroken_of_runAll body hbody
  | .choiceElse head kind stop body separator alternative, s, t, h => by
      rw [run] at h
      obtain ⟨_, _, -, h⟩ := bind_eq_ok h
      obtain ⟨_, _, -, h⟩ := bind_eq_ok h
      obtain ⟨_, _, -, h⟩ := bind_eq_ok h
      obtain ⟨_, _, hbody, h⟩ := bind_eq_ok h
      obtain ⟨_, _, -, h⟩ := bind_eq_ok h
      obtain ⟨_, _, -, h⟩ := bind_eq_ok h
      obtain ⟨_, _, halternative, -⟩ := bind_eq_ok h
      exact ⟨listUnbroken_of_runAll body hbody, listUnbroken_of_runAll alternative halternative⟩
  | .loop start stop body split step back, s, t, h => by
      rw [run] at h
      obtain ⟨_, _, -, h⟩ := bind_eq_ok h
      obtain ⟨_, _, hparts, -⟩ := bind_eq_ok h
      obtain ⟨⟨_, _, hbody⟩, hstep, hback⟩ := loopParts_eq_ok hparts
      refine ⟨listUnbroken_of_runAll body hbody, fun hsplit => ?_, hback⟩
      obtain ⟨_, _, hstep⟩ := hstep hsplit
      exact listUnbroken_of_runAll step hstep
  | .guarded head kind stop body split step back, s, t, h => by
      rw [run] at h
      obtain ⟨_, _, -, h⟩ := bind_eq_ok h
      obtain ⟨_, _, -, h⟩ := bind_eq_ok h
      obtain ⟨_, _, hparts, -⟩ := bind_eq_ok h
      obtain ⟨⟨_, _, hbody⟩, hstep, hback⟩ := loopParts_eq_ok hparts
      refine ⟨listUnbroken_of_runAll body hbody, fun hsplit => ?_, hback⟩
      obtain ⟨_, _, hstep⟩ := hstep hsplit
      exact listUnbroken_of_runAll step hstep

/-- **A run that succeeds meets no broken region.** -/
theorem listUnbroken_of_runAll : ∀ (rs : List Region) {s t : State},
    runAll rs s = .ok ((), t) → ListUnbroken rs
  | [], _, _, _ => trivial
  | r :: rs, s, t, h => by
      rw [runAll] at h
      obtain ⟨_, _, hr, hrs⟩ := bind_eq_ok h
      exact ⟨unbroken_of_run r hr, listUnbroken_of_runAll rs hrs⟩

end

end Rebuild

namespace Stream

variable {instrs : List Instruction} {tree : Block}

/-! ### Whole streams -/

/-- A stream that is rebuilt has been run to its end. -/
theorem run_of_rebuild {nodes : List Node} (h : (rebuild tree instrs).outcome.1 = .ok nodes) :
    ∃ t, Rebuild.runAll (Region.ofStream tree instrs) {} = .ok ((), t) := by
  cases hrun : StateT.run (run tree instrs) {} with
  | error e =>
      rw [rebuild, hrun] at h
      cases h
  | ok p =>
      obtain ⟨_, t, hall, -⟩ := Rebuild.bind_eq_ok (x := Rebuild.runAll _) hrun
      exact ⟨t, hall⟩

/-- A stream whose regions are run to the end is read to its end. -/
theorem ofStream_of_unbroken {regions : List Region} {rest : List Instruction}
    (h : Region.Reads tree Addr.last instrs regions rest)
    (hunbroken : Region.ListUnbroken (Region.ofStream tree instrs)) :
    rest = [] ∧ Region.ofStream tree instrs = regions := by
  rw [Region.Reads] at h
  rw [Region.ofStream] at hunbroken ⊢
  generalize Region.read tree Addr.last instrs = result at h hunbroken
  obtain ⟨regions', rest', hle⟩ := result
  obtain ⟨rfl, rfl⟩ := h
  cases rest' with
  | nil => exact ⟨rfl, rfl⟩
  | cons ins rest => exact (Region.listUnbroken_append.mp hunbroken).2.1.elim

/-- A walk over the whole stream is what is read of it. -/
theorem reads_of_walks {regions : List Region} {used : List Nat} {j : Nat}
    (h : Region.Walks instrs tree Addr.last 0 regions used j) :
    Region.Reads tree Addr.last instrs regions (instrs.drop j) := by
  have hreads := h.reads
  rwa [List.drop_zero] at hreads

/-- **Every instruction is used once.**  The regions of a stream are taken by a walk, so reading them ends.
If statements are rebuilt from them, every walk takes the regions that are run, and it uses all positions
of the stream in their order. -/
theorem rebuild_uses_all (tree : Block) (instrs : List Instruction) :
    (∃ used j, Region.Walks instrs tree Addr.last 0 (Region.read tree Addr.last instrs).1 used j) ∧
    ∀ nodes, (rebuild tree instrs).outcome.1 = .ok nodes →
      ∀ regions used j, Region.Walks instrs tree Addr.last 0 regions used j →
        regions = Region.ofStream tree instrs ∧ used = List.range instrs.length ∧
          Region.listAddrs regions = instrs.map (·.addr) := by
  constructor
  · obtain ⟨regions, used, j, h⟩ := Region.exists_walks instrs tree Addr.last 0
    rw [(reads_of_walks h).1]
    exact ⟨used, j, h⟩
  · intro nodes hnodes regions used j h
    obtain ⟨t, hrun⟩ := run_of_rebuild hnodes
    have hunbroken := Rebuild.listUnbroken_of_runAll _ hrun
    obtain ⟨hrest, hregions⟩ := ofStream_of_unbroken (reads_of_walks h) hunbroken
    rw [hregions] at hunbroken
    have hj : j = instrs.length :=
      le_antisymm (h.le (Nat.zero_le _)).2 (List.drop_eq_nil_iff.mp hrest)
    have hused : used = List.range instrs.length := by
      rw [h.covers (Nat.zero_le _) hunbroken, hj, List.Ico.zero_bot]
    have hat := h.at_addrs hunbroken
    rw [hused] at hat
    exact ⟨hregions.symm, hused, Region.eq_of_at_range hat⟩

/-- A choice with an alternative: `if (1) return; else return;` and a last `return`. -/
def choiceWithElse : List Instruction :=
  [⟨0, 2, .loadImmedUint, .immediateUint 1⟩, ⟨2, 2, .jmpIfNot, .jump .ifNot 7⟩, ⟨4, 1, .ret, .ret false⟩,
    ⟨5, 2, .jmp, .jump .always 8⟩, ⟨7, 1, .ret, .ret false⟩, ⟨8, 1, .ret, .ret false⟩]

/-- The block tree of `choiceWithElse`. -/
def choiceWithElseTree : Block :=
  ⟨0, .root, 0, 8, [], none, [⟨1, .conditional, 2, 5, [⟨5, 8, .alternative⟩], none, []⟩]⟩

/-- A choice with an alternative uses all of its instructions. -/
theorem rebuild_uses_all_choiceWithElse :
    (analyze choiceWithElse).outcome.1 = .ok choiceWithElseTree ∧
      ∀ regions used j, Region.Walks choiceWithElse choiceWithElseTree Addr.last 0 regions used j →
        used = [0, 1, 2, 3, 4, 5] := by
  have hnodes : (rebuild choiceWithElseTree choiceWithElse).outcome.1 =
      .ok [.ifElse (.constant (.uint 1)) [.ret none] [.ret none], .ret none] := by cbv
  refine ⟨by cbv, fun regions used j h => ?_⟩
  exact ((rebuild_uses_all choiceWithElseTree choiceWithElse).2 _ hnodes regions used j h).2.1

end Stream

end TorqueScript
