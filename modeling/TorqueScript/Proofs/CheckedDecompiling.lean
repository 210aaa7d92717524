import TorqueScript.Proofs.AddressOrder
import TorqueScript.Proofs.CheckedDecoding
import TorqueScript.Proofs.CheckedReading
import TorqueScript.Proofs.CheckedRebuilding
import TorqueScript.Proofs.FunctionContexts

/-!
# Decompiling never slips

`Checked.decompile` decompiles a file with every position and every number checked: bytes are read at positions
of the file, code words at addresses, instructions at positions of the stream, and blocks are records in an
arena that know each other by their numbers.  Whatever is not there, does not fit or breaks an assertion is a
`Slip`.

**No slip** (`Checked.decompile_ends`).  Whatever the bytes and the options are, the checked run ends without a
slip, and its outcome is that of decompiling.  The stages depend on each other: a file has at most as many code
words as fit into a word, so addresses fit; decoded instructions have increasing addresses, so a jump ahead has
something in front of its target and the scan over blocks never closes the root; blocks have different numbers,
so the arena has the records of a tree, and the walk that rebuilds statements meets only positions and numbers
that exist.
-/

namespace TorqueScript

namespace Checked

/-! ### The stages behind decoding -/

/-- The block tree of a stream as an index. -/
def analyze (instrs : List Instruction) (steps : Nat) : Checked BlockIndex := do
  let records ← blockTable instrs steps
  index records steps

/-- The statements of a stream. -/
def statements (instrs : List Instruction) (steps : Nat) : Checked (List Node) := do
  let I ← analyze instrs steps
  let ((), s) ← Builder.build I instrs steps {}
  of (Rebuild.program (Stream.last instrs) s)

/-- Whether there is an empty line in front of the statement at position `i` of a script.  It depends on the one
before it. -/
def standsApart (nodes : List Node) (i : Nat) (n : Node) : Checked Bool :=
  if i = 0 then pure false
  else if Source.standsApart n then pure true
  else do
    let previous ← get nodes (← sub i 1)
    pure (Source.standsApart previous)

/-- The tokens of the statements of a script from position `i` on. -/
def scriptFrom (nodes : List Node) (i : Nat) : List Node → Checked (List String)
  | [] => pure []
  | n :: ns => do
    let apart ← standsApart nodes i n
    let t ← of (n.tokens .statement)
    let ts ← scriptFrom nodes (i + 1) ns
    pure ((if apart then ["\n"] else []) ++ t ++ ts)

/-- The text of a stream in the form asked for. -/
def text (mode : Mode) (lineBreaks : List LineBreak) (instrs : List Instruction) (steps : Nat) : Checked String :=
  match mode with
  | .source => do
    let nodes ← statements instrs steps
    let tokens ← scriptFrom nodes 0 nodes
    pure (Source.text (({} : Source.Layout).indented tokens))
  | .listing => do
    let I ← analyze instrs steps
    let lines ← I.lines lineBreaks instrs
    pure (String.join lines)
  | .tree => do
    let nodes ← statements instrs steps
    pure (Json.list (Node.listToJson nodes)).pretty

/-- Decompiles a file. -/
def decompile (options : Options) (bytes : List UInt8) (steps : Nat) : Checked String := do
  let image ← load bytes
  if image.version.toNat = supportedVersion ∨ options.allowVersionMismatch then do
    let instrs ← instructions image options.table steps
    text options.mode image.lineBreaks instrs steps
  else throw (.unsupportedVersion image.version.toNat)

/-! ### Streams -/

section

variable {instrs : List Instruction}

/-- The index of a stream is that of its block tree, or the stream is refused for the same reason. -/
theorem analyze_ends (hincreasing : Stream.Increasing instrs) :
    (∃ e, Stream.blockTree instrs = .error e ∧ Ends (analyze instrs) (throw e)) ∨
      ∃ tree I, Stream.blockTree instrs = .ok tree ∧ Ends (analyze instrs) (pure I) ∧ I.Of tree ∧ tree.id = 0 := by
  rcases blockTable_ends hincreasing with ⟨e, htree, htable⟩ | ⟨tree, records, htree, htable, hstores⟩
  · refine .inl ⟨e, htree, (Ends.const (throw e)).congr fun steps => ?_⟩
    rw [analyze, htable]
    rfl
  · obtain ⟨made, nested, -, -, -, hassembles, htree'⟩ := Stream.assembles_of_blockTree hincreasing htree
    obtain ⟨_, -, hseeds, hcomplete⟩ := Stream.complete_of_blockTree hincreasing htree
    have hid : tree.id = 0 := by
      have hrecast : nested.Recast (nested.classify (Stream.after? instrs) none none none).1 := ⟨_, _, _, _, rfl⟩
      rw [htree']
      exact congrArg (·.id) (hrecast.same.1.symm.trans hassembles.bare_eq)
    obtain ⟨I, hindex, hof⟩ := index_ends hstores hid hcomplete.tidy (hcomplete.nodup_numbers hseeds)
    exact .inr ⟨tree, I, htree, htable.bind hindex, hof, hid⟩

theorem statements_ends (hincreasing : Stream.Increasing instrs) :
    Ends (statements instrs) (of (Stream.statements instrs).outcome.1) := by
  rw [Stream.outcome_statements]
  rcases analyze_ends hincreasing with ⟨e, htree, hends⟩ | ⟨tree, I, htree, hends, hof, hid⟩
  · rw [htree]
    exact hends.bind_throw
  · rw [htree]
    refine hends.bind ?_
    exact (Builder.build_ends hof hid {}).bind_of fun p _ => .const _

theorem listing_ends (hincreasing : Stream.Increasing instrs) (lineBreaks : List LineBreak) :
    Ends (text .listing lineBreaks instrs) (of ((fun tree => Listing.text tree lineBreaks instrs) <$>
      Stream.blockTree instrs)) := by
  rcases analyze_ends hincreasing with ⟨e, htree, hends⟩ | ⟨tree, I, htree, hends, hof, -⟩
  · rw [htree]
    exact hends.bind_throw
  · rw [htree]
    refine hends.bind ((Ends.const _).congr fun steps => ?_)
    rw [hof.lines_eq, pure_bind]
    rfl

end

/-! ### Scripts -/

/-- There is a statement in front of every one but the first. -/
theorem scriptFrom_succ {nodes ns : List Node} {i : Nat} {previous : Node} (hi : nodes[i]? = some previous)
    (hns : nodes.drop (i + 1) = ns) : scriptFrom nodes (i + 1) ns = of (Source.followingTokens previous ns) := by
  induction ns generalizing i previous with
  | nil => rfl
  | cons n ns ih =>
      have hn : nodes[i + 1]? = some n := by rw [← List.head?_drop, hns, List.head?_cons]
      have hns' : nodes.drop (i + 1 + 1) = ns := by rw [← List.tail_drop, hns, List.tail_cons]
      have happart : standsApart nodes (i + 1) n = pure (Source.standsApart n || Source.standsApart previous) := by
        rw [standsApart, if_neg (Nat.succ_ne_zero i), sub_eq (Nat.succ_pos i), pure_bind, Nat.succ_sub_one, get_eq hi,
          pure_bind]
        cases Source.standsApart n <;> rfl
      rw [scriptFrom, happart, pure_bind, ih hn hns', Source.followingTokens, of_bind]
      refine congrArg _ (funext fun t => ?_)
      rw [of_bind]
      rfl

theorem scriptFrom_eq (nodes : List Node) : scriptFrom nodes 0 nodes = of (Source.programTokens nodes) := by
  cases nodes with
  | nil => rfl
  | cons n ns =>
      have hrest : scriptFrom (n :: ns) 1 ns = of (Source.followingTokens n ns) := scriptFrom_succ rfl rfl
      rw [scriptFrom, standsApart, if_pos rfl, pure_bind, hrest, Source.programTokens, of_bind]
      refine congrArg _ (funext fun t => ?_)
      rw [of_bind]
      rfl

/-! ### Files -/

/-- Every form of output of a stream. -/
theorem text_ends {instrs : List Instruction} (hincreasing : Stream.Increasing instrs) (mode : Mode)
    (lineBreaks : List LineBreak) :
    Ends (text mode lineBreaks instrs) (of (Stream.text mode lineBreaks instrs).outcome.1) := by
  cases mode with
  | source =>
      rw [Stream.text, Logged.outcome_bind (Stream.steady_statements instrs) fun _ => .bind (.silent _) fun _ => .pure _]
      refine (statements_ends hincreasing).bind_of fun nodes _ => (Ends.const _).congr fun steps => ?_
      rw [scriptFrom_eq, Logged.outcome_bind (.silent _) fun _ => .pure _, of_bind]
      show _ = of (Source.program nodes) >>= _
      rw [Source.program, of_bind, bind_assoc]
      rfl
  | listing =>
      rw [Stream.text, Logged.outcome_bind (Stream.steady_analyze instrs) fun _ => .pure _, Stream.outcome_analyze]
      exact listing_ends hincreasing lineBreaks
  | tree =>
      rw [Stream.text, Logged.outcome_bind (Stream.steady_statements instrs) fun _ => .pure _]
      exact (statements_ends hincreasing).bind_of fun nodes _ => .const _

theorem outcome_fileInstructions (options : Options) (bytes : List UInt8) :
    (fileInstructions options bytes).outcome.1 = (Prod.fst <$> Image.read bytes) >>= fun image =>
      (image.checkVersion options).outcome.1 >>= fun _ =>
        image.instructions options.table >>= fun instrs => pure (image.lineBreaks, instrs) := by
  have hload : (Image.load bytes).outcome.1 = Prod.fst <$> Image.read bytes := by
    rw [Image.load_outcome]
    cases Image.read bytes <;> rfl
  have hrest : ∀ image : Image, Logged.Steady (image.decode options.table >>= fun instrs =>
      pure (image.lineBreaks, instrs)) := fun image => .bind (steady_decode options.table image) fun _ => .pure _
  rw [fileInstructions, Logged.outcome_bind (steady_load bytes) fun image =>
    .bind (steady_checkVersion options image) fun _ => hrest image, hload]
  refine congrArg _ (funext fun image => ?_)
  rw [Logged.outcome_bind (steady_checkVersion options image) fun _ => hrest image]
  refine congrArg _ (funext fun _ => ?_)
  rw [Logged.outcome_bind (steady_decode options.table image) fun _ => .pure _, Image.outcome_decode]
  rfl

theorem outcome_checkVersion (options : Options) (image : Image) :
    (image.checkVersion options).outcome.1 =
      if image.version.toNat = supportedVersion ∨ options.allowVersionMismatch then pure ()
      else throw (.unsupportedVersion image.version.toNat) := by
  unfold Image.checkVersion
  by_cases hversion : image.version.toNat = supportedVersion
  · rw [if_pos hversion, if_pos (.inl hversion)]
    rfl
  by_cases hallowed : options.allowVersionMismatch
  · rw [if_neg hversion, if_pos hallowed, if_pos (.inr hallowed)]
    rfl
  · rw [if_neg hversion, if_neg hallowed, if_neg (not_or.mpr ⟨hversion, hallowed⟩)]
    rfl

/-- **No slip.**  Whatever the bytes and the options are, the run ends without a slip, and as decompiling ends. -/
theorem decompile_ends (options : Options) (bytes : List UInt8) :
    Ends (decompile options bytes) (of (TorqueScript.decompile options bytes).outcome.1) := by
  have houtcome := outcome_decompile options bytes options.mode
  rw [show { options with mode := options.mode } = options from rfl, outcome_fileInstructions] at houtcome
  rw [houtcome]
  simp only [bind_assoc]
  refine Ends.bind_of ((Ends.const _).congr fun _ => load_eq bytes) fun image himage => ?_
  rw [outcome_checkVersion]
  obtain ⟨rest, hread⟩ : ∃ rest, Image.read bytes = .ok (image, rest) := by
    cases hread : Image.read bytes with
    | error e => rw [hread] at himage; cases himage
    | ok p => rw [hread] at himage; exact ⟨p.2, by rw [← Except.ok.inj himage]⟩
  by_cases hversion : image.version.toNat = supportedVersion ∨ options.allowVersionMismatch
  · simp only [if_pos hversion, pure_bind]
    refine (instructions_ends (Image.length_code_le hread)).bind_of fun instrs hinstrs => ?_
    exact text_ends (Decoder.increasing_of_instructions hinstrs).1 options.mode image.lineBreaks
  · simp only [if_neg hversion]
    exact .const _

end Checked

end TorqueScript
