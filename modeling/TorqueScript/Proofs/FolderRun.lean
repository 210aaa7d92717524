import Mathlib
import TorqueScript.Proofs.Listings

/-!
# Runs over folders

What a run over a folder does to the directory is a fold: one file after the other is converted, in the order of
their names (`Directory.convert`, `Session.directory_run`).  The rest of the run only reads and prints
(`Session.Spares`).

**Changes** (`Directory.follows_foldl`).  A place changes only if it lies beside one of the files of the run.  This is
the invariant of the fold, and it needs nothing but that the paths are those of compiled files.
-/

namespace TorqueScript

namespace Directory

/-! ### Converting files -/

/-- The directory after a file has been converted.  What cannot be read, decompiled or written changes nothing. -/
def convert (options : Options) (d : Directory) (path : String) : Directory :=
  match d.read path with
  | .error _ => d
  | .ok bytes =>
    match (decompile options bytes).outcome.1 with
    | .error _ => d
    | .ok text =>
      match d.write (Path.output options.mode path) text with
      | .error _ => d
      | .ok d' => d'

/-- Converting a file changes nothing, or puts its text at the place of the output. -/
theorem convert_cases (options : Options) (d : Directory) (path : String) : d.convert options path = d ∨
    ∃ bytes text, d.get? (place path) = some bytes ∧ (decompile options bytes).outcome.1 = .ok text ∧
      d.isFolder (place (Path.output options.mode path)) = false ∧
      d.convert options path = d.put (place (Path.output options.mode path)) text.toUTF8.toList := by
  unfold convert
  split
  · exact .inl rfl
  · next bytes hread =>
      split
      · exact .inl rfl
      · next text htext =>
          split
          · exact .inl rfl
          · next d' hwrite =>
              obtain ⟨hput, hfree⟩ := write_eq_ok hwrite
              exact .inr ⟨bytes, text, get?_of_read hread, htext, hfree, hput⟩

/-- Every place of the later directory holds what it held, or lies beside one of the files. -/
def Follows (mode : Mode) (paths : List String) (d later : Directory) : Prop :=
  ∀ q, later.get? q = d.get? q ∨ ∃ path ∈ paths, Beside mode (place path) q

variable {options : Options} {paths : List String} {d later : Directory}

/-- **Converting one more file** keeps the invariant. -/
theorem Follows.convert (h : Follows options.mode paths d later) {path : String} (hpath : path ∈ paths)
    (hcompiled : Path.compiled <:+ path.toList) : Follows options.mode paths d (later.convert options path) := by
  intro q
  obtain heq | ⟨bytes, text, hread, -, hfree, heq⟩ := convert_cases options later path
  · rw [heq]
    exact h q
  · have hfile : (later.get? (place path)).isSome := Option.isSome_iff_exists.mpr ⟨bytes, hread⟩
    have hbeside := beside_of_free options.mode hcompiled hfile hfree
    generalize place (Path.output options.mode path) = out at hbeside heq
    rw [heq, get?_put]
    by_cases hq : q = out
    · exact .inr ⟨path, hpath, hq ▸ hbeside⟩
    · rw [if_neg hq]
      exact h q

/-- **Converting any of the files** does. -/
theorem follows_foldl (options : Options) (hpaths : d.Lists paths) {rest : List String} (hrest : rest ⊆ paths) :
    Follows options.mode paths d (rest.foldl (Directory.convert options) d) := by
  suffices h : ∀ later, Follows options.mode paths d later →
      Follows options.mode paths d (rest.foldl (Directory.convert options) later) from
    h d fun _ => .inl rfl
  induction rest with
  | nil => exact fun _ h => h
  | cons path rest ih =>
      intro later h
      obtain ⟨hpath, hrest⟩ := List.cons_subset.mp hrest
      exact ih hrest _ (h.convert hpath (hpaths.file hpath).1)

end Directory

namespace Session

/-! ### What leaves the directory as it is -/

variable {α β : Type}

/-- A sequence runs its first part, and the rest where that succeeds. -/
theorem run_bind (x : ExceptT Failure (StateM Session) α) (f : α → ExceptT Failure (StateM Session) β)
    (s : Session) :
    (x >>= f).run.run s = match x.run.run s with
      | (.ok a, t) => (f a).run.run t
      | (.error e, t) => (.error e, t) := by
  show ExceptT.bindCont f (x.run.run s).1 (x.run.run s).2 = _
  generalize x.run.run s = p
  obtain ⟨r, t⟩ := p
  cases r <;> rfl

/-- The computation leaves the directory as it is. -/
def Spares (x : StateM Session α) : Prop :=
  ∀ s, (x.run s).2.directory = s.directory

theorem spares_pure (a : α) : Spares (pure a) := fun _ => rfl

/-- What leaves the directory as it is may follow anything. -/
theorem directory_bind {x : StateM Session α} {f : α → StateM Session β} (hf : ∀ a, Spares (f a)) (s : Session) :
    ((x >>= f).run s).2.directory = (x.run s).2.directory :=
  hf _ _

theorem spares_bind {x : StateM Session α} {f : α → StateM Session β} (hx : Spares x) (hf : ∀ a, Spares (f a)) :
    Spares (x >>= f) :=
  fun s => (directory_bind hf s).trans (hx s)

theorem spares_tell (line : String) : Spares (host.tell line) := fun _ => rfl

/-- The lines of the messages that are shown at a level. -/
def lines (level : Level) (messages : List Message) : List String :=
  (messages.filter (·.shownAt level)).map fun message => s!"{message.level.name}: {message.text}"

/-- The session with more lines about the run. -/
def say (s : Session) (lines : List String) : Session :=
  { s with stderr := lines.foldl (fun text line => text ++ line ++ "\n") s.stderr }

/-- What is said is said in order. -/
theorem say_append (s : Session) (front back : List String) : s.say (front ++ back) = (s.say front).say back := by
  rw [say, List.foldl_append]
  rfl

/-- To log a message is to say its lines. -/
theorem run_log (level : Level) (message : Message) (s : Session) :
    (host.log level message).run s = ((), s.say (lines level [message])) := by
  rw [Host.log, lines, List.filter_cons]
  cases message.shownAt level <;> rfl

theorem spares_log (level : Level) (message : Message) : Spares (host.log level message) := by
  intro s
  rw [run_log]
  rfl

/-! ### Reading and writing -/

theorem run_lift (x : StateM Session α) (s : Session) :
    (ExceptT.lift x : ExceptT Failure (StateM Session) α).run.run s = (.ok (x.run s).1, (x.run s).2) :=
  rfl

theorem run_liftM (x : StateM Session α) (s : Session) :
    (liftM x : ExceptT Failure (StateM Session) α).run.run s = (.ok (x.run s).1, (x.run s).2) :=
  run_lift x s

/-- To load a file is to read it. -/
theorem run_load (path : String) (s : Session) : (host.load path).run.run s =
    match s.directory.read path with
    | .ok bytes => (.ok bytes, s)
    | .error fault => (.error (.unreadable path fault), s) := by
  rw [Host.load, run_bind, run_liftM, show (host.read path).run s = (s.directory.read path, s) from rfl]
  cases s.directory.read path <;> rfl

/-- To search a folder is to list its compiled files. -/
theorem run_search (folder : String) (s : Session) : (host.search folder).run.run s =
    match s.directory.scripts folder with
    | .ok paths => (.ok paths, s)
    | .error fault => (.error (.pattern fault), s) := by
  rw [Host.search, run_bind, run_liftM, show (host.scripts folder).run s = (s.directory.scripts folder, s) from rfl]
  cases s.directory.scripts folder <;> rfl

/-- To store a text is to write it. -/
theorem run_store (path text : String) (s : Session) : (host.store path text).run.run s =
    match s.directory.write path text with
    | .ok directory => (.ok (), { s with directory })
    | .error fault => (.error (.unwritable path fault), s) := by
  rw [Host.store, run_bind, run_liftM, show (host.write path text).run s = write path text s from rfl, write]
  cases s.directory.write path text <;> rfl

/-- For the options, files are only read. -/
theorem run_options (request : Request) (s : Session) : ∃ r, (host.options request).run.run s = (r, s) ∧
    ∀ options, r = .ok options → options.mode = request.mode := by
  have htable : ∀ opcodes, ∃ r, (host.table opcodes).run.run s = (r, s) := by
    intro opcodes
    cases opcodes with
    | none => exact ⟨_, rfl⟩
    | some path =>
        rw [Host.table, run_bind, run_load]
        cases s.directory.read path with
        | error fault => exact ⟨_, rfl⟩
        | ok bytes =>
            dsimp only
            split
            · exact ⟨_, rfl⟩
            · split <;> exact ⟨_, rfl⟩
  obtain ⟨r, hr⟩ := htable request.opcodes
  rw [Host.options, run_bind, hr]
  cases r with
  | error => exact ⟨_, rfl, nofun⟩
  | ok table => exact ⟨_, rfl, fun options h => by cases h; rfl⟩

/-- Messages are logged one after the other. -/
theorem run_messages (level : Level) (messages : List Message) (s : Session) :
    (messages.forM fun message => ExceptT.lift (host.log level message) :
      ExceptT Failure (StateM Session) PUnit).run.run s = (.ok (), s.say (lines level messages)) := by
  induction messages generalizing s with
  | nil => rfl
  | cons message messages ih =>
      have hlines : lines level (message :: messages) = lines level [message] ++ lines level messages := by
        rw [lines, List.filter_cons, lines, lines, List.filter_cons]
        cases message.shownAt level <;> rfl
      rw [List.forM, run_bind, run_lift, run_log, hlines, say_append]
      exact ih _

/-! ### Runs -/

/-- **One file is loaded, decompiled, reported on and stored**, up to the first of these that fails. -/
theorem run_decompileFile (level : Level) (options : Options) (path : String) (s : Session) :
    (host.decompileFile level options path).run.run s =
      match s.directory.read path with
      | .error fault => (.error (.unreadable path fault), s)
      | .ok bytes => ((decompile options bytes).outcome.1.mapError .script,
          s.say (lines level (decompile options bytes).outcome.2)) := by
  rw [Host.decompileFile, run_bind, run_load]
  cases s.directory.read path with
  | error fault => rfl
  | ok bytes =>
      dsimp only
      rw [run_bind, run_messages]
      cases (decompile options bytes).outcome.1 <;> rfl

/-- A run over one file changes the directory by its conversion. -/
theorem directory_convert (level : Level) (options : Options) (path : String) (s : Session) :
    ((host.convert level options path).run.run s).2.directory = s.directory.convert options path := by
  rw [Host.convert, run_bind, run_decompileFile, Directory.convert]
  cases s.directory.read path with
  | error => rfl
  | ok bytes =>
      dsimp only
      cases (decompile options bytes).outcome.1 with
      | error => rfl
      | ok text =>
          dsimp only [Except.mapError]
          rw [run_bind, run_store, show (s.say _).directory = s.directory from rfl]
          cases s.directory.write (Path.output options.mode path) text <;> rfl

/-- So it does with the report on the outcome. -/
theorem directory_convertAndTell (level : Level) (options : Options) (summary : Summary) (path : String)
    (s : Session) : ((host.convertAndTell level options summary path).run s).2.directory =
      s.directory.convert options path := by
  rw [Host.convertAndTell, directory_bind]
  · exact directory_convert level options path s
  · intro result
    cases result with
    | ok => exact spares_bind (spares_log _ _) fun _ => spares_pure _
    | error => exact spares_bind (spares_tell _) fun _ => spares_pure _

/-- **Files are converted one after the other**, each in the directory that the earlier ones left. -/
theorem directory_foldlM (level : Level) (options : Options) (paths : List String) (summary : Summary) (s : Session) :
    ((paths.foldlM (host.convertAndTell level options) summary).run s).2.directory =
      paths.foldl (Directory.convert options) s.directory := by
  induction paths generalizing summary s with
  | nil => rfl
  | cons path paths ih =>
      rw [List.foldlM_cons, List.foldl_cons, ← directory_convertAndTell level options summary path s]
      exact ih _ _

/-- A run over a folder converts the files that it lists, in order. -/
theorem directory_runFolder (level : Level) (request : Request) (folder : String) (s : Session) :
    ((host.runFolder level request folder).run.run s).2.directory =
      match ((host.options request).run.run s).1, s.directory.scripts folder with
      | .ok options, .ok paths => (Host.inOrder paths).foldl (Directory.convert options) s.directory
      | _, _ => s.directory := by
  obtain ⟨r, hrun, -⟩ := run_options request s
  rw [Host.runFolder, run_bind, hrun]
  cases r with
  | error => rfl
  | ok options =>
      dsimp only
      rw [run_bind, run_search]
      cases s.directory.scripts folder with
      | error => rfl
      | ok paths =>
          dsimp only
          rw [run_bind, run_lift, ← spares_log level (.found (Host.inOrder paths).length folder) s]
          exact directory_foldlM level options (Host.inOrder paths) {} _

/-- The options of a run that begins in a directory. -/
def options (request : Request) (d : Directory) : Except Failure Options :=
  ((host.options request).run.run { directory := d }).1

/-- **The directory after a run over a folder.** -/
theorem directory_run (level : Level) (request : Request) (folder : String) (d : Directory) :
    (run ⟨level, request, .folder folder⟩ d).2.directory =
      match options request d, d.scripts folder with
      | .ok options, .ok paths => (Host.inOrder paths).foldl (Directory.convert options) d
      | _, _ => d := by
  have htask : ((host.runTask ⟨level, request, .folder folder⟩).run.run { directory := d }).2.directory =
      ((host.runFolder level request folder).run.run { directory := d }).2.directory := by
    rw [Host.runTask, run_bind]
    generalize (host.runFolder level request folder).run.run { directory := d } = p
    obtain ⟨r, t⟩ := p
    cases r <;> rfl
  rw [run, Host.run, directory_bind, htask, directory_runFolder, options]
  intro result
  cases result with
  | ok => exact spares_pure _
  | error => exact spares_bind (spares_tell _) fun _ => spares_pure _

/-- The mode of a run is the one that was asked for. -/
theorem mode_of_options {request : Request} {d : Directory} {options : Options}
    (h : Session.options request d = .ok options) : options.mode = request.mode := by
  obtain ⟨r, hrun, hmode⟩ := run_options request { directory := d }
  rw [Session.options, hrun] at h
  exact hmode options h

end Session

end TorqueScript
