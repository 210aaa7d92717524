import Mathlib
import TorqueScript.Proofs.FolderRun

/-!
# Independence of the files of a run

A run over a folder reads each file when its turn comes, and by then other files have been written.  Some of these may
be inputs: the source of `a.dso.dso` is written to `a.dso`.  All the same, what becomes of a file is decided by what it
held before the run (`Directory.verdict`).

* `Directory.before_of_output`: an input with the place of an output comes before the file that the output is of, or is
  this file itself.  So it has been read when it is written to.
* `Directory.target_congr`: where a path leads depends on the folders of the directory and not on the bytes in it.
* `Directory.Kept`: the invariant of the run.  Folders stay what they are, and a place changes only if the output of a
  file that has been converted belongs there.
* `Directory.verdict_congr`: under the invariant, a file that has not been written to has the verdict that it had at
  first.

**Independence** (`Session.run_eq_verdicts`).  A run that finds each file once writes the texts, tells the failures,
counts both and ends with the status that follow from the verdicts on the files before the run.
-/

namespace TorqueScript

namespace Directory

/-! ### Verdicts -/

/-- What becomes of a file by what it holds: the text that is written to the place of its output, or why nothing is. -/
def verdict (options : Options) (d : Directory) (path : String) : Except Failure String :=
  match d.read path with
  | .error fault => .error (.unreadable path fault)
  | .ok bytes =>
    match (decompile options bytes).outcome.1 with
    | .error error => .error (.script error)
    | .ok text =>
      match d.target (Path.output options.mode path) with
      | .error fault => .error (.unwritable (Path.output options.mode path) fault)
      | .ok _ => .ok text

/-- What decompiling a file tells. -/
def messages (options : Options) (d : Directory) (path : String) : List Message :=
  match d.read path with
  | .error _ => []
  | .ok bytes => (decompile options bytes).outcome.2

/-- The lines about a file and what becomes of it. -/
def report (level : Level) (options : Options) (d : Directory) (path : String) : List String :=
  Session.lines level (d.messages options path) ++
    match d.verdict options path with
    | .ok _ => Session.lines level [.written path (Path.output options.mode path)]
    | .error failure => [s!"failed {(Failure.within path failure).message}"]

/-- A later directory with the text that the first one gives for a file. -/
def deliver (options : Options) (d later : Directory) (path : String) : Directory :=
  match d.verdict options path with
  | .ok text => later.put (place (Path.output options.mode path)) text.toUTF8.toList
  | .error _ => later

variable {options : Options} {d later : Directory} {path : String} {p : List String} {bytes : List UInt8}

/-- The verdict is that of decompiling the bytes of the file, so far as its output can be written. -/
theorem verdict_of_target (hread : d.read path = .ok bytes)
    (htarget : d.target (Path.output options.mode path) = .ok p) :
    d.verdict options path = (decompile options bytes).outcome.1.mapError .script := by
  rw [verdict, hread]
  dsimp only
  cases (decompile options bytes).outcome.1 with
  | error => rfl
  | ok text =>
      dsimp only
      rw [htarget]
      rfl

/-- A text is written if the file can be read and decompiled, and its output has a place. -/
theorem verdict_eq_ok {text : String} : d.verdict options path = .ok text ↔
    ∃ bytes p, d.read path = .ok bytes ∧ (decompile options bytes).outcome.1 = .ok text ∧
      d.target (Path.output options.mode path) = .ok p := by
  rw [verdict]
  cases hread : d.read path with
  | error => exact iff_of_false nofun (by rintro ⟨_, _, h, -⟩; cases h)
  | ok bytes =>
      dsimp only
      cases htext : (decompile options bytes).outcome.1 with
      | error =>
          refine iff_of_false nofun ?_
          rintro ⟨_, _, hbytes, htext', -⟩
          obtain rfl := Except.ok.inj hbytes
          rw [htext] at htext'
          cases htext'
      | ok text' =>
          cases htarget : d.target (Path.output options.mode path) with
          | error => exact iff_of_false nofun (by rintro ⟨_, _, -, -, h⟩; cases h)
          | ok p =>
              constructor
              · intro h
                obtain rfl : text' = text := Except.ok.inj h
                exact ⟨bytes, p, rfl, htext, rfl⟩
              · rintro ⟨_, _, hbytes, htext', -⟩
                obtain rfl := Except.ok.inj hbytes
                obtain rfl := Except.ok.inj (htext.symm.trans htext')
                rfl

/-! ### Folders -/

/-- What some file of a directory satisfies after a replacement, an earlier file or the new one does. -/
theorem any_replace (g : List String → Bool) (files : List (List String × List UInt8)) :
    (replace p bytes files).any (fun file => g file.1) = (files.any (fun file => g file.1) || g p) := by
  induction files with
  | nil => simp [replace]
  | cons file files ih =>
      obtain ⟨q, b⟩ := file
      rw [replace]
      split
      · next heq =>
          subst heq
          cases hq : g q <;> simp [hq]
      · rw [List.any_cons, List.any_cons, ih, Bool.or_assoc]

/-- Folders stay what they are when a file is put into one of them. -/
theorem isFolder_put {folder : List String} {name : String} (h : d.isFolder folder = true) (bytes : List UInt8)
    (r : List String) : (d.put (folder ++ [name]) bytes).isFolder r = d.isFolder r := by
  have hput : (d.put (folder ++ [name]) bytes).isFolder r =
      (d.isFolder r || (r.isPrefixOf (folder ++ [name]) && r != folder ++ [name])) := by
    rw [isFolder, put, any_replace (fun q => r.isPrefixOf q && r != q), ← Bool.or_assoc, isFolder]
  rw [hput, Bool.or_eq_left_iff_imp, Bool.and_eq_true, bne_iff_ne, List.isPrefixOf_iff_prefix]
  rintro ⟨haround, hne⟩
  -- what is around the file is the folder or around it
  obtain ⟨rest, rfl⟩ : r <+: folder := (List.prefix_concat_iff.mp haround).resolve_left hne
  rw [isFolder, Bool.or_eq_true, List.all_append, Bool.and_eq_true, List.any_eq_true] at h
  obtain ⟨hout, -⟩ | ⟨⟨q, b⟩, hfile, hbelow⟩ := h
  · rw [isFolder, hout, Bool.true_or]
  · rw [Bool.and_eq_true, bne_iff_ne, List.isPrefixOf_iff_prefix] at hbelow
    obtain ⟨⟨tail, rfl⟩, hne⟩ := hbelow
    have htail : tail ≠ [] := fun hnil => hne (by simp [hnil])
    rw [isFolder, Bool.or_eq_true, List.any_eq_true]
    refine .inr ⟨_, hfile, ?_⟩
    simp [htail]

/-- Advancing depends on the folders only. -/
theorem advance_congr (hfolders : ∀ r, later.isFolder r = d.isFolder r) (hfolder : d.isFolder p = true)
    (name : String) : later.advance p name = d.advance p name := by
  rw [advance_of_isFolder hfolder, advance_of_isFolder ((hfolders p).trans hfolder)]

/-- Where a path leads depends on the folders only. -/
theorem follow_congr (hfolders : ∀ r, later.isFolder r = d.isFolder r) {names q : List String}
    (h : d.follow p names = .ok q) : later.follow p names = .ok q := by
  induction names generalizing p with
  | nil => exact h
  | cons name names ih =>
      rw [follow_cons] at h ⊢
      cases hadvance : d.advance p name with
      | error => rw [hadvance] at h; cases h
      | ok r =>
          rw [hadvance] at h
          rw [advance_congr hfolders (advance_eq_ok.mp hadvance).1, hadvance]
          exact ih h

/-- So does locating. -/
theorem locate_congr (hfolders : ∀ r, later.isFolder r = d.isFolder r) (h : d.locate path = .ok p) :
    later.locate path = .ok p := by
  rw [locate] at h ⊢
  cases hstart : start path with
  | error => rw [hstart] at h; cases h
  | ok q =>
      rw [hstart] at h
      exact follow_congr hfolders h

/-- The target of a path is its place, if this can be located and is no folder. -/
theorem target_lead (d : Directory) {lead name : List Char} (hlead : Path.IsLead lead) (hname : '/' ∉ name)
    (hne : name ≠ []) : d.target (String.ofList (lead ++ name)) =
      d.locate (String.ofList (lead ++ name)) >>= fun place => if d.isFolder place then .error .isFolder else .ok place := by
  have hempty : some (String.ofList name) ≠ some "" := fun heq =>
    hne (String.ofList_injective (Option.some.inj heq))
  rw [target, Path.names_lead hlead hname, List.reverse_append]
  exact if_neg hempty

/-- An output has a name. -/
theorem outputName_ne_nil (mode : Mode) (stem : List Char) : Path.outputName mode stem ≠ [] := by
  unfold Path.outputName Path.outputStem
  split
  · exact List.cons_ne_nil _ _
  · split
    · exact List.cons_ne_nil _ _
    · next hstem => exact List.append_ne_nil_of_left_ne_nil hstem _

/-- The place of an output depends on the folders only, too. -/
theorem target_congr (mode : Mode) (hfolders : ∀ r, later.isFolder r = d.isFolder r)
    (hpath : Path.compiled <:+ path.toList) (h : d.locate path = .ok p) :
    later.target (Path.output mode path) = d.target (Path.output mode path) := by
  obtain ⟨lead, stem, hsplit, hlead, hslash⟩ := Path.exists_stem hpath
  obtain rfl : path = String.ofList (lead ++ (stem ++ Path.compiled)) := by rw [← hsplit, String.ofList_toList]
  -- the lead is the same, and so is the folder that it leads to
  obtain ⟨-, -, q, hfollow, hfolder, -⟩ := (locate_lead_eq_ok hlead (by simp [Path.compiled, hslash])
    (by simp [Path.compiled])).mp h
  have hname := Path.slash_not_mem_outputName mode hslash
  have hne := outputName_ne_nil mode stem
  rw [Path.output, String.toList_ofList, Path.withExtension_compiled mode hlead hslash]
  rw [target_lead later hlead hname hne, target_lead d hlead hname hne, locate_lead later hlead hname hne,
    locate_lead d hlead hname hne, hfollow, follow_congr hfolders hfollow]
  simp only [hfolders]
  split
  · rfl
  · exact congrArg (· >>= _) (advance_congr hfolders hfolder _)

/-- Reading depends on the folders and on the file at the place. -/
theorem read_congr (hfolders : ∀ r, later.isFolder r = d.isFolder r) (hread : d.read path = .ok bytes)
    (hget : later.get? (place path) = d.get? (place path)) : later.read path = d.read path := by
  rw [hread]
  exact read_of_locate (locate_congr hfolders (locate_of_read hread)) (hget.trans (get?_of_read hread))

/-- A file that holds what it held has the same verdict. -/
theorem verdict_congr (options : Options) (hfolders : ∀ r, later.isFolder r = d.isFolder r)
    (hpath : Path.compiled <:+ path.toList) (hread : d.read path = .ok bytes)
    (hget : later.get? (place path) = d.get? (place path)) :
    later.verdict options path = d.verdict options path ∧ later.messages options path = d.messages options path := by
  rw [verdict, verdict, messages, messages, read_congr hfolders hread hget,
    target_congr options.mode hfolders hpath (locate_of_read hread)]
  exact ⟨rfl, rfl⟩

/-! ### Which files come first -/

/-- **An input with the place of an output** is the file itself or comes before it. -/
theorem before_of_output {paths : List String} (hlists : d.Lists paths) (honce : (paths.map place).Nodup)
    {other : String} (hpath : path ∈ paths) (hother : other ∈ paths) (mode : Mode)
    (hplace : place path = place (Path.output mode other)) (hfree : d.isFolder (place path) = false) :
    path = other ∨ Path.sortKey path < Path.sortKey other := by
  have hinj := List.inj_on_of_nodup_map honce
  obtain ⟨hcompiled, hfile⟩ := hlists.file hpath
  obtain ⟨hcompiled', hfile'⟩ := hlists.file hother
  have hbeside := beside_of_free mode hcompiled' hfile' (hplace ▸ hfree)
  obtain ⟨lead', stem', hsplit', hlead', hslash'⟩ := Path.exists_stem hcompiled'
  obtain rfl : other = String.ofList (lead' ++ (stem' ++ Path.compiled)) := by rw [← hsplit', String.ofList_toList]
  obtain ⟨lead, stem, hsplit, hlead, hslash⟩ := Path.exists_stem hcompiled
  have hpathPlace : place path = place (String.ofList lead) ++ [String.ofList (stem ++ Path.compiled)] := by
    rw [← place_compiled hlead hslash, ← hsplit, String.ofList_toList]
  rw [← hplace, hpathPlace] at hbeside
  obtain ⟨rfl, -⟩ := hbeside.source_of_compiled (by rw [String.toList_ofList]; exact List.suffix_append _ _)
  obtain ⟨parent, stem'', hotherPlace, hout⟩ := hbeside
  have hotherPlace' := place_compiled hlead' hslash'
  rw [hotherPlace] at hotherPlace'
  obtain ⟨rfl, hlast⟩ := List.append_inj' hotherPlace' rfl
  obtain rfl := List.append_cancel_right (String.ofList_injective (List.cons.inj hlast).1)
  obtain ⟨hlead, hname⟩ := List.append_inj' hout rfl
  replace hname := String.ofList_injective (List.cons.inj hname).1
  rw [hlead] at hpathPlace
  by_cases hnil : stem'' = []
  · -- a file called just `.dso` is its own source
    rw [hnil, show Path.outputStem [] ++ Mode.source.ending = [] ++ Path.compiled from rfl] at hname
    refine .inl (hinj hpath hother ?_)
    rw [hpathPlace, hotherPlace, hname, hnil]
  · rw [Path.outputStem_of_ne_nil hnil, show Mode.source.ending = [] from rfl, List.append_nil] at hname
    have hsibling : String.ofList (lead' ++ stem'') ∈ paths := by
      refine hlists.together _ _ hlead' hslash' (hname ▸ List.suffix_append _ _) hother ?_
      rw [← hname, ← hpathPlace]
      exact hfile
    have hsame : path = String.ofList (lead' ++ stem'') := by
      refine hinj hpath hsibling ?_
      rw [hpathPlace, ← hname, place_compiled hlead' hslash]
    rw [hsame]
    exact .inr (Path.sortKey_lt hlead' hslash' (hname ▸ List.suffix_append _ _))

/-! ### The invariant of a run -/

/-- Folders are what they were, and a place has changed only if the output of a file that is done belongs there. -/
structure Kept (options : Options) (d : Directory) (done : List String) (later : Directory) : Prop where
  folders : ∀ r, later.isFolder r = d.isFolder r
  changed : ∀ r, later.get? r = d.get? r ∨
    ∃ path ∈ done, r = place (Path.output options.mode path) ∧ d.isFolder r = false

theorem kept_self (options : Options) (d : Directory) : Kept options d [] d :=
  ⟨fun _ => rfl, fun _ => .inl rfl⟩

/-- **Delivering one more file** keeps the invariant. -/
theorem Kept.deliver {done : List String} (h : Kept options d done later) (hpath : Path.compiled <:+ path.toList)
    (hread : d.read path = .ok bytes) : Kept options d (done ++ [path]) (d.deliver options later path) := by
  have hmono : Kept options d (done ++ [path]) later :=
    ⟨h.folders, fun r => (h.changed r).imp_right fun ⟨other, hother, hr⟩ => ⟨other, List.mem_append_left _ hother, hr⟩⟩
  rw [Directory.deliver]
  cases hverdict : d.verdict options path with
  | error => exact hmono
  | ok text =>
      obtain ⟨-, p, -, -, htarget⟩ := verdict_eq_ok.mp hverdict
      obtain ⟨rfl, hfree⟩ := target_eq_ok htarget
      have hfile : (d.get? (place path)).isSome := by rw [get?_of_read hread]; rfl
      -- the file lies in the folder where its output belongs
      obtain ⟨folder, stem, hplace, hout⟩ := beside_of_free options.mode hpath hfile hfree
      have hfolder : d.isFolder folder = true := isFolder_of_below (List.cons_ne_nil _ _) (hplace ▸ hfile)
      dsimp only
      rw [hout]
      refine ⟨fun r => ?_, fun r => ?_⟩
      · rw [isFolder_put ((h.folders folder).trans hfolder), h.folders]
      · rw [get?_put]
        split
        · next heq => exact .inr ⟨path, by simp, by rw [heq, hout], by rw [heq, ← hout, hfree]⟩
        · exact hmono.changed r

/-- **What is still to be read is as it was.** -/
theorem Kept.get?_eq {paths done rest : List String} (hlists : d.Lists paths) (honce : (paths.map place).Nodup)
    (hinputs : Host.inOrder paths = done ++ path :: rest) (h : Kept options d done later) :
    later.get? (place path) = d.get? (place path) := by
  have hperm : (done ++ path :: rest).Perm paths := hinputs ▸ Host.inOrder_perm paths
  have hmem : ∀ other ∈ done ++ path :: rest, other ∈ paths := fun other => hperm.mem_iff.mp
  obtain hsame | ⟨other, hother, hplace, hfree⟩ := h.changed (place path)
  · exact hsame
  exfalso
  obtain rfl | hlt := before_of_output hlists honce (hmem path (by simp)) (hmem other (by simp [hother]))
    options.mode hplace hfree
  · -- no file is taken twice
    have hnodup : (done ++ path :: rest).Nodup := hperm.nodup_iff.mpr (List.Nodup.of_map _ honce)
    exact (List.nodup_append.mp hnodup).2.2 path hother path List.mem_cons_self rfl
  · have hsorted := Host.pairwise_inOrder paths
    rw [hinputs] at hsorted
    exact not_le.mpr hlt ((List.pairwise_append.mp hsorted).2.2 other hother path List.mem_cons_self)

end Directory

namespace Session

open Directory

/-! ### Runs -/

/-- The session in another directory. -/
def inDirectory (s : Session) (directory : Directory) : Session :=
  { s with directory }

/-- Converting one file has its verdict for a result, and says what the verdict is. -/
theorem run_convert (level : Level) (options : Options) (path : String) (s : Session) :
    (host.convert level options path).run.run s =
      ((s.directory.verdict options path).map fun _ => Path.output options.mode path,
        (s.say (lines level (s.directory.messages options path))).inDirectory
          (s.directory.deliver options s.directory path)) := by
  rw [Host.convert, run_bind, run_decompileFile, deliver, verdict, messages]
  cases s.directory.read path with
  | error => rfl
  | ok bytes =>
      dsimp only
      cases (decompile options bytes).outcome.1 with
      | error => rfl
      | ok text =>
          dsimp only [Except.mapError]
          rw [run_bind, run_store, show (s.say _).directory = s.directory from rfl, Directory.write]
          cases htarget : s.directory.target (Path.output options.mode path) with
          | error => rfl
          | ok p =>
              obtain ⟨rfl, -⟩ := target_eq_ok htarget
              rfl

/-- **A step of a run** goes by the verdict on the file as it is then. -/
theorem run_convertAndTell (level : Level) (options : Options) (summary : Summary) (path : String) (s : Session) :
    (host.convertAndTell level options summary path).run s =
      (summary.add (s.directory.verdict options path),
        (s.say (s.directory.report level options path)).inDirectory
          (s.directory.deliver options s.directory path)) := by
  rw [Host.convertAndTell, StateT.run_bind, run_convert, report, say_append]
  cases s.directory.verdict options path with
  | error => rfl
  | ok text =>
      show ((host.log level _ >>= fun _ => pure _ : StateM Session Summary).run _) = _
      rw [StateT.run_bind, run_log]
      rfl

variable {options : Options} {d : Directory} {folder : String} {paths : List String}

/-- **The loop of a run** goes by the verdicts on the files before the run. -/
theorem run_foldlM (hlists : d.Lists paths) (honce : (paths.map place).Nodup)
    (level : Level) {done rest : List String} (summary : Summary) (s : Session)
    (hinputs : Host.inOrder paths = done ++ rest) (hkept : Kept options d done s.directory) :
    (rest.foldlM (host.convertAndTell level options) summary).run s =
      (rest.foldl (fun summary path => summary.add (d.verdict options path)) summary,
        (s.say (rest.flatMap (d.report level options))).inDirectory (rest.foldl (d.deliver options) s.directory)) := by
  induction rest generalizing done summary s with
  | nil => rfl
  | cons path rest ih =>
      have hpath : path ∈ paths := (Host.inOrder_perm paths).mem_iff.mp (by simp [hinputs])
      obtain ⟨hcompiled, bytes, hread⟩ := hlists.reads path hpath
      have hget := hkept.get?_eq hlists honce hinputs
      obtain ⟨hverdict, hmessages⟩ := verdict_congr options hkept.folders hcompiled hread hget
      have hreport : s.directory.report level options path = d.report level options path := by
        rw [report, report, hverdict, hmessages]
      have hdeliver : s.directory.deliver options s.directory path = d.deliver options s.directory path := by
        rw [deliver, deliver, hverdict]
      rw [List.foldlM_cons, StateT.run_bind, run_convertAndTell, hverdict, hreport, hdeliver, List.flatMap_cons,
        say_append]
      exact ih _ _ (by rw [hinputs, List.append_assoc]; rfl) (hkept.deliver hcompiled hread)

/-- A tally counts the files that succeed and those that fail. -/
theorem foldl_add (verdict : String → Except Failure String) (paths : List String) (summary : Summary) :
    paths.foldl (fun summary path => summary.add (verdict path)) summary =
      ⟨summary.succeeded + paths.countP fun path => (verdict path).isOk,
        summary.failed + paths.countP fun path => !(verdict path).isOk⟩ := by
  induction paths generalizing summary with
  | nil => rfl
  | cons path paths ih =>
      rw [List.foldl_cons, ih, List.countP_cons, List.countP_cons]
      cases hverdict : verdict path <;> simp [Summary.add, Except.isOk, Except.toBool, Nat.add_assoc, Nat.add_comm]

/-- How many files of a folder can be decompiled and how many cannot, by what they hold. -/
def tally (options : Options) (d : Directory) (paths : List String) : Summary where
  succeeded := paths.countP fun path => (d.verdict options path).isOk
  failed := paths.countP fun path => !(d.verdict options path).isOk

/-- **A run over a folder has the verdicts of its files for a result**, each on the bytes from before the run. -/
theorem run_runFolder (hlists : d.Lists paths) {request : Request} (hoptions : Session.options request d = .ok options)
    (hpaths : d.scripts folder = .ok paths) (honce : (paths.map place).Nodup) (level : Level) :
    (host.runFolder level request folder).run.run { directory := d } =
      (.ok (tally options d paths), (Session.say { directory := d } (lines level [.found paths.length folder] ++
        (Host.inOrder paths).flatMap (d.report level options))).inDirectory
          ((Host.inOrder paths).foldl (d.deliver options) d)) := by
  have hperm := Host.inOrder_perm paths
  have hrun : (host.options request).run.run { directory := d } = (.ok options, { directory := d }) := by
    obtain ⟨r, hrun, -⟩ := run_options request { directory := d }
    rw [Session.options, hrun] at hoptions
    rw [hrun, ← hoptions]
  rw [Host.runFolder, run_bind, hrun]
  dsimp only
  rw [run_bind, run_search, hpaths]
  dsimp only
  rw [run_bind, run_lift, run_log, hperm.length_eq]
  dsimp only
  have hloop := run_foldlM hlists honce level {}
    (Session.say { directory := d } (lines level [.found paths.length folder])) (List.nil_append _).symm
    (kept_self options d)
  rw [run_lift, hloop, foldl_add, say_append]
  simp only [tally, hperm.countP_eq, Nat.zero_add]
  rfl

/-- The run writes what the verdicts give, tells them and ends with their status. -/
theorem run_folder (hlists : d.Lists paths) {request : Request} (hoptions : Session.options request d = .ok options)
    (hpaths : d.scripts folder = .ok paths) (honce : (paths.map place).Nodup) (level : Level) :
    run ⟨level, request, .folder folder⟩ d =
      (exitStatus ((tally options d paths).failed = 0),
        (Session.say { directory := d } (lines level [.found paths.length folder] ++
          (Host.inOrder paths).flatMap (d.report level options) ++ [(tally options d paths).text])).inDirectory
            ((Host.inOrder paths).foldl (d.deliver options) d)) := by
  rw [run, Host.run, StateT.run_bind, Host.runTask, run_bind, run_runFolder hlists hoptions hpaths honce level,
    say_append _ (_ ++ _)]
  rfl

/-- The run fails exactly if one of its files does. -/
theorem exitStatus_eq_one {options : Options} {d : Directory} {paths : List String} :
    exitStatus ((tally options d paths).failed = 0) = 1 ↔ ∃ path ∈ paths, (d.verdict options path).isOk = false := by
  have hfailed : (tally options d paths).failed = 0 ↔ ¬ ∃ path ∈ paths, (d.verdict options path).isOk = false := by
    simp [tally, List.countP_eq_zero]
  rw [exitStatus, ← not_iff_not, ← hfailed]
  by_cases h : (tally options d paths).failed = 0 <;> simp [h]

/-- **Independence of files.**  In a run that finds each file once, what becomes of a file is what decompiling the bytes
that it held before the run gives, so far as the output can be written.  The texts are written one after the other; of a
file that fails, nothing is.  What is told, the counts and the status follow from this. -/
theorem run_eq_verdicts (files : List (String × List UInt8)) (level : Level) (request : Request) (folder : String)
    (options : Options) (paths : List String) :
    let d := Directory.ofFiles files
    Session.options request d = .ok options → d.scripts folder = .ok paths → (paths.map place).Nodup →
    (∀ path ∈ paths, ∃ bytes, d.read path = .ok bytes ∧
      ∀ p, d.target (Path.output options.mode path) = .ok p →
        d.verdict options path = (decompile options bytes).outcome.1.mapError .script) ∧
    run ⟨level, request, .folder folder⟩ d =
      (exitStatus ((tally options d paths).failed = 0),
        (Session.say { directory := d } (lines level [.found paths.length folder] ++
          (Host.inOrder paths).flatMap (d.report level options) ++ [(tally options d paths).text])).inDirectory
            ((Host.inOrder paths).foldl (d.deliver options) d)) ∧
    ((run ⟨level, request, .folder folder⟩ d).1 = 1 ↔ ∃ path ∈ paths, (d.verdict options path).isOk = false) := by
  intro d hoptions hpaths honce
  have hlists := lists_of_scripts (divided_ofFiles files) hpaths
  have hrun := run_folder hlists hoptions hpaths honce level
  refine ⟨fun path hpath => ?_, hrun, ?_⟩
  · obtain ⟨-, bytes, hread⟩ := hlists.reads path hpath
    exact ⟨bytes, hread, fun p htarget => verdict_of_target hread htarget⟩
  · rw [hrun]
    exact exitStatus_eq_one

/-- A compiled file whose only statement is a number. -/
def numberFile (n : UInt8) : List UInt8 :=
  [0x21, 0, 0, 0, 0, 0, 0, 0, 0, 0, 0, 0, 0, 0, 0, 0, 0, 0, 0, 0, 2, 0, 0, 0, 0, 0, 0, 0, 0x3f, n, 0, 0, 0, 0]

theorem eq_ok_of_toOption {ε α : Type} {x : Except ε α} {a : α} (h : x.toOption = some a) : x = .ok a := by
  cases x with
  | ok b => rw [Option.some.inj h]
  | error => cases h

/-- Two compiled files, of which one has the name that the source of the other gets, and one that is no compiled file. -/
def stackedAndBroken : List (String × List UInt8) :=
  [("a.dso", numberFile 1), ("a.dso.dso", numberFile 2), ("b.dso", [])]

/-- The run lists all three files. -/
theorem scripts_stackedAndBroken :
    (Directory.ofFiles stackedAndBroken).scripts "." = .ok ["a.dso", "a.dso.dso", "b.dso"] := by
  have hentries : ((Directory.ofFiles stackedAndBroken).view.entries ".").run = ["a.dso", "a.dso.dso", "b.dso"] := by
    cbv
  refine (View.scripts_here (by decide +kernel) ?_).trans ?_
  · rw [hentries]
    decide +kernel
  · rw [hentries]
    rfl

/-- The source of `a.dso` is that of what it held at first, although it is written to as well. -/
theorem run_eq_verdicts_stackedAndBroken :
    let d := Directory.ofFiles stackedAndBroken
    d.scripts "." = .ok ["a.dso", "a.dso.dso", "b.dso"] ∧
    (run ⟨.warn, {}, .folder "."⟩ d).1 = 1 ∧
    (run ⟨.warn, {}, .folder "."⟩ d).2.directory =
      (d.put ["a"] "1;\n".toUTF8.toList).put ["a.dso"] "2;\n".toUTF8.toList := by
  intro d
  have hfirst : d.verdict {} "a.dso" = .ok "1;\n" := by
    rw [verdict_of_target (eq_ok_of_toOption (a := numberFile 1) (by decide +kernel))
      (eq_ok_of_toOption (a := ["a"]) (by decide +kernel))]
    cbv
  have hsecond : d.verdict {} "a.dso.dso" = .ok "2;\n" := by
    rw [verdict_of_target (eq_ok_of_toOption (a := numberFile 2) (by decide +kernel))
      (eq_ok_of_toOption (a := ["a.dso"]) (by decide +kernel))]
    cbv
  have hthird : d.verdict {} "b.dso" = .error (.script .endOfInput) := by
    rw [verdict_of_target (eq_ok_of_toOption (a := []) (by decide +kernel))
      (eq_ok_of_toOption (a := ["b"]) (by decide +kernel))]
    cbv
  have horder : Host.inOrder ["a.dso", "a.dso.dso", "b.dso"] = ["a.dso", "a.dso.dso", "b.dso"] := by cbv
  obtain ⟨-, hrun, hstatus⟩ := run_eq_verdicts stackedAndBroken .warn {} "." {} _ rfl scripts_stackedAndBroken
    (by decide +kernel)
  refine ⟨scripts_stackedAndBroken, hstatus.mpr ⟨"b.dso", by simp, by rw [hthird]; rfl⟩, ?_⟩
  rw [hrun, horder]
  show ["a.dso", "a.dso.dso", "b.dso"].foldl (d.deliver {}) d = _
  simp only [List.foldl_cons, List.foldl_nil, deliver, hfirst, hsecond, hthird]
  rfl

end Session

end TorqueScript
