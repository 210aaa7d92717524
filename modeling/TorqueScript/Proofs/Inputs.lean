import Mathlib
import TorqueScript.Proofs.Independence

/-!
# Inputs of a run

A run over a folder writes beside its inputs, and a file of two extensions has its source where a file of one extension
is.  This is the only way in which a run changes an input.

* `Directory.place_of_delivered`: only the file with one extension more has its source at the place of a compiled file.
* `Directory.target_of_isFolder_eq_false`: this source can be written, unless there is a folder.
* `Directory.get?_foldl_deliver`: what a run delivers to a place stays there if nothing else is delivered to it.

**Inputs and outputs** (`Session.inputs_of_run`).  Listings and trees leave all compiled files as they are.  In source
mode, a compiled file is left as it is, or holds the source of what the file with one extension more held before the run,
and this as soon as the run takes that file and can decompile it.  Different inputs have different outputs.  That an input
does get lost in this way is seen in `Session.run_stacked`.

All this is so far as no file called just `.dso` is concerned, which has no extension to be replaced.
-/

namespace TorqueScript

namespace Directory

variable {options : Options} {d later : Directory} {paths : List String} {path text name : String}
  {folder : List String}

/-! ### What is delivered to a place -/

/-- A place keeps what it holds as long as nothing is delivered to it. -/
theorem get?_foldl_deliver_of_ne {rest : List String} {q : List String}
    (h : ∀ path ∈ rest, ∀ text, d.verdict options path = .ok text → place (Path.output options.mode path) ≠ q) :
    (rest.foldl (d.deliver options) later).get? q = later.get? q := by
  induction rest generalizing later with
  | nil => rfl
  | cons path rest ih =>
      obtain ⟨hpath, hrest⟩ := List.forall_mem_cons.mp h
      rw [List.foldl_cons, ih hrest, deliver]
      cases hverdict : d.verdict options path with
      | error => rfl
      | ok text => exact (get?_put ..).trans (if_neg (Ne.symm (hpath text hverdict)))

/-- **What is delivered last** to a place stays there. -/
theorem get?_foldl_deliver {front back : List String} (hverdict : d.verdict options path = .ok text)
    (hback : ∀ other ∈ back, ∀ text, d.verdict options other = .ok text →
      place (Path.output options.mode other) ≠ place (Path.output options.mode path)) :
    ((front ++ path :: back).foldl (d.deliver options) later).get? (place (Path.output options.mode path)) =
      some text.toUTF8.toList := by
  rw [List.foldl_append, List.foldl_cons, get?_foldl_deliver_of_ne hback, deliver, hverdict]
  exact (get?_put ..).trans (if_pos rfl)

/-! ### Sources at places of compiled files -/

/-- Only the file with one extension more has its source at the place of a compiled file. -/
theorem place_of_delivered (hlists : d.Lists paths) (hpath : path ∈ paths)
    (hverdict : d.verdict options path = .ok text)
    (hplace : place (Path.output options.mode path) = folder ++ [name]) (hname : Path.compiled <:+ name.toList)
    (hdso : name ≠ ".dso") : place path = folder ++ [name ++ ".dso"] := by
  obtain ⟨hcompiled, hfile⟩ := hlists.file hpath
  obtain ⟨-, p, -, -, htarget⟩ := verdict_eq_ok.mp hverdict
  obtain ⟨rfl, hfree⟩ := target_eq_ok htarget
  have hbeside := beside_of_free options.mode hcompiled hfile hfree
  rw [hplace] at hbeside
  exact (hbeside.source_of_compiled hname).2 hdso

/-- The source of a file with two extensions can be written, unless there is a folder at its place. -/
theorem target_of_isFolder_eq_false (hlists : d.Lists paths) (hpath : path ∈ paths)
    (hplace : place path = folder ++ [name ++ ".dso"]) (hname : Path.compiled <:+ name.toList)
    (hfree : d.isFolder (folder ++ [name]) = false) :
    d.target (Path.output .source path) = .ok (folder ++ [name]) := by
  obtain ⟨hcompiled, bytes, hread⟩ := hlists.reads path hpath
  obtain ⟨lead, stem, hsplit, hlead, hslash⟩ := Path.exists_stem hcompiled
  obtain rfl : path = String.ofList (lead ++ (stem ++ Path.compiled)) := by rw [← hsplit, String.ofList_toList]
  -- the lead leads to the folder, and the stem is the name
  rw [place_compiled hlead hslash] at hplace
  obtain ⟨hfolder, hlast⟩ := List.append_inj' hplace rfl
  obtain rfl : stem = name.toList := by
    have hnames := congrArg String.toList (List.cons.inj hlast).1
    rw [String.toList_ofList, String.toList_append] at hnames
    exact List.append_cancel_right hnames
  have hne : ∀ cs : List Char, cs.length < 4 → name.toList ≠ cs := fun cs => Path.ne_of_compiled hname
  have houtput : Path.outputName .source name.toList = name.toList := by
    rw [Path.outputName, if_neg (hne ['.'] (by decide)), Path.outputStem_of_ne_nil (hne [] (by decide))]
    exact List.append_nil _
  have hlocate := locate_shorter hlead (by simp [Path.compiled, hslash]) (hne [] (by decide)) (locate_of_read hread)
  rw [step_name (hne [] (by decide)) (hne ['.'] (by decide)) (hne ['.', '.'] (by decide)), hfolder,
    String.ofList_toList] at hlocate
  rw [Path.output, String.toList_ofList, Path.withExtension_compiled .source hlead hslash, houtput,
    target_lead d hlead hslash (hne [] (by decide)), hlocate]
  show (if d.isFolder (folder ++ [name]) then _ else _) = _
  rw [hfree]
  rfl

/-- **The source of the file with one extension more** is at the place of a compiled file in the end. -/
theorem get?_foldl_deliver_source (hlists : d.Lists paths) (honce : (paths.map place).Nodup) (hpath : path ∈ paths)
    (hverdict : d.verdict options path = .ok text)
    (hplace : place (Path.output options.mode path) = folder ++ [name]) (hname : Path.compiled <:+ name.toList)
    (hdso : name ≠ ".dso") :
    ((Host.inOrder paths).foldl (d.deliver options) later).get? (folder ++ [name]) = some text.toUTF8.toList := by
  have hperm := Host.inOrder_perm paths
  obtain ⟨front, back, hsplit⟩ := List.append_of_mem (hperm.mem_iff.mpr hpath)
  rw [hsplit] at hperm ⊢
  rw [← hplace]
  refine get?_foldl_deliver hverdict fun other hother text' hverdict' hsame => ?_
  -- the other file would be at the same place, and no file is taken twice
  have hmem : other ∈ paths := hperm.mem_iff.mp (by simp [hother])
  have heq : place other = place path :=
    (place_of_delivered hlists hmem hverdict' (hsame.trans hplace) hname hdso).trans
      (place_of_delivered hlists hpath hverdict hplace hname hdso).symm
  obtain rfl := List.inj_on_of_nodup_map honce hmem hpath heq
  have hnodup : (front ++ other :: back).Nodup := hperm.nodup_iff.mpr (List.Nodup.of_map _ honce)
  exact (List.nodup_cons.mp (List.nodup_append.mp hnodup).2.1).1 hother

end Directory

namespace Session

open Directory

/-! ### Runs -/

/-- The run takes the file at the place, and what this held before the run decompiles to the text. -/
def Supplies (request : Request) (d : Directory) (folder : String) (p : List String) (text : String) : Prop :=
  ∃ options paths, Session.options request d = .ok options ∧ d.scripts folder = .ok paths ∧
    ∃ path ∈ paths, place path = p ∧ ∃ bytes, d.get? p = some bytes ∧ (decompile options bytes).outcome.1 = .ok text

/-- Every compiled file below the folder is found once. -/
def FindsOnce (d : Directory) (folder : String) : Prop :=
  ∀ paths, d.scripts folder = .ok paths → (paths.map place).Nodup

variable {options : Options} {d : Directory} {folder : String} {paths : List String}

/-- A run without options, or with a pattern that cannot be read, changes nothing. -/
theorem directory_run_cases (level : Level) (request : Request) (folder : String) (d : Directory) :
    (run ⟨level, request, .folder folder⟩ d).2.directory = d ∨ ∃ options paths,
      Session.options request d = .ok options ∧ d.scripts folder = .ok paths ∧
      (run ⟨level, request, .folder folder⟩ d).2.directory =
        (Host.inOrder paths).foldl (Directory.convert options) d := by
  rw [directory_run]
  cases hoptions : Session.options request d with
  | error => exact .inl rfl
  | ok options =>
      cases hpaths : d.scripts folder with
      | error => exact .inl rfl
      | ok paths => exact .inr ⟨options, paths, rfl, rfl, rfl⟩

/-- **A compiled file changes** only in source mode. -/
theorem get?_run_of_ne_source (hd : d.Divided) (level : Level) {request : Request} (hmode : request.mode ≠ .source)
    (p : List String) {name : String} (hname : Path.compiled <:+ name.toList) :
    (run ⟨level, request, .folder folder⟩ d).2.directory.get? (p ++ [name]) = d.get? (p ++ [name]) := by
  obtain heq | ⟨options, paths, hoptions, hpaths, heq⟩ := directory_run_cases level request folder d
  · rw [heq]
  · rw [heq]
    obtain hsame | ⟨path, -, hbeside⟩ := follows_foldl options (lists_of_scripts hd hpaths)
      (Host.inOrder_perm paths).subset (p ++ [name])
    · exact hsame
    · exact absurd ((mode_of_options hoptions).symm.trans (hbeside.source_of_compiled hname).1) hmode

/-- **With every file found once, a run delivers its outputs.** -/
theorem directory_run_eq_deliver (hd : d.Divided) (honce : FindsOnce d folder) (level : Level) {request : Request}
    (hoptions : Session.options request d = .ok options) (hpaths : d.scripts folder = .ok paths) :
    (run ⟨level, request, .folder folder⟩ d).2.directory = (Host.inOrder paths).foldl (d.deliver options) d := by
  rw [run_folder (lists_of_scripts hd hpaths) hoptions hpaths (honce paths hpaths) level]
  rfl

/-- **A compiled file that changes** holds the source of the file with one extension more. -/
theorem get?_run (hd : d.Divided) (honce : FindsOnce d folder) (level : Level) (request : Request) (p : List String)
    {name : String} (hname : Path.compiled <:+ name.toList) (hdso : name ≠ ".dso") :
    (run ⟨level, request, .folder folder⟩ d).2.directory.get? (p ++ [name]) = d.get? (p ++ [name]) ∨
      ∃ text, Supplies request d folder (p ++ [name ++ ".dso"]) text ∧
        (run ⟨level, request, .folder folder⟩ d).2.directory.get? (p ++ [name]) = some text.toUTF8.toList := by
  obtain heq | ⟨options, paths, hoptions, hpaths, -⟩ := directory_run_cases level request folder d
  · rw [heq]
    exact .inl rfl
  rw [directory_run_eq_deliver hd honce level hoptions hpaths]
  have hlists := lists_of_scripts hd hpaths
  by_cases hnone : ∀ path ∈ Host.inOrder paths, ∀ text, d.verdict options path = .ok text →
      place (Path.output options.mode path) ≠ p ++ [name]
  · exact .inl (get?_foldl_deliver_of_ne hnone)
  · push Not at hnone
    obtain ⟨path, hmem, text, hverdict, hplace⟩ := hnone
    have hpath : path ∈ paths := (Host.inOrder_perm paths).mem_iff.mp hmem
    obtain ⟨bytes, -, hread, htext, -⟩ := verdict_eq_ok.mp hverdict
    have hfrom := place_of_delivered hlists hpath hverdict hplace hname hdso
    refine .inr ⟨text, ⟨options, paths, hoptions, hpaths, path, hpath, hfrom, bytes, ?_, htext⟩, ?_⟩
    · rw [← hfrom]
      exact get?_of_read hread
    · exact get?_foldl_deliver_source hlists (honce paths hpaths) hpath hverdict hplace hname hdso

/-- **A source that a run supplies** is written, unless there is a folder at its place. -/
theorem get?_run_of_supplies (hd : d.Divided) (honce : FindsOnce d folder) (level : Level) {request : Request}
    (hmode : request.mode = .source) {p : List String} {name text : String} (hname : Path.compiled <:+ name.toList)
    (hdso : name ≠ ".dso") (hsupplies : Supplies request d folder (p ++ [name ++ ".dso"]) text)
    (hfree : d.isFolder (p ++ [name]) = false) :
    (run ⟨level, request, .folder folder⟩ d).2.directory.get? (p ++ [name]) = some text.toUTF8.toList := by
  obtain ⟨options, paths, hoptions, hpaths, path, hpath, hfrom, bytes, hbytes, htext⟩ := hsupplies
  have hlists := lists_of_scripts hd hpaths
  have hsource : options.mode = .source := (mode_of_options hoptions).trans hmode
  have htarget := target_of_isFolder_eq_false hlists hpath hfrom hname hfree
  rw [← hsource] at htarget
  obtain ⟨-, bytes', hread⟩ := hlists.reads path hpath
  obtain rfl : bytes' = bytes := by
    rw [← hfrom] at hbytes
    exact Option.some.inj ((get?_of_read hread).symm.trans hbytes)
  have hverdict : d.verdict options path = .ok text := verdict_eq_ok.mpr ⟨bytes', _, hread, htext, htarget⟩
  rw [directory_run_eq_deliver hd honce level hoptions hpaths]
  exact get?_foldl_deliver_source hlists (honce paths hpaths) hpath hverdict (target_eq_ok htarget).1 hname hdso

/-- Different files have different outputs, so far as anything can be written to their places. -/
theorem place_inj_of_output (hlists : d.Lists paths) (mode : Mode) {path other : String} (hpath : path ∈ paths)
    (hother : other ∈ paths) (hpathDso : (place path).getLast? ≠ some ".dso")
    (hotherDso : (place other).getLast? ≠ some ".dso")
    (heq : place (Path.output mode path) = place (Path.output mode other))
    (hfree : d.isFolder (place (Path.output mode path)) = false) : place path = place other := by
  obtain ⟨hcompiled, hfile⟩ := hlists.file hpath
  obtain ⟨hcompiled', hfile'⟩ := hlists.file hother
  have hbeside := beside_of_free mode hcompiled hfile hfree
  rw [heq] at hfree hbeside
  exact hbeside.inj (beside_of_free mode hcompiled' hfile' hfree) hpathDso hotherDso

/-- **Inputs and outputs.**  A run over a folder changes a compiled file only in source mode.  If it finds each file once,
it then leaves the file as it is, or replaces it by the source of what the file with one extension more held before the
run; and it does so if it takes that file and can decompile it.  Different files have different outputs, so far as anything
can be written to their places.  Left out are files called just `.dso`: their sources in the second part, and all of them
in the third. -/
theorem inputs_of_run (files : List (String × List UInt8)) (level : Level) (request : Request) (folder : String) :
    let d := Directory.ofFiles files
    let later := (run ⟨level, request, .folder folder⟩ d).2.directory
    (request.mode ≠ .source → ∀ p name, Path.compiled <:+ name.toList →
      later.get? (p ++ [name]) = d.get? (p ++ [name])) ∧
    (request.mode = .source → FindsOnce d folder → ∀ p name, Path.compiled <:+ name.toList → name ≠ ".dso" →
      (later.get? (p ++ [name]) = d.get? (p ++ [name]) ∨
        ∃ text, Supplies request d folder (p ++ [name ++ ".dso"]) text ∧
          later.get? (p ++ [name]) = some text.toUTF8.toList) ∧
      ∀ text, Supplies request d folder (p ++ [name ++ ".dso"]) text → d.isFolder (p ++ [name]) = false →
        later.get? (p ++ [name]) = some text.toUTF8.toList) ∧
    ∀ paths, d.scripts folder = .ok paths → ∀ path ∈ paths, ∀ other ∈ paths,
      (place path).getLast? ≠ some ".dso" → (place other).getLast? ≠ some ".dso" →
      place (Path.output request.mode path) = place (Path.output request.mode other) →
      place path = place other ∨ d.isFolder (place (Path.output request.mode path)) = true := by
  intro d later
  have hd : d.Divided := divided_ofFiles files
  refine ⟨fun hmode p name hname => get?_run_of_ne_source hd level hmode p hname,
    fun hmode honce p name hname hdso => ⟨get?_run hd honce level request p hname hdso, fun text hsupplies hfree => ?_⟩,
    fun paths hpaths path hpath other hother hpathDso hotherDso heq => ?_⟩
  · exact get?_run_of_supplies hd honce level hmode hname hdso hsupplies hfree
  · cases hfree : d.isFolder (place (Path.output request.mode path)) with
    | true => exact .inr rfl
    | false =>
        exact .inl (place_inj_of_output (lists_of_scripts hd hpaths) request.mode hpath hother hpathDso hotherDso heq
          hfree)

/-! ### A file with the name of a source -/

/-- Two compiled files, of which one has the name that the source of the other gets. -/
def stacked : List (String × List UInt8) :=
  [("a.dso", numberFile 1), ("a.dso.dso", numberFile 2)]

/-- The run lists both files. -/
theorem scripts_stacked : (Directory.ofFiles stacked).scripts "." = .ok ["a.dso", "a.dso.dso"] := by
  have hentries : ((Directory.ofFiles stacked).view.entries ".").run = ["a.dso", "a.dso.dso"] := by cbv
  refine (View.scripts_here (by decide +kernel) ?_).trans ?_
  · rw [hentries]
    decide +kernel
  · rw [hentries]
    rfl

/-- It lists each once. -/
theorem findsOnce_stacked : FindsOnce (Directory.ofFiles stacked) "." := by
  intro paths hpaths
  obtain rfl := Except.ok.inj (scripts_stacked.symm.trans hpaths)
  decide +kernel

/-- The second file supplies the source of its own script. -/
theorem supplies_stacked : Supplies {} (Directory.ofFiles stacked) "." ["a.dso.dso"] "2;\n" := by
  have htext : (decompile {} (numberFile 2)).outcome.1 = .ok "2;\n" := by cbv
  exact ⟨{}, _, rfl, scripts_stacked, "a.dso.dso", by simp, by decide +kernel, numberFile 2, by decide +kernel, htext⟩

/-- The listing of `a.dso` leaves it as it is, and the source of `a.dso.dso` replaces it.  There is no third file whose
source could have the name `a.dso.dso`. -/
theorem inputs_of_run_stacked :
    (run ⟨.warn, { mode := .listing }, .folder "."⟩ (Directory.ofFiles stacked)).2.directory.get? ["a.dso"] =
      some (numberFile 1) ∧
    (run ⟨.warn, {}, .folder "."⟩ (Directory.ofFiles stacked)).2.directory.get? ["a.dso"] =
      some "2;\n".toUTF8.toList ∧
    (run ⟨.warn, {}, .folder "."⟩ (Directory.ofFiles stacked)).2.directory.get? ["a.dso.dso"] = some (numberFile 2) ∧
    place (Path.output .source "a.dso") ≠ place (Path.output .source "a.dso.dso") := by
  have hlisting := inputs_of_run stacked .warn { mode := .listing } "."
  have hsource := inputs_of_run stacked .warn {} "."
  refine ⟨?_, ?_, ?_, fun heq => ?_⟩
  · exact (hlisting.1 nofun [] "a.dso" (by decide)).trans (by decide +kernel)
  · exact (hsource.2.1 rfl findsOnce_stacked [] "a.dso" (by decide) (by decide)).2 _ supplies_stacked (by decide +kernel)
  · obtain h | ⟨_, ⟨_, _, -, -, _, -, -, _, hfile, -⟩, -⟩ :=
      (hsource.2.1 rfl findsOnce_stacked [] "a.dso.dso" (by decide) (by decide)).1
    · exact h.trans (by decide +kernel)
    · have hnone : (Directory.ofFiles stacked).get? ["a.dso.dso.dso"] = none := by decide +kernel
      cases hnone.symm.trans hfile
  · obtain h | h := hsource.2.2 _ scripts_stacked "a.dso" (by simp) "a.dso.dso" (by simp) (by decide +kernel)
      (by decide +kernel) heq
    · exact absurd h (by decide +kernel)
    · exact absurd h (by decide +kernel)

/-- An input is lost: the source of `a.dso.dso` replaces `a.dso`.  And without a stem, two files have one place for their
listings. -/
theorem run_stacked :
    (Directory.ofFiles stacked).scripts "." = .ok ["a.dso", "a.dso.dso"] ∧
    (run ⟨.warn, {}, .folder "."⟩ (Directory.ofFiles stacked)).2.directory.get? ["a.dso"] ≠
      (Directory.ofFiles stacked).get? ["a.dso"] ∧
    Path.output .listing ".dso" = Path.output .listing ".dso.dso" := by
  have hlater : (run ⟨.warn, {}, .folder "."⟩ (Directory.ofFiles stacked)).2.directory.get? ([] ++ ["a.dso"]) =
      some "2;\n".toUTF8.toList :=
    get?_run_of_supplies (divided_ofFiles stacked) findsOnce_stacked .warn rfl (by decide) (by decide) supplies_stacked
      (by decide +kernel)
  refine ⟨scripts_stacked, fun heq => ?_, by decide +kernel⟩
  exact absurd (hlater.symm.trans heq) (by decide +kernel)

end Session

end TorqueScript
