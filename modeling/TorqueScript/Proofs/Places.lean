import Mathlib
import TorqueScript.Command.Session

/-!
# Places of outputs

Where a path leads (`Directory.place`), as far as it leads anywhere, depends on its text only.  The output of a compiled
file is written beside it (`Directory.Beside`).

* `Directory.beside_of_free`: the output of a file is written beside it, unless its path is that of a folder.
* `Directory.Beside.inj`: different files have different places beside them.
* `Directory.Beside.source_of_compiled`: only a source has the place of another compiled file.

A file called just `.dso` has no extension to be replaced, so the last two do not hold of it.
-/

namespace TorqueScript

namespace Path

/-! ### Names at the end of paths -/

/-- The text in front of a name: nothing, or something that ends in a separator. -/
def IsLead (lead : List Char) : Prop :=
  lead = [] ∨ ∃ folder, lead = folder ++ ['/']

/-- The extension of compiled files, with its dot. -/
def compiled : List Char :=
  ['.', 'd', 's', 'o']

/-- Each path is a way to a folder and a name. -/
theorem exists_lead (path : List Char) : ∃ lead name, path = lead ++ name ∧ IsLead lead ∧ '/' ∉ name := by
  induction path with
  | nil => exact ⟨[], [], rfl, .inl rfl, List.not_mem_nil⟩
  | cons c path ih =>
      obtain ⟨lead, name, rfl, hlead, hname⟩ := ih
      obtain rfl | ⟨folder, rfl⟩ := hlead
      · by_cases hc : c = '/'
        · exact ⟨['/'], name, by rw [hc]; rfl, .inr ⟨[], rfl⟩, hname⟩
        · exact ⟨[], c :: name, rfl, .inl rfl, by simp [hname, Ne.symm hc]⟩
      · exact ⟨c :: (folder ++ ['/']), name, rfl, .inr ⟨c :: folder, rfl⟩, hname⟩

/-- The path of a compiled file falls into a lead, a stem and the extension. -/
theorem exists_stem {path : List Char} (h : compiled <:+ path) :
    ∃ lead stem, path = lead ++ (stem ++ compiled) ∧ IsLead lead ∧ '/' ∉ stem := by
  obtain ⟨front, rfl⟩ := h
  obtain ⟨lead, stem, rfl, hlead, hstem⟩ := exists_lead front
  exact ⟨lead, stem, List.append_assoc .., hlead, hstem⟩

/-- A name is not trimmed from the end of a path. -/
theorem trimReversed_name {name : List Char} (hslash : '/' ∉ name) (hne : name ≠ []) (hdot : name ≠ ['.'])
    (rest : List Char) : trimReversed (name.reverse ++ rest) = name.reverse ++ rest := by
  rw [← List.mem_reverse] at hslash
  rw [Ne, ← List.reverse_eq_nil_iff] at hne
  rw [Ne, ← List.reverse_inj] at hdot
  generalize name.reverse = reversed at *
  match reversed, hne with
  | [c], _ =>
      simp only [List.mem_singleton] at hslash
      unfold trimReversed
      split <;> simp_all
  | c :: d :: cs, _ =>
      simp only [List.mem_cons, not_or] at hslash
      unfold trimReversed
      split <;> simp_all

/-- **A path is split before its last name**, unless that leads up. -/
theorem splitName_lead {lead name : List Char} (hlead : IsLead lead) (hslash : '/' ∉ name) (hne : name ≠ [])
    (hdot : name ≠ ['.']) :
    splitName (lead ++ name) = if name = ['.', '.'] then none else some (lead, name) := by
  have hall : ∀ c ∈ name.reverse, (c != '/') = true := by
    intro c hc
    simpa using ne_of_mem_of_not_mem (List.mem_reverse.mp hc) hslash
  have htake : (name.reverse ++ lead.reverse).takeWhile (· != '/') = name.reverse := by
    rw [List.takeWhile_append_of_pos hall]
    obtain rfl | ⟨folder, rfl⟩ := hlead <;> simp
  have hdrop : (name.reverse ++ lead.reverse).dropWhile (· != '/') = lead.reverse := by
    rw [List.dropWhile_append_of_pos hall]
    obtain rfl | ⟨folder, rfl⟩ := hlead <;> simp
  rw [splitName, List.reverse_append, trimReversed_name hslash hne hdot]
  simp [htake, hdrop, hne, hdot]

/-- An extension is split off behind the last dot, if something stands before it. -/
theorem splitExtension_append {stem extension : List Char} (hstem : stem ≠ []) (hdot : '.' ∉ extension) :
    splitExtension (stem ++ '.' :: extension) = (stem, some extension) := by
  have hall : ∀ c ∈ extension.reverse, (c != '.') = true := by
    intro c hc
    simpa using ne_of_mem_of_not_mem (List.mem_reverse.mp hc) hdot
  have hreverse : (stem ++ '.' :: extension).reverse = extension.reverse ++ '.' :: stem.reverse := by simp
  have hdrop : (stem ++ '.' :: extension).reverse.dropWhile (· != '.') = '.' :: stem.reverse := by
    rw [hreverse, List.dropWhile_append_of_pos hall]
    simp
  have htake : (stem ++ '.' :: extension).reverse.takeWhile (· != '.') = extension.reverse := by
    rw [hreverse, List.takeWhile_append_of_pos hall]
    simp
  rw [splitExtension, hdrop, htake]
  obtain ⟨c, cs, hcs⟩ := List.exists_cons_of_ne_nil (List.reverse_ne_nil_iff.mpr hstem)
  rw [hcs]
  show ((c :: cs).reverse, some extension.reverse.reverse) = (stem, some extension)
  rw [← hcs, List.reverse_reverse, List.reverse_reverse]

end Path

/-! ### Names of outputs -/

/-- What an output has in the place of the extension `.dso`. -/
def Mode.ending (mode : Mode) : List Char :=
  if mode.extension.toList = [] then [] else '.' :: mode.extension.toList

namespace Path

/-- What the name of an output begins with.  The name `.dso` is a stem and has no extension. -/
def outputStem (stem : List Char) : List Char :=
  if stem = [] then compiled else stem

/-- The name of an output.  Two dots are left of `..dso`, and these are no name. -/
def outputName (mode : Mode) (stem : List Char) : List Char :=
  if stem = ['.'] then ['.', '.'] else outputStem stem ++ mode.ending

/-- An output is named as the input, if there is a name left. -/
theorem outputStem_of_ne_nil {stem : List Char} (h : stem ≠ []) : outputStem stem = stem :=
  if_neg h

/-- The name of an output is a name, with no way in it. -/
theorem slash_not_mem_outputName (mode : Mode) {stem : List Char} (h : '/' ∉ stem) :
    '/' ∉ outputName mode stem := by
  have hending : '/' ∉ mode.ending := by cases mode <;> decide
  have hstem : '/' ∉ outputStem stem := by
    rw [outputStem]
    split
    · decide
    · exact h
  rw [outputName]
  split
  · decide
  · simp [hstem, hending]

/-- The path of a compiled file is split before its name. -/
theorem splitName_compiled {lead stem : List Char} (hlead : IsLead lead) (hslash : '/' ∉ stem) :
    splitName (lead ++ (stem ++ compiled)) = some (lead, stem ++ compiled) := by
  have hdots : stem ++ compiled ≠ ['.', '.'] := by
    intro h
    simpa [compiled] using congrArg List.length h
  rw [splitName_lead hlead, if_neg hdots]
  all_goals simp [compiled, hslash, List.append_eq_cons_iff]

/-- The extension of a compiled file is cut off. -/
theorem cutExtension_compiled {lead stem : List Char} (hlead : IsLead lead) (hslash : '/' ∉ stem)
    (hstem : stem ≠ []) : cutExtension (lead ++ (stem ++ compiled)) = lead ++ (stem ++ ['.']) := by
  have hparts : splitExtension (stem ++ compiled) = (stem, some ['d', 's', 'o']) :=
    splitExtension_append hstem (by decide)
  have hpath : lead ++ (stem ++ compiled) = lead ++ (stem ++ ['.']) ++ ['d', 's', 'o'] := by simp [compiled]
  rw [cutExtension, splitName_compiled hlead hslash]
  simp only [hparts]
  rw [hpath, List.length_append, Nat.add_sub_cancel, List.take_left]

/-- The path of the output of a compiled file. -/
theorem withExtension_compiled (mode : Mode) {lead stem : List Char} (hlead : IsLead lead) (hslash : '/' ∉ stem) :
    withExtension mode.extension.toList (lead ++ (stem ++ compiled)) = lead ++ outputName mode stem := by
  by_cases hstem : stem = []
  · subst hstem
    have hname : splitName (lead ++ compiled) = some (lead, compiled) := splitName_compiled hlead hslash
    have hparts : splitExtension compiled = (compiled, none) := rfl
    rw [List.nil_append, withExtension, cutExtension, hname]
    simp only [hparts]
    rw [putExtension, hname]
    simp [hparts, outputName, outputStem, Mode.ending]
  · have hname : splitName (lead ++ (stem ++ ['.'])) =
        if stem = ['.'] then none else some (lead, stem ++ ['.']) := by
      rw [splitName_lead hlead]
      · simp [List.append_eq_cons_iff]
      all_goals simp [hslash, hstem]
    rw [withExtension, cutExtension_compiled hlead hslash hstem, putExtension, hname, outputName,
      outputStem_of_ne_nil hstem]
    by_cases hdot : stem = ['.']
    · simp [hdot]
    · simp [hdot, splitExtension_append hstem (List.not_mem_nil : '.' ∉ []), Mode.ending]

/-- A separator divides the names in front of it from those behind it. -/
theorem split_append (cs ds : List Char) : split (cs ++ '/' :: ds) = split cs ++ split ds := by
  induction cs with
  | nil => simp [split]
  | cons c cs ih =>
      rw [List.cons_append, split, split, ih]
      split
      · rfl
      · cases h : split cs with
        | nil => exact absurd h (split_ne_nil cs)
        | cons name names => rfl

end Path

namespace Directory

/-! ### Places of paths -/

/-- The place a path leads to, if it leads anywhere. -/
def place (path : String) : List String :=
  (Path.names path).foldl step (if Path.isAbsolute path then ["/"] else [])

/-- The place of a path is a step by its last name from the place of its folder. -/
theorem place_lead {lead name : List Char} (hlead : Path.IsLead lead) (hname : '/' ∉ name) :
    place (String.ofList (lead ++ name)) = step (place (String.ofList lead)) (String.ofList name) := by
  obtain rfl | ⟨folder, rfl⟩ := hlead
  · have hhead : name.head? ≠ some '/' := fun h => hname (List.mem_of_mem_head? h)
    simp [place, Path.names, Path.isAbsolute, Path.split_name hname, hhead, Path.split, step, Path.isStill]
  · have hhead : (folder ++ '/' :: name).head? = (folder ++ ['/']).head? := by cases folder <;> rfl
    rw [List.append_assoc, List.singleton_append]
    simp [place, Path.names, Path.isAbsolute, Path.split_append, hhead, Path.split_name hname, Path.split, step,
      Path.isStill]

/-- An ordinary name leads down. -/
theorem step_name {name : List Char} (hne : name ≠ []) (hdot : name ≠ ['.']) (hdots : name ≠ ['.', '.'])
    (p : List String) : step p (String.ofList name) = p ++ [String.ofList name] := by
  have hofList : ∀ cs, name ≠ cs → String.ofList name ≠ String.ofList cs := fun cs h heq =>
    h (String.ofList_injective heq)
  have hstill : Path.isStill (String.ofList name) = false := by
    simpa [Path.isStill] using ⟨hne, hofList ['.'] hdot⟩
  rw [step, hstill, if_neg (by decide), if_neg (hofList ['.', '.'] hdots)]

variable {d : Directory} {path : String} {p q : List String}

/-- Following names that can be followed is taking their steps. -/
theorem follow_eq_ok {names : List String} (h : d.follow p names = .ok q) : names.foldl step p = q := by
  induction names generalizing p with
  | nil => cases h; rfl
  | cons name names ih =>
      rw [follow] at h
      cases henter : d.enter p with
      | error => rw [henter] at h; cases h
      | ok =>
          rw [henter] at h
          by_cases hlong : Path.maxNameSize < name.utf8ByteSize
          · rw [if_pos hlong] at h; cases h
          · rw [if_neg hlong] at h
            exact ih h

theorem start_eq_ok (h : start path = .ok p) : (if Path.isAbsolute path then ["/"] else []) = p := by
  unfold start at h
  split at h
  · cases h
  · split at h
    · cases h
    · exact Except.ok.inj h

/-- A path that is located leads to its place. -/
theorem locate_eq_ok (h : d.locate path = .ok p) : place path = p := by
  rw [locate] at h
  cases hstart : start path with
  | error => rw [hstart] at h; cases h
  | ok p₀ =>
      rw [hstart] at h
      rw [place, start_eq_ok hstart]
      exact follow_eq_ok h

/-- **What is read at a path is the file at its place.** -/
theorem get?_of_read {bytes : List UInt8} (h : d.read path = .ok bytes) : d.get? (place path) = some bytes := by
  rw [read] at h
  cases hlocate : d.locate path with
  | error => rw [hlocate] at h; cases h
  | ok p =>
      rw [hlocate] at h
      rw [locate_eq_ok hlocate]
      cases hget : d.get? p with
      | some bytes =>
          simp only [hget, bind, Except.bind] at h
          rw [Except.ok.inj h]
      | none =>
          simp only [hget, bind, Except.bind] at h
          split at h <;> cases h

/-- A target that is found is the place of the path, and no folder. -/
theorem target_eq_ok (h : d.target path = .ok p) : place path = p ∧ d.isFolder p = false := by
  rw [target] at h
  split at h
  · cases hstart : start path with
    | error => rw [hstart] at h; cases h
    | ok p₀ =>
        rw [hstart] at h
        simp only [bind, Except.bind] at h
        split at h
        · cases h
        · split at h <;> cases h
  · cases hlocate : d.locate path with
    | error => rw [hlocate] at h; cases h
    | ok q =>
        rw [hlocate] at h
        simp only [bind, Except.bind] at h
        split at h
        · cases h
        · next hfolder =>
            cases h
            exact ⟨locate_eq_ok hlocate, by simpa using hfolder⟩

/-- **What is written at a path is put at its place**, where no folder may be. -/
theorem write_eq_ok {text : String} {d' : Directory} (h : d.write path text = .ok d') :
    d' = d.put (place path) text.toUTF8.toList ∧ d.isFolder (place path) = false := by
  rw [write] at h
  cases htarget : d.target path with
  | error => rw [htarget] at h; cases h
  | ok p =>
      rw [htarget] at h
      obtain ⟨rfl, hfree⟩ := target_eq_ok htarget
      exact ⟨(Except.ok.inj h).symm, hfree⟩

/-! ### Ways up -/

/-- Only ways out stand in front of a way up. -/
def IsNormal (p : List String) : Prop :=
  ∀ r, r ++ [".."] <+: p → r.all isOutward = true

/-- Only names that lead up at the front are kept in a place. -/
theorem IsNormal.append {name : String} (h : IsNormal p) (hname : name = ".." → p.all isOutward = true) :
    IsNormal (p ++ [name]) := by
  intro r hr
  obtain heq | hr := List.prefix_concat_iff.mp hr
  · obtain ⟨rfl, hlast⟩ := List.append_inj' heq rfl
    exact hname (List.cons.inj hlast).1.symm
  · exact h r hr

theorem isNormal_step (h : IsNormal p) (name : String) : IsNormal (step p name) := by
  unfold step
  split
  · exact h
  · split
    · unfold up
      split
      · next hnone =>
          obtain rfl := List.getLast?_eq_none_iff.mp hnone
          exact h.append fun _ => rfl
      · next hlast =>
          obtain ⟨r, rfl⟩ := List.getLast?_eq_some_iff.mp hlast
          exact h.append fun _ => by simp [h r (List.prefix_refl _), isOutward]
      · exact h
      · exact fun r hr => h r (hr.trans (List.dropLast_prefix p))
    · next hdots => exact h.append fun heq => absurd heq hdots

/-- The place of a path has names that lead up at its front only. -/
theorem isNormal_place (path : String) : IsNormal (place path) := by
  have hstart : IsNormal (if Path.isAbsolute path then ["/"] else []) := by
    split
    · exact IsNormal.append (p := []) (fun r hr => by simp at hr) nofun
    · exact fun r hr => by simp at hr
  rw [place]
  generalize Path.names path = names
  generalize (if Path.isAbsolute path then ["/"] else []) = p at hstart
  induction names generalizing p with
  | nil => exact hstart
  | cons name names ih => exact ih _ (isNormal_step hstart name)

/-- A place with a file below it is a folder. -/
theorem isFolder_of_below {r : List String} (hr : r ≠ []) (h : (d.get? (p ++ r)).isSome) : d.isFolder p = true := by
  obtain ⟨bytes, hbytes⟩ := Option.isSome_iff_exists.mp h
  obtain ⟨front, back, hfiles, -⟩ := List.lookup_eq_some_iff.mp hbytes
  rw [isFolder, hfiles]
  simp [hr]

/-- What is above the folder of a file is a folder. -/
theorem isFolder_up {name : String} (hp : IsNormal p) (h : (d.get? (p ++ [name])).isSome) :
    d.isFolder (up p) = true := by
  unfold up
  split
  · next hnone =>
      obtain rfl := List.getLast?_eq_none_iff.mp hnone
      rfl
  · next hlast =>
      obtain ⟨r, rfl⟩ := List.getLast?_eq_some_iff.mp hlast
      simp [isFolder, hp r (List.prefix_refl _), isOutward]
  · exact isFolder_of_below (List.cons_ne_nil _ _) h
  · next last _ _ hlast =>
      obtain ⟨r, rfl⟩ := List.getLast?_eq_some_iff.mp hlast
      rw [List.dropLast_concat]
      rw [List.append_assoc] at h
      exact isFolder_of_below (by simp) h

/-! ### Places beside files -/

/-- The second place is that of the output of a file at the first. -/
def Beside (mode : Mode) (p q : List String) : Prop :=
  ∃ folder stem, p = folder ++ [String.ofList (stem ++ Path.compiled)] ∧
    q = folder ++ [String.ofList (Path.outputStem stem ++ mode.ending)]

/-- A compiled file has a name before its extension, unless it has none but the extension. -/
theorem stem_ne_nil {folder : List String} {stem : List Char}
    (h : (folder ++ [String.ofList (stem ++ Path.compiled)]).getLast? ≠ some ".dso") : stem ≠ [] := by
  rintro rfl
  exact h (by simp [Path.compiled])

/-- **Different files have different places beside them**, so far as they are not called just `.dso`. -/
theorem Beside.inj {mode : Mode} {p p' : List String} (h : Beside mode p q) (h' : Beside mode p' q)
    (hp : p.getLast? ≠ some ".dso") (hp' : p'.getLast? ≠ some ".dso") : p = p' := by
  obtain ⟨folder, stem, rfl, rfl⟩ := h
  obtain ⟨folder', stem', rfl, heq⟩ := h'
  obtain ⟨rfl, hname⟩ := List.append_inj' heq rfl
  rw [Path.outputStem_of_ne_nil (stem_ne_nil hp), Path.outputStem_of_ne_nil (stem_ne_nil hp')] at hname
  obtain rfl := List.append_cancel_right (String.ofList_injective (List.cons.inj hname).1)
  rfl

/-- **Only a source has the place of a compiled file**, and is that of the file with one extension more. -/
theorem Beside.source_of_compiled {mode : Mode} {name : String} (h : Beside mode p (q ++ [name]))
    (hname : Path.compiled <:+ name.toList) :
    mode = .source ∧ (name ≠ ".dso" → p = q ++ [name ++ ".dso"]) := by
  obtain ⟨folder, stem, rfl, heq⟩ := h
  obtain ⟨rfl, hlast⟩ := List.append_inj' heq rfl
  obtain rfl := (List.cons.inj hlast).1
  rw [String.toList_ofList] at hname
  cases mode with
  | source =>
      refine ⟨rfl, fun hne => ?_⟩
      have hstem : stem ≠ [] := by
        rintro rfl
        exact hne (by decide)
      rw [Path.outputStem_of_ne_nil hstem]
      simp [Mode.ending, Mode.extension, Path.compiled]
  | listing | tree =>
      have hend := hname.getLast (by decide)
      simp [Mode.ending, Mode.extension, Path.compiled] at hend

/-- The place of a compiled file is its name in the place of its folder. -/
theorem place_compiled {lead stem : List Char} (hlead : Path.IsLead lead) (hslash : '/' ∉ stem) :
    place (String.ofList (lead ++ (stem ++ Path.compiled))) =
      place (String.ofList lead) ++ [String.ofList (stem ++ Path.compiled)] := by
  rw [place_lead hlead (by simp [Path.compiled, hslash]), step_name]
  all_goals
    intro h
    simpa [Path.compiled] using congrArg List.length h

/-- **Outputs** are written beside their files, so far as their paths are not those of folders. -/
theorem beside_of_free (mode : Mode) (hpath : Path.compiled <:+ path.toList) (hfile : (d.get? (place path)).isSome)
    (hfree : d.isFolder (place (Path.output mode path)) = false) :
    Beside mode (place path) (place (Path.output mode path)) := by
  obtain ⟨lead, stem, hsplit, hlead, hslash⟩ := Path.exists_stem hpath
  obtain rfl : path = String.ofList (lead ++ (stem ++ Path.compiled)) := by rw [← hsplit, String.ofList_toList]
  rw [place_compiled hlead hslash] at hfile ⊢
  have hout : place (Path.output mode (String.ofList (lead ++ (stem ++ Path.compiled)))) =
      step (place (String.ofList lead)) (String.ofList (Path.outputName mode stem)) := by
    rw [Path.output, String.toList_ofList, Path.withExtension_compiled mode hlead hslash,
      place_lead hlead (Path.slash_not_mem_outputName mode hslash)]
  rw [hout] at hfree ⊢
  by_cases hdots : Path.outputName mode stem = ['.', '.']
  · -- the path leads up again, and there is a folder
    have hup : d.isFolder (up (place (String.ofList lead))) = true := isFolder_up (isNormal_place _) hfile
    rw [hdots] at hfree
    exact absurd (hup.symm.trans hfree) (by decide)
  · have hdot : stem ≠ ['.'] := fun h => hdots (if_pos h)
    have hstem : Path.outputStem stem ≠ [] ∧ Path.outputStem stem ≠ ['.'] := by
      rw [Path.outputStem]
      split
      · decide
      · next hne => exact ⟨hne, hdot⟩
    rw [Path.outputName, if_neg hdot] at hdots ⊢
    refine ⟨_, stem, rfl, step_name (by simp [hstem.1]) ?_ hdots _⟩
    intro h
    obtain ⟨hnil, -⟩ | ⟨hone, -⟩ := List.append_eq_singleton_iff.mp h
    · exact hstem.1 hnil
    · exact hstem.2 hone

end Directory

end TorqueScript
