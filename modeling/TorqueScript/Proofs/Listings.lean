import Mathlib
import TorqueScript.Proofs.Reaching

/-!
# Listings

Runs over folders rest on two facts about the paths that they take (`Directory.Lists`), and on nothing else that a search
does: these are paths of compiled files that can be read, and compiled files that lie side by side are listed together.
Both are facts about the search for a pattern (`Directory.lists_of_scripts`).

* `View.Finds`: how a search comes to a path, as a relation beside the function (`View.Finds.mem`, `View.finds_of_mem`),
  so that each fact about what is found is an induction on it.
* `View.Finds.found`: what is found is a compiled file.
* `View.Finds.gathers`: with a file, all compiled files among the entries of its folder are found.
-/

namespace TorqueScript

/-! ### Patterns of compiled files -/

/-- The part that asks for the names of compiled files. -/
def View.anyCompiled : Pattern.Part :=
  .any (.anyText :: Path.compiled.map .char)

namespace Pattern

open View (anyCompiled)

/-- The last part asks for the name of a compiled file. -/
def AsksForCompiled (parts : List Part) : Prop :=
  ∀ part, parts.getLast? = some part → ∀ name, part.accepts name = true → Path.compiled <:+ name

/-- The last part is the one that asks for compiled files, or one that no name meets. -/
def EndsInCompiled (parts : List Part) : Prop :=
  ∀ part, parts.getLast? = some part → part = anyCompiled ∨ part = .folders

/-- What is left of a pattern for compiled files is one too. -/
theorem EndsInCompiled.of_suffix {parts rest : List Part} (h : EndsInCompiled parts) (hrest : rest <:+ parts) :
    EndsInCompiled rest := by
  intro part hpart
  obtain ⟨front, rfl⟩ := hrest
  exact h part (by rw [List.getLast?_append, hpart]; rfl)

theorem suffix_of_mem_suffixes {cs ds : List Char} (h : ds ∈ suffixes cs) : ds <:+ cs := by
  induction cs with
  | nil => exact List.mem_singleton.mp h ▸ List.suffix_refl _
  | cons c cs ih =>
      obtain rfl | h := List.mem_cons.mp h
      · exact List.suffix_refl _
      · exact (ih h).trans (List.suffix_cons c cs)

/-- A text that ends as asked for. -/
theorem suffix_of_accepts {cs ds : List Char} (h : accepts (.anyText :: cs.map .char) ds = true) : cs <:+ ds := by
  rw [accepts] at h
  obtain ⟨ds', hds', h⟩ := List.any_eq_true.mp h
  rw [(accepts_map_char cs ds').mp h]
  exact suffix_of_mem_suffixes hds'

/-- A pattern for compiled files asks for compiled files at its end. -/
theorem EndsInCompiled.asksForCompiled {parts : List Part} (h : EndsInCompiled parts) : AsksForCompiled parts := by
  intro part hpart name haccepts
  obtain rfl | rfl := h part hpart
  · exact suffix_of_accepts haccepts
  · cases haccepts

/-- The last part of a pattern is that of its last name, if that is not all of it. -/
theorem getLast?_parts {c : Char} {cs name : List Char} {ts : List Token} {parts : List Part} (hname : '/' ∉ name)
    (hts : tokens 0 none name = .ok ts) (h : Pattern.parts (c :: cs ++ '/' :: name) = .ok parts) :
    parts.getLast? = some (Part.ofTokens ts) := by
  have hinner : ∃ ds, (if (c :: cs ++ '/' :: name).head? = some '/' then (c :: cs ++ '/' :: name).tail
      else c :: cs ++ '/' :: name) = ds ++ '/' :: name := by
    split
    · exact ⟨cs, rfl⟩
    · exact ⟨c :: cs, rfl⟩
  obtain ⟨ds, hds⟩ := hinner
  simp only [Pattern.parts, hds, Path.split_append, Path.split_name hname, List.mapM_append] at h
  cases htokens : tokens 0 none (c :: cs ++ '/' :: name) with
  | error => rw [htokens] at h; cases h
  | ok =>
      rw [htokens] at h
      cases hfront : (Path.split ds).mapM fun name => Part.ofTokens <$> tokens 0 none name with
      | error => rw [hfront] at h; cases h
      | ok front =>
          rw [hfront, List.mapM_cons, hts] at h
          have hparts : front ++ [Part.ofTokens ts] = parts := Except.ok.inj h
          rw [← hparts, List.getLast?_concat]

/-- The last part of the pattern of a search asks for the names of compiled files. -/
theorem getLast?_scriptsBelow {folder : String} {parts : List Part} (h : scriptsBelow folder = .ok parts) :
    parts.getLast? = some (.any (.anyText :: Path.compiled.map .char)) := by
  have hstars : ∃ front, (Path.child folder "**").toList = front ++ ['*', '*'] := by
    rw [Path.child]
    split
    · exact ⟨folder.toList, by simp⟩
    · exact ⟨folder.toList ++ ['/'], by simp⟩
  obtain ⟨front, hstars⟩ := hstars
  obtain ⟨c, cs, hcs⟩ := List.exists_cons_of_ne_nil (l := front ++ ['*', '*']) (by simp)
  have htext : (Path.child (Path.child folder "**") "*.dso").toList = c :: cs ++ '/' :: ['*', '.', 'd', 's', 'o'] := by
    rw [Path.child, hstars, List.getLast?_append]
    simp [hstars, ← hcs]
  rw [scriptsBelow, htext] at h
  have hts : tokens 0 none ['*', '.', 'd', 's', 'o'] = .ok (.anyText :: Path.compiled.map .char) := rfl
  exact getLast?_parts (by decide) hts h

/-- **The pattern of a listing asks for compiled files.** -/
theorem endsInCompiled_of_scriptsBelow {folder : String} {parts : List Part} (h : scriptsBelow folder = .ok parts) :
    EndsInCompiled parts := by
  intro part hpart
  exact .inl (Option.some.inj (hpart.symm.trans (getLast?_scriptsBelow h)))

theorem mem_suffixes_of_suffix {cs ds : List Char} (h : ds <:+ cs) : ds ∈ suffixes cs := by
  induction cs with
  | nil =>
      rw [List.suffix_nil.mp h]
      exact List.mem_singleton_self _
  | cons c cs ih =>
      rw [suffixes, List.mem_cons]
      obtain rfl | h := List.suffix_cons_iff.mp h
      · exact .inl rfl
      · exact .inr (ih h)

/-- Any name with the extension is accepted. -/
theorem accepts_anyCompiled {name : List Char} (h : Path.compiled <:+ name) : anyCompiled.accepts name = true := by
  show accepts (.anyText :: Path.compiled.map .char) name = true
  rw [accepts, List.any_eq_true]
  exact ⟨Path.compiled, mem_suffixes_of_suffix h, (accepts_map_char _ _).mpr rfl⟩

end Pattern

/-! ### Searching -/

namespace View

open Pattern

theorem behind_suffix (parts : List Part) : behind parts <:+ parts := by
  fun_induction behind parts with
  | case1 parts ih => exact ih.trans (List.suffix_cons _ _)
  | case2 part parts => exact List.suffix_cons _ _
  | case3 => exact List.suffix_refl _

theorem own_suffix (parts : List Part) : own parts <:+ parts := by
  unfold own
  split
  · exact behind_suffix _
  · exact List.suffix_refl _

/-- What is searched for below ends as the pattern does. -/
theorem endsInCompiled_below {parts : List Part} (h : EndsInCompiled parts) : EndsInCompiled (below parts) := by
  unfold below
  split
  · next parts =>
      intro part hpart
      rw [List.getLast?_cons] at hpart
      cases hlast : (behind (.folders :: parts)).getLast? with
      | none =>
          rw [hlast] at hpart
          exact .inr (Option.some.inj hpart).symm
      | some last =>
          rw [hlast] at hpart
          obtain rfl := Option.some.inj hpart
          exact h.of_suffix (behind_suffix _) _ hlast
  · exact nofun

/-- A name within a folder comes last in its path. -/
theorem suffix_within (folder name : String) : name.toList <:+ (Path.within folder name).toList := by
  rw [Path.within, Path.child]
  split
  · exact List.suffix_refl _
  · split
    · rw [String.toList_append]
      exact List.suffix_append _ _
    · rw [String.toList_append]
      exact List.suffix_append _ _

variable {view : View Id} {fuel : Nat} {part : Part} {rest : List Part} {path r : String}

/-- A file is found at its own path, if it is a file. -/
theorem mem_fileAt_iff : r ∈ (view.fileAt path).run ↔ r = path ∧ (view.isFile path).run = true := by
  rw [fileAt, Id.run_bind]
  split
  · next hfile => simp [hfile]
  · next hfile => simp [hfile]

/-- What is found from a folder on. -/
theorem mem_find_succ_iff (hpart : ∀ text, part ≠ .name text) :
    r ∈ (view.find (fuel + 1) (part :: rest) path).run ↔ (view.isFolder path).run = true ∧
      ((∃ dot ∈ [".", ".."].filter fun dot => part.beginsWithDot && part.accepts dot.toList,
          r ∈ (view.find fuel rest (Path.child path dot)).run) ∨
        ∃ name ∈ (view.entries path).run,
          r ∈ (view.find fuel (below (part :: rest)) (Path.within path name)).run ∨
          ∃ part' rest', own (part :: rest) = part' :: rest' ∧ part'.accepts name.toList = true ∧
            (rest' ≠ [] ∧ r ∈ (view.find fuel rest' (Path.within path name)).run ∨
              rest' = [] ∧ r = Path.within path name ∧ (view.isFile r).run = true)) := by
  rw [find]
  · rw [Id.run_bind]
    by_cases hfolder : (view.isFolder path).run = true
    · rw [if_pos hfolder]
      simp only [Id.run_bind, Id.run_pure, List.idRun_mapM, List.mem_append, List.mem_flatten, List.mem_map,
        List.mem_reverse, hfolder, true_and, exists_exists_and_eq_and]
      refine or_congr_right (exists_congr fun name => and_congr_right fun _ => ?_)
      cases hown : own (part :: rest) with
      | nil => simp
      | cons part' rest' =>
          by_cases haccepts : part'.accepts name.toList = true
          · cases rest' with
            | nil =>
                simp only [haccepts, if_true, List.isEmpty_nil, Id.run_bind, Id.run_pure, List.mem_append,
                  mem_fileAt_iff, List.cons.injEq]
                constructor
                · rintro (⟨rfl, hfile⟩ | h)
                  · exact .inr ⟨part', [], ⟨rfl, rfl⟩, haccepts, .inr ⟨rfl, rfl, hfile⟩⟩
                  · exact .inl h
                · rintro (h | ⟨_, _, ⟨rfl, rfl⟩, -, ⟨hne, -⟩ | ⟨-, rfl, hfile⟩⟩)
                  · exact .inr h
                  · exact absurd rfl hne
                  · exact .inl ⟨rfl, hfile⟩
            | cons next rest' =>
                simp only [haccepts, if_true, List.isEmpty_cons, Bool.false_eq_true, if_false, Id.run_bind, Id.run_pure,
                  List.mem_append, List.cons.injEq]
                constructor
                · rintro (h | h)
                  · exact .inr ⟨part', _, ⟨rfl, rfl⟩, haccepts, .inl ⟨List.cons_ne_nil _ _, h⟩⟩
                  · exact .inl h
                · rintro (h | ⟨_, _, ⟨rfl, rfl⟩, -, ⟨-, h⟩ | ⟨hnil, -⟩⟩)
                  · exact .inr h
                  · exact .inl h
                  · cases hnil
          · simp only [haccepts, List.cons.injEq]
            constructor
            · exact .inl
            · rintro (h | ⟨_, _, ⟨rfl, rfl⟩, haccepts', -⟩)
              · exact h
              · exact absurd haccepts' haccepts
    · rw [if_neg hfolder]
      simp [hfolder]
  · exact hpart

/-- How a search comes to a path: by names of folders, by the folder itself and the one around it, and by what
is below entries, to an entry that meets the last part. -/
inductive Finds (view : View Id) (r : String) : Nat → List Part → String → Prop where
  | name {fuel : Nat} {text : List Char} {rest : List Part} {path : String}
      (hfolder : (view.isFolder (Path.within path (String.ofList text))).run = true)
      (h : Finds view r fuel rest (Path.within path (String.ofList text))) :
      Finds view r fuel (.name text :: rest) path
  | dot {fuel : Nat} {part : Part} {rest : List Part} {path dot : String} (hpart : ∀ text, part ≠ .name text)
      (hfolder : (view.isFolder path).run = true)
      (hdot : dot ∈ [".", ".."].filter fun dot => part.beginsWithDot && part.accepts dot.toList)
      (h : Finds view r fuel rest (Path.child path dot)) : Finds view r (fuel + 1) (part :: rest) path
  | deeper {fuel : Nat} {part : Part} {rest : List Part} {path name : String} (hpart : ∀ text, part ≠ .name text)
      (hfolder : (view.isFolder path).run = true) (hname : name ∈ (view.entries path).run)
      (h : Finds view r fuel (below (part :: rest)) (Path.within path name)) :
      Finds view r (fuel + 1) (part :: rest) path
  | own {fuel : Nat} {part part' : Part} {rest rest' : List Part} {path name : String}
      (hpart : ∀ text, part ≠ .name text) (hfolder : (view.isFolder path).run = true)
      (hname : name ∈ (view.entries path).run) (hown : own (part :: rest) = part' :: rest')
      (haccepts : part'.accepts name.toList = true) (hne : rest' ≠ [])
      (h : Finds view r fuel rest' (Path.within path name)) : Finds view r (fuel + 1) (part :: rest) path
  | file {fuel : Nat} {part part' : Part} {rest : List Part} {path name : String}
      (hpart : ∀ text, part ≠ .name text) (hfolder : (view.isFolder path).run = true)
      (hname : name ∈ (view.entries path).run) (hown : own (part :: rest) = [part'])
      (haccepts : part'.accepts name.toList = true) (hr : r = Path.within path name)
      (hfile : (view.isFile r).run = true) : Finds view r (fuel + 1) (part :: rest) path

/-- **What a pattern leads to is found.** -/
theorem Finds.mem {parts : List Part} (h : Finds view r fuel parts path) : r ∈ (view.find fuel parts path).run := by
  induction h with
  | name hfolder _ ih => rwa [find, Id.run_bind, if_pos hfolder]
  | dot hpart hfolder hdot _ ih => exact (mem_find_succ_iff hpart).mpr ⟨hfolder, .inl ⟨_, hdot, ih⟩⟩
  | deeper hpart hfolder hname _ ih => exact (mem_find_succ_iff hpart).mpr ⟨hfolder, .inr ⟨_, hname, .inl ih⟩⟩
  | own hpart hfolder hname hown haccepts hne _ ih =>
      exact (mem_find_succ_iff hpart).mpr ⟨hfolder, .inr ⟨_, hname, .inr ⟨_, _, hown, haccepts, .inl ⟨hne, ih⟩⟩⟩⟩
  | file hpart hfolder hname hown haccepts hr hfile =>
      exact (mem_find_succ_iff hpart).mpr
        ⟨hfolder, .inr ⟨_, hname, .inr ⟨_, _, hown, haccepts, .inr ⟨rfl, hr, hfile⟩⟩⟩⟩

/-- **What is found is led to by the pattern.** -/
theorem finds_of_mem {parts : List Part} (h : r ∈ (view.find fuel parts path).run) :
    Finds view r fuel parts path := by
  -- a name is followed with the same fuel, but then fewer parts are left
  induction fuel using Nat.strongRecOn generalizing parts path with
  | ind fuel ihFuel =>
      induction parts generalizing path with
      | nil => rw [find] at h; cases h
      | cons part rest ih =>
          by_cases hpart : ∃ text, part = .name text
          · obtain ⟨text, rfl⟩ := hpart
            rw [find, Id.run_bind] at h
            split at h
            · next hfolder => exact .name hfolder (ih h)
            · cases h
          · have hpart : ∀ text, part ≠ .name text := fun text heq => hpart ⟨text, heq⟩
            cases fuel with
            | zero =>
                rw [find] at h
                · cases h
                · exact hpart
            | succ fuel =>
                have ihFuel := @ihFuel fuel (Nat.lt_succ_self fuel)
                obtain ⟨hfolder, ⟨dot, hdot, h⟩ | ⟨name, hname, h | ⟨part', rest', hown, haccepts, h⟩⟩⟩ :=
                  (mem_find_succ_iff hpart).mp h
                · exact .dot hpart hfolder hdot (ihFuel h)
                · exact .deeper hpart hfolder hname (ihFuel h)
                · obtain ⟨hne, h⟩ | ⟨rfl, hr, hfile⟩ := h
                  · exact .own hpart hfolder hname hown haccepts hne (ihFuel h)
                  · exact .file hpart hfolder hname hown haccepts hr hfile

/-- **What a search finds** are compiled files. -/
theorem Finds.found {parts : List Part} (h : Finds view r fuel parts path) (hparts : EndsInCompiled parts) :
    Path.compiled <:+ r.toList ∧ (view.isFile r).run = true := by
  induction h with
  | name _ _ ih | dot _ _ _ _ ih => exact ih (hparts.of_suffix (List.suffix_cons _ _))
  | deeper _ _ _ _ ih => exact ih (endsInCompiled_below hparts)
  | own _ _ _ hown _ _ _ ih =>
      exact ih (hparts.of_suffix ((List.suffix_cons _ _).trans (hown ▸ own_suffix _)))
  | file _ _ _ hown haccepts hr hfile =>
      subst hr
      have hlast := (hparts.of_suffix (hown ▸ own_suffix _)).asksForCompiled _ rfl
      exact ⟨(hlast _ haccepts).trans (suffix_within _ _), hfile⟩

/-- What is found is an entry of a folder, and all compiled files among the entries of this folder are found. -/
def Gathers (view : View Id) (found : List String) (r : String) : Prop :=
  ∃ folder, ∃ name ∈ (view.entries folder).run, r = Path.within folder name ∧
    ∀ other ∈ (view.entries folder).run, Path.compiled <:+ other.toList →
      (view.isFile (Path.within folder other)).run = true → Path.within folder other ∈ found

/-- What is gathered from some paths is gathered from more. -/
theorem Gathers.mono {found found' : List String} (h : Gathers view found r) (hsubset : found ⊆ found') :
    Gathers view found' r := by
  obtain ⟨folder, name, hname, hr, hall⟩ := h
  exact ⟨folder, name, hname, hr, fun other hother hcompiled hfile => hsubset (hall other hother hcompiled hfile)⟩

/-- **A search gathers** the compiled files of a folder. -/
theorem Finds.gathers {parts : List Part} (h : Finds view r fuel parts path) (hparts : EndsInCompiled parts) :
    Gathers view (view.find fuel parts path).run r := by
  induction h with
  | name hfolder _ ih =>
      exact (ih (hparts.of_suffix (List.suffix_cons _ _))).mono fun q hq => (Finds.name hfolder (finds_of_mem hq)).mem
  | dot hpart hfolder hdot _ ih =>
      exact (ih (hparts.of_suffix (List.suffix_cons _ _))).mono fun q hq =>
        (Finds.dot hpart hfolder hdot (finds_of_mem hq)).mem
  | deeper hpart hfolder hname _ ih =>
      exact (ih (endsInCompiled_below hparts)).mono fun q hq =>
        (Finds.deeper hpart hfolder hname (finds_of_mem hq)).mem
  | own hpart hfolder hname hown haccepts hne _ ih =>
      exact (ih (hparts.of_suffix ((List.suffix_cons _ _).trans (hown ▸ own_suffix _)))).mono fun q hq =>
        (Finds.own hpart hfolder hname hown haccepts hne (finds_of_mem hq)).mem
  | @file _ _ part' _ path name hpart hfolder hname hown haccepts hr hfile =>
      refine ⟨path, name, hname, hr, fun other hother hcompiled hotherFile => ?_⟩
      -- a name has met the last part, so this is the one that all compiled files meet
      obtain rfl | rfl := (hparts.of_suffix (hown ▸ own_suffix _)) part' rfl
      · exact (Finds.file hpart hfolder hother hown (accepts_anyCompiled hcompiled) rfl hotherFile).mem
      · cases haccepts

/-! ### Folders without folders -/

/-- Nothing is found below what is no folder. -/
theorem find_of_not_isFolder {view : View Id} {path : String} (h : (view.isFolder path).run = false) (fuel : Nat)
    {part : Part} (hpart : ∀ text, part ≠ .name text) (rest : List Part) :
    (view.find fuel (part :: rest) path).run = [] := by
  cases fuel with
  | zero =>
      rw [find]
      · rfl
      · exact hpart
  | succ fuel =>
      rw [find]
      · rw [Id.run_bind, h]
        rfl
      · exact hpart

/-- In a folder without folders, the compiled files are found in their order. -/
theorem scripts_here (hhere : (view.isFolder ".").run = true)
    (hflat : ∀ name ∈ (view.entries ".").run, (view.isFolder name).run = false ∧ (view.isFile name).run = true) :
    (view.scripts ".").run = .ok ((view.entries ".").run.filter fun name => anyCompiled.accepts name.toList) := by
  have hwithin : ∀ name, Path.within "." name = name := fun name => if_pos (by decide +kernel)
  have hparts : scriptsBelow "." = .ok [.name ['.'], .folders, anyCompiled] := by cbv
  have hfolders : ∀ text, Part.folders ≠ .name text := by rintro text ⟨⟩
  have hfind : ∀ fuel, (view.find (fuel + 1) [.name ['.'], .folders, anyCompiled] ".").run =
      (view.entries ".").run.filter fun name => anyCompiled.accepts name.toList := by
    intro fuel
    rw [find, Id.run_bind, hwithin, show String.ofList ['.'] = "." from rfl, hhere, if_pos rfl, find, Id.run_bind,
      hhere, if_pos rfl]
    · simp only [Id.run_bind, List.idRun_mapM, Id.run_pure]
      show [] ++ List.flatten _ = _
      generalize (view.entries ".").run = names at hflat
      induction names with
      | nil => rfl
      | cons name names ih =>
          obtain ⟨⟨hfolder, hfile⟩, hflat⟩ := List.forall_mem_cons.mp hflat
          have hbelow : (view.find fuel (below [.folders, anyCompiled]) name).run = [] :=
            find_of_not_isFolder hfolder fuel hfolders _
          have hfileAt : (view.fileAt name).run = [name] := by
            rw [fileAt, Id.run_bind, hfile]
            rfl
          rw [List.map_cons, List.flatten_cons, List.nil_append, ← List.nil_append (List.flatten _), ih hflat,
            List.filter_cons, hwithin, hbelow, show own [.folders, anyCompiled] = [anyCompiled] from rfl]
          dsimp only
          split
          · rw [List.isEmpty_nil, if_pos rfl, Id.run_bind, hfileAt]
            rfl
          · rfl
    · exact hfolders
  unfold scripts
  obtain ⟨fuel, hfuel⟩ : ∃ fuel, Path.maxSize = fuel + 1 := ⟨4094, rfl⟩
  rw [hparts, hfuel]
  exact congrArg Except.ok (hfind fuel)

end View

namespace Directory

variable {d : Directory} {lead : List Char}

/-! ### What is listed -/

/-- Every path that is found ends as asked for and can be read. -/
theorem read_of_scripts {folder : String} {paths : List String} (h : d.scripts folder = .ok paths) :
    ∀ path ∈ paths, Path.compiled <:+ path.toList ∧ ∃ bytes, d.read path = .ok bytes := by
  intro path hpath
  unfold scripts View.scripts at h
  generalize Path.maxSize = fuel at h
  split at h
  · cases h
  · next parts hparts =>
      have hpaths : (d.view.find fuel parts (View.origin folder)).run = paths := Except.ok.inj h
      rw [← hpaths] at hpath
      obtain ⟨hcompiled, hfile⟩ := (View.finds_of_mem hpath).found (Pattern.endsInCompiled_of_scriptsBelow hparts)
      have hread : (d.read path).isOk = true := hfile
      cases hbytes : d.read path with
      | error => rw [hbytes] at hread; cases hread
      | ok bytes => exact ⟨hcompiled, bytes, rfl⟩

/-- A search sees the entries of the place that a path leads to. -/
theorem exists_place_of_mem_entries {folder name : String} (h : name ∈ (d.view.entries folder).run) :
    ∃ p, d.locate folder = .ok p ∧ (d.view.entries folder).run = d.entries p := by
  cases hlocate : d.locate folder with
  | ok p =>
      refine ⟨p, rfl, ?_⟩
      simp only [view, hlocate]
      rfl
  | error fault =>
      simp only [view, hlocate] at h
      cases h

/-- **Files are found together.**  With a file whose extension is followed by another one, the file without this one is
found, if there is one. -/
theorem sibling_mem (hd : d.Divided) {folder : String} {paths : List String} (h : d.scripts folder = .ok paths)
    {stem : List Char} (hlead : Path.IsLead lead) (hslash : '/' ∉ stem) (hstem : Path.compiled <:+ stem)
    (hmem : String.ofList (lead ++ (stem ++ Path.compiled)) ∈ paths)
    (hfile : (d.get? (place (String.ofList lead) ++ [String.ofList stem])).isSome) :
    String.ofList (lead ++ stem) ∈ paths := by
  have hslash' : '/' ∉ stem ++ Path.compiled := by simp [hslash, Path.compiled]
  have hne : ∀ cs : List Char, cs.length < 4 → stem ≠ cs := fun cs => Path.ne_of_compiled hstem
  obtain ⟨-, bytes, hread⟩ := read_of_scripts h _ hmem
  unfold scripts View.scripts at h
  split at h
  · cases h
  · next parts hparts =>
      have hpaths : (d.view.find Path.maxSize parts (View.origin folder)).run = paths := Except.ok.inj h
      rw [← hpaths] at hmem ⊢
      obtain ⟨parent, name, hname, heq, hall⟩ :=
        (View.finds_of_mem hmem).gathers (Pattern.endsInCompiled_of_scriptsBelow hparts)
      obtain ⟨p, hlocate, hentries⟩ := exists_place_of_mem_entries hname
      rw [hentries] at hname hall
      have hparent : parent ≠ "" := by
        rintro rfl
        cases hlocate
      obtain ⟨lead', hlead', hplace, hwithin⟩ := exists_lead_within hparent
      rw [hwithin] at heq
      obtain ⟨rfl, hnames⟩ := Path.lead_inj hlead hlead' hslash' (hd.slash_not_mem hname)
        (String.ofList_injective heq)
      have hread' := locate_shorter hlead hslash' (hne [] (by decide)) (locate_of_read hread)
      rw [step_name (hne [] (by decide)) (hne ['.'] (by decide)) (hne ['.', '.'] (by decide))] at hread'
      obtain ⟨bytes', hbytes'⟩ := Option.isSome_iff_exists.mp hfile
      rw [hplace, locate_eq_ok hlocate] at hfile
      have hother := hall (String.ofList stem) (mem_entries_of_get? hfile)
        (by rwa [String.toList_ofList])
      rw [hwithin, String.toList_ofList] at hother
      refine hother ?_
      show (d.read (String.ofList (lead ++ stem))).isOk = true
      rw [read_of_locate hread' hbytes']
      rfl

/-- **What runs over folders use of a search.** -/
structure Lists (d : Directory) (paths : List String) : Prop where
  /-- The paths are those of compiled files that can be read. -/
  reads : ∀ path ∈ paths, Path.compiled <:+ path.toList ∧ ∃ bytes, d.read path = .ok bytes
  /-- Compiled files side by side are listed together: with a file of two extensions the one without the last, if there
  is one. -/
  together : ∀ lead stem, Path.IsLead lead → '/' ∉ stem → Path.compiled <:+ stem →
    String.ofList (lead ++ (stem ++ Path.compiled)) ∈ paths →
    (d.get? (place (String.ofList lead) ++ [String.ofList stem])).isSome → String.ofList (lead ++ stem) ∈ paths

/-- **A search lists** the files of a run. -/
theorem lists_of_scripts (hd : d.Divided) {folder : String} {paths : List String} (h : d.scripts folder = .ok paths) :
    d.Lists paths :=
  ⟨read_of_scripts h, fun _ _ hlead hslash hstem hmem hfile => sibling_mem hd h hlead hslash hstem hmem hfile⟩

/-- A listed path leads to a file. -/
theorem Lists.file {paths : List String} (h : d.Lists paths) {path : String} (hpath : path ∈ paths) :
    Path.compiled <:+ path.toList ∧ (d.get? (place path)).isSome := by
  obtain ⟨hcompiled, bytes, hread⟩ := h.reads path hpath
  exact ⟨hcompiled, by rw [get?_of_read hread]; rfl⟩

end Directory

end TorqueScript
