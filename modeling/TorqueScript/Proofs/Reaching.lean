import Mathlib
import TorqueScript.Proofs.Places

/-!
# Reaching places

What the text of a path decides by its last name (`Path.names_lead`, `Path.lead_inj`): where the path leads, once its
lead has led to a folder (`Directory.locate_lead`), and when a run takes it.  A file comes before the one that has one
extension more (`Path.sortKey_lt`).

Paths are bounded, so a path that is longer may lead nowhere.  But if a path leads somewhere, so does the one with a
shorter name (`Directory.locate_shorter`).
-/

namespace TorqueScript

namespace Path

/-! ### The order of paths -/

theorem isNameBefore_iff {name other : String} : isNameBefore name other = true ↔ name < other := by
  rw [isNameBefore, List.lex_eq_true_iff_lex, String.lt_iff_toList_lt]
  simp only [decide_eq_true_eq]
  exact (List.lt_iff_lex_lt _ _).symm

/-- A path comes before another as its key does. -/
theorem isBefore_iff {path other : String} : isBefore path other = true ↔ sortKey path < sortKey other := by
  rw [isBefore, List.lex_eq_true_iff_lex]
  simp only [isNameBefore_iff]
  exact (List.lt_iff_lex_lt _ _).symm

/-- The names that a lead consists of. -/
def leadNames (lead : List Char) : List String :=
  (split lead).dropLast.map String.ofList

/-- The names of a path are those of its folder and its own. -/
theorem names_lead {lead name : List Char} (hlead : IsLead lead) (hname : '/' ∉ name) :
    names (String.ofList (lead ++ name)) = leadNames lead ++ [String.ofList name] := by
  rw [names, leadNames, String.toList_ofList]
  obtain rfl | ⟨folder, rfl⟩ := hlead
  · rw [List.nil_append, split_name hname]
    rfl
  · have hempty : split (folder ++ ['/']) = split folder ++ [[]] := split_append folder []
    rw [List.append_assoc, List.singleton_append, split_append, split_name hname, hempty, List.dropLast_concat,
      List.map_append]
    rfl

/-- A name of a path holds no separator. -/
theorem slash_not_mem_of_mem_names {path name : String} (h : name ∈ names path) : '/' ∉ name.toList := by
  rw [names, List.mem_map] at h
  obtain ⟨cs, hcs, rfl⟩ := h
  rw [String.toList_ofList]
  generalize path.toList = text at hcs
  induction text generalizing cs with
  | nil =>
      obtain rfl := List.mem_singleton.mp hcs
      exact List.not_mem_nil
  | cons c text ih =>
      rw [split] at hcs
      split at hcs
      · obtain rfl | hcs := List.mem_cons.mp hcs
        · exact List.not_mem_nil
        · exact ih cs hcs
      · next hc =>
          split at hcs
          · obtain rfl := List.mem_singleton.mp hcs
            simpa using Ne.symm hc
          · next first rest heq =>
              rw [heq] at ih
              obtain rfl | hcs := List.mem_cons.mp hcs
              · simpa [Ne.symm hc] using ih first List.mem_cons_self
              · exact ih cs (List.mem_cons_of_mem first hcs)

/-- A path falls into a lead and a name in one way. -/
theorem lead_inj {lead lead' name name' : List Char} (hlead : IsLead lead) (hlead' : IsLead lead')
    (hname : '/' ∉ name) (hname' : '/' ∉ name') (h : lead ++ name = lead' ++ name') :
    lead = lead' ∧ name = name' := by
  have hnames := congrArg (names ∘ String.ofList) h
  simp only [Function.comp_apply, names_lead hlead hname, names_lead hlead' hname'] at hnames
  obtain ⟨-, hlast⟩ := List.append_inj' hnames rfl
  obtain rfl := String.ofList_injective (List.cons.inj hlast).1
  exact ⟨List.append_cancel_right h, rfl⟩

/-- The names that mean nothing in themselves are too short. -/
theorem ne_of_compiled {name cs : List Char} (h : compiled <:+ name) (hcs : cs.length < 4) : name ≠ cs := by
  rintro rfl
  exact Nat.not_le.mpr hcs h.length_le

/-- A compiled file comes before the one with one extension more. -/
theorem sortKey_lt {lead stem : List Char} (hlead : IsLead lead) (hslash : '/' ∉ stem) (hstem : compiled <:+ stem) :
    sortKey (String.ofList (lead ++ stem)) < sortKey (String.ofList (lead ++ (stem ++ compiled))) := by
  have hlast : ∀ name : List Char, '/' ∉ name → compiled <:+ name → sortKey (String.ofList (lead ++ name)) =
      ((leadNames lead).filter (!isStill ·)).map (fun name => if name = ".." then "" else name) ++
        [String.ofList name] := by
    intro name hname hcompiled
    have hne : ∀ cs : List Char, cs.length < 4 → String.ofList name ≠ String.ofList cs := fun cs hcs heq =>
      ne_of_compiled hcompiled hcs (String.ofList_injective heq)
    have hstill : isStill (String.ofList name) = false :=
      Bool.or_eq_false_iff.mpr ⟨beq_false_of_ne (hne [] (by decide)), beq_false_of_ne (hne ['.'] (by decide))⟩
    have hdots : String.ofList name ≠ ".." := hne ['.', '.'] (by decide)
    rw [sortKey, steps, names_lead hlead hname, List.filter_append, List.map_append]
    simp [hstill, hdots]
  rw [hlast stem hslash hstem, hlast (stem ++ compiled) (by simp [hslash, compiled]) (List.suffix_append _ _)]
  refine (List.lt_iff_lex_lt _ _).mpr (List.Lex.append_left _ (.rel ?_) _)
  rw [String.lt_iff_toList_lt, String.toList_ofList, String.toList_ofList]
  refine (List.lt_iff_lex_lt _ _).mpr ?_
  have hlex := List.Lex.append_left (· < ·) (List.Lex.nil (a := '.') (l := ['d', 's', 'o'])) stem
  rwa [List.append_nil] at hlex

end Path

/-- Putting paths in order neither loses nor adds one. -/
theorem Host.inOrder_perm (paths : List String) : (Host.inOrder paths).Perm paths :=
  List.mergeSort_perm _ _

/-- A run takes paths in the order of their names. -/
theorem Host.pairwise_inOrder (paths : List String) :
    (Host.inOrder paths).Pairwise fun path other => Path.sortKey path ≤ Path.sortKey other := by
  have hle : ∀ path other, (!Path.isBefore other path) = true ↔ Path.sortKey path ≤ Path.sortKey other := by
    intro path other
    rw [Bool.not_eq_true', ← not_lt, ← Path.isBefore_iff, Bool.not_eq_true]
  have hsorted := @List.pairwise_mergeSort String (fun a b => !Path.isBefore b a)
    (fun a b c hab hbc => (hle a c).mpr (((hle a b).mp hab).trans ((hle b c).mp hbc)))
    (fun a b => by
      rw [Bool.or_eq_true, hle, hle]
      exact le_total _ _) paths
  exact hsorted.imp fun {path other} h => (hle path other).mp h

namespace Directory

variable {d : Directory} {lead name : List Char} {p q : List String}

/-! ### Reaching places -/

/-- Where a lead begins. -/
def leadStart (lead : List Char) : List String :=
  if lead.head? = some '/' then ["/"] else []

/-- The place that a name leads to from a folder. -/
def advance (d : Directory) (p : List String) (name : String) : Except Fault (List String) := do
  d.enter p
  if Path.maxNameSize < name.utf8ByteSize then throw .tooLong
  pure (step p name)

theorem enter_eq_ok : d.enter p = .ok () ↔ d.isFolder p = true := by
  unfold enter
  split
  · next h => exact iff_of_true rfl h
  · next h => split <;> exact iff_of_false nofun h

/-- From a folder one advances by any name that is not too long. -/
theorem advance_of_isFolder {name : String} (h : d.isFolder p = true) :
    d.advance p name = if Path.maxNameSize < name.utf8ByteSize then .error .tooLong else .ok (step p name) := by
  rw [advance, enter_eq_ok.mpr h]
  by_cases hlong : Path.maxNameSize < name.utf8ByteSize
  · rw [if_pos hlong, if_pos hlong]
    rfl
  · rw [if_neg hlong, if_neg hlong]
    rfl

/-- To advance is to step from a folder by a name that is not too long. -/
theorem advance_eq_ok {name : String} : d.advance p name = .ok q ↔
    d.isFolder p = true ∧ name.utf8ByteSize ≤ Path.maxNameSize ∧ step p name = q := by
  cases henter : d.isFolder p with
  | true =>
      rw [advance_of_isFolder henter]
      split
      · next hlong => exact iff_of_false nofun fun h => absurd h.2.1 (Nat.not_le.mpr hlong)
      · next hlong => simp [Nat.not_lt.mp hlong]
  | false =>
      refine iff_of_false (fun h => ?_) nofun
      rw [advance] at h
      cases hok : d.enter p with
      | ok => exact absurd (enter_eq_ok.mp hok) (by simp [henter])
      | error => rw [hok] at h; cases h

theorem follow_cons (d : Directory) (p : List String) (name : String) (names : List String) :
    d.follow p (name :: names) = d.advance p name >>= (d.follow · names) := by
  rw [follow, advance]
  cases d.enter p with
  | error => rfl
  | ok =>
      by_cases hlong : Path.maxNameSize < name.utf8ByteSize
      · simp only [hlong, if_true]
        rfl
      · simp only [hlong, if_false]
        rfl

/-- The last of several names is followed from where the others lead. -/
theorem follow_concat (d : Directory) (p names : List String) (name : String) :
    d.follow p (names ++ [name]) = d.follow p names >>= (d.advance · name) := by
  induction names generalizing p with
  | nil =>
      rw [List.nil_append, follow_cons]
      exact bind_pure _
  | cons first names ih =>
      rw [List.cons_append, follow_cons, follow_cons]
      cases d.advance p first with
      | error => rfl
      | ok p => exact ih p

/-- Where a path leads is decided by its lead and then by its name. -/
theorem locate_lead (d : Directory) (hlead : Path.IsLead lead) (hname : '/' ∉ name) (hne : name ≠ []) :
    d.locate (String.ofList (lead ++ name)) =
      if Path.maxSize < (String.ofList (lead ++ name)).utf8ByteSize then .error .tooLong
      else d.follow (leadStart lead) (Path.leadNames lead) >>= (d.advance · (String.ofList name)) := by
  have hempty : String.ofList (lead ++ name) ≠ "" := by
    intro heq
    have htext := congrArg String.toList heq
    rw [String.toList_ofList] at htext
    exact hne (List.append_eq_nil_iff.mp htext).2
  have habsolute : (if Path.isAbsolute (String.ofList (lead ++ name)) then ["/"] else []) = leadStart lead := by
    have hhead : (lead ++ name).head? = some '/' ↔ lead.head? = some '/' := by
      obtain rfl | ⟨folder, rfl⟩ := hlead
      · have hhead : name.head? ≠ some '/' := fun h => hname (List.mem_of_mem_head? h)
        simp [hhead]
      · cases folder <;> simp
    simp only [Path.isAbsolute, String.toList_ofList, hhead, decide_eq_true_eq, leadStart]
  rw [locate, start, if_neg hempty]
  split
  · rfl
  · rw [habsolute, Path.names_lead hlead hname, ← follow_concat]
    rfl

/-- **A path is located if its folder is and neither it nor its name is too long.** -/
theorem locate_lead_eq_ok (hlead : Path.IsLead lead) (hname : '/' ∉ name) (hne : name ≠ []) :
    d.locate (String.ofList (lead ++ name)) = .ok p ↔
      (String.ofList (lead ++ name)).utf8ByteSize ≤ Path.maxSize ∧
      (String.ofList name).utf8ByteSize ≤ Path.maxNameSize ∧
      ∃ q, d.follow (leadStart lead) (Path.leadNames lead) = .ok q ∧ d.isFolder q = true ∧
        step q (String.ofList name) = p := by
  rw [locate_lead d hlead hname hne]
  split
  · next hlong => exact iff_of_false nofun fun h => absurd h.1 (Nat.not_le.mpr hlong)
  · next hlong =>
      cases hfollow : d.follow (leadStart lead) (Path.leadNames lead) with
      | error fault => exact iff_of_false nofun (by rintro ⟨-, -, q, h, -⟩; cases h)
      | ok q =>
          show d.advance q (String.ofList name) = .ok p ↔ _
          rw [advance_eq_ok]
          constructor
          · exact fun ⟨hfolder, hshort, hstep⟩ => ⟨Nat.not_lt.mp hlong, hshort, q, rfl, hfolder, hstep⟩
          · rintro ⟨-, hshort, q', hq', hfolder, hstep⟩
            cases hq'
            exact ⟨hfolder, hshort, hstep⟩

/-- A file at the place of a located path is read. -/
theorem read_of_locate {path : String} (h : d.locate path = .ok p) {bytes : List UInt8}
    (hbytes : d.get? p = some bytes) : d.read path = .ok bytes := by
  rw [read, h]
  simp only [bind, Except.bind, hbytes]
  rfl

/-- What is read is located. -/
theorem locate_of_read {path : String} {bytes : List UInt8} (h : d.read path = .ok bytes) :
    d.locate path = .ok (place path) := by
  cases hlocate : d.locate path with
  | error => rw [read, hlocate] at h; cases h
  | ok p => rw [locate_eq_ok hlocate]

/-! ### Names and entries -/

/-- No name of a place holds a separator. -/
def Divided (d : Directory) : Prop :=
  ∀ file ∈ d.files, ∀ name ∈ file.1, '/' ∉ name.toList

/-- A file after a replacement was there before or is the one put in. -/
theorem mem_replace {place : List String} {bytes : List UInt8} {files : List (List String × List UInt8)}
    {file : List String × List UInt8} (h : file ∈ replace place bytes files) : file ∈ files ∨ file = (place, bytes) := by
  induction files with
  | nil => exact .inr (List.mem_singleton.mp h)
  | cons first files ih =>
      obtain ⟨q, b⟩ := first
      rw [replace] at h
      split at h
      · next heq =>
          obtain rfl | h := List.mem_cons.mp h
          · exact .inr (by rw [heq])
          · exact .inl (List.mem_cons_of_mem _ h)
      · obtain rfl | h := List.mem_cons.mp h
        · exact .inl List.mem_cons_self
        · exact (ih h).imp_left (List.mem_cons_of_mem _)

/-- The names in a directory that is built from paths hold no separator. -/
theorem divided_ofFiles (files : List (String × List UInt8)) : (ofFiles files).Divided := by
  suffices h : ∀ d : Directory, d.Divided →
      (files.foldl (fun d file => d.put (Path.steps file.1) file.2) d).Divided from
    h {} nofun
  induction files with
  | nil => exact fun d h => h
  | cons file files ih =>
      obtain ⟨path, bytes⟩ := file
      refine fun d h => ih _ fun f hf => ?_
      obtain hf | rfl := mem_replace hf
      · exact h f hf
      · exact fun name hname => Path.slash_not_mem_of_mem_names (List.mem_filter.mp hname).1

/-- The entries of a folder are the names that files below it go through. -/
theorem mem_entries_iff {name : String} : name ∈ d.entries p ↔ ∃ q bytes, (p ++ name :: q, bytes) ∈ d.files := by
  rw [entries, List.mem_mergeSort, List.mem_eraseDups, List.mem_filterMap]
  constructor
  · rintro ⟨⟨r, bytes⟩, hfile, h⟩
    dsimp only at h
    split at h
    · next haround =>
        obtain ⟨s, rfl⟩ := List.isPrefixOf_iff_prefix.mp haround
        rw [List.drop_left] at h
        cases s with
        | nil => cases h
        | cons first s =>
            obtain rfl := Option.some.inj h
            exact ⟨s, bytes, hfile⟩
    · cases h
  · rintro ⟨q, bytes, hfile⟩
    refine ⟨_, hfile, ?_⟩
    dsimp only
    rw [if_pos (List.isPrefixOf_iff_prefix.mpr (List.prefix_append _ _)), List.drop_left]
    rfl

/-- An entry holds no separator. -/
theorem Divided.slash_not_mem (h : d.Divided) {name : String} (hname : name ∈ d.entries p) : '/' ∉ name.toList := by
  obtain ⟨q, bytes, hfile⟩ := mem_entries_iff.mp hname
  exact h _ hfile name (by simp)

/-- A file is an entry of its folder. -/
theorem mem_entries_of_get? {name : String} (h : (d.get? (p ++ [name])).isSome) : name ∈ d.entries p := by
  obtain ⟨bytes, hbytes⟩ := Option.isSome_iff_exists.mp h
  obtain ⟨front, back, hfiles, -⟩ := List.lookup_eq_some_iff.mp hbytes
  exact mem_entries_iff.mpr ⟨[], bytes, by rw [hfiles]; simp⟩

theorem place_of_isHere {folder : String} (h : Path.isHere folder = true) : place folder = [] := by
  obtain ⟨hhead, hstill⟩ := Bool.and_eq_true_iff.mp h
  have habsolute : Path.isAbsolute folder = false := by
    rw [decide_eq_true_eq, Path.names] at hhead
    rw [Path.isAbsolute, decide_eq_false_iff_not]
    intro hslash
    obtain ⟨cs, hcs⟩ := List.head?_eq_some_iff.mp hslash
    rw [hcs, Path.split, if_pos rfl, List.map_cons, List.head?_cons] at hhead
    exact absurd (Option.some.inj hhead) (by decide)
  rw [place, habsolute]
  generalize Path.names folder = names at hstill
  induction names with
  | nil => rfl
  | cons name names ih =>
      rw [List.all_cons, Bool.and_eq_true] at hstill
      rw [List.foldl_cons, step, if_pos hstill.1]
      exact ih hstill.2

/-- The path of an entry is a lead and the name of the entry. -/
theorem exists_lead_within {folder : String} (hfolder : folder ≠ "") : ∃ lead, Path.IsLead lead ∧
    place (String.ofList lead) = place folder ∧
    ∀ name, Path.within folder name = String.ofList (lead ++ name.toList) := by
  by_cases hhere : Path.isHere folder = true
  · refine ⟨[], .inl rfl, (place_of_isHere hhere).symm, fun name => ?_⟩
    rw [Path.within, if_pos hhere, List.nil_append, String.ofList_toList]
  by_cases hslash : folder.toList.getLast? = some '/'
  · obtain ⟨front, hfront⟩ := List.getLast?_eq_some_iff.mp hslash
    refine ⟨folder.toList, .inr ⟨front, hfront⟩, by rw [String.ofList_toList], fun name => ?_⟩
    rw [Path.within, if_neg hhere, Path.child, if_pos hslash, String.ofList_append, String.ofList_toList,
      String.ofList_toList]
  · refine ⟨folder.toList ++ ['/'], .inr ⟨_, rfl⟩, ?_, fun name => ?_⟩
    · -- an empty name is added at the end
      obtain ⟨c, cs, hcs⟩ := List.exists_cons_of_ne_nil (mt String.toList_eq_nil_iff.mp hfolder)
      have hnames : Path.names (String.ofList (folder.toList ++ ['/'])) = Path.names folder ++ [""] := by
        rw [Path.names, String.toList_ofList, Path.split_append, List.map_append, Path.names]
        rfl
      have habsolute : Path.isAbsolute (String.ofList (folder.toList ++ ['/'])) = Path.isAbsolute folder := by
        rw [Path.isAbsolute, Path.isAbsolute, String.toList_ofList, hcs]
        rfl
      rw [place, hnames, habsolute, List.foldl_append]
      rfl
    · rw [Path.within, if_neg hhere, Path.child, if_neg hslash, String.ofList_append, String.ofList_append,
        String.ofList_toList, String.ofList_toList]

/-- A path that leads somewhere does so with a shorter name. -/
theorem locate_shorter {stem extension : List Char} (hlead : Path.IsLead lead) (hslash : '/' ∉ stem ++ extension)
    (hne : stem ≠ []) (h : d.locate (String.ofList (lead ++ (stem ++ extension))) = .ok p) :
    d.locate (String.ofList (lead ++ stem)) = .ok (step (place (String.ofList lead)) (String.ofList stem)) := by
  have hstem : '/' ∉ stem := fun hmem => hslash (List.mem_append_left _ hmem)
  obtain ⟨hsize, hnameSize, q, hfollow, hfolder, -⟩ :=
    (locate_lead_eq_ok hlead hslash (List.append_ne_nil_of_left_ne_nil hne _)).mp h
  rw [← List.append_assoc, String.ofList_append, String.utf8ByteSize_append] at hsize
  rw [String.ofList_append, String.utf8ByteSize_append] at hnameSize
  have hlocate := (locate_lead_eq_ok hlead hstem hne).mpr
    ⟨Nat.le_of_add_right_le hsize, Nat.le_of_add_right_le hnameSize, q, hfollow, hfolder, rfl⟩
  rw [hlocate, ← locate_eq_ok hlocate, place_lead hlead hstem]

end Directory

end TorqueScript
