import TorqueScript.Proofs.PrintedPieces

/-!
# Indentation

The layout of a script sees tokens only: it counts the braces as they pass, and takes nothing away from a
count of zero.  That the count is right is a fact about the tokens, whatever the blocks and the objects in
them are: braces are written in pairs around texts in which they pair already.

* `Braced.piecewise`: the ways to put texts together keep braces in pairs, and add no indents.
* `last_statement`: a statement ends its last line.
* `Layout.depth_through`: the layout counts the open braces.
* `Lines.indentedBy`: what it puts in front of lines.

**Layout** (`program_laidOut`).  In the text of a script braces balance, lines are ended, and every line that
is not empty begins with an indent for each open brace, one less if it begins with a closing brace, and has no
other indents.
-/

namespace TorqueScript

namespace Source

open Node

/-! ### Braces -/

section Braces

variable {depth inner : Nat} {t : String} {ts us : List String}

/-- Behind `depth` open braces, the text closes no more braces than there are, wherever it is cut. -/
def Nested (depth : Nat) (ts : List String) : Prop :=
  ∀ front, front <+: ts → front.count closeBrace ≤ depth + front.count openBrace

theorem nested_singleton : Nested depth [t] ↔ [t].count closeBrace ≤ depth + [t].count openBrace := by
  refine ⟨fun h => h [t] List.prefix_rfl, fun h front hfront => ?_⟩
  rcases List.prefix_cons_iff.mp hfront with rfl | ⟨back, rfl, hback⟩
  · exact Nat.zero_le _
  · obtain rfl := List.prefix_nil.mp hback
    exact h

/-- What nests nests up to every point. -/
theorem Nested.front (h : Nested depth (ts ++ us)) : Nested depth ts :=
  fun front hfront => h front (hfront.trans (List.prefix_append ts us))

/-- Two texts one after the other; behind the first, `inner` braces are open. -/
theorem nested_append (hinner : inner + ts.count closeBrace = depth + ts.count openBrace) :
    Nested depth (ts ++ us) ↔ Nested depth ts ∧ Nested inner us := by
  constructor
  · refine fun h => ⟨h.front, fun back hback => ?_⟩
    have hall := h (ts ++ back) ((List.prefix_append_right_inj ts).mpr hback)
    rw [List.count_append, List.count_append] at hall
    omega
  · rintro ⟨hts, hus⟩ front hfront
    rcases List.prefix_or_prefix_of_prefix hfront (List.prefix_append ts us) with h | ⟨back, rfl⟩
    · exact hts front h
    · have hback := hus back ((List.prefix_append_right_inj ts).mp hfront)
      rw [List.count_append, List.count_append]
      omega

/-- What nests at some depth nests at a greater one. -/
theorem Nested.mono (h : Nested depth ts) (hdepth : depth ≤ inner) : Nested inner ts :=
  fun front hfront => (h front hfront).trans (Nat.add_le_add_right hdepth _)

/-- Every brace is closed, and none before it is opened. -/
structure Balanced (ts : List String) : Prop where
  nested : Nested 0 ts
  closed : ts.count closeBrace = ts.count openBrace

/-- The number of braces that are open behind the text. -/
def openBraces (ts : List String) : Nat :=
  ts.count openBrace - ts.count closeBrace

namespace Balanced

/-- Texts without braces. -/
theorem of_notMem (hopen : openBrace ∉ ts) (hclose : closeBrace ∉ ts) : Balanced ts where
  nested front hfront := by
    rw [List.count_eq_zero_of_not_mem fun h => hclose (hfront.subset h)]
    exact Nat.zero_le _
  closed := by rw [List.count_eq_zero_of_not_mem hopen, List.count_eq_zero_of_not_mem hclose]

/-- Balanced tokens may follow one another. -/
theorem append (hts : Balanced ts) (hus : Balanced us) : Balanced (ts ++ us) where
  nested := (nested_append (congrArg (0 + ·) hts.closed)).mpr ⟨hts.nested, hus.nested⟩
  closed := by rw [List.count_append, List.count_append, hts.closed, hus.closed]

/-- A pair of braces around a text. -/
theorem braces (hts : Balanced ts) : Balanced ([openBrace] ++ (ts ++ [closeBrace])) where
  nested := by
    have hclose : Nested 1 [closeBrace] := nested_singleton.mpr (by decide)
    have hinside : Nested 1 (ts ++ [closeBrace]) :=
      (nested_append (congrArg (1 + ·) hts.closed)).mpr ⟨hts.nested.mono (Nat.zero_le 1), hclose⟩
    have hopen : 1 + [openBrace].count closeBrace = 0 + [openBrace].count openBrace := by decide
    exact (nested_append hopen).mpr ⟨nested_singleton.mpr (by decide), hinside⟩
  closed := by
    have hpair : [openBrace].count openBrace = [closeBrace].count closeBrace := by decide
    have hother : [openBrace].count closeBrace = [closeBrace].count openBrace := by decide
    simp only [List.count_append, hts.closed, hpair, hother]
    omega

end Balanced

/-! ### Tokens of nodes -/

/-- The word is no brace and no indent.  A line end does no harm, it ends a line. -/
def Plain (s : String) : Prop :=
  s ∉ [openBrace, closeBrace, indent]

instance : DecidablePred Plain := fun s =>
  inferInstanceAs (Decidable (s ∉ [openBrace, closeBrace, indent]))

/-- The braces in the text balance, and there are no indents in it. -/
def Braced (ts : List String) : Prop :=
  Balanced ts ∧ indent ∉ ts

namespace Braced

theorem of_plain (hts : ∀ t ∈ ts, Plain t) : Braced ts := by
  have hnot : ∀ t ∈ [openBrace, closeBrace, indent], t ∉ ts := fun t ht h => hts t h ht
  simp only [List.forall_mem_cons] at hnot
  exact ⟨.of_notMem hnot.1 hnot.2.1, hnot.2.2.1⟩

/-- Braced tokens may follow one another. -/
theorem append (hts : Braced ts) (hus : Braced us) : Braced (ts ++ us) :=
  ⟨hts.1.append hus.1, by simpa using ⟨hts.2, hus.2⟩⟩

theorem cons (ht : Plain t) (hts : Braced ts) : Braced (t :: ts) :=
  append (of_plain (List.forall_mem_singleton.mpr ht)) hts

theorem parens (wrap : Bool) (hts : Braced ts) : Braced (Source.parens wrap ts) := by
  cases wrap with
  | false => exact hts
  | true => exact (hts.append (of_plain (by decide))).cons (by decide)

/-- The ways to put texts together keep braces in pairs. -/
theorem piecewise : Piecewise Plain Plain (fun _ => False) fun _ => Braced where
  nil := of_plain nofun
  append := append
  token ht := of_plain (List.forall_mem_singleton.mpr fun h => ht (List.mem_cons_of_mem _ h))
  minus := of_plain (by decide)
  name hs := of_plain (List.forall_mem_singleton.mpr hs)
  label hs _ hts := hts.cons hs
  negation _ _ hts := (hts.parens _).cons (by decide)
  braces {F ts} hts := by
    have hinside : Braced ("\n" :: ts) := hts.cons (by decide)
    have hopen : indent ≠ openBrace := by decide
    have hclose : indent ≠ closeBrace := by decide
    exact ⟨hinside.1.braces, by simpa [hopen, hclose] using hinside.2⟩

end Braced

end Braces

/-! ### Ends of statements -/

section Ends

variable {n : Node} {ns : List Node} {ts us : List String}

/-- The text ends its last line, if there is one. -/
def Ended (ts : List String) : Prop :=
  ts = [] ∨ ts.getLast? = some "\n"

theorem last_append (ts : List String) (h : us.getLast? = some "\n") : (ts ++ us).getLast? = some "\n" := by
  rw [List.getLast?_append, h]
  rfl

theorem last_block (ts us : List String) : (ts ++ block us).getLast? = some "\n" :=
  last_append ts (by simp [block, List.getLast?_cons])

/-- Ended tokens may follow one another. -/
theorem Ended.append (hts : Ended ts) (hus : Ended us) : Ended (ts ++ us) := by
  rcases hus with rfl | hus
  · simpa using hts
  · exact .inr (last_append ts hus)

/-- An alternative ends with a line break if its statements do. -/
theorem ended_elseTokens (hns : ∀ n ∈ ns, Gives (fun ts => ts.getLast? = some "\n") (n.tokens .statement)) :
    Gives Ended (elseTokens ns) := by
  cases ns with
  | nil => exact .pure (.inl rfl)
  | cons n ns =>
      refine (hns n List.mem_cons_self).bind fun ts hts => .after fun us => .pure (.inr ?_)
      split
      · exact last_append ["else", " "] hts
      · exact last_block ["else", "\n"] _

/-- A statement ends its last line. -/
theorem last_statement (n : Node) : Gives (fun ts => ts.getLast? = some "\n") (n.tokens .statement) := by
  induction n using writtenInduction with
  | h n ih =>
      have hvalue : ∀ ts, (Position.statement.value ts).getLast? = some "\n" := fun ts => last_append ts rfl
      cases n with
      | ret value =>
          cases value <;> rw [tokens]
          · exact .pure rfl
          · exact .after fun _ => .pure (last_append _ rfl)
      | breakLoop => rw [tokens]; exact .pure rfl
      | continueLoop => rw [tokens]; exact .pure rfl
      | ifElse condition thenBody elseBody =>
          rw [tokens]
          refine .after fun cs => .after fun ts =>
            (ended_elseTokens fun n hn => ih n (by simp [written, children, hn])).bind fun es hes => .pure ?_
          rcases hes with rfl | hes
          · rw [List.append_nil]
            exact last_block _ _
          · exact last_append _ hes
      | loop kind init condition step body =>
          cases kind <;> rw [tokens]
          · exact .after fun _ => .after fun _ => .pure (last_block _ _)
          · exact .after fun _ => .after fun _ => .after fun _ => .after fun _ => .pure (last_block _ _)
          · exact .after fun _ => .after fun _ => .pure (last_append _ rfl)
      | function s body =>
          rw [tokens]
          exact .after fun _ => .pure (last_block _ _)
      | package name functions =>
          rw [tokens]
          exact .after fun _ => .pure (last_append _ rfl)
      | assign target op value =>
          cases op with
          | some op => rw [tokens]; exact .after fun _ => .after fun _ => .pure (hvalue _)
          | none =>
              rw [tokens.eq_def]
              cases value with
              | binary => exact .after fun _ => .after fun _ => .after fun _ => .pure (hvalue _)
              | _ => exact .after fun _ => .after fun _ => .pure (hvalue _)
      | field owner name index =>
          cases owner <;> rw [tokens]
          · exact .after fun _ => .pure (hvalue _)
          · exact .after fun _ => .after fun _ => .pure (hvalue _)
      | object =>
          rw [tokens.eq_def]
          exact .after fun _ => .after fun _ => .after fun _ => .after fun _ => .after fun _ => .pure (hvalue _)
      | constant | var | unary | call => rw [tokens]; exact .after fun _ => .pure (hvalue _)
      | binary | compare | concat | comma => rw [tokens]; exact .after fun _ => .after fun _ => .pure (hvalue _)
      | conditional => rw [tokens]; exact .after fun _ => .after fun _ => .after fun _ => .pure (hvalue _)

end Ends

/-! ### Lines -/

/-- The line is empty, or it begins with indents, as many as braces are open or one less in front of a closing
brace, and has no others. -/
def IndentedBy (depth : Nat) (line : List String) : Prop :=
  line = [] ∨ ∃ k t us, line = List.replicate k indent ++ t :: us ∧ indent ∉ t :: us ∧
    if t = closeBrace then k + 1 = depth else k = depth

namespace Layout

variable {layout : Layout} {t : String} {ts us line rest : List String}

/-- The layout behind a text. -/
def through (layout : Layout) (ts : List String) : Layout :=
  ts.foldl (fun l t => (l.before t).after t) layout

/-- Indenting goes on where it has got to. -/
theorem indented_append :
    layout.indented (ts ++ us) = layout.indented ts ++ (layout.through ts).indented us := by
  induction ts generalizing layout with
  | nil => rfl
  | cons t ts ih => rw [List.cons_append, indented, ih, indented, List.append_assoc]; rfl

/-- The layout counts the braces, if no brace is closed that is not open. -/
theorem depth_through (h : Nested layout.depth ts) :
    (layout.through ts).depth + ts.count closeBrace = layout.depth + ts.count openBrace := by
  induction ts generalizing layout with
  | nil => rfl
  | cons t ts ih =>
      have hcons : Nested layout.depth ([t] ++ ts) := h
      have hfirst : Nested layout.depth [t] := hcons.front
      have hstep : ((layout.before t).after t).depth + [t].count closeBrace =
          layout.depth + [t].count openBrace := by
        have hcount := nested_singleton.mp hfirst
        have hne : openBrace ≠ closeBrace := by decide
        by_cases hopen : t = openBrace
        · simp [before, after, hopen, hne]
        · by_cases hclose : t = closeBrace
          · simp [before, after, hclose, hne.symm] at hcount ⊢
            omega
          · simp [before, after, hopen, hclose]
      have hrest : Nested ((layout.before t).after t).depth ts := ((nested_append hstep).mp h).2
      have hcount := ih hrest
      rw [← List.singleton_append, List.count_append, List.count_append]
      change (((layout.before t).after t).through ts).depth + _ = _
      omega

/-- Without the indents that were put in, the tokens are as before. -/
theorem filter_indented (layout : Layout) (hts : indent ∉ ts) :
    (layout.indented ts).filter (· != indent) = ts := by
  induction ts generalizing layout with
  | nil => rfl
  | cons t ts ih =>
      have ht : t ≠ indent := fun h => hts (h ▸ List.mem_cons_self)
      have hplace : ∀ l : Layout, (l.place t).filter (· != indent) = [t] := by
        intro l
        rw [place]
        split <;> simp [ht]
      rw [indented, List.filter_append, hplace, ih _ fun h => hts (List.mem_cons_of_mem t h)]
      rfl

/-- Indenting puts in indents only. -/
theorem count_indented (layout : Layout) {b : String} (hb : b ≠ indent) (hts : indent ∉ ts) :
    (layout.indented ts).count b = ts.count b := by
  rw [← List.count_filter (p := (· != indent)) (l := layout.indented ts) (by simpa using hb),
    filter_indented layout hts]

/-- Indentation brings no braces and takes none away. -/
theorem balanced_indented (hts : indent ∉ ts) (h : Balanced ts) : Balanced (layout.indented ts) where
  nested front hfront := by
    have hback : front.filter (· != indent) <+: ts := filter_indented layout hts ▸ hfront.filter _
    have hcount := h.nested _ hback
    rwa [List.count_filter (by decide), List.count_filter (by decide)] at hcount
  closed := by rw [count_indented layout (by decide) hts, count_indented layout (by decide) hts, h.closed]

/-- Nothing is put in the middle of a line. -/
theorem indented_midline (hlayout : layout.atLineStart = false) (hline : "\n" ∉ line) :
    layout.indented line = line := by
  induction line generalizing layout with
  | nil => rfl
  | cons t line ih =>
      obtain ⟨ht, hline⟩ : "\n" ≠ t ∧ "\n" ∉ line := by simpa using hline
      have hnext : ((layout.before t).after t).atLineStart = false := by simpa [after] using Ne.symm ht
      rw [indented, place, before_atLineStart, hlayout, ih hnext hline]
      rfl

/-- A line is indented once, before its first token. -/
theorem indented_line (hlayout : layout.atLineStart = true) (hline : "\n" ∉ t :: line) :
    layout.indented (t :: line) = List.replicate (layout.before t).depth indent ++ t :: line := by
  obtain ⟨ht, hline⟩ : "\n" ≠ t ∧ "\n" ∉ line := by simpa using hline
  have hnext : ((layout.before t).after t).atLineStart = false := by simpa [after] using Ne.symm ht
  rw [indented, place, before_atLineStart, hlayout, indented_midline hnext hline]
  simp [Ne.symm ht]

theorem through_line :
    layout.through (line ++ ["\n"]) = ((layout.through line).before "\n").after "\n" :=
  List.foldl_append

/-- A line, its end, and what follows. -/
theorem indented_line_append : layout.indented (line ++ "\n" :: rest) =
    layout.indented line ++ "\n" :: (layout.through (line ++ ["\n"])).indented rest := by
  rw [indented_append, indented, through_line]
  simp [place]

/-- **A line is indented by the braces that are open before it.** -/
theorem indentedBy_line (hlayout : layout.atLineStart = true) (hnested : Nested layout.depth line)
    (hindent : indent ∉ line) (hline : "\n" ∉ line) : IndentedBy layout.depth (layout.indented line) := by
  cases line with
  | nil => exact .inl rfl
  | cons t us =>
      refine .inr ⟨(layout.before t).depth, t, us, indented_line hlayout hline, hindent, ?_⟩
      by_cases ht : t = closeBrace
      · -- a closing brace has one to close
        have hcount := hnested [t] (List.prefix_append [t] us)
        have hne : closeBrace ≠ openBrace := by decide
        simp [ht, hne, before] at hcount ⊢
        omega
      · simp [ht, before]

/-- The braces open behind a line and more text, counted from the line or from the layout behind it. -/
theorem depth_behind_line (h : Nested layout.depth (line ++ ["\n"])) (hindent : indent ∉ line) :
    layout.depth + (layout.indented line ++ "\n" :: rest).count openBrace -
        (layout.indented line ++ "\n" :: rest).count closeBrace =
      (layout.through (line ++ ["\n"])).depth + rest.count openBrace - rest.count closeBrace := by
  have hdepth := depth_through h
  have hopen := layout.count_indented (b := openBrace) (by decide) hindent
  have hclose := layout.count_indented (b := closeBrace) (by decide) hindent
  simp only [List.count_append, List.count_cons, List.count_nil, hopen, hclose] at hdepth ⊢
  omega

/-- Indenting puts in no line break. -/
theorem notMem_indented (hlayout : layout.atLineStart = true) (hline : "\n" ∉ line) :
    "\n" ∉ layout.indented line := by
  cases line with
  | nil => exact hline
  | cons t us =>
      have hne : "\n" ≠ indent := by decide
      rw [indented_line hlayout hline]
      simpa [hne] using hline

end Layout

/-! ### Scripts -/

/-- A text that ends with a line break still does when it is indented. -/
theorem Ended.indented {layout : Layout} {ts : List String} (h : Ended ts) : Ended (layout.indented ts) := by
  rcases h with rfl | h
  · exact .inl rfl
  · obtain ⟨us, rfl⟩ := List.getLast?_eq_some_iff.mp h
    rw [Layout.indented_line_append]
    exact .inr (last_append _ rfl)

theorem last_of_line {l r : List String} (h : Ended (l ++ "\n" :: r)) : Ended r := by
  cases r with
  | nil => exact .inl rfl
  | cons t r => exact .inr (by simpa [Ended] using h)

/-- A text is made of lines. -/
inductive Lines : List String → Prop where
  | nil : Lines []
  | line {line rest : List String} (hline : "\n" ∉ line) (hrest : Lines rest) : Lines (line ++ "\n" :: rest)

/-- A text that ends with a line break consists of lines. -/
theorem Ended.lines {ts : List String} (h : Ended ts) : Lines ts := by
  induction hlength : ts.length using Nat.strong_induction_on generalizing ts with
  | h k ih =>
      rcases h with rfl | h
      · exact .nil
      · obtain ⟨first, rest, rfl, hfirst⟩ := List.eq_append_cons_of_mem (List.mem_of_getLast? h)
        have hrest : Ended rest := last_of_line (.inr h)
        have hshort : rest.length < k := by
          rw [← hlength, List.length_append, List.length_cons]
          omega
        exact .line hfirst (ih _ hshort hrest rfl)

/-- The first line of a text is the text in front of the first line end. -/
theorem line_unique {l l' r r' : List String} (h : l ++ "\n" :: r = l' ++ "\n" :: r') (hl : "\n" ∉ l)
    (hl' : "\n" ∉ l') : l = l' ∧ r = r' := by
  rcases List.append_eq_append_iff.mp h with ⟨m, rfl, hm⟩ | ⟨m, rfl, hm⟩
  · cases m with
    | nil => exact ⟨(List.append_nil l).symm, (List.cons.inj hm).2⟩
    | cons t m =>
        obtain ⟨rfl, -⟩ := List.cons.inj hm
        exact absurd (List.mem_append_right l List.mem_cons_self) hl'
  · cases m with
    | nil => exact ⟨List.append_nil l', (List.cons.inj hm).2.symm⟩
    | cons t m =>
        obtain ⟨rfl, -⟩ := List.cons.inj hm
        exact absurd (List.mem_append_right l' List.mem_cons_self) hl

/-- The lines of an indented text, by induction on the lines of the text without indentation. -/
theorem Lines.indentedBy {ts : List String} (hts : Lines ts) {layout : Layout}
    (hlayout : layout.atLineStart = true) (hnested : Nested layout.depth ts) (hindent : indent ∉ ts)
    {front line rest : List String} (h : layout.indented ts = front ++ line ++ "\n" :: rest)
    (hfront : Ended front) (hline : "\n" ∉ line) :
    IndentedBy (layout.depth + front.count openBrace - front.count closeBrace) line := by
  induction hts generalizing layout front with
  | nil => exact absurd h (by simp [Layout.indented])
  | @line first others hfirst hothers ih =>
      have hnot : indent ∉ first := fun hmem => hindent (List.mem_append_left _ hmem)
      have hcut : first ++ "\n" :: others = (first ++ ["\n"]) ++ others := by simp
      have hends : Nested layout.depth (first ++ ["\n"]) := (hcut ▸ hnested).front
      rw [Layout.indented_line_append] at h
      by_cases hempty : front = []
      · subst hempty
        obtain ⟨rfl, -⟩ := line_unique h (Layout.notMem_indented hlayout hfirst) hline
        exact Layout.indentedBy_line hlayout hnested.front hnot hfirst
      · -- the first line is in front, and the others are those of the text behind it
        have hmem : "\n" ∈ front := List.mem_of_getLast? (hfront.resolve_left hempty)
        obtain ⟨l, r, rfl, hl⟩ := List.eq_append_cons_of_mem hmem
        rw [List.append_assoc, List.append_assoc, List.cons_append] at h
        obtain ⟨rfl, hrest⟩ := line_unique h (Layout.notMem_indented hlayout hfirst) hl
        have hfit : Nested (layout.through (first ++ ["\n"])).depth others :=
          ((nested_append (Layout.depth_through hends)).mp (hcut ▸ hnested)).2
        have hstart : (layout.through (first ++ ["\n"])).atLineStart = true := by
          rw [Layout.through_line]
          rfl
        have hindented := ih hstart hfit (fun hmem => hindent (by simp [hmem])) (by simpa using hrest)
          (last_of_line hfront)
        rwa [Layout.depth_behind_line hends hnot]

/-- What the text of a script looks like. -/
structure LaidOut (tokens : List String) : Prop where
  balanced : Balanced tokens
  ended : Ended tokens
  indented : ∀ front line rest, tokens = front ++ line ++ "\n" :: rest → Ended front → "\n" ∉ line →
    IndentedBy (openBraces front) line

/-- The statements that follow another end with line breaks. -/
theorem ended_followingTokens {ns : List Node} (previous : Node) : Gives Ended (followingTokens previous ns) := by
  induction ns generalizing previous with
  | nil => exact .pure (.inl rfl)
  | cons n ns ih =>
      refine (last_statement n).bind fun ts hts => (ih n).bind fun us hus => .pure ?_
      exact .append (.inr (last_append _ hts)) hus

/-- So do those of a program. -/
theorem ended_programTokens {ns : List Node} : Gives Ended (programTokens ns) := by
  cases ns with
  | nil => exact .pure (.inl rfl)
  | cons n ns =>
      exact (last_statement n).bind fun ts hts => (ended_followingTokens n).bind fun us hus =>
        .pure (.append (.inr hts) hus)

/-- **Layout.**  In the text of a script braces balance, lines are ended, and every line that is not empty begins
with an indent for each open brace, one less if it begins with a closing brace, and has no other indents. -/
theorem program_laidOut {nodes : List Node} {tokens : List String} (hnames : ∀ n ∈ nodes, n.Named Plain Plain)
    (h : program nodes = .ok tokens) : LaidOut tokens := by
  obtain ⟨ts, hts, h⟩ := bind_eq_ok_iff.mp h
  cases h
  obtain ⟨hbalanced, hindent⟩ := Braced.piecewise.programTokens hnames ts hts
  have hended := ended_programTokens ts hts
  refine ⟨Layout.balanced_indented hindent hbalanced, hended.indented,
    fun front line rest h hfront hline => ?_⟩
  have hindented := hended.lines.indentedBy rfl hbalanced.nested hindent h hfront hline
  simpa [openBraces] using hindented

/-- `function f(%a) { if (%a) %o = new X() { y = 1; }; }`, with an object in the middle of an assignment. -/
def objectInFunction : List Node :=
  [.function ⟨"f", none, none, ["%a"]⟩
    [.ifElse (.var "%a" none)
      [.assign (.var "%o" none) none (.object (.constant (.str "X")) none none false []
        [.assign (.field none "y" none) none (.constant (.uint 1))] [] 0)] []]]

/-- An object in the body of a function is laid out. -/
theorem program_laidOut_objectInFunction :
    ∃ tokens, (∀ n ∈ objectInFunction, n.Named Plain Plain) ∧ program objectInFunction = .ok tokens ∧
      tokens.count openBrace = 3 ∧ LaidOut tokens := by
  have hnames : ∀ n ∈ objectInFunction, n.Named Plain Plain := by decide
  have hwritten : program objectInFunction = .ok (["function", " ", "f", "(", "%a", ")", "\n", openBrace, "\n"] ++
      [indent, "if", " ", "(", "%a", ")", "\n", indent, openBrace, "\n"] ++
      [indent, indent, "%o", " ", "=", " ", "new", " ", "X", "(", ")", "\n", indent, indent, openBrace, "\n"] ++
      [indent, indent, indent, "y", " ", "=", " ", "1", ";", "\n", indent, indent, closeBrace, ";", "\n"] ++
      [indent, closeBrace, "\n", closeBrace, "\n"]) := by decide +kernel
  exact ⟨_, hnames, hwritten, by decide, program_laidOut hnames hwritten⟩

end Source

end TorqueScript
